/-
  What a `DeltaStore` saves.

  `NVSStore` writes all bytes of an object into the log, every time; `DeltaStore` writes those that
  lie on modified pages.  The headers are the same size and so are the commit words, and they come
  in the same places:

      put(k, v)    header | bytes | commit              header | modified bytes | commit
      put_all()    outer header | n times header | ..   outer header | n times header | ..

  So two processes, one with each store, that are asked the same are `skipped` bytes apart: the bytes
  of unmodified pages, counted at each snapshot that passed over them (`Duo.Level`).  In particular
  `DeltaStore` is never the first to run out of log.
-/
import NvStream.Stores.Versions
import NvStream.DeltaStore.Calls

namespace NvStream

open FlatMem LittleEndian LoadProg PersistTrace

/-! ## The bytes of one object -/

namespace Object

/-- The bytes of an object that lie on a page with its bit unset. -/
def unmodifiedBytes (o : Object) : Finset Nat :=
  (Finset.range o.size.toNat).filter (fun b => o.bitset[b / pageSize]? ≠ some true)

/-- A byte is in the chunks or on an unmodified page. -/
theorem size_eq {o : Object} (ho : o.Sized) :
    o.size.toNat = o.deltaLen + o.unmodifiedBytes.card := by
  rw [deltaLen_eq_card ho, modifiedBytes, unmodifiedBytes, Finset.card_filter_add_card_filter_not,
    Finset.card_range]

theorem lasting_sized : Lasting Sized where
  mark := by
    intro o j ho
    rw [setModifiedBit]
    split
    · exact ⟨ho.aligned.trans (by rw [List.length_set]), ho.covers, ho.tight, ho.fits⟩
    · exact ho
  version := fun o v ho => ⟨ho.aligned, ho.covers, ho.tight, ho.fits⟩
  reset := fun o ho =>
    ⟨ho.aligned.trans (by rw [resetBitVector, List.length_map]), ho.covers, ho.tight, ho.fits⟩

theorem Sized.snapshotted {o : Object} (ho : o.Sized) (version : UInt64) :
    (DeltaStore.snapshotted version o).Sized :=
  lasting_sized.reset _ (lasting_sized.version o version ho)

end Object

/-- The bytes of all these objects that lie on unmodified pages. -/
def unmodifiedLen (objs : List Object) : Nat := (objs.map (fun o => o.unmodifiedBytes.card)).sum

/-- The batches of the two stores, for the same objects. -/
theorem batchLen_eq {objs : List Object} (h : ∀ o ∈ objs, o.Sized) :
    NvsStore.batchLen objs = DeltaStore.batchLen objs + unmodifiedLen objs := by
  induction objs with
  | nil => rfl
  | cons o os ih =>
    have hsize := Object.size_eq (h o (List.mem_cons_self ..))
    have hrest := ih (fun o' ho' => h o' (List.mem_cons_of_mem _ ho'))
    simp only [NvsStore.batchLen, DeltaStore.batchLen, unmodifiedLen, List.map_cons,
      List.sum_cons] at hrest ⊢
    omega

/-! ## What the writers hand to the log -/

theorem NvsStore.length_record (junk : LeHdr) (heap : Mem Byte) (o : Object) (version : UInt64) :
    (gather [(junk.fill o version).iov, o.iov heap]).length = sizeofLehdr + o.size.toNat := by
  rw [gather_record, List.length_append, Written.length_bytes]
  exact congrArg (sizeofLehdr + ·) (o.length_contents heap)

theorem Object.length_deltaRow (heap : Mem Byte) (junk : LeHdr) (o : Object) (version : UInt64) :
    (gather (o.deltaRow heap junk version)).length = sizeofLehdr + o.deltaLen := by
  rw [o.gather_deltaRow, List.length_append, LeHdr.length_encode, o.length_payload, sizeofLehdr]

theorem DeltaStore.length_rows (heap : Mem Byte) (junk : Nat → LeHdr) (objs : List Object) :
    (gather ([((junk 0).outer (totCnt objs)).iov] :: deltaRows heap junk 1 objs).flatten).length =
      sizeofLehdr + batchLen objs := by
  rw [List.flatten_cons, List.singleton_append, gather_cons, List.length_append, gather_deltaRows,
    length_batchBytes]
  exact congrArg (· + _) (LeHdr.length_encode _)

/-! ## Objects of the same sizes -/

/-- The size of each object. -/
def sizes (objs : SortedMap Key Object) : SortedMap Key UInt64 := objs.map Object.size

section
variable {objs objs' : SortedMap Key Object}

theorem sizes_mapVal {f : Key → Object → Object} (hf : ∀ k o, (f k o).size = o.size) :
    sizes (objs.mapVal f) = sizes objs :=
  SortedMap.map_mapVal_eq_self _ hf _

theorem sizes_modify {key : Key} {f : Object → Object} (hf : ∀ o, (f o).size = o.size) :
    sizes (objs.modify key f) = sizes objs := by
  apply sizes_mapVal
  intro k o
  split
  · exact hf o
  · rfl

theorem find_of_sizes (h : sizes objs' = sizes objs) {key : Key} {o : Object}
    (ho : objs.find? key = some o) : ∃ o', objs'.find? key = some o' ∧ o'.size = o.size := by
  have hkey := congrArg (fun m => m.find? key) h
  simp only [sizes, SortedMap.find?_map, ho] at hkey
  exact Option.map_eq_some_iff.mp hkey

theorem find_none_of_sizes (h : sizes objs' = sizes objs) {key : Key}
    (ho : objs.find? key = none) : objs'.find? key = none := by
  have hkey := congrArg (fun m => m.find? key) h
  simp only [sizes, SortedMap.find?_map, ho] at hkey
  exact Option.map_eq_none_iff.mp hkey

/-- How long a batch gets depends on the sizes only. -/
theorem batchLen_of_sizes (h : sizes objs' = sizes objs) :
    NvsStore.batchLen (objs.entries.map Prod.snd) =
      NvsStore.batchLen (objs'.entries.map Prod.snd) := by
  have hlist := congrArg (fun m => m.entries.map (fun p => sizeofLehdr + p.2.toNat)) h
  simp only [sizes, SortedMap.map, List.map_map] at hlist
  rw [NvsStore.batchLen, NvsStore.batchLen, List.map_map, List.map_map]
  exact congrArg List.sum hlist.symm

theorem length_of_sizes (h : sizes objs' = sizes objs) :
    objs'.entries.length = objs.entries.length := by
  have hlist := congrArg (fun m => m.entries.length) h
  simpa only [sizes, SortedMap.map, List.length_map] using hlist

end

/-! ## Two processes -/

/-- The same application on an `NVSStore` and on a `DeltaStore`.  `skipped` counts the bytes of
    unmodified pages that snapshots of the second one have passed over. -/
structure Duo where
  nvs : NvsStore
  delta : DeltaStore
  skipped : Nat

namespace Duo

/-- No objects yet. -/
def start (l : Log) (f : File) (heap : Mem Byte) (l' : Log) (f' : File) (heap' : Mem Byte) : Duo :=
  ⟨NvsStore.ctor l f heap, DeltaStore.ctor l' f' heap', 0⟩

/-- What a `put` of the key passes over. -/
def unmodifiedAt (T : Duo) (key : Key) : Nat :=
  match T.delta.objectMap.find? key with
  | none => 0
  | some obj => obj.unmodifiedBytes.card

/-- What a `put_all` passes over. -/
def unmodified (T : Duo) : Nat := unmodifiedLen (T.delta.objectMap.entries.map Prod.snd)

/-- One request, made in both processes and returning in both; stores of the application, in either
    of them; or a restart of both. -/
inductive Step : Duo → Duo → Prop
  | createObj {T : Duo} {code code' : ErrorCode} {addr addr' : Nat} {s' : NvsStore}
      {d' : DeltaStore} (key : Key) (size : UInt64) (ptr ptr' : Nat)
      (halloc : T.delta.Allocated size ptr')
      (h : T.nvs.createObj key size ptr = .ok (code, addr, s'))
      (h' : T.delta.createObj key size ptr' = .ok (code', addr', d')) :
      Step T { T with nvs := s', delta := d' }
  | put {T : Duo} {code : ErrorCode} {r : ErrorCode ⊕ Nat × DeltaStore} {s' : NvsStore}
      (junk junk' : LeHdr) (key : Key) (version : UInt64)
      (h : T.nvs.put junk key version = .ok (code, s'))
      (h' : T.delta.put junk' key version = .ok r) :
      Step T ⟨s', T.delta.afterPut r, T.skipped + T.unmodifiedAt key⟩
  | putAll {T : Duo} {n n' : Nat} {s' : NvsStore} {d' : DeltaStore} (junk junk' : Nat → LeHdr)
      (h : T.nvs.putAll junk = .ok (n, s')) (h' : T.delta.putAll junk' = .ok (n', d')) :
      Step T ⟨s', d', T.skipped + T.unmodified⟩
  | writeNvs {T : Duo} (heap : Mem Byte) : Step T { T with nvs := { T.nvs with heap := heap } }
  | writeDelta {T : Duo} {d' : DeltaStore} (addr : Nat) (b : Byte)
      (h : T.delta.write addr b = .ok d') : Step T { T with delta := d' }
  | restart {T : Duo} {l l' : Log} {f f' : File} (heap heap' : Mem Byte)
      (h : Log.ctor (some T.nvs.file) 0 = .ok (l, f))
      (h' : Log.ctor (some T.delta.file) 0 = .ok (l', f')) :
      Step T { T with nvs := NvsStore.ctor l f heap, delta := DeltaStore.ctor l' f' heap' }

/-- Both stores hold objects of the same sizes, and the bodies of the logs are `skipped` bytes
    apart. -/
structure Level (T : Duo) (body body' : List Byte) : Prop where
  rep : Rep T.nvs.file body
  synced : T.nvs.log.Synced T.nvs.file body
  rep' : Rep T.delta.file body'
  synced' : T.delta.log.Synced T.delta.file body'
  longer : T.nvs.file.len ≤ T.delta.file.len
  sizes : sizes T.delta.objectMap = sizes T.nvs.objectMap
  sized : T.delta.Objects Object.Sized
  apart : body.length = body'.length + T.skipped

section
variable {T T' : Duo} {body body' : List Byte}

theorem Level.createObj (hl : T.Level body body') {code code' : ErrorCode} {addr addr' : Nat}
    {s' : NvsStore} {d' : DeltaStore} {key : Key} {size : UInt64} {ptr ptr' : Nat}
    (halloc : T.delta.Allocated size ptr')
    (h : T.nvs.createObj key size ptr = .ok (code, addr, s'))
    (h' : T.delta.createObj key size ptr' = .ok (code', addr', d')) :
    Level { T with nvs := s', delta := d' } body body' := by
  obtain ⟨_, rfl⟩ := NvsStore.createObj_eq h
  obtain ⟨_, hplaced, rfl⟩ := DeltaStore.createObj_eq halloc h'
  refine ⟨hl.rep, hl.synced, hl.rep', hl.synced', hl.longer, ?_, ?_, hl.apart⟩
  · show NvStream.sizes (T.delta.objectMap.insert _ _) = NvStream.sizes (T.nvs.objectMap.insert _ _)
    rw [NvStream.sizes, NvStream.sizes, SortedMap.map_insert, SortedMap.map_insert]
    exact congrArg (fun m => m.insert key size) hl.sizes
  · exact hl.sized.insert hplaced.toPaged.sized rfl

/-- Both processes append, the first one `k` bytes more. -/
theorem Level.append (hl : T.Level body body') {s' : NvsStore} {d' : DeltaStore} {k : Nat}
    {iov iov' : List IoVec} (happ : T.nvs.log.appendv T.nvs.file iov = .ok (s'.log, s'.file))
    (happ' : T.delta.log.appendv T.delta.file iov' = .ok (d'.log, d'.file))
    (hmore : (gather iov).length = (gather iov').length + k)
    (hsizes : NvStream.sizes d'.objectMap = NvStream.sizes s'.objectMap)
    (hsized : d'.Objects Object.Sized) :
    ∃ body body', Level ⟨s', d', T.skipped + k⟩ body body' := by
  obtain ⟨_, hlen, hr, hs⟩ := appendv_ok hl.rep hl.synced happ rfl
  obtain ⟨_, hlen', hr', hs'⟩ := appendv_ok hl.rep' hl.synced' happ' rfl
  refine ⟨_, _, hr, hs, hr', hs', ?_, hsizes, hsized, ?_⟩
  · show s'.file.len ≤ d'.file.len
    rw [hlen, hlen']
    exact hl.longer
  · show _ = _ + (T.skipped + k)
    have hapart := hl.apart
    simp only [List.length_append]
    omega

/-- What fits into the first log, with `k` bytes to spare, fits into the second. -/
theorem Level.fits (hl : T.Level body body') {r : Log × File} {k : Nat} {iov iov' : List IoVec}
    (happ : T.nvs.log.appendv T.nvs.file iov = .ok r)
    (hmore : (gather iov).length = (gather iov').length + k) :
    ∃ r', T.delta.log.appendv T.delta.file iov' = .ok r' := by
  obtain ⟨log, file⟩ := r
  have hle := (appendv_ok hl.rep hl.synced happ rfl).1
  have hapart := hl.apart
  have hlonger := hl.longer
  exact ⟨_, appendv_of_fits hl.rep' hl.synced' (by omega)⟩

/-- What the two stores hand to the log for one object. -/
theorem Level.record (hl : T.Level body body') {key : Key} {obj obj' : Object}
    (hfind' : T.delta.objectMap.find? key = some obj') (hsize : obj'.size = obj.size)
    (junk junk' : LeHdr) (version : UInt64) :
    (gather [(junk.fill obj version).iov, obj.iov T.nvs.heap]).length =
      (gather (obj'.deltaRow T.delta.heap junk' version)).length + T.unmodifiedAt key := by
  have hsum := Object.size_eq (hl.sized _ ((SortedMap.find?_eq_some _ _ _).mp hfind'))
  rw [hsize] at hsum
  rw [NvsStore.length_record, Object.length_deltaRow, hsum, unmodifiedAt, hfind', Nat.add_assoc]

/-- What they hand to it for all of them. -/
theorem Level.batch (hl : T.Level body body') (junk junk' : Nat → LeHdr) :
    (gather (((junk 0).outer (NvsStore.totCnt (T.nvs.objectMap.entries.map Prod.snd))).iov ::
      NvsStore.innerIov T.nvs.heap junk 1 (T.nvs.objectMap.entries.map Prod.snd))).length =
    (gather ([((junk' 0).outer (DeltaStore.totCnt (T.delta.objectMap.entries.map Prod.snd))).iov] ::
      DeltaStore.deltaRows T.delta.heap junk' 1
        (T.delta.objectMap.entries.map Prod.snd)).flatten).length + T.unmodified := by
  have hsized : ∀ o ∈ T.delta.objectMap.entries.map Prod.snd, o.Sized := by
    intro o ho
    obtain ⟨p, hp, rfl⟩ := List.mem_map.mp ho
    exact hl.sized p hp
  rw [NvsStore.length_gather_batch, NvsStore.length_batch, DeltaStore.length_rows,
    batchLen_of_sizes hl.sizes, batchLen_eq hsized, unmodified, Nat.add_assoc]

theorem Level.put (hl : T.Level body body') {code : ErrorCode}
    {r : ErrorCode ⊕ Nat × DeltaStore} {s' : NvsStore} {junk junk' : LeHdr} {key : Key}
    {version : UInt64} (h : T.nvs.put junk key version = .ok (code, s'))
    (h' : T.delta.put junk' key version = .ok r) :
    ∃ body body', Level ⟨s', T.delta.afterPut r, T.skipped + T.unmodifiedAt key⟩ body body' := by
  rcases NvsStore.put_eq h with ⟨hnone, _, rfl⟩ | ⟨obj, log, file, hfind, _, happ, rfl⟩
  · -- neither store knows the key
    have hnone' := find_none_of_sizes hl.sizes hnone
    have hzero : T.unmodifiedAt key = 0 := by rw [unmodifiedAt, hnone']
    have hsame : T.delta.afterPut r = T.delta := by
      cases r with
      | inl code => rfl
      | inr r =>
        obtain ⟨_, _, _, hsome, _⟩ := DeltaStore.put_eq h'
        rw [hnone'] at hsome
        cases hsome
    rw [hzero, hsame]
    exact ⟨body, body', hl⟩
  · obtain ⟨obj', hfind', hsize⟩ := find_of_sizes hl.sizes hfind
    cases r with
    | inl code =>
      rw [DeltaStore.put_missing h'] at hfind'
      cases hfind'
    | inr r =>
      obtain ⟨n, d'⟩ := r
      obtain ⟨o, log', file', ho, happ', heq⟩ := DeltaStore.put_eq h'
      obtain rfl := Option.some.inj (ho.symm.trans hfind')
      subst heq
      refine hl.append happ happ' (hl.record hfind' hsize junk junk' version) ?_ ?_
      · refine (sizes_modify ?_).trans (hl.sizes.trans (sizes_modify ?_).symm)
        · exact fun o => rfl
        · exact fun o => rfl
      · exact hl.sized.modify (g := DeltaStore.snapshotted version)
          (fun o ho => ho.snapshotted version) rfl

theorem Level.putAll (hl : T.Level body body') {n n' : Nat} {s' : NvsStore} {d' : DeltaStore}
    {junk junk' : Nat → LeHdr} (h : T.nvs.putAll junk = .ok (n, s'))
    (h' : T.delta.putAll junk' = .ok (n', d')) :
    ∃ body body', Level ⟨s', d', T.skipped + T.unmodified⟩ body body' := by
  obtain ⟨log, file, happ, rfl⟩ := NvsStore.putAll_eq h
  obtain ⟨log', file', happ', rfl⟩ := DeltaStore.putAll_eq h'
  rw [appendmv_eq_appendv] at happ'
  refine hl.append happ happ' (hl.batch junk junk') ?_ ?_
  · refine (sizes_mapVal ?_).trans (hl.sizes.trans (sizes_mapVal ?_).symm)
    · exact fun k o => rfl
    · exact fun k o => rfl
  · exact hl.sized.mapVal (g := fun _ o => DeltaStore.snapshotted (o.version + 1) o)
      (fun k o ho => ho.snapshotted (o.version + 1)) rfl

/-- A `put` that `NVSStore` has room for. -/
theorem Level.put_fits (hl : T.Level body body') {code : ErrorCode} {s' : NvsStore} {junk : LeHdr}
    {key : Key} {version : UInt64} (h : T.nvs.put junk key version = .ok (code, s'))
    (hfive : T.delta.Objects (fun o => o.getDeltaChunks.length ≤ 5)) (junk' : LeHdr) :
    ∃ r, T.delta.put junk' key version = .ok r := by
  unfold DeltaStore.put
  rcases NvsStore.put_eq h with ⟨hnone, _, _⟩ | ⟨obj, log, file, hfind, _, happ, _⟩
  · rw [find_none_of_sizes hl.sizes hnone]
    exact ⟨_, rfl⟩
  · obtain ⟨obj', hfind', hsize⟩ := find_of_sizes hl.sizes hfind
    obtain ⟨⟨log', file'⟩, happ'⟩ := hl.fits happ (hl.record hfind' hsize junk junk' version)
    rw [hfind']
    simp only [if_pos (hfive _ ((SortedMap.find?_eq_some _ _ _).mp hfind')), happ']
    exact ⟨_, rfl⟩

/-- A `put_all` that `NVSStore` has room for. -/
theorem Level.putAll_fits (hl : T.Level body body') {n : Nat} {s' : NvsStore} {junk : Nat → LeHdr}
    (h : T.nvs.putAll junk = .ok (n, s'))
    (hfive : T.delta.Objects (fun o => o.getDeltaChunks.length ≤ 5)) (junk' : Nat → LeHdr) :
    ∃ r, T.delta.putAll junk' = .ok r := by
  obtain ⟨log, file, happ, _⟩ := NvsStore.putAll_eq h
  obtain ⟨⟨log', file'⟩, happ'⟩ := hl.fits happ (hl.batch junk junk')
  have hcount : 1 + 2 * T.nvs.objectMap.entries.length < 2 ^ 31 := by
    by_contra hmany
    rw [NvsStore.putAll, if_neg (by rwa [List.length_map])] at h
    cases h
  have hrows : (T.delta.objectMap.entries.map Prod.snd).length + 1 < 2 ^ 31 ∧
      ∀ obj ∈ T.delta.objectMap.entries.map Prod.snd, obj.getDeltaChunks.length ≤ 5 := by
    constructor
    · rw [List.length_map, length_of_sizes hl.sizes]
      omega
    · intro obj hobj
      obtain ⟨p, hp, rfl⟩ := List.mem_map.mp hobj
      exact hfive p hp
  rw [← appendmv_eq_appendv] at happ'
  unfold DeltaStore.putAll
  simp only [if_pos hrows, happ']
  exact ⟨_, rfl⟩

end

end Duo

end NvStream
