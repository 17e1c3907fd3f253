/-
  How the three stores number versions.

  `NVSStore`, `DeltaStore` and `FileStore` each keep a version per object and each write the
  bookkeeping out by hand: `create_obj` sets 0, `put_all` adds one, and `put` is to set the version it
  was given.  Seen through `versions`, the map from keys to versions,

      create_obj(k)    insert k 0          (`FileStore`: under the trimmed key)
      put(k, v)        set k to v          (`FileStore`: NOTHING)
      put_all()        add 1 everywhere

  So a `Trio` of stores that are asked the same stays alike exactly as long as no `put` changes a
  version (`versions_alike`); the first `put` that does leaves `FileStore` behind
  (`put_leaves_file_store_behind`), and the next `put_all` records other pairs there.

  What a `put_all` records is what it has written: in the two logs the keys and versions that are read
  back from the batch, header by header (`File.batchPairs`), in the directory the files that are there
  then.
-/
import NvStream.NvsStore.RoundTrip
import NvStream.DeltaStore.Decode
import NvStream.FileStore.Names
import NvStream.Stores.Batches

namespace NvStream

open FlatMem LittleEndian LoadProg PersistTrace Overwrite

/-- The version of each object. -/
def versions (objs : SortedMap Key Object) : SortedMap Key UInt64 := objs.map Object.version

/-! ## What each call does to the versions -/

/-- The store behind a `put` that returned. -/
def DeltaStore.afterPut (s : DeltaStore) (r : ErrorCode ⊕ Nat × DeltaStore) : DeltaStore :=
  r.elim (fun _ => s) Prod.snd

section
variable {key : Key} {version size : UInt64} {tmpPtr addr n : Nat} {code : ErrorCode}

theorem versions_insert (objs : SortedMap Key Object) (key : Key) (o : Object) :
    versions (objs.insert key o) = (versions objs).insert key o.version :=
  SortedMap.map_insert _ _ _ _

theorem versions_put {objs : SortedMap Key Object} {f : Object → Object}
    (hf : ∀ o, (f o).version = version) :
    versions (objs.modify key f) = (versions objs).modify key (fun _ => version) :=
  SortedMap.map_modify _ hf _ _

theorem versions_put_missing {objs : SortedMap Key Object} (h : objs.find? key = none)
    (version : UInt64) : versions objs = (versions objs).modify key (fun _ => version) := by
  refine (SortedMap.modify_eq_self ?_).symm
  intro v hv
  rw [versions, SortedMap.find?_map, h] at hv
  cases hv

theorem versions_putAll {objs : SortedMap Key Object} {f : Key → Object → Object}
    (hf : ∀ k o, (f k o).version = o.version + 1) :
    versions (objs.mapVal f) = (versions objs).mapVal (fun _ v => v + 1) :=
  SortedMap.map_mapVal _ hf _

theorem versions_keep {objs : SortedMap Key Object} {f : Key → Object → Object}
    (hf : ∀ k o, (f k o).version = o.version) : versions (objs.mapVal f) = versions objs := by
  apply SortedMap.ext_entries
  show (objs.entries.map _).map _ = objs.entries.map _
  rw [List.map_map]
  exact List.map_congr_left (fun p _ => congrArg (p.1, ·) (hf p.1 p.2))

theorem NvsStore.versions_put {s s' : NvsStore} {junk : LeHdr}
    (h : s.put junk key version = .ok (code, s')) :
    versions s'.objectMap = (versions s.objectMap).modify key (fun _ => version) := by
  rcases put_cases h with ⟨hfind, _, rfl⟩ | ⟨_, _, _, hmap, _⟩
  · exact versions_put_missing hfind version
  · rw [hmap]
    exact NvStream.versions_put (fun _ => rfl)

theorem DeltaStore.versions_put {s : DeltaStore} {junk : LeHdr} {r : ErrorCode ⊕ Nat × DeltaStore}
    (h : s.put junk key version = .ok r) :
    versions (s.afterPut r).objectMap = (versions s.objectMap).modify key (fun _ => version) := by
  cases r with
  | inl code => exact versions_put_missing (put_missing h) version
  | inr r =>
    obtain ⟨n, s'⟩ := r
    obtain ⟨_, _, _, _, _, heq⟩ := put_eq h
    show versions s'.objectMap = _
    rw [heq]
    exact NvStream.versions_put (fun _ => rfl)

theorem FileStore.objectMap_put {s s' : FileStore} {r : ErrorCode ⊕ Nat}
    (h : s.put key version = .ok (r, s')) : s'.objectMap = s.objectMap := by
  rcases put_cases h with ⟨_, rfl⟩ | ⟨_, _, _, _, rfl⟩
  · rfl
  · rfl

end

/-! ## Three processes -/

/-- The same application on all three stores. -/
structure Trio where
  nvs : NvsStore
  delta : DeltaStore
  file : FileStore

namespace Trio

/-- No objects yet. -/
def start (l : Log) (f : File) (heap : Mem Byte) (l' : Log) (f' : File) (heap' : Mem Byte)
    (disk : Disk) (heap'' : Mem Byte) : Trio :=
  ⟨NvsStore.ctor l f heap, DeltaStore.ctor l' f' heap', FileStore.ctor disk heap''⟩

/-- Every object has the same version in all three stores. -/
structure Agree (T : Trio) : Prop where
  delta : versions T.delta.objectMap = versions T.nvs.objectMap
  file : versions T.file.objectMap = versions T.nvs.objectMap

/-- The version given to `put` is the one the object has. -/
def Current (T : Trio) (key : Key) (version : UInt64) : Prop :=
  ∀ v, (versions T.nvs.objectMap).find? key = some v → v = version

/-- A `put` in all three stores that returns in all of them. -/
inductive Put (key : Key) (version : UInt64) : Trio → Trio → Prop
  | put {T : Trio} {code : ErrorCode} {r : ErrorCode ⊕ Nat × DeltaStore} {r' : ErrorCode ⊕ Nat}
      {s' : NvsStore} {t' : FileStore} (junk junk' : LeHdr)
      (h : T.nvs.put junk key version = .ok (code, s'))
      (h' : T.delta.put junk' key version = .ok r)
      (h'' : T.file.put key version = .ok (r', t')) :
      Put key version T ⟨s', T.delta.afterPut r, t'⟩

/-- One request, made in all three processes and returning in all of them, or any change of memory
    and of the pages noted as modified.  `valid` restricts the keys, `ok` the puts. -/
inductive Step (valid : Key → Prop) (ok : Trio → Key → UInt64 → Prop) : Trio → Trio → Prop
  | createObj {T : Trio} {code code' code'' : ErrorCode} {addr addr' addr'' : Nat} {s' : NvsStore}
      {d' : DeltaStore} {t' : FileStore} (key : Key) (size : UInt64) (ptr ptr' ptr'' : Nat)
      (hkey : valid key) (h : T.nvs.createObj key size ptr = .ok (code, addr, s'))
      (h' : T.delta.createObj key size ptr' = .ok (code', addr', d'))
      (h'' : T.file.createObj key size ptr'' = .ok (code'', addr'', t')) :
      Step valid ok T ⟨s', d', t'⟩
  | put {T T' : Trio} (key : Key) (version : UInt64) (hkey : valid key) (hok : ok T key version)
      (h : Put key version T T') : Step valid ok T T'
  | putAll {T : Trio} {n n' n'' : Nat} {s' : NvsStore} {d' : DeltaStore} {t' : FileStore}
      (junk junk' : Nat → LeHdr) (h : T.nvs.putAll junk = .ok (n, s'))
      (h' : T.delta.putAll junk' = .ok (n', d')) (h'' : T.file.putAll = .ok (n'', t')) :
      Step valid ok T ⟨s', d', t'⟩
  | modify {T : Trio} (heap heap' heap'' : Mem Byte) (readOnly : Nat → Bool)
      (bits : Key → List Bool) :
      Step valid ok T ⟨{ T.nvs with heap := heap },
        { T.delta with
          heap := heap'
          readOnly := readOnly
          objectMap := T.delta.objectMap.mapVal (fun k o => { o with bitset := bits k }) },
        { T.file with heap := heap'' }⟩

variable {T T' : Trio} {key : Key} {version : UInt64}

/-- **A `put` keeps the stores alike exactly if it does not change the version.** -/
theorem Agree.put_iff (ha : T.Agree) (h : Put key version T T') :
    T'.Agree ↔ T.Current key version := by
  obtain ⟨junk, junk', h, h', h''⟩ := h
  have hnvs := NvsStore.versions_put h
  have hdelta := DeltaStore.versions_put h'
  have hfile := FileStore.objectMap_put h''
  rw [ha.delta, ← hnvs] at hdelta
  rw [Current, ← SortedMap.modify_const_eq_self]
  constructor
  · intro hagree
    rw [← hnvs, ← hagree.file, ← ha.file]
    exact congrArg versions hfile
  · intro heq
    refine ⟨hdelta, ?_⟩
    show versions _ = versions _
    rw [hfile, ha.file, hnvs, heq]

theorem Agree.createObj (ha : T.Agree) {code code' code'' : ErrorCode} {addr addr' addr'' : Nat}
    {s' : NvsStore} {d' : DeltaStore} {t' : FileStore} {size : UInt64} {ptr ptr' ptr'' : Nat}
    (hkey : trimRight key = key) (h : T.nvs.createObj key size ptr = .ok (code, addr, s'))
    (h' : T.delta.createObj key size ptr' = .ok (code', addr', d'))
    (h'' : T.file.createObj key size ptr'' = .ok (code'', addr'', t')) : Agree ⟨s', d', t'⟩ := by
  obtain ⟨_, hnvs, _⟩ := NvsStore.createObj_map h
  obtain ⟨_, rfl⟩ := DeltaStore.createObj_inserts h'
  obtain ⟨_, hfile⟩ := FileStore.createObj_cases h''
  rw [hkey] at hfile
  constructor
  · show versions (T.delta.objectMap.insert _ _) = versions s'.objectMap
    rw [hnvs, versions_insert, versions_insert, ha.delta]
    rfl
  · show versions t'.objectMap = versions s'.objectMap
    rw [hfile, hnvs, versions_insert, versions_insert, ha.file]
    rfl

/-- **One request keeps the stores alike.** -/
theorem Step.agree (h : Step (fun key => trimRight key = key) Current T T') (ha : T.Agree) :
    T'.Agree := by
  cases h with
  | createObj key size ptr ptr' ptr'' hkey h h' h'' => exact ha.createObj hkey h h' h''
  | put key version hkey hok h => exact (ha.put_iff h).mpr hok
  | putAll junk junk' h h' h'' =>
    obtain ⟨_, _, _, hdelta⟩ := DeltaStore.putAll_eq h'
    constructor
    · show versions _ = versions _
      rw [hdelta, NvsStore.putAll_map h, versions_putAll (fun _ _ => rfl),
        versions_putAll (fun _ _ => rfl), ha.delta]
    · show versions _ = versions _
      rw [FileStore.putAll_ok h'', NvsStore.putAll_map h, versions_putAll (fun _ _ => rfl),
        versions_putAll (fun _ _ => rfl), ha.file]
  | modify heap heap' heap'' readOnly bits =>
    refine ⟨?_, ha.file⟩
    exact (versions_keep (f := fun k o => { o with bitset := bits k }) (fun _ _ => rfl)).trans
      ha.delta

end Trio

/-! ## The logs -/

/-- The file is a log, and the handle is in step with it, as `Log::Log` leaves them. -/
def Log.Sound (l : Log) (f : File) : Prop := ∃ body, Rep f body ∧ l.Synced f body

theorem Log.sound_new {size : Nat} {l : Log} {f : File} (hsize : sizeofLhdr ≤ size)
    (h : Log.ctor none size = .ok (l, f)) : l.Sound f := by
  obtain ⟨hr, hs, _⟩ := ctor_create hsize h
  exact ⟨[], hr, hs⟩

/-- Every object is filed under its name. -/
def Named (objs : SortedMap Key Object) : Prop := ∀ p ∈ objs.entries, p.2.name = p.1

theorem Named.mapVal {objs : SortedMap Key Object} {g : Key → Object → Object} (h : Named objs)
    (hg : ∀ k o, (g k o).name = o.name) : Named (objs.mapVal g) := by
  intro p hp
  obtain ⟨o, ho, hpo⟩ := (SortedMap.mem_mapVal _ _ _).mp hp
  rw [hpo, hg]
  exact h (p.1, o) ho

theorem Named.modify {objs : SortedMap Key Object} {f : Object → Object} (h : Named objs)
    (hf : ∀ o, (f o).name = o.name) (key : Key) : Named (objs.modify key f) := by
  refine h.mapVal (fun k o => ?_)
  split
  · exact hf o
  · rfl

theorem Named.insert {objs : SortedMap Key Object} {key : Key} {o : Object} (h : Named objs)
    (ho : o.name = key) : Named (objs.insert key o) := by
  intro p hp
  rcases (SortedMap.mem_insert _ _ _ _).mp hp with rfl | ⟨hp, _⟩
  · exact ho
  · exact h p hp

/-- What a store needs for its batches to be read: its log, and the names of its objects. -/
structure Filed (l : Log) (f : File) (objs : SortedMap Key Object) : Prop where
  log : l.Sound f
  named : Named objs

theorem DeltaStore.filed_put {s : DeltaStore} {body : List Byte} {junk : LeHdr} {key : Key}
    {version : UInt64} {r : ErrorCode ⊕ Nat × DeltaStore} (hr : Rep s.file body)
    (hs : s.log.Synced s.file body) (hn : Named s.objectMap)
    (h : s.put junk key version = .ok r) :
    Filed (s.afterPut r).log (s.afterPut r).file (s.afterPut r).objectMap := by
  cases r with
  | inl code => exact ⟨⟨body, hr, hs⟩, hn⟩
  | inr r =>
    obtain ⟨_, _, hr', hs', _⟩ := DeltaStore.put_ok hr hs h
    obtain ⟨_, _, _, _, _, heq⟩ := DeltaStore.put_eq h
    refine ⟨⟨_, hr', hs'⟩, ?_⟩
    show Named r.2.objectMap
    rw [heq]
    exact hn.modify (f := snapshotted version) (fun _ => rfl) key

namespace Trio

variable {T T' : Trio} {valid : Key → Prop} {ok : Trio → Key → UInt64 → Prop}

theorem Step.nvs_filed (h : Step valid ok T T')
    (hT : Filed T.nvs.log T.nvs.file T.nvs.objectMap) :
    Filed T'.nvs.log T'.nvs.file T'.nvs.objectMap := by
  obtain ⟨⟨body, hr, hs⟩, hn⟩ := hT
  cases h with
  | createObj key size ptr ptr' ptr'' hkey h h' h'' =>
    obtain ⟨_, rfl⟩ := NvsStore.createObj_eq h
    exact ⟨⟨body, hr, hs⟩, hn.insert rfl⟩
  | put key version hkey hok h =>
    obtain ⟨_, _, h, _, _⟩ := h
    rcases NvsStore.put_cases h with ⟨_, _, rfl⟩ | ⟨_, _, rfl, hmap, _⟩
    · exact ⟨⟨body, hr, hs⟩, hn⟩
    · obtain ⟨_, _, hr', hs', _⟩ := NvsStore.put_ok hr hs h
      refine ⟨⟨_, hr', hs'⟩, ?_⟩
      rw [hmap]
      exact hn.modify (f := fun o => o.setVersion version) (fun _ => rfl) key
  | putAll junk junk' h h' h'' =>
    obtain ⟨_, _, _, hr', hs', _⟩ := NvsStore.putAll_ok hr hs h
    exact ⟨⟨_, hr', hs'⟩, NvsStore.putAll_map h ▸ hn.mapVal (fun _ _ => rfl)⟩
  | modify heap heap' heap'' readOnly bits => exact ⟨⟨body, hr, hs⟩, hn⟩

theorem Step.delta_filed (h : Step valid ok T T')
    (hT : Filed T.delta.log T.delta.file T.delta.objectMap) :
    Filed T'.delta.log T'.delta.file T'.delta.objectMap := by
  obtain ⟨⟨body, hr, hs⟩, hn⟩ := hT
  cases h with
  | createObj key size ptr ptr' ptr'' hkey h h' h'' =>
    obtain ⟨_, rfl⟩ := DeltaStore.createObj_inserts h'
    exact ⟨⟨body, hr, hs⟩, hn.insert rfl⟩
  | put key version hkey hok h =>
    obtain ⟨_, _, _, h', _⟩ := h
    exact DeltaStore.filed_put hr hs hn h'
  | putAll junk junk' h h' h'' =>
    obtain ⟨_, hr', hs'⟩ := DeltaStore.putAll_ok hr hs h'
    obtain ⟨_, _, _, heq⟩ := DeltaStore.putAll_eq h'
    refine ⟨⟨_, hr', hs'⟩, ?_⟩
    rw [heq]
    exact hn.mapVal (fun _ _ => rfl)
  | modify heap heap' heap'' readOnly bits => exact ⟨⟨body, hr, hs⟩, hn.mapVal (fun _ _ => rfl)⟩

section
variable {l l' : Log} {f f' : File} {heap heap' heap'' : Mem Byte} {disk : Disk}

/-- **A run keeps the handles in step with their logs**, and the objects under their names. -/
theorem nvs_filed (hrun : Relation.ReflTransGen (Step valid ok)
    (start l f heap l' f' heap' disk heap'') T) (hl : l.Sound f) :
    Filed T.nvs.log T.nvs.file T.nvs.objectMap :=
  Runs.invariant (P := fun T : Trio => Filed T.nvs.log T.nvs.file T.nvs.objectMap)
    (fun h hT => h.nvs_filed hT) hrun ⟨hl, fun _ hp => absurd hp List.not_mem_nil⟩

theorem delta_filed (hrun : Relation.ReflTransGen (Step valid ok)
    (start l f heap l' f' heap' disk heap'') T) (hl : l'.Sound f') :
    Filed T.delta.log T.delta.file T.delta.objectMap :=
  Runs.invariant (P := fun T : Trio => Filed T.delta.log T.delta.file T.delta.objectMap)
    (fun h hT => h.delta_filed hT) hrun ⟨hl, fun _ hp => absurd hp List.not_mem_nil⟩

end

end Trio

/-! ## What a snapshot records -/

/-- The keys and versions of the records from `off` on, up to `stop`.  `field` is where a record says
    how long its payload is. -/
def File.pairsIn (f : File) (field stop : Nat) : Nat → Nat → List (Key × UInt64)
  | 0, _ => []
  | fuel + 1, off =>
    if off < stop then
      (cStr (load f.bytes off keyLen), UInt64.ofNat (word f.bytes (off + versionField))) ::
        pairsIn f field stop fuel (off + sizeofLehdr + word f.bytes (off + field))
    else []

/-- The keys and versions in the batch at `off`, which ends where its header says. -/
def File.batchPairs (f : File) (field off : Nat) : List (Key × UInt64) :=
  f.pairsIn field (off + sizeofLehdr + word f.bytes (off + lenField)) f.len (off + sizeofLehdr)

/-- Pairs, as far as a header can hold their keys. -/
def headerPairs (pairs : List (Key × UInt64)) : List (Key × UInt64) :=
  pairs.map (fun p => (keyField p.1, p.2))

/-- The pairs a `put_all` records: they are in the batch that then stands where the log ended. -/
def NvsStore.Snapshots (s : NvsStore) (pairs : List (Key × UInt64)) : Prop :=
  ∀ junk n s', s.putAll junk = .ok (n, s') →
    s'.file.batchPairs lenField s.log.writeOffset = headerPairs pairs

/-- The same; a record of a `DeltaStore` has `delta_len` bytes of payload. -/
def DeltaStore.Snapshots (s : DeltaStore) (pairs : List (Key × UInt64)) : Prop :=
  ∀ junk n s', s.putAll junk = .ok (n, s') →
    s'.file.batchPairs deltaLenField s.log.writeOffset = headerPairs pairs

/-- The file is the snapshot file of one of the pairs. -/
def Disk.IsSnapshot (d : Disk) (pairs : List (Key × UInt64)) (file : Nat) : Prop :=
  ∃ p ∈ pairs, d.resolve (cStr (snapshotName p.1 p.2)) = some file

/-- The pairs a `put_all` records: whatever the directory held before, the snapshot files of these
    pairs are then there, and all other files are as they were. -/
def FileStore.Snapshots (s : FileStore) (pairs : List (Key × UInt64)) : Prop :=
  ∀ content n s', FileStore.putAll { s with disk := ⟨s.disk.resolve, content⟩ } = .ok (n, s') →
    ∀ file, (s.disk.IsSnapshot pairs file → s'.disk.content file ≠ none) ∧
      (¬ s.disk.IsSnapshot pairs file → s'.disk.content file = content file)

/-- Every key, with the version after the present one. -/
def nextPairs (vs : SortedMap Key UInt64) : List (Key × UInt64) :=
  vs.entries.map (fun p => (p.1, p.2 + 1))

theorem nextPairs_versions (objs : SortedMap Key Object) :
    nextPairs (versions objs) = objs.entries.map (fun p => (p.1, p.2.version + 1)) :=
  List.map_map

theorem headerPairs_nextPairs {objs : SortedMap Key Object} (hn : Named objs) :
    headerPairs (nextPairs (versions objs)) =
      (objs.entries.map Prod.snd).map (fun o => (keyField o.name, o.version + 1)) := by
  rw [headerPairs, nextPairs_versions, List.map_map, List.map_map]
  refine List.map_congr_left (fun p hp => ?_)
  show (keyField p.1, _) = (keyField p.2.name, _)
  rw [hn p hp]

/-! ### Reading a batch -/

/-- The key and the version a record was written under. -/
def RawRecord.pair (r : RawRecord) : Key × UInt64 := (cStr r.hdr.kname.toList, r.hdr.version)

theorem RawRecord.length_bytes (r : RawRecord) :
    r.bytes.length = sizeofLehdr + r.bufs.flatten.length := by
  rw [bytes, List.length_append, LeHdr.length_encode, sizeofLehdr]

/-- **The records that were written are read.**  Induction on the records; each of them says where
    the next one is, and there is a step of fuel for every byte. -/
theorem File.pairsIn_eq {f : File} {field : Nat} {recs : List RawRecord}
    (hlen : ∀ r ∈ recs, ∀ off, r.hdr.At f.bytes off →
      word f.bytes (off + field) = r.bufs.flatten.length)
    {fuel off : Nat} (hfuel : (recs.flatMap RawRecord.bytes).length ≤ fuel)
    (hload : load f.bytes off (recs.flatMap RawRecord.bytes).length =
      recs.flatMap RawRecord.bytes) :
    f.pairsIn field (off + (recs.flatMap RawRecord.bytes).length) fuel off =
      recs.map RawRecord.pair := by
  induction recs generalizing fuel off with
  | nil =>
    cases fuel with
    | zero => rfl
    | succ fuel => exact if_neg (Nat.lt_irrefl off)
  | cons r recs ih =>
    rw [List.flatMap_cons] at hload hfuel ⊢
    obtain ⟨hrec, hrest⟩ := (load_append_iff _ _ _ _).mp hload
    obtain ⟨hhdr, _⟩ := (load_append_iff _ _ _ _).mp hrec
    rw [LeHdr.length_encode] at hhdr
    obtain ⟨hname, hversion, _, _⟩ := LeHdr.At.fields hhdr
    have hword := hlen r List.mem_cons_self off hhdr
    rw [List.length_append, r.length_bytes] at hfuel
    rw [r.length_bytes] at hrest
    have hnext : off + sizeofLehdr + word f.bytes (off + field) =
        off + (sizeofLehdr + r.bufs.flatten.length) := by
      rw [hword, Nat.add_assoc]
    cases fuel with
    | zero =>
      rw [sizeofLehdr] at hfuel
      omega
    | succ fuel =>
      have hfuel' : (recs.flatMap RawRecord.bytes).length ≤ fuel := by
        rw [sizeofLehdr] at hfuel
        omega
      have hih := ih (fun r' hr' => hlen r' (List.mem_cons_of_mem _ hr')) hfuel' hrest
      have hlt : off < off + (r.bytes ++ recs.flatMap RawRecord.bytes).length := by
        rw [List.length_append, r.length_bytes, sizeofLehdr]
        omega
      rw [pairsIn, if_pos hlt, hnext, List.length_append, r.length_bytes, ← Nat.add_assoc off, hih,
        List.map_cons]
      refine congrArg (· :: _) (Prod.ext ?_ ?_)
      · exact congrArg cStr hname
      · show UInt64.ofNat (word f.bytes (off + 24)) = r.hdr.version
        rw [hversion, UInt64.ofNat_toNat]

/-- **A batch in the log is read as it was written.** -/
theorem Rep.batchPairs {f : File} {body rest : List Byte} {outer : LeHdr} {recs : List RawRecord}
    {field : Nat}
    (hr : Rep f (body ++ ((outer.encode ++ recs.flatMap RawRecord.bytes) ++ rest)))
    (houter : outer.len.toNat = (recs.flatMap RawRecord.bytes).length)
    (hlen : ∀ r ∈ recs, ∀ off, r.hdr.At f.bytes off →
      word f.bytes (off + field) = r.bufs.flatten.length) :
    f.batchPairs field (32 + body.length) = recs.map RawRecord.pair := by
  obtain ⟨hhdr, hload⟩ := hr.entry
  obtain ⟨_, _, hword, _⟩ := LeHdr.At.fields hhdr
  have hstop : word f.bytes (32 + body.length + lenField) =
      (recs.flatMap RawRecord.bytes).length := hword.trans houter
  rw [File.batchPairs, hstop]
  refine File.pairsIn_eq hlen ?_ hload
  have hroom := hr.room
  simp only [List.length_append] at hroom
  omega

/-! ### What is there after a snapshot -/

theorem mem_rawRecords {lay : LeHdr → Object → RawRecord} {junk : Nat → LeHdr} {i : Nat}
    {objs : List Object} {r : RawRecord} (h : r ∈ rawRecords lay junk i objs) :
    ∃ j, ∃ o ∈ objs, r = lay (junk j) o := by
  induction objs generalizing i with
  | nil => cases h
  | cons o os ih =>
    rcases List.mem_cons.mp h with rfl | h
    · exact ⟨i, o, List.mem_cons_self, rfl⟩
    · obtain ⟨j, o', ho', hr⟩ := ih h
      exact ⟨j, o', List.mem_cons_of_mem _ ho', hr⟩

theorem map_pair_rawRecords {lay : LeHdr → Object → RawRecord}
    (hlay : ∀ junk o, (lay junk o).pair = (keyField o.name, o.version + 1)) (junk : Nat → LeHdr)
    (i : Nat) (objs : List Object) : (rawRecords lay junk i objs).map RawRecord.pair =
      objs.map (fun o => (keyField o.name, o.version + 1)) :=
  map_rawRecords (fun o _ hdr => hlay hdr o) junk i

theorem NvsStore.snapshots {s : NvsStore} (hs : Filed s.log s.file s.objectMap) :
    s.Snapshots (nextPairs (versions s.objectMap)) := by
  intro junk n s' h
  obtain ⟨⟨body, hr, hs⟩, hn⟩ := hs
  obtain ⟨ws, fits, rfl, hr', _⟩ := NvsStore.putAll_ok hr hs h
  have hbytes := bytes_rawRecords s.heap junk 1 (s.objectMap.entries.map Prod.snd)
  have hbatch : Rep s'.file (body ++ ((((junk 0).outer (batchBytes _).length).encode ++
      batchBytes _) ++ commitWord)) := hr'
  have houter := (junk 0).len_outer fits
  rw [← hbytes] at hbatch houter
  have hpair : ∀ junk o, (lay s.heap junk o).pair = (keyField o.name, o.version + 1) :=
    fun junk o => congrArg (·, o.version + 1) (cStr_snprintfKey junk.kname o.name)
  rw [hs.write, hbatch.batchPairs houter, map_pair_rawRecords hpair, headerPairs_nextPairs hn]
  intro r hrec off hAt
  obtain ⟨j, o, _, rfl⟩ := mem_rawRecords hrec
  have hpayload : ((lay s.heap (junk j) o).bufs).flatten = o.contents s.heap := List.append_nil _
  rw [hpayload, o.length_contents]
  exact hAt.fields.2.2.1

theorem DeltaStore.snapshots {s : DeltaStore} (hs : Filed s.log s.file s.objectMap) :
    s.Snapshots (nextPairs (versions s.objectMap)) := by
  intro junk n s' h
  obtain ⟨⟨body, hr, hs⟩, hn⟩ := hs
  obtain ⟨houter, hbatch, _⟩ := DeltaStore.putAll_appended rfl hr hs h
  rw [← bytes_rawRecords] at houter hbatch
  have hpair : ∀ junk o, (lay s.heap junk o).pair = (keyField o.name, o.version + 1) :=
    fun junk o => congrArg (·, o.version + 1) (cStr_snprintfKey junk.kname o.name)
  rw [hs.write, hbatch.batchPairs houter, map_pair_rawRecords hpair, headerPairs_nextPairs hn]
  intro r hrec off hAt
  -- the batch is in the file, so `delta_len` has not wrapped
  have hle : r.bytes.length ≤ _ :=
    (List.sublist_flatten_of_mem (List.mem_map_of_mem hrec)).length_le
  have hroom := hbatch.room
  have hsmall := hbatch.small
  simp only [List.length_append, List.flatMap] at hroom
  obtain ⟨j, o, _, rfl⟩ := mem_rawRecords hrec
  have hpayload : ((lay s.heap (junk j) o).bufs).flatten.length = o.deltaLen :=
    o.length_payload s.heap
  rw [RawRecord.length_bytes, hpayload] at hle
  rw [hpayload, hAt.deltaFields.1]
  exact (o.toNat_deltaLen64).trans (u64_of_lt (by omega))

/-- The snapshot files are those that `put_all` writes. -/
theorem FileStore.isSnapshot_iff (s : FileStore) (file : Nat) :
    s.disk.IsSnapshot (nextPairs (versions s.objectMap)) file ↔
      last (s.disk.files s.snapshotWrites) file ≠ none := by
  rw [Ne, last_eq_none, nextPairs_versions]
  constructor
  · rintro ⟨_, hpair, hfile⟩ hnone
    obtain ⟨p, hp, rfl⟩ := List.mem_map.mp hpair
    refine hnone (file, p.2.contents s.heap) (List.mem_filterMap.mpr ?_) rfl
    exact ⟨_, List.mem_map_of_mem hp, congrArg (Option.map _) hfile⟩
  · intro hsome
    simp only [not_forall, not_not] at hsome
    obtain ⟨w, hw, rfl⟩ := hsome
    obtain ⟨v, hv, hw⟩ := List.mem_filterMap.mp hw
    obtain ⟨p, hp, rfl⟩ := List.mem_map.mp hv
    obtain ⟨file, hfile, rfl⟩ := Option.map_eq_some_iff.mp hw
    exact ⟨_, List.mem_map_of_mem hp, hfile⟩

theorem FileStore.snapshots (s : FileStore) : s.Snapshots (nextPairs (versions s.objectMap)) := by
  intro content n s' h file
  have hcontent : s'.disk.content file =
      (last (s.disk.files s.snapshotWrites) file).or (content file) := by
    rw [putAll_ok h]
    exact writeAll_apply _ _ file
  rw [hcontent, s.isSnapshot_iff, not_not]
  constructor
  · intro hsome
    obtain ⟨data, hdata⟩ := Option.ne_none_iff_exists'.mp hsome
    rw [hdata]
    exact Option.some_ne_none _
  · intro hnone
    rw [hnone, Option.none_or]

/-- **The three stores number versions alike** in every run over keys without white space at the end
    in which each `put` gives the version that the object has: in every state all objects have the
    same versions, and the next `put_all` records the same pairs everywhere, each key with the version
    after its present one (in a log, if it was one to begin with).  The condition cannot be relaxed: the next `put` keeps the stores alike if and
    only if it meets it. -/
theorem versions_alike {l l' : Log} {f f' : File} {heap heap' heap'' : Mem Byte} {disk : Disk}
    {T : Trio} (hrun : Relation.ReflTransGen
      (Trio.Step (fun key => trimRight key = key) Trio.Current)
      (Trio.start l f heap l' f' heap' disk heap'') T) :
    T.Agree ∧
    (∃ pairs, pairs = nextPairs (versions T.nvs.objectMap) ∧
      (l.Sound f → T.nvs.Snapshots pairs) ∧ (l'.Sound f' → T.delta.Snapshots pairs) ∧
      T.file.Snapshots pairs) ∧
    ∀ key version T', Trio.Put key version T T' → (T'.Agree ↔ T.Current key version) := by
  have hagree : T.Agree := Runs.invariant (P := Trio.Agree) (fun h ha => h.agree ha) hrun
    ⟨rfl, rfl⟩
  refine ⟨hagree, ?_, fun key version T' h => hagree.put_iff h⟩
  refine ⟨nextPairs (versions T.nvs.objectMap), rfl, fun hl => ?_, fun hl => ?_, ?_⟩
  · exact NvsStore.snapshots (Trio.nvs_filed hrun hl)
  · rw [← hagree.delta]
    exact DeltaStore.snapshots (Trio.delta_filed hrun hl)
  · rw [← hagree.file]
    exact T.file.snapshots

/-! ### One object in all three stores -/

/-- "a" is created in all three stores and put. -/
theorem trio_put (version : UInt64) : ∃ (l l' : Log) (f f' : File) (T : Trio),
    Log.ctor none logSize = .ok (l, f) ∧ Log.ctor none deltaLogSize = .ok (l', f') ∧
    Relation.ReflTransGen (Trio.Step (fun key => trimRight key = key) (fun _ _ _ => True))
      (Trio.start l f (fun _ => 9) l' f' (fun _ => 0) Disk.fresh (fun _ => 9)) T ∧
    (versions T.nvs.objectMap).entries = [([97], version)] ∧
    (versions T.delta.objectMap).entries = [([97], version)] ∧
    (versions T.file.objectMap).entries = [([97], 0)] := by
  obtain ⟨l, f, s₁, s₂, hnew, hcreate, hput, _, _, hentries, _⟩ := one_put [97] version
  obtain ⟨l', f', d₁, _, _, hnew', _, hcreate', hmap, _, _, hr, hs, hlen, _⟩ := DeltaStore.one_put
  obtain ⟨n, d₂, hput'⟩ := DeltaStore.put_of_fits hr hs blankHdr version
    (SortedMap.find?_of_singleton hmap) (by decide) (by rw [hlen]; decide)
  obtain ⟨t₁, t₂, hcreate'', hput'', hfile⟩ : ∃ t₁ t₂,
      (FileStore.ctor Disk.fresh (fun _ => 9)).createObj [97] 4 4096 = .ok (.noError, 4096, t₁) ∧
      t₁.put [97] version = .ok (.inr 4, t₂) ∧
      t₂.objectMap.entries = [([97], Object.ctor [97] 4 0 4096)] := ⟨_, _, rfl, rfl, rfl⟩
  refine ⟨l, l', f, f', _, hnew, hnew', .tail (.single (.createObj [97] 4 4096 4096 4096 rfl
    hcreate hcreate' hcreate'')) (.put [97] version rfl trivial
    (.put blankHdr blankHdr hput hput' hput'')), ?_, ?_, ?_⟩
  · exact congrArg (List.map _) hentries
  · rw [DeltaStore.versions_put hput']
    exact SortedMap.modify_of_singleton (congrArg (List.map _) hmap) _
  · exact congrArg (List.map _) hfile

/-- "a" is created, snapshotted and put as version 1 in an `NVSStore`, ... -/
theorem NvsStore.snapshot_put : ∃ l f s₁ n s₂ s₃, Log.ctor none logSize = .ok (l, f) ∧
    (NvsStore.ctor l f (fun _ => 9)).createObj [97] 4 4096 = .ok (.noError, 4096, s₁) ∧
    s₁.putAll (fun _ => blankHdr) = .ok (n, s₂) ∧
    s₂.objectMap.entries = [([97], (Object.ctor [97] 4 0 4096).setVersion 1)] ∧
    s₂.put blankHdr [97] 1 = .ok (.noError, s₃) := by
  obtain ⟨l, f, s₁, hnew, hcreate, hentries, _, _, hr, hs, hlen⟩ := one_object [97] 4
  have hobjs : s₁.objectMap.entries.map Prod.snd = [Object.ctor [97] 4 0 4096] :=
    congrArg (List.map Prod.snd) hentries
  obtain ⟨n, s₂, hputAll⟩ := putAll_of_fits hr hs (fun _ => blankHdr) hobjs (by decide)
    (by rw [hlen]; decide)
  obtain ⟨ws, fits, hws, hr₂, hs₂, hlen₂, _, _, hmap, _⟩ := putAll_ok hr hs hputAll
  have hentries₂ : s₂.objectMap.entries = [([97], (Object.ctor [97] 4 0 4096).setVersion 1)] := by
    rw [hmap]
    exact congrArg (List.map _) hentries
  have hbody : ([] ++ (Item.multiple blankHdr ws fits).entry.frame).length = 284 := by
    rw [List.nil_append, Entry.length_frame, Item.len_multiple, hws, hobjs, length_batch]
    decide
  obtain ⟨s₃, hput⟩ := put_of_fits hr₂ hs₂ blankHdr 1 (SortedMap.find?_of_singleton hentries₂)
    (by rw [hlen₂, hlen, hbody]; decide)
  exact ⟨l, f, s₁, n, s₂, s₃, hnew, hcreate, hputAll, hentries₂, hput⟩

/-- ... and in a `DeltaStore`. -/
theorem DeltaStore.snapshot_put : ∃ l f s₁ n s₂ r, Log.ctor none deltaLogSize = .ok (l, f) ∧
    (DeltaStore.ctor l f (fun _ => 0)).createObj [97] 4 4096 = .ok (.noError, 4096, s₁) ∧
    s₁.putAll (fun _ => blankHdr) = .ok (n, s₂) ∧ s₂.put blankHdr [97] 1 = .ok r := by
  obtain ⟨l, f, s₁, hnew, hcreate, hentries, _, _, hr, hs, hlen⟩ := one_object 4 4096
  have hobjs : s₁.objectMap.entries.map Prod.snd = [Object.ctorDelta [97] 4 0 4096] :=
    congrArg (List.map Prod.snd) hentries
  obtain ⟨n, s₂, hputAll⟩ := putAll_of_fits hr hs (fun _ => blankHdr) hobjs (by decide)
    (by decide) (by rw [hlen]; decide)
  obtain ⟨_, hr₂, hs₂⟩ := putAll_appended hobjs hr hs hputAll
  obtain ⟨_, _, happ, heq⟩ := putAll_eq hputAll
  have hentries₂ : s₂.objectMap.entries =
      [([97], snapshotted 1 (Object.ctorDelta [97] 4 0 4096))] := by
    rw [heq]
    exact congrArg (List.map _) hentries
  have hlen₂ : s₂.file.len = deltaLogSize := by
    rw [heq]
    exact (appendmv_ok hr hs happ rfl).2.1.trans hlen
  obtain ⟨n₂, s₃, hput⟩ := put_of_fits hr₂ hs₂ blankHdr 1
    (SortedMap.find?_of_singleton hentries₂) (by decide) (by
      rw [List.nil_append, List.length_append, List.length_append, LeHdr.length_encode,
        length_batchBytes, hlen₂]
      decide)
  exact ⟨l, f, s₁, n, s₂, _, hnew, hcreate, hputAll, hput⟩

/-- "a" is snapshotted in all three stores, and then put as version 1, the version it has. -/
theorem versions_alike_snapshot_put : ∃ (l l' : Log) (f f' : File) (T : Trio),
    Log.ctor none logSize = .ok (l, f) ∧ Log.ctor none deltaLogSize = .ok (l', f') ∧
    Relation.ReflTransGen (Trio.Step (fun key => trimRight key = key) Trio.Current)
      (Trio.start l f (fun _ => 9) l' f' (fun _ => 0) Disk.fresh (fun _ => 9)) T ∧
    (versions T.nvs.objectMap).entries = [([97], 1)] ∧ T.Agree ∧
    T.nvs.Snapshots [([97], 2)] ∧ T.delta.Snapshots [([97], 2)] ∧ T.file.Snapshots [([97], 2)] := by
  obtain ⟨l, f, s₁, n, s₂, s₃, hnew, hcreate, hputAll, hentries, hput⟩ := NvsStore.snapshot_put
  obtain ⟨l', f', d₁, n', d₂, r, hnew', hcreate', hputAll', hput'⟩ := DeltaStore.snapshot_put
  obtain ⟨t₁, t₂, t₃, hcreate'', hputAll'', hput''⟩ : ∃ t₁ t₂ t₃,
      (FileStore.ctor Disk.fresh (fun _ => 9)).createObj [97] 4 4096 = .ok (.noError, 4096, t₁) ∧
      t₁.putAll = .ok (4, t₂) ∧ t₂.put [97] 1 = .ok (.inr 4, t₃) := ⟨_, _, _, rfl, rfl, rfl⟩
  have hcurrent : Trio.Current ⟨s₂, d₂, t₂⟩ [97] 1 := by
    intro v hv
    rw [versions, SortedMap.find?_map, SortedMap.find?_of_singleton hentries] at hv
    exact (Option.some.inj hv).symm
  have hrun : Relation.ReflTransGen (Trio.Step (fun key => trimRight key = key) Trio.Current)
      (Trio.start l f (fun _ => 9) l' f' (fun _ => 0) Disk.fresh (fun _ => 9)) _ :=
    .tail (.tail (.single (.createObj [97] 4 4096 4096 4096 rfl hcreate hcreate' hcreate''))
      (.putAll _ _ hputAll hputAll' hputAll''))
      (.put [97] 1 rfl hcurrent (.put blankHdr blankHdr hput hput' hput''))
  obtain ⟨hagree, ⟨pairs, hpairs, hnvs, hdelta, hfile⟩, _⟩ := versions_alike hrun
  have hversions : (versions s₃.objectMap).entries = [([97], 1)] := by
    rw [NvsStore.versions_put hput]
    exact SortedMap.modify_of_singleton (congrArg (List.map _) hentries) _
  have hnext : nextPairs (versions s₃.objectMap) = [([97], 2)] := by
    rw [nextPairs, hversions]
    rfl
  obtain rfl : pairs = [([97], 2)] := hpairs.trans hnext
  exact ⟨l, l', f, f', _, hnew, hnew', hrun, hversions, hagree,
    hnvs (Log.sound_new (by decide) hnew), hdelta (Log.sound_new (by decide) hnew'), hfile⟩

/-- **One `put` leaves `FileStore` behind.**  "a" is created and put as version 5: two stores have
    version 5, `FileStore` has 0, and the next snapshot records version 6 or version 1. -/
theorem put_leaves_file_store_behind : ∃ (l l' : Log) (f f' : File) (T : Trio),
    Log.ctor none logSize = .ok (l, f) ∧ Log.ctor none deltaLogSize = .ok (l', f') ∧
    Relation.ReflTransGen (Trio.Step (fun key => trimRight key = key) (fun _ _ _ => True))
      (Trio.start l f (fun _ => 9) l' f' (fun _ => 0) Disk.fresh (fun _ => 9)) T ∧
    (versions T.nvs.objectMap).entries = [([97], 5)] ∧
    (versions T.delta.objectMap).entries = [([97], 5)] ∧
    (versions T.file.objectMap).entries = [([97], 0)] ∧
    T.nvs.Snapshots [([97], 6)] ∧ T.delta.Snapshots [([97], 6)] ∧
    T.file.Snapshots [([97], 1)] := by
  obtain ⟨l, l', f, f', T, hnew, hnew', hrun, hnvs, hdelta, hfile⟩ := trio_put 5
  refine ⟨l, l', f, f', T, hnew, hnew', hrun, hnvs, hdelta, hfile, ?_, ?_, ?_⟩
  · have h := NvsStore.snapshots (Trio.nvs_filed hrun (Log.sound_new (by decide) hnew))
    rw [nextPairs, hnvs] at h
    exact h
  · have h := DeltaStore.snapshots (Trio.delta_filed hrun (Log.sound_new (by decide) hnew'))
    rw [nextPairs, hdelta] at h
    exact h
  · have h := T.file.snapshots
    rw [nextPairs, hfile] at h
    exact h

end NvStream
