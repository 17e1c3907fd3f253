/-
  What `DeltaStore` writes into its log, and what else its writers do.

  One spec lemma per call, in two strengths.  `createObj_eq`, `put_eq` and `putAll_eq` say what a
  successful call has done to the process (objects, versions, bits, protection); they know nothing
  about the log.  `put_ok` and `putAll_ok` add what the call has appended to a log file.
-/
import NvStream.DeltaStore.Basic
import NvStream.DeltaStore.Chunks
import NvStream.Log.Framing

namespace NvStream

open FlatMem LittleEndian LoadProg PersistTrace

/-! ## The bytes of one object -/

namespace Object

/-- The bytes of the chunks, one after the other. -/
def payload (heap : Mem Byte) (o : Object) : List Byte :=
  o.getDeltaChunks.flatMap (fun c => (o.deltaIov heap c).base)

theorem length_payload (heap : Mem Byte) (o : Object) : (o.payload heap).length = o.deltaLen := by
  rw [payload, List.length_flatMap, deltaLen]
  congr 1
  apply List.map_congr_left
  intro c _
  exact length_load _ _ _

theorem gather_deltaRow (heap : Mem Byte) (junk : LeHdr) (o : Object) (version : UInt64) :
    gather (o.deltaRow heap junk version) =
      (junk.fillDelta o version).encode ++ o.payload heap := by
  rw [deltaRow, gather_cons, gather, List.flatMap_map]
  rfl

/-- The local `delta_len` is the sum of the chunks, modulo `2 ^ 64`. -/
theorem toNat_deltaLen64 (o : Object) : o.deltaLen64.toNat = u64 o.deltaLen := by
  have hnat : o.deltaLen64.toNat =
      o.getDeltaChunks.foldl (fun t c => u64 (t + c.len.toNat)) 0 :=
    (List.foldl_hom UInt64.toNat (fun t c => (UInt64.toNat_add t c.len).symm)).symm
  rw [hnat, foldl_u64 (fun c : Delta => c.len.toNat) (fun _ => rfl) _ (by decide), Nat.zero_add,
    deltaLen]

/-- The chunks never hold more bytes than the object. -/
theorem deltaLen_le (o : Object) (ho : o.Sized) : o.deltaLen ≤ o.size.toNat := by
  obtain ⟨hsort, hin⟩ := getDeltaChunks_sorted ho
  rw [o.deltaLen_eq_sum]
  exact BitRuns.sum_le _ 0 (Nat.zero_le _) hsort (fun r hr => ⟨Nat.zero_le _, hin r hr⟩)

/-! ### The chunks, copied into a buffer -/

/-- The chunks with their payloads. -/
def pieces (heap : Mem Byte) (o : Object) : List (Delta × List Byte) :=
  o.getDeltaChunks.map (fun c => (c, (o.deltaIov heap c).base))

theorem flatMap_pieces (heap : Mem Byte) (o : Object) :
    (o.pieces heap).flatMap Prod.snd = o.payload heap := by
  rw [pieces, List.flatMap_map]
  rfl

/-- What a reader of the chunks has to copy: each payload, to its `start_offset`. -/
def chunkCopies (heap : Mem Byte) (o : Object) : List (Nat × List Byte) :=
  (o.pieces heap).map (fun p => (p.1.startOffset.toNat, p.2))

theorem chunkCopies_eq (heap : Mem Byte) (o : Object) : o.chunkCopies heap =
    o.getDeltaChunks.map (fun c => (c.startOffset.toNat, (o.deltaIov heap c).base)) :=
  List.map_map ..

section
variable {o : Object}

/-- A chunk ends inside the object. -/
theorem chunk_le (ho : o.Sized) {c : Delta} (hc : c ∈ o.getDeltaChunks) :
    c.startOffset.toNat + c.len.toNat ≤ o.size.toNat :=
  ((getDeltaChunks_sorted ho).2 _ (List.mem_map_of_mem hc)).2

/-- The payload of a chunk is the piece of the object at its offset: the address does not wrap. -/
theorem base_deltaIov (ho : o.Sized) (hend : o.ptr + o.size.toNat < 2 ^ 64) (heap : Mem Byte)
    {c : Delta} (hc : c ∈ o.getDeltaChunks) :
    (o.deltaIov heap c).base =
      load (fun a => heap (o.ptr + a)) c.startOffset.toNat c.len.toNat := by
  have hle := chunk_le ho hc
  show load heap (u64 (o.ptr + c.startOffset.toNat)) c.len.toNat = _
  rw [u64_of_lt (by omega), load_shift]

/-- No copy reaches past the object. -/
theorem chunkCopies_bounds (ho : o.Sized) (heap : Mem Byte) :
    ∀ c ∈ o.chunkCopies heap, c.1 + c.2.length ≤ o.size.toNat := by
  intro c hc
  rw [chunkCopies_eq] at hc
  obtain ⟨d, hd, rfl⟩ := List.mem_map.mp hc
  show d.startOffset.toNat + ((o.deltaIov heap d).base).length ≤ _
  rw [deltaIov, length_load]
  exact chunk_le ho hd

/-- **What the copies do to a buffer**: in the marked pages it is the object, elsewhere it is what
    it was. -/
theorem storeAll_chunkCopies (ho : o.Sized) (hend : o.ptr + o.size.toNat < 2 ^ 64)
    (heap copy : Mem Byte) {a : Nat} (ha : a < o.size.toNat) :
    storeAll copy (o.chunkCopies heap) a =
      if o.bitset[a / pageSize]? = some true then heap (o.ptr + a) else copy a := by
  have hcovers := covers_getDeltaChunks ho a
  have hlen : ∀ d ∈ o.getDeltaChunks, (o.deltaIov heap d).base.length = d.len.toNat :=
    fun d _ => length_load _ _ _
  rw [chunkCopies_eq]
  split
  · rename_i hbit
    refine storeAll_in (fun a => heap (o.ptr + a)) ?_ ?_
    · intro c hc
      obtain ⟨d, hd, rfl⟩ := List.mem_map.mp hc
      dsimp only
      rw [hlen d hd]
      exact base_deltaIov ho hend heap hd
    · obtain ⟨r, hr, hle, hlt⟩ := hcovers.mpr ⟨ha, hbit⟩
      obtain ⟨d, hd, rfl⟩ := List.mem_map.mp hr
      refine ⟨_, List.mem_map_of_mem hd, hle, ?_⟩
      dsimp only
      rw [hlen d hd]
      exact hlt
  · rename_i hbit
    refine storeAll_out ?_
    intro c hc
    obtain ⟨d, hd, rfl⟩ := List.mem_map.mp hc
    dsimp only
    rw [hlen d hd]
    by_contra hin
    exact hbit (hcovers.mp ⟨_, List.mem_map_of_mem hd, by show d.startOffset.toNat ≤ a; omega,
      by show a < d.startOffset.toNat + d.len.toNat; omega⟩).2

end

end Object

namespace DeltaStore

/-- A snapshot keeps the frame of an object. -/
theorem sameFrame_snapshotted (version : UInt64) (o : Object) :
    o.SameFrame (snapshotted version o) :=
  ⟨rfl, rfl, rfl, List.length_map _⟩

/-- What a successful `create_obj` has done: the key was free, and holds an object with all of its
    pages modified. -/
theorem createObj_inserts {s s' : DeltaStore} {key : Key} {size : UInt64} {ptr addr : Nat}
    {code : ErrorCode} (h : s.createObj key size ptr = .ok (code, addr, s')) :
    s.objectMap.find? key = none ∧
      s' = { s with objectMap := s.objectMap.insert key (Object.ctorDelta key size 0 ptr) } := by
  unfold createObj at h
  split at h
  · rename_i hfind
    simp only [Except.ok.injEq, Prod.mk.injEq] at h
    exact ⟨hfind, h.2.2.symm⟩
  · cases h

/-- In a block that was allocated for it, the object is placed. -/
theorem createObj_eq {s s' : DeltaStore} {key : Key} {size : UInt64} {ptr addr : Nat}
    {code : ErrorCode} (halloc : s.Allocated size ptr)
    (h : s.createObj key size ptr = .ok (code, addr, s')) :
    s.objectMap.find? key = none ∧ (Object.ctorDelta key size 0 ptr).Placed ∧
      s' = { s with objectMap := s.objectMap.insert key (Object.ctorDelta key size 0 ptr) } := by
  obtain ⟨hfind, heq⟩ := createObj_inserts h
  exact ⟨hfind, Object.placed_ctorDelta key 0 halloc.aligned halloc.nonnull halloc.inside, heq⟩

/-! ## `put` -/

section
variable {s s' : DeltaStore} {junk : LeHdr} {key : Key} {version : UInt64} {n : Nat}

/-- What a `put` that wrote something has done. -/
theorem put_eq (h : s.put junk key version = .ok (.inr (n, s'))) :
    ∃ obj log file, s.objectMap.find? key = some obj ∧
      s.log.appendv s.file (obj.deltaRow s.heap junk version) = .ok (log, file) ∧
      s' = { s with
        log := log
        file := file
        objectMap := s.objectMap.modify key (snapshotted version)
        readOnly := enableWriteProtection obj.ptr obj.alignedSize s.readOnly } := by
  unfold DeltaStore.put at h
  split at h
  · cases h
  · rename_i obj hfind
    split at h
    · split at h
      · cases h
      · rename_i log file happ
        simp only [Except.ok.injEq, Sum.inr.injEq, Prod.mk.injEq] at h
        exact ⟨obj, log, file, hfind, happ, h.2.symm⟩
    · cases h

/-- A `put` that wrote nothing found no object. -/
theorem put_missing {code : ErrorCode} (h : s.put junk key version = .ok (.inl code)) :
    s.objectMap.find? key = none := by
  unfold DeltaStore.put at h
  split at h
  · assumption
  · split at h
    · split at h
      · cases h
      · cases h
    · cases h

/-- **What it has appended**: the header, with the size of the object, and the chunks. -/
theorem put_ok {body : List Byte} (hr : Rep s.file body) (hs : s.log.Synced s.file body)
    (h : s.put junk key version = .ok (.inr (n, s'))) :
    ∃ obj, s.objectMap.find? key = some obj ∧
      Rep s'.file (body ++ (((junk.fillDelta obj version).encode ++ obj.payload s.heap) ++
        commitWord)) ∧
      s'.log.Synced s'.file (body ++ (((junk.fillDelta obj version).encode ++
        obj.payload s.heap) ++ commitWord)) ∧
      32 + body.length + (sizeofLehdr + obj.deltaLen) + wordLength ≤ s.file.len - 1 ∧
      s'.file.len = s.file.len := by
  obtain ⟨obj, log, file, hfind, happ, rfl⟩ := put_eq h
  obtain ⟨hle, hlen, hr', hs'⟩ := appendv_ok hr hs happ (obj.gather_deltaRow _ _ _)
  rw [List.length_append, LeHdr.length_encode, obj.length_payload] at hle
  exact ⟨obj, hfind, hr', hs', hle, hlen⟩

/-- A `put` with at most five chunks that fits succeeds. -/
theorem put_of_fits {body : List Byte} {obj : Object} (hr : Rep s.file body)
    (hs : s.log.Synced s.file body) (junk : LeHdr) (version : UInt64)
    (hobj : s.objectMap.find? key = some obj)
    (hfive : obj.getDeltaChunks.length ≤ 5)
    (hfit : 32 + body.length + (sizeofLehdr + obj.deltaLen) + 8 ≤ s.file.len - 1) :
    ∃ n s', s.put junk key version = .ok (.inr (n, s')) := by
  have hlen : (gather (obj.deltaRow s.heap junk version)).length = sizeofLehdr + obj.deltaLen := by
    rw [obj.gather_deltaRow, List.length_append, LeHdr.length_encode, obj.length_payload,
      sizeofLehdr]
  have happ : s.log.appendv s.file (obj.deltaRow s.heap junk version) = _ :=
    appendv_of_fits hr hs (by rw [hlen]; exact hfit)
  unfold DeltaStore.put
  rw [hobj]
  simp only [if_pos hfive, happ]
  exact ⟨_, _, rfl⟩

end

/-! ## `put_all` -/

/-- The bytes of the rows of `put_all`, the outer header left out. -/
def batchBytes (heap : Mem Byte) (junk : Nat → LeHdr) : Nat → List Object → List Byte
  | _, [] => []
  | i, o :: os =>
    ((junk i).fillDelta o (o.version + 1)).encode ++ o.payload heap ++
      batchBytes heap junk (i + 1) os

/-- The bytes a batch of the objects takes up. -/
def batchLen (objs : List Object) : Nat := (objs.map (fun o => o.deltaLen + sizeofLehdr)).sum

theorem gather_deltaRows (heap : Mem Byte) (junk : Nat → LeHdr) (i : Nat) (objs : List Object) :
    gather (deltaRows heap junk i objs).flatten = batchBytes heap junk i objs := by
  induction objs generalizing i with
  | nil => rfl
  | cons o os ih =>
    rw [deltaRows, List.flatten_cons, gather, List.flatMap_append, batchBytes, ← ih,
      ← o.gather_deltaRow]
    rfl

theorem length_batchBytes (heap : Mem Byte) (junk : Nat → LeHdr) (i : Nat) (objs : List Object) :
    (batchBytes heap junk i objs).length = batchLen objs := by
  induction objs generalizing i with
  | nil => rfl
  | cons o os ih =>
    rw [batchBytes, List.length_append, List.length_append, LeHdr.length_encode, o.length_payload,
      ih, batchLen, batchLen, List.map_cons, List.sum_cons, sizeofLehdr, Nat.add_comm 136]

/-- `tot_cnt` counts the bytes of the batch, modulo `2 ^ 64`. -/
theorem totCnt_eq (objs : List Object) : totCnt objs = u64 (batchLen objs) := by
  have hsummand : ∀ o : Object, u64 (u64 (o.deltaLen64.toNat + sizeofLehdr)) =
      u64 (o.deltaLen + sizeofLehdr) := by
    intro o
    rw [o.toNat_deltaLen64]
    simp only [u64, Nat.mod_add_mod, Nat.mod_mod]
  rw [totCnt, foldl_u64 (fun o => o.deltaLen + sizeofLehdr) hsummand objs (by decide),
    Nat.zero_add, batchLen]

section
variable {s s' : DeltaStore} {junk : Nat → LeHdr} {n : Nat}

/-- What a successful `put_all` has done. -/
theorem putAll_eq (h : s.putAll junk = .ok (n, s')) :
    ∃ log file, s.log.appendmv s.file
        ([((junk 0).outer (totCnt (s.objectMap.entries.map Prod.snd))).iov] ::
          deltaRows s.heap junk 1 (s.objectMap.entries.map Prod.snd)) = .ok (log, file) ∧
      s' = { s with
        log := log
        file := file
        objectMap := s.objectMap.mapVal (fun _ obj => snapshotted (obj.version + 1) obj)
        readOnly := (s.objectMap.entries.map Prod.snd).foldl
          (fun ro obj => enableWriteProtection obj.ptr obj.alignedSize ro) s.readOnly } := by
  unfold DeltaStore.putAll at h
  simp only at h
  split at h
  · split at h
    · cases h
    · rename_i log file happ
      simp only [Except.ok.injEq, Prod.mk.injEq] at h
      exact ⟨log, file, happ, h.2.symm⟩
  · cases h

/-- **What it has appended**: the outer header, whose `len` is the number of bytes behind it, and the
    rows. -/
theorem putAll_appended {body : List Byte} {objs : List Object}
    (hobjs : s.objectMap.entries.map Prod.snd = objs) (hr : Rep s.file body)
    (hs : s.log.Synced s.file body) (h : s.putAll junk = .ok (n, s')) :
    ((junk 0).outer (totCnt objs)).len.toNat = (batchBytes s.heap junk 1 objs).length ∧
      Rep s'.file (body ++ ((((junk 0).outer (totCnt objs)).encode ++
        batchBytes s.heap junk 1 objs) ++ commitWord)) ∧
      s'.log.Synced s'.file (body ++ ((((junk 0).outer (totCnt objs)).encode ++
        batchBytes s.heap junk 1 objs) ++ commitWord)) := by
  obtain ⟨log, file, happ, rfl⟩ := putAll_eq h
  rw [hobjs] at happ
  have hgather : gather ([((junk 0).outer (totCnt objs)).iov] ::
      deltaRows s.heap junk 1 objs).flatten =
      ((junk 0).outer (totCnt objs)).encode ++ batchBytes s.heap junk 1 objs := by
    rw [List.flatten_cons, List.singleton_append, gather_cons, gather_deltaRows]
    rfl
  obtain ⟨hle, _, hr', hs'⟩ := appendmv_ok hr hs happ hgather
  refine ⟨?_, hr', hs'⟩
  -- the call succeeded, so the batch fits and `tot_cnt` has not wrapped
  have hfits : batchLen objs < 2 ^ 64 := by
    have hsmall := hr.small
    rw [List.length_append, length_batchBytes] at hle
    omega
  show (UInt64.ofNat (totCnt objs)).toNat = _
  rw [totCnt_eq, u64_of_lt hfits, toNat_ofNat hfits, length_batchBytes]

theorem putAll_ok {body : List Byte} (hr : Rep s.file body) (hs : s.log.Synced s.file body)
    (h : s.putAll junk = .ok (n, s')) :
    ∃ e : Entry, Rep s'.file (body ++ e.frame) ∧ s'.log.Synced s'.file (body ++ e.frame) := by
  obtain ⟨hlen, hr', hs'⟩ := putAll_appended rfl hr hs h
  exact ⟨Entry.ofHdr _ _ hlen, hr', hs'⟩

/-- A `put_all` with at most five chunks an object that fits succeeds. -/
theorem putAll_of_fits {body : List Byte} (hr : Rep s.file body) (hs : s.log.Synced s.file body)
    (junk : Nat → LeHdr) {objs : List Object} (hobjs : s.objectMap.entries.map Prod.snd = objs)
    (hcount : objs.length + 1 < 2 ^ 31) (hfive : ∀ obj ∈ objs, obj.getDeltaChunks.length ≤ 5)
    (hfit : 32 + body.length + (sizeofLehdr + batchLen objs) + 8 ≤ s.file.len - 1) :
    ∃ n s', s.putAll junk = .ok (n, s') := by
  subst hobjs
  unfold DeltaStore.putAll
  generalize s.objectMap.entries.map Prod.snd = objs at *
  have hlen : (gather ([((junk 0).outer (totCnt objs)).iov] ::
      deltaRows s.heap junk 1 objs).flatten).length = sizeofLehdr + batchLen objs := by
    rw [List.flatten_cons, List.singleton_append, gather_cons, gather_deltaRows,
      List.length_append, length_batchBytes]
    exact congrArg (· + _) (LeHdr.length_encode _)
  have happ : s.log.appendmv s.file
      ([((junk 0).outer (totCnt objs)).iov] :: deltaRows s.heap junk 1 objs) = _ :=
    (appendmv_eq_appendv _ _ _).trans (appendv_of_fits hr hs (by rw [hlen]; exact hfit))
  simp only [if_pos (And.intro hcount hfive), happ]
  exact ⟨_, _, rfl⟩

end

/-! ## A store with one object, put once -/

/-- A new store in which one object was created: its bytes are zero, and no page is protected. -/
theorem one_object (size : UInt64) (ptr : Nat) : ∃ l f s₁, Log.ctor none deltaLogSize = .ok (l, f) ∧
    (ctor l f (fun _ => 0)).createObj [97] size ptr = .ok (.noError, ptr, s₁) ∧
    s₁.objectMap.entries = [([97], Object.ctorDelta [97] size 0 ptr)] ∧
    s₁.heap = (fun _ => 0) ∧ s₁.readOnly = (fun _ => false) ∧
    Rep s₁.file [] ∧ s₁.log.Synced s₁.file [] ∧ s₁.file.len = deltaLogSize := by
  obtain ⟨l, f, hnew, hr, hs, hlen⟩ := ctor_ok deltaLogSize (by decide)
  exact ⟨l, f, _, hnew, rfl, rfl, rfl, rfl, hr, hs, hlen⟩

/-- An object of four bytes, created at address 4096 in a new store and put as version 1. -/
theorem one_put : ∃ l f s₁ n s₂, Log.ctor none deltaLogSize = .ok (l, f) ∧
    (ctor l f (fun _ => 0)).Allocated 4 4096 ∧
    (ctor l f (fun _ => 0)).createObj [97] 4 4096 = .ok (.noError, 4096, s₁) ∧
    s₁.objectMap.entries = [([97], Object.ctorDelta [97] 4 0 4096)] ∧
    s₁.heap = (fun _ => 0) ∧ s₁.readOnly = (fun _ => false) ∧
    Rep s₁.file [] ∧ s₁.log.Synced s₁.file [] ∧ s₁.file.len = deltaLogSize ∧
    s₁.put blankHdr [97] 1 = .ok (.inr (n, s₂)) := by
  obtain ⟨l, f, s₁, hnew, hcreate, hmap, hheap, hro, hr, hs, hlen⟩ := one_object 4 4096
  have hobj : s₁.objectMap.find? [97] = some (Object.ctorDelta [97] 4 0 4096) :=
    SortedMap.find?_of_singleton hmap
  obtain ⟨n, s₂, hput⟩ := put_of_fits hr hs blankHdr 1 hobj (by decide) (by rw [hlen]; decide)
  refine ⟨l, f, s₁, n, s₂, hnew, ?_, hcreate, hmap, hheap, hro, hr, hs, hlen, hput⟩
  refine ⟨by decide, by decide, by decide, ?_⟩
  intro p hp
  exact absurd hp List.not_mem_nil

end DeltaStore

end NvStream
