/-
  The arrays that `put_all` fills for `appendv` and `appendmv`.

  The model of `put_all` hands a LIST of buffers to the log.  The code has no such list: it stores into
  `malloc`ed arrays by index, the outer header last and in front.

      `NVSStore`     iovp        0      1      2       3      4       ..
                                 &l[0]  &l[1]  obj_0   &l[2]  obj_1   ..

      `DeltaStore`   iovpp[0]    &l[0]
                     iovpp[i]    &l[i]  chunk_0  chunk_1  ..              (object i - 1)

  `NVSStore` moves two pointers, by 2 and by 1 in each round; `DeltaStore` counts rows from 1, and in
  each row the slots from 1 while `deltas` counts from 0.  Here are the arrays as the loops leave them:
  an uninitialised one is an ARBITRARY function of the index, and a store is `Function.update`.  Read
  back by index they are the lists of the model (`buffers_putAllArrays`, `rows_putAllTable`).
-/
import NvStream.NvsStore.Records
import NvStream.DeltaStore.Entries

namespace NvStream

open FlatMem LittleEndian LoadProg PersistTrace

/-- Where an `iov_base` points: at an element of the array of headers, or into the memory of the
    process. -/
inductive IoBase where
  | hdr (i : Nat)
  | mem (addr : Nat)
deriving DecidableEq, Repr

/-- `struct iovec`, as it is filled. -/
structure IoSlot where
  base : IoBase
  len : Nat
deriving DecidableEq, Repr

/-- The bytes it stands for. -/
def IoSlot.bytes (heap : Mem Byte) (lEntry : Nat → LeHdr) (slot : IoSlot) : List Byte :=
  match slot.base with
  | .hdr i => (lEntry i).encode.take slot.len
  | .mem addr => load heap addr slot.len

/-- The slot of element `i` of the array of headers. -/
def IoSlot.ofHdr (i : Nat) : IoSlot := ⟨.hdr i, sizeofLehdr⟩

theorem IoSlot.bytes_ofHdr (heap : Mem Byte) (lEntry : Nat → LeHdr) (i : Nat) :
    (ofHdr i).bytes heap lEntry = (lEntry i).encode :=
  List.take_of_length_le (Nat.le_of_eq (lEntry i).length_encode)

/-! ## `NVSStore::put_all` -/

namespace NvsStore

/-- The locals of the loop: the two arrays, how far the pointers into them have moved, the sum. -/
structure Arrays where
  iovp : Nat → IoSlot
  lEntry : Nat → LeHdr
  tmpIovp : Nat
  tmpLEntry : Nat
  totCnt : Nat

namespace Arrays

/-- One round. -/
def addObject (a : Arrays) (obj : Object) : Arrays where
  lEntry := Function.update a.lEntry a.tmpLEntry
    ((a.lEntry a.tmpLEntry).fill obj (obj.version + 1))
  iovp := Function.update (Function.update a.iovp a.tmpIovp (.ofHdr a.tmpLEntry)) (a.tmpIovp + 1)
    ⟨.mem obj.ptr, obj.size.toNat⟩
  tmpIovp := a.tmpIovp + 2
  tmpLEntry := a.tmpLEntry + 1
  totCnt := u64 (a.totCnt + u64 (sizeofLehdr + obj.size.toNat))

/-- The stores behind the loop. -/
def setOuter (a : Arrays) (h : LeHdr) : Arrays :=
  { a with
    lEntry := Function.update a.lEntry 0 h
    iovp := Function.update a.iovp 0 (.ofHdr 0) }

/-- The buffers of `n` slots from `i` on. -/
def buffers (heap : Mem Byte) (a : Arrays) (i n : Nat) : List (List Byte) :=
  (List.range' i n).map (fun j => (a.iovp j).bytes heap a.lEntry)

end Arrays

/-- What `put_all` hands to `appendv`, over uninitialised arrays. -/
def putAllArrays (iovp : Nat → IoSlot) (lEntry : Nat → LeHdr) (objs : List Object) : Arrays :=
  let a := objs.foldl Arrays.addObject ⟨iovp, lEntry, 1, 1, 0⟩
  a.setOuter ((a.lEntry 0).outer a.totCnt)

/-- The loop looks at no header in front of its pointer. -/
theorem innerIov_congr (heap : Mem Byte) {l l' : Nat → LeHdr} (objs : List Object) :
    ∀ {i : Nat}, (∀ j ≥ i, l j = l' j) → innerIov heap l i objs = innerIov heap l' i objs := by
  induction objs with
  | nil => exact fun _ => rfl
  | cons o os ih =>
    intro i h
    rw [innerIov, innerIov, h i (Nat.le_refl i), ih (fun j hj => h j (Nat.le_of_succ_le hj))]

namespace Arrays

section
variable (a : Arrays) (obj : Object)

theorem iovp_addObject_of_lt {j : Nat} (h : j < a.tmpIovp) : (a.addObject obj).iovp j = a.iovp j := by
  simp only [addObject]
  rw [Function.update_of_ne (by omega), Function.update_of_ne (by omega)]

theorem iovp_addObject_hdr : (a.addObject obj).iovp a.tmpIovp = .ofHdr a.tmpLEntry := by
  simp only [addObject]
  rw [Function.update_of_ne (by omega), Function.update_self]

theorem iovp_addObject_data :
    (a.addObject obj).iovp (a.tmpIovp + 1) = ⟨.mem obj.ptr, obj.size.toNat⟩ :=
  Function.update_self _ _ _

theorem lEntry_addObject_self : (a.addObject obj).lEntry a.tmpLEntry =
    (a.lEntry a.tmpLEntry).fill obj (obj.version + 1) :=
  Function.update_self _ _ _

theorem lEntry_addObject_of_ne {i : Nat} (h : i ≠ a.tmpLEntry) :
    (a.addObject obj).lEntry i = a.lEntry i :=
  Function.update_of_ne h _ _

end

theorem iovp_setOuter (a : Arrays) (h : LeHdr) : (a.setOuter h).iovp 0 = .ofHdr 0 := by
  simp [setOuter]

theorem lEntry_setOuter (a : Arrays) (h : LeHdr) : (a.setOuter h).lEntry 0 = h := by
  simp [setOuter]

/-- **The pointers only move forward**: what lies in front of them stays. -/
theorem foldl_frame (objs : List Object) (a : Arrays) :
    (∀ j < a.tmpIovp, (objs.foldl addObject a).iovp j = a.iovp j) ∧
      ∀ i < a.tmpLEntry, (objs.foldl addObject a).lEntry i = a.lEntry i := by
  induction objs generalizing a with
  | nil => exact ⟨fun _ _ => rfl, fun _ _ => rfl⟩
  | cons o os ih =>
    obtain ⟨hiov, hhdr⟩ := ih (a.addObject o)
    constructor
    · intro j hj
      rw [List.foldl_cons, hiov j (Nat.lt_add_right 2 hj), a.iovp_addObject_of_lt o hj]
    · intro i hi
      rw [List.foldl_cons, hhdr i (Nat.lt_succ_of_lt hi),
        a.lEntry_addObject_of_ne o (Nat.ne_of_lt hi)]

/-- **Behind the loop the slots are the vector of the model.**  The two slots and the header of a round
    lie in front of the pointers afterwards, so the later rounds leave them alone, and so does whatever
    is stored in front of all of them. -/
theorem buffers_foldl (heap : Mem Byte) (objs : List Object) (a : Arrays) {a' : Arrays}
    (hiov : ∀ j ≥ a.tmpIovp, a'.iovp j = (objs.foldl addObject a).iovp j)
    (hhdr : ∀ i ≥ a.tmpLEntry, a'.lEntry i = (objs.foldl addObject a).lEntry i) :
    a'.buffers heap a.tmpIovp (2 * objs.length) =
      (innerIov heap a.lEntry a.tmpLEntry objs).map IoVec.base := by
  induction objs generalizing a with
  | nil => rfl
  | cons o os ih =>
    obtain ⟨hiov', hhdr'⟩ := foldl_frame os (a.addObject o)
    have hfirst : a'.iovp a.tmpIovp = .ofHdr a.tmpLEntry := by
      rw [hiov _ (Nat.le_refl _), List.foldl_cons, hiov' _ (Nat.lt_add_of_pos_right (by decide)),
        iovp_addObject_hdr]
    have hsecond : a'.iovp (a.tmpIovp + 1) = ⟨.mem o.ptr, o.size.toNat⟩ := by
      rw [hiov _ (Nat.le_succ _), List.foldl_cons, hiov' _ (Nat.lt_succ_self _),
        iovp_addObject_data]
    have hfilled : a'.lEntry a.tmpLEntry = (a.lEntry a.tmpLEntry).fill o (o.version + 1) := by
      rw [hhdr _ (Nat.le_refl _), List.foldl_cons, hhdr' _ (Nat.lt_succ_self _),
        lEntry_addObject_self]
    have hrest : innerIov heap (a.addObject o).lEntry (a.tmpLEntry + 1) os =
        innerIov heap a.lEntry (a.tmpLEntry + 1) os :=
      innerIov_congr heap os (fun j hj => a.lEntry_addObject_of_ne o (by omega))
    have hlater := (ih (a.addObject o) (fun j hj => hiov j (Nat.le_of_add_right_le hj))
      (fun i hi => hhdr i (Nat.le_of_succ_le hi))).trans (congrArg (List.map IoVec.base) hrest)
    rw [List.length_cons, Nat.mul_succ, buffers, List.range'_succ, List.range'_succ,
      List.map_cons, List.map_cons, hfirst, hsecond, IoSlot.bytes_ofHdr, hfilled, innerIov,
      List.map_cons, List.map_cons, ← hlater]
    rfl

theorem totCnt_foldl (objs : List Object) (a : Arrays) :
    (objs.foldl addObject a).totCnt =
      objs.foldl (fun t obj => u64 (t + u64 (sizeofLehdr + obj.size.toNat))) a.totCnt := by
  induction objs generalizing a with
  | nil => rfl
  | cons o os ih => exact ih (a.addObject o)

end Arrays

/-- The outer header. -/
theorem lEntry_putAllArrays (iovp : Nat → IoSlot) (lEntry : Nat → LeHdr) (objs : List Object) :
    (putAllArrays iovp lEntry objs).lEntry 0 = (lEntry 0).outer (totCnt objs) := by
  have hjunk := (Arrays.foldl_frame objs ⟨iovp, lEntry, 1, 1, 0⟩).2 0 Nat.one_pos
  have hsum := Arrays.totCnt_foldl objs ⟨iovp, lEntry, 1, 1, 0⟩
  rw [putAllArrays, Arrays.lEntry_setOuter, hjunk, hsum, totCnt]

/-- **`appendv` is given what the model gives it.** -/
theorem buffers_putAllArrays (heap : Mem Byte) (iovp : Nat → IoSlot) (lEntry : Nat → LeHdr)
    (objs : List Object) :
    (putAllArrays iovp lEntry objs).buffers heap 0 (1 + 2 * objs.length) =
      (((lEntry 0).outer (totCnt objs)).iov :: innerIov heap lEntry 1 objs).map IoVec.base := by
  have hfirst : (putAllArrays iovp lEntry objs).iovp 0 = .ofHdr 0 := Arrays.iovp_setOuter _ _
  have hlater : (putAllArrays iovp lEntry objs).buffers heap 1 (2 * objs.length) =
      (innerIov heap lEntry 1 objs).map IoVec.base :=
    Arrays.buffers_foldl heap objs ⟨iovp, lEntry, 1, 1, 0⟩
      (fun j hj => Function.update_of_ne (Nat.ne_of_gt hj) _ _)
      (fun i hi => Function.update_of_ne (Nat.ne_of_gt hi) _ _)
  rw [Nat.add_comm 1, Arrays.buffers, List.range'_succ, List.map_cons, hfirst, IoSlot.bytes_ofHdr,
    lEntry_putAllArrays, List.map_cons, ← hlater]
  rfl

end NvsStore

/-! ## `DeltaStore::put` and `DeltaStore::put_all` -/

namespace DeltaStore

/-- The locals of the loop over the chunks of an object. -/
structure Row where
  iov : Nat → IoSlot
  lEntry : LeHdr
  deltaLen : UInt64

/-- The slot of a chunk. -/
def chunkSlot (obj : Object) (c : Delta) : IoSlot :=
  ⟨.mem (u64 (obj.ptr + c.startOffset.toNat)), c.len.toNat⟩

namespace Row

/-- Round `j`, which fills `deltas[j - 1]`. -/
def addChunk (obj : Object) (r : Row) (j : Nat) (c : Delta) : Row where
  iov := Function.update r.iov j (chunkSlot obj c)
  lEntry := { r.lEntry with
    deltas := r.lEntry.deltas.setIfInBounds (j - 1) (c.startOffset, c.len) }
  deltaLen := r.deltaLen + c.len

/-- The rounds from `j` on. -/
def addChunks (obj : Object) : Row → Nat → List Delta → Row
  | r, _, [] => r
  | r, j, c :: dc => addChunks obj (r.addChunk obj j c) (j + 1) dc

end Row

/-- The row of an object, whose header is element `i` of its array: the chunks, the fields of the
    header, and its slot. -/
def fillRow (obj : Object) (version : UInt64) (i : Nat) (iov : Nat → IoSlot) (lEntry : LeHdr) : Row :=
  let r := Row.addChunks obj ⟨iov, lEntry, 0⟩ 1 obj.getDeltaChunks
  { r with
    lEntry := { r.lEntry with
      version := version
      kname := snprintfKey r.lEntry.kname obj.name
      len := obj.size
      deltaLen := r.deltaLen
      type := HdrType.delta.code }
    iov := Function.update r.iov 0 (.ofHdr i) }

namespace Row

variable (obj : Object)

theorem iov_addChunks_of_lt (dc : List Delta) {r : Row} {j k : Nat} (h : k < j) :
    (addChunks obj r j dc).iov k = r.iov k := by
  induction dc generalizing r j with
  | nil => rfl
  | cons c dc ih =>
    rw [addChunks, ih (Nat.lt_succ_of_lt h)]
    exact Function.update_of_ne (Nat.ne_of_lt h) _ _

/-- The slots the loop has filled. -/
theorem iov_addChunks (dc : List Delta) (r : Row) (j : Nat) :
    (List.range' j dc.length).map (addChunks obj r j dc).iov = dc.map (chunkSlot obj) := by
  induction dc generalizing r j with
  | nil => rfl
  | cons c dc ih =>
    have hfirst : (addChunks obj (r.addChunk obj j c) (j + 1) dc).iov j = chunkSlot obj c :=
      (iov_addChunks_of_lt obj dc (Nat.lt_succ_self j)).trans (Function.update_self _ _ _)
    rw [addChunks, List.length_cons, List.range'_succ, List.map_cons, hfirst, ih, List.map_cons]

theorem deltaLen_addChunks (dc : List Delta) (r : Row) (j : Nat) :
    (addChunks obj r j dc).deltaLen = dc.foldl (fun t c => t + c.len) r.deltaLen := by
  induction dc generalizing r j with
  | nil => rfl
  | cons c dc ih => exact ih (r.addChunk obj j c) (j + 1)

/-- The loop fills no other field. -/
theorem lEntry_addChunks (dc : List Delta) (r : Row) (j : Nat) :
    (addChunks obj r j dc).lEntry =
      { r.lEntry with deltas := (addChunks obj r j dc).lEntry.deltas } := by
  induction dc generalizing r j with
  | nil => rfl
  | cons c dc ih => exact ih (r.addChunk obj j c) (j + 1)

/-- **Slots count from 1, `deltas` from 0.**  Round `j + 1` and the later ones fill the elements from
    `j` on. -/
theorem deltas_addChunks (dc : List Delta) (r : Row) (j : Nat) {i : Nat} (hi : i < 5) :
    (addChunks obj r (j + 1) dc).lEntry.deltas[i] = if i < j then r.lEntry.deltas[i] else
      (dc[i - j]?).elim r.lEntry.deltas[i] (fun c => (c.startOffset, c.len)) := by
  induction dc generalizing r j with
  | nil =>
    rw [List.getElem?_nil]
    exact (ite_self _).symm
  | cons c dc ih =>
    have hround : (r.addChunk obj (j + 1) c).lEntry.deltas[i] =
        if j = i then (c.startOffset, c.len) else r.lEntry.deltas[i] :=
      Vector.getElem_setIfInBounds hi
    rw [addChunks, ih, hround]
    rcases Nat.lt_trichotomy i j with hlt | rfl | hgt
    · rw [if_pos (by omega), if_neg (by omega), if_pos hlt]
    · rw [if_pos (by omega), if_pos rfl, if_neg (by omega), Nat.sub_self]
      rfl
    · obtain ⟨k, rfl⟩ : ∃ k, i = j + (k + 1) := ⟨i - j - 1, by omega⟩
      rw [if_neg (by omega), if_neg (by omega), if_neg (by omega), Nat.add_sub_cancel_left,
        show j + (k + 1) - (j + 1) = k by omega, List.getElem?_cons_succ]

end Row

/-- The header of the row is the one of the model. -/
theorem lEntry_fillRow (obj : Object) (version : UInt64) (i : Nat) (iov : Nat → IoSlot)
    (lEntry : LeHdr) : (fillRow obj version i iov lEntry).lEntry = lEntry.fillDelta obj version := by
  have hdeltas : (Row.addChunks obj ⟨iov, lEntry, 0⟩ 1 obj.getDeltaChunks).lEntry.deltas =
      fillDeltas lEntry.deltas obj.getDeltaChunks := by
    refine Vector.ext (fun k hk => ?_)
    rw [Row.deltas_addChunks obj _ _ 0 hk, if_neg (Nat.not_lt_zero k), Nat.sub_zero, fillDeltas,
      Vector.getElem_ofFn]
    cases obj.getDeltaChunks[k]? <;> rfl
  unfold fillRow
  simp only
  rw [Row.lEntry_addChunks, Row.deltaLen_addChunks, hdeltas]
  rfl

/-- Its slots: the header, and the chunks. -/
theorem iov_fillRow (obj : Object) (version : UInt64) (i : Nat) (iov : Nat → IoSlot)
    (lEntry : LeHdr) :
    (List.range (1 + obj.getDeltaChunks.length)).map (fillRow obj version i iov lEntry).iov =
      .ofHdr i :: obj.getDeltaChunks.map (chunkSlot obj) := by
  have hchunks := Row.iov_addChunks obj obj.getDeltaChunks ⟨iov, lEntry, 0⟩ 1
  rw [List.range_eq_range', Nat.add_comm, List.range'_succ, List.map_cons, ← hchunks]
  refine congrArg₂ List.cons (by simp [fillRow]) (List.map_congr_left (fun k hk => ?_))
  exact Function.update_of_ne (by rw [List.mem_range'_1] at hk; omega) _ _

/-- **A row gathers what the model gathers**, wherever its header ended up.  `put` hands the row of its
    object to `appendv`. -/
theorem bytes_fillRow (heap : Mem Byte) (obj : Object) (version : UInt64) (i : Nat)
    (iov : Nat → IoSlot) (lEntry : LeHdr) {l : Nat → LeHdr}
    (hl : l i = (fillRow obj version i iov lEntry).lEntry) :
    (List.range (1 + obj.getDeltaChunks.length)).map
        (fun j => ((fillRow obj version i iov lEntry).iov j).bytes heap l) =
      (obj.deltaRow heap lEntry version).map IoVec.base := by
  have hslots := congrArg (List.map (IoSlot.bytes heap l)) (iov_fillRow obj version i iov lEntry)
  rw [List.map_map, List.map_cons, List.map_map, IoSlot.bytes_ofHdr, hl, lEntry_fillRow] at hslots
  rw [Object.deltaRow, List.map_cons, List.map_map]
  exact hslots

/-- The locals of `put_all`. -/
structure Table where
  iovpp : Nat → Nat → IoSlot
  iovcntp : Nat → Nat
  lEntryp : Nat → LeHdr
  i : Nat
  totCnt : Nat

namespace Table

/-- One round. -/
def addObject (t : Table) (obj : Object) : Table :=
  let r := fillRow obj (obj.version + 1) t.i (t.iovpp t.i) (t.lEntryp t.i)
  { iovpp := Function.update t.iovpp t.i r.iov
    iovcntp := Function.update t.iovcntp t.i (1 + obj.getDeltaChunks.length)
    lEntryp := Function.update t.lEntryp t.i r.lEntry
    i := t.i + 1
    totCnt := u64 (t.totCnt + u64 (r.deltaLen.toNat + sizeofLehdr)) }

/-- The stores behind the loop. -/
def setOuter (t : Table) (h : LeHdr) : Table :=
  { t with
    iovpp := Function.update t.iovpp 0 (Function.update (t.iovpp 0) 0 (.ofHdr 0))
    iovcntp := Function.update t.iovcntp 0 1
    lEntryp := Function.update t.lEntryp 0 h }

/-- The buffers of row `i`. -/
def row (heap : Mem Byte) (t : Table) (i : Nat) : List (List Byte) :=
  (List.range (t.iovcntp i)).map (fun j => (t.iovpp i j).bytes heap t.lEntryp)

/-- The buffers of `n` rows from `i` on. -/
def rows (heap : Mem Byte) (t : Table) (i n : Nat) : List (List (List Byte)) :=
  (List.range' i n).map (t.row heap)

end Table

/-- What `put_all` hands to `appendmv`, over uninitialised arrays. -/
def putAllTable (iovpp : Nat → Nat → IoSlot) (iovcntp : Nat → Nat) (lEntryp : Nat → LeHdr)
    (objs : List Object) : Table :=
  let t := objs.foldl Table.addObject ⟨iovpp, iovcntp, lEntryp, 1, 0⟩
  t.setOuter ((t.lEntryp 0).outer t.totCnt)

theorem deltaRows_congr (heap : Mem Byte) {l l' : Nat → LeHdr} (objs : List Object) :
    ∀ {i : Nat}, (∀ j ≥ i, l j = l' j) → deltaRows heap l i objs = deltaRows heap l' i objs := by
  induction objs with
  | nil => exact fun _ => rfl
  | cons o os ih =>
    intro i h
    rw [deltaRows, deltaRows, h i (Nat.le_refl i), ih (fun j hj => h j (Nat.le_of_succ_le hj))]

namespace Table

/-- The three arrays agree at index `i`. -/
structure SameAt (t t' : Table) (i : Nat) : Prop where
  iovpp : t.iovpp i = t'.iovpp i
  iovcntp : t.iovcntp i = t'.iovcntp i
  lEntryp : t.lEntryp i = t'.lEntryp i

theorem SameAt.trans {t₁ t₂ t₃ : Table} {i : Nat} (h : SameAt t₁ t₂ i) (h' : SameAt t₂ t₃ i) :
    SameAt t₁ t₃ i :=
  ⟨h.1.trans h'.1, h.2.trans h'.2, h.3.trans h'.3⟩

theorem addObject_sameAt (t : Table) (obj : Object) {i : Nat} (h : i ≠ t.i) :
    (t.addObject obj).SameAt t i :=
  ⟨Function.update_of_ne h _ _, Function.update_of_ne h _ _, Function.update_of_ne h _ _⟩

/-- Rows are filled one after the other. -/
theorem foldl_sameAt (objs : List Object) (t : Table) {i : Nat} (h : i < t.i) :
    (objs.foldl addObject t).SameAt t i := by
  induction objs generalizing t with
  | nil => exact ⟨rfl, rfl, rfl⟩
  | cons o os ih =>
    exact (ih (t.addObject o) (Nat.lt_succ_of_lt h)).trans (t.addObject_sameAt o (Nat.ne_of_lt h))

theorem totCnt_foldl (objs : List Object) (t : Table) :
    (objs.foldl addObject t).totCnt =
      objs.foldl (fun n obj => u64 (n + u64 (obj.deltaLen64.toNat + sizeofLehdr))) t.totCnt := by
  induction objs generalizing t with
  | nil => rfl
  | cons o os ih =>
    have hlen : (fillRow o (o.version + 1) t.i (t.iovpp t.i) (t.lEntryp t.i)).deltaLen =
        o.deltaLen64 := Row.deltaLen_addChunks o o.getDeltaChunks _ 1
    rw [List.foldl_cons, ih, addObject, hlen, List.foldl_cons]

/-- The row of a round, in every table that has kept it. -/
theorem row_addObject (heap : Mem Byte) (t : Table) (obj : Object) {t' : Table}
    (h : t'.SameAt (t.addObject obj) t.i) :
    t'.row heap t.i = (obj.deltaRow heap (t.lEntryp t.i) (obj.version + 1)).map IoVec.base := by
  have hcount : t'.iovcntp t.i = 1 + obj.getDeltaChunks.length :=
    h.iovcntp.trans (Function.update_self _ _ _)
  have hslots := h.iovpp.trans (Function.update_self _ _ _)
  have hhdr := h.lEntryp.trans (Function.update_self _ _ _)
  rw [row, hcount, hslots]
  exact bytes_fillRow heap obj _ t.i _ _ hhdr

/-- **Behind the loop the rows are those of the model.** -/
theorem rows_foldl (heap : Mem Byte) (objs : List Object) (t : Table) {t' : Table}
    (h : ∀ i ≥ t.i, t'.SameAt (objs.foldl addObject t) i) :
    t'.rows heap t.i objs.length =
      (deltaRows heap t.lEntryp t.i objs).map (List.map IoVec.base) := by
  induction objs generalizing t with
  | nil => rfl
  | cons o os ih =>
    have hfirst := row_addObject heap t o
      ((h _ (Nat.le_refl _)).trans (foldl_sameAt os (t.addObject o) (Nat.lt_succ_self _)))
    have hrest : deltaRows heap (t.addObject o).lEntryp (t.i + 1) os =
        deltaRows heap t.lEntryp (t.i + 1) os :=
      deltaRows_congr heap os (fun j hj => (t.addObject_sameAt o (by omega)).lEntryp)
    have hlater := (ih (t.addObject o) (fun i hi => h i (Nat.le_of_succ_le hi))).trans
      (congrArg (List.map (List.map IoVec.base)) hrest)
    rw [List.length_cons, rows, List.range'_succ, List.map_cons, hfirst, deltaRows, List.map_cons,
      ← hlater]
    rfl

end Table

section
variable (iovpp : Nat → Nat → IoSlot) (iovcntp : Nat → Nat) (lEntryp : Nat → LeHdr)
  (objs : List Object)

/-- The outer header. -/
theorem lEntryp_putAllTable :
    (putAllTable iovpp iovcntp lEntryp objs).lEntryp 0 = (lEntryp 0).outer (totCnt objs) := by
  have hjunk := (Table.foldl_sameAt objs ⟨iovpp, iovcntp, lEntryp, 1, 0⟩ Nat.one_pos).lEntryp
  have hsum := Table.totCnt_foldl objs ⟨iovpp, iovcntp, lEntryp, 1, 0⟩
  simp only [putAllTable, Table.setOuter, Function.update_self]
  rw [hjunk, hsum, totCnt]

/-- **`appendmv` is given what the model gives it.** -/
theorem rows_putAllTable (heap : Mem Byte) :
    (putAllTable iovpp iovcntp lEntryp objs).rows heap 0 (objs.length + 1) =
      ([((lEntryp 0).outer (totCnt objs)).iov] :: deltaRows heap lEntryp 1 objs).map
        (List.map IoVec.base) := by
  have hfirst : (putAllTable iovpp iovcntp lEntryp objs).row heap 0 =
      [((putAllTable iovpp iovcntp lEntryp objs).lEntryp 0).encode] := by
    simp [putAllTable, Table.setOuter, Table.row, IoSlot.bytes_ofHdr]
  have hlater : (putAllTable iovpp iovcntp lEntryp objs).rows heap 1 objs.length =
      (deltaRows heap lEntryp 1 objs).map (List.map IoVec.base) :=
    Table.rows_foldl heap objs ⟨iovpp, iovcntp, lEntryp, 1, 0⟩
      (fun i hi => ⟨Function.update_of_ne (Nat.ne_of_gt hi) _ _,
        Function.update_of_ne (Nat.ne_of_gt hi) _ _, Function.update_of_ne (Nat.ne_of_gt hi) _ _⟩)
  rw [Table.rows, List.range'_succ, List.map_cons, hfirst, lEntryp_putAllTable, List.map_cons,
    ← hlater]
  rfl

end

end DeltaStore

end NvStream
