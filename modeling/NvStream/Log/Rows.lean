/-
  `Log::appendmv` beside `Log::appendv` on the flattened vector.

  `appendv` takes an array of buffers and an `int`, `appendmv` an array of rows, an array of `int`s
  and an `int`.  Each runs over its buffers twice, to add up `tot_cnt` and to copy.  Here both
  functions stand with those arrays and index loops (`forInt`), negative counts included.

  1. **Arrays are lists** (`appendvAt_eq`, `appendmvAt_eq`): an index loop over an array is a fold over
     the buffers it reaches, so the two are `Log.appendv` and `Log.appendmv` of the log model.
  2. **Rows are one row** (`appendmv_flattened`): whatever array holds the buffers of the rows one
     after the other, the two calls issue the same stores in the same order, refuse together, and
     leave the same file and the same offsets.
-/
import NvStream.Log.Invariant

namespace NvStream

open FlatMem LittleEndian LoadProg PersistTrace

/-! ## The functions over arrays -/

/-- `for(int i = 0; i < n; i++)`: no round at all if `n` is negative. -/
def forInt {σ : Type} (n : Int) (body : Nat → σ → σ) (s : σ) : σ :=
  (List.range n.toNat).foldl (fun s i => body i s) s

/-- `tot_cnt += iov_len` -/
def addLen (v : IoVec) (totCnt : Nat) : Nat := u64 (totCnt + v.len)

/-- `pmem_memcpy_nodrain(&pmemaddr[write_offset], iov_base, iov_len); write_offset += iov_len`.  The
    state is the stores so far and `write_offset`. -/
def copyBuf (v : IoVec) (c : List (Op Byte) × Nat) : List (Op Byte) × Nat :=
  (c.1 ++ storeEach c.2 v.base, u64 (c.2 + v.len))

/-- `tot_cnt` of `appendv`. -/
def totCntvAt (iovp : Nat → IoVec) (iovcnt : Int) : Nat :=
  u64 (forInt iovcnt (fun i => addLen (iovp i)) 0 + wordLength)

/-- The copy loop of `appendv`. -/
def copyvAt (wo : Nat) (iovp : Nat → IoVec) (iovcnt : Int) : List (Op Byte) × Nat :=
  forInt iovcnt (fun i => copyBuf (iovp i)) ([], wo)

/-- `tot_cnt` of `appendmv`. -/
def totCntmvAt (iovpp : Nat → Nat → IoVec) (iovcnt : Nat → Int) (iovpcnt : Int) : Nat :=
  u64 (forInt iovpcnt (fun i => forInt (iovcnt i) (fun j => addLen (iovpp i j))) 0 + wordLength)

/-- The nested copy loop of `appendmv`. -/
def copymvAt (wo : Nat) (iovpp : Nat → Nat → IoVec) (iovcnt : Nat → Int) (iovpcnt : Int) :
    List (Op Byte) × Nat :=
  forInt iovpcnt (fun i => forInt (iovcnt i) (fun j => copyBuf (iovpp i j))) ([], wo)

/-- `Log::appendv(iovp, iovcnt)` -/
def Log.appendvAt (l : Log) (f : File) (iovp : Nat → IoVec) (iovcnt : Int) :
    Except Stop (Log × File) :=
  l.appendWith f (totCntvAt iovp iovcnt) (copyvAt l.writeOffset iovp iovcnt)

/-- `Log::appendmv(iovpp, iovcnt, iovpcnt)` -/
def Log.appendmvAt (l : Log) (f : File) (iovpp : Nat → Nat → IoVec) (iovcnt : Nat → Int)
    (iovpcnt : Int) : Except Stop (Log × File) :=
  l.appendWith f (totCntmvAt iovpp iovcnt iovpcnt) (copymvAt l.writeOffset iovpp iovcnt iovpcnt)

/-! ## Arrays are lists -/

/-- The buffers a loop over the array reaches. -/
def vector (iovp : Nat → IoVec) (iovcnt : Int) : List IoVec := (List.range iovcnt.toNat).map iovp

/-- The rows a loop over the array of rows reaches. -/
def vectors (iovpp : Nat → Nat → IoVec) (iovcnt : Nat → Int) (iovpcnt : Int) :
    List (List IoVec) :=
  (List.range iovpcnt.toNat).map (fun i => vector (iovpp i) (iovcnt i))

section
variable {σ : Type} (g : IoVec → σ → σ)

/-- An index loop over an array folds over its buffers. -/
theorem forInt_vector (iovp : Nat → IoVec) (n : Int) (s : σ) :
    forInt n (fun i => g (iovp i)) s = (vector iovp n).foldl (fun s v => g v s) s := by
  rw [forInt, vector, List.foldl_map]

/-- Two nested index loops fold over the buffers of all rows. -/
theorem forInt_vectors (iovpp : Nat → Nat → IoVec) (iovcnt : Nat → Int) (n : Int) (s : σ) :
    forInt n (fun i => forInt (iovcnt i) (fun j => g (iovpp i j))) s =
      (vectors iovpp iovcnt n).flatten.foldl (fun s v => g v s) s := by
  rw [forInt, vectors, List.foldl_flatten, List.foldl_map]
  congr 1
  funext s i
  exact forInt_vector g (iovpp i) (iovcnt i) s

end

/-- The copy loop with its stores collected in front. -/
theorem foldl_copyBuf (iov : List IoVec) (ops : List (Op Byte)) (wo : Nat) :
    iov.foldl (fun c v => copyBuf v c) (ops, wo) = (ops ++ (copyv wo iov).1, (copyv wo iov).2) := by
  induction iov generalizing ops wo with
  | nil =>
    show (ops, wo) = (ops ++ [], wo)
    rw [List.append_nil]
  | cons v vs ih =>
    rw [List.foldl_cons, copyBuf, ih, List.append_assoc]
    rfl

theorem copyvAt_eq (wo : Nat) (iovp : Nat → IoVec) (iovcnt : Int) :
    copyvAt wo iovp iovcnt = copyv wo (vector iovp iovcnt) := by
  rw [copyvAt, forInt_vector copyBuf, foldl_copyBuf]
  rfl

theorem copymvAt_eq (wo : Nat) (iovpp : Nat → Nat → IoVec) (iovcnt : Nat → Int) (iovpcnt : Int) :
    copymvAt wo iovpp iovcnt iovpcnt = copymv wo (vectors iovpp iovcnt iovpcnt) := by
  rw [copymvAt, forInt_vectors copyBuf, foldl_copyBuf, copymv_eq_copyv]
  rfl

theorem totCntvAt_eq (iovp : Nat → IoVec) (iovcnt : Int) :
    totCntvAt iovp iovcnt = totCntv (vector iovp iovcnt) := by
  rw [totCntvAt, forInt_vector addLen]
  rfl

theorem totCntmvAt_eq (iovpp : Nat → Nat → IoVec) (iovcnt : Nat → Int) (iovpcnt : Int) :
    totCntmvAt iovpp iovcnt iovpcnt = totCntmv (vectors iovpp iovcnt iovpcnt) := by
  rw [totCntmvAt, forInt_vectors addLen, totCntmv_eq_totCntv]
  rfl

/-- **`appendv` over an array is `appendv` of its buffers.** -/
theorem appendvAt_eq (l : Log) (f : File) (iovp : Nat → IoVec) (iovcnt : Int) :
    l.appendvAt f iovp iovcnt = l.appendv f (vector iovp iovcnt) := by
  rw [Log.appendvAt, Log.appendv, totCntvAt_eq, copyvAt_eq]

/-- **`appendmv` over an array of rows is `appendmv` of the rows.** -/
theorem appendmvAt_eq (l : Log) (f : File) (iovpp : Nat → Nat → IoVec) (iovcnt : Nat → Int)
    (iovpcnt : Int) :
    l.appendmvAt f iovpp iovcnt iovpcnt = l.appendmv f (vectors iovpp iovcnt iovpcnt) := by
  rw [Log.appendmvAt, Log.appendmv, totCntmvAt_eq, copymvAt_eq]

/-! ## Rows are one row -/

/-- **`appendmv` is `appendv` on the concatenated rows.**  For every handle on every file, all rows,
    counts and buffers, and every array that holds the buffers of the rows one after the other: the
    two functions issue the same stores in the same order, one refuses if and only if the other does,
    and if one returns so does the other, with the same file (its bytes and `hdr->tail`) and the same
    `write_offset`. -/
theorem appendmv_flattened (l : Log) (f : File) (iovpp : Nat → Nat → IoVec) (iovcnt : Nat → Int)
    (iovpcnt : Int) {iovp : Nat → IoVec} {n : Int}
    (hflat : vector iovp n = (vectors iovpp iovcnt iovpcnt).flatten) :
    copymvAt l.writeOffset iovpp iovcnt iovpcnt = copyvAt l.writeOffset iovp n ∧
    (l.appendmvAt f iovpp iovcnt iovpcnt = .error .exit ↔ l.appendvAt f iovp n = .error .exit) ∧
    ∀ l' f', l.appendmvAt f iovpp iovcnt iovpcnt = .ok (l', f') ↔
      l.appendvAt f iovp n = .ok (l', f') := by
  have hcall : l.appendmvAt f iovpp iovcnt iovpcnt = l.appendvAt f iovp n := by
    rw [appendmvAt_eq, appendmv_eq_appendv, appendvAt_eq, hflat]
  refine ⟨?_, ?_, ?_⟩
  · rw [copymvAt_eq, copymv_eq_copyv, copyvAt_eq, hflat]
  · rw [hcall]
  · intro l' f'
    rw [hcall]

/-- Three rows, one with two buffers of three bytes, one with a negative count and one empty. -/
theorem appendmv_flattened_two_buffers : ∃ l f l' f', Log.ctor none 256 = .ok (l, f) ∧
    l.appendvAt f (fun _ => ⟨[1, 2, 3], by decide⟩) 2 = .ok (l', f') ∧
    l.appendmvAt f (fun _ _ => ⟨[1, 2, 3], by decide⟩)
      (fun i => if i = 0 then 2 else if i = 1 then -1 else 0) 3 = .ok (l', f') := by
  obtain ⟨l, f, hnew, hr, hs, hlen⟩ := ctor_ok 256 (by decide)
  obtain ⟨l', f', hcall⟩ := Append.call_of_fits hr hs
    (.appendv (vector (fun _ => ⟨[1, 2, 3], by decide⟩) 2)) (by rw [hlen]; decide)
  have hv : l.appendvAt f (fun _ => ⟨[1, 2, 3], by decide⟩) 2 = .ok (l', f') :=
    (appendvAt_eq l f _ 2).trans hcall
  exact ⟨l, f, l', f', hnew, hv, ((appendmv_flattened l f _ _ 3 (by rfl)).2.2 l' f').mpr hv⟩

end NvStream
