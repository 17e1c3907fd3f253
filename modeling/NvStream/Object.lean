/-
  A store's volatile objects (`src/kvstore/object.h`, `object.cc`).

  An `Object` is a name, a size, a version and the address of its buffer.  In the `_DELTA_STORE`
  build it also carries one bit per page of the buffer; the default build leaves that vector empty,
  so the two constructors differ and everything else is shared.
-/
import NvStream.Layout

namespace NvStream

open FlatMem LittleEndian

/-- `PAGE_SIZE` -/
def pageSize : Nat := 4096

/-- `class Object` -/
structure Object where
  name : Key
  size : UInt64
  version : UInt64
  /-- The address of the buffer. -/
  ptr : Nat
  /-- One bit per page, set when the page was modified. -/
  bitset : List Bool
  alignedSize : Nat

/-- `struct delta_t`, and the fields of `struct ledelta_t`. -/
structure Delta where
  startOffset : UInt64
  len : UInt64
deriving DecidableEq, Repr

/-- `(size + PAGE_SIZE - 1) & ~(PAGE_SIZE - 1)` -/
def alignUp (size : Nat) : Nat := u64 (size + (pageSize - 1)) / pageSize * pageSize

namespace Object

/-- `Object::Object`, default build. -/
def ctor (name : Key) (size version : UInt64) (ptr : Nat) : Object :=
  ⟨name, size, version, ptr, [], 0⟩

/-- `Object::Object`, `_DELTA_STORE` build: every page starts out modified. -/
def ctorDelta (name : Key) (size version : UInt64) (ptr : Nat) : Object :=
  ⟨name, size, version, ptr, List.replicate (alignUp size.toNat / pageSize) true,
    alignUp size.toNat⟩

/-- `Object::setVersion` -/
def setVersion (o : Object) (version : UInt64) : Object := { o with version := version }

/-- The `size` bytes at `ptr`. -/
def contents (heap : Mem Byte) (o : Object) : List Byte := load heap o.ptr o.size.toNat

theorem length_contents (heap : Mem Byte) (o : Object) : (o.contents heap).length = o.size.toNat :=
  length_load _ _ _

/-- `Object::set_modified_bit`: the comparison leaves page 0 out. -/
def setModifiedBit (o : Object) (pageIndex : Nat) : Object :=
  if 0 < pageIndex ∧ pageIndex < o.bitset.length then
    { o with bitset := o.bitset.set pageIndex true }
  else o

/-- `Object::reset_bit_vector` -/
def resetBitVector (o : Object) : Object :=
  { o with bitset := o.bitset.map (fun _ => false) }

theorem contents_setVersion (heap : Mem Byte) (o : Object) (version : UInt64) :
    (o.setVersion version).contents heap = o.contents heap := rfl

/-! ## `Object::get_delta_chunks` -/

/-- The locals of the loop.  `startOffset` and `len` count pages. -/
structure ChunkScan where
  /-- `WRITTEN_REGION` or not. -/
  status : Bool
  startOffset : Nat
  len : Nat
  dcvector : List Delta

/-- Page `i` is modified: it starts a written region, or we are passing through one. -/
def ChunkScan.extend (s : ChunkScan) (i : Nat) : ChunkScan :=
  if s.status = false then { s with status := true, startOffset := i, len := 1 }
  else { s with len := s.len + 1 }

/-- The body of the loop at page `i`, `last` being `i == bitset.size() - 1`. -/
def chunkStep (o : Object) (i : Nat) (bit last : Bool) (s : ChunkScan) : ChunkScan :=
  let s := if bit then s.extend i else s
  -- transitioning from written region to non-modified page, or end of the object
  if bit = false ∨ last then
    if s.status then
      let startOffset := UInt64.ofNat (s.startOffset * pageSize)
      let len := if bit = false then UInt64.ofNat (s.len * pageSize) else o.size - startOffset
      { s with status := false, dcvector := s.dcvector ++ [⟨startOffset, len⟩] }
    else s
  else s

/-- The loop, from page `i` on. -/
def chunkLoop (o : Object) : Nat → List Bool → ChunkScan → ChunkScan
  | _, [], s => s
  | i, bit :: rest, s => chunkLoop o (i + 1) rest (o.chunkStep i bit rest.isEmpty s)

/-- `Object::get_delta_chunks` -/
def getDeltaChunks (o : Object) : List Delta :=
  (o.chunkLoop 0 o.bitset ⟨false, 0, 0, []⟩).dcvector

end Object

end NvStream
