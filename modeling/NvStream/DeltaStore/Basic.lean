/-
  `DeltaStore` (`src/kvstore/delta_store.cc`, `src/common/util.h`), as the code computes it.

  The store writes only the pages of an object that were modified since the last snapshot.  It finds
  them with the help of the memory protection: after a snapshot the pages of the object are made
  read-only, the first store to such a page raises SIGSEGV, and `delta_handler` makes the page
  writable again and marks it.  `readOnly` is the protection of each page of the process, and a store
  of the application is `write`: fault, handler, retry.

  As in `NVSStore`, what the C++ leaves to chance is an argument, and what it leaves undefined is a
  `Stop`: a sixth chunk is stored outside `lehdr_t::deltas`.
-/
import NvStream.Object
import NvStream.NvsStore.Basic

namespace NvStream

open FlatMem LittleEndian LoadProg PersistTrace

/-! ## The entry of one object -/

/-- The payload of one chunk: `len` bytes at `getPtr() + start_offset`. -/
def Object.deltaIov (heap : Mem Byte) (o : Object) (c : Delta) : IoVec :=
  ⟨load heap (u64 (o.ptr + c.startOffset.toNat)) c.len.toNat, by
    rw [length_load]; exact c.len.toNat_lt⟩

/-- `l_entry.deltas`, the chunks written over what was there. -/
def fillDeltas (old : Vector (UInt64 × UInt64) 5) (dc : List Delta) : Vector (UInt64 × UInt64) 5 :=
  Vector.ofFn (fun i => match dc[i.val]? with
    | some c => (c.startOffset, c.len)
    | none => old[i])

/-- The local `delta_len`. -/
def Object.deltaLen64 (o : Object) : UInt64 := o.getDeltaChunks.foldl (fun t c => t + c.len) 0

/-- The header `put` and `put_all` fill for one object, over the junk `h`. -/
def LeHdr.fillDelta (h : LeHdr) (o : Object) (version : UInt64) : LeHdr :=
  { h with
    deltas := fillDeltas h.deltas o.getDeltaChunks
    version := version
    kname := snprintfKey h.kname o.name
    len := o.size
    deltaLen := o.deltaLen64
    type := HdrType.delta.code }

/-- The buffers of one object: its header, and its chunks. -/
def Object.deltaRow (heap : Mem Byte) (junk : LeHdr) (o : Object) (version : UInt64) : List IoVec :=
  (junk.fillDelta o version).iov :: o.getDeltaChunks.map (o.deltaIov heap)

/-! ## Memory protection -/

/-- The page an address lies in. -/
def pageOf (addr : Nat) : Nat := addr / pageSize

/-- `enable_write_protection`, when `mprotect` succeeds: the pages that overlap
    `[ptr, ptr + alignedSize)` become read-only. -/
def enableWriteProtection (ptr alignedSize : Nat) (readOnly : Nat → Bool) : Nat → Bool := fun p =>
  readOnly p || (pageOf ptr ≤ p && p * pageSize < ptr + alignedSize)

/-- `disable_protection` of one page. -/
def disableProtection (pageptr : Nat) (readOnly : Nat → Bool) : Nat → Bool := fun p =>
  if p = pageOf pageptr then false else readOnly p

/-! ## The store -/

/-- One process with a `DeltaStore`. -/
structure DeltaStore where
  log : Log
  file : File
  heap : Mem Byte
  objectMap : SortedMap Key Object
  addrMap : SortedMap Nat Key
  readOnly : Nat → Bool

/-- `LOG_SIZE`, the length of the log a `DeltaStore` creates. -/
def deltaLogSize : Nat := 500 * 1024 * 1024

namespace DeltaStore

/-- The constructor, once the log is open. -/
def ctor (log : Log) (file : File) (heap : Mem Byte) : DeltaStore :=
  ⟨log, file, heap, .empty, .empty, fun _ => false⟩

/-- `DeltaStore::create_obj`; `posix_memalign` has returned `tmpPtr`. -/
def createObj (s : DeltaStore) (key : Key) (size : UInt64) (tmpPtr : Nat) :
    Except Stop (ErrorCode × Nat × DeltaStore) :=
  match s.objectMap.find? key with
  | none => .ok (.noError, tmpPtr, { s with
      objectMap := s.objectMap.insert key ((Object.ctorDelta key size 0 tmpPtr).setVersion 0) })
  | some _ => .error .exit

/-- What `posix_memalign` promises for the block it returns to `create_obj`: it is aligned, it meets
    no live block, and the bytes of the object are memory of the process, which lies in the lower
    half of the address space. -/
structure Allocated (s : DeltaStore) (size : UInt64) (ptr : Nat) : Prop where
  aligned : ptr % pageSize = 0
  nonnull : 0 < size.toNat → 0 < ptr
  inside : ptr + size.toNat ≤ 2 ^ 63
  fresh : ∀ p ∈ s.objectMap.entries, ptr + alignUp size.toNat ≤ p.2.ptr ∨
    p.2.ptr + p.2.alignedSize ≤ ptr

/-- `DeltaStore::free_obj`; the read of the erased entry as in `NvsStore.freeObj`. -/
def freeObj (s : DeltaStore) (objAddr : Nat) : Except Stop (ErrorCode × DeltaStore) :=
  match s.addrMap.find? objAddr with
  | none => .error .exit
  | some key =>
    match s.objectMap.find? key with
    | none => .error .exit
    | some _ => .ok (.noError, { s with
        objectMap := s.objectMap.erase key
        addrMap := s.addrMap.erase objAddr })

/-- What a snapshot does to an object: the new version, and all bits reset. -/
def snapshotted (version : UInt64) (obj : Object) : Object :=
  (obj.setVersion version).resetBitVector

/-- `DeltaStore::put`; `lEntry` is the uninitialised header on its stack.  It returns the bytes
    written, or `ELEM_NOT_FOUND`. -/
def put (s : DeltaStore) (lEntry : LeHdr) (key : Key) (version : UInt64) :
    Except Stop (ErrorCode ⊕ Nat × DeltaStore) :=
  match s.objectMap.find? key with
  | none => .ok (.inl .elemNotFound)
  | some obj =>
    if obj.getDeltaChunks.length ≤ 5 then
      match s.log.appendv s.file (obj.deltaRow s.heap lEntry version) with
      | .error stop => .error stop
      | .ok (log, file) => .ok (.inr (u64 (obj.deltaLen64.toNat + sizeofLehdr), { s with
          log := log
          file := file
          objectMap := s.objectMap.modify key (snapshotted version)
          readOnly := enableWriteProtection obj.ptr obj.alignedSize s.readOnly }))
    else .error .undefined

/-- The rows of `put_all`, from the `i`-th uninitialised header on. -/
def deltaRows (heap : Mem Byte) (lEntry : Nat → LeHdr) : Nat → List Object → List (List IoVec)
  | _, [] => []
  | i, obj :: objs =>
    obj.deltaRow heap (lEntry i) (obj.version + 1) :: deltaRows heap lEntry (i + 1) objs

/-- The `tot_cnt` of `put_all`. -/
def totCnt (objs : List Object) : Nat :=
  objs.foldl (fun t obj => u64 (t + u64 (obj.deltaLen64.toNat + sizeofLehdr))) 0

/-- `DeltaStore::put_all`; `lEntry` is the uninitialised array of headers.  The number of rows is
    handed to `appendmv` as an `int`. -/
def putAll (s : DeltaStore) (lEntry : Nat → LeHdr) : Except Stop (Nat × DeltaStore) :=
  let objs := s.objectMap.entries.map Prod.snd
  if objs.length + 1 < 2 ^ 31 ∧ ∀ obj ∈ objs, obj.getDeltaChunks.length ≤ 5 then
    match s.log.appendmv s.file
      ([((lEntry 0).outer (totCnt objs)).iov] :: deltaRows s.heap lEntry 1 objs) with
    | .error stop => .error stop
    | .ok (log, file) => .ok (u64 (totCnt objs + sizeofLehdr), { s with
        log := log
        file := file
        objectMap := s.objectMap.mapVal (fun _ obj => snapshotted (obj.version + 1) obj)
        readOnly := objs.foldl
          (fun ro obj => enableWriteProtection obj.ptr obj.alignedSize ro) s.readOnly })
  else .error .undefined

/-! ## Faults -/

/-- `offset <= it->second->get_aligned_size()`, with `offset` a difference of `uint64_t`s. -/
def belongs (addr : Nat) (obj : Object) : Bool :=
  decide (u64 (addr + 2 ^ 64 - obj.ptr) ≤ obj.alignedSize)

/-- `DeltaStore::delta_handler` for the faulting address `addr`.  A fault that belongs to no object
    goes to the old handler, which ends the process. -/
def deltaHandler (s : DeltaStore) (addr : Nat) : Except Stop DeltaStore :=
  if addr ≠ 0 then
    match s.objectMap.entries.find? (fun p => belongs addr p.2) with
    | some (key, obj) => .ok { s with
        readOnly := disableProtection addr s.readOnly
        objectMap := s.objectMap.modify key (fun o =>
          o.setModifiedBit (u64 (addr + 2 ^ 64 - obj.ptr) / 2 ^ 12)) }
    | none => .error .segv
  else .ok s

/-- The application stores one byte.  A store to a read-only page runs the handler and is then
    retried; it never completes if the page stays read-only. -/
def write (s : DeltaStore) (addr : Nat) (b : Byte) : Except Stop DeltaStore :=
  if s.readOnly (pageOf addr) then
    match s.deltaHandler addr with
    | .error stop => .error stop
    | .ok s' =>
      if s'.readOnly (pageOf addr) then .error .fuel
      else .ok { s' with heap := store s'.heap addr [b] }
  else .ok { s with heap := store s.heap addr [b] }

end DeltaStore

end NvStream
