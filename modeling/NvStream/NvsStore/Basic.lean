/-
  `NVSStore` (`src/kvstore/nvs_store.cc`), as the code computes it.

  A store is one process: its handle on the log, the log file it has mapped, its heap, and the two
  maps.  What the C++ leaves to chance is an argument here: the address `malloc` returns, the junk in
  an uninitialised `lehdr_t` or `walkentry`.  What it leaves undefined or ends with `exit(1)` is a
  `Stop`.  The loops of `walk` and of `process_chunks` carry a bound.

  `process_chunks` is kept as written, in particular its traversal of a batch: `i_index` runs one
  record AHEAD of the record being compared, and the loop stops when it reaches the end.
-/
import NvStream.Object
import NvStream.Log.Basic
import NvStream.Lib.SortedMap
import Mathlib.Data.List.Lex
import Mathlib.Order.Fin.Basic

namespace NvStream

open FlatMem LittleEndian LoadProg PersistTrace

/-- `LOG_SIZE`, the length of the log a store creates. -/
def logSize : Nat := 100 * 1024 * 1024

/-- `struct walkentry`, the fields this store uses. -/
structure WalkEntry where
  len : Nat
  datap : Nat
  version : UInt64
  startOffset : Nat
  key : Vector Byte 20
  err : ErrorCode

/-! ## The callback -/

/-- `!strncmp(hdr->kname, wentry->key, KEY_LEN) && hdr->version == wentry->version`, for the header
    at `hdr`. -/
def matchesAt (hdr : Nat) (w : WalkEntry) : Prog Stop Byte Bool := do
  let c ← strncmpAt hdr (cStr w.key.toList) keyLen
  if c = 0 then do
    let version ← loadWord (u64 (hdr + versionField))
    return decide (version = w.version.toNat)
  else return false

/-- The loop over the inner records of the batch at `buf`, whose records start at `iBuf`. -/
def innerLoop (buf iBuf : Nat) (w : WalkEntry) :
    Nat → Nat → Nat → Nat → Prog Stop Byte (WalkEntry × Bool)
  | 0, _, _, _ => .fail .fuel
  | fuel + 1, iHdr, iData, iIndex => do
    let len ← loadWord (u64 (buf + lenField))
    if iIndex < len then do
      let found ← matchesAt iHdr w
      if found then do
        let iLen ← loadWord (u64 (iHdr + lenField))
        return ({ w with datap := iData, len := iLen, err := .noError }, false)
      else do
        -- process the next data point in the inner chunk
        let iLen ← loadWord (u64 (u64 (iBuf + iIndex) + lenField))
        innerLoop buf iBuf w fuel (u64 (iBuf + iIndex)) (u64 (iBuf + iIndex + sizeofLehdr))
          (u64 (iIndex + u64 (sizeofLehdr + iLen)))
    else return (w, true)

/-- `process_chunks` -/
def processChunks (fuel : Nat) (buf _len : Nat) (wentry : WalkEntry) :
    Prog Stop Byte (WalkEntry × Bool) := do
  let w := { wentry with err := .idNotFound }
  let type ← Prog.loadEach (u64 (buf + typeField)) 4
  if ofLE type = HdrType.single.code.toNat then do
    let found ← matchesAt buf w
    if found then do
      let len ← loadWord (u64 (buf + lenField))
      return ({ w with datap := u64 (buf + sizeofLehdr), len := len, err := .noError }, false)
    else return (w, true)
  else if ofLE type = HdrType.multiple.code.toNat then do
    let iBuf := u64 (buf + sizeofLehdr)
    let iLen ← loadWord (u64 (iBuf + lenField))
    innerLoop buf iBuf w fuel iBuf (u64 (iBuf + sizeofLehdr)) (u64 (sizeofLehdr + iLen))
  else if ofLE type = HdrType.delta.code.toNat then
    -- logged as not supported, and then the function ends without a return value
    .fail .undefined
  else .fail .exit

/-! ## The store -/

/-- One process with an `NVSStore`. -/
structure NvsStore where
  log : Log
  file : File
  heap : Mem Byte
  objectMap : SortedMap Key Object
  addrMap : SortedMap Nat Key

/-- A header as the first buffer of a vector. -/
def LeHdr.iov (h : LeHdr) : IoVec := ⟨h.encode, by rw [LeHdr.length_encode]; decide⟩

/-- An object's buffer. -/
def Object.iov (heap : Mem Byte) (o : Object) : IoVec :=
  ⟨o.contents heap, by rw [Object.length_contents]; exact o.size.toNat_lt⟩

/-- The header `put` and `put_all` fill for one object, over the junk `h`. -/
def LeHdr.fill (h : LeHdr) (o : Object) (version : UInt64) : LeHdr :=
  { h with
    version := version
    kname := snprintfKey h.kname o.name
    len := o.size
    type := HdrType.single.code }

/-- The header `put_all` fills for the batch itself, over the junk `h`. -/
def LeHdr.outer (h : LeHdr) (totCnt : Nat) : LeHdr :=
  { h with version := 0, type := HdrType.multiple.code, len := UInt64.ofNat totCnt }

namespace NvsStore

/-- The constructor, once the log is open: both maps are empty. -/
def ctor (log : Log) (file : File) (heap : Mem Byte) : NvsStore :=
  ⟨log, file, heap, .empty, .empty⟩

/-- `NVSStore::create_obj`; `malloc` has returned `tmpPtr`. -/
def createObj (s : NvsStore) (key : Key) (size : UInt64) (tmpPtr : Nat) :
    Except Stop (ErrorCode × Nat × NvsStore) :=
  match s.objectMap.find? key with
  | none => .ok (.noError, tmpPtr, { s with
      objectMap := s.objectMap.insert key ((Object.ctor key size 0 tmpPtr).setVersion 0)
      addrMap := s.addrMap.insert tmpPtr key })
  | some _ => .error .exit

/-- `NVSStore::free_obj`.  The source reads `it2->second`, to delete the object, AFTER it has erased
    `it2` from the map; the read is taken to give the pointer that was there. -/
def freeObj (s : NvsStore) (objAddr : Nat) : Except Stop (ErrorCode × NvsStore) :=
  match s.addrMap.find? objAddr with
  | none => .error .exit
  | some key =>
    match s.objectMap.find? key with
    | none => .error .exit
    | some _ => .ok (.noError, { s with
        objectMap := s.objectMap.erase key
        addrMap := s.addrMap.erase objAddr })

/-- `NVSStore::put`; `lEntry` is the uninitialised header on its stack. -/
def put (s : NvsStore) (lEntry : LeHdr) (key : Key) (version : UInt64) :
    Except Stop (ErrorCode × NvsStore) :=
  match s.objectMap.find? key with
  | none => .ok (.elemNotFound, s)
  | some obj =>
    match s.log.appendv s.file [(lEntry.fill obj version).iov, obj.iov s.heap] with
    | .error stop => .error stop
    | .ok (log, file) => .ok (.noError, { s with
        log := log
        file := file
        objectMap := s.objectMap.modify key (fun obj => obj.setVersion version) })

/-- The loop of `put_all` over the objects: the vector it builds, from the `i`-th uninitialised
    header on. -/
def innerIov (heap : Mem Byte) (lEntry : Nat → LeHdr) : Nat → List Object → List IoVec
  | _, [] => []
  | i, obj :: objs =>
    ((lEntry i).fill obj (obj.version + 1)).iov :: obj.iov heap :: innerIov heap lEntry (i + 1) objs

/-- The `tot_cnt` of that loop. -/
def totCnt (objs : List Object) : Nat :=
  objs.foldl (fun t obj => u64 (t + u64 (sizeofLehdr + obj.size.toNat))) 0

/-- `NVSStore::put_all`; `lEntry` is the uninitialised array of headers.  The number of buffers is
    handed to `appendv` as an `int`. -/
def putAll (s : NvsStore) (lEntry : Nat → LeHdr) : Except Stop (Nat × NvsStore) :=
  let objs := s.objectMap.entries.map Prod.snd
  if 1 + 2 * objs.length < 2 ^ 31 then
    match s.log.appendv s.file
      (((lEntry 0).outer (totCnt objs)).iov :: innerIov s.heap lEntry 1 objs) with
    | .error stop => .error stop
    | .ok (log, file) => .ok (u64 (totCnt objs + sizeofLehdr), { s with
        log := log
        file := file
        objectMap := s.objectMap.mapVal (fun _ obj => obj.setVersion (obj.version + 1)) })
  else .error .undefined

/-- The `walkentry` the two getters set up, over the junk `w`. -/
def walkEntry (w : WalkEntry) (key : Key) (version : UInt64) : WalkEntry :=
  { w with version := version, startOffset := 0, key := snprintfKey w.key key }

/-- `NVSStore::get`; `wentry` is the uninitialised `walkentry` on its stack. -/
def get (s : NvsStore) (wentry : WalkEntry) (fuel : Nat) (key : Key) (version : UInt64)
    (objAddr : Nat) : Except Stop (ErrorCode × NvsStore) :=
  match s.file.run (walk (processChunks fuel) fuel (walkEntry wentry key version)) with
  | .error stop => .error stop
  | .ok (code, w, _) =>
    if code ≠ .noError then .ok (.idNotFound, s)
    else if w.err ≠ .noError then .ok (.idNotFound, s)
    else
      match s.file.run (Prog.loadEach w.datap w.len) with
      | .error stop => .error stop
      | .ok data => .ok (.noError, { s with heap := store s.heap objAddr data })

/-- `NVSStore::get_with_malloc`; `malloc`, if called, returns `tmpPtr`. -/
def getWithMalloc (s : NvsStore) (wentry : WalkEntry) (fuel : Nat) (key : Key) (version : UInt64)
    (tmpPtr : Nat) : Except Stop (ErrorCode × Option Nat × NvsStore) :=
  match s.file.run (walk (processChunks fuel) fuel (walkEntry wentry key version)) with
  | .error stop => .error stop
  | .ok (_, w, _) =>
    if w.err ≠ .noError then .ok (.idNotFound, none, s)
    else
      let obj := match s.objectMap.find? key with
        | some obj => obj
        | none => Object.ctor key (UInt64.ofNat w.len) version tmpPtr
      match s.file.run (Prog.loadEach w.datap w.len) with
      | .error stop => .error stop
      | .ok data => .ok (.noError, some obj.ptr, { s with
          heap := store s.heap obj.ptr data
          objectMap := s.objectMap.insert key (obj.setVersion version) })

end NvsStore

end NvStream
