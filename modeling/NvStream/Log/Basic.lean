/-
  The persistent log (`src/sheap/log.cc`), as the code computes it.

  A `File` is the mapped log file: its bytes and its length.  A `Log` is one handle on it, with the
  offsets the C++ object caches.  Every handle on a file shares the bytes, none shares the offsets.

  * WRITERS (`Log.append`, `Log.appendv`, `Log.appendmv`) are straight-line once the space check has
    passed, so their effect is a TRACE of stores and fences (`PersistTrace.Op`): `copyv`/`copymv` for
    the payload and `persist` for the commit word and the tail.  Executing the trace gives the
    call's result; cutting it short gives its crash points; scheduling it step by step gives its
    interleavings with readers.  The payload and the commit word are stored byte by byte; `hdr->tail`
    is one aligned 8-byte store.
  * READERS (`Log.walk`) are load programs (`LoadProg.Prog`): `hdr->tail` and `hdr->head` are single
    8-byte loads, everything inside an entry is loaded byte by byte.

  All offsets are `uint64_t`, so sums are taken through `u64`.  A store or load outside the mapping
  is `Stop.segv`; the loop of `walk` carries a bound, and `Stop.fuel` says it was too small.
-/
import NvStream.Layout
import NvStream.Lib.PersistTrace

namespace NvStream

open FlatMem LittleEndian LoadProg PersistTrace

/-- A log file as mapped: its bytes, and its length. -/
structure File where
  bytes : Mem Byte
  len : Nat

/-- `class Log`: the offsets a handle caches. -/
structure Log where
  mappedLen : Nat
  startOffset : Nat
  endOffset : Nat
  writeOffset : Nat
deriving DecidableEq, Repr

/-- `struct iovec`: the `iov_len` bytes at `iov_base`. -/
structure IoVec where
  base : List Byte
  len_lt : base.length < 2 ^ 64

/-- `iov_len` -/
def IoVec.len (v : IoVec) : Nat := v.base.length

/-- The bytes a vector gathers. -/
def gather (iov : List IoVec) : List Byte := iov.flatMap IoVec.base

/-! ## Opening a log: `pmem_map_file` and `Log::Log` -/

/-- `pmem_map_file(path, len, PMEM_FILE_CREATE | PMEM_FILE_EXCL, ..)`: fails on an existing file, on
    length zero and on a length negative as an `off_t`; a new file reads as zeros. -/
def pmemMapCreate : Option File → Nat → Option File
  | some _, _ => none
  | none, len => if 0 < len ∧ len < 2 ^ 63 then some ⟨fun _ => 0, len⟩ else none

/-- `pmem_map_file(path, len, 0, ..)`: a non-zero length needs `PMEM_FILE_CREATE`; otherwise the
    whole existing file is mapped (an empty one cannot be). -/
def pmemMapOpen (f : Option File) (len : Nat) : Option File :=
  if len ≠ 0 then none else f.filter (fun f => f.len ≠ 0)

/-- The stores of the constructor on a new file: the header, persisted, then one zero byte in every
    page up to `end_offset` (plain stores, never fenced). -/
def ctorOps (len : Nat) : List (Op Byte) :=
  storeEach 0 (LHdr.encode ⟨magicNumber, len, sizeofLhdr, sizeofLhdr⟩) ++ Op.drain ::
    (List.range ((len - 1 - sizeofLhdr + 4095) / 4096)).map
      (fun i => Op.store (sizeofLhdr + 4096 * i) [0])

/-- `Log::Log(logPath, log_size, log_id)`, on the file found at `logPath`: a new log, an existing
    one with its header verified, or `exit(1)`. -/
def Log.ctor (file : Option File) (logSize : Nat) : Except Stop (Log × File) :=
  match pmemMapCreate file logSize with
  | some f =>
    .ok (⟨f.len, sizeofLhdr, f.len - 1, sizeofLhdr⟩, ⟨exec f.bytes (ctorOps f.len), f.len⟩)
  | none =>
    match pmemMapOpen file logSize with
    | none => .error .exit
    | some f =>
      if word f.bytes 0 ≠ magicNumber then .error .exit
      else if word f.bytes lenOff ≠ f.len then .error .abort
      else .ok (⟨f.len, word f.bytes headOff, f.len - 1, word f.bytes tailOff⟩, f)

/-! ## Appending -/

/-- `Log::persist`, started at `write_offset = wo`: fence the payload, write the commit word (twice),
    fence, advance, store `hdr->tail`, fence.  The second component is the new `write_offset`. -/
def persist (wo : Nat) : List (Op Byte) × Nat :=
  (Op.drain :: (storeEach wo commitWord ++ (storeEach wo commitWord ++
    [Op.drain, Op.store tailOff (toLE 8 (u64 (wo + wordLength))), Op.drain])),
   u64 (wo + wordLength))

/-- The copy loop of `appendv`: store each buffer at `write_offset` and advance. -/
def copyv : Nat → List IoVec → List (Op Byte) × Nat
  | wo, [] => ([], wo)
  | wo, v :: vs =>
    let rest := copyv (u64 (wo + v.len)) vs
    (storeEach wo v.base ++ rest.1, rest.2)

/-- The nested copy loop of `appendmv`. -/
def copymv : Nat → List (List IoVec) → List (Op Byte) × Nat
  | wo, [] => ([], wo)
  | wo, row :: rows =>
    let here := copyv wo row
    let rest := copymv here.2 rows
    (here.1 ++ rest.1, rest.2)

/-- `tot_cnt` of `appendv`: the lengths and the commit word, summed as `uint64_t`. -/
def totCntv (iov : List IoVec) : Nat :=
  u64 (iov.foldl (fun t v => u64 (t + v.len)) 0 + wordLength)

/-- `tot_cnt` of `appendmv`, by the nested loop. -/
def totCntmv (rows : List (List IoVec)) : Nat :=
  u64 (rows.foldl (fun t row => row.foldl (fun t v => u64 (t + v.len)) t) 0 + wordLength)

/-- The store stays inside the mapping. -/
def InMap (len : Nat) : Op Byte → Prop
  | .store off bs => bs.length = 0 ∨ off + bs.length ≤ len
  | .drain => True

instance (len : Nat) : DecidablePred (InMap len) := fun o =>
  match o with
  | .store off bs => inferInstanceAs (Decidable (bs.length = 0 ∨ off + bs.length ≤ len))
  | .drain => inferInstanceAs (Decidable True)

/-- The space check the append functions make before they store anything. -/
def Log.HasSpace (l : Log) (need : Nat) : Prop :=
  l.writeOffset < l.endOffset ∧ need ≤ l.endOffset - l.writeOffset

instance (l : Log) (need : Nat) : Decidable (l.HasSpace need) :=
  inferInstanceAs (Decidable (_ ∧ _))

/-- What the three append functions share: refuse without touching anything, or run the copy loop's
    stores followed by `persist`. -/
def Log.appendWith (l : Log) (f : File) (need : Nat) (copy : List (Op Byte) × Nat) :
    Except Stop (Log × File) :=
  if l.HasSpace need then
    let ops := copy.1 ++ (persist copy.2).1
    if ∀ o ∈ ops, InMap f.len o then
      .ok ({ l with writeOffset := (persist copy.2).2 }, { f with bytes := exec f.bytes ops })
    else .error .segv
  else .error .exit

/-- `Log::append`: the check leaves out the commit word, and `write_offset` is not advanced over the
    data before `persist`. -/
def Log.append (l : Log) (f : File) (data : List Byte) : Except Stop (Log × File) :=
  l.appendWith f data.length (storeEach l.writeOffset data, l.writeOffset)

/-- `Log::appendv` -/
def Log.appendv (l : Log) (f : File) (iov : List IoVec) : Except Stop (Log × File) :=
  l.appendWith f (totCntv iov) (copyv l.writeOffset iov)

/-- `Log::appendmv` -/
def Log.appendmv (l : Log) (f : File) (rows : List (List IoVec)) : Except Stop (Log × File) :=
  l.appendWith f (totCntmv rows) (copymv l.writeOffset rows)

/-! ## Walking -/

/-- One aligned 8-byte load. -/
def load64 (off : Nat) : Prog Stop Byte Nat := .load off 8 (fun bs => .ret (ofLE bs))

/-- A 64-bit field of an entry, byte by byte. -/
def loadWord (off : Nat) : Prog Stop Byte Nat := do
  let bs ← Prog.loadEach off 8
  return ofLE bs

/-- The loop of `Log::walk`, from `tmp_offset = off`.  The callback gets the entry's offset, the
    `len` of its header and its argument, and answers whether to go on; the second component of the
    result is the final `tmp_offset`. -/
def walkLoop {σ : Type} (processChunk : Nat → Nat → σ → Prog Stop Byte (σ × Bool)) (tail : Nat) :
    Nat → Nat → σ → Prog Stop Byte (σ × Nat)
  | 0, _, _ => .fail .fuel
  | fuel + 1, off, arg =>
    if off < tail then do
      let len ← loadWord (u64 (off + lenField))
      let r ← processChunk off len arg
      if r.2 then do
        let len ← loadWord (u64 (off + lenField))
        walkLoop processChunk tail fuel (u64 (off + u64 (sizeofLehdr + len + wordLength))) r.1
      else return (r.1, off)
    else return (arg, off)

/-- `Log::walk` -/
def walk {σ : Type} (processChunk : Nat → Nat → σ → Prog Stop Byte (σ × Bool)) (fuel : Nat)
    (arg : σ) : Prog Stop Byte (ErrorCode × σ × Nat) := do
  let tail ← load64 tailOff
  let head ← load64 headOff
  if head ≥ tail then return (.idNotFound, arg, head)
  else do
    let r ← walkLoop processChunk tail fuel head arg
    return (.noError, r)

/-- What a callback is shown of one entry. -/
structure Visit where
  off : Nat
  len : Nat
  bytes : List Byte
deriving DecidableEq, Repr

/-- The callback that looks at everything: it notes the offset and the length it is passed, reads the
    header and the payload byte by byte, and always asks for the next entry. -/
def observe (off len : Nat) (seen : List Visit) : Prog Stop Byte (List Visit × Bool) := do
  let bs ← Prog.loadEach off (sizeofLehdr + len)
  return (seen ++ [⟨off, len, bs⟩], true)

/-- Run a load program against a mapped file.  A load behind `mapped_len` is a fault.  The kernel maps
    whole pages, so this is what happens exactly if `mapped_len` is a multiple of the page size, as
    the `LOG_SIZE` of both stores is; behind a shorter last page the rest of that page reads as zeros. -/
def File.run {β : Type} (f : File) (p : Prog Stop Byte β) : Except Stop β :=
  p.run f.len .segv f.bytes

/-! ## What a run of loads comes to -/

namespace File
variable (f : File)

theorem run_bind {β γ : Type} (p : Prog Stop Byte β) (q : β → Prog Stop Byte γ) :
    f.run (p >>= q) = (f.run p).bind (fun b => f.run (q b)) :=
  Prog.run_bind f.len Stop.segv f.bytes p q

theorem run_bind_ok {β γ : Type} {p : Prog Stop Byte β} {b : β} (h : f.run p = .ok b)
    (q : β → Prog Stop Byte γ) : f.run (p >>= q) = f.run (q b) := by
  rw [run_bind, h]
  rfl

theorem run_bind_error {β γ : Type} {p : Prog Stop Byte β} {e : Stop} (h : f.run p = .error e)
    (q : β → Prog Stop Byte γ) : f.run (p >>= q) = .error e := by
  rw [run_bind, h]
  rfl

theorem run_map {β γ : Type} (p : Prog Stop Byte β) (g : β → γ) :
    f.run (p >>= fun b => pure (g b)) = (f.run p).map g := by
  rw [run_bind]
  cases f.run p with
  | error e => rfl
  | ok b => rfl

theorem run_loadEach (off n : Nat) :
    f.run (Prog.loadEach off (n + 1)) =
      if off + (n + 1) ≤ f.len then .ok (load f.bytes off (n + 1)) else .error .segv := by
  rw [File.run, Prog.run_loadEach]
  exact if_congr (or_iff_right (Nat.succ_ne_zero n)) rfl rfl

theorem run_load64 (off : Nat) :
    f.run (load64 off) = if off + 8 ≤ f.len then .ok (word f.bytes off) else .error .segv := by
  rw [File.run, load64, Prog.run]
  exact if_congr (or_iff_right (by decide)) rfl rfl

/-- A 64-bit field is read, or lies outside the mapping. -/
theorem run_loadWord (off : Nat) :
    f.run (loadWord off) = if off + 8 ≤ f.len then .ok (word f.bytes off) else .error .segv := by
  rw [loadWord, run_bind, f.run_loadEach off 7]
  by_cases h : off + 8 ≤ f.len
  · rw [if_pos h, if_pos h]
    rfl
  · rw [if_neg h, if_neg h]
    rfl

end File

end NvStream
