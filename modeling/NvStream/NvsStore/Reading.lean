/-
  The getters, load by load.

  `NvsStore.get` and `NvsStore.getWithMalloc` search the log in one go.  Here a process is split into
  its private part (`Proc`) and the file it shares with others, and a getter (`Query`) into the load
  program that searches the file and copies what it finds (`Query.loads`), and what the call then does
  to the private part (`Query.complete`).  `Query.call_eq` puts the two back together: a query that
  nobody disturbs IS the call.

  `Query.settles` is what a query is worth while somebody else is appending.  Once it has loaded
  `hdr->tail` it relies on the entries below the tail and on nothing else.  That takes an argument,
  because it does LOOK further: `process_chunks` reads the `len` of the first record of a batch
  before it knows that there is one, so behind an empty batch at the end of the log it reads bytes
  that are being written.  It makes nothing of them.
-/
import NvStream.NvsStore.Calls

namespace NvStream

open FlatMem LittleEndian LoadProg PersistTrace

/-! ## A process and the file it shares -/

/-- What a process with an `NVSStore` has to itself. -/
structure Proc where
  log : Log
  heap : Mem Byte
  objectMap : SortedMap Key Object
  addrMap : SortedMap Nat Key

/-- The store of a process, on the file it has mapped. -/
def Proc.on (p : Proc) (f : File) : NvsStore := ⟨p.log, f, p.heap, p.objectMap, p.addrMap⟩

/-- The private part of a store. -/
def NvsStore.proc (s : NvsStore) : Proc := ⟨s.log, s.heap, s.objectMap, s.addrMap⟩

@[simp] theorem Proc.proc_on (p : Proc) (f : File) : (p.on f).proc = p := rfl

/-! ## Queries -/

/-- Which getter is called, and with which address: `get` copies into the caller's buffer,
    `get_with_malloc` into the object's own, or into the block `malloc` returns. -/
inductive Getter where
  | get (objAddr : Nat)
  | getWithMalloc (tmpPtr : Nat)

/-- A call of a getter; `wentry` is the uninitialised `walkentry` on its stack. -/
structure Query where
  wentry : WalkEntry
  key : Key
  version : UInt64
  getter : Getter

namespace Query

/-- The call itself, with a bound for its loops. -/
def call (q : Query) (fuel : Nat) : Call :=
  match q.getter with
  | .get objAddr => .get q.wentry fuel q.key q.version objAddr
  | .getWithMalloc tmpPtr => .getWithMalloc q.wentry fuel q.key q.version tmpPtr

/-- The getter gives up: `get` looks at the code of `walk` and at `wentry.err`, `get_with_malloc` only
    at the latter. -/
def Misses (q : Query) (code : ErrorCode) (w : WalkEntry) : Prop :=
  match q.getter with
  | .get _ => code ≠ .noError ∨ w.err ≠ .noError
  | .getWithMalloc _ => w.err ≠ .noError

instance (q : Query) (code : ErrorCode) (w : WalkEntry) : Decidable (q.Misses code w) :=
  match h : q.getter with
  | .get _ => decidable_of_iff (code ≠ .noError ∨ w.err ≠ .noError) (by rw [Misses, h])
  | .getWithMalloc _ => decidable_of_iff (w.err ≠ .noError) (by rw [Misses, h])

/-- What a getter loads once `walk` has returned. -/
def copy (q : Query) (r : ErrorCode × WalkEntry × Nat) : Prog Stop Byte (Option (List Byte)) :=
  if q.Misses r.1 r.2.1 then return none
  else do
    let data ← Prog.loadEach r.2.1.datap r.2.1.len
    return some data

/-- Everything a getter loads from the log. -/
def loads (q : Query) (fuel : Nat) : Prog Stop Byte (Option (List Byte)) := do
  let r ← walk (processChunks fuel) fuel (NvsStore.walkEntry q.wentry q.key q.version)
  q.copy r

/-- What the getter does with what it has loaded. -/
def complete (q : Query) (p : Proc) : Option (List Byte) → Reply × Proc
  | none =>
    match q.getter with
    | .get _ => (.code .idNotFound, p)
    | .getWithMalloc _ => (.object .idNotFound none, p)
  | some data =>
    match q.getter with
    | .get objAddr => (.code .noError, { p with heap := store p.heap objAddr data })
    | .getWithMalloc tmpPtr =>
      let obj := match p.objectMap.find? q.key with
        | some obj => obj
        | none => Object.ctor q.key (UInt64.ofNat data.length) q.version tmpPtr
      (.object .noError (some obj.ptr), { p with
        heap := store p.heap obj.ptr data
        objectMap := p.objectMap.insert q.key (obj.setVersion q.version) })

theorem run_copy_miss {q : Query} {r : ErrorCode × WalkEntry × Nat} (h : q.Misses r.1 r.2.1)
    (f : File) : f.run (q.copy r) = .ok none := by
  rw [copy, if_pos h]
  rfl

theorem run_copy_hit {q : Query} {r : ErrorCode × WalkEntry × Nat} (h : ¬ q.Misses r.1 r.2.1)
    (f : File) :
    f.run (q.copy r) = (f.run (Prog.loadEach r.2.1.datap r.2.1.len)).map some := by
  rw [copy, if_neg h]
  exact Prog.run_bind _ _ _ _ _

/-- **A query that nobody disturbs is the call.** -/
theorem call_eq (q : Query) (fuel : Nat) (p : Proc) (f : File) :
    (p.on f).call (q.call fuel) =
      (f.run (q.loads fuel)).map (fun r => ((q.complete p r).1, (q.complete p r).2.on f)) := by
  obtain ⟨wentry, key, version, getter⟩ := q
  have hloads : f.run (loads ⟨wentry, key, version, getter⟩ fuel) =
      (f.run (walk (processChunks fuel) fuel (NvsStore.walkEntry wentry key version))).bind
        (fun r => f.run (copy ⟨wentry, key, version, getter⟩ r)) := Prog.run_bind _ _ _ _ _
  have hfile : (p.on f).file = f := rfl
  rw [hloads]
  cases getter with
  | get objAddr =>
    show ((p.on f).get wentry fuel key version objAddr).map _ = _
    unfold NvsStore.get
    rw [hfile]
    cases f.run (walk (processChunks fuel) fuel (NvsStore.walkEntry wentry key version)) with
    | error stop => rfl
    | ok r =>
      obtain ⟨code, w, cursor⟩ := r
      show Except.map _ (if code ≠ .noError then _ else _) =
        Except.map _ (f.run (copy ⟨wentry, key, version, .get objAddr⟩ (code, w, cursor)))
      by_cases hmiss : Misses ⟨wentry, key, version, .get objAddr⟩ code w
      · rw [run_copy_miss hmiss]
        rcases show code ≠ .noError ∨ w.err ≠ .noError from hmiss with hcode | herr
        · rw [if_pos hcode]
          rfl
        · rw [if_pos herr, ite_self]
          rfl
      · rw [run_copy_hit hmiss]
        obtain ⟨hcode, herr⟩ := not_or.mp hmiss
        rw [if_neg hcode, if_neg herr]
        cases f.run (Prog.loadEach w.datap w.len) <;> rfl
  | getWithMalloc tmpPtr =>
    show ((p.on f).getWithMalloc wentry fuel key version tmpPtr).map _ = _
    unfold NvsStore.getWithMalloc
    rw [hfile]
    cases f.run (walk (processChunks fuel) fuel (NvsStore.walkEntry wentry key version)) with
    | error stop => rfl
    | ok r =>
      obtain ⟨code, w, cursor⟩ := r
      show Except.map _ (if w.err ≠ .noError then _ else _) = Except.map _
        (f.run (copy ⟨wentry, key, version, .getWithMalloc tmpPtr⟩ (code, w, cursor)))
      by_cases hmiss : Misses ⟨wentry, key, version, .getWithMalloc tmpPtr⟩ code w
      · rw [run_copy_miss hmiss, if_pos (show w.err ≠ .noError from hmiss)]
        rfl
      · rw [run_copy_hit hmiss, if_neg (show ¬ w.err ≠ .noError from hmiss), File.run,
          Prog.run_loadEach]
        by_cases hin : w.len = 0 ∨ w.datap + w.len ≤ f.len
        · rw [if_pos hin]
          simp only [Except.map, complete, length_load]
          rfl
        · rw [if_neg hin]
          rfl

/-! ## What a query is worth -/

/-- The bytes a query asks for, in a log of `items`. -/
def answer (q : Query) (items : List Item) : Option (List Byte) :=
  (lookup q.key q.version items).map Rec.data

/-- On an empty log `walk` does not call back, and `get_with_malloc` goes by the junk in `wentry.err`. -/
def Determined (q : Query) (items : List Item) : Prop :=
  items = [] → q.Misses .idNotFound q.wentry

/-- What is left of a query once it has loaded `hdr->tail`. -/
def loadsBelow (q : Query) (fuel tail : Nat) : Prog Stop Byte (Option (List Byte)) := do
  let r ← walkBelow (processChunks fuel) fuel (NvsStore.walkEntry q.wentry q.key q.version) tail
  q.copy r

theorem loads_eq_load (q : Query) (fuel : Nat) :
    q.loads fuel = Prog.load tailOff 8 (fun bs => q.loadsBelow fuel (ofLE bs)) := rfl

end Query

/-- The `len` of a record, whatever it reads as. -/
theorem settles_loadWord_bind {β : Type} {S : Set Nat} {m : Mem Byte} {off : Nat} {b : β}
    {f : Nat → Prog Stop Byte β} (hf : ∀ n, (f n).Settles S m b) :
    (loadWord off >>= f).Settles S m b := by
  show ((Prog.loadEach off 8).bind _ |>.bind f).Settles S m b
  rw [Prog.bind_assoc']
  exact Prog.settles_loadEach_bind (fun bs => hf (ofLE bs))

/-- **`process_chunks` relies on the bytes of its item only.** -/
theorem processChunks_settles {m : Mem Byte} {S : Set Nat} {off fuel : Nat} (e : WalkEntry)
    (len : Nat) {it : Item} (hat : load m off it.entry.bytes.length = it.entry.bytes)
    (hlt : off + it.entry.bytes.length < 2 ^ 64) (hfuel : it.recs.length < fuel)
    (hS : ∀ i < it.entry.bytes.length, off + i ∈ S) :
    (processChunks fuel off len e).Settles S m (lookStep off it e) := by
  cases it with
  | single w => exact (processChunks_yields e len hat hlt hfuel hS).settles
  | multiple junk ws fits =>
    cases ws with
    | cons w ws =>
      have hreach : (Item.multiple junk (w :: ws) fits).reach =
          (Item.multiple junk (w :: ws) fits).entry.bytes.length := by
        rw [Item.reach_cons, Entry.length_bytes, Item.len_multiple]
      exact (processChunks_yields e len hat (by rw [hreach]; exact hlt) hfuel
        (by rw [hreach]; exact hS)).settles
    | nil =>
      obtain ⟨fuel, rfl⟩ : ∃ k, fuel = k + 1 := ⟨fuel - 1, by omega⟩
      have houter := junk.len_outer fits
      obtain ⟨hh, _⟩ := Entry.load_ofHdr houter hat
      have hlen := (Item.multiple junk [] fits).entry.length_bytes
      have hlt' : off + sizeofLehdr < 2 ^ 64 := by omega
      have hhdr : ∀ i < sizeofLehdr, off + i ∈ S := fun i hi => hS i (by omega)
      have htype : ofLE (load m (off + typeField) 4) = HdrType.multiple.code.toNat :=
        hh.fields.2.2.2
      refine Prog.Settles.bind' (type_yields hlt' hhdr).settles ?_
      rw [htype, if_neg (by decide), if_pos rfl]
      -- the `len` of a record that is not there
      refine settles_loadWord_bind (fun n => ?_)
      refine Prog.Settles.bind' (len_yields hh houter hlt' hhdr).settles ?_
      rw [if_neg (show ¬ _ < (batchBytes []).length from Nat.not_lt_zero _)]
      exact Prog.settles_pure _ _ _

theorem length_le_batchBytes (ws : List Written) : ws.length ≤ (batchBytes ws).length := by
  induction ws with
  | nil => exact Nat.le_refl _
  | cons w ws ih =>
    rw [batchBytes_cons, List.length_append, List.length_cons, w.length_bytes, sizeofLehdr]
    omega

/-- The loops of a search through a log never need more rounds than the file has bytes. -/
theorem lookFuel_le {f : File} {items : List Item} (hr : Rep f (encode (items.map Item.entry))) :
    lookFuel items ≤ f.len := by
  have hroom := hr.room
  have hle : items.length + (items.flatMap Item.recs).length ≤
      (encode (items.map Item.entry)).length := by
    clear hr hroom
    induction items with
    | nil => exact Nat.le_refl _
    | cons it items ih =>
      have hframe := it.entry.length_frame
      have hsz : sizeofLehdr = 136 := rfl
      have hrecs : it.recs.length ≤ 1 + it.entry.len := by
        cases it with
        | single w => exact Nat.le_add_right 1 _
        | multiple junk ws fits =>
          rw [Item.len_multiple, Item.recs, List.length_map]
          have := length_le_batchBytes ws
          omega
      rw [List.length_cons, List.flatMap_cons, List.length_append, List.map_cons, encode_cons,
        List.length_append]
      omega
  rw [lookFuel]
  omega

/-- What a search finds stands behind the place it started from. -/
theorem le_datap_scan {key : Key} {version : UInt64} {r : Rec} (items : List Item) :
    ∀ (off : Nat) (e : WalkEntry), cStr e.key.toList = keyField key → e.version = version →
      lookup key version items = some r →
      off ≤ (scan Item.entry lookStep off items e).1.datap := by
  induction items with
  | nil =>
    intro off e _ _ h
    cases h
  | cons it items ih =>
    rintro off e hkey rfl h
    rw [lookup_cons] at h
    rw [scan, lookStep, hkey]
    cases hfind : it.find (keyField key) e.version with
    | none =>
      rw [hfind, Option.map_none, Option.none_or] at h
      rw [WalkEntry.report, if_pos rfl]
      exact (Nat.le_add_right _ _).trans (ih _ _ hkey rfl h)
    | some pr =>
      rw [WalkEntry.report, if_neg (by simp)]
      exact Nat.le_add_right off pr.1

section
variable {f : File} {items : List Item} {fuel : Nat}
  (hr : Rep f (encode (items.map Item.entry)))
include hr

/-- The search, from the load of `hdr->tail` on, relies on the entries below the tail. -/
theorem search_settles (hfuel : lookFuel items ≤ fuel) (e : WalkEntry) :
    (walkBelow (processChunks fuel) fuel e (32 + (encode (items.map Item.entry)).length)).Settles
      (entryRegion (items.map Item.entry)) f.bytes
      (walkCode (items.map Item.entry), scan Item.entry lookStep 32 items e) := by
  have hsmall := hr.small
  have hroom := hr.room
  have hhead : (load64 headOff).Settles (entryRegion (items.map Item.entry)) f.bytes 32 :=
    (head_yields hr (fun a h1 h2 => Or.inl ⟨h1, h2⟩)).settles
  have hbody : ∀ a, 32 ≤ a → a < 32 + (encode (items.map Item.entry)).length →
      a ∈ entryRegion (items.map Item.entry) := fun a h1 h2 => Or.inr ⟨h1, h2⟩
  refine Prog.Settles.bind' hhead ?_
  by_cases hne : items = []
  · subst hne
    rw [if_pos (by exact Nat.le_refl 32)]
    exact Prog.settles_pure _ _ _
  · obtain ⟨first, rest, hcons⟩ := List.exists_cons_of_ne_nil hne
    have hpos : 0 < (encode (items.map Item.entry)).length := by
      rw [hcons, List.map_cons, encode_cons, List.length_append, first.entry.length_frame, wordLength]
      omega
    have hcode : walkCode (items.map Item.entry) = .noError := by
      rw [hcons]
      rfl
    rw [if_neg (by omega), hcode]
    refine Prog.Settles.bind' (walkLoop_settles items 32 fuel e hr.content rfl (by omega)
      (show items.length < fuel by rw [lookFuel] at hfuel; omega) hbody ?_) (Prog.settles_pure _ _ _)
    intro pre it post e' hitems hat
    have hmem : it ∈ items := by
      rw [hitems]
      exact List.mem_append_right _ List.mem_cons_self
    have hsplit := length_encode_items hitems
    have hframe := it.entry.length_frame
    have hlb := it.entry.length_bytes
    exact processChunks_settles e' _ hat (by omega)
      (Nat.lt_of_lt_of_le (recs_length_lt_lookFuel hmem) hfuel)
      (fun i hi => hbody _ (by omega) (by omega))

namespace Query

variable (q : Query)

/-- So does the copy of what the search has found. -/
theorem copy_settles (hne : items ≠ []) :
    (q.copy (.noError, scan Item.entry lookStep 32 items
      (NvsStore.walkEntry q.wentry q.key q.version))).Settles
      (entryRegion (items.map Item.entry)) f.bytes (q.answer items) := by
  have hfound := found_of_scan hr hne q.wentry q.key q.version
  have hge := fun r => le_datap_scan (r := r) items 32
    (NvsStore.walkEntry q.wentry q.key q.version) (cStr_snprintfKey _ _) rfl
  generalize scan Item.entry lookStep 32 items (NvsStore.walkEntry q.wentry q.key q.version) =
    found at hfound hge
  rw [Query.answer]
  cases hlk : lookup q.key q.version items with
  | none =>
    rw [hlk] at hfound
    have herr : found.1.err = .idNotFound := hfound
    have hmiss : q.Misses .noError found.1 := by
      unfold Query.Misses
      rw [herr]
      cases q.getter <;> simp
    rw [Query.copy, if_pos hmiss]
    exact Prog.settles_pure _ _ _
  | some r =>
    rw [hlk] at hfound
    obtain ⟨herr, hlen, hdata, hle⟩ := hfound
    have hstart := hge r hlk
    have hhit : ¬ q.Misses .noError found.1 := by
      unfold Query.Misses
      rw [herr]
      cases q.getter <;> simp
    rw [Query.copy, if_neg hhit]
    dsimp only
    rw [hlen]
    refine Prog.Settles.bind' (b := r.data) (Prog.Yields.settles ?_) (Prog.settles_pure _ _ _)
    exact Prog.yields_loadEach_iff.mpr
      ⟨fun i hi => Or.inr ⟨by omega, by omega⟩, hdata.symm⟩

/-- **What a query is worth while somebody appends**: from the load of `hdr->tail` on, whatever the
    bytes outside the entries below that tail read as, it returns what these entries answer. -/
theorem settles (hfuel : lookFuel items ≤ fuel) (hd : q.Determined items) :
    (q.loadsBelow fuel (32 + (encode (items.map Item.entry)).length)).Settles
      (entryRegion (items.map Item.entry)) f.bytes (q.answer items) := by
  refine Prog.Settles.bind' (search_settles hr hfuel _) ?_
  by_cases hne : items = []
  · -- nothing below the tail: `walk` has not called back
    subst hne
    have hmiss : q.Misses .idNotFound (NvsStore.walkEntry q.wentry q.key q.version) := hd rfl
    show (q.copy (.idNotFound, NvsStore.walkEntry q.wentry q.key q.version, 32)).Settles _ _ none
    rw [Query.copy, if_pos hmiss]
    exact Prog.settles_pure _ _ _
  · have hcode : walkCode (items.map Item.entry) = .noError :=
      if_neg (fun h => hne (List.map_eq_nil_iff.mp h))
    rw [hcode]
    exact q.copy_settles hr hne

/-- What a query that has run through returned. -/
theorem eq_of_run {r : Option (List Byte)} (hfuel : f.len ≤ fuel) (hd : q.Determined items)
    (hrun : f.run (q.loads fuel) = .ok r) : r = q.answer items := by
  rw [q.loads_eq_load, File.run, Prog.run] at hrun
  split at hrun
  · rw [show ofLE (load f.bytes tailOff 8) = 32 + _ from hr.tail_eq] at hrun
    exact (q.settles hr ((lookFuel_le hr).trans hfuel) hd).eq_of_run hrun
  · cases hrun

end Query
end

theorem lookup_append (key : Key) (version : UInt64) (items items' : List Item) :
    lookup key version (items ++ items') =
      (lookup key version items).or (lookup key version items') := by
  rw [lookup, List.flatMap_append, List.find?_append, lookup, lookup]

end NvStream
