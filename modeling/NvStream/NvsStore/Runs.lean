/-
  Whole runs of an `NVSStore`.

  A `Life` is a store and the list of its successful `put`s and `put_all`s, each with the offset its
  header was written at, the `len` put into that header, and what was recorded.  The steps are every
  call of the class, writes of the application anywhere in its heap, and restarts of the process on
  the same log; `valid` says which keys the application uses.

  ONE invariant, `Life.Inv`, ties the log file to that list: the file is the image of items, and the
  list is what the items say (`eventsFrom`).  From it:

  * `framing_agreement`: the stride of `Log::walk` meets exactly the offsets the writers wrote at;
  * `put_get_round_trip`: `get` is the map from a key and a version to the earliest put;
  * `snapshot_complete_iff`: which keys of a `put_all` can be read back.
-/
import NvStream.NvsStore.Lookup

namespace NvStream

open FlatMem LittleEndian LoadProg PersistTrace

/-! ## What happened to a store -/

/-- What one entry records. -/
inductive Recorded where
  | put (r : Rec)
  | putAll (rs : List Rec)

/-- The records of an entry. -/
def Recorded.recs : Recorded → List Rec
  | put r => [r]
  | putAll rs => rs

/-- The records of an entry that a search compares: the last one of a batch is left out. -/
def Recorded.visible : Recorded → List Rec
  | put r => [r]
  | putAll rs => rs.dropLast

/-- A successful `put` or `put_all`. -/
structure Event where
  /-- `write_offset` when the call copied its header. -/
  off : Nat
  /-- The `len` the call put into its header. -/
  len : Nat
  what : Recorded

/-- What an item records. -/
def Item.what : Item → Recorded
  | .single w => .put w.toRec
  | .multiple _ ws _ => .putAll (ws.map Written.toRec)

theorem Item.recs_what (it : Item) : it.what.recs = it.recs := by
  cases it <;> rfl

theorem Item.visible_what (it : Item) : it.what.visible = it.visible := by
  cases it <;> rfl

/-- The events that leave `items` in the log, the first of them at `off`. -/
def eventsFrom : Nat → List Item → List Event
  | _, [] => []
  | off, it :: items =>
    ⟨off, it.entry.len, it.what⟩ :: eventsFrom (off + it.entry.frame.length) items

theorem eventsFrom_concat (off : Nat) (items : List Item) (it : Item) :
    eventsFrom off (items ++ [it]) = eventsFrom off items ++
      [⟨off + (encode (items.map Item.entry)).length, it.entry.len, it.what⟩] := by
  induction items generalizing off with
  | nil => rfl
  | cons it' items ih =>
    rw [List.cons_append, eventsFrom, eventsFrom, ih, List.map_cons, encode_cons,
      List.length_append, List.cons_append, Nat.add_assoc]

theorem map_what_eventsFrom (off : Nat) (items : List Item) :
    (eventsFrom off items).map Event.what = items.map Item.what := by
  induction items generalizing off with
  | nil => rfl
  | cons it items ih => rw [eventsFrom, List.map_cons, List.map_cons, ih]

/-- An object as the application sees it recorded: under the key it was put by. -/
def Object.recorded (heap : Mem Byte) (key : Key) (o : Object) (version : UInt64) : Rec :=
  { o.toRec heap version with name := key }

theorem Object.recorded_eq {o : Object} {key : Key} (h : o.name = key) (heap : Mem Byte)
    (version : UInt64) : o.recorded heap key version = o.toRec heap version := by
  subst h
  rfl

/-! ## Lives -/

/-- A store, and what was put into its log so far, by whatever process. -/
structure Life where
  store : NvsStore
  events : List Event

namespace Life

/-- The record of the log that answers a query: the first visible one with the name, as it is stored,
    and the version. -/
def answer (L : Life) (key : Key) (version : UInt64) : Option Rec :=
  (L.events.flatMap (fun e => e.what.visible)).find? (Rec.matches (keyField key) version)

/-- One call, one write of the application, or one restart.  `valid` restricts the keys. -/
inductive Step (valid : Key → Prop) : Life → Life → Prop
  | createObj {L : Life} {code : ErrorCode} {addr : Nat} {s' : NvsStore} (key : Key)
      (size : UInt64) (tmpPtr : Nat) (hkey : valid key)
      (h : L.store.createObj key size tmpPtr = .ok (code, addr, s')) :
      Step valid L { L with store := s' }
  | appWrite {L : Life} (addr : Nat) (bs : List Byte) :
      Step valid L { L with store := { L.store with heap := FlatMem.store L.store.heap addr bs } }
  | freeObj {L : Life} {code : ErrorCode} {s' : NvsStore} (objAddr : Nat)
      (h : L.store.freeObj objAddr = .ok (code, s')) : Step valid L { L with store := s' }
  | put {L : Life} {s' : NvsStore} {obj : Object} (junk : LeHdr) (key : Key) (version : UInt64)
      (hobj : L.store.objectMap.find? key = some obj)
      (h : L.store.put junk key version = .ok (.noError, s')) :
      Step valid L ⟨s', L.events ++ [⟨L.store.log.writeOffset, obj.size.toNat,
        .put (obj.recorded L.store.heap key version)⟩]⟩
  | putMissing {L : Life} {code : ErrorCode} {s' : NvsStore} (junk : LeHdr) (key : Key)
      (version : UInt64) (hcode : code ≠ .noError)
      (h : L.store.put junk key version = .ok (code, s')) : Step valid L { L with store := s' }
  | putAll {L : Life} {n : Nat} {s' : NvsStore} (junk : Nat → LeHdr)
      (h : L.store.putAll junk = .ok (n, s')) :
      Step valid L ⟨s', L.events ++ [⟨L.store.log.writeOffset,
        NvsStore.totCnt (L.store.objectMap.entries.map Prod.snd),
        .putAll (L.store.objectMap.entries.map
          (fun p => p.2.recorded L.store.heap p.1 (p.2.version + 1)))⟩]⟩
  | get {L : Life} {code : ErrorCode} {s' : NvsStore} (wentry : WalkEntry) (fuel : Nat) (key : Key)
      (version : UInt64) (dst : Nat)
      (h : L.store.get wentry fuel key version dst = .ok (code, s')) :
      Step valid L { L with store := s' }
  | getWithMalloc {L : Life} {code : ErrorCode} {addr : Option Nat} {s' : NvsStore}
      (wentry : WalkEntry) (fuel : Nat) (key : Key) (version : UInt64) (tmpPtr : Nat)
      (hkey : valid key)
      (h : L.store.getWithMalloc wentry fuel key version tmpPtr = .ok (code, addr, s')) :
      Step valid L { L with store := s' }
  | restart {L : Life} {l : Log} {f : File} (heap : Mem Byte)
      (h : Log.ctor (some L.store.file) 0 = .ok (l, f)) :
      Step valid L { L with store := NvsStore.ctor l f heap }

/-- A store on a new log. -/
def start (l : Log) (f : File) (heap : Mem Byte) : Life := ⟨NvsStore.ctor l f heap, []⟩

end Life

/-- Every object is filed under its own name, and the application chose the name. -/
def NvsStore.Named (valid : Key → Prop) (s : NvsStore) : Prop :=
  ∀ p ∈ s.objectMap.entries, p.2.name = p.1 ∧ valid p.1

/-- The invariant of a life. -/
structure Life.Inv (valid : Key → Prop) (L : Life) (items : List Item) : Prop where
  rep : Rep L.store.file (encode (items.map Item.entry))
  synced : L.store.log.Synced L.store.file (encode (items.map Item.entry))
  events : L.events = eventsFrom 32 items
  named : L.store.Named valid
  valid_name : ∀ it ∈ items, ∀ r ∈ it.recs, valid r.name

section
variable {valid : Key → Prop} {L : Life} {items : List Item}

/-- What is recorded in an item is recorded by an event. -/
theorem Life.Inv.mem_events (hi : L.Inv valid items) {it : Item} (hit : it ∈ items) {r : Rec}
    (hr : r ∈ it.recs) : ∃ e ∈ L.events, r ∈ e.what.recs := by
  have hwhat : it.what ∈ L.events.map Event.what := by
    rw [hi.events, map_what_eventsFrom]
    exact List.mem_map_of_mem hit
  obtain ⟨e, he, hew⟩ := List.mem_map.mp hwhat
  exact ⟨e, he, by rw [hew, it.recs_what]; exact hr⟩

/-- What is recorded by an event has a name the application chose. -/
theorem Life.Inv.valid_event (hi : L.Inv valid items) {e : Event} (he : e ∈ L.events) {r : Rec}
    (hr : r ∈ e.what.recs) : valid r.name := by
  have hwhat := List.mem_map_of_mem (f := Event.what) he
  rw [hi.events, map_what_eventsFrom] at hwhat
  obtain ⟨it, hit, hew⟩ := List.mem_map.mp hwhat
  rw [← hew, it.recs_what] at hr
  exact hi.valid_name it hit r hr

/-- The search finds what answers the query in the log. -/
theorem Life.Inv.lookup_eq (hi : L.Inv valid items) (key : Key) (version : UInt64) :
    lookup key version items = L.answer key version := by
  have hwhat : L.events.map Event.what = items.map Item.what := by
    rw [hi.events, map_what_eventsFrom]
  have hvisible : items.flatMap Item.visible = L.events.flatMap (fun e => e.what.visible) := by
    rw [← List.flatMap_map Event.what Recorded.visible, hwhat, List.flatMap_map]
    exact congrArg (items.flatMap ·) (funext fun it => it.visible_what.symm)
  rw [lookup, Life.answer, hvisible]

/-- It finds nothing exactly if no entry has a visible record that answers. -/
theorem Life.Inv.lookup_eq_none_iff (hi : L.Inv valid items) {key : Key} {version : UInt64} :
    lookup key version items = none ↔ ∀ e ∈ L.events, ∀ r ∈ e.what.visible,
      ¬ (keyField r.name = keyField key ∧ r.version = version) := by
  rw [hi.lookup_eq, Life.answer, List.find?_eq_none]
  simp only [List.mem_flatMap, Rec.matches, decide_eq_true_eq]
  exact ⟨fun h e he r hr => h r ⟨e, he, hr⟩, fun h r ⟨e, he, hr⟩ => h e he r hr⟩

end

/-! ## What each call keeps -/

section
variable {valid : Key → Prop} {s s' : NvsStore}

theorem NvsStore.named_insert (hn : s.Named valid) {key : Key} {o : Object} (hkey : valid key)
    (hname : o.name = key) (hmap : s'.objectMap = s.objectMap.insert key o) : s'.Named valid := by
  intro p hp
  rw [hmap, SortedMap.mem_insert] at hp
  rcases hp with rfl | ⟨hp, _⟩
  · exact ⟨hname, hkey⟩
  · exact hn p hp

theorem NvsStore.named_mapVal (hn : s.Named valid) {g : Key → Object → Object}
    (hg : ∀ k o, (g k o).name = o.name) (hmap : s'.objectMap = s.objectMap.mapVal g) :
    s'.Named valid := by
  intro p hp
  rw [hmap, SortedMap.mem_mapVal] at hp
  obtain ⟨o, ho, hpo⟩ := hp
  rw [hpo, hg]
  exact hn (p.1, o) ho

theorem NvsStore.createObj_ok (hn : s.Named valid) {key : Key} {size : UInt64} {tmpPtr addr : Nat}
    {code : ErrorCode} (hkey : valid key)
    (h : s.createObj key size tmpPtr = .ok (code, addr, s')) :
    s'.log = s.log ∧ s'.file = s.file ∧ s'.Named valid := by
  obtain ⟨_, rfl⟩ := NvsStore.createObj_eq h
  exact ⟨rfl, rfl, NvsStore.named_insert hn hkey rfl rfl⟩

theorem NvsStore.freeObj_ok (hn : s.Named valid) {objAddr : Nat} {code : ErrorCode}
    (h : s.freeObj objAddr = .ok (code, s')) :
    s'.log = s.log ∧ s'.file = s.file ∧ s'.Named valid := by
  obtain ⟨key, obj, _, _, rfl⟩ := NvsStore.freeObj_eq h
  exact ⟨rfl, rfl, fun p hp => hn p ((SortedMap.mem_erase _ _ _).mp hp).1⟩

/-- `get` changes memory only. -/
theorem NvsStore.get_ok {wentry : WalkEntry} {fuel dst : Nat} {key : Key} {version : UInt64}
    {code : ErrorCode} (h : s.get wentry fuel key version dst = .ok (code, s')) :
    ∃ heap, s' = { s with heap := heap } := by
  unfold NvsStore.get at h
  split at h
  · cases h
  · split at h
    · cases h
      exact ⟨_, rfl⟩
    · split at h
      · cases h
        exact ⟨_, rfl⟩
      · split at h
        · cases h
        · cases h
          exact ⟨_, rfl⟩

theorem NvsStore.getWithMalloc_ok (hn : s.Named valid) {wentry : WalkEntry} {fuel tmpPtr : Nat}
    {key : Key} {version : UInt64} {code : ErrorCode} {addr : Option Nat} (hkey : valid key)
    (h : s.getWithMalloc wentry fuel key version tmpPtr = .ok (code, addr, s')) :
    s'.log = s.log ∧ s'.file = s.file ∧ s'.Named valid := by
  rcases NvsStore.getWithMalloc_cases h with ⟨_, _, _, rfl⟩ | ⟨data, _, _, _, rfl⟩
  · exact ⟨rfl, rfl, hn⟩
  · refine ⟨rfl, rfl, NvsStore.named_insert hn hkey ?_ rfl⟩
    -- the object was found under the key, or is new and named by it
    unfold NvsStore.loaded
    cases hfind : s.objectMap.find? key with
    | some obj => exact (hn _ ((SortedMap.find?_eq_some _ _ _).mp hfind)).1
    | none => rfl

end

/-! ## The invariant along a run -/

namespace Life

variable {valid : Key → Prop} {L L' : Life} {items : List Item}

/-- A call that leaves the log alone keeps the invariant if it keeps the objects named. -/
theorem Inv.keep (hi : L.Inv valid items) {s' : NvsStore}
    (h : s'.log = L.store.log ∧ s'.file = L.store.file ∧ s'.Named valid) :
    Inv valid { L with store := s' } items := by
  obtain ⟨hlog, hfile, hnamed⟩ := h
  refine ⟨?_, ?_, hi.events, hnamed, hi.valid_name⟩
  · show Rep s'.file _
    rw [hfile]
    exact hi.rep
  · show s'.log.Synced s'.file _
    rw [hfile, hlog]
    exact hi.synced

/-- A call that appended an item keeps the invariant, with the event that describes the item. -/
theorem Inv.append (hi : L.Inv valid items) {s' : NvsStore} {it : Item} {e : Event}
    (hr : Rep s'.file (encode (items.map Item.entry) ++ it.entry.frame))
    (hs : s'.log.Synced s'.file (encode (items.map Item.entry) ++ it.entry.frame))
    (he : e = ⟨L.store.log.writeOffset, it.entry.len, it.what⟩) (hnamed : s'.Named valid)
    (hvalid : ∀ r ∈ it.recs, valid r.name) :
    Inv valid ⟨s', L.events ++ [e]⟩ (items ++ [it]) := by
  have himage : encode ((items ++ [it]).map Item.entry) =
      encode (items.map Item.entry) ++ it.entry.frame := by
    rw [List.map_append, encode_append, List.map_cons, encode_cons]
    exact congrArg _ (List.append_nil _)
  refine ⟨by rw [himage]; exact hr, by rw [himage]; exact hs, ?_, hnamed, ?_⟩
  · show L.events ++ [e] = _
    rw [eventsFrom_concat, hi.events, he, hi.synced.write]
  · intro it' hit' r hr
    rcases List.mem_append.mp hit' with hit' | hit'
    · exact hi.valid_name it' hit' r hr
    · rw [List.mem_singleton.mp hit'] at hr
      exact hvalid r hr

/-- What `put_all` records is every object, under its key and its next version. -/
theorem recs_batch (hn : L.store.Named valid) (junk : Nat → LeHdr) :
    (NvsStore.batch L.store.heap junk 1 (L.store.objectMap.entries.map Prod.snd)).map
      Written.toRec = L.store.objectMap.entries.map
        (fun p => p.2.recorded L.store.heap p.1 (p.2.version + 1)) := by
  rw [NvsStore.map_batch, List.map_map]
  apply List.map_congr_left
  intro p hp
  exact (Object.recorded_eq (hn p hp).1 _ _).symm

/-- The item a successful `put` appends. -/
theorem Inv.put (hi : L.Inv valid items) {s' : NvsStore} {obj : Object} {junk : LeHdr} {key : Key}
    {version : UInt64} (hobj : L.store.objectMap.find? key = some obj)
    (h : L.store.put junk key version = .ok (.noError, s')) :
    Inv valid ⟨s', L.events ++ [⟨L.store.log.writeOffset, obj.size.toNat,
      .put (obj.recorded L.store.heap key version)⟩]⟩
      (items ++ [.single ⟨junk, obj.toRec L.store.heap version⟩]) := by
  obtain ⟨obj', hobj', hr, hs, _, _, _, hmap⟩ := NvsStore.put_ok hi.rep hi.synced h
  obtain rfl := Option.some.inj (hobj.symm.trans hobj')
  obtain ⟨hname, hkey⟩ := hi.named (key, obj) ((SortedMap.find?_eq_some _ _ _).mp hobj)
  refine hi.append hr hs ?_ (NvsStore.named_mapVal hi.named ?_ hmap) ?_
  · rw [Item.len_single, Object.recorded_eq hname]
    exact congrArg (fun n => Event.mk _ n _) (obj.length_contents _).symm
  · intro k o
    dsimp only
    split <;> rfl
  · intro r hr
    rw [List.mem_singleton.mp hr]
    show valid obj.name
    rw [hname]
    exact hkey

/-- The item a successful `put_all` appends. -/
theorem Inv.putAll (hi : L.Inv valid items) {n : Nat} {s' : NvsStore} {junk : Nat → LeHdr}
    (h : L.store.putAll junk = .ok (n, s')) :
    ∃ ws fits, ws.map Written.toRec = L.store.objectMap.entries.map
        (fun p => p.2.recorded L.store.heap p.1 (p.2.version + 1)) ∧
      Inv valid ⟨s', L.events ++ [⟨L.store.log.writeOffset,
        NvsStore.totCnt (L.store.objectMap.entries.map Prod.snd),
        .putAll (L.store.objectMap.entries.map
          (fun p => p.2.recorded L.store.heap p.1 (p.2.version + 1)))⟩]⟩
        (items ++ [.multiple (junk 0) ws fits]) := by
  obtain ⟨ws, fits, hws, hr, hs, _, _, _, hmap, htot⟩ := NvsStore.putAll_ok hi.rep hi.synced h
  have hrecs := recs_batch hi.named junk
  rw [← hws] at hrecs
  refine ⟨ws, fits, hrecs, hi.append hr hs ?_ (NvsStore.named_mapVal hi.named ?_ hmap) ?_⟩
  · rw [Item.len_multiple, htot, Item.what, hrecs]
  · intro k o
    rfl
  · intro r hr
    rw [Item.recs, hrecs] at hr
    obtain ⟨p, hp, rfl⟩ := List.mem_map.mp hr
    exact (hi.named p hp).2

/-- **One step keeps the invariant.** -/
theorem Step.inv (h : Step valid L L') (hi : L.Inv valid items) : ∃ items', L'.Inv valid items' := by
  cases h with
  | createObj key size tmpPtr hkey h =>
    exact ⟨items, hi.keep (NvsStore.createObj_ok hi.named hkey h)⟩
  | appWrite addr bs => exact ⟨items, hi.keep ⟨rfl, rfl, hi.named⟩⟩
  | freeObj objAddr h => exact ⟨items, hi.keep (NvsStore.freeObj_ok hi.named h)⟩
  | put junk key version hobj h => exact ⟨_, hi.put hobj h⟩
  | putMissing junk key version hcode h =>
    rcases NvsStore.put_eq h with ⟨_, _, rfl⟩ | ⟨_, _, _, _, hcode', _⟩
    · exact ⟨items, hi⟩
    · exact absurd hcode' hcode
  | putAll junk h =>
    obtain ⟨ws, fits, _, hi'⟩ := hi.putAll h
    exact ⟨_, hi'⟩
  | get wentry fuel key version dst h =>
    obtain ⟨heap, rfl⟩ := NvsStore.get_ok h
    exact ⟨items, hi.keep ⟨rfl, rfl, hi.named⟩⟩
  | getWithMalloc wentry fuel key version tmpPtr hkey h =>
    exact ⟨items, hi.keep (NvsStore.getWithMalloc_ok hi.named hkey h)⟩
  | restart heap h =>
    rw [ctor_reopen hi.rep] at h
    obtain ⟨rfl, rfl⟩ := Prod.mk.inj (Except.ok.inj h)
    refine ⟨items, hi.rep, handleOn_synced _ _, hi.events, ?_, hi.valid_name⟩
    intro p hp
    exact absurd hp List.not_mem_nil

/-- No step makes the log file longer or shorter. -/
theorem Step.file_len (h : Step valid L L') (hi : L.Inv valid items) :
    L'.store.file.len = L.store.file.len := by
  cases h with
  | createObj key size tmpPtr hkey h =>
    obtain ⟨_, rfl⟩ := NvsStore.createObj_eq h
    rfl
  | appWrite addr bs => rfl
  | freeObj objAddr h =>
    obtain ⟨key, obj, _, _, rfl⟩ := NvsStore.freeObj_eq h
    rfl
  | put junk key version hobj h =>
    obtain ⟨_, _, _, _, hlen, _⟩ := NvsStore.put_ok hi.rep hi.synced h
    exact hlen
  | putMissing junk key version hcode h =>
    rcases NvsStore.put_eq h with ⟨_, _, rfl⟩ | ⟨_, _, _, _, hcode', _⟩
    · rfl
    · exact absurd hcode' hcode
  | putAll junk h =>
    obtain ⟨_, _, _, _, _, hlen, _⟩ := NvsStore.putAll_ok hi.rep hi.synced h
    exact hlen
  | get wentry fuel key version dst h =>
    obtain ⟨heap, rfl⟩ := NvsStore.get_ok h
    rfl
  | getWithMalloc wentry fuel key version tmpPtr hkey h =>
    exact congrArg File.len (NvsStore.getWithMalloc_ok hi.named hkey h).2.1
  | restart heap h =>
    rw [ctor_reopen hi.rep] at h
    obtain ⟨rfl, rfl⟩ := Prod.mk.inj (Except.ok.inj h)
    rfl

/-- A new log satisfies the invariant, with nothing in it. -/
theorem start_inv {size : Nat} {l : Log} {f : File} (heap : Mem Byte) (hsize : sizeofLhdr ≤ size)
    (hnew : Log.ctor none size = .ok (l, f)) : (start l f heap).Inv valid [] := by
  obtain ⟨hr, hs, _⟩ := ctor_create hsize hnew
  refine ⟨hr, hs, rfl, ?_, ?_⟩
  · intro p hp
    exact absurd hp List.not_mem_nil
  · intro it hit
    exact absurd hit List.not_mem_nil

/-- **Every run keeps the invariant.** -/
theorem Step.run_inv (h : Relation.ReflTransGen (Step valid) L L') (hi : L.Inv valid items) :
    ∃ items', L'.Inv valid items' := by
  refine Runs.invariant (P := fun L => ∃ items, L.Inv valid items) ?_ h ⟨items, hi⟩
  rintro a b hstep ⟨items, hi⟩
  exact hstep.inv hi

/-- The log file of a run is as long as the process that created it made it. -/
theorem Step.run_len {size : Nat} {l : Log} {f : File} {heap : Mem Byte} (hsize : sizeofLhdr ≤ size)
    (hnew : Log.ctor none size = .ok (l, f))
    (h : Relation.ReflTransGen (Step valid) (start l f heap) L) : L.store.file.len = size := by
  refine (Runs.invariant (P := fun L => (∃ items, L.Inv valid items) ∧ L.store.file.len = size) ?_ h
    ⟨⟨[], start_inv heap hsize hnew⟩, (ctor_create hsize hnew).2.2⟩).2
  rintro a b hstep ⟨⟨items, hi⟩, hlen⟩
  exact ⟨hstep.inv hi, (hstep.file_len hi).trans hlen⟩

end Life

/-! ## Framing agreement -/

/-- A scan that only looks at offsets and lengths goes through the events in order. -/
theorem scan_visit {σ : Type} (visit : Nat → Nat → σ → σ) (off : Nat) (items : List Item) (arg : σ) :
    scan Item.entry (fun off it a => (visit off it.entry.len a, true)) off items arg =
      ((eventsFrom off items).foldl (fun a e => visit e.off e.len a) arg,
        off + (encode (items.map Item.entry)).length) := by
  induction items generalizing off arg with
  | nil => rfl
  | cons it items ih =>
    rw [scan, if_pos rfl, ih, eventsFrom, List.foldl_cons, List.map_cons, encode_cons,
      List.length_append, Nat.add_assoc]

/-- **The writers and `Log::walk` agree on the framing.**  In every state of every run, a walk whose
    callback always asks for more calls it once per `put` and `put_all`, in order, with the offset
    that call wrote its header at and the `len` it put there, and stops exactly at `hdr->tail`. -/
theorem framing_agreement {size : Nat} {l : Log} {f : File} {heap : Mem Byte}
    (hsize : sizeofLhdr ≤ size) (hnew : Log.ctor none size = .ok (l, f)) {L : Life}
    (hrun : Relation.ReflTransGen (Life.Step (fun _ => True)) (Life.start l f heap) L)
    {σ : Type} (visit : Nat → Nat → σ → σ) (arg : σ) :
    ∃ N, ∀ fuel ≥ N,
      L.store.file.run (walk (fun off len a => pure (visit off len a, true)) fuel arg) =
        .ok (if L.events = [] then .idNotFound else .noError,
          L.events.foldl (fun a e => visit e.off e.len a) arg,
          word L.store.file.bytes tailOff) := by
  obtain ⟨items, hi⟩ := Life.Step.run_inv hrun (Life.start_inv heap hsize hnew)
  have hr := hi.rep
  have hroom := hr.room
  refine ⟨items.length + 1, fun fuel hfuel => ?_⟩
  have hcb : Behaves Item.entry (Set.Iio L.store.file.len) L.store.file.bytes
      (fun off len a => pure (visit off len a, true))
      (fun off it a => (visit off it.entry.len a, true)) 32 items :=
    fun pre it post a _ _ => Prog.yields_pure _ _ _
  have hwalk := walk_yields arg hr (Nat.lt_of_succ_le hfuel)
    (fun a _ h => show a < L.store.file.len by omega) hcb
  have hcode : walkCode (items.map Item.entry) =
      if L.events = [] then .idNotFound else .noError := by
    rw [hi.events, walkCode]
    cases items <;> rfl
  rw [hr.tail_eq, hi.events, ← scan_visit visit 32 items arg, ← hi.events, ← hcode]
  exact hwalk.run_eq (fun a ha => ha)

/-! ### Two objects, put and snapshotted -/

section
variable {valid : Key → Prop} {L : Life} {items : List Item}

/-- A `put` that fits succeeds, and leaves the log one record longer. -/
theorem Life.Inv.put_fits (hi : L.Inv valid items) (junk : LeHdr) {key : Key} {obj : Object}
    (version : UInt64) (hobj : L.store.objectMap.find? key = some obj)
    (hfit : L.store.log.writeOffset + (sizeofLehdr + obj.size.toNat) + 8 ≤ L.store.file.len - 1) :
    ∃ s', L.store.put junk key version = .ok (.noError, s') ∧
      s'.objectMap = L.store.objectMap.modify key (fun obj => obj.setVersion version) ∧
      s'.heap = L.store.heap ∧ s'.file.len = L.store.file.len ∧
      s'.log.writeOffset = L.store.log.writeOffset + (sizeofLehdr + obj.size.toNat) + 8 ∧
      Life.Inv valid ⟨s', L.events ++ [⟨L.store.log.writeOffset, obj.size.toNat,
        .put (obj.recorded L.store.heap key version)⟩]⟩
        (items ++ [.single ⟨junk, obj.toRec L.store.heap version⟩]) := by
  have hwrite := hi.synced.write
  obtain ⟨s', hput⟩ := NvsStore.put_of_fits hi.rep hi.synced junk version hobj (by omega)
  obtain ⟨obj', hobj', _, hs, hlen, hheap, _, hmap⟩ := NvsStore.put_ok hi.rep hi.synced hput
  obtain rfl := Option.some.inj (hobj.symm.trans hobj')
  refine ⟨s', hput, hmap, hheap, hlen, ?_, hi.put hobj hput⟩
  have hdata : ((obj.toRec L.store.heap version).data).length = obj.size.toNat :=
    obj.length_contents L.store.heap
  rw [hs.write, List.length_append, Entry.length_frame, Item.len_single, hdata, hwrite, wordLength]
  omega

/-- So does a `put_all` that fits, which leaves the log one batch longer. -/
theorem Life.Inv.putAll_fits (hi : L.Inv valid items) (junk : Nat → LeHdr) {objs : List Object}
    (hobjs : L.store.objectMap.entries.map Prod.snd = objs) (hcount : 1 + 2 * objs.length < 2 ^ 31)
    (hfit : L.store.log.writeOffset + (sizeofLehdr + NvsStore.batchLen objs) + 8 ≤
      L.store.file.len - 1) :
    ∃ n s', L.store.putAll junk = .ok (n, s') ∧ s'.file.len = L.store.file.len ∧
      s'.log.writeOffset =
        L.store.log.writeOffset + (sizeofLehdr + NvsStore.batchLen objs) + 8 := by
  have hwrite := hi.synced.write
  obtain ⟨n, s', hput⟩ := NvsStore.putAll_of_fits hi.rep hi.synced junk hobjs hcount (by omega)
  obtain ⟨ws, fits, rfl, _, hs, hlen, _⟩ := NvsStore.putAll_ok hi.rep hi.synced hput
  refine ⟨n, s', hput, hlen, ?_⟩
  rw [hs.write, List.length_append, Entry.length_frame, Item.len_multiple, NvsStore.length_batch,
    hobjs, hwrite, wordLength]
  omega

end

/-- The objects "a" and "b" of the runs below, of four bytes each. -/
def objA : Object := Object.ctor [97] 4 0 4096

@[inherit_doc objA]
def objB : Object := Object.ctor [98] 4 0 8192

/-- A run on a new log: two objects are created and put, and then a snapshot is taken of both. -/
theorem two_objects {valid : Key → Prop} (ha : valid [97]) (hb : valid [98]) :
    ∃ l f s₁ s₂ s₃ s₄ n s₅ L, Log.ctor none logSize = .ok (l, f) ∧
      (NvsStore.ctor l f (fun _ => 9)).createObj [97] 4 4096 = .ok (.noError, 4096, s₁) ∧
      s₁.createObj [98] 4 8192 = .ok (.noError, 8192, s₂) ∧
      s₂.put blankHdr [97] 1 = .ok (.noError, s₃) ∧ s₃.put blankHdr [98] 1 = .ok (.noError, s₄) ∧
      s₄.putAll (fun _ => blankHdr) = .ok (n, s₅) ∧
      Relation.ReflTransGen (Life.Step valid) (Life.start l f (fun _ => 9)) L ∧ L.store = s₅ ∧
      L.events = [⟨32, 4, .put (objA.recorded (fun _ => 9) [97] 1)⟩,
        ⟨180, 4, .put (objB.recorded (fun _ => 9) [98] 1)⟩,
        ⟨328, 280, .putAll [objA.recorded (fun _ => 9) [97] 2, objB.recorded (fun _ => 9) [98] 2]⟩] := by
  obtain ⟨l, f, hnew, _, hs, hlen⟩ := ctor_ok logSize (by decide)
  obtain ⟨s₁, s₂, hcreate₁, hcreate₂, hentries, hlog, hfile, hheap⟩ : ∃ s₁ s₂,
      (NvsStore.ctor l f (fun _ => 9)).createObj [97] 4 4096 = .ok (.noError, 4096, s₁) ∧
      s₁.createObj [98] 4 8192 = .ok (.noError, 8192, s₂) ∧
      s₂.objectMap.entries = [([97], objA), ([98], objB)] ∧ s₂.log = l ∧ s₂.file = f ∧
      s₂.heap = (fun _ => 9) :=
    ⟨_, _, rfl, rfl, rfl, rfl, rfl, rfl⟩
  have hwrite : s₂.log.writeOffset = 32 := by rw [hlog, hs.write]; rfl
  have hstart : Relation.ReflTransGen (Life.Step valid) (Life.start l f (fun _ => 9)) ⟨s₂, []⟩ :=
    .tail (.single (.createObj [97] 4 4096 ha hcreate₁)) (.createObj [98] 4 8192 hb hcreate₂)
  obtain ⟨items, hi⟩ := Life.Step.run_inv hstart (Life.start_inv (fun _ => 9) (by decide) hnew)
  have hfindA : s₂.objectMap.find? [97] = some objA := by
    rw [SortedMap.find?_eq_some, hentries]
    exact List.mem_cons_self
  have hsizeA : objA.size.toNat = 4 := rfl
  have hsizeB : objB.size.toNat = 4 := rfl
  obtain ⟨s₃, hput₃, hmap₃, hheap₃, hlen₃, hwrite₃, hi₃⟩ := hi.put_fits blankHdr 1 hfindA
    (by rw [hwrite, hfile, hlen, hsizeA]; decide)
  have hentries₃ : s₃.objectMap.entries = [([97], objA.setVersion 1), ([98], objB)] := by
    rw [hmap₃]
    exact SortedMap.modify_of_split
      (show s₂.objectMap.entries = [] ++ ([97], objA) :: [([98], objB)] from hentries) _
  have hfindB : s₃.objectMap.find? [98] = some objB := by
    rw [SortedMap.find?_eq_some, hentries₃]
    exact List.mem_cons_of_mem _ List.mem_cons_self
  obtain ⟨s₄, hput₄, hmap₄, hheap₄, hlen₄, hwrite₄, hi₄⟩ := hi₃.put_fits blankHdr 1 hfindB
    (by rw [hwrite₃, hwrite, hlen₃, hfile, hlen, hsizeA, hsizeB]; decide)
  have hentries₄ : s₄.objectMap.entries = [([97], objA.setVersion 1), ([98], objB.setVersion 1)] := by
    rw [hmap₄]
    exact SortedMap.modify_of_split
      (show s₃.objectMap.entries = [([97], objA.setVersion 1)] ++ ([98], objB) :: [] from hentries₃) _
  have hobjs : s₄.objectMap.entries.map Prod.snd = [objA.setVersion 1, objB.setVersion 1] := by
    rw [hentries₄]
    rfl
  obtain ⟨n, s₅, hput₅, _⟩ := hi₄.putAll_fits (fun _ => blankHdr) hobjs (by decide)
    (by rw [hwrite₄, hwrite₃, hwrite, hlen₄, hlen₃, hfile, hlen, hsizeA, hsizeB]; decide)
  have hrun := ((hstart.tail (.put blankHdr [97] 1 hfindA hput₃)).tail
    (.put blankHdr [98] 1 hfindB hput₄)).tail (.putAll (fun _ => blankHdr) hput₅)
  refine ⟨l, f, s₁, s₂, s₃, s₄, n, s₅, _, hnew, hcreate₁, hcreate₂, hput₃, hput₄, hput₅, hrun, rfl, ?_⟩
  show [] ++ [_] ++ [_] ++ [_] = _
  rw [hwrite₄, hwrite₃, hwrite, hheap₄, hheap₃, hheap, hentries₄]
  rfl

/-- A walk through that log meets the two entries of `put` and the batch, at their offsets. -/
theorem framing_agreement_two_objects : ∃ l f s₁ s₂ s₃ s₄ n s₅, Log.ctor none logSize = .ok (l, f) ∧
    (NvsStore.ctor l f (fun _ => 9)).createObj [97] 4 4096 = .ok (.noError, 4096, s₁) ∧
    s₁.createObj [98] 4 8192 = .ok (.noError, 8192, s₂) ∧
    s₂.put blankHdr [97] 1 = .ok (.noError, s₃) ∧ s₃.put blankHdr [98] 1 = .ok (.noError, s₄) ∧
    s₄.putAll (fun _ => blankHdr) = .ok (n, s₅) ∧
    ∃ N, ∀ fuel ≥ N, s₅.file.run (walk (fun off len seen =>
      pure (seen ++ [(off, len)], true)) fuel []) =
        .ok (.noError, [(32, 4), (180, 4), (328, 280)], word s₅.file.bytes tailOff) := by
  obtain ⟨l, f, s₁, s₂, s₃, s₄, n, s₅, L, hnew, hcreate₁, hcreate₂, hput₃, hput₄, hput₅, hrun, rfl,
    hevents⟩ := @two_objects (fun _ => True) trivial trivial
  have h := framing_agreement (by decide) hnew hrun
    (fun off len (seen : List (Nat × Nat)) => seen ++ [(off, len)]) []
  rw [hevents] at h
  exact ⟨l, f, s₁, s₂, s₃, s₄, n, L.store, hnew, hcreate₁, hcreate₂, hput₃, hput₄, hput₅, h⟩

end NvStream
