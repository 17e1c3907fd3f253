/-
  `TimingStore` (`src/kvstore/timing_store.h`), the wrapper that is compiled in by default.

  Each of its methods reads the clock, calls the store behind it, and keeps statistics.  Two of them do
  more: `create_obj` and `get_with_malloc` cut the white space off the end of the key, as Fortran
  callers pad their strings, while `get` and `put` hand the key on as it is.

      create_obj("a ")        files the object under "a"
      put("a ", v)            looks for "a "                ELEM_NOT_FOUND
      get("a ", v)            searches the log for "a "
      get_with_malloc("a ")   searches the log for "a"

  Of the statistics the store behind sees nothing: `map_call` says that the wrapper IS an `NVSStore`
  that is asked `Call.forwarded`, so the invariants of `NvStream.NvsStore.Runs` hold of it, and every
  object is filed under a trimmed key.  `timing_transparent_iff` is what follows for a key that was
  just created: the other methods find it exactly if it was not padded.
-/
import NvStream.NvsStore.Calls
import NvStream.NvsStore.KeyIdentity
import NvStream.FileStore.Basic

namespace NvStream

open FlatMem LittleEndian LoadProg PersistTrace

/-! ## The wrapper -/

/-- One process with a `TimingStore` on an `NVSStore`.  Times are readings of the cycle counter. -/
structure TimingStore where
  store : NvsStore
  getTotal : UInt64
  getNiterations : UInt64
  putTotal : UInt64
  putNiterations : UInt64
  putallTotal : UInt64
  putallNiterations : UInt64
  appStart : UInt64
  snapTime : UInt64
  vmap : SortedMap Key UInt64
  nmap : SortedMap Key UInt64
  plist : List UInt64
  tlist : List UInt64
  slist : List UInt64
  totalSize : UInt64

/-- What `read_tsc` returned before and after the call of the store behind. -/
structure Clock where
  start : UInt64
  stop : UInt64

namespace TimingStore

/-- The constructor. -/
def ctor (st : NvsStore) (tsc : UInt64) : TimingStore where
  store := st
  getTotal := 0
  getNiterations := 0
  putTotal := 0
  putNiterations := 0
  putallTotal := 0
  putallNiterations := 0
  appStart := tsc
  snapTime := 0
  vmap := .empty
  nmap := .empty
  plist := []
  tlist := []
  slist := []
  totalSize := 0

/-- `TimingStore::get` -/
def get (t : TimingStore) (clock : Clock) (wentry : WalkEntry) (fuel : Nat) (key : Key)
    (version : UInt64) (objAddr : Nat) : Except Stop (ErrorCode × TimingStore) :=
  (t.store.get wentry fuel key version objAddr).map (fun r => (r.1, { t with
    store := r.2
    getTotal := t.getTotal + (clock.stop - clock.start)
    getNiterations := t.getNiterations + 1 }))

/-- The time of one read, entered under its key. -/
def addTime (t : TimingStore) (key : Key) (time : UInt64) : TimingStore :=
  match t.vmap.find? key with
  | some total => { t with
      vmap := t.vmap.insert key (total + time)
      nmap := t.nmap.insert key ((t.nmap.find? key).getD 0 + 1) }
  | none => { t with
      vmap := t.vmap.insert key time
      nmap := t.nmap.insert key 1 }

/-- `TimingStore::get_with_malloc` -/
def getWithMalloc (t : TimingStore) (clock : Clock) (wentry : WalkEntry) (fuel : Nat) (key : Key)
    (version : UInt64) (tmpPtr : Nat) : Except Stop (ErrorCode × Option Nat × TimingStore) :=
  let key := trimRight key
  (t.store.getWithMalloc wentry fuel key version tmpPtr).map (fun r => (r.1, r.2.1,
    { t with store := r.2.2 }.addTime key (clock.stop - clock.start)))

/-- `TimingStore::create_obj` -/
def createObj (t : TimingStore) (key : Key) (size : UInt64) (tmpPtr : Nat) :
    Except Stop (ErrorCode × Nat × TimingStore) :=
  let key := trimRight key
  (t.store.createObj key size tmpPtr).map (fun r => (r.1, r.2.1, { t with
    store := r.2.2
    totalSize := t.totalSize + size }))

/-- `TimingStore::free_obj` -/
def freeObj (t : TimingStore) (objAddr : Nat) : Except Stop (ErrorCode × TimingStore) :=
  (t.store.freeObj objAddr).map (fun r => (r.1, { t with store := r.2 }))

/-- `TimingStore::put` -/
def put (t : TimingStore) (clock : Clock) (lEntry : LeHdr) (key : Key) (version : UInt64) :
    Except Stop (ErrorCode × TimingStore) :=
  (t.store.put lEntry key version).map (fun r => (r.1, { t with
    store := r.2
    putTotal := t.putTotal + (clock.stop - clock.start)
    putNiterations := t.putNiterations + 1 }))

/-- `TimingStore::put_all` -/
def putAll (t : TimingStore) (clock : Clock) (lEntry : Nat → LeHdr) :
    Except Stop (Nat × TimingStore) :=
  (t.store.putAll lEntry).map (fun r =>
    let temp := clock.stop - clock.start
    -- the first snapshot is timed from the start of the application
    let iterTime := if t.snapTime = 0 then clock.stop - t.appStart else clock.stop - t.snapTime
    (r.1, { t with
      store := r.2
      snapTime := clock.stop
      plist := t.plist ++ [temp]
      slist := t.slist ++ [UInt64.ofNat r.1]
      tlist := t.tlist ++ [iterTime]
      putallTotal := t.putallTotal + temp
      putallNiterations := t.putallNiterations + 1 }))

/-- Perform a call. -/
def call (t : TimingStore) (clock : Clock) : Call → Except Stop (Reply × TimingStore)
  | .createObj key size tmpPtr =>
    (t.createObj key size tmpPtr).map (fun r => (.object r.1 (some r.2.1), r.2.2))
  | .freeObj objAddr => (t.freeObj objAddr).map (fun r => (.code r.1, r.2))
  | .put lEntry key version => (t.put clock lEntry key version).map (fun r => (.code r.1, r.2))
  | .putAll lEntry => (t.putAll clock lEntry).map (fun r => (.bytes r.1, r.2))
  | .get wentry fuel key version objAddr =>
    (t.get clock wentry fuel key version objAddr).map (fun r => (.code r.1, r.2))
  | .getWithMalloc wentry fuel key version tmpPtr =>
    (t.getWithMalloc clock wentry fuel key version tmpPtr).map
      (fun r => (.object r.1 r.2.1, r.2.2))
  | .appWrite addr bs => .ok (.done, { t with
      store := { t.store with heap := FlatMem.store t.store.heap addr bs } })

end TimingStore

/-- The call that reaches the store behind. -/
def Call.forwarded : Call → Call
  | .createObj key size tmpPtr => .createObj (trimRight key) size tmpPtr
  | .getWithMalloc wentry fuel key version tmpPtr =>
    .getWithMalloc wentry fuel (trimRight key) version tmpPtr
  | c => c

/-! ## It is the store behind -/

theorem Except.map_map {ε α β γ : Type} (f : α → β) (g : β → γ) (x : Except ε α) :
    (x.map f).map g = x.map (fun a => g (f a)) := by
  cases x <;> rfl

namespace TimingStore

theorem store_addTime (t : TimingStore) (key : Key) (time : UInt64) :
    (t.addTime key time).store = t.store := by
  unfold addTime
  split <;> rfl

section
variable {t : TimingStore} {s' : NvsStore} {key : Key} {version : UInt64} {code : ErrorCode}

theorem get_of_store {wentry : WalkEntry} {fuel objAddr : Nat}
    (h : t.store.get wentry fuel key version objAddr = .ok (code, s')) (clock : Clock) :
    ∃ t', t.get clock wentry fuel key version objAddr = .ok (code, t') ∧ t'.store = s' :=
  ⟨_, congrArg (Except.map _) h, rfl⟩

theorem getWithMalloc_of_store {wentry : WalkEntry} {fuel tmpPtr : Nat} {addr : Option Nat}
    (h : t.store.getWithMalloc wentry fuel (trimRight key) version tmpPtr = .ok (code, addr, s'))
    (clock : Clock) :
    ∃ t', t.getWithMalloc clock wentry fuel key version tmpPtr = .ok (code, addr, t') ∧
      t'.store = s' :=
  ⟨_, congrArg (Except.map _) h, store_addTime _ _ _⟩

theorem put_of_store {lEntry : LeHdr} (h : t.store.put lEntry key version = .ok (code, s'))
    (clock : Clock) :
    ∃ t', t.put clock lEntry key version = .ok (code, t') ∧ t'.store = s' :=
  ⟨_, congrArg (Except.map _) h, rfl⟩

end

/-- **A call of the wrapper is the forwarded call of the store behind**: the same reply, the same
    store afterwards. -/
theorem map_call (t : TimingStore) (clock : Clock) (c : Call) :
    (t.call clock c).map (fun r => (r.1, r.2.store)) = t.store.call c.forwarded := by
  cases c with
  | createObj key size tmpPtr => simp only [call, createObj, Except.map_map]; rfl
  | freeObj objAddr => simp only [call, freeObj, Except.map_map]; rfl
  | put lEntry key version => simp only [call, put, Except.map_map]; rfl
  | putAll lEntry => simp only [call, putAll, Except.map_map]; rfl
  | get wentry fuel key version objAddr => simp only [call, get, Except.map_map]; rfl
  | getWithMalloc wentry fuel key version tmpPtr =>
    simp only [call, getWithMalloc, Except.map_map, store_addTime]
    rfl
  | appWrite addr bs => rfl

end TimingStore

/-- The keys of the two maps, which `stats` walks through side by side. -/
def TimingStore.SameKeys (t : TimingStore) : Prop :=
  t.vmap.map (fun _ => ()) = t.nmap.map (fun _ => ())

theorem TimingStore.SameKeys.addTime {t : TimingStore} (ht : t.SameKeys) (key : Key)
    (time : UInt64) : (t.addTime key time).SameKeys := by
  unfold SameKeys at ht ⊢
  unfold TimingStore.addTime
  split
  · rw [SortedMap.map_insert, SortedMap.map_insert, ht]
  · rw [SortedMap.map_insert, SortedMap.map_insert, ht]

theorem TimingStore.SameKeys.call {t t' : TimingStore} (ht : t.SameKeys) {clock : Clock} {c : Call}
    {r : Reply} (h : t.call clock c = .ok (r, t')) : t'.SameKeys := by
  cases c with
  | getWithMalloc wentry fuel key version tmpPtr =>
    obtain ⟨_, ha, rfl⟩ := Except.map_eq_ok_snd h
    obtain ⟨b, _, rfl⟩ := Except.map_eq_ok ha
    exact addTime (t := { t with store := b.2.2 }) ht _ _
  | appWrite addr bs =>
    obtain ⟨_, rfl⟩ := Prod.mk.inj (Except.ok.inj h)
    exact ht
  | createObj | freeObj | put | putAll | get =>
    -- none of these enters a time
    obtain ⟨_, ha, rfl⟩ := Except.map_eq_ok_snd h
    obtain ⟨_, _, rfl⟩ := Except.map_eq_ok ha
    exact ht

/-! ## Runs -/

/-- A wrapped store, and what was put into its log so far. -/
structure TimedLife where
  timing : TimingStore
  events : List Event

namespace TimedLife

/-- A wrapped store on a new log. -/
def start (l : Log) (f : File) (heap : Mem Byte) (tsc : UInt64) : TimedLife :=
  ⟨TimingStore.ctor (NvsStore.ctor l f heap) tsc, []⟩

/-- The life of the store behind. -/
def life (T : TimedLife) : Life := ⟨T.timing.store, T.events⟩

/-- A call of the wrapper that returns, or a restart of the process. -/
inductive Run : TimedLife → TimedLife → Prop
  | call {T : TimedLife} {r : Reply} {t' : TimingStore} (c : Call) (clock : Clock)
      (h : T.timing.call clock c = .ok (r, t')) :
      Run T ⟨t', T.events ++ c.forwarded.events T.timing.store⟩
  | restart {T : TimedLife} {l : Log} {f : File} (heap : Mem Byte) (tsc : UInt64)
      (h : Log.ctor (some T.timing.store.file) 0 = .ok (l, f)) :
      Run T ⟨TimingStore.ctor (NvsStore.ctor l f heap) tsc, T.events⟩

/-- The calls that reach the store behind. -/
def Forwarded (_ : Life) (c : Call) : Prop := ∃ c' : Call, c = c'.forwarded

/-- **A run of the wrapper is a run of the store behind**, on forwarded calls. -/
theorem Run.life {T T' : TimedLife} (h : Run T T') : Life.Run Forwarded T.life T'.life := by
  cases h with
  | call c clock h =>
    have hstore := T.timing.map_call clock c
    rw [h] at hstore
    exact .call c.forwarded ⟨c, rfl⟩ hstore.symm
  | restart heap tsc h => exact .restart heap h

/-- A forwarded call files objects under trimmed keys. -/
theorem trimmed_of_forwarded {c : Call} {k : Key} (h : k ∈ c.forwarded.keys) : trimRight k = k := by
  cases c with
  | createObj key size tmpPtr =>
    rw [List.mem_singleton.mp h]
    exact FileStore.trimRight_trimRight key
  | getWithMalloc wentry fuel key version tmpPtr =>
    rw [List.mem_singleton.mp h]
    exact FileStore.trimRight_trimRight key
  | freeObj | put | putAll | get | appWrite => exact absurd h List.not_mem_nil

/-- The invariant of the store behind: its keys are trimmed. -/
theorem Run.inv {size : Nat} {l : Log} {f : File} {heap : Mem Byte} {tsc : UInt64}
    (hsize : sizeofLhdr ≤ size) (hnew : Log.ctor none size = .ok (l, f)) {T : TimedLife}
    (hrun : Relation.ReflTransGen Run (start l f heap tsc) T) :
    ∃ items, T.life.Inv (fun k => trimRight k = k) items := by
  have hlife : Relation.ReflTransGen (Life.Run Forwarded) (Life.start l f heap) T.life :=
    Relation.ReflTransGen.lift TimedLife.life (fun _ _ h => Run.life h) _ _ hrun
  refine Life.Run.inv ?_ hsize hnew hlife
  rintro L _ ⟨c', rfl⟩ k hk
  exact trimmed_of_forwarded hk

end TimedLife

/-! ## What comes back -/

/-- A store whose log answers a query with one record, and which has an object of the key at `addr`. -/
structure NvsStore.Holds (s : NvsStore) (key : Key) (version : UInt64) (addr : Nat)
    (data : List Byte) : Prop where
  found : ∃ items r, Rep s.file (encode (items.map Item.entry)) ∧ items ≠ [] ∧
    LooksInside s.file items ∧ lookup key version items = some r ∧ r.data = data
  live : ∃ obj, s.objectMap.find? key = some obj ∧ obj.ptr = addr

/-- **A `put` of a pair that was not in the log.** -/
theorem Life.Inv.holds_put {valid : Key → Prop} {L : Life} {items : List Item}
    (hi : L.Inv valid items) {key : Key} {obj : Object}
    (hobj : L.store.objectMap.find? key = some obj) {junk : LeHdr} {version : UInt64} {s' : NvsStore}
    (hput : L.store.put junk key version = .ok (.noError, s'))
    (hfresh : ∀ e ∈ L.events, ∀ r ∈ e.what.recs,
      ¬ (keyField r.name = keyField key ∧ r.version = version)) :
    s'.Holds key version obj.ptr (obj.contents L.store.heap) := by
  have hi' := hi.put hobj hput
  obtain rfl : obj.name = key := (hi.named _ ((SortedMap.find?_eq_some _ _ _).mp hobj)).1
  constructor
  · refine ⟨_, _, hi'.rep, List.append_ne_nil_of_right_ne_nil _ (List.cons_ne_nil _ _),
      looksInside_of_rep hi'.rep (fun it hit hempty => ?_),
      lookup_fresh (w := ⟨junk, obj.toRec L.store.heap version⟩) (fun it hit r hr => ?_), rfl⟩
    · rw [List.getLast?_concat] at hit
      obtain rfl := Option.some.inj hit
      cases hempty
    · obtain ⟨e, he, hre⟩ := hi.mem_events hit hr
      exact hfresh e he r hre
  · obtain ⟨_, _, _, _, _, _, _, hmap⟩ := NvsStore.put_ok hi.rep hi.synced hput
    refine ⟨obj.setVersion version, ?_, rfl⟩
    rw [hmap, SortedMap.find?_modify, if_pos rfl, hobj]
    rfl

namespace TimingStore

/-- **Both getters bring the bytes back**, one after the other: `get` into any buffer,
    `get_with_malloc` into the object's. -/
def ReadsBack (t : TimingStore) (key : Key) (version : UInt64) (addr : Nat) (data : List Byte) :
    Prop :=
  ∃ N, ∀ fuel ≥ N, ∀ (clock clock' : Clock) (wg wm : WalkEntry) (dst tmpPtr : Nat), ∃ t' t'',
    t.get clock wg fuel key version dst = .ok (.noError, t') ∧
    load t'.store.heap dst data.length = data ∧
    t'.getWithMalloc clock' wm fuel key version tmpPtr = .ok (.noError, some addr, t'') ∧
    load t''.store.heap addr data.length = data

theorem readsBack_of_holds {t : TimingStore} {key : Key} {version : UInt64} {addr : Nat}
    {data : List Byte} (h : t.store.Holds key version addr data) (hkey : trimRight key = key) :
    t.ReadsBack key version addr data := by
  obtain ⟨⟨items, r, hr, hne, hlook, hlk, rfl⟩, obj, hobj, rfl⟩ := h
  refine ⟨lookFuel items, fun fuel hfuel clock clock' wg wm dst tmpPtr => ?_⟩
  have hget := NvsStore.get_of_walk hr (walk_inside hr hlook wg hfuel key version) dst
  rw [hlk] at hget
  obtain ⟨t', hget', hstore'⟩ := get_of_store hget clock
  have hr' : Rep t'.store.file (encode (items.map Item.entry)) := by
    rw [hstore']
    exact hr
  have hlook' : LooksInside t'.store.file items := by
    rw [hstore']
    exact hlook
  have hmalloc := NvsStore.getWithMalloc_of_walk hr' hne
    (walk_inside hr' hlook' wm hfuel key version) tmpPtr
  have htarget : t'.store.targetOf key tmpPtr = obj.ptr := by
    rw [hstore']
    show NvsStore.targetOf { t.store with heap := _ } key tmpPtr = obj.ptr
    unfold NvsStore.targetOf
    rw [hobj]
  rw [hlk, htarget] at hmalloc
  obtain ⟨t'', hmalloc', hstore''⟩ := getWithMalloc_of_store (by rw [hkey]; exact hmalloc) clock'
  refine ⟨t', t'', hget', ?_, hmalloc', ?_⟩
  · rw [hstore']
    exact load_store_self _ _ _
  · rw [hstore'']
    exact load_store_self _ _ _

end TimingStore

/-! ## The main result -/

/-- The application has stored into its memory. -/
def TimingStore.withHeap (t : TimingStore) (heap : Mem Byte) : TimingStore :=
  { t with store := { t.store with heap := heap } }

/-- **When the wrapper is transparent.**  In every state of every run of a `TimingStore`, for every key
    that was just created, every content of its buffer and every version, provided that the pair is
    not recorded yet and the log has room for it: the `put` succeeds and both getters then bring back
    the object's bytes, if and only if the key does not end in white space. -/
theorem timing_transparent_iff {size : Nat} {l : Log} {f : File} {heap : Mem Byte} {tsc : UInt64}
    (hsize : sizeofLhdr ≤ size) (hnew : Log.ctor none size = .ok (l, f)) {T : TimedLife}
    (hrun : Relation.ReflTransGen TimedLife.Run (TimedLife.start l f heap tsc) T) {key : Key}
    {objSize : UInt64} {tmpPtr addr : Nat} {code : ErrorCode} {t₁ : TimingStore}
    (hcreate : T.timing.createObj key objSize tmpPtr = .ok (code, addr, t₁)) (heap' : Mem Byte)
    {version : UInt64}
    (hfresh : ∀ e ∈ T.events, ∀ r ∈ e.what.recs,
      ¬ (keyField r.name = keyField key ∧ r.version = version))
    (hspace : word T.timing.store.file.bytes tailOff + (sizeofLehdr + objSize.toNat) + 8 ≤
      T.timing.store.file.len - 1) (clock : Clock) (junk : LeHdr) :
    (∃ t₂, (t₁.withHeap heap').put clock junk key version = .ok (.noError, t₂) ∧
      t₂.ReadsBack key version addr (load heap' addr objSize.toNat)) ↔ trimRight key = key := by
  obtain ⟨items, hi⟩ := TimedLife.Run.inv hsize hnew hrun
  obtain ⟨⟨code', addr', s₁⟩, hstore, heq⟩ := Except.map_eq_ok hcreate
  obtain ⟨rfl, rfl, rfl⟩ : code' = code ∧ addr' = addr ∧
      { T.timing with store := s₁, totalSize := T.timing.totalSize + objSize } = t₁ := by
    simpa only [Prod.mk.injEq] using heq
  obtain rfl := NvsStore.createObj_addr hstore
  obtain ⟨_, hs₁⟩ := NvsStore.createObj_eq hstore
  obtain ⟨hlog, hfile, hnamed⟩ := NvsStore.createObj_ok hi.named
    (FileStore.trimRight_trimRight key) hstore
  -- the store behind, before the `put`
  have hi₁ : Life.Inv (fun k => trimRight k = k) ⟨{ s₁ with heap := heap' }, T.events⟩ items :=
    hi.keep ⟨hlog, hfile, hnamed⟩
  constructor
  · rintro ⟨t₂, hput, _⟩
    obtain ⟨⟨code, s₂⟩, hput', heq⟩ := Except.map_eq_ok hput
    obtain rfl : code = .noError := congrArg Prod.fst heq
    rcases NvsStore.put_eq hput' with ⟨_, hcode, _⟩ | ⟨obj, _, _, hobj, _⟩
    · cases hcode
    · exact (hi₁.named _ ((SortedMap.find?_eq_some _ _ _).mp hobj)).2
  · intro hkey
    have hobj : s₁.objectMap.find? key = some (Object.ctor key objSize 0 addr') := by
      rw [hs₁, hkey, SortedMap.find?_insert, if_pos rfl]
    have htail : word T.timing.store.file.bytes tailOff =
        32 + (encode (items.map Item.entry)).length := hi.rep.tail_eq
    obtain ⟨s₂, hput⟩ := NvsStore.put_of_fits hi₁.rep hi₁.synced junk version hobj (by
      rw [← htail]
      show _ ≤ s₁.file.len - 1
      rw [hfile]
      exact hspace)
    obtain ⟨t₂, hput', hstore₂⟩ : ∃ t₂, (TimingStore.withHeap { T.timing with
        store := s₁, totalSize := T.timing.totalSize + objSize } heap').put clock junk key version =
          .ok (.noError, t₂) ∧ t₂.store = s₂ := TimingStore.put_of_store hput clock
    refine ⟨t₂, hput', TimingStore.readsBack_of_holds ?_ hkey⟩
    rw [hstore₂]
    exact hi₁.holds_put hobj hput hfresh

/-- The key "a": the object is put, and read back twice. -/
theorem timing_transparent_iff_one_object :
    ∃ l f t₁ t₂, Log.ctor none logSize = .ok (l, f) ∧
      (TimingStore.ctor (NvsStore.ctor l f (fun _ => 0)) 0).createObj [97] 4 4096 =
        .ok (.noError, 4096, t₁) ∧
      (t₁.withHeap (fun _ => 7)).put ⟨0, 0⟩ blankHdr [97] 1 = .ok (.noError, t₂) ∧
      t₂.ReadsBack [97] 1 4096 [7, 7, 7, 7] := by
  obtain ⟨l, f, hnew, hr, _, hlen⟩ := ctor_ok logSize (by decide)
  obtain ⟨t₁, hcreate⟩ : ∃ t₁, (TimingStore.ctor (NvsStore.ctor l f (fun _ => 0)) 0).createObj [97] 4
      4096 = .ok (.noError, 4096, t₁) := ⟨_, rfl⟩
  have hrun : Relation.ReflTransGen TimedLife.Run (TimedLife.start l f (fun _ => 0) 0)
      (TimedLife.start l f (fun _ => 0) 0) := .refl
  have hspace : word f.bytes tailOff + (sizeofLehdr + (4 : UInt64).toNat) + 8 ≤ f.len - 1 := by
    rw [hr.tail_eq, hlen]
    decide
  have hfresh : ∀ e ∈ ([] : List Event), ∀ r ∈ e.what.recs,
      ¬ (keyField r.name = keyField [97] ∧ r.version = 1) :=
    fun e he => absurd he List.not_mem_nil
  obtain ⟨t₂, hput, hread⟩ := (timing_transparent_iff (by decide) hnew hrun hcreate (fun _ => 7)
    hfresh hspace ⟨0, 0⟩ blankHdr).mpr (by decide)
  exact ⟨l, f, t₁, t₂, hnew, hcreate, hput, hread⟩

/-- **A padded key is created and never found.**  `create_obj("a ")` returns `NO_ERROR` and files the
    object under "a"; every `put("a ", v)` then returns `ELEM_NOT_FOUND` and leaves the log alone. -/
theorem padded_key_not_found :
    ∃ l f t₁, Log.ctor none logSize = .ok (l, f) ∧
      (TimingStore.ctor (NvsStore.ctor l f (fun _ => 0)) 0).createObj [97, 32] 4 4096 =
        .ok (.noError, 4096, t₁) ∧
      t₁.store.objectMap.entries = [([97], Object.ctor [97] 4 0 4096)] ∧
      ∀ clock junk version, ∃ t₂, t₁.put clock junk [97, 32] version = .ok (.elemNotFound, t₂) ∧
        t₂.store = t₁.store := by
  obtain ⟨l, f, hnew, _⟩ := ctor_ok logSize (by decide)
  exact ⟨l, f, _, hnew, rfl, rfl, fun clock junk version => ⟨_, rfl, rfl⟩⟩

end NvStream
