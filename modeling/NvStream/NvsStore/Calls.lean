/-
  The calls of an `NVSStore` as values.

  A run of a store is a run over `Call`s: everything the application can ask of the class, and its own
  stores into memory.  `NvsStore.call` performs one.  With the calls named, a condition on how the
  application uses the store is a predicate on the call and the state it meets (`Life.Run`), and two
  runs can be compared call by call.

  `NvsStore.Origin` says once what a call can do to the objects: one that is filed afterwards was there
  before, or was given a version (`Call.givenVersion`, which is also the version the call records,
  `Call.version_of_record`), or was made by `create_obj` or `get_with_malloc`.
-/
import NvStream.NvsStore.Runs

namespace NvStream

open FlatMem LittleEndian LoadProg PersistTrace

/-- A call of the class, or a store of the application. -/
inductive Call where
  | createObj (key : Key) (size : UInt64) (tmpPtr : Nat)
  | freeObj (objAddr : Nat)
  | put (lEntry : LeHdr) (key : Key) (version : UInt64)
  | putAll (lEntry : Nat → LeHdr)
  | get (wentry : WalkEntry) (fuel : Nat) (key : Key) (version : UInt64) (objAddr : Nat)
  | getWithMalloc (wentry : WalkEntry) (fuel : Nat) (key : Key) (version : UInt64) (tmpPtr : Nat)
  | appWrite (addr : Nat) (bs : List Byte)

/-- What a call returns. -/
inductive Reply where
  | code (ret : ErrorCode)
  | object (ret : ErrorCode) (addr : Option Nat)
  | bytes (n : Nat)
  | done

/-- Perform a call. -/
def NvsStore.call (s : NvsStore) : Call → Except Stop (Reply × NvsStore)
  | .createObj key size tmpPtr =>
    (s.createObj key size tmpPtr).map (fun r => (.object r.1 (some r.2.1), r.2.2))
  | .freeObj objAddr => (s.freeObj objAddr).map (fun r => (.code r.1, r.2))
  | .put lEntry key version => (s.put lEntry key version).map (fun r => (.code r.1, r.2))
  | .putAll lEntry => (s.putAll lEntry).map (fun r => (.bytes r.1, r.2))
  | .get wentry fuel key version objAddr =>
    (s.get wentry fuel key version objAddr).map (fun r => (.code r.1, r.2))
  | .getWithMalloc wentry fuel key version tmpPtr =>
    (s.getWithMalloc wentry fuel key version tmpPtr).map (fun r => (.object r.1 r.2.1, r.2.2))
  | .appWrite addr bs => .ok (.done, { s with heap := store s.heap addr bs })

theorem NvsStore.call_createObj {s s' : NvsStore} {key : Key} {size : UInt64} {tmpPtr addr : Nat}
    {code : ErrorCode} (h : s.createObj key size tmpPtr = .ok (code, addr, s')) :
    s.call (.createObj key size tmpPtr) = .ok (.object code (some addr), s') :=
  congrArg (Except.map _) h

theorem NvsStore.call_put {s s' : NvsStore} {junk : LeHdr} {key : Key} {version : UInt64}
    {code : ErrorCode} (h : s.put junk key version = .ok (code, s')) :
    s.call (.put junk key version) = .ok (.code code, s') :=
  congrArg (Except.map _) h

theorem NvsStore.call_putAll {s s' : NvsStore} {junk : Nat → LeHdr} {n : Nat}
    (h : s.putAll junk = .ok (n, s')) : s.call (.putAll junk) = .ok (.bytes n, s') :=
  congrArg (Except.map _) h

namespace Call

/-- The keys under which a call may file an object. -/
def keys : Call → List Key
  | createObj key _ _ => [key]
  | getWithMalloc _ _ key _ _ => [key]
  | _ => []

/-- What a call that returns has added to the log. -/
def events (s : NvsStore) : Call → List Event
  | put _ key version =>
    match s.objectMap.find? key with
    | none => []
    | some obj => [⟨s.log.writeOffset, obj.size.toNat, .put (obj.recorded s.heap key version)⟩]
  | putAll _ => [⟨s.log.writeOffset, NvsStore.totCnt (s.objectMap.entries.map Prod.snd),
      .putAll (s.objectMap.entries.map (fun p => p.2.recorded s.heap p.1 (p.2.version + 1)))⟩]
  | _ => []

/-- The records among them. -/
def records (s : NvsStore) (c : Call) : List Rec := (c.events s).flatMap (fun e => e.what.recs)

/-- The version a call gives to the object filed under a key, if it sets one. -/
def givenVersion (s : NvsStore) : Call → Key → Option UInt64
  | createObj key _ _, k => if k = key then some 0 else none
  | put _ key version, k => if k = key then some version else none
  | putAll _, k => (s.objectMap.find? k).map (fun obj => obj.version + 1)
  | getWithMalloc _ _ key version _, k => if k = key then some version else none
  | _, _ => none

end Call

/-! ## What a call does to the objects -/

section
variable {s s' : NvsStore}

/-- `put` either finds no object and changes nothing, or returns `NO_ERROR`. -/
theorem NvsStore.put_cases {junk : LeHdr} {key : Key} {version : UInt64} {code : ErrorCode}
    (h : s.put junk key version = .ok (code, s')) :
    (s.objectMap.find? key = none ∧ code = .elemNotFound ∧ s' = s) ∨
    ∃ obj, s.objectMap.find? key = some obj ∧ code = .noError ∧
      s'.objectMap = s.objectMap.modify key (fun obj => obj.setVersion version) ∧
      s'.heap = s.heap := by
  rcases NvsStore.put_eq h with hnone | ⟨obj, _, _, hfind, hcode, _, rfl⟩
  · exact Or.inl hnone
  · exact Or.inr ⟨obj, hfind, hcode, rfl, rfl⟩

theorem NvsStore.putAll_map {junk : Nat → LeHdr} {n : Nat} (h : s.putAll junk = .ok (n, s')) :
    s'.objectMap = s.objectMap.mapVal (fun _ obj => obj.setVersion (obj.version + 1)) := by
  obtain ⟨_, _, _, rfl⟩ := NvsStore.putAll_eq h
  rfl

theorem NvsStore.createObj_map {key : Key} {size : UInt64} {tmpPtr addr : Nat} {code : ErrorCode}
    (h : s.createObj key size tmpPtr = .ok (code, addr, s')) :
    s.objectMap.find? key = none ∧
      s'.objectMap = s.objectMap.insert key (Object.ctor key size 0 tmpPtr) ∧
      s'.heap = s.heap := by
  obtain ⟨hfind, rfl⟩ := NvsStore.createObj_eq h
  exact ⟨hfind, rfl, rfl⟩

/-- `create_obj` of a key that is not filed succeeds. -/
theorem NvsStore.createObj_of_none {key : Key} (size : UInt64) (tmpPtr : Nat)
    (h : s.objectMap.find? key = none) :
    s.createObj key size tmpPtr = .ok (.noError, tmpPtr, { s with
      objectMap := s.objectMap.insert key (Object.ctor key size 0 tmpPtr)
      addrMap := s.addrMap.insert tmpPtr key }) := by
  unfold NvsStore.createObj
  rw [h]
  rfl

/-- `free_obj` of an address that both maps know succeeds. -/
theorem NvsStore.freeObj_of_found {objAddr : Nat} {key : Key} {obj : Object}
    (haddr : s.addrMap.find? objAddr = some key) (hobj : s.objectMap.find? key = some obj) :
    s.freeObj objAddr = .ok (.noError, { s with
      objectMap := s.objectMap.erase key
      addrMap := s.addrMap.erase objAddr }) := by
  unfold NvsStore.freeObj
  simp only [haddr, hobj]

theorem NvsStore.freeObj_map {objAddr : Nat} {code : ErrorCode}
    (h : s.freeObj objAddr = .ok (code, s')) : ∃ key, s'.objectMap = s.objectMap.erase key := by
  obtain ⟨key, _, _, _, rfl⟩ := NvsStore.freeObj_eq h
  exact ⟨key, rfl⟩

/-- What a call records are objects the store holds, with the bytes they have. -/
theorem Call.recorded_of_event {c : Call} {e : Event} (he : e ∈ c.events s) {r : Rec}
    (hr : r ∈ e.what.recs) :
    ∃ p ∈ s.objectMap.entries, ∃ version, r = p.2.recorded s.heap p.1 version := by
  cases c with
  | put lEntry key version =>
    rw [events] at he
    cases hfind : s.objectMap.find? key with
    | none =>
      rw [hfind] at he
      exact absurd he List.not_mem_nil
    | some obj =>
      rw [hfind] at he
      rw [List.mem_singleton.mp he] at hr
      exact ⟨(key, obj), (SortedMap.find?_eq_some _ _ _).mp hfind, version, List.mem_singleton.mp hr⟩
  | putAll lEntry =>
    rw [List.mem_singleton.mp he] at hr
    obtain ⟨p, hp, rfl⟩ := List.mem_map.mp hr
    exact ⟨p, hp, p.2.version + 1, rfl⟩
  | createObj | freeObj | get | getWithMalloc | appWrite => exact absurd he List.not_mem_nil

/-- A call records an object under the version it gives it. -/
theorem Call.version_of_record {c : Call} {r : Rec} (hr : r ∈ c.records s) :
    c.givenVersion s r.name = some r.version := by
  cases c with
  | put lEntry key version =>
    rw [records, events] at hr
    cases hfind : s.objectMap.find? key with
    | none =>
      rw [hfind] at hr
      exact absurd hr List.not_mem_nil
    | some obj =>
      rw [hfind] at hr
      rw [List.mem_singleton.mp hr]
      exact if_pos rfl
  | putAll lEntry =>
    obtain ⟨e, he, hr⟩ := List.mem_flatMap.mp hr
    rw [List.mem_singleton.mp he] at hr
    obtain ⟨p, hp, rfl⟩ := List.mem_map.mp hr
    show (s.objectMap.find? p.1).map _ = some (p.2.version + 1)
    rw [(SortedMap.find?_eq_some _ _ _).mpr hp]
    rfl
  | createObj | freeObj | get | getWithMalloc | appWrite => exact absurd hr List.not_mem_nil

/-- Where an object that is filed after a call comes from. -/
inductive NvsStore.Origin (s : NvsStore) (c : Call) (p : Key × Object) : Prop where
  /-- It was there before, and the call recorded nothing under its key. -/
  | kept (hold : p ∈ s.objectMap.entries) (hrec : ∀ r ∈ c.records s, r.name ≠ p.1)
  /-- It was there before, and got a version. -/
  | versioned {o : Object} {version : UInt64} (hold : (p.1, o) ∈ s.objectMap.entries)
      (hgiven : c.givenVersion s p.1 = some version) (heq : p.2 = o.setVersion version)
  /-- `create_obj` made it. -/
  | created {size : UInt64} {tmpPtr : Nat} (hc : c = .createObj p.1 size tmpPtr)
      (heq : p.2 = Object.ctor p.1 size 0 tmpPtr)
  /-- `get_with_malloc` made it for the bytes it copied. -/
  | loaded {wentry : WalkEntry} {fuel tmpPtr n : Nat} {version : UInt64}
      (hc : c = .getWithMalloc wentry fuel p.1 version tmpPtr)
      (hlen : s.copyLen wentry fuel p.1 version = some n)
      (heq : p.2 = (Object.ctor p.1 (UInt64.ofNat n) version tmpPtr).setVersion version)

/-- An object a call without records found and left alone. -/
theorem NvsStore.Origin.of_nil {c : Call} {p : Key × Object} (hev : c.events s = [])
    (hold : p ∈ s.objectMap.entries) : s.Origin c p := by
  refine .kept hold (fun r hr => ?_)
  rw [Call.records, hev] at hr
  exact absurd hr List.not_mem_nil

/-- **What a call can do to the objects.** -/
theorem NvsStore.origin_of_mem {c : Call} {r : Reply} (h : s.call c = .ok (r, s'))
    {p : Key × Object} (hp : p ∈ s'.objectMap.entries) : s.Origin c p := by
  cases c with
  | createObj key size tmpPtr =>
    obtain ⟨a, ha, rfl⟩ := Except.map_eq_ok_snd h
    rw [(createObj_map ha).2.1, SortedMap.mem_insert] at hp
    rcases hp with rfl | ⟨hp, _⟩
    · exact .created rfl rfl
    · exact .of_nil rfl hp
  | freeObj objAddr =>
    obtain ⟨a, ha, rfl⟩ := Except.map_eq_ok_snd h
    obtain ⟨key, hmap⟩ := freeObj_map ha
    rw [hmap, SortedMap.mem_erase] at hp
    exact .of_nil rfl hp.1
  | put lEntry key version =>
    obtain ⟨a, ha, rfl⟩ := Except.map_eq_ok_snd h
    rcases put_cases ha with ⟨hfind, _, heq⟩ | ⟨obj, hfind, _, hmap, _⟩
    · rw [heq] at hp
      exact .of_nil (by rw [Call.events, hfind]) hp
    · rw [hmap, SortedMap.modify, SortedMap.mem_mapVal] at hp
      obtain ⟨o, ho, hpo⟩ := hp
      by_cases hk : p.1 = key
      · rw [if_pos hk] at hpo
        exact .versioned ho (if_pos hk) hpo
      · rw [if_neg hk] at hpo
        rw [← hpo] at ho
        refine .kept ho (fun r hr => ?_)
        rw [Call.records, Call.events, hfind] at hr
        rw [List.mem_singleton.mp hr]
        exact fun hkey => hk hkey.symm
  | putAll lEntry =>
    obtain ⟨a, ha, rfl⟩ := Except.map_eq_ok_snd h
    rw [putAll_map ha, SortedMap.mem_mapVal] at hp
    obtain ⟨o, ho, hpo⟩ := hp
    refine .versioned ho ?_ hpo
    show (s.objectMap.find? p.1).map _ = some (o.version + 1)
    rw [(SortedMap.find?_eq_some _ _ _).mpr ho]
    rfl
  | get wentry fuel key version objAddr =>
    obtain ⟨a, ha, rfl⟩ := Except.map_eq_ok_snd h
    obtain ⟨heap, heq⟩ := get_ok ha
    rw [heq] at hp
    exact .of_nil rfl hp
  | getWithMalloc wentry fuel key version tmpPtr =>
    obtain ⟨a, ha, rfl⟩ := Except.map_eq_ok_snd h
    rcases getWithMalloc_cases ha with ⟨_, _, _, heq⟩ | ⟨data, hlen, _, _, heq⟩
    · rw [heq] at hp
      exact .of_nil rfl hp
    · rw [heq, SortedMap.mem_insert] at hp
      rcases hp with rfl | ⟨hp, _⟩
      · unfold loaded
        cases hfind : s.objectMap.find? key with
        | some old =>
          exact .versioned ((SortedMap.find?_eq_some _ _ _).mp hfind) (if_pos rfl) rfl
        | none => exact .loaded rfl hlen rfl
      · exact .of_nil rfl hp
  | appWrite addr bs =>
    obtain ⟨_, rfl⟩ := Prod.mk.inj (Except.ok.inj h)
    exact .of_nil rfl hp

/-- An object found after a call was given its version by the call, or was there before and the call
    recorded nothing under its key. -/
theorem NvsStore.mem_after_call {c : Call} {r : Reply} (h : s.call c = .ok (r, s'))
    {p : Key × Object} (hp : p ∈ s'.objectMap.entries) :
    c.givenVersion s p.1 = some p.2.version ∨
      (p ∈ s.objectMap.entries ∧ ∀ r ∈ c.records s, r.name ≠ p.1) := by
  cases origin_of_mem h hp with
  | kept hold hrec => exact Or.inr ⟨hold, hrec⟩
  | versioned hold hgiven heq =>
    rw [heq]
    exact Or.inl hgiven
  | created hc heq =>
    rw [hc, heq]
    exact Or.inl (if_pos rfl)
  | loaded hc hlen heq =>
    rw [hc, heq]
    exact Or.inl (if_pos rfl)

end

/-! ## Runs over calls -/

namespace Life

/-- The life after a call that returned. -/
def after (L : Life) (c : Call) (s' : NvsStore) : Life := ⟨s', L.events ++ c.events L.store⟩

theorem after_of_nil {L : Life} {c : Call} {s' : NvsStore} (h : c.events L.store = []) :
    L.after c s' = { L with store := s' } := by
  rw [after, h, List.append_nil]

/-- A run of calls that each meet `ok` in the state they find, and of restarts. -/
inductive Run (ok : Life → Call → Prop) : Life → Life → Prop
  | call {L : Life} {r : Reply} {s' : NvsStore} (c : Call) (hok : ok L c)
      (h : L.store.call c = .ok (r, s')) : Run ok L (L.after c s')
  | restart {L : Life} {l : Log} {f : File} (heap : Mem Byte)
      (h : Log.ctor (some L.store.file) 0 = .ok (l, f)) :
      Run ok L { L with store := NvsStore.ctor l f heap }

/-- A call is a step of the store's life. -/
theorem step_of_call {valid : Key → Prop} {L : Life} {c : Call} {r : Reply} {s' : NvsStore}
    (hkeys : ∀ k ∈ c.keys, valid k) (h : L.store.call c = .ok (r, s')) :
    Step valid L (L.after c s') := by
  cases c with
  | createObj key size tmpPtr =>
    obtain ⟨a, ha, rfl⟩ := Except.map_eq_ok_snd h
    rw [after_of_nil rfl]
    exact .createObj key size tmpPtr (hkeys key (List.mem_singleton.mpr rfl)) ha
  | freeObj objAddr =>
    obtain ⟨a, ha, rfl⟩ := Except.map_eq_ok_snd h
    rw [after_of_nil rfl]
    exact .freeObj objAddr ha
  | put lEntry key version =>
    obtain ⟨⟨code, s₁⟩, ha, rfl⟩ := Except.map_eq_ok_snd h
    rcases NvsStore.put_cases ha with ⟨hfind, hcode, _⟩ | ⟨obj, hfind, hcode, _⟩
    · rw [after_of_nil (by rw [Call.events, hfind])]
      exact .putMissing lEntry key version (by rw [hcode]; decide) ha
    · rw [after, Call.events, hfind]
      rw [hcode] at ha
      exact .put lEntry key version hfind ha
  | putAll lEntry =>
    obtain ⟨a, ha, rfl⟩ := Except.map_eq_ok_snd h
    exact .putAll lEntry ha
  | get wentry fuel key version objAddr =>
    obtain ⟨a, ha, rfl⟩ := Except.map_eq_ok_snd h
    rw [after_of_nil rfl]
    exact .get wentry fuel key version objAddr ha
  | getWithMalloc wentry fuel key version tmpPtr =>
    obtain ⟨a, ha, rfl⟩ := Except.map_eq_ok_snd h
    rw [after_of_nil rfl]
    exact .getWithMalloc wentry fuel key version tmpPtr (hkeys key (List.mem_singleton.mpr rfl)) ha
  | appWrite addr bs =>
    obtain ⟨_, rfl⟩ := Prod.mk.inj (Except.ok.inj h)
    rw [after_of_nil rfl]
    exact .appWrite addr bs

/-- A run over keys that are `valid` is a run of steps. -/
theorem Run.step {valid : Key → Prop} {ok : Life → Call → Prop}
    (hok : ∀ L c, ok L c → ∀ k ∈ c.keys, valid k) {L L' : Life} (h : Run ok L L') :
    Step valid L L' := by
  cases h with
  | call c hc h => exact step_of_call (hok _ _ hc) h
  | restart heap h => exact .restart heap h

/-- The invariant of a life holds along runs of calls. -/
theorem Run.inv {valid : Key → Prop} {ok : Life → Call → Prop}
    (hok : ∀ L c, ok L c → ∀ k ∈ c.keys, valid k) {size : Nat} {l : Log} {f : File}
    {heap : Mem Byte} (hsize : sizeofLhdr ≤ size) (hnew : Log.ctor none size = .ok (l, f)) {L : Life}
    (hrun : Relation.ReflTransGen (Run ok) (start l f heap) L) : ∃ items, L.Inv valid items :=
  Step.run_inv (Relation.ReflTransGen.mono (fun _ _ h => Run.step hok h) _ _ hrun)
    (start_inv heap hsize hnew)

/-- The invariant of a run, with nothing asked of the keys. -/
theorem Run.inv_any {ok : Life → Call → Prop} {size : Nat} {l : Log} {f : File} {heap : Mem Byte}
    {L : Life} (hsize : sizeofLhdr ≤ size) (hnew : Log.ctor none size = .ok (l, f))
    (hrun : Relation.ReflTransGen (Run ok) (start l f heap) L) :
    ∃ items, L.Inv (fun _ => True) items :=
  Run.inv (fun _ _ _ _ _ => trivial) hsize hnew hrun

end Life

end NvStream
