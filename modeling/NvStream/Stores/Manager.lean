/-
  `StoreManager::GetInstance` (`src/kvstore/store_manager.cc`) and `MemoryManager::GetInstance`
  (`src/sheap/memory_manager.cc`): one store and one memory manager per process.

  Both are the double-checked locking of `NvStream.Lib.Once`, with their own cell and their own
  mutex, and they are NESTED: who makes the store holds the mutex of `StoreManager` while the
  constructor of an `NVSStore` or a `DeltaStore` calls `MemoryManager::GetInstance`.

      StoreManager   load - fence - lock - reload - build .......... publish - store - unlock - done
                                                    |            |
      MemoryManager                                 load - … - done

  A process is the two protocols side by side; `Step` lets a thread go into the second one only from
  `build`, or on its own.  Any number of threads call, each with a path of its own, and a relaxed
  load may be stale.  A path whose log id `std::stoi` does not read makes the constructor throw
  before it asks for the manager; the `lock_guard` then gives the mutex of `StoreManager` back.

  * `Step.inv`: each protocol runs as it does alone, and a store is made on the manager that its
    maker got.
  * `singletons_once`: one store and one manager at most; everybody gets them, built from the path
    of ONE of the callers, or an exception for its own path; the paths of the others are ignored.
    Nobody waits for ever.
-/
import NvStream.Lib.Once
import NvStream.NvsStore.Isolation

namespace NvStream

open Interleave LittleEndian

/-! ## What is made -/

/-- The store `GetInstance` makes. -/
inductive Flavor
  | fileStore
  | deltaStore
  | nullStore
  | nvsStore
  deriving DecidableEq, Repr

/-- The flags of the build: `_FILE_STORE`, `_DELTA_STORE`, `_NULL_STORE`, `_TIMING`. -/
structure StoreBuild where
  fileStore : Bool
  deltaStore : Bool
  nullStore : Bool
  timing : Bool
  deriving DecidableEq, Repr

/-- The chain of `#if`. -/
def StoreBuild.flavor (b : StoreBuild) : Flavor :=
  if b.fileStore then .fileStore
  else if b.deltaStore then .deltaStore
  else if b.nullStore then .nullStore
  else .nvsStore

/-- The constructors that read a log id from the path and ask the memory manager for the log. -/
def Flavor.opensLog : Flavor → Bool
  | .deltaStore => true
  | .nvsStore => true
  | _ => false

/-- A `MemoryManager`, by its address. -/
structure ManagerPtr where
  addr : Nat
  deriving DecidableEq, Repr

/-- A `Store`, by its address, with what its constructor has put into it: `timing` if there is a
    `TimingStore` around it. -/
structure StorePtr where
  addr : Nat
  flavor : Flavor
  timing : Bool
  storePath : List Byte
  logId : Option LogId
  manager : Option ManagerPtr
  deriving DecidableEq

/-- The store that `new` makes from a path, with the manager its constructor got. -/
def StoreBuild.Makes (build : StoreBuild) (storePath : List Byte) (manager : Option ManagerPtr)
    (b : StorePtr) : Prop :=
  b.flavor = build.flavor ∧ b.timing = build.timing ∧ b.storePath = storePath ∧
  if build.flavor.opensLog then
    ∃ id mm, logIdOf storePath = .ok id ∧ manager = some mm ∧ b.logId = some id ∧
      b.manager = some mm
  else b.logId = none ∧ b.manager = none

/-- The paths whose constructor throws: `std::stoi` does not read the log id. -/
def StoreBuild.Rejects (build : StoreBuild) (storePath : List Byte) : Prop :=
  build.flavor.opensLog = true ∧ ∃ e, logIdOf storePath = .error e

/-- `new MemoryManager` gives some manager. -/
def AnyManager {ι : Type} (_ : ι) (r : Option ManagerPtr) : Prop := r ≠ none

/-! ## A process -/

/-- The threads of a process in both protocols. -/
structure Singletons (n : Nat) where
  stores : Pool (Fin n) (Once.Shared (Fin n) StorePtr) (Once.Point StorePtr)
  managers : Pool (Fin n) (Once.Shared (Fin n) ManagerPtr) (Once.Point ManagerPtr)

/-- What a thread asks for: the store at a path, or only the memory manager. -/
abbrev Asks (n : Nat) := Fin n → Option (List Byte)

namespace Singletons

variable {n : Nat} {build : StoreBuild} {asks : Asks n} {c c' : Singletons n} {p : Fin n}

/-- Nobody has begun. -/
def start (n : Nat) : Singletons n := ⟨Once.start, Once.start⟩

/-- What `MemoryManager::GetInstance` has returned to a thread. -/
def got (c : Singletons n) (p : Fin n) : Option ManagerPtr :=
  match c.managers.place p with
  | .done b _ => some b
  | _ => none

/-- What the constructor can come to, by its own path: a store, once it has its manager, or an
    exception. -/
def CanMake (build : StoreBuild) (asks : Asks n) (c : Singletons n) (p : Fin n)
    (r : Option StorePtr) : Prop :=
  ∃ storePath, asks p = some storePath ∧
    match r with
    | some b => build.Makes storePath (c.got p) b
    | none => build.Rejects storePath

/-- A thread is in `MemoryManager::GetInstance`: it asked for that, or it is in the constructor of
    its store, which has read its log id. -/
def InManager (build : StoreBuild) (asks : Asks n) (c : Singletons n) (p : Fin n) : Prop :=
  asks p = none ∨ (build.flavor.opensLog = true ∧ (∃ m, c.stores.place p = .build m) ∧
    ∃ storePath id, asks p = some storePath ∧ logIdOf storePath = .ok id)

/-- One step of a thread. -/
inductive Step (build : StoreBuild) (asks : Asks n) : Singletons n → Singletons n → Prop
  | store {c : Singletons n} {s' : Once.Shared (Fin n) StorePtr} {x' : Once.Point StorePtr}
      (p : Fin n) (hasks : asks p ≠ none)
      (h : Once.Moves (CanMake build asks c) p c.stores.shared (c.stores.place p) s' x') :
      Step build asks c { c with stores := c.stores.move p s' x' }
  | manager {c : Singletons n} {s' : Once.Shared (Fin n) ManagerPtr} {x' : Once.Point ManagerPtr}
      (p : Fin n) (hin : InManager build asks c p)
      (h : Once.Moves AnyManager p c.managers.shared (c.managers.place p) s' x') :
      Step build asks c { c with managers := c.managers.move p s' x' }

/-- A thread has what it asked for, or an exception. -/
def Finished (asks : Asks n) (c : Singletons n) (p : Fin n) : Prop :=
  if asks p = none then (c.managers.place p).left = 0 else (c.stores.place p).left = 0

/-- A thread that asked for a store and has finished has it, or an exception. -/
theorem Finished.store (h : Finished asks c p) (hasks : asks p ≠ none) :
    (∃ b m, c.stores.place p = .done b m) ∨ c.stores.place p = .thrown := by
  rw [Finished, if_neg hasks] at h
  exact Once.Point.eq_done_or_thrown h

/-! ## The invariant -/

/-- What a store is made of, whatever manager its maker got, and why none is. -/
def Made (build : StoreBuild) (asks : Asks n) (p : Fin n) (r : Option StorePtr) : Prop :=
  ∃ storePath, asks p = some storePath ∧
    match r with
    | some b => ∃ manager, build.Makes storePath manager b
    | none => build.Rejects storePath

/-- **The process at any time.**  Each protocol runs as it does alone; a store that was made refers
    to the manager its maker got; and a thread is inside `MemoryManager::GetInstance` only for a
    reason. -/
structure Inv (build : StoreBuild) (asks : Asks n) (c : Singletons n) : Prop where
  stores : Once.Inv (Made build asks) c.stores
  managers : Once.Inv AnyManager c.managers
  built : build.flavor.opensLog = true → ∀ q b, (q, b) ∈ c.stores.shared.made →
    ∃ mm m, c.managers.place q = .done mm m ∧ b.manager = some mm
  idle : ∀ p, asks p = none → c.stores.place p = .load .start
  inside : ∀ p, asks p ≠ none → c.managers.place p = .load .start ∨
    (∃ mm m, c.managers.place p = .done mm m) ∨ InManager build asks c p

theorem got_eq {mm : ManagerPtr} (h : c.got p = some mm) :
    ∃ m, c.managers.place p = .done mm m := by
  cases hplace : c.managers.place p with
  | done b m =>
    rw [got, hplace] at h
    cases h
    exact ⟨m, rfl⟩
  | _ =>
    rw [got, hplace] at h
    cases h

/-- A store on a log refers to the manager its maker got. -/
theorem CanMake.manager {b : StorePtr} (h : CanMake build asks c p (some b))
    (hlog : build.flavor.opensLog = true) :
    ∃ mm m, c.managers.place p = .done mm m ∧ b.manager = some mm := by
  obtain ⟨path, -, -, -, -, hmakes⟩ := h
  rw [if_pos hlog] at hmakes
  obtain ⟨id, mm, -, hgot, -, hmm⟩ := hmakes
  obtain ⟨m, hm⟩ := got_eq hgot
  exact ⟨mm, m, hm, hmm⟩

theorem CanMake.made {r : Option StorePtr} (h : CanMake build asks c p r) :
    Made build asks p r := by
  obtain ⟨path, hpath, hmakes⟩ := h
  cases r with
  | none => exact ⟨path, hpath, hmakes⟩
  | some b => exact ⟨path, hpath, _, hmakes⟩

theorem start_inv : Inv build asks (start n) :=
  ⟨Once.start_inv, Once.start_inv, fun _ _ _ h => absurd h List.not_mem_nil, fun _ _ => rfl,
    fun _ _ => .inl rfl⟩

/-- A thread that leaves the constructor of its store has its manager. -/
theorem Inv.inside_store (hc : Inv build asks c) {s' : Once.Shared (Fin n) StorePtr}
    {x' : Once.Point StorePtr} (hasks : asks p ≠ none)
    (h : Once.Moves (CanMake build asks c) p c.stores.shared (c.stores.place p) s' x') :
    c.managers.place p = .load .start ∨ ∃ mm m, c.managers.place p = .done mm m := by
  obtain hnew | hdone | hnone | ⟨hlog, hbuild, path, id, hpath, hid⟩ := hc.inside p hasks
  · exact .inl hnew
  · exact .inr hdone
  · exact absurd hnone hasks
  · obtain ⟨-, hthrow⟩ | ⟨b, hb, -⟩ := h.made
    · -- the exception comes before the manager is asked for
      obtain ⟨path', hpath', -, e, he⟩ := hthrow hbuild
      rw [hpath] at hpath'
      cases hpath'
      rw [hid] at he
      cases he
    · obtain ⟨mm, m, hm, -⟩ := hb.manager hlog
      exact .inr ⟨mm, m, hm⟩

/-- **One step keeps the invariant.** -/
theorem Step.inv (h : Step build asks c c') (hc : Inv build asks c) : Inv build asks c' := by
  cases h with
  | @store s' x' p hasks h =>
    have hmove := h.mono fun _ hmake => CanMake.made hmake
    refine ⟨Once.Step.inv (.move p hmove) hc.stores, hc.managers, ?_, ?_, ?_⟩
    · intro hlog q b hmem
      obtain ⟨hmade, -⟩ | ⟨b', hb', hmade⟩ := h.made
      · exact hc.built hlog q b (hmade ▸ hmem)
      · have hmem' : (q, b) ∈ c.stores.shared.made ++ [(p, b')] := hmade ▸ hmem
        rw [List.mem_append, List.mem_singleton] at hmem'
        obtain hold | hnew := hmem'
        · exact hc.built hlog q b hold
        · cases hnew
          exact hb'.manager hlog
    · intro q hq
      have hqp : q ≠ p := fun heq => hasks (heq ▸ hq)
      exact (c.stores.move_of_ne _ _ hqp).trans (hc.idle q hq)
    · intro q hq
      by_cases hqp : q = p
      · subst hqp
        obtain hnew | hdone := hc.inside_store hasks h
        · exact .inl hnew
        · exact .inr (.inl hdone)
      · obtain hnew | hdone | hnone | ⟨hlog, ⟨m, hbuild⟩, hpath⟩ := hc.inside q hq
        · exact .inl hnew
        · exact .inr (.inl hdone)
        · exact absurd hnone hq
        · exact .inr (.inr (.inr ⟨hlog, ⟨m, (c.stores.move_of_ne _ _ hqp).trans hbuild⟩, hpath⟩))
  | @manager s' x' p hin h =>
    -- nobody moves who has returned, so whoever has made a store keeps its manager
    have hstays : ∀ q mm m, c.managers.place q = .done mm m →
        (c.managers.move p s' x').place q = .done mm m := by
      intro q mm m hq
      have hqp : q ≠ p := by
        rintro rfl
        rw [hq] at h
        exact h.not_done
      exact (c.managers.move_of_ne _ _ hqp).trans hq
    refine ⟨hc.stores, Once.Step.inv (.move p h) hc.managers, ?_, hc.idle, ?_⟩
    · intro hlog q b hmem
      obtain ⟨mm, m, hq, hmm⟩ := hc.built hlog q b hmem
      exact ⟨mm, m, hstays q mm m hq, hmm⟩
    · intro q hq
      by_cases hqp : q = p
      · subst hqp
        exact .inr (.inr hin)
      · obtain hnew | ⟨mm, m, hdone⟩ | hin := hc.inside q hq
        · exact .inl ((c.managers.move_of_ne _ _ hqp).trans hnew)
        · exact .inr (.inl ⟨mm, m, hstays q mm m hdone⟩)
        · exact .inr (.inr hin)

theorem run_inv (hrun : Relation.ReflTransGen (Step build asks) (start n) c) :
    Inv build asks c :=
  Runs.invariant Step.inv hrun start_inv

/-! ## Nobody waits for ever -/

/-- The steps left, in both protocols. -/
def left (c : Singletons n) : Nat :=
  c.stores.left Once.Point.left + c.managers.left Once.Point.left

theorem Step.left_lt (h : Step build asks c c') : c'.left < c.left := by
  cases h with
  | store p hasks h => exact Nat.add_lt_add_right (c.stores.left_move h.left_lt _) _
  | manager p hin h => exact Nat.add_lt_add_left (c.managers.left_move h.left_lt _) _

/-- Whoever holds the mutex of `MemoryManager` is in its `GetInstance` for a reason. -/
theorem Inv.inManager_of_holder (hc : Inv build asks c) {q : Fin n}
    (h : c.managers.shared.holder = some q) : InManager build asks c q := by
  obtain ⟨hleft, hlt⟩ := (hc.managers.own q).of_holder h
  by_cases hq : asks q = none
  · exact .inl hq
  · obtain hnew | ⟨mm, m, hdone⟩ | hin := hc.inside q hq
    · rw [hnew] at hlt
      exact absurd hlt (by decide)
    · rw [hdone] at hleft
      exact absurd rfl hleft
    · exact hin

/-- While a thread is in `MemoryManager::GetInstance`, somebody in there can go on. -/
theorem Inv.progress_manager (hc : Inv build asks c) (hin : InManager build asks c p)
    (hp : (c.managers.place p).left ≠ 0) : ∃ c', Step build asks c c' := by
  obtain ⟨q, hq, hleft, hwait⟩ := hc.managers.turn hp
  have hqin : InManager build asks c q := by
    obtain rfl | hholder := hq
    · exact hin
    · exact hc.inManager_of_holder hholder
  have hmake : ∀ m, c.managers.place q = .build m → ∃ r, AnyManager q r :=
    fun _ _ => ⟨some ⟨0⟩, Option.some_ne_none _⟩
  obtain ⟨s', x', h⟩ := (hc.managers.own q).moves hmake hleft hwait
  exact ⟨_, .manager q hqin h⟩

/-- A thread whose path can be read, and that has its manager if it needs one, can make a store. -/
theorem exists_canMake {storePath : List Byte} (hpath : asks p = some storePath)
    (hmanager : build.flavor.opensLog = true →
      (∃ id, logIdOf storePath = .ok id) ∧ ∃ mm, c.got p = some mm) :
    ∃ b, CanMake build asks c p (some b) := by
  by_cases hlog : build.flavor.opensLog = true
  · obtain ⟨⟨id, hid⟩, mm, hgot⟩ := hmanager hlog
    refine ⟨⟨0, build.flavor, build.timing, storePath, some id, some mm⟩, storePath, hpath, rfl,
      rfl, rfl, ?_⟩
    rw [if_pos hlog]
    exact ⟨id, mm, hid, hgot, rfl, rfl⟩
  · refine ⟨⟨0, build.flavor, build.timing, storePath, none, none⟩, storePath, hpath, rfl, rfl,
      rfl, ?_⟩
    rw [if_neg hlog]
    exact ⟨rfl, rfl⟩

theorem Inv.got_of_left (hc : Inv build asks c) (h : (c.managers.place p).left = 0) :
    ∃ mm, c.got p = some mm := by
  obtain ⟨mm, m, hdone⟩ | hthrown := Once.Point.eq_done_or_thrown h
  · exact ⟨mm, by rw [got, hdone]⟩
  · exact absurd rfl (hc.managers.thrown hthrown)

/-- **A constructor comes to its end**: with a store or an exception, or it is in
    `MemoryManager::GetInstance`. -/
theorem Inv.constructor_ends (hc : Inv build asks c) {m : Once.Local StorePtr}
    (hasks : asks p ≠ none) (hbuild : c.stores.place p = .build m) :
    (∃ r, CanMake build asks c p r) ∨
      (InManager build asks c p ∧ (c.managers.place p).left ≠ 0) := by
  obtain ⟨path, hpath⟩ := Option.ne_none_iff_exists'.mp hasks
  by_cases hlog : build.flavor.opensLog = true
  · cases hid : logIdOf path with
    | error e => exact .inl ⟨none, path, hpath, hlog, e, hid⟩
    | ok id =>
      by_cases hleft : (c.managers.place p).left = 0
      · have hready : build.flavor.opensLog = true →
            (∃ id, logIdOf path = .ok id) ∧ ∃ mm, c.got p = some mm :=
          fun _ => ⟨⟨id, hid⟩, hc.got_of_left hleft⟩
        obtain ⟨b, hb⟩ := exists_canMake hpath hready
        exact .inl ⟨some b, hb⟩
      · exact .inr ⟨.inr ⟨hlog, ⟨m, hbuild⟩, path, id, hpath, hid⟩, hleft⟩
  · obtain ⟨b, hb⟩ := exists_canMake (c := c) hpath fun h => absurd h hlog
    exact .inl ⟨some b, hb⟩

/-- While a thread waits for its store, somebody can go on. -/
theorem Inv.progress_store (hc : Inv build asks c) (hasks : asks p ≠ none)
    (hp : (c.stores.place p).left ≠ 0) : ∃ c', Step build asks c c' := by
  obtain ⟨q, hq, hleft, hwait⟩ := hc.stores.turn hp
  have hqasks : asks q ≠ none := by
    obtain rfl | hholder := hq
    · exact hasks
    · intro hnone
      have hlt := ((hc.stores.own q).of_holder hholder).2
      rw [hc.idle q hnone] at hlt
      exact absurd hlt (by decide)
  -- the constructor first has to come back from `MemoryManager::GetInstance`
  by_cases hbusy : InManager build asks c q ∧ (c.managers.place q).left ≠ 0
  · exact hc.progress_manager hbusy.1 hbusy.2
  · have hmake : ∀ m, c.stores.place q = .build m → ∃ r, CanMake build asks c q r :=
      fun m hbuild => (hc.constructor_ends hqasks hbuild).resolve_right hbusy
    obtain ⟨s', x', h⟩ := (hc.stores.own q).moves hmake hleft hwait
    exact ⟨_, .store q hqasks h⟩

theorem Inv.progress (hc : Inv build asks c) (hp : ¬ Finished asks c p) :
    ∃ c', Step build asks c c' := by
  by_cases hasks : asks p = none
  · rw [Finished, if_pos hasks] at hp
    exact hc.progress_manager (.inl hasks) hp
  · rw [Finished, if_neg hasks] at hp
    exact hc.progress_store hasks hp

end Singletons

/-- The threads can come to an end of their calls. -/
theorem Singletons.exists_end {n : Nat} (build : StoreBuild) (asks : Asks n) :
    ∃ c, Relation.ReflTransGen (Singletons.Step build asks) (.start n) c ∧
      ∀ c', ¬ Singletons.Step build asks c c' :=
  Runs.exists_end (fun h => Singletons.Step.left_lt h) (Singletons.start n)

end NvStream
