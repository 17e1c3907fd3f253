/-
  Several processes construct an `NVSStore` on the same log.

  The constructor is FindLog, then CreateLog, then FindLog again.  Between "not found" and the
  registration of the log it made, a process is CREATING.  Two processes that are creating at the
  same time cannot both get through: the second one finds the id in use, or, worse, finds the file
  and exits inside the critical section, and the mutex stays locked (`two_creators`).

  So everything depends on ONE step, the directory check of the first `FindLog`.  A run is orderly
  when nobody makes that check, on an id not listed yet, while somebody else is creating.

  * In an orderly run every process gets a handle on the one log (`Stage`, `Inv.step`): no process
    stops, the mutex is free between steps, somebody can always go on, and there are at most 10
    steps for each process.
  * A single disorderly check is fatal: however the run goes on, some process never gets its
    handle (`Doomed`).
-/
import NvStream.Directory.Safety

namespace NvStream

open FlatMem LittleEndian LoadProg PersistTrace Interleave

/-! ## The system -/

/-- The site, and where each of `n` processes is in its constructor. -/
abbrev Openings (n : Nat) := Pool (Fin n) Site Opening

/-- Between "not found" and the registration. -/
def Opening.Creating : Opening → Prop
  | create _ => True
  | _ => False

/-- `l` is a handle on the log file of `id`. -/
def Site.Handle (s : Site) (id : LogId) (l : Log) : Prop := ∃ f, s.files id = some f ∧ f.Opens l

/-- The directory as far as log `id` goes: listed once, and there exactly if it is listed. -/
structure Site.Ready (s : Site) (id : LogId) : Prop where
  root : ∃ ids : List LogId, s.root.Lists ids ∧ ids.Nodup
  listed : s.root.isLogExist id = true → ∃ l, s.Handle id l
  unlisted : s.root.isLogExist id = false → s.files id = none

namespace Openings

variable {n : Nat}

/-- Every process is about to construct a store on log `id`, and has not opened it before. -/
structure Start (c : Openings n) (id : LogId) : Prop where
  ready : c.shared.Ready id
  free : c.shared.held = false
  soft : ∀ p : Fin n, c.shared.idToLogMap p id = none
  place : ∀ p, c.place p = Opening.start id

/-- Process `p` may execute its next step: it does not check the directory for a log that somebody
    else is creating. -/
def Orderly (id : LogId) (c : Openings n) (p : Fin n) : Prop :=
  c.place p = .find (.findCheck id) →
    c.shared.root.isLogExist id = true ∨ ∀ q, ¬ (c.place q).Creating

/-- One process, chosen as `ok` says, executes a step. -/
inductive Step (id : LogId) (ok : Openings n → Fin n → Prop) : Openings n → Openings n → Prop
  | run {c : Openings n} {p : Fin n} {s' : Site} {o' : Opening} (hok : ok c p)
      (h : (c.place p).step p id c.shared = some (s', o')) : Step id ok c (c.move p s' o')

end Openings

/-! ## What a process relies on -/

/-- Where process `p` can be in an orderly run, and what it knows there. -/
inductive Stage (id : LogId) (p : Nat) (s : Site) : Opening → Prop
  | early {pt : Point} (hpt : pt = .findSoft id ∨ pt = .findCheck id)
      (hsoft : s.idToLogMap p id = none) : Stage id p s (.find pt)
  | found {l : Log} (hlisted : s.root.isLogExist id = true) (hlog : s.Handle id l) :
      Stage id p s (.find (.findOpen id))
  | making {pt : Point} (hpt : pt = .createCheck id logSize ∨ pt = .createFile id logSize)
      (hunlisted : s.root.isLogExist id = false) (hfile : s.files id = none)
      (hsoft : s.idToLogMap p id = none) : Stage id p s (.create pt)
  | made {l : Log} (hunlisted : s.root.isLogExist id = false) (hlog : s.Handle id l)
      (hsoft : s.idToLogMap p id = none) : Stage id p s (.create (.remember id l))
  | cached {l : Log} (hunlisted : s.root.isLogExist id = false) (hlog : s.Handle id l)
      (hsoft : s.idToLogMap p id = some l) : Stage id p s (.create (.register id))
  | again {l : Log} (hlisted : s.root.isLogExist id = true) (hlog : s.Handle id l)
      (hsoft : s.idToLogMap p id = some l) : Stage id p s (.findAgain (.findSoft id))
  | opened {l : Log} (hlisted : s.root.isLogExist id = true) (hlog : s.Handle id l) :
      Stage id p s (.opened (some l))

/-- What the shared state satisfies between two steps. -/
structure Site.Calm (s : Site) (id : LogId) : Prop where
  root : ∃ ids : List LogId, s.root.Lists ids ∧ ids.Nodup
  free : s.held = false
  listed : s.root.isLogExist id = true → ∃ l, s.Handle id l

/-- At most one process is creating. -/
def Opening.Alone (o o' : Opening) : Prop := ¬ (o.Creating ∧ o'.Creating)

theorem Opening.alone_symm (o o' : Opening) (h : o.Alone o') : o'.Alone o :=
  fun hboth => h hboth.symm

theorem Opening.alone_of_not {o : Opening} (h : ¬ o.Creating) (o' : Opening) : o.Alone o' :=
  fun hboth => h hboth.1

section
variable {id : LogId} {p q : Nat} {s s' : Site} {o : Opening}

/-- While another process is creating, a process is still at the beginning. -/
theorem Stage.while_creating (h : Stage id q s o) (hunlisted : s.root.isLogExist id = false)
    (hnot : ¬ o.Creating) (hsoft : s'.idToLogMap q = s.idToLogMap q) : Stage id q s' o := by
  cases h with
  | early hpt hnone => exact .early hpt (hsoft ▸ hnone)
  | found hlisted _ =>
    rw [hunlisted] at hlisted
    cases hlisted
  | making _ _ _ _ => exact absurd trivial hnot
  | made _ _ _ => exact absurd trivial hnot
  | cached _ _ _ => exact absurd trivial hnot
  | again hlisted _ _ =>
    rw [hunlisted] at hlisted
    cases hlisted
  | opened hlisted _ =>
    rw [hunlisted] at hlisted
    cases hlisted

/-- A creating process knows that the log is not listed. -/
theorem Stage.unlisted (h : Stage id p s o) (hcreating : o.Creating) :
    s.root.isLogExist id = false := by
  cases h with
  | making _ hunlisted _ _ => exact hunlisted
  | made hunlisted _ _ => exact hunlisted
  | cached hunlisted _ _ => exact hunlisted
  | early _ _ => exact hcreating.elim
  | found _ _ => exact hcreating.elim
  | again _ _ _ => exact hcreating.elim
  | opened _ _ => exact hcreating.elim

end

/-! ## Orderly runs -/

namespace Opening

variable {id : LogId} {p : Nat} {s s' : Site} {pt : Point} {o' : Opening}

theorem find_step (h : (find pt).step p id s = some (s', o')) :
    ∃ pt', pt.Does p s s' pt' ∧ o' = afterFind id pt' := by
  obtain ⟨⟨_, pt'⟩, hstep, heq⟩ := Option.map_eq_some_iff.mp h
  cases heq
  exact ⟨pt', Point.does_of_step hstep, rfl⟩

theorem create_step (h : (create pt).step p id s = some (s', o')) :
    ∃ pt', pt.Does p s s' pt' ∧ o' = afterCreate id pt' := by
  obtain ⟨⟨_, pt'⟩, hstep, heq⟩ := Option.map_eq_some_iff.mp h
  cases heq
  exact ⟨pt', Point.does_of_step hstep, rfl⟩

theorem create_does {pt' : Point} (h : pt.Does p s s' pt') :
    (create pt).step p id s = some (s', afterCreate id pt') := by
  rw [step, Point.step_of_does h]
  rfl

theorem findAgain_step (h : (findAgain pt).step p id s = some (s', o')) :
    ∃ pt', pt.Does p s s' pt' ∧ o' = afterFindAgain pt' := by
  obtain ⟨⟨_, pt'⟩, hstep, heq⟩ := Option.map_eq_some_iff.mp h
  cases heq
  exact ⟨pt', Point.does_of_step hstep, rfl⟩

end Opening

namespace Openings

variable {n : Nat} {id : LogId} {c c' : Openings n} {p : Fin n} {s' : Site} {o' : Opening}

/-- The invariant of orderly runs. -/
structure Inv (c : Openings n) (id : LogId) : Prop where
  holds : Holds (Site.Calm · id) (fun p : Fin n => Stage id p) Opening.Alone c
  unlisted : c.shared.root.isLogExist id = false → (∀ q, ¬ (c.place q).Creating) →
    c.shared.files id = none

/-- A step that changes nothing but the place of the process. -/
theorem Inv.stay (hc : c.Inv id) (hstage : Stage id p c.shared o')
    (hcreating : o'.Creating ↔ (c.place p).Creating) : Inv (c.move p c.shared o') id := by
  constructor
  · refine hc.holds.move Opening.alone_symm hc.holds.shared hstage ?_
    intro q _ hq halone
    exact ⟨hq, fun hboth => halone ⟨hcreating.mp hboth.1, hboth.2⟩⟩
  · intro hunlisted hnobody
    refine hc.unlisted hunlisted ?_
    intro q
    by_cases hq : q = p
    · subst hq
      have hself := hnobody q
      rw [c.move_self, hcreating] at hself
      exact hself
    · have hother := hnobody q
      rw [c.move_of_ne _ _ hq] at hother
      exact hother

/-- A step of the creating process: nobody else is past the beginning. -/
theorem Inv.creator (hc : c.Inv id) (hcreating : (c.place p).Creating) (hcalm : s'.Calm id)
    (hstage : Stage id p s' o')
    (hsoft : ∀ q : Fin n, q ≠ p → s'.idToLogMap q = c.shared.idToLogMap q)
    (hend : o'.Creating ∨ s'.root.isLogExist id = true) : Inv (c.move p s' o') id := by
  have hunlisted := (hc.holds.own p).unlisted hcreating
  constructor
  · refine hc.holds.move Opening.alone_symm hcalm hstage ?_
    intro q hq hqs halone
    refine ⟨hqs.while_creating hunlisted (fun h => halone ⟨hcreating, h⟩) (hsoft q hq), ?_⟩
    intro hboth
    exact halone ⟨hcreating, hboth.2⟩
  · intro hunlisted' hnobody
    rcases hend with hstill | hlisted
    · refine absurd hstill ?_
      have hself := hnobody p
      rw [c.move_self] at hself
      exact hself
    · rw [show s'.root.isLogExist id = false from hunlisted'] at hlisted
      cases hlisted

/-- A process finds the log not listed, and nobody else is creating it. -/
theorem Inv.enter (hc : c.Inv id) (hstage : Stage id p c.shared o')
    (hnobody : ∀ q, ¬ (c.place q).Creating) (hcreating : o'.Creating) :
    Inv (c.move p c.shared o') id := by
  constructor
  · refine hc.holds.move Opening.alone_symm hc.holds.shared hstage ?_
    intro q _ hq _
    exact ⟨hq, fun hboth => hnobody q hboth.2⟩
  · intro _ hnone
    have hself := hnone p
    rw [c.move_self] at hself
    exact absurd hcreating hself

/-- **One orderly step.** -/
theorem Inv.step (hc : c.Inv id) (hok : Orderly id c p)
    (h : (c.place p).step p id c.shared = some (s', o')) : Inv (c.move p s' o') id := by
  have hstage : Stage id p c.shared (c.place p) := hc.holds.own p
  have hcalm : c.shared.Calm id := hc.holds.shared
  generalize hplace : c.place p = o at h hstage
  cases hstage with
  | early hpt hsoft =>
    obtain ⟨pt', hdoes, rfl⟩ := Opening.find_step h
    rcases hpt with rfl | rfl
    · cases hdoes with
      | cached hcached =>
        rw [hsoft] at hcached
        cases hcached
      | notCached _ =>
        exact hc.stay (.early (Or.inr rfl) hsoft) (by rw [hplace]; exact Iff.rfl)
    · cases hdoes with
      | listed _ hlisted =>
        obtain ⟨l, hlog⟩ := hcalm.listed hlisted
        exact hc.stay (.found hlisted hlog) (by rw [hplace]; exact Iff.rfl)
      | unlisted _ hunlisted =>
        have hnobody : ∀ q, ¬ (c.place q).Creating := by
          refine (hok hplace).resolve_left ?_
          rw [hunlisted]
          exact Bool.false_ne_true
        have hfile := hc.unlisted hunlisted hnobody
        exact hc.enter (.making (Or.inl rfl) hunlisted hfile hsoft) hnobody trivial
  | found hlisted hlog =>
    obtain ⟨pt', hdoes, rfl⟩ := Opening.find_step h
    obtain ⟨f, hfile, hf⟩ := hlog
    cases hdoes with
    | reopened hctor =>
      obtain ⟨hsame, hopens⟩ := ctor_open hctor
      rw [Site.withFile_self hsame]
      exact hc.stay (.opened hlisted ⟨_, hsame, hopens⟩) (by rw [hplace]; exact Iff.rfl)
    | notReopened hctor =>
      rw [hfile, show Log.ctor (some f) 0 = _ from hf] at hctor
      cases hctor
  | making hpt hunlisted hfile hsoft =>
    obtain ⟨pt', hdoes, rfl⟩ := Opening.create_step h
    rcases hpt with rfl | rfl
    · cases hdoes with
      | inUse _ hlisted =>
        rw [hunlisted] at hlisted
        cases hlisted
      | unused _ _ =>
        exact hc.stay (.making (Or.inr rfl) hunlisted hfile hsoft) (by rw [hplace]; exact Iff.rfl)
    · cases hdoes with
      | made hfree hctor =>
        rename_i l f
        rw [hfile] at hctor
        have hlog : (c.shared.withFile id f).Handle id l :=
          ⟨f, Function.update_self .., (ctor_made hctor).2⟩
        refine hc.creator (by rw [hplace]; trivial) ⟨hcalm.root, hcalm.free, fun _ => ⟨l, hlog⟩⟩
          (.made hunlisted hlog hsoft) (fun _ _ => rfl) (Or.inl trivial)
      | notMade _ hctor =>
        obtain ⟨l, f, hmade, _⟩ := ctor_ok logSize (by decide)
        rw [hfile, hmade] at hctor
        cases hctor
  | made hunlisted hlog hsoft =>
    obtain ⟨pt', hdoes, rfl⟩ := Opening.create_step h
    cases hdoes with
    | remembered _ =>
      refine hc.creator (by rw [hplace]; trivial) ⟨hcalm.root, hcalm.free, hcalm.listed⟩
        (.cached hunlisted hlog ?_) ?_ (Or.inl trivial)
      · exact (update_entry c.shared.idToLogMap p id _ p id).trans (if_pos ⟨rfl, rfl⟩)
      · intro q hq
        exact Function.update_of_ne (fun heq => hq (Fin.ext heq)) ..
    | known hknown =>
      rw [hsoft] at hknown
      cases hknown
  | cached hunlisted hlog hsoft =>
    obtain ⟨pt', hdoes, rfl⟩ := Opening.create_step h
    obtain ⟨ids, hlists, hnodup⟩ := hcalm.root
    cases hdoes with
    | registered _ hadd =>
      rw [NvsRoot.addLog_ok hadd]
      have hlisted : (c.shared.root.storeId id).storeLength.isLogExist id = true :=
        (NvsRoot.isLogExist_added _ id id).mpr (Or.inr rfl)
      refine hc.creator (by rw [hplace]; trivial) ⟨⟨ids ++ [id], hlists.addLog id, ?_⟩,
        hcalm.free, fun _ => ⟨_, hlog⟩⟩ (.again hlisted hlog hsoft) (fun _ _ => rfl)
        (Or.inr hlisted)
      exact hlists.nodup_added hnodup hunlisted
    | full _ hadd =>
      rw [NvsRoot.addLog, if_pos (hlists.room hnodup hunlisted)] at hadd
      cases hadd
  | again hlisted hlog hsoft =>
    obtain ⟨pt', hdoes, rfl⟩ := Opening.findAgain_step h
    cases hdoes with
    | cached hcached =>
      rw [hsoft] at hcached
      cases hcached
      exact hc.stay (.opened hlisted hlog) (by rw [hplace]; exact Iff.rfl)
    | notCached hnone =>
      rw [hsoft] at hnone
      cases hnone
  | opened hlisted hlog => cases h

end Openings

/-! ## Somebody can go on, and not for ever -/

/-- The process is inside its call. -/
def Point.Live : Point → Prop
  | returned _ _ => False
  | stopped _ => False
  | _ => True

/-- With the mutex free, a process inside a call can execute its next step. -/
theorem Point.enabled (p : Nat) {s : Site} {pt : Point} (hfree : s.held = false) (hpt : pt.Live) :
    ∃ next, pt.step p s = some next := by
  cases pt with
  | createCheck id size =>
    cases hlisted : s.root.isLogExist id with
    | true => exact ⟨_, step_of_does (.inUse hfree hlisted)⟩
    | false => exact ⟨_, step_of_does (.unused hfree hlisted)⟩
  | createFile id size =>
    cases hctor : Log.ctor (s.files id) size with
    | error why => exact ⟨_, step_of_does (.notMade hfree hctor)⟩
    | ok r => exact ⟨_, step_of_does (.made hfree hctor)⟩
  | remember id log =>
    cases hsoft : s.idToLogMap p id with
    | none => exact ⟨_, step_of_does (.remembered hsoft)⟩
    | some log' => exact ⟨_, step_of_does (.known hsoft)⟩
  | register id =>
    cases hadd : s.root.addLog id with
    | error why => exact ⟨_, step_of_does (.full hfree hadd)⟩
    | ok root => exact ⟨_, step_of_does (.registered hfree hadd)⟩
  | findSoft id =>
    cases hsoft : s.idToLogMap p id with
    | none => exact ⟨_, step_of_does (.notCached hsoft)⟩
    | some log => exact ⟨_, step_of_does (.cached hsoft)⟩
  | findCheck id =>
    cases hlisted : s.root.isLogExist id with
    | true => exact ⟨_, step_of_does (.listed hfree hlisted)⟩
    | false => exact ⟨_, step_of_does (.unlisted hfree hlisted)⟩
  | findOpen id =>
    cases hctor : Log.ctor (s.files id) 0 with
    | error why => exact ⟨_, step_of_does (.notReopened hctor)⟩
    | ok r => exact ⟨_, step_of_does (.reopened hctor)⟩
  | returned ret log => exact hpt.elim
  | stopped why => exact hpt.elim

/-- How many steps a call has left at most. -/
def Point.left : Point → Nat
  | createCheck _ _ => 4
  | createFile _ _ => 3
  | remember _ _ => 2
  | register _ => 1
  | findSoft _ => 3
  | findCheck _ => 2
  | findOpen _ => 1
  | returned _ _ => 0
  | stopped _ => 0

theorem Point.Does.left_lt {p : Nat} {s s' : Site} {pt pt' : Point} (h : pt.Does p s s' pt') :
    pt'.left < pt.left := by
  cases h <;> simp only [Point.left] <;> omega

namespace Opening

/-- How many steps a constructor has left at most. -/
def left : Opening → Nat
  | find pt => 7 + pt.left
  | create pt => 3 + pt.left
  | findAgain pt => pt.left
  | opened _ => 0
  | stopped _ => 0

theorem left_afterFind (id : LogId) (pt : Point) : (afterFind id pt).left ≤ 7 + pt.left := by
  cases pt with
  | returned ret log =>
    rw [afterFind]
    split
    · exact Nat.le_refl 7
    · exact Nat.zero_le _
  | stopped why => exact Nat.zero_le _
  | _ => exact Nat.le_refl _

theorem left_afterCreate (id : LogId) (pt : Point) : (afterCreate id pt).left ≤ 3 + pt.left := by
  cases pt with
  | returned ret log =>
    rw [afterCreate]
    split
    · exact Nat.le_refl 3
    · exact Nat.zero_le _
  | stopped why => exact Nat.zero_le _
  | _ => exact Nat.le_refl _

theorem left_afterFindAgain (pt : Point) : (afterFindAgain pt).left ≤ pt.left := by
  cases pt with
  | returned ret log =>
    rw [afterFindAgain]
    split
    · exact Nat.le_refl 0
    · exact Nat.zero_le _
  | stopped why => exact Nat.zero_le _
  | _ => exact Nat.le_refl _

/-- Every step of the constructor is a step of one of its calls. -/
theorem step_does {id : LogId} {p : Nat} {s s' : Site} {o o' : Opening}
    (h : o.step p id s = some (s', o')) : (∃ pt pt' : Point, pt.Does p s s' pt') ∧
    o'.left < o.left := by
  cases o with
  | find pt =>
    obtain ⟨pt', hdoes, rfl⟩ := find_step h
    refine ⟨⟨pt, pt', hdoes⟩, Nat.lt_of_le_of_lt (left_afterFind id pt') ?_⟩
    exact Nat.add_lt_add_left hdoes.left_lt 7
  | create pt =>
    obtain ⟨pt', hdoes, rfl⟩ := create_step h
    refine ⟨⟨pt, pt', hdoes⟩, Nat.lt_of_le_of_lt (left_afterCreate id pt') ?_⟩
    exact Nat.add_lt_add_left hdoes.left_lt 3
  | findAgain pt =>
    obtain ⟨pt', hdoes, rfl⟩ := findAgain_step h
    exact ⟨⟨pt, pt', hdoes⟩, Nat.lt_of_le_of_lt (left_afterFindAgain pt') hdoes.left_lt⟩
  | opened log => cases h
  | stopped why => cases h

end Opening

theorem Stage.enabled {id : LogId} {p : Nat} {s : Site} {o : Opening} (h : Stage id p s o)
    (hfree : s.held = false) (hopen : ∀ log, o ≠ .opened log) :
    ∃ next, o.step p id s = some next := by
  have hlive : ∀ pt : Point, pt.Live → ∀ after : Point → Opening,
      ∃ next, (pt.step p s).map (fun r => (r.1, after r.2)) = some next := by
    intro pt hpt after
    obtain ⟨next, hstep⟩ := Point.enabled p hfree hpt
    rw [hstep]
    exact ⟨_, rfl⟩
  cases h with
  | early hpt _ =>
    rcases hpt with rfl | rfl
    · exact hlive (.findSoft id) trivial (Opening.afterFind id)
    · exact hlive (.findCheck id) trivial (Opening.afterFind id)
  | found _ _ => exact hlive (.findOpen id) trivial (Opening.afterFind id)
  | making hpt _ _ _ =>
    rcases hpt with rfl | rfl
    · exact hlive (.createCheck id logSize) trivial (Opening.afterCreate id)
    · exact hlive (.createFile id logSize) trivial (Opening.afterCreate id)
  | made _ _ _ => exact hlive (.remember id _) trivial (Opening.afterCreate id)
  | cached _ _ _ => exact hlive (.register id) trivial (Opening.afterCreate id)
  | again _ _ _ => exact hlive (.findSoft id) trivial Opening.afterFindAgain
  | opened _ _ => exact absurd rfl (hopen _)

namespace Openings

variable {n : Nat} {id : LogId} {c c' : Openings n} {p : Fin n} {s' : Site} {o' : Opening}

/-- **Progress.**  As long as somebody has no handle, somebody can go on in an orderly way. -/
theorem Inv.progress (hc : c.Inv id) (hp : ∀ log, c.place p ≠ .opened log) :
    ∃ c', Step id (Orderly id) c c' := by
  have hgo : ∀ q, Orderly id c q → (∀ log, c.place q ≠ .opened log) →
      ∃ c', Step id (Orderly id) c c' := by
    intro q hok hq
    obtain ⟨next, hstep⟩ := (hc.holds.own q).enabled hc.holds.shared.free hq
    exact ⟨_, .run hok hstep⟩
  by_cases hok : Orderly id c p
  · exact hgo p hok hp
  · -- `p` has to wait for a creating process, which has no check to make
    rw [Orderly, Classical.not_imp, not_or, not_forall] at hok
    obtain ⟨_, _, q, hq⟩ := hok
    rw [not_not] at hq
    refine hgo q ?_ ?_
    · intro hplace
      rw [hplace] at hq
      exact hq.elim
    · intro log hplace
      rw [hplace] at hq
      exact hq.elim

end Openings

/-! ## One disorderly check -/

/-- About to create a file for `id`. -/
def Opening.Unmade (id : LogId) (o : Opening) : Prop :=
  o = .create (.createCheck id logSize) ∨ o = .create (.createFile id logSize)

/-- A creating process has made its file, or is about to. -/
theorem Stage.creating_cases {id : LogId} {p : Nat} {s : Site} {o : Opening}
    (h : Stage id p s o) (hcreating : o.Creating) : o.Unmade id ∨ s.files id ≠ none := by
  have hthere : ∀ l, s.Handle id l → s.files id ≠ none := by
    rintro l ⟨f, hfile, _⟩
    rw [hfile]
    exact Option.some_ne_none f
  cases h with
  | making hpt _ _ _ =>
    rcases hpt with rfl | rfl
    · exact Or.inl (Or.inl rfl)
    · exact Or.inl (Or.inr rfl)
  | made _ hlog _ => exact Or.inr (hthere _ hlog)
  | cached _ hlog _ => exact Or.inr (hthere _ hlog)
  | early _ _ => exact hcreating.elim
  | found _ _ => exact hcreating.elim
  | again _ _ _ => exact hcreating.elim
  | opened _ _ => exact hcreating.elim

/-- A file that is there stays there. -/
theorem Point.Does.files {p : Nat} {s s' : Site} {pt pt' : Point} {id : LogId}
    (h : pt.Does p s s' pt') (hfile : s.files id ≠ none) : s'.files id ≠ none := by
  have hwith : ∀ (id' : LogId) (f : File), (s.withFile id' f).files id ≠ none := by
    intro id' f
    by_cases heq : id = id'
    · subst heq
      rw [show (s.withFile id f).files id = some f from Function.update_self ..]
      exact Option.some_ne_none f
    · rw [show (s.withFile id' f).files id = s.files id from Function.update_of_ne heq ..]
      exact hfile
  cases h with
  | made _ _ => exact hwith _ _
  | reopened _ => exact hwith _ _
  | _ => exact hfile

/-- A process about to create the file stops, stays there, or makes the file. -/
theorem Opening.Unmade.step {id : LogId} {p : Nat} {s s' : Site} {o o' : Opening}
    (ho : o.Unmade id) (h : o.step p id s = some (s', o')) :
    (∃ why, o' = .stopped why) ∨ (o'.Unmade id ∧ s' = s) ∨
      (s.files id = none ∧ s'.files id ≠ none) := by
  rcases ho with rfl | rfl
  · obtain ⟨pt', hdoes, rfl⟩ := Opening.create_step h
    cases hdoes with
    | inUse _ _ => exact Or.inl ⟨.exit, rfl⟩
    | unused _ _ => exact Or.inr (Or.inl ⟨Or.inr rfl, rfl⟩)
  · obtain ⟨pt', hdoes, rfl⟩ := Opening.create_step h
    cases hdoes with
    | notMade _ _ => exact Or.inl ⟨_, rfl⟩
    | made hfree hctor =>
      rename_i l f
      cases hfile : s.files id with
      | some f₀ =>
        rw [hfile, ctor_exists f₀ (by decide)] at hctor
        cases hctor
      | none =>
        refine Or.inr (Or.inr ⟨rfl, ?_⟩)
        rw [show (s.withFile id f).files id = some f from Function.update_self ..]
        exact Option.some_ne_none f

namespace Openings

variable {n : Nat} {id : LogId} {c c' : Openings n} {p : Fin n} {s' : Site} {o' : Opening}

/-- A process has stopped, or is going to create a file that is there or that another one is going
    to create, too. -/
def Doomed (id : LogId) (c : Openings n) : Prop :=
  (∃ p why, c.place p = .stopped why) ∨
  ∃ p, (c.place p).Unmade id ∧
    (c.shared.files id ≠ none ∨ ∃ q, q ≠ p ∧ (c.place q).Unmade id)

theorem Doomed.step {ok : Openings n → Fin n → Prop} (hc : c.Doomed id) (h : Step id ok c c') :
    c'.Doomed id := by
  cases h with | run hok h => ?_
  rename_i r s' o'
  obtain ⟨⟨pt, pt', hdoes⟩, _⟩ := Opening.step_does h
  have hself : (c.move r s' o').place r = o' := c.move_self r s' o'
  have hother : ∀ q, q ≠ r → (c.move r s' o').place q = c.place q :=
    fun q hq => c.move_of_ne s' o' hq
  rcases hc with ⟨p, why, hp⟩ | ⟨p, hp, hcause⟩
  · -- a stopped process makes no step
    have hne : p ≠ r := by
      intro heq
      rw [← heq, hp] at h
      cases h
    exact Or.inl ⟨p, why, (hother p hne).trans hp⟩
  · by_cases hr : r = p
    · subst hr
      rcases hp.step h with ⟨why, rfl⟩ | ⟨hstill, rfl⟩ | ⟨hnone, hfile⟩
      · exact Or.inl ⟨r, why, hself⟩
      · refine Or.inr ⟨r, hself.symm ▸ hstill, ?_⟩
        rcases hcause with hfile | ⟨q, hq, hunmade⟩
        · exact Or.inl hfile
        · exact Or.inr ⟨q, hq, (hother q hq).symm ▸ hunmade⟩
      · -- the other one comes too late
        obtain ⟨q, hq, hunmade⟩ := hcause.resolve_left (not_not_intro hnone)
        exact Or.inr ⟨q, (hother q hq).symm ▸ hunmade, Or.inl hfile⟩
    · have hp' := hother p (Ne.symm hr)
      rcases hcause with hfile | ⟨q, hq, hunmade⟩
      · exact Or.inr ⟨p, hp'.symm ▸ hp, Or.inl (hdoes.files hfile)⟩
      · by_cases hqr : q = r
        · subst hqr
          rcases hunmade.step h with ⟨why, rfl⟩ | ⟨hstill, rfl⟩ | ⟨_, hfile⟩
          · exact Or.inl ⟨q, why, hself⟩
          · exact Or.inr ⟨p, hp'.symm ▸ hp, Or.inr ⟨q, hq, hself.symm ▸ hstill⟩⟩
          · exact Or.inr ⟨p, hp'.symm ▸ hp, Or.inl hfile⟩
        · exact Or.inr ⟨p, hp'.symm ▸ hp, Or.inr ⟨q, hq, (hother q hqr).symm ▸ hunmade⟩⟩

/-- Somebody in a doomed system has no handle. -/
theorem Doomed.not_all_opened (hc : c.Doomed id) : ∃ q, ∀ log, c.place q ≠ .opened log := by
  rcases hc with ⟨p, why, hp⟩ | ⟨p, hp, _⟩
  · refine ⟨p, fun log h => ?_⟩
    rw [hp] at h
    cases h
  · refine ⟨p, fun log h => ?_⟩
    rw [h] at hp
    rcases hp with hp | hp <;> cases hp

/-- A check out of order dooms the system. -/
theorem Inv.doomed (hc : c.Inv id) (hok : ¬ Orderly id c p)
    (h : (c.place p).step p id c.shared = some (s', o')) : Doomed id (c.move p s' o') := by
  rw [Orderly, Classical.not_imp, not_or, not_forall] at hok
  obtain ⟨hplace, hunlisted, q, hq⟩ := hok
  rw [not_not] at hq
  have hne : q ≠ p := by
    intro heq
    rw [heq, hplace] at hq
    exact hq.elim
  rw [hplace] at h
  obtain ⟨pt', hdoes, rfl⟩ := Opening.find_step h
  cases hdoes with
  | listed _ hlisted => exact absurd hlisted hunlisted
  | unlisted _ _ =>
    refine Or.inr ⟨p, Or.inl (c.move_self p _ _), ?_⟩
    rcases (hc.holds.own q).creating_cases hq with hunmade | hfile
    · refine Or.inr ⟨q, hne, ?_⟩
      rw [c.move_of_ne _ _ hne]
      exact hunmade
    · exact Or.inl hfile

theorem Start.inv (hc : c.Start id) : c.Inv id := by
  have hnot : ∀ p, ¬ (c.place p).Creating := by
    intro p
    rw [hc.place p]
    exact fun h => h
  refine ⟨⟨⟨hc.ready.root, hc.free, hc.ready.listed⟩, ?_, ?_⟩, ?_⟩
  · intro p
    rw [hc.place p]
    exact .early (Or.inl rfl) (hc.soft p)
  · intro p q _
    exact Opening.alone_of_not (hnot p) _
  · intro hunlisted _
    exact hc.ready.unlisted hunlisted

theorem Step.inv (h : Step id (Orderly id) c c') (hc : c.Inv id) : c'.Inv id := by
  cases h with
  | run hok h => exact hc.step hok h

theorem Step.left_lt {ok : Openings n → Fin n → Prop} (h : Step id ok c c') :
    c'.left Opening.left < c.left Opening.left := by
  cases h with
  | run hok h => exact c.left_move (Opening.step_does h).2 _

/-- A process that goes on alone is a run. -/
theorem run_alone {k : Nat} (h : drive (Opening.step p id) k c.shared (c.place p) = (s', o')) :
    Relation.ReflTransGen (Step id (fun _ _ => True)) c (c.move p s' o') :=
  drive_run (fun h => .run trivial h) h

theorem Start.left (hc : c.Start id) : c.left Opening.left = 10 * n := by
  have hten : ∀ p : Fin n, (c.place p).left = 10 := by
    intro p
    rw [hc.place p]
    rfl
  rw [Pool.left, Finset.sum_const_nat (fun p _ => hten p), Finset.card_univ, Fintype.card_fin,
    Nat.mul_comm]

end Openings

/-- **Concurrent opening of one log.**  In every orderly run no process stops, the mutex is free
    between steps, whoever has finished holds a handle on the one log file, the others can go on,
    and after `10 * n` steps at the latest everybody has finished.  After one disorderly check, no
    continuation brings everybody to a handle. -/
theorem concurrent_opening {n : Nat} {id : LogId} {c₀ : Openings n} (h₀ : c₀.Start id) :
    (∀ c, Relation.ReflTransGen (Openings.Step id (Openings.Orderly id)) c₀ c →
      c.shared.held = false ∧ (∀ p why, c.place p ≠ .stopped why) ∧
      (∀ p log, c.place p = .opened log →
        ∃ l f, log = some l ∧ c.shared.files id = some f ∧ Log.ctor (some f) 0 = .ok (l, f)) ∧
      ((∀ p, ∃ log, c.place p = .opened log) ∨
        ∃ c', Openings.Step id (Openings.Orderly id) c c')) ∧
    (∀ k c, Runs.Steps (Openings.Step id (Openings.Orderly id)) k c₀ c → k ≤ 10 * n) ∧
    (∀ c c' p s' o', Relation.ReflTransGen (Openings.Step id (Openings.Orderly id)) c₀ c →
      ¬ Openings.Orderly id c p → (c.place p).step p id c.shared = some (s', o') →
      Relation.ReflTransGen (Openings.Step id (fun _ _ => True)) (c.move p s' o') c' →
      ∃ q, ∀ log, c'.place q ≠ .opened log) := by
  have hinv : ∀ c, Relation.ReflTransGen (Openings.Step id (Openings.Orderly id)) c₀ c →
      c.Inv id :=
    fun c hrun => Runs.invariant (P := fun c => c.Inv id) Openings.Step.inv hrun h₀.inv
  refine ⟨?_, ?_, ?_⟩
  · intro c hrun
    have hc := hinv c hrun
    refine ⟨hc.holds.shared.free, ?_, ?_, ?_⟩
    · intro p why hp
      have hstage := hc.holds.own p
      rw [hp] at hstage
      cases hstage
    · intro p log hp
      have hstage := hc.holds.own p
      rw [hp] at hstage
      cases hstage with
      | opened _ hlog =>
        obtain ⟨f, hfile, hf⟩ := hlog
        exact ⟨_, f, rfl, hfile, hf⟩
    · by_cases hall : ∀ p, ∃ log, c.place p = .opened log
      · exact Or.inl hall
      · rw [not_forall] at hall
        obtain ⟨p, hp⟩ := hall
        exact Or.inr (hc.progress (not_exists.mp hp))
  · intro k c hrun
    have hle := hrun.le (fun h => Openings.Step.left_lt h)
    rw [h₀.left] at hle
    omega
  · intro c c' p s' o' hrun hok h hrest
    have hdoomed := (hinv c hrun).doomed hok h
    exact (Runs.invariant (fun h hc => Openings.Doomed.step hc h) hrest hdoomed).not_all_opened

/-- Two processes, both about to open log 0, on a machine with no log. -/
def twoOpenings : Openings 2 := ⟨Directory.formatted.shared, fun _ => Opening.start 0⟩

theorem start_twoOpenings : twoOpenings.Start 0 := by
  refine ⟨⟨⟨[], rfl, List.nodup_nil⟩, ?_, fun _ => rfl⟩, rfl, fun _ => rfl, fun _ => rfl⟩
  intro h
  cases h

theorem concurrent_opening_two : twoOpenings.Start 0 ∧
    ∀ k c, Runs.Steps (Openings.Step 0 (Openings.Orderly 0)) k twoOpenings c → k ≤ 20 :=
  ⟨start_twoOpenings, (concurrent_opening start_twoOpenings).2.1⟩

/-- **Two creators.**  Both processes find the log missing, the first one makes its file, and the
    second one exits on that file with the mutex locked; the first can then never register its
    log. -/
theorem two_creators : ∃ c,
    Relation.ReflTransGen (Openings.Step 0 (fun _ _ => True)) twoOpenings c ∧
    c.place 1 = .stopped .exit ∧ c.shared.held = true ∧ c.place 0 = .create (.register 0) ∧
    ∀ p, (c.place p).step p 0 c.shared = none := by
  obtain ⟨l, f, hctor, _⟩ := ctor_ok logSize (by decide)
  let s₁ := twoOpenings.shared.withFile 0 f
  let making : Opening := .create (.createFile 0 logSize)
  -- both see that the log is not listed
  let c₁ := twoOpenings.move 0 twoOpenings.shared making
  have h₁ : Relation.ReflTransGen _ twoOpenings c₁ := Openings.run_alone (k := 3) rfl
  let c₂ := c₁.move 1 twoOpenings.shared making
  have h₂ : Relation.ReflTransGen _ c₁ c₂ := Openings.run_alone (k := 3) rfl
  -- the first makes the file, the second fails on it
  let c₃ := c₂.move 0 s₁ (.create (.remember 0 l))
  have hmade : making.step 0 0 twoOpenings.shared = some (s₁, .create (.remember 0 l)) :=
    Opening.create_does (.made rfl hctor)
  have h₃ : Openings.Step 0 (fun _ _ => True) c₂ c₃ := .run trivial hmade
  let c₄ := c₃.move 1 s₁.abandoned (.stopped .exit)
  have hfails : making.step 1 0 s₁ = some (s₁.abandoned, .stopped .exit) :=
    Opening.create_does (.notMade rfl (ctor_exists f (by decide)))
  have h₄ : Openings.Step 0 (fun _ _ => True) c₃ c₄ := .run trivial hfails
  -- the first one does not get past the mutex
  let c₅ := c₄.move 0 (s₁.abandoned.withSoft 0 0 l) (.create (.register 0))
  have h₅ : Openings.Step 0 (fun _ _ => True) c₄ c₅ := .run trivial rfl
  refine ⟨c₅, (h₁.trans h₂).tail h₃ |>.tail h₄ |>.tail h₅, rfl, rfl, rfl, ?_⟩
  exact Fin.forall_fin_two.mpr ⟨rfl, rfl⟩

end NvStream
