/-
  A parallel application starts again: when does that work?

  `NvStream.Directory.Launch` starts from a directory in order.  Here it may hold anything that an
  earlier start, killed at some moment, or a new root has left behind.  For the log of a rank there
  are four cases:

      listed, can be opened      the rank opens it
      not listed, no file        the rank creates it
      listed, cannot be opened   the rank exits
      not listed, but a file     the rank exits INSIDE the critical section, and nobody gets the
                                 mutex any more

  A launch works, in every interleaving, exactly if every log is in one of the first two cases
  (`Site.CanOpen`); in the last one it may happen that no rank at all gets its store.  And the last
  case is what a kill between the creation of a file and its registration leaves behind.  The scripts
  remove the files before every start; a locked mutex they do not remove.

  A rank that cannot open its log is followed by itself (`Lost`), whatever the others do: their steps
  are about their own logs (`Opening.About`).  As in `NvStream.Directory.Launch`, the segment of the
  named mutexes is left out here.
-/
import NvStream.Directory.Launch
import NvStream.Directory.Crash

namespace NvStream

open FlatMem LittleEndian LoadProg PersistTrace Interleave

/-! ## What a step leaves alone, wherever the process is -/

/-- The constructor is in a call about log `id`, or behind all calls. -/
def Opening.About (id : LogId) : Opening → Prop
  | find pt => pt.log? = some id
  | create pt => pt.log? = some id
  | findAgain pt => pt.log? = some id
  | opened _ => True
  | stopped _ => True

section
variable {id : LogId} {p : Nat} {s s' : Site} {pt pt' : Point} {o o' : Opening}

/-- A call stays with its log. -/
theorem Point.Does.log?_eq (h : pt.Does p s s' pt') (hid : pt.log? = some id) :
    pt'.log? = some id ∨ pt'.log? = none := by
  cases h <;> simp_all [Point.log?]

/-- A locked mutex stays locked. -/
theorem Point.Does.held (h : pt.Does p s s' pt') (hheld : s.held = true) : s'.held = true := by
  cases h <;> first | exact hheld | rfl

namespace Opening

theorem about_afterFind (h : pt.log? = some id ∨ pt.log? = none) : (afterFind id pt).About id := by
  cases pt with
  | returned ret log =>
    rw [afterFind]
    split
    · rfl
    · trivial
  | stopped why => trivial
  | _ => exact h.resolve_right (fun hnone => by cases hnone)

theorem about_afterCreate (h : pt.log? = some id ∨ pt.log? = none) :
    (afterCreate id pt).About id := by
  cases pt with
  | returned ret log =>
    rw [afterCreate]
    split
    · rfl
    · trivial
  | stopped why => trivial
  | _ => exact h.resolve_right (fun hnone => by cases hnone)

theorem about_afterFindAgain (h : pt.log? = some id ∨ pt.log? = none) :
    (afterFindAgain pt).About id := by
  cases pt with
  | returned ret log =>
    rw [afterFindAgain]
    split
    · trivial
    · trivial
  | stopped why => trivial
  | _ => exact h.resolve_right (fun hnone => by cases hnone)

/-- What a step of the constructor comes down to: a step of a call about its log. -/
theorem About.does (ho : o.About id) (h : o.step p id s = some (s', o')) :
    o'.About id ∧ ∃ pt pt' : Point, pt.log? = some id ∧ pt.Does p s s' pt' := by
  cases o with
  | find pt =>
    obtain ⟨pt', hdoes, rfl⟩ := find_step h
    exact ⟨about_afterFind (hdoes.log?_eq ho), pt, pt', ho, hdoes⟩
  | create pt =>
    obtain ⟨pt', hdoes, rfl⟩ := create_step h
    exact ⟨about_afterCreate (hdoes.log?_eq ho), pt, pt', ho, hdoes⟩
  | findAgain pt =>
    obtain ⟨pt', hdoes, rfl⟩ := findAgain_step h
    exact ⟨about_afterFindAgain (hdoes.log?_eq ho), pt, pt', ho, hdoes⟩
  | opened log => cases h
  | stopped why => cases h

end Opening

/-! ## A rank that cannot open its log -/

/-- The log is listed and cannot be opened, or is not listed and has a file. -/
structure Site.Barred (s : Site) (id : LogId) : Prop where
  listed : s.root.isLogExist id = true → ∀ l, ¬ s.Handle id l
  unlisted : s.root.isLogExist id = false → s.files id ≠ none

/-- In a directory that lists every log once there is a place for a log it does not list. -/
theorem Site.barred_of_not_canOpen (hroot : ∃ ids : List LogId, s.root.Lists ids ∧ ids.Nodup)
    (h : ¬ s.CanOpen id) : s.Barred id := by
  obtain ⟨ids, hlists, hnodup⟩ := hroot
  constructor
  · intro hlisted l hl
    exact h (Or.inl ⟨hlisted, l, hl⟩)
  · intro hunlisted hnone
    exact h (Or.inr ⟨hunlisted, hnone, hlists.room hnodup hunlisted⟩)

theorem Site.Barred.congr (h : s.Barred id) (hsame : Site.SameLog id s s') : s'.Barred id := by
  constructor
  · rintro hlisted l ⟨f, hf, hopens⟩
    exact h.listed (hsame.listed.symm.trans hlisted) l ⟨f, hsame.files.symm.trans hf, hopens⟩
  · intro hunlisted hnone
    exact h.unlisted (hsame.listed.symm.trans hunlisted) (hsame.files.symm.trans hnone)

/-- Where a process can be that cannot open its log.  If it ended over a leftover file, it took the
    mutex with it. -/
inductive Lost (id : LogId) (p : Nat) (s : Site) : Opening → Prop
  | early {pt : Point} (hpt : pt = .findSoft id ∨ pt = .findCheck id)
      (hsoft : s.idToLogMap p id = none) : Lost id p s (.find pt)
  | broken (hlisted : s.root.isLogExist id = true) : Lost id p s (.find (.findOpen id))
  | leftover {pt : Point} (hpt : pt = .createCheck id logSize ∨ pt = .createFile id logSize)
      (hunlisted : s.root.isLogExist id = false) : Lost id p s (.create pt)
  | stopped {why : Stop} (hheld : s.root.isLogExist id = false → s.held = true) :
      Lost id p s (.stopped why)

/-- **A step of the process itself**: it changes nothing of its log, and gets nowhere. -/
theorem Lost.step (h : Lost id p s o) (hb : s.Barred id) (hstep : o.step p id s = some (s', o')) :
    Lost id p s' o' ∧ Site.SameLog id s s' := by
  cases h with
  | early hpt hsoft =>
    obtain ⟨pt', hdoes, rfl⟩ := Opening.find_step hstep
    rcases hpt with rfl | rfl
    · cases hdoes with
      | cached hcached =>
        rw [hsoft] at hcached
        cases hcached
      | notCached _ => exact ⟨.early (Or.inr rfl) hsoft, .refl id _⟩
    · cases hdoes with
      | listed _ hlisted => exact ⟨.broken hlisted, .refl id _⟩
      | unlisted _ hunlisted => exact ⟨.leftover (Or.inl rfl) hunlisted, .refl id _⟩
  | broken hlisted =>
    obtain ⟨pt', hdoes, rfl⟩ := Opening.find_step hstep
    cases hdoes with
    | reopened hctor =>
      obtain ⟨hfile, hopens⟩ := ctor_open hctor
      exact absurd ⟨_, hfile, hopens⟩ (hb.listed hlisted _)
    | notReopened _ =>
      refine ⟨.stopped (fun hunlisted => ?_), .refl id _⟩
      rw [hlisted] at hunlisted
      cases hunlisted
  | leftover hpt hunlisted =>
    obtain ⟨pt', hdoes, rfl⟩ := Opening.create_step hstep
    rcases hpt with rfl | rfl
    · cases hdoes with
      | inUse _ hlisted =>
        rw [hunlisted] at hlisted
        cases hlisted
      | unused _ _ => exact ⟨.leftover (Or.inr rfl) hunlisted, .refl id _⟩
    · cases hdoes with
      | made _ hctor =>
        obtain ⟨f, hfile⟩ := Option.ne_none_iff_exists'.mp (hb.unlisted hunlisted)
        rw [hfile, ctor_exists f (by decide)] at hctor
        cases hctor
      | notMade _ _ => exact ⟨.stopped (fun _ => rfl), ⟨rfl, rfl⟩⟩
  | stopped _ => cases hstep

/-- Steps of others do not concern it. -/
theorem Lost.frame (h : Lost id p s o) (hsame : Site.SameLog id s s')
    (hsoft : s'.idToLogMap p id = s.idToLogMap p id) (hheld : s.held = true → s'.held = true) :
    Lost id p s' o := by
  cases h with
  | early hpt hnone => exact .early hpt (hsoft.trans hnone)
  | broken hlisted => exact .broken (hsame.listed.trans hlisted)
  | leftover hpt hunlisted => exact .leftover hpt (hsame.listed.trans hunlisted)
  | stopped hlocked => exact .stopped (fun hun => hheld (hlocked (hsame.listed.symm.trans hun)))

/-- Over a leftover file it goes on until it takes the mutex with it. -/
theorem Lost.held (h : Lost id p s o) (hunlisted : s.root.isLogExist id = false)
    (hend : o.step p id s = none) : s.held = true := by
  by_contra hfree
  rw [Bool.not_eq_true] at hfree
  have hlive : ∀ pt : Point, pt.Live → ∀ after : Point → Opening,
      (pt.step p s).map (fun r => (r.1, after r.2)) ≠ none := by
    intro pt hpt after
    obtain ⟨next, hnext⟩ := Point.enabled p hfree hpt
    rw [hnext]
    exact Option.some_ne_none _
  cases h with
  | early hpt _ =>
    rcases hpt with rfl | rfl
    · exact hlive (.findSoft id) trivial (Opening.afterFind id) hend
    · exact hlive (.findCheck id) trivial (Opening.afterFind id) hend
  | broken hlisted =>
    rw [hunlisted] at hlisted
    cases hlisted
  | leftover hpt _ =>
    rcases hpt with rfl | rfl
    · exact hlive (.createCheck id logSize) trivial (Opening.afterCreate id) hend
    · exact hlive (.createFile id logSize) trivial (Opening.afterCreate id) hend
  | stopped hlocked =>
    rw [hlocked hunlisted] at hfree
    cases hfree

end

/-! ## The system -/

namespace Launch

variable {n : Nat}

/-- The ranks are about to construct their stores, on whatever log files there are.  The root lists
    no log twice, and nobody holds the mutex. -/
structure Begin (name : List Byte) (c : Openings n) : Prop where
  root : ∃ ids : List LogId, c.shared.root.Lists ids ∧ ids.Nodup
  free : c.shared.held = false
  soft : ∀ (p : Fin n) id, c.shared.idToLogMap p id = none
  place : ∀ p : Fin n, ∃ id, logIdOf (rankStore name p) = .ok id ∧ c.place p = Opening.start id

/-- Nobody can execute a step. -/
def Ended (name : List Byte) (c : Openings n) : Prop := ∀ c', ¬ Step name c c'

/-- However the launch goes, in the end every rank has its handle. -/
def Works (name : List Byte) (c₀ : Openings n) : Prop :=
  ∀ c, Relation.ReflTransGen (Step name) c₀ c → Ended name c →
    ∀ p, ∃ l, c.place p = .opened (some l)

/-- Rank `p` is shut out: its log is as it was, and it will not open it. -/
structure ShutOut (p : Fin n) (c₀ c : Openings n) : Prop where
  about : ∀ q : Fin n, (c.place q).About (rankLog q)
  same : Site.SameLog (rankLog p) c₀.shared c.shared
  lost : Lost (rankLog p) p c.shared (c.place p)

section
variable {name : List Byte} {c₀ c c' : Openings n} {p : Fin n}

theorem Begin.start (hname : 47 ∉ name) (hn : n ≤ 256) (hc : Begin name c) (p : Fin n) :
    c.place p = Opening.start (rankLog p) := by
  obtain ⟨id, hid, hp⟩ := hc.place p
  rw [hp, eq_rankLog hname hn hid]

/-- **One step, for a rank that is shut out.** -/
theorem ShutOut.step (hname : 47 ∉ name) (hn : n ≤ 256) (hb : c₀.shared.Barred (rankLog p))
    (h : Step name c c') (hc : ShutOut p c₀ c) : ShutOut p c₀ c' := by
  obtain ⟨hid, h⟩ := h
  rename_i q id s' o'
  obtain rfl := eq_rankLog hname hn hid
  obtain ⟨habout, pt, pt', hlog, hdoes⟩ := (hc.about q).does h
  have hothers : ∀ r : Fin n, ((c.move q s' o').place r).About (rankLog r) :=
    c.forall_move (P := fun r o => o.About (rankLog r)) q s' o' habout (fun r _ => hc.about r)
  by_cases hq : p = q
  · subst hq
    obtain ⟨hlost, hsame⟩ := hc.lost.step (hb.congr hc.same) h
    refine ⟨hothers, hc.same.trans hsame, ?_⟩
    rw [c.move_self]
    exact hlost
  · obtain ⟨hlogs, hsoft⟩ := hdoes.frame hlog
    have hne : rankLog p ≠ rankLog q :=
      fun heq => hq (Fin.ext (rankLog_inj (by omega) (by omega) heq))
    refine ⟨hothers, hc.same.trans (hlogs _ hne), ?_⟩
    rw [c.move_of_ne _ _ hq]
    exact hc.lost.frame (hlogs _ hne) (hsoft _ _ (Or.inr hne)) hdoes.held

theorem Begin.shutOut (hname : 47 ∉ name) (hn : n ≤ 256) (hc : Begin name c) (p : Fin n) :
    ShutOut p c c := by
  refine ⟨fun q => ?_, .refl _ _, ?_⟩
  · rw [hc.start hname hn q]
    rfl
  · rw [hc.start hname hn p]
    exact .early (Or.inl rfl) (hc.soft p _)

theorem Begin.shutOut_run (hname : 47 ∉ name) (hn : n ≤ 256) (hc₀ : Begin name c₀)
    (hcan : ¬ c₀.shared.CanOpen (rankLog p)) (hrun : Relation.ReflTransGen (Step name) c₀ c) :
    ShutOut p c₀ c :=
  Runs.invariant (P := fun c => ShutOut p c₀ c)
    (fun h hc => hc.step hname hn (Site.barred_of_not_canOpen hc₀.root hcan) h) hrun
    (hc₀.shutOut hname hn p)

/-- It never has a handle. -/
theorem ShutOut.not_opened (hc : ShutOut p c₀ c) (log : Option Log) : c.place p ≠ .opened log := by
  intro hp
  have hlost := hc.lost
  rw [hp] at hlost
  cases hlost

/-- The directory in order, as far as the ranks go. -/
theorem Begin.inv (hname : 47 ∉ name) (hn : n ≤ 256) (hc : Begin name c)
    (hcan : ∀ p : Fin n, c.shared.CanOpen (rankLog p)) : Inv c c := by
  refine ⟨hc.root, hc.free, ?_, ?_, ?_, fun p q _ => hc.soft q _, fun id _ => .refl id _⟩
  · intro p
    rw [hc.start hname hn p]
    exact .early (Or.inl rfl) (hc.soft p _)
  · intro p hlisted
    rcases hcan p with ⟨_, hl⟩ | ⟨hunlisted, _⟩
    · exact hl
    · rw [hlisted] at hunlisted
      cases hunlisted
  · intro p hunlisted _
    rcases hcan p with ⟨hlisted, _⟩ | ⟨_, hnone, _⟩
    · rw [hunlisted] at hlisted
      cases hlisted
    · exact hnone

/-- Every launch comes to an end. -/
theorem exists_ended (name : List Byte) (c₀ : Openings n) :
    ∃ c, Relation.ReflTransGen (Step name) c₀ c ∧ Ended name c :=
  Runs.exists_end (fun h => Step.left_lt h) c₀

/-- **When a launch works.** -/
theorem Begin.works_iff (hname : 47 ∉ name) (hn : n ≤ 256) (hc₀ : Begin name c₀) :
    Works name c₀ ↔ ∀ p : Fin n, c₀.shared.CanOpen (rankLog p) := by
  constructor
  · intro hworks p
    by_contra hcan
    -- some run comes to an end, and there `p` has no handle
    obtain ⟨c, hrun, hend⟩ := exists_ended name c₀
    obtain ⟨l, hp⟩ := hworks c hrun hend p
    exact (hc₀.shutOut_run hname hn hcan hrun).not_opened _ hp
  · intro hcan c hrun hend p
    have hc : Inv c₀ c := Runs.invariant (P := fun c => Inv c₀ c)
      (fun h hc => h.inv hname hn hc) hrun (hc₀.inv hname hn hcan)
    rcases hc.goesOn p with ⟨l, _, hp, _⟩ | ⟨s', o', hstep⟩
    · exact ⟨l, hp⟩
    · exact absurd (.run (logIdOf_rankStore hname (by omega)) hstep) (hend _)

/-! ## A locked mutex -/

/-- The mutex is gone, and no rank has got past the beginning. -/
structure Locked (c : Openings n) : Prop where
  held : c.shared.held = true
  soft : ∀ p : Fin n, c.shared.idToLogMap p (rankLog p) = none
  place : ∀ p : Fin n, c.place p = .find (.findSoft (rankLog p)) ∨
    c.place p = .find (.findCheck (rankLog p)) ∨ ∃ why, c.place p = .stopped why

/-- A rank finds out that its handle is not cached, and then waits for ever. -/
theorem Locked.step (hname : 47 ∉ name) (hn : n ≤ 256) (h : Step name c c') (hc : Locked c) :
    Locked c' := by
  obtain ⟨hid, h⟩ := h
  rename_i q id s' o'
  obtain rfl := eq_rankLog hname hn hid
  rcases hc.place q with hplace | hplace | ⟨why, hplace⟩
  · rw [hplace] at h
    obtain ⟨pt', hdoes, rfl⟩ := Opening.find_step h
    cases hdoes with
    | cached hcached =>
      rw [hc.soft q] at hcached
      cases hcached
    | notCached _ =>
      refine ⟨hc.held, hc.soft, fun r => ?_⟩
      by_cases hr : r = q
      · subst hr
        rw [c.move_self]
        exact Or.inr (Or.inl rfl)
      · rw [c.move_of_ne _ _ hr]
        exact hc.place r
  · rw [hplace] at h
    obtain ⟨pt', hdoes, rfl⟩ := Opening.find_step h
    have hheld := hc.held
    cases hdoes with
    | listed hfree _ =>
      rw [hfree] at hheld
      cases hheld
    | unlisted hfree _ =>
      rw [hfree] at hheld
      cases hheld
  · rw [hplace] at h
    cases h

theorem Locked.not_opened (hc : Locked c) (q : Fin n) (log : Option Log) :
    c.place q ≠ .opened log := by
  intro hq
  rcases hc.place q with hplace | hplace | ⟨why, hplace⟩
  · rw [hq] at hplace
    cases hplace
  · rw [hq] at hplace
    cases hplace
  · rw [hq] at hplace
    cases hplace

theorem Locked.run (hname : 47 ∉ name) (hn : n ≤ 256) (hc : Locked c)
    (hrun : Relation.ReflTransGen (Step name) c c') : Locked c' :=
  Runs.invariant (fun h hc => hc.step hname hn h) hrun hc

end

/-! ## Killed, and started again -/

/-- All ranks are killed, between two critical sections, and started again.  The soft state is
    gone. -/
def killed (c : Openings n) : Openings n :=
  ⟨{ c.shared with idToLogMap := fun _ _ => none }, fun p => Opening.start (rankLog p)⟩

/-- In between the root was removed, and `nvsformat` has made another one.  The log files stay. -/
def reformatted (c : Openings n) : Openings n :=
  ⟨{ (killed c).shared with root := .formatted }, (killed c).place⟩

/-- In between the script that starts the application has removed the root and the log files, and
    `nvsformat` has made another root.  The mutex is in a segment of its own and stays as it is. -/
def cleaned (c : Openings n) : Openings n :=
  ⟨{ (reformatted c).shared with files := fun _ => none }, (reformatted c).place⟩

end Launch

/-- The log file is there, and is not registered yet. -/
def Opening.Unregistered : Opening → Prop
  | create (.remember _ _) => True
  | create (.register _) => True
  | _ => False

namespace Launch

section
variable {n : Nat} {name : List Byte} {c₀ c : Openings n}

theorem begin_start (hname : 47 ∉ name) (hn : n ≤ 256) {s : Site}
    (hroot : ∃ ids : List LogId, s.root.Lists ids ∧ ids.Nodup) (hfree : s.held = false)
    (hsoft : ∀ (p : Fin n) id, s.idToLogMap p id = none) :
    Begin name (⟨s, fun p => Opening.start (rankLog p)⟩ : Openings n) :=
  ⟨hroot, hfree, hsoft, fun p => ⟨rankLog p, logIdOf_rankStore hname (by omega), rfl⟩⟩

/-- **What a rank that is killed leaves behind.** -/
theorem Inv.canOpen_iff (hc : Inv c₀ c) (p : Fin n) :
    (killed c).shared.CanOpen (rankLog p) ↔ ¬ (c.place p).Unregistered := by
  obtain ⟨ids, hlists, hnodup⟩ := hc.root
  have hopen : c.shared.root.isLogExist (rankLog p) = true →
      (killed c).shared.CanOpen (rankLog p) := fun h => Or.inl ⟨h, hc.listed p h⟩
  have hcreate : c.shared.root.isLogExist (rankLog p) = false →
      c.shared.files (rankLog p) = none → (killed c).shared.CanOpen (rankLog p) :=
    fun h hnone => Or.inr ⟨h, hnone, hlists.room hnodup h⟩
  have hleft : c.shared.root.isLogExist (rankLog p) = false →
      (∃ l, c.shared.Handle (rankLog p) l) → ¬ (killed c).shared.CanOpen (rankLog p) := by
    rintro hun ⟨l, f, hf, _⟩ (⟨hlisted, _⟩ | ⟨_, hnone, _⟩)
    · rw [show c.shared.root.isLogExist (rankLog p) = true from hlisted] at hun
      cases hun
    · rw [show c.shared.files (rankLog p) = none from hnone] at hf
      cases hf
  have hstage := hc.own p
  have hunlisted := hc.unlisted p
  generalize c.place p = o at hstage hunlisted ⊢
  cases hstage with
  | early _ _ =>
    refine iff_of_true ?_ (fun h => h)
    cases hlisted : c.shared.root.isLogExist (rankLog p) with
    | true => exact hopen hlisted
    | false => exact hcreate hlisted (hunlisted hlisted (fun h => h))
  | found hlisted _ => exact iff_of_true (hopen hlisted) (fun h => h)
  | making hpt hun hfile _ =>
    refine iff_of_true (hcreate hun hfile) ?_
    rcases hpt with rfl | rfl
    · exact fun h => h
    · exact fun h => h
  | made hun hl _ => exact iff_of_false (hleft hun ⟨_, hl⟩) (fun h => h trivial)
  | cached hun hl _ => exact iff_of_false (hleft hun ⟨_, hl⟩) (fun h => h trivial)
  | again hlisted _ _ => exact iff_of_true (hopen hlisted) (fun h => h)
  | opened hlisted _ => exact iff_of_true (hopen hlisted) (fun h => h)

/-- With a new root a log can only be created. -/
theorem reformatted_canOpen_iff (c : Openings n) (p : Fin n) :
    (reformatted c).shared.CanOpen (rankLog p) ↔ c.shared.files (rankLog p) = none := by
  constructor
  · rintro (⟨hlisted, _⟩ | ⟨_, hnone, _⟩)
    · cases hlisted
    · exact hnone
  · intro hnone
    exact Or.inr ⟨rfl, hnone, show 0 < maxLogs by decide⟩

end

end Launch

end NvStream
