/-
  A parallel application starts, on a machine with ONE segment for the mutexes.

  `Log::Log` does something before it maps the file: `find_or_construct` of a mutex named after the
  log, in the shared segment `nvs_boost_shm`.  The segment has 1024 bytes, whoever opens it first, and
  it is never removed.  Which mutexes of logs it takes besides the root mutex is up to the library
  (`Segment`; a name counts too, and "plog_mtx255" is longer than "plog_mtx0").  When there is no room
  `find_or_construct` throws, and nobody catches that:

      CreateLog   new Log(path, size, id)   the process ends INSIDE the critical section
      FindLog     new Log(path, 0, id)      the process ends

  A machine with room for the logs of all ranks, and for those whose mutexes are there from before
  (`Ranks.Room`), makes exactly the steps of `NvStream.Directory.Launch` (`Ranks.Fits.step`,
  `Ranks.Fits.lift`), and what was proved there holds of it.  One without room does not get through:
  a rank with a handle has had its mutex made (`Ranks.Noted`), and there is no place for all of them.
  Together these say when a launch works (`launch_works_iff`).
-/
import NvStream.Directory.Relaunch
import Mathlib.Data.Finset.Card

namespace NvStream

open FlatMem LittleEndian LoadProg PersistTrace Interleave

/-! ## The segment -/

/-- What a segment takes: the sets of logs whose mutexes fit into it at the same time. -/
structure Segment where
  holds : Finset LogId → Bool
  mono : ∀ {a b : Finset LogId}, a ⊆ b → holds b = true → holds a = true

/-- A segment that takes so many mutexes, whatever their names. -/
def Segment.ofSlots (slots : Nat) : Segment where
  holds := fun logs => decide (logs.card ≤ slots)
  mono := fun hsub hb => decide_eq_true ((Finset.card_le_card hsub).trans (of_decide_eq_true hb))

/-- What the ranks share: the site, and the mutexes of logs in the segment. -/
structure Host where
  site : Site
  mutexes : Finset LogId

/-- The log whose constructor stands at this place, and whether `CreateLog` holds the root mutex
    around it. -/
def Point.constructs : Point → Option (LogId × Bool)
  | createFile id _ => some (id, true)
  | findOpen id => some (id, false)
  | _ => none

def Opening.constructs : Opening → Option (LogId × Bool)
  | find pt => pt.constructs
  | create pt => pt.constructs
  | findAgain pt => pt.constructs
  | opened _ => none
  | stopped _ => none

namespace Host

/-- `find_or_construct` finds the mutex of the log, or there is room for it. -/
def Takes (seg : Segment) (m : Host) (log : LogId) : Prop :=
  log ∈ m.mutexes ∨ seg.holds (insert log m.mutexes) = true

instance (seg : Segment) (m : Host) (log : LogId) : Decidable (m.Takes seg log) :=
  inferInstanceAs (Decidable (_ ∨ _))

/-- Process `p`, which constructs a store on log `id`, executes what stands at its place. -/
def step (seg : Segment) (p : Nat) (id : LogId) (m : Host) (o : Opening) :
    Option (Host × Opening) :=
  match o.constructs with
  | none => (o.step p id m.site).map (fun r => (⟨r.1, m.mutexes⟩, r.2))
  | some (log, locked) =>
    if locked && m.site.held then none
    else if m.Takes seg log then
      (o.step p id m.site).map (fun r => (⟨r.1, insert log m.mutexes⟩, r.2))
    else
      -- nobody catches the exception, and `CreateLog` does not unlock
      some (⟨if locked then m.site.abandoned else m.site, m.mutexes⟩, .stopped .abort)

end Host

/-- The mutexes behind the step at this place. -/
def Opening.noted (o : Opening) (mutexes : Finset LogId) : Finset LogId :=
  match o.constructs with
  | none => mutexes
  | some (log, _) => insert log mutexes

section
variable {seg : Segment} {p : Nat} {id log : LogId} {locked : Bool} {s s' : Site} {m m' : Host}
  {o o' : Opening} {pt pt' : Point}

theorem Opening.subset_noted (o : Opening) (mutexes : Finset LogId) :
    mutexes ⊆ o.noted mutexes := by
  unfold noted
  split
  · exact Finset.Subset.refl _
  · exact Finset.subset_insert _ _

/-- A call about a log constructs that log. -/
theorem Point.constructs_eq (hlog : pt.log? = some id) (h : pt.constructs = some (log, locked)) :
    log = id := by
  cases pt with
  | createFile id' size =>
    cases h
    exact Option.some.inj hlog
  | findOpen id' =>
    cases h
    exact Option.some.inj hlog
  | createCheck | remember | register | findSoft | findCheck | returned | stopped => cases h

theorem Opening.About.constructs_eq (ho : o.About id) (h : o.constructs = some (log, locked)) :
    log = id := by
  cases o with
  | find pt => exact Point.constructs_eq ho h
  | create pt => exact Point.constructs_eq ho h
  | findAgain pt => exact Point.constructs_eq ho h
  | opened l => cases h
  | stopped why => cases h

/-- Under the root mutex nothing is constructed while somebody else has it. -/
theorem Point.step_locked (h : pt.constructs = some (log, true)) (hheld : s.held = true) :
    pt.step p s = none := by
  cases pt with
  | createFile id size => exact if_pos hheld
  | findOpen id => cases h
  | createCheck | remember | register | findSoft | findCheck | returned | stopped => cases h

theorem Opening.step_locked (h : o.constructs = some (log, true)) (hheld : s.held = true) :
    o.step p id s = none := by
  cases o with
  | find pt => rw [step, Point.step_locked h hheld]; rfl
  | create pt => rw [step, Point.step_locked h hheld]; rfl
  | findAgain pt => rw [step, Point.step_locked h hheld]; rfl
  | opened l => cases h
  | stopped why => cases h

/-- Somebody who constructs a log is not done. -/
theorem Opening.left_pos (h : o.constructs = some (log, locked)) : 0 < o.left := by
  cases o with
  | find pt => exact Nat.add_pos_left (by decide) _
  | create pt => exact Nat.add_pos_left (by decide) _
  | findAgain pt =>
    cases pt with
    | createFile id size => exact Nat.zero_lt_succ _
    | findOpen id => exact Nat.zero_lt_succ _
    | createCheck | remember | register | findSoft | findCheck | returned | stopped => cases h
  | opened l => cases h
  | stopped why => cases h

/-- **A step with room** is a step at the site. -/
theorem Host.step_eq (h : ∀ log locked, o.constructs = some (log, locked) → m.Takes seg log) :
    m.step seg p id o =
      (o.step p id m.site).map (fun r => (⟨r.1, o.noted m.mutexes⟩, r.2)) := by
  unfold step Opening.noted
  split
  · rfl
  · rename_i log locked hsome
    by_cases hwait : (locked && m.site.held) = true
    · rw [if_pos hwait]
      obtain ⟨rfl, hheld⟩ := Bool.and_eq_true_iff.mp hwait
      rw [Opening.step_locked hsome hheld]
      rfl
    · rw [if_neg hwait, if_pos (h log locked hsome)]

/-- **All that one step can do**: a step at the site, or the end in a full segment. -/
theorem Host.step_cases (h : m.step seg p id o = some (m', o')) :
    (∃ s', o.step p id m.site = some (s', o') ∧ m' = ⟨s', o.noted m.mutexes⟩ ∧
      ∀ log locked, o.constructs = some (log, locked) → m.Takes seg log) ∨
    ∃ log locked, o.constructs = some (log, locked) ∧ ¬ m.Takes seg log ∧
      m' = ⟨if locked then m.site.abandoned else m.site, m.mutexes⟩ ∧ o' = .stopped .abort := by
  by_cases htakes : ∀ log locked, o.constructs = some (log, locked) → m.Takes seg log
  · rw [step_eq htakes] at h
    obtain ⟨⟨s', o''⟩, hstep, heq⟩ := Option.map_eq_some_iff.mp h
    cases heq
    exact Or.inl ⟨s', hstep, rfl, htakes⟩
  · simp only [not_forall] at htakes
    obtain ⟨log, locked, hsome, hfull⟩ := htakes
    unfold step at h
    rw [hsome] at h
    dsimp only at h
    rw [if_neg hfull] at h
    split at h
    · cases h
    · cases h
      exact Or.inr ⟨log, locked, hsome, hfull, rfl, rfl⟩

end

/-! ## The system -/

/-- The machine, and where each of `n` ranks is in its constructor. -/
abbrev Ranks (n : Nat) := Pool (Fin n) Host Opening

/-- The logs of the ranks. -/
def rankLogs (n : Nat) : Finset LogId := Finset.univ.image (fun p : Fin n => rankLog p)

theorem mem_rankLogs {n : Nat} (p : Fin n) : rankLog p ∈ rankLogs n :=
  Finset.mem_image_of_mem _ (Finset.mem_univ p)

namespace Ranks

variable {n : Nat}

/-- The launch without the segment. -/
def site (c : Ranks n) : Openings n := ⟨c.shared.site, c.place⟩

/-- One rank executes a step of the constructor of its store. -/
inductive Step (name : List Byte) (seg : Segment) : Ranks n → Ranks n → Prop
  | run {c : Ranks n} {p : Fin n} {id : LogId} {m' : Host} {o' : Opening}
      (hid : logIdOf (rankStore name p) = .ok id)
      (h : c.shared.step seg p id (c.place p) = some (m', o')) :
      Step name seg c (c.move p m' o')

/-- The segment has room for the mutexes of all ranks, besides those that are there. -/
def Room (seg : Segment) (c : Ranks n) : Prop :=
  seg.holds (c.shared.mutexes ∪ rankLogs n) = true

instance (seg : Segment) (c : Ranks n) : Decidable (c.Room seg) :=
  inferInstanceAs (Decidable (_ = true))

/-- Nobody can execute a step. -/
def Ended (name : List Byte) (seg : Segment) (c : Ranks n) : Prop := ∀ c', ¬ Step name seg c c'

/-- However the launch goes, in the end every rank has its handle. -/
def Works (name : List Byte) (seg : Segment) (c₀ : Ranks n) : Prop :=
  ∀ c, Relation.ReflTransGen (Step name seg) c₀ c → Ended name seg c →
    ∀ p, ∃ l, c.place p = .opened (some l)

/-- What rank `p` can count on at any moment: it has its handle, on a log that is listed and its own,
    or it can execute its next step. -/
def GoesOn (name : List Byte) (seg : Segment) (c : Ranks n) (p : Fin n) : Prop :=
  (∃ l f, c.place p = .opened (some l) ∧ c.shared.site.root.isLogExist (rankLog p) = true ∧
    c.shared.site.files (rankLog p) = some f ∧ Log.ctor (some f) 0 = .ok (l, f)) ∨
  ∃ id m' o', logIdOf (rankStore name p) = .ok id ∧
    c.shared.step seg p id (c.place p) = some (m', o')

/-- All processes end and start again.  What happens to the site in between leaves the segment
    alone. -/
def again (between : Openings n → Openings n) (c : Ranks n) : Ranks n :=
  ⟨⟨(between c.site).shared, c.shared.mutexes⟩, (between c.site).place⟩

section
variable {name : List Byte} {seg : Segment} {c₀ c c' : Ranks n} {p : Fin n}

theorem Step.left_lt (h : Step name seg c c') :
    c'.left Opening.left < c.left Opening.left := by
  cases h with
  | run hid h =>
    refine c.left_move ?_ _
    rcases Host.step_cases h with ⟨s', hstep, _⟩ | ⟨log, locked, hsome, _, _, rfl⟩
    · exact (Opening.step_does hstep).2
    · exact Opening.left_pos hsome

/-- Every launch comes to an end. -/
theorem exists_ended (name : List Byte) (seg : Segment) (c₀ : Ranks n) :
    ∃ c, Relation.ReflTransGen (Step name seg) c₀ c ∧ Ended name seg c :=
  Runs.exists_end (fun h => Step.left_lt h) c₀

/-! ### With room -/

/-- Every rank is with its log, and there is room. -/
structure Fits (seg : Segment) (c : Ranks n) : Prop where
  about : ∀ p : Fin n, (c.place p).About (rankLog p)
  room : c.Room seg

theorem Fits.takes (hc : c.Fits seg) (p : Fin n) (log : LogId) (locked : Bool)
    (h : (c.place p).constructs = some (log, locked)) : c.shared.Takes seg log := by
  obtain rfl := (hc.about p).constructs_eq h
  have hsub : insert (rankLog p) c.shared.mutexes ⊆ c.shared.mutexes ∪ rankLogs n :=
    Finset.insert_subset (Finset.mem_union_right _ (mem_rankLogs p)) Finset.subset_union_left
  exact Or.inr (seg.mono hsub hc.room)

/-- The mutex of a rank is counted already. -/
theorem Fits.noted_union (hc : c.Fits seg) (p : Fin n) :
    (c.place p).noted c.shared.mutexes ∪ rankLogs n = c.shared.mutexes ∪ rankLogs n := by
  unfold Opening.noted
  split
  · rfl
  · rename_i log locked hsome
    obtain rfl := (hc.about p).constructs_eq hsome
    rw [Finset.insert_union, Finset.insert_eq_of_mem
      (Finset.mem_union_right _ (mem_rankLogs p))]

theorem Fits.move (hc : c.Fits seg) {s' : Site} {o' : Opening}
    (h : (c.place p).step p (rankLog p) c.shared.site = some (s', o')) :
    Fits seg (c.move p ⟨s', (c.place p).noted c.shared.mutexes⟩ o') := by
  constructor
  · exact c.forall_move (P := fun q o => o.About (rankLog q)) p _ o' ((hc.about p).does h).1
      (fun q _ => hc.about q)
  · show seg.holds ((c.place p).noted c.shared.mutexes ∪ rankLogs n) = true
    rw [hc.noted_union p]
    exact hc.room

theorem Fits.step_of_site (hc : c.Fits seg) {s' : Site} {o' : Opening}
    (h : (c.place p).step p (rankLog p) c.shared.site = some (s', o')) :
    c.shared.step seg p (rankLog p) (c.place p) =
      some (⟨s', (c.place p).noted c.shared.mutexes⟩, o') := by
  rw [Host.step_eq (hc.takes p), h]
  rfl

/-- **With room a step is a step of the launch without the segment.** -/
theorem Fits.step (hname : 47 ∉ name) (hn : n ≤ 256) (hc : c.Fits seg) (h : Step name seg c c') :
    c'.Fits seg ∧ Launch.Step name c.site c'.site := by
  cases h with
  | @run p id m' o' hid h =>
    obtain rfl := eq_rankLog hname hn hid
    rw [Host.step_eq (hc.takes p)] at h
    obtain ⟨⟨s', o''⟩, hstep, heq⟩ := Option.map_eq_some_iff.mp h
    cases heq
    exact ⟨hc.move hstep, .run hid hstep⟩

/-- And the other way round. -/
theorem Fits.lift (hname : 47 ∉ name) (hn : n ≤ 256) (hc : c.Fits seg) {d : Openings n}
    (h : Launch.Step name c.site d) : ∃ c', Step name seg c c' ∧ c'.site = d ∧ c'.Fits seg := by
  cases h with
  | @run p id s' o' hid h =>
    obtain rfl := eq_rankLog hname hn hid
    exact ⟨_, .run hid (hc.step_of_site h), rfl, hc.move h⟩

theorem Fits.run (hname : 47 ∉ name) (hn : n ≤ 256) (hc : c.Fits seg)
    (hrun : Relation.ReflTransGen (Step name seg) c c') :
    c'.Fits seg ∧ Relation.ReflTransGen (Launch.Step name) c.site c'.site :=
  Runs.invariant_rel
    (R := fun a b : Ranks n => Relation.ReflTransGen (Launch.Step name) a.site b.site)
    (fun _ => .refl) (fun h h' => Relation.ReflTransGen.trans h h')
    (fun h hc => ⟨(hc.step hname hn h).1, .single (hc.step hname hn h).2⟩) hrun hc

theorem Fits.lift_run (hname : 47 ∉ name) (hn : n ≤ 256) (hc : c.Fits seg) {d : Openings n}
    (hrun : Relation.ReflTransGen (Launch.Step name) c.site d) :
    ∃ c', Relation.ReflTransGen (Step name seg) c c' ∧ c'.site = d ∧ c'.Fits seg :=
  Runs.lift site (fun hc h => hc.lift hname hn h) hrun hc

theorem Fits.ended_iff (hname : 47 ∉ name) (hn : n ≤ 256) (hc : c.Fits seg) :
    Ended name seg c ↔ Launch.Ended name c.site := by
  constructor
  · intro hend d h
    obtain ⟨c', hstep, _⟩ := hc.lift hname hn h
    exact hend c' hstep
  · intro hend c' h
    exact hend _ (hc.step hname hn h).2

theorem Fits.works_iff (hname : 47 ∉ name) (hn : n ≤ 256) (hc₀ : c₀.Fits seg) :
    Works name seg c₀ ↔ Launch.Works name c₀.site := by
  constructor
  · intro hworks d hrun hend
    obtain ⟨c, hrun', rfl, hc⟩ := hc₀.lift_run hname hn hrun
    exact hworks c hrun' ((hc.ended_iff hname hn).mpr hend)
  · intro hworks c hrun hend
    obtain ⟨hc, hrun'⟩ := hc₀.run hname hn hrun
    exact hworks c.site hrun' ((hc.ended_iff hname hn).mp hend)

/-- Ranks that begin are with their logs. -/
theorem fits_of_begin (hname : 47 ∉ name) (hn : n ≤ 256) (h₀ : Launch.Begin name c.site)
    (hroom : c.Room seg) : c.Fits seg := by
  refine ⟨fun p => ?_, hroom⟩
  have hp : c.place p = Opening.start (rankLog p) := h₀.start hname hn p
  rw [hp]
  rfl

/-- What holds in a launch from a directory in order. -/
theorem start_run (hname : 47 ∉ name) (hn : n ≤ 256) (h₀ : Launch.Start name c₀.site)
    (hroom : c₀.Room seg) (hrun : Relation.ReflTransGen (Step name seg) c₀ c) :
    c.Fits seg ∧ Launch.Inv c₀.site c.site := by
  have hbegin : Launch.Begin name c₀.site := ⟨(h₀.ready 0).root, h₀.free, h₀.soft, h₀.place⟩
  obtain ⟨hfits, hrun'⟩ := (fits_of_begin hname hn hbegin hroom).run hname hn hrun
  refine ⟨hfits, ?_⟩
  exact Runs.invariant (P := fun d => Launch.Inv c₀.site d) (fun h hd => h.inv hname hn hd) hrun'
    (h₀.inv hname hn)

theorem Fits.goesOn (hname : 47 ∉ name) (hn : n ≤ 256) (hc : c.Fits seg)
    (hinv : Launch.Inv c₀.site c.site) (p : Fin n) : GoesOn name seg c p := by
  rcases hinv.goesOn p with hopen | ⟨s', o', hstep⟩
  · exact Or.inl hopen
  · exact Or.inr ⟨_, _, o', logIdOf_rankStore hname (by omega), hc.step_of_site hstep⟩

/-- The mutexes that are made in a launch are those of the ranks, and so there is room for the next
    launch of the same ranks. -/
theorem Fits.again (hc : c.Fits seg) (between : Openings n → Openings n)
    (hplace : ∀ p : Fin n, (between c.site).place p = Opening.start (rankLog p)) :
    (again between c).Fits seg := by
  refine ⟨fun p => ?_, hc.room⟩
  have hp : (Ranks.again between c).place p = Opening.start (rankLog p) := hplace p
  rw [hp]
  rfl

end

end Ranks

/-! ## Without room -/

/-- The file of a log was mapped in this call, and is not registered yet. -/
def Point.Past : Point → Prop
  | remember _ _ => True
  | register _ => True
  | _ => False

/-- The constructor is behind this place, or the call has returned what its caller goes on with. -/
def Point.Behind : Point → Prop
  | returned ret log => ret = .noError ∨ log ≠ none
  | pt => pt.Past

/-- A constructor of a log is behind this place. -/
def Opening.Past : Opening → Prop
  | find pt => pt.Past
  | create pt => pt.Past
  | findAgain _ => True
  | opened log => log ≠ none
  | stopped _ => False

section
variable {p : Nat} {id : LogId} {s s' : Site} {o o' : Opening} {pt pt' : Point}

/-- A call gets behind the constructor only through it, or by a cached handle. -/
theorem Point.Does.behind (h : pt.Does p s s' pt') (hlog : pt.log? = some id)
    (hbehind : pt'.Behind) : pt.Past ∨ s.idToLogMap p id ≠ none ∨ pt.constructs ≠ none := by
  cases h with
  | made | notMade | reopened | notReopened => exact Or.inr (Or.inr (Option.some_ne_none _))
  | remembered | known | registered | full => exact Or.inl trivial
  | cached hsoft =>
    obtain rfl := Option.some.inj hlog
    exact Or.inr (Or.inl (fun hnone => Option.some_ne_none _ (hsoft.symm.trans hnone)))
  | inUse =>
    rcases hbehind with hret | hlog
    · cases hret
    · exact absurd rfl hlog
  | unlisted =>
    rcases hbehind with hret | hlog
    · cases hret
    · exact absurd rfl hlog
  | unused | notCached | listed => exact hbehind.elim

/-- It caches a handle only there. -/
theorem Point.Does.soft (h : pt.Does p s s' pt') (hsoft : s'.idToLogMap p id ≠ none) :
    s.idToLogMap p id ≠ none ∨ pt.Past := by
  cases h with
  | remembered | known | registered | full => exact Or.inr trivial
  | made | notMade | reopened | notReopened | cached | inUse | unlisted | unused | notCached
  | listed => exact Or.inl hsoft

theorem Opening.behind_of_afterFind (h : (afterFind id pt).Past) : pt.Behind := by
  cases pt with
  | returned ret log =>
    rw [afterFind] at h
    split at h
    · exact h.elim
    · exact Or.inr h
  | stopped | createCheck | createFile | remember | register | findSoft | findCheck | findOpen =>
    exact h

theorem Opening.behind_of_afterCreate (h : (afterCreate id pt).Past) : pt.Behind := by
  cases pt with
  | returned ret log =>
    rw [afterCreate] at h
    split at h
    · rename_i hret
      exact Or.inl hret
    · exact h.elim
  | stopped | createCheck | createFile | remember | register | findSoft | findCheck | findOpen =>
    exact h

/-- **One step of a rank.** -/
theorem Opening.About.past_step (ho : o.About id) (h : o.step p id s = some (s', o')) :
    (o'.Past → o.Past ∨ s.idToLogMap p id ≠ none ∨ o.constructs ≠ none) ∧
    (s'.idToLogMap p id ≠ none → s.idToLogMap p id ≠ none ∨ o.Past) := by
  cases o with
  | find pt =>
    obtain ⟨pt', hdoes, rfl⟩ := find_step h
    exact ⟨fun h => hdoes.behind ho (behind_of_afterFind h), hdoes.soft⟩
  | create pt =>
    obtain ⟨pt', hdoes, rfl⟩ := create_step h
    exact ⟨fun h => hdoes.behind ho (behind_of_afterCreate h), hdoes.soft⟩
  | findAgain pt => exact ⟨fun _ => Or.inl trivial, fun _ => Or.inr trivial⟩
  | opened log => cases h
  | stopped why => cases h

end

namespace Ranks

variable {n : Nat} {name : List Byte} {seg : Segment} {c₀ c c' : Ranks n} {p : Fin n}

/-- The segment of a launch that began at `c₀`: nothing is removed, there is no more in it than it
    takes, and whoever is behind a constructor has a mutex there. -/
structure Noted (seg : Segment) (c₀ c : Ranks n) : Prop where
  about : ∀ p : Fin n, (c.place p).About (rankLog p)
  past : ∀ p : Fin n, (c.place p).Past → rankLog p ∈ c.shared.mutexes
  soft : ∀ p : Fin n, c.shared.site.idToLogMap p (rankLog p) ≠ none →
    rankLog p ∈ c.shared.mutexes
  kept : c₀.shared.mutexes ⊆ c.shared.mutexes
  holds : seg.holds c.shared.mutexes = true

/-- A step makes no mutex that the segment does not take. -/
theorem holds_noted (hholds : seg.holds c.shared.mutexes = true)
    (htakes : ∀ log locked, (c.place p).constructs = some (log, locked) →
      c.shared.Takes seg log) : seg.holds ((c.place p).noted c.shared.mutexes) = true := by
  unfold Opening.noted
  split
  · exact hholds
  · rename_i log locked hsome
    rcases htakes log locked hsome with hmem | hroom
    · rw [Finset.insert_eq_of_mem hmem]
      exact hholds
    · exact hroom

/-- **One step.** -/
theorem Noted.step (hname : 47 ∉ name) (hn : n ≤ 256) (h : Step name seg c c')
    (hc : Noted seg c₀ c) : Noted seg c₀ c' := by
  cases h with
  | @run p id m' o' hid h =>
    obtain rfl := eq_rankLog hname hn hid
    rcases Host.step_cases h with ⟨s', hstep, rfl, htakes⟩ | ⟨log, locked, _, _, rfl, rfl⟩
    · obtain ⟨habout, pt, pt', hlog, hdoes⟩ := (hc.about p).does hstep
      obtain ⟨hpast, hsoft⟩ := (hc.about p).past_step hstep
      have hsub := (c.place p).subset_noted c.shared.mutexes
      have hown : (c.place p).constructs ≠ none →
          rankLog p ∈ (c.place p).noted c.shared.mutexes := by
        intro hne
        obtain ⟨⟨log, locked⟩, hsome⟩ := Option.ne_none_iff_exists'.mp hne
        rw [← (hc.about p).constructs_eq hsome, Opening.noted, hsome]
        exact Finset.mem_insert_self _ _
      have hself : o'.Past → rankLog p ∈ (c.place p).noted c.shared.mutexes := by
        intro hp
        rcases hpast hp with h | h | h
        · exact hsub (hc.past p h)
        · exact hsub (hc.soft p h)
        · exact hown h
      have hplaces := c.forall_move p ⟨s', (c.place p).noted c.shared.mutexes⟩ o'
        (P := fun (q : Fin n) o => o.About (rankLog q) ∧
          (o.Past → rankLog q ∈ (c.place p).noted c.shared.mutexes))
        ⟨habout, hself⟩ (fun q _ => ⟨hc.about q, fun hq => hsub (hc.past q hq)⟩)
      refine ⟨fun q => (hplaces q).1, fun q => (hplaces q).2, fun q hq => ?_, hc.kept.trans hsub,
        holds_noted hc.holds htakes⟩
      by_cases heq : q = p
      · subst heq
        rcases hsoft hq with h | h
        · exact hsub (hc.soft q h)
        · exact hsub (hc.past q h)
      · have hsame : s'.idToLogMap q (rankLog q) = c.shared.site.idToLogMap q (rankLog q) :=
          (hdoes.frame hlog).2 q _ (Or.inl (fun h => heq (Fin.ext h)))
        exact hsub (hc.soft q (hsame ▸ hq))
    · -- the segment is full: nothing changes but the place, and perhaps the root mutex
      have hplaces := c.forall_move p c.shared (.stopped .abort)
        (P := fun (q : Fin n) o => o.About (rankLog q) ∧ (o.Past → rankLog q ∈ c.shared.mutexes))
        ⟨trivial, fun h => h.elim⟩ (fun q _ => ⟨hc.about q, hc.past q⟩)
      refine ⟨fun q => (hplaces q).1, fun q => (hplaces q).2, fun q hq => hc.soft q ?_, hc.kept,
        hc.holds⟩
      cases locked with
      | true => exact hq
      | false => exact hq

theorem Noted.run (hname : 47 ∉ name) (hn : n ≤ 256)
    (hrun : Relation.ReflTransGen (Step name seg) c c') (hc : Noted seg c₀ c) :
    Noted seg c₀ c' :=
  Runs.invariant (P := fun c => Noted seg c₀ c) (fun h hc => hc.step hname hn h) hrun hc

end Ranks

/-! ## Launches -/

/-- **A parallel application starts.**  Up to 256 ranks construct their stores at the same time, on a
    machine without logs or with those of an earlier start, and with room in the segment for the
    mutexes of all of them.  In every interleaving of their critical sections no rank leaves the
    process and none dies inside a critical section; at every moment every rank has its handle or can
    execute its next step; and after `10 * n` steps at the latest all are done.  The directory then
    lists the logs of the ranks and what it listed before, every log once, and the logs of others are
    as they were. -/
theorem launch_opens {n : Nat} (hn : n ≤ 256) {name : List Byte} (hname : 47 ∉ name)
    {seg : Segment} {c₀ : Ranks n} (h₀ : Launch.Start name c₀.site) (hroom : c₀.Room seg) :
    (∀ c, Relation.ReflTransGen (Ranks.Step name seg) c₀ c →
      c.shared.site.held = false ∧ (∀ p why, c.place p ≠ .stopped why) ∧
      (∀ p, Ranks.GoesOn name seg c p) ∧
      (∃ ids : List LogId, c.shared.site.root.Lists ids ∧ ids.Nodup) ∧
      ∀ id, (∀ p : Fin n, id ≠ rankLog p) → Site.SameLog id c₀.shared.site c.shared.site) ∧
    ∀ k c, Runs.Steps (Ranks.Step name seg) k c₀ c → k ≤ 10 * n := by
  refine ⟨fun c hrun => ?_, fun k c hrun => ?_⟩
  · obtain ⟨hfits, hinv⟩ := Ranks.start_run hname hn h₀ hroom hrun
    exact ⟨hinv.free, hinv.not_stopped, hfits.goesOn hname hn hinv, hinv.root, hinv.rest⟩
  · have hle := hrun.le (fun h => Ranks.Step.left_lt h)
    have hten : c₀.left Opening.left = 10 * n := h₀.left
    omega

/-- The same two ranks, and no mutex in the segment. -/
def twoHosted : Ranks 2 := ⟨⟨twoRanks.shared, ∅⟩, twoRanks.place⟩

theorem launch_opens_two : twoHosted.Room (Segment.ofSlots 2) ∧
    (∃ c, Relation.ReflTransGen (Ranks.Step [115] (Segment.ofSlots 2)) twoHosted c ∧
      ∀ p, ∃ l, c.place p = .opened (some l)) ∧
    ∀ k c, Runs.Steps (Ranks.Step [115] (Segment.ofSlots 2)) k twoHosted c → k ≤ 20 := by
  have hstart : Launch.Start [115] twoHosted.site := twoRanks_start
  have hroom : twoHosted.Room (Segment.ofSlots 2) := by decide
  obtain ⟨hruns, hsteps⟩ := launch_opens (by decide) (by decide) hstart hroom
  refine ⟨hroom, ?_, hsteps⟩
  obtain ⟨c, hrun, hend⟩ := Ranks.exists_ended [115] (Segment.ofSlots 2) twoHosted
  refine ⟨c, hrun, fun p => ?_⟩
  obtain ⟨_, _, hgoesOn, _⟩ := hruns c hrun
  rcases hgoesOn p with ⟨l, _, hp, _⟩ | ⟨id, m', o', hid, hstep⟩
  · exact ⟨l, hp⟩
  · exact absurd (.run hid hstep) (hend _)

/-- **A launch that was killed can be repeated**, if the segment had room for it, whenever that was,
    if and only if no rank was between creating its log file and registering it.  With a new root
    made in between, it can if and only if no log of a rank has a file; behind the clean-up it always
    can.  The segment stays as it is all the time. -/
theorem relaunch_works_iff {n : Nat} (hn : n ≤ 256) {name : List Byte} (hname : 47 ∉ name)
    {seg : Segment} {c₀ c : Ranks n} (h₀ : Launch.Start name c₀.site) (hroom : c₀.Room seg)
    (hrun : Relation.ReflTransGen (Ranks.Step name seg) c₀ c) :
    (Ranks.Works name seg (c.again Launch.killed) ↔ ∀ p, ¬ (c.place p).Unregistered) ∧
    (Ranks.Works name seg (c.again Launch.reformatted) ↔
      ∀ p : Fin n, c.shared.site.files (rankLog p) = none) ∧
    Ranks.Works name seg (c.again Launch.cleaned) := by
  obtain ⟨hfits, hinv⟩ := Ranks.start_run hname hn h₀ hroom hrun
  have hempty : ∃ ids : List LogId, NvsRoot.formatted.Lists ids ∧ ids.Nodup :=
    ⟨[], rfl, List.nodup_nil⟩
  refine ⟨?_, ?_, ?_⟩
  · have hbegin : Launch.Begin name (Launch.killed c.site) :=
      Launch.begin_start hname hn hinv.root hinv.free (fun _ _ => rfl)
    rw [(hfits.again Launch.killed (fun _ => rfl)).works_iff hname hn]
    exact (hbegin.works_iff hname hn).trans (forall_congr' hinv.canOpen_iff)
  · have hbegin : Launch.Begin name (Launch.reformatted c.site) :=
      Launch.begin_start hname hn hempty hinv.free (fun _ _ => rfl)
    rw [(hfits.again Launch.reformatted (fun _ => rfl)).works_iff hname hn]
    exact (hbegin.works_iff hname hn).trans
      (forall_congr' (Launch.reformatted_canOpen_iff c.site))
  · have hbegin : Launch.Begin name (Launch.cleaned c.site) :=
      Launch.begin_start hname hn hempty hinv.free (fun _ _ => rfl)
    rw [(hfits.again Launch.cleaned (fun _ => rfl)).works_iff hname hn]
    exact (hbegin.works_iff hname hn).mpr
      (fun p => Or.inr ⟨rfl, rfl, show 0 < maxLogs by decide⟩)

/-- Rank 0 of two is killed right after it has created its file. -/
theorem relaunch_works_iff_made :
    ∃ c, Relation.ReflTransGen (Ranks.Step [115] (Segment.ofSlots 2)) twoHosted c ∧
      (c.place 0).Unregistered ∧
      ¬ Ranks.Works [115] (Segment.ofSlots 2) (c.again Launch.killed) ∧
      Ranks.Works [115] (Segment.ofSlots 2) (c.again Launch.cleaned) := by
  obtain ⟨l, f, hmade, _⟩ := ctor_ok logSize (by decide)
  have hdrive : drive (Opening.step (0 : Fin 2) (rankLog (0 : Fin 2))) 4 twoRanks.shared
      (twoRanks.place 0) = (_, .create (.remember (rankLog (0 : Fin 2)) l)) :=
    (Opening.drive_unlisted rfl rfl rfl 1).trans
      (drive_step (Opening.create_does (.made rfl hmade)) 0)
  have hrun : Relation.ReflTransGen (Launch.Step [115]) twoHosted.site _ :=
    drive_run (R := Launch.Step [115])
      (fun h => .run (logIdOf_rankStore (by decide) (by decide)) h) hdrive
  have hun : Opening.Unregistered (.create (.remember (rankLog (0 : Fin 2)) l)) := trivial
  rw [← Pool.move_self twoRanks 0 _ (.create (.remember (rankLog (0 : Fin 2)) l))] at hun
  have hroom : twoHosted.Room (Segment.ofSlots 2) := by decide
  have hfits : twoHosted.Fits (Segment.ofSlots 2) := ⟨fun _ => rfl, hroom⟩
  obtain ⟨c, hrun', hc, _⟩ := hfits.lift_run (by decide) (by decide) hrun
  have hplace : c.place = (Pool.move twoRanks 0 _ _).place := congrArg Pool.place hc
  rw [← hplace] at hun
  obtain ⟨hkilled, _, hcleaned⟩ :=
    relaunch_works_iff (by decide) (by decide) twoRanks_start hroom hrun'
  exact ⟨c, hrun', hun, fun hworks => hkilled.mp hworks 0 hun, hcleaned⟩

end NvStream
