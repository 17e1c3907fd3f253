/-
  A parallel application starts: `n` processes construct their stores at the same time, rank `p` the
  store "name/p".

  No two of the first 256 ranks have the same log, and that makes the difference to
  `NvStream.Directory.Opening`.  Nobody is in anybody's way: the check and the registration of
  `CreateLog` are still two critical sections, but what comes between them concerns other logs.  So
  there is nothing a rank would have to wait for, and no order of the steps goes wrong.

  The argument reduces a launch to the opening of ONE log.  What a rank does depends on the site only
  as far as its own log goes, and there the others have left no trace; they might as well not have
  begun (`Launch.view`).  In that view the run is orderly, whatever it is in truth, and the step lemma
  for one log applies (`Inv.own_step`).  What is left is that a step of one rank does not disturb the
  others (`Point.Does.frame`).

  The constructor of a log first makes a named mutex, in a segment of fixed size that all logs share.
  Here that always succeeds; `NvStream.Directory.Segment` has the segment, and the results.
-/
import NvStream.Directory.Opening
import NvStream.NvsStore.Isolation

namespace NvStream

open FlatMem LittleEndian LoadProg PersistTrace Interleave Decimal

/-! ## Ranks -/

/-- `name + "/" + std::to_string(proc_id)` -/
def rankStore (name : List Byte) (rank : Nat) : List Byte := name ++ 47 :: decimal rank

/-- The log of a rank. -/
def rankLog (rank : Nat) : LogId := UInt8.ofNat rank

theorem logIdOf_rankStore {name : List Byte} (hname : 47 ∉ name) {rank : Nat} (hrank : rank < 256) :
    logIdOf (rankStore name rank) = .ok (rankLog rank) := by
  rw [logIdOf, rankStore, logIdStr_slash hname, stoi_decimal (by omega)]
  show Except.ok (UInt8.ofNat ((rank : Int) % 256).toNat) = _
  rw [rankLog, show ((rank : Int) % 256).toNat = rank by omega]

/-- The log that a rank reads out of the name of its store. -/
theorem eq_rankLog {name : List Byte} (hname : 47 ∉ name) {n : Nat} (hn : n ≤ 256) {p : Fin n}
    {id : LogId} (hid : logIdOf (rankStore name p) = .ok id) : id = rankLog p := by
  rw [logIdOf_rankStore hname (by omega)] at hid
  exact (Except.ok.inj hid).symm

theorem rankLog_inj {p q : Nat} (hp : p < 256) (hq : q < 256) (h : rankLog p = rankLog q) :
    p = q := by
  have hnat := congrArg UInt8.toNat h
  rw [rankLog, rankLog, UInt8.toNat_ofNat', UInt8.toNat_ofNat'] at hnat
  omega

/-! ## What a step leaves alone -/

/-- The log a place in a call is about. -/
def Point.log? : Point → Option LogId
  | createCheck id _ => some id
  | createFile id _ => some id
  | remember id _ => some id
  | register id => some id
  | findSoft id => some id
  | findCheck id => some id
  | findOpen id => some id
  | returned _ _ => none
  | stopped _ => none

/-- Log `id` looks the same at two sites. -/
structure Site.SameLog (id : LogId) (s s' : Site) : Prop where
  files : s'.files id = s.files id
  listed : s'.root.isLogExist id = s.root.isLogExist id

theorem Site.SameLog.refl (id : LogId) (s : Site) : Site.SameLog id s s := ⟨rfl, rfl⟩

theorem Site.SameLog.trans {id : LogId} {s s' s'' : Site} (h : SameLog id s s')
    (h' : SameLog id s' s'') : SameLog id s s'' :=
  ⟨h'.files.trans h.files, h'.listed.trans h.listed⟩

/-- **A step of `p` in a call about `id` leaves the other logs and the other processes alone.** -/
theorem Point.Does.frame {p : Nat} {s s' : Site} {pt pt' : Point} (h : pt.Does p s s' pt')
    {id : LogId} (hid : pt.log? = some id) :
    (∀ id', id' ≠ id → Site.SameLog id' s s') ∧
      ∀ q id', q ≠ p ∨ id' ≠ id → s'.idToLogMap q id' = s.idToLogMap q id' := by
  cases h with
  | made hfree h =>
    obtain rfl := Option.some.inj hid
    exact ⟨fun id' hne => ⟨Function.update_of_ne hne .., rfl⟩, fun _ _ _ => rfl⟩
  | reopened h =>
    obtain rfl := Option.some.inj hid
    exact ⟨fun id' hne => ⟨Function.update_of_ne hne .., rfl⟩, fun _ _ _ => rfl⟩
  | remembered h =>
    obtain rfl := Option.some.inj hid
    refine ⟨fun id' _ => ⟨rfl, rfl⟩, fun q id' hne => ?_⟩
    refine (update_entry s.idToLogMap p _ _ q id').trans (if_neg ?_)
    rintro ⟨rfl, rfl⟩
    exact hne.elim (fun h => h rfl) (fun h => h rfl)
  | registered hfree hadd =>
    obtain rfl := Option.some.inj hid
    refine ⟨fun id' hne => ⟨rfl, ?_⟩, fun _ _ _ => rfl⟩
    rw [NvsRoot.addLog_ok hadd, Bool.eq_iff_iff, NvsRoot.isLogExist_added]
    exact ⟨fun h => h.resolve_right hne, Or.inl⟩
  | inUse | unused | notMade | known | full | cached | notCached | listed | unlisted
  | notReopened => exact ⟨fun id' _ => ⟨rfl, rfl⟩, fun _ _ _ => rfl⟩

/-- What a process relies on is about its own log and its own soft state. -/
theorem Stage.frame {id : LogId} {p : Nat} {s s' : Site} {o : Opening} (h : Stage id p s o)
    (hlog : Site.SameLog id s s') (hsoft : s'.idToLogMap p id = s.idToLogMap p id) :
    Stage id p s' o := by
  have hhandle : ∀ {l}, s.Handle id l → s'.Handle id l := by
    rintro l ⟨f, hf, hopens⟩
    exact ⟨f, hlog.files.trans hf, hopens⟩
  cases h with
  | early hpt hnone => exact .early hpt (hsoft.trans hnone)
  | found hlisted hl => exact .found (hlog.listed.trans hlisted) (hhandle hl)
  | making hpt hun hfile hnone =>
    exact .making hpt (hlog.listed.trans hun) (hlog.files.trans hfile) (hsoft.trans hnone)
  | made hun hl hnone => exact .made (hlog.listed.trans hun) (hhandle hl) (hsoft.trans hnone)
  | cached hun hl hsome => exact .cached (hlog.listed.trans hun) (hhandle hl) (hsoft.trans hsome)
  | again hlisted hl hsome =>
    exact .again (hlog.listed.trans hlisted) (hhandle hl) (hsoft.trans hsome)
  | opened hlisted hl => exact .opened (hlog.listed.trans hlisted) (hhandle hl)

/-- Where a process can be, its call is about its log. -/
theorem Stage.frame_step {id : LogId} {p : Nat} {s s' : Site} {o o' : Opening} (h : Stage id p s o)
    (hstep : o.step p id s = some (s', o')) :
    (∀ id', id' ≠ id → Site.SameLog id' s s') ∧
      ∀ q id', q ≠ p ∨ id' ≠ id → s'.idToLogMap q id' = s.idToLogMap q id' := by
  cases h with
  | early hpt _ =>
    obtain ⟨_, hdoes, _⟩ := Opening.find_step hstep
    rcases hpt with rfl | rfl
    · exact hdoes.frame rfl
    · exact hdoes.frame rfl
  | found _ _ =>
    obtain ⟨_, hdoes, _⟩ := Opening.find_step hstep
    exact hdoes.frame rfl
  | making hpt _ _ _ =>
    obtain ⟨_, hdoes, _⟩ := Opening.create_step hstep
    rcases hpt with rfl | rfl
    · exact hdoes.frame rfl
    · exact hdoes.frame rfl
  | made _ _ _ =>
    obtain ⟨_, hdoes, _⟩ := Opening.create_step hstep
    exact hdoes.frame rfl
  | cached _ _ _ =>
    obtain ⟨_, hdoes, _⟩ := Opening.create_step hstep
    exact hdoes.frame rfl
  | again _ _ _ =>
    obtain ⟨_, hdoes, _⟩ := Opening.findAgain_step hstep
    exact hdoes.frame rfl
  | opened _ _ => cases hstep

/-! ## The system -/

namespace Launch

variable {n : Nat}

/-- One rank executes a step of the constructor of its store. -/
inductive Step (name : List Byte) : Openings n → Openings n → Prop
  | run {c : Openings n} {p : Fin n} {id : LogId} {s' : Site} {o' : Opening}
      (hid : logIdOf (rankStore name p) = .ok id)
      (h : (c.place p).step p id c.shared = some (s', o')) : Step name c (c.move p s' o')

/-- The ranks are about to construct their stores.  Logs of an earlier start may be there. -/
structure Start (name : List Byte) (c : Openings n) : Prop where
  ready : ∀ id, c.shared.Ready id
  free : c.shared.held = false
  soft : ∀ (p : Fin n) id, c.shared.idToLogMap p id = none
  place : ∀ p : Fin n, ∃ id, logIdOf (rankStore name p) = .ok id ∧ c.place p = Opening.start id

/-- The invariant of a launch that began at `c₀`. -/
structure Inv (c₀ c : Openings n) : Prop where
  root : ∃ ids : List LogId, c.shared.root.Lists ids ∧ ids.Nodup
  free : c.shared.held = false
  own : ∀ p : Fin n, Stage (rankLog p) p c.shared (c.place p)
  listed : ∀ p : Fin n, c.shared.root.isLogExist (rankLog p) = true →
    ∃ l, c.shared.Handle (rankLog p) l
  unlisted : ∀ p : Fin n, c.shared.root.isLogExist (rankLog p) = false →
    ¬ (c.place p).Creating → c.shared.files (rankLog p) = none
  soft : ∀ p q : Fin n, q ≠ p → c.shared.idToLogMap q (rankLog p) = none
  rest : ∀ id, (∀ p : Fin n, id ≠ rankLog p) → Site.SameLog id c₀.shared c.shared

/-- How rank `p` sees the launch: the others have not begun. -/
def view (c : Openings n) (p : Fin n) : Openings n :=
  Pool.move ⟨c.shared, fun _ => Opening.start (rankLog p)⟩ p c.shared (c.place p)

theorem view_self (c : Openings n) (p : Fin n) : (view c p).place p = c.place p :=
  Pool.move_self ..

theorem view_of_ne (c : Openings n) {p q : Fin n} (h : q ≠ p) :
    (view c p).place q = Opening.start (rankLog p) := Pool.move_of_ne _ _ _ h

section
variable {c₀ c : Openings n} {p : Fin n} {s' : Site} {o' : Opening}

/-- Nobody but the rank itself is creating its log. -/
theorem view_not_creating {q : Fin n} (h : q ≠ p) : ¬ ((view c p).place q).Creating := by
  rw [view_of_ne c h]
  exact fun h => h

/-- **In its own view every rank opens one log.** -/
theorem Inv.seen (hc : Inv c₀ c) (p : Fin n) : (view c p).Inv (rankLog p) := by
  refine ⟨⟨⟨hc.root, hc.free, hc.listed p⟩, ?_, ?_⟩, ?_⟩
  · intro q
    by_cases hq : q = p
    · subst hq
      rw [view_self]
      exact hc.own q
    · rw [view_of_ne c hq]
      exact .early (Or.inl rfl) (hc.soft p q hq)
  · intro q r hqr
    by_cases hq : q = p
    · subst hq
      exact Opening.alone_symm _ _ (Opening.alone_of_not (view_not_creating (Ne.symm hqr)) _)
    · exact Opening.alone_of_not (view_not_creating hq) _
  · intro hunlisted hnobody
    refine hc.unlisted p hunlisted ?_
    have hself := hnobody p
    rw [view_self] at hself
    exact hself

/-- In that view its check of the directory is in order. -/
theorem view_orderly (c : Openings n) (p : Fin n) : Openings.Orderly (rankLog p) (view c p) p := by
  intro hplace
  refine Or.inr (fun q => ?_)
  by_cases hq : q = p
  · rw [hq, hplace]
    exact fun h => h
  · exact view_not_creating hq

theorem Inv.own_step (hc : Inv c₀ c) (h : (c.place p).step p (rankLog p) c.shared = some (s', o')) :
    Openings.Inv ((view c p).move p s' o') (rankLog p) := by
  refine (hc.seen p).step (view_orderly c p) ?_
  rw [view_self]
  exact h

/-- **One step.** -/
theorem Inv.step (hn : n ≤ 256) (hc : Inv c₀ c)
    (h : (c.place p).step p (rankLog p) c.shared = some (s', o')) : Inv c₀ (c.move p s' o') := by
  have hown := hc.own_step h
  obtain ⟨hlogs, hsoft⟩ := (hc.own p).frame_step h
  have hne : ∀ {q : Fin n}, q ≠ p → rankLog q ≠ rankLog p := by
    intro q hq heq
    exact hq (Fin.ext (rankLog_inj (by omega) (by omega) heq))
  constructor
  · exact hown.holds.shared.root
  · exact hown.holds.shared.free
  · intro q
    by_cases hq : q = p
    · subst hq
      have hstage := hown.holds.own q
      rw [Pool.move_self] at hstage ⊢
      exact hstage
    · rw [c.move_of_ne _ _ hq]
      exact (hc.own q).frame (hlogs _ (hne hq)) (hsoft q _ (Or.inr (hne hq)))
  · intro q hlisted
    by_cases hq : q = p
    · subst hq
      exact hown.holds.shared.listed hlisted
    · have hsame := hlogs _ (hne hq)
      obtain ⟨l, f, hf, hopens⟩ := hc.listed q (hsame.listed.symm.trans hlisted)
      exact ⟨l, f, hsame.files.trans hf, hopens⟩
  · intro q hunlisted hnot
    by_cases hq : q = p
    · subst hq
      refine hown.unlisted hunlisted (fun r => ?_)
      by_cases hr : r = q
      · subst hr
        rw [Pool.move_self] at hnot ⊢
        exact hnot
      · rw [Pool.move_of_ne _ _ _ hr]
        exact view_not_creating hr
    · have hsame := hlogs _ (hne hq)
      rw [c.move_of_ne _ _ hq] at hnot
      exact hsame.files.trans (hc.unlisted q (hsame.listed.symm.trans hunlisted) hnot)
  · intro q r hr
    have hsame : s'.idToLogMap r (rankLog q) = c.shared.idToLogMap r (rankLog q) := by
      refine hsoft r _ ?_
      by_cases hq : q = p
      · exact Or.inl (fun heq => hr ((Fin.ext heq).trans hq.symm))
      · exact Or.inr (hne hq)
    exact hsame.trans (hc.soft q r hr)
  · intro id hid
    exact (hc.rest id hid).trans (hlogs id (hid p))

theorem Start.inv {name : List Byte} (hname : 47 ∉ name) (hn : n ≤ 256) (hc : Start name c) :
    Inv c c := by
  have hplace : ∀ p : Fin n, c.place p = Opening.start (rankLog p) := by
    intro p
    obtain ⟨id, hid, hp⟩ := hc.place p
    rw [hp, eq_rankLog hname hn hid]
  refine ⟨(hc.ready 0).root, hc.free, ?_, fun p => (hc.ready _).listed,
    fun p hunlisted _ => (hc.ready _).unlisted hunlisted, fun p q _ => hc.soft q _,
    fun id _ => .refl id _⟩
  intro p
  rw [hplace p]
  exact .early (Or.inl rfl) (hc.soft p _)

theorem Step.inv {name : List Byte} (hname : 47 ∉ name) (hn : n ≤ 256) {c' : Openings n}
    (h : Step name c c') (hc : Inv c₀ c) : Inv c₀ c' := by
  cases h with
  | run hid h =>
    obtain rfl := eq_rankLog hname hn hid
    exact hc.step hn h

theorem Step.left_lt {name : List Byte} {c' : Openings n} (h : Step name c c') :
    c'.left Opening.left < c.left Opening.left := by
  cases h with
  | run hid h => exact c.left_move (Opening.step_does h).2 _

theorem Start.left {name : List Byte} (hc : Start name c) : c.left Opening.left = 10 * n := by
  have hten : ∀ p : Fin n, (c.place p).left = 10 := by
    intro p
    obtain ⟨id, _, hp⟩ := hc.place p
    rw [hp]
    rfl
  rw [Pool.left, Finset.sum_const_nat (fun p _ => hten p), Finset.card_univ, Fintype.card_fin,
    Nat.mul_comm]

end

/-- **What rank `p` can count on at any moment**: it has its handle, on a log that is listed and its
    own, or nothing keeps it from its next step. -/
theorem Inv.goesOn {c₀ c : Openings n} (hc : Inv c₀ c) (p : Fin n) :
    (∃ l f, c.place p = .opened (some l) ∧ c.shared.root.isLogExist (rankLog p) = true ∧
      c.shared.files (rankLog p) = some f ∧ Log.ctor (some f) 0 = .ok (l, f)) ∨
    ∃ s' o', (c.place p).step p (rankLog p) c.shared = some (s', o') := by
  have hstage := hc.own p
  by_cases hopen : ∀ log, c.place p ≠ .opened log
  · obtain ⟨⟨s', o'⟩, hstep⟩ := hstage.enabled hc.free hopen
    exact Or.inr ⟨s', o', hstep⟩
  · rw [not_forall] at hopen
    obtain ⟨log, hlog⟩ := hopen
    rw [not_not] at hlog
    rw [hlog] at hstage
    cases hstage with
    | opened hlisted hhandle =>
      obtain ⟨f, hf, hopens⟩ := hhandle
      exact Or.inl ⟨_, f, hlog, hlisted, hf, hopens⟩

/-- No rank has stopped. -/
theorem Inv.not_stopped {c₀ c : Openings n} (hc : Inv c₀ c) (p : Fin n) (why : Stop) :
    c.place p ≠ .stopped why := by
  intro hp
  have hstage := hc.own p
  rw [hp] at hstage
  cases hstage

end Launch

/-- The ranks 0 and 1 of an application "s", on a machine with no log. -/
def twoRanks : Openings 2 := ⟨Directory.formatted.shared, fun p => Opening.start (rankLog p)⟩

theorem twoRanks_start : Launch.Start [115] twoRanks := by
  refine ⟨fun id => ⟨⟨[], rfl, List.nodup_nil⟩, ?_, fun _ => rfl⟩, rfl, fun _ _ => rfl, ?_⟩
  · intro h
    cases h
  · intro p
    exact ⟨rankLog p, logIdOf_rankStore (by decide) (by omega), rfl⟩

end NvStream
