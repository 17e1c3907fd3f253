/-
  Loops that follow links: when do they end?

  A loop is a round `step` on its state: the round stops the program with an error, leaves the loop
  with a value, or goes on with another state.  `loop` performs it with a bound on the number of rounds.
  The rounds may themselves be loops with a bound, so `step` takes that bound too; `Stable` says
  that a larger one changes nothing once a round has ended.

  The states a loop can meet from `a` are those its links lead to.  `Sound` says of any links that all
  states met are good and that none leads back to itself.

  1. **Ending**: if only finitely many states can be met, the loop comes to a good end if and only if
     the links from `a` are sound: every round met comes to a good end, and no state comes back.  From
     sound links to an end (`ends_of_sound`) it is the pigeonhole (`Sound.induction`); from an end to
     sound links (`sound_of_ends`), a state that comes back comes back for ever.
  2. **Results** (`loop_eq_ok_iff`): what the loop returns is what the last state met returns.
  3. **Other links** (`sound_congr`): soundness only looks at what is met, so links may be described
     differently where the states are good.
-/
import Mathlib.Logic.Relation
import Mathlib.Data.Fintype.Card
import Mathlib.Data.Set.Finite.Basic

namespace Following

open Relation

variable {σ ε β : Type}

/-! ## Links -/

/-- From `a`, following `R`: every state met is good, and none leads back to itself. -/
def Sound (R : σ → σ → Prop) (good : σ → Prop) (a : σ) : Prop :=
  ∀ b, ReflTransGen R a b → good b ∧ ¬ TransGen R b b

section
variable {R R' : σ → σ → Prop} {good good' : σ → Prop} {a : σ}

/-- Of finitely many states none of which comes back, the last ones come first. -/
theorem Sound.induction (h : Sound R good a) (hfin : {b | ReflTransGen R a b}.Finite)
    {P : σ → Prop} (hstep : ∀ b, good b → (∀ c, R b c → P c) → P b) : P a := by
  let met := {b | ReflTransGen R a b}
  have : Finite met := hfin
  have : IsTrans met (fun x y => TransGen R y.1 x.1) := ⟨fun _ _ _ hxy hyz => hyz.trans hxy⟩
  have : Std.Irrefl (fun x y : met => TransGen R y.1 x.1) := ⟨fun x => (h x.1 x.2).2⟩
  have hwf : WellFounded (fun x y : met => TransGen R y.1 x.1) :=
    Finite.wellFounded_of_trans_of_irrefl _
  refine hwf.induction (C := fun x => P x.1) ⟨a, .refl⟩ (fun x ih => ?_)
  exact hstep x.1 (h x.1 x.2).1 (fun c hc => ih ⟨c, x.2.tail hc⟩ (.single hc))

/-- Links into a finite set meet finitely many states. -/
theorem finite_met {S : Set σ} (hS : S.Finite) (h : ∀ b c, R b c → c ∈ S) :
    {b | ReflTransGen R a b}.Finite := by
  refine (hS.insert a).subset (fun b hb => ?_)
  cases hb with
  | refl => exact Set.mem_insert a S
  | tail _ hlast => exact Set.mem_insert_of_mem a (h _ b hlast)

/-- A path along other links is a path, as long as it only meets states where the links agree. -/
theorem path_of_links (hlink : ∀ b c, ReflTransGen R a b → R' b c → R b c) {b c : σ}
    (hb : ReflTransGen R a b) (h : ReflTransGen R' b c) : ReflTransGen R b c := by
  induction h with
  | refl => exact .refl
  | tail _ hlast ih => exact ih.tail (hlink _ _ (hb.trans ih) hlast)

/-- **Sound links may be described differently** where the states are good. -/
theorem Sound.of_links (h : Sound R good a) (hgood : ∀ b, good b → good' b)
    (hlink : ∀ b c, good b → R' b c → R b c) : Sound R' good' a := by
  have hlink' : ∀ b c, ReflTransGen R a b → R' b c → R b c :=
    fun b c hb => hlink b c (h b hb).1
  intro b hb
  have hmet : ReflTransGen R a b := path_of_links hlink' .refl hb
  refine ⟨hgood b (h b hmet).1, fun hback => (h b hmet).2 ?_⟩
  obtain ⟨c, hfirst, hrest⟩ := TransGen.head'_iff.mp hback
  have hfirst' := hlink' b c hmet hfirst
  exact TransGen.head'_iff.mpr
    ⟨c, hfirst', path_of_links hlink' (hmet.tail hfirst') hrest⟩

theorem sound_congr (hgood : ∀ b, good b ↔ good' b) (hlink : ∀ b c, good b → (R b c ↔ R' b c)) :
    Sound R good a ↔ Sound R' good' a := by
  constructor
  · intro h
    exact h.of_links (fun b => (hgood b).mp) (fun b c hb => (hlink b c hb).mpr)
  · intro h
    exact h.of_links (fun b => (hgood b).mpr) (fun b c hb => (hlink b c ((hgood b).mpr hb)).mp)

/-- A path along sound links only meets good states. -/
theorem Sound.path (h : Sound R good a) (hlink : ∀ b c, good b → R b c → R' b c) {b : σ}
    (hb : ReflTransGen R a b) : ReflTransGen R' a b := by
  induction hb with
  | refl => exact .refl
  | tail hmet hlast ih => exact ih.tail (hlink _ _ (h _ hmet).1 hlast)

end

/-! ## Loops with a bound -/

/-- At most so many rounds; `out` says that they were too few. -/
def loop (step : σ → Except ε (σ ⊕ β)) (out : ε) : Nat → σ → Except ε β
  | 0, _ => .error out
  | n + 1, s =>
    match step s with
    | .error e => .error e
    | .ok (.inl s') => loop step out n s'
    | .ok (.inr b) => .ok b

section
variable {step : σ → Except ε (σ ⊕ β)} {s : σ}

theorem loop_error {e : ε} (h : step s = .error e) (out : ε) (n : Nat) :
    loop step out (n + 1) s = .error e := by rw [loop, h]

theorem loop_next {s' : σ} (h : step s = .ok (.inl s')) (out : ε) (n : Nat) :
    loop step out (n + 1) s = loop step out n s' := by rw [loop, h]

theorem loop_done {b : β} (h : step s = .ok (.inr b)) (out : ε) (n : Nat) :
    loop step out (n + 1) s = .ok b := by rw [loop, h]

end

/-- It returned, or stopped for a reason that counts as good. -/
def WellEnded {γ : Type} (good : ε → Prop) : Except ε γ → Prop
  | .ok _ => True
  | .error e => good e

theorem wellEnded_ok {γ : Type} (good : ε → Prop) (c : γ) : WellEnded good (.ok c) := trivial

theorem wellEnded_error_iff {γ : Type} {good : ε → Prop} {e : ε} :
    WellEnded good (.error e : Except ε γ) ↔ good e := Iff.rfl

-- From here on it is used through these two only: unfolding it would run the program.
attribute [irreducible] WellEnded

/-- A round that has ended ends the same with a larger bound. -/
def Stable (out : ε) (step : Nat → σ → Except ε (σ ⊕ β)) : Prop :=
  ∀ n n' s, n ≤ n' → step n s ≠ .error out → step n' s = step n s

/-- A round, with some bound, goes on from `a` to `b`. -/
def Leads (step : Nat → σ → Except ε (σ ⊕ β)) (a b : σ) : Prop := ∃ n, step n a = .ok (.inl b)

/-- A round from `a`, with some bound, comes to a good end. -/
def RoundEnds (good : ε → Prop) (step : Nat → σ → Except ε (σ ⊕ β)) (a : σ) : Prop :=
  ∃ n, WellEnded good (step n a)

/-- A loop that has ended ends the same with a larger bound. -/
theorem loop_stable (step : σ → Except ε (σ ⊕ β)) (out : ε) {n n' : Nat} {s : σ} (hle : n ≤ n')
    (h : loop step out n s ≠ .error out) : loop step out n' s = loop step out n s := by
  induction n generalizing n' s with
  | zero => exact absurd rfl h
  | succ n ih =>
    obtain ⟨n', rfl⟩ : ∃ k, n' = k + 1 := ⟨n' - 1, by omega⟩
    cases hs : step s with
    | error e => rw [loop_error hs, loop_error hs]
    | ok r =>
      cases r with
      | inr b => rw [loop_done hs, loop_done hs]
      | inl s' =>
        rw [loop_next hs] at h
        rw [loop_next hs, loop_next hs]
        exact ih (by omega) h

/-- **What a loop returns, a state it meets returns.** -/
theorem loop_eq_ok_iff (step : σ → Except ε (σ ⊕ β)) (out : ε) {a : σ} {x : β} :
    (∃ n, loop step out n a = .ok x) ↔
      ∃ c, ReflTransGen (fun b c => step b = .ok (.inl c)) a c ∧ step c = .ok (.inr x) := by
  constructor
  · rintro ⟨n, hn⟩
    induction n generalizing a with
    | zero => cases hn
    | succ n ih =>
      cases hs : step a with
      | error e =>
        rw [loop_error hs] at hn
        cases hn
      | ok r =>
        cases r with
        | inr y =>
          rw [loop_done hs] at hn
          obtain rfl : y = x := Except.ok.inj hn
          exact ⟨a, .refl, hs⟩
        | inl s' =>
          rw [loop_next hs] at hn
          obtain ⟨c, hc, hx⟩ := ih hn
          exact ⟨c, .head hs hc, hx⟩
  · rintro ⟨c, hc, hx⟩
    induction hc using ReflTransGen.head_induction_on with
    | refl => exact ⟨1, loop_done hx out 0⟩
    | head hfirst _ ih =>
      obtain ⟨n, hn⟩ := ih
      exact ⟨n + 1, (loop_next hfirst out n).trans hn⟩

section
variable {step : Nat → σ → Except ε (σ ⊕ β)} {out : ε} {good : ε → Prop} {a b : σ}

theorem WellEnded.ne_out {γ : Type} {r : Except ε γ} (h : WellEnded good r) (hout : ¬ good out) :
    r ≠ .error out := by
  rintro rfl
  exact hout (wellEnded_error_iff.mp h)

/-- What a round leads to does not depend on the bound, once it has ended. -/
theorem Leads.step_eq (hst : Stable out step) (h : Leads step a b) {n : Nat}
    (hn : step n a ≠ .error out) : step n a = .ok (.inl b) := by
  obtain ⟨k, hk⟩ := h
  rcases Nat.le_total n k with hle | hle
  · rw [← hst n k a hle hn]
    exact hk
  · have hend : step k a ≠ .error out := by
      rw [hk]
      intro h
      cases h
    rw [hst k n a hle hend]
    exact hk

/-- Of a loop that ends well, the first round does. -/
theorem round_of_loop (hout : ¬ good out) {n k : Nat}
    (h : WellEnded good (loop (step n) out k a)) : WellEnded good (step n a) := by
  cases k with
  | zero => exact absurd (wellEnded_error_iff.mp h) hout
  | succ k =>
    cases hs : step n a with
    | error e =>
      rw [loop_error hs] at h
      exact wellEnded_error_iff.mpr (wellEnded_error_iff.mp h)
    | ok r => exact wellEnded_ok _ _

/-- And what it leads to ends well in fewer rounds. -/
theorem loop_of_leads (hst : Stable out step) (hout : ¬ good out) {n k : Nat}
    (h : WellEnded good (loop (step n) out k a)) (hab : Leads step a b) :
    ∃ j < k, WellEnded good (loop (step n) out j b) := by
  have hstep := hab.step_eq hst ((round_of_loop hout h).ne_out hout)
  cases k with
  | zero => exact absurd (wellEnded_error_iff.mp h) hout
  | succ k =>
    rw [loop_next hstep] at h
    exact ⟨k, Nat.lt_succ_self k, h⟩

/-- Along a whole path. -/
theorem loop_of_path (hst : Stable out step) (hout : ¬ good out) {n k : Nat}
    (h : WellEnded good (loop (step n) out k a)) (hab : ReflTransGen (Leads step) a b) :
    ∃ j ≤ k, WellEnded good (loop (step n) out j b) := by
  induction hab with
  | refl => exact ⟨k, Nat.le_refl k, h⟩
  | tail _ hlast ih =>
    obtain ⟨j, hj, hend⟩ := ih
    obtain ⟨i, hi, hend'⟩ := loop_of_leads hst hout hend hlast
    exact ⟨i, by omega, hend'⟩

/-- A state that comes back comes back with ever fewer rounds left. -/
theorem not_back (hst : Stable out step) (hout : ¬ good out) {n k : Nat}
    (h : WellEnded good (loop (step n) out k a)) : ¬ TransGen (Leads step) a a := by
  intro hback
  induction k using Nat.strongRecOn with
  | ind k ih =>
    obtain ⟨b, hfirst, hrest⟩ := TransGen.head'_iff.mp hback
    obtain ⟨j, hj, hend⟩ := loop_of_leads hst hout h hfirst
    obtain ⟨i, hi, hend'⟩ := loop_of_path hst hout hend hrest
    exact ih i (by omega) hend'

/-- **A loop that ends well has followed sound links.** -/
theorem sound_of_ends (hst : Stable out step) (hout : ¬ good out) {n k : Nat}
    (h : WellEnded good (loop (step n) out k a)) :
    Sound (Leads step) (RoundEnds good step) a := by
  intro b hab
  obtain ⟨j, _, hend⟩ := loop_of_path hst hout h hab
  exact ⟨⟨n, round_of_loop hout hend⟩, not_back hst hout hend⟩

/-- **A loop along finitely many sound links ends well**, with every bound from some on: for its
    rounds and for their number. -/
theorem ends_of_sound (hst : Stable out step) (hout : ¬ good out)
    (hfin : {b | ReflTransGen (Leads step) a b}.Finite)
    (hsound : Sound (Leads step) (RoundEnds good step) a) :
    ∃ N, ∀ n ≥ N, ∀ k ≥ N, WellEnded good (loop (step n) out k a) := by
  refine hsound.induction (P := fun b => ∃ N, ∀ n ≥ N, ∀ k ≥ N,
    WellEnded good (loop (step n) out k b)) hfin (fun b hround ih => ?_)
  obtain ⟨m, hm⟩ := hround
  have hstep : ∀ n ≥ m, step n b = step m b :=
    fun n hn => hst m n b hn (hm.ne_out hout)
  cases hs : step m b with
  | error e =>
    rw [hs] at hm
    refine ⟨m + 1, fun n hn k hk => ?_⟩
    obtain ⟨k, rfl⟩ : ∃ j, k = j + 1 := ⟨k - 1, by omega⟩
    rw [loop_error ((hstep n (by omega)).trans hs)]
    exact wellEnded_error_iff.mpr (wellEnded_error_iff.mp hm)
  | ok r =>
    cases r with
    | inr x =>
      refine ⟨m + 1, fun n hn k hk => ?_⟩
      obtain ⟨k, rfl⟩ : ∃ j, k = j + 1 := ⟨k - 1, by omega⟩
      rw [loop_done ((hstep n (by omega)).trans hs)]
      exact wellEnded_ok _ _
    | inl c =>
      obtain ⟨N, hN⟩ := ih c ⟨m, hs⟩
      refine ⟨max m (N + 1), fun n hn k hk => ?_⟩
      obtain ⟨k, rfl⟩ : ∃ j, k = j + 1 := ⟨k - 1, by omega⟩
      rw [loop_next ((hstep n (by omega)).trans hs)]
      exact hN n (by omega) k (by omega)

end

end Following
