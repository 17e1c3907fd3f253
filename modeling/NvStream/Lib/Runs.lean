/-
  Rules for runs of a step relation.

  A run is Mathlib's `Relation.ReflTransGen` of the steps.  What one step keeps, a run keeps
  (`invariant`); and what one step does to a state, seen through a reflexive and transitive relation,
  a run does (`invariant_rel`).  Runs of an image come from runs (`lift`).  Where every step lowers a
  number, runs are short (`Steps.le`) and can be carried to an end (`exists_end`).
-/
import Mathlib.Logic.Relation

namespace Runs

variable {σ : Type} {step : σ → σ → Prop} {P : σ → Prop} {s s' : σ}

/-- **The invariant rule.** -/
theorem invariant (hstep : ∀ {a b}, step a b → P a → P b) (hrun : Relation.ReflTransGen step s s')
    (hs : P s) : P s' := by
  induction hrun with
  | refl => exact hs
  | tail _ h ih => exact hstep h ih

/-- The invariant rule, with what the steps do to the state they start from. -/
theorem invariant_rel {R : σ → σ → Prop} (hrefl : ∀ a, R a a)
    (htrans : ∀ {a b c}, R a b → R b c → R a c) (hstep : ∀ {a b}, step a b → P a → P b ∧ R a b)
    (hrun : Relation.ReflTransGen step s s') (hs : P s) : P s' ∧ R s s' := by
  induction hrun with
  | refl => exact ⟨hs, hrefl s⟩
  | tail _ h ih =>
    obtain ⟨hP, hR⟩ := hstep h ih.1
    exact ⟨hP, htrans ih.2 hR⟩

/-- **Runs are carried back along a map.**  If every step of the image of a state is the image of a
    step, then so is every run. -/
theorem lift {τ : Type} {step' : τ → τ → Prop} (f : σ → τ)
    (hstep : ∀ {a t}, P a → step' (f a) t → ∃ b, step a b ∧ f b = t ∧ P b) {t : τ}
    (hrun : Relation.ReflTransGen step' (f s) t) (hs : P s) :
    ∃ s', Relation.ReflTransGen step s s' ∧ f s' = t ∧ P s' := by
  induction hrun with
  | refl => exact ⟨s, .refl, rfl, hs⟩
  | tail _ h ih =>
    obtain ⟨a, hrun, rfl, ha⟩ := ih
    obtain ⟨b, hab, hb, hP⟩ := hstep ha h
    exact ⟨b, .tail hrun hab, hb, hP⟩

/-- A run of so many steps. -/
inductive Steps (step : σ → σ → Prop) : Nat → σ → σ → Prop
  | none (s : σ) : Steps step 0 s s
  | next {n : Nat} {a b c : σ} (hrun : Steps step n a b) (h : step b c) : Steps step (n + 1) a c

theorem Steps.run {n : Nat} (h : Steps step n s s') : Relation.ReflTransGen step s s' := by
  induction h with
  | none s => exact .refl
  | next _ h ih => exact .tail ih h

/-- A run is no longer than the number its steps lower. -/
theorem Steps.le {left : σ → Nat} (hstep : ∀ {a b}, step a b → left b < left a) {n : Nat}
    (h : Steps step n s s') : n + left s' ≤ left s := by
  induction h with
  | none s => exact Nat.le_of_eq (Nat.zero_add _)
  | next _ h ih =>
    have := hstep h
    omega

/-- A run can be carried on until nothing moves. -/
theorem exists_end {left : σ → Nat} (hstep : ∀ {a b}, step a b → left b < left a) (s : σ) :
    ∃ s', Relation.ReflTransGen step s s' ∧ ∀ t, ¬ step s' t := by
  induction hn : left s using Nat.strongRecOn generalizing s with
  | ind n ih =>
    by_cases hmore : ∃ t, step s t
    · obtain ⟨t, ht⟩ := hmore
      obtain ⟨s', hrun, hend⟩ := ih (left t) (hn ▸ hstep ht) t rfl
      exact ⟨s', .head ht hrun, hend⟩
    · exact ⟨s, .refl, fun t ht => hmore ⟨t, ht⟩⟩

end Runs
