/-
  Processes that share a state and take turns.

  A `Pool` is a shared state and, for every process, the place it has reached.  One MOVE changes the
  shared state and the place of one process.  Facts about a pool come in three kinds, and `Holds`
  keeps them apart:

      shared    what the shared state satisfies
      own       what a process at its place relies on
      apart     what two processes cannot do at the same time

  `Holds.move` is the rule for one move: the mover shows its own facts, and that it does not disturb
  a process that is apart from it.

  `drive` is the other extreme: a process that nobody disturbs.
-/
import Mathlib.Algebra.Order.BigOperators.Group.Finset
import Mathlib.Algebra.Order.Ring.Nat
import Mathlib.Logic.Relation

namespace Interleave

/-- A shared state, and where each process is. -/
structure Pool (ι σ π : Type) where
  shared : σ
  place : ι → π

variable {ι σ π : Type} [DecidableEq ι]

/-- Process `p` moves to `a'` and leaves the shared state as `s'`. -/
def Pool.move (c : Pool ι σ π) (p : ι) (s' : σ) (a' : π) : Pool ι σ π :=
  ⟨s', Function.update c.place p a'⟩

@[simp] theorem Pool.move_self (c : Pool ι σ π) (p : ι) (s' : σ) (a' : π) :
    (c.move p s' a').place p = a' := Function.update_self ..

theorem Pool.move_of_ne (c : Pool ι σ π) {p q : ι} (s' : σ) (a' : π) (h : q ≠ p) :
    (c.move p s' a').place q = c.place q := Function.update_of_ne h ..

/-- What the mover has at its new place, and the others at theirs, all have behind the move. -/
theorem Pool.forall_move {P : ι → π → Prop} (c : Pool ι σ π) (p : ι) (s' : σ) (a' : π)
    (hself : P p a') (hother : ∀ q, q ≠ p → P q (c.place q)) (q : ι) :
    P q ((c.move p s' a').place q) := by
  by_cases hq : q = p
  · subst hq
    rw [c.move_self]
    exact hself
  · rw [c.move_of_ne s' a' hq]
    exact hother q hq

theorem Pool.move_move (c : Pool ι σ π) (p : ι) (s s' : σ) (a a' : π) :
    (c.move p s a).move p s' a' = c.move p s' a' := by
  rw [Pool.move, Pool.move, Pool.move, Function.update_idem]

theorem Pool.move_stay (c : Pool ι σ π) (p : ι) : c.move p c.shared (c.place p) = c := by
  rw [Pool.move, Function.update_eq_self]

/-- What is known of a pool. -/
structure Holds (shared : σ → Prop) (own : ι → σ → π → Prop) (apart : π → π → Prop)
    (c : Pool ι σ π) : Prop where
  shared : shared c.shared
  own : ∀ p, own p c.shared (c.place p)
  apart : ∀ p q, p ≠ q → apart (c.place p) (c.place q)

/-- **One move.**  The other processes keep what they rely on, because the mover is apart from
    them. -/
theorem Holds.move {I : σ → Prop} {A : ι → σ → π → Prop} {B : π → π → Prop} {c : Pool ι σ π}
    (hc : Holds I A B c) (hsymm : ∀ a b, B a b → B b a) {p : ι} {s' : σ} {a' : π} (hI : I s')
    (hA : A p s' a')
    (hother : ∀ q, q ≠ p → A q c.shared (c.place q) → B (c.place p) (c.place q) →
      A q s' (c.place q) ∧ B a' (c.place q)) :
    Holds I A B (c.move p s' a') := by
  have hmoved : ∀ q, q ≠ p → A q s' (c.place q) ∧ B a' (c.place q) := by
    intro q hq
    exact hother q hq (hc.own q) (hc.apart p q (Ne.symm hq))
  refine ⟨hI, c.forall_move (P := fun q a => A q s' a) p s' a' hA (fun q hq => (hmoved q hq).1), ?_⟩
  intro q r hqr
  by_cases hq : q = p
  · subst hq
    rw [c.move_self, c.move_of_ne s' a' (Ne.symm hqr)]
    exact (hmoved r (Ne.symm hqr)).2
  · by_cases hr : r = p
    · subst hr
      rw [c.move_self, c.move_of_ne s' a' hq]
      exact hsymm _ _ (hmoved q hq).2
    · rw [c.move_of_ne s' a' hq, c.move_of_ne s' a' hr]
      exact hc.apart q r hqr

/-! ## Steps left -/

/-- What finitely many processes have left to do, taken together. -/
def Pool.left {n : Nat} (left : π → Nat) (c : Pool (Fin n) σ π) : Nat := ∑ p, left (c.place p)

theorem Pool.left_move {n : Nat} {left : π → Nat} {c : Pool (Fin n) σ π} {p : Fin n} {a' : π}
    (h : left a' < left (c.place p)) (s' : σ) : (c.move p s' a').left left < c.left left := by
  refine Finset.sum_lt_sum ?_ ⟨p, Finset.mem_univ p, ?_⟩
  · intro q _
    by_cases hq : q = p
    · subst hq
      rw [c.move_self]
      exact h.le
    · rw [c.move_of_ne s' a' hq]
  · rw [c.move_self]
    exact h

/-! ## One process alone -/

/-- At most `fuel` steps of one process. -/
def drive (step : σ → π → Option (σ × π)) : Nat → σ → π → σ × π
  | 0, s, a => (s, a)
  | fuel + 1, s, a =>
    match step s a with
    | none => (s, a)
    | some next => drive step fuel next.1 next.2

theorem drive_step {step : σ → π → Option (σ × π)} {s s' : σ} {a a' : π}
    (h : step s a = some (s', a')) (fuel : Nat) :
    drive step (fuel + 1) s a = drive step fuel s' a' := by
  rw [drive, h]

theorem drive_stuck {step : σ → π → Option (σ × π)} {s : σ} {a : π} (h : step s a = none)
    (fuel : Nat) : drive step fuel s a = (s, a) := by
  cases fuel with
  | zero => rfl
  | succ fuel => rw [drive, h]

/-- A process that goes on alone is a run of the pool. -/
theorem drive_run {step : σ → π → Option (σ × π)} {R : Pool ι σ π → Pool ι σ π → Prop} {p : ι}
    (hR : ∀ {c : Pool ι σ π} {s' : σ} {a' : π}, step c.shared (c.place p) = some (s', a') →
      R c (c.move p s' a'))
    {n : Nat} {c : Pool ι σ π} {s' : σ} {a' : π}
    (h : drive step n c.shared (c.place p) = (s', a')) :
    Relation.ReflTransGen R c (c.move p s' a') := by
  induction n generalizing c with
  | zero =>
    cases h
    rw [c.move_stay p]
  | succ n ih =>
    cases hstep : step c.shared (c.place p) with
    | none =>
      rw [drive_stuck hstep] at h
      cases h
      rw [c.move_stay p]
    | some next =>
      rw [drive_step hstep] at h
      have hrest : drive step n (c.move p next.1 next.2).shared
          ((c.move p next.1 next.2).place p) = (s', a') := by
        rw [c.move_self]
        exact h
      have hrun := ih hrest
      rw [c.move_move] at hrun
      exact .head (hR hstep) hrun

end Interleave
