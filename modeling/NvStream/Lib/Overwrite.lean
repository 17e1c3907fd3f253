/-
  Writes into a map, one after the other.

  A list of writes is read in two ways.  In a place that is overwritten the LAST write to a key
  counts (`last`, `writeAll_apply`); in a record that is only appended to and searched from the
  front, the FIRST (`first`).  The two agree where nobody writes something else to a key written
  before (`first_eq_last`).
-/
import Mathlib.Algebra.Order.Ring.Nat
import Mathlib.Logic.Function.Basic
import Mathlib.Data.List.Basic

namespace Overwrite

variable {κ κ' α : Type} [DecidableEq κ] [DecidableEq κ']

/-- The map after the writes. -/
def writeAll (m : κ → Option α) (ws : List (κ × α)) : κ → Option α :=
  ws.foldl (fun m w => Function.update m w.1 (some w.2)) m

/-- What the last write to a key wrote. -/
def last : List (κ × α) → κ → Option α
  | [], _ => none
  | w :: ws, k => (last ws k).or (if w.1 = k then some w.2 else none)

/-- What the first write to a key wrote. -/
def first : List (κ × α) → κ → Option α
  | [], _ => none
  | w :: ws, k => if w.1 = k then some w.2 else first ws k

/-- **The last write counts.** -/
theorem writeAll_apply (m : κ → Option α) (ws : List (κ × α)) (k : κ) :
    writeAll m ws k = (last ws k).or (m k) := by
  induction ws generalizing m with
  | nil => rfl
  | cons w ws ih =>
    show writeAll (Function.update m w.1 (some w.2)) ws k = _
    rw [ih, last, Option.or_assoc]
    congr 1
    by_cases hk : w.1 = k
    · subst hk
      rw [Function.update_self, if_pos rfl]
      rfl
    · rw [Function.update_of_ne (Ne.symm hk), if_neg hk]
      rfl

theorem last_append (ws ws' : List (κ × α)) (k : κ) :
    last (ws ++ ws') k = (last ws' k).or (last ws k) := by
  induction ws with
  | nil => rw [List.nil_append, last, Option.or_none]
  | cons w ws ih => rw [List.cons_append, last, last, ih, Option.or_assoc]

/-- The newest write. -/
theorem last_concat (ws : List (κ × α)) (w : κ × α) (k : κ) :
    last (ws ++ [w]) k = if w.1 = k then some w.2 else last ws k := by
  rw [last_append, last, last, Option.none_or]
  by_cases hk : w.1 = k
  · rw [if_pos hk, if_pos hk, Option.some_or]
  · rw [if_neg hk, if_neg hk, Option.none_or]

theorem last_eq_none {ws : List (κ × α)} {k : κ} : last ws k = none ↔ ∀ w ∈ ws, w.1 ≠ k := by
  induction ws with
  | nil => exact ⟨fun _ w hw => absurd hw List.not_mem_nil, fun _ => rfl⟩
  | cons w ws ih =>
    rw [last, Option.or_eq_none_iff, ih, List.forall_mem_cons, and_comm]
    refine and_congr_left (fun _ => ?_)
    constructor
    · intro h hk
      rw [if_pos hk] at h
      cases h
    · intro h
      exact if_neg h

theorem mem_of_last {ws : List (κ × α)} {k : κ} {x : α} (h : last ws k = some x) :
    (k, x) ∈ ws := by
  induction ws with
  | nil => cases h
  | cons w ws ih =>
    rw [last, Option.or_eq_some_iff] at h
    rcases h with h | ⟨_, h⟩
    · exact List.mem_cons_of_mem w (ih h)
    · obtain ⟨hk, hx⟩ := Option.ite_none_right_eq_some.mp h
      rw [← hk, ← Option.some.inj hx]
      exact List.mem_cons_self

/-- Keys may be renamed, as long as the key asked for keeps a name of its own. -/
theorem last_map {f : κ → κ'} {ws : List (κ × α)} {k : κ}
    (h : ∀ w ∈ ws, f w.1 = f k → w.1 = k) :
    last (ws.map (fun w => (f w.1, w.2))) (f k) = last ws k := by
  induction ws with
  | nil => rfl
  | cons w ws ih =>
    rw [List.map_cons, last, last, ih (fun w' hw' => h w' (List.mem_cons_of_mem w hw'))]
    congr 1
    by_cases hk : w.1 = k
    · rw [if_pos hk, if_pos (congrArg f hk)]
    · rw [if_neg hk, if_neg (fun heq => hk (h w List.mem_cons_self heq))]

theorem mem_of_first {ws : List (κ × α)} {k : κ} {x : α} (h : first ws k = some x) :
    (k, x) ∈ ws := by
  induction ws with
  | nil => cases h
  | cons w ws ih =>
    rw [first] at h
    split at h
    · rename_i hk
      rw [← hk, ← Option.some.inj h]
      exact List.mem_cons_self
    · exact List.mem_cons_of_mem w (ih h)

theorem first_eq_none {ws : List (κ × α)} {k : κ} : first ws k = none ↔ ∀ w ∈ ws, w.1 ≠ k := by
  induction ws with
  | nil => exact ⟨fun _ w hw => absurd hw List.not_mem_nil, fun _ => rfl⟩
  | cons w ws ih =>
    rw [first, List.forall_mem_cons]
    constructor
    · intro h
      split at h
      · cases h
      · rename_i hk
        exact ⟨hk, ih.mp h⟩
    · rintro ⟨hk, h⟩
      rw [if_neg hk, ih.mpr h]

/-- Nobody writes something else to a key written before. -/
def Steady (ws : List (κ × α)) : Prop := ∀ w ∈ ws, ∀ w' ∈ ws, w.1 = w'.1 → w.2 = w'.2

omit [DecidableEq κ] in
theorem Steady.concat {ws : List (κ × α)} (h : Steady ws) {w : κ × α}
    (hw : ∀ w' ∈ ws, w'.1 = w.1 → w'.2 = w.2) : Steady (ws ++ [w]) := by
  intro a ha b hb hkey
  rw [List.mem_append, List.mem_singleton] at ha hb
  rcases ha with ha | rfl <;> rcases hb with hb | rfl
  · exact h a ha b hb hkey
  · exact hw a ha hkey
  · exact (hw b hb hkey.symm).symm
  · rfl

/-- **First and last write agree** where the writes are steady. -/
theorem first_eq_last {ws : List (κ × α)} (h : Steady ws) (k : κ) : first ws k = last ws k := by
  cases hlast : last ws k with
  | none => exact first_eq_none.mpr (last_eq_none.mp hlast)
  | some x =>
    cases hfirst : first ws k with
    | none => exact absurd rfl (first_eq_none.mp hfirst _ (mem_of_last hlast))
    | some y => exact congrArg some (h _ (mem_of_first hfirst) _ (mem_of_last hlast) rfl)

end Overwrite
