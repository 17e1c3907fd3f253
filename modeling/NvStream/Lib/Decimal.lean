/-
  Numbers in decimal, as bytes.

  `decimal` writes a number, `value` reads a string of digits, and reading undoes writing
  (`value_decimal`), so writing is injective.  A text followed by a number can be taken apart again as
  long as the text does not end in a digit (`append_decimal_inj`).
-/
import NvStream.Lib.LittleEndian
import Mathlib.Data.Nat.Digits.Lemmas

namespace Decimal

open LittleEndian

/-- The character of a digit. -/
def digit (d : Nat) : Byte := Fin.ofNat 256 (48 + d)

/-- `'0' .. '9'` -/
def isDigit (b : Byte) : Bool := 48 ≤ b.val && b.val ≤ 57

/-- `isspace`, in the C locale. -/
def isSpace (b : Byte) : Bool := b = 32 || (9 ≤ b.val && b.val ≤ 13)

/-- A number without leading zeros. -/
def decimal (n : Nat) : List Byte :=
  if n = 0 then [digit 0] else ((Nat.digits 10 n).map digit).reverse

/-- The number a string of digits stands for. -/
def value (bs : List Byte) : Nat := bs.foldl (fun n b => 10 * n + (b.val - 48)) 0

theorem val_digit {d : Nat} (h : d < 10) : (digit d).val = 48 + d := by
  show (48 + d) % 256 = 48 + d
  omega

theorem value_reverse {ds : List Nat} (h : ∀ d ∈ ds, d < 10) :
    value (ds.map digit).reverse = Nat.ofDigits 10 ds := by
  rw [value, List.foldl_reverse, List.foldr_map]
  induction ds with
  | nil => rfl
  | cons d ds ih =>
    rw [List.foldr_cons, ih (fun d' hd' => h d' (List.mem_cons_of_mem d hd')), Nat.ofDigits_cons,
      val_digit (h d List.mem_cons_self)]
    omega

/-- **Reading undoes writing.** -/
theorem value_decimal (n : Nat) : value (decimal n) = n := by
  rw [decimal]
  split
  · rename_i h
    rw [h]
    rfl
  · rw [value_reverse (fun d hd => Nat.digits_lt_base (by decide) hd), Nat.ofDigits_digits]

theorem decimal_injective {m n : Nat} (h : decimal m = decimal n) : m = n := by
  rw [← value_decimal m, h, value_decimal]

theorem isDigit_of_mem {n : Nat} {b : Byte} (h : b ∈ decimal n) : isDigit b = true := by
  have hdigit : ∀ d < 10, isDigit (digit d) = true := by decide
  rw [decimal] at h
  split at h
  · rw [List.mem_singleton.mp h]
    exact hdigit 0 (by decide)
  · rw [List.mem_reverse, List.mem_map] at h
    obtain ⟨d, hd, rfl⟩ := h
    exact hdigit d (Nat.digits_lt_base (by decide) hd)

theorem not_space_of_isDigit {b : Byte} (h : isDigit b = true) :
    isSpace b = false ∧ b ≠ 45 ∧ b ≠ 43 := by
  rw [isDigit, Bool.and_eq_true, decide_eq_true_eq, decide_eq_true_eq] at h
  have hne : ∀ k : Byte, k.val < 48 → b ≠ k := by
    intro k hk heq
    rw [heq] at h
    omega
  refine ⟨?_, hne 45 (by decide), hne 43 (by decide)⟩
  rw [isSpace, Bool.or_eq_false_iff, Bool.and_eq_false_iff]
  refine ⟨decide_eq_false (hne 32 (by decide)), Or.inr (decide_eq_false ?_)⟩
  omega

theorem decimal_ne_nil (n : Nat) : decimal n ≠ [] := by
  rw [decimal]
  split
  · exact List.cons_ne_nil _ _
  · rename_i h
    rw [Ne, List.reverse_eq_nil_iff, List.map_eq_nil_iff, Nat.digits_eq_nil_iff_eq_zero]
    exact h

theorem length_decimal_le {n k : Nat} (hk : 0 < k) (h : n < 10 ^ k) : (decimal n).length ≤ k := by
  rw [decimal]
  split
  · exact hk
  · rw [List.length_reverse, List.length_map]
    exact (Nat.digits_length_le_iff (by decide) n).mpr h

/-- The text does not end in a digit. -/
def EndsPlain (bs : List Byte) : Prop := ∀ b ∈ bs.getLast?, isDigit b = false

/-- Taking the digits off the end gives the text back. -/
theorem drop_digits {bs : List Byte} (h : EndsPlain bs) (n : Nat) :
    (bs ++ decimal n).reverse.dropWhile isDigit = bs.reverse := by
  rw [List.reverse_append, List.dropWhile_append_of_pos]
  · cases hrev : bs.reverse with
    | nil => rfl
    | cons b rest =>
      have hlast : bs.getLast? = some b := by rw [List.getLast?_eq_head?_reverse, hrev]; rfl
      rw [List.dropWhile_cons_of_neg]
      rw [h b hlast]
      exact Bool.false_ne_true
  · intro b hb
    exact isDigit_of_mem (List.mem_reverse.mp hb)

/-- **A text and a number**, one behind the other, are told apart. -/
theorem append_decimal_inj {bs bs' : List Byte} {m n : Nat} (hbs : EndsPlain bs)
    (hbs' : EndsPlain bs') (h : bs ++ decimal m = bs' ++ decimal n) : bs = bs' ∧ m = n := by
  have htext : bs.reverse = bs'.reverse := by rw [← drop_digits hbs m, h, drop_digits hbs' n]
  have hsame : bs = bs' := List.reverse_inj.mp htext
  subst hsame
  exact ⟨rfl, decimal_injective (List.append_cancel_left h)⟩

end Decimal
