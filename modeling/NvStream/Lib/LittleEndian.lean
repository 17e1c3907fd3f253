/-
  Fixed-width little-endian numbers over a byte list.

  `toLE k n` is the `k`-byte encoding of `n` (high part dropped, as a C store of a narrower type
  drops it); `ofLE` reads any byte list back.  The two facts a codec needs are the width
  (`length_toLE`) and the round trip modulo `256 ^ k` (`ofLE_toLE`).
-/
import Mathlib.Algebra.Order.Ring.Nat
import Mathlib.Data.Nat.Notation

namespace LittleEndian

/-- A byte. -/
abbrev Byte := Fin 256

/-- Numerals are bytes. -/
instance neZero_byte : NeZero 256 := ⟨by decide⟩

/-- The low `k` bytes of `n`, least significant first. -/
def toLE : Nat → Nat → List Byte
  | 0, _ => []
  | k + 1, n => ⟨n % 256, Nat.mod_lt n (by omega)⟩ :: toLE k (n / 256)

/-- The number a byte list spells, least significant byte first. -/
def ofLE : List Byte → Nat
  | [] => 0
  | b :: bs => b.val + 256 * ofLE bs

@[simp] theorem length_toLE (k n : Nat) : (toLE k n).length = k := by
  induction k generalizing n with
  | zero => rfl
  | succ k ih => rw [toLE, List.length_cons, ih]

/-- Reading an encoding back gives the number modulo the width. -/
theorem ofLE_toLE (k n : Nat) : ofLE (toLE k n) = n % 256 ^ k := by
  induction k generalizing n with
  | zero => rw [toLE, ofLE, Nat.pow_zero, Nat.mod_one]
  | succ k ih =>
    rw [toLE, ofLE, ih, Nat.pow_succ, Nat.mul_comm (256 ^ k) 256, Nat.mod_mul]

theorem ofLE_toLE_of_lt {k n : Nat} (h : n < 256 ^ k) : ofLE (toLE k n) = n := by
  rw [ofLE_toLE, Nat.mod_eq_of_lt h]

end LittleEndian
