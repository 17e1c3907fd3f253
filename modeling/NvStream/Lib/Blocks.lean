/-
  Two memories that hold the same blocks at different addresses.

  Two processes that do the same have the same blocks of memory, but `malloc` put them elsewhere.
  A `Block` is one of them with both its addresses; `Mirrors` says that the blocks hold the same cells
  and do not overlap, in either memory.  A store inside a block, done to both memories, keeps that
  (`Mirrors.store`), and so does a new block (`Mirrors.alloc`).
-/
import NvStream.Lib.Mem
import Mathlib.Data.List.Pairwise

namespace FlatMem

variable {α : Type}

/-- A block of cells, at `left` in one memory and at `right` in the other. -/
structure Block where
  left : Nat
  right : Nat
  size : Nat

/-- Two blocks that overlap in neither memory. -/
def Block.Apart (b c : Block) : Prop :=
  (b.left + b.size ≤ c.left ∨ c.left + c.size ≤ b.left) ∧
    (b.right + b.size ≤ c.right ∨ c.right + c.size ≤ b.right)

instance : Std.Symm Block.Apart := ⟨fun _ _ h => ⟨h.1.symm, h.2.symm⟩⟩

/-- The blocks lie apart, and hold the same in both memories. -/
structure Mirrors (blocks : List Block) (m m' : Mem α) : Prop where
  apart : blocks.Pairwise Block.Apart
  same : ∀ b ∈ blocks, ∀ i < b.size, m (b.left + i) = m' (b.right + i)

namespace Mirrors

variable {blocks : List Block} {m m' : Mem α} {b : Block}

/-- What a block holds is the same list. -/
theorem load_eq (h : Mirrors blocks m m') (hb : b ∈ blocks) :
    load m b.left b.size = load m' b.right b.size := by
  apply List.ext_getElem?
  intro i
  rcases Nat.lt_or_ge i b.size with hi | hi
  · rw [getElem?_load _ _ _ _ hi, getElem?_load _ _ _ _ hi, h.same b hb i hi]
  · rw [List.getElem?_eq_none (by rw [length_load]; exact hi),
      List.getElem?_eq_none (by rw [length_load]; exact hi)]

/-- A new block. -/
theorem alloc (h : Mirrors blocks m m') (hfresh : ∀ c ∈ blocks, b.Apart c)
    (hsame : ∀ i < b.size, m (b.left + i) = m' (b.right + i)) : Mirrors (b :: blocks) m m' :=
  ⟨List.pairwise_cons.mpr ⟨hfresh, h.apart⟩, List.forall_mem_cons.mpr ⟨hsame, h.same⟩⟩

/-- **The same store to both memories**, inside a block. -/
theorem store (h : Mirrors blocks m m') (hb : b ∈ blocks) {off : Nat} {bs : List α}
    (hin : off + bs.length ≤ b.size) :
    Mirrors blocks (store m (b.left + off) bs) (store m' (b.right + off) bs) := by
  refine ⟨h.apart, ?_⟩
  intro c hc i hi
  rcases Classical.em (b = c) with rfl | hne
  · -- the block itself: both stores do the same to its `i`-th cell
    unfold FlatMem.store
    rw [h.same b hb i hi, Nat.add_sub_add_left, Nat.add_sub_add_left]
    simp only [Nat.add_le_add_iff_left]
  · have hapart := h.apart.forall hb hc hne
    unfold Block.Apart at hapart
    rw [store_out _ _ _ (by omega), store_out _ _ _ (by omega)]
    exact h.same c hc i hi

end Mirrors

end FlatMem
