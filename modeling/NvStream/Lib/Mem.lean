/-
  A flat memory of cells, with bulk `load` and `store`.

  Nothing here knows what the cells hold: `Mem α` is a total function from addresses to cells, so a
  region is an interval of addresses and "nobody touched it" is Mathlib's `Set.EqOn`.  The file has
  three groups of facts and no others:

  * `load` splits at any point (`load_add`), and depends only on the cells it reads (`load_congr`);
  * `store` writes exactly its own interval (`store_out`, `load_store_self`, `store_eqOn`);
  * two adjacent stores are one (`store_append`), and stores of pieces of one memory show that
    memory wherever a piece lies (`storeAll_in`).

  Overlap is never reasoned about directly: a proof states the interval a store stays inside, and
  reads back either the stored cells or the untouched ones.
-/
import Mathlib.Algebra.Order.Ring.Nat
import Mathlib.Data.Set.Function
import Mathlib.Order.Interval.Set.Basic
import Mathlib.Logic.Nontrivial.Basic

namespace FlatMem

/-- A memory: every address holds a cell. -/
abbrev Mem (α : Type) := Nat → α

variable {α : Type}

/-! ## Loading an interval -/

/-- The `n` cells from `off` on. -/
def load (m : Mem α) : Nat → Nat → List α
  | _, 0 => []
  | off, n + 1 => m off :: load m (off + 1) n

@[simp] theorem length_load (m : Mem α) (off n : Nat) : (load m off n).length = n := by
  induction n generalizing off with
  | zero => rfl
  | succ n ih => rw [load, List.length_cons, ih]

/-- A load splits at any point. -/
theorem load_add (m : Mem α) (off a b : Nat) :
    load m off (a + b) = load m off a ++ load m (off + a) b := by
  induction a generalizing off with
  | zero => simp [load]
  | succ a ih =>
    rw [show a + 1 + b = (a + b) + 1 by omega, load, load, ih (off + 1), List.cons_append,
      show off + 1 + a = off + (a + 1) by omega]

theorem getElem?_load (m : Mem α) (off n i : Nat) (h : i < n) :
    (load m off n)[i]? = some (m (off + i)) := by
  induction n generalizing off i with
  | zero => omega
  | succ n ih =>
    cases i with
    | zero => rfl
    | succ i =>
      rw [load, List.getElem?_cons_succ, ih (off + 1) i (by omega),
        show off + 1 + i = off + (i + 1) by omega]

/-- A load only depends on the cells it reads. -/
theorem load_congr {m m' : Mem α} {off n : Nat} (h : Set.EqOn m m' (Set.Ico off (off + n))) :
    load m off n = load m' off n := by
  induction n generalizing off with
  | zero => rfl
  | succ n ih =>
    rw [load, load, h ⟨Nat.le_refl _, by omega⟩]
    congr 1
    apply ih
    intro a ha
    exact h ⟨by have := ha.1; omega, by have := ha.2; omega⟩

/-- A slice of a loaded interval is the load of the sub-interval. -/
theorem take_drop_load (m : Mem α) (off n i k : Nat) (h : i + k ≤ n) :
    ((load m off n).drop i).take k = load m (off + i) k := by
  obtain ⟨r, rfl⟩ : ∃ r, n = i + (k + r) := ⟨n - i - k, by omega⟩
  rw [load_add, List.drop_left' (length_load m off i), load_add,
    List.take_left' (length_load m (off + i) k)]

/-- The slice a load takes of an interval whose cells are known. -/
theorem load_slice {m : Mem α} {off : Nat} {bs : List α} (h : load m off bs.length = bs)
    {i k : Nat} (hik : i + k ≤ bs.length) : load m (off + i) k = (bs.drop i).take k := by
  rw [← take_drop_load m off bs.length i k hik, h]

/-- Reading a concatenation is reading its parts one after the other. -/
theorem load_append_iff (m : Mem α) (off : Nat) (xs ys : List α) :
    load m off (xs ++ ys).length = xs ++ ys ↔
      load m off xs.length = xs ∧ load m (off + xs.length) ys.length = ys := by
  rw [List.length_append, load_add]
  constructor
  · intro h
    exact List.append_inj h (length_load _ _ _)
  · rintro ⟨h1, h2⟩
    rw [h1, h2]

/-- Loading from a memory that starts at another base. -/
theorem load_shift (m : Mem α) (base off n : Nat) :
    load (fun a => m (base + a)) off n = load m (base + off) n := by
  induction n generalizing off with
  | zero => rfl
  | succ n ih => rw [load, load, ih, Nat.add_assoc]

/-! ## Storing an interval -/

/-- Overwrite the interval `[off, off + bs.length)` with `bs`. -/
def store (m : Mem α) (off : Nat) (bs : List α) : Mem α := fun a =>
  if off ≤ a then (bs[a - off]?).getD (m a) else m a

theorem store_nil (m : Mem α) (off : Nat) : store m off [] = m := by
  funext a
  simp [store]

/-- Outside its interval a store changes nothing. -/
theorem store_out (m : Mem α) (off : Nat) (bs : List α) {a : Nat}
    (h : a < off ∨ off + bs.length ≤ a) : store m off bs a = m a := by
  unfold store
  split
  · rw [List.getElem?_eq_none (by omega), Option.getD_none]
  · rfl

/-- Inside its interval a store leaves the stored cell. -/
theorem store_in (m : Mem α) (off : Nat) (bs : List α) {i : Nat} (h : i < bs.length) :
    store m off bs (off + i) = bs[i] := by
  unfold store
  rw [if_pos (Nat.le_add_right _ _), Nat.add_sub_cancel_left, List.getElem?_eq_getElem h,
    Option.getD_some]

/-- What was stored is loaded back. -/
theorem load_store_self (m : Mem α) (off : Nat) (bs : List α) :
    load (store m off bs) off bs.length = bs := by
  apply List.ext_getElem?
  intro i
  rcases Nat.lt_or_ge i bs.length with h | h
  · rw [getElem?_load _ _ _ _ h, store_in m off bs h, List.getElem?_eq_getElem h]
  · rw [List.getElem?_eq_none (by rw [length_load]; exact h), List.getElem?_eq_none h]

/-- A store agrees with the old memory on every region that avoids its interval. -/
theorem store_eqOn (m : Mem α) (off : Nat) (bs : List α) {S : Set Nat}
    (h : ∀ a ∈ S, a < off ∨ off + bs.length ≤ a) : Set.EqOn (store m off bs) m S :=
  fun a ha => store_out m off bs (h a ha)

/-- The same store leaves two memories as equal as they were. -/
theorem store_congr {m m' : Mem α} {a : Nat} (h : m a = m' a) (off : Nat) (bs : List α) :
    store m off bs a = store m' off bs a := by
  unfold store
  rw [h]

/-- A store hides what was in its interval. -/
theorem store_ext {m m' : Mem α} {off : Nat} {bs : List α}
    (h : ∀ a, a < off ∨ off + bs.length ≤ a → m a = m' a) : store m off bs = store m' off bs := by
  funext a
  by_cases hout : a < off ∨ off + bs.length ≤ a
  · exact store_congr (h a hout) off bs
  · obtain ⟨i, rfl⟩ : ∃ i, a = off + i := ⟨a - off, by omega⟩
    rw [store_in m off bs (show i < bs.length by omega),
      store_in m' off bs (show i < bs.length by omega)]

/-- Loading an interval disjoint from a store reads the old cells. -/
theorem load_store_disjoint (m : Mem α) (off : Nat) (bs : List α) {off' n : Nat}
    (h : off' + n ≤ off ∨ off + bs.length ≤ off') :
    load (store m off bs) off' n = load m off' n := by
  apply load_congr
  apply store_eqOn
  intro a ha
  have h1 := ha.1
  have h2 := ha.2
  omega

/-- Two adjacent stores are one. -/
theorem store_append (m : Mem α) (off : Nat) (xs ys : List α) :
    store (store m off xs) (off + xs.length) ys = store m off (xs ++ ys) := by
  funext a
  rcases Nat.lt_or_ge a off with h | h
  · rw [store_out _ _ _ (Or.inl (by omega)), store_out _ _ _ (Or.inl h),
      store_out _ _ _ (Or.inl h)]
  · obtain ⟨i, rfl⟩ : ∃ i, a = off + i := ⟨a - off, by omega⟩
    rcases Nat.lt_or_ge i xs.length with hx | hx
    · rw [store_out _ _ _ (Or.inl (by omega)), store_in _ _ _ hx,
        store_in _ _ _ (by rw [List.length_append]; omega), List.getElem_append_left hx]
    · rcases Nat.lt_or_ge (i - xs.length) ys.length with hy | hy
      · rw [show off + i = (off + xs.length) + (i - xs.length) by omega, store_in _ _ _ hy,
          show off + xs.length + (i - xs.length) = off + i by omega,
          store_in _ _ _ (by rw [List.length_append]; omega), List.getElem_append_right hx]
      · rw [store_out _ _ _ (Or.inr (by omega)), store_out _ _ _ (Or.inr (by omega)),
          store_out _ _ _ (Or.inr (by rw [List.length_append]; omega))]

/-- Storing back what was loaded changes nothing. -/
theorem store_load (m : Mem α) (off n : Nat) : store m off (load m off n) = m := by
  funext a
  rcases Nat.lt_or_ge a off with h | h
  · rw [store_out _ _ _ (Or.inl h)]
  · obtain ⟨i, rfl⟩ : ∃ i, a = off + i := ⟨a - off, by omega⟩
    rcases Nat.lt_or_ge i n with hi | hi
    · have hlt : i < (load m off n).length := by rw [length_load]; exact hi
      have hget := getElem?_load m off n i hi
      rw [store_in _ _ _ hlt]
      rw [List.getElem?_eq_getElem hlt] at hget
      exact Option.some.inj hget
    · rw [store_out _ _ _ (Or.inr (by rw [length_load]; omega))]

/-- What a store writes can be told from its effect on all memories. -/
theorem store_inj [Nontrivial α] (off : Nat) {xs ys : List α}
    (h : ∀ m : Mem α, store m off xs = store m off ys) : xs = ys := by
  -- a longer list would write a cell that the other leaves to the memory
  have hle : ∀ {xs ys : List α}, (∀ m : Mem α, store m off xs = store m off ys) →
      xs.length ≤ ys.length := by
    intro xs ys h
    by_contra hlt
    obtain ⟨x, hx⟩ := exists_ne (xs.get ⟨ys.length, by omega⟩)
    have e := congrFun (h (fun _ => x)) (off + ys.length)
    rw [store_in _ _ _ (show ys.length < xs.length by omega),
      store_out _ _ _ (Or.inr (Nat.le_refl _))] at e
    exact hx e.symm
  have hlen : xs.length = ys.length := Nat.le_antisymm (hle h) (hle (fun m => (h m).symm))
  obtain ⟨x, _⟩ := exists_pair_ne α
  have e := load_store_self (fun _ => x) off xs
  rw [h, hlen, load_store_self] at e
  exact e.symm

/-- A store made twice is one store. -/
theorem store_idem (m : Mem α) (off : Nat) (bs : List α) :
    store (store m off bs) off bs = store m off bs := by
  have h := store_load (store m off bs) off bs.length
  rw [load_store_self] at h
  exact h

/-! ## Pieces of another memory -/

/-- Store pieces, each at its own offset, one after the other. -/
def storeAll (m : Mem α) (cs : List (Nat × List α)) : Mem α :=
  cs.foldl (fun m c => store m c.1 c.2) m

theorem storeAll_out {m : Mem α} {cs : List (Nat × List α)} {a : Nat}
    (h : ∀ c ∈ cs, a < c.1 ∨ c.1 + c.2.length ≤ a) : storeAll m cs a = m a := by
  induction cs generalizing m with
  | nil => rfl
  | cons c cs ih =>
    show storeAll (store m c.1 c.2) cs a = m a
    rw [ih (fun c hc => h c (List.mem_cons_of_mem _ hc)), store_out _ _ _ (h c List.mem_cons_self)]

theorem storeAll_append (m : Mem α) (cs ds : List (Nat × List α)) :
    storeAll m (cs ++ ds) = storeAll (storeAll m cs) ds :=
  List.foldl_append

/-- Empty pieces change nothing. -/
theorem storeAll_of_empty {m : Mem α} {cs : List (Nat × List α)} (h : ∀ c ∈ cs, c.2 = []) :
    storeAll m cs = m := by
  funext a
  refine storeAll_out (fun c hc => ?_)
  rw [h c hc, List.length_nil]
  omega

/-- Pieces stored behind `base` are what they are from there. -/
theorem storeAll_shift (m : Mem α) (cs : List (Nat × List α)) (base a : Nat) :
    storeAll m (cs.map (fun c => (base + c.1, c.2))) (base + a) =
      storeAll (fun a => m (base + a)) cs a := by
  induction cs generalizing m with
  | nil => rfl
  | cons c cs ih =>
    show storeAll (store m (base + c.1) c.2) (cs.map _) (base + a) =
      storeAll (store (fun a => m (base + a)) c.1 c.2) cs a
    rw [ih]
    congr 1
    funext x
    unfold store
    rw [Nat.add_sub_add_left]
    simp only [Nat.add_le_add_iff_left]

/-- Where a piece of `src` was stored, `src` is read, whatever the order of the pieces. -/
theorem storeAll_in {m : Mem α} (src : Mem α) {cs : List (Nat × List α)}
    (hsrc : ∀ c ∈ cs, c.2 = load src c.1 c.2.length) {a : Nat}
    (h : ∃ c ∈ cs, c.1 ≤ a ∧ a < c.1 + c.2.length) : storeAll m cs a = src a := by
  induction cs generalizing m with
  | nil =>
    obtain ⟨c, hc, _⟩ := h
    exact absurd hc List.not_mem_nil
  | cons c cs ih =>
    show storeAll (store m c.1 c.2) cs a = src a
    by_cases hlater : ∃ c ∈ cs, c.1 ≤ a ∧ a < c.1 + c.2.length
    · exact ih (fun c hc => hsrc c (List.mem_cons_of_mem _ hc)) hlater
    · -- no later piece holds the cell, so this one does
      have hhere : c.1 ≤ a ∧ a < c.1 + c.2.length := by
        obtain ⟨c', hc', ha⟩ := h
        rcases List.mem_cons.mp hc' with rfl | hc'
        · exact ha
        · exact absurd ⟨c', hc', ha⟩ hlater
      rw [storeAll_out (fun c' hc' => by
        by_contra hout
        exact hlater ⟨c', hc', by omega⟩)]
      obtain ⟨i, rfl⟩ : ∃ i, a = c.1 + i := ⟨a - c.1, by omega⟩
      have hi : i < c.2.length := by omega
      have hget := getElem?_load src c.1 c.2.length i hi
      rw [← hsrc c List.mem_cons_self, List.getElem?_eq_getElem hi] at hget
      rw [store_in _ _ _ hi]
      exact Option.some.inj hget

/-- Pieces that do not meet an interval leave it alone. -/
theorem load_storeAll_disjoint {m : Mem α} {cs : List (Nat × List α)} {off n : Nat}
    (h : ∀ c ∈ cs, off + n ≤ c.1 ∨ c.1 + c.2.length ≤ off) :
    load (storeAll m cs) off n = load m off n := by
  refine load_congr fun a ha => storeAll_out fun c hc => ?_
  have hlo := ha.1
  have hhi := ha.2
  have hc := h c hc
  omega

/-- A piece is read back if the others are the same or do not meet it. -/
theorem load_storeAll_same {m : Mem α} {cs : List (Nat × List α)} {off : Nat} {bs : List α}
    (hmem : (off, bs) ∈ cs)
    (h : ∀ c ∈ cs, c = (off, bs) ∨ off + bs.length ≤ c.1 ∨ c.1 + c.2.length ≤ off) :
    load (storeAll m cs) off bs.length = bs := by
  induction cs generalizing m with
  | nil => exact absurd hmem List.not_mem_nil
  | cons c cs ih =>
    have hrest := fun c hc => h c (List.mem_cons_of_mem _ hc)
    show load (storeAll (store m c.1 c.2) cs) off bs.length = bs
    by_cases hlater : (off, bs) ∈ cs
    · exact ih hlater hrest
    · obtain rfl | hmem := List.mem_cons.mp hmem
      · rw [load_storeAll_disjoint fun c hc =>
          (hrest c hc).resolve_left fun heq => hlater (heq ▸ hc)]
        exact load_store_self _ _ _
      · exact absurd hmem hlater

end FlatMem
