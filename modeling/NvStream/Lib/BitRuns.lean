/-
  The maximal runs of set bits in a list of bits.

  `runs bs` lists them left to right as half-open index intervals.  It is the specification a
  run-length loop is compared with: the recursion carries the run that is still open, and nothing
  else.  What users need:

  * `covers_runs`: an index lies in a run exactly when its bit is set;
  * `runs_bounds`, `runs_sorted`: the runs are non-empty, inside the list, and between two of them
    there is at least one clear bit (`clear_after_run` says which);
  * `runs_all`: all bits set is one run;
  * `sum_le`, `sum_lt_of_gap`: ordered intervals add up to at most the range they lie in, and to less
    if they miss a point of it;
  * `sum_eq_card`: they add up to the number of points they cover.
-/
import Mathlib.Algebra.Order.Ring.Nat
import Mathlib.Data.List.Basic
import Mathlib.Order.Interval.Finset.Nat

namespace BitRuns

/-- The runs of `bs`, whose first bit has index `i`, when a run that started at `op` is open. -/
def runsFrom : Option Nat → Nat → List Bool → List (Nat × Nat)
  | none, _, [] => []
  | some s, i, [] => [(s, i)]
  | none, i, true :: bs => runsFrom (some i) (i + 1) bs
  | none, i, false :: bs => runsFrom none (i + 1) bs
  | some s, i, true :: bs => runsFrom (some s) (i + 1) bs
  | some s, i, false :: bs => (s, i) :: runsFrom none (i + 1) bs

/-- The maximal runs of set bits. -/
def runs (bs : List Bool) : List (Nat × Nat) := runsFrom none 0 bs

/-- The index lies in one of the runs. -/
def Covers (rs : List (Nat × Nat)) (j : Nat) : Prop := ∃ r ∈ rs, r.1 ≤ j ∧ j < r.2

theorem covers_cons (r : Nat × Nat) (rs : List (Nat × Nat)) (j : Nat) :
    Covers (r :: rs) j ↔ (r.1 ≤ j ∧ j < r.2) ∨ Covers rs j := by
  unfold Covers
  constructor
  · rintro ⟨q, hq, h⟩
    rcases List.mem_cons.mp hq with rfl | hq
    · exact Or.inl h
    · exact Or.inr ⟨q, hq, h⟩
  · rintro (h | ⟨q, hq, h⟩)
    · exact ⟨r, List.mem_cons_self, h⟩
    · exact ⟨q, List.mem_cons_of_mem _ hq, h⟩

/-- The bit at `j` of a list that starts at index `i`. -/
theorem bit_cons (b : Bool) (bs : List Bool) (i j : Nat) :
    (i ≤ j ∧ (b :: bs)[j - i]? = some true) ↔
      (j = i ∧ b = true) ∨ (i + 1 ≤ j ∧ bs[j - (i + 1)]? = some true) := by
  rcases Nat.lt_trichotomy j i with h | h | h
  · constructor
    · rintro ⟨hle, _⟩
      omega
    · rintro (⟨heq, _⟩ | ⟨hle, _⟩) <;> omega
  · subst h
    rw [Nat.sub_self, List.getElem?_cons_zero, Option.some.injEq]
    constructor
    · rintro ⟨_, hb⟩
      exact Or.inl ⟨rfl, hb⟩
    · rintro (⟨_, hb⟩ | ⟨hle, _⟩)
      · exact ⟨Nat.le_refl _, hb⟩
      · omega
  · rw [show j - i = (j - (i + 1)) + 1 by omega, List.getElem?_cons_succ]
    constructor
    · rintro ⟨_, hb⟩
      exact Or.inr ⟨h, hb⟩
    · rintro (⟨heq, _⟩ | ⟨_, hb⟩)
      · omega
      · exact ⟨by omega, hb⟩

/-- Induction on the bits: what is covered is the open run so far, and the set bits still to come. -/
theorem covers_runsFrom (bs : List Bool) : ∀ (op : Option Nat) (i j : Nat),
    (∀ s, op = some s → s < i) →
    (Covers (runsFrom op i bs) j ↔
      (∃ s, op = some s ∧ s ≤ j ∧ j < i) ∨ (i ≤ j ∧ bs[j - i]? = some true)) := by
  induction bs with
  | nil =>
    intro op i j _
    cases op with
    | none => simp [runsFrom, Covers]
    | some s => simp [runsFrom, Covers]
  | cons b bs ih =>
    intro op i j hop
    rw [bit_cons]
    cases op with
    | none =>
      cases b with
      | false =>
        rw [runsFrom, ih none (i + 1) j (fun s h => nomatch h)]
        simp
      | true =>
        rw [runsFrom, ih (some i) (i + 1) j (by rintro s ⟨⟩; omega)]
        simp only [Option.some.injEq, exists_eq_left']
        constructor
        · rintro (h | h)
          · exact Or.inr (Or.inl ⟨by omega, trivial⟩)
          · exact Or.inr (Or.inr h)
        · rintro (⟨s, h, _⟩ | ⟨h, _⟩ | h)
          · cases h
          · exact Or.inl ⟨by omega, by omega⟩
          · exact Or.inr h
    | some s =>
      have hs := hop s rfl
      cases b with
      | false =>
        rw [runsFrom, covers_cons, ih none (i + 1) j (fun s h => nomatch h)]
        simp
      | true =>
        rw [runsFrom, ih (some s) (i + 1) j (by rintro s' ⟨⟩; omega)]
        simp only [Option.some.injEq, exists_eq_left']
        constructor
        · rintro (h | h)
          · rcases Nat.lt_or_ge j i with hlt | hge
            · exact Or.inl ⟨h.1, hlt⟩
            · exact Or.inr (Or.inl ⟨by omega, trivial⟩)
          · exact Or.inr (Or.inr h)
        · rintro (h | ⟨h, _⟩ | h)
          · exact Or.inl ⟨h.1, by omega⟩
          · exact Or.inl ⟨by omega, by omega⟩
          · exact Or.inr h

/-- **The runs are the set bits.** -/
theorem covers_runs (bs : List Bool) (j : Nat) : Covers (runs bs) j ↔ bs[j]? = some true := by
  rw [runs, covers_runsFrom bs none 0 j (fun s h => nomatch h)]
  simp

theorem runsFrom_bounds (bs : List Bool) : ∀ (op : Option Nat) (i : Nat),
    (∀ s, op = some s → s < i) → ∀ r ∈ runsFrom op i bs,
      op.getD i ≤ r.1 ∧ r.1 < r.2 ∧ r.2 ≤ i + bs.length := by
  induction bs with
  | nil =>
    intro op i hop r hr
    cases op with
    | none => cases hr
    | some s =>
      obtain rfl := List.mem_singleton.mp hr
      exact ⟨Nat.le_refl _, hop s rfl, Nat.le_refl _⟩
  | cons b bs ih =>
    intro op i hop r hr
    rw [List.length_cons]
    cases op with
    | none =>
      cases b with
      | false =>
        obtain ⟨h1, h2, h3⟩ := ih none (i + 1) (fun s h => nomatch h) r hr
        simp only [Option.getD_none] at h1 ⊢
        exact ⟨by omega, h2, by omega⟩
      | true =>
        obtain ⟨h1, h2, h3⟩ := ih (some i) (i + 1) (by rintro s ⟨⟩; omega) r hr
        exact ⟨h1, h2, by omega⟩
    | some s =>
      have hs := hop s rfl
      cases b with
      | false =>
        rcases List.mem_cons.mp hr with rfl | hr
        · exact ⟨Nat.le_refl _, hs, by show i ≤ _; omega⟩
        · obtain ⟨h1, h2, h3⟩ := ih none (i + 1) (fun s h => nomatch h) r hr
          simp only [Option.getD_none, Option.getD_some] at h1 ⊢
          exact ⟨by omega, h2, by omega⟩
      | true =>
        obtain ⟨h1, h2, h3⟩ := ih (some s) (i + 1) (by rintro s' ⟨⟩; omega) r hr
        exact ⟨h1, h2, by omega⟩

/-- Runs are not empty and stay inside the list. -/
theorem runs_bounds {bs : List Bool} {r : Nat × Nat} (h : r ∈ runs bs) :
    r.1 < r.2 ∧ r.2 ≤ bs.length := by
  obtain ⟨_, h1, h2⟩ := runsFrom_bounds bs none 0 (fun s h => nomatch h) r h
  exact ⟨h1, by omega⟩

theorem runsFrom_sorted (bs : List Bool) : ∀ (op : Option Nat) (i : Nat),
    (∀ s, op = some s → s < i) → (runsFrom op i bs).Pairwise (fun a b => a.2 < b.1) := by
  induction bs with
  | nil =>
    intro op i _
    cases op with
    | none => exact List.Pairwise.nil
    | some s => exact List.pairwise_singleton _ _
  | cons b bs ih =>
    intro op i hop
    cases op with
    | none =>
      cases b with
      | false => exact ih none (i + 1) (fun s h => nomatch h)
      | true => exact ih (some i) (i + 1) (by rintro s ⟨⟩; omega)
    | some s =>
      cases b with
      | false =>
        refine List.Pairwise.cons (fun r hr => ?_) (ih none (i + 1) (fun s h => nomatch h))
        exact (runsFrom_bounds bs none (i + 1) (fun s h => nomatch h) r hr).1
      | true =>
        have hs := hop s rfl
        exact ih (some s) (i + 1) (by rintro s' ⟨⟩; omega)

/-- Between two runs there is a clear bit. -/
theorem runs_sorted (bs : List Bool) : (runs bs).Pairwise (fun a b => a.2 < b.1) :=
  runsFrom_sorted bs none 0 (fun _ h => nomatch h)

/-- Of two runs, one ends before the other starts. -/
theorem runs_apart {bs : List Bool} {r q : Nat × Nat} (hr : r ∈ runs bs) (hq : q ∈ runs bs)
    (hne : r ≠ q) : r.2 < q.1 ∨ q.2 < r.1 := by
  have hsymm : Std.Symm (fun a b : Nat × Nat => a.2 < b.1 ∨ b.2 < a.1) := ⟨fun _ _ h => h.symm⟩
  have hapart : (runs bs).Pairwise (fun a b => a.2 < b.1 ∨ b.2 < a.1) :=
    (runs_sorted bs).imp Or.inl
  exact hapart.forall hr hq hne

/-- Runs are maximal: the bit behind one is not set. -/
theorem clear_after_run {bs : List Bool} {r : Nat × Nat} (hr : r ∈ runs bs) :
    bs[r.2]? ≠ some true := by
  intro hset
  obtain ⟨q, hq, hle, hlt⟩ := (covers_runs bs r.2).mpr hset
  by_cases heq : r = q
  · subst heq
    omega
  · have := (runs_bounds hr).1
    rcases runs_apart hr hq heq with h | h <;> omega

/-- All bits set is one run. -/
theorem runs_all {bs : List Bool} (hall : ∀ b ∈ bs, b = true) (hne : bs ≠ []) :
    runs bs = [(0, bs.length)] := by
  have hopen : ∀ (bs : List Bool) (s i : Nat), (∀ b ∈ bs, b = true) →
      runsFrom (some s) i bs = [(s, i + bs.length)] := by
    intro bs
    induction bs with
    | nil =>
      intro s i _
      rfl
    | cons b bs ih =>
      intro s i hall
      rw [hall b List.mem_cons_self, runsFrom,
        ih s (i + 1) (fun b' h => hall b' (List.mem_cons_of_mem _ h)), List.length_cons,
        show i + 1 + bs.length = i + (bs.length + 1) by omega]
  cases bs with
  | nil => exact absurd rfl hne
  | cons b bs =>
    rw [runs, hall b List.mem_cons_self, runsFrom,
      hopen bs 0 1 (fun b' h => hall b' (List.mem_cons_of_mem _ h)), List.length_cons,
      Nat.add_comm 1]

/-- Clear bits are no run. -/
theorem runsFrom_clear (n : Nat) : ∀ i : Nat, runsFrom none i (List.replicate n false) = [] := by
  induction n with
  | zero => exact fun i => rfl
  | succ n ih => exact fun i => ih (i + 1)

/-- Behind a run that clear bits close there is none. -/
theorem runsFrom_close (s i n : Nat) :
    runsFrom (some s) i (List.replicate n false) = [(s, i)] := by
  cases n with
  | zero => rfl
  | succ n =>
    show (s, i) :: runsFrom none (i + 1) (List.replicate n false) = [(s, i)]
    rw [runsFrom_clear]

/-- A run takes a set bit and, but for the last one, an unset bit behind it; an open run has its set
    bit already. -/
theorem length_runsFrom_le (bs : List Bool) : ∀ i : Nat,
    2 * (runsFrom none i bs).length ≤ bs.length + 1 ∧
      ∀ s, 2 * (runsFrom (some s) i bs).length ≤ bs.length + 2 := by
  induction bs with
  | nil => exact fun i => ⟨Nat.zero_le _, fun s => Nat.le_refl _⟩
  | cons b bs ih =>
    intro i
    obtain ⟨hnone, hsome⟩ := ih (i + 1)
    cases b with
    | false =>
      simp only [runsFrom, List.length_cons]
      exact ⟨by omega, fun s => by omega⟩
    | true =>
      simp only [runsFrom, List.length_cons]
      exact ⟨hsome i, fun s => Nat.le_succ_of_le (hsome s)⟩

/-- **Half of the bits, if the first is unset.** -/
theorem length_runs_le_of_first {bs : List Bool} (h : bs[0]? ≠ some true) :
    2 * (runs bs).length ≤ bs.length := by
  cases bs with
  | nil => exact Nat.le_refl _
  | cons b bs =>
    cases b with
    | true => exact absurd rfl h
    | false => exact (length_runsFrom_le bs 1).1

/-- Ordered intervals inside `[lo, hi)` add up to at most its length. -/
theorem sum_le {hi : Nat} (rs : List (Nat × Nat)) : ∀ lo, lo ≤ hi →
    rs.Pairwise (fun a b => a.2 ≤ b.1) → (∀ r ∈ rs, lo ≤ r.1 ∧ r.1 ≤ r.2 ∧ r.2 ≤ hi) →
    (rs.map (fun r => r.2 - r.1)).sum ≤ hi - lo := by
  induction rs with
  | nil =>
    intro lo _ _ _
    exact Nat.zero_le _
  | cons r rs ih =>
    intro lo _ hsort hin
    obtain ⟨hhead, htail⟩ := List.pairwise_cons.mp hsort
    obtain ⟨h1, h2, h3⟩ := hin r List.mem_cons_self
    have hrest := ih r.2 h3 htail (fun q hq =>
      ⟨hhead q hq, (hin q (List.mem_cons_of_mem _ hq)).2⟩)
    rw [List.map_cons, List.sum_cons]
    omega

/-- If they miss a point of it, they do not fill it. -/
theorem sum_lt_of_gap {hi x : Nat} (hx : x < hi) (rs : List (Nat × Nat)) : ∀ lo, lo ≤ x →
    rs.Pairwise (fun a b => a.2 ≤ b.1) → (∀ r ∈ rs, lo ≤ r.1 ∧ r.1 ≤ r.2 ∧ r.2 ≤ hi) →
    ¬ Covers rs x → (rs.map (fun r => r.2 - r.1)).sum < hi - lo := by
  induction rs with
  | nil =>
    intro lo hlo _ _ _
    show 0 < hi - lo
    omega
  | cons r rs ih =>
    intro lo hlo hsort hin hmiss
    obtain ⟨hhead, htail⟩ := List.pairwise_cons.mp hsort
    obtain ⟨h1, h2, h3⟩ := hin r List.mem_cons_self
    rw [covers_cons, not_or] at hmiss
    obtain ⟨hr, hrs⟩ := hmiss
    have hin' : ∀ q ∈ rs, r.2 ≤ q.1 ∧ q.1 ≤ q.2 ∧ q.2 ≤ hi := fun q hq =>
      ⟨hhead q hq, (hin q (List.mem_cons_of_mem _ hq)).2⟩
    rw [List.map_cons, List.sum_cons]
    -- the point lies before this interval, or behind it
    rcases Nat.lt_or_ge x r.1 with hlt | hge
    · have := sum_le rs r.2 h3 htail hin'
      omega
    · have hbehind : r.2 ≤ x := by
        by_contra h
        exact hr ⟨hge, by omega⟩
      have := ih r.2 hbehind htail hin' hrs
      omega

/-- **Ordered intervals add up to the number of points they cover.** -/
theorem sum_eq_card (rs : List (Nat × Nat)) : rs.Pairwise (fun a b => a.2 ≤ b.1) →
    ∀ s : Finset Nat, (∀ x, x ∈ s ↔ Covers rs x) → (rs.map (fun r => r.2 - r.1)).sum = s.card := by
  induction rs with
  | nil =>
    intro _ s hs
    have hempty : s = ∅ := Finset.eq_empty_of_forall_notMem (fun x hx => by
      obtain ⟨_, hr, _⟩ := (hs x).mp hx
      cases hr)
    rw [hempty]
    rfl
  | cons r rs ih =>
    intro hsort s hs
    obtain ⟨hhead, htail⟩ := List.pairwise_cons.mp hsort
    -- the first interval has no point of the others, which start behind it
    have hsub : Finset.Ico r.1 r.2 ⊆ s := by
      intro x hx
      exact (hs x).mpr ((covers_cons r rs x).mpr (Or.inl (Finset.mem_Ico.mp hx)))
    have hrest : ∀ x, x ∈ s \ Finset.Ico r.1 r.2 ↔ Covers rs x := by
      intro x
      rw [Finset.mem_sdiff, hs, covers_cons, Finset.mem_Ico]
      constructor
      · rintro ⟨h | h, hnot⟩
        · exact absurd h hnot
        · exact h
      · rintro ⟨q, hq, hle, hlt⟩
        have := hhead q hq
        exact ⟨Or.inr ⟨q, hq, hle, hlt⟩, by omega⟩
    rw [List.map_cons, List.sum_cons, ih htail _ hrest, ← Nat.card_Ico,
      Finset.card_sdiff_of_subset hsub]
    have := Finset.card_le_card hsub
    omega

end BitRuns
