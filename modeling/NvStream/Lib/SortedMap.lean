/-
  Finite maps as key-sorted association lists: the ordered map of the C++ standard library.

  A `SortedMap κ α` carries the proof that its list of pairs is strictly increasing in the key, so
  iteration order is part of the value and a key cannot occur twice.  `find?_eq_some` turns a lookup
  into membership; every other lookup law is read off the membership law of the operation
  (`mem_insert`, `mem_erase`, `mem_mapVal`).
-/
import Mathlib.Algebra.Order.Ring.Nat
import Mathlib.Order.Defs.LinearOrder
import Mathlib.Data.List.Basic

/-- A map from an ordered key type, as its pairs in increasing key order. -/
structure SortedMap (κ α : Type) [LinearOrder κ] where
  /-- The pairs, in iteration order. -/
  entries : List (κ × α)
  sorted : entries.Pairwise (fun a b => a.1 < b.1)

namespace SortedMap

variable {κ α : Type} [LinearOrder κ]

/-- The map with no pairs. -/
def empty : SortedMap κ α := ⟨[], List.Pairwise.nil⟩

theorem ext_entries {s t : SortedMap κ α} (h : s.entries = t.entries) : s = t := by
  cases s
  cases t
  cases h
  rfl

/-- The value at a key. -/
def find? (s : SortedMap κ α) (k : κ) : Option α :=
  (s.entries.find? (fun p => p.1 = k)).map Prod.snd

/-- Two pairs of a sorted list with one key are one pair. -/
theorem pair_unique {l : List (κ × α)} (h : l.Pairwise (fun a b => a.1 < b.1)) {k : κ} {v w : α}
    (hv : (k, v) ∈ l) (hw : (k, w) ∈ l) : v = w := by
  induction h with
  | nil => exact absurd hv List.not_mem_nil
  | cons hhead _ ih =>
    rcases List.mem_cons.mp hv with ev | hv
    · rcases List.mem_cons.mp hw with ew | hw
      · have e := ev.trans ew.symm
        exact congrArg Prod.snd e
      · exact absurd (hhead _ hw) (by rw [← ev]; exact lt_irrefl k)
    · rcases List.mem_cons.mp hw with ew | hw
      · exact absurd (hhead _ hv) (by rw [← ew]; exact lt_irrefl k)
      · exact ih hv hw

/-- A lookup is membership of the pair. -/
theorem find?_eq_some (s : SortedMap κ α) (k : κ) (v : α) :
    s.find? k = some v ↔ (k, v) ∈ s.entries := by
  unfold find?
  constructor
  · intro h
    obtain ⟨p, hp, rfl⟩ := Option.map_eq_some_iff.mp h
    have hk : p.1 = k := by simpa using List.find?_some hp
    rw [← hk]
    exact List.mem_of_find?_eq_some hp
  · intro h
    cases hf : s.entries.find? (fun p => p.1 = k) with
    | none => exact absurd (by simp) (List.find?_eq_none.mp hf (k, v) h)
    | some p =>
      have hk : p.1 = k := by simpa using List.find?_some hf
      have hp := List.mem_of_find?_eq_some hf
      rw [← hk] at h
      rw [Option.map_some, pair_unique s.sorted hp h]

/-- A failed lookup: no pair has the key. -/
theorem find?_eq_none (s : SortedMap κ α) (k : κ) :
    s.find? k = none ↔ ∀ v, (k, v) ∉ s.entries := by
  constructor
  · intro h v hv
    rw [(find?_eq_some s k v).mpr hv] at h
    cases h
  · intro h
    cases hf : s.find? k with
    | none => rfl
    | some v => exact absurd ((find?_eq_some s k v).mp hf) (h v)

theorem find?_of_singleton {s : SortedMap κ α} {k : κ} {v : α} (h : s.entries = [(k, v)]) :
    s.find? k = some v := by
  rw [find?_eq_some, h]
  exact List.mem_singleton.mpr rfl

/-- Two pairs with one key are one pair. -/
theorem eq_of_key (s : SortedMap κ α) {p q : κ × α} (hp : p ∈ s.entries) (hq : q ∈ s.entries)
    (hkey : p.1 = q.1) : p = q := by
  obtain ⟨k, v⟩ := p
  obtain ⟨k', w⟩ := q
  obtain rfl : k = k' := hkey
  rw [pair_unique s.sorted hp hq]

/-- The first pair in iteration order with a property is the one with the least key. -/
theorem find?_entries_eq_some (s : SortedMap κ α) (P : κ × α → Bool) (q : κ × α) :
    s.entries.find? P = some q ↔
      q ∈ s.entries ∧ P q = true ∧ ∀ p ∈ s.entries, P p = true → q.1 ≤ p.1 := by
  have hfirst : ∀ q, s.entries.find? P = some q → ∀ p ∈ s.entries, P p = true → q.1 ≤ p.1 := by
    intro q h p hp hPp
    obtain ⟨_, as, bs, heq, has⟩ := List.find?_eq_some_iff_append.mp h
    have hsorted := s.sorted
    rw [heq] at hsorted hp
    obtain ⟨_, hrest, _⟩ := List.pairwise_append.mp hsorted
    rcases List.mem_append.mp hp with hp | hp
    · have hno := has p hp
      rw [hPp] at hno
      cases hno
    · rcases List.mem_cons.mp hp with rfl | hp
      · exact le_refl _
      · exact le_of_lt ((List.pairwise_cons.mp hrest).1 p hp)
  constructor
  · intro h
    exact ⟨List.mem_of_find?_eq_some h, List.find?_some h, hfirst q h⟩
  · rintro ⟨hq, hPq, hleast⟩
    cases h : s.entries.find? P with
    | none => exact absurd hPq (List.find?_eq_none.mp h q hq)
    | some q' =>
      have hq' := List.mem_of_find?_eq_some h
      have hle : q'.1 ≤ q.1 := hfirst q' h q hq hPq
      rw [s.eq_of_key hq' hq (le_antisymm hle (hleast q' hq' (List.find?_some h)))]

/-- In iteration order, a pair has another one behind it exactly when some key is greater. -/
theorem mem_dropLast_iff {l : List (κ × α)} (h : l.Pairwise (fun a b => a.1 < b.1)) (p : κ × α) :
    p ∈ l.dropLast ↔ p ∈ l ∧ ∃ q ∈ l, p.1 < q.1 := by
  rcases List.eq_nil_or_concat l with rfl | ⟨l, z, rfl⟩
  · simp
  · rw [List.concat_eq_append] at h ⊢
    obtain ⟨_, _, hlast⟩ := List.pairwise_append.mp h
    rw [List.dropLast_concat]
    constructor
    · intro hp
      exact ⟨List.mem_append_left _ hp, z, List.mem_append_right _ (List.mem_singleton.mpr rfl),
        hlast p hp z (List.mem_singleton.mpr rfl)⟩
    · rintro ⟨hp, q, hq, hlt⟩
      rcases List.mem_append.mp hp with hp | hp
      · exact hp
      · rw [List.mem_singleton.mp hp] at hlt
        rcases List.mem_append.mp hq with hq | hq
        · exact absurd (hlast q hq z (List.mem_singleton.mpr rfl)) (lt_asymm hlt)
        · rw [List.mem_singleton.mp hq] at hlt
          exact absurd hlt (lt_irrefl _)

/-! ## Insertion -/

/-- Insert into a sorted list, replacing the pair with the same key. -/
def insertList (k : κ) (v : α) : List (κ × α) → List (κ × α)
  | [] => [(k, v)]
  | p :: t =>
    if k < p.1 then (k, v) :: p :: t
    else if k = p.1 then (k, v) :: t
    else p :: insertList k v t

theorem mem_insertList {k : κ} {v : α} {l : List (κ × α)}
    (h : l.Pairwise (fun a b => a.1 < b.1)) (q : κ × α) :
    q ∈ insertList k v l ↔ q = (k, v) ∨ (q ∈ l ∧ q.1 ≠ k) := by
  induction h with
  | nil => simp [insertList]
  | @cons p t hhead ht ih =>
    unfold insertList
    split
    · rename_i hlt
      have hne : ∀ q ∈ p :: t, q.1 ≠ k := by
        intro q hq
        rcases List.mem_cons.mp hq with rfl | hq
        · exact ne_of_gt hlt
        · exact ne_of_gt (lt_trans hlt (hhead q hq))
      rw [List.mem_cons]
      constructor
      · rintro (hq | hq)
        · exact Or.inl hq
        · exact Or.inr ⟨hq, hne q hq⟩
      · rintro (hq | hq)
        · exact Or.inl hq
        · exact Or.inr hq.1
    · split
      · rename_i _ heq
        rw [List.mem_cons, List.mem_cons]
        constructor
        · rintro (hq | hq)
          · exact Or.inl hq
          · exact Or.inr ⟨Or.inr hq, by rw [heq]; exact ne_of_gt (hhead q hq)⟩
        · rintro (hq | ⟨hq | hq, hne⟩)
          · exact Or.inl hq
          · exact absurd (by rw [hq, heq]) hne
          · exact Or.inr hq
      · rename_i _ hne
        rw [List.mem_cons, List.mem_cons, ih]
        constructor
        · rintro (hq | hq | hq)
          · exact Or.inr ⟨Or.inl hq, by rw [hq]; exact fun e => hne e.symm⟩
          · exact Or.inl hq
          · exact Or.inr ⟨Or.inr hq.1, hq.2⟩
        · rintro (hq | ⟨hq | hq, hne'⟩)
          · exact Or.inr (Or.inl hq)
          · exact Or.inl hq
          · exact Or.inr (Or.inr ⟨hq, hne'⟩)

theorem sorted_insertList {k : κ} {v : α} {l : List (κ × α)}
    (h : l.Pairwise (fun a b => a.1 < b.1)) :
    (insertList k v l).Pairwise (fun a b => a.1 < b.1) := by
  induction h with
  | nil => exact List.pairwise_singleton _ _
  | @cons p t hhead ht ih =>
    unfold insertList
    split
    · rename_i hlt
      refine List.Pairwise.cons (fun q hq => ?_) (List.Pairwise.cons hhead ht)
      rcases List.mem_cons.mp hq with rfl | hq
      · exact hlt
      · exact lt_trans hlt (hhead q hq)
    · split
      · rename_i _ heq
        refine List.Pairwise.cons (fun q hq => ?_) ht
        show k < q.1
        rw [heq]
        exact hhead q hq
      · rename_i hnlt hne
        refine List.Pairwise.cons (fun q hq => ?_) ih
        rcases (mem_insertList ht q).mp hq with rfl | ⟨hq, _⟩
        · exact lt_of_le_of_ne (not_lt.mp hnlt) (fun e => hne e.symm)
        · exact hhead q hq

/-- Set the value at a key. -/
def insert (s : SortedMap κ α) (k : κ) (v : α) : SortedMap κ α :=
  ⟨insertList k v s.entries, sorted_insertList s.sorted⟩

theorem mem_insert (s : SortedMap κ α) (k : κ) (v : α) (q : κ × α) :
    q ∈ (s.insert k v).entries ↔ q = (k, v) ∨ (q ∈ s.entries ∧ q.1 ≠ k) :=
  mem_insertList s.sorted q

theorem find?_insert (s : SortedMap κ α) (k : κ) (v : α) (k' : κ) :
    (s.insert k v).find? k' = if k' = k then some v else s.find? k' := by
  by_cases hk : k' = k
  · rw [if_pos hk, find?_eq_some, mem_insert, hk]
    exact Or.inl rfl
  · rw [if_neg hk]
    apply Option.ext
    intro w
    rw [find?_eq_some, find?_eq_some, mem_insert]
    constructor
    · rintro (heq | ⟨hmem, _⟩)
      · exact absurd (Prod.mk.inj heq).1 hk
      · exact hmem
    · intro hmem
      exact Or.inr ⟨hmem, hk⟩

/-- A new key is one more entry. -/
theorem insert_perm {s : SortedMap κ α} {k : κ} (hk : s.find? k = none) (v : α) :
    (s.insert k v).entries.Perm ((k, v) :: s.entries) := by
  have hne : ∀ p ∈ s.entries, p.1 ≠ k := by
    intro p hp heq
    exact (find?_eq_none s k).mp hk p.2 (heq ▸ hp)
  show (insertList k v s.entries).Perm _
  generalize s.entries = l at hne ⊢
  induction l with
  | nil => exact .refl _
  | cons p t ih =>
    rw [insertList]
    split
    · exact .refl _
    · rw [if_neg (Ne.symm (hne p List.mem_cons_self))]
      have hrest := ih (fun q hq => hne q (List.mem_cons_of_mem p hq))
      exact (hrest.cons p).trans (.swap ..)

/-! ## Removal and pointwise update -/

/-- Remove a key. -/
def erase (s : SortedMap κ α) (k : κ) : SortedMap κ α :=
  ⟨s.entries.filter (fun p => p.1 ≠ k), s.sorted.filter _⟩

theorem mem_erase (s : SortedMap κ α) (k : κ) (q : κ × α) :
    q ∈ (s.erase k).entries ↔ q ∈ s.entries ∧ q.1 ≠ k := by
  show q ∈ s.entries.filter _ ↔ _
  rw [List.mem_filter, decide_eq_true_iff]

theorem find?_erase (s : SortedMap κ α) (k k' : κ) :
    (s.erase k).find? k' = if k' = k then none else s.find? k' := by
  apply Option.ext
  intro w
  rw [find?_eq_some, mem_erase]
  by_cases hk : k' = k
  · rw [if_pos hk]
    constructor
    · rintro ⟨_, hne⟩
      exact absurd hk hne
    · intro h
      cases h
  · rw [if_neg hk, find?_eq_some]
    exact ⟨And.left, fun h => ⟨h, hk⟩⟩

/-- Update every value, keys and order unchanged. -/
def mapVal (s : SortedMap κ α) (f : κ → α → α) : SortedMap κ α :=
  ⟨s.entries.map (fun p => (p.1, f p.1 p.2)), List.pairwise_map.mpr s.sorted⟩

theorem mem_mapVal (s : SortedMap κ α) (f : κ → α → α) (q : κ × α) :
    q ∈ (s.mapVal f).entries ↔ ∃ v, (q.1, v) ∈ s.entries ∧ q.2 = f q.1 v := by
  show q ∈ s.entries.map _ ↔ _
  rw [List.mem_map]
  constructor
  · rintro ⟨p, hp, rfl⟩
    exact ⟨p.2, hp, rfl⟩
  · rintro ⟨v, hv, hq⟩
    exact ⟨(q.1, v), hv, by rw [← hq]⟩

/-- Update the value at one key, if it is there. -/
def modify (s : SortedMap κ α) (k : κ) (f : α → α) : SortedMap κ α :=
  s.mapVal (fun k' v => if k' = k then f v else v)

theorem find?_mapVal (s : SortedMap κ α) (f : κ → α → α) (k : κ) :
    (s.mapVal f).find? k = (s.find? k).map (f k) := by
  apply Option.ext
  intro w
  rw [find?_eq_some, mem_mapVal, Option.map_eq_some_iff]
  constructor
  · rintro ⟨v, hv, hw⟩
    exact ⟨v, (find?_eq_some _ _ _).mpr hv, hw.symm⟩
  · rintro ⟨v, hv, hw⟩
    exact ⟨v, (find?_eq_some _ _ _).mp hv, hw.symm⟩

theorem find?_modify (s : SortedMap κ α) (k : κ) (f : α → α) (k' : κ) :
    (s.modify k f).find? k' = if k' = k then (s.find? k').map f else s.find? k' := by
  rw [modify, find?_mapVal]
  by_cases hk : k' = k
  · rw [if_pos hk]
    simp only [if_pos hk]
  · rw [if_neg hk]
    simp only [if_neg hk, Option.map_id_fun', id_eq]

/-- An update, seen in iteration order: the pairs on both sides stay. -/
theorem modify_of_split {s : SortedMap κ α} {k : κ} {v : α} {pre post : List (κ × α)}
    (h : s.entries = pre ++ (k, v) :: post) (f : α → α) :
    (s.modify k f).entries = pre ++ (k, f v) :: post := by
  have hsorted := s.sorted
  rw [h] at hsorted
  obtain ⟨_, htail, hbefore⟩ := List.pairwise_append.mp hsorted
  have hbehind := (List.pairwise_cons.mp htail).1
  have hkeep : ∀ l : List (κ × α), (∀ p ∈ l, p.1 ≠ k) →
      l.map (fun p => (p.1, if p.1 = k then f p.2 else p.2)) = l := by
    intro l hl
    refine (List.map_congr_left (fun p hp => ?_)).trans (List.map_id l)
    rw [if_neg (hl p hp)]
    rfl
  show s.entries.map (fun p => (p.1, if p.1 = k then f p.2 else p.2)) = _
  rw [h, List.map_append, List.map_cons, if_pos rfl,
    hkeep pre (fun p hp => ne_of_lt (hbefore p hp (k, v) List.mem_cons_self)),
    hkeep post (fun p hp => ne_of_gt (hbehind p hp))]

theorem modify_of_singleton {s : SortedMap κ α} {k : κ} {v : α} (h : s.entries = [(k, v)])
    (f : α → α) : (s.modify k f).entries = [(k, f v)] :=
  modify_of_split (show s.entries = [] ++ (k, v) :: [] from h) f

theorem modify_eq_self {s : SortedMap κ α} {k : κ} {f : α → α}
    (h : ∀ v, s.find? k = some v → f v = v) : s.modify k f = s := by
  apply ext_entries
  refine (List.map_congr_left (fun p hp => ?_)).trans (List.map_id _)
  show (p.1, if p.1 = k then f p.2 else p.2) = p
  by_cases hk : p.1 = k
  · rw [if_pos hk, h p.2 ((find?_eq_some _ _ _).mpr (by rw [← hk]; exact hp))]
  · rw [if_neg hk]

/-- Setting a value changes nothing exactly where that value was there, or none. -/
theorem modify_const_eq_self {s : SortedMap κ α} {k : κ} {v : α} :
    s.modify k (fun _ => v) = s ↔ ∀ w, s.find? k = some w → w = v := by
  constructor
  · intro h w hw
    have hmod := find?_modify s k (fun _ => v) k
    rw [h, if_pos rfl, hw] at hmod
    exact Option.some.inj hmod
  · intro h
    exact modify_eq_self (fun w hw => (h w hw).symm)

theorem mem_modify_of_mem {s : SortedMap κ α} {p : κ × α} (hp : p ∈ s.entries) (k : κ) (f : α → α) :
    (p.1, if p.1 = k then f p.2 else p.2) ∈ (s.modify k f).entries :=
  (mem_mapVal _ _ _).mpr ⟨p.2, hp, rfl⟩

/-! ## The values seen through a function -/

section
variable {β : Type} (g : α → β)

/-- The same keys, and of each value what `g` shows. -/
def map (s : SortedMap κ α) : SortedMap κ β :=
  ⟨s.entries.map (fun p => (p.1, g p.2)), List.pairwise_map.mpr s.sorted⟩

theorem find?_map (s : SortedMap κ α) (k : κ) : (s.map g).find? k = (s.find? k).map g := by
  apply Option.ext
  intro w
  rw [find?_eq_some, Option.map_eq_some_iff]
  show (k, w) ∈ s.entries.map _ ↔ _
  rw [List.mem_map]
  constructor
  · rintro ⟨p, hp, heq⟩
    obtain ⟨rfl, rfl⟩ := Prod.mk.inj heq
    exact ⟨p.2, (find?_eq_some _ _ _).mpr hp, rfl⟩
  · rintro ⟨v, hv, rfl⟩
    exact ⟨(k, v), (find?_eq_some _ _ _).mp hv, rfl⟩

theorem map_insert (s : SortedMap κ α) (k : κ) (v : α) :
    (s.insert k v).map g = (s.map g).insert k (g v) := by
  apply ext_entries
  show (insertList k v s.entries).map _ = insertList k (g v) (s.entries.map _)
  induction s.entries with
  | nil => rfl
  | cons p t ih =>
    rw [List.map_cons, insertList, insertList]
    split
    · rfl
    · split
      · rfl
      · rw [List.map_cons, ih]

theorem map_mapVal {f : κ → α → α} {f' : κ → β → β} (h : ∀ k v, g (f k v) = f' k (g v))
    (s : SortedMap κ α) : (s.mapVal f).map g = (s.map g).mapVal f' := by
  apply ext_entries
  show (s.entries.map _).map _ = (s.entries.map _).map _
  rw [List.map_map, List.map_map]
  apply List.map_congr_left
  intro p _
  exact congrArg (p.1, ·) (h p.1 p.2)

/-- A change of the values that `g` does not see. -/
theorem map_mapVal_eq_self {f : κ → α → α} (h : ∀ k v, g (f k v) = g v) (s : SortedMap κ α) :
    (s.mapVal f).map g = s.map g := by
  apply ext_entries
  show (s.entries.map _).map _ = s.entries.map _
  rw [List.map_map]
  apply List.map_congr_left
  intro p _
  exact congrArg (p.1, ·) (h p.1 p.2)

theorem map_modify {f : α → α} {f' : β → β} (h : ∀ v, g (f v) = f' (g v)) (s : SortedMap κ α)
    (k : κ) : (s.modify k f).map g = (s.map g).modify k f' := by
  apply map_mapVal
  intro k' v
  split
  · exact h v
  · rfl

end

end SortedMap
