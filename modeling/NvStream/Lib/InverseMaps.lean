/-
  Two maps kept by hand as inverses of each other.

  A `SortedMap` files values under keys; each value has an address.  A second map is meant to lead
  from an address back to the key.  `Inverse` says that it does, and that it holds nothing else.  What
  each way of changing the two maps does to that is one lemma; where a change may break it, the lemma
  says exactly when.
-/
import NvStream.Lib.SortedMap

namespace SortedMap

variable {κ ι α : Type} [LinearOrder κ] [LinearOrder ι]

/-- `back` leads from the address of every value to its key, and nowhere else. -/
def Inverse (addr : α → ι) (m : SortedMap κ α) (back : SortedMap ι κ) : Prop :=
  ∀ k p, (∃ v, m.find? k = some v ∧ addr v = p) ↔ back.find? p = some k

variable {addr : α → ι} {m : SortedMap κ α} {back : SortedMap ι κ} {k : κ} {v : α}

theorem inverse_empty : Inverse addr (empty : SortedMap κ α) empty := by
  intro k p
  constructor
  · rintro ⟨v, hv, _⟩
    cases hv
  · intro h
    cases h

/-- A map that leads nowhere is inverse to the empty map only. -/
theorem inverse_empty_right_iff : Inverse addr m empty ↔ m.entries = [] := by
  constructor
  · intro h
    rw [List.eq_nil_iff_forall_not_mem]
    rintro ⟨k, v⟩ hp
    have hback := (h k (addr v)).mp ⟨v, (find?_eq_some _ _ _).mpr hp, rfl⟩
    cases hback
  · intro h
    rw [show m = empty from ext_entries h]
    exact inverse_empty

namespace Inverse

theorem find_back (h : Inverse addr m back) (hv : m.find? k = some v) :
    back.find? (addr v) = some k :=
  (h k (addr v)).mp ⟨v, hv, rfl⟩

/-- No two values share an address. -/
theorem key_unique (h : Inverse addr m back) {k' : κ} {v' : α} (hv : m.find? k = some v)
    (hv' : m.find? k' = some v') (haddr : addr v = addr v') : k = k' := by
  have hk := h.find_back hv
  rw [haddr, h.find_back hv'] at hk
  exact (Option.some.inj hk).symm

/-- An address is unused exactly if no value has it. -/
theorem find_back_eq_none_iff (h : Inverse addr m back) (p : ι) :
    back.find? p = none ↔ ∀ q ∈ m.entries, addr q.2 ≠ p := by
  constructor
  · rintro hnone ⟨k, v⟩ hq rfl
    rw [h.find_back ((find?_eq_some _ _ _).mpr hq)] at hnone
    cases hnone
  · intro hfree
    cases hback : back.find? p with
    | none => rfl
    | some k =>
      obtain ⟨v, hv, haddr⟩ := (h k p).mpr hback
      exact absurd haddr (hfree (k, v) ((find?_eq_some _ _ _).mp hv))

/-- **A new key, filed in both maps**: they stay inverse exactly if the address was unused. -/
theorem insert_iff (h : Inverse addr m back) (hk : m.find? k = none) :
    Inverse addr (m.insert k v) (back.insert (addr v) k) ↔ back.find? (addr v) = none := by
  constructor
  · intro h'
    cases hback : back.find? (addr v) with
    | none => rfl
    | some k₀ =>
      -- the address belonged to another key, which the second map has forgotten
      exfalso
      obtain ⟨v₀, hv₀, haddr⟩ := (h k₀ (addr v)).mpr hback
      have hne : k₀ ≠ k := by
        rintro rfl
        rw [hk] at hv₀
        cases hv₀
      have hold : (m.insert k v).find? k₀ = some v₀ := by rw [find?_insert, if_neg hne, hv₀]
      have hnew : (m.insert k v).find? k = some v := by rw [find?_insert, if_pos rfl]
      exact hne (h'.key_unique hold hnew haddr)
  · intro hfree k' p
    rw [find?_insert, find?_insert]
    by_cases hk' : k' = k
    · rw [if_pos hk', hk']
      constructor
      · rintro ⟨w, hw, rfl⟩
        rw [if_pos (by rw [Option.some.inj hw])]
      · intro hback
        by_cases hp : p = addr v
        · exact ⟨v, rfl, hp.symm⟩
        · rw [if_neg hp] at hback
          obtain ⟨w, hw, _⟩ := (h k p).mpr hback
          rw [hk] at hw
          cases hw
    · rw [if_neg hk']
      by_cases hp : p = addr v
      · rw [if_pos hp, hp]
        constructor
        · rintro ⟨w, hw, haddr⟩
          have hback := h.find_back hw
          rw [haddr, hfree] at hback
          cases hback
        · intro heq
          exact absurd (Option.some.inj heq).symm hk'
      · rw [if_neg hp]
        exact h k' p

/-- **A value set in the first map only**: they stay inverse exactly if it replaces one with the same
    address. -/
theorem insert_left_iff (h : Inverse addr m back) :
    Inverse addr (m.insert k v) back ↔ ∃ old, m.find? k = some old ∧ addr old = addr v := by
  constructor
  · intro h'
    have hback : back.find? (addr v) = some k :=
      h'.find_back (by rw [find?_insert, if_pos rfl])
    exact (h k (addr v)).mpr hback
  · rintro ⟨old, hold, haddr⟩ k' p
    rw [find?_insert]
    by_cases hk : k' = k
    · rw [if_pos hk, hk, ← h k p]
      constructor
      · rintro ⟨w, hw, rfl⟩
        exact ⟨old, hold, by rw [haddr, Option.some.inj hw]⟩
      · rintro ⟨w, hw, rfl⟩
        refine ⟨v, rfl, ?_⟩
        rw [← haddr, Option.some.inj (hold.symm.trans hw)]
    · rw [if_neg hk]
      exact h k' p

/-- **A value taken out of both maps.** -/
theorem erase (h : Inverse addr m back) (hv : m.find? k = some v) :
    Inverse addr (m.erase k) (back.erase (addr v)) := by
  intro k' p
  rw [find?_erase, find?_erase]
  by_cases hk : k' = k
  · rw [if_pos hk, hk]
    constructor
    · rintro ⟨w, hw, _⟩
      cases hw
    · intro hback
      by_cases hp : p = addr v
      · rw [if_pos hp] at hback
        cases hback
      · rw [if_neg hp] at hback
        obtain ⟨w, hw, haddr⟩ := (h k p).mpr hback
        rw [Option.some.inj (hv.symm.trans hw)] at hp
        exact absurd haddr.symm hp
  · rw [if_neg hk]
    by_cases hp : p = addr v
    · rw [if_pos hp, hp]
      constructor
      · rintro ⟨w, hw, haddr⟩
        exact absurd (h.key_unique hw hv haddr) hk
      · intro hnone
        cases hnone
    · rw [if_neg hp]
      exact h k' p

/-- Changes of the values that keep every address. -/
theorem mapVal (h : Inverse addr m back) {g : κ → α → α} (hg : ∀ k v, addr (g k v) = addr v) :
    Inverse addr (m.mapVal g) back := by
  intro k p
  rw [← h k p, find?_mapVal]
  constructor
  · rintro ⟨w, hw, rfl⟩
    obtain ⟨v, hv, rfl⟩ := Option.map_eq_some_iff.mp hw
    exact ⟨v, hv, (hg k v).symm⟩
  · rintro ⟨v, hv, rfl⟩
    exact ⟨g k v, by rw [hv]; rfl, hg k v⟩

theorem modify (h : Inverse addr m back) {g : α → α} (hg : ∀ v, addr (g v) = addr v) (k : κ) :
    Inverse addr (m.modify k g) back := by
  apply h.mapVal
  intro k' v
  split
  · exact hg v
  · rfl

end Inverse

end SortedMap
