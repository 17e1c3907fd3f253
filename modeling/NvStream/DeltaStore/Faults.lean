/-
  Which object a page fault is charged to.

  `delta_handler` goes through the objects in key order and takes the first one for which the unsigned
  difference of the faulting address and the object's address is AT MOST its aligned size.  The
  difference wraps for lower addresses, so those are far away; but the comparison also takes the
  address just behind the object (`belongs_iff`).  The handler has two things to do for the object
  it takes, to unprotect the page and to set a bit, and one if it takes none, to call the handler
  that was installed before; `handlerActions` is what it does, and `deltaHandler` performs it.

  With disjoint objects the choice is right unless some object ends exactly at the faulting address
  and comes before the one that contains it, if there is one (`fault_attribution_iff`).
-/
import NvStream.DeltaStore.Entries

namespace NvStream

open FlatMem LittleEndian LoadProg PersistTrace

/-! ## What the handler does -/

/-- One effect of `delta_handler`. -/
inductive FaultAction where
  /-- `disable_protection(pageptr, PAGE_SIZE)` -/
  | disableProtection (page : Nat)
  /-- `it->second->set_modified_bit(page_index)`, for the object filed under `key` -/
  | setModifiedBit (key : Key) (pageIndex : Nat)
  /-- `call_oldhandler(sig, &old_sa)` -/
  | callOldHandler
deriving DecidableEq, Repr

namespace DeltaStore

/-- What `delta_handler` does for the faulting address `addr`, in order. -/
def handlerActions (s : DeltaStore) (addr : Nat) : List FaultAction :=
  if addr ≠ 0 then
    match s.objectMap.entries.find? (fun p => belongs addr p.2) with
    | some (key, obj) => [.disableProtection (pageOf addr),
        .setModifiedBit key (u64 (addr + 2 ^ 64 - obj.ptr) / 2 ^ 12)]
    | none => [.callOldHandler]
  else []

/-- One effect on the process.  The old handler ends it. -/
def act (s : DeltaStore) : FaultAction → Except Stop DeltaStore
  | .disableProtection page => .ok { s with
      readOnly := fun p => if p = page then false else s.readOnly p }
  | .setModifiedBit key pageIndex => .ok { s with
      objectMap := s.objectMap.modify key (fun o => o.setModifiedBit pageIndex) }
  | .callOldHandler => .error .segv

/-- The handler performs its actions one after the other. -/
theorem deltaHandler_eq (s : DeltaStore) (addr : Nat) :
    s.deltaHandler addr = (s.handlerActions addr).foldlM act s := by
  unfold deltaHandler handlerActions
  by_cases h0 : addr ≠ 0
  · rw [if_pos h0, if_pos h0]
    cases s.objectMap.entries.find? (fun p => belongs addr p.2) with
    | none => rfl
    | some q => rfl
  · rw [if_neg h0, if_neg h0]
    rfl

end DeltaStore

/-! ## Ranges -/

/-- The address lies in `[ptr, ptr + aligned_size)`. -/
def Object.Covers (o : Object) (addr : Nat) : Prop :=
  o.ptr ≤ addr ∧ addr < o.ptr + o.alignedSize

/-- The ranges of the live objects lie in the address space, and no two have an address in common. -/
structure DeltaStore.Separate (s : DeltaStore) : Prop where
  inside : ∀ p ∈ s.objectMap.entries, p.2.ptr + p.2.alignedSize ≤ 2 ^ 64
  apart : ∀ p ∈ s.objectMap.entries, ∀ q ∈ s.objectMap.entries, ∀ addr,
    p.2.Covers addr → q.2.Covers addr → p = q

/-- **What the comparison accepts**: the range, and the address just behind it.  For an address below
    the object the difference wraps to more than the aligned size. -/
theorem DeltaStore.belongs_iff {o : Object} (hin : o.ptr + o.alignedSize ≤ 2 ^ 64) {addr : Nat}
    (h0 : addr ≠ 0) (haddr : addr < 2 ^ 64) :
    belongs addr o = true ↔ o.Covers addr ∨ o.ptr + o.alignedSize = addr := by
  rw [belongs, decide_eq_true_iff, Object.Covers]
  rcases Nat.lt_or_ge addr o.ptr with hlt | hge
  · have hoff : u64 (addr + 2 ^ 64 - o.ptr) = addr + 2 ^ 64 - o.ptr := u64_of_lt (by omega)
    rw [hoff]
    omega
  · rw [u64_distance hge haddr]
    omega

/-- The handler is right about the address: it charges the fault to the object whose range contains
    it, at the page of the address, and leaves it to the old handler if there is none. -/
structure DeltaStore.Attributes (s : DeltaStore) (addr : Nat) : Prop where
  covered : ∀ p ∈ s.objectMap.entries, p.2.Covers addr →
    s.handlerActions addr = [.disableProtection (pageOf addr),
      .setModifiedBit p.1 ((addr - p.2.ptr) / pageSize)]
  uncovered : (∀ p ∈ s.objectMap.entries, ¬ p.2.Covers addr) →
    s.handlerActions addr = [.callOldHandler]

namespace DeltaStore

section
variable {s : DeltaStore} {addr : Nat}

/-- What the handler does once it has chosen. -/
theorem handlerActions_of_find (h0 : addr ≠ 0) {q : Key × Object}
    (h : s.objectMap.entries.find? (fun p => belongs addr p.2) = some q) :
    s.handlerActions addr = [.disableProtection (pageOf addr),
      .setModifiedBit q.1 (u64 (addr + 2 ^ 64 - q.2.ptr) / 2 ^ 12)] := by
  unfold handlerActions
  rw [if_pos h0, h]

theorem handlerActions_of_none (h0 : addr ≠ 0)
    (h : s.objectMap.entries.find? (fun p => belongs addr p.2) = none) :
    s.handlerActions addr = [.callOldHandler] := by
  unfold handlerActions
  rw [if_pos h0, h]

/-- The actions show which object was chosen. -/
theorem find_of_handlerActions (h0 : addr ≠ 0) {q : Key × Object}
    (hq : q ∈ s.objectMap.entries) {page pageIndex : Nat}
    (h : s.handlerActions addr = [.disableProtection page, .setModifiedBit q.1 pageIndex]) :
    s.objectMap.entries.find? (fun p => belongs addr p.2) = some q := by
  cases hfind : s.objectMap.entries.find? (fun p => belongs addr p.2) with
  | none =>
    rw [handlerActions_of_none h0 hfind] at h
    cases h
  | some q' =>
    rw [handlerActions_of_find h0 hfind] at h
    have hkey : q'.1 = q.1 := by
      simp only [List.cons.injEq, FaultAction.setModifiedBit.injEq] at h
      exact h.2.1.1
    rw [s.objectMap.eq_of_key (List.mem_of_find?_eq_some hfind) hq hkey]

theorem find_none_of_handlerActions (h0 : addr ≠ 0)
    (h : s.handlerActions addr = [.callOldHandler]) :
    s.objectMap.entries.find? (fun p => belongs addr p.2) = none := by
  cases hfind : s.objectMap.entries.find? (fun p => belongs addr p.2) with
  | none => rfl
  | some q =>
    rw [handlerActions_of_find h0 hfind] at h
    cases h

/-- The handler charges the fault to `q` exactly if no object with a smaller key belongs. -/
theorem find_belongs_iff (hs : s.Separate) (h0 : addr ≠ 0) (haddr : addr < 2 ^ 64)
    {q : Key × Object} (hq : q ∈ s.objectMap.entries) (hcov : q.2.Covers addr) :
    s.objectMap.entries.find? (fun p => belongs addr p.2) = some q ↔
      ∀ p ∈ s.objectMap.entries, p.2.ptr + p.2.alignedSize = addr → q.1 < p.1 := by
  rw [SortedMap.find?_entries_eq_some]
  have hbel : ∀ p ∈ s.objectMap.entries, (belongs addr p.2 = true ↔
      p.2.Covers addr ∨ p.2.ptr + p.2.alignedSize = addr) :=
    fun p hp => belongs_iff (hs.inside p hp) h0 haddr
  constructor
  · rintro ⟨_, _, hleast⟩ p hp hend
    refine lt_of_le_of_ne (hleast p hp ((hbel p hp).mpr (Or.inr hend))) (fun hkey => ?_)
    -- an object does not end where it still covers
    rw [← s.objectMap.eq_of_key hq hp hkey] at hend
    have := hcov.2
    omega
  · intro hends
    refine ⟨hq, (hbel q hq).mpr (Or.inl hcov), fun p hp hp' => ?_⟩
    rcases (hbel p hp).mp hp' with hp' | hend
    · rw [hs.apart p hp q hq addr hp' hcov]
    · exact le_of_lt (hends p hp hend)

/-- The handler finds no object exactly if no object ends at an address that none covers. -/
theorem find_belongs_none_iff (hs : s.Separate) (h0 : addr ≠ 0) (haddr : addr < 2 ^ 64)
    (hunc : ∀ p ∈ s.objectMap.entries, ¬ p.2.Covers addr) :
    s.objectMap.entries.find? (fun p => belongs addr p.2) = none ↔
      ∀ p ∈ s.objectMap.entries, p.2.ptr + p.2.alignedSize ≠ addr := by
  rw [List.find?_eq_none]
  refine forall₂_congr (fun p hp => ?_)
  rw [belongs_iff (hs.inside p hp) h0 haddr]
  exact not_congr (or_iff_right (hunc p hp))

/-- The offset of an address in the range that covers it. -/
theorem offset_of_covers {o : Object} (hin : o.ptr + o.alignedSize ≤ 2 ^ 64)
    (hcov : o.Covers addr) : u64 (addr + 2 ^ 64 - o.ptr) / 2 ^ 12 = (addr - o.ptr) / pageSize := by
  obtain ⟨hge, hlt⟩ := hcov
  rw [u64_distance hge (by omega)]
  rfl

end

end DeltaStore

/-- **When a fault is charged to the right object.**  For any number of live objects with disjoint
    ranges, wherever they lie, and every address but NULL: the handler is right if and only if every
    object that ends exactly at the address comes, in key order, behind the object whose range
    contains it.  (If no range contains the address, no object may end there.) -/
theorem fault_attribution_iff {s : DeltaStore} (hs : s.Separate) {addr : Nat} (h0 : addr ≠ 0)
    (haddr : addr < 2 ^ 64) :
    s.Attributes addr ↔ ∀ p ∈ s.objectMap.entries, p.2.ptr + p.2.alignedSize = addr →
      ∃ q ∈ s.objectMap.entries, q.2.Covers addr ∧ q.1 < p.1 := by
  by_cases hcov : ∃ q ∈ s.objectMap.entries, q.2.Covers addr
  · obtain ⟨q, hq, hqcov⟩ := hcov
    have hfind := DeltaStore.find_belongs_iff hs h0 haddr hq hqcov
    constructor
    · intro hattr p hp hend
      have hchosen := DeltaStore.find_of_handlerActions h0 hq (hattr.covered q hq hqcov)
      exact ⟨q, hq, hqcov, hfind.mp hchosen p hp hend⟩
    · intro hends
      have hchosen := hfind.mpr (fun p hp hend => by
        obtain ⟨q', hq', hq'cov, hlt⟩ := hends p hp hend
        rw [hs.apart q hq q' hq' addr hqcov hq'cov]
        exact hlt)
      refine ⟨fun p hp hpcov => ?_, fun hunc => absurd hqcov (hunc q hq)⟩
      obtain rfl := hs.apart p hp q hq addr hpcov hqcov
      rw [DeltaStore.handlerActions_of_find h0 hchosen,
        DeltaStore.offset_of_covers (hs.inside p hp) hpcov]
  · have hunc : ∀ p ∈ s.objectMap.entries, ¬ p.2.Covers addr :=
      fun p hp hpcov => hcov ⟨p, hp, hpcov⟩
    have hfind := DeltaStore.find_belongs_none_iff hs h0 haddr hunc
    constructor
    · intro hattr p hp hend
      have hnone := DeltaStore.find_none_of_handlerActions h0 (hattr.uncovered hunc)
      exact absurd hend (hfind.mp hnone p hp)
    · intro hends
      have hnone := hfind.mpr (fun p hp hend => by
        obtain ⟨q, hq, hqcov, _⟩ := hends p hp hend
        exact hunc q hq hqcov)
      exact ⟨fun p hp hpcov => absurd hpcov (hunc p hp),
        fun _ => DeltaStore.handlerActions_of_none h0 hnone⟩

/-! ### Two neighbours -/

/-- Two objects of one page each, the one filed under the smaller key directly below the other. -/
theorem DeltaStore.two_objects : ∃ l f s₁ s₂, Log.ctor none deltaLogSize = .ok (l, f) ∧
    (ctor l f (fun _ => 0)).createObj [97] 4 4096 = .ok (.noError, 4096, s₁) ∧
    s₁.objectMap.entries = [([97], Object.ctorDelta [97] 4 0 4096)] ∧
    s₁.createObj [98] 4 8192 = .ok (.noError, 8192, s₂) ∧
    s₂.objectMap.entries = [([97], Object.ctorDelta [97] 4 0 4096),
      ([98], Object.ctorDelta [98] 4 0 8192)] ∧
    s₁.Separate ∧ s₂.Separate := by
  obtain ⟨l, f, hnew, _⟩ := ctor_ok deltaLogSize (by decide)
  refine ⟨l, f, _, _, hnew, rfl, rfl, rfl, rfl, ⟨?_, ?_⟩, ⟨?_, ?_⟩⟩
  · intro p hp
    rw [List.mem_singleton.mp hp]
    decide
  · intro p hp q hq addr _ _
    rw [List.mem_singleton.mp hp, List.mem_singleton.mp hq]
  · intro p hp
    rcases List.mem_cons.mp hp with rfl | hp
    · decide
    · rw [List.mem_singleton.mp hp]
      decide
  · intro p hp q hq addr hpcov hqcov
    have ha : ∀ a, (Object.ctorDelta [97] 4 0 4096).Covers a → a < 8192 := fun a h => h.2
    have hb : ∀ a, (Object.ctorDelta [98] 4 0 8192).Covers a → 8192 ≤ a := fun a h => h.1
    rcases List.mem_cons.mp hp with rfl | hp
    · rcases List.mem_cons.mp hq with rfl | hq
      · rfl
      · obtain rfl := List.mem_singleton.mp hq
        exact absurd (ha addr hpcov) (Nat.not_lt.mpr (hb addr hqcov))
    · obtain rfl := List.mem_singleton.mp hp
      rcases List.mem_cons.mp hq with rfl | hq
      · exact absurd (ha addr hqcov) (Nat.not_lt.mpr (hb addr hpcov))
      · exact (List.mem_singleton.mp hq).symm

/-- A fault inside the lower object is charged to it. -/
theorem fault_attribution_iff_inside : ∃ l f s₁ s₂, Log.ctor none deltaLogSize = .ok (l, f) ∧
    (DeltaStore.ctor l f (fun _ => 0)).createObj [97] 4 4096 = .ok (.noError, 4096, s₁) ∧
    s₁.createObj [98] 4 8192 = .ok (.noError, 8192, s₂) ∧ s₂.Attributes 4100 := by
  obtain ⟨l, f, s₁, s₂, hnew, hcreate₁, _, hcreate₂, hmap, _, hs⟩ := DeltaStore.two_objects
  refine ⟨l, f, s₁, s₂, hnew, hcreate₁, hcreate₂, ?_⟩
  refine (fault_attribution_iff hs (by decide) (by decide)).mpr (fun p hp hend => ?_)
  rw [hmap] at hp
  rcases List.mem_cons.mp hp with rfl | hp
  · exact absurd hend (by decide)
  · obtain rfl := List.mem_singleton.mp hp
    exact absurd hend (by decide)

/-- **The first byte of the upper object is charged to the lower one**, whose bit 1 does not exist.
    And while there is only the lower object, a fault in the page behind it, which is none of the
    store's, unprotects that page and never reaches the old handler. -/
theorem fault_behind_object_taken : ∃ l f s₁ s₂, Log.ctor none deltaLogSize = .ok (l, f) ∧
    (DeltaStore.ctor l f (fun _ => 0)).createObj [97] 4 4096 = .ok (.noError, 4096, s₁) ∧
    s₁.createObj [98] 4 8192 = .ok (.noError, 8192, s₂) ∧ s₁.Separate ∧ s₂.Separate ∧
    (∀ p ∈ s₁.objectMap.entries, ¬ p.2.Covers 8192) ∧
    s₁.handlerActions 8192 = [.disableProtection 2, .setModifiedBit [97] 1] ∧
    ¬ s₁.Attributes 8192 ∧
    (∃ o, s₂.objectMap.find? [98] = some o ∧ o.Covers 8192) ∧
    s₂.handlerActions 8192 = [.disableProtection 2, .setModifiedBit [97] 1] ∧
    ¬ s₂.Attributes 8192 := by
  obtain ⟨l, f, s₁, s₂, hnew, hcreate₁, hmap₁, hcreate₂, hmap₂, hs₁, hs₂⟩ :=
    DeltaStore.two_objects
  have hunc : ∀ p ∈ s₁.objectMap.entries, ¬ p.2.Covers 8192 := by
    intro p hp
    rw [hmap₁] at hp
    rw [List.mem_singleton.mp hp]
    exact fun h => absurd h.2 (by decide)
  have hact₁ : s₁.handlerActions 8192 = [.disableProtection 2, .setModifiedBit [97] 1] := by
    unfold DeltaStore.handlerActions
    rw [hmap₁]
    decide
  have hact₂ : s₂.handlerActions 8192 = [.disableProtection 2, .setModifiedBit [97] 1] := by
    unfold DeltaStore.handlerActions
    rw [hmap₂]
    decide
  have hupper : ([98], Object.ctorDelta [98] 4 0 8192) ∈ s₂.objectMap.entries := by
    rw [hmap₂]
    exact List.mem_cons_of_mem _ (List.mem_singleton.mpr rfl)
  have hcov : (Object.ctorDelta [98] 4 0 8192).Covers 8192 := ⟨by decide, by decide⟩
  refine ⟨l, f, s₁, s₂, hnew, hcreate₁, hcreate₂, hs₁, hs₂, hunc, hact₁, ?_,
    ⟨_, (SortedMap.find?_eq_some _ _ _).mpr hupper, hcov⟩, hact₂, ?_⟩
  · intro h
    have hold := h.uncovered hunc
    rw [hact₁] at hold
    cases hold
  · intro h
    have hright := h.covered _ hupper hcov
    rw [hact₂] at hright
    exact absurd hright (by decide)

end NvStream
