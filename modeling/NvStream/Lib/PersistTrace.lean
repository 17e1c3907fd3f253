/-
  Store traces over a memory with a volatile write buffer, and what a power failure leaves.

  A writer is a list of `Op`s: atomic `store`s, and `drain` fences.  A `PMem` is the memory in two
  parts, the `durable` cells and the `pending` stores not yet fenced; `issue` performs one op and
  `PMem.run` a list of them.  The processor reads the `view`, all pending stores applied; a power
  failure leaves an `Image`: the durable cells with ANY sublist of the pending stores applied.

  The library's one protocol theorem is `image_publish`: a writer that fills scratch space, fences,
  performs ONE atomic store and fences again is atomic.  Whatever prefix of it was issued and
  whatever subset of the unfenced stores landed, the image either equals the old memory outside the
  scratch space, or is exactly the final memory.
-/
import NvStream.Lib.Mem
import Mathlib.Data.List.Infix

namespace PersistTrace

open FlatMem

/-- One step of a writer: an atomic store, or a fence. -/
inductive Op (α : Type) where
  | store (off : Nat) (bs : List α)
  | drain

variable {α : Type}

namespace Op

/-- What an op does to the memory the processor sees. -/
def exec (m : Mem α) : Op α → Mem α
  | store off bs => FlatMem.store m off bs
  | drain => m

/-- Every cell the op stores lies in `W`. -/
def Within (W : Set Nat) : Op α → Prop
  | store off bs => ∀ i < bs.length, off + i ∈ W
  | drain => True

theorem Within.mono {W W' : Set Nat} (hW : W ⊆ W') {o : Op α} (h : o.Within W) : o.Within W' := by
  cases o with
  | drain => trivial
  | store off bs => exact fun i hi => hW (h i hi)

end Op

/-- A whole trace, as the processor sees it. -/
def exec (m : Mem α) (ops : List (Op α)) : Mem α := ops.foldl Op.exec m

@[simp] theorem exec_nil (m : Mem α) : exec m [] = m := rfl

@[simp] theorem exec_cons (m : Mem α) (o : Op α) (ops : List (Op α)) :
    exec m (o :: ops) = exec (o.exec m) ops := rfl

theorem exec_append (m : Mem α) (ops ops' : List (Op α)) :
    exec m (ops ++ ops') = exec (exec m ops) ops' := List.foldl_append

/-- A store inside `W` changes nothing outside it. -/
theorem Op.Within.eqOn {W : Set Nat} {o : Op α} (h : o.Within W) (m : Mem α) :
    Set.EqOn (o.exec m) m Wᶜ := by
  cases o with
  | drain => intro a _; rfl
  | store off bs =>
    apply store_eqOn
    intro a ha
    by_contra hin
    apply ha
    have := h (a - off) (by omega)
    rwa [show off + (a - off) = a by omega] at this

/-- A trace that stores inside `W` changes nothing outside it. -/
theorem exec_eqOn {W : Set Nat} {ops : List (Op α)} (h : ∀ o ∈ ops, o.Within W) (m : Mem α) :
    Set.EqOn (exec m ops) m Wᶜ := by
  induction ops generalizing m with
  | nil => intro a _; rfl
  | cons o ops ih =>
    have htail := ih (fun o' ho' => h o' (List.mem_cons_of_mem o ho')) (o.exec m)
    intro a ha
    rw [exec_cons, htail ha, (h o List.mem_cons_self).eqOn m ha]

/-- The stores of an interval, one cell at a time. -/
def storeEach : Nat → List α → List (Op α)
  | _, [] => []
  | off, b :: bs => Op.store off [b] :: storeEach (off + 1) bs

/-- Cell by cell or at once, the processor sees the same store. -/
theorem exec_storeEach (m : Mem α) (off : Nat) (bs : List α) :
    exec m (storeEach off bs) = FlatMem.store m off bs := by
  induction bs generalizing m off with
  | nil => rw [storeEach, exec_nil, store_nil]
  | cons b bs ih =>
    rw [storeEach, exec_cons, ih]
    exact store_append m off [b] bs

/-- The stores of `storeEach` stay in its interval. -/
theorem storeEach_within {off : Nat} {bs : List α} {o : Op α} (h : o ∈ storeEach off bs) :
    o.Within (Set.Ico off (off + bs.length)) := by
  induction bs generalizing off with
  | nil => exact absurd h List.not_mem_nil
  | cons b bs ih =>
    rw [List.length_cons]
    rcases List.mem_cons.mp h with rfl | h
    · intro i hi
      rw [List.length_singleton] at hi
      exact ⟨by omega, by omega⟩
    · exact (ih h).mono (Set.Ico_subset_Ico (by omega) (by omega))

/-- Where a trace in two parts may be cut: inside the first, or past it inside the second. -/
theorem cut_append {cut xs ys : List (Op α)} (h : cut <+: xs ++ ys) :
    cut <+: xs ∨ ∃ post, cut = xs ++ post ∧ post <+: ys := by
  rcases List.prefix_or_prefix_of_prefix h (List.prefix_append xs ys) with hx | ⟨post, rfl⟩
  · exact Or.inl hx
  · exact Or.inr ⟨post, rfl, (List.prefix_append_right_inj xs).mp h⟩

/-! ## The two-part memory -/

/-- Durable cells, and the stores issued since the last fence, oldest first. -/
structure PMem (α : Type) where
  durable : Mem α
  pending : List (Nat × List α)

/-- Apply stores in order. -/
def land (m : Mem α) (ss : List (Nat × List α)) : Mem α :=
  ss.foldl (fun m s => FlatMem.store m s.1 s.2) m

namespace PMem

/-- What the processor reads. -/
def view (p : PMem α) : Mem α := land p.durable p.pending

/-- Perform one op. -/
def issue (p : PMem α) : Op α → PMem α
  | Op.store off bs => { p with pending := p.pending ++ [(off, bs)] }
  | Op.drain => ⟨p.view, []⟩

/-- Perform a list of ops. -/
def run (p : PMem α) (ops : List (Op α)) : PMem α := ops.foldl issue p

/-- A memory a power failure may leave: any sublist of the pending stores has landed. -/
def Image (p : PMem α) (m' : Mem α) : Prop :=
  ∃ kept, kept.Sublist p.pending ∧ m' = land p.durable kept

theorem run_append (p : PMem α) (ops ops' : List (Op α)) :
    p.run (ops ++ ops') = (p.run ops).run ops' := List.foldl_append

theorem view_issue (p : PMem α) (o : Op α) : (p.issue o).view = o.exec p.view := by
  cases o with
  | drain => rfl
  | store off bs => exact List.foldl_append

/-- The processor's view evolves as if there were no buffer. -/
theorem view_run (p : PMem α) (ops : List (Op α)) : (p.run ops).view = exec p.view ops := by
  induction ops generalizing p with
  | nil => rfl
  | cons o ops ih =>
    show ((p.issue o).run ops).view = _
    rw [ih, view_issue, exec_cons]

/-- A fence makes everything before it durable. -/
theorem run_fenced (p : PMem α) (xs ys : List (Op α)) :
    p.run (xs ++ Op.drain :: ys) = (PMem.mk (exec p.view xs) []).run ys := by
  rw [run_append, ← view_run]
  rfl

/-- Filling, a fence, one store and a fence leave nothing pending. -/
theorem run_publish (p : PMem α) (xs : List (Op α)) (off : Nat) (bs : List α) :
    p.run (xs ++ [Op.drain, Op.store off bs, Op.drain]) =
      ⟨FlatMem.store (exec p.view xs) off bs, []⟩ := by
  rw [run_fenced]
  rfl

/-- All pending stores lie in `W`. -/
def PendingIn (p : PMem α) (W : Set Nat) : Prop :=
  ∀ s ∈ p.pending, ∀ i < s.2.length, s.1 + i ∈ W

theorem land_eqOn {W : Set Nat} {ss : List (Nat × List α)}
    (h : ∀ s ∈ ss, ∀ i < s.2.length, s.1 + i ∈ W) (m : Mem α) :
    Set.EqOn (land m ss) m Wᶜ := by
  have hops : ∀ o ∈ ss.map (fun s => Op.store s.1 s.2), o.Within W := by
    intro o ho
    obtain ⟨s, hs, rfl⟩ := List.mem_map.mp ho
    exact h s hs
  have e : land m ss = exec m (ss.map (fun s => Op.store s.1 s.2)) := by
    rw [exec, List.foldl_map]
    rfl
  rw [e]
  exact exec_eqOn hops m

theorem view_eqOn {p : PMem α} {W : Set Nat} (h : p.PendingIn W) :
    Set.EqOn p.view p.durable Wᶜ := land_eqOn h p.durable

/-- While every unfenced store lies in `W`, an image shows the durable memory outside `W`. -/
theorem Image.eqOn {p : PMem α} {W : Set Nat} {m' : Mem α} (hi : p.Image m')
    (h : p.PendingIn W) : Set.EqOn m' p.durable Wᶜ := by
  obtain ⟨kept, hsub, rfl⟩ := hi
  exact land_eqOn (fun s hs => h s (hsub.subset hs)) p.durable

/-- With nothing pending the only image is the durable memory. -/
theorem Image.of_drained {p : PMem α} {m' : Mem α} (hi : p.Image m') (h : p.pending = []) :
    m' = p.durable := by
  obtain ⟨kept, hsub, rfl⟩ := hi
  rw [h] at hsub
  rw [List.sublist_nil.mp hsub]
  rfl

/-- Issuing stores inside `W` keeps the pending stores inside `W`, and the durable memory
    unchanged outside it. -/
theorem run_within {p : PMem α} {W : Set Nat} (hp : p.PendingIn W) {ops : List (Op α)}
    (h : ∀ o ∈ ops, o.Within W) :
    (p.run ops).PendingIn W ∧ Set.EqOn (p.run ops).durable p.durable Wᶜ := by
  induction ops generalizing p with
  | nil => exact ⟨hp, fun a _ => rfl⟩
  | cons o ops ih =>
    have hstep : (p.issue o).PendingIn W ∧ Set.EqOn (p.issue o).durable p.durable Wᶜ := by
      cases o with
      | drain => exact ⟨fun s hs => absurd hs List.not_mem_nil, view_eqOn hp⟩
      | store off bs =>
        refine ⟨fun s hs => ?_, fun a _ => rfl⟩
        rcases List.mem_append.mp hs with hs | hs
        · exact hp s hs
        · rw [List.mem_singleton.mp hs]
          exact h _ List.mem_cons_self
    obtain ⟨h1, h2⟩ := ih hstep.1 (fun o' ho' => h o' (List.mem_cons_of_mem o ho'))
    exact ⟨h1, fun a ha => (h2 ha).trans (hstep.2 ha)⟩

/-- A crash while only scratch stores were issued shows the old memory outside the scratch. -/
theorem Image.scratch {p : PMem α} {W : Set Nat} {ops : List (Op α)} {m' : Mem α}
    (hi : (p.run ops).Image m') (hp : p.PendingIn W) (h : ∀ o ∈ ops, o.Within W) :
    Set.EqOn m' p.durable Wᶜ := by
  obtain ⟨h1, h2⟩ := run_within hp h
  exact fun a ha => (hi.eqOn h1 ha).trans (h2 ha)

/-- **Fill scratch space, fence, one atomic store, fence: the writer is atomic.**  Past the body,
    an image either still shows the old memory outside the scratch space or is the final view. -/
theorem image_publish {p : PMem α} {W : Set Nat} {body post : List (Op α)} {off : Nat}
    {bs : List α} {m' : Mem α} (hp : p.PendingIn W) (hbody : ∀ o ∈ body, o.Within W)
    (hpost : post <+: [Op.drain, Op.store off bs, Op.drain])
    (hi : (p.run (body ++ post)).Image m') :
    Set.EqOn m' p.durable Wᶜ ∨ m' = FlatMem.store (exec p.view body) off bs := by
  obtain ⟨h1, h2⟩ := run_within hp hbody
  have hview : (p.run body).view = exec p.view body := view_run p body
  have hfenced : Set.EqOn (exec p.view body) p.durable Wᶜ :=
    fun a ha => (exec_eqOn hbody p.view ha).trans (view_eqOn hp ha)
  rw [run_append] at hi
  -- how much of the publication was issued: nothing, the fence, the store, or all of it
  rcases List.prefix_cons_iff.mp hpost with rfl | ⟨post1, rfl, hpost1⟩
  · exact Or.inl (fun a ha => (hi.eqOn h1 ha).trans (h2 ha))
  · rcases List.prefix_cons_iff.mp hpost1 with rfl | ⟨post2, rfl, hpost2⟩
    · left
      rw [hi.of_drained rfl]
      show Set.EqOn (p.run body).view _ _
      rw [hview]
      exact hfenced
    · rcases List.prefix_cons_iff.mp hpost2 with rfl | ⟨post3, rfl, hpost3⟩
      · obtain ⟨kept, hsub, hm⟩ := hi
        have hsub' : kept.Sublist [(off, bs)] := hsub
        have hm' : m' = land (p.run body).view kept := hm
        rw [hview] at hm'
        rcases List.sublist_singleton.mp hsub' with rfl | rfl
        · left
          rw [hm']
          exact hfenced
        · exact Or.inr hm'
      · right
        rw [List.prefix_nil.mp hpost3] at hi
        rw [hi.of_drained rfl, ← hview]
        rfl

end PMem
end PersistTrace
