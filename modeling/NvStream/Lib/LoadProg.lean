/-
  Programs that only LOAD from a shared memory, as a free monad.

  `Prog ε α β` is a computation that performs atomic loads of intervals of cells `α`, may `fail`
  with a reason `ε`, and otherwise returns a `β`.  One term has two meanings:

  * `run` executes it against a fixed memory, a load past the limit `lim` being a fault;
  * a scheduler may perform its loads one at a time while somebody else stores in between
    (`Prog.load off n k` steps to `k (load m off n)` in whatever memory `m` is current).

  The bridge between the two is `Yields S m p b`: against `m`, `p` returns `b` and every cell it
  loads lies in `S`.  It composes along `bind` (`Yields.bind`), it IS the run (`Yields.run_eq`), and
  it survives every store outside `S` (`Yields.frame`) as well as every load step
  (`Yields.load_step`).  So a reader that only looks at a region no writer touches computes, under
  any interleaving, what it would have computed alone.  Read backwards, `Yields.of_bind` and
  `yields_of_run` take a finished run apart.  Where a load may leave the limit, `run_bind` and
  `run_loadEach` say what the run comes to, faults included.
-/
import NvStream.Lib.Mem

namespace LoadProg

open FlatMem

/-- A program over a memory of cells `α`, failing with `ε`, returning `β`. -/
inductive Prog (ε α β : Type) where
  /-- Finished, with a value. -/
  | ret (b : β)
  /-- Stopped, with a reason. -/
  | fail (e : ε)
  /-- One atomic load of the `n` cells from `off`, then the rest. -/
  | load (off n : Nat) (k : List α → Prog ε α β)

variable {ε α β γ : Type}

namespace Prog

/-- Sequencing: graft `f` onto every returned value. -/
def bind : Prog ε α β → (β → Prog ε α γ) → Prog ε α γ
  | ret b, f => f b
  | fail e, _ => fail e
  | load off n k, f => load off n (fun bs => (k bs).bind f)

instance : Monad (Prog ε α) where
  pure := ret
  bind := bind

/-- Execution against a fixed memory; a load that leaves `[0, lim)` faults. -/
def run (lim : Nat) (fault : ε) (m : Mem α) : Prog ε α β → Except ε β
  | ret b => .ok b
  | fail e => .error e
  | load off n k =>
    if n = 0 ∨ off + n ≤ lim then (k (FlatMem.load m off n)).run lim fault m else .error fault

/-- The cells of an interval, loaded one at a time. -/
def loadEach : Nat → Nat → Prog ε α (List α)
  | _, 0 => ret []
  | off, n + 1 => load off 1 (fun b => (loadEach (off + 1) n).bind (fun bs => ret (b ++ bs)))

/-- **Against `m`, the program returns `b`, and loads only cells of `S`.** -/
def Yields (S : Set Nat) (m : Mem α) : Prog ε α β → β → Prop
  | ret b', b => b' = b
  | fail _, _ => False
  | load off n k, b => (∀ i < n, off + i ∈ S) ∧ (k (FlatMem.load m off n)).Yields S m b

variable {S T : Set Nat} {m m' : Mem α} {p : Prog ε α β} {b : β}

/-! ## Composition -/

theorem yields_ret (S : Set Nat) (m : Mem α) (b : β) : (ret b : Prog ε α β).Yields S m b := rfl

theorem yields_pure (S : Set Nat) (m : Mem α) (b : β) :
    (pure b : Prog ε α β).Yields S m b := rfl

theorem yields_load {off n : Nat} {k : List α → Prog ε α β} (h : ∀ i < n, off + i ∈ S)
    (hk : (k (FlatMem.load m off n)).Yields S m b) : (load off n k).Yields S m b := ⟨h, hk⟩

theorem Yields.bind {f : β → Prog ε α γ} {c : γ} (hp : p.Yields S m b)
    (hf : (f b).Yields S m c) : (p.bind f).Yields S m c := by
  induction p with
  | ret b' =>
    have hb : b' = b := hp
    rw [Prog.bind, hb]
    exact hf
  | fail e => exact hp.elim
  | load off n k ih => exact ⟨hp.1, ih _ hp.2⟩

/-- Sequencing is associative. -/
theorem bind_assoc' {δ : Type} (p : Prog ε α β) (f : β → Prog ε α γ) (g : γ → Prog ε α δ) :
    (p.bind f).bind g = p.bind (fun b => (f b).bind g) := by
  induction p with
  | ret b => rfl
  | fail e => rfl
  | load off n k ih =>
    rw [bind, bind, bind]
    exact congrArg (Prog.load off n) (funext ih)

/-- `Yields.bind` for `do` blocks. -/
theorem Yields.bind' {f : β → Prog ε α γ} {c : γ} (hp : p.Yields S m b)
    (hf : (f b).Yields S m c) : (p >>= f).Yields S m c :=
  Yields.bind hp hf

theorem Yields.mono (hST : S ⊆ T) (h : p.Yields S m b) : p.Yields T m b := by
  induction p with
  | ret _ => exact h
  | fail e => exact h.elim
  | load off n k ih => exact ⟨fun i hi => hST (h.1 i hi), ih _ h.2⟩

theorem yields_loadEach {off n : Nat} (h : ∀ i < n, off + i ∈ S) :
    (loadEach off n : Prog ε α (List α)).Yields S m (FlatMem.load m off n) := by
  induction n generalizing off with
  | zero => rfl
  | succ n ih =>
    refine ⟨fun i hi => h i (by omega), ?_⟩
    have hrest : ∀ i < n, off + 1 + i ∈ S := by
      intro i hi
      rw [show off + 1 + i = off + (i + 1) by omega]
      exact h (i + 1) (by omega)
    exact Yields.bind (ih hrest) rfl

/-! ## The two readings -/

/-- **A composed program runs one part after the other.** -/
theorem run_bind (lim : Nat) (fault : ε) (m : Mem α) (p : Prog ε α β) (f : β → Prog ε α γ) :
    (p >>= f).run lim fault m =
      (p.run lim fault m).bind (fun b => (f b).run lim fault m) := by
  induction p with
  | ret b => rfl
  | fail e => rfl
  | load off n k ih =>
    show (Prog.load off n (fun bs => (k bs).bind f)).run lim fault m = _
    rw [run, run]
    split
    · exact ih _
    · rfl

/-- An interval is loaded, or faults as soon as it leaves the limit. -/
theorem run_loadEach (lim : Nat) (fault : ε) (m : Mem α) (off n : Nat) :
    (loadEach off n : Prog ε α (List α)).run lim fault m =
      if n = 0 ∨ off + n ≤ lim then .ok (FlatMem.load m off n) else .error fault := by
  induction n generalizing off with
  | zero => rfl
  | succ n ih =>
    rw [loadEach, run]
    by_cases hin : off + (n + 1) ≤ lim
    · rw [if_pos (by omega), if_pos (Or.inr hin)]
      refine (run_bind lim fault m (loadEach (off + 1) n) _).trans ?_
      rw [ih, if_pos (by omega)]
      rfl
    · rw [if_neg (c := n + 1 = 0 ∨ off + (n + 1) ≤ lim) (by omega)]
      split
      · refine (run_bind lim fault m (loadEach (off + 1) n) _).trans ?_
        rw [ih, if_neg (by omega)]
        rfl
      · rfl

/-- A program whose loads stay below the limit runs to the value it yields. -/
theorem Yields.run_eq {lim : Nat} {fault : ε} (h : p.Yields S m b) (hS : ∀ a ∈ S, a < lim) :
    p.run lim fault m = .ok b := by
  induction p with
  | ret b' =>
    have hb : b' = b := h
    rw [run, hb]
  | fail e => exact h.elim
  | load off n k ih =>
    rw [run, if_pos]
    · exact ih _ h.2
    · rcases Nat.eq_zero_or_pos n with hn | hn
      · exact Or.inl hn
      · have := hS _ (h.1 (n - 1) (by omega))
        exact Or.inr (by omega)

/-- Behind a program that yields, a composed one runs its second part. -/
theorem Yields.run_bind_eq {lim : Nat} {fault : ε} (h : p.Yields S m b) (hS : ∀ a ∈ S, a < lim)
    (f : β → Prog ε α γ) : (p >>= f).run lim fault m = (f b).run lim fault m := by
  rw [run_bind, h.run_eq hS]
  rfl

/-- A run that does not fault returns what the program yields, wherever the loads go. -/
theorem Yields.eq_of_run {lim : Nat} {fault : ε} {b' : β} (h : p.Yields S m b)
    (hrun : p.run lim fault m = .ok b') : b' = b := by
  induction p with
  | ret b'' =>
    have hb : b'' = b := h
    rw [run, Except.ok.injEq] at hrun
    exact hrun.symm.trans hb
  | fail e => exact h.elim
  | load off n k ih =>
    rw [run] at hrun
    split at hrun
    · exact ih _ h.2 hrun
    · cases hrun

/-- **Stores outside the loaded region are invisible.** -/
theorem Yields.frame (heq : Set.EqOn m m' S) (h : p.Yields S m b) : p.Yields S m' b := by
  induction p with
  | ret _ => exact h
  | fail e => exact h.elim
  | load off n k ih =>
    have hl : FlatMem.load m off n = FlatMem.load m' off n := by
      apply load_congr
      intro a ha
      have h1 := ha.1
      have h2 := ha.2
      have := h.1 (a - off) (by omega)
      rw [show off + (a - off) = a by omega] at this
      exact heq this
    refine ⟨h.1, ?_⟩
    rw [← hl]
    exact ih _ h.2

/-- A load step looks at `S`, and keeps what the program will return. -/
theorem Yields.load_step {off n : Nat} {k : List α → Prog ε α β}
    (h : (Prog.load off n k).Yields S m b) :
    (∀ i < n, off + i ∈ S) ∧ (k (FlatMem.load m off n)).Yields S m b := h

/-- A program that has returned has returned what it yields. -/
theorem Yields.ret_eq {b' : β} (h : (Prog.ret b' : Prog ε α β).Yields S m b) : b' = b := h

/-- A program yields one value. -/
theorem Yields.unique {b' : β} (h : p.Yields S m b) (h' : p.Yields T m b') : b = b' := by
  induction p with
  | ret b'' => exact Eq.trans (Eq.symm h) h'
  | fail e => exact False.elim h
  | load off n k ih => exact ih _ h.2 h'.2

/-- What a composed program yields comes from its parts: the first yields something, and the second
    yields the rest from there. -/
theorem Yields.of_bind {f : β → Prog ε α γ} {c : γ} (h : (p >>= f).Yields S m c) :
    ∃ b, p.Yields S m b ∧ (f b).Yields S m c := by
  induction p with
  | ret b => exact ⟨b, rfl, h⟩
  | fail e => exact False.elim h
  | load off n k ih =>
    obtain ⟨hin, hrest⟩ : (∀ i < n, off + i ∈ S) ∧
        ((k (FlatMem.load m off n)).bind f).Yields S m c := h
    obtain ⟨b, hb, hf⟩ := ih (FlatMem.load m off n) hrest
    exact ⟨b, ⟨hin, hb⟩, hf⟩

/-- What the loads of an interval yield, and where they look. -/
theorem yields_loadEach_iff {off n : Nat} {bs : List α} :
    (loadEach off n : Prog ε α (List α)).Yields S m bs ↔
      (∀ i < n, off + i ∈ S) ∧ bs = FlatMem.load m off n := by
  constructor
  · intro h
    refine ⟨?_, h.unique (yields_loadEach (fun _ _ => Set.mem_univ _))⟩
    induction n generalizing off bs with
    | zero => exact fun i hi => absurd hi (Nat.not_lt_zero i)
    | succ n ih =>
      obtain ⟨hfirst, hrest⟩ := h
      obtain ⟨bs', hbs', _⟩ := Yields.of_bind (p := loadEach (off + 1) n) hrest
      intro i hi
      cases i with
      | zero => exact hfirst 0 Nat.one_pos
      | succ i =>
        rw [show off + (i + 1) = off + 1 + i by omega]
        exact ih hbs' i (by omega)
  · rintro ⟨hin, rfl⟩
    exact yields_loadEach hin

/-- A run that does not fault is a yield below the limit. -/
theorem yields_of_run {lim : Nat} {fault : ε} (h : p.run lim fault m = .ok b) :
    p.Yields (Set.Iio lim) m b := by
  induction p with
  | ret b' => exact Except.ok.inj h
  | fail e => cases h
  | load off n k ih =>
    rw [run] at h
    split at h
    · rename_i hin
      refine ⟨fun i hi => ?_, ih _ h⟩
      show off + i < lim
      omega
    · cases h

theorem not_yields_fail {e : ε} : ¬ (Prog.fail e : Prog ε α β).Yields S m b := id

/-! ## Looking at cells that somebody else is changing

  A program may load a cell outside the region it relies on and then make nothing of it.  `Settles`
  is `Yields` for such programs: only the cells of `S` are known, every other one may read as
  anything, and differently each time. -/

/-- **Whatever the cells outside `S` read as, the program returns `b`.** -/
def Settles (S : Set Nat) (m : Mem α) : Prog ε α β → β → Prop
  | ret b', b => b' = b
  | fail _, _ => False
  | load off n k, b => ∀ m', Set.EqOn m' m S → (k (FlatMem.load m' off n)).Settles S m b

theorem settles_pure (S : Set Nat) (m : Mem α) (b : β) :
    (pure b : Prog ε α β).Settles S m b := rfl

/-- A program that looks at known cells only. -/
theorem Yields.settles (h : p.Yields S m b) : p.Settles S m b := by
  induction p with
  | ret _ => exact h
  | fail e => exact False.elim h
  | load off n k ih =>
    intro m' hm'
    have hsame : FlatMem.load m' off n = FlatMem.load m off n := by
      apply load_congr
      intro a ha
      have hin := h.1 (a - off) (by have := ha.1; have := ha.2; omega)
      rw [show off + (a - off) = a by have := ha.1; omega] at hin
      exact hm' hin
    rw [hsame]
    exact ih _ h.2

/-- `Settles` composes along `do` blocks. -/
theorem Settles.bind' {f : β → Prog ε α γ} {c : γ} (hp : p.Settles S m b)
    (hf : (f b).Settles S m c) : (p >>= f).Settles S m c := by
  induction p with
  | ret b' =>
    have hb : b' = b := hp
    show (f b').Settles S m c
    rw [hb]
    exact hf
  | fail e => exact False.elim hp
  | load off n k ih => exact fun m' hm' => ih _ (hp m' hm')

/-- Loads whose result does not matter. -/
theorem settles_loadEach_bind {off n : Nat} {f : List α → Prog ε α γ} {c : γ}
    (hf : ∀ bs, (f bs).Settles S m c) : (loadEach off n >>= f).Settles S m c := by
  induction n generalizing off f with
  | zero => exact hf []
  | succ n ih =>
    intro m' _
    show (((loadEach (off + 1) n).bind _).bind f).Settles S m c
    rw [bind_assoc']
    exact ih (fun bs => hf _)

/-- Stores outside `S` are invisible. -/
theorem Settles.frame (heq : Set.EqOn m m' S) (h : p.Settles S m b) : p.Settles S m' b := by
  induction p with
  | ret _ => exact h
  | fail e => exact False.elim h
  | load off n k ih =>
    intro m'' hm''
    exact ih _ (h m'' (hm''.trans heq.symm))

/-- A load step keeps what the program will return. -/
theorem Settles.load_step {off n : Nat} {k : List α → Prog ε α β}
    (h : (Prog.load off n k).Settles S m b) : (k (FlatMem.load m off n)).Settles S m b :=
  h m (fun _ _ => rfl)

theorem Settles.ret_eq {b' : β} (h : (Prog.ret b' : Prog ε α β).Settles S m b) : b' = b := h

/-- A run that does not fault returns what the program settles on. -/
theorem Settles.eq_of_run {lim : Nat} {fault : ε} {b' : β} (h : p.Settles S m b)
    (hrun : p.run lim fault m = .ok b') : b' = b := by
  induction p with
  | ret b'' =>
    have hb : b'' = b := h
    rw [run, Except.ok.injEq] at hrun
    exact hrun.symm.trans hb
  | fail e => exact False.elim h
  | load off n k ih =>
    rw [run] at hrun
    split at hrun
    · exact ih _ (h m (fun _ _ => rfl)) hrun
    · cases hrun

-- From here on the two are used through their rules only: unfolding them would run the program.
attribute [irreducible] Yields Settles

end Prog
end LoadProg
