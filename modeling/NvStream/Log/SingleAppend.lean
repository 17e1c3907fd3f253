/-
  `Log::append` beside `Log::appendv`.

  The class has a third append function, for one buffer.  It looks like the one-buffer case of
  `appendv`, and the two share `persist`; but `persist` writes the commit word AT `write_offset` and
  advances it by one word, and only `appendv` has moved `write_offset` over the data before.  So
  `append` puts the commit word on top of the data it has just copied and publishes a tail one word
  further, whatever the size; and its space check does not count that word.

  1. **What any accepted call leaves** (`appendWith_ok`, `tail_persist`): the tail it stores is the
     offset its handle caches.  That is all a log needs for handles to stay in step with the file,
     so it survives `append` too (`LogStep.run_bounded`), where the stronger `Rep` does not say
     anything about entries any more.
  2. **When the two agree** (`append_alike_iff`): both refuse, or the buffer is empty.
-/
import NvStream.Log.Invariant

namespace NvStream

open FlatMem LittleEndian LoadProg PersistTrace

/-! ## What an accepted call leaves -/

/-- `persist` leaves the commit word and the tail. -/
theorem exec_persist (m : Mem Byte) (wo : Nat) :
    exec m (persist wo).1 =
      store (store m wo commitWord) tailOff (toLE 8 (u64 (wo + wordLength))) := by
  rw [persist, exec_cons, exec_append, exec_storeEach, exec_append, exec_storeEach, store_idem]
  rfl

theorem tail_persist (m : Mem Byte) (wo : Nat) :
    word (exec m (persist wo).1) tailOff = u64 (wo + wordLength) := by
  have hself := load_store_self (store m wo commitWord) tailOff (toLE 8 (u64 (wo + wordLength)))
  rw [length_toLE] at hself
  rw [exec_persist]
  exact word_of_load hself (u64_lt _)

theorem commit_persist (m : Mem Byte) {wo : Nat} (h : 32 ≤ wo) :
    load (exec m (persist wo).1) wo wordLength = commitWord := by
  have hself := load_store_self m wo commitWord
  rw [length_commitWord] at hself
  rw [exec_persist, load_store_disjoint _ _ _ (Or.inr (by rw [length_toLE, tailOff]; omega))]
  exact hself

/-- **Whichever function it was**, an accepted call passed its check, stored inside the mapping, and
    left the handle one word behind its copy loop. -/
theorem appendWith_ok {l l' : Log} {f f' : File} {need : Nat} {copy : List (Op Byte) × Nat}
    (h : l.appendWith f need copy = .ok (l', f')) :
    l.HasSpace need ∧ (∀ o ∈ copy.1 ++ (persist copy.2).1, InMap f.len o) ∧
    l' = { l with writeOffset := u64 (copy.2 + wordLength) } ∧ f'.len = f.len ∧
    f'.bytes = exec (exec f.bytes copy.1) (persist copy.2).1 := by
  rw [Log.appendWith] at h
  split at h
  · rename_i hspace
    simp only at h
    split at h
    · rename_i hin
      simp only [Except.ok.injEq, Prod.mk.injEq] at h
      obtain ⟨rfl, rfl⟩ := h
      exact ⟨hspace, hin, rfl, rfl, exec_append f.bytes copy.1 (persist copy.2).1⟩
    · cases h
  · cases h

/-! ## The life of a log that is also appended to with `append` -/

/-- One event in the life of a log, with all three append functions.  A process may end at any time,
    by a refused append or otherwise, and another may open the log. -/
inductive LogStep : State → State → Prop
  | append {l l' : Log} {f f' : File} (data : List Byte) (h : l.append f data = .ok (l', f')) :
      LogStep ⟨some l, f⟩ ⟨some l', f'⟩
  | call {l l' : Log} {f f' : File} (a : Append) (h : a.call l f = .ok (l', f')) :
      LogStep ⟨some l, f⟩ ⟨some l', f'⟩
  | stop {l : Log} {f : File} : LogStep ⟨some l, f⟩ ⟨none, f⟩
  | reopen {o : Option Log} {l : Log} {f f' : File} (h : Log.ctor (some f) 0 = .ok (l, f')) :
      LogStep ⟨o, f⟩ ⟨some l, f'⟩

/-- What survives every append: the tail stays behind the header, and a handle caches it. -/
structure State.Bounded (s : State) : Prop where
  small : s.file.len < 2 ^ 63
  tail : 32 ≤ word s.file.bytes tailOff
  stop : ∀ l, s.log = some l → l.endOffset = s.file.len - 1
  write : ∀ l, s.log = some l → l.writeOffset = word s.file.bytes tailOff

/-- An accepted call keeps the bounds, if its copy loop does not go back. -/
theorem State.Bounded.appendWith {l l' : Log} {f f' : File} {need : Nat}
    {copy : List (Op Byte) × Nat} (hb : State.Bounded ⟨some l, f⟩)
    (h : l.appendWith f need copy = .ok (l', f')) (hle : l.writeOffset ≤ copy.2)
    (hlt : copy.2 + wordLength < 2 ^ 64) : State.Bounded ⟨some l', f'⟩ := by
  obtain ⟨_, _, rfl, hlen, hbytes⟩ := appendWith_ok h
  have htail : word f'.bytes tailOff = u64 (copy.2 + wordLength) := by
    rw [hbytes, tail_persist]
  have hwrite : l.writeOffset = word f.bytes tailOff := hb.write l rfl
  have h32 : 32 ≤ word f.bytes tailOff := hb.tail
  rw [u64_of_lt hlt] at htail ⊢
  refine ⟨?_, ?_, ?_, ?_⟩
  · rw [show (⟨_, f'⟩ : State).file.len = f.len from hlen]
    exact hb.small
  · show 32 ≤ word f'.bytes tailOff
    omega
  · rintro l ⟨⟩
    exact (hb.stop l rfl).trans (by rw [hlen])
  · rintro l ⟨⟩
    exact htail.symm

theorem LogStep.bounded {s s' : State} (h : LogStep s s') (hb : s.Bounded) : s'.Bounded := by
  cases h with
  | @append l l' f f' data h =>
    obtain ⟨hspace, _⟩ := appendWith_ok h
    have hstop : l.endOffset = f.len - 1 := hb.stop l rfl
    have hsmall : f.len < 2 ^ 63 := hb.small
    have hlt := hspace.1
    exact hb.appendWith h (Nat.le_refl _) (by rw [wordLength]; omega)
  | @call l l' f f' a h =>
    rw [a.call_eq] at h
    obtain ⟨hspace, hin, _⟩ := appendWith_ok h
    have hstop : l.endOffset = f.len - 1 := hb.stop l rfl
    have hsmall : f.len < 2 ^ 63 := hb.small
    have hlt := hspace.1
    -- every store landed in the mapping, so the copy loop did not wrap around
    have hfits := copyv_fits (fun o ho => hin o (List.mem_append_left _ ho)) (by omega)
      (show f.len < 2 ^ 64 by omega)
    have hcopy := copyv_exact (show l.writeOffset + (gather a.vec).length < 2 ^ 64 by omega)
    refine hb.appendWith h ?_ ?_
    · rw [hcopy]
      exact Nat.le_add_right _ _
    · rw [hcopy, wordLength]
      show l.writeOffset + (gather a.vec).length + 8 < _
      omega
  | stop => exact ⟨hb.small, hb.tail, by rintro l ⟨⟩, by rintro l ⟨⟩⟩
  | @reopen o l f f' h =>
    obtain ⟨hf, rfl⟩ := ctor_handle h
    obtain rfl := Option.some.inj hf
    refine ⟨hb.small, hb.tail, ?_, ?_⟩
    · rintro l ⟨⟩
      rfl
    · rintro l ⟨⟩
      rfl

/-- The bounds hold in every state of every life of a log. -/
theorem LogStep.run_bounded {s s' : State} (h : Relation.ReflTransGen LogStep s s')
    (hb : s.Bounded) : s'.Bounded := by
  induction h with
  | refl => exact hb
  | tail _ hstep ih => exact hstep.bounded ih

theorem bounded_new {size : Nat} {l : Log} {f : File} (h : Log.ctor none size = .ok (l, f)) :
    State.Bounded ⟨some l, f⟩ := by
  obtain ⟨hmap, rfl, _⟩ := ctor_none.mp h
  obtain ⟨rfl, hheader⟩ := ctor_header h
  have htail : word f.bytes tailOff = 32 :=
    word_of_load (LHdr.fields hheader).2.2.2 (by decide)
  refine ⟨hmap.2, ?_, ?_, ?_⟩
  · show 32 ≤ word f.bytes tailOff
    omega
  · rintro l ⟨⟩
    rfl
  · rintro l ⟨⟩
    exact htail.symm

/-! ## When the two functions agree -/

/-- Both calls refuse for lack of space, or both leave the same state: the bytes of the buffer at the
    old `write_offset`, the commit word behind them, and `write_offset` and `hdr->tail` behind both,
    not past `end_offset`. -/
def Log.AppendsAlike (l : Log) (f : File) (v : IoVec) : Prop :=
  (l.append f v.base = .error .exit ∧ l.appendv f [v] = .error .exit) ∨
  ∃ l' f', l.append f v.base = .ok (l', f') ∧ l.appendv f [v] = .ok (l', f') ∧
    load f'.bytes l.writeOffset v.len = v.base ∧
    load f'.bytes (l.writeOffset + v.len) wordLength = commitWord ∧
    l'.writeOffset = l.writeOffset + v.len + wordLength ∧
    word f'.bytes tailOff = l'.writeOffset ∧ l'.writeOffset ≤ l.endOffset

/-- A call refuses exactly when its check fails. -/
theorem appendWith_refused_iff {l : Log} {f : File} {need : Nat} {copy : List (Op Byte) × Nat} :
    l.appendWith f need copy = .error .exit ↔ ¬ l.HasSpace need := by
  rw [Log.appendWith]
  constructor
  · intro h hspace
    rw [if_pos hspace] at h
    simp only at h
    split at h <;> cases h
  · exact fun h => if_neg h

theorem not_hasSpace_iff {l : Log} {need : Nat} :
    ¬ l.HasSpace need ↔ l.endOffset ≤ l.writeOffset ∨ l.endOffset - l.writeOffset < need := by
  rw [Log.HasSpace]
  omega

/-- One buffer: `tot_cnt` is its length and the commit word. -/
theorem totCntv_single (v : IoVec) : totCntv [v] = u64 (v.len + wordLength) := by
  rw [totCntv_eq, gather_cons, List.length_append]
  rfl

/-- The empty buffer, where the commit word still fits: there is no data to step over, and the two
    functions do the same. -/
theorem append_nil_eq_appendv {l : Log} {f : File} {v : IoVec} (hv : v.base = [])
    (hfit : l.writeOffset + wordLength ≤ l.endOffset) (hlt : l.endOffset < 2 ^ 64) :
    l.append f v.base = l.appendv f [v] := by
  have hlen : v.len = 0 := by rw [IoVec.len, hv, List.length_nil]
  have hpos : 0 < wordLength := by decide
  have hu : u64 (l.writeOffset + v.len) = l.writeOffset := by
    rw [hlen, Nat.add_zero, u64_of_lt (by omega)]
  have hcopy : copyv l.writeOffset [v] = (storeEach l.writeOffset v.base, l.writeOffset) := by
    show (storeEach l.writeOffset v.base ++ [], u64 (l.writeOffset + v.len)) = _
    rw [hu, List.append_nil]
  have hspace : l.HasSpace v.base.length := ⟨by omega, by rw [hv]; exact Nat.zero_le _⟩
  have hspace' : l.HasSpace (totCntv [v]) := by
    rw [totCntv_single, hlen, Nat.zero_add, u64_of_lt (show wordLength < 2 ^ 64 by decide)]
    exact ⟨by omega, by omega⟩
  rw [Log.append, Log.appendv, hcopy, Log.appendWith, Log.appendWith, if_pos hspace,
    if_pos hspace']

/-- **What `append` does with the data it takes**: the commit word lands on it, and the tail moves by
    that word. -/
theorem append_ok {l l' : Log} {f f' : File} {data : List Byte}
    (h : l.append f data = .ok (l', f')) (h32 : 32 ≤ l.writeOffset) (hlt : l.endOffset < 2 ^ 63) :
    l'.writeOffset = l.writeOffset + wordLength ∧
    word f'.bytes tailOff = l.writeOffset + wordLength ∧
    load f'.bytes l.writeOffset wordLength = commitWord := by
  obtain ⟨hspace, _, rfl, _, hbytes⟩ := appendWith_ok h
  have hbelow := hspace.1
  have hword : u64 (l.writeOffset + wordLength) = l.writeOffset + wordLength :=
    u64_of_lt (by rw [wordLength]; omega)
  rw [hbytes, tail_persist, commit_persist _ h32]
  exact ⟨hword, hword, rfl⟩

/-- **`append` is the one-buffer case of `appendv` exactly where neither stores a byte of data.**  In
    every state of every life of a log, and for every buffer: the two calls are alike if and only if
    both checks fail, or the buffer is empty and the commit word fits.  Any buffer that `append` takes
    is published with a tail one word behind the old one, and the commit word on top of it. -/
theorem append_alike_iff {size : Nat} {l₀ : Log} {f₀ : File}
    (hnew : Log.ctor none size = .ok (l₀, f₀)) {s : State}
    (hrun : Relation.ReflTransGen LogStep ⟨some l₀, f₀⟩ s) {l : Log} (hl : s.log = some l)
    (v : IoVec) :
    (l.AppendsAlike s.file v ↔
      (l.endOffset ≤ l.writeOffset ∨ (l.endOffset - l.writeOffset < v.len ∧
        l.endOffset - l.writeOffset < u64 (v.len + wordLength))) ∨
      (v.base = [] ∧ l.writeOffset + wordLength ≤ l.endOffset)) ∧
    ∀ l' f', l.append s.file v.base = .ok (l', f') →
      l'.writeOffset = l.writeOffset + wordLength ∧
      word f'.bytes tailOff = l.writeOffset + wordLength ∧
      load f'.bytes l.writeOffset wordLength = commitWord := by
  have hb := LogStep.run_bounded hrun (bounded_new hnew)
  have hsmall := hb.small
  have hstop := hb.stop l hl
  have h32 : 32 ≤ l.writeOffset := by rw [hb.write l hl]; exact hb.tail
  have hone : ∀ l' f', l.append s.file v.base = .ok (l', f') →
      l'.writeOffset = l.writeOffset + wordLength ∧
      word f'.bytes tailOff = l.writeOffset + wordLength ∧
      load f'.bytes l.writeOffset wordLength = commitWord :=
    fun l' f' h => append_ok h h32 (by omega)
  refine ⟨⟨?_, ?_⟩, hone⟩
  · rintro (⟨h1, h2⟩ | ⟨l', f', h1, _, _, _, hwo, _, hle⟩)
    · -- both refuse
      have hno := not_hasSpace_iff.mp (appendWith_refused_iff.mp h1)
      have hno' := not_hasSpace_iff.mp (appendWith_refused_iff.mp h2)
      rw [totCntv_single] at hno'
      refine Or.inl ?_
      rcases hno with h | h
      · exact Or.inl h
      · rcases hno' with h' | h'
        · exact Or.inl h'
        · exact Or.inr ⟨h, h'⟩
    · -- both accept: one word further is behind the data only if there are none
      obtain ⟨hwo', _⟩ := hone l' f' h1
      have hzero : v.base.length = 0 := by
        have : l.writeOffset + v.base.length + wordLength = l.writeOffset + wordLength :=
          hwo.symm.trans hwo'
        omega
      exact Or.inr ⟨List.eq_nil_of_length_eq_zero hzero, by omega⟩
  · rintro (h | ⟨hv, hfit⟩)
    · refine Or.inl ⟨appendWith_refused_iff.mpr ?_, appendWith_refused_iff.mpr ?_⟩
      · rw [not_hasSpace_iff]
        exact h.imp_right And.left
      · rw [not_hasSpace_iff, totCntv_single]
        exact h.imp_right And.right
    · have hgather : gather [v] = [] := by
        rw [gather_cons, hv]
        rfl
      have hlen : v.len = 0 := by rw [IoVec.len, hv, List.length_nil]
      rw [wordLength] at hfit
      have hat : l.writeOffset + (gather [v]).length + 8 ≤ l.endOffset := by
        rw [hgather]
        exact hfit
      have happend := appendv_at h32 (by omega) hsmall hat
      rw [hgather] at happend
      refine Or.inr ⟨_, _, (append_nil_eq_appendv hv hfit (by omega)).trans happend, happend,
        ?_, ?_, ?_, ?_, hfit⟩
      · rw [hlen, hv]
        rfl
      · have hcommit := (hone _ _ ((append_nil_eq_appendv hv hfit (by omega)).trans happend)).2.2
        rw [hlen]
        exact hcommit
      · rw [hlen]
        rfl
      · exact (hone _ _ ((append_nil_eq_appendv hv hfit (by omega)).trans happend)).2.1

/-- On a new log of 256 bytes the empty buffer is appended alike. -/
theorem append_alike_empty : ∃ l f, Log.ctor none 256 = .ok (l, f) ∧
    l.AppendsAlike f ⟨[], by decide⟩ := by
  have hnew : Log.ctor none 256 = .ok _ := ctor_none.mpr ⟨by decide, rfl, rfl⟩
  exact ⟨_, _, hnew, (append_alike_iff hnew .refl rfl ⟨[], by decide⟩).1.mpr
    (Or.inr ⟨rfl, by decide⟩)⟩

/-- On the same log three bytes are not: `append` takes them, puts the commit word over them and
    publishes the tail 40, where `appendv` publishes 43 with the bytes in place. -/
theorem append_not_alike_three : ∃ l f, Log.ctor none 256 = .ok (l, f) ∧
    (∃ l' f', l.append f [1, 2, 3] = .ok (l', f') ∧ l'.writeOffset = 40 ∧
      word f'.bytes tailOff = 40 ∧ load f'.bytes 32 8 = commitWord) ∧
    (∃ l' f', l.appendv f [⟨[1, 2, 3], by decide⟩] = .ok (l', f') ∧ l'.writeOffset = 43 ∧
      word f'.bytes tailOff = 43 ∧ load f'.bytes 32 11 = [1, 2, 3] ++ commitWord) ∧
    ¬ l.AppendsAlike f ⟨[1, 2, 3], by decide⟩ := by
  have hnew : Log.ctor none 256 = .ok _ := ctor_none.mpr ⟨by decide, rfl, rfl⟩
  obtain ⟨hr, hs, _⟩ := ctor_create (by decide) hnew
  obtain ⟨l₁, f₁, h₁⟩ : ∃ l' f', (Log.append ⟨256, sizeofLhdr, 255, sizeofLhdr⟩
      ⟨exec (fun _ => 0) (ctorOps 256), 256⟩ [1, 2, 3]) = .ok (l', f') := ⟨_, _, rfl⟩
  obtain ⟨hwo, htail, hcommit⟩ := append_ok h₁ (by decide) (by decide)
  obtain ⟨l₂, f₂, h₂⟩ :=
    Append.call_of_fits hr hs (.appendv [⟨[1, 2, 3], by decide⟩]) (by decide)
  obtain ⟨_, _, _, hr₂, hs₂⟩ := Append.call_ok hr hs h₂
  refine ⟨_, _, hnew, ⟨l₁, f₁, h₁, hwo, htail, hcommit⟩,
    ⟨l₂, f₂, h₂, hs₂.write, hr₂.tail_eq, hr₂.content⟩, ?_⟩
  rintro (⟨hrefuse, _⟩ | ⟨l', f', hok, _, _, _, hwo', _⟩)
  · have hboth := hrefuse.symm.trans h₁
    cases hboth
  · obtain ⟨hone, _⟩ := append_ok hok (by decide) (by decide)
    exact absurd (hone.symm.trans hwo') (by decide)

end NvStream
