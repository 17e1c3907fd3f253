/-
  Reading a damaged log: what `Log::walk` with `process_chunks` does on ANY bytes.

  The constructor verifies `magic_number` and `len` of the log header and nothing else.  `head`, `tail`
  and every entry header are taken as found: they say where the next header is, so walking an arbitrary
  file is following links through it, in two nested loops.

  1. **One entry** (`run_processChunks_single` and so on): by its type, the callback compares, goes
     through the records, has no return value (`delta`), or exits.
  2. **Sound links** (`File.LogSound`): following the headers from `head`, every field looked at lies
     inside the mapping, no header comes round again, and none is of the type `process_chunks` has no
     case for.
  3. **Ending** (`walk_ends_iff`): the walk returns or calls `exit(1)`, for every bound on the loops from
     some on, exactly when the links are sound.  Offsets are `uint64_t`, so there are finitely many.

  What the store writes has sound links (`logSound_of_rep`).  Nothing the constructor checks makes them
  so: `walk_never_ends`.
-/
import NvStream.NvsStore.Lookup
import NvStream.NvsStore.AnyBytes

namespace NvStream

open FlatMem LittleEndian LoadProg Following Relation

/-- The enumerators are stored as different values. -/
theorem HdrType.code_inj {s t : HdrType} (h : s.code.toNat = t.code.toNat) : s = t := by
  cases s <;> cases t <;> first | rfl | exact absurd h (by decide)

namespace File
variable (f : File)

/-! ## One entry -/

/-- The entry at `off` sends the walk on: it does not answer, and no record of it does. -/
def Passed (w : WalkEntry) (off : Nat) : Prop :=
  (f.typeAt off = HdrType.single.code.toNat ∧ ¬ f.Answers w off) ∨
    (f.typeAt off = HdrType.multiple.code.toNat ∧ f.BatchPassed w off)

/-- **The entry at `off` can be read**: the fields looked at lie inside the mapping, and
    `process_chunks` has a case for its type or refuses it. -/
structure EntrySound (w : WalkEntry) (off : Nat) : Prop where
  len : f.LenInside off
  type : f.TypeInside off
  single : f.typeAt off = HdrType.single.code.toNat → f.CompareInside w off
  multiple : f.typeAt off = HdrType.multiple.code.toNat → f.BatchSound w off
  known : f.typeAt off ≠ HdrType.delta.code.toNat

section
variable {f} {w : WalkEntry} {buf : Nat} (n len : Nat)

theorem typeAt_ne {s t : HdrType} (h : f.typeAt buf = s.code.toNat) (hne : s ≠ t) :
    f.typeAt buf ≠ t.code.toNat := by
  rw [h]
  exact fun heq => hne (HdrType.code_inj heq)

theorem type_cases (f : File) (h : Nat) :
    f.typeAt h = HdrType.single.code.toNat ∨ f.typeAt h = HdrType.multiple.code.toNat ∨
      f.typeAt h = HdrType.delta.code.toNat ∨ ∀ t : HdrType, f.typeAt h ≠ t.code.toNat := by
  by_cases hex : ∃ t : HdrType, f.typeAt h = t.code.toNat
  · obtain ⟨t, ht⟩ := hex
    cases t with
    | single => exact Or.inl ht
    | multiple => exact Or.inr (Or.inl ht)
    | delta => exact Or.inr (Or.inr (Or.inl ht))
  · exact Or.inr (Or.inr (Or.inr (not_exists.mp hex)))

theorem run_processChunks_outside (h : ¬ f.TypeInside buf) :
    f.run (processChunks n buf len w) = .error .segv :=
  f.run_bind_error ((f.run_loadEach _ 3).trans (if_neg h)) _

theorem run_processChunks_single (hl : f.LenInside buf) (h : f.TypeInside buf)
    (htype : f.typeAt buf = HdrType.single.code.toNat) :
    f.run (processChunks n buf len w) =
      if f.CompareInside w buf then
        .ok (if f.Answers w buf then
            ({ w with datap := u64 (buf + sizeofLehdr), len := f.lenAt buf, err := .noError }, false)
          else ({ w with err := .idNotFound }, true))
      else .error .segv := by
  have hmatch : f.run (matchesAt buf { w with err := .idNotFound }) =
      if f.CompareInside w buf then .ok (decide (f.Answers w buf)) else .error .segv :=
    f.run_matchesAt buf _
  rw [typeAt] at htype
  rw [processChunks, f.run_bind_ok (f.run_loadType h), if_pos htype]
  by_cases hcmp : f.CompareInside w buf
  · rw [f.run_bind_ok (hmatch.trans (if_pos hcmp)), if_pos hcmp]
    by_cases hans : f.Answers w buf
    · rw [if_pos (decide_eq_true hans), f.run_bind_ok (f.run_loadLen hl), if_pos hans]
      rfl
    · rw [if_neg (by rw [decide_eq_true_iff]; exact hans), if_neg hans]
      rfl
  · rw [f.run_bind_error (hmatch.trans (if_neg hcmp)), if_neg hcmp]

theorem run_processChunks_multiple (hl : f.LenInside buf) (h : f.TypeInside buf)
    (htype : f.typeAt buf = HdrType.multiple.code.toNat) :
    f.run (processChunks n buf len w) =
      if f.LenInside (u64 (buf + sizeofLehdr)) then
        loop (f.recordStep { w with err := .idNotFound } buf) .fuel n (f.firstRecord buf)
      else .error .segv := by
  have hother := typeAt_ne htype (t := .single) (by decide)
  rw [typeAt] at htype hother
  rw [processChunks, f.run_bind_ok (f.run_loadType h), if_neg hother, if_pos htype]
  by_cases hfirst : f.LenInside (u64 (buf + sizeofLehdr))
  · rw [if_pos hfirst, ← f.run_innerLoop hl]
    exact f.run_bind_ok (f.run_loadLen hfirst) _
  · rw [if_neg hfirst]
    exact f.run_bind_error (f.run_loadLen_outside hfirst) _

theorem run_processChunks_delta (h : f.TypeInside buf)
    (htype : f.typeAt buf = HdrType.delta.code.toNat) :
    f.run (processChunks n buf len w) = .error .undefined := by
  have hsingle := typeAt_ne htype (t := .single) (by decide)
  have hmultiple := typeAt_ne htype (t := .multiple) (by decide)
  rw [typeAt] at htype hsingle hmultiple
  rw [processChunks, f.run_bind_ok (f.run_loadType h), if_neg hsingle, if_neg hmultiple,
    if_pos htype]
  rfl

theorem run_processChunks_exit (h : f.TypeInside buf)
    (htype : ∀ t : HdrType, f.typeAt buf ≠ t.code.toNat) :
    f.run (processChunks n buf len w) = .error .exit := by
  unfold typeAt at htype
  rw [processChunks, f.run_bind_ok (f.run_loadType h), if_neg (htype .single),
    if_neg (htype .multiple), if_neg (htype .delta)]
  rfl

end

section
variable {f} {w : WalkEntry} {buf : Nat} (len : Nat)

/-- A larger bound changes nothing: only the loop over a batch has one. -/
theorem processChunks_stable (hl : f.LenInside buf) {n n' : Nat} (hle : n ≤ n')
    (h : f.run (processChunks n buf len w) ≠ .error .fuel) :
    f.run (processChunks n' buf len w) = f.run (processChunks n buf len w) := by
  by_cases hin : f.TypeInside buf
  · rcases f.type_cases buf with hs | hm | hd | hother
    · rw [run_processChunks_single n len hl hin hs, run_processChunks_single n' len hl hin hs]
    · rw [run_processChunks_multiple n len hl hin hm] at h ⊢
      rw [run_processChunks_multiple n' len hl hin hm]
      by_cases hfirst : f.LenInside (u64 (buf + sizeofLehdr))
      · rw [if_pos hfirst] at h
        rw [if_pos hfirst, if_pos hfirst]
        exact loop_stable _ _ hle h
      · rw [if_neg hfirst, if_neg hfirst]
    · rw [run_processChunks_delta n len hin hd, run_processChunks_delta n' len hin hd]
    · rw [run_processChunks_exit n len hin hother, run_processChunks_exit n' len hin hother]
  · rw [run_processChunks_outside n len hin, run_processChunks_outside n' len hin]

theorem entrySound_single (hl : f.LenInside buf) (hin : f.TypeInside buf)
    (hs : f.typeAt buf = HdrType.single.code.toNat) :
    f.EntrySound w buf ↔ f.CompareInside w buf := by
  constructor
  · intro h
    exact h.single hs
  · intro hcmp
    exact ⟨hl, hin, fun _ => hcmp, fun h => absurd h (typeAt_ne hs (by decide)),
      typeAt_ne hs (by decide)⟩

theorem entrySound_multiple (hl : f.LenInside buf) (hin : f.TypeInside buf)
    (hm : f.typeAt buf = HdrType.multiple.code.toNat) :
    f.EntrySound w buf ↔ f.BatchSound w buf := by
  constructor
  · intro h
    exact h.multiple hm
  · intro hbatch
    exact ⟨hl, hin, fun h => absurd h (typeAt_ne hm (by decide)), fun _ => hbatch,
      typeAt_ne hm (by decide)⟩

/-- **`process_chunks` ends exactly when the entry can be read.** -/
theorem processChunks_ends_iff (hl : f.LenInside buf) :
    (∃ n, Ends (f.run (processChunks n buf len w))) ↔ f.EntrySound w buf := by
  by_cases hin : f.TypeInside buf
  · rcases f.type_cases buf with hs | hm | hd | hother
    · have hone : (∃ n, Ends (f.run (processChunks n buf len w))) ↔ f.CompareInside w buf := by
        simp only [run_processChunks_single _ len hl hin hs, ends_ite_iff, exists_const]
        exact and_iff_left (ends_ok _)
      rw [hone, entrySound_single hl hin hs]
    · have hloop : (∃ n, Ends (f.run (processChunks n buf len w))) ↔ f.BatchSound w buf := by
        simp only [run_processChunks_multiple _ len hl hin hm, ends_ite_iff, exists_and_left,
          records_end_iff]
        exact Iff.rfl
      rw [hloop, entrySound_multiple hl hin hm]
    · simp only [run_processChunks_delta _ len hin hd, ends_error_iff, exists_const]
      exact iff_of_false (by decide) (fun h => h.known hd)
    · simp only [run_processChunks_exit _ len hin hother, ends_error_iff, exists_const, true_iff]
      exact ⟨hl, hin, fun h => absurd h (hother _), fun h => absurd h (hother _), hother _⟩
  · simp only [run_processChunks_outside _ len hin, ends_error_iff, exists_const]
    exact iff_of_false (by decide) (fun h => hin h.type)

theorem passed_single (hs : f.typeAt buf = HdrType.single.code.toNat) :
    f.Passed w buf ↔ ¬ f.Answers w buf := by
  constructor
  · rintro (⟨_, hno⟩ | ⟨hm, _⟩)
    · exact hno
    · exact absurd hm (typeAt_ne hs (by decide))
  · intro hno
    exact Or.inl ⟨hs, hno⟩

theorem passed_multiple (hm : f.typeAt buf = HdrType.multiple.code.toNat) :
    f.Passed w buf ↔ f.BatchPassed w buf := by
  constructor
  · rintro (⟨hs, _⟩ | ⟨_, hall⟩)
    · exact absurd hs (typeAt_ne hm (by decide))
    · exact hall
  · intro hall
    exact Or.inr ⟨hm, hall⟩

/-- **It sends the walk on exactly when the entry does not answer**, and then only `err` is noted. -/
theorem processChunks_pass_iff (hsound : f.EntrySound w buf) {w' : WalkEntry} :
    (∃ n, f.run (processChunks n buf len w) = .ok (w', true)) ↔
      w' = { w with err := .idNotFound } ∧ f.Passed w buf := by
  have hl := hsound.len
  have hin := hsound.type
  rcases f.type_cases buf with hs | hm | hd | hother
  · simp only [run_processChunks_single _ len hl hin hs, if_pos (hsound.single hs), exists_const,
      Except.ok.injEq, passed_single hs]
    by_cases hans : f.Answers w buf
    · rw [if_pos hans, Prod.mk.injEq]
      exact iff_of_false (fun h => Bool.false_ne_true h.2) (fun h => h.2 hans)
    · rw [if_neg hans, Prod.mk.injEq]
      exact ⟨fun h => ⟨h.1.symm, hans⟩, fun h => ⟨h.1.symm, rfl⟩⟩
  · obtain ⟨hfirst, hrecords⟩ := hsound.multiple hm
    simp only [run_processChunks_multiple _ len hl hin hm, if_pos hfirst, passed_multiple hm]
    exact records_pass_iff (w := { w with err := .idNotFound }) hrecords
  · exact absurd hd hsound.known
  · simp only [run_processChunks_exit _ len hin hother, exists_const]
    refine iff_of_false (fun h => by cases h) ?_
    rintro ⟨_, ⟨hs, _⟩ | ⟨hm, _⟩⟩
    · exact hother _ hs
    · exact hother _ hm

end

/-! ## The whole log -/

/-- `hdr->head` -/
def head : Nat := word f.bytes headOff

/-- `hdr->tail` -/
def tail : Nat := word f.bytes tailOff

/-- Where the walk looks for the entry behind the one at `off`. -/
def nextEntry (off : Nat) : Nat := u64 (off + u64 (sizeofLehdr + f.lenAt off + wordLength))

/-- The walk goes on from the entry at `off` to `off'`. -/
def EntryLeads (w : WalkEntry) (off off' : Nat) : Prop :=
  off < f.tail ∧ f.Passed w off ∧ off' = f.nextEntry off

/-- **The log can be read through**, up to an entry that answers: its own header is there, and
    following the entries from `head`, every one in front of `tail` can be read and none comes round
    again. -/
def LogSound (w : WalkEntry) : Prop :=
  sizeofLhdr ≤ f.len ∧
    Sound (f.EntryLeads w) (fun off => off < f.tail → f.EntrySound w off) f.head

/-- One round of `walk`. -/
def entryStep (w : WalkEntry) (n off : Nat) : Except Stop (Nat ⊕ Unit) :=
  if off < f.tail then
    if f.LenInside off then
      (f.run (processChunks n off (f.lenAt off) w)).map
        (fun r => if r.2 then .inl (f.nextEntry off) else .inr ())
    else .error .segv
  else .ok (.inr ())

section
variable {f} {w : WalkEntry} {off : Nat}

theorem entryStep_end (h : ¬ off < f.tail) (n : Nat) : f.entryStep w n off = .ok (.inr ()) :=
  if_neg h

theorem entryStep_outside (h : off < f.tail) (hl : ¬ f.LenInside off) (n : Nat) :
    f.entryStep w n off = .error .segv := by
  rw [entryStep, if_pos h, if_neg hl]

theorem entryStep_entry (h : off < f.tail) (hl : f.LenInside off) (n : Nat) :
    f.entryStep w n off = (f.run (processChunks n off (f.lenAt off) w)).map
      (fun r => if r.2 then .inl (f.nextEntry off) else .inr ()) := by
  rw [entryStep, if_pos h, if_pos hl]

theorem stable_entryStep (f : File) (w : WalkEntry) : Stable Stop.fuel (f.entryStep w) := by
  intro n n' off hle hend
  by_cases h : off < f.tail
  · by_cases hl : f.LenInside off
    · rw [entryStep_entry h hl] at hend ⊢
      rw [entryStep_entry h hl]
      have hrun : f.run (processChunks n off (f.lenAt off) w) ≠ .error .fuel := by
        intro hfuel
        rw [hfuel] at hend
        exact hend rfl
      rw [processChunks_stable _ hl hle hrun]
    · rw [entryStep_outside h hl, entryStep_outside h hl]
  · rw [entryStep_end h, entryStep_end h]

theorem roundEnds_entryStep :
    RoundEnds (fun e => e = Stop.exit) (f.entryStep w) off ↔
      (off < f.tail → f.EntrySound w off) := by
  show (∃ n, Ends (f.entryStep w n off)) ↔ _
  by_cases h : off < f.tail
  · rw [forall_prop_of_true h]
    by_cases hl : f.LenInside off
    · simp only [entryStep_entry h hl, ends_map_iff]
      exact processChunks_ends_iff _ hl
    · simp only [entryStep_outside h hl, ends_error_iff, exists_const]
      exact iff_of_false (by decide) (fun hs => hl hs.len)
  · simp only [entryStep_end h, exists_const]
    exact iff_of_true (ends_ok _) (fun h' => absurd h' h)

theorem leads_entryStep {off' : Nat} (hgood : off < f.tail → f.EntrySound w off) :
    Leads (f.entryStep w) off off' ↔ f.EntryLeads w off off' := by
  by_cases h : off < f.tail
  · have hs := hgood h
    constructor
    · rintro ⟨n, hn⟩
      rw [entryStep_entry h hs.len] at hn
      obtain ⟨⟨w', goOn⟩, hrun, hnext⟩ := Except.map_eq_ok hn
      cases goOn with
      | false =>
        rw [if_neg Bool.false_ne_true] at hnext
        cases hnext
      | true =>
        have hpass := (processChunks_pass_iff _ hs).mp ⟨n, hrun⟩
        exact ⟨h, hpass.2, (Sum.inl.inj hnext).symm⟩
    · rintro ⟨_, hpass, hnext⟩
      obtain ⟨n, hrun⟩ := (processChunks_pass_iff (f.lenAt off) hs).mpr ⟨rfl, hpass⟩
      refine ⟨n, ?_⟩
      rw [entryStep_entry h hs.len, hrun, hnext]
      rfl
  · constructor
    · rintro ⟨n, hn⟩
      rw [entryStep_end h] at hn
      cases hn
    · intro hleads
      exact absurd hleads.1 h

/-- The links of the rounds are those of the entries. -/
theorem sound_entryStep (f : File) (w : WalkEntry) :
    Sound (Leads (f.entryStep w)) (RoundEnds (fun e => e = Stop.exit) (f.entryStep w)) f.head ↔
      Sound (f.EntryLeads w) (fun off => off < f.tail → f.EntrySound w off) f.head :=
  sound_congr (fun _ => roundEnds_entryStep)
    (fun _ _ hgood => leads_entryStep (roundEnds_entryStep.mp hgood))

/-- **The loop of `walk` ends when its rounds do.**  Induction on the bound; the callback is handed
    what it noted last, and overwrites it. -/
theorem ends_walkLoop_iff (f : File) (w : WalkEntry) (n k off : Nat) (err : ErrorCode) :
    Ends (f.run (walkLoop (processChunks n) f.tail k off { w with err := err })) ↔
      Ends (loop (f.entryStep w n) .fuel k off) := by
  induction k generalizing off err with
  | zero => exact ends_error_congr .fuel
  | succ k ih =>
    rw [walkLoop]
    by_cases h : off < f.tail
    · rw [if_pos h]
      by_cases hl : f.LenInside off
      · rw [f.run_bind_ok (f.run_loadLen hl)]
        have hstep := entryStep_entry (w := w) h hl n
        have hsame : processChunks n off (f.lenAt off) { w with err := err } =
          processChunks n off (f.lenAt off) w := rfl
        rw [hsame]
        cases hrun : f.run (processChunks n off (f.lenAt off) w) with
        | error e =>
          rw [hrun] at hstep
          rw [f.run_bind_error hrun, loop_error hstep]
          exact ends_error_congr e
        | ok r =>
          rw [hrun] at hstep
          rw [f.run_bind_ok hrun]
          obtain ⟨w', goOn⟩ := r
          cases goOn with
          | false =>
            rw [loop_done hstep]
            exact iff_of_true (ends_ok (w', off)) (ends_ok ())
          | true =>
            have hs : f.EntrySound w off :=
              (processChunks_ends_iff _ hl).mp ⟨n, by rw [hrun]; exact ends_ok _⟩
            obtain ⟨rfl, _⟩ := (processChunks_pass_iff _ hs).mp ⟨n, hrun⟩
            rw [loop_next hstep, ← ih _ .idNotFound, if_pos rfl, f.run_bind_ok (f.run_loadLen hl)]
            exact Iff.rfl
      · rw [f.run_bind_error (f.run_loadLen_outside hl), loop_error (entryStep_outside h hl n)]
        exact ends_error_congr .segv
    · rw [if_neg h, loop_done (entryStep_end h n)]
      exact iff_of_true (ends_ok _) (ends_ok ())

/-- `walk` on a file that has a log header. -/
theorem run_walk {σ : Type} (f : File) (hlen : sizeofLhdr ≤ f.len)
    (processChunk : Nat → Nat → σ → Prog Stop Byte (σ × Bool)) (fuel : Nat) (arg : σ) :
    f.run (walk processChunk fuel arg) =
      if f.head ≥ f.tail then .ok (.idNotFound, arg, f.head)
      else (f.run (walkLoop processChunk f.tail fuel f.head arg)).map (fun r => (.noError, r)) := by
  have hlen' : 32 ≤ f.len := hlen
  have htail : tailOff + 8 ≤ f.len := hlen'
  have hhead : headOff + 8 ≤ f.len := Nat.le_trans (by decide) hlen'
  rw [walk, f.run_bind_ok ((f.run_load64 _).trans (if_pos htail)),
    f.run_bind_ok ((f.run_load64 _).trans (if_pos hhead)), head, tail]
  by_cases h : word f.bytes headOff ≥ word f.bytes tailOff
  · rw [if_pos h, if_pos h]
    rfl
  · rw [if_neg h, if_neg h]
    exact f.run_map _ _

/-- **So does `walk`**, once the header of the log is there. -/
theorem ends_walk_iff (f : File) (w : WalkEntry) (n k : Nat) :
    Ends (f.run (walk (processChunks n) (k + 1) w)) ↔
      sizeofLhdr ≤ f.len ∧ Ends (loop (f.entryStep w n) .fuel (k + 1) f.head) := by
  by_cases hlen : sizeofLhdr ≤ f.len
  · rw [f.run_walk hlen, and_iff_right hlen]
    by_cases h : f.head ≥ f.tail
    · rw [if_pos h, loop_done (entryStep_end (Nat.not_lt.mpr h) n)]
      exact iff_of_true (ends_ok _) (ends_ok ())
    · rw [if_neg h, ends_map_iff]
      exact ends_walkLoop_iff f w n (k + 1) f.head w.err
  · have htail : ¬ tailOff + 8 ≤ f.len := fun h => hlen h
    rw [walk, f.run_bind_error ((f.run_load64 _).trans (if_neg htail)), ends_error_iff]
    exact iff_of_false (by decide) (fun h => hlen h.1)

theorem logSound_of_ends {n k : Nat} (h : Ends (f.run (walk (processChunks n) (k + 1) w))) :
    f.LogSound w := by
  obtain ⟨hlen, hloop⟩ := (ends_walk_iff f w n k).mp h
  exact ⟨hlen, (sound_entryStep f w).mp (sound_of_ends (stable_entryStep f w) (by decide) hloop)⟩

/-- The offsets met are `uint64_t`: there are finitely many. -/
theorem finite_entries (f : File) (w : WalkEntry) (a : Nat) :
    {off | ReflTransGen (f.EntryLeads w) a off}.Finite := by
  refine finite_met (Set.finite_lt_nat (2 ^ 64)) ?_
  rintro b c ⟨_, _, hc⟩
  rw [hc]
  exact u64_lt _

theorem ends_of_logSound (h : f.LogSound w) :
    ∃ N, ∀ n ≥ N, Ends (f.run (walk (processChunks n) n w)) := by
  obtain ⟨hlen, hsound⟩ := h
  have hround := (sound_entryStep f w).mpr hsound
  have hfin : {off | ReflTransGen (Leads (f.entryStep w)) f.head off}.Finite := by
    refine (finite_entries f w f.head).subset (fun off hoff => hround.path ?_ hoff)
    intro b c hb hleads
    exact (leads_entryStep (roundEnds_entryStep.mp hb)).mp hleads
  obtain ⟨N, hN⟩ := ends_of_sound (stable_entryStep f w) (by decide) hfin hround
  refine ⟨N + 1, fun n hn => ?_⟩
  obtain ⟨k, rfl⟩ : ∃ k, n = k + 1 := ⟨n - 1, by omega⟩
  exact (ends_walk_iff f w (k + 1) k).mpr ⟨hlen, hN (k + 1) (by omega) (k + 1) (by omega)⟩

end

end File

/-- **When reading a log ends**, whatever its bytes: `walk` with `process_chunks` returns or calls
    `exit(1)`, with every bound on the two loops from some on, exactly when the log can be read
    through. -/
theorem walk_ends_iff (f : File) (w : WalkEntry) :
    (∃ N, ∀ fuel ≥ N, Ends (f.run (walk (processChunks fuel) fuel w))) ↔ f.LogSound w := by
  constructor
  · rintro ⟨N, hN⟩
    exact File.logSound_of_ends (hN (N + 1) (Nat.le_succ N))
  · exact File.ends_of_logSound

/-- **What the store has written can be read through.** -/
theorem logSound_of_rep {f : File} {items : List Item}
    (hr : Rep f (encode (items.map Item.entry))) (hlook : LooksInside f items) (wentry : WalkEntry)
    (key : Key) (version : UInt64) : f.LogSound (NvsStore.walkEntry wentry key version) := by
  have hwalk := walk_inside hr hlook wentry (Nat.le_succ (lookFuel items)) key version
  refine File.logSound_of_ends (n := lookFuel items + 1) (k := lookFuel items) ?_
  rw [hwalk]
  exact ends_ok _

/-! ## An entry that leads back to itself -/

/-- A log file with one entry header, and zeros behind it. -/
def File.withEntry (hdr : LHdr) (e : LeHdr) : File :=
  ⟨store (store (fun _ => 0) 0 hdr.encode) sizeofLhdr e.encode, hdr.len⟩

theorem File.withEntry_at (hdr : LHdr) (e : LeHdr) :
    load (File.withEntry hdr e).bytes 0 32 = hdr.encode ∧ e.At (File.withEntry hdr e).bytes 32 := by
  constructor
  · refine (load_store_disjoint _ _ _ (Or.inl (Nat.le_refl 32))).trans ?_
    rw [← LHdr.length_encode hdr]
    exact load_store_self _ _ _
  · rw [LeHdr.At, ← LeHdr.length_encode e]
    exact load_store_self _ _ _

/-- A walk that is sent on from `off` to `off` again goes round for ever.  Induction on the bound. -/
theorem walkLoop_stuck {f : File} {w : WalkEntry} {off : Nat} (h : off < f.tail)
    (hl : f.LenInside off) (hback : f.nextEntry off = off) {n : Nat}
    (hpass : f.run (processChunks n off (f.lenAt off) w) =
      .ok ({ w with err := .idNotFound }, true)) (k : Nat) (err : ErrorCode) :
    f.run (walkLoop (processChunks n) f.tail k off { w with err := err }) = .error .fuel := by
  induction k generalizing err with
  | zero => rfl
  | succ k ih =>
    have hround := ih .idNotFound
    have hpass' : f.run (processChunks n off (f.lenAt off) { w with err := err }) = _ := hpass
    rw [File.nextEntry] at hback
    rw [walkLoop, if_pos h, f.run_bind_ok (f.run_loadLen hl), f.run_bind_ok hpass', if_pos rfl,
      f.run_bind_ok (f.run_loadLen hl), hback]
    exact hround

/-- **An entry at `head` that leads back to itself**, and does not answer: the walk never ends. -/
theorem walk_stuck {f : File} {w : WalkEntry} (hlen : sizeofLhdr ≤ f.len) (h : f.head < f.tail)
    (hs : f.EntrySound w f.head) (htype : f.typeAt f.head = HdrType.single.code.toNat)
    (hno : ¬ f.Answers w f.head) (hback : f.nextEntry f.head = f.head) (fuel : Nat) :
    f.run (walk (processChunks fuel) fuel w) = .error .fuel := by
  have hpass : f.run (processChunks fuel f.head (f.lenAt f.head) w) =
      .ok ({ w with err := .idNotFound }, true) := by
    rw [File.run_processChunks_single fuel _ hs.len hs.type htype, if_pos (hs.single htype),
      if_neg hno]
  have hloop := walkLoop_stuck h hs.len hback hpass fuel w.err
  rw [f.run_walk hlen, if_neg (Nat.not_le.mpr h)]
  exact congrArg (Except.map _) hloop

/-- **A log of 256 bytes that `Log::Log` accepts and `get("a", 1)` never comes back from.**  Its one
    entry has `len = 2 ^ 64 - 144`: header, data and commit word come to `2 ^ 64` bytes, and the next
    entry is the same again. -/
theorem walk_never_ends : ∃ (f : File) (l : Log), f.Opens l ∧ f.len = 256 ∧
    ∀ fuel wentry, f.run (walk (processChunks fuel) fuel (NvsStore.walkEntry wentry [97] 1)) =
      .error .fuel := by
  let e : LeHdr := { blankHdr with len := 18446744073709551472 }
  let f := File.withEntry ⟨magicNumber, 256, 32, 176⟩ e
  have hlen : f.len = 256 := rfl
  obtain ⟨hhdr, hentry⟩ := File.withEntry_at ⟨magicNumber, 256, 32, 176⟩ e
  obtain ⟨hmagic, hsize, hhead, htail⟩ := LHdr.fields hhdr
  obtain ⟨hname, _, hentryLen, htype⟩ := hentry.fields
  have hhead' : f.head = 32 := word_of_load hhead (by decide)
  have htail' : f.tail = 176 := word_of_load htail (by decide)
  have hopen := ctor_some (f := f) (by decide) (word_of_load hmagic (by decide))
    (word_of_load hsize (by decide))
  refine ⟨f, _, hopen, hlen, fun fuel wentry => ?_⟩
  -- the name in the entry is empty, and the one looked for is `a`
  have hnamed : ¬ f.Named (NvsStore.walkEntry wentry [97] 1) 32 := by
    intro h
    have hzeros : cStr (load f.bytes 32 keyLen) = [] := (congrArg cStr hname).trans (by decide)
    have hkey := (hzeros.symm.trans h).trans (cStr_snprintfKey wentry.key [97])
    exact absurd hkey (by decide)
  have htype' : f.typeAt 32 = HdrType.single.code.toNat := htype
  refine walk_stuck ?_ ?_ ?_ ?_ ?_ ?_ fuel
  · rw [hlen]
    decide
  · rw [hhead', htail']
    decide
  · rw [hhead']
    have hcmp : f.CompareInside (NvsStore.walkEntry wentry [97] 1) 32 := by
      refine ⟨fun i hi _ => ?_, fun h => absurd h hnamed⟩
      have hi' : i < 20 := hi
      omega
    have hl : f.LenInside 32 := by
      rw [File.LenInside, hlen]
      decide
    have ht : f.TypeInside 32 := by
      rw [File.TypeInside, hlen]
      decide
    exact (File.entrySound_single hl ht htype').mpr hcmp
  · rw [hhead']
    exact htype'
  · rw [hhead']
    exact fun h => hnamed h.1
  · have hlenAt : f.lenAt 32 = 18446744073709551472 := hentryLen
    rw [hhead', File.nextEntry, hlenAt]
    decide

end NvStream
