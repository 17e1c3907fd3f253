/-
  Reading headers that may say anything: the comparison and the loop over a batch on ARBITRARY bytes.

  A load program run against a mapped file returns, or stops at the first load that leaves the mapping.
  Here the parts of `process_chunks` are described by what the file holds, with no assumption that
  anything in it was ever written by the store.

  1. **A name** (`run_strncmpAt`): `strncmp` looks at a name up to the first byte that differs, and says
     whether the C string found is the key.
  2. **A header** (`run_matchesAt`): name and version, compared only as far as needed.
  3. **A batch** (`run_innerLoop`): the loop is one round, `File.recordStep`, again and again.  It ends
     exactly when the links from record to record are sound (`records_end_iff`), and comes out at the
     end exactly when they lead there (`records_pass_iff`).
-/
import NvStream.NvsStore.Basic
import NvStream.Lib.Following
import Mathlib.Data.Finite.Prod

namespace NvStream

open FlatMem LittleEndian LoadProg Following Relation

/-- The call returned, or took an explicit exit: it has ended, and no load left the mapping. -/
def Ends {β : Type} (r : Except Stop β) : Prop := WellEnded (fun e => e = Stop.exit) r

theorem ends_ok {β : Type} (b : β) : Ends (.ok b) := wellEnded_ok _ b

theorem ends_error_iff {β : Type} {e : Stop} : Ends (.error e : Except Stop β) ↔ e = .exit :=
  wellEnded_error_iff

/-- Stopping for the same reason, with whatever would have been returned. -/
theorem ends_error_congr {β γ : Type} (e : Stop) :
    Ends (.error e : Except Stop β) ↔ Ends (.error e : Except Stop γ) :=
  ends_error_iff.trans ends_error_iff.symm

/-- Something that faults unless `p` ends only then. -/
theorem ends_ite_iff {β : Type} {p : Prop} [Decidable p] {r : Except Stop β} :
    Ends (if p then r else .error .segv) ↔ p ∧ Ends r := by
  by_cases hp : p
  · rw [if_pos hp]
    exact (and_iff_right hp).symm
  · rw [if_neg hp, ends_error_iff]
    exact iff_of_false (by decide) (fun h => hp h.1)

theorem ends_map_iff {β γ : Type} {g : β → γ} {r : Except Stop β} : Ends (r.map g) ↔ Ends r := by
  cases r with
  | error e => exact ends_error_congr e
  | ok b => exact iff_of_true (ends_ok _) (ends_ok b)

/-! ## Comparing a name -/

namespace File
variable (f : File)

/-- The bytes of the name at `off` that a comparison with `key` looks at: those up to the first that
    differs.  They lie inside the mapping. -/
def NameInside (key : List Byte) (off n : Nat) : Prop :=
  ∀ i < n, load f.bytes off i <+: key → off + i < f.len

instance (key : List Byte) (off n : Nat) : Decidable (f.NameInside key off n) :=
  inferInstanceAs (Decidable (∀ i < n, _ → _))

theorem nameInside_succ (key : List Byte) (off n : Nat) :
    f.NameInside key off (n + 1) ↔
      off < f.len ∧ ∀ k, key = f.bytes off :: k → f.NameInside k (off + 1) n := by
  constructor
  · intro h
    refine ⟨h 0 (Nat.succ_pos n) (List.nil_prefix), ?_⟩
    rintro k rfl i hi hpre
    have hcons : load f.bytes off (i + 1) <+: f.bytes off :: k := by
      rw [load]
      exact (List.prefix_cons_inj _).mpr hpre
    have := h (i + 1) (by omega) hcons
    omega
  · rintro ⟨h0, hrest⟩ i hi hpre
    cases i with
    | zero => exact h0
    | succ i =>
      rw [load] at hpre
      obtain ⟨k, hk, hpre'⟩ := List.cons_prefix_iff.mp hpre
      have := hrest k hk i (by omega) hpre'
      omega

section
variable {f} {key k : List Byte} {off : Nat} (n : Nat)

/-- Behind the first byte that differs nothing is looked at. -/
theorem nameInside_of_diff (hoff : off < f.len) (h : f.bytes off ≠ key.headD 0) :
    f.NameInside key off (n + 1) := by
  refine (f.nameInside_succ key off n).mpr ⟨hoff, ?_⟩
  rintro k rfl
  exact absurd rfl h

/-- Nor behind the end of the key. -/
theorem nameInside_nil (hoff : off < f.len) : f.NameInside [] off (n + 1) := by
  refine (f.nameInside_succ [] off n).mpr ⟨hoff, ?_⟩
  intro k hk
  cases hk

theorem nameInside_cons_iff (hoff : off < f.len) :
    f.NameInside (f.bytes off :: k) off (n + 1) ↔ f.NameInside k (off + 1) n := by
  rw [nameInside_succ]
  constructor
  · intro h
    exact h.2 k rfl
  · intro h
    refine ⟨hoff, ?_⟩
    intro k' hk'
    rw [← List.tail_eq_of_cons_eq hk']
    exact h

end

/-- One byte of `strncmp`. -/
theorem run_strncmpAt_succ (off : Nat) (key : List Byte) (n : Nat) :
    f.run (strncmpAt off key (n + 1)) =
      if off < f.len then
        if f.bytes off ≠ key.headD 0 then .ok ((f.bytes off).val - (key.headD 0).val : Int)
        else if f.bytes off = 0 then .ok 0
        else f.run (strncmpAt (off + 1) key.tail n)
      else .error .segv := by
  rw [strncmpAt, run_bind, f.run_loadEach off 0]
  by_cases hoff : off < f.len
  · rw [if_pos hoff, if_pos (show off + (0 + 1) ≤ f.len from hoff)]
    show f.run (if f.bytes off ≠ key.headD 0 then _ else if f.bytes off = 0 then _ else _) = _
    split
    · rfl
    · split
      · rfl
      · rfl
  · rw [if_neg hoff, if_neg (show ¬ off + (0 + 1) ≤ f.len from hoff)]
    rfl

/-- **`strncmp` on arbitrary bytes**: it leaves the mapping, or says whether the C string found is the
    key.  Induction on the bytes left to compare. -/
theorem run_strncmpAt {key : List Byte} (hkey : (0 : Byte) ∉ key) {n : Nat} (hn : key.length ≤ n)
    (off : Nat) :
    (f.run (strncmpAt off key n)).map (fun c => decide (c = 0)) =
      if f.NameInside key off n then .ok (decide (cStr (load f.bytes off n) = key))
      else .error .segv := by
  induction n generalizing off key with
  | zero =>
    obtain rfl : key = [] := List.eq_nil_of_length_eq_zero (Nat.le_zero.mp hn)
    have hin : f.NameInside [] off 0 := fun i hi => absurd hi (Nat.not_lt_zero i)
    rw [if_pos hin]
    rfl
  | succ n ih =>
    rw [run_strncmpAt_succ, load]
    by_cases hoff : off < f.len
    · rw [if_pos hoff]
      by_cases hdiff : f.bytes off ≠ key.headD 0
      · -- the first byte that differs
        have hne : cStr (f.bytes off :: load f.bytes (off + 1) n) ≠ key := by
          intro h
          rw [← h, headD_cStr] at hdiff
          exact hdiff rfl
        have hval : ((f.bytes off).val - (key.headD 0).val : Int) ≠ 0 :=
          fun h => hdiff (Fin.ext (by omega))
        rw [if_pos hdiff, if_pos (nameInside_of_diff n hoff hdiff), decide_eq_false hne]
        exact congrArg Except.ok (decide_eq_false hval)
      · rw [if_neg hdiff]
        rw [not_not] at hdiff
        by_cases h0 : f.bytes off = 0
        · -- both strings end here
          obtain rfl : key = [] := by
            cases key with
            | nil => rfl
            | cons b k => exact absurd (by rw [← h0, hdiff]; exact List.mem_cons_self) hkey
          rw [if_pos h0, if_pos (nameInside_nil n hoff), h0]
          rfl
        · cases key with
          | nil => exact absurd hdiff h0
          | cons b k =>
            obtain rfl : f.bytes off = b := hdiff
            have hk : (0 : Byte) ∉ k := fun h => hkey (List.mem_cons_of_mem _ h)
            have hstr : cStr (f.bytes off :: load f.bytes (off + 1) n) = f.bytes off :: k ↔
                cStr (load f.bytes (off + 1) n) = k := by
              rw [cStr_cons h0, List.cons_inj_right]
            rw [if_neg h0, List.tail_cons, ih hk (Nat.le_of_succ_le_succ hn),
              if_congr (nameInside_cons_iff n hoff) rfl rfl, decide_eq_decide.mpr hstr]
    · rw [if_neg hoff, if_neg (fun h => hoff ((f.nameInside_succ key off n).mp h).1)]
      rfl

/-! ## The fields of a header, as found -/

/-- `hdr->len`, of the header at `h`. -/
def lenAt (h : Nat) : Nat := word f.bytes (u64 (h + lenField))

/-- `hdr->len` lies inside the mapping. -/
def LenInside (h : Nat) : Prop := u64 (h + lenField) + 8 ≤ f.len

/-- `hdr->type` -/
def typeAt (h : Nat) : Nat := ofLE (load f.bytes (u64 (h + typeField)) 4)

/-- `hdr->type` lies inside the mapping. -/
def TypeInside (h : Nat) : Prop := u64 (h + typeField) + 4 ≤ f.len

/-- The header at `h` carries the name looked for. -/
def Named (w : WalkEntry) (h : Nat) : Prop := cStr (load f.bytes h keyLen) = cStr w.key.toList

/-- The header at `h` carries the name and the version looked for. -/
def Answers (w : WalkEntry) (h : Nat) : Prop :=
  f.Named w h ∧ word f.bytes (u64 (h + versionField)) = w.version.toNat

/-- What is compared of the header at `h` lies inside the mapping: its name, as far as it agrees, and
    its version if it all does. -/
def CompareInside (w : WalkEntry) (h : Nat) : Prop :=
  f.NameInside (cStr w.key.toList) h keyLen ∧
    (f.Named w h → u64 (h + versionField) + 8 ≤ f.len)

instance (h : Nat) : Decidable (f.LenInside h) := inferInstanceAs (Decidable (_ ≤ _))
instance (h : Nat) : Decidable (f.TypeInside h) := inferInstanceAs (Decidable (_ ≤ _))
instance (w : WalkEntry) (h : Nat) : Decidable (f.Named w h) := inferInstanceAs (Decidable (_ = _))
instance (w : WalkEntry) (h : Nat) : Decidable (f.Answers w h) := inferInstanceAs (Decidable (_ ∧ _))
instance (w : WalkEntry) (h : Nat) : Decidable (f.CompareInside w h) :=
  inferInstanceAs (Decidable (_ ∧ (_ → _)))

theorem run_loadLen {h : Nat} (hin : f.LenInside h) :
    f.run (loadWord (u64 (h + lenField))) = .ok (f.lenAt h) :=
  (f.run_loadWord _).trans (if_pos hin)

theorem run_loadLen_outside {h : Nat} (hout : ¬ f.LenInside h) :
    f.run (loadWord (u64 (h + lenField))) = .error .segv :=
  (f.run_loadWord _).trans (if_neg hout)

theorem run_loadType {h : Nat} (hin : f.TypeInside h) :
    f.run (Prog.loadEach (u64 (h + typeField)) 4) = .ok (load f.bytes (u64 (h + typeField)) 4) :=
  (f.run_loadEach _ 3).trans (if_pos hin)

/-- **The comparison on arbitrary bytes.** -/
theorem run_matchesAt (h : Nat) (w : WalkEntry) :
    f.run (matchesAt h w) =
      if f.CompareInside w h then .ok (decide (f.Answers w h)) else .error .segv := by
  have hkey : (0 : Byte) ∉ cStr w.key.toList := zero_not_mem_cStr _
  have hlen : (cStr w.key.toList).length ≤ keyLen := by
    refine (List.takeWhile_sublist _).length_le.trans ?_
    rw [Vector.length_toList]
    exact Nat.le_refl 20
  have hcmp := f.run_strncmpAt hkey hlen h
  rw [matchesAt]
  by_cases hin : f.NameInside (cStr w.key.toList) h keyLen
  · rw [if_pos hin] at hcmp
    obtain ⟨c, hc, hzero⟩ := Except.map_eq_ok hcmp
    have hiff : c = 0 ↔ f.Named w h := decide_eq_decide.mp hzero
    rw [f.run_bind_ok hc]
    by_cases h0 : c = 0
    · rw [if_pos h0, run_map, run_loadWord]
      by_cases hv : u64 (h + versionField) + 8 ≤ f.len
      · rw [if_pos hv, if_pos ⟨hin, fun _ => hv⟩]
        refine congrArg Except.ok (decide_eq_decide.mpr ?_)
        exact (and_iff_right (hiff.mp h0)).symm
      · rw [if_neg hv, if_neg (fun hall => hv (hall.2 (hiff.mp h0)))]
        rfl
    · have hname : ¬ f.Named w h := fun hn => h0 (hiff.mpr hn)
      rw [if_neg h0, if_pos ⟨hin, fun hn => absurd hn hname⟩]
      exact congrArg Except.ok (decide_eq_false (fun hall => hname hall.1)).symm
  · rw [if_neg hin] at hcmp
    rw [f.run_bind_error (Except.map_eq_error hcmp), if_neg (fun hall => hin hall.1)]

end File

/-! ## The records of a batch -/

/-- Where the loop over a batch stands: `i_hdr`, `i_data` and `i_index`. -/
structure Cursor where
  iHdr : Nat
  iData : Nat
  iIndex : Nat

namespace File
variable (f : File)

/-- The cursor in front of the loop over the batch at `buf`. -/
def firstRecord (buf : Nat) : Cursor :=
  ⟨u64 (buf + sizeofLehdr), u64 (u64 (buf + sizeofLehdr) + sizeofLehdr),
    u64 (sizeofLehdr + f.lenAt (u64 (buf + sizeofLehdr)))⟩

/-- The next data point in the inner chunk. -/
def nextRecord (buf : Nat) (c : Cursor) : Cursor :=
  ⟨u64 (u64 (buf + sizeofLehdr) + c.iIndex), u64 (u64 (buf + sizeofLehdr) + c.iIndex + sizeofLehdr),
    u64 (c.iIndex + u64 (sizeofLehdr + f.lenAt (u64 (u64 (buf + sizeofLehdr) + c.iIndex))))⟩

/-- The loop goes on from `c` to `c'`: there is more, and `c` does not answer. -/
def RecordLeads (w : WalkEntry) (buf : Nat) (c c' : Cursor) : Prop :=
  c.iIndex < f.lenAt buf ∧ ¬ f.Answers w c.iHdr ∧ c' = f.nextRecord buf c

/-- What the loop looks at from `c` lies inside the mapping: what it compares, and then the `len` of
    the record that answers or else of the next one. -/
def RecordInside (w : WalkEntry) (buf : Nat) (c : Cursor) : Prop :=
  c.iIndex < f.lenAt buf → f.CompareInside w c.iHdr ∧
    (f.Answers w c.iHdr → f.LenInside c.iHdr) ∧
    (¬ f.Answers w c.iHdr → f.LenInside (f.nextRecord buf c).iHdr)

/-- **The records of the batch at `buf` can be read through**, up to one that answers. -/
def BatchSound (w : WalkEntry) (buf : Nat) : Prop :=
  f.LenInside (u64 (buf + sizeofLehdr)) ∧
    Sound (f.RecordLeads w buf) (f.RecordInside w buf) (f.firstRecord buf)

/-- The records of the batch at `buf` come to their end, and none answers. -/
def BatchPassed (w : WalkEntry) (buf : Nat) : Prop :=
  ∃ c, ReflTransGen (f.RecordLeads w buf) (f.firstRecord buf) c ∧ f.lenAt buf ≤ c.iIndex

instance (w : WalkEntry) (buf : Nat) (c : Cursor) : Decidable (f.RecordInside w buf c) :=
  inferInstanceAs (Decidable (_ → _ ∧ (_ → _) ∧ (_ → _)))

/-- One round of the loop, on the bytes of the file. -/
def recordStep (w : WalkEntry) (buf : Nat) (c : Cursor) :
    Except Stop (Cursor ⊕ (WalkEntry × Bool)) :=
  if f.RecordInside w buf c then
    if c.iIndex < f.lenAt buf then
      if f.Answers w c.iHdr then
        .ok (.inr ({ w with datap := c.iData, len := f.lenAt c.iHdr, err := .noError }, false))
      else .ok (.inl (f.nextRecord buf c))
    else .ok (.inr (w, true))
  else .error .segv

section
variable {f} {w : WalkEntry} {buf : Nat} {c : Cursor}

theorem recordStep_outside (h : ¬ f.RecordInside w buf c) :
    f.recordStep w buf c = .error .segv := if_neg h

theorem recordStep_end (hidx : ¬ c.iIndex < f.lenAt buf) :
    f.recordStep w buf c = .ok (.inr (w, true)) := by
  have hin : f.RecordInside w buf c := fun h => absurd h hidx
  rw [recordStep, if_pos hin, if_neg hidx]

theorem recordStep_answer (hin : f.RecordInside w buf c) (hidx : c.iIndex < f.lenAt buf)
    (hans : f.Answers w c.iHdr) :
    f.recordStep w buf c =
      .ok (.inr ({ w with datap := c.iData, len := f.lenAt c.iHdr, err := .noError }, false)) := by
  rw [recordStep, if_pos hin, if_pos hidx, if_pos hans]

theorem recordStep_next (hin : f.RecordInside w buf c) (hidx : c.iIndex < f.lenAt buf)
    (hans : ¬ f.Answers w c.iHdr) :
    f.recordStep w buf c = .ok (.inl (f.nextRecord buf c)) := by
  rw [recordStep, if_pos hin, if_pos hidx, if_neg hans]

end

/-- **The loop over a batch is `recordStep` again and again.**  Induction on the bound. -/
theorem run_innerLoop {buf : Nat} (hbuf : f.LenInside buf) (w : WalkEntry) (n : Nat) (c : Cursor) :
    f.run (innerLoop buf (u64 (buf + sizeofLehdr)) w n c.iHdr c.iData c.iIndex) =
      loop (f.recordStep w buf) .fuel n c := by
  induction n generalizing c with
  | zero => rfl
  | succ n ih =>
    rw [innerLoop, f.run_bind_ok (f.run_loadLen hbuf)]
    by_cases hidx : c.iIndex < f.lenAt buf
    · rw [if_pos hidx]
      by_cases hcmp : f.CompareInside w c.iHdr
      · have hmatch := (f.run_matchesAt c.iHdr w).trans (if_pos hcmp)
        rw [f.run_bind_ok hmatch]
        by_cases hans : f.Answers w c.iHdr
        · rw [if_pos (decide_eq_true hans)]
          by_cases hlen : f.LenInside c.iHdr
          · have hin : f.RecordInside w buf c :=
              fun _ => ⟨hcmp, fun _ => hlen, fun h => absurd hans h⟩
            rw [f.run_bind_ok (f.run_loadLen hlen), loop_done (recordStep_answer hin hidx hans)]
            rfl
          · have hin : ¬ f.RecordInside w buf c := fun h => hlen ((h hidx).2.1 hans)
            rw [f.run_bind_error (f.run_loadLen_outside hlen), loop_error (recordStep_outside hin)]
        · rw [if_neg (by rw [decide_eq_true_iff]; exact hans)]
          by_cases hlen : f.LenInside (f.nextRecord buf c).iHdr
          · have hin : f.RecordInside w buf c :=
              fun _ => ⟨hcmp, fun h => absurd h hans, fun _ => hlen⟩
            rw [loop_next (recordStep_next hin hidx hans), ← ih]
            exact f.run_bind_ok (f.run_loadLen hlen) _
          · have hin : ¬ f.RecordInside w buf c := fun h => hlen ((h hidx).2.2 hans)
            rw [loop_error (recordStep_outside hin)]
            exact f.run_bind_error (f.run_loadLen_outside hlen) _
      · have hmatch := (f.run_matchesAt c.iHdr w).trans (if_neg hcmp)
        have hin : ¬ f.RecordInside w buf c := fun h => hcmp (h hidx).1
        rw [f.run_bind_error hmatch, loop_error (recordStep_outside hin)]
    · rw [if_neg hidx, loop_done (recordStep_end hidx)]
      rfl

section
variable {f} {w : WalkEntry} {buf : Nat}

/-- The four ways of a round. -/
theorem recordStep_cases (f : File) (w : WalkEntry) (buf : Nat) (c : Cursor) :
    (¬ f.RecordInside w buf c ∧ f.recordStep w buf c = .error .segv) ∨
    (f.RecordInside w buf c ∧ ¬ c.iIndex < f.lenAt buf ∧
      f.recordStep w buf c = .ok (.inr (w, true))) ∨
    (f.RecordInside w buf c ∧ c.iIndex < f.lenAt buf ∧ f.Answers w c.iHdr ∧
      ∃ w', f.recordStep w buf c = .ok (.inr (w', false))) ∨
    (f.RecordInside w buf c ∧ c.iIndex < f.lenAt buf ∧ ¬ f.Answers w c.iHdr ∧
      f.recordStep w buf c = .ok (.inl (f.nextRecord buf c))) := by
  by_cases hin : f.RecordInside w buf c
  · by_cases hidx : c.iIndex < f.lenAt buf
    · by_cases hans : f.Answers w c.iHdr
      · exact Or.inr (Or.inr (Or.inl ⟨hin, hidx, hans, _, recordStep_answer hin hidx hans⟩))
      · exact Or.inr (Or.inr (Or.inr ⟨hin, hidx, hans, recordStep_next hin hidx hans⟩))
    · exact Or.inr (Or.inl ⟨hin, hidx, recordStep_end hidx⟩)
  · exact Or.inl ⟨hin, recordStep_outside hin⟩

theorem recordStep_eq_inl {c c' : Cursor} :
    f.recordStep w buf c = .ok (.inl c') ↔ f.RecordInside w buf c ∧ f.RecordLeads w buf c c' := by
  rcases f.recordStep_cases w buf c with
    ⟨hout, h⟩ | ⟨_, hend, h⟩ | ⟨_, _, hans, w', h⟩ | ⟨hin, hidx, hno, h⟩
  · rw [h]
    exact iff_of_false (fun heq => by cases heq) (fun hall => hout hall.1)
  · rw [h]
    exact iff_of_false (fun heq => by cases heq) (fun hall => hend hall.2.1)
  · rw [h]
    exact iff_of_false (fun heq => by cases heq) (fun hall => hall.2.2.1 hans)
  · rw [h, Except.ok.injEq, Sum.inl.injEq, eq_comm]
    exact ⟨fun hc => ⟨hin, hidx, hno, hc⟩, fun hall => hall.2.2.2⟩

theorem recordStep_eq_true {c : Cursor} {w' : WalkEntry} :
    f.recordStep w buf c = .ok (.inr (w', true)) ↔ w' = w ∧ f.lenAt buf ≤ c.iIndex := by
  by_cases hidx : c.iIndex < f.lenAt buf
  · refine iff_of_false ?_ (fun hall => absurd hidx (Nat.not_lt.mpr hall.2))
    rcases f.recordStep_cases w buf c with
      ⟨_, h⟩ | ⟨_, hend, _⟩ | ⟨_, _, _, w', h⟩ | ⟨_, _, _, h⟩
    · rw [h]
      exact fun heq => by cases heq
    · exact absurd hidx hend
    · rw [h]
      exact fun heq => by cases heq
    · rw [h]
      exact fun heq => by cases heq
  · rw [recordStep_end hidx, Except.ok.injEq, Sum.inr.injEq, Prod.mk.injEq]
    exact ⟨fun h => ⟨h.1.symm, Nat.le_of_not_lt hidx⟩, fun h => ⟨h.1.symm, rfl⟩⟩

theorem recordStep_ends {c : Cursor} : Ends (f.recordStep w buf c) ↔ f.RecordInside w buf c := by
  rcases f.recordStep_cases w buf c with
    ⟨hout, h⟩ | ⟨hin, _, h⟩ | ⟨hin, _, _, _, h⟩ | ⟨hin, _, _, h⟩
  · rw [h, ends_error_iff]
    exact iff_of_false (by decide) hout
  · rw [h]
    exact iff_of_true (ends_ok _) hin
  · rw [h]
    exact iff_of_true (ends_ok _) hin
  · rw [h]
    exact iff_of_true (ends_ok _) hin

/-- The offsets of a cursor are `uint64_t`: there are finitely many. -/
theorem finite_records (a : Cursor) : {c | ReflTransGen (f.RecordLeads w buf) a c}.Finite := by
  have hoff : {i | i < 2 ^ 64}.Finite := Set.finite_lt_nat (2 ^ 64)
  have hS := (hoff.prod (hoff.prod hoff)).image (fun p => (⟨p.1, p.2.1, p.2.2⟩ : Cursor))
  refine finite_met hS ?_
  rintro b c ⟨_, _, rfl⟩
  exact ⟨(_, _, _), ⟨u64_lt _, u64_lt _, u64_lt _⟩, rfl⟩

theorem stable_recordStep : Stable Stop.fuel (fun _ => f.recordStep w buf) := fun _ _ _ _ _ => rfl

theorem leads_recordStep {c c' : Cursor} :
    Leads (fun _ => f.recordStep w buf) c c' ↔
      f.RecordInside w buf c ∧ f.RecordLeads w buf c c' := by
  rw [← recordStep_eq_inl]
  exact ⟨fun ⟨_, h⟩ => h, fun h => ⟨0, h⟩⟩

/-- The links of the rounds are those of the records. -/
theorem sound_recordStep {a : Cursor} :
    Sound (Leads (fun _ => f.recordStep w buf))
        (RoundEnds (fun e => e = Stop.exit) (fun _ => f.recordStep w buf)) a ↔
      Sound (f.RecordLeads w buf) (f.RecordInside w buf) a := by
  have hround : ∀ c, RoundEnds (fun e => e = Stop.exit) (fun _ => f.recordStep w buf) c ↔
      f.RecordInside w buf c := by
    intro c
    rw [← recordStep_ends]
    exact ⟨fun ⟨_, h⟩ => h, fun h => ⟨0, h⟩⟩
  refine sound_congr hround (fun b c hb => ?_)
  rw [leads_recordStep]
  exact and_iff_right ((hround b).mp hb)

/-- **The loop over the records ends exactly when their links are sound.** -/
theorem records_end_iff {a : Cursor} :
    (∃ n, Ends (loop (f.recordStep w buf) .fuel n a)) ↔
      Sound (f.RecordLeads w buf) (f.RecordInside w buf) a := by
  have hout : ¬ Stop.fuel = Stop.exit := by decide
  rw [← sound_recordStep]
  constructor
  · rintro ⟨n, hn⟩
    exact sound_of_ends (n := n) stable_recordStep hout hn
  · intro h
    have hfin : {c | ReflTransGen (Leads (fun _ => f.recordStep w buf)) a c}.Finite :=
      (finite_records a).subset
        (fun c hc => ReflTransGen.mono (fun _ _ hlink => (leads_recordStep.mp hlink).2) _ _ hc)
    obtain ⟨N, hN⟩ := ends_of_sound stable_recordStep hout hfin h
    exact ⟨N, hN N (Nat.le_refl N) N (Nat.le_refl N)⟩

/-- **It comes out at the end exactly when the records do.** -/
theorem records_pass_iff {a : Cursor} {w' : WalkEntry}
    (h : Sound (f.RecordLeads w buf) (f.RecordInside w buf) a) :
    (∃ n, loop (f.recordStep w buf) .fuel n a = .ok (w', true)) ↔
      w' = w ∧ ∃ c, ReflTransGen (f.RecordLeads w buf) a c ∧ f.lenAt buf ≤ c.iIndex := by
  rw [loop_eq_ok_iff]
  constructor
  · rintro ⟨c, hpath, hc⟩
    obtain ⟨hw, hend⟩ := recordStep_eq_true.mp hc
    have hmono := ReflTransGen.mono (fun _ _ hlink => (recordStep_eq_inl.mp hlink).2) _ _ hpath
    exact ⟨hw, c, hmono, hend⟩
  · rintro ⟨hw, c, hpath, hend⟩
    refine ⟨c, h.path (fun _ _ hin hlink => ?_) hpath, recordStep_eq_true.mpr ⟨hw, hend⟩⟩
    exact recordStep_eq_inl.mpr ⟨hin, hlink⟩

end

end File

end NvStream
