/-
  How many checkpoints a log holds.

  The log gives no space back, so an application that takes one snapshot after the other fills it.
  Every round appends one entry, and because the variables keep their sizes all the entries have the
  same length:

      sizeof(lhdr_t)                                          once
      sizeof(lehdr_t) + Σ (sizeof(lehdr_t) + size) + 8        for every round
      1                                                       `end_offset` itself is never used

  `Archived.length_encode` counts the bytes of the rounds that are over, `Node.At.snapshot_iff` says
  when the next one fits, and `checkpoint_capacity` puts them together: the number of the round that
  the process does not survive can be computed before the first one.
-/
import NvStream.NvsStore.Checkpoint

namespace NvStream

open FlatMem LittleEndian LoadProg PersistTrace

/-! ## What a round takes up -/

/-- The bytes that one snapshot of these variables adds to the log. -/
def roundLen (vars : List Var) : Nat :=
  sizeofLehdr + (vars.map (fun w => sizeofLehdr + w.size.toNat)).sum + wordLength

/-- The bytes that one snapshot of these objects adds to the log. -/
def entryLen (M : SortedMap Key Object) : Nat :=
  sizeofLehdr + NvsStore.batchLen (M.entries.map Prod.snd) + wordLength

/-- Every variable has become one object. -/
theorem NvsStore.allocAll_perm {vars : List Var} : ∀ {s s' : NvsStore}, s.allocAll vars = .ok s' →
    s'.objectMap.entries.Perm (vars.map (fun w => (w.name, w.object)) ++ s.objectMap.entries) := by
  induction vars with
  | nil =>
    intro s s' h
    cases h
    exact .refl _
  | cons w vars ih =>
    intro s s' h
    rw [allocAll] at h
    split at h
    · cases h
    · rename_i s₁ hcreate
      obtain ⟨hnone, rfl⟩ := createObj_eq hcreate
      exact (ih h).trans (((SortedMap.insert_perm hnone _).append_left _).trans List.perm_middle)

theorem entryLen_allocAll {l : Log} {f : File} {heap : Mem Byte} {vars : List Var} {s : NvsStore}
    (h : (NvsStore.ctor l f heap).allocAll vars = .ok s) :
    entryLen s.objectMap = roundLen vars ∧ s.objectMap.entries.length = vars.length := by
  have hperm := NvsStore.allocAll_perm h
  rw [show (NvsStore.ctor l f heap).objectMap.entries = [] from rfl, List.append_nil] at hperm
  refine ⟨?_, by rw [hperm.length_eq, List.length_map]⟩
  have hsum := ((hperm.map Prod.snd).map (fun o => sizeofLehdr + o.size.toNat)).sum_nat
  rw [entryLen, NvsStore.batchLen, hsum, List.map_map, List.map_map]
  rfl

theorem length_batchBytes_recs (ws : List Written) : (batchBytes ws).length =
    ((ws.map Written.toRec).map (fun r => sizeofLehdr + r.data.length)).sum := by
  induction ws with
  | nil => rfl
  | cons w ws ih =>
    rw [batchBytes_cons, List.length_append, ih, Written.length_bytes, List.map_cons, List.map_cons,
      List.sum_cons]

/-- **The bytes of an archive.** -/
theorem Archived.length_encode {M : SortedMap Key Object} {rounds : List Round} {items : List Item}
    (h : Archived M rounds items) :
    (encode (items.map Item.entry)).length = rounds.length * entryLen M := by
  induction h with
  | nil => exact (Nat.zero_mul _).symm
  | @snoc rounds items h r junk ws fits hws ih =>
    have hlen : (batchBytes ws).length = NvsStore.batchLen (M.entries.map Prod.snd) := by
      rw [length_batchBytes_recs, hws, NvsStore.batchLen, List.map_map, List.map_map]
      refine congrArg List.sum (List.map_congr_left fun p _ => ?_)
      exact congrArg (sizeofLehdr + ·) (p.2.length_contents r.heap)
    have hframe : (Item.multiple junk ws fits).entry.frame.length = entryLen M := by
      rw [Entry.length_frame, entryLen, ← hlen, Item.len_multiple]
    have hrounds : (rounds ++ [r]).length = rounds.length + 1 := List.length_append
    rw [List.map_append, List.map_singleton, encode_concat, hrounds, Nat.add_mul, Nat.one_mul, ← ih,
      ← hframe]
    exact List.length_append

/-! ## Whether the next round fits -/

theorem batchLen_objectsAfter (M : SortedMap Key Object) (n : Nat) :
    NvsStore.batchLen ((objectsAfter M n).entries.map Prod.snd) =
      NvsStore.batchLen (M.entries.map Prod.snd) := by
  show NvsStore.batchLen ((M.entries.map _).map Prod.snd) = _
  rw [NvsStore.batchLen, NvsStore.batchLen, List.map_map, List.map_map, List.map_map]
  rfl

section
variable {M : SortedMap Key Object} {rounds : List Round} {items : List Item} {c : Node}

theorem Node.At.length_objects (h : c.At M rounds items) :
    c.store.objectMap.entries.length = M.entries.length := by
  rw [h.objects]
  exact List.length_map _

/-- The buffers of the next round, counted. -/
theorem Node.At.length_append (h : c.At M rounds items) (r : Round) :
    (c.append r).data.length + wordLength = entryLen M := by
  have hdata : (c.append r).data.length = sizeofLehdr + _ :=
    NvsStore.length_gather_batch r.heap r.lEntry (c.store.objectMap.entries.map Prod.snd)
  rw [hdata, NvsStore.length_batch, h.objects, batchLen_objectsAfter, entryLen]

/-- **The next round goes through exactly if its entry fits.** -/
theorem Node.At.snapshot_iff (h : c.At M rounds items) (hcount : 1 + 2 * M.entries.length < 2 ^ 31)
    (r : Round) : (∃ c', c.snapshot r = .ok c') ↔
      33 + (rounds.length + 1) * entryLen M ≤ c.store.file.len := by
  have hbody := h.archived.length_encode
  have hentry := h.length_append r
  have hobjs := h.length_objects
  rw [Nat.add_mul, Nat.one_mul, ← hbody, ← hentry]
  simp only [wordLength]
  constructor
  · rintro ⟨c', hsnap⟩
    rw [Node.snapshot] at hsnap
    split at hsnap
    · cases hsnap
    · rename_i s' hput
      obtain ⟨log, file, happ, _⟩ := NvsStore.putAll_eq hput
      have hfits : 32 + _ + (c.append r).data.length + 8 ≤ c.store.file.len - 1 :=
        fits_of_appendv h.rep_view h.synced happ
      omega
  · intro hfits
    have hlen : (c.append r).data.length =
        sizeofLehdr + NvsStore.batchLen (c.store.objectMap.entries.map Prod.snd) := by
      rw [← NvsStore.length_batch r.heap r.lEntry 1]
      exact NvsStore.length_gather_batch r.heap r.lEntry _
    have hput := NvsStore.putAll_of_fits (s := { c.store with heap := r.heap }) h.rep_view h.synced
      r.lEntry (show _ = c.store.objectMap.entries.map Prod.snd from rfl)
      (by rw [List.length_map]; omega) (by show _ ≤ c.store.file.len - 1; omega)
    obtain ⟨n, s', hput⟩ := hput
    rw [Node.snapshot, hput]
    exact ⟨_, rfl⟩

/-- A round that does not fit ends the process. -/
theorem Node.At.snapshot_refused (h : c.At M rounds items)
    (hcount : 1 + 2 * M.entries.length < 2 ^ 31) (hword : entryLen M < 2 ^ 64) {r : Round}
    (hfull : c.store.file.len < 33 + (rounds.length + 1) * entryLen M) :
    c.snapshot r = .error .exit := by
  have hbody := h.archived.length_encode
  have hentry := h.length_append r
  have hobjs := h.length_objects
  rw [Nat.add_mul, Nat.one_mul, ← hbody] at hfull
  have hrefused : (c.append r).call c.store.log c.store.file = .error .exit := by
    refine (call_refused_iff h.rep_view h.synced (c.append r) (by omega)).1.mpr ?_
    rw [h.synced.stop, h.synced.write]
    omega
  have hput : NvsStore.putAll { c.store with heap := r.heap } r.lEntry = .error .exit := by
    rw [NvsStore.putAll]
    simp only [List.length_map, hobjs, if_pos hcount]
    rw [show Log.appendv _ _ _ = .error .exit from hrefused]
  rw [Node.snapshot, hput]

/-- **So many rounds go through.** -/
theorem Node.At.snapshots_iff (hcount : 1 + 2 * M.entries.length < 2 ^ 31) :
    ∀ {rounds : List Round} {items : List Item} {c : Node}, c.At M rounds items →
      ∀ more : List Round, more ≠ [] → ((∃ c', c.snapshots more = .ok c') ↔
        33 + (rounds.length + more.length) * entryLen M ≤ c.store.file.len) := by
  intro rounds items c h more
  induction more generalizing rounds items c with
  | nil => exact fun hne => absurd rfl hne
  | cons r more ih =>
    intro _
    have hfirst := h.snapshot_iff hcount r
    have hsum : rounds.length + (r :: more).length = rounds.length + 1 + more.length := by
      rw [List.length_cons]
      omega
    -- behind the first round the others go on from one round more
    have hrest : ∀ {c₁}, c.snapshot r = .ok c₁ → more ≠ [] → ((∃ c', c₁.snapshots more = .ok c') ↔
        33 + (rounds.length + 1 + more.length) * entryLen M ≤ c.store.file.len) := by
      intro c₁ hone hne
      obtain ⟨items₁, h₁, hlen⟩ := h.snapshot hone
      rw [ih h₁ hne, hlen, List.length_append, List.length_singleton]
    rw [hsum]
    constructor
    · rintro ⟨c', hsnap⟩
      rw [Node.snapshots] at hsnap
      split at hsnap
      · cases hsnap
      · rename_i c₁ hone
        by_cases hne : more = []
        · subst hne
          exact hfirst.mp ⟨c₁, hone⟩
        · exact (hrest hone hne).mp ⟨c', hsnap⟩
    · intro hfits
      have hle : (rounds.length + 1) * entryLen M ≤
          (rounds.length + 1 + more.length) * entryLen M :=
        Nat.mul_le_mul_right _ (Nat.le_add_right _ _)
      obtain ⟨c₁, hone⟩ := hfirst.mpr (by omega)
      rw [Node.snapshots, hone]
      by_cases hne : more = []
      · subst hne
        exact ⟨c₁, rfl⟩
      · exact (hrest hone hne).mpr hfits

/-- The rounds before a refused one decide where the process ends. -/
theorem Node.snapshots_refused {c c' : Node} {stop : Stop} : ∀ {before : List Round} {r : Round}
    (after : List Round), c.snapshots before = .ok c' → c'.snapshot r = .error stop →
      c.snapshots (before ++ r :: after) = .error stop := by
  intro before
  induction before generalizing c with
  | nil =>
    intro r after hbefore hr
    obtain rfl := Except.ok.inj hbefore
    rw [List.nil_append, Node.snapshots, hr]
  | cons r₀ before ih =>
    intro r after hbefore hr
    rw [Node.snapshots] at hbefore
    rw [List.cons_append, Node.snapshots]
    split at hbefore
    · cases hbefore
    · exact ih after hbefore hr

end

/-! ## The main result -/

/-- **How many checkpoints a log holds.**  An application that has allocated its variables on a new
    log of `size` bytes gets `n` snapshots through exactly if `33 + n * roundLen vars` bytes are there.
    If it goes on, it leaves the process inside the snapshot number `(size - 33) / roundLen vars + 1`,
    and all the snapshots before that one were completed. -/
theorem checkpoint_capacity {size : Nat} {l : Log} {f : File} {heap : Mem Byte}
    (hsize : sizeofLhdr ≤ size) (hnew : Log.ctor none size = .ok (l, f)) {vars : List Var}
    {s : NvsStore} (halloc : (NvsStore.ctor l f heap).allocAll vars = .ok s)
    (hvars : 1 + 2 * vars.length < 2 ^ 31) {rounds : List Round} (hrounds : rounds ≠ []) :
    ((∃ c, Node.snapshots ⟨s, (Durable.create l size).mem⟩ rounds = .ok c) ↔
      33 + rounds.length * roundLen vars ≤ size) ∧
    (roundLen vars < 2 ^ 64 → size < 33 + rounds.length * roundLen vars →
      Node.snapshots ⟨s, (Durable.create l size).mem⟩ rounds = .error .exit ∧
      ∃ c, Node.snapshots ⟨s, (Durable.create l size).mem⟩
        (rounds.take ((size - 33) / roundLen vars)) = .ok c) := by
  obtain ⟨hat, hlen⟩ := Node.start_at hsize hnew halloc
  obtain ⟨hentry, hcard⟩ := entryLen_allocAll halloc
  have hstart : (⟨s, (Durable.create l size).mem⟩ : Node).store.file.len = size := hlen
  generalize (⟨s, (Durable.create l size).mem⟩ : Node) = c₀ at hat hstart ⊢
  have hcount : 1 + 2 * s.objectMap.entries.length < 2 ^ 31 := by rw [hcard]; exact hvars
  have hfits : ∀ {more : List Round}, more ≠ [] → ((∃ c, c₀.snapshots more = .ok c) ↔
      33 + more.length * roundLen vars ≤ size) := by
    intro more hmore
    rw [hat.snapshots_iff hcount more hmore, hentry, hstart, List.length_nil, Nat.zero_add]
  refine ⟨hfits hrounds, fun hword hfull => ?_⟩
  -- the first `k` rounds are those that fit
  obtain ⟨k, hk⟩ : ∃ k, k = (size - 33) / roundLen vars := ⟨_, rfl⟩
  have hpos : 0 < roundLen vars := Nat.lt_of_lt_of_le (by decide) (Nat.le_add_left wordLength _)
  have hbelow : k * roundLen vars ≤ size - 33 := by
    rw [hk]
    exact Nat.div_mul_le_self _ _
  have habove : size - 33 < (k + 1) * roundLen vars := by
    rw [hk, Nat.mul_comm]
    exact Nat.lt_mul_div_succ _ hpos
  have hlt : k < rounds.length := by
    have hmany : roundLen vars ≤ rounds.length * roundLen vars :=
      Nat.le_mul_of_pos_left _ (List.length_pos_iff.mpr hrounds)
    refine Nat.lt_of_mul_lt_mul_right (a := roundLen vars) ?_
    omega
  have htake : (rounds.take k).length = k := by
    rw [List.length_take]
    omega
  have hdone : ∃ c, c₀.snapshots (rounds.take k) = .ok c := by
    by_cases hzero : rounds.take k = []
    · rw [hzero]
      exact ⟨c₀, rfl⟩
    · refine (hfits hzero).mpr ?_
      have hk0 : k ≠ 0 := by
        rintro rfl
        exact hzero (List.take_zero ..)
      have hone : roundLen vars ≤ k * roundLen vars :=
        Nat.le_mul_of_pos_left _ (Nat.pos_of_ne_zero hk0)
      rw [htake]
      omega
  rw [← hk]
  refine ⟨?_, hdone⟩
  obtain ⟨c, hdone⟩ := hdone
  obtain ⟨items, hat', hlen'⟩ := hat.snapshots hdone
  rw [List.nil_append] at hat'
  have hrefused : c.snapshot rounds[k] = .error .exit := by
    refine hat'.snapshot_refused hcount (by rw [hentry]; exact hword) ?_
    rw [htake, hlen', hstart, hentry]
    omega
  have hsplit : rounds.take k ++ rounds[k] :: rounds.drop (k + 1) = rounds := by
    rw [← List.drop_eq_getElem_cons, List.take_append_drop]
  rw [← hsplit]
  exact Node.snapshots_refused _ hdone hrefused

/-- One variable of a mebibyte: the default log of 100 MiB takes 99 snapshots, and the process does not
    survive the hundredth. -/
theorem checkpoint_capacity_one_mebibyte : ∃ l f s, Log.ctor none logSize = .ok (l, f) ∧
    (NvsStore.ctor l f (fun _ => 0)).allocAll [⟨[97], 1048576, 4096⟩] = .ok s ∧
    ∀ rounds : List Round, rounds.length = 100 →
      Node.snapshots ⟨s, (Durable.create l logSize).mem⟩ rounds = .error .exit ∧
      ∃ c, Node.snapshots ⟨s, (Durable.create l logSize).mem⟩ (rounds.take 99) = .ok c := by
  obtain ⟨l, f, hnew, _⟩ := ctor_ok logSize (by decide)
  refine ⟨l, f, _, hnew, rfl, fun rounds hrounds => ?_⟩
  have hne : rounds ≠ [] := by
    rintro rfl
    cases hrounds
  obtain ⟨_, hfull⟩ := checkpoint_capacity (by decide) hnew
    (show (NvsStore.ctor l f (fun _ => 0)).allocAll [⟨[97], 1048576, 4096⟩] = .ok _ from rfl)
    (by decide) hne
  exact hfull (by decide) (by rw [hrounds]; decide)

end NvStream
