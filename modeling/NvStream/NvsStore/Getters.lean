/-
  `get` beside `get_with_malloc`.

  The two readers run the same search with the same callback and look at its outcome differently.
  `get` first asks what `walk` itself returned; `get_with_malloc` only looks at the `err` field of its
  `walkentry`, which the CALLBACK sets.  On a log without entries the callback never runs, and `err` is
  what the stack held: if that happens to be `NO_ERROR`, the call goes on with a junk length and a junk
  pointer.

  Once a search has come to an end, both are functions of what it found (`get_of_walk`,
  `getWithMalloc_of_walk`), so on a log with entries they agree.  A search that has found nothing when
  it comes to an empty batch at the very end reads behind the tail, and both fault if that is not
  mapped.  `getters_agree_iff` puts the cases together, as a condition on the log.
-/
import NvStream.NvsStore.RoundTrip

namespace NvStream

open FlatMem LittleEndian LoadProg PersistTrace

/-- The two readers agree on a query, `get` with the junk `wg` and `get_with_malloc` with the junk `wm`
    in its `walkentry`: both report `ID_NOT_FOUND` and change nothing, or both return `NO_ERROR` and
    deliver the same bytes. -/
def NvsStore.ReadersAgree (s : NvsStore) (fuel : Nat) (key : Key) (version : UInt64)
    (wg wm : WalkEntry) (dst tmpPtr : Nat) : Prop :=
  (s.get wg fuel key version dst = .ok (.idNotFound, s) ∧
    s.getWithMalloc wm fuel key version tmpPtr = .ok (.idNotFound, none, s)) ∨
  ∃ data p s', s.get wg fuel key version dst =
      .ok (.noError, { s with heap := store s.heap dst data }) ∧
    s.getWithMalloc wm fuel key version tmpPtr = .ok (.noError, some p, s') ∧
    s'.heap = store s.heap p data

/-- A life without events has an empty log. -/
theorem Life.Inv.items_eq_nil {valid : Key → Prop} {L : Life} {items : List Item}
    (hi : L.Inv valid items) (h : L.events = []) : items = [] := by
  have hev := hi.events
  rw [h] at hev
  cases items with
  | nil => rfl
  | cons it items => cases hev

section
variable {s : NvsStore} {key : Key} {version : UInt64}

/-- Once the searches have come to an end, the readers agree on a log with entries. -/
theorem NvsStore.readersAgree_of_walk {items : List Item}
    (hr : Rep s.file (encode (items.map Item.entry))) (hne : items ≠ []) {wg wm : WalkEntry}
    {fuel : Nat} {r r' : ErrorCode × WalkEntry × Nat}
    (hg : s.file.run (walk (processChunks fuel) fuel (walkEntry wg key version)) = .ok r)
    (hm : s.file.run (walk (processChunks fuel) fuel (walkEntry wm key version)) = .ok r')
    (dst tmpPtr : Nat) : s.ReadersAgree fuel key version wg wm dst tmpPtr := by
  have hget := NvsStore.get_of_walk hr hg dst
  have hmalloc := NvsStore.getWithMalloc_of_walk hr hne hm tmpPtr
  cases hlk : lookup key version items with
  | none =>
    rw [hlk] at hget hmalloc
    exact Or.inl ⟨hget, hmalloc⟩
  | some rec =>
    rw [hlk] at hget hmalloc
    exact Or.inr ⟨rec.data, _, _, hget, hmalloc, rfl⟩

/-- On an empty log `get_with_malloc` reports `ID_NOT_FOUND` exactly if the junk in `err` says so. -/
theorem NvsStore.getWithMalloc_empty (hr : Rep s.file []) (wm : WalkEntry) (fuel tmpPtr : Nat) :
    s.getWithMalloc wm fuel key version tmpPtr = .ok (.idNotFound, none, s) ↔
      wm.err ≠ .noError := by
  unfold NvsStore.getWithMalloc
  simp only [walk_empty hr, walkEntry]
  by_cases herr : wm.err = .noError
  · rw [if_neg (not_not_intro herr)]
    constructor
    · intro h
      split at h <;> cases h
    · intro h
      exact absurd herr h
  · rw [if_pos herr]
    exact ⟨fun _ => herr, fun _ => rfl⟩

/-- If the junk says `NO_ERROR`, it is copied from where the junk points to. -/
theorem NvsStore.getWithMalloc_junk (hr : Rep s.file []) {wm : WalkEntry} (herr : wm.err = .noError)
    {data : List Byte} (hcopy : s.file.run (Prog.loadEach wm.datap wm.len) = .ok data)
    (fuel tmpPtr : Nat) :
    s.getWithMalloc wm fuel key version tmpPtr = .ok (.noError, some (s.targetOf key tmpPtr),
      { s with
        heap := store s.heap (s.targetOf key tmpPtr) data
        objectMap := s.objectMap.insert key (s.loaded key version tmpPtr wm.len) }) := by
  unfold NvsStore.getWithMalloc
  simp only [walk_empty hr, walkEntry, herr, ne_eq, not_true_eq_false, if_false, hcopy]
  unfold NvsStore.targetOf NvsStore.loaded
  cases s.objectMap.find? key <;> rfl

theorem NvsStore.readersAgree_empty (hr : Rep s.file []) (wg wm : WalkEntry)
    (fuel dst tmpPtr : Nat) :
    s.ReadersAgree fuel key version wg wm dst tmpPtr ↔ wm.err ≠ .noError := by
  have hget := NvsStore.get_empty hr wg fuel key version dst
  constructor
  · rintro (⟨_, hmalloc⟩ | ⟨_, _, _, hfound, _⟩)
    · exact (NvsStore.getWithMalloc_empty hr wm fuel tmpPtr).mp hmalloc
    · rw [hget] at hfound
      cases hfound
  · intro herr
    exact Or.inl ⟨hget, (NvsStore.getWithMalloc_empty hr wm fuel tmpPtr).mpr herr⟩

end

/-- **When the two readers agree.**  In every state of every run on a log of whole pages, for every key
    and version: whatever `get` finds in its uninitialised `walkentry`, it agrees with
    `get_with_malloc` if and only if

    * on a log without entries, the `err` field that `get_with_malloc` leaves uninitialised does not
      hold `NO_ERROR`;
    * if the last entry is the batch of a `put_all` without objects, and fewer than 32 bytes are mapped
      behind the tail, an earlier entry answers the query (both fault otherwise). -/
theorem getters_agree_iff {pages : Nat} {l : Log} {f : File} {heap : Mem Byte} (hpages : 0 < pages)
    (hnew : Log.ctor none (pages * pageSize) = .ok (l, f)) {L : Life}
    (hrun : Relation.ReflTransGen (Life.Step (fun _ => True)) (Life.start l f heap) L) (key : Key)
    (version : UInt64) (wm : WalkEntry) (dst tmpPtr : Nat) :
    (∀ wg, ∃ N, ∀ fuel ≥ N, L.store.ReadersAgree fuel key version wg wm dst tmpPtr) ↔
      (L.events = [] → wm.err ≠ .noError) ∧
      ((∃ e, L.events.getLast? = some e ∧ e.what = .putAll []) →
        pages * pageSize < word L.store.file.bytes tailOff + 32 →
        ∃ e ∈ L.events, ∃ r ∈ e.what.visible,
          keyField r.name = keyField key ∧ r.version = version) := by
  have hsize : sizeofLhdr ≤ pages * pageSize := by
    rw [sizeofLhdr, pageSize]
    omega
  obtain ⟨items, hi⟩ := Life.Step.run_inv hrun (Life.start_inv heap hsize hnew)
  -- the second condition says that the search stays inside the mapping
  rw [← Life.Step.run_len hsize hnew hrun, ← hi.searchInside_iff_answered]
  constructor
  · intro hagree
    obtain ⟨N, hN⟩ := hagree wm
    refine ⟨fun hnone => ?_, NvsStore.searchInside_of_get hi.rep wm dst N fun fuel hfuel => ?_⟩
    · obtain rfl := hi.items_eq_nil hnone
      exact (NvsStore.readersAgree_empty hi.rep wm wm N dst tmpPtr).mp (hN N (Nat.le_refl N))
    · rcases hN fuel hfuel with ⟨hget, _⟩ | ⟨_, _, _, hget, _⟩
      · exact ⟨_, hget⟩
      · exact ⟨_, hget⟩
  · rintro ⟨herr, hin⟩ wg
    by_cases hnone : items = []
    · subst hnone
      exact ⟨0, fun fuel _ => (NvsStore.readersAgree_empty hi.rep wg wm fuel dst tmpPtr).mpr
        (herr hi.events)⟩
    · refine ⟨lookFuel items, fun fuel hfuel => ?_⟩
      exact NvsStore.readersAgree_of_walk hi.rep hnone
        ((run_walk_look hi.rep wg hfuel key version).1 hin)
        ((run_walk_look hi.rep wm hfuel key version).1 hin) dst tmpPtr

/-- On a full log that ends with an empty batch, the readers agree on the key that was put, whatever is
    in their `walkentry`s, and disagree on one that was not: both fault. -/
theorem getters_agree_iff_full_log : ∃ l f s₁ s₂ l' f' n s₃, Log.ctor none logSize = .ok (l, f) ∧
    (NvsStore.ctor l f (fun _ => 9)).createObj [97] fillSize 4096 = .ok (.noError, 4096, s₁) ∧
    s₁.put blankHdr [97] 1 = .ok (.noError, s₂) ∧ Log.ctor (some s₂.file) 0 = .ok (l', f') ∧
    (NvsStore.ctor l' f' (fun _ => 0)).putAll (fun _ => blankHdr) = .ok (n, s₃) ∧
    (∀ wm wg, ∃ N, ∀ fuel ≥ N, s₃.ReadersAgree fuel [97] 1 wg wm 8192 4096) ∧
    ∀ wm, ¬ ∀ wg, ∃ N, ∀ fuel ≥ N, s₃.ReadersAgree fuel [98] 1 wg wm 8192 4096 := by
  obtain ⟨l, f, s₁, s₂, l', f', n, s₃, L, hnew, hcreate, hput, hreopen, hputAll, hrun, rfl, hevents,
    htail, _⟩ := @full_log (fun _ => True) trivial
  have hpages : Log.ctor none (25600 * pageSize) = .ok (l, f) := hnew
  have hiff := fun key wm => getters_agree_iff (by decide) hpages hrun key 1 wm 8192 4096
  rw [hevents, htail] at hiff
  refine ⟨l, f, s₁, s₂, l', f', n, L.store, hnew, hcreate, hput, hreopen, hputAll, fun wm => ?_,
    fun wm hagree => ?_⟩
  · refine (hiff [97] wm).mpr ⟨fun h => absurd h (List.cons_ne_nil _ _), fun _ _ => ?_⟩
    exact ⟨_, List.mem_cons_self, _, List.mem_singleton.mpr rfl, rfl, rfl⟩
  · obtain ⟨e, he, r, hr, hkey, _⟩ := ((hiff [98] wm).mp hagree).2 ⟨_, rfl, rfl⟩ (by decide)
    simp only [List.mem_cons, List.not_mem_nil, or_false] at he
    rcases he with rfl | rfl
    · rw [List.mem_singleton.mp hr] at hkey
      exact absurd (show keyField [97] = keyField [98] from hkey) (by decide)
    · cases hr

/-- **A new store answers a query from junk.**  With `NO_ERROR`, the length 8 and a pointer into the
    mapping in the uninitialised `walkentry`, `get_with_malloc` returns `NO_ERROR`, hands out eight
    bytes of the log's header and files an object, where `get` reports `ID_NOT_FOUND`. -/
theorem empty_log_answers_from_junk : ∃ l f s', Log.ctor none logSize = .ok (l, f) ∧
    (∀ w fuel, (NvsStore.ctor l f (fun _ => 0)).get w fuel [97] 1 8192 =
      .ok (.idNotFound, NvsStore.ctor l f (fun _ => 0))) ∧
    (∀ fuel, (NvsStore.ctor l f (fun _ => 0)).getWithMalloc { blankWalk with len := 8 } fuel [97] 1
      4096 = .ok (.noError, some 4096, s')) ∧
    s'.heap = store (fun _ => 0) 4096 (load f.bytes 0 8) ∧
    s'.objectMap.entries = [([97], Object.ctor [97] 8 1 4096)] := by
  obtain ⟨l, f, hnew, hr, _, hlen⟩ := ctor_ok logSize (by decide)
  have hcopy : f.run (Prog.loadEach 0 8) = .ok (load f.bytes 0 8) := by
    have hy : (Prog.loadEach 0 8 : Prog Stop Byte (List Byte)).Yields (Set.Iio 8) f.bytes
      (load f.bytes 0 8) := Prog.yields_loadEach (fun i hi => by rw [Nat.zero_add]; exact hi)
    refine hy.run_eq (fun a ha => Nat.lt_trans ha ?_)
    rw [hlen]
    decide
  have hjunk : ({ blankWalk with len := 8 } : WalkEntry).err = .noError := rfl
  exact ⟨l, f, _, hnew, fun w fuel => NvsStore.get_empty hr w fuel [97] 1 8192,
    fun fuel => NvsStore.getWithMalloc_junk (s := NvsStore.ctor l f (fun _ => 0)) hr hjunk hcopy
      fuel 4096, rfl, rfl⟩

end NvStream
