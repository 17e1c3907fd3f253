/-
  `NVSStore` as a map from keys and versions to bytes.

  `put_get_round_trip` is the refinement: over every run, for a key and a version that no `put_all`
  recorded, `get` is the partial map "the earliest `put`".  Nothing else in the log can answer: a
  stored name is the whole key (short keys without NULs), and the search compares whole records only.
  One thing can go wrong for a pair that was never put: the search ends on the last entry of the log,
  and if that is the batch of a `put_all` without objects it reads 32 bytes behind the tail, which need
  not be mapped (`absent_key_faults`).

  `snapshot_complete_iff` is about `put_all` itself.  Its records ARE in the log, but the last of them
  (the greatest key) is not visible to the search.  A key is delivered exactly when a VISIBLE record
  of the batch answers for it with the same bytes; for keys without NULs that means exactly when a
  greater key exists.
-/
import NvStream.NvsStore.Runs

namespace NvStream

open FlatMem LittleEndian LoadProg PersistTrace

/-! ## The earliest put -/

/-- A key the log can hold whole. -/
def ShortKey (k : Key) : Prop := k.length < keyLen ∧ (0 : Byte) ∉ k

/-- The record of a `put`. -/
def Recorded.put? : Recorded → Option Rec
  | put r => some r
  | putAll _ => none

/-- The record of the earliest `put` of a key and a version. -/
def firstPut (k : Key) (v : UInt64) (events : List Event) : Option Rec :=
  (events.filterMap (fun e => e.what.put?)).find? (fun r => r.name = k ∧ r.version = v)

theorem firstPut_cons_put {k : Key} {v : UInt64} {e : Event} {r : Rec} (h : e.what = .put r)
    (es : List Event) : firstPut k v (e :: es) =
      if r.name = k ∧ r.version = v then some r else firstPut k v es := by
  have hput : e.what.put? = some r := by rw [h, Recorded.put?]
  unfold firstPut
  rw [List.filterMap_cons, hput]
  simp only [List.find?_cons]
  by_cases hyes : r.name = k ∧ r.version = v
  · rw [if_pos hyes, decide_eq_true hyes]
  · rw [if_neg hyes, decide_eq_false hyes]

theorem firstPut_cons_putAll {k : Key} {v : UInt64} {e : Event} {rs : List Rec}
    (h : e.what = .putAll rs) (es : List Event) : firstPut k v (e :: es) = firstPut k v es := by
  have hput : e.what.put? = none := by rw [h, Recorded.put?]
  unfold firstPut
  rw [List.filterMap_cons, hput]

/-- Short keys are compared as they are. -/
theorem Rec.matches_iff {r : Rec} {k : Key} {v : UInt64} (hr : ShortKey r.name)
    (hk : ShortKey k) : r.matches (keyField k) v = decide (r.name = k ∧ r.version = v) := by
  rw [Rec.matches, keyField_eq_self hr.1 hr.2, keyField_eq_self hk.1 hk.2]

/-- Where no batch recorded the key and the version, the search finds the earliest put. -/
theorem lookup_eq_firstPut {k : Key} {v : UInt64} (hk : ShortKey k) (items : List Item) :
    ∀ off, (∀ it ∈ items, ∀ r ∈ it.recs, ShortKey r.name) →
      (∀ e ∈ eventsFrom off items, ∀ rs, e.what = .putAll rs →
        ∀ r ∈ rs, ¬ (r.name = k ∧ r.version = v)) →
      lookup k v items = firstPut k v (eventsFrom off items) := by
  induction items with
  | nil =>
    intro off _ _
    rfl
  | cons it items ih =>
    intro off hvalid hnone
    have hrest := ih (off + it.entry.frame.length)
      (fun it' h => hvalid it' (List.mem_cons_of_mem _ h))
      (fun e h => hnone e (List.mem_cons_of_mem _ h))
    have hit := hvalid it List.mem_cons_self
    rw [lookup, List.flatMap_cons, List.find?_append]
    rw [lookup] at hrest
    rw [hrest]
    cases it with
    | single w =>
      have hm : w.toRec.matches (keyField k) v = decide (w.toRec.name = k ∧ w.toRec.version = v) :=
        Rec.matches_iff (hit w.toRec (List.mem_singleton.mpr rfl)) hk
      rw [Item.visible, eventsFrom, firstPut_cons_put rfl]
      by_cases hyes : w.toRec.name = k ∧ w.toRec.version = v
      · rw [if_pos hyes, List.find?_cons_of_pos (by rw [hm]; exact decide_eq_true hyes),
          Option.some_or]
      · rw [if_neg hyes, List.find?_cons_of_neg (by rw [hm, decide_eq_true_iff]; exact hyes),
          List.find?_nil, Option.none_or]
    | multiple junk ws fits =>
      have hbatch : ((ws.map Written.toRec).dropLast).find? (Rec.matches (keyField k) v) = none := by
        rw [List.find?_eq_none]
        intro r hr
        have hmem := List.mem_of_mem_dropLast hr
        rw [Rec.matches_iff (hit r hmem) hk, decide_eq_true_iff]
        exact hnone _ List.mem_cons_self _ rfl r hmem
      rw [Item.visible, hbatch, Option.none_or, eventsFrom, firstPut_cons_putAll rfl]

/-- The last item is an empty batch exactly if the last event is the `put_all` of no objects. -/
theorem Life.Inv.last_iff {valid : Key → Prop} {L : Life} {items : List Item}
    (hi : L.Inv valid items) {P : Prop} :
    (∀ it, items.getLast? = some it → it.recs = [] → P) ↔
      ∀ e, L.events.getLast? = some e → e.what = .putAll [] → P := by
  rw [hi.events]
  rcases List.eq_nil_or_concat items with rfl | ⟨pre, it, rfl⟩
  · exact iff_of_true (fun _ h => by cases h) (fun _ h => by cases h)
  · have hwhat : it.what = .putAll [] ↔ it.recs = [] := by
      cases it with
      | single w => exact iff_of_false (fun h => by cases h) (fun h => by cases h)
      | multiple junk ws fits => exact ⟨Recorded.putAll.inj, congrArg Recorded.putAll⟩
    simp only [List.concat_eq_append, eventsFrom_concat, List.getLast?_concat, Option.some.injEq,
      forall_eq', hwhat]

/-- Along a life over short keys, for a pair that no batch recorded. -/
theorem Life.Inv.lookup_firstPut {L : Life} {items : List Item} (hi : L.Inv ShortKey items)
    {k : Key} (hk : ShortKey k) {v : UInt64}
    (hnone : ∀ e ∈ L.events, ∀ rs, e.what = .putAll rs →
      ∀ r ∈ rs, ¬ (r.name = k ∧ r.version = v)) :
    lookup k v items = firstPut k v L.events := by
  rw [hi.events] at hnone ⊢
  exact lookup_eq_firstPut hk items 32 hi.valid_name hnone

/-- **When the search of a getter stays inside the mapping**, read off the log: unless the last entry
    is the batch of a `put_all` without objects, with fewer than 32 mapped bytes behind it, and no
    entry in front of it answers. -/
theorem Life.Inv.searchInside_iff {valid : Key → Prop} {L : Life} {items : List Item}
    (hi : L.Inv valid items) (key : Key) (version : UInt64) :
    SearchInside L.store.file key version 32 items ↔ (lookup key version items = none →
      ∀ e, L.events.getLast? = some e → e.what = .putAll [] →
        word L.store.file.bytes tailOff + 32 ≤ L.store.file.len) := by
  rw [NvStream.searchInside_iff items 32 hi.rep.room, hi.rep.tail_eq]
  exact imp_congr_right (fun _ => hi.last_iff)

/-- The same, by what is left behind the tail and by who answers. -/
theorem Life.Inv.searchInside_iff_answered {valid : Key → Prop} {L : Life} {items : List Item}
    (hi : L.Inv valid items) (key : Key) (version : UInt64) :
    SearchInside L.store.file key version 32 items ↔
      ((∃ e, L.events.getLast? = some e ∧ e.what = .putAll []) →
        L.store.file.len < word L.store.file.bytes tailOff + 32 →
        ∃ e ∈ L.events, ∃ r ∈ e.what.visible,
          keyField r.name = keyField key ∧ r.version = version) := by
  rw [hi.searchInside_iff, hi.lookup_eq_none_iff]
  constructor
  · rintro h ⟨e, he, hw⟩ hshort
    by_contra hno
    have hroom := h (fun e he r hr hyes => hno ⟨e, he, r, hr, hyes⟩) e he hw
    omega
  · intro h hnone e he hw
    by_contra hshort
    obtain ⟨e', he', r, hr, hyes⟩ := h ⟨e, he, hw⟩ (by omega)
    exact hnone e' he' r hr hyes

/-- What `get` returns on a log in which nothing makes it leave the mapping. -/
theorem Life.Inv.get_firstPut {L : Life} {items : List Item} (hi : L.Inv ShortKey items)
    {k : Key} (hk : ShortKey k) {v : UInt64}
    (hnone : ∀ e ∈ L.events, ∀ rs, e.what = .putAll rs → ∀ r ∈ rs, ¬ (r.name = k ∧ r.version = v))
    (hinside : SearchInside L.store.file k v 32 items)
    (wentry : WalkEntry) (dst : Nat) {fuel : Nat} (hfuel : lookFuel items ≤ fuel) :
    L.store.get wentry fuel k v dst = .ok ((firstPut k v L.events).elim (.idNotFound, L.store)
      (fun r => (.noError, { L.store with heap := FlatMem.store L.store.heap dst r.data }))) := by
  rw [← hi.lookup_firstPut hk hnone]
  exact NvsStore.get_of_walk hi.rep ((run_walk_look hi.rep wentry hfuel k v).1 hinside) dst

/-- What `get` is for: the earliest `put` of the pair is delivered to `dst`, and a pair that was never
    put is reported as such, with nothing changed. -/
def Life.RoundTrips (L : Life) (wentry : WalkEntry) (k : Key) (v : UInt64) (dst : Nat) : Prop :=
  ∃ N, ∀ fuel ≥ N, L.store.get wentry fuel k v dst =
    match firstPut k v L.events with
    | some r => .ok (.noError, { L.store with heap := FlatMem.store L.store.heap dst r.data })
    | none => .ok (.idNotFound, L.store)

/-- **Round trip.**  In every state of every run over short keys, for a key and a version that no
    `put_all` recorded: if the pair was put, `get` returns `NO_ERROR` and writes to `dst` exactly the
    bytes of the earliest put; if not, it returns `ID_NOT_FOUND` and changes nothing.  The one demand
    on the log is made for a pair that was never put: behind an empty batch at the very end, 32 more
    bytes are mapped.  On a log of whole pages it cannot be done without. -/
theorem put_get_round_trip {size : Nat} {l : Log} {f : File} {heap : Mem Byte}
    (hsize : sizeofLhdr ≤ size) (hnew : Log.ctor none size = .ok (l, f)) {L : Life}
    (hrun : Relation.ReflTransGen (Life.Step ShortKey) (Life.start l f heap) L)
    {k : Key} (hk : ShortKey k) (v : UInt64)
    (hnone : ∀ e ∈ L.events, ∀ rs, e.what = .putAll rs → ∀ r ∈ rs, ¬ (r.name = k ∧ r.version = v))
    (wentry : WalkEntry) (dst : Nat) :
    ((firstPut k v L.events = none → ∀ e, L.events.getLast? = some e → e.what = .putAll [] →
        word L.store.file.bytes tailOff + 32 ≤ size) → L.RoundTrips wentry k v dst) ∧
    (pageSize ∣ size → L.RoundTrips wentry k v dst →
      firstPut k v L.events = none → ∀ e, L.events.getLast? = some e → e.what = .putAll [] →
        word L.store.file.bytes tailOff + 32 ≤ size) := by
  obtain ⟨items, hi⟩ := Life.Step.run_inv hrun (Life.start_inv heap hsize hnew)
  have hinside := hi.searchInside_iff k v
  rw [hi.lookup_firstPut hk hnone, Life.Step.run_len hsize hnew hrun] at hinside
  refine ⟨fun hspace => ?_, fun _ ⟨N, hN⟩ => ?_⟩
  · refine ⟨lookFuel items, fun fuel hfuel => ?_⟩
    refine (hi.get_firstPut hk hnone (hinside.mpr hspace) wentry dst hfuel).trans ?_
    cases firstPut k v L.events <;> rfl
  · -- a search that leaves the mapping has no answer at all
    refine hinside.mp (NvsStore.searchInside_of_get hi.rep wentry dst N fun fuel hfuel => ?_)
    rw [hN fuel hfuel]
    cases firstPut k v L.events with
    | none => exact ⟨_, rfl⟩
    | some r => exact ⟨_, rfl⟩

/-! ### A store with one object -/

/-- A `walkentry` of zeros. -/
def blankWalk : WalkEntry := ⟨0, 0, 0, 0, .replicate 20 0, .noError⟩

/-- A new store in which an object at address 4096 was created. -/
theorem one_object (key : Key) (size : UInt64) : ∃ l f s, Log.ctor none logSize = .ok (l, f) ∧
    (NvsStore.ctor l f (fun _ => 9)).createObj key size 4096 = .ok (.noError, 4096, s) ∧
    s.objectMap.entries = [(key, Object.ctor key size 0 4096)] ∧
    s.addrMap.entries = [(4096, key)] ∧ s.heap = (fun _ => 9) ∧
    Rep s.file [] ∧ s.log.Synced s.file [] ∧ s.file.len = logSize := by
  obtain ⟨l, f, hnew, hr, hs, hlen⟩ := ctor_ok logSize (by decide)
  exact ⟨l, f, _, hnew, rfl, rfl, rfl, rfl, hr, hs, hlen⟩

/-- Its object is put. -/
theorem one_put (key : Key) (version : UInt64) : ∃ l f s₁ s₂, Log.ctor none logSize = .ok (l, f) ∧
    (NvsStore.ctor l f (fun _ => 9)).createObj key 4 4096 = .ok (.noError, 4096, s₁) ∧
    s₁.put blankHdr key version = .ok (.noError, s₂) ∧
    s₁.objectMap.find? key = some (Object.ctor key 4 0 4096) ∧ s₁.heap = (fun _ => 9) ∧
    s₂.objectMap.entries = [(key, (Object.ctor key 4 0 4096).setVersion version)] ∧
    Rep s₂.file (encode ([Item.single ⟨blankHdr,
      (Object.ctor key 4 0 4096).toRec (fun _ => 9) version⟩].map Item.entry)) ∧
    s₂.file.len = logSize := by
  obtain ⟨l, f, s₁, hnew, hcreate, hentries, _, hheap, hr, hs, hlen⟩ := one_object key 4
  have hobj : s₁.objectMap.find? key = some (Object.ctor key 4 0 4096) :=
    SortedMap.find?_of_singleton hentries
  have hsize : (Object.ctor key 4 0 4096).size.toNat = 4 := rfl
  obtain ⟨s₂, hput⟩ := NvsStore.put_of_fits hr hs blankHdr version hobj
    (by rw [hlen, hsize]; decide)
  obtain ⟨obj, hobj', hr₂, _, hlen₂, _, _, hmap⟩ := NvsStore.put_ok hr hs hput
  obtain rfl := Option.some.inj (hobj.symm.trans hobj')
  rw [hheap] at hr₂
  refine ⟨l, f, s₁, s₂, hnew, hcreate, hput, hobj, hheap, ?_, ?_, hlen₂.trans hlen⟩
  · rw [hmap]
    exact SortedMap.modify_of_singleton hentries _
  · rw [List.map_singleton, encode_cons, encode_nil, List.append_nil]
    exact hr₂

/-- The bytes its entry takes up. -/
theorem length_one_put (key : Key) (version : UInt64) :
    (encode ([Item.single ⟨blankHdr,
      (Object.ctor key 4 0 4096).toRec (fun _ => 9) version⟩].map Item.entry)).length = 148 := by
  rw [List.map_singleton, encode_cons, encode_nil, List.append_nil, Entry.length_frame,
    Item.len_single]
  exact congrArg (fun n => sizeofLehdr + n + wordLength) (Object.length_contents _ _)

/-- Two objects put and then snapshotted: the second one is read back from between the entries, and a
    key that was never put is not found. -/
theorem put_get_round_trip_two_objects :
    ∃ l f s₁ s₂ s₃ s₄ n s₅, Log.ctor none logSize = .ok (l, f) ∧
      (NvsStore.ctor l f (fun _ => 9)).createObj [97] 4 4096 = .ok (.noError, 4096, s₁) ∧
      s₁.createObj [98] 4 8192 = .ok (.noError, 8192, s₂) ∧
      s₂.put blankHdr [97] 1 = .ok (.noError, s₃) ∧ s₃.put blankHdr [98] 1 = .ok (.noError, s₄) ∧
      s₄.putAll (fun _ => blankHdr) = .ok (n, s₅) ∧
      (∃ N, ∀ fuel ≥ N, s₅.get blankWalk fuel [98] 1 12288 =
        .ok (.noError, { s₅ with heap := store s₅.heap 12288 [9, 9, 9, 9] })) ∧
      ∃ N, ∀ fuel ≥ N, s₅.get blankWalk fuel [99] 1 12288 = .ok (.idNotFound, s₅) := by
  have hshort : ∀ c : Byte, c ≠ 0 → ShortKey [c] := fun c hc =>
    ⟨show 1 < keyLen by decide, fun h => hc (List.mem_singleton.mp h).symm⟩
  obtain ⟨l, f, s₁, s₂, s₃, s₄, n, s₅, L, hnew, hcreate₁, hcreate₂, hput₃, hput₄, hput₅, hrun, rfl,
    hevents⟩ := two_objects (hshort 97 (by decide)) (hshort 98 (by decide))
  -- the last entry is a batch, with two records of version 2 in it
  have hspace : ∀ e, L.events.getLast? = some e → e.what ≠ .putAll [] := by
    rw [hevents]
    rintro e he hw
    obtain rfl := Option.some.inj he
    cases hw
  have hbatch : ∀ e ∈ L.events, ∀ rs, e.what = .putAll rs → ∀ r ∈ rs, r.version ≠ 1 := by
    rw [hevents]
    intro e he rs hw r hr
    simp only [List.mem_cons, List.not_mem_nil, or_false] at he
    rcases he with rfl | rfl | rfl
    · cases hw
    · cases hw
    · obtain rfl := Recorded.putAll.inj hw
      simp only [List.mem_cons, List.not_mem_nil, or_false] at hr
      rcases hr with rfl | rfl
      · decide
      · decide
  have hget : ∀ c : Byte, c ≠ 0 → L.RoundTrips blankWalk [c] 1 12288 := fun c hc =>
    (put_get_round_trip (by decide) hnew hrun (hshort c hc) 1
      (fun e he rs hw r hr h => hbatch e he rs hw r hr h.2) blankWalk 12288).1
      (fun _ e he hw => absurd hw (hspace e he))
  have h98 := hget 98 (by decide)
  have h99 := hget 99 (by decide)
  rw [Life.RoundTrips, hevents] at h98 h99
  exact ⟨l, f, s₁, s₂, s₃, s₄, n, L.store, hnew, hcreate₁, hcreate₂, hput₃, hput₄, hput₅, h98, h99⟩

/-! ### A search that runs off the log -/

/-- The size of an object whose record, with an entry of no length behind it, fills a new log to its
    last byte. -/
def fillSize : UInt64 := 104857279

/-- The log is filled by one record, the process restarts, and a `put_all` of no objects takes the
    144 bytes that are left. -/
theorem full_log {valid : Key → Prop} (hvalid : valid [97]) :
    ∃ l f s₁ s₂ l' f' n s₃ L, Log.ctor none logSize = .ok (l, f) ∧
      (NvsStore.ctor l f (fun _ => 9)).createObj [97] fillSize 4096 = .ok (.noError, 4096, s₁) ∧
      s₁.put blankHdr [97] 1 = .ok (.noError, s₂) ∧ Log.ctor (some s₂.file) 0 = .ok (l', f') ∧
      (NvsStore.ctor l' f' (fun _ => 0)).putAll (fun _ => blankHdr) = .ok (n, s₃) ∧
      Relation.ReflTransGen (Life.Step valid) (Life.start l f (fun _ => 9)) L ∧ L.store = s₃ ∧
      L.events = [⟨32, 104857279,
        .put ((Object.ctor [97] fillSize 0 4096).recorded (fun _ => 9) [97] 1)⟩,
        ⟨104857455, 0, .putAll []⟩] ∧
      word s₃.file.bytes tailOff = 104857599 ∧ s₃.file.len = 104857600 := by
  obtain ⟨l, f, s₁, hnew, hcreate, hentries, _, hheap, _, hs, hlen⟩ := one_object [97] fillSize
  have hstart : Relation.ReflTransGen (Life.Step valid) (Life.start l f (fun _ => 9)) ⟨s₁, []⟩ :=
    .single (.createObj [97] fillSize 4096 hvalid hcreate)
  obtain ⟨items, hi⟩ := Life.Step.run_inv hstart (Life.start_inv (fun _ => 9) (by decide) hnew)
  have hobj : s₁.objectMap.find? [97] = some (Object.ctor [97] fillSize 0 4096) :=
    SortedMap.find?_of_singleton hentries
  have hsize : (Object.ctor [97] fillSize 0 4096).size.toNat = 104857279 := rfl
  have hwrite : s₁.log.writeOffset = 32 := hs.write
  obtain ⟨s₂, hput, _, _, hlen₂, hwrite₂, hi₂⟩ := hi.put_fits blankHdr 1 hobj
    (by rw [hwrite, hlen, hsize]; decide)
  rw [hwrite, hsize] at hwrite₂
  -- the second process
  have hreopen := ctor_reopen hi₂.rep
  have hrun₂ := (hstart.tail (.put blankHdr [97] 1 hobj hput)).tail (.restart (fun _ => 0) hreopen)
  obtain ⟨items₃, hi₃⟩ := Life.Step.run_inv hrun₂ (Life.start_inv (fun _ => 9) (by decide) hnew)
  have hwrite₃ : (handleOn s₂.file _).writeOffset = _ := hi₂.synced.write.symm.trans hwrite₂
  obtain ⟨n, s₃, hputAll, hlen₃, hwrite₄⟩ := hi₃.putAll_fits (fun _ => blankHdr)
    (show _ = [] from rfl) (by decide)
    (by
      show (handleOn s₂.file _).writeOffset + _ + 8 ≤ s₂.file.len - 1
      rw [hwrite₃, hlen₂, hlen]
      decide)
  have hrun := hrun₂.tail (.putAll (fun _ => blankHdr) hputAll)
  obtain ⟨items₄, hi₄⟩ := Life.Step.run_inv hrun (Life.start_inv (fun _ => 9) (by decide) hnew)
  refine ⟨l, f, s₁, s₂, _, _, n, s₃, _, hnew, hcreate, hput, hreopen, hputAll, hrun, rfl, ?_, ?_, ?_⟩
  · show [] ++ [_] ++ [Event.mk (handleOn s₂.file _).writeOffset _ _] = _
    rw [hwrite, hwrite₃, hheap, hsize]
    rfl
  · have htail : word s₃.file.bytes tailOff = s₃.log.writeOffset :=
      hi₄.rep.tail_eq.trans hi₄.synced.write.symm
    refine (htail.trans hwrite₄).trans ?_
    show (handleOn s₂.file _).writeOffset + _ + 8 = _
    rw [hwrite₃]
    rfl
  · exact (hlen₃.trans hlen₂).trans hlen

/-- **A query for a pair that was never put faults.**  All appends of this run had space, yet the
    search for "b" ends on the empty batch and reads the `len` of a record at offset 104857623, behind
    the mapping, where `ID_NOT_FOUND` is due. -/
theorem absent_key_faults : ∃ l f s₁ s₂ l' f' n s₃, Log.ctor none logSize = .ok (l, f) ∧
    (NvsStore.ctor l f (fun _ => 9)).createObj [97] fillSize 4096 = .ok (.noError, 4096, s₁) ∧
    s₁.put blankHdr [97] 1 = .ok (.noError, s₂) ∧ Log.ctor (some s₂.file) 0 = .ok (l', f') ∧
    (NvsStore.ctor l' f' (fun _ => 0)).putAll (fun _ => blankHdr) = .ok (n, s₃) ∧
    ∀ wentry dst, ∃ N, ∀ fuel ≥ N, s₃.get wentry fuel [98] 1 dst = .error .segv := by
  obtain ⟨l, f, s₁, s₂, l', f', n, s₃, L, hnew, hcreate, hput, hreopen, hputAll, hrun, rfl, hevents,
    htail, hlen⟩ := full_log (show ShortKey [97] from by unfold ShortKey; decide)
  obtain ⟨items, hi⟩ := Life.Step.run_inv hrun (Life.start_inv (fun _ => 9) (by decide) hnew)
  have hnone : lookup [98] 1 items = none := by
    rw [hi.lookup_eq_none_iff, hevents]
    intro e he r hr
    simp only [List.mem_cons, List.not_mem_nil, or_false] at he
    rcases he with rfl | rfl
    · rw [List.mem_singleton.mp hr]
      show ¬ (keyField [97] = keyField [98] ∧ _)
      exact fun h => absurd h.1 (by decide)
    · cases hr
  have hout : ¬ SearchInside L.store.file [98] 1 32 items := by
    rw [hi.searchInside_iff]
    intro h
    have hroom := h hnone ⟨104857455, 0, .putAll []⟩ (by rw [hevents]; rfl) rfl
    rw [htail, hlen] at hroom
    exact absurd hroom (by decide)
  exact ⟨l, f, s₁, s₂, l', f', n, L.store, hnew, hcreate, hput, hreopen, hputAll,
    fun wentry dst => ⟨lookFuel items, fun fuel hfuel =>
      (NvsStore.getters_outside hi.rep hout wentry hfuel dst).1⟩⟩

/-! ## Snapshots -/

/-- After which `get` brings back `data` for a key and a version, whatever the heap holds then. -/
def NvsStore.Delivers (s : NvsStore) (key : Key) (version : UInt64) (data : List Byte) : Prop :=
  ∀ heap wentry dst, ∃ N, ∀ fuel ≥ N,
    NvsStore.get { s with heap := heap } wentry fuel key version dst =
      .ok (.noError, { s with heap := store heap dst data })

/-- The bytes of the first object, the one with the greatest key left out, that has the stored name
    and the version of `p`. -/
def NvsStore.standIn (s : NvsStore) (p : Key × Object) : Option (List Byte) :=
  (s.objectMap.entries.dropLast.find?
    (fun q => keyField q.1 = keyField p.1 ∧ q.2.version = p.2.version)).map
      (fun q => q.2.contents s.heap)

/-- A store delivers exactly what the search through its log finds. -/
theorem NvsStore.delivers_iff {s : NvsStore} {items : List Item}
    (hr : Rep s.file (encode (items.map Item.entry))) (hlook : LooksInside s.file items)
    (key : Key) (version : UInt64) (data : List Byte) :
    s.Delivers key version data ↔ (lookup key version items).map Rec.data = some data := by
  have hget : ∀ heap wentry fuel dst, lookFuel items ≤ fuel → _ :=
    fun heap wentry fuel dst hfuel =>
      NvsStore.get_eq (s := { s with heap := heap }) hr hlook wentry hfuel key version dst
  constructor
  · intro h
    cases hlk : lookup key version items with
    | none =>
      obtain ⟨N, hN⟩ := h s.heap blankWalk 0
      have h1 := hN (max N (lookFuel items)) (Nat.le_max_left _ _)
      rw [hget _ _ _ _ (Nat.le_max_right _ _), hlk] at h1
      simp at h1
    | some r =>
      -- the heap is arbitrary, so equal results mean equal bytes
      rw [Option.map_some]
      refine congrArg some (store_inj 0 (fun heap => ?_))
      obtain ⟨N, hN⟩ := h heap blankWalk 0
      have h1 := hN (max N (lookFuel items)) (Nat.le_max_left _ _)
      rw [hget _ _ _ _ (Nat.le_max_right _ _), hlk] at h1
      simp only [Except.ok.injEq, Prod.mk.injEq, true_and] at h1
      exact congrArg NvsStore.heap h1
  · intro h heap wentry dst
    obtain ⟨r, hlk, rfl⟩ := Option.map_eq_some_iff.mp h
    refine ⟨lookFuel items, fun fuel hfuel => ?_⟩
    rw [hget _ _ _ _ hfuel, hlk]

/-- With nothing earlier in the log to answer, a batch answers a query for one of its objects with
    that object's stand-in. -/
theorem lookup_snapshot {s : NvsStore} {items : List Item} {junk : LeHdr} {ws : List Written}
    {fits : (batchBytes ws).length < 2 ^ 64} {p : Key × Object}
    (hws : ws.map Written.toRec =
      s.objectMap.entries.map (fun p => p.2.recorded s.heap p.1 (p.2.version + 1)))
    (hfresh : ∀ it ∈ items, ∀ r ∈ it.recs,
      ¬ (keyField r.name = keyField p.1 ∧ r.version = p.2.version + 1)) :
    (lookup p.1 (p.2.version + 1) (items ++ [.multiple junk ws fits])).map Rec.data =
      s.standIn p := by
  have hearlier : (items.flatMap Item.visible).find?
      (Rec.matches (keyField p.1) (p.2.version + 1)) = none := by
    rw [List.find?_eq_none]
    intro r hr
    obtain ⟨it, hit, hr⟩ := List.mem_flatMap.mp hr
    rw [Rec.matches, decide_eq_true_iff]
    exact hfresh it hit r (it.visible_subset hr)
  have hvisible : [Item.multiple junk ws fits].flatMap Item.visible =
      s.objectMap.entries.dropLast.map (fun p => p.2.recorded s.heap p.1 (p.2.version + 1)) := by
    rw [List.flatMap_singleton, Item.visible, hws, List.map_dropLast]
  rw [lookup, List.flatMap_append, List.find?_append, hearlier, Option.none_or, hvisible,
    List.find?_map, Option.map_map, NvsStore.standIn]
  congr 1
  apply congrArg (fun g => List.find? g _)
  funext q
  show decide (keyField q.1 = keyField p.1 ∧ q.2.version + 1 = p.2.version + 1) = _
  rw [decide_eq_decide, UInt64.add_left_inj]

/-- For keys that are stored whole, an object other than the one with the greatest key is its own
    stand-in, and that one has none. -/
theorem NvsStore.standIn_iff {s : NvsStore} (hshort : ∀ p ∈ s.objectMap.entries, ShortKey p.1)
    {p : Key × Object} (hp : p ∈ s.objectMap.entries) :
    s.standIn p = some (p.2.contents s.heap) ↔ ∃ q ∈ s.objectMap.entries, p.1 < q.1 := by
  have hsame : ∀ q ∈ s.objectMap.entries, keyField q.1 = keyField p.1 → q = p := by
    intro q hq hkey
    rw [keyField_eq_self (hshort q hq).1 (hshort q hq).2,
      keyField_eq_self (hshort p hp).1 (hshort p hp).2] at hkey
    obtain ⟨k, o⟩ := q
    obtain rfl : k = p.1 := hkey
    rw [SortedMap.pair_unique s.objectMap.sorted hq hp]
  have hdrop := SortedMap.mem_dropLast_iff s.objectMap.sorted p
  constructor
  · intro h
    obtain ⟨q, hfind, _⟩ := Option.map_eq_some_iff.mp h
    have hq := List.mem_of_find?_eq_some hfind
    have hkey := (of_decide_eq_true (List.find?_some hfind :)).1
    rw [hsame q (List.mem_of_mem_dropLast hq) hkey] at hq
    exact (hdrop.mp hq).2
  · intro h
    have hmem := hdrop.mpr ⟨hp, h⟩
    unfold NvsStore.standIn
    cases hfind : s.objectMap.entries.dropLast.find?
        (fun q => keyField q.1 = keyField p.1 ∧ q.2.version = p.2.version) with
    | none => exact absurd (decide_eq_true ⟨rfl, rfl⟩) (List.find?_eq_none.mp hfind p hmem)
    | some q =>
      have hkey := (of_decide_eq_true (List.find?_some hfind :)).1
      rw [Option.map_some,
        hsame q (List.mem_of_mem_dropLast (List.mem_of_find?_eq_some hfind)) hkey]

/-- The first record of a log answers every query with its stored name and its version. -/
theorem Life.Inv.delivers_head {valid : Key → Prop} {L : Life} {w : Written} {items : List Item}
    (hi : L.Inv valid (.single w :: items))
    (hlast : ∀ it, (Item.single w :: items).getLast? = some it → it.recs ≠ []) {k : Key}
    (hk : keyField w.toRec.name = keyField k) :
    L.store.Delivers k w.toRec.version w.toRec.data := by
  have hlook := looksInside_of_rep hi.rep (fun it hit hempty => absurd hempty (hlast it hit))
  have hmatch : w.toRec.matches (keyField k) w.toRec.version = true := decide_eq_true ⟨hk, rfl⟩
  rw [NvsStore.delivers_iff hi.rep hlook, lookup, List.flatMap_cons, Item.visible,
    List.singleton_append, List.find?_cons_of_pos hmatch]
  rfl

/-- A snapshot with no earlier entry for an object's next version: `get` delivers what the object's
    stand-in holds. -/
theorem Life.Inv.delivers_snapshot {valid : Key → Prop} {L : Life} {items : List Item}
    (hi : L.Inv valid items) {junk : Nat → LeHdr} {n : Nat} {s' : NvsStore}
    (hput : L.store.putAll junk = .ok (n, s')) (hobj : L.store.objectMap.entries ≠ [])
    {p : Key × Object} (hfresh : ∀ e ∈ L.events, ∀ r ∈ e.what.recs,
      ¬ (keyField r.name = keyField p.1 ∧ r.version = p.2.version + 1)) (data : List Byte) :
    s'.Delivers p.1 (p.2.version + 1) data ↔ L.store.standIn p = some data := by
  obtain ⟨ws, fits, hws, hi'⟩ := hi.putAll hput
  have hr' : Rep s'.file (encode ((items ++ [Item.multiple (junk 0) ws fits]).map Item.entry)) :=
    hi'.rep
  have hlook : LooksInside s'.file (items ++ [.multiple (junk 0) ws fits]) := by
    apply looksInside_of_rep hr'
    intro it hlast hempty
    rw [List.getLast?_concat] at hlast
    obtain rfl := Option.some.inj hlast
    rw [Item.recs, hws, List.map_eq_nil_iff] at hempty
    exact absurd hempty hobj
  rw [NvsStore.delivers_iff hr' hlook, lookup_snapshot hws]
  intro it hit r hr
  obtain ⟨e, he, hre⟩ := hi.mem_events hit hr
  exact hfresh e he r hre

/-- **What a snapshot delivers.**  In every state of every run over keys of fewer than 20 bytes, with
    at least one object and no earlier entry for a next version: after a successful `put_all`, EVERY
    object can be read back with its bytes if and only if every object, the one with the greatest key
    included, has a stand-in with those bytes.  If no key contains a NUL, that object has none, and
    each object can be read back if and only if a greater key exists. -/
theorem snapshot_complete_iff {size : Nat} {l : Log} {f : File} {heap : Mem Byte}
    (hsize : sizeofLhdr ≤ size) (hnew : Log.ctor none size = .ok (l, f)) {L : Life}
    (hrun : Relation.ReflTransGen (Life.Step (fun k => k.length < keyLen)) (Life.start l f heap) L)
    (hobj : L.store.objectMap.entries ≠ [])
    (hfresh : ∀ e ∈ L.events, ∀ r ∈ e.what.recs, ∀ p ∈ L.store.objectMap.entries,
      ¬ (keyField r.name = keyField p.1 ∧ r.version = p.2.version + 1))
    {junk : Nat → LeHdr} {n : Nat} {s' : NvsStore} (hput : L.store.putAll junk = .ok (n, s')) :
    ((∀ p ∈ s'.objectMap.entries, s'.Delivers p.1 p.2.version (p.2.contents s'.heap)) ↔
      ∀ p ∈ L.store.objectMap.entries, L.store.standIn p = some (p.2.contents L.store.heap)) ∧
    ((∀ p ∈ L.store.objectMap.entries, (0 : Byte) ∉ p.1) →
      ∀ p ∈ s'.objectMap.entries, (s'.Delivers p.1 p.2.version (p.2.contents s'.heap) ↔
        ∃ q ∈ s'.objectMap.entries, p.1 < q.1)) := by
  obtain ⟨items, hi⟩ := Life.Step.run_inv hrun (Life.start_inv heap hsize hnew)
  obtain ⟨_, _, _, _, _, _, hheap, _, hmap, _⟩ := NvsStore.putAll_ok hi.rep hi.synced hput
  -- one object at a time: the snapshot delivers it exactly when its stand-in has its bytes
  have hone : ∀ k o, (k, o) ∈ L.store.objectMap.entries →
      (s'.Delivers k (o.setVersion (o.version + 1)).version
        ((o.setVersion (o.version + 1)).contents s'.heap) ↔
        L.store.standIn (k, o) = some (o.contents L.store.heap)) := by
    intro k o hmem
    rw [Object.contents_setVersion, hheap]
    exact hi.delivers_snapshot hput hobj (fun e he r hr => hfresh e he r hr (k, o) hmem) _
  have hmem : ∀ k o', (k, o') ∈ s'.objectMap.entries ↔
      ∃ o, (k, o) ∈ L.store.objectMap.entries ∧ o' = o.setVersion (o.version + 1) := by
    intro k o'
    rw [hmap, SortedMap.mem_mapVal]
  refine ⟨⟨?_, ?_⟩, ?_⟩
  · rintro h ⟨k, o⟩ hp
    exact (hone k o hp).mp (h (k, _) ((hmem k _).mpr ⟨o, hp, rfl⟩))
  · rintro h ⟨k, o'⟩ hp
    obtain ⟨o, ho, rfl⟩ := (hmem k o').mp hp
    exact (hone k o ho).mpr (h (k, o) ho)
  · rintro hnul ⟨k, o'⟩ hp
    obtain ⟨o, ho, rfl⟩ := (hmem k o').mp hp
    refine (hone k o ho).trans ((NvsStore.standIn_iff (fun p hp => ⟨(hi.named p hp).2, hnul p hp⟩)
      ho).trans ⟨?_, ?_⟩)
    · rintro ⟨⟨k', o'⟩, hq, hlt⟩
      exact ⟨(k', _), (hmem k' _).mpr ⟨o', hq, rfl⟩, hlt⟩
    · rintro ⟨⟨k', o''⟩, hq, hlt⟩
      obtain ⟨o', ho', rfl⟩ := (hmem k' o'').mp hq
      exact ⟨(k', o'), ho', hlt⟩

/-- The one object of a store, snapshotted: its run, and the state after `put_all`. -/
theorem one_snapshot : ∃ l f s₁ n s₂, Log.ctor none logSize = .ok (l, f) ∧
    (NvsStore.ctor l f (fun _ => 9)).createObj [97] 4 4096 = .ok (.noError, 4096, s₁) ∧
    s₁.objectMap.entries = [([97], Object.ctor [97] 4 0 4096)] ∧
    s₁.putAll (fun _ => blankHdr) = .ok (n, s₂) ∧
    Relation.ReflTransGen (Life.Step (fun k => k.length < keyLen)) (Life.start l f (fun _ => 9))
      ⟨s₁, []⟩ := by
  obtain ⟨l, f, s₁, hnew, hcreate, hentries, _, _, hr, hs, hlen⟩ := one_object [97] 4
  have hobjs : s₁.objectMap.entries.map Prod.snd = [Object.ctor [97] 4 0 4096] := by
    rw [hentries]
    rfl
  obtain ⟨n, s₂, hput⟩ := NvsStore.putAll_of_fits hr hs (fun _ => blankHdr) hobjs (by decide)
    (by rw [hlen]; decide)
  exact ⟨l, f, s₁, n, s₂, hnew, hcreate, hentries, hput,
    .single (.createObj [97] 4 4096 (by decide) hcreate)⟩

/-- **A snapshot of one object cannot be read back**: the object's version is 1 after `put_all`, and
    `get` of the key at version 1 reports `ID_NOT_FOUND`. -/
theorem snapshot_loses_the_only_object :
    ∃ l f s₁ n s₂, Log.ctor none logSize = .ok (l, f) ∧
      (NvsStore.ctor l f (fun _ => 9)).createObj [97] 4 4096 = .ok (.noError, 4096, s₁) ∧
      s₁.putAll (fun _ => blankHdr) = .ok (n, s₂) ∧
      (∃ o, s₂.objectMap.entries = [([97], o)] ∧ o.version = 1) ∧
      ∃ N, ∀ fuel ≥ N, s₂.get blankWalk fuel [97] 1 8192 = .ok (.idNotFound, s₂) := by
  obtain ⟨l, f, s₁, n, s₂, hnew, hcreate, hentries, hput, hrun⟩ := one_snapshot
  obtain ⟨items, hi⟩ := Life.Step.run_inv hrun (Life.start_inv (fun _ => 9) (by decide) hnew)
  obtain rfl : items = [] := by
    cases items with
    | nil => rfl
    | cons it items => cases hi.events
  obtain ⟨_, _, _, _, _, _, _, _, hmap, _⟩ := NvsStore.putAll_ok hi.rep hi.synced hput
  obtain ⟨ws, fits, hws, hi'⟩ := hi.putAll hput
  have hone : ws.map Written.toRec =
      [(Object.ctor [97] 4 0 4096).recorded s₁.heap [97] 1] := by
    rw [hws, hentries]
    rfl
  have hr' : Rep s₂.file (encode ([Item.multiple blankHdr ws fits].map Item.entry)) := hi'.rep
  have hlook : LooksInside s₂.file [Item.multiple blankHdr ws fits] := by
    apply looksInside_of_rep hr'
    intro it hlast hempty
    obtain rfl := Option.some.inj hlast
    have hnil : ws.map Written.toRec = [] := hempty
    rw [hone] at hnil
    cases hnil
  refine ⟨l, f, s₁, n, s₂, hnew, hcreate, hput,
    ⟨(Object.ctor [97] 4 0 4096).setVersion 1, ?_, rfl⟩,
    lookFuel [Item.multiple blankHdr ws fits], fun fuel hfuel => ?_⟩
  · rw [hmap]
    show s₁.objectMap.entries.map _ = _
    rw [hentries]
    rfl
  · have hnothing : lookup [97] 1 [Item.multiple blankHdr ws fits] = none := by
      rw [lookup, List.flatMap_singleton, Item.visible, hone]
      rfl
    rw [NvsStore.get_eq hr' hlook blankWalk hfuel, hnothing]

/-- The same store, through the general statement. -/
theorem snapshot_complete_iff_one_object :
    ∃ l f s₁ n s₂, Log.ctor none logSize = .ok (l, f) ∧
      (NvsStore.ctor l f (fun _ => 9)).createObj [97] 4 4096 = .ok (.noError, 4096, s₁) ∧
      s₁.putAll (fun _ => blankHdr) = .ok (n, s₂) ∧
      ¬ ∀ p ∈ s₂.objectMap.entries, s₂.Delivers p.1 p.2.version (p.2.contents s₂.heap) := by
  obtain ⟨l, f, s₁, n, s₂, hnew, hcreate, hentries, hput, hrun⟩ := one_snapshot
  refine ⟨l, f, s₁, n, s₂, hnew, hcreate, hput, ?_⟩
  rw [(snapshot_complete_iff (by decide) hnew hrun (by rw [hentries]; exact List.cons_ne_nil _ _)
    (fun e he => absurd he List.not_mem_nil) hput).1]
  intro h
  have hstand := h ([97], Object.ctor [97] 4 0 4096) (by rw [hentries]; exact List.mem_cons_self)
  unfold NvsStore.standIn at hstand
  rw [hentries] at hstand
  cases hstand

end NvStream
