/-
  Whether a snapshot's versions are new.

  `put_all` records every object under the version behind its own, and the search of `get` stops at
  the FIRST record of a key and a version.  So a snapshot can be read only if the log does not carry
  its pairs already.  The counter that is to ensure this is volatile: `put` sets it to its argument,
  `put_all` advances it, but `create_obj` starts it at 0 whatever the log holds, and
  `get_with_malloc` sets it to the version that was READ.

  * `Life.Current`: no record of a key is newer than the key's object.  A careful call keeps it
    (`Careful.lt`, `Careful.le`), and then no snapshot repeats a pair (`snapshot_versions_fresh`).
  * `restart_reuses_a_version`: after a restart, re-creating the object is enough to break it, and
    `get` of the version just snapshotted returns the bytes of the previous process.
-/
import NvStream.NvsStore.Calls
import NvStream.NvsStore.RoundTrip

namespace NvStream

open FlatMem LittleEndian LoadProg PersistTrace

/-! ## Fresh snapshots -/

/-- No snapshot records a key and a version that an earlier entry carries. -/
def FreshSnapshots (events : List Event) : Prop :=
  events.Pairwise (fun e' e => ∀ rs, e.what = .putAll rs → ∀ r ∈ rs, ∀ r' ∈ e'.what.recs,
    ¬ (r'.name = r.name ∧ r'.version = r.version))

namespace Life

/-- Every record in the log. -/
def records (L : Life) : List Rec := L.events.flatMap (fun e => e.what.recs)

/-- The versions of explicit puts rise: a `put` uses a version above all those recorded for its
    key. -/
def Rising (L : Life) : Call → Prop
  | .put _ key version => ∀ r ∈ L.records, r.name = key → r.version < version
  | _ => True

/-- What keeps the counters ahead of the log.  Besides rising puts: `create_obj` is called for keys
    without a recorded version (or with version 0 only), `get_with_malloc` for the newest version of
    its key, and `put_all` while no counter is at its maximum. -/
def Careful (L : Life) : Call → Prop
  | .createObj key _ _ => ∀ r ∈ L.records, r.name = key → r.version = 0
  | .put _ key version => ∀ r ∈ L.records, r.name = key → r.version < version
  | .putAll _ => ∀ p ∈ L.store.objectMap.entries, p.2.version + 1 ≠ 0
  | .getWithMalloc _ _ key version _ => ∀ r ∈ L.records, r.name = key → r.version ≤ version
  | _ => True

/-- No record is newer than the object of its key, and the snapshots so far were fresh. -/
structure Current (L : Life) : Prop where
  newest : ∀ p ∈ L.store.objectMap.entries, ∀ r ∈ L.records, r.name = p.1 →
    r.version ≤ p.2.version
  fresh : FreshSnapshots L.events

variable {L L' : Life}

theorem records_after (L : Life) (c : Call) (s' : NvsStore) :
    (L.after c s').records = L.records ++ c.records L.store := List.flatMap_append

/-- The version a careful call gives to a key is at least every version recorded for it. -/
theorem Careful.le {c : Call} (hc : L.Careful c) (hi : L.Current) {k : Key} {v : UInt64}
    (hv : c.givenVersion L.store k = some v) {r : Rec} (hr : r ∈ L.records) (hk : r.name = k) :
    r.version ≤ v := by
  cases c with
  | createObj key size tmpPtr =>
    obtain ⟨hkey, hv⟩ := Option.ite_none_right_eq_some.mp hv
    rw [hc r hr (hk.trans hkey)]
    exact UInt64.zero_le
  | put lEntry key version =>
    obtain ⟨hkey, hv⟩ := Option.ite_none_right_eq_some.mp hv
    rw [← Option.some.inj hv]
    exact UInt64.le_of_lt (hc r hr (hk.trans hkey))
  | getWithMalloc wentry fuel key version tmpPtr =>
    obtain ⟨hkey, hv⟩ := Option.ite_none_right_eq_some.mp hv
    rw [← Option.some.inj hv]
    exact hc r hr (hk.trans hkey)
  | putAll lEntry =>
    obtain ⟨obj, hfind, rfl⟩ := Option.map_eq_some_iff.mp hv
    have hobj := (SortedMap.find?_eq_some _ _ _).mp hfind
    have hle : r.version ≤ obj.version := hi.newest (k, obj) hobj r hr hk
    have hne : obj.version + 1 ≠ 0 := hc (k, obj) hobj
    grind
  | freeObj | get | appWrite => cases hv

/-- What a careful call records is strictly newer than everything recorded for the key. -/
theorem Careful.lt {c : Call} (hc : L.Careful c) (hi : L.Current) {r r' : Rec}
    (hr : r ∈ c.records L.store) (hr' : r' ∈ L.records) (hk : r'.name = r.name) :
    r'.version < r.version := by
  have hv := Call.version_of_record hr
  cases c with
  | put lEntry key version =>
    obtain ⟨hkey, hv⟩ := Option.ite_none_right_eq_some.mp hv
    rw [← Option.some.inj hv]
    exact hc r' hr' (hk.trans hkey)
  | putAll lEntry =>
    obtain ⟨obj, hfind, hver⟩ := Option.map_eq_some_iff.mp hv
    have hobj := (SortedMap.find?_eq_some _ _ _).mp hfind
    have hle : r'.version ≤ obj.version := hi.newest (r.name, obj) hobj r' hr' hk
    have hne : obj.version + 1 ≠ 0 := hc (r.name, obj) hobj
    rw [← hver]
    grind
  | createObj | freeObj | get | getWithMalloc | appWrite => exact absurd hr List.not_mem_nil

/-- A careful call keeps every object ahead of the records of its key. -/
theorem Current.call {c : Call} {r : Reply} {s' : NvsStore} (hi : L.Current) (hc : L.Careful c)
    (h : L.store.call c = .ok (r, s')) : (L.after c s').Current := by
  refine ⟨?_, ?_⟩
  · intro p hp r hr hk
    rw [records_after] at hr
    rcases NvsStore.mem_after_call h hp with hgiven | ⟨hold, hother⟩
    · rcases List.mem_append.mp hr with hr | hr
      · exact hc.le hi hgiven hr hk
      · rw [← hk, Call.version_of_record hr] at hgiven
        rw [Option.some.inj hgiven]
        exact UInt64.le_refl _
    · rcases List.mem_append.mp hr with hr | hr
      · exact hi.newest p hold r hr hk
      · exact absurd hk (hother r hr)
  · show FreshSnapshots (L.events ++ c.events L.store)
    refine List.pairwise_append.mpr ⟨hi.fresh, ?_, ?_⟩
    · -- a call leaves at most one entry
      cases c with
      | put lEntry key version =>
        rw [Call.events]
        cases L.store.objectMap.find? key with
        | none => exact .nil
        | some obj => exact List.pairwise_singleton _ _
      | putAll lEntry => exact List.pairwise_singleton _ _
      | createObj | freeObj | get | getWithMalloc | appWrite => exact .nil
    · rintro e' he' e he rs hrs r hr r' hr' ⟨hname, hver⟩
      have hnew : r ∈ c.records L.store :=
        List.mem_flatMap.mpr ⟨e, he, by rw [hrs]; exact hr⟩
      have hlt := hc.lt hi hnew (List.mem_flatMap.mpr ⟨e', he', hr'⟩) hname
      rw [hver] at hlt
      exact UInt64.lt_irrefl _ hlt

/-- A careful run keeps the counters ahead of the log. -/
theorem Run.current {ok : Life → Call → Prop} (hok : ∀ L c, ok L c → L.Careful c)
    (h : Relation.ReflTransGen (Run ok) L L') (hi : L.Current) : L'.Current := by
  refine Runs.invariant ?_ h hi
  intro a b hstep hi
  cases hstep with
  | call c hc h => exact hi.call (hok _ _ hc) h
  | restart heap h => exact ⟨fun p hp => absurd hp List.not_mem_nil, hi.fresh⟩

end Life

/-! ## The snapshot just taken -/

/-- Over keys with different stored names an object can only stand in for itself. -/
theorem NvsStore.eq_of_standIn {s : NvsStore} {p : Key × Object} {data : List Byte}
    (hinj : ∀ q ∈ s.objectMap.entries, keyField q.1 = keyField p.1 → q.1 = p.1)
    (hp : p ∈ s.objectMap.entries) (h : s.standIn p = some data) : data = p.2.contents s.heap := by
  obtain ⟨q, hfind, rfl⟩ := Option.map_eq_some_iff.mp h
  have hq := List.mem_of_mem_dropLast (List.mem_of_find?_eq_some hfind)
  have hkey := hinj q hq (of_decide_eq_true (List.find?_some hfind :)).1
  obtain ⟨k, o⟩ := q
  obtain rfl : k = p.1 := hkey
  rw [SortedMap.pair_unique s.objectMap.sorted hq hp]

/-- **Snapshot versions are fresh**, in every state of every run of careful calls: no snapshot
    records a pair that an earlier entry carries.  And if different keys have different stored
    names, a `get` of the version just snapshotted returns the bytes just snapshotted or none. -/
theorem snapshot_versions_fresh {valid : Key → Prop} {size : Nat} {l : Log} {f : File}
    {heap : Mem Byte} (hsize : sizeofLhdr ≤ size) (hnew : Log.ctor none size = .ok (l, f)) {L : Life}
    (hrun : Relation.ReflTransGen (Life.Run (fun L c => L.Careful c ∧ ∀ k ∈ c.keys, valid k))
      (Life.start l f heap) L) :
    FreshSnapshots L.events ∧
    ((∀ k k', valid k → valid k' → keyField k = keyField k' → k = k') →
      ∀ junk n s', L.Careful (.putAll junk) → L.store.putAll junk = .ok (n, s') →
        ∀ p ∈ s'.objectMap.entries, ∀ data, s'.Delivers p.1 p.2.version data →
          data = p.2.contents s'.heap) := by
  have hcur : L.Current := Life.Run.current (fun _ _ h => h.1) hrun
    ⟨fun p hp => absurd hp List.not_mem_nil, .nil⟩
  refine ⟨hcur.fresh, ?_⟩
  rintro hinj junk n s' hcareful hput ⟨k, o'⟩ hp data hdel
  obtain ⟨items, hi⟩ := Life.Run.inv (fun _ _ h => h.2) hsize hnew hrun
  obtain ⟨_, _, _, _, _, _, hheap, _, hmap, _⟩ := NvsStore.putAll_ok hi.rep hi.synced hput
  rw [hmap, SortedMap.mem_mapVal] at hp
  obtain ⟨o, ho, rfl⟩ := hp
  have hfresh : ∀ e ∈ L.events, ∀ r ∈ e.what.recs,
      ¬ (keyField r.name = keyField k ∧ r.version = o.version + 1) := by
    rintro e he r hr ⟨hname, hver⟩
    have hkey := hinj _ _ (hi.valid_event he hr) (hi.named (k, o) ho).2 hname
    have hle : r.version ≤ o.version :=
      hcur.newest (k, o) ho r (List.mem_flatMap.mpr ⟨e, he, hr⟩) hkey
    have hne : o.version + 1 ≠ 0 := hcareful (k, o) ho
    grind
  have hstand : L.store.standIn (k, o) = some data :=
    (hi.delivers_snapshot (p := (k, o)) hput (List.ne_nil_of_mem ho) hfresh data).mp hdel
  have hdata : data = o.contents L.store.heap := NvsStore.eq_of_standIn
    (fun q hq hname => hinj _ _ (hi.named q hq).2 (hi.named (k, o) ho).2 hname) ho hstand
  rw [hdata, hheap]
  exact (o.contents_setVersion _ _).symm

theorem Life.careful_putAll_one {L : Life} {k : Key} {o : Object}
    (h : L.store.objectMap.entries = [(k, o)]) (ho : o.version + 1 ≠ 0) (junk : Nat → LeHdr) :
    L.Careful (.putAll junk) := by
  intro p hp
  rw [h] at hp
  rw [List.mem_singleton.mp hp]
  exact ho

/-- An object snapshotted twice gets two versions. -/
theorem snapshot_versions_fresh_two_snapshots : ∃ l f L, Log.ctor none logSize = .ok (l, f) ∧
    Relation.ReflTransGen (Life.Run (fun L c => L.Careful c ∧ ∀ k ∈ c.keys, True))
      (Life.start l f (fun _ => 9)) L ∧
    L.records.map (fun r => (r.name, r.version)) = [([97], 1), ([97], 2)] ∧
    FreshSnapshots L.events := by
  obtain ⟨l, f, s₁, hnew, hcreate, hentries, _, hheap, hr, hs, hlen⟩ := one_object [97] 4
  have hobjs : s₁.objectMap.entries.map Prod.snd = [Object.ctor [97] 4 0 4096] := by
    rw [hentries]
    rfl
  obtain ⟨n, s₂, hput⟩ := NvsStore.putAll_of_fits hr hs (fun _ => blankHdr) hobjs (by decide)
    (by rw [hlen]; decide)
  obtain ⟨ws, fits, hws, hr₂, hs₂, hlen₂, _, _, hmap, _⟩ := NvsStore.putAll_ok hr hs hput
  have hentries₂ : s₂.objectMap.entries = [([97], (Object.ctor [97] 4 0 4096).setVersion 1)] := by
    rw [hmap]
    show s₁.objectMap.entries.map _ = _
    rw [hentries]
    rfl
  have hobjs₂ : s₂.objectMap.entries.map Prod.snd =
      [(Object.ctor [97] 4 0 4096).setVersion 1] := by
    rw [hentries₂]
    rfl
  have hbody : ([] ++ (Item.multiple blankHdr ws fits).entry.frame).length = 284 := by
    rw [List.nil_append, Entry.length_frame, Item.len_multiple, hws, hobjs, NvsStore.length_batch]
    decide
  obtain ⟨n₂, s₃, hput₂⟩ := NvsStore.putAll_of_fits hr₂ hs₂ (fun _ => blankHdr) hobjs₂ (by decide)
    (by rw [hlen₂, hlen, hbody]; decide)
  have hrun : Relation.ReflTransGen (Life.Run (fun L c => L.Careful c ∧ ∀ k ∈ c.keys, True))
      (Life.start l f (fun _ => 9)) _ :=
    .tail (.tail (.single (.call (.createObj [97] 4 4096)
      ⟨fun r hr => absurd hr List.not_mem_nil, fun _ _ => trivial⟩
      (NvsStore.call_createObj hcreate)))
      (.call (.putAll (fun _ => blankHdr)) ⟨Life.careful_putAll_one hentries (by decide) _,
        fun _ _ => trivial⟩ (NvsStore.call_putAll hput)))
      (.call (.putAll (fun _ => blankHdr)) ⟨Life.careful_putAll_one hentries₂ (by decide) _,
        fun _ _ => trivial⟩ (NvsStore.call_putAll hput₂))
  refine ⟨l, f, _, hnew, hrun, ?_, (snapshot_versions_fresh (by decide) hnew hrun).1⟩
  show List.map _ (List.flatMap _ ((([] ++ []) ++ (Call.putAll (fun _ => blankHdr)).events s₁) ++
    (Call.putAll (fun _ => blankHdr)).events s₂)) = _
  rw [Call.events, Call.events, hentries, hentries₂]
  rfl

/-! ### A version given twice -/

/-- A snapshot behind a put of its pair is not fresh. -/
theorem not_fresh_of_repeat {events : List Event} {r₁ r₂ : Rec}
    (hwhat : events.map Event.what = [.put r₁, .putAll [r₂]]) (hname : r₁.name = r₂.name)
    (hversion : r₁.version = r₂.version) : ¬ FreshSnapshots events := by
  obtain ⟨e₁, es, rfl, hw₁, hes⟩ := List.map_eq_cons_iff.mp hwhat
  obtain ⟨e₂, _, rfl, hw₂, _⟩ := List.map_eq_cons_iff.mp hes
  intro hfresh
  have hfirst : r₁ ∈ e₁.what.recs := by
    rw [hw₁]
    exact List.mem_singleton.mpr rfl
  exact (List.pairwise_cons.mp hfresh).1 e₂ List.mem_cons_self _ hw₂ _
    (List.mem_singleton.mpr rfl) _ hfirst ⟨hname, hversion⟩

/-- A snapshot behind a put leaves the put's record to be read. -/
theorem Life.Inv.delivers_put {valid : Key → Prop} {L : Life} {items : List Item} {r₁ r₂ : Rec}
    (hi : L.Inv valid items) (hwhat : L.events.map Event.what = [.put r₁, .putAll [r₂]]) :
    L.store.Delivers r₁.name r₁.version r₁.data := by
  rw [hi.events, map_what_eventsFrom] at hwhat
  obtain ⟨it₁, its, rfl, hw₁, hits⟩ := List.map_eq_cons_iff.mp hwhat
  obtain ⟨it₂, _, rfl, hw₂, hnil⟩ := List.map_eq_cons_iff.mp hits
  obtain rfl := List.map_eq_nil_iff.mp hnil
  cases it₁ with
  | multiple junk ws fits => cases hw₁
  | single w =>
    obtain rfl : w.toRec = r₁ := Recorded.put.inj hw₁
    refine hi.delivers_head (fun it hlast hempty => ?_) rfl
    have hit : it₂ = it := Option.some.inj hlast
    rw [← hit, ← it₂.recs_what, hw₂] at hempty
    cases hempty

/-- **A restart gives out a version again.**  The object "a" is put as version 1, the process
    restarts and re-creates it, and a snapshot records version 1 once more.  A `get` of the version
    just snapshotted returns the bytes of the first process. -/
theorem restart_reuses_a_version : ∃ l f L r₁ r₂, Log.ctor none logSize = .ok (l, f) ∧
    Relation.ReflTransGen (Life.Run Life.Rising) (Life.start l f (fun _ => 9)) L ∧
    L.events.map Event.what = [.put r₁, .putAll [r₂]] ∧
    r₁.name = [97] ∧ r₂.name = [97] ∧ r₁.version = 1 ∧ r₂.version = 1 ∧
    r₁.data = [9, 9, 9, 9] ∧ r₂.data = [5, 5, 5, 5] ∧
    (∃ o, L.store.objectMap.entries = [([97], o)] ∧ o.version = 1) ∧
    ¬ FreshSnapshots L.events ∧ L.store.Delivers [97] 1 [9, 9, 9, 9] := by
  obtain ⟨l, f, s₁, s₂, hnew, hcreate, hput, hobj, hheap, _, hr₂, hlen₂⟩ := one_put [97] 1
  have hev : (Call.put blankHdr [97] 1).events s₁ = [⟨s₁.log.writeOffset, 4,
      .put ((Object.ctor [97] 4 0 4096).recorded (fun _ => 9) [97] 1)⟩] := by
    rw [Call.events, hobj, hheap]
    rfl
  have hbody := length_one_put [97] 1
  generalize encode _ = body at hr₂ hbody
  -- the second process: re-create the object, and snapshot it
  obtain ⟨s₄, hs₄⟩ : ∃ s₄, (NvsStore.ctor (handleOn s₂.file body) s₂.file (fun _ => 5)).createObj
      [97] 4 4096 = .ok (.noError, 4096, s₄) ∧ s₄.file = s₂.file ∧ s₄.log = handleOn s₂.file body ∧
      s₄.heap = (fun _ => 5) ∧ s₄.objectMap.entries = [([97], Object.ctor [97] 4 0 4096)] :=
    ⟨_, rfl, rfl, rfl, rfl, rfl⟩
  obtain ⟨hcreate₄, hfile₄, hlog₄, hheap₄, hentries₄⟩ := hs₄
  have hr₄ : Rep s₄.file body := by rw [hfile₄]; exact hr₂
  have hs₄ : s₄.log.Synced s₄.file body := by rw [hlog₄, hfile₄]; exact handleOn_synced _ _
  have hobjs : s₄.objectMap.entries.map Prod.snd = [Object.ctor [97] 4 0 4096] := by
    rw [hentries₄]
    rfl
  obtain ⟨n, s₅, hputAll⟩ := NvsStore.putAll_of_fits hr₄ hs₄ (fun _ => blankHdr) hobjs (by decide)
    (by rw [hfile₄, hlen₂, hbody]; decide)
  have hrun : Relation.ReflTransGen (Life.Run Life.Rising) (Life.start l f (fun _ => 9)) _ :=
    .tail (.tail (.tail (.tail (.single (.call (.createObj [97] 4 4096) trivial
      (NvsStore.call_createObj hcreate)))
      (.call (.put blankHdr [97] 1) (fun r hr => absurd hr List.not_mem_nil)
        (NvsStore.call_put hput)))
      (.restart (fun _ => 5) (ctor_reopen hr₂)))
      (.call (.createObj [97] 4 4096) trivial (NvsStore.call_createObj hcreate₄)))
      (.call (.putAll (fun _ => blankHdr)) trivial (NvsStore.call_putAll hputAll))
  generalize hL : Life.after _ (Call.putAll (fun _ => blankHdr)) s₅ = L at hrun
  have hstore : L.store = s₅ := by rw [← hL]; rfl
  have hwhat : L.events.map Event.what =
      [.put ((Object.ctor [97] 4 0 4096).recorded (fun _ => 9) [97] 1),
        .putAll [(Object.ctor [97] 4 0 4096).recorded (fun _ => 5) [97] 1]] := by
    rw [← hL]
    show List.map _ ((([] ++ [] ++ (Call.put blankHdr [97] 1).events s₁) ++ []) ++
      (Call.putAll (fun _ => blankHdr)).events s₄) = _
    rw [hev, Call.events, hentries₄, hheap₄]
    rfl
  refine ⟨l, f, L, _, _, hnew, hrun, hwhat, rfl, rfl, rfl, rfl, rfl, rfl, ?_, ?_, ?_⟩
  · refine ⟨(Object.ctor [97] 4 0 4096).setVersion 1, ?_, rfl⟩
    rw [hstore, NvsStore.putAll_map hputAll]
    show s₄.objectMap.entries.map _ = _
    rw [hentries₄]
    rfl
  · exact not_fresh_of_repeat hwhat rfl rfl
  · have hinv : ∃ items, L.Inv (fun _ => True) items :=
      Life.Run.inv (fun _ _ _ _ _ => trivial) (by decide) hnew hrun
    obtain ⟨items, hi⟩ := hinv
    have hdata : ((Object.ctor [97] 4 0 4096).recorded (fun _ => 9) [97] 1).data = [9, 9, 9, 9] :=
      rfl
    have hdel := hi.delivers_put hwhat
    rw [hdata] at hdel
    exact hdel

end NvStream
