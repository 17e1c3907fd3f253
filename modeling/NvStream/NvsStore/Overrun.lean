/-
  How much `get_with_malloc` copies.

  The length of its `memcpy` is that of the RECORD it found in the log.  The buffer is that of the
  OBJECT it found in `objectMap`, or of a new one made to measure.  Nothing compares the two: an object
  that was freed and created again with another size, or that shares its stored name with another, may
  be smaller than a record of it.

  * `copyLen_spec`: what is copied is a record of the stored name and the version.
  * `Life.SizesKept`: if an application never gives a stored name two sizes, all objects and all
    records of it have that size; a new object made from a record has it, too.
  * `malloc_copy_fits`: along such runs; and in any run, what answers a query decides.
-/
import NvStream.NvsStore.Calls
import NvStream.NvsStore.Getters
import NvStream.NvsStore.KeyIdentity

namespace NvStream

open FlatMem LittleEndian LoadProg PersistTrace

/-! ## One call -/

/-- On an empty log nothing is copied, unless junk says so. -/
theorem NvsStore.copyLen_empty {s : NvsStore} (hr : Rep s.file []) {wentry : WalkEntry}
    (herr : wentry.err ≠ .noError) (fuel : Nat) (key : Key) (version : UInt64) :
    s.copyLen wentry fuel key version = none := by
  unfold NvsStore.copyLen
  simp only [walk_empty hr, walkEntry, if_pos herr]

/-- **What is copied is a record**: on a log with entries, the one the search finds. -/
theorem NvsStore.copyLen_spec {s : NvsStore} {items : List Item}
    (hr : Rep s.file (encode (items.map Item.entry))) (hne : items ≠ []) {wentry : WalkEntry}
    {fuel : Nat} {key : Key} {version : UInt64} {n : Nat}
    (h : s.copyLen wentry fuel key version = some n) :
    ∃ r, lookup key version items = some r ∧ n = r.data.length := by
  unfold NvsStore.copyLen at h
  split at h
  · cases h
  · rename_i code w cursor hrun
    have hfound := (found_of_walk hr hrun).2 hne
    split at h
    · cases h
    · rename_i herr
      cases hlk : lookup key version items with
      | none =>
        rw [hlk] at hfound
        have hnot : w.err = .idNotFound := hfound
        rw [hnot] at herr
        exact absurd (by decide) herr
      | some r =>
        rw [hlk] at hfound
        exact ⟨r, rfl, (Option.some.inj h).symm.trans hfound.2.1⟩

/-- **When nothing is copied**, in terms of the log: nothing in it answers the query, and if it is
    empty, the junk in `err` does not say otherwise. -/
theorem Life.Inv.copyLen_eq_none_iff {valid : Key → Prop} {L : Life} {items : List Item}
    (hi : L.Inv valid items) {wentry : WalkEntry} {fuel tmpPtr : Nat} {key : Key}
    {version : UInt64} {a : ErrorCode × Option Nat × NvsStore}
    (hok : L.store.getWithMalloc wentry fuel key version tmpPtr = .ok a) :
    L.store.copyLen wentry fuel key version = none ↔
      (L.events = [] → wentry.err ≠ .noError) ∧ L.answer key version = none := by
  rw [← hi.lookup_eq]
  by_cases hne : items = []
  · subst hne
    have hevents : L.events = [] := hi.events
    unfold NvsStore.copyLen
    simp only [walk_empty hi.rep, NvsStore.walkEntry, hevents, forall_const]
    by_cases herr : wentry.err = .noError
    · simp [herr]
    · simp [herr, lookup]
  · have hevents : L.events ≠ [] := fun hnone => hne (hi.items_eq_nil hnone)
    constructor
    · intro hnone
      refine ⟨fun h => absurd h hevents, ?_⟩
      cases hlk : lookup key version items with
      | none => rfl
      | some r =>
        -- the walk has come to an end, hence at the record
        unfold NvsStore.getWithMalloc at hok
        split at hok
        · cases hok
        · rename_i code w cursor hrun
          have hfound := (found_of_walk hi.rep hrun).2 hne
          rw [hlk] at hfound
          unfold NvsStore.copyLen at hnone
          rw [hrun] at hnone
          dsimp only at hnone
          rw [if_neg (not_not_intro hfound.1)] at hnone
          cases hnone
    · rintro ⟨_, hlk⟩
      cases hlen : L.store.copyLen wentry fuel key version with
      | none => rfl
      | some n =>
        obtain ⟨r, hr, _⟩ := NvsStore.copyLen_spec hi.rep hne hlen
        rw [hlk] at hr
        cases hr

/-- `get_with_malloc` has copied `n` bytes to `p`, the buffer of the object it has filed. -/
structure NvsStore.Copied (s s' : NvsStore) (wentry : WalkEntry) (fuel : Nat) (key : Key)
    (version : UInt64) (p n : Nat) (obj : Object) : Prop where
  len : s.copyLen wentry fuel key version = some n
  object : s'.objectMap.find? key = some obj
  buffer : obj.ptr = p

/-- The object `get_with_malloc` files has the size of the object it found; a new one has room for
    what is copied. -/
theorem NvsStore.copied_of_ok {s s' : NvsStore} {wentry : WalkEntry} {fuel tmpPtr p : Nat} {key : Key}
    {version : UInt64}
    (h : s.getWithMalloc wentry fuel key version tmpPtr = .ok (.noError, some p, s')) :
    ∃ n obj, s.Copied s' wentry fuel key version p n obj ∧
      (∀ old, s.objectMap.find? key = some old → obj.size = old.size) ∧
      (s.objectMap.find? key = none → obj.size = UInt64.ofNat n) := by
  rcases NvsStore.getWithMalloc_cases h with ⟨_, hcode, _⟩ | ⟨data, hlen, _, haddr, rfl⟩
  · cases hcode
  · refine ⟨data.length, s.loaded key version tmpPtr data.length, ⟨hlen, ?_, ?_⟩, ?_, ?_⟩
    · rw [SortedMap.find?_insert, if_pos rfl]
    · rw [Option.some.inj haddr]
      unfold NvsStore.loaded NvsStore.targetOf
      cases s.objectMap.find? key <;> rfl
    · intro old hold
      unfold NvsStore.loaded
      rw [hold]
      rfl
    · intro hnone
      unfold NvsStore.loaded
      rw [hnone]
      rfl

/-! ## Runs that keep sizes -/

/-- The application gives every stored name one size, and does not ask an empty log with `NO_ERROR` in
    the uninitialised `walkentry`. -/
def KeepsSizes (sizes : Key → UInt64) (L : Life) : Call → Prop
  | .createObj key size _ => size = sizes (keyField key)
  | .getWithMalloc wentry _ _ _ _ => L.events = [] → wentry.err ≠ .noError
  | _ => True

/-- All objects and all records of a stored name have its size. -/
structure Life.SizesKept (sizes : Key → UInt64) (L : Life) : Prop where
  objects : ∀ p ∈ L.store.objectMap.entries, p.2.size = sizes (keyField p.1)
  records : ∀ e ∈ L.events, ∀ r ∈ e.what.recs, r.data.length = (sizes (keyField r.name)).toNat

section
variable {sizes : Key → UInt64} {L : Life} {items : List Item}

/-- What an object is recorded as has its size. -/
theorem Life.SizesKept.recorded (hk : L.SizesKept sizes) {p : Key × Object}
    (hp : p ∈ L.store.objectMap.entries) (version : UInt64) :
    (p.2.recorded L.store.heap p.1 version).data.length =
      (sizes (keyField (p.2.recorded L.store.heap p.1 version).name)).toNat := by
  show (p.2.contents L.store.heap).length = (sizes (keyField p.1)).toNat
  rw [Object.length_contents, hk.objects p hp]

/-- A record the search finds has the size of the stored name it was asked for. -/
theorem Life.SizesKept.length_lookup (hk : L.SizesKept sizes) (hi : L.Inv (fun _ => True) items)
    {key : Key} {version : UInt64} {r : Rec} (h : lookup key version items = some r) :
    r.data.length = (sizes (keyField key)).toNat := by
  obtain ⟨⟨it, hit, hr⟩, hname, _⟩ := lookup_spec h
  obtain ⟨e, he, hre⟩ := hi.mem_events hit hr
  rw [hk.records e he r hre, hname]

/-- So has what `get_with_malloc` copies. -/
theorem Life.SizesKept.copyLen (hk : L.SizesKept sizes) (hi : L.Inv (fun _ => True) items)
    {wentry : WalkEntry} (herr : L.events = [] → wentry.err ≠ .noError) {fuel : Nat} {key : Key}
    {version : UInt64} {n : Nat} (h : L.store.copyLen wentry fuel key version = some n) :
    n = (sizes (keyField key)).toNat := by
  by_cases hne : items = []
  · subst hne
    rw [NvsStore.copyLen_empty hi.rep (herr hi.events)] at h
    cases h
  · obtain ⟨r, hlk, rfl⟩ := NvsStore.copyLen_spec hi.rep hne h
    exact hk.length_lookup hi hlk

/-- The objects after a call. -/
theorem Life.SizesKept.objects_after (hk : L.SizesKept sizes) (hi : L.Inv (fun _ => True) items)
    {c : Call} (hok : KeepsSizes sizes L c) {r : Reply} {s' : NvsStore}
    (h : L.store.call c = .ok (r, s')) {p : Key × Object} (hp : p ∈ s'.objectMap.entries) :
    p.2.size = sizes (keyField p.1) := by
  cases NvsStore.origin_of_mem h hp with
  | kept hold hrec => exact hk.objects p hold
  | versioned hold hgiven heq =>
    rw [heq]
    exact hk.objects _ hold
  | created hc heq =>
    subst hc
    rw [heq]
    exact hok
  | @loaded wentry fuel tmpPtr n version hc hlen heq =>
    subst hc
    rw [heq]
    show UInt64.ofNat n = _
    rw [hk.copyLen hi hok hlen, UInt64.ofNat_toNat]

/-- One step of a run that keeps sizes. -/
theorem Life.Run.sizesKept {L' : Life} (h : Life.Run (KeepsSizes sizes) L L')
    (hi : L.Inv (fun _ => True) items) (hk : L.SizesKept sizes) : L'.SizesKept sizes := by
  cases h with
  | restart heap h => exact ⟨fun p hp => absurd hp List.not_mem_nil, hk.records⟩
  | call c hok h =>
    refine ⟨fun p hp => hk.objects_after hi hok h hp, fun e he r hr => ?_⟩
    rcases List.mem_append.mp he with he | he
    · exact hk.records e he r hr
    · obtain ⟨q, hq, version, rfl⟩ := Call.recorded_of_event he hr
      exact hk.recorded hq version

/-- A whole run that keeps sizes. -/
theorem Life.Run.run_sizesKept {size : Nat} {l : Log} {f : File} {heap : Mem Byte}
    (hsize : sizeofLhdr ≤ size) (hnew : Log.ctor none size = .ok (l, f))
    (hrun : Relation.ReflTransGen (Life.Run (KeepsSizes sizes)) (Life.start l f heap) L) :
    L.SizesKept sizes := by
  induction hrun with
  | refl =>
    exact ⟨fun p hp => absurd hp List.not_mem_nil, fun e he => absurd he List.not_mem_nil⟩
  | tail hrun hstep ih =>
    obtain ⟨items, hi⟩ := Life.Run.inv_any hsize hnew hrun
    exact hstep.sizesKept hi ih

end

/-- A query that the log answers is answered: with enough fuel, `get_with_malloc` returns. -/
theorem Life.Inv.getWithMalloc_answer {L : Life} {items : List Item}
    (hi : L.Inv (fun _ => True) items) {key : Key} {version : UInt64} {r : Rec}
    (hr : L.answer key version = some r) (wentry : WalkEntry) (tmpPtr : Nat) :
    ∃ N, ∀ fuel ≥ N, ∃ p s',
      L.store.getWithMalloc wentry fuel key version tmpPtr = .ok (.noError, some p, s') := by
  rw [← hi.lookup_eq] at hr
  have hne : items ≠ [] := by
    rintro rfl
    cases hr
  have hinside : SearchInside L.store.file key version 32 items := by
    rw [hi.searchInside_iff, hr]
    intro hnone
    cases hnone
  refine ⟨lookFuel items, fun fuel hfuel => ?_⟩
  have hmalloc := NvsStore.getWithMalloc_of_walk hi.rep hne
    ((run_walk_look hi.rep wentry hfuel key version).1 hinside) tmpPtr
  rw [hr] at hmalloc
  exact ⟨_, _, hmalloc⟩

/-- **When what `get_with_malloc` copies fits.**  In every state of every run that gives each stored
    name one size, for a call on a log with entries that returns `NO_ERROR`, the bytes copied fit the
    object.

    In any run, such a call copies the record that answers the query in the log, and that is longer
    than the object if and only if a smaller object was there; and a query that the log answers is
    answered. -/
theorem malloc_copy_fits {size : Nat} {l : Log} {f : File} {heap : Mem Byte}
    (hsize : sizeofLhdr ≤ size) (hnew : Log.ctor none size = .ok (l, f)) :
    (∀ sizes L, Relation.ReflTransGen (Life.Run (KeepsSizes sizes)) (Life.start l f heap) L →
      L.events ≠ [] → ∀ wentry fuel key version tmpPtr p s',
      L.store.getWithMalloc wentry fuel key version tmpPtr = .ok (.noError, some p, s') →
      ∃ n obj, L.store.Copied s' wentry fuel key version p n obj ∧ n ≤ obj.size.toNat) ∧
    ∀ L, Relation.ReflTransGen (Life.Run (fun _ _ => True)) (Life.start l f heap) L →
      (L.events ≠ [] → ∀ wentry fuel key version tmpPtr p s',
        L.store.getWithMalloc wentry fuel key version tmpPtr = .ok (.noError, some p, s') →
        ∃ r obj, L.answer key version = some r ∧
          (∃ e ∈ L.events, r ∈ e.what.recs) ∧ keyField r.name = keyField key ∧
          r.version = version ∧
          L.store.Copied s' wentry fuel key version p r.data.length obj ∧
          (r.data.length ≤ obj.size.toNat ↔
            ∀ old, L.store.objectMap.find? key = some old → r.data.length ≤ old.size.toNat)) ∧
      ∀ key version r, L.answer key version = some r → ∀ wentry tmpPtr, ∃ N, ∀ fuel ≥ N,
        ∃ p s', L.store.getWithMalloc wentry fuel key version tmpPtr = .ok (.noError, some p, s') := by
  refine ⟨?_, fun L hrun => ⟨?_, ?_⟩⟩
  · intro sizes L hrun hentries wentry fuel key version tmpPtr p s' h
    obtain ⟨items, hi⟩ := Life.Run.inv_any hsize hnew hrun
    have hk := Life.Run.run_sizesKept hsize hnew hrun
    obtain ⟨n, obj, hcopied, hold, hnew'⟩ := NvsStore.copied_of_ok h
    have hn := hk.copyLen hi (fun hnone => absurd hnone hentries) hcopied.len
    refine ⟨n, obj, hcopied, ?_⟩
    cases hfind : L.store.objectMap.find? key with
    | some old =>
      rw [hold old hfind, hk.objects (key, old) ((SortedMap.find?_eq_some _ _ _).mp hfind), hn]
    | none => rw [hnew' hfind, hn, UInt64.ofNat_toNat]
  · intro hentries wentry fuel key version tmpPtr p s' h
    obtain ⟨items, hi⟩ := Life.Run.inv_any hsize hnew hrun
    have hne : items ≠ [] := by
      rintro rfl
      exact hentries hi.events
    obtain ⟨n, obj, hcopied, hold, hnew'⟩ := NvsStore.copied_of_ok h
    obtain ⟨r, hlk, rfl⟩ := NvsStore.copyLen_spec hi.rep hne hcopied.len
    obtain ⟨⟨it, hit, hr⟩, hname, hversion⟩ := lookup_spec hlk
    refine ⟨r, obj, (hi.lookup_eq key version).symm.trans hlk, hi.mem_events hit hr, hname, hversion,
      hcopied, ?_⟩
    cases hfind : L.store.objectMap.find? key with
    | some old =>
      rw [hold old hfind]
      exact ⟨fun hle old' hold' => Option.some.inj hold' ▸ hle, fun hle => hle old rfl⟩
    | none =>
      rw [hnew' hfind, toNat_ofNat r.data_lt]
      refine ⟨fun _ old hold' => ?_, fun _ => Nat.le_refl _⟩
      cases hold'
  · intro key version r hr wentry tmpPtr
    obtain ⟨items, hi⟩ := Life.Run.inv_any hsize hnew hrun
    exact hi.getWithMalloc_answer hr wentry tmpPtr

/-! ### A store whose log has one record -/

theorem lookup_single (w : Written) :
    lookup w.toRec.name w.toRec.version [.single w] = some w.toRec :=
  lookup_fresh (fun it (hit : it ∈ []) => absurd hit List.not_mem_nil)

/-- `get_with_malloc` on a log of one record. -/
theorem NvsStore.getWithMalloc_single {s : NvsStore} {w : Written}
    (hr : Rep s.file (encode ([Item.single w].map Item.entry))) (tmpPtr : Nat) :
    ∃ N, ∀ fuel ≥ N, s.getWithMalloc blankWalk fuel w.toRec.name w.toRec.version tmpPtr =
      .ok (.noError, some (s.targetOf w.toRec.name tmpPtr), { s with
        heap := store s.heap (s.targetOf w.toRec.name tmpPtr) w.toRec.data
        objectMap := s.objectMap.insert w.toRec.name
          (s.loaded w.toRec.name w.toRec.version tmpPtr w.toRec.data.length) }) := by
  have hlook : LooksInside s.file [.single w] :=
    looksInside_of_rep hr (fun it hit hempty => by
      obtain rfl := Option.some.inj hit
      cases hempty)
  refine ⟨lookFuel [.single w], fun fuel hfuel => ?_⟩
  have hmalloc := NvsStore.getWithMalloc_of_walk hr (List.cons_ne_nil _ _)
    (walk_inside hr hlook blankWalk hfuel w.toRec.name w.toRec.version) tmpPtr
  rw [lookup_single] at hmalloc
  exact hmalloc

/-- The object is put once, and loaded into its own buffer. -/
theorem malloc_copy_fits_one_put : ∃ l f s₁ s₂, Log.ctor none logSize = .ok (l, f) ∧
    (NvsStore.ctor l f (fun _ => 9)).createObj [97] 4 4096 = .ok (.noError, 4096, s₁) ∧
    s₁.put blankHdr [97] 7 = .ok (.noError, s₂) ∧
    ∃ N, ∀ fuel ≥ N, ∃ s' n obj,
      s₂.getWithMalloc blankWalk fuel [97] 7 8192 = .ok (.noError, some 4096, s') ∧
      s₂.Copied s' blankWalk fuel [97] 7 4096 n obj ∧ n ≤ obj.size.toNat := by
  obtain ⟨l, f, s₁, s₂, hnew, hcreate, hput, hobj, hheap, hentries, hr₂, _⟩ := one_put [97] 7
  have hrun : Relation.ReflTransGen (Life.Run (KeepsSizes (fun _ => 4)))
      (Life.start l f (fun _ => 9)) _ :=
    .tail (.single (.call (.createObj [97] 4 4096) rfl (NvsStore.call_createObj hcreate)))
      (.call (.put blankHdr [97] 7) trivial (NvsStore.call_put hput))
  obtain ⟨N, hN⟩ := NvsStore.getWithMalloc_single hr₂ 8192
  have htarget : s₂.targetOf [97] 8192 = 4096 := by
    unfold NvsStore.targetOf
    rw [SortedMap.find?_of_singleton hentries]
    rfl
  refine ⟨l, f, s₁, s₂, hnew, hcreate, hput, N, fun fuel hfuel => ?_⟩
  have hmalloc := hN fuel hfuel
  have hone := (malloc_copy_fits (by decide) hnew).1 _ _ hrun
    (by
      show [] ++ (Call.put blankHdr [97] 7).events s₁ ≠ []
      rw [Call.events, hobj]
      exact List.cons_ne_nil _ _)
    blankWalk fuel [97] 7 8192 4096 _ (by rw [← htarget]; exact hmalloc)
  obtain ⟨n, obj, hcopied, hle⟩ := hone
  exact ⟨_, n, obj, by rw [← htarget]; exact hmalloc, hcopied, hle⟩

/-- **Eight bytes into a buffer of four.**  The object is put with eight bytes, freed, and created
    again with four; `get_with_malloc` of the old version copies eight bytes into the new buffer. -/
theorem malloc_copy_overruns : ∃ l f s₁ s₂ s₃ s₄, Log.ctor none logSize = .ok (l, f) ∧
    (NvsStore.ctor l f (fun _ => 9)).createObj [97] 8 4096 = .ok (.noError, 4096, s₁) ∧
    s₁.put blankHdr [97] 1 = .ok (.noError, s₂) ∧ s₂.freeObj 4096 = .ok (.noError, s₃) ∧
    s₃.createObj [97] 4 8192 = .ok (.noError, 8192, s₄) ∧
    ∃ N, ∀ fuel ≥ N, ∃ s' obj,
      s₄.getWithMalloc blankWalk fuel [97] 1 16384 = .ok (.noError, some 8192, s') ∧
      s₄.Copied s' blankWalk fuel [97] 1 8192 8 obj ∧ obj.size = 4 := by
  obtain ⟨l, f, s₁, hnew, hcreate, hobjects, haddrs, _, hr, hs, hlen⟩ := one_object [97] 8
  have hobj : s₁.objectMap.find? [97] = some (Object.ctor [97] 8 0 4096) :=
    SortedMap.find?_of_singleton hobjects
  have hsize : (Object.ctor [97] 8 0 4096).size.toNat = 8 := rfl
  obtain ⟨s₂, hput⟩ := NvsStore.put_of_fits hr hs blankHdr 1 hobj
    (by rw [hlen, hsize]; decide)
  obtain ⟨obj, hobj', hr₂, _, _, _, haddrs₂, hmap₂⟩ := NvsStore.put_ok hr hs hput
  obtain rfl := Option.some.inj (hobj.symm.trans hobj')
  -- the record stays in the log while the object goes, and comes back with four bytes
  have haddr₂ : s₂.addrMap.find? 4096 = some [97] := by
    rw [haddrs₂]
    exact SortedMap.find?_of_singleton haddrs
  have hfree := NvsStore.freeObj_of_found haddr₂
    (by rw [hmap₂, SortedMap.find?_modify, if_pos rfl, hobj]; rfl)
  have hgone : (s₂.objectMap.erase [97]).find? [97] = none := by
    rw [SortedMap.find?_erase, if_pos rfl]
  have hcreate₄ := NvsStore.createObj_of_none (s := { s₂ with
      objectMap := s₂.objectMap.erase [97]
      addrMap := s₂.addrMap.erase 4096 }) 4 8192 hgone
  obtain ⟨s₄, hs₄, hfile₄, hobj₄⟩ : ∃ s₄, NvsStore.createObj { s₂ with
        objectMap := s₂.objectMap.erase [97]
        addrMap := s₂.addrMap.erase 4096 } [97] 4 8192 = .ok (.noError, 8192, s₄) ∧
      s₄.file = s₂.file ∧ s₄.objectMap.find? [97] = some (Object.ctor [97] 4 0 8192) :=
    ⟨_, hcreate₄, rfl, by rw [SortedMap.find?_insert, if_pos rfl]⟩
  have hr₄ : Rep s₄.file (encode ([Item.single ⟨blankHdr,
      (Object.ctor [97] 8 0 4096).toRec s₁.heap 1⟩].map Item.entry)) := by
    rw [hfile₄, List.map_singleton, encode_cons, encode_nil, List.append_nil]
    exact hr₂
  obtain ⟨N, hN⟩ := NvsStore.getWithMalloc_single hr₄ 16384
  refine ⟨l, f, s₁, s₂, _, s₄, hnew, hcreate, hput, hfree, hs₄, N, fun fuel hfuel => ?_⟩
  have htarget : s₄.targetOf [97] 16384 = 8192 := by
    unfold NvsStore.targetOf
    rw [hobj₄]
    rfl
  have hmalloc := hN fuel hfuel
  rw [show s₄.targetOf (Written.mk blankHdr ((Object.ctor [97] 8 0 4096).toRec s₁.heap 1)).toRec.name
    16384 = 8192 from htarget] at hmalloc
  obtain ⟨n, obj, hcopied, hold, _⟩ := NvsStore.copied_of_ok hmalloc
  obtain ⟨r, hlk, rfl⟩ := NvsStore.copyLen_spec hr₄ (List.cons_ne_nil _ _) hcopied.len
  obtain rfl := Option.some.inj ((lookup_single _).symm.trans hlk)
  have hlength : ((Object.ctor [97] 8 0 4096).toRec s₁.heap 1).data.length = 8 :=
    Object.length_contents _ _
  refine ⟨_, obj, hmalloc, ?_, hold _ hobj₄⟩
  rw [← hlength]
  exact hcopied

end NvStream
