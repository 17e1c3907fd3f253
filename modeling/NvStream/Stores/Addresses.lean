/-
  `objectMap` and `addrMap`: is an object's buffer address on file?

  `free_obj` is the same text in all three stores.  It gets an address, looks for the key in `addrMap`
  and then for the object in `objectMap`; an address that is not on file ends the process.  So every
  operation that files an object has to fill both maps.

      NVSStore::create_obj         objectMap and addrMap
      NVSStore::get_with_malloc    objectMap only, also for a NEW object
      DeltaStore, FileStore        objectMap only, in every operation

  `addresses_on_file` has one part per store.  In an `NVSStore` the maps are inverse as long as
  `malloc` gives no address of a live object and `get_with_malloc` makes no object, and each call
  keeps them so exactly under that condition.  In the other two `addrMap` stays empty, so that no
  object can ever be freed.
-/
import NvStream.Lib.InverseMaps
import NvStream.NvsStore.Overrun
import NvStream.DeltaStore.Calls
import NvStream.FileStore.Basic

namespace NvStream

open FlatMem LittleEndian LoadProg PersistTrace

/-! ## `NVSStore` -/

/-- A key leads to an object with the buffer `p` exactly if `p` leads back to the key. -/
def NvsStore.OnFile (s : NvsStore) : Prop := SortedMap.Inverse Object.ptr s.objectMap s.addrMap

/-- `free_obj` of a live object's buffer succeeds, and takes exactly that object out of both maps. -/
def NvsStore.FreesLive (s : NvsStore) : Prop :=
  ∀ key obj, s.objectMap.find? key = some obj → ∃ s', s.freeObj obj.ptr = .ok (.noError, s') ∧
    s'.objectMap.find? key = none ∧
    (∀ k ≠ key, s'.objectMap.find? k = s.objectMap.find? k) ∧
    s'.addrMap.find? obj.ptr = none ∧
    (∀ p ≠ obj.ptr, s'.addrMap.find? p = s.addrMap.find? p) ∧
    s'.heap = s.heap ∧ s'.file = s.file

/-- What keeps the maps inverse: `malloc` gives `create_obj` no address of a live object, and
    `get_with_malloc` finds no record of a key that is not live (`keepsOnFile_iff`: the log holds none
    that answers). -/
def KeepsOnFile (L : Life) : Call → Prop
  | .createObj _ _ tmpPtr => ∀ q ∈ L.store.objectMap.entries, q.2.ptr ≠ tmpPtr
  | .getWithMalloc wentry fuel key version _ =>
    L.store.objectMap.find? key = none → L.store.copyLen wentry fuel key version = none
  | _ => True

section
variable {s s' : NvsStore}

theorem NvsStore.OnFile.freesLive (h : s.OnFile) : s.FreesLive := by
  intro key obj hobj
  refine ⟨_, NvsStore.freeObj_of_found (h.find_back hobj) hobj, ?_, ?_, ?_, ?_, rfl, rfl⟩
  · exact (SortedMap.find?_erase _ _ _).trans (if_pos rfl)
  · exact fun k hk => (SortedMap.find?_erase _ _ _).trans (if_neg hk)
  · exact (SortedMap.find?_erase _ _ _).trans (if_pos rfl)
  · exact fun p hp => (SortedMap.find?_erase _ _ _).trans (if_neg hp)

/-- **One call keeps the maps inverse exactly under the condition.** -/
theorem NvsStore.OnFile.call_iff {L : Life} (h : L.store.OnFile) {c : Call} {r : Reply}
    (hcall : L.store.call c = .ok (r, s')) : s'.OnFile ↔ KeepsOnFile L c := by
  cases c with
  | createObj key size tmpPtr =>
    obtain ⟨a, ha, rfl⟩ := Except.map_eq_ok_snd hcall
    obtain ⟨hfree, heq⟩ := NvsStore.createObj_eq ha
    rw [heq]
    exact (SortedMap.Inverse.insert_iff (v := Object.ctor key size 0 tmpPtr) h hfree).trans
      (h.find_back_eq_none_iff tmpPtr)
  | freeObj objAddr =>
    obtain ⟨a, ha, rfl⟩ := Except.map_eq_ok_snd hcall
    obtain ⟨key, obj, haddr, hobj, heq⟩ := NvsStore.freeObj_eq ha
    obtain ⟨obj', hobj', hptr⟩ := (h key objAddr).mpr haddr
    obtain rfl := Option.some.inj (hobj.symm.trans hobj')
    refine iff_of_true ?_ trivial
    rw [heq, ← hptr]
    exact SortedMap.Inverse.erase h hobj
  | put lEntry key version =>
    obtain ⟨a, ha, rfl⟩ := Except.map_eq_ok_snd hcall
    refine iff_of_true ?_ trivial
    rcases NvsStore.put_eq ha with ⟨_, _, heq⟩ | ⟨_, _, _, _, _, _, heq⟩
    · rw [heq]
      exact h
    · rw [heq]
      exact SortedMap.Inverse.modify h (g := fun obj => obj.setVersion version) (fun _ => rfl) key
  | putAll lEntry =>
    obtain ⟨a, ha, rfl⟩ := Except.map_eq_ok_snd hcall
    obtain ⟨_, _, _, heq⟩ := NvsStore.putAll_eq ha
    refine iff_of_true ?_ trivial
    rw [heq]
    exact SortedMap.Inverse.mapVal h (fun _ _ => rfl)
  | get wentry fuel key version objAddr =>
    obtain ⟨a, ha, rfl⟩ := Except.map_eq_ok_snd hcall
    obtain ⟨heap, heq⟩ := NvsStore.get_ok ha
    refine iff_of_true ?_ trivial
    rw [heq]
    exact h
  | getWithMalloc wentry fuel key version tmpPtr =>
    obtain ⟨a, ha, rfl⟩ := Except.map_eq_ok_snd hcall
    rcases NvsStore.getWithMalloc_cases ha with ⟨hnone, _, _, heq⟩ | ⟨data, hlen, _, _, heq⟩
    · refine iff_of_true ?_ (fun _ => hnone)
      rw [heq]
      exact h
    · rw [heq]
      refine (SortedMap.Inverse.insert_left_iff h).trans ?_
      simp only [KeepsOnFile, hlen]
      cases hfind : L.store.objectMap.find? key with
      | none =>
        refine iff_of_false ?_ ?_
        · rintro ⟨old, hold, _⟩
          cases hold
        · intro hnone
          cases hnone rfl
      | some old =>
        refine iff_of_true ⟨old, rfl, ?_⟩ ?_
        · unfold NvsStore.loaded
          rw [hfind]
          rfl
        · intro hnone
          cases hnone
  | appWrite addr bs =>
    obtain ⟨_, rfl⟩ := Prod.mk.inj (Except.ok.inj hcall)
    exact iff_of_true h trivial

end

/-- The condition for `get_with_malloc`, on the records of the log. -/
theorem Life.Inv.keepsOnFile_iff {valid : Key → Prop} {L : Life} {items : List Item}
    (hi : L.Inv valid items) {wentry : WalkEntry} {fuel tmpPtr : Nat} {key : Key}
    {version : UInt64} {r : Reply} {s' : NvsStore}
    (hcall : L.store.call (.getWithMalloc wentry fuel key version tmpPtr) = .ok (r, s')) :
    KeepsOnFile L (.getWithMalloc wentry fuel key version tmpPtr) ↔
      (L.store.objectMap.find? key = none →
        (L.events = [] → wentry.err ≠ .noError) ∧ L.answer key version = none) := by
  obtain ⟨a, ha, _⟩ := Except.map_eq_ok_snd hcall
  exact imp_congr_right (fun _ => hi.copyLen_eq_none_iff ha)

/-- A whole run under the condition. -/
theorem Life.Run.onFile {l : Log} {f : File} {heap : Mem Byte} {L : Life}
    (hrun : Relation.ReflTransGen (Life.Run KeepsOnFile) (Life.start l f heap) L) :
    L.store.OnFile := by
  refine Runs.invariant (P := fun L => L.store.OnFile) ?_ hrun SortedMap.inverse_empty
  rintro a b (⟨c, hok, h⟩ | ⟨heap, h⟩) hs
  · exact (NvsStore.OnFile.call_iff hs h).mpr hok
  · exact SortedMap.inverse_empty

/-! ## `FileStore` -/

/-- **No call fills `addrMap`.** -/
theorem FileStore.after_addrMap {s s' : FileStore} {c : FileCall} (h : s.after c = .ok s')
    (hs : s.addrMap = .empty) : s'.addrMap = .empty := by
  cases after_effect h with
  | kept hobj haddr => exact haddr.trans hs
  | filed hobj haddr => exact haddr.trans hs
  | versioned hobj haddr => exact haddr.trans hs
  | freed hfind hobj haddr =>
    rw [hs] at hfind
    cases hfind

theorem FileLife.addrMap_empty {ok : FileCall → Prop} {disk : Disk} {heap : Mem Byte} {L : FileLife}
    (hrun : Relation.ReflTransGen (Step ok) (start disk heap) L) : L.store.addrMap = .empty := by
  refine Runs.invariant (P := fun L => L.store.addrMap = .empty) ?_ hrun rfl
  rintro a b ⟨c, _, h⟩ hs
  exact FileStore.after_addrMap h hs

/-! ## The three stores -/

/-- **Which objects can be freed.**  `NVSStore`: along every run that meets the condition the maps are
    inverse and every live object can be freed; and from such a state a call keeps the maps inverse if
    and only if it meets the condition.  `DeltaStore` and `FileStore`: in every state of every run
    `addrMap` is empty, so the maps are inverse only while there are no objects, and every `free_obj`
    ends the process.  On a log that was new at first, a `get_with_malloc` that returns meets the
    condition if and only if its key is live or the log holds no record that answers it (and, if it
    holds none at all, the junk in `err` does not claim one). -/
theorem addresses_on_file (l : Log) (f : File) (disk : Disk) (heap : Mem Byte) :
    (∀ L, Relation.ReflTransGen (Life.Run KeepsOnFile) (Life.start l f heap) L →
      L.store.OnFile ∧ L.store.FreesLive ∧
      ∀ c r s', L.store.call c = .ok (r, s') → (s'.OnFile ↔ KeepsOnFile L c)) ∧
    (∀ s, Relation.ReflTransGen DeltaStore.Run (DeltaStore.ctor l f heap) s →
      (SortedMap.Inverse Object.ptr s.objectMap s.addrMap ↔ s.objectMap.entries = []) ∧
      ∀ p, s.freeObj p = .error .exit) ∧
    (∀ L, Relation.ReflTransGen (FileLife.Step (fun _ => True)) (FileLife.start disk heap) L →
      (SortedMap.Inverse Object.ptr L.store.objectMap L.store.addrMap ↔
        L.store.objectMap.entries = []) ∧
      ∀ p, L.store.freeObj p = .error .exit) ∧
    (∀ size, sizeofLhdr ≤ size → Log.ctor none size = .ok (l, f) →
      ∀ L, Relation.ReflTransGen (Life.Run (fun _ _ => True)) (Life.start l f heap) L →
      ∀ wentry fuel key version tmpPtr r s',
      L.store.call (.getWithMalloc wentry fuel key version tmpPtr) = .ok (r, s') →
      (KeepsOnFile L (.getWithMalloc wentry fuel key version tmpPtr) ↔
        (L.store.objectMap.find? key = none →
          (L.events = [] → wentry.err ≠ .noError) ∧ L.answer key version = none))) := by
  refine ⟨fun L hrun => ?_, fun s hrun => ?_, fun L hrun => ?_, ?_⟩
  · have hs := Life.Run.onFile hrun
    exact ⟨hs, hs.freesLive, fun c r s' h => hs.call_iff h⟩
  · have hempty := DeltaStore.Run.addrMap_empty hrun
    refine ⟨?_, fun p => ?_⟩
    · rw [hempty]
      exact SortedMap.inverse_empty_right_iff
    · unfold DeltaStore.freeObj
      rw [hempty]
      rfl
  · have hempty := FileLife.addrMap_empty hrun
    refine ⟨?_, fun p => ?_⟩
    · rw [hempty]
      exact SortedMap.inverse_empty_right_iff
    · unfold FileStore.freeObj
      rw [hempty]
      rfl
  · intro size hsize hnew L hrun wentry fuel key version tmpPtr r s' hcall
    obtain ⟨items, hi⟩ := Life.Run.inv_any hsize hnew hrun
    exact hi.keepsOnFile_iff hcall

/-- A new `NVSStore` creates an object, and can free it. -/
theorem addresses_on_file_one_object : ∃ l f s₁ s₂, Log.ctor none logSize = .ok (l, f) ∧
    (NvsStore.ctor l f (fun _ => 9)).createObj [97] 4 4096 = .ok (.noError, 4096, s₁) ∧
    s₁.OnFile ∧ s₁.freeObj 4096 = .ok (.noError, s₂) ∧ s₂.objectMap.find? [97] = none := by
  obtain ⟨l, f, s₁, hnew, hcreate, hentries, _⟩ := one_object [97] 4
  have hrun : Relation.ReflTransGen (Life.Run KeepsOnFile) (Life.start l f (fun _ => 9)) _ :=
    .single (.call (.createObj [97] 4 4096) (fun q hq => absurd hq List.not_mem_nil)
      (NvsStore.call_createObj hcreate))
  obtain ⟨hs, hfrees, _⟩ := (addresses_on_file l f ⟨fun _ => none, fun _ => none⟩ _).1 _ hrun
  obtain ⟨s₂, hfree, hgone, _⟩ := hfrees [97] _ (SortedMap.find?_of_singleton hentries)
  exact ⟨l, f, s₁, s₂, hnew, hcreate, hs, hfree, hgone⟩

/-- **Live objects that cannot be freed.**  `NVSStore`: an object is put; after a restart
    `get_with_malloc` makes it anew, and `free_obj` of the buffer it handed out ends the process.
    `DeltaStore` and `FileStore`: `free_obj` of an object just created ends the process. -/
theorem live_objects_not_freed :
    (∃ l f s₁ s₂ l' f', Log.ctor none logSize = .ok (l, f) ∧
      (NvsStore.ctor l f (fun _ => 9)).createObj [97] 4 4096 = .ok (.noError, 4096, s₁) ∧
      s₁.put blankHdr [97] 7 = .ok (.noError, s₂) ∧ Log.ctor (some s₂.file) 0 = .ok (l', f') ∧
      ∃ N, ∀ fuel ≥ N, ∃ s', (NvsStore.ctor l' f' (fun _ => 0)).getWithMalloc blankWalk fuel [97] 7
        8192 = .ok (.noError, some 8192, s') ∧ (s'.objectMap.find? [97]).isSome ∧
        s'.freeObj 8192 = .error .exit) ∧
    (∃ l f s₁, Log.ctor none deltaLogSize = .ok (l, f) ∧
      (DeltaStore.ctor l f (fun _ => 0)).createObj [97] 4 4096 = .ok (.noError, 4096, s₁) ∧
      s₁.freeObj 4096 = .error .exit) ∧
    (∃ s₁, (FileStore.ctor ⟨fun _ => none, fun _ => none⟩ (fun _ => 0)).createObj [97] 4 4096 =
        .ok (.noError, 4096, s₁) ∧ s₁.freeObj 4096 = .error .exit) := by
  refine ⟨?_, ?_, _, rfl, rfl⟩
  · obtain ⟨l, f, s₁, s₂, hnew, hcreate, hput, _, _, _, hr₂, _⟩ := one_put [97] 7
    have hopen := ctor_reopen hr₂
    obtain ⟨N, hN⟩ := NvsStore.getWithMalloc_single (s := NvsStore.ctor _ s₂.file (fun _ => 0)) hr₂ 8192
    refine ⟨l, f, s₁, s₂, _, _, hnew, hcreate, hput, hopen, N, fun fuel hfuel => ?_⟩
    exact ⟨_, hN fuel hfuel, rfl, rfl⟩
  · obtain ⟨l, f, hnew, _⟩ := ctor_ok deltaLogSize (by decide)
    exact ⟨l, f, _, hnew, rfl, rfl⟩

end NvStream
