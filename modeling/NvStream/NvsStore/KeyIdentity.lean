/-
  Whether two keys stay two keys.

  `objectMap` compares whole strings.  The log does not: a record carries the key's first 19 bytes up
  to a NUL (`keyField`), the search key is cut the same way, and nothing refuses a longer key.  So the
  store keeps `k` and `k'` apart in the log exactly when their stored names differ
  (`key_identity_iff`); otherwise `get(k, v)` hands out bytes that were only ever recorded for `k'`
  (`long_keys_share_a_name`).
-/
import NvStream.NvsStore.RoundTrip

namespace NvStream

open FlatMem LittleEndian LoadProg PersistTrace

/-- The bytes are in the log, and every record that has them is a record of the key. -/
def Life.OnlyFor (L : Life) (key : Key) (data : List Byte) : Prop :=
  (∃ e ∈ L.events, ∃ r ∈ e.what.recs, r.data = data) ∧
    ∀ e ∈ L.events, ∀ r ∈ e.what.recs, r.data = data → r.name = key

/-- After which `get_with_malloc` brings back `data` for a key and a version. -/
def NvsStore.DeliversMalloc (s : NvsStore) (key : Key) (version : UInt64) (data : List Byte) :
    Prop :=
  ∀ heap wentry tmpPtr, ∃ N, ∀ fuel ≥ N, ∃ addr s',
    NvsStore.getWithMalloc { s with heap := heap } wentry fuel key version tmpPtr =
      .ok (.noError, some addr, s') ∧ s'.heap = store heap addr data

/-- In no state of any run does a getter for `k` bring back bytes recorded for `k'` only. -/
def KeptApart (k k' : Key) : Prop :=
  ∀ (size : Nat) (l : Log) (f : File) (heap : Mem Byte) (L : Life), sizeofLhdr ≤ size →
    Log.ctor none size = .ok (l, f) →
    Relation.ReflTransGen (Life.Step (fun _ => True)) (Life.start l f heap) L →
    ∀ (version : UInt64) (data : List Byte),
      L.store.Delivers k version data ∨ L.store.DeliversMalloc k version data → ¬ L.OnlyFor k' data

/-! ## What a getter returns is the data of a record with the stored name -/

section
variable {s : NvsStore} {items : List Item} {key : Key} {version : UInt64} {data : List Byte}

/-- A record found whatever the heap, whose copy is that of `data` on every heap, holds `data`. -/
theorem exists_data_of_store {found : Option Rec} {addr : Nat}
    (h : ∀ heap, ∃ r, found = some r ∧ store heap addr r.data = store heap addr data) :
    ∃ r, found = some r ∧ r.data = data := by
  obtain ⟨r, hfound, _⟩ := h (fun _ => 0)
  refine ⟨r, hfound, store_inj addr (fun heap => ?_)⟩
  obtain ⟨r', hfound', heq⟩ := h heap
  rw [hfound] at hfound'
  rw [Option.some.inj hfound']
  exact heq

theorem NvsStore.lookup_of_delivers (hr : Rep s.file (encode (items.map Item.entry)))
    (h : s.Delivers key version data) : ∃ r, lookup key version items = some r ∧ r.data = data := by
  have hone : ∀ heap, ∃ r, lookup key version items = some r ∧
      store heap 0 r.data = store heap 0 data := by
    intro heap
    obtain ⟨N, hN⟩ := h heap blankWalk 0
    obtain ⟨r, hlk, hs⟩ := NvsStore.lookup_of_get (s := { s with heap := heap }) hr
      (hN N (Nat.le_refl N))
    exact ⟨r, hlk, (congrArg NvsStore.heap hs).symm⟩
  exact exists_data_of_store hone

theorem NvsStore.lookup_of_deliversMalloc (hr : Rep s.file (encode (items.map Item.entry)))
    (hne : items ≠ []) (h : s.DeliversMalloc key version data) :
    ∃ r, lookup key version items = some r ∧ r.data = data := by
  have hone : ∀ heap, ∃ r, lookup key version items = some r ∧
      store heap (s.targetOf key 0) r.data = store heap (s.targetOf key 0) data := by
    intro heap
    obtain ⟨N, hN⟩ := h heap blankWalk 0
    obtain ⟨addr, s', hget, hheap⟩ := hN N (Nat.le_refl N)
    obtain ⟨r, hlk, haddr, hs⟩ := NvsStore.lookup_of_getWithMalloc (s := { s with heap := heap }) hr
      hne hget
    rw [hheap, Option.some.inj haddr] at hs
    exact ⟨r, hlk, hs.symm⟩
  exact exists_data_of_store hone

/-- The record a search finds is in the log, under the stored name it was asked for. -/
theorem lookup_spec {r : Rec} (h : lookup key version items = some r) :
    (∃ it ∈ items, r ∈ it.recs) ∧ keyField r.name = keyField key ∧ r.version = version := by
  obtain ⟨it, hit, hr⟩ := List.mem_flatMap.mp (List.mem_of_find?_eq_some h)
  refine ⟨⟨it, hit, ?_⟩, of_decide_eq_true (List.find?_some h :)⟩
  cases it with
  | single w => exact hr
  | multiple _ ws _ => exact List.mem_of_mem_dropLast hr

/-- A record behind a log without its stored name and version is the one a search finds. -/
theorem lookup_fresh {w : Written}
    (hfresh : ∀ it ∈ items, ∀ r ∈ it.recs,
      ¬ (keyField r.name = keyField w.toRec.name ∧ r.version = w.toRec.version)) :
    lookup w.toRec.name w.toRec.version (items ++ [.single w]) = some w.toRec := by
  have hmatch : w.toRec.matches (keyField w.toRec.name) w.toRec.version = true :=
    decide_eq_true ⟨rfl, rfl⟩
  have hnone : lookup w.toRec.name w.toRec.version items = none := by
    cases hlk : lookup w.toRec.name w.toRec.version items with
    | none => rfl
    | some r =>
      obtain ⟨⟨it, hit, hr⟩, hsame⟩ := lookup_spec hlk
      exact absurd hsame (hfresh it hit r hr)
  rw [lookup] at hnone ⊢
  rw [List.flatMap_append, List.find?_append, hnone, List.flatMap_singleton, Item.visible,
    List.find?_cons_of_pos hmatch, Option.none_or]

end

/-- A log of one record answers every query with its stored name and its version. -/
theorem Life.Inv.delivers_single {valid : Key → Prop} {L : Life} {w : Written}
    (hi : L.Inv valid [.single w]) {k : Key} (hk : keyField w.toRec.name = keyField k) :
    L.store.Delivers k w.toRec.version w.toRec.data := by
  refine hi.delivers_head (fun it hit hempty => ?_) hk
  obtain rfl := Option.some.inj hit
  cases hempty

/-- One object, put once: the log has one record, of the key it was put by. -/
theorem put_once (key : Key) : ∃ l f L w, Log.ctor none logSize = .ok (l, f) ∧
    Relation.ReflTransGen (Life.Step (fun _ => True)) (Life.start l f (fun _ => 9)) L ∧
    L.Inv (fun _ => True) [.single w] ∧ w.toRec.name = key ∧ w.toRec.version = 1 ∧
    w.toRec.data = [9, 9, 9, 9] ∧ L.OnlyFor key [9, 9, 9, 9] ∧
    ∃ o, L.store.objectMap.entries = [(key, o)] := by
  obtain ⟨l, f, s₁, s₂, hnew, hcreate, hput, hobj, hheap, hentries, _⟩ := one_put key 1
  have hinv : (⟨s₁, []⟩ : Life).Inv (fun _ => True) [] := Life.Inv.keep
    (Life.start_inv (fun _ => 9) (by decide) hnew)
    (NvsStore.createObj_ok (fun p hp => absurd hp List.not_mem_nil) trivial hcreate)
  have hdata : (Object.ctor key 4 0 4096).contents s₁.heap = [9, 9, 9, 9] := by
    rw [hheap]
    rfl
  refine ⟨l, f, _, _, hnew, .tail (.single (.createObj key 4 4096 trivial hcreate))
    (.put blankHdr key 1 hobj hput), hinv.put hobj hput, rfl, rfl, hdata, ⟨⟨_,
    List.mem_singleton.mpr rfl, _, List.mem_singleton.mpr rfl, hdata⟩, ?_⟩, _, hentries⟩
  intro e he r hr _
  rw [List.mem_singleton.mp he] at hr
  rw [List.mem_singleton.mp hr]
  rfl

/-- **The log keeps two keys apart exactly when it stores them under different names.** -/
theorem key_identity_iff (k k' : Key) : KeptApart k k' ↔ keyField k ≠ keyField k' := by
  constructor
  · intro h hname
    obtain ⟨l, f, L, w, hnew, hrun, hinv, hkey, _, hdata, honly, _⟩ := put_once k'
    have hget := hinv.delivers_single (hkey.symm ▸ hname.symm)
    rw [hdata] at hget
    exact h logSize l f _ L (by decide) hnew hrun _ _ (Or.inl hget) honly
  · rintro hname size l f heap L hsize hnew hrun version data hdel ⟨⟨e, he, r₀, hr₀, _⟩, honly⟩
    obtain ⟨items, hi⟩ := Life.Step.run_inv hrun (Life.start_inv heap hsize hnew)
    have hne : items ≠ [] := by
      rintro rfl
      rw [hi.events] at he
      exact absurd he List.not_mem_nil
    have hfound : ∃ r, lookup k version items = some r ∧ r.data = data := by
      rcases hdel with hdel | hdel
      · exact NvsStore.lookup_of_delivers hi.rep hdel
      · exact NvsStore.lookup_of_deliversMalloc hi.rep hne hdel
    obtain ⟨r, hlk, hdata⟩ := hfound
    obtain ⟨⟨it, hit, hr⟩, hkey, _⟩ := lookup_spec hlk
    obtain ⟨e', he', hr'⟩ := hi.mem_events hit hr
    rw [honly e' he' r hr' hdata] at hkey
    exact hname hkey.symm

/-- **Two keys of 20 bytes that differ in the last one.**  Both objects exist, only the second was
    ever put, and `get` of the first returns the second's bytes. -/
theorem long_keys_share_a_name : ∃ l f L, Log.ctor none logSize = .ok (l, f) ∧
    Relation.ReflTransGen (Life.Step (fun _ => True)) (Life.start l f (fun _ => 9)) L ∧
    (∃ o o', L.store.objectMap.find? (List.replicate 19 97 ++ [98]) = some o ∧
      L.store.objectMap.find? (List.replicate 19 97 ++ [99]) = some o') ∧
    L.store.Delivers (List.replicate 19 97 ++ [98]) 1 [9, 9, 9, 9] ∧
    L.OnlyFor (List.replicate 19 97 ++ [99]) [9, 9, 9, 9] := by
  obtain ⟨l, f, L, w, hnew, hrun, hinv, hkey, hver, hdata, honly, o, hentries⟩ :=
    put_once (List.replicate 19 97 ++ [99])
  have hfree : L.store.objectMap.find? (List.replicate 19 97 ++ [98]) = none := by
    rw [SortedMap.find?_eq_none, hentries]
    intro v hv
    have hpair := (Prod.mk.inj (List.mem_singleton.mp hv)).1
    exact absurd hpair (by decide)
  obtain ⟨s', hcreate, hmap⟩ : ∃ s',
      L.store.createObj (List.replicate 19 97 ++ [98]) 4 8192 = .ok (.noError, 8192, s') ∧
      s'.objectMap = L.store.objectMap.insert (List.replicate 19 97 ++ [98])
        (Object.ctor (List.replicate 19 97 ++ [98]) 4 0 8192) := by
    unfold NvsStore.createObj
    rw [hfree]
    exact ⟨_, rfl, rfl⟩
  have hinv' := hinv.keep (NvsStore.createObj_ok hinv.named trivial hcreate)
  have hget := hinv'.delivers_single (k := List.replicate 19 97 ++ [98])
    (by rw [hkey]; decide)
  rw [hver, hdata] at hget
  refine ⟨l, f, _, hnew, .tail hrun (.createObj _ 4 8192 trivial hcreate),
    ⟨Object.ctor (List.replicate 19 97 ++ [98]) 4 0 8192, o, ?_, ?_⟩, hget, honly⟩
  · show s'.objectMap.find? _ = _
    rw [hmap, SortedMap.find?_eq_some, SortedMap.mem_insert]
    exact Or.inl rfl
  · show s'.objectMap.find? _ = _
    rw [hmap, SortedMap.find?_eq_some, SortedMap.mem_insert, hentries]
    have hne : List.replicate 19 (97 : Byte) ++ [99] ≠ List.replicate 19 97 ++ [98] := by decide
    exact Or.inr ⟨List.mem_singleton.mpr rfl, hne⟩

end NvStream
