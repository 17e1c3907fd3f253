/-
  Five places for the chunks of one object.

  `lehdr_t::deltas` has five elements.  `put` and `put_all` store the `i`-th chunk of an object into
  `deltas[i - 1]`, for as many chunks as `get_delta_chunks` returns; nothing is checked.  A sixth chunk
  is stored behind the array.

  How many chunks there can be depends on the patterns that occur.  A new object has every bit set,
  which is one chunk.  After a snapshot all bits are unset, and `set_modified_bit` never marks page 0.
  So an object of `n` pages has at most `n / 2` chunks: eleven pages are safe, and every larger object
  gets to six chunks if every second page of it is stored to (`six_chunks`).  `delta_capacity` says
  both; `sixth_chunk_overflows` is the run with twelve pages.
-/
import NvStream.DeltaStore.Calls

namespace NvStream

open FlatMem LittleEndian LoadProg PersistTrace BitRuns

/-! ## The stores into `deltas` -/

/-- The stores of the loop into `l_entry.deltas`, from round `i` on: each with its index `i - 1`. -/
def deltaStores : Nat → List Delta → List (Nat × Delta)
  | _, [] => []
  | i, c :: dc => (i - 1, c) :: deltaStores (i + 1) dc

/-- Every index is below the capacity. -/
def Object.DeltasFit (o : Object) : Prop := ∀ e ∈ deltaStores 1 o.getDeltaChunks, e.1 < 5

/-- The header describes every chunk: it is found at its index in `deltas`. -/
def LeHdr.Describes (h : LeHdr) (dc : List Delta) : Prop :=
  ∀ e ∈ deltaStores 1 dc, h.deltas.toList[e.1]? = some (e.2.startOffset, e.2.len)

theorem mem_deltaStores {dc : List Delta} {i j : Nat} {c : Delta} :
    (j, c) ∈ deltaStores (i + 1) dc ↔ ∃ n, dc[n]? = some c ∧ j = i + n := by
  induction dc generalizing i with
  | nil =>
    refine iff_of_false List.not_mem_nil ?_
    rintro ⟨n, hn, _⟩
    cases hn
  | cons d dc ih =>
    rw [deltaStores, List.mem_cons, ih, Prod.mk.injEq]
    constructor
    · rintro (⟨hj, rfl⟩ | ⟨n, hn, rfl⟩)
      · exact ⟨0, rfl, hj⟩
      · exact ⟨n + 1, hn, by omega⟩
    · rintro ⟨n, hn, rfl⟩
      cases n with
      | zero => exact Or.inl ⟨rfl, (Option.some.inj hn).symm⟩
      | succ n => exact Or.inr ⟨n, hn, by omega⟩

theorem Object.deltasFit_iff (o : Object) : o.DeltasFit ↔ o.getDeltaChunks.length ≤ 5 := by
  constructor
  · intro h
    by_contra hlong
    have hlt : 5 < o.getDeltaChunks.length := by omega
    have hmem : (5, o.getDeltaChunks[5]) ∈ deltaStores (0 + 1) o.getDeltaChunks :=
      mem_deltaStores.mpr ⟨5, List.getElem?_eq_getElem hlt, rfl⟩
    exact absurd (h _ hmem) (Nat.lt_irrefl 5)
  · rintro h ⟨j, c⟩ he
    obtain ⟨n, hn, rfl⟩ := mem_deltaStores.mp he
    have := (List.getElem?_eq_some_iff.mp hn).1
    show 0 + n < 5
    omega

/-- **The header describes every chunk exactly if every index is below the capacity.** -/
theorem Object.describes_iff (o : Object) (junk : LeHdr) (version : UInt64) :
    (junk.fillDelta o version).Describes o.getDeltaChunks ↔ o.DeltasFit := by
  constructor
  · intro h e he
    obtain ⟨hlt, _⟩ := List.getElem?_eq_some_iff.mp (h e he)
    rw [Vector.length_toList] at hlt
    exact hlt
  · rintro h ⟨j, c⟩ he
    have hlt : j < 5 := h _ he
    obtain ⟨n, hn, rfl⟩ := mem_deltaStores.mp he
    rw [Nat.zero_add] at hlt ⊢
    show (fillDeltas junk.deltas o.getDeltaChunks).toList[n]? = _
    rw [Vector.getElem?_toList, Vector.getElem?_eq_getElem hlt, fillDeltas, Vector.getElem_ofFn]
    simp only [hn]

/-! ## Which calls are undefined -/

theorem Log.appendWith_ne_undefined (l : Log) (f : File) (need : Nat) (copy : List (Op Byte) × Nat) :
    l.appendWith f need copy ≠ .error .undefined := by
  unfold Log.appendWith
  simp only
  split
  · split <;> intro h <;> cases h
  · intro h
    cases h

namespace DeltaStore

variable {s : DeltaStore}

/-- **`put` leaves the array exactly if some index does.** -/
theorem put_undefined_iff {key : Key} {obj : Object} (hobj : s.objectMap.find? key = some obj)
    (junk : LeHdr) (version : UInt64) :
    s.put junk key version = .error .undefined ↔ ¬ obj.DeltasFit := by
  have happ := Log.appendWith_ne_undefined s.log s.file
    (totCntv (obj.deltaRow s.heap junk version))
    (copyv s.log.writeOffset (obj.deltaRow s.heap junk version))
  rw [obj.deltasFit_iff]
  unfold put
  simp only [hobj]
  split
  · rename_i hfive
    refine iff_of_false ?_ (not_not_intro hfive)
    split
    · rename_i stop hstop
      intro h
      obtain rfl := Except.error.inj h
      exact happ hstop
    · intro h
      cases h
  · rename_i hfive
    exact iff_of_true rfl hfive

/-- So does `put_all`, whose number of rows is converted to `int` besides. -/
theorem putAll_undefined_iff (hcount : s.objectMap.entries.length + 1 < 2 ^ 31)
    (junk : Nat → LeHdr) :
    s.putAll junk = .error .undefined ↔ ∃ p ∈ s.objectMap.entries, ¬ p.2.DeltasFit := by
  have hfit : (∀ obj ∈ s.objectMap.entries.map Prod.snd, obj.getDeltaChunks.length ≤ 5) ↔
      ∀ p ∈ s.objectMap.entries, p.2.DeltasFit := by
    rw [List.forall_mem_map]
    exact forall₂_congr (fun p _ => p.2.deltasFit_iff.symm)
  unfold putAll
  simp only
  split
  · rename_i hall
    refine iff_of_false ?_ ?_
    · split
      · rename_i stop hstop
        intro h
        obtain rfl := Except.error.inj h
        exact Log.appendWith_ne_undefined _ _ _ _ hstop
      · intro h
        cases h
    · rintro ⟨p, hp, hnot⟩
      exact hnot (hfit.mp hall.2 p hp)
  · rename_i hall
    refine iff_of_true rfl ?_
    by_contra hnone
    refine hall ⟨by rw [List.length_map]; exact hcount, hfit.mpr (fun p hp => ?_)⟩
    by_contra hnot
    exact hnone ⟨p, hp, hnot⟩

end DeltaStore

/-! ## The patterns that occur -/

/-- One bit per page; and all bits are set, or the first is not. -/
structure Object.Patterned (o : Object) : Prop where
  pages : o.bitset.length = alignUp o.size.toNat / pageSize
  bits : (∀ b ∈ o.bitset, b = true) ∨ o.bitset[0]? ≠ some true

theorem Object.patterned_ctorDelta (name : Key) (size version : UInt64) (ptr : Nat) :
    (ctorDelta name size version ptr).Patterned :=
  ⟨List.length_replicate, Or.inl (fun _ hb => List.eq_of_mem_replicate hb)⟩

/-- Marking, versions and resets keep the pattern. -/
theorem Object.lasting_patterned : Object.Lasting Object.Patterned where
  mark := by
    intro o j h
    have hframe := o.sameFrame_setModifiedBit j
    refine ⟨by rw [hframe.length, hframe.size]; exact h.pages, ?_⟩
    rcases h.bits with hall | hfirst
    · left
      unfold setModifiedBit
      split
      · intro b hb
        rcases List.mem_or_eq_of_mem_set hb with hb | rfl
        · exact hall b hb
        · rfl
      · exact hall
    · right
      rw [o.first_setModifiedBit j]
      exact hfirst
  version := fun _ _ h => ⟨h.pages, h.bits⟩
  reset := by
    intro o h
    refine ⟨(List.length_map _).trans h.pages, Or.inr ?_⟩
    show (o.bitset.map (fun _ => false))[0]? ≠ some true
    rw [List.getElem?_map]
    intro hbit
    obtain ⟨b, _, hb⟩ := Option.map_eq_some_iff.mp hbit
    cases hb

/-- **Eleven pages are five runs at most.** -/
theorem Object.Patterned.deltasFit {o : Object} (h : o.Patterned)
    (hsize : o.size.toNat ≤ 11 * pageSize) : o.DeltasFit := by
  have hpages : o.bitset.length ≤ 11 := by
    rw [h.pages, alignUp, Nat.mul_div_cancel _ (by decide), pageSize] at *
    have hsmall : o.size.toNat + (4096 - 1) < 2 ^ 64 := by omega
    rw [u64_of_lt hsmall]
    omega
  rw [deltasFit_iff, getDeltaChunks_eq, List.length_map]
  rcases h.bits with hall | hfirst
  · by_cases hne : o.bitset = []
    · rw [hne]
      decide
    · rw [runs_all hall hne, List.length_singleton]
      decide
  · have := length_runs_le_of_first hfirst
    omega

/-! ## Marking pages one by one -/

namespace DeltaStore

variable {k : Key}

/-- Stores into several of its pages mark exactly these. -/
theorem write_pages (b : Byte) : ∀ {js : List Nat} {s : DeltaStore} {o : Object}, o.Placed →
    s.objectMap.entries = [(k, o)] → js.Nodup →
    (∀ j ∈ js, j * pageSize < o.size.toNat ∧ s.readOnly (o.page j) = true) →
    ∃ s', s.writeAll (js.map (fun j => (o.ptr + j * pageSize, [b]))) = .ok s' ∧
      s'.objectMap.entries = [(k, js.foldl Object.setModifiedBit o)] := by
  intro js
  induction js with
  | nil => exact fun _ hmap _ _ => ⟨_, rfl, hmap⟩
  | cons j js ih =>
    intro s o ho hmap hnodup hin
    obtain ⟨hj, hro⟩ := hin j List.mem_cons_self
    obtain ⟨hnot, hnodup⟩ := List.nodup_cons.mp hnodup
    obtain ⟨s₁, hwrite, hmap₁, hkeep, _⟩ := write_page ho hmap hj hro b
    have hframe := o.sameFrame_setModifiedBit j
    obtain ⟨s₂, hrest, hmap₂⟩ := ih (ho.of_sameFrame hframe) hmap₁ hnodup (fun i hi => by
      obtain ⟨hlt, hlocked⟩ := hin i (List.mem_cons_of_mem j hi)
      have hne : i ≠ j := by
        rintro rfl
        exact hnot hi
      refine ⟨by rw [hframe.size]; exact hlt, ?_⟩
      show s₁.readOnly (pageOf (o.setModifiedBit j).ptr + i) = true
      rw [hframe.ptr]
      exact (hkeep i hne).trans hlocked)
    refine ⟨s₂, ?_, hmap₂⟩
    rw [hframe.ptr] at hrest
    rw [List.map_cons, writeAll, writeBytes]
    simp only [hwrite]
    exact hrest

/-- Stores of the application are calls of a run. -/
theorem run_writeBytes : ∀ {bs : List Byte} {s s' : DeltaStore} {addr : Nat},
    s.writeBytes addr bs = .ok s' → Relation.ReflTransGen Run s s' := by
  intro bs
  induction bs with
  | nil =>
    intro s s' addr h
    obtain rfl := Except.ok.inj h
    exact .refl
  | cons b bs ih =>
    intro s s' addr h
    rw [writeBytes] at h
    split at h
    · cases h
    · rename_i s₁ hwrite
      exact .head (.call (.write addr b) hwrite) (ih h)

theorem run_writeAll : ∀ {cs : List (Nat × List Byte)} {s s' : DeltaStore},
    s.writeAll cs = .ok s' → Relation.ReflTransGen Run s s' := by
  intro cs
  induction cs with
  | nil =>
    intro s s' h
    obtain rfl := Except.ok.inj h
    exact .refl
  | cons c cs ih =>
    intro s s' h
    rw [writeAll] at h
    split at h
    · cases h
    · rename_i s₁ hwrite
      exact (run_writeBytes hwrite).trans (ih h)

end DeltaStore

/-- Every second page of an object without marked pages, from page 1 to page 11: six chunks. -/
theorem Object.length_chunks_alternating {o : Object} {n : Nat}
    (h : o.bitset = List.replicate (n + 12) false) :
    ([1, 3, 5, 7, 9, 11].foldl setModifiedBit o).getDeltaChunks.length = 6 := by
  have hbits : ([1, 3, 5, 7, 9, 11].foldl setModifiedBit o).bitset =
      [false, true, false, true, false, true, false, true, false, true, false, true] ++
        List.replicate n false := by
    simp [List.foldl, setModifiedBit, h, List.replicate_succ]
  rw [getDeltaChunks_eq, List.length_map, hbits]
  show ((1, 2) :: (3, 4) :: (5, 6) :: (7, 8) :: (9, 10) ::
    runsFrom (some 11) 12 (List.replicate n false)).length = 6
  rw [runsFrom_close]
  rfl

/-- A new object is one chunk at most. -/
theorem Object.length_chunks_ctorDelta (name : Key) (size version : UInt64) (ptr : Nat) :
    (ctorDelta name size version ptr).getDeltaChunks.length ≤ 1 := by
  have hall : ∀ b ∈ (ctorDelta name size version ptr).bitset, b = true :=
    fun _ hb => List.eq_of_mem_replicate hb
  rw [getDeltaChunks_eq, List.length_map]
  by_cases hne : (ctorDelta name size version ptr).bitset = []
  · rw [hne]
    decide
  · rw [runs_all hall hne, List.length_singleton]

/-- **Every object above eleven pages gets to six chunks**, if the log takes its first `put` at all.
    Behind it the application stores one byte into each of the pages 1, 3, 5, 7, 9 and 11. -/
theorem DeltaStore.six_chunks {size : UInt64} (hpages : 11 * pageSize < size.toNat)
    (hlog : size.toNat + 177 ≤ deltaLogSize) :
    ∃ l f s₁ n s₂ s₃ o, Log.ctor none deltaLogSize = .ok (l, f) ∧
      (ctor l f (fun _ => 0)).createObj [97] size 4096 = .ok (.noError, 4096, s₁) ∧
      s₁.put blankHdr [97] 1 = .ok (.inr (n, s₂)) ∧
      s₂.writeAll [(8192, [1]), (16384, [1]), (24576, [1]), (32768, [1]), (40960, [1]), (49152, [1])] =
        .ok s₃ ∧
      s₃.objectMap.entries = [([97], o)] ∧ o.size = size ∧ o.getDeltaChunks.length = 6 := by
  obtain ⟨l, f, s₁, hnew, hcreate, hmap, _, _, hr, hs, hlen⟩ := one_object size 4096
  have hobj : s₁.objectMap.find? [97] = some (Object.ctorDelta [97] size 0 4096) :=
    SortedMap.find?_of_singleton hmap
  have hsmall : size.toNat ≤ 2 ^ 40 := Nat.le_trans (by omega) (show deltaLogSize ≤ 2 ^ 40 by decide)
  have hplaced : (Object.ctorDelta [97] size 0 4096).Placed :=
    Object.placed_ctorDelta [97] 0 (by decide) (fun _ => by decide) (by omega)
  have hbytes := Object.deltaLen_le _ hplaced.toPaged.sized
  have hone := Object.length_chunks_ctorDelta [97] size 0 4096
  obtain ⟨n, s₂, hput⟩ := put_of_fits hr hs blankHdr 1 hobj (by omega) (by
    rw [hlen, List.length_nil, sizeofLehdr]
    have : (Object.ctorDelta [97] size 0 4096).size = size := rfl
    rw [this] at hbytes
    omega)
  obtain ⟨obj, log, file, hobj', _, hs₂⟩ := put_eq hput
  obtain rfl := Option.some.inj (hobj.symm.trans hobj')
  have hmap₂ : s₂.objectMap.entries =
      [([97], snapshotted 1 (Object.ctorDelta [97] size 0 4096))] := by
    rw [hs₂]
    exact SortedMap.modify_of_singleton hmap _
  obtain ⟨k, hk⟩ : ∃ k, alignUp size.toNat / pageSize = k + 12 := by
    refine ⟨alignUp size.toNat / pageSize - 12, ?_⟩
    rw [alignUp, Nat.mul_div_cancel _ (by decide), pageSize] at *
    rw [u64_of_lt (by omega)]
    omega
  have hbits : (snapshotted 1 (Object.ctorDelta [97] size 0 4096)).bitset =
      List.replicate (k + 12) false := by
    show (List.replicate (alignUp size.toNat / pageSize) true).map (fun _ => false) = _
    rw [List.map_replicate, hk]
  -- the snapshot has made all pages read-only
  have hlocked : ∀ j ∈ [1, 3, 5, 7, 9, 11], j * pageSize < size.toNat ∧
      s₂.readOnly ((snapshotted 1 (Object.ctorDelta [97] size 0 4096)).page j) = true := by
    intro j hj
    have hle : j ≤ 11 := by
      revert j
      decide
    refine ⟨Nat.lt_of_le_of_lt (Nat.mul_le_mul_right pageSize hle) hpages, ?_⟩
    rw [hs₂]
    have hin : j < (Object.ctorDelta [97] size 0 4096).bitset.length := by
      show j < (List.replicate (alignUp size.toNat / pageSize) true).length
      rw [List.length_replicate, hk]
      omega
    exact (Object.enableWriteProtection_iff hplaced _ _).mpr (Or.inr ⟨j, hin, rfl⟩)
  obtain ⟨s₃, hwrite, hmap₃⟩ := write_pages 1
    (hplaced.of_sameFrame (sameFrame_snapshotted 1 _)) hmap₂ (by decide) hlocked
  have hptr : (snapshotted 1 (Object.ctorDelta [97] size 0 4096)).ptr = 4096 := rfl
  have haddrs : [1, 3, 5, 7, 9, 11].map (fun j => (4096 + j * pageSize, [(1 : Byte)])) =
      [(8192, [1]), (16384, [1]), (24576, [1]), (32768, [1]), (40960, [1]), (49152, [1])] := by
    decide
  rw [hptr, haddrs] at hwrite
  refine ⟨l, f, s₁, n, s₂, s₃, _, hnew, hcreate, hput, hwrite, hmap₃, ?_,
    Object.length_chunks_alternating hbits⟩
  have hframe : ∀ (js : List Nat) (o : Object), (js.foldl Object.setModifiedBit o).size = o.size := by
    intro js
    induction js with
    | nil => exact fun o => rfl
    | cons j js ih => exact fun o => (ih _).trans (o.sameFrame_setModifiedBit j).size
  exact hframe _ _

/-! ## The capacity -/

/-- **When the header can describe the chunks.**  In every state of every run: the stores of `put` and
    of `put_all` into `deltas` stay inside the array if and only if the header describes every chunk,
    and otherwise the call is undefined; they do for every object of at most eleven pages.  And eleven
    is the bound: any larger size that the log takes at all is that of an object for which, in some
    run, they do not. -/
theorem delta_capacity {l : Log} {f : File} {heap : Mem Byte} {s : DeltaStore}
    (hrun : Relation.ReflTransGen DeltaStore.Run (DeltaStore.ctor l f heap) s) :
    (∀ p ∈ s.objectMap.entries, p.2.size.toNat ≤ 11 * pageSize → p.2.DeltasFit) ∧
    (∀ p ∈ s.objectMap.entries, ∀ junk version,
      (p.2.DeltasFit ↔ (junk.fillDelta p.2 version).Describes p.2.getDeltaChunks) ∧
      (s.put junk p.1 version = .error .undefined ↔ ¬ p.2.DeltasFit)) ∧
    (s.objectMap.entries.length + 1 < 2 ^ 31 → ∀ junk,
      (s.putAll junk = .error .undefined ↔ ∃ p ∈ s.objectMap.entries, ¬ p.2.DeltasFit)) ∧
    (∀ size : UInt64, 11 * pageSize < size.toNat → size.toNat + 177 ≤ deltaLogSize →
      ∃ l' f' s' o, Log.ctor none deltaLogSize = .ok (l', f') ∧
        Relation.ReflTransGen DeltaStore.Run (DeltaStore.ctor l' f' (fun _ => 0)) s' ∧
        ([97], o) ∈ s'.objectMap.entries ∧ o.size = size ∧ ¬ o.DeltasFit) := by
  have hpattern : s.Objects Object.Patterned :=
    DeltaStore.Run.objects Object.lasting_patterned Object.patterned_ctorDelta hrun
  refine ⟨fun p hp hsize => (hpattern p hp).deltasFit hsize, fun p hp junk version => ⟨?_, ?_⟩, ?_,
    fun size hpages hlog => ?_⟩
  · exact (p.2.describes_iff junk version).symm
  · exact DeltaStore.put_undefined_iff ((SortedMap.find?_eq_some _ _ _).mpr hp) junk version
  · exact fun hcount junk => DeltaStore.putAll_undefined_iff hcount junk
  · obtain ⟨l', f', s₁, n, s₂, s₃, o, hnew, hcreate, hput, hwrite, hmap, hsize, hsix⟩ :=
      DeltaStore.six_chunks hpages hlog
    refine ⟨l', f', s₃, o, hnew, ?_, by rw [hmap]; exact List.mem_singleton.mpr rfl, hsize, ?_⟩
    · exact .head (.call (.createObj [97] size 4096) (DeltaStore.after_createObj hcreate))
        (.head (.call (.put blankHdr [97] 1) (DeltaStore.after_put hput))
          (DeltaStore.run_writeAll hwrite))
    · rw [Object.deltasFit_iff, hsix]
      decide

/-- An object of three pages is created, stored to, put, and stored to in its last page: its bits are
    mixed, and `put` stores the one chunk into the header. -/
theorem delta_capacity_last_page :
    ∃ l f s₁ s₂ n s₃ s₄ o, Log.ctor none deltaLogSize = .ok (l, f) ∧
      (DeltaStore.ctor l f (fun _ => 0)).createObj [97] 8193 4096 = .ok (.noError, 4096, s₁) ∧
      s₁.write 4096 5 = .ok s₂ ∧ s₂.put blankHdr [97] 1 = .ok (.inr (n, s₃)) ∧
      s₃.write 12288 7 = .ok s₄ ∧ ([97], o) ∈ s₄.objectMap.entries ∧
      o.bitset = [false, false, true] ∧ o.DeltasFit ∧
      ∀ junk version, s₄.put junk [97] version ≠ .error .undefined := by
  obtain ⟨l, f, s₁, s₂, n, s₃, s₄, hnew, _, hcreate, hwrite, hput, hwrite₄, _, _, _, _, _, _, _, _,
    hmap₄, _⟩ := DeltaStore.two_stores
  have hrun : Relation.ReflTransGen DeltaStore.Run (DeltaStore.ctor l f (fun _ => 0)) s₄ :=
    .tail (.tail (.tail (.single (.call (.createObj [97] 8193 4096)
      (DeltaStore.after_createObj hcreate))) (.call (.write 4096 5) hwrite))
      (.call (.put blankHdr [97] 1) (DeltaStore.after_put hput))) (.call (.write 12288 7) hwrite₄)
  have hmem : ([97], (DeltaStore.snapshotted 1 threePages).setModifiedBit 2) ∈
      s₄.objectMap.entries := by
    rw [hmap₄]
    exact List.mem_singleton.mpr rfl
  obtain ⟨hsmall, hundefined, _⟩ := delta_capacity hrun
  have hfit := hsmall _ hmem (by decide)
  refine ⟨l, f, s₁, s₂, n, s₃, s₄, _, hnew, hcreate, hwrite, hput, hwrite₄, hmem, by decide, hfit,
    fun junk version h => ?_⟩
  exact (hundefined _ hmem junk version).2.mp h hfit

/-- **A sixth chunk.**  An object of twelve pages is created and put; then the application stores one
    byte into each of the pages 1, 3, 5, 7, 9 and 11.  That makes six chunks, the sixth is stored at
    index 5, and both `put` and `put_all` are undefined. -/
theorem sixth_chunk_overflows :
    ∃ l f s₁ n s₂ s₃ o, Log.ctor none deltaLogSize = .ok (l, f) ∧
      (DeltaStore.ctor l f (fun _ => 0)).createObj [97] 45057 4096 = .ok (.noError, 4096, s₁) ∧
      s₁.put blankHdr [97] 1 = .ok (.inr (n, s₂)) ∧
      s₂.writeAll [(8192, [1]), (16384, [1]), (24576, [1]), (32768, [1]), (40960, [1]), (49152, [1])] =
        .ok s₃ ∧
      s₃.objectMap.find? [97] = some o ∧ o.getDeltaChunks.length = 6 ∧ ¬ o.DeltasFit ∧
      (∀ junk version, s₃.put junk [97] version = .error .undefined) ∧
      ∀ junk, s₃.putAll junk = .error .undefined := by
  obtain ⟨l, f, s₁, n, s₂, s₃, o, hnew, hcreate, hput, hwrite, hmap₃, _, hsix⟩ :=
    DeltaStore.six_chunks (show 11 * pageSize < (45057 : UInt64).toNat by decide) (by decide)
  have hobj₃ := SortedMap.find?_of_singleton hmap₃
  have hfit : ¬ o.DeltasFit := by
    rw [Object.deltasFit_iff, hsix]
    decide
  refine ⟨l, f, s₁, n, s₂, s₃, o, hnew, hcreate, hput, hwrite, hobj₃, hsix, hfit,
    fun junk version => (DeltaStore.put_undefined_iff hobj₃ junk version).mpr hfit,
    fun junk => (DeltaStore.putAll_undefined_iff ?_ junk).mpr
      ⟨([97], o), (SortedMap.find?_eq_some _ _ _).mp hobj₃, hfit⟩⟩
  rw [hmap₃, List.length_singleton]
  decide

end NvStream
