/-
  Every version of an object can be rebuilt from the entries its `put`s have left in the log.

  A reader finds in an entry how many bytes of payload there are (`delta_len`), and in `deltas` how
  these are to be cut and where each piece goes.  It copies the pieces, entry by entry in log order,
  each to its `start_offset`.

      the entry       says exactly what `put` handed to `appendv`          (`Version.logged_of_put`)
      its chunks      cover EXACTLY the marked pages, cut at the size      (`storeAll_chunkCopies`)
      one more entry  brings the copy up to date wherever a bit was set    (`Rebuilds.concat`)

  Elsewhere the copy is left alone, and nothing has changed since the previous `put`.  The induction
  starts at the constructor, which sets every bit.

  `versions_reconstructible` is the statement over runs, about the log file at the end of the run.
  Between two `put`s anything may happen to the process, as long as it does not replace the object or
  clear its bits; other objects may be put, too.
-/
import NvStream.DeltaStore.Decode
import Mathlib.Logic.Relation

namespace NvStream

open FlatMem LittleEndian BitRuns

/-! ## What an entry says -/

/-- The elements of `deltas` cut `n` bytes of payload, the first of them at `src`: each piece is an
    offset in the object, and the bytes that go there. -/
def cutChunks (m : Mem Byte) : List (UInt64 × UInt64) → Nat → Nat → List (Nat × List Byte)
  | [], _, _ => []
  | (start, len) :: ds, n, src =>
    if n = 0 then []
    else (start.toNat, load m src len.toNat) :: cutChunks m ds (n - len.toNat) (src + len.toNat)

/-- The chunks of the entry at `off`, taken from the log file alone. -/
def File.deltaChunks (f : File) (off : Nat) : List (Nat × List Byte) :=
  cutChunks f.bytes (decodeDeltas (load f.bytes (off + deltasField) 80)).toList
    (word f.bytes (off + deltaLenField)) (off + sizeofLehdr)

/-- The buffer after the entries were copied into it, the oldest first. -/
def rebuild (f : File) (copy : Mem Byte) (offs : List Nat) : Mem Byte :=
  offs.foldl (fun m off => storeAll m (f.deltaChunks off)) copy

theorem cutChunks_zero (m : Mem Byte) (ds : List (UInt64 × UInt64)) (src : Nat) :
    cutChunks m ds 0 src = [] := by
  cases ds with
  | nil => rfl
  | cons d ds => exact if_pos rfl

/-- **Cutting finds the chunks again**, if none of them is empty: the elements behind them, which were
    never written, are not looked at. -/
theorem ChunksAt.cut {dst src : Nat} {ds : Vector (UInt64 × UInt64) 5} {S : Set Nat} {m : Mem Byte} :
    ∀ {ps : List (Delta × List Byte)} {i srcOffset : Nat}, ChunksAt dst src ds S m i srcOffset ps →
    (∀ p ∈ ps, 0 < p.2.length) →
    cutChunks m (ds.toList.drop i) (ps.flatMap Prod.snd).length (src + srcOffset) =
      ps.map (fun p => (p.1.startOffset.toNat, p.2)) := by
  intro ps
  induction ps with
  | nil =>
    intro i srcOffset _ _
    exact cutChunks_zero _ _ _
  | cons p ps ih =>
    intro i srcOffset h hpos
    obtain ⟨hi, hget⟩ := h.head
    have hlen : p.2.length = p.1.len.toNat := (h.shape p List.mem_cons_self).1
    have hp := hpos p List.mem_cons_self
    have hrest := ih h.tail (fun q hq => hpos q (List.mem_cons_of_mem p hq))
    have hlt : i < ds.toList.length := by
      rw [Vector.length_toList]
      exact hi
    rw [List.drop_eq_getElem_cons hlt, Vector.getElem_toList, hget, List.flatMap_cons,
      List.length_append, cutChunks, if_neg (by omega), ← hlen, h.load_head, Nat.add_sub_cancel_left,
      Nat.add_assoc, hrest, List.map_cons]

/-! ## Runs -/

/-- One `put` of the object: where its entry begins, the chunks that `get_delta_chunks` returned with
    the payload that `put` handed to `appendv` for each, and the bytes of the object at that moment. -/
structure Version where
  off : Nat
  chunks : List (Nat × List Byte)
  contents : List Byte

/-- The version that a `put` of the object is about to write. -/
def DeltaStore.versionOf (s : DeltaStore) (o : Object) : Version where
  off := s.log.writeOffset
  chunks := o.chunkCopies s.heap
  contents := o.contents s.heap

/-- A log that holds `body`, and maybe more behind it, has an entry for the version. -/
def Version.Logged (body : List Byte) (v : Version) : Prop :=
  ∀ f more, Rep f (body ++ more) → f.deltaChunks v.off = v.chunks

theorem Version.Logged.append {v : Version} {body : List Byte} (h : v.Logged body)
    (data : List Byte) : v.Logged (body ++ data) := by
  intro f more hr
  rw [List.append_assoc] at hr
  exact h f _ hr

/-- **The entry of a successful `put` says what was put.** -/
theorem Version.logged_of_put {s s' : DeltaStore} {body : List Byte}
    (hs : s.log.Synced s.file body) {junk : LeHdr} {key : Key} {version : UInt64} {n : Nat}
    (hput : s.put junk key version = .ok (.inr (n, s'))) {o : Object}
    (hobj : s.objectMap.find? key = some o) (ho : o.Sized) :
    (s.versionOf o).Logged
      (body ++ (((junk.fillDelta o version).encode ++ o.payload s.heap) ++ commitWord)) := by
  intro f more hr
  have hfive := DeltaStore.length_chunks_of_put hput hobj
  have hsmall : o.deltaLen < 2 ^ 64 := Nat.lt_of_le_of_lt (o.deltaLen_le ho) o.size.toNat_lt
  have hroom := hr.room
  have hlen := hr.small
  rw [List.append_assoc, List.append_assoc _ commitWord] at hr
  obtain ⟨hhdr, hpayload⟩ := hr.entry
  obtain ⟨hcount, hdeltas⟩ := hhdr.deltaFields
  rw [o.length_payload] at hpayload
  simp only [List.length_append, LeHdr.length_encode, o.length_payload] at hroom
  -- `delta_len` is the length of the payload
  have hword : word f.bytes (32 + body.length + deltaLenField) = o.deltaLen :=
    hcount.trans (o.toNat_deltaLen64.trans (u64_of_lt hsmall))
  have hchunks : ChunksAt 0 (32 + body.length + sizeofLehdr) _ _ f.bytes 0 0 (o.pieces s.heap) :=
    Object.chunksAt ho hfive s.heap junk version (by rw [Nat.zero_add]; exact o.size.toNat_lt)
      (by rw [sizeofLehdr]; omega) hpayload
  have hcut := hchunks.cut (fun p hp => by
    obtain ⟨c, hc, rfl⟩ := List.mem_map.mp hp
    show 0 < (load _ _ _).length
    rw [length_load]
    exact (Object.chunk_shape ho hc).1)
  rw [o.flatMap_pieces, o.length_payload, List.drop_zero, Nat.add_zero] at hcut
  show f.deltaChunks s.log.writeOffset = _
  rw [hs.write, File.deltaChunks, hdeltas, hword]
  exact hcut

/-- A store, and the `put`s of one object so far. -/
structure Versions where
  store : DeltaStore
  puts : List Version

namespace Versions

/-- A `put` of the object, a `put` of another one, or anything else that appends nothing, keeps the
    object and clears none of its bits.  At a `put` of the object, every byte that changed since the
    previous one lies in a marked page. -/
inductive Step (key : Key) : Versions → Versions → Prop
  | modify {V : Versions} {o o' : Object} {s' : DeltaStore}
      (ho : V.store.objectMap.find? key = some o) (ho' : s'.objectMap.find? key = some o')
      (hlog : s'.log = V.store.log) (hfile : s'.file = V.store.file) (hframe : o.SameFrame o')
      (hbits : ∀ j : Nat, o.bitset[j]? = some true → o'.bitset[j]? = some true) :
      Step key V ⟨s', V.puts⟩
  | other {V : Versions} {n : Nat} {s' : DeltaStore} (junk : LeHdr) (key' : Key) (version : UInt64)
      (hne : key' ≠ key) (h : V.store.put junk key' version = .ok (.inr (n, s'))) :
      Step key V ⟨s', V.puts⟩
  | put {V : Versions} {o : Object} {n : Nat} {s' : DeltaStore} (junk : LeHdr) (version : UInt64)
      (ho : V.store.objectMap.find? key = some o)
      (hmarked : ∀ v, V.puts.getLast? = some v → ∀ i < o.size.toNat,
        v.contents[i]? ≠ some (V.store.heap (o.ptr + i)) → o.bitset[i / pageSize]? = some true)
      (h : V.store.put junk key version = .ok (.inr (n, s'))) :
      Step key V ⟨s', V.puts ++ [V.store.versionOf o]⟩

/-- The buffer after the chunks of the versions were copied into it. -/
def overlay (copy : Mem Byte) (puts : List Version) : Mem Byte :=
  puts.foldl (fun m v => storeAll m v.chunks) copy

theorem overlay_concat (copy : Mem Byte) (puts : List Version) (v : Version) :
    overlay copy (puts ++ [v]) = storeAll (overlay copy puts) v.chunks :=
  List.foldl_concat ..

/-- Up to each `put`, the chunks rebuild its contents from any buffer, inside `size` bytes. -/
def Rebuilds (size : Nat) (puts : List Version) : Prop :=
  ∀ n v, puts[n]? = some v →
    (∀ copy, load (overlay copy (puts.take (n + 1))) 0 size = v.contents) ∧
      ∀ c ∈ v.chunks, c.1 + c.2.length ≤ size

/-- The object is live, before its first `put` it is marked everywhere, its chunks rebuild it, and the
    log has them. -/
structure Inv (key : Key) (size : UInt64) (V : Versions) : Prop where
  live : ∃ o, V.store.objectMap.find? key = some o ∧ o.Placed ∧ o.size = size ∧
    (V.puts = [] → ∀ j < o.bitset.length, o.bitset[j]? = some true)
  rebuilds : Rebuilds size.toNat V.puts
  logged : ∃ body, Rep V.store.file body ∧ V.store.log.Synced V.store.file body ∧
    ∀ v ∈ V.puts, v.Logged body

variable {key : Key} {size : UInt64} {V V' : Versions}

/-- **One more version.**  Marked bytes come from the new chunks; the others are what they were at the
    previous `put`, which the earlier chunks rebuild. -/
theorem Rebuilds.concat {s : DeltaStore} {o : Object} (ho : o.Placed) {puts : List Version}
    (hr : Rebuilds o.size.toNat puts)
    (hfirst : puts = [] → ∀ j < o.bitset.length, o.bitset[j]? = some true)
    (hmarked : ∀ v, puts.getLast? = some v → ∀ i < o.size.toNat,
      v.contents[i]? ≠ some (s.heap (o.ptr + i)) → o.bitset[i / pageSize]? = some true) :
    Rebuilds o.size.toNat (puts ++ [s.versionOf o]) := by
  intro n v hn
  rcases Nat.lt_or_ge n puts.length with hlt | hge
  · rw [List.getElem?_append_left hlt] at hn
    rw [List.take_append_of_le_length (by omega)]
    exact hr n v hn
  · obtain rfl : n = puts.length := by
      have := (List.getElem?_eq_some_iff.mp hn).1
      rw [List.length_append, List.length_singleton] at this
      omega
    rw [List.getElem?_concat_length] at hn
    obtain rfl := Option.some.inj hn
    rw [List.take_of_length_le (by rw [List.length_append, List.length_singleton])]
    refine ⟨fun copy => ?_, Object.chunkCopies_bounds ho.toPaged.sized s.heap⟩
    show _ = load s.heap o.ptr o.size.toNat
    rw [overlay_concat, ← Nat.add_zero o.ptr, ← load_shift]
    apply load_congr
    intro a ⟨_, ha⟩
    rw [Nat.zero_add] at ha
    show storeAll _ (o.chunkCopies s.heap) a = _
    rw [Object.storeAll_chunkCopies ho.toPaged.sized ho.end_lt s.heap _ ha]
    split
    · rfl
    · rename_i hbit
      -- an unmarked byte: there was an earlier version, and the byte has not changed since
      rcases List.eq_nil_or_concat puts with rfl | ⟨pre, last, rfl⟩
      · exact absurd (hfirst rfl _ (Object.page_lt ho.toPaged ha)) hbit
      · rw [List.concat_eq_append] at *
        have hsame : last.contents[a]? = some (s.heap (o.ptr + a)) := by
          by_contra hne
          exact hbit (hmarked last List.getLast?_concat a ha hne)
        have hlast := (hr pre.length last (List.getElem?_concat_length ..)).1 copy
        rw [List.take_of_length_le (by rw [List.length_append, List.length_singleton])] at hlast
        rw [← hlast, getElem?_load _ _ _ _ ha, Nat.zero_add] at hsame
        exact Option.some.inj hsame

/-- What a `put` of some key leaves of the object filed under `key`. -/
theorem find?_put {s s' : DeltaStore} {junk : LeHdr} {key' : Key} {version : UInt64} {n : Nat}
    {o : Object} (ho : s.objectMap.find? key = some o)
    (h : s.put junk key' version = .ok (.inr (n, s'))) :
    s'.objectMap.find? key =
      some (if key = key' then DeltaStore.snapshotted version o else o) := by
  obtain ⟨_, _, _, _, _, rfl⟩ := DeltaStore.put_eq h
  rw [SortedMap.find?_eq_some] at ho ⊢
  have hmem := SortedMap.mem_modify_of_mem ho key' (DeltaStore.snapshotted version)
  by_cases hk : key = key'
  · rw [if_pos hk] at hmem ⊢
    exact hmem
  · rw [if_neg hk] at hmem ⊢
    exact hmem

/-- **One step keeps the invariant.** -/
theorem Step.inv (h : Step key V V') (hi : Inv key size V) : Inv key size V' := by
  obtain ⟨o, ho, hplaced, hsize, hfirst⟩ := hi.live
  obtain ⟨body, hr, hs, hlogged⟩ := hi.logged
  cases h with
  | @modify o₁ o' s' ho₁ ho' hlog hfile hframe hbits =>
    obtain rfl := Option.some.inj (ho.symm.trans ho₁)
    refine ⟨⟨o', ho', hplaced.of_sameFrame hframe, hframe.size.trans hsize, ?_⟩, hi.rebuilds, ?_⟩
    · intro hnil j hj
      rw [hframe.length] at hj
      exact hbits j (hfirst hnil j hj)
    · refine ⟨body, ?_, ?_, hlogged⟩
      · rw [hfile]
        exact hr
      · rw [hfile, hlog]
        exact hs
  | @other n s' junk key' version hne h =>
    have hfind := find?_put ho h
    rw [if_neg (Ne.symm hne)] at hfind
    obtain ⟨_, _, hr', hs', _⟩ := DeltaStore.put_ok hr hs h
    exact ⟨⟨o, hfind, hplaced, hsize, hfirst⟩, hi.rebuilds, _, hr', hs',
      fun v hv => (hlogged v hv).append _⟩
  | @put o₁ n s' junk version ho₁ hmarked h =>
    obtain rfl := Option.some.inj (ho.symm.trans ho₁)
    have hfind := find?_put ho h
    rw [if_pos rfl] at hfind
    obtain ⟨o₂, ho₂, hr', hs', _⟩ := DeltaStore.put_ok hr hs h
    obtain rfl := Option.some.inj (ho.symm.trans ho₂)
    refine ⟨⟨DeltaStore.snapshotted version o, hfind, ?_, hsize, ?_⟩, ?_, _, hr', hs', ?_⟩
    · exact hplaced.of_sameFrame (DeltaStore.sameFrame_snapshotted version o)
    · intro hnil
      exact absurd hnil (List.append_ne_nil_of_right_ne_nil _ (List.cons_ne_nil _ _))
    · have hrebuilds := hi.rebuilds
      rw [← hsize] at hrebuilds ⊢
      exact hrebuilds.concat hplaced hfirst hmarked
    · intro v hv
      rcases List.mem_append.mp hv with hv | hv
      · exact (hlogged v hv).append _
      · rw [List.mem_singleton.mp hv]
        exact Version.logged_of_put hs h ho hplaced.toPaged.sized

theorem Step.run_inv (h : Relation.ReflTransGen (Step key) V V') (hi : Inv key size V) :
    Inv key size V' :=
  Runs.invariant Step.inv h hi

/-- The constructor marks every page. -/
theorem start_inv {s s' : DeltaStore} {body : List Byte} {ptr addr : Nat} {code : ErrorCode}
    (hr : Rep s.file body) (hs : s.log.Synced s.file body) (halloc : s.Allocated size ptr)
    (hcreate : s.createObj key size ptr = .ok (code, addr, s')) : Inv key size ⟨s', []⟩ := by
  obtain ⟨_, hplaced, rfl⟩ := DeltaStore.createObj_eq halloc hcreate
  refine ⟨⟨Object.ctorDelta key size 0 ptr, ?_, hplaced, rfl, ?_⟩, ?_, body, hr, hs, ?_⟩
  · rw [SortedMap.find?_eq_some, SortedMap.mem_insert]
    exact Or.inl rfl
  · intro _ j hj
    rw [List.getElem?_eq_getElem hj]
    exact congrArg some (List.getElem_replicate _)
  · intro n v hn
    cases hn
  · intro v hv
    exact absurd hv List.not_mem_nil

/-- What is copied from the file is what was put. -/
theorem rebuild_eq_overlay {f : File} (copy : Mem Byte) {puts : List Version}
    (h : ∀ v ∈ puts, f.deltaChunks v.off = v.chunks) :
    rebuild f copy (puts.map Version.off) = overlay copy puts := by
  rw [rebuild, overlay, List.foldl_map]
  exact List.foldl_ext _ _ _ (fun m v hv => by rw [h v hv])

end Versions

/-- **Every version is reconstructible from the log.**  For an object of any size and any run of
    successful `put`s of it, `put`s of others and modifications between them, in which every byte
    changed between two `put`s lies in a page marked at the second: in the log file at the end, the
    entry of each `put` holds the chunks that `get_delta_chunks` returned with the payload `put` handed
    to `appendv`; from any buffer, the entries of the first `n + 1` `put`s, copied in order, yield the
    bytes of the object at the last of them; and no chunk reaches past the size. -/
theorem versions_reconstructible {s s₁ : DeltaStore} {body : List Byte} (hr : Rep s.file body)
    (hs : s.log.Synced s.file body) {key : Key} {size : UInt64} {ptr addr : Nat}
    {code : ErrorCode} (halloc : s.Allocated size ptr)
    (hcreate : s.createObj key size ptr = .ok (code, addr, s₁)) {V : Versions}
    (hrun : Relation.ReflTransGen (Versions.Step key) ⟨s₁, []⟩ V) (copy : Mem Byte) {n : Nat}
    {v : Version} (hn : V.puts[n]? = some v) :
    V.store.file.deltaChunks v.off = v.chunks ∧
      load (rebuild V.store.file copy ((V.puts.take (n + 1)).map Version.off)) 0 size.toNat =
        v.contents ∧
      ∀ c ∈ V.store.file.deltaChunks v.off, c.1 + c.2.length ≤ size.toNat := by
  have hi := Versions.Step.run_inv hrun (Versions.start_inv hr hs halloc hcreate)
  obtain ⟨body', hr', _, hlogged⟩ := hi.logged
  have hfile : ∀ w ∈ V.puts, V.store.file.deltaChunks w.off = w.chunks :=
    fun w hw => hlogged w hw _ [] (by rw [List.append_nil]; exact hr')
  obtain ⟨hrebuild, hbounds⟩ := hi.rebuilds n v hn
  have hv := hfile v (List.mem_of_getElem? hn)
  refine ⟨hv, ?_, ?_⟩
  · rw [Versions.rebuild_eq_overlay copy (fun w hw => hfile w (List.mem_of_mem_take hw))]
    exact hrebuild copy
  · rw [hv]
    exact hbounds

/-- An object of three pages is put twice, the second time with the last of them marked alone. -/
theorem DeltaStore.two_versions :
    ∃ l f s₁ s₂ n s₃ s₄ n' s₅, Log.ctor none deltaLogSize = .ok (l, f) ∧
      (DeltaStore.ctor l f (fun _ => 0)).Allocated 8193 4096 ∧
      (DeltaStore.ctor l f (fun _ => 0)).createObj [97] 8193 4096 = .ok (.noError, 4096, s₁) ∧
      s₁.write 4096 5 = .ok s₂ ∧ s₂.put blankHdr [97] 1 = .ok (.inr (n, s₃)) ∧
      s₃.write 12288 7 = .ok s₄ ∧ s₄.put blankHdr [97] 2 = .ok (.inr (n', s₅)) ∧
      Rep s₁.file [] ∧ s₁.log.Synced s₁.file [] ∧ s₄.heap = store s₂.heap 12288 [7] ∧
      Relation.ReflTransGen (Versions.Step [97]) ⟨s₁, []⟩
        ⟨s₅, [s₂.versionOf threePages,
          s₄.versionOf ((DeltaStore.snapshotted 1 threePages).setModifiedBit 2)]⟩ := by
  obtain ⟨l, f, s₁, s₂, n, s₃, s₄, hnew, halloc, hcreate, hwrite, hput, hwrite₄, hmap, hro, hr, hs,
    hlen, hs₂, hmap₃, hheap₃, hmap₄, hheap₄, hlog₄, hfile₄⟩ := DeltaStore.two_stores
  have hobj₁ := SortedMap.find?_of_singleton hmap
  have hobj₂ : s₂.objectMap.find? [97] = some threePages := by
    rw [hs₂]
    exact hobj₁
  have hobj₃ := SortedMap.find?_of_singleton hmap₃
  have hobj₄ := SortedMap.find?_of_singleton hmap₄
  have hlog₂ : s₂.log = s₁.log := by rw [hs₂]
  have hfile₂ : s₂.file = s₁.file := by rw [hs₂]
  obtain ⟨o, hobj, hr₃, hs₃, _, hlen₃⟩ := DeltaStore.put_ok (by rw [hfile₂]; exact hr)
    (by rw [hfile₂, hlog₂]; exact hs) hput
  obtain rfl := Option.some.inj (hobj₂.symm.trans hobj)
  -- the second `put` fits
  obtain ⟨n', s₅, hput₅⟩ := DeltaStore.put_of_fits (by rw [hfile₄]; exact hr₃)
    (by rw [hfile₄, hlog₄]; exact hs₃) blankHdr 2 hobj₄ (by decide) (by
      rw [hfile₄, hlen₃, hfile₂, hlen, List.nil_append, List.length_append, List.length_append,
        LeHdr.length_encode, Object.length_payload]
      decide)
  -- at it, the bytes outside of the marked page are those of the first
  have hmarked : ∀ i < 8193, (threePages.contents s₂.heap)[i]? ≠ some (s₄.heap (4096 + i)) →
      [false, false, true][i / pageSize]? = some true := by
    intro i hi hne
    by_cases hlast : i = 8192
    · subst hlast
      decide
    · refine absurd ?_ hne
      show (load s₂.heap 4096 8193)[i]? = _
      rw [hheap₄, getElem?_load _ _ _ _ hi, store_out _ _ _ (by
        rw [List.length_singleton]
        omega)]
  have hclear : ∀ j : Nat, [false, false, false][j]? ≠ some true := by
    intro j h
    have hmem := List.mem_of_getElem? h
    simp at hmem
  refine ⟨l, f, s₁, s₂, n, s₃, s₄, n', s₅, hnew, halloc, hcreate, hwrite, hput, hwrite₄, hput₅, hr,
    hs, hheap₄, ?_⟩
  refine .tail (.tail (.tail (.single (.modify hobj₁ hobj₂ hlog₂ hfile₂ .rfl (fun _ h => h)))
    (.put blankHdr 1 hobj₂ (fun v hv => ?_) hput))
    (.modify hobj₃ hobj₄ hlog₄ hfile₄ (Object.sameFrame_setModifiedBit _ _)
      (fun j hj => absurd hj (hclear j))))
    (.put blankHdr 2 hobj₄ (fun v hv => ?_) hput₅)
  · cases hv
  · obtain rfl := Option.some.inj hv
    exact hmarked

/-- The second entry holds one byte; the two entries together rebuild the object from a buffer of other
    bytes. -/
theorem versions_reconstructible_two_puts :
    ∃ l f s₁ s₂ n s₃ s₄ n' s₅, Log.ctor none deltaLogSize = .ok (l, f) ∧
      (DeltaStore.ctor l f (fun _ => 0)).createObj [97] 8193 4096 = .ok (.noError, 4096, s₁) ∧
      s₁.write 4096 5 = .ok s₂ ∧ s₂.put blankHdr [97] 1 = .ok (.inr (n, s₃)) ∧
      s₃.write 12288 7 = .ok s₄ ∧ s₄.put blankHdr [97] 2 = .ok (.inr (n', s₅)) ∧
      s₅.file.deltaChunks s₄.log.writeOffset = [(8192, [7])] ∧
      load (rebuild s₅.file (fun _ => 9) [s₂.log.writeOffset, s₄.log.writeOffset]) 0 8193 =
        load s₄.heap 4096 8193 := by
  obtain ⟨l, f, s₁, s₂, n, s₃, s₄, n', s₅, hnew, halloc, hcreate, hwrite, hput, hwrite₄, hput₅, hr,
    hs, hheap₄, hrun⟩ := DeltaStore.two_versions
  have hstart := (DeltaStore.createObj_eq halloc hcreate).2.2
  obtain ⟨hchunks, hload, _⟩ := versions_reconstructible (n := 1) (by rw [hstart] at hr; exact hr)
    (by rw [hstart] at hs; exact hs) halloc hcreate hrun (fun _ => 9) rfl
  refine ⟨l, f, s₁, s₂, n, s₃, s₄, n', s₅, hnew, hcreate, hwrite, hput, hwrite₄, hput₅, ?_, hload⟩
  have hget : ((DeltaStore.snapshotted 1 threePages).setModifiedBit 2).getDeltaChunks =
      [⟨8192, 1⟩] := by decide
  have hbyte : load s₄.heap (u64 (4096 + 8192)) 1 = [7] := by
    rw [hheap₄]
    rfl
  refine hchunks.trans ((Object.chunkCopies_eq _ _).trans ?_)
  rw [hget, ← hbyte]
  rfl

end NvStream
