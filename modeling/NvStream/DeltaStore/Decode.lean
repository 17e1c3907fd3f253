/-
  `delta_memcpy` against the encoding that `put` writes.

  An entry holds the chunks of an object in the first elements of `deltas`, their total length in
  BYTES in `delta_len`, and their payloads one after the other behind the header.  `delta_memcpy` takes
  `delta_len` for the NUMBER of elements.  With `c` chunks and `n` bytes:

      rounds 0 .. c - 1    copy the chunks                            (`ChunksAt.copies_iff`)
      rounds c .. 4        copy what the stack held in `deltas`       (`deltaCopies_behind_iff`)
      round 5              reads `deltas[5]`                          (`deltaCopies_rounds_le`)

  The first `c` rounds alone would undo the encoding (`storeAll_pieces`).  All `n` rounds do
  exactly if `n` is at most five and the elements behind the chunks happen to have length 0
  (`delta_memcpy_undoes_iff`): an object of one page already is beyond that.
-/
import NvStream.DeltaStore.Capacity

namespace NvStream

open FlatMem LittleEndian LoadProg PersistTrace BitRuns

/-! ## The two fields of the header, read back -/

/-- A `uint64_t` survives the trip through its bytes. -/
theorem ofNat_ofLE_toLE (x : UInt64) : UInt64.ofNat (ofLE (toLE 8 x.toNat)) = x := by
  rw [ofLE_toLE_of_lt (show x.toNat < 256 ^ 8 from x.toNat_lt), UInt64.ofNat_toNat]

theorem drop_flatMap_encodeDelta (ds : List (UInt64 × UInt64)) (i : Nat) :
    (ds.flatMap LeHdr.encodeDelta).drop (16 * i) = (ds.drop i).flatMap LeHdr.encodeDelta := by
  induction i generalizing ds with
  | zero => rfl
  | succ i ih =>
    cases ds with
    | nil => rfl
    | cons d ds =>
      have hlen : (LeHdr.encodeDelta d).length = 16 := by
        rw [LeHdr.encodeDelta, List.length_append, length_toLE, length_toLE]
      rw [List.flatMap_cons, show 16 * (i + 1) = (LeHdr.encodeDelta d).length + 16 * i by omega,
        List.drop_length_add_append, ih, List.drop_succ_cons]

/-- The array survives the trip through its bytes. -/
theorem decodeDeltas_flatMap (ds : Vector (UInt64 × UInt64) 5) :
    decodeDeltas (ds.toList.flatMap LeHdr.encodeDelta) = ds := by
  refine Vector.ext (fun i hi => ?_)
  have hlt : i < ds.toList.length := by
    rw [Vector.length_toList]
    exact hi
  have hdrop : (ds.toList.flatMap LeHdr.encodeDelta).drop (16 * i) =
      toLE 8 ds[i].1.toNat ++ (toLE 8 ds[i].2.toNat ++
        (ds.toList.drop (i + 1)).flatMap LeHdr.encodeDelta) := by
    rw [drop_flatMap_encodeDelta, List.drop_eq_getElem_cons hlt, List.flatMap_cons,
      Vector.getElem_toList, LeHdr.encodeDelta, List.append_assoc]
  have hfirst : ((ds.toList.flatMap LeHdr.encodeDelta).drop (16 * i)).take 8 =
      toLE 8 ds[i].1.toNat := by
    rw [hdrop, List.take_left' (length_toLE 8 _)]
  have hsecond : ((ds.toList.flatMap LeHdr.encodeDelta).drop (16 * i + 8)).take 8 =
      toLE 8 ds[i].2.toNat := by
    rw [← List.drop_drop, hdrop, List.drop_left' (length_toLE 8 _),
      List.take_left' (length_toLE 8 _)]
  rw [decodeDeltas, Vector.getElem_ofFn]
  simp only [hfirst, hsecond, ofNat_ofLE_toLE]

/-- **What a reader finds in the two fields of a written header.** -/
theorem LeHdr.At.deltaFields {h : LeHdr} {m : Mem Byte} {off : Nat} (hAt : h.At m off) :
    word m (off + deltaLenField) = h.deltaLen.toNat ∧
      decodeDeltas (load m (off + deltasField) 80) = h.deltas := by
  have h0 : load m off h.encode.length = h.encode := by
    rw [length_encode]
    exact hAt
  rw [encode, encodeRest] at h0
  obtain ⟨_, h1⟩ := (load_append_iff _ _ _ _).mp h0
  obtain ⟨_, h2⟩ := (load_append_iff _ _ _ _).mp h1
  obtain ⟨_, h3⟩ := (load_append_iff _ _ _ _).mp h2
  obtain ⟨_, h4⟩ := (load_append_iff _ _ _ _).mp h3
  obtain ⟨_, h5⟩ := (load_append_iff _ _ _ _).mp h4
  obtain ⟨_, h6⟩ := (load_append_iff _ _ _ _).mp h5
  obtain ⟨hlen, hdeltas⟩ := (load_append_iff _ _ _ _).mp h6
  simp only [Vector.length_toList, length_toLE, length_flatMap_encodeDelta, Nat.add_assoc,
    Nat.reduceAdd, Nat.reduceMul] at hlen hdeltas
  constructor
  · rw [deltaLenField, word_of_load hlen (UInt64.toNat_lt _)]
  · rw [deltasField, hdeltas, decodeDeltas_flatMap]

/-! ## One round -/

section
variable {dst src : Nat} {ds : Vector (UInt64 × UInt64) 5} {S : Set Nat} {m : Mem Byte}

theorem deltaCopies_succ_iff {rounds i srcOffset : Nat} {copies : List (Nat × List Byte)} :
    (DeltaStore.deltaCopies dst src ds (rounds + 1) i srcOffset).Yields S m copies ↔
      ∃ _ : i < 5, (∀ k < ds[i].2.toNat, u64 (src + srcOffset) + k ∈ S) ∧
        ∃ rest, (DeltaStore.deltaCopies dst src ds rounds (i + 1)
            (u64 (srcOffset + ds[i].2.toNat))).Yields S m rest ∧
          copies = (u64 (dst + ds[i].1.toNat),
            load m (u64 (src + srcOffset)) ds[i].2.toNat) :: rest := by
  rw [DeltaStore.deltaCopies]
  split
  · rename_i h
    constructor
    · intro hy
      obtain ⟨data, hdata, hy⟩ := Prog.Yields.of_bind hy
      obtain ⟨rest, hrest, hy⟩ := Prog.Yields.of_bind hy
      obtain ⟨hin, rfl⟩ := Prog.yields_loadEach_iff.mp hdata
      exact ⟨h, hin, rest, hrest, hy.ret_eq.symm⟩
    · rintro ⟨_, hin, rest, hrest, rfl⟩
      exact Prog.Yields.bind' (Prog.yields_loadEach hin)
        (Prog.Yields.bind' hrest (Prog.yields_pure _ _ _))
  · rename_i h
    refine iff_of_false Prog.not_yields_fail ?_
    rintro ⟨hlt, _⟩
    exact h hlt

/-- There is no sixth round, whatever the loop may load. -/
theorem deltaCopies_rounds_le : ∀ {rounds i srcOffset : Nat} {copies : List (Nat × List Byte)},
    i ≤ 5 → (DeltaStore.deltaCopies dst src ds rounds i srcOffset).Yields S m copies →
    i + rounds ≤ 5 := by
  intro rounds
  induction rounds with
  | zero =>
    intro i srcOffset copies hi _
    exact hi
  | succ rounds ih =>
    intro i srcOffset copies hi hy
    obtain ⟨hlt, _, rest, hrest, _⟩ := deltaCopies_succ_iff.mp hy
    have := ih (i := i + 1) hlt hrest
    omega

/-! ## The rounds of the chunks -/

variable (dst src ds S m) in
/-- Chunks with their payloads, before a round `i` that has come to `srcOffset`: the array describes
    them from `i` on, the payloads follow each other in the memory, inside `S`, and no address wraps
    around. -/
structure ChunksAt (i srcOffset : Nat) (ps : List (Delta × List Byte)) : Prop where
  described : ∀ n p, ps[n]? = some p → ds.toList[i + n]? = some (p.1.startOffset, p.1.len)
  shape : ∀ p ∈ ps, p.2.length = p.1.len.toNat ∧ dst + p.1.startOffset.toNat < 2 ^ 64
  stored : load m (src + srcOffset) (ps.flatMap Prod.snd).length = ps.flatMap Prod.snd
  fits : src + srcOffset + (ps.flatMap Prod.snd).length < 2 ^ 64
  inside : ∀ k < (ps.flatMap Prod.snd).length, src + srcOffset + k ∈ S

namespace ChunksAt

variable {i srcOffset : Nat} {p : Delta × List Byte} {ps : List (Delta × List Byte)}

/-- The element of the array that describes the first chunk. -/
theorem head (h : ChunksAt dst src ds S m i srcOffset (p :: ps)) :
    ∃ _ : i < 5, ds[i] = (p.1.startOffset, p.1.len) := by
  obtain ⟨hi, hget⟩ := List.getElem?_eq_some_iff.mp (h.described 0 p rfl)
  rw [Vector.length_toList] at hi
  rw [Vector.getElem_toList] at hget
  exact ⟨hi, hget⟩

/-- The chunks behind the first. -/
theorem tail (h : ChunksAt dst src ds S m i srcOffset (p :: ps)) :
    ChunksAt dst src ds S m (i + 1) (srcOffset + p.2.length) ps := by
  have hstored := h.stored
  have hfits := h.fits
  have hinside := h.inside
  rw [List.flatMap_cons] at hstored
  rw [List.flatMap_cons, List.length_append] at hfits hinside
  refine ⟨fun n q hq => ?_, fun q hq => h.shape q (List.mem_cons_of_mem p hq), ?_, by omega,
    fun k hk => ?_⟩
  · rw [show i + 1 + n = i + (n + 1) by omega]
    exact h.described (n + 1) q hq
  · rw [← Nat.add_assoc]
    exact ((load_append_iff _ _ _ _).mp hstored).2
  · rw [show src + (srcOffset + p.2.length) + k = src + srcOffset + (p.2.length + k) by omega]
    exact hinside (p.2.length + k) (by omega)

/-- What the round of the first chunk copies. -/
theorem load_head (h : ChunksAt dst src ds S m i srcOffset (p :: ps)) :
    load m (src + srcOffset) p.2.length = p.2 := by
  have hstored := h.stored
  rw [List.flatMap_cons] at hstored
  exact ((load_append_iff _ _ _ _).mp hstored).1

/-- **The first rounds copy the chunks**, and behind them the loop goes on. -/
theorem copies_iff : ∀ {ps : List (Delta × List Byte)} {i srcOffset : Nat},
    ChunksAt dst src ds S m i srcOffset ps → ∀ (rounds : Nat) (copies : List (Nat × List Byte)),
    (DeltaStore.deltaCopies dst src ds (ps.length + rounds) i srcOffset).Yields S m copies ↔
      ∃ rest, (DeltaStore.deltaCopies dst src ds rounds (i + ps.length)
          (srcOffset + (ps.flatMap Prod.snd).length)).Yields S m rest ∧
        copies = ps.map (fun p => (dst + p.1.startOffset.toNat, p.2)) ++ rest := by
  intro ps
  induction ps with
  | nil =>
    intro i srcOffset _ rounds copies
    rw [List.length_nil, Nat.zero_add]
    exact ⟨fun hy => ⟨copies, hy, rfl⟩, fun ⟨rest, hrest, heq⟩ => heq ▸ hrest⟩
  | cons p ps ih =>
    intro i srcOffset h rounds copies
    obtain ⟨hi, hget⟩ := h.head
    obtain ⟨hlen, hdst⟩ := h.shape p List.mem_cons_self
    have hload := h.load_head
    have hfits := h.fits
    have hinside := h.inside
    rw [List.flatMap_cons, List.length_append] at hfits hinside
    rw [show (p :: ps).length + rounds = ps.length + rounds + 1 by rw [List.length_cons]; omega,
      deltaCopies_succ_iff]
    simp only [hget, ← hlen, u64_of_lt hdst,
      u64_of_lt (show src + srcOffset < 2 ^ 64 by omega),
      u64_of_lt (show srcOffset + p.2.length < 2 ^ 64 by omega), hload, ih h.tail]
    rw [List.flatMap_cons, List.length_append, List.length_cons, ← Nat.add_assoc srcOffset,
      show i + (ps.length + 1) = i + 1 + ps.length by omega]
    constructor
    · rintro ⟨_, _, _, ⟨rest, hrest, rfl⟩, rfl⟩
      exact ⟨rest, hrest, rfl⟩
    · rintro ⟨rest, hrest, rfl⟩
      exact ⟨hi, fun k hk => hinside k (by omega), _, ⟨rest, hrest, rfl⟩, rfl⟩

end ChunksAt

/-! ## The rounds behind them -/

/-- A round that loads nothing outside a payload it has come to the end of loads nothing at all. -/
theorem deltaCopies_behind_succ_iff {n : Nat} (hn : src + n < 2 ^ 64) {rounds i : Nat}
    {rest : List (Nat × List Byte)} :
    (DeltaStore.deltaCopies dst src ds (rounds + 1) i n).Yields (Set.Ico src (src + n)) m rest ↔
      ∃ _ : i < 5, ds[i].2 = 0 ∧ ∃ rest', (DeltaStore.deltaCopies dst src ds rounds (i + 1) n).Yields
          (Set.Ico src (src + n)) m rest' ∧
        rest = (u64 (dst + ds[i].1.toNat), []) :: rest' := by
  rw [deltaCopies_succ_iff]
  refine exists_congr (fun hlt => ?_)
  rw [u64_of_lt hn]
  constructor
  · rintro ⟨hin, rest', hrest', rfl⟩
    have hzero : ds[i].2.toNat = 0 := by
      by_contra hpos
      have hmem := (hin 0 (Nat.pos_of_ne_zero hpos)).2
      omega
    rw [hzero, Nat.add_zero, u64_of_lt (by omega)] at hrest'
    exact ⟨UInt64.toNat_inj.mp hzero, rest', hrest', by rw [hzero]; rfl⟩
  · rintro ⟨hzero, rest', hrest', rfl⟩
    have hzero' : ds[i].2.toNat = 0 := by
      rw [hzero]
      rfl
    rw [hzero', Nat.add_zero, u64_of_lt (by omega)]
    exact ⟨fun k hk => absurd hk (Nat.not_lt_zero k), rest', hrest', rfl⟩

/-- **Behind the payload nothing may be copied.**  A loop that has come to the end of the payload
    returns without looking further exactly if the array still has elements for all its rounds, and
    these have length 0. -/
theorem deltaCopies_behind_iff {n : Nat} (hn : src + n < 2 ^ 64) : ∀ {rounds i : Nat}, i ≤ 5 →
    ((∃ rest, (DeltaStore.deltaCopies dst src ds rounds i n).Yields (Set.Ico src (src + n)) m rest) ↔
      i + rounds ≤ 5 ∧ ∀ j : Fin 5, i ≤ j.val → j.val < i + rounds → ds[j].2 = 0) := by
  intro rounds
  induction rounds with
  | zero =>
    intro i hi
    exact ⟨fun _ => ⟨hi, fun j h1 h2 => absurd h1 (by omega)⟩, fun _ => ⟨[], Prog.yields_pure _ _ _⟩⟩
  | succ rounds ih =>
    intro i hi
    constructor
    · rintro ⟨rest, hy⟩
      obtain ⟨hlt, hzero, rest', hrest', _⟩ := (deltaCopies_behind_succ_iff hn).mp hy
      obtain ⟨hle, hothers⟩ := (ih (i := i + 1) hlt).mp ⟨rest', hrest'⟩
      refine ⟨by omega, fun j h1 h2 => ?_⟩
      by_cases hj : j.val = i
      · subst hj
        exact hzero
      · exact hothers j (by omega) (by omega)
    · rintro ⟨hle, hzeros⟩
      have hlt : i < 5 := by omega
      obtain ⟨rest', hrest'⟩ := (ih (i := i + 1) hlt).mpr
        ⟨by omega, fun j h1 h2 => hzeros j (by omega) (by omega)⟩
      have hzero : ds[i].2 = 0 := hzeros ⟨i, hlt⟩ (Nat.le_refl i) (by show i < _; omega)
      exact ⟨_, (deltaCopies_behind_succ_iff hn).mpr ⟨hlt, hzero, rest', hrest', rfl⟩⟩

/-- Then it copies nothing. -/
theorem deltaCopies_behind_empty {n : Nat} (hn : src + n < 2 ^ 64) : ∀ {rounds i : Nat}
    {rest : List (Nat × List Byte)},
    (DeltaStore.deltaCopies dst src ds rounds i n).Yields (Set.Ico src (src + n)) m rest →
    ∀ e ∈ rest, e.2 = [] := by
  intro rounds
  induction rounds with
  | zero =>
    intro i rest hy e he
    obtain rfl := hy.ret_eq
    exact absurd he List.not_mem_nil
  | succ rounds ih =>
    intro i rest hy e he
    obtain ⟨_, _, rest', hrest', rfl⟩ := (deltaCopies_behind_succ_iff hn).mp hy
    rcases List.mem_cons.mp he with rfl | he
    · rfl
    · exact ih hrest' e he

end

/-! ## All rounds together -/

namespace Object

variable {o : Object}

/-- Every chunk has a byte. -/
theorem length_le_deltaLen (ho : o.Sized) : o.getDeltaChunks.length ≤ o.deltaLen := by
  have hpos : ∀ n ∈ o.getDeltaChunks.map (fun c => c.len.toNat), 1 ≤ n := by
    intro n hn
    obtain ⟨c, hc, rfl⟩ := List.mem_map.mp hn
    exact (chunk_shape ho hc).1
  have hle := List.length_le_sum_of_one_le _ hpos
  rw [List.length_map] at hle
  exact hle

/-- **Copying the chunks undoes the encoding**, where the marked pages cover what has changed. -/
theorem storeAll_pieces (ho : o.Sized) (hend : o.ptr + o.size.toNat < 2 ^ 64)
    (heap mem : Mem Byte) {dst : Nat} (hcover : ∀ i < o.size.toNat,
      mem (dst + i) ≠ heap (o.ptr + i) → o.bitset[i / pageSize]? = some true) :
    load (storeAll mem ((o.pieces heap).map (fun p => (dst + p.1.startOffset.toNat, p.2)))) dst
        o.size.toNat = o.contents heap ∧
      ∀ a, (a < dst ∨ dst + o.size.toNat ≤ a) →
        storeAll mem ((o.pieces heap).map (fun p => (dst + p.1.startOffset.toNat, p.2))) a =
          mem a := by
  have hcopies : (o.pieces heap).map (fun p => (dst + p.1.startOffset.toNat, p.2)) =
      (o.chunkCopies heap).map (fun c => (dst + c.1, c.2)) := by
    rw [chunkCopies, List.map_map]
    rfl
  rw [hcopies]
  constructor
  · rw [contents, ← Nat.add_zero dst, ← load_shift, ← Nat.add_zero o.ptr, ← load_shift]
    apply load_congr
    intro a ⟨_, ha⟩
    rw [Nat.zero_add] at ha
    show storeAll mem _ (dst + 0 + a) = heap (o.ptr + 0 + a)
    rw [Nat.add_zero, Nat.add_zero, storeAll_shift, storeAll_chunkCopies ho hend heap _ ha]
    split
    · rfl
    · rename_i hbit
      by_contra hne
      exact hbit (hcover a ha hne)
  · intro a ha
    refine storeAll_out (fun c hc => ?_)
    obtain ⟨d, hd, rfl⟩ := List.mem_map.mp hc
    have hle := chunkCopies_bounds ho heap d hd
    show a < dst + d.1 ∨ dst + d.1 + d.2.length ≤ a
    omega

/-- The chunks of the header `put` fills, before the first round. -/
theorem chunksAt (ho : o.Sized) (hfive : o.getDeltaChunks.length ≤ 5) (heap : Mem Byte)
    (junk : LeHdr) (version : UInt64) {dst src : Nat} {m : Mem Byte}
    (hdst : dst + o.size.toNat < 2 ^ 64) (hsrc : src + o.deltaLen < 2 ^ 64)
    (hpayload : load m src o.deltaLen = o.payload heap) :
    ChunksAt dst src (junk.fillDelta o version).deltas (Set.Ico src (src + o.deltaLen)) m 0 0
      (o.pieces heap) := by
  have hdescribes := (o.describes_iff junk version).mpr ((o.deltasFit_iff).mpr hfive)
  have hlen : ((o.pieces heap).flatMap Prod.snd).length = o.deltaLen := by
    rw [o.flatMap_pieces, o.length_payload]
  refine ⟨fun n p hp => ?_, fun p hp => ?_, ?_, ?_, fun k hk => ?_⟩
  · rw [pieces, List.getElem?_map] at hp
    obtain ⟨c, hc, rfl⟩ := Option.map_eq_some_iff.mp hp
    exact hdescribes (0 + n, c) (mem_deltaStores.mpr ⟨n, hc, rfl⟩)
  · obtain ⟨c, hc, rfl⟩ := List.mem_map.mp hp
    have hle := chunk_le ho hc
    exact ⟨length_load _ _ _, by show dst + c.startOffset.toNat < 2 ^ 64; omega⟩
  · rw [hlen, o.flatMap_pieces]
    exact hpayload
  · rw [hlen]
    exact hsrc
  · rw [hlen] at hk
    exact ⟨Nat.le_add_right _ _, by omega⟩

/-- Behind the chunks the header is what the junk was. -/
theorem deltas_behind (junk : LeHdr) (version : UInt64) {j : Fin 5}
    (hj : o.getDeltaChunks.length ≤ j.val) :
    (junk.fillDelta o version).deltas[j] = junk.deltas[j] := by
  show (fillDeltas junk.deltas o.getDeltaChunks)[j.val] = _
  rw [fillDeltas, Vector.getElem_ofFn]
  simp only [List.getElem?_eq_none hj]

section
variable {heap m : Mem Byte} {junk : LeHdr} {version : UInt64} {dst src : Nat}

/-- As many rounds as there are bytes: those of the chunks first. -/
theorem yields_rounds_iff (ho : o.Sized)
    (hchunks : ChunksAt dst src (junk.fillDelta o version).deltas
      (Set.Ico src (src + o.deltaLen)) m 0 0 (o.pieces heap)) (copies : List (Nat × List Byte)) :
    (DeltaStore.deltaCopies dst src (junk.fillDelta o version).deltas o.deltaLen 0 0).Yields
        (Set.Ico src (src + o.deltaLen)) m copies ↔
      ∃ rest, (DeltaStore.deltaCopies dst src (junk.fillDelta o version).deltas
          (o.deltaLen - o.getDeltaChunks.length) o.getDeltaChunks.length o.deltaLen).Yields
            (Set.Ico src (src + o.deltaLen)) m rest ∧
        copies = (o.pieces heap).map (fun p => (dst + p.1.startOffset.toNat, p.2)) ++ rest := by
  have hbytes : ((o.pieces heap).flatMap Prod.snd).length = o.deltaLen := by
    rw [o.flatMap_pieces, o.length_payload]
  have hcount : (o.pieces heap).length = o.getDeltaChunks.length := List.length_map _
  have hiff := hchunks.copies_iff (o.deltaLen - o.getDeltaChunks.length) copies
  rw [hbytes, Nat.zero_add, Nat.zero_add, hcount, Nat.add_sub_of_le (length_le_deltaLen ho)] at hiff
  exact hiff

/-- **They come to an end inside the payload exactly if there are at most five**, and the junk behind
    the chunks has length 0. -/
theorem yields_iff (ho : o.Sized) (hfive : o.getDeltaChunks.length ≤ 5)
    (hsrc : src + o.deltaLen < 2 ^ 64)
    (hchunks : ChunksAt dst src (junk.fillDelta o version).deltas
      (Set.Ico src (src + o.deltaLen)) m 0 0 (o.pieces heap)) :
    (∃ copies, (DeltaStore.deltaCopies dst src (junk.fillDelta o version).deltas o.deltaLen 0
        0).Yields (Set.Ico src (src + o.deltaLen)) m copies) ↔
      o.deltaLen ≤ 5 ∧ ∀ j : Fin 5, o.getDeltaChunks.length ≤ j.val → j.val < o.deltaLen →
        junk.deltas[j].2 = 0 := by
  have hbehind : (∃ rest, (DeltaStore.deltaCopies dst src (junk.fillDelta o version).deltas
      (o.deltaLen - o.getDeltaChunks.length) o.getDeltaChunks.length o.deltaLen).Yields
        (Set.Ico src (src + o.deltaLen)) m rest) ↔ _ := deltaCopies_behind_iff hsrc hfive
  rw [Nat.add_sub_of_le (length_le_deltaLen ho)] at hbehind
  constructor
  · rintro ⟨copies, hy⟩
    obtain ⟨rest, hrest, _⟩ := (yields_rounds_iff ho hchunks copies).mp hy
    obtain ⟨hle, hzeros⟩ := hbehind.mp ⟨rest, hrest⟩
    refine ⟨hle, fun j h1 h2 => ?_⟩
    rw [← deltas_behind junk version h1]
    exact hzeros j h1 h2
  · rintro ⟨hle, hzeros⟩
    obtain ⟨rest, hrest⟩ := hbehind.mpr ⟨hle, fun j h1 h2 => by
      rw [deltas_behind junk version h1]
      exact hzeros j h1 h2⟩
    exact ⟨_, (yields_rounds_iff ho hchunks _).mpr ⟨rest, hrest, rfl⟩⟩

/-- Then they copy the chunks and nothing else. -/
theorem copies_of_yields (ho : o.Sized) (hsrc : src + o.deltaLen < 2 ^ 64)
    (hchunks : ChunksAt dst src (junk.fillDelta o version).deltas
      (Set.Ico src (src + o.deltaLen)) m 0 0 (o.pieces heap)) {copies : List (Nat × List Byte)}
    (hy : (DeltaStore.deltaCopies dst src (junk.fillDelta o version).deltas o.deltaLen 0 0).Yields
      (Set.Ico src (src + o.deltaLen)) m copies) :
    ∃ rest, copies = (o.pieces heap).map (fun p => (dst + p.1.startOffset.toNat, p.2)) ++ rest ∧
      ∀ e ∈ rest, e.2 = [] := by
  obtain ⟨rest, hrest, heq⟩ := (yields_rounds_iff ho hchunks copies).mp hy
  exact ⟨rest, heq, deltaCopies_behind_empty hsrc hrest⟩

end

end Object

/-- An entry of `put`, in a file that holds it and maybe more: its header, and the payload behind. -/
theorem Rep.entry {f : File} {body data rest : List Byte} {h : LeHdr}
    (hr : Rep f (body ++ ((h.encode ++ data) ++ rest))) :
    h.At f.bytes (32 + body.length) ∧
      load f.bytes (32 + body.length + sizeofLehdr) data.length = data := by
  obtain ⟨_, hentry⟩ := (load_append_iff _ _ _ _).mp hr.content
  obtain ⟨hdata, _⟩ := (load_append_iff _ _ _ _).mp hentry
  obtain ⟨hhdr, hpayload⟩ := (load_append_iff _ _ _ _).mp hdata
  rw [LeHdr.length_encode] at hhdr hpayload
  exact ⟨hhdr, hpayload⟩

/-- There were at most five chunks if `put` has come to an end. -/
theorem DeltaStore.length_chunks_of_put {s s' : DeltaStore} {junk : LeHdr} {key : Key}
    {version : UInt64} {n : Nat} (hput : s.put junk key version = .ok (.inr (n, s'))) {o : Object}
    (hobj : s.objectMap.find? key = some o) : o.getDeltaChunks.length ≤ 5 := by
  rw [← o.deltasFit_iff]
  by_contra hnot
  have hundefined := (DeltaStore.put_undefined_iff hobj junk version).mpr hnot
  rw [hput] at hundefined
  cases hundefined

/-- What a successful `put` has left in the log: at most five chunks, its header at the old
    `write_offset`, and the payload behind it. -/
theorem DeltaStore.entry_of_put {s s' : DeltaStore} {body : List Byte} (hr : Rep s.file body)
    (hs : s.log.Synced s.file body) {junk : LeHdr} {key : Key} {version : UInt64} {n : Nat}
    (hput : s.put junk key version = .ok (.inr (n, s'))) {o : Object}
    (hobj : s.objectMap.find? key = some o) :
    o.getDeltaChunks.length ≤ 5 ∧
      (junk.fillDelta o version).At s'.file.bytes s.log.writeOffset ∧
      load s'.file.bytes (s.log.writeOffset + sizeofLehdr) o.deltaLen = o.payload s.heap ∧
      s.log.writeOffset + sizeofLehdr + o.deltaLen < 2 ^ 64 := by
  obtain ⟨o', hobj', hr', _, hfit, _⟩ := DeltaStore.put_ok hr hs hput
  obtain rfl := Option.some.inj (hobj.symm.trans hobj')
  obtain ⟨hhdr, hpayload⟩ := hr'.entry
  have hsmall := hr.small
  rw [o.length_payload] at hpayload
  rw [hs.write]
  exact ⟨DeltaStore.length_chunks_of_put hput hobj, hhdr, hpayload, by omega⟩

/-- The call of `delta_memcpy` behind it: as many rounds as the payload has bytes. -/
theorem DeltaStore.deltaMemcpy_of_put {s s' : DeltaStore} {body : List Byte} (hr : Rep s.file body)
    (hs : s.log.Synced s.file body) {junk : LeHdr} {key : Key} {version : UInt64} {n : Nat}
    (hput : s.put junk key version = .ok (.inr (n, s'))) {o : Object}
    (hobj : s.objectMap.find? key = some o) (ho : o.Sized) (dst : Nat) :
    DeltaStore.deltaMemcpy dst (s.log.writeOffset + sizeofLehdr)
        (decodeDeltas (load s'.file.bytes (s.log.writeOffset + deltasField) 80))
        (UInt64.ofNat (word s'.file.bytes (s.log.writeOffset + deltaLenField))) =
      DeltaStore.deltaCopies dst (s.log.writeOffset + sizeofLehdr)
        (junk.fillDelta o version).deltas o.deltaLen 0 0 := by
  obtain ⟨_, hhdr, _, _⟩ := DeltaStore.entry_of_put hr hs hput hobj
  obtain ⟨hlen, hdeltas⟩ := hhdr.deltaFields
  have hsmall : o.deltaLen < 2 ^ 64 := Nat.lt_of_le_of_lt (o.deltaLen_le ho) o.size.toNat_lt
  have hcount : (junk.fillDelta o version).deltaLen.toNat = o.deltaLen :=
    o.toNat_deltaLen64.trans (u64_of_lt hsmall)
  rw [DeltaStore.deltaMemcpy, hlen, UInt64.ofNat_toNat, hdeltas, hcount]

/-- `delta_memcpy`, called with what the entry at `off` holds, the length of its payload being `len`,
    turns a buffer into `contents`: it looks at the payload only, and outside of the buffer it stores
    nothing. -/
def File.Undoes (f : File) (off len dst : Nat) (mem : Mem Byte) (contents : List Byte) : Prop :=
  ∃ copies, (DeltaStore.deltaMemcpy dst (off + sizeofLehdr)
      (decodeDeltas (load f.bytes (off + deltasField) 80))
      (UInt64.ofNat (word f.bytes (off + deltaLenField)))).Yields
        (Set.Ico (off + sizeofLehdr) (off + sizeofLehdr + len)) f.bytes copies ∧
    load (storeAll mem copies) dst contents.length = contents ∧
    ∀ a, (a < dst ∨ dst + contents.length ≤ a) → storeAll mem copies a = mem a

/-- **When `delta_memcpy` undoes what `put` has encoded.**  After a `put` of any object, called with
    the two fields and the payload of the entry on a buffer that differs from the object in marked
    pages only: it does if and only if the payload has at most five bytes, and the elements of the
    uninitialised header behind the chunks have length 0 as far as there are bytes. -/
theorem delta_memcpy_undoes_iff {s s' : DeltaStore} {body : List Byte} (hr : Rep s.file body)
    (hs : s.log.Synced s.file body) {junk : LeHdr} {key : Key} {version : UInt64} {n : Nat}
    (hput : s.put junk key version = .ok (.inr (n, s'))) {o : Object}
    (hobj : s.objectMap.find? key = some o) (ho : o.Sized) (hend : o.ptr + o.size.toNat < 2 ^ 64)
    {dst : Nat} (hdst : dst + o.size.toNat < 2 ^ 64) {mem : Mem Byte}
    (hcover : ∀ i < o.size.toNat, mem (dst + i) ≠ s.heap (o.ptr + i) →
      o.bitset[i / pageSize]? = some true) :
    s'.file.Undoes s.log.writeOffset (o.payload s.heap).length dst mem (o.contents s.heap) ↔
      o.deltaLen ≤ 5 ∧ ∀ j : Fin 5, o.getDeltaChunks.length ≤ j.val → j.val < o.deltaLen →
        junk.deltas[j].2 = 0 := by
  obtain ⟨hfive, _, hpayload, hroom⟩ := DeltaStore.entry_of_put hr hs hput hobj
  have hmemcpy := DeltaStore.deltaMemcpy_of_put hr hs hput hobj ho dst
  have hchunks := Object.chunksAt ho hfive s.heap junk version hdst hroom hpayload
  rw [← Object.yields_iff ho hfive hroom hchunks]
  unfold File.Undoes
  rw [hmemcpy, o.length_payload, o.length_contents]
  constructor
  · rintro ⟨copies, hy, _⟩
    exact ⟨copies, hy⟩
  · rintro ⟨copies, hy⟩
    obtain ⟨rest, rfl, hempty⟩ := Object.copies_of_yields ho hroom hchunks hy
    obtain ⟨hinside, houtside⟩ := Object.storeAll_pieces ho hend s.heap mem hcover
    refine ⟨_, hy, ?_, fun a ha => ?_⟩
    · rw [storeAll_append, storeAll_of_empty hempty]
      exact hinside
    · rw [storeAll_append, storeAll_of_empty hempty]
      exact houtside a ha

/-- Four bytes, put once: one chunk and four rounds, of which the last three find the zeros of a blank
    header.  They are copied into a buffer of other content. -/
theorem delta_memcpy_undoes_four_bytes :
    ∃ l f s₁ n s₂, Log.ctor none deltaLogSize = .ok (l, f) ∧
      (DeltaStore.ctor l f (fun _ => 0)).createObj [97] 4 4096 = .ok (.noError, 4096, s₁) ∧
      s₁.put blankHdr [97] 1 = .ok (.inr (n, s₂)) ∧
      s₂.file.Undoes s₁.log.writeOffset 4 8192 (fun _ => 7) [0, 0, 0, 0] := by
  obtain ⟨l, f, s₁, n, s₂, hnew, _, hcreate, hmap, hheap, _, hr, hs, _, hput⟩ := DeltaStore.one_put
  have hobj := SortedMap.find?_of_singleton hmap
  have hmarked : ∀ i < 4, (Object.ctorDelta [97] 4 0 4096).bitset[i / pageSize]? = some true := by
    decide
  have hcover : ∀ i < 4, (fun _ => 7 : Mem Byte) (8192 + i) ≠ s₁.heap (4096 + i) →
      (Object.ctorDelta [97] 4 0 4096).bitset[i / pageSize]? = some true :=
    fun i hi _ => hmarked i hi
  have hiff : s₂.file.Undoes s₁.log.writeOffset _ 8192 (fun _ => 7) _ ↔ _ :=
    delta_memcpy_undoes_iff hr hs hput hobj
      (Object.sized_ctorDelta [97] 0 4096 (by decide) (by decide)) (by decide) (by decide) hcover
  rw [hheap] at hiff
  exact ⟨l, f, s₁, n, s₂, hnew, hcreate, hput, hiff.mpr (by decide)⟩

/-- **Eight bytes are too many.**  The object is one chunk of one page, and the header was blank before;
    `delta_memcpy` makes eight rounds, and the sixth of them leaves the array, whatever the buffer
    is. -/
theorem delta_memcpy_leaves_deltas :
    ∃ l f s₁ n s₂ o, Log.ctor none deltaLogSize = .ok (l, f) ∧
      (DeltaStore.ctor l f (fun _ => 0)).createObj [97] 8 4096 = .ok (.noError, 4096, s₁) ∧
      s₁.objectMap.find? [97] = some o ∧ o.bitset = [true] ∧ o.getDeltaChunks.length = 1 ∧
      s₁.put blankHdr [97] 1 = .ok (.inr (n, s₂)) ∧
      ∀ dst, (∀ copies, s₂.file.run (DeltaStore.deltaMemcpy dst (s₁.log.writeOffset + sizeofLehdr)
          (decodeDeltas (load s₂.file.bytes (s₁.log.writeOffset + deltasField) 80))
          (UInt64.ofNat (word s₂.file.bytes (s₁.log.writeOffset + deltaLenField)))) ≠ .ok copies) ∧
        ∀ mem, ¬ s₂.file.Undoes s₁.log.writeOffset (o.payload s₁.heap).length dst mem
          (o.contents s₁.heap) := by
  obtain ⟨l, f, s₁, hnew, hcreate, hmap, _, _, hr, hs, hlen⟩ := DeltaStore.one_object 8 4096
  have hobj := SortedMap.find?_of_singleton hmap
  have ho : (Object.ctorDelta [97] 8 0 4096).Sized :=
    Object.sized_ctorDelta [97] 0 4096 (by decide) (by decide)
  have height : (Object.ctorDelta [97] 8 0 4096).deltaLen = 8 := by decide
  obtain ⟨n, s₂, hput⟩ := DeltaStore.put_of_fits hr hs blankHdr 1 hobj (by decide)
    (by rw [hlen]; decide)
  refine ⟨l, f, s₁, n, s₂, _, hnew, hcreate, hobj, by decide, by decide, hput, fun dst => ?_⟩
  have hmemcpy := DeltaStore.deltaMemcpy_of_put hr hs hput hobj ho dst
  rw [height] at hmemcpy
  constructor
  · intro copies hrun
    rw [hmemcpy] at hrun
    have := deltaCopies_rounds_le (Nat.zero_le 5) (Prog.yields_of_run hrun)
    omega
  · rintro mem ⟨copies, hy, _⟩
    rw [hmemcpy] at hy
    have := deltaCopies_rounds_le (Nat.zero_le 5) hy
    omega

end NvStream
