/-
  What `Object::get_delta_chunks` returns.

  The loop is a run-length encoder written with a status flag.  `getDeltaChunks_eq` replaces it by its
  specification: the maximal runs of set bits (`BitRuns.runs`), turned from pages to bytes, the last
  page cut at the real size.  From there on everything is about runs:

  * `covers_getDeltaChunks`: a byte lies in a chunk exactly when it is a byte of the object and its
    page's bit is set;
  * `getDeltaChunks_exact`: the whole contract of the encoder, for every size whose rounding up does
    not wrap;
  * `deltaLen_eq_iff`: the chunks add up to the size exactly when every bit is set.

  The encoder only needs pages to be counted without overflow (`Object.Sized`).  An object that an
  allocation can hold (`Object.Paged`) is further away from it.
-/
import NvStream.Object
import NvStream.Lib.BitRuns

namespace NvStream

open FlatMem LittleEndian BitRuns

/-- The object has one bit per page of its aligned size, which is its size rounded up without
    wrapping around. -/
structure Object.Sized (o : Object) : Prop where
  aligned : o.alignedSize = o.bitset.length * pageSize
  covers : o.size.toNat ≤ o.alignedSize
  tight : o.alignedSize < o.size.toNat + pageSize
  fits : o.alignedSize < 2 ^ 64

/-- The object has one bit per page of its aligned size, and the aligned size holds the object. -/
structure Object.Paged (o : Object) : Prop where
  aligned : o.alignedSize = o.bitset.length * pageSize
  covers : o.size.toNat ≤ o.alignedSize
  tight : o.alignedSize < o.size.toNat + pageSize
  small : o.alignedSize < 2 ^ 63

theorem Object.Paged.sized {o : Object} (ho : o.Paged) : o.Sized :=
  ⟨ho.aligned, ho.covers, ho.tight, Nat.lt_trans ho.small (by decide)⟩

/-- Rounding up a size that stays below the word is rounding up. -/
theorem alignUp_eq {n : Nat} (h : n + (pageSize - 1) < 2 ^ 64) :
    alignUp n = (n + 4095) / 4096 * 4096 := by
  unfold pageSize at h
  unfold alignUp u64 pageSize
  omega

/-- Whatever its bits are, an object whose size is rounded up without wrapping is sized. -/
theorem Object.sized_ctorDelta (name : Key) {size : UInt64} (version : UInt64) (ptr : Nat)
    {bits : List Bool} (hfit : size.toNat + (pageSize - 1) < 2 ^ 64)
    (hbits : bits.length = alignUp size.toNat / pageSize) :
    Object.Sized { Object.ctorDelta name size version ptr with bitset := bits } := by
  have hup := alignUp_eq hfit
  unfold pageSize at hfit
  refine ⟨?_, ?_, ?_, ?_⟩
  · show alignUp size.toNat = bits.length * pageSize
    rw [hbits, hup, pageSize, Nat.mul_div_cancel _ (by decide)]
  · show size.toNat ≤ alignUp size.toNat
    omega
  · show alignUp size.toNat < size.toNat + pageSize
    unfold pageSize
    omega
  · show alignUp size.toNat < 2 ^ 64
    omega

/-- Every byte of the object has a bit. -/
theorem Object.page_lt {o : Object} (ho : o.Paged) {i : Nat} (hi : i < o.size.toNat) :
    i / pageSize < o.bitset.length := by
  have h1 := ho.aligned
  have h2 := ho.covers
  rw [Nat.div_lt_iff_lt_mul (by decide)]
  omega

/-- A paged object that starts at a page boundary, and whose pages are memory of the process. -/
structure Object.Placed (o : Object) : Prop extends o.Paged where
  boundary : o.ptr % pageSize = 0
  nonnull : 0 < o.size.toNat → 0 < o.ptr
  inside : o.ptr + o.alignedSize ≤ 2 ^ 63

theorem Object.Placed.end_lt {o : Object} (ho : o.Placed) : o.ptr + o.size.toNat < 2 ^ 64 := by
  have hinside := ho.inside
  have hcovers := ho.covers
  omega

/-- A new object is placed, if its bytes are memory behind a page boundary: rounding its size up
    does not wrap. -/
theorem Object.placed_ctorDelta (name : Key) {size : UInt64} (version : UInt64) {ptr : Nat}
    (haligned : ptr % pageSize = 0) (hnonnull : 0 < size.toNat → 0 < ptr)
    (hinside : ptr + size.toNat ≤ 2 ^ 63) : (Object.ctorDelta name size version ptr).Placed := by
  have hfit : size.toNat + (pageSize - 1) < 2 ^ 64 := by
    unfold pageSize
    omega
  have hup := alignUp_eq hfit
  have hsized : (Object.ctorDelta name size version ptr).Sized :=
    Object.sized_ctorDelta name version ptr hfit List.length_replicate
  unfold pageSize at haligned
  refine ⟨⟨hsized.aligned, hsized.covers, hsized.tight, ?_⟩, haligned, hnonnull, ?_⟩
  · show alignUp size.toNat < 2 ^ 63
    omega
  · show ptr + alignUp size.toNat ≤ 2 ^ 63
    omega

/-- The two objects differ in nothing but version and bits. -/
structure Object.SameFrame (o o' : Object) : Prop where
  ptr : o'.ptr = o.ptr
  size : o'.size = o.size
  alignedSize : o'.alignedSize = o.alignedSize
  length : o'.bitset.length = o.bitset.length

theorem Object.SameFrame.rfl {o : Object} : o.SameFrame o :=
  ⟨Eq.refl _, Eq.refl _, Eq.refl _, Eq.refl _⟩

theorem Object.Paged.of_sameFrame {o o' : Object} (ho : o.Paged) (h : o.SameFrame o') :
    o'.Paged := by
  refine ⟨?_, ?_, ?_, ?_⟩
  · rw [h.alignedSize, h.length]
    exact ho.aligned
  · rw [h.alignedSize, h.size]
    exact ho.covers
  · rw [h.alignedSize, h.size]
    exact ho.tight
  · rw [h.alignedSize]
    exact ho.small

theorem Object.Placed.of_sameFrame {o o' : Object} (ho : o.Placed) (h : o.SameFrame o') :
    o'.Placed := by
  refine ⟨ho.toPaged.of_sameFrame h, ?_, ?_, ?_⟩
  · rw [h.ptr]
    exact ho.boundary
  · rw [h.ptr, h.size]
    exact ho.nonnull
  · rw [h.ptr, h.alignedSize]
    exact ho.inside

/-- The chunk of one run of pages. -/
def Object.chunkOf (o : Object) (r : Nat × Nat) : Delta :=
  ⟨UInt64.ofNat (r.1 * pageSize),
    if r.2 < o.bitset.length then UInt64.ofNat ((r.2 - r.1) * pageSize)
    else o.size - UInt64.ofNat (r.1 * pageSize)⟩

namespace Object

/-! ## The loop is the specification -/

/-- The run that is open in a state of the loop. -/
def ChunkScan.openRun (s : ChunkScan) : Option Nat := if s.status then some s.startOffset else none

theorem ChunkScan.status_extend (s : ChunkScan) (i : Nat) : (s.extend i).status = true := by
  unfold ChunkScan.extend
  cases s.status <;> rfl

theorem ChunkScan.dcvector_extend (s : ChunkScan) (i : Nat) :
    (s.extend i).dcvector = s.dcvector := by
  unfold ChunkScan.extend
  split <;> rfl

/-- A modified page belongs to the run that was open, or starts one. -/
theorem ChunkScan.startOffset_extend (s : ChunkScan) (i : Nat) :
    (s.extend i).startOffset = s.openRun.getD i := by
  unfold ChunkScan.extend ChunkScan.openRun
  cases s.status <;> rfl

theorem ChunkScan.end_extend {s : ChunkScan} {i : Nat}
    (h : s.status = true → s.startOffset + s.len = i) :
    (s.extend i).startOffset + (s.extend i).len = i + 1 := by
  unfold ChunkScan.extend
  cases hs : s.status with
  | false => rfl
  | true =>
    have := h hs
    show s.startOffset + (s.len + 1) = i + 1
    omega

variable {o : Object}

/-- A clean page outside a run changes nothing. -/
theorem chunkStep_idle {i : Nat} {last : Bool} {s : ChunkScan} (h : s.status = false) :
    o.chunkStep i false last s = s := by
  unfold chunkStep
  simp [h]

/-- A clean page behind a run closes it. -/
theorem chunkStep_close {i : Nat} {last : Bool} {s : ChunkScan} (h : s.status = true)
    (hend : s.startOffset + s.len = i) (hi : i < o.bitset.length) :
    o.chunkStep i false last s =
      { s with status := false, dcvector := s.dcvector ++ [o.chunkOf (s.startOffset, i)] } := by
  unfold chunkStep chunkOf
  rw [if_pos hi, show i - s.startOffset = s.len by omega]
  simp [h]

/-- A modified page extends the run; at the end of the object the run is closed. -/
theorem chunkStep_dirty {i : Nat} {last : Bool} {s : ChunkScan}
    (hlast : last = true ↔ i + 1 = o.bitset.length) :
    o.chunkStep i true last s =
      if last then { s.extend i with
        status := false
        dcvector := s.dcvector ++ [o.chunkOf ((s.extend i).startOffset, i + 1)] }
      else s.extend i := by
  unfold chunkStep chunkOf
  have hstatus := s.status_extend i
  have hdc := s.dcvector_extend i
  cases last with
  | false => simp
  | true =>
    rw [if_neg (show ¬ i + 1 < o.bitset.length by have := hlast.mp rfl; omega)]
    simp [hstatus, hdc]

/-- What the loop adds to the chunks it has is the runs still to come.  The open run ends where the
    loop stands, and none is open behind the last page. -/
theorem chunkLoop_eq (rest : List Bool) : ∀ (i : Nat) (s : ChunkScan),
    i + rest.length = o.bitset.length → (s.status = true → s.startOffset + s.len = i) →
    (rest = [] → s.status = false) →
    (o.chunkLoop i rest s).dcvector =
      s.dcvector ++ (runsFrom s.openRun i rest).map o.chunkOf := by
  induction rest with
  | nil =>
    intro i s _ _ hclosed
    rw [chunkLoop, ChunkScan.openRun, hclosed rfl]
    exact (List.append_nil _).symm
  | cons bit rest ih =>
    intro i s hn hopen _
    rw [List.length_cons] at hn
    rw [chunkLoop]
    cases bit with
    | false =>
      cases hstatus : s.status with
      | false =>
        rw [chunkStep_idle hstatus, ih (i + 1) s (by omega)
          (fun h => by rw [hstatus] at h; exact absurd h (by decide)) (fun _ => hstatus),
          ChunkScan.openRun, hstatus]
        rfl
      | true =>
        rw [chunkStep_close hstatus (hopen hstatus) (by omega),
          ih (i + 1) _ (by omega) (fun h => absurd h Bool.false_ne_true) (fun _ => rfl),
          ChunkScan.openRun, ChunkScan.openRun, hstatus]
        show s.dcvector ++ [_] ++ (runsFrom none (i + 1) rest).map o.chunkOf = _
        rw [List.append_assoc]
        rfl
    | true =>
      have hruns : runsFrom s.openRun i (true :: rest) =
          runsFrom (some (s.extend i).startOffset) (i + 1) rest := by
        rw [s.startOffset_extend]
        unfold ChunkScan.openRun
        cases s.status <;> rfl
      rw [chunkStep_dirty (by rw [List.isEmpty_iff_length_eq_zero]; omega), hruns]
      cases rest with
      | nil => rfl
      | cons bit' rest =>
        rw [List.isEmpty_cons, if_neg (by decide), ih (i + 1) _ (by omega)
          (fun _ => ChunkScan.end_extend hopen) (fun h => nomatch h), s.dcvector_extend,
          ChunkScan.openRun, s.status_extend]
        rfl

/-- **The chunks are the runs of modified pages, in bytes.** -/
theorem getDeltaChunks_eq (o : Object) : o.getDeltaChunks = (runs o.bitset).map o.chunkOf := by
  rw [getDeltaChunks, chunkLoop_eq o.bitset 0 _ (by omega) (fun h => absurd h (by decide))
    (fun _ => rfl)]
  rfl

end Object

/-! ## In bytes -/

/-- The byte interval of a chunk. -/
def Delta.interval (c : Delta) : Nat × Nat :=
  (c.startOffset.toNat, c.startOffset.toNat + c.len.toNat)

namespace Object

variable {o : Object}

/-- The chunk of a run is the bytes of its pages, cut at the size of the object. -/
theorem interval_chunkOf (ho : o.Sized) {r : Nat × Nat} (hr : r ∈ runs o.bitset) :
    (o.chunkOf r).interval = (r.1 * pageSize, min (r.2 * pageSize) o.size.toNat) ∧
      r.1 * pageSize < o.size.toNat := by
  obtain ⟨hlt, hle⟩ := runs_bounds hr
  have h1 := ho.aligned
  have h2 := ho.covers
  have h3 := ho.tight
  have hps : pageSize = 4096 := rfl
  rw [hps] at h1 h3 ⊢
  have hend_le : r.2 * 4096 ≤ o.alignedSize := by
    rw [h1]
    exact Nat.mul_le_mul_right _ hle
  have hone : (r.1 + 1) * 4096 ≤ r.2 * 4096 := Nat.mul_le_mul_right _ hlt
  have hbelow : r.2 < o.bitset.length → (r.2 + 1) * 4096 ≤ o.alignedSize := by
    intro h
    rw [h1]
    exact Nat.mul_le_mul_right _ h
  have hwhole : ¬ r.2 < o.bitset.length → r.2 * 4096 = o.alignedSize := by
    intro h
    rw [h1, show r.2 = o.bitset.length by omega]
  rw [Nat.add_mul] at hone hbelow
  have hstart_lt : r.1 * 4096 < o.size.toNat := by omega
  -- a run that ends before the last page does not reach the size, the last run goes beyond it
  have hmid : ∀ x y, x + 4096 ≤ y → y + 4096 ≤ o.alignedSize →
      x + (y - x) = min y o.size.toNat := by omega
  have hlast : ∀ x y, x < o.size.toNat → y = o.alignedSize →
      x + (o.size.toNat - x) = min y o.size.toNat := by omega
  have hsmall : r.1 * 4096 < 2 ^ 64 := Nat.lt_trans hstart_lt o.size.toNat_lt
  have hsmall' : (r.2 - r.1) * 4096 < 2 ^ 64 :=
    Nat.lt_of_le_of_lt (Nat.mul_le_mul_right _ (Nat.sub_le r.2 r.1))
      (Nat.lt_of_le_of_lt hend_le ho.fits)
  have hstart := toNat_ofNat hsmall
  refine ⟨?_, hstart_lt⟩
  unfold chunkOf Delta.interval
  rw [hps]
  simp only [hstart, Prod.mk.injEq, true_and]
  by_cases hin : r.2 < o.bitset.length
  · rw [if_pos hin, toNat_ofNat hsmall', Nat.sub_mul, hmid _ _ hone (hbelow hin)]
  · have hle64 : UInt64.ofNat (r.1 * 4096) ≤ o.size := by
      rw [UInt64.le_iff_toNat_le, hstart]
      exact Nat.le_of_lt hstart_lt
    rw [if_neg hin, UInt64.toNat_sub_of_le _ _ hle64, hstart, hlast _ _ hstart_lt (hwhole hin)]

/-- **A byte lies in a chunk exactly when it belongs to the object and its page is modified.** -/
theorem covers_getDeltaChunks (ho : o.Sized) (a : Nat) :
    Covers (o.getDeltaChunks.map Delta.interval) a ↔
      a < o.size.toNat ∧ o.bitset[a / pageSize]? = some true := by
  have hps : pageSize = 4096 := rfl
  rw [← covers_runs, o.getDeltaChunks_eq, List.map_map]
  constructor
  · rintro ⟨_, hc, hle, hlt⟩
    obtain ⟨r, hr, rfl⟩ := List.mem_map.mp hc
    rw [Function.comp_apply, (interval_chunkOf ho hr).1] at hle hlt
    rw [hps] at hle hlt ⊢
    exact ⟨by omega, r, hr, by omega⟩
  · rintro ⟨ha, r, hr, hle, hlt⟩
    refine ⟨_, List.mem_map.mpr ⟨r, hr, rfl⟩, ?_⟩
    rw [Function.comp_apply, (interval_chunkOf ho hr).1]
    rw [hps] at hle hlt ⊢
    omega

/-- The chunks are ordered, and stay inside the object. -/
theorem getDeltaChunks_sorted (ho : o.Sized) :
    (o.getDeltaChunks.map Delta.interval).Pairwise (fun a b => a.2 ≤ b.1) ∧
      ∀ c ∈ o.getDeltaChunks.map Delta.interval, c.1 ≤ c.2 ∧ c.2 ≤ o.size.toNat := by
  have hps : pageSize = 4096 := rfl
  rw [o.getDeltaChunks_eq, List.map_map]
  constructor
  · rw [List.pairwise_map]
    refine (runs_sorted o.bitset).imp_of_mem ?_
    intro r q hr hq hlt
    rw [Function.comp_apply, Function.comp_apply, (interval_chunkOf ho hr).1,
      (interval_chunkOf ho hq).1]
    refine Nat.le_trans (Nat.min_le_left _ _) ?_
    exact Nat.mul_le_mul_right _ (Nat.le_of_lt hlt)
  · intro c hc
    obtain ⟨r, hr, rfl⟩ := List.mem_map.mp hc
    obtain ⟨hint, hlt⟩ := interval_chunkOf ho hr
    obtain ⟨hbounds, _⟩ := runs_bounds hr
    rw [Function.comp_apply, hint]
    refine ⟨?_, Nat.min_le_right _ _⟩
    rw [hps] at hlt ⊢
    omega

/-- Between two chunks lies a whole page that is not modified. -/
theorem clean_page_between (ho : o.Sized) :
    o.getDeltaChunks.Pairwise (fun c d => ∃ page, o.bitset[page]? = some false ∧
      c.interval.2 ≤ page * pageSize ∧ (page + 1) * pageSize ≤ d.interval.1) := by
  rw [o.getDeltaChunks_eq, List.pairwise_map]
  refine (runs_sorted o.bitset).imp_of_mem ?_
  intro r q hr hq hlt
  obtain ⟨hq1, hq2⟩ := runs_bounds hq
  refine ⟨r.2, ?_, ?_, ?_⟩
  · -- the bit behind a run is clear, and another run follows it
    have hin : r.2 < o.bitset.length := by omega
    have hclear := clear_after_run hr
    rw [List.getElem?_eq_getElem hin] at hclear ⊢
    cases hbit : o.bitset[r.2] with
    | false => rfl
    | true => exact absurd (congrArg some hbit) hclear
  · rw [(interval_chunkOf ho hr).1]
    exact Nat.min_le_left _ _
  · rw [(interval_chunkOf ho hq).1]
    exact Nat.mul_le_mul_right _ hlt

/-- A chunk is not empty, starts a page and ends inside the object. -/
theorem chunk_shape (ho : o.Sized) {c : Delta} (hc : c ∈ o.getDeltaChunks) :
    0 < c.len.toNat ∧ c.startOffset.toNat % pageSize = 0 ∧ c.interval.2 ≤ o.size.toNat := by
  rw [o.getDeltaChunks_eq] at hc
  obtain ⟨r, hr, rfl⟩ := List.mem_map.mp hc
  obtain ⟨hint, hlt⟩ := interval_chunkOf ho hr
  obtain ⟨hbounds, _⟩ := runs_bounds hr
  have hstart : (o.chunkOf r).startOffset.toNat = r.1 * pageSize := congrArg Prod.fst hint
  have hend : (o.chunkOf r).startOffset.toNat + (o.chunkOf r).len.toNat =
      min (r.2 * pageSize) o.size.toNat := congrArg Prod.snd hint
  have hmul : r.1 * pageSize < r.2 * pageSize := Nat.mul_lt_mul_of_pos_right hbounds (by decide)
  refine ⟨by omega, ?_, ?_⟩
  · rw [hstart]
    exact Nat.mul_mod_left _ _
  · rw [hint]
    exact Nat.min_le_right _ _

/-- The bytes of the chunks together. -/
def deltaLen (o : Object) : Nat := (o.getDeltaChunks.map (fun c => c.len.toNat)).sum

theorem deltaLen_eq_sum (o : Object) : o.deltaLen =
    ((o.getDeltaChunks.map Delta.interval).map (fun r => r.2 - r.1)).sum := by
  rw [deltaLen, List.map_map]
  congr 1
  apply List.map_congr_left
  intro c _
  show _ = c.startOffset.toNat + c.len.toNat - c.startOffset.toNat
  omega

/-- The bytes of an object that lie on a modified page. -/
def modifiedBytes (o : Object) : Finset Nat :=
  (Finset.range o.size.toNat).filter (fun b => o.bitset[b / pageSize]? = some true)

theorem deltaLen_eq_card (ho : o.Sized) : o.deltaLen = o.modifiedBytes.card := by
  rw [o.deltaLen_eq_sum]
  refine sum_eq_card _ (getDeltaChunks_sorted ho).1 _ (fun b => ?_)
  rw [covers_getDeltaChunks ho, modifiedBytes, Finset.mem_filter, Finset.mem_range]

/-- **`get_delta_chunks` is an exact run-length encoding**, for every size that is rounded up without
    wrapping and every value of the bit vector. -/
theorem getDeltaChunks_exact (name : Key) (size version : UInt64) (ptr : Nat) (bits : List Bool)
    (hfit : size.toNat + (pageSize - 1) < 2 ^ 64)
    (hbits : bits.length = alignUp size.toNat / pageSize) :
    let o : Object := { Object.ctorDelta name size version ptr with bitset := bits }
    -- in strictly increasing order, with a clean page between any two of them
    o.getDeltaChunks.Pairwise (fun c d => c.startOffset < d.startOffset ∧
      ∃ page, bits[page]? = some false ∧
        c.startOffset.toNat + c.len.toNat ≤ page * pageSize ∧
        (page + 1) * pageSize ≤ d.startOffset.toNat) ∧
    -- not empty, on page boundaries, inside the object
    (∀ c ∈ o.getDeltaChunks, 0 < c.len.toNat ∧ c.startOffset.toNat % pageSize = 0 ∧
      c.startOffset.toNat + c.len.toNat ≤ size.toNat) ∧
    -- exactly the bytes whose page is modified
    (∀ b : Nat, (∃ c ∈ o.getDeltaChunks, c.startOffset.toNat ≤ b ∧
      b < c.startOffset.toNat + c.len.toNat) ↔
      b < size.toNat ∧ bits[b / pageSize]? = some true) ∧
    (o.getDeltaChunks.map (fun c => c.len.toNat)).sum =
      ((Finset.range size.toNat).filter (fun b => bits[b / pageSize]? = some true)).card := by
  intro o
  have ho : o.Sized := sized_ctorDelta name version ptr hfit hbits
  refine ⟨?_, fun c hc => chunk_shape ho hc, fun b => ?_, deltaLen_eq_card ho⟩
  · refine (clean_page_between ho).imp ?_
    rintro c d ⟨page, hclean, hc, hd⟩
    refine ⟨?_, page, hclean, hc, hd⟩
    have hps : pageSize = 4096 := rfl
    have hc' : c.startOffset.toNat + c.len.toNat ≤ page * pageSize := hc
    have hd' : (page + 1) * pageSize ≤ d.startOffset.toNat := hd
    rw [UInt64.lt_iff_toNat_lt]
    rw [hps] at hc' hd'
    omega
  · refine Iff.trans ?_ (covers_getDeltaChunks ho b)
    constructor
    · rintro ⟨c, hc, hb⟩
      exact ⟨c.interval, List.mem_map_of_mem hc, hb⟩
    · rintro ⟨_, hc, hb⟩
      obtain ⟨c, hmem, rfl⟩ := List.mem_map.mp hc
      exact ⟨c, hmem, hb⟩

/-- Three pages, the middle one clean: two chunks, the second cut at the size. -/
theorem getDeltaChunks_exact_three :
    (Object.getDeltaChunks { Object.ctorDelta [97] 10000 0 4096 with
      bitset := [true, false, true] }).map (fun c => (c.startOffset, c.len)) =
      [(0, 4096), (8192, 1808)] ∧
    ∀ b : Nat, (∃ c ∈ Object.getDeltaChunks { Object.ctorDelta [97] 10000 0 4096 with
      bitset := [true, false, true] }, c.startOffset.toNat ≤ b ∧
      b < c.startOffset.toNat + c.len.toNat) ↔
      b < 10000 ∧ [true, false, true][b / pageSize]? = some true :=
  ⟨by decide, (getDeltaChunks_exact [97] 10000 0 4096 [true, false, true] (by decide)
    (by decide)).2.2.1⟩

/-- **The chunks add up to the size exactly when every page is modified.** -/
theorem deltaLen_eq_iff (ho : o.Paged) :
    o.deltaLen = o.size.toNat ↔ ∀ b ∈ o.bitset, b = true := by
  have hps : pageSize = 4096 := rfl
  have h1 := ho.aligned
  have h2 := ho.covers
  have h3 := ho.tight
  rw [hps] at h1 h3
  constructor
  · -- a clean page leaves a gap at its first byte
    intro hsum
    by_contra hnot
    simp only [not_forall] at hnot
    obtain ⟨b, hb, hfalse⟩ := hnot
    obtain ⟨j, hj, hget⟩ := List.mem_iff_getElem.mp hb
    have hx : j * 4096 < o.size.toNat := by omega
    have hgap : ¬ Covers (o.getDeltaChunks.map Delta.interval) (j * 4096) := by
      rw [covers_getDeltaChunks ho.sized, hps, Nat.mul_div_cancel _ (by decide),
        List.getElem?_eq_getElem hj, hget, Option.some.injEq]
      exact fun h => hfalse h.2
    obtain ⟨hsort, hin⟩ := getDeltaChunks_sorted ho.sized
    have := sum_lt_of_gap hx _ 0 (Nat.zero_le _) hsort
      (fun r hr => ⟨Nat.zero_le _, hin r hr⟩) hgap
    rw [← o.deltaLen_eq_sum] at this
    omega
  · intro hall
    by_cases hne : o.bitset = []
    · rw [o.deltaLen_eq_sum, o.getDeltaChunks_eq, hne]
      rw [hne, List.length_nil] at h1
      show 0 = _
      omega
    · have hruns := runs_all hall hne
      have hmem : (0, o.bitset.length) ∈ runs o.bitset := by
        rw [hruns]
        exact List.mem_singleton.mpr rfl
      rw [o.deltaLen_eq_sum, o.getDeltaChunks_eq, hruns, List.map_singleton, List.map_singleton,
        (interval_chunkOf ho.sized hmem).1, hps]
      simp only [List.map_singleton, List.sum_singleton]
      omega

end Object

end NvStream
