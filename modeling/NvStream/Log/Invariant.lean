/-
  The representation invariant of a log, and what one append does to it.

  `Rep f body` says what a log file holds: a header with the right magic number and length, `head`
  just behind it, `tail` just behind the `body` bytes, all inside the mapping.  `Log.Synced` says
  that a handle's cached offsets are those of the file.

  1. **The copy loops** advance `write_offset` modulo `2 ^ 64`, piece by piece.  `copyv_exact` removes
     the modulus when the sum fits, `copyv_fits` shows the sum MUST fit when every store landed inside
     the mapping, and `appendmv_eq_appendv` flattens the nested loops, so everything else is about
     `appendv`.
  2. **One append** (`appendv_of_fits`, `fits_of_appendv`): it succeeds exactly when the data and the
     commit word fit below `end_offset`, and its effect is then three plain stores (`appended`).
  3. **Whole lives** (`Step`): the invariant is preserved by appends, refusals and reopenings, which
     gives `log_representation`.
-/
import NvStream.Log.Basic
import NvStream.Lib.Runs

namespace NvStream

open FlatMem LittleEndian LoadProg PersistTrace

/-! ## The copy loops -/

theorem storeEach_append {α : Type} (off : Nat) (xs ys : List α) :
    storeEach off (xs ++ ys) = storeEach off xs ++ storeEach (off + xs.length) ys := by
  induction xs generalizing off with
  | nil => rfl
  | cons x xs ih =>
    rw [List.cons_append, storeEach, storeEach, ih, List.cons_append, List.length_cons,
      show off + 1 + xs.length = off + (xs.length + 1) by omega]

theorem gather_cons (v : IoVec) (vs : List IoVec) : gather (v :: vs) = v.base ++ gather vs :=
  List.flatMap_cons

/-- Copying two vectors one after the other is copying their concatenation. -/
theorem copyv_append (wo : Nat) (xs ys : List IoVec) :
    copyv wo (xs ++ ys) =
      ((copyv wo xs).1 ++ (copyv (copyv wo xs).2 ys).1, (copyv (copyv wo xs).2 ys).2) := by
  induction xs generalizing wo with
  | nil => rfl
  | cons v vs ih =>
    show (storeEach wo v.base ++ (copyv _ (vs ++ ys)).1, (copyv _ (vs ++ ys)).2) = _
    rw [ih, ← List.append_assoc]
    rfl

/-- The nested copy loop is the flat one on the concatenated rows. -/
theorem copymv_eq_copyv (wo : Nat) (rows : List (List IoVec)) :
    copymv wo rows = copyv wo rows.flatten := by
  induction rows generalizing wo with
  | nil => rfl
  | cons row rows ih =>
    rw [List.flatten_cons, copyv_append, ← ih]
    rfl

/-- The nested length sum is the flat one on the concatenated rows. -/
theorem totCntmv_eq_totCntv (rows : List (List IoVec)) : totCntmv rows = totCntv rows.flatten := by
  rw [totCntmv, totCntv, List.foldl_flatten]

/-- **`appendmv` is `appendv` on the concatenated rows.** -/
theorem appendmv_eq_appendv (l : Log) (f : File) (rows : List (List IoVec)) :
    l.appendmv f rows = l.appendv f rows.flatten := by
  rw [Log.appendmv, Log.appendv, copymv_eq_copyv, totCntmv_eq_totCntv]

theorem length_gather (iov : List IoVec) : (gather iov).length = (iov.map IoVec.len).sum :=
  List.length_flatMap

theorem totCntv_eq (iov : List IoVec) : totCntv iov = u64 ((gather iov).length + 8) := by
  rw [totCntv, foldl_u64 IoVec.len (fun _ => rfl) iov (by decide), length_gather]
  simp only [u64, wordLength]
  omega

/-- While the exact end stays below `2 ^ 64` the copy loop stores the gathered bytes in one run. -/
theorem copyv_exact {wo : Nat} {iov : List IoVec} (h : wo + (gather iov).length < 2 ^ 64) :
    copyv wo iov = (storeEach wo (gather iov), wo + (gather iov).length) := by
  induction iov generalizing wo with
  | nil => rfl
  | cons v vs ih =>
    rw [gather_cons, List.length_append] at h
    have hstep : u64 (wo + v.len) = wo + v.base.length := u64_of_lt (by rw [IoVec.len]; omega)
    show (storeEach wo v.base ++ (copyv (u64 (wo + v.len)) vs).1,
      (copyv (u64 (wo + v.len)) vs).2) = _
    rw [hstep, ih (by omega), gather_cons, storeEach_append, List.length_append, Nat.add_assoc]

/-- A byte run stored inside the mapping ends inside it. -/
theorem storeEach_fits {off len : Nat} {bs : List Byte} (h : ∀ o ∈ storeEach off bs, InMap len o)
    (hoff : off ≤ len) : off + bs.length ≤ len := by
  induction bs generalizing off with
  | nil => exact hoff
  | cons b bs ih =>
    have hb : off + 1 ≤ len := (h _ List.mem_cons_self).resolve_left Nat.one_ne_zero
    have := ih (fun o ho => h o (List.mem_cons_of_mem _ ho)) hb
    rw [List.length_cons]
    omega

/-- If every store of the copy loop landed in the mapping, nothing wrapped around. -/
theorem copyv_fits {wo len : Nat} {iov : List IoVec} (h : ∀ o ∈ (copyv wo iov).1, InMap len o)
    (hwo : wo ≤ len) (hlen : len < 2 ^ 64) : wo + (gather iov).length ≤ len := by
  induction iov generalizing wo with
  | nil => exact hwo
  | cons v vs ih =>
    have h1 : wo + v.base.length ≤ len :=
      storeEach_fits (fun o ho => h o (List.mem_append_left _ ho)) hwo
    have hstep : u64 (wo + v.len) = wo + v.base.length := u64_of_lt (by rw [IoVec.len]; omega)
    have h2 : ∀ o ∈ (copyv (wo + v.base.length) vs).1, InMap len o := by
      rw [← hstep]
      exact fun o ho => h o (List.mem_append_right _ ho)
    have := ih h2 h1
    rw [gather_cons, List.length_append]
    omega

/-! ## The invariant -/

/-- **What a log file holds**: its header, and `body` between `head` and `tail`. -/
structure Rep (f : File) (body : List Byte) : Prop where
  header : load f.bytes 0 32 = LHdr.encode ⟨magicNumber, f.len, sizeofLhdr, 32 + body.length⟩
  content : load f.bytes 32 body.length = body
  room : 32 + body.length ≤ f.len
  /-- `pmem_map_file` takes no longer file. -/
  small : f.len < 2 ^ 63

/-- The handle's cached offsets are those of the file. -/
structure Log.Synced (l : Log) (f : File) (body : List Byte) : Prop where
  mapped : l.mappedLen = f.len
  start : l.startOffset = sizeofLhdr
  stop : l.endOffset = f.len - 1
  write : l.writeOffset = 32 + body.length

/-- A handle stays where it is as long as the file keeps its length. -/
theorem Log.Synced.congr {l : Log} {f f' : File} {body : List Byte} (hs : l.Synced f body)
    (hlen : f'.len = f.len) : l.Synced f' body :=
  ⟨hs.mapped.trans hlen.symm, hs.start, hs.stop.trans (by rw [hlen]), hs.write⟩

/-- The fields of a header in memory. -/
theorem LHdr.fields {m : Mem Byte} {h : LHdr} (hm : load m 0 32 = h.encode) :
    load m 0 8 = toLE 8 h.magicNumber ∧ load m lenOff 8 = toLE 8 h.len ∧
    load m headOff 8 = toLE 8 h.head ∧ load m tailOff 8 = toLE 8 h.tail := by
  have h0 : load m 0 h.encode.length = h.encode := by rw [LHdr.length_encode]; exact hm
  rw [LHdr.encode] at h0
  obtain ⟨h1, h2⟩ := (load_append_iff _ _ _ _).mp h0
  obtain ⟨h3, h4⟩ := (load_append_iff _ _ _ _).mp h2
  obtain ⟨h5, h6⟩ := (load_append_iff _ _ _ _).mp h4
  simp only [length_toLE, Nat.reduceAdd, Nat.zero_add] at h1 h3 h5 h6
  exact ⟨h1, h3, h5, h6⟩

section
variable {l l' : Log} {f f' : File} {body : List Byte} {iov : List IoVec}

theorem Rep.magic_eq (hr : Rep f body) : word f.bytes 0 = magicNumber :=
  word_of_load (LHdr.fields hr.header).1 (by decide)

theorem Rep.len_eq (hr : Rep f body) : word f.bytes lenOff = f.len :=
  word_of_load (LHdr.fields hr.header).2.1 (by have := hr.small; show f.len < _; omega)

theorem Rep.head_eq (hr : Rep f body) : word f.bytes headOff = sizeofLhdr :=
  word_of_load (LHdr.fields hr.header).2.2.1 (by decide)

theorem Rep.tail_eq (hr : Rep f body) : word f.bytes tailOff = 32 + body.length :=
  word_of_load (LHdr.fields hr.header).2.2.2
    (by have := hr.small; have := hr.room; show 32 + body.length < _; omega)

/-- The invariant only looks below the tail. -/
theorem Rep.congr {m' : Mem Byte} (hr : Rep f body)
    (h : Set.EqOn m' f.bytes (Set.Ici (32 + body.length))ᶜ) : Rep ⟨m', f.len⟩ body := by
  have hbelow : ∀ off n, off + n ≤ 32 + body.length → load m' off n = load f.bytes off n := by
    intro off n hle
    refine load_congr (fun a ha => h ?_)
    have := ha.2
    exact Nat.not_le.mpr (by omega)
  exact ⟨(hbelow 0 32 (by omega)).trans hr.header, (hbelow 32 _ (by omega)).trans hr.content,
    hr.room, hr.small⟩

/-- The handle `Log::Log` builds on a log file. -/
def handleOn (f : File) (body : List Byte) : Log :=
  ⟨f.len, sizeofLhdr, f.len - 1, 32 + body.length⟩

theorem handleOn_synced (f : File) (body : List Byte) : (handleOn f body).Synced f body :=
  ⟨rfl, rfl, rfl, rfl⟩

/-- `new Log(path, 0, id)` accepts the file, with this handle, and changes nothing in it. -/
def File.Opens (f : File) (l : Log) : Prop := Log.ctor (some f) 0 = .ok (l, f)

/-- What `Log::Log` verifies on a file that is not empty. -/
theorem ctor_some (hpos : 0 < f.len) (hmagic : word f.bytes 0 = magicNumber)
    (hlen : word f.bytes lenOff = f.len) :
    f.Opens ⟨f.len, word f.bytes headOff, f.len - 1, word f.bytes tailOff⟩ := by
  have hopen : pmemMapOpen (some f) 0 = some f := by
    rw [pmemMapOpen, if_neg (by decide), Option.filter_some, if_pos (by simpa using hpos.ne')]
  rw [File.Opens, Log.ctor, hopen]
  show (if word f.bytes 0 ≠ magicNumber then _ else if word f.bytes lenOff ≠ f.len then _ else _)
    = _
  rw [if_neg (not_not_intro hmagic), if_neg (not_not_intro hlen)]

/-- **Reopening a log succeeds**, changes nothing and finds the tail. -/
theorem ctor_reopen (hr : Rep f body) : Log.ctor (some f) 0 = .ok (handleOn f body, f) := by
  have hpos : 0 < f.len := by have := hr.room; omega
  have hopen := ctor_some hpos hr.magic_eq hr.len_eq
  rw [hr.head_eq, hr.tail_eq] at hopen
  exact hopen

/-! ## One append -/

/-- The memory after an append of `data` at `wo`: the data, the commit word, the new tail. -/
def appended (m : Mem Byte) (wo : Nat) (data : List Byte) : Mem Byte :=
  store (store m wo (data ++ commitWord)) tailOff (toLE 8 (wo + data.length + 8))

/-- Everything an accepted append stores before it publishes, with all modular sums evaluated: the
    data, a fence, and the commit word twice. -/
def fillOps (wo : Nat) (data : List Byte) : List (Op Byte) :=
  storeEach wo data ++ Op.drain ::
    (storeEach (wo + data.length) commitWord ++ storeEach (wo + data.length) commitWord)

/-- The trace of an accepted append: fill, fence, store `hdr->tail`, fence. -/
def appendOps (wo : Nat) (data : List Byte) : List (Op Byte) :=
  fillOps wo data ++ [Op.drain, Op.store tailOff (toLE 8 (wo + data.length + 8)), Op.drain]

theorem trace_eq_appendOps {wo : Nat} (h : wo + (gather iov).length + 8 < 2 ^ 64) :
    (copyv wo iov).1 ++ (persist (copyv wo iov).2).1 = appendOps wo (gather iov) ∧
    (persist (copyv wo iov).2).2 = wo + (gather iov).length + 8 := by
  have hu : u64 (wo + (gather iov).length + wordLength) = wo + (gather iov).length + 8 :=
    u64_of_lt h
  rw [copyv_exact (by omega), persist]
  refine ⟨?_, hu⟩
  rw [hu, appendOps, fillOps]
  simp only [List.append_assoc, List.cons_append]

theorem exec_fillOps (m : Mem Byte) (wo : Nat) (data : List Byte) :
    exec m (fillOps wo data) = store m wo (data ++ commitWord) := by
  rw [fillOps, exec_append, exec_storeEach, exec_cons, exec_append, exec_storeEach,
    exec_storeEach, ← store_append]
  exact store_idem _ _ _

theorem exec_appendOps (m : Mem Byte) (wo : Nat) (data : List Byte) :
    exec m (appendOps wo data) = appended m wo data := by
  rw [appendOps, exec_append, exec_fillOps]
  rfl

/-- Before it publishes, an append stores only above the old tail. -/
theorem fillOps_within (wo : Nat) (data : List Byte) :
    ∀ o ∈ fillOps wo data, o.Within (Set.Ico wo (wo + data.length + 8)) := by
  intro o ho
  have hc := length_commitWord
  have hbytes : ∀ off (bs : List Byte), wo ≤ off → off + bs.length ≤ wo + data.length + 8 →
      o ∈ storeEach off bs → o.Within (Set.Ico wo (wo + data.length + 8)) := by
    intro off bs h1 h2 hmem
    exact (storeEach_within hmem).mono (Set.Ico_subset_Ico h1 h2)
  rw [fillOps] at ho
  rcases List.mem_append.mp ho with ho | ho
  · exact hbytes wo data (by omega) (by omega) ho
  · rcases List.mem_cons.mp ho with rfl | ho
    · trivial
    · rcases List.mem_append.mp ho with ho | ho
      · exact hbytes _ _ (by omega) (by omega) ho
      · exact hbytes _ _ (by omega) (by omega) ho

/-- Every byte an accepted append stores lies between the old and the new tail, or in `hdr->tail`. -/
theorem appendOps_within (wo : Nat) (data : List Byte) :
    ∀ o ∈ appendOps wo data,
      o.Within (Set.Ico wo (wo + data.length + 8) ∪ Set.Ico tailOff (tailOff + 8)) := by
  intro o ho
  rw [appendOps] at ho
  rcases List.mem_append.mp ho with ho | ho
  · exact (fillOps_within wo data o ho).mono Set.subset_union_left
  · simp only [List.mem_cons, List.not_mem_nil, or_false] at ho
    rcases ho with rfl | rfl | rfl
    · trivial
    · intro i hi
      rw [length_toLE] at hi
      exact Or.inr ⟨by omega, by omega⟩
    · trivial

theorem inMap_of_within {W : Set Nat} {len : Nat} (hW : ∀ a ∈ W, a < len) {o : Op Byte}
    (h : o.Within W) : InMap len o := by
  cases o with
  | drain => trivial
  | store off bs =>
    rcases Nat.eq_zero_or_pos bs.length with hz | hz
    · exact Or.inl hz
    · have hlast : off + (bs.length - 1) ∈ W := h (bs.length - 1) (by omega)
      have := hW _ hlast
      exact Or.inr (by omega)

theorem appendOps_inMap {wo len : Nat} {data : List Byte} (h : wo + data.length + 8 ≤ len)
    (h32 : 32 ≤ len) : ∀ o ∈ appendOps wo data, InMap len o := by
  intro o ho
  refine inMap_of_within (fun a ha => ?_) (appendOps_within wo data o ho)
  rcases ha with ha | ha
  · have := ha.2
    omega
  · have : a < tailOff + 8 := ha.2
    simp only [tailOff] at this
    omega

/-- An append behind the header that ends below `end_offset`, on any handle. -/
theorem appendv_at (h32 : 32 ≤ l.writeOffset) (hend : l.endOffset < f.len) (hsmall : f.len < 2 ^ 63)
    (hfit : l.writeOffset + (gather iov).length + 8 ≤ l.endOffset) :
    l.appendv f iov =
      .ok ({ l with writeOffset := l.writeOffset + (gather iov).length + 8 },
        { f with bytes := appended f.bytes l.writeOffset (gather iov) }) := by
  have hspace : l.HasSpace (totCntv iov) := by
    rw [Log.HasSpace, totCntv_eq, u64_of_lt (by omega)]
    omega
  obtain ⟨hops, hwo⟩ :=
    trace_eq_appendOps (show l.writeOffset + (gather iov).length + 8 < 2 ^ 64 by omega)
  have hin : ∀ o ∈ appendOps l.writeOffset (gather iov), InMap f.len o :=
    appendOps_inMap (by omega) (by omega)
  rw [Log.appendv, Log.appendWith, if_pos hspace]
  simp only [hops, hwo, exec_appendOps]
  rw [if_pos hin]

/-- **An append that fits succeeds**, and stores the data, the commit word and the tail. -/
theorem appendv_of_fits (hr : Rep f body) (hs : l.Synced f body)
    (hfit : 32 + body.length + (gather iov).length + 8 ≤ f.len - 1) :
    l.appendv f iov =
      .ok ({ l with writeOffset := 32 + body.length + (gather iov).length + 8 },
        { f with bytes := appended f.bytes (32 + body.length) (gather iov) }) := by
  have hstop := hs.stop
  have hwrite := hs.write
  have hat : 32 + body.length + (gather iov).length + 8 ≤ l.endOffset := by omega
  rw [← hwrite] at hat ⊢
  exact appendv_at (by omega) (by omega) hr.small hat

/-- **An append that succeeds fits**: passing the modular check with every store inside the mapping
    leaves no room for a wrapped sum. -/
theorem fits_of_appendv (hr : Rep f body) (hs : l.Synced f body)
    (h : l.appendv f iov = .ok (l', f')) :
    32 + body.length + (gather iov).length + 8 ≤ f.len - 1 := by
  have hsmall := hr.small
  have hroom := hr.room
  rw [Log.appendv, Log.appendWith] at h
  split at h
  · rename_i hspace
    simp only at h
    split at h
    · rename_i hin
      have hcopy : ∀ o ∈ (copyv (32 + body.length) iov).1, InMap f.len o := by
        rw [← hs.write]
        exact fun o ho => hin o (List.mem_append_left _ ho)
      have hle := copyv_fits hcopy (by omega) (by omega)
      rw [Log.HasSpace, hs.stop, hs.write, totCntv_eq, u64_of_lt (by omega)] at hspace
      omega
    · cases h
  · cases h

/-- The bytes an append leaves alone: the header up to `tail`, and everything below the old tail. -/
theorem appended_eqOn (m : Mem Byte) (wo : Nat) (data : List Byte) {S : Set Nat}
    (h : ∀ a ∈ S, a < wo ∧ (a < tailOff ∨ 32 ≤ a)) : Set.EqOn (appended m wo data) m S := by
  intro a ha
  obtain ⟨h1, h2⟩ := h a ha
  rw [appended, store_out _ _ _ (by rw [length_toLE]; simp only [tailOff] at h2 ⊢; omega),
    store_out _ _ _ (Or.inl h1)]

/-- Where the tail stands behind an appended frame. -/
theorem tail_append (body data : List Byte) :
    32 + (body ++ (data ++ commitWord)).length = 32 + body.length + data.length + 8 := by
  simp only [List.length_append, length_commitWord]
  omega

/-- **The invariant is preserved by an append**: the body grows by the data and the commit word. -/
theorem Rep.append {data : List Byte} (hr : Rep f body)
    (hfit : 32 + body.length + data.length + 8 ≤ f.len - 1) :
    Rep { f with bytes := appended f.bytes (32 + body.length) data }
      (body ++ (data ++ commitWord)) := by
  have htail : load (appended f.bytes (32 + body.length) data) 24 8 =
      toLE 8 (32 + (body ++ (data ++ commitWord)).length) := by
    have h := load_store_self (store f.bytes (32 + body.length) (data ++ commitWord)) tailOff
      (toLE 8 (32 + body.length + data.length + 8))
    rw [length_toLE] at h
    rw [tail_append]
    exact h
  have hfront : load (appended f.bytes (32 + body.length) data) 0 24 = load f.bytes 0 24 := by
    apply load_congr
    apply appended_eqOn
    intro a ha
    have := ha.2
    exact ⟨by omega, Or.inl (by simp only [tailOff]; omega)⟩
  constructor
  · -- the first three fields are the old ones, the last is the new tail
    obtain ⟨h1, h2, h3, _⟩ := LHdr.fields hr.header
    show load (appended f.bytes (32 + body.length) data) 0 (8 + (8 + (8 + 8))) = _
    have hsplit : load f.bytes 0 24 =
        toLE 8 magicNumber ++ (toLE 8 f.len ++ toLE 8 sizeofLhdr) := by
      show load f.bytes 0 (8 + (8 + 8)) = _
      rw [load_add, load_add, h1]
      exact congrArg₂ (fun x y => _ ++ (x ++ y)) h2 h3
    show load (appended f.bytes (32 + body.length) data) 0 (24 + 8) = _
    rw [load_add, hfront, hsplit, htail, LHdr.encode]
    simp only [List.append_assoc]
  · rw [load_append_iff]
    constructor
    · have hsame : Set.EqOn (appended f.bytes (32 + body.length) data) f.bytes
          (Set.Ico 32 (32 + body.length)) :=
        appended_eqOn _ _ _ (fun a ha => ⟨ha.2, Or.inr ha.1⟩)
      exact (load_congr hsame).trans hr.content
    · have h := load_store_self f.bytes (32 + body.length) (data ++ commitWord)
      rw [appended, load_store_disjoint _ _ _ (Or.inr (by rw [length_toLE, tailOff]; omega))]
      exact h
  · rw [tail_append]
    show _ ≤ f.len
    omega
  · exact hr.small

end

/-! ## A new log -/

/-- Behind the header the constructor only touches bytes from `start_offset` on. -/
theorem touch_within (len : Nat) :
    ∀ o ∈ (List.range ((len - 1 - sizeofLhdr + 4095) / 4096)).map
      (fun i => (Op.store (sizeofLhdr + 4096 * i) [0] : Op Byte)),
      o.Within (Set.Ici sizeofLhdr) := by
  intro o ho
  obtain ⟨i, _, rfl⟩ := List.mem_map.mp ho
  intro j _
  show sizeofLhdr ≤ sizeofLhdr + 4096 * i + j
  omega

/-- The header a new log starts with. -/
theorem load_ctorOps (m : Mem Byte) (len : Nat) :
    load (exec m (ctorOps len)) 0 32 =
      LHdr.encode ⟨magicNumber, len, sizeofLhdr, sizeofLhdr⟩ := by
  rw [ctorOps, exec_append, exec_storeEach, exec_cons]
  have hsame := exec_eqOn (touch_within len)
    (store m 0 (LHdr.encode ⟨magicNumber, len, sizeofLhdr, sizeofLhdr⟩))
  have hload := load_store_self m 0 (LHdr.encode ⟨magicNumber, len, sizeofLhdr, sizeofLhdr⟩)
  rw [LHdr.length_encode] at hload
  refine Eq.trans (load_congr (fun a ha => hsame ?_)) hload
  intro h
  have h1 : sizeofLhdr ≤ a := h
  have h2 := ha.2
  simp only [sizeofLhdr] at h1
  omega

/-- An existing file is not created again. -/
theorem ctor_exists (f : File) {size : Nat} (hsize : 0 < size) :
    Log.ctor (some f) size = .error .exit := by
  rw [Log.ctor, show pmemMapCreate (some f) size = none from rfl]
  simp only [pmemMapOpen, if_pos hsize.ne']

/-- A file of no possible size is not made. -/
theorem ctor_unmappable {size : Nat} (h : ¬ (0 < size ∧ size < 2 ^ 63)) :
    Log.ctor none size = .error .exit := by
  have hopen : pmemMapOpen none size = none := by
    rw [pmemMapOpen]
    split <;> rfl
  rw [Log.ctor, show pmemMapCreate none size = none from if_neg h]
  simp only [hopen]

/-- `Log::Log` on a path with no file succeeds exactly when the file can be made. -/
theorem ctor_none {size : Nat} {l : Log} {f : File} :
    Log.ctor none size = .ok (l, f) ↔ (0 < size ∧ size < 2 ^ 63) ∧
      l = ⟨size, sizeofLhdr, size - 1, sizeofLhdr⟩ ∧
      f = ⟨exec (fun _ => 0) (ctorOps size), size⟩ := by
  by_cases hmap : 0 < size ∧ size < 2 ^ 63
  · have hnew : pmemMapCreate none size = some ⟨fun _ => 0, size⟩ := by
      rw [pmemMapCreate, if_pos hmap]
    rw [Log.ctor, hnew, and_iff_right hmap]
    simp only [Except.ok.injEq, Prod.mk.injEq]
    exact and_congr eq_comm eq_comm
  · rw [ctor_unmappable hmap]
    constructor
    · intro h
      cases h
    · intro h
      exact absurd h.1 hmap

/-- Creating a log fails with `exit(1)` only. -/
theorem ctor_not_made {file : Option File} {size : Nat} {why : Stop} (hsize : 0 < size)
    (h : Log.ctor file size = .error why) : why = .exit := by
  cases file with
  | some f =>
    rw [ctor_exists f hsize] at h
    exact (Except.error.inj h).symm
  | none =>
    by_cases hmap : 0 < size ∧ size < 2 ^ 63
    · have hmade := ctor_none.mpr ⟨hmap, rfl, rfl⟩
      rw [h] at hmade
      cases hmade
    · rw [ctor_unmappable hmap] at h
      exact (Except.error.inj h).symm

/-- Opening a log succeeds on an existing file only; the handle caches what the header says. -/
theorem ctor_handle {file : Option File} {l : Log} {f : File} (h : Log.ctor file 0 = .ok (l, f)) :
    file = some f ∧ l = ⟨f.len, word f.bytes headOff, f.len - 1, word f.bytes tailOff⟩ := by
  cases file with
  | none => exact absurd (ctor_none.mp h).1.1 (by decide)
  | some f₀ =>
    rw [Log.ctor, show pmemMapCreate (some f₀) 0 = none from rfl] at h
    simp only at h
    split at h
    · cases h
    · rename_i f₁ hmap
      rw [pmemMapOpen, if_neg (by decide), Option.filter_eq_some_iff] at hmap
      split at h
      · cases h
      · split at h
        · cases h
        · cases h
          exact ⟨hmap.1, rfl⟩

/-- Opening a log changes nothing in its file. -/
theorem ctor_open {file : Option File} {l : Log} {f : File} (h : Log.ctor file 0 = .ok (l, f)) :
    file = some f ∧ f.Opens l := by
  obtain ⟨rfl, _⟩ := ctor_handle h
  exact ⟨rfl, h⟩

/-- The header of a new log. -/
theorem ctor_header {size : Nat} {l : Log} {f : File} (h : Log.ctor none size = .ok (l, f)) :
    f.len = size ∧
      load f.bytes 0 32 = LHdr.encode ⟨magicNumber, size, sizeofLhdr, sizeofLhdr⟩ := by
  obtain ⟨_, _, hf⟩ := ctor_none.mp h
  have hbytes : f.bytes = exec (fun _ => 0) (ctorOps size) := by rw [hf]
  refine ⟨by rw [hf], ?_⟩
  rw [hbytes]
  exact load_ctorOps (fun _ => 0) size

/-- **A new log is an empty log.** -/
theorem ctor_create {size : Nat} {l : Log} {f : File} (hsize : sizeofLhdr ≤ size)
    (h : Log.ctor none size = .ok (l, f)) : Rep f [] ∧ l.Synced f [] ∧ f.len = size := by
  obtain ⟨hmap, rfl, _⟩ := ctor_none.mp h
  obtain ⟨rfl, hheader⟩ := ctor_header h
  exact ⟨⟨hheader, rfl, hsize, hmap.2⟩, ⟨rfl, rfl, rfl, rfl⟩, rfl⟩

/-- A log of any possible size can be created. -/
theorem ctor_ok (size : Nat) (h : sizeofLhdr ≤ size ∧ size < 2 ^ 63) :
    ∃ l f, Log.ctor none size = .ok (l, f) ∧ Rep f [] ∧ l.Synced f [] ∧ f.len = size := by
  have hpos : 0 < size := Nat.lt_of_lt_of_le (by decide) h.1
  have hnew := ctor_none.mpr ⟨⟨hpos, h.2⟩, rfl, rfl⟩
  exact ⟨_, _, hnew, ctor_create h.1 hnew⟩

/-! ## Whole lives of a log -/

/-- A call of one of the two vector append functions. -/
inductive Append where
  | appendv (iov : List IoVec)
  | appendmv (rows : List (List IoVec))

namespace Append

/-- The buffers of a call, in the order they are copied. -/
def vec : Append → List IoVec
  | appendv iov => iov
  | appendmv rows => rows.flatten

/-- The bytes a call is handed. -/
def data (a : Append) : List Byte := gather a.vec

/-- The call itself. -/
def call (l : Log) (f : File) : Append → Except Stop (Log × File)
  | appendv iov => l.appendv f iov
  | appendmv rows => l.appendmv f rows

/-- The `tot_cnt` the call checks against the space left. -/
def need : Append → Nat
  | appendv iov => totCntv iov
  | appendmv rows => totCntmv rows

/-- The call's copy loop. -/
def copy (wo : Nat) : Append → List (Op Byte) × Nat
  | appendv iov => copyv wo iov
  | appendmv rows => copymv wo rows

/-- The stores and fences the call issues, when nothing stops it: none at all if the space check
    refuses, else the copy loop's and `persist`'s. -/
def trace (l : Log) (a : Append) : List (Op Byte) :=
  if l.HasSpace a.need then
    (a.copy l.writeOffset).1 ++ (persist (a.copy l.writeOffset).2).1
  else []

theorem call_eq (a : Append) (l : Log) (f : File) : a.call l f = l.appendv f a.vec := by
  cases a with
  | appendv iov => rfl
  | appendmv rows => exact appendmv_eq_appendv l f rows

theorem need_eq (a : Append) : a.need = totCntv a.vec := by
  cases a with
  | appendv iov => rfl
  | appendmv rows => exact totCntmv_eq_totCntv rows

theorem copy_eq (a : Append) (wo : Nat) : a.copy wo = copyv wo a.vec := by
  cases a with
  | appendv iov => rfl
  | appendmv rows => exact copymv_eq_copyv wo rows

theorem trace_eq (a : Append) (l : Log) :
    a.trace l = if l.HasSpace (totCntv a.vec) then
      (copyv l.writeOffset a.vec).1 ++ (persist (copyv l.writeOffset a.vec).2).1 else [] := by
  rw [trace, need_eq, copy_eq]

/-- The handle after a call that ran to its end. -/
def after (l : Log) (a : Append) : Log :=
  { l with writeOffset := (persist (a.copy l.writeOffset).2).2 }

/-- **The trace is what a successful call does to the file.** -/
theorem of_call {a : Append} {l l' : Log} {f f' : File} (h : a.call l f = .ok (l', f')) :
    l' = a.after l ∧ f' = ⟨exec f.bytes (a.trace l), f.len⟩ := by
  rw [a.call_eq, Log.appendv, Log.appendWith] at h
  rw [after, a.trace_eq, a.copy_eq]
  split at h
  · rename_i hspace
    rw [if_pos hspace]
    simp only at h
    split at h
    · simp only [Except.ok.injEq, Prod.mk.injEq] at h
      exact ⟨h.1.symm, h.2.symm⟩
    · cases h
  · cases h

end Append

/-- **What a successful call has done**: the data fitted, the trace was that of an accepted append,
    the file holds one frame more, and the handle is in step with it again. -/
theorem Append.call_ok {a : Append} {l l' : Log} {f f' : File} {body : List Byte} (hr : Rep f body)
    (hs : l.Synced f body) (h : a.call l f = .ok (l', f')) :
    32 + body.length + a.data.length + 8 ≤ f.len - 1 ∧
    a.trace l = appendOps (32 + body.length) a.data ∧
    f' = ⟨appended f.bytes (32 + body.length) a.data, f.len⟩ ∧
    Rep f' (body ++ (a.data ++ commitWord)) ∧ l'.Synced f' (body ++ (a.data ++ commitWord)) := by
  have hsmall := hr.small
  rw [a.call_eq] at h
  have hle := fits_of_appendv hr hs h
  have hspace : l.HasSpace (totCntv a.vec) := by
    rw [Log.HasSpace, hs.stop, hs.write, totCntv_eq, u64_of_lt (by omega)]
    omega
  have htrace : a.trace l = appendOps (32 + body.length) a.data := by
    rw [a.trace_eq, if_pos hspace, hs.write]
    exact (trace_eq_appendOps (by omega)).1
  rw [appendv_of_fits hr hs hle] at h
  simp only [Except.ok.injEq, Prod.mk.injEq] at h
  obtain ⟨rfl, rfl⟩ := h
  exact ⟨hle, htrace, rfl, hr.append hle,
    ⟨hs.mapped, hs.start, hs.stop, (tail_append body a.data).symm⟩⟩

/-- What a successful `appendv` of buffers that gather to `data` has done. -/
theorem appendv_ok {l l' : Log} {f f' : File} {body data : List Byte} {iov : List IoVec}
    (hr : Rep f body) (hs : l.Synced f body) (h : l.appendv f iov = .ok (l', f'))
    (hdata : gather iov = data) :
    32 + body.length + data.length + 8 ≤ f.len - 1 ∧ f'.len = f.len ∧
    Rep f' (body ++ (data ++ commitWord)) ∧ l'.Synced f' (body ++ (data ++ commitWord)) := by
  subst hdata
  obtain ⟨hle, _, hfile, hr', hs'⟩ := Append.call_ok (a := .appendv iov) hr hs h
  exact ⟨hle, by rw [hfile], hr', hs'⟩

/-- What a successful `appendmv` of rows that gather to `data` has done. -/
theorem appendmv_ok {l l' : Log} {f f' : File} {body data : List Byte} {rows : List (List IoVec)}
    (hr : Rep f body) (hs : l.Synced f body) (h : l.appendmv f rows = .ok (l', f'))
    (hdata : gather rows.flatten = data) :
    32 + body.length + data.length + 8 ≤ f.len - 1 ∧ f'.len = f.len ∧
    Rep f' (body ++ (data ++ commitWord)) ∧ l'.Synced f' (body ++ (data ++ commitWord)) := by
  rw [appendmv_eq_appendv] at h
  exact appendv_ok hr hs h hdata

/-- A call whose data and commit word fit succeeds. -/
theorem Append.call_of_fits {l : Log} {f : File} {body : List Byte} (hr : Rep f body)
    (hs : l.Synced f body) (a : Append)
    (hfit : 32 + body.length + a.data.length + 8 ≤ f.len - 1) :
    ∃ l' f', a.call l f = .ok (l', f') :=
  ⟨_, _, (a.call_eq l f).trans (appendv_of_fits hr hs hfit)⟩

/-- A log over time: the handle of the process that has it open, if any, and the file. -/
structure State where
  log : Option Log
  file : File

/-- One event in the life of a log.  A refused append ends its process with `exit(1)`; a process that
    opens the log may follow any other. -/
inductive Step : State → State → Prop
  | append {l l' : Log} {f f' : File} (a : Append) (hfit : a.data.length + wordLength < 2 ^ 64)
      (h : a.call l f = .ok (l', f')) : Step ⟨some l, f⟩ ⟨some l', f'⟩
  | refuse {l : Log} {f : File} (a : Append) (hfit : a.data.length + wordLength < 2 ^ 64)
      (h : a.call l f = .error .exit) : Step ⟨some l, f⟩ ⟨none, f⟩
  | reopen {o : Option Log} {l : Log} {f f' : File} (h : Log.ctor (some f) 0 = .ok (l, f')) :
      Step ⟨o, f⟩ ⟨some l, f'⟩

/-- The invariant of a life: the file is a log whose last byte is spare, and an open handle is in
    step with it. -/
structure State.Inv (s : State) (body : List Byte) : Prop where
  rep : Rep s.file body
  spare : 32 + body.length ≤ s.file.len - 1
  synced : ∀ l, s.log = some l → l.Synced s.file body

/-- One step keeps the invariant, only ever extends the body, and keeps the length. -/
theorem Step.inv {s s' : State} {body : List Byte} (h : Step s s') (hi : s.Inv body) :
    ∃ more, s'.Inv (body ++ more) ∧ s'.file.len = s.file.len ∧
      Set.EqOn s'.file.bytes s.file.bytes
        {a | a < 32 + body.length ∧ (a < tailOff ∨ 32 ≤ a)} := by
  cases h with
  | @append l l' f f' a hfit h =>
    obtain ⟨hle, _, rfl, hr', hs'⟩ := Append.call_ok hi.rep (hi.synced l rfl) h
    refine ⟨a.data ++ commitWord, ⟨hr', (tail_append _ _).trans_le hle, ?_⟩, rfl, ?_⟩
    · rintro l'' ⟨⟩
      exact hs'
    · exact appended_eqOn _ _ _ (fun a ha => ha)
  | refuse a hfit h =>
    refine ⟨[], ?_, rfl, fun a _ => rfl⟩
    rw [List.append_nil]
    refine ⟨hi.rep, hi.spare, ?_⟩
    rintro l ⟨⟩
  | reopen h =>
    rw [ctor_reopen hi.rep] at h
    simp only [Except.ok.injEq, Prod.mk.injEq] at h
    obtain ⟨rfl, rfl⟩ := h
    refine ⟨[], ?_, rfl, fun a _ => rfl⟩
    rw [List.append_nil]
    refine ⟨hi.rep, hi.spare, ?_⟩
    rintro l ⟨⟩
    exact handleOn_synced _ _

/-- A whole life keeps the invariant, and everything below the tail it started from. -/
theorem Step.run_inv {s s' : State} {body : List Byte} (h : Relation.ReflTransGen Step s s')
    (hi : s.Inv body) :
    ∃ more, s'.Inv (body ++ more) ∧ s'.file.len = s.file.len ∧
      Set.EqOn s'.file.bytes s.file.bytes
        {a | a < 32 + body.length ∧ (a < tailOff ∨ 32 ≤ a)} := by
  induction h with
  | refl => exact ⟨[], by rw [List.append_nil]; exact hi, rfl, fun a _ => rfl⟩
  | tail _ hstep ih =>
    obtain ⟨more, hi', hlen, heq⟩ := ih
    obtain ⟨more', hi'', hlen', heq'⟩ := hstep.inv hi'
    refine ⟨more ++ more', by rw [← List.append_assoc]; exact hi'', hlen'.trans hlen, ?_⟩
    intro a ha
    refine (heq' ⟨?_, ha.2⟩).trans (heq ha)
    have := ha.1
    rw [List.length_append]
    omega

/-- An append whose exact length fits in 64 bits is refused exactly for lack of space, and then
    issues no store. -/
theorem call_refused_iff {l : Log} {f : File} {body : List Byte} (hr : Rep f body)
    (hs : l.Synced f body) (a : Append) (hfit : a.data.length + wordLength < 2 ^ 64) :
    (a.call l f = .error .exit ↔ l.endOffset < l.writeOffset + a.data.length + wordLength) ∧
    (a.call l f = .error .exit → a.trace l = []) := by
  have hd : a.data = gather a.vec := rfl
  have hspace : l.HasSpace (totCntv a.vec) ↔
      l.writeOffset + a.data.length + wordLength ≤ l.endOffset := by
    rw [Log.HasSpace, totCntv_eq, ← hd, u64_of_lt (show a.data.length + 8 < _ from hfit)]
    simp only [wordLength]
    omega
  rw [a.call_eq, a.trace_eq]
  by_cases hfits : l.writeOffset + a.data.length + wordLength ≤ l.endOffset
  · have hle : 32 + body.length + (gather a.vec).length + 8 ≤ f.len - 1 := by
      rw [← hd, ← hs.write, ← hs.stop]
      exact hfits
    have hok := appendv_of_fits hr hs hle
    refine ⟨⟨fun h => ?_, fun h => ?_⟩, fun h => ?_⟩
    · rw [hok] at h
      cases h
    · omega
    · rw [hok] at h
      cases h
  · have hno : ¬ l.HasSpace (totCntv a.vec) := fun h => hfits (hspace.mp h)
    refine ⟨⟨fun _ => by omega, fun _ => ?_⟩, fun _ => if_neg hno⟩
    rw [Log.appendv, Log.appendWith, if_neg hno]

/-- The stores of an accepted append lie between the old and the new tail, or in `hdr->tail`. -/
theorem trace_within {l : Log} {f : File} {body : List Byte} (hr : Rep f body)
    (hs : l.Synced f body) (a : Append) (hfit : a.data.length + wordLength < 2 ^ 64) :
    ∀ o ∈ a.trace l, o.Within (Set.Ico l.writeOffset (l.writeOffset + a.data.length + wordLength) ∪
      Set.Ico tailOff (tailOff + 8)) := by
  intro o ho
  rw [a.trace_eq] at ho
  split at ho
  · rename_i hspace
    rw [Log.HasSpace, totCntv_eq, u64_of_lt (show (gather a.vec).length + 8 < _ from hfit),
      hs.stop, hs.write] at hspace
    have hsmall := hr.small
    have hlt : l.writeOffset + (gather a.vec).length + 8 < 2 ^ 64 := by
      rw [hs.write]
      omega
    rw [(trace_eq_appendOps hlt).1] at ho
    exact appendOps_within _ _ o ho
  · cases ho

/-- **The log's representation invariant.**  In every state of every life of a log created with room
    for more than its header: `head` is just behind the header, `tail` lies between `head` and the
    last byte, an open handle caches exactly `tail` and `mapped_len - 1`; the stores of a further
    append lie between the old and the new tail or in `hdr->tail`; it is refused exactly when the
    data and the commit word do not fit, and then issues no store; and no later operation changes the
    magic number, the length, `head`, or a byte between `head` and the tail. -/
theorem log_representation {size : Nat} {l₀ : Log} {f₀ : File} (hsize : sizeofLhdr < size)
    (hnew : Log.ctor none size = .ok (l₀, f₀)) {s : State}
    (hrun : Relation.ReflTransGen Step ⟨some l₀, f₀⟩ s) :
    (word s.file.bytes headOff = sizeofLhdr ∧ sizeofLhdr ≤ word s.file.bytes tailOff ∧
      word s.file.bytes tailOff ≤ s.file.len - 1 ∧ s.file.len = size ∧
      ∀ l, s.log = some l → l.writeOffset = word s.file.bytes tailOff ∧
        l.endOffset = l.mappedLen - 1 ∧ l.mappedLen = s.file.len) ∧
    (∀ l, s.log = some l → ∀ a : Append, a.data.length + wordLength < 2 ^ 64 →
      (∀ o ∈ a.trace l, o.Within
        (Set.Ico (word s.file.bytes tailOff)
          (word s.file.bytes tailOff + a.data.length + wordLength) ∪
          Set.Ico tailOff (tailOff + 8))) ∧
      (∀ l' f', a.call l s.file = .ok (l', f') →
        word f'.bytes tailOff = word s.file.bytes tailOff + a.data.length + wordLength) ∧
      (a.call l s.file = .error .exit ↔
        s.file.len - 1 < word s.file.bytes tailOff + a.data.length + wordLength) ∧
      (a.call l s.file = .error .exit → a.trace l = [])) ∧
    (∀ s', Relation.ReflTransGen Step s s' →
      load s'.file.bytes 0 24 = load s.file.bytes 0 24 ∧
      ∀ b, sizeofLhdr ≤ b → b < word s.file.bytes tailOff → s'.file.bytes b = s.file.bytes b) := by
  obtain ⟨hr₀, hs₀, hlen₀⟩ := ctor_create (Nat.le_of_lt hsize) hnew
  have hspare : 32 + ([] : List Byte).length ≤ f₀.len - 1 := by
    have : 32 < size := hsize
    rw [hlen₀, List.length_nil]
    omega
  have hi₀ : State.Inv ⟨some l₀, f₀⟩ [] := ⟨hr₀, hspare, by rintro l ⟨⟩; exact hs₀⟩
  obtain ⟨body, hi, hlen, _⟩ := Step.run_inv hrun hi₀
  rw [List.nil_append] at hi
  have hr := hi.rep
  have htail := hr.tail_eq
  refine ⟨⟨hr.head_eq, ?_, ?_, hlen.trans hlen₀, ?_⟩, ?_, ?_⟩
  · rw [htail, sizeofLhdr]
    omega
  · rw [htail]
    exact hi.spare
  · intro l hl
    have hs := hi.synced l hl
    exact ⟨hs.write.trans htail.symm, by rw [hs.stop, hs.mapped], hs.mapped⟩
  · intro l hl a hfit
    have hs := hi.synced l hl
    have hw : l.writeOffset = word s.file.bytes tailOff := hs.write.trans htail.symm
    obtain ⟨hiff, hnil⟩ := call_refused_iff hr hs a hfit
    rw [← hw, ← hs.stop]
    refine ⟨trace_within hr hs a hfit, ?_, hiff, hnil⟩
    intro l' f' hcall
    obtain ⟨_, _, _, hr', _⟩ := Append.call_ok hr hs hcall
    rw [hr'.tail_eq, hs.write]
    exact tail_append _ _
  · intro s' hlater
    obtain ⟨_, _, _, heq⟩ := Step.run_inv hlater hi
    refine ⟨load_congr (fun b hb => heq ?_), fun b h1 h2 => heq ?_⟩
    · have := hb.2
      exact ⟨by omega, Or.inl (by simp only [tailOff]; omega)⟩
    · rw [htail] at h2
      exact ⟨h2, Or.inr h1⟩

/-- A new log of 256 bytes takes three bytes, and the invariant holds behind them. -/
theorem log_representation_three_bytes :
    ∃ l f l' f', Log.ctor none 256 = .ok (l, f) ∧
      (Append.appendv [⟨[1, 2, 3], by decide⟩]).call l f = .ok (l', f') ∧
      word f'.bytes headOff = sizeofLhdr ∧ l'.writeOffset = word f'.bytes tailOff := by
  obtain ⟨l, f, hnew, hr, hs, hlen⟩ := ctor_ok 256 (by decide)
  obtain ⟨l', f', hcall⟩ :=
    Append.call_of_fits hr hs (.appendv [⟨[1, 2, 3], by decide⟩]) (by rw [hlen]; decide)
  have h := log_representation (by decide) hnew
    (Relation.ReflTransGen.single (Step.append _ (by decide) hcall))
  exact ⟨_, _, l', f', hnew, hcall, h.1.1, (h.1.2.2.2.2 l' rfl).1⟩

end NvStream
