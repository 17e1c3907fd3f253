/-
  Entries, and what `Log::walk` sees of them.

  The append functions take any bytes; their callers hand them ENTRIES, a `lehdr_t` followed by
  exactly `len` payload bytes.  `Entry` carries that shape, so a malformed entry cannot be built.
  The abstract log is a list of entries; `encode` is its byte image, each entry followed by its
  commit word.

  The reader recomputes the framing from memory: it strides by `sizeof(lehdr_t) + len + WORD_LENGTH`
  with `len` read from the header it stands on.  `walkLoop_yields` is the one induction that shows
  the two agree, for ANY callback: if the callback behaves on every entry as a pure step function,
  the loop is the pure `scan` of that step over the entries.  Instantiated at the callback that looks
  at everything (`observe`) it gives `visits_of_rep`: a walk sees exactly the entries, in order, each
  at its own offset, with its own length and bytes, and stops exactly at the tail.
-/
import NvStream.Log.Invariant

namespace NvStream

open FlatMem LittleEndian LoadProg PersistTrace

/-! ## The abstract log -/

/-- A well-formed log entry: a `lehdr_t` and exactly `len` payload bytes. -/
structure Entry where
  bytes : List Byte
  header_le : sizeofLehdr ≤ bytes.length
  len_eq : ofLE ((bytes.drop lenField).take 8) = bytes.length - sizeofLehdr

namespace Entry

/-- The payload length. -/
def len (e : Entry) : Nat := e.bytes.length - sizeofLehdr

/-- An entry as it stands in the log, commit word included. -/
def frame (e : Entry) : List Byte := e.bytes ++ commitWord

theorem length_bytes (e : Entry) : e.bytes.length = sizeofLehdr + e.len := by
  have := e.header_le
  rw [len]
  omega

theorem length_frame (e : Entry) : e.frame.length = sizeofLehdr + e.len + wordLength := by
  rw [frame, List.length_append, length_bytes, length_commitWord, wordLength]

/-- Where an entry stands, its `len` field reads as its payload length. -/
theorem word_len {e : Entry} {m : Mem Byte} {off : Nat}
    (h : load m off e.bytes.length = e.bytes) : word m (off + lenField) = e.len := by
  have hle := e.header_le
  rw [word, load_slice h (by simp only [lenField, sizeofLehdr] at hle ⊢; omega), e.len_eq, len]

theorem header_le_encode (h : LeHdr) (payload : List Byte) :
    sizeofLehdr ≤ (h.encode ++ payload).length := by
  rw [List.length_append, LeHdr.length_encode]
  exact Nat.le_add_right _ _

theorem len_eq_encode (h : LeHdr) (payload : List Byte) (hlen : h.len.toNat = payload.length) :
    ofLE (((h.encode ++ payload).drop lenField).take 8) =
      (h.encode ++ payload).length - sizeofLehdr := by
  -- put the header into some memory and read its `len` field there
  have hm := load_store_self (fun _ => 0) 0 (h.encode ++ payload)
  have hAt : h.At (store (fun _ => 0) 0 (h.encode ++ payload)) 0 := by
    have := ((load_append_iff _ _ _ _).mp hm).1
    rwa [LeHdr.length_encode] at this
  have hword := hAt.fields.2.2.1
  rw [word, load_slice hm (by rw [List.length_append, LeHdr.length_encode]; omega)] at hword
  rw [List.length_append, LeHdr.length_encode]
  exact hword.trans (by rw [hlen, sizeofLehdr]; omega)

/-- A header and a payload of the length it gives. -/
def ofHdr (h : LeHdr) (payload : List Byte) (hlen : h.len.toNat = payload.length) : Entry where
  bytes := h.encode ++ payload
  header_le := header_le_encode h payload
  len_eq := len_eq_encode h payload hlen

theorem bytes_ofHdr (h : LeHdr) (payload : List Byte) (hlen : h.len.toNat = payload.length) :
    (ofHdr h payload hlen).bytes = h.encode ++ payload := rfl

theorem len_ofHdr (h : LeHdr) (payload : List Byte) (hlen : h.len.toNat = payload.length) :
    (ofHdr h payload hlen).len = payload.length := by
  rw [len, bytes_ofHdr, List.length_append, LeHdr.length_encode, sizeofLehdr]
  omega

end Entry

/-- The byte image of a list of entries. -/
def encode (es : List Entry) : List Byte := es.flatMap Entry.frame

@[simp] theorem encode_nil : encode [] = [] := rfl

theorem encode_cons (e : Entry) (es : List Entry) : encode (e :: es) = e.frame ++ encode es :=
  List.flatMap_cons

theorem encode_append (es es' : List Entry) : encode (es ++ es') = encode es ++ encode es' :=
  List.flatMap_append

theorem length_encode_split (pre : List Entry) (e : Entry) (post : List Entry) :
    (encode (pre ++ e :: post)).length =
      (encode pre).length + (e.frame.length + (encode post).length) := by
  rw [encode_append, encode_cons, List.length_append, List.length_append]

theorem encode_concat (es : List Entry) (e : Entry) :
    encode (es ++ [e]) = encode es ++ (e.bytes ++ commitWord) := by
  rw [encode_append, encode_cons, encode_nil, List.append_nil, Entry.frame]

/-- Every entry takes up room, so a prefix that takes up as much is the whole list. -/
theorem eq_of_prefix_of_length {pre es : List Entry} (h : pre <+: es)
    (hlen : (encode pre).length = (encode es).length) : pre = es := by
  obtain ⟨rest, rfl⟩ := h
  cases rest with
  | nil => rw [List.append_nil]
  | cons e rest =>
    rw [length_encode_split, e.length_frame, wordLength] at hlen
    omega

/-- What a walk over the entries should show, the first of them standing at `off`. -/
def visitsFrom : Nat → List Entry → List Visit
  | _, [] => []
  | off, e :: es => ⟨off, e.len, e.bytes⟩ :: visitsFrom (off + e.frame.length) es

/-- The visited bytes are the entries' bytes. -/
theorem map_bytes_visitsFrom (off : Nat) (es : List Entry) :
    (visitsFrom off es).map Visit.bytes = es.map Entry.bytes := by
  induction es generalizing off with
  | nil => rfl
  | cons e es ih => rw [visitsFrom, List.map_cons, List.map_cons, ih]

/-! ## The loop of `walk` is a scan

  A caller that knows what its entries stand for scans THAT: the lemmas are about a list `xs` of any
  type, each `x` of which is written as `entry x`. -/

section
variable {α σ : Type} (entry : α → Entry)

/-- A left-to-right scan with early exit: the pure form of the loop of `walk`. -/
def scan (step : Nat → α → σ → σ × Bool) : Nat → List α → σ → σ × Nat
  | off, [], arg => (arg, off)
  | off, x :: xs, arg =>
    if (step off x arg).2 then scan step (off + (entry x).frame.length) xs (step off x arg).1
    else ((step off x arg).1, off)

/-- The callback behaves on every entry of `xs`, wherever it stands, as the pure step. -/
def Behaves (S : Set Nat) (m : Mem Byte) (processChunk : Nat → Nat → σ → Prog Stop Byte (σ × Bool))
    (step : Nat → α → σ → σ × Bool) (off : Nat) (xs : List α) : Prop :=
  ∀ pre x post arg, xs = pre ++ x :: post →
    load m (off + (encode (pre.map entry)).length) (entry x).bytes.length = (entry x).bytes →
    (processChunk (off + (encode (pre.map entry)).length) (entry x).len arg).Yields S m
      (step (off + (encode (pre.map entry)).length) x arg)

end

theorem yields_load64 {S : Set Nat} {m : Mem Byte} {off : Nat} (h : ∀ i < 8, off + i ∈ S) :
    (load64 off).Yields S m (word m off) :=
  Prog.yields_load h (Prog.yields_ret _ _ _)

theorem yields_loadWord {S : Set Nat} {m : Mem Byte} {off : Nat} (h : ∀ i < 8, off + i ∈ S) :
    (loadWord off).Yields S m (word m off) :=
  Prog.Yields.bind' (Prog.yields_loadEach h) (Prog.yields_pure _ _ _)

/-- A field `k` bytes into a header, its address computed without overflow. -/
theorem yields_loadField {S : Set Nat} {m : Mem Byte} {off k : Nat} (hlt : off + k < 2 ^ 64)
    (h : ∀ i < 8, off + (k + i) ∈ S) :
    (loadWord (u64 (off + k))).Yields S m (word m (off + k)) := by
  rw [u64_of_lt hlt]
  exact yields_loadWord (fun i hi => by rw [Nat.add_assoc]; exact h i hi)

section
variable {α σ : Type} {entry : α → Entry} {S : Set Nat} {m : Mem Byte}
  {processChunk : Nat → Nat → σ → Prog Stop Byte (σ × Bool)} {step : Nat → α → σ → σ × Bool}

theorem Behaves.head {off : Nat} {x : α} {xs : List α}
    (h : Behaves entry S m processChunk step off (x :: xs)) (arg : σ)
    (hat : load m off (entry x).bytes.length = (entry x).bytes) :
    (processChunk off (entry x).len arg).Yields S m (step off x arg) :=
  h [] x xs arg rfl hat

theorem Behaves.tail {off : Nat} {x : α} {xs : List α}
    (h : Behaves entry S m processChunk step off (x :: xs)) :
    Behaves entry S m processChunk step (off + (entry x).frame.length) xs := by
  intro pre y post arg hxs hat
  have hoff : off + (encode ((x :: pre).map entry)).length =
      off + (entry x).frame.length + (encode (pre.map entry)).length := by
    rw [List.map_cons, encode_cons, List.length_append, Nat.add_assoc]
  have hy := h (x :: pre) y post arg (by rw [hxs]; rfl) (by rw [hoff]; exact hat)
  rw [hoff] at hy
  exact hy

/-- One round of the loop, on a header whose `len` reads as `n`: the callback is called with `n`, and
    if it asks for more the loop goes on `n` bytes behind the header and its commit word. -/
theorem walkLoop_round {tail off n fuel : Nat} {arg arg' : σ} {go : Bool} {r : σ × Nat}
    (hn : word m (off + lenField) = n) (hlt : off < tail)
    (hsmall : off + (sizeofLehdr + n + wordLength) < 2 ^ 64)
    (hS : ∀ i < sizeofLehdr, off + i ∈ S) (hcb : (processChunk off n arg).Yields S m (arg', go))
    (hgo : if go then (walkLoop processChunk tail fuel
      (off + (sizeofLehdr + n + wordLength)) arg').Yields S m r else r = (arg', off)) :
    (walkLoop processChunk tail (fuel + 1) off arg).Yields S m r := by
  simp only [sizeofLehdr] at hS hsmall
  have hlen : (loadWord (u64 (off + lenField))).Yields S m n := by
    rw [← hn]
    exact yields_loadField (by rw [lenField]; omega) (fun i hi => hS _ (by rw [lenField]; omega))
  rw [walkLoop, if_pos hlt]
  refine Prog.Yields.bind' hlen (Prog.Yields.bind' hcb ?_)
  cases go with
  | true =>
    -- the callback goes on: re-read `len`, and stride
    rw [if_pos rfl] at hgo ⊢
    refine Prog.Yields.bind' hlen ?_
    rw [u64_of_lt (show sizeofLehdr + n + wordLength < _ by rw [sizeofLehdr]; omega),
      u64_of_lt (show off + (sizeofLehdr + n + wordLength) < _ by rw [sizeofLehdr]; omega)]
    exact hgo
  | false =>
    rw [if_neg Bool.false_ne_true] at hgo ⊢
    rw [hgo]
    exact Prog.yields_pure _ _ _

/-- The same round as a run against a mapped file, where the callback may fault. -/
theorem walkLoop_run_round {f : File} {tail off n fuel : Nat} {arg : σ}
    (hn : word f.bytes (off + lenField) = n) (hlt : off < tail)
    (hsmall : off + (sizeofLehdr + n + wordLength) < 2 ^ 64) (hin : off + sizeofLehdr ≤ f.len) :
    f.run (walkLoop processChunk tail (fuel + 1) off arg) =
      (f.run (processChunk off n arg)).bind (fun r =>
        if r.2 then f.run (walkLoop processChunk tail fuel
          (off + (sizeofLehdr + n + wordLength)) r.1)
        else .ok (r.1, off)) := by
  simp only [sizeofLehdr] at hin hsmall
  have hlen : f.run (loadWord (u64 (off + lenField))) = .ok n := by
    rw [u64_of_lt (by rw [lenField]; omega), f.run_loadWord, if_pos (by rw [lenField]; omega), hn]
  rw [walkLoop, if_pos hlt, f.run_bind_ok hlen, f.run_bind]
  refine congrArg _ (funext fun r => ?_)
  obtain ⟨arg', go⟩ := r
  cases go with
  | true =>
    rw [if_pos rfl, if_pos rfl, f.run_bind_ok hlen,
      u64_of_lt (show sizeofLehdr + n + wordLength < _ by rw [sizeofLehdr]; omega),
      u64_of_lt (show off + (sizeofLehdr + n + wordLength) < _ by rw [sizeofLehdr]; omega)]
  | false => rfl

/-- The last round: a header whose stride reaches the tail, or passes it. -/
theorem walkLoop_last {tail off n fuel : Nat} {arg arg' : σ} (hn : word m (off + lenField) = n)
    (hlt : off < tail) (hend : tail ≤ off + (sizeofLehdr + n + wordLength))
    (hsmall : off + (sizeofLehdr + n + wordLength) < 2 ^ 64)
    (hS : ∀ i < sizeofLehdr, off + i ∈ S)
    (hcb : (processChunk off n arg).Yields S m (arg', true)) :
    (walkLoop processChunk tail (fuel + 1 + 1) off arg).Yields S m
      (arg', off + (sizeofLehdr + n + wordLength)) := by
  refine walkLoop_round hn hlt hsmall hS hcb ?_
  rw [if_pos rfl, walkLoop, if_neg (Nat.not_lt.mpr hend)]
  exact Prog.yields_pure _ _ _

/-- **The framing agrees.**  Where the image of `xs` stands at `off`, the loop of `walk` visits
    exactly `xs`, whatever the callback does with them. -/
theorem walkLoop_yields {tail : Nat} (xs : List α) :
    ∀ (off fuel : Nat) (arg : σ),
      load m off (encode (xs.map entry)).length = encode (xs.map entry) →
      tail = off + (encode (xs.map entry)).length → tail < 2 ^ 64 → xs.length < fuel →
      (∀ a, off ≤ a → a < tail → a ∈ S) → Behaves entry S m processChunk step off xs →
      (walkLoop processChunk tail fuel off arg).Yields S m (scan entry step off xs arg) := by
  induction xs with
  | nil =>
    intro off fuel arg _ htail _ hfuel _ _
    obtain ⟨fuel, rfl⟩ : ∃ k, fuel = k + 1 := ⟨fuel - 1, by omega⟩
    have hend : ¬ off < tail := by
      rw [htail]
      exact Nat.lt_irrefl off
    rw [walkLoop, if_neg hend]
    exact Prog.yields_pure _ _ _
  | cons x xs ih =>
    intro off fuel arg hm htail hlt hfuel hS hcb
    obtain ⟨fuel, rfl⟩ : ∃ k, fuel = k + 1 := ⟨fuel - 1, by omega⟩
    rw [List.map_cons, encode_cons] at hm htail
    rw [List.length_append] at htail
    obtain ⟨hframe, hrest⟩ := (load_append_iff _ _ _ _).mp hm
    obtain ⟨hbytes, _⟩ := (load_append_iff _ _ _ _).mp hframe
    have hfl := (entry x).length_frame
    have hpos : 0 < wordLength := by decide
    refine walkLoop_round (Entry.word_len hbytes) (by omega) (by omega)
      (fun i hi => hS _ (by omega) (by omega)) (hcb.head arg hbytes) ?_
    rw [scan]
    split
    · rw [← hfl]
      exact ih _ fuel _ hrest (by omega) hlt (by simp only [List.length_cons] at hfuel; omega)
        (fun a h1 h2 => hS a (by omega) h2) hcb.tail
    · rfl

/-- What the loop yields it also yields with a larger bound, and with a callback that yields more. -/
theorem walkLoop_mono {processChunk' : Nat → Nat → σ → Prog Stop Byte (σ × Bool)} {tail : Nat}
    (hcb : ∀ off len arg r, (processChunk off len arg).Yields S m r →
      (processChunk' off len arg).Yields S m r) :
    ∀ {fuel fuel' off : Nat} {arg : σ} {r : σ × Nat}, fuel ≤ fuel' →
      (walkLoop processChunk tail fuel off arg).Yields S m r →
      (walkLoop processChunk' tail fuel' off arg).Yields S m r := by
  intro fuel
  induction fuel with
  | zero =>
    intro fuel' off arg r _ h
    exact absurd h Prog.not_yields_fail
  | succ fuel ih =>
    intro fuel' off arg r hle h
    obtain ⟨fuel', rfl⟩ : ∃ k, fuel' = k + 1 := ⟨fuel' - 1, by omega⟩
    rw [walkLoop] at h ⊢
    split
    · rename_i hlt
      rw [if_pos hlt] at h
      obtain ⟨len, hlen, h⟩ := h.of_bind
      obtain ⟨next, hnext, h⟩ := h.of_bind
      refine Prog.Yields.bind' hlen (Prog.Yields.bind' (hcb _ _ _ _ hnext) ?_)
      split
      · rename_i hgo
        rw [if_pos hgo] at h
        obtain ⟨len', hlen', h⟩ := h.of_bind
        exact Prog.Yields.bind' hlen' (ih (by omega) h)
      · rename_i hgo
        rw [if_neg hgo] at h
        exact h
    · rename_i hge
      rw [if_neg hge] at h
      exact h

/-- A callback that always asks for more takes the loop through `xs` and on to what follows. -/
theorem walkLoop_through {tail : Nat} (hgo : ∀ off x arg, (step off x arg).2 = true) (xs : List α) :
    ∀ (off fuel : Nat) (arg : σ) (r : σ × Nat),
      load m off (encode (xs.map entry)).length = encode (xs.map entry) →
      off + (encode (xs.map entry)).length ≤ tail → tail < 2 ^ 64 →
      (∀ a, off ≤ a → a < tail → a ∈ S) → Behaves entry S m processChunk step off xs →
      (walkLoop processChunk tail fuel (off + (encode (xs.map entry)).length)
        (scan entry step off xs arg).1).Yields S m r →
      (walkLoop processChunk tail (xs.length + fuel) off arg).Yields S m r := by
  induction xs with
  | nil =>
    intro off fuel arg r _ _ _ _ _ hrest
    rw [List.length_nil, Nat.zero_add]
    exact hrest
  | cons x xs ih =>
    intro off fuel arg r hm htail hlt hS hcb hr
    rw [List.map_cons, encode_cons] at hm htail hr
    rw [List.length_append] at htail hr
    obtain ⟨hframe, hrest⟩ := (load_append_iff _ _ _ _).mp hm
    obtain ⟨hbytes, _⟩ := (load_append_iff _ _ _ _).mp hframe
    have hfl := (entry x).length_frame
    have hpos : 0 < wordLength := by decide
    rw [List.length_cons, Nat.add_right_comm]
    refine walkLoop_round (Entry.word_len hbytes) (by omega) (by omega)
      (fun i hi => hS _ (by omega) (by omega)) (hcb.head arg hbytes) ?_
    rw [hgo, if_pos rfl, ← hfl]
    rw [scan, if_pos (hgo off x arg), ← Nat.add_assoc] at hr
    exact ih _ fuel _ r hrest (by omega) hlt (fun a h1 h2 => hS a (by omega) h2) hcb.tail hr

/-- **The framing agrees**, also for a callback that looks beyond the entries and makes nothing of what
    it reads there. -/
theorem walkLoop_settles {tail : Nat} (xs : List α) :
    ∀ (off fuel : Nat) (arg : σ),
      load m off (encode (xs.map entry)).length = encode (xs.map entry) →
      tail = off + (encode (xs.map entry)).length → tail < 2 ^ 64 → xs.length < fuel →
      (∀ a, off ≤ a → a < tail → a ∈ S) →
      (∀ pre x post arg, xs = pre ++ x :: post →
        load m (off + (encode (pre.map entry)).length) (entry x).bytes.length = (entry x).bytes →
        (processChunk (off + (encode (pre.map entry)).length) (entry x).len arg).Settles S m
          (step (off + (encode (pre.map entry)).length) x arg)) →
      (walkLoop processChunk tail fuel off arg).Settles S m (scan entry step off xs arg) := by
  induction xs with
  | nil =>
    intro off fuel arg _ htail _ hfuel _ _
    obtain ⟨fuel, rfl⟩ : ∃ k, fuel = k + 1 := ⟨fuel - 1, by omega⟩
    have hend : ¬ off < tail := by
      rw [htail]
      exact Nat.lt_irrefl off
    rw [walkLoop, if_neg hend]
    exact Prog.settles_pure _ _ _
  | cons x xs ih =>
    intro off fuel arg hm htail hlt hfuel hS hcb
    obtain ⟨fuel, rfl⟩ : ∃ k, fuel = k + 1 := ⟨fuel - 1, by omega⟩
    rw [List.map_cons, encode_cons] at hm htail
    rw [List.length_append] at htail
    obtain ⟨hframe, hrest⟩ := (load_append_iff _ _ _ _).mp hm
    obtain ⟨hbytes, _⟩ := (load_append_iff _ _ _ _).mp hframe
    have hfl := (entry x).length_frame
    have hsz : sizeofLehdr = 136 := rfl
    have hwl : wordLength = 8 := rfl
    have hlen : (loadWord (u64 (off + lenField))).Settles S m (entry x).len := by
      rw [← Entry.word_len hbytes]
      refine (yields_loadField (by rw [lenField]; omega) (fun i hi => hS _ ?_ ?_)).settles
      · omega
      · rw [lenField]
        omega
    have hhead := hcb [] x xs arg rfl hbytes
    rw [walkLoop, if_pos (by omega)]
    refine Prog.Settles.bind' hlen (Prog.Settles.bind' hhead ?_)
    have hoff : off + (encode (List.map entry [])).length = off := rfl
    rw [scan, hoff]
    split
    · -- the callback goes on: re-read `len`, and stride
      refine Prog.Settles.bind' hlen ?_
      rw [← hfl, u64_of_lt (show (entry x).frame.length < _ by omega),
        u64_of_lt (show off + (entry x).frame.length < _ by omega)]
      refine ih _ fuel _ hrest (by omega) hlt (by simp only [List.length_cons] at hfuel; omega)
        (fun a h1 h2 => hS a (by omega) h2) ?_
      intro pre y post arg' hxs hat
      have hnext : off + (encode ((x :: pre).map entry)).length =
          off + (entry x).frame.length + (encode (pre.map entry)).length := by
        rw [List.map_cons, encode_cons, List.length_append, Nat.add_assoc]
      have hy := hcb (x :: pre) y post arg' (by rw [hxs]; rfl) (by rw [hnext]; exact hat)
      rw [hnext] at hy
      exact hy
    · exact Prog.settles_pure _ _ _

end

/-- What `walk` returns on a log of `es`: nothing to visit is reported as `ID_NOT_FOUND`. -/
def walkCode (es : List Entry) : ErrorCode := if es = [] then .idNotFound else .noError

/-- What is left of `walk` once it has loaded `hdr->tail`. -/
def walkBelow {σ : Type} (processChunk : Nat → Nat → σ → Prog Stop Byte (σ × Bool)) (fuel : Nat)
    (arg : σ) (tail : Nat) : Prog Stop Byte (ErrorCode × σ × Nat) := do
  let head ← load64 headOff
  if head ≥ tail then return (.idNotFound, arg, head)
  else do
    let r ← walkLoop processChunk tail fuel head arg
    return (.noError, r)

theorem walk_eq_load {σ : Type} (processChunk : Nat → Nat → σ → Prog Stop Byte (σ × Bool))
    (fuel : Nat) (arg : σ) : walk processChunk fuel arg =
      Prog.load tailOff 8 (fun bs => walkBelow processChunk fuel arg (ofLE bs)) := rfl

section
variable {α σ : Type} {entry : α → Entry} {S : Set Nat} {f : File} {xs : List α}
  {processChunk : Nat → Nat → σ → Prog Stop Byte (σ × Bool)} {step : Nat → α → σ → σ × Bool}
  {fuel : Nat}

theorem head_yields {body : List Byte} (hr : Rep f body)
    (hhead : ∀ a, headOff ≤ a → a < tailOff → a ∈ S) : (load64 headOff).Yields S f.bytes 32 := by
  rw [← show word f.bytes headOff = 32 from hr.head_eq]
  exact yields_load64 (fun i hi => hhead _ (by omega) (by simp only [headOff, tailOff]; omega))

/-- On a log that is not empty, what is left of `walk` is its loop. -/
theorem walkBelow_of_loop {body : List Byte} {arg : σ} {r : σ × Nat} (hr : Rep f body)
    (hpos : 0 < body.length) (hhead : ∀ a, headOff ≤ a → a < tailOff → a ∈ S)
    (hloop : (walkLoop processChunk (32 + body.length) fuel 32 arg).Yields S f.bytes r) :
    (walkBelow processChunk fuel arg (32 + body.length)).Yields S f.bytes (.noError, r) := by
  refine Prog.Yields.bind' (head_yields hr hhead) ?_
  rw [if_neg (by omega)]
  exact Prog.Yields.bind' hloop (Prog.yields_pure _ _ _)

/-- `walk` loads `hdr->tail`, and goes on below it. -/
theorem walk_of_below {body : List Byte} {arg : σ} {r : ErrorCode × σ × Nat} (hr : Rep f body)
    (htail : ∀ a, tailOff ≤ a → a < 32 → a ∈ S)
    (h : (walkBelow processChunk fuel arg (32 + body.length)).Yields S f.bytes r) :
    (walk processChunk fuel arg).Yields S f.bytes r := by
  rw [walk_eq_load]
  refine Prog.yields_load (fun i hi => htail _ (by omega) (by simp only [tailOff]; omega)) ?_
  rw [show ofLE (load f.bytes tailOff 8) = _ from hr.tail_eq]
  exact h

/-- The rest of a walk looks at `head` and at the entries, not at `tail`. -/
theorem walkBelow_yields (arg : σ) (hr : Rep f (encode (xs.map entry))) (hfuel : xs.length < fuel)
    (hhead : ∀ a, headOff ≤ a → a < tailOff → a ∈ S)
    (hS : ∀ a, 32 ≤ a → a < 32 + (encode (xs.map entry)).length → a ∈ S)
    (hcb : Behaves entry S f.bytes processChunk step 32 xs) :
    (walkBelow processChunk fuel arg (32 + (encode (xs.map entry)).length)).Yields S f.bytes
      (walkCode (xs.map entry), scan entry step 32 xs arg) := by
  have hlt : 32 + (encode (xs.map entry)).length < 2 ^ 64 := by
    have := hr.room
    have := hr.small
    omega
  cases xs with
  | nil =>
    refine Prog.Yields.bind' (head_yields hr hhead) ?_
    rw [if_pos (by exact Nat.le_refl 32)]
    exact Prog.yields_pure _ _ _
  | cons x xs =>
    have hpos : 0 < (encode ((x :: xs).map entry)).length := by
      rw [List.map_cons, encode_cons, List.length_append, (entry x).length_frame, wordLength]
      omega
    exact walkBelow_of_loop hr hpos hhead
      (walkLoop_yields (x :: xs) 32 fuel arg hr.content rfl hlt hfuel hS hcb)

/-- `hdr->tail` and `hdr->head` loaded, what is left of `walk` on a log with something in it. -/
theorem walk_run_loop {body : List Byte} {arg : σ} (hr : Rep f body) (hpos : 0 < body.length) :
    f.run (walk processChunk fuel arg) =
      (f.run (walkLoop processChunk (32 + body.length) fuel 32 arg)).map
        (fun r => (.noError, r)) := by
  have hroom := hr.room
  have htail : f.run (load64 tailOff) = .ok (32 + body.length) := by
    rw [f.run_load64, if_pos (by simp only [tailOff]; omega), hr.tail_eq]
  have hhead : f.run (load64 headOff) = .ok 32 := by
    rw [f.run_load64, if_pos (by simp only [headOff]; omega), hr.head_eq]
    rfl
  rw [walk, f.run_bind_ok htail, f.run_bind_ok hhead, if_neg (by omega)]
  exact f.run_map _ _

/-- What `walk` yields it also yields with a larger bound, and with a callback that yields more. -/
theorem walk_mono {processChunk' : Nat → Nat → σ → Prog Stop Byte (σ × Bool)} {m : Mem Byte}
    (hcb : ∀ off len arg r, (processChunk off len arg).Yields S m r →
      (processChunk' off len arg).Yields S m r) {fuel' : Nat} {arg : σ}
    {r : ErrorCode × σ × Nat} (hle : fuel ≤ fuel')
    (h : (walk processChunk fuel arg).Yields S m r) :
    (walk processChunk' fuel' arg).Yields S m r := by
  rw [walk] at h ⊢
  obtain ⟨tail, htail, h⟩ := h.of_bind
  obtain ⟨head, hhead, h⟩ := h.of_bind
  refine Prog.Yields.bind' htail (Prog.Yields.bind' hhead ?_)
  split
  · rename_i hge
    rw [if_pos hge] at h
    exact h
  · rename_i hlt
    rw [if_neg hlt] at h
    obtain ⟨last, hlast, h⟩ := h.of_bind
    exact Prog.Yields.bind' (walkLoop_mono hcb hle hlast) h

/-- On an empty log `walk` reports `ID_NOT_FOUND` and does not call back. -/
theorem walk_empty (hr : Rep f []) (processChunk : Nat → Nat → σ → Prog Stop Byte (σ × Bool))
    (fuel : Nat) (arg : σ) : f.run (walk processChunk fuel arg) = .ok (.idNotFound, arg, 32) := by
  have hroom : 32 ≤ f.len := hr.room
  have hbelow : (walkBelow processChunk fuel arg 32).Yields (Set.Iio 32) f.bytes
      (.idNotFound, arg, 32) := by
    refine Prog.Yields.bind' (head_yields hr (fun a _ h => ?_)) ?_
    · exact Nat.lt_trans h (by decide)
    · rw [if_pos (Nat.le_refl 32)]
      exact Prog.yields_pure _ _ _
  have hwalk := walk_of_below hr (fun a _ h => h) hbelow
  exact hwalk.run_eq (fun a ha => Nat.lt_of_lt_of_le ha hroom)

/-- **`Log::walk` on a log**, for any callback that behaves as a pure step. -/
theorem walk_yields (arg : σ) (hr : Rep f (encode (xs.map entry))) (hfuel : xs.length < fuel)
    (hS : ∀ a, headOff ≤ a → a < 32 + (encode (xs.map entry)).length → a ∈ S)
    (hcb : Behaves entry S f.bytes processChunk step 32 xs) :
    (walk processChunk fuel arg).Yields S f.bytes
      (walkCode (xs.map entry), scan entry step 32 xs arg) := by
  refine walk_of_below hr
    (fun a h1 h2 => hS a (by simp only [headOff, tailOff] at h1 ⊢; omega) (by omega)) ?_
  exact walkBelow_yields arg hr hfuel
    (fun a h1 h2 => hS a h1 (by simp only [tailOff] at h2; omega))
    (fun a h1 h2 => hS a (by simp only [headOff]; omega) h2) hcb

end

/-! ## The walk that looks at everything -/

/-- What `observe` does to an entry. -/
def note (off : Nat) (e : Entry) (seen : List Visit) : List Visit × Bool :=
  (seen ++ [⟨off, e.len, e.bytes⟩], true)

theorem scan_note (off : Nat) (es : List Entry) (seen : List Visit) :
    scan id note off es seen = (seen ++ visitsFrom off es, off + (encode es).length) := by
  induction es generalizing off seen with
  | nil => simp [scan, visitsFrom]
  | cons e es ih =>
    rw [scan, if_pos (show (note off e seen).2 = true from rfl), ih, visitsFrom, encode_cons,
      List.length_append, note]
    simp only [List.append_assoc, List.singleton_append, Nat.add_assoc, id_eq]

theorem observe_yields {S : Set Nat} {m : Mem Byte} {off : Nat} {e : Entry} (seen : List Visit)
    (h : load m off e.bytes.length = e.bytes) (hS : ∀ i < e.bytes.length, off + i ∈ S) :
    (observe off e.len seen).Yields S m (note off e seen) := by
  have hload : (Prog.loadEach off e.bytes.length : Prog Stop Byte (List Byte)).Yields S m
      e.bytes := by
    have hy : (Prog.loadEach off e.bytes.length : Prog Stop Byte (List Byte)).Yields S m
      (load m off e.bytes.length) := Prog.yields_loadEach hS
    rw [h] at hy
    exact hy
  rw [observe, ← e.length_bytes]
  exact Prog.Yields.bind' hload (Prog.yields_pure _ _ _)

/-- The bytes a walk over a log of `es` looks at once it has loaded the tail. -/
def entryRegion (es : List Entry) : Set Nat :=
  Set.Ico headOff tailOff ∪ Set.Ico 32 (32 + (encode es).length)

/-- Once it has loaded the tail, the observing walk over a log of `es` only looks at its entries. -/
theorem walkBelow_observe_yields {f : File} {es : List Entry} {fuel : Nat}
    (hr : Rep f (encode es)) (hfuel : es.length < fuel) :
    (walkBelow observe fuel [] (32 + (encode es).length)).Yields (entryRegion es) f.bytes
      (walkCode es, visitsFrom 32 es, 32 + (encode es).length) := by
  have hcb : Behaves id (entryRegion es) f.bytes observe note 32 es := by
    intro pre e post seen hes hat
    rw [List.map_id] at hat ⊢
    have hlen : (encode es).length =
        (encode pre).length + (e.bytes.length + 8 + (encode post).length) := by
      rw [hes, length_encode_split, Entry.frame, List.length_append, length_commitWord]
    refine observe_yields seen hat (fun i hi => Or.inr ⟨by omega, ?_⟩)
    rw [hlen]
    simp only [id_eq] at hi
    omega
  have hr' : Rep f (encode (es.map id)) := by rw [List.map_id]; exact hr
  have h := walkBelow_yields (S := entryRegion es) [] hr' hfuel
    (fun a h1 h2 => Or.inl ⟨h1, h2⟩)
    (fun a h1 h2 => Or.inr ⟨h1, by rw [List.map_id] at h2; exact h2⟩) hcb
  rw [scan_note, List.nil_append, List.map_id] at h
  exact h

/-- The file shows exactly `es`: however large the loop bound, a walk that looks at everything visits
    the entries in order, each at its offset with its length and bytes, and stops at the tail. -/
def File.Visits (f : File) (es : List Entry) : Prop :=
  ∀ fuel, es.length < fuel → f.run (walk observe fuel []) =
    .ok (walkCode es, visitsFrom 32 es, word f.bytes tailOff)

/-- **A log of `es` shows exactly `es`.** -/
theorem visits_of_rep {f : File} {es : List Entry} (hr : Rep f (encode es)) : f.Visits es := by
  intro fuel hfuel
  have hroom := hr.room
  have hinside : ∀ a ∈ entryRegion es, a < f.len := by
    rintro a (ha | ha)
    · have : a < 24 := ha.2
      omega
    · have := ha.2
      omega
  rw [walk_eq_load, File.run, Prog.run, if_pos (Or.inr (by simp only [tailOff]; omega)),
    show ofLE (load f.bytes tailOff 8) = 32 + (encode es).length from hr.tail_eq, hr.tail_eq]
  exact (walkBelow_observe_yields hr hfuel).run_eq hinside

end NvStream
