/-
  A program that takes checkpoints, and the program that reads them back.

  The producer allocates its variables once, and then computes and takes snapshots in turn.  The
  consumer runs in another process, later, and asks for every version of every variable.  Both are
  here as users of an `NVSStore`; `NvStream.Stores.Restart` has the two programs of the repository,
  which go through a `TimingStore`.

      producer    alloc ... alloc   compute  put_all   compute  put_all   compute  put_| power fails
      consumer                                                    opens the log, get_with_malloc ...

  The theorem is about the two together, with the power failing at any store of a snapshot and
  taking with it any of the stores that were not fenced.  `saved` says what the producer meant to
  keep.

  * `Node.At.snapshot`, `Node.At.crash`: after any number of rounds, cut anywhere, the log is the
    archive of the rounds that were finished, and perhaps of the one that was cut.
  * `Archived.lookup`: a search through an archive answers `saved`, for every variable but the
    GREATEST one, which no search of a batch compares.
  * `consume_eq`: the consumer's loop writes what the searches answer, version after version into
    the same buffers.
  * `restart_reads`: the consumer ends with the last finished checkpoint in its buffers.
-/
import Mathlib.Data.List.Find
import NvStream.NvsStore.RoundTrip
import NvStream.NvsStore.Reading
import NvStream.Log.Crash

namespace NvStream

open FlatMem LittleEndian LoadProg PersistTrace

/-! ## The producer -/

/-- A variable of the application, and the buffer `malloc` has returned for it. -/
structure Var where
  name : Key
  size : UInt64
  ptr : Nat

/-- `create_obj` for one variable after the other. -/
def NvsStore.allocAll : NvsStore → List Var → Except Stop NvsStore
  | s, [] => .ok s
  | s, w :: vars =>
    match s.createObj w.name w.size w.ptr with
    | .error stop => .error stop
    | .ok (_, _, s') => s'.allocAll vars

/-- The object `create_obj` makes of a variable. -/
def Var.object (w : Var) : Object := Object.ctor w.name w.size 0 w.ptr

/-- One round: the memory when the application has computed, and the uninitialised headers `put_all`
    finds. -/
structure Round where
  heap : Mem Byte
  lEntry : Nat → LeHdr

/-- The producer's process, and the persistent memory its log is in. -/
structure Node where
  store : NvsStore
  mem : PMem Byte

namespace Node

/-- The append of `put_all`. -/
def append (c : Node) (r : Round) : Append :=
  let objs := c.store.objectMap.entries.map Prod.snd
  .appendv (((r.lEntry 0).outer (NvsStore.totCnt objs)).iov ::
    NvsStore.innerIov r.heap r.lEntry 1 objs)

/-- The application computes and calls `put_all`. -/
def snapshot (c : Node) (r : Round) : Except Stop Node :=
  match { c.store with heap := r.heap }.putAll r.lEntry with
  | .error stop => .error stop
  | .ok (_, s') => .ok ⟨s', c.mem.run ((c.append r).trace c.store.log)⟩

def snapshots : Node → List Round → Except Stop Node
  | c, [] => .ok c
  | c, r :: rounds =>
    match c.snapshot r with
    | .error stop => .error stop
    | .ok c' => c'.snapshots rounds

end Node

/-- What the producer means to keep: the contents of a variable at the end of a round.  Rounds are
    counted from 1. -/
def saved (M : SortedMap Key Object) (rounds : List Round) (k : Key) : Nat → Option (List Byte)
  | 0 => none
  | v + 1 => rounds[v]?.bind (fun r =>
      (M.entries.dropLast.find? (fun p => p.1 = k)).map (fun p => p.2.contents r.heap))

/-! ## The variables are in the map -/

theorem NvsStore.allocAll_ok {vars : List Var} : ∀ {s s' : NvsStore}, s.allocAll vars = .ok s' →
    s'.log = s.log ∧ s'.file = s.file ∧ ∀ q, q ∈ s'.objectMap.entries ↔
      q ∈ s.objectMap.entries ∨ ∃ w ∈ vars, q = (w.name, w.object) := by
  induction vars with
  | nil =>
    intro s s' h
    cases h
    refine ⟨rfl, rfl, fun q => ⟨Or.inl, ?_⟩⟩
    rintro (hq | ⟨w, hw, _⟩)
    · exact hq
    · exact absurd hw List.not_mem_nil
  | cons w vars ih =>
    intro s s' h
    rw [allocAll] at h
    split at h
    · cases h
    · rename_i s₁ hcreate
      obtain ⟨hnone, rfl⟩ := createObj_eq hcreate
      obtain ⟨hlog, hfile, hmem⟩ := ih h
      refine ⟨hlog, hfile, fun q => ?_⟩
      have hne : q ∈ s.objectMap.entries → q.1 ≠ w.name := by
        intro hq heq
        exact (SortedMap.find?_eq_none _ _).mp hnone q.2 (heq ▸ hq)
      rw [hmem, SortedMap.mem_insert]
      constructor
      · rintro ((rfl | ⟨hq, _⟩) | ⟨w', hw', rfl⟩)
        · exact .inr ⟨w, List.mem_cons_self, rfl⟩
        · exact .inl hq
        · exact .inr ⟨w', List.mem_cons_of_mem _ hw', rfl⟩
      · rintro (hq | ⟨w', hw', rfl⟩)
        · exact .inl (.inr ⟨hq, hne hq⟩)
        · obtain rfl | hw' := List.mem_cons.mp hw'
          · exact .inl (.inl rfl)
          · exact .inr ⟨w', hw', rfl⟩

/-! ## The archive -/

/-- One batch for each round, with every object under the number of the round. -/
inductive Archived (M : SortedMap Key Object) : List Round → List Item → Prop
  | nil : Archived M [] []
  | snoc {rounds : List Round} {items : List Item} (h : Archived M rounds items) (r : Round)
      {junk : LeHdr} {ws : List Written} {fits : (batchBytes ws).length < 2 ^ 64}
      (hws : ws.map Written.toRec =
        M.entries.map (fun p => p.2.toRec r.heap (UInt64.ofNat (rounds.length + 1)))) :
      Archived M (rounds ++ [r]) (items ++ [.multiple junk ws fits])

section Archive

variable {M : SortedMap Key Object} {rounds : List Round} {items : List Item}

theorem Archived.length (h : Archived M rounds items) : items.length = rounds.length := by
  induction h with
  | nil => rfl
  | snoc _ r hws ih => rw [List.length_append, List.length_append, ih]; rfl

/-- Every batch has all the objects. -/
theorem Archived.length_recs (h : Archived M rounds items) :
    ∀ it ∈ items, it.recs.length = M.entries.length := by
  induction h with
  | nil => exact fun it hit => absurd hit List.not_mem_nil
  | snoc _ r hws ih =>
    intro it hit
    obtain hit | hit := List.mem_append.mp hit
    · exact ih it hit
    · rw [List.mem_singleton.mp hit, Item.recs, hws, List.length_map]

theorem ofNat_succ_ne {n v : Nat} (hn : n + 1 < 2 ^ 64) (hv : v + 1 < 2 ^ 64) (h : n ≠ v) :
    UInt64.ofNat (n + 1) ≠ UInt64.ofNat (v + 1) := by
  intro heq
  have hnat := congrArg UInt64.toNat heq
  rw [toNat_ofNat hn, toNat_ofNat hv] at hnat
  omega

/-- What a search finds in the batch of one round. -/
theorem find_round (hM : ∀ p ∈ M.entries, p.2.name = p.1 ∧ ShortKey p.1) {k : Key}
    (hk : ShortKey k) (heap : Mem Byte) (version version' : UInt64) :
    (M.entries.map (fun p => p.2.toRec heap version)).dropLast.find?
        (Rec.matches (keyField k) version') =
      if version = version' then
        (M.entries.dropLast.find? (fun p => p.1 = k)).map (fun p => p.2.toRec heap version)
      else none := by
  rw [← List.map_dropLast, List.find?_map]
  have hmatch : ∀ p ∈ M.entries.dropLast,
      (Rec.matches (keyField k) version' ∘ fun p => p.2.toRec heap version) p =
        decide (p.1 = k ∧ version = version') := by
    intro p hp
    obtain ⟨hname, hshort⟩ := hM p (List.dropLast_subset _ hp)
    rw [Function.comp_apply, Rec.matches_iff (by rw [Object.toRec, hname]; exact hshort) hk,
      Object.toRec, hname]
  rw [List.find?_congr hmatch]
  by_cases hversion : version = version'
  · rw [if_pos hversion]
    simp only [hversion, and_true]
  · rw [if_neg hversion]
    have hnone : M.entries.dropLast.find? (fun p => decide (p.1 = k ∧ version = version')) = none :=
      List.find?_eq_none.mpr (fun p _ h => hversion (of_decide_eq_true h).2)
    rw [hnone]
    rfl

theorem saved_concat_of_ne {v : Nat} (h : v ≠ rounds.length) (r : Round) (k : Key) :
    saved M (rounds ++ [r]) k (v + 1) = saved M rounds k (v + 1) := by
  have hget : (rounds ++ [r])[v]? = rounds[v]? := by
    obtain hlt | hgt := Nat.lt_or_gt_of_ne h
    · exact List.getElem?_append_left hlt
    · rw [List.getElem?_eq_none (by rw [List.length_append]; exact hgt),
        List.getElem?_eq_none (Nat.le_of_lt hgt)]
  rw [saved, saved, hget]

theorem saved_concat_self (rounds : List Round) (r : Round) (k : Key) :
    saved M (rounds ++ [r]) k (rounds.length + 1) =
      (M.entries.dropLast.find? (fun p => p.1 = k)).map (fun p => p.2.contents r.heap) := by
  rw [saved, List.getElem?_concat_length]
  rfl

theorem saved_eq_none_of_lt {v : Nat} (h : rounds.length < v) (k : Key) :
    saved M rounds k v = none := by
  obtain ⟨v, rfl⟩ : ∃ u, v = u + 1 := ⟨v - 1, by omega⟩
  rw [saved, List.getElem?_eq_none (by omega)]
  rfl

/-- **A search through an archive answers what the producer meant to keep.** -/
theorem Archived.lookup (h : Archived M rounds items)
    (hM : ∀ p ∈ M.entries, p.2.name = p.1 ∧ ShortKey p.1) {k : Key} (hk : ShortKey k) (v : Nat)
    (hv : v < 2 ^ 64) (hlen : rounds.length < 2 ^ 64) :
    (lookup k (UInt64.ofNat v) items).map Rec.data = saved M rounds k v := by
  induction h with
  | nil =>
    cases v with
    | zero => rfl
    | succ v => rfl
  | @snoc rounds items h r junk ws fits hws ih =>
    rw [List.length_append, List.length_singleton] at hlen
    have hnew : NvStream.lookup k (UInt64.ofNat v) [.multiple junk ws fits] =
        if UInt64.ofNat (rounds.length + 1) = UInt64.ofNat v then
          (M.entries.dropLast.find? (fun p => p.1 = k)).map
            (fun p => p.2.toRec r.heap (UInt64.ofNat (rounds.length + 1)))
        else none := by
      rw [NvStream.lookup, List.flatMap_singleton, Item.visible, hws, find_round hM hk]
    have ih := ih (by omega)
    rw [lookup_append, hnew]
    cases v with
    | zero =>
      have hne : UInt64.ofNat (rounds.length + 1) ≠ UInt64.ofNat 0 := by
        intro heq
        have hnat := congrArg UInt64.toNat heq
        rw [toNat_ofNat hlen, toNat_ofNat hv] at hnat
        omega
      rw [if_neg hne, Option.or_none, ih]
      rfl
    | succ v =>
      by_cases hvn : v = rounds.length
      · -- the version of the new round: no older batch has it
        subst hvn
        rw [saved_eq_none_of_lt (Nat.lt_succ_self _), Option.map_eq_none_iff] at ih
        rw [ih, Option.none_or, if_pos rfl, Option.map_map, saved_concat_self]
        rfl
      · rw [if_neg (ofNat_succ_ne hlen hv (Ne.symm hvn)), Option.or_none, ih,
          saved_concat_of_ne hvn]

end Archive

/-! ## Rounds -/

/-- The objects when `n` rounds are over. -/
def objectsAfter (M : SortedMap Key Object) (n : Nat) : SortedMap Key Object :=
  M.mapVal (fun _ o => o.setVersion (UInt64.ofNat n))

theorem objectsAfter_zero {M : SortedMap Key Object} (hM : ∀ p ∈ M.entries, p.2.version = 0) :
    objectsAfter M 0 = M := by
  refine SortedMap.ext_entries ?_
  show M.entries.map _ = M.entries
  refine (List.map_congr_left fun p hp => ?_).trans (List.map_id _)
  show (p.1, { p.2 with version := UInt64.ofNat 0 }) = p
  rw [show UInt64.ofNat 0 = p.2.version from (hM p hp).symm]

theorem objectsAfter_succ (M : SortedMap Key Object) (n : Nat) :
    (objectsAfter M n).mapVal (fun _ o => o.setVersion (o.version + 1)) =
      objectsAfter M (n + 1) := by
  refine SortedMap.ext_entries ?_
  show (M.entries.map _).map _ = M.entries.map _
  rw [List.map_map]
  refine List.map_congr_left fun p _ => ?_
  show (p.1, p.2.setVersion (UInt64.ofNat n + 1)) = (p.1, p.2.setVersion (UInt64.ofNat (n + 1)))
  rw [UInt64.ofNat_add]
  rfl

/-- The batch of a round holds the objects under its number. -/
theorem recs_objectsAfter (M : SortedMap Key Object) (n : Nat) (r : Round) :
    (NvsStore.batch r.heap r.lEntry 1 ((objectsAfter M n).entries.map Prod.snd)).map Written.toRec =
      M.entries.map (fun p => p.2.toRec r.heap (UInt64.ofNat (n + 1))) := by
  rw [NvsStore.map_batch]
  show ((M.entries.map _).map _).map _ = _
  rw [List.map_map, List.map_map]
  refine List.map_congr_left fun p _ => ?_
  show p.2.toRec r.heap (UInt64.ofNat n + 1) = p.2.toRec r.heap (UInt64.ofNat (n + 1))
  rw [UInt64.ofNat_add]
  rfl

/-- **The producer after a number of rounds.** -/
structure Node.At (M : SortedMap Key Object) (rounds : List Round) (items : List Item) (c : Node) :
    Prop where
  archived : Archived M rounds items
  objects : c.store.objectMap = objectsAfter M rounds.length
  view : c.mem.view = c.store.file.bytes
  rep : Rep ⟨c.mem.durable, c.store.file.len⟩ (encode (items.map Item.entry))
  above : c.mem.PendingIn (Set.Ici (32 + (encode (items.map Item.entry)).length))
  synced : c.store.log.Synced c.store.file (encode (items.map Item.entry))

section Rounds

variable {M : SortedMap Key Object} {rounds : List Round} {items : List Item} {c c' : Node}

/-- What the producer reads is the archive too. -/
theorem Node.At.rep_view (h : c.At M rounds items) :
    Rep c.store.file (encode (items.map Item.entry)) := by
  have hview := h.rep.congr (PMem.view_eqOn h.above)
  rw [h.view] at hview
  exact hview

/-- One more round, if its entry is the batch of the objects. -/
theorem Archived.next (h : Archived M rounds items) {c : Node}
    (hobjects : c.store.objectMap = objectsAfter M rounds.length) (r : Round)
    {fits : (batchBytes (NvsStore.batch r.heap r.lEntry 1
      (c.store.objectMap.entries.map Prod.snd))).length < 2 ^ 64} :
    Archived M (rounds ++ [r]) (items ++ [.multiple (r.lEntry 0) _ fits]) := by
  refine .snoc h r ?_
  rw [hobjects]
  exact recs_objectsAfter M rounds.length r

/-- **One round.** -/
theorem Node.At.snapshot (h : c.At M rounds items) {r : Round} (hsnap : c.snapshot r = .ok c') :
    ∃ items', c'.At M (rounds ++ [r]) items' ∧ c'.store.file.len = c.store.file.len := by
  rw [Node.snapshot] at hsnap
  split at hsnap
  · cases hsnap
  · rename_i s' hput
    cases hsnap
    obtain ⟨log, file, happ, hs'⟩ := NvsStore.putAll_eq hput
    obtain ⟨ws, fits, hws, hr', hsynced', hlen, -, -, hmap, -⟩ :=
      NvsStore.putAll_ok (s := { c.store with heap := r.heap }) h.rep_view h.synced hput
    subst hws
    -- the trace ends in a fence: everything is durable, and nothing is pending
    obtain ⟨-, htrace, hfile, -⟩ := Append.call_ok (a := c.append r) h.rep_view h.synced happ
    have hmem : c.mem.run ((c.append r).trace c.store.log) = ⟨s'.file.bytes, []⟩ := by
      rw [htrace, appendOps, PMem.run_publish, exec_fillOps, h.view, hs']
      show _ = PMem.mk file.bytes []
      rw [hfile]
      rfl
    refine ⟨items ++ [.multiple (r.lEntry 0) _ fits], ?_, hlen⟩
    have hbody : encode ((items ++ [Item.multiple (r.lEntry 0) _ fits]).map Item.entry) =
        encode (items.map Item.entry) ++ (Item.multiple (r.lEntry 0) _ fits).entry.frame := by
      rw [List.map_append, List.map_singleton, encode_concat]
      rfl
    rw [← hbody] at hr' hsynced'
    refine ⟨h.archived.next h.objects r, ?_, ?_, ?_, ?_, hsynced'⟩
    · rw [hmap, List.length_append, List.length_singleton, ← objectsAfter_succ, ← h.objects]
    · rw [hmem]
      rfl
    · rw [hmem]
      exact hr'
    · rw [hmem]
      exact fun _ hs => absurd hs List.not_mem_nil

theorem Node.At.snapshots (h : c.At M rounds items) : ∀ {more : List Round},
    c.snapshots more = .ok c' →
    ∃ items', c'.At M (rounds ++ more) items' ∧ c'.store.file.len = c.store.file.len := by
  intro more
  induction more generalizing c rounds items with
  | nil =>
    intro hsnap
    cases hsnap
    rw [List.append_nil]
    exact ⟨items, h, rfl⟩
  | cons r more ih =>
    intro hsnap
    rw [Node.snapshots] at hsnap
    split at hsnap
    · cases hsnap
    · rename_i c₁ hone
      obtain ⟨items₁, h₁, hlen₁⟩ := h.snapshot hone
      obtain ⟨items', h', hlen'⟩ := ih h₁ hsnap
      rw [List.append_assoc] at h'
      exact ⟨items', h', hlen'.trans hlen₁⟩

/-- **The power fails inside a round.**  The log that is left is the archive without the round, or
    with all of it. -/
theorem Node.At.crash (h : c.At M rounds items) (r : Round) {cut : List (Op Byte)}
    (hcut : cut <+: (c.append r).trace c.store.log)
    (hin : ∀ o ∈ cut, InMap c.store.file.len o) {m' : Mem Byte} (himg : (c.mem.run cut).Image m') :
    ∃ kept items', (kept = rounds ∨ kept = rounds ++ [r]) ∧ Archived M kept items' ∧
      Rep ⟨m', c.store.file.len⟩ (encode (items'.map Item.entry)) := by
  have hsynced : c.store.log.Synced ⟨c.mem.view, c.store.file.len⟩
      (encode (items.map Item.entry)) := by
    rw [h.view]
    exact h.synced
  obtain hr | hr := crash_rep h.rep h.above hsynced (c.append r) hcut hin himg
  · exact ⟨rounds, items, .inl rfl, h.archived, hr⟩
  · -- the batch is in the file, so it is not too long
    have fits : (batchBytes (NvsStore.batch r.heap r.lEntry 1
        (c.store.objectMap.entries.map Prod.snd))).length < 2 ^ 64 := by
      have hroom := hr.room
      have hsmall := hr.small
      have hdata : (c.append r).data.length = sizeofLehdr + _ :=
        NvsStore.length_gather_batch r.heap r.lEntry (c.store.objectMap.entries.map Prod.snd)
      rw [List.length_append, List.length_append, hdata] at hroom
      omega
    have hdata : (c.append r).data = (Item.multiple (r.lEntry 0) _ fits).entry.bytes :=
      NvsStore.gather_batch fits
    rw [hdata, ← encode_concat] at hr
    refine ⟨rounds ++ [r], items ++ [.multiple (r.lEntry 0) _ fits], .inr rfl,
      h.archived.next h.objects r, ?_⟩
    rw [List.map_append, List.map_singleton]
    exact hr

end Rounds

/-- A producer that has allocated its variables on a new log. -/
theorem Node.start_at {size : Nat} {l : Log} {f : File} {heap : Mem Byte}
    (hsize : sizeofLhdr ≤ size) (hnew : Log.ctor none size = .ok (l, f)) {vars : List Var}
    {s : NvsStore} (halloc : (NvsStore.ctor l f heap).allocAll vars = .ok s) :
    Node.At s.objectMap [] [] ⟨s, (Durable.create l size).mem⟩ ∧ s.file.len = size := by
  obtain ⟨hlog, hfile, hmem⟩ := NvsStore.allocAll_ok halloc
  have hinv := Durable.create_inv hsize hnew
  obtain ⟨-, -, hf⟩ := ctor_none.mp hnew
  have hfiles : s.file = ⟨exec (fun _ => 0) (ctorOps size), size⟩ := by
    rw [hfile, ← hf]
    rfl
  have hview : (Durable.create l size).mem.view = exec (fun _ => 0) (ctorOps size) := by
    rw [Durable.create, PMem.view_run,
      show (PMem.mk (fun _ => (0 : Byte)) []).view = fun _ => 0 from rfl]
  have hrep : Rep ⟨(Durable.create l size).mem.durable, size⟩ (encode []) := hinv.rep
  have habove : (Durable.create l size).mem.PendingIn (Set.Ici (32 + (encode []).length)) :=
    hinv.above
  have hsynced : l.Synced ⟨(Durable.create l size).mem.view, size⟩ (encode []) := hinv.synced l rfl
  rw [hview] at hsynced
  generalize (Durable.create l size).mem = mem at hview hrep habove ⊢
  have hobjects : s.objectMap = objectsAfter s.objectMap 0 := by
    refine (objectsAfter_zero fun p hp => ?_).symm
    obtain hp | ⟨w, -, rfl⟩ := (hmem p).mp hp
    · exact absurd hp List.not_mem_nil
    · rfl
  refine ⟨⟨.nil, hobjects, ?_, ?_, habove, ?_⟩, ?_⟩
  · rw [hfiles]
    exact hview
  · rw [hfiles]
    exact hrep
  · rw [hfiles, hlog]
    exact hsynced
  · rw [hfiles]

/-! ## The consumer -/

/-- What a log answers. -/
def answer (items : List Item) (k : Key) (v : Nat) : Option (List Byte) :=
  (lookup k (UInt64.ofNat v) items).map Rec.data

/-- `get_with_malloc` for one version and variable after the other.  The codes are not looked at;
    `malloc k` is what `malloc` returns if the call makes an object of `k`, and `wentry i` what the
    stack holds with `i` requests to go. -/
def NvsStore.consume (wentry : Nat → WalkEntry) (fuel : Nat) (malloc : Key → Nat) :
    NvsStore → List (Nat × Key) → Except Stop (List ErrorCode × NvsStore)
  | s, [] => .ok ([], s)
  | s, (v, k) :: rest =>
    match s.getWithMalloc (wentry rest.length) fuel k (UInt64.ofNat v) (malloc k) with
    | .error stop => .error stop
    | .ok (code, _, s') => (s'.consume wentry fuel malloc rest).map (fun r => (code :: r.1, r.2))

/-- The loops of `pseq_reader.cc`: versions 1 to `n`, and for each of them every variable. -/
def requests (names : List Key) : Nat → List (Nat × Key)
  | 0 => []
  | n + 1 => requests names n ++ names.map (fun k => (n + 1, k))

/-- The copies the consumer makes. -/
def copies (arch : Key → Nat → Option (List Byte)) (malloc : Key → Nat) (qs : List (Nat × Key)) :
    List (Nat × List Byte) :=
  qs.filterMap (fun q => (arch q.2 q.1).map (fun data => (malloc q.2, data)))

/-- The codes it gets. -/
def codes (arch : Key → Nat → Option (List Byte)) (qs : List (Nat × Key)) : List ErrorCode :=
  qs.map (fun q => if (arch q.2 q.1).isSome then .noError else .idNotFound)

/-- The objects of a consumer have the buffers `malloc` gave for them. -/
def NvsStore.Mallocs (malloc : Key → Nat) (s : NvsStore) : Prop :=
  ∀ k obj, s.objectMap.find? k = some obj → obj.ptr = malloc k

/-- **The consumer's loop.**  It never stops early, and its memory is changed by the copies only. -/
theorem NvsStore.consume_eq {f : File} {items : List Item}
    (hr : Rep f (encode (items.map Item.entry))) (hne : items ≠ []) (hlook : LooksInside f items)
    (wentry : Nat → WalkEntry) {fuel : Nat} (hfuel : lookFuel items ≤ fuel)
    (malloc : Key → Nat) (qs : List (Nat × Key)) : ∀ (s : NvsStore), s.file = f →
    s.Mallocs malloc → ∃ s', s.consume wentry fuel malloc qs = .ok (codes (answer items) qs, s') ∧
      s'.heap = storeAll s.heap (copies (answer items) malloc qs) := by
  induction qs with
  | nil => exact fun s _ _ => ⟨s, rfl, rfl⟩
  | cons q qs ih =>
    rintro s rfl hs
    obtain ⟨v, k⟩ := q
    have hcall := getWithMalloc_of_walk hr hne
      (walk_inside hr hlook (wentry qs.length) hfuel k (UInt64.ofNat v)) (malloc k)
    rw [consume, hcall]
    cases hlk : lookup k (UInt64.ofNat v) items with
    | none =>
      have hans : answer items k v = none := by rw [answer, hlk]; rfl
      obtain ⟨s', hrest, hheap⟩ := ih s rfl hs
      refine ⟨s', ?_, ?_⟩
      · rw [codes, List.map_cons, hans]
        exact congrArg (Except.map _) hrest
      · rw [hheap, copies, copies, List.filterMap_cons, hans]
        rfl
    | some r =>
      have hans : answer items k v = some r.data := by rw [answer, hlk]; rfl
      have htarget : s.targetOf k (malloc k) = malloc k := by
        rw [targetOf]
        split
        · exact hs k _ ‹_›
        · rfl
      have hptr : (s.loaded k (UInt64.ofNat v) (malloc k) r.data.length).ptr = malloc k := by
        rw [loaded]
        cases hfind : s.objectMap.find? k with
        | none => rfl
        | some obj => exact hs k obj hfind
      rw [htarget]
      obtain ⟨s', hrest, hheap⟩ := ih { s with
          heap := store s.heap (malloc k) r.data
          objectMap := s.objectMap.insert k
            (s.loaded k (UInt64.ofNat v) (malloc k) r.data.length) } rfl (by
        intro k' obj hfind
        rw [SortedMap.find?_insert] at hfind
        split at hfind
        · rename_i heq
          cases hfind
          rw [hptr, heq]
        · exact hs k' obj hfind)
      refine ⟨s', ?_, ?_⟩
      · rw [codes, List.map_cons, hans]
        exact congrArg (Except.map _) hrest
      · rw [hheap, copies, copies, List.filterMap_cons, hans]
        rfl

/-! ## What is left in the buffers -/

section Buffers

variable {arch : Key → Nat → Option (List Byte)} {malloc : Key → Nat} {len : Key → Nat}

/-- The buffers do not meet, and every version of a variable has the length of its buffer. -/
structure Roomy (arch : Key → Nat → Option (List Byte)) (malloc len : Key → Nat) : Prop where
  length : ∀ k v data, arch k v = some data → data.length = len k
  apart : ∀ k k' v v' data data', arch k v = some data → arch k' v' = some data' → k ≠ k' →
    malloc k + len k ≤ malloc k' ∨ malloc k' + len k' ≤ malloc k

theorem copies_append (qs qs' : List (Nat × Key)) :
    copies arch malloc (qs ++ qs') = copies arch malloc qs ++ copies arch malloc qs' :=
  List.filterMap_append

/-- One pass over the variables. -/
theorem mem_copies_pass {names : List Key} {v : Nat} {c : Nat × List Byte} :
    c ∈ copies arch malloc (names.map (fun k => (v, k))) ↔
      ∃ k ∈ names, ∃ data, arch k v = some data ∧ c = (malloc k, data) := by
  rw [copies, List.mem_filterMap]
  constructor
  · rintro ⟨q, hq, hc⟩
    obtain ⟨k, hk, rfl⟩ := List.mem_map.mp hq
    obtain ⟨data, hdata, rfl⟩ := Option.map_eq_some_iff.mp hc
    exact ⟨k, hk, data, hdata, rfl⟩
  · rintro ⟨k, hk, data, hdata, rfl⟩
    exact ⟨(v, k), List.mem_map_of_mem hk, by rw [hdata]; rfl⟩

theorem load_pass_some (hroomy : Roomy arch malloc len) {names : List Key} {k : Key}
    (hk : k ∈ names) {v : Nat} {data : List Byte} (hdata : arch k v = some data) (m : Mem Byte) :
    load (storeAll m (copies arch malloc (names.map (fun k => (v, k))))) (malloc k) (len k) =
      data := by
  rw [← hroomy.length k v data hdata]
  refine load_storeAll_same (mem_copies_pass.mpr ⟨k, hk, data, hdata, rfl⟩) fun c hc => ?_
  obtain ⟨k', -, data', hdata', rfl⟩ := mem_copies_pass.mp hc
  by_cases hkk : k = k'
  · subst hkk
    rw [hdata] at hdata'
    cases hdata'
    exact .inl rfl
  · have hapart := hroomy.apart k k' v v data data' hdata hdata' hkk
    rw [← hroomy.length k v data hdata, ← hroomy.length k' v data' hdata'] at hapart
    exact .inr hapart

theorem load_pass_none (hroomy : Roomy arch malloc len) {names : List Key} {k : Key} {u v : Nat}
    {data : List Byte} (hdata : arch k u = some data) (hnone : arch k v = none) (m : Mem Byte) :
    load (storeAll m (copies arch malloc (names.map (fun k => (v, k))))) (malloc k) (len k) =
      load m (malloc k) (len k) := by
  refine load_storeAll_disjoint fun c hc => ?_
  obtain ⟨k', -, data', hdata', rfl⟩ := mem_copies_pass.mp hc
  have hkk : k ≠ k' := by
    rintro rfl
    rw [hnone] at hdata'
    cases hdata'
  have hapart := hroomy.apart k k' u v data data' hdata hdata' hkk
  rw [← hroomy.length k' v data' hdata'] at hapart
  exact hapart

/-- **The newest version stays.**  After the passes for versions 1 to `n + 1`, the buffer of a
    variable that is answered up to version `last` and not beyond holds the newest it was asked
    for. -/
theorem load_copies (hroomy : Roomy arch malloc len) {names : List Key} {k : Key} (hk : k ∈ names)
    {last : Nat} (hsome : ∀ v, 1 ≤ v → v ≤ last → (arch k v).isSome)
    (hnone : ∀ v, last < v → arch k v = none) (hlast : 1 ≤ last) (m : Mem Byte) (n : Nat) :
    arch k (min (n + 1) last) = some (load
      (storeAll m (copies arch malloc (requests names (n + 1)))) (malloc k) (len k)) := by
  obtain ⟨first, hfirst⟩ := Option.isSome_iff_exists.mp (hsome 1 (le_refl 1) hlast)
  induction n with
  | zero =>
    rw [Nat.min_eq_left hlast, hfirst]
    exact congrArg some (load_pass_some hroomy hk hfirst m).symm
  | succ n ih =>
    rw [requests, copies_append, storeAll_append]
    by_cases hle : n + 2 ≤ last
    · obtain ⟨data, hdata⟩ := Option.isSome_iff_exists.mp (hsome (n + 2) (by omega) hle)
      rw [Nat.min_eq_left hle, hdata, load_pass_some hroomy hk hdata]
    · rw [load_pass_none hroomy hfirst (hnone (n + 2) (by omega)), ← ih,
        Nat.min_eq_right (by omega), Nat.min_eq_right (by omega)]

end Buffers

/-! ## The two together -/

/-- The names that can be read back: those of the variables, but for the greatest. -/
def Readable (vars : List Var) (k : Key) : Prop :=
  (∃ w ∈ vars, w.name = k) ∧ ∃ w ∈ vars, k < w.name

instance (vars : List Var) (k : Key) : Decidable (Readable vars k) :=
  inferInstanceAs (Decidable (_ ∧ _))

section Together

variable {vars : List Var} {M : SortedMap Key Object} {rounds : List Round} {w : Var} {k : Key}

/-- The map holds the variables and nothing else. -/
def Holding (vars : List Var) (M : SortedMap Key Object) : Prop :=
  ∀ q, q ∈ M.entries ↔ ∃ w ∈ vars, q = (w.name, w.object)

theorem mem_dropLast_readable (hM : Holding vars M) {p : Key × Object}
    (hp : p ∈ M.entries.dropLast) : Readable vars p.1 := by
  obtain ⟨hmem, q, hq, hlt⟩ := (SortedMap.mem_dropLast_iff M.sorted p).mp hp
  obtain ⟨w, hw, rfl⟩ := (hM p).mp hmem
  obtain ⟨w', hw', rfl⟩ := (hM q).mp hq
  exact ⟨⟨w, hw, rfl⟩, w', hw', hlt⟩

theorem find_readable (hM : Holding vars M) (hw : w ∈ vars) (hread : Readable vars w.name) :
    M.entries.dropLast.find? (fun p => p.1 = w.name) = some (w.name, w.object) := by
  have hmem : (w.name, w.object) ∈ M.entries := (hM _).mpr ⟨w, hw, rfl⟩
  have hdrop : (w.name, w.object) ∈ M.entries.dropLast := by
    obtain ⟨-, w', hw', hlt⟩ := hread
    exact (SortedMap.mem_dropLast_iff M.sorted _).mpr
      ⟨hmem, (w'.name, w'.object), (hM _).mpr ⟨w', hw', rfl⟩, hlt⟩
  cases hfind : M.entries.dropLast.find? (fun p => p.1 = w.name) with
  | none => exact absurd (decide_eq_true rfl) (List.find?_eq_none.mp hfind _ hdrop)
  | some p =>
    have hname : p.1 = w.name := by simpa using List.find?_some hfind
    have hp := List.dropLast_subset _ (List.mem_of_find?_eq_some hfind)
    rw [M.eq_of_key hp hmem hname]

theorem find_not_readable (hM : Holding vars M) (hread : ¬ Readable vars k) :
    M.entries.dropLast.find? (fun p => p.1 = k) = none := by
  refine List.find?_eq_none.mpr fun p hp heq => hread ?_
  rw [← of_decide_eq_true heq]
  exact mem_dropLast_readable hM hp

/-- What is kept of a variable. -/
theorem saved_eq (hM : Holding vars M) (hw : w ∈ vars) (hread : Readable vars w.name) (v : Nat) :
    saved M rounds w.name (v + 1) =
      rounds[v]?.map (fun r => load r.heap w.ptr w.size.toNat) := by
  rw [saved, find_readable hM hw hread]
  cases rounds[v]? <;> rfl

theorem saved_isSome_iff (hM : Holding vars M) (k : Key) (v : Nat) :
    (saved M rounds k v).isSome ↔ (1 ≤ v ∧ v ≤ rounds.length) ∧ Readable vars k := by
  cases v with
  | zero => exact iff_of_false Bool.false_ne_true (fun h => absurd h.1.1 (by decide))
  | succ v =>
    by_cases hread : Readable vars k
    · obtain ⟨w, hw, rfl⟩ := hread.1
      rw [saved_eq hM hw hread, Option.isSome_map]
      constructor
      · intro hv
        obtain ⟨r, hr⟩ := Option.isSome_iff_exists.mp hv
        exact ⟨⟨by omega, (List.getElem?_eq_some_iff.mp hr).1⟩, hread⟩
      · intro h
        rw [List.getElem?_eq_getElem h.1.2]
        rfl
    · rw [saved, find_not_readable hM hread]
      refine iff_of_false ?_ fun h => hread h.2
      cases rounds[v]? <;> exact Bool.false_ne_true

/-- The length of a variable's buffer. -/
def lengthIn (M : SortedMap Key Object) (k : Key) : Nat :=
  ((M.find? k).map (fun o => o.size.toNat)).getD 0

theorem lengthIn_eq (hM : Holding vars M) (hw : w ∈ vars) :
    lengthIn M w.name = w.size.toNat := by
  have hfind : M.find? w.name = some w.object :=
    (SortedMap.find?_eq_some _ _ _).mpr ((hM _).mpr ⟨w, hw, rfl⟩)
  rw [lengthIn, hfind]
  rfl

theorem length_saved (hM : Holding vars M) {v : Nat} {data : List Byte}
    (h : saved M rounds k v = some data) : ∃ w ∈ vars, w.name = k ∧ data.length = w.size.toNat := by
  have hsome : (saved M rounds k v).isSome := by rw [h]; rfl
  obtain ⟨⟨hv, -⟩, hread⟩ := (saved_isSome_iff hM k v).mp hsome
  obtain ⟨w, hw, rfl⟩ := hread.1
  obtain ⟨v, rfl⟩ : ∃ u, v = u + 1 := ⟨v - 1, by omega⟩
  rw [saved_eq hM hw hread] at h
  obtain ⟨r, -, rfl⟩ := Option.map_eq_some_iff.mp h
  exact ⟨w, hw, rfl, length_load _ _ _⟩

theorem saved_roomy (hM : Holding vars M) {malloc : Key → Nat}
    (hapart : ∀ w ∈ vars, ∀ w' ∈ vars, w.name ≠ w'.name →
      malloc w.name + w.size.toNat ≤ malloc w'.name ∨
      malloc w'.name + w'.size.toNat ≤ malloc w.name) :
    Roomy (saved M rounds) malloc (lengthIn M) := by
  constructor
  · intro k v data h
    obtain ⟨w, hw, rfl, hlen⟩ := length_saved hM h
    rw [hlen, lengthIn_eq hM hw]
  · intro k k' v v' data data' h h' hne
    obtain ⟨w, hw, rfl, -⟩ := length_saved hM h
    obtain ⟨w', hw', rfl, -⟩ := length_saved hM h'
    rw [lengthIn_eq hM hw, lengthIn_eq hM hw']
    exact hapart w hw w' hw' hne

theorem mem_requests {names : List Key} {n : Nat} {q : Nat × Key} (h : q ∈ requests names n) :
    q.2 ∈ names ∧ 1 ≤ q.1 ∧ q.1 ≤ n := by
  induction n with
  | zero => exact absurd h List.not_mem_nil
  | succ n ih =>
    obtain h | h := List.mem_append.mp h
    · obtain ⟨hk, hlo, hhi⟩ := ih h
      exact ⟨hk, hlo, by omega⟩
    · obtain ⟨k, hk, rfl⟩ := List.mem_map.mp h
      exact ⟨hk, Nat.succ_pos n, Nat.le_refl _⟩

/-- **What the consumer does with an archive.** -/
theorem consume_archive {f : File} {items : List Item} (hM : Holding vars M)
    (hshort : ∀ w ∈ vars, ShortKey w.name) (hvars : vars ≠ []) (hrounds : rounds ≠ [])
    (harch : Archived M rounds items) (hr : Rep f (encode (items.map Item.entry)))
    {names : List Key} (hnames : ∀ k ∈ names, ShortKey k) {n : Nat} (hn : n < 2 ^ 64)
    (wentry : Nat → WalkEntry) {fuel : Nat} (hfuel : f.len ≤ fuel) (malloc : Key → Nat)
    (l : Log) (heap : Mem Byte) :
    ∃ s', (NvsStore.ctor l f heap).consume wentry fuel malloc (requests names n) =
        .ok (codes (saved M rounds) (requests names n), s') ∧
      s'.heap = storeAll heap (copies (saved M rounds) malloc (requests names n)) := by
  have hle := lookFuel_le hr
  have hsmall := hr.small
  have hitems : items.length < f.len := by
    rw [lookFuel] at hle
    omega
  have hlen := harch.length
  have hne : items ≠ [] := by
    rintro rfl
    exact hrounds (List.length_eq_zero_iff.mp hlen.symm)
  have hlook : LooksInside f items := by
    refine looksInside_of_rep hr fun it hlast hnil => ?_
    obtain ⟨w, hw⟩ := List.exists_mem_of_ne_nil vars hvars
    have hrecs := harch.length_recs it (List.mem_of_getLast? hlast)
    have hmem := (hM _).mpr ⟨w, hw, rfl⟩
    rw [hnil] at hrecs
    rw [List.length_eq_zero_iff.mp hrecs.symm] at hmem
    exact absurd hmem List.not_mem_nil
  have hnamed : ∀ p ∈ M.entries, p.2.name = p.1 ∧ ShortKey p.1 := by
    intro p hp
    obtain ⟨w, hw, rfl⟩ := (hM p).mp hp
    exact ⟨rfl, hshort w hw⟩
  -- on what the consumer asks for, the log answers what was saved
  have hans : ∀ q ∈ requests names n, answer items q.2 q.1 = saved M rounds q.2 q.1 := by
    intro q hq
    obtain ⟨hk, -, hv⟩ := mem_requests hq
    exact harch.lookup hnamed (hnames _ hk) q.1 (by omega) (by omega)
  obtain ⟨s', hrun, hheap⟩ := NvsStore.consume_eq hr hne hlook wentry (hle.trans hfuel) malloc
    (requests names n) (NvsStore.ctor l f heap) rfl (fun k obj h => by cases h)
  refine ⟨s', ?_, ?_⟩
  · rw [hrun, codes, codes, List.map_congr_left fun q hq => by rw [hans q hq]]
  · rw [hheap, copies, copies, List.filterMap_congr fun q hq => by rw [hans q hq]]
    rfl

end Together

/-- **Checkpoint and restart, on the stores alone.**  A producer allocates its variables on a new log and finishes
    `rounds`; in the round after that the power fails at any store, and any of the stores that were
    not fenced are lost.  Then the log can be opened, and it holds the checkpoints `kept`: all that
    were finished, and perhaps the one that was cut.  A consumer that asks for the versions 1 to
    `n + 1` of some names is answered for every checkpoint and every variable but the greatest, and
    ends with the contents each variable had at the newest of these checkpoints. -/
theorem restart_reads {size : Nat} {l : Log} {f : File} {heap : Mem Byte}
    (hsize : sizeofLhdr ≤ size) (hnew : Log.ctor none size = .ok (l, f)) {vars : List Var}
    (hshort : ∀ w ∈ vars, ShortKey w.name) (hvars : vars ≠ []) {s : NvsStore}
    (halloc : (NvsStore.ctor l f heap).allocAll vars = .ok s) {rounds : List Round}
    (hrounds : rounds ≠ []) {c : Node}
    (hsnap : Node.snapshots ⟨s, (Durable.create l size).mem⟩ rounds = .ok c) (next : Round)
    {cut : List (Op Byte)} (hcut : cut <+: (c.append next).trace c.store.log)
    (hin : ∀ o ∈ cut, InMap size o) {m' : Mem Byte} (himg : (c.mem.run cut).Image m') :
    ∃ kept l', (kept = rounds ∨ kept = rounds ++ [next]) ∧
      Log.ctor (some ⟨m', size⟩) 0 = .ok (l', ⟨m', size⟩) ∧
      ∀ (names : List Key) (n : Nat) (wentry : Nat → WalkEntry) (fuel : Nat)
        (malloc : Key → Nat) (heap' : Mem Byte), (∀ k ∈ names, ShortKey k) → n + 1 < 2 ^ 64 →
        size ≤ fuel →
        (∀ w ∈ vars, ∀ w' ∈ vars, w.name ≠ w'.name →
          malloc w.name + w.size.toNat ≤ malloc w'.name ∨
          malloc w'.name + w'.size.toNat ≤ malloc w.name) →
        ∃ s', (NvsStore.ctor l' ⟨m', size⟩ heap').consume wentry fuel malloc
            (requests names (n + 1)) = .ok ((requests names (n + 1)).map (fun q =>
              if q.1 ≤ kept.length ∧ Readable vars q.2 then .noError else .idNotFound), s') ∧
          ∀ w ∈ vars, w.name ∈ names → Readable vars w.name →
            ∃ r, kept[min (n + 1) kept.length - 1]? = some r ∧
              load s'.heap (malloc w.name) w.size.toNat = load r.heap w.ptr w.size.toNat := by
  obtain ⟨hstart, hlen₀⟩ := Node.start_at hsize hnew halloc
  obtain ⟨items, hc, hlen⟩ := hstart.snapshots hsnap
  rw [List.nil_append] at hc
  have hlen : c.store.file.len = size := hlen.trans hlen₀
  rw [← hlen] at hin ⊢
  obtain ⟨kept, items', hkept, harch, hr⟩ := hc.crash next hcut hin himg
  have hM : Holding vars s.objectMap := by
    intro q
    rw [(NvsStore.allocAll_ok halloc).2.2 q]
    exact or_iff_right List.not_mem_nil
  have hne : kept ≠ [] := by
    obtain rfl | rfl := hkept
    · exact hrounds
    · exact List.append_ne_nil_of_right_ne_nil _ (List.cons_ne_nil _ _)
  have hpos : 1 ≤ kept.length := List.length_pos_iff.mpr hne
  refine ⟨kept, handleOn _ _, hkept, ctor_reopen hr, ?_⟩
  intro names n wentry fuel malloc heap' hnames hn hfuel hapart
  obtain ⟨s', hrun, hheap⟩ := consume_archive hM hshort hvars hne harch hr hnames hn wentry hfuel
    malloc (handleOn _ _) heap'
  refine ⟨s', ?_, ?_⟩
  · rw [hrun, codes, List.map_congr_left fun q hq => ?_]
    obtain ⟨-, hlo, -⟩ := mem_requests hq
    by_cases hok : q.1 ≤ kept.length ∧ Readable vars q.2
    · rw [if_pos hok, if_pos ((saved_isSome_iff hM _ _).mpr ⟨⟨hlo, hok.1⟩, hok.2⟩)]
    · rw [if_neg hok, if_neg fun h => hok ?_]
      obtain ⟨⟨-, hle⟩, hread⟩ := (saved_isSome_iff hM _ _).mp h
      exact ⟨hle, hread⟩
  · intro w hw hname hread
    have hsome : ∀ v, 1 ≤ v → v ≤ kept.length → (saved s.objectMap kept w.name v).isSome :=
      fun v hlo hhi => (saved_isSome_iff hM _ _).mpr ⟨⟨hlo, hhi⟩, hread⟩
    have hbuf := load_copies (saved_roomy hM hapart) hname hsome
      (fun v hv => saved_eq_none_of_lt hv w.name) hpos heap' n
    obtain ⟨v, hv⟩ : ∃ v, min (n + 1) kept.length = v + 1 :=
      ⟨min (n + 1) kept.length - 1, by omega⟩
    rw [hv, saved_eq hM hw hread, lengthIn_eq hM hw, ← hheap] at hbuf
    obtain ⟨r, hr, hload⟩ := Option.map_eq_some_iff.mp hbuf
    rw [hv]
    exact ⟨r, hr, hload.symm⟩

end NvStream
