/-
  The two programs that write and read checkpoints, through the wrapper they are built with.

  `wrapper.cc` is what an application sees of the store: `alloc` for each of its variables, and
  `nvs_snapshot_` at the end of each round.  `pseq_reader.cc` runs later, in another process, and asks
  for every version of every variable.  Both get their store from `StoreManager`, which in the default
  build puts a `TimingStore` before it.  The wrapper cuts the white space off the names, on both sides:

      alloc("a ")                   files the variable under "a"
      alloc("a"), alloc("a ")       the second leaves the process
      get_with_malloc("a ", v)      searches for "a"

  `Producer.node_snapshots`, `TimingStore.store_allocAll` and `TimingStore.consume_of_store` say that
  behind the wrapper the two programs are those of `NvStream.NvsStore.Checkpoint`, on trimmed names;
  `checkpoint_restart` carries its result over.
-/
import NvStream.NvsStore.Checkpoint
import NvStream.Stores.Timing

namespace NvStream

open FlatMem LittleEndian LoadProg PersistTrace

/-! ## The producer -/

/-- The variable as the wrapper files it. -/
def Var.trimmed (w : Var) : Var := { w with name := trimRight w.name }

/-- `alloc` of `wrapper.cc`, for one variable after the other. -/
def TimingStore.allocAll : TimingStore → List Var → Except Stop TimingStore
  | t, [] => .ok t
  | t, w :: vars =>
    match t.createObj w.name w.size w.ptr with
    | .error stop => .error stop
    | .ok (_, _, t') => t'.allocAll vars

/-- The producer's process, and the persistent memory its log is in. -/
structure Producer where
  timing : TimingStore
  mem : PMem Byte

namespace Producer

/-- The producer without the wrapper. -/
def node (p : Producer) : Node := ⟨p.timing.store, p.mem⟩

/-- The application computes and calls `nvs_snapshot_` of `wrapper.cc`. -/
def snapshot (p : Producer) (clock : Clock) (r : Round) : Except Stop Producer :=
  match (p.timing.withHeap r.heap).putAll clock r.lEntry with
  | .error stop => .error stop
  | .ok (_, t') => .ok ⟨t', p.mem.run ((p.node.append r).trace p.timing.store.log)⟩

def snapshots : Producer → List (Clock × Round) → Except Stop Producer
  | p, [] => .ok p
  | p, (clock, r) :: rounds =>
    match p.snapshot clock r with
    | .error stop => .error stop
    | .ok p' => p'.snapshots rounds

end Producer

/-- **Behind the wrapper `alloc` is `create_obj` of the trimmed name.** -/
theorem TimingStore.store_allocAll {vars : List Var} : ∀ {t t' : TimingStore},
    t.allocAll vars = .ok t' → t.store.allocAll (vars.map Var.trimmed) = .ok t'.store := by
  induction vars with
  | nil =>
    intro t t' h
    cases h
    rfl
  | cons w vars ih =>
    intro t t' h
    rw [allocAll] at h
    split at h
    · cases h
    · rename_i t₁ hcreate
      obtain ⟨a, hstore, heq⟩ := Except.map_eq_ok hcreate
      have ht₁ : t₁.store = a.2.2 := by
        cases heq
        rfl
      have hrest := ih h
      rw [ht₁] at hrest
      have hcall : t.store.createObj w.trimmed.name w.trimmed.size w.trimmed.ptr = .ok a := hstore
      rw [List.map_cons, NvsStore.allocAll, hcall]
      exact hrest

/-- Behind the wrapper a round is a round. -/
theorem Producer.node_snapshot {p p' : Producer} {clock : Clock} {r : Round}
    (h : p.snapshot clock r = .ok p') : p.node.snapshot r = .ok p'.node := by
  rw [snapshot] at h
  split at h
  · cases h
  · rename_i t' hput
    cases h
    obtain ⟨a, hstore, heq⟩ := Except.map_eq_ok hput
    cases heq
    have hcall : ({ p.node.store with heap := r.heap } : NvsStore).putAll r.lEntry = .ok a := hstore
    rw [Node.snapshot, hcall]
    rfl

theorem Producer.node_snapshots {rounds : List (Clock × Round)} : ∀ {t : TimingStore}
    {mem : PMem Byte} {p' : Producer}, snapshots ⟨t, mem⟩ rounds = .ok p' →
    Node.snapshots ⟨t.store, mem⟩ (rounds.map Prod.snd) = .ok p'.node := by
  induction rounds with
  | nil =>
    intro t mem p' h
    cases h
    rfl
  | cons cr rounds ih =>
    intro t mem p' h
    obtain ⟨clock, r⟩ := cr
    rw [snapshots] at h
    split at h
    · cases h
    · rename_i p₁ hone
      have hnode : Node.snapshot ⟨t.store, mem⟩ r = .ok p₁.node := node_snapshot hone
      rw [List.map_cons, Node.snapshots, hnode]
      exact ih h

/-! ## The consumer -/

/-- `get_with_malloc` of `pseq_reader.cc`, for one version and variable after the other. -/
def TimingStore.consume (clock : Nat → Clock) (wentry : Nat → WalkEntry) (fuel : Nat)
    (malloc : Key → Nat) :
    TimingStore → List (Nat × Key) → Except Stop (List ErrorCode × TimingStore)
  | t, [] => .ok ([], t)
  | t, (v, k) :: rest =>
    match t.getWithMalloc (clock rest.length) (wentry rest.length) fuel k (UInt64.ofNat v)
      (malloc (trimRight k)) with
    | .error stop => .error stop
    | .ok (code, _, t') =>
      (t'.consume clock wentry fuel malloc rest).map (fun r => (code :: r.1, r.2))

/-- The requests as the wrapper hands them on. -/
theorem map_requests (names : List Key) (n : Nat) :
    (requests names n).map (fun q => (q.1, trimRight q.2)) = requests (names.map trimRight) n := by
  induction n with
  | zero => rfl
  | succ n ih =>
    rw [requests, requests, List.map_append, ih, List.map_map, List.map_map]
    rfl

/-- **Behind the wrapper the consumer asks for the trimmed names.** -/
theorem TimingStore.consume_of_store (clock : Nat → Clock) {wentry : Nat → WalkEntry} {fuel : Nat}
    {malloc : Key → Nat} {qs : List (Nat × Key)} : ∀ {t : TimingStore} {cs : List ErrorCode}
    {s' : NvsStore},
    t.store.consume wentry fuel malloc (qs.map (fun q => (q.1, trimRight q.2))) = .ok (cs, s') →
    ∃ t', t.consume clock wentry fuel malloc qs = .ok (cs, t') ∧ t'.store = s' := by
  induction qs with
  | nil =>
    intro t cs s' h
    cases h
    exact ⟨t, rfl, rfl⟩
  | cons q qs ih =>
    intro t cs s' h
    obtain ⟨v, k⟩ := q
    rw [List.map_cons, NvsStore.consume, List.length_map] at h
    split at h
    · cases h
    · rename_i code addr s₁ hcall
      obtain ⟨t₁, htimed, hstore⟩ := getWithMalloc_of_store hcall (clock qs.length)
      obtain ⟨⟨cs', s''⟩, hrest, heq⟩ := Except.map_eq_ok h
      cases heq
      rw [← hstore] at hrest
      obtain ⟨t', hconsume, ht'⟩ := ih hrest
      refine ⟨t', ?_, ht'⟩
      rw [consume, htimed]
      exact congrArg (Except.map _) hconsume

/-! ## The two together -/

/-- **Checkpoint and restart.**  A producer allocates at least one variable on a new log and finishes
    `rounds`, at least one; in the round after that the power fails at any store, and any of the stores
    that were not fenced are lost.  Then the log can be opened, and it holds the checkpoints `kept`: all
    that were finished, and perhaps the one that was cut.  A consumer that asks for the versions 1 to
    `n + 1` of some names is answered for every checkpoint and every variable but the greatest, and
    ends with the contents each variable had at the newest of these checkpoints.  Names are meant
    without the white space at their end; that much of them fits into the log. -/
theorem checkpoint_restart {size : Nat} {l : Log} {f : File} {heap : Mem Byte} {tsc : UInt64}
    (hsize : sizeofLhdr ≤ size) (hnew : Log.ctor none size = .ok (l, f)) {vars : List Var}
    (hshort : ∀ w ∈ vars, ShortKey (trimRight w.name)) (hvars : vars ≠ []) {t : TimingStore}
    (halloc : (TimingStore.ctor (NvsStore.ctor l f heap) tsc).allocAll vars = .ok t)
    {rounds : List (Clock × Round)} (hrounds : rounds ≠ []) {p : Producer}
    (hsnap : Producer.snapshots ⟨t, (Durable.create l size).mem⟩ rounds = .ok p) (next : Round)
    {cut : List (Op Byte)} (hcut : cut <+: (p.node.append next).trace p.timing.store.log)
    (hin : ∀ o ∈ cut, InMap size o) {m' : Mem Byte} (himg : (p.mem.run cut).Image m') :
    ∃ kept l', (kept = rounds.map Prod.snd ∨ kept = rounds.map Prod.snd ++ [next]) ∧
      Log.ctor (some ⟨m', size⟩) 0 = .ok (l', ⟨m', size⟩) ∧
      ∀ (names : List Key) (n : Nat) (clock : Nat → Clock) (wentry : Nat → WalkEntry) (fuel : Nat)
        (malloc : Key → Nat) (heap' : Mem Byte) (tsc' : UInt64),
        (∀ k ∈ names, ShortKey (trimRight k)) → n + 1 < 2 ^ 64 → size ≤ fuel →
        (∀ w ∈ vars, ∀ w' ∈ vars, trimRight w.name ≠ trimRight w'.name →
          malloc (trimRight w.name) + w.size.toNat ≤ malloc (trimRight w'.name) ∨
          malloc (trimRight w'.name) + w'.size.toNat ≤ malloc (trimRight w.name)) →
        ∃ t', (TimingStore.ctor (NvsStore.ctor l' ⟨m', size⟩ heap') tsc').consume clock wentry fuel
            malloc (requests names (n + 1)) = .ok ((requests names (n + 1)).map (fun q =>
              if q.1 ≤ kept.length ∧ Readable (vars.map Var.trimmed) (trimRight q.2) then .noError
              else .idNotFound), t') ∧
          ∀ w ∈ vars, trimRight w.name ∈ names.map trimRight →
            Readable (vars.map Var.trimmed) (trimRight w.name) →
            ∃ r, kept[min (n + 1) kept.length - 1]? = some r ∧
              load t'.store.heap (malloc (trimRight w.name)) w.size.toNat =
                load r.heap w.ptr w.size.toNat := by
  have hshort' : ∀ w ∈ vars.map Var.trimmed, ShortKey w.name := List.forall_mem_map.mpr hshort
  have halloc' : (NvsStore.ctor l f heap).allocAll (vars.map Var.trimmed) = .ok t.store :=
    TimingStore.store_allocAll halloc
  have hsnap' : Node.snapshots ⟨t.store, (Durable.create l size).mem⟩ (rounds.map Prod.snd) =
      .ok p.node := Producer.node_snapshots hsnap
  have hvars' : vars.map Var.trimmed ≠ [] := fun h => hvars (List.map_eq_nil_iff.mp h)
  have hrounds' : rounds.map Prod.snd ≠ [] := fun h => hrounds (List.map_eq_nil_iff.mp h)
  obtain ⟨kept, l', hkept, hopen, hreads⟩ := restart_reads hsize hnew hshort' hvars' halloc' hrounds'
    hsnap' next hcut hin himg
  refine ⟨kept, l', hkept, hopen, ?_⟩
  intro names n clock wentry fuel malloc heap' tsc' hnames hn hfuel hapart
  obtain ⟨s', hrun, hbuf⟩ := hreads (names.map trimRight) n wentry fuel malloc heap'
    (List.forall_mem_map.mpr hnames) hn hfuel
    (List.forall_mem_map.mpr fun w hw => List.forall_mem_map.mpr fun w' hw' => hapart w hw w' hw')
  rw [← map_requests] at hrun
  simp only [List.map_map, Function.comp_def] at hrun
  obtain ⟨t', hconsume, hstore⟩ := TimingStore.consume_of_store clock
    (t := TimingStore.ctor (NvsStore.ctor l' ⟨m', size⟩ heap') tsc') hrun
  refine ⟨t', hconsume, fun w hw hname hread => ?_⟩
  obtain ⟨r, hr, hload⟩ := hbuf w.trimmed (List.mem_map_of_mem hw) hname hread
  rw [hstore]
  exact ⟨r, hr, hload⟩

/-- Two variables of four bytes, "a " and "b". -/
def paddedVars : List Var := [⟨[97, 32], 4, 4096⟩, ⟨[98], 4, 8192⟩]

/-- A round in which the application fills its memory with one byte. -/
def fillRound (b : Byte) : Round := ⟨fun _ => b, fun _ => blankHdr⟩

/-- A producer of these variables has finished one round. -/
theorem one_round : ∃ l f t p, Log.ctor none logSize = .ok (l, f) ∧
    (TimingStore.ctor (NvsStore.ctor l f (fun _ => 0)) 0).allocAll paddedVars = .ok t ∧
    Producer.snapshots ⟨t, (Durable.create l logSize).mem⟩ [(⟨1, 2⟩, fillRound 9)] = .ok p := by
  obtain ⟨l, f, hnew, hr, hs, hlen⟩ := ctor_ok logSize (by decide)
  generalize hmem : (Durable.create l logSize).mem = mem
  obtain ⟨t, halloc, hlog, hfile, hobjs⟩ : ∃ t,
      (TimingStore.ctor (NvsStore.ctor l f (fun _ => 0)) 0).allocAll paddedVars = .ok t ∧
      t.store.log = l ∧ t.store.file = f ∧
      t.store.objectMap.entries.map Prod.snd = (paddedVars.map Var.trimmed).map Var.object :=
    ⟨_, rfl, rfl, rfl, rfl⟩
  obtain ⟨n, s', hput⟩ := NvsStore.putAll_of_fits (s := { t.store with heap := fun _ => 9 })
    (by rw [hfile]; exact hr) (by rw [hlog, hfile]; exact hs) (fun _ => blankHdr) hobjs (by decide)
    (by rw [hfile, hlen]; decide)
  obtain ⟨p, hp⟩ : ∃ p, Producer.snapshot ⟨t, mem⟩ ⟨1, 2⟩ (fillRound 9) = .ok p := by
    obtain ⟨t', htimed⟩ : ∃ t', (t.withHeap (fun _ => 9)).putAll ⟨1, 2⟩ (fun _ => blankHdr) =
        .ok (n, t') := ⟨_, congrArg (Except.map _) hput⟩
    refine ⟨⟨t', mem.run ((Producer.node ⟨t, mem⟩).append (fillRound 9) |>.trace t.store.log)⟩, ?_⟩
    rw [Producer.snapshot]
    exact htimed ▸ rfl
  refine ⟨l, f, t, p, hnew, halloc, ?_⟩
  rw [hmem, Producer.snapshots, hp]
  rfl

theorem shortKey_two : ∀ k ∈ [[97], [98]], ShortKey (trimRight k) := by
  simp only [ShortKey]
  decide

/-- The consumer asks for "a" and "b".  It gets the variable that was allocated as "a ", and nothing of
    "b". -/
theorem checkpoint_restart_two_variables : ∃ l f t p m' l' t',
    Log.ctor none logSize = .ok (l, f) ∧
    (TimingStore.ctor (NvsStore.ctor l f (fun _ => 0)) 0).allocAll paddedVars = .ok t ∧
    Producer.snapshots ⟨t, (Durable.create l logSize).mem⟩ [(⟨1, 2⟩, fillRound 9)] = .ok p ∧
    (p.mem.run []).Image m' ∧ Log.ctor (some ⟨m', logSize⟩) 0 = .ok (l', ⟨m', logSize⟩) ∧
    (TimingStore.ctor (NvsStore.ctor l' ⟨m', logSize⟩ (fun _ => 0)) 3).consume (fun _ => ⟨4, 5⟩)
      (fun _ => blankWalk) logSize (fun k => if k = [97] then 100 else 200)
      (requests [[97], [98]] 1) = .ok ([.noError, .idNotFound], t') ∧
    load t'.store.heap 100 4 = [9, 9, 9, 9] := by
  obtain ⟨l, f, t, p, hnew, halloc, hsnap⟩ := one_round
  have himg : (p.mem.run []).Image _ := ⟨[], List.nil_sublist _, rfl⟩
  have hshort : ∀ w ∈ paddedVars, ShortKey (trimRight w.name) := by
    simp only [ShortKey]
    decide
  obtain ⟨kept, l', hkept, hopen, hreads⟩ := checkpoint_restart (by decide) hnew hshort
    (List.cons_ne_nil _ _) halloc (List.cons_ne_nil _ _) hsnap (fillRound 5) List.nil_prefix
    (fun o ho => absurd ho List.not_mem_nil) himg
  obtain ⟨t', hrun, hbuf⟩ := hreads [[97], [98]] 0 (fun _ => ⟨4, 5⟩) (fun _ => blankWalk) logSize
    (fun k => if k = [97] then 100 else 200) (fun _ => 0) 3 shortKey_two (by decide) (le_refl _)
    (by decide)
  obtain ⟨r, hr, hload⟩ := hbuf ⟨[97, 32], 4, 4096⟩ List.mem_cons_self (by decide) (by decide)
  have hfirst : kept[0]? = some (fillRound 9) ∧ 1 ≤ kept.length := by
    obtain rfl | rfl := hkept
    · exact ⟨rfl, by decide⟩
    · exact ⟨rfl, by decide⟩
  rw [Nat.min_eq_left hfirst.2, hfirst.1] at hr
  cases hr
  refine ⟨l, f, t, p, _, l', t', hnew, halloc, hsnap, himg, hopen, ?_, hload⟩
  rw [hrun]
  have ha : 1 ≤ kept.length ∧ Readable (paddedVars.map Var.trimmed) (trimRight [97]) :=
    ⟨hfirst.2, by decide⟩
  have hb : ¬ (1 ≤ kept.length ∧ Readable (paddedVars.map Var.trimmed) (trimRight [98])) :=
    fun h => absurd h.2 (by decide)
  show Except.ok ([if 1 ≤ kept.length ∧ Readable (paddedVars.map Var.trimmed) (trimRight [97])
      then ErrorCode.noError else .idNotFound,
    if 1 ≤ kept.length ∧ Readable (paddedVars.map Var.trimmed) (trimRight [98])
      then .noError else .idNotFound], t') = _
  rw [if_pos ha, if_neg hb]

end NvStream
