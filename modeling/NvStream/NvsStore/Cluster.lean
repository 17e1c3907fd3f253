/-
  Many processes on one log, one of them writing, and the power may fail.

  Every process has an `NVSStore` on the same log file, its own objects and its own heap (`Proc`).
  They take turns (`Interleave.Pool`); a turn is ONE store or fence of a `put` or `put_all`, ONE load
  of a `get` or `get_with_malloc`, or a call that only touches the process itself.  Any process may
  read at any time.  Only the process `writer` appends; a process that opens the log may take over
  that role while nobody is inside an append.  The file is in persistent memory: at any moment the
  power may fail, which ends every process and leaves the durable bytes with any selection of the
  stores that were not fenced yet.

  Ghosts say what happened.  `items` is what `hdr->tail` has published, `returned` what the calls that
  have returned (or that a power failure has turned out to have kept) left in the log.  A reader in
  progress remembers `items` at its call (`start`) and at its load of `hdr->tail` (`snap`).

  `Cluster.Inv` has two independent parts.  Seen by the processors, the system is that of
  `NvStream.Log.Readers`: the writer's facts are `Writer.Ok`, and readers are right because nobody
  stores below the tail.  Seen by the memory, an append that has been cut is that of
  `NvStream.Log.Crash`: `InCall` remembers where the append started, and `crash_rep` does the rest.
-/
import NvStream.NvsStore.Reading
import NvStream.Log.Readers
import NvStream.Lib.Interleave

namespace NvStream

open FlatMem LittleEndian LoadProg PersistTrace Interleave

/-! ## A writer's call -/

/-- What a `put` or `put_all` has prepared when it calls `appendv`. -/
structure Prepared where
  /-- The buffers. -/
  vec : List IoVec
  /-- The objects when the call returns. -/
  objectMap : SortedMap Key Object
  reply : Reply
  /-- The entry those buffers are. -/
  item : Item

/-- The process after the call: `appendv` has left the handle `log`. -/
def Prepared.left (w : Prepared) (p : Proc) (log : Log) : Proc :=
  { p with log := log, objectMap := w.objectMap }

/-- What a process does up to its `appendv`, if the call gets there.  (A batch of `2 ^ 64` bytes does
    not fit into the address space its objects are in.) -/
def Proc.prepare (p : Proc) : Call → Option Prepared
  | .put lEntry key version =>
    match p.objectMap.find? key with
    | none => none
    | some obj => some {
        vec := [(lEntry.fill obj version).iov, obj.iov p.heap]
        objectMap := p.objectMap.modify key (fun obj => obj.setVersion version)
        reply := .code .noError
        item := .single ⟨lEntry, obj.toRec p.heap version⟩ }
  | .putAll lEntry =>
    let objs := p.objectMap.entries.map Prod.snd
    if h : 1 + 2 * objs.length < 2 ^ 31 ∧
        (batchBytes (NvsStore.batch p.heap lEntry 1 objs)).length < 2 ^ 64 then some {
      vec := ((lEntry 0).outer (NvsStore.totCnt objs)).iov :: NvsStore.innerIov p.heap lEntry 1 objs
      objectMap := p.objectMap.mapVal (fun _ obj => obj.setVersion (obj.version + 1))
      reply := .bytes (u64 (NvsStore.totCnt objs + sizeofLehdr))
      item := .multiple (lEntry 0) (NvsStore.batch p.heap lEntry 1 objs) h.2 }
    else none
  | _ => none

theorem Proc.prepare_put {p : Proc} {key : Key} {obj : Object}
    (hfind : p.objectMap.find? key = some obj) (lEntry : LeHdr) (version : UInt64) :
    p.prepare (.put lEntry key version) = some {
      vec := [(lEntry.fill obj version).iov, obj.iov p.heap]
      objectMap := p.objectMap.modify key (fun obj => obj.setVersion version)
      reply := .code .noError
      item := .single ⟨lEntry, obj.toRec p.heap version⟩ } := by
  rw [prepare, hfind]

/-- **The buffers are the entry.** -/
theorem Proc.gather_prepare {p : Proc} {cl : Call} {w : Prepared} (h : p.prepare cl = some w) :
    gather w.vec = w.item.entry.bytes := by
  cases cl with
  | put lEntry key version =>
    cases hfind : p.objectMap.find? key with
    | none =>
      rw [prepare, hfind] at h
      cases h
    | some obj =>
      obtain rfl := Option.some.inj ((prepare_put hfind lEntry version).symm.trans h)
      rw [gather_record]
      exact List.append_nil _
  | putAll lEntry =>
    rw [prepare] at h
    split at h
    · rename_i hfits
      cases h
      exact NvsStore.gather_batch hfits.2
    · cases h
  | createObj | freeObj | get | getWithMalloc | appWrite => cases h

/-- **A call that gets to its `appendv` is that `appendv`.** -/
theorem Proc.call_of_prepare {p : Proc} {cl : Call} {w : Prepared} (h : p.prepare cl = some w)
    (f : File) : (p.on f).call cl =
      (p.log.appendv f w.vec).map (fun r => (w.reply, (w.left p r.1).on r.2)) := by
  cases cl with
  | put lEntry key version =>
    cases hfind : p.objectMap.find? key with
    | none =>
      rw [prepare, hfind] at h
      cases h
    | some obj =>
      obtain rfl := Option.some.inj ((prepare_put hfind lEntry version).symm.trans h)
      show ((p.on f).put lEntry key version).map _ = _
      unfold NvsStore.put
      rw [show (p.on f).objectMap.find? key = some obj from hfind]
      dsimp only [Proc.on]
      cases p.log.appendv f [(lEntry.fill obj version).iov, obj.iov p.heap] <;> rfl
  | putAll lEntry =>
    rw [prepare] at h
    split at h
    · rename_i hfits
      cases h
      show ((p.on f).putAll lEntry).map _ = _
      unfold NvsStore.putAll
      dsimp only [Proc.on]
      rw [if_pos hfits.1]
      cases p.log.appendv f (((lEntry 0).outer (NvsStore.totCnt
        (p.objectMap.entries.map Prod.snd))).iov ::
          NvsStore.innerIov p.heap lEntry 1 (p.objectMap.entries.map Prod.snd)) <;> rfl
    · cases h
  | createObj | freeObj | get | getWithMalloc | appWrite => cases h

/-- A call that touches nothing but the process: no getter, and no append. -/
def Call.Quiet (p : Proc) : Call → Prop
  | .createObj .. | .freeObj .. | .appWrite .. => True
  | .put _ key _ => p.objectMap.find? key = none
  | _ => False

/-- A quiet call leaves the handle and the file alone. -/
theorem Call.Quiet.log_eq {p : Proc} {cl : Call} (hq : cl.Quiet p) {f : File} {r : Reply}
    {s' : NvsStore} (h : (p.on f).call cl = .ok (r, s')) : s'.log = p.log ∧ s'.file = f := by
  cases cl with
  | createObj key size tmpPtr =>
    obtain ⟨⟨code, addr, s₁⟩, ha, rfl⟩ := Except.map_eq_ok_snd h
    obtain ⟨_, rfl⟩ := NvsStore.createObj_eq ha
    exact ⟨rfl, rfl⟩
  | freeObj objAddr =>
    obtain ⟨⟨code, s₁⟩, ha, rfl⟩ := Except.map_eq_ok_snd h
    obtain ⟨_, _, _, _, rfl⟩ := NvsStore.freeObj_eq ha
    exact ⟨rfl, rfl⟩
  | appWrite addr bs =>
    obtain ⟨_, rfl⟩ := Prod.mk.inj (Except.ok.inj h)
    exact ⟨rfl, rfl⟩
  | put lEntry key version =>
    obtain ⟨⟨code, s₁⟩, ha, rfl⟩ := Except.map_eq_ok_snd h
    rcases NvsStore.put_eq ha with ⟨_, _, rfl⟩ | ⟨obj, _, _, hfind, _⟩
    · exact ⟨rfl, rfl⟩
    · exact absurd (hfind.symm.trans hq) (by simp)
  | putAll | get | getWithMalloc => exact absurd hq id

/-! ## The system -/

/-- A query that has returned, with what was published when it was called, when it loaded `hdr->tail`,
    and when it returned. -/
structure Read where
  query : Query
  before : Proc
  start : List Item
  snap : List Item
  finish : List Item
  reply : Reply
  after : Proc

/-- What a process is doing. -/
inductive Phase where
  /-- Between calls. -/
  | idle (p : Proc)
  /-- Inside a getter, with the loads it has left. -/
  | reading (p : Proc) (q : Query) (start : List Item) (snap : Option (List Item))
      (todo : Prog Stop Byte (Option (List Byte)))
  /-- Inside an append of `it`, with the stores it has left; the call will leave `p`. -/
  | writing (p : Proc) (todo : List (Op Byte)) (it : Item)
  /-- Not running. -/
  | down

/-- One process: its finished queries, and what it is doing. -/
structure Worker where
  reads : List Read
  phase : Phase

/-- What the processes share. -/
structure Medium where
  mem : PMem Byte
  len : Nat
  /-- The process that may append. -/
  writer : Nat
  items : List Item
  returned : List Item

/-- The log file as the processes see it. -/
def Medium.file (s : Medium) : File := ⟨s.mem.view, s.len⟩

/-- The bytes of what is published. -/
def Medium.body (s : Medium) : List Byte := encode (s.items.map Item.entry)

/-- The processes around one log file. -/
abbrev Cluster := Pool Nat Medium Worker

namespace Phase

/-- Inside an append. -/
def Writing : Phase → Prop
  | writing .. => True
  | _ => False

/-- What the append in progress would add. -/
def inFlight : Phase → List Item
  | writing _ _ it => [it]
  | _ => []

end Phase

namespace Cluster

/-- Process `i` goes on to `ph`. -/
def goOn (c : Cluster) (i : Nat) (s' : Medium) (ph : Phase) : Cluster :=
  c.move i s' ⟨(c.place i).reads, ph⟩

/-- What a power failure that left `m'` has kept: what had returned, and the append in progress if
    `hdr->tail` has moved. -/
def survivors (c : Cluster) (m' : Mem Byte) : List Item :=
  if word m' tailOff = 32 + (encode (c.shared.returned.map Item.entry)).length then
    c.shared.returned
  else c.shared.returned ++ (c.place c.shared.writer).phase.inFlight

/-- One turn of one process, or a power failure. -/
inductive Step : Cluster → Cluster → Prop
  -- calls that touch nothing but the process
  | call {c : Cluster} {p : Proc} {r : Reply} {s' : NvsStore} (i : Nat) (cl : Call)
      (hp : (c.place i).phase = .idle p) (hq : cl.Quiet p)
      (h : (p.on c.shared.file).call cl = .ok (r, s')) :
      Step c (c.goOn i c.shared (.idle s'.proc))
  -- a getter, load by load
  | ask {c : Cluster} {p : Proc} (i : Nat) (q : Query) (hp : (c.place i).phase = .idle p) :
      Step c (c.goOn i c.shared (.reading p q c.shared.items none (q.loads c.shared.len)))
  | load {c : Cluster} {p : Proc} {q : Query} {start : List Item} {snap : Option (List Item)}
      {off n : Nat} {k : List Byte → Prog Stop Byte (Option (List Byte))} (i : Nat)
      (hp : (c.place i).phase = .reading p q start snap (.load off n k))
      (hin : n = 0 ∨ off + n ≤ c.shared.len) :
      Step c (c.goOn i c.shared (.reading p q start
        (snap.or (if off = tailOff ∧ n = 8 then some c.shared.items else none))
        (k (FlatMem.load c.shared.mem.view off n))))
  | answer {c : Cluster} {p : Proc} {q : Query} {start es : List Item} {r : Option (List Byte)}
      (i : Nat) (hp : (c.place i).phase = .reading p q start (some es) (.ret r)) :
      Step c (c.move i c.shared ⟨(c.place i).reads ++ [⟨q, p, start, es, c.shared.items,
        (q.complete p r).1, (q.complete p r).2⟩], .idle (q.complete p r).2⟩)
  -- an append, store by store
  | enter {c : Cluster} {p : Proc} {w : Prepared} (i : Nat) (cl : Call)
      (hp : (c.place i).phase = .idle p) (hw : i = c.shared.writer) (hcl : p.prepare cl = some w)
      (hspace : p.log.HasSpace (Append.appendv w.vec).need) :
      Step c (c.goOn i c.shared (.writing (w.left p ((Append.appendv w.vec).after p.log))
        ((Append.appendv w.vec).trace p.log) w.item))
  | store {c : Cluster} {p : Proc} {o : Op Byte} {todo : List (Op Byte)} {it : Item} (i : Nat)
      (hp : (c.place i).phase = .writing p (o :: todo) it) (hin : InMap c.shared.len o) :
      Step c (c.goOn i { c.shared with
        mem := c.shared.mem.issue o
        items := if storesTail o then c.shared.items ++ [it] else c.shared.items }
        (.writing p todo it))
  | leave {c : Cluster} {p : Proc} {it : Item} (i : Nat)
      (hp : (c.place i).phase = .writing p [] it) :
      Step c (c.goOn i { c.shared with returned := c.shared.returned ++ [it] } (.idle p))
  -- a process ends: the space check calls `exit(1)`, a load or store leaves the mapping, or it was
  -- between calls
  | refuse {c : Cluster} {p : Proc} {w : Prepared} (i : Nat) (cl : Call)
      (hp : (c.place i).phase = .idle p) (hw : i = c.shared.writer) (hcl : p.prepare cl = some w)
      (hspace : ¬ p.log.HasSpace (Append.appendv w.vec).need) : Step c (c.goOn i c.shared .down)
  | fault {c : Cluster} {p : Proc} {o : Op Byte} {todo : List (Op Byte)} {it : Item} (i : Nat)
      (hp : (c.place i).phase = .writing p (o :: todo) it) (hout : ¬ InMap c.shared.len o) :
      Step c (c.goOn i c.shared .down)
  | stop {c : Cluster} (i : Nat) (hp : ¬ (c.place i).phase.Writing) :
      Step c (c.goOn i c.shared .down)
  -- a process opens the log, and may become the writer
  | start {c : Cluster} {l : Log} {f : File} (i : Nat) (heap : Mem Byte) (w : Nat)
      (hp : (c.place i).phase = .down) (h : Log.ctor (some c.shared.file) 0 = .ok (l, f))
      (hw : w = c.shared.writer ∨ w = i ∧ ¬ (c.place c.shared.writer).phase.Writing) :
      Step c (c.goOn i { c.shared with writer := w } (.idle ⟨l, heap, .empty, .empty⟩))
  -- the power fails
  | crash {c : Cluster} {m' : Mem Byte} (hi : c.shared.mem.Image m') :
      Step c ⟨{ c.shared with
          mem := ⟨m', []⟩
          items := c.survivors m'
          returned := c.survivors m' },
        fun i => ⟨(c.place i).reads, .down⟩⟩

/-- A log just created by process 0; the others have not started. -/
def create (l : Log) (size : Nat) (heap : Mem Byte) : Cluster :=
  ⟨⟨(Durable.create l size).mem, size, 0, [], []⟩,
    fun i => ⟨[], if i = 0 then .idle ⟨l, heap, .empty, .empty⟩ else .down⟩⟩

end Cluster

/-- A getter does not change the handle. -/
theorem Query.log_complete (q : Query) (p : Proc) (r : Option (List Byte)) :
    (q.complete p r).2.log = p.log := by
  cases r <;> unfold Query.complete <;> cases q.getter <;> rfl

/-! ## The invariant -/

/-- **A finished query took effect at one moment between its call and its return**: it did to its
    process what the log, as it was published at that moment, answers. -/
structure Read.Linearized (r : Read) : Prop where
  start : r.start <+: r.snap
  finish : r.snap <+: r.finish
  result : r.query.Determined r.snap →
    (r.reply, r.after) = r.query.complete r.before (r.query.answer r.snap)

/-- An append in the middle, in a file that was a log of `body` when the call began: it has issued
    `done`, inside the mapping, and has `todo` left. -/
structure Append.Cut (a : Append) (len : Nat) (body : List Byte) (p₀ : PMem Byte) (l : Log)
    (done todo : List (Op Byte)) : Prop where
  rep : Rep ⟨p₀.durable, len⟩ body
  above : p₀.PendingIn (Set.Ici (32 + body.length))
  synced : l.Synced ⟨p₀.view, len⟩ body
  space : l.HasSpace a.need
  split : a.trace l = done ++ todo
  inMap : ∀ o ∈ done, InMap len o

/-- No append is in progress: what is published has returned and is durable, and everything that is
    not fenced lies above it. -/
structure Medium.Calm (s : Medium) : Prop where
  quiet : s.items = s.returned
  durable : Rep ⟨s.mem.durable, s.len⟩ s.body
  above : s.mem.PendingIn (Set.Ici (32 + s.body.length))

/-- An append of `it` is in progress, with `todo` left to issue.  `view` is what the processors see of
    it, `past` how it came about, which decides what a power failure would leave. -/
structure Medium.InCall (s : Medium) (p : Proc) (todo : List (Op Byte)) (it : Item) : Prop where
  view : Writer.Ok s.mem.view s.len (s.items.map Item.entry) (.busy p.log todo it.entry)
  stage : (s.items = s.returned ∧ ∃ o ∈ todo, storesTail o) ∨
    (s.items = s.returned ++ [it] ∧ ∀ o ∈ todo, o = .drain)
  past : ∃ (p₀ : PMem Byte) (done : List (Op Byte)) (l : Log) (a : Append),
    a.Cut s.len (encode (s.returned.map Item.entry)) p₀ l done todo ∧ s.mem = p₀.run done ∧
      a.data = it.entry.bytes

namespace Phase

/-- A reader is right so far: it has not loaded `hdr->tail` yet, or it will return what the entries
    below that tail answer. -/
def Reads (s : Medium) : Phase → Prop
  | reading _ q start none todo => start <+: s.items ∧ todo = q.loads s.len
  | reading _ q start (some es) todo => start <+: es ∧ es <+: s.items ∧ (q.Determined es →
      todo.Settles (entryRegion (es.map Item.entry)) s.mem.view (q.answer es))
  | _ => True

/-- What is known of the process that may append. -/
def Writes (s : Medium) : Phase → Prop
  | idle p => s.Calm ∧ p.log.Synced s.file s.body
  | reading p _ _ _ _ => s.Calm ∧ p.log.Synced s.file s.body
  | writing p todo it => s.InCall p todo it
  | down => s.Calm

end Phase

/-- What is known of process `i`. -/
structure Worker.Ok (i : Nat) (s : Medium) (w : Worker) : Prop where
  history : ∀ r ∈ w.reads, r.Linearized
  reader : w.phase.Reads s
  writer : i = s.writer → w.phase.Writes s
  others : i ≠ s.writer → ¬ w.phase.Writing

/-- A process inside a call is the one that may append. -/
theorem Worker.Ok.writing {i : Nat} {s : Medium} {w : Worker} (h : w.Ok i s) {p : Proc}
    {todo : List (Op Byte)} {it : Item} (hp : w.phase = .writing p todo it) :
    i = s.writer ∧ s.InCall p todo it := by
  have hw : i = s.writer := by
    by_contra hne
    have hno := h.others hne
    rw [hp] at hno
    exact hno trivial
  have hwr := h.writer hw
  rw [hp] at hwr
  exact ⟨hw, hwr⟩

/-- What is known of the file. -/
structure Medium.Ok (s : Medium) : Prop where
  rep : Rep s.file s.body
  grows : s.returned <+: s.items

/-- The whole system is right so far. -/
def Cluster.Inv (c : Cluster) : Prop := Holds Medium.Ok Worker.Ok (fun _ _ => True) c

/-! ## What a store of the append does -/

namespace Append

/-- An append that has the space stores `hdr->tail`, and ends with a fence. -/
theorem trace_of_space {a : Append} {l : Log} (h : l.HasSpace a.need) :
    (∃ o ∈ a.trace l, storesTail o) ∧ ∃ xs, a.trace l = xs ++ [Op.drain] := by
  rw [trace, if_pos h, persist]
  refine ⟨⟨Op.store tailOff (toLE 8 (u64 ((a.copy l.writeOffset).2 + wordLength))), by simp, rfl,
    length_toLE 8 _⟩, ?_⟩
  refine ⟨(a.copy l.writeOffset).1 ++ Op.drain :: (storeEach (a.copy l.writeOffset).2 commitWord ++
    (storeEach (a.copy l.writeOffset).2 commitWord ++
      [Op.drain, Op.store tailOff (toLE 8 (u64 ((a.copy l.writeOffset).2 + wordLength)))])), ?_⟩
  simp

namespace Cut

variable {a : Append} {len : Nat} {body : List Byte} {p₀ : PMem Byte} {l : Log}
  {done todo : List (Op Byte)} {o : Op Byte}

/-- One more store. -/
theorem step (h : a.Cut len body p₀ l done (o :: todo)) (hin : InMap len o) :
    a.Cut len body p₀ l (done ++ [o]) todo := by
  refine ⟨h.rep, h.above, h.synced, h.space, by rw [h.split, List.append_assoc]; rfl, ?_⟩
  intro o' ho'
  rcases List.mem_append.mp ho' with ho' | ho'
  · exact h.inMap o' ho'
  · rw [List.mem_singleton.mp ho']
    exact hin

/-- Done: nothing is pending. -/
theorem finished (h : a.Cut len body p₀ l done []) : (p₀.run done).pending = [] := by
  obtain ⟨xs, hxs⟩ := (trace_of_space h.space).2
  rw [show done = xs ++ [Op.drain] by rw [← hxs, h.split, List.append_nil], PMem.run_fenced]
  rfl

/-- **A store that leaves the mapping does so before anything below the tail was stored.** -/
theorem out_of_map (h : a.Cut len body p₀ l done (o :: todo)) (hout : ¬ InMap len o) :
    Rep ⟨(p₀.run done).durable, len⟩ body ∧
      (p₀.run done).PendingIn (Set.Ici (32 + body.length)) := by
  have hview : Rep ⟨p₀.view, len⟩ body := h.rep.congr (PMem.view_eqOn h.above)
  have hmem : o ∈ a.trace l := by
    rw [h.split]
    exact List.mem_append_right _ List.mem_cons_self
  rcases cut_cases hview h.synced a ⟨o :: todo, h.split.symm⟩ h.inMap with hfill | ⟨hfit, _⟩
  · obtain ⟨hpending, hdurable⟩ := PMem.run_within h.above hfill
    exact ⟨h.rep.congr hdurable, hpending⟩
  · -- an append that fits stays inside the mapping
    obtain ⟨_, _, hcall⟩ := Append.call_of_fits hview h.synced a hfit
    obtain ⟨_, htrace, _⟩ := Append.call_ok hview h.synced hcall
    have hfit' : 32 + body.length + a.data.length + 8 ≤ len - 1 := hfit
    rw [htrace] at hmem
    exact absurd (appendOps_inMap (by omega) (by omega) o hmem) hout

end Cut
end Append

/-- Behind the store of `hdr->tail` an append only fences. -/
theorem Writer.Ok.drains_of_storesTail {mem : Mem Byte} {len : Nat} {published : List Entry}
    {l : Log} {o : Op Byte} {todo : List (Op Byte)} {e : Entry}
    (h : Writer.Ok mem len published (.busy l (o :: todo) e)) (hin : InMap len o)
    (ho : storesTail o) : ∀ o' ∈ todo, o' = Op.drain := by
  cases h with
  | @filling _ rest _ _ htodo hrest hframe hfit hs =>
    cases rest with
    | nil =>
      obtain ⟨_, rfl⟩ := List.cons_eq_cons.mp htodo
      exact fun o' ho' => List.mem_singleton.mp ho'
    | cons o₁ rest =>
      obtain ⟨rfl, _⟩ := List.cons_eq_cons.mp htodo
      exact absurd ho (not_storesTail_of_within (hrest o List.mem_cons_self))
  | doomed hcut htail =>
    have hwithin := hcut [o] ⟨todo, rfl⟩ (fun o' ho' => by rw [List.mem_singleton.mp ho']; exact hin)
      o List.mem_cons_self
    exact absurd ho (not_storesTail_of_within hwithin)
  | closing htodo hs => exact fun o' ho' => htodo o' (List.mem_cons_of_mem o ho')

namespace Medium

variable {s : Medium} {p : Proc} {o : Op Byte} {todo : List (Op Byte)} {it : Item}

/-- The system after one more store of the append. -/
def stored (s : Medium) (o : Op Byte) (it : Item) : Medium :=
  { s with
    mem := s.mem.issue o
    items := if storesTail o then s.items ++ [it] else s.items }

theorem map_items_stored (s : Medium) (o : Op Byte) (it : Item) :
    (s.stored o it).items.map Item.entry = if storesTail o then s.items.map Item.entry ++ [it.entry]
      else s.items.map Item.entry := by
  rw [stored]
  dsimp only
  split
  · rw [List.map_append]
    rfl
  · rfl

/-- **One store of the append**: the file stays a log of what is published, nothing published has
    changed, and the append goes on. -/
theorem InCall.store (h : s.InCall p (o :: todo) it) (hok : s.Ok) (hin : InMap s.len o) :
    (s.stored o it).Ok ∧ (s.stored o it).InCall p todo it ∧
      s.items <+: (s.stored o it).items ∧
      Set.EqOn (s.stored o it).mem.view s.mem.view (entryRegion (s.items.map Item.entry)) := by
  obtain ⟨hr', hw', heq⟩ := h.view.store hok.rep hin
  rw [← map_items_stored] at hr' hw'
  have hview : (s.stored o it).mem.view = o.exec s.mem.view := PMem.view_issue _ _
  have hgrows : s.items <+: (s.stored o it).items := by
    rw [stored]
    dsimp only
    split
    · exact List.prefix_append _ _
    · exact List.prefix_rfl
  refine ⟨⟨?_, hok.grows.trans hgrows⟩, ⟨?_, ?_, ?_⟩, hgrows, by rw [hview]; exact heq⟩
  · rw [file, hview]
    exact hr'
  · rw [hview]
    exact hw'
  · rcases h.stage with ⟨hitems, o', ho', htail⟩ | ⟨hitems, hdrain⟩
    · by_cases ho : storesTail o
      · refine Or.inr ⟨?_, h.view.drains_of_storesTail hin ho⟩
        show (if storesTail o then s.items ++ [it] else s.items) = _
        rw [if_pos ho, hitems]
        rfl
      · refine Or.inl ⟨?_, o', ?_, htail⟩
        · show (if storesTail o then s.items ++ [it] else s.items) = _
          rw [if_neg ho]
          exact hitems
        · rcases List.mem_cons.mp ho' with rfl | ho'
          · exact absurd htail ho
          · exact ho'
    · refine Or.inr ⟨?_, fun o' ho' => hdrain o' (List.mem_cons_of_mem o ho')⟩
      show (if storesTail o then s.items ++ [it] else s.items) = _
      rw [hdrain o List.mem_cons_self, if_neg (show ¬ storesTail Op.drain from id)]
      exact hitems
  · obtain ⟨p₀, done, l, a, hcut, hmem, hdata⟩ := h.past
    refine ⟨p₀, done ++ [o], l, a, hcut.step hin, ?_, hdata⟩
    show s.mem.issue o = _
    rw [PMem.run_append, hmem]
    rfl

/-- **The end of the append**: the entry is published and durable. -/
theorem InCall.leave (h : s.InCall p [] it) (hok : s.Ok) :
    Calm { s with returned := s.returned ++ [it] } ∧ p.log.Synced s.file s.body := by
  obtain ⟨p₀, done, l, a, hcut, hmem, _⟩ := h.past
  have hpending : s.mem.pending = [] := by
    rw [hmem]
    exact hcut.finished
  have hview : s.mem.view = s.mem.durable := by
    rw [PMem.view, hpending]
    rfl
  have hitems : s.items = s.returned ++ [it] := by
    rcases h.stage with ⟨_, o, ho, _⟩ | ⟨hitems, _⟩
    · exact absurd ho List.not_mem_nil
    · exact hitems
  refine ⟨⟨hitems, ?_, ?_⟩, ?_⟩
  · show Rep ⟨s.mem.durable, s.len⟩ s.body
    rw [← hview]
    exact hok.rep
  · intro st hst
    rw [show (Medium.mem { s with returned := s.returned ++ [it] }) = s.mem from rfl, hpending] at hst
    exact absurd hst List.not_mem_nil
  · have hw := h.view
    cases hw with
    | filling htodo => simp at htodo
    | doomed hc htail =>
      obtain ⟨o, ho, _⟩ := htail
      exact absurd ho List.not_mem_nil
    | closing _ hs => exact hs

/-- An append that leaves the mapping leaves what had returned. -/
theorem InCall.fault (h : s.InCall p (o :: todo) it) (hout : ¬ InMap s.len o) : s.Calm := by
  obtain ⟨p₀, done, l, a, hcut, hmem, _⟩ := h.past
  have hitems : s.items = s.returned := by
    rcases h.stage with ⟨hitems, _⟩ | ⟨_, hdrain⟩
    · exact hitems
    · rw [hdrain o List.mem_cons_self] at hout
      exact absurd trivial hout
  obtain ⟨hr, habove⟩ := hcut.out_of_map hout
  rw [← hmem, ← hitems] at hr habove
  exact ⟨hitems, hr, habove⟩

/-- **A power failure inside an append** leaves what had returned, or that and the whole new entry. -/
theorem InCall.crash (h : s.InCall p todo it) {m' : Mem Byte} (hi : s.mem.Image m') :
    Rep ⟨m', s.len⟩ (encode (s.returned.map Item.entry)) ∨
      Rep ⟨m', s.len⟩ (encode ((s.returned ++ [it]).map Item.entry)) := by
  obtain ⟨p₀, done, l, a, hcut, hmem, hdata⟩ := h.past
  rw [hmem] at hi
  rcases crash_rep hcut.rep hcut.above hcut.synced a ⟨todo, hcut.split.symm⟩ hcut.inMap hi with
    hr | hr
  · exact Or.inl hr
  · rw [hdata, ← encode_concat] at hr
    rw [List.map_append]
    exact Or.inr hr

/-- A power failure between appends leaves what had returned. -/
theorem Calm.crash (h : s.Calm) {m' : Mem Byte} (hi : s.mem.Image m') :
    Rep ⟨m', s.len⟩ (encode (s.returned.map Item.entry)) := by
  rw [← h.quiet]
  exact h.durable.congr (hi.eqOn h.above)

end Medium

/-! ## What a turn of a reader does -/

namespace Phase

variable {s s' : Medium} {ph : Phase}

/-- **Readers do not notice** stores outside what is published. -/
theorem Reads.frame (h : ph.Reads s) (hlen : s'.len = s.len)
    (heq : Set.EqOn s'.mem.view s.mem.view (entryRegion (s.items.map Item.entry)))
    (hpub : s.items <+: s'.items) : ph.Reads s' := by
  cases ph with
  | idle | writing | down => trivial
  | reading p q start snap todo =>
    cases snap with
    | none =>
      obtain ⟨hstart, htodo⟩ := h
      refine ⟨hstart.trans hpub, ?_⟩
      rw [hlen]
      exact htodo
    | some es =>
      obtain ⟨hstart, hpre, hset⟩ := h
      refine ⟨hstart, hpre.trans hpub, fun hd => ?_⟩
      have hsame : Set.EqOn s.mem.view s'.mem.view (entryRegion (es.map Item.entry)) :=
        (heq.mono (entryRegion_mono (hpre.map Item.entry))).symm
      exact (hset hd).frame hsame

/-- **One load of a reader.**  If it is the load of `hdr->tail`, what is published now is what the
    query will be answered from. -/
theorem Reads.load {p : Proc} {q : Query} {start : List Item} {snap : Option (List Item)}
    {off n : Nat} {k : List Byte → Prog Stop Byte (Option (List Byte))} (hr : Rep s.file s.body)
    (h : (reading p q start snap (.load off n k)).Reads s) :
    (reading p q start (snap.or (if off = tailOff ∧ n = 8 then some s.items else none))
      (k (FlatMem.load s.mem.view off n))).Reads s := by
  cases snap with
  | none =>
    obtain ⟨hstart, htodo⟩ := h
    rw [Query.loads_eq_load] at htodo
    obtain ⟨rfl, rfl, rfl⟩ := Prog.load.inj htodo
    rw [if_pos ⟨rfl, rfl⟩, Option.none_or]
    refine ⟨hstart, List.prefix_rfl, fun hd => ?_⟩
    have htail : ofLE (FlatMem.load s.mem.view tailOff 8) = 32 + s.body.length := hr.tail_eq
    dsimp only
    rw [htail]
    exact q.settles hr (lookFuel_le hr) hd
  | some es =>
    obtain ⟨hstart, hpre, hset⟩ := h
    rw [Option.some_or]
    exact ⟨hstart, hpre, fun hd => (hset hd).load_step⟩

/-- A process that may append and is not appending. -/
theorem Writes.calm (h : ph.Writes s) (hn : ¬ ph.Writing) : s.Calm := by
  cases ph with
  | idle | reading => exact h.1
  | writing => exact absurd trivial hn
  | down => exact h

end Phase

/-! ## Runs -/

namespace Cluster

variable {c c' : Cluster}

/-- A turn that leaves the file alone. -/
theorem Inv.goOn (hi : c.Inv) {i : Nat} {ph : Phase} (hr : ph.Reads c.shared)
    (hw : i = c.shared.writer → ph.Writes c.shared) (ho : i ≠ c.shared.writer → ¬ ph.Writing) :
    (c.goOn i c.shared ph).Inv :=
  Holds.move hi (fun _ _ _ => trivial) hi.shared ⟨(hi.own i).history, hr, hw, ho⟩
    (fun _ _ h _ => ⟨h, trivial⟩)

/-- What survives a power failure is in the log. -/
theorem Inv.survivors (hi : c.Inv) {m' : Mem Byte} (himg : c.shared.mem.Image m') :
    Rep ⟨m', c.shared.len⟩ (encode ((c.survivors m').map Item.entry)) ∧
      (c.survivors m' = c.shared.returned ∨
        c.survivors m' = c.shared.returned ++ (c.place c.shared.writer).phase.inFlight) := by
  have hw := (hi.own c.shared.writer).writer rfl
  rw [Cluster.survivors]
  split
  · rename_i htail
    refine ⟨?_, Or.inl rfl⟩
    cases hph : (c.place c.shared.writer).phase with
    | writing p todo it =>
      rw [hph] at hw
      rcases Medium.InCall.crash hw himg with hr | hr
      · exact hr
      · have hnew := hr.tail_eq
        rw [List.map_append, List.map_singleton, encode_concat, tail_append] at hnew
        have hold : word m' tailOff = _ := htail
        rw [hnew] at hold
        omega
    | idle | reading | down =>
      rw [hph] at hw
      exact (hw.calm id).crash himg
  · rename_i htail
    refine ⟨?_, Or.inr rfl⟩
    cases hph : (c.place c.shared.writer).phase with
    | writing p todo it =>
      rw [hph] at hw
      rcases Medium.InCall.crash hw himg with hr | hr
      · exact absurd hr.tail_eq htail
      · exact hr
    | idle | reading | down =>
      rw [hph] at hw
      exact absurd ((hw.calm id).crash himg).tail_eq htail

-- from here on the two facts above are all that is used of it
attribute [irreducible] Cluster.survivors

/-- **One turn, or a power failure, keeps the invariant.** -/
theorem Step.inv (h : Step c c') (hi : c.Inv) : c'.Inv := by
  cases h with
  | @call p r s' i cl hp hq h =>
    have hold := hi.own i
    refine hi.goOn trivial (fun hw => ?_) (fun _ => id)
    have hwr := hold.writer hw
    rw [hp] at hwr
    refine ⟨hwr.1, ?_⟩
    show s'.log.Synced _ _
    rw [(hq.log_eq h).1]
    exact hwr.2
  | ask i q hp =>
    have hold := hi.own i
    refine hi.goOn ⟨List.prefix_rfl, rfl⟩ (fun hw => ?_) (fun _ => id)
    have hwr := hold.writer hw
    rw [hp] at hwr
    exact hwr
  | load i hp hin =>
    have hold := hi.own i
    have hreader := hold.reader
    rw [hp] at hreader
    refine hi.goOn (Phase.Reads.load hi.shared.rep hreader) (fun hw => ?_) (fun _ => id)
    have hwr := hold.writer hw
    rw [hp] at hwr
    exact hwr
  | @answer p q start es r i hp =>
    have hold := hi.own i
    have hreader := hold.reader
    rw [hp] at hreader
    obtain ⟨hstart, hpre, hset⟩ := hreader
    refine Holds.move hi (fun _ _ _ => trivial) hi.shared ⟨?_, trivial, ?_, fun _ => id⟩
      (fun _ _ h _ => ⟨h, trivial⟩)
    · intro rd hrd
      rcases List.mem_append.mp hrd with hrd | hrd
      · exact hold.history rd hrd
      · rw [List.mem_singleton.mp hrd]
        refine ⟨hstart, hpre, fun hd => ?_⟩
        dsimp only
        rw [(hset hd).ret_eq]
    · intro hw
      have hwr := hold.writer hw
      rw [hp] at hwr
      refine ⟨hwr.1, ?_⟩
      show ((q.complete p r).2.log).Synced _ _
      rw [q.log_complete]
      exact hwr.2
  | @enter p w i cl hp hw hcl hspace =>
    have hwr := (hi.own i).writer hw
    rw [hp] at hwr
    obtain ⟨hcalm, hsync⟩ := hwr
    refine hi.goOn trivial (fun _ => ⟨?_, ?_, ?_⟩) (fun hne => absurd hw hne)
    · exact Writer.Ok.enter hi.shared.rep hsync (Proc.gather_prepare hcl) hspace
    · exact Or.inl ⟨hcalm.quiet, (Append.trace_of_space hspace).1⟩
    · refine ⟨c.shared.mem, [], p.log, .appendv w.vec, ?_, rfl, Proc.gather_prepare hcl⟩
      rw [← hcalm.quiet]
      exact ⟨hcalm.durable, hcalm.above, hsync, hspace, rfl, fun o ho => absurd ho List.not_mem_nil⟩
  | @store p o todo it i hp hin =>
    have hold := hi.own i
    obtain ⟨hw, hwr⟩ := hold.writing hp
    obtain ⟨hok, hcall, hgrows, heq⟩ := Medium.InCall.store hwr hi.shared hin
    refine Holds.move hi (fun _ _ _ => trivial) hok
      ⟨hold.history, trivial, fun _ => hcall, fun hne => absurd hw hne⟩ ?_
    intro j hj hother _
    refine ⟨⟨hother.history, hother.reader.frame rfl heq hgrows, ?_, hother.others⟩, trivial⟩
    intro hjw
    exact absurd (hjw.trans hw.symm) hj
  | @leave p it i hp =>
    have hold := hi.own i
    obtain ⟨hw, hwr⟩ := hold.writing hp
    obtain ⟨hcalm, hsync⟩ := Medium.InCall.leave hwr hi.shared
    have hgrows : c.shared.returned ++ [it] <+: c.shared.items := by
      rw [show c.shared.items = _ from hcalm.quiet]
    refine Holds.move hi (fun _ _ _ => trivial) ⟨hi.shared.rep, hgrows⟩
      ⟨hold.history, trivial, fun _ => ⟨hcalm, hsync⟩, fun hne => absurd hw hne⟩ ?_
    intro j hj hother _
    refine ⟨⟨hother.history, hother.reader.frame rfl (fun _ _ => rfl) List.prefix_rfl, ?_,
      hother.others⟩, trivial⟩
    intro hjw
    exact absurd (hjw.trans hw.symm) hj
  | refuse i cl hp hw hcl hspace =>
    have hwr := (hi.own i).writer hw
    rw [hp] at hwr
    exact hi.goOn trivial (fun _ => hwr.1) (fun _ => id)
  | @fault p o todo it i hp hout =>
    have hold := hi.own i
    refine hi.goOn trivial (fun hw => ?_) (fun _ => id)
    have hwr := hold.writer hw
    rw [hp] at hwr
    exact Medium.InCall.fault hwr hout
  | stop i hp =>
    have hold := hi.own i
    exact hi.goOn trivial (fun hw => (hold.writer hw).calm hp) (fun _ => id)
  | @start l f i heap w hp h hw =>
    have hold := hi.own i
    rw [ctor_reopen hi.shared.rep] at h
    obtain ⟨rfl, rfl⟩ := Prod.mk.inj (Except.ok.inj h)
    refine Holds.move hi (fun _ _ _ => trivial) ⟨hi.shared.rep, hi.shared.grows⟩
      ⟨hold.history, trivial, ?_, fun _ => id⟩ ?_
    · intro hiw
      have hcalm : c.shared.Calm := by
        rcases hw with rfl | ⟨rfl, hno⟩
        · refine (hold.writer hiw).calm ?_
          rw [hp]
          exact id
        · exact ((hi.own _).writer rfl).calm hno
      exact ⟨⟨hcalm.quiet, hcalm.durable, hcalm.above⟩, handleOn_synced _ _⟩
    · intro j hj hother _
      refine ⟨⟨hother.history, hother.reader.frame rfl (fun _ _ => rfl) List.prefix_rfl, ?_, ?_⟩,
        trivial⟩
      · intro hjw
        rcases hw with rfl | ⟨rfl, _⟩
        · exact hother.writer hjw
        · exact absurd hjw hj
      · intro hjw
        rcases hw with rfl | ⟨rfl, hno⟩
        · exact hother.others hjw
        · by_cases hjold : j = c.shared.writer
          · rw [hjold]
            exact hno
          · exact hother.others hjold
  | @crash m' himg =>
    obtain ⟨hr, _⟩ := hi.survivors himg
    refine ⟨⟨hr, List.prefix_rfl⟩, fun j => ⟨(hi.own j).history, trivial, fun _ => ?_, fun _ => id⟩,
      fun _ _ _ => trivial⟩
    exact ⟨rfl, hr, fun _ hs => absurd hs List.not_mem_nil⟩

end Cluster

end NvStream
