/-
  Readers without locks: `Log::walk` while another process appends.

  One writer and any number of readers share the mapped file.  A step of the system (`Shared.Step`)
  is one store or fence of the writer, or ONE load of one reader; nothing else orders them.  The
  writer's stores are those of `Append.trace`, so `hdr->tail` is stored in one piece and everything
  else byte by byte; a reader runs the load program `walk observe`.

  Two ghosts make the statement.  `published` grows by `e` when the append of `e` stores `hdr->tail`;
  a reader's `snap` is `published` at the moment it loads `hdr->tail`.

  Why it works: between two tails the writer stores only above the published bytes; the tail itself
  is stored in one piece; and a reader that has loaded the tail never loads it again, so it looks
  only at bytes (`entryRegion snap`) nobody will ever store to.  Its remaining loads therefore yield
  what they would have yielded at that moment (`Prog.Yields.frame`), which is the walk over `snap`.

  An append whose length wraps around `2 ^ 64` is part of the picture (`Writer.Ok.doomed`): it passes
  the space check, and runs out of the mapping before it comes near a published byte.
-/
import NvStream.Log.Crash
import Mathlib.Logic.Function.Basic

namespace NvStream

open FlatMem LittleEndian LoadProg PersistTrace

/-! ## The system -/

/-- The writer process. -/
inductive Writer where
  /-- Between calls. -/
  | idle (l : Log)
  /-- Inside a call that appends `e`: the handle it will leave, and what it still has to issue. -/
  | busy (l' : Log) (todo : List (Op Byte)) (e : Entry)
  /-- Ended by `exit(1)` or by a fault. -/
  | dead

/-- What a walk that looks at everything returns. -/
abbrev Seen := ErrorCode × List Visit × Nat

/-- A reader process. -/
structure Reader where
  /-- What is left of the walk in progress. -/
  running : Option (Prog Stop Byte Seen)
  /-- The published entries when that walk loaded `hdr->tail`, if it has. -/
  snap : Option (List Entry)
  /-- The finished walks, oldest first, each with its `snap`. -/
  walks : List (List Entry × Seen)

namespace Reader

/-- Call `walk`.  Its loop gets the length of the file as its bound; no log has that many entries. -/
def begin (len : Nat) (r : Reader) : Reader :=
  { r with running := some (walk observe len []), snap := none }

/-- Perform one load; the load of `hdr->tail` takes the snapshot. -/
def load (mem : Mem Byte) (published : List Entry) (off n : Nat)
    (k : List Byte → Prog Stop Byte Seen) (r : Reader) : Reader :=
  { r with
    running := some (k (FlatMem.load mem off n))
    snap := if off = tailOff ∧ n = 8 then some published else r.snap }

/-- Return from `walk`. -/
def finish (es : List Entry) (seen : Seen) (r : Reader) : Reader :=
  ⟨none, none, r.walks ++ [(es, seen)]⟩

end Reader

/-- The processes around one mapped log file. -/
structure Shared where
  mem : Mem Byte
  len : Nat
  writer : Writer
  readers : Nat → Reader
  /-- The entries whose append has stored `hdr->tail`. -/
  published : List Entry

/-- The store of `hdr->tail`. -/
def storesTail : Op Byte → Prop
  | .store off bs => off = tailOff ∧ bs.length = 8
  | .drain => False

instance : DecidablePred storesTail := fun o =>
  match o with
  | .store off bs => inferInstanceAs (Decidable (off = tailOff ∧ bs.length = 8))
  | .drain => inferInstanceAs (Decidable False)

namespace Shared

/-- Replace one reader. -/
def setReader (s : Shared) (i : Nat) (r : Reader) : Shared :=
  { s with readers := Function.update s.readers i r }

theorem readers_setReader (s : Shared) (i : Nat) (r : Reader) :
    (s.setReader i r).readers i = r := by
  show Function.update s.readers i r i = r
  rw [Function.update_self]

/-- One step of one process. -/
inductive Step : Shared → Shared → Prop
  | enter {s : Shared} {l : Log} (e : Entry) (a : Append) (hdata : a.data = e.bytes)
      (hw : s.writer = .idle l) (hspace : l.HasSpace a.need) :
      Step s { s with writer := .busy (a.after l) (a.trace l) e }
  | refuse {s : Shared} {l : Log} (a : Append) (hw : s.writer = .idle l)
      (hspace : ¬ l.HasSpace a.need) : Step s { s with writer := .dead }
  | store {s : Shared} {l' : Log} {o : Op Byte} {todo : List (Op Byte)} {e : Entry}
      (hw : s.writer = .busy l' (o :: todo) e) (hin : InMap s.len o) :
      Step s { s with
        mem := o.exec s.mem
        writer := .busy l' todo e
        published := if storesTail o then s.published ++ [e] else s.published }
  | fault {s : Shared} {l' : Log} {o : Op Byte} {todo : List (Op Byte)} {e : Entry}
      (hw : s.writer = .busy l' (o :: todo) e) (hout : ¬ InMap s.len o) :
      Step s { s with writer := .dead }
  | leave {s : Shared} {l' : Log} {e : Entry} (hw : s.writer = .busy l' [] e) :
      Step s { s with writer := .idle l' }
  | walk {s : Shared} (i : Nat) (hr : (s.readers i).running = none) :
      Step s (s.setReader i ((s.readers i).begin s.len))
  | load {s : Shared} (i : Nat) {off n : Nat} {k : List Byte → Prog Stop Byte Seen}
      (hr : (s.readers i).running = some (.load off n k)) (hin : n = 0 ∨ off + n ≤ s.len) :
      Step s (s.setReader i ((s.readers i).load s.mem s.published off n k))
  | done {s : Shared} (i : Nat) {seen : Seen} {es : List Entry}
      (hr : (s.readers i).running = some (.ret seen)) (hs : (s.readers i).snap = some es) :
      Step s (s.setReader i ((s.readers i).finish es seen))

end Shared

/-! ## The invariant -/

/-- What a walk over a log of `es` returns. -/
def shown (es : List Entry) : Seen := (walkCode es, visitsFrom 32 es, 32 + (encode es).length)

/-- A reader is right so far.  Its finished walks showed their snapshots, in order; the walk in
    progress has not started, or will show its snapshot and looks only at that. -/
structure Reader.Ok (mem : Mem Byte) (len : Nat) (published : List Entry) (r : Reader) : Prop where
  showed : ∀ w ∈ r.walks, w.2 = shown w.1
  ordered : r.walks.Pairwise (fun w w' => w.1 <+: w'.1)
  past : ∀ w ∈ r.walks, w.1 <+: published
  fresh : ∀ p, r.running = some p → r.snap = none → p = walk observe len []
  current : ∀ p es, r.running = some p → r.snap = some es →
    es <+: published ∧ (∀ w ∈ r.walks, w.1 <+: es) ∧ p.Yields (entryRegion es) mem (shown es)

/-- Where the writer stands.  `filling`: it has stored nothing below the tail yet, and once `rest`
    is done the new frame stands behind the published ones.  `doomed`: it will leave the mapping
    before it stores the tail.  `closing`: it has stored the tail. -/
inductive Writer.Ok (mem : Mem Byte) (len : Nat) (published : List Entry) : Writer → Prop
  | idle {l : Log} (hs : l.Synced ⟨mem, len⟩ (encode published)) : Ok mem len published (.idle l)
  | dead : Ok mem len published .dead
  | filling {l' : Log} {rest todo : List (Op Byte)} {e : Entry}
      (htodo : todo = rest ++
        [Op.store tailOff (toLE 8 (32 + (encode published).length + e.bytes.length + 8)),
          Op.drain])
      (hrest : ∀ o ∈ rest, o.Within (Set.Ici (32 + (encode published).length)))
      (hframe : FlatMem.load (exec mem rest) (32 + (encode published).length) e.frame.length =
        e.frame)
      (hfit : 32 + (encode published).length + e.bytes.length + 8 ≤ len - 1)
      (hs : l'.Synced ⟨mem, len⟩ (encode (published ++ [e]))) :
      Ok mem len published (.busy l' todo e)
  | doomed {l' : Log} {todo : List (Op Byte)} {e : Entry}
      (hcut : ∀ cut, cut <+: todo → (∀ o ∈ cut, InMap len o) →
        ∀ o ∈ cut, o.Within (Set.Ici (32 + (encode published).length)))
      (htail : ∃ o ∈ todo, storesTail o) : Ok mem len published (.busy l' todo e)
  | closing {l' : Log} {todo : List (Op Byte)} {e : Entry} (htodo : ∀ o ∈ todo, o = Op.drain)
      (hs : l'.Synced ⟨mem, len⟩ (encode published)) : Ok mem len published (.busy l' todo e)

/-- The whole system is right so far. -/
structure Shared.Inv (s : Shared) : Prop where
  rep : Rep ⟨s.mem, s.len⟩ (encode s.published)
  writer : s.writer.Ok s.mem s.len s.published
  readers : ∀ i, (s.readers i).Ok s.mem s.len s.published

/-! ## What a store of the writer does -/

theorem encode_length_le_of_prefix {es es' : List Entry} (h : es <+: es') :
    (encode es).length ≤ (encode es').length := by
  obtain ⟨more, rfl⟩ := h
  rw [encode_append, List.length_append]
  omega

theorem entryRegion_mono {es es' : List Entry} (h : es <+: es') :
    entryRegion es ⊆ entryRegion es' := by
  have hle := encode_length_le_of_prefix h
  exact Set.union_subset_union_right _ (Set.Ico_subset_Ico_right (by omega))

section
variable {mem mem' : Mem Byte} {len : Nat} {published published' : List Entry}

/-- **Readers do not notice** stores outside the published entries. -/
theorem Reader.Ok.frame {r : Reader} (h : r.Ok mem len published)
    (heq : Set.EqOn mem' mem (entryRegion published)) (hpub : published <+: published') :
    r.Ok mem' len published' := by
  refine ⟨h.showed, h.ordered, fun w hw => (h.past w hw).trans hpub, h.fresh, ?_⟩
  intro p es hp hes
  obtain ⟨hpre, hpast, hy⟩ := h.current p es hp hes
  have hsame : Set.EqOn mem mem' (entryRegion es) := (heq.mono (entryRegion_mono hpre)).symm
  exact ⟨hpre.trans hpub, hpast, hy.frame hsame⟩

/-- The published bytes lie below the tail. -/
theorem entryRegion_below (es : List Entry) :
    entryRegion es ⊆ (Set.Ici (32 + (encode es).length))ᶜ := by
  rintro a (ha | ha) (hge : 32 + (encode es).length ≤ a)
  · have : a < 24 := ha.2
    omega
  · have := ha.2
    omega

/-- A store above the tail is not the store of the tail. -/
theorem not_storesTail_of_within {o : Op Byte} {n : Nat} (h : o.Within (Set.Ici (32 + n))) :
    ¬ storesTail o := by
  cases o with
  | drain => exact id
  | store off bs =>
    rintro ⟨rfl, hlen⟩
    have : 32 + n ≤ tailOff + 0 := h 0 (by omega)
    simp only [tailOff] at this
    omega

/-- **Storing the tail publishes the frame behind it.** -/
theorem publish_rep {e : Entry} (hr : Rep ⟨mem, len⟩ (encode published))
    (hframe : load mem (32 + (encode published).length) e.frame.length = e.frame)
    (hfit : 32 + (encode published).length + e.bytes.length + 8 ≤ len - 1) :
    Rep ⟨store mem tailOff (toLE 8 (32 + (encode published).length + e.bytes.length + 8)), len⟩
      (encode (published ++ [e])) := by
  have hthere := store_load mem (32 + (encode published).length) e.frame.length
  rw [hframe] at hthere
  have h := hr.append hfit
  rw [appended, ← Entry.frame, hthere] at h
  rw [encode_concat]
  exact h

/-- A store above the tail: the log and the readers do not notice. -/
theorem scratch_step {o : Op Byte} (hr : Rep ⟨mem, len⟩ (encode published))
    (ho : o.Within (Set.Ici (32 + (encode published).length))) :
    Rep ⟨o.exec mem, len⟩ (encode published) ∧
      Set.EqOn (o.exec mem) mem (entryRegion published) ∧ ¬ storesTail o :=
  ⟨hr.congr (ho.eqOn mem), (ho.eqOn mem).mono (entryRegion_below _), not_storesTail_of_within ho⟩

/-- Entering a call: it fits and will publish, or its length has wrapped and it is doomed. -/
theorem Writer.Ok.enter {l : Log} {e : Entry} {a : Append}
    (hr : Rep ⟨mem, len⟩ (encode published)) (hs : l.Synced ⟨mem, len⟩ (encode published))
    (hdata : a.data = e.bytes) (hspace : l.HasSpace a.need) :
    Writer.Ok mem len published (.busy (a.after l) (a.trace l) e) := by
  by_cases hfit : 32 + (encode published).length + a.data.length + 8 ≤ len - 1
  · obtain ⟨l', f', hcall⟩ := Append.call_of_fits hr hs a hfit
    obtain ⟨_, htrace, hf', _, hs'⟩ := Append.call_ok hr hs hcall
    rw [(Append.of_call hcall).1, hdata, ← encode_concat] at hs'
    rw [hdata] at htrace hfit
    have hsplit : a.trace l = (fillOps (32 + (encode published).length) e.bytes ++ [Op.drain]) ++
        [Op.store tailOff (toLE 8 (32 + (encode published).length + e.bytes.length + 8)),
          Op.drain] := by
      rw [htrace, appendOps, List.append_assoc]
      rfl
    refine .filling hsplit ?_ ?_ hfit (hs'.congr (by rw [hf']))
    · intro o ho
      rcases List.mem_append.mp ho with ho | ho
      · exact (fillOps_within _ _ o ho).mono Set.Ico_subset_Ici_self
      · rw [List.mem_singleton.mp ho]
        trivial
    · rw [exec_append, exec_fillOps]
      exact load_store_self _ _ _
  · refine .doomed ?_ ?_
    · intro cut hcut hin
      rcases cut_cases hr hs a hcut hin with h | ⟨h, _⟩
      · exact h
      · exact absurd h hfit
    · refine ⟨Op.store tailOff (toLE 8 (u64 ((a.copy l.writeOffset).2 + wordLength))), ?_,
        rfl, length_toLE 8 _⟩
      rw [Append.trace, if_pos hspace, persist]
      simp

/-- **One store of the writer**: the log stays a log, now with `e` if it was the store of the tail,
    and no published byte has changed. -/
theorem Writer.Ok.store {l' : Log} {o : Op Byte} {todo : List (Op Byte)} {e : Entry}
    (hr : Rep ⟨mem, len⟩ (encode published))
    (h : Writer.Ok mem len published (.busy l' (o :: todo) e)) (hin : InMap len o) :
    Rep ⟨o.exec mem, len⟩ (encode (if storesTail o then published ++ [e] else published)) ∧
    Writer.Ok (o.exec mem) len (if storesTail o then published ++ [e] else published)
      (.busy l' todo e) ∧
    Set.EqOn (o.exec mem) mem (entryRegion published) := by
  cases h with
  | @filling _ rest _ _ htodo hrest hframe hfit hs =>
    cases rest with
    | nil =>
      -- everything is filled: this is the store of the tail
      obtain ⟨rfl, rfl⟩ := List.cons_eq_cons.mp htodo
      rw [if_pos ⟨rfl, length_toLE 8 _⟩]
      refine ⟨publish_rep hr hframe hfit, .closing (fun o ho => List.mem_singleton.mp ho)
        (hs.congr rfl), ?_⟩
      apply store_eqOn
      rw [length_toLE]
      rintro a (ha | ha)
      · exact Or.inl ha.2
      · exact Or.inr ha.1
    | cons o' rest =>
      obtain ⟨rfl, rfl⟩ := List.cons_eq_cons.mp htodo
      obtain ⟨hr', heq, hno⟩ := scratch_step hr (hrest o List.mem_cons_self)
      rw [if_neg hno]
      exact ⟨hr', .filling rfl (fun o' ho' => hrest o' (List.mem_cons_of_mem o ho')) hframe hfit
        (hs.congr rfl), heq⟩
  | doomed hcut htail =>
    have ho : o.Within (Set.Ici (32 + (encode published).length)) :=
      hcut [o] ⟨todo, rfl⟩ (fun o' ho' => by rw [List.mem_singleton.mp ho']; exact hin) o
        List.mem_cons_self
    obtain ⟨hr', heq, hno⟩ := scratch_step hr ho
    rw [if_neg hno]
    refine ⟨hr', .doomed ?_ ?_, heq⟩
    · intro cut hpre hin' o' ho'
      refine hcut (o :: cut) ((List.prefix_cons_inj o).mpr hpre) ?_ o' (List.mem_cons_of_mem o ho')
      intro o'' ho''
      rcases List.mem_cons.mp ho'' with rfl | ho''
      · exact hin
      · exact hin' o'' ho''
    · obtain ⟨o', ho', htail'⟩ := htail
      rcases List.mem_cons.mp ho' with rfl | ho'
      · exact absurd htail' hno
      · exact ⟨o', ho', htail'⟩
  | closing htodo hs =>
    obtain rfl := htodo o List.mem_cons_self
    rw [if_neg (show ¬ storesTail Op.drain from id)]
    exact ⟨hr, .closing (fun o' ho' => htodo o' (List.mem_cons_of_mem _ ho')) hs, fun a _ => rfl⟩

/-! ## What a step of a reader does -/

/-- No log has as many entries as bytes. -/
theorem length_lt_of_rep {f : File} {es : List Entry} (hr : Rep f (encode es)) :
    es.length < f.len := by
  have hle : es.length ≤ (encode es).length := by
    clear hr
    induction es with
    | nil => exact Nat.le_refl _
    | cons e es ih =>
      rw [encode_cons, List.length_append, List.length_cons, e.length_frame, wordLength]
      omega
  have := hr.room
  omega

/-- Past the tail a walk does not load the tail again. -/
theorem not_load_tail {es : List Entry} {off n : Nat} (h : ∀ i < n, off + i ∈ entryRegion es) :
    ¬ (off = tailOff ∧ n = 8) := by
  rintro ⟨rfl, rfl⟩
  rcases h 0 (by decide) with ha | ha
  · exact absurd ha.2 (by decide)
  · exact absurd ha.1 (by decide)

/-- **One load of a reader.**  If it is the load of `hdr->tail`, what is published now is what the
    walk will show. -/
theorem Reader.Ok.load {r : Reader} {off n : Nat} {k : List Byte → Prog Stop Byte Seen}
    (hr : Rep ⟨mem, len⟩ (encode published)) (h : r.Ok mem len published)
    (hrun : r.running = some (.load off n k)) :
    (r.load mem published off n k).Ok mem len published := by
  rw [Reader.load]
  cases hsnap : r.snap with
  | none =>
    have hstart := h.fresh _ hrun hsnap
    rw [walk_eq_load] at hstart
    obtain ⟨rfl, rfl, rfl⟩ := Prog.load.inj hstart
    rw [if_pos ⟨rfl, rfl⟩]
    refine ⟨h.showed, h.ordered, h.past, ?_, ?_⟩
    · intro p _ hnone
      cases hnone
    · rintro p es ⟨⟩ ⟨⟩
      refine ⟨List.prefix_rfl, h.past, ?_⟩
      show (walkBelow observe len [] (ofLE (FlatMem.load mem tailOff 8))).Yields _ _ _
      rw [show ofLE (FlatMem.load mem tailOff 8) = _ from hr.tail_eq]
      exact walkBelow_observe_yields hr (length_lt_of_rep hr)
  | some es =>
    obtain ⟨hpre, hpast, hy⟩ := h.current _ es hrun hsnap
    obtain ⟨hregion, hy'⟩ := hy.load_step
    rw [if_neg (not_load_tail hregion)]
    refine ⟨h.showed, h.ordered, h.past, ?_, ?_⟩
    · intro p _ hnone
      cases hnone
    · rintro p es' ⟨⟩ ⟨⟩
      exact ⟨hpre, hpast, hy'⟩

/-- A walk returns what its snapshot shows. -/
theorem Reader.Ok.done {r : Reader} {seen : Seen} {es : List Entry} (h : r.Ok mem len published)
    (hrun : r.running = some (.ret seen)) (hsnap : r.snap = some es) :
    (r.finish es seen).Ok mem len published := by
  obtain ⟨hpre, hpast, hy⟩ := h.current _ es hrun hsnap
  have hseen := hy.ret_eq
  refine ⟨?_, ?_, ?_, ?_, ?_⟩
  · intro w hw
    rcases List.mem_append.mp hw with hw | hw
    · exact h.showed w hw
    · rw [List.mem_singleton.mp hw]
      exact hseen
  · refine List.pairwise_append.mpr ⟨h.ordered, List.pairwise_singleton _ _, ?_⟩
    intro w hw w' hw'
    rw [List.mem_singleton.mp hw']
    exact hpast w hw
  · intro w hw
    rcases List.mem_append.mp hw with hw | hw
    · exact h.past w hw
    · rw [List.mem_singleton.mp hw]
      exact hpre
  · intro p hp
    cases hp
  · intro p es' hp
    cases hp

end

/-! ## Runs -/

namespace Shared

variable {s s' : Shared}

/-- Replacing one reader by a right one. -/
theorem Inv.setReader (hi : s.Inv) {i : Nat} {r : Reader} (hr : r.Ok s.mem s.len s.published) :
    (s.setReader i r).Inv := by
  refine ⟨hi.rep, hi.writer, fun j => ?_⟩
  show (Function.update s.readers i r j).Ok _ _ _
  by_cases hji : j = i
  · rw [hji, Function.update_self]
    exact hr
  · rw [Function.update_of_ne hji]
    exact hi.readers j

/-- **One step of any process keeps the invariant.** -/
theorem Step.inv (h : Step s s') (hi : s.Inv) : s'.Inv ∧ s.published <+: s'.published := by
  cases h with
  | enter e a hdata hw hspace =>
    have hwriter := hi.writer
    rw [hw] at hwriter
    cases hwriter with
    | idle hs => exact ⟨⟨hi.rep, .enter hi.rep hs hdata hspace, hi.readers⟩, List.prefix_rfl⟩
  | refuse a hw hspace => exact ⟨⟨hi.rep, .dead, hi.readers⟩, List.prefix_rfl⟩
  | @store l' o todo e hw hin =>
    have hwriter := hi.writer
    rw [hw] at hwriter
    obtain ⟨hr', hw', heq⟩ := hwriter.store hi.rep hin
    have hpub : s.published <+: if storesTail o then s.published ++ [e] else s.published := by
      split
      · exact List.prefix_append _ _
      · exact List.prefix_rfl
    exact ⟨⟨hr', hw', fun i => (hi.readers i).frame heq hpub⟩, hpub⟩
  | fault hw hout => exact ⟨⟨hi.rep, .dead, hi.readers⟩, List.prefix_rfl⟩
  | @leave l' e hw =>
    have hwriter := hi.writer
    rw [hw] at hwriter
    have hs : l'.Synced ⟨s.mem, s.len⟩ (encode s.published) := by
      cases hwriter with
      | filling htodo => simp at htodo
      | doomed hcut htail =>
        obtain ⟨o, ho, _⟩ := htail
        exact absurd ho List.not_mem_nil
      | closing _ hs => exact hs
    exact ⟨⟨hi.rep, .idle hs, hi.readers⟩, List.prefix_rfl⟩
  | walk i hr =>
    have h := hi.readers i
    refine ⟨hi.setReader ⟨h.showed, h.ordered, h.past, ?_, ?_⟩, List.prefix_rfl⟩
    · rintro p ⟨⟩ _
      rfl
    · intro p es _ hnone
      cases hnone
  | load i hr hin => exact ⟨hi.setReader ((hi.readers i).load hi.rep hr), List.prefix_rfl⟩
  | done i hr hs => exact ⟨hi.setReader ((hi.readers i).done hr hs), List.prefix_rfl⟩

theorem Step.run_inv (h : Relation.ReflTransGen Step s s') (hi : s.Inv) :
    s'.Inv ∧ s.published <+: s'.published :=
  Runs.invariant_rel (P := Inv) (R := fun s s' => s.published <+: s'.published)
    (fun _ => List.prefix_rfl) List.IsPrefix.trans Step.inv h hi

/-- A log some run has left behind, its writer idle, before any reader has come. -/
def start (d : Durable) (l : Log) : Shared :=
  ⟨d.mem.view, d.len, .idle l, fun _ => ⟨none, none, []⟩, d.committed⟩

theorem start_inv {d : Durable} {l : Log} (hd : d.Inv) (hlog : d.log = some l) :
    (start d l).Inv := by
  refine ⟨hd.view, .idle (hd.synced l hlog), fun i => ⟨?_, List.Pairwise.nil, ?_, ?_, ?_⟩⟩
  · intro w hw
    exact absurd hw List.not_mem_nil
  · intro w hw
    exact absurd hw List.not_mem_nil
  · intro p hp
    cases hp
  · intro p es hp
    cases hp

/-- The entries of a snapshot lie inside the file. -/
theorem Inv.region_lt (hi : s.Inv) {es : List Entry} (h : es <+: s.published) :
    ∀ a ∈ entryRegion es, a < s.len := by
  intro a ha
  have hlt : ¬ 32 + (encode s.published).length ≤ a :=
    entryRegion_below s.published (entryRegion_mono h ha)
  have hroom : 32 + (encode s.published).length ≤ s.len := hi.rep.room
  omega

/-! ### Every process gets on

  What one process does from a state, with everything else left as it is. -/

/-- A reader past the tail that is left alone finishes its walk. -/
theorem completes {i : Nat} {es : List Entry} {seen : Seen} (p : Prog Stop Byte Seen) :
    ∀ s : Shared, (s.readers i).running = some p → (s.readers i).snap = some es →
      p.Yields (entryRegion es) s.mem seen → (∀ a ∈ entryRegion es, a < s.len) →
      ∃ s', Relation.ReflTransGen Step s s' ∧ s'.writer = s.writer ∧ s'.len = s.len ∧
        s'.published = s.published ∧ (s'.readers i).running = none ∧
        (s'.readers i).walks = (s.readers i).walks ++ [(es, seen)] := by
  induction p with
  | ret b =>
    intro s hrun hsnap hy _
    refine ⟨_, .single (.done i hrun hsnap), rfl, rfl, rfl, ?_, ?_⟩
    · rw [readers_setReader, Reader.finish]
    · rw [readers_setReader, Reader.finish, hy.ret_eq]
  | fail e =>
    intro s _ _ hy _
    exact absurd hy Prog.not_yields_fail
  | load off n k ih =>
    intro s hrun hsnap hy hin
    obtain ⟨hregion, hy'⟩ := hy.load_step
    have hmap : n = 0 ∨ off + n ≤ s.len := by
      rcases Nat.eq_zero_or_pos n with hn | hn
      · exact Or.inl hn
      · have := hin _ (hregion (n - 1) (by omega))
        exact Or.inr (by omega)
    have hreader := readers_setReader s i ((s.readers i).load s.mem s.published off n k)
    obtain ⟨s', hrest, hw, hlen, hpub, hidle, hwalks⟩ := ih (FlatMem.load s.mem off n)
      (s.setReader i ((s.readers i).load s.mem s.published off n k)) (by rw [hreader]; rfl)
      (by rw [hreader, Reader.load, if_neg (not_load_tail hregion)]; exact hsnap) hy' hin
    refine ⟨s', .head (.load i hrun hmap) hrest, hw, hlen, hpub, hidle, ?_⟩
    rw [hwalks, hreader]
    rfl

/-- An idle reader starts a walk and loads the tail. -/
theorem Inv.looks (hi : s.Inv) {i : Nat} (hidle : (s.readers i).running = none) :
    ∃ s' p, Relation.ReflTransGen Step s s' ∧ s'.writer = s.writer ∧ s'.len = s.len ∧
      s'.published = s.published ∧ (s'.readers i).walks = (s.readers i).walks ∧
      (s'.readers i).running = some p ∧ (s'.readers i).snap = some s.published := by
  have hroom : 32 + (encode s.published).length ≤ s.len := hi.rep.room
  have hbegun := readers_setReader s i ((s.readers i).begin s.len)
  have hload : ((s.setReader i ((s.readers i).begin s.len)).readers i).running =
      some (.load tailOff 8 (fun bs => walkBelow observe s.len [] (ofLE bs))) := by
    rw [hbegun, ← walk_eq_load]
    rfl
  refine ⟨_, walkBelow observe s.len [] (ofLE (FlatMem.load s.mem tailOff 8)),
    .tail (.single (.walk i hidle)) (.load i hload (Or.inr ?_)), rfl, rfl, rfl, ?_, ?_, ?_⟩
  · show tailOff + 8 ≤ s.len
    rw [tailOff]
    omega
  · rw [readers_setReader, hbegun]
    rfl
  · rw [readers_setReader]
    rfl
  · rw [readers_setReader]
    rw [Reader.load, if_pos ⟨rfl, rfl⟩]
    rfl

/-- A reader past the tail goes on to show its snapshot, whatever has been stored since. -/
theorem Inv.finishes (hi : s.Inv) {i : Nat} {p : Prog Stop Byte Seen} {es : List Entry}
    (hrun : (s.readers i).running = some p) (hsnap : (s.readers i).snap = some es) :
    ∃ s', Relation.ReflTransGen Step s s' ∧ s'.writer = s.writer ∧ s'.len = s.len ∧
      s'.published = s.published ∧ (s'.readers i).running = none ∧
      (s'.readers i).walks = (s.readers i).walks ++ [(es, shown es)] := by
  obtain ⟨hpre, _, hy⟩ := (hi.readers i).current p es hrun hsnap
  exact completes p s hrun hsnap hy (hi.region_lt hpre)

/-- A writer that is left alone performs its next stores. -/
theorem stores {l' : Log} {e : Entry} (todo ops : List (Op Byte)) :
    ∀ s : Shared, s.writer = .busy l' (ops ++ todo) e → (∀ o ∈ ops, InMap s.len o) →
      ∃ s', Relation.ReflTransGen Step s s' ∧ s'.writer = .busy l' todo e ∧
        s'.readers = s.readers ∧ s'.len = s.len ∧
        s'.published = s.published ++ (ops.filter (fun o => storesTail o)).map (fun _ => e) := by
  induction ops with
  | nil =>
    intro s hw _
    exact ⟨s, .refl, hw, rfl, rfl, (List.append_nil _).symm⟩
  | cons o ops ih =>
    intro s hw hin
    obtain ⟨s', hrest, hw', hreaders, hlen, hpub⟩ := ih { s with
      mem := o.exec s.mem
      writer := .busy l' (ops ++ todo) e
      published := if storesTail o then s.published ++ [e] else s.published } rfl
      (fun o' h => hin o' (List.mem_cons_of_mem _ h))
    refine ⟨s', .head (.store hw (hin o List.mem_cons_self)) hrest, hw', hreaders, hlen, ?_⟩
    rw [hpub]
    by_cases ho : storesTail o
    · simp only [ho, if_true, List.filter_cons, decide_true, List.map_cons, List.append_assoc,
        List.singleton_append]
    · simp only [ho, if_false, List.filter_cons, decide_false, Bool.false_eq_true]

/-- What an append still has to do once its entry is filled in. -/
def publishOps (tail : Nat) : List (Op Byte) :=
  [Op.drain, Op.store tailOff (toLE 8 tail), Op.drain]

/-- An idle writer with space enters an append and fills its entry in, which publishes nothing. -/
theorem Inv.fills (hi : s.Inv) {l : Log} (hw : s.writer = .idle l) {e : Entry} {a : Append}
    (hdata : a.data = e.bytes)
    (hfit : 32 + (encode s.published).length + e.bytes.length + 8 ≤ s.len - 1) :
    ∃ s' tail, Relation.ReflTransGen Step s s' ∧
      s'.writer = .busy (a.after l) (publishOps tail) e ∧ s'.readers = s.readers ∧
      s'.len = s.len ∧ s'.published = s.published := by
  have hwriter := hi.writer
  rw [hw] at hwriter
  cases hwriter with
  | idle hs =>
    have hsmall : s.len < 2 ^ 63 := hi.rep.small
    have hfit' : 32 + (encode s.published).length + a.data.length + 8 ≤ s.len - 1 := by
      rw [hdata]
      exact hfit
    have hvec : a.data.length = (gather a.vec).length := rfl
    obtain ⟨_, _, hcall⟩ := Append.call_of_fits hi.rep hs a hfit'
    obtain ⟨_, htrace, _⟩ := Append.call_ok hi.rep hs hcall
    have hspace : l.HasSpace a.need := by
      rw [a.need_eq, Log.HasSpace, hs.stop, hs.write, totCntv_eq, u64_of_lt (by omega)]
      show 32 + _ < s.len - 1 ∧ _ ≤ s.len - 1 - _
      omega
    have henter := Step.enter e a hdata hw hspace
    rw [htrace, appendOps] at henter
    have hfill := fillOps_within (32 + (encode s.published).length) a.data
    obtain ⟨s', hrun, hw', hreaders, hlen, hpub⟩ := stores
      (publishOps (32 + (encode s.published).length + a.data.length + 8))
      (fillOps (32 + (encode s.published).length) a.data)
      { s with writer := .busy (a.after l) _ e } rfl
      (fun o ho => inMap_of_within (fun x hx => by have := hx.2; show x < s.len; omega)
        (hfill o ho))
    refine ⟨s', _, .head henter hrun, hw', hreaders, hlen, ?_⟩
    rw [hpub, List.filter_eq_nil_iff.mpr]
    · exact List.append_nil _
    · intro o ho
      rw [decide_eq_true_iff]
      exact not_storesTail_of_within ((hfill o ho).mono Set.Ico_subset_Ici_self)

/-- It then stores the tail, which publishes the entry, and leaves. -/
theorem publishes {l' : Log} {e : Entry} {tail : Nat} (hw : s.writer = .busy l' (publishOps tail) e)
    (hlen : 32 ≤ s.len) :
    ∃ s', Relation.ReflTransGen Step s s' ∧ s'.writer = .idle l' ∧ s'.readers = s.readers ∧
      s'.len = s.len ∧ s'.published = s.published ++ [e] := by
  have hin : ∀ o ∈ publishOps tail, InMap s.len o := by
    intro o ho
    simp only [publishOps, List.mem_cons, List.not_mem_nil, or_false] at ho
    rcases ho with rfl | rfl | rfl
    · trivial
    · exact Or.inr (by rw [length_toLE, tailOff]; omega)
    · trivial
  obtain ⟨s', hrun, hw', hreaders, hlen', hpub⟩ := stores [] (publishOps tail) s
    (by rw [List.append_nil]; exact hw) hin
  refine ⟨_, .tail hrun (.leave hw'), rfl, hreaders, hlen', ?_⟩
  have htail : storesTail (Op.store tailOff (toLE 8 tail)) := ⟨rfl, length_toLE 8 _⟩
  have hdrain : ¬ storesTail Op.drain := id
  show s'.published = _
  rw [hpub, publishOps]
  simp only [List.filter_cons, htail, hdrain, decide_true, decide_false, if_true,
    Bool.false_eq_true, if_false, List.filter_nil, List.map_cons, List.map_nil]

end Shared

/-- **Reader safety.**  Start one writer and any number of readers on any log, and interleave their
    stores and loads in any way.  Every finished walk showed exactly the entries published when it
    loaded the tail; the snapshots of one reader's walks are prefixes of each other, and of what is
    published now; and a walk in progress, once it has loaded the tail, would show its snapshot if
    it went on from here. -/
theorem reader_safety {size : Nat} {l₀ : Log} {f₀ : File} (hsize : sizeofLhdr ≤ size)
    (hnew : Log.ctor none size = .ok (l₀, f₀)) {d : Durable}
    (hd : Relation.ReflTransGen Durable.Step (Durable.create l₀ size) d) {l : Log}
    (hlog : d.log = some l) {s : Shared}
    (hrun : Relation.ReflTransGen Shared.Step (Shared.start d l) s) (i : Nat) :
    (∀ w ∈ (s.readers i).walks,
      w.2 = (walkCode w.1, visitsFrom 32 w.1, 32 + (encode w.1).length)) ∧
    (s.readers i).walks.Pairwise (fun w w' => w.1 <+: w'.1) ∧
    (∀ w ∈ (s.readers i).walks, w.1 <+: s.published) ∧
    (∀ p, (s.readers i).running = some p →
      ((s.readers i).snap = none ∧ p = walk observe s.len []) ∨
      ∃ es, (s.readers i).snap = some es ∧ es <+: s.published ∧
        (∀ w ∈ (s.readers i).walks, w.1 <+: es) ∧
        File.run ⟨s.mem, s.len⟩ p =
          .ok (walkCode es, visitsFrom 32 es, 32 + (encode es).length)) := by
  have hinv := (Durable.Step.run_inv hd (Durable.create_inv hsize hnew)).1
  obtain ⟨hi, _⟩ := Shared.Step.run_inv hrun (Shared.start_inv hinv hlog)
  have h := hi.readers i
  refine ⟨h.showed, h.ordered, h.past, ?_⟩
  intro p hp
  cases hsnap : (s.readers i).snap with
  | none => exact Or.inl ⟨rfl, h.fresh p hp hsnap⟩
  | some es =>
    obtain ⟨hpre, hpast, hy⟩ := h.current p es hp hsnap
    exact Or.inr ⟨es, rfl, hpre, hpast, hy.run_eq (hi.region_lt hpre)⟩

/-- One reader, while two entries are appended.  It loads the tail while the first one is being filled
    in, finishes behind its publication, and finds nothing; its second walk loads the tail, the second
    append fills in its entry, and the walk shows the first entry alone. -/
theorem reader_safety_while_appending : ∃ (l : Log) (f : File) (s : Shared),
    Log.ctor none 512 = .ok (l, f) ∧
    Relation.ReflTransGen Shared.Step (Shared.start (Durable.create l 512) l) s ∧
    (∃ l' tail, s.writer = .busy l' (Shared.publishOps tail) blankEntry) ∧
    s.published = [blankEntry] ∧
    (s.readers 0).walks = [([], (.idNotFound, [], 32)),
      ([blankEntry], (.noError, [⟨32, 0, blankEntry.bytes⟩], 176))] := by
  obtain ⟨l, f, hnew, _⟩ := ctor_ok 512 (by decide)
  have hd := Durable.create_inv (by decide) hnew
  have hdata : appendBlank.data = blankEntry.bytes := data_appendEntry _ _
  have hblank := length_blankEntry
  have hframe : (encode [blankEntry]).length = 144 := by
    rw [encode_cons, encode_nil, List.append_nil, Entry.frame, List.length_append, hblank,
      length_commitWord]
  have hi : (Shared.start (Durable.create l 512) l).Inv := Shared.start_inv hd rfl
  -- the first append, and the first walk around its publication
  obtain ⟨s₁, _, hrun₁, hw₁, hr₁, hlen₁, hpub₁⟩ := hi.fills rfl hdata
    (by rw [hblank]; show 32 + 0 + 136 + 8 ≤ 511; decide)
  have hi₁ := (Shared.Step.run_inv hrun₁ hi).1
  obtain ⟨s₂, p₂, hrun₂, hw₂, hlen₂, hpub₂, hwalks₂, hrunning₂, hsnap₂⟩ :=
    hi₁.looks (i := 0) (by rw [hr₁]; rfl)
  obtain ⟨s₃, hrun₃, hw₃, hr₃, hlen₃, hpub₃⟩ := Shared.publishes (hw₂.trans hw₁)
    (by rw [hlen₂, hlen₁]; show 32 ≤ 512; decide)
  have hi₃ := (Shared.Step.run_inv ((hrun₁.trans hrun₂).trans hrun₃) hi).1
  obtain ⟨s₄, hrun₄, hw₄, hlen₄, hpub₄, hidle₄, hwalks₄⟩ := hi₃.finishes
    (by rw [hr₃]; exact hrunning₂) (by rw [hr₃]; exact hsnap₂)
  have hi₄ := (Shared.Step.run_inv hrun₄ hi₃).1
  have hone : s₄.published = [blankEntry] := by rw [hpub₄, hpub₃, hpub₂, hpub₁]; rfl
  -- the second walk, and the second append around it
  obtain ⟨s₅, p₅, hrun₅, hw₅, hlen₅, hpub₅, hwalks₅, hrunning₅, hsnap₅⟩ := hi₄.looks hidle₄
  have hi₅ := (Shared.Step.run_inv hrun₅ hi₄).1
  obtain ⟨s₆, tail, hrun₆, hw₆, hr₆, hlen₆, hpub₆⟩ := hi₅.fills ((hw₅.trans hw₄).trans hw₃) hdata
    (by
      rw [hpub₅, hone, hblank, hframe, hlen₅, hlen₄, hlen₃, hlen₂, hlen₁]
      show 32 + 144 + 136 + 8 ≤ 511
      decide)
  have hi₆ := (Shared.Step.run_inv hrun₆ hi₅).1
  obtain ⟨s, hrun₇, hw₇, _, hpub₇, _, hwalks₇⟩ := hi₆.finishes (by rw [hr₆]; exact hrunning₅)
    (by rw [hr₆]; exact hsnap₅)
  have hrun := ((hrun₁.trans hrun₂).trans hrun₃).trans
    (((hrun₄.trans hrun₅).trans hrun₆).trans hrun₇)
  have hwalks : (s.readers 0).walks =
      [([], shown []), ([blankEntry], shown [blankEntry])] := by
    rw [hwalks₇, hr₆, hwalks₅, hwalks₄, hr₃, hwalks₂, hr₁, hpub₁, hone]
    rfl
  -- what the two walks have shown
  have hsafe := (reader_safety (by decide) hnew .refl rfl hrun 0).1
  rw [hwalks] at hsafe
  have hsecond : shown [blankEntry] = (.noError, [⟨32, 0, blankEntry.bytes⟩], 176) := by
    refine (hsafe _ (List.mem_cons_of_mem _ List.mem_cons_self)).trans ?_
    have hlen : blankEntry.len = 0 := by rw [Entry.len, hblank]; rfl
    rw [hframe, visitsFrom, visitsFrom, hlen]
    rfl
  have hfirst : shown [] = (.idNotFound, [], 32) := hsafe _ List.mem_cons_self
  refine ⟨l, f, s, hnew, hrun, ⟨_, tail, hw₇.trans hw₆⟩, ?_, ?_⟩
  · rw [hpub₇, hpub₆, hpub₅, hone]
  · rw [hwalks, hfirst, hsecond]

end NvStream
