/-
  Power failures: an append is all or nothing.

  The log lives in persistent memory (`PersistTrace.PMem`): a store is volatile until a later
  `pmem_drain`, and a power failure keeps the durable bytes with any selection of the volatile ones.
  A run (`Durable.Step`) may append, be refused, be reopened, and lose power anywhere inside an
  append.

  The argument has one idea.  Everything an append stores before its last-but-one fence lies ABOVE
  the tail, in bytes the invariant does not look at (`Rep.congr`); the store of `hdr->tail` is the
  only one below, it is a single aligned word, and it is fenced on both sides.  That is exactly the
  shape of `PMem.image_publish`, so

  1. `cut_cases` reads off the code where a cut append can have stored.  A request so long that its
     length wraps around `2 ^ 64` passes the space check; its copy loop then leaves the mapping, and
     dies there, before it can come round to the committed bytes;
  2. `crash_rep` recovers the old body or the whole new one;
  3. `Durable.Step.inv` keeps the invariant along runs, crashes included.
-/
import NvStream.Log.Framing

namespace NvStream

open FlatMem LittleEndian LoadProg PersistTrace

/-! ## Where a cut append has stored -/

/-- A cut of the copy loop whose stores landed in the mapping has stored at or above `wo` only. -/
theorem copyv_cut_within {len : Nat} (hlen : len < 2 ^ 64) (iov : List IoVec) :
    ∀ (wo : Nat) (cut : List (Op Byte)), cut <+: (copyv wo iov).1 → (∀ o ∈ cut, InMap len o) →
      wo ≤ len → ∀ o ∈ cut, o.Within (Set.Ici wo) := by
  induction iov with
  | nil =>
    intro wo cut hcut _ _ o ho
    rw [List.prefix_nil.mp hcut] at ho
    exact absurd ho List.not_mem_nil
  | cons v vs ih =>
    intro wo cut hcut hin hwo o ho
    have hhere : ∀ o ∈ storeEach wo v.base, o.Within (Set.Ici wo) :=
      fun o ho => (storeEach_within ho).mono Set.Ico_subset_Ici_self
    rcases cut_append (show cut <+: storeEach wo v.base ++ (copyv (u64 (wo + v.len)) vs).1 from hcut)
      with hshort | ⟨rest, rfl, hrest⟩
    · exact hhere o (hshort.subset ho)
    · -- the first buffer was copied whole, inside the mapping, so its end did not wrap
      have hfit : wo + v.base.length ≤ len :=
        storeEach_fits (fun o ho => hin o (List.mem_append_left _ ho)) hwo
      rw [u64_of_lt (show wo + v.len < 2 ^ 64 by rw [IoVec.len]; omega)] at hrest
      rcases List.mem_append.mp ho with ho | ho
      · exact hhere o ho
      · have hlater := ih _ rest hrest (fun o ho => hin o (List.mem_append_right _ ho)) hfit o ho
        exact hlater.mono (Set.Ici_subset_Ici.mpr (Nat.le_add_right _ _))

section
variable {l : Log} {f : File} {body : List Byte} {cut : List (Op Byte)}

/-- **Where an append can be cut**: while it fills the space above the tail, or, everything there
    being filled and fitting, around the store of `hdr->tail`. -/
theorem cut_cases (hr : Rep f body) (hs : l.Synced f body) (a : Append)
    (hcut : cut <+: a.trace l) (hin : ∀ o ∈ cut, InMap f.len o) :
    (∀ o ∈ cut, o.Within (Set.Ici (32 + body.length))) ∨
    (32 + body.length + a.data.length + 8 ≤ f.len - 1 ∧
      ∃ post, cut = fillOps (32 + body.length) a.data ++ post ∧
        post <+: [Op.drain, Op.store tailOff (toLE 8 (32 + body.length + a.data.length + 8)),
          Op.drain]) := by
  have hsmall := hr.small
  have hroom := hr.room
  rw [a.trace_eq] at hcut
  split at hcut
  · rename_i hspace
    rw [hs.write] at hcut
    rcases cut_append hcut with hshort | ⟨rest, hcopied, _⟩
    · exact Or.inl (copyv_cut_within (by omega) a.vec _ _ hshort hin hroom)
    · have hle : 32 + body.length + (gather a.vec).length ≤ f.len := by
        refine copyv_fits (fun o ho => hin o ?_) hroom (by omega)
        rw [hcopied]
        exact List.mem_append_left _ ho
      rw [Log.HasSpace, hs.stop, hs.write, totCntv_eq, u64_of_lt (by omega)] at hspace
      rw [(trace_eq_appendOps (by omega)).1] at hcut
      rcases cut_append hcut with hfill | ⟨post, hpost, hpub⟩
      · exact Or.inl (fun o ho =>
          (fillOps_within _ _ o (hfill.subset ho)).mono Set.Ico_subset_Ici_self)
      · refine Or.inr ⟨?_, post, hpost, hpub⟩
        rw [show a.data = gather a.vec from rfl]
        omega
  · rw [List.prefix_nil.mp hcut]
    exact Or.inl (fun o ho => absurd ho List.not_mem_nil)

end

/-! ## One crash -/

/-- **After a crash inside an append the file is the old log or the new one.**  The unfenced stores
    of earlier operations may be anything above the tail. -/
theorem crash_rep {l : Log} {p : PMem Byte} {len : Nat} {body : List Byte}
    {cut : List (Op Byte)} {m' : Mem Byte} (hr : Rep ⟨p.durable, len⟩ body)
    (hp : p.PendingIn (Set.Ici (32 + body.length))) (hs : l.Synced ⟨p.view, len⟩ body)
    (a : Append) (hcut : cut <+: a.trace l) (hin : ∀ o ∈ cut, InMap len o)
    (hi : (p.run cut).Image m') :
    Rep ⟨m', len⟩ body ∨ Rep ⟨m', len⟩ (body ++ (a.data ++ commitWord)) := by
  have hview : Rep ⟨p.view, len⟩ body := hr.congr (PMem.view_eqOn hp)
  rcases cut_cases hview hs a hcut hin with hfill | ⟨hfit, post, rfl, hpost⟩
  · exact Or.inl (hr.congr (hi.scratch hp hfill))
  · have hbody : ∀ o ∈ fillOps (32 + body.length) a.data, o.Within (Set.Ici (32 + body.length)) :=
      fun o ho => (fillOps_within _ _ o ho).mono Set.Ico_subset_Ici_self
    rcases PMem.image_publish hp hbody hpost hi with hold | hnew
    · exact Or.inl (hr.congr hold)
    · right
      rw [hnew, exec_fillOps]
      exact hview.append hfit

/-! ## Runs with crashes -/

/-- A log in persistent memory over time.  `committed` is not part of the program: it is the list of
    entries the theorems compare with. -/
structure Durable where
  /-- The handle of the process that has the log open, if any. -/
  log : Option Log
  mem : PMem Byte
  len : Nat
  committed : List Entry

namespace Durable

/-- The file as a process that maps it reads it. -/
def file (s : Durable) : File := ⟨s.mem.view, s.len⟩

/-- A log just created by `Log::Log`; the zero bytes of its touch loop are not fenced. -/
def create (l : Log) (size : Nat) : Durable :=
  ⟨some l, (PMem.mk (fun _ => 0) []).run (ctorOps size), size, []⟩

/-- One event.  A crash issues some part of the trace of an append and leaves an image; the entry
    counts as committed if `hdr->tail` has moved. -/
inductive Step : Durable → Durable → Prop
  | append {s : Durable} {l l' : Log} {f' : File} (e : Entry) (a : Append)
      (hdata : a.data = e.bytes) (hlog : s.log = some l) (h : a.call l s.file = .ok (l', f')) :
      Step s ⟨some l', s.mem.run (a.trace l), s.len, s.committed ++ [e]⟩
  | refuse {s : Durable} {l : Log} (a : Append) (hlog : s.log = some l)
      (h : a.call l s.file = .error .exit) : Step s { s with log := none }
  | reopen {s : Durable} {l' : Log} {f' : File} (h : Log.ctor (some s.file) 0 = .ok (l', f')) :
      Step s { s with log := some l' }
  | crash {s : Durable} {l : Log} {m' : Mem Byte} (e : Entry) (a : Append)
      (hdata : a.data = e.bytes) (hlog : s.log = some l) (cut : List (Op Byte))
      (hcut : cut <+: a.trace l) (hin : ∀ o ∈ cut, InMap s.len o)
      (hi : (s.mem.run cut).Image m') :
      Step s ⟨none, ⟨m', []⟩, s.len,
        if word m' tailOff = word s.mem.view tailOff then s.committed else s.committed ++ [e]⟩

/-- The invariant: the durable bytes are a log of the committed entries, everything unfenced lies
    above the tail, and an open handle is in step. -/
structure Inv (s : Durable) : Prop where
  rep : Rep ⟨s.mem.durable, s.len⟩ (encode s.committed)
  above : s.mem.PendingIn (Set.Ici (32 + (encode s.committed).length))
  synced : ∀ l, s.log = some l → l.Synced s.file (encode s.committed)

variable {s s' : Durable}

/-- What a process reads is a log of the committed entries too. -/
theorem Inv.view (hi : s.Inv) : Rep s.file (encode s.committed) :=
  hi.rep.congr (PMem.view_eqOn hi.above)

theorem create_inv {size : Nat} {l : Log} {f : File} (hsize : sizeofLhdr ≤ size)
    (h : Log.ctor none size = .ok (l, f)) : (create l size).Inv := by
  obtain ⟨hr, hs, _⟩ := ctor_create hsize h
  obtain ⟨_, _, rfl⟩ := ctor_none.mp h
  -- behind the fenced header only the stores of the touch loop are pending
  have habove : (create l size).mem.PendingIn (Set.Ici 32) := by
    rw [create, ctorOps, PMem.run_fenced]
    exact (PMem.run_within (fun s hs => absurd hs List.not_mem_nil) (touch_within size)).1
  have hview : (create l size).mem.view = exec (fun _ => 0) (ctorOps size) := by
    rw [create, PMem.view_run, show (PMem.mk (fun _ => (0 : Byte)) []).view = fun _ => 0 from rfl]
  have hrep : Rep ⟨(create l size).mem.durable, size⟩ [] := by
    refine hr.congr (fun a ha => ?_)
    rw [← PMem.view_eqOn habove ha, hview]
  refine ⟨hrep, habove, ?_⟩
  intro l' hl'
  rw [← Option.some.inj hl']
  exact ⟨hs.mapped, hs.start, hs.stop, hs.write⟩

/-- **One event keeps the invariant**, and only ever extends the committed entries. -/
theorem Step.inv (h : Step s s') (hi : s.Inv) :
    s'.Inv ∧ s.committed <+: s'.committed := by
  cases h with
  | @append l l' f' e a hdata hlog h =>
    obtain ⟨_, htrace, rfl, hr', hs'⟩ := Append.call_ok hi.view (hi.synced l hlog) h
    rw [hdata, ← encode_concat] at hr' hs'
    -- the trace ends in a fence: everything is durable, and nothing is pending
    have hmem : s.mem.run (a.trace l) =
        ⟨appended s.mem.view (32 + (encode s.committed).length) e.bytes, []⟩ := by
      rw [htrace, appendOps, PMem.run_publish, exec_fillOps, hdata]
      rfl
    rw [hmem]
    refine ⟨⟨hr', fun _ hs => absurd hs List.not_mem_nil, ?_⟩, List.prefix_append _ _⟩
    rintro l'' ⟨⟩
    exact ⟨hs'.mapped, hs'.start, hs'.stop, hs'.write⟩
  | refuse a hlog h =>
    refine ⟨⟨hi.rep, hi.above, ?_⟩, List.prefix_rfl⟩
    rintro l ⟨⟩
  | reopen h =>
    rw [ctor_reopen hi.view] at h
    simp only [Except.ok.injEq, Prod.mk.injEq] at h
    refine ⟨⟨hi.rep, hi.above, ?_⟩, List.prefix_rfl⟩
    rintro l ⟨⟩
    rw [← h.1]
    exact handleOn_synced _ _
  | @crash l m' e a hdata hlog cut hcut hin himg =>
    have hold : word s.mem.view tailOff = 32 + (encode s.committed).length := hi.view.tail_eq
    rcases crash_rep hi.rep hi.above (hi.synced l hlog) a hcut hin himg with hr | hr
    · -- the tail has not moved
      have hsame : word m' tailOff = word s.mem.view tailOff := by
        rw [hold]
        exact hr.tail_eq
      rw [if_pos hsame]
      refine ⟨⟨hr, fun _ hs => absurd hs List.not_mem_nil, ?_⟩, List.prefix_rfl⟩
      rintro l'' ⟨⟩
    · rw [hdata, ← encode_concat] at hr
      have hnew : word m' tailOff = 32 + (encode (s.committed ++ [e])).length := hr.tail_eq
      have hmoved : word m' tailOff ≠ word s.mem.view tailOff := by
        rw [hnew, hold, encode_concat, tail_append]
        omega
      rw [if_neg hmoved]
      refine ⟨⟨hr, fun _ hs => absurd hs List.not_mem_nil, ?_⟩, List.prefix_append _ _⟩
      rintro l'' ⟨⟩

theorem Step.run_inv (h : Relation.ReflTransGen Step s s') (hi : s.Inv) :
    s'.Inv ∧ s.committed <+: s'.committed :=
  Runs.invariant_rel (P := Inv) (R := fun s s' => s.committed <+: s'.committed)
    (fun _ => List.prefix_rfl) List.IsPrefix.trans Step.inv h hi

end Durable

/-- **Crash atomicity.**  Whatever happened to a log before, cut a further append of a well-formed
    entry anywhere and lose any of its unfenced stores: reopening succeeds, `write_offset` is
    `hdr->tail`, a walk shows the entries committed before or those and the whole new entry, and
    every later run keeps what it shows. -/
theorem crash_atomicity {size : Nat} {l₀ : Log} {f₀ : File} (hsize : sizeofLhdr ≤ size)
    (hnew : Log.ctor none size = .ok (l₀, f₀)) {s : Durable}
    (hrun : Relation.ReflTransGen Durable.Step (Durable.create l₀ size) s) {l : Log}
    (hlog : s.log = some l) (e : Entry) (a : Append) (hdata : a.data = e.bytes)
    {cut : List (Op Byte)} (hcut : cut <+: a.trace l) (hin : ∀ o ∈ cut, InMap s.len o)
    {m' : Mem Byte} (hi : (s.mem.run cut).Image m') :
    s.file.Visits s.committed ∧
    ∃ l' es', (es' = s.committed ∨ es' = s.committed ++ [e]) ∧
      Log.ctor (some ⟨m', s.len⟩) 0 = .ok (l', ⟨m', s.len⟩) ∧
      l'.writeOffset = word m' tailOff ∧ File.Visits ⟨m', s.len⟩ es' ∧
      ∀ s', Relation.ReflTransGen Durable.Step ⟨some l', ⟨m', []⟩, s.len, es'⟩ s' →
        es' <+: s'.committed ∧ s'.file.Visits s'.committed := by
  have hinv := (Durable.Step.run_inv hrun (Durable.create_inv hsize hnew)).1
  have hrep : ∃ es', (es' = s.committed ∨ es' = s.committed ++ [e]) ∧
      Rep ⟨m', s.len⟩ (encode es') := by
    rcases crash_rep hinv.rep hinv.above (hinv.synced l hlog) a hcut hin hi with hr | hr
    · exact ⟨s.committed, Or.inl rfl, hr⟩
    · rw [hdata, ← encode_concat] at hr
      exact ⟨s.committed ++ [e], Or.inr rfl, hr⟩
  obtain ⟨es', hes, hr⟩ := hrep
  refine ⟨visits_of_rep hinv.view, handleOn ⟨m', s.len⟩ (encode es'), es', hes, ctor_reopen hr,
    hr.tail_eq.symm, visits_of_rep hr, ?_⟩
  intro s' hlater
  have hstart : Durable.Inv ⟨some (handleOn ⟨m', s.len⟩ (encode es')), ⟨m', []⟩, s.len, es'⟩ := by
    refine ⟨hr, fun _ hs => absurd hs List.not_mem_nil, ?_⟩
    intro l' hl'
    rw [← Option.some.inj hl']
    exact handleOn_synced _ _
  obtain ⟨hinv', hpre⟩ := Durable.Step.run_inv hlater hstart
  exact ⟨hpre, visits_of_rep hinv'.view⟩

/-- An entry without payload, its header all zeros. -/
def blankEntry : Entry := Entry.ofHdr blankHdr [] (by decide)

/-- The call that appends an entry from one buffer. -/
def appendEntry (e : Entry) (hlt : e.bytes.length < 2 ^ 64) : Append := .appendv [⟨e.bytes, hlt⟩]

theorem data_appendEntry (e : Entry) (hlt : e.bytes.length < 2 ^ 64) :
    (appendEntry e hlt).data = e.bytes := List.append_nil _

theorem length_blankEntry : blankEntry.bytes.length = 136 := by
  rw [blankEntry, Entry.bytes_ofHdr, List.append_nil, LeHdr.length_encode]

/-- The first append of the example below. -/
def appendBlank : Append := appendEntry blankEntry (by rw [length_blankEntry]; decide)

/-- Power fails after the first hundred stores of the first append to a new log. -/
theorem crash_atomicity_blank_entry :
    ∃ (l : Log) (f : File) (m' : Mem Byte) (l' : Log) (es' : List Entry),
      Log.ctor none 512 = .ok (l, f) ∧
      ((Durable.create l 512).mem.run ((appendBlank.trace l).take 100)).Image m' ∧
      (es' = [] ∨ es' = [blankEntry]) ∧ Log.ctor (some ⟨m', 512⟩) 0 = .ok (l', ⟨m', 512⟩) ∧
      File.Visits ⟨m', 512⟩ es' := by
  have hdata : appendBlank.data = blankEntry.bytes := data_appendEntry _ _
  have hlen : appendBlank.data.length = 136 := by rw [hdata, length_blankEntry]
  obtain ⟨l, f, hnew, hr, hs, hflen⟩ := ctor_ok 512 (by decide)
  obtain ⟨_, _, hcall⟩ := Append.call_of_fits hr hs appendBlank (by rw [hlen, hflen]; decide)
  obtain ⟨_, htrace, _⟩ := Append.call_ok hr hs hcall
  have hin : ∀ o ∈ (appendBlank.trace l).take 100, InMap 512 o := by
    intro o ho
    have hmem := List.mem_of_mem_take ho
    rw [htrace] at hmem
    exact appendOps_inMap (by rw [hlen]; decide) (by decide) o hmem
  have himg : ((Durable.create l 512).mem.run ((appendBlank.trace l).take 100)).Image _ :=
    ⟨[], List.nil_sublist _, rfl⟩
  obtain ⟨_, l', es', hes, hopen, _, hvisits, _⟩ := crash_atomicity (by decide) hnew
    Relation.ReflTransGen.refl rfl blankEntry appendBlank hdata
    (List.take_prefix 100 _) hin himg
  exact ⟨l, f, _, l', es', hnew, himg, hes, hopen, hvisits⟩

end NvStream
