/-
  The log directory (`src/sheap/memory_manager.cc`, `root.cc`), and several handles on one log.

  A `World` is one machine: the log files, the root object that lists their ids, the `idToLogMap`
  of every process, and all `Log` objects ever made, so that a handle is an index into `handles`
  and two holders of one index share its offsets.  `findLog` returns the cached handle only to the
  process that CREATED the log; everybody else gets a new `Log` on every call.

  That matters because an append trusts its handle: it writes at the cached `write_offset` and then
  stores `hdr->tail`, without looking at the tail that is there.  `stale_append` says what an append
  through a handle that lags behind does: it cuts the log back to what the handle knew, and adds its
  entry there.  So no entry is lost exactly as long as every append goes through a handle in step
  with `hdr->tail` (`no_lost_entry_iff`), and two handles used in turn lose one
  (`two_handles_lose_an_entry`).
-/
import NvStream.Log.Crash
import Mathlib.Logic.Function.Basic
import Mathlib.Data.List.Perm.Subperm

namespace NvStream

open FlatMem LittleEndian LoadProg PersistTrace

/-! ## The code -/

/-- `using LogId = uint8_t` -/
abbrev LogId := UInt8

/-- `MAX_LOGS` -/
def maxLogs : Nat := 256

/-- The files, the root object, and the memory of the processes. -/
structure World where
  /-- The log file of an id (`rootHeapPath + std::to_string(id)`). -/
  files : LogId → Option File
  /-- `struct nvs_root`: `log_id[0 .. length)`. -/
  root : List LogId
  /-- `idToLogMap`, process by process; a value is an index into `handles`. -/
  idToLogMap : Nat → LogId → Option Nat
  /-- Every `Log` object made so far, with the id it was opened for. -/
  handles : List (LogId × Log)

namespace World

/-- A freshly formatted root, and no process yet. -/
def empty : World := ⟨fun _ => none, [], fun _ _ => none, []⟩

/-- `RootHeap::isLogExist` -/
def isLogExist (w : World) (id : LogId) : Bool := w.root.contains id

/-- `RootHeap::addLog`: `log_id[length] = id; length = length + 1`, with no bound check. -/
def addLog (w : World) (id : LogId) : Except Stop World :=
  if w.root.length < maxLogs then .ok { w with root := w.root ++ [id] } else .error .undefined

/-- `new Log(..)`: the object gets the next index. -/
def newLog (w : World) (id : LogId) (l : Log) (f : File) : World :=
  { w with
    files := Function.update w.files id (some f)
    handles := w.handles ++ [(id, l)] }

/-- `MemoryManager::CreateLog`, called in process `p`. -/
def createLog (w : World) (p : Nat) (id : LogId) (size : Nat) : Except Stop (ErrorCode × World) :=
  if w.isLogExist id then .ok (.idInUse, w)
  else
    match Log.ctor (w.files id) size with
    | .error stop => .error stop
    | .ok (l, f) =>
      -- an id already in the soft state keeps its old handle
      let soft := match w.idToLogMap p id with
        | none => Function.update w.idToLogMap p
            (Function.update (w.idToLogMap p) id (some w.handles.length))
        | some _ => w.idToLogMap
      match ({ w.newLog id l f with idToLogMap := soft } : World).addLog id with
      | .error stop => .error stop
      | .ok w' => .ok (.noError, w')

/-- `MemoryManager::FindLog`, called in process `p`: the cached handle, or a new one on the existing
    file, which is NOT cached. -/
def findLog (w : World) (p : Nat) (id : LogId) : Except Stop (ErrorCode × Option Nat × World) :=
  match w.idToLogMap p id with
  | some h => .ok (.noError, some h, w)
  | none =>
    if w.isLogExist id then
      match Log.ctor (w.files id) 0 with
      | .error stop => .error stop
      | .ok (l, f) => .ok (.noError, some w.handles.length, w.newLog id l f)
    else .ok (.idNotFound, none, w)

/-- An append through handle `h` has returned. -/
def wrote (w : World) (h : Nat) (id : LogId) (l' : Log) (f' : File) : World :=
  { w with
    files := Function.update w.files id (some f')
    handles := w.handles.set h (id, l') }

/-! ## What the two calls do -/

variable {w w' : World} {p : Nat} {id : LogId}

theorem files_newLog (w : World) (id : LogId) (l : Log) (f : File) :
    (w.newLog id l f).files id = some f := by
  show Function.update w.files id (some f) id = some f
  rw [Function.update_self]

/-- `CreateLog` of a new id in a process that does not know it. -/
theorem createLog_new {size : Nat} {l : Log} {f : File} (hroot : w.isLogExist id = false)
    (hctor : Log.ctor (w.files id) size = .ok (l, f)) (hsoft : w.idToLogMap p id = none)
    (hroom : w.root.length < maxLogs) :
    w.createLog p id size = .ok (.noError, { w.newLog id l f with
      root := w.root ++ [id]
      idToLogMap := Function.update w.idToLogMap p
        (Function.update (w.idToLogMap p) id (some w.handles.length)) }) := by
  rw [createLog, if_neg (by rw [hroot]; exact Bool.false_ne_true), hctor, hsoft]
  simp only [addLog]
  rw [if_pos (show (w.newLog id l f).root.length < maxLogs from hroom)]
  rfl

/-- A `CreateLog` that returns has changed nothing, or has made the file. -/
theorem createLog_ok {size : Nat} {ec : ErrorCode} (hsize : size ≠ 0)
    (h : w.createLog p id size = .ok (ec, w')) :
    w' = w ∨ ∃ l f, w.files id = none ∧ Log.ctor none size = .ok (l, f) ∧
      w'.files = (w.newLog id l f).files ∧ w'.handles = (w.newLog id l f).handles := by
  rw [createLog] at h
  split at h
  · simp only [Except.ok.injEq, Prod.mk.injEq] at h
    exact Or.inl h.2.symm
  · split at h
    · cases h
    · rename_i l f hctor
      simp only [addLog] at h
      split at h
      · cases h
      · rename_i w'' hadd
        split at hadd
        · simp only [Except.ok.injEq, Prod.mk.injEq] at h hadd
          obtain ⟨_, rfl⟩ := h
          cases hfile : w.files id with
          | none =>
            rw [hfile] at hctor
            exact Or.inr ⟨l, f, rfl, hctor, by rw [← hadd], by rw [← hadd]⟩
          | some f₀ =>
            -- an existing file can be opened with size 0 only
            rw [hfile, ctor_exists f₀ (Nat.pos_of_ne_zero hsize)] at hctor
            cases hctor
        · cases hadd

/-- A `FindLog` that returns has changed nothing, or has made a new handle. -/
theorem findLog_ok {ec : ErrorCode} {ptr : Option Nat}
    (h : w.findLog p id = .ok (ec, ptr, w')) :
    w' = w ∨ ∃ f₀ l f, w.files id = some f₀ ∧ Log.ctor (some f₀) 0 = .ok (l, f) ∧
      w' = w.newLog id l f := by
  rw [findLog] at h
  split at h
  · simp only [Except.ok.injEq, Prod.mk.injEq] at h
    exact Or.inl h.2.2.symm
  · split at h
    · split at h
      · cases h
      · rename_i l f hctor
        simp only [Except.ok.injEq, Prod.mk.injEq] at h
        obtain ⟨_, _, rfl⟩ := h
        cases hfile : w.files id with
        | none =>
          rw [hfile] at hctor
          exact absurd (ctor_none.mp hctor).1.1 (by decide)
        | some f₀ =>
          rw [hfile] at hctor
          exact Or.inr ⟨f₀, l, f, rfl, hctor, rfl⟩
    · simp only [Except.ok.injEq, Prod.mk.injEq] at h
      exact Or.inl h.2.2.symm

end World

/-! ## An append through a handle that lags behind -/

/-- A log cut back: the same bytes, with `hdr->tail` moved down. -/
theorem Rep.cut {f : File} {body rest : List Byte} (hr : Rep f (body ++ rest)) :
    Rep ⟨store f.bytes tailOff (toLE 8 (32 + body.length)), f.len⟩ body := by
  have hroom := hr.room
  rw [List.length_append] at hroom
  have hout : ∀ off n, off + n ≤ tailOff ∨ 32 ≤ off →
      load (store f.bytes tailOff (toLE 8 (32 + body.length))) off n = load f.bytes off n := by
    intro off n h
    apply load_store_disjoint
    rw [length_toLE]
    simp only [tailOff] at h ⊢
    omega
  refine ⟨?_, ?_, by show 32 + body.length ≤ f.len; omega, hr.small⟩
  · have hheader := hr.header
    rw [show 32 = 24 + 8 from rfl, load_add] at hheader ⊢
    have hnew := load_store_self f.bytes tailOff (toLE 8 (32 + body.length))
    rw [length_toLE] at hnew
    rw [hout 0 24 (Or.inl (Nat.le_refl _))]
    simp only [LHdr.encode, ← List.append_assoc] at hheader ⊢
    rw [(List.append_inj hheader (by simp)).1]
    exact congrArg (_ ++ ·) hnew
  · rw [hout 32 _ (Or.inr (Nat.le_refl _))]
    exact ((load_append_iff _ _ _ _).mp hr.content).1

/-- The tail an append finds does not matter: it is overwritten. -/
theorem appended_cut (m : Mem Byte) (wo n : Nat) (data : List Byte) :
    appended (store m tailOff (toLE 8 n)) wo data = appended m wo data := by
  rw [appended, appended]
  apply store_ext
  intro a ha
  rw [length_toLE] at ha
  exact store_congr (store_out _ _ _ (by rw [length_toLE]; exact ha)) _ _

/-- Whether an append is accepted depends on the handle and the length of the file only. -/
theorem Append.call_congr {a : Append} {l l' : Log} {f f' : File}
    (h : a.call l f = .ok (l', f')) (m : Mem Byte) :
    a.call l ⟨m, f.len⟩ = .ok (l', ⟨exec m (a.trace l), f.len⟩) := by
  have hof := Append.of_call h
  rw [a.call_eq, Log.appendv, Log.appendWith] at h ⊢
  split at h
  · rename_i hspace
    rw [if_pos hspace]
    simp only at h ⊢
    split at h
    · rename_i hin
      rw [if_pos hin, a.trace_eq, if_pos hspace, hof.1, Append.after, a.copy_eq]
    · cases h
  · cases h

/-- **An append through a lagging handle** cuts the log back to what the handle knew, and adds its
    entry there.  With nothing to cut it is an ordinary append. -/
theorem stale_append {l l' : Log} {f f' : File} {pre rest : List Entry} {e : Entry} {a : Append}
    (hr : Rep f (encode (pre ++ rest))) (hs : l.Synced f (encode pre)) (hdata : a.data = e.bytes)
    (h : a.call l f = .ok (l', f')) :
    Rep f' (encode (pre ++ [e])) ∧ l'.Synced f' (encode (pre ++ [e])) := by
  rw [encode_append] at hr
  have hcut := hr.cut
  have hcall := Append.call_congr h (store f.bytes tailOff (toLE 8 (32 + (encode pre).length)))
  obtain ⟨_, htrace, hfile, hr', hs'⟩ :=
    Append.call_ok hcut ⟨hs.mapped, hs.start, hs.stop, hs.write⟩ hcall
  have hsame : f' = ⟨exec (store f.bytes tailOff (toLE 8 (32 + (encode pre).length)))
      (a.trace l), f.len⟩ := by
    rw [(Append.of_call h).2, htrace, exec_appendOps, exec_appendOps,
      appended_cut]
  rw [encode_concat, ← hdata, hsame]
  exact ⟨hr', hs'⟩

/-! ## Runs over many handles -/

/-- A world, and for each log the entries whose append has returned, in order. -/
structure History where
  world : World
  appended : LogId → List Entry

namespace History

/-- Nothing has happened yet. -/
def start : History := ⟨World.empty, fun _ => []⟩

/-- One call in one process, each atomic.  `ok` restricts the appends: which handle, on which file.
    A log must be created long enough to hold its own header. -/
inductive Step (ok : Log → File → Prop) : History → History → Prop
  | create {s : History} {w' : World} {ec : ErrorCode} (p : Nat) (id : LogId) (size : Nat)
      (hsize : sizeofLhdr ≤ size) (h : s.world.createLog p id size = .ok (ec, w')) :
      Step ok s { s with world := w' }
  | find {s : History} {w' : World} {ec : ErrorCode} {ptr : Option Nat} (p : Nat) (id : LogId)
      (h : s.world.findLog p id = .ok (ec, ptr, w')) : Step ok s { s with world := w' }
  | append {s : History} {id : LogId} {l l' : Log} {f f' : File} (h : Nat) (e : Entry)
      (a : Append) (hdata : a.data = e.bytes) (hget : s.world.handles[h]? = some (id, l))
      (hfile : s.world.files id = some f) (hok : ok l f) (hcall : a.call l f = .ok (l', f')) :
      Step ok s ⟨s.world.wrote h id l' f',
        Function.update s.appended id (s.appended id ++ [e])⟩

theorem Step.mono {ok ok' : Log → File → Prop} (hok : ∀ l f, ok l f → ok' l f) {s s' : History}
    (h : Step ok s s') : Step ok' s s' := by
  cases h with
  | create p id size hsize h => exact .create p id size hsize h
  | find p id h => exact .find p id h
  | append h e a hdata hget hfile hl hcall => exact .append h e a hdata hget hfile (hok _ _ hl) hcall

/-- What an append through handle `h` leaves. -/
theorem Step.of_call (ok : Log → File → Prop) {s : History} {id : LogId} {l l' : Log}
    {f f' : File} {h : Nat} {e : Entry} {a : Append} (hdata : a.data = e.bytes)
    (hget : s.world.handles[h]? = some (id, l)) (hfile : s.world.files id = some f) (hok : ok l f)
    (hcall : a.call l f = .ok (l', f')) :
    ∃ s', Step ok s s' ∧ s'.world.files id = some f' ∧
      s'.world.handles = s.world.handles.set h (id, l') ∧
      s'.appended id = s.appended id ++ [e] := by
  refine ⟨_, .append h e a hdata hget hfile hok hcall, ?_, rfl, ?_⟩
  · show Function.update s.world.files id (some f') id = some f'
    rw [Function.update_self]
  · show Function.update s.appended id (s.appended id ++ [e]) id = _
    rw [Function.update_self]

/-- Every file is a log of all its appends, and every handle knew a part of them. -/
structure Inv (s : History) : Prop where
  file : ∀ id f, s.world.files id = some f → Rep f (encode (s.appended id))
  none : ∀ id, s.world.files id = none → s.appended id = []
  handle : ∀ id l, (id, l) ∈ s.world.handles →
    ∃ f pre, s.world.files id = some f ∧ pre <+: s.appended id ∧ l.Synced f (encode pre)

end History

/-- The handle is in step with the file: an append will go where `hdr->tail` points. -/
def Log.InStep (l : Log) (f : File) : Prop := l.writeOffset = word f.bytes tailOff

namespace History

variable {s s' : History}

/-- The invariant after a call on log `id`: its file is `f` and has `es` now, the other files are
    as before, and each handle is an old one or was in step with `es` on `f`. -/
theorem Inv.update (hi : s.Inv) {id : LogId} {f : File} {es : List Entry} {w' : World}
    (hfiles : w'.files = Function.update s.world.files id (some f)) (hr : Rep f (encode es))
    (hpre : s.appended id <+: es)
    (hlen : ∀ f₀, s.world.files id = some f₀ → f.len = f₀.len)
    (hhandles : ∀ id' l, (id', l) ∈ w'.handles →
      (id', l) ∈ s.world.handles ∨ (id' = id ∧ l.Synced f (encode es))) :
    Inv ⟨w', Function.update s.appended id es⟩ := by
  have hself : w'.files id = some f := by rw [hfiles, Function.update_self]
  have hother : ∀ id', id' ≠ id → w'.files id' = s.world.files id' := by
    intro id' hne
    rw [hfiles, Function.update_of_ne hne]
  refine ⟨?_, ?_, ?_⟩
  · intro id' f' hf'
    show Rep f' (encode (Function.update s.appended id es id'))
    by_cases hid : id' = id
    · rw [hid] at hf' ⊢
      rw [Function.update_self, ← Option.some.inj (hself.symm.trans hf')]
      exact hr
    · rw [Function.update_of_ne hid]
      exact hi.file id' f' ((hother id' hid).symm.trans hf')
  · intro id' hf'
    show Function.update s.appended id es id' = []
    by_cases hid : id' = id
    · rw [hid] at hf'
      cases hself.symm.trans hf'
    · rw [Function.update_of_ne hid]
      exact hi.none id' ((hother id' hid).symm.trans hf')
  · intro id' l hmem
    show ∃ f' pre, w'.files id' = some f' ∧ pre <+: Function.update s.appended id es id' ∧ _
    rcases hhandles id' l hmem with hmem | ⟨hid, hs⟩
    · obtain ⟨f₀, pre, hf₀, hpre₀, hs₀⟩ := hi.handle id' l hmem
      by_cases hid : id' = id
      · rw [hid] at hf₀ hpre₀ ⊢
        rw [Function.update_self]
        exact ⟨f, pre, hself, hpre₀.trans hpre, hs₀.congr (hlen f₀ hf₀)⟩
      · rw [Function.update_of_ne hid]
        exact ⟨f₀, pre, (hother id' hid).trans hf₀, hpre₀, hs₀⟩
    · rw [hid, Function.update_self]
      exact ⟨f, es, hself, List.prefix_rfl, hs⟩

/-- A new handle, in step with a file that holds all its appends, joins the others. -/
theorem Inv.newLog (hi : s.Inv) {id : LogId} {l : Log} {f : File} {w' : World}
    (hr : Rep f (encode (s.appended id))) (hs : l.Synced f (encode (s.appended id)))
    (hlen : ∀ f₀, s.world.files id = some f₀ → f.len = f₀.len)
    (hfiles : w'.files = (s.world.newLog id l f).files)
    (hhandles : w'.handles = (s.world.newLog id l f).handles) :
    Inv { s with world := w' } := by
  have h := hi.update hfiles hr List.prefix_rfl hlen (by
    intro id' l' hmem
    rw [hhandles] at hmem
    rcases List.mem_append.mp hmem with hmem | hmem
    · exact Or.inl hmem
    · obtain ⟨rfl, rfl⟩ := Prod.mk.inj (List.mem_singleton.mp hmem)
      exact Or.inr ⟨rfl, hs⟩)
  rw [Function.update_eq_self] at h
  exact h

/-- The handles of a log each know a prefix of it; one in step knows all of it. -/
theorem Inv.inStep_iff (hi : s.Inv) {id : LogId} {l : Log} {f : File} {pre : List Entry}
    (hfile : s.world.files id = some f) (hpre : pre <+: s.appended id)
    (hs : l.Synced f (encode pre)) : l.InStep f ↔ pre = s.appended id := by
  rw [Log.InStep, hs.write, (hi.file id f hfile).tail_eq]
  constructor
  · intro h
    exact eq_of_prefix_of_length hpre (by omega)
  · intro h
    rw [h]

/-- **One call keeps the invariant**, if every append goes through a handle in step. -/
theorem Step.inv (h : Step Log.InStep s s') (hi : s.Inv) : s'.Inv := by
  cases h with
  | create p id size hsize h =>
    rcases World.createLog_ok (by rintro rfl; exact absurd hsize (by decide)) h with
      rfl | ⟨l, f, hnone, hctor, hfiles, hhandles⟩
    · exact hi
    · obtain ⟨hr, hs, _⟩ := ctor_create hsize hctor
      rw [← encode_nil, ← hi.none id hnone] at hr hs
      refine hi.newLog hr hs ?_ hfiles hhandles
      intro f₀ hf₀
      cases hnone.symm.trans hf₀
  | find p id h =>
    rcases World.findLog_ok h with rfl | ⟨f₀, l, f, hf₀, hctor, rfl⟩
    · exact hi
    · have hr := hi.file id f₀ hf₀
      rw [ctor_reopen hr] at hctor
      obtain ⟨rfl, rfl⟩ := Prod.mk.inj (Except.ok.inj hctor)
      refine hi.newLog hr (handleOn_synced _ _) ?_ rfl rfl
      intro f₁ hf₁
      rw [Option.some.inj (hf₀.symm.trans hf₁)]
  | @append id l l' f f' h e a hdata hget hfile hok hcall =>
    obtain ⟨f₀, pre, hf₀, hpre, hs⟩ := hi.handle id l (List.mem_of_getElem? hget)
    obtain rfl := Option.some.inj (hfile.symm.trans hf₀)
    rw [hi.inStep_iff hfile hpre hs] at hok
    have hr := hi.file id f hfile
    rw [hok] at hs
    rw [← List.append_nil (s.appended id)] at hr
    obtain ⟨hr', hs'⟩ := stale_append hr hs hdata hcall
    refine hi.update rfl hr' (List.prefix_append _ _) ?_ ?_
    · intro f₁ hf₁
      rw [← Option.some.inj (hfile.symm.trans hf₁), (Append.of_call hcall).2]
    · intro id' l'' hmem
      rcases List.mem_or_eq_of_mem_set hmem with hmem | heq
      · exact Or.inl hmem
      · obtain ⟨rfl, rfl⟩ := Prod.mk.inj heq
        exact Or.inr ⟨rfl, hs'⟩

theorem start_inv : start.Inv := by
  refine ⟨?_, fun _ _ => rfl, ?_⟩
  · intro id f hf
    cases hf
  · intro id l hmem
    exact absurd hmem List.not_mem_nil

theorem Step.run_inv (h : Relation.ReflTransGen (Step Log.InStep) start s) : s.Inv :=
  Runs.invariant Step.inv h start_inv

end History

/-! ## No lost entry -/

/-- Each of `es` is visited, with its exact bytes, by a walk.  A walk reads `head` and `tail` from
    the file, so it is the same through every handle. -/
def File.ShowsAll (f : File) (es : List Entry) : Prop :=
  ∃ bound, ∀ fuel, bound ≤ fuel → ∃ code vs cursor,
    f.run (walk observe fuel []) = .ok (code, vs, cursor) ∧
    (es.map Entry.bytes).Subperm (vs.map Visit.bytes)

theorem File.Visits.showsAll {f : File} {es : List Entry} (h : f.Visits es) : f.ShowsAll es := by
  refine ⟨es.length + 1, fun fuel hfuel => ⟨_, _, _, h fuel hfuel, ?_⟩⟩
  rw [map_bytes_visitsFrom]

/-- A log of `es` shows no more than `es`. -/
theorem File.Visits.length_le {f : File} {es es' : List Entry} (h : f.Visits es)
    (hall : f.ShowsAll es') : es'.length ≤ es.length := by
  obtain ⟨bound, hall⟩ := hall
  obtain ⟨code, vs, cursor, hrun, hsub⟩ := hall (bound + es.length + 1) (by omega)
  rw [h _ (by omega)] at hrun
  simp only [Except.ok.injEq, Prod.mk.injEq] at hrun
  obtain ⟨_, rfl, _⟩ := hrun
  have hle := hsub.length_le
  rw [map_bytes_visitsFrom, List.length_map, List.length_map] at hle
  exact hle

/-- **When no entry is lost.**  After any run in which every append went through a handle in step
    with `hdr->tail`, each log shows all its entries.  A further accepted append, through any
    handle, keeps it so exactly if that handle is in step. -/
theorem no_lost_entry_iff {s : History}
    (hrun : Relation.ReflTransGen (History.Step Log.InStep) History.start s) :
    (∀ id f, s.world.files id = some f → f.Visits (s.appended id)) ∧
    ∀ (h : Nat) (id : LogId) (l l' : Log) (f f' : File) (e : Entry) (a : Append),
      s.world.handles[h]? = some (id, l) → s.world.files id = some f → a.data = e.bytes →
      a.call l f = .ok (l', f') → (f'.ShowsAll (s.appended id ++ [e]) ↔ l.InStep f) := by
  have hi := History.Step.run_inv hrun
  refine ⟨fun id f hfile => visits_of_rep (hi.file id f hfile), ?_⟩
  intro h id l l' f f' e a hget hfile hdata hcall
  obtain ⟨f₀, pre, hf₀, hpre, hs⟩ := hi.handle id l (List.mem_of_getElem? hget)
  obtain rfl := Option.some.inj (hfile.symm.trans hf₀)
  have hr := hi.file id f hfile
  obtain ⟨rest, hrest⟩ := hpre
  rw [← hrest] at hr
  have hvisits := visits_of_rep (stale_append hr hs hdata hcall).1
  rw [hi.inStep_iff hfile ⟨rest, hrest⟩ hs]
  constructor
  · -- the file shows what the handle knew and `e`: that is all only if the handle knew all
    intro hall
    have hle := hvisits.length_le hall
    rw [← hrest, List.length_append, List.length_append, List.length_append] at hle
    have hnil : rest = [] := List.eq_nil_of_length_eq_zero (by omega)
    rw [← hrest, hnil, List.append_nil]
  · intro h
    rw [← h]
    exact hvisits.showsAll

/-- One process creates a log of 1024 bytes, and two others find it. -/
theorem two_finders : ∃ (s : History) (f : File) (l₀ : Log),
    Relation.ReflTransGen (History.Step Log.InStep) History.start s ∧
    s.world.files 1 = some f ∧ s.world.handles = [(1, l₀), (1, handleOn f []), (1, handleOn f [])] ∧
    s.appended 1 = [] ∧ Rep f [] ∧ f.len = 1024 := by
  obtain ⟨l₀, f, hnew, hr, _, hlen⟩ := ctor_ok 1024 (by decide)
  obtain ⟨w₁, h₁, hfile₁, hhandles₁, hroot₁, hsoft₁⟩ : ∃ w₁,
      World.empty.createLog 0 1 1024 = .ok (.noError, w₁) ∧ w₁.files 1 = some f ∧
      w₁.handles = [(1, l₀)] ∧ w₁.root = [1] ∧ ∀ p, p ≠ 0 → w₁.idToLogMap p 1 = none := by
    refine ⟨_, World.createLog_new rfl hnew rfl (by decide), World.files_newLog .empty 1 l₀ f, rfl,
      rfl, ?_⟩
    intro p hp
    show Function.update World.empty.idToLogMap 0 _ p 1 = none
    rw [Function.update_of_ne hp]
    rfl
  have hfind : ∀ w : World, w.files 1 = some f → w.root = [1] → ∀ p, w.idToLogMap p 1 = none →
      w.findLog p 1 = .ok (.noError, some w.handles.length, w.newLog 1 (handleOn f []) f) := by
    intro w hfile hroot p hsoft
    rw [World.findLog, hsoft, World.isLogExist, hroot, hfile, ctor_reopen hr]
    rfl
  have hfile₂ := World.files_newLog w₁ 1 (handleOn f []) f
  have hstep₁ : History.Step Log.InStep .start ⟨w₁, fun _ => []⟩ :=
    .create 0 1 1024 (by decide) h₁
  have hstep₂ : History.Step Log.InStep ⟨w₁, fun _ => []⟩
      ⟨w₁.newLog 1 (handleOn f []) f, fun _ => []⟩ :=
    .find 1 1 (hfind w₁ hfile₁ hroot₁ 1 (hsoft₁ 1 (by decide)))
  have hstep₃ : History.Step Log.InStep ⟨w₁.newLog 1 (handleOn f []) f, fun _ => []⟩
      ⟨(w₁.newLog 1 (handleOn f []) f).newLog 1 (handleOn f []) f, fun _ => []⟩ :=
    .find 2 1 (hfind _ hfile₂ hroot₁ 2 (hsoft₁ 2 (by decide)))
  refine ⟨_, f, l₀, .tail (.tail (.single hstep₁) hstep₂) hstep₃, World.files_newLog _ _ _ _, ?_,
    rfl, hr, hlen⟩
  show (w₁.handles ++ [_]) ++ [_] = _
  rw [hhandles₁]
  rfl

/-- An entry with a payload of one byte. -/
def byteEntry : Entry := Entry.ofHdr { blankHdr with len := 1 } [7] (by decide)

theorem length_byteEntry : byteEntry.bytes.length = 137 := by
  rw [byteEntry, Entry.bytes_ofHdr, List.length_append, LeHdr.length_encode]
  rfl

/-- The append of the second finder in the example below. -/
def appendByte : Append := appendEntry byteEntry (by rw [length_byteEntry]; decide)

/-- The two finders append in turn.  The second, whose handle still points behind the header,
    overwrites the entry of the first, and the log shows one entry where two appends returned. -/
theorem two_handles_lose_an_entry : ∃ (s : History) (f : File) (e₁ e₂ : Entry),
    Relation.ReflTransGen (History.Step (fun _ _ => True)) History.start s ∧
    s.world.files 1 = some f ∧ s.appended 1 = [e₁, e₂] ∧ e₁.bytes ≠ e₂.bytes ∧
    f.Visits [e₂] ∧ ¬ f.ShowsAll (s.appended 1) := by
  obtain ⟨s, f, l₀, hrun, hfile, hhandles, hnone, hr, hlen⟩ := two_finders
  have hs := handleOn_synced f []
  have hdata₁ : appendBlank.data = blankEntry.bytes := data_appendEntry _ _
  have hdata₂ : appendByte.data = byteEntry.bytes := data_appendEntry _ _
  obtain ⟨l₁, f₁, hcall₁⟩ := Append.call_of_fits hr hs appendBlank
    (by rw [hdata₁, length_blankEntry, hlen]; decide)
  obtain ⟨l₂, f₂, hcall₂⟩ := Append.call_of_fits hr hs appendByte
    (by rw [hdata₂, length_byteEntry, hlen]; decide)
  have hlen₁ : f₁ = ⟨f₁.bytes, f.len⟩ := by rw [(Append.of_call hcall₁).2]
  -- the second append goes to the file the first has left
  have hcall₂' := Append.call_congr hcall₂ f₁.bytes
  rw [← hlen₁] at hcall₂'
  obtain ⟨hr₁, _⟩ := stale_append (show Rep f (encode ([] ++ [])) from hr) hs hdata₁ hcall₁
  obtain ⟨hr₂, _⟩ := stale_append (show Rep f₁ (encode ([] ++ [blankEntry])) from hr₁)
    (hs.congr (by rw [hlen₁])) hdata₂ hcall₂'
  have hvisits := visits_of_rep hr₂
  obtain ⟨s₁, hstep₁, hfile₁, hhandles₁, happ₁⟩ := History.Step.of_call (fun _ _ => True) hdata₁
    (show s.world.handles[1]? = some (1, handleOn f []) by rw [hhandles]; rfl) hfile trivial hcall₁
  obtain ⟨s₂, hstep₂, hfile₂, _, happ₂⟩ := History.Step.of_call (fun _ _ => True) hdata₂
    (show s₁.world.handles[2]? = some (1, handleOn f []) by rw [hhandles₁, hhandles]; rfl)
    hfile₁ trivial hcall₂'
  have hrun' : Relation.ReflTransGen (History.Step (fun _ _ => True)) History.start s :=
    Relation.ReflTransGen.mono
      (fun _ _ (h : History.Step Log.InStep _ _) => h.mono (fun _ _ _ => trivial)) _ _ hrun
  rw [happ₁, hnone] at happ₂
  refine ⟨s₂, _, blankEntry, byteEntry, .tail (.tail hrun' hstep₁) hstep₂, hfile₂, happ₂, ?_,
    hvisits, ?_⟩
  · intro h
    have hlength := congrArg List.length h
    rw [length_blankEntry, length_byteEntry] at hlength
    omega
  · intro hall
    have hle := hvisits.length_le hall
    rw [happ₂] at hle
    exact absurd hle (by decide)

/-- The first of them alone loses nothing, and its append goes to a handle in step. -/
theorem no_lost_entry_first_append : ∃ (s : History) (f f' : File) (l l' : Log),
    Relation.ReflTransGen (History.Step Log.InStep) History.start s ∧
    s.world.handles[1]? = some (1, l) ∧ s.world.files 1 = some f ∧
    appendBlank.call l f = .ok (l', f') ∧ f.Visits (s.appended 1) ∧ l.InStep f ∧
    f'.ShowsAll (s.appended 1 ++ [blankEntry]) := by
  obtain ⟨s, f, l₀, hrun, hfile, hhandles, hnone, hr, hlen⟩ := two_finders
  have hdata : appendBlank.data = blankEntry.bytes := data_appendEntry _ _
  obtain ⟨l', f', hcall⟩ := Append.call_of_fits hr (handleOn_synced f []) appendBlank
    (by rw [hdata, length_blankEntry, hlen]; decide)
  have hget : s.world.handles[1]? = some (1, handleOn f []) := by rw [hhandles]; rfl
  have hin : (handleOn f []).InStep f := hr.tail_eq.symm
  obtain ⟨hshown, hiff⟩ := no_lost_entry_iff hrun
  exact ⟨s, f, f', _, l', hrun, hget, hfile, hcall, hshown 1 f hfile, hin,
    (hiff 1 1 _ l' f f' blankEntry appendBlank hget hfile hdata hcall).mpr hin⟩

end NvStream
