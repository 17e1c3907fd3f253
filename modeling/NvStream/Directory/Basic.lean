/-
  The log directory, step by step (`src/sheap/memory_manager.cc`, `root.cc`, and the constructor of
  `NVSStore`).

  `World` (in `MemoryManager`) performs `CreateLog` and `FindLog` in one go.  Here several processes
  are INSIDE these calls at once.  A `Point` is a place in the code of a call, and `Point.step`
  executes what stands there, up to the next place where another process may come in:

      CreateLog   createCheck   isLogExist(id)                 under the root mutex
                  createFile    new Log(path, size, id)        under the root mutex
                  remember      idToLogMap[id] = log
                  register      addLog(id)                     under the root mutex
      FindLog     findSoft      idToLogMap.find(id)
                  findCheck     isLogExist(id)                 under the root mutex
                  findOpen      new Log(path, 0, id)

  A critical section is one step, so the mutex is free between steps, unless a process died inside
  its section: `held`.  The root object is kept as the array it is, with whatever stands behind
  `length`.

  `createLog_refines` and `findLog_refines` connect the two models: a call that nobody disturbs does
  what `World` says.
-/
import NvStream.MemoryManager
import NvStream.NvsStore.Basic
import NvStream.Lib.Interleave

namespace NvStream

open FlatMem LittleEndian LoadProg PersistTrace Interleave

/-! ## The root object -/

/-- `struct nvs_root` -/
structure NvsRoot where
  length : Nat
  /-- `log_id`; the array ends at `maxLogs`. -/
  logId : Nat → Int

namespace NvsRoot

/-- What `heapFormatter` leaves. -/
def formatted : NvsRoot := ⟨0, fun _ => 0⟩

/-- `log_id[0 .. length)` -/
def ids (r : NvsRoot) : List Int := (List.range r.length).map r.logId

/-- The loop of `RootHeap::isLogExist`. -/
def isLogExist (r : NvsRoot) (id : LogId) : Bool :=
  (List.range r.length).any (fun i => r.logId i = id.toNat)

/-- The store `log_id[length] = id`. -/
def storeId (r : NvsRoot) (id : LogId) : NvsRoot :=
  { r with logId := Function.update r.logId r.length (id.toNat : Int) }

/-- The store `length = length + 1`. -/
def storeLength (r : NvsRoot) : NvsRoot := { r with length := r.length + 1 }

/-- `RootHeap::addLog`, with no bound check: beyond `MAX_LOGS` the store leaves the array. -/
def addLog (r : NvsRoot) (id : LogId) : Except Stop NvsRoot :=
  if r.length < maxLogs then .ok (r.storeId id).storeLength else .error .undefined

/-- The object lists these ids. -/
def Lists (r : NvsRoot) (ids : List LogId) : Prop := r.ids = ids.map (fun id => (id.toNat : Int))

variable {r : NvsRoot} {ids : List LogId}

theorem length_ids (r : NvsRoot) : r.ids.length = r.length := by
  rw [NvsRoot.ids, List.length_map, List.length_range]

theorem isLogExist_iff (r : NvsRoot) (id : LogId) :
    r.isLogExist id = true ↔ (id.toNat : Int) ∈ r.ids := by
  rw [isLogExist, List.any_eq_true, NvsRoot.ids, List.mem_map]
  constructor
  · rintro ⟨i, hi, heq⟩
    exact ⟨i, hi, of_decide_eq_true heq⟩
  · rintro ⟨i, hi, heq⟩
    exact ⟨i, hi, decide_eq_true heq⟩

theorem toInt_inj {id id' : LogId} (h : (id.toNat : Int) = id'.toNat) : id = id' :=
  UInt8.toNat_inj.mp (Int.ofNat.inj h)

theorem Lists.length_eq (h : r.Lists ids) : r.length = ids.length := by
  rw [← r.length_ids, h, List.length_map]

theorem Lists.isLogExist_iff (h : r.Lists ids) (id : LogId) :
    r.isLogExist id = true ↔ id ∈ ids := by
  rw [NvsRoot.isLogExist_iff, h, List.mem_map]
  constructor
  · rintro ⟨id', hid', heq⟩
    rw [← toInt_inj heq]
    exact hid'
  · intro hid
    exact ⟨id, hid, rfl⟩

/-- The store of the id does not list it yet. -/
theorem ids_storeId (r : NvsRoot) (id : LogId) : (r.storeId id).ids = r.ids := by
  apply List.map_congr_left
  intro i hi
  exact Function.update_of_ne (Nat.ne_of_lt (List.mem_range.mp hi)) ..

/-- The store of the length lists whatever stands behind the listed ids. -/
theorem ids_storeLength (r : NvsRoot) : r.storeLength.ids = r.ids ++ [r.logId r.length] := by
  show (List.range (r.length + 1)).map r.logId = _
  rw [List.range_succ, List.map_append, List.map_singleton]
  rfl

/-- What is listed when the two stores of `addLog` are done. -/
theorem ids_added (r : NvsRoot) (id : LogId) :
    (r.storeId id).storeLength.ids = r.ids ++ [(id.toNat : Int)] := by
  have hlast : (r.storeId id).logId (r.storeId id).length = id.toNat := Function.update_self ..
  rw [ids_storeLength, ids_storeId, hlast]

theorem Lists.addLog (h : r.Lists ids) (id : LogId) :
    (r.storeId id).storeLength.Lists (ids ++ [id]) := by
  rw [Lists, ids_added, h, List.map_append, List.map_singleton]

end NvsRoot

/-! ## The calls -/

/-- What the processes share, and the soft state of each of them. -/
structure Site where
  /-- The log file of an id. -/
  files : LogId → Option File
  root : NvsRoot
  /-- A process died while it held the root mutex. -/
  held : Bool
  /-- `idToLogMap`, process by process. -/
  idToLogMap : Nat → LogId → Option Log

namespace Site

/-- `Log::Log` has returned, and left `f` at the path of log `id`. -/
def withFile (s : Site) (id : LogId) (f : File) : Site :=
  { s with files := Function.update s.files id (some f) }

/-- `idToLogMap[id] = log`, in process `p`. -/
def withSoft (s : Site) (p : Nat) (id : LogId) (log : Log) : Site :=
  { s with
    idToLogMap := Function.update s.idToLogMap p
      (Function.update (s.idToLogMap p) id (some log)) }

/-- `exit(1)` between `lock` and `unlock`. -/
def abandoned (s : Site) : Site := { s with held := true }

end Site

/-- A place in `CreateLog` or `FindLog`, or how the call ended. -/
inductive Point where
  | createCheck (id : LogId) (size : Nat)
  | createFile (id : LogId) (size : Nat)
  | remember (id : LogId) (log : Log)
  | register (id : LogId)
  | findSoft (id : LogId)
  | findCheck (id : LogId)
  | findOpen (id : LogId)
  | returned (ret : ErrorCode) (log : Option Log)
  | stopped (why : Stop)

/-- Process `p` executes what stands at its place.  `none`: there is nothing left to do, or the
    mutex cannot be had. -/
def Point.step (p : Nat) (s : Site) : Point → Option (Site × Point)
  | createCheck id size =>
    if s.held then none
    else if s.root.isLogExist id then some (s, returned .idInUse none)
    else some (s, createFile id size)
  | createFile id size =>
    if s.held then none
    else
      match Log.ctor (s.files id) size with
      | .error why => some (s.abandoned, stopped why)
      | .ok (l, f) => some (s.withFile id f, remember id l)
  | remember id log =>
    match s.idToLogMap p id with
    | none => some (s.withSoft p id log, register id)
    | some _ => some (s, register id)
  | register id =>
    if s.held then none
    else
      match s.root.addLog id with
      | .error why => some (s.abandoned, stopped why)
      | .ok root => some ({ s with root := root }, returned .noError none)
  | findSoft id =>
    match s.idToLogMap p id with
    | some log => some (s, returned .noError (some log))
    | none => some (s, findCheck id)
  | findCheck id =>
    if s.held then none
    else if s.root.isLogExist id then some (s, findOpen id)
    else some (s, returned .idNotFound none)
  | findOpen id =>
    match Log.ctor (s.files id) 0 with
    | .error why => some (s, stopped why)
    | .ok (l, f) => some (s.withFile id f, returned .noError (some l))
  | returned _ _ => none
  | stopped _ => none

/-- All that one step can do. -/
inductive Point.Does (p : Nat) (s : Site) : Point → Site → Point → Prop
  | inUse {id : LogId} {size : Nat} (hfree : s.held = false) (h : s.root.isLogExist id = true) :
      Does p s (.createCheck id size) s (.returned .idInUse none)
  | unused {id : LogId} {size : Nat} (hfree : s.held = false) (h : s.root.isLogExist id = false) :
      Does p s (.createCheck id size) s (.createFile id size)
  | made {id : LogId} {size : Nat} {l : Log} {f : File} (hfree : s.held = false)
      (h : Log.ctor (s.files id) size = .ok (l, f)) :
      Does p s (.createFile id size) (s.withFile id f) (.remember id l)
  | notMade {id : LogId} {size : Nat} {why : Stop} (hfree : s.held = false)
      (h : Log.ctor (s.files id) size = .error why) :
      Does p s (.createFile id size) s.abandoned (.stopped why)
  | remembered {id : LogId} {log : Log} (h : s.idToLogMap p id = none) :
      Does p s (.remember id log) (s.withSoft p id log) (.register id)
  | known {id : LogId} {log log' : Log} (h : s.idToLogMap p id = some log') :
      Does p s (.remember id log) s (.register id)
  | registered {id : LogId} {root : NvsRoot} (hfree : s.held = false)
      (h : s.root.addLog id = .ok root) :
      Does p s (.register id) { s with root := root } (.returned .noError none)
  | full {id : LogId} {why : Stop} (hfree : s.held = false) (h : s.root.addLog id = .error why) :
      Does p s (.register id) s.abandoned (.stopped why)
  | cached {id : LogId} {log : Log} (h : s.idToLogMap p id = some log) :
      Does p s (.findSoft id) s (.returned .noError (some log))
  | notCached {id : LogId} (h : s.idToLogMap p id = none) :
      Does p s (.findSoft id) s (.findCheck id)
  | listed {id : LogId} (hfree : s.held = false) (h : s.root.isLogExist id = true) :
      Does p s (.findCheck id) s (.findOpen id)
  | unlisted {id : LogId} (hfree : s.held = false) (h : s.root.isLogExist id = false) :
      Does p s (.findCheck id) s (.returned .idNotFound none)
  | reopened {id : LogId} {l : Log} {f : File} (h : Log.ctor (s.files id) 0 = .ok (l, f)) :
      Does p s (.findOpen id) (s.withFile id f) (.returned .noError (some l))
  | notReopened {id : LogId} {why : Stop} (h : Log.ctor (s.files id) 0 = .error why) :
      Does p s (.findOpen id) s (.stopped why)

theorem Point.does_of_step {p : Nat} {s s' : Site} {pt pt' : Point}
    (h : pt.step p s = some (s', pt')) : pt.Does p s s' pt' := by
  cases pt with
  | createCheck id size =>
    rw [Point.step] at h
    split at h
    · cases h
    · rename_i hfree
      split at h
      · rename_i hlisted
        cases h
        exact .inUse (Bool.eq_false_of_not_eq_true hfree) hlisted
      · rename_i hlisted
        cases h
        exact .unused (Bool.eq_false_of_not_eq_true hfree) (Bool.eq_false_of_not_eq_true hlisted)
  | createFile id size =>
    rw [Point.step] at h
    split at h
    · cases h
    · rename_i hfree
      split at h
      · rename_i why hctor
        cases h
        exact .notMade (Bool.eq_false_of_not_eq_true hfree) hctor
      · rename_i l f hctor
        cases h
        exact .made (Bool.eq_false_of_not_eq_true hfree) hctor
  | remember id log =>
    rw [Point.step] at h
    split at h
    · rename_i hsoft
      cases h
      exact .remembered hsoft
    · rename_i log' hsoft
      cases h
      exact .known hsoft
  | register id =>
    rw [Point.step] at h
    split at h
    · cases h
    · rename_i hfree
      split at h
      · rename_i why hadd
        cases h
        exact .full (Bool.eq_false_of_not_eq_true hfree) hadd
      · rename_i root hadd
        cases h
        exact .registered (Bool.eq_false_of_not_eq_true hfree) hadd
  | findSoft id =>
    rw [Point.step] at h
    split at h
    · rename_i log hsoft
      cases h
      exact .cached hsoft
    · rename_i hsoft
      cases h
      exact .notCached hsoft
  | findCheck id =>
    rw [Point.step] at h
    split at h
    · cases h
    · rename_i hfree
      split at h
      · rename_i hlisted
        cases h
        exact .listed (Bool.eq_false_of_not_eq_true hfree) hlisted
      · rename_i hlisted
        cases h
        exact .unlisted (Bool.eq_false_of_not_eq_true hfree)
          (Bool.eq_false_of_not_eq_true hlisted)
  | findOpen id =>
    rw [Point.step] at h
    split at h
    · rename_i why hctor
      cases h
      exact .notReopened hctor
    · rename_i l f hctor
      cases h
      exact .reopened hctor
  | returned ret log => cases h
  | stopped why => cases h

theorem Point.step_of_does {p : Nat} {s s' : Site} {pt pt' : Point} (h : pt.Does p s s' pt') :
    pt.step p s = some (s', pt') := by
  cases h <;> simp only [Point.step, Bool.false_eq_true, if_false, if_true, *]

/-- `CreateLog(id, size)` is called. -/
def createLog (id : LogId) (size : Nat) : Point := .createCheck id size

/-- `FindLog(id, &log)` is called. -/
def findLog (id : LogId) : Point := .findSoft id

/-! ## Log files -/

/-- The header of the file is complete, as the constructor of a new log leaves it. -/
structure File.Complete (f : File) : Prop where
  header : load f.bytes 0 32 = LHdr.encode ⟨magicNumber, f.len, sizeofLhdr, sizeofLhdr⟩
  pos : 0 < f.len
  small : f.len < 2 ^ 63

theorem File.Complete.opens {f : File} (h : f.Complete) :
    f.Opens ⟨f.len, sizeofLhdr, f.len - 1, sizeofLhdr⟩ := by
  obtain ⟨hmagic, hlen, hhead, htail⟩ := LHdr.fields h.header
  have hword : f.len < 2 ^ 64 := by have := h.small; omega
  have hhdr : sizeofLhdr < 2 ^ 64 := by decide
  have hopen := ctor_some h.pos (word_of_load hmagic (by decide)) (word_of_load hlen hword)
  rw [word_of_load hhead hhdr, word_of_load htail hhdr] at hopen
  exact hopen

/-- **A new log can be opened**, and the handle of its maker is the one others get. -/
theorem ctor_made {size : Nat} {l : Log} {f : File} (h : Log.ctor none size = .ok (l, f)) :
    f.Complete ∧ f.Opens l := by
  obtain ⟨⟨hpos, hsmall⟩, rfl, _⟩ := ctor_none.mp h
  obtain ⟨rfl, hheader⟩ := ctor_header h
  have hcomplete : f.Complete := ⟨hheader, hpos, hsmall⟩
  exact ⟨hcomplete, hcomplete.opens⟩

/-! ## A call that nobody disturbs -/

/-- The site shows what the world knows: the same files, the listed ids, and for every cached index
    the handle it stands for. -/
structure Site.Shows (s : Site) (w : World) : Prop where
  files : s.files = w.files
  root : s.root.Lists w.root
  soft_none : ∀ p id, w.idToLogMap p id = none → s.idToLogMap p id = none
  soft_some : ∀ p id h, w.idToLogMap p id = some h →
    ∃ id' l, w.handles[h]? = some (id', l) ∧ s.idToLogMap p id = some l

section
variable {s : Site} {w w' : World} {p : Nat} {id : LogId} {size : Nat}

theorem Site.Shows.isLogExist (hs : s.Shows w) (id : LogId) :
    s.root.isLogExist id = w.isLogExist id := by
  rw [Bool.eq_iff_iff, hs.root.isLogExist_iff, World.isLogExist, List.contains_iff_mem]

theorem Site.Shows.newLog (hs : s.Shows w) (id : LogId) (l : Log) (f : File) :
    (s.withFile id f).Shows (w.newLog id l f) := by
  refine ⟨?_, hs.root, hs.soft_none, ?_⟩
  · show Function.update s.files id (some f) = Function.update w.files id (some f)
    rw [hs.files]
  · intro p id' h hsoft
    obtain ⟨id'', l', hh, hl⟩ := hs.soft_some p id' h hsoft
    refine ⟨id'', l', ?_, hl⟩
    show (w.handles ++ [(id, l)])[h]? = some (id'', l')
    rw [List.getElem?_append_left (List.getElem?_eq_some_iff.mp hh).1]
    exact hh

/-- An entry of a map of maps. -/
theorem update_entry {α β γ : Type} [DecidableEq α] [DecidableEq β] (m : α → β → γ) (a : α) (b : β)
    (x : γ) (a' : α) (b' : β) :
    Function.update m a (Function.update (m a) b x) a' b' =
      if a' = a ∧ b' = b then x else m a' b' := by
  by_cases ha : a' = a
  · subst ha
    rw [Function.update_self, Function.update_apply]
    simp only [true_and]
  · rw [Function.update_of_ne ha, if_neg (fun h => ha h.1)]

/-- The handle just made is cached under its index. -/
theorem Site.Shows.remember (hs : s.Shows w) (id : LogId) (l : Log) (f : File) :
    ((s.withFile id f).withSoft p id l).Shows
      { w.newLog id l f with
        idToLogMap := Function.update w.idToLogMap p
          (Function.update (w.idToLogMap p) id (some w.handles.length)) } := by
  have hnew := hs.newLog id l f
  refine ⟨hnew.files, hnew.root, ?_, ?_⟩
  · intro q id' hsoft
    have hentry := (update_entry w.idToLogMap p id (some w.handles.length) q id').symm.trans hsoft
    refine (update_entry s.idToLogMap p id (some l) q id').trans ?_
    by_cases hnewest : q = p ∧ id' = id
    · rw [if_pos hnewest] at hentry
      cases hentry
    · rw [if_neg hnewest] at hentry ⊢
      exact hnew.soft_none q id' hentry
  · intro q id' h hsoft
    have hentry := (update_entry w.idToLogMap p id (some w.handles.length) q id').symm.trans hsoft
    by_cases hnewest : q = p ∧ id' = id
    · rw [if_pos hnewest] at hentry
      cases hentry
      refine ⟨id, l, List.getElem?_concat_length, ?_⟩
      exact (update_entry s.idToLogMap p id (some l) q id').trans (if_pos hnewest)
    · rw [if_neg hnewest] at hentry
      obtain ⟨id'', l', hh, hl⟩ := hnew.soft_some q id' h hentry
      refine ⟨id'', l', hh, ?_⟩
      exact ((update_entry s.idToLogMap p id (some l) q id').trans (if_neg hnewest)).trans hl

/-- The last step of `CreateLog`. -/
theorem Site.Shows.register (hs : s.Shows w) (hfree : s.held = false)
    (h : w.addLog id = .ok w') :
    ∃ s', (Point.register id).step p s = some (s', .returned .noError none) ∧ s'.Shows w' ∧
      s'.held = false := by
  rw [World.addLog] at h
  split at h
  · rename_i hroom
    cases h
    rw [← hs.root.length_eq] at hroom
    refine ⟨_, Point.step_of_does (.registered hfree (if_pos hroom)), ?_, hfree⟩
    exact ⟨hs.files, hs.root.addLog id, hs.soft_none, hs.soft_some⟩
  · cases h

/-- **`CreateLog` alone** does what the world's `createLog` does. -/
theorem createLog_refines {ec : ErrorCode} (hs : s.Shows w) (hfree : s.held = false)
    (h : w.createLog p id size = .ok (ec, w')) :
    ∃ s', drive (Point.step p) 4 s (createLog id size) = (s', .returned ec none) ∧
      s'.Shows w' ∧ s'.held = false := by
  rw [World.createLog] at h
  split at h
  · rename_i hlisted
    cases h
    have hcheck : (createLog id size).step p s = _ :=
      Point.step_of_does (.inUse hfree ((hs.isLogExist id).trans hlisted))
    exact ⟨s, (drive_step hcheck 3).trans (drive_stuck rfl 3), hs, hfree⟩
  · rename_i hlisted
    have hcheck : (createLog id size).step p s = _ := Point.step_of_does
      (.unused hfree ((hs.isLogExist id).trans (Bool.eq_false_of_not_eq_true hlisted)))
    split at h
    · cases h
    · rename_i l f hctor
      rw [← hs.files] at hctor
      have hmade := Point.step_of_does (p := p) (.made hfree hctor)
      simp only at h
      split at h
      · cases h
      · rename_i w'' hadd
        cases h
        -- the soft state of `p` knew the id, or learns it now
        cases hsoft : w.idToLogMap p id with
        | none =>
          simp only [hsoft] at hadd
          have hkeep : (Point.remember id l).step p (s.withFile id f) = _ :=
            Point.step_of_does (.remembered (hs.soft_none p id hsoft))
          obtain ⟨s', hregister, hs', hfree'⟩ := (hs.remember id l f).register hfree hadd
          exact ⟨s', (drive_step hcheck 3).trans ((drive_step hmade 2).trans
            ((drive_step hkeep 1).trans (drive_step hregister 0))), hs', hfree'⟩
        | some h₀ =>
          simp only [hsoft] at hadd
          obtain ⟨id', l', _, hl⟩ := hs.soft_some p id h₀ hsoft
          have hkeep : (Point.remember id l).step p (s.withFile id f) = _ :=
            Point.step_of_does (.known hl)
          obtain ⟨s', hregister, hs', hfree'⟩ := (hs.newLog id l f).register hfree hadd
          exact ⟨s', (drive_step hcheck 3).trans ((drive_step hmade 2).trans
            ((drive_step hkeep 1).trans (drive_step hregister 0))), hs', hfree'⟩

/-- **`FindLog` alone** does what the world's `findLog` does. -/
theorem findLog_refines {ec : ErrorCode} {ptr : Option Nat} (hs : s.Shows w)
    (hfree : s.held = false) (h : w.findLog p id = .ok (ec, ptr, w')) :
    ∃ s' log, drive (Point.step p) 3 s (findLog id) = (s', .returned ec log) ∧
      log = ptr.bind (fun h => (w'.handles[h]?).map Prod.snd) ∧ s'.Shows w' ∧
      s'.held = false := by
  rw [World.findLog] at h
  split at h
  · rename_i h₀ hsoft
    cases h
    obtain ⟨id', l, hh, hl⟩ := hs.soft_some p id h₀ hsoft
    have hcached : (findLog id).step p s = _ := Point.step_of_does (.cached hl)
    refine ⟨s, some l, (drive_step hcached 2).trans (drive_stuck rfl 2), ?_, hs, hfree⟩
    rw [Option.bind_some, hh]
    rfl
  · rename_i hsoft
    have hsoft' : (findLog id).step p s = _ :=
      Point.step_of_does (.notCached (hs.soft_none p id hsoft))
    split at h
    · rename_i hlisted
      have hcheck := Point.step_of_does (p := p)
        (.listed hfree ((hs.isLogExist id).trans hlisted))
      split at h
      · cases h
      · rename_i l f hctor
        cases h
        rw [← hs.files] at hctor
        have hopen := Point.step_of_does (p := p) (.reopened hctor)
        refine ⟨_, some l, (drive_step hsoft' 2).trans ((drive_step hcheck 1).trans
          (drive_step hopen 0)), ?_, hs.newLog id l f, hfree⟩
        have hlast : (w.newLog id l f).handles[w.handles.length]? = some (id, l) :=
          List.getElem?_concat_length
        rw [Option.bind_some, hlast]
        rfl
    · rename_i hlisted
      cases h
      have hcheck := Point.step_of_does (p := p)
        (.unlisted hfree ((hs.isLogExist id).trans (Bool.eq_false_of_not_eq_true hlisted)))
      exact ⟨s, none, (drive_step hsoft' 2).trans ((drive_step hcheck 1).trans
        (drive_stuck rfl 1)), rfl, hs, hfree⟩

end

/-! ## The constructor of `NVSStore` -/

/-- A place in the constructor, once the store id is parsed. -/
inductive Opening where
  | find (pt : Point)
  | create (pt : Point)
  | findAgain (pt : Point)
  | opened (log : Option Log)
  | stopped (why : Stop)

namespace Opening

/-- The constructor goes on behind the first `FindLog`. -/
def afterFind (id : LogId) : Point → Opening
  | .returned ret log => if ret = .idNotFound then create (createLog id logSize) else opened log
  | .stopped why => stopped why
  | pt => find pt

/-- The constructor goes on behind `CreateLog`. -/
def afterCreate (id : LogId) : Point → Opening
  | .returned ret _ => if ret = .noError then findAgain (findLog id) else stopped .exit
  | .stopped why => stopped why
  | pt => create pt

/-- The constructor goes on behind the second `FindLog`. -/
def afterFindAgain : Point → Opening
  | .returned ret log => if ret = .noError then opened log else stopped .exit
  | .stopped why => stopped why
  | pt => findAgain pt

/-- Process `p`, which constructs a store on log `id`, executes what stands at its place. -/
def step (p : Nat) (id : LogId) (s : Site) : Opening → Option (Site × Opening)
  | find pt => (pt.step p s).map (fun r => (r.1, afterFind id r.2))
  | create pt => (pt.step p s).map (fun r => (r.1, afterCreate id r.2))
  | findAgain pt => (pt.step p s).map (fun r => (r.1, afterFindAgain r.2))
  | opened _ => none
  | stopped _ => none

/-- `NVSStore(storeId)` is called. -/
def start (id : LogId) : Opening := find (findLog id)

end Opening

end NvStream
