/-
  The log directory under concurrency.

  Any number of processes run `CreateLog` and `FindLog`, and their steps come in any order.  The
  check and the registration of `CreateLog` are two critical sections, so the mutex does NOT make
  the ids unique.  What does is the step between them: a file can be created only once.  From then
  until it is registered the id belongs to one process, the one at `remember` or `register`:

      a listed id has a complete log file
      an owned id has a complete log file, is not listed yet, and has no second owner
      a process about to open a log has seen it listed

  `Relies` says this of one process, `Sound` of the root; `Step.holds` keeps both.
-/
import NvStream.Directory.Basic
import NvStream.Lib.Runs
import Mathlib.Data.List.Nodup

namespace NvStream

open FlatMem LittleEndian LoadProg PersistTrace Interleave

/-! ## The system -/

/-- The site, and where each process is. -/
abbrev Directory := Pool Nat Site Point

/-- A process between two calls makes a call, or a process inside a call executes a step. -/
inductive Directory.Step : Directory → Directory → Prop
  | create {c : Directory} (p : Nat) (id : LogId) (size : Nat) {ret : ErrorCode}
      {log : Option Log} (hidle : c.place p = .returned ret log) (hsize : 0 < size) :
      Step c (c.move p c.shared (createLog id size))
  | find {c : Directory} (p : Nat) (id : LogId) {ret : ErrorCode} {log : Option Log}
      (hidle : c.place p = .returned ret log) : Step c (c.move p c.shared (findLog id))
  | run {c : Directory} {p : Nat} {s' : Site} {pt' : Point}
      (h : (c.place p).step p c.shared = some (s', pt')) : Step c (c.move p s' pt')

/-- A freshly formatted root, whatever files there are, and every process between two calls. -/
structure Directory.Fresh (c : Directory) : Prop where
  length : c.shared.root.length = 0
  idle : ∀ p, ∃ ret log, c.place p = .returned ret log

/-! ## The root object -/

/-- No more ids than values of a `LogId`. -/
theorem length_le_maxLogs {ids : List LogId} (h : ids.Nodup) : ids.length ≤ maxLogs := by
  have hnodup : (ids.map UInt8.toNat).Nodup := h.map (fun _ _ => UInt8.toNat_inj.mp)
  have hsub : ids.map UInt8.toNat ⊆ List.range maxLogs := by
    intro n hn
    obtain ⟨id, _, rfl⟩ := List.mem_map.mp hn
    exact List.mem_range.mpr id.toNat_lt
  have hle := (hnodup.subperm hsub).length_le
  rwa [List.length_map, List.length_range] at hle

namespace NvsRoot

theorem addLog_ok {r r' : NvsRoot} {id : LogId} (h : r.addLog id = .ok r') :
    r' = (r.storeId id).storeLength := by
  rw [addLog] at h
  split at h
  · exact (Except.ok.inj h).symm
  · cases h

/-- Nothing else is listed by `addLog(id)`. -/
theorem isLogExist_added (r : NvsRoot) (id id' : LogId) :
    (r.storeId id).storeLength.isLogExist id' = true ↔ r.isLogExist id' = true ∨ id' = id := by
  rw [isLogExist_iff, isLogExist_iff, ids_added, List.mem_append, List.mem_singleton]
  refine or_congr_right ⟨toInt_inj, ?_⟩
  intro h
  rw [h]

theorem Lists.nodup_added {r : NvsRoot} {ids : List LogId} {id : LogId} (h : r.Lists ids)
    (hnodup : ids.Nodup) (hid : r.isLogExist id = false) : (ids ++ [id]).Nodup := by
  rw [← List.concat_eq_append]
  refine hnodup.concat ?_
  intro hmem
  rw [(h.isLogExist_iff id).mpr hmem] at hid
  cases hid

/-- An id that is not listed still has a place in the array. -/
theorem Lists.room {r : NvsRoot} {ids : List LogId} {id : LogId} (h : r.Lists ids)
    (hnodup : ids.Nodup) (hid : r.isLogExist id = false) : r.length < maxLogs := by
  have hle := length_le_maxLogs (h.nodup_added hnodup hid)
  rw [List.length_append, List.length_singleton, ← h.length_eq] at hle
  exact hle

end NvsRoot

/-! ## The invariant -/

namespace Site

/-- There is a complete log file for the id. -/
def HasLog (s : Site) (id : LogId) : Prop := ∃ f, s.files id = some f ∧ f.Complete

/-- The root lists no id twice, and only ids with a complete log. -/
def Sound (s : Site) : Prop :=
  ∃ ids : List LogId, s.root.Lists ids ∧ ids.Nodup ∧ ∀ id ∈ ids, s.HasLog id

variable {s : Site} {id id' : LogId} {f : File} {l : Log} {size : Nat}

theorem HasLog.withFile (hid' : s.HasLog id') (hf : f.Complete) :
    (s.withFile id f).HasLog id' := by
  by_cases heq : id' = id
  · subst heq
    exact ⟨f, Function.update_self .., hf⟩
  · obtain ⟨f', hfile, hf'⟩ := hid'
    exact ⟨f', (Function.update_of_ne heq ..).trans hfile, hf'⟩

theorem hasLog_withFile (hf : f.Complete) : (s.withFile id f).HasLog id :=
  ⟨f, Function.update_self .., hf⟩

theorem Sound.hasLog (hs : s.Sound) (hid : s.root.isLogExist id = true) : s.HasLog id := by
  obtain ⟨ids, hlists, _, hlogs⟩ := hs
  exact hlogs id ((hlists.isLogExist_iff id).mp hid)

theorem Sound.withFile (hs : s.Sound) (hf : f.Complete) : (s.withFile id f).Sound := by
  obtain ⟨ids, hlists, hnodup, hlogs⟩ := hs
  exact ⟨ids, hlists, hnodup, fun id' hid' => (hlogs id' hid').withFile hf⟩

theorem Sound.room (hs : s.Sound) (hid : s.root.isLogExist id = false) :
    s.root.length < maxLogs := by
  obtain ⟨ids, hlists, hnodup, _⟩ := hs
  exact hlists.room hnodup hid

theorem Sound.added (hs : s.Sound) (hid : s.root.isLogExist id = false) (hlog : s.HasLog id) :
    ({ s with root := (s.root.storeId id).storeLength } : Site).Sound := by
  obtain ⟨ids, hlists, hnodup, hlogs⟩ := hs
  refine ⟨ids ++ [id], hlists.addLog id, hlists.nodup_added hnodup hid, ?_⟩
  intro id' hid'
  rcases List.mem_append.mp hid' with hold | hlast
  · exact hlogs id' hold
  · rw [List.mem_singleton.mp hlast]
    exact hlog

/-- A log can be created only where there is none. -/
theorem made (hsize : 0 < size) (h : Log.ctor (s.files id) size = .ok (l, f)) :
    f.Complete ∧ ¬ s.HasLog id := by
  cases hfile : s.files id with
  | some f₀ =>
    rw [hfile, ctor_exists f₀ hsize] at h
    cases h
  | none =>
    rw [hfile] at h
    refine ⟨(ctor_made h).1, ?_⟩
    rintro ⟨f₀, hf₀, _⟩
    rw [hfile] at hf₀
    cases hf₀

theorem withFile_self (h : s.files id = some f) : s.withFile id f = s := by
  rw [withFile, ← h, Function.update_eq_self]

end Site

namespace Point

/-- The id whose file the process has made and not registered yet. -/
def owned : Point → Option LogId
  | remember id _ => some id
  | register id => some id
  | _ => none

/-- What a process relies on at its place. -/
def Relies (s : Site) : Point → Prop
  | createCheck _ size => 0 < size
  | createFile _ size => 0 < size
  | remember id _ => s.root.isLogExist id = false ∧ s.HasLog id
  | register id => s.root.isLogExist id = false ∧ s.HasLog id
  | findOpen id => s.root.isLogExist id = true
  | stopped why => why = .exit
  | _ => True

/-- No id has two owners. -/
def Apart (pt pt' : Point) : Prop := ∀ id, pt.owned = some id → pt'.owned ≠ some id

variable {s s' : Site} {pt : Point}

theorem apart_symm (pt pt' : Point) (h : pt.Apart pt') : pt'.Apart pt := by
  intro id hid hid'
  exact h id hid' hid

/-- A process relies on the root, and on logs being there. -/
theorem Relies.mono (h : pt.Relies s) (hroot : s'.root = s.root)
    (hlogs : ∀ id, s.HasLog id → s'.HasLog id) : pt.Relies s' := by
  cases pt with
  | createCheck id size => exact h
  | createFile id size => exact h
  | remember id log => exact ⟨hroot ▸ h.1, hlogs id h.2⟩
  | register id => exact ⟨hroot ▸ h.1, hlogs id h.2⟩
  | findSoft id => exact trivial
  | findCheck id => exact trivial
  | findOpen id =>
    show s'.root.isLogExist id = true
    rw [hroot]
    exact h
  | returned ret log => exact trivial
  | stopped why => exact h

/-- The owner of an id relies on its log being there. -/
theorem Relies.hasLog {id : LogId} (h : pt.Relies s) (howned : pt.owned = some id) :
    s.HasLog id := by
  cases pt with
  | remember id' log => cases howned; exact h.2
  | register id' => cases howned; exact h.2
  | _ => cases howned

/-- Registering an id disturbs only an owner of that id. -/
theorem Relies.added {id : LogId} (h : pt.Relies s) (howned : pt.owned ≠ some id) :
    pt.Relies { s with root := (s.root.storeId id).storeLength } := by
  have hstill : ∀ id', id' ≠ id → s.root.isLogExist id' = false →
      (s.root.storeId id).storeLength.isLogExist id' = false := by
    intro id' hne hid'
    rw [Bool.eq_false_iff, Ne, NvsRoot.isLogExist_added, not_or]
    exact ⟨Bool.eq_false_iff.mp hid', hne⟩
  cases pt with
  | createCheck id' size => exact h
  | createFile id' size => exact h
  | remember id' log => exact ⟨hstill id' (fun heq => howned (congrArg some heq)) h.1, h.2⟩
  | register id' => exact ⟨hstill id' (fun heq => howned (congrArg some heq)) h.1, h.2⟩
  | findSoft id' => exact trivial
  | findCheck id' => exact trivial
  | findOpen id' => exact (NvsRoot.isLogExist_added _ id id').mpr (Or.inl h)
  | returned ret log => exact trivial
  | stopped why => exact h

end Point

namespace Directory

/-- The invariant of the system. -/
abbrev Safe (c : Directory) : Prop := Holds Site.Sound (fun _ => Point.Relies) Point.Apart c

variable {c c' : Directory} {p : Nat} {s' : Site} {pt' : Point}

/-- A step that lists nothing and makes nobody an owner. -/
theorem Safe.quiet (hc : c.Safe) (hsound : s'.Sound) (hroot : s'.root = c.shared.root)
    (hlogs : ∀ id, c.shared.HasLog id → s'.HasLog id) (hrelies : pt'.Relies s')
    (howned : ∀ id, pt'.owned = some id → (c.place p).owned = some id) :
    Safe (c.move p s' pt') := by
  refine hc.move Point.apart_symm hsound hrelies ?_
  intro q _ hq hapart
  exact ⟨hq.mono hroot hlogs, fun id hid => hapart id (howned id hid)⟩

/-- **One step of one process.** -/
theorem Safe.does (hc : c.Safe) (h : (c.place p).Does p c.shared s' pt') :
    Safe (c.move p s' pt') := by
  have hown : (c.place p).Relies c.shared := hc.own p
  generalize hpt : c.place p = pt at h hown
  have hsame : ∀ {pt' : Point}, pt'.Relies c.shared →
      (∀ id, pt'.owned = some id → (c.place p).owned = some id) →
      Safe (c.move p c.shared pt') := by
    intro pt' hrelies howned
    exact hc.quiet hc.shared rfl (fun _ => id) hrelies howned
  have hnobody : ∀ {pt' : Point}, pt'.owned = none →
      ∀ id, pt'.owned = some id → (c.place p).owned = some id := by
    intro pt' hnone id hid
    rw [hnone] at hid
    cases hid
  cases h with
  | inUse hfree h => exact hsame trivial (hnobody rfl)
  | unused hfree h => exact hsame hown (hnobody rfl)
  | made hfree h =>
    rename_i id size l f
    obtain ⟨hcomplete, hnone⟩ := Site.made hown h
    have hunlisted : c.shared.root.isLogExist id = false := by
      rw [Bool.eq_false_iff]
      intro hlisted
      exact hnone (hc.shared.hasLog hlisted)
    -- an owner of the same id would have made the file before
    refine hc.move Point.apart_symm (hc.shared.withFile hcomplete)
      ⟨hunlisted, Site.hasLog_withFile hcomplete⟩ ?_
    intro q _ hq _
    refine ⟨hq.mono rfl (fun _ hlog => hlog.withFile hcomplete), ?_⟩
    intro id' hid' hq'
    cases hid'
    exact hnone (hq.hasLog hq')
  | notMade hfree h =>
    exact hc.quiet hc.shared rfl (fun _ => id) (ctor_not_made hown h) (hnobody rfl)
  | remembered h =>
    exact hc.quiet hc.shared rfl (fun _ => id) hown (by intro id hid; rw [hpt]; exact hid)
  | known h => exact hsame hown (by intro id hid; rw [hpt]; exact hid)
  | registered hfree h =>
    rename_i id root
    rw [NvsRoot.addLog_ok h]
    refine hc.move Point.apart_symm (hc.shared.added hown.1 hown.2) trivial ?_
    intro q _ hq hapart
    rw [hpt] at hapart
    exact ⟨hq.added (hapart id rfl), fun id' hid' => by cases hid'⟩
  | full hfree h =>
    rw [NvsRoot.addLog, if_pos (hc.shared.room hown.1)] at h
    cases h
  | cached h => exact hsame trivial (hnobody rfl)
  | notCached h => exact hsame trivial (hnobody rfl)
  | listed hfree h => exact hsame h (hnobody rfl)
  | unlisted hfree h => exact hsame trivial (hnobody rfl)
  | reopened h =>
    rw [Site.withFile_self (ctor_open h).1]
    exact hsame trivial (hnobody rfl)
  | notReopened h =>
    obtain ⟨f, hfile, hf⟩ := hc.shared.hasLog hown
    rw [hfile, hf.opens] at h
    cases h

theorem Safe.step (hc : c.Safe) (h : Step c c') : c'.Safe := by
  cases h with
  | create p id size hidle hsize =>
    refine hc.quiet hc.shared rfl (fun _ hlog => hlog) hsize ?_
    intro id hid
    cases hid
  | find p id hidle =>
    refine hc.quiet hc.shared rfl (fun _ hlog => hlog) trivial ?_
    intro id hid
    cases hid
  | run h => exact hc.does (Point.does_of_step h)

theorem Fresh.safe (hc : c.Fresh) : c.Safe := by
  have hplace : ∀ p, (c.place p).Relies c.shared ∧ (c.place p).owned = none := by
    intro p
    obtain ⟨ret, log, hp⟩ := hc.idle p
    rw [hp]
    exact ⟨trivial, rfl⟩
  refine ⟨⟨[], ?_, List.nodup_nil, ?_⟩, fun p => (hplace p).1, ?_⟩
  · rw [NvsRoot.Lists, NvsRoot.ids, hc.length]
    rfl
  · intro id hid
    cases hid
  · intro p q _ id hid
    rw [(hplace p).2] at hid
    cases hid

end Directory

/-- **Log directory safety.**  Whatever the processes do, the root lists no id twice and stays within
    its array; every listed id has a log file with a complete header; `FindLog` never fails on the
    file it opens, and a process that dies at all dies of `exit(1)` in `CreateLog`. -/
theorem log_directory_safe {c₀ c : Directory} (h₀ : c₀.Fresh)
    (hrun : Relation.ReflTransGen Directory.Step c₀ c) :
    c.shared.root.ids.Nodup ∧ c.shared.root.length ≤ maxLogs ∧
    (∀ i ∈ c.shared.root.ids, ∃ (id : LogId) (f : File), i = id.toNat ∧
      c.shared.files id = some f ∧
      load f.bytes 0 32 = LHdr.encode ⟨magicNumber, f.len, sizeofLhdr, sizeofLhdr⟩) ∧
    (∀ p id, c.place p = .register id → ∃ root, c.shared.root.addLog id = .ok root) ∧
    (∀ p id, c.place p = .findOpen id → ∃ l f, Log.ctor (c.shared.files id) 0 = .ok (l, f)) ∧
    (∀ p why, c.place p = .stopped why → why = .exit) := by
  have hc : c.Safe := Runs.invariant (fun h hc => hc.step h) hrun h₀.safe
  obtain ⟨ids, hlists, hnodup, hlogs⟩ := hc.shared
  refine ⟨?_, ?_, ?_, ?_, ?_, ?_⟩
  · rw [hlists]
    exact hnodup.map (fun _ _ => NvsRoot.toInt_inj)
  · rw [hlists.length_eq]
    exact length_le_maxLogs hnodup
  · intro i hi
    rw [hlists, List.mem_map] at hi
    obtain ⟨id, hid, rfl⟩ := hi
    obtain ⟨f, hfile, hf⟩ := hlogs id hid
    exact ⟨id, f, rfl, hfile, hf.header⟩
  · intro p id hp
    have hown := hc.own p
    rw [hp] at hown
    exact ⟨_, if_pos (hc.shared.room hown.1)⟩
  · intro p id hp
    have hown := hc.own p
    rw [hp] at hown
    obtain ⟨f, hfile, hf⟩ := hc.shared.hasLog hown
    rw [hfile]
    exact ⟨_, f, hf.opens⟩
  · intro p why hp
    have hown := hc.own p
    rw [hp] at hown
    exact hown

/-- A machine with no log and no process inside a call. -/
def Directory.formatted : Directory :=
  ⟨⟨fun _ => none, NvsRoot.formatted, false, fun _ _ => none⟩, fun _ => .returned .noError none⟩

/-- A step, by what it does. -/
theorem Directory.Step.does {c : Directory} {p : Nat} {s' : Site} {pt pt' : Point}
    (hplace : c.place p = pt) (h : pt.Does p c.shared s' pt') : Step c (c.move p s' pt') := by
  subst hplace
  exact .run (Point.step_of_does h)

/-- Processes 0 and 1 are in `CreateLog` at the same time, and the file that is made second is
    registered first.  Then process 1 finds the log of process 0. -/
theorem Directory.created_and_found {l : Log} {f : File} (hmade : Log.ctor none 4096 = .ok (l, f))
    (hopens : f.Opens l) :
    ∃ c, Relation.ReflTransGen Directory.Step formatted c ∧ c.shared.root.ids = [5, 3] ∧
      c.place 1 = .returned .noError (some l) := by
  have hcalls : Relation.ReflTransGen Directory.Step formatted _ :=
    (Relation.ReflTransGen.single (.create 0 3 4096 rfl (by decide))).tail
      (.create 1 5 4096 rfl (by decide))
  have hmakes := (((hcalls.tail (.does (p := 0) rfl (.unused rfl rfl))).tail
    (.does (p := 1) rfl (.unused rfl rfl))).tail
    (.does (p := 0) rfl (.made rfl hmade))).tail (.does (p := 1) rfl (.made rfl hmade))
  have hregisters := (((hmakes.tail (.does (p := 1) rfl (.remembered rfl))).tail
    (.does (p := 1) rfl (.registered rfl rfl))).tail
    (.does (p := 0) rfl (.remembered rfl))).tail (.does (p := 0) rfl (.registered rfl rfl))
  have hfinds := (((hregisters.tail (.find 1 3 rfl)).tail
    (.does (p := 1) rfl (.notCached rfl))).tail
    (.does (p := 1) rfl (.listed rfl rfl))).tail (.does (p := 1) rfl (.reopened hopens))
  exact ⟨_, hfinds, rfl, rfl⟩

theorem log_directory_safe_two_processes : ∃ c l f, Directory.formatted.Fresh ∧
    Relation.ReflTransGen Directory.Step Directory.formatted c ∧ c.shared.root.ids = [5, 3] ∧
    c.place 1 = .returned .noError (some l) ∧
    c.shared.root.ids.Nodup ∧ c.shared.files 3 = some f ∧
    load f.bytes 0 32 = LHdr.encode ⟨magicNumber, f.len, sizeofLhdr, sizeofLhdr⟩ := by
  have hfresh : Directory.formatted.Fresh := ⟨rfl, fun _ => ⟨_, _, rfl⟩⟩
  obtain ⟨l, f, hmade, _⟩ := ctor_ok 4096 (by decide)
  obtain ⟨c, hrun, hids, hfound⟩ := Directory.created_and_found hmade (ctor_made hmade).2
  obtain ⟨hnodup, _, hlogs, _⟩ := log_directory_safe hfresh hrun
  have hlisted : (3 : Int) ∈ c.shared.root.ids := by
    rw [hids]
    decide
  obtain ⟨id, f', hid, hfile, hheader⟩ := hlogs 3 hlisted
  have hid3 : (3 : LogId) = id := NvsRoot.toInt_inj hid
  rw [← hid3] at hfile
  exact ⟨c, l, f', hfresh, hrun, hids, hfound, hnodup, hfile, hheader⟩

end NvStream
