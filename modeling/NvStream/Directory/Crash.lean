/-
  Power failures inside `CreateLog`.

  `CreateLog` changes two persistent objects, the log file and the root, and no transaction ties
  them together.  A `CrashPoint` says how far it got:

      before        no file yet
      making        the file exists; some part of the stores of `Log::Log` was issued, and of the
                    unfenced ones some landed
      registering   `Log::Log` has returned; of the two stores of `addLog`, neither, one or both
                    are persistent

  After the restart somebody constructs an `NVSStore` on the log.  That works in two cases only, a
  listed log that can be opened or an unlisted one with NO file (`open_alone_iff`): a file that
  exists is never created again.  So every crash between the creation of the file and the store of
  `length` locks the id for good (`crash_safe_iff`), and the store of `length` alone helps only if
  the cell behind the listed ids happened to hold the id already.
-/
import NvStream.Directory.Opening

namespace NvStream

open FlatMem LittleEndian LoadProg PersistTrace Interleave

/-! ## The constructor, alone -/

/-- The log is listed and can be opened, or is not listed, has no file, and has a place left. -/
def Site.CanOpen (s : Site) (id : LogId) : Prop :=
  (s.root.isLogExist id = true ∧ ∃ l, s.Handle id l) ∨
  (s.root.isLogExist id = false ∧ s.files id = none ∧ s.root.length < maxLogs)

section
variable {s : Site} {p : Nat} {id : LogId}

namespace Opening

theorem find_does {s' : Site} {pt pt' : Point} (h : pt.Does p s s' pt') :
    (find pt).step p id s = some (s', afterFind id pt') := by
  rw [step, Point.step_of_does h]
  rfl

theorem findAgain_does {s' : Site} {pt pt' : Point} (h : pt.Does p s s' pt') :
    (findAgain pt).step p id s = some (s', afterFindAgain pt') := by
  rw [step, Point.step_of_does h]
  rfl

/-- A listed log is opened as it is. -/
theorem drive_listed (hfree : s.held = false) (hsoft : s.idToLogMap p id = none)
    (hlisted : s.root.isLogExist id = true) (fuel : Nat) :
    drive (step p id) (fuel + 2) s (start id) =
      drive (step p id) fuel s (find (.findOpen id)) :=
  (drive_step (find_does (.notCached hsoft)) (fuel + 1)).trans
    (drive_step (find_does (.listed hfree hlisted)) fuel)

/-- For an unlisted log a file is created. -/
theorem drive_unlisted (hfree : s.held = false) (hsoft : s.idToLogMap p id = none)
    (hunlisted : s.root.isLogExist id = false) (fuel : Nat) :
    drive (step p id) (fuel + 3) s (start id) =
      drive (step p id) fuel s (create (.createFile id logSize)) :=
  (drive_step (find_does (.notCached hsoft)) (fuel + 2)).trans
    ((drive_step (find_does (.unlisted hfree hunlisted)) (fuel + 1)).trans
      (drive_step (create_does (.unused hfree hunlisted)) fuel))

end Opening

/-- A constructor that has stopped opens nothing. -/
theorem not_opened_of_stopped {s' : Site} {why : Stop} {fuel : Nat} {o : Opening}
    (h : drive (Opening.step p id) fuel s o = (s', .stopped why)) :
    ¬ ∃ s' l, drive (Opening.step p id) fuel s o = (s', .opened (some l)) := by
  rintro ⟨s'', l, hopened⟩
  rw [h] at hopened
  cases hopened

/-- Once its file is made, the constructor gets to its handle if the root has a place left. -/
theorem drive_made {l : Log} {f : File} (hfree : s.held = false)
    (hsoft : s.idToLogMap p id = none) (hmade : Log.ctor (s.files id) logSize = .ok (l, f)) :
    (∃ s' l, drive (Opening.step p id) 7 s (.create (.createFile id logSize)) =
      (s', .opened (some l))) ↔ s.root.length < maxLogs := by
  let s₁ := (s.withFile id f).withSoft p id l
  have hsoft' : (s.withFile id f).idToLogMap p id = none := hsoft
  have hfree₁ : s₁.held = false := hfree
  have hcached : s₁.idToLogMap p id = some l :=
    (update_entry s.idToLogMap p id (some l) p id).trans (if_pos ⟨rfl, rfl⟩)
  have hregister : drive (Opening.step p id) 7 s (.create (.createFile id logSize)) =
      drive (Opening.step p id) 5 s₁ (.create (.register id)) :=
    (drive_step (Opening.create_does (.made hfree hmade)) 6).trans
      (drive_step (Opening.create_does (.remembered hsoft')) 5)
  rw [hregister]
  by_cases hroom : s.root.length < maxLogs
  · refine ⟨fun _ => hroom, fun _ => ?_⟩
    let s₂ : Site := { s₁ with root := (s₁.root.storeId id).storeLength }
    have hadded : s₁.root.addLog id = .ok s₂.root := if_pos hroom
    have hcached' : s₂.idToLogMap p id = some l := hcached
    exact ⟨s₂, l, (drive_step (Opening.create_does (.registered hfree₁ hadded)) 4).trans
      ((drive_step (Opening.findAgain_does (.cached hcached')) 3).trans (drive_stuck rfl 3))⟩
  · have hfull : s₁.root.addLog id = .error .undefined := if_neg hroom
    have hstopped : drive (Opening.step p id) 5 s₁ (.create (.register id)) = (_, _) :=
      (drive_step (Opening.create_does (.full hfree₁ hfull)) 4).trans (drive_stuck rfl 4)
    exact ⟨fun h => absurd h (not_opened_of_stopped hstopped), fun h => absurd h hroom⟩

/-- **When the constructor works**, on a machine that has just started. -/
theorem open_alone_iff (hfree : s.held = false) (hsoft : s.idToLogMap p id = none) :
    (∃ s' l, drive (Opening.step p id) 10 s (Opening.start id) = (s', .opened (some l))) ↔
      s.CanOpen id := by
  cases hlisted : s.root.isLogExist id with
  | true =>
    rw [Opening.drive_listed hfree hsoft hlisted 8]
    cases hctor : Log.ctor (s.files id) 0 with
    | ok r =>
      obtain ⟨hfile, hopens⟩ := ctor_open hctor
      constructor
      · intro _
        exact Or.inl ⟨hlisted, r.1, r.2, hfile, hopens⟩
      · intro _
        exact ⟨_, r.1, (drive_step (Opening.find_does (.reopened hctor)) 7).trans
          (drive_stuck rfl 7)⟩
    | error why =>
      have hstopped : drive (Opening.step p id) 8 s (.find (.findOpen id)) = (_, _) :=
        (drive_step (Opening.find_does (.notReopened hctor)) 7).trans (drive_stuck rfl 7)
      constructor
      · intro h
        exact absurd h (not_opened_of_stopped hstopped)
      · rintro (⟨_, l, f, hfile, hopens⟩ | ⟨hunlisted, _⟩)
        · rw [hfile, show Log.ctor (some f) 0 = _ from hopens] at hctor
          cases hctor
        · rw [hlisted] at hunlisted
          cases hunlisted
  | false =>
    rw [Opening.drive_unlisted hfree hsoft hlisted 7]
    have hcan : s.CanOpen id ↔ s.files id = none ∧ s.root.length < maxLogs := by
      constructor
      · rintro (⟨hl, _⟩ | ⟨_, h⟩)
        · rw [hlisted] at hl
          cases hl
        · exact h
      · intro h
        exact Or.inr ⟨hlisted, h⟩
    rw [hcan]
    cases hfile : s.files id with
    | none =>
      obtain ⟨l, f, hmade, _⟩ := ctor_ok logSize (by decide)
      rw [← hfile] at hmade
      rw [drive_made hfree hsoft hmade, and_iff_right rfl]
    | some f =>
      have hexists : Log.ctor (s.files id) logSize = .error .exit := by
        rw [hfile]
        exact ctor_exists f (by decide)
      have hstopped : drive (Opening.step p id) 7 s (.create (.createFile id logSize)) = (_, _) :=
        (drive_step (Opening.create_does (.notMade hfree hexists)) 6).trans (drive_stuck rfl 6)
      constructor
      · intro h
        exact absurd h (not_opened_of_stopped hstopped)
      · intro h
        cases h.1

end

/-! ## Crashes -/

/-- How far a `CreateLog(id, size)` got before the power failure. -/
inductive CrashPoint where
  | before
  | making (cut : List (Op Byte)) (bytes : Mem Byte)
  | registering (idStored lengthStored : Bool) (bytes : Mem Byte)

/-- A machine starts: the soft state is gone, and the mutex is new. -/
def Site.restart (s : Site) : Site := { s with held := false, idToLogMap := fun _ _ => none }

/-- `CreateLog(id, size)` gets as far as creating the file. -/
structure Site.Creates (s : Site) (id : LogId) (size : Nat) : Prop where
  unlisted : s.root.isLogExist id = false
  file : s.files id = none
  pos : 0 < size
  small : size < 2 ^ 63

namespace CrashPoint

/-- The crash point belongs to `CreateLog(id, size)`, started in `s`. -/
def Possible (s : Site) (id : LogId) (size : Nat) : CrashPoint → Prop
  | before => True
  | making cut bytes => s.Creates id size ∧ cut <+: ctorOps size ∧
      ((PMem.mk (fun _ => 0) []).run cut).Image bytes
  | registering _ _ bytes => s.Creates id size ∧ s.root.length < maxLogs ∧
      ((PMem.mk (fun _ => 0) []).run (ctorOps size)).Image bytes

/-- The root with some of the stores of `addLog(id)`. -/
def rootAfter (r : NvsRoot) (id : LogId) (idStored lengthStored : Bool) : NvsRoot :=
  let r' := if idStored then r.storeId id else r
  if lengthStored then r'.storeLength else r'

/-- What the next process finds. -/
def leaves (s : Site) (id : LogId) (size : Nat) : CrashPoint → Site
  | before => s.restart
  | making _ bytes => (s.withFile id ⟨bytes, size⟩).restart
  | registering idStored lengthStored bytes =>
    { (s.withFile id ⟨bytes, size⟩).restart with
      root := rootAfter s.root id idStored lengthStored }

/-- The directory survives: the listed ids are the old ones, perhaps with `id`, and a store can be
    constructed on the log. -/
def Recovers (s : Site) (id : LogId) (s' : Site) : Prop :=
  ((∀ i, i ∈ s'.root.ids ↔ i ∈ s.root.ids) ∨
    (∀ i, i ∈ s'.root.ids ↔ i ∈ s.root.ids ∨ i = id.toNat)) ∧
  ∀ p, ∃ s'' l, drive (Opening.step p id) 10 s' (Opening.start id) = (s'', .opened (some l))

/-- Before the file exists the directory must be in order; once it exists, the new length must be
    persistent, and behind the old ids the new one. -/
def Harmless (s : Site) (id : LogId) : CrashPoint → Prop
  | before => s.CanOpen id
  | making _ _ => False
  | registering idStored lengthStored _ =>
    lengthStored = true ∧ (idStored = true ∨ s.root.logId s.root.length = id.toNat)

variable {s : Site} {id : LogId} {size : Nat}

/-- Once `Log::Log` has returned, the header is persistent. -/
theorem complete_of_image (hcreates : s.Creates id size) {bytes : Mem Byte}
    (h : ((PMem.mk (fun _ => 0) []).run (ctorOps size)).Image bytes) :
    File.Complete ⟨bytes, size⟩ := by
  refine ⟨?_, hcreates.pos, hcreates.small⟩
  rw [ctorOps, PMem.run_fenced] at h
  -- only the touched pages are unfenced, and they lie behind the header
  have hsame := h.scratch (fun s hs => absurd hs List.not_mem_nil) (touch_within size)
  have hload := load_store_self (fun _ => (0 : Byte)) 0
    (LHdr.encode ⟨magicNumber, size, sizeofLhdr, sizeofLhdr⟩)
  rw [LHdr.length_encode, ← exec_storeEach] at hload
  refine Eq.trans (load_congr (fun a ha => hsame ?_)) hload
  intro hbehind
  have h1 : sizeofLhdr ≤ a := hbehind
  have h2 := ha.2
  simp only [sizeofLhdr] at h1
  omega

/-- What the root lists after a crash in `addLog`. -/
theorem ids_rootAfter (r : NvsRoot) (id : LogId) (idStored lengthStored : Bool) :
    (rootAfter r id idStored lengthStored).ids =
      if lengthStored then r.ids ++ [if idStored then (id.toNat : Int) else r.logId r.length]
      else r.ids := by
  cases lengthStored with
  | false =>
    cases idStored with
    | false => rfl
    | true => exact r.ids_storeId id
  | true =>
    cases idStored with
    | false => exact r.ids_storeLength
    | true => exact r.ids_added id

theorem recovers_iff {s' : Site} (hfree : s'.held = false)
    (hsoft : ∀ p, s'.idToLogMap p id = none) :
    Recovers s id s' ↔ ((∀ i, i ∈ s'.root.ids ↔ i ∈ s.root.ids) ∨
      (∀ i, i ∈ s'.root.ids ↔ i ∈ s.root.ids ∨ i = id.toNat)) ∧ s'.CanOpen id := by
  refine and_congr_right (fun _ => ?_)
  constructor
  · intro h
    exact (open_alone_iff hfree (hsoft 0)).mp (h 0)
  · intro h p
    exact (open_alone_iff hfree (hsoft p)).mpr h

/-- Behind `Log::Log` the log can be opened as soon as it is listed. -/
theorem canOpen_registering (hcreates : s.Creates id size) {bytes : Mem Byte}
    (himage : ((PMem.mk (fun _ => 0) []).run (ctorOps size)).Image bytes)
    (idStored lengthStored : Bool) :
    ((registering idStored lengthStored bytes).leaves s id size).CanOpen id ↔
      (id.toNat : Int) ∈ (rootAfter s.root id idStored lengthStored).ids := by
  have hfile : ((registering idStored lengthStored bytes).leaves s id size).files id =
      some ⟨bytes, size⟩ := Function.update_self ..
  rw [← NvsRoot.isLogExist_iff]
  constructor
  · rintro (⟨hlisted, _⟩ | ⟨_, hnone, _⟩)
    · exact hlisted
    · rw [hfile] at hnone
      cases hnone
  · intro hlisted
    exact Or.inl ⟨hlisted, _, _, hfile, (complete_of_image hcreates himage).opens⟩

end CrashPoint

/-- **Crash-safe log creation** holds at exactly the harmless crash points. -/
theorem crash_safe_iff (s : Site) (id : LogId) (size : Nat) (cp : CrashPoint)
    (hcp : cp.Possible s id size) :
    CrashPoint.Recovers s id (cp.leaves s id size) ↔ cp.Harmless s id := by
  cases cp with
  | before =>
    rw [CrashPoint.recovers_iff rfl (fun _ => rfl)]
    exact and_iff_right (Or.inl (fun _ => Iff.rfl))
  | making cut bytes =>
    obtain ⟨hcreates, _, _⟩ := hcp
    rw [CrashPoint.recovers_iff rfl (fun _ => rfl)]
    constructor
    · rintro ⟨_, ⟨hlisted, _⟩ | ⟨_, hnone, _⟩⟩
      · have hunlisted := hcreates.unlisted
        rw [show s.root.isLogExist id = true from hlisted] at hunlisted
        cases hunlisted
      · have hfile : (s.withFile id ⟨bytes, size⟩).files id = some ⟨bytes, size⟩ :=
          Function.update_self ..
        rw [show (s.withFile id ⟨bytes, size⟩).files id = none from hnone] at hfile
        cases hfile
    · exact False.elim
  | registering idStored lengthStored bytes =>
    obtain ⟨hcreates, _, himage⟩ := hcp
    have hnot : (id.toNat : Int) ∉ s.root.ids := by
      rw [← NvsRoot.isLogExist_iff, hcreates.unlisted]
      exact Bool.false_ne_true
    rw [CrashPoint.recovers_iff rfl (fun _ => rfl),
      CrashPoint.canOpen_registering hcreates himage idStored lengthStored]
    show (((∀ i, i ∈ (CrashPoint.rootAfter s.root id idStored lengthStored).ids ↔ _) ∨
      (∀ i, i ∈ (CrashPoint.rootAfter s.root id idStored lengthStored).ids ↔ _)) ∧ _) ↔ _
    rw [CrashPoint.ids_rootAfter]
    cases lengthStored with
    | false =>
      constructor
      · rintro ⟨_, hid⟩
        exact absurd hid hnot
      · rintro ⟨h, _⟩
        cases h
    | true =>
      have hcell : (if idStored then (id.toNat : Int) else s.root.logId s.root.length) = id.toNat ↔
          idStored = true ∨ s.root.logId s.root.length = id.toNat := by
        cases idStored with
        | true => exact ⟨fun _ => Or.inl rfl, fun _ => rfl⟩
        | false => exact ⟨Or.inr, fun h => h.resolve_left Bool.false_ne_true⟩
      rw [CrashPoint.Harmless, and_iff_right rfl, ← hcell, if_pos rfl]
      generalize (if idStored then (id.toNat : Int) else s.root.logId s.root.length) = cell
      simp only [List.mem_append, List.mem_singleton]
      constructor
      · rintro ⟨_, hid⟩
        exact (hid.resolve_left hnot).symm
      · rintro rfl
        exact ⟨Or.inr (fun _ => Iff.rfl), Or.inr rfl⟩

theorem creates_formatted : Directory.formatted.shared.Creates 7 4096 :=
  ⟨rfl, rfl, by decide, by decide⟩

/-- A crash when everything is done. -/
theorem crash_safe_iff_done : ∃ cp : CrashPoint, cp.Possible Directory.formatted.shared 7 4096 ∧
    CrashPoint.Recovers Directory.formatted.shared 7
      (cp.leaves Directory.formatted.shared 7 4096) := by
  let bytes := ((PMem.mk (fun _ => 0) []).run (ctorOps 4096)).view
  have hpossible : (CrashPoint.registering true true bytes).Possible
      Directory.formatted.shared 7 4096 :=
    ⟨creates_formatted, by decide, _, List.Sublist.refl _, rfl⟩
  exact ⟨_, hpossible, (crash_safe_iff _ _ _ _ hpossible).mpr ⟨rfl, Or.inl rfl⟩⟩

/-- **A crash right after the file has come into being locks the log**: the constructor does not
    find it listed, cannot create its file, and exits with the mutex locked. -/
theorem crash_locks_the_log :
    (CrashPoint.making [] (fun _ => 0)).Possible Directory.formatted.shared 7 4096 ∧
    ∀ p, ∃ s', drive (Opening.step p 7) 10
      ((CrashPoint.making [] (fun _ => 0)).leaves Directory.formatted.shared 7 4096)
      (Opening.start 7) = (s', .stopped .exit) ∧ s'.held = true := by
  refine ⟨⟨creates_formatted, List.nil_prefix, [], List.Sublist.refl _, rfl⟩, ?_⟩
  intro p
  have hfails := ctor_exists ⟨fun _ => 0, 4096⟩ (show 0 < logSize by decide)
  refine ⟨_, (Opening.drive_unlisted rfl rfl rfl 7).trans
    ((drive_step (Opening.create_does (.notMade rfl hfails)) 6).trans (drive_stuck rfl 6)), rfl⟩

end NvStream
