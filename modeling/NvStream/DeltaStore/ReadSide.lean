/-
  What a `DeltaStore` can read back: nothing.

  Every entry that `put` and `put_all` of this class append is of type `delta` or `multiple`, and
  `process_chunks` returns no value for either of them.  The search of `get_with_malloc` starts at the
  oldest entry, so it is that one entry which decides: from the first append on, every call of
  `get_with_malloc`, for any key and any version, runs into it, also behind a restart.  Before the
  first append the walk has nothing to visit, `err` keeps the junk of the stack, and that is what the
  answer depends on.

  `walk_error` is the rule for a callback that does not come back from the first entry; `Foreign` is
  the type of header in question, and `Run.body` carries what such headers cannot undo along runs.
-/
import NvStream.DeltaStore.Calls
import NvStream.NvsStore.Lookup

namespace NvStream

open FlatMem LittleEndian LoadProg PersistTrace

/-! ## A walk that ends at its first entry -/

section
variable {σ : Type} {f : File} {body : List Byte}
  {processChunk : Nat → Nat → σ → Prog Stop Byte (σ × Bool)} {fuel : Nat} {arg : σ}

/-- **A callback that does not come back from the first entry ends the walk.** -/
theorem walk_error {stop : Stop} (hr : Rep f body) (hlong : sizeofLehdr ≤ body.length)
    (hcb : ∀ len, f.run (processChunk 32 len arg) = .error stop) (hfuel : 0 < fuel) :
    f.run (walk processChunk fuel arg) = .error stop := by
  have hroom := hr.room
  have hsmall := hr.small
  simp only [sizeofLehdr] at hlong
  obtain ⟨k, rfl⟩ : ∃ k, fuel = k + 1 := ⟨fuel - 1, by omega⟩
  have hlen : f.run (loadWord (u64 (32 + lenField))) = .ok (word f.bytes (32 + lenField)) := by
    rw [u64_of_lt (by decide), f.run_loadWord, if_pos (by rw [lenField]; omega)]
  rw [walk_run_loop hr (by omega), walkLoop, if_pos (by omega), f.run_bind_ok hlen,
    f.run_bind_error (hcb _)]
  rfl

end

/-- A type that `process_chunks` of `delta_store.cc` logs as not supported. -/
def LeHdr.Foreign (h : LeHdr) : Prop :=
  h.type = HdrType.multiple.code ∨ h.type = HdrType.delta.code

namespace DeltaStore

/-- `process_chunks` on such a header ends without a return value, whatever is looked for. -/
theorem processChunks_foreign {f : File} {h : LeHdr} {off : Nat} (hat : h.At f.bytes off)
    (hforeign : h.Foreign) (hin : off + sizeofLehdr ≤ f.len) (hsmall : f.len < 2 ^ 64) (len : Nat)
    (wentry : DeltaWalk) : f.run (processChunks off len wentry) = .error .undefined := by
  have htype : ofLE (load f.bytes (off + typeField) 4) = h.type.toNat := hat.fields.2.2.2
  have hload : (Prog.loadEach (u64 (off + typeField)) 4 : Prog Stop Byte (List Byte)).Yields
      (Set.Iio f.len) f.bytes (load f.bytes (off + typeField) 4) :=
    type_yields (by omega) (fun i hi => show _ < f.len by omega)
  rw [File.run, processChunks, hload.run_bind_eq (fun a ha => ha), htype]
  rcases hforeign with hmultiple | hdelta
  · rw [hmultiple, if_neg (by decide), if_pos rfl]
    rfl
  · rw [hdelta, if_neg (by decide), if_neg (by decide), if_pos rfl]
    rfl

/-! ## The oldest entry -/

/-- The oldest entry of the log is of such a type. -/
def Led (body : List Byte) : Prop := ∃ (h : LeHdr) (rest : List Byte),
  body = h.encode ++ rest ∧ h.Foreign

theorem Led.append {body : List Byte} (hled : Led body) (more : List Byte) :
    Led (body ++ more) := by
  obtain ⟨h, rest, rfl, hforeign⟩ := hled
  exact ⟨h, rest ++ more, List.append_assoc _ _ _, hforeign⟩

/-- An entry appended to an empty log becomes its oldest one. -/
theorem Led.first {body : List Byte} (hbody : body = [] ∨ Led body) {h : LeHdr}
    (hforeign : h.Foreign) (payload commit : List Byte) :
    Led (body ++ ((h.encode ++ payload) ++ commit)) := by
  rcases hbody with rfl | hled
  · exact ⟨h, payload ++ commit, by rw [List.nil_append, List.append_assoc], hforeign⟩
  · exact hled.append _

/-- No `get_with_malloc` comes back: the callback has no value to return for the first entry. -/
def Unreadable (s : DeltaStore) : Prop :=
  ∀ (wentry : DeltaWalk) (fuel : Nat) (key : Key) (version : UInt64) (tmpPtr : Nat), 0 < fuel →
    s.getWithMalloc wentry fuel key version tmpPtr = .error .undefined

section
variable {s s' : DeltaStore} {body : List Byte}

theorem Led.unreadable (hled : Led body) (hr : Rep s.file body) : s.Unreadable := by
  intro wentry fuel key version tmpPtr hfuel
  obtain ⟨h, rest, rfl, hforeign⟩ := hled
  have hroom := hr.room
  have hsmall := hr.small
  rw [List.length_append, LeHdr.length_encode] at hroom
  obtain ⟨hat, _⟩ := (load_append_iff _ _ _ _).mp hr.content
  rw [LeHdr.length_encode] at hat
  have hwalk : s.file.run (walk processChunks fuel (walkEntry wentry key version)) =
      .error .undefined := by
    refine walk_error hr ?_ (fun len => processChunks_foreign hat hforeign ?_ ?_ len _) hfuel
    · rw [List.length_append, LeHdr.length_encode, sizeofLehdr]
      omega
    · rw [sizeofLehdr]
      omega
    · omega
  rw [getWithMalloc, hwalk]

/-- On an empty log the answer is what the stack happens to hold in `wentry.err`. -/
theorem getWithMalloc_empty (hr : Rep s.file []) {wentry : DeltaWalk}
    (herr : wentry.err ≠ .noError) (fuel : Nat) (key : Key) (version : UInt64) (tmpPtr : Nat) :
    s.getWithMalloc wentry fuel key version tmpPtr = .ok (.idNotFound, none, s) := by
  rw [getWithMalloc, walk_empty hr]
  exact if_pos herr

/-- If that is `NO_ERROR`, so is the answer, if there is one; and a key that is not filed gets an
    object, as long as the stack says. -/
theorem getWithMalloc_junk (hr : Rep s.file []) {wentry : DeltaWalk}
    (herr : wentry.err = .noError) (fuel : Nat) (key : Key) (version : UInt64) (tmpPtr : Nat) :
    (∀ code addr s', s.getWithMalloc wentry fuel key version tmpPtr = .ok (code, addr, s') →
      code = .noError) ∧
    (s.objectMap.find? key = none → s.getWithMalloc wentry fuel key version tmpPtr =
      .ok (.noError, none, { s with
        objectMap := s.objectMap.insert key
          (Object.ctorDelta key (UInt64.ofNat wentry.len) version tmpPtr) })) := by
  have hgo : (walkEntry wentry key version).err = .noError := herr
  constructor
  · intro code addr s' h
    rw [getWithMalloc, walk_empty hr] at h
    dsimp only at h
    rw [if_neg (not_not_intro hgo)] at h
    split at h
    · split at h
      · cases h
      · split at h
        · cases h
        · cases h
          rfl
    · cases h
      rfl
  · intro hnone
    rw [getWithMalloc, walk_empty hr]
    dsimp only
    rw [if_neg (not_not_intro hgo), hnone]
    rfl

/-! ## Along runs -/

/-- A `put` or a `put_all` that went through. -/
def Appends (s s' : DeltaStore) : Prop :=
  (∃ junk key version n, s.put junk key version = .ok (.inr (n, s'))) ∨
    ∃ junk n, s.putAll junk = .ok (n, s')

/-- The file of the store is a log with such a body, whose end the handle knows. -/
def Logs (P : List Byte → Prop) (s : DeltaStore) : Prop :=
  ∃ body, Rep s.file body ∧ s.log.Synced s.file body ∧ P body

/-- **Every append puts a header of such a type behind the body.** -/
theorem Logs.append {P Q : List Byte → Prop} (hs : s.Logs P) (h : s.Appends s')
    (hPQ : ∀ body (hdr : LeHdr) payload, hdr.Foreign → P body →
      Q (body ++ ((hdr.encode ++ payload) ++ commitWord))) : s'.Logs Q := by
  obtain ⟨body, hr, hsync, hP⟩ := hs
  rcases h with ⟨junk, key, version, n, hput⟩ | ⟨junk, n, hput⟩
  · obtain ⟨obj, _, hr', hs', _⟩ := put_ok hr hsync hput
    exact ⟨_, hr', hs', hPQ body _ _ (Or.inr rfl) hP⟩
  · obtain ⟨_, hr', hs'⟩ := putAll_appended rfl hr hsync hput
    exact ⟨_, hr', hs', hPQ body _ _ (Or.inl rfl) hP⟩

/-- **What such entries keep of the log, runs keep**, restarts among them. -/
theorem Run.logs {P : List Byte → Prop}
    (hP : ∀ body (hdr : LeHdr) payload, hdr.Foreign → P body →
      P (body ++ ((hdr.encode ++ payload) ++ commitWord)))
    (hrun : Relation.ReflTransGen Run s s') (hs : s.Logs P) : s'.Logs P := by
  refine Run.invariant (P := Logs P) (fun heffect hs => ?_) (fun heap h => ?_) hrun hs
  · cases heffect with
    | file key size version ptr => exact hs
    | free objAddr key h => exact hs
    | version key version => exact hs
    | write addr b h =>
      rcases write_cases h with rfl | ⟨q, _, rfl⟩
      · exact hs
      · exact hs
    | put h => exact hs.append (Or.inl ⟨_, _, _, _, h⟩) hP
    | putAll h => exact hs.append (Or.inr ⟨_, _, h⟩) hP
  · rintro ⟨body, hr, _, hbody⟩
    rw [ctor_reopen hr] at h
    obtain ⟨rfl, rfl⟩ := Prod.mk.inj (Except.ok.inj h)
    exact ⟨body, hr, handleOn_synced _ _, hbody⟩

/-- Behind any run the log is empty, or its oldest entry is one the reader does not know. -/
theorem Run.empty_or_led {size : Nat} {l : Log} {f : File} {heap : Mem Byte}
    (hsize : sizeofLhdr ≤ size) (hnew : Log.ctor none size = .ok (l, f))
    (hrun : Relation.ReflTransGen Run (ctor l f heap) s) :
    s.Logs (fun body => body = [] ∨ Led body) := by
  obtain ⟨hr, hsync, _⟩ := ctor_create hsize hnew
  refine Run.logs (fun body hdr payload hforeign hbody => ?_) hrun ⟨[], hr, hsync, Or.inl rfl⟩
  exact Or.inr (Led.first hbody hforeign payload commitWord)

end

end DeltaStore

open DeltaStore in
/-- **A `DeltaStore` reads nothing back.**  Behind any run on a new log, a `put` or a `put_all` that
    goes through is the end of reading: whatever is called from there on, and however often the
    process is restarted, no `get_with_malloc` comes back with a value.  A `get_with_malloc` that
    returns therefore ran on a log without entries, where it answers from a field nobody has set:
    `ID_NOT_FOUND` if that is anything but `NO_ERROR`, and `NO_ERROR` otherwise, though nothing was
    ever put. -/
theorem delta_unreadable {size : Nat} {l : Log} {f : File} {heap : Mem Byte} {s : DeltaStore}
    (hsize : sizeofLhdr ≤ size) (hnew : Log.ctor none size = .ok (l, f))
    (hrun : Relation.ReflTransGen Run (ctor l f heap) s) :
    (∀ s₁ s₂, s.Appends s₁ → Relation.ReflTransGen Run s₁ s₂ → s₂.Unreadable) ∧
    ∀ (wentry : DeltaWalk) (fuel : Nat) (key : Key) (version : UInt64) (tmpPtr : Nat), 0 < fuel →
      (word s.file.bytes tailOff ≠ 32 →
        s.getWithMalloc wentry fuel key version tmpPtr = .error .undefined) ∧
      (word s.file.bytes tailOff = 32 → wentry.err ≠ .noError →
        s.getWithMalloc wentry fuel key version tmpPtr = .ok (.idNotFound, none, s)) ∧
      (word s.file.bytes tailOff = 32 → wentry.err = .noError →
        (∀ code addr s', s.getWithMalloc wentry fuel key version tmpPtr = .ok (code, addr, s') →
          code = .noError) ∧
        (s.objectMap.find? key = none → s.getWithMalloc wentry fuel key version tmpPtr =
          .ok (.noError, none, { s with
            objectMap := s.objectMap.insert key
              (Object.ctorDelta key (UInt64.ofNat wentry.len) version tmpPtr) }))) := by
  have hlogs := Run.empty_or_led hsize hnew hrun
  refine ⟨fun s₁ s₂ happend hlater => ?_, fun wentry fuel key version tmpPtr hfuel => ?_⟩
  · -- the append leaves an entry at the head of the log, and no later one gets before it
    have hled : s₁.Logs Led := hlogs.append happend
      (fun body hdr payload hforeign hbody => Led.first hbody hforeign payload commitWord)
    obtain ⟨body, hr, _, hbody⟩ := Run.logs (fun _ _ _ _ hbody => hbody.append _) hlater hled
    exact hbody.unreadable hr
  · obtain ⟨body, hr, _, hbody⟩ := hlogs
    rw [show word s.file.bytes tailOff = _ from hr.tail_eq]
    rcases hbody with rfl | hled
    · exact ⟨fun hne => absurd rfl hne,
        fun _ herr => getWithMalloc_empty hr herr fuel key version tmpPtr,
        fun _ herr => getWithMalloc_junk hr herr fuel key version tmpPtr⟩
    · have hentry : 32 + body.length ≠ 32 := by
        obtain ⟨h, rest, rfl, _⟩ := hled
        rw [List.length_append, LeHdr.length_encode]
        omega
      exact ⟨fun _ => hled.unreadable hr wentry fuel key version tmpPtr hfuel,
        fun hempty => absurd hempty hentry, fun hempty => absurd hempty hentry⟩

/-- A `walkentry` in which `err` still holds what an earlier search put there. -/
def staleWalk : DeltaWalk where
  key := Vector.replicate 20 0
  version := 0
  err := .idNotFound
  len := 0
  datap := 0
  startOffset := 0
  deltaLen := 0
  deltas := Vector.replicate 5 (0, 0)

/-- An object is created and put as version 1; a search for just that version does not come back. -/
theorem delta_unreadable_one_put :
    ∃ l f s₁ n s₂, Log.ctor none deltaLogSize = .ok (l, f) ∧
      (DeltaStore.ctor l f (fun _ => 0)).createObj [97] 4 4096 = .ok (.noError, 4096, s₁) ∧
      s₁.getWithMalloc staleWalk 1 [97] 1 8192 = .ok (.idNotFound, none, s₁) ∧
      s₁.put blankHdr [97] 1 = .ok (.inr (n, s₂)) ∧
      s₂.getWithMalloc staleWalk 1 [97] 1 8192 = .error .undefined := by
  obtain ⟨l, f, s₁, n, s₂, hnew, _, hcreate, _, _, _, hr, _, _, hput⟩ := DeltaStore.one_put
  have hrun : Relation.ReflTransGen DeltaStore.Run (DeltaStore.ctor l f (fun _ => 0)) s₁ :=
    .single (.call (.createObj [97] 4 4096) (DeltaStore.after_createObj hcreate))
  obtain ⟨hafter, hbefore⟩ := delta_unreadable (by decide) hnew hrun
  refine ⟨l, f, s₁, n, s₂, hnew, hcreate, ?_, hput, ?_⟩
  · exact (hbefore staleWalk 1 [97] 1 8192 (by decide)).2.1 hr.tail_eq (by decide)
  · exact hafter s₂ s₂ (Or.inl ⟨_, _, _, _, hput⟩) .refl staleWalk 1 [97] 1 8192 (by decide)

end NvStream
