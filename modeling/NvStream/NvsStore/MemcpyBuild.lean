/-
  The `_MEMCPY` build.

  With `_MEMCPY` defined, `appendv` and `appendmv` end after their copy loops: plain `memcpy`s and a
  fence, and no call of `persist`.  The build is meant to give up crash consistency only.  But
  `persist` is also what moves `hdr->tail`, and `walk` reads nothing else to find out where the
  entries end.

  1. **The build** (`Build`): the two variants of each append function, and a sequence of calls that
     runs until one is refused.
  2. **What each leaves**: the default build a log of the entries it took (`perform_default`), the
     `_MEMCPY` build a log with no entries, whatever it took (`perform_memcpy`).
  3. **So the two show the same entries exactly if there are none** (`memcpy_visits_iff`), and no
     `get` finds anything in the `_MEMCPY` build.
-/
import NvStream.NvsStore.RoundTrip

namespace NvStream

open FlatMem LittleEndian LoadProg PersistTrace

/-! ## The build -/

/-- What the two `_MEMCPY` append functions share: the same check, the copy loop, and a fence.
    Neither the commit word nor `hdr->tail` is written. -/
def Log.memcpyWith (l : Log) (f : File) (need : Nat) (copy : List (Op Byte) × Nat) :
    Except Stop (Log × File) :=
  if l.HasSpace need then
    let ops := copy.1 ++ [Op.drain]
    if ∀ o ∈ ops, InMap f.len o then
      .ok ({ l with writeOffset := copy.2 }, { f with bytes := exec f.bytes ops })
    else .error .segv
  else .error .exit

/-- `Log::appendv`, `_MEMCPY` build. -/
def Log.appendvMemcpy (l : Log) (f : File) (iov : List IoVec) : Except Stop (Log × File) :=
  l.memcpyWith f (totCntv iov) (copyv l.writeOffset iov)

/-- `Log::appendmv`, `_MEMCPY` build. -/
def Log.appendmvMemcpy (l : Log) (f : File) (rows : List (List IoVec)) :
    Except Stop (Log × File) :=
  l.memcpyWith f (totCntmv rows) (copymv l.writeOffset rows)

/-- Whether `_MEMCPY` is defined. -/
inductive Build where
  | default
  | memcpy
deriving DecidableEq, Repr

/-- A call of an append function in a build. -/
def Build.call (b : Build) (l : Log) (f : File) (a : Append) : Except Stop (Log × File) :=
  match b, a with
  | .default, a => a.call l f
  | .memcpy, .appendv iov => l.appendvMemcpy f iov
  | .memcpy, .appendmv rows => l.appendmvMemcpy f rows

theorem Build.default_call (l : Log) (f : File) (a : Append) :
    Build.default.call l f a = a.call l f := rfl

/-- A call whose buffers gather to a well-formed entry. -/
structure EntryCall where
  call : Append
  entry : Entry
  data_eq : call.data = entry.bytes

/-- A sequence of calls through one handle: the entries it took, and the file it leaves.  The call
    that is refused ends the process. -/
def Build.perform (b : Build) : List EntryCall → Log → File → Except Stop (List Entry × File)
  | [], _, f => .ok ([], f)
  | c :: cs, l, f =>
    match b.call l f c.call with
    | .error .exit => .ok ([], f)
    | .error stop => .error stop
    | .ok (l', f') =>
      match b.perform cs l' f' with
      | .error stop => .error stop
      | .ok (es, f'') => .ok (c.entry :: es, f'')

/-- `NVSStore::put` in a build. -/
def NvsStore.putIn (b : Build) (s : NvsStore) (lEntry : LeHdr) (key : Key) (version : UInt64) :
    Except Stop (ErrorCode × NvsStore) :=
  match s.objectMap.find? key with
  | none => .ok (.elemNotFound, s)
  | some obj =>
    match b.call s.log s.file (.appendv [(lEntry.fill obj version).iov, obj.iov s.heap]) with
    | .error stop => .error stop
    | .ok (log, file) => .ok (.noError, { s with
        log := log
        file := file
        objectMap := s.objectMap.modify key (fun obj => obj.setVersion version) })

theorem NvsStore.putIn_default (s : NvsStore) (lEntry : LeHdr) (key : Key) (version : UInt64) :
    s.putIn .default lEntry key version = s.put lEntry key version := rfl

/-! ## What a sequence of calls leaves -/

/-- The one way a sequence of calls comes back: nothing was left to do, the next call was refused,
    or it was taken and the rest came back. -/
theorem Build.perform_cons {b : Build} {c : EntryCall} {cs : List EntryCall} {l : Log} {f f' : File}
    {es : List Entry} (h : b.perform (c :: cs) l f = .ok (es, f')) :
    (b.call l f c.call = .error .exit ∧ es = [] ∧ f' = f) ∨
    ∃ l₁ f₁ es₁, b.call l f c.call = .ok (l₁, f₁) ∧ b.perform cs l₁ f₁ = .ok (es₁, f') ∧
      es = c.entry :: es₁ := by
  rw [Build.perform] at h
  split at h
  · rename_i hcall
    simp only [Except.ok.injEq, Prod.mk.injEq] at h
    exact Or.inl ⟨hcall, h.1.symm, h.2.symm⟩
  · cases h
  · rename_i l₁ f₁ hcall
    split at h
    · cases h
    · rename_i es₁ f₂ hrest
      simp only [Except.ok.injEq, Prod.mk.injEq] at h
      obtain ⟨rfl, rfl⟩ := h
      exact Or.inr ⟨l₁, f₁, es₁, hcall, hrest, rfl⟩

theorem Build.perform_single {b : Build} {c : EntryCall} {l l' : Log} {f f' : File}
    (h : b.call l f c.call = .ok (l', f')) : b.perform [c] l f = .ok ([c.entry], f') := by
  rw [Build.perform, h]
  rfl

/-- A call in the `_MEMCPY` build is one of the flat vector. -/
theorem Build.memcpy_call_eq (l : Log) (f : File) (a : Append) :
    Build.memcpy.call l f a = l.appendvMemcpy f a.vec := by
  cases a with
  | appendv iov => rfl
  | appendmv rows =>
    show l.appendmvMemcpy f rows = l.appendvMemcpy f rows.flatten
    rw [Log.appendmvMemcpy, Log.appendvMemcpy, copymv_eq_copyv, totCntmv_eq_totCntv]

/-- The default build appends the entries it takes. -/
theorem perform_default (cs : List EntryCall) : ∀ {l : Log} {f f' : File} {pre es : List Entry},
    Rep f (encode pre) → l.Synced f (encode pre) →
    Build.default.perform cs l f = .ok (es, f') → Rep f' (encode (pre ++ es)) := by
  induction cs with
  | nil =>
    intro l f f' pre es hr _ h
    cases h
    rw [List.append_nil]
    exact hr
  | cons c cs ih =>
    intro l f f' pre es hr hs h
    rcases Build.perform_cons h with ⟨_, rfl, rfl⟩ | ⟨l₁, f₁, es₁, hcall, hrest, rfl⟩
    · rw [List.append_nil]
      exact hr
    · obtain ⟨_, _, _, hr₁, hs₁⟩ := Append.call_ok hr hs hcall
      rw [c.data_eq, ← encode_concat] at hr₁ hs₁
      have hrep := ih hr₁ hs₁ hrest
      rw [List.append_assoc] at hrep
      exact hrep

/-- The `_MEMCPY` build never touches the header: the log stays empty. -/
theorem memcpy_call_ok {l l' : Log} {f f' : File} {a : Append} (hr : Rep f [])
    (h32 : 32 ≤ l.writeOffset) (hstop : l.endOffset = f.len - 1)
    (h : Build.memcpy.call l f a = .ok (l', f')) :
    Rep f' [] ∧ 32 ≤ l'.writeOffset ∧ l'.endOffset = f'.len - 1 := by
  have hsmall := hr.small
  rw [Build.memcpy_call_eq, Log.appendvMemcpy, Log.memcpyWith] at h
  split at h
  · rename_i hspace
    simp only at h
    split at h
    · rename_i hin
      have hbelow := hspace.1
      have hfits := copyv_fits (fun o ho => hin o (List.mem_append_left _ ho)) (by omega)
        (show f.len < 2 ^ 64 by omega)
      rw [copyv_exact (by omega), exec_append, exec_storeEach] at h
      simp only [Except.ok.injEq, Prod.mk.injEq] at h
      obtain ⟨rfl, rfl⟩ := h
      refine ⟨hr.congr ?_, ?_, hstop⟩
      · intro b hb
        have hlow : b < 32 := Nat.not_le.mp hb
        exact store_out _ _ _ (Or.inl (by omega))
      · show 32 ≤ l.writeOffset + _
        omega
    · cases h
  · cases h

theorem perform_memcpy (cs : List EntryCall) : ∀ {l : Log} {f f' : File} {es : List Entry},
    Rep f [] → 32 ≤ l.writeOffset → l.endOffset = f.len - 1 →
    Build.memcpy.perform cs l f = .ok (es, f') → Rep f' [] := by
  induction cs with
  | nil =>
    intro l f f' es hr _ _ h
    cases h
    exact hr
  | cons c cs ih =>
    intro l f f' es hr h32 hstop h
    rcases Build.perform_cons h with ⟨_, rfl, rfl⟩ | ⟨l₁, f₁, es₁, hcall, hrest, rfl⟩
    · exact hr
    · obtain ⟨hr₁, h32₁, hstop₁⟩ := memcpy_call_ok hr h32 hstop hcall
      exact ih hr₁ h32₁ hstop₁ hrest

/-- Behind `end_offset` every call is refused, in both builds. -/
theorem perform_refused {b : Build} {l : Log} {f f' : File} {cs : List EntryCall} {es : List Entry}
    (hfull : l.endOffset ≤ l.writeOffset) (h : b.perform cs l f = .ok (es, f')) :
    es = [] ∧ f' = f := by
  cases cs with
  | nil =>
    cases h
    exact ⟨rfl, rfl⟩
  | cons c cs =>
    have hno : ∀ need, ¬ l.HasSpace need := fun need hspace => absurd hspace.1 (by omega)
    rcases Build.perform_cons h with ⟨_, rfl, rfl⟩ | ⟨l₁, f₁, es₁, hcall, _, _⟩
    · exact ⟨rfl, rfl⟩
    · cases b with
      | default =>
        rw [Build.default_call, c.call.call_eq, Log.appendv, Log.appendWith, if_neg (hno _)] at hcall
        cases hcall
      | memcpy =>
        rw [Build.memcpy_call_eq, Log.appendvMemcpy, Log.memcpyWith, if_neg (hno _)] at hcall
        cases hcall

/-! ## What can be read back -/

/-- A walk over the one file visits the same entries as a walk over the other: in the same order, and
    with the same bytes. -/
def File.ShowsSame (f f' : File) : Prop :=
  ∃ bound, ∀ fuel ≥ bound,
    (f.run (walk observe fuel [])).map (fun r => r.2.1.map Visit.bytes) =
      (f'.run (walk observe fuel [])).map (fun r => r.2.1.map Visit.bytes)

theorem File.Visits.showsSame_iff {f f' : File} {es es' : List Entry} (h : f.Visits es)
    (h' : f'.Visits es') : f.ShowsSame f' ↔ es.map Entry.bytes = es'.map Entry.bytes := by
  have hrun : ∀ fuel, es.length < fuel →
      (f.run (walk observe fuel [])).map (fun r => r.2.1.map Visit.bytes) =
        .ok (es.map Entry.bytes) := by
    intro fuel hfuel
    rw [h fuel hfuel, ← map_bytes_visitsFrom 32 es]
    rfl
  have hrun' : ∀ fuel, es'.length < fuel →
      (f'.run (walk observe fuel [])).map (fun r => r.2.1.map Visit.bytes) =
        .ok (es'.map Entry.bytes) := by
    intro fuel hfuel
    rw [h' fuel hfuel, ← map_bytes_visitsFrom 32 es']
    rfl
  constructor
  · rintro ⟨bound, hsame⟩
    have heq := hsame (bound + es.length + es'.length + 1) (by omega)
    rw [hrun _ (by omega), hrun' _ (by omega)] at heq
    exact Except.ok.inj heq
  · intro heq
    refine ⟨es.length + es'.length + 1, fun fuel hfuel => ?_⟩
    rw [hrun _ (by omega), hrun' _ (by omega), heq]

/-- **The `_MEMCPY` build shows what the default build shows exactly if that is nothing.**  For every
    new log and every sequence of calls with well-formed entries that runs in both builds: the two
    files show the same entries if and only if the default build took none.  If it took some, they can
    all be seen in the default build; in the `_MEMCPY` build none can, and no `get` finds a record. -/
theorem memcpy_visits_iff {size : Nat} {l₀ : Log} {f₀ : File}
    (hnew : Log.ctor none size = .ok (l₀, f₀)) (calls : List EntryCall) {es es' : List Entry}
    {f f' : File} (hdefault : Build.default.perform calls l₀ f₀ = .ok (es, f))
    (hmemcpy : Build.memcpy.perform calls l₀ f₀ = .ok (es', f')) :
    (f'.ShowsSame f ↔ es = []) ∧
    (es ≠ [] → f.Visits es ∧ f'.Visits [] ∧
      ∀ (s : NvsStore) (w : WalkEntry) (fuel : Nat) (key : Key) (version : UInt64) (dst : Nat),
        s.file = f' → s.get w fuel key version dst = .ok (.idNotFound, s)) := by
  by_cases hsize : sizeofLhdr ≤ size
  · obtain ⟨hr₀, hs₀, _⟩ := ctor_create hsize hnew
    have hrep : Rep f (encode ([] ++ es)) := perform_default calls hr₀ hs₀ hdefault
    have hrep' : Rep f' [] := perform_memcpy calls hr₀ hs₀.write.ge hs₀.stop hmemcpy
    have hshows : f.Visits es := visits_of_rep (List.nil_append es ▸ hrep)
    have hshows' : f'.Visits [] := visits_of_rep hrep'
    refine ⟨?_, fun _ => ⟨hshows, hshows', ?_⟩⟩
    · rw [hshows'.showsSame_iff hshows]
      exact ⟨fun h => List.map_eq_nil_iff.mp h.symm, fun h => by rw [h]⟩
    · rintro s w fuel key version dst rfl
      exact NvsStore.get_empty hrep' w fuel key version dst
  · -- too small for a header: `write_offset` starts behind `end_offset`
    obtain ⟨_, rfl, _⟩ := ctor_none.mp hnew
    have hfull : size - 1 ≤ sizeofLhdr := by omega
    obtain ⟨rfl, rfl⟩ := perform_refused hfull hdefault
    obtain ⟨_, rfl⟩ := perform_refused hfull hmemcpy
    exact ⟨⟨fun _ => rfl, fun _ => ⟨0, fun _ _ => rfl⟩⟩, fun h => absurd rfl h⟩

/-- A call that fits is taken by the `_MEMCPY` build, too. -/
theorem memcpy_of_fits {l : Log} {f : File} {body : List Byte} (hr : Rep f body)
    (hs : l.Synced f body) (a : Append)
    (hfit : 32 + body.length + a.data.length + 8 ≤ f.len - 1) :
    ∃ l' f', Build.memcpy.call l f a = .ok (l', f') := by
  have hsmall := hr.small
  have hwrite := hs.write
  have hstop := hs.stop
  have hdata : a.data.length = (gather a.vec).length := rfl
  have hspace : l.HasSpace (totCntv a.vec) := by
    rw [Log.HasSpace, totCntv_eq, u64_of_lt (by omega)]
    omega
  have hin : ∀ o ∈ storeEach l.writeOffset (gather a.vec) ++ [Op.drain], InMap f.len o := by
    intro o ho
    rcases List.mem_append.mp ho with ho | ho
    · refine inMap_of_within (fun b hb => ?_) (storeEach_within ho)
      have := hb.2
      omega
    · rw [List.mem_singleton.mp ho]
      trivial
  rw [Build.memcpy_call_eq, Log.appendvMemcpy, Log.memcpyWith, if_pos hspace,
    copyv_exact (by omega)]
  simp only [if_pos hin]
  exact ⟨_, _, rfl⟩

/-- The call `put` makes for an object. -/
def putCall (junk : LeHdr) (heap : Mem Byte) (o : Object) (version : UInt64) : EntryCall where
  call := .appendv [(junk.fill o version).iov, o.iov heap]
  entry := (Item.single ⟨junk, o.toRec heap version⟩).entry
  data_eq := (gather_record junk heap o version []).trans (List.append_nil _)

theorem length_putCall (junk : LeHdr) (heap : Mem Byte) (o : Object) (version : UInt64) :
    (putCall junk heap o version).call.data.length = sizeofLehdr + o.size.toNat := by
  rw [EntryCall.data_eq]
  show (Item.single _).entry.bytes.length = _
  rw [Entry.length_bytes, Item.len_single]
  exact congrArg (sizeofLehdr + ·) (o.length_contents heap)

/-- One `put` of four bytes, run in both builds. -/
theorem memcpy_visits_iff_one_put : ∃ l f es f₁ es' f₂, Log.ctor none logSize = .ok (l, f) ∧
    Build.default.perform [putCall blankHdr (fun _ => 9) (Object.ctor [97] 4 0 4096) 7] l f =
      .ok (es, f₁) ∧ es ≠ [] ∧
    Build.memcpy.perform [putCall blankHdr (fun _ => 9) (Object.ctor [97] 4 0 4096) 7] l f =
      .ok (es', f₂) ∧ f₁.Visits es ∧ f₂.Visits [] ∧ ¬ f₂.ShowsSame f₁ := by
  obtain ⟨l, f, hnew, hr, hs, hlen⟩ := ctor_ok logSize (by decide)
  have hfit : 32 + ([] : List Byte).length +
      (putCall blankHdr (fun _ => 9) (Object.ctor [97] 4 0 4096) 7).call.data.length + 8 ≤
      f.len - 1 := by
    rw [length_putCall, hlen]
    decide
  obtain ⟨l₁, f₁, hcall₁⟩ := Append.call_of_fits hr hs _ hfit
  obtain ⟨l₂, f₂, hcall₂⟩ := memcpy_of_fits hr hs _ hfit
  have hdefault := Build.perform_single ((Build.default_call l f _).trans hcall₁)
  have hmemcpy := Build.perform_single hcall₂
  obtain ⟨hiff, hshow⟩ := memcpy_visits_iff hnew _ hdefault hmemcpy
  obtain ⟨hvisits, hnone, _⟩ := hshow (List.cons_ne_nil _ _)
  exact ⟨l, f, _, f₁, _, f₂, hnew, hdefault, List.cons_ne_nil _ _, hmemcpy, hvisits, hnone,
    fun h => absurd (hiff.mp h) (List.cons_ne_nil _ _)⟩

/-- **A `put` that nobody can read**: in the `_MEMCPY` build it returns `NO_ERROR` like the `put` of
    the default build, and the `get` that finds the four bytes there reports `ID_NOT_FOUND`. -/
theorem memcpy_put_not_found : ∃ l f s s₁ s₂, Log.ctor none logSize = .ok (l, f) ∧
    (NvsStore.ctor l f (fun _ => 9)).createObj [97] 4 4096 = .ok (.noError, 4096, s) ∧
    s.putIn .default blankHdr [97] 7 = .ok (.noError, s₁) ∧
    s₁.Delivers [97] 7 [9, 9, 9, 9] ∧
    s.putIn .memcpy blankHdr [97] 7 = .ok (.noError, s₂) ∧
    ∀ w fuel dst, s₂.get w fuel [97] 7 dst = .ok (.idNotFound, s₂) := by
  obtain ⟨l, f, s, s₁, hnew, hcreate, hput, hobj, hheap, _, hr₁, _⟩ := one_put [97] 7
  obtain ⟨l', f', s', hnew', hcreate', _, _, _, hr, hs, hlen⟩ := one_object [97] 4
  -- it is the same store in both
  obtain ⟨rfl, rfl⟩ := Prod.mk.inj (Except.ok.inj (hnew.symm.trans hnew'))
  obtain rfl : s = s' := by
    have h := hcreate.symm.trans hcreate'
    simp only [Except.ok.injEq, Prod.mk.injEq, true_and] at h
    exact h
  obtain ⟨l₂, f₂, hcall⟩ := memcpy_of_fits hr hs
    (putCall blankHdr s.heap (Object.ctor [97] 4 0 4096) 7).call (by
      rw [length_putCall, hlen]
      decide)
  have hput₂ : s.putIn .memcpy blankHdr [97] 7 = .ok (.noError, { s with
      log := l₂
      file := f₂
      objectMap := s.objectMap.modify [97] (fun obj => obj.setVersion 7) }) := by
    have hcall' : Build.memcpy.call s.log s.file (.appendv
        [(blankHdr.fill (Object.ctor [97] 4 0 4096) 7).iov,
          (Object.ctor [97] 4 0 4096).iov s.heap]) = .ok (l₂, f₂) := hcall
    rw [NvsStore.putIn, hobj]
    simp only [hcall']
  obtain ⟨hr₂, _⟩ := memcpy_call_ok hr hs.write.ge hs.stop hcall
  refine ⟨l, f, s, s₁, _, hnew, hcreate, hput, ?_, hput₂,
    fun w fuel dst => NvsStore.get_empty hr₂ w fuel [97] 7 dst⟩
  have hlook : LooksInside s₁.file _ :=
    looksInside_of_rep hr₁ (fun it hit hempty => by
      obtain rfl := Option.some.inj hit
      cases hempty)
  have hdata : (Object.ctor [97] 4 0 4096).contents (fun _ => 9) = [9, 9, 9, 9] := rfl
  rw [NvsStore.delivers_iff hr₁ hlook]
  show Option.map Rec.data (lookup [97] 7 [Item.single ⟨blankHdr, _⟩]) = _
  rw [lookup, List.flatMap_singleton, Item.visible, List.find?_cons_of_pos (by decide)]
  exact congrArg some hdata

end NvStream
