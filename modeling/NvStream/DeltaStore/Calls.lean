/-
  The reader of `DeltaStore`, and the calls of the class as values.

  `get_with_malloc` runs the search of the log with a `process_chunks` of its own, which knows entries
  of type `single` only; for the types that `put` and `put_all` of this class write it logs an error
  and ends without a return value.  If the key is live, `delta_memcpy` copies into the object's buffer,
  through the same page protection as every other store of the process.

  `after` performs a call, `Run` is a run of calls and restarts.  `Effect` says once what a call comes
  down to, and `Run.invariant` is the rule for everything that holds along runs: of the objects
  (`Run.objects`), of `addrMap` (`Run.addrMap_empty`) and of the log (`Run.logged`).
-/
import NvStream.DeltaStore.DirtyPages

namespace NvStream

open FlatMem LittleEndian LoadProg PersistTrace

/-! ## The callback -/

/-- `offsetof(lehdr_t, delta_len)` -/
def deltaLenField : Nat := 48
/-- `offsetof(lehdr_t, deltas)` -/
def deltasField : Nat := 56

/-- `struct walkentry`, with the two fields only this store's reader uses. -/
structure DeltaWalk extends WalkEntry where
  deltaLen : UInt64
  deltas : Vector (UInt64 × UInt64) 5

/-- The array `ledelta_t[5]` that 80 bytes stand for. -/
def decodeDeltas (bs : List Byte) : Vector (UInt64 × UInt64) 5 :=
  Vector.ofFn (fun i => (UInt64.ofNat (ofLE ((bs.drop (16 * i.val)).take 8)),
    UInt64.ofNat (ofLE ((bs.drop (16 * i.val + 8)).take 8))))

namespace DeltaStore

/-- `process_chunks` of `delta_store.cc` -/
def processChunks (buf _len : Nat) (wentry : DeltaWalk) : Prog Stop Byte (DeltaWalk × Bool) := do
  let w := { wentry with err := .idNotFound }
  let type ← Prog.loadEach (u64 (buf + typeField)) 4
  if ofLE type = HdrType.single.code.toNat then do
    let found ← matchesAt buf w.toWalkEntry
    if found then do
      let len ← loadWord (u64 (buf + lenField))
      -- copy the delta chunk metadata
      let deltas ← Prog.loadEach (u64 (buf + deltasField)) 80
      let deltaLen ← loadWord (u64 (buf + deltaLenField))
      return ({ w with
        datap := u64 (buf + sizeofLehdr)
        len := len
        deltas := decodeDeltas deltas
        deltaLen := UInt64.ofNat deltaLen
        err := .noError }, false)
    else return (w, true)
  else if ofLE type = HdrType.multiple.code.toNat then
    -- logged as not supported, and then the function ends without a return value
    .fail .undefined
  else if ofLE type = HdrType.delta.code.toNat then
    .fail .undefined
  else .fail .exit

/-! ## `delta_memcpy` -/

/-- The loop of `delta_memcpy`, from round `i` on, with so many rounds to go: the copies it makes, in
    order.  The source lies in the mapping and the destination in the heap, so no copy changes what a
    later one loads.  `deltas[5]` is outside the array. -/
def deltaCopies (dst src : Nat) (deltas : Vector (UInt64 × UInt64) 5) :
    Nat → Nat → Nat → Prog Stop Byte (List (Nat × List Byte))
  | 0, _, _ => return []
  | rounds + 1, i, srcOffset =>
    if h : i < 5 then do
      let data ← Prog.loadEach (u64 (src + srcOffset)) deltas[i].2.toNat
      let rest ← deltaCopies dst src deltas rounds (i + 1) (u64 (srcOffset + deltas[i].2.toNat))
      return (u64 (dst + deltas[i].1.toNat), data) :: rest
    else .fail .undefined

/-- `DeltaStore::delta_memcpy`: `for(int i = 0; i < delta_len; i ++)`. -/
def deltaMemcpy (dst src : Nat) (deltas : Vector (UInt64 × UInt64) 5) (deltaLen : UInt64) :
    Prog Stop Byte (List (Nat × List Byte)) :=
  deltaCopies dst src deltas deltaLen.toNat 0 0

/-- One `memcpy` into the process's memory: a read-only page faults as in `write`. -/
def writeBytes : DeltaStore → Nat → List Byte → Except Stop DeltaStore
  | s, _, [] => .ok s
  | s, addr, b :: bs =>
    match s.write addr b with
    | .error stop => .error stop
    | .ok s' => writeBytes s' (addr + 1) bs

/-- One `memcpy` after the other. -/
def writeAll : DeltaStore → List (Nat × List Byte) → Except Stop DeltaStore
  | s, [] => .ok s
  | s, c :: cs =>
    match s.writeBytes c.1 c.2 with
    | .error stop => .error stop
    | .ok s' => writeAll s' cs

/-! ## `get_with_malloc` -/

/-- The `walkentry` that `get_with_malloc` sets up, over the junk `w`. -/
def walkEntry (w : DeltaWalk) (key : Key) (version : UInt64) : DeltaWalk :=
  { w with toWalkEntry := NvsStore.walkEntry w.toWalkEntry key version }

/-- `DeltaStore::get_with_malloc`; `malloc`, if called, returns `tmpPtr`.  For a new object `*addr` is
    never set. -/
def getWithMalloc (s : DeltaStore) (wentry : DeltaWalk) (fuel : Nat) (key : Key) (version : UInt64)
    (tmpPtr : Nat) : Except Stop (ErrorCode × Option Nat × DeltaStore) :=
  match s.file.run (walk processChunks fuel (walkEntry wentry key version)) with
  | .error stop => .error stop
  | .ok (_, w, _) =>
    if w.err ≠ .noError then .ok (.idNotFound, none, s)
    else
      match s.objectMap.find? key with
      | some obj =>
        match s.file.run (deltaMemcpy obj.ptr w.datap w.deltas w.deltaLen) with
        | .error stop => .error stop
        | .ok copies =>
          match s.writeAll copies with
          | .error stop => .error stop
          | .ok s' => .ok (.noError, some obj.ptr, { s' with
              objectMap := s'.objectMap.modify key (fun obj => obj.setVersion version) })
      | none => .ok (.noError, none, { s with
          objectMap := s.objectMap.insert key
            (Object.ctorDelta key (UInt64.ofNat w.len) version tmpPtr) })

end DeltaStore

/-! ## Calls and runs -/

/-- A call of the class, or a store of the application.  (`get` is not among them: it has no
    `return`.) -/
inductive DeltaCall where
  | createObj (key : Key) (size : UInt64) (tmpPtr : Nat)
  | freeObj (objAddr : Nat)
  | put (lEntry : LeHdr) (key : Key) (version : UInt64)
  | putAll (lEntry : Nat → LeHdr)
  | getWithMalloc (wentry : DeltaWalk) (fuel : Nat) (key : Key) (version : UInt64) (tmpPtr : Nat)
  | write (addr : Nat) (b : Byte)

namespace DeltaStore

/-- The store behind a call that returns. -/
def after (s : DeltaStore) : DeltaCall → Except Stop DeltaStore
  | .createObj key size tmpPtr => (s.createObj key size tmpPtr).map (fun r => r.2.2)
  | .freeObj objAddr => (s.freeObj objAddr).map Prod.snd
  | .put lEntry key version => (s.put lEntry key version).map (Sum.elim (fun _ => s) Prod.snd)
  | .putAll lEntry => (s.putAll lEntry).map Prod.snd
  | .getWithMalloc wentry fuel key version tmpPtr =>
    (s.getWithMalloc wentry fuel key version tmpPtr).map (fun r => r.2.2)
  | .write addr b => s.write addr b

theorem after_createObj {s s' : DeltaStore} {key : Key} {size : UInt64} {tmpPtr addr : Nat}
    {code : ErrorCode} (h : s.createObj key size tmpPtr = .ok (code, addr, s')) :
    s.after (.createObj key size tmpPtr) = .ok s' := by
  rw [after, h]
  rfl

theorem after_put {s s' : DeltaStore} {lEntry : LeHdr} {key : Key} {version : UInt64} {n : Nat}
    (h : s.put lEntry key version = .ok (.inr (n, s'))) : s.after (.put lEntry key version) = .ok s' := by
  rw [after, h]
  rfl

/-- A call that returns, or a restart of the process. -/
inductive Run : DeltaStore → DeltaStore → Prop
  | call {s s' : DeltaStore} (c : DeltaCall) (h : s.after c = .ok s') : Run s s'
  | restart {s : DeltaStore} {l : Log} {f : File} (heap : Mem Byte)
      (h : Log.ctor (some s.file) 0 = .ok (l, f)) : Run s (ctor l f heap)

/-! ## What a call can do to the maps -/

section
variable {s s' : DeltaStore}

/-- `create_obj` that returns, whatever block it got. -/
theorem createObj_cases {key : Key} {size : UInt64} {tmpPtr addr : Nat} {code : ErrorCode}
    (h : s.createObj key size tmpPtr = .ok (code, addr, s')) :
    s.objectMap.find? key = none ∧ s' = { s with
      objectMap := s.objectMap.insert key (Object.ctorDelta key size 0 tmpPtr) } := by
  unfold createObj at h
  split at h
  · rename_i hfind
    simp only [Except.ok.injEq, Prod.mk.injEq] at h
    exact ⟨hfind, h.2.2.symm⟩
  · cases h

theorem freeObj_cases {objAddr : Nat} {code : ErrorCode}
    (h : s.freeObj objAddr = .ok (code, s')) :
    ∃ key obj, s.addrMap.find? objAddr = some key ∧ s.objectMap.find? key = some obj ∧
      s' = { s with
        objectMap := s.objectMap.erase key
        addrMap := s.addrMap.erase objAddr } := by
  unfold freeObj at h
  split at h
  · cases h
  · rename_i key haddr
    split at h
    · cases h
    · rename_i obj hobj
      simp only [Except.ok.injEq, Prod.mk.injEq] at h
      exact ⟨key, obj, haddr, hobj, h.2.symm⟩

/-- A store that completes ran nothing, or the handler for some object. -/
theorem write_cases {addr : Nat} {b : Byte} (h : s.write addr b = .ok s') :
    s' = { s with heap := store s.heap addr [b] } ∨
      ∃ q ∈ s.objectMap.entries, s' = s.faulted q addr b := by
  unfold write deltaHandler at h
  split at h
  · rename_i hro
    split at h
    · cases h
    · rename_i s₁ hhandler
      split at hhandler
      · split at hhandler
        · rename_i key obj hfind
          obtain rfl := Except.ok.inj hhandler
          split at h
          · cases h
          · rw [← Except.ok.inj h]
            exact Or.inr ⟨(key, obj), List.mem_of_find?_eq_some hfind, rfl⟩
        · cases hhandler
      · -- a fault at address 0 changes nothing, so the page stays read-only
        obtain rfl := Except.ok.inj hhandler
        rw [if_pos hro] at h
        cases h
  · exact Or.inl (Except.ok.inj h).symm

/-- `get_with_malloc` that returns has found nothing, copied into the live object, or filed a new
    one. -/
theorem getWithMalloc_cases {wentry : DeltaWalk} {fuel tmpPtr : Nat} {key : Key} {version : UInt64}
    {code : ErrorCode} {addr : Option Nat}
    (h : s.getWithMalloc wentry fuel key version tmpPtr = .ok (code, addr, s')) :
    s' = s ∨
    (∃ copies s₁, s.writeAll copies = .ok s₁ ∧ s' = { s₁ with
      objectMap := s₁.objectMap.modify key (fun obj => obj.setVersion version) }) ∨
    ∃ size, s' = { s with
      objectMap := s.objectMap.insert key (Object.ctorDelta key size version tmpPtr) } := by
  unfold getWithMalloc at h
  split at h
  · cases h
  · split at h
    · cases h
      exact Or.inl rfl
    · split at h
      · split at h
        · cases h
        · rename_i copies _
          split at h
          · cases h
          · rename_i s₁ hwrite
            cases h
            exact Or.inr (Or.inl ⟨copies, s₁, hwrite, rfl⟩)
      · cases h
        exact Or.inr (Or.inr ⟨_, rfl⟩)

/-- What a call comes down to: one change of the maps, one completed store of the application, or one
    entry appended. -/
inductive Effect (s : DeltaStore) : DeltaStore → Prop
  | file (key : Key) (size version : UInt64) (ptr : Nat) : Effect s { s with
      objectMap := s.objectMap.insert key (Object.ctorDelta key size version ptr) }
  | free (objAddr : Nat) (key : Key) (h : s.addrMap.find? objAddr = some key) : Effect s { s with
      objectMap := s.objectMap.erase key
      addrMap := s.addrMap.erase objAddr }
  | version (key : Key) (version : UInt64) : Effect s { s with
      objectMap := s.objectMap.modify key (fun obj => obj.setVersion version) }
  | write {s' : DeltaStore} (addr : Nat) (b : Byte) (h : s.write addr b = .ok s') : Effect s s'
  | put {s' : DeltaStore} {junk : LeHdr} {key : Key} {version : UInt64} {n : Nat}
      (h : s.put junk key version = .ok (.inr (n, s'))) : Effect s s'
  | putAll {s' : DeltaStore} {junk : Nat → LeHdr} {n : Nat} (h : s.putAll junk = .ok (n, s')) :
      Effect s s'

theorem writeBytes_effects {bs : List Byte} {addr : Nat} (h : s.writeBytes addr bs = .ok s') :
    Relation.ReflTransGen Effect s s' := by
  induction bs generalizing s addr with
  | nil =>
    obtain rfl := Except.ok.inj h
    exact .refl
  | cons b bs ih =>
    rw [writeBytes] at h
    split at h
    · cases h
    · rename_i s₁ hone
      exact .head (.write addr b hone) (ih h)

theorem writeAll_effects {copies : List (Nat × List Byte)} (h : s.writeAll copies = .ok s') :
    Relation.ReflTransGen Effect s s' := by
  induction copies generalizing s with
  | nil =>
    obtain rfl := Except.ok.inj h
    exact .refl
  | cons c cs ih =>
    rw [writeAll] at h
    split at h
    · cases h
    · rename_i s₁ hone
      exact (writeBytes_effects hone).trans (ih h)

/-- **A call that returns is a run of effects.** -/
theorem after_effects {c : DeltaCall} (h : s.after c = .ok s') :
    Relation.ReflTransGen Effect s s' := by
  cases c with
  | createObj key size tmpPtr =>
    obtain ⟨a, ha, rfl⟩ := Except.map_eq_ok h
    rw [(createObj_cases ha).2]
    exact .single (.file key size 0 tmpPtr)
  | freeObj objAddr =>
    obtain ⟨a, ha, rfl⟩ := Except.map_eq_ok h
    obtain ⟨key, _, haddr, _, heq⟩ := freeObj_cases ha
    rw [heq]
    exact .single (.free objAddr key haddr)
  | put lEntry key version =>
    obtain ⟨a, ha, rfl⟩ := Except.map_eq_ok h
    cases a with
    | inl code => exact .refl
    | inr r => exact .single (.put ha)
  | putAll lEntry =>
    obtain ⟨a, ha, rfl⟩ := Except.map_eq_ok h
    exact .single (.putAll ha)
  | getWithMalloc wentry fuel key version tmpPtr =>
    obtain ⟨a, ha, rfl⟩ := Except.map_eq_ok h
    rcases getWithMalloc_cases ha with heq | ⟨copies, s₁, hwrite, heq⟩ | ⟨size, heq⟩
    · rw [heq]
    · rw [heq]
      exact .tail (writeAll_effects hwrite) (.version key version)
    · rw [heq]
      exact .single (.file key size version tmpPtr)
  | write addr b => exact .single (.write addr b h)

/-- **The invariant rule**: what effects and restarts keep holds along every run. -/
theorem Run.invariant {P : DeltaStore → Prop} (heffect : ∀ {s s' : DeltaStore}, Effect s s' → P s → P s')
    (hrestart : ∀ {s : DeltaStore} {l : Log} {f : File} (heap : Mem Byte),
      Log.ctor (some s.file) 0 = .ok (l, f) → P s → P (ctor l f heap))
    (hrun : Relation.ReflTransGen Run s s') (hs : P s) : P s' := by
  refine Runs.invariant ?_ hrun hs
  rintro a b (⟨c, h⟩ | ⟨heap, h⟩) ha
  · exact Runs.invariant heffect (after_effects h) ha
  · exact hrestart heap h ha

end

end DeltaStore

/-- A property of objects that marking a page, setting the version and resetting the bits keep. -/
structure Object.Lasting (P : Object → Prop) : Prop where
  mark : ∀ o j, P o → P (o.setModifiedBit j)
  version : ∀ o v, P o → P (o.setVersion v)
  reset : ∀ o, P o → P o.resetBitVector

namespace DeltaStore

section
variable {s s' : DeltaStore} {P : Object → Prop}

/-- Every live object has the property. -/
def Objects (P : Object → Prop) (s : DeltaStore) : Prop := ∀ p ∈ s.objectMap.entries, P p.2

theorem Objects.insert (hs : s.Objects P) {key : Key} {o : Object} (ho : P o)
    (hmap : s'.objectMap = s.objectMap.insert key o) : s'.Objects P := by
  intro p hp
  rw [hmap, SortedMap.mem_insert] at hp
  rcases hp with rfl | ⟨hp, _⟩
  · exact ho
  · exact hs p hp

theorem Objects.mapVal (hs : s.Objects P) {g : Key → Object → Object} (hg : ∀ k o, P o → P (g k o))
    (hmap : s'.objectMap = s.objectMap.mapVal g) : s'.Objects P := by
  intro p hp
  rw [hmap, SortedMap.mem_mapVal] at hp
  obtain ⟨o, ho, hpo⟩ := hp
  rw [hpo]
  exact hg p.1 o (hs _ ho)

theorem Objects.modify (hs : s.Objects P) {key : Key} {g : Object → Object}
    (hg : ∀ o, P o → P (g o)) (hmap : s'.objectMap = s.objectMap.modify key g) :
    s'.Objects P := by
  refine hs.mapVal (fun k o ho => ?_) hmap
  split
  · exact hg o ho
  · exact ho

theorem Objects.write (hP : Object.Lasting P) {addr : Nat} {b : Byte}
    (h : s.write addr b = .ok s') (hs : s.Objects P) : s'.Objects P := by
  rcases write_cases h with rfl | ⟨q, _, rfl⟩
  · exact hs
  · exact hs.modify (fun o ho => hP.mark o _ ho) rfl

/-- **Along every run the objects keep what marking, resetting and versions keep**, if new objects
    have it. -/
theorem Run.objects (hP : Object.Lasting P)
    (hnew : ∀ key size version ptr, P (Object.ctorDelta key size version ptr)) {l : Log} {f : File}
    {heap : Mem Byte} (hrun : Relation.ReflTransGen Run (ctor l f heap) s) : s.Objects P := by
  have hsnapshot : ∀ version o, P o → P (snapshotted version o) :=
    fun version o ho => hP.reset _ (hP.version _ version ho)
  refine Run.invariant (P := Objects P) (fun heffect hs => ?_)
    (fun _ _ _ p hp => absurd hp List.not_mem_nil) hrun (fun p hp => absurd hp List.not_mem_nil)
  cases heffect with
  | file key size version ptr => exact hs.insert (hnew key size version ptr) rfl
  | free objAddr key h => exact fun p hp => hs p ((SortedMap.mem_erase _ _ _).mp hp).1
  | version key version => exact hs.modify (fun o ho => hP.version o version ho) rfl
  | write addr b h => exact hs.write hP h
  | put h =>
    obtain ⟨_, _, _, _, _, heq⟩ := put_eq h
    exact hs.modify (hsnapshot _) (congrArg objectMap heq)
  | putAll h =>
    obtain ⟨_, _, _, heq⟩ := putAll_eq h
    exact hs.mapVal (fun _ o ho => hsnapshot (o.version + 1) o ho) (congrArg objectMap heq)

/-- **No call fills `addrMap`.** -/
theorem Run.addrMap_empty {l : Log} {f : File} {heap : Mem Byte}
    (hrun : Relation.ReflTransGen Run (ctor l f heap) s) : s.addrMap = .empty := by
  refine Run.invariant (P := fun s => s.addrMap = .empty) (fun heffect hs => ?_)
    (fun _ _ _ => rfl) hrun rfl
  cases heffect with
  | file key size version ptr => exact hs
  | free objAddr key h =>
    rw [hs] at h
    cases h
  | version key version => exact hs
  | write addr b h =>
    rcases write_cases h with rfl | ⟨q, _, rfl⟩
    · exact hs
    · exact hs
  | put h =>
    obtain ⟨_, _, _, _, _, heq⟩ := put_eq h
    exact (congrArg addrMap heq).trans hs
  | putAll h =>
    obtain ⟨_, _, _, heq⟩ := putAll_eq h
    exact (congrArg addrMap heq).trans hs

/-- **The log stays a log.**  Whatever was called, the file has a body, and the handle knows its
    end. -/
theorem Run.logged {size : Nat} {l : Log} {f : File} {heap : Mem Byte} (hsize : sizeofLhdr ≤ size)
    (hnew : Log.ctor none size = .ok (l, f))
    (hrun : Relation.ReflTransGen Run (ctor l f heap) s) :
    ∃ body, Rep s.file body ∧ s.log.Synced s.file body := by
  obtain ⟨hr, hs, _⟩ := ctor_create hsize hnew
  refine Run.invariant (P := fun s => ∃ body, Rep s.file body ∧ s.log.Synced s.file body)
    (fun heffect => ?_) (fun heap h => ?_) hrun ⟨[], hr, hs⟩
  · rintro ⟨body, hr, hs⟩
    cases heffect with
    | file key size version ptr => exact ⟨body, hr, hs⟩
    | free objAddr key h => exact ⟨body, hr, hs⟩
    | version key version => exact ⟨body, hr, hs⟩
    | write addr b h =>
      rcases write_cases h with rfl | ⟨q, _, rfl⟩
      · exact ⟨body, hr, hs⟩
      · exact ⟨body, hr, hs⟩
    | put h =>
      obtain ⟨obj, _, hr', hs', _⟩ := put_ok hr hs h
      exact ⟨_, hr', hs'⟩
    | putAll h =>
      obtain ⟨e, hr', hs'⟩ := putAll_ok hr hs h
      exact ⟨_, hr', hs'⟩
  · rintro ⟨body, hr, _⟩
    rw [ctor_reopen hr] at h
    obtain ⟨rfl, rfl⟩ := Prod.mk.inj (Except.ok.inj h)
    exact ⟨body, hr, handleOn_synced _ _⟩

end

end DeltaStore

end NvStream
