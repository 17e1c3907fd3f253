/-
  One batch, or one `put` per object: the same records.

  `put` and `put_all` of a store build their records with code of their own.  A `RawRecord` is what
  either of them lays out for one object, a header and the buffers behind it; `view` and `deltaView`
  are what it says, the junk of an uninitialised header left out.

      put_all                     | outer | r_1 r_2 .. r_n | commit
      put(k_1, ..), put(k_2, ..)  | r_1 | commit | r_2 | commit ..

  `putEach` calls `put` with the next version of one object after the other, in key order.  Each call
  changes the entry of its own object only (`SortedMap.modify_of_split`), so the later ones find
  theirs as it was; `putEach_ok` is that induction, for any store.  `writers_agree` then compares
  both ways in every reachable state of `NVSStore` and `DeltaStore`: what the arrays of `put_all` hold
  (`NvStream.Stores.Vectors`), what either way leaves in the log, and the objects afterwards.
-/
import NvStream.Stores.Vectors
import NvStream.NvsStore.Calls
import NvStream.DeltaStore.Calls

namespace NvStream

open FlatMem LittleEndian LoadProg PersistTrace

/-! ## Records as they are laid out -/

/-- A header, and the buffers of the payload. -/
structure RawRecord where
  hdr : LeHdr
  bufs : List (List Byte)

/-- What a record says. -/
structure RecordView where
  name : List Byte
  version : UInt64
  len : UInt64
  type : UInt32
  payload : List Byte

/-- What a record of `DeltaStore` says. -/
structure DeltaView extends RecordView where
  deltaLen : UInt64
  deltas : List (UInt64 × UInt64)

namespace RawRecord

/-- Its buffers. -/
def buffers (r : RawRecord) : List (List Byte) := r.hdr.encode :: r.bufs

/-- Its bytes. -/
def bytes (r : RawRecord) : List Byte := r.hdr.encode ++ r.bufs.flatten

/-- Its bytes as an entry of the log. -/
def frame (r : RawRecord) : List Byte := r.bytes ++ commitWord

/-- The fields every writer fills: the name as a C string. -/
def view (r : RawRecord) : RecordView :=
  ⟨cStr r.hdr.kname.toList, r.hdr.version, r.hdr.len, r.hdr.type, r.bufs.flatten⟩

/-- The fields `DeltaStore` fills: as many elements of `deltas` as there are buffers. -/
def deltaView (r : RawRecord) : DeltaView :=
  { r.view with
    deltaLen := r.hdr.deltaLen
    deltas := r.hdr.deltas.toList.take r.bufs.length }

end RawRecord

/-- The records of the objects, the first one filled over `junk i`. -/
def rawRecords (lay : LeHdr → Object → RawRecord) (junk : Nat → LeHdr) :
    Nat → List Object → List RawRecord
  | _, [] => []
  | i, o :: os => lay (junk i) o :: rawRecords lay junk (i + 1) os

/-- What records say, if the junk does not matter. -/
theorem map_rawRecords {V : Type} {view : RawRecord → V} {lay : LeHdr → Object → RawRecord}
    {meaning : Object → V} {objs : List Object}
    (hview : ∀ o ∈ objs, ∀ junk, view (lay junk o) = meaning o) (junk : Nat → LeHdr) (i : Nat) :
    (rawRecords lay junk i objs).map view = objs.map meaning := by
  induction objs generalizing i with
  | nil => rfl
  | cons o os ih =>
    rw [rawRecords, List.map_cons, List.map_cons, hview o List.mem_cons_self,
      ih (fun o ho => hview o (List.mem_cons_of_mem _ ho))]

/-! ## One `put` after the other -/

section
variable {σ : Type}

/-- `put` for one key after the other; `single i` is what the stack of the `i`-th call held. -/
def putEach (put : σ → LeHdr → Key → UInt64 → Except Stop σ) (single : Nat → LeHdr) :
    Nat → List (Key × UInt64) → σ → Except Stop σ
  | _, [], s => .ok s
  | i, c :: cs, s =>
    match put s (single i) c.1 c.2 with
    | .error stop => .error stop
    | .ok s' => putEach put single (i + 1) cs s'

/-- The keys in order, each with the next version of its object. -/
def nextVersions (objs : SortedMap Key Object) : List (Key × UInt64) :=
  objs.entries.map (fun p => (p.1, p.2.version + 1))

/-- What one `put` does to a store, for the induction over many: it appends the record of its object,
    and changes that object. -/
def PutsOne (put : σ → LeHdr → Key → UInt64 → Except Stop σ) (objects : σ → SortedMap Key Object)
    (logged : σ → List Byte → Prop) (lay : LeHdr → Object → RawRecord) (step : Object → Object) :
    Prop :=
  ∀ (s s' : σ) (junk : LeHdr) (key : Key) (o : Object) (body : List Byte),
    put s junk key (o.version + 1) = .ok s' → (objects s).find? key = some o → logged s body →
    logged s' (body ++ (lay junk o).frame) ∧ (∀ pre post,
      (objects s).entries = pre ++ (key, o) :: post →
      (objects s').entries = pre ++ (key, step o) :: post)

variable {put : σ → LeHdr → Key → UInt64 → Except Stop σ} {objects : σ → SortedMap Key Object}
  {logged : σ → List Byte → Prop} {lay : LeHdr → Object → RawRecord} {step : Object → Object}

/-- **What the calls have done so far.**  Induction on the objects still to be put: those before them
    in key order are done, those behind are untouched. -/
theorem putEach_ok (hput : PutsOne put objects logged lay step) (single : Nat → LeHdr)
    {now later : List (Key × Object)} {i : Nat} {s s' : σ} {body : List Byte}
    {before : List (Key × Object)} (hsplit : (objects s).entries = before ++ (now ++ later))
    (hs : logged s body)
    (h : putEach put single i (now.map (fun p => (p.1, p.2.version + 1))) s = .ok s') :
    logged s' (body ++ (rawRecords lay single i (now.map Prod.snd)).flatMap RawRecord.frame) ∧
      (objects s').entries = before ++ (now.map (fun p => (p.1, step p.2)) ++ later) := by
  induction now generalizing i s body before with
  | nil =>
    obtain rfl := Except.ok.inj h
    rw [List.map_nil, rawRecords, List.flatMap_nil, List.append_nil]
    exact ⟨hs, hsplit⟩
  | cons p now ih =>
    rw [List.map_cons, putEach] at h
    split at h
    · cases h
    · rename_i s₁ hone
      have hfind : (objects s).find? p.1 = some p.2 := by
        rw [SortedMap.find?_eq_some, hsplit]
        exact List.mem_append_right _ List.mem_cons_self
      obtain ⟨hs₁, hmap⟩ := hput _ _ _ _ _ _ hone hfind hs
      have hsplit₁ : (objects s₁).entries = (before ++ [(p.1, step p.2)]) ++ (now ++ later) := by
        rw [hmap before (now ++ later) hsplit, List.append_assoc, List.singleton_append]
      obtain ⟨hlog, hentries⟩ := ih hsplit₁ hs₁ h
      rw [List.map_cons, rawRecords, List.flatMap_cons, ← List.append_assoc]
      refine ⟨hlog, ?_⟩
      rw [hentries, List.append_assoc, List.singleton_append, List.map_cons, List.cons_append]

/-! ## When two ways of writing agree -/

/-- The batch, with its outer header and its records, against the calls of `put`.  `batch s'` says that
    `put_all` returned and left `s'`, `puts k s'` that the first `k` calls did; `body` is the log
    before. -/
structure Agreement {V : Type} (view : RawRecord → V) (file : σ → File)
    (objects : σ → SortedMap Key Object) (batch : σ → Prop) (puts : Nat → σ → Prop) (count : Nat)
    (body : List Byte) (outer : LeHdr) (records : List RawRecord) : Prop where
  /-- The outer `len` is the length of the records, as a `uint64_t`. -/
  outer_len : outer.len.toNat = u64 (records.flatMap RawRecord.bytes).length
  /-- The batch is in the log, and there the outer `len` is exact. -/
  appended : ∀ s', batch s' →
    Rep (file s') (body ++ ((outer.encode ++ records.flatMap RawRecord.bytes) ++ commitWord)) ∧
      outer.len.toNat = (records.flatMap RawRecord.bytes).length
  /-- As far as the calls of `put` return, they append records that say the same. -/
  singles : ∀ k s', puts k s' → ∃ rs : List RawRecord, rs.map view = (records.map view).take k ∧
    Rep (file s') (body ++ rs.flatMap RawRecord.frame)
  /-- Both ways leave the same objects, with the same versions and bits. -/
  objects_eq : ∀ s₁ s₂, batch s₁ → puts count s₂ → objects s₁ = objects s₂

/-- **A `put` that treats each object as the batch does agrees with it.** -/
theorem agreement_of_put {V : Type} {view : RawRecord → V} {file : σ → File} {meaning : Object → V}
    (hput : PutsOne put objects logged lay step)
    (hfile : ∀ {s body}, logged s body → Rep (file s) body)
    {s : σ} {body : List Byte} (hs : logged s body)
    (hview : ∀ o ∈ (objects s).entries.map Prod.snd, ∀ junk, view (lay junk o) = meaning o)
    {batch : σ → Prop} (junk single : Nat → LeHdr) {outer : LeHdr}
    (houter : outer.len.toNat = u64 ((rawRecords lay junk 1
      ((objects s).entries.map Prod.snd)).flatMap RawRecord.bytes).length)
    (hbatch : ∀ s', batch s' →
      (Rep (file s') (body ++ ((outer.encode ++ (rawRecords lay junk 1
          ((objects s).entries.map Prod.snd)).flatMap RawRecord.bytes) ++ commitWord)) ∧
        outer.len.toNat = ((rawRecords lay junk 1
          ((objects s).entries.map Prod.snd)).flatMap RawRecord.bytes).length) ∧
      objects s' = (objects s).mapVal (fun _ o => step o)) :
    Agreement view file objects batch
      (fun k s' => putEach put single 0 ((nextVersions (objects s)).take k) s = .ok s')
      (objects s).entries.length body outer
      (rawRecords lay junk 1 ((objects s).entries.map Prod.snd)) := by
  have hputs : ∀ k s', putEach put single 0 ((nextVersions (objects s)).take k) s = .ok s' →
      logged s' (body ++ (rawRecords lay single 0
        (((objects s).entries.take k).map Prod.snd)).flatMap RawRecord.frame) ∧
      (objects s').entries = ((objects s).entries.take k).map (fun p => (p.1, step p.2)) ++
        (objects s).entries.drop k := by
    intro k s' h
    rw [nextVersions, ← List.map_take] at h
    have hsplit : (objects s).entries =
        [] ++ ((objects s).entries.take k ++ (objects s).entries.drop k) :=
      (List.take_append_drop k _).symm
    exact putEach_ok hput single hsplit hs h
  refine ⟨houter, fun s' h => (hbatch s' h).1, fun k s' h => ?_, fun s₁ s₂ h₁ h₂ => ?_⟩
  · refine ⟨_, ?_, hfile (hputs k s' h).1⟩
    rw [List.map_take, map_rawRecords (fun o ho => hview o (List.mem_of_mem_take ho)),
      map_rawRecords hview, List.map_take]
  · have hentries := (hputs _ s₂ h₂).2
    rw [List.take_length, List.drop_length, List.append_nil] at hentries
    rw [(hbatch s₁ h₁).2]
    exact SortedMap.ext_entries hentries.symm

end

/-! ## `NVSStore` -/

namespace NvsStore

/-- What `put` and `put_all` lay out for an object and its next version. -/
def lay (heap : Mem Byte) (junk : LeHdr) (o : Object) : RawRecord :=
  ⟨junk.fill o (o.version + 1), [o.contents heap]⟩

/-- `put` for one key after the other. -/
def putEach (s : NvsStore) (single : Nat → LeHdr) (cs : List (Key × UInt64)) : Except Stop NvsStore :=
  NvStream.putEach (fun s junk key version => (s.put junk key version).map Prod.snd) single 0 cs s

/-- What the record of an object has to say. -/
def recordOf (heap : Mem Byte) (o : Object) : RecordView :=
  ⟨keyField o.name, o.version + 1, o.size, HdrType.single.code, o.contents heap⟩

theorem view_lay (heap : Mem Byte) (junk : LeHdr) (o : Object) :
    (lay heap junk o).view = recordOf heap o := by
  have hname : cStr (snprintfKey junk.kname o.name).toList = keyField o.name :=
    cStr_snprintfKey _ _
  have hpayload : [o.contents heap].flatten = o.contents heap := List.append_nil _
  show RecordView.mk (cStr (snprintfKey junk.kname o.name).toList) _ _ _ [o.contents heap].flatten = _
  rw [hname, hpayload]
  rfl

theorem map_innerIov (heap : Mem Byte) (lEntry : Nat → LeHdr) (i : Nat) (objs : List Object) :
    (innerIov heap lEntry i objs).map IoVec.base =
      (rawRecords (lay heap) lEntry i objs).flatMap RawRecord.buffers := by
  induction objs generalizing i with
  | nil => rfl
  | cons o os ih =>
    rw [innerIov, List.map_cons, List.map_cons, ih, rawRecords, List.flatMap_cons]
    rfl

theorem bytes_rawRecords (heap : Mem Byte) (lEntry : Nat → LeHdr) (i : Nat) (objs : List Object) :
    (rawRecords (lay heap) lEntry i objs).flatMap RawRecord.bytes =
      batchBytes (batch heap lEntry i objs) := by
  rw [← gather_innerIov]
  induction objs generalizing i with
  | nil => rfl
  | cons o os ih =>
    rw [rawRecords, List.flatMap_cons, ih, innerIov, gather_cons, gather_cons, ← List.append_assoc]
    exact congrArg (fun bs => (_ ++ bs) ++ _) (List.append_nil _)

/-- The log, and the memory the records are taken from. -/
def Logged (heap : Mem Byte) (s : NvsStore) (body : List Byte) : Prop :=
  s.heap = heap ∧ Rep s.file body ∧ s.log.Synced s.file body

theorem putsOne (heap : Mem Byte) :
    PutsOne (fun s junk key version => (put s junk key version).map Prod.snd) objectMap
      (Logged heap) (lay heap) (fun o => o.setVersion (o.version + 1)) := by
  rintro s s' junk key o body h hfind ⟨rfl, hr, hs⟩
  obtain ⟨⟨code, s''⟩, hput, rfl⟩ := Except.map_eq_ok h
  rcases put_eq hput with ⟨hnone, _⟩ | ⟨obj, log, file, hobj, _, happ, rfl⟩
  · rw [hnone] at hfind
    cases hfind
  · obtain rfl := Option.some.inj (hfind.symm.trans hobj)
    obtain ⟨_, _, hr', hs'⟩ := appendv_ok hr hs happ
      (show gather _ = (lay s.heap junk o).bytes from rfl)
    exact ⟨⟨rfl, hr', hs'⟩, fun pre post hsplit => SortedMap.modify_of_split hsplit _⟩

/-- **The batch of a state agrees with its puts**, over any junk in the arrays and on the stack.  The
    buffers that `put_all` assembles are an outer header and one record per object, in key order. -/
def WritersAgree (s : NvsStore) : Prop :=
  ∀ (iovp : Nat → IoSlot) (junk single : Nat → LeHdr), ∃ body outer records, Rep s.file body ∧
    (putAllArrays iovp junk (s.objectMap.entries.map Prod.snd)).buffers s.heap 0
        (1 + 2 * s.objectMap.entries.length) =
      outer.encode :: records.flatMap RawRecord.buffers ∧
    records.map RawRecord.view = s.objectMap.entries.map (fun p => recordOf s.heap p.2) ∧
    Agreement RawRecord.view file objectMap (fun s' => ∃ n, s.putAll junk = .ok (n, s'))
      (fun k s' => s.putEach single ((nextVersions s.objectMap).take k) = .ok s')
      s.objectMap.entries.length body outer records

theorem writersAgree_of_logged {s : NvsStore} {body : List Byte} (hr : Rep s.file body)
    (hs : s.log.Synced s.file body) : s.WritersAgree := by
  intro iovp junk single
  refine ⟨body, (junk 0).outer (totCnt (s.objectMap.entries.map Prod.snd)),
    rawRecords (lay s.heap) junk 1 (s.objectMap.entries.map Prod.snd), hr, ?_, ?_, ?_⟩
  · have hbuffers := buffers_putAllArrays s.heap iovp junk (s.objectMap.entries.map Prod.snd)
    rw [List.map_cons, map_innerIov, List.length_map] at hbuffers
    exact hbuffers
  · rw [map_rawRecords (fun o _ junk => view_lay s.heap junk o), List.map_map]
    rfl
  · refine agreement_of_put (putsOne s.heap) (fun h => h.2.1) ⟨rfl, hr, hs⟩
      (fun o _ junk => view_lay s.heap junk o) junk single ?_ ?_
    · rw [bytes_rawRecords, length_batch, totCnt_eq]
      exact toNat_ofNat (u64_lt _)
    · rintro s' ⟨n, h⟩
      obtain ⟨ws, fits, hws, hr', _, _, _, _, hmap, htot⟩ := putAll_ok hr hs h
      rw [bytes_rawRecords, ← hws, htot]
      exact ⟨⟨hr', (junk 0).len_outer fits⟩, hmap⟩

end NvsStore

/-! ## `DeltaStore` -/

namespace DeltaStore

/-- What `put` and `put_all` lay out for an object and its next version. -/
def lay (heap : Mem Byte) (junk : LeHdr) (o : Object) : RawRecord :=
  ⟨junk.fillDelta o (o.version + 1), o.getDeltaChunks.map (fun c => (o.deltaIov heap c).base)⟩

/-- `put` for one key after the other. -/
def putEach (s : DeltaStore) (single : Nat → LeHdr) (cs : List (Key × UInt64)) :
    Except Stop DeltaStore :=
  NvStream.putEach (fun s junk key version => s.after (.put junk key version)) single 0 cs s

/-- What the record of an object has to say. -/
def recordOf (heap : Mem Byte) (o : Object) : DeltaView :=
  { name := keyField o.name
    version := o.version + 1
    len := o.size
    type := HdrType.delta.code
    payload := o.payload heap
    deltaLen := o.deltaLen64
    deltas := o.getDeltaChunks.map (fun c => (c.startOffset, c.len)) }

theorem view_lay (heap : Mem Byte) (junk : LeHdr) {o : Object}
    (hfive : o.getDeltaChunks.length ≤ 5) : (lay heap junk o).deltaView = recordOf heap o := by
  have hname : cStr (snprintfKey junk.kname o.name).toList = keyField o.name :=
    cStr_snprintfKey _ _
  have hpayload : (o.getDeltaChunks.map (fun c => (o.deltaIov heap c).base)).flatten =
      o.payload heap := rfl
  have hdeltas : (fillDeltas junk.deltas o.getDeltaChunks).toList.take o.getDeltaChunks.length =
      o.getDeltaChunks.map (fun c => (c.startOffset, c.len)) := by
    refine List.ext_getElem (by simp [hfive]) (fun i h₁ h₂ => ?_)
    rw [List.length_map] at h₂
    simp [fillDeltas, h₂]
  unfold lay RawRecord.deltaView RawRecord.view recordOf
  simp only [LeHdr.fillDelta, List.length_map]
  rw [hname, hpayload, hdeltas]

theorem map_deltaRows (heap : Mem Byte) (lEntry : Nat → LeHdr) (i : Nat) (objs : List Object) :
    (deltaRows heap lEntry i objs).map (List.map IoVec.base) =
      (rawRecords (lay heap) lEntry i objs).map RawRecord.buffers := by
  induction objs generalizing i with
  | nil => rfl
  | cons o os ih =>
    rw [deltaRows, List.map_cons, ih, rawRecords, List.map_cons, Object.deltaRow, List.map_cons,
      List.map_map]
    rfl

theorem bytes_rawRecords (heap : Mem Byte) (lEntry : Nat → LeHdr) (i : Nat) (objs : List Object) :
    (rawRecords (lay heap) lEntry i objs).flatMap RawRecord.bytes =
      batchBytes heap lEntry i objs := by
  induction objs generalizing i with
  | nil => rfl
  | cons o os ih =>
    rw [rawRecords, List.flatMap_cons, ih, batchBytes]
    rfl

/-- The log, and the memory the records are taken from. -/
def Logged (heap : Mem Byte) (s : DeltaStore) (body : List Byte) : Prop :=
  s.heap = heap ∧ Rep s.file body ∧ s.log.Synced s.file body

theorem putsOne (heap : Mem Byte) :
    PutsOne (fun s junk key version => after s (.put junk key version)) objectMap (Logged heap)
      (lay heap) (fun o => snapshotted (o.version + 1) o) := by
  rintro s s' junk key o body h hfind ⟨rfl, hr, hs⟩
  obtain ⟨r, hput, rfl⟩ := Except.map_eq_ok h
  cases r with
  | inl code =>
    rw [put_missing hput] at hfind
    cases hfind
  | inr r =>
    obtain ⟨obj, log, file, hobj, happ, heq⟩ := put_eq hput
    obtain rfl := Option.some.inj (hfind.symm.trans hobj)
    obtain ⟨_, _, hr', hs'⟩ := appendv_ok hr hs happ (o.gather_deltaRow _ _ _)
    show Logged s.heap r.2 _ ∧ ∀ pre post, _ → r.2.objectMap.entries = _
    rw [heq]
    exact ⟨⟨rfl, hr', hs'⟩, fun pre post hsplit => SortedMap.modify_of_split hsplit _⟩

/-- **The batch of a state agrees with its puts**, over any junk in the arrays and on the stack.  The
    rows that `put_all` assembles are an outer header and one record per object, in key order. -/
def WritersAgree (s : DeltaStore) : Prop :=
  ∀ (iovpp : Nat → Nat → IoSlot) (iovcntp : Nat → Nat) (junk single : Nat → LeHdr),
    ∃ body outer records, Rep s.file body ∧
    (putAllTable iovpp iovcntp junk (s.objectMap.entries.map Prod.snd)).rows s.heap 0
        (s.objectMap.entries.length + 1) =
      [outer.encode] :: records.map RawRecord.buffers ∧
    records.map RawRecord.deltaView = s.objectMap.entries.map (fun p => recordOf s.heap p.2) ∧
    Agreement RawRecord.deltaView file objectMap (fun s' => ∃ n, s.putAll junk = .ok (n, s'))
      (fun k s' => s.putEach single ((nextVersions s.objectMap).take k) = .ok s')
      s.objectMap.entries.length body outer records

theorem writersAgree_of_logged {s : DeltaStore} {body : List Byte} (hr : Rep s.file body)
    (hs : s.log.Synced s.file body)
    (hfive : ∀ p ∈ s.objectMap.entries, p.2.getDeltaChunks.length ≤ 5) : s.WritersAgree := by
  have hview : ∀ o ∈ s.objectMap.entries.map Prod.snd, ∀ junk,
      (lay s.heap junk o).deltaView = recordOf s.heap o := by
    intro o ho junk
    obtain ⟨p, hp, rfl⟩ := List.mem_map.mp ho
    exact view_lay s.heap junk (hfive p hp)
  intro iovpp iovcntp junk single
  refine ⟨body, (junk 0).outer (totCnt (s.objectMap.entries.map Prod.snd)),
    rawRecords (lay s.heap) junk 1 (s.objectMap.entries.map Prod.snd), hr, ?_, ?_, ?_⟩
  · have hrows := rows_putAllTable iovpp iovcntp junk (s.objectMap.entries.map Prod.snd) s.heap
    rw [List.map_cons, map_deltaRows, List.length_map] at hrows
    exact hrows
  · rw [map_rawRecords hview, List.map_map]
    rfl
  · refine agreement_of_put (putsOne s.heap) (fun h => h.2.1) ⟨rfl, hr, hs⟩ hview junk single ?_ ?_
    · rw [bytes_rawRecords, length_batchBytes, totCnt_eq]
      exact toNat_ofNat (u64_lt _)
    · rintro s' ⟨n, h⟩
      obtain ⟨hlen, hr', _⟩ := putAll_appended rfl hr hs h
      obtain ⟨_, _, _, heq⟩ := putAll_eq h
      rw [bytes_rawRecords]
      exact ⟨⟨hr', hlen⟩, congrArg objectMap heq⟩

end DeltaStore

/-! ## The main result -/

/-- **Batch and single writers produce the same records.**  In every reachable state of an `NVSStore`,
    and in every reachable state of a `DeltaStore` in which no object has more than five chunks. -/
theorem writers_agree {size : Nat} {l : Log} {f : File} {heap : Mem Byte} (hsize : sizeofLhdr ≤ size)
    (hnew : Log.ctor none size = .ok (l, f)) :
    (∀ L, Relation.ReflTransGen (Life.Run (fun _ _ => True)) (Life.start l f heap) L →
      L.store.WritersAgree) ∧
    ∀ s, Relation.ReflTransGen DeltaStore.Run (DeltaStore.ctor l f heap) s →
      (∀ p ∈ s.objectMap.entries, p.2.getDeltaChunks.length ≤ 5) → s.WritersAgree := by
  constructor
  · intro L hrun
    obtain ⟨items, hi⟩ := Life.Run.inv_any hsize hnew hrun
    exact NvsStore.writersAgree_of_logged hi.rep hi.synced
  · intro s hrun hfive
    obtain ⟨body, hr, hs⟩ := DeltaStore.Run.logged hsize hnew hrun
    exact DeltaStore.writersAgree_of_logged hr hs hfive

/-! ### Two objects -/

/-- In a new `NVSStore` with the objects "a" and "b" both ways of writing return, ... -/
theorem NvsStore.two_writers {l : Log} {f : File} (hr : Rep f []) (hs : l.Synced f [])
    (hlen : f.len = deltaLogSize) : ∃ s₁ s₂,
    (NvsStore.ctor l f (fun _ => 0)).createObj [97] 4 4096 = .ok (.noError, 4096, s₁) ∧
    s₁.createObj [98] 4 8192 = .ok (.noError, 8192, s₂) ∧
    (∃ n s₃, s₂.putAll (fun _ => blankHdr) = .ok (n, s₃)) ∧
    ∃ s₃, s₂.putEach (fun _ => blankHdr) [([97], 1), ([98], 1)] = .ok s₃ := by
  obtain ⟨s₁, s₂, hcreate, hcreate', hfile, hlog, hmap⟩ : ∃ s₁ s₂,
      (NvsStore.ctor l f (fun _ => 0)).createObj [97] 4 4096 = .ok (.noError, 4096, s₁) ∧
      s₁.createObj [98] 4 8192 = .ok (.noError, 8192, s₂) ∧ s₂.file = f ∧ s₂.log = l ∧
      s₂.objectMap.entries = [([97], Object.ctor [97] 4 0 4096), ([98], Object.ctor [98] 4 0 8192)] :=
    ⟨_, _, rfl, rfl, rfl, rfl, rfl⟩
  rw [← hfile] at hr hlen
  rw [← hfile, ← hlog] at hs
  have hfind : ∀ {k o}, (k, o) ∈ [([97], Object.ctor [97] 4 0 4096),
      ([98], Object.ctor [98] 4 0 8192)] → s₂.objectMap.find? k = some o := by
    intro k o h
    rw [SortedMap.find?_eq_some, hmap]
    exact h
  obtain ⟨s₃, hput⟩ := put_of_fits hr hs blankHdr 1 (hfind List.mem_cons_self)
    (by rw [hlen]; decide)
  obtain ⟨o, ho, hr₃, hs₃, hlen₃, _, _, hmap₃⟩ := put_ok hr hs hput
  obtain rfl := Option.some.inj ((hfind List.mem_cons_self).symm.trans ho)
  have hfind₃ : s₃.objectMap.find? [98] = some (Object.ctor [98] 4 0 8192) := by
    rw [hmap₃, SortedMap.find?_modify, if_neg (by decide)]
    exact hfind (List.mem_cons_of_mem _ List.mem_cons_self)
  obtain ⟨s₄, hput'⟩ := put_of_fits hr₃ hs₃ blankHdr 1 hfind₃ (by
    have hdata : (Object.toRec s₂.heap (Object.ctor [97] 4 0 4096) 1).data.length = 4 :=
      Object.length_contents _ _
    rw [hlen₃, hlen, List.nil_append, Entry.length_frame, Item.len_single, hdata]
    decide)
  refine ⟨s₁, s₂, hcreate, hcreate', ?_, s₄, ?_⟩
  · exact putAll_of_fits hr hs (fun _ => blankHdr) (congrArg (List.map Prod.snd) hmap) (by decide)
      (by rw [hlen]; decide)
  · rw [NvsStore.putEach, NvStream.putEach, hput]
    show NvStream.putEach _ _ _ _ s₃ = _
    rw [NvStream.putEach, hput']
    rfl

/-- ... and in a `DeltaStore`. -/
theorem DeltaStore.two_writers {l : Log} {f : File} (hr : Rep f []) (hs : l.Synced f [])
    (hlen : f.len = deltaLogSize) : ∃ s₁ s₂,
    (DeltaStore.ctor l f (fun _ => 0)).createObj [97] 4 4096 = .ok (.noError, 4096, s₁) ∧
    s₁.createObj [98] 4 8192 = .ok (.noError, 8192, s₂) ∧
    (∀ p ∈ s₂.objectMap.entries, p.2.getDeltaChunks.length ≤ 5) ∧
    (∃ n s₃, s₂.putAll (fun _ => blankHdr) = .ok (n, s₃)) ∧
    ∃ s₃, s₂.putEach (fun _ => blankHdr) [([97], 1), ([98], 1)] = .ok s₃ := by
  obtain ⟨s₁, s₂, hcreate, hcreate', hfile, hlog, hmap⟩ : ∃ s₁ s₂,
      (DeltaStore.ctor l f (fun _ => 0)).createObj [97] 4 4096 = .ok (.noError, 4096, s₁) ∧
      s₁.createObj [98] 4 8192 = .ok (.noError, 8192, s₂) ∧ s₂.file = f ∧ s₂.log = l ∧
      s₂.objectMap.entries =
        [([97], Object.ctorDelta [97] 4 0 4096), ([98], Object.ctorDelta [98] 4 0 8192)] :=
    ⟨_, _, rfl, rfl, rfl, rfl, rfl⟩
  rw [← hfile] at hr hlen
  rw [← hfile, ← hlog] at hs
  have hfive : ∀ obj ∈ [Object.ctorDelta [97] 4 0 4096, Object.ctorDelta [98] 4 0 8192],
      obj.getDeltaChunks.length ≤ 5 := by decide
  have hfind : ∀ {k o}, (k, o) ∈ [([97], Object.ctorDelta [97] 4 0 4096),
      ([98], Object.ctorDelta [98] 4 0 8192)] → s₂.objectMap.find? k = some o := by
    intro k o h
    rw [SortedMap.find?_eq_some, hmap]
    exact h
  obtain ⟨n, s₃, hput⟩ := put_of_fits hr hs blankHdr 1 (hfind List.mem_cons_self) (by decide)
    (by rw [hlen]; decide)
  obtain ⟨o, ho, hr₃, hs₃, _, hlen₃⟩ := put_ok hr hs hput
  obtain rfl := Option.some.inj ((hfind List.mem_cons_self).symm.trans ho)
  have hfind₃ : s₃.objectMap.find? [98] = some (Object.ctorDelta [98] 4 0 8192) := by
    obtain ⟨_, _, _, _, _, heq⟩ := put_eq hput
    rw [heq, SortedMap.find?_modify, if_neg (by decide)]
    exact hfind (List.mem_cons_of_mem _ List.mem_cons_self)
  obtain ⟨n', s₄, hput'⟩ := put_of_fits hr₃ hs₃ blankHdr 1 hfind₃ (by decide) (by
    rw [hlen₃, hlen, List.nil_append, List.length_append, List.length_append,
      LeHdr.length_encode, Object.length_payload]
    decide)
  refine ⟨s₁, s₂, hcreate, hcreate', fun p hp => ?_, ?_, s₄, ?_⟩
  · rw [hmap] at hp
    exact hfive p.2 (List.mem_map_of_mem (f := Prod.snd) hp)
  · exact putAll_of_fits hr hs (fun _ => blankHdr) (congrArg (List.map Prod.snd) hmap) (by decide)
      hfive (by rw [hlen]; decide)
  · rw [DeltaStore.putEach, NvStream.putEach, after_put hput]
    show NvStream.putEach _ _ _ _ s₃ = _
    rw [NvStream.putEach, after_put hput']
    rfl

/-- Two objects of four bytes in either store; both ways of writing them return. -/
theorem writers_agree_two_objects : ∃ l f s₁ s₂ d₁ d₂, Log.ctor none deltaLogSize = .ok (l, f) ∧
    (NvsStore.ctor l f (fun _ => 0)).createObj [97] 4 4096 = .ok (.noError, 4096, s₁) ∧
    s₁.createObj [98] 4 8192 = .ok (.noError, 8192, s₂) ∧
    (∃ n s₃, s₂.putAll (fun _ => blankHdr) = .ok (n, s₃)) ∧
    (∃ s₃, s₂.putEach (fun _ => blankHdr) [([97], 1), ([98], 1)] = .ok s₃) ∧ s₂.WritersAgree ∧
    (DeltaStore.ctor l f (fun _ => 0)).createObj [97] 4 4096 = .ok (.noError, 4096, d₁) ∧
    d₁.createObj [98] 4 8192 = .ok (.noError, 8192, d₂) ∧
    (∃ n d₃, d₂.putAll (fun _ => blankHdr) = .ok (n, d₃)) ∧
    (∃ d₃, d₂.putEach (fun _ => blankHdr) [([97], 1), ([98], 1)] = .ok d₃) ∧ d₂.WritersAgree := by
  obtain ⟨l, f, hnew, hr, hs, hlen⟩ := ctor_ok deltaLogSize (by decide)
  obtain ⟨s₁, s₂, hcreate, hcreate', hbatch, hsingles⟩ := NvsStore.two_writers hr hs hlen
  obtain ⟨d₁, d₂, hdelta, hdelta', hfive, hdbatch, hdsingles⟩ := DeltaStore.two_writers hr hs hlen
  obtain ⟨hnvs, hdeltas⟩ := writers_agree (by decide) hnew
  refine ⟨l, f, s₁, s₂, d₁, d₂, hnew, hcreate, hcreate', hbatch, hsingles, ?_, hdelta, hdelta',
    hdbatch, hdsingles, ?_⟩
  · exact hnvs _ (.tail (.single (.call (.createObj [97] 4 4096) trivial
      (NvsStore.call_createObj hcreate)))
      (.call (.createObj [98] 4 8192) trivial (NvsStore.call_createObj hcreate')))
  · exact hdeltas _ (.tail (.single (.call (.createObj [97] 4 4096)
      (DeltaStore.after_createObj hdelta)))
      (.call (.createObj [98] 4 8192) (DeltaStore.after_createObj hdelta'))) hfive

end NvStream
