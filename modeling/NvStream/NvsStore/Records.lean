/-
  What `NVSStore` writes into its log.

  A `Rec` is what a reader of the store can ask for: a name, a version, the bytes.  A `Written` record
  also has the junk its header was filled over, and an `Item` is one log entry: a single record, or a
  batch of them behind an outer header.  `Item.entry` says which bytes that is; `put_ok` and
  `putAll_ok` show that the two writers append exactly such entries, so the log file of a store is the
  image of a list of items.
-/
import NvStream.NvsStore.Basic
import NvStream.Log.Framing

namespace NvStream

open FlatMem LittleEndian LoadProg PersistTrace

/-! ## Records and items -/

/-- A version of an object: what `put` records. -/
structure Rec where
  name : Key
  version : UInt64
  data : List Byte
  data_lt : data.length < 2 ^ 64

theorem Object.contents_lt (heap : Mem Byte) (o : Object) : (o.contents heap).length < 2 ^ 64 := by
  rw [o.length_contents]
  exact o.size.toNat_lt

/-- An object as it is recorded under `version`. -/
def Object.toRec (heap : Mem Byte) (o : Object) (version : UInt64) : Rec :=
  ⟨o.name, version, o.contents heap, o.contents_lt heap⟩

/-- A record as written: its header was filled over `junk`. -/
structure Written where
  junk : LeHdr
  toRec : Rec

namespace Written

/-- The header of the record. -/
def hdr (w : Written) : LeHdr :=
  { w.junk with
    version := w.toRec.version
    kname := snprintfKey w.junk.kname w.toRec.name
    len := UInt64.ofNat w.toRec.data.length
    type := HdrType.single.code }

/-- Header and data. -/
def bytes (w : Written) : List Byte := w.hdr.encode ++ w.toRec.data

theorem len_hdr (w : Written) : w.hdr.len.toNat = w.toRec.data.length :=
  toNat_ofNat w.toRec.data_lt

theorem length_bytes (w : Written) : w.bytes.length = sizeofLehdr + w.toRec.data.length := by
  rw [bytes, List.length_append, LeHdr.length_encode, sizeofLehdr]

end Written

/-- The bytes of a batch behind its outer header. -/
def batchBytes (ws : List Written) : List Byte := ws.flatMap Written.bytes

theorem batchBytes_cons (w : Written) (ws : List Written) :
    batchBytes (w :: ws) = w.bytes ++ batchBytes ws := List.flatMap_cons

theorem LeHdr.len_outer (h : LeHdr) {n : Nat} (hn : n < 2 ^ 64) : (h.outer n).len.toNat = n :=
  toNat_ofNat hn

/-- One entry of the log of an `NVSStore`. -/
inductive Item where
  /-- From `put`. -/
  | single (w : Written)
  /-- From `put_all`. -/
  | multiple (junk : LeHdr) (ws : List Written) (fits : (batchBytes ws).length < 2 ^ 64)

namespace Item

/-- The item as a log entry. -/
def entry : Item → Entry
  | single w => Entry.ofHdr w.hdr w.toRec.data w.len_hdr
  | multiple junk ws fits =>
    Entry.ofHdr (junk.outer (batchBytes ws).length) (batchBytes ws)
      (junk.len_outer fits)

theorem len_single (w : Written) : (single w).entry.len = w.toRec.data.length :=
  Entry.len_ofHdr _ _ w.len_hdr

theorem len_multiple (junk : LeHdr) (ws : List Written) (fits : (batchBytes ws).length < 2 ^ 64) :
    (multiple junk ws fits).entry.len = (batchBytes ws).length :=
  Entry.len_ofHdr _ _ (junk.len_outer fits)

/-- The records of an item, in the order they were written. -/
def recs : Item → List Rec
  | single w => [w.toRec]
  | multiple _ ws _ => ws.map Written.toRec

end Item

/-! ## The writers append items -/

/-- What `put` and `put_all` fill in is the header of the record. -/
theorem fill_eq_hdr (junk : LeHdr) (heap : Mem Byte) (o : Object) (version : UInt64) :
    junk.fill o version = (Written.mk junk (o.toRec heap version)).hdr := by
  unfold LeHdr.fill Written.hdr
  show _ = { junk with
    version := version
    kname := snprintfKey junk.kname o.name
    len := UInt64.ofNat (o.contents heap).length
    type := HdrType.single.code }
  rw [o.length_contents, UInt64.ofNat_toNat]

/-- The two buffers of one record gather to the record's bytes. -/
theorem gather_record (junk : LeHdr) (heap : Mem Byte) (o : Object) (version : UInt64)
    (rest : List IoVec) :
    gather ((junk.fill o version).iov :: o.iov heap :: rest) =
      (Written.mk junk (o.toRec heap version)).bytes ++ gather rest := by
  rw [gather_cons, gather_cons, Written.bytes, ← fill_eq_hdr, List.append_assoc]
  rfl

namespace NvsStore

/-- The records the loop of `put_all` lays out, from the `i`-th uninitialised header on. -/
def batch (heap : Mem Byte) (lEntry : Nat → LeHdr) : Nat → List Object → List Written
  | _, [] => []
  | i, o :: os => ⟨lEntry i, o.toRec heap (o.version + 1)⟩ :: batch heap lEntry (i + 1) os

theorem gather_innerIov (heap : Mem Byte) (lEntry : Nat → LeHdr) (i : Nat) (objs : List Object) :
    gather (innerIov heap lEntry i objs) = batchBytes (batch heap lEntry i objs) := by
  induction objs generalizing i with
  | nil => rfl
  | cons o os ih => rw [innerIov, gather_record, ih, batch, batchBytes_cons]

/-- The records of a batch are the objects under their next versions. -/
theorem map_batch (heap : Mem Byte) (lEntry : Nat → LeHdr) (i : Nat) (objs : List Object) :
    (batch heap lEntry i objs).map Written.toRec =
      objs.map (fun o => o.toRec heap (o.version + 1)) := by
  induction objs generalizing i with
  | nil => rfl
  | cons o os ih => rw [batch, List.map_cons, List.map_cons, ih]

/-- The bytes a batch of the objects takes up. -/
def batchLen (objs : List Object) : Nat :=
  (objs.map (fun o => sizeofLehdr + o.size.toNat)).sum

theorem length_batch (heap : Mem Byte) (lEntry : Nat → LeHdr) (i : Nat) (objs : List Object) :
    (batchBytes (batch heap lEntry i objs)).length = batchLen objs := by
  induction objs generalizing i with
  | nil => rfl
  | cons o os ih =>
    rw [batch, batchBytes_cons, List.length_append, ih, Written.length_bytes, batchLen, batchLen,
      List.map_cons, List.sum_cons]
    exact congrArg (fun n => sizeofLehdr + n + _) (o.length_contents heap)

/-- `tot_cnt` counts the bytes of the batch, modulo `2 ^ 64`. -/
theorem totCnt_eq (objs : List Object) : totCnt objs = u64 (batchLen objs) := by
  rw [totCnt, foldl_u64 (fun o => sizeofLehdr + o.size.toNat) (fun _ => u64_u64 _) objs (by decide),
    Nat.zero_add, batchLen]

/-- The buffers of `put_all` gather to its outer header and the batch. -/
theorem length_gather_batch (heap : Mem Byte) (lEntry : Nat → LeHdr) (objs : List Object) :
    (gather (((lEntry 0).outer (totCnt objs)).iov :: innerIov heap lEntry 1 objs)).length =
      sizeofLehdr + (batchBytes (batch heap lEntry 1 objs)).length := by
  rw [gather_cons, gather_innerIov, List.length_append]
  exact congrArg (· + _) (LeHdr.length_encode _)

/-- If the batch is not too long, they are its entry. -/
theorem gather_batch {heap : Mem Byte} {lEntry : Nat → LeHdr} {objs : List Object}
    (fits : (batchBytes (batch heap lEntry 1 objs)).length < 2 ^ 64) :
    gather (((lEntry 0).outer (totCnt objs)).iov :: innerIov heap lEntry 1 objs) =
      (Item.multiple (lEntry 0) (batch heap lEntry 1 objs) fits).entry.bytes := by
  have htot : totCnt objs = (batchBytes (batch heap lEntry 1 objs)).length := by
    have hfits := fits
    rw [length_batch] at hfits ⊢
    rw [totCnt_eq, u64_of_lt hfits]
  rw [gather_cons, gather_innerIov, htot]
  rfl

end NvsStore

/-! ## What a call that returns has done to the process -/

section
variable {s s' : NvsStore}

theorem NvsStore.createObj_eq {key : Key} {size : UInt64} {tmpPtr addr : Nat} {code : ErrorCode}
    (h : s.createObj key size tmpPtr = .ok (code, addr, s')) :
    s.objectMap.find? key = none ∧ s' = { s with
      objectMap := s.objectMap.insert key (Object.ctor key size 0 tmpPtr)
      addrMap := s.addrMap.insert tmpPtr key } := by
  unfold NvsStore.createObj at h
  split at h
  · rename_i hfind
    simp only [Except.ok.injEq, Prod.mk.injEq] at h
    exact ⟨hfind, h.2.2.symm⟩
  · cases h

/-- `create_obj` returns the block it was given. -/
theorem NvsStore.createObj_addr {key : Key} {size : UInt64} {tmpPtr addr : Nat} {code : ErrorCode}
    (h : s.createObj key size tmpPtr = .ok (code, addr, s')) : addr = tmpPtr := by
  unfold NvsStore.createObj at h
  split at h
  · simp only [Except.ok.injEq, Prod.mk.injEq] at h
    exact h.2.1.symm
  · cases h

theorem NvsStore.freeObj_eq {objAddr : Nat} {code : ErrorCode}
    (h : s.freeObj objAddr = .ok (code, s')) :
    ∃ key obj, s.addrMap.find? objAddr = some key ∧ s.objectMap.find? key = some obj ∧
      s' = { s with
        objectMap := s.objectMap.erase key
        addrMap := s.addrMap.erase objAddr } := by
  unfold NvsStore.freeObj at h
  split at h
  · cases h
  · rename_i key haddr
    split at h
    · cases h
    · rename_i obj hobj
      simp only [Except.ok.injEq, Prod.mk.injEq] at h
      exact ⟨key, obj, haddr, hobj, h.2.symm⟩

/-- `put` either finds no object and changes nothing, or appends its record. -/
theorem NvsStore.put_eq {junk : LeHdr} {key : Key} {version : UInt64} {code : ErrorCode}
    (h : s.put junk key version = .ok (code, s')) :
    (s.objectMap.find? key = none ∧ code = .elemNotFound ∧ s' = s) ∨
    ∃ obj log file, s.objectMap.find? key = some obj ∧ code = .noError ∧
      s.log.appendv s.file [(junk.fill obj version).iov, obj.iov s.heap] = .ok (log, file) ∧
      s' = { s with
        log := log
        file := file
        objectMap := s.objectMap.modify key (fun obj => obj.setVersion version) } := by
  unfold NvsStore.put at h
  split at h
  · rename_i hfind
    simp only [Except.ok.injEq, Prod.mk.injEq] at h
    exact Or.inl ⟨hfind, h.1.symm, h.2.symm⟩
  · rename_i obj hfind
    split at h
    · cases h
    · rename_i log file happ
      simp only [Except.ok.injEq, Prod.mk.injEq] at h
      exact Or.inr ⟨obj, log, file, hfind, h.1.symm, happ, h.2.symm⟩

theorem NvsStore.putAll_eq {junk : Nat → LeHdr} {n : Nat} (h : s.putAll junk = .ok (n, s')) :
    ∃ log file, s.log.appendv s.file
        (((junk 0).outer (totCnt (s.objectMap.entries.map Prod.snd))).iov ::
          innerIov s.heap junk 1 (s.objectMap.entries.map Prod.snd)) = .ok (log, file) ∧
      s' = { s with
        log := log
        file := file
        objectMap := s.objectMap.mapVal (fun _ obj => obj.setVersion (obj.version + 1)) } := by
  unfold NvsStore.putAll at h
  simp only at h
  split at h
  · split at h
    · cases h
    · rename_i log file happ
      simp only [Except.ok.injEq, Prod.mk.injEq] at h
      exact ⟨log, file, happ, h.2.symm⟩
  · cases h

end

/-! ## What the writers have appended -/

section
variable {s s' : NvsStore} {body : List Byte}

/-- **What a `put` that returned `NO_ERROR` has done**: it appended the record of the object's buffer
    and set the object's version. -/
theorem NvsStore.put_ok {junk : LeHdr} {key : Key} {version : UInt64} (hr : Rep s.file body)
    (hs : s.log.Synced s.file body) (h : s.put junk key version = .ok (.noError, s')) :
    ∃ obj, s.objectMap.find? key = some obj ∧
      Rep s'.file (body ++ (Item.single ⟨junk, obj.toRec s.heap version⟩).entry.frame) ∧
      s'.log.Synced s'.file (body ++ (Item.single ⟨junk, obj.toRec s.heap version⟩).entry.frame) ∧
      s'.file.len = s.file.len ∧ s'.heap = s.heap ∧ s'.addrMap = s.addrMap ∧
      s'.objectMap = s.objectMap.modify key (fun obj => obj.setVersion version) := by
  rcases NvsStore.put_eq h with ⟨_, hcode, _⟩ | ⟨obj, log, file, hfind, _, happ, rfl⟩
  · cases hcode
  · have hbytes : gather [(junk.fill obj version).iov, obj.iov s.heap] =
        (Item.single ⟨junk, obj.toRec s.heap version⟩).entry.bytes := by
      rw [gather_record]
      exact List.append_nil _
    obtain ⟨_, hlen, hr', hs'⟩ := appendv_ok hr hs happ hbytes
    exact ⟨obj, hfind, hr', hs', hlen, rfl, rfl, rfl⟩

/-- **What a successful `put_all` has done**: it appended one batch with every object under its next
    version, and advanced the versions. -/
theorem NvsStore.putAll_ok {junk : Nat → LeHdr} {n : Nat} (hr : Rep s.file body)
    (hs : s.log.Synced s.file body) (h : s.putAll junk = .ok (n, s')) :
    ∃ ws fits, ws = NvsStore.batch s.heap junk 1 (s.objectMap.entries.map Prod.snd) ∧
      Rep s'.file (body ++ (Item.multiple (junk 0) ws fits).entry.frame) ∧
      s'.log.Synced s'.file (body ++ (Item.multiple (junk 0) ws fits).entry.frame) ∧
      s'.file.len = s.file.len ∧ s'.heap = s.heap ∧ s'.addrMap = s.addrMap ∧
      s'.objectMap = s.objectMap.mapVal (fun _ obj => obj.setVersion (obj.version + 1)) ∧
      totCnt (s.objectMap.entries.map Prod.snd) = (batchBytes ws).length := by
  obtain ⟨log, file, happ, rfl⟩ := NvsStore.putAll_eq h
  generalize s.objectMap.entries.map Prod.snd = objs at *
  have hgather : gather (((junk 0).outer (totCnt objs)).iov :: innerIov s.heap junk 1 objs) =
      ((junk 0).outer (totCnt objs)).encode ++ batchBytes (batch s.heap junk 1 objs) := by
    rw [gather_cons, gather_innerIov]
    rfl
  -- the call succeeded, so the batch fits and `tot_cnt` has not wrapped
  have hfits : (batchBytes (batch s.heap junk 1 objs)).length < 2 ^ 64 := by
    have hle := (appendv_ok hr hs happ hgather).1
    have hsmall := hr.small
    rw [List.length_append] at hle
    omega
  have htot : totCnt objs = (batchBytes (batch s.heap junk 1 objs)).length := by
    rw [length_batch] at hfits ⊢
    rw [totCnt_eq, u64_of_lt hfits]
  have hbytes : gather (((junk 0).outer (totCnt objs)).iov :: innerIov s.heap junk 1 objs) =
      (Item.multiple (junk 0) (batch s.heap junk 1 objs) hfits).entry.bytes := by
    rw [hgather, htot]
    rfl
  obtain ⟨_, hlen, hr', hs'⟩ := appendv_ok hr hs happ hbytes
  exact ⟨_, hfits, rfl, hr', hs', hlen, rfl, rfl, rfl, htot⟩

/-- A `put` of an object that fits succeeds. -/
theorem NvsStore.put_of_fits (hr : Rep s.file body) (hs : s.log.Synced s.file body) (junk : LeHdr)
    {key : Key} {obj : Object} (version : UInt64) (hobj : s.objectMap.find? key = some obj)
    (hfit : 32 + body.length + (sizeofLehdr + obj.size.toNat) + 8 ≤ s.file.len - 1) :
    ∃ s', s.put junk key version = .ok (.noError, s') := by
  have hlen : (gather [(junk.fill obj version).iov, obj.iov s.heap]).length =
      sizeofLehdr + obj.size.toNat := by
    rw [gather_record, List.length_append, Written.length_bytes]
    exact congrArg (sizeofLehdr + ·) (obj.length_contents s.heap)
  have happ : s.log.appendv s.file [(junk.fill obj version).iov, obj.iov s.heap] = _ :=
    appendv_of_fits hr hs (by rw [hlen]; exact hfit)
  unfold NvsStore.put
  rw [hobj]
  simp only [happ]
  exact ⟨_, rfl⟩

/-- A `put_all` of a batch that fits succeeds. -/
theorem NvsStore.putAll_of_fits (hr : Rep s.file body) (hs : s.log.Synced s.file body)
    (junk : Nat → LeHdr) {objs : List Object} (hobjs : s.objectMap.entries.map Prod.snd = objs)
    (hcount : 1 + 2 * objs.length < 2 ^ 31)
    (hfit : 32 + body.length + (sizeofLehdr + batchLen objs) + 8 ≤ s.file.len - 1) :
    ∃ n s', s.putAll junk = .ok (n, s') := by
  subst hobjs
  unfold NvsStore.putAll
  generalize s.objectMap.entries.map Prod.snd = objs at *
  have hlen : (gather (((junk 0).outer (totCnt objs)).iov :: innerIov s.heap junk 1 objs)).length =
      sizeofLehdr + batchLen objs := by
    rw [gather_cons, gather_innerIov, List.length_append, length_batch]
    exact congrArg (· + _) (LeHdr.length_encode _)
  have happ : s.log.appendv s.file
      (((junk 0).outer (totCnt objs)).iov :: innerIov s.heap junk 1 objs) = _ :=
    appendv_of_fits hr hs (by rw [hlen]; exact hfit)
  simp only [if_pos hcount, happ]
  exact ⟨_, _, rfl⟩

end

end NvStream
