/-
  The space check against sizes near `2 ^ 64`.

  `appendv` and `appendmv` add up the lengths of their buffers and the commit word in a `uint64_t` and
  compare the sum with the room behind `write_offset`.  Nothing bounds the lengths: `create_obj` takes
  any `uint64_t` size, does not look at what `malloc` returned, and `put` hands the size on.  The sum
  is the exact one modulo `2 ^ 64` (`totCntv_eq`), so the check is right as long as the exact sum stays
  below `2 ^ 64`, and a larger sum passes if its residue is small (`space_check_iff`).

  A call that passes that way has no room for its data: its copy loop leaves the mapping
  (`appendv_faults`, and with it `put` and `put_all`), where a refused call ends with `exit(1)` and the
  log untouched.
-/
import NvStream.Log.SingleAppend
import NvStream.NvsStore.Records

namespace NvStream

open FlatMem LittleEndian LoadProg PersistTrace

/-! ## The check -/

/-- `total` bytes and the commit word fit between `write_offset` and `end_offset`. -/
def Log.Fits (l : Log) (total : Nat) : Prop := l.writeOffset + total + wordLength ≤ l.endOffset

/-- `total` bytes and the commit word are less than `2 ^ 64`, or so many that the check fails although
    it only sees the residue. -/
def Log.NotFooled (l : Log) (total : Nat) : Prop :=
  total + wordLength < 2 ^ 64 ∨ l.endOffset ≤ l.writeOffset ∨
    l.endOffset - l.writeOffset < (total + wordLength) % 2 ^ 64

/-- Comparing the residue is comparing the sum exactly if the check is not fooled. -/
theorem hasSpace_imp_fits_iff {l : Log} (hend : l.endOffset < 2 ^ 64) (total : Nat) :
    (l.HasSpace (u64 (total + wordLength)) → l.Fits total) ↔ l.NotFooled total := by
  constructor
  · intro h
    by_cases hspace : l.HasSpace (u64 (total + wordLength))
    · -- the exact sum fits below `end_offset`, which is a `uint64_t`
      have hfits : l.writeOffset + total + wordLength ≤ l.endOffset := h hspace
      exact Or.inl (by omega)
    · rw [not_hasSpace_iff] at hspace
      exact Or.inr hspace
  · rintro (hsmall | hfail) hspace
    · rw [u64_of_lt hsmall] at hspace
      obtain ⟨hlt, hle⟩ := hspace
      show l.writeOffset + total + wordLength ≤ l.endOffset
      omega
    · exact absurd hspace (not_hasSpace_iff.mpr hfail)

theorem totCntv_eq_sum (iov : List IoVec) :
    totCntv iov = u64 ((iov.map IoVec.len).sum + wordLength) := by
  rw [totCntv_eq, length_gather, wordLength]

theorem totCntmv_eq_sum (rows : List (List IoVec)) :
    totCntmv rows = u64 ((rows.map (fun row => (row.map IoVec.len).sum)).sum + wordLength) := by
  rw [totCntmv_eq_totCntv, totCntv_eq_sum, List.map_flatten, List.sum_flatten, List.map_map]
  rfl

/-- **When the space check can be relied on.**  For every handle and every vector, flat or in rows: a
    call that passes the check has room for the exact sum of its lengths and the commit word if and
    only if that sum is below `2 ^ 64`, or the check fails. -/
theorem space_check_iff {l : Log} (hend : l.endOffset < 2 ^ 64) :
    (∀ iov : List IoVec, (l.HasSpace (totCntv iov) → l.Fits (iov.map IoVec.len).sum) ↔
      l.NotFooled (iov.map IoVec.len).sum) ∧
    ∀ rows : List (List IoVec),
      (l.HasSpace (totCntmv rows) →
        l.Fits (rows.map (fun row => (row.map IoVec.len).sum)).sum) ↔
      l.NotFooled (rows.map (fun row => (row.map IoVec.len).sum)).sum := by
  constructor
  · intro iov
    rw [totCntv_eq_sum]
    exact hasSpace_imp_fits_iff hend _
  · intro rows
    rw [totCntmv_eq_sum]
    exact hasSpace_imp_fits_iff hend _

/-- The handle on a new log of 256 bytes, and a vector of three bytes. -/
theorem space_check_iff_three_bytes : ∃ l f, Log.ctor none 256 = .ok (l, f) ∧
    l.HasSpace (totCntv [⟨[1, 2, 3], by decide⟩]) ∧ l.Fits 3 := by
  have hnew : Log.ctor none 256 = .ok _ := ctor_none.mpr ⟨by decide, rfl, rfl⟩
  have hspace : Log.HasSpace ⟨256, 32, 255, 32⟩ (totCntv [⟨[1, 2, 3], by decide⟩]) := by decide
  exact ⟨_, _, hnew, hspace,
    ((space_check_iff (by decide)).1 [⟨[1, 2, 3], by decide⟩]).mpr (Or.inl (by decide)) hspace⟩

/-! ## A call that passed without room -/

/-- **A fooled call leaves the mapping.** -/
theorem appendv_faults {l : Log} {f : File} {iov : List IoVec} (hend : l.endOffset < f.len)
    (hlen : f.len < 2 ^ 63) (hspace : l.HasSpace (totCntv iov))
    (hfits : ¬ l.Fits (iov.map IoVec.len).sum) : l.appendv f iov = .error .segv := by
  rw [Log.appendv, Log.appendWith, if_pos hspace]
  refine if_neg (fun hin => hfits ?_)
  -- had every store landed inside, the sum would be small, and the check right
  have hbelow := hspace.1
  have hinside := copyv_fits (fun o ho => hin o (List.mem_append_left _ ho))
    (show l.writeOffset ≤ f.len by omega) (show f.len < 2 ^ 64 by omega)
  rw [length_gather] at hinside
  have hsmall : (iov.map IoVec.len).sum + wordLength < 2 ^ 64 := by
    rw [wordLength]
    omega
  rw [totCntv_eq_sum] at hspace
  exact (hasSpace_imp_fits_iff (by omega) _).mpr (Or.inl hsmall) hspace

/-- The lengths `put` hands to `appendv`. -/
theorem sum_put (heap : Mem Byte) (hdr : LeHdr) (o : Object) :
    ([hdr.iov, o.iov heap].map IoVec.len).sum = sizeofLehdr + o.size.toNat := by
  have hhdr : hdr.iov.len = sizeofLehdr := hdr.length_encode
  have hobj : (o.iov heap).len = o.size.toNat := o.length_contents heap
  rw [List.map_cons, List.map_singleton, List.sum_cons, List.sum_singleton, hhdr, hobj]

/-- The lengths `put_all` hands to `appendv`. -/
theorem sum_putAll (heap : Mem Byte) (outer : LeHdr) (lEntry : Nat → LeHdr) (objs : List Object) :
    ((outer.iov :: NvsStore.innerIov heap lEntry 1 objs).map IoVec.len).sum =
      sizeofLehdr + NvsStore.batchLen objs := by
  rw [← length_gather, gather_cons, NvsStore.gather_innerIov, List.length_append,
    NvsStore.length_batch]
  exact congrArg (· + NvsStore.batchLen objs) outer.length_encode

/-- **So does a fooled `put`.** -/
theorem NvsStore.put_faults {s : NvsStore} {key : Key} {obj : Object} {lEntry : LeHdr}
    {version : UInt64} (hobj : s.objectMap.find? key = some obj)
    (hend : s.log.endOffset < s.file.len) (hlen : s.file.len < 2 ^ 63)
    (hspace : s.log.HasSpace (totCntv [(lEntry.fill obj version).iov, obj.iov s.heap]))
    (hfits : ¬ s.log.Fits ([(lEntry.fill obj version).iov, obj.iov s.heap].map IoVec.len).sum) :
    s.put lEntry key version = .error .segv := by
  unfold NvsStore.put
  rw [hobj]
  simp only [appendv_faults hend hlen hspace hfits]

/-- **And a fooled `put_all`.** -/
theorem NvsStore.putAll_faults {s : NvsStore} {objs : List Object} {lEntry : Nat → LeHdr}
    (hobjs : s.objectMap.entries.map Prod.snd = objs) (hcount : 1 + 2 * objs.length < 2 ^ 31)
    (hend : s.log.endOffset < s.file.len) (hlen : s.file.len < 2 ^ 63)
    (hspace : s.log.HasSpace (totCntv
      (((lEntry 0).outer (totCnt objs)).iov :: innerIov s.heap lEntry 1 objs)))
    (hfits : ¬ s.log.Fits
      ((((lEntry 0).outer (totCnt objs)).iov :: innerIov s.heap lEntry 1 objs).map IoVec.len).sum) :
    s.putAll lEntry = .error .segv := by
  unfold NvsStore.putAll
  rw [hobjs]
  simp only [appendv_faults hend hlen hspace hfits]
  exact if_pos hcount

/-- **An object of `2 ^ 64 - 144` bytes.**  `malloc` returns NULL for it, and `create_obj` files it all
    the same.  In an empty log of 100 MiB both `put` and `put_all` pass their check, `put` with a sum of
    zero, and both leave the mapping. -/
theorem oversize_put_passes_check : ∃ l f s, Log.ctor none logSize = .ok (l, f) ∧
    (NvsStore.ctor l f (fun _ => 0)).createObj [97] 18446744073709551472 0 = .ok (.noError, 0, s) ∧
    s.log.startOffset ≤ s.log.writeOffset ∧ s.log.writeOffset ≤ s.log.endOffset ∧
    s.log.endOffset < 2 ^ 64 ∧
    ∃ obj, s.objectMap.entries = [([97], obj)] ∧
      (∀ hdr : LeHdr, totCntv [hdr.iov, obj.iov s.heap] = 0 ∧
        s.log.HasSpace (totCntv [hdr.iov, obj.iov s.heap]) ∧
        ¬ s.log.Fits ([hdr.iov, obj.iov s.heap].map IoVec.len).sum) ∧
      (∀ (outer : LeHdr) (lEntry : Nat → LeHdr),
        s.log.HasSpace (totCntv (outer.iov :: NvsStore.innerIov s.heap lEntry 1 [obj])) ∧
        ¬ s.log.Fits ((outer.iov :: NvsStore.innerIov s.heap lEntry 1 [obj]).map IoVec.len).sum) ∧
      (∀ lEntry, s.put lEntry [97] 1 = .error .segv) ∧
      ∀ lEntry, s.putAll lEntry = .error .segv := by
  obtain ⟨l, f, hnew, hr, hs, hlen⟩ := ctor_ok logSize (by decide)
  obtain ⟨s, hcreate, hentries, hlog, hfile⟩ : ∃ s,
      (NvsStore.ctor l f (fun _ => 0)).createObj [97] 18446744073709551472 0 =
        .ok (.noError, 0, s) ∧
      s.objectMap.entries = [([97], Object.ctor [97] 18446744073709551472 0 0)] ∧
      s.log = l ∧ s.file = f := ⟨_, rfl, rfl, rfl, rfl⟩
  have hstart : l.startOffset = 32 := hs.start
  have hwrite : l.writeOffset = 32 := hs.write
  have hend : l.endOffset = 104857599 := by
    rw [hs.stop, hlen]
    rfl
  have hflen : s.file.len = 104857600 := by rw [hfile, hlen]; rfl
  have hsize : (Object.ctor [97] 18446744073709551472 0 0).size.toNat = 2 ^ 64 - 144 := by decide
  have hobj := SortedMap.find?_of_singleton hentries
  generalize Object.ctor [97] 18446744073709551472 0 0 = obj at hentries hsize hobj
  -- the exact sums are `2 ^ 64 - 8` and `2 ^ 64 + 128`
  have hput : ∀ hdr : LeHdr, totCntv [hdr.iov, obj.iov s.heap] = 0 ∧
      s.log.HasSpace (totCntv [hdr.iov, obj.iov s.heap]) ∧
      ¬ s.log.Fits ([hdr.iov, obj.iov s.heap].map IoVec.len).sum := by
    intro hdr
    have htot : totCntv [hdr.iov, obj.iov s.heap] = 0 := by
      rw [totCntv_eq_sum, sum_put, hsize]
      decide
    rw [htot, sum_put, hsize, hlog, Log.HasSpace, Log.Fits, hwrite, hend]
    decide
  have hputAll : ∀ (outer : LeHdr) (lEntry : Nat → LeHdr),
      s.log.HasSpace (totCntv (outer.iov :: NvsStore.innerIov s.heap lEntry 1 [obj])) ∧
      ¬ s.log.Fits
        ((outer.iov :: NvsStore.innerIov s.heap lEntry 1 [obj]).map IoVec.len).sum := by
    intro outer lEntry
    have hsum : NvsStore.batchLen [obj] = 2 ^ 64 - 8 := by
      rw [NvsStore.batchLen, List.map_singleton, List.sum_singleton, hsize]
      decide
    rw [totCntv_eq_sum, sum_putAll, hsum, hlog, Log.HasSpace, Log.Fits, hwrite, hend]
    decide
  have hend' : s.log.endOffset < s.file.len := by
    rw [hlog, hend, hflen]
    decide
  have hflen' : s.file.len < 2 ^ 63 := by
    rw [hflen]
    decide
  refine ⟨l, f, s, hnew, hcreate, ?_, ?_, ?_, obj, hentries, hput, hputAll, ?_, ?_⟩
  · rw [hlog, hstart, hwrite]
  · rw [hlog, hwrite, hend]
    decide
  · rw [hlog, hend]
    decide
  · intro lEntry
    obtain ⟨_, hspace, hfits⟩ := hput (lEntry.fill obj 1)
    exact NvsStore.put_faults hobj hend' hflen' hspace hfits
  · intro lEntry
    have hobjs : s.objectMap.entries.map Prod.snd = [obj] := by rw [hentries]; rfl
    obtain ⟨hspace, hfits⟩ := hputAll ((lEntry 0).outer (NvsStore.totCnt [obj])) lEntry
    exact NvsStore.putAll_faults hobjs (show 1 + 2 * 1 < 2 ^ 31 by decide) hend' hflen' hspace hfits

end NvStream
