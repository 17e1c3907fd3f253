/-
  What `NVSStore::get` finds.

  `process_chunks` compares C strings and versions in memory; on an item that stands there it behaves
  as `lookStep`, a pure search through the item's records.  Its traversal of a batch compares a record
  only while ANOTHER record follows it: `i_index` is already the end of the record under comparison,
  and the loop runs while `i_index < lehdr->len`.  So the last record of a batch is never compared,
  and `visible` leaves it out.

  1. `matchesAt_yields`, `innerLoop_yields`, `processChunks_yields`: the callback on one item.
  2. `scan_look`: the scan of `lookStep` over a log stops at the first visible record that matches.
  3. `get_eq`: `get` returns the data of the first visible record with the stored name and version
     asked for, or `ID_NOT_FOUND`.
-/
import NvStream.NvsStore.Records

namespace NvStream

open FlatMem LittleEndian LoadProg PersistTrace

/-! ## The search, purely -/

/-- The record answers a query for the stored name `q` and a version. -/
def Rec.matches (q : List Byte) (version : UInt64) (r : Rec) : Bool :=
  decide (keyField r.name = q ∧ r.version = version)

/-- The search through a batch whose first record stands at `p`, and where the data of the record
    found stands.  A record is compared only when another one follows. -/
def findIn (q : List Byte) (version : UInt64) : Nat → List Written → Option (Nat × Rec)
  | _, [] => none
  | _, [_] => none
  | p, w :: w' :: ws =>
    if w.toRec.matches q version then some (p + sizeofLehdr, w.toRec)
    else findIn q version (p + w.bytes.length) (w' :: ws)

/-- The search through one item, offsets counted from its header. -/
def Item.find (q : List Byte) (version : UInt64) : Item → Option (Nat × Rec)
  | .single w => if w.toRec.matches q version then some (sizeofLehdr, w.toRec) else none
  | .multiple _ ws _ => findIn q version sizeofLehdr ws

/-- The records of an item that the search compares. -/
def Item.visible : Item → List Rec
  | .single w => [w.toRec]
  | .multiple _ ws _ => (ws.map Written.toRec).dropLast

/-- What the callback reports about the item at `off`. -/
def WalkEntry.report (off : Nat) (e : WalkEntry) : Option (Nat × Rec) → WalkEntry × Bool
  | some (p, r) => ({ e with datap := off + p, len := r.data.length, err := .noError }, false)
  | none => (e, true)

/-- `process_chunks` on the item at `off`, purely. -/
def lookStep (off : Nat) (it : Item) (e : WalkEntry) : WalkEntry × Bool :=
  WalkEntry.report off { e with err := .idNotFound } (it.find (cStr e.key.toList) e.version)

theorem Item.visible_subset {it : Item} {r : Rec} (h : r ∈ it.visible) : r ∈ it.recs := by
  cases it with
  | single w => exact h
  | multiple _ ws _ => exact List.mem_of_mem_dropLast h

theorem lookStep_of_none {off : Nat} {it : Item} {e : WalkEntry}
    (h : it.find (cStr e.key.toList) e.version = none) :
    lookStep off it e = ({ e with err := .idNotFound }, true) := by
  rw [lookStep, h, WalkEntry.report]

theorem lookStep_of_some {off : Nat} {it : Item} {e : WalkEntry} {pr : Nat × Rec}
    (h : it.find (cStr e.key.toList) e.version = some pr) : (lookStep off it e).2 = false := by
  rw [lookStep, h, WalkEntry.report]

theorem map_findIn (q : List Byte) (version : UInt64) (p : Nat) (ws : List Written) :
    (findIn q version p ws).map Prod.snd =
      (ws.map Written.toRec).dropLast.find? (Rec.matches q version) := by
  fun_induction findIn q version p ws with
  | case1 => rfl
  | case2 => rfl
  | case3 p w w' ws h =>
    rw [List.map_cons, List.map_cons, List.dropLast_cons_cons, List.find?_cons_of_pos h]
    rfl
  | case4 p w w' ws h ih =>
    rw [List.map_cons, List.map_cons, List.dropLast_cons_cons, List.find?_cons_of_neg h, ih]
    rfl

/-- The search through an item finds the first visible record that matches. -/
theorem Item.map_find (q : List Byte) (version : UInt64) (it : Item) :
    (it.find q version).map Prod.snd = it.visible.find? (Rec.matches q version) := by
  cases it with
  | multiple junk ws fits => exact map_findIn q version _ ws
  | single w =>
    by_cases h : w.toRec.matches q version = true
    · rw [Item.find, if_pos h, Item.visible, List.find?_cons_of_pos h]
      rfl
    · rw [Item.find, if_neg h, Item.visible, List.find?_cons_of_neg h]
      rfl

/-! ## Where things stand -/

section
variable {m : Mem Byte} {off : Nat}

theorem Entry.load_ofHdr {h : LeHdr} {payload : List Byte}
    (hlen : h.len.toNat = payload.length)
    (hat : load m off (Entry.ofHdr h payload hlen).bytes.length =
      (Entry.ofHdr h payload hlen).bytes) :
    h.At m off ∧ load m (off + sizeofLehdr) payload.length = payload := by
  rw [Entry.bytes_ofHdr, load_append_iff, LeHdr.length_encode] at hat
  exact hat

theorem Written.load_bytes {w : Written} (hat : load m off w.bytes.length = w.bytes) :
    w.hdr.At m off ∧
      load m (off + sizeofLehdr) w.toRec.data.length = w.toRec.data := by
  rw [Written.bytes, load_append_iff, LeHdr.length_encode] at hat
  exact hat

/-- The record a batch search finds has its data where the search says. -/
theorem findIn_at {q : List Byte} {version : UInt64} {p p' : Nat} {ws : List Written} {r : Rec}
    (hat : load m (off + p) (batchBytes ws).length = batchBytes ws)
    (h : findIn q version p ws = some (p', r)) :
    load m (off + p') r.data.length = r.data ∧
      p' + r.data.length ≤ p + (batchBytes ws).length := by
  fun_induction findIn q version p ws with
  | case1 => cases h
  | case2 => cases h
  | case3 p w w' ws _ =>
    rw [batchBytes_cons] at hat
    obtain ⟨hw, _⟩ := (load_append_iff _ _ _ _).mp hat
    simp only [Option.some.injEq, Prod.mk.injEq] at h
    obtain ⟨rfl, rfl⟩ := h
    rw [batchBytes_cons, List.length_append, w.length_bytes, ← Nat.add_assoc]
    exact ⟨(Written.load_bytes hw).2, by omega⟩
  | case4 p w w' ws _ ih =>
    rw [batchBytes_cons] at hat
    obtain ⟨_, hrest⟩ := (load_append_iff _ _ _ _).mp hat
    obtain ⟨hdata, hle⟩ := ih (by rw [← Nat.add_assoc]; exact hrest) h
    rw [batchBytes_cons, List.length_append]
    exact ⟨hdata, by omega⟩

/-- The record found in an item has its data where the search says, inside the item. -/
theorem Item.find_at {q : List Byte} {version : UInt64} {it : Item} {p : Nat} {r : Rec}
    (hat : load m off it.entry.bytes.length = it.entry.bytes)
    (h : it.find q version = some (p, r)) :
    load m (off + p) r.data.length = r.data ∧ p + r.data.length ≤ it.entry.bytes.length := by
  cases it with
  | single w =>
    obtain ⟨_, hdata⟩ := Entry.load_ofHdr w.len_hdr hat
    rw [Item.find, Option.ite_none_right_eq_some] at h
    simp only [Option.some.injEq, Prod.mk.injEq] at h
    obtain ⟨_, rfl, rfl⟩ := h
    exact ⟨hdata, by rw [Entry.length_bytes, Item.len_single]⟩
  | multiple junk ws fits =>
    obtain ⟨_, hdata⟩ := Entry.load_ofHdr (junk.len_outer fits) hat
    obtain ⟨h1, h2⟩ := findIn_at hdata h
    exact ⟨h1, by rw [Entry.length_bytes, Item.len_multiple]; exact h2⟩

end

/-! ## The callback on one item -/

/-- The query key a getter builds reads as the key's stored name. -/
theorem cStr_snprintfKey (old : Vector Byte 20) (key : Key) :
    cStr (snprintfKey old key).toList = keyField key := by
  rw [toList_snprintfKey, cStr, List.takeWhile_append_of_pos]
  · rw [List.takeWhile_cons_of_neg (by simp), List.append_nil]
  · intro b hb
    rw [decide_eq_true_iff]
    rintro rfl
    exact zero_not_mem_keyField key hb

section
variable {m : Mem Byte} {S : Set Nat}

/-- The comparison of a record's header with the query is `Rec.matches`. -/
theorem matchesAt_yields {w : Written} {off : Nat} (e : WalkEntry) (hat : w.hdr.At m off)
    (hlt : off + sizeofLehdr < 2 ^ 64) (hS : ∀ i < sizeofLehdr, off + i ∈ S) :
    (matchesAt off e).Yields S m (w.toRec.matches (cStr e.key.toList) e.version) := by
  obtain ⟨hname, hversion, _, _⟩ := hat.fields
  simp only [sizeofLehdr] at hlt hS
  have hle := length_keyField_le w.toRec.name
  -- the stored name, with its NUL, is the front of `kname`
  have hfront : load m off ((keyField w.toRec.name).length + 1) = keyField w.toRec.name ++ [0] := by
    have hk : w.hdr.kname.toList = (keyField w.toRec.name ++ [0]) ++
        w.junk.kname.toList.drop ((keyField w.toRec.name).length + 1) := by
      rw [List.append_assoc]
      exact toList_snprintfKey _ _
    have h20 : load m off w.hdr.kname.toList.length = w.hdr.kname.toList := by
      rw [Vector.length_toList]
      exact hname
    rw [hk] at h20
    have h := ((load_append_iff _ _ _ _).mp h20).1
    rw [List.length_append] at h
    exact h
  obtain ⟨c, hc, hiff⟩ := strncmpAt_yields (n := keyLen) hfront
    (zero_not_mem_keyField w.toRec.name) (zero_not_mem_cStr e.key.toList)
    (Nat.lt_succ_of_le hle) (fun i hi => hS i (by omega))
  refine Prog.Yields.bind' hc ?_
  unfold Rec.matches
  by_cases h0 : c = 0
  · rw [if_pos h0]
    have hv : (loadWord (u64 (off + versionField))).Yields S m w.toRec.version.toNat := by
      rw [← show word m (off + versionField) = w.toRec.version.toNat from hversion]
      exact yields_loadField (by rw [versionField]; omega)
        (fun i hi => hS _ (by rw [versionField]; omega))
    refine Prog.Yields.bind' hv ?_
    rw [show decide (keyField w.toRec.name = cStr e.key.toList ∧ w.toRec.version = e.version) =
      decide (w.toRec.version.toNat = e.version.toNat) by
        rw [decide_eq_decide, and_iff_right (hiff.mp h0), UInt64.toNat_inj]]
    exact Prog.yields_pure _ _ _
  · rw [if_neg h0, decide_eq_false (fun h => h0 (hiff.mpr h.1))]
    exact Prog.yields_pure _ _ _

/-- The `len` field of a record's header. -/
theorem len_yields {h : LeHdr} {off n : Nat} (hat : h.At m off) (hn : h.len.toNat = n)
    (hlt : off + sizeofLehdr < 2 ^ 64) (hS : ∀ i < sizeofLehdr, off + i ∈ S) :
    (loadWord (u64 (off + lenField))).Yields S m n := by
  simp only [sizeofLehdr] at hlt hS
  rw [← hn, ← show word m (off + lenField) = _ from hat.fields.2.2.1]
  exact yields_loadField (by rw [lenField]; omega) (fun i hi => hS _ (by rw [lenField]; omega))

/-- The `type` field of a header. -/
theorem type_yields {off : Nat} (hlt : off + sizeofLehdr < 2 ^ 64)
    (hS : ∀ i < sizeofLehdr, off + i ∈ S) :
    (Prog.loadEach (u64 (off + typeField)) 4 : Prog Stop Byte (List Byte)).Yields S m
      (load m (off + typeField) 4) := by
  simp only [sizeofLehdr] at hlt hS
  rw [u64_of_lt (by rw [typeField]; omega)]
  exact Prog.yields_loadEach (fun i hi => by
    rw [Nat.add_assoc]
    exact hS _ (by rw [typeField]; omega))

/-- **The traversal of a batch.**  The induction is on the records behind the one under comparison:
    `i_index` is where the first of them starts, and equals `lehdr->len` when there is none. -/
theorem innerLoop_yields {buf : Nat} {outer : LeHdr} (e : WalkEntry) (hat : outer.At m buf) :
    ∀ (ws : List Written) (w : Written) (p fuel : Nat),
      load m (buf + (sizeofLehdr + p)) (batchBytes (w :: ws)).length = batchBytes (w :: ws) →
      outer.len.toNat = p + (batchBytes (w :: ws)).length →
      buf + (sizeofLehdr + p) + (batchBytes (w :: ws)).length < 2 ^ 64 → ws.length < fuel →
      (∀ i < sizeofLehdr + p + (batchBytes (w :: ws)).length, buf + i ∈ S) →
      (innerLoop buf (buf + sizeofLehdr) e fuel (buf + (sizeofLehdr + p))
        (buf + (sizeofLehdr + p) + sizeofLehdr) (p + w.bytes.length)).Yields S m
        (WalkEntry.report buf e
          (findIn (cStr e.key.toList) e.version (sizeofLehdr + p) (w :: ws))) := by
  intro ws
  induction ws with
  | nil =>
    intro w p fuel _ hlen hlt hfuel hS
    obtain ⟨fuel, rfl⟩ : ∃ k, fuel = k + 1 := ⟨fuel - 1, by omega⟩
    have hw := w.length_bytes
    rw [batchBytes_cons, List.length_append] at hlen hlt hS
    have hl := len_yields hat hlen (by omega) (fun i hi => hS i (by omega))
    refine Prog.Yields.bind' hl ?_
    rw [show (batchBytes []).length = 0 from rfl, Nat.add_zero, if_neg (Nat.lt_irrefl _)]
    exact Prog.yields_pure _ _ _
  | cons w' ws ih =>
    intro w p fuel hm hlen hlt hfuel hS
    obtain ⟨fuel, rfl⟩ : ∃ k, fuel = k + 1 := ⟨fuel - 1, by omega⟩
    have hw := w.length_bytes
    have hw' := w'.length_bytes
    have hsz : sizeofLehdr = 136 := rfl
    have hsplit : (batchBytes (w :: w' :: ws)).length =
        w.bytes.length + (batchBytes (w' :: ws)).length := by
      rw [batchBytes_cons, List.length_append]
    have hsplit' : (batchBytes (w' :: ws)).length = w'.bytes.length + (batchBytes ws).length := by
      rw [batchBytes_cons, List.length_append]
    have hl := len_yields hat hlen (by omega) (fun i hi => hS i (by omega))
    rw [batchBytes_cons] at hm
    obtain ⟨hat_w, hrest⟩ := (load_append_iff _ _ _ _).mp hm
    obtain ⟨hhdr, _⟩ := Written.load_bytes hat_w
    have hmatch := matchesAt_yields (S := S) e hhdr (by omega) (fun i hi => by
      rw [Nat.add_assoc]
      exact hS _ (by omega))
    refine Prog.Yields.bind' hl ?_
    rw [if_pos (by omega)]
    refine Prog.Yields.bind' hmatch ?_
    rw [findIn]
    by_cases hfound : w.toRec.matches (cStr e.key.toList) e.version = true
    · rw [if_pos hfound, if_pos hfound]
      refine Prog.Yields.bind' (len_yields hhdr w.len_hdr (by omega) (fun i hi => by
        rw [Nat.add_assoc]
        exact hS _ (by omega))) ?_
      exact Prog.yields_pure _ _ _
    · rw [if_neg hfound, if_neg hfound]
      have hnext : buf + (sizeofLehdr + p) + w.bytes.length =
          buf + (sizeofLehdr + (p + w.bytes.length)) := by omega
      rw [hnext] at hrest
      have hhdr' : w'.hdr.At m (buf + (sizeofLehdr + (p + w.bytes.length))) := by
        rw [batchBytes_cons] at hrest
        exact (Written.load_bytes ((load_append_iff _ _ _ _).mp hrest).1).1
      rw [u64_of_lt (show buf + sizeofLehdr + (p + w.bytes.length) < _ by omega),
        u64_of_lt (show buf + sizeofLehdr + (p + w.bytes.length) + sizeofLehdr < _ by omega),
        Nat.add_assoc buf sizeofLehdr]
      refine Prog.Yields.bind' (len_yields hhdr' w'.len_hdr (by omega) (fun i hi => by
        rw [Nat.add_assoc]
        exact hS _ (by omega))) ?_
      rw [← hw', u64_of_lt (show w'.bytes.length < _ by omega),
        u64_of_lt (show p + w.bytes.length + w'.bytes.length < _ by omega)]
      have h := ih w' (p + w.bytes.length) fuel hrest (by omega) (by omega)
        (by simp only [List.length_cons] at hfuel; omega) (fun i hi => hS i (by omega))
      rw [Nat.add_assoc sizeofLehdr p]
      exact h

end

/-- How far behind its header the callback looks: an empty batch makes it read the `len` of a record
    that is not there. -/
def Item.reach : Item → Nat
  | .multiple _ [] _ => sizeofLehdr + lenField + 8
  | it => it.entry.bytes.length

theorem Item.length_le_reach (it : Item) : it.entry.bytes.length ≤ it.reach := by
  unfold Item.reach
  split
  · rw [Entry.length_bytes, Item.len_multiple, lenField]
    show _ + 0 ≤ _
    omega
  · exact Nat.le_refl _

theorem Item.reach_le (it : Item) : it.reach ≤ it.entry.bytes.length + 40 := by
  unfold Item.reach
  split
  · rw [Entry.length_bytes, lenField]
    omega
  · omega

theorem Item.reach_cons (junk : LeHdr) (w : Written) (ws : List Written)
    (fits : (batchBytes (w :: ws)).length < 2 ^ 64) :
    (Item.multiple junk (w :: ws) fits).reach =
      sizeofLehdr + (batchBytes (w :: ws)).length := by
  rw [Item.reach]
  · rw [Entry.length_bytes, Item.len_multiple]
  · intro _ _ h
    cases h

section
variable {m : Mem Byte} {S : Set Nat} {off fuel : Nat} (e : WalkEntry) (len : Nat)

/-- `process_chunks` on an entry of `put`. -/
theorem processChunks_single {w : Written} (hh : w.hdr.At m off) (hlt : off + sizeofLehdr < 2 ^ 64)
    (hS : ∀ i < sizeofLehdr, off + i ∈ S) :
    (processChunks fuel off len e).Yields S m (lookStep off (.single w) e) := by
  have htype : ofLE (load m (off + typeField) 4) = HdrType.single.code.toNat := hh.fields.2.2.2
  refine Prog.Yields.bind' (type_yields hlt hS) ?_
  rw [htype, if_pos rfl]
  refine Prog.Yields.bind' (matchesAt_yields _ hh hlt hS) ?_
  rw [lookStep, Item.find]
  split
  · refine Prog.Yields.bind' (len_yields hh w.len_hdr hlt hS) ?_
    rw [u64_of_lt hlt]
    exact Prog.yields_pure _ _ _
  · exact Prog.yields_pure _ _ _

/-- On an entry of `put_all` it goes on to the inner loop, behind the `len` of the first record,
    whatever is read there. -/
theorem processChunks_multiple {junk : LeHdr} {n iLen : Nat} {r : WalkEntry × Bool}
    (hh : (junk.outer n).At m off) (hlt : off + sizeofLehdr < 2 ^ 64)
    (hS : ∀ i < sizeofLehdr, off + i ∈ S)
    (hlen : (loadWord (u64 (off + sizeofLehdr + lenField))).Yields S m iLen)
    (hloop : (innerLoop off (off + sizeofLehdr) { e with err := .idNotFound } fuel
      (off + sizeofLehdr) (u64 (off + sizeofLehdr + sizeofLehdr))
      (u64 (sizeofLehdr + iLen))).Yields S m r) :
    (processChunks fuel off len e).Yields S m r := by
  have htype : ofLE (load m (off + typeField) 4) = HdrType.multiple.code.toNat := hh.fields.2.2.2
  refine Prog.Yields.bind' (type_yields hlt hS) ?_
  rw [htype, if_neg (by decide), if_pos rfl, u64_of_lt hlt]
  exact Prog.Yields.bind' hlen hloop

/-- **`process_chunks` on an item is `lookStep`.** -/
theorem processChunks_yields {it : Item}
    (hat : load m off it.entry.bytes.length = it.entry.bytes)
    (hlt : off + it.reach < 2 ^ 64) (hfuel : it.recs.length < fuel)
    (hS : ∀ i < it.reach, off + i ∈ S) :
    (processChunks fuel off len e).Yields S m (lookStep off it e) := by
  have hreach := it.length_le_reach
  have hlb := it.entry.length_bytes
  have hlt' : off + sizeofLehdr < 2 ^ 64 := by omega
  have hhdr : ∀ i < sizeofLehdr, off + i ∈ S := fun i hi => hS i (by omega)
  cases it with
  | single w => exact processChunks_single e len (Entry.load_ofHdr w.len_hdr hat).1 hlt' hhdr
  | multiple junk ws fits =>
    have houter := junk.len_outer fits
    obtain ⟨hh, hbatch⟩ := Entry.load_ofHdr houter hat
    have hsz : sizeofLehdr = 136 := rfl
    cases ws with
    | nil =>
      -- no record: whatever `i_hdr->len` reads as, `i_index < 0` fails
      have hr : Item.reach (.multiple junk [] fits) = 176 := rfl
      obtain ⟨fuel, rfl⟩ : ∃ k, fuel = k + 1 := ⟨fuel - 1, by omega⟩
      refine processChunks_multiple e len hh hlt' hhdr (yields_loadField (by rw [lenField]; omega)
        (fun i hi => by rw [Nat.add_assoc]; exact hS _ (by rw [lenField]; omega))) ?_
      refine Prog.Yields.bind' (len_yields hh houter hlt' hhdr) ?_
      rw [if_neg (show ¬ _ < (batchBytes []).length from Nat.not_lt_zero _)]
      exact Prog.yields_pure _ _ _
    | cons w ws =>
      have hr := Item.reach_cons junk w ws fits
      have hw := w.length_bytes
      have hcons : (batchBytes (w :: ws)).length = w.bytes.length + (batchBytes ws).length := by
        rw [batchBytes_cons, List.length_append]
      have hhdr_w : w.hdr.At m (off + sizeofLehdr) := by
        rw [batchBytes_cons] at hbatch
        exact (Written.load_bytes ((load_append_iff _ _ _ _).mp hbatch).1).1
      refine processChunks_multiple e len hh hlt' hhdr
        (len_yields hhdr_w w.len_hdr (by omega) (fun i hi => by
          rw [Nat.add_assoc]
          exact hS _ (by omega))) ?_
      rw [← hw, u64_of_lt (show off + sizeofLehdr + sizeofLehdr < _ by omega),
        u64_of_lt (show w.bytes.length < _ by omega)]
      have hrecs : (Item.multiple junk (w :: ws) fits).recs.length = ws.length + 1 := by
        rw [Item.recs, List.length_map, List.length_cons]
      have h := innerLoop_yields (S := S) { e with err := .idNotFound } hh ws w 0 fuel hbatch
        (by rw [houter, Nat.zero_add]) (by omega) (by omega) (fun i hi => hS i (by omega))
      rw [Nat.zero_add] at h
      exact h

end

/-! ## The whole log -/

/-- The first visible record of a log that answers a query for `key` and `version`. -/
def lookup (key : Key) (version : UInt64) (items : List Item) : Option Rec :=
  (items.flatMap Item.visible).find? (Rec.matches (keyField key) version)

theorem lookup_cons (key : Key) (version : UInt64) (it : Item) (items : List Item) :
    lookup key version (it :: items) =
      ((it.find (keyField key) version).map Prod.snd).or (lookup key version items) := by
  rw [lookup, List.flatMap_cons, List.find?_append, it.map_find, lookup]

/-- What is in the `walkentry` when a search for a record ends: its place, or a failure. -/
def Found (m : Mem Byte) (lim : Nat) (e : WalkEntry) : Option Rec → Prop
  | some r => e.err = .noError ∧ e.len = r.data.length ∧ load m e.datap r.data.length = r.data ∧
      e.datap + r.data.length ≤ lim
  | none => e.err = .idNotFound

/-- The scan of the callback over a log ends at the first visible record that matches. -/
theorem scan_look {m : Mem Byte} (key : Key) (version : UInt64) (items : List Item) :
    ∀ (off : Nat) (e : WalkEntry), cStr e.key.toList = keyField key → e.version = version →
      load m off (encode (items.map Item.entry)).length = encode (items.map Item.entry) →
      (items = [] → e.err = .idNotFound) →
      Found m (off + (encode (items.map Item.entry)).length)
        (scan Item.entry lookStep off items e).1 (lookup key version items) := by
  induction items with
  | nil =>
    intro off e _ _ _ herr
    exact herr rfl
  | cons it items ih =>
    rintro off e hkey rfl hm _
    rw [List.map_cons, encode_cons] at hm ⊢
    obtain ⟨hframe, hrest⟩ := (load_append_iff _ _ _ _).mp hm
    obtain ⟨hbytes, _⟩ := (load_append_iff _ _ _ _).mp hframe
    have hlen := it.entry.length_frame
    have hlb := it.entry.length_bytes
    rw [scan, lookup_cons, lookStep, hkey, List.length_append]
    cases hfind : it.find (keyField key) e.version with
    | none =>
      rw [WalkEntry.report, if_pos rfl, Option.map_none, Option.none_or, ← Nat.add_assoc]
      exact ih _ _ hkey rfl hrest (fun _ => rfl)
    | some pr =>
      obtain ⟨p, r⟩ := pr
      obtain ⟨hdata, hle⟩ := Item.find_at hbytes hfind
      rw [WalkEntry.report, if_neg (by simp), Option.map_some, Option.some_or]
      exact ⟨rfl, rfl, hdata, by show off + p + r.data.length ≤ _; omega⟩

/-- A bound on the loops of a search through `items`. -/
def lookFuel (items : List Item) : Nat := items.length + (items.flatMap Item.recs).length + 1

theorem recs_length_lt_lookFuel {items : List Item} {it : Item} (h : it ∈ items) :
    it.recs.length < lookFuel items := by
  have hle : it.recs.length ≤ (items.flatMap Item.recs).length := by
    obtain ⟨pre, post, rfl⟩ := List.append_of_mem h
    rw [List.flatMap_append, List.flatMap_cons, List.length_append, List.length_append]
    omega
  rw [lookFuel]
  omega

/-- The bytes in front of an item, of the item and behind it. -/
theorem length_encode_items {items pre post : List Item} {it : Item}
    (h : items = pre ++ it :: post) :
    (encode (items.map Item.entry)).length = (encode (pre.map Item.entry)).length +
      (it.entry.frame.length + (encode (post.map Item.entry)).length) := by
  rw [h, List.map_append, List.map_cons, length_encode_split]

/-- The callback never looks beyond the mapping. -/
def LooksInside (f : File) (items : List Item) : Prop :=
  ∀ pre it post, items = pre ++ it :: post →
    32 + (encode (pre.map Item.entry)).length + it.reach ≤ f.len

/-- The callback looks beyond an entry only behind an empty batch, and there 32 bytes; only at the
    very end of a log can they be missing. -/
theorem looksInside_of_rep {f : File} {items : List Item}
    (hr : Rep f (encode (items.map Item.entry)))
    (hlast : ∀ it, items.getLast? = some it → it.recs = [] → word f.bytes tailOff + 32 ≤ f.len) :
    LooksInside f items := by
  intro pre it post hitems
  have hroom := hr.room
  have htail := hr.tail_eq
  have hframe := it.entry.length_frame
  have hlb := it.entry.length_bytes
  have hsz : sizeofLehdr = 136 := rfl
  have hwl : wordLength = 8 := rfl
  have hsplit := length_encode_items hitems
  unfold Item.reach
  split
  · rename_i junk fits
    rw [lenField]
    have hlen := Item.len_multiple junk [] fits
    have hzero : (batchBytes []).length = 0 := rfl
    cases post with
    | nil =>
      have hspace := hlast _ (by rw [hitems, List.getLast?_append_cons]; rfl) rfl
      have hnil : (encode (([] : List Item).map Item.entry)).length = 0 := rfl
      omega
    | cons next post =>
      have hnext := next.entry.length_frame
      rw [List.map_cons, encode_cons, List.length_append] at hsplit
      omega
  · omega

/-- The search for a key and a version through `items`, the first of which stands at `off`, stays
    inside the mapping: at every item it comes to, the callback does. -/
def SearchInside (f : File) (key : Key) (version : UInt64) : Nat → List Item → Prop
  | _, [] => True
  | off, it :: items => off + it.reach ≤ f.len ∧ (it.find (keyField key) version = none →
      SearchInside f key version (off + it.entry.frame.length) items)

/-- Only an empty batch makes the callback look beyond the entry it is called on. -/
theorem Item.reach_eq_or (it : Item) :
    it.reach = it.entry.bytes.length ∨ ∃ junk fits, it = .multiple junk [] fits := by
  unfold Item.reach
  split
  · exact Or.inr ⟨_, _, rfl⟩
  · exact Or.inl rfl

/-- **`process_chunks` on an item, against the mapping**: `lookStep`, or a fault. -/
theorem run_processChunks {f : File} {off fuel : Nat} (e : WalkEntry) (len : Nat) {it : Item}
    (hat : load f.bytes off it.entry.bytes.length = it.entry.bytes)
    (hin : off + it.entry.bytes.length ≤ f.len) (hsmall : f.len < 2 ^ 63)
    (hfuel : it.recs.length < fuel) :
    (off + it.reach ≤ f.len → f.run (processChunks fuel off len e) = .ok (lookStep off it e)) ∧
    (¬ off + it.reach ≤ f.len → f.run (processChunks fuel off len e) = .error .segv) := by
  have hmap : ∀ a ∈ Set.Iio f.len, a < f.len := fun a ha => ha
  constructor
  · intro hreach
    exact (processChunks_yields (S := Set.Iio f.len) e len hat (by omega) hfuel
      (fun i hi => show off + i < f.len by omega)).run_eq hmap
  · intro hreach
    rcases it.reach_eq_or with heq | ⟨junk, fits, rfl⟩
    · rw [heq] at hreach
      exact absurd hin hreach
    -- the `len` of the first record is read where no record is, behind the mapping
    obtain ⟨hh, _⟩ := Entry.load_ofHdr (junk.len_outer fits) hat
    have hr : Item.reach (.multiple junk [] fits) = 176 := rfl
    have hlb := (Item.multiple junk [] fits).entry.length_bytes
    have hsz : sizeofLehdr = 136 := rfl
    have htype : ofLE (load f.bytes (off + typeField) 4) = HdrType.multiple.code.toNat :=
      hh.fields.2.2.2
    have hty : f.run (Prog.loadEach (u64 (off + typeField)) 4) =
        .ok (load f.bytes (off + typeField) 4) := by
      rw [u64_of_lt (by rw [typeField]; omega), f.run_loadEach _ 3,
        if_pos (by rw [typeField]; omega)]
    unfold processChunks
    rw [f.run_bind_ok hty, htype, if_neg (by decide), if_pos rfl,
      u64_of_lt (show off + sizeofLehdr < _ by omega)]
    apply f.run_bind_error
    rw [u64_of_lt (by rw [lenField]; omega), f.run_loadWord, if_neg (by rw [lenField]; omega)]

/-- **The loop of the search, against the mapping**: the scan of `lookStep`, or a fault.  The
    induction is on the items still ahead. -/
theorem run_walkLoop_look {f : File} (key : Key) (version : UInt64) {n tail : Nat}
    (hsmall : f.len < 2 ^ 63) (htail : tail ≤ f.len) (items : List Item) :
    ∀ (off fuel : Nat) (e : WalkEntry), cStr e.key.toList = keyField key → e.version = version →
      load f.bytes off (encode (items.map Item.entry)).length = encode (items.map Item.entry) →
      tail = off + (encode (items.map Item.entry)).length → items.length < fuel →
      (∀ it ∈ items, it.recs.length < n) →
      (SearchInside f key version off items → f.run (walkLoop (processChunks n) tail fuel off e) =
        .ok (scan Item.entry lookStep off items e)) ∧
      (¬ SearchInside f key version off items →
        f.run (walkLoop (processChunks n) tail fuel off e) = .error .segv) := by
  induction items with
  | nil =>
    intro off fuel e _ _ _ hend hfuel _
    obtain ⟨fuel, rfl⟩ : ∃ k, fuel = k + 1 := ⟨fuel - 1, by omega⟩
    refine ⟨fun _ => ?_, fun h => absurd trivial h⟩
    rw [walkLoop, if_neg (by rw [hend]; exact Nat.lt_irrefl off)]
    rfl
  | cons it items ih =>
    rintro off fuel e hkey rfl hm hend hfuel hn
    obtain ⟨fuel, rfl⟩ : ∃ k, fuel = k + 1 := ⟨fuel - 1, by omega⟩
    rw [List.map_cons, encode_cons] at hm hend
    rw [List.length_append] at hend
    obtain ⟨hframe, hrest⟩ := (load_append_iff _ _ _ _).mp hm
    obtain ⟨hbytes, _⟩ := (load_append_iff _ _ _ _).mp hframe
    have hfl := it.entry.length_frame
    have hlb := it.entry.length_bytes
    have hwl : wordLength = 8 := rfl
    obtain ⟨hok, hfault⟩ := run_processChunks e it.entry.len hbytes (by omega) hsmall
      (hn it List.mem_cons_self)
    rw [walkLoop_run_round (Entry.word_len hbytes) (by omega) (by omega) (by omega), scan]
    by_cases hreach : off + it.reach ≤ f.len
    · rw [hok hreach, SearchInside, and_iff_right hreach]
      cases hfind : it.find (keyField key) e.version with
      | none =>
        rw [lookStep_of_none (by rw [hkey]; exact hfind), ← hfl,
          imp_iff_right (rfl : (none : Option (Nat × Rec)) = none)]
        exact ih (off + it.entry.frame.length) fuel { e with err := .idNotFound } hkey rfl hrest
          (by omega) (by simp only [List.length_cons] at hfuel; omega)
          (fun it' h => hn it' (List.mem_cons_of_mem _ h))
      | some pr =>
        have hstop : (lookStep off it e).2 = false :=
          lookStep_of_some (by rw [hkey]; exact hfind)
        refine ⟨fun _ => ?_, fun h => absurd (fun hnone => by cases hnone) h⟩
        show (if (lookStep off it e).2 = true then _ else _) = _
        rw [hstop, if_neg Bool.false_ne_true, if_neg Bool.false_ne_true]
    · rw [hfault hreach]
      exact ⟨fun h => absurd h.1 hreach, fun _ => rfl⟩

/-- What the callback looks at behind an item that is not the last one is mapped; behind the last one
    it is, unless that is an empty batch with fewer than 32 bytes behind it. -/
theorem reach_le_iff {f : File} {off : Nat} {it : Item} {items : List Item}
    (hroom : off + (encode ((it :: items).map Item.entry)).length ≤ f.len) :
    off + it.reach ≤ f.len ↔ (items = [] → it.recs = [] →
      off + (encode ((it :: items).map Item.entry)).length + 32 ≤ f.len) := by
  have hframe := it.entry.length_frame
  have hlb := it.entry.length_bytes
  have hsz : sizeofLehdr = 136 := rfl
  have hwl : wordLength = 8 := rfl
  rw [List.map_cons, encode_cons, List.length_append] at hroom ⊢
  rcases it.reach_eq_or with heq | ⟨junk, fits, rfl⟩
  · refine iff_of_true (by omega) (fun hnil hempty => ?_)
    -- an item without records is an empty batch
    cases it with
    | single w => cases hempty
    | multiple junk ws fits =>
      obtain rfl := List.map_eq_nil_iff.mp hempty
      have hreach : Item.reach (.multiple junk [] fits) = 176 := rfl
      have hlen : (Item.multiple junk [] fits).entry.len = 0 := Item.len_multiple junk [] fits
      omega
  · have hreach : Item.reach (.multiple junk [] fits) = 176 := rfl
    have hlen : (Item.multiple junk [] fits).entry.len = 0 := Item.len_multiple junk [] fits
    cases items with
    | nil =>
      have hnil : (encode (([] : List Item).map Item.entry)).length = 0 := rfl
      refine ⟨fun h _ _ => by omega, fun h => ?_⟩
      have hspace := h rfl rfl
      omega
    | cons next items =>
      have hnext := next.entry.length_frame
      rw [List.map_cons, encode_cons, List.length_append] at hroom
      exact iff_of_true (by omega) (fun h => by cases h)

/-- **When a search stays inside the mapping**: unless it finds nothing before it comes to an empty
    batch at the very end, with fewer than 32 mapped bytes behind it. -/
theorem searchInside_iff {f : File} {key : Key} {version : UInt64} (items : List Item) :
    ∀ off, off + (encode (items.map Item.entry)).length ≤ f.len →
      (SearchInside f key version off items ↔ (lookup key version items = none →
        ∀ it, items.getLast? = some it → it.recs = [] →
          off + (encode (items.map Item.entry)).length + 32 ≤ f.len)) := by
  induction items with
  | nil =>
    intro off _
    exact iff_of_true trivial (fun _ it h => by cases h)
  | cons it items ih =>
    intro off hroom
    have himage : off + (encode ((it :: items).map Item.entry)).length =
        off + it.entry.frame.length + (encode (items.map Item.entry)).length := by
      rw [List.map_cons, encode_cons, List.length_append, Nat.add_assoc]
    have hrest := ih (off + it.entry.frame.length) (by omega)
    rw [SearchInside, reach_le_iff hroom, hrest, lookup_cons, himage]
    cases hfind : it.find (keyField key) version with
    | some pr =>
      -- found here, in an item with records
      refine iff_of_true ⟨fun _ hempty => ?_, fun h => by cases h⟩ (fun h => by cases h)
      have hsome : it.visible.find? (Rec.matches (keyField key) version) = some pr.2 := by
        rw [← it.map_find, hfind]
        rfl
      have hmem := it.visible_subset (List.mem_of_find?_eq_some hsome)
      rw [hempty] at hmem
      cases hmem
    | none =>
      rw [Option.map_none, Option.none_or]
      cases items with
      | nil =>
        refine ⟨fun h _ it' hlast hempty => ?_, fun h => ⟨fun _ hempty => ?_, fun _ _ _ hlast => ?_⟩⟩
        · obtain rfl := Option.some.inj hlast
          exact h.1 rfl hempty
        · exact h rfl it rfl hempty
        · cases hlast
      | cons next items =>
        rw [List.getLast?_cons_cons]
        exact ⟨fun h => h.2 rfl, fun h => ⟨fun hnil => absurd hnil (List.cons_ne_nil _ _), fun _ => h⟩⟩

/-- **The search of the two getters against the mapping**: it comes to an end, or faults. -/
theorem run_walk_look {f : File} {items : List Item} (hr : Rep f (encode (items.map Item.entry)))
    (wentry : WalkEntry) {fuel : Nat} (hfuel : lookFuel items ≤ fuel) (key : Key)
    (version : UInt64) :
    (SearchInside f key version 32 items →
      f.run (walk (processChunks fuel) fuel (NvsStore.walkEntry wentry key version)) =
        .ok (walkCode (items.map Item.entry),
          scan Item.entry lookStep 32 items (NvsStore.walkEntry wentry key version))) ∧
    (¬ SearchInside f key version 32 items →
      f.run (walk (processChunks fuel) fuel (NvsStore.walkEntry wentry key version)) =
        .error .segv) := by
  cases items with
  | nil => exact ⟨fun _ => walk_empty hr _ fuel _, fun h => absurd trivial h⟩
  | cons it items =>
    have hpos : 0 < (encode ((it :: items).map Item.entry)).length := by
      rw [List.map_cons, encode_cons, List.length_append, it.entry.length_frame, wordLength]
      omega
    obtain ⟨hok, hfault⟩ := run_walkLoop_look key version hr.small hr.room (it :: items) 32 fuel
      (NvsStore.walkEntry wentry key version) (cStr_snprintfKey _ _) rfl hr.content rfl (by rw [lookFuel] at hfuel; omega)
      (fun it' h => Nat.lt_of_lt_of_le (recs_length_lt_lookFuel h) hfuel)
    rw [walk_run_loop hr hpos]
    constructor
    · intro h
      rw [hok h]
      rfl
    · intro h
      rw [hfault h]
      rfl

/-- The search of the two getters, through a log that is not faulted on: the scan of `lookStep`. -/
theorem walk_look {f : File} {items : List Item} {S : Set Nat}
    (hr : Rep f (encode (items.map Item.entry))) (wentry : WalkEntry) {fuel : Nat}
    (hfuel : lookFuel items ≤ fuel) (key : Key) (version : UInt64)
    (hS : ∀ a < f.len, a ∈ S)
    (hlook : ∀ pre it post, items = pre ++ it :: post →
      ∀ i < it.reach, 32 + (encode (pre.map Item.entry)).length + i ∈ S) :
    (walk (processChunks fuel) fuel (NvsStore.walkEntry wentry key version)).Yields S f.bytes
      (walkCode (items.map Item.entry),
        scan Item.entry lookStep 32 items (NvsStore.walkEntry wentry key version)) := by
  have hsmall := hr.small
  have hroom := hr.room
  refine walk_yields _ hr (show items.length < fuel by rw [lookFuel] at hfuel; omega)
    (fun a _ h => hS a (by omega)) ?_
  intro pre it post e hitems hat
  have hmem : it ∈ items := by
    rw [hitems]
    exact List.mem_append_right _ List.mem_cons_self
  refine processChunks_yields e _ hat ?_
    (Nat.lt_of_lt_of_le (recs_length_lt_lookFuel hmem) hfuel) (hlook pre it post hitems)
  -- the callback looks at most 40 bytes beyond the entry, and addresses are far below `2 ^ 64`
  have hend := it.reach_le
  have hsplit := length_encode_items hitems
  have hframe := it.entry.length_frame
  have hlb := it.entry.length_bytes
  omega

/-- A search that stays inside the mapping comes to an end. -/
theorem walk_inside {f : File} {items : List Item} (hr : Rep f (encode (items.map Item.entry)))
    (hlook : LooksInside f items) (wentry : WalkEntry) {fuel : Nat} (hfuel : lookFuel items ≤ fuel)
    (key : Key) (version : UInt64) :
    f.run (walk (processChunks fuel) fuel (NvsStore.walkEntry wentry key version)) =
      .ok (walkCode (items.map Item.entry),
        scan Item.entry lookStep 32 items (NvsStore.walkEntry wentry key version)) := by
  have hwalk := walk_look (S := Set.Iio f.len) hr wentry hfuel key version (fun a h => h)
    (fun pre it post hitems i hi => by
      have hin := hlook pre it post hitems
      show _ < f.len
      omega)
  exact hwalk.run_eq (fun a ha => ha)

/-- What the search through a log with entries leaves in the `walkentry`. -/
theorem found_of_scan {f : File} {items : List Item}
    (hr : Rep f (encode (items.map Item.entry))) (hne : items ≠ []) (wentry : WalkEntry) (key : Key)
    (version : UInt64) :
    Found f.bytes (32 + (encode (items.map Item.entry)).length)
      (scan Item.entry lookStep 32 items (NvsStore.walkEntry wentry key version)).1
      (lookup key version items) :=
  scan_look key version items 32 _ (cStr_snprintfKey _ _) rfl hr.content (fun h => absurd h hne)

/-- The copy of the record found. -/
theorem copy_found {f : File} {lim : Nat} {e : WalkEntry} {r : Rec} {S : Set Nat}
    (h : Found f.bytes lim e (some r)) (hS : ∀ a < lim, a ∈ S) :
    e.err = .noError ∧ (Prog.loadEach e.datap e.len : Prog Stop Byte (List Byte)).Yields S f.bytes
      r.data := by
  obtain ⟨herr, hlen, hdata, hle⟩ := h
  refine ⟨herr, ?_⟩
  rw [hlen, ← hdata, length_load]
  exact Prog.yields_loadEach (fun i hi => hS _ (by omega))

/-- What the loop over a batch yields it also yields with a larger bound. -/
theorem innerLoop_mono {S : Set Nat} {m : Mem Byte} {buf iBuf : Nat} {w : WalkEntry} :
    ∀ {fuel fuel' iHdr iData iIndex : Nat} {r : WalkEntry × Bool}, fuel ≤ fuel' →
      (innerLoop buf iBuf w fuel iHdr iData iIndex).Yields S m r →
      (innerLoop buf iBuf w fuel' iHdr iData iIndex).Yields S m r := by
  intro fuel
  induction fuel with
  | zero =>
    intro fuel' iHdr iData iIndex r _ h
    exact absurd h Prog.not_yields_fail
  | succ fuel ih =>
    intro fuel' iHdr iData iIndex r hle h
    obtain ⟨fuel', rfl⟩ : ∃ k, fuel' = k + 1 := ⟨fuel' - 1, by omega⟩
    rw [innerLoop] at h ⊢
    obtain ⟨len, hlen, h⟩ := h.of_bind
    refine Prog.Yields.bind' hlen ?_
    split
    · rename_i hlt
      rw [if_pos hlt] at h
      obtain ⟨found, hfound, h⟩ := h.of_bind
      refine Prog.Yields.bind' hfound ?_
      cases found with
      | true => exact h
      | false =>
        rw [if_neg Bool.false_ne_true] at h ⊢
        obtain ⟨iLen, hiLen, h⟩ := h.of_bind
        exact Prog.Yields.bind' hiLen (ih (by omega) h)
    · rename_i hge
      rw [if_neg hge] at h
      exact h

/-- So does the callback. -/
theorem processChunks_mono {S : Set Nat} {m : Mem Byte} {fuel fuel' : Nat} (hle : fuel ≤ fuel')
    (buf len : Nat) (w : WalkEntry) (r : WalkEntry × Bool)
    (h : (processChunks fuel buf len w).Yields S m r) :
    (processChunks fuel' buf len w).Yields S m r := by
  unfold processChunks at h ⊢
  obtain ⟨type, htype, h⟩ := h.of_bind
  refine Prog.Yields.bind' htype ?_
  split
  · rename_i hsingle
    rw [if_pos hsingle] at h
    exact h
  · rename_i hsingle
    rw [if_neg hsingle] at h
    split
    · rename_i hmultiple
      rw [if_pos hmultiple] at h
      obtain ⟨iLen, hiLen, h⟩ := h.of_bind
      exact Prog.Yields.bind' hiLen (innerLoop_mono hle h)
    · rename_i hmultiple
      rw [if_neg hmultiple] at h
      exact h

/-- A search that came to an end, whatever the bounds of its loops, and also when it could have run
    off the mapping: its code, and what it left in the `walkentry` of a log with entries. -/
theorem found_of_walk {f : File} {items : List Item}
    (hr : Rep f (encode (items.map Item.entry))) {wentry w : WalkEntry} {fuel : Nat} {key : Key}
    {version : UInt64} {code : ErrorCode} {cursor : Nat}
    (h : f.run (walk (processChunks fuel) fuel (NvsStore.walkEntry wentry key version)) =
      .ok (code, w, cursor)) :
    code = walkCode (items.map Item.entry) ∧ (items ≠ [] →
      Found f.bytes (32 + (encode (items.map Item.entry)).length) w (lookup key version items)) := by
  have hle : fuel ≤ fuel + lookFuel items := Nat.le_add_right _ _
  -- with larger bounds it yields the same, and with those we know what it yields
  have hend := walk_mono (processChunks_mono hle) hle (Prog.yields_of_run h)
  have hwalk := walk_look (S := Set.univ) hr wentry (Nat.le_add_left (lookFuel items) fuel) key
    version (fun _ _ => trivial) (fun _ _ _ _ _ _ => trivial)
  obtain ⟨hcode, hw⟩ := Prod.mk.inj (hend.unique hwalk)
  refine ⟨hcode, fun hne => ?_⟩
  rw [(Prod.mk.inj hw).1]
  exact found_of_scan hr hne wentry key version

/-- The record found can be copied without leaving the mapping. -/
theorem run_copy_found {f : File} {body : List Byte} {e : WalkEntry} {r : Rec} (hr : Rep f body)
    (h : Found f.bytes (32 + body.length) e (some r)) :
    e.err = .noError ∧ f.run (Prog.loadEach e.datap e.len) = .ok r.data := by
  have hroom := hr.room
  obtain ⟨herr, hdata⟩ := copy_found (S := Set.Iio f.len) h
    (fun a ha => show a < f.len by omega)
  exact ⟨herr, hdata.run_eq (fun a ha => ha)⟩

/-- `get` on an empty log finds nothing. -/
theorem NvsStore.get_empty {s : NvsStore} (hr : Rep s.file []) (w : WalkEntry) (fuel : Nat)
    (key : Key) (version : UInt64) (dst : Nat) :
    s.get w fuel key version dst = .ok (.idNotFound, s) := by
  rw [NvsStore.get, walk_empty hr]
  rfl

/-- **What `get` does once its search has come to an end**: it copies out the data of the first
    visible record that answers the query, or reports `ID_NOT_FOUND` and changes nothing. -/
theorem NvsStore.get_of_walk {s : NvsStore} {items : List Item}
    (hr : Rep s.file (encode (items.map Item.entry))) {wentry : WalkEntry} {fuel : Nat} {key : Key}
    {version : UInt64} {r : ErrorCode × WalkEntry × Nat}
    (hrun : s.file.run (walk (processChunks fuel) fuel (walkEntry wentry key version)) = .ok r)
    (dst : Nat) :
    s.get wentry fuel key version dst = .ok ((lookup key version items).elim (.idNotFound, s)
      (fun r => (.noError, { s with heap := store s.heap dst r.data }))) := by
  obtain ⟨code, w, cursor⟩ := r
  obtain ⟨rfl, hfound⟩ := found_of_walk hr hrun
  cases items with
  | nil => exact NvsStore.get_empty hr wentry fuel key version dst
  | cons it items =>
    have hfound := hfound (List.cons_ne_nil _ _)
    have hcode : walkCode ((it :: items).map Item.entry) = .noError := rfl
    rw [hcode] at hrun
    unfold NvsStore.get
    simp only [hrun]
    rw [if_neg (fun h => h rfl)]
    cases hlk : lookup key version (it :: items) with
    | none =>
      rw [hlk] at hfound
      have herr : w.err = .idNotFound := hfound
      rw [herr, if_pos (by decide)]
      rfl
    | some r =>
      rw [hlk] at hfound
      obtain ⟨herr, hcopy⟩ := run_copy_found hr hfound
      rw [herr, if_neg (fun h => h rfl), hcopy]
      rfl

/-- **`NVSStore::get`**, where the search stays inside the mapping. -/
theorem NvsStore.get_eq {s : NvsStore} {items : List Item}
    (hr : Rep s.file (encode (items.map Item.entry))) (hlook : LooksInside s.file items)
    (wentry : WalkEntry) {fuel : Nat} (hfuel : lookFuel items ≤ fuel) (key : Key)
    (version : UInt64) (dst : Nat) :
    s.get wentry fuel key version dst =
      match lookup key version items with
      | some r => .ok (.noError, { s with heap := store s.heap dst r.data })
      | none => .ok (.idNotFound, s) := by
  refine (NvsStore.get_of_walk hr (walk_inside hr hlook wentry hfuel key version) dst).trans
    ?_
  cases lookup key version items <;> rfl

/-- The buffer `get_with_malloc` copies into. -/
def NvsStore.targetOf (s : NvsStore) (key : Key) (tmpPtr : Nat) : Nat :=
  match s.objectMap.find? key with
  | some obj => obj.ptr
  | none => tmpPtr

/-- The object `get_with_malloc` has filed when it copied `n` bytes: the one it found, or a new one
    of that size. -/
def NvsStore.loaded (s : NvsStore) (key : Key) (version : UInt64) (tmpPtr n : Nat) : Object :=
  ((s.objectMap.find? key).getD (Object.ctor key (UInt64.ofNat n) version tmpPtr)).setVersion
    version

/-- **What `get_with_malloc` does once its search through a log with entries has come to an end.**
    (On an empty log the callback is never called, and whether the call succeeds depends on junk.) -/
theorem NvsStore.getWithMalloc_of_walk {s : NvsStore} {items : List Item}
    (hr : Rep s.file (encode (items.map Item.entry))) (hne : items ≠ []) {wentry : WalkEntry}
    {fuel : Nat} {key : Key} {version : UInt64} {r : ErrorCode × WalkEntry × Nat}
    (hrun : s.file.run (walk (processChunks fuel) fuel (walkEntry wentry key version)) = .ok r)
    (tmpPtr : Nat) :
    s.getWithMalloc wentry fuel key version tmpPtr =
      .ok ((lookup key version items).elim (.idNotFound, none, s)
        (fun r => (.noError, some (s.targetOf key tmpPtr), { s with
          heap := store s.heap (s.targetOf key tmpPtr) r.data
          objectMap := s.objectMap.insert key
            (s.loaded key version tmpPtr r.data.length) }))) := by
  obtain ⟨code, w, cursor⟩ := r
  obtain ⟨_, hfound⟩ := found_of_walk hr hrun
  have hfound := hfound hne
  unfold NvsStore.getWithMalloc
  simp only [hrun]
  cases hlk : lookup key version items with
  | none =>
    rw [hlk] at hfound
    have herr : w.err = .idNotFound := hfound
    rw [herr, if_pos (by decide)]
    rfl
  | some r =>
    rw [hlk] at hfound
    obtain ⟨herr, hcopy⟩ := run_copy_found hr hfound
    have hlen : w.len = r.data.length := hfound.2.1
    rw [herr, if_neg (fun h => h rfl), hcopy, hlen]
    unfold NvsStore.targetOf NvsStore.loaded
    cases s.objectMap.find? key <;> rfl

/-- **Where the search leaves the mapping, both getters fault.** -/
theorem NvsStore.getters_outside {s : NvsStore} {items : List Item} {key : Key} {version : UInt64}
    (hr : Rep s.file (encode (items.map Item.entry)))
    (hout : ¬ SearchInside s.file key version 32 items) (wentry : WalkEntry) {fuel : Nat}
    (hfuel : lookFuel items ≤ fuel) (addr : Nat) :
    s.get wentry fuel key version addr = .error .segv ∧
      s.getWithMalloc wentry fuel key version addr = .error .segv := by
  have hrun := (run_walk_look hr wentry hfuel key version).2 hout
  constructor
  · unfold NvsStore.get
    rw [hrun]
  · unfold NvsStore.getWithMalloc
    rw [hrun]

/-- So a `get` that comes back has stayed inside. -/
theorem NvsStore.searchInside_of_get {s : NvsStore} {items : List Item} {key : Key}
    {version : UInt64} (hr : Rep s.file (encode (items.map Item.entry))) (wentry : WalkEntry)
    (addr N : Nat) (h : ∀ fuel ≥ N, ∃ r, s.get wentry fuel key version addr = .ok r) :
    SearchInside s.file key version 32 items := by
  by_contra hout
  obtain ⟨r, hget⟩ := h _ (Nat.le_max_left N (lookFuel items))
  have hfault := NvsStore.getters_outside hr hout wentry (Nat.le_max_right N (lookFuel items)) addr
  rw [hfault.1] at hget
  cases hget

/-- The number of bytes `get_with_malloc` copies, if its search reports a record. -/
def NvsStore.copyLen (s : NvsStore) (wentry : WalkEntry) (fuel : Nat) (key : Key)
    (version : UInt64) : Option Nat :=
  match s.file.run (walk (processChunks fuel) fuel (walkEntry wentry key version)) with
  | .error _ => none
  | .ok (_, w, _) => if w.err ≠ .noError then none else some w.len

/-- The one way `get_with_malloc` comes back: it has found nothing and changed nothing, or it has
    copied `copyLen` bytes into the object it found or made. -/
theorem NvsStore.getWithMalloc_cases {s s' : NvsStore} {wentry : WalkEntry} {fuel tmpPtr : Nat}
    {key : Key} {version : UInt64} {code : ErrorCode} {addr : Option Nat}
    (h : s.getWithMalloc wentry fuel key version tmpPtr = .ok (code, addr, s')) :
    (s.copyLen wentry fuel key version = none ∧ code = .idNotFound ∧ addr = none ∧ s' = s) ∨
    ∃ data, s.copyLen wentry fuel key version = some data.length ∧ code = .noError ∧
      addr = some (s.targetOf key tmpPtr) ∧ s' = { s with
        heap := store s.heap (s.targetOf key tmpPtr) data
        objectMap := s.objectMap.insert key (s.loaded key version tmpPtr data.length) } := by
  unfold NvsStore.getWithMalloc at h
  split at h
  · cases h
  · rename_i code' w cursor hrun
    split at h
    · rename_i herr
      have hnone : s.copyLen wentry fuel key version = none := by
        unfold NvsStore.copyLen
        simp only [hrun, if_pos herr]
      cases h
      exact Or.inl ⟨hnone, rfl, rfl, rfl⟩
    · rename_i herr
      simp only at h
      split at h
      · cases h
      · rename_i data hcopy
        have hlen : data.length = w.len := by
          have hdata : (Prog.loadEach w.datap w.len : Prog Stop Byte (List Byte)).Yields Set.univ
            s.file.bytes (load s.file.bytes w.datap w.len) :=
              Prog.yields_loadEach (fun _ _ => trivial)
          rw [hdata.eq_of_run hcopy, length_load]
        have hcopied : s.copyLen wentry fuel key version = some data.length := by
          unfold NvsStore.copyLen
          simp only [hrun, if_neg herr, hlen]
        cases h
        refine Or.inr ⟨data, hcopied, rfl, ?_⟩
        rw [hlen]
        unfold NvsStore.targetOf NvsStore.loaded
        cases s.objectMap.find? key <;> exact ⟨rfl, rfl⟩

/-- A getter that has returned has come to the end of its search. -/
theorem NvsStore.walk_of_get {s : NvsStore} {wentry : WalkEntry} {fuel : Nat} {key : Key}
    {version : UInt64} {dst : Nat} {a : ErrorCode × NvsStore}
    (h : s.get wentry fuel key version dst = .ok a) :
    ∃ r, s.file.run (walk (processChunks fuel) fuel (walkEntry wentry key version)) = .ok r := by
  unfold NvsStore.get at h
  split at h
  · cases h
  · rename_i hrun
    exact ⟨_, hrun⟩

theorem NvsStore.walk_of_getWithMalloc {s : NvsStore} {wentry : WalkEntry} {fuel : Nat} {key : Key}
    {version : UInt64} {tmpPtr : Nat} {a : ErrorCode × Option Nat × NvsStore}
    (h : s.getWithMalloc wentry fuel key version tmpPtr = .ok a) :
    ∃ r, s.file.run (walk (processChunks fuel) fuel (walkEntry wentry key version)) = .ok r := by
  unfold NvsStore.getWithMalloc at h
  split at h
  · cases h
  · rename_i hrun
    exact ⟨_, hrun⟩

/-- A `get` that returned `NO_ERROR` has copied a record that answers the query, also when the search
    could have run off the mapping. -/
theorem NvsStore.lookup_of_get {s s' : NvsStore} {items : List Item}
    (hr : Rep s.file (encode (items.map Item.entry))) {wentry : WalkEntry} {fuel : Nat} {key : Key}
    {version : UInt64} {dst : Nat} (h : s.get wentry fuel key version dst = .ok (.noError, s')) :
    ∃ r, lookup key version items = some r ∧ s' = { s with heap := store s.heap dst r.data } := by
  obtain ⟨_, hrun⟩ := NvsStore.walk_of_get h
  rw [NvsStore.get_of_walk hr hrun] at h
  cases hlk : lookup key version items with
  | none =>
    rw [hlk] at h
    cases h
  | some r =>
    rw [hlk] at h
    cases h
    exact ⟨r, rfl, rfl⟩

/-- So has a `get_with_malloc` on a log with entries. -/
theorem NvsStore.lookup_of_getWithMalloc {s s' : NvsStore} {items : List Item}
    (hr : Rep s.file (encode (items.map Item.entry))) (hne : items ≠ []) {wentry : WalkEntry}
    {fuel : Nat} {key : Key} {version : UInt64} {tmpPtr : Nat} {addr : Option Nat}
    (h : s.getWithMalloc wentry fuel key version tmpPtr = .ok (.noError, addr, s')) :
    ∃ r, lookup key version items = some r ∧ addr = some (s.targetOf key tmpPtr) ∧
      s'.heap = store s.heap (s.targetOf key tmpPtr) r.data := by
  obtain ⟨_, hrun⟩ := NvsStore.walk_of_getWithMalloc h
  rw [NvsStore.getWithMalloc_of_walk hr hne hrun] at h
  cases hlk : lookup key version items with
  | none =>
    rw [hlk] at h
    cases h
  | some r =>
    rw [hlk] at h
    cases h
    exact ⟨r, rfl, rfl, rfl⟩

end NvStream
