/-
  Dirty-page tracking: which updates the bits of a `DeltaStore` remember.

  Three things move together: the protection of a page, its bit, and whether the memory in it still is
  what the last snapshot wrote.  The coupling is one line per page (`Object.Tracks`):

      the page is read-only EXACTLY WHEN its bit is unset, and a page with an unset bit holds the
      bytes of the last snapshot.

  Every operation keeps it (`Step.inv`), with one exception.  `delta_handler` makes the faulting page
  writable and then calls `set_modified_bit`, whose test `page_index > 0` refuses page 0: a write to
  a protected FIRST page leaves it writable and unmarked.  `Gentle` excludes exactly that write, and
  `dirty_pages_no_loss` says both halves: without such a write no update is lost, and the first such
  write that changes a byte loses it.

  The handler looks for the object by `offset <= aligned_size`, one address too far.  The extra
  address is the first byte of a page behind the object, so for an address past a first page the
  object it finds is the right one (`belongs_unique`).
-/
import NvStream.DeltaStore.Entries
import Mathlib.Logic.Relation
import Mathlib.Logic.Function.Basic

namespace NvStream

open FlatMem LittleEndian BitRuns

/-! ## Pages of objects -/

namespace Object

/-- The page of the process that bit `j` of the object stands for. -/
def page (o : Object) (j : Nat) : Nat := pageOf o.ptr + j

/-- The blocks of the two objects do not meet. -/
def Apart (o o' : Object) : Prop :=
  o.ptr + o.alignedSize ≤ o'.ptr ∨ o'.ptr + o'.alignedSize ≤ o.ptr

theorem Apart.symm {o o' : Object} (h : o.Apart o') : o'.Apart o := Or.symm h

section
variable {o o' : Object}

theorem pageOf_byte (ho : o.Placed) (i : Nat) : pageOf (o.ptr + i) = o.page (i / pageSize) := by
  have hb := ho.boundary
  unfold page pageOf
  unfold pageSize at hb ⊢
  omega

/-- Objects that are apart share no page. -/
theorem page_ne (ho : o.Placed) (ho' : o'.Placed) (h : o.Apart o') {j j' : Nat}
    (hj : j < o.bitset.length) (hj' : j' < o'.bitset.length) : o.page j ≠ o'.page j' := by
  have hb := ho.boundary
  have hb' := ho'.boundary
  have ha := ho.aligned
  have ha' := ho'.aligned
  unfold page pageOf
  unfold Apart at h
  unfold pageSize at hb hb' ha ha' ⊢
  omega

/-- What `enable_write_protection` protects: the pages of the object. -/
theorem enableWriteProtection_iff (ho : o.Placed) (ro : Nat → Bool) (p : Nat) :
    enableWriteProtection o.ptr o.alignedSize ro p = true ↔
      ro p = true ∨ ∃ j < o.bitset.length, p = o.page j := by
  have hb := ho.boundary
  have ha := ho.aligned
  unfold enableWriteProtection page pageOf
  unfold pageSize at hb ha ⊢
  rw [Bool.or_eq_true, Bool.and_eq_true, decide_eq_true_iff, decide_eq_true_iff]
  refine or_congr Iff.rfl ⟨?_, ?_⟩
  · rintro ⟨h1, h2⟩
    exact ⟨p - o.ptr / 4096, by omega, by omega⟩
  · rintro ⟨j, hj, rfl⟩
    omega

/-- `set_modified_bit` never marks the first page. -/
theorem first_setModifiedBit (o : Object) (j : Nat) :
    (o.setModifiedBit j).bitset[0]? = o.bitset[0]? := by
  unfold setModifiedBit
  split
  · rename_i h
    exact List.getElem?_set_ne (by omega)
  · rfl

theorem sameFrame_setModifiedBit (o : Object) (j : Nat) : o.SameFrame (o.setModifiedBit j) := by
  unfold setModifiedBit
  split
  · exact ⟨rfl, rfl, rfl, List.length_set⟩
  · exact .rfl

end

end Object

theorem disableProtection_self (addr : Nat) (ro : Nat → Bool) :
    disableProtection addr ro (pageOf addr) = false := if_pos rfl

theorem disableProtection_of_ne {addr page : Nat} (h : page ≠ pageOf addr) (ro : Nat → Bool) :
    disableProtection addr ro page = ro page := if_neg h

/-- `put_all` protects the pages of all objects. -/
theorem enableWriteProtection_all {objs : List Object} (h : ∀ o ∈ objs, o.Placed)
    (ro : Nat → Bool) (p : Nat) :
    objs.foldl (fun ro o => enableWriteProtection o.ptr o.alignedSize ro) ro p = true ↔
      ro p = true ∨ ∃ o ∈ objs, ∃ j < o.bitset.length, p = o.page j := by
  induction objs generalizing ro with
  | nil => simp
  | cons o os ih =>
    rw [List.foldl_cons, ih (fun o ho => h o (List.mem_cons_of_mem _ ho)),
      Object.enableWriteProtection_iff (h o List.mem_cons_self), or_assoc]
    refine or_congr Iff.rfl ⟨?_, ?_⟩
    · rintro (hj | ⟨o', ho', hj⟩)
      · exact ⟨o, List.mem_cons_self, hj⟩
      · exact ⟨o', List.mem_cons_of_mem _ ho', hj⟩
    · rintro ⟨o', ho', hj⟩
      rcases List.mem_cons.mp ho' with rfl | ho'
      · exact Or.inl hj
      · exact Or.inr ⟨o', ho', hj⟩

/-! ## A write -/

namespace DeltaStore

/-- The store after a write that faulted, if the handler found the object `q`. -/
def faulted (s : DeltaStore) (q : Key × Object) (addr : Nat) (b : Byte) : DeltaStore :=
  { s with
    readOnly := disableProtection addr s.readOnly
    objectMap := s.objectMap.modify q.1 (fun o =>
      o.setModifiedBit (u64 (addr + 2 ^ 64 - q.2.ptr) / 2 ^ 12))
    heap := store s.heap addr [b] }

section
variable {s : DeltaStore} {k : Key} {o : Object} {i : Nat}

/-- The offset the handler computes for a byte of the object. -/
theorem offset_byte (ho : o.Placed) (hi : i < o.size.toNat) :
    u64 (o.ptr + i + 2 ^ 64 - o.ptr) = i := by
  have h1 := ho.covers
  have h2 := ho.small
  unfold u64
  omega

/-- **A write to a byte of an object completes.**  To a writable page it runs nothing. -/
theorem write_writable {addr : Nat} (hro : s.readOnly (pageOf addr) = false) (b : Byte) :
    s.write addr b = .ok { s with heap := store s.heap addr [b] } := by
  unfold write
  rw [if_neg (by rw [hro]; exact Bool.false_ne_true)]

/-- To a read-only page it runs the handler, which finds some object and unprotects the page. -/
theorem write_readOnly (ho : o.Placed) (hmem : (k, o) ∈ s.objectMap.entries)
    (hi : i < o.size.toNat) (hro : s.readOnly (pageOf (o.ptr + i)) = true) (b : Byte) :
    ∃ q ∈ s.objectMap.entries, belongs (o.ptr + i) q.2 = true ∧
      s.write (o.ptr + i) b = .ok (s.faulted q (o.ptr + i) b) := by
  have hnonnull := ho.nonnull (by omega)
  have hcovers := ho.covers
  have hself : belongs (o.ptr + i) o = true := by
    rw [belongs, offset_byte ho hi, decide_eq_true_iff]
    omega
  cases hfind : s.objectMap.entries.find? (fun p => belongs (o.ptr + i) p.2) with
  | none => exact absurd hself (List.find?_eq_none.mp hfind (k, o) hmem)
  | some q =>
    have hq : belongs (o.ptr + i) q.2 = true := (List.find?_some hfind :)
    refine ⟨q, List.mem_of_find?_eq_some hfind, hq, ?_⟩
    have hopen := disableProtection_self (o.ptr + i) s.readOnly
    have hhandler : s.deltaHandler (o.ptr + i) = .ok { s with
        readOnly := disableProtection (o.ptr + i) s.readOnly
        objectMap := s.objectMap.modify q.1 (fun x =>
          x.setModifiedBit (u64 (o.ptr + i + 2 ^ 64 - q.2.ptr) / 2 ^ 12)) } := by
      unfold deltaHandler
      rw [if_pos (by omega), hfind]
    unfold write
    rw [if_pos hro, hhandler]
    simp only [hopen, Bool.false_eq_true, if_false]
    rfl

/-- A store into a read-only page of the only object. -/
theorem write_page (ho : o.Placed) (hmap : s.objectMap.entries = [(k, o)]) {j : Nat}
    (hj : j * pageSize < o.size.toNat) (hro : s.readOnly (o.page j) = true) (b : Byte) :
    ∃ s', s.write (o.ptr + j * pageSize) b = .ok s' ∧
      s'.objectMap.entries = [(k, o.setModifiedBit j)] ∧
      (∀ i ≠ j, s'.readOnly (o.page i) = s.readOnly (o.page i)) ∧
      s'.heap = store s.heap (o.ptr + j * pageSize) [b] ∧ s'.log = s.log ∧ s'.file = s.file := by
  have hpage : pageOf (o.ptr + j * pageSize) = o.page j := by
    rw [Object.pageOf_byte ho, Nat.mul_div_cancel _ (by decide)]
  have hmem : (k, o) ∈ s.objectMap.entries := by
    rw [hmap]
    exact List.mem_singleton.mpr rfl
  obtain ⟨q, hq, _, hwrite⟩ := write_readOnly ho hmem hj (by rw [hpage]; exact hro) b
  rw [hmap, List.mem_singleton] at hq
  subst hq
  refine ⟨_, hwrite, ?_, fun i hi => ?_, rfl, rfl, rfl⟩
  · have hidx : u64 (o.ptr + j * pageSize + 2 ^ 64 - o.ptr) / 2 ^ 12 = j := by
      rw [offset_byte ho hj]
      exact Nat.mul_div_cancel _ (by decide)
    show (s.objectMap.modify k _).entries = _
    rw [hidx]
    exact SortedMap.modify_of_singleton hmap _
  · refine disableProtection_of_ne ?_ _
    rw [hpage]
    unfold Object.page
    omega

end

end DeltaStore

/-! ## Runs -/

/-- A store, and the memory at the last successful `put` or `put_all` of each object. -/
structure Tracked where
  store : DeltaStore
  saved : Key → Option (Mem Byte)

/-- The page is read-only exactly when its bit is unset, and then it holds the bytes of the last
    snapshot. -/
def PageTracks (heap : Mem Byte) (readOnly : Nat → Bool) (saved : Option (Mem Byte)) (page : Nat)
    (bit : Bool) : Prop :=
  readOnly page = !bit ∧ (bit = false → ∃ m, saved = some m ∧ ∀ a, pageOf a = page → heap a = m a)

/-- Every page of the object is tracked by its bit. -/
def Object.Tracks (heap : Mem Byte) (readOnly : Nat → Bool) (saved : Option (Mem Byte))
    (o : Object) : Prop :=
  ∀ j bit, o.bitset[j]? = some bit → PageTracks heap readOnly saved (o.page j) bit

/-- A write into another page leaves the page as it is. -/
theorem PageTracks.store {heap : Mem Byte} {ro ro' : Nat → Bool} {saved : Option (Mem Byte)}
    {page addr : Nat} {bit : Bool} (h : PageTracks heap ro saved page bit)
    (hpage : bit = false → pageOf addr ≠ page) (hro : ro' page = ro page) (b : Byte) :
    PageTracks (FlatMem.store heap addr [b]) ro' saved page bit := by
  refine ⟨hro.trans h.1, fun hbit => ?_⟩
  obtain ⟨m, hm, heq⟩ := h.2 hbit
  refine ⟨m, hm, fun a ha => ?_⟩
  have hne : a ≠ addr := by
    rintro rfl
    exact hpage hbit ha
  rw [store_out _ _ _ (by simp only [List.length_singleton]; omega)]
  exact heq a ha

/-- So does a fault in another page. -/
theorem PageTracks.fault {heap : Mem Byte} {ro : Nat → Bool} {saved : Option (Mem Byte)}
    {page addr : Nat} {bit : Bool} (h : PageTracks heap ro saved page bit)
    (hne : page ≠ pageOf addr) (b : Byte) :
    PageTracks (FlatMem.store heap addr [b]) (disableProtection addr ro) saved page bit :=
  h.store (fun _ hpage => hne hpage.symm) (disableProtection_of_ne hne ro) b

/-- A snapshot protects the page and resets its bit. -/
theorem PageTracks.snapshot (heap : Mem Byte) {ro : Nat → Bool} {page : Nat}
    (hro : ro page = true) : PageTracks heap ro (some heap) page false :=
  ⟨hro, fun _ => ⟨heap, rfl, fun _ _ => rfl⟩⟩

/-- A write past the first page of the object marks the page that it makes writable. -/
theorem Object.Tracks.marked {heap : Mem Byte} {ro : Nat → Bool} {saved : Option (Mem Byte)}
    {o : Object} (h : o.Tracks heap ro saved) (ho : o.Placed) {i : Nat} (hlt : i < o.size.toNat)
    (hpast : pageSize ≤ i) (b : Byte) :
    (o.setModifiedBit (i / pageSize)).Tracks (FlatMem.store heap (o.ptr + i) [b])
      (disableProtection (o.ptr + i) ro) saved := by
  have hj := Object.page_lt ho.toPaged hlt
  have hpage := Object.pageOf_byte ho i
  rw [show o.setModifiedBit (i / pageSize) =
    { o with bitset := o.bitset.set (i / pageSize) true } from
      if_pos ⟨Nat.div_pos hpast (by decide), hj⟩]
  intro j bit hbit
  by_cases hji : j = i / pageSize
  · subst hji
    obtain rfl : true = bit := by
      rw [List.getElem?_set_self hj] at hbit
      exact Option.some.inj hbit
    refine ⟨?_, fun h => absurd h (by decide)⟩
    show disableProtection (o.ptr + i) ro (o.page (i / pageSize)) = false
    rw [← hpage]
    exact disableProtection_self _ _
  · have hold : o.bitset[j]? = some bit := by
      rw [List.getElem?_set_ne (fun h => hji h.symm)] at hbit
      exact hbit
    refine (h j bit hold).fault ?_ b
    rw [hpage]
    unfold Object.page
    omega

namespace Tracked

/-- Every byte that differs from its value at the object's last snapshot, and every byte of an object
    that has none, lies in a page whose bit is set, and so in a chunk. -/
def NoLoss (T : Tracked) : Prop :=
  ∀ p ∈ T.store.objectMap.entries, ∀ i < p.2.size.toNat,
    (∀ m, T.saved p.1 = some m → T.store.heap (p.2.ptr + i) ≠ m (p.2.ptr + i)) →
      p.2.bitset[i / pageSize]? = some true ∧ Covers (p.2.getDeltaChunks.map Delta.interval) i

/-- The write at offset `i` of the object does not meet a protected first page. -/
def Gentle (s : DeltaStore) (o : Object) (i : Nat) : Prop :=
  s.readOnly (pageOf (o.ptr + i)) = true → pageSize ≤ i

/-- One call, or one store of the application into a live object.  `ok` restricts the stores. -/
inductive Step (ok : DeltaStore → Object → Nat → Prop) : Tracked → Tracked → Prop
  | createObj {T : Tracked} {code : ErrorCode} {addr : Nat} {s' : DeltaStore} (key : Key)
      (size : UInt64) (tmpPtr : Nat) (halloc : T.store.Allocated size tmpPtr)
      (h : T.store.createObj key size tmpPtr = .ok (code, addr, s')) :
      Step ok T ⟨s', Function.update T.saved key none⟩
  | write {T : Tracked} {k : Key} {o : Object} {i : Nat} {s' : DeltaStore} (b : Byte)
      (hmem : (k, o) ∈ T.store.objectMap.entries) (hi : i < o.size.toNat) (hok : ok T.store o i)
      (h : T.store.write (o.ptr + i) b = .ok s') : Step ok T ⟨s', T.saved⟩
  | put {T : Tracked} {n : Nat} {s' : DeltaStore} (junk : LeHdr) (key : Key) (version : UInt64)
      (h : T.store.put junk key version = .ok (.inr (n, s'))) :
      Step ok T ⟨s', Function.update T.saved key (some T.store.heap)⟩
  | putAll {T : Tracked} {n : Nat} {s' : DeltaStore} (junk : Nat → LeHdr)
      (h : T.store.putAll junk = .ok (n, s')) : Step ok T ⟨s', fun _ => some T.store.heap⟩

/-- A new store. -/
def start (l : Log) (f : File) (heap : Mem Byte) : Tracked :=
  ⟨DeltaStore.ctor l f heap, fun _ => none⟩

/-- The objects have blocks of their own, only their pages are protected, and the bits of each track
    its pages. -/
structure Inv (T : Tracked) : Prop where
  placed : ∀ p ∈ T.store.objectMap.entries, p.2.Placed
  apart : ∀ p ∈ T.store.objectMap.entries, ∀ q ∈ T.store.objectMap.entries,
    p.1 ≠ q.1 → p.2.Apart q.2
  owned : ∀ page, T.store.readOnly page = true →
    ∃ p ∈ T.store.objectMap.entries, ∃ j < p.2.bitset.length, page = p.2.page j
  tracks : ∀ p ∈ T.store.objectMap.entries,
    p.2.Tracks T.store.heap T.store.readOnly (T.saved p.1)

variable {T T' : Tracked}

/-- Steps that keep the frames of the objects keep the first three parts of the invariant. -/
theorem Inv.mapVal (hi : T.Inv) {s' : DeltaStore} {saved' : Key → Option (Mem Byte)}
    (g : Key → Object → Object) (hmap : s'.objectMap = T.store.objectMap.mapVal g)
    (hframe : ∀ p ∈ T.store.objectMap.entries, p.2.SameFrame (g p.1 p.2))
    (howned : ∀ page, s'.readOnly page = true →
      ∃ p ∈ T.store.objectMap.entries, ∃ j < p.2.bitset.length, page = p.2.page j)
    (htracks : ∀ p ∈ T.store.objectMap.entries,
      (g p.1 p.2).Tracks s'.heap s'.readOnly (saved' p.1)) : Inv ⟨s', saved'⟩ := by
  have hmem : ∀ p : Key × Object, p ∈ s'.objectMap.entries →
      ∃ o, (p.1, o) ∈ T.store.objectMap.entries ∧ p.2 = g p.1 o := by
    intro p hp
    rw [hmap, SortedMap.mem_mapVal] at hp
    exact hp
  refine ⟨?_, ?_, ?_, ?_⟩
  · intro p hp
    obtain ⟨o, ho, hpo⟩ := hmem p hp
    rw [hpo]
    exact (hi.placed _ ho).of_sameFrame (hframe _ ho)
  · intro p hp q hq hne
    obtain ⟨o, ho, hpo⟩ := hmem p hp
    obtain ⟨o', ho', hqo⟩ := hmem q hq
    have h := hi.apart _ ho _ ho' hne
    have hf := hframe _ ho
    have hf' := hframe _ ho'
    rw [hpo, hqo]
    unfold Object.Apart at h ⊢
    rw [hf.ptr, hf.alignedSize, hf'.ptr, hf'.alignedSize]
    exact h
  · intro page hpage
    obtain ⟨p, hp, j, hj, hpj⟩ := howned page hpage
    have hf := hframe p hp
    refine ⟨(p.1, g p.1 p.2), ?_, j, by rw [hf.length]; exact hj, ?_⟩
    · rw [hmap, SortedMap.mem_mapVal]
      exact ⟨p.2, hp, rfl⟩
    · rw [hpj, Object.page, Object.page, hf.ptr]
  · intro p hp
    obtain ⟨o, ho, hpo⟩ := hmem p hp
    rw [hpo]
    exact htracks _ ho

/-- The invariant is what the property needs. -/
theorem Inv.noLoss (hi : T.Inv) : T.NoLoss := by
  intro p hp i hlt hdiff
  have hplaced := hi.placed p hp
  have hbit : p.2.bitset[i / pageSize]? = some true := by
    have hj := Object.page_lt hplaced.toPaged hlt
    cases hb : p.2.bitset[i / pageSize] with
    | true => rw [List.getElem?_eq_getElem hj, hb]
    | false =>
      obtain ⟨_, hclean⟩ := hi.tracks p hp _ false (by rw [List.getElem?_eq_getElem hj, hb])
      obtain ⟨m, hm, heq⟩ := hclean rfl
      exact absurd (heq _ (Object.pageOf_byte hplaced i)) (hdiff m hm)
  exact ⟨hbit, (Object.covers_getDeltaChunks hplaced.toPaged.sized i).mpr ⟨hlt, hbit⟩⟩

/-! ### One step -/

theorem Inv.createObj (hi : T.Inv) {code : ErrorCode} {addr : Nat} {s' : DeltaStore} {key : Key}
    {size : UInt64} {tmpPtr : Nat} (halloc : T.store.Allocated size tmpPtr)
    (h : T.store.createObj key size tmpPtr = .ok (code, addr, s')) :
    Inv ⟨s', Function.update T.saved key none⟩ := by
  obtain ⟨hfind, hnew, rfl⟩ := DeltaStore.createObj_eq halloc h
  have hold : ∀ p ∈ T.store.objectMap.entries, p.1 ≠ key := by
    rintro ⟨k, o⟩ hp rfl
    exact (SortedMap.find?_eq_none _ _).mp hfind o hp
  have hapart : ∀ p ∈ T.store.objectMap.entries,
      (Object.ctorDelta key size 0 tmpPtr).Apart p.2 := halloc.fresh
  refine ⟨?_, ?_, ?_, ?_⟩
  · intro p hp
    rcases (SortedMap.mem_insert _ _ _ _).mp hp with rfl | ⟨hp, _⟩
    · exact hnew
    · exact hi.placed p hp
  · intro p hp q hq hne
    rcases (SortedMap.mem_insert _ _ _ _).mp hp with rfl | ⟨hp, _⟩
    · rcases (SortedMap.mem_insert _ _ _ _).mp hq with rfl | ⟨hq, _⟩
      · exact absurd rfl hne
      · exact hapart q hq
    · rcases (SortedMap.mem_insert _ _ _ _).mp hq with rfl | ⟨hq, _⟩
      · exact (hapart p hp).symm
      · exact hi.apart p hp q hq hne
  · intro page hpage
    obtain ⟨p, hp, hj⟩ := hi.owned page hpage
    exact ⟨p, (SortedMap.mem_insert _ _ _ _).mpr (Or.inr ⟨hp, hold p hp⟩), hj⟩
  · intro p hp
    rcases (SortedMap.mem_insert _ _ _ _).mp hp with rfl | ⟨hp, hne⟩
    · -- the bits of a new object are set, and its pages belonged to nobody
      intro j b hb
      obtain ⟨hj, hget⟩ := List.getElem?_eq_some_iff.mp hb
      obtain rfl : true = b := by rw [← hget]; exact (List.getElem_replicate _).symm
      refine ⟨?_, fun h => absurd h (by decide)⟩
      show T.store.readOnly _ = false
      rw [← Bool.not_eq_true]
      intro hro
      obtain ⟨q, hq, j', hj', heq⟩ := hi.owned _ hro
      exact Object.page_ne hnew (hi.placed q hq) (hapart q hq) hj hj' heq
    · show p.2.Tracks _ _ (Function.update T.saved key none p.1)
      rw [Function.update_of_ne hne]
      exact hi.tracks p hp

/-- A write to a writable page meets no page with an unset bit. -/
theorem Inv.write_writable (hi : T.Inv) {addr : Nat} (b : Byte)
    (hro : T.store.readOnly (pageOf addr) = false) :
    Inv ⟨{ T.store with heap := FlatMem.store T.store.heap addr [b] }, T.saved⟩ := by
  refine ⟨hi.placed, hi.apart, hi.owned, ?_⟩
  intro p hp j bit hbit
  have h := hi.tracks p hp j bit hbit
  refine h.store ?_ rfl b
  rintro rfl hpage
  have hlock := h.1
  rw [← hpage, hro] at hlock
  cases hlock

/-- Past its first page, an address belongs to the object it lies in and to no other. -/
theorem Inv.belongs_unique (hi : T.Inv) {k : Key} {o : Object} {i : Nat}
    (hmem : (k, o) ∈ T.store.objectMap.entries) (hlt : i < o.size.toNat) (hpast : pageSize ≤ i)
    {q : Key × Object} (hq : q ∈ T.store.objectMap.entries)
    (hbelongs : DeltaStore.belongs (o.ptr + i) q.2 = true) : q = (k, o) := by
  obtain ⟨k', o'⟩ := q
  by_cases hk : k' = k
  · subst hk
    rw [SortedMap.pair_unique T.store.objectMap.sorted hq hmem]
  · exfalso
    have hapart := hi.apart _ hq _ hmem hk
    have ho := hi.placed _ hmem
    have ho' := hi.placed _ hq
    have h1 := ho.covers
    have h2 := ho.nonnull (by show 0 < o.size.toNat; omega)
    have h3 := ho.inside
    have h4 := ho'.inside
    rw [DeltaStore.belongs, decide_eq_true_iff, u64] at hbelongs
    unfold Object.Apart at hapart
    unfold pageSize at hpast
    simp only at hapart h1 h2 h3 h4 hbelongs
    omega

/-- **A write past the first page of its object** marks the page it makes writable. -/
theorem Inv.faulted (hi : T.Inv) {k : Key} {o : Object} {i : Nat} (b : Byte)
    (hmem : (k, o) ∈ T.store.objectMap.entries) (hlt : i < o.size.toNat) (hpast : pageSize ≤ i) :
    Inv ⟨T.store.faulted (k, o) (o.ptr + i) b, T.saved⟩ := by
  have ho : o.Placed := hi.placed _ hmem
  have hmap : (T.store.faulted (k, o) (o.ptr + i) b).objectMap =
      T.store.objectMap.modify k (fun x => x.setModifiedBit (i / pageSize)) := by
    rw [show i / pageSize = u64 (o.ptr + i + 2 ^ 64 - o.ptr) / 2 ^ 12 by
      rw [DeltaStore.offset_byte ho hlt]; rfl]
    rfl
  refine hi.mapVal _ hmap ?_ ?_ ?_
  · intro p _
    split
    · exact Object.sameFrame_setModifiedBit _ _
    · exact .rfl
  · intro page hro
    by_cases hsame : page = pageOf (o.ptr + i)
    · rw [hsame] at hro
      exact absurd ((disableProtection_self _ _).symm.trans hro) Bool.false_ne_true
    · exact hi.owned page ((disableProtection_of_ne hsame _).symm.trans hro)
  · rintro ⟨k', x⟩ hp
    by_cases hk : k' = k
    · subst hk
      obtain rfl : o = x := SortedMap.pair_unique T.store.objectMap.sorted hmem hp
      dsimp only
      rw [if_pos rfl]
      exact (hi.tracks _ hp).marked ho hlt hpast b
    · dsimp only
      rw [if_neg hk]
      intro j bit hbit
      refine (hi.tracks _ hp j bit hbit).fault ?_ b
      rw [Object.pageOf_byte ho]
      exact Object.page_ne (hi.placed _ hp) ho (hi.apart _ hp _ hmem hk)
        (List.getElem?_eq_some_iff.mp hbit).1 (Object.page_lt ho.toPaged hlt)

/-- The bits of a snapshotted object track its pages, once these are read-only. -/
theorem tracks_snapshotted (heap : Mem Byte) {ro : Nat → Bool} (version : UInt64) {o : Object}
    (hro : ∀ j < o.bitset.length, ro (o.page j) = true) :
    (DeltaStore.snapshotted version o).Tracks heap ro (some heap) := by
  intro j bit hbit
  obtain ⟨b, hb, rfl⟩ := Option.map_eq_some_iff.mp (List.getElem?_map.symm.trans hbit)
  exact PageTracks.snapshot heap (hro j (List.getElem?_eq_some_iff.mp hb).1)

theorem Inv.put (hi : T.Inv) {n : Nat} {s' : DeltaStore} {junk : LeHdr} {key : Key}
    {version : UInt64} (h : T.store.put junk key version = .ok (.inr (n, s'))) :
    Inv ⟨s', Function.update T.saved key (some T.store.heap)⟩ := by
  obtain ⟨obj, log, file, hobj, _, rfl⟩ := DeltaStore.put_eq h
  rw [SortedMap.find?_eq_some] at hobj
  have ho : obj.Placed := hi.placed _ hobj
  have hprotect := Object.enableWriteProtection_iff ho T.store.readOnly
  refine hi.mapVal _ (Eq.refl (T.store.objectMap.modify key (DeltaStore.snapshotted version)))
    ?_ ?_ ?_
  · intro p _
    split
    · exact DeltaStore.sameFrame_snapshotted _ _
    · exact .rfl
  · intro page hro
    rcases (hprotect page).mp hro with hro | hj
    · exact hi.owned page hro
    · exact ⟨_, hobj, hj⟩
  · rintro ⟨k, x⟩ hp
    by_cases hk : k = key
    · subst hk
      obtain rfl : x = obj := SortedMap.pair_unique T.store.objectMap.sorted hp hobj
      dsimp only
      rw [if_pos rfl, Function.update_self]
      exact tracks_snapshotted _ _ (fun j hj => (hprotect _).mpr (Or.inr ⟨j, hj, rfl⟩))
    · dsimp only
      rw [if_neg hk, Function.update_of_ne hk]
      intro j bit hbit
      obtain ⟨hlock, hclean⟩ := hi.tracks _ hp j bit hbit
      refine ⟨?_, hclean⟩
      -- the pages protected now are those of another object
      rw [← hlock, Bool.eq_iff_iff]
      refine (hprotect _).trans ⟨?_, Or.inl⟩
      rintro (hro | ⟨j', hj', heq⟩)
      · exact hro
      · exact absurd heq (Object.page_ne (hi.placed _ hp) ho (hi.apart _ hp _ hobj hk)
          (List.getElem?_eq_some_iff.mp hbit).1 hj')

theorem Inv.putAll (hi : T.Inv) {n : Nat} {s' : DeltaStore} {junk : Nat → LeHdr}
    (h : T.store.putAll junk = .ok (n, s')) : Inv ⟨s', fun _ => some T.store.heap⟩ := by
  obtain ⟨log, file, _, rfl⟩ := DeltaStore.putAll_eq h
  have hplaced : ∀ o ∈ T.store.objectMap.entries.map Prod.snd, o.Placed := by
    intro o ho
    obtain ⟨p, hp, rfl⟩ := List.mem_map.mp ho
    exact hi.placed p hp
  have hprotect := enableWriteProtection_all hplaced T.store.readOnly
  refine hi.mapVal _ (Eq.refl (T.store.objectMap.mapVal
    (fun _ o => DeltaStore.snapshotted (o.version + 1) o))) ?_ ?_ ?_
  · intro p _
    exact DeltaStore.sameFrame_snapshotted _ _
  · intro page hro
    rcases (hprotect page).mp hro with hro | ⟨o, ho, hj⟩
    · exact hi.owned page hro
    · obtain ⟨p, hp, rfl⟩ := List.mem_map.mp ho
      exact ⟨p, hp, hj⟩
  · intro p hp
    exact tracks_snapshotted _ _ (fun j hj =>
      (hprotect _).mpr (Or.inr ⟨p.2, List.mem_map_of_mem hp, j, hj, rfl⟩))

theorem Inv.write (hi : T.Inv) {k : Key} {o : Object} {i : Nat} {s' : DeltaStore} {b : Byte}
    (hmem : (k, o) ∈ T.store.objectMap.entries) (hlt : i < o.size.toNat)
    (hok : Gentle T.store o i) (h : T.store.write (o.ptr + i) b = .ok s') :
    Inv ⟨s', T.saved⟩ := by
  cases hro : T.store.readOnly (pageOf (o.ptr + i)) with
  | false =>
    rw [DeltaStore.write_writable hro] at h
    obtain rfl := Except.ok.inj h
    exact hi.write_writable b hro
  | true =>
    obtain ⟨q, hq, hbelongs, hwrite⟩ :=
      DeltaStore.write_readOnly (hi.placed _ hmem) hmem hlt hro b
    rw [hwrite] at h
    obtain rfl := Except.ok.inj h
    rw [hi.belongs_unique hmem hlt (hok hro) hq hbelongs]
    exact hi.faulted b hmem hlt (hok hro)

/-- **One step keeps the invariant**, unless it writes into a protected first page. -/
theorem Step.inv (h : Step Gentle T T') (hi : T.Inv) : T'.Inv := by
  cases h with
  | createObj key size tmpPtr halloc h => exact hi.createObj halloc h
  | write b hmem hlt hok h => exact hi.write hmem hlt hok h
  | put junk key version h => exact hi.put h
  | putAll junk h => exact hi.putAll h

theorem start_inv (l : Log) (f : File) (heap : Mem Byte) : (start l f heap).Inv := by
  refine ⟨?_, ?_, ?_, ?_⟩
  · exact fun p hp => absurd hp List.not_mem_nil
  · exact fun p hp => absurd hp List.not_mem_nil
  · exact fun page hro => absurd hro Bool.false_ne_true
  · exact fun p hp => absurd hp List.not_mem_nil

theorem Step.run_inv (h : Relation.ReflTransGen (Step Gentle) T T') (hi : T.Inv) : T'.Inv :=
  Runs.invariant Step.inv h hi

/-- **A write that changes a byte of a protected first page is lost.** -/
theorem Inv.lost (hi : T.Inv) {k : Key} {o : Object} {i : Nat} {s' : DeltaStore} {b : Byte}
    (hmem : (k, o) ∈ T.store.objectMap.entries) (hlt : i < o.size.toNat)
    (hok : ¬ Gentle T.store o i) (h : T.store.write (o.ptr + i) b = .ok s')
    (hchange : T.store.heap (o.ptr + i) ≠ b) : ¬ NoLoss ⟨s', T.saved⟩ := by
  have ho : o.Placed := hi.placed _ hmem
  obtain ⟨hro, hfirst⟩ := Classical.not_imp.mp hok
  have hzero : i / pageSize = 0 := Nat.div_eq_of_lt (Nat.not_le.mp hfirst)
  have hj := Object.page_lt ho.toPaged hlt
  obtain ⟨q, hq, _, hwrite⟩ := DeltaStore.write_readOnly ho hmem hlt hro b
  rw [hwrite] at h
  obtain rfl := Except.ok.inj h
  -- the page was protected, so its bit was unset and it held the snapshot
  have hbit : o.bitset[0]? = some false := by
    rw [hzero] at hj
    have htracks := (hi.tracks _ hmem 0 _ (List.getElem?_eq_getElem hj)).1
    rw [Object.pageOf_byte ho, hzero] at hro
    rw [List.getElem?_eq_getElem hj]
    have hlock : T.store.readOnly (o.page 0) = !o.bitset[0] := htracks
    rw [hro] at hlock
    cases hb : o.bitset[0] with
    | false => rfl
    | true =>
      rw [hb] at hlock
      cases hlock
  obtain ⟨_, hclean⟩ := hi.tracks _ hmem 0 false hbit
  obtain ⟨m, hm, heq⟩ := hclean rfl
  -- the object after the handler, whatever object the handler has found
  obtain ⟨x, hx, hframe, hfirst⟩ : ∃ x, (k, x) ∈ (T.store.faulted q (o.ptr + i) b).objectMap.entries ∧
      o.SameFrame x ∧ x.bitset[0]? = o.bitset[0]? := by
    refine ⟨_, SortedMap.mem_modify_of_mem hmem _ _, ?_, ?_⟩
    · split
      · exact Object.sameFrame_setModifiedBit _ _
      · exact .rfl
    · split
      · exact Object.first_setModifiedBit _ _
      · rfl
  intro hnoloss
  have hmarked := (hnoloss (k, x) hx i (by rw [hframe.size]; exact hlt) (fun m' hm' => ?_)).1
  · rw [hzero, hfirst, hbit] at hmarked
    cases hmarked
  · obtain rfl := Option.some.inj (hm.symm.trans hm')
    show FlatMem.store T.store.heap (o.ptr + i) [b] (x.ptr + i) ≠ m (x.ptr + i)
    rw [hframe.ptr, ← heq _ (by rw [Object.pageOf_byte ho, hzero])]
    have hnew : FlatMem.store T.store.heap (o.ptr + i) [b] (o.ptr + i) = b :=
      store_in T.store.heap (o.ptr + i) [b] (i := 0) Nat.zero_lt_one
    rw [hnew]
    exact hchange.symm

end Tracked

/-- **Which updates are tracked.**  In every state of every run of `create_obj`, `put`, `put_all` and
    stores of the application in which no store meets the protected first page of its object, every
    byte that differs from the last snapshot lies in a marked page.  And in any such state EVERY store
    into an object completes, and one that changes a byte keeps that property if and only if it does
    not meet a protected first page. -/
theorem dirty_pages_no_loss {l : Log} {f : File} {heap : Mem Byte} {T : Tracked}
    (hrun : Relation.ReflTransGen (Tracked.Step Tracked.Gentle) (Tracked.start l f heap) T) :
    T.NoLoss ∧ ∀ (k : Key) (o : Object) (i : Nat) (b : Byte),
      (k, o) ∈ T.store.objectMap.entries → i < o.size.toNat →
      ∃ s', T.store.write (o.ptr + i) b = .ok s' ∧ (T.store.heap (o.ptr + i) ≠ b →
        (Tracked.NoLoss ⟨s', T.saved⟩ ↔ Tracked.Gentle T.store o i)) := by
  have hi := Tracked.Step.run_inv hrun (Tracked.start_inv l f heap)
  refine ⟨hi.noLoss, ?_⟩
  intro k o i b hmem hlt
  obtain ⟨s', hwrite⟩ : ∃ s', T.store.write (o.ptr + i) b = .ok s' := by
    cases hro : T.store.readOnly (pageOf (o.ptr + i)) with
    | false => exact ⟨_, DeltaStore.write_writable hro b⟩
    | true =>
      obtain ⟨q, _, _, hwrite⟩ := DeltaStore.write_readOnly (hi.placed _ hmem) hmem hlt hro b
      exact ⟨_, hwrite⟩
  refine ⟨s', hwrite, fun hchange => ⟨fun hnoloss => ?_, fun hok => ?_⟩⟩
  · by_contra hok
    exact hi.lost hmem hlt hok hwrite hchange hnoloss
  · exact (hi.write hmem hlt hok hwrite).noLoss

/-- An object of three pages, the last of one byte. -/
def threePages : Object := Object.ctorDelta [97] 8193 0 4096

theorem placed_threePages : threePages.Placed :=
  Object.placed_ctorDelta [97] 0 (by decide) (by decide) (by decide)

/-- It is created in a new store, the application stores into its first page, it is put, and the
    application stores into its last page. -/
theorem DeltaStore.two_stores : ∃ l f s₁ s₂ n s₃ s₄,
    Log.ctor none deltaLogSize = .ok (l, f) ∧ (ctor l f (fun _ => 0)).Allocated 8193 4096 ∧
    (ctor l f (fun _ => 0)).createObj [97] 8193 4096 = .ok (.noError, 4096, s₁) ∧
    s₁.write 4096 5 = .ok s₂ ∧ s₂.put blankHdr [97] 1 = .ok (.inr (n, s₃)) ∧
    s₃.write 12288 7 = .ok s₄ ∧
    s₁.objectMap.entries = [([97], threePages)] ∧ s₁.readOnly = (fun _ => false) ∧
    Rep s₁.file [] ∧ s₁.log.Synced s₁.file [] ∧ s₁.file.len = deltaLogSize ∧
    s₂ = { s₁ with heap := store (fun _ => 0) 4096 [5] } ∧
    s₃.objectMap.entries = [([97], snapshotted 1 threePages)] ∧ s₃.heap = s₂.heap ∧
    s₄.objectMap.entries = [([97], (snapshotted 1 threePages).setModifiedBit 2)] ∧
    s₄.heap = store s₂.heap 12288 [7] ∧ s₄.log = s₃.log ∧ s₄.file = s₃.file := by
  obtain ⟨l, f, s₁, hnew, hcreate, hmap, hheap, hro, hr, hs, hlen⟩ := one_object 8193 4096
  obtain ⟨s₂, hs₂⟩ : ∃ s₂ : DeltaStore, s₂ = { s₁ with heap := store (fun _ => 0) 4096 [5] } :=
    ⟨_, rfl⟩
  have hwrite : s₁.write 4096 5 = .ok s₂ := by
    rw [hs₂, ← hheap]
    exact write_writable (by rw [hro]) 5
  have hfile : s₂.file = s₁.file := by rw [hs₂]
  have hlog : s₂.log = s₁.log := by rw [hs₂]
  have hmap₂ : s₂.objectMap.entries = [([97], threePages)] := by rw [hs₂]; exact hmap
  have hobj := SortedMap.find?_of_singleton hmap₂
  obtain ⟨n, s₃, hput⟩ := put_of_fits (by rw [hfile]; exact hr) (by rw [hfile, hlog]; exact hs)
    blankHdr 1 hobj (by decide) (by rw [hfile, hlen]; decide)
  obtain ⟨o, log, file, hobj', _, hs₃⟩ := put_eq hput
  obtain rfl := Option.some.inj (hobj.symm.trans hobj')
  have hmap₃ : s₃.objectMap.entries = [([97], snapshotted 1 threePages)] := by
    rw [hs₃]
    exact SortedMap.modify_of_singleton hmap₂ _
  -- the snapshot has made the three pages read-only
  have hlocked : s₃.readOnly ((snapshotted 1 threePages).page 2) = true := by
    rw [hs₃]
    exact (Object.enableWriteProtection_iff placed_threePages _ _).mpr
      (Or.inr ⟨2, by decide, rfl⟩)
  have hplaced := placed_threePages.of_sameFrame (sameFrame_snapshotted 1 threePages)
  obtain ⟨s₄, hwrite₄, hmap₄, _, hheap₄, hlog₄, hfile₄⟩ :=
    write_page (j := 2) hplaced hmap₃ (by decide) hlocked 7
  have hheap₃ : s₃.heap = s₂.heap := by rw [hs₃]
  rw [hheap₃] at hheap₄
  refine ⟨l, f, s₁, s₂, n, s₃, s₄, hnew, ⟨by decide, by decide, by decide, ?_⟩, hcreate, hwrite, hput,
    hwrite₄, hmap, hro, hr, hs, hlen, hs₂, hmap₃, hheap₃, hmap₄, hheap₄, hlog₄, hfile₄⟩
  intro p hp
  exact absurd hp List.not_mem_nil

/-- A store before the `put` and one to another page behind it: nothing is lost, and the byte that has
    changed since the `put` is in the chunk of the last page. -/
theorem dirty_pages_no_loss_two_stores :
    ∃ l f s₁ s₂ n s₃ s₄, Log.ctor none deltaLogSize = .ok (l, f) ∧
      (DeltaStore.ctor l f (fun _ => 0)).createObj [97] 8193 4096 = .ok (.noError, 4096, s₁) ∧
      s₁.write 4096 5 = .ok s₂ ∧ s₂.put blankHdr [97] 1 = .ok (.inr (n, s₃)) ∧
      s₃.write 12288 7 = .ok s₄ ∧
      Tracked.NoLoss ⟨s₄, Function.update (Function.update (fun _ => none) [97] none) [97]
        (some s₂.heap)⟩ ∧
      ∃ o, ([97], o) ∈ s₄.objectMap.entries ∧ o.bitset = [false, false, true] ∧
        Covers (o.getDeltaChunks.map Delta.interval) 8192 := by
  obtain ⟨l, f, s₁, s₂, n, s₃, s₄, hnew, halloc, hcreate, hwrite, hput, hwrite₄, hmap, hro, _, _, _,
    hs₂, hmap₃, _, hmap₄, hheap₄, _⟩ := DeltaStore.two_stores
  have hmem : ([97], threePages) ∈ s₁.objectMap.entries := by
    rw [hmap]
    exact List.mem_singleton.mpr rfl
  have hmem₃ : ([97], DeltaStore.snapshotted 1 threePages) ∈ s₃.objectMap.entries := by
    rw [hmap₃]
    exact List.mem_singleton.mpr rfl
  have hmem₄ : ([97], (DeltaStore.snapshotted 1 threePages).setModifiedBit 2) ∈
      s₄.objectMap.entries := by
    rw [hmap₄]
    exact List.mem_singleton.mpr rfl
  have hrun : Relation.ReflTransGen (Tracked.Step Tracked.Gentle)
      (Tracked.start l f (fun _ => 0)) _ :=
    .tail (.tail (.tail (.single (.createObj [97] 8193 4096 halloc hcreate))
      (.write (i := 0) 5 hmem (by decide) (fun h => by rw [hro] at h; cases h) hwrite))
      (.put blankHdr [97] 1 hput))
      (.write (i := 8192) 7 hmem₃ (by decide) (fun _ => by decide) hwrite₄)
  have hloss := (dirty_pages_no_loss hrun).1
  refine ⟨l, f, s₁, s₂, n, s₃, s₄, hnew, hcreate, hwrite, hput, hwrite₄, hloss, _, hmem₄, by decide,
    (hloss _ hmem₄ 8192 (by decide) (fun m hm => ?_)).2⟩
  -- the saved memory is that of the `put`, in which the byte was still 0
  obtain rfl : s₂.heap = m := Option.some.inj hm
  have hbefore : s₂.heap 12288 = 0 := by
    rw [hs₂]
    rfl
  show s₄.heap 12288 ≠ s₂.heap 12288
  rw [hheap₄, hbefore]
  exact ne_of_eq_of_ne (store_in s₂.heap 12288 [7] (i := 0) Nat.zero_lt_one) (by decide)

/-- **An update of the first page is lost.**  After the `put` of an object whose byte 0 is 0, the
    application stores 1 there.  The store completes; no bit is set, and the next snapshot would
    write no chunk. -/
theorem first_page_update_lost :
    ∃ l f s₁ n s₂ s₃, Log.ctor none deltaLogSize = .ok (l, f) ∧
      (DeltaStore.ctor l f (fun _ => 0)).createObj [97] 4 4096 = .ok (.noError, 4096, s₁) ∧
      s₁.put blankHdr [97] 1 = .ok (.inr (n, s₂)) ∧ s₁.heap 4096 = 0 ∧
      s₂.write 4096 1 = .ok s₃ ∧ s₃.heap 4096 = 1 ∧
      ∃ o, s₃.objectMap.entries = [([97], o)] ∧ o.ptr = 4096 ∧ o.size = 4 ∧ o.bitset = [false] ∧
        o.getDeltaChunks = [] := by
  obtain ⟨l, f, s₁, n, s₂, hnew, halloc, hcreate, hmap, hheap, hro, _, _, _, hput⟩ :=
    DeltaStore.one_put
  obtain ⟨obj, log, file, hobj, _, hs₂⟩ := DeltaStore.put_eq hput
  obtain rfl := Option.some.inj ((SortedMap.find?_of_singleton hmap).symm.trans hobj)
  have hentries : s₂.objectMap.entries =
      [([97], DeltaStore.snapshotted 1 (Object.ctorDelta [97] 4 0 4096))] := by
    rw [hs₂]
    exact SortedMap.modify_of_singleton hmap _
  have hlocked : s₂.readOnly (pageOf 4096) = true := by
    rw [hs₂]
    show enableWriteProtection 4096 4096 s₁.readOnly (pageOf 4096) = true
    rw [hro]
    decide
  have hplaced := (DeltaStore.createObj_eq halloc hcreate).2.1.of_sameFrame
    (DeltaStore.sameFrame_snapshotted 1 _)
  obtain ⟨q, hq, _, hwrite⟩ := DeltaStore.write_readOnly (i := 0) hplaced
    (by rw [hentries]; exact List.mem_singleton.mpr rfl) (by decide) hlocked 1
  rw [hentries, List.mem_singleton] at hq
  subst hq
  refine ⟨l, f, s₁, n, s₂, _, hnew, hcreate, hput, by rw [hheap], hwrite, ?_,
    DeltaStore.snapshotted 1 (Object.ctorDelta [97] 4 0 4096), ?_, rfl, rfl, by decide, by decide⟩
  · exact store_in s₂.heap 4096 [1] (i := 0) Nat.zero_lt_one
  · have hidx : u64 (4096 + 0 + 2 ^ 64 - 4096) / 2 ^ 12 = 0 := by decide
    show (s₂.objectMap.modify [97] (fun o =>
      o.setModifiedBit (u64 (4096 + 0 + 2 ^ 64 - 4096) / 2 ^ 12))).entries = _
    rw [hidx]
    show s₂.objectMap.entries.map _ = _
    rw [hentries]
    rfl

end NvStream
