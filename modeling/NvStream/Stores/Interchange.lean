/-
  `NVSStore` and `FileStore` behind one interface.

  The two stores run side by side, each in a process of its own, and the application makes the same
  requests in both: a `Twin`.  `malloc` may put a block at different addresses in the two processes;
  the application only touches memory through the blocks it has (`FlatMem.Mirrors`).

  One store appends to a log and searches it from the front, the other overwrites a file per pair.  So
  `NVSStore` answers with the FIRST `put` of a pair and `FileStore` with the LAST
  (`Twin.Inv.nvs_answers`, `Twin.Inv.file_answers`), and the two agree in every run in which a pair is
  only put again with the bytes it was put with (`stores_interchangeable`).  Putting it again with
  other bytes tells them apart (`second_put_differs`).

  Keys with a slash or a NUL are excluded as well: a slash makes the file name a path, and both stores
  cut a key at a NUL, `FileStore` together with the version behind it.
-/
import NvStream.Lib.Blocks
import NvStream.NvsStore.Calls
import NvStream.NvsStore.RoundTrip
import NvStream.FileStore.Names

namespace NvStream

open FlatMem LittleEndian Decimal Overwrite LoadProg PersistTrace

/-! ## Keys -/

/-- A key of fewer than 20 bytes with no digit and no white space in it. -/
structure WordKey (k : Key) : Prop where
  short : k.length < keyLen
  digit : ∀ b ∈ k, isDigit b = false
  space : ∀ b ∈ k, isSpace b = false

/-- Neither has it a slash or a NUL. -/
structure PlainKey (k : Key) : Prop extends WordKey k where
  slash : 47 ∉ k
  nul : 0 ∉ k

section
variable {k k' : Key}

theorem WordKey.trimRight_eq (h : WordKey k) : trimRight k = k := by
  rw [trimRight, List.rdropWhile_eq_self_iff]
  intro hne
  rw [h.space _ (List.getLast_mem hne)]
  exact Bool.false_ne_true

theorem WordKey.endsPlain (h : WordKey k) : EndsPlain k :=
  fun b hb => h.digit b (List.mem_of_getLast? hb)

theorem PlainKey.shortKey (h : PlainKey k) : ShortKey k := ⟨h.short, h.nul⟩

/-- A byte that is no digit and not in the key is not in the file name. -/
theorem not_mem_fileName {b : Byte} (hk : b ∉ k) (hb : isDigit b = false) (version : UInt64) :
    b ∉ fileName k version := by
  intro h
  rcases List.mem_append.mp h with h | h
  · exact hk h
  · rw [isDigit_of_mem h] at hb
    cases hb

theorem PlainKey.usable (h : PlainKey k) (version : UInt64) : Disk.Usable (fileName k version) := by
  have hlen : (decimal version.toNat).length ≤ 20 := by
    apply length_decimal_le (by decide)
    exact Nat.lt_trans version.toNat_lt (by decide)
  have hshort : k.length < 20 := h.short
  refine ⟨?_, not_mem_fileName h.slash (by decide) version,
    not_mem_fileName h.nul (by decide) version, ?_⟩
  · intro hnil
    exact decimal_ne_nil _ (List.append_eq_nil_iff.mp hnil).2
  · rw [fileName, List.length_append]
    omega

/-- Such keys and their versions can be told apart in the file name. -/
theorem fileName_inj {version version' : UInt64} (h : WordKey k) (h' : WordKey k')
    (heq : fileName k version = fileName k' version') : (k, version) = (k', version') := by
  obtain ⟨rfl, hversion⟩ := append_decimal_inj h.endsPlain h'.endsPlain heq
  rw [UInt64.toNat_inj.mp hversion]

end

/-! ## What a `get` returns -/

/-- What `get` returns for a key and a version: the bytes found, or `ID_NOT_FOUND`. -/
def NvsStore.Answers (s : NvsStore) (key : Key) (version : UInt64) (found : Option (List Byte)) :
    Prop :=
  ∀ heap wentry dst, ∃ N, ∀ fuel ≥ N,
    NvsStore.get { s with heap := heap } wentry fuel key version dst =
      .ok (found.elim (.idNotFound, { s with heap := heap })
        (fun data => (.noError, { s with heap := store heap dst data })))

/-- What `get` returns for a key and a version: the bytes found, or `ELEM_NOT_FOUND`. -/
def FileStore.Answers (s : FileStore) (key : Key) (version : UInt64) (found : Option (List Byte)) :
    Prop :=
  ∀ heap dst, FileStore.get { s with heap := heap } key version dst =
    found.elim (.elemNotFound, { s with heap := heap })
      (fun data => (.noError, { s with heap := store heap dst data }))

theorem FileStore.answers_read (s : FileStore) (key : Key) (version : UInt64) :
    s.Answers key version (s.disk.read (fileName (trimRight key) version)) := by
  intro heap dst
  rcases FileStore.get_cases { s with heap := heap } key version dst with
    ⟨hread, heq⟩ | ⟨data, hread, heq⟩
  · rw [heq, show s.disk.read (fileName (trimRight key) version) = none from hread]
    rfl
  · rw [heq, show s.disk.read (fileName (trimRight key) version) = some data from hread]
    rfl

/-- A reply, with the memory it leaves, tells what was found: the memory was arbitrary. -/
theorem found_eq {σ : Type} (missing : ErrorCode) (state : Mem Byte → σ)
    {found found' : Option (List Byte)} (hmissing : missing ≠ .noError)
    (hstate : Function.Injective state)
    (h : ∀ heap, found.elim (missing, state heap)
        (fun data => (ErrorCode.noError, state (store heap 0 data))) =
      found'.elim (missing, state heap) (fun data => (.noError, state (store heap 0 data)))) :
    found = found' := by
  cases found with
  | none =>
    cases found' with
    | none => rfl
    | some data => exact absurd (congrArg Prod.fst (h (fun _ => 0))) hmissing
  | some data =>
    cases found' with
    | none => exact absurd (congrArg Prod.fst (h (fun _ => 0))).symm hmissing
    | some data' =>
      exact congrArg some (store_inj 0 (fun heap => hstate (congrArg Prod.snd (h heap))))

theorem NvsStore.Answers.unique {s : NvsStore} {key : Key} {version : UInt64}
    {found found' : Option (List Byte)} (h : s.Answers key version found)
    (h' : s.Answers key version found') : found = found' := by
  refine found_eq .idNotFound (fun heap => { s with heap := heap }) (by decide)
    (fun _ _ heq => congrArg NvsStore.heap heq) ?_
  intro heap
  obtain ⟨N, hN⟩ := h heap blankWalk 0
  obtain ⟨N', hN'⟩ := h' heap blankWalk 0
  exact Except.ok.inj ((hN (max N N') (Nat.le_max_left _ _)).symm.trans
    (hN' (max N N') (Nat.le_max_right _ _)))

theorem FileStore.Answers.unique {s : FileStore} {key : Key} {version : UInt64}
    {found found' : Option (List Byte)} (h : s.Answers key version found)
    (h' : s.Answers key version found') : found = found' := by
  refine found_eq .elemNotFound (fun heap => { s with heap := heap }) (by decide)
    (fun _ _ heq => congrArg FileStore.heap heq) ?_
  intro heap
  exact (h heap 0).symm.trans (h' heap 0)

/-- The `put`s a log tells of. -/
def putsOf (events : List Event) : List ((Key × UInt64) × List Byte) :=
  (events.filterMap (fun e => e.what.put?)).map (fun r => ((r.name, r.version), r.data))

theorem putsOf_concat (events : List Event) (off len : Nat) (r : Rec) :
    putsOf (events ++ [⟨off, len, .put r⟩]) =
      putsOf events ++ [((r.name, r.version), r.data)] := by
  rw [putsOf, putsOf, List.filterMap_append, List.map_append]
  rfl

/-- The earliest `put` in the log, as the first write. -/
theorem first_putsOf (k : Key) (v : UInt64) (events : List Event) :
    first (putsOf events) (k, v) = (firstPut k v events).map Rec.data := by
  rw [putsOf, firstPut]
  induction events.filterMap (fun e => e.what.put?) with
  | nil => rfl
  | cons r rs ih =>
    rw [List.map_cons, first]
    by_cases h : r.name = k ∧ r.version = v
    · rw [if_pos (by rw [h.1, h.2])]
      simp only [List.find?_cons, decide_eq_true h, Option.map_some]
    · rw [if_neg (fun heq => h (Prod.mk.inj heq)), ih]
      simp only [List.find?_cons, decide_eq_false h]

/-- A log with nothing but `put`s in it answers with the first of them. -/
theorem Life.Inv.answers {L : Life} {items : List Item} (hi : L.Inv ShortKey items)
    (hsingles : ∀ e ∈ L.events, ∃ r, e.what = .put r) {key : Key} (hkey : ShortKey key)
    (version : UInt64) : L.store.Answers key version (first (putsOf L.events) (key, version)) := by
  intro heap wentry dst
  have hheap : Life.Inv ShortKey { L with store := { L.store with heap := heap } } items :=
    hi.keep ⟨rfl, rfl, hi.named⟩
  refine ⟨lookFuel items, fun fuel hfuel => ?_⟩
  rw [first_putsOf]
  have hinside : SearchInside L.store.file key version 32 items := by
    refine (hheap.searchInside_iff key version).mpr fun _ e he hbatch => ?_
    obtain ⟨r, hr⟩ := hsingles e (List.mem_of_getLast? he)
    cases hr.symm.trans hbatch
  refine (hheap.get_firstPut hkey ?_ hinside wentry dst hfuel).trans ?_
  · intro e he rs hbatch
    obtain ⟨r, hr⟩ := hsingles e he
    cases hr.symm.trans hbatch
  · cases firstPut key version L.events <;> rfl

/-! ## Two processes -/

/-- The same application on both stores, and the blocks of memory it has. -/
structure Twin where
  nvs : Life
  file : FileLife
  blocks : List Block

namespace Twin

/-- A new log on one side, a directory on the other. -/
def start (l : Log) (f : File) (heap : Mem Byte) (disk : Disk) (heap' : Mem Byte) : Twin :=
  ⟨Life.start l f heap, FileLife.start disk heap', []⟩

/-- What `malloc` hands out: a block that meets none in use and holds, on both sides, the same. -/
structure Fresh (T : Twin) (b : Block) : Prop where
  apart : ∀ c ∈ T.blocks, b.Apart c
  same : ∀ i < b.size, T.nvs.store.heap (b.left + i) = T.file.store.heap (b.right + i)

/-- Whatever was put under a key and a version fits into a block behind `off`. -/
def Room (T : Twin) (key : Key) (version : UInt64) (b : Block) (off : Nat) : Prop :=
  ∀ w ∈ T.file.puts, w.1 = (key, version) → off + w.2.length ≤ b.size

/-- A pair that was put is put again with the same bytes only. -/
def SameAgain (T : Twin) (key : Key) (version : UInt64) : Prop :=
  ∀ o, T.file.store.objectMap.find? key = some o →
    ∀ w ∈ T.file.puts, w.1 = (key, version) → w.2 = o.contents T.file.store.heap

/-- One request of the application, made in both processes and returning in both.  `valid` restricts
    the keys, `again` the puts. -/
inductive Step (valid : Key → Prop) (again : Twin → Key → UInt64 → Prop) : Twin → Twin → Prop
  | createObj {T : Twin} {code code' : ErrorCode} {addr addr' : Nat} {s' : NvsStore}
      {t' : FileStore} (key : Key) (size : UInt64) (tmpPtr tmpPtr' : Nat) (hkey : valid key)
      (hfresh : T.Fresh ⟨tmpPtr, tmpPtr', size.toNat⟩)
      (h : T.nvs.store.createObj key size tmpPtr = .ok (code, addr, s'))
      (h' : T.file.store.createObj key size tmpPtr' = .ok (code', addr', t')) :
      Step valid again T ⟨{ T.nvs with store := s' }, { T.file with store := t' },
        ⟨tmpPtr, tmpPtr', size.toNat⟩ :: T.blocks⟩
  | malloc {T : Twin} (b : Block) (hfresh : T.Fresh b) :
      Step valid again T { T with blocks := b :: T.blocks }
  | write {T : Twin} (b : Block) (off : Nat) (bs : List Byte) (hb : b ∈ T.blocks)
      (hin : off + bs.length ≤ b.size) :
      Step valid again T ⟨
        { T.nvs with store := { T.nvs.store with
          heap := store T.nvs.store.heap (b.left + off) bs } },
        { T.file with store := { T.file.store with
          heap := store T.file.store.heap (b.right + off) bs } }, T.blocks⟩
  | put {T : Twin} {code : ErrorCode} {ret : ErrorCode ⊕ Nat} {s' : NvsStore} {t' : FileStore}
      (junk : LeHdr) (key : Key) (version : UInt64) (hkey : valid key) (hagain : again T key version)
      (h : T.nvs.store.put junk key version = .ok (code, s'))
      (h' : T.file.store.put key version = .ok (ret, t')) :
      Step valid again T ⟨T.nvs.after (.put junk key version) s', T.file.after (.put key version) t',
        T.blocks⟩
  | get {T : Twin} {code code' : ErrorCode} {s' : NvsStore} {t' : FileStore} (wentry : WalkEntry)
      (key : Key) (version : UInt64) (b : Block) (off : Nat) (hkey : valid key) (hb : b ∈ T.blocks)
      (hroom : T.Room key version b off)
      (h : ∃ N, ∀ fuel ≥ N,
        T.nvs.store.get wentry fuel key version (b.left + off) = .ok (code, s'))
      (h' : T.file.store.get key version (b.right + off) = (code', t')) :
      Step valid again T ⟨{ T.nvs with store := s' }, { T.file with store := t' }, T.blocks⟩

/-! ## The relation between the two -/

/-- One object, on both sides: of one size, in one of the blocks. -/
structure Paired (blocks : List Block) (o o' : Object) : Prop where
  size : o.size = o'.size
  block : ⟨o.ptr, o'.ptr, o.size.toNat⟩ ∈ blocks

/-- What holds of two stores that were asked the same. -/
structure Inv (disk : Disk) (T : Twin) : Prop where
  life : ∃ items, T.nvs.Inv ShortKey items
  dir : T.file.Inv disk
  singles : ∀ e ∈ T.nvs.events, ∃ r, e.what = .put r
  puts : T.file.puts = putsOf T.nvs.events
  plain : ∀ w ∈ T.file.puts, PlainKey w.1.1
  steady : Steady T.file.puts
  objects : ∀ key, Option.Rel (Paired T.blocks) (T.nvs.store.objectMap.find? key)
    (T.file.store.objectMap.find? key)
  memory : Mirrors T.blocks T.nvs.store.heap T.file.store.heap

/-! ### First and last -/

section
variable {disk : Disk} {T T' : Twin} {key : Key} {version : UInt64}

/-- **`NVSStore` answers with the first put.** -/
theorem Inv.nvs_answers (hi : T.Inv disk) (hkey : PlainKey key) (version : UInt64) :
    T.nvs.store.Answers key version (first T.file.puts (key, version)) := by
  obtain ⟨items, hlife⟩ := hi.life
  rw [hi.puts]
  exact hlife.answers hi.singles hkey.shortKey version

/-- **`FileStore` answers with the last put.** -/
theorem Inv.file_answers (hempty : ∀ file, disk.content file = none) (hi : T.Inv disk)
    (hkey : PlainKey key) (version : UInt64) :
    T.file.store.Answers key version (last T.file.puts (key, version)) := by
  have hnone : disk.read (fileName key version) = none := by
    rw [Disk.read]
    cases disk.resolve (cStr (fileName key version)) with
    | none => rfl
    | some file => exact hempty file
  have hlast : last T.file.written (fileName key version) = last T.file.puts (key, version) :=
    last_map (f := fun p : Key × UInt64 => fileName p.1 p.2) (k := (key, version))
      (fun w hw heq => fileName_inj (hi.plain w hw).toWordKey hkey.toWordKey heq)
  have h := T.file.store.answers_read key version
  rw [hkey.trimRight_eq, hi.dir.read (hkey.usable version), hnone, Option.or_none, hlast] at h
  exact h

/-! ### One request -/

theorem Paired.mono {blocks : List Block} {x y : Option Object} (b : Block)
    (h : Option.Rel (Paired blocks) x y) : Option.Rel (Paired (b :: blocks)) x y := by
  cases h with
  | none => exact .none
  | some h => exact .some ⟨h.size, List.mem_cons_of_mem b h.block⟩

/-- A new version on one side. -/
theorem Paired.setVersion {blocks : List Block} {objs objs' : SortedMap Key Object}
    (h : ∀ k, Option.Rel (Paired blocks) (objs.find? k) (objs'.find? k)) (key : Key)
    (version : UInt64) (k : Key) : Option.Rel (Paired blocks)
      ((objs.modify key (fun o => o.setVersion version)).find? k) (objs'.find? k) := by
  have hk := h k
  rw [SortedMap.find?_modify]
  generalize objs.find? k = x at hk ⊢
  generalize objs'.find? k = y at hk ⊢
  split
  · cases hk with
    | none => exact .none
    | some hpair => exact .some ⟨hpair.size, hpair.block⟩
  · exact hk

/-- Both sides put the same bytes. -/
theorem Inv.contents_eq (hi : T.Inv disk) {o o' : Object} (h : Paired T.blocks o o') :
    o.contents T.nvs.store.heap = o'.contents T.file.store.heap := by
  have hload := hi.memory.load_eq h.block
  rw [Object.contents, Object.contents, ← h.size]
  exact hload

theorem Inv.createObj (hplain : Disk.Plain disk.resolve) (hi : T.Inv disk) {size : UInt64}
    {tmpPtr tmpPtr' addr addr' : Nat} {code code' : ErrorCode} {s' : NvsStore} {t' : FileStore}
    (hkey : PlainKey key) (hfresh : T.Fresh ⟨tmpPtr, tmpPtr', size.toNat⟩)
    (h : T.nvs.store.createObj key size tmpPtr = .ok (code, addr, s'))
    (h' : T.file.store.createObj key size tmpPtr' = .ok (code', addr', t')) :
    Inv disk ⟨{ T.nvs with store := s' }, { T.file with store := t' },
      ⟨tmpPtr, tmpPtr', size.toNat⟩ :: T.blocks⟩ := by
  obtain ⟨items, hlife⟩ := hi.life
  obtain ⟨_, hmap, hheap⟩ := NvsStore.createObj_map h
  have hdir := FileLife.Step.inv hplain
    (.call (.createObj key size tmpPtr') hkey.trimRight_eq (congrArg (Except.map _) h')) hi.dir
  rw [FileLife.after_of_nil rfl] at hdir
  obtain ⟨_, ht⟩ := FileStore.createObj_cases h'
  rw [hkey.trimRight_eq] at ht
  refine ⟨(Life.Step.createObj key size tmpPtr hkey.shortKey h).inv hlife, hdir, hi.singles,
    hi.puts, hi.plain, hi.steady, ?_, ?_⟩
  · intro k
    show Option.Rel _ (s'.objectMap.find? k) (t'.objectMap.find? k)
    rw [hmap, ht, SortedMap.find?_insert, SortedMap.find?_insert]
    by_cases hk : k = key
    · rw [if_pos hk, if_pos hk]
      exact .some ⟨rfl, List.mem_cons_self⟩
    · rw [if_neg hk, if_neg hk]
      exact Paired.mono _ (hi.objects k)
  · show Mirrors _ s'.heap t'.heap
    rw [hheap, ht]
    exact hi.memory.alloc hfresh.apart hfresh.same

theorem Inv.write (hi : T.Inv disk) {b : Block} {off : Nat} {bs : List Byte} (hb : b ∈ T.blocks)
    (hin : off + bs.length ≤ b.size) :
    Inv disk ⟨
      { T.nvs with store := { T.nvs.store with
        heap := store T.nvs.store.heap (b.left + off) bs } },
      { T.file with store := { T.file.store with
        heap := store T.file.store.heap (b.right + off) bs } }, T.blocks⟩ := by
  obtain ⟨items, hlife⟩ := hi.life
  exact ⟨⟨items, hlife.keep ⟨rfl, rfl, hlife.named⟩⟩, hi.dir.keep rfl, hi.singles, hi.puts, hi.plain,
    hi.steady, hi.objects, hi.memory.store hb hin⟩

theorem Inv.put (hplain : Disk.Plain disk.resolve) (hi : T.Inv disk) {code : ErrorCode}
    {ret : ErrorCode ⊕ Nat} {s' : NvsStore} {t' : FileStore} {junk : LeHdr} (hkey : PlainKey key)
    (hagain : T.SameAgain key version)
    (h : T.nvs.store.put junk key version = .ok (code, s'))
    (h' : T.file.store.put key version = .ok (ret, t')) :
    Inv disk ⟨T.nvs.after (.put junk key version) s', T.file.after (.put key version) t',
      T.blocks⟩ := by
  obtain ⟨items, hlife⟩ := hi.life
  have hlife' := (Life.step_of_call (c := .put junk key version)
    (fun k hk => absurd hk List.not_mem_nil) (NvsStore.call_put h)).inv hlife
  have hdir := FileLife.Step.inv hplain (.call (.put key version)
    ⟨hkey.trimRight_eq, hkey.usable version⟩ (congrArg (Except.map _) h')) hi.dir
  have hcases' := FileStore.put_cases h'
  have hrel := hi.objects key
  rw [hkey.trimRight_eq] at hcases'
  rcases NvsStore.put_cases h with ⟨hfind, _, hs⟩ | ⟨o, hfind, _, hmap, hheap⟩ <;>
    rcases hcases' with ⟨hfind', ht⟩ | ⟨o', d, hfind', _, ht⟩ <;> rw [hfind, hfind'] at hrel
  · -- the object exists on neither side, and nothing happens
    rw [Life.after_of_nil (by rw [Call.events, hfind]),
      FileLife.after_of_nil (by rw [FileCall.puts, hkey.trimRight_eq, hfind']), hs, ht]
    exact hi
  · cases hrel
  · cases hrel
  · cases hrel with
    | some hpair =>
    have hev : (Call.put junk key version).events T.nvs.store = [⟨T.nvs.store.log.writeOffset,
        o.size.toNat, .put (o.recorded T.nvs.store.heap key version)⟩] := by rw [Call.events, hfind]
    have hputs : (FileCall.put key version).puts T.file.store =
        [((key, version), o'.contents T.file.store.heap)] := by
      rw [FileCall.puts, hkey.trimRight_eq, hfind']
    rw [Life.after, FileLife.after, hev, hputs]
    rw [Life.after, hev] at hlife'
    rw [FileLife.after, hputs] at hdir
    refine ⟨hlife', hdir, ?_, ?_, ?_, hi.steady.concat (hagain o' hfind'), ?_, ?_⟩
    · exact List.forall_mem_append.mpr
        ⟨hi.singles, List.forall_mem_singleton.mpr ⟨_, rfl⟩⟩
    · show _ = putsOf (T.nvs.events ++ _)
      rw [putsOf_concat, ← hi.puts, ← hi.contents_eq hpair]
      rfl
    · exact List.forall_mem_append.mpr ⟨hi.plain, List.forall_mem_singleton.mpr hkey⟩
    · intro k
      show Option.Rel _ (s'.objectMap.find? k) (t'.objectMap.find? k)
      rw [hmap, ht]
      exact Paired.setVersion hi.objects key version k
    · show Mirrors T.blocks s'.heap t'.heap
      rw [hheap, ht]
      exact hi.memory

/-- Both sides answer, with the same bytes. -/
theorem Inv.answers (hempty : ∀ file, disk.content file = none) (hi : T.Inv disk)
    (hkey : PlainKey key) (version : UInt64) : ∃ found,
      (∀ data ∈ found, ((key, version), data) ∈ T.file.puts) ∧
      T.nvs.store.Answers key version found ∧ T.file.store.Answers key version found := by
  refine ⟨last T.file.puts (key, version), fun data h => mem_of_last h, ?_,
    hi.file_answers hempty hkey version⟩
  rw [← first_eq_last hi.steady]
  exact hi.nvs_answers hkey version

theorem Inv.get (hempty : ∀ file, disk.content file = none) (hi : T.Inv disk)
    {code code' : ErrorCode} {s' : NvsStore} {t' : FileStore} {wentry : WalkEntry} {b : Block}
    {off : Nat} (hkey : PlainKey key) (hb : b ∈ T.blocks) (hroom : T.Room key version b off)
    (h : ∃ N, ∀ fuel ≥ N, T.nvs.store.get wentry fuel key version (b.left + off) = .ok (code, s'))
    (h' : T.file.store.get key version (b.right + off) = (code', t')) :
    Inv disk ⟨{ T.nvs with store := s' }, { T.file with store := t' }, T.blocks⟩ := by
  obtain ⟨found, hfound, hnvs, hfile⟩ := hi.answers hempty hkey version
  obtain ⟨N, hN⟩ := h
  obtain ⟨N', hN'⟩ := hnvs T.nvs.store.heap wentry (b.left + off)
  have hs := (hN (max N N') (Nat.le_max_left _ _)).symm.trans
    (hN' (max N N') (Nat.le_max_right _ _))
  have ht := h'.symm.trans (hfile T.file.store.heap (b.right + off))
  cases found with
  | none =>
    obtain ⟨_, rfl⟩ := Prod.mk.inj (Except.ok.inj hs)
    obtain ⟨_, rfl⟩ := Prod.mk.inj ht
    exact hi
  | some data =>
    obtain ⟨_, rfl⟩ := Prod.mk.inj (Except.ok.inj hs)
    obtain ⟨_, rfl⟩ := Prod.mk.inj ht
    exact hi.write hb (hroom _ (hfound data rfl) rfl)

/-- **One request keeps the two alike.** -/
theorem Step.inv (hplain : Disk.Plain disk.resolve) (hempty : ∀ file, disk.content file = none)
    (h : Step PlainKey SameAgain T T') (hi : T.Inv disk) : T'.Inv disk := by
  cases h with
  | createObj key size tmpPtr tmpPtr' hkey hfresh h h' => exact hi.createObj hplain hkey hfresh h h'
  | malloc b hfresh =>
    exact ⟨hi.life, hi.dir, hi.singles, hi.puts, hi.plain, hi.steady,
      fun k => Paired.mono b (hi.objects k), hi.memory.alloc hfresh.apart hfresh.same⟩
  | write b off bs hb hin => exact hi.write hb hin
  | put junk key version hkey hagain h h' => exact hi.put hplain hkey hagain h h'
  | get wentry key version b off hkey hb hroom h h' => exact hi.get hempty hkey hb hroom h h'

theorem start_inv {size : Nat} {l : Log} {f : File} (heap heap' : Mem Byte)
    (hsize : sizeofLhdr ≤ size) (hnew : Log.ctor none size = .ok (l, f)) (disk : Disk) :
    (start l f heap disk heap').Inv disk where
  life := ⟨[], Life.start_inv heap hsize hnew⟩
  dir := ⟨rfl, fun _ => rfl, fun _ hw => absurd hw List.not_mem_nil⟩
  singles := fun _ he => absurd he List.not_mem_nil
  puts := rfl
  plain := fun _ hw => absurd hw List.not_mem_nil
  steady := fun _ hw => absurd hw List.not_mem_nil
  objects := fun _ => .none
  memory := ⟨List.Pairwise.nil, fun _ hb => absurd hb List.not_mem_nil⟩

end

end Twin

/-- **The stores are interchangeable** in every run, over keys that are plain, that puts a pair again
    with the same bytes only: in every state, a `get` succeeds in one store if and only if it succeeds
    in the other, and delivers the same bytes. -/
theorem stores_interchangeable {size : Nat} {l : Log} {f : File} {disk : Disk}
    {heap heap' : Mem Byte} (hsize : sizeofLhdr ≤ size) (hnew : Log.ctor none size = .ok (l, f))
    (hplain : Disk.Plain disk.resolve) (hempty : ∀ file, disk.content file = none) {T : Twin}
    (hrun : Relation.ReflTransGen (Twin.Step PlainKey Twin.SameAgain)
      (Twin.start l f heap disk heap') T) {key : Key} (hkey : PlainKey key) (version : UInt64) :
    ∃ found, T.nvs.store.Answers key version found ∧ T.file.store.Answers key version found := by
  have hi : T.Inv disk := Runs.invariant (P := fun T => T.Inv disk)
    (fun h hi => h.inv hplain hempty hi) hrun (Twin.start_inv heap heap' hsize hnew disk)
  obtain ⟨found, _, hboth⟩ := hi.answers hempty hkey version
  exact ⟨found, hboth⟩

/-! ### An object put twice -/

theorem wordKey_a : WordKey [97] :=
  ⟨by decide, List.forall_mem_singleton.mpr (by decide), List.forall_mem_singleton.mpr (by decide)⟩

theorem plainKey_a : PlainKey [97] := ⟨wordKey_a, by decide, by decide⟩

/-- "a" is created in both processes, at different addresses and with nines in it, and put as
    version 7. -/
theorem twin_put (valid : Key → Prop) (again : Twin → Key → UInt64 → Prop) (hvalid : valid [97])
    (hagain : ∀ T : Twin, T.file.puts = [] → again T [97] 7) :
    ∃ (l : Log) (f : File) (T : Twin) (off : Nat), Log.ctor none logSize = .ok (l, f) ∧
      Relation.ReflTransGen (Twin.Step valid again)
        (Twin.start l f (fun _ => 9) Disk.fresh (fun _ => 9)) T ∧
      T.blocks = [⟨4096, 8192, 4⟩] ∧
      T.nvs.store.objectMap.entries = [([97], (Object.ctor [97] 4 0 4096).setVersion 7)] ∧
      T.nvs.events =
        [⟨off, 4, .put ((Object.ctor [97] 4 0 4096).recorded (fun _ => 9) [97] 7)⟩] ∧
      (FileLife.start Disk.fresh (fun _ => 9)).perform
        [.createObj [97] 4 8192, .put [97] 7] = .ok T.file ∧
      ∃ items, T.nvs.Inv ShortKey items ∧ (encode (items.map Item.entry)).length = 148 ∧
        T.nvs.store.file.len = logSize := by
  obtain ⟨l, f, s₁, s₂, hnew, hcreate, hput, hobj, hheap, hentries, hr, hlen⟩ := one_put [97] 7
  obtain ⟨t₁, t₂, hcreate', hput', hperform⟩ : ∃ t₁ t₂,
      (FileStore.ctor Disk.fresh (fun _ => 9)).createObj [97] 4 8192 = .ok (.noError, 8192, t₁) ∧
      t₁.put [97] 7 = .ok (.inr 4, t₂) ∧
      (FileLife.start Disk.fresh (fun _ => 9)).perform [.createObj [97] 4 8192, .put [97] 7] =
        .ok (FileLife.after ⟨t₁, []⟩ (.put [97] 7) t₂) := ⟨_, _, rfl, rfl, rfl⟩
  have hev : (Call.put blankHdr [97] 7).events s₁ = [⟨s₁.log.writeOffset, 4,
      .put ((Object.ctor [97] 4 0 4096).recorded (fun _ => 9) [97] 7)⟩] := by
    rw [Call.events, hobj, hheap]
    rfl
  obtain ⟨items, hi⟩ := (Life.Step.createObj [97] 4 4096 plainKey_a.shortKey hcreate).inv
    (Life.start_inv (fun _ => 9) (by decide) hnew)
  obtain ⟨items, hi⟩ := (Life.step_of_call (c := .put blankHdr [97] 7)
    (fun k hk => absurd hk List.not_mem_nil) (NvsStore.call_put hput)).inv hi
  have hbody : (encode (items.map Item.entry)).length = 148 :=
    Nat.add_left_cancel ((hi.rep.tail_eq.symm.trans hr.tail_eq).trans
      (congrArg (32 + ·) (length_one_put [97] 7)))
  refine ⟨l, f, _, s₁.log.writeOffset, hnew, .tail (.single (.createObj [97] 4 4096 8192 hvalid ?_
    hcreate hcreate')) (.put blankHdr [97] 7 hvalid (hagain _ rfl) hput hput'), rfl, hentries,
    ?_, hperform, items, hi, hbody, hlen⟩
  · exact ⟨fun c hc => absurd hc List.not_mem_nil, fun i _ => rfl⟩
  · exact congrArg ([] ++ ·) hev

/-- The log's side of a second put, with whatever bytes. -/
theorem nvs_second_put {L : Life} {items : List Item} {off : Nat} (hi : L.Inv ShortKey items)
    (hbody : (encode (items.map Item.entry)).length = 148) (hlen : L.store.file.len = logSize)
    (hentries : L.store.objectMap.entries = [([97], (Object.ctor [97] 4 0 4096).setVersion 7)])
    (hev : L.events =
      [⟨off, 4, .put ((Object.ctor [97] 4 0 4096).recorded (fun _ => 9) [97] 7)⟩])
    (heap : Mem Byte) : ∃ s',
      NvsStore.put { L.store with heap := heap } blankHdr [97] 7 = .ok (.noError, s') ∧
      s'.Answers [97] 7 (some [9, 9, 9, 9]) := by
  have hobj : L.store.objectMap.find? [97] = some ((Object.ctor [97] 4 0 4096).setVersion 7) :=
    SortedMap.find?_of_singleton hentries
  have hsize : ((Object.ctor [97] 4 0 4096).setVersion 7).size.toNat = 4 := rfl
  have hi₁ : Life.Inv ShortKey { L with store := { L.store with heap := heap } } items :=
    hi.keep ⟨rfl, rfl, hi.named⟩
  obtain ⟨s', hput⟩ := NvsStore.put_of_fits hi₁.rep hi₁.synced blankHdr 7 hobj
    (by rw [hbody, hsize]; show _ ≤ L.store.file.len - 1; rw [hlen]; decide)
  obtain ⟨items₂, hi₂⟩ := (Life.step_of_call (c := .put blankHdr [97] 7)
    (fun k hk => absurd hk List.not_mem_nil) (NvsStore.call_put hput)).inv hi₁
  have hev₂ : (Call.put blankHdr [97] 7).events { L.store with heap := heap } =
      [⟨L.store.log.writeOffset, 4,
        .put (((Object.ctor [97] 4 0 4096).setVersion 7).recorded heap [97] 7)⟩] := by
    rw [Call.events]
    dsimp only
    rw [hobj]
    rfl
  rw [Life.after, hev₂, hev] at hi₂
  refine ⟨s', hput, hi₂.answers ?_ plainKey_a.shortKey 7⟩
  intro e he
  rcases List.mem_pair.mp he with rfl | rfl
  · exact ⟨_, rfl⟩
  · exact ⟨_, rfl⟩

/-- The directory's side of a second put, with the same bytes. -/
theorem file_same_put : ∃ (F : FileLife) (t' : FileStore),
    (FileLife.start Disk.fresh (fun _ => 9)).perform [.createObj [97] 4 8192, .put [97] 7] = .ok F ∧
    F.store.put [97] 7 = .ok (.inr 4, t') ∧ F.puts = [(([97], 7), [9, 9, 9, 9])] ∧
    F.store.objectMap.entries = [([97], Object.ctor [97] 4 0 8192)] ∧
    F.store.heap = (fun _ => 9) := ⟨_, _, rfl, rfl, rfl, rfl, rfl⟩

/-- "a" is put twice as version 7, with the same bytes, and both stores answer with them. -/
theorem stores_interchangeable_same_put : ∃ l f T, Log.ctor none logSize = .ok (l, f) ∧
    Relation.ReflTransGen (Twin.Step PlainKey Twin.SameAgain)
      (Twin.start l f (fun _ => 9) Disk.fresh (fun _ => 9)) T ∧
    T.file.puts = [(([97], 7), [9, 9, 9, 9]), (([97], 7), [9, 9, 9, 9])] ∧
    T.nvs.store.Answers [97] 7 (some [9, 9, 9, 9]) ∧
    T.file.store.Answers [97] 7 (some [9, 9, 9, 9]) := by
  have hagain : ∀ T : Twin, T.file.puts = [] → T.SameAgain [97] 7 := by
    intro T hputs o _ w hw
    rw [hputs] at hw
    exact absurd hw List.not_mem_nil
  obtain ⟨l, f, T, off, hnew, hrun, _, hentries, hev, hperform, items, hi, hbody, hlen⟩ :=
    twin_put PlainKey Twin.SameAgain plainKey_a hagain
  obtain ⟨s', hput, hnvs⟩ := nvs_second_put hi hbody hlen hentries hev T.nvs.store.heap
  obtain ⟨F, t', hF, hput', hputs, hfiled, hheap⟩ := file_same_put
  obtain rfl : F = T.file := Except.ok.inj (hF.symm.trans hperform)
  have hfind := SortedMap.find?_of_singleton hfiled
  have hsame : T.SameAgain [97] 7 := by
    intro o ho w hw _
    obtain rfl := Option.some.inj (hfind.symm.trans ho)
    rw [hputs] at hw
    rw [List.mem_singleton.mp hw, hheap]
    rfl
  have hrun' := hrun.tail (.put blankHdr [97] 7 plainKey_a hsame hput hput')
  have hputs' : (FileCall.put [97] 7).puts T.file.store = [(([97], 7), [9, 9, 9, 9])] := by
    rw [FileCall.puts, wordKey_a.trimRight_eq, hfind, hheap]
    rfl
  obtain ⟨found, h, h'⟩ := stores_interchangeable (by decide) hnew Disk.plain_fresh (fun _ => rfl)
    hrun' plainKey_a 7
  obtain rfl : some [9, 9, 9, 9] = found := hnvs.unique h
  refine ⟨l, f, _, hnew, hrun', ?_, h, h'⟩
  show T.file.puts ++ (FileCall.put [97] 7).puts T.file.store = _
  rw [hputs, hputs']
  rfl

/-- The directory's side of a second put, with eights. -/
theorem file_second_put : ∃ (F : FileLife) (t' : FileStore),
    (FileLife.start Disk.fresh (fun _ => 9)).perform [.createObj [97] 4 8192, .put [97] 7] = .ok F ∧
    FileStore.put { F.store with heap := store F.store.heap (8192 + 0) [8, 8, 8, 8] } [97] 7 =
      .ok (.inr 4, t') ∧ t'.Answers [97] 7 (some [8, 8, 8, 8]) := by
  obtain ⟨F, t', F', hF, hput, hperform, hstore, hputs⟩ : ∃ F t' F',
      (FileLife.start Disk.fresh (fun _ => 9)).perform [.createObj [97] 4 8192, .put [97] 7] =
        .ok F ∧
      FileStore.put { F.store with heap := store F.store.heap (8192 + 0) [8, 8, 8, 8] } [97] 7 =
        .ok (.inr 4, t') ∧
      (FileLife.start Disk.fresh (fun _ => 9)).perform [.createObj [97] 4 8192, .put [97] 7,
        .appWrite 8192 [8, 8, 8, 8], .put [97] 7] = .ok F' ∧ F'.store = t' ∧
      F'.puts = [(([97], 7), [9, 9, 9, 9]),
        (([97], 7), load (store (fun _ => 9) 8192 [8, 8, 8, 8]) 8192 4)] :=
    ⟨_, _, _, rfl, rfl, rfl, rfl, rfl⟩
  have heights : load (store (fun _ => (9 : Byte)) 8192 [8, 8, 8, 8]) 8192 4 = [8, 8, 8, 8] :=
    load_store_self _ _ _
  have hinv := FileLife.run_inv Disk.plain_fresh (FileLife.run_of_perform (by
    rw [List.forall_mem_cons, List.forall_mem_cons, List.forall_mem_cons,
      List.forall_mem_singleton]
    exact ⟨rfl, ⟨rfl, plainKey_a.usable 7⟩, trivial, ⟨rfl, plainKey_a.usable 7⟩⟩) hperform)
  refine ⟨F, t', hF, hput, ?_⟩
  have h := t'.answers_read [97] 7
  rw [← hstore] at h ⊢
  rw [wordKey_a.trimRight_eq, hinv.read (plainKey_a.usable 7), FileLife.written, hputs, heights] at h
  exact h

/-- **The second put tells the stores apart.**  "a" is put as version 7 with nines in it, then with
    eights: `NVSStore` returns the nines, `FileStore` the eights. -/
theorem second_put_differs : ∃ l f T, Log.ctor none logSize = .ok (l, f) ∧
    Relation.ReflTransGen (Twin.Step WordKey (fun _ _ _ => True))
      (Twin.start l f (fun _ => 9) Disk.fresh (fun _ => 9)) T ∧
    T.nvs.store.Answers [97] 7 (some [9, 9, 9, 9]) ∧
    T.file.store.Answers [97] 7 (some [8, 8, 8, 8]) ∧
    ¬ ∃ found, T.nvs.store.Answers [97] 7 found ∧ T.file.store.Answers [97] 7 found := by
  obtain ⟨l, f, T, off, hnew, hrun, hblocks, hentries, hev, hperform, items, hi, hbody,
    hlen⟩ := twin_put WordKey (fun _ _ _ => True) wordKey_a (fun _ _ => trivial)
  obtain ⟨s', hput, hnvs⟩ := nvs_second_put hi hbody hlen hentries hev
    (store T.nvs.store.heap (4096 + 0) [8, 8, 8, 8])
  obtain ⟨F, t', hF, hput', hfile⟩ := file_second_put
  obtain rfl : F = T.file := Except.ok.inj (hF.symm.trans hperform)
  refine ⟨l, f, _, hnew, .tail (.tail hrun (.write ⟨4096, 8192, 4⟩ 0 [8, 8, 8, 8]
    (by rw [hblocks]; exact List.mem_singleton.mpr rfl) (Nat.le_refl 4)))
    (.put blankHdr [97] 7 wordKey_a trivial hput hput'), hnvs, hfile, ?_⟩
  rintro ⟨found, h, h'⟩
  exact absurd ((hnvs.unique h).trans (h'.unique hfile)) (by decide)

end NvStream
