/-
  Which file a key and a version are in.

  `FileStore` turns a pair into ONE file name by writing the version behind the key, with nothing in
  between.  So ("a", 11) and ("a1", 1) are the same file.  `pairs_kept_apart` says what that means
  over whole runs: `get` returns the bytes of the most recent `put` of the pair exactly as long as no
  later `put` of a pair with the same name wrote something else; where the pairs put have different
  names, always.

  `put_all` does put something in between, a "_", and the readers do not look there.  A snapshot can
  be read back exactly where the file the readers open happens to hold the right bytes
  (`snapshot_readable_iff`): because another object's snapshot file has that name, or because an
  earlier `put` left them there.

  The only assumption about the kernel is `Disk.Plain`, and only for the first result.
-/
import NvStream.FileStore.Basic
import Mathlib.Logic.Equiv.List

namespace NvStream

open FlatMem LittleEndian Decimal Overwrite

/-! ## What the readers return -/

namespace FileStore

/-- After which `get` brings back `data` for a key and a version, whatever the heap holds then. -/
def Delivers (s : FileStore) (key : Key) (version : UInt64) (data : List Byte) : Prop :=
  ∀ heap dst, FileStore.get { s with heap := heap } key version dst =
    (.noError, { s with heap := store heap dst data })

/-- After which `get_with_malloc` brings back `data` for a key and a version. -/
def DeliversMalloc (s : FileStore) (key : Key) (version : UInt64) (data : List Byte) : Prop :=
  ∀ heap tmpPtr, ∃ addr s', FileStore.getWithMalloc { s with heap := heap } key version tmpPtr =
    (.noError, some addr, s') ∧ s'.heap = store heap addr data

variable {s : FileStore} {key : Key} {version : UInt64} {data : List Byte}

/-- **`get` returns the bytes of one file.** -/
theorem delivers_iff : s.Delivers key version data ↔
    s.disk.read (fileName (trimRight key) version) = some data := by
  constructor
  · intro h
    rcases FileStore.get_cases s key version 0 with ⟨hread, heq⟩ | ⟨data', hread, _⟩
    · cases heq.symm.trans (h s.heap 0)
    · -- the heap is arbitrary, so equal results mean equal bytes
      rw [hread]
      refine congrArg some (store_inj 0 (fun heap => ?_))
      rcases FileStore.get_cases { s with heap := heap } key version 0 with
        ⟨_, heq⟩ | ⟨data'', hread', heq⟩
      · cases heq.symm.trans (h heap 0)
      · rw [Option.some.inj (hread.symm.trans hread')]
        exact congrArg (fun r => r.2.heap) (heq.symm.trans (h heap 0))
  · intro hread heap dst
    rcases FileStore.get_cases { s with heap := heap } key version dst with
      ⟨hnone, _⟩ | ⟨data', hread', heq⟩
    · cases hread.symm.trans hnone
    · rw [heq, Option.some.inj (hread'.symm.trans hread)]

/-- **`get_with_malloc` returns the bytes of the same file.** -/
theorem deliversMalloc_iff : s.DeliversMalloc key version data ↔
    s.disk.read (fileName (trimRight key) version) = some data := by
  constructor
  · intro h
    rcases getWithMalloc_cases s key version 0 with ⟨_, heq⟩ | ⟨data', hread, _⟩
    · obtain ⟨addr, s', hget, _⟩ := h s.heap 0
      cases heq.symm.trans hget
    · rw [hread]
      refine congrArg some (store_inj (s.filled key version 0 data').ptr (fun heap => ?_))
      obtain ⟨addr, s', hget, hheap⟩ := h heap 0
      rcases getWithMalloc_cases { s with heap := heap } key version 0 with
        ⟨_, heq⟩ | ⟨data'', hread', heq⟩
      · cases heq.symm.trans hget
      · obtain rfl := Option.some.inj (hread.symm.trans hread')
        have hboth := heq.symm.trans hget
        simp only [Prod.mk.injEq, true_and, Option.some.injEq] at hboth
        obtain ⟨rfl, rfl⟩ := hboth
        exact hheap
  · intro hread heap tmpPtr
    rcases getWithMalloc_cases { s with heap := heap } key version tmpPtr with
      ⟨hnone, _⟩ | ⟨data', hread', heq⟩
    · cases hread.symm.trans hnone
    · obtain rfl := Option.some.inj (hread'.symm.trans hread)
      exact ⟨_, _, heq, rfl⟩

end FileStore

/-! ## Pairs -/

/-- The calls of an application that creates, changes, puts and gets objects, over keys that are
    right-trimmed and, with their versions, usable as file names. -/
def PairCall : FileCall → Prop
  | .createObj key _ _ => trimRight key = key
  | .put key version => trimRight key = key ∧ Disk.Usable (fileName key version)
  | .get _ _ _ => True
  | .appWrite _ _ => True
  | _ => False

namespace FileLife

/-- What was put, by file name. -/
def written (L : FileLife) : List (List Byte × List Byte) :=
  L.puts.map (fun w => (fileName w.1.1 w.1.2, w.2))

/-- The directory is what it was at first, overwritten by what was put. -/
structure Inv (disk : Disk) (L : FileLife) : Prop where
  resolve : L.store.disk.resolve = disk.resolve
  read : ∀ {name}, Disk.Usable name →
    L.store.disk.read name = (last L.written name).or (disk.read name)
  pairs : ∀ w ∈ L.puts, trimRight w.1.1 = w.1.1 ∧ Disk.Usable (fileName w.1.1 w.1.2)

variable {disk : Disk} {heap : Mem Byte} {L L' : FileLife}

/-- A call that leaves the directory alone. -/
theorem Inv.keep (hi : L.Inv disk) {s' : FileStore} (h : s'.disk = L.store.disk) :
    Inv disk { L with store := s' } := by
  refine ⟨?_, ?_, hi.pairs⟩
  · show s'.disk.resolve = _
    rw [h]
    exact hi.resolve
  · intro name hname
    show s'.disk.read name = _
    rw [h]
    exact hi.read hname

/-- A `put` adds one write to the directory. -/
theorem Inv.put (hplain : Disk.Plain disk.resolve) (hi : L.Inv disk) {s' : FileStore} {key : Key}
    {version : UInt64} {obj : Object} {d : Disk} (hkey : trimRight key = key)
    (hname : Disk.Usable (fileName key version))
    (hwrite : L.store.disk.write (fileName key version) (obj.contents L.store.heap) = some d)
    (hs : s' = { L.store with disk := d }) :
    Inv disk ⟨s', L.puts ++ [((key, version), obj.contents L.store.heap)]⟩ := by
  subst hs
  have hplain' : Disk.Plain L.store.disk.resolve := by
    rw [hi.resolve]
    exact hplain
  refine ⟨?_, ?_, ?_⟩
  · obtain ⟨_, _, rfl⟩ := Disk.write_eq_some hwrite
    exact hi.resolve
  · intro name hname'
    have hwritten : written ⟨{ L.store with disk := d },
        L.puts ++ [((key, version), obj.contents L.store.heap)]⟩ =
        L.written ++ [(fileName key version, obj.contents L.store.heap)] := List.map_append
    show d.read name = _
    rw [Disk.read_write hplain' hname hname' hwrite, hi.read hname', hwritten, last_concat]
    dsimp only
    split
    · rw [Option.some_or]
    · rfl
  · intro w hw
    rcases List.mem_append.mp hw with hw | hw
    · exact hi.pairs w hw
    · rw [List.mem_singleton.mp hw]
      exact ⟨hkey, hname⟩

/-- **One call keeps the directory as described.** -/
theorem Step.inv (hplain : Disk.Plain disk.resolve) (h : Step PairCall L L') (hi : L.Inv disk) :
    L'.Inv disk := by
  obtain ⟨c, hok, h⟩ := h
  cases c with
  | createObj key size tmpPtr =>
    obtain ⟨a, ha, rfl⟩ := Except.map_eq_ok h
    rw [after_of_nil rfl, (FileStore.createObj_cases ha).2]
    exact hi.keep rfl
  | put key version =>
    obtain ⟨a, ha, rfl⟩ := Except.map_eq_ok h
    obtain ⟨hkey, hname⟩ := hok
    rcases FileStore.put_cases ha with ⟨hfind, heq⟩ | ⟨obj, d, hfind, hwrite, heq⟩
    · rw [after_of_nil (by rw [FileCall.puts, hfind])]
      exact hi.keep (congrArg FileStore.disk heq)
    · rw [after, FileCall.puts, hfind, hkey]
      rw [hkey] at hwrite
      exact hi.put hplain hkey hname hwrite heq
  | get key version addr =>
    rw [after_of_nil rfl, ← Except.ok.inj h]
    rcases FileStore.get_cases L.store key version addr with ⟨_, heq⟩ | ⟨_, _, heq⟩
    · exact hi.keep (congrArg (fun r => r.2.disk) heq)
    · exact hi.keep (congrArg (fun r => r.2.disk) heq)
  | appWrite addr bs =>
    rw [after_of_nil rfl, ← Except.ok.inj h]
    exact hi.keep rfl
  | freeObj | putAll | getWithMalloc => exact absurd hok not_false

/-- **So does every run.** -/
theorem run_inv (hplain : Disk.Plain disk.resolve)
    (hrun : Relation.ReflTransGen (Step PairCall) (start disk heap) L) : L.Inv disk := by
  refine Runs.invariant (P := fun L => L.Inv disk) (fun h hi => h.inv hplain hi) hrun ?_
  exact ⟨rfl, fun _ => rfl, fun w hw => absurd hw List.not_mem_nil⟩

/-- A pair that was put is read from the file the most recent `put` under its name wrote. -/
theorem Inv.read_put (hi : L.Inv disk) {key : Key} {version : UInt64} {bs : List Byte}
    (hput : last L.puts (key, version) = some bs) :
    trimRight key = key ∧
      L.store.disk.read (fileName key version) = last L.written (fileName key version) := by
  have hmem := mem_of_last hput
  obtain ⟨hkey, hname⟩ := hi.pairs _ hmem
  refine ⟨hkey, ?_⟩
  rw [hi.read hname]
  cases hlast : last L.written (fileName key version) with
  | none => exact absurd rfl (last_eq_none.mp hlast _ (List.mem_map_of_mem hmem))
  | some data => rfl

end FileLife

/-- **Which pairs `FileStore` keeps apart.**  In every state of every run, for a pair that was put:
    `get` returns the bytes of the most recent `put` of THE PAIR if and only if the most recent `put`
    under its FILE NAME wrote those bytes.  As long as the pairs put in the run have different names,
    that is always so. -/
theorem pairs_kept_apart {disk : Disk} {heap : Mem Byte} (hplain : Disk.Plain disk.resolve)
    {L : FileLife}
    (hrun : Relation.ReflTransGen (FileLife.Step PairCall) (FileLife.start disk heap) L) :
    (∀ key version bs, last L.puts (key, version) = some bs →
      (L.store.Delivers key version bs ↔ last L.written (fileName key version) = some bs)) ∧
    ((∀ w ∈ L.puts, ∀ w' ∈ L.puts,
        fileName w.1.1 w.1.2 = fileName w'.1.1 w'.1.2 → w.1 = w'.1) →
      ∀ key version bs, last L.puts (key, version) = some bs →
        L.store.Delivers key version bs) := by
  have hi := FileLife.run_inv hplain hrun
  have hiff : ∀ key version bs, last L.puts (key, version) = some bs →
      (L.store.Delivers key version bs ↔ last L.written (fileName key version) = some bs) := by
    intro key version bs hput
    obtain ⟨hkey, hread⟩ := hi.read_put hput
    rw [FileStore.delivers_iff, hkey, hread]
  refine ⟨hiff, ?_⟩
  intro hnames key version bs hput
  rw [hiff key version bs hput, ← hput]
  exact last_map (f := fun k : Key × UInt64 => fileName k.1 k.2) (k := (key, version))
    (fun w hw heq => hnames w hw _ (mem_of_last hput) heq)

/-! ### Two objects -/

/-- An empty directory in which every name is a file of its own. -/
def Disk.fresh : Disk := ⟨fun name => some (Encodable.encode name), fun _ => none⟩

theorem Disk.plain_fresh : Plain Disk.fresh.resolve := by
  refine ⟨fun _ => rfl, ?_⟩
  intro name name' _ _ h
  exact Encodable.encode_injective (Option.some.inj h)

/-- Memory with nines below address 8192 and eights from there on. -/
def ninesAndEights : Mem Byte := fun a => if a < 8192 then 9 else 8

/-- "a" and "a1" are created, with four nines and four eights in them, and "a" is put as version
    11. -/
def putA : List FileCall :=
  [.createObj [97] 4 4096, .createObj [97, 49] 4 8192, .put [97] 11]

theorem pairCall_putA : ∀ c ∈ putA, PairCall c := by
  have husable : Disk.Usable (fileName [97] 11) := by
    refine ⟨?_, ?_, ?_, ?_⟩ <;> decide
  rw [putA, List.forall_mem_cons, List.forall_mem_cons, List.forall_mem_singleton]
  exact ⟨rfl, rfl, rfl, husable⟩

/-- "a1" is put as version 2, and "a" once more as version 11, with two sevens in it. -/
theorem pairs_kept_apart_two_pairs : ∃ L : FileLife,
    (FileLife.start Disk.fresh ninesAndEights).perform
      (putA ++ [.put [97, 49] 2, .appWrite 4096 [7, 7], .put [97] 11]) = .ok L ∧
    L.store.Delivers [97] 11 [7, 7, 9, 9] ∧ L.store.Delivers [97, 49] 2 [8, 8, 8, 8] := by
  obtain ⟨L, hperform, hputs⟩ : ∃ L,
      (FileLife.start Disk.fresh ninesAndEights).perform
        (putA ++ [.put [97, 49] 2, .appWrite 4096 [7, 7], .put [97] 11]) = .ok L ∧
      L.puts = [(([97], 11), [9, 9, 9, 9]), (([97, 49], 2), [8, 8, 8, 8]),
        (([97], 11), [7, 7, 9, 9])] := ⟨_, rfl, by decide⟩
  have hcalls : ∀ c ∈ putA ++ [.put [97, 49] 2, .appWrite 4096 [7, 7], .put [97] 11],
      PairCall c := by
    have husable : Disk.Usable (fileName [97, 49] 2) := by
      refine ⟨?_, ?_, ?_, ?_⟩ <;> decide
    rw [List.forall_mem_append, List.forall_mem_cons, List.forall_mem_cons,
      List.forall_mem_singleton]
    refine ⟨pairCall_putA, ⟨rfl, husable⟩, trivial, pairCall_putA _ ?_⟩
    exact List.mem_cons_of_mem _ (List.mem_cons_of_mem _ (List.mem_singleton_self _))
  have h := (pairs_kept_apart Disk.plain_fresh (FileLife.run_of_perform hcalls hperform)).2
  rw [hputs] at h
  have hdelivers := h (by decide)
  exact ⟨L, hperform, hdelivers [97] 11 _ (by decide), hdelivers [97, 49] 2 _ (by decide)⟩

/-- **Two pairs, one file.**  Putting ("a1", 1) changes what `get` returns for ("a", 11). -/
theorem two_pairs_one_file : ∃ L : FileLife,
    (FileLife.start Disk.fresh ninesAndEights).perform (putA ++ [.put [97, 49] 1]) = .ok L ∧
    (∀ c ∈ putA ++ [.put [97, 49] 1], PairCall c) ∧
    last L.puts ([97], 11) = some [9, 9, 9, 9] ∧ L.store.Delivers [97] 11 [8, 8, 8, 8] ∧
    ¬ L.store.Delivers [97] 11 [9, 9, 9, 9] := by
  obtain ⟨L, hperform, hputs⟩ : ∃ L,
      (FileLife.start Disk.fresh ninesAndEights).perform (putA ++ [.put [97, 49] 1]) = .ok L ∧
      L.puts = [(([97], 11), [9, 9, 9, 9]), (([97, 49], 1), [8, 8, 8, 8])] := ⟨_, rfl, rfl⟩
  have hcalls : ∀ c ∈ putA ++ [.put [97, 49] 1], PairCall c := by
    have husable : Disk.Usable (fileName [97, 49] 1) := by
      refine ⟨?_, ?_, ?_, ?_⟩ <;> decide
    rw [List.forall_mem_append, List.forall_mem_singleton]
    exact ⟨pairCall_putA, rfl, husable⟩
  have hlast : last L.puts ([97], 11) = some [9, 9, 9, 9] := by
    rw [hputs]
    decide
  obtain ⟨hkey, hread⟩ := (FileLife.run_inv Disk.plain_fresh
    (FileLife.run_of_perform hcalls hperform)).read_put hlast
  have heights : last L.written (fileName [97] 11) = some [8, 8, 8, 8] := by
    rw [FileLife.written, hputs]
    decide
  refine ⟨L, hperform, hcalls, hlast, ?_, ?_⟩
  · rw [FileStore.delivers_iff, hkey, hread, heights]
  · rw [FileStore.delivers_iff, hkey, hread, heights]
    decide

/-! ## Snapshots -/

namespace FileStore

variable {s s' : FileStore}

/-- Right after a `put_all`, the readers find an object's bytes: the file they open, whose name has no
    "_" in it, is the one that the last of the snapshot's writes to it filled with those bytes, or no
    write of the snapshot goes there and it held them before. -/
def ReadsBack (s : FileStore) (p : Key × Object) : Prop :=
  ∃ file, s.disk.resolve (cStr (fileName p.1 (p.2.version + 1))) = some file ∧
    (last (s.disk.files s.snapshotWrites) file).or (s.disk.content file) =
      some (p.2.contents s.heap)

/-- What a name reads as, behind a `put_all`. -/
theorem read_putAll {n : Nat} (h : s.putAll = .ok (n, s')) (name : List Byte) :
    s'.disk.read name = (s.disk.resolve (cStr name)).bind (fun file =>
      (last (s.disk.files s.snapshotWrites) file).or (s.disk.content file)) := by
  rw [putAll_ok h, Disk.read]
  dsimp only
  congr 1
  funext file
  exact writeAll_apply _ _ file

/-- A file that is none of the snapshot's reads as before. -/
theorem read_putAll_of_ne {n : Nat} (h : s.putAll = .ok (n, s')) {name : List Byte}
    (hne : ∀ q ∈ s.objectMap.entries,
      s.disk.resolve (cStr (snapshotName q.1 (q.2.version + 1))) ≠ s.disk.resolve (cStr name)) :
    s'.disk.read name = s.disk.read name := by
  rw [read_putAll h, Disk.read]
  cases hfile : s.disk.resolve (cStr name) with
  | none => rfl
  | some file =>
    have hnone : last (s.disk.files s.snapshotWrites) file = none := by
      rw [last_eq_none]
      intro w hw heq
      obtain ⟨v, hv, hw⟩ := List.mem_filterMap.mp hw
      obtain ⟨q, hq, rfl⟩ := List.mem_map.mp hv
      obtain ⟨file', hfile', rfl⟩ := Option.map_eq_some_iff.mp hw
      rw [← heq] at hfile
      exact hne q hq (hfile'.trans hfile.symm)
    rw [Option.bind_some, Option.bind_some, hnone, Option.none_or]

end FileStore

/-- **Which snapshots can be read back.**  In every state of every run, after a `put_all`: `get` and
    `get_with_malloc` return every object's bytes under its version if and only if each object reads
    back from the state before.  An object that is read from a file which is none of the snapshot's
    reads as if `put_all` had not run. -/
theorem snapshot_readable_iff {disk : Disk} {heap : Mem Byte} {L : FileLife}
    (hrun : Relation.ReflTransGen (FileLife.Step (fun _ => True)) (FileLife.start disk heap) L)
    {n : Nat} {s' : FileStore} (hput : L.store.putAll = .ok (n, s')) :
    ((∀ p ∈ s'.objectMap.entries,
        s'.Delivers p.1 p.2.version (p.2.contents s'.heap) ∧
        s'.DeliversMalloc p.1 p.2.version (p.2.contents s'.heap)) ↔
      ∀ p ∈ L.store.objectMap.entries, L.store.ReadsBack p) ∧
    ∀ p ∈ s'.objectMap.entries, (∀ q ∈ L.store.objectMap.entries,
        L.store.disk.resolve (cStr (snapshotName q.1 (q.2.version + 1))) ≠
          L.store.disk.resolve (cStr (fileName p.1 p.2.version))) →
      ∀ data, (s'.Delivers p.1 p.2.version data ↔ L.store.Delivers p.1 p.2.version data) := by
  have htrim : s'.Trimmed := (FileLife.trimmed hrun).after (c := .putAll) (congrArg (Except.map _) hput)
  have hs' := FileStore.putAll_ok hput
  have hheap : s'.heap = L.store.heap := by rw [hs']
  have hmap : s'.objectMap =
      L.store.objectMap.mapVal (fun _ obj => obj.setVersion (obj.version + 1)) := by rw [hs']
  refine ⟨?_, ?_⟩
  · constructor
    · intro h p hp
      have hp' : (p.1, p.2.setVersion (p.2.version + 1)) ∈ s'.objectMap.entries := by
        rw [hmap]
        exact (SortedMap.mem_mapVal _ _ _).mpr ⟨p.2, hp, rfl⟩
      have hread := FileStore.delivers_iff.mp (h _ hp').1
      rw [htrim _ hp', FileStore.read_putAll hput, hheap] at hread
      exact Option.bind_eq_some_iff.mp hread
    · intro h p hp
      have hkey := htrim p hp
      rw [hmap] at hp
      obtain ⟨o, ho, hpo⟩ := (SortedMap.mem_mapVal _ _ _).mp hp
      have hread : s'.disk.read (fileName (trimRight p.1) p.2.version) =
          some (p.2.contents s'.heap) := by
        rw [hkey, FileStore.read_putAll hput, hheap, hpo]
        exact Option.bind_eq_some_iff.mpr (h (p.1, o) ho)
      exact ⟨FileStore.delivers_iff.mpr hread, FileStore.deliversMalloc_iff.mpr hread⟩
  · intro p hp hne data
    rw [FileStore.delivers_iff, FileStore.delivers_iff, htrim p hp,
      FileStore.read_putAll_of_ne hput hne]

/-- The snapshot file of "a", version 1, is not the file the readers open. -/
theorem snapshotName_ne : Disk.fresh.resolve (cStr (snapshotName [97] 1)) ≠
    Disk.fresh.resolve (cStr (fileName [97] 1)) := by
  intro h
  exact absurd (Encodable.encode_injective (Option.some.inj h)) (by decide)

/-- "a" is created, put as version 1, and then snapshotted as version 1. -/
theorem snapshot_readable_iff_put_before : ∃ (L : FileLife) (n : Nat) (s' : FileStore),
    (FileLife.start Disk.fresh ninesAndEights).perform
      [.createObj [97] 4 4096, .put [97] 1] = .ok L ∧
    L.store.putAll = .ok (n, s') ∧
    ∀ p ∈ s'.objectMap.entries, s'.Delivers p.1 p.2.version (p.2.contents s'.heap) ∧
      s'.DeliversMalloc p.1 p.2.version (p.2.contents s'.heap) := by
  obtain ⟨L, hperform, hentries, hresolve, hcontent, hwrites, n, s', hput⟩ : ∃ L,
      (FileLife.start Disk.fresh ninesAndEights).perform
        [.createObj [97] 4 4096, .put [97] 1] = .ok L ∧
      L.store.objectMap.entries = [([97], Object.ctor [97] 4 0 4096)] ∧
      L.store.disk.resolve = Disk.fresh.resolve ∧
      L.store.disk.content = Function.update (fun _ => none) (Encodable.encode (fileName [97] 1))
        (some ((Object.ctor [97] 4 0 4096).contents L.store.heap)) ∧
      L.store.disk.files L.store.snapshotWrites =
        [(Encodable.encode (snapshotName [97] 1), [9, 9, 9, 9])] ∧
      ∃ n s', L.store.putAll = .ok (n, s') :=
    ⟨_, rfl, rfl, rfl, rfl, rfl, _, _, rfl⟩
  refine ⟨L, n, s', hperform, hput, ?_⟩
  have hrun := FileLife.run_of_perform (fun _ _ => trivial) hperform
  refine (snapshot_readable_iff hrun hput).1.mpr ?_
  intro p hp
  rw [hentries] at hp
  rw [List.mem_singleton.mp hp]
  refine ⟨Encodable.encode (fileName [97] 1), by rw [hresolve]; rfl, ?_⟩
  have hlast : last (L.store.disk.files L.store.snapshotWrites)
      (Encodable.encode (fileName [97] 1)) = none := by
    rw [hwrites, last_eq_none, List.forall_mem_singleton]
    exact fun h => snapshotName_ne (congrArg some h)
  rw [hlast, Option.none_or, hcontent, Function.update_self]

/-- **A snapshot that cannot be read.**  "a" is created and snapshotted; neither reader finds its
    version 1. -/
theorem snapshot_not_found : ∃ (L : FileLife) (n : Nat) (s' : FileStore),
    (FileLife.start Disk.fresh ninesAndEights).perform [.createObj [97] 4 4096] = .ok L ∧
    L.store.putAll = .ok (n, s') ∧
    (∃ p ∈ s'.objectMap.entries, p.1 = [97] ∧ p.2.version = 1) ∧
    ∀ addr, s'.get [97] 1 addr = (.elemNotFound, s') ∧
      s'.getWithMalloc [97] 1 addr = (.elemNotFound, none, s') := by
  obtain ⟨L, hperform, hentries, hdisk, n, s', hput, hobj⟩ : ∃ L,
      (FileLife.start Disk.fresh ninesAndEights).perform [.createObj [97] 4 4096] = .ok L ∧
      L.store.objectMap.entries = [([97], Object.ctor [97] 4 0 4096)] ∧
      L.store.disk = Disk.fresh ∧
      ∃ n s', L.store.putAll = .ok (n, s') ∧ s'.objectMap.entries =
        [([97], (Object.ctor [97] 4 0 4096).setVersion 1)] :=
    ⟨_, rfl, rfl, rfl, _, _, rfl, rfl⟩
  have hread : s'.disk.read (fileName [97] 1) = none := by
    rw [FileStore.read_putAll_of_ne hput, hdisk]
    · rfl
    · intro q hq
      rw [hentries] at hq
      rw [List.mem_singleton.mp hq, hdisk]
      exact snapshotName_ne
  refine ⟨L, n, s', hperform, hput, ?_, ?_⟩
  · rw [hobj]
    exact ⟨_, List.mem_singleton.mpr rfl, rfl, rfl⟩
  · intro addr
    constructor
    · rcases FileStore.get_cases s' [97] 1 addr with ⟨_, heq⟩ | ⟨data, hsome, _⟩
      · exact heq
      · cases hread.symm.trans hsome
    · rcases FileStore.getWithMalloc_cases s' [97] 1 addr with ⟨_, heq⟩ | ⟨data, hsome, _⟩
      · exact heq
      · cases hread.symm.trans hsome

end NvStream
