/-
  `FileStore` (`src/kvstore/file_store.cc`), as the code computes it.

  The store that writes every version into a file of its own.  Each method builds the path by itself:

      put, get, get_with_malloc    ROOT_FILE_PATH/storeId/ + key + version
      put_all                      ROOT_FILE_PATH/storeId/ + key + "_" + version

  and `create_obj`, `put`, `get` and `get_with_malloc` first cut trailing white space off the key.
  `put` does NOT set the object's version, `create_obj` does not fill `addrMap`, so `free_obj` always
  exits.

  What the kernel makes of a path is outside this code.  `Disk.resolve` is its answer: the file that a
  name in the store's directory stands for, if it can be opened at all.  `Disk.Plain` is all that is
  assumed of it, where anything is: names with no slash in them, and not too long, stand for files of
  their own.
-/
import NvStream.Object
import NvStream.Lib.SortedMap
import NvStream.Lib.Decimal
import NvStream.Lib.Overwrite
import NvStream.Lib.Runs
import Mathlib.Data.List.Lex
import Mathlib.Data.List.DropRight
import Mathlib.Order.Fin.Basic

namespace NvStream

open FlatMem LittleEndian Decimal Overwrite

/-! ## Files -/

/-- The directory of a store. -/
structure Disk where
  /-- The file a C string names, if it can be opened for reading and writing. -/
  resolve : List Byte → Option Nat
  /-- The bytes of a file that exists. -/
  content : Nat → Option (List Byte)

namespace Disk

/-- `fopen(name, "w")`, `fwrite` and `fclose`. -/
def write (d : Disk) (name data : List Byte) : Option Disk :=
  (d.resolve (cStr name)).map
    (fun file => { d with content := Function.update d.content file (some data) })

/-- `file_size(name)`, `fopen(name, "r")` and `fread`. -/
def read (d : Disk) (name : List Byte) : Option (List Byte) :=
  (d.resolve (cStr name)).bind d.content

/-- A name as a directory entry: not empty, no slash, no NUL, at most `NAME_MAX` bytes.  (The names
    in question end in a digit, so none of them is "." or "..".) -/
structure Usable (name : List Byte) : Prop where
  nonempty : name ≠ []
  slash : 47 ∉ name
  nul : 0 ∉ name
  short : name.length ≤ 255

/-- What is assumed of the kernel: a usable name can be opened, and names its own file. -/
structure Plain (resolve : List Byte → Option Nat) : Prop where
  opens : ∀ {name}, Usable name → (resolve name).isSome
  apart : ∀ {name name'}, Usable name → Usable name' → resolve name = resolve name' → name = name'

end Disk

/-! ## The store -/

/-- `boost::trim_right`.  The library is not part of the repository; `TrimsRight` is what it promises,
    and `trimsRight_iff` says that no other function keeps the promise. -/
def trimRight (key : Key) : Key := key.rdropWhile isSpace

/-- All white space at the end is removed, and nothing else. -/
structure TrimsRight (trim : Key → Key) : Prop where
  cut : ∀ key, ∃ space, key = trim key ++ space ∧ ∀ b ∈ space, isSpace b = true
  clean : ∀ key b, (trim key).getLast? = some b → isSpace b = false

/-- `key + std::to_string(version)`, behind the directory. -/
def fileName (key : Key) (version : UInt64) : List Byte := key ++ decimal version.toNat

/-- `key + "_" + std::to_string(version)`, behind the directory. -/
def snapshotName (key : Key) (version : UInt64) : List Byte := key ++ 95 :: decimal version.toNat

/-- One process with a `FileStore`. -/
structure FileStore where
  disk : Disk
  heap : Mem Byte
  objectMap : SortedMap Key Object
  addrMap : SortedMap Nat Key

namespace FileStore

/-- The constructor, once the directory exists. -/
def ctor (disk : Disk) (heap : Mem Byte) : FileStore := ⟨disk, heap, .empty, .empty⟩

/-- `FileStore::create_obj`; `malloc` has returned `tmpPtr`. -/
def createObj (s : FileStore) (key : Key) (size : UInt64) (tmpPtr : Nat) :
    Except Stop (ErrorCode × Nat × FileStore) :=
  let key := trimRight key
  match s.objectMap.find? key with
  | none => .ok (.noError, tmpPtr,
      { s with objectMap := s.objectMap.insert key (Object.ctor key size 0 tmpPtr) })
  | some _ => .error .exit

/-- `FileStore::free_obj`; the read of the erased entry as in `NvsStore.freeObj`. -/
def freeObj (s : FileStore) (objAddr : Nat) : Except Stop (ErrorCode × FileStore) :=
  match s.addrMap.find? objAddr with
  | none => .error .exit
  | some key =>
    match s.objectMap.find? key with
    | none => .error .exit
    | some _ => .ok (.noError, { s with
        objectMap := s.objectMap.erase key
        addrMap := s.addrMap.erase objAddr })

/-- `FileStore::put`.  It returns the bytes written, or `ELEM_NOT_FOUND`. -/
def put (s : FileStore) (key : Key) (version : UInt64) :
    Except Stop ((ErrorCode ⊕ Nat) × FileStore) :=
  let key := trimRight key
  match s.objectMap.find? key with
  | none => .ok (.inl .elemNotFound, s)
  | some obj =>
    match s.disk.write (fileName key version) (obj.contents s.heap) with
    | none => .error .exit
    | some disk => .ok (.inr obj.size.toNat, { s with disk := disk })

/-- The files `put_all` writes, in the order of the map. -/
def snapshotWrites (s : FileStore) : List (List Byte × List Byte) :=
  s.objectMap.entries.map
    (fun p => (snapshotName p.1 (p.2.version + 1), p.2.contents s.heap))

/-- The loop of `put_all` over these files. -/
def writeFiles : Disk → List (List Byte × List Byte) → Except Stop Disk
  | d, [] => .ok d
  | d, w :: ws =>
    match d.write w.1 w.2 with
    | none => .error .exit
    | some d' => writeFiles d' ws

/-- `FileStore::put_all` -/
def putAll (s : FileStore) : Except Stop (Nat × FileStore) :=
  match writeFiles s.disk s.snapshotWrites with
  | .error stop => .error stop
  | .ok disk => .ok (s.objectMap.entries.foldl (fun n p => u64 (n + p.2.size.toNat)) 0, { s with
      disk := disk
      objectMap := s.objectMap.mapVal (fun _ obj => obj.setVersion (obj.version + 1)) })

/-- `FileStore::get` -/
def get (s : FileStore) (key : Key) (version : UInt64) (addr : Nat) : ErrorCode × FileStore :=
  match s.disk.read (fileName (trimRight key) version) with
  | none => (.elemNotFound, s)
  | some data => (.noError, { s with heap := store s.heap addr data })

/-- `FileStore::get_with_malloc`; `malloc`, if called, returns `tmpPtr`. -/
def getWithMalloc (s : FileStore) (key : Key) (version : UInt64) (tmpPtr : Nat) :
    ErrorCode × Option Nat × FileStore :=
  let key := trimRight key
  match s.disk.read (fileName key version) with
  | none => (.elemNotFound, none, s)
  | some data =>
    let obj := match s.objectMap.find? key with
      | some obj => obj
      | none => Object.ctor key (UInt64.ofNat data.length) version tmpPtr
    (.noError, some obj.ptr, { s with
      heap := store s.heap obj.ptr data
      objectMap := s.objectMap.insert key (obj.setVersion version) })

end FileStore

/-! ## What the calls do -/

namespace Disk

variable {d d' : Disk} {name name' data : List Byte}

theorem write_eq_some (h : d.write name data = some d') : ∃ file, d.resolve (cStr name) = some file ∧
    d' = { d with content := Function.update d.content file (some data) } := by
  obtain ⟨file, hfile, heq⟩ := Option.map_eq_some_iff.mp h
  exact ⟨file, hfile, heq.symm⟩

theorem Usable.cStr_eq (h : Usable name) : cStr name = name := cStr_eq_self h.nul

/-- Usable names are a map from names to bytes. -/
theorem read_write (hplain : Plain d.resolve) (hname : Usable name) (hname' : Usable name')
    (h : d.write name data = some d') :
    d'.read name' = if name = name' then some data else d.read name' := by
  obtain ⟨file, hfile, rfl⟩ := write_eq_some h
  obtain ⟨file', hfile'⟩ := Option.isSome_iff_exists.mp (hplain.opens hname')
  rw [hname.cStr_eq] at hfile
  rw [read, read, hname'.cStr_eq]
  dsimp only
  rw [hfile', Option.bind_some, Option.bind_some]
  by_cases hsame : name = name'
  · rw [hsame, hfile'] at hfile
    rw [if_pos hsame, Option.some.inj hfile, Function.update_self]
  · have hne : file' ≠ file := by
      intro heq
      rw [heq] at hfile'
      exact hsame (hplain.apart hname hname' (hfile.trans hfile'.symm))
    rw [if_neg hsame, Function.update_of_ne hne]

/-- The files that a list of writes goes to. -/
def files (d : Disk) (ws : List (List Byte × List Byte)) : List (Nat × List Byte) :=
  ws.filterMap (fun w => (d.resolve (cStr w.1)).map (fun file => (file, w.2)))

end Disk

namespace FileStore

variable {s s' : FileStore} {key : Key} {version : UInt64}

theorem rdropWhile_append_space (key : Key) {space : List Byte} (h : ∀ b ∈ space, isSpace b = true) :
    (key ++ space).rdropWhile isSpace = key.rdropWhile isSpace := by
  induction space using List.reverseRecOn with
  | nil => rw [List.append_nil]
  | append_singleton space b ih =>
    rw [← List.append_assoc, List.rdropWhile_concat_pos _ _ _ (h b (by simp))]
    exact ih (fun b' hb' => h b' (List.mem_append_left _ hb'))

/-- **The promise determines the function.** -/
theorem trimsRight_iff {trim : Key → Key} : TrimsRight trim ↔ trim = trimRight := by
  constructor
  · intro h
    funext key
    obtain ⟨space, hkey, hspace⟩ := h.cut key
    have hself : (trim key).rdropWhile isSpace = trim key := by
      refine List.rdropWhile_eq_self_iff.mpr (fun hne hlast => ?_)
      rw [h.clean key _ (List.getLast?_eq_getLast_of_ne_nil hne)] at hlast
      cases hlast
    rw [trimRight]
    conv_rhs => rw [hkey]
    rw [rdropWhile_append_space _ hspace, hself]
  · rintro rfl
    refine ⟨fun key => ?_, fun key b hb => ?_⟩
    · exact ⟨key.rtakeWhile isSpace, List.rdropWhile_append_rtakeWhile.symm,
        fun b hb => List.mem_rtakeWhile_imp hb⟩
    · have hne : trimRight key ≠ [] := by
        intro hnil
        rw [hnil] at hb
        cases hb
      rw [List.getLast?_eq_getLast_of_ne_nil hne] at hb
      obtain rfl := Option.some.inj hb
      exact Bool.eq_false_of_not_eq_true (List.rdropWhile_last_not isSpace key hne)

theorem trimRight_trimRight (key : Key) : trimRight (trimRight key) = trimRight key :=
  List.rdropWhile_idempotent _ _

theorem createObj_cases {size : UInt64} {tmpPtr addr : Nat} {code : ErrorCode}
    (h : s.createObj key size tmpPtr = .ok (code, addr, s')) :
    s.objectMap.find? (trimRight key) = none ∧ s' = { s with
      objectMap := s.objectMap.insert (trimRight key)
        (Object.ctor (trimRight key) size 0 tmpPtr) } := by
  unfold createObj at h
  simp only at h
  split at h
  · rename_i hfind
    simp only [Except.ok.injEq, Prod.mk.injEq] at h
    exact ⟨hfind, h.2.2.symm⟩
  · cases h

/-- `put` either finds no object and changes nothing, or writes one file. -/
theorem put_cases {r : ErrorCode ⊕ Nat} (h : s.put key version = .ok (r, s')) :
    (s.objectMap.find? (trimRight key) = none ∧ s' = s) ∨
    ∃ obj disk, s.objectMap.find? (trimRight key) = some obj ∧
      s.disk.write (fileName (trimRight key) version) (obj.contents s.heap) = some disk ∧
      s' = { s with disk := disk } := by
  unfold put at h
  simp only at h
  split at h
  · rename_i hfind
    simp only [Except.ok.injEq, Prod.mk.injEq] at h
    exact Or.inl ⟨hfind, h.2.symm⟩
  · rename_i obj hfind
    split at h
    · cases h
    · rename_i disk hwrite
      simp only [Except.ok.injEq, Prod.mk.injEq] at h
      exact Or.inr ⟨obj, disk, hfind, hwrite, h.2.symm⟩

/-- The loop of `put_all` overwrites one file after the other. -/
theorem writeFiles_ok {ws : List (List Byte × List Byte)} {d d' : Disk}
    (h : writeFiles d ws = .ok d') : d' = { d with content := writeAll d.content (d.files ws) } := by
  induction ws generalizing d with
  | nil => exact (Except.ok.inj h).symm
  | cons w ws ih =>
    rw [writeFiles] at h
    split at h
    · cases h
    · rename_i d₁ hwrite
      obtain ⟨file, hfile, rfl⟩ := Disk.write_eq_some hwrite
      have hfiles : d.files (w :: ws) = (file, w.2) :: d.files ws := by
        rw [Disk.files, List.filterMap_cons, hfile]
        rfl
      rw [ih h, hfiles]
      rfl

theorem putAll_ok {n : Nat} (h : s.putAll = .ok (n, s')) :
    s' = { s with
      disk := { s.disk with content := writeAll s.disk.content (s.disk.files s.snapshotWrites) }
      objectMap := s.objectMap.mapVal (fun _ obj => obj.setVersion (obj.version + 1)) } := by
  unfold putAll at h
  split at h
  · cases h
  · rename_i disk hwrite
    simp only [Except.ok.injEq, Prod.mk.injEq] at h
    rw [← h.2, writeFiles_ok hwrite]

theorem get_cases (s : FileStore) (key : Key) (version : UInt64) (addr : Nat) :
    (s.disk.read (fileName (trimRight key) version) = none ∧
      s.get key version addr = (.elemNotFound, s)) ∨
    ∃ data, s.disk.read (fileName (trimRight key) version) = some data ∧
      s.get key version addr = (.noError, { s with heap := store s.heap addr data }) := by
  unfold get
  cases hread : s.disk.read (fileName (trimRight key) version) with
  | none => exact Or.inl ⟨rfl, rfl⟩
  | some data => exact Or.inr ⟨data, rfl, rfl⟩

/-- The object `get_with_malloc` fills: the one there is, or a new one. -/
def filled (s : FileStore) (key : Key) (version : UInt64) (tmpPtr : Nat) (data : List Byte) :
    Object :=
  (s.objectMap.find? (trimRight key)).getD
    (Object.ctor (trimRight key) (UInt64.ofNat data.length) version tmpPtr)

theorem getWithMalloc_cases (s : FileStore) (key : Key) (version : UInt64) (tmpPtr : Nat) :
    (s.disk.read (fileName (trimRight key) version) = none ∧
      s.getWithMalloc key version tmpPtr = (.elemNotFound, none, s)) ∨
    ∃ data, s.disk.read (fileName (trimRight key) version) = some data ∧
      s.getWithMalloc key version tmpPtr =
        (.noError, some (s.filled key version tmpPtr data).ptr, { s with
          heap := store s.heap (s.filled key version tmpPtr data).ptr data
          objectMap := s.objectMap.insert (trimRight key)
            ((s.filled key version tmpPtr data).setVersion version) }) := by
  unfold getWithMalloc
  dsimp only
  cases hread : s.disk.read (fileName (trimRight key) version) with
  | none => exact Or.inl ⟨rfl, rfl⟩
  | some data =>
    refine Or.inr ⟨data, rfl, ?_⟩
    unfold filled
    cases s.objectMap.find? (trimRight key) <;> rfl

end FileStore

/-! ## Calls and runs -/

/-- A call of the class, or a store of the application. -/
inductive FileCall where
  | createObj (key : Key) (size : UInt64) (tmpPtr : Nat)
  | freeObj (objAddr : Nat)
  | put (key : Key) (version : UInt64)
  | putAll
  | get (key : Key) (version : UInt64) (addr : Nat)
  | getWithMalloc (key : Key) (version : UInt64) (tmpPtr : Nat)
  | appWrite (addr : Nat) (bs : List Byte)

/-- The store behind a call that returns. -/
def FileStore.after (s : FileStore) : FileCall → Except Stop FileStore
  | .createObj key size tmpPtr => (s.createObj key size tmpPtr).map (fun r => r.2.2)
  | .freeObj objAddr => (s.freeObj objAddr).map Prod.snd
  | .put key version => (s.put key version).map Prod.snd
  | .putAll => s.putAll.map Prod.snd
  | .get key version addr => .ok (s.get key version addr).2
  | .getWithMalloc key version tmpPtr => .ok (s.getWithMalloc key version tmpPtr).2.2
  | .appWrite addr bs => .ok { s with heap := store s.heap addr bs }

/-- The pairs a call puts, with the bytes of the object. -/
def FileCall.puts (s : FileStore) : FileCall → List ((Key × UInt64) × List Byte)
  | .put key version =>
    match s.objectMap.find? (trimRight key) with
    | none => []
    | some obj => [((trimRight key, version), obj.contents s.heap)]
  | _ => []

/-- A store, and everything it was asked to put, oldest first. -/
structure FileLife where
  store : FileStore
  puts : List ((Key × UInt64) × List Byte)

namespace FileLife

/-- A store just constructed. -/
def start (disk : Disk) (heap : Mem Byte) : FileLife := ⟨FileStore.ctor disk heap, []⟩

/-- The life after a call that returned. -/
def after (L : FileLife) (c : FileCall) (s' : FileStore) : FileLife :=
  ⟨s', L.puts ++ c.puts L.store⟩

theorem after_of_nil {L : FileLife} {c : FileCall} {s' : FileStore} (h : c.puts L.store = []) :
    L.after c s' = { L with store := s' } := by
  rw [after, h, List.append_nil]

/-- A call that returns, of those `ok` admits. -/
inductive Step (ok : FileCall → Prop) : FileLife → FileLife → Prop
  | call {L : FileLife} {s' : FileStore} (c : FileCall) (hok : ok c)
      (h : L.store.after c = .ok s') : Step ok L (L.after c s')

/-- Perform calls one after the other. -/
def perform : FileLife → List FileCall → Except Stop FileLife
  | L, [] => .ok L
  | L, c :: cs =>
    match L.store.after c with
    | .error stop => .error stop
    | .ok s' => perform (L.after c s') cs

theorem run_of_perform {ok : FileCall → Prop} {L L' : FileLife} {cs : List FileCall}
    (hok : ∀ c ∈ cs, ok c) (h : L.perform cs = .ok L') :
    Relation.ReflTransGen (Step ok) L L' := by
  induction cs generalizing L with
  | nil =>
    obtain rfl := Except.ok.inj h
    exact .refl
  | cons c cs ih =>
    rw [perform] at h
    split at h
    · cases h
    · rename_i s' hafter
      refine .head (.call c (hok c List.mem_cons_self) hafter) (ih ?_ h)
      exact fun c' hc' => hok c' (List.mem_cons_of_mem c hc')

end FileLife

/-! ## What a call does to the maps -/

/-- What a call can do to the two maps. -/
inductive FileStore.Effect (s s' : FileStore) : Prop where
  | kept (hobj : s'.objectMap = s.objectMap) (haddr : s'.addrMap = s.addrMap)
  | filed {key : Key} {o : Object} (hobj : s'.objectMap = s.objectMap.insert (trimRight key) o)
      (haddr : s'.addrMap = s.addrMap)
  | versioned {g : Key → Object → Object} (hobj : s'.objectMap = s.objectMap.mapVal g)
      (haddr : s'.addrMap = s.addrMap)
  | freed {objAddr : Nat} {key : Key} (hfind : s.addrMap.find? objAddr = some key)
      (hobj : s'.objectMap = s.objectMap.erase key)
      (haddr : s'.addrMap = s.addrMap.erase objAddr)

theorem FileStore.after_effect {s s' : FileStore} {c : FileCall} (h : s.after c = .ok s') :
    s.Effect s' := by
  cases c with
  | createObj key size tmpPtr =>
    obtain ⟨a, ha, rfl⟩ := Except.map_eq_ok h
    rw [(createObj_cases ha).2]
    exact .filed rfl rfl
  | freeObj objAddr =>
    obtain ⟨a, ha, rfl⟩ := Except.map_eq_ok h
    unfold freeObj at ha
    split at ha
    · cases ha
    · rename_i key hfind
      split at ha
      · cases ha
      · rw [← Except.ok.inj ha]
        exact .freed hfind rfl rfl
  | put key version =>
    obtain ⟨a, ha, rfl⟩ := Except.map_eq_ok h
    rcases put_cases ha with ⟨_, heq⟩ | ⟨_, _, _, _, heq⟩
    · rw [heq]
      exact .kept rfl rfl
    · rw [heq]
      exact .kept rfl rfl
  | putAll =>
    obtain ⟨a, ha, rfl⟩ := Except.map_eq_ok h
    rw [putAll_ok ha]
    exact .versioned (g := fun _ obj => obj.setVersion (obj.version + 1)) rfl rfl
  | get key version addr =>
    rw [← Except.ok.inj h]
    rcases s.get_cases key version addr with ⟨_, heq⟩ | ⟨_, _, heq⟩
    · rw [heq]
      exact .kept rfl rfl
    · rw [heq]
      exact .kept rfl rfl
  | getWithMalloc key version tmpPtr =>
    rw [← Except.ok.inj h]
    rcases s.getWithMalloc_cases key version tmpPtr with ⟨_, heq⟩ | ⟨_, _, heq⟩
    · rw [heq]
      exact .kept rfl rfl
    · rw [heq]
      exact .filed rfl rfl
  | appWrite addr bs =>
    rw [← Except.ok.inj h]
    exact .kept rfl rfl

/-! ## Keys are trimmed -/

/-- Every object is filed under a trimmed key. -/
def FileStore.Trimmed (s : FileStore) : Prop := ∀ p ∈ s.objectMap.entries, trimRight p.1 = p.1

theorem FileStore.Trimmed.insert {s s' : FileStore} (ht : s.Trimmed) {key : Key} {o : Object}
    (hmap : s'.objectMap = s.objectMap.insert (trimRight key) o) : s'.Trimmed := by
  intro p hp
  rw [hmap, SortedMap.mem_insert] at hp
  rcases hp with rfl | ⟨hp, _⟩
  · exact trimRight_trimRight key
  · exact ht p hp

/-- **A call keeps the keys trimmed.** -/
theorem FileStore.Trimmed.after {s s' : FileStore} {c : FileCall} (h : s.after c = .ok s')
    (ht : s.Trimmed) : s'.Trimmed := by
  cases after_effect h with
  | kept hobj haddr =>
    unfold Trimmed
    rw [hobj]
    exact ht
  | filed hobj haddr => exact ht.insert hobj
  | versioned hobj haddr =>
    intro p hp
    rw [hobj, SortedMap.mem_mapVal] at hp
    obtain ⟨o, ho, _⟩ := hp
    exact ht (p.1, o) ho
  | freed hfind hobj haddr =>
    intro p hp
    rw [hobj, SortedMap.mem_erase] at hp
    exact ht p hp.1

/-- Along every run the keys are trimmed. -/
theorem FileLife.trimmed {ok : FileCall → Prop} {disk : Disk} {heap : Mem Byte} {L : FileLife}
    (hrun : Relation.ReflTransGen (Step ok) (start disk heap) L) : L.store.Trimmed := by
  refine Runs.invariant (P := fun L => L.store.Trimmed) ?_ hrun ?_
  · rintro a b ⟨c, _, h⟩ ht
    exact ht.after h
  · intro p hp
    exact absurd hp List.not_mem_nil

end NvStream
