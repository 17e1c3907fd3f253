/-
  The byte layout of a log file (`src/sheap/log.h`), and the C string functions its keys go through.

  A log file starts with one `lhdr_t` (32 bytes) and continues with entries.  An entry is a `lehdr_t`
  (136 bytes, padding included), a payload, and a commit word.  Offsets are those of the x86-64 ABI
  the code is compiled for:

      lhdr_t    magic_number 0   len 8   head 16   tail 24
      lehdr_t   kname 0   version 24   len 32   type 40   delta_len 48   deltas 56

  The C code fills a `lehdr_t` that lives on the stack or comes from `malloc`, field by field, and
  never clears it.  `LeHdr` therefore has the padding as fields too: an uninitialised header is an
  ARBITRARY `LeHdr`, and filling it is a record update.
-/
import NvStream.Lib.LittleEndian
import NvStream.Lib.LoadProg
import Mathlib.Data.List.TakeWhile

namespace NvStream

open FlatMem LittleEndian LoadProg

/-! ## Constants and enumerations -/

/-- `WORD_LENGTH` -/
def wordLength : Nat := 8
/-- `COMMIT_FLAG` -/
def commitFlag : Nat := 123456
/-- `MAGIC_NUMBER` -/
def magicNumber : Nat := 555555
/-- `KEY_LEN` -/
def keyLen : Nat := 20

/-- `enum HdrType` -/
inductive HdrType where
  | single
  | multiple
  | delta
deriving DecidableEq, Repr

/-- The 32-bit value an enumerator is stored as. -/
def HdrType.code : HdrType → UInt32
  | .single => 0
  | .multiple => 1
  | .delta => 2

/-- `enum ErrorCode` -/
inductive ErrorCode where
  | noError
  | duplicateKey
  | elemNotFound
  | storeNotFound
  | keyNotExist
  | heapNotExist
  | idInUse
  | logExist
  | openFailed
  | pmemError
  | idNotFound
  | idFound
  | notEnoughSpace
deriving DecidableEq, Repr

/-- Why a call did not return. -/
inductive Stop where
  /-- An explicit `exit(1)`. -/
  | exit
  /-- A failed `assert`, or an exception that nobody catches. -/
  | abort
  /-- A load or store outside the mapped file. -/
  | segv
  /-- The C++ standard gives the execution no meaning, or leaves it to the implementation. -/
  | undefined
  /-- The model's loop bound ran out: the call had not returned yet. -/
  | fuel
deriving DecidableEq, Repr

theorem Except.map_eq_ok {ε α β : Type} {f : α → β} {x : Except ε α} {b : β}
    (h : x.map f = .ok b) : ∃ a, x = .ok a ∧ f a = b := by
  cases x with
  | error e => cases h
  | ok a => exact ⟨a, rfl, Except.ok.inj h⟩

theorem Except.map_eq_error {ε α β : Type} {f : α → β} {x : Except ε α} {e : ε}
    (h : x.map f = .error e) : x = .error e := by
  cases x with
  | error e' => exact congrArg Except.error (Except.error.inj h)
  | ok a => cases h

/-- What a call returned and the state it left, of which only the state matters. -/
theorem Except.map_eq_ok_snd {ε α β γ : Type} {f : α → β × γ} {x : Except ε α} {b : β} {c : γ}
    (h : x.map f = .ok (b, c)) : ∃ a, x = .ok a ∧ (f a).2 = c := by
  obtain ⟨a, ha, hf⟩ := Except.map_eq_ok h
  exact ⟨a, ha, congrArg Prod.snd hf⟩

/-- Arithmetic of `uint64_t`, and of pointers into the mapping. -/
def u64 (n : Nat) : Nat := n % 2 ^ 64

theorem u64_of_lt {n : Nat} (h : n < 2 ^ 64) : u64 n = n := Nat.mod_eq_of_lt h

theorem u64_u64 (n : Nat) : u64 (u64 n) = u64 n := Nat.mod_mod _ _

theorem u64_lt (n : Nat) : u64 n < 2 ^ 64 := Nat.mod_lt n (by decide)

/-- The distance of an address behind `p`, computed as a `uint64_t`. -/
theorem u64_distance {p addr : Nat} (hge : p ≤ addr) (h : addr < 2 ^ 64) :
    u64 (addr + 2 ^ 64 - p) = addr - p := by
  unfold u64
  omega

/-- **A `uint64_t` accumulator holds the exact sum modulo `2 ^ 64`**, whether or not its summands were
    reduced before. -/
theorem foldl_u64 {α : Type} {g : α → Nat} (f : α → Nat) (hg : ∀ x, u64 (g x) = u64 (f x))
    (xs : List α) {t : Nat} (ht : t < 2 ^ 64) :
    xs.foldl (fun t x => u64 (t + g x)) t = u64 (t + (xs.map f).sum) := by
  induction xs generalizing t with
  | nil => exact (u64_of_lt ht).symm
  | cons x xs ih =>
    have hx := hg x
    rw [List.foldl_cons, ih (u64_lt _), List.map_cons, List.sum_cons]
    unfold u64 at hx ⊢
    omega

/-- A number that fits survives the trip through `uint64_t`. -/
theorem toNat_ofNat {n : Nat} (h : n < 2 ^ 64) : (UInt64.ofNat n).toNat = n :=
  UInt64.toNat_ofNat_of_lt' h

/-! ## The log header -/

/-- `sizeof(struct lhdr_t)` -/
def sizeofLhdr : Nat := 32
/-- `offsetof(lhdr_t, len)` -/
def lenOff : Nat := 8
/-- `offsetof(lhdr_t, head)` -/
def headOff : Nat := 16
/-- `offsetof(lhdr_t, tail)` -/
def tailOff : Nat := 24

/-- `struct lhdr_t` -/
structure LHdr where
  magicNumber : Nat
  len : Nat
  head : Nat
  tail : Nat

/-- The 32 bytes of a log header. -/
def LHdr.encode (h : LHdr) : List Byte :=
  toLE 8 h.magicNumber ++ (toLE 8 h.len ++ (toLE 8 h.head ++ toLE 8 h.tail))

@[simp] theorem LHdr.length_encode (h : LHdr) : h.encode.length = 32 := by simp [LHdr.encode]

/-- A 64-bit field of a memory. -/
def word (m : Mem Byte) (off : Nat) : Nat := ofLE (load m off 8)

/-- A stored 64-bit value is read back as such. -/
theorem word_of_load {m : Mem Byte} {off n : Nat} (h : load m off 8 = toLE 8 n)
    (hn : n < 2 ^ 64) : word m off = n := by
  rw [word, h, ofLE_toLE_of_lt hn]

/-- The commit word `persist` writes behind an entry. -/
def commitWord : List Byte := toLE 8 commitFlag

@[simp] theorem length_commitWord : commitWord.length = 8 := length_toLE 8 _

/-! ## The entry header -/

/-- `sizeof(struct lehdr_t)` -/
def sizeofLehdr : Nat := 136
/-- `offsetof(lehdr_t, version)` -/
def versionField : Nat := 24
/-- `offsetof(lehdr_t, len)` -/
def lenField : Nat := 32
/-- `offsetof(lehdr_t, type)` -/
def typeField : Nat := 40

/-- `struct lehdr_t`, its two runs of padding included. -/
structure LeHdr where
  kname : Vector Byte 20
  pad0 : Vector Byte 4
  version : UInt64
  len : UInt64
  type : UInt32
  pad1 : Vector Byte 4
  deltaLen : UInt64
  deltas : Vector (UInt64 × UInt64) 5

namespace LeHdr

/-- `struct ledelta_t` -/
def encodeDelta (d : UInt64 × UInt64) : List Byte := toLE 8 d.1.toNat ++ toLE 8 d.2.toNat

/-- The fields behind `type`. -/
def encodeRest (h : LeHdr) : List Byte :=
  h.pad1.toList ++ (toLE 8 h.deltaLen.toNat ++ h.deltas.toList.flatMap encodeDelta)

/-- The 136 bytes of an entry header. -/
def encode (h : LeHdr) : List Byte :=
  h.kname.toList ++ (h.pad0.toList ++ (toLE 8 h.version.toNat ++ (toLE 8 h.len.toNat ++
    (toLE 4 h.type.toNat ++ h.encodeRest))))

theorem length_flatMap_encodeDelta (ds : List (UInt64 × UInt64)) :
    (ds.flatMap encodeDelta).length = 16 * ds.length := by
  induction ds with
  | nil => rfl
  | cons d ds ih =>
    rw [List.flatMap_cons, List.length_append, ih, List.length_cons]
    simp only [encodeDelta, List.length_append, length_toLE]
    omega

@[simp] theorem length_encode (h : LeHdr) : h.encode.length = 136 := by
  simp only [encode, encodeRest, List.length_append, length_flatMap_encodeDelta, length_toLE,
    Vector.length_toList]

/-- The header stands in memory at `off`. -/
def At (h : LeHdr) (m : Mem Byte) (off : Nat) : Prop := load m off 136 = h.encode

/-- **What a reader of a written header finds in each field.** -/
theorem At.fields {h : LeHdr} {m : Mem Byte} {off : Nat} (hAt : h.At m off) :
    load m off 20 = h.kname.toList ∧ word m (off + 24) = h.version.toNat ∧
    word m (off + 32) = h.len.toNat ∧ ofLE (load m (off + 40) 4) = h.type.toNat := by
  have h0 : load m off h.encode.length = h.encode := by rw [length_encode]; exact hAt
  rw [encode] at h0
  obtain ⟨hk, h1⟩ := (load_append_iff _ _ _ _).mp h0
  obtain ⟨_, h2⟩ := (load_append_iff _ _ _ _).mp h1
  obtain ⟨hv, h3⟩ := (load_append_iff _ _ _ _).mp h2
  obtain ⟨hl, h4⟩ := (load_append_iff _ _ _ _).mp h3
  obtain ⟨ht, _⟩ := (load_append_iff _ _ _ _).mp h4
  simp only [Vector.length_toList, length_toLE, Nat.add_assoc, Nat.reduceAdd] at hk hv hl ht
  refine ⟨hk, word_of_load hv h.version.toNat_lt, word_of_load hl h.len.toNat_lt, ?_⟩
  rw [ht, ofLE_toLE_of_lt]
  exact h.type.toNat_lt

end LeHdr

/-- A header of zeros. -/
def blankHdr : LeHdr :=
  ⟨.replicate 20 0, .replicate 4 0, 0, 0, 0, .replicate 4 0, 0, .replicate 5 (0, 0)⟩

/-! ## C strings

  `std::string` keys are byte lists.  They reach the log through `snprintf(dst, KEY_LEN, "%s", s)`,
  which stops at a NUL and keeps 19 bytes, and are compared with `strncmp(.., .., KEY_LEN)`. -/

/-- A `std::string`, as the bytes it holds. -/
abbrev Key := List Byte

/-- `s.c_str()` read as a C string: everything before the first NUL. -/
def cStr (s : Key) : List Byte := s.takeWhile (fun b => b ≠ 0)

/-- The part of a key that `snprintf` with size `KEY_LEN` keeps. -/
def keyField (s : Key) : List Byte := (cStr s).take (keyLen - 1)

theorem length_keyField_le (s : Key) : (keyField s).length ≤ 19 := List.length_take_le _ _

theorem zero_not_mem_cStr (s : Key) : (0 : Byte) ∉ cStr s := by
  intro h
  rw [cStr] at h
  exact absurd (List.mem_takeWhile_imp h) (by simp)

theorem zero_not_mem_keyField (s : Key) : (0 : Byte) ∉ keyField s :=
  fun h => zero_not_mem_cStr s (List.mem_of_mem_take h)

theorem cStr_cons {a : Byte} (ha : a ≠ 0) (s : Key) : cStr (a :: s) = a :: cStr s :=
  List.takeWhile_cons_of_pos (decide_eq_true ha)

/-- A C string starts with its first byte, its NUL included. -/
theorem headD_cStr (a : Byte) (s : Key) : (cStr (a :: s)).headD 0 = a := by
  by_cases ha : a = 0
  · rw [ha]
    rfl
  · rw [cStr_cons ha]
    rfl

theorem cStr_eq_self {s : Key} (h0 : (0 : Byte) ∉ s) : cStr s = s := by
  apply List.takeWhile_eq_self_iff.mpr
  intro b hb
  rw [decide_eq_true_iff]
  rintro rfl
  exact h0 hb

/-- A short key without NULs is kept whole. -/
theorem keyField_eq_self {s : Key} (hlen : s.length < keyLen) (h0 : (0 : Byte) ∉ s) :
    keyField s = s := by
  rw [keyField, cStr_eq_self h0, List.take_of_length_le]
  exact Nat.le_sub_one_of_lt hlen

/-- `snprintf(dst, KEY_LEN, "%s", s.c_str())` into a `char[20]` that held `old`: the kept bytes, a
    NUL, and behind it whatever was there. -/
def snprintfKey (old : Vector Byte 20) (s : Key) : Vector Byte 20 :=
  ⟨(keyField s ++ 0 :: old.toList.drop ((keyField s).length + 1)).toArray, by
    have := length_keyField_le s
    simp only [List.size_toArray, List.length_append, List.length_cons, List.length_drop,
      Vector.length_toList]
    omega⟩

theorem toList_snprintfKey (old : Vector Byte 20) (s : Key) :
    (snprintfKey old s).toList = keyField s ++ 0 :: old.toList.drop ((keyField s).length + 1) :=
  rfl

/-- `strncmp` of the C string at `off` with a NUL-terminated local one, byte by byte. -/
def strncmpAt : Nat → List Byte → Nat → Prog Stop Byte Int
  | _, _, 0 => return 0
  | off, key, n + 1 => do
    let c ← Prog.loadEach off 1
    let a := c.headD 0
    let b := key.headD 0
    if a ≠ b then return (a.val : Int) - b.val
    else if a = 0 then return 0
    else strncmpAt (off + 1) key.tail n

/-- `strncmp` on two NUL-free names, the one in memory NUL-terminated, is zero exactly when they
    are equal.  Induction on the name in memory; the comparison never reads past its NUL. -/
theorem strncmpAt_yields {m : Mem Byte} {S : Set Nat} {name key : List Byte} {off n : Nat}
    (hm : load m off (name.length + 1) = name ++ [0]) (hname : (0 : Byte) ∉ name)
    (hkey : (0 : Byte) ∉ key) (hn : name.length < n)
    (hS : ∀ i < name.length + 1, off + i ∈ S) :
    ∃ c, (strncmpAt off key n).Yields S m c ∧ (c = 0 ↔ name = key) := by
  induction name generalizing off key n with
  | nil =>
    obtain ⟨n, rfl⟩ : ∃ k, n = k + 1 := ⟨n - 1, by simp only [List.length_nil] at hn; omega⟩
    have h0 : m off = 0 := List.head_eq_of_cons_eq hm
    have hld : (Prog.loadEach off 1 : Prog Stop Byte (List Byte)).Yields S m [0] := by
      rw [← h0]
      exact Prog.yields_loadEach hS
    cases key with
    | nil => exact ⟨0, Prog.Yields.bind' hld (Prog.yields_pure _ _ _), by simp⟩
    | cons b key =>
      have hb : (0 : Byte) ≠ b := fun e => hkey (by rw [e]; exact List.mem_cons_self)
      refine ⟨((0 : Byte).val : Int) - b.val, Prog.Yields.bind' hld ?_, ?_⟩
      · show Prog.Yields S m (if (0 : Byte) ≠ b then _ else _) _
        rw [if_pos hb]
        exact Prog.yields_pure _ _ _
      · have hb' : b.val ≠ 0 := fun e => hb (Fin.ext e.symm)
        constructor
        · intro h
          have h' : (0 : Int) - b.val = 0 := h
          omega
        · intro h
          cases h
  | cons a name ih =>
    obtain ⟨n, rfl⟩ : ∃ k, n = k + 1 := ⟨n - 1, by simp only [List.length_cons] at hn; omega⟩
    obtain ⟨ha, hrest⟩ := List.cons_eq_cons.mp hm
    have ha0 : a ≠ 0 := fun e => hname (by rw [e]; exact List.mem_cons_self)
    have hname' : (0 : Byte) ∉ name := fun h => hname (List.mem_cons_of_mem a h)
    have hld : (Prog.loadEach off 1 : Prog Stop Byte (List Byte)).Yields S m [a] := by
      rw [← ha]
      exact Prog.yields_loadEach (fun i hi => hS i (by omega))
    by_cases hab : a = key.headD 0
    · -- equal heads: the comparison moves on to the tails
      cases key with
      | nil => exact absurd hab ha0
      | cons b key =>
        have hab' : a = b := hab
        have hS' : ∀ i < name.length + 1, off + 1 + i ∈ S := by
          intro i hi
          rw [show off + 1 + i = off + (i + 1) by omega]
          exact hS (i + 1) (by simp only [List.length_cons]; omega)
        obtain ⟨c, hc, hiff⟩ := ih hrest hname' (fun h => hkey (List.mem_cons_of_mem b h))
          (show name.length < n by simp only [List.length_cons] at hn; omega) hS'
        refine ⟨c, Prog.Yields.bind' hld ?_, ?_⟩
        · show Prog.Yields S m (if a ≠ b then _ else if a = 0 then _ else _) c
          rw [if_neg (fun h => h hab'), if_neg ha0]
          exact hc
        · rw [hiff, hab', List.cons_eq_cons, and_iff_right rfl]
    · refine ⟨(a.val : Int) - (key.headD 0).val, Prog.Yields.bind' hld ?_, ?_⟩
      · show Prog.Yields S m (if a ≠ key.headD 0 then _ else _) _
        rw [if_pos hab]
        exact Prog.yields_pure _ _ _
      · constructor
        · intro h
          exact absurd (Fin.ext (by omega)) hab
        · intro h
          exact absurd (by rw [← h]; rfl) hab

end NvStream
