/-
  Whether two stores stay two stores.

  A store is named by a string, "heap/rank".  The constructor throws the heap part away, reads the
  rest with `std::stoi`, and puts the number into a `LogId`, which is ONE byte.  The log file is
  `rootHeapPath` followed by that byte in decimal.  So what tells two stores apart is their numbers
  modulo 256, and nothing else:

      storeId  -- logIdStr -->  digits  -- stoi -->  int  -- narrowed -->  LogId  -- logPath -->  file

  * `logPath_injective`: different ids, different files.
  * `replies_eq_alone`: with different ids, what a store replies is what it would reply alone, so the
    operations on the other store cannot be seen.
  * `rank_256_is_rank_0`: two ranks of one application write into the same log.
-/
import NvStream.NvsStore.RoundTrip
import NvStream.NvsStore.Calls
import NvStream.Directory.Basic
import NvStream.Lib.Decimal

namespace NvStream

open FlatMem LittleEndian LoadProg PersistTrace Decimal

/-! ## From the store id to the log file -/

/-- An optional sign, and what follows it. -/
def takeSign : List Byte → Bool × List Byte
  | [] => (false, [])
  | b :: bs => if b = 45 then (true, bs) else if b = 43 then (false, bs) else (false, b :: bs)

/-- `std::stoi`.  No digits at all, or a number outside `int`, is an exception nobody catches. -/
def stoi (str : List Byte) : Except Stop Int :=
  let signed := takeSign (str.dropWhile isSpace)
  let digits := signed.2.takeWhile isDigit
  if digits = [] then .error .abort
  else
    let n : Int := if signed.1 then -(value digits) else value digits
    if -2 ^ 31 ≤ n ∧ n < 2 ^ 31 then .ok n else .error .abort

/-- `storeId.substr(storeId.find("/") + 1)`: without a slash `find` is `npos`, and `npos + 1` is 0. -/
def logIdStr (storeId : List Byte) : List Byte :=
  match storeId.dropWhile (· ≠ 47) with
  | [] => storeId
  | _ :: rest => rest

/-- `logId = std::stoi(logIdStr)`, narrowed to `uint8_t`. -/
def logIdOf (storeId : List Byte) : Except Stop LogId :=
  (stoi (logIdStr storeId)).map (fun n => UInt8.ofNat (n % 256).toNat)

/-- `NVS_BASE_DIR "/" NVS_USER "_NVS_ROOT"` -/
def rootHeapPath : List Byte :=
  "/dev/shm/unity_NVS_ROOT".toList.map (fun c => Fin.ofNat 256 c.toNat)

/-- `rootHeapPath + std::to_string(id)` -/
def logPath (id : LogId) : List Byte := rootHeapPath ++ decimal id.toNat

theorem logPath_injective {id id' : LogId} (h : logPath id = logPath id') : id = id' :=
  UInt8.toNat_inj.mp (decimal_injective (List.append_cancel_left h))

/-- Two numbers end up in one `LogId` exactly if they agree modulo 256. -/
theorem narrow_eq_iff (k k' : Int) :
    UInt8.ofNat (k % 256).toNat = UInt8.ofNat (k' % 256).toNat ↔ k % 256 = k' % 256 := by
  rw [← UInt8.toNat_inj, UInt8.toNat_ofNat', UInt8.toNat_ofNat']
  omega

theorem logIdStr_slash {h : List Byte} (hh : 47 ∉ h) (rest : List Byte) :
    logIdStr (h ++ 47 :: rest) = rest := by
  have hdrop : (h ++ 47 :: rest).dropWhile (· ≠ 47) = 47 :: rest := by
    rw [List.dropWhile_append_of_pos]
    · exact List.dropWhile_cons_of_neg (by decide)
    · intro b hb
      exact decide_eq_true (fun heq => hh (heq ▸ hb))
  rw [logIdStr, hdrop]

/-- `stoi` reads a decimal number as that number. -/
theorem stoi_decimal {n : Nat} (hn : n < 2 ^ 31) : stoi (decimal n) = .ok n := by
  have hskip : (decimal n).dropWhile isSpace = decimal n ∧
      takeSign (decimal n) = (false, decimal n) := by
    cases hdec : decimal n with
    | nil => exact absurd hdec (decimal_ne_nil n)
    | cons b bs =>
      obtain ⟨hspace, hminus, hplus⟩ :=
        not_space_of_isDigit (isDigit_of_mem (n := n) (hdec ▸ List.mem_cons_self))
      constructor
      · exact List.dropWhile_cons_of_neg (by rw [hspace]; exact Bool.false_ne_true)
      · rw [takeSign, if_neg hminus, if_neg hplus]
  have hall : (decimal n).takeWhile isDigit = decimal n :=
    List.takeWhile_eq_self_iff.mpr (fun b hb => isDigit_of_mem hb)
  rw [stoi, hskip.1, hskip.2]
  simp only [hall, if_neg (decimal_ne_nil n), value_decimal]
  rw [if_neg Bool.false_ne_true, if_pos (by omega)]

/-! ## Two stores on one machine -/

/-- What is done to a store: a call, or its process ends and another one opens the log again. -/
inductive Act where
  | call (c : Call)
  | reopen (heap : Mem Byte)

/-- What an act brings: the reply and the store behind it (its memory included), the end of the
    process, or nothing, because there is no process. -/
abbrev Outcome := Option (Except Stop (Reply × NvsStore))

/-- One store performs an act, on its own memory and its own log file.  The mapping is shared, so
    the store sees the file as it is now. -/
def serve : Option NvsStore → Option File → Act → Outcome × Option NvsStore × Option File
  | some s, some f, .call c =>
    match ({ s with file := f } : NvsStore).call c with
    | .ok (r, s') => (some (.ok (r, s')), some s', some s'.file)
    | .error why => (some (.error why), none, some f)
  | _, some f, .reopen heap =>
    match Log.ctor (some f) 0 with
    | .ok (l, f') => (some (.ok (.done, NvsStore.ctor l f' heap)), some (NvsStore.ctor l f' heap),
        some f')
    | .error why => (some (.error why), none, some f)
  | _, file, _ => (none, none, file)

theorem serve_call {s s' : NvsStore} {f : File} {c : Call} {r : Reply}
    (h : ({ s with file := f } : NvsStore).call c = .ok (r, s')) :
    serve (some s) (some f) (.call c) = (some (.ok (r, s')), some s', some s'.file) := by
  simp only [serve, h]

/-- The log files, and the processes of two stores. -/
structure Machine where
  files : LogId → Option File
  stores : Bool → Option NvsStore

namespace Machine

/-- One of the stores performs an act. -/
def perform (ids : Bool → LogId) (m : Machine) (i : Bool) (act : Act) : Outcome × Machine :=
  let served := serve (m.stores i) (m.files (ids i)) act
  (served.1, ⟨Function.update m.files (ids i) served.2.2, Function.update m.stores i served.2.1⟩)

/-- The acts of a run on one of the stores. -/
def acts (run : List (Bool × Act)) (j : Bool) : List Act :=
  (run.filter (fun x => x.1 = j)).map Prod.snd

/-- What store `j` replies in a run. -/
def replies (ids : Bool → LogId) (m : Machine) (j : Bool) : List (Bool × Act) → List Outcome
  | [] => []
  | (i, act) :: run =>
    let done := m.perform ids i act
    if i = j then done.1 :: replies ids done.2 j run else replies ids done.2 j run

/-- What a store replies when nobody else is there. -/
def alone (s : Option NvsStore) (file : Option File) : List Act → List Outcome
  | [] => []
  | act :: acts =>
    let served := serve s file act
    served.1 :: alone served.2.1 served.2.2 acts

theorem acts_self (i : Bool) (act : Act) (run : List (Bool × Act)) :
    acts ((i, act) :: run) i = act :: acts run i := by
  rw [acts, List.filter_cons, if_pos (decide_eq_true rfl)]
  rfl

theorem acts_other {i j : Bool} (h : i ≠ j) (act : Act) (run : List (Bool × Act)) :
    acts ((i, act) :: run) j = acts run j := by
  rw [acts, List.filter_cons_of_neg (by rw [decide_eq_true_eq]; exact h)]
  rfl

section
variable {ids : Bool → LogId} {i j : Bool} {m : Machine} {act : Act} {o : Outcome}
  {s' : Option NvsStore} {f' : Option File}

theorem replies_self (h : serve (m.stores j) (m.files (ids j)) act = (o, s', f'))
    (run : List (Bool × Act)) :
    m.replies ids j ((j, act) :: run) = o :: replies ids
      ⟨Function.update m.files (ids j) f', Function.update m.stores j s'⟩ j run := by
  rw [replies, if_pos rfl, perform, h]

theorem replies_other (hij : i ≠ j) (h : serve (m.stores i) (m.files (ids i)) act = (o, s', f'))
    (run : List (Bool × Act)) :
    m.replies ids j ((i, act) :: run) = replies ids
      ⟨Function.update m.files (ids i) f', Function.update m.stores i s'⟩ j run := by
  rw [replies, if_neg hij, perform, h]

end

/-- **A store with a log of its own** replies as if it were alone. -/
theorem replies_eq_alone {ids : Bool → LogId} {j : Bool} (hids : ∀ i, i ≠ j → ids i ≠ ids j)
    (m : Machine) (run : List (Bool × Act)) :
    m.replies ids j run = alone (m.stores j) (m.files (ids j)) (acts run j) := by
  induction run generalizing m with
  | nil => rfl
  | cons x run ih =>
    obtain ⟨i, act⟩ := x
    obtain ⟨o, s', f', h⟩ : ∃ o s' f', serve (m.stores i) (m.files (ids i)) act = (o, s', f') :=
      ⟨_, _, _, rfl⟩
    by_cases hi : i = j
    · subst hi
      rw [replies_self h, ih, acts_self, alone, h]
      show _ :: alone (Function.update m.stores i s' i) (Function.update m.files (ids i) f' (ids i))
        _ = _
      rw [Function.update_self, Function.update_self]
    · -- the other store touches neither the memory of `j` nor its file
      rw [replies_other hi h, ih, acts_other hi]
      show alone (Function.update m.stores i s' j) (Function.update m.files (ids i) f' (ids j)) _ = _
      rw [Function.update_of_ne (Ne.symm hi), Function.update_of_ne (Ne.symm (hids i hi))]

end Machine

/-- Two logs are different files, and what is done to the store on one of them cannot be seen
    through the store on the other. -/
def Isolated (a b : LogId) : Prop :=
  logPath a ≠ logPath b ∧
  ∀ (m : Machine) (j : Bool) (run run' : List (Bool × Act)),
    Machine.acts run j = Machine.acts run' j →
    m.replies (fun i => if i then b else a) j run =
      m.replies (fun i => if i then b else a) j run'

theorem isolated_iff (a b : LogId) : Isolated a b ↔ a ≠ b := by
  constructor
  · rintro ⟨hpath, _⟩ rfl
    exact hpath rfl
  · intro hne
    refine ⟨fun h => hne (logPath_injective h), ?_⟩
    intro m j run run' hacts
    have hids : ∀ i, i ≠ j → (if i = true then b else a) ≠ (if j = true then b else a) := by
      intro i hij
      cases i <;> cases j
      · exact absurd rfl hij
      · exact hne
      · exact hne.symm
      · exact absurd rfl hij
    rw [Machine.replies_eq_alone hids, Machine.replies_eq_alone hids, hacts]

/-- **Store isolation.**  Two store ids the constructor accepts give isolated stores exactly if the
    numbers it reads differ modulo 256; in the id "h/n" that number is `n`. -/
theorem store_isolation_iff (storeId storeId' : List Byte) (k k' : Int)
    (hk : stoi (logIdStr storeId) = .ok k) (hk' : stoi (logIdStr storeId') = .ok k') :
    (∃ a b, logIdOf storeId = .ok a ∧ logIdOf storeId' = .ok b ∧
      (Isolated a b ↔ k % 256 ≠ k' % 256)) ∧
    ∀ (h : List Byte) (n : Nat), 47 ∉ h → n < 2 ^ 31 →
      stoi (logIdStr (h ++ 47 :: decimal n)) = .ok n := by
  constructor
  · refine ⟨_, _, congrArg (Except.map _) hk, congrArg (Except.map _) hk', ?_⟩
    rw [isolated_iff, Ne, narrow_eq_iff]
  · intro h n hh hn
    rw [logIdStr_slash hh, stoi_decimal hn]

theorem store_isolation_iff_two_ranks : ∃ a b,
    logIdOf [115, 47, 48] = .ok a ∧ logIdOf [115, 47, 55] = .ok b ∧ Isolated a b := by
  obtain ⟨a, b, ha, hb, hiff⟩ :=
    (store_isolation_iff [115, 47, 48] [115, 47, 55] 0 7 rfl rfl).1
  exact ⟨a, b, ha, hb, hiff.mpr (by decide)⟩

/-- **Rank 256 is rank 0.**  The stores "s/0" and "s/256" share a log: the object that one of them
    puts is found by a `get` of the other, which finds nothing if the first does nothing. -/
theorem rank_256_is_rank_0 : ∃ a l f,
    logIdOf [115, 47, 48] = .ok a ∧ logIdOf [115, 47, 50, 53, 54] = .ok a ∧
    Log.ctor none logSize = .ok (l, f) ∧ Log.ctor (some f) 0 = .ok (l, f) ∧
    ∃ (m : Machine) (run run' : List (Bool × Act)),
      m.files a = some f ∧ m.stores = (fun _ => some (NvsStore.ctor l f (fun _ => 9))) ∧
      Machine.acts run true = Machine.acts run' true ∧
      m.replies (fun _ => a) true run ≠ m.replies (fun _ => a) true run' := by
  obtain ⟨l, f, s₁, s₂, hnew, hcreate, hput, _, _, _, hr₂, _⟩ := one_put [97] 1
  have hr : Rep f (encode (List.map Item.entry [])) := (ctor_create (by decide) hnew).1
  generalize hit : Item.single _ = it at hr₂
  have hmatch : lookup [97] 1 [it] = some ((Object.ctor [97] 4 0 4096).toRec (fun _ => 9) 1) := by
    rw [← hit]
    rfl
  let s : NvsStore := NvsStore.ctor l f (fun _ => 9)
  let fuel := max (lookFuel []) (lookFuel [it])
  let get : Call := .get blankWalk fuel [97] 1 8192
  -- the other store reads an empty log, or the log with the record
  have hmissing : s.call get = .ok (.code .idNotFound, s) :=
    congrArg (Except.map _) (NvsStore.get_eq hr (looksInside_of_rep hr (fun _ h => by cases h))
      blankWalk (Nat.le_max_left _ _) [97] 1 8192)
  have hfound : ∃ s', ({ s with file := s₂.file } : NvsStore).call get =
      .ok (.code .noError, s') := by
    have hlook := looksInside_of_rep hr₂ (fun it' h hempty => by
      obtain rfl := Option.some.inj h
      rw [← hit] at hempty
      cases hempty)
    have hget := NvsStore.get_eq (s := { s with file := s₂.file }) hr₂ hlook blankWalk
      (Nat.le_max_right (lookFuel []) _) [97] 1 8192
    rw [hmatch] at hget
    exact ⟨_, congrArg (Except.map _) hget⟩
  obtain ⟨s₃, hfound⟩ := hfound
  refine ⟨0, l, f, rfl, rfl, hnew, ?_, ⟨fun _ => some f, fun _ => some s⟩, [(true, .call get)],
    [(false, .call (.createObj [97] 4 4096)), (false, .call (.put blankHdr [97] 1)),
      (true, .call get)], rfl, rfl, rfl, ?_⟩
  · exact (ctor_made hnew).2
  · have hcreated : serve (some s) (some f) (.call (.createObj [97] 4 4096)) = _ :=
      serve_call (NvsStore.call_createObj hcreate)
    have hwritten : serve (some s₁) (some s₁.file) (.call (.put blankHdr [97] 1)) = _ :=
      serve_call (NvsStore.call_put hput)
    have hread : serve (some s) (some s₂.file) (.call get) = _ := serve_call hfound
    have hquiet : Machine.replies (fun _ => 0) ⟨fun _ => some f, fun _ => some s⟩ true
        [(true, .call get)] = [some (.ok (.code .idNotFound, s))] :=
      Machine.replies_self (serve_call hmissing) []
    have hloud : Machine.replies (fun _ => 0) ⟨fun _ => some f, fun _ => some s⟩ true
        [(false, .call (.createObj [97] 4 4096)), (false, .call (.put blankHdr [97] 1)),
          (true, .call get)] = [some (.ok (.code .noError, s₃))] :=
      (Machine.replies_other Bool.false_ne_true hcreated _).trans
        ((Machine.replies_other Bool.false_ne_true hwritten _).trans
          (Machine.replies_self hread []))
    rw [hquiet, hloud]
    intro heq
    cases heq

end NvStream
