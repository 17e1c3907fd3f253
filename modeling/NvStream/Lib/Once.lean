/-
  Once-initialisation by double-checked locking.

  A pointer cell starts out null.  A caller loads it without a lock; if it reads null, it takes a
  mutex, loads again, and only if it still reads null makes an instance and stores it:

      tmp = cell.load(relaxed)          load
      fence(acquire)                    fence
      if tmp == null
        lock                            lock
        tmp = cell.load(relaxed)        reload
        if tmp == null
          tmp = make                    build     (or an exception: unlock, thrown)
          fence(release)                publish
          cell.store(tmp, relaxed)      store
        unlock                          unlock
      return tmp                        done

  Memory is weak.  A relaxed load may return any value of the cell that is not older than one the
  caller has seen, and it brings no knowledge of what the storing thread did before.  What a thread,
  a message or the mutex knows is a `View`: the instances whose making it comes after, and how far
  into the history of the cell it has seen.  Fences and the mutex are what moves views around.

  `Inv` is what holds at every interleaving.  From it: one instance is made at most, everybody
  returns it, and everybody who has returned comes after its making (`returned`); while somebody has
  not returned there is a call that can go on (`turn`, `moves`), and each has eight steps at most
  (`left_lt`).  A call whose making fails leaves everything as it found it, so the next caller tries
  again.
-/
import Mathlib.Data.Set.Insert
import NvStream.Lib.Interleave
import NvStream.Lib.Runs

namespace Once

open Interleave

/-! ## Views -/

/-- What has happened before: the instances made, and the newest message of the cell seen. -/
structure View (β : Type) where
  made : Set β
  seen : Nat

section Views

variable {β : Type}

/-- Nothing has happened. -/
def View.none : View β := ⟨∅, 0⟩

/-- Only the message numbered `t` of the cell was seen. -/
def View.upTo (t : Nat) : View β := ⟨∅, t⟩

def View.join (v w : View β) : View β := ⟨v.made ∪ w.made, max v.seen w.seen⟩

@[simp] theorem View.made_none : (View.none : View β).made = ∅ := rfl

@[simp] theorem View.seen_none : (View.none : View β).seen = 0 := rfl

@[simp] theorem View.made_join (v w : View β) : (v.join w).made = v.made ∪ w.made := rfl

@[simp] theorem View.seen_join (v w : View β) : (v.join w).seen = max v.seen w.seen := rfl

@[simp] theorem View.made_upTo (t : Nat) : (View.upTo t : View β).made = ∅ := rfl

@[simp] theorem View.seen_upTo (t : Nat) : (View.upTo t : View β).seen = t := rfl

/-- The instance `b` and the message that stores it have happened. -/
def View.Knows (v : View β) (b : β) : Prop := b ∈ v.made ∧ 1 ≤ v.seen

theorem View.Knows.join {v : View β} {b : β} (h : v.Knows b) (w : View β) : (v.join w).Knows b :=
  ⟨Or.inl h.1, le_max_of_le_left h.2⟩

theorem View.Knows.join_right {w : View β} {b : β} (h : w.Knows b) (v : View β) :
    (v.join w).Knows b :=
  ⟨Or.inr h.1, le_max_of_le_right h.2⟩

/-- The views of one thread: what it comes after, what it will come after at its next acquire fence,
    and what it had come after at its last release fence. -/
structure Local (β : Type) where
  cur : View β
  acq : View β
  rel : View β

def Local.start : Local β := ⟨.none, .none, .none⟩

/-- A relaxed load of message `t`, released with the view `w`. -/
def Local.read (m : Local β) (t : Nat) (w : View β) : Local β :=
  ⟨m.cur.join (.upTo t), (m.acq.join w).join (.upTo t), m.rel⟩

/-- A relaxed store as message `t`. -/
def Local.wrote (m : Local β) (t : Nat) : Local β := { m with cur := m.cur.join (.upTo t) }

def Local.acquire (m : Local β) : Local β := { m with cur := m.cur.join m.acq }

def Local.release (m : Local β) : Local β := { m with rel := m.cur }

/-- Taking a mutex whose last holder left the view `w`. -/
def Local.enter (m : Local β) (w : View β) : Local β := { m with cur := m.cur.join w }

def Local.built (m : Local β) (b : β) : Local β := { m with cur := m.cur.join ⟨{b}, 0⟩ }

/-- The thread has seen only messages that are there. -/
structure Local.Below (m : Local β) (n : Nat) : Prop where
  cur : m.cur.seen < n
  acq : m.acq.seen < n
  rel : m.rel.seen < n

theorem Local.Below.mono {m : Local β} {n n' : Nat} (h : m.Below n) (hn : n ≤ n') : m.Below n' :=
  ⟨h.cur.trans_le hn, h.acq.trans_le hn, h.rel.trans_le hn⟩

theorem Local.Below.read {m : Local β} {n t : Nat} {w : View β} (h : m.Below n) (ht : t < n)
    (hw : w.seen < n) : (m.read t w).Below n :=
  ⟨max_lt h.cur ht, max_lt (max_lt h.acq hw) ht, h.rel⟩

theorem Local.Below.wrote {m : Local β} {n t : Nat} (h : m.Below n) (ht : t < n) :
    (m.wrote t).Below n :=
  ⟨max_lt h.cur ht, h.acq, h.rel⟩

theorem Local.Below.acquire {m : Local β} {n : Nat} (h : m.Below n) : m.acquire.Below n :=
  ⟨max_lt h.cur h.acq, h.acq, h.rel⟩

theorem Local.Below.release {m : Local β} {n : Nat} (h : m.Below n) : m.release.Below n :=
  ⟨h.cur, h.acq, h.cur⟩

theorem Local.Below.enter {m : Local β} {n : Nat} {w : View β} (h : m.Below n) (hw : w.seen < n) :
    (m.enter w).Below n :=
  ⟨max_lt h.cur hw, h.acq, h.rel⟩

theorem Local.Below.built {m : Local β} {n : Nat} (h : m.Below n) (b : β) : (m.built b).Below n :=
  ⟨max_lt h.cur (Nat.zero_lt_of_lt h.cur), h.acq, h.rel⟩

end Views

/-! ## The protocol -/

/-- What the threads share. -/
structure Shared (ι β : Type) where
  /-- The messages of the cell, oldest first: the value stored and the view released with it. -/
  cell : List (Option β × View β)
  holder : Option ι
  /-- What the last unlock came after. -/
  left : View β
  /-- Every instance ever made, with the call that made it. -/
  made : List (ι × β)

/-- Where a call is. -/
inductive Point (β : Type)
  | load (m : Local β)
  | fence (tmp : Option β) (m : Local β)
  | lock (m : Local β)
  | reload (m : Local β)
  | build (m : Local β)
  | publish (b : β) (m : Local β)
  | store (b : β) (m : Local β)
  | unlock (b : β) (m : Local β)
  | done (b : β) (m : Local β)
  | thrown

variable {ι β : Type}

abbrev Shared.null : Shared ι β := ⟨[(none, .none)], none, .none, []⟩

/-- One step of the call `p`; `make p (some b)` says that it can make the instance `b`, and
    `make p none` that the making can throw. -/
inductive Moves (make : ι → Option β → Prop) (p : ι) :
    Shared ι β → Point β → Shared ι β → Point β → Prop
  | load {s : Shared ι β} {m : Local β} {t : Nat} {v : Option β} {w : View β}
      (ht : m.cur.seen ≤ t) (hmsg : s.cell[t]? = some (v, w)) :
      Moves make p s (.load m) s (.fence v (m.read t w))
  | fenceNull {s : Shared ι β} {m : Local β} :
      Moves make p s (.fence none m) s (.lock m.acquire)
  | fenceSome {s : Shared ι β} {b : β} {m : Local β} :
      Moves make p s (.fence (some b) m) s (.done b m.acquire)
  | lock {s : Shared ι β} {m : Local β} (hfree : s.holder = none) :
      Moves make p s (.lock m) { s with holder := some p } (.reload (m.enter s.left))
  | reloadNull {s : Shared ι β} {m : Local β} {t : Nat} {w : View β}
      (ht : m.cur.seen ≤ t) (hmsg : s.cell[t]? = some (none, w)) :
      Moves make p s (.reload m) s (.build (m.read t w))
  | reloadSome {s : Shared ι β} {m : Local β} {t : Nat} {b : β} {w : View β}
      (ht : m.cur.seen ≤ t) (hmsg : s.cell[t]? = some (some b, w)) :
      Moves make p s (.reload m) s (.unlock b (m.read t w))
  | build {s : Shared ι β} {b : β} {m : Local β} (hmake : make p (some b)) :
      Moves make p s (.build m) { s with made := s.made ++ [(p, b)] } (.publish b (m.built b))
  -- the guard of the mutex is released on the way out
  | throw {s : Shared ι β} {m : Local β} (hthrow : make p none) :
      Moves make p s (.build m) { s with holder := none, left := m.cur } .thrown
  | publish {s : Shared ι β} {b : β} {m : Local β} :
      Moves make p s (.publish b m) s (.store b m.release)
  | store {s : Shared ι β} {b : β} {m : Local β} :
      Moves make p s (.store b m)
        { s with cell := s.cell ++ [(some b, m.rel.join (.upTo s.cell.length))] }
        (.unlock b (m.wrote s.cell.length))
  | unlock {s : Shared ι β} {b : β} {m : Local β} :
      Moves make p s (.unlock b m) { s with holder := none, left := m.cur } (.done b m)

/-! ## The invariant -/

/-- Nothing has been made. -/
def Shared.Clean (s : Shared ι β) : Prop := s.cell = [(none, .none)] ∧ s.made = []

/-- The instance `b`, made by `a`, is in the cell, and everybody who reads it there can get to
    know that it was made. -/
def Shared.Has (s : Shared ι β) (a : ι) (b : β) : Prop :=
  s.made = [(a, b)] ∧ ∃ w, s.cell = [(none, .none), (some b, w)] ∧ b ∈ w.made ∧ w.seen ≤ 1

/-- Under the mutex: either nothing has been made, or it is stored, and the view knows it. -/
def Shared.Settled (s : Shared ι β) (v : View β) : Prop :=
  s.Clean ∨ ∃ a b, s.Has a b ∧ v.Knows b

/-- The instance `b` is the only one ever made. -/
def Shared.Only (make : ι → Option β → Prop) (s : Shared ι β) (b : β) : Prop :=
  ∃ a, s.made = [(a, b)] ∧ make a (some b)

/-- What the shared state satisfies. -/
structure Shared.Ok (make : ι → Option β → Prop) (s : Shared ι β) : Prop where
  made : s.made = [] ∨ ∃ b, s.Only make b
  cell : s.cell = [(none, .none)] ∨ ∃ a b, s.Has a b
  left : s.left.seen < s.cell.length
  free : s.holder = none → s.Settled s.left

/-- What a thread relies on at each point of its call. -/
def Point.Ok (make : ι → Option β → Prop) (p : ι) (s : Shared ι β) : Point β → Prop
  | .load m => m.Below s.cell.length ∧ s.holder ≠ some p
  | .fence tmp m => m.Below s.cell.length ∧ s.holder ≠ some p ∧
      ∀ b, tmp = some b → s.Only make b ∧ b ∈ m.acq.made
  | .lock m => m.Below s.cell.length ∧ s.holder ≠ some p
  | .reload m => m.Below s.cell.length ∧ s.holder = some p ∧ s.Settled m.cur
  | .build m => m.Below s.cell.length ∧ s.holder = some p ∧ s.Clean
  | .publish b m => m.Below s.cell.length ∧ s.holder = some p ∧ s.cell = [(none, .none)] ∧
      s.Only make b ∧ b ∈ m.cur.made
  | .store b m => m.Below s.cell.length ∧ s.holder = some p ∧ s.cell = [(none, .none)] ∧
      s.Only make b ∧ b ∈ m.cur.made ∧ b ∈ m.rel.made
  | .unlock b m => m.Below s.cell.length ∧ s.holder = some p ∧
      ∃ a, make a (some b) ∧ s.Has a b ∧ m.cur.Knows b
  | .done b m => s.holder ≠ some p ∧ s.Only make b ∧ b ∈ m.cur.made
  | .thrown => s.holder ≠ some p ∧ make p none

section Reading

variable {make : ι → Option β → Prop} {s s' : Shared ι β} {p : ι}

theorem Shared.Has.only {a : ι} {b : β} (h : s.Has a b) (hs : s.Ok make) : s.Only make b := by
  obtain hnil | ⟨b', a', hmade, hmake⟩ := hs.made
  · rw [h.1] at hnil
    cases hnil
  · have hmade' := h.1
    rw [hmade] at hmade'
    cases hmade'
    exact ⟨a, hmade, hmake⟩

/-- **What a load can return.**  A message is no newer than the history, and whoever reads an
    instance will know, after an acquire fence, that it was made. -/
theorem Shared.Ok.message (hs : s.Ok make) {t : Nat} {v : Option β} {w : View β}
    (h : s.cell[t]? = some (v, w)) :
    t < s.cell.length ∧ w.seen < s.cell.length ∧
      ∀ b, v = some b → s.Only make b ∧ b ∈ w.made := by
  obtain ⟨ht, hmem⟩ := List.getElem?_eq_some_iff.mp h
  refine ⟨ht, ?_⟩
  obtain hcell | ⟨a, b, hhas⟩ := hs.cell
  · have hvw : (v, w) ∈ s.cell := hmem ▸ List.getElem_mem ht
    rw [hcell, List.mem_singleton] at hvw
    cases hvw
    rw [hcell]
    exact ⟨Nat.one_pos, fun b hb => by cases hb⟩
  · have honly := hhas.only hs
    obtain ⟨-, w', hcell, hb, hw'⟩ := hhas
    have hvw : (v, w) ∈ s.cell := hmem ▸ List.getElem_mem ht
    rw [hcell, List.mem_cons, List.mem_singleton] at hvw
    rw [hcell]
    obtain hvw | hvw := hvw
    · cases hvw
      exact ⟨Nat.two_pos, fun b hb => by cases hb⟩
    · cases hvw
      refine ⟨Nat.lt_succ_of_le hw', fun b' hb' => ?_⟩
      cases hb'
      exact ⟨honly, hb⟩

/-- Under the mutex, a null means that nothing has been made. -/
theorem Shared.Settled.null {v w : View β} {t : Nat} (hs : s.Settled v) (ht : v.seen ≤ t)
    (h : s.cell[t]? = some (none, w)) : s.Clean := by
  obtain hclean | ⟨a, b, ⟨-, w', hcell, -, -⟩, -, hseen⟩ := hs
  · exact hclean
  · obtain ⟨t, rfl⟩ : ∃ k, t = k + 1 := ⟨t - 1, by omega⟩
    rw [hcell, List.getElem?_cons_succ] at h
    cases t with
    | zero => cases h
    | succ t => cases h

/-- Under the mutex, an instance that is read is known. -/
theorem Shared.Settled.some {v w : View β} {t : Nat} {b : β} (hs : s.Settled v)
    (h : s.cell[t]? = some (some b, w)) : ∃ a, s.Has a b ∧ v.Knows b := by
  have hmem := List.mem_of_getElem? h
  obtain ⟨hcell, -⟩ | ⟨a, b', hhas, hknows⟩ := hs
  · rw [hcell, List.mem_singleton] at hmem
    cases hmem
  · obtain ⟨w', hcell, -, -⟩ := hhas.2
    rw [hcell, List.mem_cons, List.mem_singleton] at hmem
    obtain hmem | hmem := hmem
    · cases hmem
    · cases hmem
      exact ⟨a, hhas, hknows⟩

theorem Shared.Clean.not_only (h : s.Clean) (b : β) : ¬ s.Only make b := by
  rintro ⟨a, hmade, -⟩
  rw [h.2] at hmade
  cases hmade

theorem Shared.Clean.build (h : s.Clean) {a : ι} {b : β} (hmake : make a (some b)) :
    Shared.Only make { s with made := s.made ++ [(a, b)] } b :=
  ⟨a, congrArg (· ++ [(a, b)]) h.2, hmake⟩

/-- What was known at the release fence goes with the message. -/
theorem Shared.Only.store {b : β} {rel : View β} (h : s.Only make b)
    (hcell : s.cell = [(none, .none)]) (hrel : b ∈ rel.made) (hseen : rel.seen < 1) :
    ∃ a, make a (some b) ∧
      Shared.Has { s with cell := s.cell ++ [(some b, rel.join (.upTo s.cell.length))] } a b := by
  obtain ⟨a, hmade, hmake⟩ := h
  have hlen : s.cell.length = 1 := congrArg List.length hcell
  refine ⟨a, hmake, hmade, rel.join (.upTo s.cell.length), ?_, .inl hrel, ?_⟩
  · exact congrArg (· ++ [(some b, rel.join (.upTo s.cell.length))]) hcell
  · exact max_le hseen.le hlen.le

end Reading

/-! ## Every step keeps it -/

section Steps

variable {make : ι → Option β → Prop} {s s' : Shared ι β} {p q : ι} {x x' : Point β}

/-- What a step of `p` means to the others. -/
structure Kept (make : ι → Option β → Prop) (p : ι) (s s' : Shared ι β) : Prop where
  free : ∀ q, q ≠ p → s.holder ≠ some q
  free' : ∀ q, q ≠ p → s'.holder ≠ some q
  cell : s.cell.length ≤ s'.cell.length
  only : ∀ b, s.Only make b → s'.Only make b

/-- **Frame.**  A thread that does not hold the mutex does not notice. -/
theorem Point.Ok.frame (h : x.Ok make q s) (hq : q ≠ p) (hk : Kept make p s s') :
    x.Ok make q s' := by
  have hheld := hk.free q hq
  have hheld' := hk.free' q hq
  cases x with
  | load m => exact ⟨h.1.mono hk.cell, hheld'⟩
  | fence tmp m =>
    refine ⟨h.1.mono hk.cell, hheld', fun b hb => ?_⟩
    exact ⟨hk.only b (h.2.2 b hb).1, (h.2.2 b hb).2⟩
  | lock m => exact ⟨h.1.mono hk.cell, hheld'⟩
  | reload m => exact absurd h.2.1 hheld
  | build m => exact absurd h.2.1 hheld
  | publish b m => exact absurd h.2.1 hheld
  | store b m => exact absurd h.2.1 hheld
  | unlock b m => exact absurd h.2.1 hheld
  | done b m => exact ⟨hheld', hk.only b h.2.1, h.2.2⟩
  | thrown => exact ⟨hheld', h.2⟩

/-- The holder of the mutex keeps the others out. -/
theorem free_of_holder (h : s.holder = some p) (q : ι) (hq : q ≠ p) : s.holder ≠ some q := by
  rw [h]
  intro heq
  cases heq
  exact hq rfl

/-- **One step**, seen by the thread that takes it and by the others. -/
theorem Moves.ok (h : Moves make p s x s' x') (hs : s.Ok make) (hx : x.Ok make p s) :
    s'.Ok make ∧ x'.Ok make p s' ∧ (s' = s ∨ Kept make p s s') := by
  cases h with
  | load ht hmsg =>
    obtain ⟨hlt, hw, hb⟩ := hs.message hmsg
    refine ⟨hs, ⟨hx.1.read hlt hw, hx.2, fun b hv => ⟨(hb b hv).1, ?_⟩⟩, .inl rfl⟩
    exact .inl (.inr (hb b hv).2)
  | fenceNull => exact ⟨hs, ⟨hx.1.acquire, hx.2.1⟩, .inl rfl⟩
  | fenceSome =>
    obtain ⟨honly, hb⟩ := hx.2.2 _ rfl
    exact ⟨hs, ⟨hx.2.1, honly, .inr hb⟩, .inl rfl⟩
  | lock hfree =>
    refine ⟨⟨hs.made, hs.cell, hs.left, fun h => by cases h⟩, ⟨hx.1.enter hs.left, rfl, ?_⟩,
      .inr ?_⟩
    · obtain hclean | ⟨a, b, hhas, hknows⟩ := hs.free hfree
      · exact .inl hclean
      · exact .inr ⟨a, b, hhas, hknows.join_right _⟩
    · refine ⟨fun q _ hq => ?_, fun q hq => free_of_holder rfl q hq, le_refl _, fun b hb => hb⟩
      rw [hfree] at hq
      cases hq
  | reloadNull ht hmsg =>
    obtain ⟨hlt, hw, -⟩ := hs.message hmsg
    exact ⟨hs, ⟨hx.1.read hlt hw, hx.2.1, hx.2.2.null ht hmsg⟩, .inl rfl⟩
  | reloadSome ht hmsg =>
    obtain ⟨hlt, hw, hb⟩ := hs.message hmsg
    obtain ⟨a, hhas, hknows⟩ := hx.2.2.some hmsg
    obtain ⟨a', hmade, hmake⟩ := (hb _ rfl).1
    have haa : a' = a := by
      have hmade' := hhas.1
      rw [hmade] at hmade'
      cases hmade'
      rfl
    exact ⟨hs, ⟨hx.1.read hlt hw, hx.2.1, a, haa ▸ hmake, hhas, hknows.join _⟩, .inl rfl⟩
  | build hmake =>
    obtain ⟨hbelow, hheld, hclean⟩ := hx
    have honly := hclean.build hmake
    refine ⟨⟨.inr ⟨_, honly⟩, .inl hclean.1, hs.left, fun h => ?_⟩,
      ⟨hbelow.built _, hheld, hclean.1, honly, .inr rfl⟩, .inr ?_⟩
    · exact absurd (hheld.symm.trans h) (Option.some_ne_none p)
    · exact ⟨free_of_holder hheld, free_of_holder hheld, le_refl _,
        fun b hb => absurd hb (hclean.not_only b)⟩
  | throw hthrow =>
    obtain ⟨hbelow, hheld, hclean⟩ := hx
    refine ⟨⟨hs.made, hs.cell, hbelow.cur, fun _ => .inl hclean⟩,
      ⟨(Option.some_ne_none p).symm, hthrow⟩, .inr ?_⟩
    exact ⟨free_of_holder hheld, fun q _ => (Option.some_ne_none q).symm, le_refl _, fun b hb => hb⟩
  | publish =>
    obtain ⟨hbelow, hheld, hcell, honly, hb⟩ := hx
    exact ⟨hs, ⟨hbelow.release, hheld, hcell, honly, hb, hb⟩, .inl rfl⟩
  | store =>
    obtain ⟨hbelow, hheld, hcell, honly, hb, hrel⟩ := hx
    have hlen : s.cell.length = 1 := congrArg List.length hcell
    obtain ⟨a, hmake, hhas⟩ := honly.store hcell hrel (hlen ▸ hbelow.rel)
    have hgrow : ∀ msg, s.cell.length < (s.cell ++ [msg]).length := by
      intro msg
      rw [List.length_append]
      exact Nat.lt_succ_self _
    refine ⟨⟨hs.made, .inr ⟨a, _, hhas⟩, hs.left.trans (hgrow _), fun h => ?_⟩,
      ⟨(hbelow.mono (hgrow _).le).wrote (hgrow _), hheld, a, hmake, hhas, .inl hb, ?_⟩, .inr ?_⟩
    · exact absurd (hheld.symm.trans h) (Option.some_ne_none p)
    · exact le_max_of_le_right hlen.ge
    · exact ⟨free_of_holder hheld, free_of_holder hheld, (hgrow _).le, fun b hb => hb⟩
  | unlock =>
    obtain ⟨hbelow, hheld, a, hmake, hhas, hknows⟩ := hx
    refine ⟨⟨hs.made, hs.cell, hbelow.cur, fun _ => .inr ⟨a, _, hhas, hknows⟩⟩,
      ⟨(Option.some_ne_none p).symm, ⟨a, hhas.1, hmake⟩, hknows.1⟩, .inr ?_⟩
    exact ⟨free_of_holder hheld, fun q _ => (Option.some_ne_none q).symm, le_refl _, fun b hb => hb⟩

end Steps

/-! ## What a call has left to do -/

/-- The steps a call has left, at most. -/
def Point.left : Point β → Nat
  | .load _ => 8
  | .fence _ _ => 7
  | .lock _ => 6
  | .reload _ => 5
  | .build _ => 4
  | .publish _ _ => 3
  | .store _ _ => 2
  | .unlock _ _ => 1
  | .done _ _ => 0
  | .thrown => 0

theorem Point.eq_done_or_thrown {x : Point β} (h : x.left = 0) :
    (∃ b m, x = .done b m) ∨ x = .thrown := by
  cases x with
  | done b m => exact .inl ⟨b, m, rfl⟩
  | thrown => exact .inr rfl
  | _ => cases h

variable {make : ι → Option β → Prop}

theorem Moves.left_lt {p : ι} {s s' : Shared ι β} {x x' : Point β} (h : Moves make p s x s' x') :
    x'.left < x.left := by
  cases h <;> simp only [Point.left] <;> decide

theorem Moves.mono {make' : ι → Option β → Prop} {p : ι} {s s' : Shared ι β} {x x' : Point β}
    (h : Moves make p s x s' x') (hmake : ∀ r, make p r → make' p r) :
    Moves make' p s x s' x' := by
  cases h with
  | load ht hmsg => exact .load ht hmsg
  | fenceNull => exact .fenceNull
  | fenceSome => exact .fenceSome
  | lock hfree => exact .lock hfree
  | reloadNull ht hmsg => exact .reloadNull ht hmsg
  | reloadSome ht hmsg => exact .reloadSome ht hmsg
  | build hb => exact .build (hmake _ hb)
  | throw hthrow => exact .throw (hmake _ hthrow)
  | publish => exact .publish
  | store => exact .store
  | unlock => exact .unlock

/-- An instance is made at `build` only, if the making does not throw there. -/
theorem Moves.made {p : ι} {s s' : Shared ι β} {x x' : Point β} (h : Moves make p s x s' x') :
    (s'.made = s.made ∧ ((∃ m, x = .build m) → make p none)) ∨
      ∃ b, make p (some b) ∧ s'.made = s.made ++ [(p, b)] := by
  cases h with
  | build hb => exact .inr ⟨_, hb, rfl⟩
  | throw hthrow => exact .inl ⟨rfl, fun _ => hthrow⟩
  | _ => exact .inl ⟨rfl, fun ⟨m, h⟩ => by cases h⟩

/-- A call that has returned stays where it is. -/
theorem Moves.not_done {p : ι} {s s' : Shared ι β} {b : β} {m : Local β} {x' : Point β} :
    ¬ Moves make p s (.done b m) s' x' :=
  fun h => absurd h.left_lt (Nat.not_lt_zero _)

/-- The newest message can always be read. -/
theorem Local.Below.newest {m : Local β} {s : Shared ι β} (h : m.Below s.cell.length) :
    ∃ t msg, m.cur.seen ≤ t ∧ s.cell[t]? = some msg := by
  have hlt := h.cur
  have hlast : s.cell.length - 1 < s.cell.length := by omega
  exact ⟨s.cell.length - 1, s.cell[s.cell.length - 1], by omega,
    List.getElem?_eq_getElem hlast⟩

/-- A call that has not returned and does not wait for the mutex can go on, if its making comes to
    an end. -/
theorem Point.Ok.moves {make' : ι → Option β → Prop} {p : ι} {s : Shared ι β} {x : Point β}
    (hx : x.Ok make p s) (hmake : ∀ m, x = .build m → ∃ r, make' p r) (hleft : x.left ≠ 0)
    (hwait : x.left = 6 → s.holder = none) : ∃ s' x', Moves make' p s x s' x' := by
  cases x with
  | load m =>
    obtain ⟨t, ⟨v, w⟩, ht, hmsg⟩ := hx.1.newest
    exact ⟨s, _, .load ht hmsg⟩
  | fence tmp m =>
    cases tmp with
    | none => exact ⟨s, _, .fenceNull⟩
    | some b => exact ⟨s, _, .fenceSome⟩
  | lock m => exact ⟨_, _, .lock (hwait rfl)⟩
  | reload m =>
    obtain ⟨t, ⟨v, w⟩, ht, hmsg⟩ := hx.1.newest
    cases v with
    | none => exact ⟨s, _, .reloadNull ht hmsg⟩
    | some b => exact ⟨s, _, .reloadSome ht hmsg⟩
  | build m =>
    obtain ⟨r, hr⟩ := hmake m rfl
    cases r with
    | none => exact ⟨_, _, .throw hr⟩
    | some b => exact ⟨_, _, .build hr⟩
  | publish b m => exact ⟨s, _, .publish⟩
  | store b m => exact ⟨_, _, .store⟩
  | unlock b m => exact ⟨_, _, .unlock⟩
  | done b m => exact absurd rfl hleft
  | thrown => exact absurd rfl hleft

/-- Whoever holds the mutex is between `lock` and `unlock`. -/
theorem Point.Ok.of_holder {p : ι} {s : Shared ι β} {x : Point β} (hx : x.Ok make p s)
    (h : s.holder = some p) : x.left ≠ 0 ∧ x.left < 6 := by
  cases x with
  | load m => exact absurd h hx.2
  | fence tmp m => exact absurd h hx.2.1
  | lock m => exact absurd h hx.2
  | done b m => exact absurd h hx.1
  | thrown => exact absurd h hx.1
  | reload m => simp [Point.left]
  | build m => simp [Point.left]
  | publish b m => simp [Point.left]
  | store b m => simp [Point.left]
  | unlock b m => simp [Point.left]

/-! ## Runs -/

/-- Every call is about to begin.  It may wait for as long as it likes, so calls that follow one
    another in one thread are among them. -/
def start : Pool ι (Shared ι β) (Point β) := ⟨.null, fun _ => .load .start⟩

/-- The state of all threads, at any time. -/
abbrev Inv (make : ι → Option β → Prop) (c : Pool ι (Shared ι β) (Point β)) : Prop :=
  Holds (Shared.Ok make) (fun p s x => x.Ok make p s) (fun _ _ => True) c

theorem start_inv : Inv make (start : Pool ι (Shared ι β) (Point β)) := by
  refine ⟨⟨.inl rfl, .inl rfl, Nat.one_pos, fun _ => .inl ⟨rfl, rfl⟩⟩, fun p => ?_,
    fun _ _ _ => trivial⟩
  exact ⟨⟨Nat.one_pos, Nat.one_pos, Nat.one_pos⟩, (Option.some_ne_none p).symm⟩

variable {c c' : Pool ι (Shared ι β) (Point β)}

/-- **What a call returns.**  It is the one instance ever made, and the caller comes after its
    making. -/
theorem Inv.returned (hc : Inv make c) {p : ι} {b : β} {m : Local β} (h : c.place p = .done b m) :
    (∃ q, c.shared.made = [(q, b)] ∧ make q (some b)) ∧ b ∈ m.cur.made := by
  have hp := hc.own p
  rw [h] at hp
  exact hp.2

/-- A call that has thrown could not make an instance. -/
theorem Inv.thrown (hc : Inv make c) {p : ι} (h : c.place p = .thrown) : make p none := by
  have hp := hc.own p
  rw [h] at hp
  exact hp.2

/-- **No deadlock.**  While a call has not returned, it is somebody's turn: the holder of the
    mutex's, if there is one. -/
theorem Inv.turn (hc : Inv make c) {p : ι} (hp : (c.place p).left ≠ 0) :
    ∃ q, (q = p ∨ c.shared.holder = some q) ∧ (c.place q).left ≠ 0 ∧
      ((c.place q).left = 6 → c.shared.holder = none) := by
  cases hholder : c.shared.holder with
  | none => exact ⟨p, .inl rfl, hp, fun _ => rfl⟩
  | some q =>
    obtain ⟨hq, hlt⟩ := (hc.own q).of_holder hholder
    exact ⟨q, .inr rfl, hq, fun h6 => absurd h6 hlt.ne⟩

variable [DecidableEq ι]

/-- One step of some thread. -/
inductive Step (make : ι → Option β → Prop) :
    Pool ι (Shared ι β) (Point β) → Pool ι (Shared ι β) (Point β) → Prop
  | move {c : Pool ι (Shared ι β) (Point β)} {s' : Shared ι β} {x' : Point β} (p : ι)
      (h : Moves make p c.shared (c.place p) s' x') : Step make c (c.move p s' x')

/-- **One step keeps the invariant**, whoever takes it. -/
theorem Step.inv (h : Step make c c') (hc : Inv make c) : Inv make c' := by
  cases h with
  | move p h =>
    obtain ⟨hs, hx, hothers⟩ := h.ok hc.shared (hc.own p)
    refine hc.move (fun _ _ h => h) hs hx fun q hq hown _ => ⟨?_, trivial⟩
    obtain hsame | hk := hothers
    · rw [hsame]
      exact hown
    · exact hown.frame hq hk

theorem Step.left_lt {n : Nat} {make : Fin n → Option β → Prop}
    {c c' : Pool (Fin n) (Shared (Fin n) β) (Point β)} (h : Step make c c') :
    c'.left Point.left < c.left Point.left := by
  cases h with
  | move p h => exact c.left_move h.left_lt _

end Once
