/-
  The log of a `DeltaStore`, and whether `Log::walk` can read it.

  The two writers frame their entries differently.  `put_all` gives its outer header the number of
  bytes that follow.  `put` stores the size of the OBJECT into `len` and the size of the payload into
  `delta_len`, while `Log::walk` strides by `len`: the two lengths agree exactly when every page of
  the object was modified (`deltaLen_eq_iff`).

  * `framed_iff`: behind a well-framed log, one more entry is well framed exactly when its `len` is
    the length of its payload; otherwise the cursor of `walk` runs past `hdr->tail`.
  * `delta_framing`: along a run in which every `put` meets a fully modified object the framing
    agrees in every state, and from any such state the next `put` keeps it exactly on such an object.
-/
import NvStream.DeltaStore.Entries

namespace NvStream

open FlatMem LittleEndian LoadProg PersistTrace

/-! ## Well-framed files -/

/-- A walk whose callback always asks for more visits exactly the offsets `offs`, in order, and stops
    exactly at `hdr->tail`. -/
def File.Framed (f : File) (offs : List Nat) : Prop :=
  ∀ (σ : Type) (visit : Nat → σ → σ) (arg : σ), ∃ N, ∀ fuel ≥ N,
    f.run (walk (fun off _ a => pure (visit off a, true)) fuel arg) =
      .ok (if offs = [] then .idNotFound else .noError,
        offs.foldl (fun a off => visit off a) arg, word f.bytes tailOff)

/-- The offsets of the entries of a log. -/
def offsetsFrom : Nat → List Entry → List Nat
  | _, [] => []
  | off, e :: es => off :: offsetsFrom (off + e.frame.length) es

theorem offsetsFrom_concat (off : Nat) (es : List Entry) (e : Entry) :
    offsetsFrom off (es ++ [e]) = offsetsFrom off es ++ [off + (encode es).length] := by
  induction es generalizing off with
  | nil => rfl
  | cons e' es ih =>
    rw [List.cons_append, offsetsFrom, offsetsFrom, ih, encode_cons, List.length_append,
      List.cons_append, Nat.add_assoc]

theorem scan_offsets {σ : Type} (visit : Nat → σ → σ) (off : Nat) (es : List Entry) (arg : σ) :
    scan id (fun off (_ : Entry) a => (visit off a, true)) off es arg =
      ((offsetsFrom off es).foldl (fun a off => visit off a) arg, off + (encode es).length) := by
  induction es generalizing off arg with
  | nil => rfl
  | cons e es ih =>
    rw [scan, if_pos rfl, ih, offsetsFrom, List.foldl_cons, encode_cons, List.length_append,
      ← Nat.add_assoc]
    rfl

section
variable {f : File} {es : List Entry}

/-- **A log of entries is well framed.** -/
theorem framed_of_rep (hr : Rep f (encode es)) : f.Framed (offsetsFrom 32 es) := by
  intro σ visit arg
  refine ⟨es.length + 1, fun fuel hfuel => ?_⟩
  have hroom := hr.room
  have hcb : Behaves id (Set.Iio f.len) f.bytes (fun off _ a => pure (visit off a, true))
      (fun off (_ : Entry) a => (visit off a, true)) 32 es :=
    fun pre e post a _ _ => Prog.yields_pure _ _ _
  rw [← List.map_id es] at hr hroom
  have hwalk := walk_yields arg hr (Nat.lt_of_succ_le hfuel)
    (fun a _ h => show a < f.len by omega) hcb
  have hcode : walkCode (es.map id) =
      if offsetsFrom 32 es = [] then .idNotFound else .noError := by
    rw [walkCode, List.map_id]
    cases es <;> rfl
  rw [hr.tail_eq, ← hcode, List.map_id, ← scan_offsets visit 32 es arg]
  rw [List.map_id] at hwalk
  exact hwalk.run_eq (fun a ha => ha)

/-- Behind a well-framed log, the walk goes on from a header by the `len` it finds there. -/
theorem walk_last {h : LeHdr} {payload : List Byte}
    (hr : Rep f (encode es ++ ((h.encode ++ payload) ++ commitWord)))
    (hle : payload.length ≤ h.len.toNat)
    (hsmall : 32 + (encode es).length + (sizeofLehdr + h.len.toNat + wordLength) < 2 ^ 64)
    {σ : Type} (visit : Nat → σ → σ) (arg : σ) : ∃ N, ∀ fuel ≥ N,
      f.run (walk (fun off _ a => pure (visit off a, true)) fuel arg) =
        .ok (.noError, (offsetsFrom 32 es ++ [32 + (encode es).length]).foldl
          (fun a off => visit off a) arg,
          32 + (encode es).length + (sizeofLehdr + h.len.toNat + wordLength)) := by
  have hroom := hr.room
  have hlen64 : f.len < 2 ^ 64 := Nat.lt_trans hr.small (by decide)
  obtain ⟨hes, hframe⟩ := (load_append_iff _ _ _ _).mp hr.content
  obtain ⟨hdata, _⟩ := (load_append_iff _ _ _ _).mp hframe
  obtain ⟨hhdr, _⟩ := (load_append_iff _ _ _ _).mp hdata
  rw [LeHdr.length_encode] at hhdr
  have hat : h.At f.bytes (32 + (encode es).length) := hhdr
  have hbody : 32 + (encode es ++ ((h.encode ++ payload) ++ commitWord)).length =
      32 + (encode es).length + (sizeofLehdr + payload.length + wordLength) := by
    rw [tail_append, List.length_append, LeHdr.length_encode]
    simp only [sizeofLehdr, wordLength]
    omega
  have hcb : Behaves id (Set.Iio f.len) f.bytes (fun off _ a => pure (visit off a, true))
      (fun off (_ : Entry) a => (visit off a, true)) 32 es :=
    fun pre e post a _ _ => Prog.yields_pure _ _ _
  refine ⟨es.length + 2, fun fuel hfuel => ?_⟩
  obtain ⟨k, rfl⟩ : ∃ k, fuel = es.length + (k + 1 + 1) := ⟨fuel - es.length - 2, by omega⟩
  rw [List.foldl_append]
  refine Prog.Yields.run_eq (walk_of_below hr (fun a _ h => show a < f.len by omega)
    (walkBelow_of_loop hr ?_ ?_ (walkLoop_through (fun _ _ _ => rfl) es 32 (k + 1 + 1) arg _
      ?_ ?_ ?_ ?_ hcb ?_))) (fun a ha => ha)
  · simp only [sizeofLehdr, wordLength] at hbody
    omega
  · intro a _ h
    show a < f.len
    simp only [tailOff] at h
    omega
  · rw [List.map_id]
    exact hes
  · rw [List.map_id]
    omega
  · omega
  · intro a _ h
    show a < f.len
    omega
  · -- the last header: behind it the cursor is at the tail or beyond
    rw [List.map_id, scan_offsets]
    refine walkLoop_last hat.fields.2.2.1 (by simp only [sizeofLehdr] at hbody; omega) (by omega)
      hsmall (fun i hi => show _ < f.len by omega) (Prog.yields_pure _ _ _)

/-- **One more entry is well framed exactly when its `len` is the length of its payload.** -/
theorem framed_iff {h : LeHdr} {payload : List Byte}
    (hr : Rep f (encode es ++ ((h.encode ++ payload) ++ commitWord)))
    (hle : payload.length ≤ h.len.toNat)
    (hsmall : 32 + (encode es).length + (sizeofLehdr + h.len.toNat + wordLength) < 2 ^ 64) :
    f.Framed (offsetsFrom 32 es ++ [32 + (encode es).length]) ↔ payload.length = h.len.toNat := by
  have htail := hr.tail_eq
  rw [tail_append, List.length_append, LeHdr.length_encode] at htail
  constructor
  · intro hframed
    obtain ⟨N, hN⟩ := hframed Unit (fun _ a => a) ()
    obtain ⟨N', hN'⟩ := walk_last hr hle hsmall (fun _ (a : Unit) => a) ()
    have h1 := hN (max N N') (Nat.le_max_left _ _)
    rw [hN' (max N N') (Nat.le_max_right _ _)] at h1
    simp only [Except.ok.injEq, Prod.mk.injEq] at h1
    have hcursor := h1.2.2
    simp only [sizeofLehdr, wordLength] at hcursor
    omega
  · intro heq σ visit arg
    obtain ⟨N, hN⟩ := walk_last hr hle hsmall visit arg
    refine ⟨N, fun fuel hfuel => ?_⟩
    rw [hN fuel hfuel, if_neg (by simp), htail, heq]
    simp only [sizeofLehdr, wordLength, Nat.add_assoc]

end

/-! ## Runs of a `DeltaStore` -/

/-- A store, and the offsets at which its writers put the headers of their entries. -/
structure DeltaLife where
  store : DeltaStore
  offsets : List Nat

namespace DeltaLife

/-- Every page is modified. -/
def AllDirty (o : Object) : Prop := ∀ b ∈ o.bitset, b = true

/-- One call, one change of memory, protection and bits, or one reopening of the log.  `ok` restricts
    the objects that are put. -/
inductive Step (ok : Object → Prop) : DeltaLife → DeltaLife → Prop
  | createObj {L : DeltaLife} {code : ErrorCode} {addr : Nat} {s' : DeltaStore} (key : Key)
      (size : UInt64) (tmpPtr : Nat) (halloc : L.store.Allocated size tmpPtr)
      (h : L.store.createObj key size tmpPtr = .ok (code, addr, s')) :
      Step ok L { L with store := s' }
  | modify {L : DeltaLife} (heap : Mem Byte) (readOnly : Nat → Bool) (bits : Key → List Bool)
      (hbits : ∀ p ∈ L.store.objectMap.entries, (bits p.1).length = p.2.bitset.length) :
      Step ok L { L with store := { L.store with
        heap := heap
        readOnly := readOnly
        objectMap := L.store.objectMap.mapVal (fun k o => { o with bitset := bits k }) } }
  | put {L : DeltaLife} {n : Nat} {s' : DeltaStore} {obj : Object} (junk : LeHdr) (key : Key)
      (version : UInt64) (hobj : L.store.objectMap.find? key = some obj) (hok : ok obj)
      (h : L.store.put junk key version = .ok (.inr (n, s'))) :
      Step ok L ⟨s', L.offsets ++ [L.store.log.writeOffset]⟩
  | putAll {L : DeltaLife} {n : Nat} {s' : DeltaStore} (junk : Nat → LeHdr)
      (h : L.store.putAll junk = .ok (n, s')) :
      Step ok L ⟨s', L.offsets ++ [L.store.log.writeOffset]⟩
  | reopen {L : DeltaLife} {l : Log} {f : File} (heap : Mem Byte)
      (h : Log.ctor (some L.store.file) 0 = .ok (l, f)) :
      Step ok L { L with store := DeltaStore.ctor l f heap }

/-- A store on a new log. -/
def start (l : Log) (f : File) (heap : Mem Byte) : DeltaLife := ⟨DeltaStore.ctor l f heap, []⟩

/-- The log holds entries at the offsets noted, and every object is paged. -/
structure Inv (L : DeltaLife) (es : List Entry) : Prop where
  rep : Rep L.store.file (encode es)
  synced : L.store.log.Synced L.store.file (encode es)
  offsets : L.offsets = offsetsFrom 32 es
  paged : ∀ p ∈ L.store.objectMap.entries, p.2.Paged

variable {L L' : DeltaLife} {es : List Entry}

/-- Changes that keep the frame of every object keep every object paged. -/
theorem paged_mapVal {objs : SortedMap Key Object} (g : Key → Object → Object)
    (h : ∀ p ∈ objs.entries, p.2.Paged) (hg : ∀ p ∈ objs.entries, p.2.SameFrame (g p.1 p.2)) :
    ∀ p ∈ (objs.mapVal g).entries, p.2.Paged := by
  intro p hp
  rw [SortedMap.mem_mapVal] at hp
  obtain ⟨o, ho, hpo⟩ := hp
  rw [hpo]
  exact (h (p.1, o) ho).of_sameFrame (hg (p.1, o) ho)

/-- An entry appended at the tail keeps the invariant. -/
theorem Inv.append (hi : L.Inv es) {s' : DeltaStore} {e : Entry}
    (hr : Rep s'.file (encode es ++ e.frame)) (hs : s'.log.Synced s'.file (encode es ++ e.frame))
    (hpaged : ∀ p ∈ s'.objectMap.entries, p.2.Paged) :
    Inv ⟨s', L.offsets ++ [L.store.log.writeOffset]⟩ (es ++ [e]) := by
  have himage : encode (es ++ [e]) = encode es ++ e.frame := encode_concat es e
  refine ⟨by rw [himage]; exact hr, by rw [himage]; exact hs, ?_, hpaged⟩
  show L.offsets ++ [_] = _
  rw [offsetsFrom_concat, hi.offsets, hi.synced.write]

/-- **One step keeps the invariant**, if every object that is put has all its pages modified. -/
theorem Step.inv (h : Step AllDirty L L') (hi : L.Inv es) : ∃ es', L'.Inv es' := by
  cases h with
  | createObj key size tmpPtr halloc h =>
    obtain ⟨_, hplaced, rfl⟩ := DeltaStore.createObj_eq halloc h
    refine ⟨es, hi.rep, hi.synced, hi.offsets, ?_⟩
    intro p hp
    rcases (SortedMap.mem_insert _ _ _ _).mp hp with rfl | ⟨hp, _⟩
    · exact hplaced.toPaged
    · exact hi.paged p hp
  | modify heap readOnly bits hbits =>
    refine ⟨es, hi.rep, hi.synced, hi.offsets, paged_mapVal _ hi.paged ?_⟩
    intro p hp
    exact ⟨rfl, rfl, rfl, hbits p hp⟩
  | @put n s' obj junk key version hobj hok h =>
    obtain ⟨obj', hobj', hr, hs, _⟩ := DeltaStore.put_ok hi.rep hi.synced h
    obtain rfl := Option.some.inj (hobj.symm.trans hobj')
    have hpaged : obj.Paged := hi.paged (key, obj) ((SortedMap.find?_eq_some _ _ _).mp hobj)
    have hlen : (junk.fillDelta obj version).len.toNat = (obj.payload L.store.heap).length := by
      rw [obj.length_payload, (Object.deltaLen_eq_iff hpaged).mpr hok]
      rfl
    obtain ⟨_, _, _, _, _, rfl⟩ := DeltaStore.put_eq h
    refine ⟨_, hi.append (e := Entry.ofHdr _ _ hlen) hr hs (paged_mapVal _ hi.paged ?_)⟩
    intro p _
    split
    · exact DeltaStore.sameFrame_snapshotted _ _
    · exact .rfl
  | putAll junk h =>
    obtain ⟨e, hr, hs⟩ := DeltaStore.putAll_ok hi.rep hi.synced h
    obtain ⟨_, _, _, rfl⟩ := DeltaStore.putAll_eq h
    refine ⟨_, hi.append hr hs (paged_mapVal _ hi.paged ?_)⟩
    intro p _
    exact DeltaStore.sameFrame_snapshotted _ _
  | reopen heap h =>
    rw [ctor_reopen hi.rep] at h
    obtain ⟨rfl, rfl⟩ := Prod.mk.inj (Except.ok.inj h)
    refine ⟨es, hi.rep, handleOn_synced _ _, hi.offsets, ?_⟩
    intro p hp
    exact absurd hp List.not_mem_nil

theorem start_inv {size : Nat} {l : Log} {f : File} (heap : Mem Byte) (hsize : sizeofLhdr ≤ size)
    (hnew : Log.ctor none size = .ok (l, f)) : (start l f heap).Inv [] := by
  obtain ⟨hr, hs, _⟩ := ctor_create hsize hnew
  refine ⟨hr, hs, rfl, ?_⟩
  intro p hp
  exact absurd hp List.not_mem_nil

/-- **Every such run keeps the invariant.** -/
theorem Step.run_inv (h : Relation.ReflTransGen (Step AllDirty) L L') (hi : L.Inv es) :
    ∃ es', L'.Inv es' := by
  refine Runs.invariant (P := fun L => ∃ es, L.Inv es) ?_ h ⟨es, hi⟩
  rintro a b hstep ⟨es, hi⟩
  exact hstep.inv hi

/-- **The next `put` keeps the framing exactly on a fully modified object.** -/
theorem Inv.framed_put (hi : L.Inv es) {n : Nat} {s' : DeltaStore} {obj : Object} {junk : LeHdr}
    {key : Key} {version : UInt64} (hobj : L.store.objectMap.find? key = some obj)
    (h : L.store.put junk key version = .ok (.inr (n, s'))) :
    s'.file.Framed (L.offsets ++ [L.store.log.writeOffset]) ↔ AllDirty obj := by
  obtain ⟨obj', hobj', hr, _, hfit, _⟩ := DeltaStore.put_ok hi.rep hi.synced h
  obtain rfl := Option.some.inj (hobj.symm.trans hobj')
  have hpaged : obj.Paged := hi.paged (key, obj) ((SortedMap.find?_eq_some _ _ _).mp hobj)
  have hlen : (junk.fillDelta obj version).len.toNat = obj.size.toNat := rfl
  have hsmall := hi.rep.small
  have hobjsmall := hpaged.small
  have hcovers := hpaged.covers
  rw [hi.offsets, hi.synced.write, framed_iff hr, obj.length_payload, hlen,
    Object.deltaLen_eq_iff hpaged]
  · rfl
  · rw [obj.length_payload, hlen]
    exact obj.deltaLen_le hpaged.sized
  · rw [hlen]
    simp only [sizeofLehdr, wordLength] at hfit ⊢
    omega

/-- Creating the one object and putting it is such a run. -/
theorem run_one_put {l : Log} {f : File} {heap : Mem Byte} {s₁ s₂ : DeltaStore} {code : ErrorCode}
    {addr n : Nat} (halloc : (DeltaStore.ctor l f heap).Allocated 4 4096)
    (hcreate : (DeltaStore.ctor l f heap).createObj [97] 4 4096 = .ok (code, addr, s₁))
    (hmap : s₁.objectMap.entries = [([97], Object.ctorDelta [97] 4 0 4096)])
    (hput : s₁.put blankHdr [97] 1 = .ok (.inr (n, s₂))) :
    Relation.ReflTransGen (Step AllDirty) (start l f heap) ⟨s₂, [s₁.log.writeOffset]⟩ := by
  have hobj : s₁.objectMap.find? [97] = some (Object.ctorDelta [97] 4 0 4096) :=
    SortedMap.find?_of_singleton hmap
  have hdirty : AllDirty (Object.ctorDelta [97] 4 0 4096) := by unfold AllDirty; decide
  exact .tail (.single (.createObj [97] 4 4096 halloc hcreate))
    (.put blankHdr [97] 1 hobj hdirty hput)

end DeltaLife

/-- **Framing of the delta log.**  In every state of every run in which each `put` meets an object all
    of whose pages are modified, a walk visits exactly the entries written, each at its offset, and
    stops at `hdr->tail`.  And in any such state the next `put`, of any object, leaves a log with that
    property if and only if all pages of the object are modified. -/
theorem delta_framing {size : Nat} {l : Log} {f : File} {heap : Mem Byte}
    (hsize : sizeofLhdr ≤ size) (hnew : Log.ctor none size = .ok (l, f)) {L : DeltaLife}
    (hrun : Relation.ReflTransGen (DeltaLife.Step DeltaLife.AllDirty)
      (DeltaLife.start l f heap) L) :
    L.store.file.Framed L.offsets ∧
    ∀ (junk : LeHdr) (key : Key) (version : UInt64) (obj : Object) (n : Nat) (s' : DeltaStore),
      L.store.objectMap.find? key = some obj →
      L.store.put junk key version = .ok (.inr (n, s')) →
      (s'.file.Framed (L.offsets ++ [L.store.log.writeOffset]) ↔ DeltaLife.AllDirty obj) := by
  obtain ⟨es, hi⟩ := DeltaLife.Step.run_inv hrun (DeltaLife.start_inv heap hsize hnew)
  refine ⟨?_, ?_⟩
  · rw [hi.offsets]
    exact framed_of_rep hi.rep
  · intro junk key version obj n s' hobj h
    exact hi.framed_put hobj h

/-- The first `put` of an object: one entry, at offset 32. -/
theorem delta_framing_first_put :
    ∃ l f s₁ n s₂, Log.ctor none deltaLogSize = .ok (l, f) ∧
      (DeltaStore.ctor l f (fun _ => 0)).createObj [97] 4 4096 = .ok (.noError, 4096, s₁) ∧
      s₁.put blankHdr [97] 1 = .ok (.inr (n, s₂)) ∧ s₂.file.Framed [32] := by
  obtain ⟨l, f, s₁, n, s₂, hnew, halloc, hcreate, hmap, _, _, _, hs, _, hput⟩ := DeltaStore.one_put
  have hrun := DeltaLife.run_one_put halloc hcreate hmap hput
  have h := (delta_framing (by decide) hnew hrun).1
  rw [hs.write] at h
  exact ⟨l, f, s₁, n, s₂, hnew, hcreate, hput, h⟩

/-- **A second `put` of the unmodified object breaks the framing.**  It appends a header whose `len`
    is 4 and no payload: the tail is at 324, and the cursor of the walk ends at 328. -/
theorem second_put_breaks_framing :
    ∃ l f s₁ n₁ s₂ n₂ s₃, Log.ctor none deltaLogSize = .ok (l, f) ∧
      (DeltaStore.ctor l f (fun _ => 0)).createObj [97] 4 4096 = .ok (.noError, 4096, s₁) ∧
      s₁.put blankHdr [97] 1 = .ok (.inr (n₁, s₂)) ∧
      s₂.put blankHdr [97] 2 = .ok (.inr (n₂, s₃)) ∧
      s₁.log.writeOffset = 32 ∧ s₂.log.writeOffset = 180 ∧ ¬ s₃.file.Framed [32, 180] ∧
      word s₃.file.bytes tailOff = 324 ∧
      ∃ N, ∀ fuel ≥ N, s₃.file.run (walk (fun off _ seen => pure (seen ++ [off], true)) fuel []) =
        .ok (.noError, [32, 180], 328) := by
  obtain ⟨l, f, s₁, n₁, s₂, hnew, halloc, hcreate, hmap, _, _, hr₁, hs₁, hlen₁, hput₁⟩ :=
    DeltaStore.one_put
  have hrun := DeltaLife.run_one_put halloc hcreate hmap hput₁
  obtain ⟨es, hi⟩ := DeltaLife.Step.run_inv hrun (DeltaLife.start_inv _ (by decide) hnew)
  obtain ⟨obj, hobj, hr₂, hs₂, _, hlen₂⟩ := DeltaStore.put_ok hr₁ hs₁ hput₁
  obtain rfl := Option.some.inj ((SortedMap.find?_of_singleton hmap).symm.trans hobj)
  have hwo : s₂.log.writeOffset = 180 := by
    rw [hs₂.write, List.nil_append, List.length_append, List.length_append, LeHdr.length_encode,
      Object.length_payload]
    decide
  have hes : (encode es).length = 148 := by
    have h : s₂.log.writeOffset = 32 + (encode es).length := hi.synced.write
    omega
  have hobj₂ : s₂.objectMap.find? [97] =
      some (DeltaStore.snapshotted 1 (Object.ctorDelta [97] 4 0 4096)) := by
    obtain ⟨_, _, _, _, _, rfl⟩ := DeltaStore.put_eq hput₁
    exact SortedMap.find?_of_singleton (SortedMap.modify_of_singleton hmap _)
  obtain ⟨n₂, s₃, hput₂⟩ := DeltaStore.put_of_fits hi.rep hi.synced blankHdr 2 hobj₂ (by decide)
    (by rw [hes, show s₂.file.len = _ from hlen₂.trans hlen₁]; decide)
  obtain ⟨obj, hobj, hr₃, _⟩ := DeltaStore.put_ok hi.rep hi.synced hput₂
  obtain rfl := Option.some.inj (hobj₂.symm.trans hobj)
  have hoffs : [32] = offsetsFrom 32 es := by
    rw [← hi.offsets, hs₁.write]
    rfl
  refine ⟨l, f, s₁, n₁, s₂, n₂, s₃, hnew, hcreate, hput₁, hput₂, hs₁.write, hwo, ?_, ?_, ?_⟩
  · have hiff := hi.framed_put hobj₂ hput₂
    rw [hi.offsets, ← hoffs, show (DeltaLife.mk s₂ _).store.log.writeOffset = 180 from hwo] at hiff
    rw [show [32, 180] = [32] ++ [180] from rfl, hiff]
    unfold DeltaLife.AllDirty
    decide
  · rw [hr₃.tail_eq, List.length_append, List.length_append, List.length_append,
      LeHdr.length_encode, Object.length_payload, hes]
    decide
  · have hwalk := walk_last hr₃ (by rw [Object.length_payload]; decide) (by rw [hes]; decide)
      (fun off (seen : List Nat) => seen ++ [off]) []
    rw [← hoffs, hes] at hwalk
    exact hwalk

end NvStream
