import Propagation.Proofs.Answers
import Propagation.Proofs.Filter.Range
import Propagation.Proofs.Model.Termination

/-!
# Violated channels

A clash persists under filtering, and a row that has been swept does not clash. So a complete
filtering of a violated channel does not return (`GraphChannel.sweep_violated`). It ends in a
contradiction, unless one side requires what the other cannot have at all
(`GraphChannel.Oversteps`); then the narrowing by which it would be carried over may be a violation
of the interface.

In a propagation, a violated channel that is queued for a complete filtering stays so until it is
executed (`Model.Doomed`), and then the propagation fails.
-/

set_option autoImplicit false

namespace Propagation

open Update Store Scene

namespace GraphChannel

variable {ν σ : Type} {c : GraphChannel} {S S' : Scene} {i : Nat} {set : Var}

/-! ## What one side requires of the other -/

/-- One side requires what the other cannot have: a set requires a number that is no node, or the
graph an arc to a node that is not in the ground set of its row. -/
def Oversteps (c : GraphChannel) (s : Store) : Prop :=
  ∃ i set, c.sets[i]? = some set ∧ ∃ j,
    (s.kernelContains set j = .ok true ∧ c.sets.size ≤ j) ∨
      (s.arcInKernel c.graph i j = .ok true ∧ ∃ n, s.groundSize set = .ok n ∧ n ≤ j)

theorem grounded_of_not_oversteps {s : Store} {b : Bounds} (hs : s.Valid)
    (hgraph : s.scene c.graph = some (.graph c.sets.size b)) (htyped : c.Typed s.scene)
    (h : ¬c.Oversteps s) : c.Grounded s.scene := by
  intro i set hset
  obtain ⟨⟨m, d, hv⟩, hg⟩ := htyped i set hset
  refine ⟨htyped i set hset, fun j hj => ⟨_, hgraph, ?_⟩, fun j hj => ⟨_, hv, ?_⟩⟩
  · refine ⟨(Array.getElem?_eq_some_iff.1 hset).1, not_le.1 fun hle => h ⟨i, set, hset, j, .inl ?_⟩⟩
    exact ⟨(hs.kernelContains_iff set j).2 hj, hle⟩
  · refine not_le.1 fun hle : m ≤ j => h ⟨i, set, hset, j, .inr ?_⟩
    exact ⟨(hs.arcInKernel_iff c.graph i j).2 hj, m, hs.groundSize_eq hv, hle⟩

/-- If all sets range over the nodes of the graph, no side oversteps. -/
theorem not_oversteps {s : Store} (hs : s.Valid) (hcount : s.nodeCount c.graph = .ok c.sets.size)
    (hsets : ∀ set ∈ c.sets, s.groundSize set = .ok c.sets.size) : ¬c.Oversteps s := by
  obtain ⟨-, hfit⟩ := fits_of_groundSize hs hcount hsets
  rintro ⟨i, set, hset, j, ⟨hj, hle⟩ | ⟨hj, n, hn, hle⟩⟩
  · have hin := inEnvelope_of_inKernel hs.scene_wf ((hs.kernelContains_iff set j).1 hj)
    exact absurd ((hfit i set hset).value_lt hs.scene_wf hin) (by omega)
  · have hin := inEnvelope_of_inKernel hs.scene_wf ((hs.arcInKernel_iff c.graph i j).1 hj)
    have hlt := (hfit i set hset).target_lt hs.scene_wf hin
    cases hn.symm.trans (hsets set (Array.mem_of_getElem? hset))
    exact absurd hlt (by omega)

/-- `Grounded` is kept when a row is swept. -/
theorem Grounded.copied (h : c.Grounded S) (hwf : ∀ v D, S v = some D → D.Wf)
    (hle : Scene.Within S' S) (hset : c.sets[i]? = some set) (hc : Copied S c.graph i set S') :
    c.Grounded S' := by
  intro i' set' hset'
  refine (h i' set' hset').within hle (fun j hj => ?_) fun j hj => ?_
  · refine ((hc.value set' j).1 hj).imp_right fun ⟨_, harc⟩ => ?_
    obtain ⟨-, n, b, hg, hi'⟩ := (h i' set' hset').typed
    obtain ⟨D, hD, hground⟩ := ground_of_inEnvelope hwf (inEnvelope_of_inKernel hwf harc)
    cases hg.symm.trans hD
    exact ⟨_, hg, hi', hground.2⟩
  · refine ((hc.arc c.graph i' j).1 hj).imp_right ?_
    rintro ⟨⟨-, rfl⟩, hvalue⟩
    cases hset.symm.trans hset'
    exact ground_of_inEnvelope hwf (inEnvelope_of_inKernel hwf hvalue)

/-! ## The sweep -/

/-- Some row clashes. -/
def Clashing (c : GraphChannel) (S : Scene) : Prop :=
  ∃ i set, c.sets[i]? = some set ∧ Clashes S c.graph i set

/-- The invariant of a complete filtering with the rows `rest` still to be swept: one of them
clashes. -/
structure Failing (c : GraphChannel) (fit : Prop) (rest : List (Nat × Var)) (S : Scene) : Prop where
  rows : ∀ x ∈ rest, c.sets[x.1]? = some x.2
  typed : c.Typed S
  grounded : fit → c.Grounded S
  clash : ∃ x ∈ rest, Clashes S c.graph x.1 x.2

theorem sweep_violated {w : Workspace ν σ} (hs : w.store.Valid) (htyped : c.Typed w.store.scene)
    (hclash : c.Clashing w.store.scene) :
    Action.Filters c.Stable (c.Grounded w.store.scene) c.cause w
      (c.rows.forM fun x => c.sweepRow x.1 x.2 : Action ν σ PUnit) fun _ _ => False := by
  obtain ⟨i, set, hset, hclash⟩ := hclash
  refine (Action.filters_forM (I := c.Failing (c.Grounded w.store.scene)) hs
    ⟨fun x hx => mem_rows.1 hx, htyped, id, (i, set), mem_rows.2 hset, hclash⟩ ?_).mono
    fun _ _ _ h => by simpa using h.clash
  rintro ⟨i, set⟩ rest u - hadv ⟨hrows, htyped, hground, y, hy, hclash⟩
  have hset := hrows (i, set) List.mem_cons_self
  refine (sweepRow_filters hadv.valid (fun G hG => hG i set hset)
    fun hf => hground hf i set hset).mono fun _ u' hu' ⟨_, hswept, hcopied⟩ => ?_
  have hclash' := hclash.within (htyped _ _ (hrows y hy)) hu'.within
  refine ⟨fun x hx => hrows x (List.mem_cons_of_mem _ hx), htyped.within hu'.within,
    fun hf => (hground hf).copied hadv.valid.scene_wf hu'.within hset hcopied, y, ?_, hclash'⟩
  rcases List.mem_cons.1 hy with rfl | hy
  · exact absurd hswept.agrees (hclash'.not_agrees hu'.valid.scene_wf)
  · exact hy

/-- `propagate` on a channel with a clash ends in a contradiction, or in a fault if the rows are not
grounded. -/
theorem propagate_violated {w : Workspace ν GraphChannel} (hs : w.store.Valid) (hown : w.own = c)
    (htyped : c.Typed w.store.scene) (hclash : c.Clashing w.store.scene) :
    Ends (propagate : Action ν GraphChannel Unit).run w (fun _ _ => False)
      fun f _ => c.Grounded w.store.scene → ∃ x, f = .contradiction x := by
  subst hown
  refine (inRange_propagate.halts hs (P := w.own.Stable) (c := w.own.cause) ?_).mono
    (fun _ _ h => h) fun _ _ h hground => (h hground).1
  refine Ends.of_eq (Action.ends_seq (Q := fun _ _ => False) ?_ fun _ _ h => h.elim)
    (Action.run_state_bind _)
  exact Ends.mono (sweep_violated hs htyped hclash) (fun _ _ h => h.2.2) fun _ _ h => h.2

end GraphChannel

/-! ## In a propagation -/

namespace Model

variable {ν π : Type} {m m₁ m₂ u : Model ν (Constraint ⊕ π)} {p r : PropagatorId}
  {c : GraphChannel}

/-- The channel `c` of the propagator `p` clashes, and is queued for a complete filtering. -/
structure Doomed (m : Model ν (Constraint ⊕ π)) (p : PropagatorId) (c : GraphChannel) : Prop where
  queued : m.queue.contains p = true
  active : m.Active p.id
  entry : ∃ e, m.entries[p.id]? = some e ∧ e.coarse = true ∧ e.propagator = .inl (.graphChannel c)
  graph : ∃ b, m.store.scene c.graph = some (.graph c.sets.size b)
  typed : c.Typed m.store.scene
  clash : c.Clashing m.store.scene

theorem Dispatched.doomed (h : m.Dispatched m₁) (hd : m.Doomed p c) : m₁.Doomed p c where
  queued := (h.handed.queued p).2 (.inl hd.queued)
  active := (h.active p.id).2 hd.active
  entry := by
    obtain ⟨e, he, hcoarse, hown⟩ := hd.entry
    obtain ⟨l, hl, -⟩ := h.handed.entry p.id e he
    exact ⟨_, hl, hcoarse, hown⟩
  graph := h.store ▸ hd.graph
  typed := h.store ▸ hd.typed
  clash := h.store ▸ hd.clash

/-- `Doomed` is kept by the execution of another propagator. -/
theorem Executed.doomed {q : Queue} (h : ({ m with queue := q } : Model _ _).Executed r m₂)
    (hpop : m.queue.pop = some (r, q)) (hq : m.queue.Valid) (hne : p ≠ r) (hd : m.Doomed p c) :
    m₂.Doomed p c := by
  have hid : p.id ≠ r.id := fun hid => hne (congrArg PropagatorId.mk hid)
  have hle : Scene.Within m₂.store.scene m.store.scene := fun v D hv => by
    obtain ⟨D', hD', hle⟩ := h.evolves.scene v D hv
    exact ⟨D', hD', h.evolves.valid.store.wf hD', hle⟩
  obtain ⟨e, he, hrest⟩ := hd.entry
  obtain ⟨b, hgraph⟩ := hd.graph
  obtain ⟨b', hgraph', -⟩ := GraphChannel.graph_of_within hle hgraph
  obtain ⟨i, set, hset, hclash⟩ := hd.clash
  refine ⟨?_, (h.active _ hid).2 hd.active, ⟨e, (h.others _ hid).trans he, hrest⟩,
    ⟨b', hgraph'⟩, hd.typed.within hle, i, set, hset, hclash.within (hd.typed i set hset) hle⟩
  rw [h.queue]
  exact (((hq.pop_some hpop).2.2 p).1 hd.queued).resolve_left hne

variable [Propagator ν π]

/-- The action of the propagator itself does not return. It ends in a contradiction unless the
channel `Oversteps`. -/
theorem Doomed.job_ends (hd : m.Doomed p c) (hm : m.Valid) {q : Queue}
    {e : Entry (Constraint ⊕ π)} (he : m.entries[p.id]? = some e) :
    Ends (job ν e).run (({ m with queue := q } : Model _ _).desk p e) (fun _ _ => False)
      fun f _ => c.Grounded m.store.scene → ∃ x, f = .contradiction x := by
  obtain ⟨e', he', hcoarse, hown⟩ := hd.entry
  cases he.symm.trans he'
  rw [job, if_pos hcoarse]
  refine Ends.of_eq ?_ (Action.run_state_bind _)
  rw [show (({ m with queue := q } : Model _ _).desk p e).own = _ from hown]
  refine Propagator.ends_onLeft hown (Ends.of_eq ?_ (Action.run_state_bind _))
  refine Constraint.onGraphChannel_ends rfl ?_
  exact GraphChannel.propagate_violated (w := ⟨_, c, #[]⟩)
    (hm.store.evolves_aside m.store.sink (some p)).valid rfl hd.typed hd.clash

/-- The execution of the propagator itself does not return, and faults only if the channel
`Oversteps`. -/
theorem Doomed.execute_ends (hd : m.Doomed p c) (hm : m.Valid) (q : Queue) :
    Ends (execute p : Attempt ν (Constraint ⊕ π) Unit) { m with queue := q } (fun _ _ => False)
      fun _ _ => True := by
  obtain ⟨e, he, -⟩ := hd.entry
  have hjob := hd.job_ends hm (q := q) he
  refine (((Evolves.withQueue hm q).valid).execute_runs he).mono ?_ fun _ _ _ => trivial
  rintro - m' (⟨hno, -⟩ | ⟨-, w, hrun, -⟩)
  · exact hno hd.active
  · exact hjob.of_ok hrun

theorem Doomed.breaks (hd : m.Doomed p c) (hm : m.Valid) {q : Queue} {f : Fault}
    (h : ({ m with queue := q } : Model _ _).Breaks p f) : c.Oversteps m.store := by
  by_contra hno
  obtain ⟨b, hgraph⟩ := hd.graph
  have hground := GraphChannel.grounded_of_not_oversteps hm.store hgraph hd.typed hno
  cases h with
  | running he hrun =>
    obtain ⟨x, hx⟩ := (hd.job_ends hm he).of_error hrun hground
    cases hx
  | asked he hrun => exact (hd.job_ends hm he).of_ok hrun

/-- A round either keeps `Doomed`, or is that of `p`, which does not return. -/
theorem Doomed.round (hd : m.Doomed p c) (hm : m.Valid) (ht : m.Tidy) {q : Queue}
    (hpop : m.queue.pop = some (r, q)) :
    Ends (execute r : Attempt ν (Constraint ⊕ π) Unit) { m with queue := q }
      (fun _ m' => m'.Valid ∧ m'.Tidy ∧ m'.Doomed p c) fun _ _ => True := by
  by_cases hr : p = r
  · subst hr
    exact (hd.execute_ends hm q).mono (fun _ _ h => h.elim) fun _ _ h => h
  · have hlt : r.id < m.entries.size := ht.lt_of_pop hpop
    have hexec := (Evolves.withQueue hm q).valid.execute_ends (Array.getElem?_eq_getElem hlt)
    refine hexec.mono (fun _ m' h => ?_) fun _ _ _ => trivial
    exact ⟨h.evolves.valid, h.tidy hpop ht hm, h.doomed hpop ht.queue hr hd⟩

theorem Went.doomed {n : Nat} (h : m.Went n u) (hm : m.Valid) (ht : m.Tidy) (hd : m.Doomed p c) :
    u.Doomed p c := by
  induction h with
  | start => exact hd
  | round hwent hnext hrun ih =>
    obtain ⟨hm', ht', -⟩ := hwent.load_le hm ht
    obtain ⟨v, hv, q, hpop, rfl⟩ := (ht'.next_ends hm').of_ok hnext
    exact (((hv.doomed ih).round (hv.evolves hm').valid (hv.tidy ht' hm') hpop).of_ok hrun).2.2

/-- A propagation does not succeed while a channel is `Doomed`. A fault is one of the code of a
propagator (`Breaks`), and of the channel itself only if it `Oversteps`. -/
theorem Doomed.fixpoint_ends (hd : m.Doomed p c) (hm : m.Valid) (ht : m.Tidy) :
    Ends (fixpoint : Attempt ν (Constraint ⊕ π) Unit) m (fun _ _ => False)
      fun f _ => ∀ g, f = .fault g → ∃ n u q u₁, m.Went n u ∧ next u = .ok (some q) u₁ ∧
        u₁.Breaks q g ∧ (q = p → c.Oversteps u₁.store) := by
  have hsettle : Ends (settle m.budget : Attempt ν (Constraint ⊕ π) Unit) m (fun _ _ => False)
      fun _ _ => True := by
    refine settle_ends_of (I := fun m => m.Valid ∧ m.Tidy ∧ m.Doomed p c)
      (fun _ h => ⟨h.1, h.2.1⟩) ?_ ?_ (fun _ => trivial) _ ⟨hm, ht, hd⟩
    · rintro m m₁ ⟨hm, ht, hd⟩ hdisp hpop
      have hnone := (hdisp.tidy ht hm).queue.pop_none hpop p
      rw [(hdisp.doomed hd).queued] at hnone
      cases hnone
    · rintro m m₁ r q e ⟨hm, ht, hd⟩ hdisp hpop -
      exact (hdisp.doomed hd).round (hdisp.evolves hm).valid (hdisp.tidy ht hm) hpop
  have hbroken := ht.fixpoint_broken (ν := ν) hm
  cases hfix : fixpoint m with
  | ok a m' =>
    rw [fixpoint] at hfix
    cases hrun : settle m.budget m with
    | ok a u => exact (hsettle.of_ok hrun).elim
    | error f u =>
      rw [hrun] at hfix
      cases f <;> cases hfix
  | error f m' =>
    refine ends_of_error hfix fun g hg => ?_
    obtain ⟨n, u, q, u₁, hwent, hnext, hbreaks⟩ := hbroken.of_error hfix g hg
    refine ⟨n, u, q, u₁, hwent, hnext, hbreaks, ?_⟩
    rintro rfl
    obtain ⟨hu, htu, -⟩ := hwent.load_le hm ht
    obtain ⟨v, hv, k, hpop, rfl⟩ := (htu.next_ends hu).of_ok hnext
    exact (hv.doomed (hwent.doomed hm ht hd)).breaks (hv.evolves hu).valid hbreaks

end Model

/-! ## What becomes of a violated channel -/

/-- In any reached store, let `c` be a channel between a graph and as many sets as it has nodes,
whose `entailment` is `violated`. Then `propagate` does not return, and ends in a contradiction
unless the channel `Oversteps`. So a propagation from a session in which such a channel is active
and queued with a coarse entry does not succeed; and if it faults, that is a fault of the code of a
propagator, and if of the channel itself, it `Oversteps` by then. -/
theorem GraphChannel.contradiction_of_violated {ν π : Type} [Propagator ν π] :
    (∀ (s : Store) (c : GraphChannel) (notes : Array ν), s.Reached →
      s.nodeCount c.graph = .ok c.sets.size → (∀ set ∈ c.sets, ∃ l, s.elements set = .ok l) →
      c.entailment s = .ok .violated →
      Ends (propagate : Action ν GraphChannel Unit).run ⟨s, c, notes⟩ (fun _ _ => False)
        fun f _ => ¬c.Oversteps s → ∃ x, f = .contradiction x) ∧
    ∀ (marks : Array Mark) (before : List (Call (Constraint ⊕ π))) (s : Session ν (Constraint ⊕ π))
      (xs : List (Step ν (Constraint ⊕ π))) (p : PropagatorId) (e : Entry (Constraint ⊕ π))
      (c : GraphChannel), Session.run before ⟨.empty, marks⟩ = .ok xs s →
      s.model.entry p = .ok e → e.propagator = .inl (.graphChannel c) → e.coarse = true →
      s.model.queue.contains p = true → s.model.isActive p = .ok true →
      s.model.store.nodeCount c.graph = .ok c.sets.size →
      (∀ set ∈ c.sets, ∃ l, s.model.store.elements set = .ok l) →
      c.entailment s.model.store = .ok .violated →
      Ends (Model.fixpoint : Model.Attempt ν (Constraint ⊕ π) Unit) s.model (fun _ _ => False)
        fun f _ => ∀ g, f = .fault g → ∃ n u q u₁, s.model.Went n u ∧
          Model.next u = .ok (some q) u₁ ∧ u₁.Breaks q g ∧ (q = p → c.Oversteps u₁.store) := by
  constructor
  · intro s c notes hs hcount hsets hviolated
    obtain ⟨⟨b, hgraph⟩, htyped⟩ := typed_of_nodeCount hs.valid hcount hsets
    have hclash := (says_of_entailment hs.valid hviolated).violated.1 rfl
    refine (propagate_violated (w := ⟨s, c, notes⟩) hs.valid rfl htyped hclash).mono
      (fun _ _ h => h) fun f _ h hno => h (grounded_of_not_oversteps hs.valid hgraph htyped hno)
  · intro marks before s xs p e c hrun he hown hcoarse hqueued hactive hcount hsets hviolated
    have hready := Session.ready hrun Model.ready_empty
    have hs := hready.valid.store
    obtain ⟨⟨b, hgraph⟩, htyped⟩ := typed_of_nodeCount hs hcount hsets
    have hd : s.model.Doomed p c :=
      { queued := hqueued
        active := ((hready.valid.isActive_eq_true hready.tidy.size).1 hactive).2
        entry := ⟨e, (Model.entry_eq_ok he).2, hcoarse, hown⟩
        graph := ⟨b, hgraph⟩
        typed := htyped
        clash := (says_of_entailment hs hviolated).violated.1 rfl }
    exact hd.fixpoint_ends hready.valid hready.tidy

/-- A set that requires a node to which there is no arc any more, before and after the channel has
been posted. -/
theorem GraphChannel.contradiction_of_violated_removed :
    (∃ (s : Store) (x : Contradiction) (u : Workspace Unit GraphChannel), s.Reached ∧
      (GraphChannel.of ⟨0⟩ [⟨1⟩]).entailment s = .ok .violated ∧
      (propagate : Action Unit GraphChannel Unit).run ⟨s, .of ⟨0⟩ [⟨1⟩], #[]⟩ =
        .error (.contradiction x) u) ∧
    ∃ (xs : List (Step Unit (Constraint ⊕ NotEqual))) (s : Session Unit (Constraint ⊕ NotEqual))
      (f : Failure) (m' : Model Unit (Constraint ⊕ NotEqual)),
      Session.run [.create (.digraphs 1), .create (.subsets 1),
        .narrow ⟨1⟩ (.addToKernel 0) .decision, .narrow ⟨0⟩ (.removeArc 0 0) .decision,
        .post (.inl (.graphChannel (.of ⟨0⟩ [⟨1⟩])))] ⟨.empty, #[]⟩ = .ok xs s ∧
      Model.fixpoint s.model = .error f m' := by
  obtain ⟨hstore, hsession⟩ := contradiction_of_violated (ν := Unit) (π := NotEqual)
  constructor
  · obtain ⟨s, hs, hcount, hground, hviolated⟩ : ∃ s : Store, s.Reached ∧
        s.nodeCount ⟨0⟩ = .ok 1 ∧ s.groundSize ⟨1⟩ = .ok 1 ∧
        (GraphChannel.of ⟨0⟩ [⟨1⟩]).entailment s = .ok .violated :=
      ⟨(Session.after (⟨.empty, #[]⟩ : Session Unit NotEqual) [.create (.digraphs 1),
        .create (.subsets 1), .narrow ⟨1⟩ (.addToKernel 0) .decision,
        .narrow ⟨0⟩ (.removeArc 0 0) .decision]).model.store,
        .model (.calls #[] _), by decide +kernel⟩
    have hmem : ∀ set ∈ (GraphChannel.of ⟨0⟩ [⟨1⟩]).sets, set = ⟨1⟩ := by simp [GraphChannel.of]
    have hends := hstore s (.of ⟨0⟩ [⟨1⟩]) #[] hs hcount (fun set hset => by
      obtain rfl := hmem set hset
      exact (Checked.exists_of_bind_eq_ok hground).imp fun _ h => h.1) hviolated
    cases hrun : (propagate : Action Unit GraphChannel Unit).run ⟨s, .of ⟨0⟩ [⟨1⟩], #[]⟩ with
    | ok a u => exact (hends.of_ok hrun).elim
    | error f u =>
      obtain ⟨x, rfl⟩ := hends.of_error hrun (not_oversteps hs.valid hcount fun set hset => by
        obtain rfl := hmem set hset
        exact hground)
      exact ⟨s, x, u, hs, hviolated, hrun⟩
  · obtain ⟨xs, s, hrun, htest⟩ := Session.exists_run
      [.create (.digraphs 1), .create (.subsets 1), .narrow ⟨1⟩ (.addToKernel 0) .decision,
        .narrow ⟨0⟩ (.removeArc 0 0) .decision, .post (.inl (.graphChannel (.of ⟨0⟩ [⟨1⟩])))]
      (⟨.empty, #[]⟩ : Session Unit (Constraint ⊕ NotEqual))
      (fun s => (s.model.entry ⟨0⟩).toOption.any fun e : Entry (Constraint ⊕ NotEqual) => decide (
        e.propagator = .inl (.graphChannel ((GraphChannel.of ⟨0⟩ [⟨1⟩]).posted ⟨0⟩)) ∧
        e.coarse = true ∧
        s.model.queue.contains ⟨0⟩ = true ∧ s.model.isActive ⟨0⟩ = .ok true ∧
        s.model.store.nodeCount ⟨0⟩ = .ok 1 ∧ s.model.store.groundSize ⟨1⟩ = .ok 1 ∧
        ((GraphChannel.of ⟨0⟩ [⟨1⟩]).posted ⟨0⟩).entailment s.model.store = .ok .violated))
      (by decide +kernel)
    obtain ⟨e, he, htest⟩ := Checked.exists_of_any htest
    obtain ⟨hown, hcoarse, hqueued, hactive, hcount, hground, hviolated⟩ := of_decide_eq_true htest
    have hends := hsession _ _ s xs ⟨0⟩ e _ hrun he hown hcoarse hqueued hactive hcount
      (fun set hset => by
        obtain rfl : set = ⟨1⟩ := by simpa [GraphChannel.posted, GraphChannel.of] using hset
        exact (Checked.exists_of_bind_eq_ok hground).imp fun _ h => h.1) hviolated
    cases hfix : Model.fixpoint s.model with
    | ok a m' => exact (hends.of_ok hfix).elim
    | error f m' => exact ⟨xs, s, f, m', hrun, hfix⟩

/-- A set that requires a number which is no node: `entailment` is `violated`, but carrying the
number over to the graph is a violation of the interface. -/
theorem GraphChannel.fault_of_violated : ∃ (s : Store) (setup : Setup Unit GraphChannel)
    (u : Workspace Unit GraphChannel), s.Reached ∧
      initialise (.of ⟨0⟩ [⟨1⟩]) ⟨0⟩ s = .ok setup ∧ setup.propagator.entailment s = .ok .violated ∧
      (propagate : Action Unit GraphChannel Unit).run ⟨s, setup.propagator, #[]⟩ =
        .error (.fault (.violation (.outsideGround 1 ⟨0⟩))) u := by
  obtain ⟨s, hs, hinit, hviolated, htest⟩ : ∃ s : Store, s.Reached ∧
      (initialise (.of ⟨0⟩ [⟨1⟩]) ⟨0⟩ s : Except Fault (Setup Unit GraphChannel)).isOk = true ∧
      ((GraphChannel.of ⟨0⟩ [⟨1⟩]).posted ⟨0⟩).entailment s = .ok .violated ∧
      fails (propagate : Action Unit GraphChannel Unit).run
        ⟨s, (GraphChannel.of ⟨0⟩ [⟨1⟩]).posted ⟨0⟩, #[]⟩
        (fun e _ => decide (e = .fault (.violation (.outsideGround 1 ⟨0⟩)))) = true :=
    ⟨(Session.after (⟨.empty, #[]⟩ : Session Unit NotEqual) [.create (.digraphs 1),
      .create (.subsets 2), .narrow ⟨1⟩ (.addToKernel 1) .decision]).model.store,
      .model (.calls #[] _), by decide +kernel, by decide +kernel, by decide +kernel⟩
  obtain ⟨setup, hsetup⟩ := Checked.exists_of_isOk hinit
  rw [← (initialise_eq_ok hsetup).2] at hviolated htest
  obtain ⟨e, u, hrun, he⟩ := exists_of_fails htest
  obtain rfl := of_decide_eq_true he
  exact ⟨s, setup, u, hs, hsetup, hviolated, hrun⟩

end Propagation
