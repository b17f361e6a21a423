import Propagation.Proofs.Filter.Channel
import Propagation.Proofs.Reached

/-!
# One sweep of a channel

A complete filtering of a channel goes through the nodes once, and the channel is not notified of
its own changes. So one sweep has to be enough:

* after it every node agrees with its set, provided that no other node has the same set, and if
  that is so for all nodes a second sweep finds nothing to do (`GraphChannel.propagate_agrees`);
* where nodes share a set, a later row may decide values of it that an earlier row would have to
  carry over to the graph (`GraphChannel.not_agrees_of_shared`).
-/

set_option autoImplicit false

namespace Propagation

open Update Store Scene

/-- `nodeCount` succeeds on graphs only. -/
theorem Store.Valid.graph_of_nodeCount {s : Store} {v : Var} {n : Nat} (hs : s.Valid)
    (h : s.nodeCount v = .ok n) : ∃ n b, s.scene v = some (.graph n b) := by
  rcases hs.isGraph_or v with hgraph | ⟨-, k, hk⟩
  · exact hgraph
  · rw [nodeCount, hk] at h
    cases h

namespace Action

variable {ν σ α β : Type} {w : Workspace ν σ} {v : Var} {e : Element} {c : Cause}

/-! ## Actions that find nothing to do -/

theorem run_ask {q : Store → Except Fault β} {f : β → Action ν σ α} {b : β}
    (h : q w.store = .ok b) : (query q >>= f).run w = (f b).run w := by
  rw [run_seq]
  exact bind_ok _ (by rw [run_query, h])

theorem run_forM_idle {f : β → Action ν σ PUnit} {xs : List β}
    (h : ∀ x ∈ xs, (f x).run w = .ok ⟨⟩ w) : (xs.forM f).run w = .ok ⟨⟩ w := by
  induction xs with
  | nil => rfl
  | cons x xs ih =>
    have hrest := ih fun y hy => h y (List.mem_cons_of_mem x hy)
    show (f x >>= fun _ => xs.forM f).run w = _
    rw [run_seq, bind_ok _ (h x List.mem_cons_self), hrest]

/-- A narrowing that the domain obeys leaves the workspace unchanged. -/
theorem run_narrowing_obeyed {D : Dom} {n : Narrowing} (hs : w.store.Valid)
    (hv : w.store.scene v = some D) (ha : D.Accepts n) (hn : D.Obeys n) (hkind : n.kind ≠ .int) :
    (discard (apply v n c) : Action ν σ PUnit).run w = .ok ⟨⟩ w := by
  have hends : Ends (discard (apply v n c) : Action ν σ PUnit).run w (fun _ u => u = w)
      fun _ _ => False := by
    refine ends_discard (ends_apply hs ?_ ?_)
    · intro changed s' hok
      obtain ⟨E, E', -, hE', hchanged, hnarrowed, hsame⟩ := hok
      have hE := hnarrowed.before
      rw [hv] at hE
      cases hE
      rw [hn] at hE'
      cases hE'
      rw [hsame (by simpa using hchanged)]
      rfl
    · intro f s' hbad
      cases f with
      | contradiction x =>
        obtain ⟨-, -, E, hE, -, hnone⟩ := hbad
        rw [hv] at hE
        cases hE
        rw [hn] at hnone
        cases hnone
      | fault f =>
        rcases hbad with ⟨-, hint, -⟩ | ⟨-, -, -, hno⟩
        · exact hkind hint
        · exact hno D hv ha
  obtain ⟨_, u, hrun, rfl⟩ := hends.exists_ok
  exact hrun

theorem run_enforcing_idle (hs : w.store.Valid) (he : InKernel w.store.scene v e) :
    (discard (apply v e.enforcing c) : Action ν σ PUnit).run w = .ok ⟨⟩ w := by
  obtain ⟨D, hv, hk⟩ := he
  have hwf := hs.wf hv
  refine run_narrowing_obeyed hs hv (Dom.accepts_enforcing.2 ?_) (Dom.obeys_enforcing hwf hk) ?_
  · exact hwf.ground (hwf.kernel_subset hk)
  · cases e <;> nofun

end Action

namespace GraphChannel

open Propagation.Action

variable {ν : Type} {c : GraphChannel} {i : Nat} {set : Var}

/-! ## The second sweep -/

section
variable {σ : Type} {w : Workspace ν σ}

/-- A row whose sides agree is not changed by a sweep. -/
theorem run_sweepRow_idle (hs : w.store.Valid) (ht : TypedRow w.store.scene c.graph i set)
    (ha : Agrees w.store.scene c.graph i set) :
    (c.sweepRow i set : Action ν σ Unit).run w = .ok () w := by
  obtain ⟨hset, hgraph⟩ := ht
  have hset' : ∀ {p : Prop}, ¬(∃ n b, w.store.scene set = some (.set n b)) ∧ p → False :=
    fun h => h.1 hset
  have hgraph' : ∀ {p : Prop},
      ¬(∃ n b, w.store.scene c.graph = some (.graph n b) ∧ i < n) ∧ p → False :=
    fun h => h.1 hgraph
  obtain ⟨-, required, hrequired, hmem₁⟩ :=
    (hs.kernelValues_spec set).resolve_right fun h => hset' h
  obtain ⟨-, enforced, henforced, hmem₂⟩ :=
    (hs.kernelSuccessors_spec c.graph i).resolve_right fun h => hgraph' h
  obtain ⟨-, possible, hpossible, hmem₃⟩ :=
    (hs.envelopeValues_spec set).resolve_right fun h => hset' h
  obtain ⟨-, allowed, hallowed, hmem₄⟩ :=
    (hs.envelopeSuccessors_spec c.graph i).resolve_right fun h => hgraph' h
  unfold sweepRow
  rw [run_ask hrequired, run_seq, bind_ok _ (run_forM_idle fun j hj => ?_)]
  · rw [run_ask henforced, run_seq, bind_ok _ (run_forM_idle fun j hj => ?_)]
    · rw [run_ask hpossible, run_seq, bind_ok _ (run_forM_idle fun j hj => ?_)]
      · rw [run_ask hallowed]
        refine run_forM_idle fun j hj => ?_
        obtain ⟨-, b, hb, hiff⟩ := (hs.envelopeContains_spec set j).resolve_right fun h => hset' h
        unfold trimGraph
        rw [run_ask hb, hiff.2 ((ha j).2.2 ((hmem₄ j).1 hj))]
        rfl
      · obtain ⟨-, b, hb, hiff⟩ := (hs.arcInEnvelope_spec c.graph i j).resolve_right
          fun h => h.1 ⟨_, _, hgraph.choose_spec.choose_spec.1⟩
        unfold trimSet
        rw [run_ask hb, hiff.2 ((ha j).2.1 ((hmem₃ j).1 hj))]
        rfl
    · exact run_enforcing_idle (e := .value j) hs ((ha j).1.2 ((hmem₂ j).1 hj))
  · exact run_enforcing_idle (e := .arc i j) hs ((ha j).1.1 ((hmem₁ j).1 hj))

end

/-- On a stable scene `propagate` succeeds, brings the monitors up to date and leaves the store
unchanged. -/
theorem propagate_idle {w : Workspace ν GraphChannel} {p : PropagatorId} (hs : w.store.Valid)
    (hc : w.own.Formed p) (ht : w.own.Tracks w.store) (hlive : w.own.Live w.store.scene)
    (htyped : w.own.Typed w.store.scene) (hstable : w.own.Stable w.store.scene) :
    ∃ u, (propagate : Action ν GraphChannel Unit).run w = .ok () u ∧ u.store = w.store := by
  have hsweep : (w.own.rows.forM fun x => w.own.sweepRow x.1 x.2 :
      Action ν GraphChannel PUnit).run w = .ok ⟨⟩ w := by
    refine run_forM_idle fun x hx => ?_
    have hset := mem_rows.1 hx
    exact run_sweepRow_idle hs (htyped _ _ hset) (hstable _ _ hset)
  have hskip : Ends ((List.range w.own.monitors.size).forM fun k =>
      Action.update fun s => onMonitor k (skip s) : Action ν GraphChannel PUnit).run w
      (fun _ u => u.store = w.store) fun _ _ => False :=
    (skipAll_ends hs rfl hc ht fun _ : True => hlive).mono (fun _ _ h => h.1)
      fun _ _ ⟨_, _, h⟩ => h trivial
  have hrun : (propagate : Action ν GraphChannel Unit).run w = ((List.range
      w.own.monitors.size).forM fun k => Action.update fun s => onMonitor k (skip s) :
        Action ν GraphChannel PUnit).run w := by
    unfold propagate
    rw [run_state_bind, run_seq]
    exact bind_ok _ hsweep
  rw [hrun]
  obtain ⟨_, u, hrest, hstore⟩ := hskip.exists_ok
  exact ⟨u, hrest, hstore⟩

/-! ## Agreement by the queries of a store -/

/-- The row agrees, by the queries of the store. -/
def Shown (s : Store) (g : Var) (i : Nat) (set : Var) : Prop :=
  ∀ j, (s.kernelContains set j = .ok true ↔ s.arcInKernel g i j = .ok true) ∧
    (s.envelopeContains set j = .ok true ↔ s.arcInEnvelope g i j = .ok true)

theorem Agrees.shown {s : Store} {g : Var} (hs : s.Valid) (ha : Agrees s.scene g i set) :
    Shown s g i set := by
  intro j
  rw [hs.kernelContains_iff, hs.arcInKernel_iff, hs.envelopeContains_iff, hs.arcInEnvelope_iff]
  exact ha j

/-- A test that `propagate` passes on the channel as it is posted holds after a run on the answer of
`initialise`, if there is one. -/
theorem exists_swept {s : Store} {g : Var} {sets : List Var} {p : PropagatorId}
    {test : Workspace ν GraphChannel → Bool}
    (hinit : (initialise (.of g sets) p s : Except Fault (Setup ν GraphChannel)).isOk = true)
    (h : passes (propagate : Action ν GraphChannel Unit).run
      ⟨s, (GraphChannel.of g sets).posted p, #[]⟩ (fun _ u => test u) = true) :
    ∃ (setup : Setup ν GraphChannel) (u : Workspace ν GraphChannel),
      initialise (.of g sets) p s = .ok setup ∧
      (propagate : Action ν GraphChannel Unit).run ⟨s, setup.propagator, #[]⟩ = .ok () u ∧
      test u = true := by
  obtain ⟨setup, hsetup⟩ := Checked.exists_of_isOk hinit
  obtain ⟨_, u, hrun, htest⟩ := exists_of_passes h
  rw [← (initialise_eq_ok hsetup).2] at hrun
  exact ⟨setup, u, hsetup, hrun, htest⟩

/-- In any reached store, let a channel on `g` and `sets` be initialised and propagated. Then each
row is `Shown` to agree whose set is in no other row. If that is so for all rows, a second
propagation leaves the store unchanged. -/
theorem propagate_agrees {s : Store} {g : Var} {sets : List Var} {p : PropagatorId}
    {setup : Setup ν GraphChannel} {notes : Array ν} {u : Workspace ν GraphChannel}
    (hs : s.Reached) (hsetup : initialise (.of g sets) p s = .ok setup)
    (hrun : (propagate : Action ν GraphChannel Unit).run ⟨s, setup.propagator, notes⟩ = .ok () u) :
    (∀ i set, sets[i]? = some set → (∀ i', sets[i']? = some set → i' = i) →
      Shown u.store g i set) ∧
    (sets.Nodup → ∃ u', (propagate : Action ν GraphChannel Unit).run u = .ok () u' ∧
      u'.store = u.store) := by
  obtain ⟨hcount, hp⟩ := initialise_eq_ok hsetup
  rw [hp] at hrun
  have hformed := formed_posted (.of g sets) p
  obtain ⟨hbare, hformed', htracks, hadv, htyped, hagree⟩ := (propagate_ends
    (P := fun G => ((GraphChannel.of g sets).posted p).Stable G)
    hs.valid rfl hformed (tracks_posted _ p s) (fun _ h => h) fun h : False => h.elim).of_ok hrun
  have hget (i : Nat) : ((GraphChannel.of g sets).posted p).sets[i]? = sets[i]? := by
    rw [← Array.getElem?_toList]
    rfl
  refine ⟨fun i set hset hsole => ?_, fun hd => ?_⟩
  · have hset' := (hget i).trans hset
    have hrow := hagree i set hset' fun i' hi' => hsole i' ((hget i').symm.trans hi')
    exact hrow.shown hadv.valid
  · obtain ⟨hgraph, hsets, -⟩ := eq_of_bare hbare
    have hlive : u.own.Live u.store.scene := by
      intro k v hv
      rw [watched, hgraph, hsets, Array.getElem?_push] at hv
      split at hv
      · cases hv
        obtain ⟨n, b, hg⟩ := hs.valid.graph_of_nodeCount hcount
        obtain ⟨D, hD, -⟩ := hadv.within g _ hg
        exact Option.ne_none_iff_exists'.2 ⟨D, hD⟩
      · obtain ⟨⟨n, b, hset⟩, -⟩ := htyped k v hv
        exact Option.ne_none_iff_exists'.2 ⟨_, hset⟩
    refine propagate_idle hadv.valid hformed' htracks hlive ?_ ?_
    · intro i set hset
      rw [hsets] at hset
      rw [hgraph]
      exact htyped i set hset
    · intro i set hset
      rw [hsets] at hset
      rw [hgraph]
      exact hagree i set hset (Distinct.sole (c := (GraphChannel.of g sets).posted p) hd hset)

/-- An arc that has not been carried over to the set of its source. -/
theorem propagate_agrees_apart : ∃ (s : Store) (setup : Setup Unit GraphChannel)
    (u u' : Workspace Unit GraphChannel), s.Reached ∧
      initialise (.of ⟨0⟩ [⟨1⟩, ⟨2⟩]) ⟨0⟩ s = .ok setup ∧
      (propagate : Action Unit GraphChannel Unit).run ⟨s, setup.propagator, #[]⟩ = .ok () u ∧
      Shown u.store ⟨0⟩ 1 ⟨2⟩ ∧
      (propagate : Action Unit GraphChannel Unit).run u = .ok () u' ∧ u'.store = u.store := by
  obtain ⟨s, hs, hinit, htest⟩ : ∃ s : Store, s.Reached ∧
      (initialise (.of ⟨0⟩ [⟨1⟩, ⟨2⟩]) ⟨0⟩ s : Except Fault (Setup Unit GraphChannel)).isOk = true ∧
      passes (propagate : Action Unit GraphChannel Unit).run
        ⟨s, (GraphChannel.of ⟨0⟩ [⟨1⟩, ⟨2⟩]).posted ⟨0⟩, #[]⟩ (fun _ _ => true) = true :=
    ⟨(Session.after (⟨.empty, #[]⟩ : Session Unit NotEqual) [.create (.digraphs 2),
      .create (.subsets 2), .create (.subsets 2),
      .narrow ⟨0⟩ (.enforceArc 1 0) .decision]).model.store,
      .model (.calls #[] _), by decide +kernel, by
        simp only [propagate, sweepRow, kernelValues, envelopeValues, kernelSuccessors,
          envelopeSuccessors, kernelOf, envelopeOf, ascending_eq_insertionSort]
        decide +kernel⟩
  obtain ⟨setup, u, hsetup, hrun, -⟩ := exists_swept hinit htest
  obtain ⟨hagree, hagain⟩ := propagate_agrees hs hsetup hrun
  obtain ⟨u', hrun', hstore⟩ := hagain (by decide)
  refine ⟨s, setup, u, u', hs, hsetup, hrun, hagree 1 ⟨2⟩ rfl fun i hi => ?_, hrun', hstore⟩
  rcases i with _ | _ | i
  · cases hi
  · rfl
  · cases hi

/-- Two nodes with one set: the value that the second row adds to it is not carried over to the
first row. -/
theorem not_agrees_of_shared : ∃ (s : Store) (setup : Setup Unit GraphChannel)
    (u : Workspace Unit GraphChannel), s.Reached ∧
      initialise (.of ⟨0⟩ [⟨1⟩, ⟨1⟩]) ⟨0⟩ s = .ok setup ∧
      (propagate : Action Unit GraphChannel Unit).run ⟨s, setup.propagator, #[]⟩ = .ok () u ∧
      u.store.kernelContains ⟨1⟩ 0 = .ok true ∧ u.store.arcInKernel ⟨0⟩ 0 0 = .ok false := by
  obtain ⟨s, hs, hinit, htest⟩ : ∃ s : Store, s.Reached ∧
      (initialise (.of ⟨0⟩ [⟨1⟩, ⟨1⟩]) ⟨0⟩ s : Except Fault (Setup Unit GraphChannel)).isOk = true ∧
      passes (propagate : Action Unit GraphChannel Unit).run
        ⟨s, (GraphChannel.of ⟨0⟩ [⟨1⟩, ⟨1⟩]).posted ⟨0⟩, #[]⟩
        (fun _ u => decide (u.store.kernelContains ⟨1⟩ 0 = .ok true ∧
          u.store.arcInKernel ⟨0⟩ 0 0 = .ok false)) = true :=
    ⟨(Session.after (⟨.empty, #[]⟩ : Session Unit NotEqual) [.create (.digraphs 2),
      .create (.subsets 2), .narrow ⟨0⟩ (.enforceArc 1 0) .decision]).model.store,
      .model (.calls #[] _), by decide +kernel, by
        simp only [propagate, sweepRow, kernelValues, envelopeValues, kernelSuccessors,
          envelopeSuccessors, kernelOf, envelopeOf, ascending_eq_insertionSort]
        decide +kernel⟩
  obtain ⟨setup, u, hsetup, hrun, hshown⟩ := exists_swept hinit htest
  obtain ⟨hset, harc⟩ := of_decide_eq_true hshown
  exact ⟨s, setup, u, hs, hsetup, hrun, hset, harc⟩

end GraphChannel

end Propagation
