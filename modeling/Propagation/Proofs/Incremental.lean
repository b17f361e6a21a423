import Propagation.Proofs.Answers
import Propagation.Proofs.Filter.Range
import Propagation.Proofs.Model.Faults
import Propagation.Proofs.Model.Retired
import Propagation.Proofs.Recorded

/-!
# Filtering by changes only

A channel whose sides agree need not compare them again after other causes have narrowed domains. It
is enough to carry over the unseen entries of its monitors: in any order of the monitors, this
reaches the greatest stable scene within the new domains, or a contradiction if there is none
(`GraphChannel.hearAll_solves`). So does a complete filtering (`GraphChannel.propagate_solves`), and
therefore both end alike (`GraphChannel.Solves.alike`).
-/

set_option autoImplicit false

namespace Propagation

open Update Store Scene

/-! ## What others narrow -/

namespace Store

variable {s t : Store} {p : PropagatorId} {told : Var → Event → Prop} {v : Var} {f : Event}

/-- `t` comes from `s` by narrowings of causes other than the propagator `p`, which have pushed the
events `told`. -/
inductive Steered (p : PropagatorId) (s : Store) : (Var → Event → Prop) → Store → Prop
  | start : Steered p s (fun _ _ => False) s
  | narrow {told : Var → Event → Prop} {t u : Store} {v : Var} {n : Narrowing} {d : Cause}
      {b : Bool} (h : Steered p s told t) (hd : d ≠ .propagator p)
      (hrun : Store.narrow v n d t = .ok b u) :
      Steered p s (fun x f => told x f ∨ t.Tells x f u) u

theorem Steered.valid (h : s.Steered p told t) (hs : s.Valid) : t.Valid := by
  induction h with
  | start => exact hs
  | narrow _ _ hrun ih => exact ((ih.narrow_evolves _ _ _).of_ok hrun).valid

/-- The events `told` are those that causes other than `p` have pushed into the sink. -/
theorem Steered.sink (h : s.Steered p told t) (hs : s.Valid) :
    (∃ d ≠ .propagator p, t.sink.Has v f d) ↔
      (∃ d ≠ .propagator p, s.sink.Has v f d) ∨ told v f := by
  induction h with
  | start => simp
  | @narrow told t u x n d b h hd hrun ih =>
    have hsuc := ((h.valid hs).narrow_ends x n d).of_ok hrun
    rw [← or_assoc, ← ih]
    simp only [hsuc.sink]
    constructor
    · rintro ⟨d', hd', hhas | ⟨rfl, rfl, htells⟩⟩
      · exact .inl ⟨d', hd', hhas⟩
      · exact .inr htells
    · rintro (⟨d', hd', hhas⟩ | htells)
      · exact ⟨d', hd', .inl hhas⟩
      · exact ⟨d, hd, .inr ⟨hsuc.eq_of_tells htells, rfl, htells⟩⟩

end Store

namespace GraphChannel

variable {ν : Type} {c : GraphChannel} {p : PropagatorId} {s t : Store}
  {told : Var → Event → Prop} {w : Workspace ν GraphChannel}

/-- A stable channel is still covered by the indices of the watches that match an event of `told`.
-/
theorem covered_of_steered (h : s.Steered p told t) (hs : s.Valid) (hc : c.Formed p)
    (ht : c.Tracks s) (hstable : c.Stable s.scene) :
    Scene.Within t.scene s.scene ∧ c.Tracks t ∧
      c.Covered t fun k => ∃ v mask f, c.watches[k]? = some (v, mask) ∧ f ∈ mask ∧ told v f := by
  induction h with
  | start => exact ⟨.refl hs.scene_wf, ht, hstable.covered _⟩
  | @narrow told t u v n d b h hd hrun ih =>
    obtain ⟨hle, ht, hcov⟩ := ih
    have ht' := h.valid hs
    obtain ⟨D, D', -, -, -, hn, -⟩ := (ht'.narrow_ends v n d).of_ok hrun
    have hr := hn.ran ht'
    refine ⟨hr.within.trans hle, ht.ran hr, (hcov.stirred hc ht hr hd).mono ?_⟩
    rintro k (⟨x, mask, f, hwatch, hmask, hf⟩ | ⟨x, mask, f, hwatch, hmask, E, E', hE, hE', hf⟩)
    · exact ⟨x, mask, f, hwatch, hmask, .inl hf⟩
    · exact ⟨x, mask, f, hwatch, hmask, .inr ⟨E, E', hE, hE', hf.1⟩⟩

/-! ## Where runs end -/

/-- From `w`, the action `x` reaches the greatest scene that is stable for `c`, or ends in a
contradiction because there is none. -/
def Solves (c : GraphChannel) (p : PropagatorId) (w : Workspace ν GraphChannel)
    (x : Action ν GraphChannel PUnit) : Prop :=
  Ends x.run w
    (fun _ u => Advance c.Stable w.store (.propagator p) u.store ∧ c.Stable u.store.scene)
    fun e _ => (∃ y, e = .contradiction y) ∧ ∀ G, c.Stable G → ¬Scene.Within G w.store.scene

/-- Two actions that `Solves` holds of end alike: with a contradiction both, or with the same
snapshots. -/
theorem Solves.alike {x y : Action ν GraphChannel PUnit} (hx : c.Solves p w x)
    (hy : c.Solves p w y) :
    (∃ a b u v, x.run w = .error (.contradiction a) u ∧ y.run w = .error (.contradiction b) v) ∨
      ∃ u v, x.run w = .ok ⟨⟩ u ∧ y.run w = .ok ⟨⟩ v ∧
        ∀ z, u.store.snapshot z = v.store.snapshot z := by
  cases hxw : x.run w with
  | error e u =>
    obtain ⟨⟨a, rfl⟩, hno⟩ := Ends.of_error hx hxw
    cases hyw : y.run w with
    | error e v =>
      obtain ⟨⟨b, rfl⟩, -⟩ := Ends.of_error hy hyw
      exact .inl ⟨a, b, u, v, rfl, rfl⟩
    | ok r v =>
      obtain ⟨hv, hstable⟩ := Ends.of_ok hy hyw
      exact absurd hv.within (hno _ hstable)
  | ok r u =>
    obtain ⟨hu, hstable⟩ := Ends.of_ok hx hxw
    cases hyw : y.run w with
    | error e v =>
      obtain ⟨-, hno⟩ := Ends.of_error hy hyw
      exact absurd hu.within (hno _ hstable)
    | ok r v =>
      obtain ⟨hv, hstable'⟩ := Ends.of_ok hy hyw
      have hscene : u.store.scene = v.store.scene :=
        (hv.sound _ hstable hu.within).antisymm_of_within (hu.sound _ hstable' hv.within)
          hu.within hu.dead hv.within hv.dead
      exact .inr ⟨u, v, rfl, rfl, fun z => snapshot_congr hv.valid hu.valid (congrFun hscene z)⟩

theorem propagate_solves (hs : w.store.Valid) (hown : w.own = c) (hc : c.Formed p)
    (ht : c.Tracks w.store) (hfit : c.Fits w.store.scene) (hd : c.Distinct) :
    c.Solves p w propagate := by
  have hends := propagate_ends (ν := ν) hs hown hc ht (fun _ h => h) fun _ : True => hfit
  refine (inRange_propagate.halts hs (hends.mono (fun _ _ h => h) fun _ _ h => h.1)).mono ?_ ?_
  · rintro - u ⟨-, -, -, hadv, -, hagree⟩
    exact ⟨hadv, fun i set hset => hagree i set hset (hd.sole hset)⟩
  · exact fun _ _ h => h trivial

/-- `propagateOn` for a list of indices that covers the channel, in any order and with repetitions,
solves it. -/
theorem hearAll_solves {xs : List Nat} (hs : w.store.Valid) (hown : w.own = c) (hc : c.Formed p)
    (ht : c.Tracks w.store) (hfit : c.Fits w.store.scene) (hd : c.Distinct)
    (hcov : c.Covered w.store (· ∈ xs)) (hlt : ∀ k ∈ xs, k ≤ c.sets.size) :
    c.Solves p w (xs.forM fun k => propagateOn k) := by
  have hends := hearAll_ends (ν := ν) hs hown hc ht (fun _ h => h) hd fun _ : True => ⟨hfit, hlt⟩
  refine ((Action.inRange_forM inRange_propagateOn xs).halts hs hends).mono ?_
    fun _ _ h => h trivial
  rintro - u ⟨⟨hkept, hadv⟩, hcov'⟩
  have hstable : u.own.Stable u.store.scene :=
    ((hcov' _ (hown.symm ▸ hcov)).mono fun k ⟨hk, hno⟩ => hno k hk rfl).stable
  exact ⟨hadv, stable_of_bare hkept.bare ▸ hstable⟩

/-! ## Agreement -/

/-- A row whose lists of values and of successors are equal agrees. -/
theorem Agrees.of_lists {n i : Nat} {g set : Var} (hs : s.Valid)
    (hrow : FitsRow n s.scene g i set) (hk : s.kernelValues set = s.kernelSuccessors g i)
    (he : s.envelopeValues set = s.envelopeSuccessors g i) : Agrees s.scene g i set := by
  obtain ⟨⟨b, hg⟩, ⟨b', hset⟩, hi⟩ := hrow
  rw [hs.kernelValues_eq hset, hs.kernelSuccessors_eq hg hi, Except.ok.injEq] at hk
  rw [hs.envelopeValues_eq hset, hs.envelopeSuccessors_eq hg hi, Except.ok.injEq] at he
  have hmem : ∀ {A B : Finset Nat}, A.sort = B.sort → ∀ j, j ∈ A ↔ j ∈ B := fun h j => by
    rw [← Finset.mem_sort (· ≤ ·), h, Finset.mem_sort]
  intro j
  rw [inKernel_iff hset, inKernel_iff hg, inEnvelope_iff hset, inEnvelope_iff hg]
  exact ⟨mem_valuesOf.symm.trans ((hmem hk j).trans mem_targetsOf),
    mem_valuesOf.symm.trans ((hmem he j).trans mem_targetsOf)⟩

/-- In every session that is reached without a fault, after any number of rounds of a propagation,
let `c` be a channel without the same set twice, whose sets range over the nodes of its graph and
agree with the successors. Let causes other than `p` then narrow domains, from `m.store` to `t`.
Reading the monitors of a list `xs` of indices that includes every watch matched by an event of
`told`, in any order, ends in a contradiction iff a complete filtering does, and otherwise leaves
the same snapshots; neither of them faults. Nothing is required of the positions of the monitors in
`m`, since the sides agree there. -/
theorem propagateOn_as_propagate {π : Type} [Propagator ν π] {cs : List (Call (Constraint ⊕ π))}
    {marks : Array Mark} {s : Session ν (Constraint ⊕ π)} {ys : List (Step ν (Constraint ⊕ π))}
    (hrun : Session.run cs ⟨.empty, marks⟩ = .ok ys s) {rounds : Nat}
    {m : Model ν (Constraint ⊕ π)} (hwent : s.model.Went rounds m) {p : PropagatorId}
    {e : Entry (Constraint ⊕ π)} (he : m.entry p = .ok e)
    (hown : e.propagator = .inl (.graphChannel c)) (hd : c.sets.toList.Nodup) {n : Nat}
    (hcount : m.store.nodeCount c.graph = .ok n)
    (hsets : ∀ set ∈ c.sets, m.store.groundSize set = .ok n)
    (hagree : ∀ i set, c.sets[i]? = some set →
      m.store.kernelValues set = m.store.kernelSuccessors c.graph i ∧
      m.store.envelopeValues set = m.store.envelopeSuccessors c.graph i)
    (ht : m.store.Steered p told t) {xs : List Nat}
    (hxs : ∀ k v mask f, c.watches[k]? = some (v, mask) → f ∈ mask → told v f → k ∈ xs)
    (hlt : ∀ k ∈ xs, k ≤ c.sets.size) (notes : Array ν) :
    (∃ a b u v,
      (xs.forM fun k => propagateOn k : Action ν GraphChannel PUnit).run ⟨t, c, notes⟩ =
        .error (.contradiction a) u ∧
      (propagate : Action ν GraphChannel Unit).run ⟨t, c, notes⟩ = .error (.contradiction b) v) ∨
    ∃ u v, (xs.forM fun k => propagateOn k : Action ν GraphChannel PUnit).run ⟨t, c, notes⟩ =
        .ok ⟨⟩ u ∧
      (propagate : Action ν GraphChannel Unit).run ⟨t, c, notes⟩ = .ok () v ∧
      ∀ z, u.store.snapshot z = v.store.snapshot z := by
  have hready := Session.ready hrun Model.ready_empty
  obtain ⟨hu, -⟩ := hwent.underway (Session.wired hrun Model.ready_empty Model.wired_empty)
    hready.valid hready.tidy
  have hs := hu.evolves.valid.store
  have hposes := (Model.poses_of_entry (Model.entry_eq_ok he).2).2 hown
  have hwiring := hu.wired p.id _ hposes
  -- it is the channel that has been posted, and so has as many sets as there are nodes
  obtain ⟨c₀, hposes₀, hbare⟩ := Model.exists_of_bareAt ((hu.bare p.id).symm.trans hposes.bareAt)
  have hp : p.id < s.model.count := hready.tidy.size ▸ hposes₀.lt
  have hsized := (Session.vouched hrun Model.ready_empty Model.wired_empty Model.vouched_empty _
    List.mem_cons_self).sized p.id c₀ hp hposes₀
  obtain ⟨b, hgraph⟩ := hu.evolves.sized hbare.symm hsized
  obtain rfl : c.sets.size = n := Except.ok.inj ((hs.nodeCount_eq hgraph).symm.trans hcount)
  have hfit := fits_of_groundSize hs hcount hsets
  have hstable : c.Stable m.store.scene := fun i set hset =>
    .of_lists hs (hfit.2 i set hset) (hagree i set hset).1 (hagree i set hset).2
  obtain ⟨hle, htracks, hcov⟩ :=
    covered_of_steered ht hs hwiring.formed hwiring.tracks hstable
  refine Solves.alike (c := c) (p := p) (w := ⟨t, c, notes⟩) ?_ ?_
  · refine hearAll_solves (ht.valid hs) rfl hwiring.formed htracks (hfit.within hle) hd
      (hcov.mono ?_) hlt
    rintro k ⟨v, mask, f, hwatch, hmask, hf⟩
    exact hxs k v mask f hwatch hmask hf
  · exact propagate_solves (ht.valid hs) rfl hwiring.formed htracks (hfit.within hle) hd

/-- The channel in a propagator of a mixed model, if it is one. -/
def channelOf {π : Type} : Constraint ⊕ π → Option GraphChannel
  | .inl (.graphChannel c) => some c
  | _ => none

theorem channelOf_eq_some {π : Type} {x : Constraint ⊕ π} :
    channelOf x = some c ↔ x = .inl (.graphChannel c) := by
  rcases x with (_ | _) | _ <;> simp [channelOf]

/-- A value of one set and an arc from another node are enforced. The graph is read before the set.
-/
theorem propagateOn_as_propagate_narrowed :
    ∃ (ys : List (Step Unit (Constraint ⊕ NotEqual))) (s : Session Unit (Constraint ⊕ NotEqual))
      (e : Entry (Constraint ⊕ NotEqual)) (c : GraphChannel) (t t' : Store)
      (u v : Workspace Unit GraphChannel),
      Session.run [.create (.digraphs 2), .create (.subsets 2), .create (.subsets 2),
        .post (.inl (.graphChannel (.of ⟨0⟩ [⟨1⟩, ⟨2⟩]))), .fixpoint] ⟨.empty, #[]⟩ = .ok ys s ∧
      s.model.entry ⟨0⟩ = .ok e ∧ e.propagator = .inl (.graphChannel c) ∧
      Store.narrow ⟨1⟩ (.addToKernel 1) .decision s.model.store = .ok true t ∧
      Store.narrow ⟨0⟩ (.removeArc 1 0) .decision t = .ok true t' ∧
      ([2, 0].forM fun k => propagateOn k : Action Unit GraphChannel PUnit).run ⟨t', c, #[]⟩ =
        .ok ⟨⟩ u ∧
      (propagate : Action Unit GraphChannel Unit).run ⟨t', c, #[]⟩ = .ok () v ∧
      ∀ z, u.store.snapshot z = v.store.snapshot z := by
  obtain ⟨ys, s, hrun, htest⟩ := Session.exists_run
    [.create (.digraphs 2), .create (.subsets 2), .create (.subsets 2),
      .post (.inl (.graphChannel (.of ⟨0⟩ [⟨1⟩, ⟨2⟩]))), .fixpoint]
    (⟨.empty, #[]⟩ : Session Unit (Constraint ⊕ NotEqual))
    (fun s => (s.model.entry ⟨0⟩).toOption.any fun e : Entry (Constraint ⊕ NotEqual) =>
      (channelOf e.propagator).any fun c : GraphChannel =>
        decide (c.graph = ⟨0⟩ ∧ c.sets = #[⟨1⟩, ⟨2⟩] ∧ s.model.store.nodeCount c.graph = .ok 2) &&
        c.rows.all (fun x => decide (s.model.store.groundSize x.2 = .ok 2 ∧
          s.model.store.kernelValues x.2 = s.model.store.kernelSuccessors c.graph x.1 ∧
          s.model.store.envelopeValues x.2 = s.model.store.envelopeSuccessors c.graph x.1)) &&
        passes (Store.narrow ⟨1⟩ (.addToKernel 1) .decision) s.model.store fun b t =>
          b && passes (Store.narrow ⟨0⟩ (.removeArc 1 0) .decision) t fun b' t' =>
            b' && passes ([2, 0].forM fun k => propagateOn k : Action Unit GraphChannel PUnit).run
              ⟨t', c, #[]⟩ fun _ _ => true)
    (by
      simp +instances only [Propagator.instSum, Constraint.instPropagator, instPropagator,
        propagate, sweepRow, kernelValues, envelopeValues, kernelSuccessors, envelopeSuccessors,
        kernelOf, envelopeOf, ascending_eq_insertionSort]
      decide +kernel)
  obtain ⟨e, he, htest⟩ := Checked.exists_of_any htest
  obtain ⟨c, hown, htest⟩ := (Option.any_eq_true _ _).1 htest
  have hown := channelOf_eq_some.1 hown
  simp only [Bool.and_eq_true, decide_eq_true_eq, List.all_eq_true] at htest
  obtain ⟨⟨⟨hgraph, hsets, hcount⟩, hrows⟩, htest⟩ := htest
  obtain ⟨b, t, hnarrow, htest⟩ := exists_of_passes htest
  obtain ⟨rfl, htest⟩ := (Bool.and_eq_true _ _).mp htest
  obtain ⟨b', t', hnarrow', htest⟩ := exists_of_passes htest
  obtain ⟨rfl, htest⟩ := (Bool.and_eq_true _ _).mp htest
  have hrow := fun i set (h : c.sets[i]? = some set) => hrows (i, set) (mem_rows.2 h)
  have hs := (Session.ready hrun Model.ready_empty).valid.store
  have hsteered := (Steered.start (p := ⟨0⟩)).narrow (by rintro ⟨⟩) hnarrow
  have hsteered' := hsteered.narrow (by rintro ⟨⟩) hnarrow'
  have hsuc := (hs.narrow_ends _ _ _).of_ok hnarrow
  have hsuc' := ((hsteered.valid hs).narrow_ends _ _ _).of_ok hnarrow'
  obtain ⟨_, u, hu, -⟩ := exists_of_passes htest
  -- no event of the second set has been pushed
  have hxs : ∀ k v mask f, c.watches[k]? = some (v, mask) → f ∈ mask →
      (False ∨ s.model.store.Tells v f t) ∨ t.Tells v f t' → k ∈ [2, 0] := by
    intro k v mask f hwatch _ htold
    have hv : v ≠ ⟨2⟩ := by
      rintro rfl
      rcases htold with (hno | htells) | htells
      · exact hno
      · cases hsuc.eq_of_tells htells
      · cases hsuc'.eq_of_tells htells
    have hwatched := getElem?_watches c k
    rw [hwatch, watched, hsets, hgraph] at hwatched
    rcases k with _ | _ | _ | k
    · decide
    · exact absurd (Option.some.inj hwatched) hv
    · decide
    · cases hwatched
  rcases propagateOn_as_propagate hrun .start he hown (by rw [hsets]; decide) hcount
    (fun set hset => ((Array.mem_iff_getElem?.1 hset).elim fun i hi => (hrow i set hi).1))
    (fun i set h => (hrow i set h).2) hsteered' hxs (by rw [hsets]; decide) #[]
    with ⟨a, b, u', v, hu', -⟩ | ⟨u', v, hu', hv, hsame⟩
  · cases hu.symm.trans hu'
  · exact ⟨ys, s, e, c, t, t', u', v, hrun, he, hown, hnarrow, hnarrow', hu', hv, hsame⟩

end GraphChannel

end Propagation
