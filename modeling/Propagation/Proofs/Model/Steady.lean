import Propagation.Proofs.Model.Faults
import Propagation.Proofs.Model.Outline

/-!
# Posing a problem

Creating variables, posting constraints that fit their domains, narrowing and propagating does not
fault unless integers overflow (`Call.Builds.fault_ends`), and as long as no call is contradicted
the model is `Model.Steady` (`Call.Does.steady`).
-/

set_option autoImplicit false

namespace Propagation

open Update

variable {ν π : Type}

/-! ## The calls -/

/-- Posts, narrowings and propagations that are admissible on variables with the domains `S`. -/
inductive Call.Builds (S : Scene) : Call (Constraint ⊕ π) → Prop
  | post {c : Constraint} (hd : c.Distinct) (hfit : c.Fits S) : Builds S (.post (.inl c))
  | narrow {v : Var} {n : Narrowing} {D : Dom} (hv : S v = some D) (ha : D.Accepts n) :
    Builds S (.narrow v n .decision)
  | fixpoint : Builds S .fixpoint

section
variable {k : Call (Constraint ⊕ π)} {S S' : Scene}

theorem Call.Builds.ordinary (h : k.Builds S) : k.Ordinary := by
  cases h with
  | post hd hfit => exact ⟨_, rfl, hd⟩
  | narrow hv ha => rfl
  | fixpoint => trivial

theorem Call.Builds.within (h : k.Builds S) (hle : Scene.Within S' S) : k.Builds S' := by
  cases h with
  | post hd hfit => exact .post hd (hfit.within hle)
  | narrow hv ha =>
    obtain ⟨C, hC, -, hle⟩ := hle _ _ hv
    exact .narrow hC ((hle.accepts _).2 ha)
  | fixpoint => exact .fixpoint

end

theorem Step.not_failed {x : Step ν π} (h : ∀ c, x.answer ≠ .contradiction c) : ¬x.Failed := by
  intro hf
  unfold Step.Failed at hf
  split at hf
  · next c _ hc => exact h c hc
  · exact hf

theorem Model.answering_ends {α : Type} {f : α → Answer} {x : Model.Attempt ν π α} {m : Model ν π}
    {bad : Fault → Prop}
    (h : Ends x m (fun _ _ => True) fun e _ => ∀ fault, e = .fault fault → bad fault) :
    Ends (Model.answering f x) m (fun _ _ => True) fun e _ => bad e := by
  unfold Ends Model.answering
  cases hx : x m with
  | ok a u => trivial
  | error e u =>
    cases e with
    | contradiction c => trivial
    | fault e => exact h.of_error hx e rfl

/-! ## Models -/

/-- The invariant under which the calls of `Call.Builds` fault by overflow only. -/
structure Model.Steady (m : Model ν (Constraint ⊕ π)) : Prop where
  minded : Model.Minded False m
  primed : m.Primed
  suited : m.Suited

variable [Propagator ν π]

section
variable {s s' : Session ν (Constraint ⊕ π)} {k : Call (Constraint ⊕ π)} {a : Answer}

open Model

/-- The only fault of an admissible call is an overflow. -/
theorem Call.Builds.fault_ends (hk : k.Builds s.model.store.scene) (h : s.model.Steady) :
    Ends k.perform s (fun _ _ => True) fun f _ => f = .overflow := by
  have hm := h.minded.ready.valid
  cases hk with
  | post hd hfit =>
    refine Ends.within (Ends.bind ((hm.post_ends _).mono (fun _ _ _ => trivial)
      fun f _ hf => hm.unposted_overflow hfit hf.1) fun _ _ _ => ?_)
    exact ends_of_ok (pure_apply _ _) trivial
  | @narrow v n D hv ha =>
    refine Ends.within (answering_ends (Ends.within ?_))
    refine (hm.store.narrow_ends v n .decision).mono (fun _ _ _ => trivial) fun e _ he f hf => ?_
    subst hf
    rcases he with ⟨hf, -⟩ | ⟨_, -, -, hno⟩
    · exact hf
    · exact absurd ha (hno D hv)
  | fixpoint =>
    exact Ends.within (answering_ends (h.suited.fixpoint_ends hm h.minded.ready.tidy h.minded.wired
      (h.primed.booked h.minded.ready)))

/-- `Steady` is kept by an admissible call that is not contradicted. -/
theorem Call.Does.steady (hd : Call.Does s k a s') (hk : k.Builds s.model.store.scene)
    (h : s.model.Steady) (hready : s'.model.Ready) (hopen : ∀ c, a ≠ .contradiction c) :
    s'.model.Steady := by
  have hm := h.minded.ready.valid
  have ht := h.minded.ready.tidy
  have hminded := h.minded.does hd hk.ordinary False.elim hready
  have hnot := Step.not_failed (x := ⟨k, a, s'.model⟩) hopen
  refine ⟨hminded.opened hnot, hd.primed h.minded.ready h.primed, ?_⟩
  cases hk with
  | post _ hfit =>
    cases hd with
    | post hinit hpost => exact h.suited.posted hm ht hfit hinit hpost
  | narrow =>
    cases hd with
    | narrow hn =>
      obtain ⟨D, D', -, -, -, hn, -⟩ := hn
      have hev := Evolves.withStore hm hn.evolves
      refine h.suited.evolves ht hready.tidy hev (ht.count_eq hev rfl) (fun _ => rfl) fun v hv => ?_
      refine (congrFun hn.scene v).trans ?_
      rw [Function.update_of_ne, hv]
      rintro rfl
      cases hn.before.symm.trans hv
    | refused => exact h.suited
  | fixpoint =>
    cases hd with
    | @settled m hx =>
      have hu := (h.minded.wired.settle_ends hm ht _).of_ok hx
      have hclosure := (closure_of_settle h.minded id hx).1
      exact h.suited.evolves ht hready.tidy (hu.evolves.trans (.finish hu.evolves.valid _)) hu.count
        hu.bare hclosure.dead
    | failed => exact absurd rfl (hopen _)

end

/-! ## The beginning -/

/-- The domains of variables created with these shapes, one after the other. -/
def Shape.scene (shapes : List Shape) : Scene := fun v => (shapes[v.id]?).map Shape.dom

omit [Propagator ν π] in
theorem Shape.scene_append (shapes : List Shape) (d : Shape) :
    Shape.scene (shapes ++ [d]) =
      Function.update (Shape.scene shapes) ⟨shapes.length⟩ (some d.dom) := by
  funext v
  unfold Shape.scene
  by_cases hv : v = ⟨shapes.length⟩
  · subst hv
    simp
  · have hne : v.id ≠ shapes.length := fun h => hv (congrArg Var.mk h)
    rw [Function.update_of_ne hv]
    rcases Nat.lt_or_gt_of_ne hne with hlt | hlt
    · rw [List.getElem?_append_left hlt]
    · have hlen : (shapes ++ [d]).length ≤ v.id := by
        rw [List.length_append]
        exact hlt
      rw [List.getElem?_eq_none hlen, List.getElem?_eq_none (Nat.le_of_lt hlt)]

/-- A session that has only created variables is `Steady`, has the domains of `Shape.scene` and no
propagators. -/
theorem Session.created {shapes : List Shape} {marks : Array Mark}
    {s : Session ν (Constraint ⊕ π)} {xs : List (Step ν (Constraint ⊕ π))}
    (hrun : Session.run (shapes.map .create) ⟨.empty, marks⟩ = .ok xs s) :
    s.model.Steady ∧ s.model.count = 0 ∧ s.model.profile.vars = shapes.length ∧
      s.model.store.scene = Shape.scene shapes := by
  induction shapes using List.reverseRecOn generalizing xs s with
  | nil =>
    cases hrun
    have hready : (Model.empty : Model ν (Constraint ⊕ π)).Ready := Model.ready_empty
    have hnone : (Model.empty : Model ν (Constraint ⊕ π)).count = 0 := hready.tidy.size.symm
    have htrail := Trail.valid_empty.addInt 0
    have hscene : (Model.empty : Model ν (Constraint ⊕ π)).store.scene = fun _ => none :=
      (Store.valid_ofTrail htrail.valid htrail.past).2
    refine ⟨⟨Model.minded_empty, Model.primed_empty, Model.suited_of_count hready.tidy hnone⟩,
      hnone, Nat.eq_zero_of_not_pos fun hpos => ?_, hscene⟩
    exact (hready.valid.store.ne_none_iff ⟨0⟩).2 hpos (congrFun hscene ⟨0⟩)
  | append_singleton shapes d ih =>
    rw [List.map_append] at hrun
    obtain ⟨ys, zs, s₁, -, hrun₁, hlast⟩ := Session.run_append hrun
    obtain ⟨h, hnone, hvars, hscene⟩ := ih hrun₁
    obtain ⟨a, s₂, ws, hk, hnil, -⟩ := Session.run_cons hlast
    cases hnil
    have hready := h.minded.ready
    have hready' := (Call.ready_ends _ hready).of_ok hk
    have hd := Call.does_of_ok hk hready
    have hminded := h.minded.does hd trivial False.elim hready'
    have hprimed := hd.primed hready h.primed
    cases hd with
    | @create _ v t hc =>
      have hev := Model.Evolves.withStore hready.valid hc.evolves
      have hnone' := (hready.tidy.count_eq hev rfl).trans hnone
      obtain ⟨rfl, hP⟩ := Model.profile_created hready.valid hready.tidy hc
      refine ⟨⟨hminded.opened id, hprimed, Model.suited_of_count hready'.tidy hnone'⟩, hnone',
        ?_, ?_⟩
      · rw [List.length_append]
        exact (congrArg Profile.vars hP).trans (congrArg (· + 1) hvars)
      · refine (congrArg Profile.scene hP).trans ?_
        show Function.update s₁.model.store.scene ⟨s₁.model.profile.vars⟩ (some d.dom) = _
        rw [hscene, hvars, Shape.scene_append]

end Propagation
