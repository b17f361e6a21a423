import Propagation.Proofs.Model.Sound
import Propagation.Solution

/-!
# Solutions and propagation

An assignment that the domains admit is a scene in which everything is decided
(`Store.Valid.assigned_within`), and a constraint that holds of the assignment is stable there
(`Constraint.Holds.stable`). So a propagation loses no solution, and comes to a contradiction only if
there is none (`Model.fixpoint_solves`).
-/

set_option autoImplicit false

namespace Propagation

open Scene Update

/-! ## Values within domains -/

/-- The element belongs to the value. -/
def Value.Has : Value → Element → Prop
  | .set members, .value a => members a
  | .graph nodes _, .node i => nodes i
  | .graph _ arcs, .arc i j => arcs i j
  | _, _ => False

def Value.kind : Value → Kind
  | .int _ => .int
  | .set _ => .set
  | .graph _ _ => .graph

/-- A proper value has the closure of each element that it has. -/
theorem Value.IsProper.has_of_closure {x : Value} (hx : x.IsProper) {e f : Element} (he : x.Has e)
    (hf : f ∈ e.closure) : x.Has f := by
  cases x with
  | int a => exact he.elim
  | set members =>
    cases e with
    | value a => rwa [Finset.mem_singleton.1 hf]
    | node i => exact he.elim
    | arc i j => exact he.elim
  | graph nodes arcs =>
    cases e with
    | value a => exact he.elim
    | node i => rwa [Finset.mem_singleton.1 hf]
    | arc i j =>
      obtain ⟨hi, hj⟩ := hx i j he
      simp only [Element.closure, Finset.mem_insert, Finset.mem_singleton] at hf
      rcases hf with rfl | rfl | rfl
      · exact he
      · exact hi
      · exact hj

namespace Bounds

variable {b b' : Bounds} {x : Value} {ground : Element → Prop}

/-- `x` has the elements of the kernel, and none outside of the envelope. -/
def Admits (b : Bounds) (x : Value) : Prop :=
  (∀ e ∈ b.kernel, x.Has e) ∧ ∀ e, x.Has e → e ∈ b.envelope

open Classical in
/-- The bounds with the elements of `x` as kernel and envelope. -/
noncomputable def assign (b : Bounds) (x : Value) : Bounds :=
  ⟨b.envelope.filter fun e => x.Has e, b.envelope.filter fun e => x.Has e⟩

theorem mem_assign {e : Element} : e ∈ (b.assign x).kernel ↔ e ∈ b.envelope ∧ x.Has e := by
  classical exact Finset.mem_filter

theorem Admits.mono (h : b'.Admits x) (hle : b'.Within b) : b.Admits x :=
  ⟨fun e he => h.1 e (hle.kernel_subset he), fun e he => hle.envelope_subset (h.2 e he)⟩

theorem wf_assign (hx : x.IsProper) (hb : b.Wf ground) : (b.assign x).Wf ground := by
  have hclosed : ∀ e ∈ (b.assign x).kernel, e.closure ⊆ (b.assign x).kernel := by
    intro e he _ hf
    obtain ⟨hmem, hhas⟩ := mem_assign.1 he
    exact mem_assign.2 ⟨hb.envelope_closed e hmem hf, hx.has_of_closure hhas hf⟩
  exact ⟨Finset.Subset.refl _, fun e he => hb.ground e (mem_assign.1 he).1, hclosed, hclosed⟩

theorem Admits.assign_within (h : b.Admits x) (hb : b.Wf ground) : (b.assign x).Within b where
  kernel_subset _ he := mem_assign.2 ⟨hb.kernel_subset he, h.1 _ he⟩
  envelope_subset _ he := (mem_assign.1 he).1

/-- Bounds that have the assigned ones within them admit the value. -/
theorem Admits.of_assign (h : b.Admits x) (hle : (b.assign x).Within b') : b'.Admits x :=
  ⟨fun _ he => (mem_assign.1 (hle.kernel_subset he)).2,
    fun _ he => hle.envelope_subset (mem_assign.2 ⟨h.2 _ he, he⟩)⟩

end Bounds

namespace Dom

variable {C D D' : Dom} {x : Value}

/-- The value is in the domain. -/
def Admits : Dom → Value → Prop
  | .int vs, .int a => a ∈ vs
  | .set _ b, .set members => b.Admits (.set members)
  | .graph _ b, .graph nodes arcs => b.Admits (.graph nodes arcs)
  | _, _ => False

/-- The domain with `x` as its only value. -/
noncomputable def assign (D : Dom) (x : Value) : Dom :=
  match D, x with
  | .int _, .int a => .int {a}
  | .int vs, _ => .int vs
  | .set n b, x => .set n (b.assign x)
  | .graph n b, x => .graph n (b.assign x)

theorem Admits.mono (h : D'.Admits x) (hle : D'.Within D) : D.Admits x := by
  cases D' <;> cases x <;> cases D <;>
    first
      | exact h.elim
      | exact hle.elim
      | exact hle h
      | exact Bounds.Admits.mono h hle.2

theorem Admits.wf_assign (h : D.Admits x) (hx : x.IsProper) (hD : D.Wf) : (D.assign x).Wf := by
  cases D <;> cases x <;>
    first
      | exact h.elim
      | exact Finset.singleton_nonempty _
      | exact Bounds.wf_assign hx hD

theorem Admits.assign_within (h : D.Admits x) (hD : D.Wf) : (D.assign x).Within D := by
  cases D <;> cases x <;>
    first
      | exact h.elim
      | exact Finset.singleton_subset_iff.2 h
      | exact ⟨rfl, Bounds.Admits.assign_within h hD⟩

theorem Admits.of_assign (h : D.Admits x) (hle : (D.assign x).Within D') : D'.Admits x := by
  cases D <;> cases x <;> cases D' <;>
    first
      | exact h.elim
      | exact hle.elim
      | exact Finset.singleton_subset_iff.1 hle
      | exact Bounds.Admits.of_assign h hle.2

/-- The kernel and the envelope of `D.assign x` are the elements of `x`. -/
theorem Admits.mem_assign (h : D.Admits x) (e : Element) :
    (e ∈ (D.assign x).kernel ↔ x.Has e) ∧ (e ∈ (D.assign x).envelope ↔ x.Has e) := by
  have hbounds : ∀ {b : Bounds}, b.Admits x → (e ∈ (b.assign x).kernel ↔ x.Has e) := fun hb =>
    Bounds.mem_assign.trans (and_iff_right_of_imp (hb.2 e))
  cases D <;> cases x <;>
    first
      | exact h.elim
      | exact ⟨hbounds h, hbounds h⟩
      | exact ⟨iff_of_false (Finset.notMem_empty e) not_false,
          iff_of_false (Finset.notMem_empty e) not_false⟩

end Dom

/-! ## Assignments as scenes -/

namespace Store

/-- The scene of the domains assigned by `f`. -/
noncomputable def assigned (s : Store) (f : Assignment) : Scene :=
  fun v => (s.scene v).map (·.assign (f v))

variable {s s' : Store} {v : Var} {D : Dom} {f : Assignment}

/-- `Store.Fits` is that the value is of the kind of the domain. -/
theorem Valid.fits_iff (hs : s.Valid) (hv : s.scene v = some D) (x : Value) :
    s.Fits v x ↔ D.kindOf = x.kind := by
  have hall : ∀ {k : Kind}, D.kindOf ≠ k → ∀ D', s.scene v = some D' → D'.kindOf ≠ k := by
    intro k hk D' hD'
    cases hv.symm.trans hD'
    exact hk
  cases x with
  | int a =>
    refine ⟨fun ⟨r, hr⟩ => by_contra fun hne => ?_, fun h => ?_⟩
    · obtain ⟨k, hk⟩ := hs.ints_error (hall hne)
      cases hr.symm.trans hk
    · obtain ⟨vs, rfl⟩ := Dom.kindOf_eq_int h
      obtain ⟨r, -, hr, -⟩ := hs.ints_eq hv
      exact ⟨r, hr⟩
  | set members =>
    refine ⟨fun ⟨r, hr⟩ => by_contra fun hne => ?_, fun h => ?_⟩
    · obtain ⟨k, hk⟩ := hs.elements_error (hall hne)
      cases hr.symm.trans hk
    · obtain ⟨n, b, rfl⟩ := Dom.kindOf_eq_set h
      obtain ⟨r, -, hr, -⟩ := hs.elements_eq hv
      exact ⟨r, hr⟩
  | graph nodes arcs =>
    refine ⟨fun ⟨r, hr⟩ => by_contra fun hne => ?_, fun h => ?_⟩
    · obtain ⟨k, hk⟩ := hs.graph_error (hall hne)
      cases hr.symm.trans hk
    · obtain ⟨n, b, rfl⟩ := Dom.kindOf_eq_graph h
      obtain ⟨ns, rows, -, hr, -⟩ := hs.graph_eq hv
      exact ⟨(ns, rows), hr⟩

theorem Valid.contains_iff (hs : s.Valid) {vs : Finset Int} (hv : s.scene v = some (.int vs))
    (a : Int) : s.contains v a = .ok true ↔ a ∈ vs := by
  refine ⟨fun h => ?_, hs.contains_of_mem hv⟩
  rcases hs.contains_eq hv a with heq | heq
  · exact of_decide_eq_true (Except.ok.inj (heq.symm.trans h))
  · cases heq.symm.trans h

/-- `Store.Fits` and `Store.Allows` together are `Dom.Admits`. -/
theorem Valid.admits_var (hs : s.Valid) (hv : s.scene v = some D) (x : Value) :
    s.Fits v x ∧ s.Allows v x ↔ D.Admits x := by
  rw [hs.fits_iff hv]
  have hwf := hs.wf hv
  cases D with
  | int vs =>
    cases x with
    | int a => exact (and_iff_right rfl).trans (hs.contains_iff hv a)
    | set members => exact iff_of_false (by rintro ⟨⟨⟩, -⟩) id
    | graph nodes arcs => exact iff_of_false (by rintro ⟨⟨⟩, -⟩) id
  | set n b =>
    cases x with
    | int a => exact iff_of_false (by rintro ⟨⟨⟩, -⟩) id
    | graph nodes arcs => exact iff_of_false (by rintro ⟨⟨⟩, -⟩) id
    | set members =>
      have hset : (Dom.set n b).kindOf = (Value.set members).kind := rfl
      simp only [hset, true_and, Allows, hs.kernelContains_eq hv, hs.envelopeContains_eq hv,
        Except.ok.injEq, decide_eq_true_iff]
      refine and_congr ⟨fun h e he => ?_, fun h a ha => h _ ha⟩
        ⟨fun h e he => ?_, fun h a ha => h (.value a) ha⟩
      · cases e with
        | value a => exact h a he
        | node i => exact (hwf.ground (hwf.kernel_subset he)).elim
        | arc i j => exact (hwf.ground (hwf.kernel_subset he)).elim
      · cases e with
        | value a => exact h a he
        | node i => exact he.elim
        | arc i j => exact he.elim
  | graph n b =>
    cases x with
    | int a => exact iff_of_false (by rintro ⟨⟨⟩, -⟩) id
    | set members => exact iff_of_false (by rintro ⟨⟨⟩, -⟩) id
    | graph nodes arcs =>
      have hgraph : (Dom.graph n b).kindOf = (Value.graph nodes arcs).kind := rfl
      simp only [hgraph, true_and, Allows, hs.nodeInKernel_eq hv, hs.nodeInEnvelope_eq hv,
        hs.arcInKernel_eq hv, hs.arcInEnvelope_eq hv, Except.ok.injEq, decide_eq_true_iff]
      constructor
      · rintro ⟨hk, he, hk', he'⟩
        refine ⟨fun e hmem => ?_, fun e hhas => ?_⟩
        · cases e with
          | value a => exact (hwf.ground (hwf.kernel_subset hmem)).elim
          | node i => exact hk i hmem
          | arc i j => exact hk' i j hmem
        · cases e with
          | value a => exact hhas.elim
          | node i => exact he i hhas
          | arc i j => exact he' i j hhas
      · rintro ⟨hk, he⟩
        exact ⟨fun i h => hk _ h, fun i h => he (.node i) h, fun i j h => hk _ h,
          fun i j h => he (.arc i j) h⟩

theorem Valid.admits_iff (hs : s.Valid) : s.Admits f ↔
    ∀ v D, s.scene v = some D → D.Admits (f v) ∧ (f v).IsProper := by
  constructor
  · intro h v D hv
    obtain ⟨hfit, hproper, hallow⟩ := h v (hs.varCount_eq ▸ (hs.ne_none_iff v).1 (by simp [hv]))
    exact ⟨(hs.admits_var hv _).1 ⟨hfit, hallow⟩, hproper⟩
  · intro h v hlt
    obtain ⟨D, hv⟩ := Option.ne_none_iff_exists'.1 ((hs.ne_none_iff v).2 (hs.varCount_eq ▸ hlt))
    obtain ⟨hadm, hproper⟩ := h v D hv
    obtain ⟨hfit, hallow⟩ := (hs.admits_var hv _).2 hadm
    exact ⟨hfit, hproper, hallow⟩

theorem Valid.assigned_within (hs : s.Valid) (h : s.Admits f) :
    Scene.Within (s.assigned f) s.scene := by
  intro v D hv
  obtain ⟨hadm, hproper⟩ := hs.admits_iff.1 h v D hv
  exact ⟨_, by rw [assigned, hv]; rfl, hadm.wf_assign hproper (hs.wf hv),
    hadm.assign_within (hs.wf hv)⟩

/-- If `s.assigned f` is within the scene of `s'`, which has no more live variables than `s`, then
`s'` admits `f`. -/
theorem Valid.admits_of_assigned (hs : s.Valid) (hs' : s'.Valid) (h : s.Admits f)
    (hle : Scene.Within (s.assigned f) s'.scene)
    (hdead : ∀ v, s.scene v = none → s'.scene v = none) : s'.Admits f := by
  refine hs'.admits_iff.2 fun v D' hv' => ?_
  cases hv : s.scene v with
  | none => cases hv'.symm.trans (hdead v hv)
  | some D =>
    obtain ⟨hadm, hproper⟩ := hs.admits_iff.1 h v D hv
    obtain ⟨C, hC, -, hCD⟩ := hle v D' hv'
    rw [assigned, hv] at hC
    cases hC
    exact ⟨hadm.of_assign hCD, hproper⟩

theorem Valid.admits_mono (hs : s.Valid) (hs' : s'.Valid) (hle : Scene.Within s'.scene s.scene)
    (h : s'.Admits f) : s.Admits f := by
  refine hs.admits_iff.2 fun v D hv => ?_
  obtain ⟨D', hv', -, hD⟩ := hle v D hv
  obtain ⟨hadm, hproper⟩ := hs'.admits_iff.1 h v D' hv'
  exact ⟨hadm.mono hD, hproper⟩

/-- In the scene of an assignment the kernel and the envelope of `v` are the elements of `f v`. -/
theorem Valid.mem_assigned (hs : s.Valid) (h : s.Admits f) (hv : s.scene v ≠ none) (e : Element) :
    (InKernel (s.assigned f) v e ↔ (f v).Has e) ∧
      (InEnvelope (s.assigned f) v e ↔ (f v).Has e) := by
  obtain ⟨D, hv⟩ := Option.ne_none_iff_exists'.1 hv
  have hG : s.assigned f v = some (D.assign (f v)) := by rw [assigned, hv]; rfl
  rw [inKernel_iff hG, inEnvelope_iff hG]
  exact (hs.admits_iff.1 h v D hv).1.mem_assign e

end Store

/-! ## Constraints -/

section
variable {s : Store} {f : Assignment}

theorem NotEqual.Holds.clear (hs : s.Valid) (hadm : s.Admits f) {x y : Var} {a b : Int}
    (hx : f x = .int a) (hy : f y = .int b) (hne : a ≠ b) :
    Clear (s.assigned f) x y := by
  intro a' vs hGx hGy
  have hfixed : ∀ {v : Var} {a : Int} {ws : Finset Int}, f v = .int a →
      s.assigned f v = some (.int ws) → ws = {a} := by
    intro v a ws hv hG
    obtain ⟨D, hD, hG⟩ := Option.map_eq_some_iff.1 hG
    have hin := (hs.admits_iff.1 hadm v D hD).1
    rw [hv] at hin hG
    cases D with
    | int us => exact (Dom.int.inj hG).symm
    | set n b => exact hin.elim
    | graph n b => exact hin.elim
  rw [hfixed hy hGy, Finset.mem_singleton, Finset.singleton_injective (hfixed hx hGx)]
  exact hne

/-- A constraint that holds of `f` is stable in `s.assigned f`. -/
theorem Constraint.Holds.stable {c : Constraint} (h : c.Holds f) (hs : s.Valid)
    (hadm : s.Admits f) (hlive : ∀ x ∈ c.watches, s.scene x.1 ≠ none) :
    c.Stable (s.assigned f) := by
  cases c with
  | notEqual c =>
    obtain ⟨a, b, hx, hy, hne⟩ := h
    exact ⟨NotEqual.Holds.clear hs hadm hx hy hne, NotEqual.Holds.clear hs hadm hy hx hne.symm⟩
  | graphChannel c =>
    obtain ⟨nodes, arcs, hg, hsets⟩ := h
    intro i set hset j
    obtain ⟨members, hmembers, harcs⟩ := hsets i set hset
    have hwatch : ∀ {k v}, c.watched k = some v → s.scene v ≠ none := by
      intro k v hv
      rw [← GraphChannel.getElem?_watches, Option.map_eq_some_iff] at hv
      obtain ⟨x, hx, rfl⟩ := hv
      exact hlive x (List.mem_of_getElem? hx)
    have hlink : c.Linked i set (.value j) c.graph (.arc i j) := .out hset j
    have hback : c.Linked c.sets.size c.graph (.arc i j) set (.value j) := .back hset j
    obtain ⟨hk, he⟩ := hs.mem_assigned hadm (hwatch hlink.watched) (.value j)
    obtain ⟨hk', he'⟩ := hs.mem_assigned hadm (hwatch hback.watched) (.arc i j)
    rw [hk, he, hk', he', hmembers, hg]
    exact ⟨(harcs j).symm, (harcs j).symm⟩

theorem Constraint.holds_of_bare {c c' : Constraint} (h : c'.bare = c.bare) :
    c'.Holds = c.Holds := by
  have hbare : ∀ c : Constraint, c.bare.Holds = c.Holds := fun c => by cases c <;> rfl
  rw [← hbare, h, hbare]

end

/-! ## Solutions of a model -/

namespace Model

variable {ν π : Type} {m m' : Model ν (Constraint ⊕ π)} {f : Assignment}

/-- `Solves` is that the store admits `f` and every live and enabled constraint holds of it. -/
theorem Ready.solves_iff (hm : m.Ready) : m.Solves f ↔ m.store.Admits f ∧
    ∀ p c, p < m.count → m.Poses p c → m.Flag (.enabled p) true → c.Holds f := by
  refine and_congr_right fun _ => ⟨fun h p c hp hc he => ?_, fun h c ⟨p, e, he, hown, hen⟩ => ?_⟩
  · obtain ⟨e, hentry, hown⟩ := hc.entry
    refine h c ⟨⟨p⟩, e, ?_, hown, (hm.valid.enabled_iff hentry).2 he⟩
    rw [entry, hm.valid.propagatorCount_eq, if_pos hp, Checked.fetch_eq_ok]
    exact hentry
  · obtain ⟨hp, hentry⟩ := entry_eq_ok he
    rw [hm.valid.propagatorCount_eq] at hp
    exact h p.id c hp ((poses_of_entry hentry).2 hown) ((hm.valid.enabled_iff hentry).1 hen)

/-- The scene of a solution is one that the profile demands. -/
theorem Ready.demands_of_solves (hm : m.Ready) (hw : m.Wired) (h : m.Solves f) :
    m.profile.Demands (m.store.assigned f) := by
  obtain ⟨hadm, hholds⟩ := hm.solves_iff.1 h
  refine demands_iff.2 fun p c hp hc he => ?_
  exact (hholds p c hp hc he).stable hm.valid.store hadm
    ((hw p c hc).scene_ne_none hm.valid hp)

/-- After a propagation `Solves` is about the same constraints. -/
theorem Underway.solves_finish (h : Underway m m') {l : LogLine} (hm' : (m'.finish l).Ready) :
    (m'.finish l).Solves f ↔ (m'.finish l).store.Admits f ∧
      ∀ p c, p < m.count → m.Poses p c → m.Flag (.enabled p) true → c.Holds f := by
  refine hm'.solves_iff.trans (and_congr_right fun _ => forall_congr' fun p => ?_)
  show (∀ c, p < m'.count → m'.Poses p c → m'.Flag (.enabled p) true → c.Holds f) ↔ _
  rw [h.count, h.enabled p true]
  constructor
  · intro hall c hp hc he
    obtain ⟨c', hc', hbare⟩ := exists_of_bareAt ((h.bare p).trans hc.bareAt)
    exact Constraint.holds_of_bare hbare ▸ hall c' hp hc' he
  · intro hall c' hp hc' he
    obtain ⟨c, hc, hbare⟩ := exists_of_bareAt ((h.bare p).symm.trans hc'.bareAt)
    exact Constraint.holds_of_bare hbare ▸ hall c hp hc he

variable [Propagator ν π]

/-- In any session that is reached without a fault, with constraints as its live propagators: a
propagation that succeeds keeps the solutions, and one that ends in a contradiction had none to
begin with. -/
theorem fixpoint_solves {marks : Array Mark} {before : List (Call (Constraint ⊕ π))}
    {s : Session ν (Constraint ⊕ π)} {xs : List (Step ν (Constraint ⊕ π))}
    (hbefore : Session.run before ⟨.empty, marks⟩ = .ok xs s)
    (hall : ∀ p : PropagatorId, p.id < s.model.propagatorCount →
      ∃ e c, s.model.entry p = .ok e ∧ e.propagator = .inl c) :
    Ends fixpoint s.model (fun _ m' => ∀ f, m'.Solves f ↔ s.model.Solves f)
      fun e _ => ∀ x, e = .contradiction x → ∀ f, ¬s.model.Solves f := by
  have hs := Session.ready hbefore ready_empty
  have hw := Session.wired hbefore ready_empty wired_empty
  have hposed : s.model.Constrains := by
    intro p hp
    obtain ⟨e, c, he, hown⟩ := hall ⟨p⟩ (hs.valid.propagatorCount_eq.symm ▸ hp)
    exact ⟨c, (poses_of_entry (entry_eq_ok he).2).2 hown⟩
  have hsettle := hw.settle_sound hs.valid hs.tidy hposed s.model.budget
  have hfix := hs.fixpoint
  cases hx : settle s.model.budget s.model with
  | ok a u =>
    have hdone : fixpoint s.model = .ok () (u.finish .settled) := by rw [fixpoint, hx]
    have hready : (u.finish .settled).Ready := by
      rw [Ends, answering, hdone] at hfix
      exact hfix.1
    obtain ⟨hu, hr⟩ := hsettle.of_ok hx
    refine ends_of_ok hdone fun f => ?_
    rw [hu.solves_finish hready, hs.solves_iff]
    refine and_congr_left fun hholds => ⟨?_, fun hadm => ?_⟩
    · exact hs.valid.store.admits_mono hready.valid.store hr.within
    · have hdemands := hs.demands_of_solves hw (hs.solves_iff.2 ⟨hadm, hholds⟩)
      exact hs.valid.store.admits_of_assigned hready.valid.store hadm
        (hr.sound _ hdemands (hs.valid.store.assigned_within hadm)) hr.dead
  | error e u =>
    cases e with
    | contradiction c =>
      obtain ⟨-, hno⟩ := hsettle.of_error hx c rfl
      refine ends_of_error (by rw [fixpoint, hx]) fun x _ f hf => ?_
      exact hno _ (hs.demands_of_solves hw hf)
        (hs.valid.store.assigned_within (hs.solves_iff.1 hf).1)
    | fault g =>
      have hfault : fixpoint s.model = .error (.fault g) u := by rw [fixpoint, hx]
      exact ends_of_error hfault (by rintro x ⟨⟩)

/-- A channel that has changes to carry over, beside a disequality and a disabled one. -/
theorem fixpoint_solves_channel : ∃ (xs : List (Step Unit (Constraint ⊕ NotEqual)))
    (s : Session Unit (Constraint ⊕ NotEqual)) (m' : Model Unit (Constraint ⊕ NotEqual)),
      Session.run [.create (.digraphs 1), .create (.subsets 1), .create (.interval 0 1),
        .create (.interval 0 1), .post (.inl (.graphChannel (.of ⟨0⟩ [⟨1⟩]))),
        .post (.inl (.notEqual (.of ⟨2⟩ ⟨3⟩))), .post (.inl (.notEqual (.of ⟨3⟩ ⟨3⟩))),
        .disable ⟨2⟩, .fixpoint, .narrow ⟨1⟩ (.addToKernel 0) .decision,
        .narrow ⟨2⟩ (.fix 1) .decision]
        ⟨.empty, #[]⟩ = .ok xs s ∧
      (∀ p : PropagatorId, p.id < s.model.propagatorCount →
        ∃ e c, s.model.entry p = .ok e ∧ e.propagator = .inl c) ∧
      fixpoint s.model = .ok () m' ∧ ∀ f, m'.Solves f ↔ s.model.Solves f := by
  obtain ⟨xs, s, hrun, htest⟩ := Session.exists_run
    [.create (.digraphs 1), .create (.subsets 1), .create (.interval 0 1),
      .create (.interval 0 1), .post (.inl (.graphChannel (.of ⟨0⟩ [⟨1⟩]))),
      .post (.inl (.notEqual (.of ⟨2⟩ ⟨3⟩))), .post (.inl (.notEqual (.of ⟨3⟩ ⟨3⟩))),
      .disable ⟨2⟩, .fixpoint, .narrow ⟨1⟩ (.addToKernel 0) .decision,
      .narrow ⟨2⟩ (.fix 1) .decision]
    (⟨.empty, #[]⟩ : Session Unit (Constraint ⊕ NotEqual))
    (fun s => ((List.range s.model.propagatorCount).all fun i =>
      match s.model.entry ⟨i⟩ with
      | .ok e => e.propagator.isLeft
      | .error _ => false) &&
      match fixpoint s.model with
      | .ok _ _ => true
      | .error _ _ => false)
    (by decide +kernel)
  rw [Bool.and_eq_true, List.all_eq_true] at htest
  obtain ⟨hleft, hfixed⟩ := htest
  have hall : ∀ p : PropagatorId, p.id < s.model.propagatorCount →
      ∃ e c, s.model.entry p = .ok e ∧ e.propagator = .inl c := by
    intro p hp
    have hp := hleft p.id (List.mem_range.2 hp)
    cases he : s.model.entry p with
    | ok e =>
      rw [he] at hp
      obtain ⟨c, hc⟩ := Sum.isLeft_iff.1 hp
      exact ⟨e, c, rfl, hc⟩
    | error f =>
      rw [he] at hp
      cases hp
  cases hfix : fixpoint s.model with
  | ok a m' => exact ⟨xs, s, m', hrun, hall, hfix, (fixpoint_solves hrun hall).of_ok hfix⟩
  | error e m' =>
    rw [hfix] at hfixed
    cases hfixed

end Model

end Propagation
