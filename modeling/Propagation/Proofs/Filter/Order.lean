import Propagation.Proofs.Store.Change

/-!
# Scenes in order

A scene lies within another (`Scene.Within`) if it has, for every variable of the other, a domain
that allows no more. That an element is in a kernel (`Scene.InKernel`), or out of an envelope
(`Scene.InEnvelope`), is kept by all scenes within it.

`Scene.inKernel_enforce` and its like say what one narrowing does to kernels and envelopes.
-/

set_option autoImplicit false

namespace Propagation

/-- The domain of each variable, `none` for dead ones. -/
abbrev Scene : Type := Var → Option Dom

namespace Scene

/-- Each domain `D` of `S` has in `G` a well-formed domain within `D`. -/
def Within (G S : Scene) : Prop := ∀ v D, S v = some D → ∃ C, G v = some C ∧ C.Wf ∧ C.Within D

/-- The element is in the kernel of the set or graph `v`. -/
def InKernel (S : Scene) (v : Var) (e : Element) : Prop := ∃ D, S v = some D ∧ e ∈ D.kernel

/-- The element is in the envelope of the set or graph `v`. -/
def InEnvelope (S : Scene) (v : Var) (e : Element) : Prop := ∃ D, S v = some D ∧ e ∈ D.envelope

variable {G S S' : Scene} {u v : Var} {e f : Element} {D D' : Dom}

theorem Within.refl (h : ∀ v D, S v = some D → D.Wf) : Scene.Within S S :=
  fun v D hv => ⟨D, hv, h v D hv, .refl D⟩

theorem Within.trans (h : Scene.Within G S') (h' : Scene.Within S' S) : Scene.Within G S := by
  intro v D hv
  obtain ⟨D', hv', -, hle'⟩ := h' v D hv
  obtain ⟨C, hC, hwf, hle⟩ := h v D' hv'
  exact ⟨C, hC, hwf, hle.trans hle'⟩

/-- `Within` is antisymmetric on scenes with the same dead variables. -/
theorem Within.antisymm (h : Scene.Within S S') (h' : Scene.Within S' S)
    (hnone : ∀ v, S v = none ↔ S' v = none) : S = S' := by
  funext v
  cases hv : S' v with
  | none => exact (hnone v).2 hv
  | some D =>
    obtain ⟨C, hC, -, hle⟩ := h v D hv
    obtain ⟨D', hD', -, hle'⟩ := h' v C hC
    rw [hv] at hD'
    cases hD'
    rw [hC, hle.antisymm hle']

/-- `Within` is antisymmetric on scenes within a third one that have no more live variables than it.
-/
theorem Within.antisymm_of_within (h : Scene.Within S S') (h' : Scene.Within S' S)
    (hS : Scene.Within S G) (hdead : ∀ v, G v = none → S v = none) (hS' : Scene.Within S' G)
    (hdead' : ∀ v, G v = none → S' v = none) : S = S' := by
  refine h.antisymm h' fun v => ?_
  cases hv : G v with
  | none => rw [hdead v hv, hdead' v hv]
  | some D =>
    obtain ⟨C, hC, -⟩ := hS v D hv
    obtain ⟨C', hC', -⟩ := hS' v D hv
    rw [hC, hC']
    simp

theorem Within.inKernel (h : Scene.Within G S) (he : InKernel S v e) : InKernel G v e := by
  obtain ⟨D, hv, hD⟩ := he
  obtain ⟨C, hC, -, hle⟩ := h v D hv
  exact ⟨C, hC, hle.kernel hD⟩

theorem Within.inEnvelope (h : Scene.Within G S) (hv : S v ≠ none) (he : InEnvelope G v e) :
    InEnvelope S v e := by
  obtain ⟨D, hD⟩ := Option.ne_none_iff_exists'.1 hv
  obtain ⟨C, hC, -, hle⟩ := h v D hD
  obtain ⟨C', hC', he'⟩ := he
  rw [hC] at hC'
  cases hC'
  exact ⟨D, hD, hle.envelope he'⟩

theorem inKernel_iff (hv : S v = some D) : InKernel S v e ↔ e ∈ D.kernel := by
  rw [InKernel, hv]
  simp

theorem inEnvelope_iff (hv : S v = some D) : InEnvelope S v e ↔ e ∈ D.envelope := by
  rw [InEnvelope, hv]
  simp

theorem inEnvelope_of_inKernel (hwf : ∀ v D, S v = some D → D.Wf) (h : InKernel S v e) :
    InEnvelope S v e := by
  obtain ⟨D, hv, he⟩ := h
  refine ⟨D, hv, ?_⟩
  have hD := hwf v D hv
  cases D with
  | int vs => exact absurd he (Finset.notMem_empty e)
  | set n b => exact hD.kernel_subset he
  | graph n b => exact hD.kernel_subset he

/-! ## After one narrowing -/

/-- `enforce` adds the closure of the element to the kernel and keeps the envelope. -/
theorem bounds_enforce (h : D.enforce e = some D') :
    D'.kernel = D.kernel ∪ e.closure ∧ D'.envelope = D.envelope := by
  cases D with
  | int vs => cases h
  | set n b =>
    obtain ⟨b', hb, rfl⟩ := Option.map_eq_some_iff.1 h
    rw [Bounds.enforce] at hb
    split at hb
    · cases hb
      exact ⟨rfl, rfl⟩
    · cases hb
  | graph n b =>
    obtain ⟨b', hb, rfl⟩ := Option.map_eq_some_iff.1 h
    rw [Bounds.enforce] at hb
    split at hb
    · cases hb
      exact ⟨rfl, rfl⟩
    · cases hb

/-- `remove` takes the elements that need `e` from the envelope and keeps the kernel. -/
theorem bounds_remove (h : D.remove e = some D') :
    D'.kernel = D.kernel ∧ D'.envelope = D.envelope.filter fun f => e ∉ f.closure := by
  cases D with
  | int vs => cases h
  | set n b =>
    obtain ⟨b', hb, rfl⟩ := Option.map_eq_some_iff.1 h
    rw [Bounds.remove] at hb
    split at hb
    · cases hb
    · cases hb
      exact ⟨rfl, rfl⟩
  | graph n b =>
    obtain ⟨b', hb, rfl⟩ := Option.map_eq_some_iff.1 h
    rw [Bounds.remove] at hb
    split at hb
    · cases hb
    · cases hb
      exact ⟨rfl, rfl⟩

section
variable (hv : S v = some D)
include hv

theorem inKernel_enforce (h : D.enforce e = some D') :
    InKernel (Function.update S v (some D')) u f ↔
      InKernel S u f ∨ u = v ∧ f ∈ e.closure := by
  by_cases hu : u = v
  · subst hu
    rw [inKernel_iff (Function.update_self ..), inKernel_iff hv, (bounds_enforce h).1,
      Finset.mem_union]
    simp
  · simp [InKernel, hu]

theorem inEnvelope_enforce (h : D.enforce e = some D') :
    InEnvelope (Function.update S v (some D')) u f ↔ InEnvelope S u f := by
  by_cases hu : u = v
  · subst hu
    rw [inEnvelope_iff (Function.update_self ..), inEnvelope_iff hv, (bounds_enforce h).2]
  · simp [InEnvelope, hu]

theorem inKernel_remove (h : D.remove e = some D') :
    InKernel (Function.update S v (some D')) u f ↔ InKernel S u f := by
  by_cases hu : u = v
  · subst hu
    rw [inKernel_iff (Function.update_self ..), inKernel_iff hv, (bounds_remove h).1]
  · simp [InKernel, hu]

theorem inEnvelope_remove (h : D.remove e = some D') :
    InEnvelope (Function.update S v (some D')) u f ↔
      InEnvelope S u f ∧ ¬(u = v ∧ e ∈ f.closure) := by
  by_cases hu : u = v
  · subst hu
    rw [inEnvelope_iff (Function.update_self ..), inEnvelope_iff hv, (bounds_remove h).2,
      Finset.mem_filter]
    simp
  · simp [InEnvelope, hu]

end

end Scene

/-! ## What the queries answer -/

namespace Store

open Scene

variable {s : Store} {v : Var} {D : Dom}

theorem Valid.isSet_or (hs : s.Valid) (v : Var) :
    (∃ n b, s.scene v = some (.set n b)) ∨
      (¬∃ n b, s.scene v = some (.set n b)) ∧ ∃ k, s.elements v = .error (.violation k) := by
  by_cases h : ∃ n b, s.scene v = some (.set n b)
  · exact .inl h
  · refine .inr ⟨h, hs.elements_error fun D hD hkind => h ?_⟩
    obtain ⟨n, b, rfl⟩ := Dom.kindOf_eq_set hkind
    exact ⟨n, b, hD⟩

theorem Valid.isGraph_or (hs : s.Valid) (v : Var) :
    (∃ n b, s.scene v = some (.graph n b)) ∨
      (¬∃ n b, s.scene v = some (.graph n b)) ∧ ∃ k, s.graph v = .error (.violation k) := by
  by_cases h : ∃ n b, s.scene v = some (.graph n b)
  · exact .inl h
  · refine .inr ⟨h, hs.graph_error fun D hD hkind => h ?_⟩
    obtain ⟨n, b, rfl⟩ := Dom.kindOf_eq_graph hkind
    exact ⟨n, b, hD⟩

/-- A variable with a value in its envelope is a set. -/
theorem Valid.isSet_of_value (hs : s.Valid) (hv : s.scene v = some D) {j : Nat}
    (hj : .value j ∈ D.envelope) : ∃ n b, s.scene v = some (.set n b) := by
  have hground := (hs.wf hv).ground hj
  cases D with
  | int vs => exact hground.elim
  | set n b => exact ⟨n, b, hv⟩
  | graph n b => exact hground.elim

/-- A variable with an arc in its envelope is a graph. -/
theorem Valid.isGraph_of_arc (hs : s.Valid) (hv : s.scene v = some D) {i j : Nat}
    (hj : .arc i j ∈ D.envelope) : ∃ n b, s.scene v = some (.graph n b) := by
  have hground := (hs.wf hv).ground hj
  cases D with
  | int vs => exact hground.elim
  | set n b => exact hground.elim
  | graph n b => exact ⟨n, b, hv⟩

/-- `kernelContains` answers membership in the kernel. -/
theorem Valid.kernelContains_iff (hs : s.Valid) (v : Var) (j : Nat) :
    s.kernelContains v j = .ok true ↔ InKernel s.scene v (.value j) := by
  rcases hs.isSet_or v with ⟨n, b, hv⟩ | ⟨hno, k, hk⟩
  · rw [hs.kernelContains_eq hv, inKernel_iff hv, Except.ok.injEq, decide_eq_true_iff, Dom.kernel]
  · rw [kernelContains, hk]
    refine iff_of_false (by rintro ⟨⟩) ?_
    rintro ⟨D, hD, hj⟩
    exact hno (hs.isSet_of_value hD ((hs.wf hD).kernel_subset hj))

theorem Valid.envelopeContains_iff (hs : s.Valid) (v : Var) (j : Nat) :
    s.envelopeContains v j = .ok true ↔ InEnvelope s.scene v (.value j) := by
  rcases hs.isSet_or v with ⟨n, b, hv⟩ | ⟨hno, k, hk⟩
  · rw [hs.envelopeContains_eq hv, inEnvelope_iff hv, Except.ok.injEq, decide_eq_true_iff,
      Dom.envelope]
  · rw [envelopeContains, hk]
    refine iff_of_false (by rintro ⟨⟩) ?_
    rintro ⟨D, hD, hj⟩
    exact hno (hs.isSet_of_value hD hj)

theorem Valid.arcInKernel_iff (hs : s.Valid) (v : Var) (i j : Nat) :
    s.arcInKernel v i j = .ok true ↔ InKernel s.scene v (.arc i j) := by
  rcases hs.isGraph_or v with ⟨n, b, hv⟩ | ⟨hno, k, hk⟩
  · rw [hs.arcInKernel_eq hv, inKernel_iff hv, Except.ok.injEq, decide_eq_true_iff, Dom.kernel]
  · rw [arcInKernel, nodeCount, hk]
    refine iff_of_false (by rintro ⟨⟩) ?_
    rintro ⟨D, hD, hj⟩
    exact hno (hs.isGraph_of_arc hD ((hs.wf hD).kernel_subset hj))

theorem Valid.arcInEnvelope_iff (hs : s.Valid) (v : Var) (i j : Nat) :
    s.arcInEnvelope v i j = .ok true ↔ InEnvelope s.scene v (.arc i j) := by
  rcases hs.isGraph_or v with ⟨n, b, hv⟩ | ⟨hno, k, hk⟩
  · rw [hs.arcInEnvelope_eq hv, inEnvelope_iff hv, Except.ok.injEq, decide_eq_true_iff,
      Dom.envelope]
  · rw [arcInEnvelope, nodeCount, hk]
    refine iff_of_false (by rintro ⟨⟩) ?_
    rintro ⟨D, hD, hj⟩
    exact hno (hs.isGraph_of_arc hD hj)

/-- `kernelValues` lists the values in the kernel of a set, and is a violation on any other
variable. -/
theorem Valid.kernelValues_spec (hs : s.Valid) (v : Var) :
    ((∃ n b, s.scene v = some (.set n b)) ∧
      ∃ l, s.kernelValues v = .ok l ∧ ∀ j, j ∈ l ↔ InKernel s.scene v (.value j)) ∨
    (¬∃ n b, s.scene v = some (.set n b)) ∧ ∃ k, s.kernelValues v = .error (.violation k) := by
  rcases hs.isSet_or v with ⟨n, b, hv⟩ | ⟨hno, k, hk⟩
  · exact .inl ⟨⟨n, b, hv⟩, _, hs.kernelValues_eq hv, fun j => by
      rw [Finset.mem_sort, mem_valuesOf, inKernel_iff hv, Dom.kernel]⟩
  · exact .inr ⟨hno, k, by rw [kernelValues, hk]; rfl⟩

theorem Valid.envelopeValues_spec (hs : s.Valid) (v : Var) :
    ((∃ n b, s.scene v = some (.set n b)) ∧
      ∃ l, s.envelopeValues v = .ok l ∧ ∀ j, j ∈ l ↔ InEnvelope s.scene v (.value j)) ∨
    (¬∃ n b, s.scene v = some (.set n b)) ∧ ∃ k, s.envelopeValues v = .error (.violation k) := by
  rcases hs.isSet_or v with ⟨n, b, hv⟩ | ⟨hno, k, hk⟩
  · exact .inl ⟨⟨n, b, hv⟩, _, hs.envelopeValues_eq hv, fun j => by
      rw [Finset.mem_sort, mem_valuesOf, inEnvelope_iff hv, Dom.envelope]⟩
  · exact .inr ⟨hno, k, by rw [envelopeValues, hk]; rfl⟩

theorem Valid.envelopeContains_spec (hs : s.Valid) (v : Var) (j : Nat) :
    ((∃ n b, s.scene v = some (.set n b)) ∧
      ∃ a, s.envelopeContains v j = .ok a ∧ (a = true ↔ InEnvelope s.scene v (.value j))) ∨
    (¬∃ n b, s.scene v = some (.set n b)) ∧
      ∃ k, s.envelopeContains v j = .error (.violation k) := by
  rcases hs.isSet_or v with ⟨n, b, hv⟩ | ⟨hno, k, hk⟩
  · exact .inl ⟨⟨n, b, hv⟩, _, hs.envelopeContains_eq hv j, by
      rw [decide_eq_true_iff, inEnvelope_iff hv, Dom.envelope]⟩
  · exact .inr ⟨hno, k, by rw [envelopeContains, hk]; rfl⟩

theorem Valid.arcInEnvelope_spec (hs : s.Valid) (v : Var) (i j : Nat) :
    ((∃ n b, s.scene v = some (.graph n b)) ∧
      ∃ a, s.arcInEnvelope v i j = .ok a ∧ (a = true ↔ InEnvelope s.scene v (.arc i j))) ∨
    (¬∃ n b, s.scene v = some (.graph n b)) ∧
      ∃ k, s.arcInEnvelope v i j = .error (.violation k) := by
  rcases hs.isGraph_or v with ⟨n, b, hv⟩ | ⟨hno, k, hk⟩
  · exact .inl ⟨⟨n, b, hv⟩, _, hs.arcInEnvelope_eq hv i j, by
      rw [decide_eq_true_iff, inEnvelope_iff hv, Dom.envelope]⟩
  · exact .inr ⟨hno, k, by rw [arcInEnvelope, nodeCount, hk]; rfl⟩

/-- `kernelSuccessors` lists the heads of the arcs from `i` in the kernel, and is a violation unless
`i` is a node of a graph. -/
theorem Valid.kernelSuccessors_spec (hs : s.Valid) (v : Var) (i : Nat) :
    ((∃ n b, s.scene v = some (.graph n b) ∧ i < n) ∧
      ∃ l, s.kernelSuccessors v i = .ok l ∧ ∀ j, j ∈ l ↔ InKernel s.scene v (.arc i j)) ∨
    (¬∃ n b, s.scene v = some (.graph n b) ∧ i < n) ∧
      ∃ k, s.kernelSuccessors v i = .error (.violation k) := by
  rcases hs.isGraph_or v with ⟨n, b, hv⟩ | ⟨hno, k, hk⟩
  · by_cases hi : i < n
    · exact .inl ⟨⟨n, b, hv, hi⟩, _, hs.kernelSuccessors_eq hv hi, fun j => by
        rw [Finset.mem_sort, mem_targetsOf, inKernel_iff hv, Dom.kernel]⟩
    · refine .inr ⟨?_, .noNode v i, by rw [kernelSuccessors, hs.successors_error hv hi]; rfl⟩
      rintro ⟨m, b', hv', hi'⟩
      rw [hv] at hv'
      cases hv'
      exact hi hi'
  · refine .inr ⟨?_, k, ?_⟩
    · rintro ⟨n, b, hv, -⟩
      exact hno ⟨n, b, hv⟩
    · rw [kernelSuccessors, successors, hk]
      rfl

theorem Valid.envelopeSuccessors_spec (hs : s.Valid) (v : Var) (i : Nat) :
    ((∃ n b, s.scene v = some (.graph n b) ∧ i < n) ∧
      ∃ l, s.envelopeSuccessors v i = .ok l ∧ ∀ j, j ∈ l ↔ InEnvelope s.scene v (.arc i j)) ∨
    (¬∃ n b, s.scene v = some (.graph n b) ∧ i < n) ∧
      ∃ k, s.envelopeSuccessors v i = .error (.violation k) := by
  rcases hs.isGraph_or v with ⟨n, b, hv⟩ | ⟨hno, k, hk⟩
  · by_cases hi : i < n
    · exact .inl ⟨⟨n, b, hv, hi⟩, _, hs.envelopeSuccessors_eq hv hi, fun j => by
        rw [Finset.mem_sort, mem_targetsOf, inEnvelope_iff hv, Dom.envelope]⟩
    · refine .inr ⟨?_, .noNode v i, by rw [envelopeSuccessors, hs.successors_error hv hi]; rfl⟩
      rintro ⟨m, b', hv', hi'⟩
      rw [hv] at hv'
      cases hv'
      exact hi hi'
  · refine .inr ⟨?_, k, ?_⟩
    · rintro ⟨n, b, hv, -⟩
      exact hno ⟨n, b, hv⟩
    · rw [envelopeSuccessors, successors, hk]
      rfl

end Store

end Propagation
