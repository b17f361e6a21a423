import Propagation.Proofs.Filter.GraphChannel
import Propagation.Proofs.Filter.NotEqual

/-!
# What entailment means

The answer of `entailment` is a function of the scene (`NotEqual.Says`, `GraphChannel.Says`). If it
is `entailed` the scene is stable for the constraint, and the answer is kept when the domains
shrink. So a propagator that has been found entailed need not be run again.
-/

set_option autoImplicit false

namespace Propagation

open Scene

/-- Bounds with the kernel equal to the envelope have no proper narrowing. -/
theorem Bounds.Within.eq_of_tight {b b' : Bounds} (h : b'.Within b) (hb : b.kernel = b.envelope)
    (hb' : b'.kernel ⊆ b'.envelope) : b' = b := by
  have hk := Finset.Subset.antisymm (hb'.trans (h.envelope_subset.trans hb.ge)) h.kernel_subset
  have he := Finset.Subset.antisymm h.envelope_subset (hb.ge.trans (h.kernel_subset.trans hb'))
  cases b
  cases b'
  exact congrArg₂ Bounds.mk hk he

/-- A `Fixed` domain has no proper narrowing. -/
theorem Dom.Fixed.eq_of_within {C D : Dom} (hD : D.Fixed) (hC : C.Wf) (hle : C.Within D) :
    C = D := by
  cases D with
  | int vs =>
    obtain ⟨a, rfl⟩ := Finset.card_eq_one.1 hD
    obtain ⟨ws, rfl⟩ := hle.exists_int
    exact congrArg Dom.int ((Finset.subset_singleton_iff.1 hle).resolve_left hC.ne_empty)
  | set n b =>
    cases C with
    | int ws => exact hle.elim
    | graph n' b' => exact hle.elim
    | set n' b' =>
      obtain ⟨rfl, hb⟩ := hle
      exact congrArg (Dom.set n') (hb.eq_of_tight hD hC.kernel_subset)
  | graph n b =>
    cases C with
    | int ws => exact hle.elim
    | set n' b' => exact hle.elim
    | graph n' b' =>
      obtain ⟨rfl, hb⟩ := hle
      exact congrArg (Dom.graph n') (hb.eq_of_tight hD hC.kernel_subset)

theorem Dom.Fixed.kernel_eq {D : Dom} (hD : D.Fixed) : D.kernel = D.envelope := by
  cases D with
  | int vs => rfl
  | set n b => exact hD
  | graph n b => exact hD

namespace Store

variable {s : Store} {v : Var} {i j : Nat} {b : Bool} {l : List Nat}

/-! ## Answers -/

section
variable (hs : s.Valid)
include hs

theorem Valid.kernelValues_ok (h : s.kernelValues v = .ok l) :
    j ∈ l ↔ InKernel s.scene v (.value j) := by
  rcases hs.kernelValues_spec v with ⟨-, l', hl', hmem⟩ | ⟨-, k, hk⟩
  · cases h.symm.trans hl'
    exact hmem j
  · cases h.symm.trans hk

theorem Valid.kernelSuccessors_ok (h : s.kernelSuccessors v i = .ok l) :
    j ∈ l ↔ InKernel s.scene v (.arc i j) := by
  rcases hs.kernelSuccessors_spec v i with ⟨-, l', hl', hmem⟩ | ⟨-, k, hk⟩
  · cases h.symm.trans hl'
    exact hmem j
  · cases h.symm.trans hk

theorem Valid.envelopeContains_ok (h : s.envelopeContains v j = .ok b) :
    b = true ↔ InEnvelope s.scene v (.value j) := by
  rcases hs.envelopeContains_spec v j with ⟨-, b', hb', hmem⟩ | ⟨-, k, hk⟩
  · cases h.symm.trans hb'
    exact hmem
  · cases h.symm.trans hk

theorem Valid.arcInEnvelope_ok (h : s.arcInEnvelope v i j = .ok b) :
    b = true ↔ InEnvelope s.scene v (.arc i j) := by
  rcases hs.arcInEnvelope_spec v i j with ⟨-, b', hb', hmem⟩ | ⟨-, k, hk⟩
  · cases h.symm.trans hb'
    exact hmem
  · cases h.symm.trans hk

end

end Store

namespace NotEqual

open Store

/-- The `verdict` on the values of the two variables in `S` is `a`. -/
def Says (c : NotEqual) (S : Scene) (a : Entailment) : Prop :=
  ∃ vs ws, S c.x = some (.int vs) ∧ S c.y = some (.int ws) ∧ a = verdict vs ws

theorem verdict_eq_entailed {vs ws : Finset Int} : verdict vs ws = .entailed ↔ Disjoint vs ws := by
  unfold verdict
  split
  · next h => exact iff_of_true rfl h
  · next h => split <;> exact iff_of_false (by rintro ⟨⟩) h

theorem says_entailed {c : NotEqual} {S : Scene} : c.Says S .entailed ↔ c.Entailed S :=
  exists_congr fun _ => exists_congr fun _ => and_congr_right fun _ => and_congr_right fun _ =>
    eq_comm.trans verdict_eq_entailed

theorem says_of_entailment {c : NotEqual} {s : Store} {a : Entailment} (hs : s.Valid)
    (h : entailment c s = .ok a) : c.Says s.scene a := by
  obtain ⟨⟨vs, hx⟩, ws, hy⟩ := fits_of_entailment hs h
  rcases entailment_eq hs hx hy with heq | heq
  · cases h.symm.trans heq
    exact ⟨vs, ws, hx, hy, rfl⟩
  · cases h.symm.trans heq

end NotEqual

namespace GraphChannel

open Store

variable {c : GraphChannel} {s : Store} {b : Bool}

theorem anyFails_eq_ok {test : Nat → Except Fault Bool} {T : Nat → Prop} {js : List Nat}
    (htest : ∀ j a, test j = .ok a → (a = true ↔ T j)) (h : anyFails test js = .ok b) :
    b = true ↔ ∃ j ∈ js, ¬T j := by
  induction js with
  | nil =>
    cases h
    simp
  | cons j js ih =>
    obtain ⟨a, hj, h⟩ := Checked.exists_of_bind_eq_ok h
    have hT := htest j a hj
    cases a with
    | true => simpa [hT.1 rfl] using ih h
    | false =>
      cases h
      simpa using .inl (mt hT.2 Bool.false_ne_true)

theorem mem_vars {i : Nat} {set : Var} (hset : c.sets[i]? = some set) :
    set ∈ c.graph :: c.sets.toList :=
  List.mem_cons_of_mem _ (Array.mem_toList_iff.2 (Array.mem_of_getElem? hset))

/-- An element is in the kernel on one side and out of the envelope on the other. -/
def Clashes (S : Scene) (g : Var) (i : Nat) (set : Var) : Prop :=
  ∃ j, (InKernel S set (.value j) ∧ ¬InEnvelope S g (.arc i j)) ∨
    (InKernel S g (.arc i j) ∧ ¬InEnvelope S set (.value j))

theorem clash_eq_ok (hs : s.Valid) {rows : List (Nat × Var)} (h : c.clash s rows = .ok b) :
    b = true ↔ ∃ x ∈ rows, Clashes s.scene c.graph x.1 x.2 := by
  induction rows with
  | nil =>
    cases h
    simp
  | cons x rows ih =>
    obtain ⟨i, set⟩ := x
    obtain ⟨js, hjs, h⟩ := Checked.exists_of_bind_eq_ok h
    obtain ⟨b₁, hb₁, h⟩ := Checked.exists_of_bind_eq_ok h
    have hrequired := anyFails_eq_ok (fun j a => hs.arcInEnvelope_ok) hb₁
    have hclash : Clashes s.scene c.graph i set ↔ (∃ j ∈ js, ¬InEnvelope s.scene c.graph (.arc i j)) ∨
        ∃ j, InKernel s.scene c.graph (.arc i j) ∧ ¬InEnvelope s.scene set (.value j) := by
      simp only [hs.kernelValues_ok hjs, Clashes, exists_or]
    rw [List.exists_mem_cons_iff, hclash, ← hrequired]
    cases b₁ with
    | true =>
      cases h
      simp
    | false =>
      obtain ⟨ks, hks, h⟩ := Checked.exists_of_bind_eq_ok h
      obtain ⟨b₂, hb₂, h⟩ := Checked.exists_of_bind_eq_ok h
      have henforced := anyFails_eq_ok (fun j a => hs.envelopeContains_ok) hb₂
      simp only [hs.kernelSuccessors_ok hks] at henforced
      rw [← henforced]
      cases b₂ with
      | true =>
        cases h
        simp
      | false => simpa using ih h

theorem allInstantiated_eq_ok (hs : s.Valid) {vs : List Var}
    (h : GraphChannel.allInstantiated s vs = .ok b) :
    b = true ↔ ∀ v ∈ vs, ∃ D, s.scene v = some D ∧ D.Fixed := by
  induction vs with
  | nil =>
    cases h
    simp
  | cons v vs ih =>
    obtain ⟨a, ha, h⟩ := Checked.exists_of_bind_eq_ok h
    cases hv : s.scene v with
    | none =>
      rw [Store.isInstantiated, hs.domain_dead hv] at ha
      cases ha
    | some D =>
      rw [hs.isInstantiated_eq hv] at ha
      cases ha
      rw [List.forall_mem_cons, hv]
      by_cases hD : D.Fixed
      · rw [decide_eq_true hD] at h
        rw [ih h, and_iff_right ⟨D, rfl, hD⟩]
      · rw [decide_eq_false hD] at h
        cases h
        simp [hD]

/-- The entailment `a` of the channel in `S`: violated iff some row clashes, entailed iff none does
and all domains are fixed. -/
structure Says (c : GraphChannel) (S : Scene) (a : Entailment) : Prop where
  violated : a = .violated ↔ ∃ i set, c.sets[i]? = some set ∧ Clashes S c.graph i set
  entailed : a = .entailed ↔ (∀ i set, c.sets[i]? = some set → ¬Clashes S c.graph i set) ∧
    ∀ v ∈ c.graph :: c.sets.toList, ∃ D, S v = some D ∧ D.Fixed

theorem says_of_entailment {a : Entailment} (hs : s.Valid) (h : c.entailment s = .ok a) :
    c.Says s.scene a := by
  obtain ⟨b₁, hclash, h⟩ := Checked.exists_of_bind_eq_ok h
  have hrows : (∃ x ∈ c.rows, Clashes s.scene c.graph x.1 x.2) ↔
      ∃ i set, c.sets[i]? = some set ∧ Clashes s.scene c.graph i set := by
    simp only [Prod.exists, mem_rows]
  have hclash := (clash_eq_ok hs hclash).trans hrows
  cases b₁ with
  | true =>
    cases h
    obtain ⟨i, set, hset, hno⟩ := hclash.1 rfl
    exact ⟨iff_of_true rfl ⟨i, set, hset, hno⟩, iff_of_false (by rintro ⟨⟩)
      fun h => h.1 i set hset hno⟩
  | false =>
    have hno : ∀ i set, c.sets[i]? = some set → ¬Clashes s.scene c.graph i set :=
      fun i set hset h => Bool.false_ne_true (hclash.2 ⟨i, set, hset, h⟩)
    obtain ⟨b₂, hall, h⟩ := Checked.exists_of_bind_eq_ok h
    have hfixed := allInstantiated_eq_ok hs hall
    cases b₂ with
    | true =>
      cases h
      exact ⟨iff_of_false (by rintro ⟨⟩) (mt hclash.2 Bool.false_ne_true),
        iff_of_true rfl ⟨hno, hfixed.1 rfl⟩⟩
    | false =>
      cases h
      exact ⟨iff_of_false (by rintro ⟨⟩) (mt hclash.2 Bool.false_ne_true),
        iff_of_false (by rintro ⟨⟩) fun h => Bool.false_ne_true (hfixed.2 h.2)⟩

theorem anyFails_ok {test : Nat → Except Fault Bool} (h : ∀ j, ∃ a, test j = .ok a)
    (js : List Nat) : ∃ b, anyFails test js = .ok b := by
  induction js with
  | nil => exact ⟨false, rfl⟩
  | cons j js ih =>
    obtain ⟨a, ha⟩ := h j
    unfold anyFails
    rw [ha]
    cases a with
    | true => exact ih
    | false => exact ⟨true, rfl⟩

theorem clash_ok (hs : s.Valid) {rows : List (Nat × Var)}
    (h : ∀ x ∈ rows, TypedRow s.scene c.graph x.1 x.2) : ∃ b, c.clash s rows = .ok b := by
  induction rows with
  | nil => exact ⟨false, rfl⟩
  | cons x rows ih =>
    obtain ⟨i, set⟩ := x
    obtain ⟨⟨m, b, hset⟩, n, g, hgraph, hi⟩ := h (i, set) List.mem_cons_self
    obtain ⟨b₁, hb₁⟩ := anyFails_ok (fun j => ⟨_, hs.arcInEnvelope_eq hgraph i j⟩) _
    obtain ⟨b₂, hb₂⟩ := anyFails_ok (fun j => ⟨_, hs.envelopeContains_eq hset j⟩) _
    unfold clash
    rw [hs.kernelValues_eq hset]
    show ∃ b, (anyFails _ _ >>= _) = Except.ok b
    rw [hb₁]
    cases b₁ with
    | true => exact ⟨true, rfl⟩
    | false =>
      rw [hs.kernelSuccessors_eq hgraph hi]
      show ∃ b, (anyFails _ _ >>= _) = Except.ok b
      rw [hb₂]
      cases b₂ with
      | true => exact ⟨true, rfl⟩
      | false => exact ih fun x hx => h x (List.mem_cons_of_mem _ hx)

theorem allInstantiated_ok (hs : s.Valid) {vs : List Var} (h : ∀ v ∈ vs, s.scene v ≠ none) :
    ∃ b, GraphChannel.allInstantiated s vs = .ok b := by
  induction vs with
  | nil => exact ⟨true, rfl⟩
  | cons v vs ih =>
    obtain ⟨D, hD⟩ := Option.ne_none_iff_exists'.1 (h v List.mem_cons_self)
    unfold GraphChannel.allInstantiated
    rw [hs.isInstantiated_eq hD]
    by_cases hfixed : D.Fixed
    · rw [decide_eq_true hfixed]
      exact ih fun u hu => h u (List.mem_cons_of_mem _ hu)
    · rw [decide_eq_false hfixed]
      exact ⟨false, rfl⟩

/-- A channel between a graph and sets has an answer, whatever the sets range over. -/
theorem entailment_of_typed (hs : s.Valid) (hgraph : s.scene c.graph ≠ none)
    (htyped : c.Typed s.scene) : ∃ a, c.entailment s = .ok a := by
  have hlive : ∀ v ∈ c.graph :: c.sets.toList, s.scene v ≠ none := by
    intro v hv
    rcases List.mem_cons.1 hv with rfl | hv
    · exact hgraph
    · obtain ⟨i, hi⟩ := Array.getElem?_of_mem (Array.mem_toList_iff.1 hv)
      obtain ⟨⟨m, b, hset⟩, -⟩ := htyped i v hi
      rw [hset]
      exact Option.some_ne_none _
  obtain ⟨b₁, hb₁⟩ := clash_ok hs fun x hx => htyped x.1 x.2 (mem_rows.1 hx)
  obtain ⟨b₂, hb₂⟩ := allInstantiated_ok hs hlive
  unfold GraphChannel.entailment
  rw [hb₁]
  cases b₁ with
  | true => exact ⟨.violated, rfl⟩
  | false =>
    show ∃ a, (GraphChannel.allInstantiated s _ >>= _) = Except.ok a
    rw [hb₂]
    cases b₂ with
    | true => exact ⟨.entailed, rfl⟩
    | false => exact ⟨.undecided, rfl⟩

/-- A channel that `Fits` has an answer. -/
theorem entailment_ok (hs : s.Valid) (hfit : c.Fits s.scene) : ∃ a, c.entailment s = .ok a := by
  obtain ⟨⟨b, hgraph⟩, hrows⟩ := hfit
  exact entailment_of_typed hs (by rw [hgraph]; nofun) fun i set hset => (hrows i set hset).typed

theorem Says.unique {S : Scene} {a b : Entailment} (h : c.Says S a) (h' : c.Says S b) : a = b := by
  have hviolated := h.violated.trans h'.violated.symm
  have hentailed := h.entailed.trans h'.entailed.symm
  cases a <;> cases b <;> simp_all

/-- A clash persists when the domains shrink. -/
theorem Clashes.within {S S' : Scene} {g set : Var} {i : Nat} (h : Clashes S g i set)
    (ht : TypedRow S g i set) (hle : Scene.Within S' S) : Clashes S' g i set := by
  obtain ⟨⟨m, b, hset⟩, n, d, hg, -⟩ := ht
  obtain ⟨j, h⟩ := h
  refine ⟨j, h.imp (fun ⟨hj, hno⟩ => ⟨hle.inKernel hj, fun hin => hno ?_⟩)
    fun ⟨hj, hno⟩ => ⟨hle.inKernel hj, fun hin => hno ?_⟩⟩
  · exact hle.inEnvelope (by rw [hg]; nofun) hin
  · exact hle.inEnvelope (by rw [hset]; nofun) hin

/-- A row that clashes does not agree. -/
theorem Clashes.not_agrees {S : Scene} {g set : Var} {i : Nat} (h : Clashes S g i set)
    (hwf : ∀ v D, S v = some D → D.Wf) : ¬Agrees S g i set := by
  intro ha
  obtain ⟨j, ⟨hj, hno⟩ | ⟨hj, hno⟩⟩ := h
  · exact hno (inEnvelope_of_inKernel hwf ((ha j).1.1 hj))
  · exact hno (inEnvelope_of_inKernel hwf ((ha j).1.2 hj))

theorem Clashes.congr {S S' : Scene} {g set : Var} (hg : S' g = S g) (hset : S' set = S set)
    (i : Nat) : Clashes S' g i set ↔ Clashes S g i set := by
  simp only [Clashes, InKernel, InEnvelope, hg, hset]

theorem Says.within {S S' : Scene} (h : c.Says S .entailed) (hle : Scene.Within S' S) :
    c.Says S' .entailed := by
  obtain ⟨hno, hfixed⟩ := h.entailed.1 rfl
  have hsame : ∀ v ∈ c.graph :: c.sets.toList, S' v = S v := by
    intro v hv
    obtain ⟨D, hD, hf⟩ := hfixed v hv
    obtain ⟨C, hC, hwf, hCD⟩ := hle v D hD
    rw [hC, hD, hf.eq_of_within hwf hCD]
  have hno' : ∀ i set, c.sets[i]? = some set → ¬Clashes S' c.graph i set := fun i set hset =>
    mt (Clashes.congr (hsame _ List.mem_cons_self) (hsame _ (mem_vars hset)) i).1 (hno i set hset)
  refine ⟨iff_of_false (by rintro ⟨⟩) fun ⟨i, set, hset, h⟩ => hno' i set hset h,
    iff_of_true rfl ⟨hno', fun v hv => ?_⟩⟩
  rw [hsame v hv]
  exact hfixed v hv

/-- A channel without clashes, between fixed domains, is stable. -/
theorem Says.stable {S : Scene} (h : c.Says S .entailed) : c.Stable S := by
  obtain ⟨hno, hfixed⟩ := h.entailed.1 rfl
  have hsame : ∀ v ∈ c.graph :: c.sets.toList, ∀ e, InEnvelope S v e ↔ InKernel S v e := by
    intro v hv e
    obtain ⟨D, hD, hf⟩ := hfixed v hv
    rw [inKernel_iff hD, inEnvelope_iff hD, Dom.Fixed.kernel_eq hf]
  intro i set hset j
  have hi : ∀ j, ¬(InKernel S set (.value j) ∧ ¬InEnvelope S c.graph (.arc i j)) ∧
      ¬(InKernel S c.graph (.arc i j) ∧ ¬InEnvelope S set (.value j)) := by
    simpa [Clashes, not_or] using hno i set hset
  obtain ⟨hi, hi'⟩ := hi j
  rw [hsame set (mem_vars hset)] at hi' ⊢
  rw [hsame c.graph List.mem_cons_self] at hi ⊢
  exact ⟨⟨fun h => not_not.1 fun hn => hi ⟨h, hn⟩, fun h => not_not.1 fun hn => hi' ⟨h, hn⟩⟩,
    ⟨fun h => not_not.1 fun hn => hi ⟨h, hn⟩, fun h => not_not.1 fun hn => hi' ⟨h, hn⟩⟩⟩

end GraphChannel

end Propagation
