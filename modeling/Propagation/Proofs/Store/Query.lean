import Propagation.Proofs.Store.Scene

/-!
# What the queries of a store answer

On a valid store the answer of each query is a function of the scene. Integer queries may overflow;
apart from that a query fails iff the variable is dead, or not of the kind of the query.
-/

set_option autoImplicit false

namespace Propagation

namespace Dom

/-- The kind of a domain. -/
def kindOf : Dom → Kind
  | .int _ => .int
  | .set _ _ => .set
  | .graph _ _ => .graph

theorem kindOf_eq_int {D : Dom} (h : D.kindOf = .int) : ∃ vs, D = .int vs := by
  cases D with
  | int vs => exact ⟨vs, rfl⟩
  | set n b => cases h
  | graph n b => cases h

theorem kindOf_eq_set {D : Dom} (h : D.kindOf = .set) : ∃ n b, D = .set n b := by
  cases D with
  | int vs => cases h
  | set n b => exact ⟨n, b, rfl⟩
  | graph n b => cases h

theorem kindOf_eq_graph {D : Dom} (h : D.kindOf = .graph) : ∃ n b, D = .graph n b := by
  cases D with
  | int vs => cases h
  | set n b => cases h
  | graph n b => exact ⟨n, b, rfl⟩

/-- The domain has one value left. -/
def Fixed : Dom → Prop
  | .int vs => vs.card = 1
  | .set _ b => b.kernel = b.envelope
  | .graph _ b => b.kernel = b.envelope

instance : DecidablePred Fixed := fun D => by
  cases D <;> exact inferInstanceAs (Decidable (_ = _))

end Dom

namespace Store

/-- The values among the elements `es`. -/
def valuesOf (es : Finset Element) : Finset Nat :=
  es.biUnion fun e => match e with
    | .value a => {a}
    | _ => ∅

/-- The heads of the arcs from `i` among the elements `es`. -/
def targetsOf (es : Finset Element) (i : Nat) : Finset Nat :=
  es.biUnion fun e => match e with
    | .arc k j => if k = i then {j} else ∅
    | _ => ∅

@[simp] theorem mem_valuesOf {es : Finset Element} {a : Nat} :
    a ∈ valuesOf es ↔ Element.value a ∈ es := by
  rw [valuesOf, Finset.mem_biUnion]
  constructor
  · rintro ⟨e, he, ha⟩
    cases e with
    | value b => rwa [Finset.mem_singleton.1 ha]
    | node i => cases ha
    | arc i j => cases ha
  · exact fun h => ⟨_, h, Finset.mem_singleton_self a⟩

@[simp] theorem mem_targetsOf {es : Finset Element} {i j : Nat} :
    j ∈ targetsOf es i ↔ Element.arc i j ∈ es := by
  rw [targetsOf, Finset.mem_biUnion]
  constructor
  · rintro ⟨e, he, hj⟩
    cases e with
    | value b => cases hj
    | node k => cases hj
    | arc k l =>
      change j ∈ if k = i then {l} else ∅ at hj
      by_cases hk : k = i
      · rw [if_pos hk] at hj
        rwa [Finset.mem_singleton.1 hj, ← hk]
      · rw [if_neg hk] at hj
        cases hj
  · exact fun h => ⟨_, h, by simp⟩

/-- Sorting a list without duplicates gives the `Finset.sort` of its elements. -/
theorem mergeSort_eq {α : Type} [LinearOrder α] {vs : List α} (hnd : vs.Nodup) {S : Finset α}
    (h : ∀ v, v ∈ vs ↔ v ∈ S) : vs.mergeSort (fun a b => decide (a ≤ b)) = S.sort := by
  have hperm := List.mergeSort_perm vs fun a b => decide (a ≤ b)
  have hfin : (vs.mergeSort fun a b => decide (a ≤ b)).toFinset = S := by
    ext v
    rw [List.mem_toFinset, hperm.mem_iff, h]
  rw [← hfin, eq_comm, List.toFinset_sort (· ≤ ·) (hperm.nodup_iff.2 hnd)]
  exact List.pairwise_mergeSort' (· ≤ ·) vs

theorem ascending_eq {vs : List Nat} (hnd : vs.Nodup) {S : Finset Nat}
    (h : ∀ v, v ∈ vs ↔ v ∈ S) : ascending vs = S.sort := mergeSort_eq hnd h

/-- `List.mergeSort` is defined by well-founded recursion, which `decide` cannot evaluate; the
insertion sort is structural. -/
theorem ascending_eq_insertionSort (ns : List Nat) : ascending ns = ns.insertionSort (· ≤ ·) :=
  List.mergeSort_eq_insertionSort (· ≤ ·) ns

variable {s : Store} {v : Var} {D : Dom}

/-! ## The kind of a variable -/

section
variable (hs : s.Valid)
include hs

theorem Valid.ints_eq {vs : Finset Int} (hv : s.scene v = some (.int vs)) :
    ∃ r x, s.ints v = .ok r ∧ s.domains[v.id]? = some (.int r) ∧
      s.trail.view.sparse r.index = some x ∧ x.values = vs := by
  obtain ⟨d, hdom, hd, hD⟩ := hs.domain_eq hv
  cases d with
  | int r =>
    obtain ⟨x, hx, he⟩ := Option.map_eq_some_iff.1 hD
    refine ⟨r, x, ?_, hd, hx, Dom.int.inj he⟩
    rw [ints, hdom]
    rfl
  | set r =>
    obtain ⟨x, -, he⟩ := Option.map_eq_some_iff.1 hD
    cases he
  | graph nodes rows =>
    rw [Domain.resolve] at hD
    split at hD
    · obtain ⟨x, -, he⟩ := Option.map_eq_some_iff.1 hD
      cases he
    · cases hD

theorem Valid.elements_eq {n : Nat} {b : Bounds} (hv : s.scene v = some (.set n b)) :
    ∃ r x, s.elements v = .ok r ∧ s.domains[v.id]? = some (.set r) ∧
      s.trail.view.bounded r.index = some x ∧ x.capacity = n ∧
      (∀ a, Element.value a ∈ b.kernel ↔ a ∈ x.kernel) ∧
      ∀ a, Element.value a ∈ b.envelope ↔ a ∈ x.envelope := by
  obtain ⟨d, hdom, hd, hD⟩ := hs.domain_eq hv
  cases d with
  | int r =>
    obtain ⟨x, -, he⟩ := Option.map_eq_some_iff.1 hD
    cases he
  | set r =>
    obtain ⟨x, hx, he⟩ := Option.map_eq_some_iff.1 hD
    cases he
    refine ⟨r, x, ?_, hd, hx, rfl, fun a => by simp, fun a => by simp⟩
    rw [elements, hdom]
    rfl
  | graph nodes rows =>
    rw [Domain.resolve] at hD
    split at hD
    · obtain ⟨x, -, he⟩ := Option.map_eq_some_iff.1 hD
      cases he
    · cases hD

theorem Valid.graph_eq {n : Nat} {b : Bounds} (hv : s.scene v = some (.graph n b)) :
    ∃ nodes rows x, s.graph v = .ok (nodes, rows) ∧
      s.domains[v.id]? = some (.graph nodes rows) ∧ rows.size = n ∧
      s.trail.view.bounded nodes.index = some x ∧ x.capacity = n ∧
      (∀ i, Element.node i ∈ b.kernel ↔ i ∈ x.kernel) ∧
      (∀ i, Element.node i ∈ b.envelope ↔ i ∈ x.envelope) ∧
      ∀ i r, rows[i]? = some r → ∃ y, s.trail.view.bounded r.index = some y ∧ y.capacity = n ∧
        (∀ j, Element.arc i j ∈ b.kernel ↔ j ∈ y.kernel) ∧
        ∀ j, Element.arc i j ∈ b.envelope ↔ j ∈ y.envelope := by
  obtain ⟨d, hdom, hd, hD⟩ := hs.domain_eq hv
  cases d with
  | int r =>
    obtain ⟨x, -, he⟩ := Option.map_eq_some_iff.1 hD
    cases he
  | set r =>
    obtain ⟨x, -, he⟩ := Option.map_eq_some_iff.1 hD
    cases he
  | graph nodes rows =>
    have hmem := Domain.mem_resolve hD
    rw [Domain.resolve] at hD
    split at hD
    · next hcap =>
      obtain ⟨x, hx, he⟩ := Option.map_eq_some_iff.1 hD
      have hx' := hcap _ List.mem_cons_self
      rw [hx] at hx'
      have hn : rows.size = n := by cases he; rfl
      have hgraph : s.graph v = .ok (nodes, rows) := by
        rw [graph, hdom]
        rfl
      refine ⟨nodes, rows, x, hgraph, hd, hn, hx, hn ▸ Option.some.inj hx', fun i => ?_,
        fun i => ?_, fun i r hr => ?_⟩
      · exact (hmem (.node i)).1.trans (by simp [Domain.slot, hx])
      · exact (hmem (.node i)).2.trans (by simp [Domain.slot, hx])
      · have hr' := hcap r.index (List.mem_cons_of_mem _ (List.mem_map_of_mem
          (Array.mem_toList_iff.2 (Array.mem_of_getElem? hr))))
        obtain ⟨y, hy, hycap⟩ := Option.map_eq_some_iff.1 hr'
        refine ⟨y, hy, hycap.trans hn, fun j => ?_, fun j => ?_⟩
        · exact (hmem (.arc i j)).1.trans (by simp [Domain.slot, hr, hy])
        · exact (hmem (.arc i j)).2.trans (by simp [Domain.slot, hr, hy])
    · cases hD

omit hs in
/-- The representation of a domain is of the kind of its meaning. -/
theorem kind_of_scene {d : Domain} (hd : s.domains[v.id]? = some d) (hv : s.scene v = some D) :
    ((∃ r, d = .int r) ↔ ∃ vs, D = .int vs) ∧ ((∃ r, d = .set r) ↔ ∃ n b, D = .set n b) ∧
      ((∃ g rs, d = .graph g rs) ↔ ∃ n b, D = .graph n b) := by
  obtain ⟨-, d', hd', hD⟩ := scene_eq_some.1 hv
  rw [hd] at hd'
  cases hd'
  cases d with
  | int r => obtain ⟨x, -, rfl⟩ := Option.map_eq_some_iff.1 hD; simp
  | set r => obtain ⟨x, -, rfl⟩ := Option.map_eq_some_iff.1 hD; simp
  | graph nodes rows =>
    rw [Domain.resolve] at hD
    split at hD
    · obtain ⟨x, -, rfl⟩ := Option.map_eq_some_iff.1 hD; simp
    · cases hD

theorem Valid.ints_error (h : ∀ D, s.scene v = some D → D.kindOf ≠ .int) :
    ∃ k, s.ints v = .error (.violation k) := by
  cases hv : s.scene v with
  | none => exact ⟨_, by rw [ints, hs.domain_dead hv]; rfl⟩
  | some D =>
    obtain ⟨d, hdom, hd, -⟩ := hs.domain_eq hv
    have hkind := (kind_of_scene hd hv).1
    refine ⟨.wrongKind .int v, ?_⟩
    rw [ints, hdom]
    cases d with
    | int r =>
      obtain ⟨vs, rfl⟩ := hkind.1 ⟨r, rfl⟩
      exact absurd rfl (h _ hv)
    | set r => rfl
    | graph nodes rows => rfl

theorem Valid.elements_error (h : ∀ D, s.scene v = some D → D.kindOf ≠ .set) :
    ∃ k, s.elements v = .error (.violation k) := by
  cases hv : s.scene v with
  | none => exact ⟨_, by rw [elements, hs.domain_dead hv]; rfl⟩
  | some D =>
    obtain ⟨d, hdom, hd, -⟩ := hs.domain_eq hv
    have hkind := (kind_of_scene hd hv).2.1
    refine ⟨.wrongKind .set v, ?_⟩
    rw [elements, hdom]
    cases d with
    | int r => rfl
    | set r =>
      obtain ⟨n, b, rfl⟩ := hkind.1 ⟨r, rfl⟩
      exact absurd rfl (h _ hv)
    | graph nodes rows => rfl

theorem Valid.graph_error (h : ∀ D, s.scene v = some D → D.kindOf ≠ .graph) :
    ∃ k, s.graph v = .error (.violation k) := by
  cases hv : s.scene v with
  | none => exact ⟨_, by rw [graph, hs.domain_dead hv]; rfl⟩
  | some D =>
    obtain ⟨d, hdom, hd, -⟩ := hs.domain_eq hv
    have hkind := (kind_of_scene hd hv).2.2
    refine ⟨.wrongKind .graph v, ?_⟩
    rw [graph, hdom]
    cases d with
    | int r => rfl
    | set r => rfl
    | graph nodes rows =>
      obtain ⟨n, b, rfl⟩ := hkind.1 ⟨nodes, rows, rfl⟩
      exact absurd rfl (h _ hv)

/-! ## Integers -/

section
variable {vs : Finset Int} (hv : s.scene v = some (.int vs))
include hv

theorem Valid.contains_of_mem {a : Int} (ha : a ∈ vs) : s.contains v a = .ok true := by
  obtain ⟨r, x, hr, -, hx, rfl⟩ := hs.ints_eq hv
  rw [contains, hr]
  exact SparseRef.contains_of_mem hs.trail hx ha

theorem Valid.contains_eq (a : Int) :
    s.contains v a = .ok (decide (a ∈ vs)) ∨ s.contains v a = .error .overflow := by
  obtain ⟨r, x, hr, -, hx, rfl⟩ := hs.ints_eq hv
  have h : s.contains v a = r.contains a s.trail := by
    rw [contains, hr]
    rfl
  rw [h, SparseRef.contains_eq hs.trail hx]
  cases hc : Checked.int (a - x.offset) with
  | ok b => exact .inl rfl
  | error e =>
    rw [Checked.int_eq_error hc]
    exact .inr rfl

theorem Valid.isFixed_eq : s.isFixed v = .ok (decide (vs.card = 1)) := by
  obtain ⟨r, x, hr, -, hx, rfl⟩ := hs.ints_eq hv
  rw [isFixed, size, hr]
  show (do let n ← r.size s.trail; Except.ok (n == 1)) = _
  rw [SparseRef.size_eq hs.trail hx, SparseView.card_values]
  rfl

theorem Valid.min_checked {a : Int} (ha : IsLeast (vs : Set Int) a) :
    s.min v = (Checked.int a).map some := by
  obtain ⟨r, x, hr, -, hx, rfl⟩ := hs.ints_eq hv
  rw [min, hr]
  exact SparseRef.min_eq hs.trail hx ha

theorem Valid.max_checked {a : Int} (ha : IsGreatest (vs : Set Int) a) :
    s.max v = (Checked.int a).map some := by
  obtain ⟨r, x, hr, -, hx, rfl⟩ := hs.ints_eq hv
  rw [max, hr]
  exact SparseRef.max_eq hs.trail hx ha

theorem Valid.min_eq {a : Int} (ha : IsLeast (vs : Set Int) a) :
    s.min v = .ok (some a) ∨ s.min v = .error .overflow := by
  rw [hs.min_checked hv ha]
  exact (Checked.int_cases a).imp (fun h => by rw [h]; rfl) fun h => by rw [h]; rfl

theorem Valid.max_eq {a : Int} (ha : IsGreatest (vs : Set Int) a) :
    s.max v = .ok (some a) ∨ s.max v = .error .overflow := by
  rw [hs.max_checked hv ha]
  exact (Checked.int_cases a).imp (fun h => by rw [h]; rfl) fun h => by rw [h]; rfl

end

/-! ## Kernels and envelopes -/

theorem Valid.kernelOf_eq {r : BoundedRef} {x : BoundedView}
    (hx : s.trail.view.bounded r.index = some x) : s.kernelOf r = .ok x.kernel.sort := by
  obtain ⟨vs, hvs, hnd, hmem⟩ := BoundedRef.kernel_eq hs.trail hx
  rw [kernelOf, hvs]
  exact congrArg _ (ascending_eq hnd hmem)

theorem Valid.envelopeOf_eq {r : BoundedRef} {x : BoundedView}
    (hx : s.trail.view.bounded r.index = some x) : s.envelopeOf r = .ok x.envelope.sort := by
  obtain ⟨vs, hvs, hnd, hmem⟩ := BoundedRef.envelope_eq hs.trail hx
  rw [envelopeOf, hvs]
  exact congrArg _ (ascending_eq hnd hmem)

section
variable {n : Nat} {b : Bounds} (hv : s.scene v = some (.set n b))
include hv

theorem Valid.kernelContains_eq (a : Nat) :
    s.kernelContains v a = .ok (decide (Element.value a ∈ b.kernel)) := by
  obtain ⟨r, x, hr, -, hx, -, hk, -⟩ := hs.elements_eq hv
  rw [kernelContains, hr]
  simp only [hk]
  exact BoundedRef.kernelContains_eq hs.trail hx a

theorem Valid.envelopeContains_eq (a : Nat) :
    s.envelopeContains v a = .ok (decide (Element.value a ∈ b.envelope)) := by
  obtain ⟨r, x, hr, -, hx, -, -, he⟩ := hs.elements_eq hv
  rw [envelopeContains, hr]
  simp only [he]
  exact BoundedRef.envelopeContains_eq hs.trail hx a

theorem Valid.kernelValues_eq : s.kernelValues v = .ok (valuesOf b.kernel).sort := by
  obtain ⟨r, x, hr, -, hx, -, hk, -⟩ := hs.elements_eq hv
  have hset : valuesOf b.kernel = x.kernel := by
    ext a
    rw [mem_valuesOf, hk]
  rw [kernelValues, hr, hset]
  exact hs.kernelOf_eq hx

theorem Valid.envelopeValues_eq : s.envelopeValues v = .ok (valuesOf b.envelope).sort := by
  obtain ⟨r, x, hr, -, hx, -, -, he⟩ := hs.elements_eq hv
  have hset : valuesOf b.envelope = x.envelope := by
    ext a
    rw [mem_valuesOf, he]
  rw [envelopeValues, hr, hset]
  exact hs.envelopeOf_eq hx

theorem Valid.groundSize_eq : s.groundSize v = .ok n := by
  obtain ⟨r, x, hr, -, hx, rfl, -⟩ := hs.elements_eq hv
  rw [groundSize, hr]
  exact BoundedRef.capacity_eq hs.trail hx

end

section
variable {n : Nat} {b : Bounds} (hv : s.scene v = some (.graph n b))
include hv

theorem Valid.nodeCount_eq : s.nodeCount v = .ok n := by
  obtain ⟨nodes, rows, x, hg, -, rfl, -⟩ := hs.graph_eq hv
  rw [nodeCount, hg]
  rfl

theorem Valid.nodeInKernel_eq (i : Nat) :
    s.nodeInKernel v i = .ok (decide (Element.node i ∈ b.kernel)) := by
  obtain ⟨nodes, rows, x, hg, -, -, hx, -, hk, -⟩ := hs.graph_eq hv
  rw [nodeInKernel, Store.nodes, hg]
  simp only [hk]
  exact BoundedRef.kernelContains_eq hs.trail hx i

theorem Valid.nodeInEnvelope_eq (i : Nat) :
    s.nodeInEnvelope v i = .ok (decide (Element.node i ∈ b.envelope)) := by
  obtain ⟨nodes, rows, x, hg, -, -, hx, -, -, he, -⟩ := hs.graph_eq hv
  rw [nodeInEnvelope, Store.nodes, hg]
  simp only [he]
  exact BoundedRef.envelopeContains_eq hs.trail hx i

theorem Valid.successors_eq {i : Nat} (hi : i < n) :
    ∃ r y, s.successors v i = .ok r ∧ s.trail.view.bounded r.index = some y ∧ y.capacity = n ∧
      (∃ nodes rows, s.domains[v.id]? = some (.graph nodes rows) ∧ rows[i]? = some r) ∧
      (∀ j, Element.arc i j ∈ b.kernel ↔ j ∈ y.kernel) ∧
      ∀ j, Element.arc i j ∈ b.envelope ↔ j ∈ y.envelope := by
  obtain ⟨nodes, rows, x, hg, hd, rfl, -, -, -, -, hrows⟩ := hs.graph_eq hv
  obtain ⟨y, hy, hcap, hk, he⟩ := hrows i _ (Array.getElem?_eq_getElem hi)
  refine ⟨rows[i], y, ?_, hy, hcap, ⟨nodes, rows, hd, Array.getElem?_eq_getElem hi⟩, hk, he⟩
  rw [successors, hg]
  simp only [bind, Except.bind, Array.getElem?_eq_getElem hi]

theorem Valid.successors_error {i : Nat} (hi : ¬i < n) :
    s.successors v i = .error (.violation (.noNode v i)) := by
  obtain ⟨nodes, rows, x, hg, -, rfl, -⟩ := hs.graph_eq hv
  rw [successors, hg]
  simp only [bind, Except.bind, Array.getElem?_eq_none (Nat.le_of_not_lt hi)]

theorem Valid.arcInKernel_eq (i j : Nat) :
    s.arcInKernel v i j = .ok (decide (Element.arc i j ∈ b.kernel)) := by
  have hwf : b.Wf (Element.OfGraph n) := hs.wf hv
  rw [arcInKernel, hs.nodeCount_eq hv]
  simp only [bind, Except.bind]
  by_cases hi : i < n
  · obtain ⟨r, y, hr, hy, -, -, hk, -⟩ := hs.successors_eq hv hi
    rw [if_pos hi, hr]
    simp only [hk]
    exact BoundedRef.kernelContains_eq hs.trail hy j
  · rw [if_neg hi, decide_eq_false]
    exact fun h => hi (hwf.ground _ (hwf.kernel_subset h)).1

theorem Valid.arcInEnvelope_eq (i j : Nat) :
    s.arcInEnvelope v i j = .ok (decide (Element.arc i j ∈ b.envelope)) := by
  have hwf : b.Wf (Element.OfGraph n) := hs.wf hv
  rw [arcInEnvelope, hs.nodeCount_eq hv]
  simp only [bind, Except.bind]
  by_cases hi : i < n
  · obtain ⟨r, y, hr, hy, -, -, -, he⟩ := hs.successors_eq hv hi
    rw [if_pos hi, hr]
    simp only [he]
    exact BoundedRef.envelopeContains_eq hs.trail hy j
  · rw [if_neg hi, decide_eq_false]
    exact fun h => hi (hwf.ground _ h).1

theorem Valid.kernelSuccessors_eq {i : Nat} (hi : i < n) :
    s.kernelSuccessors v i = .ok (targetsOf b.kernel i).sort := by
  obtain ⟨r, y, hr, hy, -, -, hk, -⟩ := hs.successors_eq hv hi
  have hset : targetsOf b.kernel i = y.kernel := by
    ext j
    rw [mem_targetsOf, hk]
  rw [kernelSuccessors, hr, hset]
  exact hs.kernelOf_eq hy

theorem Valid.envelopeSuccessors_eq {i : Nat} (hi : i < n) :
    s.envelopeSuccessors v i = .ok (targetsOf b.envelope i).sort := by
  obtain ⟨r, y, hr, hy, -, -, -, he⟩ := hs.successors_eq hv hi
  have hset : targetsOf b.envelope i = y.envelope := by
    ext j
    rw [mem_targetsOf, he]
  rw [envelopeSuccessors, hr, hset]
  exact hs.envelopeOf_eq hy

end

end

/-! ## Any variable -/

theorem allInstantiated_eq {t : Trail} (ht : t.Valid) {rs : List BoundedRef} {P : Prop}
    [Decidable P] (hP : P ↔ ∀ r ∈ rs, ∃ x, t.view.bounded r.index = some x ∧
      x.kernel = x.envelope) (hrs : ∀ r ∈ rs, t.view.bounded r.index ≠ none) :
    allInstantiated t rs = .ok (decide P) := by
  induction rs generalizing P with
  | nil => simp [allInstantiated, hP]
  | cons r rs ih =>
    obtain ⟨x, hx⟩ := Option.ne_none_iff_exists'.1 (hrs r List.mem_cons_self)
    rw [allInstantiated, BoundedRef.isInstantiated_eq ht hx]
    by_cases h : x.kernel = x.envelope
    · have hrest := ih (P := P) (hP.trans (by simp [hx, h])) fun r hr =>
        hrs r (List.mem_cons_of_mem _ hr)
      simpa [h, bind, Except.bind] using hrest
    · have hno : ¬P := fun hp => by
        obtain ⟨y, hy, hyx⟩ := hP.1 hp r List.mem_cons_self
        cases hx.symm.trans hy
        exact h hyx
      simp [h, hno, bind, Except.bind]

/-- `isInstantiated` answers whether the domain is `Fixed`. -/
theorem Valid.isInstantiated_eq (hs : s.Valid) (hv : s.scene v = some D) :
    s.isInstantiated v = .ok (decide D.Fixed) := by
  have hwf := hs.wf hv
  obtain ⟨d, hdom, hd, -⟩ := hs.domain_eq hv
  rw [isInstantiated, hdom]
  cases D with
  | int vs =>
    obtain ⟨r, x, -, hr, hx, rfl⟩ := hs.ints_eq hv
    cases hd.symm.trans hr
    show (do let n ← r.size s.trail; Except.ok (n == 1)) = _
    rw [SparseRef.size_eq hs.trail hx, ← SparseView.card_values]
    rfl
  | set n b =>
    obtain ⟨r, x, -, hr, hx, -, hk, he⟩ := hs.elements_eq hv
    cases hd.symm.trans hr
    refine (BoundedRef.isInstantiated_eq hs.trail hx).trans (congrArg _ (decide_eq_decide.2 ?_))
    refine ⟨fun h => Finset.Subset.antisymm hwf.kernel_subset fun e hmem => ?_, fun h => ?_⟩
    · cases e with
      | value a => exact (hk a).2 (h ▸ (he a).1 hmem)
      | node i => exact (hwf.ground hmem).elim
      | arc i j => exact (hwf.ground hmem).elim
    · ext a
      rw [← hk, ← he, show b.kernel = b.envelope from h]
  | graph n b =>
    obtain ⟨nodes, rows, x, -, hr, hsize, hx, -, hk, he, hrows⟩ := hs.graph_eq hv
    cases hd.symm.trans hr
    refine allInstantiated_eq hs.trail ⟨fun h r hr => ?_, fun h => ?_⟩ fun r hr => ?_
    · rcases List.mem_cons.1 hr with rfl | hr
      · refine ⟨x, hx, ?_⟩
        ext i
        rw [← hk, ← he, show b.kernel = b.envelope from h]
      · obtain ⟨i, hi⟩ := Array.mem_iff_getElem?.1 (Array.mem_toList_iff.1 hr)
        obtain ⟨y, hy, -, hky, hey⟩ := hrows i r hi
        refine ⟨y, hy, ?_⟩
        ext j
        rw [← hky, ← hey, show b.kernel = b.envelope from h]
    · refine Finset.Subset.antisymm hwf.kernel_subset fun e hmem => ?_
      cases e with
      | value a => exact (hwf.ground hmem).elim
      | node i =>
        obtain ⟨y, hy, hyeq⟩ := h nodes List.mem_cons_self
        cases hx.symm.trans hy
        exact (hk i).2 (hyeq ▸ (he i).1 hmem)
      | arc i j =>
        have hi : i < rows.size := hsize ▸ (hwf.ground hmem).1
        obtain ⟨y, hy, hyeq⟩ := h rows[i] (List.mem_cons_of_mem _ (by simp))
        obtain ⟨z, hz, -, hkz, hez⟩ := hrows i _ (Array.getElem?_eq_getElem hi)
        cases hz.symm.trans hy
        exact (hkz j).2 (hyeq ▸ (hez j).1 hmem)
    · rcases List.mem_cons.1 hr with rfl | hr
      · rw [hx]
        simp
      · obtain ⟨i, hi⟩ := Array.mem_iff_getElem?.1 (Array.mem_toList_iff.1 hr)
        obtain ⟨y, hy, -⟩ := hrows i r hi
        rw [hy]
        simp
/-! ## Logs -/

/-- `logOf` is the list of the log that `delta` returns. -/
theorem logOf_of_delta {l : DeltaLog} (h : s.delta v = .ok l) : s.logOf v = l.toList := by
  rw [Store.delta] at h
  cases hv : s.checkAlive v with
  | error e =>
    rw [hv] at h
    cases h
  | ok u =>
    rw [hv] at h
    rw [Store.logOf, Checked.fetch_eq_ok.1 h]
    rfl

/-- `delta` succeeds on a live variable. -/
theorem Valid.delta_eq (hs : s.Valid) (hv : s.scene v ≠ none) :
    ∃ l, s.delta v = .ok l ∧ l.toList = s.logOf v := by
  obtain ⟨D, hD⟩ := Option.ne_none_iff_exists'.1 hv
  obtain ⟨hlt, -⟩ := scene_eq_some.1 hD
  have hsize : v.id < s.logs.size := by
    have := hs.now.countIn_eq.2.2
    have := hs.logs_size
    omega
  have hdelta : s.delta v = .ok s.logs[v.id] := by
    rw [delta, checkAlive, hs.varCount_eq, if_pos hlt]
    exact Checked.fetch_eq_ok.2 (Array.getElem?_eq_getElem hsize)
  exact ⟨_, hdelta, (logOf_of_delta hdelta).symm⟩

theorem Valid.delta_dead (hs : s.Valid) (hv : s.scene v = none) :
    s.delta v = .error (.violation (.deadVar v)) := by
  have hlt : ¬v.id < s.varCount := by
    rw [hs.varCount_eq, ← hs.now.isSome_sceneIn v]
    show ¬(s.scene v).isSome
    rw [hv]
    exact Bool.false_ne_true
  rw [delta, checkAlive, if_neg hlt]
  rfl

theorem delta_congr {s' : Store} (hs : s.Valid) (hs' : s'.Valid) (hscene : s'.scene v = s.scene v)
    (hlog : s'.logOf v = s.logOf v) : s'.delta v = s.delta v := by
  by_cases hv : s.scene v = none
  · rw [hs.delta_dead hv, hs'.delta_dead (hscene.trans hv)]
  · obtain ⟨⟨l⟩, hl, hlist⟩ := hs.delta_eq hv
    obtain ⟨⟨l'⟩, hl', hlist'⟩ := hs'.delta_eq (hscene ▸ hv)
    have heq : l' = l := Array.toList_inj.1 (hlist'.trans (hlog.trans hlist.symm))
    rw [hl, hl', heq]

end Store

end Propagation
