import Propagation.Proofs.Store.Snapshot

/-!
# What a store shows of a variable

`Store.Shows` is the domain of a variable as its queries determine it. There is only one such domain
(`Shows.unique`), and a valid store shows for each live variable the domain of its scene
(`Valid.shows`).
-/

set_option autoImplicit false

namespace Propagation

/-- The kind of a variable with this domain. -/
def Domain.kind : Domain → Kind
  | .int _ => .int
  | .set _ => .set
  | .graph _ _ => .graph

namespace Store

/-- The queries answer that the variable has this domain: for integers their number and which they
are, and for a set or a graph its ground set and the elements in the kernel and in the envelope. -/
inductive Shows (s : Store) (v : Var) : Dom → Prop
  | int {vs : Finset Int} (size : s.size v = .ok vs.card)
    (contains : ∀ a, a ∈ vs ↔ s.contains v a = .ok true) : Shows s v (.int vs)
  | set {n : Nat} {b : Bounds} (groundSize : s.groundSize v = .ok n)
    (kernel : s.kernelValues v = .ok (valuesOf b.kernel).sort)
    (envelope : s.envelopeValues v = .ok (valuesOf b.envelope).sort)
    (ground : ∀ e, e ∈ b.kernel ∨ e ∈ b.envelope → Element.OfSet n e) : Shows s v (.set n b)
  | graph {n : Nat} {b : Bounds} (nodeCount : s.nodeCount v = .ok n)
    (kernelNodes : s.kernelNodes v = .ok (Dom.nodesOf b.kernel).sort)
    (envelopeNodes : s.envelopeNodes v = .ok (Dom.nodesOf b.envelope).sort)
    (kernelArcs : ∀ i < n, s.kernelSuccessors v i = .ok (targetsOf b.kernel i).sort)
    (envelopeArcs : ∀ i < n, s.envelopeSuccessors v i = .ok (targetsOf b.envelope i).sort)
    (ground : ∀ e, e ∈ b.kernel ∨ e ∈ b.envelope → Element.OfGraph n e) : Shows s v (.graph n b)

variable {s : Store} {v : Var} {D D' : Dom}

/-! ## One domain -/

theorem sort_inj {S T : Finset Nat}
    (h : (Except.ok S.sort : Except Fault (List Nat)) = .ok T.sort) : S = T := by
  ext a
  rw [← Finset.mem_sort (· ≤ ·), Except.ok.inj h, Finset.mem_sort]

/-- Sets of values are determined by `valuesOf`. -/
theorem eq_of_values {n : Nat} {es fs : Finset Element} (he : ∀ e ∈ es, Element.OfSet n e)
    (hf : ∀ e ∈ fs, Element.OfSet n e) (h : valuesOf es = valuesOf fs) : es = fs := by
  ext e
  cases e with
  | value a => rw [← mem_valuesOf, h, mem_valuesOf]
  | node i => exact ⟨fun hi => (he _ hi).elim, fun hi => (hf _ hi).elim⟩
  | arc i j => exact ⟨fun hi => (he _ hi).elim, fun hi => (hf _ hi).elim⟩

/-- Sets of nodes and arcs are determined by `nodesOf` and `targetsOf`. -/
theorem eq_of_rows {n : Nat} {es fs : Finset Element} (he : ∀ e ∈ es, Element.OfGraph n e)
    (hf : ∀ e ∈ fs, Element.OfGraph n e) (hnodes : Dom.nodesOf es = Dom.nodesOf fs)
    (harcs : ∀ i < n, targetsOf es i = targetsOf fs i) : es = fs := by
  ext e
  cases e with
  | value a => exact ⟨fun ha => (he _ ha).elim, fun ha => (hf _ ha).elim⟩
  | node i => rw [← Dom.mem_nodesOf, hnodes, Dom.mem_nodesOf]
  | arc i j =>
    by_cases hi : i < n
    · rw [← mem_targetsOf, harcs i hi, mem_targetsOf]
    · exact ⟨fun h => absurd (he _ h).1 hi, fun h => absurd (hf _ h).1 hi⟩

theorem ints_eq_ok {r : SparseRef} (h : s.ints v = .ok r) : s.domain v = .ok (.int r) := by
  rw [ints] at h
  cases hd : s.domain v with
  | error f => rw [hd] at h; cases h
  | ok d =>
    rw [hd] at h
    cases d with
    | int q => cases h; rfl
    | set q => cases h
    | graph q rs => cases h

theorem elements_eq_ok {r : BoundedRef} (h : s.elements v = .ok r) :
    s.domain v = .ok (.set r) := by
  rw [elements] at h
  cases hd : s.domain v with
  | error f => rw [hd] at h; cases h
  | ok d =>
    rw [hd] at h
    cases d with
    | int q => cases h
    | set q => cases h; rfl
    | graph q rs => cases h

theorem graph_eq_ok {g : BoundedRef × Array BoundedRef} (h : s.graph v = .ok g) :
    s.domain v = .ok (.graph g.1 g.2) := by
  rw [graph] at h
  cases hd : s.domain v with
  | error f => rw [hd] at h; cases h
  | ok d =>
    rw [hd] at h
    cases d with
    | int q => cases h
    | set q => cases h
    | graph q rs => cases h; rfl

/-- A variable that shows `D` has a domain of the kind of `D`. -/
theorem Shows.domain (h : s.Shows v D) : ∃ d, s.domain v = .ok d ∧ d.kind = D.kindOf := by
  cases h with
  | int size =>
    obtain ⟨r, hr, -⟩ := Checked.exists_of_bind_eq_ok size
    exact ⟨_, ints_eq_ok hr, rfl⟩
  | set ground =>
    obtain ⟨r, hr, -⟩ := Checked.exists_of_bind_eq_ok ground
    exact ⟨_, elements_eq_ok hr, rfl⟩
  | graph count =>
    obtain ⟨g, hg, -⟩ := Checked.exists_of_bind_eq_ok count
    exact ⟨_, graph_eq_ok hg, rfl⟩

/-- A variable shows one domain only. -/
theorem Shows.unique (h : s.Shows v D) (h' : s.Shows v D') : D = D' := by
  have hkind : D.kindOf = D'.kindOf := by
    obtain ⟨d, hd, hk⟩ := h.domain
    obtain ⟨d', hd', hk'⟩ := h'.domain
    rw [hd] at hd'
    cases hd'
    exact hk.symm.trans hk'
  cases h with
  | @int vs size contains =>
    obtain ⟨vs', rfl⟩ := Dom.kindOf_eq_int hkind.symm
    cases h' with
    | int size' contains' =>
      refine congrArg Dom.int (Finset.ext fun a => ?_)
      rw [contains, contains']
  | @set n b groundSize kernel envelope ground =>
    obtain ⟨n', b', rfl⟩ := Dom.kindOf_eq_set hkind.symm
    cases h' with
    | set groundSize' kernel' envelope' ground' =>
      rw [groundSize] at groundSize'
      cases groundSize'
      rw [kernel] at kernel'
      rw [envelope] at envelope'
      have hk : b.kernel = b'.kernel := eq_of_values (fun e he => ground e (.inl he))
        (fun e he => ground' e (.inl he)) (sort_inj kernel')
      have he : b.envelope = b'.envelope := eq_of_values (fun e he => ground e (.inr he))
        (fun e he => ground' e (.inr he)) (sort_inj envelope')
      cases b
      cases b'
      cases hk
      cases he
      rfl
  | @graph n b nodeCount kernelNodes envelopeNodes kernelArcs envelopeArcs ground =>
    obtain ⟨n', b', rfl⟩ := Dom.kindOf_eq_graph hkind.symm
    cases h' with
    | graph nodeCount' kernelNodes' envelopeNodes' kernelArcs' envelopeArcs' ground' =>
      rw [nodeCount] at nodeCount'
      cases nodeCount'
      rw [kernelNodes] at kernelNodes'
      rw [envelopeNodes] at envelopeNodes'
      have hk : b.kernel = b'.kernel := eq_of_rows (fun e he => ground e (.inl he))
        (fun e he => ground' e (.inl he)) (sort_inj kernelNodes')
        fun i hi => sort_inj ((kernelArcs i hi).symm.trans (kernelArcs' i hi))
      have he : b.envelope = b'.envelope := eq_of_rows (fun e he => ground e (.inr he))
        (fun e he => ground' e (.inr he)) (sort_inj envelopeNodes')
        fun i hi => sort_inj ((envelopeArcs i hi).symm.trans (envelopeArcs' i hi))
      cases b
      cases b'
      cases hk
      cases he
      rfl

/-! ## Valid stores -/

/-- A valid store shows the domain of its scene. -/
theorem Valid.shows (hs : s.Valid) (hv : s.scene v = some D) : s.Shows v D := by
  have hwf := hs.wf hv
  have hground : ∀ e, e ∈ D.kernel ∨ e ∈ D.envelope → D.Ground e := fun e he =>
    hwf.ground (he.elim (fun hk => hwf.kernel_subset hk) id)
  cases D with
  | int vs =>
    obtain ⟨r, x, hr, -, hx, rfl⟩ := hs.ints_eq hv
    refine .int ?_ fun a => ⟨fun ha => hs.contains_of_mem hv ha, fun ha => ?_⟩
    · rw [size, hr, SparseView.card_values]
      exact SparseRef.size_eq hs.trail hx
    · rcases hs.contains_eq hv a with h | h
      · rw [ha] at h
        exact of_decide_eq_true (Except.ok.inj h).symm
      · rw [ha] at h
        cases h
  | set n b =>
    exact .set (hs.groundSize_eq hv) (hs.kernelValues_eq hv) (hs.envelopeValues_eq hv) hground
  | graph n b =>
    obtain ⟨nodes, rows, x, hg, -, -, hx, -, hk, he, -⟩ := hs.graph_eq hv
    have hnodes : s.nodes v = .ok nodes := by
      rw [Store.nodes, hg]
      rfl
    refine .graph (hs.nodeCount_eq hv) ?_ ?_ (fun i hi => hs.kernelSuccessors_eq hv hi)
      (fun i hi => hs.envelopeSuccessors_eq hv hi) hground
    · have hkernel : Dom.nodesOf b.kernel = x.kernel := by
        ext i
        rw [Dom.mem_nodesOf, hk]
      rw [kernelNodes, hnodes, hkernel]
      exact hs.kernelOf_eq hx
    · have henvelope : Dom.nodesOf b.envelope = x.envelope := by
        ext i
        rw [Dom.mem_nodesOf, he]
      rw [envelopeNodes, hnodes, henvelope]
      exact hs.envelopeOf_eq hx

/-- `Shows` is the scene of a valid store, and only holds of live variables. -/
theorem Valid.shows_iff (hs : s.Valid) : s.Shows v D ↔ s.scene v = some D := by
  refine ⟨fun h => ?_, hs.shows⟩
  cases hv : s.scene v with
  | none =>
    obtain ⟨d, hd, -⟩ := h.domain
    rw [hs.domain_dead hv] at hd
    cases hd
  | some E => rw [h.unique (hs.shows hv)]

/-- A variable for which `nodeCount` succeeds shows a graph. -/
theorem Valid.exists_shows_graph (hs : s.Valid) {n : Nat} (hn : s.nodeCount v = .ok n) :
    ∃ b, s.Shows v (.graph n b) := by
  obtain ⟨g, hg, -⟩ := Checked.exists_of_bind_eq_ok hn
  have hgraph : ∃ m b, s.scene v = some (.graph m b) := by
    by_contra hno
    obtain ⟨k, hk⟩ := hs.graph_error (v := v) fun D hD hkind => by
      obtain ⟨m, b, rfl⟩ := Dom.kindOf_eq_graph hkind
      exact hno ⟨m, b, hD⟩
    rw [hk] at hg
    cases hg
  obtain ⟨m, b, hb⟩ := hgraph
  obtain rfl : m = n := Except.ok.inj ((hs.nodeCount_eq hb).symm.trans hn)
  exact ⟨b, hs.shows hb⟩

end Store

end Propagation
