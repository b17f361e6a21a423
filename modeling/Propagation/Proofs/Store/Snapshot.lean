import Propagation.Proofs.Store.Query
import Propagation.Store.Snapshot

/-!
# Snapshots of a valid store

The snapshot of a variable is a function of its domain (`Dom.snapshot`), so stores with the same
scene have the same snapshots.
-/

set_option autoImplicit false

namespace Propagation

namespace Dom

/-- The nodes among the elements `es`. -/
def nodesOf (es : Finset Element) : Finset Nat :=
  es.biUnion fun e => match e with
    | .node i => {i}
    | _ => ∅

@[simp] theorem mem_nodesOf {es : Finset Element} {i : Nat} :
    i ∈ nodesOf es ↔ Element.node i ∈ es := by
  rw [nodesOf, Finset.mem_biUnion]
  constructor
  · rintro ⟨e, he, hi⟩
    cases e with
    | value b => cases hi
    | node k => rwa [Finset.mem_singleton.1 hi]
    | arc k l => cases hi
  · exact fun h => ⟨_, h, Finset.mem_singleton_self i⟩

/-- The arcs of a graph on `n` nodes, in ascending order. -/
def arcsOf (n : Nat) (es : Finset Element) : List (Nat × Nat) :=
  (List.range n).flatMap fun i => (Store.targetsOf es i).sort.map (i, ·)

/-- The snapshot of a variable with this domain: an overflow iff a value is not a machine integer.
-/
def snapshot : Dom → Except Fault Snapshot
  | .int vs =>
    if ∀ a ∈ vs, Checked.int a = .ok a then .ok (.int (vs.sort (· ≤ ·))) else .error .overflow
  | .set _ b => .ok (.set (Store.valuesOf b.kernel).sort (Store.valuesOf b.envelope).sort)
  | .graph n b => .ok (.graph (nodesOf b.kernel).sort (nodesOf b.envelope).sort
      (arcsOf n b.kernel) (arcsOf n b.envelope))

end Dom

namespace Store

variable {s : Store} {v : Var} {D : Dom}

/-- `arcsFrom` over the rows from the node `i` on, if each row is read as `g`. -/
theorem arcsFrom_eq {f : BoundedRef → Except Fault (List Nat)} {g : Nat → List Nat}
    {rows : List BoundedRef} {i : Nat}
    (h : ∀ k r, rows[k]? = some r → f r = .ok (g (i + k))) :
    arcsFrom f i rows = .ok ((List.range' i rows.length).flatMap fun j => (g j).map (j, ·)) := by
  induction rows generalizing i with
  | nil => rfl
  | cons r rs ih =>
    have hr := h 0 r rfl
    have hrs := ih (i := i + 1) fun k q hq => by
      have hq' := h (k + 1) q hq
      rwa [← Nat.add_assoc, Nat.add_right_comm] at hq'
    rw [arcsFrom, hr, hrs]
    rfl

/-- The snapshot of a variable is `Dom.snapshot` of its domain. -/
theorem Valid.snapshot_eq (hs : s.Valid) (hv : s.scene v = some D) :
    s.snapshot v = D.snapshot := by
  cases D with
  | int vs =>
    obtain ⟨r, x, hr, hd, hx, rfl⟩ := hs.ints_eq hv
    obtain ⟨d, hdom, hd', -⟩ := hs.domain_eq hv
    rw [hd] at hd'
    cases hd'
    obtain ⟨as, hnd, hmem, has⟩ := SparseRef.values_eq hs.trail hx
    rw [snapshot, hdom]
    simp only [bind, Except.bind, has, Dom.snapshot]
    by_cases hfit : ∀ a ∈ x.values, Checked.int a = .ok a
    · rw [if_pos hfit, if_pos hfit]
      exact congrArg (fun l => Except.ok (Snapshot.int l)) (mergeSort_eq hnd hmem)
    · rw [if_neg hfit, if_neg hfit]
  | set n b =>
    obtain ⟨r, x, hr, hd, hx, -, hk, he⟩ := hs.elements_eq hv
    obtain ⟨d, hdom, hd', -⟩ := hs.domain_eq hv
    rw [hd] at hd'
    cases hd'
    have hkernel : valuesOf b.kernel = x.kernel := by
      ext a
      rw [mem_valuesOf, hk]
    have henvelope : valuesOf b.envelope = x.envelope := by
      ext a
      rw [mem_valuesOf, he]
    rw [snapshot, hdom]
    simp only [bind, Except.bind, hs.kernelOf_eq hx, hs.envelopeOf_eq hx, Dom.snapshot, hkernel,
      henvelope]
  | graph n b =>
    obtain ⟨nodes, rows, x, -, hd, rfl, hx, -, hk, he, hrows⟩ := hs.graph_eq hv
    obtain ⟨d, hdom, hd', -⟩ := hs.domain_eq hv
    rw [hd] at hd'
    cases hd'
    have hkernel : Dom.nodesOf b.kernel = x.kernel := by
      ext a
      rw [Dom.mem_nodesOf, hk]
    have henvelope : Dom.nodesOf b.envelope = x.envelope := by
      ext a
      rw [Dom.mem_nodesOf, he]
    have hkarcs : arcsFrom s.kernelOf 0 rows.toList = .ok (Dom.arcsOf rows.size b.kernel) := by
      rw [Dom.arcsOf, List.range_eq_range', ← Array.length_toList]
      refine arcsFrom_eq fun i r hr => ?_
      obtain ⟨y, hy, -, hyk, -⟩ := hrows i r (by simpa using hr)
      rw [hs.kernelOf_eq hy, Nat.zero_add]
      congr 2
      ext j
      rw [mem_targetsOf, hyk]
    have hearcs : arcsFrom s.envelopeOf 0 rows.toList =
        .ok (Dom.arcsOf rows.size b.envelope) := by
      rw [Dom.arcsOf, List.range_eq_range', ← Array.length_toList]
      refine arcsFrom_eq fun i r hr => ?_
      obtain ⟨y, hy, -, -, hye⟩ := hrows i r (by simpa using hr)
      rw [hs.envelopeOf_eq hy, Nat.zero_add]
      congr 2
      ext j
      rw [mem_targetsOf, hye]
    rw [snapshot, hdom]
    simp only [bind, Except.bind, hs.kernelOf_eq hx, hs.envelopeOf_eq hx, hkarcs, hearcs,
      Dom.snapshot, hkernel, henvelope]

theorem Valid.snapshot_dead (hs : s.Valid) (hv : s.scene v = none) :
    s.snapshot v = .error (.violation (.deadVar v)) := by
  rw [snapshot, hs.domain_dead hv]
  rfl

/-- The snapshot of a variable only depends on its domain. -/
theorem snapshot_congr {s' : Store} (hs : s.Valid) (hs' : s'.Valid) (h : s'.scene v = s.scene v) :
    s'.snapshot v = s.snapshot v := by
  cases hv : s.scene v with
  | none => rw [hs.snapshot_dead hv, hs'.snapshot_dead (h.trans hv)]
  | some D => rw [hs.snapshot_eq hv, hs'.snapshot_eq (h.trans hv)]

end Store

end Propagation
