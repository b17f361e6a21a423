import Mathlib.Algebra.Order.BigOperators.Group.Finset
import Propagation.Proofs.Store.Shows
import Propagation.Store.Room

/-!
# The room of a domain

What can still happen to a domain is bounded by its room (`Dom.room`): an integer variable can lose
all its values but one, and of a set or a graph each undecided element can be decided once. A domain
that is narrowed has less room (`Dom.Within.room_lt`).
-/

set_option autoImplicit false

namespace Propagation

/-! ## Parts of bounds -/

/-- The number of undecided elements in a `part` of the bounds. -/
def Bounds.gap (b : Bounds) (part : Finset Element → Finset Nat) : Nat :=
  (part b.envelope).card - (part b.kernel).card

/-- Bounds within others have a smaller gap, or the same elements in that part. -/
theorem Bounds.Within.gap {b b' : Bounds} {part : Finset Element → Finset Nat}
    (hmono : ∀ es fs, es ⊆ fs → part es ⊆ part fs) (h : b'.Within b)
    (hwf : b'.kernel ⊆ b'.envelope) :
    b'.gap part ≤ b.gap part ∧ (b'.gap part = b.gap part →
      part b'.kernel = part b.kernel ∧ part b'.envelope = part b.envelope) := by
  have hkernel := hmono _ _ h.kernel_subset
  have henvelope := hmono _ _ h.envelope_subset
  have hk := Finset.card_le_card hkernel
  have he := Finset.card_le_card henvelope
  have hke := Finset.card_le_card (hmono _ _ hwf)
  unfold Bounds.gap
  constructor
  · omega
  · intro heq
    have hk' : (part b'.kernel).card ≤ (part b.kernel).card := by omega
    have he' : (part b.envelope).card ≤ (part b'.envelope).card := by omega
    exact ⟨(Finset.eq_of_subset_of_card_le hkernel hk').symm,
      Finset.eq_of_subset_of_card_le henvelope he'⟩

theorem valuesOf_mono (es fs : Finset Element) (h : es ⊆ fs) :
    Store.valuesOf es ⊆ Store.valuesOf fs := by
  intro a ha
  simp only [Store.mem_valuesOf] at ha ⊢
  exact h ha

theorem nodesOf_mono (es fs : Finset Element) (h : es ⊆ fs) :
    Dom.nodesOf es ⊆ Dom.nodesOf fs := by
  intro a ha
  simp only [Dom.mem_nodesOf] at ha ⊢
  exact h ha

theorem targetsOf_mono (i : Nat) (es fs : Finset Element) (h : es ⊆ fs) :
    Store.targetsOf es i ⊆ Store.targetsOf fs i := by
  intro a ha
  simp only [Store.mem_targetsOf] at ha ⊢
  exact h ha

namespace Dom

/-! ## Domains -/

/-- The number of times that the domain can change, at most. -/
def room : Dom → Nat
  | .int vs => vs.card - 1
  | .set _ b => b.gap Store.valuesOf
  | .graph n b => b.gap nodesOf + ∑ i ∈ Finset.range n, b.gap (Store.targetsOf · i)

variable {D D' : Dom}

/-- A proper narrowing has less room. -/
theorem Within.room_lt (h : D'.Within D) (hD' : D'.Wf) (hD : D.Wf) (hne : D' ≠ D) :
    D'.room < D.room := by
  have hground : ∀ E : Dom, E.Wf → ∀ e, e ∈ E.kernel ∨ e ∈ E.envelope → E.Ground e :=
    fun E hE e he => hE.ground (he.elim (fun hk => hE.kernel_subset hk) id)
  cases D with
  | int vs =>
    cases D' with
    | set n b => exact h.elim
    | graph n b => exact h.elim
    | int vs' =>
      have hss : vs' ⊂ vs := Finset.ssubset_iff_subset_ne.2 ⟨h, fun heq => hne (heq ▸ rfl)⟩
      have hlt := Finset.card_lt_card hss
      have hpos : 0 < vs'.card := Finset.card_pos.2 hD'
      show vs'.card - 1 < vs.card - 1
      omega
  | set n b =>
    cases D' with
    | int vs => exact h.elim
    | graph n b => exact h.elim
    | set n' b' =>
      obtain ⟨rfl, hle⟩ := h
      obtain ⟨hgap, heq⟩ := hle.gap valuesOf_mono hD'.kernel_subset
      refine lt_of_le_of_ne hgap fun hsame => hne ?_
      obtain ⟨hk, he⟩ := heq hsame
      have hkernel : b'.kernel = b.kernel := Store.eq_of_values
        (fun e hm => hground _ hD' e (.inl hm)) (fun e hm => hground _ hD e (.inl hm)) hk
      have henvelope : b'.envelope = b.envelope := Store.eq_of_values
        (fun e hm => hground _ hD' e (.inr hm)) (fun e hm => hground _ hD e (.inr hm)) he
      cases b
      cases b'
      simp_all
  | graph n b =>
    cases D' with
    | int vs => exact h.elim
    | set n b => exact h.elim
    | graph n' b' =>
      obtain ⟨rfl, hle⟩ := h
      obtain ⟨hnodes, hnodes'⟩ := hle.gap nodesOf_mono hD'.kernel_subset
      have hrow := fun i => hle.gap (targetsOf_mono i) hD'.kernel_subset
      have hrows := Finset.sum_le_sum fun i (_ : i ∈ Finset.range n') => (hrow i).1
      refine lt_of_le_of_ne (Nat.add_le_add hnodes hrows) fun hsame => hne ?_
      -- all the parts are the same, and so is the whole
      have hsum : b'.gap nodesOf + ∑ i ∈ Finset.range n', b'.gap (Store.targetsOf · i) =
        b.gap nodesOf + ∑ i ∈ Finset.range n', b.gap (Store.targetsOf · i) := hsame
      obtain ⟨hk, he⟩ := hnodes' (by omega)
      have heach := (Finset.sum_eq_sum_iff_of_le fun i _ => (hrow i).1).1
        (show ∑ i ∈ Finset.range n', b'.gap (Store.targetsOf · i) =
          ∑ i ∈ Finset.range n', b.gap (Store.targetsOf · i) by omega)
      have hboth := fun i (hi : i < n') => (hrow i).2 (heach i (Finset.mem_range.2 hi))
      have hkernel : b'.kernel = b.kernel := Store.eq_of_rows
        (fun e hm => hground _ hD' e (.inl hm)) (fun e hm => hground _ hD e (.inl hm)) hk
        fun i hi => (hboth i hi).1
      have henvelope : b'.envelope = b.envelope := Store.eq_of_rows
        (fun e hm => hground _ hD' e (.inr hm)) (fun e hm => hground _ hD e (.inr hm)) he
        fun i hi => (hboth i hi).2
      cases b
      cases b'
      simp_all

theorem Within.room_le (h : D'.Within D) (hD' : D'.Wf) (hD : D.Wf) : D'.room ≤ D.room := by
  by_cases heq : D' = D
  · rw [heq]
  · exact (h.room_lt hD' hD heq).le

end Dom

/-! ## Reading the room -/

namespace Store

variable {s : Store} {v : Var} {D : Dom}

theorem undecided_eq {t : Trail} {r : BoundedRef} {x : BoundedView} (ht : t.Valid)
    (hx : t.view.bounded r.index = some x) :
    undecided t r = .ok (x.envelope.card - x.kernel.card) := by
  rw [undecided, BoundedRef.kernelSize_eq ht hx, BoundedRef.envelopeSize_eq ht hx]
  rfl

theorem mapM_range {f : BoundedRef → Except Fault Nat} {g : Nat → Nat} {rs : List BoundedRef}
    (h : ∀ i r, rs[i]? = some r → f r = .ok (g i)) :
    rs.mapM f = .ok ((List.range rs.length).map g) := by
  induction rs generalizing g with
  | nil => rfl
  | cons r rs ih =>
    have hr := h 0 r rfl
    have hrs := ih (g := fun i => g (i + 1)) fun i q hq => h (i + 1) q hq
    rw [List.mapM_cons, hr, hrs, List.length_cons, List.range_succ_eq_map, List.map_cons,
      List.map_map]
    rfl

/-- `Store.room` of a live variable is the room of its domain. -/
theorem Valid.room_eq (hs : s.Valid) (hv : s.scene v = some D) : s.room v = D.room := by
  obtain ⟨d, hdom, hd, -⟩ := hs.domain_eq hv
  unfold room
  rw [hdom]
  cases D with
  | int vs =>
    obtain ⟨r, x, -, hr, hx, rfl⟩ := hs.ints_eq hv
    cases hd.symm.trans hr
    simp only [bind, Except.bind, SparseRef.size_eq hs.trail hx, Dom.room, SparseView.card_values]
  | set n b =>
    obtain ⟨r, x, -, hr, hx, -, hk, he⟩ := hs.elements_eq hv
    cases hd.symm.trans hr
    have hkernel : valuesOf b.kernel = x.kernel := by
      ext a
      rw [mem_valuesOf, hk]
    have henvelope : valuesOf b.envelope = x.envelope := by
      ext a
      rw [mem_valuesOf, he]
    simp only [bind, Except.bind, undecided_eq hs.trail hx, Dom.room, Bounds.gap, hkernel, henvelope]
  | graph n b =>
    obtain ⟨nodes, rows, x, -, hr, hsize, hx, -, hk, he, hrows⟩ := hs.graph_eq hv
    cases hd.symm.trans hr
    have hnodes : undecided s.trail nodes = .ok (b.gap Dom.nodesOf) := by
      have hkernel : Dom.nodesOf b.kernel = x.kernel := by
        ext i
        rw [Dom.mem_nodesOf, hk]
      have henvelope : Dom.nodesOf b.envelope = x.envelope := by
        ext i
        rw [Dom.mem_nodesOf, he]
      rw [undecided_eq hs.trail hx, Bounds.gap, hkernel, henvelope]
    have hall : rows.toList.mapM (undecided s.trail) =
        .ok ((List.range n).map fun i => b.gap (targetsOf · i)) := by
      rw [← hsize, ← Array.length_toList]
      refine mapM_range fun i r hi => ?_
      rw [Array.getElem?_toList] at hi
      obtain ⟨y, hy, -, hky, hey⟩ := hrows i r hi
      have hkernel : targetsOf b.kernel i = y.kernel := by
        ext j
        rw [mem_targetsOf, hky]
      have henvelope : targetsOf b.envelope i = y.envelope := by
        ext j
        rw [mem_targetsOf, hey]
      rw [undecided_eq hs.trail hy, Bounds.gap, hkernel, henvelope]
    have hsum : ((List.range n).map fun i => b.gap (targetsOf · i)).sum =
        ∑ i ∈ Finset.range n, b.gap (targetsOf · i) := rfl
    simp only [bind, Except.bind, List.mapM_cons, hnodes, hall, pure, Except.pure, Dom.room,
      ← List.sum_eq_foldl, List.sum_cons, hsum]

end Store

end Propagation
