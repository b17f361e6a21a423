import Propagation.Proofs.Store.Query
import Propagation.Store.Narrowing

/-!
# Where integers are counted from

The values of an integer variable are kept as their distances from the one that it started with, and
a distance may overflow where the value does not. Which queries overflow depends on that start
(`Valid.contains_checked`), and so does which narrowings may (`Overreaches`).
-/

set_option autoImplicit false

namespace Propagation

/-- The offset of an integer domain in the view `w`. -/
def Domain.offset (w : View) : Domain → Option Int
  | .int r => (w.sparse r.index).map (·.offset)
  | .set _ => none
  | .graph _ _ => none

/-- The sums with its argument that a narrowing makes on integers with the offset `o`. -/
def Narrowing.sums (o : Int) : Narrowing → List Int
  | fix a | remove a | removeBelow a => [a - o]
  | removeAbove a => [a - o, a - o + 1]
  | addToKernel _ | removeFromEnvelope _ | enforceNode _ | removeNode _ | enforceArc _ _
  | removeArc _ _ => []

namespace Store

/-- The offset of each live integer variable in the view `w`. -/
def offsetIn (s : Store) (w : View) (v : Var) : Option Int :=
  if v.id < s.countIn w then (s.domains[v.id]?).bind (·.offset w) else none

def offset (s : Store) : Var → Option Int := s.offsetIn s.trail.view

/-- Some value of the integer variable `v`, or some sum of `n`, is not a machine integer. -/
def Overreaches (s : Store) (v : Var) (n : Narrowing) : Prop :=
  ∃ vs o, s.scene v = some (.int vs) ∧ s.offset v = some o ∧
    ∃ i, (i ∈ vs ∨ i ∈ n.sums o) ∧ ¬Checked.Signed i

variable {s s' : Store} {w : View} {v : Var} {vs : Finset Int} {o : Int}

theorem offsetIn_eq_some : s.offsetIn w v = some o ↔ v.id < s.countIn w ∧
    ∃ r x, s.domains[v.id]? = some (.int r) ∧ w.sparse r.index = some x ∧ x.offset = o := by
  rw [offsetIn]
  split
  · next hlt =>
    rw [and_iff_right hlt, Option.bind_eq_some_iff]
    constructor
    · rintro ⟨d, hd, ho⟩
      cases d with
      | int r =>
        obtain ⟨x, hx, rfl⟩ := Option.map_eq_some_iff.1 ho
        exact ⟨r, x, hd, hx, rfl⟩
      | set r => cases ho
      | graph nodes rows => cases ho
    · rintro ⟨r, x, hd, hx, rfl⟩
      exact ⟨.int r, hd, Option.map_eq_some_iff.2 ⟨x, hx, rfl⟩⟩
  · next hlt => exact iff_of_false (by nofun) fun h => hlt h.1

theorem offsetIn_congr (hcount : s'.countIn w = s.countIn w)
    (hdomains : ∀ i < s.countIn w, s'.domains[i]? = s.domains[i]?) :
    s'.offsetIn w = s.offsetIn w := by
  funext v
  rw [offsetIn, offsetIn, hcount]
  split
  · next hlt => rw [hdomains v.id hlt]
  · rfl

/-! ## Queries -/

theorem offset_eq {D : Dom} {r : SparseRef} {x : SparseView} (hv : s.scene v = some D)
    (hd : s.domains[v.id]? = some (.int r)) (hx : s.trail.view.sparse r.index = some x) :
    s.offset v = some x.offset :=
  offsetIn_eq_some.2 ⟨(scene_eq_some.1 hv).1, r, x, hd, hx, rfl⟩

section
variable (hs : s.Valid) (hv : s.scene v = some (.int vs))
include hs hv

theorem Valid.exists_offset : ∃ o, s.offset v = some o := by
  obtain ⟨r, x, -, hd, hx, -⟩ := hs.ints_eq hv
  exact ⟨_, offset_eq hv hd hx⟩
/-- `contains v a` checks the distance of `a` from the offset, and then answers membership. -/
theorem Valid.contains_checked (ho : s.offset v = some o) (a : Int) :
    s.contains v a = (Checked.int (a - o)).map fun _ => decide (a ∈ vs) := by
  obtain ⟨r, x, hr, hd, hx, rfl⟩ := hs.ints_eq hv
  obtain ⟨-, r', x', hd', hx', rfl⟩ := offsetIn_eq_some.1 ho
  cases hd.symm.trans hd'
  cases hx.symm.trans hx'
  rw [contains, hr]
  exact SparseRef.contains_eq hs.trail hx a

/-! ## Narrowings -/

variable {n : Narrowing} {a : Int} {e : Fault}

theorem Valid.overreaches_of_min (ha : IsLeast (vs : Set Int) a) (h : s.min v = .error e) :
    s.Overreaches v n := by
  obtain ⟨o, ho⟩ := hs.exists_offset hv
  rw [hs.min_checked hv ha] at h
  exact ⟨vs, o, hv, ho, a, .inl ha.1, Checked.not_signed_of_map h⟩

theorem Valid.overreaches_of_max (ha : IsGreatest (vs : Set Int) a) (h : s.max v = .error e) :
    s.Overreaches v n := by
  obtain ⟨o, ho⟩ := hs.exists_offset hv
  rw [hs.max_checked hv ha] at h
  exact ⟨vs, o, hv, ho, a, .inl ha.1, Checked.not_signed_of_map h⟩

theorem Valid.overreaches_of_contains (hn : ∀ o, a - o ∈ n.sums o)
    (h : s.contains v a = .error e) : s.Overreaches v n := by
  obtain ⟨o, ho⟩ := hs.exists_offset hv
  rw [hs.contains_checked hv ho] at h
  exact ⟨vs, o, hv, ho, a - o, .inr (hn o), Checked.not_signed_of_map h⟩

end

/-- A cut that fails has made a sum that is not a machine integer, or has met such a value. -/
theorem overreaches_of_cut {n : Narrowing} {e : Fault} {r : SparseRef} {x : SparseView}
    (hv : s.scene v = some (.int vs)) (hd : s.domains[v.id]? = some (.int r))
    (hx : s.trail.view.sparse r.index = some x) (hvs : x.values = vs) {p : Int → Prop} {t : Trail}
    (h : SparseRef.CutFails s.trail r x p (n.sums x.offset) e t) : s.Overreaches v n := by
  obtain ⟨-, ⟨⟨i, hi, hover⟩, -⟩ | ⟨hno, -⟩⟩ := h
  · exact ⟨vs, _, hv, offset_eq hv hd hx, i, .inr hi, hover⟩
  · unfold SparseView.Fits at hno
    push Not at hno
    obtain ⟨b, hb, hover⟩ := hno
    exact ⟨vs, _, hv, offset_eq hv hd hx, b, .inl (hvs ▸ hb), hover⟩

end Store

end Propagation
