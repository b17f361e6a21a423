import Mathlib.Data.Finset.Union
import Propagation.Proofs.Store.Domain
import Propagation.Proofs.Trail.BoundedSet
import Propagation.Proofs.Trail.Level
import Propagation.Proofs.Trail.SparseSet

/-!
# Scenes and valid stores

The scene of a store gives every live variable its domain as a value (`Store.scene`); `Store.saved`
has the scene that each open level will give back. `Store.Valid` is the invariant of a store: its
trail is valid, at every level the cells of the live variables are there and mean well-formed
domains, different variables use different sets of the trail, and the entries of a log still hold of
its variable.

`Store.Valid.turn`: a change of the trail that touches the sets of one variable, and takes values
from its domain, changes the scene there and nowhere else.
-/

set_option autoImplicit false

namespace Propagation

/-! ## Where domains live -/

namespace Domain

/-- The indices of the sparse sets that the domain uses. -/
def sparseRefs : Domain → List Nat
  | .int r => [r.index]
  | _ => []

/-- The indices of the bounded sets that the domain uses. -/
def boundedRefs : Domain → List Nat
  | .int _ => []
  | .set r => [r.index]
  | .graph nodes rows => nodes.index :: rows.toList.map BoundedRef.index

/-- The bounded set that an element belongs to, and its value there. -/
def slot : Domain → Element → Option (BoundedRef × Nat)
  | .set r, .value a => some (r, a)
  | .graph nodes _, .node i => some (nodes, i)
  | .graph _ rows, .arc i j => (rows[i]?).map (·, j)
  | _, _ => none

/-- The arcs in a `zone` of the bounded sets of the rows. -/
def arcs (w : View) (zone : BoundedView → Finset Nat) (rows : Array BoundedRef) :
    Finset Element :=
  (Finset.range rows.size).biUnion fun i =>
    ((rows[i]?).bind fun r => w.bounded r.index).elim ∅ fun y => (zone y).image (.arc i)

/-- The meaning of a domain in the view `w`, or `none` if its sets are missing or do not fit
together. -/
def resolve (w : View) : Domain → Option Dom
  | .int r => (w.sparse r.index).map fun x => .int x.values
  | .set r => (w.bounded r.index).map fun x =>
    .set x.capacity ⟨x.kernel.image .value, x.envelope.image .value⟩
  | .graph nodes rows =>
    if ∀ i ∈ nodes.index :: rows.toList.map BoundedRef.index,
        (w.bounded i).map (·.capacity) = some rows.size then
      (w.bounded nodes.index).map fun x =>
        .graph rows.size ⟨x.kernel.image .node ∪ arcs w (·.kernel) rows,
          x.envelope.image .node ∪ arcs w (·.envelope) rows⟩
    else none

theorem mem_arcs {w : View} {zone : BoundedView → Finset Nat} {rows : Array BoundedRef}
    {e : Element} : e ∈ arcs w zone rows ↔
      ∃ i r y j, rows[i]? = some r ∧ w.bounded r.index = some y ∧ j ∈ zone y ∧
        e = .arc i j := by
  rw [arcs, Finset.mem_biUnion]
  constructor
  · rintro ⟨i, -, he⟩
    cases hr : rows[i]? with
    | none => rw [hr] at he; cases he
    | some r =>
      rw [hr, Option.bind_some] at he
      cases hy : w.bounded r.index with
      | none => rw [hy] at he; cases he
      | some y =>
        rw [hy] at he
        obtain ⟨j, hj, rfl⟩ := Finset.mem_image.1 he
        exact ⟨i, r, y, j, hr, hy, hj, rfl⟩
  · rintro ⟨i, r, y, j, hr, hy, hj, rfl⟩
    refine ⟨i, Finset.mem_range.2 (Array.getElem?_eq_some_iff.1 hr).1, ?_⟩
    rw [hr, Option.bind_some, hy]
    exact Finset.mem_image.2 ⟨j, hj, rfl⟩

/-- Membership in the kernel and in the envelope of a domain is that of the slot. -/
theorem mem_resolve {w : View} {d : Domain} {D : Dom} (h : d.resolve w = some D) (e : Element) :
    (e ∈ D.kernel ↔ ∃ r a x, d.slot e = some (r, a) ∧ w.bounded r.index = some x ∧
      a ∈ x.kernel) ∧
    (e ∈ D.envelope ↔ ∃ r a x, d.slot e = some (r, a) ∧ w.bounded r.index = some x ∧
      a ∈ x.envelope) := by
  cases d with
  | int r =>
    obtain ⟨x, hx, rfl⟩ := Option.map_eq_some_iff.1 h
    simp [Dom.kernel, Dom.envelope, slot]
  | set r =>
    obtain ⟨x, hx, rfl⟩ := Option.map_eq_some_iff.1 h
    cases e <;> simp [Dom.kernel, Dom.envelope, slot, hx]
  | graph nodes rows =>
    rw [resolve] at h
    split at h
    · obtain ⟨x, hx, rfl⟩ := Option.map_eq_some_iff.1 h
      cases e with
      | value a => simp [Dom.kernel, Dom.envelope, slot, mem_arcs]
      | node i => simp [Dom.kernel, Dom.envelope, slot, mem_arcs, hx]
      | arc i j =>
        simp only [Dom.kernel, Dom.envelope, slot, Finset.mem_union, Finset.mem_image, mem_arcs,
          reduceCtorEq, and_false, exists_false, false_or, Option.map_eq_some_iff, Prod.mk.injEq,
          Element.arc.injEq]
        constructor
        · constructor
          · rintro ⟨i', r, y, j', hr, hy, hj, rfl, rfl⟩
            exact ⟨r, j, y, ⟨r, hr, rfl, rfl⟩, hy, hj⟩
          · rintro ⟨r, j', y, ⟨r', hr, rfl, rfl⟩, hy, hj⟩
            exact ⟨i, r', y, j, hr, hy, hj, rfl, rfl⟩
        · constructor
          · rintro ⟨i', r, y, j', hr, hy, hj, rfl, rfl⟩
            exact ⟨r, j, y, ⟨r, hr, rfl, rfl⟩, hy, hj⟩
          · rintro ⟨r, j', y, ⟨r', hr, rfl, rfl⟩, hy, hj⟩
            exact ⟨i, r', y, j, hr, hy, hj, rfl, rfl⟩
    · cases h

theorem mem_boundedRefs_of_slot {d : Domain} {e : Element} {r : BoundedRef} {a : Nat}
    (h : d.slot e = some (r, a)) : r.index ∈ d.boundedRefs := by
  cases d with
  | int r => cases e <;> simp [slot] at h
  | set r =>
    cases e <;> simp [slot] at h
    simp [boundedRefs, h.1]
  | graph nodes rows =>
    cases e with
    | value b => simp [slot] at h
    | node i =>
      simp [slot] at h
      simp [boundedRefs, h.1]
    | arc i j =>
      obtain ⟨q, hq, hqa⟩ := Option.map_eq_some_iff.1 h
      cases hqa
      exact List.mem_cons_of_mem _ (List.mem_map_of_mem (Array.mem_toList_iff.2
        (Array.mem_of_getElem? hq)))

/-- Different elements have different slots. -/
theorem slot_inj {d : Domain} (hd : d.boundedRefs.Nodup) {e f : Element} {r r' : BoundedRef}
    {a : Nat} (he : d.slot e = some (r, a)) (hf : d.slot f = some (r', a))
    (hr : r.index = r'.index) : e = f := by
  cases d with
  | int r => cases e <;> simp [slot] at he
  | set r =>
    cases e <;> cases f <;> simp [slot] at he hf
    rw [he.2, hf.2]
  | graph nodes rows =>
    simp only [boundedRefs, List.nodup_cons, List.mem_map, not_exists, not_and] at hd
    cases e with
    | value b => simp [slot] at he
    | node i =>
      cases f with
      | value b => simp [slot] at hf
      | node j =>
        simp only [slot, Option.some.injEq, Prod.mk.injEq] at he hf
        rw [he.2, hf.2]
      | arc j k =>
        obtain ⟨q, hq, hqa⟩ := Option.map_eq_some_iff.1 hf
        simp only [Prod.mk.injEq] at hqa
        simp only [slot, Option.some.injEq, Prod.mk.injEq] at he
        refine absurd ?_ (hd.1 q (Array.mem_toList_iff.2 (Array.mem_of_getElem? hq)))
        rw [hqa.1, he.1, hr]
    | arc i l =>
      obtain ⟨p, hp, hpa⟩ := Option.map_eq_some_iff.1 he
      simp only [Prod.mk.injEq] at hpa
      cases f with
      | value b => simp [slot] at hf
      | node j =>
        simp only [slot, Option.some.injEq, Prod.mk.injEq] at hf
        refine absurd ?_ (hd.1 p (Array.mem_toList_iff.2 (Array.mem_of_getElem? hp)))
        rw [hpa.1, hf.1, hr]
      | arc j k =>
        obtain ⟨q, hq, hqa⟩ := Option.map_eq_some_iff.1 hf
        simp only [Prod.mk.injEq] at hqa
        obtain ⟨hi, hpi⟩ := Array.getElem?_eq_some_iff.1 hp
        obtain ⟨hj, hqj⟩ := Array.getElem?_eq_some_iff.1 hq
        have hij : i = j := by
          refine (@List.Nodup.getElem_inj_iff _ _ hd.2 i (by simpa using hi) j
            (by simpa using hj)).1 ?_
          simp only [List.getElem_map, Array.getElem_toList, hpi, hqj]
          rw [hpa.1, hqa.1, hr]
        rw [hij, hpa.2, hqa.2]

/-- The meaning of a domain only depends on its own sets. -/
theorem resolve_congr {w w' : View} {d : Domain}
    (hs : ∀ i ∈ d.sparseRefs, w'.sparse i = w.sparse i)
    (hb : ∀ i ∈ d.boundedRefs, w'.bounded i = w.bounded i) : d.resolve w' = d.resolve w := by
  cases d with
  | int r => rw [resolve, resolve, hs _ List.mem_cons_self]
  | set r => rw [resolve, resolve, hb _ List.mem_cons_self]
  | graph nodes rows =>
    have harcs : ∀ zone, arcs w' zone rows = arcs w zone rows := by
      intro zone
      refine Finset.biUnion_congr rfl fun i _ => ?_
      cases hr : rows[i]? with
      | none => rfl
      | some r =>
        have hmem : r.index ∈ (Domain.graph nodes rows).boundedRefs :=
          List.mem_cons_of_mem _ (List.mem_map_of_mem (Array.mem_toList_iff.2
            (Array.mem_of_getElem? hr)))
        rw [Option.bind_some, Option.bind_some, hb _ hmem]
    have hcap : (∀ i ∈ nodes.index :: rows.toList.map BoundedRef.index,
        (w'.bounded i).map (·.capacity) = some rows.size) ↔
        ∀ i ∈ nodes.index :: rows.toList.map BoundedRef.index,
          (w.bounded i).map (·.capacity) = some rows.size :=
      forall₂_congr fun i hi => by rw [hb i hi]
    rw [resolve, resolve, harcs, harcs, hb _ List.mem_cons_self]
    simp only [hcap]

end Domain

/-! ## Entries of a log -/

namespace Element

/-- The log entry for an element that has entered the kernel. -/
def enforced (c : Cause) : Element → DeltaEntry
  | .value a => ⟨.addToKernel, a, 0, c⟩
  | .node i => ⟨.enforceNode, i, 0, c⟩
  | .arc i j => ⟨.enforceArc, i, j, c⟩

/-- The log entry for an element that has left the envelope. -/
def removed (c : Cause) : Element → DeltaEntry
  | .value a => ⟨.removeFromEnvelope, a, 0, c⟩
  | .node i => ⟨.removeNode, i, 0, c⟩
  | .arc i j => ⟨.removeArc, i, j, c⟩

end Element

/-- The entry is of an element that is in the kernel, or has left the envelope. -/
def DeltaEntry.Holds (x : DeltaEntry) (D : Dom) : Prop :=
  (∃ e, x = e.enforced x.cause ∧ e ∈ D.kernel) ∨
    ∃ e, x = e.removed x.cause ∧ D.Ground e ∧ e ∉ D.envelope

theorem DeltaEntry.Holds.mono {x : DeltaEntry} {D D' : Dom} (h : x.Holds D)
    (hle : D'.Within D) : x.Holds D' := by
  rcases h with ⟨e, hx, he⟩ | ⟨e, hx, hg, he⟩
  · exact .inl ⟨e, hx, hle.kernel he⟩
  · exact .inr ⟨e, hx, (hle.ground e).2 hg, fun h => he (hle.envelope h)⟩

/-! ## Scenes -/

namespace Store

/-- The number of variables that are alive in the view `w`. -/
def countIn (s : Store) (w : View) : Nat := ((w.int s.alive.index).getD 0).toNat

/-- The domain of each live variable in the view `w`, `none` for dead ones. -/
def sceneIn (s : Store) (w : View) (v : Var) : Option Dom :=
  if v.id < s.countIn w then (s.domains[v.id]?).bind (·.resolve w) else none

/-- The domain of each live variable, `none` for dead ones. -/
def scene (s : Store) : Var → Option Dom := s.sceneIn s.trail.view

/-- The clocks of the open levels with the scenes that closing them gives back, innermost first. -/
def saved (s : Store) : List (Nat × (Var → Option Dom)) :=
  s.trail.past.map fun p => (p.1, s.sceneIn p.2)

/-- The entries of the log of `v`. -/
def logOf (s : Store) (v : Var) : List DeltaEntry := ((s.logs[v.id]?).map (·.toList)).getD []

/-- In the view `w` the cell that counts the variables has a value, and each live variable has a
well-formed domain. -/
structure Houses (s : Store) (w : View) : Prop where
  count : ∃ n : Nat, w.int s.alive.index = some (n : Int) ∧ n < 2 ^ 63 ∧ n ≤ s.domains.size
  placed : ∀ i < s.countIn w, ∀ d, s.domains[i]? = some d → ∃ D, d.resolve w = some D ∧ D.Wf

structure Valid (s : Store) : Prop where
  trail : s.trail.Valid
  logs_size : s.logs.size = s.domains.size
  now : s.Houses s.trail.view
  past : ∀ p ∈ s.trail.past, s.Houses p.2
  /-- The number of live variables does not decrease from a level to those within it. -/
  counts : (s.trail.view :: s.trail.past.map (·.2)).Pairwise
    fun w w' => s.countIn w' ≤ s.countIn w
  nodup : ∀ i < s.countIn s.trail.view, ∀ d, s.domains[i]? = some d → d.boundedRefs.Nodup
  apart : ∀ i j, i < s.countIn s.trail.view → j < s.countIn s.trail.view → i ≠ j →
    ∀ d d', s.domains[i]? = some d → s.domains[j]? = some d' →
      d.sparseRefs.Disjoint d'.sparseRefs ∧ d.boundedRefs.Disjoint d'.boundedRefs
  logs : ∀ v D, s.scene v = some D → ∀ x ∈ s.logOf v, x.Holds D

section
variable {s : Store} {w : View} {v : Var} {D : Dom}

theorem Houses.countIn_eq (h : s.Houses w) : w.int s.alive.index = some ((s.countIn w : Nat) : Int) ∧
    s.countIn w < 2 ^ 63 ∧ s.countIn w ≤ s.domains.size := by
  obtain ⟨n, hn, hlt, hle⟩ := h.count
  have hc : s.countIn w = n := by
    rw [countIn, hn]
    rfl
  rw [hc]
  exact ⟨hn, hlt, hle⟩

theorem Valid.varCount_eq (h : s.Valid) : s.varCount = s.countIn s.trail.view := by
  obtain ⟨hn, hlt, -⟩ := h.now.countIn_eq
  rw [varCount, IntRef.getNat_eq (Trail.view_int.1 hn).2 (by omega)]

theorem sceneIn_eq_some : s.sceneIn w v = some D ↔
    v.id < s.countIn w ∧ ∃ d, s.domains[v.id]? = some d ∧ d.resolve w = some D := by
  rw [sceneIn]
  split
  · next h => simp [h, Option.bind_eq_some_iff]
  · next h => simp [h]

theorem scene_eq_some : s.scene v = some D ↔ v.id < s.countIn s.trail.view ∧
    ∃ d, s.domains[v.id]? = some d ∧ d.resolve s.trail.view = some D := sceneIn_eq_some

theorem Houses.wf (h : s.Houses w) (hv : s.sceneIn w v = some D) : D.Wf := by
  obtain ⟨hlt, d, hd, hD⟩ := sceneIn_eq_some.1 hv
  obtain ⟨D', hD', hwf⟩ := h.placed v.id hlt d hd
  rw [hD] at hD'
  cases hD'
  exact hwf

theorem Valid.wf (h : s.Valid) (hv : s.scene v = some D) : D.Wf := h.now.wf hv

/-- A variable has a domain in the view `w` iff it is alive there. -/
theorem Houses.isSome_sceneIn (h : s.Houses w) (v : Var) :
    (s.sceneIn w v).isSome ↔ v.id < s.countIn w := by
  constructor
  · intro hs
    obtain ⟨D, hD⟩ := Option.isSome_iff_exists.1 hs
    exact (sceneIn_eq_some.1 hD).1
  · intro hlt
    have hd : v.id < s.domains.size := by
      have := h.countIn_eq.2.2
      omega
    obtain ⟨D, hD, -⟩ := h.placed v.id hlt _ (Array.getElem?_eq_getElem hd)
    rw [sceneIn_eq_some.2 ⟨hlt, _, Array.getElem?_eq_getElem hd, hD⟩]
    rfl

theorem Valid.ne_none_iff (hs : s.Valid) (v : Var) :
    s.scene v ≠ none ↔ v.id < s.countIn s.trail.view := by
  rw [← hs.now.isSome_sceneIn v, ← Option.isSome_iff_ne_none]
  rfl

theorem Valid.domain_eq (h : s.Valid) (hv : s.scene v = some D) :
    ∃ d, s.domain v = .ok d ∧ s.domains[v.id]? = some d ∧ d.resolve s.trail.view = some D := by
  obtain ⟨hlt, d, hd, hD⟩ := scene_eq_some.1 hv
  refine ⟨d, ?_, hd, hD⟩
  have hc : s.checkAlive v = .ok () := by rw [checkAlive, h.varCount_eq, if_pos hlt]
  rw [domain, hc]
  exact Checked.fetch_eq_ok.2 hd

theorem Valid.domain_dead (h : s.Valid) (hv : s.scene v = none) :
    s.domain v = .error (.violation (.deadVar v)) := by
  have hlt : ¬v.id < s.countIn s.trail.view := fun hlt => by
    have := (h.now.isSome_sceneIn v).2 hlt
    rw [← scene, hv] at this
    cases this
  have hc : s.checkAlive v = .error (.violation (.deadVar v)) := by
    rw [checkAlive, h.varCount_eq, if_neg hlt]
  rw [domain, hc]
  rfl

/-! ## Changing one domain -/

/-- The scene after a change of the trail by which one domain only changes its meaning. -/
theorem sceneIn_turn {t : Trail} {w' : View} {d : Domain} {D' : Dom}
    (hlt : v.id < s.countIn w) (hd : s.domains[v.id]? = some d) (hint : w'.int = w.int)
    (hD' : d.resolve w' = some D')
    (hother : ∀ u d', u ≠ v.id → u < s.countIn w → s.domains[u]? = some d' →
      d'.resolve w' = d'.resolve w) :
    ({ s with trail := t } : Store).sceneIn w' = Function.update (s.sceneIn w) v (some D') := by
  have hcount : ({ s with trail := t } : Store).countIn w' = s.countIn w := by
    rw [countIn, countIn, hint]
  funext u
  by_cases hu : u = v
  · subst hu
    rw [Function.update_self, sceneIn_eq_some, hcount]
    exact ⟨hlt, d, hd, hD'⟩
  · rw [Function.update_of_ne hu, sceneIn, sceneIn, hcount]
    split
    · next hult =>
      have hne : u.id ≠ v.id := fun h => hu (by cases u; cases v; cases h; rfl)
      cases hdu : s.domains[u.id]? with
      | none => rfl
      | some d' => exact hother u.id d' hne hult hdu
    · rfl

/-- A change of the trail that touches the sets of `v` only, and shrinks its domain, keeps the store
valid and changes the scene at `v` only. -/
theorem Valid.turn (h : s.Valid) {t : Trail} {w' : View} {d : Domain} {D' : Dom}
    (hv : s.scene v = some D) (hd : s.domains[v.id]? = some d)
    (ht : Trail.Turns s.trail w' t) (hint : w'.int = s.trail.view.int)
    (hs : ∀ i, i ∉ d.sparseRefs → w'.sparse i = s.trail.view.sparse i)
    (hb : ∀ i, i ∉ d.boundedRefs → w'.bounded i = s.trail.view.bounded i)
    (hD' : d.resolve w' = some D') (hwf : D'.Wf) (hle : D'.Within D) :
    ({ s with trail := t } : Store).Valid ∧
      ({ s with trail := t } : Store).scene = Function.update s.scene v (some D') := by
  have hlt := (scene_eq_some.1 hv).1
  have hcount : s.countIn w' = s.countIn s.trail.view := by rw [countIn, countIn, hint]
  have hother : ∀ u d', u ≠ v.id → u < s.countIn s.trail.view → s.domains[u]? = some d' →
      d'.resolve w' = d'.resolve s.trail.view := by
    intro u d' hu hult hdu
    obtain ⟨h1, h2⟩ := h.apart u v.id hult hlt hu d' d hdu hd
    exact Domain.resolve_congr (fun i hi => hs i fun hmem => h1 hi hmem)
      fun i hi => hb i fun hmem => h2 hi hmem
  have hscene : ({ s with trail := t } : Store).scene = Function.update s.scene v (some D') := by
    rw [scene, scene]
    show ({ s with trail := t } : Store).sceneIn t.view = _
    rw [ht.view]
    exact sceneIn_turn hlt hd hint hD' hother
  refine ⟨?_, hscene⟩
  exact
    { trail := ht.valid
      logs_size := h.logs_size
      now := by
        show ({ s with trail := t } : Store).Houses t.view
        rw [ht.view]
        refine ⟨by rw [hint]; exact h.now.count, fun u hu du hdu => ?_⟩
        have hu' : u < s.countIn s.trail.view := hcount ▸ hu
        by_cases huv : u = v.id
        · subst huv
          rw [show s.domains[v.id]? = some du from hdu] at hd
          cases hd
          exact ⟨D', hD', hwf⟩
        · rw [hother u du huv hu' hdu]
          exact h.now.placed u hu' du hdu
      past := by
        show ∀ p ∈ t.past, _
        rw [ht.past]
        exact fun p hp => ⟨(h.past p hp).count, (h.past p hp).placed⟩
      counts := by
        show (t.view :: t.past.map (·.2)).Pairwise _
        rw [ht.view, ht.past]
        obtain ⟨h1, h2⟩ := List.pairwise_cons.1 h.counts
        exact List.pairwise_cons.2 ⟨fun w hw => (h1 w hw).trans (Nat.le_of_eq hcount.symm), h2⟩
      nodup := by
        show ∀ i < s.countIn t.view, _
        rw [ht.view, hcount]
        exact h.nodup
      apart := by
        show ∀ i j, i < s.countIn t.view → j < s.countIn t.view → _
        rw [ht.view, hcount]
        exact h.apart
      logs := fun u E hu x hx => by
        rw [hscene] at hu
        by_cases huv : u = v
        · subst huv
          rw [Function.update_self] at hu
          cases hu
          exact (h.logs u D hv x hx).mono hle
        · rw [Function.update_of_ne huv] at hu
          exact h.logs u E hu x hx }

end

end Store

end Propagation
