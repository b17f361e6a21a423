import Propagation.Proofs.Store.IntNarrowing

/-!
# Flips

A flip decides one element of a set or a graph: `Valid.flip_in` takes an undecided element whose
needs are in the kernel into the kernel, `Valid.flip_out` takes one that nothing needs out of the
envelope. Both change one bounded set of the trail, and leave one entry and one event.
-/

set_option autoImplicit false

namespace Propagation

/-! ## The set of an element -/

namespace Domain

variable {w : View} {d : Domain} {D : Dom} {e : Element} {r : BoundedRef} {a : Nat}
  {x : BoundedView}

/-- The membership of the element `e` in a domain is that of `a` in the bounded set of its slot. -/
theorem bounded_of_slot (h : d.resolve w = some D) (hs : d.slot e = some (r, a)) :
    ∃ x, w.bounded r.index = some x ∧ (e ∈ D.kernel ↔ a ∈ x.kernel) ∧
      (e ∈ D.envelope ↔ a ∈ x.envelope) ∧ (D.Ground e ↔ a < x.capacity) ∧
      ∀ vs, D ≠ .int vs := by
  have hmem := mem_resolve h e
  have hiff : ∀ x, w.bounded r.index = some x → (e ∈ D.kernel ↔ a ∈ x.kernel) ∧
      (e ∈ D.envelope ↔ a ∈ x.envelope) := fun x hx => by
    simpa [hs, hx] using hmem
  cases d with
  | int q => cases e <;> cases hs
  | set q =>
    obtain ⟨x, hx, rfl⟩ := Option.map_eq_some_iff.1 h
    cases e with
    | value b =>
      cases hs
      exact ⟨x, hx, (hiff x hx).1, (hiff x hx).2, Iff.rfl, by simp⟩
    | node i => cases hs
    | arc i j => cases hs
  | graph nodes rows =>
    rw [resolve] at h
    split at h
    · next hcap =>
      obtain ⟨y, hy, rfl⟩ := Option.map_eq_some_iff.1 h
      have hmemr := mem_boundedRefs_of_slot hs
      obtain ⟨x, hx, hxcap⟩ := Option.map_eq_some_iff.1 (hcap _ hmemr)
      refine ⟨x, hx, (hiff x hx).1, (hiff x hx).2, ?_, by simp⟩
      cases e with
      | value b => cases hs
      | node i =>
        cases hs
        rw [hxcap]
        exact Iff.rfl
      | arc i j =>
        obtain ⟨q, hq, hqa⟩ := Option.map_eq_some_iff.1 hs
        cases hqa
        rw [hxcap]
        exact ⟨And.right, fun h => ⟨(Array.getElem?_eq_some_iff.1 hq).1, h⟩⟩
    · cases h

theorem exists_resolve_setBounded (h : d.resolve w = some D) (hs : d.slot e = some (r, a))
    (hx : w.bounded r.index = some x) {y : BoundedView} (hcap : y.capacity = x.capacity) :
    ∃ b, d.resolve (w.setBounded r.index y) = some (D.withBounds b) := by
  cases d with
  | int q => cases e <;> cases hs
  | set q =>
    cases e with
    | value b =>
      cases hs
      obtain ⟨z, hz, rfl⟩ := Option.map_eq_some_iff.1 h
      rw [hx] at hz
      cases hz
      rw [resolve, View.setBounded_self, Option.map_some, hcap]
      exact ⟨_, rfl⟩
    | node i => cases hs
    | arc i j => cases hs
  | graph nodes rows =>
    have hsame : ∀ i, ((w.setBounded r.index y).bounded i).map (·.capacity) =
        (w.bounded i).map (·.capacity) := by
      intro i
      by_cases hi : i = r.index
      · rw [hi, View.setBounded_self, hx, Option.map_some, Option.map_some, hcap]
      · rw [View.setBounded_of_ne _ _ hi]
    rw [resolve] at h ⊢
    simp only [hsame]
    split at h
    · next hall =>
      obtain ⟨z, hz, rfl⟩ := Option.map_eq_some_iff.1 h
      have hnodes := hsame nodes.index
      rw [hz] at hnodes
      obtain ⟨z', hz', -⟩ := Option.map_eq_some_iff.1 hnodes
      rw [if_pos hall, hz']
      exact ⟨_, rfl⟩
    · cases h

/-- A write to the bounded set of the slot of `e` that only concerns `a` changes the domain at `e`
only. -/
theorem resolve_setBounded (hd : d.boundedRefs.Nodup) (h : d.resolve w = some D)
    (hs : d.slot e = some (r, a)) (hx : w.bounded r.index = some x) {y : BoundedView}
    (hcap : y.capacity = x.capacity) (hk : ∀ c, c ≠ a → (c ∈ y.kernel ↔ c ∈ x.kernel))
    (he : ∀ c, c ≠ a → (c ∈ y.envelope ↔ c ∈ x.envelope)) {b : Bounds}
    (hbk : ∀ f, f ∈ b.kernel ↔ if f = e then a ∈ y.kernel else f ∈ D.kernel)
    (hbe : ∀ f, f ∈ b.envelope ↔ if f = e then a ∈ y.envelope else f ∈ D.envelope) :
    d.resolve (w.setBounded r.index y) = some (D.withBounds b) := by
  obtain ⟨b', hb'⟩ := exists_resolve_setBounded h hs hx hcap
  obtain ⟨-, -, -, -, -, hD⟩ := bounded_of_slot h hs
  have hmem : ∀ f, (f ∈ b'.kernel ↔ if f = e then a ∈ y.kernel else f ∈ D.kernel) ∧
      (f ∈ b'.envelope ↔ if f = e then a ∈ y.envelope else f ∈ D.envelope) := by
    intro f
    have hold := mem_resolve h f
    have hnew := mem_resolve hb' f
    rw [Dom.kernel_withBounds hD, Dom.envelope_withBounds hD] at hnew
    rw [hnew.1, hnew.2, hold.1, hold.2]
    by_cases hf : f = e
    · subst hf
      simp [hs]
    · rw [if_neg hf, if_neg hf]
      cases hfs : d.slot f with
      | none => simp
      | some p =>
        obtain ⟨q, c⟩ := p
        by_cases hq : q.index = r.index
        · have hc : c ≠ a := by
            rintro rfl
            exact hf (slot_inj hd hfs hs hq)
          simp [hq, hx, hk c hc, he c hc]
        · simp [View.setBounded_of_ne w y hq]
  have hb : b' = b := by
    obtain ⟨k', e'⟩ := b'
    obtain ⟨k, e⟩ := b
    rw [Bounds.mk.injEq]
    exact ⟨Finset.ext fun f => (hmem f).1.trans (hbk f).symm,
      Finset.ext fun f => (hmem f).2.trans (hbe f).symm⟩
  rw [hb', hb]

end Domain

/-! ## Flips -/

namespace Store

open Update

variable {s : Store} {v : Var} {c : Cause} {D : Dom} {d : Domain} {e : Element} {r : BoundedRef}
  {a : Nat} {x : BoundedView} {t : Trail} {n : Narrowing}

/-- A write to the slot of one element, together with its log entry and event, is `Narrowed`. -/
theorem Valid.flip (hs : s.Valid) (hv : s.scene v = some D) (hd : s.domains[v.id]? = some d)
    (hslot : d.slot e = some (r, a)) {y : BoundedView}
    (ht : Trail.Turns s.trail (s.trail.view.setBounded r.index y) t) {b : Bounds}
    (hD' : d.resolve (s.trail.view.setBounded r.index y) = some (D.withBounds b))
    (hwf : (D.withBounds b).Wf) {z : DeltaEntry} (hchange : D.Change z (D.withBounds b))
    (hz : z.Holds (D.withBounds b)) (hc : z.cause = c) :
    Narrowed s v c D (D.withBounds b)
      { s with trail := t, logs := s.logs.modify v.id (·.push z)
               sink := s.sink.push v z.event z.cause } := by
  have hmem := Domain.mem_boundedRefs_of_slot hslot
  obtain ⟨hvalid, hscene⟩ := hs.turn hv hd ht rfl (fun _ _ => rfl)
    (fun i hi => View.setBounded_of_ne _ _ fun h => hi (h ▸ hmem)) hD' hwf hchange.within
  have hlt : v.id < s.logs.size := by
    have hcount := (scene_eq_some.1 hv).1
    have hle := hs.now.countIn_eq.2.2
    have hsize := hs.logs_size
    omega
  exact
    { valid := hvalid.push_log (by rw [hscene, Function.update_self]) hz _
      before := hv
      within := hchange.within
      scene := hscene
      frame := ⟨by rw [ht.view]; rfl, fun i x hx => ⟨x, by rw [← hx, ht.view]; rfl, rfl⟩, ht.past,
        ht.clock, rfl, rfl, rfl, rfl⟩
      told := ⟨[z], logOf_push (s := { s with trail := t }) hlt z
        (s.sink.push v z.event z.cause), by simp [hc],
        (Dom.logged_iff hchange.ne_int).2 (hchange.replays hwf),
        (Dom.told_iff hchange.ne_int).2 rfl⟩
      log_ne := fun u hu => logOf_push_of_ne (s := { s with trail := t }) hu z
        (s.sink.push v z.event z.cause) }

/-- An undecided element whose needs are in the kernel enters it. -/
theorem Valid.flip_in (hs : s.Valid) (hv : s.scene v = some D) (hd : s.domains[v.id]? = some d)
    (hslot : d.slot e = some (r, a)) (hx : s.trail.view.bounded r.index = some x)
    (he : e ∈ D.envelope) (hk : e ∉ D.kernel) (hneeds : e.closure ⊆ insert e D.kernel)
    (ht : Trail.Turns s.trail
      (s.trail.view.setBounded r.index { x with kernel := insert a x.kernel }) t) :
    Narrowed s v c D (D.withBounds ⟨insert e D.kernel, D.envelope⟩)
      { s with trail := t, logs := s.logs.modify v.id (·.push (e.enforced c))
               sink := s.sink.push v (e.enforced c).event (e.enforced c).cause } := by
  obtain ⟨hlt, d', hd', hD⟩ := scene_eq_some.1 hv
  rw [hd] at hd'
  cases hd'
  obtain ⟨x', hx', -, hae, -, hint⟩ := Domain.bounded_of_slot hD hslot
  rw [hx] at hx'
  cases hx'
  have hwf := hs.wf hv
  have hD' : d.resolve (s.trail.view.setBounded r.index { x with kernel := insert a x.kernel }) =
      some (D.withBounds ⟨insert e D.kernel, D.envelope⟩) := by
    refine Domain.resolve_setBounded (y := { x with kernel := insert a x.kernel })
      (hs.nodup _ hlt d hd) hD hslot hx rfl (fun b hb => by simp [hb]) (fun b _ => Iff.rfl)
      (fun f => ?_) fun f => ?_
    · split <;> simp [*]
    · split
      · next hf => rw [hf, hae]
      · exact Iff.rfl
  refine hs.flip hv hd hslot ht hD'
    (Dom.withBounds_wf hint ⟨?_, fun f hf => hwf.ground hf, fun f hf => ?_,
      fun f hf => hwf.envelope_closed hf⟩)
    (.enters c he hk) (.inl ⟨e, by simp, ?_⟩) (Element.cause_enforced c e)
  · exact Finset.insert_subset he hwf.kernel_subset
  · rcases Finset.mem_insert.1 hf with rfl | hf
    · exact hneeds
    · exact (hwf.kernel_closed hf).trans (Finset.subset_insert _ _)
  · rw [Dom.kernel_withBounds hint]
    exact Finset.mem_insert_self _ _

/-- An undecided element that nothing else in the envelope needs leaves it. -/
theorem Valid.flip_out (hs : s.Valid) (hv : s.scene v = some D) (hd : s.domains[v.id]? = some d)
    (hslot : d.slot e = some (r, a)) (hx : s.trail.view.bounded r.index = some x)
    (he : e ∈ D.envelope) (hk : e ∉ D.kernel)
    (hneeds : ∀ f ∈ D.envelope, f ≠ e → e ∉ f.closure)
    (ht : Trail.Turns s.trail
      (s.trail.view.setBounded r.index { x with envelope := x.envelope.erase a }) t) :
    Narrowed s v c D (D.withBounds ⟨D.kernel, D.envelope.erase e⟩)
      { s with trail := t, logs := s.logs.modify v.id (·.push (e.removed c))
               sink := s.sink.push v (e.removed c).event (e.removed c).cause } := by
  obtain ⟨hlt, d', hd', hD⟩ := scene_eq_some.1 hv
  rw [hd] at hd'
  cases hd'
  obtain ⟨x', hx', hak, -, -, hint⟩ := Domain.bounded_of_slot hD hslot
  rw [hx] at hx'
  cases hx'
  have hwf := hs.wf hv
  have hD' : d.resolve
      (s.trail.view.setBounded r.index { x with envelope := x.envelope.erase a }) =
      some (D.withBounds ⟨D.kernel, D.envelope.erase e⟩) := by
    refine Domain.resolve_setBounded (y := { x with envelope := x.envelope.erase a })
      (hs.nodup _ hlt d hd) hD hslot hx rfl (fun b _ => Iff.rfl) (fun b hb => by simp [hb])
      (fun f => ?_) fun f => ?_
    · split
      · next hf => rw [hf, hak]
      · exact Iff.rfl
    · split <;> simp [*]
  refine hs.flip hv hd hslot ht hD'
    (Dom.withBounds_wf hint ⟨fun f hf => ?_, fun f hf => hwf.ground (Finset.mem_of_mem_erase hf),
      fun f hf => hwf.kernel_closed hf, fun f hf g hg => ?_⟩)
    (.leaves c he hk) (.inr ⟨e, by simp, ?_, ?_⟩) (Element.cause_removed c e)
  · exact Finset.mem_erase.2 ⟨fun h => hk (h ▸ hf), hwf.kernel_subset hf⟩
  · obtain ⟨hne, hf'⟩ := Finset.mem_erase.1 hf
    refine Finset.mem_erase.2 ⟨?_, hwf.envelope_closed hf' hg⟩
    rintro rfl
    exact hneeds f hf' hne hg
  · rw [Dom.ground_withBounds]
    exact hwf.ground he
  · rw [Dom.envelope_withBounds hint]
    exact Finset.notMem_erase _ _

end Store

end Propagation
