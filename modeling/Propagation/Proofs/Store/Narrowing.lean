import Propagation.Proofs.Store.Flip

/-!
# The specification of the narrowings

A narrowing of a set or a graph decides an element after all that it needs, or that needs it. So
it is a series of flips, and the domain that it leaves is the one that `Dom.after` says.

`Valid.narrow_ends` is the specification of every narrowing of every variable.
-/

set_option autoImplicit false

namespace Propagation.Store

open Update

variable {s : Store} {v : Var} {c : Cause} {D : Dom} {d : Domain} {e : Element} {r : BoundedRef}
  {a : Nat} {n : Narrowing}

/-! ## One element -/

theorem bounded_of_slot (hv : s.scene v = some D)
    (hd : s.domains[v.id]? = some d) (hslot : d.slot e = some (r, a)) :
    ∃ x, s.trail.view.bounded r.index = some x ∧ (e ∈ D.kernel ↔ a ∈ x.kernel) ∧
      (e ∈ D.envelope ↔ a ∈ x.envelope) ∧ (D.Ground e ↔ a < x.capacity) ∧
      ∀ vs, D ≠ .int vs := by
  obtain ⟨-, d', hd', hD⟩ := scene_eq_some.1 hv
  rw [hd] at hd'
  cases hd'
  exact Domain.bounded_of_slot hD hslot

theorem Valid.checkGround_eq (hs : s.Valid) (hv : s.scene v = some D)
    (hd : s.domains[v.id]? = some d) (hslot : d.slot e = some (r, a)) (hg : D.Ground e) :
    s.checkGround r a v = .ok () := by
  obtain ⟨x, hx, -, -, hground, -⟩ := bounded_of_slot hv hd hslot
  rw [checkGround, BoundedRef.capacity_eq hs.trail hx]
  exact if_pos (hground.1 hg)

theorem Valid.checkGround_error (hs : s.Valid) (hv : s.scene v = some D)
    (hd : s.domains[v.id]? = some d) (hslot : d.slot e = some (r, a)) (hg : ¬D.Ground e) :
    s.checkGround r a v = .error (.violation (.outsideGround a v)) := by
  obtain ⟨x, hx, -, -, hground, -⟩ := bounded_of_slot hv hd hslot
  rw [checkGround, BoundedRef.capacity_eq hs.trail hx]
  exact if_neg fun h => hg (hground.2 h)

section
variable (hs : s.Valid) (hv : s.scene v = some D) (hd : s.domains[v.id]? = some d)
  (hslot : d.slot e = some (r, a)) (ha : D.Accepts n ↔ D.Ground e)
include hs hv hd hslot ha

/-- `enforceIn` on an element `e`, if `before` has enforced the rest of its closure. -/
theorem Valid.enforceIn_ends (hn : D.after n = D.enforce e)
    (href : n.refusal = .enforceForbidden e) (before : Attempt Unit)
    (hbefore : e ∈ D.envelope → e ∉ D.kernel → Ends before s
      (fun _ s' => Narrowed s v c D
        (D.withBounds ⟨D.kernel ∪ e.closure.erase e, D.envelope⟩) s')
      fun _ _ => False) :
    Ends (enforceIn v r a e before (e.enforced c)) s (Succeeds s v n c) (Fails s v n c) := by
  obtain ⟨x, hx, hak, hae, -, hint⟩ := bounded_of_slot hv hd hslot
  by_cases hg : D.Ground e
  · have hground := hs.checkGround_eq hv hd hslot hg
    have hk := BoundedRef.kernelContains_eq hs.trail hx a
    have he := BoundedRef.envelopeContains_eq hs.trail hx a
    simp only [← hak] at hk
    simp only [← hae] at he
    by_cases hkernel : e ∈ D.kernel
    · rw [decide_eq_true hkernel] at hk
      refine ends_of_ok (a := false) (u := s) ?_ (hs.succeeds_self hv (ha.2 hg)
        (hn.trans (Dom.enforce_self (hs.wf hv) hkernel)))
      simp only [enforceIn, bind_apply, lift_apply, query_eq, hground, hk, if_true, pure_apply]
    · rw [decide_eq_false hkernel] at hk
      by_cases henvelope : e ∈ D.envelope
      · rw [decide_eq_true henvelope] at he
        have hrun : enforceIn v r a e before (e.enforced c) s =
            (do before; discard (onTrail (r.enforce a)); record v (e.enforced c); pure true :
              Attempt Bool) s := by
          simp only [enforceIn, bind_apply, lift_apply, query_eq, hground, hk, he, if_true,
            Bool.false_eq_true, if_false]
        refine (((hbefore henvelope hkernel).mono (fun _ _ h => h) fun _ _ h => h.elim).bind
          fun _ u hu => ?_).of_eq hrun
        -- what the element needs is in the kernel now, and nothing else has changed
        have hk' : (D.withBounds ⟨D.kernel ∪ e.closure.erase e, D.envelope⟩).kernel =
            D.kernel ∪ e.closure.erase e := Dom.kernel_withBounds hint _
        have he' : (D.withBounds ⟨D.kernel ∪ e.closure.erase e, D.envelope⟩).envelope =
            D.envelope := Dom.envelope_withBounds hint _
        have hd' : u.domains[v.id]? = some d := hu.frame.domains ▸ hd
        obtain ⟨y, hy, hyk, hye, -, -⟩ := bounded_of_slot hu.after hd' hslot
        have hnot : e ∉ D.kernel ∪ e.closure.erase e := by simp [hkernel]
        rw [hk'] at hyk
        rw [he'] at hye
        obtain ⟨t, ht, hturns⟩ := BoundedRef.enforce_undecided hu.valid.trail hy
          (hye.1 henvelope) fun h => hnot (hyk.2 h)
        have hflip := hu.valid.flip_in (c := c) hu.after hd' hslot hy (by rwa [he'])
          (by rwa [hk']) (fun f hf => by
            rw [hk', Finset.mem_insert, Finset.mem_union, Finset.mem_erase]
            tauto) hturns
        have hkernel' : insert e (D.kernel ∪ e.closure.erase e) = D.kernel ∪ e.closure := by
          rw [← Finset.union_insert, Finset.insert_erase (Element.mem_closure_self e)]
        rw [Dom.withBounds_withBounds, hk', he', hkernel'] at hflip
        refine ends_of_ok (a := true) ?_ ((hu.trans hint hflip).succeeds (ha.2 hg)
          (hn.trans (Dom.enforce_eq hint henvelope))
          (Dom.enforce_ne hkernel (Dom.enforce_eq hint henvelope)))
        simp only [bind_apply, lift_apply, discard_apply, onTrail_ok ht, record, modify_apply,
          pure_apply]
      · rw [decide_eq_false henvelope] at he
        have hfails : Fails s v n c (.contradiction ⟨some v, c, n.refusal⟩) s :=
          fails_contradiction hv (ha.2 hg) (hn.trans (Dom.enforce_eq_none hint henvelope))
        rw [href] at hfails
        refine ends_of_error (u := s) ?_ hfails
        simp only [enforceIn, bind_apply, lift_apply, query_eq, hground, hk, he, refuse,
          throw_apply, Bool.false_eq_true, if_false, Element.cause_enforced]
  · refine ends_of_error (u := s) ?_ (fails_violation (k := .outsideGround a v) fun D' hD' h => ?_)
    · simp only [enforceIn, bind_apply, lift_apply, query_eq, hs.checkGround_error hv hd hslot hg]
    · rw [hv] at hD'
      cases hD'
      exact hg (ha.1 h)

/-- `removeIn` on an element `e`, if `before` has removed the other elements that need it. -/
theorem Valid.removeIn_ends (hn : D.after n = D.remove e)
    (href : n.refusal = .removeMandatory e) (before : Attempt Unit)
    (hbefore : e ∈ D.envelope → e ∉ D.kernel → Ends before s
      (fun _ s' => Narrowed s v c D
        (D.withBounds ⟨D.kernel, D.envelope.filter fun f => e ∈ f.closure → f = e⟩) s')
      fun _ _ => False) :
    Ends (removeIn v r a e before (e.removed c)) s (Succeeds s v n c) (Fails s v n c) := by
  obtain ⟨x, hx, hak, hae, -, hint⟩ := bounded_of_slot hv hd hslot
  by_cases hg : D.Ground e
  · have hground := hs.checkGround_eq hv hd hslot hg
    have hk := BoundedRef.kernelContains_eq hs.trail hx a
    have he := BoundedRef.envelopeContains_eq hs.trail hx a
    simp only [← hak] at hk
    simp only [← hae] at he
    by_cases henvelope : e ∈ D.envelope
    · rw [decide_eq_true henvelope] at he
      by_cases hkernel : e ∈ D.kernel
      · rw [decide_eq_true hkernel] at hk
        have hfails : Fails s v n c (.contradiction ⟨some v, c, n.refusal⟩) s :=
          fails_contradiction hv (ha.2 hg) (hn.trans (Dom.remove_eq_none hint hkernel))
        rw [href] at hfails
        refine ends_of_error (u := s) ?_ hfails
        simp only [removeIn, bind_apply, lift_apply, query_eq, hground, hk, he, refuse,
          throw_apply, if_true, Element.cause_removed]
      · rw [decide_eq_false hkernel] at hk
        have hrun : removeIn v r a e before (e.removed c) s =
            (do before; discard (onTrail (r.remove a)); record v (e.removed c); pure true :
              Attempt Bool) s := by
          simp only [removeIn, bind_apply, lift_apply, query_eq, hground, hk, he, if_true,
            Bool.false_eq_true, if_false]
        refine (((hbefore henvelope hkernel).mono (fun _ _ h => h) fun _ _ h => h.elim).bind
          fun _ u hu => ?_).of_eq hrun
        -- nothing but the element itself needs the element now
        let E := D.envelope.filter fun f => e ∈ f.closure → f = e
        have hk' : (D.withBounds ⟨D.kernel, E⟩).kernel = D.kernel := Dom.kernel_withBounds hint _
        have he' : (D.withBounds ⟨D.kernel, E⟩).envelope = E := Dom.envelope_withBounds hint _
        have hE : e ∈ E := Finset.mem_filter.2 ⟨henvelope, fun _ => rfl⟩
        have hd' : u.domains[v.id]? = some d := hu.frame.domains ▸ hd
        obtain ⟨y, hy, hyk, hye, -, -⟩ := bounded_of_slot hu.after hd' hslot
        rw [hk'] at hyk
        rw [he'] at hye
        obtain ⟨t, ht, hturns⟩ := BoundedRef.remove_undecided hu.valid.trail hy (hye.1 hE)
          fun h => hkernel (hyk.2 h)
        have hflip := hu.valid.flip_out (c := c) hu.after hd' hslot hy (by rwa [he'])
          (by rwa [hk']) (fun f hf hne hef => by
            rw [he'] at hf
            exact hne ((Finset.mem_filter.1 hf).2 hef)) hturns
        have hE' : E.erase e = D.envelope.filter fun f => e ∉ f.closure := by
          ext f
          rw [Finset.mem_erase, Finset.mem_filter, Finset.mem_filter]
          constructor
          · rintro ⟨hne, hf, h⟩
            exact ⟨hf, fun hef => hne (h hef)⟩
          · rintro ⟨hf, hef⟩
            refine ⟨?_, hf, fun h => absurd h hef⟩
            rintro rfl
            exact hef (Element.mem_closure_self f)
        rw [Dom.withBounds_withBounds, hk', he', hE'] at hflip
        refine ends_of_ok (a := true) ?_ ((hu.trans hint hflip).succeeds (ha.2 hg)
          (hn.trans (Dom.remove_eq hint hkernel)) fun h => ?_)
        · simp only [bind_apply, lift_apply, discard_apply, onTrail_ok ht, record, modify_apply,
            pure_apply]
        · have := congrArg Dom.envelope h
          rw [Dom.envelope_withBounds hint] at this
          rw [← this] at henvelope
          exact (Finset.mem_filter.1 henvelope).2 (Element.mem_closure_self e)
    · rw [decide_eq_false henvelope] at he
      refine ends_of_ok (a := false) (u := s) ?_ (hs.succeeds_self hv (ha.2 hg)
        (hn.trans (Dom.remove_self hint (hs.wf hv) henvelope)))
      simp only [removeIn, bind_apply, lift_apply, query_eq, hground, he, pure_apply,
        Bool.false_eq_true, if_false]
  · refine ends_of_error (u := s) ?_ (fails_violation (k := .outsideGround a v) fun D' hD' h => ?_)
    · simp only [removeIn, bind_apply, lift_apply, query_eq, hs.checkGround_error hv hd hslot hg]
    · rw [hv] at hD'
      cases hD'
      exact hg (ha.1 h)

end

/-! ## Narrowings without a cascade -/

/-- A value or an arc is in the closure of itself only. -/
theorem eq_of_mem_closure {f : Element} (he : ∀ k, e ≠ .node k) (h : e ∈ f.closure) : f = e := by
  cases f with
  | value b => exact (Finset.mem_singleton.1 h).symm
  | node k => exact absurd (Finset.mem_singleton.1 h) (he k)
  | arc i j =>
    simp only [Element.closure, Finset.mem_insert, Finset.mem_singleton] at h
    rcases h with h | h | h
    · exact h.symm
    · exact absurd h (he i)
    · exact absurd h (he j)

/-- `before` is empty for an element with a trivial closure. -/
theorem Valid.before_enforce (hs : s.Valid) (hv : s.scene v = some D) (he : e.closure = {e}) :
    Ends (pure () : Attempt Unit) s
      (fun _ s' => Narrowed s v c D (D.withBounds ⟨D.kernel ∪ e.closure.erase e, D.envelope⟩) s')
      fun _ _ => False := by
  refine ends_of_ok (pure_apply () s) ?_
  rw [he, Finset.erase_singleton, Finset.union_empty, Dom.withBounds_self]
  exact hs.narrowed_self hv c

/-- `before` is empty for an element that no other one needs. -/
theorem Valid.before_remove (hs : s.Valid) (hv : s.scene v = some D) (he : ∀ k, e ≠ .node k) :
    Ends (pure () : Attempt Unit) s
      (fun _ s' => Narrowed s v c D
        (D.withBounds ⟨D.kernel, D.envelope.filter fun f => e ∈ f.closure → f = e⟩) s')
      fun _ _ => False := by
  refine ends_of_ok (pure_apply () s) ?_
  have hf : (D.envelope.filter fun f => e ∈ f.closure → f = e) = D.envelope :=
    Finset.filter_true_of_mem fun f _ h => eq_of_mem_closure he h
  rw [hf, Dom.withBounds_self]
  exact hs.narrowed_self hv c

/-- A narrowing of a kind other than that of the variable ends in a violation. -/
theorem fails_of_kind {k : Violation} (h : ∀ D, s.scene v = some D → D.kindOf ≠ n.kind) :
    Fails s v n c (.fault (.violation k)) s :=
  fails_violation fun D hD ha => h D hD ha.kindOf_eq

/-- A narrowing of a set or a graph for which `Dom.after` is `some D'` can only succeed. -/
theorem ends_narrowed {x : Attempt Bool} {D' : Dom}
    (h : Ends x s (Succeeds s v n c) (Fails s v n c)) (hv : s.scene v = some D)
    (hn : n.kind ≠ .int) (ha : D.Accepts n) (hafter : D.after n = some D') :
    Ends x s (fun _ s' => Narrowed s v c D D' s') fun _ _ => False := by
  refine h.mono ?_ ?_
  · rintro _ s' ⟨E, E', -, hE', -, hnarrowed, -⟩
    have hE := hnarrowed.before
    rw [hv] at hE
    cases hE
    rw [hafter] at hE'
    cases hE'
    exact hnarrowed
  · rintro f s' hf
    cases f with
    | contradiction x =>
      obtain ⟨-, -, E, hE, -, hnone⟩ := hf
      rw [hv] at hE
      cases hE
      rw [hafter] at hnone
      cases hnone
    | fault f =>
      rcases hf with ⟨-, hint, -⟩ | ⟨k, -, -, hk⟩
      · exact hn hint
      · exact hk _ hv ha

theorem Valid.addToKernel_ends (hs : s.Valid) (v : Var) (a : Nat) (c : Cause) :
    Ends (addToKernel v a c) s (Succeeds s v (.addToKernel a) c)
      (Fails s v (.addToKernel a) c) := by
  by_cases h : ∃ D, s.scene v = some D ∧ D.kindOf = .set
  · obtain ⟨D, hv, hkind⟩ := h
    obtain ⟨n, b, rfl⟩ := Dom.kindOf_eq_set hkind
    obtain ⟨r, -, hr, hd, -⟩ := hs.elements_eq hv
    refine (hs.enforceIn_ends (e := .value a) hv hd rfl Iff.rfl rfl rfl (pure ()) fun _ _ =>
      hs.before_enforce hv rfl).of_eq ?_
    simp only [addToKernel, bind_apply, lift_apply, query_eq, hr]
    rfl
  · have hno : ∀ D, s.scene v = some D → D.kindOf ≠ .set := fun D hD hk => h ⟨D, hD, hk⟩
    obtain ⟨k, hk⟩ := hs.elements_error hno
    refine ends_of_error (u := s) ?_ (fails_of_kind (k := k) hno)
    simp only [addToKernel, bind_apply, lift_apply, query_eq, hk]

theorem Valid.removeFromEnvelope_ends (hs : s.Valid) (v : Var) (a : Nat) (c : Cause) :
    Ends (removeFromEnvelope v a c) s (Succeeds s v (.removeFromEnvelope a) c)
      (Fails s v (.removeFromEnvelope a) c) := by
  by_cases h : ∃ D, s.scene v = some D ∧ D.kindOf = .set
  · obtain ⟨D, hv, hkind⟩ := h
    obtain ⟨n, b, rfl⟩ := Dom.kindOf_eq_set hkind
    obtain ⟨r, -, hr, hd, -⟩ := hs.elements_eq hv
    refine (hs.removeIn_ends (e := .value a) hv hd rfl Iff.rfl rfl rfl (pure ()) fun _ _ =>
      hs.before_remove hv (by simp)).of_eq ?_
    simp only [removeFromEnvelope, bind_apply, lift_apply, query_eq, hr]
    rfl
  · have hno : ∀ D, s.scene v = some D → D.kindOf ≠ .set := fun D hD hk => h ⟨D, hD, hk⟩
    obtain ⟨k, hk⟩ := hs.elements_error hno
    refine ends_of_error (u := s) ?_ (fails_of_kind (k := k) hno)
    simp only [removeFromEnvelope, bind_apply, lift_apply, query_eq, hk]

/-! ## Graphs -/

section
variable {m : Nat} {b : Bounds}

theorem Valid.nodes_eq (hs : s.Valid) (hv : s.scene v = some (.graph m b)) :
    ∃ r rows, s.nodes v = .ok r ∧ s.domains[v.id]? = some (.graph r rows) ∧ rows.size = m := by
  obtain ⟨r, rows, -, hg, hd, hn, -⟩ := hs.graph_eq hv
  refine ⟨r, rows, ?_, hd, hn⟩
  rw [nodes, hg]
  rfl

theorem Valid.nodes_error (hs : s.Valid) (h : ∀ D, s.scene v = some D → D.kindOf ≠ .graph) :
    ∃ k, s.nodes v = .error (.violation k) := by
  obtain ⟨k, hk⟩ := hs.graph_error h
  exact ⟨k, by rw [nodes, hk]; rfl⟩

theorem Valid.row_eq (hs : s.Valid) (hv : s.scene v = some (.graph m b)) {i : Nat} (hi : i < m) :
    ∃ r d, s.successors v i = .ok r ∧ s.domains[v.id]? = some d ∧
      ∀ j, d.slot (.arc i j) = some (r, j) := by
  obtain ⟨r, -, hr, -, -, ⟨nodes, rows, hd, hrow⟩, -⟩ := hs.successors_eq hv hi
  exact ⟨r, _, hr, hd, fun j => by rw [Domain.slot, hrow]; rfl⟩

/-- `successors v i` is a violation unless `i` is a node of a graph. -/
theorem Valid.row_error (hs : s.Valid) {i : Nat}
    (h : ∀ m b, s.scene v = some (.graph m b) → ¬i < m) :
    ∃ k, s.successors v i = .error (.violation k) := by
  by_cases hg : ∃ D, s.scene v = some D ∧ D.kindOf = .graph
  · obtain ⟨D, hv, hkind⟩ := hg
    obtain ⟨m, b, rfl⟩ := Dom.kindOf_eq_graph hkind
    exact ⟨_, hs.successors_error hv (h m b hv)⟩
  · obtain ⟨k, hk⟩ := hs.graph_error fun D hD hkind => hg ⟨D, hD, hkind⟩
    exact ⟨k, by rw [successors, hk]; rfl⟩

theorem Valid.enforceNode_ends (hs : s.Valid) (v : Var) (i : Nat) (c : Cause) :
    Ends (enforceNode v i c) s (Succeeds s v (.enforceNode i) c)
      (Fails s v (.enforceNode i) c) := by
  by_cases h : ∃ D, s.scene v = some D ∧ D.kindOf = .graph
  · obtain ⟨D, hv, hkind⟩ := h
    obtain ⟨m, b, rfl⟩ := Dom.kindOf_eq_graph hkind
    obtain ⟨r, rows, hr, hd, -⟩ := hs.nodes_eq hv
    refine (hs.enforceIn_ends (e := .node i) hv hd rfl Iff.rfl rfl rfl (pure ()) fun _ _ =>
      hs.before_enforce hv rfl).of_eq ?_
    simp only [enforceNode, bind_apply, lift_apply, query_eq, hr]
    rfl
  · have hno : ∀ D, s.scene v = some D → D.kindOf ≠ .graph := fun D hD hk => h ⟨D, hD, hk⟩
    obtain ⟨k, hk⟩ := hs.nodes_error hno
    refine ends_of_error (u := s) ?_ (fails_of_kind (k := k) hno)
    simp only [enforceNode, bind_apply, lift_apply, query_eq, hk]

/-- Enforcing a node of the envelope succeeds. -/
theorem Valid.enforceNode_narrows (hs : s.Valid) (hv : s.scene v = some (.graph m b)) {i : Nat}
    (hi : .node i ∈ b.envelope) (c : Cause) :
    Ends (enforceNode v i c) s
      (fun _ s' => Narrowed s v c (.graph m b)
        (.graph m ⟨insert (.node i) b.kernel, b.envelope⟩) s')
      fun _ _ => False := by
  have hwf : b.Wf (Element.OfGraph m) := hs.wf hv
  have hafter : (Dom.graph m b).after (.enforceNode i) =
      some (.graph m ⟨insert (.node i) b.kernel, b.envelope⟩) := by
    have h := Dom.enforce_eq (D := .graph m b) (by simp) hi
    rw [Element.closure, Finset.union_comm, ← Finset.insert_eq] at h
    exact h
  exact ends_narrowed (hs.enforceNode_ends v i c) hv (by simp [Narrowing.kind]) (hwf.ground _ hi) hafter

theorem Valid.enforceArc_ends (hs : s.Valid) (v : Var) (i j : Nat) (c : Cause) :
    Ends (enforceArc v i j c) s (Succeeds s v (.enforceArc i j) c)
      (Fails s v (.enforceArc i j) c) := by
  by_cases h : ∃ m b, s.scene v = some (.graph m b) ∧ i < m
  · obtain ⟨m, b, hv, hi⟩ := h
    obtain ⟨r, d, hr, hd, hslot⟩ := hs.row_eq hv hi
    let ends : Attempt Unit := do
      discard (enforceNode v i c)
      discard (enforceNode v j c)
    refine (hs.enforceIn_ends (e := .arc i j) hv hd (hslot j) Iff.rfl rfl rfl ends
      fun he _ => ?_).of_eq ?_
    · have hwf : b.Wf (Element.OfGraph m) := hs.wf hv
      have hnodes := hwf.envelope_closed _ he
      have hi' : Element.node i ∈ b.envelope := hnodes (by simp [Element.closure])
      have hj' : Element.node j ∈ b.envelope := hnodes (by simp [Element.closure])
      refine (hs.enforceNode_narrows hv hi' c).discard.bind fun _ u hu => ?_
      refine ((hu.valid.enforceNode_narrows hu.after hj' c).discard.mono (fun _ u' hu' => ?_)
        fun _ _ h => h)
      have hkernel : b.kernel ∪ (Element.arc i j).closure.erase (.arc i j) =
          insert (.node j) (insert (.node i) b.kernel) := by
        ext f
        simp only [Element.closure, Finset.mem_union, Finset.mem_erase, Finset.mem_insert,
          Finset.mem_singleton]
        grind
      show Narrowed s v c (.graph m b)
        (.graph m ⟨b.kernel ∪ (Element.arc i j).closure.erase (.arc i j), b.envelope⟩) u'
      rw [hkernel]
      exact hu.trans (by simp) hu'
    · simp only [enforceArc, bind_apply, lift_apply, query_eq, hr]
      rfl
  · have hno : ∀ m b, s.scene v = some (.graph m b) → ¬i < m := fun m b hv hi =>
      h ⟨m, b, hv, hi⟩
    obtain ⟨k, hk⟩ := hs.row_error hno
    refine ends_of_error (u := s) ?_ (fails_violation (k := k) fun D hD ha => ?_)
    · simp only [enforceArc, bind_apply, lift_apply, query_eq, hk]
    · obtain ⟨m, b, rfl⟩ := Dom.kindOf_eq_graph ha.kindOf_eq
      exact hno m b hD ha.1

theorem Valid.removeArc_ends (hs : s.Valid) (v : Var) (i j : Nat) (c : Cause) :
    Ends (removeArc v i j c) s (Succeeds s v (.removeArc i j) c)
      (Fails s v (.removeArc i j) c) := by
  by_cases h : ∃ m b, s.scene v = some (.graph m b) ∧ i < m
  · obtain ⟨m, b, hv, hi⟩ := h
    obtain ⟨r, d, hr, hd, hslot⟩ := hs.row_eq hv hi
    refine (hs.removeIn_ends (e := .arc i j) hv hd (hslot j) Iff.rfl rfl rfl (pure ()) fun _ _ =>
      hs.before_remove hv (by simp)).of_eq ?_
    simp only [removeArc, bind_apply, lift_apply, query_eq, hr]
    rfl
  · have hno : ∀ m b, s.scene v = some (.graph m b) → ¬i < m := fun m b hv hi =>
      h ⟨m, b, hv, hi⟩
    obtain ⟨k, hk⟩ := hs.row_error hno
    refine ends_of_error (u := s) ?_ (fails_violation (k := k) fun D hD ha => ?_)
    · simp only [removeArc, bind_apply, lift_apply, query_eq, hk]
    · obtain ⟨m, b, rfl⟩ := Dom.kindOf_eq_graph ha.kindOf_eq
      exact hno m b hD ha.1

/-- Removing an arc out of the kernel succeeds. -/
theorem Valid.removeArc_narrows (hs : s.Valid) (hv : s.scene v = some (.graph m b)) {i j : Nat}
    (hi : i < m) (hj : j < m) (hk : .arc i j ∉ b.kernel) (c : Cause) :
    Ends (removeArc v i j c) s
      (fun _ s' => Narrowed s v c (.graph m b)
        (.graph m ⟨b.kernel, b.envelope.erase (.arc i j)⟩) s')
      fun _ _ => False := by
  have hafter : (Dom.graph m b).after (.removeArc i j) =
      some (.graph m ⟨b.kernel, b.envelope.erase (.arc i j)⟩) := by
    have h := Dom.remove_eq (D := .graph m b) (e := .arc i j) (by simp) hk
    have herase : (b.envelope.filter fun f => Element.arc i j ∉ f.closure) =
        b.envelope.erase (.arc i j) := by
      ext f
      rw [Finset.mem_filter, Finset.mem_erase, and_comm]
      refine and_congr_left fun _ => not_congr ⟨fun h => eq_of_mem_closure (by simp) h, ?_⟩
      rintro rfl
      exact Element.mem_closure_self _
    rw [← herase]
    exact h
  exact ends_narrowed (hs.removeArc_ends v i j c) hv (by simp [Narrowing.kind]) ⟨hi, hj⟩ hafter

/-- Removing several arcs out of the kernel succeeds, for instance a row or a column. -/
theorem Valid.removeArcs_narrows (hs : s.Valid) (hv : s.scene v = some (.graph m b))
    (js : List Nat) (arc : Nat → Nat × Nat)
    (hjs : ∀ j ∈ js, ((arc j).1 < m ∧ (arc j).2 < m) ∧ .arc (arc j).1 (arc j).2 ∉ b.kernel)
    (c : Cause) :
    Ends (js.forM fun j => discard (removeArc v (arc j).1 (arc j).2 c)) s
      (fun _ s' => Narrowed s v c (.graph m b) (.graph m ⟨b.kernel,
        b.envelope.filter fun f => ∀ j ∈ js, f ≠ .arc (arc j).1 (arc j).2⟩) s')
      fun _ _ => False := by
  induction js generalizing s b with
  | nil =>
    refine ends_of_ok (a := ()) (u := s) rfl ?_
    have hf : (b.envelope.filter fun f => ∀ j ∈ ([] : List Nat), f ≠ .arc (arc j).1 (arc j).2) =
        b.envelope := Finset.filter_true_of_mem (by simp)
    rw [hf]
    exact hs.narrowed_self hv c
  | cons j js ih =>
    obtain ⟨⟨h1, h2⟩, hk⟩ := hjs j List.mem_cons_self
    refine (hs.removeArc_narrows hv h1 h2 hk c).discard.bind fun _ u hu => ?_
    refine (ih hu.valid hu.after fun k hk => hjs k (List.mem_cons_of_mem j hk)).mono
      (fun _ u' hu' => ?_) fun _ _ h => h
    have hf : (b.envelope.filter fun f => ∀ k ∈ j :: js, f ≠ .arc (arc k).1 (arc k).2) =
        (b.envelope.erase (.arc (arc j).1 (arc j).2)).filter
          fun f => ∀ k ∈ js, f ≠ .arc (arc k).1 (arc k).2 := by
      ext f
      simp only [Finset.mem_filter, Finset.mem_erase, List.forall_mem_cons]
      tauto
    rw [hf]
    exact hu.trans (by simp) hu'

/-- `detach` on a node out of the kernel removes the arcs that touch it. -/
theorem Valid.detach_narrows (hs : s.Valid) (hv : s.scene v = some (.graph m b)) {i : Nat}
    (hi : i < m) (hk : .node i ∉ b.kernel) (c : Cause) :
    Ends (detach v i c) s
      (fun _ s' => Narrowed s v c (.graph m b) (.graph m ⟨b.kernel,
        b.envelope.filter fun f => .node i ∈ f.closure → f = .node i⟩) s')
      fun _ _ => False := by
  have hwf : b.Wf (Element.OfGraph m) := hs.wf hv
  have hno : ∀ j k, j = i ∨ k = i → .arc j k ∉ b.kernel := by
    rintro j k h hmem
    refine hk (hwf.kernel_closed _ hmem ?_)
    rcases h with rfl | rfl <;> simp [Element.closure]
  have hleaving := hs.envelopeSuccessors_eq hv hi
  have hrun : detach v i c s =
      (do
        ((targetsOf b.envelope i).sort).forM fun j => discard (removeArc v i j c)
        let n ← (query (·.nodeCount v) : Op Nat)
        (List.range n).forM fun j => discard (removeArc v j i c) : Attempt Unit) s := by
    simp only [detach, bind_apply, lift_apply, query_eq, hleaving]
  refine Ends.of_eq ?_ hrun
  refine (hs.removeArcs_narrows hv _ (fun j => (i, j)) (fun j hj => ⟨⟨hi, ?_⟩, hno i j (.inl rfl)⟩)
    c).bind fun _ u hu => ?_
  · exact (hwf.ground _ (mem_targetsOf.1 ((Finset.mem_sort _).1 hj))).2
  · have hrun' : (do
        let n ← (query (·.nodeCount v) : Op Nat)
        (List.range n).forM fun j => discard (removeArc v j i c) : Attempt Unit) u =
        (List.range m).forM (fun j => discard (removeArc v j i c)) u := by
      simp only [bind_apply, lift_apply, query_eq, hu.valid.nodeCount_eq hu.after]
    refine Ends.of_eq ?_ hrun'
    refine (hu.valid.removeArcs_narrows hu.after _ (fun j => (j, i))
      (fun j hj => ⟨⟨List.mem_range.1 hj, hi⟩, hno j i (.inr rfl)⟩) c).mono (fun _ u' hu' => ?_)
      fun _ _ h => h
    have hf : (b.envelope.filter fun f => Element.node i ∈ f.closure → f = .node i) =
        (b.envelope.filter fun f => ∀ j ∈ (targetsOf b.envelope i).sort, f ≠ .arc i j).filter
          fun f => ∀ j ∈ List.range m, f ≠ .arc j i := by
      ext f
      simp only [Finset.mem_filter, Finset.mem_sort, mem_targetsOf, List.mem_range, and_assoc]
      refine and_congr_right fun hf => ⟨fun h => ⟨fun j _ hfj => ?_, fun j _ hfj => ?_⟩,
        fun h hmem => ?_⟩
      · subst hfj
        cases h (by simp [Element.closure])
      · subst hfj
        cases h (by simp [Element.closure])
      · cases f with
        | value a => simp [Element.closure] at hmem
        | node k => simpa [Element.closure, eq_comm] using hmem
        | arc j k =>
          simp only [Element.closure, Finset.mem_insert, Finset.mem_singleton, reduceCtorEq,
            Element.node.injEq, false_or] at hmem
          rcases hmem with rfl | rfl
          · exact absurd rfl (h.1 k hf)
          · exact absurd rfl (h.2 j (hwf.ground _ hf).1)
    rw [hf]
    exact hu.trans (by simp) hu'

theorem Valid.removeNode_ends (hs : s.Valid) (v : Var) (i : Nat) (c : Cause) :
    Ends (removeNode v i c) s (Succeeds s v (.removeNode i) c)
      (Fails s v (.removeNode i) c) := by
  by_cases h : ∃ D, s.scene v = some D ∧ D.kindOf = .graph
  · obtain ⟨D, hv, hkind⟩ := h
    obtain ⟨m, b, rfl⟩ := Dom.kindOf_eq_graph hkind
    obtain ⟨r, rows, hr, hd, -⟩ := hs.nodes_eq hv
    have hwf : b.Wf (Element.OfGraph m) := hs.wf hv
    refine (hs.removeIn_ends (e := .node i) hv hd rfl Iff.rfl rfl rfl (detach v i c) fun he hk =>
      hs.detach_narrows hv (hwf.ground _ he) hk c).of_eq ?_
    simp only [removeNode, bind_apply, lift_apply, query_eq, hr]
    rfl
  · have hno : ∀ D, s.scene v = some D → D.kindOf ≠ .graph := fun D hD hk => h ⟨D, hD, hk⟩
    obtain ⟨k, hk⟩ := hs.nodes_error hno
    refine ends_of_error (u := s) ?_ (fails_of_kind (k := k) hno)
    simp only [removeNode, bind_apply, lift_apply, query_eq, hk]

end

/-! ## Every narrowing -/

/-- An integer narrowing of another kind of variable ends in a violation. -/
theorem fails_of_no_int {x : Attempt Bool} {α : Type} {f : Store → Except Fault α}
    {g : α → Attempt Bool} (hs : s.Valid) (hn : n.kind = .int)
    (h : ∀ D, s.scene v = some D → D.kindOf ≠ .int)
    (hf : ∀ k, s.ints v = .error k → f s = .error k)
    (hx : x = (do let a ← (query f : Op α); g a)) :
    Ends x s (Succeeds s v n c) (Fails s v n c) := by
  obtain ⟨k, hk⟩ := hs.ints_error h
  refine ends_of_error (u := s) ?_ (fails_of_kind (k := k) fun D hD => hn ▸ h D hD)
  rw [hx]
  simp only [bind_apply, lift_apply, query_eq, hf _ hk]

/-- The specification of `narrow`: it leaves the domain `Dom.after n`, or is refused if there is
none. -/
theorem Valid.narrow_ends (hs : s.Valid) (v : Var) (n : Narrowing) (c : Cause) :
    Ends (narrow v n c) s (Succeeds s v n c) (Fails s v n c) := by
  have hcontains : ∀ a k, s.ints v = .error k → s.contains v a = .error k := fun a k hk => by
    rw [contains, hk]; rfl
  have hmin : ∀ k, s.ints v = .error k → s.min v = .error k := fun k hk => by
    rw [min, hk]; rfl
  by_cases h : ∃ D, s.scene v = some D ∧ D.kindOf = .int
  · obtain ⟨D, hv, hkind⟩ := h
    obtain ⟨vs, rfl⟩ := Dom.kindOf_eq_int hkind
    cases n with
    | fix a => exact hs.fix_ends hv a c
    | remove a => exact hs.remove_ends hv a c
    | removeBelow a => exact hs.removeBelow_ends hv a c
    | removeAbove a => exact hs.removeAbove_ends hv a c
    | addToKernel a => exact hs.addToKernel_ends v a c
    | removeFromEnvelope a => exact hs.removeFromEnvelope_ends v a c
    | enforceNode i => exact hs.enforceNode_ends v i c
    | removeNode i => exact hs.removeNode_ends v i c
    | enforceArc i j => exact hs.enforceArc_ends v i j c
    | removeArc i j => exact hs.removeArc_ends v i j c
  · have hno : ∀ D, s.scene v = some D → D.kindOf ≠ .int := fun D hD hk => h ⟨D, hD, hk⟩
    cases n with
    | fix a => exact fails_of_no_int hs rfl hno (hcontains a) rfl
    | remove a => exact fails_of_no_int hs rfl hno (hcontains a) rfl
    | removeBelow a => exact fails_of_no_int hs rfl hno hmin rfl
    | removeAbove a => exact fails_of_no_int hs rfl hno hmin rfl
    | addToKernel a => exact hs.addToKernel_ends v a c
    | removeFromEnvelope a => exact hs.removeFromEnvelope_ends v a c
    | enforceNode i => exact hs.enforceNode_ends v i c
    | removeNode i => exact hs.removeNode_ends v i c
    | enforceArc i j => exact hs.enforceArc_ends v i j c
    | removeArc i j => exact hs.removeArc_ends v i j c

theorem Valid.narrow_evolves (hs : s.Valid) (v : Var) (n : Narrowing) (c : Cause) :
    Ends (narrow v n c) s (fun _ s' => Evolves s s') fun _ s' => Evolves s s' := by
  refine (hs.narrow_ends v n c).mono ?_ ?_
  · rintro _ s' ⟨D, D', -, -, -, h, -⟩
    exact h.evolves
  · rintro (x | f) s' h
    · rw [h.1]
      exact hs.evolves_self
    · rcases h with ⟨-, -, -, h⟩ | ⟨k, -, rfl, -⟩
      · exact h
      · exact hs.evolves_self

end Propagation.Store
