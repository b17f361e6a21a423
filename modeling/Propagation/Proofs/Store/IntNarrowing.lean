import Propagation.Proofs.Store.Change

/-!
# Narrowing an integer variable

Each of the four narrowings keeps the integers that pass its test, and is refused iff there are
none. Its events are determined by the bounds that have moved and by whether one value is left.
-/

set_option autoImplicit false

namespace Propagation

namespace Dom

variable {vs : Finset Int} {p : Int → Prop} [DecidablePred p]

theorem keep_int (h : (vs.filter p).Nonempty) :
    (Dom.int vs).keep p = some (.int (vs.filter p)) := if_pos h

theorem keep_int_of_all (hne : vs.Nonempty) (h : ∀ a ∈ vs, p a) :
    (Dom.int vs).keep p = some (.int vs) := by
  have hf : vs.filter p = vs := Finset.filter_true_of_mem h
  rw [keep_int (by rwa [hf]), hf]

theorem keep_int_of_none (h : ∀ a ∈ vs, ¬p a) : (Dom.int vs).keep p = none := by
  refine if_neg ?_
  rw [Finset.filter_false_of_mem h]
  exact Finset.not_nonempty_empty

end Dom

namespace Store

open Update

variable {s : Store} {v : Var} {c : Cause} {vs : Finset Int}

/-! ## The common part -/

section
variable (hs : s.Valid) (hv : s.scene v = some (.int vs)) {r : SparseRef} {x : SparseView}
  (hd : s.domains[v.id]? = some (.int r)) (hx : s.trail.view.sparse r.index = some x)
  (hvs : x.values = vs) {p : Int → Prop} [DecidablePred p] (hne : (vs.filter p).Nonempty)
  {t : Trail}
  (ht : Trail.Turns s.trail (s.trail.view.setSparse r.index (x.keep p)) t)
include hs hv hd hx hvs hne ht

/-- A write to the sparse set of an integer variable that keeps the values with `p` changes its
domain only. -/
theorem Valid.turn_keep : ({ s with trail := t } : Store).Valid ∧
    ({ s with trail := t } : Store).scene =
      Function.update s.scene v (some (.int (vs.filter p))) ∧
    ∀ k : Sink, Frame s { s with trail := t, sink := k } := by
  have hD' : (Domain.int r).resolve (s.trail.view.setSparse r.index (x.keep p)) =
      some (.int (vs.filter p)) := by
    rw [Domain.resolve, View.setSparse_self, Option.map_some, SparseView.values_keep, hvs]
  obtain ⟨hvalid, hscene⟩ := hs.turn hv hd ht rfl
    (fun i hi => View.setSparse_of_ne _ _ fun h => hi (h ▸ List.mem_cons_self))
    (fun _ _ => rfl) hD' hne (Finset.filter_subset _ _)
  refine ⟨hvalid, hscene, fun k => ⟨by rw [ht.view]; rfl, fun i y hy => ?_, ht.past, ht.clock,
    rfl, rfl, rfl, rfl⟩⟩
  show ∃ z, t.view.sparse i = some z ∧ _
  rw [ht.view]
  by_cases hi : i = r.index
  · subst hi
    cases hx.symm.trans hy
    exact ⟨_, View.setSparse_self _ _ _, rfl⟩
  · exact ⟨y, (View.setSparse_of_ne _ _ hi).trans hy, rfl⟩

/-- Such a write without events, as an overflow leaves it, is a step of the store. -/
theorem Valid.evolves_keep : Evolves s { s with trail := t } := by
  obtain ⟨hvalid, hscene, hframe⟩ := hs.turn_keep hv hd hx hvs hne ht
  exact (hframe s.sink).evolves hvalid hv (Finset.filter_subset _ _) hscene

/-- Such a write together with its events is `Narrowed`. -/
theorem Valid.kept : ({ s with trail := t } : Store).Valid ∧
    ({ s with trail := t } : Store).scene v = some (.int (vs.filter p)) ∧
    ∀ m : Mask, (∀ e, e ∈ m ↔ (Dom.int vs).Emits (.int (vs.filter p)) e) →
      Narrowed s v c (.int vs) (.int (vs.filter p))
        { s with trail := t, sink := s.sink.pushAll v m c } := by
  obtain ⟨hvalid, hscene, hframe⟩ := hs.turn_keep hv hd hx hvs hne ht
  refine ⟨hvalid, by rw [hscene, Function.update_self], fun m hm => ?_⟩
  exact
    { valid := hvalid.aside _ _
      before := hv
      within := Finset.filter_subset _ _
      scene := hscene
      frame := hframe _
      told := ⟨[], (List.append_nil _).symm, by simp, rfl, m, hm, rfl⟩
      log_ne := fun _ _ => rfl }

end

/-- The events of a passage of integers, given which bounds have moved. -/
theorem Dom.emits_int_iff {vs' : Finset Int} (hne : vs' ≠ vs) {lo hi : Int}
    (hlo : IsLeast (vs : Set Int) lo) (hhi : IsGreatest (vs : Set Int) hi) {m : Mask}
    (hm : ∀ e, e ∈ m ↔ e = .removal ∨ (e = .instantiate ∧ vs'.card = 1) ∨
      (e = .lowerBound ∧ lo ∉ vs') ∨ (e = .upperBound ∧ hi ∉ vs')) (e : Event) :
    e ∈ m ↔ (Dom.int vs).Emits (.int vs') e := by
  have hl : (∀ a, IsLeast (vs : Set Int) a → a ∉ vs') ↔ lo ∉ vs' :=
    ⟨fun h => h lo hlo, fun h a ha => ha.unique hlo ▸ h⟩
  have hg : (∀ a, IsGreatest (vs : Set Int) a → a ∉ vs') ↔ hi ∉ vs' :=
    ⟨fun h => h hi hhi, fun h a ha => ha.unique hhi ▸ h⟩
  rw [hm]
  cases e <;> simp [Dom.Emits, hne, hl, hg]

theorem Valid.exists_bounds (hs : s.Valid) (hv : s.scene v = some (.int vs)) :
    ∃ lo hi, IsLeast (vs : Set Int) lo ∧ IsGreatest (vs : Set Int) hi :=
  ⟨_, _, vs.isLeast_min' (hs.wf hv), vs.isGreatest_max' (hs.wf hv)⟩

/-! ## Queries before a narrowing -/

/-- A query that answers `a`, in front of an attempt. -/
theorem ends_query {α β : Type} {q : Store → Except Fault α} {f : α → Attempt β} {a : α}
    {ok : β → Store → Prop} {bad : Failure → Store → Prop} (hq : q s = .ok a)
    (h : Ends (f a) s ok bad) : Ends ((query q : Op α) >>= f : Attempt β) s ok bad := by
  refine h.of_eq ?_
  simp only [bind_apply, lift_apply, query_eq, hq]

section
variable {n : Narrowing} (hs : s.Valid) (hv : s.scene v = some (.int vs)) (hn : n.kind = .int)
include hs hn

/-- A query that overflows, at the start of a narrowing. -/
theorem Valid.fails_query {α : Type} {q : Store → Except Fault α} {f : α → Attempt Bool}
    (hq : q s = .error .overflow) (hover : s.Overreaches v n) :
    Ends ((query q : Op α) >>= f : Attempt Bool) s (Succeeds s v n c) (Fails s v n c) := by
  refine ends_of_error (e := .fault .overflow) (u := s) ?_ (fails_overflow hn hover hs.evolves_self)
  simp only [bind_apply, lift_apply, query_eq, hq]

include hv

/-- `contains` at the start of a narrowing answers membership, or overflows. -/
theorem Valid.ends_contains {a : Int} (hsum : ∀ o, a - o ∈ n.sums o) {f : Bool → Attempt Bool}
    (h : Ends (f (decide (a ∈ vs))) s (Succeeds s v n c) (Fails s v n c)) :
    Ends ((query (·.contains v a) : Op Bool) >>= f : Attempt Bool) s (Succeeds s v n c)
      (Fails s v n c) := by
  rcases hs.contains_eq hv a with hcontains | hcontains
  · exact ends_query hcontains h
  · exact hs.fails_query hn hcontains (hs.overreaches_of_contains hv hsum hcontains)

/-- `min` and `max` at the start of a narrowing answer the bounds of `vs`. -/
theorem Valid.ends_bounds {lo hi : Int} (hlo : IsLeast (vs : Set Int) lo)
    (hhi : IsGreatest (vs : Set Int) hi) {f : Option Int → Option Int → Attempt Bool}
    (h : Ends (f (some lo) (some hi)) s (Succeeds s v n c) (Fails s v n c)) :
    Ends (do
        let lo ← (query (·.min v) : Op (Option Int))
        let hi ← (query (·.max v) : Op (Option Int))
        f lo hi : Attempt Bool) s (Succeeds s v n c) (Fails s v n c) := by
  rcases hs.min_eq hv hlo with hmin | hmin
  · refine ends_query hmin ?_
    rcases hs.max_eq hv hhi with hmax | hmax
    · exact ends_query hmax h
    · exact hs.fails_query hn hmax (hs.overreaches_of_max hv hhi hmax)
  · exact hs.fails_query hn hmin (hs.overreaches_of_min hv hlo hmin)

end

/-! ## The four narrowings -/

theorem Valid.fix_ends (hs : s.Valid) (hv : s.scene v = some (.int vs)) (a : Int) (c : Cause) :
    Ends (fix v a c) s (Succeeds s v (.fix a) c) (Fails s v (.fix a) c) := by
  refine hs.ends_contains hv rfl (fun _ => List.mem_cons_self) ?_
  by_cases ha : a ∈ vs
  · rw [decide_eq_true ha, if_pos rfl]
    refine ends_query (hs.isFixed_eq hv) ?_
    by_cases hcard : vs.card = 1
    · -- the value is the only one already
      have hall : ∀ b ∈ vs, b = a := fun b hb => Finset.card_le_one.1 (Nat.le_of_eq hcard) b hb a ha
      rw [decide_eq_true hcard, if_pos rfl]
      exact ends_of_ok (pure_apply _ _)
        (hs.succeeds_self hv trivial (Dom.keep_int_of_all ⟨a, ha⟩ hall))
    · obtain ⟨r, x, hr, hd, hx, hvs⟩ := hs.ints_eq hv
      obtain ⟨lo, hi, hlo, hhi⟩ := hs.exists_bounds hv
      have hf : vs.filter (· = a) = {a} := by
        ext b
        rw [Finset.mem_filter, Finset.mem_singleton]
        exact ⟨And.right, fun h => ⟨h ▸ ha, h⟩⟩
      have hne : (vs.filter (· = a)).Nonempty := by
        rw [hf]
        exact Finset.singleton_nonempty a
      have hneq : vs.filter (· = a) ≠ vs := fun h => hcard (by rw [← h, hf]; rfl)
      obtain ⟨t, hrun, ht⟩ := SparseRef.removeAllBut_present hs.trail hx (hvs ▸ ha)
      obtain ⟨-, -, hnarrowed⟩ := hs.kept (c := c) hv hd hx hvs hne ht
      rw [decide_eq_false hcard, if_neg Bool.false_ne_true]
      refine hs.ends_bounds hv rfl hlo hhi (ends_query hr ?_)
      refine ends_of_ok (a := true) (u := { s with
          trail := t, sink := s.sink.pushAll v (((Mask.ofList [.instantiate, .removal]).addIf
            (some lo != some a) .lowerBound).addIf (some hi != some a) .upperBound) c }) ?_
        ((hnarrowed _ (Dom.emits_int_iff hneq hlo hhi fun e => ?_)).succeeds
          (n := .fix a) trivial (Dom.keep_int hne) fun h => hneq (Dom.int.inj h))
      · simp only [bind_apply, lift_apply, onTrail_ok hrun, notify, modify_apply, pure_apply]
      · rw [hf]
        simp only [Mask.mem_addIf, Mask.mem_ofList, List.mem_cons, List.not_mem_nil, or_false,
          bne_iff_ne, ne_eq, Option.some.injEq, Finset.card_singleton, and_true,
          Finset.mem_singleton]
        tauto
  · rw [decide_eq_false ha, if_neg Bool.false_ne_true]
    exact ends_of_error (throw_apply _ _)
      (fails_contradiction (n := .fix a) hv trivial
        (Dom.keep_int_of_none fun b hb h => ha (h ▸ hb)))

theorem Valid.noticeFixed_eq (hs : s.Valid) (hv : s.scene v = some (.int vs)) (m : Mask) :
    noticeFixed v m s = .ok (m.addIf (decide (vs.card = 1)) .instantiate) s := by
  simp only [noticeFixed, bind_apply, query_eq, hs.isFixed_eq hv, pure_apply]

theorem Valid.remove_ends (hs : s.Valid) (hv : s.scene v = some (.int vs)) (a : Int)
    (c : Cause) : Ends (remove v a c) s (Succeeds s v (.remove a) c) (Fails s v (.remove a) c) := by
  refine hs.ends_contains hv rfl (fun _ => List.mem_cons_self) ?_
  by_cases ha : a ∈ vs
  · rw [decide_eq_true ha, if_pos rfl]
    refine ends_query (hs.isFixed_eq hv) ?_
    by_cases hcard : vs.card = 1
    · have hnone : ∀ b ∈ vs, ¬b ≠ a := fun b hb h =>
        h (Finset.card_le_one.1 (Nat.le_of_eq hcard) b hb a ha)
      rw [decide_eq_true hcard, if_pos rfl]
      exact ends_of_error (throw_apply _ _)
        (fails_contradiction (n := .remove a) hv trivial (Dom.keep_int_of_none hnone))
    · obtain ⟨r, x, hr, hd, hx, hvs⟩ := hs.ints_eq hv
      obtain ⟨lo, hi, hlo, hhi⟩ := hs.exists_bounds hv
      have hneq : vs.filter (· ≠ a) ≠ vs := fun h =>
        Finset.filter_eq_self.1 h a ha rfl
      have hpos : 0 < vs.card := Finset.card_pos.2 ⟨a, ha⟩
      obtain ⟨b, hb, hba⟩ := Finset.exists_mem_ne (s := vs) (by omega) a
      have hne : (vs.filter (· ≠ a)).Nonempty := ⟨b, Finset.mem_filter.2 ⟨hb, hba⟩⟩
      obtain ⟨t, hrun, ht⟩ := SparseRef.remove_present hs.trail hx (hvs ▸ ha)
      obtain ⟨hvalid, hnew, hnarrowed⟩ := hs.kept (c := c) hv hd hx hvs hne ht
      rw [decide_eq_false hcard, if_neg Bool.false_ne_true]
      refine hs.ends_bounds hv rfl hlo hhi (ends_query hr ?_)
      refine ends_of_ok (a := true) (u := { s with
          trail := t, sink := s.sink.pushAll v ((((Mask.only .removal).addIf
            (some lo == some a) .lowerBound).addIf (some hi == some a) .upperBound).addIf
            (decide ((vs.filter (· ≠ a)).card = 1)) .instantiate) c }) ?_
        ((hnarrowed _ (Dom.emits_int_iff hneq hlo hhi fun e => ?_)).succeeds
          (n := .remove a) trivial (Dom.keep_int hne) fun h => hneq (Dom.int.inj h))
      · simp only [bind_apply, lift_apply, discard_apply, onTrail_ok hrun,
          hvalid.noticeFixed_eq hnew, notify, modify_apply, pure_apply]
      · have hmem : ∀ b ∈ vs, b ∉ vs.filter (· ≠ a) ↔ b = a := fun b hb => by
          rw [Finset.mem_filter, not_and_not_right]
          exact ⟨fun h => h hb, fun h _ => h⟩
        rw [hmem lo hlo.1, hmem hi hhi.1]
        simp only [Mask.mem_addIf, Mask.mem_only, beq_iff_eq, Option.some.injEq,
          decide_eq_true_iff]
        tauto
  · rw [decide_eq_false ha, if_neg Bool.false_ne_true]
    exact ends_of_ok (pure_apply _ _) (hs.succeeds_self hv trivial
      (Dom.keep_int_of_all (hs.wf hv) fun b hb h => ha (h ▸ hb)))

/-- A cut that removes some values, but not all. -/
theorem Valid.cut_ends (hs : s.Valid) (hv : s.scene v = some (.int vs)) {r : SparseRef}
    {x : SparseView} (hr : s.ints v = .ok r) (hd : s.domains[v.id]? = some (.int r))
    (hx : s.trail.view.sparse r.index = some x) (hvs : x.values = vs) {p : Int → Prop}
    [DecidablePred p] (hne : (vs.filter p).Nonempty) (n : Narrowing)
    (cut : SparseRef → Trail.Op Unit)
    (hcut : Ends (cut r) s.trail
      (fun _ t => Trail.Turns s.trail (s.trail.view.setSparse r.index (x.keep p)) t)
      (SparseRef.CutFails s.trail r x p (n.sums x.offset)))
    {m : Mask} (hm : ∀ e, e ∈ m.addIf (decide ((vs.filter p).card = 1)) .instantiate ↔
      (Dom.int vs).Emits (.int (vs.filter p)) e) :
    Ends (do
        let r ← (query (·.ints v) : Op SparseRef)
        onTrail (cut r)
        notify v (← noticeFixed v m) c
        pure true : Attempt Bool) s
      (fun b s' => b = true ∧ Narrowed s v c (.int vs) (.int (vs.filter p)) s')
      fun e s' => e = .fault .overflow ∧ s.Overreaches v n ∧ Evolves s s' := by
  cases hrun : cut r s.trail with
  | ok _ u =>
    obtain ⟨hvalid, hnew, hnarrowed⟩ := hs.kept (c := c) hv hd hx hvs hne (hcut.of_ok hrun)
    let m' := m.addIf (decide ((vs.filter p).card = 1)) .instantiate
    refine ends_of_ok (u := { s with trail := u, sink := s.sink.pushAll v m' c }) ?_
      ⟨rfl, hnarrowed _ hm⟩
    simp only [bind_apply, lift_apply, query_eq, hr, onTrail_ok hrun, hvalid.noticeFixed_eq hnew,
      notify, modify_apply, pure_apply, m']
  | error e u =>
    have hfails := hcut.of_error hrun
    obtain ⟨rfl, q, hq, hpq, ht⟩ := hfails.cutShort hs.trail hx
    have hne' : (vs.filter q).Nonempty := by
      obtain ⟨a, ha⟩ := hne
      obtain ⟨ha, hp⟩ := Finset.mem_filter.1 ha
      exact ⟨a, Finset.mem_filter.2 ⟨ha, hpq a (hvs ▸ ha) hp⟩⟩
    refine ends_of_error (u := { s with trail := u }) ?_
      ⟨rfl, overreaches_of_cut hv hd hx hvs hfails, hs.evolves_keep hv hd hx hvs hne' ht⟩
    simp only [bind_apply, lift_apply, query_eq, hr, onTrail_error hrun]

theorem Valid.removeBelow_ends (hs : s.Valid) (hv : s.scene v = some (.int vs)) (a : Int)
    (c : Cause) :
    Ends (removeBelow v a c) s (Succeeds s v (.removeBelow a) c)
      (Fails s v (.removeBelow a) c) := by
  obtain ⟨r, x, hr, hd, hx, hvs⟩ := hs.ints_eq hv
  obtain ⟨lo, hi, hlo, hhi⟩ := hs.exists_bounds hv
  refine hs.ends_bounds hv rfl hlo hhi ?_
  rw [Option.any_some, Option.any_some]
  by_cases hlow : a ≤ lo
  · rw [decide_eq_true hlow, if_pos rfl]
    exact ends_of_ok (pure_apply _ _) (hs.succeeds_self hv trivial
      (Dom.keep_int_of_all (hs.wf hv) fun b hb => hlow.trans (hlo.2 hb)))
  · rw [decide_eq_false hlow, if_neg Bool.false_ne_true]
    by_cases hhigh : hi < a
    · rw [decide_eq_true hhigh, if_pos rfl]
      exact ends_of_error (throw_apply _ _) (fails_contradiction (n := .removeBelow a) hv trivial
        (Dom.keep_int_of_none fun b hb h => absurd (h.trans (hhi.2 hb)) (not_le.2 hhigh)))
    · have hlo' : lo ∉ vs.filter (a ≤ ·) := fun h => hlow (Finset.mem_filter.1 h).2
      have hhi' : hi ∈ vs.filter (a ≤ ·) := Finset.mem_filter.2 ⟨hhi.1, not_lt.1 hhigh⟩
      have hneq : vs.filter (a ≤ ·) ≠ vs := fun h => hlo' (h.symm ▸ hlo.1)
      rw [decide_eq_false hhigh, if_neg Bool.false_ne_true]
      refine (hs.cut_ends (c := c) hv hr hd hx hvs ⟨hi, hhi'⟩ (.removeBelow a) (·.removeBelow a)
        (SparseRef.removeBelow_ends hs.trail hx a) (Dom.emits_int_iff hneq hlo hhi
          (m := (Mask.ofList [.lowerBound, .removal]).addIf _ _) fun e => ?_)).mono ?_ ?_
      · simp only [Mask.mem_addIf, Mask.mem_ofList, List.mem_cons, List.not_mem_nil, or_false,
          decide_eq_true_iff, hlo', hhi', not_true, not_false_iff, and_true, and_false]
        tauto
      · rintro _ s' ⟨rfl, h⟩
        exact h.succeeds trivial (Dom.keep_int ⟨hi, hhi'⟩) fun h => hneq (Dom.int.inj h)
      · rintro _ s' ⟨rfl, hover, h⟩
        exact fails_overflow rfl hover h

theorem Valid.removeAbove_ends (hs : s.Valid) (hv : s.scene v = some (.int vs)) (a : Int)
    (c : Cause) :
    Ends (removeAbove v a c) s (Succeeds s v (.removeAbove a) c)
      (Fails s v (.removeAbove a) c) := by
  obtain ⟨r, x, hr, hd, hx, hvs⟩ := hs.ints_eq hv
  obtain ⟨lo, hi, hlo, hhi⟩ := hs.exists_bounds hv
  refine hs.ends_bounds hv rfl hlo hhi ?_
  rw [Option.any_some, Option.any_some]
  by_cases hhigh : hi ≤ a
  · rw [decide_eq_true hhigh, if_pos rfl]
    exact ends_of_ok (pure_apply _ _) (hs.succeeds_self hv trivial
      (Dom.keep_int_of_all (hs.wf hv) fun b hb => (hhi.2 hb).trans hhigh))
  · rw [decide_eq_false hhigh, if_neg Bool.false_ne_true]
    by_cases hlow : a < lo
    · rw [decide_eq_true hlow, if_pos rfl]
      exact ends_of_error (throw_apply _ _) (fails_contradiction (n := .removeAbove a) hv trivial
        (Dom.keep_int_of_none fun b hb h => absurd ((hlo.2 hb).trans h) (not_le.2 hlow)))
    · have hhi' : hi ∉ vs.filter (· ≤ a) := fun h => hhigh (Finset.mem_filter.1 h).2
      have hlo' : lo ∈ vs.filter (· ≤ a) := Finset.mem_filter.2 ⟨hlo.1, not_lt.1 hlow⟩
      have hneq : vs.filter (· ≤ a) ≠ vs := fun h => hhi' (h.symm ▸ hhi.1)
      rw [decide_eq_false hlow, if_neg Bool.false_ne_true]
      refine (hs.cut_ends (c := c) hv hr hd hx hvs ⟨lo, hlo'⟩ (.removeAbove a) (·.removeAbove a)
        (SparseRef.removeAbove_ends hs.trail hx a) (Dom.emits_int_iff hneq hlo hhi
          (m := (Mask.ofList [.upperBound, .removal]).addIf _ _) fun e => ?_)).mono ?_ ?_
      · simp only [Mask.mem_addIf, Mask.mem_ofList, List.mem_cons, List.not_mem_nil, or_false,
          decide_eq_true_iff, hlo', hhi', not_true, not_false_iff, and_true, and_false]
        tauto
      · rintro _ s' ⟨rfl, h⟩
        exact h.succeeds trivial (Dom.keep_int ⟨lo, hlo'⟩) fun h => hneq (Dom.int.inj h)
      · rintro _ s' ⟨rfl, hover, h⟩
        exact fails_overflow rfl hover h

end Store

end Propagation
