import Propagation.Proofs.Model.Retired

/-!
# The entailment of retired propagators

`isEntailed` does not call the `entailment` of a propagator that has been retired. Its answer is
nevertheless the one that the propagator would give (`Model.Vouched.isEntailed_eq`), and enabling
the propagator does not make it active again (`Model.Sealed.passive`).
-/

set_option autoImplicit false

namespace Propagation

open Update

namespace Model

variable {ν π : Type} {m : Model ν (Constraint ⊕ π)} {p : PropagatorId}
  {e : Entry (Constraint ⊕ π)} {c : Constraint}

section
variable [Propagator ν π]

/-- `isEntailed` is the `entailment` of the constraint itself. -/
theorem Vouched.isEntailed_eq (h : m.Vouched) (hm : m.Valid) (he : m.entry p = .ok e)
    (hc : e.propagator = .inl c) :
    m.isEntailed p = Propagator.entailment ν c m.store := by
  obtain ⟨hp, hentry⟩ := entry_eq_ok he
  rw [hm.propagatorCount_eq] at hp
  obtain ⟨b, hb⟩ := hm.now.flag (Array.getElem?_eq_some_iff.1 hentry).1
    (Array.getElem?_eq_some_iff.1 hentry).1 (r := .retired p.id) rfl
  rw [isEntailed, he]
  show (e.retired.get m.store.trail >>= fun b => if b then Except.ok .entailed
    else Propagator.entailment ν e.propagator m.store) = _
  rw [(hm.retired_iff hentry).2 hb, hc]
  cases b with
  | true =>
    have hlast := (h _ List.mem_cons_self).retired p.id c hp ((poses_of_entry hentry).2 hc) hb
    exact ((Constraint.lasting_iff hm.store).1 hlast).symm
  | false => rfl

/-- A `Sealed` propagator is not active, and `isEntailed` answers `entailed`. -/
theorem Sealed.passive {d : Nat} (h : m.Sealed p.id d) (hm : m.Valid)
    (hsize : m.entries.size = m.count) :
    m.isActive p = .ok false ∧ m.isEntailed p = .ok .entailed := by
  obtain ⟨hp, hf⟩ := h.now
  have hentry : m.entries[p.id]? = some m.entries[p.id] := Array.getElem?_eq_getElem (hsize ▸ hp)
  have he : m.entry p = .ok m.entries[p.id] := by
    rw [entry, hm.propagatorCount_eq, if_pos hp]
    exact Checked.fetch_eq_ok.2 hentry
  obtain ⟨b, hb, hactive⟩ := hm.isActive_live hsize hp
  constructor
  · cases b with
    | false => exact hb
    | true => cases hf.unique (active_iff.1 (hactive.1 rfl)).2
  · rw [isEntailed, he]
    show (m.entries[p.id].retired.get m.store.trail >>= _) = _
    rw [(hm.retired_iff hentry).2 hf]
    rfl

end

/-- A propagator that is retired is `Sealed` within the innermost level. -/
theorem Ready.sealed (hs : m.Ready) (he : m.entry p = .ok e)
    (hret : e.retired.get m.store.trail = .ok true) : m.Sealed p.id m.depth := by
  obtain ⟨hp, hentry⟩ := entry_eq_ok he
  rw [hs.valid.propagatorCount_eq] at hp
  refine ⟨⟨hp, (hs.valid.retired_iff hentry).1 hret⟩, fun newer k w older hpast hd => ?_⟩
  have hlength : m.depth = m.store.trail.past.length := (Trail.length_past _).symm
  rw [hlength, hpast, List.length_append, List.length_cons] at hd
  omega

end Model

section
variable {ν π : Type} [Propagator ν π]

/-- In every session that is reached without a fault, `isEntailed` of a live constraint `c` is the
answer of `c` on the current store, also if it has been retired. A retired one stays so through all
further calls, `enable` included, as long as the level is open: `isActive` answers `false` and
`isEntailed` answers `entailed`. -/
theorem Session.isEntailed_current {cs : List (Call (Constraint ⊕ π))} {marks : Array Mark}
    {s : Session ν (Constraint ⊕ π)} {xs : List (Step ν (Constraint ⊕ π))}
    (hrun : Session.run cs ⟨.empty, marks⟩ = .ok xs s) {p : PropagatorId}
    {e : Entry (Constraint ⊕ π)} {c : Constraint} (he : s.model.entry p = .ok e)
    (hc : e.propagator = .inl c) :
    s.model.isEntailed p = Propagator.entailment ν c s.model.store ∧
      (e.retired.get s.model.store.trail = .ok true →
        ∀ (ds : List (Call (Constraint ⊕ π))) (ys : List (Step ν (Constraint ⊕ π)))
          (t : Session ν (Constraint ⊕ π)), Session.run ds s = .ok ys t →
          (∀ y ∈ ys, s.model.depth ≤ y.after.depth) →
            ∀ y ∈ ys, y.after.isActive p = .ok false ∧ y.after.isEntailed p = .ok .entailed) := by
  have hready := Session.ready hrun Model.ready_empty
  have hwired := Session.wired hrun Model.ready_empty Model.wired_empty
  have hvouched := Session.vouched hrun Model.ready_empty Model.wired_empty Model.vouched_empty
  refine ⟨hvouched.isEntailed_eq hready.valid he hc, fun hret ds ys t hmore hopen y hy => ?_⟩
  obtain ⟨hy, hsealed⟩ :=
    Session.sealed hmore hready hwired (hready.sealed he hret) hopen y hy
  exact hsealed.passive hy.valid hy.tidy.size

end

/-- A disequality that is retired within a level, and is disabled and enabled there. -/
theorem Session.isEntailed_current_enabled : ∃ (xs ys : List (Step Unit (Constraint ⊕ NotEqual)))
    (s t : Session Unit (Constraint ⊕ NotEqual)) (y : Step Unit (Constraint ⊕ NotEqual))
    (e : Entry (Constraint ⊕ NotEqual)) (c : Constraint),
    Session.run [.create (.interval 0 1), .create (.interval 0 1),
      .post (.inl (.notEqual (.of ⟨0⟩ ⟨1⟩))), .save, .narrow ⟨0⟩ (.fix 1) .decision, .fixpoint]
      ⟨.empty, #[]⟩ = .ok xs s ∧
    s.model.entry ⟨0⟩ = .ok e ∧ e.propagator = .inl c ∧
    e.retired.get s.model.store.trail = .ok true ∧
    s.model.isEntailed ⟨0⟩ = Propagator.entailment Unit c s.model.store ∧
    Session.run [.disable ⟨0⟩, .save, .enable ⟨0⟩, .fixpoint, .restore] s = .ok ys t ∧
    (∀ y ∈ ys, s.model.depth ≤ y.after.depth) ∧ y ∈ ys ∧ y.call = .enable ⟨0⟩ ∧
    y.after.isActive ⟨0⟩ = .ok false ∧ y.after.isEntailed ⟨0⟩ = .ok .entailed := by
  let ds : List (Call (Constraint ⊕ NotEqual)) :=
    [.disable ⟨0⟩, .save, .enable ⟨0⟩, .fixpoint, .restore]
  obtain ⟨xs, s, hrun, htest⟩ := Session.exists_run
    [.create (.interval 0 1), .create (.interval 0 1), .post (.inl (.notEqual (.of ⟨0⟩ ⟨1⟩))),
      .save, .narrow ⟨0⟩ (.fix 1) .decision, .fixpoint]
    (⟨.empty, #[]⟩ : Session Unit (Constraint ⊕ NotEqual))
    (fun s => (match s.model.entry ⟨0⟩ with
      | .ok e => e.propagator.isLeft && decide (e.retired.get s.model.store.trail = .ok true)
      | .error _ => false) &&
      match Session.run ds s with
      | .ok ys _ => ys.all (fun y => decide (s.model.depth ≤ y.after.depth)) &&
        ys.any fun y => decide (y.call = .enable ⟨0⟩)
      | .error _ _ => false)
    (by decide +kernel)
  rw [Bool.and_eq_true] at htest
  obtain ⟨hentry, htest⟩ := htest
  cases hds : Session.run ds s with
  | error f t =>
    rw [hds] at htest
    cases htest
  | ok ys t =>
    rw [hds] at htest
    rw [Bool.and_eq_true, List.all_eq_true, List.any_eq_true] at htest
    obtain ⟨hopen, y, hy, hcall⟩ := htest
    have hopen : ∀ y ∈ ys, s.model.depth ≤ y.after.depth :=
      fun y hy => of_decide_eq_true (hopen y hy)
    cases he : s.model.entry ⟨0⟩ with
    | error f =>
      rw [he] at hentry
      cases hentry
    | ok e =>
      rw [he] at hentry
      dsimp only at hentry
      rw [Bool.and_eq_true, decide_eq_true_iff] at hentry
      obtain ⟨hleft, hret⟩ := hentry
      obtain ⟨c, hc⟩ := Sum.isLeft_iff.1 hleft
      obtain ⟨hcurrent, hstays⟩ := Session.isEntailed_current hrun he hc
      obtain ⟨hpassive, hentailed⟩ := hstays hret ds ys t hds hopen y hy
      exact ⟨xs, ys, s, t, y, e, c, hrun, he, hc, hret, hcurrent, hds, hopen, hy,
        of_decide_eq_true hcall, hpassive, hentailed⟩

end Propagation
