import Propagation.Proofs.Filter.Idle
import Propagation.Proofs.Model.Minded

/-!
# A propagation leaves nothing to filter

When a propagation ends without a contradiction, every enabled constraint is met, so that one more
filtering by it changes nothing (`Session.fixpoint_common`). This covers propagators that were not
scheduled for their own changes, retired ones, and ones that were active before a level was closed.
-/

set_option autoImplicit false

namespace Propagation

open Update

section
variable {ν π : Type}

/-- At rest, every enabled constraint is stable in the scene, retired or not. -/
theorem Model.Attentive.stable_of_enabled {m : Model ν (Constraint ⊕ π)} (h : m.Attentive)
    (hm : m.Valid) (hrest : m.Rests) {p : PropagatorId} {e : Entry (Constraint ⊕ π)}
    {c : Constraint} (he : m.entry p = .ok e) (hc : e.propagator = .inl c)
    (henabled : e.enabled.get m.store.trail = .ok true) : c.Stable m.store.scene := by
  obtain ⟨hp, hentry⟩ := entry_eq_ok he
  rw [hm.propagatorCount_eq] at hp
  exact demands_iff.1 (h.demands hm hrest) p.id c hp ((poses_of_entry hentry).2 hc)
    ((hm.enabled_iff hentry).1 henabled)

variable [Propagator ν π]

open Model

/-- In a run without faults whose calls are `Ordinary` and which is `Prompt`, every enabled
constraint is met (`Constraint.Met`) after each propagation that ends without a contradiction. A
complete filtering by it leads to no contradiction and leaves all snapshots as they are, however it
ends. -/
theorem Session.fixpoint_common {cs : List (Call (Constraint ⊕ π))} {marks : Array Mark}
    {s : Session ν (Constraint ⊕ π)} {xs : List (Step ν (Constraint ⊕ π))}
    (hrun : Session.run cs ⟨.empty, marks⟩ = .ok xs s) (hcs : ∀ k ∈ cs, k.Ordinary)
    (hprompt : Prompt xs) :
    ∀ x ∈ xs, x.call = .fixpoint → x.answer = .done →
      ∀ p e c, x.after.entry p = .ok e → e.propagator = .inl c →
        e.enabled.get x.after.store.trail = .ok true →
        c.Met x.after.store ∧
        Ends (Propagator.propagate : Action ν (Constraint ⊕ π) Unit).run (x.after.desk p e)
          (fun _ u => ∀ v, u.store.snapshot v = x.after.store.snapshot v)
          fun f u => (∀ y, f ≠ .contradiction y) ∧
            ∀ v, u.store.snapshot v = x.after.store.snapshot v := by
  intro x hx hcall hanswer p e c he hc henabled
  obtain ⟨hminded, hrest⟩ := Session.minded hrun hcs hprompt minded_empty x hx
  have hopen : ¬x.Failed := by
    unfold Step.Failed
    rw [hcall, hanswer]
    exact id
  have hm := hminded.ready.valid
  have hstable := (hminded.attentive hopen).stable_of_enabled hm (hrest hcall) he hc henabled
  have hdesk : (x.after.desk p e).store.Valid := hm.store.aside _ _
  have hsnapshot : ∀ (u : Workspace ν (Constraint ⊕ π)), u.store = (x.after.desk p e).store →
      ∀ v, u.store.snapshot v = x.after.store.snapshot v := by
    intro u hu v
    rw [hu]
    exact Store.snapshot_congr hm.store hdesk rfl
  refine ⟨hstable.met hm.store,
    (Constraint.propagate_idles hdesk hc hstable).mono (fun _ u => hsnapshot u) fun f u h => ?_⟩
  obtain ⟨⟨g, rfl⟩, hu⟩ := h
  exact ⟨by simp, hsnapshot u hu⟩

end

/-- A channel and a retired disequality, after a level has been closed in which a propagation came
to a contradiction. -/
theorem Session.fixpoint_common_reopened : ∃ (xs : List (Step Unit (Constraint ⊕ NotEqual)))
    (s : Session Unit (Constraint ⊕ NotEqual)) (x : Step Unit (Constraint ⊕ NotEqual))
    (e : Entry (Constraint ⊕ NotEqual)) (c : Constraint),
    Session.run [.create (.digraphs 1), .create (.subsets 1), .create (.interval 0 1),
      .create (.interval 0 1), .post (.inl (.notEqual (.of ⟨2⟩ ⟨3⟩))),
      .post (.inl (.graphChannel (.of ⟨0⟩ [⟨1⟩]))), .narrow ⟨2⟩ (.fix 1) .decision, .checkpoint,
      .narrow ⟨3⟩ (.fix 1) .decision, .fixpoint, .rollback 0,
      .narrow ⟨1⟩ (.addToKernel 0) .decision, .fixpoint] ⟨.empty, #[]⟩ = .ok xs s ∧
    Prompt xs ∧ x ∈ xs ∧ x.call = .fixpoint ∧ x.answer = .done ∧ x.after.entry ⟨0⟩ = .ok e ∧
    e.propagator = .inl c ∧ e.retired.get x.after.store.trail = .ok true ∧
    c.Met x.after.store := by
  obtain ⟨xs, s, hrun, htest⟩ := Session.exists_steps
    [.create (.digraphs 1), .create (.subsets 1), .create (.interval 0 1),
      .create (.interval 0 1), .post (.inl (.notEqual (.of ⟨2⟩ ⟨3⟩))),
      .post (.inl (.graphChannel (.of ⟨0⟩ [⟨1⟩]))), .narrow ⟨2⟩ (.fix 1) .decision, .checkpoint,
      .narrow ⟨3⟩ (.fix 1) .decision, .fixpoint, .rollback 0,
      .narrow ⟨1⟩ (.addToKernel 0) .decision, .fixpoint]
    (⟨.empty, #[]⟩ : Session Unit (Constraint ⊕ NotEqual))
    (fun xs _ => decide (Prompt xs) && xs.any fun x =>
      decide (x.call = .fixpoint ∧ x.answer = .done) &&
      match x.after.entry ⟨0⟩ with
      | .ok e => e.propagator.isLeft &&
        decide (e.enabled.get x.after.store.trail = .ok true ∧
          e.retired.get x.after.store.trail = .ok true)
      | .error _ => false)
    (by decide +kernel)
  rw [Bool.and_eq_true, decide_eq_true_iff, List.any_eq_true] at htest
  obtain ⟨hprompt, x, hx, hat⟩ := htest
  rw [Bool.and_eq_true, decide_eq_true_iff] at hat
  obtain ⟨⟨hcall, hanswer⟩, hentry⟩ := hat
  cases he : x.after.entry ⟨0⟩ with
  | error f =>
    rw [he] at hentry
    cases hentry
  | ok e =>
    rw [he] at hentry
    dsimp only at hentry
    rw [Bool.and_eq_true, decide_eq_true_iff] at hentry
    obtain ⟨hleft, henabled, hpassive⟩ := hentry
    obtain ⟨c, hc⟩ := Sum.isLeft_iff.1 hleft
    refine ⟨xs, s, x, e, c, hrun, hprompt, hx, hcall, hanswer, he, hc, hpassive, ?_⟩
    refine (Session.fixpoint_common hrun ?_ hprompt x hx hcall hanswer ⟨0⟩ e c he hc henabled).1
    simp [Call.Ordinary, Constraint.Distinct, GraphChannel.Distinct, GraphChannel.of]

end Propagation
