import Propagation.Proofs.Action

/-!
# What an action records

An action records an event if one of its narrowings has a passage that emits it (`Action.Records`).
The events in the sink after a run are those from before and those that the run has recorded
(`Action.run_sink`).
-/

set_option autoImplicit false

namespace Propagation

open Update

/-- The passage of the domain of `v` from `s` to `s'` emits the event `f`. -/
def Store.Tells (s : Store) (v : Var) (f : Event) (s' : Store) : Prop :=
  ∃ D D', s.scene v = some D ∧ s'.scene v = some D' ∧ D.Emits D' f

namespace Action

variable {ν σ α : Type} {w : Workspace ν σ}

/-- Run from the workspace, the action has a narrowing of `v` by `c` whose passage emits `f`. -/
def Records (v : Var) (f : Event) (c : Cause) : Action ν σ α → Workspace ν σ → Prop
  | done _, _ => False
  | fail _, _ => False
  | look k, w => (k w.store).Records v f c w
  | narrow u n d k, w =>
    match Store.narrow u n d w.store with
    | .ok changed s =>
      (u = v ∧ d = c ∧ w.store.Tells v f s) ∨ (k (.ok changed)).Records v f c { w with store := s }
    | .error (.contradiction x) s => (k (.error x)).Records v f c { w with store := s }
    | .error (.fault _) _ => False
  | create d k, w =>
    match Store.create d w.store with
    | .ok u s => (k u).Records v f c { w with store := s }
    | .error _ _ => False
  | own k, w => (k w.own).Records v f c w
  | put o k, w => k.Records v f c { w with own := o }
  | note y k, w => k.Records v f c { w with notes := w.notes.push y }

/-- The events in the sink of `u` are those in the sink of `w` and those that `x` records from `w`.
-/
def Gathers (x : Action ν σ α) (w u : Workspace ν σ) : Prop :=
  ∀ v f c, u.store.sink.Has v f c ↔ w.store.sink.Has v f c ∨ x.Records v f c w

end Action

namespace Store

variable {s s' : Store} {v : Var} {n : Narrowing} {c : Cause} {b : Bool}

/-- A narrowing that succeeds adds the events that its passage emits to the sink. -/
theorem Succeeds.sink (h : Succeeds s v n c b s') (u : Var) (f : Event) (d : Cause) :
    s'.sink.Has u f d ↔ s.sink.Has u f d ∨ v = u ∧ c = d ∧ s.Tells u f s' := by
  obtain ⟨D, D', -, -, -, h, -⟩ := h
  rw [h.sink]
  refine or_congr_right ⟨?_, ?_⟩
  · rintro ⟨rfl, rfl, hf⟩
    exact ⟨rfl, rfl, D, D', h.before, h.after, hf⟩
  · rintro ⟨rfl, rfl, E, E', hE, hE', hf⟩
    cases h.before.symm.trans hE
    cases h.after.symm.trans hE'
    exact ⟨rfl, rfl, hf⟩

/-- A narrowing of `v` emits no events of other variables. -/
theorem Succeeds.eq_of_tells (h : Succeeds s v n c b s') {u : Var} {f : Event}
    (htells : s.Tells u f s') : v = u := by
  obtain ⟨D, D', -, -, -, h, -⟩ := h
  obtain ⟨E, E', hE, hE', hf⟩ := htells
  by_contra hne
  rw [h.scene, Function.update_of_ne (Ne.symm hne), hE] at hE'
  cases hE'
  exact Dom.not_emits_self E f hf

end Store

namespace Action

variable {ν σ α : Type} {w : Workspace ν σ}

/-- Unless the action faults, the sink `Gathers` what it records. -/
theorem run_sink (x : Action ν σ α) (hs : w.store.Valid) :
    Ends x.run w (fun _ u => x.Gathers w u)
      fun e u => ∀ k, e = .contradiction k → x.Gathers w u := by
  induction x generalizing w with
  | done a => exact fun v f c => (or_iff_left id).symm
  | fail e => exact fun k _ v f c => (or_iff_left id).symm
  | look k ih => exact ih _ hs
  | narrow u n d k ih =>
    cases hrun : Store.narrow u n d w.store with
    | ok b s =>
      have h := (hs.narrow_ends u n d).of_ok hrun
      have hgather : ∀ t : Workspace ν σ, (k (.ok b)).Gathers (w.withStore s) t →
          (narrow u n d k).Gathers w t := fun t ht v f c => by
        rw [ht, Workspace.store_withStore, h.sink, Records, hrun, or_assoc]
        rfl
      have hvalid := ((hs.narrow_evolves u n d).of_ok hrun).valid
      refine ((ih (.ok b) (w := w.withStore s) hvalid).mono (fun _ _ => hgather _)
        fun _ _ h k hk => hgather _ (h k hk)).of_eq ?_
      rw [run, hrun]
      rfl
    | error e s =>
      cases e with
      | contradiction x =>
        obtain ⟨rfl, -⟩ := (hs.narrow_ends u n d).of_error hrun
        have hgather : ∀ t : Workspace ν σ, (k (.error x)).Gathers w t →
            (narrow u n d k).Gathers w t := fun t ht v f c => by
          rw [ht, Records, hrun]
        refine ((ih (.error x) hs).mono (fun _ _ => hgather _)
          fun _ _ h k hk => hgather _ (h k hk)).of_eq ?_
        rw [run, hrun]
      | fault f =>
        have hfault : (narrow u n d k).run w = .error (.fault f) (w.withStore s) := by
          rw [run, hrun]
          rfl
        exact ends_of_error hfault (by rintro c ⟨⟩)
  | create d k ih =>
    cases hrun : Store.create d w.store with
    | ok u s =>
      have h := (hs.create_ends d).of_ok hrun
      have hgather : ∀ t : Workspace ν σ, (k u).Gathers (w.withStore s) t →
          (create d k).Gathers w t := fun t ht v f c => by
        rw [ht, Workspace.store_withStore, h.sink, Records, hrun]
        rfl
      refine ((ih u (w := w.withStore s) h.valid).mono (fun _ _ => hgather _)
        fun _ _ h k hk => hgather _ (h k hk)).of_eq ?_
      rw [run, hrun]
      rfl
    | error e s =>
      have hfault : (create d k).run w = .error (.fault e) (w.withStore s) := by
        rw [run, hrun]
        rfl
      exact ends_of_error hfault (by rintro c ⟨⟩)
  | own k ih => exact ih _ hs
  | put o k ih => exact ih hs
  | note y k ih => exact ih hs

end Action

end Propagation
