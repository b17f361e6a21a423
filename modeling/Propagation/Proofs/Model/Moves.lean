import Propagation.Proofs.Model.Level
import Propagation.Proofs.Model.Post
import Propagation.Proofs.Trail.Ticks

/-!
# What a call may do to a model

A call on a valid model, however it ends, is a step of the model, or opens a level, or closes some
(`Model.Moves`, `Call.moves`). So a model that is reached from a fresh one is valid, also after
faults.
-/

set_option autoImplicit false

namespace Propagation

open Update

variable {ν π : Type}

/-- The clocks of the open levels are those of `past`. -/
theorem Trail.clocks_eq (t : Trail) : t.clocks = (t.clock, t.past.map (·.1)) := by
  rw [Trail.past, Trail.map_fst_pastFrom]
  rfl

namespace Model

inductive Moves (m m' : Model ν π) : Prop
  | evolved (h : m.Evolves m')
  | opened (h : m' = m.save)
  | closed (newer : List (Nat × View)) (c : Nat) (w : View) (older : List (Nat × View))
    (hpast : m.store.trail.past = newer ++ (c, w) :: older) (h : m.Reverted w older m')

variable {m m' : Model ν π}

theorem Moves.valid (h : m.Moves m') (hm : m.Valid) : m'.Valid := by
  cases h with
  | evolved h => exact h.valid
  | opened h => exact h ▸ hm.save
  | closed _ _ _ _ _ h => exact h.valid

theorem Moves.ticks (h : m.Moves m') : Trail.Ticks m.store.trail m'.store.trail := by
  cases h with
  | evolved h =>
    refine .same ?_
    rw [Trail.clocks_eq, Trail.clocks_eq, h.past, h.clock]
  | opened h =>
    subst h
    exact .opened rfl
  | closed newer c w older hpast h =>
    refine .closed (newer.length + 1) ?_
    have hdrop : (newer ++ (c, w) :: older).drop (newer.length + 1) = older := by
      rw [List.drop_append, List.drop_eq_nil_of_le (Nat.le_succ _)]
      simp
    rw [Trail.clocks_eq, Trail.clocks_eq, h.store.past, h.store.clock, hpast, ← List.map_drop,
      hdrop]

end Model

/-! ## Calls -/

theorem Model.steps_answering {R : Model ν π → Model ν π → Prop} {α : Type} {f : α → Answer}
    {x : Model.Attempt ν π α} (h : Steps R x) : Steps R (Model.answering f x) := by
  intro m hm
  have hx := h m hm
  revert hx
  rw [after, after, Model.answering]
  cases x m with
  | ok a u => exact id
  | error e u => cases e <;> exact id

theorem Session.after_onModel {α : Type} (x : Model.Op ν π α) (s : Session ν π) :
    (Session.onModel x).after s = { s with model := x.after s.model } := by
  rw [after, after, Session.onModel, within_apply]
  cases x s.model <;> rfl

/-- The session after the calls `cs`, also if some of them fault. -/
def Session.after [Propagator ν π] (s : Session ν π) (cs : List (Call π)) : Session ν π :=
  cs.foldl (fun s c => c.perform.after s) s

open Model in
theorem Call.moves [Propagator ν π] (c : Call π) {s : Session ν π} (hs : s.model.Valid) :
    s.model.Moves (c.perform.after s).model := by
  have hself := hs.evolves_self
  have hstep : ∀ {α : Type} {x : Model.Op ν π α}, Steps Evolves x →
      s.model.Moves ((Session.onModel x).after s).model := fun h => by
    rw [Session.after_onModel]
    exact .evolved (h _ hself)
  have hbind : ∀ {α : Type} {x : Model.Op ν π α} {f : α → Answer}, Steps Evolves x →
      Steps Evolves (do let a ← x; pure (f a) : Model.Op ν π Answer) := fun h =>
    h.bind onward_evolves fun _ => steps_pure _
  cases c with
  | create d =>
    exact hstep (hbind (f := .var) (steps_onStore (Store.steps_create d)))
  | narrow v n c => exact hstep (steps_onDomain v n c)
  | post x => exact hstep (hbind (f := .propagator) (steps_post x))
  | enable p => exact hstep (hbind (f := fun _ => .done) (steps_enable p))
  | disable p => exact hstep (hbind (f := fun _ => .done) (steps_disable p))
  | save => exact .opened rfl
  | restore =>
    have h : s.model.Moves ((Model.restore : Model.Op ν π Unit).after s.model) :=
      after_of_ends (hs.restore_ends.mono
        (fun _ _ ⟨c, w, older, hpast, h⟩ => .closed [] c w older hpast h)
        fun _ _ ⟨_, _, h⟩ => .evolved (h.symm ▸ hself))
    rw [perform, Session.after_onModel, after_bind_pure]
    exact h
  | checkpoint => exact .opened rfl
  | rollback k =>
    rw [perform]
    cases hk : Checked.fetch s.marks k with
    | error e =>
      rw [after_bind_error _ (query_apply_error (s := s) hk)]
      exact .evolved hself
    | ok mark =>
      have h : s.model.Moves ((Model.rollback mark : Model.Op ν π Unit).after s.model) :=
        after_of_ends ((hs.rollback_ends mark).mono
          (fun _ _ ⟨newer, w, older, hpast, _, h⟩ => .closed newer _ w older hpast h)
          fun _ _ ⟨_, _, h⟩ => .evolved (h.symm ▸ hself))
      rw [after_bind_ok _ (query_apply_ok (s := s) hk), Session.after_onModel, after_bind_pure]
      exact h
  | fixpoint => exact hstep (steps_answering steps_fixpoint)
  | isEntailed p => exact hstep (hbind (f := .entailment) (steps_query _))

end Propagation
