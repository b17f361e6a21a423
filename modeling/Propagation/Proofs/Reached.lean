import Propagation.Constraint.NotEqual
import Propagation.Proofs.Model.Moves
import Propagation.Proofs.Store.Shows
import Propagation.Store.Call

/-!
# What can be reached

`Store.Reached` holds of the stores that calls on a fresh store can leave, and of the stores of the
models that can be reached (`Model.Reached`), also in the middle of a propagation, with any
propagators and after any faults. All of them are valid. So in any of them:

* every live variable has a domain that is well formed (`Store.Reached.wellFormed`);
* a narrowing leaves a domain that allows no more, and the store as it was if there was nothing to
  do or if it is refused (`Store.Reached.narrow_sound`).
-/

set_option autoImplicit false

namespace Propagation

open Update

/-- The models that calls on a fresh one leave, and the rounds of a propagation after that. The
calls may be any, with any marks, and may end in any way. -/
inductive Model.Reached {ν π : Type} [Propagator ν π] : Model ν π → Prop
  | calls (marks : Array Mark) (cs : List (Call π)) :
    Reached (Session.after ⟨.empty, marks⟩ cs).model
  | rounds {m : Model ν π} (h : Reached m) (n : Nat) : Reached ((Model.settle n).after m)

namespace Store

/-- The stores that calls on a fresh store leave, or on the store of a reached model. The calls may
end in any way, but none is a call on the trail itself. -/
inductive Reached : Store → Prop
  | fresh : Reached .empty
  | model {ν π : Type} [Propagator ν π] {m : Model ν π} (h : m.Reached) : Reached m.store
  | call {s : Store} (h : Reached s) (c : Call) (hc : ∀ t, c ≠ .trail t) :
    Reached (c.perform.after s)

variable {s : Store}

theorem valid_empty : (empty : Store).Valid := (valid_ofTrail Trail.valid_empty rfl).1

/-- The ways in which a call may change a valid store: within the innermost level, by opening one,
or by closing some. -/
inductive Moves (s s' : Store) : Prop
  | evolved (h : s.Evolves s')
  | opened (h : s' = s.save)
  | closed (newer : List (Nat × View)) (c : Nat) (w : View) (older : List (Nat × View))
    (hpast : s.trail.past = newer ++ (c, w) :: older) (h : s.Reverted w older s')

theorem Moves.valid {s' : Store} (h : s.Moves s') (hs : s.Valid) : s'.Valid := by
  cases h with
  | evolved h => exact h.valid
  | opened h => exact h ▸ hs.save
  | closed _ _ _ _ _ h => exact h.valid

theorem Call.moves (c : Call) (hc : ∀ t, c ≠ .trail t) (hs : s.Valid) :
    s.Moves (c.perform.after s) := by
  have hself := hs.evolves_self
  have hstep : ∀ {x : Attempt Unit}, Steps Evolves x → s.Moves (x.after s) := fun h =>
    .evolved (h s hself)
  cases c with
  | create d =>
    exact hstep (((steps_create d).mapError Failure.fault).bind onward_evolves fun _ => steps_pure _)
  | narrow v n c => exact hstep (steps_narrow v n c).discard
  | clearEvents => exact .evolved (hs.evolves_aside _ _)
  | clearDeltas =>
    exact .evolved { hself with valid := hs.clearDeltas, rooted := ⟨fun _ _ => rfl, (rooted_self s).offset⟩ }
  | setRunning p => exact .evolved (hs.evolves_aside _ _)
  | save => exact .opened rfl
  | restore =>
    have h : s.Moves (Store.restore.after s) := after_of_ends (hs.restore_ends.mono
      (fun _ _ ⟨c, w, older, hpast, h⟩ => .closed [] c w older hpast h)
      fun _ _ ⟨_, _, h⟩ => .evolved (h.symm ▸ hself))
    exact (after_mapError Failure.fault Store.restore s).symm ▸ h
  | checkpoint => exact .opened rfl
  | rollback m =>
    have h : s.Moves ((Store.rollback m).after s) := after_of_ends ((hs.rollback_ends m).mono
      (fun _ _ ⟨newer, w, older, hpast, _, h⟩ => .closed newer _ w older hpast h)
      fun _ _ ⟨_, _, h⟩ => .evolved (h.symm ▸ hself))
    exact (after_mapError Failure.fault (Store.rollback m) s).symm ▸ h
  | trail t => exact absurd rfl (hc t)

theorem Call.valid (c : Call) (hc : ∀ t, c ≠ .trail t) (hs : s.Valid) :
    (c.perform.after s).Valid := (c.moves hc hs).valid hs

end Store

theorem Model.Reached.valid {ν π : Type} [Propagator ν π] {m : Model ν π} (h : m.Reached) :
    m.Valid := by
  induction h with
  | calls marks cs =>
    have hrun : ∀ (s : Session ν π), s.model.Valid → (s.after cs).model.Valid := by
      induction cs with
      | nil => exact fun s hs => hs
      | cons c cs ih => exact fun s hs => ih _ ((c.moves hs).valid hs)
    exact hrun _ valid_empty
  | rounds _ n ih => exact (steps_settle n _ ih.evolves_self).valid

namespace Store

variable {s : Store}

/-- Every reached store is valid. -/
theorem Reached.valid (h : s.Reached) : s.Valid := by
  induction h with
  | fresh => exact valid_empty
  | model h => exact h.valid.store
  | call _ c hc ih => exact c.valid hc ih

/-! ## Well-formed domains -/

/-- Every live variable has a well-formed domain (`Dom.Wf`): an integer variable has a value left;
the kernel of a set lies within its envelope, which lies within its ground set; and so for the nodes
and the arcs of a graph, which has the ends of each arc where it has the arc. -/
theorem Reached.wellFormed (h : s.Reached) {v : Var} (hv : v.id < s.varCount) :
    ∃ D, s.Shows v D ∧ D.Wf := by
  rw [h.valid.varCount_eq] at hv
  cases hD : s.scene v with
  | none => exact absurd hD ((h.valid.ne_none_iff v).2 hv)
  | some D => exact ⟨D, h.valid.shows hD, h.valid.wf hD⟩

/-- A graph of which an arc is enforced, and another removed in a level that is closed again. -/
theorem wellFormed_graph : ∃ D, (Session.after (⟨.empty, #[]⟩ : Session Unit NotEqual)
    [.create (.digraphs 3), .narrow ⟨0⟩ (.enforceArc 0 1) .decision, .save,
      .narrow ⟨0⟩ (.removeArc 1 2) .decision, .restore]).model.store.Shows ⟨0⟩ D ∧ D.Wf :=
  (Reached.model (.calls #[] _)).wellFormed (by decide +kernel)

/-! ## Narrowings -/

/-- A narrowing that succeeds leaves the domain `D.after n`, which is within `D`; if it is `D`
itself, the whole store is unchanged and the answer is `false`. A narrowing that is refused leaves
the whole store unchanged. -/
theorem Reached.narrow_sound (h : s.Reached) (v : Var) (n : Narrowing) (c : Cause) :
    Ends (narrow v n c) s
      (fun changed s' => ∃ D D', s.Shows v D ∧ s'.Shows v D' ∧ D'.Within D ∧
        D.after n = some D' ∧ changed = decide (D' ≠ D) ∧ (D' = D → s' = s))
      fun f s' => ∀ x, f = .contradiction x → s' = s := by
  refine (h.valid.narrow_ends v n c).mono ?_ ?_
  · rintro changed s' ⟨D, D', -, hn, hchanged, hnarrowed, hsame⟩
    refine ⟨D, D', h.valid.shows hnarrowed.before, hnarrowed.valid.shows hnarrowed.after,
      hnarrowed.within, hn, hchanged, fun heq => hsame ?_⟩
    rw [hchanged, heq]
    simp
  · rintro f s' hf x rfl
    exact hf.1

/-- An attempt that a decidable test has shown to end in a contradiction. -/
theorem exists_refusal {x : Attempt Bool}
    (h : (match x s with
      | .error (.contradiction _) _ => true
      | _ => false) = true) : ∃ c s', x s = .error (.contradiction c) s' := by
  cases hx : x s with
  | ok b s' =>
    rw [hx] at h
    cases h
  | error f s' =>
    cases f with
    | fault e =>
      rw [hx] at h
      cases h
    | contradiction c => exact ⟨c, s', rfl⟩

/-- The removal of the end of an enforced arc is refused. -/
theorem narrow_sound_refusal :
    let s := (Session.after (⟨.empty, #[]⟩ : Session Unit NotEqual)
      [.create (.digraphs 3), .narrow ⟨0⟩ (.enforceArc 0 1) .decision]).model.store
    ∃ x s', narrow ⟨0⟩ (.removeNode 1) .decision s = .error (.contradiction x) s' ∧ s' = s := by
  intro s
  have hs : s.Reached := .model (.calls #[] _)
  obtain ⟨x, s', hrun⟩ := exists_refusal (x := narrow ⟨0⟩ (.removeNode 1) .decision) (s := s)
    (by decide +kernel)
  exact ⟨x, s', hrun, (hs.narrow_sound _ _ _).of_error hrun x rfl⟩

end Store

end Propagation
