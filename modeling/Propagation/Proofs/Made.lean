import Propagation.Proofs.Reached
import Propagation.Proofs.Store.Ranges

/-!
# The life of an integer variable

`Store.Made` holds of a store that has been reached in such a way that the variable was created on
the way with the integers from `lo` to `hi`, and has been alive ever since. In such a store the
variable is still within its interval and counted from the lower end of it (`Store.Made.ranges`),
whatever else has been done, with whatever faults.
-/

set_option autoImplicit false

namespace Propagation

open Update

/-- The models reached from a creation of `v` with the integers from `lo` to `hi`, by calls that
leave `v` alive (`hlive`) and by rounds of a propagation, which always do. -/
inductive Model.Made {ν π : Type} [Propagator ν π] (v : Var) (lo hi : Int) : Model ν π → Prop
  | created {m m' : Model ν π} (h : m.Reached)
    (hrun : (Model.onStore (Store.create (.interval lo hi)) : Model.Op ν π Var) m = .ok v m') :
    Made v lo hi m'
  | call {m : Model ν π} (h : Made v lo hi m) (marks : Array Mark) (c : Call π)
    (hlive : v.id < (c.perform.after ⟨m, marks⟩).model.store.varCount) :
    Made v lo hi (c.perform.after ⟨m, marks⟩).model
  | rounds {m : Model ν π} (h : Made v lo hi m) (n : Nat) : Made v lo hi ((Model.settle n).after m)

/-- The stores reached from such a creation of `v`, alone or as the store of a model, by calls that
leave `v` alive. -/
inductive Store.Made (v : Var) (lo hi : Int) : Store → Prop
  | created {s s' : Store} (h : s.Reached) (hrun : Store.create (.interval lo hi) s = .ok v s') :
    Made v lo hi s'
  | model {ν π : Type} [Propagator ν π] {m : Model ν π} (h : m.Made v lo hi) : Made v lo hi m.store
  | call {s : Store} (h : Made v lo hi s) (c : Store.Call) (hc : ∀ t, c ≠ .trail t)
    (hlive : v.id < (c.perform.after s).varCount) : Made v lo hi (c.perform.after s)

variable {v : Var} {lo hi : Int}

/-- The store after a successful creation of `v` is `Made`, if it was reached before. -/
theorem Store.Reached.made {s : Store} (h : s.Reached)
    (hcreate : passes (Store.create (.interval lo hi)) s (fun u _ => u = v) = true) :
    ((Store.Call.create (.interval lo hi)).perform.after s).Made v lo hi := by
  obtain ⟨u, s', hrun, hu⟩ := exists_of_passes hcreate
  obtain rfl : u = v := of_decide_eq_true hu
  have hafter : (Store.Call.create (.interval lo hi)).perform.after s = s' := by
    rw [after, Store.Call.perform, bind_apply, lift_apply, hrun]
    rfl
  exact hafter ▸ .created h hrun

/-! ## Single steps -/

theorem Store.Moves.ranges {s s' : Store} (h : s.Moves s') (hs : s.Valid) (hv : s.Ranges v lo hi)
    (hlive : v.id < s'.varCount) : s'.Ranges v lo hi := by
  have hs' := h.valid hs
  rw [hs'.varCount_eq] at hlive
  cases h with
  | evolved h => exact h.ranges hs hv
  | opened h => exact h ▸ hv.save hs
  | closed newer c w older hpast h => exact h.ranges hpast hv hlive

theorem Model.Evolves.ranges {ν π : Type} {m m' : Model ν π} (h : m.Evolves m') (hm : m.Valid)
    (hv : m.store.Ranges v lo hi) : m'.store.Ranges v lo hi :=
  hv.mono hm.store h.valid.store h.rooted h.scene h.past h.vars

theorem Model.Moves.ranges {ν π : Type} {m m' : Model ν π} (h : m.Moves m') (hm : m.Valid)
    (hv : m.store.Ranges v lo hi) (hlive : v.id < m'.store.varCount) :
    m'.store.Ranges v lo hi := by
  have hm' := h.valid hm
  rw [hm'.store.varCount_eq] at hlive
  cases h with
  | evolved h => exact h.ranges hm hv
  | opened h => exact h ▸ hv.save hm.store
  | closed newer c w older hpast h => exact h.store.ranges hpast hv hlive

/-! ## Whole lives -/

theorem Model.Made.ranges {ν π : Type} [Propagator ν π] {m : Model ν π} (h : m.Made v lo hi) :
    m.Valid ∧ m.store.Ranges v lo hi := by
  induction h with
  | created h hrun =>
    have hm := h.valid
    have hm' := (steps_onStore (Store.steps_create (.interval lo hi))).of_ok hm.evolves_self hrun
    refine ⟨hm'.valid, ?_⟩
    rw [Model.onStore, within_apply] at hrun
    cases hcreate : Store.create (.interval lo hi) _ with
    | error e s => rw [hcreate] at hrun; cases hrun
    | ok u s =>
      rw [hcreate] at hrun
      cases hrun
      exact hm.store.ranges_of_create hcreate
  | call h marks c hlive ih =>
    obtain ⟨hm, hv⟩ := ih
    have hmoves := c.moves (s := ⟨_, marks⟩) hm
    exact ⟨hmoves.valid hm, hmoves.ranges hm hv hlive⟩
  | rounds h n ih =>
    obtain ⟨hm, hv⟩ := ih
    have hsteps := steps_settle n _ hm.evolves_self
    exact ⟨hsteps.valid, hsteps.ranges hm hv⟩

theorem Store.Made.ranges {s : Store} (h : s.Made v lo hi) : s.Valid ∧ s.Ranges v lo hi := by
  induction h with
  | created h hrun =>
    have hs := h.valid
    exact ⟨((hs.create_ends _).of_ok hrun).valid, hs.ranges_of_create hrun⟩
  | model h => exact ⟨h.ranges.1.store, h.ranges.2⟩
  | call h c hc hlive ih =>
    obtain ⟨hs, hv⟩ := ih
    have hmoves := c.moves hc hs
    exact ⟨hmoves.valid hs, hmoves.ranges hs hv hlive⟩

end Propagation
