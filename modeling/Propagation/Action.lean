import Propagation.Store.Narrowing

/-!
# Actions

An `Action ν σ α` is a tree of the steps that a propagator may take on a store: read it, narrow a
domain, create a variable, read and write a state `σ`, add a note `ν` to the trace. It ends with an
`α`, a contradiction or a fault. Propagators are written as actions, so a law that holds of every
action holds of every propagator.

A contradiction may be caught (`Action.attempt`), a fault may not.

Main definitions: `Action`, its monad, `Action.run`, `Action.zoom`.
-/

set_option autoImplicit false

namespace Propagation

inductive Action (ν σ α : Type) : Type
  | done (a : α)
  | fail (e : Failure)
  | look (k : Store → Action ν σ α)
  | narrow (v : Var) (n : Narrowing) (c : Cause) (k : Except Contradiction Bool → Action ν σ α)
  | create (d : Shape) (k : Var → Action ν σ α)
  | own (k : σ → Action ν σ α)
  | put (s : σ) (k : Action ν σ α)
  | note (x : ν) (k : Action ν σ α)

/-- The state that an action works on: the `store`, the action's `own` state, and the `notes` it has
left, oldest first. -/
structure Workspace (ν σ : Type) where
  store : Store
  own : σ
  notes : Array ν

namespace Action

variable {ν σ τ α β : Type}

def bind : Action ν σ α → (α → Action ν σ β) → Action ν σ β
  | done a, f => f a
  | fail e, _ => fail e
  | look k, f => look fun s => (k s).bind f
  | narrow v n c k, f => narrow v n c fun r => (k r).bind f
  | create d k, f => create d fun v => (k v).bind f
  | own k, f => own fun s => (k s).bind f
  | put s k, f => put s (k.bind f)
  | note x k, f => note x (k.bind f)

instance : Monad (Action ν σ) where
  pure := done
  bind := bind

/-- Runs the action on the workspace, step by step. -/
def run : Action ν σ α → Update Failure (Workspace ν σ) α
  | done a, w => .ok a w
  | fail e, w => .error e w
  | look k, w => (k w.store).run w
  | narrow v n c k, w =>
    match Store.narrow v n c w.store with
    | .ok changed s => (k (.ok changed)).run { w with store := s }
    | .error (.contradiction x) s => (k (.error x)).run { w with store := s }
    | .error (.fault f) s => .error (.fault f) { w with store := s }
  | create d k, w =>
    match Store.create d w.store with
    | .ok v s => (k v).run { w with store := s }
    | .error f s => .error (.fault f) { w with store := s }
  | own k, w => (k w.own).run w
  | put s k, w => k.run { w with own := s }
  | note x k, w => k.run { w with notes := w.notes.push x }

/-! ## Single steps -/

/-- The answer of `f` on the store. -/
def query (f : Store → Except Fault α) : Action ν σ α :=
  look fun s =>
    match f s with
    | .ok a => done a
    | .error e => fail (.fault e)

/-- Narrows the domain of `v` by `n`; a contradiction ends the action. -/
def apply (v : Var) (n : Narrowing) (c : Cause) : Action ν σ Bool :=
  narrow v n c fun r =>
    match r with
    | .ok changed => done changed
    | .error x => fail (.contradiction x)

/-- The `own` state of the workspace. -/
def state : Action ν σ σ := own done

/-- Runs the update `f` of the `own` state, which may read the store. -/
def update (f : Store → Update Fault σ α) : Action ν σ α :=
  look fun s => own fun o =>
    match f s o with
    | .ok a o => put o (done a)
    | .error e o => put o (fail (.fault e))

def tell (x : ν) : Action ν σ Unit := note x (done ())

/-! ## Whole actions -/

/-- Runs the action; if it ends in a contradiction, that contradiction is the answer. -/
def attempt : Action ν σ α → Action ν σ (Except Contradiction α)
  | done a => done (.ok a)
  | fail (.contradiction x) => done (.error x)
  | fail (.fault f) => fail (.fault f)
  | look k => look fun s => (k s).attempt
  | narrow v n c k => narrow v n c fun r => (k r).attempt
  | create d k => create d fun v => (k v).attempt
  | own k => own fun s => (k s).attempt
  | put s k => put s k.attempt
  | note x k => note x k.attempt

/-- The action on the state `τ` that runs the given one on the part of it that `get` reads and `set`
writes. -/
def zoom (get : τ → σ) (set : σ → τ → τ) : Action ν σ α → Action ν τ α
  | done a => done a
  | fail e => fail e
  | look k => look fun s => (k s).zoom get set
  | narrow v n c k => narrow v n c fun r => (k r).zoom get set
  | create d k => create d fun v => (k v).zoom get set
  | own k => own fun t => (k (get t)).zoom get set
  | put s k => own fun t => put (set s t) (k.zoom get set)
  | note x k => note x (k.zoom get set)

/-! ## Laws -/

theorem bind_done (x : Action ν σ α) : x.bind done = x := by
  induction x with
  | done a => rfl
  | fail e => rfl
  | look k ih => exact congrArg look (funext ih)
  | narrow v n c k ih => exact congrArg (narrow v n c) (funext ih)
  | create d k ih => exact congrArg (create d) (funext ih)
  | own k ih => exact congrArg own (funext ih)
  | put s k ih => exact congrArg (put s) ih
  | note x k ih => exact congrArg (note x) ih

theorem bind_bind {γ : Type} (x : Action ν σ α) (f : α → Action ν σ β) (g : β → Action ν σ γ) :
    (x.bind f).bind g = x.bind fun a => (f a).bind g := by
  induction x with
  | done a => rfl
  | fail e => rfl
  | look k ih => exact congrArg look (funext ih)
  | narrow v n c k ih => exact congrArg (narrow v n c) (funext ih)
  | create d k ih => exact congrArg (create d) (funext ih)
  | own k ih => exact congrArg own (funext ih)
  | put s k ih => exact congrArg (put s) ih
  | note x k ih => exact congrArg (note x) ih

instance : LawfulMonad (Action ν σ) :=
  LawfulMonad.mk' _ bind_done (fun _ _ => rfl) bind_bind

/-- `x.bind f` runs `f` on the answer of `x`, from the workspace that `x` leaves. -/
theorem run_bind (x : Action ν σ α) (f : α → Action ν σ β) (w : Workspace ν σ) :
    (x.bind f).run w =
      match x.run w with
      | .ok a w => (f a).run w
      | .error e w => .error e w := by
  induction x generalizing w with
  | done a => rfl
  | fail e => rfl
  | look k ih => exact ih _ w
  | narrow v n c k ih =>
    simp only [bind, run]
    split
    · exact ih _ _
    · exact ih _ _
    · rfl
  | create d k ih =>
    simp only [bind, run]
    split
    · exact ih _ _
    · rfl
  | own k ih => exact ih _ w
  | put s k ih => exact ih _
  | note x k ih => exact ih _

/-- `x.attempt` keeps what `x` has done before a contradiction. -/
theorem run_attempt (x : Action ν σ α) (w : Workspace ν σ) :
    x.attempt.run w =
      match x.run w with
      | .ok a w => .ok (.ok a) w
      | .error (.contradiction c) w => .ok (.error c) w
      | .error (.fault f) w => .error (.fault f) w := by
  induction x generalizing w with
  | done a => rfl
  | fail e => cases e <;> rfl
  | look k ih => exact ih _ w
  | narrow v n c k ih =>
    simp only [attempt, run]
    split
    · exact ih _ _
    · exact ih _ _
    · rfl
  | create d k ih =>
    simp only [attempt, run]
    split
    · exact ih _ _
    · rfl
  | own k ih => exact ih _ w
  | put s k ih => exact ih _
  | note x k ih => exact ih _

end Action

end Propagation
