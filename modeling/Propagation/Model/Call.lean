import Propagation.Model.Fixpoint
import Propagation.Model.Level

/-!
# Calls

What a user may do with a model, as data. A `Session` is a model with the marks that its user
holds; a call names a mark by its position among them. `Session.run` makes calls one after the
other, and keeps with each its answer and the model after it; a fault ends the session.

Main definitions: `Call`, `Call.perform`, `Session.run`, `Prompt`.
-/

set_option autoImplicit false

namespace Propagation

inductive Call (π : Type)
  | create (d : Shape)
  | narrow (v : Var) (n : Narrowing) (c : Cause)
  | post (propagator : π)
  | enable (p : PropagatorId)
  | disable (p : PropagatorId)
  | save
  | restore
  | checkpoint
  /-- A rollback to the mark at position `k`. -/
  | rollback (k : Nat)
  | fixpoint
  | isEntailed (p : PropagatorId)
deriving DecidableEq, Repr

/-- The answer of a call; a contradiction is one. -/
inductive Answer
  | done
  | var (v : Var)
  | propagator (p : PropagatorId)
  /-- A mark was taken while `depth` levels were open. -/
  | marked (depth : Nat)
  | narrowed (changed : Bool)
  | entailment (e : Entailment)
  | contradiction (c : Contradiction)
deriving DecidableEq, Repr

structure Session (ν π : Type) where
  model : Model ν π
  /-- The marks taken so far, oldest first. -/
  marks : Array Mark

/-- A call with its answer and the model after it. -/
structure Step (ν π : Type) where
  call : Call π
  answer : Answer
  after : Model ν π

variable {ν π : Type}

namespace Session

/-- Runs `x` on the model. -/
def onModel {α : Type} (x : Model.Op ν π α) : Update Fault (Session ν π) α :=
  Update.within (·.model) (fun m s => { s with model := m }) x

end Session

namespace Model

/-- The answer of `x`, where `f` maps its result; a contradiction becomes an answer. -/
def answering {α : Type} (f : α → Answer) (x : Attempt ν π α) : Op ν π Answer := fun m =>
  match x m with
  | .ok a m => .ok (f a) m
  | .error (.contradiction c) m => .ok (.contradiction c) m
  | .error (.fault e) m => .error e m

/-- Narrows the domain of `v` by `n`. -/
def onDomain (v : Var) (n : Narrowing) (c : Cause) : Op ν π Answer :=
  answering .narrowed (Update.within (·.store) (fun s m => { m with store := s })
    (Store.narrow v n c))

end Model

/-- Makes the call. -/
def Call.perform [Propagator ν π] : Call π → Update Fault (Session ν π) Answer
  | .create d => Session.onModel do
    let v ← Model.onStore (Store.create d)
    pure (.var v)
  | .narrow v n c => Session.onModel (Model.onDomain v n c)
  | .post x => Session.onModel do
    let p ← Model.post x
    pure (.propagator p)
  | .enable p => Session.onModel do
    Model.enable p
    pure .done
  | .disable p => Session.onModel do
    Model.disable p
    pure .done
  | .save => Session.onModel do
    modify Model.save
    pure .done
  | .restore => Session.onModel do
    Model.restore
    pure .done
  | .checkpoint => do
    let s ← get
    let (mark, m) := s.model.checkpoint
    set { s with model := m, marks := s.marks.push mark }
    pure (.marked mark.depth)
  | .rollback k => do
    let mark ← Update.query fun s => Checked.fetch s.marks k
    Session.onModel do
      Model.rollback mark
      pure .done
  | .fixpoint => Session.onModel (Model.answering (fun _ => .done) Model.fixpoint)
  | .isEntailed p => Session.onModel do
    let e ← Model.query (·.isEntailed p)
    pure (.entailment e)

/-- Makes the calls one after the other, and keeps each as a `Step`. -/
def Session.run [Propagator ν π] : List (Call π) → Update Fault (Session ν π) (List (Step ν π))
  | [] => pure []
  | c :: cs => do
    let a ← c.perform
    let m := (← get).model
    let rest ← run cs
    pure (⟨c, a, m⟩ :: rest)

/-! ## Discipline -/

/-- The step is a propagation that ended in a contradiction. -/
def Step.Failed (x : Step ν π) : Prop :=
  match x.call, x.answer with
  | .fixpoint, .contradiction _ => True
  | _, _ => False

instance : (x : Step ν π) → Decidable x.Failed
  | ⟨.fixpoint, .contradiction _, _⟩ => isTrue trivial
  | ⟨.fixpoint, .done, _⟩ | ⟨.fixpoint, .var _, _⟩ | ⟨.fixpoint, .propagator _, _⟩
  | ⟨.fixpoint, .marked _, _⟩ | ⟨.fixpoint, .narrowed _, _⟩ | ⟨.fixpoint, .entailment _, _⟩
  | ⟨.create _, _, _⟩ | ⟨.narrow .., _, _⟩ | ⟨.post _, _, _⟩ | ⟨.enable _, _, _⟩
  | ⟨.disable _, _, _⟩ | ⟨.save, _, _⟩ | ⟨.restore, _, _⟩ | ⟨.checkpoint, _, _⟩
  | ⟨.rollback _, _, _⟩ | ⟨.isEntailed _, _, _⟩ => isFalse id

/-- The call closes a level. -/
def Call.Closes : Call π → Prop
  | .restore | .rollback _ => True
  | _ => False

instance : (c : Call π) → Decidable c.Closes
  | .restore | .rollback _ => isTrue trivial
  | .create _ | .narrow .. | .post _ | .enable _ | .disable _ | .save | .checkpoint | .fixpoint
  | .isEntailed _ => isFalse id

/-- The first step closes a level if `failed`, and so does every step right after a contradictory
propagation. -/
def PromptFrom (failed : Prop) : List (Step ν π) → Prop
  | [] => True
  | x :: xs => (failed → x.call.Closes) ∧ PromptFrom x.Failed xs

instance decidablePromptFrom (failed : Prop) [Decidable failed] :
    (xs : List (Step ν π)) → Decidable (PromptFrom failed xs)
  | [] => isTrue trivial
  | x :: xs =>
    haveI := decidablePromptFrom x.Failed xs
    inferInstanceAs (Decidable ((failed → x.call.Closes) ∧ PromptFrom x.Failed xs))

/-- Every step right after a contradictory propagation closes a level. -/
def Prompt (xs : List (Step ν π)) : Prop := PromptFrom False xs

instance (xs : List (Step ν π)) : Decidable (Prompt xs) :=
  inferInstanceAs (Decidable (PromptFrom False xs))

end Propagation
