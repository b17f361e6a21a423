import Propagation.Proofs.Model.Moves
import Propagation.Proofs.Queue

/-!
# The queue of a model stays in step

After any call, also one that ends in a fault halfway, the lanes, the agenda and the set `present`
of the queue still agree (`Call.orderly`): the engine only enqueues, pops and clears.
-/

set_option autoImplicit false

namespace Propagation

open Update

variable {ν π : Type}

namespace Model

/-- The step from `m` to `m'` keeps the queue valid. -/
def Orderly (m m' : Model ν π) : Prop := m.queue.Valid → m'.queue.Valid

theorem onward_orderly : Onward (Orderly : Model ν π → Model ν π → Prop) :=
  ⟨fun h h' hq => h' (h hq), fun _ => id⟩

/-- An update that keeps the queue is `Orderly`. -/
theorem orderly_of_keeps {ε α : Type} {x : Update ε (Model ν π) α} (h : Keeps queue x) :
    Steps Orderly x := fun m _ hq => (h m).symm ▸ hq

theorem orderly_modify {ε : Type} {g : Model ν π → Model ν π}
    (h : ∀ m : Model ν π, m.queue.Valid → (g m).queue.Valid) :
    Steps Orderly (modify g : Update ε (Model ν π) PUnit) := steps_modify fun m _ => h m

theorem orderly_onStore {α : Type} (x : Store.Op α) : Steps Orderly (onStore x : Op ν π α) :=
  orderly_of_keeps fun m => by
    rw [after, onStore, within_apply]
    cases x m.store <;> rfl

/-! ## Scheduling -/

theorem orderly_enqueue (p : PropagatorId) : Steps Orderly (enqueue p : Op ν π Unit) :=
  (steps_query _).bind onward_orderly fun e => orderly_modify fun _ hq => hq.enqueue p e.priority

theorem orderly_mapEntry (p : PropagatorId) (f : Entry π → Entry π) :
    Steps Orderly (mapEntry p f : Op ν π Unit) := orderly_modify fun _ => id

theorem orderly_say (l : LogLine) : Steps Orderly (say l : Op ν π Unit) :=
  orderly_modify fun _ => id

theorem orderly_schedule (p : PropagatorId) : Steps Orderly (schedule p : Op ν π Unit) :=
  (steps_query _).discard.bind onward_orderly fun _ =>
    (orderly_mapEntry p _).bind onward_orderly fun _ => orderly_enqueue p

theorem orderly_dispatch : Steps Orderly (dispatch : Op ν π Unit) := by
  have hnotify : ∀ event s, Steps Orderly (notify event s : Op ν π Unit) := fun event s =>
    steps_ite (steps_pure _) (steps_ite (steps_pure _)
      ((steps_query _).bind onward_orderly fun _ => (steps_query _).bind onward_orderly fun _ =>
        steps_ite ((orderly_mapEntry _ _).bind onward_orderly fun _ => orderly_enqueue _)
          (steps_pure _)))
  have hall : ∀ event, Steps Orderly (notifyAll event : Op ν π Unit) := fun event =>
    steps_get.bind onward_orderly fun _ => steps_forM onward_orderly (hnotify event) _
  exact steps_get.bind onward_orderly fun _ =>
    (steps_forM onward_orderly hall _).bind onward_orderly fun _ => orderly_modify fun _ => id

theorem orderly_next : Steps Orderly (next : Op ν π (Option PropagatorId)) := by
  refine orderly_dispatch.bind onward_orderly fun _ => steps_get_bind fun m _ hq => ?_
  cases hpop : m.queue.pop with
  | none => exact hq
  | some x => exact (hq.pop_some hpop).1

/-! ## Running -/

theorem orderly_act {α : Type} (p : PropagatorId) (x : Action ν π α) : Steps Orderly (act p x) := by
  refine orderly_of_keeps fun m => ?_
  rw [after]
  cases he : m.entries[p.id]? with
  | none => rw [act, he]
  | some e =>
    rw [act_apply he]
    cases x.run { store := m.store, own := e.propagator, notes := #[] } <;> rfl

theorem orderly_asRunning {α : Type} {x : Attempt ν π α} (hx : Steps Orderly x)
    (p : PropagatorId) : Steps Orderly (asRunning p x) := by
  intro m _ hq
  have hx' := hx (m.withRunning (some p)) id hq
  rw [after, asRunning]
  revert hx'
  rw [after]
  cases x (m.withRunning (some p)) with
  | ok a u => exact id
  | error f u => cases f <;> exact id

section
variable [Propagator ν π]

theorem orderly_execute (p : PropagatorId) : Steps Orderly (execute p : Attempt ν π Unit) := by
  have hfilter : ∀ e, Steps Orderly (filter p e : Attempt ν π Unit) := fun e =>
    ((orderly_mapEntry p _).mapError _).bind onward_orderly fun _ =>
      steps_ite (((orderly_say _).mapError _).bind onward_orderly fun _ => orderly_act p _)
        (((orderly_say _).mapError _).bind onward_orderly fun _ => orderly_act p _)
  have hretire : Steps Orderly (retire p : Op ν π Unit) :=
    (steps_query _).bind onward_orderly fun e => (steps_query _).bind onward_orderly fun _ =>
      steps_ite ((orderly_say _).bind onward_orderly fun _ => (orderly_onStore _).discard)
        (steps_pure _)
  refine ((steps_query _).mapError _).bind onward_orderly fun e => ?_
  refine ((steps_query _).mapError _).bind onward_orderly fun b => steps_ite ?_ ?_
  · exact (orderly_asRunning (hfilter e) p).bind onward_orderly fun _ => hretire.mapError _
  · exact (orderly_mapEntry p _).mapError _

theorem orderly_settle (n : Nat) : Steps Orderly (settle n : Attempt ν π Unit) := by
  induction n with
  | zero =>
    exact (orderly_next.mapError _).bind onward_orderly fun _ =>
      steps_ite (steps_throw _) (steps_pure _)
  | succ n ih =>
    refine (orderly_next.mapError _).bind onward_orderly fun q => ?_
    cases q with
    | none => exact steps_pure _
    | some p => exact (orderly_execute p).bind onward_orderly fun _ => ih

theorem orderly_fixpoint : Steps Orderly (fixpoint : Attempt ν π Unit) := by
  intro m hm hq
  have h : ((settle m.budget).after m).queue.Valid := orderly_settle m.budget m hm hq
  revert h
  rw [after, after, fixpoint]
  cases settle m.budget m with
  | ok a u => exact id
  | error f u =>
    cases f with
    | contradiction c => exact Queue.Valid.clear
    | fault f => exact id

/-! ## Posting and levels -/

theorem orderly_post (x : π) : Steps Orderly (post x : Op ν π PropagatorId) := by
  have hsubscribe : ∀ p ws i, Steps Orderly (subscribeAll p i ws : Op ν π Unit) := fun p ws => by
    induction ws with
    | nil => exact fun _ => steps_pure _
    | cons w ws ih =>
      refine fun i => Steps.bind onward_orderly ?_ fun _ => ih (i + 1)
      exact (steps_query _).discard.bind onward_orderly fun _ => orderly_modify fun _ => id
  have henlist : ∀ p setup, Steps Orderly (enlist p setup : Op ν π Unit) := fun p setup => by
    refine (orderly_onStore _).bind onward_orderly fun _ =>
      (orderly_onStore _).bind onward_orderly fun _ =>
        (orderly_say _).bind onward_orderly fun _ => Steps.bind onward_orderly ?_ fun _ => ?_
    · exact orderly_modify fun _ => id
    · exact steps_get.bind onward_orderly fun _ =>
        (orderly_onStore _).discard.bind onward_orderly fun _ => orderly_schedule p
  refine steps_get_bind fun m _ => ?_
  rw [after_bind_ok _ (set_apply _ _)]
  refine (Steps.bind onward_orderly (steps_query _) fun setup => ?_ : Steps Orderly _)
    { m with entries := m.entries.take m.propagatorCount } id
  refine Steps.bind onward_orderly (orderly_modify ?_) fun _ => ?_
  · exact fun _ => id
  · exact (hsubscribe _ _ 0).bind onward_orderly fun _ =>
      (henlist _ setup).bind onward_orderly fun _ => steps_pure _

end

theorem orderly_enable (p : PropagatorId) : Steps Orderly (enable p : Op ν π Unit) :=
  (steps_query _).bind onward_orderly fun _ =>
    (orderly_onStore _).discard.bind onward_orderly fun _ => orderly_schedule p

theorem orderly_disable (p : PropagatorId) : Steps Orderly (disable p : Op ν π Unit) :=
  (steps_query _).bind onward_orderly fun _ =>
    (orderly_onStore _).discard.bind onward_orderly fun _ => orderly_mapEntry p _

theorem orderly_repair (unsettled : Bool) : Steps Orderly (repair unsettled : Op ν π Unit) := by
  have hwake : ∀ p, Steps Orderly (wake p : Op ν π Unit) := fun p =>
    (steps_query _).bind onward_orderly fun _ => (steps_query _).bind onward_orderly fun _ =>
      steps_ite (orderly_schedule p) (steps_pure _)
  exact (orderly_modify fun _ hq => hq.clear).bind onward_orderly fun _ =>
    steps_ite (steps_get.bind onward_orderly fun _ =>
      steps_forM onward_orderly (fun _ => hwake _) _) (steps_pure _)

theorem orderly_restore : Steps Orderly (restore : Op ν π Unit) := by
  refine (orderly_onStore _).bind onward_orderly fun _ => steps_get_bind fun m _ => ?_
  rw [after_bind_ok _ (set_apply _ _)]
  exact orderly_repair _ { m with unsettled := m.unsettled.pop } id

theorem orderly_rollback (k : Mark) : Steps Orderly (rollback k : Op ν π Unit) := by
  refine (orderly_onStore _).bind onward_orderly fun _ => steps_get_bind fun m _ => ?_
  rw [after_bind_ok _ (set_apply _ _)]
  have hrest : ∀ b, Steps Orderly (do
      repair b
      say (.rolledBack k.depth (← get).entries.size) : Op ν π Unit) := fun b =>
    (orderly_repair b).bind onward_orderly fun _ =>
      steps_get.bind onward_orderly fun _ => orderly_say _
  exact hrest _ { m with unsettled := m.unsettled.take k.depth } id

end Model

/-! ## Calls -/

open Model

variable [Propagator ν π] {s : Session ν π}

theorem Call.orderly (c : Call π) (hq : s.model.queue.Valid) :
    (c.perform.after s).model.queue.Valid := by
  have hstep : ∀ {α : Type} {x : Model.Op ν π α}, Steps Orderly x →
      ((Session.onModel x).after s).model.queue.Valid := fun h => by
    rw [Session.after_onModel]
    exact h _ id hq
  have hbind : ∀ {α : Type} {x : Model.Op ν π α} {f : α → Answer}, Steps Orderly x →
      Steps Orderly (do let a ← x; pure (f a) : Model.Op ν π Answer) := fun h =>
    h.bind onward_orderly fun _ => steps_pure _
  cases c with
  | create d => exact hstep (hbind (f := .var) (orderly_onStore _))
  | narrow v n c =>
    refine hstep (steps_answering (orderly_of_keeps fun m => ?_))
    rw [after, within_apply]
    cases Store.narrow v n c m.store <;> rfl
  | post x => exact hstep (hbind (f := .propagator) (orderly_post x))
  | enable p => exact hstep (hbind (f := fun _ => .done) (orderly_enable p))
  | disable p => exact hstep (hbind (f := fun _ => .done) (orderly_disable p))
  | save => exact hq
  | restore => exact hstep (hbind (f := fun _ => .done) orderly_restore)
  | checkpoint => exact hq
  | rollback k =>
    rw [perform]
    cases hk : Checked.fetch s.marks k with
    | error e => rwa [after_bind_error _ (query_apply_error (s := s) hk)]
    | ok mark =>
      rw [after_bind_ok _ (query_apply_ok (s := s) hk)]
      exact hstep (hbind (f := fun _ => .done) (orderly_rollback mark))
  | fixpoint => exact hstep (steps_answering orderly_fixpoint)
  | isEntailed p => exact hstep (hbind (f := .entailment) (steps_query _))

/-- The queue is valid after any calls, also if some of them fault. -/
theorem Session.orderly (cs : List (Call π)) (hq : s.model.queue.Valid) :
    (s.after cs).model.queue.Valid := by
  induction cs generalizing s with
  | nil => exact hq
  | cons c cs ih => exact ih (c.orderly hq)

end Propagation
