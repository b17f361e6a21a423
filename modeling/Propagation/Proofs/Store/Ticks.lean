import Propagation.Proofs.Trail.Ticks
import Propagation.Store.Call

/-!
# Clocks of a store

Whatever is called on a store, and however it ends, its trail opens at most one level at a new
clock, or closes some (`Store.Call.ticks`): updates of domains write cells and create resources, and
leave the levels alone (`Store.keeps_narrow`, `Store.keeps_create`).
-/

set_option autoImplicit false

namespace Propagation.Store

open Update
open Trail (edits_clocks)

/-- The clocks of the trail. -/
def clocks (s : Store) : Nat × List Nat := s.trail.clocks

/-- An operation of the trail that keeps the clocks keeps them in the store. -/
theorem keeps_onTrail {α : Type} {x : Trail.Op α}
    (hx : Steps (fun t t' => t'.clocks = t.clocks) x) : Keeps clocks (onTrail x) :=
  (keeps_iff.2 hx).within fun _ _ h => h

/-! ## Creating -/

theorem keeps_register (d : Domain) : Keeps clocks (register d) := by
  intro s
  have hcount : Keeps clocks (do discard (onTrail s.alive.increment); pure ⟨s.varCount⟩ : Op Var) :=
    (keeps_onTrail (s.alive.edits_add edits_clocks 1)).discard.bind fun _ => keeps_pure _
  exact hcount _

theorem edits_newRows (n k : Nat) :
    Steps (fun t t' : Trail => t'.clocks = t.clocks) (newRows n k) := by
  induction k with
  | zero => exact steps_pure _
  | succ k ih =>
    exact ih.bind edits_clocks.toOnward fun rows =>
      (Trail.edits_newBounded edits_clocks n).bind edits_clocks.toOnward fun r => steps_pure _

theorem keeps_create (d : Shape) : Keeps clocks (create d) := by
  cases d with
  | interval lo hi =>
    refine keeps_ite ?_ (keeps_throw _)
    exact (keeps_query _).bind fun n => (keeps_onTrail (Trail.edits_newSparse edits_clocks _ _)).bind fun r =>
      keeps_register _
  | subsets n => exact (keeps_onTrail (Trail.edits_newBounded edits_clocks n)).bind fun r => keeps_register _
  | digraphs n =>
    exact (keeps_onTrail (Trail.edits_newBounded edits_clocks n)).bind fun nodes =>
      (keeps_onTrail (edits_newRows n n)).bind fun rows => keeps_register _

/-! ## Narrowing -/

theorem keeps_ask {α : Type} (f : Store → Except Fault α) :
    Keeps clocks (liftM (query f) : Attempt α) := (keeps_query f).lift

theorem keeps_touch {α : Type} {x : Trail.Op α}
    (hx : Steps (fun t t' => t'.clocks = t.clocks) x) :
    Keeps clocks (liftM (onTrail x) : Attempt α) := (keeps_onTrail hx).lift

theorem keeps_notify (v : Var) (m : Mask) (c : Cause) :
    Keeps clocks (liftM (notify v m c) : Attempt Unit) :=
  Keeps.lift (x := notify v m c) fun _ => rfl

theorem keeps_record (v : Var) (e : DeltaEntry) :
    Keeps clocks (liftM (record v e) : Attempt Unit) :=
  Keeps.lift (x := record v e) fun _ => rfl

theorem keeps_noticeFixed (v : Var) (m : Mask) :
    Keeps clocks (liftM (noticeFixed v m) : Attempt Mask) :=
  ((keeps_query _).bind fun _ => keeps_pure _).lift

theorem keeps_refuse (v : Var) (c : Cause) (r : Reason) :
    Keeps clocks (refuse v c r : Attempt Bool) := keeps_throw _

theorem keeps_fix (v : Var) (a : Int) (c : Cause) : Keeps clocks (fix v a c) := by
  refine (keeps_ask _).bind fun b => keeps_ite ?_ (keeps_refuse v c _)
  refine (keeps_ask _).bind fun b => keeps_ite (keeps_pure _) ?_
  exact (keeps_ask _).bind fun lo => (keeps_ask _).bind fun hi => (keeps_ask _).bind fun r =>
    (keeps_touch (r.edits_removeAllBut edits_clocks a)).bind fun _ => (keeps_notify v _ c).bind fun _ =>
      keeps_pure _

theorem keeps_remove (v : Var) (a : Int) (c : Cause) : Keeps clocks (remove v a c) := by
  refine (keeps_ask _).bind fun b => keeps_ite ?_ (keeps_pure _)
  refine (keeps_ask _).bind fun b => keeps_ite (keeps_refuse v c _) ?_
  exact (keeps_ask _).bind fun lo => (keeps_ask _).bind fun hi => (keeps_ask _).bind fun r =>
    (keeps_touch (r.edits_remove edits_clocks a)).discard.bind fun _ => (keeps_noticeFixed v _).bind
      fun m => (keeps_notify v m c).bind fun _ => keeps_pure _

theorem keeps_removeBelow (v : Var) (a : Int) (c : Cause) : Keeps clocks (removeBelow v a c) := by
  refine (keeps_ask _).bind fun lo => (keeps_ask _).bind fun hi => keeps_ite (keeps_pure _) ?_
  refine keeps_ite (keeps_refuse v c _) ?_
  exact (keeps_ask _).bind fun r => (keeps_touch (r.edits_removeBelow edits_clocks a)).bind fun _ =>
    (keeps_noticeFixed v _).bind fun m => (keeps_notify v m c).bind fun _ => keeps_pure _

theorem keeps_removeAbove (v : Var) (a : Int) (c : Cause) : Keeps clocks (removeAbove v a c) := by
  refine (keeps_ask _).bind fun lo => (keeps_ask _).bind fun hi => keeps_ite (keeps_pure _) ?_
  refine keeps_ite (keeps_refuse v c _) ?_
  exact (keeps_ask _).bind fun r => (keeps_touch (r.edits_removeAbove edits_clocks a)).bind fun _ =>
    (keeps_noticeFixed v _).bind fun m => (keeps_notify v m c).bind fun _ => keeps_pure _

theorem keeps_enforceIn (v : Var) (r : BoundedRef) (a : Nat) (element : Element)
    {before : Attempt Unit} (hbefore : Keeps clocks before) (e : DeltaEntry) :
    Keeps clocks (enforceIn v r a element before e) := by
  refine (keeps_ask _).bind fun _ => (keeps_ask _).bind fun b => keeps_ite (keeps_pure _) ?_
  refine (keeps_ask _).bind fun b => keeps_ite ?_ (keeps_refuse v _ _)
  exact hbefore.bind fun _ => (keeps_touch (r.edits_enforce edits_clocks a)).discard.bind fun _ =>
    (keeps_record v e).bind fun _ => keeps_pure _

theorem keeps_removeIn (v : Var) (r : BoundedRef) (a : Nat) (element : Element)
    {before : Attempt Unit} (hbefore : Keeps clocks before) (e : DeltaEntry) :
    Keeps clocks (removeIn v r a element before e) := by
  refine (keeps_ask _).bind fun _ => (keeps_ask _).bind fun b => keeps_ite ?_ (keeps_pure _)
  refine (keeps_ask _).bind fun b => keeps_ite (keeps_refuse v _ _) ?_
  exact hbefore.bind fun _ => (keeps_touch (r.edits_remove edits_clocks a)).discard.bind fun _ =>
    (keeps_record v e).bind fun _ => keeps_pure _

theorem keeps_enforceNode (v : Var) (i : Nat) (c : Cause) : Keeps clocks (enforceNode v i c) :=
  (keeps_ask _).bind fun r => keeps_enforceIn v r i _ (keeps_pure ()) _

theorem keeps_removeArc (v : Var) (i j : Nat) (c : Cause) : Keeps clocks (removeArc v i j c) :=
  (keeps_ask _).bind fun r => keeps_removeIn v r j _ (keeps_pure ()) _

theorem keeps_detach (v : Var) (i : Nat) (c : Cause) : Keeps clocks (detach v i c) :=
  (keeps_ask _).bind fun _ =>
    (keeps_forM (fun j => (keeps_removeArc v i j c).discard) _).bind fun _ =>
      (keeps_ask _).bind fun _ => keeps_forM (fun j => (keeps_removeArc v j i c).discard) _

theorem keeps_narrow (v : Var) (n : Narrowing) (c : Cause) : Keeps clocks (narrow v n c) := by
  cases n with
  | fix a => exact keeps_fix v a c
  | remove a => exact keeps_remove v a c
  | removeBelow a => exact keeps_removeBelow v a c
  | removeAbove a => exact keeps_removeAbove v a c
  | addToKernel a => exact (keeps_ask _).bind fun r => keeps_enforceIn v r a _ (keeps_pure ()) _
  | removeFromEnvelope a =>
    exact (keeps_ask _).bind fun r => keeps_removeIn v r a _ (keeps_pure ()) _
  | enforceNode i => exact keeps_enforceNode v i c
  | removeNode i => exact (keeps_ask _).bind fun r => keeps_removeIn v r i _ (keeps_detach v i c) _
  | enforceArc i j =>
    have hends : Keeps clocks (do discard (enforceNode v i c); discard (enforceNode v j c) :
        Attempt Unit) :=
      (keeps_enforceNode v i c).discard.bind fun _ => (keeps_enforceNode v j c).discard
    exact (keeps_ask _).bind fun r => keeps_enforceIn v r j _ hends _
  | removeArc i j => exact keeps_removeArc v i j c

/-! ## Calls -/

open Trail (Ticks)

theorem trail_after_onTrail {α : Type} (x : Trail.Op α) (s : Store) :
    ((onTrail x).after s).trail = x.after s.trail := by
  rw [after, after, onTrail, within_apply]
  cases x s.trail <;> rfl

theorem trail_after_lift {α : Type} (x : Op α) (s : Store) :
    ((liftM x : Attempt α).after s).trail = (x.after s).trail :=
  congrArg Store.trail (after_mapError Failure.fault x s)

/-- `forgetChanges` after an operation of the trail leaves the trail as it is. -/
theorem trail_after_forget (x : Trail.Op Unit) (s : Store) :
    ((do onTrail x; modify forgetChanges : Op Unit).after s).trail = x.after s.trail := by
  rw [← trail_after_onTrail, after, after, bind_apply]
  cases onTrail x s <;> rfl

theorem Call.ticks (c : Call) (s : Store) : Ticks s.trail (c.perform.after s).trail := by
  have hkeep : ∀ {x : Attempt Unit}, Keeps clocks x → Ticks s.trail (x.after s).trail :=
    fun h => .same (h s)
  cases c with
  | create d => exact hkeep ((keeps_create d).lift.bind fun _ => keeps_pure _)
  | narrow v n c => exact hkeep (keeps_narrow v n c).discard
  | clearEvents => exact hkeep (keeps_modify fun _ => rfl)
  | clearDeltas => exact hkeep (keeps_modify fun _ => rfl)
  | setRunning p => exact hkeep (keeps_modify fun _ => rfl)
  | save => exact Trail.Call.ticks .save s.trail
  | restore =>
    rw [perform, trail_after_lift, Store.restore, trail_after_forget]
    exact Trail.Call.ticks .restore s.trail
  | checkpoint => exact Trail.Call.ticks .save s.trail
  | rollback m =>
    rw [perform, trail_after_lift, Store.rollback, trail_after_forget]
    exact Trail.Call.ticks (.rollback m) s.trail
  | trail c =>
    rw [perform, trail_after_lift, trail_after_onTrail]
    exact c.ticks s.trail

end Propagation.Store
