import Propagation.Proofs.Update
import Propagation.Trail.Call

/-!
# Edits of a trail

Whatever is called on a trail comes down to three kinds of changes, apart from those of the levels:
a cell is added, a cell is written, or sets and their slots are arranged anew. So a relation between
trails that allows these three and composes (`Edits`) holds of every such call, also on a handle
whose resource is gone and also of one that ends in a fault (`Call.edits`).
-/

set_option autoImplicit false

namespace Propagation

open Update

/-- The relation `R` allows every change of a trail other than opening and closing levels. -/
structure Trail.Edits (R : Trail → Trail → Prop) : Prop extends Onward R where
  addInt : ∀ {t : Trail}, R t t → ∀ a, R t (t.addInt a).2
  write : ∀ {t : Trail} {i : Nat} {c : Cell}, R t t → t.cells[i]? = some c →
    ∀ a, R t (t.write i c a)
  arrange : ∀ {t : Trail}, R t t → ∀ ss m bs k,
    R t { t with sparseSets := ss, sparseArena := m, boundedSets := bs, boundedArena := k }

section
variable {R : Trail → Trail → Prop} (hR : Trail.Edits R)
include hR

/-! ## Cells -/

theorem IntRef.edits_set (r : IntRef) (a : Int) : Steps R (r.set a) := by
  apply steps_query_bind
  intro t ht c hc
  split
  · exact ht
  · exact hR.write ht (Checked.fetch_eq_ok.1 hc) a

theorem IntRef.edits_add (r : IntRef) (d : Int) : Steps R (r.add d) :=
  (steps_query _).bind hR.toOnward fun _ => (steps_query _).bind hR.toOnward fun _ =>
    r.edits_set hR _

theorem BoolRef.edits_set (r : BoolRef) (b : Bool) : Steps R (r.set b) :=
  (r.cell.edits_set hR _).bind hR.toOnward fun _ => steps_pure _

theorem BoolRef.edits_flip (r : BoolRef) : Steps R r.flip :=
  (steps_query _).bind hR.toOnward fun _ => r.edits_set hR _

namespace Trail

theorem edits_newInt (a : Int) : Steps R (newInt a) := fun _ ht => hR.addInt ht a

theorem edits_newBool (b : Bool) : Steps R (newBool b) :=
  (edits_newInt hR _).bind hR.toOnward fun _ => steps_pure _

/-! ## Sets of integers -/

theorem edits_newSparse (n : Nat) (offset : Int) : Steps R (newSparse n offset) := by
  refine steps_get.bind hR.toOnward fun _ => (steps_query _).bind hR.toOnward fun _ => ?_
  refine Steps.bind hR.toOnward (steps_modify fun _ ht => hR.arrange ht _ _ _ _) fun _ => ?_
  refine (edits_newInt hR _).bind hR.toOnward fun _ => (edits_newInt hR _).bind hR.toOnward
    fun _ => (edits_newInt hR _).bind hR.toOnward fun _ => ?_
  exact Steps.bind hR.toOnward (steps_modify fun _ ht => hR.arrange ht _ _ _ _) fun _ =>
    steps_pure _

theorem edits_newBounded (n : Nat) : Steps R (newBounded n) := by
  refine steps_get.bind hR.toOnward fun _ => (steps_query _).bind hR.toOnward fun _ => ?_
  refine Steps.bind hR.toOnward (steps_modify fun _ ht => hR.arrange ht _ _ _ _) fun _ => ?_
  refine (edits_newInt hR _).bind hR.toOnward fun _ => (edits_newInt hR _).bind hR.toOnward
    fun _ => ?_
  exact Steps.bind hR.toOnward (steps_modify fun _ ht => hR.arrange ht _ _ _ _) fun _ =>
    steps_pure _

end Trail

namespace SparseRef

theorem edits_swap (s : SparseSet) (v w : Nat) : Steps R (swap s v w) :=
  (steps_query _).bind hR.toOnward fun _ => steps_modify fun _ ht => hR.arrange ht _ _ _ _

theorem edits_tighten (s : SparseSet) (v k : Nat) : Steps R (tighten s v k) := by
  refine (steps_query _).bind hR.toOnward fun lo => (steps_query _).bind hR.toOnward fun hi => ?_
  have hgreatest : Steps R (if v = hi then (do
      let w ← query fun t => t.sparseArena.lastWithin s.start k lo (hi - lo)
      discard (s.greatest.set (Checked.toSigned (w.getD lo))) : Trail.Op Unit) else pure ()) :=
    steps_ite ((steps_query _).bind hR.toOnward fun _ => (s.greatest.edits_set hR _).discard)
      (steps_pure _)
  refine steps_ite ?_ ((steps_pure ()).bind hR.toOnward fun _ => hgreatest)
  exact (steps_query _).bind hR.toOnward fun _ => (s.least.edits_set hR _).discard.bind hR.toOnward
    fun _ => hgreatest

theorem edits_remove (r : SparseRef) (a : Int) : Steps R (r.remove a) := by
  refine (steps_query _).bind hR.toOnward fun b => steps_ite ?_ (steps_pure _)
  refine (steps_query _).bind hR.toOnward fun s => (steps_query _).bind hR.toOnward fun n =>
    (steps_query _).bind hR.toOnward fun last => (steps_query _).bind hR.toOnward fun slot =>
      (steps_query _).bind hR.toOnward fun w => (edits_swap hR s _ w).bind hR.toOnward fun _ =>
        (s.size.edits_add hR _).bind hR.toOnward fun left => ?_
  exact steps_ite ((edits_tighten hR s _ _).bind hR.toOnward fun _ => steps_pure _) (steps_pure _)

theorem edits_removeAll (r : SparseRef) : Steps R r.removeAll :=
  (steps_query _).bind hR.toOnward fun s => (s.size.edits_set hR _).discard

theorem edits_removeAllBut (r : SparseRef) (a : Int) : Steps R (r.removeAllBut a) := by
  refine (steps_query _).bind hR.toOnward fun b => steps_ite ?_ (r.edits_removeAll hR)
  refine (steps_query _).bind hR.toOnward fun s => (steps_query _).bind hR.toOnward fun w =>
    (edits_swap hR s _ w).bind hR.toOnward fun _ => ?_
  exact (s.size.edits_set hR _).discard.bind hR.toOnward fun _ =>
    (s.least.edits_set hR _).discard.bind hR.toOnward fun _ => (s.greatest.edits_set hR _).discard

theorem edits_removeAscending (r : SparseRef) (offset x : Int) (n : Nat) :
    Steps R (r.removeAscending offset x n) := by
  induction n generalizing x with
  | zero => exact steps_pure _
  | succ n ih =>
    exact (steps_query _).bind hR.toOnward fun a =>
      (r.edits_remove hR a).discard.bind hR.toOnward fun _ => ih _

theorem edits_removeDescending (r : SparseRef) (offset x : Int) (n : Nat) :
    Steps R (r.removeDescending offset x n) := by
  induction n generalizing x with
  | zero => exact steps_pure _
  | succ n ih =>
    exact (steps_query _).bind hR.toOnward fun a =>
      (r.edits_remove hR a).discard.bind hR.toOnward fun _ => ih _

theorem edits_removeBelow (r : SparseRef) (a : Int) : Steps R (r.removeBelow a) := by
  refine (steps_query _).bind hR.toOnward fun s => (steps_query _).bind hR.toOnward fun b =>
    steps_ite (steps_pure _) ?_
  exact (steps_query _).bind hR.toOnward fun v => (steps_query _).bind hR.toOnward fun lo =>
    (steps_query _).bind hR.toOnward fun hi =>
      steps_ite (r.edits_removeAll hR) (r.edits_removeAscending hR _ _ _)

theorem edits_removeAbove (r : SparseRef) (a : Int) : Steps R (r.removeAbove a) := by
  refine (steps_query _).bind hR.toOnward fun s => (steps_query _).bind hR.toOnward fun b =>
    steps_ite (steps_pure _) ?_
  refine (steps_query _).bind hR.toOnward fun v => (steps_query _).bind hR.toOnward fun lo =>
    (steps_query _).bind hR.toOnward fun hi => steps_ite (r.edits_removeAll hR) ?_
  exact (steps_query _).bind hR.toOnward fun _ => r.edits_removeDescending hR _ _ _

end SparseRef

/-! ## Sets with a kernel -/

namespace BoundedRef

theorem edits_moveTo (s : BoundedSet) (a k : Nat) : Steps R (moveTo s a k) :=
  (steps_query _).bind hR.toOnward fun _ => (steps_query _).bind hR.toOnward fun _ =>
    (steps_query _).bind hR.toOnward fun _ => steps_modify fun _ ht => hR.arrange ht _ _ _ _

theorem edits_enforce (r : BoundedRef) (a : Nat) : Steps R (r.enforce a) := by
  refine (steps_query _).bind hR.toOnward fun b => steps_ite ?_ (steps_throw _)
  refine (steps_query _).bind hR.toOnward fun b => steps_ite (steps_pure _) ?_
  exact (steps_query _).bind hR.toOnward fun s => (steps_query _).bind hR.toOnward fun k =>
    (edits_moveTo hR s a k).bind hR.toOnward fun _ =>
      (s.kernelSize.edits_add hR 1).discard.bind hR.toOnward fun _ => steps_pure _

theorem edits_remove (r : BoundedRef) (a : Nat) : Steps R (r.remove a) := by
  refine (steps_query _).bind hR.toOnward fun b => steps_ite (steps_throw _) ?_
  refine (steps_query _).bind hR.toOnward fun b => steps_ite ?_ (steps_pure _)
  exact (steps_query _).bind hR.toOnward fun s => (steps_query _).bind hR.toOnward fun e =>
    (steps_query _).bind hR.toOnward fun last => (edits_moveTo hR s a last).bind hR.toOnward
      fun _ => (s.envelopeSize.edits_add hR (-1)).discard.bind hR.toOnward fun _ => steps_pure _

end BoundedRef

end

/-! ## Calls -/

namespace Trail

/-- The call opens a level. -/
def Call.opens : Call → Bool
  | save | checkpoint => true
  | _ => false

/-- The call is one that closes levels. -/
def Call.closes : Call → Bool
  | restore | rollback _ => true
  | _ => false

/-- A relation that allows all edits holds of every call that neither opens nor closes levels. -/
theorem Call.edits {R : Trail → Trail → Prop} (hR : Edits R) {c : Call}
    (ho : c.opens = false) (hc : c.closes = false) : Steps R c.perform := by
  cases c with
  | newInt a => exact (edits_newInt hR a).discard
  | newBool b => exact (edits_newBool hR b).discard
  | newSparse n offset => exact (edits_newSparse hR n offset).discard
  | newBounded n => exact (edits_newBounded hR n).discard
  | setInt r a => exact (r.edits_set hR a).discard
  | addInt r d => exact (r.edits_add hR d).discard
  | setBool r b => exact (r.edits_set hR b).discard
  | flip r => exact (r.edits_flip hR).discard
  | remove r a => exact (r.edits_remove hR a).discard
  | removeAll r => exact r.edits_removeAll hR
  | removeAllBut r a => exact r.edits_removeAllBut hR a
  | removeBelow r a => exact r.edits_removeBelow hR a
  | removeAbove r a => exact r.edits_removeAbove hR a
  | enforce r a => exact (r.edits_enforce hR a).discard
  | exclude r a => exact (r.edits_remove hR a).discard
  | save | checkpoint => cases ho
  | restore | rollback _ => cases hc

end Trail

end Propagation
