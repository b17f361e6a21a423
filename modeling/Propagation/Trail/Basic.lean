import Propagation.Trail.Arena
import Propagation.Update

/-!
# The trail

A `Trail` holds reversible resources: integer cells, and sets whose sizes are such cells. It is
saved by opening a level and restored by closing it. A write records the former content of its
cell in the innermost open level; closing a level undoes its records, newest first, and drops
the resources created since it was opened.

Clocks keep records few: every cell carries the clock of its last recorded write, every level
opens at a new clock, and a write is only recorded when the cell's stamp is behind. The clock is
never turned back.

Main definitions: `Trail`, `Trail.save`, `Trail.restore`, `Trail.checkpoint`, `Trail.rollback`;
`IntRef.set` and `BoolRef.set` write cells.
-/

set_option autoImplicit false

namespace Propagation

/-! ## Handles of resources -/

/-- A reversible integer. -/
structure IntRef where
  index : Nat
deriving DecidableEq, Repr, Inhabited

/-- A reversible Boolean: an integer that is 0 or 1. -/
structure BoolRef where
  cell : IntRef
deriving DecidableEq, Repr, Inhabited

/-- A reversible set of integers that only loses values. -/
structure SparseRef where
  index : Nat
deriving DecidableEq, Repr, Inhabited

/-- A reversible pair of a growing kernel and a shrinking envelope. -/
structure BoundedRef where
  index : Nat
deriving DecidableEq, Repr, Inhabited

/-! ## Resources -/

structure Cell where
  stamp : Nat
  value : Int
deriving DecidableEq, Repr, Inhabited

/-- Where a sparse set is kept: its values are `offset + v` for the first `size` values `v` of the
permutation at `start`. The bounds `least` and `greatest` are relative to `offset`. -/
structure SparseSet where
  offset : Int
  start : Nat
  capacity : Nat
  size : IntRef
  least : IntRef
  greatest : IntRef
deriving DecidableEq, Repr, Inhabited

/-- Where a bounded set is kept: its kernel and its envelope are the first `kernelSize`, and the
first `envelopeSize`, values of the permutation at `start`. -/
structure BoundedSet where
  start : Nat
  capacity : Nat
  kernelSize : IntRef
  envelopeSize : IntRef
deriving DecidableEq, Repr, Inhabited

/-- The numbers of resources of each kind. -/
structure Extent where
  cells : Nat
  sparseSets : Nat
  sparseSlots : Nat
  boundedSets : Nat
  boundedSlots : Nat
deriving DecidableEq, Repr, Inhabited

/-- The content `former` of the cell at `cell` before a write. -/
structure Change where
  cell : Nat
  former : Cell
deriving DecidableEq, Repr, Inhabited

/-- An open level: its clock, the extent when it was opened, and the changes made while it was the
innermost one, newest first. -/
structure Level where
  clock : Nat
  extent : Extent
  changes : List Change
deriving DecidableEq, Repr, Inhabited

/-- A trail. Open levels are listed innermost first; `baseChanges` are the changes made outside of
any. -/
structure Trail where
  clock : Nat
  baseChanges : List Change
  levels : List Level
  cells : Array Cell
  sparseSets : Array SparseSet
  sparseArena : Arena
  boundedSets : Array BoundedSet
  boundedArena : Arena
deriving Repr, Inhabited

namespace Trail

/-- An update of a trail. -/
abbrev Op : Type → Type := Update Fault Trail

def empty : Trail where
  clock := 0
  baseChanges := []
  levels := []
  cells := #[]
  sparseSets := #[]
  sparseArena := .empty
  boundedSets := #[]
  boundedArena := .empty

/-- The number of open levels. -/
def depth (t : Trail) : Nat := t.levels.length

/-- The number of recorded changes. -/
def length (t : Trail) : Nat :=
  t.baseChanges.length + (t.levels.flatMap (·.changes)).length

def extent (t : Trail) : Extent where
  cells := t.cells.size
  sparseSets := t.sparseSets.size
  sparseSlots := t.sparseArena.size
  boundedSets := t.boundedSets.size
  boundedSlots := t.boundedArena.size

/-! ## Levels -/

/-- Opens a level. -/
def save (t : Trail) : Trail :=
  { t with
    clock := t.clock + 1
    levels := { clock := t.clock + 1, extent := t.extent, changes := [] } :: t.levels }

/-- The cells with the former contents put back, in the order of `changes`. -/
def undo (cells : Array Cell) (changes : List Change) : Array Cell :=
  changes.foldl (fun cells c => cells.setIfInBounds c.cell c.former) cells

/-- The trail without the resources beyond `e`. -/
def truncate (t : Trail) (e : Extent) : Trail :=
  { t with
    cells := t.cells.take e.cells
    sparseSets := t.sparseSets.take e.sparseSets
    sparseArena := t.sparseArena.truncate e.sparseSlots
    boundedSets := t.boundedSets.take e.boundedSets
    boundedArena := t.boundedArena.truncate e.boundedSlots }

/-- The trail after its innermost level, if one is open, has been closed. -/
def close (t : Trail) : Trail :=
  match t.levels with
  | [] => t
  | l :: ls => { t with levels := ls, cells := undo t.cells l.changes }.truncate l.extent

/-- The trail after its innermost `n` levels have been closed. -/
def closeMany (t : Trail) : Nat → Trail
  | 0 => t
  | n + 1 => t.close.closeMany n

/-- Closes the innermost level; a violation iff none is open. -/
def restore : Op Unit := fun t =>
  if t.levels.isEmpty then .error (.violation .noOpenLevel) t else .ok () t.close

/-- Opens a level and names it by a mark. -/
def checkpoint (t : Trail) : Mark × Trail := (⟨t.depth, t.clock + 1⟩, t.save)

/-- Whether the level that `m` names is still open. -/
def isLive (t : Trail) (m : Mark) : Bool :=
  match t.levels.reverse[m.depth]? with
  | some l => l.clock == m.clock
  | none => false

/-- Closes the level that `m` names and all levels within it; a violation iff that level is no
longer open. -/
def rollback (m : Mark) : Op Unit := fun t =>
  if t.isLive m then .ok () (t.closeMany (t.depth - m.depth))
  else .error (.violation (.staleMark m)) t

@[simp] theorem depth_save (t : Trail) : t.save.depth = t.depth + 1 := rfl

@[simp] theorem depth_close (t : Trail) : t.close.depth = t.depth - 1 := by
  unfold close depth
  split <;> simp_all [truncate]

@[simp] theorem depth_closeMany (t : Trail) (n : Nat) :
    (t.closeMany n).depth = t.depth - n := by
  induction n generalizing t with
  | zero => rfl
  | succ n ih => rw [closeMany, ih, depth_close, Nat.sub_sub, Nat.add_comm]

/-- Closing a level does not turn the clock back. -/
@[simp] theorem clock_close (t : Trail) : t.close.clock = t.clock := by
  unfold close
  split <;> rfl

/-- A mark is live when it is taken. -/
theorem isLive_checkpoint (t : Trail) : t.checkpoint.2.isLive t.checkpoint.1 = true := by
  simp [isLive, checkpoint, save, depth]

/-! ## Cells -/

/-- Adds a cell with the content `value`, stamped with the current clock. -/
def addInt (t : Trail) (value : Int) : IntRef × Trail :=
  (⟨t.cells.size⟩, { t with cells := t.cells.push ⟨t.clock, value⟩ })

def newInt (value : Int) : Op IntRef := fun t =>
  let (r, t) := t.addInt value
  .ok r t

/-- Adds `c` to the changes of the innermost open level. -/
def record (t : Trail) (c : Change) : Trail :=
  match t.levels with
  | [] => { t with baseChanges := c :: t.baseChanges }
  | l :: ls => { t with levels := { l with changes := c :: l.changes } :: ls }

/-- Writes `value` into the cell at `i`, which holds `c`. The former content is recorded iff its
stamp is behind the clock. -/
def write (t : Trail) (i : Nat) (c : Cell) (value : Int) : Trail :=
  if c.stamp < t.clock then
    let t := t.record ⟨i, c⟩
    { t with cells := t.cells.setIfInBounds i ⟨t.clock, value⟩ }
  else
    { t with cells := t.cells.setIfInBounds i ⟨c.stamp, value⟩ }

end Trail

namespace IntRef

def get (r : IntRef) (t : Trail) : Except Fault Int := do
  let c ← Checked.fetch t.cells r.index
  .ok c.value

/-- The content read as an unsigned integer, as sizes are. -/
def getNat (r : IntRef) (t : Trail) : Except Fault Nat := do
  let i ← r.get t
  .ok (Checked.toUnsigned i)

/-- Writes `value`, and answers it. Nothing is written if the cell holds it already. -/
def set (r : IntRef) (value : Int) : Trail.Op Int := do
  let c ← Update.query fun t => Checked.fetch t.cells r.index
  if c.value = value then pure value
  else do
    modify fun t => t.write r.index c value
    pure value

/-- Adds `d` to the cell, and answers the sum. -/
def add (r : IntRef) (d : Int) : Trail.Op Int := do
  let i ← Update.query r.get
  let j ← Update.query fun _ => Checked.int (i + d)
  r.set j

def increment (r : IntRef) : Trail.Op Int := r.add 1

def decrement (r : IntRef) : Trail.Op Int := r.add (-1)

end IntRef

namespace Trail

def newBool (value : Bool) : Op BoolRef := do
  let r ← newInt (if value then 1 else 0)
  pure ⟨r⟩

end Trail

namespace BoolRef

def get (r : BoolRef) (t : Trail) : Except Fault Bool := do
  let i ← r.cell.get t
  .ok (i != 0)

def set (r : BoolRef) (value : Bool) : Trail.Op Bool := do
  let i ← r.cell.set (if value then 1 else 0)
  pure (i != 0)

def flip (r : BoolRef) : Trail.Op Bool := do
  let b ← Update.query r.get
  r.set !b

end BoolRef

end Propagation
