import Propagation.Trail.Basic

/-!
# Bounded sets

A set known by two bounds: a kernel of values that belong to it and an envelope of values that
may. One permutation carries both: the kernel is a prefix of the envelope, which is a prefix of
the permutation. Enforcing a value swaps it to the first undecided position and moves the kernel
over it; removing one swaps it to the last undecided position and moves the envelope below it.
-/

set_option autoImplicit false

namespace Propagation

/-- Creates a set with an empty kernel and the envelope `0, …, n - 1`. -/
def Trail.newBounded (n : Nat) : Trail.Op BoundedRef := do
  let t ← get
  let arena ← Update.query fun t => t.boundedArena.extend n
  modify fun t => { t with boundedArena := arena }
  let kernelSize ← newInt 0
  let envelopeSize ← newInt n
  modify fun u =>
    { u with boundedSets := u.boundedSets.push
              { start := t.boundedArena.size, capacity := n, kernelSize, envelopeSize } }
  pure ⟨t.boundedSets.size⟩

namespace BoundedRef

/-- The record of where the set is kept. -/
def layout (r : BoundedRef) (t : Trail) : Except Fault BoundedSet :=
  Checked.fetch t.boundedSets r.index

/-! ## Queries -/

def capacity (r : BoundedRef) (t : Trail) : Except Fault Nat := do
  let s ← r.layout t
  .ok s.capacity

def kernelSize (r : BoundedRef) (t : Trail) : Except Fault Nat := do
  let s ← r.layout t
  s.kernelSize.getNat t

def envelopeSize (r : BoundedRef) (t : Trail) : Except Fault Nat := do
  let s ← r.layout t
  s.envelopeSize.getNat t

/-- Whether `a` is among the first values of the permutation, as many as the cell `frontier` says.
-/
def isWithin (r : BoundedRef) (frontier : BoundedSet → IntRef) (a : Nat) (t : Trail) :
    Except Fault Bool := do
  let s ← r.layout t
  if a < s.capacity then do
    let k ← t.boundedArena.position s.start a
    let n ← (frontier s).getNat t
    .ok (k < n)
  else .ok false

def kernelContains (r : BoundedRef) (a : Nat) (t : Trail) : Except Fault Bool :=
  r.isWithin (·.kernelSize) a t

def envelopeContains (r : BoundedRef) (a : Nat) (t : Trail) : Except Fault Bool :=
  r.isWithin (·.envelopeSize) a t

/-- The first values of the permutation, as many as the cell `frontier` says, in its order. -/
def zone (r : BoundedRef) (frontier : BoundedSet → IntRef) (t : Trail) :
    Except Fault (List Nat) := do
  let s ← r.layout t
  let n ← (frontier s).getNat t
  t.boundedArena.slice s.start n

def kernel (r : BoundedRef) (t : Trail) : Except Fault (List Nat) := r.zone (·.kernelSize) t

def envelope (r : BoundedRef) (t : Trail) : Except Fault (List Nat) := r.zone (·.envelopeSize) t

/-- Whether kernel and envelope have the same size. -/
def isInstantiated (r : BoundedRef) (t : Trail) : Except Fault Bool := do
  let k ← r.kernelSize t
  let e ← r.envelopeSize t
  .ok (k == e)

/-! ## Narrowing -/

/-- Exchanges the value `a` with the one at position `k`. -/
def moveTo (s : BoundedSet) (a k : Nat) : Trail.Op Unit := do
  let slot ← Update.query fun _ => Checked.nat (s.start + k)
  let b ← Update.query fun t => t.boundedArena.value slot
  let m ← Update.query fun t => t.boundedArena.swap s.start a b
  modify fun t => { t with boundedArena := m }

/-- Adds `a` to the kernel, and answers whether it was missing there. A violation iff `a` is outside
of the envelope. -/
def enforce (r : BoundedRef) (a : Nat) : Trail.Op Bool := do
  if ← Update.query (r.envelopeContains a) then
    if ← Update.query (r.kernelContains a) then pure false
    else do
      let s ← Update.query r.layout
      let k ← Update.query r.kernelSize
      moveTo s a k
      discard s.kernelSize.increment
      pure true
  else throw (.violation (.outsideEnvelope a))

/-- Removes `a` from the envelope, and answers whether it was there. A violation iff `a` is in the
kernel. -/
def remove (r : BoundedRef) (a : Nat) : Trail.Op Bool := do
  if ← Update.query (r.kernelContains a) then throw (.violation (.insideKernel a))
  else if ← Update.query (r.envelopeContains a) then do
    let s ← Update.query r.layout
    let e ← Update.query r.envelopeSize
    let last ← Update.query fun _ => Checked.sub e 1
    moveTo s a last
    discard s.envelopeSize.decrement
    pure true
  else pure false

end BoundedRef

end Propagation
