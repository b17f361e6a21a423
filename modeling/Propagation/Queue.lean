import Propagation.Handle
import Propagation.Priority

/-!
# The propagator queue

Scheduled propagators: a first-in first-out lane for each class, the set `present` of the members
of all lanes, and an agenda of the classes whose lane is not empty, cheapest first. A propagator is
scheduled at most once, whatever class it is enqueued with.

Main definitions: `Queue.enqueue`, `Queue.pop`, `Queue.clear`, and `Queue.Valid`, which every
operation keeps.
-/

set_option autoImplicit false

namespace Propagation

structure Queue where
  lanes : Vector (List PropagatorId) Priority.count
  /-- The scheduled propagators, in no particular order. -/
  present : List PropagatorId
  agenda : List Priority

namespace Queue

def empty : Queue := ⟨.replicate _ [], [], []⟩

def lane (q : Queue) (c : Priority) : List PropagatorId := q.lanes.get c.slot

def contains (q : Queue) (p : PropagatorId) : Bool := q.present.contains p

def size (q : Queue) : Nat := q.present.length

def isEmpty (q : Queue) : Bool := q.present.isEmpty

/-- The agenda with the class `c` filed in. -/
def insertClass (c : Priority) : List Priority → List Priority
  | [] => [c]
  | d :: ds => if c.index ≤ d.index then c :: d :: ds else d :: insertClass c ds

/-- Schedules `p` at the end of the lane of `c`, unless it is scheduled already. -/
def enqueue (q : Queue) (p : PropagatorId) (c : Priority) : Queue :=
  if q.contains p then q
  else
    { lanes := q.lanes.set c.index (q.lane c ++ [p]) c.index_lt
      present := p :: q.present
      agenda := if (q.lane c).isEmpty then insertClass c q.agenda else q.agenda }

/-- Takes the head of the lane of the cheapest class on the agenda. -/
def pop (q : Queue) : Option (PropagatorId × Queue) :=
  match q.agenda with
  | [] => none
  | c :: cs =>
    match q.lane c with
    | [] => none
    | p :: ps =>
      some (p, { lanes := q.lanes.set c.index ps c.index_lt
                 present := q.present.erase p
                 agenda := if ps.isEmpty then cs else c :: cs })

/-- The empty queue, obtained by emptying the lanes that are on the agenda. -/
def clear (q : Queue) : Queue where
  lanes := q.agenda.foldl (fun lanes c => lanes.set c.index [] c.index_lt) q.lanes
  present := []
  agenda := []

/-! ## The queue as a list -/

/-- The scheduled propagators with their classes, in the order in which `pop` takes them. -/
def toList (q : Queue) : List (PropagatorId × Priority) :=
  Priority.all.flatMap fun c => (q.lane c).map (·, c)

/-- The agenda lists, once each and cheapest first, the classes whose lane is not empty; `present`
lists the propagators in the lanes; and no propagator is in two places. -/
structure Valid (q : Queue) : Prop where
  agenda_eq : q.agenda = Priority.all.filter fun c => !(q.lane c).isEmpty
  nodup : (q.toList.map (·.1)).Nodup
  present : q.present.Perm (q.toList.map (·.1))

theorem lane_empty (c : Priority) : empty.lane c = [] := by
  simp [lane, empty, Vector.get]

theorem valid_empty : empty.Valid where
  agenda_eq := by simp [lane_empty]; rfl
  nodup := by simp [toList, lane_empty, Priority.all]
  present := by
    simp [toList, lane_empty, Priority.all]
    rfl

end Queue

end Propagation
