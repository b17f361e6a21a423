/-!
# Events

What may happen to a domain, and sets of such events. Integer variables produce the first four
events, set variables the next two, graph variables the last four. A `Mask` lists its events in
the order of their declaration.
-/

set_option autoImplicit false

namespace Propagation

inductive Event
  /-- One value is left. -/
  | instantiate
  /-- The least value went up. -/
  | lowerBound
  /-- The greatest value went down. -/
  | upperBound
  /-- Some value was removed. -/
  | removal
  | addToKernel
  | removeFromEnvelope
  | enforceNode
  | removeNode
  | enforceArc
  | removeArc
deriving DecidableEq, Repr, Inhabited

namespace Event

/-- All events, in the order of declaration. -/
def all : List Event :=
  [instantiate, lowerBound, upperBound, removal, addToKernel, removeFromEnvelope, enforceNode,
    removeNode, enforceArc, removeArc]

def index : Event → Nat
  | instantiate => 0
  | lowerBound => 1
  | upperBound => 2
  | removal => 3
  | addToKernel => 4
  | removeFromEnvelope => 5
  | enforceNode => 6
  | removeNode => 7
  | enforceArc => 8
  | removeArc => 9

def name : Event → String
  | instantiate => "Instantiate"
  | lowerBound => "LowerBound"
  | upperBound => "UpperBound"
  | removal => "Removal"
  | addToKernel => "AddToKernel"
  | removeFromEnvelope => "RemoveFromEnvelope"
  | enforceNode => "EnforceNode"
  | removeNode => "RemoveNode"
  | enforceArc => "EnforceArc"
  | removeArc => "RemoveArc"

/-- The event in brackets; the events of integer variables have short names. -/
def text : Event → String
  | lowerBound => "[Event:LB]"
  | upperBound => "[Event:UB]"
  | removal => "[Event:Remove]"
  | e => s!"[Event:{e.name}]"

theorem mem_all (e : Event) : e ∈ all := by cases e <;> decide

theorem index_lt (e : Event) : e.index < 10 := by cases e <;> decide

theorem index_inj {e f : Event} (h : e.index = f.index) : e = f := by
  cases e <;> cases f <;> first | rfl | exact absurd h (by decide)

end Event

/-- A set of events. -/
structure Mask where
  bits : BitVec 10
deriving DecidableEq, Repr, Inhabited

namespace Mask

def empty : Mask := ⟨0⟩

def only (e : Event) : Mask := ⟨BitVec.twoPow 10 e.index⟩

def union (m n : Mask) : Mask := ⟨m.bits ||| n.bits⟩

def inter (m n : Mask) : Mask := ⟨m.bits &&& n.bits⟩

instance : Union Mask := ⟨union⟩

instance : Inter Mask := ⟨inter⟩

def contains (m : Mask) (e : Event) : Bool := m.bits.getLsbD e.index

instance : Membership Event Mask := ⟨fun m e => m.contains e = true⟩

instance (m : Mask) (e : Event) : Decidable (e ∈ m) :=
  inferInstanceAs (Decidable (m.contains e = true))

def isEmpty (m : Mask) : Bool := m.bits == 0

/-- The set of the events `es`. -/
def ofList (es : List Event) : Mask := es.foldl (fun m e => m ∪ only e) empty

/-- The events of `m`, in the order of declaration. -/
def toList (m : Mask) : List Event := Event.all.filter m.contains

/-- The set `m`, with `e` added if `c` is true. -/
def addIf (m : Mask) (c : Bool) (e : Event) : Mask := if c then m ∪ only e else m

/-- The names of the events of `m` between bars. -/
def text (m : Mask) : String := "EnumSet(" ++ " | ".intercalate (m.toList.map Event.name) ++ ")"

/-! ## Membership -/

@[simp] theorem contains_empty (e : Event) : empty.contains e = false := by
  simp [contains, empty]

@[simp] theorem contains_only (e f : Event) : (only e).contains f = decide (e = f) := by
  cases e <;> cases f <;> decide

@[simp] theorem contains_union (m n : Mask) (e : Event) :
    (m ∪ n).contains e = (m.contains e || n.contains e) := by
  simp [contains, Union.union, union]

@[simp] theorem contains_inter (m n : Mask) (e : Event) :
    (m ∩ n).contains e = (m.contains e && n.contains e) := by
  simp [contains, Inter.inter, inter]

theorem mem_iff {m : Mask} {e : Event} : e ∈ m ↔ m.contains e = true := Iff.rfl

theorem mem_toList {m : Mask} {e : Event} : e ∈ m.toList ↔ e ∈ m := by
  simp [toList, Event.mem_all, mem_iff]

end Mask

end Propagation
