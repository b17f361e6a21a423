import Propagation.Proofs.Trail.Cells
import Propagation.Proofs.Trail.Region
import Mathlib.Order.Bounds.Basic

/-!
# Valid trails and what they mean

A `View` is what a trail means: the content of each cell that no set uses, the members of each
sparse set, the kernel and the envelope of each bounded set. `Trail.view` is the present view, and
`Trail.past` the one that each open level will give back, innermost first.

`Trail.Valid` is the invariant. It requires of the trail, and of what is left of it by closing any
number of levels, that sets own separate slots and cells (`Sound`), and it relates each level to
the one around it: a size only goes down inwards, a kernel only grows, an envelope only shrinks.
So a swap between the frontiers of the present view is one within a zone of every open level.

`Turns t v t'`: the trail `t'` is valid, its present view is `v`, and its open levels are those of
`t` with the views that they had. `Valid.revise` and its special cases give this for writes.
-/

set_option autoImplicit false

namespace Propagation

/-! ## Views -/

/-- A sparse set: its values, less `offset`, are the members. -/
structure SparseView where
  offset : Int
  capacity : Nat
  members : Finset Nat

structure BoundedView where
  capacity : Nat
  kernel : Finset Nat
  envelope : Finset Nat

/-- The meaning of a trail. A cell that belongs to a set has no content of its own. -/
@[ext]
structure View where
  int : Nat → Option Int
  sparse : Nat → Option SparseView
  bounded : Nat → Option BoundedView

namespace View

def setInt (v : View) (i : Nat) (a : Int) : View :=
  { v with int := Function.update v.int i (some a) }

def setSparse (v : View) (r : Nat) (x : SparseView) : View :=
  { v with sparse := Function.update v.sparse r (some x) }

def setBounded (v : View) (r : Nat) (x : BoundedView) : View :=
  { v with bounded := Function.update v.bounded r (some x) }

@[simp] theorem setInt_self (v : View) (i : Nat) (a : Int) : (v.setInt i a).int i = some a :=
  Function.update_self _ _ _

@[simp] theorem setSparse_self (v : View) (r : Nat) (x : SparseView) :
    (v.setSparse r x).sparse r = some x := Function.update_self _ _ _

@[simp] theorem setBounded_self (v : View) (r : Nat) (x : BoundedView) :
    (v.setBounded r x).bounded r = some x := Function.update_self _ _ _

theorem setInt_of_ne (v : View) {i j : Nat} (a : Int) (h : j ≠ i) :
    (v.setInt i a).int j = v.int j := Function.update_of_ne h _ _

theorem setSparse_of_ne (v : View) {r j : Nat} (x : SparseView) (h : j ≠ r) :
    (v.setSparse r x).sparse j = v.sparse j := Function.update_of_ne h _ _

theorem setBounded_of_ne (v : View) {r j : Nat} (x : BoundedView) (h : j ≠ r) :
    (v.setBounded r x).bounded j = v.bounded j := Function.update_of_ne h _ _

@[simp] theorem setSparse_setSparse (v : View) (r : Nat) (x y : SparseView) :
    (v.setSparse r x).setSparse r y = v.setSparse r y := by
  simp [setSparse]

theorem setSparse_eq_self {v : View} {r : Nat} {x : SparseView} (h : v.sparse r = some x) :
    v.setSparse r x = v := by
  rw [setSparse, ← h, Function.update_eq_self]

theorem setBounded_eq_self {v : View} {r : Nat} {x : BoundedView} (h : v.bounded r = some x) :
    v.setBounded r x = v := by
  rw [setBounded, ← h, Function.update_eq_self]

end View

/-! ## Sets on a trail -/

namespace SparseSet

/-- The cells that the set owns. -/
def cells (s : SparseSet) : List Nat := [s.size.index, s.least.index, s.greatest.index]

def members (s : SparseSet) (t : Trail) : Finset Nat :=
  t.sparseArena.zone s.start s.capacity (t.count s.size.index)

def view (s : SparseSet) (t : Trail) : SparseView := ⟨s.offset, s.capacity, s.members t⟩

/-- The set is well placed on the trail, and its bounds are right unless it is empty. -/
structure Sits (s : SparseSet) (t : Trail) : Prop where
  permutes : t.sparseArena.Permutes s.start s.capacity
  nodup : s.cells.Nodup
  size : ∃ n : Nat, t.content s.size.index = some (n : Int) ∧ n ≤ s.capacity
  bounds : ∃ lo hi : Int, t.content s.least.index = some lo ∧
    t.content s.greatest.index = some hi ∧ ((s.members t).Nonempty →
      ∃ a b : Nat, lo = a ∧ hi = b ∧ IsLeast (s.members t : Set Nat) a ∧
        IsGreatest (s.members t : Set Nat) b)

end SparseSet

namespace BoundedSet

/-- The cells that the set owns. -/
def cells (s : BoundedSet) : List Nat := [s.kernelSize.index, s.envelopeSize.index]

def kernel (s : BoundedSet) (t : Trail) : Finset Nat :=
  t.boundedArena.zone s.start s.capacity (t.count s.kernelSize.index)

def envelope (s : BoundedSet) (t : Trail) : Finset Nat :=
  t.boundedArena.zone s.start s.capacity (t.count s.envelopeSize.index)

def view (s : BoundedSet) (t : Trail) : BoundedView := ⟨s.capacity, s.kernel t, s.envelope t⟩

/-- The set is well placed on the trail. -/
structure Sits (s : BoundedSet) (t : Trail) : Prop where
  permutes : t.boundedArena.Permutes s.start s.capacity
  nodup : s.cells.Nodup
  sizes : ∃ k e : Nat, t.content s.kernelSize.index = some (k : Int) ∧
    t.content s.envelopeSize.index = some (e : Int) ∧ k ≤ e ∧ e ≤ s.capacity

end BoundedSet

/-- The number of slots is a machine integer. -/
structure Arena.Sized (m : Arena) : Prop where
  rank_size : m.rank.size = m.order.size
  lt : m.order.size < 2 ^ 63

/-- The sets that may own a cell. -/
inductive Owner
  | sparse (r : Nat)
  | bounded (r : Nat)

namespace Trail

/-- The cell belongs to the set. -/
def Owns (t : Trail) : Owner → Nat → Prop
  | .sparse r, i => ∃ s, t.sparseSets[r]? = some s ∧ i ∈ s.cells
  | .bounded r, i => ∃ s, t.boundedSets[r]? = some s ∧ i ∈ s.cells

/-- The cell belongs to no set. -/
def isFree (t : Trail) (i : Nat) : Bool :=
  t.sparseSets.all (fun s => !s.cells.contains i) &&
    t.boundedSets.all (fun s => !s.cells.contains i)

/-- The current view. -/
def view (t : Trail) : View where
  int i := if t.isFree i then t.content i else none
  sparse r := (t.sparseSets[r]?).map (·.view t)
  bounded r := (t.boundedSets[r]?).map (·.view t)

def pastFrom : List Level → Trail → List (Nat × View)
  | [], _ => []
  | l :: ls, t => (l.clock, t.close.view) :: pastFrom ls t.close

/-- The clocks of the open levels with the views that closing them gives back, innermost first. -/
def past (t : Trail) : List (Nat × View) := pastFrom t.levels t

theorem length_pastFrom (ls : List Level) (t : Trail) : (pastFrom ls t).length = ls.length := by
  induction ls generalizing t with
  | nil => rfl
  | cons l ls ih => simp [pastFrom, ih]

@[simp] theorem length_past (t : Trail) : t.past.length = t.depth := length_pastFrom _ _

/-! ## The invariant -/

structure Sound (t : Trail) : Prop where
  tracked : t.Tracked
  clocks : t.labels.Pairwise fun a b => b.1 < a.1
  sparseArena : t.sparseArena.Sized
  boundedArena : t.boundedArena.Sized
  sparse : ∀ (r : Nat) (s : SparseSet), t.sparseSets[r]? = some s → s.Sits t
  bounded : ∀ (r : Nat) (s : BoundedSet), t.boundedSets[r]? = some s → s.Sits t
  sparse_apart : ∀ (r r' : Nat) (s s' : SparseSet), r < r' → t.sparseSets[r]? = some s →
    t.sparseSets[r']? = some s' → s.start + s.capacity ≤ s'.start
  bounded_apart : ∀ (r r' : Nat) (s s' : BoundedSet), r < r' → t.boundedSets[r]? = some s →
    t.boundedSets[r']? = some s' → s.start + s.capacity ≤ s'.start
  owner : ∀ o o' i, t.Owns o i → t.Owns o' i → o = o'
  /-- The extent of a level is within that of the trail. -/
  reach : ∀ c e rest, t.labels = (c, e) :: rest → e.cells ≤ t.cells.size ∧
    e.sparseSets ≤ t.sparseSets.size ∧ e.sparseSlots ≤ t.sparseArena.size ∧
    e.boundedSets ≤ t.boundedSets.size ∧ e.boundedSlots ≤ t.boundedArena.size
  /-- The slots of a set made since a level was opened are beyond those of the level. -/
  sparse_new : ∀ c e rest, t.labels = (c, e) :: rest → ∀ (r : Nat) (s : SparseSet),
    t.sparseSets[r]? = some s → e.sparseSets ≤ r → e.sparseSlots ≤ s.start
  bounded_new : ∀ c e rest, t.labels = (c, e) :: rest → ∀ (r : Nat) (s : BoundedSet),
    t.boundedSets[r]? = some s → e.boundedSets ≤ r → e.boundedSlots ≤ s.start
  sparse_le : ∀ (r : Nat) (s : SparseSet), t.close.sparseSets[r]? = some s →
    t.count s.size.index ≤ t.close.count s.size.index
  bounded_le : ∀ (r : Nat) (s : BoundedSet), t.close.boundedSets[r]? = some s →
    t.close.count s.kernelSize.index ≤ t.count s.kernelSize.index ∧
      t.count s.envelopeSize.index ≤ t.close.count s.envelopeSize.index

/-- The trail is sound, and stays so as its levels are closed. -/
def Valid (t : Trail) : Prop := ∀ n, (t.closeMany n).Sound

theorem Valid.sound {t : Trail} (h : t.Valid) : t.Sound := h 0

theorem Valid.close {t : Trail} (h : t.Valid) : t.close.Valid := fun n => h (n + 1)

theorem Sound.valid {t : Trail} (h : t.Sound) (hc : t.levels ≠ [] → t.close.Valid) :
    t.Valid := by
  by_cases hl : t.levels = []
  · have hn : ∀ n, t.closeMany n = t := by
      intro n
      induction n with
      | zero => rfl
      | succ n ih => rw [closeMany, close_of_nil hl, ih]
    intro n
    rw [hn]
    exact h
  · intro n
    cases n with
    | zero => exact h
    | succ n => exact hc hl n

/-- The trails are the same but for the clock and the order of the values in the arenas. -/
structure Matches (t t' : Trail) : Prop where
  base : t'.baseChanges = t.baseChanges
  levels : t'.levels = t.levels
  cells : t'.cells = t.cells
  sparseSets : t'.sparseSets = t.sparseSets
  boundedSets : t'.boundedSets = t.boundedSets
  sparseSlots : t'.sparseArena.size = t.sparseArena.size
  boundedSlots : t'.boundedArena.size = t.boundedArena.size

theorem Matches.refl (t : Trail) : Matches t t := ⟨rfl, rfl, rfl, rfl, rfl, rfl, rfl⟩

theorem Matches.trans {t t' t'' : Trail} (h : Matches t t') (h' : Matches t' t'') :
    Matches t t'' :=
  ⟨h'.base.trans h.base, h'.levels.trans h.levels, h'.cells.trans h.cells,
    h'.sparseSets.trans h.sparseSets, h'.boundedSets.trans h.boundedSets,
    h'.sparseSlots.trans h.sparseSlots, h'.boundedSlots.trans h.boundedSlots⟩

/-- The current view of `t'` is `v`, and its levels are those of `t`. -/
structure Turns (t : Trail) (v : View) (t' : Trail) : Prop where
  valid : t'.Valid
  view : t'.view = v
  past : t'.past = t.past
  clock : t'.clock = t.clock
  /-- Closing the innermost level gives back the same records, cells and sets. -/
  close : t.levels ≠ [] → Matches t.close t'.close

theorem Valid.turns_self {t : Trail} (h : t.Valid) : Turns t t.view t :=
  ⟨h, rfl, rfl, rfl, fun _ => .refl _⟩

/-- A trail with as many past views has as many levels. -/
theorem levels_ne_nil_of_past {t t' : Trail} (h : t'.past = t.past) (hl : t.levels ≠ []) :
    t'.levels ≠ [] := by
  intro hnil
  have hlen := congrArg List.length h
  rw [length_past, length_past, depth, depth, hnil] at hlen
  exact hl (List.length_eq_zero_iff.1 hlen.symm)

theorem Turns.trans {t t' t'' : Trail} {v w : View} (h : Turns t v t') (h' : Turns t' w t'') :
    Turns t w t'' :=
  ⟨h'.valid, h'.view, h'.past.trans h.past, h'.clock.trans h.clock, fun hl =>
    (h.close hl).trans (h'.close (levels_ne_nil_of_past h.past hl))⟩

/-! ## Reading a view -/

section
variable {t t' : Trail}

theorem isFree_iff {i : Nat} : t.isFree i = true ↔ ∀ o, ¬t.Owns o i := by
  constructor
  · intro h o ho
    rw [isFree, Bool.and_eq_true, Array.all_eq_true_iff_forall_mem,
      Array.all_eq_true_iff_forall_mem] at h
    cases o with
    | sparse r =>
      obtain ⟨s, hs, hi⟩ := ho
      simpa [hi] using h.1 s (Array.mem_of_getElem? hs)
    | bounded r =>
      obtain ⟨s, hs, hi⟩ := ho
      simpa [hi] using h.2 s (Array.mem_of_getElem? hs)
  · intro h
    rw [isFree, Bool.and_eq_true, Array.all_eq_true_iff_forall_mem,
      Array.all_eq_true_iff_forall_mem]
    constructor
    · intro s hs
      obtain ⟨r, hr⟩ := Array.mem_iff_getElem?.1 hs
      simpa using fun hi => h (.sparse r) ⟨s, hr, hi⟩
    · intro s hs
      obtain ⟨r, hr⟩ := Array.mem_iff_getElem?.1 hs
      simpa using fun hi => h (.bounded r) ⟨s, hr, hi⟩

theorem isFree_congr (hs : t'.sparseSets = t.sparseSets) (hb : t'.boundedSets = t.boundedSets)
    (i : Nat) : t'.isFree i = t.isFree i := by
  rw [isFree, isFree, hs, hb]

theorem view_int_eq (t : Trail) (i : Nat) :
    t.view.int i = if t.isFree i then t.content i else none := rfl

theorem view_sparse_eq (t : Trail) (r : Nat) :
    t.view.sparse r = (t.sparseSets[r]?).map (·.view t) := rfl

theorem view_bounded_eq (t : Trail) (r : Nat) :
    t.view.bounded r = (t.boundedSets[r]?).map (·.view t) := rfl

theorem view_sparse {r : Nat} {s : SparseSet} (h : t.sparseSets[r]? = some s) :
    t.view.sparse r = some (s.view t) := by
  rw [view_sparse_eq, h, Option.map_some]

theorem view_bounded {r : Nat} {s : BoundedSet} (h : t.boundedSets[r]? = some s) :
    t.view.bounded r = some (s.view t) := by
  rw [view_bounded_eq, h, Option.map_some]

theorem sparse_of_view {r : Nat} {x : SparseView} (h : t.view.sparse r = some x) :
    ∃ s, t.sparseSets[r]? = some s ∧ s.view t = x := by
  simpa [view] using h

theorem bounded_of_view {r : Nat} {x : BoundedView} (h : t.view.bounded r = some x) :
    ∃ s, t.boundedSets[r]? = some s ∧ s.view t = x := by
  simpa [view] using h

theorem view_int {i : Nat} {a : Int} :
    t.view.int i = some a ↔ (∀ o, ¬t.Owns o i) ∧ t.content i = some a := by
  rw [← isFree_iff]
  show (if t.isFree i then t.content i else none) = some a ↔ _
  split
  · next h => simp [h]
  · next h => simp [h]

theorem past_of_nil (h : t.levels = []) : t.past = [] := by
  rw [past, h]
  rfl

theorem past_of_cons {l : Level} {ls : List Level} (h : t.levels = l :: ls) :
    t.past = (l.clock, t.close.view) :: t.close.past := by
  rw [past, h, pastFrom, past, levels_close_of_cons h]

/-- `past` only depends on the clocks of the levels and on what closing them gives back. -/
theorem past_congr (hl : t'.labels = t.labels) (hc : t.levels ≠ [] → t'.close = t.close) :
    t'.past = t.past := by
  cases h : t.levels with
  | nil =>
    have h' : t'.levels = [] := by simpa [labels, h] using hl
    rw [past_of_nil h, past_of_nil h']
  | cons l ls =>
    cases h' : t'.levels with
    | nil => simp [labels, h, h'] at hl
    | cons l' ls' =>
      have hclock : l'.clock = l.clock := by simp [labels, h, h'] at hl; exact hl.1.1
      rw [past_of_cons h, past_of_cons h', hc (by simp [h]), hclock]

end

end Trail

end Propagation
