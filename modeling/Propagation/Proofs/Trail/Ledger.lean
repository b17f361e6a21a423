import Propagation.Proofs.Trail.RoundTrip

/-!
# Sets on a trail as finite sets

The reference of a trail is a `Ledger`: finite sets of numbers instead of permutations and cells,
and a copy of all of them for each open level. The calls have their plain meaning on it
(`Ledger.after`), and the trail simulates it (`Ledger.Tells.step`, `Ledger.Tells.run`). So after
any calls on live handles the queries of a set answer as the finite set of the ledger
(`sparse_follows`, `bounded_follows`), and the calls on it fail only as `SparseRef.Follows` and
`BoundedRef.Follows` say.
-/

set_option autoImplicit false

namespace Propagation

theorem getElem?_concat_of_ne {α : Type} {l : List α} {a : α} {i : Nat} (h : i ≠ l.length) :
    (l ++ [a])[i]? = l[i]? := by
  rw [List.getElem?_append]
  split
  · rfl
  · rw [List.getElem?_eq_none (l := l) (by omega), List.getElem?_eq_none (by simp; omega)]

/-- A set of integers, as the `length` integers from `first` upwards that it was made of, and the
`values` left of them. -/
structure Pool where
  first : Int
  length : Nat
  values : Finset Int
deriving DecidableEq

namespace Pool

/-- The set of `n` integers from `first` upwards with all its values. -/
def full (n : Nat) (first : Int) : Pool :=
  ⟨first, n, (Finset.range n).image fun v : Nat => first + (v : Int)⟩

/-- All integers that the set was made of are machine integers. -/
def Fits (p : Pool) : Prop := ∀ a, p.first ≤ a → a < p.first + p.length → Checked.Signed a

def map (f : Finset Int → Finset Int) (p : Pool) : Pool := { p with values := f p.values }

end Pool

/-- The set of integers in a view. -/
def SparseView.pool (x : SparseView) : Pool := ⟨x.offset, x.capacity, x.values⟩

theorem SparseView.pool_range (n : Nat) (offset : Int) :
    (⟨offset, n, .range n⟩ : SparseView).pool = .full n offset := rfl

/-- Adds a value of the envelope to the kernel, and does nothing on others. -/
def BoundedView.enforce (x : BoundedView) (a : Nat) : BoundedView :=
  if a ∈ x.envelope then { x with kernel := insert a x.kernel } else x

/-- Takes a value out of the kernel from the envelope, and does nothing on others. -/
def BoundedView.exclude (x : BoundedView) (a : Nat) : BoundedView :=
  if a ∈ x.kernel then x else { x with envelope := x.envelope.erase a }

namespace Trail

open Update

/-! ## The ledger -/

/-- The sets of integers and the kernel-envelope pairs, each at its index. -/
structure Sheet where
  pools : List Pool
  pairs : List BoundedView

/-- The current sheet, and those at which the open levels were opened, innermost first. -/
structure Ledger where
  now : Sheet
  saved : List Sheet

namespace Sheet

def empty : Sheet := ⟨[], []⟩

/-- Applies `f` to the values of a set of integers. -/
def onPool (sh : Sheet) (r : SparseRef) (f : Finset Int → Finset Int) : Sheet :=
  { sh with pools := sh.pools.modify r.index (·.map f) }

def onPair (sh : Sheet) (r : BoundedRef) (f : BoundedView → BoundedView) : Sheet :=
  { sh with pairs := sh.pairs.modify r.index f }

end Sheet

namespace Ledger

def empty : Ledger := ⟨.empty, []⟩

def onPool (l : Ledger) (r : SparseRef) (f : Finset Int → Finset Int) : Ledger :=
  { l with now := l.now.onPool r f }

def onPair (l : Ledger) (r : BoundedRef) (f : BoundedView → BoundedView) : Ledger :=
  { l with now := l.now.onPair r f }

def save (l : Ledger) : Ledger := { l with saved := l.now :: l.saved }

/-- Closes the innermost level, if one is open. -/
def close (l : Ledger) : Ledger :=
  match l.saved with
  | [] => l
  | sh :: older => ⟨sh, older⟩

def closeMany (l : Ledger) : Nat → Ledger
  | 0 => l
  | n + 1 => l.close.closeMany n

/-- The reference semantics of a call. Cells do not matter to it. -/
def after (l : Ledger) : Call → Ledger
  | .newSparse n offset => { l with now := { l.now with pools := l.now.pools ++ [.full n offset] } }
  | .newBounded n => { l with now := { l.now with pairs := l.now.pairs ++ [⟨n, ∅, .range n⟩] } }
  | .remove r a => l.onPool r (·.erase a)
  | .removeAll r => l.onPool r fun _ => ∅
  | .removeAllBut r a => l.onPool r (· ∩ {a})
  | .removeBelow r a => l.onPool r (·.filter (a ≤ ·))
  | .removeAbove r a => l.onPool r (·.filter (· ≤ a))
  | .enforce r a => l.onPair r (·.enforce a)
  | .exclude r a => l.onPair r (·.exclude a)
  | .save | .checkpoint => l.save
  | .restore => l.close
  | .rollback m => l.closeMany (l.saved.length - m.depth)
  | .newInt _ | .newBool _ | .setInt _ _ | .addInt _ _ | .setBool _ _ | .flip _ => l

/-- The ledger after the calls `cs` on an empty one. -/
def ofCalls (cs : List Call) : Ledger := cs.foldl after empty

end Ledger

/-- The call narrows a kernel-envelope pair. -/
def Call.onPair : Call → Bool
  | enforce _ _ | exclude _ _ => true
  | _ => false

/-- The trail after the calls `cs`, if each is made on live handles and succeeds. Calls on pairs may
also fail. -/
def attempt : List Call → Trail → Option Trail
  | [], t => some t
  | c :: cs, t =>
    match c.live t, c.perform t with
    | true, .ok () u => attempt cs u
    | true, .error _ u => if c.onPair then attempt cs u else none
    | false, _ => none

/-! ## Reading a trail into a ledger -/

/-- The sets in the view `w` are those of the sheet. -/
structure Sheet.Reads (sh : Sheet) (w : View) : Prop where
  sparse : ∀ i, (w.sparse i).map SparseView.pool = sh.pools[i]?
  bounded : ∀ i, w.bounded i = sh.pairs[i]?

/-- The sets of the trail, now and at each open level, are those of the ledger. -/
structure Ledger.Tells (l : Ledger) (t : Trail) : Prop where
  now : l.now.Reads t.view
  saved : List.Forall₂ (fun sh p => sh.Reads p.2) l.saved t.past

variable {t t' : Trail} {sh : Sheet} {l : Ledger} {w : View}

namespace Sheet.Reads

theorem length_pools (h : sh.Reads t.view) : sh.pools.length = t.sparseSets.size := by
  have hle : ∀ i, sh.pools.length ≤ i ↔ t.sparseSets.size ≤ i := fun i => by
    rw [← List.getElem?_eq_none_iff, ← h.sparse, view_sparse_eq, Option.map_eq_none_iff,
      Option.map_eq_none_iff, Array.getElem?_eq_none_iff]
  exact Nat.le_antisymm ((hle _).2 le_rfl) ((hle _).1 le_rfl)

theorem length_pairs (h : sh.Reads t.view) : sh.pairs.length = t.boundedSets.size := by
  have hle : ∀ i, sh.pairs.length ≤ i ↔ t.boundedSets.size ≤ i := fun i => by
    rw [← List.getElem?_eq_none_iff, ← h.bounded, view_bounded_eq, Option.map_eq_none_iff,
      Array.getElem?_eq_none_iff]
  exact Nat.le_antisymm ((hle _).2 le_rfl) ((hle _).1 le_rfl)

theorem newSparse (h : sh.Reads w) (n : Nat) (offset : Int) :
    { sh with pools := sh.pools ++ [.full n offset] : Sheet }.Reads
      (w.setSparse sh.pools.length ⟨offset, n, .range n⟩) where
  sparse i := by
    by_cases hi : i = sh.pools.length
    · rw [hi, View.setSparse_self, Option.map_some, SparseView.pool_range,
        List.getElem?_concat_length]
    · rw [View.setSparse_of_ne _ _ hi, h.sparse, getElem?_concat_of_ne hi]
  bounded := h.bounded

theorem newBounded (h : sh.Reads w) (n : Nat) :
    { sh with pairs := sh.pairs ++ [⟨n, ∅, .range n⟩] : Sheet }.Reads
      (w.setBounded sh.pairs.length ⟨n, ∅, .range n⟩) where
  sparse := h.sparse
  bounded i := by
    by_cases hi : i = sh.pairs.length
    · rw [hi, View.setBounded_self, List.getElem?_concat_length]
    · rw [View.setBounded_of_ne _ _ hi, h.bounded, getElem?_concat_of_ne hi]

/-- `Reads` after a change of the values of a set of integers. -/
theorem onPool (h : sh.Reads w) {r : SparseRef} {x y : SparseView}
    (hx : w.sparse r.index = some x) {f : Finset Int → Finset Int} (hy : y.pool = x.pool.map f) :
    (sh.onPool r f).Reads (w.setSparse r.index y) where
  sparse i := by
    by_cases hi : i = r.index
    · rw [Sheet.onPool, hi, List.getElem?_modify_eq, View.setSparse_self, ← h.sparse, hx,
        Option.map_some, hy]
      rfl
    · rw [Sheet.onPool, List.getElem?_modify_ne _ _ (Ne.symm hi), View.setSparse_of_ne _ _ hi,
        h.sparse]
  bounded := h.bounded

theorem onPair (h : sh.Reads w) {r : BoundedRef} {x y : BoundedView}
    (hx : w.bounded r.index = some x) {f : BoundedView → BoundedView} (hy : y = f x) :
    (sh.onPair r f).Reads (w.setBounded r.index y) where
  sparse := h.sparse
  bounded i := by
    by_cases hi : i = r.index
    · rw [Sheet.onPair, hi, List.getElem?_modify_eq, View.setBounded_self, ← h.bounded, hx, hy]
      rfl
    · rw [Sheet.onPair, List.getElem?_modify_ne _ _ (Ne.symm hi), View.setBounded_of_ne _ _ hi,
        h.bounded]

/-- `Reads` after values without `p` have been dropped. -/
theorem keep (h : sh.Reads w) {r : SparseRef} {x : SparseView} (hx : w.sparse r.index = some x)
    {p : Int → Prop} [DecidablePred p] {f : Finset Int → Finset Int}
    (hf : ∀ vs : Finset Int, vs.filter p = f vs) :
    (sh.onPool r f).Reads (w.setSparse r.index (x.keep p)) := by
  refine h.onPool hx ?_
  rw [SparseView.pool, SparseView.values_keep, hf]
  rfl

end Sheet.Reads

namespace Ledger.Tells

theorem start : Ledger.empty.Tells Trail.empty :=
  ⟨⟨fun _ => rfl, fun _ => rfl⟩, .nil⟩

/-- `Tells` after a change of the current view. -/
theorem turn (h : l.Tells t) (ht : Turns t w t') (hw : sh.Reads w) :
    { l with now := sh : Ledger }.Tells t' :=
  ⟨ht.view ▸ hw, ht.past ▸ h.saved⟩

theorem save (h : l.Tells t) (hv : t.Valid) : l.save.Tells t.save := by
  refine ⟨h.now, ?_⟩
  rw [past_save hv.sound]
  exact .cons h.now h.saved

theorem close (h : l.Tells t) : l.close.Tells t.close := by
  have hsaved := h.saved
  unfold Ledger.close
  cases hl : t.levels with
  | nil =>
    rw [past_of_nil hl] at hsaved
    rw [close_of_nil hl, List.forall₂_nil_right_iff.1 hsaved]
    exact h
  | cons c ls =>
    rw [past_of_cons hl] at hsaved
    obtain ⟨sh, older, hsh, holder, hsaved⟩ := List.forall₂_cons_right_iff.1 hsaved
    rw [hsaved]
    exact ⟨hsh, holder⟩

theorem closeMany (h : l.Tells t) (n : Nat) : (l.closeMany n).Tells (t.closeMany n) := by
  induction n generalizing l t with
  | zero => exact h
  | succ n ih => exact ih h.close

theorem length_saved (h : l.Tells t) : l.saved.length = t.depth := by
  rw [h.saved.length_eq, length_past]

/-- `Tells` after a set of integers has kept the values with `p`. -/
theorem keep (h : l.Tells t) {r : SparseRef} {x : SparseView}
    (hx : t.view.sparse r.index = some x) {p : Int → Prop} [DecidablePred p]
    (ht : Turns t (t.view.setSparse r.index (x.keep p)) t') {f : Finset Int → Finset Int}
    (hf : ∀ vs : Finset Int, vs.filter p = f vs) : (l.onPool r f).Tells t' :=
  h.turn ht (h.now.keep hx hf)

/-- The step lemma: a call on live handles that succeeds keeps `Tells`. -/
theorem step (h : l.Tells t) (hv : t.Valid) {c : Call} (hlive : c.live t = true)
    (hc : c.perform t = .ok () t') : (l.after c).Tells t' := by
  cases c with
  | newInt _ | newBool _ | setInt _ _ | addInt _ _ | setBool _ _ | flip _ =>
    obtain ⟨_, _, ht⟩ := Call.turns_cell hv rfl hlive hc
    exact h.turn ht ⟨h.now.sparse, h.now.bounded⟩
  | newSparse n offset =>
    obtain ⟨r, hr⟩ := discard_eq_ok hc
    have ht := ((newSparse_ends hv n offset).of_ok hr).2
    rw [index_newSparse hr, ← h.now.length_pools] at ht
    exact h.turn ht (h.now.newSparse n offset)
  | newBounded n =>
    obtain ⟨r, hr⟩ := discard_eq_ok hc
    have ht := ((newBounded_ends hv n).of_ok hr).2
    rw [index_newBounded hr, ← h.now.length_pairs] at ht
    exact h.turn ht (h.now.newBounded n)
  | remove r a =>
    obtain ⟨x, hx⟩ := exists_sparse_view hlive
    obtain ⟨b, hb⟩ := discard_eq_ok hc
    refine h.keep hx ((SparseRef.remove_ends hv hx a).of_ok hb).2 fun vs => ?_
    exact Finset.filter_ne' vs a
  | removeAll r =>
    obtain ⟨x, hx⟩ := exists_sparse_view hlive
    obtain ⟨u, hall, hu⟩ := SparseRef.removeAll_turns hv hx (p := fun _ => False) fun _ _ => id
    cases hall.symm.trans hc
    exact h.keep hx hu Finset.filter_false
  | removeAllBut r a =>
    obtain ⟨x, hx⟩ := exists_sparse_view hlive
    refine h.keep hx ((SparseRef.removeAllBut_ends hv hx a).of_ok hc) fun vs => ?_
    ext b
    rw [Finset.mem_filter, Finset.mem_inter, Finset.mem_singleton]
  | removeBelow r a =>
    obtain ⟨x, hx⟩ := exists_sparse_view hlive
    exact h.keep hx ((SparseRef.removeBelow_ends hv hx a).of_ok hc) fun _ => rfl
  | removeAbove r a =>
    obtain ⟨x, hx⟩ := exists_sparse_view hlive
    exact h.keep hx ((SparseRef.removeAbove_ends hv hx a).of_ok hc) fun _ => rfl
  | enforce r a =>
    obtain ⟨x, hx⟩ := exists_bounded_view hlive
    obtain ⟨b, hb⟩ := discard_eq_ok hc
    obtain ⟨hin, -, ht⟩ := (BoundedRef.enforce_ends hv hx a).of_ok hb
    exact h.turn ht (h.now.onPair hx (if_pos hin).symm)
  | exclude r a =>
    obtain ⟨x, hx⟩ := exists_bounded_view hlive
    obtain ⟨b, hb⟩ := discard_eq_ok hc
    obtain ⟨hout, -, ht⟩ := (BoundedRef.remove_ends hv hx a).of_ok hb
    exact h.turn ht (h.now.onPair hx (if_neg hout).symm)
  | save =>
    cases hc
    exact h.save hv
  | restore =>
    rw [Call.perform, restore_apply] at hc
    split at hc <;> cases hc
    exact h.close
  | checkpoint =>
    cases hc
    exact h.save hv
  | rollback m =>
    rw [Call.perform, rollback_apply] at hc
    split at hc <;> cases hc
    rw [← h.length_saved]
    exact h.closeMany _

/-- `Tells` after a change of a pair that does nothing. -/
theorem idle (h : l.Tells t) {r : BoundedRef} {x : BoundedView}
    (hx : t.view.bounded r.index = some x) {f : BoundedView → BoundedView} (hf : f x = x) :
    (l.onPair r f).Tells t :=
  ⟨View.setBounded_eq_self hx ▸ h.now.onPair hx hf.symm, h.saved⟩

/-- A refused call on a pair changes neither the trail nor the ledger. -/
theorem refused (h : l.Tells t) (hv : t.Valid) {c : Call} (hlive : c.live t = true)
    (hpair : c.onPair = true) {e : Fault} (hc : c.perform t = .error e t') :
    t' = t ∧ (l.after c).Tells t := by
  cases c with
  | enforce r a =>
    obtain ⟨x, hx⟩ := exists_bounded_view hlive
    obtain ⟨-, hout, heq⟩ := (BoundedRef.enforce_ends hv hx a).of_error (discard_eq_error hc)
    exact ⟨heq, h.idle hx (if_neg hout)⟩
  | exclude r a =>
    obtain ⟨x, hx⟩ := exists_bounded_view hlive
    obtain ⟨-, hin, heq⟩ := (BoundedRef.remove_ends hv hx a).of_error (discard_eq_error hc)
    exact ⟨heq, h.idle hx (if_pos hin)⟩
  | _ => cases hpair

/-- The run lemma: `Tells` is kept by any calls of `attempt`. -/
theorem run {cs : List Call} (hcs : attempt cs t = some t') (h : l.Tells t) (hv : t.Valid) :
    (cs.foldl Ledger.after l).Tells t' ∧ t'.Valid := by
  induction cs generalizing l t with
  | nil =>
    cases hcs
    exact ⟨h, hv⟩
  | cons c cs ih =>
    unfold attempt at hcs
    split at hcs
    · next hlive hc => exact ih hcs (h.step hv hlive hc) ((Call.passes hv hlive hc).valid hv)
    · next hlive hc =>
      obtain ⟨hpair, hcs⟩ := Option.ite_none_right_eq_some.1 hcs
      obtain ⟨rfl, h⟩ := h.refused hv hlive hpair hc
      exact ih hcs h hv
    · cases hcs

end Ledger.Tells

end Trail

/-! ## Sets of integers -/

/-- One of `sums` overflows, and the trail is unchanged. -/
def Trail.Far (t : Trail) (sums : List Int) (e : Fault) (t' : Trail) : Prop :=
  e = .overflow ∧ (∃ i ∈ sums, ¬Checked.Signed i) ∧ t' = t

/-- The queries of the handle `r` answer as the set `p`. No call on it fails, except by an overflow
if the distance of the argument from `p.first` is not a machine integer, or for `removeAbove` the
distance of the integer after it. -/
structure SparseRef.Follows (r : SparseRef) (t : Trail) (p : Pool) : Prop where
  size : r.size t = .ok p.values.card
  isEmpty : r.isEmpty t = .ok (decide (p.values = ∅))
  contains : ∀ a, r.contains a t =
    if Checked.Signed (a - p.first) then .ok (decide (a ∈ p.values)) else .error .overflow
  min_none : p.values = ∅ → r.min t = .ok none
  min_some : ∀ a, IsLeast (p.values : Set Int) a → r.min t = .ok (some a)
  max_none : p.values = ∅ → r.max t = .ok none
  max_some : ∀ a, IsGreatest (p.values : Set Int) a → r.max t = .ok (some a)
  values : ∃ vs, r.values t = .ok vs ∧ vs.Nodup ∧ ∀ a, a ∈ vs ↔ a ∈ p.values
  remove : ∀ a, Update.Ends (r.remove a) t (fun b _ => b = decide (a ∈ p.values))
    (t.Far [a - p.first])
  removeAll : ∃ t', r.removeAll t = .ok () t'
  removeAllBut : ∀ a, Update.Ends (r.removeAllBut a) t (fun _ _ => True) (t.Far [a - p.first])
  removeBelow : ∀ a, Update.Ends (r.removeBelow a) t (fun _ _ => True) (t.Far [a - p.first])
  removeAbove : ∀ a, Update.Ends (r.removeAbove a) t (fun _ _ => True)
    (t.Far [a - p.first, a - p.first + 1])

namespace SparseRef

variable {t : Trail} {r : SparseRef} {x : SparseView}

section
variable (hv : t.Valid) (hx : t.view.sparse r.index = some x)
include hv hx

/-- The values of a set are among those that it was made of. -/
theorem bounds_of_mem {a : Int} (ha : a ∈ x.values) : x.offset ≤ a ∧ a < x.offset + x.capacity := by
  obtain ⟨v, hv', rfl⟩ := SparseView.mem_values.1 ha
  obtain ⟨s, n, -, -, rfl, -, -, -, hmem, -⟩ := layout_of_view hv hx
  change v ∈ s.members t at hv'
  have hcap : v < s.capacity := (Arena.mem_zone.1 (hmem ▸ hv')).1
  exact ⟨by omega, by show s.offset + (v : Int) < s.offset + s.capacity; omega⟩

theorem fits_of_pool (hfit : x.pool.Fits) : x.Fits := fun a ha =>
  hfit a (bounds_of_mem hv hx ha).1 (bounds_of_mem hv hx ha).2

theorem follows (hfit : x.pool.Fits) : r.Follows t x.pool := by
  have hfits := fits_of_pool hv hx hfit
  have hmembers : x.values = ∅ ↔ x.members = ∅ := by
    rw [← Finset.card_eq_zero, SparseView.card_values, Finset.card_eq_zero]
  have hcut : ∀ {p : Int → Prop} {sums : List Int} {e : Fault} {t' : Trail},
      CutFails t r x p sums e t' → t.Far sums e t' := by
    rintro p sums e t' ⟨rfl, h | ⟨hno, -⟩⟩
    · exact ⟨rfl, h⟩
    · exact absurd hfits hno
  exact
    { size := by rw [size_eq hv hx, ← SparseView.card_values]; rfl
      isEmpty := by
        rw [isEmpty_eq hv hx]
        exact congrArg Except.ok (decide_eq_decide.2 hmembers.symm)
      contains := fun a => by
        rw [contains_eq hv hx]
        show (Checked.int (a - x.offset)).map _ = if Checked.Signed (a - x.offset) then _ else _
        split
        · next h =>
          rw [Checked.int_of_signed h]
          rfl
        · next h => rw [Checked.int_of_not_signed h]; rfl
      min_none := fun h => min_of_empty hv hx (hmembers.1 h)
      min_some := fun a ha => by
        rw [min_eq hv hx ha, Checked.int_of_signed (hfits a ha.1)]
        rfl
      max_none := fun h => max_of_empty hv hx (hmembers.1 h)
      max_some := fun a ha => by
        rw [max_eq hv hx ha, Checked.int_of_signed (hfits a ha.1)]
        rfl
      values := by
        obtain ⟨vs, hnd, hmem, hvs⟩ := values_eq hv hx
        rw [if_pos fun a ha => Checked.int_of_signed (hfits a ha)] at hvs
        exact ⟨vs, hvs, hnd, hmem⟩
      remove := fun a => (remove_ends hv hx a).mono (fun _ _ h => h.1) fun _ _ h =>
        ⟨h.1, ⟨_, List.mem_cons_self, h.2.1⟩, h.2.2⟩
      removeAll := by
        obtain ⟨t', hrun, -⟩ := removeAll_eq hv hx
        exact ⟨t', hrun⟩
      removeAllBut := fun a => (removeAllBut_ends hv hx a).mono (fun _ _ _ => trivial) fun _ _ h =>
        ⟨h.1, ⟨_, List.mem_cons_self, h.2.1⟩, h.2.2⟩
      removeBelow := fun a => (removeBelow_ends hv hx a).mono (fun _ _ _ => trivial) fun _ _ => hcut
      removeAbove := fun a => (removeAbove_ends hv hx a).mono (fun _ _ _ => trivial)
        fun _ _ => hcut }

end

end SparseRef

/-! ## Sets with a kernel -/

/-- The queries of the handle `r` answer as the kernel and the envelope of `x`, for any number. A
value can be enforced iff it is in the envelope, and removed iff it is not in the kernel; otherwise
the call is refused and changes nothing. -/
structure BoundedRef.Follows (r : BoundedRef) (t : Trail) (x : BoundedView) : Prop where
  subset : x.kernel ⊆ x.envelope
  capacity : r.capacity t = .ok x.capacity
  kernelSize : r.kernelSize t = .ok x.kernel.card
  envelopeSize : r.envelopeSize t = .ok x.envelope.card
  kernelContains : ∀ a, r.kernelContains a t = .ok (decide (a ∈ x.kernel))
  envelopeContains : ∀ a, r.envelopeContains a t = .ok (decide (a ∈ x.envelope))
  kernel : ∃ vs, r.kernel t = .ok vs ∧ vs.Nodup ∧ ∀ a, a ∈ vs ↔ a ∈ x.kernel
  envelope : ∃ vs, r.envelope t = .ok vs ∧ vs.Nodup ∧ ∀ a, a ∈ vs ↔ a ∈ x.envelope
  enforce : ∀ a, Update.Ends (r.enforce a) t
    (fun b _ => a ∈ x.envelope ∧ b = decide (a ∉ x.kernel))
    fun e t' => a ∉ x.envelope ∧ e = .violation (.outsideEnvelope a) ∧ t' = t
  remove : ∀ a, Update.Ends (r.remove a) t
    (fun b _ => a ∉ x.kernel ∧ b = decide (a ∈ x.envelope))
    fun e t' => a ∈ x.kernel ∧ e = .violation (.insideKernel a) ∧ t' = t

theorem BoundedRef.follows {t : Trail} {r : BoundedRef} {x : BoundedView} (hv : t.Valid)
    (hx : t.view.bounded r.index = some x) : r.Follows t x where
  subset := (wf_of_view hv hx).kernel_subset
  capacity := capacity_eq hv hx
  kernelSize := kernelSize_eq hv hx
  envelopeSize := envelopeSize_eq hv hx
  kernelContains := kernelContains_eq hv hx
  envelopeContains := envelopeContains_eq hv hx
  kernel := kernel_eq hv hx
  envelope := envelope_eq hv hx
  enforce a := (enforce_ends hv hx a).mono (fun _ _ h => ⟨h.1, h.2.1⟩)
    fun _ _ h => ⟨h.2.1, h.1, h.2.2⟩
  remove a := (remove_ends hv hx a).mono (fun _ _ h => ⟨h.1, h.2.1⟩)
    fun _ _ h => ⟨h.2.1, h.1, h.2.2⟩

/-! ## After any calls -/

namespace Trail

variable {cs : List Call} {t : Trail}

/-- After any calls on live handles, every set of integers of the trail is in the ledger, and its
handle `Follows` it if the set `Fits`. -/
theorem sparse_follows (h : attempt cs empty = some t) {r : SparseRef}
    (hr : r.index < t.sparseSets.size) :
    ∃ p, (Ledger.ofCalls cs).now.pools[r.index]? = some p ∧ (p.Fits → r.Follows t p) := by
  obtain ⟨htells, hv⟩ := Ledger.Tells.start.run h valid_empty
  obtain ⟨x, hx⟩ := exists_sparse_view (decide_eq_true hr)
  refine ⟨x.pool, ?_, SparseRef.follows hv hx⟩
  rw [Ledger.ofCalls, ← htells.now.sparse, hx, Option.map_some]

/-- A set that gets its values back when a level is closed, with another set in that level. -/
theorem sparse_follows_restored :
    ∃ t, attempt [.newBounded 2, .newSparse 5 (-2), .remove ⟨0⟩ 0, .save, .removeAbove ⟨0⟩ 1,
        .newSparse 3 7, .removeAll ⟨1⟩, .restore, .remove ⟨0⟩ (-2)] empty = some t ∧
      (⟨0⟩ : SparseRef).Follows t ⟨-2, 5, {-1, 1, 2}⟩ := by
  have hsome : (attempt [.newBounded 2, .newSparse 5 (-2), .remove ⟨0⟩ 0, .save,
      .removeAbove ⟨0⟩ 1, .newSparse 3 7, .removeAll ⟨1⟩, .restore, .remove ⟨0⟩ (-2)] empty).any
        (fun t => decide (0 < t.sparseSets.size)) = true := by decide +kernel
  obtain ⟨t, h, ht⟩ := (Option.any_eq_true _ _).1 hsome
  obtain ⟨p, hp, hfollows⟩ := sparse_follows h (r := ⟨0⟩) (of_decide_eq_true ht)
  have hvalues : (Ledger.ofCalls [.newBounded 2, .newSparse 5 (-2), .remove ⟨0⟩ 0, .save,
      .removeAbove ⟨0⟩ 1, .newSparse 3 7, .removeAll ⟨1⟩, .restore,
      .remove ⟨0⟩ (-2)]).now.pools[0]? = some ⟨-2, 5, {-1, 1, 2}⟩ := by decide +kernel
  cases hp.symm.trans hvalues
  refine ⟨t, h, hfollows fun a (h1 : -2 ≤ a) (h2 : a < -2 + ((5 : Nat) : Int)) => ?_⟩
  unfold Checked.Signed
  omega

/-- After any calls on live handles, every bounded set of the trail is in the ledger, and its handle
`Follows` it. -/
theorem bounded_follows (h : attempt cs empty = some t) {r : BoundedRef}
    (hr : r.index < t.boundedSets.size) :
    ∃ x, (Ledger.ofCalls cs).now.pairs[r.index]? = some x ∧ r.Follows t x := by
  obtain ⟨htells, hv⟩ := Ledger.Tells.start.run h valid_empty
  obtain ⟨x, hx⟩ := exists_bounded_view (decide_eq_true hr)
  refine ⟨x, ?_, BoundedRef.follows hv hx⟩
  rw [Ledger.ofCalls, ← htells.now.bounded, hx]

/-- A set that is narrowed from both sides in a level and after it, and refuses to be narrowed
further. -/
theorem bounded_follows_restored :
    ∃ t, attempt [.newSparse 2 0, .newBounded 4, .enforce ⟨0⟩ 2, .save, .exclude ⟨0⟩ 0,
        .enforce ⟨0⟩ 0, .enforce ⟨0⟩ 3, .restore, .exclude ⟨0⟩ 3, .exclude ⟨0⟩ 2] empty = some t ∧
      (⟨0⟩ : BoundedRef).Follows t ⟨4, {2}, {0, 1, 2}⟩ := by
  have hsome : (attempt [.newSparse 2 0, .newBounded 4, .enforce ⟨0⟩ 2, .save, .exclude ⟨0⟩ 0,
      .enforce ⟨0⟩ 0, .enforce ⟨0⟩ 3, .restore, .exclude ⟨0⟩ 3, .exclude ⟨0⟩ 2] empty).any
        (fun t => decide (0 < t.boundedSets.size)) = true := by decide +kernel
  obtain ⟨t, h, ht⟩ := (Option.any_eq_true _ _).1 hsome
  obtain ⟨x, hx, hfollows⟩ := bounded_follows h (r := ⟨0⟩) (of_decide_eq_true ht)
  have hpair : (Ledger.ofCalls [.newSparse 2 0, .newBounded 4, .enforce ⟨0⟩ 2, .save,
      .exclude ⟨0⟩ 0, .enforce ⟨0⟩ 0, .enforce ⟨0⟩ 3, .restore, .exclude ⟨0⟩ 3,
      .exclude ⟨0⟩ 2]).now.pairs[0]? = some ⟨4, {2}, {0, 1, 2}⟩ := rfl
  cases hx.symm.trans hpair
  exact ⟨t, h, hfollows⟩

end Trail

end Propagation
