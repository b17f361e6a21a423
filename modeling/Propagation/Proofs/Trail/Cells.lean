import Propagation.Proofs.Checked
import Propagation.Proofs.Update
import Propagation.Trail.Basic

/-!
# Cells and the levels that record them

What closing a level gives back. A write leaves a trail that closes like the one before it
(`Tracked.write`), because the innermost level has recorded every cell that it covers and whose
stamp is not behind it. `Revises` is what any number of writes leaves alone; it composes.
-/

set_option autoImplicit false

namespace Propagation

namespace Trail

variable {t : Trail} {l : Level} {ls : List Level}

/-- The value of the cell `i`. -/
def content (t : Trail) (i : Nat) : Option Int := (t.cells[i]?).map (·.value)

/-- The value of the cell `i` as a size. -/
def count (t : Trail) (i : Nat) : Nat := ((t.content i).getD 0).toNat

theorem count_of_content {i n : Nat} (h : t.content i = some (n : Int)) : t.count i = n := by
  rw [count, h]
  rfl

theorem count_congr {t' : Trail} {i : Nat} (h : t'.content i = t.content i) :
    t'.count i = t.count i := by
  rw [count, count, h]

theorem content_eq_some {i : Nat} {a : Int} :
    t.content i = some a ↔ ∃ c, t.cells[i]? = some c ∧ c.value = a := by
  simp [content, Option.map_eq_some_iff]

theorem lt_of_content {i : Nat} {a : Int} (h : t.content i = some a) : i < t.cells.size := by
  obtain ⟨c, hc, -⟩ := content_eq_some.1 h
  exact (Array.getElem?_eq_some_iff.1 hc).1

/-! ## Undoing -/

@[simp] theorem size_undo (cells : Array Cell) (cs : List Change) :
    (undo cells cs).size = cells.size := by
  induction cs generalizing cells with
  | nil => rfl
  | cons c cs ih => exact (ih _).trans (by simp)

theorem getElem?_take {α : Type} (xs : Array α) (n i : Nat) :
    (xs.take n)[i]? = if i < n then xs[i]? else none := by
  rw [Array.take_eq_extract, Array.getElem?_extract]
  by_cases h : i < n
  · rw [if_pos h]
    split
    · rw [Nat.zero_add]
    · rw [Array.getElem?_eq_none (by omega)]
  · rw [if_neg h, if_neg (by omega)]

/-- `undo` below a bound only depends on the cells below it. -/
theorem undo_agree {xs ys : Array Cell} {e : Nat} (cs : List Change)
    (hsize : ys.size = xs.size ∨ e ≤ xs.size ∧ e ≤ ys.size)
    (h : ∀ i < e, ys[i]? = xs[i]?) : ∀ i < e, (undo ys cs)[i]? = (undo xs cs)[i]? := by
  induction cs generalizing xs ys with
  | nil => exact h
  | cons c cs ih =>
    refine ih (by simpa using hsize) fun i hi => ?_
    rw [Array.getElem?_setIfInBounds, Array.getElem?_setIfInBounds, h i hi]
    split
    · split <;> split <;> first | rfl | omega
    · rfl

theorem take_undo_agree {xs ys : Array Cell} {e : Nat} (cs : List Change)
    (hsize : ys.size = xs.size ∨ e ≤ xs.size ∧ e ≤ ys.size)
    (h : ∀ i < e, ys[i]? = xs[i]?) : (undo ys cs).take e = (undo xs cs).take e := by
  refine Array.ext_getElem? fun i => ?_
  rw [getElem?_take, getElem?_take]
  split
  · exact undo_agree cs hsize h i ‹_›
  · rfl

theorem setIfInBounds_comm' {α : Type} (xs : Array α) {i j : Nat} (h : i ≠ j) (x y : α) :
    (xs.setIfInBounds i x).setIfInBounds j y = (xs.setIfInBounds j y).setIfInBounds i x := by
  refine Array.ext_getElem? fun k => ?_
  simp only [Array.getElem?_setIfInBounds, Array.size_setIfInBounds]
  by_cases hj : j = k
  · subst hj
    simp [h]
  · by_cases hi : i = k
    · subst hi
      simp [hj]
    · simp [hi, hj]

/-- A cell that has been recorded is restored from its record, whatever it has become. -/
theorem undo_set_recorded {cells : Array Cell} {cs : List Change} {i : Nat} (x : Cell)
    (h : ∃ c ∈ cs, c.cell = i) : undo (cells.setIfInBounds i x) cs = undo cells cs := by
  induction cs generalizing cells with
  | nil => obtain ⟨c, hc, -⟩ := h; cases hc
  | cons c cs ih =>
    show undo ((cells.setIfInBounds i x).setIfInBounds c.cell c.former) cs
      = undo (cells.setIfInBounds c.cell c.former) cs
    by_cases hci : c.cell = i
    · rw [hci, Array.setIfInBounds_setIfInBounds]
    · rw [setIfInBounds_comm' _ (Ne.symm hci)]
      refine ih ?_
      obtain ⟨d, hd, hdi⟩ := h
      rcases List.mem_cons.1 hd with rfl | hd
      · exact absurd hdi hci
      · exact ⟨d, hd, hdi⟩

/-- Undoing a write is not having written. -/
theorem undo_set_now {cells : Array Cell} {i : Nat} {c : Cell} (x : Cell) (cs : List Change)
    (h : cells[i]? = some c) : undo (cells.setIfInBounds i x) (⟨i, c⟩ :: cs) = undo cells cs := by
  show undo ((cells.setIfInBounds i x).setIfInBounds i c) cs = _
  rw [Array.setIfInBounds_setIfInBounds]
  congr 1
  refine Array.ext_getElem? fun k => ?_
  rw [Array.getElem?_setIfInBounds]
  split
  · next he => subst he; split
               · exact h.symm
               · rw [Array.getElem?_eq_none (by omega)]
  · rfl

/-! ## Closing -/

theorem close_of_nil (h : t.levels = []) : t.close = t := by
  rw [close, h]

theorem close_of_cons (h : t.levels = l :: ls) :
    t.close = { t with levels := ls, cells := undo t.cells l.changes }.truncate l.extent := by
  rw [close, h]

theorem levels_close_of_cons (h : t.levels = l :: ls) : t.close.levels = ls := by
  rw [close_of_cons h]
  rfl

theorem getElem?_close_sparseSets (h : t.levels = l :: ls) (r : Nat) :
    t.close.sparseSets[r]? = if r < l.extent.sparseSets then t.sparseSets[r]? else none := by
  rw [close_of_cons h]
  exact getElem?_take _ _ _

theorem getElem?_close_boundedSets (h : t.levels = l :: ls) (r : Nat) :
    t.close.boundedSets[r]? = if r < l.extent.boundedSets then t.boundedSets[r]? else none := by
  rw [close_of_cons h]
  exact getElem?_take _ _ _

/-- The sets after closing a level were there before. -/
theorem sparseSets_of_close {r : Nat} {s : SparseSet} (h : t.close.sparseSets[r]? = some s) :
    t.sparseSets[r]? = some s := by
  cases hl : t.levels with
  | nil => rwa [close_of_nil hl] at h
  | cons l ls =>
    rw [getElem?_close_sparseSets hl] at h
    split at h
    · exact h
    · cases h

theorem boundedSets_of_close {r : Nat} {s : BoundedSet} (h : t.close.boundedSets[r]? = some s) :
    t.boundedSets[r]? = some s := by
  cases hl : t.levels with
  | nil => rwa [close_of_nil hl] at h
  | cons l ls =>
    rw [getElem?_close_boundedSets hl] at h
    split at h
    · exact h
    · cases h

/-! ## Stamps -/

/-- Every level was opened no later than `t.clock`, no stamp is ahead of the clock, and the
innermost level has recorded each of its cells whose stamp is not behind it. -/
structure Tracked (t : Trail) : Prop where
  stamp_le : ∀ (i : Nat) (c : Cell), t.cells[i]? = some c → c.stamp ≤ t.clock
  clock_le : ∀ l ∈ t.levels, l.clock ≤ t.clock
  covers : ∀ l ls, t.levels = l :: ls → ∀ i < l.extent.cells, ∀ c : Cell, t.cells[i]? = some c →
    l.clock ≤ c.stamp → ∃ x ∈ l.changes, x.cell = i

/-- The clock and the extent of each level. -/
def labels (t : Trail) : List (Nat × Extent) := t.levels.map fun l => (l.clock, l.extent)

theorem labels_of_cons (h : t.levels = l :: ls) :
    t.labels = (l.clock, l.extent) :: ls.map fun l => (l.clock, l.extent) := by
  rw [labels, h]
  rfl

/-- The trail `t'` is `t` after writes to some cells. -/
structure Revises (t t' : Trail) : Prop where
  sparseSets : t'.sparseSets = t.sparseSets
  sparseArena : t'.sparseArena = t.sparseArena
  boundedSets : t'.boundedSets = t.boundedSets
  boundedArena : t'.boundedArena = t.boundedArena
  clock : t'.clock = t.clock
  size : t'.cells.size = t.cells.size
  labels : t'.labels = t.labels
  close : t.levels ≠ [] → t'.close = t.close
  tracked : t'.Tracked

theorem Tracked.revises_self (h : t.Tracked) : Revises t t :=
  ⟨rfl, rfl, rfl, rfl, rfl, rfl, rfl, fun _ => rfl, h⟩

theorem Revises.levels_ne_nil {t' : Trail} (h : Revises t t') :
    t'.levels = [] ↔ t.levels = [] := by
  have := congrArg List.length h.labels
  rw [← List.length_eq_zero_iff, ← List.length_eq_zero_iff]
  simp only [Trail.labels, List.length_map] at this
  rw [this]

theorem Revises.trans {t' t'' : Trail} (h : Revises t t') (h' : Revises t' t'') :
    Revises t t'' where
  sparseSets := h'.sparseSets.trans h.sparseSets
  sparseArena := h'.sparseArena.trans h.sparseArena
  boundedSets := h'.boundedSets.trans h.boundedSets
  boundedArena := h'.boundedArena.trans h.boundedArena
  clock := h'.clock.trans h.clock
  size := h'.size.trans h.size
  labels := h'.labels.trans h.labels
  close hl := (h'.close (mt h.levels_ne_nil.1 hl)).trans (h.close hl)
  tracked := h'.tracked

/-- The trail `t'` is `t` after the value `a` has been written to the cell `i`. -/
structure Wrote (t : Trail) (i : Nat) (a : Int) (t' : Trail) : Prop extends Revises t t' where
  content_eq : ∀ j, t'.content j = if j = i then some a else t.content j

theorem Wrote.content_self {t' : Trail} {i : Nat} {a : Int} (h : Wrote t i a t') :
    t'.content i = some a := by
  rw [h.content_eq, if_pos rfl]

theorem Wrote.content_of_ne {t' : Trail} {i j : Nat} {a : Int} (h : Wrote t i a t')
    (hj : j ≠ i) : t'.content j = t.content j := by
  rw [h.content_eq, if_neg hj]

theorem content_set {cells : Array Cell} {i : Nat} (hi : i < cells.size) (x : Cell) (j : Nat) :
    ((cells.setIfInBounds i x)[j]?).map (·.value) =
      if j = i then some x.value else (cells[j]?).map (·.value) := by
  rw [Array.getElem?_setIfInBounds]
  by_cases h : i = j
  · subst h
    simp [hi]
  · rw [if_neg h, if_neg (Ne.symm h)]

theorem stamp_le_set {cells : Array Cell} {n i j : Nat} {x d : Cell}
    (h : ∀ (k : Nat) (c : Cell), cells[k]? = some c → c.stamp ≤ n) (hx : x.stamp ≤ n)
    (hd : (cells.setIfInBounds i x)[j]? = some d) : d.stamp ≤ n := by
  rw [Array.getElem?_setIfInBounds] at hd
  split at hd
  · split at hd
    · cases hd; exact hx
    · cases hd
  · exact h j d hd

/-- `Wrote` for a write that is recorded. -/
theorem wrote_of_recorded (h : t.Tracked) {i : Nat} {c : Cell} (hc : t.cells[i]? = some c)
    (hs : c.stamp < t.clock) (a : Int) : Wrote t i a (t.write i c a) := by
  have hi : i < t.cells.size := (Array.getElem?_eq_some_iff.1 hc).1
  rw [write, if_pos hs]
  cases hl : t.levels with
  | nil =>
    simp only [record, hl]
    refine ⟨⟨rfl, rfl, rfl, rfl, rfl, by simp, by simp [labels, hl], fun hn => absurd hl hn,
      ⟨fun j d hd => ?_, by simp, by simp⟩⟩, content_set hi _⟩
    exact stamp_le_set h.stamp_le (Nat.le_refl _) hd
  | cons l ls =>
    simp only [record, hl]
    refine ⟨⟨rfl, rfl, rfl, rfl, rfl, by simp, by simp [labels, hl], fun _ => ?_,
      ⟨fun j d hd => ?_, fun m hm => ?_, fun m ms hm j hj d hd hjd => ?_⟩⟩, content_set hi _⟩
    · rw [close_of_cons hl]
      simp only [close, truncate]
      rw [undo_set_now _ _ hc]
    · exact stamp_le_set h.stamp_le (Nat.le_refl _) hd
    · simp only [List.mem_cons] at hm
      rcases hm with rfl | hm
      · exact h.clock_le l (by rw [hl]; exact List.mem_cons_self)
      · exact h.clock_le m (by rw [hl]; exact List.mem_cons_of_mem _ hm)
    · obtain ⟨rfl, -⟩ := List.cons.inj hm
      by_cases hji : i = j
      · exact ⟨_, List.mem_cons_self, hji⟩
      · rw [Array.getElem?_setIfInBounds, if_neg hji] at hd
        obtain ⟨x, hx, hxj⟩ := h.covers l ls hl j hj d hd hjd
        exact ⟨x, List.mem_cons_of_mem _ hx, hxj⟩

/-- `Wrote` for a write to a cell whose stamp is not behind the clock. -/
theorem wrote_of_current (h : t.Tracked) {i : Nat} {c : Cell} (hc : t.cells[i]? = some c)
    (hs : ¬c.stamp < t.clock) (a : Int) : Wrote t i a (t.write i c a) := by
  have hi : i < t.cells.size := (Array.getElem?_eq_some_iff.1 hc).1
  rw [write, if_neg hs]
  refine ⟨⟨rfl, rfl, rfl, rfl, rfl, by simp, rfl, fun hn => ?_,
    ⟨fun j d hd => ?_, h.clock_le, fun l ls hl j hj d hd hjd => ?_⟩⟩, content_set hi _⟩
  · cases hl : t.levels with
    | nil => exact absurd hl hn
    | cons l ls =>
      have hclock := h.clock_le l (by rw [hl]; exact List.mem_cons_self)
      rw [close_of_cons hl, close_of_cons (t := { t with levels := l :: ls, cells := _ }) rfl]
      simp only [truncate]
      congr 1
      by_cases hil : i < l.extent.cells
      · rw [undo_set_recorded _ (h.covers l ls hl i hil c hc (by omega))]
      · refine take_undo_agree _ (.inl (by simp)) fun j hj => ?_
        rw [Array.getElem?_setIfInBounds, if_neg (by omega)]
  · exact stamp_le_set (x := ⟨c.stamp, a⟩) h.stamp_le (h.stamp_le i c hc) hd
  · simp only [Array.getElem?_setIfInBounds] at hd
    split at hd
    · next he =>
      subst he
      have hclock := h.clock_le l (by rw [hl]; exact List.mem_cons_self)
      exact h.covers l ls hl i hj c hc (by omega)
    · exact h.covers l ls hl j hj d hd hjd

theorem Tracked.write (h : t.Tracked) {i : Nat} {c : Cell} (hc : t.cells[i]? = some c)
    (a : Int) : Wrote t i a (t.write i c a) := by
  by_cases hs : c.stamp < t.clock
  · exact wrote_of_recorded h hc hs a
  · exact wrote_of_current h hc hs a

end Trail

/-! ## Reading and writing a cell -/

namespace IntRef

variable {t : Trail} {r : IntRef} {a : Int}

theorem get_eq (h : t.content r.index = some a) : r.get t = .ok a := by
  obtain ⟨c, hc, rfl⟩ := Trail.content_eq_some.1 h
  rw [get, Checked.fetch_eq_ok.2 hc]
  rfl

theorem getNat_eq {n : Nat} (h : t.content r.index = some (n : Int)) (hn : n < 2 ^ 64) :
    r.getNat t = .ok n := by
  have hu : Checked.toUnsigned (n : Int) = n := by
    rw [Checked.toUnsigned_of_nonneg (by omega) (by omega)]
    rfl
  rw [getNat, get_eq h]
  exact congrArg Except.ok hu

theorem set_eq (ht : t.Tracked) (h : t.content r.index = some a) (b : Int) :
    ∃ t', r.set b t = .ok b t' ∧ Trail.Wrote t r.index b t' := by
  obtain ⟨c, hc, rfl⟩ := Trail.content_eq_some.1 h
  have hfetch : Checked.fetch t.cells r.index = .ok c := Checked.fetch_eq_ok.2 hc
  by_cases he : c.value = b
  · refine ⟨t, ?_, ht.revises_self, fun j => ?_⟩
    · simp only [set, Update.bind_apply, Update.query_apply, hfetch, he]
      rfl
    · split
      · next hj => rw [hj, h, he]
      · rfl
  · refine ⟨_, ?_, ht.write hc b⟩
    simp only [set, Update.bind_apply, Update.query_apply, hfetch, if_neg he]
    rfl

theorem add_eq (ht : t.Tracked) (h : t.content r.index = some a) {d b : Int}
    (hb : Checked.int (a + d) = .ok b) :
    ∃ t', r.add d t = .ok b t' ∧ Trail.Wrote t r.index b t' := by
  obtain ⟨t', hset, hw⟩ := set_eq ht h b
  refine ⟨t', ?_, hw⟩
  simp only [add, Update.bind_apply, Update.query_apply, get_eq h, hb, hset]

end IntRef

end Propagation
