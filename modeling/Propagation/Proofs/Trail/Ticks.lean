import Propagation.Proofs.Trail.Cells
import Propagation.Proofs.Trail.Edits

/-!
# Clocks of the open levels

What a call on a trail does to its levels (`Ticks`): nothing, or it opens one at a new clock, or it
closes some. This holds of every call, also on a handle whose resource is gone and also of one that
ends in a fault. So clocks never come back, and a mark is live iff more levels than it counts have
been open ever since it was taken (`Holds.isLive_run`).
-/

set_option autoImplicit false

namespace Propagation

open Update

namespace Trail

/-- The clock, and the clocks of the open levels, innermost first. -/
def clocks (t : Trail) : Nat × List Nat := (t.clock, t.levels.map (·.clock))

/-! ## Calls that are not about levels -/

theorem clocks_record (t : Trail) (c : Change) : (t.record c).clocks = t.clocks := by
  cases h : t.levels <;> simp [record, clocks, h]

theorem clocks_write (t : Trail) (i : Nat) (c : Cell) (a : Int) :
    (t.write i c a).clocks = t.clocks := by
  unfold write
  split
  · exact clocks_record t ⟨i, c⟩
  · rfl

/-- Edits keep the clocks. -/
theorem edits_clocks : Edits fun t t' => t'.clocks = t.clocks where
  toOnward := onward_eq clocks
  addInt _ _ := rfl
  write _ _ _ := clocks_write _ _ _ _
  arrange _ _ _ _ _ := rfl

/-! ## Calls -/

/-- The ways in which a call may change the levels. -/
inductive Ticks (t t' : Trail) : Prop
  | same (h : t'.clocks = t.clocks)
  | opened (h : t'.clocks = (t.clock + 1, (t.clock + 1) :: t.clocks.2))
  | closed (n : Nat) (h : t'.clocks = (t.clock, t.clocks.2.drop n))

theorem clocks_close (t : Trail) : t.close.clocks = (t.clock, t.clocks.2.drop 1) := by
  cases h : t.levels with
  | nil => simp [clocks, close_of_nil h, h]
  | cons l ls => simp [clocks, levels_close_of_cons h, h]

theorem clocks_closeMany (t : Trail) (n : Nat) :
    (t.closeMany n).clocks = (t.clock, t.clocks.2.drop n) := by
  induction n generalizing t with
  | zero => rfl
  | succ n ih => rw [closeMany, ih, clocks_close, clock_close, List.drop_drop, Nat.add_comm]

theorem restore_apply (t : Trail) : restore t =
    if t.levels.isEmpty then .error (.violation .noOpenLevel) t else .ok () t.close := rfl

theorem rollback_apply (m : Mark) (t : Trail) : rollback m t =
    if t.isLive m then .ok () (t.closeMany (t.depth - m.depth))
    else .error (.violation (.staleMark m)) t := rfl

theorem Call.after_opens {c : Call} (hc : c.opens = true) (t : Trail) :
    c.perform.after t = t.save := by
  cases c with
  | save => rfl
  | checkpoint => rfl
  | _ => cases hc

/-- A call that closes levels ends in a fault if it closes none. -/
theorem Call.after_closes {c : Call} (hc : c.closes = true) (t : Trail) :
    ∃ n ≤ t.depth, c.perform.after t = t.closeMany n := by
  cases c with
  | restore =>
    rw [perform, after, restore_apply]
    by_cases hl : t.levels.isEmpty = true
    · rw [if_pos hl]
      exact ⟨0, Nat.zero_le _, rfl⟩
    · rw [if_neg hl]
      refine ⟨1, List.length_pos_iff.2 ?_, rfl⟩
      simpa using hl
  | rollback m =>
    rw [perform, after, rollback_apply]
    by_cases hm : t.isLive m = true
    · rw [if_pos hm]
      exact ⟨_, Nat.sub_le _ _, rfl⟩
    · rw [if_neg hm]
      exact ⟨0, Nat.zero_le _, rfl⟩
  | _ => cases hc

theorem Call.ticks (c : Call) (t : Trail) : Ticks t (c.perform.after t) := by
  cases ho : c.opens with
  | true =>
    rw [Call.after_opens ho]
    exact .opened rfl
  | false =>
    cases hc : c.closes with
    | true =>
      obtain ⟨n, -, h⟩ := Call.after_closes hc t
      rw [h]
      exact .closed n (clocks_closeMany t n)
    | false => exact .same (Call.edits edits_clocks ho hc t rfl)

/-! ## Marks -/

theorem length_clocks (t : Trail) : t.clocks.2.length = t.depth := by
  rw [clocks, List.length_map, depth]

theorem isLive_iff_clocks (t : Trail) (m : Mark) :
    t.isLive m = true ↔ t.clocks.2.reverse[m.depth]? = some m.clock := by
  rw [isLive, clocks, ← List.map_reverse, List.getElem?_map]
  cases t.levels.reverse[m.depth]? <;> simp

/-- The level of the mark `m` is open. -/
def Holds (t : Trail) (m : Mark) : Prop :=
  m.clock ≤ t.clock ∧ t.clocks.2.reverse[m.depth]? = some m.clock

/-- The level of the mark `m` has been closed: the one open at its depth is newer. -/
def Lost (t : Trail) (m : Mark) : Prop :=
  m.clock ≤ t.clock ∧ ∀ x, t.clocks.2.reverse[m.depth]? = some x → m.clock < x

variable {t t' : Trail} {m : Mark}

theorem Holds.lt_depth (h : t.Holds m) : m.depth < t.depth := by
  obtain ⟨hlt, -⟩ := List.getElem?_eq_some_iff.1 h.2
  rwa [List.length_reverse, length_clocks] at hlt

theorem Lost.not_isLive (h : t.Lost m) : t.isLive m ≠ true := fun hl =>
  Nat.lt_irrefl _ (h.2 _ ((isLive_iff_clocks t m).1 hl))

theorem holds_checkpoint (t : Trail) : t.checkpoint.2.Holds t.checkpoint.1 := by
  refine ⟨Nat.le_refl _, ?_⟩
  show ((t.clock + 1) :: t.clocks.2).reverse[t.depth]? = some (t.clock + 1)
  rw [List.reverse_cons, ← length_clocks, ← List.length_reverse, List.getElem?_concat_length]

/-- A step keeps the clocks below a depth that is open before and after it, and any other clock is
newer than those before. -/
theorem Ticks.getElem? (h : Ticks t t') (d : Nat) :
    t.clock ≤ t'.clock ∧ (d < t.depth → d < t'.depth →
      t'.clocks.2.reverse[d]? = t.clocks.2.reverse[d]?) ∧
    ∀ x, t'.clocks.2.reverse[d]? = some x →
      t.clocks.2.reverse[d]? = some x ∨ t.clock < x := by
  have hclock : t'.clock = t'.clocks.1 := rfl
  cases h with
  | same h =>
    rw [hclock, h]
    exact ⟨Nat.le_refl _, fun _ _ => rfl, fun _ hx => .inl hx⟩
  | opened h =>
    rw [hclock, h]
    simp only [List.reverse_cons]
    refine ⟨Nat.le_succ _, fun hd _ => ?_, fun x hx => ?_⟩
    · rw [List.getElem?_append_left (by rwa [List.length_reverse, length_clocks])]
    · by_cases hd : d < t.clocks.2.reverse.length
      · rw [List.getElem?_append_left hd] at hx
        exact .inl hx
      · rw [List.getElem?_append_right (by omega)] at hx
        obtain ⟨-, rfl⟩ := List.getElem?_eq_some_iff.1 hx
        rw [List.getElem_singleton]
        exact .inr (Nat.lt_succ_self _)
  | closed n h =>
    rw [hclock, ← length_clocks t', h, List.reverse_drop, List.length_drop]
    refine ⟨Nat.le_refl _, fun _ hd' => ?_, fun x hx => ?_⟩
    · rw [List.getElem?_take, if_pos hd']
    · rw [List.getElem?_take] at hx
      split at hx
      · exact .inl hx
      · cases hx

theorem Holds.ticks (h : t.Holds m) (ht : Ticks t t') (hd : m.depth < t'.depth) :
    t'.Holds m := by
  obtain ⟨hclock, hkept, -⟩ := ht.getElem? m.depth
  exact ⟨Nat.le_trans h.1 hclock, by rw [hkept h.lt_depth hd, h.2]⟩

theorem Holds.lost (h : t.Holds m) (ht : Ticks t t') (hd : ¬m.depth < t'.depth) :
    t'.Lost m := by
  obtain ⟨hclock, -, -⟩ := ht.getElem? m.depth
  refine ⟨Nat.le_trans h.1 hclock, fun x hx => absurd ?_ hd⟩
  obtain ⟨hlt, -⟩ := List.getElem?_eq_some_iff.1 hx
  rwa [List.length_reverse, length_clocks] at hlt

theorem Lost.ticks (h : t.Lost m) (ht : Ticks t t') : t'.Lost m := by
  obtain ⟨hclock, -, hnew⟩ := ht.getElem? m.depth
  refine ⟨Nat.le_trans h.1 hclock, fun x hx => ?_⟩
  rcases hnew x hx with hx | hx
  · exact h.2 x hx
  · exact Nat.lt_of_le_of_lt h.1 hx

/-- More than `d` levels are open after each prefix of the calls `cs` on `s`. -/
def StaysAbove {σ κ : Type} (after : σ → κ → σ) (depth : σ → Nat) (d : Nat) (s : σ)
    (cs : List κ) : Prop :=
  ∀ done, done <+: cs → d < depth (done.foldl after s)

section
variable {σ κ : Type} {after : σ → κ → σ} {depth : σ → Nat} {d : Nat} {s : σ}

theorem staysAbove_nil : StaysAbove after depth d s [] ↔ d < depth s := by
  refine ⟨fun h => h [] List.nil_prefix, fun h done hdone => ?_⟩
  rw [List.prefix_nil.1 hdone]
  exact h

theorem staysAbove_cons {c : κ} {cs : List κ} : StaysAbove after depth d s (c :: cs) ↔
    d < depth s ∧ StaysAbove after depth d (after s c) cs := by
  constructor
  · refine fun h => ⟨h [] List.nil_prefix, fun done hdone => ?_⟩
    exact h (c :: done) ((List.prefix_cons_inj c).2 hdone)
  · rintro ⟨h, hcs⟩ done hdone
    rcases List.prefix_cons_iff.1 hdone with rfl | ⟨rest, rfl, hrest⟩
    · exact h
    · exact hcs rest hrest

end

section
variable {σ κ : Type} {after : σ → κ → σ} {trail : σ → Trail} {inv : σ → Prop}
  (hinv : ∀ s c, inv s → inv (after s c))
  (hticks : ∀ s c, inv s → Ticks (trail s) (trail (after s c)))
include hinv hticks

theorem Lost.run (cs : List κ) {s : σ} (hs : inv s) (h : (trail s).Lost m) :
    (trail (cs.foldl after s)).Lost m := by
  induction cs generalizing s with
  | nil => exact h
  | cons c cs ih => exact ih (hinv s c hs) (h.ticks (hticks s c hs))

/-- After any calls on a system over a trail, a mark is live iff its level has not been closed
since. -/
theorem Holds.isLive_run (cs : List κ) {s : σ} (hs : inv s) (h : (trail s).Holds m) :
    (trail (cs.foldl after s)).isLive m = true ↔
      StaysAbove after (fun s => (trail s).depth) m.depth s cs := by
  induction cs generalizing s with
  | nil => exact ⟨fun _ => staysAbove_nil.2 h.lt_depth, fun _ => (isLive_iff_clocks _ _).2 h.2⟩
  | cons c cs ih =>
    rw [staysAbove_cons, List.foldl_cons]
    by_cases hd : m.depth < (trail (after s c)).depth
    · rw [ih (hinv s c hs) (h.ticks (hticks s c hs) hd)]
      exact ⟨fun hs => ⟨h.lt_depth, hs⟩, fun hs => hs.2⟩
    · have hlost := (h.lost (hticks s c hs) hd).run hinv hticks cs (hinv s c hs)
      exact ⟨fun hl => absurd hl hlost.not_isLive, fun hs => absurd (hs.2 [] List.nil_prefix) hd⟩

end

/-- After any calls on a trail, a mark is live iff its level has not been closed since. -/
theorem isLive_run (t : Trail) (cs : List Call) :
    (cs.foldl (fun t c => c.perform.after t) t.checkpoint.2).isLive t.checkpoint.1 = true ↔
      StaysAbove (fun t (c : Call) => c.perform.after t) depth t.checkpoint.1.depth
        t.checkpoint.2 cs :=
  @Holds.isLive_run _ _ _ (fun t (c : Call) => c.perform.after t) id (fun _ => True) (fun _ _ h => h)
    (fun t c _ => c.ticks t) cs _ trivial (holds_checkpoint t)

end Trail

end Propagation
