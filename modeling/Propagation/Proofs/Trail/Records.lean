import Mathlib.Algebra.Order.BigOperators.Group.Finset
import Mathlib.Algebra.BigOperators.Group.Finset.Basic
import Propagation.Proofs.Trail.RoundTrip
import Propagation.Proofs.Trail.Stamps

/-!
# How many records there are

A write is recorded when the stamp of its cell is behind the clock, and the clock moves on with
every level that is opened, also with those that are closed again. So a level has at most one record
of a cell for itself and one for each level that was opened within it (`Recalls.length_formers_le`),
and the trail has at most one for each cell and each level that was ever opened (`Dated.length_le`):
`records_bounded`. The levels that are still open give no bound (`exists_long`).
-/

set_option autoImplicit false

namespace Propagation

open Update

/-- A list of falling numbers between two bounds is no longer than their distance. -/
theorem length_le_of_falling {xs : List Nat} {a b : Nat} (h : xs.Pairwise fun x y => y < x)
    (ha : ∀ x ∈ xs, a ≤ x) (hb : ∀ x ∈ xs, x < b) : xs.length ≤ b - a := by
  induction xs generalizing b with
  | nil => exact Nat.zero_le _
  | cons x xs ih =>
    obtain ⟨hx, hxs⟩ := List.pairwise_cons.1 h
    have hlen := ih hxs (fun y hy => ha y (List.mem_cons_of_mem _ hy)) hx
    have h1 := ha x List.mem_cons_self
    have h2 := hb x List.mem_cons_self
    rw [List.length_cons]
    omega

/-- The length of a list of changes of `n` cells, with at most `k` for each. -/
theorem length_le_of_formers {cs : List Change} {n k : Nat} (hn : ∀ c ∈ cs, c.cell < n)
    (hk : ∀ i, (formers cs i).length ≤ k) : cs.length ≤ n * k := by
  have hcount : ∀ i, (cs.map (·.cell)).count i = (formers cs i).length := by
    intro i
    rw [List.count_eq_length_filter, List.filter_map, List.length_map, formers, List.length_map]
    rfl
  have hmem : ∀ i ∈ (cs.map (·.cell) : Multiset Nat), i ∈ Finset.range n := by
    intro i hi
    obtain ⟨c, hc, rfl⟩ := List.mem_map.1 (Multiset.mem_coe.1 hi)
    exact Finset.mem_range.2 (hn c hc)
  have hsum := Multiset.sum_count_eq_card hmem
  simp only [Multiset.coe_count, Multiset.coe_card, List.length_map] at hsum
  calc cs.length = ∑ i ∈ Finset.range n, (cs.map (·.cell)).count i := hsum.symm
    _ ≤ (Finset.range n).card * k := by
        refine Finset.sum_le_card_nsmul _ _ _ fun i _ => ?_
        rw [hcount]
        exact hk i
    _ = n * k := by rw [Finset.card_range]

namespace Trail

variable {t : Trail} {i : Nat}

namespace Dated

section
variable (hd : t.Dated)
include hd

theorem stamp_lt_of_former {x : Cell} (hx : x ∈ formers t.records i) : x.stamp < t.clock := by
  by_cases hi : i < t.cells.size
  · have hc : t.cells[i]? = some t.cells[i] := Array.getElem?_eq_getElem hi
    have hfall := (List.pairwise_cons.1 (hd.falling i _ hc)).1 x hx
    exact Nat.lt_of_lt_of_le hfall (hd.stamp_le i _ hc)
  · rw [hd.formers_records (by omega)] at hx
    cases hx

/-- The recorded stamps of a cell are falling. -/
theorem falling_formers (i : Nat) :
    ((formers t.records i).map (·.stamp)).Pairwise fun x y => y < x := by
  rw [List.pairwise_map]
  by_cases hi : i < t.cells.size
  · exact (List.pairwise_cons.1 (hd.falling i _ (Array.getElem?_eq_getElem hi))).2
  · rw [hd.formers_records (by omega)]
    exact .nil

/-- The trail has at most one record for each cell and each level that was ever opened. -/
theorem length_le : t.length ≤ t.cells.size * t.clock := by
  rw [← length_records]
  refine length_le_of_formers hd.there fun i => ?_
  have hle := length_le_of_falling (hd.falling_formers i) (a := 0) (b := t.clock)
    (fun _ _ => Nat.zero_le _) fun x hx => by
      obtain ⟨c, hc, rfl⟩ := List.mem_map.1 hx
      exact hd.stamp_lt_of_former hc
  rwa [List.length_map] at hle

/-- The innermost level has at most one record of a cell for each level opened since, itself
included: the stamps of all but the oldest record are of its own time. -/
theorem length_formers_le {l : Level} {ls : List Level} (hl : t.levels = l :: ls) (i : Nat) :
    (formers l.changes i).length ≤ t.clock + 1 - l.clock := by
  by_cases hi : i < t.cells.size
  · have hc : t.cells[i]? = some t.cells[i] := Array.getElem?_eq_getElem hi
    have hfall := hd.falling i _ hc
    rw [records_of_cons hl, formers_append, ← List.cons_append] at hfall
    have hlevel := (List.pairwise_append.1 hfall).1
    have hle := length_le_of_falling (a := l.clock) (b := t.clock + 1)
      (List.pairwise_map.2 (hlevel.sublist (List.dropLast_sublist _)) :
        (((t.cells[i] :: formers l.changes i).dropLast).map (·.stamp)).Pairwise fun x y => y < x)
      (fun x hx => by
        obtain ⟨c, hm, rfl⟩ := List.mem_map.1 hx
        exact hd.fresh l ls hl i _ hc c hm)
      (fun x hx => by
        obtain ⟨c, hm, rfl⟩ := List.mem_map.1 hx
        obtain rfl | hm := List.mem_cons.1 (List.mem_of_mem_dropLast hm)
        · exact Nat.lt_succ_of_le (hd.stamp_le i _ hc)
        · have hrecord : c ∈ formers t.records i := by
            rw [records_of_cons hl, formers_append]
            exact List.mem_append_left _ hm
          exact Nat.lt_succ_of_lt (hd.stamp_lt_of_former hrecord))
    simpa using hle
  · rw [hd.formers_level hl (by omega)]
    exact Nat.zero_le _

end

end Dated

/-- The bound for any open level, with the clock at which the next level within it was opened. -/
theorem Recalls.length_formers_le {us : List Trail} (h : Recalls t us) {n : Nat} {u v : Trail}
    (hu : us[n]? = some u) (hv : (t :: us)[n]? = some v) {l : Level} (hl : t.levels[n]? = some l)
    (i : Nat) : (formers l.changes i).length ≤ v.clock - u.clock := by
  obtain ⟨hrest, hlevels⟩ := h.drop hv
  obtain ⟨hn, rfl⟩ := List.getElem?_eq_some_iff.1 hl
  obtain ⟨hn', rfl⟩ := List.getElem?_eq_some_iff.1 hu
  rw [List.drop_eq_getElem_cons hn] at hlevels
  rw [List.drop_eq_getElem_cons hn'] at hrest
  have hle := hrest.dated.length_formers_le hlevels i
  cases hrest with
  | within hd hl' hclock _ _ _ =>
    rw [hlevels] at hl'
    obtain ⟨rfl, -⟩ := List.cons.inj hl'
    omega

/-- The clock is the number of calls that have opened a level. -/
theorem clock_ofCalls (cs : List Call) :
    (History.ofCalls cs).now.clock = cs.countP (·.opens) := by
  have hafter : ∀ (h : History) (c : Call),
      (h.after c).now.clock = h.now.clock + if c.opens then 1 else 0 := by
    intro h c
    show (c.perform.after h.now).clock = _
    cases ho : c.opens with
    | true => rw [Call.after_opens ho]; rfl
    | false =>
      cases hc : c.closes with
      | true =>
        obtain ⟨n, -, ht⟩ := Call.after_closes hc h.now
        rw [ht, clock_closeMany]
        rfl
      | false => exact congrArg Prod.fst (Call.edits edits_clocks ho hc h.now rfl)
  have hall : ∀ h : History,
      (cs.foldl History.after h).now.clock = h.now.clock + cs.countP (·.opens) := by
    induction cs with
    | nil => exact fun h => rfl
    | cons c cs ih =>
      intro h
      rw [List.foldl_cons, ih, hafter, List.countP_cons]
      omega
  exact (hall .start).trans (Nat.zero_add _)

/-! ## Long trails -/

theorem Runs.append {t u v : Trail} {cs ds : List Call} (h : Runs t cs u) (h' : Runs u ds v) :
    Runs t (cs ++ ds) v := by
  induction h with
  | nil t => exact h'
  | cons hlive hc _ ih => exact .cons hlive hc (ih h')

/-- A trail of one cell and one level, with `n` records of the cell, of which the next write makes
another. -/
structure Lengthy (t : Trail) (n : Nat) : Prop where
  valid : t.Valid
  cells : ∃ c, t.cells = #[c] ∧ c.value = n ∧ c.stamp < t.clock
  levels : ∃ l, t.levels = [l] ∧ l.changes.length = n
  base : t.baseChanges = []
  sparseSets : t.sparseSets = #[]
  boundedSets : t.boundedSets = #[]

/-- One more record of the cell, after a level within has been opened and closed. -/
theorem Lengthy.again {t : Trail} {n : Nat} (h : t.Lengthy n) :
    ∃ t', Runs t [.setInt ⟨0⟩ (n + 1 : Nat), .save, .restore] t' ∧ t'.Lengthy (n + 1) := by
  obtain ⟨c, hcells, hvalue, hstamp⟩ := h.cells
  obtain ⟨l, hlevels, hlen⟩ := h.levels
  have hc : t.cells[0]? = some c := by simp [hcells]
  have hlive : (Call.setInt ⟨0⟩ (n + 1 : Nat)).live t = true := by
    have hfree : t.isFree 0 = true := by simp [isFree, h.sparseSets, h.boundedSets]
    show (t.view.int 0).isSome = true
    rw [view_int_eq, if_pos hfree, content, hc]
    rfl
  have hset : (Call.setInt ⟨0⟩ (n + 1 : Nat)).perform t = .ok () (t.write 0 c (n + 1 : Nat)) := by
    have hne : ¬c.value = ((n + 1 : Nat) : Int) := by omega
    simp only [Call.perform, IntRef.set, discard_apply, bind_apply, query_apply,
      Checked.fetch_eq_ok.2 hc, if_neg hne, modify_apply, pure_apply]
  have hwrite : t.write 0 c (n + 1 : Nat) = { t with
      cells := #[⟨t.clock, (n + 1 : Nat)⟩]
      levels := [{ l with changes := ⟨0, c⟩ :: l.changes }] } := by
    rw [write, if_pos hstamp]
    simp [record, hlevels, hcells]
  have hvalid : (t.write 0 c (n + 1 : Nat)).Valid :=
    (Call.passes h.valid hlive hset).valid h.valid
  have hclose := close_save hvalid.sound
  refine ⟨_, .cons hlive hset (.cons rfl rfl (.cons rfl rfl (.nil _))), hvalid.save.close, ?_, ?_,
    ?_, ?_, ?_⟩
  all_goals rw [hclose, hwrite]
  · exact ⟨_, rfl, rfl, Nat.lt_succ_self _⟩
  · exact ⟨_, rfl, by simp [hlen]⟩
  · exact h.base
  · exact h.sparseSets
  · exact h.boundedSets

/-- The length of the trail is not bounded by the numbers of cells and of open levels. -/
theorem exists_long (n : Nat) :
    ∃ cs t, Runs empty cs t ∧ t.cells.size = 1 ∧ t.depth = 1 ∧ t.length = n := by
  have hall : ∃ cs t, Runs empty cs t ∧ t.Lengthy n := by
    induction n with
    | zero =>
      have hrun : Runs empty [.newInt 0, .save] (empty.addInt 0).2.save :=
        .cons rfl rfl (.cons rfl rfl (.nil _))
      exact ⟨_, _, hrun, hrun.valid valid_empty, ⟨_, rfl, rfl, Nat.zero_lt_one⟩, ⟨_, rfl, rfl⟩,
        rfl, rfl, rfl⟩
    | succ n ih =>
      obtain ⟨cs, t, hcs, ht⟩ := ih
      obtain ⟨t', hrun, ht'⟩ := ht.again
      exact ⟨_, t', hcs.append hrun, ht'⟩
  obtain ⟨cs, t, hcs, ht⟩ := hall
  obtain ⟨c, hcells, -⟩ := ht.cells
  obtain ⟨l, hlevels, hlen⟩ := ht.levels
  refine ⟨cs, t, hcs, by simp [hcells], by simp [depth, hlevels], ?_⟩
  simp [length, ht.base, hlevels, hlen]

/-! ## After any calls -/

/-- Each open level has at most one record of a cell for itself, and one for each level opened
within it before the next one that is open. -/
def History.Sparing (h : History) : Prop :=
  ∀ (n : Nat) (u v : Trail) (l : Level), h.opened[n]? = some u →
    (h.now :: h.opened)[n]? = some v → h.now.levels[n]? = some l →
      ∀ i, (formers l.changes i).length ≤ v.clock - u.clock

/-- After any calls every level is `Sparing`, in particular a cell is recorded at most once in it
before a level is opened within; and the length of the trail is at most the number of cells times
the number of levels that were ever opened. -/
theorem records_bounded (cs : List Call) : (History.ofCalls cs).Sparing ∧
    (History.ofCalls cs).now.length ≤
      (History.ofCalls cs).now.cells.size * cs.countP (·.opens) := by
  have hr := recalls_ofCalls cs
  refine ⟨fun n u v l hu hv hl i => hr.length_formers_le hu hv hl i, ?_⟩
  rw [← clock_ofCalls]
  exact hr.dated.length_le

/-- A cell is recorded once more after each level that is opened and closed again. -/
theorem exists_repeated_record : ∃ t, Runs empty [.newInt 0, .save, .setInt ⟨0⟩ 1, .save, .restore,
      .setInt ⟨0⟩ 2, .save, .restore, .setInt ⟨0⟩ 3] t ∧
    t.cells.size = 1 ∧ t.depth = 1 ∧ (∃ l ∈ t.levels, (formers l.changes 0).length = 3) ∧
    t.length = 3 := by
  have hplay : (play [.newInt 0, .save, .setInt ⟨0⟩ 1, .save, .restore, .setInt ⟨0⟩ 2, .save,
      .restore, .setInt ⟨0⟩ 3] empty).any (fun t => decide (t.cells.size = 1 ∧ t.depth = 1 ∧
        (∃ l ∈ t.levels, (formers l.changes 0).length = 3) ∧ t.length = 3)) = true := by
    decide +kernel
  obtain ⟨t, h, ht⟩ := (Option.any_eq_true _ _).1 hplay
  exact ⟨t, runs_of_play h, of_decide_eq_true ht⟩

end Trail

end Propagation
