import Propagation.Proofs.Trail.BoundedSet
import Propagation.Proofs.Trail.Create
import Propagation.Proofs.Trail.Level
import Propagation.Proofs.Trail.SparseSet
import Propagation.Proofs.Trail.Ticks

/-!
# Round trips

Closing a level gives back the trail on which it was opened, after any calls on live handles
(`Runs`). `Call.passes` is the inversion of one call; `Returns` is the invariant that closing the
level will give back the trail; `Agrees` is that all queries of two trails answer alike.
-/

set_option autoImplicit false

namespace Propagation.Trail

open Update

variable {t t' : Trail}

/-! ## Calls on live handles -/

/-- The resource of the call is on the trail `t`. A cell that a set uses is not a resource of its
own. -/
def Call.live (t : Trail) : Call → Bool
  | setInt r _ | addInt r _ => (t.view.int r.index).isSome
  | setBool r _ | flip r => (t.view.int r.cell.index).isSome
  | remove r _ | removeAll r | removeAllBut r _ | removeBelow r _ | removeAbove r _ =>
    decide (r.index < t.sparseSets.size)
  | enforce r _ | exclude r _ => decide (r.index < t.boundedSets.size)
  | _ => true

/-- The call makes or writes a cell. -/
def Call.onCell : Call → Bool
  | newInt _ | newBool _ | setInt _ _ | addInt _ _ | setBool _ _ | flip _ => true
  | _ => false

/-- `Runs t cs u`: the calls `cs`, each on a live handle, lead from `t` to `u` without a fault. -/
inductive Runs : Trail → List Call → Trail → Prop
  | nil (t : Trail) : Runs t [] t
  | cons {t u v : Trail} {c : Call} {cs : List Call} (hlive : c.live t = true)
      (hc : c.perform t = .ok () u) (hcs : Runs u cs v) : Runs t (c :: cs) v

/-- The trail after the calls `cs`, if `Runs` holds of them. -/
def play : List Call → Trail → Option Trail
  | [], t => some t
  | c :: cs, t =>
    match c.live t, c.perform t with
    | true, .ok () u => play cs u
    | _, _ => none

theorem runs_of_play {cs : List Call} {t t' : Trail} (h : play cs t = some t') :
    Runs t cs t' := by
  induction cs generalizing t with
  | nil =>
    cases h
    exact .nil _
  | cons c cs ih =>
    unfold play at h
    split at h
    · next hlive hc => exact .cons hlive hc (ih h)
    · cases h

/-- The ways in which a call may change a trail: a change of the current view, a level opened, or
levels closed. -/
inductive Passes (t : Trail) : Trail → Prop
  | turn {v : View} {t' : Trail} (h : Turns t v t') : Passes t t'
  | save : Passes t t.save
  | close (n : Nat) : Passes t (t.closeMany n)

section
variable {α : Type} {x : Op α}

theorem discard_eq_ok (h : (discard x : Op Unit) t = .ok () t') : ∃ a, x t = .ok a t' := by
  rw [discard_apply] at h
  cases hx : x t with
  | ok a u =>
    rw [hx] at h
    cases h
    exact ⟨a, rfl⟩
  | error e u =>
    rw [hx] at h
    cases h

theorem discard_eq_error {e : Fault} (h : (discard x : Op Unit) t = .error e t') :
    x t = .error e t' := by
  rw [discard_apply] at h
  cases hx : x t with
  | ok a u =>
    rw [hx] at h
    cases h
  | error f u =>
    rw [hx] at h
    cases h
    rfl

/-- An update that turns the trail whenever it returns `Passes`. -/
theorem passes_of_ends {ok : α → Trail → Prop} {bad : Fault → Trail → Prop} (hx : Ends x t ok bad)
    (hok : ∀ a u, ok a u → ∃ v, Turns t v u) (h : (discard x : Op Unit) t = .ok () t') :
    Passes t t' := by
  obtain ⟨a, hxt⟩ := discard_eq_ok h
  obtain ⟨v, hv⟩ := hok a t' (hx.of_ok hxt)
  exact .turn hv

theorem turns_of_discard {a : α} {v : View} {u : Trail} (hx : x t = .ok a u) (hu : Turns t v u)
    (h : (discard x : Op Unit) t = .ok () t') : Turns t v t' := by
  obtain ⟨b, hxt⟩ := discard_eq_ok h
  rw [hx] at hxt
  cases hxt
  exact hu

end

theorem exists_sparse_view {r : SparseRef} (h : decide (r.index < t.sparseSets.size) = true) :
    ∃ x, t.view.sparse r.index = some x := by
  have hs := Array.getElem?_eq_getElem (of_decide_eq_true h)
  exact ⟨_, view_sparse hs⟩

theorem exists_bounded_view {r : BoundedRef} (h : decide (r.index < t.boundedSets.size) = true) :
    ∃ x, t.view.bounded r.index = some x := by
  have hs := Array.getElem?_eq_getElem (of_decide_eq_true h)
  exact ⟨_, view_bounded hs⟩

section
variable (hv : t.Valid)
include hv

/-- A call on a live cell writes one free cell. -/
theorem Call.turns_cell {c : Call} (hcell : c.onCell = true) (hc : c.live t = true)
    (h : c.perform t = .ok () t') : ∃ i a, Turns t (t.view.setInt i a) t' := by
  cases c with
  | newInt a => exact ⟨_, _, turns_of_discard (newInt_apply a t) (hv.addInt a) h⟩
  | newBool b => exact ⟨_, _, turns_of_discard (newBool_apply b t) (hv.addInt _) h⟩
  | setInt r a =>
    obtain ⟨b, hb⟩ := Option.isSome_iff_exists.1 hc
    obtain ⟨u, hset, hu⟩ := IntRef.set_free hv hb a
    exact ⟨_, _, turns_of_discard hset hu h⟩
  | addInt r d =>
    obtain ⟨b, hb⟩ := Option.isSome_iff_exists.1 hc
    cases hi : Checked.int (b + d) with
    | ok a =>
      obtain ⟨u, hadd, hu⟩ := IntRef.add_free hv hb hi
      exact ⟨_, _, turns_of_discard hadd hu h⟩
    | error e =>
      obtain ⟨a, ha⟩ := discard_eq_ok h
      rw [IntRef.add_overflow hb hi] at ha
      cases ha
  | setBool r b =>
    obtain ⟨a, ha⟩ := Option.isSome_iff_exists.1 hc
    obtain ⟨u, hset, hu⟩ := BoolRef.set_bit hv ha b
    exact ⟨_, _, turns_of_discard hset hu h⟩
  | flip r =>
    obtain ⟨a, ha⟩ := Option.isSome_iff_exists.1 hc
    obtain ⟨u, hset, hu⟩ := BoolRef.set_bit hv ha (!(a != 0))
    have hget : r.get t = .ok (a != 0) := by
      rw [BoolRef.get, IntRef.get_free ha]
      rfl
    have hflip : r.flip t = .ok (!(a != 0)) u := by
      rw [BoolRef.flip, bind_apply, query_apply, hget]
      exact hset
    exact ⟨_, _, turns_of_discard hflip hu h⟩
  | _ => cases hcell

/-- The inversion of a call on a live handle. -/
theorem Call.passes {c : Call} (hc : c.live t = true) (h : c.perform t = .ok () t') :
    Passes t t' := by
  cases c with
  | newInt _ | newBool _ | setInt _ _ | addInt _ _ | setBool _ _ | flip _ =>
    obtain ⟨_, _, hu⟩ := Call.turns_cell hv rfl hc h
    exact .turn hu
  | newSparse n offset =>
    exact passes_of_ends (newSparse_ends hv n offset) (fun _ _ hu => ⟨_, hu.2⟩) h
  | newBounded n => exact passes_of_ends (newBounded_ends hv n) (fun _ _ hu => ⟨_, hu.2⟩) h
  | remove r a =>
    obtain ⟨x, hx⟩ := exists_sparse_view hc
    exact passes_of_ends (SparseRef.remove_ends hv hx a) (fun _ _ hu => ⟨_, hu.2⟩) h
  | removeAll r =>
    obtain ⟨x, hx⟩ := exists_sparse_view hc
    obtain ⟨u, hall, hu⟩ := SparseRef.removeAll_eq hv hx
    cases hall.symm.trans h
    exact .turn hu
  | removeAllBut r a =>
    obtain ⟨x, hx⟩ := exists_sparse_view hc
    exact .turn ((SparseRef.removeAllBut_ends hv hx a).of_ok h)
  | removeBelow r a =>
    obtain ⟨x, hx⟩ := exists_sparse_view hc
    exact .turn ((SparseRef.removeBelow_ends hv hx a).of_ok h)
  | removeAbove r a =>
    obtain ⟨x, hx⟩ := exists_sparse_view hc
    exact .turn ((SparseRef.removeAbove_ends hv hx a).of_ok h)
  | enforce r a =>
    obtain ⟨x, hx⟩ := exists_bounded_view hc
    exact passes_of_ends (BoundedRef.enforce_ends hv hx a) (fun _ _ hu => ⟨_, hu.2.2⟩) h
  | exclude r a =>
    obtain ⟨x, hx⟩ := exists_bounded_view hc
    exact passes_of_ends (BoundedRef.remove_ends hv hx a) (fun _ _ hu => ⟨_, hu.2.2⟩) h
  | save =>
    cases h
    exact .save
  | restore =>
    rw [perform, restore_apply] at h
    split at h
    · cases h
    · cases h
      exact .close 1
  | checkpoint =>
    cases h
    exact .save
  | rollback m =>
    rw [perform, rollback_apply] at h
    split at h
    · cases h
      exact .close _
    · cases h

theorem Passes.valid (h : Passes t t') : t'.Valid := by
  cases h with
  | turn h => exact h.valid
  | save => exact hv.save
  | close n => exact hv.closeMany n

end

theorem Runs.valid {cs : List Call} (h : Runs t cs t') (hv : t.Valid) : t'.Valid := by
  induction h with
  | nil t => exact hv
  | cons hlive hc _ ih => exact ih (Call.passes hv hlive hc |>.valid hv)

/-! ## What closing gives back -/

theorem Matches.close (h : Matches t t') : Matches t.close t'.close := by
  cases hl : t.levels with
  | nil => rwa [close_of_nil hl, close_of_nil (h.levels.trans hl)]
  | cons l ls =>
    rw [close_of_cons hl, close_of_cons (h.levels.trans hl)]
    refine ⟨h.base, rfl, ?_, ?_, ?_, ?_, ?_⟩
    · show (undo t'.cells l.changes).take _ = (undo t.cells l.changes).take _
      rw [h.cells]
    · show t'.sparseSets.take _ = t.sparseSets.take _
      rw [h.sparseSets]
    · show t'.boundedSets.take _ = t.boundedSets.take _
      rw [h.boundedSets]
    · exact Arena.size_truncate_congr h.sparseSlots _
    · exact Arena.size_truncate_congr h.boundedSlots _

theorem matches_withClock (t : Trail) (c : Nat) : Matches t (t.withClock c) :=
  ⟨rfl, rfl, rfl, rfl, rfl, rfl, rfl⟩

theorem Matches.closeMany (h : Matches t t') (n : Nat) :
    Matches (t.closeMany n) (t'.closeMany n) := by
  induction n generalizing t t' with
  | zero => exact h
  | succ n ih => exact ih h.close

theorem closeMany_add (t : Trail) (m n : Nat) :
    t.closeMany (m + n) = (t.closeMany m).closeMany n := by
  induction m generalizing t with
  | zero => rw [Nat.zero_add, closeMany]
  | succ m ih => rw [Nat.add_right_comm, closeMany, closeMany, ih]

/-- Closing the level of the mark `m`, and those within it, gives back `t₀`. -/
structure Returns (t₀ : Trail) (m : Mark) (t : Trail) : Prop where
  valid : t.Valid
  back : ∃ newer, t.past = newer ++ (m.clock, t₀.view) :: t₀.past ∧
    Matches t₀ (t.closeMany (newer.length + 1))

variable {t₀ : Trail} {m : Mark}

theorem returns_checkpoint (hv : t₀.Valid) : Returns t₀ t₀.checkpoint.1 t₀.checkpoint.2 := by
  refine ⟨hv.save, [], past_save hv.sound, ?_⟩
  show Matches t₀ t₀.save.close
  rw [close_save hv.sound]
  exact matches_withClock t₀ _

/-- `Returns` is kept by a call that leaves the level open. -/
theorem Returns.passes (h : Returns t₀ m t) (hp : Passes t t') (hd : t₀.depth < t'.depth) :
    Returns t₀ m t' := by
  refine ⟨hp.valid h.valid, ?_⟩
  obtain ⟨newer, hpast, hback⟩ := h.back
  have hlen : t.depth = newer.length + 1 + t₀.depth := by
    rw [← length_past, hpast, List.length_append, List.length_cons, length_past]
    omega
  cases hp with
  | turn ht =>
    refine ⟨newer, ht.past.trans hpast, hback.trans ?_⟩
    have hne : t.levels ≠ [] := by
      intro hnil
      have hzero : t.depth = 0 := congrArg List.length hnil
      omega
    exact (ht.close hne).closeMany newer.length
  | save =>
    refine ⟨(t.clock + 1, t.view) :: newer, ?_, ?_⟩
    · rw [past_save h.valid.sound, hpast]
      rfl
    · show Matches t₀ (t.save.close.closeMany (newer.length + 1))
      rw [close_save h.valid.sound, closeMany_withClock]
      exact hback.trans (matches_withClock _ _)
  | close n =>
    have hn : n ≤ newer.length := by
      rw [depth_closeMany] at hd
      omega
    refine ⟨newer.drop n, ?_, ?_⟩
    · rw [past_closeMany, hpast, List.drop_append_of_le_length hn]
    · rw [← closeMany_add, List.length_drop]
      rwa [show n + (newer.length - n + 1) = newer.length + 1 by omega]

theorem Runs.returns {cs : List Call} (h : Runs t cs t') (ht : Returns t₀ m t)
    (hs : StaysAbove (fun t (c : Call) => c.perform.after t) depth t₀.depth t cs) :
    Returns t₀ m t' := by
  induction h with
  | nil t => exact ht
  | @cons t u v c cs hlive hc _ ih =>
    rw [staysAbove_cons, after_of_ok hc] at hs
    exact ih (ht.passes (Call.passes ht.valid hlive hc) (hs.2 [] List.nil_prefix)) hs.2

theorem Runs.foldl_after {cs : List Call} (h : Runs t cs t') :
    cs.foldl (fun t (c : Call) => c.perform.after t) t = t' := by
  induction h with
  | nil t => rfl
  | cons _ hc _ ih => rw [List.foldl_cons, after_of_ok hc, ih]

/-- `Returns` is kept by a run after which the mark is live. -/
theorem Runs.returns_of_isLive {cs : List Call} (h : Runs t₀.checkpoint.2 cs t) (hv : t₀.Valid)
    (hlive : t.isLive t₀.checkpoint.1 = true) : Returns t₀ t₀.checkpoint.1 t := by
  refine h.returns (returns_checkpoint hv) ?_
  rw [← h.foldl_after] at hlive
  exact (isLive_run t₀ cs).1 hlive

/-! ## Trails that answer alike -/

/-- The queries of `t'` answer as those of `t`, and the numbers of levels, records and resources are
the same. -/
structure Agrees (t t' : Trail) : Prop where
  depth : t'.depth = t.depth
  length : t'.length = t.length
  extent : t'.extent = t.extent
  int : ∀ r : IntRef, r.get t' = r.get t
  bool : ∀ r : BoolRef, r.get t' = r.get t
  size : ∀ r : SparseRef, r.size t' = r.size t
  min : ∀ r : SparseRef, r.min t' = r.min t
  max : ∀ r : SparseRef, r.max t' = r.max t
  contains : ∀ (r : SparseRef) (a : Int), r.contains a t' = r.contains a t
  kernelSize : ∀ r : BoundedRef, r.kernelSize t' = r.kernelSize t
  envelopeSize : ∀ r : BoundedRef, r.envelopeSize t' = r.envelopeSize t
  kernelContains : ∀ (r : BoundedRef) (a : Nat), r.kernelContains a t' = r.kernelContains a t
  envelopeContains : ∀ (r : BoundedRef) (a : Nat),
    r.envelopeContains a t' = r.envelopeContains a t

theorem Matches.get (h : Matches t t') (r : IntRef) : r.get t' = r.get t := by
  rw [IntRef.get, IntRef.get, h.cells]

theorem Matches.getNat (h : Matches t t') (r : IntRef) : r.getNat t' = r.getNat t := by
  rw [IntRef.getNat, IntRef.getNat, h.get]

theorem Matches.sparse_layout (h : Matches t t') (r : SparseRef) : r.layout t' = r.layout t := by
  rw [SparseRef.layout, SparseRef.layout, h.sparseSets]

theorem Matches.bounded_layout (h : Matches t t') (r : BoundedRef) :
    r.layout t' = r.layout t := by
  rw [BoundedRef.layout, BoundedRef.layout, h.boundedSets]

theorem Matches.bound (h : Matches t t') (r : SparseRef) (which : SparseSet → IntRef) :
    r.bound which t' = r.bound which t := by
  simp only [SparseRef.bound, h.sparse_layout, h.get]

/-- A query of a set that is not in the view fails with `.index`. -/
theorem sparse_dead {r : SparseRef} (h : t.view.sparse r.index = none) :
    r.layout t = .error .index := by
  have hs : t.sparseSets[r.index]? = none := Option.map_eq_none_iff.1 h
  rw [SparseRef.layout, Checked.fetch, hs]

theorem bounded_dead {r : BoundedRef} (h : t.view.bounded r.index = none) :
    r.layout t = .error .index := by
  have hs : t.boundedSets[r.index]? = none := Option.map_eq_none_iff.1 h
  rw [BoundedRef.layout, Checked.fetch, hs]

/-- Valid trails with the same view that `Matches` relates agree. -/
theorem Matches.agrees (h : Matches t t') (hv : t.Valid) (hv' : t'.Valid)
    (hview : t'.view = t.view) : Agrees t t' where
  depth := congrArg List.length h.levels
  length := by rw [Trail.length, Trail.length, h.base, h.levels]
  extent := by
    rw [Trail.extent, Trail.extent, h.cells, h.sparseSets, h.boundedSets, h.sparseSlots,
      h.boundedSlots]
  int := h.get
  bool r := by rw [BoolRef.get, BoolRef.get, h.get]
  size r := by simp only [SparseRef.size, h.sparse_layout, h.getNat]
  min r := h.bound r _
  max r := h.bound r _
  contains r a := by
    cases hx : t.view.sparse r.index with
    | none => simp only [SparseRef.contains, h.sparse_layout, sparse_dead hx, bind, Except.bind]
    | some x =>
      rw [SparseRef.contains_eq hv hx, SparseRef.contains_eq hv' (by rw [hview, hx])]
  kernelSize r := by simp only [BoundedRef.kernelSize, h.bounded_layout, h.getNat]
  envelopeSize r := by simp only [BoundedRef.envelopeSize, h.bounded_layout, h.getNat]
  kernelContains r a := by
    cases hx : t.view.bounded r.index with
    | none =>
      simp only [BoundedRef.kernelContains, BoundedRef.isWithin, h.bounded_layout,
        bounded_dead hx, bind, Except.bind]
    | some x =>
      rw [BoundedRef.kernelContains_eq hv hx,
        BoundedRef.kernelContains_eq hv' (by rw [hview, hx])]
  envelopeContains r a := by
    cases hx : t.view.bounded r.index with
    | none =>
      simp only [BoundedRef.envelopeContains, BoundedRef.isWithin, h.bounded_layout,
        bounded_dead hx, bind, Except.bind]
    | some x =>
      rw [BoundedRef.envelopeContains_eq hv hx,
        BoundedRef.envelopeContains_eq hv' (by rw [hview, hx])]

/-! ## Round trips -/

/-- `rollback` to the mark leaves a trail that agrees with `t₀`. -/
theorem Returns.rollback (h : Returns t₀ m t) (hv : t₀.Valid) (hm : m.depth = t₀.depth) :
    ∃ t', rollback m t = .ok () t' ∧ Agrees t₀ t' := by
  obtain ⟨newer, hpast, hback⟩ := h.back
  obtain ⟨t', hroll, rfl, hview, -⟩ :=
    rollback_live (m := m) hpast (by rw [length_past, hm])
  exact ⟨_, hroll, hback.agrees hv (h.valid.closeMany _) hview⟩

/-- `restore` leaves a trail that agrees with `t₀`, if it closes the level of the mark. -/
theorem Returns.restore (h : Returns t₀ m t) (hv : t₀.Valid) (hd : t.depth = t₀.depth + 1) :
    ∃ t', restore t = .ok () t' ∧ Agrees t₀ t' := by
  obtain ⟨newer, hpast, hback⟩ := h.back
  have hnewer : newer = [] := by
    have hlen := congrArg List.length hpast
    rw [length_past, hd, List.length_append, List.length_cons, length_past] at hlen
    exact List.length_eq_zero_iff.1 (by omega)
  subst hnewer
  refine ⟨t.close, ?_, hback.agrees hv h.valid.close (view_closeMany hpast rfl)⟩
  have hne : t.levels.isEmpty = false := by
    cases hl : t.levels with
    | nil => simp [depth, hl] at hd
    | cons l ls => rfl
  rw [restore_apply, hne]
  rfl

/-- Let `t₀` be reached by calls `A` on live handles, and `t` from its checkpoint by such calls `T`,
which may save, restore and roll back. If the mark is still live, `rollback` to it leaves a trail
that agrees with `t₀`, and so does the `restore` that closes its level. -/
theorem round_trip {A T : List Call} (hA : Runs empty A t₀) (hT : Runs t₀.checkpoint.2 T t)
    (hlive : t.isLive t₀.checkpoint.1 = true) :
    (∃ t', rollback t₀.checkpoint.1 t = .ok () t' ∧ Agrees t₀ t') ∧
      (t.depth = t₀.save.depth → ∃ t', restore t = .ok () t' ∧ Agrees t₀ t') := by
  have hv := hA.valid valid_empty
  have hret := hT.returns_of_isLive hv hlive
  exact ⟨hret.rollback hv rfl, fun hd => hret.restore hv hd⟩

/-- A detour that opens and closes a level of its own, and narrows sets in and out of it. -/
theorem round_trip_nested : ∃ t₀ t,
    Runs empty [.newInt 7, .newSparse 4 10, .newBounded 3, .save, .setInt ⟨0⟩ 8] t₀ ∧
    Runs t₀.checkpoint.2 [.remove ⟨0⟩ 11, .save, .removeAllBut ⟨0⟩ 12, .enforce ⟨0⟩ 2, .restore,
      .newBool true, .exclude ⟨0⟩ 0, .setInt ⟨0⟩ 9] t ∧
    t.isLive t₀.checkpoint.1 = true ∧ t.depth = t₀.save.depth ∧
    (∃ t', rollback t₀.checkpoint.1 t = .ok () t' ∧ Agrees t₀ t') ∧
      ∃ t', restore t = .ok () t' ∧ Agrees t₀ t' := by
  have hplay : (play [.newInt 7, .newSparse 4 10, .newBounded 3, .save, .setInt ⟨0⟩ 8] empty).any
      (fun t₀ => (play [.remove ⟨0⟩ 11, .save, .removeAllBut ⟨0⟩ 12, .enforce ⟨0⟩ 2, .restore,
        .newBool true, .exclude ⟨0⟩ 0, .setInt ⟨0⟩ 9] t₀.checkpoint.2).any fun t =>
          t.isLive t₀.checkpoint.1 && t.depth == t₀.save.depth) = true := by
    decide +kernel
  obtain ⟨t₀, h₀, ht₀⟩ := (Option.any_eq_true _ _).1 hplay
  obtain ⟨t, h, ht⟩ := (Option.any_eq_true _ _).1 ht₀
  obtain ⟨hlive, hd⟩ := Bool.and_eq_true_iff.1 ht
  have hback := round_trip (runs_of_play h₀) (runs_of_play h) hlive
  exact ⟨t₀, t, runs_of_play h₀, runs_of_play h, hlive, beq_iff_eq.1 hd, hback.1,
    hback.2 (beq_iff_eq.1 hd)⟩

end Propagation.Trail
