import Propagation.Proofs.Store.Change
import Propagation.Proofs.Trail.Create

/-!
# Levels of a valid store

Opening a level saves the scene; closing levels gives back the scene that the outermost of them
has saved, with empty logs and an empty sink (`Store.Reverted`). A mark is accepted iff the level
that it names is open (`Valid.rollback_ends`).
-/

set_option autoImplicit false

namespace Propagation.Store

open Update

variable {s : Store} {w : View} {older : List (Nat × View)}

/-! ## The beginning -/

/-- The store of a trail without levels is valid, and has no variables. -/
theorem valid_ofTrail {t : Trail} (hv : t.Valid) (hp : t.past = []) :
    (ofTrail t).Valid ∧ (ofTrail t).scene = fun _ => none := by
  have ht := hv.addInt 0
  have hcount : (ofTrail t).countIn (ofTrail t).trail.view = 0 := by
    show (((t.addInt 0).2.view.int t.cells.size).getD 0).toNat = 0
    rw [ht.view, View.setInt_self]
    rfl
  have hpast : (ofTrail t).trail.past = [] := ht.past.trans hp
  have hscene : (ofTrail t).scene = fun _ => none := by
    funext v
    rw [scene, sceneIn, hcount, if_neg (Nat.not_lt_zero _)]
  refine ⟨?_, hscene⟩
  exact
    { trail := ht.valid
      logs_size := rfl
      now := by
        refine ⟨⟨0, ?_, by decide, Nat.zero_le _⟩, fun i hi => ?_⟩
        · show (t.addInt 0).2.view.int t.cells.size = _
          rw [ht.view, View.setInt_self]
          rfl
        · rw [hcount] at hi
          exact absurd hi (Nat.not_lt_zero i)
      past := by
        rw [hpast]
        rintro _ ⟨⟩
      counts := by
        rw [hpast]
        exact List.pairwise_singleton _ _
      nodup := fun i hi => by
        rw [hcount] at hi
        exact absurd hi (Nat.not_lt_zero i)
      apart := fun i _ hi => by
        rw [hcount] at hi
        exact absurd hi (Nat.not_lt_zero i)
      logs := fun v D hv => by
        rw [hscene] at hv
        cases hv }

/-! ## Opening -/

theorem Valid.save (hs : s.Valid) : s.save.Valid where
  trail := hs.trail.save
  logs_size := hs.logs_size
  now := by
    show s.save.Houses s.trail.save.view
    rw [Trail.view_save s.trail]
    exact hs.now.congr rfl rfl
  past := by
    show ∀ p ∈ s.trail.save.past, s.save.Houses p.2
    rw [Trail.past_save hs.trail.sound]
    exact List.forall_mem_cons.2 ⟨hs.now.congr rfl rfl, fun p hp => (hs.past p hp).congr rfl rfl⟩
  counts := by
    show (s.trail.save.view :: s.trail.save.past.map (·.2)).Pairwise
      fun w w' => s.countIn w' ≤ s.countIn w
    rw [Trail.view_save s.trail, Trail.past_save hs.trail.sound, List.map_cons]
    refine List.pairwise_cons.2 ⟨List.forall_mem_cons.2 ⟨Nat.le_refl _, ?_⟩, hs.counts⟩
    exact (List.pairwise_cons.1 hs.counts).1
  nodup := by
    show ∀ i < s.countIn s.trail.save.view, _
    rw [Trail.view_save s.trail]
    exact hs.nodup
  apart := by
    show ∀ i j, i < s.countIn s.trail.save.view → j < s.countIn s.trail.save.view → _
    rw [Trail.view_save s.trail]
    exact hs.apart
  logs v D hv := by
    have hv' : s.sceneIn s.trail.save.view v = some D := hv
    rw [Trail.view_save s.trail] at hv'
    exact hs.logs v D hv'

theorem scene_save (s : Store) : s.save.scene = s.scene := by
  show s.sceneIn s.trail.save.view = s.sceneIn s.trail.view
  rw [Trail.view_save s.trail]

/-! ## Forgetting -/

theorem logOf_clearDeltas (s : Store) (v : Var) : s.clearDeltas.logOf v = [] := by
  rw [logOf]
  show ((((s.logs.map fun _ => DeltaLog.empty)[v.id]?).map (·.toList)).getD []) = []
  rw [Array.getElem?_map]
  cases s.logs[v.id]? <;> rfl

theorem Valid.clearDeltas (hs : s.Valid) : s.clearDeltas.Valid where
  trail := hs.trail
  logs_size := (Array.size_map ..).trans hs.logs_size
  now := hs.now.congr rfl rfl
  past p hp := (hs.past p hp).congr rfl rfl
  counts := hs.counts
  nodup := hs.nodup
  apart := hs.apart
  logs v D _ x hx := by
    rw [logOf_clearDeltas] at hx
    cases hx

/-! ## Closing -/

/-- `s'` is the store after levels of `s` have been closed, the outermost of which was opened at the
view `w`. -/
structure Reverted (s : Store) (w : View) (older : List (Nat × View)) (s' : Store) : Prop where
  valid : s'.Valid
  view : s'.trail.view = w
  past : s'.trail.past = older
  clock : s'.trail.clock = s.trail.clock
  domains : s'.domains = s.domains
  alive : s'.alive = s.alive
  epoch : s'.epoch = s.epoch + 1
  running : s'.running = s.running
  sink : s'.sink = .empty
  log : ∀ v, s'.logOf v = []

theorem Reverted.scene {s' : Store} (h : Reverted s w older s') : s'.scene = s.sceneIn w := by
  rw [Store.scene, h.view, sceneIn_congr h.domains h.alive]

/-- `forgetChanges` after the levels of the trail have been closed leaves a store that is
`Reverted`. -/
theorem Valid.reverted (hs : s.Valid) {t : Trail} (ht : t.Valid) {c : Nat}
    {newer : List (Nat × View)} (h : s.trail.past = newer ++ (c, w) :: older)
    (hview : t.view = w) (hpast : t.past = older) (hclock : t.clock = s.trail.clock) :
    Reverted s w older ({ s with trail := t } : Store).forgetChanges := by
  have hmem : (c, w) ∈ s.trail.past := h ▸ List.mem_append_right _ List.mem_cons_self
  have hle : s.countIn w ≤ s.countIn s.trail.view :=
    (List.pairwise_cons.1 hs.counts).1 w (List.mem_map_of_mem hmem)
  refine
    { valid := ?_, view := hview, past := hpast, clock := hclock, domains := rfl, alive := rfl
      epoch := rfl, running := rfl, sink := rfl, log := fun v => logOf_clearDeltas _ v }
  exact
    { trail := ht
      logs_size := (Array.size_map ..).trans hs.logs_size
      now := by
        show Store.Houses _ t.view
        rw [hview]
        exact (hs.past _ hmem).congr rfl rfl
      past := by
        show ∀ p ∈ t.past, Store.Houses _ p.2
        rw [hpast]
        exact fun p hp => (hs.past p (h ▸ List.mem_append_right _
          (List.mem_cons_of_mem _ hp))).congr rfl rfl
      counts := by
        show (t.view :: t.past.map (·.2)).Pairwise fun w w' => s.countIn w' ≤ s.countIn w
        rw [hview, hpast]
        have hcounts := (List.pairwise_cons.1 hs.counts).2
        rw [h, List.map_append, List.map_cons] at hcounts
        exact (List.pairwise_append.1 hcounts).2.1
      nodup := by
        show ∀ i < s.countIn t.view, _
        rw [hview]
        exact fun i hi => hs.nodup i (Nat.lt_of_lt_of_le hi hle)
      apart := by
        show ∀ i j, i < s.countIn t.view → j < s.countIn t.view → _
        rw [hview]
        exact fun i j hi hj => hs.apart i j (Nat.lt_of_lt_of_le hi hle) (Nat.lt_of_lt_of_le hj hle)
      logs := fun v D _ x hx => by
        rw [forgetChanges, logOf_clearDeltas] at hx
        cases hx }

theorem Valid.restore_ends (hs : s.Valid) :
    Ends restore s (fun _ s' => ∃ c w older, s.trail.past = (c, w) :: older ∧
        Reverted s w older s')
      fun e s' => e = .violation .noOpenLevel ∧ s.trail.past = [] ∧ s' = s := by
  cases hl : s.trail.levels with
  | nil =>
    have hrun : Trail.restore s.trail = .error (.violation .noOpenLevel) s.trail := by
      rw [Trail.restore, hl]
      rfl
    refine ends_of_error (u := s) ?_ ⟨rfl, Trail.past_of_nil hl, rfl⟩
    simp only [restore, bind_apply, onTrail_error hrun]
  | cons l ls =>
    have hrun : Trail.restore s.trail = .ok () s.trail.close := by
      rw [Trail.restore, hl]
      rfl
    have hpast : s.trail.past = [] ++ (l.clock, s.trail.close.view) :: s.trail.close.past :=
      Trail.past_of_cons hl
    refine ends_of_ok (a := ()) ?_ ⟨_, _, _, hpast, hs.reverted hs.trail.close hpast rfl rfl
      (Trail.clock_close _)⟩
    simp only [restore, bind_apply, onTrail_ok hrun, modify_apply]

/-- `rollback m` closes the levels down to that of the mark, and is refused iff the mark is not
live. -/
theorem Valid.rollback_ends (hs : s.Valid) (m : Mark) :
    Ends (rollback m) s (fun _ s' => ∃ newer w older,
        s.trail.past = newer ++ (m.clock, w) :: older ∧ older.length = m.depth ∧
        Reverted s w older s')
      fun e s' => e = .violation (.staleMark m) ∧ s.trail.isLive m = false ∧ s' = s := by
  cases hlive : s.trail.isLive m with
  | false =>
    have hrun : Trail.rollback m s.trail = .error (.violation (.staleMark m)) s.trail := by
      rw [Trail.rollback, hlive]
      rfl
    refine ends_of_error (u := s) ?_ ⟨rfl, rfl, rfl⟩
    simp only [rollback, bind_apply, onTrail_error hrun]
  | true =>
    obtain ⟨newer, w, older, hpast, hlen⟩ := Trail.isLive_iff.1 hlive
    obtain ⟨t, hrun, rfl, hview, holder⟩ := Trail.rollback_live hpast hlen
    refine ends_of_ok (a := ()) ?_ ⟨newer, w, older, hpast, hlen,
      hs.reverted (hs.trail.closeMany _) hpast hview holder (Trail.clock_closeMany _ _)⟩
    simp only [rollback, bind_apply, onTrail_ok hrun, modify_apply]

end Propagation.Store
