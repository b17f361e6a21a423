import Propagation.Proofs.Model.Moves
import Propagation.Proofs.Store.Ticks

/-!
# When a mark is accepted

Trails, stores and models open and close levels in one way (`Leveled`): a mark is accepted exactly
while the level that it names has not been closed, and what is refused changes nothing
(`Leveled.Exact`). The reason is the same for all three: what is checked is the trail under them,
and it is checked before anything is changed (`Leveled.Over`).
-/

set_option autoImplicit false

namespace Propagation

open Update

open Trail (StaysAbove)

/-- A system with levels: where it starts, the state after a call, however it ends, and the
operations on its levels. -/
structure Leveled (σ κ : Type) where
  start : σ
  after : σ → κ → σ
  depth : σ → Nat
  checkpoint : σ → Mark × σ
  rollback : Mark → Update Fault σ Unit
  restore : Update Fault σ Unit

namespace Leveled

/-- A `mark` is taken after the calls `before`, and the calls `since` follow. The mark counts the
levels of `s`, and the checkpoint opens one more, so this level has been closed since iff the depth
has come down to `mark.depth` at some time (`¬StaysAbove`). Until then a rollback to `mark` succeeds
and leaves `mark.depth` levels; afterwards it is refused, and changes nothing. A restore closes one
level, and is refused, changing nothing, iff none is open. -/
def Exact {σ κ : Type} (L : Leveled σ κ) : Prop :=
  ∀ before since : List κ,
    let s := before.foldl L.after L.start
    let mark := (L.checkpoint s).1
    let opened := (L.checkpoint s).2
    let t := since.foldl L.after opened
    (mark.depth = L.depth s ∧ L.depth opened = mark.depth + 1) ∧
    (StaysAbove L.after L.depth mark.depth opened since →
      ∃ u, L.rollback mark t = .ok () u ∧ L.depth u = mark.depth) ∧
    (¬StaysAbove L.after L.depth mark.depth opened since →
      L.rollback mark t = .error (.violation (.staleMark mark)) t) ∧
    (L.depth t ≠ 0 → ∃ u, L.restore t = .ok () u ∧ L.depth u + 1 = L.depth t) ∧
    (L.depth t = 0 → L.restore t = .error (.violation .noOpenLevel) t)

/-- The levels of `L` are those of a `trail` in its state: under an invariant `inv`, its operations
accept and refuse marks as the trail does. -/
structure Over {σ κ : Type} (L : Leveled σ κ) (trail : σ → Trail) (inv : σ → Prop) : Prop where
  start : inv L.start
  keep : ∀ s c, inv s → inv (L.after s c)
  ticks : ∀ s c, inv s → Trail.Ticks (trail s) (trail (L.after s c))
  depth : ∀ s, L.depth s = (trail s).depth
  checkpoint : ∀ s, inv s → inv (L.checkpoint s).2 ∧
    (L.checkpoint s).1 = (trail s).checkpoint.1 ∧ trail (L.checkpoint s).2 = (trail s).checkpoint.2
  rollback : ∀ m s, inv s → Ends (L.rollback m) s
    (fun _ u => (trail s).isLive m = true ∧ (trail u).depth = m.depth)
    fun e u => (trail s).isLive m = false ∧ e = .violation (.staleMark m) ∧ u = s
  restore : ∀ s, inv s → Ends L.restore s (fun _ u => (trail s).depth = (trail u).depth + 1)
    fun e u => (trail s).depth = 0 ∧ e = .violation .noOpenLevel ∧ u = s

section
variable {σ κ : Type} {L : Leveled σ κ} {trail : σ → Trail} {inv : σ → Prop}

theorem Over.inv_run (h : L.Over trail inv) (cs : List κ) {s : σ} (hs : inv s) :
    inv (cs.foldl L.after s) := by
  induction cs generalizing s with
  | nil => exact hs
  | cons c cs ih => exact ih (h.keep s c hs)

theorem Over.exact (h : L.Over trail inv) : L.Exact := by
  intro before since s mark opened t
  obtain ⟨hopened, hmark, htrail⟩ := h.checkpoint s (h.inv_run before h.start)
  have ht : inv t := h.inv_run since hopened
  have hdepth : L.depth = fun s => (trail s).depth := funext h.depth
  have hlive : (trail t).isLive mark = true ↔ StaysAbove L.after L.depth mark.depth opened since := by
    rw [hdepth]
    refine Trail.Holds.isLive_run h.keep h.ticks since hopened ?_
    show (trail (L.checkpoint s).2).Holds (L.checkpoint s).1
    rw [hmark, htrail]
    exact Trail.holds_checkpoint (trail s)
  have hcount : mark.depth = L.depth s := by
    show (L.checkpoint s).1.depth = _
    rw [hmark, h.depth]
    rfl
  have hopens : L.depth opened = mark.depth + 1 := by
    rw [h.depth, htrail, hcount, h.depth]
    exact Trail.depth_save _
  refine ⟨⟨hcount, hopens⟩, fun habove => ?_, fun hbelow => ?_, fun hopen => ?_, fun hclosed => ?_⟩
  · have hr := h.rollback mark t ht
    cases hrun : L.rollback mark t with
    | ok _ u => exact ⟨u, rfl, (h.depth u).trans (hr.of_ok hrun).2⟩
    | error e u =>
      have hstale := (hr.of_error hrun).1
      rw [hlive.2 habove] at hstale
      cases hstale
  · have hr := h.rollback mark t ht
    cases hrun : L.rollback mark t with
    | ok _ u => exact absurd (hlive.1 (hr.of_ok hrun).1) hbelow
    | error e u =>
      obtain ⟨-, rfl, rfl⟩ := hr.of_error hrun
      rfl
  · have hr := h.restore t ht
    cases hrun : L.restore t with
    | ok _ u => exact ⟨u, rfl, by rw [h.depth, h.depth, hr.of_ok hrun]⟩
    | error e u => exact absurd ((h.depth t).trans (hr.of_error hrun).1) hopen
  · have hr := h.restore t ht
    cases hrun : L.restore t with
    | ok _ u =>
      have := hr.of_ok hrun
      rw [← h.depth, hclosed] at this
      cases this
    | error e u =>
      obtain ⟨-, rfl, rfl⟩ := hr.of_error hrun
      rfl

end

/-! ## Trails -/

def trail : Leveled Trail Trail.Call where
  start := .empty
  after t c := c.perform.after t
  depth := Trail.depth
  checkpoint := Trail.checkpoint
  rollback := Trail.rollback
  restore := Trail.restore

theorem trail_rollback_ends (m : Mark) (t : Trail) : Ends (Trail.rollback m) t
    (fun _ u => t.isLive m = true ∧ u.depth = m.depth)
    fun e u => t.isLive m = false ∧ e = .violation (.staleMark m) ∧ u = t := by
  cases hl : t.isLive m with
  | true =>
    have hlt : m.depth < t.depth := by
      have hget := (Trail.isLive_iff_clocks t m).1 hl
      have hlen := (List.getElem?_eq_some_iff.1 hget).1
      rwa [List.length_reverse, Trail.length_clocks] at hlen
    refine ends_of_ok (by rw [Trail.rollback_apply, if_pos hl]) ⟨rfl, ?_⟩
    rw [Trail.depth_closeMany]
    omega
  | false =>
    refine ends_of_error (by rw [Trail.rollback_apply, if_neg (by rw [hl]; nofun)])
      ⟨rfl, rfl, rfl⟩

theorem trail_restore_ends (t : Trail) : Ends Trail.restore t
    (fun _ u => t.depth = u.depth + 1)
    fun e u => t.depth = 0 ∧ e = .violation .noOpenLevel ∧ u = t := by
  cases hl : t.levels with
  | nil =>
    exact ends_of_error (by rw [Trail.restore_apply, hl]; rfl) ⟨by rw [Trail.depth, hl]; rfl, rfl, rfl⟩
  | cons l ls =>
    refine ends_of_ok (by rw [Trail.restore_apply, hl]; rfl) ?_
    rw [Trail.depth_close, Trail.depth, hl]
    rfl

theorem trail_over : trail.Over id fun _ => True where
  start := trivial
  keep _ _ h := h
  ticks t c _ := c.ticks t
  depth _ := rfl
  checkpoint _ _ := ⟨trivial, rfl, rfl⟩
  rollback m t _ := trail_rollback_ends m t
  restore t _ := trail_restore_ends t

/-! ## Stores -/

def store : Leveled Store Store.Call where
  start := .empty
  after s c := c.perform.after s
  depth := Store.depth
  checkpoint := Store.checkpoint
  rollback := Store.rollback
  restore := Store.restore

theorem store_over : store.Over Store.trail fun _ => True where
  start := trivial
  keep _ _ h := h
  ticks s c _ := c.ticks s
  depth _ := rfl
  checkpoint _ _ := ⟨trivial, rfl, rfl⟩
  rollback m s _ := by
    refine Ends.bind (Ends.within ((trail_rollback_ends m s.trail).mono (fun _ _ h => h) ?_))
      fun _ u hu => ends_of_ok (modify_apply _ _) hu
    rintro e t ⟨hlive, he, rfl⟩
    exact ⟨hlive, he, rfl⟩
  restore s _ := by
    refine Ends.bind (Ends.within ((trail_restore_ends s.trail).mono (fun _ _ h => h) ?_))
      fun _ u hu => ends_of_ok (modify_apply _ _) hu
    rintro e t ⟨hdepth, he, rfl⟩
    exact ⟨hdepth, he, rfl⟩

/-! ## Models -/

/-- A model with any propagators, in a session that may hold any `marks` besides its own. -/
def model (ν π : Type) [Propagator ν π] (marks : Array Mark) : Leveled (Session ν π) (Call π) where
  start := ⟨.empty, marks⟩
  after s c := c.perform.after s
  depth s := s.model.depth
  checkpoint s := (s.model.checkpoint.1, Call.checkpoint.perform.after s)
  rollback m := Session.onModel (Model.rollback m)
  restore := Session.onModel Model.restore

theorem model_over (ν π : Type) [Propagator ν π] (marks : Array Mark) :
    (model ν π marks).Over (fun s => s.model.store.trail) fun s => s.model.Valid where
  start := Model.valid_empty
  keep s c hs := (c.moves hs).valid hs
  ticks s c hs := (c.moves hs).ticks
  depth _ := rfl
  checkpoint s hs := ⟨(Call.checkpoint.moves hs).valid hs, rfl, rfl⟩
  rollback m s hs := by
    refine Ends.within ((hs.rollback_ends m).mono ?_ ?_)
    · rintro - u ⟨newer, w, older, hpast, hlen, hu⟩
      refine ⟨Trail.isLive_iff.2 ⟨newer, w, older, hpast, hlen⟩, ?_⟩
      show u.store.trail.depth = _
      rw [← Trail.length_past, hu.store.past, hlen]
    · rintro e u ⟨he, hlive, rfl⟩
      exact ⟨hlive, he, rfl⟩
  restore s hs := by
    refine Ends.within (hs.restore_ends.mono ?_ ?_)
    · rintro - u ⟨c, w, older, hpast, hu⟩
      show _ = u.store.trail.depth + 1
      rw [← Trail.length_past, ← Trail.length_past, hu.store.past, hpast, List.length_cons]
    · rintro e u ⟨he, hpast, rfl⟩
      refine ⟨?_, he, rfl⟩
      show s.model.store.trail.depth = 0
      rw [← Trail.length_past, hpast, List.length_nil]

/-! ## All of them -/

/-- Trails, stores and models accept a mark exactly while its level is open. -/
theorem mark_accepted_iff_open : trail.Exact ∧ store.Exact ∧
    ∀ (ν π : Type) [Propagator ν π] (marks : Array Mark), (model ν π marks).Exact :=
  ⟨trail_over.exact, store_over.exact, fun ν π _ marks => (model_over ν π marks).exact⟩

end Leveled

end Propagation
