import Propagation.Proofs.Store.Create
import Propagation.Proofs.Store.Level

/-!
# What is left of a range

As long as it is alive, an integer variable stays within the interval that it was created with, and
the lower end of it remains its offset. This holds in the scene of the store, and in those that
closing a level would give back (`Store.Ranges`); no operation changes it.
-/

set_option autoImplicit false

namespace Propagation.Store

open Update

/-- In the view `w` the variable `v` has the integers `vs`, all of them from `lo` to `hi`, and the
offset `lo`. -/
structure SpansIn (s : Store) (w : View) (v : Var) (lo hi : Int) (vs : Finset Int) : Prop where
  scene : s.sceneIn w v = some (.int vs)
  offset : s.offsetIn w v = some lo
  within : ∀ a ∈ vs, lo ≤ a ∧ a ≤ hi

/-- `SpansIn` for the current view. -/
def Spans (s : Store) (v : Var) (lo hi : Int) (vs : Finset Int) : Prop :=
  s.SpansIn s.trail.view v lo hi vs

/-- The variable `v`, created with the integers from `lo` to `hi`, is alive, and spans them in every
view in which it is. -/
structure Ranges (s : Store) (v : Var) (lo hi : Int) : Prop where
  size : Checked.Signed (hi - lo + 1)
  now : ∃ vs, s.Spans v lo hi vs
  past : ∀ p ∈ s.trail.past, v.id < s.countIn p.2 → ∃ vs, s.SpansIn p.2 v lo hi vs

variable {s s' : Store} {w : View} {v : Var} {lo hi : Int} {vs : Finset Int}

theorem SpansIn.congr (h : s.SpansIn w v lo hi vs) (hd : s'.domains[v.id]? = s.domains[v.id]?)
    (ha : s'.alive = s.alive) : s'.SpansIn w v lo hi vs where
  scene := by
    rw [← h.scene, sceneIn, sceneIn, countIn, countIn, hd, ha]
  offset := by
    rw [← h.offset, offsetIn, offsetIn, countIn, countIn, hd, ha]
  within := h.within

theorem Ranges.live (h : s.Ranges v lo hi) : v.id < s.countIn s.trail.view := by
  obtain ⟨vs, hvs⟩ := h.now
  exact (scene_eq_some.1 hvs.scene).1

/-! ## Operations on variables -/

section
variable (hs : s.Valid) (hs' : s'.Valid) (hrooted : Rooted s s')
  (hscene : ∀ v D, s.scene v = some D → ∃ D', s'.scene v = some D' ∧ D'.Within D)
include hs hs' hrooted hscene

/-- `Spans` is kept, with fewer values, when domains shrink and offsets are kept. -/
theorem Spans.mono (hv : s.Spans v lo hi vs) : ∃ vs' ⊆ vs, s'.Spans v lo hi vs' := by
  have hlive : ∀ u, s.scene u ≠ none → s'.scene u ≠ none := by
    intro u hu
    obtain ⟨D, hD⟩ := Option.ne_none_iff_exists'.1 hu
    obtain ⟨D', hD', -⟩ := hscene u D hD
    rw [hD']
    nofun
  obtain ⟨D, hD, hle⟩ := hscene v _ hv.scene
  cases D with
  | set n b => exact hle.elim
  | graph n b => exact hle.elim
  | int vs' =>
    exact ⟨vs', hle, hD, hrooted.keeps hs hs' hlive hv.offset, fun a ha => hv.within a (hle ha)⟩

theorem Ranges.mono (hpast : s'.trail.past = s.trail.past) (halive : s'.alive = s.alive)
    (hv : s.Ranges v lo hi) : s'.Ranges v lo hi where
  size := hv.size
  now := by
    obtain ⟨vs, hvs⟩ := hv.now
    obtain ⟨vs', -, hvs'⟩ := hvs.mono hs hs' hrooted hscene
    exact ⟨vs', hvs'⟩
  past p hp hlt := by
    rw [hpast] at hp
    rw [countIn, halive] at hlt
    obtain ⟨vs, hvs⟩ := hv.past p hp hlt
    exact ⟨vs, hvs.congr (hrooted.domain v ((hs.ne_none_iff v).2 hv.live)) halive⟩

end

theorem Evolves.spans (h : Evolves s s') (hs : s.Valid) (hv : s.Spans v lo hi vs) :
    ∃ vs' ⊆ vs, s'.Spans v lo hi vs' := hv.mono hs h.valid h.rooted h.scene

theorem Evolves.ranges (h : Evolves s s') (hs : s.Valid) (hv : s.Ranges v lo hi) :
    s'.Ranges v lo hi := hv.mono hs h.valid h.rooted h.scene h.past h.alive

/-- A new variable spans its interval, and is not alive in the views of the open levels. -/
theorem Valid.ranges_of_create (hs : s.Valid) (hrun : create (.interval lo hi) s = .ok v s') :
    s'.Ranges v lo hi := by
  obtain ⟨hc, hoffset⟩ := (hs.create_counted (.interval lo hi)).of_ok hrun
  refine ⟨?_, ⟨_, hc.self, hoffset, fun a => mem_intsBetween.1⟩, fun p hp hlt => ?_⟩
  · by_cases hle : lo ≤ hi
    · by_contra hno
      simp only [create, if_pos hle, bind_apply, query_eq, Checked.int_of_not_signed hno] at hrun
      cases hrun
    · simp only [create, if_neg hle, throw_apply] at hrun
      cases hrun
  · rw [hc.past] at hp
    rw [countIn, hc.alive, hc.id_eq] at hlt
    exact absurd hlt (not_lt.2 (hs.countIn_past hp))

/-! ## Levels -/

theorem Ranges.save (h : s.Ranges v lo hi) (hs : s.Valid) : s.save.Ranges v lo hi where
  size := h.size
  now := by
    obtain ⟨vs, hvs⟩ := h.now
    refine ⟨vs, ?_⟩
    show s.save.SpansIn s.trail.save.view v lo hi vs
    rw [Trail.view_save s.trail]
    exact hvs.congr rfl rfl
  past := by
    show ∀ p ∈ s.trail.save.past, _
    rw [Trail.past_save hs.trail.sound]
    refine List.forall_mem_cons.2 ⟨fun _ => ?_, fun p hp hlt => ?_⟩
    · obtain ⟨vs, hvs⟩ := h.now
      exact ⟨vs, hvs.congr rfl rfl⟩
    · obtain ⟨vs, hvs⟩ := h.past p hp hlt
      exact ⟨vs, hvs.congr rfl rfl⟩

/-- `Ranges` is kept by closing levels, if the variable is still alive. -/
theorem Reverted.ranges {c : Nat} {newer older : List (Nat × View)} (h : Reverted s w older s')
    (hpast : s.trail.past = newer ++ (c, w) :: older) (hv : s.Ranges v lo hi)
    (hlive : v.id < s'.countIn s'.trail.view) : s'.Ranges v lo hi where
  size := hv.size
  now := by
    rw [countIn, h.alive, h.view] at hlive
    have hmem : (c, w) ∈ s.trail.past := hpast ▸ List.mem_append_right _ List.mem_cons_self
    obtain ⟨vs, hvs⟩ := hv.past (c, w) hmem hlive
    refine ⟨vs, ?_⟩
    rw [Spans, h.view]
    exact hvs.congr (by rw [h.domains]) h.alive
  past p hp hlt := by
    rw [h.past] at hp
    rw [countIn, h.alive] at hlt
    have hmem : p ∈ s.trail.past :=
      hpast ▸ List.mem_append_right _ (List.mem_cons_of_mem _ hp)
    obtain ⟨vs, hvs⟩ := hv.past p hmem hlt
    exact ⟨vs, hvs.congr (by rw [h.domains]) h.alive⟩

end Propagation.Store
