import Propagation.Proofs.Trail.History
import Propagation.Proofs.Trail.RoundTrip

/-!
# Zones of the open levels

A swap is never undone. Closing a level gives back the frontiers of a set, and the values stay where
the swaps have left them, which is right as long as no swap has crossed a frontier that an open
level will give back (`Valid.move_sparse`, `Valid.move_bounded`).

`History.Returning` is the invariant of calls on live handles: closing an open level gives back the
trail on which it was opened. Closing drops slots but moves no value (`Valid.sameOn_sparse`,
`Valid.sameOn_bounded`), so the values within those frontiers now are those that were there then
(`zones_kept`).
-/

set_option autoImplicit false

namespace Propagation

namespace Arena

variable {m m' : Arena} {start n k : Nat}

/-- The first `k` positions of a set hold the same values in both arenas, in any order. -/
def SameZone (m m' : Arena) (start k : Nat) : Prop :=
  ∃ vs ws, m.slice start k = .ok vs ∧ m'.slice start k = .ok ws ∧ ws.Perm vs

theorem Permutes.sameZone (h : m.Permutes start n) (h' : m'.Permutes start n) (hm : m.Sized)
    (hm' : m'.Sized) (hk : k ≤ n) (hzone : m'.zone start n k = m.zone start n k) :
    SameZone m m' start k := by
  obtain ⟨vs, hvs, hnodup, hmem⟩ := h.slice hk hm.lt
  obtain ⟨ws, hws, hnodup', hmem'⟩ := h'.slice hk hm'.lt
  refine ⟨vs, ws, hvs, hws, (List.perm_ext_iff_of_nodup hnodup' hnodup).2 fun v => ?_⟩
  rw [hmem, hmem', hzone]

end Arena

namespace Trail

open Update

variable {t u : Trail} {m : Mark} {n r : Nat}

/-! ## Closing moves no value -/

theorem Valid.sameOn_close_sparse {s : SparseSet} (hv : t.Valid)
    (hr : t.close.sparseSets[r]? = some s) :
    Arena.SameOn t.sparseArena t.close.sparseArena s.start s.capacity := by
  cases hl : t.levels with
  | nil =>
    rw [close_of_nil hl]
    exact .refl _ _ _
  | cons l ls =>
    have hp := (hv.close.sound.sparse r s hr).permutes
    rw [close_of_cons hl] at hp ⊢
    exact Arena.sameOn_truncate _ hp.le_of_truncate

theorem Valid.sameOn_close_bounded {s : BoundedSet} (hv : t.Valid)
    (hr : t.close.boundedSets[r]? = some s) :
    Arena.SameOn t.boundedArena t.close.boundedArena s.start s.capacity := by
  cases hl : t.levels with
  | nil =>
    rw [close_of_nil hl]
    exact .refl _ _ _
  | cons l ls =>
    have hp := (hv.close.sound.bounded r s hr).permutes
    rw [close_of_cons hl] at hp ⊢
    exact Arena.sameOn_truncate _ hp.le_of_truncate

/-- A set that is left after levels have been closed was there before, with its values at the same
positions. -/
theorem Valid.sameOn_sparse {s : SparseSet} (hv : t.Valid)
    (hr : (t.closeMany n).sparseSets[r]? = some s) : t.sparseSets[r]? = some s ∧
      Arena.SameOn t.sparseArena (t.closeMany n).sparseArena s.start s.capacity := by
  induction n generalizing t with
  | zero => exact ⟨hr, .refl _ _ _⟩
  | succ n ih =>
    obtain ⟨hr', hsame⟩ := ih hv.close hr
    exact ⟨sparseSets_of_close hr', (hv.sameOn_close_sparse hr').trans hsame⟩

theorem Valid.sameOn_bounded {s : BoundedSet} (hv : t.Valid)
    (hr : (t.closeMany n).boundedSets[r]? = some s) : t.boundedSets[r]? = some s ∧
      Arena.SameOn t.boundedArena (t.closeMany n).boundedArena s.start s.capacity := by
  induction n generalizing t with
  | zero => exact ⟨hr, .refl _ _ _⟩
  | succ n ih =>
    obtain ⟨hr', hsame⟩ := ih hv.close hr
    exact ⟨boundedSets_of_close hr', (hv.sameOn_close_bounded hr').trans hsame⟩

/-! ## Within the frontiers that come back -/

theorem Matches.count (h : Matches u t) (i : Nat) : t.count i = u.count i :=
  count_congr (by rw [content, content, h.cells])

/-- The values of `t` within the frontier that closing gives back are the members of the set on `u`.
-/
theorem Returns.members {s : SparseSet} (h : Returns u m t) (hr : u.sparseSets[r]? = some s) :
    t.sparseSets[r]? = some s ∧
      t.sparseArena.zone s.start s.capacity (u.count s.size.index) = s.members u := by
  obtain ⟨newer, hpast, hback⟩ := h.back
  have hr' : (t.closeMany (newer.length + 1)).sparseSets[r]? = some s := by
    rw [hback.sparseSets, hr]
  obtain ⟨hnow, hsame⟩ := h.valid.sameOn_sparse hr'
  have hview : s.view (t.closeMany (newer.length + 1)) = s.view u := by
    have hall := congrArg (·.sparse r) (view_closeMany hpast rfl)
    simpa only [view_sparse hr, view_sparse hr', Option.some.injEq] using hall
  have hmembers := congrArg (·.members) hview
  simp only [SparseSet.view, SparseSet.members, hback.count, hsame.zone] at hmembers
  exact ⟨hnow, hmembers⟩

theorem Returns.kernel_envelope {s : BoundedSet} (h : Returns u m t)
    (hr : u.boundedSets[r]? = some s) : t.boundedSets[r]? = some s ∧
      t.boundedArena.zone s.start s.capacity (u.count s.kernelSize.index) = s.kernel u ∧
      t.boundedArena.zone s.start s.capacity (u.count s.envelopeSize.index) = s.envelope u := by
  obtain ⟨newer, hpast, hback⟩ := h.back
  have hr' : (t.closeMany (newer.length + 1)).boundedSets[r]? = some s := by
    rw [hback.boundedSets, hr]
  obtain ⟨hnow, hsame⟩ := h.valid.sameOn_bounded hr'
  have hview : s.view (t.closeMany (newer.length + 1)) = s.view u := by
    have hall := congrArg (·.bounded r) (view_closeMany hpast rfl)
    simpa only [view_bounded hr, view_bounded hr', Option.some.injEq] using hall
  have hkernel := congrArg (·.kernel) hview
  have henvelope := congrArg (·.envelope) hview
  simp only [BoundedSet.view, BoundedSet.kernel, hback.count, hsame.zone] at hkernel
  simp only [BoundedSet.view, BoundedSet.envelope, hback.count, hsame.zone] at henvelope
  exact ⟨hnow, hkernel, henvelope⟩

/-- The slots of each set hold its values and their positions. -/
structure Permuted (t : Trail) : Prop where
  sparse : ∀ (r : SparseRef) (s : SparseSet), r.layout t = .ok s →
    t.sparseArena.Permutes s.start s.capacity
  bounded : ∀ (r : BoundedRef) (s : BoundedSet), r.layout t = .ok s →
    t.boundedArena.Permutes s.start s.capacity

theorem Valid.permuted (hv : t.Valid) : t.Permuted where
  sparse r s hs := (hv.sound.sparse r.index s (Checked.fetch_eq_ok.1 hs)).permutes
  bounded r s hs := (hv.sound.bounded r.index s (Checked.fetch_eq_ok.1 hs)).permutes

/-- Each set of `u` is on `t`, with the same values within each of the frontiers it has on `u`. -/
structure KeepsZones (u t : Trail) : Prop where
  sparse : ∀ (r : SparseRef) (s : SparseSet), r.layout u = .ok s → r.layout t = .ok s ∧
    ∃ n, r.size u = .ok n ∧ u.sparseArena.SameZone t.sparseArena s.start n
  bounded : ∀ (r : BoundedRef) (s : BoundedSet), r.layout u = .ok s → r.layout t = .ok s ∧
    ∃ k e, r.kernelSize u = .ok k ∧ r.envelopeSize u = .ok e ∧
      u.boundedArena.SameZone t.boundedArena s.start k ∧
      u.boundedArena.SameZone t.boundedArena s.start e

theorem Returns.keepsZones (h : Returns u m t) (hv : u.Valid) : KeepsZones u t where
  sparse r s hs := by
    have hr := Checked.fetch_eq_ok.1 hs
    obtain ⟨hnow, hzone⟩ := h.members hr
    have hsit := hv.sound.sparse r.index s hr
    obtain ⟨n, hn, hcap⟩ := hsit.size
    have hlt : s.start + s.capacity < 2 ^ 63 :=
      Nat.lt_of_le_of_lt hsit.permutes.order_le hv.sound.sparseArena.lt
    rw [SparseSet.members, count_of_content hn] at hzone
    refine ⟨Checked.fetch_eq_ok.2 hnow, n, ?_, ?_⟩
    · rw [SparseRef.size, hs]
      exact IntRef.getNat_eq hn (by omega)
    · exact hsit.permutes.sameZone (h.valid.sound.sparse r.index s hnow).permutes
        hv.sound.sparseArena h.valid.sound.sparseArena hcap hzone
  bounded r s hs := by
    have hr := Checked.fetch_eq_ok.1 hs
    obtain ⟨hnow, hkernel, henvelope⟩ := h.kernel_envelope hr
    have hsit := hv.sound.bounded r.index s hr
    obtain ⟨k, e, hk, he, hke, hcap⟩ := hsit.sizes
    have hlt : s.start + s.capacity < 2 ^ 63 :=
      Nat.lt_of_le_of_lt hsit.permutes.order_le hv.sound.boundedArena.lt
    rw [BoundedSet.kernel, count_of_content hk] at hkernel
    rw [BoundedSet.envelope, count_of_content he] at henvelope
    have hnowp := (h.valid.sound.bounded r.index s hnow).permutes
    have hsame : ∀ j ≤ s.capacity, t.boundedArena.zone s.start s.capacity j =
        u.boundedArena.zone s.start s.capacity j →
          u.boundedArena.SameZone t.boundedArena s.start j :=
      fun j hj hzone => hsit.permutes.sameZone hnowp hv.sound.boundedArena
        h.valid.sound.boundedArena hj hzone
    refine ⟨Checked.fetch_eq_ok.2 hnow, k, e, ?_, ?_, hsame k (by omega) hkernel,
      hsame e hcap henvelope⟩
    · rw [BoundedRef.kernelSize, hs]
      exact IntRef.getNat_eq hk (by omega)
    · rw [BoundedRef.envelopeSize, hs]
      exact IntRef.getNat_eq he (by omega)

/-! ## The trails that open levels give back -/

theorem Passes.eq_save {t' : Trail} (hp : Passes t t') (hd : t.depth < t'.depth) :
    t' = t.save := by
  cases hp with
  | turn ht =>
    rw [← length_past, ← length_past, ht.past] at hd
    omega
  | save => rfl
  | close n =>
    rw [depth_closeMany] at hd
    omega

theorem Passes.depth_le {t' : Trail} (hp : Passes t t') : t'.depth ≤ t.depth + 1 := by
  by_cases hd : t.depth < t'.depth
  · rw [hp.eq_save hd, depth_save]
  · omega

namespace History

variable {h : History}

/-- Closing each open level gives back the trail on which it was opened. -/
structure Returning (h : History) : Prop where
  nested : h.Nested
  valid : h.now.Valid
  opened : ∀ u ∈ h.opened, u.Valid ∧ Returns u u.checkpoint.1 h.now

theorem returning_start : start.Returning :=
  ⟨nested_start, valid_empty, fun u hu => by cases hu⟩

theorem Returning.passes (hr : h.Returning) (hp : Passes h.now t) : (h.follow t).Returning := by
  have hnested := hr.nested.follow hp.depth_le
  refine ⟨hnested, hp.valid hr.valid, fun u hu => ?_⟩
  obtain hu' | ⟨rfl, hd⟩ := mem_opened hu
  · obtain ⟨hv, hret⟩ := hr.opened u hu'
    exact ⟨hv, hret.passes hp (hnested.depth_lt hu)⟩
  · rw [hp.eq_save hd]
    exact ⟨hr.valid, returns_checkpoint hr.valid⟩

theorem Returning.runs {cs : List Call} (hr : h.Returning) (hrun : Runs h.now cs t) :
    (cs.foldl after h).Returning := by
  induction cs generalizing h with
  | nil => exact hr
  | cons c cs ih =>
    cases hrun with
    | cons hlive hc hcs =>
      have hp := Call.passes hr.valid hlive hc
      rw [← after_of_ok hc] at hp hcs
      exact ih (hr.passes hp) hcs

end History

/-- After a run on live handles, each set is a permutation of its values, and for each trail `u` on
which an open level was opened, the values within the frontiers of `u` are those that were there on
`u`, in any order. -/
theorem zones_kept {cs : List Call} (h : Runs empty cs t) :
    t.Permuted ∧ (History.ofCalls cs).now = t ∧ (History.ofCalls cs).Nested ∧
      ∀ u ∈ (History.ofCalls cs).opened, KeepsZones u t := by
  have hr : (History.ofCalls cs).Returning := History.returning_start.runs h
  have hnow : (History.ofCalls cs).now = t := (History.now_foldl .start cs).trans h.foldl_after
  refine ⟨(h.valid valid_empty).permuted, hnow, hr.nested, fun u hu => ?_⟩
  obtain ⟨hv, hret⟩ := hr.opened u hu
  have hkeeps := hret.keepsZones hv
  rwa [hnow] at hkeeps

/-- The three members that the set had when the inner level was opened have changed places since. -/
theorem zones_kept_reordered : ∃ cs t, cs = [.newSparse 4 10, .newBounded 4, .save, .remove ⟨0⟩ 11,
      .enforce ⟨0⟩ 2, .save, .newSparse 2 0, .removeAllBut ⟨0⟩ 12, .exclude ⟨0⟩ 0, .save,
      .enforce ⟨0⟩ 3, .restore] ∧
    Runs empty cs t ∧ t.depth = 2 ∧ t.sparseArena.slice 0 3 = .ok [2, 3, 0] ∧
    (∃ u ∈ (History.ofCalls cs).opened, SparseRef.size ⟨0⟩ u = .ok 3 ∧
      u.sparseArena.slice 0 3 = .ok [0, 3, 2]) ∧
    t.Permuted ∧ (History.ofCalls cs).now = t ∧ (History.ofCalls cs).Nested ∧
      ∀ u ∈ (History.ofCalls cs).opened, KeepsZones u t := by
  obtain ⟨cs, hcs, hplay⟩ : ∃ cs, cs = [Call.newSparse 4 10, .newBounded 4, .save, .remove ⟨0⟩ 11,
      .enforce ⟨0⟩ 2, .save, .newSparse 2 0, .removeAllBut ⟨0⟩ 12, .exclude ⟨0⟩ 0, .save,
      .enforce ⟨0⟩ 3, .restore] ∧
      (play cs empty).any (fun t => decide (t.depth = 2 ∧
        t.sparseArena.slice 0 3 = .ok [2, 3, 0] ∧
        ∃ u ∈ (History.ofCalls cs).opened, SparseRef.size ⟨0⟩ u = .ok 3 ∧
          u.sparseArena.slice 0 3 = .ok [0, 3, 2])) = true :=
    ⟨_, rfl, by decide +kernel⟩
  obtain ⟨t, h, ht⟩ := (Option.any_eq_true _ _).1 hplay
  obtain ⟨hdepth, hslice, hopened⟩ := of_decide_eq_true ht
  exact ⟨cs, t, hcs, runs_of_play h, hdepth, hslice, hopened, zones_kept (runs_of_play h)⟩

end Trail

end Propagation
