import Propagation.Proofs.Store.Create
import Propagation.Proofs.Store.Level
import Propagation.Proofs.Store.Narrowing
import Propagation.Store.Call

/-!
# How logs grow

Between two clearings the log of a variable only grows, by what happens to its domain
(`Store.Grows`). So it can be replayed on the domain that the variable had when the log was empty.
-/

set_option autoImplicit false

namespace Propagation.Store

open Update

/-- The live variables stay alive, their domains only shrink, and their logs grow by what happens to
these (`Dom.Logged`). New variables have empty logs. -/
structure Grows (s s' : Store) : Prop where
  valid : s'.Valid
  epoch : s'.epoch = s.epoch
  old : ∀ v D, s.scene v = some D → ∃ D' es, s'.scene v = some D' ∧ D'.Within D ∧
    s'.logOf v = s.logOf v ++ es ∧ D.Logged es D'
  new : ∀ v, s.scene v = none → s'.scene v ≠ none → s'.logOf v = []

variable {s s' s'' : Store} {v : Var} {c : Cause} {D D' : Dom}

/-- `Grows` for a step that keeps domains, logs and the epoch. -/
theorem Grows.of_same (hs' : s'.Valid) (hscene : s'.scene = s.scene)
    (hlog : s'.logOf = s.logOf) (hepoch : s'.epoch = s.epoch) : Grows s s' where
  valid := hs'
  epoch := hepoch
  old v D hv := ⟨D, [], by rw [hscene, hv], .refl D, by rw [hlog, List.append_nil], D.logged_self⟩
  new v hv hv' := absurd ((congrFun hscene v).trans hv) hv'

theorem Valid.grows_self (hs : s.Valid) : Grows s s := .of_same hs rfl rfl rfl

theorem Narrowed.grows (h : Narrowed s v c D D' s') : Grows s s' where
  valid := h.valid
  epoch := h.frame.epoch
  old u E hu := by
    by_cases huv : u = v
    · subst huv
      rw [h.before] at hu
      cases hu
      obtain ⟨es, hes, -, hlogged⟩ := h.log
      exact ⟨D', es, h.after, h.within, hes, hlogged⟩
    · refine ⟨E, [], ?_, .refl E, ?_, E.logged_self⟩
      · rw [h.scene, Function.update_of_ne huv, hu]
      · rw [h.log_ne u huv, List.append_nil]
  new u hu hu' := by
    have huv : u ≠ v := by
      rintro rfl
      rw [h.before] at hu
      cases hu
    rw [h.scene, Function.update_of_ne huv] at hu'
    exact absurd hu hu'

theorem Created.grows (h : Created s v D s') : Grows s s' where
  valid := h.valid
  epoch := h.epoch
  old u E hu := by
    have huv : u ≠ v := by
      rintro rfl
      have hlt := (scene_eq_some.1 hu).1
      rw [h.id_eq] at hlt
      exact absurd hlt (Nat.lt_irrefl _)
    refine ⟨E, [], ?_, .refl E, ?_, E.logged_self⟩
    · rw [h.scene, Function.update_of_ne huv, hu]
    · rw [h.log_ne u (by rw [hu]; simp), List.append_nil]
  new u hu hu' := by
    by_cases huv : u = v
    · rw [huv, h.log]
    · rw [h.scene, Function.update_of_ne huv] at hu'
      exact absurd hu hu'

theorem Widens.grows {t : Trail} (h : s.Widens t) (hs : s.Valid) :
    Grows s { s with trail := t } := by
  obtain ⟨hvalid, hscene, -⟩ := h.valid hs
  exact .of_same hvalid hscene rfl rfl

theorem Valid.create_grows (hs : s.Valid) (d : Shape) :
    Ends (create d) s (fun _ s' => Grows s s') fun _ _ => True :=
  (hs.create_ends d).mono (fun _ _ h => h.grows) fun _ _ _ => trivial

/-- A narrowing `Grows`, also if it is refused. -/
theorem Valid.narrow_grows (hs : s.Valid) (v : Var) (n : Narrowing) (c : Cause) :
    Ends (narrow v n c) s (fun _ s' => Grows s s')
      fun f s' => ∀ x, f = .contradiction x → Grows s s' := by
  refine (hs.narrow_ends v n c).mono ?_ ?_
  · rintro _ s' ⟨D, D', -, -, -, h, -⟩
    exact h.grows
  · rintro f s' h x rfl
    obtain ⟨rfl, -⟩ := h
    exact hs.grows_self

/-! ## Several steps -/

/-- The live variables stay alive, and their logs are extended. -/
structure Extends (s s' : Store) : Prop where
  valid : s'.Valid
  epoch : s'.epoch = s.epoch
  live : ∀ v, s.scene v ≠ none → s'.scene v ≠ none
  log : ∀ v, s.scene v ≠ none → s.logOf v <+: s'.logOf v

theorem Valid.extends_self (hs : s.Valid) : Extends s s :=
  ⟨hs, rfl, fun _ h => h, fun _ _ => List.prefix_rfl⟩

theorem Extends.trans (h : Extends s s') (h' : Extends s' s'') : Extends s s'' where
  valid := h'.valid
  epoch := h'.epoch.trans h.epoch
  live v hv := h'.live v (h.live v hv)
  log v hv := (h.log v hv).trans (h'.log v (h.live v hv))

theorem Grows.extends (h : Grows s s') : Extends s s' where
  valid := h.valid
  epoch := h.epoch
  live v hv := by
    obtain ⟨D, hD⟩ := Option.ne_none_iff_exists'.1 hv
    obtain ⟨D', es, hD', -⟩ := h.old v D hD
    rw [hD']
    simp
  log v hv := by
    obtain ⟨D, hD⟩ := Option.ne_none_iff_exists'.1 hv
    obtain ⟨D', es, -, -, hes, -⟩ := h.old v D hD
    exact ⟨es, hes.symm⟩

/-! ## Calls -/

namespace Call

/-- The call clears the logs. -/
def Clears : Call → Prop
  | clearDeltas | restore | rollback _ => True
  | _ => False

/-- A call that clears the logs starts a new epoch. -/
theorem cleared_ends (c : Call) (hs : s.Valid) (hc : c.Clears) :
    Ends c.perform s (fun _ s' => s'.epoch = s.epoch + 1 ∧ ∀ v, s'.logOf v = [])
      fun f s' => ∀ x, f = .contradiction x → s'.epoch = s.epoch + 1 ∧ ∀ v, s'.logOf v = [] := by
  cases c with
  | clearDeltas => exact ends_of_ok (modify_apply _ _) ⟨rfl, logOf_clearDeltas s⟩
  | restore =>
    refine Ends.lift (hs.restore_ends.mono ?_ (by simp))
    rintro - s' ⟨c, w, older, -, h⟩
    exact ⟨h.epoch, h.log⟩
  | rollback m =>
    refine Ends.lift ((hs.rollback_ends m).mono ?_ (by simp))
    rintro - s' ⟨newer, w, older, -, -, h⟩
    exact ⟨h.epoch, h.log⟩
  | create d => exact hc.elim
  | narrow v n c => exact hc.elim
  | clearEvents => exact hc.elim
  | setRunning p => exact hc.elim
  | save => exact hc.elim
  | checkpoint => exact hc.elim
  | trail c => exact hc.elim

theorem grows_ends (c : Call) (htrail : ∀ t, c ≠ .trail t) (hs : s.Valid) (hc : ¬c.Clears) :
    Ends c.perform s (fun _ s' => Grows s s') fun f s' => ∀ x, f = .contradiction x → Grows s s' := by
  cases c with
  | create d =>
    exact (Ends.lift ((hs.create_grows d).mono (fun _ _ h => h) (by simp))).bind
      fun _ _ h => ends_of_ok (pure_apply _ _) h
  | narrow v n c => exact (hs.narrow_grows v n c).discard
  | clearEvents => exact ends_of_ok (modify_apply _ _) (.of_same (hs.aside _ _) rfl rfl rfl)
  | setRunning p => exact ends_of_ok (modify_apply _ _) (.of_same (hs.aside _ _) rfl rfl rfl)
  | save => exact ends_of_ok (modify_apply _ _) (.of_same hs.save (scene_save s) rfl rfl)
  | checkpoint => exact ends_of_ok (modify_apply _ _) (.of_same hs.save (scene_save s) rfl rfl)
  | clearDeltas => exact absurd trivial hc
  | restore => exact absurd trivial hc
  | rollback m => exact absurd trivial hc
  | trail c => exact absurd rfl (htrail c)

end Call

end Propagation.Store
