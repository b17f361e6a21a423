import Propagation.Proofs.Model.Attention

/-!
# Levels and pending changes

Closing a level drops the events that are pending in it. No constraint depends on them afterwards:
if there was work left when the level was opened every active constraint is scheduled for a sweep,
and if there was none they were stable (`Model.Pledged`). So after every call that does not fault
the model is `Attentive`, but for a propagation that has come to a contradiction, after which a
level has to be closed (`Session.minded`).
-/

set_option autoImplicit false

namespace Propagation

open Update Store

namespace Model

variable {ν π : Type} {m m' : Model ν (Constraint ⊕ π)} {w : View} {d p : Nat} {c : Constraint}

/-- What closing the level opened at `w`, within `d` others, requires: if no work was left
(`Model.workAt`), the active constraints were stable, and the retired ones were entailed. -/
structure Pledges (m : Model ν (Constraint ⊕ π)) (w : View) (d : Nat) : Prop where
  stable : m.workAt d = false → ∀ p c, p < m.countIn w → m.Poses p c → m.ActiveIn w p →
    c.Stable (m.store.sceneIn w)
  retired : ∀ p c, p < m.countIn w → m.Poses p c → m.FlagIn w (.retired p) true →
    c.Says (m.store.sceneIn w) .entailed

/-- Every open level `Pledges`. -/
def Pledged (m : Model ν (Constraint ⊕ π)) : Prop :=
  ∀ newer k w older, m.store.trail.past = newer ++ (k, w) :: older → m.Pledges w older.length

theorem Pledges.congr (h : m.Pledges w d) (hcount : m'.countIn w = m.countIn w)
    (hposes : ∀ p < m.countIn w, ∀ c', m'.Poses p c' → ∃ c, m.Poses p c ∧ c.bare = c'.bare)
    (hseat : ∀ p < m.countIn w, m'.seat p = m.seat p)
    (hscene : m'.store.sceneIn w = m.store.sceneIn w) (hwork : m'.workAt d = m.workAt d) :
    m'.Pledges w d where
  stable hd p c' hp hc' hact := by
    rw [hwork] at hd
    rw [hcount] at hp
    obtain ⟨c, hc, hbare⟩ := hposes p hp c' hc'
    rw [hscene, Constraint.stable_of_bare hbare.symm]
    refine h.stable hd p c hp hc ?_
    rwa [ActiveIn, ← hseat p hp]
  retired p c' hp hc' hf := by
    rw [hcount] at hp
    obtain ⟨c, hc, hbare⟩ := hposes p hp c' hc'
    rw [hscene, Constraint.says_of_bare hbare.symm]
    exact h.retired p c hp hc ((flagIn_of_seat (p := p) rfl (hseat p hp)).1 hf)

/-- A step within the innermost level keeps `Pledged`. -/
theorem Pledged.evolves (h : m.Pledged) (hm : m.Valid) (hev : m.Evolves m')
    (hbare : ∀ p < m.count, m'.bareAt p = m.bareAt p) : m'.Pledged := by
  intro newer k w older hpast
  rw [hev.past] at hpast
  have hmem : (k, w) ∈ m.store.trail.past := by rw [hpast]; simp
  have hle := hm.countIn_past hmem
  refine (h newer k w older hpast).congr (hev.countIn w) (fun p hp c' hc' => ?_)
    (fun p hp => hev.seat p (hp.trans_le hle)) (hev.sceneIn hmem) ?_
  · exact exists_of_bareAt ((hbare p (hp.trans_le hle)).symm.trans hc'.bareAt)
  · rw [workAt, workAt, hev.unsettled]

/-- Opening a level keeps `Pledged`: if no work is left, every active constraint is stable. -/
theorem Attentive.save (h : m.Attentive) (hm : m.Valid) (ht : m.Tidy) (hpledged : m.Pledged) :
    m.save.Pledged := by
  intro newer k w older hpast
  have hpush : ∀ i < m.store.trail.past.length, m.save.workAt i = m.workAt i := by
    intro i hi
    rw [← hm.size_unsettled] at hi
    show ((m.unsettled.push m.hasPendingWork)[i]?).getD false = _
    rw [Array.getElem?_push_lt hi, ← Array.getElem?_eq_getElem hi]
    rfl
  have hsave : m.store.trail.save.past = newer ++ (k, w) :: older := hpast
  rw [Trail.past_save hm.store.trail.sound] at hsave
  cases newer with
  | nil =>
    obtain ⟨hx, rfl⟩ := List.cons.inj hsave
    cases hx
    have hwork : m.save.workAt m.store.trail.past.length = m.hasPendingWork := by
      show ((m.unsettled.push m.hasPendingWork)[m.store.trail.past.length]?).getD false = _
      rw [← hm.size_unsettled, Array.getElem?_push_size]
      rfl
    refine ⟨fun hd p c _ hc hact => ?_, fun p c _ hc hf => (h p c hc).retired hf⟩
    have hidle : ¬(m.queue.isEmpty = false ∨ m.store.sink.isEmpty = false) := by
      rw [← hasPendingWork_iff, ← hwork, hd]
      exact Bool.false_ne_true
    rw [not_or, Bool.not_eq_false, Bool.not_eq_false] at hidle
    exact (h p c hc).stable (ht.rests hidle.1 (Sink.isEmpty_iff.1 hidle.2)) hc hact
  | cons x newer =>
    have hpast : m.store.trail.past = newer ++ (k, w) :: older := (List.cons.inj hsave).2
    refine (hpledged newer k w older hpast).congr rfl (fun p _ c' hc' => ⟨c', hc', rfl⟩)
      (fun _ _ => rfl) rfl (hpush _ ?_)
    rw [hpast, List.length_append, List.length_cons]
    omega

section
variable {newer older : List (Nat × View)} {k : Nat}
  (hm : m.Valid) (hpast : m.store.trail.past = newer ++ (k, w) :: older) (hr : m.Reverted w older m')
include hm hpast hr

/-- After levels have been closed, the constraints are those with an index below `m.countIn w`. -/
theorem Reverted.poses : m'.Poses p c ↔ p < m.countIn w ∧ m.Poses p c := by
  rw [Poses, hr.propagatorAt (hm.houses_of_past hpast).countIn_eq.2.2]
  split
  · next hp => exact (and_iff_right hp).symm
  · next hp => exact iff_of_false (by simp) fun h => hp h.1

theorem Reverted.flagIn {w' : View} {r : Role} {b : Bool} (ho : r.owner = some p)
    (hp : p < m.countIn w) : m'.FlagIn w' r b ↔ m.FlagIn w' r b :=
  flagIn_of_seat ho (hr.seat (hm.houses_of_past hpast).countIn_eq.2.2 hp)

theorem Pledged.reverted (h : m.Pledged) : m'.Pledged := by
  intro newer' k' w' older' hpast'
  rw [hr.store.past] at hpast'
  have houter : m.store.trail.past = (newer ++ (k, w) :: newer') ++ (k', w') :: older' := by
    rw [hpast, hpast', List.append_assoc, List.cons_append]
  have hcount : m'.countIn w' = m.countIn w' := by rw [Model.countIn, Model.countIn, hr.alive]
  have hle : m.countIn w' ≤ m.countIn w :=
    le_of_past (f := m.countIn) (hpast ▸ hm.counts) (y := (k', w')) (by rw [hpast']; simp)
  refine (h _ k' w' older' houter).congr hcount (fun p hp c hc => ?_) (fun p hp => ?_) ?_ ?_
  · exact ⟨c, ((hr.poses hm hpast).1 hc).2, rfl⟩
  · exact hr.seat (hm.houses_of_past hpast).countIn_eq.2.2 (hp.trans_le hle)
  · exact congrFun (sceneIn_congr hr.store.domains hr.store.alive) w'
  · rw [workAt, workAt, hr.unsettled, Trail.getElem?_take, if_pos]
    rw [hpast', List.length_append, List.length_cons]
    omega

/-- Closing levels leaves a model that is `Attentive`, although what was pending is lost. -/
theorem Pledged.attentive (h : m.Pledged) : m'.Attentive := by
  intro p c hc
  obtain ⟨hp, hc⟩ := (hr.poses hm hpast).1 hc
  have hle := (hm.houses_of_past hpast).countIn_eq.2.2
  have hpledge := h newer k w older hpast
  have hactive : m'.Active p → m.ActiveIn w p := fun hact => by
    rwa [Active, hr.store.view, ActiveIn, hr.seat hle hp] at hact
  refine ⟨fun hact e he => ?_, fun hf => ?_⟩
  · obtain ⟨hswept, hidle⟩ := hr.entry p hp _ (Array.getElem?_eq_getElem (hp.trans_le hle))
    cases hwork : m.workAt older.length with
    | true =>
      cases he.symm.trans (hswept ⟨hwork, hactive hact⟩)
      exact .inl rfl
    | false =>
      have hstable := hpledge.stable hwork p c hp hc (hactive hact)
      rw [← hr.store.scene] at hstable
      exact .inr (hstable.covered _)
  · rw [hr.store.scene]
    refine hpledge.retired p c hp hc ?_
    rw [Flag, hr.store.view] at hf
    exact (hr.flagIn hm hpast rfl hp).1 hf

theorem Proper.reverted (h : m.Proper) : m'.Proper := by
  intro p hp
  rw [hr.count] at hp
  have hmem : (k, w) ∈ m.store.trail.past := by rw [hpast]; simp
  obtain ⟨c, hc, hd⟩ := h p (hp.trans_le (hm.countIn_past hmem))
  exact ⟨c, (hr.poses hm hpast).2 ⟨hp, hc⟩, hd⟩

end

end Model

end Propagation
