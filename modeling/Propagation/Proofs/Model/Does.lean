import Propagation.Proofs.Model.Session

/-!
# What a call does

The inversion of `Call.perform` on a session that is `Ready`, with one case for each way in which a
call may end without a fault (`Call.Does`). A property of models has to be checked for these cases
only.
-/

set_option autoImplicit false

namespace Propagation

open Update

variable {ν π : Type}

namespace Model

/-- In the trail `t` the flag `f` is `b`, and all else is as in the trail of `m`. -/
structure Flagged (m : Model ν π) (f : BoolRef) (b : Bool) (t : Trail) : Prop where
  turns : Trail.Turns m.store.trail (m.store.trail.view.setInt f.cell.index (BoolRef.bit b)) t
  evolves : m.Evolves { m with store := { m.store with trail := t } }

/-- The model with the trail `t` and `p` scheduled with a coarse entry. -/
def rescheduled (m : Model ν π) (p : PropagatorId) (e : Entry π) (t : Trail) : Model ν π :=
  { m with
    store := { m.store with trail := t }
    entries := m.entries.modify p.id Entry.swept
    queue := m.queue.enqueue p e.priority }

/-- The model with the trail `t` and no pending events for `p`. -/
def muted (m : Model ν π) (p : PropagatorId) (t : Trail) : Model ν π :=
  { m with
    store := { m.store with trail := t }
    entries := m.entries.modify p.id fun e => { e with pending := [] } }

variable {m : Model ν π} {f : BoolRef} {b : Bool} {t : Trail}

/-- Scheduling `p` adds nothing to what `Evolves` is about. -/
theorem Flagged.rescheduled (h : m.Flagged f b t) (p : PropagatorId) (e : Entry π) :
    m.Evolves (m.rescheduled p e t) := by
  have hseats : (m.entries.modify p.id Entry.swept).map Entry.seat = m.entries.map Entry.seat :=
    congrArg (·.2.2.1) (core_mapEntry (f := Entry.swept) (fun _ => rfl) p m)
  refine h.evolves.trans (.of_core h.evolves.valid ?_)
  simp only [core, Model.rescheduled, hseats]

theorem Flagged.muted (h : m.Flagged f b t) (p : PropagatorId) : m.Evolves (m.muted p t) := by
  have hseats : (m.entries.modify p.id fun e => { e with pending := [] }).map Entry.seat =
      m.entries.map Entry.seat :=
    congrArg (·.2.2.1) (core_mapEntry (f := fun e : Entry π => { e with pending := [] })
      (fun _ => rfl) p m)
  refine h.evolves.trans (.of_core h.evolves.valid ?_)
  simp only [core, Model.muted, hseats]

end Model

namespace Session

/-- The session with the model `m` instead. -/
def withModel (s : Session ν π) (m : Model ν π) : Session ν π := { s with model := m }

/-- The session with the store `t` in its model instead. -/
def withStore (s : Session ν π) (t : Store) : Session ν π :=
  s.withModel { s.model with store := t }

end Session

variable [Propagator ν π]

/-- `c.Does s a s'`: on the session `s`, the call `c` may be answered by `a` and leave `s'`. -/
inductive Call.Does (s : Session ν π) : Call π → Answer → Session ν π → Prop
  | create {d : Shape} {v : Var} {t : Store} (h : s.model.store.Created v d.dom t) :
    Does s (.create d) (.var v) (s.withStore t)
  | narrow {v : Var} {n : Narrowing} {c : Cause} {b : Bool} {t : Store}
    (h : s.model.store.Succeeds v n c b t) : Does s (.narrow v n c) (.narrowed b) (s.withStore t)
  | refused {v : Var} {n : Narrowing} {c : Cause} {D : Dom} (hv : s.model.store.scene v = some D)
    (ha : D.Accepts n) (hn : D.after n = none) :
    Does s (.narrow v n c) (.contradiction ⟨some v, c, n.refusal⟩) s
  | post {x : π} {setup : Setup ν π} {m : Model ν π}
    (hinit : Propagator.initialise x ⟨s.model.count⟩ s.model.store = .ok setup)
    (h : Model.Posted s.model setup m) :
    Does s (.post x) (.propagator ⟨s.model.count⟩) (s.withModel m)
  | enable {p : PropagatorId} {e : Entry π} {t : Trail} (hp : p.id < s.model.count)
    (he : s.model.entries[p.id]? = some e) (h : s.model.Flagged e.enabled true t) :
    Does s (.enable p) .done (s.withModel (s.model.rescheduled p e t))
  | disable {p : PropagatorId} {e : Entry π} {t : Trail} (hp : p.id < s.model.count)
    (he : s.model.entries[p.id]? = some e) (h : s.model.Flagged e.enabled false t) :
    Does s (.disable p) .done (s.withModel (s.model.muted p t))
  | save : Does s .save .done (s.withModel s.model.save)
  | checkpoint : Does s .checkpoint (.marked s.model.store.checkpoint.1.depth)
    ⟨s.model.save, s.marks.push s.model.store.checkpoint.1⟩
  | restore {c : Nat} {w : View} {older : List (Nat × View)} {m : Model ν π}
    (hpast : s.model.store.trail.past = (c, w) :: older) (h : s.model.Reverted w older m) :
    Does s .restore .done (s.withModel m)
  | rollback {k : Nat} {mark : Mark} {newer : List (Nat × View)} {w : View}
    {older : List (Nat × View)} {m : Model ν π} (hk : s.marks[k]? = some mark)
    (hpast : s.model.store.trail.past = newer ++ (mark.clock, w) :: older)
    (hdepth : older.length = mark.depth) (h : s.model.Reverted w older m) :
    Does s (.rollback k) .done (s.withModel m)
  | settled {m : Model ν π} (h : Model.settle s.model.budget s.model = .ok () m) :
    Does s .fixpoint .done (s.withModel (m.finish .settled))
  | failed {c : Contradiction} {m : Model ν π}
    (h : Model.settle s.model.budget s.model = .error (.contradiction c) m) :
    Does s .fixpoint (.contradiction c) (s.withModel (m.abandon.finish (.failed c)))
  | isEntailed {p : PropagatorId} {a : Entailment} (h : s.model.isEntailed p = .ok a) :
    Does s (.isEntailed p) (.entailment a) s

omit [Propagator ν π] in
theorem Model.Valid.flag_ends {m : Model ν π} (hm : m.Valid) {p : PropagatorId} {e : Entry π}
    (he : m.entries[p.id]? = some e) (b : Bool) :
    ∃ t, (discard (onTrail (e.enabled.set b)) : Op ν π PUnit) m =
      .ok ⟨⟩ { m with store := { m.store with trail := t } } ∧ m.Flagged e.enabled b t := by
  obtain ⟨t, hset, ht, hev⟩ := hm.set_flag (f := e.enabled) (cell_enabled (seat_of_entry he))
    (by simp) (by simp) b
  exact ⟨t, by rw [discard_apply, hset], ht, hev⟩

open Model in
/-- A call that does not fault ends by one of the cases of `Call.Does`. -/
theorem Call.does_ends (c : Call π) {s : Session ν π} (hs : s.model.Ready) :
    Ends c.perform s (fun a s' => c.Does s a s') fun _ _ => True := by
  cases c with
  | create d =>
    refine Ends.within (Ends.bind (Q := fun v m => ∃ t, s.model.store.Created v d.dom t ∧
      m = { s.model with store := t }) (Ends.within ?_) ?_)
    · exact (hs.valid.store.create_ends d).mono (fun v t h => ⟨t, h, rfl⟩) fun _ _ _ => trivial
    · rintro v _ ⟨t, h, rfl⟩
      exact ends_of_ok (pure_apply _ _) (.create h)
  | narrow v n c =>
    refine Ends.within ?_
    have hends := hs.valid.store.narrow_ends v n c
    unfold Ends onDomain answering
    rw [within_apply]
    cases hrun : Store.narrow v n c s.model.store with
    | ok b t => exact .narrow (hends.of_ok hrun)
    | error f t =>
      cases f with
      | contradiction x =>
        obtain ⟨rfl, rfl, D, hv, ha, hn⟩ := hends.of_error hrun
        exact .refused hv ha hn
      | fault e => trivial
  | post x =>
    refine Ends.within (Ends.bind (hs.valid.post_ends x |>.mono (fun _ _ h => h) fun _ _ _ => trivial)
      ?_)
    rintro _ m ⟨rfl, setup, hinit, h⟩
    exact ends_of_ok (pure_apply _ _) (.post hinit h)
  | enable p =>
    refine Ends.within ?_
    unfold Model.enable
    cases he : s.model.entry p with
    | error f => exact ends_of_error (bind_error _ (bind_error _ (query_error he))) trivial
    | ok e =>
      obtain ⟨hp, he'⟩ := entry_eq_ok he
      rw [hs.valid.propagatorCount_eq] at hp
      obtain ⟨t, hset, ht⟩ := hs.valid.flag_ends he' true
      refine ends_of_ok (bind_ok _ ((bind_ok _ (query_ok he)).trans ((bind_ok _ hset).trans
        (schedule_apply he')))) ?_
      exact .enable hp he' ht
  | disable p =>
    refine Ends.within ?_
    unfold Model.disable
    cases he : s.model.entry p with
    | error f => exact ends_of_error (bind_error _ (bind_error _ (query_error he))) trivial
    | ok e =>
      obtain ⟨hp, he'⟩ := entry_eq_ok he
      rw [hs.valid.propagatorCount_eq] at hp
      obtain ⟨t, hset, ht⟩ := hs.valid.flag_ends he' false
      refine ends_of_ok (bind_ok _ ((bind_ok _ (query_ok he)).trans ((bind_ok _ hset).trans
        (mapEntry_apply _ _ _)))) ?_
      exact .disable hp he' ht
  | save => exact ends_of_ok rfl .save
  | checkpoint => exact ends_of_ok rfl .checkpoint
  | restore =>
    refine Ends.within (Ends.bind (hs.valid.restore_ends.mono (fun _ _ h => h)
      fun _ _ _ => trivial) ?_)
    rintro - m ⟨c, w, older, hpast, h⟩
    exact ends_of_ok (pure_apply _ _) (.restore hpast h)
  | rollback k =>
    unfold Call.perform
    cases hk : Checked.fetch s.marks k with
    | error e => exact ends_of_error (bind_error _ (query_apply_error (s := s) hk)) trivial
    | ok mark =>
      refine Ends.of_eq ?_ (bind_ok _ (query_apply_ok (s := s) hk))
      refine Ends.within (Ends.bind ((hs.valid.rollback_ends mark).mono (fun _ _ h => h)
        fun _ _ _ => trivial) ?_)
      rintro - m ⟨newer, w, older, hpast, hdepth, h⟩
      exact ends_of_ok (pure_apply _ _) (.rollback (Checked.fetch_eq_ok.1 hk) hpast hdepth h)
  | fixpoint =>
    refine Ends.within ?_
    unfold Ends answering Model.fixpoint
    cases hrun : settle s.model.budget s.model with
    | ok a m => exact .settled hrun
    | error f m =>
      cases f with
      | contradiction c => exact .failed hrun
      | fault e => trivial
  | isEntailed p =>
    refine Ends.within ?_
    cases he : s.model.isEntailed p with
    | ok a => exact ends_of_ok (bind_ok _ (query_ok he)) (.isEntailed he)
    | error f => exact ends_of_error (bind_error _ (query_error he)) trivial

end Propagation
