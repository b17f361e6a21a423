import Propagation.Proofs.Model.Moves
import Propagation.Proofs.Model.Round

/-!
# Sessions without faults

Between two calls of a session in which nothing has faulted the model is valid and tidy, and no
events are pending in its entries, since they are added and read within one propagation
(`Model.Ready`). Every call keeps it so (`Call.ready`), and therefore every run (`Session.ready`).
-/

set_option autoImplicit false

namespace Propagation

open Update

variable {ν π : Type}

namespace Model

/-- The state of the model between two calls, if none has faulted: it is valid and tidy, and no
events are pending in its entries. -/
structure Ready (m : Model ν π) : Prop where
  valid : m.Valid
  tidy : m.Tidy
  calm : ∀ (p : Nat) (e : Entry π), m.entries[p]? = some e → e.pending = []

variable {m m' : Model ν π}

theorem ready_empty : (empty : Model ν π).Ready := ⟨valid_empty, tidy_empty, nofun⟩

/-- `Ready` is kept by steps of the store. -/
theorem Ready.withStore (h : m.Ready) {s : Store} (hs : m.store.Evolves s) :
    ({ m with store := s } : Model ν π).Ready :=
  ⟨(Evolves.withStore h.valid hs).valid, h.tidy.withStore h.valid hs, h.calm⟩

theorem Ready.onStore {α : Type} {x : Store.Op α} (hx : Steps Store.Evolves x) (h : m.Ready) :
    Ends (onStore x : Op ν π α) m (fun _ m' => m'.Ready) fun _ _ => True := by
  refine Ends.within ((hx.ends h.valid.store.evolves_self).mono (fun _ _ hs => ?_) fun _ _ _ => ?_)
  · exact h.withStore hs
  · trivial

theorem Ready.onDomain (h : m.Ready) (v : Var) (n : Narrowing) (c : Cause) :
    Ends (onDomain v n c : Op ν π Answer) m (fun _ m' => m'.Ready) fun _ _ => True := by
  have hnarrow := Store.steps_narrow v n c _ h.valid.store.evolves_self
  unfold Model.onDomain Ends answering
  rw [within_apply]
  revert hnarrow
  rw [after]
  cases Store.narrow v n c m.store with
  | ok b s => exact h.withStore
  | error f s =>
    cases f with
    | contradiction x => exact h.withStore
    | fault f => exact fun _ => trivial

/-- Setting the flag of a role succeeds on a `Ready` model, and keeps it `Ready`. -/
theorem Ready.flag (h : m.Ready) {r : Role} {f : BoolRef} (hf : m.cell r = some f.cell.index)
    (hvars : r ≠ .vars) (hprops : r ≠ .props) (b : Bool) :
    ∃ t, (discard (onTrail (f.set b)) : Op ν π PUnit) m =
        .ok ⟨⟩ { m with store := { m.store with trail := t } } ∧
      ({ m with store := { m.store with trail := t } } : Model ν π).Ready := by
  obtain ⟨t, hset, -, hev⟩ := h.valid.set_flag hf hvars hprops b
  refine ⟨t, by rw [discard_apply, hset], hev.valid, ?_, h.calm⟩
  exact h.tidy.of_evolves h.valid hev rfl rfl h.tidy.queue h.tidy.queued h.tidy.busy h.tidy.masks

theorem Ready.enable (h : m.Ready) (p : PropagatorId) :
    Ends (enable p : Op ν π Unit) m (fun _ m' => m'.Ready) fun _ _ => True := by
  unfold Model.enable
  cases he : m.entry p with
  | error f => exact ends_of_error (bind_error _ (query_error (m := m) he)) trivial
  | ok e =>
    have hentry := (entry_eq_ok he).2
    have hrole := cell_enabled (seat_of_entry hentry)
    obtain ⟨t, hset, ht⟩ := h.flag (f := e.enabled) hrole nofun nofun true
    refine Ends.of_eq (Ends.of_eq ?_ (bind_ok _ hset)) (bind_ok _ (query_ok (m := m) he))
    have hcore := steps_of_keeps (core_schedule p : Keeps core (schedule p : Op ν π Unit)) _
      ht.valid.evolves_self
    have htidy := ht.tidy.scheduled ht.valid (p := p) hentry
    rw [after_of_ok (schedule_apply (m := { m with store := { m.store with trail := t } }) hentry)]
      at hcore htidy
    refine ends_of_ok (schedule_apply hentry) ⟨hcore.valid, htidy, fun q f hf => ?_⟩
    have hf : (m.entries.modify p.id Entry.swept)[q]? = some f := hf
    rw [Array.getElem?_modify] at hf
    split at hf
    · obtain ⟨g, -, rfl⟩ := Option.map_eq_some_iff.1 hf
      rfl
    · exact h.calm q f hf

theorem Ready.disable (h : m.Ready) (p : PropagatorId) :
    Ends (disable p : Op ν π Unit) m (fun _ m' => m'.Ready) fun _ _ => True := by
  unfold Model.disable
  cases he : m.entry p with
  | error f => exact ends_of_error (bind_error _ (query_error (m := m) he)) trivial
  | ok e =>
    have hrole := cell_enabled (seat_of_entry (entry_eq_ok he).2)
    obtain ⟨t, hset, ht⟩ := h.flag (f := e.enabled) hrole nofun nofun false
    refine Ends.of_eq (Ends.of_eq ?_ (bind_ok _ hset)) (bind_ok _ (query_ok (m := m) he))
    -- nothing was pending, so the entries are what they were
    have hsame : m.entries.modify p.id (fun e => { e with pending := [] }) = m.entries := by
      refine Array.ext_getElem? fun q => ?_
      rw [Array.getElem?_modify]
      split
      · next hq =>
        subst hq
        cases hq : m.entries[p.id]? with
        | none => rfl
        | some f =>
          rw [Option.map_some, ← h.calm p.id f hq]
      · rfl
    refine ends_of_ok (mapEntry_apply _ _ _) ?_
    show ({ m with
      store := { m.store with trail := t }
      entries := m.entries.modify p.id fun e => { e with pending := [] } } : Model ν π).Ready
    rw [hsame]
    exact ht

theorem Ready.save (h : m.Ready) : m.save.Ready :=
  ⟨h.valid.save, h.tidy.save, h.calm⟩

/-- After levels have been closed no events are pending. -/
theorem Reverted.calm {w : View} {older : List (Nat × View)} (h : m.Reverted w older m')
    (hle : m.countIn w ≤ m.entries.size) (p : Nat) (e : Entry π)
    (he : m'.entries[p]? = some e) : e.pending = [] := by
  have hp : p < m.countIn w := h.size ▸ (Array.getElem?_eq_some_iff.1 he).1
  obtain ⟨hswept, hidle⟩ := h.entry p hp _ (Array.getElem?_eq_getElem (hp.trans_le hle))
  by_cases hwork : m.workAt older.length = true ∧ m.ActiveIn w p
  · cases he.symm.trans (hswept hwork)
    rfl
  · cases he.symm.trans (hidle hwork)
    rfl

theorem Reverted.ready {c : Nat} {w : View} {newer older : List (Nat × View)}
    (h : m.Reverted w older m') (hm : m.Ready)
    (hpast : m.store.trail.past = newer ++ (c, w) :: older) : m'.Ready :=
  ⟨h.valid, h.tidy hm.tidy hm.valid hpast,
    h.calm (hm.valid.houses_of_past hpast).countIn_eq.2.2⟩

section
variable [Propagator ν π]

theorem Posted.ready {setup : Setup ν π} (h : Posted m setup m') (hm : m.Ready) : m'.Ready := by
  refine ⟨h.evolves.valid, h.tidy hm.tidy hm.valid, fun p e he => ?_⟩
  rw [h.getElem?_entries hm.valid] at he
  split at he
  · cases he
    rfl
  · split at he
    · exact hm.calm p e he
    · cases he

theorem Ready.fixpoint (h : m.Ready) :
    Ends (answering (fun _ => .done) fixpoint : Op ν π Answer) m
      (fun _ m' => m'.Ready ∧ m'.Rests) fun _ _ => True := by
  have hends := h.tidy.fixpoint_ends h.valid
  have hready : ∀ {u : Model ν π}, u.Valid ∧ u.Tidy ∧ u.Rests → u.Ready ∧ u.Rests :=
    fun ⟨hu, htu, hrest⟩ => ⟨⟨hu, htu, fun p e he => (hrest.idle p e he).2⟩, hrest⟩
  unfold Ends answering
  cases hx : Model.fixpoint m with
  | ok a u => exact hready (hends.of_ok hx)
  | error f u =>
    cases f with
    | contradiction c => exact hready (hends.of_error hx c rfl)
    | fault f => trivial

end

end Model

/-! ## Calls -/

section
variable [Propagator ν π]

omit [Propagator ν π] in
theorem Session.onModel_ends {α : Type} {x : Model.Op ν π α} {s : Session ν π}
    {ok : Model ν π → Prop} (h : Ends x s.model (fun _ m => ok m) fun _ _ => True) (f : α → Answer) :
    Ends (Session.onModel do let a ← x; pure (f a) : Update Fault (Session ν π) Answer) s
      (fun _ s' => ok s'.model) fun _ _ => True := by
  refine Ends.within (Ends.bind h fun a m hm => ?_)
  exact ends_of_ok (pure_apply _ _) hm

/-- `Ready` is kept by every call that does not fault. -/
theorem Call.ready_ends (c : Call π) {s : Session ν π} (hs : s.model.Ready) :
    Ends c.perform s (fun _ s' => s'.model.Ready) fun _ _ => True := by
  cases c with
  | create d => exact Session.onModel_ends (hs.onStore (Store.steps_create d)) .var
  | narrow v n c => exact Ends.within (hs.onDomain v n c)
  | post x =>
    refine Session.onModel_ends ((hs.valid.post_ends x).mono ?_ fun _ _ _ => trivial) .propagator
    rintro p m' ⟨-, setup, -, h⟩
    exact h.ready hs
  | enable p => exact Session.onModel_ends (hs.enable p) fun _ => .done
  | disable p => exact Session.onModel_ends (hs.disable p) fun _ => .done
  | save => exact ends_of_ok rfl hs.save
  | restore =>
    refine Session.onModel_ends (hs.valid.restore_ends.mono ?_ fun _ _ _ => trivial) fun _ => .done
    rintro - m' ⟨c, w, older, hpast, h⟩
    exact h.ready hs (hpast.trans (List.nil_append _).symm)
  | checkpoint => exact ends_of_ok rfl hs.save
  | rollback k =>
    unfold Call.perform
    cases hk : Checked.fetch s.marks k with
    | error e => exact ends_of_error (bind_error _ (query_apply_error (s := s) hk)) trivial
    | ok mark =>
      refine Ends.of_eq ?_ (bind_ok _ (query_apply_ok (s := s) hk))
      refine Session.onModel_ends ((hs.valid.rollback_ends mark).mono ?_ fun _ _ _ => trivial)
        fun _ => .done
      rintro - m' ⟨newer, w, older, hpast, -, h⟩
      exact h.ready hs hpast
  | fixpoint => exact Ends.within (hs.fixpoint.mono (fun _ _ h => h.1) fun _ _ h => h)
  | isEntailed p =>
    refine Session.onModel_ends ?_ .entailment
    cases he : s.model.isEntailed p with
    | ok a => exact ends_of_ok (Model.query_ok he) hs
    | error f => exact ends_of_error (Model.query_error he) trivial

/-! ## Runs -/

/-- The inversion of a run of at least one call. -/
theorem Session.run_cons {c : Call π} {cs : List (Call π)} {s s' : Session ν π}
    {xs : List (Step ν π)} (h : Session.run (c :: cs) s = .ok xs s') :
    ∃ a s₁ ys, c.perform s = .ok a s₁ ∧ Session.run cs s₁ = .ok ys s' ∧
      xs = ⟨c, a, s₁.model⟩ :: ys := by
  rw [Session.run, bind_apply] at h
  cases hc : c.perform s with
  | error e u =>
    rw [hc] at h
    cases h
  | ok a s₁ =>
    rw [hc] at h
    dsimp only at h
    rw [bind_ok _ (get_apply _), bind_apply] at h
    cases hrun : Session.run cs s₁ with
    | error e u =>
      rw [hrun] at h
      cases h
    | ok ys u =>
      rw [hrun] at h
      cases h
      exact ⟨a, s₁, ys, rfl, hrun, rfl⟩

/-- A call and a run after it are a run. -/
theorem Session.run_of_cons {c : Call π} {cs : List (Call π)} {s s₁ s' : Session ν π} {a : Answer}
    {ys : List (Step ν π)} (hc : c.perform s = .ok a s₁) (hrun : Session.run cs s₁ = .ok ys s') :
    Session.run (c :: cs) s = .ok (⟨c, a, s₁.model⟩ :: ys) s' := by
  rw [Session.run, bind_ok _ hc, bind_ok _ (get_apply _), bind_ok _ hrun]
  rfl

/-- The inversion of a run of appended calls. -/
theorem Session.run_append {cs ds : List (Call π)} {s s' : Session ν π} {xs : List (Step ν π)}
    (h : Session.run (cs ++ ds) s = .ok xs s') : ∃ ys zs s₁, xs = ys ++ zs ∧
      Session.run cs s = .ok ys s₁ ∧ Session.run ds s₁ = .ok zs s' := by
  induction cs generalizing s xs with
  | nil => exact ⟨[], xs, s, rfl, rfl, h⟩
  | cons c cs ih =>
    obtain ⟨a, s₁, rest, hc, hrest, rfl⟩ := run_cons h
    obtain ⟨ys, zs, s₂, rfl, hcs, hds⟩ := ih hrest
    exact ⟨_ :: ys, zs, s₂, rfl, run_of_cons hc hcs, hds⟩

/-- A run has one step for each call. -/
theorem Session.length_run {cs : List (Call π)} {s s' : Session ν π} {xs : List (Step ν π)}
    (h : Session.run cs s = .ok xs s') : xs.length = cs.length := by
  induction cs generalizing s xs with
  | nil =>
    cases h
    rfl
  | cons c cs ih =>
    obtain ⟨a, s₁, ys, -, hrest, rfl⟩ := run_cons h
    exact congrArg (· + 1) (ih hrest)

/-- A run without faults ends in the session that its calls leave. -/
theorem Session.after_of_run {cs : List (Call π)} {s s' : Session ν π} {xs : List (Step ν π)}
    (h : Session.run cs s = .ok xs s') : cs.foldl (fun s c => c.perform.after s) s = s' := by
  induction cs generalizing s xs with
  | nil =>
    cases h
    rfl
  | cons c cs ih =>
    obtain ⟨a, s₁, ys, hc, hrest, -⟩ := run_cons h
    rw [List.foldl_cons, after_of_ok hc]
    exact ih hrest

/-- `Ready` is kept by every run without faults. -/
theorem Session.ready {cs : List (Call π)} {s s' : Session ν π} {xs : List (Step ν π)}
    (h : Session.run cs s = .ok xs s') (hs : s.model.Ready) : s'.model.Ready := by
  induction cs generalizing s xs with
  | nil =>
    cases h
    exact hs
  | cons c cs ih =>
    obtain ⟨a, s₁, ys, hc, hrest, -⟩ := run_cons h
    exact ih hrest ((c.ready_ends hs).of_ok hc)

/-- A run whose steps and last session pass a decidable `test`. -/
theorem Session.exists_steps (cs : List (Call π)) (s : Session ν π)
    (test : List (Step ν π) → Session ν π → Bool)
    (h : passes (Session.run cs) s test = true) :
    ∃ xs s', Session.run cs s = .ok xs s' ∧ test xs s' = true :=
  exists_of_passes h

/-- A run whose last session passes a decidable `test`. -/
theorem Session.exists_run (cs : List (Call π)) (s : Session ν π) (test : Session ν π → Bool)
    (h : passes (Session.run cs) s (fun _ s' => test s') = true) :
    ∃ xs s', Session.run cs s = .ok xs s' ∧ test s' = true :=
  exists_of_passes h

end

end Propagation
