import Propagation.Proofs.Model.Dispatch

/-!
# Rounds of the loop

One round of a propagation dispatches the events of the sink, takes the head of the queue and runs
it, if it is active (`execute_active`), or just makes its entry idle (`execute_inactive`). Whatever
the propagator does, a round leaves the other entries as they are (`Model.Executed`), and keeps the
model tidy; so does the whole propagation (`Tidy.fixpoint_ends`).
-/

set_option autoImplicit false

namespace Propagation

open Update

namespace Model

variable {ν π : Type} {m m' : Model ν π} {p : PropagatorId} {e : Entry π}

/-! ## Activity -/

/-- `Active` only depends on the part of the store that its steps leave alone. -/
theorem active_of_store (hm : m.Valid) (hseat : m'.seat = m.seat)
    (h : m.store.Evolves m'.store) (q : Nat) : m'.Active q ↔ m.Active q := by
  rw [Active, Active, ActiveIn, ActiveIn, hseat]
  refine exists_congr fun r => and_congr_right fun hr => ?_
  rw [h.ints _ (hm.ne_vars (r := .enabled q) (by rintro ⟨⟩) (cell_enabled hr)),
    h.ints _ (hm.ne_vars (r := .retired q) (by rintro ⟨⟩) (cell_retired hr))]

/-- Setting the retired flag of `p` deactivates `p` and no other propagator. -/
theorem active_retired (hm : m.Valid) (he : m.entries[p.id]? = some e) {t : Trail}
    (hview : t.view = m.store.trail.view.setInt e.retired.cell.index (BoolRef.bit true))
    (trace : Array (TraceItem ν)) (q : Nat) :
    ({ m with store := { m.store with trail := t }, trace } : Model ν π).Active q ↔
      q ≠ p.id ∧ m.Active q := by
  have hp := cell_retired (seat_of_entry he)
  show (∃ s, m.seat q = some s ∧ t.view.int _ = _ ∧ t.view.int _ = _) ↔ q ≠ p.id ∧ ∃ s, _
  rw [hview]
  by_cases hq : q = p.id
  · subst hq
    refine ⟨?_, fun h => absurd rfl h.1⟩
    rintro ⟨r, hr, -, hretired⟩
    obtain rfl := Option.some.inj ((seat_of_entry he).symm.trans hr)
    rw [Entry.seat, View.setInt_self] at hretired
    cases bit_inj (Option.some.inj hretired)
  · rw [and_iff_right hq]
    refine exists_congr fun r => and_congr_right fun hr => ?_
    have hp' : m.cell (.retired p.id) = some e.retired.cell.index := hp
    have henabled : r.enabled.cell.index ≠ e.retired.cell.index := fun h => by
      cases hm.apart _ _ _ (cell_enabled hr) (h ▸ hp')
    have hretired : r.retired.cell.index ≠ e.retired.cell.index := fun h =>
      hq (Role.retired.inj (hm.apart _ _ _ (cell_retired hr) (h ▸ hp')))
    rw [View.setInt_of_ne _ _ henabled, View.setInt_of_ne _ _ hretired]

/-! ## Running -/

section
variable [Propagator ν π]

/-- The action that the entry `e` is scheduled for: `propagate` if it is coarse, else `propagateOn`
for its pending events. -/
def job (ν : Type) [Propagator ν π] (e : Entry π) : Action ν π Unit :=
  if e.coarse then Propagator.propagate
  else e.pending.forM fun x => Propagator.propagateOn x.1 x.2

/-- The line of the trace that announces the run of `p`. -/
def announcement (ν : Type) [Propagator ν π] (p : PropagatorId) (e : Entry π) : LogLine :=
  if e.coarse then .swept (Propagator.name ν e.propagator) p
  else .woken (Propagator.name ν e.propagator) p e.pending

/-- The workspace in which `p` is run. -/
def desk (m : Model ν π) (p : PropagatorId) (e : Entry π) : Workspace ν π :=
  { store := { m.store with running := some p }, own := e.propagator, notes := #[] }

/-- The model after the run of `p` has left the workspace `w`. -/
def ran (m : Model ν π) (p : PropagatorId) (e : Entry π) (w : Workspace ν π)
    (running : Option PropagatorId) : Model ν π :=
  { m with
    store := { w.store with running }
    entries := m.entries.setIfInBounds p.id { e.idle with propagator := w.own }
    trace := m.trace.push (.line (announcement ν p e)) ++ w.notes.map .note }

theorem setIfInBounds_modify {α : Type} (xs : Array α) (i : Nat) (f : α → α) (a : α) :
    (xs.modify i f).setIfInBounds i a = xs.setIfInBounds i a := by
  refine Array.ext_getElem? fun j => ?_
  rw [Array.getElem?_setIfInBounds, Array.getElem?_setIfInBounds, Array.getElem?_modify,
    Array.size_modify]
  split <;> rfl

theorem acted_idled (m : Model ν π) (p : PropagatorId) (e : Entry π) (w : Workspace ν π) :
    ({ (m.withRunning (some p)) with
      entries := m.entries.modify p.id Entry.idle
      trace := m.trace.push (.line (announcement ν p e)) } : Model ν π).acted p e.idle w =
        m.ran p e w w.store.running := by
  simp only [acted, ran, addNotes, withRunning, setIfInBounds_modify]

theorem filter_apply (he : m.entries[p.id]? = some e) :
    filter p e (m.withRunning (some p)) = match (job ν e).run (m.desk p e) with
      | .ok _ w => .ok () (m.ran p e w w.store.running)
      | .error f w => .error f (m.ran p e w w.store.running) := by
  -- the model before the propagator is run, idle and announced
  let m₁ : Model ν π := { (m.withRunning (some p)) with
    entries := m.entries.modify p.id Entry.idle
    trace := m.trace.push (.line (announcement ν p e)) }
  have hidle : m₁.entries[p.id]? = some e.idle := by
    show (m.entries.modify p.id Entry.idle)[p.id]? = _
    rw [Array.getElem?_modify, if_pos rfl, he]
    rfl
  have hact : filter p e (m.withRunning (some p)) = act p (job ν e) m₁ := by
    have hm₁ : m₁ = { (m.withRunning (some p)) with
        entries := m.entries.modify p.id Entry.idle
        trace := m.trace.push (.line (announcement ν p e)) } := rfl
    rw [hm₁, filter, bind_ok _ (lift_ok (mapEntry_apply _ _ _)), announcement, job]
    split
    · exact bind_ok _ (lift_ok (say_apply _ _))
    · exact bind_ok _ (lift_ok (say_apply _ _))
  have hrun := act_apply hidle (job ν e)
  have hdesk : ({ store := m₁.store, own := e.idle.propagator, notes := #[] } : Workspace ν π) =
      m.desk p e := rfl
  rw [hact, hrun, hdesk]
  cases (job ν e).run (m.desk p e) with
  | ok a w => exact congrArg (EStateM.Result.ok ()) (acted_idled m p e w)
  | error f w => exact congrArg (EStateM.Result.error f) (acted_idled m p e w)

theorem execute_inactive (he : m.entries[p.id]? = some e) (hb : activeEntry e m = .ok false) :
    execute p m = .ok () { m with entries := m.entries.modify p.id Entry.idle } := by
  rw [execute, bind_ok _ (lift_ok (query_ok (m := m) (Checked.fetch_eq_ok.2 he))),
    bind_ok _ (lift_ok (query_ok hb))]
  exact lift_ok (mapEntry_apply _ _ _)

theorem execute_active (he : m.entries[p.id]? = some e) (hb : activeEntry e m = .ok true) :
    execute p m = match (job ν e).run (m.desk p e) with
      | .ok _ w => (lift (retire p) : Attempt ν π Unit) (m.ran p e w none)
      | .error (.contradiction c) w => .error (.contradiction c) (m.ran p e w none)
      | .error (.fault f) w => .error (.fault f) (m.ran p e w w.store.running) := by
  have hfilter := filter_apply (m := m) he
  have hrun : asRunning p (filter p e) m = match (job ν e).run (m.desk p e) with
      | .ok _ w => .ok () (m.ran p e w none)
      | .error (.contradiction c) w => .error (.contradiction c) (m.ran p e w none)
      | .error (.fault f) w => .error (.fault f) (m.ran p e w w.store.running) := by
    rw [asRunning, hfilter]
    cases (job ν e).run (m.desk p e) with
    | ok a w => rfl
    | error f w => cases f <;> rfl
  rw [execute, bind_ok _ (lift_ok (query_ok (m := m) (Checked.fetch_eq_ok.2 he))),
    bind_ok _ (lift_ok (query_ok hb)), if_pos rfl, bind_apply, hrun]
  cases (job ν e).run (m.desk p e) with
  | ok a w => rfl
  | error f w => cases f <;> rfl

/-- `retire p` sets the retired flag if the `entailment` of the propagator is `entailed`, and faults
only if it does. -/
theorem Valid.retire_ends (hm : m.Valid) (he : m.entries[p.id]? = some e) :
    Ends (retire p : Op ν π Unit) m
      (fun _ m' => ∃ a, Propagator.entailment ν e.propagator m.store = .ok a ∧
        (a ≠ .entailed → m' = m) ∧
        (a = .entailed → m.Evolves m' ∧ ∃ t, m.store.Widens t ∧
          t.view = m.store.trail.view.setInt e.retired.cell.index (BoolRef.bit true) ∧
          m' = { m with
            store := { m.store with trail := t }
            trace := m.trace.push (.line (.retired (Propagator.name ν e.propagator) p)) }))
      fun f m' => m' = m ∧ Propagator.entailment ν e.propagator m.store = .error f := by
  unfold retire
  refine Ends.of_eq ?_ (bind_ok _ (query_ok (m := m) (Checked.fetch_eq_ok.2 he)))
  cases hx : Propagator.entailment ν e.propagator m.store with
  | error f => exact ends_of_error (bind_error _ (query_error (m := m) hx)) ⟨rfl, rfl⟩
  | ok a =>
    refine Ends.of_eq ?_ (bind_ok _ (query_ok (m := m) hx))
    have hrole := cell_retired (seat_of_entry he)
    split
    · next ha =>
      have hsaid := Evolves.say hm (.retired (Propagator.name ν e.propagator) p)
      obtain ⟨t, hset, ht, hev⟩ := hsaid.valid.set_flag (r := .retired p.id) (f := e.retired) hrole
        nofun nofun true
      have hne := hm.ne_vars (r := .retired p.id) nofun hrole
      refine Ends.of_eq ?_ (bind_ok _ (say_apply _ _))
      refine ends_of_ok (by rw [discard_apply, hset]) ⟨a, rfl, ?_, ?_⟩
      · exact fun hna => absurd ha hna
      · exact fun _ => ⟨hsaid.trans hev, t, widens_setInt ht hne, ht.view, rfl⟩
    · next ha => exact ends_of_ok rfl ⟨a, rfl, fun _ => rfl, fun h => absurd h ha⟩

/-! ## What a run leaves alone -/

/-- `m'` is `m` after the run of `p`, or after `p` was passed over because it is not active: its
entry is idle, and all others are unchanged. -/
structure Executed (m : Model ν π) (p : PropagatorId) (m' : Model ν π) : Prop where
  evolves : m.Evolves m'
  size : m'.entries.size = m.entries.size
  subscriptions : m'.subscriptions = m.subscriptions
  queue : m'.queue = m.queue
  others : ∀ q ≠ p.id, m'.entries[q]? = m.entries[q]?
  own : ∀ e, m.entries[p.id]? = some e → ∃ x, m'.entries[p.id]? =
    some { e.idle with propagator := x }
  active : ∀ q ≠ p.id, m'.Active q ↔ m.Active q
  retired : m'.Active p.id → m.Active p.id

omit [Propagator ν π] in
theorem executed_idled (hm : m.Valid) (p : PropagatorId) :
    m.Executed p { m with entries := m.entries.modify p.id Entry.idle } where
  evolves := steps_of_keeps (core_mapEntry (f := Entry.idle) (fun _ => rfl) p) m hm.evolves_self
  size := Array.size_modify
  subscriptions := rfl
  queue := rfl
  others q hq := by
    show (m.entries.modify p.id Entry.idle)[q]? = _
    rw [Array.getElem?_modify, if_neg (Ne.symm hq)]
  own e he := by
    refine ⟨e.propagator, ?_⟩
    show (m.entries.modify p.id Entry.idle)[p.id]? = _
    rw [Array.getElem?_modify, if_pos rfl, he]
    rfl
  active q _ := active_of_core (core_mapEntry (f := Entry.idle) (fun _ => rfl) p m) q
  retired := (active_of_core (core_mapEntry (f := Entry.idle) (fun _ => rfl) p m) p.id).1

theorem executed_ran (hm : m.Valid) (he : m.entries[p.id]? = some e) {w : Workspace ν π}
    (hw : m.store.Evolves w.store) (r : Option PropagatorId) : m.Executed p (m.ran p e w r) := by
  have hstore : m.store.Evolves { w.store with running := r } :=
    hw.trans (hw.valid.evolves_aside w.store.sink r)
  have hlt : p.id < m.entries.size := (Array.getElem?_eq_some_iff.1 he).1
  have hseat : (m.ran p e w r).seat = m.seat := by
    funext q
    show ((m.entries.setIfInBounds p.id _)[q]?).map Entry.seat = _
    rw [Array.getElem?_setIfInBounds, seat]
    split
    · next hq =>
      subst hq
      rw [he]
      rfl
    · rfl
  have hactive : ∀ q, (m.ran p e w r).Active q ↔ m.Active q := active_of_store hm hseat hstore
  have hev : m.Evolves (m.ran p e w r) := by
    have h := Evolves.withStore hm hstore
    refine h.trans (.of_core h.valid ?_)
    have hseats : (m.ran p e w r).entries.map Entry.seat = m.entries.map Entry.seat := by
      refine Array.ext_getElem? fun q => ?_
      rw [Array.getElem?_map, Array.getElem?_map]
      exact congrFun hseat q
    simp only [core, hseats]
    rfl
  exact
    { evolves := hev
      size := Array.size_setIfInBounds
      subscriptions := rfl
      queue := rfl
      others := fun q hq => by
        show (m.entries.setIfInBounds p.id _)[q]? = _
        rw [Array.getElem?_setIfInBounds, if_neg (Ne.symm hq)]
      own := fun e' he' => by
        obtain rfl := Option.some.inj (he.symm.trans he')
        refine ⟨w.own, ?_⟩
        show (m.entries.setIfInBounds p.id _)[p.id]? = _
        rw [Array.getElem?_setIfInBounds, if_pos rfl, if_pos hlt]
      active := fun q _ => hactive q
      retired := (hactive p.id).1 }

/-- `Executed` is kept by `retire p` after the run. -/
theorem Executed.retire (h : m.Executed p m') (he : m.entries[p.id]? = some e) :
    Ends (Model.retire p : Op ν π Unit) m' (fun _ m'' => m.Executed p m'')
      fun _ m'' => m'' = m' := by
  obtain ⟨x, hx⟩ := h.own e he
  refine (h.evolves.valid.retire_ends hx).mono (fun _ m'' ⟨a, _, hnot, hent⟩ => ?_)
    fun _ _ h => h.1
  by_cases ha : a = .entailed
  · obtain ⟨hev, t, -, hview, rfl⟩ := hent ha
    have hactive := active_retired h.evolves.valid hx hview
    exact
      { evolves := h.evolves.trans hev
        size := h.size
        subscriptions := h.subscriptions
        queue := h.queue
        others := h.others
        own := h.own
        active := fun q hq => (hactive _ q).trans ((and_iff_right hq).trans (h.active q hq))
        retired := fun hp => absurd rfl ((hactive _ p.id).1 hp).1 }
  · exact hnot ha ▸ h

/-- `execute p` ends as `Executed`, also if it ends in a contradiction. If it faults it is a step of
the model nevertheless. -/
theorem Valid.execute_ends (hm : m.Valid) (he : m.entries[p.id]? = some e) :
    Ends (execute p : Attempt ν π Unit) m (fun _ m' => m.Executed p m') fun f m' =>
      (∀ c, f = .contradiction c → m.Executed p m' ∧ m'.store.running = none) ∧ m.Evolves m' := by
  obtain ⟨b, hb, -⟩ := hm.activeEntry he
  cases b with
  | false => exact ends_of_ok (execute_inactive he hb) (executed_idled hm p)
  | true =>
    have hends := (job ν e).run_evolves (w := m.desk p e) (hm.store.evolves_aside _ _).valid
    have hdesk := hm.store.evolves_aside m.store.sink (some p)
    have hrun := execute_active (m := m) he hb
    cases hjob : (job ν e).run (m.desk p e) with
    | ok _ w =>
      rw [hjob] at hrun
      have h := executed_ran hm he (hdesk.trans (hends.of_ok hjob)) none
      exact (Ends.mapError ((h.retire he).mono (fun _ _ h => h)
        fun _ _ heq => ⟨nofun, heq ▸ h.evolves⟩)).of_eq hrun
    | error f w =>
      rw [hjob] at hrun
      have h := fun r => executed_ran hm he (hdesk.trans (hends.of_error hjob)) r
      cases f with
      | contradiction c =>
        exact ends_of_error hrun ⟨fun c' hc => ⟨h none, rfl⟩, (h none).evolves⟩
      | fault f => exact ends_of_error hrun ⟨nofun, (h _).evolves⟩

end

/-! ## Dispatching keeps a model tidy -/

section
variable {m₁ : Model ν π}

theorem Dispatched.core (h : m.Dispatched m₁) :
    ({ m₁ with store := { m₁.store with sink := m.store.sink } } : Model ν π).core = m.core :=
  h.handed.core

theorem Dispatched.store (h : m.Dispatched m₁) : m₁.store = { m.store with sink := .empty } := by
  have hstore : { m₁.store with sink := m.store.sink } = m.store := congrArg (·.1) h.core
  rw [← h.sink, ← hstore]

theorem Dispatched.subscriptions (h : m.Dispatched m₁) : m₁.subscriptions = m.subscriptions :=
  congrArg (·.2.2.2.1) h.core

theorem Dispatched.size (h : m.Dispatched m₁) : m₁.entries.size = m.entries.size := by
  have hseats : m₁.entries.map Entry.seat = m.entries.map Entry.seat :=
    congrArg (·.2.2.1) h.core
  simpa using congrArg Array.size hseats

theorem Dispatched.evolves (h : m.Dispatched m₁) (hm : m.Valid) : m.Evolves m₁ := by
  have hback := Evolves.of_core hm h.core
  have haside := Evolves.aside hback.valid m₁.store.sink m₁.store.running
  exact hback.trans haside

theorem Dispatched.active (h : m.Dispatched m₁) (p : Nat) : m₁.Active p ↔ m.Active p :=
  active_of_core h.core p

/-- An entry after a dispatch is one from before with more events pending, unless it was coarse. -/
theorem Dispatched.entry (h : m.Dispatched m₁) {p : Nat} {e : Entry π}
    (he : m₁.entries[p]? = some e) : ∃ e₀, m.entries[p]? = some e₀ ∧
      e = { e₀ with pending := e.pending } ∧ (e₀.coarse = true → e.pending = e₀.pending) ∧
      ((∀ y ∈ e₀.pending, y.2.isEmpty = false) → ∀ y ∈ e.pending, y.2.isEmpty = false) ∧
      ∀ i f, e.Awaits i f ↔ e₀.Awaits i f ∨ e₀.coarse = false ∧ m.Active p ∧
        ∃ x ∈ m.audience m.store.sink.toList, Hits x.1 x.2 ∧ x.2.propagator = ⟨p⟩ ∧
          x.2.localIndex = i ∧ f ∈ x.1.mask ∧ f ∈ x.2.mask := by
  have hp : p < m.entries.size := h.size ▸ (Array.getElem?_eq_some_iff.1 he).1
  obtain ⟨l, hl, hrest⟩ := h.handed.entry p _ (Array.getElem?_eq_getElem hp)
  obtain rfl := Option.some.inj (he.symm.trans hl)
  exact ⟨_, Array.getElem?_eq_getElem hp, rfl, hrest⟩

theorem Dispatched.tidy (h : m.Dispatched m₁) (ht : m.Tidy) (hm : m.Valid) : m₁.Tidy := by
  refine ht.of_evolves hm (h.evolves hm) h.size h.subscriptions h.handed.queue (fun p hp => ?_)
    (fun p e he hbusy => ?_) fun p e he x hx => ?_
  · rcases (h.handed.queued p).1 hp with hp | ⟨-, x, hx, -, rfl⟩
    · exact ht.queued p hp
    · obtain ⟨y, -, hy⟩ := List.mem_flatMap.1 hx
      obtain ⟨s, hs, rfl⟩ := List.mem_map.1 hy
      exact ht.ids _ s hs
  · obtain ⟨e₀, he₀, heq, -, hmasks, hawaits⟩ := h.entry he
    refine (h.handed.queued ⟨p⟩).2 ?_
    rcases hbusy with hcoarse | hpending
    · rw [heq] at hcoarse
      exact .inl (ht.busy p e₀ he₀ (.inl hcoarse))
    · -- what is pending was pending before, or has just hit
      obtain ⟨x, hx⟩ := List.exists_mem_of_ne_nil _ hpending
      obtain ⟨f, hf⟩ := Mask.isEmpty_eq_false_iff.1 (hmasks (ht.masks p e₀ he₀) x hx)
      rcases (hawaits x.1 f).1 ⟨x.2, hx, hf⟩ with ⟨n, hn, -⟩ | ⟨-, hact, y, hy, hhit, hyp, -⟩
      · exact .inl (ht.busy p e₀ he₀ (.inr (List.ne_nil_of_mem hn)))
      · exact .inr ⟨hact, y, hy, hhit, hyp⟩
  · obtain ⟨e₀, he₀, -, -, hmasks, -⟩ := h.entry he
    exact hmasks (ht.masks p e₀ he₀) x hx

/-- `next` dispatches and takes the head `p` of the queue, if there is one. -/
theorem Tidy.next_ends (ht : m.Tidy) (hm : m.Valid) :
    Ends (next : Op ν π (Option PropagatorId)) m
      (fun o m' => ∃ m₁, m.Dispatched m₁ ∧ match o with
        | none => m₁.queue.pop = none ∧ m' = m₁
        | some p => ∃ q, m₁.queue.pop = some (p, q) ∧ m' = { m₁ with queue := q })
      fun _ _ => False := by
  unfold next
  refine (ht.dispatch_ends hm).bind fun _ m₁ h => ?_
  refine Ends.of_eq ?_ (bind_ok _ (get_apply _))
  cases hpop : m₁.queue.pop with
  | none => exact ends_of_ok rfl ⟨m₁, h, hpop, rfl⟩
  | some x =>
    obtain ⟨p, q⟩ := x
    exact ends_of_ok rfl ⟨m₁, h, q, hpop, rfl⟩

/-- Replacing the queue is a step of the model. -/
theorem Evolves.withQueue (hm : m.Valid) (q : Queue) :
    m.Evolves { m with queue := q } :=
  .of_core hm rfl

/-- `Executed`, after `p` has left the queue, keeps `Tidy`. -/
theorem Executed.tidy {q : Queue} (h : ({ m with queue := q } : Model ν π).Executed p m')
    (hpop : m.queue.pop = some (p, q)) (ht : m.Tidy) (hm : m.Valid) : m'.Tidy := by
  obtain ⟨hq, -, hrest⟩ := ht.queue.pop_some hpop
  have hp : p.id < m.entries.size := ht.size ▸ ht.queued p ((hrest p).2 (.inl rfl))
  -- the propagator itself is idle; about the others nothing has changed
  have hentry : ∀ (r : Nat) (e : Entry π), m'.entries[r]? = some e →
      (r = p.id ∧ e.coarse = false ∧ e.pending = []) ∨ (r ≠ p.id ∧ m.entries[r]? = some e) := by
    intro r e he
    by_cases hr : r = p.id
    · subst hr
      obtain ⟨x, hx⟩ := h.own _ (Array.getElem?_eq_getElem hp)
      cases he.symm.trans hx
      exact .inl ⟨rfl, rfl, rfl⟩
    · exact .inr ⟨hr, (h.others r hr).symm.trans he⟩
  have hev := (Evolves.withQueue hm q).trans h.evolves
  refine ht.of_evolves hm hev h.size h.subscriptions (h.queue ▸ hq) (fun r hr => ?_)
    (fun r e he hbusy => ?_) fun r e he x hx => ?_
  · rw [h.queue] at hr
    exact ht.queued r ((hrest r).2 (.inr hr))
  · rw [h.queue]
    rcases hentry r e he with ⟨-, hcoarse, hpending⟩ | ⟨hr, he⟩
    · rcases hbusy with hbusy | hbusy
      · rw [hcoarse] at hbusy
        cases hbusy
      · exact absurd hpending hbusy
    · rcases (hrest ⟨r⟩).1 (ht.busy r e he hbusy) with heq | hmem
      · exact absurd (congrArg PropagatorId.id heq) hr
      · exact hmem
  · rcases hentry r e he with ⟨-, -, hpending⟩ | ⟨-, he⟩
    · rw [hpending] at hx
      cases hx
    · exact ht.masks r e he x hx

end

/-! ## The loop -/

section
variable [Propagator ν π]

/-- The queue and the sink are empty, and no entry is coarse or has pending events. -/
structure Rests (m : Model ν π) : Prop where
  queue : m.queue.isEmpty = true
  sink : m.store.sink = .empty
  idle : ∀ (p : Nat) (e : Entry π), m.entries[p]? = some e → e.coarse = false ∧ e.pending = []

omit [Propagator ν π] in
/-- A tidy model with an empty queue and an empty sink rests. -/
theorem Tidy.rests (ht : m.Tidy) (hq : m.queue.isEmpty = true) (hs : m.store.sink = .empty) :
    m.Rests := by
  refine ⟨hq, hs, fun p e he => ?_⟩
  have hbusy : ¬(e.coarse = true ∨ e.pending ≠ []) := fun hbusy => by
    have := ht.busy p e he hbusy
    rw [Queue.isEmpty_iff.1 hq] at this
    cases this
  exact ⟨by simpa using fun hc => hbusy (.inl hc), not_not.1 fun hp => hbusy (.inr hp)⟩

omit [Propagator ν π] in
theorem Dispatched.rests {m₁ : Model ν π} (h : m.Dispatched m₁) (ht : m.Tidy) (hm : m.Valid)
    (hpop : m₁.queue.pop = none) : m₁.Rests := by
  have ht₁ := h.tidy ht hm
  exact ht₁.rests (ht₁.queue.pop_eq_none.1 hpop) h.sink

/-- The run lemma of `settle`: an invariant `I` that each round keeps holds until the queue is empty
after a dispatch. -/
theorem settle_ends_of {I ok : Model ν π → Prop} {bad : Failure → Model ν π → Prop}
    (hI : ∀ m, I m → m.Valid ∧ m.Tidy)
    (hrest : ∀ m m₁, I m → m.Dispatched m₁ → m₁.queue.pop = none → ok m₁)
    (hround : ∀ m m₁ p q e, I m → m.Dispatched m₁ → m₁.queue.pop = some (p, q) →
      m₁.entries[p.id]? = some e →
        Ends (execute p : Attempt ν π Unit) { m₁ with queue := q } (fun _ m₂ => I m₂) bad)
    (hexhausted : ∀ m', bad (.fault .exhausted) m') (n : Nat) (h : I m) :
    Ends (settle n : Attempt ν π Unit) m (fun _ m' => ok m') bad := by
  have hnext : ∀ m, I m → Ends (lift next : Attempt ν π (Option PropagatorId)) m
      (fun o m' => ∃ m₁, m.Dispatched m₁ ∧ match o with
        | none => m₁.queue.pop = none ∧ m' = m₁
        | some p => ∃ q, m₁.queue.pop = some (p, q) ∧ m' = { m₁ with queue := q }) bad :=
    fun m hm => Ends.mapError (((hI m hm).2.next_ends (hI m hm).1).mono (fun _ _ h => h)
      fun _ _ h => h.elim)
  induction n generalizing m with
  | zero =>
    refine (hnext m h).bind ?_
    rintro (_ | p) m' ⟨m₁, hd, hnext⟩
    · obtain ⟨hpop, rfl⟩ := hnext
      exact ends_of_ok rfl (hrest m _ h hd hpop)
    · exact ends_of_error rfl (hexhausted _)
  | succ n ih =>
    refine (hnext m h).bind ?_
    rintro (_ | p) m' ⟨m₁, hd, hnext⟩
    · obtain ⟨hpop, rfl⟩ := hnext
      exact ends_of_ok rfl (hrest m _ h hd hpop)
    · obtain ⟨q, hpop, rfl⟩ := hnext
      obtain ⟨hm, ht⟩ := hI m h
      have ht₁ := hd.tidy ht hm
      have hp : p.id < m₁.entries.size := ht₁.lt_of_pop hpop
      exact (hround m m₁ p q _ h hd hpop (Array.getElem?_eq_getElem hp)).bind fun _ _ => ih

/-- `settle` keeps the model tidy, whether it succeeds or ends in a contradiction. -/
theorem Tidy.settle_ends (ht : m.Tidy) (hm : m.Valid) (n : Nat) :
    Ends (settle n : Attempt ν π Unit) m (fun _ m' => m'.Valid ∧ m'.Tidy ∧ m'.Rests)
      fun f m' => ∀ c, f = .contradiction c → m'.Valid ∧ m'.Tidy := by
  refine settle_ends_of (I := fun m => m.Valid ∧ m.Tidy) (fun _ h => h) ?_ ?_ ?_ n ⟨hm, ht⟩
  · rintro m m₁ ⟨hm, ht⟩ hd hpop
    exact ⟨(hd.evolves hm).valid, hd.tidy ht hm, hd.rests ht hm hpop⟩
  · rintro m m₁ p q e ⟨hm, ht⟩ hd hpop he
    have hm₁ := (hd.evolves hm).valid
    have hkept : ∀ m₂, ({ m₁ with queue := q } : Model ν π).Executed p m₂ → m₂.Valid ∧ m₂.Tidy :=
      fun m₂ h => ⟨h.evolves.valid, h.tidy hpop (hd.tidy ht hm) hm₁⟩
    exact ((Evolves.withQueue hm₁ q).valid.execute_ends he).mono (fun _ m₂ h => hkept m₂ h)
      fun f m₂ h c hc => hkept m₂ (h.1 c hc).1
  · rintro m' c ⟨⟩

omit [Propagator ν π] in
theorem Tidy.finish (ht : m.Tidy) (hm : m.Valid) (l : LogLine) : (m.finish l).Tidy :=
  ht.of_evolves hm (.finish hm l) rfl rfl ht.queue ht.queued ht.busy ht.masks

omit [Propagator ν π] in
theorem getElem?_abandon {p : Nat} {e : Entry π} (he : m.abandon.entries[p]? = some e) :
    ∃ e₀, m.entries[p]? = some e₀ ∧ e = e₀.idle := by
  have he : (m.entries.map Entry.idle)[p]? = some e := he
  rw [Array.getElem?_map] at he
  obtain ⟨e₀, he₀, rfl⟩ := Option.map_eq_some_iff.1 he
  exact ⟨e₀, he₀, rfl⟩

omit [Propagator ν π] in
theorem rests_abandon (m : Model ν π) : m.abandon.Rests where
  queue := rfl
  sink := rfl
  idle p e he := by
    obtain ⟨e₀, -, rfl⟩ := getElem?_abandon he
    exact ⟨rfl, rfl⟩

omit [Propagator ν π] in
theorem Tidy.abandon (ht : m.Tidy) (hm : m.Valid) : m.abandon.Tidy := by
  have hidle := (rests_abandon m).idle
  refine ht.of_evolves hm (.abandon hm) Array.size_map rfl ht.queue.clear (fun p hp => ?_)
    (fun p e he hbusy => ?_) fun p e he x hx => ?_
  · have hp : m.queue.clear.contains p = true := hp
    rw [Queue.contains_clear] at hp
    cases hp
  · obtain ⟨hcoarse, hpending⟩ := hidle p e he
    rcases hbusy with hbusy | hbusy
    · rw [hcoarse] at hbusy
      cases hbusy
    · exact absurd hpending hbusy
  · rw [(hidle p e he).2] at hx
    cases hx

/-- `fixpoint` leaves the model tidy and at rest, unless it faults. -/
theorem Tidy.fixpoint_ends (ht : m.Tidy) (hm : m.Valid) :
    Ends (fixpoint : Attempt ν π Unit) m (fun _ m' => m'.Valid ∧ m'.Tidy ∧ m'.Rests)
      fun f m' => ∀ c, f = .contradiction c → m'.Valid ∧ m'.Tidy ∧ m'.Rests := by
  have hends := ht.settle_ends hm m.budget
  cases hx : settle m.budget m with
  | ok a u =>
    obtain ⟨hu, htu, hrest⟩ := hends.of_ok hx
    refine ends_of_ok (by rw [fixpoint, hx]) ⟨(Evolves.finish hu _).valid, htu.finish hu _, ?_⟩
    exact ⟨hrest.queue, hrest.sink, hrest.idle⟩
  | error f u =>
    cases f with
    | contradiction c =>
      obtain ⟨hu, htu⟩ := hends.of_error hx c rfl
      have hv := (Evolves.abandon hu).valid
      have hrest := rests_abandon u
      exact ends_of_error (by rw [fixpoint, hx]) fun _ _ =>
        ⟨(Evolves.finish hv _).valid, (htu.abandon hu).finish hv _, hrest.queue, hrest.sink, hrest.idle⟩
    | fault f =>
      have hfault : fixpoint m = .error (.fault f) u := by rw [fixpoint, hx]
      exact ends_of_error hfault (by rintro c ⟨⟩)

end

end Model

end Propagation
