import Propagation.Model.Call
import Propagation.Proofs.Model.Valid

/-!
# Steps of the engine

Scheduling, dispatching and running propagators are steps of a model (`Model.Evolves`), whatever
the propagators do and however it ends. So the levels come through a propagation as they are, and
so do the propagators and their subscriptions.
-/

set_option autoImplicit false

namespace Propagation

open Update

namespace Store

variable {s : Store}

theorem onward_evolves : Onward Evolves := ⟨Evolves.trans, fun h => h.valid.evolves_self⟩

theorem Valid.evolves_aside (hs : s.Valid) (k : Sink) (p : Option PropagatorId) :
    s.Evolves { s with sink := k, running := p } :=
  { hs.evolves_self with
    valid := hs.aside k p
    rooted := ⟨(rooted_self s).domain, (rooted_self s).offset⟩ }

theorem Valid.evolves_clearDeltas (hs : s.Valid) : s.Evolves s.clearDeltas :=
  { hs.evolves_self with
    valid := hs.clearDeltas
    rooted := ⟨(rooted_self s).domain, (rooted_self s).offset⟩ }

theorem steps_create (d : Shape) : Steps Evolves (create d) := fun _ hs =>
  after_of_ends (hs.valid.create_evolves d)

theorem steps_narrow (v : Var) (n : Narrowing) (c : Cause) : Steps Evolves (narrow v n c) :=
  fun _ hs => after_of_ends (hs.valid.narrow_evolves v n c)

end Store

namespace Model

variable {ν π : Type} {ε α : Type} {m : Model ν π}

theorem query_ok {f : Model ν π → Except Fault α} {a : α} (h : f m = .ok a) :
    query f m = .ok a m := query_apply_ok h

theorem query_error {f : Model ν π → Except Fault α} {e : Fault} (h : f m = .error e) :
    query f m = .error e m := query_apply_error h

theorem lift_ok {x : Op ν π α} {a : α} {m' : Model ν π} (h : x m = .ok a m') :
    lift x m = .ok a m' := by
  rw [lift, mapError_apply, h]

/-! ## Entries and the queue -/

theorem mapEntry_apply (p : PropagatorId) (f : Entry π → Entry π) (m : Model ν π) :
    mapEntry p f m = .ok () { m with entries := m.entries.modify p.id f } := rfl

theorem core_mapEntry {f : Entry π → Entry π} (hf : ∀ e, (f e).seat = e.seat)
    (p : PropagatorId) : Keeps core (mapEntry p f : Op ν π Unit) := by
  refine keeps_modify fun m => ?_
  have hseats : (m.entries.modify p.id f).map Entry.seat = m.entries.map Entry.seat := by
    refine Array.ext_getElem? fun i => ?_
    rw [Array.getElem?_map, Array.getElem?_map, Array.getElem?_modify]
    split
    · cases m.entries[i]? <;> simp [hf]
    · rfl
  simp only [core, hseats]

theorem core_say (l : LogLine) : Keeps core (say l : Op ν π Unit) := keeps_modify fun _ => rfl

theorem core_enqueue (p : PropagatorId) : Keeps core (enqueue p : Op ν π Unit) :=
  (keeps_query _).bind fun _ => keeps_modify fun _ => rfl

theorem core_schedule (p : PropagatorId) : Keeps core (schedule p : Op ν π Unit) :=
  (keeps_query _).discard.bind fun _ => (core_mapEntry (f := Entry.swept) (fun _ => rfl) p).bind fun _ =>
    core_enqueue p

theorem schedule_apply {p : PropagatorId} {e : Entry π} (he : m.entries[p.id]? = some e) :
    (schedule p : Op ν π Unit) m = .ok () { m with
      entries := m.entries.modify p.id Entry.swept
      queue := m.queue.enqueue p e.priority } := by
  have hfetch := Checked.fetch_eq_ok.2 he
  have hfetch' : Checked.fetch (m.entries.modify p.id Entry.swept) p.id = .ok e.swept := by
    rw [Checked.fetch_eq_ok, Array.getElem?_modify, if_pos rfl, he]
    rfl
  rw [schedule, bind_ok (a := ()) _ (by rw [discard_apply, query_ok (m := m) hfetch]),
    bind_ok _ (mapEntry_apply _ _ _), enqueue, bind_ok _ (query_ok hfetch')]
  rfl

theorem core_notify (event : PendingEvent) (s : Subscription) :
    Keeps core (notify event s : Op ν π Unit) := by
  have hseat : ∀ e : Entry π,
      (e.addPending s.localIndex (event.mask ∩ s.mask)).seat = e.seat := fun e => by
    rw [Entry.addPending]
    split <;> rfl
  refine keeps_ite (keeps_pure _) (keeps_ite (keeps_pure _) ?_)
  exact (keeps_query _).bind fun e => (keeps_query _).bind fun b =>
    keeps_ite ((core_mapEntry hseat _).bind fun _ => core_enqueue _) (keeps_pure _)

theorem core_notifyAll (event : PendingEvent) : Keeps core (notifyAll event : Op ν π Unit) :=
  keeps_get.bind fun _ => keeps_forM (core_notify event) _

/-! ## Updates of the store -/

theorem steps_onStore {x : Store.Op α} (hx : Steps Store.Evolves x) :
    Steps Evolves (onStore x : Op ν π α) :=
  hx.within (fun _ hm => hm.valid.store.evolves_self) fun _ _ hm => .withStore hm.valid

theorem Evolves.aside (hm : m.Valid) (k : Sink) (p : Option PropagatorId) :
    m.Evolves { m with store := { m.store with sink := k, running := p } } :=
  .withStore hm (hm.store.evolves_aside k p)

theorem steps_dispatch : Steps Evolves (dispatch : Op ν π Unit) :=
  steps_get.bind onward_evolves fun _ =>
    (steps_forM onward_evolves (fun e => steps_of_keeps (core_notifyAll e)) _).bind onward_evolves
      fun _ => steps_modify fun m hm => .aside hm.valid .empty m.store.running

theorem steps_next : Steps Evolves (next : Op ν π (Option PropagatorId)) := by
  refine steps_dispatch.bind onward_evolves fun _ => steps_get_bind fun m hm => ?_
  split
  · exact hm
  · exact .of_core hm.valid rfl

/-! ## Running a propagator -/

/-- The model after `p` with the entry `e` has acted and left the workspace `w`. -/
def acted (m : Model ν π) (p : PropagatorId) (e : Entry π) (w : Workspace ν π) : Model ν π :=
  { m.addNotes w.notes with
    store := w.store
    entries := m.entries.setIfInBounds p.id { e with propagator := w.own } }

theorem act_apply {p : PropagatorId} {e : Entry π} (he : m.entries[p.id]? = some e)
    (x : Action ν π α) :
    act p x m = match x.run { store := m.store, own := e.propagator, notes := #[] } with
      | .ok a w => .ok a (m.acted p e w)
      | .error f w => .error f (m.acted p e w) := by
  unfold act
  split
  · next h =>
    rw [he] at h
    cases h
  · next h =>
    obtain rfl := Option.some.inj (he.symm.trans h)
    rfl

theorem Evolves.acted (hm : m.Valid) {p : PropagatorId} {e : Entry π}
    (he : m.entries[p.id]? = some e) {w : Workspace ν π} (hw : m.store.Evolves w.store) :
    m.Evolves (m.acted p e w) := by
  have hstore := Evolves.withStore hm hw
  refine hstore.trans (.of_core hstore.valid ?_)
  have hseats : (m.entries.setIfInBounds p.id { e with propagator := w.own }).map Entry.seat =
      m.entries.map Entry.seat := by
    refine Array.ext_getElem? fun i => ?_
    rw [Array.getElem?_map, Array.getElem?_map, Array.getElem?_setIfInBounds]
    split
    · next hi =>
      subst hi
      rw [he, if_pos (Array.getElem?_eq_some_iff.1 he).1]
      rfl
    · rfl
  simp only [core, Model.acted, hseats]
  rfl

/-- `act` is a step of the model, for any action and however it ends. -/
theorem steps_act (p : PropagatorId) (x : Action ν π α) : Steps Evolves (act p x) := by
  intro m hm
  cases he : m.entries[p.id]? with
  | none =>
    have hact : act p x m = .error (.fault .index) m := by
      rw [act, he]
    rw [after_of_error hact]
    exact hm
  | some e =>
    have hends := x.run_evolves (w := { store := m.store, own := e.propagator, notes := #[] })
      hm.valid.store
    have hact := act_apply he x
    cases hrun : x.run { store := m.store, own := e.propagator, notes := #[] } with
    | ok a w =>
      rw [hrun] at hact
      exact after_of_ok hact ▸ .acted hm.valid he (hends.of_ok hrun)
    | error f w =>
      rw [hrun] at hact
      exact after_of_error hact ▸ .acted hm.valid he (hends.of_error hrun)

theorem steps_asRunning {x : Attempt ν π α} (hx : Steps Evolves x) (p : PropagatorId) :
    Steps Evolves (asRunning p x) := by
  intro m hm
  have hbegin : m.Evolves (m.withRunning (some p)) := .aside hm.valid m.store.sink (some p)
  have hx' := hx _ hbegin.valid.evolves_self
  rw [after, asRunning]
  revert hx'
  rw [after]
  cases x (m.withRunning (some p)) with
  | ok a u =>
    intro hu
    exact (hbegin.trans hu).trans (.aside hu.valid u.store.sink none)
  | error f u =>
    intro hu
    cases f with
    | contradiction c => exact (hbegin.trans hu).trans (.aside hu.valid u.store.sink none)
    | fault f => exact hbegin.trans hu

theorem Valid.evolves_flag (hm : m.Valid) {r : Role} {f : BoolRef}
    (hf : m.cell r = some f.cell.index) (hvars : r ≠ .vars) (hprops : r ≠ .props) (b : Bool) :
    m.Evolves ((onTrail (f.set b) : Op ν π Bool).after m) := by
  obtain ⟨t, hset, -, h⟩ := hm.set_flag hf hvars hprops b
  rwa [after_of_ok hset]

theorem say_apply (l : LogLine) (m : Model ν π) :
    say l m = .ok () { m with trace := m.trace.push (.line l) } := rfl

theorem Evolves.say (hm : m.Valid) (l : LogLine) :
    m.Evolves { m with trace := m.trace.push (.line l) } := .of_core hm rfl

theorem Evolves.finish (hm : m.Valid) (l : LogLine) : m.Evolves (m.finish l) := by
  have h := Evolves.withStore hm hm.store.evolves_clearDeltas
  exact h.trans (.of_core h.valid rfl)

theorem Evolves.abandon (hm : m.Valid) : m.Evolves m.abandon := by
  have h := Evolves.aside hm .empty m.store.running
  refine h.trans (.of_core h.valid ?_)
  simp only [core, Model.abandon, Array.map_map]
  rfl

section
variable [Propagator ν π]

theorem steps_filter (p : PropagatorId) (e : Entry π) :
    Steps Evolves (filter p e : Attempt ν π Unit) := by
  have hidle : Steps Evolves (mapEntry p Entry.idle : Op ν π Unit) :=
    steps_of_keeps (core_mapEntry (f := Entry.idle) (fun _ => rfl) p)
  have hsay : ∀ l, Steps Evolves (lift (say l) : Attempt ν π Unit) := fun l =>
    (steps_of_keeps (core_say l)).mapError _
  refine (hidle.mapError _).bind onward_evolves fun _ => steps_ite ?_ ?_
  · exact (hsay _).bind onward_evolves fun _ => steps_act p _
  · exact (hsay _).bind onward_evolves fun _ => steps_act p _

theorem steps_retire (p : PropagatorId) : Steps Evolves (retire p : Op ν π Unit) := by
  refine steps_query_bind fun m hm e he => ?_
  have hrole := cell_retired (seat_of_entry (Checked.fetch_eq_ok.1 he))
  have hsaid := Evolves.say hm.valid (.retired (Propagator.name ν e.propagator) p)
  cases hx : Propagator.entailment ν e.propagator m.store with
  | error f =>
    rwa [after_bind_error _ (query_error (m := m) hx)]
  | ok x =>
    rw [after_bind_ok _ (query_ok (m := m) hx)]
    split
    · rw [after_bind_ok _ (say_apply _ _), after_discard]
      exact hsaid.trans (hsaid.valid.evolves_flag (r := .retired p.id) hrole nofun nofun true)
    · exact hm

theorem steps_execute (p : PropagatorId) : Steps Evolves (execute p : Attempt ν π Unit) := by
  refine ((steps_query _).mapError _).bind onward_evolves fun e => ?_
  refine ((steps_query _).mapError _).bind onward_evolves fun b => steps_ite ?_ ?_
  · exact (steps_asRunning (steps_filter p e) p).bind onward_evolves fun _ =>
      (steps_retire p).mapError _
  · exact (steps_of_keeps (core_mapEntry (f := Entry.idle) (fun _ => rfl) p)).mapError _

/-! ## The loop -/

theorem steps_settle (n : Nat) : Steps Evolves (settle n : Attempt ν π Unit) := by
  induction n with
  | zero =>
    exact (steps_next.mapError _).bind onward_evolves fun _ => steps_ite (steps_throw _) (steps_pure _)
  | succ n ih =>
    refine (steps_next.mapError _).bind onward_evolves fun q => ?_
    cases q with
    | none => exact steps_pure _
    | some p => exact (steps_execute p).bind onward_evolves fun _ => ih

theorem steps_fixpoint : Steps Evolves (fixpoint : Attempt ν π Unit) := by
  intro m hm
  have h : m.Evolves ((settle m.budget).after m) := steps_settle m.budget m hm
  revert h
  rw [after, after, fixpoint]
  cases settle m.budget m with
  | ok a u => exact fun h => h.trans (.finish h.valid _)
  | error f u =>
    cases f with
    | contradiction c =>
      exact fun h => (h.trans (.abandon h.valid)).trans (.finish (Evolves.abandon h.valid).valid _)
    | fault f => exact id

end

/-! ## Control -/

theorem entry_eq_ok {p : PropagatorId} {e : Entry π} (h : m.entry p = .ok e) :
    p.id < m.propagatorCount ∧ m.entries[p.id]? = some e := by
  rw [Model.entry] at h
  split at h
  · next hp => exact ⟨hp, Checked.fetch_eq_ok.1 h⟩
  · cases h

theorem steps_enable (p : PropagatorId) : Steps Evolves (enable p : Op ν π Unit) := by
  refine steps_query_bind fun m hm e he => ?_
  have hrole := cell_enabled (seat_of_entry (entry_eq_ok he).2)
  obtain ⟨t, hset, -, h⟩ := hm.valid.set_flag (f := e.enabled) hrole nofun nofun true
  rw [after_bind_ok (a := ()) _ (by rw [discard_apply, hset])]
  exact h.trans (steps_of_keeps (core_schedule p) _ h.valid.evolves_self)

theorem steps_disable (p : PropagatorId) : Steps Evolves (disable p : Op ν π Unit) := by
  refine steps_query_bind fun m hm e he => ?_
  have hrole := cell_enabled (seat_of_entry (entry_eq_ok he).2)
  obtain ⟨t, hset, -, h⟩ := hm.valid.set_flag (f := e.enabled) hrole nofun nofun false
  rw [after_bind_ok (a := ()) _ (by rw [discard_apply, hset])]
  exact h.trans (steps_of_keeps (core_mapEntry
    (f := fun e => { e with pending := [] }) (fun _ => rfl) p) _ h.valid.evolves_self)

/-! ## Variables -/

theorem steps_onDomain (v : Var) (n : Narrowing) (c : Cause) :
    Steps Evolves (onDomain v n c : Op ν π Answer) := by
  intro m hm
  have hnarrow := Store.steps_narrow v n c _ hm.valid.store.evolves_self
  revert hnarrow
  rw [after, after, onDomain, answering, within_apply]
  cases Store.narrow v n c m.store with
  | ok b s => exact .withStore hm.valid
  | error f s => cases f <;> exact .withStore hm.valid

end Model

end Propagation
