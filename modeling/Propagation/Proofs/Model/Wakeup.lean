import Propagation.Constraint.NotEqual
import Propagation.Proofs.Model.Session
import Propagation.Proofs.Recorded

/-!
# Wake-ups

An active propagator that watches an event is run after the event has been recorded, with the event
pending or with a coarse entry (`Model.Heard`); and an event that is pending in a run was recorded
after the previous run of the propagator, which watches it (`Model.Grounded`). Both hold of the
rounds of every propagation that comes to rest, whatever its propagators do
(`Model.fixpoint_heard_grounded`).
-/

set_option autoImplicit false

namespace Propagation

open Update

namespace Model

variable {ν π : Type} {m m' m₁ m₂ : Model ν π}

/-! ## Due propagators -/

/-- `p` is queued and active, and its entry is coarse or has `f` pending at the local index `i`. -/
structure Due (m : Model ν π) (p : PropagatorId) (i : Nat) (f : Event) : Prop where
  queued : m.queue.contains p = true
  active : m.Active p.id
  entry : ∃ e, m.entries[p.id]? = some e ∧ (e.coarse = true ∨ e.Awaits i f)

section
variable {p r : PropagatorId} {i : Nat} {f : Event} {v : Var} {c : Cause} {x : Subscription}

/-- `Due` is kept by a dispatch. -/
theorem Dispatched.due (h : m.Dispatched m₁) (hd : m.Due p i f) : m₁.Due p i f := by
  obtain ⟨e, he, hwait⟩ := hd.entry
  obtain ⟨l, hl, -, -, hawaits⟩ := h.handed.entry p.id e he
  refine ⟨(h.handed.queued p).2 (.inl hd.queued), (h.active p.id).2 hd.active, _, hl, ?_⟩
  exact hwait.imp id fun hw => (hawaits i f).2 (.inl hw)

theorem mem_audience {events : List PendingEvent} {y : PendingEvent} :
    (y, x) ∈ m.audience events ↔ y ∈ events ∧ x ∈ m.row y.var := by
  simp only [audience, List.mem_flatMap, List.mem_map, Prod.mk.injEq]
  constructor
  · rintro ⟨z, hz, w, hw, rfl, rfl⟩
    exact ⟨hz, hw⟩
  · rintro ⟨hy, hx⟩
    exact ⟨y, hy, x, hx, rfl, rfl⟩

/-- After a dispatch, an active subscriber `x` is `Due` for a pending event that it watches and has
not caused. -/
theorem Dispatched.due_of_waiting (h : m.Dispatched m₁) (hf : m.store.sink.Has v f c)
    (hx : x ∈ m.row v) (hfx : f ∈ x.mask) (hc : c ≠ .propagator x.propagator)
    (hact : m.Active x.propagator.id) : m₁.Due x.propagator x.localIndex f := by
  obtain ⟨y, hy, rfl, rfl, hfy⟩ := hf
  have hmem : (y, x) ∈ m.audience m.store.sink.toList :=
    mem_audience.2 ⟨List.mem_reverse.2 hy, hx⟩
  have hhit : Hits y x := ⟨hc, Mask.isEmpty_eq_false_iff.2 ⟨f, Mask.mem_inter.2 ⟨hfy, hfx⟩⟩⟩
  have ⟨s, hs, _⟩ := hact
  obtain ⟨e, he, -⟩ := Option.map_eq_some_iff.1 hs
  obtain ⟨l, hl, -, -, hawaits⟩ := h.handed.entry _ e he
  refine ⟨(h.handed.queued _).2 (.inr ⟨hact, _, hmem, hhit, rfl⟩), (h.active _).2 hact, _, hl, ?_⟩
  rcases Bool.eq_false_or_eq_true e.coarse with hcoarse | hcoarse
  · exact .inl hcoarse
  · exact .inr ((hawaits _ _).2 (.inr ⟨hcoarse, hact, _, hmem, hhit, rfl, rfl, hfy, hfx⟩))

/-- `Due` is kept by the execution of another propagator. -/
theorem Executed.due {q : Queue} (h : ({ m with queue := q } : Model ν π).Executed r m₂)
    (hpop : m.queue.pop = some (r, q)) (hq : m.queue.Valid) (hne : p ≠ r) (hd : m.Due p i f) :
    m₂.Due p i f := by
  have hid : p.id ≠ r.id := fun hid => hne (congrArg PropagatorId.mk hid)
  obtain ⟨e, he, hwait⟩ := hd.entry
  refine ⟨?_, (h.active _ hid).2 hd.active, e, (h.others _ hid).trans he, hwait⟩
  rw [h.queue]
  exact (((hq.pop_some hpop).2.2 p).1 hd.queued).resolve_left hne

end

end Model

/-! ## Rounds -/

/-- One round of the loop. -/
structure Round (ν π : Type) where
  /-- The propagator at the head of the queue. -/
  propagator : PropagatorId
  /-- The model after the dispatch, without the head of the queue. -/
  ready : Model ν π
  /-- The model after the round. -/
  stop : Model ν π

namespace Model

variable {ν π : Type} [Propagator ν π] {m m' m₁ m₂ : Model ν π}

/-- `Settles m rs m'`: from `m`, the propagation comes to rest at `m'` by the rounds `rs`. -/
inductive Settles : Model ν π → List (Round ν π) → Model ν π → Prop
  | rest {m m' : Model ν π} (h : next m = .ok none m') : Settles m [] m'
  | round {m m₁ m₂ m' : Model ν π} {p : PropagatorId} {rs : List (Round ν π)}
    (hnext : next m = .ok (some p) m₁) (hrun : execute p m₁ = .ok () m₂)
    (h : Settles m₂ rs m') : Settles m (⟨p, m₁, m₂⟩ :: rs) m'

omit [Propagator ν π] in
theorem lift_eq_ok {α : Type} {x : Op ν π α} {a : α} (h : lift x m = .ok a m') :
    x m = .ok a m' := by
  rw [lift, mapError_apply] at h
  cases hx : x m with
  | ok b u =>
    rw [hx] at h
    cases h
    rfl
  | error e u =>
    rw [hx] at h
    cases h

theorem settles_of_ok {n : Nat} (h : settle n m = .ok () m') : ∃ rs, Settles m rs m' := by
  induction n generalizing m with
  | zero =>
    rw [settle, bind_apply] at h
    cases hnext : (lift next : Attempt ν π _) m with
    | error e u =>
      rw [hnext] at h
      cases h
    | ok o u =>
      rw [hnext] at h
      cases o with
      | some p => cases h
      | none =>
        cases h
        exact ⟨[], .rest (lift_eq_ok hnext)⟩
  | succ n ih =>
    rw [settle, bind_apply] at h
    cases hnext : (lift next : Attempt ν π _) m with
    | error e u =>
      rw [hnext] at h
      cases h
    | ok o u =>
      rw [hnext] at h
      cases o with
      | none =>
        cases h
        exact ⟨[], .rest (lift_eq_ok hnext)⟩
      | some p =>
        dsimp only at h
        rw [bind_apply] at h
        cases hrun : execute p u with
        | error e w =>
          rw [hrun] at h
          cases h
        | ok a w =>
          rw [hrun] at h
          obtain ⟨rs, hrs⟩ := ih h
          exact ⟨_ :: rs, .round (lift_eq_ok hnext) hrun hrs⟩

end Model

namespace Round

variable {ν π : Type} [Propagator ν π]

/-- The propagator of the round `r` is run with the entry `e`, not passed over. -/
def Runs (r : Round ν π) (e : Entry π) : Prop :=
  r.ready.entries[r.propagator.id]? = some e ∧
    ∃ w, (Model.job ν e).run (r.ready.desk r.propagator e) = .ok () w ∧
      Model.retire r.propagator (r.ready.ran r.propagator e w none) = .ok () r.stop

/-- The run of the round `r` pushes the event `f` of `v` with the cause `c`. -/
def Records (r : Round ν π) (v : Var) (f : Event) (c : Cause) : Prop :=
  ∃ e, r.Runs e ∧ (Model.job ν e).Records v f c (r.ready.desk r.propagator e)

/-- `r` is a possible first round of a propagation from `m`. -/
structure Follows (m : Model ν π) (r : Round ν π) : Prop where
  handed : ∃ m₁ q, m.Dispatched m₁ ∧ m₁.queue.pop = some (r.propagator, q) ∧
    r.ready = { m₁ with queue := q }
  executed : r.ready.Executed r.propagator r.stop
  runs : ∀ e, r.Runs e ↔ r.ready.entries[r.propagator.id]? = some e ∧
    r.ready.Active r.propagator.id
  sink : ∀ v f c, r.stop.store.sink.Has v f c ↔ r.Records v f c

end Round

namespace Model

variable {ν π : Type} [Propagator ν π] {m m' m₁ m₂ : Model ν π}

/-! ## One round -/

section
variable {p : PropagatorId} {e : Entry π}

/-- `retire p` extends the trace, and leaves the sink as it is. -/
theorem Valid.retire_ok (hm : m.Valid) (he : m.entries[p.id]? = some e)
    (h : (retire p : Op ν π Unit) m = .ok () m') :
    m.trace.size ≤ m'.trace.size ∧ m'.store.sink = m.store.sink := by
  obtain ⟨a, -, hnot, hent⟩ := (hm.retire_ends he).of_ok h
  by_cases ha : a = .entailed
  · obtain ⟨-, t, -, -, rfl⟩ := hent ha
    exact ⟨by simp, rfl⟩
  · obtain rfl := hnot ha
    exact ⟨Nat.le_refl _, rfl⟩

/-- `execute p` runs `p` if it is active, and otherwise makes its entry idle. -/
theorem Valid.execute_ok (hm : m.Valid) (he : m.entries[p.id]? = some e)
    (h : execute p m = .ok () m') :
    (m.Active p.id → Round.Runs ⟨p, m, m'⟩ e) ∧
      (¬m.Active p.id → m' = { m with entries := m.entries.modify p.id Entry.idle }) := by
  obtain ⟨b, hb, hactive⟩ := hm.activeEntry he
  constructor
  · intro hact
    obtain rfl := hactive.2 hact
    rw [execute_active he hb] at h
    cases hjob : (job ν e).run (m.desk p e) with
    | ok a w =>
      rw [hjob] at h
      exact ⟨he, w, hjob, lift_eq_ok h⟩
    | error f w =>
      rw [hjob] at h
      cases f <;> cases h
  · intro hact
    obtain rfl : b = false := by
      rw [← Bool.not_eq_true]
      exact fun hbt => hact (hactive.1 hbt)
    rw [execute_inactive he hb] at h
    cases h
    rfl

/-- A run extends the trace, so the round is not one in which the propagator was passed over. -/
theorem Valid.trace_runs {r : Round ν π} (hm : r.ready.Valid) (h : r.Runs e) :
    r.ready.trace.size < r.stop.trace.size := by
  obtain ⟨he, w, hjob, hretire⟩ := h
  have hends := (job ν e).run_evolves (w := r.ready.desk r.propagator e)
    (hm.store.evolves_aside _ _).valid
  have hdesk := hm.store.evolves_aside r.ready.store.sink (some r.propagator)
  have hran := executed_ran hm he (hdesk.trans (hends.of_ok hjob)) none
  obtain ⟨x, hx⟩ := hran.own e he
  have hsize := (hran.evolves.valid.retire_ok hx hretire).1
  have htrace : (r.ready.ran r.propagator e w none).trace.size =
      r.ready.trace.size + 1 + w.notes.size := by
    simp [ran]
  omega

/-- If the sink was empty before a run, the events in it afterwards are those recorded by its
action. -/
theorem Valid.sink_runs {r : Round ν π} (hm : r.ready.Valid) (hempty : r.ready.store.sink = .empty)
    (h : r.Runs e) (v : Var) (f : Event) (c : Cause) : r.stop.store.sink.Has v f c ↔
      (job ν e).Records v f c (r.ready.desk r.propagator e) := by
  obtain ⟨he, w, hjob, hretire⟩ := h
  have hdesk := hm.store.evolves_aside r.ready.store.sink (some r.propagator)
  have hends := (job ν e).run_evolves (w := r.ready.desk r.propagator e) hdesk.valid
  have hran := executed_ran hm he (hdesk.trans (hends.of_ok hjob)) none
  obtain ⟨x, hx⟩ := hran.own e he
  have hsink : r.stop.store.sink = w.store.sink := (hran.evolves.valid.retire_ok hx hretire).2
  rw [hsink, ((job ν e).run_sink (w := r.ready.desk r.propagator e) hdesk.valid).of_ok hjob]
  refine or_iff_right fun hf => ?_
  have hf : r.ready.store.sink.Has v f c := hf
  rw [hempty] at hf
  exact Sink.not_has_empty hf

theorem Tidy.follows (ht : m.Tidy) (hm : m.Valid) (hnext : next m = .ok (some p) m₁)
    (hrun : execute p m₁ = .ok () m₂) : Round.Follows m ⟨p, m₁, m₂⟩ := by
  obtain ⟨u, h, q, hpop, rfl⟩ := (ht.next_ends hm).of_ok hnext
  have hu := (h.evolves hm).valid
  have hready := (Evolves.withQueue hu q).valid
  have htu := h.tidy ht hm
  have hp : p.id < u.entries.size := htu.lt_of_pop hpop
  have he : ({ u with queue := q } : Model ν π).entries[p.id]? = some u.entries[p.id] :=
    Array.getElem?_eq_getElem hp
  obtain ⟨hact, hinact⟩ := hready.execute_ok he hrun
  have hruns : ∀ e, Round.Runs ⟨p, { u with queue := q }, m₂⟩ e ↔
      u.entries[p.id]? = some e ∧ ({ u with queue := q } : Model ν π).Active p.id := fun e => by
    constructor
    · intro hr
      refine ⟨hr.1, not_not.1 fun hna => ?_⟩
      have hlt := Valid.trace_runs hready hr
      rw [hinact hna] at hlt
      exact Nat.lt_irrefl _ hlt
    · rintro ⟨he', ha⟩
      cases he.symm.trans he'
      exact hact ha
  refine ⟨⟨u, q, h, hpop, rfl⟩, (hready.execute_ends he).of_ok hrun, hruns, fun v f c => ?_⟩
  by_cases ha : ({ u with queue := q } : Model ν π).Active p.id
  · refine (Valid.sink_runs hready h.sink (hact ha) v f c).trans ⟨fun hf => ⟨_, hact ha, hf⟩, ?_⟩
    rintro ⟨e, he', hf⟩
    cases he.symm.trans he'.1
    exact hf
  · constructor
    · intro hf
      have hsink : m₂.store.sink = .empty := by
        rw [hinact ha]
        exact h.sink
      have hf : m₂.store.sink.Has v f c := hf
      rw [hsink] at hf
      exact (Sink.not_has_empty hf).elim
    · rintro ⟨e, he', -⟩
      exact absurd ((hruns e).1 he').2 ha

end

/-! ## No wake-up is lost -/

/-- A propagator that is `Due` for `f` after the first dispatch is run in some round, with an entry
that is coarse or has `f` pending. -/
theorem Settles.run_of_due {p : PropagatorId} {i : Nat} {f : Event} {rs : List (Round ν π)}
    (h : Settles m rs m') (hm : m.Valid) (ht : m.Tidy)
    (hdue : ∀ u, m.Dispatched u → u.Due p i f) :
    ∃ (j : Nat) (r : Round ν π) (e : Entry π), rs[j]? = some r ∧ r.propagator = p ∧ r.Runs e ∧
      (e.coarse = true ∨ e.Awaits i f) := by
  induction h with
  | rest hnext =>
    obtain ⟨u, hu, hpop, -⟩ := (ht.next_ends hm).of_ok hnext
    have hnone := (hu.tidy ht hm).queue.pop_none hpop p
    rw [(hdue u hu).queued] at hnone
    cases hnone
  | @round m m₁ m₂ m' q rs hnext hrun hrest ih =>
    have hfollow := ht.follows hm hnext hrun
    obtain ⟨u, k, hu, hpop, rfl : m₁ = { u with queue := k }⟩ := hfollow.handed
    have hd := hdue u hu
    by_cases hq : p = q
    · subst hq
      obtain ⟨e, he, hwait⟩ := hd.entry
      exact ⟨0, _, e, rfl, rfl, (hfollow.runs e).2 ⟨he, hd.active⟩, hwait⟩
    · have hd₂ := hfollow.executed.due hpop (hu.tidy ht hm).queue hq hd
      have hm₂ := hfollow.executed.evolves.valid
      have ht₂ := hfollow.executed.tidy hpop (hu.tidy ht hm) (hu.evolves hm).valid
      obtain ⟨j, r, e, hj, hrest⟩ := ih hm₂ ht₂ fun u' hu' => hu'.due hd₂
      exact ⟨j + 1, r, e, hj, hrest⟩

/-! ## The course of a propagation -/

/-- The model before the dispatch numbered `k`, which is the one of the round `rs[k]`, or of the
last `next`. -/
def stage (m : Model ν π) (rs : List (Round ν π)) : Nat → Option (Model ν π)
  | 0 => some m
  | k + 1 => (rs[k]?).map Round.stop

/-- The event `f` of `v` by the cause `c` is dispatched by the dispatch numbered `k`: it is in the
sink of `m`, or recorded in the round before. -/
def Occurs (m : Model ν π) (rs : List (Round ν π)) : Nat → Var → Event → Cause → Prop
  | 0, v, f, c => m.store.sink.Has v f c
  | k + 1, v, f, c => ∃ r, rs[k]? = some r ∧ r.Records v f c

/-- Every subscription `x` that matches an event dispatched at `k`, and whose propagator is active
and has not caused it, leads to a run of the propagator in a round `j` with `k ≤ j`, with an entry
that is coarse or has `f` pending at `x.localIndex`. -/
def Heard (m : Model ν π) (rs : List (Round ν π)) : Prop :=
  ∀ k u v f c, stage m rs k = some u → Occurs m rs k v f c →
    ∀ x ∈ u.row v, f ∈ x.mask → c ≠ .propagator x.propagator →
      u.isActive x.propagator = .ok true →
        ∃ (j : Nat) (r : Round ν π) (e : Entry π), k ≤ j ∧ rs[j]? = some r ∧
          r.propagator = x.propagator ∧ r.Runs e ∧
          (e.coarse = true ∨ e.Awaits x.localIndex f)

/-- The event `f` of `v`, which the subscription `x` watches, was dispatched at some `l ≤ k` with a
cause other than `p`, and `p` has not been run in a round `j` with `l ≤ j < k`. -/
def Cited (m : Model ν π) (rs : List (Round ν π)) (k : Nat) (p : PropagatorId) (x : Subscription)
    (v : Var) (f : Event) : Prop :=
  f ∈ x.mask ∧ ∃ l ≤ k, ∃ c ≠ .propagator p, Occurs m rs l v f c ∧
    ∀ j r e, rs[j]? = some r → r.Runs e → r.propagator = p → j < k → j < l

/-- Every propagator that is run is active, and if its entry has pending events, their masks are not
empty and each event is `Cited` for one of its subscriptions. -/
def Grounded (m : Model ν π) (rs : List (Round ν π)) : Prop :=
  ∀ k r e, rs[k]? = some r → r.Runs e → r.ready.isActive r.propagator = .ok true ∧
    ∀ y ∈ e.pending, y.2.isEmpty = false ∧
      ∃ v, ∃ x ∈ m.row v, x.propagator = r.propagator ∧ x.localIndex = y.1 ∧
        ∀ f ∈ y.2, Cited m rs k r.propagator x v f

/-- Every event that is pending in the entries of `u` is `Cited` at the dispatch numbered `k`. -/
def Accounted (m : Model ν π) (rs : List (Round ν π)) (k : Nat) (u : Model ν π) : Prop :=
  ∀ (p : Nat) (e : Entry π), u.entries[p]? = some e → ∀ i f, e.Awaits i f →
    ∃ v, ∃ x ∈ m.row v, x.propagator = ⟨p⟩ ∧ x.localIndex = i ∧ Cited m rs k ⟨p⟩ x v f

/-- The invariant of the model `u` before the dispatch numbered `k` of a propagation that `Settles`.
-/
structure Stage (m : Model ν π) (rs : List (Round ν π)) (m' : Model ν π) (k : Nat)
    (u : Model ν π) : Prop where
  here : stage m rs k = some u
  valid : u.Valid
  tidy : u.Tidy
  rows : u.subscriptions = m.subscriptions
  rest : Settles u (rs.drop k) m'
  sink : ∀ v f c, u.store.sink.Has v f c ↔ Occurs m rs k v f c
  accounted : Accounted m rs k u

section
variable {rs : List (Round ν π)} {k : Nat} {u : Model ν π} {r : Round ν π}

theorem Ready.stage (hm : m.Ready) (h : Settles m rs m') : Stage m rs m' 0 m where
  here := rfl
  valid := hm.valid
  tidy := hm.tidy
  rows := rfl
  rest := h
  sink _ _ _ := Iff.rfl
  accounted p e he i f hf := by
    obtain ⟨n, hn, -⟩ := hf
    rw [hm.calm p e he] at hn
    cases hn

theorem Stage.row (h : Stage m rs m' k u) : u.row = m.row := by
  funext v
  rw [Model.row, Model.row, h.rows]

/-- After a dispatch, what is pending was pending before, or has just been dispatched. -/
theorem Stage.accounted_dispatched (h : Stage m rs m' k u) (hu : u.Dispatched m₁) :
    Accounted m rs k m₁ := by
  intro p e he i f hf
  obtain ⟨e₀, he₀, -, -, -, hawaits⟩ := hu.entry he
  rcases (hawaits i f).1 hf with hf | ⟨-, -, ⟨y, x⟩, hyx, hhit, hp, rfl, hfy, hfx⟩
  · exact h.accounted p e₀ he₀ i f hf
  · obtain ⟨hy, hx⟩ := mem_audience.1 hyx
    rw [h.row] at hx
    have hwait : u.store.sink.Has y.var f y.cause := ⟨y, List.mem_reverse.1 hy, rfl, rfl, hfy⟩
    refine ⟨y.var, x, hx, hp, rfl, hfx, k, Nat.le_refl k, y.cause, ?_, (h.sink _ _ _).1 hwait, ?_⟩
    · exact hp ▸ hhit.1
    · exact fun j r e _ _ _ hj => hj

/-- After a run the entry of its propagator has no pending events, and the other entries are
unchanged. -/
theorem Accounted.executed (h : Accounted m rs k r.ready)
    (hr : r.ready.Executed r.propagator r.stop) (hk : rs[k]? = some r)
    (hp : r.propagator.id < r.ready.entries.size) : Accounted m rs (k + 1) r.stop := by
  intro p e he i f hf
  by_cases hpr : p = r.propagator.id
  · subst hpr
    obtain ⟨x, hx⟩ := hr.own _ (Array.getElem?_eq_getElem hp)
    cases he.symm.trans hx
    obtain ⟨n, hn, -⟩ := hf
    cases hn
  · rw [hr.others p hpr] at he
    obtain ⟨v, x, hx, hxp, hxi, hfx, l, hl, c, hc, hocc, hlast⟩ := h p e he i f hf
    refine ⟨v, x, hx, hxp, hxi, hfx, l, hl.trans (Nat.le_succ k), c, hc, hocc, ?_⟩
    intro j r' e' hj hr' hp' hlt
    rcases Nat.lt_succ_iff_lt_or_eq.1 hlt with hlt | rfl
    · exact hlast j r' e' hj hr' hp' hlt
    · cases hk.symm.trans hj
      exact absurd (congrArg PropagatorId.id hp').symm hpr

theorem Stage.follows (h : Stage m rs m' k u) (hk : rs[k]? = some r) :
    r.Follows u ∧ Settles r.stop (rs.drop (k + 1)) m' := by
  obtain ⟨hlt, rfl⟩ := List.getElem?_eq_some_iff.1 hk
  have hrest := h.rest
  rw [List.drop_eq_getElem_cons hlt] at hrest
  generalize rs[k] = r at hrest
  cases hrest with
  | round hnext hrun hrest => exact ⟨h.tidy.follows h.valid hnext hrun, hrest⟩

/-- The step lemma of `Stage`: from the dispatch numbered `k` to the next one. -/
theorem Stage.succ (h : Stage m rs m' k u) (hk : rs[k]? = some r) :
    Accounted m rs k r.ready ∧ Stage m rs m' (k + 1) r.stop := by
  obtain ⟨hfollow, hrest⟩ := h.follows hk
  obtain ⟨m₁, q, hu, hpop, hready⟩ := hfollow.handed
  have hm₁ := (hu.evolves h.valid).valid
  have ht₁ := hu.tidy h.tidy h.valid
  have hexec := hfollow.executed
  have haccounted : Accounted m rs k r.ready := by
    rw [hready]
    exact fun p e he => h.accounted_dispatched hu p e he
  have hp : r.propagator.id < r.ready.entries.size := by
    rw [hready]
    exact ht₁.lt_of_pop hpop
  refine ⟨haccounted, ?_⟩
  exact
    { here := by rw [stage, hk, Option.map_some]
      valid := hexec.evolves.valid
      tidy := by
        rw [hready] at hexec
        exact hexec.tidy hpop ht₁ hm₁
      rows := by
        rw [hexec.subscriptions, hready]
        exact hu.subscriptions.trans h.rows
      rest := hrest
      sink := fun v f c => by
        rw [hfollow.sink]
        refine ⟨fun hf => ⟨r, hk, hf⟩, ?_⟩
        rintro ⟨r', hr', hf⟩
        cases hk.symm.trans hr'
        exact hf
      accounted := haccounted.executed hexec hk hp }

/-- The run lemma of `Stage.succ`: there is a `Stage` for each dispatch. -/
theorem Ready.stages (hm : m.Ready) (h : Settles m rs m') {k : Nat} (hk : k ≤ rs.length) :
    ∃ u, Stage m rs m' k u := by
  induction k with
  | zero => exact ⟨m, hm.stage h⟩
  | succ k ih =>
    obtain ⟨u, hu⟩ := ih (Nat.le_of_succ_le hk)
    exact ⟨_, (hu.succ (List.getElem?_eq_getElem hk)).2⟩

omit [Propagator ν π] in
theorem le_of_stage (h : stage m rs k = some u) : k ≤ rs.length := by
  cases k with
  | zero => exact Nat.zero_le _
  | succ k =>
    obtain ⟨r, hr, -⟩ := Option.map_eq_some_iff.1 h
    exact (List.getElem?_eq_some_iff.1 hr).1

/-! ## Both laws -/

theorem Ready.heard (hm : m.Ready) (h : Settles m rs m') : Heard m rs := by
  intro k u v f c hu hocc x hx hfx hc hact
  obtain ⟨u', hstage⟩ := hm.stages h (le_of_stage hu)
  cases hu.symm.trans hstage.here
  have hactive := ((hstage.valid.isActive_eq_true hstage.tidy.size).1 hact).2
  obtain ⟨j, r, e, hj, hr⟩ := hstage.rest.run_of_due hstage.valid hstage.tidy fun m₁ h₁ =>
    h₁.due_of_waiting ((hstage.sink v f c).2 hocc) hx hfx hc hactive
  refine ⟨k + j, r, e, Nat.le_add_right k j, ?_, hr⟩
  rwa [List.getElem?_drop] at hj

theorem Ready.grounded (hm : m.Ready) (h : Settles m rs m') : Grounded m rs := by
  intro k r e hk hr
  obtain ⟨u, hstage⟩ := hm.stages h (List.getElem?_eq_some_iff.1 hk).1.le
  obtain ⟨hfollow, -⟩ := hstage.follows hk
  obtain ⟨m₁, q, hu, hpop, hready⟩ := hfollow.handed
  have ht₁ := hu.tidy hstage.tidy hstage.valid
  have hm₁ := (hu.evolves hstage.valid).valid
  obtain ⟨he, hactive⟩ := (hfollow.runs e).1 hr
  constructor
  · have hsize : r.ready.entries.size = r.ready.count := by
      rw [hready]
      exact ht₁.size
    refine ((hready ▸ (Evolves.withQueue hm₁ q).valid : r.ready.Valid).isActive_eq_true hsize).2 ⟨?_, hactive⟩
    exact hsize ▸ (Array.getElem?_eq_some_iff.1 he).1
  · intro y hy
    have hmask : y.2.isEmpty = false := ht₁.masks _ e (by rw [hready] at he; exact he) y hy
    refine ⟨hmask, ?_⟩
    obtain ⟨f₀, hf₀⟩ := Mask.isEmpty_eq_false_iff.1 hmask
    have haccounted := (hstage.succ hk).1 _ e he y.1
    obtain ⟨v, x, hx, hxp, hxi, -⟩ := haccounted f₀ ⟨y.2, hy, hf₀⟩
    refine ⟨v, x, hx, hxp, hxi, fun f hf => ?_⟩
    -- a local index names one subscription, so all the events of the entry are on one variable
    obtain ⟨v', x', hx', hxp', hxi', hcited⟩ := haccounted f ⟨y.2, hy, hf⟩
    obtain ⟨rfl, rfl⟩ := hm.tidy.once v v' x hx x' hx' (hxp.trans hxp'.symm) (hxi.trans hxi'.symm)
    exact hcited

end

/-! ## Events that wait between propagations -/

omit [Propagator ν π] in
theorem sink_onTrail {α : Type} (x : Trail.Op α) :
    Keeps (fun m : Model ν π => m.store.sink) (onTrail x) := by
  have hstore : Keeps Store.sink (Store.onTrail x) := fun s => by
    rw [after, Store.onTrail, within_apply]
    cases x s.trail <;> rfl
  exact hstore.within fun _ _ h => h

omit [Propagator ν π] in
theorem sink_of_core {α : Type} {x : Op ν π α} (h : Keeps core x) :
    Keeps (fun m : Model ν π => m.store.sink) x := fun m => congrArg (fun t => t.1.sink) (h m)

omit [Propagator ν π] in
theorem sink_enable (p : PropagatorId) :
    Keeps (fun m : Model ν π => m.store.sink) (enable p) :=
  (keeps_query _).bind fun _ =>
    (sink_onTrail _).discard.bind fun _ => sink_of_core (core_schedule p)

omit [Propagator ν π] in
theorem sink_disable (p : PropagatorId) :
    Keeps (fun m : Model ν π => m.store.sink) (disable p) :=
  (keeps_query _).bind fun _ =>
    (sink_onTrail _).discard.bind fun _ =>
      sink_of_core (core_mapEntry (f := fun e => { e with pending := [] }) (fun _ => rfl) p)

end Model

section
variable {ν π : Type} [Propagator ν π] {s s' : Session ν π}

/-- An event in the sink after the call `c` was there before, and `c` is not a propagation, or it is
one of the narrowing that `c` is (`Store.Tells`). -/
def Call.Explains (c : Call π) (m m' : Model ν π) : Prop :=
  ∀ v f d, m'.store.sink.Has v f d →
    (m.store.sink.Has v f d ∧ c ≠ .fixpoint) ∨ ∃ n, c = .narrow v n d ∧ m.store.Tells v f m'.store

omit [Propagator ν π] in
theorem Call.explains_of_sink {m m' : Model ν π} {c : Call π} (hc : c ≠ .fixpoint)
    (h : m'.store.sink = m.store.sink) : c.Explains m m' := by
  intro v f d hf
  rw [h] at hf
  exact .inl ⟨hf, hc⟩

omit [Propagator ν π] in
/-- A call that leaves the sink empty `Explains` it. -/
theorem Call.explains_of_empty {m m' : Model ν π} {c : Call π} (h : m'.store.sink = .empty) :
    c.Explains m m' := by
  intro v f d hf
  rw [h] at hf
  exact absurd hf Sink.not_has_empty

omit [Propagator ν π] in
theorem Call.explains_of_keeps {α : Type} {x : Model.Op ν π α}
    (hx : Keeps (fun m : Model ν π => m.store.sink) x) {c : Call π} (hc : c ≠ .fixpoint)
    (m : Model ν π) : Ends x m (fun _ m' => c.Explains m m') fun _ _ => True := by
  have hkeep := hx m
  revert hkeep
  unfold Ends
  rw [after]
  cases x m with
  | ok a m' => exact explains_of_sink hc
  | error e m' => exact fun _ => trivial

/-- Every call that does not fault `Explains` the sink. -/
theorem Call.explains_ends (c : Call π) (hs : s.model.Ready) :
    Ends c.perform s (fun _ s' => c.Explains s.model s'.model) fun _ _ => True := by
  cases c with
  | create d =>
    refine Session.onModel_ends (Ends.within ((hs.valid.store.create_ends d).mono ?_ ?_)) .var
    · exact fun _ _ h => explains_of_sink (c := .create d) nofun h.sink
    · exact fun _ _ _ => trivial
  | narrow v n c =>
    have hends := hs.valid.store.narrow_ends v n c
    refine Ends.within ?_
    unfold Ends Model.onDomain Model.answering
    rw [within_apply]
    cases hrun : Store.narrow v n c s.model.store with
    | ok b t =>
      intro u f d hf
      rcases ((hends.of_ok hrun).sink u f d).1 hf with hf | ⟨rfl, rfl, htells⟩
      · exact .inl ⟨hf, nofun⟩
      · exact .inr ⟨n, rfl, htells⟩
    | error e t =>
      cases e with
      | fault f => trivial
      | contradiction x =>
        obtain ⟨rfl, -⟩ := hends.of_error hrun
        exact explains_of_sink nofun rfl
  | post x =>
    refine Session.onModel_ends ((hs.valid.post_ends x).mono ?_ fun _ _ _ => trivial) .propagator
    rintro p m' ⟨-, setup, -, h⟩
    obtain ⟨t, hstore, -⟩ := h.store
    exact explains_of_sink (c := .post x) nofun (by rw [hstore])
  | enable p =>
    exact Session.onModel_ends
      (explains_of_keeps (c := .enable p) (Model.sink_enable p) nofun s.model) fun _ => .done
  | disable p =>
    exact Session.onModel_ends
      (explains_of_keeps (c := .disable p) (Model.sink_disable p) nofun s.model) fun _ => .done
  | save | checkpoint => exact ends_of_ok rfl (explains_of_sink nofun rfl)
  | restore =>
    refine Session.onModel_ends (hs.valid.restore_ends.mono ?_ fun _ _ _ => trivial) fun _ => .done
    rintro - m' ⟨c, w, older, hpast, h⟩
    exact explains_of_empty (c := .restore) h.store.sink
  | rollback k =>
    unfold Call.perform
    cases hk : Checked.fetch s.marks k with
    | error e => exact ends_of_error (bind_error _ (query_apply_error (s := s) hk)) trivial
    | ok mark =>
      refine Ends.of_eq ?_ (bind_ok _ (query_apply_ok (s := s) hk))
      refine Session.onModel_ends ((hs.valid.rollback_ends mark).mono ?_ fun _ _ _ => trivial)
        fun _ => .done
      rintro - m' ⟨newer, w, older, hpast, hdepth, h⟩
      exact explains_of_empty (c := .rollback k) h.store.sink
  | fixpoint =>
    exact Ends.within (hs.fixpoint.mono (fun _ _ h => explains_of_empty h.2.sink) fun _ _ h => h)
  | isEntailed p =>
    exact Session.onModel_ends
      (explains_of_keeps (c := .isEntailed p) (keeps_query _) nofun s.model) .entailment

/-- An event in the sink after a run was there before it, or is one of a narrowing in the run, and
no propagation has followed. -/
theorem Session.waiting {cs : List (Call π)} {xs : List (Step ν π)}
    (h : Session.run cs s = .ok xs s') (hs : s.model.Ready) {v : Var} {f : Event} {c : Cause}
    (hf : s'.model.store.sink.Has v f c) :
    (s.model.store.sink.Has v f c ∧ .fixpoint ∉ cs) ∨
      ∃ l n r, cs = l ++ .narrow v n c :: r ∧ .fixpoint ∉ r ∧
        (s.after l).model.store.Tells v f (s.after (l ++ [.narrow v n c])).model.store := by
  induction cs generalizing s xs with
  | nil =>
    cases h
    exact .inl ⟨hf, List.not_mem_nil⟩
  | cons d cs ih =>
    obtain ⟨a, s₁, ys, hd, hrest, -⟩ := run_cons h
    have hafter : ∀ l, s.after (d :: l) = s₁.after l := fun l => by
      rw [after, List.foldl_cons, after_of_ok hd, after]
    rcases ih hrest ((d.ready_ends hs).of_ok hd) with ⟨hwait, hno⟩ | ⟨l, n, r, rfl, hno, htells⟩
    · rcases (d.explains_ends hs).of_ok hd v f c hwait with ⟨hwait, hne⟩ | ⟨n, rfl, htells⟩
      · refine .inl ⟨hwait, fun hmem => ?_⟩
        rcases List.mem_cons.1 hmem with rfl | hmem
        · exact hne rfl
        · exact hno hmem
      · refine .inr ⟨[], n, cs, rfl, hno, ?_⟩
        rw [List.nil_append, hafter]
        exact htells
    · refine .inr ⟨d :: l, n, r, rfl, hno, ?_⟩
      rw [List.cons_append, hafter, hafter]
      exact htells

end

namespace Model

variable {ν π : Type} [Propagator ν π] {m' : Model ν π}

/-- In any session that is reached without a fault, the rounds of a propagation that succeeds are
`Heard` and `Grounded`. Each event in the sink that it starts from is one of a narrowing among the
calls `before`, after the last propagation. -/
theorem fixpoint_heard_grounded {marks : Array Mark} {before : List (Call π)} {s : Session ν π}
    {xs : List (Step ν π)} (hbefore : Session.run before ⟨.empty, marks⟩ = .ok xs s)
    (hfix : fixpoint s.model = .ok () m') :
    (∃ rs u, Settles s.model rs u ∧ m' = u.finish .settled ∧ Heard s.model rs ∧
      Grounded s.model rs) ∧
    ∀ v f c, s.model.store.sink.Has v f c → ∃ l n r, before = l ++ .narrow v n c :: r ∧
      .fixpoint ∉ r ∧ (Session.after (⟨.empty, marks⟩ : Session ν π) l).model.store.Tells v f
        (Session.after (⟨.empty, marks⟩ : Session ν π) (l ++ [.narrow v n c])).model.store := by
  have hm : s.model.Ready := Session.ready hbefore ready_empty
  constructor
  · rw [fixpoint] at hfix
    cases hsettle : settle s.model.budget s.model with
    | error f u =>
      rw [hsettle] at hfix
      cases f <;> cases hfix
    | ok a u =>
      rw [hsettle] at hfix
      cases hfix
      obtain ⟨rs, hrs⟩ := settles_of_ok hsettle
      exact ⟨rs, u, hrs, rfl, hm.heard hrs, hm.grounded hrs⟩
  · intro v f c hf
    refine (Session.waiting hbefore ready_empty hf).resolve_left fun h => ?_
    exact Sink.not_has_empty h.1

/-- A chain of disequalities along which the values of fixed variables are removed. -/
theorem fixpoint_heard_grounded_chain :
    ∃ (xs : List (Step Unit NotEqual)) (s : Session Unit NotEqual) (m' : Model Unit NotEqual),
      Session.run [.create (.interval 0 1), .create (.interval 0 1), .create (.interval 0 1),
        .post (.of ⟨0⟩ ⟨1⟩), .post (.of ⟨1⟩ ⟨2⟩), .fixpoint, .narrow ⟨0⟩ (.fix 1) .decision]
        ⟨.empty, #[]⟩ = .ok xs s ∧
      fixpoint s.model = .ok () m' ∧
      (∃ rs u, Settles s.model rs u ∧ m' = u.finish .settled ∧ Heard s.model rs ∧
        Grounded s.model rs) := by
  obtain ⟨xs, s, hrun, htest⟩ := Session.exists_run
    [.create (.interval 0 1), .create (.interval 0 1), .create (.interval 0 1),
      .post (NotEqual.of ⟨0⟩ ⟨1⟩), .post (.of ⟨1⟩ ⟨2⟩), .fixpoint, .narrow ⟨0⟩ (.fix 1) .decision]
    (⟨.empty, #[]⟩ : Session Unit NotEqual)
    (fun s => match fixpoint s.model with
      | .ok _ _ => true
      | .error _ _ => false)
    (by decide +kernel)
  cases hfix : fixpoint s.model with
  | ok a m' => exact ⟨xs, s, m', hrun, hfix, (fixpoint_heard_grounded hrun hfix).1⟩
  | error e m' =>
    rw [hfix] at htest
    cases htest

end Model

end Propagation
