import Propagation.Constraint.NotEqual
import Propagation.Proofs.Model.Does
import Propagation.Proofs.Model.Termination

/-!
# The books of a model

The tables beside the trail, which are the queue, the entries, the subscription rows and one flag
for each level, agree with each other and with the trail (`Model.Consistent`). Between two calls
every queued propagator has a coarse entry (`Model.Primed`); within a propagation it may have
pending events instead (`Model.Booked`). So no entry is missing where one is read: dispatching
cannot fault, a run faults only where the code of the propagator does, and closing a level only if
there is none to close (`Model.bookkeeping`).
-/

set_option autoImplicit false

namespace Propagation

open Update

namespace Model

variable {ν π : Type} {m m' m₁ : Model ν π} {p : PropagatorId} {q : Queue}

/-! ## The books -/

/-- The queue, the entries, the subscription rows and the flags of the levels of `m` agree with each
other and with the trail. -/
structure Consistent (m : Model ν π) : Prop where
  /-- The queue has no duplicates. -/
  once : m.waiting.Nodup
  alive : ∀ p ∈ m.waiting, p.id < m.propagatorCount
  /-- The propagator of an entry that is coarse or has pending events is in the queue. -/
  busy : ∀ (p : PropagatorId) (e : Entry π), m.entries[p.id]? = some e →
    e.coarse = true ∨ e.pending ≠ [] → p ∈ m.waiting
  /-- A coarse entry has no pending events. -/
  covered : ∀ (p : PropagatorId) (e : Entry π), m.entries[p.id]? = some e → e.coarse = true →
    e.pending = []
  /-- The entry of an active propagator in the queue is coarse or has pending events. -/
  due : ∀ p ∈ m.waiting, m.isActive p = .ok true → ∀ e, m.entries[p.id]? = some e →
    e.coarse = true ∨ e.pending ≠ []
  distinct : ∀ (p : PropagatorId) (e : Entry π), m.entries[p.id]? = some e → e.keys.Nodup
  /-- Each local index with pending events is that of a subscription of the propagator `p`. -/
  own : ∀ (p : PropagatorId) (e : Entry π), m.entries[p.id]? = some e → ∀ i ∈ e.keys,
    ∃ v, ∃ s ∈ m.row v, s.propagator = p ∧ s.localIndex = i
  subscribed : ∀ v, ∀ s ∈ m.row v, v.id < m.store.varCount ∧ s.propagator.id < m.propagatorCount
  size : m.entries.size = m.propagatorCount
  levels : m.unsettled.size = m.depth

/-- The clauses of `Consistent` about the entries that the rounds of a propagation keep, beside
`Tidy`. -/
structure Booked (m : Model ν π) : Prop where
  covered : ∀ (p : Nat) (e : Entry π), m.entries[p]? = some e → e.coarse = true → e.pending = []
  due : ∀ (p : Nat) (e : Entry π), m.entries[p]? = some e → m.queue.contains ⟨p⟩ = true →
    m.Active p → e.coarse = true ∨ e.pending ≠ []
  distinct : ∀ (p : Nat) (e : Entry π), m.entries[p]? = some e → e.keys.Nodup
  own : ∀ (p : Nat) (e : Entry π), m.entries[p]? = some e → ∀ i ∈ e.keys,
    ∃ v, ∃ s ∈ m.row v, s.propagator = ⟨p⟩ ∧ s.localIndex = i

theorem Booked.consistent (h : m.Booked) (hm : m.Valid) (ht : m.Tidy) : m.Consistent where
  once := ht.queue.nodup
  alive p hp := by
    rw [hm.propagatorCount_eq]
    exact ht.queued p (ht.queue.contains_iff_mem.2 hp)
  busy p e he hb := ht.queue.contains_iff_mem.1 (ht.busy p.id e he hb)
  covered p := h.covered p.id
  due p hp hact e he :=
    h.due p.id e he (ht.queue.contains_iff_mem.2 hp) ((hm.isActive_eq_true ht.size).1 hact).2
  distinct p := h.distinct p.id
  own p := h.own p.id
  subscribed v s hs := by
    rw [hm.propagatorCount_eq]
    exact ⟨(lt_of_mem_row hs).trans_le ht.rows, ht.ids v s hs⟩
  size := by rw [hm.propagatorCount_eq, ht.size]
  levels := hm.unsettled

/-! ## Rounds -/

/-- Under each key of an entry an event is pending. -/
theorem Tidy.exists_awaits (ht : m.Tidy) {p : Nat} {e : Entry π} (he : m.entries[p]? = some e)
    {i : Nat} (hi : i ∈ e.keys) : ∃ f, e.Awaits i f := by
  obtain ⟨⟨j, mask⟩, hx, rfl⟩ := List.mem_map.1 hi
  obtain ⟨f, hf⟩ := Mask.isEmpty_eq_false_iff.1 (ht.masks p e he _ hx)
  exact ⟨f, mask, hx, hf⟩

theorem mem_keys_of_awaits {e : Entry π} {i : Nat} {f : Event} (h : e.Awaits i f) : i ∈ e.keys := by
  obtain ⟨mask, hx, -⟩ := h
  exact List.mem_map.2 ⟨_, hx, rfl⟩

theorem pending_ne_nil_iff {e : Entry π} : e.pending ≠ [] ↔ ∃ i, i ∈ e.keys := by
  unfold Entry.keys
  cases e.pending with
  | nil => simp
  | cons x l => exact iff_of_true (List.cons_ne_nil x l) ⟨x.1, List.mem_cons_self⟩

/-- Dispatching keeps `Booked`: a propagator that joins the queue has been hit, and what hit it is
pending unless its entry is coarse. -/
theorem Dispatched.booked (h : m.Dispatched m₁) (hb : m.Booked) (ht : m.Tidy) (hm : m.Valid) :
    m₁.Booked := by
  have ht₁ := h.tidy ht hm
  constructor
  · intro p e he hc
    obtain ⟨e₀, he₀, heq, hsame, -⟩ := h.entry he
    have hc₀ : e₀.coarse = true := by
      rw [heq] at hc
      exact hc
    rw [hsame hc₀]
    exact hb.covered p e₀ he₀ hc₀
  · intro p e he hq hact
    obtain ⟨e₀, he₀, heq, -, -, hawaits⟩ := h.entry he
    have hcoarse : e.coarse = e₀.coarse := by rw [heq]
    rw [h.active] at hact
    rw [hcoarse, pending_ne_nil_iff]
    by_cases hc : e₀.coarse = true
    · exact .inl hc
    · right
      rcases (h.handed.queued ⟨p⟩).1 hq with hq | ⟨-, x, hx, hhit, hp⟩
      · -- it was queued with pending events before
        have hne := (hb.due p e₀ he₀ hq hact).resolve_left hc
        obtain ⟨i, hi⟩ := pending_ne_nil_iff.1 hne
        obtain ⟨f, hf⟩ := ht.exists_awaits he₀ hi
        exact ⟨i, mem_keys_of_awaits ((hawaits i f).2 (.inl hf))⟩
      · obtain ⟨f, hf⟩ := Mask.isEmpty_eq_false_iff.1 hhit.2
        obtain ⟨hf₁, hf₂⟩ := Mask.mem_inter.1 hf
        refine ⟨x.2.localIndex, mem_keys_of_awaits ((hawaits _ f).2 (.inr ?_))⟩
        exact ⟨by simpa using hc, hact, x, hx, hhit, hp, rfl, hf₁, hf₂⟩
  · intro p e he
    obtain ⟨e₀, he₀, -⟩ := h.entry he
    exact h.handed.keys p e₀ e he₀ he (hb.distinct p e₀ he₀)
  · intro p e he i hi
    obtain ⟨e₀, he₀, -, -, -, hawaits⟩ := h.entry he
    obtain ⟨f, hf⟩ := ht₁.exists_awaits he hi
    unfold row
    rw [h.subscriptions]
    rcases (hawaits i f).1 hf with hf | ⟨-, -, ⟨y, s⟩, hx, -, hp, hi, -⟩
    · exact hb.own p e₀ he₀ i (mem_keys_of_awaits hf)
    · exact ⟨y.var, s, (mem_audience.1 hx).2, hp, hi⟩

/-- The run of a propagator, taken from the queue, keeps `Booked`. -/
theorem Executed.booked (h : ({ m with queue := q } : Model ν π).Executed p m')
    (hpop : m.queue.pop = some (p, q)) (hb : m.Booked) (ht : m.Tidy) : m'.Booked := by
  obtain ⟨-, hgone, hrest⟩ := ht.queue.pop_some hpop
  -- the entry of the propagator itself is idle, and the others are unchanged
  have hentry : ∀ r e, m'.entries[r]? = some e →
      r = p.id ∧ e.coarse = false ∧ e.pending = [] ∨ r ≠ p.id ∧ m.entries[r]? = some e := by
    intro r e he
    by_cases hr : r = p.id
    · subst hr
      have hlt : p.id < m.entries.size := by
        have hsize : m'.entries.size = m.entries.size := h.size
        exact hsize ▸ (Array.getElem?_eq_some_iff.1 he).1
      obtain ⟨x, hx⟩ := h.own _ (Array.getElem?_eq_getElem hlt)
      cases he.symm.trans hx
      exact .inl ⟨rfl, rfl, rfl⟩
    · exact .inr ⟨hr, (h.others r hr).symm.trans he⟩
  have hnil : ∀ {e : Entry π}, e.pending = [] → e.keys = [] := by
    intro e he
    rw [Entry.keys, he, List.map_nil]
  constructor
  · intro r e he hc
    rcases hentry r e he with ⟨-, -, hnil⟩ | ⟨-, he⟩
    · exact hnil
    · exact hb.covered r e he hc
  · intro r e he hq hact
    rw [h.queue] at hq
    rcases hentry r e he with ⟨rfl, -⟩ | ⟨hr, he⟩
    · rw [hgone] at hq
      cases hq
    · exact hb.due r e he ((hrest ⟨r⟩).2 (.inr hq)) ((h.active r hr).1 hact)
  · intro r e he
    rcases hentry r e he with ⟨-, -, hp⟩ | ⟨-, he⟩
    · rw [hnil hp]
      exact List.nodup_nil
    · exact hb.distinct r e he
  · intro r e he i hi
    rcases hentry r e he with ⟨-, -, hp⟩ | ⟨-, he⟩
    · rw [hnil hp] at hi
      cases hi
    · unfold row
      rw [h.subscriptions]
      exact hb.own r e he i hi

/-- The run lemma: the rounds of a propagation keep `Booked`. -/
theorem Went.booked [Propagator ν π] {n : Nat} (h : m.Went n m') (hb : m.Booked) (hm : m.Valid)
    (ht : m.Tidy) : m'.Booked := by
  induction h with
  | start => exact hb
  | @round n m' m₁ m₂ p h hnext hrun ih =>
    obtain ⟨hm', ht', -⟩ := h.load_le hm ht
    obtain ⟨u, hd, q, hpop, rfl⟩ := (ht'.next_ends hm').of_ok hnext
    have hu := (hd.evolves hm').valid
    have htu := hd.tidy ht' hm'
    have hp : p.id < u.entries.size := htu.lt_of_pop hpop
    have hexec := ((Evolves.withQueue hu q).valid.execute_ends
      (Array.getElem?_eq_getElem hp)).of_ok hrun
    exact hexec.booked hpop (hd.booked ih ht' hm') htu

/-! ## Calls -/

/-- Every propagator in the queue has a coarse entry. This holds between two calls. -/
def Primed (m : Model ν π) : Prop :=
  ∀ (p : PropagatorId) (e : Entry π), m.entries[p.id]? = some e → m.queue.contains p = true →
    e.coarse = true

theorem Primed.booked (h : m.Primed) (hm : m.Ready) : m.Booked where
  covered p e he _ := hm.calm p e he
  due p e he hq _ := .inl (h ⟨p⟩ e he hq)
  distinct p e he := by simp [Entry.keys, hm.calm p e he]
  own p e he i hi := by simp [Entry.keys, hm.calm p e he] at hi

theorem Rests.primed (h : m.Rests) : m.Primed := by
  intro p e _ hp
  rw [Queue.isEmpty_iff.1 h.queue p] at hp
  cases hp

theorem Primed.scheduled (h : m.Primed) (s : Store) (c : Priority) :
    ({ m with
      store := s
      entries := m.entries.modify p.id Entry.swept
      queue := m.queue.enqueue p c } : Model ν π).Primed := by
  intro r e he hr
  have he : (m.entries.modify p.id Entry.swept)[r.id]? = some e := he
  rw [Array.getElem?_modify] at he
  split at he
  · obtain ⟨e₀, -, rfl⟩ := Option.map_eq_some_iff.1 he
    rfl
  · next hne =>
    rcases Queue.contains_enqueue.1 hr with rfl | hr
    · exact absurd rfl hne
    · exact h r e he hr

theorem Primed.muted (h : m.Primed) (p : PropagatorId) (t : Trail) : (m.muted p t).Primed := by
  intro r e he hr
  have he : (m.entries.modify p.id fun e => { e with pending := [] })[r.id]? = some e := he
  rw [Array.getElem?_modify] at he
  split at he
  · obtain ⟨e₀, he₀, rfl⟩ := Option.map_eq_some_iff.1 he
    exact h r e₀ he₀ hr
  · exact h r e he hr

theorem Reverted.primed {w : View} {newer older : List (Nat × View)} {c : Nat}
    (h : m.Reverted w older m') (hm : m.Valid)
    (hpast : m.store.trail.past = newer ++ (c, w) :: older) : m'.Primed := by
  intro p e he hp
  obtain ⟨hwork, hlt, hact⟩ := (h.queued p).1 hp
  have hsize := hlt.trans_le (hm.houses_of_past hpast).countIn_eq.2.2
  have hswept := (h.entry p.id hlt _ (Array.getElem?_eq_getElem hsize)).1 ⟨hwork, hact⟩
  cases he.symm.trans hswept
  rfl

section
variable [Propagator ν π]

theorem Posted.primed {setup : Setup ν π} (h : Posted m setup m') (hm : m.Valid)
    (hp : m.Primed) : m'.Primed := by
  intro p e he hq
  rw [h.getElem?_entries hm] at he
  split at he
  · cases he
    rfl
  · next hne =>
    split at he
    · rw [h.queue] at hq
      rcases Queue.contains_enqueue.1 hq with rfl | hq
      · exact absurd rfl hne
      · exact hp p e he hq
    · cases he

end

theorem primed_empty : (empty : Model ν π).Primed := nofun

end Model

section
variable {ν π : Type} [Propagator ν π]

open Model

/-- `Primed` is kept by every call that does not fault. -/
theorem Call.Does.primed {c : Call π} {a : Answer} {s s' : Session ν π} (h : c.Does s a s')
    (hm : s.model.Ready) (hp : s.model.Primed) : s'.model.Primed := by
  cases h with
  | create | narrow | refused | save | checkpoint | isEntailed => exact hp
  | post _ h => exact h.primed hm.valid hp
  | enable => exact hp.scheduled _ _
  | disable => exact hp.muted _ _
  | restore hpast h => exact h.primed hm.valid (show _ = [] ++ _ :: _ from hpast)
  | rollback _ hpast _ h => exact h.primed hm.valid hpast
  | settled h =>
    obtain ⟨-, ht, hrest⟩ := (hm.tidy.settle_ends hm.valid _).of_ok h
    exact hrest.primed
  | failed => exact fun p e _ hq => by cases hq.symm.trans (Queue.contains_clear _ p)

theorem Session.primed {cs : List (Call π)} {s s' : Session ν π} {xs : List (Step ν π)}
    (h : Session.run cs s = .ok xs s') (hs : s.model.Ready) (hp : s.model.Primed) :
    s'.model.Primed := by
  induction cs generalizing s xs with
  | nil =>
    cases h
    exact hp
  | cons c cs ih =>
    obtain ⟨a, s₁, ys, hc, hrest, -⟩ := run_cons h
    exact ih hrest ((c.ready_ends hs).of_ok hc) (((c.does_ends hs).of_ok hc).primed hs hp)

/-! ## The main theorem -/

/-- The model rests, and all logs are empty. -/
structure Model.Cleared (m : Model ν π) : Prop where
  rests : m.Rests
  logs : ∀ log ∈ m.store.logs, log = .empty

omit [Propagator ν π] in
theorem Model.Rests.finish {m : Model ν π} (h : m.Rests) (l : LogLine) : (m.finish l).Cleared where
  rests := ⟨h.queue, h.sink, h.idle⟩
  logs log hlog := by
    obtain ⟨-, -, rfl⟩ := Array.mem_map.1 hlog
    rfl

/-- A propagation that does not fault leaves a model that is `Cleared`. -/
theorem Model.Tidy.fixpoint_cleared {m : Model ν π} (ht : m.Tidy) (hm : m.Valid) :
    Ends (fixpoint : Attempt ν π Unit) m (fun _ m' => m'.Cleared)
      fun e m' => ∀ c, e = .contradiction c → m'.Cleared := by
  have hends := ht.settle_ends hm m.budget
  cases h : settle m.budget m with
  | ok a u => exact ends_of_ok (by rw [fixpoint, h]) ((hends.of_ok h).2.2.finish _)
  | error e u =>
    cases e with
    | contradiction c =>
      exact ends_of_error (by rw [fixpoint, h]) fun _ _ => (rests_abandon u).finish _
    | fault f => exact ends_of_error (by rw [fixpoint, h]) (by simp)

/-- After any calls without a fault the model is `Consistent`, and so it is before and after each
dispatch of a propagation. A dispatch does not fault; the run of a propagator faults only if its own
code does (`Breaks`); closing a level is refused only if it is not open, and then changes nothing;
and a propagation that does not fault leaves a model that is `Cleared`. -/
theorem Model.bookkeeping {cs : List (Call π)} {marks : Array Mark} {s : Session ν π}
    {xs : List (Step ν π)} (h : Session.run cs ⟨.empty, marks⟩ = .ok xs s) :
    s.model.Consistent ∧
    (∀ n m, s.model.Went n m → m.Consistent ∧
      Ends (dispatch : Op ν π Unit) m (fun _ m₁ => m₁.Consistent) fun _ _ => False) ∧
    (∀ n m p m₁ f m₂, s.model.Went n m → next m = .ok (some p) m₁ →
      execute p m₁ = .error (.fault f) m₂ → m₁.Breaks p f) ∧
    (∀ k, Ends (rollback k : Op ν π Unit) s.model (fun _ m => m.Consistent)
      fun e m => e = .violation (.staleMark k) ∧ s.model.store.trail.isLive k = false ∧
        m = s.model) ∧
    Ends (restore : Op ν π Unit) s.model (fun _ m => m.Consistent)
      (fun e m => e = .violation .noOpenLevel ∧ s.model.depth = 0 ∧ m = s.model) ∧
    Ends (fixpoint : Attempt ν π Unit) s.model (fun _ m => m.Consistent ∧ m.Cleared)
      fun e m => (∀ c, e = .contradiction c → m.Consistent ∧ m.Cleared) ∧
        ∀ f, e = .fault f → s.model.Broken f := by
  have hready := Session.ready h ready_empty
  have hprimed := Session.primed h ready_empty primed_empty
  obtain ⟨hm, ht⟩ := And.intro hready.valid hready.tidy
  have hbooked := hprimed.booked hready
  have hclosed : ∀ {m : Model ν π} {w : View} {newer older : List (Nat × View)} {c : Nat},
      s.model.store.trail.past = newer ++ (c, w) :: older → s.model.Reverted w older m →
        m.Consistent := by
    intro m w newer older c hpast hr
    have hr' := hr.ready hready hpast
    exact ((hr.primed hm hpast).booked hr').consistent hr'.valid hr'.tidy
  refine ⟨hbooked.consistent hm ht, fun n m hwent => ?_, ?_, fun k => ?_, ?_, ?_⟩
  · obtain ⟨hm', ht', -⟩ := hwent.load_le hm ht
    have hb := hwent.booked hbooked hm ht
    refine ⟨hb.consistent hm' ht', (ht'.dispatch_ends hm').mono (fun _ m₁ hd => ?_) fun _ _ h => h⟩
    exact (hd.booked hb ht' hm').consistent (hd.evolves hm').valid (hd.tidy ht' hm')
  · intro n m p m₁ f m₂ hwent hnext hrun
    obtain ⟨hm', ht', -⟩ := hwent.load_le hm ht
    obtain ⟨u, hd, q, hpop, rfl⟩ := (ht'.next_ends hm').of_ok hnext
    have htu := hd.tidy ht' hm'
    have hp : p.id < u.entries.size := htu.lt_of_pop hpop
    exact (Evolves.withQueue (hd.evolves hm').valid q).valid.execute_breaks hp hrun
  · refine (hm.rollback_ends k).mono (fun _ m hr => ?_) fun _ _ h => h
    obtain ⟨newer, w, older, hpast, -, hr⟩ := hr
    exact hclosed hpast hr
  · refine hm.restore_ends.mono (fun _ m hr => ?_) fun e m hr => ?_
    · obtain ⟨c, w, older, hpast, hr⟩ := hr
      exact hclosed (show _ = [] ++ _ :: _ from hpast) hr
    · obtain ⟨he, hpast, rfl⟩ := hr
      refine ⟨he, ?_, rfl⟩
      rw [← hm.unsettled, hm.size_unsettled, hpast]
      rfl
  · have hcleared := ht.fixpoint_cleared hm
    have hbroken := ht.fixpoint_broken hm
    have hafter := ht.fixpoint_ends hm
    have hconsistent : ∀ {m : Model ν π}, m.Valid ∧ m.Tidy ∧ m.Rests → m.Consistent := by
      rintro m ⟨hm', ht', hrest⟩
      have hr : m.Ready := ⟨hm', ht', fun p e he => (hrest.idle p e he).2⟩
      exact ((hrest.primed).booked hr).consistent hm' ht'
    cases hrun : fixpoint s.model with
    | ok a m => exact ends_of_ok hrun ⟨hconsistent (hafter.of_ok hrun), hcleared.of_ok hrun⟩
    | error e m =>
      refine ends_of_error hrun ⟨fun c hc => ?_, hbroken.of_error hrun⟩
      exact ⟨hconsistent (hafter.of_error hrun c hc), hcleared.of_error hrun c hc⟩

/-- Levels are opened and closed while a propagator is scheduled, and one is disabled. -/
theorem Model.bookkeeping_unsettled :
    ∃ (xs : List (Step Unit NotEqual)) (s : Session Unit NotEqual),
      Session.run [.create (.interval 0 1), .create (.interval 0 1), .create (.interval 0 1),
        .post (.of ⟨0⟩ ⟨1⟩), .checkpoint, .post (.of ⟨1⟩ ⟨2⟩), .narrow ⟨0⟩ (.fix 1) .decision,
        .save, .fixpoint, .rollback 0, .disable ⟨0⟩] ⟨.empty, #[]⟩ = .ok xs s ∧
      s.model.Consistent ∧ s.model.waiting = [⟨0⟩] := by
  obtain ⟨xs, s, hrun, htest⟩ := Session.exists_run
    [.create (.interval 0 1), .create (.interval 0 1), .create (.interval 0 1),
      .post (NotEqual.of ⟨0⟩ ⟨1⟩), .checkpoint, .post (.of ⟨1⟩ ⟨2⟩), .narrow ⟨0⟩ (.fix 1) .decision,
      .save, .fixpoint, .rollback 0, .disable ⟨0⟩]
    (⟨.empty, #[]⟩ : Session Unit NotEqual) (fun s => decide (s.model.waiting = [⟨0⟩]))
    (by decide +kernel)
  exact ⟨xs, s, hrun, (bookkeeping hrun).1, of_decide_eq_true htest⟩

end

end Propagation
