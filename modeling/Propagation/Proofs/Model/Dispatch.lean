import Propagation.Proofs.Model.Tidy
import Propagation.Proofs.Sink

/-!
# Dispatching

On a tidy model dispatching does not fault (`Tidy.dispatch_ends`). What it does is stated over the
pairs of a pending event and a subscription (`Model.Handed`): the propagators that join the queue
are the active ones that are hit, and what an entry awaits beyond what it did before is what has hit
it.
-/

set_option autoImplicit false

namespace Propagation

open Update

/-- The event `x` is not by the propagator of `s`, and its mask meets that of `s`. -/
def Hits (x : PendingEvent) (s : Subscription) : Prop :=
  x.cause ≠ .propagator s.propagator ∧ (x.mask ∩ s.mask).isEmpty = false

/-- The event `f` is pending at the local index `i`. -/
def Entry.Awaits {π : Type} (e : Entry π) (i : Nat) (f : Event) : Prop :=
  ∃ m, (i, m) ∈ e.pending ∧ f ∈ m

/-- The local indices with pending events. -/
def Entry.keys {π : Type} (e : Entry π) : List Nat := e.pending.map (·.1)

section
variable {π : Type} {e : Entry π} {i j : Nat} {f : Event} {m : Mask}

theorem exists_joinPending {l : List (Nat × Mask)} :
    (∃ n, (j, n) ∈ joinPending i m l ∧ f ∈ n) ↔
      (∃ n, (j, n) ∈ l ∧ f ∈ n) ∨ j = i ∧ f ∈ m := by
  induction l with
  | nil => simp [joinPending]
  | cons x rest ih =>
    obtain ⟨k, n⟩ := x
    rw [joinPending]
    split
    · next hk =>
      subst hk
      simp only [List.mem_cons, Prod.mk.injEq]
      constructor
      · rintro ⟨o, ⟨rfl, rfl⟩ | ho, hf⟩
        · exact (Mask.mem_union.1 hf).imp (fun hf => ⟨n, .inl ⟨rfl, rfl⟩, hf⟩) fun hf => ⟨rfl, hf⟩
        · exact .inl ⟨o, .inr ho, hf⟩
      · rintro (⟨o, ⟨rfl, rfl⟩ | ho, hf⟩ | ⟨rfl, hf⟩)
        · exact ⟨_, .inl ⟨rfl, rfl⟩, Mask.mem_union.2 (.inl hf)⟩
        · exact ⟨o, .inr ho, hf⟩
        · exact ⟨_, .inl ⟨rfl, rfl⟩, Mask.mem_union.2 (.inr hf)⟩
    · simp only [List.mem_cons, or_and_right, exists_or, ih, or_assoc]

theorem awaits_addPending :
    (e.addPending i m).Awaits j f ↔ e.Awaits j f ∨ e.coarse = false ∧ j = i ∧ f ∈ m := by
  rw [Entry.addPending]
  cases hc : e.coarse with
  | true => simp
  | false =>
    rw [if_neg (by simp)]
    refine exists_joinPending.trans ?_
    simp [Entry.Awaits]

theorem mem_joinPending {l : List (Nat × Mask)} (hl : ∀ x ∈ l, x.2.isEmpty = false)
    (hm : m.isEmpty = false) : ∀ x ∈ joinPending i m l, x.2.isEmpty = false := by
  induction l with
  | nil =>
    intro x hx
    rw [joinPending, List.mem_singleton] at hx
    rw [hx, hm]
  | cons y rest ih =>
    obtain ⟨k, n⟩ := y
    intro x hx
    rw [joinPending] at hx
    split at hx
    · rcases List.mem_cons.1 hx with rfl | hx
      · obtain ⟨f, hf⟩ := Mask.isEmpty_eq_false_iff.1 hm
        exact Mask.isEmpty_eq_false_iff.2 ⟨f, Mask.mem_union.2 (.inr hf)⟩
      · exact hl x (List.mem_cons_of_mem _ hx)
    · rcases List.mem_cons.1 hx with rfl | hx
      · exact hl _ List.mem_cons_self
      · exact ih (fun y hy => hl y (List.mem_cons_of_mem _ hy)) x hx

theorem mem_keys_joinPending {l : List (Nat × Mask)} :
    j ∈ (joinPending i m l).map (·.1) ↔ j = i ∨ j ∈ l.map (·.1) := by
  induction l with
  | nil => simp [joinPending]
  | cons x rest ih =>
    obtain ⟨k, n⟩ := x
    rw [joinPending]
    split
    · next hk => simp [hk]
    · rw [List.map_cons, List.mem_cons, ih, List.map_cons, List.mem_cons]
      exact or_left_comm

theorem nodup_keys_joinPending {l : List (Nat × Mask)} (hl : (l.map (·.1)).Nodup) :
    ((joinPending i m l).map (·.1)).Nodup := by
  induction l with
  | nil => simp [joinPending]
  | cons x rest ih =>
    obtain ⟨k, n⟩ := x
    obtain ⟨hk, hrest⟩ := List.nodup_cons.1 hl
    rw [joinPending]
    split
    · exact hl
    · next hne =>
      refine List.nodup_cons.2 ⟨fun hmem => ?_, ih hrest⟩
      rcases mem_keys_joinPending.1 hmem with heq | hmem
      · exact hne heq
      · exact hk hmem

theorem nodup_keys_addPending (he : e.keys.Nodup) : (e.addPending i m).keys.Nodup := by
  rw [Entry.addPending]
  split
  · exact he
  · exact nodup_keys_joinPending he

end

namespace Model

variable {ν π : Type} {m m' : Model ν π}

/-! ## One subscriber -/

/-- The model after `x` has been added to the pending events of the subscriber `s`, which is queued
with the priority `c`. -/
def struck (m : Model ν π) (x : PendingEvent) (s : Subscription) (c : Priority) : Model ν π :=
  { m with
    entries := m.entries.modify s.propagator.id (Entry.addPending s.localIndex (x.mask ∩ s.mask))
    queue := m.queue.enqueue s.propagator c }

theorem notify_of_miss {x : PendingEvent} {s : Subscription} (h : ¬Hits x s) (m : Model ν π) :
    (notify x s : Op ν π Unit) m = .ok () m := by
  rw [notify]
  split
  · rfl
  · next hc =>
    dsimp only
    rw [if_pos]
    · rfl
    · by_contra hempty
      exact h ⟨hc, by simpa using hempty⟩

section
variable {x : PendingEvent} {s : Subscription} {e : Entry π} {b : Bool}
  (he : m.entries[s.propagator.id]? = some e) (hb : activeEntry e m = .ok b)
include he hb

theorem notify_of_hits (h : Hits x s) (hact : b = true) :
    (notify x s : Op ν π Unit) m = .ok () (m.struck x s e.priority) := by
  subst hact
  have hfetch : Checked.fetch (m.entries.modify s.propagator.id
      (Entry.addPending s.localIndex (x.mask ∩ s.mask))) s.propagator.id =
        .ok (Entry.addPending s.localIndex (x.mask ∩ s.mask) e) := by
    rw [Checked.fetch_eq_ok, Array.getElem?_modify, if_pos rfl, he]
    rfl
  have hpriority : ∀ i m, (e.addPending i m).priority = e.priority := fun i m => by
    rw [Entry.addPending]
    split <;> rfl
  rw [notify, if_neg h.1, h.2, if_neg (by simp), bind_ok _ (query_ok (m := m) (Checked.fetch_eq_ok.2 he)),
    bind_ok _ (query_ok hb), if_pos rfl, bind_ok _ (mapEntry_apply _ _ _), enqueue,
    bind_ok _ (query_ok hfetch), hpriority]
  rfl

theorem notify_of_not (h : ¬(Hits x s ∧ b = true)) : (notify x s : Op ν π Unit) m = .ok () m := by
  by_cases hhit : Hits x s
  · obtain rfl : b = false := by
      rw [← Bool.not_eq_true]
      exact fun hact => h ⟨hhit, hact⟩
    rw [notify, if_neg hhit.1, hhit.2, if_neg (by simp),
      bind_ok _ (query_ok (m := m) (Checked.fetch_eq_ok.2 he)), bind_ok _ (query_ok hb)]
    rfl
  · exact notify_of_miss hhit m

end

/-! ## All subscribers -/

/-- The model after the pairs `xs` have been notified: the active propagators that are hit have
joined the queue, and what an entry awaits beyond that of `m` is what has hit it. -/
structure Handed (m : Model ν π) (xs : List (PendingEvent × Subscription)) (m' : Model ν π) :
    Prop where
  core : m'.core = m.core
  queue : m'.queue.Valid
  queued : ∀ p, m'.queue.contains p = true ↔ m.queue.contains p = true ∨
    m.Active p.id ∧ ∃ x ∈ xs, Hits x.1 x.2 ∧ x.2.propagator = p
  entry : ∀ (p : Nat) (e : Entry π), m.entries[p]? = some e → ∃ l,
    m'.entries[p]? = some { e with pending := l } ∧
    (e.coarse = true → l = e.pending) ∧
    ((∀ y ∈ e.pending, y.2.isEmpty = false) → ∀ y ∈ l, y.2.isEmpty = false) ∧
    ∀ i f, { e with pending := l }.Awaits i f ↔ e.Awaits i f ∨ e.coarse = false ∧ m.Active p ∧
      ∃ x ∈ xs, Hits x.1 x.2 ∧ x.2.propagator = ⟨p⟩ ∧ x.2.localIndex = i ∧ f ∈ x.1.mask ∧
        f ∈ x.2.mask
  keys : ∀ (p : Nat) (e e' : Entry π), m.entries[p]? = some e → m'.entries[p]? = some e' →
    e.keys.Nodup → e'.keys.Nodup

theorem handed_nil (hq : m.queue.Valid) : m.Handed [] m where
  core := rfl
  queue := hq
  queued p := by simp
  entry p e he := ⟨e.pending, he, fun _ => rfl, id, fun i f => by simp⟩
  keys p e e' he he' hnodup := by
    cases he.symm.trans he'
    exact hnodup

/-- `notify x s` appends the pair to `xs`, on a model with an entry for the subscriber, without a
fault. -/
theorem Handed.notify {xs : List (PendingEvent × Subscription)} (h : m.Handed xs m')
    (hm : m.Valid) (x : PendingEvent) {s : Subscription} (hs : s.propagator.id < m.entries.size) :
    Ends (Model.notify x s : Op ν π Unit) m' (fun _ m'' => m.Handed (xs ++ [(x, s)]) m'')
      fun _ _ => False := by
  have hm' : m'.Valid := (Evolves.of_core hm h.core).valid
  obtain ⟨e, he⟩ : ∃ e, m.entries[s.propagator.id]? = some e := ⟨_, Array.getElem?_eq_getElem hs⟩
  obtain ⟨l, hl, hcoarse, hmasks, hawaits⟩ := h.entry _ _ he
  obtain ⟨b, hb, hactive⟩ := hm'.activeEntry hl
  rw [active_of_core h.core] at hactive
  have hmem : ∀ {P : PendingEvent × Subscription → Prop},
      (∃ y ∈ xs ++ [(x, s)], P y) ↔ (∃ y ∈ xs, P y) ∨ P (x, s) := fun {P} => by
    simp only [List.mem_append, List.mem_singleton, or_and_right, exists_or, exists_eq_left]
  by_cases hhit : Hits x s ∧ b = true
  · have hact : m.Active s.propagator.id := hactive.1 hhit.2
    have hcore : ((Model.notify x s : Op ν π Unit).after m').core = m'.core := core_notify x s m'
    rw [after_of_ok (notify_of_hits hl hb hhit.1 hhit.2)] at hcore
    refine ends_of_ok (notify_of_hits hl hb hhit.1 hhit.2) ⟨hcore.trans h.core,
      h.queue.enqueue _ _, fun p => ?_, fun p f hf => ?_, fun p f f' hf hf' hnodup => ?_⟩
    · rw [struck, Queue.contains_enqueue, h.queued, hmem]
      constructor
      · rintro (rfl | hp | ⟨ha, hx⟩)
        · exact .inr ⟨hact, .inr ⟨hhit.1, rfl⟩⟩
        · exact .inl hp
        · exact .inr ⟨ha, .inl hx⟩
      · rintro (hp | ⟨ha, hx | ⟨-, rfl⟩⟩)
        · exact .inr (.inl hp)
        · exact .inr (.inr ⟨ha, hx⟩)
        · exact .inl rfl
    · by_cases hp : s.propagator.id = p
      · subst hp
        obtain rfl := Option.some.inj (he.symm.trans hf)
        refine ⟨({ e with pending := l }.addPending s.localIndex (x.mask ∩ s.mask)).pending, ?_, ?_,
          ?_, fun i g => ?_⟩
        · rw [struck, Array.getElem?_modify, if_pos rfl, hl, Option.map_some, Entry.addPending]
          split <;> rfl
        · intro hc
          rw [Entry.addPending, if_pos hc]
          exact hcoarse hc
        · intro hnone
          rw [Entry.addPending]
          split
          · exact hmasks hnone
          · exact mem_joinPending (hmasks hnone) hhit.1.2
        · have hsame : { e with pending :=
              ({ e with pending := l }.addPending s.localIndex (x.mask ∩ s.mask)).pending } =
                { e with pending := l }.addPending s.localIndex (x.mask ∩ s.mask) := by
            rw [Entry.addPending]
            split <;> rfl
          rw [hsame, awaits_addPending, hawaits, hmem, Mask.mem_inter]
          constructor
          · rintro ((he | ⟨hc, ha, hx⟩) | ⟨hc, rfl, hg⟩)
            · exact .inl he
            · exact .inr ⟨hc, ha, .inl hx⟩
            · exact .inr ⟨hc, hact, .inr ⟨hhit.1, rfl, rfl, hg⟩⟩
          · rintro (he | ⟨hc, ha, hx | ⟨-, -, hi, hg⟩⟩)
            · exact .inl (.inl he)
            · exact .inl (.inr ⟨hc, ha, hx⟩)
            · exact .inr ⟨hc, hi.symm, hg⟩
      · obtain ⟨l', hl', hcoarse', hmasks', hawaits'⟩ := h.entry p f hf
        refine ⟨l', ?_, hcoarse', hmasks', fun i g => ?_⟩
        · rw [struck, Array.getElem?_modify, if_neg hp, hl']
        · rw [hawaits', hmem]
          refine or_congr_right (and_congr_right fun _ => and_congr_right fun _ => ?_)
          refine (or_iff_left ?_).symm
          rintro ⟨-, heq, -⟩
          exact hp (congrArg PropagatorId.id heq)
    · rw [struck, Array.getElem?_modify] at hf'
      split at hf'
      · obtain ⟨g, hg, rfl⟩ := Option.map_eq_some_iff.1 hf'
        exact nodup_keys_addPending (h.keys p f g hf hg hnodup)
      · exact h.keys p f f' hf hf' hnodup
  · have hnot : ∀ p, m.Active p → ¬(Hits x s ∧ s.propagator.id = p) := by
      rintro p ha ⟨hh, rfl⟩
      exact hhit ⟨hh, hactive.2 ha⟩
    refine ends_of_ok (notify_of_not hl hb hhit) ⟨h.core, h.queue, fun p => ?_, fun p f hf => ?_,
      h.keys⟩
    · rw [h.queued, hmem]
      refine or_congr_right (and_congr_right fun ha => ?_)
      refine (or_iff_left ?_).symm
      rintro ⟨hh, heq⟩
      exact hnot _ ha ⟨hh, congrArg PropagatorId.id heq⟩
    · obtain ⟨l', hl', hcoarse', hmasks', hawaits'⟩ := h.entry p f hf
      refine ⟨l', hl', hcoarse', hmasks', fun i g => ?_⟩
      rw [hawaits', hmem]
      refine or_congr_right (and_congr_right fun _ => and_congr_right fun ha => ?_)
      refine (or_iff_left ?_).symm
      rintro ⟨hh, heq, -⟩
      exact hnot _ ha ⟨hh, congrArg PropagatorId.id heq⟩

/-- The run lemma of `Handed.notify`, for the subscriptions of a row. -/
theorem Handed.row {xs : List (PendingEvent × Subscription)} (h : m.Handed xs m') (hm : m.Valid)
    (x : PendingEvent) {row : List Subscription}
    (hrow : ∀ s ∈ row, s.propagator.id < m.entries.size) :
    Ends (row.forM (Model.notify x) : Op ν π PUnit) m'
      (fun _ m'' => m.Handed (xs ++ row.map (x, ·)) m'') fun _ _ => False := by
  induction row generalizing xs m' with
  | nil => exact ends_of_ok rfl (by rwa [List.map_nil, List.append_nil])
  | cons s row ih =>
    refine (h.notify hm x (hrow s List.mem_cons_self)).bind fun _ m'' h'' => ?_
    rw [List.map_cons, ← List.singleton_append, ← List.append_assoc]
    exact ih h'' fun s hs => hrow s (List.mem_cons_of_mem _ hs)

/-- The pairs of a pending event and a subscription to its variable, in the order of delivery. -/
def audience (m : Model ν π) (events : List PendingEvent) : List (PendingEvent × Subscription) :=
  events.flatMap fun x => (m.row x.var).map (x, ·)

theorem Handed.events {xs : List (PendingEvent × Subscription)} (h : m.Handed xs m')
    (hm : m.Valid) (ht : m.Tidy) (events : List PendingEvent) :
    Ends (events.forM notifyAll : Op ν π PUnit) m'
      (fun _ m'' => m.Handed (xs ++ m.audience events) m'') fun _ _ => False := by
  induction events generalizing xs m' with
  | nil => exact ends_of_ok rfl (by rwa [audience, List.flatMap_nil, List.append_nil])
  | cons x events ih =>
    have hrows : m'.subscriptions = m.subscriptions := congrArg (·.2.2.2.1) h.core
    have hone : Ends (notifyAll x : Op ν π Unit) m'
        (fun _ m'' => m.Handed (xs ++ (m.row x.var).map (x, ·)) m'') fun _ _ => False := by
      unfold notifyAll
      refine Ends.of_eq ?_ (bind_ok _ (get_apply _))
      rw [hrows]
      exact h.row hm x fun s hs => ht.size ▸ ht.ids _ s hs
    refine hone.bind fun _ m'' h'' => ?_
    rw [audience, List.flatMap_cons, ← List.append_assoc]
    exact ih h''

/-! ## Dispatching -/

/-- `m'` has `Handed` the pairs of the sink of `m`, and its sink is empty. -/
structure Dispatched (m m' : Model ν π) : Prop where
  handed : m.Handed (m.audience m.store.sink.toList)
    { m' with store := { m'.store with sink := m.store.sink } }
  sink : m'.store.sink = .empty

theorem Tidy.dispatch_ends (ht : m.Tidy) (hm : m.Valid) :
    Ends (dispatch : Op ν π Unit) m (fun _ m' => m.Dispatched m') fun _ _ => False := by
  unfold dispatch
  refine Ends.of_eq ?_ (bind_ok _ (get_apply _))
  refine ((handed_nil ht.queue).events hm ht m.store.sink.toList).bind fun _ m' h => ?_
  rw [List.nil_append] at h
  refine ends_of_ok (modify_apply _ _) ⟨?_, rfl⟩
  have hstore : m'.store = m.store := congrArg (·.1) h.core
  have hback : { m' with store := { m'.store.clearEvents with sink := m.store.sink } } = m' := by
    rw [← hstore]
    rfl
  show m.Handed _ { m' with store := { m'.store.clearEvents with sink := m.store.sink } }
  rwa [hback]

end Model

end Propagation
