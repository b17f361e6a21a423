import Propagation.Proofs.Model.Handout

/-!
# Merging events does not change a dispatch

`Sink.push` joins an event to the entry before it if both are of one variable and one cause. Up to
the order in the queue and in the pending lists, dispatching the entries of a list of events is the
same as dispatching each of the events by itself (`Model.dispatch_merged`).
-/

set_option autoImplicit false

namespace Propagation

open Update

/-- The sink after the events `ps` have been pushed, in this order. -/
def Sink.pushed (ps : List (Var × Event × Cause)) : Sink :=
  ps.foldl (fun k p => k.push p.1 p.2.1 p.2.2) .empty

theorem Sink.has_pushed {ps : List (Var × Event × Cause)} {v : Var} {e : Event} {c : Cause} :
    (pushed ps).Has v e c ↔ (v, e, c) ∈ ps := by
  rw [pushed, has_foldl, or_iff_right not_has_empty]
  constructor
  · rintro ⟨p, hp, rfl, rfl, rfl⟩
    exact hp
  · exact fun h => ⟨_, h, rfl, rfl, rfl⟩

/-- The sink whose only entry is the event `e` of `v` by the cause `c`. -/
def Sink.only (v : Var) (e : Event) (c : Cause) : Sink := ⟨[⟨v, .only e, c⟩]⟩

theorem Sink.has_only {v w : Var} {e f : Event} {c d : Cause} :
    (only v e c).Has w f d ↔ w = v ∧ d = c ∧ f = e := by
  constructor
  · rintro ⟨x, hx, rfl, rfl, hf⟩
    rw [only, List.mem_singleton] at hx
    subst hx
    exact ⟨rfl, rfl, Mask.mem_only.1 hf⟩
  · rintro ⟨rfl, rfl, rfl⟩
    exact ⟨_, List.mem_cons_self, rfl, rfl, Mask.mem_only.2 rfl⟩

namespace Model

variable {ν π : Type} {m m' m₁ m₂ : Model ν π} {xs ys : List (PendingEvent × Subscription)}

def withSink (m : Model ν π) (k : Sink) : Model ν π := { m with store := { m.store with sink := k } }

/-- Dispatches the events `ps` one after the other, each from a sink that holds it alone. -/
def dispatchEach (ps : List (Var × Event × Cause)) : Op ν π Unit :=
  ps.forM fun p => do
    modify (·.withSink (.only p.1 p.2.1 p.2.2))
    dispatch

/-- The models are equal up to the order of the queue, of each of its lanes and of its agenda, and
of the pending events of each entry. -/
structure Alike (m m' : Model ν π) : Prop where
  rest : { m' with entries := m.entries, queue := m.queue } = m
  present : m.queue.present.Perm m'.queue.present
  lane : ∀ c, (m.queue.lane c).Perm (m'.queue.lane c)
  agenda : m.queue.agenda.Perm m'.queue.agenda
  size : m.entries.size = m'.entries.size
  entry : ∀ (p : Nat) (e e' : Entry π), m.entries[p]? = some e → m'.entries[p]? = some e' →
    { e' with pending := e.pending } = e ∧ (∀ i, e.pending.lookup i = e'.pending.lookup i) ∧
      (e.keys.Nodup → e.pending.Perm e'.pending)

/-- Two models after the same pairs have been notified (`Told`) are `Alike`. -/
theorem Told.alike (h₁ : m.Told xs m₁) (h₂ : m.Told xs m₂)
    (hsink : m₁.store.sink = m₂.store.sink) : m₁.Alike m₂ := by
  obtain ⟨news, hgains, hnews⟩ := h₁.queue
  obtain ⟨news', hgains', hnews'⟩ := h₂.queue
  obtain ⟨hpresent, hlane, hagenda⟩ := hgains.perm hgains' fun p => (hnews p).trans (hnews' p).symm
  refine ⟨?_, hpresent, hlane, hagenda, h₁.size.trans h₂.size.symm, fun p e e' he he' => ?_⟩
  · have hrest := h₂.rest.trans h₁.rest.symm
    have hback := congrArg (fun m : Model ν π =>
      { m with entries := m₁.entries, queue := m₁.queue,
               store := { m.store with sink := m₂.store.sink } }) hrest
    exact hback.trans (by rw [← hsink])
  · have hlt : p < m.entries.size := h₁.size ▸ (Array.getElem?_eq_some_iff.1 he).1
    have hentry : m.entries[p]? = some m.entries[p] := Array.getElem?_eq_getElem hlt
    obtain ⟨l, hl, hjoined⟩ := h₁.entry p _ hentry
    obtain ⟨l', hl', hjoined'⟩ := h₂.entry p _ hentry
    cases he.symm.trans hl
    cases he'.symm.trans hl'
    exact ⟨rfl, hjoined.unique hjoined'⟩

/-! ## The two ways -/

theorem heard_audience {events : List PendingEvent} {s : Subscription} {f : Event} :
    Heard (m.audience events) s f ↔ ∃ x ∈ events, s ∈ m.row x.var ∧
      x.cause ≠ .propagator s.propagator ∧ f ∈ x.mask ∧ f ∈ s.mask := by
  constructor
  · rintro ⟨x, hx, hrest⟩
    obtain ⟨y, hy, hmem⟩ := List.mem_flatMap.1 hx
    obtain ⟨t, ht, heq⟩ := List.mem_map.1 hmem
    cases heq
    exact ⟨x, hy, ht, hrest⟩
  · rintro ⟨x, hx, hs, hrest⟩
    exact ⟨x, List.mem_flatMap.2 ⟨x, hx, List.mem_map.2 ⟨s, hs, rfl⟩⟩, hrest⟩

/-- `Heard` on the entries of a sink only depends on its events, not on how they are joined in
masks. -/
theorem heard_sink {k : Sink} {s : Subscription} {f : Event} :
    Heard (m.audience k.toList) s f ↔ ∃ v c, k.Has v f c ∧ s ∈ m.row v ∧
      c ≠ .propagator s.propagator ∧ f ∈ s.mask := by
  rw [heard_audience]
  constructor
  · rintro ⟨x, hx, hs, hc, hf, hf'⟩
    exact ⟨x.var, x.cause, ⟨x, List.mem_reverse.1 hx, rfl, rfl, hf⟩, hs, hc, hf'⟩
  · rintro ⟨v, c, ⟨x, hx, rfl, rfl, hf⟩, hs, hc, hf'⟩
    exact ⟨x, List.mem_reverse.2 hx, hs, hc, hf, hf'⟩

/-- The pairs of an event of `ps`, as the only one of its sink, and a subscription to its variable.
-/
def audienceEach (m : Model ν π) (ps : List (Var × Event × Cause)) :
    List (PendingEvent × Subscription) :=
  ps.flatMap fun p => m.audience (Sink.only p.1 p.2.1 p.2.2).toList

theorem audienceEach_cons (p : Var × Event × Cause) (ps : List (Var × Event × Cause)) :
    m.audienceEach (p :: ps) =
      m.audience (Sink.only p.1 p.2.1 p.2.2).toList ++ m.audienceEach ps :=
  List.flatMap_cons

/-- The same subscriptions are notified of the same events whether `ps` are pushed into one sink or
are each in a sink of its own. -/
theorem heard_pushed {ps : List (Var × Event × Cause)} {s : Subscription} {f : Event} :
    Heard (m.audience (Sink.pushed ps).toList) s f ↔ Heard (m.audienceEach ps) s f := by
  have hflat : Heard (m.audienceEach ps) s f ↔
      ∃ p ∈ ps, Heard (m.audience (Sink.only p.1 p.2.1 p.2.2).toList) s f := by
    constructor
    · rintro ⟨x, hx, hrest⟩
      obtain ⟨p, hp, hmem⟩ := List.mem_flatMap.1 hx
      exact ⟨p, hp, x, hmem, hrest⟩
    · rintro ⟨p, hp, x, hmem, hrest⟩
      exact ⟨x, List.mem_flatMap.2 ⟨p, hp, hmem⟩, hrest⟩
  rw [hflat]
  simp only [heard_sink, Sink.has_pushed, Sink.has_only]
  constructor
  · rintro ⟨v, c, hmem, hrest⟩
    exact ⟨_, hmem, v, c, ⟨rfl, rfl, rfl⟩, hrest⟩
  · rintro ⟨p, hp, v, c, ⟨rfl, rfl, rfl⟩, hrest⟩
    exact ⟨p.1, p.2.2, hp, hrest⟩

theorem Told.withSink (h : m.Told xs m') (k : Sink) : m.Told xs (m'.withSink k) :=
  ⟨h.legible, h.rest, h.queue, h.size, h.entry⟩

theorem Told.dispatchEach (h : m.Told xs m') (hsink : m'.store.sink = .empty)
    (ps : List (Var × Event × Cause)) :
    Ends (Model.dispatchEach ps : Op ν π Unit) m'
      (fun _ m'' => m.Told (xs ++ m.audienceEach ps) m'' ∧ m''.store.sink = .empty)
      fun e _ => m.Stops (m.audienceEach ps) e := by
  unfold Model.dispatchEach
  induction ps generalizing xs m' with
  | nil =>
    refine ends_of_ok rfl ⟨?_, hsink⟩
    rwa [audienceEach, List.flatMap_nil, List.append_nil]
  | cons p ps ih =>
    rw [audienceEach_cons, ← List.append_assoc]
    have hone := (h.withSink (.only p.1 p.2.1 p.2.2)).dispatch.of_eq
      (bind_ok (fun _ => (Model.dispatch : Op ν π Unit))
        (modify_apply (·.withSink (.only p.1 p.2.1 p.2.2)) m'))
    refine (hone.mono (fun _ _ h => h) fun e _ he => ?_).bind fun _ m'' ⟨h'', hsink''⟩ =>
      (ih h'' hsink'').mono (fun _ _ h => h) fun e _ he => ?_
    · exact he.mono fun _ _ hf => heard_append.2 (.inl hf)
    · exact he.mono fun _ _ hf => heard_append.2 (.inr hf)

/-- On any model: dispatching the entries of `Sink.pushed ps`, and dispatching each event of `ps`
from a sink of its own, leave models that are `Alike`; or both end in the fault `.index`, because a
flag that is needed cannot be read. -/
theorem dispatch_merged (m : Model ν π) (ps : List (Var × Event × Cause)) :
    (∃ m₁ m₂, (dispatch : Op ν π Unit) (m.withSink (.pushed ps)) = .ok () m₁ ∧
      (dispatchEach ps : Op ν π Unit) (m.withSink .empty) = .ok () m₂ ∧ m₁.Alike m₂) ∨
    ∃ m₁ m₂, (dispatch : Op ν π Unit) (m.withSink (.pushed ps)) = .error .index m₁ ∧
      (dispatchEach ps : Op ν π Unit) (m.withSink .empty) = .error .index m₂ := by
  have hmerged := ((told_nil m).withSink (.pushed ps)).dispatch
  have heach := ((told_nil m).withSink .empty).dispatchEach rfl ps
  cases h₁ : (dispatch : Op ν π Unit) (m.withSink (.pushed ps)) with
  | ok _ m₁ =>
    obtain ⟨htold₁, hsink₁⟩ := hmerged.of_ok h₁
    have htold : m.Told _ m₁ := htold₁.congr fun s f => heard_pushed
    cases h₂ : (dispatchEach ps : Op ν π Unit) (m.withSink .empty) with
    | ok _ m₂ =>
      obtain ⟨htold₂, hsink₂⟩ := heach.of_ok h₂
      exact .inl ⟨m₁, m₂, rfl, rfl, htold.alike htold₂ (hsink₁.trans hsink₂.symm)⟩
    | error e m₂ =>
      obtain ⟨-, s, f, hf, hno⟩ := heach.of_error h₂
      exact absurd (htold.legible s f hf) hno
  | error e m₁ =>
    obtain ⟨rfl, s, f, hf, hno⟩ := hmerged.of_error h₁
    cases h₂ : (dispatchEach ps : Op ν π Unit) (m.withSink .empty) with
    | ok _ m₂ =>
      obtain ⟨htold₂, -⟩ := heach.of_ok h₂
      exact absurd (htold₂.legible s f (heard_pushed.1 hf)) hno
    | error e m₂ =>
      obtain ⟨rfl, -⟩ := heach.of_error h₂
      exact .inr ⟨m₁, m₂, rfl, rfl⟩

end Model

end Propagation
