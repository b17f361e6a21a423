import Propagation.Proofs.Model.Dispatch

/-!
# What a dispatch does to any model

Dispatching is specified on any model, valid or not: it stops with a fault at a propagator whose
flags cannot be read (`Model.Stops`), and otherwise the queue and the pending events after it are
determined (`Model.Told`). Both depend only on which subscription is notified of which event
(`Heard`), not on how the events are joined in the entries of the sink.
-/

set_option autoImplicit false

namespace Propagation

open Update

/-! ## Pending lists -/

theorem Mask.ext_mem {m n : Mask} (h : ∀ e, e ∈ m ↔ e ∈ n) : m = n := by
  obtain ⟨a⟩ := m
  obtain ⟨b⟩ := n
  refine congrArg Mask.mk (BitVec.eq_of_getLsbD_eq fun i hi => Bool.eq_iff_iff.2 ?_)
  have hall : ∀ i < 10, ∃ e ∈ Event.all, e.index = i := by decide
  obtain ⟨e, -, rfl⟩ := hall i hi
  exact h e

/-- The pending list `l'` is `l` with the events `told` at the local indices joined in. -/
structure Joined (l : List (Nat × Mask)) (told : Nat → Event → Prop) (l' : List (Nat × Mask)) :
    Prop where
  some_iff : ∀ i, (l'.lookup i).isSome ↔ (l.lookup i).isSome ∨ ∃ f, told i f
  mem_iff : ∀ i f, f ∈ (l'.lookup i).getD .empty ↔ f ∈ (l.lookup i).getD .empty ∨ told i f
  nodup_iff : (l'.map (·.1)).Nodup ↔ (l.map (·.1)).Nodup

section
variable {l l' l₁ l₂ : List (Nat × Mask)} {told told' : Nat → Event → Prop} {i j : Nat} {m : Mask}

theorem lookup_cons_eq {k : Nat} :
    ((k, m) :: l).lookup j = if j = k then some m else l.lookup j := by
  rw [List.lookup_cons]
  by_cases hj : j = k
  · simp [hj]
  · simp [hj, beq_false_of_ne hj]

theorem lookup_joinPending : (joinPending i m l).lookup j =
    if j = i then some ((l.lookup i).getD .empty ∪ m) else l.lookup j := by
  have hempty : Mask.empty ∪ m = m := Mask.ext_mem fun e => by simp [Mask.mem_iff]
  induction l with
  | nil =>
    rw [joinPending, lookup_cons_eq, List.lookup_nil, List.lookup_nil, Option.getD_none, hempty]
  | cons x rest ih =>
    obtain ⟨k, n⟩ := x
    rw [joinPending]
    by_cases hk : k = i
    · subst hk
      rw [if_pos rfl, lookup_cons_eq, lookup_cons_eq, lookup_cons_eq, if_pos rfl, Option.getD_some]
      by_cases hj : j = k
      · rw [if_pos hj, if_pos hj]
      · rw [if_neg hj, if_neg hj, if_neg hj]
    · rw [if_neg hk, lookup_cons_eq, lookup_cons_eq, lookup_cons_eq, ih, if_neg (Ne.symm hk)]
      by_cases hj : j = k
      · rw [if_pos hj, if_pos hj, if_neg (hj ▸ hk)]
      · rw [if_neg hj, if_neg hj]

theorem nodup_joinPending :
    ((joinPending i m l).map (·.1)).Nodup ↔ (l.map (·.1)).Nodup := by
  refine ⟨fun h => ?_, nodup_keys_joinPending⟩
  induction l with
  | nil => exact List.nodup_nil
  | cons x rest ih =>
    obtain ⟨k, n⟩ := x
    rw [joinPending] at h
    split at h
    · exact h
    · obtain ⟨hk, hrest⟩ := List.nodup_cons.1 h
      exact List.nodup_cons.2 ⟨fun hmem => hk (mem_keys_joinPending.2 (.inr hmem)), ih hrest⟩

theorem joined_self (h : ∀ i f, ¬told i f) : Joined l told l :=
  ⟨fun i => by simp [h], fun i f => by simp [h], Iff.rfl⟩

theorem Joined.congr (h : Joined l told l') (heq : ∀ i f, told i f ↔ told' i f) :
    Joined l told' l' := by
  obtain rfl : told = told' := funext₂ fun i f => propext (heq i f)
  exact h

theorem Joined.join (h : Joined l told l') (hm : ∃ f, f ∈ m) :
    Joined l (fun j f => told j f ∨ j = i ∧ f ∈ m) (joinPending i m l') where
  some_iff j := by
    rw [lookup_joinPending]
    by_cases hj : j = i
    · obtain ⟨f, hf⟩ := hm
      rw [if_pos hj, Option.isSome_some]
      exact iff_of_true rfl (.inr ⟨f, .inr ⟨hj, hf⟩⟩)
    · rw [if_neg hj, h.some_iff]
      simp only [hj, false_and, or_false]
  mem_iff j f := by
    rw [lookup_joinPending]
    by_cases hj : j = i
    · subst hj
      rw [if_pos rfl, Option.getD_some, Mask.mem_union, h.mem_iff]
      simp only [true_and, or_assoc]
    · rw [if_neg hj, h.mem_iff]
      simp only [hj, false_and, or_false]
  nodup_iff := nodup_joinPending.trans h.nodup_iff

theorem mem_iff_lookup (hl : (l.map (·.1)).Nodup) : (i, m) ∈ l ↔ l.lookup i = some m := by
  induction l with
  | nil => simp
  | cons x rest ih =>
    obtain ⟨k, n⟩ := x
    obtain ⟨hk, hrest⟩ := List.nodup_cons.1 hl
    rw [List.mem_cons, lookup_cons_eq, Prod.mk.injEq]
    by_cases hi : i = k
    · subst hi
      have hno : (i, m) ∉ rest := fun hmem => hk (List.mem_map.2 ⟨_, hmem, rfl⟩)
      simp [hno, eq_comm]
    · rw [if_neg hi, ih hrest]
      simp [hi]

/-- `Joined` determines the list up to its order. -/
theorem Joined.unique (h₁ : Joined l told l₁) (h₂ : Joined l told l₂) :
    (∀ i, l₁.lookup i = l₂.lookup i) ∧ ((l₁.map (·.1)).Nodup → l₁.Perm l₂) := by
  have hlookup : ∀ i, l₁.lookup i = l₂.lookup i := fun i => by
    have hsome := (h₁.some_iff i).trans (h₂.some_iff i).symm
    have hmem := fun f => (h₁.mem_iff i f).trans (h₂.mem_iff i f).symm
    cases hl₁ : l₁.lookup i with
    | none =>
      rw [hl₁] at hsome
      exact (Option.not_isSome_iff_eq_none.1 (fun h => nomatch hsome.2 h)).symm
    | some m =>
      rw [hl₁] at hsome
      obtain ⟨n, hn⟩ := Option.isSome_iff_exists.1 (hsome.1 rfl)
      rw [hl₁, hn] at hmem
      rw [hn]
      exact congrArg some (Mask.ext_mem hmem)
  refine ⟨hlookup, fun hnodup => ?_⟩
  have hnodup₂ : (l₂.map (·.1)).Nodup := h₂.nodup_iff.2 (h₁.nodup_iff.1 hnodup)
  refine (List.perm_ext_iff_of_nodup hnodup.of_map hnodup₂.of_map).2 fun x => ?_
  rw [mem_iff_lookup hnodup, mem_iff_lookup hnodup₂, hlookup]

end

/-! ## The effect on the queue and the entries -/

/-- One of the pairs `xs` notifies the subscription `s` of the event `f`: it is not by the
propagator of `s`, and in both masks. -/
def Heard (xs : List (PendingEvent × Subscription)) (s : Subscription) (f : Event) : Prop :=
  ∃ x, (x, s) ∈ xs ∧ x.cause ≠ .propagator s.propagator ∧ f ∈ x.mask ∧ f ∈ s.mask

section
variable {xs ys : List (PendingEvent × Subscription)} {x : PendingEvent} {s s' : Subscription}
  {f : Event}

theorem not_heard_nil : ¬Heard [] s f := by
  rintro ⟨x, hx, -⟩
  cases hx

theorem heard_append : Heard (xs ++ ys) s f ↔ Heard xs s f ∨ Heard ys s f := by
  simp only [Heard, List.mem_append, or_and_right, exists_or]

theorem heard_singleton : Heard [(x, s)] s' f ↔
    s' = s ∧ x.cause ≠ .propagator s.propagator ∧ f ∈ x.mask ∩ s.mask := by
  rw [Heard, Mask.mem_inter]
  constructor
  · rintro ⟨y, hy, hrest⟩
    cases List.mem_singleton.1 hy
    exact ⟨rfl, hrest⟩
  · rintro ⟨rfl, hrest⟩
    exact ⟨x, List.mem_singleton_self _, hrest⟩

/-- `Heard` on an appended pair, for the subscriptions that satisfy `P`. -/
theorem exists_heard {P : Subscription → Prop} : (∃ s', P s' ∧ Heard (xs ++ [(x, s)]) s' f) ↔
    (∃ s', P s' ∧ Heard xs s' f) ∨ P s ∧ Heard [(x, s)] s f := by
  simp only [heard_append, and_or_left, exists_or]
  refine or_congr_right ⟨?_, fun h => ⟨s, h⟩⟩
  rintro ⟨s', hP, hf⟩
  obtain ⟨rfl, -⟩ := heard_singleton.1 hf
  exact ⟨hP, hf⟩

theorem hits_iff_heard : Hits x s ↔ ∃ f, Heard [(x, s)] s f := by
  simp only [heard_singleton, true_and, exists_and_left, ← Mask.isEmpty_eq_false_iff]
  exact Iff.rfl

end

namespace Model

variable {ν π : Type} {m m' : Model ν π} {xs : List (PendingEvent × Subscription)}

/-- The flags of the propagator `p` can be read. -/
def Legible (m : Model ν π) (p : PropagatorId) : Prop :=
  ∃ e b, m.entries[p.id]? = some e ∧ activeEntry e m = .ok b

/-- The flags of the propagator `p` can be read, and it is active. -/
def Listens (m : Model ν π) (p : PropagatorId) : Prop :=
  ∃ e, m.entries[p.id]? = some e ∧ activeEntry e m = .ok true

/-- The priority in the entry of `p`, or an arbitrary one if there is no entry. -/
def rank (m : Model ν π) (p : PropagatorId) : Priority :=
  (m.entries[p.id]?).elim .unary (·.priority)

/-- `q` is the queue of `m` after the pairs `xs`: the propagators that listen and have `Heard` an
event have joined it, unless they were in it. -/
def Wakes (m : Model ν π) (xs : List (PendingEvent × Subscription)) (q : Queue) : Prop :=
  ∃ news, m.queue.Gains m.rank news q ∧ ∀ p, p ∈ news ↔
    m.queue.contains p = false ∧ m.Listens p ∧ ∃ f s, s.propagator = p ∧ Heard xs s f

/-- `l` is the pending list of the entry `e` of `p` after the pairs `xs`: what `p` has `Heard` is
joined in, if it listens and `e` is not coarse. -/
def Pends (m : Model ν π) (p : Nat) (e : Entry π) (xs : List (PendingEvent × Subscription))
    (l : List (Nat × Mask)) : Prop :=
  Joined e.pending (fun i f => e.coarse = false ∧ m.Listens ⟨p⟩ ∧
    ∃ s, (s.propagator = ⟨p⟩ ∧ s.localIndex = i) ∧ Heard xs s f) l

/-- `m'` is the model `m` after the pairs `xs` have been notified. -/
structure Told (m : Model ν π) (xs : List (PendingEvent × Subscription)) (m' : Model ν π) :
    Prop where
  legible : ∀ s f, Heard xs s f → m.Legible s.propagator
  rest : { m' with entries := m.entries, queue := m.queue,
                   store := { m'.store with sink := m.store.sink } } = m
  queue : m.Wakes xs m'.queue
  size : m'.entries.size = m.entries.size
  entry : ∀ (p : Nat) (e : Entry π), m.entries[p]? = some e →
    ∃ l, m'.entries[p]? = some { e with pending := l } ∧ m.Pends p e xs l

theorem told_nil (m : Model ν π) : m.Told [] m where
  legible s f h := absurd h not_heard_nil
  rest := rfl
  queue := ⟨[], m.queue.gains_nil _, fun p => by simp [not_heard_nil]⟩
  size := rfl
  entry p e he := ⟨e.pending, he, joined_self fun i f h => by
    obtain ⟨-, -, s, -, h⟩ := h
    exact not_heard_nil h⟩

/-- `Told` only depends on which subscriptions have `Heard` which events. -/
theorem Told.congr {ys : List (PendingEvent × Subscription)} (h : m.Told xs m')
    (heq : ∀ s f, Heard xs s f ↔ Heard ys s f) : m.Told ys m' := by
  obtain ⟨hlegible, hrest, hqueue, hsize, hentry⟩ := h
  unfold Wakes at hqueue
  unfold Pends at hentry
  simp only [heq] at hlegible hqueue hentry
  exact ⟨hlegible, hrest, hqueue, hsize, hentry⟩

theorem activeEntry_error {e : Entry π} {f : Fault} (h : activeEntry e m = .error f) :
    f = .index := by
  have hfetch : ∀ {r : BoolRef} {f : Fault}, r.get m.store.trail = .error f → f = .index :=
    fun {r f} h => by
      rw [BoolRef.get, IntRef.get, Checked.fetch] at h
      cases hc : m.store.trail.cells[r.cell.index]? with
      | none => rw [hc] at h; cases h; rfl
      | some c => rw [hc] at h; cases h
  rw [activeEntry] at h
  cases he : e.enabled.get m.store.trail with
  | error g =>
    rw [he] at h
    cases h
    exact hfetch he
  | ok b =>
    rw [he] at h
    cases b with
    | false => cases h
    | true =>
      cases hr : e.retired.get m.store.trail with
      | error g =>
        rw [hr] at h
        cases h
        exact hfetch hr
      | ok b =>
        rw [hr] at h
        cases h

/-! ## One subscriber -/

section
variable {x : PendingEvent} {s : Subscription} {q : Queue} {p : Nat} {e : Entry π}
  {l : List (Nat × Mask)}

theorem Told.legible_append (h : m.Told xs m') (hs : Hits x s → m.Legible s.propagator) :
    ∀ s' f, Heard (xs ++ [(x, s)]) s' f → m.Legible s'.propagator := by
  intro s' f hf
  rcases heard_append.1 hf with hf | hf
  · exact h.legible s' f hf
  · obtain ⟨rfl, -⟩ := heard_singleton.1 hf
    exact hs (hits_iff_heard.2 ⟨f, hf⟩)

theorem Wakes.mute (h : m.Wakes xs q)
    (hmute : ∀ {p f}, m.Listens p → ¬(s.propagator = p ∧ Heard [(x, s)] s f)) :
    m.Wakes (xs ++ [(x, s)]) q := by
  obtain ⟨news, hgains, hnews⟩ := h
  refine ⟨news, hgains, fun p => (hnews p).trans ?_⟩
  refine and_congr_right fun _ => and_congr_right fun hlisten => ?_
  simp only [exists_heard, hmute hlisten, or_false]

theorem Pends.mute (h : m.Pends p e xs l)
    (hmute : ∀ {f}, m.Listens ⟨p⟩ → ¬(s.propagator = ⟨p⟩ ∧ Heard [(x, s)] s f)) :
    m.Pends p e (xs ++ [(x, s)]) l := by
  refine Joined.congr h fun i f => and_congr_right fun _ => and_congr_right fun hlisten => ?_
  rw [exists_heard]
  exact (or_iff_left fun h => hmute hlisten ⟨h.1.1, h.2⟩).symm

/-- A pair that hits no propagator that listens does not change the model. -/
theorem Told.mute (h : m.Told xs m')
    (hmute : Hits x s → m.Legible s.propagator ∧ ¬m.Listens s.propagator) :
    m.Told (xs ++ [(x, s)]) m' := by
  have hnot : ∀ {p f}, m.Listens p → ¬(s.propagator = p ∧ Heard [(x, s)] s f) := by
    rintro p f hlisten ⟨rfl, hf⟩
    exact (hmute (hits_iff_heard.2 ⟨f, hf⟩)).2 hlisten
  refine ⟨h.legible_append fun hhit => (hmute hhit).1, h.rest, h.queue.mute hnot, h.size,
    fun p e he => ?_⟩
  obtain ⟨l, hl, hpends⟩ := h.entry p e he
  exact ⟨l, hl, hpends.mute hnot⟩

/-- A propagator that is hit and listens is in the queue afterwards. -/
theorem Wakes.strike (h : m.Wakes xs q) (hhit : Hits x s) (hlisten : m.Listens s.propagator) :
    m.Wakes (xs ++ [(x, s)]) (q.enqueue s.propagator (m.rank s.propagator)) := by
  obtain ⟨news, hgains, hnews⟩ := h
  have hmem : ∀ p, (∃ f s', s'.propagator = p ∧ Heard (xs ++ [(x, s)]) s' f) ↔
      (∃ f s', s'.propagator = p ∧ Heard xs s' f) ∨ s.propagator = p := fun p => by
    simp only [exists_heard, exists_or, exists_and_left, ← hits_iff_heard, hhit, and_true]
  by_cases hin : q.contains s.propagator = true
  · refine ⟨news, by rwa [Queue.enqueue, if_pos hin], fun p => ?_⟩
    rw [hnews, hmem]
    refine and_congr_right fun hno => and_congr_right fun _ => (or_iff_left_of_imp ?_).symm
    -- it is in the queue already, as one of the news or from before
    rintro rfl
    rcases hgains.contains.1 hin with hin | hin
    · exact ((hnews _).1 hin).2.2
    · rw [hno] at hin
      cases hin
  · refine ⟨news ++ [s.propagator], hgains.enqueue (by simpa using hin), fun p => ?_⟩
    rw [List.mem_append, List.mem_singleton, hnews, hmem]
    rw [hgains.contains, not_or, Bool.not_eq_true] at hin
    constructor
    · rintro (⟨hp, hlis, hf⟩ | rfl)
      · exact ⟨hp, hlis, .inl hf⟩
      · exact ⟨hin.2, hlisten, .inr rfl⟩
    · rintro ⟨hp, hlis, hf | rfl⟩
      · exact .inl ⟨hp, hlis, hf⟩
      · exact .inr rfl

/-- The pending list of a propagator that is hit and listens is joined with the events of the pair,
unless its entry is coarse. -/
theorem Pends.strike (h : m.Pends p e xs l) (hhit : Hits x s) (hlisten : m.Listens ⟨p⟩)
    (hp : s.propagator = ⟨p⟩) : m.Pends p e (xs ++ [(x, s)])
      (if e.coarse then l else joinPending s.localIndex (x.mask ∩ s.mask) l) := by
  cases hcoarse : e.coarse with
  | true =>
    refine Joined.congr h fun i f => ?_
    simp only [hcoarse, Bool.true_eq_false, false_and]
  | false =>
    have hjoin := Joined.join (i := s.localIndex) h (Mask.isEmpty_eq_false_iff.1 hhit.2)
    refine hjoin.congr fun i f => ?_
    rw [exists_heard, heard_singleton, and_iff_right hcoarse, and_iff_right hlisten,
      and_iff_right hcoarse, and_iff_right hlisten]
    refine or_congr_right ⟨?_, ?_⟩
    · rintro ⟨rfl, hf⟩
      exact ⟨⟨hp, rfl⟩, rfl, hhit.1, hf⟩
    · rintro ⟨⟨-, rfl⟩, -, -, hf⟩
      exact ⟨rfl, hf⟩

/-- A pair that hits a propagator that listens changes the model as `struck`. -/
theorem Told.strike (h : m.Told xs m') (hhit : Hits x s) (hlisten : m.Listens s.propagator) :
    m.Told (xs ++ [(x, s)]) (m'.struck x s (m.rank s.propagator)) := by
  obtain ⟨e₀, he₀, hactive⟩ := id hlisten
  refine ⟨h.legible_append fun _ => ⟨e₀, true, he₀, hactive⟩, h.rest, h.queue.strike hhit hlisten,
    ?_, fun p e he => ?_⟩
  · rw [struck, Array.size_modify]
    exact h.size
  · obtain ⟨l, hl, hpends⟩ := h.entry p e he
    rw [struck, Array.getElem?_modify]
    by_cases hp : s.propagator.id = p
    · subst hp
      refine ⟨_, ?_, hpends.strike hhit hlisten rfl⟩
      rw [if_pos rfl, hl, Option.map_some, Entry.addPending]
      split <;> rfl
    · rw [if_neg hp]
      refine ⟨l, hl, hpends.mute ?_⟩
      rintro f - ⟨heq, -⟩
      exact hp (congrArg PropagatorId.id heq)

end

/-- One of the pairs `xs` notifies a propagator whose flags cannot be read, and the fault `e` is
`.index`. -/
def Stops (m : Model ν π) (xs : List (PendingEvent × Subscription)) (e : Fault) : Prop :=
  e = .index ∧ ∃ s f, Heard xs s f ∧ ¬m.Legible s.propagator

theorem Stops.mono {ys : List (PendingEvent × Subscription)} {e : Fault} (h : m.Stops xs e)
    (hle : ∀ s f, Heard xs s f → Heard ys s f) : m.Stops ys e := by
  obtain ⟨he, s, f, hf, hno⟩ := h
  exact ⟨he, s, f, hle s f hf, hno⟩

/-- `activeEntry` reads nothing that notifying changes. -/
theorem Told.activeEntry_eq (h : m.Told xs m') {e : Entry π} (l : List (Nat × Mask)) :
    activeEntry { e with pending := l } m' = activeEntry e m := by
  have htrail : m'.store.trail = m.store.trail := congrArg (·.store.trail) h.rest
  rw [activeEntry, activeEntry, htrail]

theorem Told.notify (h : m.Told xs m') (x : PendingEvent) (s : Subscription) :
    Ends (Model.notify x s : Op ν π Unit) m' (fun _ m'' => m.Told (xs ++ [(x, s)]) m'')
      fun e _ => m.Stops [(x, s)] e := by
  by_cases hhit : Hits x s
  · obtain ⟨f, hf⟩ := hits_iff_heard.1 hhit
    cases he : m.entries[s.propagator.id]? with
    | none =>
      have he' : m'.entries[s.propagator.id]? = none := by
        rw [Array.getElem?_eq_none_iff] at he ⊢
        rw [h.size]
        exact he
      refine ends_of_error (e := .index) (u := m') ?_ ⟨rfl, s, f, hf, ?_⟩
      · rw [Model.notify, if_neg hhit.1, hhit.2, if_neg (by simp)]
        refine bind_error _ (query_error ?_)
        rw [Checked.fetch, he']
      · rintro ⟨e, b, he₁, -⟩
        rw [he] at he₁
        cases he₁
    | some e =>
      obtain ⟨l, hl, -⟩ := h.entry _ e he
      have hactive := h.activeEntry_eq (e := e) l
      cases hb : activeEntry e m with
      | error g =>
        obtain rfl := activeEntry_error hb
        refine ends_of_error (e := .index) (u := m') ?_ ⟨rfl, s, f, hf, ?_⟩
        · rw [Model.notify, if_neg hhit.1, hhit.2, if_neg (by simp),
            bind_ok _ (query_ok (m := m') (Checked.fetch_eq_ok.2 hl))]
          exact bind_error _ (query_error (hactive.trans hb))
        · rintro ⟨e', b, he₁, hb'⟩
          cases he.symm.trans he₁
          rw [hb] at hb'
          cases hb'
      | ok b =>
        cases b with
        | false =>
          refine ends_of_ok (notify_of_not hl (hactive.trans hb) (by simp))
            (h.mute fun _ => ⟨⟨e, false, he, hb⟩, ?_⟩)
          rintro ⟨e', he₁, hb'⟩
          cases he.symm.trans he₁
          rw [hb] at hb'
          cases hb'
        | true =>
          have hrank : m.rank s.propagator = e.priority := by rw [rank, he]; rfl
          refine ends_of_ok (notify_of_hits hl (hactive.trans hb) hhit rfl) ?_
          exact hrank ▸ h.strike hhit ⟨e, he, hb⟩
  · exact ends_of_ok (notify_of_miss hhit m') (h.mute fun h => absurd h hhit)

/-! ## All subscribers -/

theorem Told.row (h : m.Told xs m') (x : PendingEvent) (row : List Subscription) :
    Ends (row.forM (Model.notify x) : Op ν π PUnit) m'
      (fun _ m'' => m.Told (xs ++ row.map (x, ·)) m'') fun e _ => m.Stops (row.map (x, ·)) e := by
  induction row generalizing xs m' with
  | nil => exact ends_of_ok rfl (by rwa [List.map_nil, List.append_nil])
  | cons s row ih =>
    have hcons : (s :: row).map (x, ·) = [(x, s)] ++ row.map (x, ·) := rfl
    rw [hcons, ← List.append_assoc]
    refine ((h.notify x s).mono (fun _ _ h => h) fun e _ he => ?_).bind fun _ m'' h'' =>
      (ih h'').mono (fun _ _ h => h) fun e _ he => ?_
    · exact he.mono fun _ _ hf => heard_append.2 (.inl hf)
    · exact he.mono fun _ _ hf => heard_append.2 (.inr hf)

theorem Told.events (h : m.Told xs m') (events : List PendingEvent) :
    Ends (events.forM notifyAll : Op ν π PUnit) m'
      (fun _ m'' => m.Told (xs ++ m.audience events) m'')
      fun e _ => m.Stops (m.audience events) e := by
  induction events generalizing xs m' with
  | nil => exact ends_of_ok rfl (by rwa [audience, List.flatMap_nil, List.append_nil])
  | cons x events ih =>
    have hrows : m'.subscriptions = m.subscriptions := congrArg (·.subscriptions) h.rest
    have hone : Ends (notifyAll x : Op ν π Unit) m'
        (fun _ m'' => m.Told (xs ++ (m.row x.var).map (x, ·)) m'')
        fun e _ => m.Stops ((m.row x.var).map (x, ·)) e := by
      unfold notifyAll
      refine Ends.of_eq ?_ (bind_ok _ (get_apply _))
      rw [hrows]
      exact h.row x (m.row x.var)
    rw [audience, List.flatMap_cons, ← List.append_assoc]
    refine (hone.mono (fun _ _ h => h) fun e _ he => ?_).bind fun _ m'' h'' =>
      (ih h'').mono (fun _ _ h => h) fun e _ he => ?_
    · exact he.mono fun _ _ hf => heard_append.2 (.inl hf)
    · exact he.mono fun _ _ hf => heard_append.2 (.inr hf)

/-- `dispatch` notifies the pairs of the sink and empties it, or `Stops`. -/
theorem Told.dispatch (h : m.Told xs m') :
    Ends (Model.dispatch : Op ν π Unit) m'
      (fun _ m'' => m.Told (xs ++ m.audience m'.store.sink.toList) m'' ∧ m''.store.sink = .empty)
      fun e _ => m.Stops (m.audience m'.store.sink.toList) e := by
  unfold Model.dispatch
  refine Ends.of_eq ?_ (bind_ok _ (get_apply _))
  refine (h.events m'.store.sink.toList).bind fun _ m'' h'' =>
    ends_of_ok (modify_apply _ _) ⟨?_, rfl⟩
  exact ⟨h''.legible, h''.rest, h''.queue, h''.size, h''.entry⟩

end Model

end Propagation
