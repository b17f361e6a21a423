import Propagation.Proofs.Sink
import Propagation.Proofs.Store.Offset
import Propagation.Proofs.Store.Replay

/-!
# Changes of a domain

The effect of a successful narrowing on a store (`Store.Narrowed`): the scene changes at one
variable, its log gains one entry for each element that has been decided, the sink gains the events
of the passage from the old domain to the new one (`Dom.Emits`, `Dom.Told`), and the rest stays as
it is (`Store.Frame`).
-/

set_option autoImplicit false

namespace Propagation

/-- The events of the passage from one domain to another. -/
def Dom.Emits : Dom → Dom → Event → Prop
  | .int vs, .int vs', e => vs' ≠ vs ∧
    match e with
    | .instantiate => vs'.card = 1
    | .lowerBound => ∀ a, IsLeast (vs : Set Int) a → a ∉ vs'
    | .upperBound => ∀ a, IsGreatest (vs : Set Int) a → a ∉ vs'
    | .removal => True
    | _ => False
  | D, D', e => (∃ x ∈ D'.kernel \ D.kernel, e = x.entering) ∨
    ∃ x ∈ D.envelope \ D'.envelope, e = x.leaving

theorem Dom.emits_iff {D : Dom} (hD : ∀ vs, D ≠ .int vs) {D' : Dom} {e : Event} :
    D.Emits D' e ↔ (∃ x ∈ D'.kernel \ D.kernel, e = x.entering) ∨
      ∃ x ∈ D.envelope \ D'.envelope, e = x.leaving := by
  cases D with
  | int vs => exact absurd rfl (hD vs)
  | set n b => exact Iff.rfl
  | graph n b => exact Iff.rfl

theorem Dom.not_emits_self (D : Dom) (e : Event) : ¬D.Emits D e := by
  cases D with
  | int vs => exact fun h => h.1 rfl
  | set n b => simp [Emits]
  | graph n b => simp [Emits]

/-- How the events of a passage reach the sink: those of integers in one `pushAll`, and those of a
set or a graph with the entries `xs` that are logged. -/
def Dom.Told (D D' : Dom) (v : Var) (c : Cause) (xs : List DeltaEntry) (k k' : Sink) : Prop :=
  match D with
  | .int vs => ∃ m : Mask, (∀ e, e ∈ m ↔ (Dom.int vs).Emits D' e) ∧ k' = k.pushAll v m c
  | _ => k' = k.tell v xs

theorem Dom.told_iff {D : Dom} (hD : ∀ vs, D ≠ .int vs) {D' : Dom} {v : Var} {c : Cause}
    {xs : List DeltaEntry} {k k' : Sink} : D.Told D' v c xs k k' ↔ k' = k.tell v xs := by
  cases D with
  | int vs => exact absurd rfl (hD vs)
  | set n b => exact Iff.rfl
  | graph n b => exact Iff.rfl

theorem Dom.told_self (D : Dom) (v : Var) (c : Cause) (k : Sink) : D.Told D v c [] k k := by
  cases D with
  | int vs =>
    refine ⟨.empty, fun e => ?_, (k.pushAll_empty v c).symm⟩
    simp [Mask.mem_iff, not_emits_self]
  | set n b => exact rfl
  | graph n b => exact rfl

/-- The sink after a passage has the events that it had and those of `Dom.Emits`. -/
theorem Dom.Told.has {D D' : Dom} {v : Var} {c : Cause} {xs : List DeltaEntry} {k k' : Sink}
    (h : D.Told D' v c xs k k') (hxs : ∀ x, x ∈ xs ↔ D.Logs D' c x) {w : Var} {e : Event}
    {d : Cause} : k'.Has w e d ↔ k.Has w e d ∨ (w = v ∧ d = c ∧ D.Emits D' e) := by
  by_cases hint : ∃ vs, D = .int vs
  · obtain ⟨vs, rfl⟩ := hint
    obtain ⟨m, hm, rfl⟩ := h
    rw [Sink.has_pushAll, hm]
  · have hD : ∀ vs, D ≠ .int vs := fun vs h => hint ⟨vs, h⟩
    rw [(told_iff hD).1 h, Sink.has_tell, emits_iff hD]
    refine or_congr_right (and_congr_right fun _ => ?_)
    simp only [hxs, Logs]
    constructor
    · rintro ⟨x, ⟨f, hf, rfl⟩ | ⟨f, hf, rfl⟩, hd, he⟩
      · rw [Element.cause_enforced] at hd
        rw [Element.event_enforced] at he
        exact ⟨hd, .inl ⟨f, hf, he⟩⟩
      · rw [Element.cause_removed] at hd
        rw [Element.event_removed] at he
        exact ⟨hd, .inr ⟨f, hf, he⟩⟩
    · rintro ⟨rfl, ⟨f, hf, rfl⟩ | ⟨f, hf, rfl⟩⟩
      · exact ⟨_, .inl ⟨f, hf, rfl⟩, (Element.cause_enforced d f).symm,
          (Element.event_enforced d f).symm⟩
      · exact ⟨_, .inr ⟨f, hf, rfl⟩, (Element.cause_removed d f).symm,
          (Element.event_removed d f).symm⟩

theorem Dom.not_logs_self (D : Dom) (c : Cause) (x : DeltaEntry) : ¬D.Logs D c x := by
  simp [Logs]

/-- The kind of the variables that it narrows. -/
def Narrowing.kind : Narrowing → Kind
  | .fix _ | .remove _ | .removeBelow _ | .removeAbove _ => .int
  | .addToKernel _ | .removeFromEnvelope _ => .set
  | .enforceNode _ | .removeNode _ | .enforceArc _ _ | .removeArc _ _ => .graph

theorem Dom.Accepts.kindOf_eq {D : Dom} {n : Narrowing} (h : D.Accepts n) : D.kindOf = n.kind := by
  cases D <;> cases n <;> first | rfl | exact h.elim

/-- The reason of the contradiction if the narrowing would leave nothing. -/
def Narrowing.refusal : Narrowing → Reason
  | .fix _ | .remove _ | .removeBelow _ | .removeAbove _ => .wipeout
  | .addToKernel a => .enforceForbidden (.value a)
  | .removeFromEnvelope a => .removeMandatory (.value a)
  | .enforceNode i => .enforceForbidden (.node i)
  | .removeNode i => .removeMandatory (.node i)
  | .enforceArc i j => .enforceForbidden (.arc i j)
  | .removeArc i j => .removeMandatory (.arc i j)

namespace Store

/-! ## Running updates of a store -/

section
variable {s : Store}

theorem query_eq {α : Type} (f : Store → Except Fault α) (s : Store) :
    query f s = match f s with
      | .ok a => .ok a s
      | .error e => .error e s := by
  cases h : f s <;> rw [query, Update.query, h]

theorem onTrail_ok {α : Type} {x : Trail.Op α} {a : α} {t : Trail} (h : x s.trail = .ok a t) :
    onTrail x s = .ok a { s with trail := t } := by
  rw [onTrail, Update.within_apply, h]

theorem onTrail_error {α : Type} {x : Trail.Op α} {e : Fault} {t : Trail}
    (h : x s.trail = .error e t) : onTrail x s = .error e { s with trail := t } := by
  rw [onTrail, Update.within_apply, h]

theorem onTrail_ends {α : Type} {x : Trail.Op α} {ok : α → Trail → Prop}
    {bad : Fault → Trail → Prop} (h : Update.Ends x s.trail ok bad) :
    Update.Ends (onTrail x) s (fun a u => ∃ t, u = { s with trail := t } ∧ ok a t)
      fun e u => ∃ t, u = { s with trail := t } ∧ bad e t :=
  Update.Ends.within (h.mono (fun _ t ht => ⟨t, rfl, ht⟩) fun _ t he => ⟨t, rfl, he⟩)

end

/-! ## What stays -/

/-- The live variables keep their representation, and the integer sets their offsets. -/
structure Rooted (s s' : Store) : Prop where
  domain : ∀ v, s.scene v ≠ none → s'.domains[v.id]? = s.domains[v.id]?
  offset : ∀ i x, s.trail.view.sparse i = some x →
    ∃ y, s'.trail.view.sparse i = some y ∧ y.offset = x.offset

/-- The stores have the same integer cells, levels and variables: only sets of the trail, logs and
the sink may differ. -/
structure Frame (s s' : Store) : Prop where
  ints : s'.trail.view.int = s.trail.view.int
  offset : ∀ i x, s.trail.view.sparse i = some x →
    ∃ y, s'.trail.view.sparse i = some y ∧ y.offset = x.offset
  past : s'.trail.past = s.trail.past
  clock : s'.trail.clock = s.trail.clock
  domains : s'.domains = s.domains
  alive : s'.alive = s.alive
  epoch : s'.epoch = s.epoch
  running : s'.running = s.running

section
variable {s s' s'' : Store}

theorem rooted_self (s : Store) : Rooted s s := ⟨fun _ _ => rfl, fun _ x hx => ⟨x, hx, rfl⟩⟩

theorem Rooted.trans (h : Rooted s s') (h' : Rooted s' s'')
    (hlive : ∀ v, s.scene v ≠ none → s'.scene v ≠ none) : Rooted s s'' where
  domain v hv := (h'.domain v (hlive v hv)).trans (h.domain v hv)
  offset i x hx := by
    obtain ⟨y, hy, hxy⟩ := h.offset i x hx
    obtain ⟨z, hz, hyz⟩ := h'.offset i y hy
    exact ⟨z, hz, hyz.trans hxy⟩

/-- The offset of a live variable is kept. -/
theorem Rooted.keeps {v : Var} {o : Int} (h : s.Rooted s') (hs : s.Valid) (hs' : s'.Valid)
    (hlive : ∀ v, s.scene v ≠ none → s'.scene v ≠ none) (ho : s.offset v = some o) :
    s'.offset v = some o := by
  obtain ⟨hlt, r, x, hd, hx, rfl⟩ := offsetIn_eq_some.1 ho
  have hv := (hs.ne_none_iff v).2 hlt
  have hlt' := (hs'.ne_none_iff v).1 (hlive v hv)
  obtain ⟨y, hy, hxy⟩ := h.offset r.index x hx
  exact offsetIn_eq_some.2 ⟨hlt', r, y, (h.domain v hv).trans hd, hy, hxy⟩

theorem Frame.rooted (h : Frame s s') : Rooted s s' := ⟨fun _ _ => by rw [h.domains], h.offset⟩

theorem Frame.refl (s : Store) : Frame s s :=
  ⟨rfl, (rooted_self s).offset, rfl, rfl, rfl, rfl, rfl, rfl⟩

theorem Frame.trans (h : Frame s s') (h' : Frame s' s'') : Frame s s'' where
  ints := h'.ints.trans h.ints
  offset i x hx := by
    obtain ⟨y, hy, hxy⟩ := h.offset i x hx
    obtain ⟨z, hz, hyz⟩ := h'.offset i y hy
    exact ⟨z, hz, hyz.trans hxy⟩
  past := h'.past.trans h.past
  clock := h'.clock.trans h.clock
  domains := h'.domains.trans h.domains
  alive := h'.alive.trans h.alive
  epoch := h'.epoch.trans h.epoch
  running := h'.running.trans h.running

theorem sceneIn_congr (hd : s'.domains = s.domains) (ha : s'.alive = s.alive) :
    s'.sceneIn = s.sceneIn := by
  funext w v
  rw [sceneIn, sceneIn, countIn, countIn, hd, ha]

theorem Houses.congr {w : View} (h : s.Houses w) (hd : s'.domains = s.domains)
    (ha : s'.alive = s.alive) : s'.Houses w := by
  obtain ⟨⟨n, hn, hlt, hle⟩, hplaced⟩ := h
  refine ⟨⟨n, by rw [ha, hn], hlt, by rwa [hd]⟩, ?_⟩
  rw [countIn, ha, hd]
  exact hplaced

theorem Frame.saved (h : Frame s s') : s'.saved = s.saved := by
  rw [Store.saved, Store.saved, h.past, sceneIn_congr h.domains h.alive]

end

/-! ## What any operation on variables leaves alone -/

/-- `s'` comes from `s` without opening or closing a level: no variable has died, domains have only
shrunk, and the only integer cell that may have changed is the count of the variables. -/
structure Evolves (s s' : Store) : Prop where
  valid : s'.Valid
  past : s'.trail.past = s.trail.past
  clock : s'.trail.clock = s.trail.clock
  saved : s'.saved = s.saved
  alive : s'.alive = s.alive
  ints : ∀ i, i ≠ s.alive.index → s'.trail.view.int i = s.trail.view.int i
  rooted : Rooted s s'
  scene : ∀ v D, s.scene v = some D → ∃ D', s'.scene v = some D' ∧ D'.Within D

section
variable {s s' s'' : Store} {v : Var} {D D' : Dom}

theorem Valid.evolves_self (hs : s.Valid) : Evolves s s :=
  ⟨hs, rfl, rfl, rfl, rfl, fun _ _ => rfl, rooted_self s, fun _ D h => ⟨D, h, .refl D⟩⟩

theorem Evolves.live (h : Evolves s s') (hv : s.scene v ≠ none) : s'.scene v ≠ none := by
  obtain ⟨D, hD⟩ := Option.ne_none_iff_exists'.1 hv
  obtain ⟨D', hD', -⟩ := h.scene v D hD
  rw [hD']
  nofun

theorem Evolves.trans (h : Evolves s s') (h' : Evolves s' s'') : Evolves s s'' where
  valid := h'.valid
  past := h'.past.trans h.past
  clock := h'.clock.trans h.clock
  saved := h'.saved.trans h.saved
  alive := h'.alive.trans h.alive
  ints i hi := (h'.ints i (h.alive ▸ hi)).trans (h.ints i hi)
  rooted := h.rooted.trans h'.rooted fun _ => h.live
  scene v D hD := by
    obtain ⟨D', hD', hle⟩ := h.scene v D hD
    obtain ⟨D'', hD'', hle'⟩ := h'.scene v D' hD'
    exact ⟨D'', hD'', hle'.trans hle⟩

/-- A change of one domain to one within it is a step of the store. -/
theorem Frame.evolves (h : Frame s s') (hs' : s'.Valid) (hv : s.scene v = some D)
    (hle : D'.Within D) (hscene : s'.scene = Function.update s.scene v (some D')) :
    Evolves s s' where
  valid := hs'
  past := h.past
  clock := h.clock
  saved := h.saved
  alive := h.alive
  ints i _ := congrFun h.ints i
  rooted := h.rooted
  scene u E hu := by
    rw [hscene]
    by_cases huv : u = v
    · subst huv
      rw [hv] at hu
      cases hu
      exact ⟨D', Function.update_self .., hle⟩
    · exact ⟨E, (Function.update_of_ne huv ..).trans hu, .refl E⟩

end

/-! ## Narrowed stores -/

/-- The store after the cause `c` has narrowed the domain of `v` from `D` to `D'`. -/
structure Narrowed (s : Store) (v : Var) (c : Cause) (D D' : Dom) (s' : Store) : Prop where
  valid : s'.Valid
  before : s.scene v = some D
  within : D'.Within D
  scene : s'.scene = Function.update s.scene v (some D')
  frame : Frame s s'
  told : ∃ xs, s'.logOf v = s.logOf v ++ xs ∧ (∀ x ∈ xs, x.cause = c) ∧ D.Logged xs D' ∧
    D.Told D' v c xs s.sink s'.sink
  log_ne : ∀ u, u ≠ v → s'.logOf u = s.logOf u

section
variable {s s' s'' : Store} {v : Var} {c : Cause} {D D' D'' : Dom}

theorem Narrowed.after (h : Narrowed s v c D D' s') : s'.scene v = some D' := by
  rw [h.scene, Function.update_self]

theorem Narrowed.evolves (h : Narrowed s v c D D' s') : Evolves s s' :=
  h.frame.evolves h.valid h.before h.within h.scene

/-- The log gains an entry for each element that has been decided. -/
theorem Narrowed.log (h : Narrowed s v c D D' s') :
    ∃ xs, s'.logOf v = s.logOf v ++ xs ∧ (∀ x ∈ xs, x.cause = c) ∧ D.Logged xs D' := by
  obtain ⟨xs, hxs, hc, hlogged, -⟩ := h.told
  exact ⟨xs, hxs, hc, hlogged⟩

/-- The log gains the entries of the passage (`Dom.Logs`), and no others. -/
theorem Narrowed.logs (h : Narrowed s v c D D' s') :
    ∃ es, s'.logOf v = s.logOf v ++ es ∧ ∀ x, x ∈ es ↔ D.Logs D' c x := by
  obtain ⟨es, hes, hc, hlogged⟩ := h.log
  exact ⟨es, hes, fun x => hlogged.mem_iff h.within hc x⟩

/-- The sink gains the events of the passage (`Dom.Emits`), and no others. -/
theorem Narrowed.sink (h : Narrowed s v c D D' s') (w : Var) (e : Event) (d : Cause) :
    s'.sink.Has w e d ↔ s.sink.Has w e d ∨ (w = v ∧ d = c ∧ D.Emits D' e) := by
  obtain ⟨xs, -, hc, hlogged, htold⟩ := h.told
  exact htold.has (hlogged.mem_iff h.within hc)

theorem Valid.narrowed_self (hs : s.Valid) (hv : s.scene v = some D) (c : Cause) :
    Narrowed s v c D D s where
  valid := hs
  before := hv
  within := .refl D
  scene := by rw [← hv, Function.update_eq_self]
  frame := .refl s
  told := ⟨[], (List.append_nil _).symm, by simp, D.logged_self, D.told_self v c s.sink⟩
  log_ne _ _ := rfl

/-- Two narrowings of a set or a graph, one after the other, compose. -/
theorem Narrowed.trans (hD : ∀ vs, D ≠ .int vs) (h : Narrowed s v c D D' s')
    (h' : Narrowed s' v c D' D'' s'') : Narrowed s v c D D'' s'' where
  valid := h'.valid
  before := h.before
  within := h'.within.trans h.within
  scene := by rw [h'.scene, h.scene, Function.update_idem]
  frame := h.frame.trans h'.frame
  told := by
    obtain ⟨xs, hxs, hc, hlogged, htold⟩ := h.told
    obtain ⟨ys, hys, hc', hlogged', htold'⟩ := h'.told
    rw [Dom.told_iff hD] at htold
    rw [Dom.told_iff (h.within.ne_int hD)] at htold'
    refine ⟨xs ++ ys, by rw [hys, hxs, List.append_assoc], fun x hx => ?_,
      hlogged.append h.within hlogged', ?_⟩
    · exact (List.mem_append.1 hx).elim (hc x) (hc' x)
    · rw [Dom.told_iff hD, Sink.tell_append, ← htold, htold']
  log_ne u hu := (h'.log_ne u hu).trans (h.log_ne u hu)

end

/-! ## How a narrowing may end -/

/-- The narrowing `n` succeeds: it leaves `Dom.after n`, answers whether that is a change, and
leaves the store as it was if not. -/
def Succeeds (s : Store) (v : Var) (n : Narrowing) (c : Cause) (changed : Bool)
    (s' : Store) : Prop :=
  ∃ D D', D.Accepts n ∧ D.after n = some D' ∧ changed = decide (D' ≠ D) ∧
    Narrowed s v c D D' s' ∧ (changed = false → s' = s)

/-- A contradiction leaves the store as it was, and `Dom.after n` is `none`. A fault is an overflow,
of an integer narrowing that `Overreaches`, or a violation by a narrowing that the domain does not
accept. -/
def Fails (s : Store) (v : Var) (n : Narrowing) (c : Cause) : Failure → Store → Prop
  | .contradiction x, s' => s' = s ∧ x = ⟨some v, c, n.refusal⟩ ∧
    ∃ D, s.scene v = some D ∧ D.Accepts n ∧ D.after n = none
  | .fault f, s' => (f = .overflow ∧ n.kind = .int ∧ s.Overreaches v n ∧ Evolves s s') ∨
    ∃ k, f = .violation k ∧ s' = s ∧ ∀ D, s.scene v = some D → ¬D.Accepts n

section
variable {s s' : Store} {v : Var} {c : Cause} {n : Narrowing} {D D' : Dom}

theorem Valid.succeeds_self (hs : s.Valid) (hv : s.scene v = some D) (ha : D.Accepts n)
    (hn : D.Obeys n) : Succeeds s v n c false s :=
  ⟨D, D, ha, hn, by simp, hs.narrowed_self hv c, fun _ => rfl⟩

theorem Narrowed.succeeds (h : Narrowed s v c D D' s') (ha : D.Accepts n)
    (hn : D.after n = some D') (hne : D' ≠ D) : Succeeds s v n c true s' :=
  ⟨D, D', ha, hn, by simp [hne], h, by simp⟩

theorem fails_overflow (hn : n.kind = .int) (hover : s.Overreaches v n) (h : Evolves s s') :
    Fails s v n c (.fault .overflow) s' := .inl ⟨rfl, hn, hover, h⟩

theorem fails_violation {k : Violation} (h : ∀ D, s.scene v = some D → ¬D.Accepts n) :
    Fails s v n c (.fault (.violation k)) s := .inr ⟨k, rfl, rfl, h⟩

theorem fails_contradiction (hv : s.scene v = some D) (ha : D.Accepts n)
    (hn : D.after n = none) : Fails s v n c (.contradiction ⟨some v, c, n.refusal⟩) s :=
  ⟨rfl, rfl, D, hv, ha, hn⟩

end

/-! ## Beside the trail -/

section
variable {s : Store} {v : Var} {D : Dom}

/-- Validity and scene do not depend on the sink and the running propagator. -/
theorem Valid.aside (hs : s.Valid) (k : Sink) (p : Option PropagatorId) :
    ({ s with sink := k, running := p } : Store).Valid where
  trail := hs.trail
  logs_size := hs.logs_size
  now := ⟨hs.now.count, hs.now.placed⟩
  past p hp := ⟨(hs.past p hp).count, (hs.past p hp).placed⟩
  counts := hs.counts
  nodup := hs.nodup
  apart := hs.apart
  logs := hs.logs

theorem logOf_push (hv : v.id < s.logs.size) (x : DeltaEntry) (k : Sink) :
    ({ s with logs := s.logs.modify v.id (·.push x), sink := k } : Store).logOf v =
      s.logOf v ++ [x] := by
  simp only [logOf, Array.getElem?_modify, if_pos, Array.getElem?_eq_getElem hv, Option.map_some,
    Option.getD_some, DeltaLog.toList_push]

theorem logOf_push_of_ne {u : Var} (hu : u ≠ v) (x : DeltaEntry) (k : Sink) :
    ({ s with logs := s.logs.modify v.id (·.push x), sink := k } : Store).logOf u =
      s.logOf u := by
  have hne : v.id ≠ u.id := fun h => hu (by cases u; cases v; cases h; rfl)
  simp only [logOf, Array.getElem?_modify, if_neg hne]

/-- An entry that `Holds` may be appended to the log of a live variable. -/
theorem Valid.push_log (hs : s.Valid) (hv : s.scene v = some D) {x : DeltaEntry}
    (hx : x.Holds D) (k : Sink) :
    ({ s with logs := s.logs.modify v.id (·.push x), sink := k } : Store).Valid where
  trail := hs.trail
  logs_size := by rw [← hs.logs_size]; exact Array.size_modify
  now := ⟨hs.now.count, hs.now.placed⟩
  past p hp := ⟨(hs.past p hp).count, (hs.past p hp).placed⟩
  counts := hs.counts
  nodup := hs.nodup
  apart := hs.apart
  logs u E hu y hy := by
    change s.scene u = some E at hu
    by_cases huv : u = v
    · subst huv
      rw [hv] at hu
      cases hu
      have hlt : u.id < s.logs.size := by
        have hcount := (scene_eq_some.1 hv).1
        have hle := hs.now.countIn_eq.2.2
        have hsize := hs.logs_size
        omega
      rw [logOf_push hlt, List.mem_append, List.mem_singleton] at hy
      rcases hy with hy | rfl
      · exact hs.logs u D hv y hy
      · exact hx
    · rw [logOf_push_of_ne huv] at hy
      exact hs.logs u E hu y hy

end

end Store

end Propagation
