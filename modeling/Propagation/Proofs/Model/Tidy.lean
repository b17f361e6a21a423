import Propagation.Proofs.Model.Level
import Propagation.Proofs.Model.Post

/-!
# Tidy models

As long as nothing has faulted, the tables beside the trail agree with it (`Model.Tidy`): every
entry and every subscription belongs to a live propagator, an entry that is coarse or has pending
events is in the queue, and no local index is used twice. Every call that does not fault keeps a
model tidy.
-/

set_option autoImplicit false

namespace Propagation

open Update

namespace Model

variable {ν π : Type}

/-- The tables beside the trail agree with it. The engine keeps this invariant with every step,
unless it faults. -/
structure Tidy (m : Model ν π) : Prop where
  size : m.entries.size = m.count
  rows : m.subscriptions.size ≤ m.store.varCount
  ids : ∀ v, ∀ s ∈ m.row v, s.propagator.id < m.count
  once : ∀ v v', ∀ s ∈ m.row v, ∀ s' ∈ m.row v', s.propagator = s'.propagator →
    s.localIndex = s'.localIndex → v = v' ∧ s = s'
  queue : m.queue.Valid
  queued : ∀ p, m.queue.contains p = true → p.id < m.count
  busy : ∀ (p : Nat) (e : Entry π), m.entries[p]? = some e → e.coarse = true ∨ e.pending ≠ [] →
    m.queue.contains ⟨p⟩ = true
  masks : ∀ (p : Nat) (e : Entry π), m.entries[p]? = some e → ∀ x ∈ e.pending, x.2.isEmpty = false

variable {m m' : Model ν π}

/-- The head of the queue has an entry. -/
theorem Tidy.lt_of_pop (ht : m.Tidy) {p : PropagatorId} {q : Queue}
    (h : m.queue.pop = some (p, q)) : p.id < m.entries.size :=
  ht.size ▸ ht.queued p (((ht.queue.pop_some h).2.2 p).2 (.inl rfl))

theorem tidy_empty : (empty : Model ν π).Tidy := by
  have hnone : ∀ (v : Var) (s : Subscription), s ∉ (empty : Model ν π).row v := fun _ _ h => nomatch h
  have hcount := (valid_empty : (empty : Model ν π).Valid).count_le
  exact
    { size := (Nat.le_zero.1 hcount).symm
      rows := Nat.zero_le _
      ids := fun v s hs => absurd hs (hnone v s)
      once := fun v _ s hs => absurd hs (hnone v s)
      queue := Queue.valid_empty
      queued := fun p hp => by
        have : (empty : Model ν π).queue.contains p = false := Queue.contains_empty p
        rw [this] at hp
        cases hp
      busy := nofun
      masks := nofun }

/-- Dead variables have no subscriptions. -/
theorem Tidy.row_dead (ht : m.Tidy) {v : Var} (hv : m.store.varCount ≤ v.id) : m.row v = [] := by
  rw [row, rowOf, Array.getElem?_eq_none (ht.rows.trans hv)]
  rfl

theorem Tidy.filter_row (ht : m.Tidy) (v : Var) :
    (m.row v).filter (·.propagator.id < m.count) = m.row v :=
  List.filter_eq_self.2 fun s hs => decide_eq_true (ht.ids v s hs)

/-- A step that keeps the number of entries keeps the number of live propagators. -/
theorem Tidy.count_eq (hm : m.Tidy) (h : m.Evolves m') (hsize : m'.entries.size = m.entries.size) :
    m'.count = m.count :=
  Nat.le_antisymm (h.valid.count_le.trans_eq (hsize.trans hm.size)) h.count

theorem Evolves.varCount_le (hm : m.Valid) (h : m.Evolves m') :
    m.store.varCount ≤ m'.store.varCount := by
  rw [hm.store.varCount_eq, h.valid.store.varCount_eq]
  refine Nat.le_of_not_lt fun hlt => ?_
  -- the first variable that is dead afterwards was alive before
  let v : Var := ⟨m'.store.countIn m'.store.trail.view⟩
  obtain ⟨D, hD⟩ := Option.ne_none_iff_exists'.1 ((hm.store.ne_none_iff v).2 hlt)
  obtain ⟨D', hD', -⟩ := h.scene v D hD
  have hlive : m'.store.scene v ≠ none := by
    rw [hD']
    nofun
  exact Nat.lt_irrefl _ ((h.valid.store.ne_none_iff v).1 hlive)

/-- `Tidy` is kept by a step that changes neither the number of entries nor the subscriptions. -/
theorem Tidy.of_evolves (hm : m.Tidy) (hv : m.Valid) (h : m.Evolves m')
    (hsize : m'.entries.size = m.entries.size) (hrows : m'.subscriptions = m.subscriptions)
    (hqueue : m'.queue.Valid) (hqueued : ∀ p, m'.queue.contains p = true → p.id < m.count)
    (hbusy : ∀ (p : Nat) (e : Entry π), m'.entries[p]? = some e → e.coarse = true ∨ e.pending ≠ [] →
      m'.queue.contains ⟨p⟩ = true)
    (hmasks : ∀ (p : Nat) (e : Entry π), m'.entries[p]? = some e → ∀ x ∈ e.pending, x.2.isEmpty = false) :
    m'.Tidy := by
  have hcount := hm.count_eq h hsize
  have hrow : m'.row = m.row := by
    funext v
    rw [row, row, hrows]
  exact
    { size := hsize.trans (hm.size.trans hcount.symm)
      rows := by rw [hrows]; exact hm.rows.trans (h.varCount_le hv)
      ids := by rw [hrow, hcount]; exact hm.ids
      once := by rw [hrow]; exact hm.once
      queue := hqueue
      queued := by rw [hcount]; exact hqueued
      busy := hbusy
      masks := hmasks }

/-- `Tidy` is kept by steps of the store. -/
theorem Tidy.withStore (hm : m.Tidy) (hv : m.Valid) {s : Store} (h : m.store.Evolves s) :
    ({ m with store := s } : Model ν π).Tidy :=
  hm.of_evolves hv (.withStore hv h) rfl rfl hm.queue hm.queued hm.busy hm.masks

/-! ## Scheduling -/

/-- `schedule p` keeps `Tidy`: the coarse entry of `p` is in the queue. -/
theorem Tidy.scheduled (hm : m.Tidy) (hv : m.Valid) {p : PropagatorId} {e : Entry π}
    (he : m.entries[p.id]? = some e) : ((schedule p : Op ν π Unit).after m).Tidy := by
  have hlt : p.id < m.count := hm.size ▸ (Array.getElem?_eq_some_iff.1 he).1
  have hev := steps_of_keeps (core_schedule p : Keeps core (schedule p : Op ν π Unit)) m
    hv.evolves_self
  rw [after_of_ok (schedule_apply he)] at hev ⊢
  have hentry : ∀ q f, (m.entries.modify p.id Entry.swept)[q]? = some f →
      q = p.id ∧ f.pending = [] ∨ m.entries[q]? = some f := fun q f hf => by
    rw [Array.getElem?_modify] at hf
    split at hf
    · next hq =>
      subst hq
      rw [he] at hf
      cases hf
      exact .inl ⟨rfl, rfl⟩
    · exact .inr hf
  have hcontains : ∀ q : PropagatorId, (m.queue.enqueue p e.priority).contains q = true ↔
      q = p ∨ m.queue.contains q = true := fun q => Queue.contains_enqueue
  refine hm.of_evolves hv hev Array.size_modify rfl (hm.queue.enqueue _ _) (fun q hq => ?_)
    (fun q f hf hbusy => (hcontains ⟨q⟩).2 ?_) fun q f hf x hx => ?_
  · rcases (hcontains q).1 hq with rfl | hq
    · exact hlt
    · exact hm.queued q hq
  · rcases hentry q f hf with ⟨rfl, -⟩ | hf
    · exact .inl rfl
    · exact .inr (hm.busy q f hf hbusy)
  · rcases hentry q f hf with ⟨-, hnil⟩ | hf
    · rw [hnil] at hx
      cases hx
    · exact hm.masks q f hf x hx

/-! ## Posting -/

section
variable [Propagator ν π] {setup : Setup ν π}

theorem Posted.count_eq (h : Posted m setup m') : m'.count = m.count + 1 := by
  obtain ⟨t, hstore, -, hview⟩ := h.store
  rw [Model.count, countIn, h.evolves.alive, hstore, hview, View.setInt_self]
  rfl

theorem Posted.varCount_eq (h : Posted m setup m') (hv : m.Valid) :
    m'.store.varCount = m.store.varCount := by
  obtain ⟨t, hstore, hwide, -⟩ := h.store
  rw [h.evolves.valid.store.varCount_eq, hv.store.varCount_eq, Store.countIn, Store.countIn, hstore,
    hwide.count]

/-- After a post the entries are those of the live propagators before it, and `newEntry` at the
index `m.count`. -/
theorem Posted.getElem?_entries (h : Posted m setup m') (hv : m.Valid) (p : Nat) :
    m'.entries[p]? = if p = m.count then
      some (newEntry ν setup.propagator m.store.trail.cells.size)
      else if p < m.count then m.entries[p]? else none := by
  rw [h.entries, Store.getElem?_take_push hv.count_le]

theorem Posted.tidy (h : Posted m setup m') (hm : m.Tidy) (hv : m.Valid) : m'.Tidy := by
  have hcount := h.count_eq
  have hrow : ∀ v, ∀ s ∈ m'.row v, s ∈ m.row v ∨ s ∈ watching ⟨m.count⟩ v 0 setup.watches := by
    intro v s hs
    rw [h.row, List.mem_append] at hs
    refine hs.imp_left fun hs => ?_
    split at hs
    · exact hs
    · cases hs
  have hcontains : ∀ q, m'.queue.contains q = true ↔ q = ⟨m.count⟩ ∨ m.queue.contains q = true := by
    intro q
    rw [h.queue, Queue.contains_enqueue]
  have hentry : ∀ (p : Nat) (e : Entry π), m'.entries[p]? = some e →
      p = m.count ∧ e.pending = [] ∨ m.entries[p]? = some e := by
    intro p e he
    rw [h.getElem?_entries hv] at he
    split at he
    · next hp =>
      cases he
      exact .inl ⟨hp, rfl⟩
    · split at he
      · exact .inr he
      · cases he
  refine
    { size := ?_
      rows := (h.size.trans (h.varCount_eq hv).symm).le
      ids := fun v s hs => ?_
      once := fun v v' s hs s' hs' hp hi => ?_
      queue := h.queue ▸ hm.queue.enqueue _ _
      queued := fun q hq => ?_
      busy := fun p e he hb => (hcontains ⟨p⟩).2 ?_
      masks := fun p e he x hx => ?_ }
  · rw [h.entries, Array.size_push, Array.take_eq_extract, Array.size_extract, hcount]
    have := hv.count_le
    omega
  · rw [hcount]
    rcases hrow v s hs with hs | hs
    · exact (hm.ids v s hs).trans (Nat.lt_succ_self _)
    · rw [(mem_watching.1 hs).1]
      exact Nat.lt_succ_self _
  · -- the subscriptions of the new propagator are not mixed up with those of old ones
    rcases hrow v s hs with hs | hs <;> rcases hrow v' s' hs' with hs' | hs'
    · exact hm.once v v' s hs s' hs' hp hi
    · have hlt := hm.ids v s hs
      rw [hp, (mem_watching.1 hs').1] at hlt
      exact absurd hlt (Nat.lt_irrefl _)
    · have hlt := hm.ids v' s' hs'
      rw [← hp, (mem_watching.1 hs).1] at hlt
      exact absurd hlt (Nat.lt_irrefl _)
    · obtain ⟨-, k, hk, hi₁⟩ := mem_watching.1 hs
      obtain ⟨-, k', hk', hi₂⟩ := mem_watching.1 hs'
      obtain rfl : k = k' := by omega
      rw [hk] at hk'
      cases s
      cases s'
      simp_all
  · rw [hcount]
    rcases (hcontains q).1 hq with rfl | hq
    · exact Nat.lt_succ_self _
    · exact (hm.queued q hq).trans (Nat.lt_succ_self _)
  · rcases hentry p e he with ⟨rfl, -⟩ | he
    · exact .inl rfl
    · exact .inr (hm.busy p e he hb)
  · rcases hentry p e he with ⟨-, hnil⟩ | he
    · rw [hnil] at hx
      cases hx
    · exact hm.masks p e he x hx

end

/-! ## Levels -/

theorem count_save (m : Model ν π) : m.save.count = m.count :=
  congrArg m.countIn (Trail.view_save m.store.trail)

theorem Tidy.save (hm : m.Tidy) : m.save.Tidy where
  size := hm.size.trans (count_save m).symm
  rows := hm.rows
  ids := by rw [count_save]; exact hm.ids
  once := hm.once
  queue := hm.queue
  queued := by rw [count_save]; exact hm.queued
  busy := hm.busy
  masks := hm.masks

theorem Reverted.tidy {c : Nat} {w : View} {newer older : List (Nat × View)}
    (h : m.Reverted w older m') (hm : m.Tidy) (hv : m.Valid)
    (hpast : m.store.trail.past = newer ++ (c, w) :: older) : m'.Tidy := by
  have hle : m.countIn w ≤ m.entries.size := (hv.houses_of_past hpast).countIn_eq.2.2
  have hrow : ∀ v, ∀ s ∈ m'.row v, s ∈ m.row v ∧ s.propagator.id < m.countIn w := by
    intro v s hs
    rw [h.row] at hs
    split at hs
    · simpa using hs
    · cases hs
  -- every entry that is left is that of a propagator that was alive, with nothing to do or all
  have hentry : ∀ (p : Nat) (e : Entry π), m'.entries[p]? = some e → e.pending = [] ∧
      (e.coarse = true → m'.queue.contains ⟨p⟩ = true) := by
    intro p e he
    have hp : p < m.countIn w := h.size ▸ (Array.getElem?_eq_some_iff.1 he).1
    obtain ⟨hswept, hidle⟩ := h.entry p hp _ (Array.getElem?_eq_getElem (hp.trans_le hle))
    by_cases hwork : m.workAt older.length = true ∧ m.ActiveIn w p
    · rw [hswept hwork] at he
      cases he
      exact ⟨rfl, fun _ => (h.queued ⟨p⟩).2 ⟨hwork.1, hp, hwork.2⟩⟩
    · rw [hidle hwork] at he
      cases he
      exact ⟨rfl, nofun⟩
  exact
    { size := h.size.trans h.count.symm
      rows := by
        rw [h.valid.store.varCount_eq, h.store.view, Store.countIn, h.store.alive, ← Store.countIn]
        exact h.rows
      ids := fun v s hs => h.count ▸ (hrow v s hs).2
      once := fun v v' s hs s' hs' => hm.once v v' s (hrow v s hs).1 s' (hrow v' s' hs').1
      queue := h.queue hm.queue
      queued := fun p hp => h.count ▸ ((h.queued p).1 hp).2.1
      busy := fun p e he hb => by
        obtain ⟨hnil, hcoarse⟩ := hentry p e he
        exact hcoarse (hb.resolve_right fun hne => hne hnil)
      masks := fun p e he x hx => by
        rw [(hentry p e he).1] at hx
        cases hx }

end Model

end Propagation
