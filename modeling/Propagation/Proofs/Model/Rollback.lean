import Propagation.Constraint.NotEqual
import Propagation.Proofs.Marks
import Propagation.Proofs.Model.Orderly
import Propagation.Proofs.Model.Session
import Propagation.Proofs.Store.Snapshot

/-!
# Rolling back a model

A model with a level still open that was opened at `m₀` remembers `m₀`, whatever has been called
since (`Model.Remembers`): the trail has its cells, and the tables beside the trail still begin with
the rows of `m₀`. So closing the level restores everything observable of the engine, and schedules
either all active propagators or none (`Model.Restored`, `Model.rollback_restores`).
-/

set_option autoImplicit false

namespace Propagation

open Update
open Trail (StaysAbove)

variable {ν π : Type}

theorem DeltaLog.eq_empty {l : DeltaLog} (h : l.toList = []) : l = .empty :=
  congrArg DeltaLog.mk (Array.toList_inj.1 h)

namespace Model

variable {m₀ m m' u : Model ν π}

/-! ## What is restored -/

/-- `u` is observably equal to `m₀`, apart from what is scheduled: if `m₀` had pending work every
active propagator is queued with a coarse entry, and otherwise none is. -/
structure Restored (m₀ u : Model ν π) : Prop where
  depth : u.depth = m₀.depth
  varCount : u.store.varCount = m₀.store.varCount
  propagatorCount : u.propagatorCount = m₀.propagatorCount
  /-- The live variables have their kinds and domains. -/
  scene : u.store.scene = m₀.store.scene
  snapshot : ∀ v, u.store.snapshot v = m₀.store.snapshot v
  isActive : ∀ p, u.isActive p = m₀.isActive p
  /-- The subscriptions to a variable are the same, in the same order. -/
  row : ∀ v, u.row v = m₀.row v
  /-- Indices from `varCount` on have no subscriptions. -/
  vacant : ∀ v, u.store.varCount ≤ v.id → u.row v = []
  /-- No subscription is of a propagator from `propagatorCount` on. -/
  watchers : ∀ v, ∀ s ∈ u.row v, s.propagator.id < u.propagatorCount
  sink : u.store.sink = .empty
  logs : ∀ v log, u.store.delta v = .ok log → log = .empty
  entries : u.entries.size = u.propagatorCount
  pending : ∀ (p : PropagatorId) (e : Entry π), u.entries[p.id]? = some e → e.pending = []
  coarse : ∀ (p : PropagatorId) (e : Entry π), u.entries[p.id]? = some e →
    e.coarse = u.queue.contains p
  queue : u.queue.Valid
  queued : ∀ p, u.queue.contains p = true ↔
    (m₀.queue.isEmpty = false ∨ m₀.store.sink.isEmpty = false) ∧ u.isActive p = .ok true
  empty : m₀.queue.isEmpty = true → m₀.store.sink.isEmpty = true → u.queue.isEmpty = true

/-! ## What is remembered -/

/-- The level opened at `m₀` is open in `m`: the trail and the tables beside it still have the part
that belongs to `m₀`. -/
structure Remembers (m₀ m : Model ν π) : Prop where
  valid : m.Valid
  past : ∃ newer c, m.store.trail.past =
    newer ++ (c, m₀.store.trail.view) :: m₀.store.trail.past
  vars : m.store.alive = m₀.store.alive
  alive : m.alive = m₀.alive
  scene : m.store.sceneIn m₀.store.trail.view = m₀.store.scene
  seat : ∀ p < m₀.count, m.seat p = m₀.seat p
  row : ∀ v, m₀.store.scene v ≠ none →
    (m.row v).filter (·.propagator.id < m₀.count) = (m₀.row v).filter (·.propagator.id < m₀.count)
  unsettled : m.unsettled.take (m₀.depth + 1) = m₀.unsettled.push m₀.hasPendingWork

theorem Valid.remembers_save (hm : m₀.Valid) : Remembers m₀ m₀.save where
  valid := hm.save
  past := ⟨[], m₀.store.trail.clock + 1, Trail.past_save hm.store.trail.sound⟩
  vars := rfl
  alive := rfl
  scene := rfl
  seat _ _ := rfl
  row _ _ := rfl
  unsettled := by
    show (m₀.unsettled.push m₀.hasPendingWork).take (m₀.depth + 1) = _
    rw [← hm.unsettled, Array.take_eq_extract]
    simp

theorem Remembers.countIn (h : Remembers m₀ m) : m.countIn m₀.store.trail.view = m₀.count := by
  rw [count, Model.countIn, Model.countIn, h.alive]

theorem Remembers.storeCountIn (h : Remembers m₀ m) (w : View) :
    m.store.countIn w = m₀.store.countIn w := by
  rw [Store.countIn, Store.countIn, h.vars]

theorem Remembers.mem_past (h : Remembers m₀ m) :
    ∃ c, (c, m₀.store.trail.view) ∈ m.store.trail.past := by
  obtain ⟨newer, c, hpast⟩ := h.past
  exact ⟨c, hpast ▸ List.mem_append_right _ List.mem_cons_self⟩

/-- A variable that is alive in `m₀` is alive in `m`. -/
theorem Remembers.live (h : Remembers m₀ m) (hm₀ : m₀.Valid) {v : Var}
    (hv : m₀.store.scene v ≠ none) : m.store.scene v ≠ none := by
  obtain ⟨c, hmem⟩ := h.mem_past
  have hle := (List.pairwise_cons.1 h.valid.store.counts).1 _ (List.mem_map_of_mem hmem)
  have hlt := (hm₀.store.ne_none_iff v).1 hv
  rw [← h.storeCountIn] at hlt
  exact (h.valid.store.ne_none_iff v).2 (hlt.trans_le hle)

theorem Remembers.count_le (h : Remembers m₀ m) : m₀.count ≤ m.count := by
  obtain ⟨c, hmem⟩ := h.mem_past
  exact h.countIn ▸ h.valid.countIn_past hmem

/-- Of two splits of one past, the one with the shorter rest is a suffix of the other. -/
theorem suffix_past {newer newer' older older' : List (Nat × View)} {x y : Nat × View}
    (h : newer' ++ y :: older' = newer ++ x :: older) (hlen : older.length < older'.length) :
    ∃ l, older' = l ++ x :: older := by
  rcases List.append_eq_append_iff.1 h with ⟨l, rfl, hl⟩ | ⟨l, rfl, hl⟩
  · rcases List.cons_eq_append_iff.1 hl with ⟨rfl, hx⟩ | ⟨l', rfl, hx⟩
    · cases hx
      exact absurd hlen (Nat.lt_irrefl _)
    · exact ⟨l', hx⟩
  · rcases List.cons_eq_append_iff.1 hl with ⟨rfl, hx⟩ | ⟨l', rfl, rfl⟩
    · cases hx
      exact absurd hlen (Nat.lt_irrefl _)
    · simp at hlen
      omega

/-- `Remembers` is kept by a call that leaves the level open. -/
theorem Remembers.moves (h : Remembers m₀ m) (hm₀ : m₀.Valid) (hmove : m.Moves m')
    (hd : m₀.depth < m'.depth) : Remembers m₀ m' := by
  obtain ⟨newer, c, hpast⟩ := h.past
  cases hmove with
  | evolved hev =>
    refine
      { valid := hev.valid
        past := ⟨newer, c, hev.past.trans hpast⟩
        vars := hev.vars.trans h.vars
        alive := hev.alive.trans h.alive
        scene := ?_
        seat := fun p hp => (hev.seat p (hp.trans_le h.count_le)).trans (h.seat p hp)
        row := fun v hv => ?_
        unsettled := by rw [hev.unsettled, h.unsettled] }
    · -- the scenes of all levels are what they were
      have hsaved := hev.saved
      rw [Store.saved, Store.saved, hev.past, List.map_inj_left] at hsaved
      obtain ⟨c, hmem⟩ := h.mem_past
      exact (congrArg Prod.snd (hsaved _ hmem)).trans h.scene
    · have hrow := congrArg (List.filter (·.propagator.id < m₀.count)) (hev.row v (h.live hm₀ hv))
      rw [filter_live h.count_le, filter_live h.count_le] at hrow
      exact hrow.trans (h.row v hv)
  | opened hopen =>
    subst hopen
    refine
      { h with
        valid := h.valid.save
        past := ⟨(m.store.trail.clock + 1, m.store.trail.view) :: newer, c, ?_⟩
        unsettled := ?_ }
    · exact (Trail.past_save h.valid.store.trail.sound).trans (congrArg _ hpast)
    · have hsize : m₀.depth + 1 ≤ m.unsettled.size := by
        rw [h.valid.size_unsettled, hpast, depth, Store.depth, ← Trail.length_past]
        simp
      show (m.unsettled.push m.hasPendingWork).take (m₀.depth + 1) = _
      rw [← h.unsettled, Array.take_eq_extract, Array.take_eq_extract, Array.extract_push_of_le hsize]
  | closed newer' c' w older hpast' hrev =>
    have hlen : m₀.store.trail.past.length < older.length := by
      rw [← hrev.store.past, Trail.length_past, Trail.length_past]
      exact hd
    obtain ⟨l, hl⟩ := suffix_past (hpast'.symm.trans hpast) hlen
    have hmem : (c, m₀.store.trail.view) ∈ older := hl ▸ List.mem_append_right _ List.mem_cons_self
    have hcount : m₀.count ≤ m.countIn w := by
      rw [← h.countIn]
      exact le_of_past (f := m.countIn) (hpast' ▸ h.valid.counts) hmem
    have hvars : m₀.store.countIn m₀.store.trail.view ≤ m.store.countIn w := by
      rw [← h.storeCountIn]
      exact le_of_past (f := m.store.countIn) (hpast' ▸ h.valid.store.counts) hmem
    refine
      { valid := hrev.valid
        past := ⟨l, c, hrev.store.past.trans hl⟩
        vars := hrev.store.alive.trans h.vars
        alive := hrev.alive.trans h.alive
        scene := (congrFun (Store.sceneIn_congr hrev.store.domains hrev.store.alive) _).trans h.scene
        seat := fun p hp => ?_
        row := fun v hv => ?_
        unsettled := ?_ }
    · have hle := (h.valid.houses_of_past hpast').countIn_eq.2.2
      exact (hrev.seat hle (hp.trans_le hcount)).trans (h.seat p hp)
    · have hlt := (hm₀.store.ne_none_iff v).1 hv
      rw [hrev.row, if_pos (hlt.trans_le hvars), filter_live hcount, h.row v hv]
    · rw [hrev.unsettled, ← h.unsettled]
      refine Array.ext_getElem? fun i => ?_
      rw [Trail.getElem?_take, Trail.getElem?_take, Trail.getElem?_take, depth, Store.depth,
        ← Trail.length_past]
      grind

/-! ## Closing the level -/

/-- The flag saved with the level is `m₀.hasPendingWork`. -/
theorem Remembers.workAt (h : Remembers m₀ m) (hm₀ : m₀.Valid) :
    m.workAt m₀.store.trail.past.length = m₀.hasPendingWork := by
  have hlast := congrArg (·[m₀.depth]?) h.unsettled
  simp only [Trail.getElem?_take, if_pos (Nat.lt_succ_self _)] at hlast
  rw [Model.workAt, Trail.length_past]
  show (m.unsettled[m₀.depth]?).getD false = _
  rw [hlast, ← hm₀.unsettled, Array.getElem?_push_size]
  rfl

section
variable (h : Remembers m₀ m) (hm₀ : m₀.Ready)
  (hu : m.Reverted m₀.store.trail.view m₀.store.trail.past u)

include h in
theorem Remembers.countIn_le : m.countIn m₀.store.trail.view ≤ m.entries.size := by
  obtain ⟨newer, c, hpast⟩ := h.past
  exact (h.valid.houses_of_past hpast).countIn_eq.2.2

include h hu in
theorem Reverted.count_eq : u.count = m₀.count := hu.count.trans h.countIn

include h hu in
theorem Reverted.scene_eq : u.store.scene = m₀.store.scene := hu.store.scene.trans h.scene

include h hm₀ hu in
theorem Reverted.varCount_eq : u.store.varCount = m₀.store.varCount := by
  rw [hu.valid.store.varCount_eq, hm₀.valid.store.varCount_eq, hu.store.view, Store.countIn,
    Store.countIn, hu.store.alive, h.vars]

include h hu in
/-- The flags of the propagators of `m₀` are the same cells with the same values. -/
theorem Reverted.active_iff {p : Nat} (hp : p < m₀.count) :
    (u.Active p ↔ m₀.Active p) ∧ (m.ActiveIn m₀.store.trail.view p ↔ m₀.Active p) := by
  have hseat : u.seat p = m₀.seat p :=
    (hu.seat h.countIn_le (h.countIn ▸ hp)).trans (h.seat p hp)
  rw [Active, Active, ActiveIn, ActiveIn, ActiveIn, hseat, h.seat p hp, hu.store.view]
  exact ⟨Iff.rfl, Iff.rfl⟩

include h hm₀ hu in
theorem Reverted.row_eq (v : Var) : u.row v = m₀.row v := by
  rw [hu.row, h.countIn, h.storeCountIn, ← hm₀.valid.store.varCount_eq]
  split
  · next hv =>
    rw [hm₀.valid.store.varCount_eq] at hv
    rw [h.row v ((hm₀.valid.store.ne_none_iff v).2 hv), hm₀.tidy.filter_row]
  · next hv => exact (hm₀.tidy.row_dead (Nat.le_of_not_lt hv)).symm

include h hm₀ hu in
theorem Reverted.queued_iff (p : PropagatorId) : u.queue.contains p = true ↔
    (m₀.queue.isEmpty = false ∨ m₀.store.sink.isEmpty = false) ∧ u.isActive p = .ok true := by
  have hsize : u.entries.size = u.count := hu.size.trans hu.count.symm
  rw [hu.queued, h.workAt hm₀.valid, hasPendingWork_iff, hu.valid.isActive_eq_true hsize, h.countIn,
    Reverted.count_eq h hu]
  refine and_congr_right fun _ => and_congr_right fun hp => ?_
  have hactive := Reverted.active_iff h hu hp
  exact hactive.2.trans hactive.1.symm

include h hu in
/-- After levels have been closed, the entries of the queued propagators are coarse, and no others.
-/
theorem Reverted.coarse_eq {p : PropagatorId} {e : Entry π} (he : u.entries[p.id]? = some e) :
    e.coarse = u.queue.contains p := by
  have hp : p.id < m.countIn m₀.store.trail.view := hu.size ▸ (Array.getElem?_eq_some_iff.1 he).1
  obtain ⟨hswept, hidle⟩ := hu.entry p.id hp _ (Array.getElem?_eq_getElem (hp.trans_le h.countIn_le))
  rw [Bool.eq_iff_iff, hu.queued, and_iff_right hp]
  by_cases hwork : m.workAt m₀.store.trail.past.length = true ∧ m.ActiveIn m₀.store.trail.view p.id
  · cases he.symm.trans (hswept hwork)
    exact iff_of_true rfl hwork
  · cases he.symm.trans (hidle hwork)
    exact iff_of_false nofun hwork

include h hm₀ hu in
/-- Closing the level opened at `m₀` leaves a model that is `Restored`. -/
theorem Remembers.restored (hq : m.queue.Valid) : Restored m₀ u := by
  have hsize : u.entries.size = u.count := hu.size.trans hu.count.symm
  have hcount := Reverted.count_eq h hu
  have hscene := Reverted.scene_eq h hu
  have hvars := Reverted.varCount_eq h hm₀ hu
  have hrow := Reverted.row_eq h hm₀ hu
  have hqueued := Reverted.queued_iff h hm₀ hu
  have hprops : u.propagatorCount = m₀.propagatorCount := by
    rw [hu.valid.propagatorCount_eq, hm₀.valid.propagatorCount_eq, hcount]
  exact
    { depth := by
        rw [depth, depth, Store.depth, Store.depth, ← Trail.length_past, ← Trail.length_past,
          hu.store.past]
      varCount := hvars
      propagatorCount := hprops
      scene := hscene
      snapshot := fun v =>
        Store.snapshot_congr hm₀.valid.store hu.valid.store (congrFun hscene v)
      isActive := isActive_congr hm₀.valid hu.valid hm₀.tidy.size hsize hcount
        fun p hp => (Reverted.active_iff h hu hp).1
      row := hrow
      vacant := fun v hv => (hrow v).trans (hm₀.tidy.row_dead (hvars ▸ hv))
      watchers := fun v s hs => by
        rw [hprops, hm₀.valid.propagatorCount_eq]
        exact hm₀.tidy.ids v s (hrow v ▸ hs)
      sink := hu.store.sink
      logs := fun v log hlog =>
        DeltaLog.eq_empty ((Store.logOf_of_delta hlog).symm.trans (hu.store.log v))
      entries := hsize.trans hu.valid.propagatorCount_eq.symm
      pending := fun p e he => hu.calm h.countIn_le p.id e he
      coarse := fun p e he => Reverted.coarse_eq h hu he
      queue := hu.queue hq
      queued := hqueued
      empty := fun hq hs => Queue.isEmpty_iff.2 fun p => by
        rw [← Bool.not_eq_true, hqueued, hq, hs]
        simp }

end

/-! ## The main theorem -/

/-- The run lemma of `Remembers.moves`: `Remembers` is kept by any calls that stay above the depth
of `m₀`. -/
theorem Remembers.run [Propagator ν π] (hm₀ : m₀.Valid) (since : List (Call π)) {s : Session ν π}
    (h : Remembers m₀ s.model)
    (habove : StaysAbove (fun s c => (Call.perform c).after s) (·.model.store.trail.depth) m₀.depth
      s since) :
    Remembers m₀ (s.after since).model := by
  induction since generalizing s with
  | nil => exact h
  | cons c since ih =>
    have hrest := (Trail.staysAbove_cons.1 habove).2
    have hd : m₀.depth < (c.perform.after s).model.depth := hrest [] List.nil_prefix
    exact ih (h.moves hm₀ (c.moves h.valid) hd) hrest

/-- Let `s₀` be reached without a fault, take a checkpoint, and make any calls `since`. As long as
the mark is live, `rollback` to it succeeds and leaves a model that is `Restored`, and so does
`restore` if the level is the innermost one. -/
theorem rollback_restores [Propagator ν π] {marks marks' : Array Mark}
    {before since : List (Call π)} {s₀ : Session ν π} {xs : List (Step ν π)}
    (hbefore : Session.run before ⟨.empty, marks⟩ = .ok xs s₀) {t : Session ν π}
    (hsince : t = Session.after ⟨s₀.model.checkpoint.2, marks'⟩ since)
    (hlive : t.model.store.trail.isLive s₀.model.checkpoint.1 = true) :
    (∃ u, rollback s₀.model.checkpoint.1 t.model = .ok () u ∧ Restored s₀.model u) ∧
      (t.model.depth = s₀.model.depth + 1 →
        ∃ u, restore t.model = .ok () u ∧ Restored s₀.model u) := by
  have hm₀ : s₀.model.Ready := Session.ready hbefore ready_empty
  have hholds := Trail.holds_checkpoint s₀.model.store.trail
  have hover := Leveled.model_over ν π marks
  let opened : Session ν π := ⟨s₀.model.checkpoint.2, marks'⟩
  have habove : StaysAbove (fun s c => (Call.perform c).after s) (·.model.store.trail.depth)
      s₀.model.depth opened since := by
    rw [hsince] at hlive
    exact (hholds.isLive_run hover.keep hover.ticks since (s := opened) hm₀.valid.save).1 hlive
  have h : Remembers s₀.model t.model :=
    hsince ▸ Remembers.run hm₀.valid since (s := opened) hm₀.valid.remembers_save habove
  have hq : t.model.queue.Valid :=
    hsince ▸ Session.orderly (s := opened) since hm₀.tidy.queue
  obtain ⟨newer, c, hpast⟩ := h.past
  -- the level that is closed is the one that was opened
  have hsame : ∀ {newer' older : List (Nat × View)} {x : Nat × View},
      t.model.store.trail.past = newer' ++ x :: older →
        older.length = s₀.model.store.trail.past.length →
          x = (c, s₀.model.store.trail.view) ∧ older = s₀.model.store.trail.past :=
    fun hpast' hlen => List.cons.inj
      (List.append_inj_right' (hpast'.symm.trans hpast) (congrArg (· + 1) hlen))
  have hlen : s₀.model.store.trail.past.length = s₀.model.depth := Trail.length_past _
  constructor
  · have hends := h.valid.rollback_ends s₀.model.checkpoint.1
    cases hroll : rollback s₀.model.checkpoint.1 t.model with
    | ok a u =>
      obtain ⟨newer', w, older, hpast', hdepth, hu⟩ := hends.of_ok hroll
      obtain ⟨hx, rfl⟩ := hsame hpast' (hdepth.trans hlen.symm)
      cases hx
      exact ⟨u, rfl, h.restored hm₀ hu hq⟩
    | error e u =>
      have hstale := (hends.of_error hroll).2.1
      rw [hlive] at hstale
      cases hstale
  · intro hd
    have hends := h.valid.restore_ends
    cases hrest : restore t.model with
    | ok a u =>
      obtain ⟨c', w, older, hpast', hu⟩ := hends.of_ok hrest
      have hdepth := congrArg List.length hpast'
      rw [Trail.length_past, List.length_cons] at hdepth
      have hone : older.length = s₀.model.store.trail.past.length := by
        rw [hlen]
        exact Nat.succ.inj (hdepth.symm.trans hd)
      obtain ⟨hx, rfl⟩ := hsame (hpast'.trans (List.nil_append _).symm) hone
      cases hx
      exact ⟨u, rfl, h.restored hm₀ hu hq⟩
    | error e u =>
      have hnil := (hends.of_error hrest).2.1
      rw [hpast] at hnil
      simp at hnil

/-- A level is opened while a propagator is scheduled, and indices of variables and propagators are
used again within it. -/
theorem rollback_restores_unsettled :
    ∃ (xs : List (Step Unit NotEqual)) (s₀ t : Session Unit NotEqual),
      Session.run [.create (.interval 0 2), .create (.interval 0 2), .post (.of ⟨0⟩ ⟨1⟩), .save,
        .narrow ⟨0⟩ (.fix 1) .decision] ⟨.empty, #[]⟩ = .ok xs s₀ ∧
      t = Session.after ⟨s₀.model.checkpoint.2, #[]⟩ [.fixpoint, .disable ⟨0⟩, .save,
        .create (.subsets 2), .create (.interval 0 1), .post (.of ⟨0⟩ ⟨3⟩),
        .narrow ⟨1⟩ (.remove 0) .decision, .fixpoint, .restore, .create (.interval 4 5),
        .post (.of ⟨1⟩ ⟨2⟩)] ∧
      t.model.store.trail.isLive s₀.model.checkpoint.1 = true ∧
      t.model.depth = s₀.model.depth + 1 ∧
      (∃ u, rollback s₀.model.checkpoint.1 t.model = .ok () u ∧ Restored s₀.model u) ∧
      ∃ u, restore t.model = .ok () u ∧ Restored s₀.model u := by
  obtain ⟨xs, s₀, hrun, htest⟩ := Session.exists_run
    [.create (.interval 0 2), .create (.interval 0 2), .post (NotEqual.of ⟨0⟩ ⟨1⟩), .save,
      .narrow ⟨0⟩ (.fix 1) .decision] (⟨.empty, #[]⟩ : Session Unit NotEqual)
    (fun s₀ =>
      let t := Session.after ⟨s₀.model.checkpoint.2, #[]⟩ [.fixpoint, .disable ⟨0⟩, .save,
        .create (.subsets 2), .create (.interval 0 1), .post (.of ⟨0⟩ ⟨3⟩),
        .narrow ⟨1⟩ (.remove 0) .decision, .fixpoint, .restore, .create (.interval 4 5),
        .post (.of ⟨1⟩ ⟨2⟩)]
      t.model.store.trail.isLive s₀.model.checkpoint.1 && t.model.depth == s₀.model.depth + 1)
    (by decide +kernel)
  obtain ⟨hlive, hd⟩ := Bool.and_eq_true_iff.1 htest
  have hback := rollback_restores hrun rfl hlive
  exact ⟨xs, s₀, _, hrun, rfl, hlive, beq_iff_eq.1 hd, hback.1, hback.2 (beq_iff_eq.1 hd)⟩

end Model

end Propagation
