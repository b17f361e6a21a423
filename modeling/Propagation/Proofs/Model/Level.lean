import Propagation.Proofs.Model.Step
import Propagation.Proofs.Queue

/-!
# Levels of a valid model

Opening a level keeps a model valid. Closing levels gives back the propagators that were alive when
the outermost of them was opened, with their subscriptions, and schedules either all that are active
or none (`Model.Reverted`). A mark is accepted iff the level that it names is open
(`Valid.rollback_ends`), and the `repair` after it never faults (`Valid.repair_ends`).
-/

set_option autoImplicit false

namespace Propagation

open Update

namespace Model

variable {ν π : Type} {m : Model ν π} {w : View} {older : List (Nat × View)}

/-! ## The beginning -/

theorem valid_empty : (empty : Model ν π).Valid := by
  have ht := Trail.valid_empty.addInt 0
  have hp : (Trail.empty.addInt 0).2.past = [] := ht.past
  obtain ⟨hstore, -⟩ := Store.valid_ofTrail ht.valid hp
  have ht' := ht.valid.addInt 0
  have hcell : ∀ p, (empty : Model ν π).seat p = none := fun _ => rfl
  have hpast : (empty : Model ν π).store.trail.past = [] := ht'.past.trans hp
  have hcount : (empty : Model ν π).store.trail.view.int 0 = some ((0 : Nat) : Int) := by
    show (((Trail.empty.addInt 0).2).addInt 0).2.view.int 0 = _
    rw [ht'.view, View.setInt_of_ne _ _ (by decide), ht.view]
    exact View.setInt_self _ _ _
  exact
    { store := hstore
      now := ⟨⟨0, hcount, by decide, Nat.le_refl _⟩, nofun, nofun⟩
      past := by rw [hpast]; nofun
      counts := by rw [hpast]; exact List.pairwise_singleton _ _
      apart := by
        intro r r' i hr hr'
        cases r <;> cases hr <;> cases r' <;> first | rfl | cases hr'
      unsettled := rfl }

/-! ## Opening -/

/-- `save` keeps a model valid. -/
theorem Valid.save (hm : m.Valid) : m.save.Valid := by
  have hpast : m.save.store.trail.past = (m.store.trail.clock + 1, m.store.trail.view) ::
      m.store.trail.past := Trail.past_save hm.store.trail.sound
  have hview : m.save.store.trail.view = m.store.trail.view := Trail.view_save _
  have hhouses : ∀ {w : View} {n : Nat}, m.Houses w n → m.save.Houses w n := fun h =>
    ⟨h.count, h.enabled, h.retired⟩
  have hnow : m.Houses m.store.trail.view m.count :=
    ⟨hm.now.count, fun p hp => hm.now.enabled p (hp.trans_le hm.count_le),
      fun p hp => hm.now.retired p (hp.trans_le hm.count_le)⟩
  exact
    { store := hm.store.save
      now := hview ▸ hhouses hm.now
      past := by
        rw [hpast]
        intro p hp
        rcases List.mem_cons.1 hp with rfl | hp
        · exact hhouses hnow
        · exact hhouses (hm.past p hp)
      counts := by
        rw [hpast, hview]
        refine List.pairwise_cons.2 ⟨fun w hw => ?_, hm.counts⟩
        rcases List.mem_cons.1 hw with rfl | hw
        · exact Nat.le_refl _
        · exact (List.pairwise_cons.1 hm.counts).1 w hw
      apart := fun r r' i hr hr' =>
        hm.apart r r' i (by cases r <;> exact hr) (by cases r' <;> exact hr')
      unsettled := by
        show (m.unsettled.push m.hasPendingWork).size = m.store.trail.save.depth
        rw [Array.size_push, hm.unsettled]
        rfl }

/-! ## Closing -/

/-- A quantity `f` that only grows from a level to those within it is at most `f w` in the levels
outside of `w`. -/
theorem le_of_past {f : View → Nat} {x : View} {w : View} {c : Nat}
    {newer older : List (Nat × View)}
    (h : (x :: (newer ++ (c, w) :: older).map (·.2)).Pairwise fun w w' => f w' ≤ f w)
    {y : Nat × View} (hy : y ∈ older) : f y.2 ≤ f w := by
  have hpast := (List.pairwise_cons.1 h).2
  rw [List.map_append, List.map_cons, List.pairwise_append, List.pairwise_cons] at hpast
  exact hpast.2.1.1 _ (List.mem_map_of_mem hy)

theorem hasPendingWork_iff : m.hasPendingWork = true ↔
    m.queue.isEmpty = false ∨ m.store.sink.isEmpty = false := by
  simp [hasPendingWork, Store.hasEvents]

/-- The flag saved with the level at the depth `d`: whether the model was unsettled when it was
opened. -/
def workAt (m : Model ν π) (d : Nat) : Bool := (m.unsettled[d]?).getD false

/-- `m'` is the model after levels of `m` have been closed, the outermost of which was opened at the
view `w`. -/
structure Reverted (m : Model ν π) (w : View) (older : List (Nat × View)) (m' : Model ν π) :
    Prop where
  valid : m'.Valid
  store : m.store.Reverted w older m'.store
  alive : m'.alive = m.alive
  count : m'.count = m.countIn w
  size : m'.entries.size = m.countIn w
  entry : ∀ p < m.countIn w, ∀ e, m.entries[p]? = some e →
    (m.workAt older.length = true ∧ m.ActiveIn w p → m'.entries[p]? = some e.swept) ∧
    (¬(m.workAt older.length = true ∧ m.ActiveIn w p) → m'.entries[p]? = some e.idle)
  rows : m'.subscriptions.size ≤ m.store.countIn w
  row : ∀ v, m'.row v = if v.id < m.store.countIn w then
    (m.row v).filter (·.propagator.id < m.countIn w) else []
  queue : m.queue.Valid → m'.queue.Valid
  queued : ∀ p, m'.queue.contains p = true ↔
    m.workAt older.length = true ∧ p.id < m.countIn w ∧ m.ActiveIn w p.id
  unsettled : m'.unsettled = m.unsettled.take older.length

/-- The model with the store `s`, after the entries and subscriptions that died with the levels have
been dropped and the queue cleared. -/
def dropped (m : Model ν π) (s : Store) (older : List (Nat × View)) : Model ν π :=
  dropDead { m with store := s, unsettled := m.unsettled.take older.length }

theorem Valid.houses_of_past (hm : m.Valid) {c : Nat} {newer : List (Nat × View)}
    (hpast : m.store.trail.past = newer ++ (c, w) :: older) : m.Houses w (m.countIn w) :=
  hm.past (c, w) (hpast ▸ List.mem_append_right _ List.mem_cons_self)

/-- Propagators that were alive at `w` keep their seats. -/
theorem Reverted.seat {m' : Model ν π} (h : m.Reverted w older m')
    (hle : m.countIn w ≤ m.entries.size) {p : Nat} (hp : p < m.countIn w) :
    m'.seat p = m.seat p := by
  have he := Array.getElem?_eq_getElem (hp.trans_le hle)
  obtain ⟨hswept, hidle⟩ := h.entry p hp _ he
  rw [Model.seat, Model.seat, he]
  by_cases hwork : m.workAt older.length = true ∧ m.ActiveIn w p
  · rw [hswept hwork]
    rfl
  · rw [hidle hwork]
    rfl

section
variable (hm : m.Valid) {c : Nat} {newer : List (Nat × View)}
  (hpast : m.store.trail.past = newer ++ (c, w) :: older) {s : Store}
  (hs : m.store.Reverted w older s)
include hm hpast hs

theorem Valid.propagatorCount_dropped (u : Array Bool) :
    ({ m with store := s, unsettled := u } : Model ν π).propagatorCount = m.countIn w := by
  obtain ⟨hn, hlt, -⟩ := (hm.houses_of_past hpast).countIn_eq
  have hnow : s.trail.view.int m.alive.index = some ((m.countIn w : Nat) : Int) := by
    rw [hs.view, hn]
  rw [propagatorCount, IntRef.getNat_eq (Trail.view_int.1 hnow).2 (by omega)]

theorem Valid.seat_dropped (p : Nat) :
    (m.dropped s older).seat p = if p < m.countIn w then m.seat p else none := by
  have hentries : (m.dropped s older).entries =
      (m.entries.take (m.countIn w)).map Entry.idle := by
    rw [dropped, dropDead, hm.propagatorCount_dropped hpast hs]
  rw [seat, hentries, Array.getElem?_map, Trail.getElem?_take, Option.map_map]
  split <;> rfl

theorem Valid.size_dropped : (m.dropped s older).entries.size = m.countIn w := by
  have hle : m.countIn w ≤ m.entries.size := (hm.houses_of_past hpast).countIn_eq.2.2
  rw [Model.dropped, dropDead, hm.propagatorCount_dropped hpast hs, Array.size_map,
    Array.take_eq_extract, Array.size_extract]
  exact Nat.min_eq_left hle

theorem Valid.dropped : (m.dropped s older).Valid := by
  have hhouse := hm.houses_of_past hpast
  obtain ⟨hn, hlt, hle⟩ := hhouse.countIn_eq
  have hseat := hm.seat_dropped hpast hs
  have hsize := hm.size_dropped hpast hs
  have hold : ∀ p r, (m.dropped s older).seat p = some r → p < m.countIn w ∧ m.seat p = some r := by
    intro p r h
    rw [hseat] at h
    split at h
    · next hp => exact ⟨hp, h⟩
    · cases h
  have hcell : ∀ r i, (m.dropped s older).cell r = some i → m.cell r = some i := by
    intro r i h
    cases r with
    | vars =>
      have halive : (m.dropped s older).store.alive = m.store.alive := hs.alive
      rwa [cell, halive] at h
    | props => exact h
    | enabled p | retired p =>
      obtain ⟨r, hr, hi⟩ := Option.map_eq_some_iff.1 h
      exact Option.map_eq_some_iff.2 ⟨r, (hold p r hr).2, hi⟩
  have hcounts : (w :: older.map (·.2)).Pairwise fun w w' => m.countIn w' ≤ m.countIn w := by
    have h := hm.counts
    rw [hpast, List.map_append, List.map_cons] at h
    exact (List.pairwise_append.1 (List.pairwise_cons.1 h).2).2.1
  exact
    { store := hs.valid
      now := by
        show (m.dropped s older).Houses s.trail.view _
        rw [hs.view, hsize]
        exact ⟨⟨_, hn, hlt, Nat.le_of_eq hsize.symm⟩,
          fun p hp r h => hhouse.enabled p hp r (hold p r h).2,
          fun p hp r h => hhouse.retired p hp r (hold p r h).2⟩
      past := by
        show ∀ q ∈ s.trail.past, (m.dropped s older).Houses q.2 (m.countIn q.2)
        rw [hs.past]
        intro q hq
        have h := hm.past q (hpast ▸ List.mem_append_right _ (List.mem_cons_of_mem _ hq))
        obtain ⟨hk, hklt, -⟩ := h.countIn_eq
        have hkle := (List.pairwise_cons.1 hcounts).1 q.2 (List.mem_map_of_mem hq)
        exact ⟨⟨_, hk, hklt, hsize ▸ hkle⟩, fun p hp r hr => h.enabled p hp r (hold p r hr).2,
          fun p hp r hr => h.retired p hp r (hold p r hr).2⟩
      counts := by
        show (s.trail.view :: s.trail.past.map (·.2)).Pairwise
          fun w w' => m.countIn w' ≤ m.countIn w
        rw [hs.view, hs.past]
        exact hcounts
      apart := fun r r' i hr hr' => hm.apart r r' i (hcell r i hr) (hcell r' i hr')
      unsettled := by
        have hdepth : (m.dropped s older).depth = older.length := by
          show s.trail.depth = _
          rw [← Trail.length_past, hs.past]
        have hsz : older.length ≤ m.unsettled.size := by
          rw [hm.unsettled]
          show _ ≤ m.store.trail.depth
          rw [← Trail.length_past, hpast, List.length_append, List.length_cons]
          omega
        rw [hdepth]
        show (m.unsettled.take older.length).size = _
        rw [Array.take_eq_extract, Array.size_extract]
        omega }

end

/-! ## Waking up -/

/-- The first `k` propagators have been scheduled, if active. -/
structure Woken (m : Model ν π) (k : Nat) (m' : Model ν π) : Prop where
  core : m'.core = m.core
  woken : ∀ i < k, m.Active i → m'.entries[i]? = (m.entries[i]?).map Entry.swept
  asleep : ∀ i, ¬(i < k ∧ m.Active i) → m'.entries[i]? = m.entries[i]?
  queue : m.queue.Valid → m'.queue.Valid
  queued : ∀ p, m'.queue.contains p = true ↔
    p.id < k ∧ m.Active p.id ∨ m.queue.contains p = true

theorem seat_of_core {m' : Model ν π} (h : m'.core = m.core) : m'.seat = m.seat := by
  have hseats : m'.entries.map Entry.seat = m.entries.map Entry.seat := congrArg (·.2.2.1) h
  funext p
  rw [seat, seat, ← Array.getElem?_map, ← Array.getElem?_map, hseats]

theorem active_of_core {m' : Model ν π} (h : m'.core = m.core) (p : Nat) :
    m'.Active p ↔ m.Active p := by
  have hstore : m'.store = m.store := congrArg (·.1) h
  rw [Active, Active, ActiveIn, ActiveIn, hstore, seat_of_core h]

theorem Woken.wake {k : Nat} {m' : Model ν π} (h : m.Woken k m') (hm : m.Valid)
    (hk : k < m.entries.size) :
    Ends (wake ⟨k⟩ : Op ν π Unit) m' (fun _ m'' => m.Woken (k + 1) m'') fun _ _ => False := by
  have hm' : m'.Valid := (Evolves.of_core hm h.core).valid
  have hentry : m'.entries[k]? = some m.entries[k] := by
    rw [h.asleep k (fun hlt => Nat.lt_irrefl k hlt.1), Array.getElem?_eq_getElem hk]
  obtain ⟨b, hb, hactive⟩ := hm'.activeEntry hentry
  rw [active_of_core h.core] at hactive
  unfold Model.wake
  refine Ends.of_eq (Ends.of_eq ?_ (bind_ok _ (query_ok hb)))
    (bind_ok _ (query_ok (Checked.fetch_eq_ok.2 hentry)))
  cases b with
  | false =>
    have hnot : ¬m.Active k := fun ha => nomatch hactive.2 ha
    have hiff : ∀ i, i < k + 1 ∧ m.Active i ↔ i < k ∧ m.Active i := fun i => by
      constructor
      · rintro ⟨hi, ha⟩
        refine ⟨Nat.lt_of_le_of_ne (Nat.le_of_lt_succ hi) ?_, ha⟩
        rintro rfl
        exact hnot ha
      · exact fun ⟨hi, ha⟩ => ⟨hi.trans k.lt_succ_self, ha⟩
    exact ends_of_ok rfl ⟨h.core, fun i hi ha => h.woken i ((hiff i).1 ⟨hi, ha⟩).1 ha,
      fun i hi => h.asleep i fun ha => hi ((hiff i).2 ha), h.queue,
      fun p => by rw [h.queued, hiff]⟩
  | true =>
    have ha := hactive.1 rfl
    have hcore : ((schedule ⟨k⟩ : Op ν π Unit).after m').core = m'.core := core_schedule _ _
    rw [after_of_ok (schedule_apply (p := ⟨k⟩) hentry)] at hcore
    have hsplit : ∀ i, i < k + 1 ∧ m.Active i ↔ i < k ∧ m.Active i ∨ i = k := fun i => by
      constructor
      · rintro ⟨hi, hai⟩
        rcases Nat.lt_succ_iff_lt_or_eq.1 hi with hi | hi
        · exact .inl ⟨hi, hai⟩
        · exact .inr hi
      · rintro (⟨hi, hai⟩ | rfl)
        · exact ⟨hi.trans k.lt_succ_self, hai⟩
        · exact ⟨i.lt_succ_self, ha⟩
    refine ends_of_ok (schedule_apply (p := ⟨k⟩) hentry) ⟨hcore.trans h.core, fun i hi hai => ?_,
      fun i hi => ?_, fun hq => (h.queue hq).enqueue _ _, fun p => ?_⟩
    · rw [Array.getElem?_modify]
      by_cases hik : k = i
      · subst hik
        rw [if_pos rfl, h.asleep k (fun hlt => Nat.lt_irrefl k hlt.1)]
      · rw [if_neg hik, h.woken i (by omega) hai]
    · rw [hsplit, not_or] at hi
      rw [Array.getElem?_modify, if_neg (Ne.symm hi.2), h.asleep i hi.1]
    · have hp : p = ⟨k⟩ ↔ p.id = k := ⟨fun h => h ▸ rfl, fun h => h ▸ rfl⟩
      rw [Queue.contains_enqueue, h.queued, hsplit, hp]
      tauto

theorem Woken.wakeFrom {k d : Nat} {m' : Model ν π} (h : m.Woken k m') (hm : m.Valid)
    (hd : k + d ≤ m.entries.size) :
    Ends ((List.range' k d).forM fun i => Model.wake ⟨i⟩ : Op ν π PUnit) m'
      (fun _ m'' => m.Woken (k + d) m'') fun _ _ => False := by
  induction d generalizing k m' with
  | zero => exact ends_of_ok rfl h
  | succ d ih =>
    rw [List.range'_succ]
    refine (h.wake hm (by omega)).bind fun _ m'' h'' => ?_
    rw [show k + (d + 1) = k + 1 + d by omega]
    exact ih h'' (by omega)

/-- `wake` on the first `n` propagators does not fault. -/
theorem Valid.wakeAll (hm : m.Valid) {n : Nat} (hn : n ≤ m.entries.size) :
    Ends ((List.range n).forM fun i => wake ⟨i⟩ : Op ν π PUnit) m (fun _ m' => m.Woken n m')
      fun _ _ => False := by
  have h₀ : m.Woken 0 m :=
    ⟨rfl, fun _ hi => absurd hi (Nat.not_lt_zero _), fun _ _ => rfl, id, fun p => by simp⟩
  rw [List.range_eq_range']
  exact (h₀.wakeFrom hm (by omega)).mono (fun _ _ h => by rwa [Nat.zero_add] at h) fun _ _ h => h

/-! ## Closing levels -/

section
variable (hm : m.Valid) {c : Nat} {newer : List (Nat × View)}
  (hpast : m.store.trail.past = newer ++ (c, w) :: older) {s : Store}
  (hs : m.store.Reverted w older s)
include hm hpast hs

theorem Valid.active_dropped (p : Nat) :
    (m.dropped s older).Active p ↔ p < m.countIn w ∧ m.ActiveIn w p := by
  rw [Active, ActiveIn, hm.seat_dropped hpast hs]
  have hview : (m.dropped s older).store.trail.view = w := hs.view
  rw [hview]
  split
  · next hp => exact ⟨fun h => ⟨hp, h⟩, fun h => h.2⟩
  · next hp =>
    constructor
    · rintro ⟨_, h, -⟩
      cases h
    · exact fun h => absurd h.1 hp

/-- A model that was `dropped`, and then woken if there was work left, is `Reverted`. -/
theorem Valid.reverted_of_woken {m' : Model ν π}
    (h : (m.dropped s older).Woken (if m.workAt older.length then m.countIn w else 0) m') :
    m.Reverted w older m' := by
  have hd := hm.dropped hpast hs
  have hev := Evolves.of_core hd h.core
  have hstore : m'.store = s := congrArg (·.1) h.core
  have halive : m'.alive = m.alive := congrArg (·.2.1) h.core
  have hrows : m'.subscriptions = (m.dropped s older).subscriptions := congrArg (·.2.2.2.1) h.core
  have hlevels : m'.unsettled = m.unsettled.take older.length := congrArg (·.2.2.2.2) h.core
  have hcount := hm.propagatorCount_dropped hpast hs (m.unsettled.take older.length)
  have hvars : s.varCount = m.store.countIn w := by
    rw [hs.valid.varCount_eq, hs.view, Store.countIn, hs.alive, ← Store.countIn]
  have hactive := hm.active_dropped hpast hs
  have hwoken : ∀ i, (i < if m.workAt older.length then m.countIn w else 0) ∧
      (m.dropped s older).Active i ↔
        m.workAt older.length = true ∧ i < m.countIn w ∧ m.ActiveIn w i := fun i => by
    rw [hactive]
    split <;> simp_all
  have hentry : ∀ p < m.countIn w,
      (m.dropped s older).entries[p]? = (m.entries[p]?).map Entry.idle := fun p hp => by
    rw [Model.dropped, dropDead, hcount, Array.getElem?_map, Trail.getElem?_take, if_pos hp]
  exact
    { valid := hev.valid
      store := hstore ▸ hs
      alive := halive
      count := by
        rw [Model.count, countIn, hstore, halive, hs.view]
        rfl
      size := by
        have hsize := congrArg Array.size (congrArg (·.2.2.1) h.core : _ = _)
        simp only [core, Array.size_map] at hsize
        rw [hsize, hm.size_dropped hpast hs]
      entry := fun p hp e he => by
        constructor
        · rintro ⟨hw, ha⟩
          obtain ⟨hlt, hact⟩ := (hwoken p).2 ⟨hw, hp, ha⟩
          rw [h.woken p hlt hact, hentry p hp, he]
          rfl
        · intro hnot
          rw [h.asleep p fun hlt => hnot ⟨((hwoken p).1 hlt).1, ((hwoken p).1 hlt).2.2⟩,
            hentry p hp, he]
          rfl
      rows := by
        rw [hrows, Model.dropped, dropDead, Array.size_map, Array.take_eq_extract,
          Array.size_extract, hvars]
        omega
      row := fun v => by
        rw [row, hrows, Model.dropped, dropDead, hcount, rowOf, Array.getElem?_map,
          Trail.getElem?_take, hvars]
        split
        · rw [row, rowOf]
          cases m.subscriptions[v.id]? <;> rfl
        · rfl
      queue := fun hq => h.queue hq.clear
      queued := fun p => by
        rw [h.queued, hwoken]
        have : (m.dropped s older).queue.contains p = false := Queue.contains_clear _ p
        simp [this]
      unsettled := hlevels }

/-- `repair`, after the levels of the store have been closed, does not fault and leaves a model that
is `Reverted`. -/
theorem Valid.repair_ends :
    Ends (repair (m.workAt older.length) : Op ν π Unit)
      { m with store := s, unsettled := m.unsettled.take older.length }
      (fun _ m' => m.Reverted w older m') fun _ _ => False := by
  have hd := hm.dropped hpast hs
  have hcount : (m.dropped s older).propagatorCount = m.countIn w := by
    rw [hd.propagatorCount_eq, Model.count, countIn]
    show ((s.trail.view.int m.alive.index).getD 0).toNat = _
    rw [hs.view, countIn]
  unfold repair
  refine Ends.of_eq (u := m.dropped s older) ?_ (bind_ok _ (modify_apply _ _))
  cases hwork : m.workAt older.length with
  | false =>
    refine ends_of_ok rfl (hm.reverted_of_woken hpast hs ?_)
    rw [hwork]
    exact ⟨rfl, fun _ hi => absurd hi (Nat.not_lt_zero _), fun _ _ => rfl, id,
      fun p => by simp⟩
  | true =>
    rw [if_pos rfl]
    refine Ends.of_eq ?_ (bind_ok _ (get_apply _))
    rw [hcount]
    have hsize := Nat.le_of_eq (hm.size_dropped hpast hs).symm
    refine (hd.wakeAll hsize).mono (fun _ m' h => ?_) fun _ _ h => h
    refine hm.reverted_of_woken hpast hs ?_
    rwa [hwork, if_pos rfl]

end

/-- There is one flag in `unsettled` for each open level. -/
theorem Valid.size_unsettled (hm : m.Valid) : m.unsettled.size = m.store.trail.past.length := by
  rw [hm.unsettled, Trail.length_past]
  rfl

/-- `restore` closes the innermost level, and is refused iff none is open. -/
theorem Valid.restore_ends (hm : m.Valid) :
    Ends (restore : Op ν π Unit) m
      (fun _ m' => ∃ c w older, m.store.trail.past = (c, w) :: older ∧ m.Reverted w older m')
      fun e m' => e = .violation .noOpenLevel ∧ m.store.trail.past = [] ∧ m' = m := by
  unfold restore
  have hstore : Ends (onStore Store.restore : Op ν π Unit) m
      (fun _ m₁ => ∃ c w older s, m.store.trail.past = (c, w) :: older ∧
        m.store.Reverted w older s ∧ m₁ = { m with store := s })
      fun e m' => e = .violation .noOpenLevel ∧ m.store.trail.past = [] ∧ m' = m :=
    Ends.within (hm.store.restore_ends.mono
      (fun _ s ⟨c, w, older, hpast, hs⟩ => ⟨c, w, older, s, hpast, hs, rfl⟩)
      fun _ _ ⟨he, hpast, hs⟩ => ⟨he, hpast, by rw [hs]⟩)
  refine hstore.bind ?_
  rintro - m₁ ⟨c, w, older, s, hpast, hs, rfl⟩
  have hsize : m.unsettled.size = older.length + 1 := by
    rw [hm.size_unsettled, hpast, List.length_cons]
  have hpop : m.unsettled.pop = m.unsettled.take older.length := by
    refine Array.ext_getElem? fun i => ?_
    rw [Array.getElem?_pop, Trail.getElem?_take, hsize, Nat.add_sub_cancel]
  have hback : m.unsettled.back?.getD false = m.workAt older.length := by
    rw [Array.back?, hsize, Nat.add_sub_cancel]
    rfl
  refine Ends.of_eq (Ends.of_eq ?_ (bind_ok _ (set_apply _ _))) (bind_ok _ (get_apply _))
  rw [hpop, hback]
  have hnone : m.store.trail.past = [] ++ (c, w) :: older := hpast
  exact (hm.repair_ends hnone hs).mono
    (fun _ _ h => ⟨c, w, older, hpast, h⟩) fun _ _ h => h.elim

/-- `rollback k` closes the levels down to that of the mark `k`, and is refused iff the mark is not
live. -/
theorem Valid.rollback_ends (hm : m.Valid) (k : Mark) :
    Ends (rollback k : Op ν π Unit) m
      (fun _ m' => ∃ newer w older, m.store.trail.past = newer ++ (k.clock, w) :: older ∧
        older.length = k.depth ∧ m.Reverted w older m')
      fun e m' => e = .violation (.staleMark k) ∧ m.store.trail.isLive k = false ∧ m' = m := by
  unfold rollback
  have hstore : Ends (onStore (Store.rollback k) : Op ν π Unit) m
      (fun _ m₁ => ∃ newer w older s, m.store.trail.past = newer ++ (k.clock, w) :: older ∧
        older.length = k.depth ∧ m.store.Reverted w older s ∧ m₁ = { m with store := s })
      fun e m' => e = .violation (.staleMark k) ∧ m.store.trail.isLive k = false ∧ m' = m :=
    Ends.within ((hm.store.rollback_ends k).mono
      (fun _ s ⟨newer, w, older, hpast, hlen, hs⟩ => ⟨newer, w, older, s, hpast, hlen, hs, rfl⟩)
      fun _ _ ⟨he, hlive, hs⟩ => ⟨he, hlive, by rw [hs]⟩)
  refine hstore.bind ?_
  rintro - m₁ ⟨newer, w, older, s, hpast, hlen, hs, rfl⟩
  refine Ends.of_eq (Ends.of_eq ?_ (bind_ok _ (set_apply _ _))) (bind_ok _ (get_apply _))
  rw [← hlen]
  refine ((hm.repair_ends hpast hs).mono (fun _ _ h => h) fun _ _ h => h.elim).bind ?_
  rintro - m' h
  have hsay := Evolves.say h.valid (.rolledBack older.length m'.entries.size)
  exact ends_of_ok ((bind_ok _ (get_apply _)).trans (say_apply _ _))
    ⟨newer, w, older, hpast, rfl, { h with valid := hsay.valid }⟩

end Model

end Propagation
