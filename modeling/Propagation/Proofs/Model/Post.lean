import Propagation.Proofs.Model.Step

/-!
# Posting

A successful post adds one entry, its two flags and a subscription for each watch of the setup, and
schedules the propagator (`Model.Posted`, `Valid.post_ends`). However it ends, a post
is a step of the model: what a failed one leaves behind belongs to no live propagator.
-/

set_option autoImplicit false

namespace Propagation

open Update

namespace Model

variable {ν π : Type} {m : Model ν π}

/-! ## Subscriptions -/

/-- The subscriptions to `v` among the `watches` of the propagator `p`, with local indices from `i`
on. -/
def watching (p : PropagatorId) (v : Var) (i : Nat) (watches : List (Var × Mask)) :
    List Subscription :=
  (watches.zipIdx i).filterMap fun x => if x.1.1 = v then some ⟨p, x.2, x.1.2⟩ else none

theorem watching_cons (p : PropagatorId) (v w : Var) (i : Nat) (mask : Mask)
    (rest : List (Var × Mask)) : watching p v i ((w, mask) :: rest) =
      (if w = v then [⟨p, i, mask⟩] else []) ++ watching p v (i + 1) rest := by
  rw [watching, List.zipIdx_cons, List.filterMap_cons]
  split <;> rename_i h
  · split at h
    · cases h
    · next hv => rw [if_neg hv, List.nil_append, watching]
  · split at h
    · next hv =>
      cases h
      rw [if_pos hv, List.singleton_append, watching]
    · cases h

theorem mem_watching {p : PropagatorId} {v : Var} {i : Nat} {watches : List (Var × Mask)}
    {s : Subscription} : s ∈ watching p v i watches ↔
      s.propagator = p ∧ ∃ k, watches[k]? = some (v, s.mask) ∧ s.localIndex = i + k := by
  simp only [watching, List.mem_filterMap, List.mem_zipIdx_iff_le_and_getElem?_sub]
  constructor
  · rintro ⟨⟨⟨w, mask⟩, j⟩, ⟨hle, hj⟩, h⟩
    split at h
    · next hw =>
      cases h
      exact ⟨rfl, j - i, hw ▸ hj, by simp only at hle ⊢; omega⟩
    · cases h
  · rintro ⟨rfl, k, hk, hi⟩
    refine ⟨((v, s.mask), s.localIndex), ⟨by simp only; omega, ?_⟩, ?_⟩
    · rw [hi, Nat.add_sub_cancel_left]
      exact hk
    · rw [if_pos rfl]

theorem size_resize (rows : Array (List Subscription)) (n : Nat) : (resize rows n).size = n := by
  rw [resize, Array.take_eq_extract, Array.size_append, Array.size_extract, Array.size_replicate]
  omega

theorem rowOf_resize (rows : Array (List Subscription)) (n : Nat) (v : Var) :
    rowOf (resize rows n) v = if v.id < n then rowOf rows v else [] := by
  have hsize : (rows.take n).size = min n rows.size := by
    rw [Array.take_eq_extract, Array.size_extract, Nat.sub_zero]
  rw [rowOf, resize, Array.getElem?_append]
  split
  · next h =>
    rw [if_pos (by omega), Trail.getElem?_take, if_pos (by omega), rowOf]
  · next h =>
    rw [Array.getElem?_replicate, rowOf]
    split
    · next hi =>
      rw [if_pos (by omega), Array.getElem?_eq_none (by omega)]
      rfl
    · next hi => rw [if_neg (by omega)]; rfl

/-- `rows'` is the table `rows` with the subscriptions `new v` appended to the row of each variable.
-/
structure Subscribed (rows : Array (List Subscription)) (new : Var → List Subscription)
    (rows' : Array (List Subscription)) : Prop where
  size : rows'.size = rows.size
  row : ∀ v, rowOf rows' v = rowOf rows v ++ new v

theorem subscribe_ends (m : Model ν π) (v : Var) (s : Subscription) :
    Ends (subscribe v s : Op ν π Unit) m
      (fun _ m' => v.id < m.subscriptions.size ∧
        ∃ rows, m' = { m with subscriptions := rows } ∧
          Subscribed m.subscriptions (fun w => if v = w then [s] else []) rows)
      fun _ m' => ¬v.id < m.subscriptions.size ∧ m' = m := by
  unfold subscribe
  cases hf : Checked.fetch m.subscriptions v.id with
  | error e =>
    have hq : (discard (query fun m : Model ν π => Checked.fetch m.subscriptions v.id) :
        Op ν π Unit) m = .error e m := by
      rw [discard_apply, query_error (m := m) hf]
    refine ends_of_error (bind_error _ hq) ⟨fun hv => ?_, rfl⟩
    rw [Checked.fetch_eq_ok.2 (Array.getElem?_eq_getElem hv)] at hf
    cases hf
  | ok row =>
    have hq : (discard (query fun m : Model ν π => Checked.fetch m.subscriptions v.id) :
        Op ν π Unit) m = .ok () m := by
      rw [discard_apply, query_ok (m := m) hf]
    have hrow := Checked.fetch_eq_ok.1 hf
    refine ends_of_ok ((bind_ok _ hq).trans (modify_apply _ _)) ⟨?_, _, rfl, ?_, fun w => ?_⟩
    · exact (Array.getElem?_eq_some_iff.1 hrow).1
    · exact Array.size_modify
    · rw [rowOf, rowOf, Array.getElem?_modify]
      by_cases hv : v = w
      · subst hv
        rw [if_pos rfl, if_pos rfl, hrow]
        rfl
      · rw [if_neg (fun h => hv (by cases v; cases w; exact congrArg Var.mk h)), if_neg hv,
          List.append_nil]

theorem Subscribed.trans {rows rows' rows'' : Array (List Subscription)}
    {new new' : Var → List Subscription} (h : Subscribed rows new rows')
    (h' : Subscribed rows' new' rows'') : Subscribed rows (fun v => new v ++ new' v) rows'' where
  size := h'.size.trans h.size
  row v := by rw [h'.row, h.row, List.append_assoc]

theorem subscribed_self (rows : Array (List Subscription)) : Subscribed rows (fun _ => []) rows :=
  ⟨rfl, fun _ => (List.append_nil _).symm⟩

/-- `subscribeAll` subscribes every watch, or faults on one whose variable has no row. Then only
subscriptions of `p` have been appended. -/
theorem subscribeAll_ends (p : PropagatorId) (watches : List (Var × Mask)) (i : Nat)
    (m : Model ν π) :
    Ends (subscribeAll p i watches : Op ν π Unit) m
      (fun _ m' => (∀ x ∈ watches, x.1.id < m.subscriptions.size) ∧
        ∃ rows, m' = { m with subscriptions := rows } ∧
          Subscribed m.subscriptions (watching p · i watches) rows)
      fun _ m' => (∃ x ∈ watches, ¬x.1.id < m.subscriptions.size) ∧
        ∃ new rows, m' = { m with subscriptions := rows } ∧
          Subscribed m.subscriptions new rows ∧ ∀ v, ∀ s ∈ new v, s.propagator = p := by
  induction watches generalizing i m with
  | nil =>
    exact ends_of_ok rfl ⟨fun _ hx => absurd hx List.not_mem_nil, m.subscriptions, rfl,
      subscribed_self _⟩
  | cons x rest ih =>
    obtain ⟨v, mask⟩ := x
    refine ((subscribe_ends m v ⟨p, i, mask⟩).mono (fun _ _ h => h) fun e m' h => ?_).bind
      fun _ m' ⟨hv, rows, hm', hsub⟩ => ?_
    · exact ⟨⟨_, List.mem_cons_self, h.1⟩, _, m.subscriptions, h.2, subscribed_self _,
        fun _ _ hs => absurd hs List.not_mem_nil⟩
    subst hm'
    refine (ih (i + 1) _).mono (fun _ m'' h => ?_) fun e m'' h => ?_
    · obtain ⟨hall, rows', rfl, hsub'⟩ := h
      refine ⟨fun x hx => ?_, rows', rfl, ?_⟩
      · rcases List.mem_cons.1 hx with rfl | hx
        · exact hv
        · exact hsub.size ▸ hall x hx
      · simp only [watching_cons]
        exact hsub.trans hsub'
    · obtain ⟨⟨x, hx, hdead⟩, new, rows', rfl, hsub', hp⟩ := h
      refine ⟨⟨x, List.mem_cons_of_mem _ hx, hsub.size ▸ hdead⟩, _, rows', rfl, hsub.trans hsub',
        fun w s hs => ?_⟩
      rcases List.mem_append.1 hs with hs | hs
      · split at hs
        · rw [List.mem_singleton.1 hs]
        · cases hs
      · exact hp w s hs

/-! ## The parts of a post -/

/-- Entries from the index `m.count` on belong to no live propagator, and can be dropped. -/
theorem Evolves.dropEntries (hm : m.Valid) :
    m.Evolves { m with entries := m.entries.take m.count } := by
  have hseat : ∀ p, ({ m with entries := m.entries.take m.count } : Model ν π).seat p =
      if p < m.count then m.seat p else none := by
    intro p
    show ((m.entries.take m.count)[p]?).map Entry.seat = _
    rw [Trail.getElem?_take]
    split <;> rfl
  refine .beside hm rfl rfl rfl ?_ (fun p s h => ?_) (fun p hp => by rw [hseat, if_pos hp])
    fun _ _ => rfl
  · rw [Array.take_eq_extract, Array.size_extract]
    have := hm.count_le
    omega
  · rw [hseat] at h
    split at h
    · exact h
    · cases h

/-- The table of subscriptions can be replaced if the rows of live variables, as far as live
propagators go, are kept. -/
theorem Evolves.withRows (hm : m.Valid) {rows : Array (List Subscription)} (notes : Array ν)
    (h : ∀ v, m.store.scene v ≠ none → (rowOf rows v).filter (·.propagator.id < m.count) =
      (m.row v).filter (·.propagator.id < m.count)) :
    m.Evolves { m.addNotes notes with subscriptions := rows } :=
  .beside hm rfl rfl rfl hm.count_le (fun _ _ h => h) (fun _ _ => rfl) h

/-- The cells of roles are cells of the trail. -/
theorem Valid.cell_lt (hm : m.Valid) {r : Role} {i : Nat} (h : m.cell r = some i) :
    i < m.store.trail.cells.size := by
  have hint : ∃ a, m.store.trail.view.int i = some a := by
    cases r with
    | vars =>
      obtain ⟨n, hn, -⟩ := hm.store.now.count
      cases h
      exact ⟨_, hn⟩
    | props =>
      obtain ⟨n, hn, -⟩ := hm.now.count
      cases h
      exact ⟨_, hn⟩
    | enabled p =>
      obtain ⟨e, he, rfl⟩ := Option.map_eq_some_iff.1 h
      obtain ⟨b, hb⟩ := hm.now.enabled p (seat_lt he) e he
      exact ⟨_, hb⟩
    | retired p =>
      obtain ⟨e, he, rfl⟩ := Option.map_eq_some_iff.1 h
      obtain ⟨b, hb⟩ := hm.now.retired p (seat_lt he) e he
      exact ⟨_, hb⟩
  obtain ⟨a, ha⟩ := hint
  by_contra hlt
  rw [Trail.view_int_of_le _ (Nat.le_of_not_lt hlt)] at ha
  cases ha

/-- `newBool b` gives the next cell, and sets it to `b`. -/
theorem Valid.newFlag (hm : m.Valid) (b : Bool) :
    ∃ t, (onTrail (Trail.newBool b) : Op ν π BoolRef) m =
        .ok ⟨⟨m.store.trail.cells.size⟩⟩ { m with store := { m.store with trail := t } } ∧
      t.view = m.store.trail.view.setInt m.store.trail.cells.size (BoolRef.bit b) ∧
      t.cells.size = m.store.trail.cells.size + 1 ∧
      m.store.Widens t ∧ m.Evolves { m with store := { m.store with trail := t } } := by
  have ht := hm.store.trail.addInt (BoolRef.bit b)
  have hvars : m.store.trail.cells.size ≠ m.store.alive.index :=
    Nat.ne_of_gt (hm.cell_lt (r := .vars) rfl)
  have hprops : m.store.trail.cells.size ≠ m.alive.index :=
    Nat.ne_of_gt (hm.cell_lt (r := .props) rfl)
  exact ⟨_, onTrail_ok (Trail.newBool_apply b _), ht.view, Array.size_push _,
    widens_setInt ht hvars, .setBit hm ht hvars hprops⟩

/-- An entry `e` can be pushed whose flags are new cells. It does not count as live yet. -/
theorem Evolves.push (hm : m.Valid) {e : Entry π}
    (henabled : ∃ b, m.store.trail.view.int e.enabled.cell.index = some (BoolRef.bit b))
    (hretired : ∃ b, m.store.trail.view.int e.retired.cell.index = some (BoolRef.bit b))
    (hne : e.enabled.cell.index ≠ e.retired.cell.index)
    (hnew : ∀ r i, m.cell r = some i → i ≠ e.enabled.cell.index ∧ i ≠ e.retired.cell.index) :
    m.Evolves { m with entries := m.entries.push e } := by
  have hseat : ∀ p, ({ m with entries := m.entries.push e } : Model ν π).seat p =
      if p = m.entries.size then some e.seat else m.seat p := by
    intro p
    show ((m.entries.push e)[p]?).map Entry.seat = _
    rw [Array.getElem?_push]
    split <;> rfl
  have hcell : ∀ r, ({ m with entries := m.entries.push e } : Model ν π).cell r =
      if r = .enabled m.entries.size then some e.enabled.cell.index
      else if r = .retired m.entries.size then some e.retired.cell.index else m.cell r := by
    intro r
    cases r with
    | vars | props => rfl
    | enabled p | retired p =>
      by_cases hp : p = m.entries.size
      · subst hp
        simp [cell, hseat, Entry.seat]
      · simp [cell, hseat, hp]
  have hbits : ∀ p s, ({ m with entries := m.entries.push e } : Model ν π).seat p = some s →
      (∃ b, m.store.trail.view.int s.enabled.cell.index = some (BoolRef.bit b)) ∧
        ∃ b, m.store.trail.view.int s.retired.cell.index = some (BoolRef.bit b) := by
    intro p s hs
    rw [hseat] at hs
    split at hs
    · cases hs
      exact ⟨henabled, hretired⟩
    · exact ⟨hm.now.enabled p (seat_lt hs) s hs, hm.now.retired p (seat_lt hs) s hs⟩
  have hold : ∀ p < m.count, ({ m with entries := m.entries.push e } : Model ν π).seat p =
      m.seat p := fun p hp => by
    rw [hseat, if_neg (Nat.ne_of_lt (hp.trans_le hm.count_le))]
  have hhouses : ∀ {w : View} {n : Nat}, n ≤ m.count → m.Houses w n →
      ({ m with entries := m.entries.push e } : Model ν π).Houses w n := fun hn h =>
    ⟨by
      obtain ⟨k, hk, hlt, hle⟩ := h.count
      exact ⟨k, hk, hlt, by rw [Array.size_push]; omega⟩,
      fun p hp s hs => h.enabled p hp s (hold p (hp.trans_le hn) ▸ hs),
      fun p hp s hs => h.retired p hp s (hold p (hp.trans_le hn) ▸ hs)⟩
  exact
    { hm.evolves_self with
      valid :=
        { store := hm.store
          now := by
            obtain ⟨k, hk, hlt, hle⟩ := hm.now.count
            exact ⟨⟨k, hk, hlt, by rw [Array.size_push]; omega⟩, fun p _ s hs => (hbits p s hs).1,
              fun p _ s hs => (hbits p s hs).2⟩
          past := fun p hp => hhouses (hm.countIn_past hp) (hm.past p hp)
          counts := hm.counts
          apart := by
            intro r r' i hr hr'
            rw [hcell] at hr hr'
            grind [hm.apart]
          unsettled := hm.unsettled }
      seat := hold }

/-- `increment` on the number of live propagators, if there is an entry for the next one. -/
theorem Valid.increment_ends (hm : m.Valid) (hle : m.count + 1 ≤ m.entries.size) :
    Ends (discard (onTrail m.alive.increment) : Op ν π PUnit) m
      (fun _ m' => ∃ t, m' = { m with store := { m.store with trail := t } } ∧
        t.view = m.store.trail.view.setInt m.alive.index ((m.count + 1 : Nat) : Int) ∧
        m.store.Widens t ∧ m.Evolves m')
      fun f m' => f = .overflow ∧ m' = m := by
  obtain ⟨hn, hlt, -⟩ := hm.now.countIn_eq
  have hvars : m.alive.index ≠ m.store.alive.index := hm.ne_vars (r := .props) (by rintro ⟨⟩) rfl
  cases hk : Checked.int ((m.count : Int) + 1) with
  | error e =>
    have hadd : (onTrail m.alive.increment : Op ν π Int) m = .error .overflow m := by
      rw [onTrail, onStore, within_apply, Store.onTrail, within_apply, IntRef.increment,
        IntRef.add_overflow hn hk]
    exact ends_of_error (by rw [discard_apply, hadd]) ⟨rfl, rfl⟩
  | ok k =>
    obtain ⟨hrange, rfl⟩ := Checked.int_eq_ok.1 hk
    obtain ⟨t, hadd, ht⟩ := IntRef.add_free hm.store.trail hn hk
    rw [← Int.natCast_succ] at ht
    have hadd' : m.alive.increment m.store.trail = _ := hadd
    refine ends_of_ok (by rw [discard_apply, onTrail_ok hadd']) ⟨t, rfl, ht.view,
      widens_setInt ht hvars, .counted hm ht (by omega) hle⟩

/-! ## Posting -/

section
variable [Propagator ν π]

/-- The entry of a posted propagator `x`, whose flags are the next two of the `cells`. -/
def newEntry (ν : Type) {π : Type} [Propagator ν π] (x : π) (cells : Nat) : Entry π where
  propagator := x
  priority := Propagator.priority ν x
  enabled := ⟨⟨cells⟩⟩
  retired := ⟨⟨cells + 1⟩⟩
  coarse := true
  pending := []

/-- `m'` is `m` with the entry `e` for the next index, which is scheduled. In the store only cells
of the trail are new. -/
structure Enlisted (m : Model ν π) (e : Entry π) (m' : Model ν π) : Prop where
  entries : m'.entries = m.entries.push e
  subscriptions : m'.subscriptions = m.subscriptions
  queue : m'.queue = m.queue.enqueue ⟨m.count⟩ e.priority
  store : ∃ t, m'.store = { m.store with trail := t } ∧ m.store.Widens t ∧
    t.view = ((m.store.trail.view.setInt e.enabled.cell.index (BoolRef.bit true)).setInt
      e.retired.cell.index (BoolRef.bit false)).setInt m.alive.index ((m.count + 1 : Nat) : Int)
  evolves : m.Evolves m'

theorem modify_push {α : Type} (xs : Array α) (a : α) (f : α → α) :
    (xs.push a).modify xs.size f = xs.push (f a) := by
  refine Array.ext_getElem? fun i => ?_
  rw [Array.getElem?_modify, Array.getElem?_push, Array.getElem?_push]
  by_cases hi : i = xs.size
  · subst hi
    simp
  · rw [if_neg (Ne.symm hi), if_neg hi, if_neg hi]

theorem Valid.enlist_ends (hm : m.Valid) (hsize : m.entries.size = m.count) (setup : Setup ν π) :
    Ends (enlist ⟨m.count⟩ setup : Op ν π Unit) m
      (fun _ m' => Enlisted m (newEntry ν setup.propagator m.store.trail.cells.size) m')
      fun f m' => f = .overflow ∧ m.Evolves m' := by
  unfold enlist
  let n := m.store.trail.cells.size
  obtain ⟨t₁, hflag, hview₁, hsize₁, hwide₁, h₁⟩ := hm.newFlag true
  obtain ⟨t₂, hflag', hview₂, -, hwide₂, h₂⟩ := h₁.valid.newFlag false
  have hnext : ({ m with store := { m.store with trail := t₁ } } : Model ν π).store.trail.cells.size
      = n + 1 := hsize₁
  rw [hnext] at hflag' hview₂
  replace hview₂ : t₂.view =
      (m.store.trail.view.setInt n (BoolRef.bit true)).setInt (n + 1) (BoolRef.bit false) :=
    hview₂.trans (by rw [← hview₁])
  refine Ends.of_eq (Ends.of_eq ?_ (bind_ok _ hflag')) (bind_ok _ hflag)
  refine Ends.of_eq (Ends.of_eq ?_ (bind_ok _ (modify_apply _ _))) (bind_ok _ (say_apply _ _))
  refine Ends.of_eq ?_ (bind_ok _ (get_apply _))
  -- the model with the flags, and then with the entry too, which is not counted as live yet
  let e := newEntry ν setup.propagator n
  let m₂ : Model ν π := { m with store := { m.store with trail := t₂ } }
  let m₃ : Model ν π := { m₂ with
    entries := m.entries.push { e with coarse := false }
    trace := m.trace.push (.line (.posted (Propagator.name ν setup.propagator) ⟨m.count⟩
      (Propagator.priority ν setup.propagator))) }
  have hcell : ∀ r i, m₂.cell r = some i → i ≠ n ∧ i ≠ n + 1 := fun r i h => by
    have hlt : i < n := hm.cell_lt (r := r) (by cases r <;> exact h)
    omega
  have hflags : m₂.store.trail.view.int n = some (BoolRef.bit true) ∧
      m₂.store.trail.view.int (n + 1) = some (BoolRef.bit false) := by
    show t₂.view.int n = _ ∧ t₂.view.int (n + 1) = _
    rw [hview₂, View.setInt_self, View.setInt_of_ne _ _ (Nat.ne_of_lt n.lt_succ_self),
      View.setInt_self]
    exact ⟨rfl, rfl⟩
  have h₃ : m.Evolves m₃ := by
    have hpush := Evolves.push h₂.valid (e := { e with coarse := false }) ⟨true, hflags.1⟩
      ⟨false, hflags.2⟩ (Nat.ne_of_lt n.lt_succ_self) hcell
    exact ((h₁.trans h₂).trans hpush).trans (.of_core hpush.valid rfl)
  have hcount₃ : m₃.count = m.count := by
    have hne := hm.cell_lt (r := .props) rfl
    show m.countIn t₂.view = m.countIn m.store.trail.view
    rw [countIn, hview₂, View.setInt_of_ne _ _ (by omega), View.setInt_of_ne _ _ (by omega), countIn]
  refine ((h₃.valid.increment_ends ?_).mono (fun _ _ h => h) fun _ m' h => ?_).bind ?_
  · show m₃.count + 1 ≤ (m.entries.push _).size
    rw [hcount₃, Array.size_push, hsize]
  · exact ⟨h.1, h.2 ▸ h₃⟩
  · rintro - m₄ ⟨t₄, rfl, hview₄, hwide₄, h₄⟩
    have hentry : (m.entries.push { e with coarse := false })[m.count]? =
        some { e with coarse := false } := by
      rw [← hsize, Array.getElem?_push, if_pos rfl]
    have hrun := schedule_apply (m := { m₃ with store := { m₃.store with trail := t₄ } })
      (p := ⟨m.count⟩) hentry
    have hsched := steps_of_keeps (core_schedule ⟨m.count⟩) _ h₄.valid.evolves_self
    rw [after_of_ok hrun] at hsched
    refine ends_of_ok hrun
      { entries := ?_
        subscriptions := rfl
        queue := rfl
        store := ⟨t₄, rfl, (hwide₁.trans hwide₂).trans hwide₄, ?_⟩
        evolves := (h₃.trans h₄).trans hsched }
    · show (m.entries.push { e with coarse := false }).modify m.count Entry.swept = _
      rw [← hsize, modify_push]
      rfl
    · rw [hview₄, hcount₃]
      show t₂.view.setInt _ _ = _
      rw [hview₂]
      rfl

/-- `m'` is `m` after a post with this `setup`: the next index has its entry, and the rows of the
live variables have its subscriptions. -/
structure Posted (m : Model ν π) (setup : Setup ν π) (m' : Model ν π) : Prop where
  watches : ∀ x ∈ setup.watches, x.1.id < m.store.varCount
  size : m'.subscriptions.size = m.store.varCount
  row : ∀ v, m'.row v = (if v.id < m.store.varCount then m.row v else []) ++
    watching ⟨m.count⟩ v 0 setup.watches
  entries : m'.entries =
    (m.entries.take m.count).push (newEntry ν setup.propagator m.store.trail.cells.size)
  queue : m'.queue = m.queue.enqueue ⟨m.count⟩ (Propagator.priority ν setup.propagator)
  store : ∃ t, m'.store = { m.store with trail := t } ∧ m.store.Widens t ∧
    t.view = ((m.store.trail.view.setInt m.store.trail.cells.size (BoolRef.bit true)).setInt
      (m.store.trail.cells.size + 1) (BoolRef.bit false)).setInt
        m.alive.index ((m.count + 1 : Nat) : Int)
  evolves : m.Evolves m'

/-- The faults of a post: `initialise` fails, a watched variable is not alive, or there are too many
propagators. -/
inductive Unposted (m : Model ν π) (x : π) (f : Fault) : Prop
  | refused (h : Propagator.initialise (ν := ν) x ⟨m.count⟩ m.store = .error f)
  | blind {setup : Setup ν π} (h : Propagator.initialise x ⟨m.count⟩ m.store = .ok setup)
    {w : Var × Mask} (hw : w ∈ setup.watches) (hdead : ¬w.1.id < m.store.varCount)
  | full (h : f = .overflow)

/-- A post ends as `Posted`, or faults as `Unposted`. In both cases it is a step of the model
(`Evolves`). -/
theorem Valid.post_ends (hm : m.Valid) (x : π) :
    Ends (post x : Op ν π PropagatorId) m
      (fun p m' => p = ⟨m.count⟩ ∧ ∃ setup,
        Propagator.initialise x p m.store = .ok setup ∧ Posted m setup m')
      fun f m' => m.Unposted x f ∧ m.Evolves m' := by
  have hcount := hm.propagatorCount_eq
  have hdrop := Evolves.dropEntries hm
  unfold post
  refine Ends.of_eq (u := { m with entries := m.entries.take m.count }) ?_ (by
    rw [bind_ok _ (get_apply m), bind_ok _ (set_apply m _), hcount])
  cases hinit : (Propagator.initialise x ⟨m.count⟩ m.store : Except Fault (Setup ν π)) with
  | error f => exact ends_of_error (bind_error _ (query_error hinit)) ⟨.refused hinit, hdrop⟩
  | ok setup =>
    refine Ends.of_eq (Ends.of_eq ?_ (bind_ok _ (modify_apply _ _))) (bind_ok _ (query_ok hinit))
    have hrows : ∀ v, m.store.scene v ≠ none →
        rowOf (resize m.subscriptions m.store.varCount) v = m.row v := fun v hv => by
      rw [rowOf_resize, if_pos, row]
      rw [hm.store.varCount_eq]
      exact (hm.store.ne_none_iff v).1 hv
    -- the subscriptions of the new propagator do not matter to the old ones
    have htable : ∀ {new rows}, Subscribed (resize m.subscriptions m.store.varCount) new rows →
        (∀ v, ∀ s ∈ new v, s.propagator = ⟨m.count⟩) →
        m.Evolves { m.addNotes setup.notes.toArray with
          entries := m.entries.take m.count, subscriptions := rows } := by
      intro new rows hsub hnew
      refine hdrop.trans (.withRows hdrop.valid _ fun v hv => ?_)
      have hnone : (new v).filter (·.propagator.id < m.count) = [] :=
        List.filter_eq_nil_iff.2 fun s hs => by rw [hnew v s hs]; simp
      show (rowOf rows v).filter (·.propagator.id < m.count) = _
      rw [hsub.row, hrows v hv, List.filter_append, hnone, List.append_nil]
      rfl
    refine Ends.bind ((subscribeAll_ends ⟨m.count⟩ setup.watches 0 _).mono (fun _ _ h => h) ?_) ?_
    · rintro _ _ ⟨⟨w, hw, hdead⟩, new, rows, rfl, hsub, hnew⟩
      exact ⟨.blind hinit hw fun hlive => hdead (hlive.trans_eq (size_resize _ _).symm),
        htable hsub hnew⟩
    rintro - m₁ ⟨hwatch, rows, rfl, hsub⟩
    have h₁ := htable hsub fun v s hs => (mem_watching.1 hs).1
    have hsize : (m.entries.take m.count).size = m.count := by
      rw [Array.take_eq_extract, Array.size_extract]
      have := hm.count_le
      omega
    refine Ends.bind ((h₁.valid.enlist_ends hsize setup).mono (fun _ _ h => h)
      fun _ _ h => ⟨.full h.1, h₁.trans h.2⟩) ?_
    rintro - m' h
    refine ends_of_ok rfl ⟨rfl, setup, hinit, fun x hx => ?_, ?_, fun v => ?_, h.entries,
      h.queue, h.store, h₁.trans h.evolves⟩
    · exact (hwatch x hx).trans_eq (size_resize _ _)
    · rw [h.subscriptions]
      exact hsub.size.trans (size_resize _ _)
    · rw [row, h.subscriptions, row, ← rowOf_resize]
      exact hsub.row v

theorem steps_post (x : π) : Steps Evolves (post x : Op ν π PropagatorId) := fun _ hm =>
  after_of_ends ((hm.valid.post_ends x).mono (fun _ _ ⟨_, _, _, h⟩ => h.evolves) fun _ _ h => h.2)

end

end Model

end Propagation
