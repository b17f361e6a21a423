import Propagation.Model.Fixpoint
import Propagation.Model.Level
import Propagation.Proofs.Action
import Propagation.Proofs.Store.Level

/-!
# Valid models

`Model.Valid` is the invariant of a model, as far as it outlives a fault: its store is valid, the
cells that the engine keeps beside the domains are there at every level, and no cell has two uses.
`Model.Evolves` is a step that neither opens nor closes a level: it keeps the levels, the live
propagators and their subscriptions. Every update of the engine is one, however it ends.
-/

set_option autoImplicit false

namespace Propagation

open Update

/-- The part of an entry that is fixed when it is posted. -/
structure Seat where
  priority : Priority
  enabled : BoolRef
  retired : BoolRef

/-- The uses of the cells that do not belong to domains. -/
inductive Role
  | vars
  | props
  | enabled (p : Nat)
  | retired (p : Nat)
deriving DecidableEq

def Entry.seat {π : Type} (e : Entry π) : Seat := ⟨e.priority, e.enabled, e.retired⟩

namespace Model

variable {ν π : Type}

/-- The seat of the entry at the index `p`. -/
def seat (m : Model ν π) (p : Nat) : Option Seat := (m.entries[p]?).map Entry.seat

/-- The row of `v` in a table of subscriptions, empty if there is none. -/
def rowOf (rows : Array (List Subscription)) (v : Var) : List Subscription :=
  (rows[v.id]?).getD []

/-- The subscriptions to `v`. -/
def row (m : Model ν π) (v : Var) : List Subscription := rowOf m.subscriptions v

/-- The number of propagators that are alive in the view `w`. -/
def countIn (m : Model ν π) (w : View) : Nat := ((w.int m.alive.index).getD 0).toNat

/-- The number of live propagators. -/
def count (m : Model ν π) : Nat := m.countIn m.store.trail.view

/-- The cell of a role. -/
def cell (m : Model ν π) : Role → Option Nat
  | .vars => some m.store.alive.index
  | .props => some m.alive.index
  | .enabled p => (m.seat p).map (·.enabled.cell.index)
  | .retired p => (m.seat p).map (·.retired.cell.index)

/-- In the view `w` the cell that counts the propagators has a value, and so have the flags of the
first `n`. -/
structure Houses (m : Model ν π) (w : View) (n : Nat) : Prop where
  count : ∃ k : Nat, w.int m.alive.index = some (k : Int) ∧ k < 2 ^ 63 ∧ k ≤ m.entries.size
  enabled : ∀ p < n, ∀ s, m.seat p = some s →
    ∃ b, w.int s.enabled.cell.index = some (BoolRef.bit b)
  retired : ∀ p < n, ∀ s, m.seat p = some s →
    ∃ b, w.int s.retired.cell.index = some (BoolRef.bit b)

structure Valid (m : Model ν π) : Prop where
  store : m.store.Valid
  /-- The entries beyond `m.count` that a fault may have left have their flags too. -/
  now : m.Houses m.store.trail.view m.entries.size
  past : ∀ p ∈ m.store.trail.past, m.Houses p.2 (m.countIn p.2)
  /-- The number of propagators does not decrease from a level to those within it. -/
  counts : (m.store.trail.view :: m.store.trail.past.map (·.2)).Pairwise
    fun w w' => m.countIn w' ≤ m.countIn w
  apart : ∀ r r' i, m.cell r = some i → m.cell r' = some i → r = r'
  unsettled : m.unsettled.size = m.depth

/-- `m'` comes from `m` without opening or closing a level: no live variable or propagator has died,
and the seats and subscriptions of the live propagators are unchanged. -/
structure Evolves (m m' : Model ν π) : Prop where
  valid : m'.Valid
  past : m'.store.trail.past = m.store.trail.past
  clock : m'.store.trail.clock = m.store.trail.clock
  saved : m'.store.saved = m.store.saved
  rooted : m.store.Rooted m'.store
  scene : ∀ v D, m.store.scene v = some D → ∃ D', m'.store.scene v = some D' ∧ D'.Within D
  vars : m'.store.alive = m.store.alive
  alive : m'.alive = m.alive
  count : m.count ≤ m'.count
  seat : ∀ p < m.count, m'.seat p = m.seat p
  row : ∀ v, m.store.scene v ≠ none →
    (m'.row v).filter (·.propagator.id < m.count) = (m.row v).filter (·.propagator.id < m.count)
  unsettled : m'.unsettled = m.unsettled

section
variable {m m' m'' : Model ν π} {w : View} {n : Nat}

theorem seat_lt {p : Nat} {s : Seat} (h : m.seat p = some s) : p < m.entries.size := by
  obtain ⟨e, he, -⟩ := Option.map_eq_some_iff.1 h
  exact (Array.getElem?_eq_some_iff.1 he).1

theorem Houses.countIn_eq (h : m.Houses w n) :
    w.int m.alive.index = some ((m.countIn w : Nat) : Int) ∧ m.countIn w < 2 ^ 63 ∧
      m.countIn w ≤ m.entries.size := by
  obtain ⟨n, hn, hlt, hle⟩ := h.count
  have hc : m.countIn w = n := by
    rw [countIn, hn]
    rfl
  rw [hc]
  exact ⟨hn, hlt, hle⟩

theorem Valid.propagatorCount_eq (hm : m.Valid) : m.propagatorCount = m.count := by
  obtain ⟨hn, hlt, -⟩ := hm.now.countIn_eq
  rw [propagatorCount, IntRef.getNat_eq (Trail.view_int.1 hn).2 (by omega)]
  rfl

theorem Valid.countIn_past (hm : m.Valid) {p : Nat × View} (hp : p ∈ m.store.trail.past) :
    m.countIn p.2 ≤ m.count :=
  (List.pairwise_cons.1 hm.counts).1 p.2 (List.mem_map_of_mem hp)

/-! ## Evolving -/

theorem Valid.evolves_self (hm : m.Valid) : m.Evolves m :=
  ⟨hm, rfl, rfl, rfl, Store.rooted_self _, fun _ D h => ⟨D, h, .refl D⟩, rfl, rfl, Nat.le_refl _,
    fun _ _ => rfl, fun _ _ => rfl, rfl⟩

/-- Filtering by the smaller of two bounds is filtering by both. -/
theorem filter_live {k l : Nat} (h : k ≤ l) (row : List Subscription) :
    (row.filter (·.propagator.id < l)).filter (·.propagator.id < k) =
      row.filter (·.propagator.id < k) := by
  rw [List.filter_filter]
  refine List.filter_congr fun s _ => ?_
  grind

theorem Evolves.live (h : m.Evolves m') {v : Var} (hv : m.store.scene v ≠ none) :
    m'.store.scene v ≠ none := by
  obtain ⟨D, hD⟩ := Option.ne_none_iff_exists'.1 hv
  obtain ⟨D', hD', -⟩ := h.scene v D hD
  rw [hD']
  nofun

theorem Evolves.trans (h : m.Evolves m') (h' : m'.Evolves m'') : m.Evolves m'' where
  valid := h'.valid
  past := h'.past.trans h.past
  clock := h'.clock.trans h.clock
  saved := h'.saved.trans h.saved
  rooted := h.rooted.trans h'.rooted fun _ => h.live
  scene v D hD := by
    obtain ⟨D', hD', hle⟩ := h.scene v D hD
    obtain ⟨D'', hD'', hle'⟩ := h'.scene v D' hD'
    exact ⟨D'', hD'', hle'.trans hle⟩
  vars := h'.vars.trans h.vars
  alive := h'.alive.trans h.alive
  count := h.count.trans h'.count
  seat p hp := (h'.seat p (hp.trans_le h.count)).trans (h.seat p hp)
  row v hv := by
    have hrow := congrArg (List.filter (·.propagator.id < m.count)) (h'.row v (h.live hv))
    rw [filter_live h.count, filter_live h.count] at hrow
    exact hrow.trans (h.row v hv)
  unsettled := h'.unsettled.trans h.unsettled

theorem onward_evolves : Onward (Evolves : Model ν π → Model ν π → Prop) :=
  ⟨Evolves.trans, fun h => h.valid.evolves_self⟩

end

/-! ## Steps beside the store -/

/-- The fields of a model that scheduling leaves alone. -/
def core (m : Model ν π) :=
  (m.store, m.alive, m.entries.map Entry.seat, m.subscriptions, m.unsettled)

section
variable {m m' : Model ν π}

/-- `Evolves` for a step that leaves the store and adds no live propagators. -/
theorem Evolves.beside (hm : m.Valid) (hstore : m'.store = m.store) (halive : m'.alive = m.alive)
    (hlevels : m'.unsettled = m.unsettled) (hsize : m.count ≤ m'.entries.size)
    (hold : ∀ p s, m'.seat p = some s → m.seat p = some s)
    (hseat : ∀ p < m.count, m'.seat p = m.seat p)
    (hrow : ∀ v, m.store.scene v ≠ none →
      (m'.row v).filter (·.propagator.id < m.count) =
        (m.row v).filter (·.propagator.id < m.count)) : m.Evolves m' := by
  have hcountIn : m'.countIn = m.countIn := by
    funext w
    rw [countIn, countIn, halive]
  have hcount : m'.count = m.count := by rw [Model.count, Model.count, hcountIn, hstore]
  have hcell : ∀ r i, m'.cell r = some i → m.cell r = some i := by
    intro r i h
    cases r with
    | vars => rwa [cell, hstore] at h
    | props => rwa [cell, halive] at h
    | enabled p | retired p =>
      obtain ⟨s, hs, hi⟩ := Option.map_eq_some_iff.1 h
      exact Option.map_eq_some_iff.2 ⟨s, hold p s hs, hi⟩
  have hpast : ∀ p ∈ m.store.trail.past, m'.Houses p.2 (m.countIn p.2) := fun p hp => by
    have h := hm.past p hp
    obtain ⟨hn, hlt, -⟩ := h.countIn_eq
    exact ⟨⟨_, halive ▸ hn, hlt, (hm.countIn_past hp).trans hsize⟩,
      fun q hq s hs => h.enabled q hq s (hold q s hs),
      fun q hq s hs => h.retired q hq s (hold q s hs)⟩
  obtain ⟨hn, hlt, -⟩ := hm.now.countIn_eq
  exact
    { valid :=
        { store := hstore ▸ hm.store
          now := by
            rw [hstore]
            exact ⟨⟨_, halive ▸ hn, hlt, hsize⟩,
              fun p _ s hs => hm.now.enabled p (seat_lt (hold p s hs)) s (hold p s hs),
              fun p _ s hs => hm.now.retired p (seat_lt (hold p s hs)) s (hold p s hs)⟩
          past := by rw [hstore, hcountIn]; exact hpast
          counts := by rw [hcountIn, hstore]; exact hm.counts
          apart := fun r r' i h h' => hm.apart r r' i (hcell r i h) (hcell r' i h')
          unsettled := by rw [hlevels, depth, hstore]; exact hm.unsettled }
      past := by rw [hstore]
      clock := by rw [hstore]
      saved := by rw [hstore]
      rooted := hstore ▸ Store.rooted_self _
      scene := fun v D hv => ⟨D, by rw [hstore, hv], .refl D⟩
      vars := by rw [hstore]
      alive := halive
      count := Nat.le_of_eq hcount.symm
      seat := hseat
      row := hrow
      unsettled := hlevels }

theorem Valid.count_le (hm : m.Valid) : m.count ≤ m.entries.size := hm.now.countIn_eq.2.2

theorem Evolves.of_core (hm : m.Valid) (h : m'.core = m.core) : m.Evolves m' := by
  obtain ⟨hstore, halive, hseats, hrows, hlevels⟩ :
      m'.store = m.store ∧ m'.alive = m.alive ∧
        m'.entries.map Entry.seat = m.entries.map Entry.seat ∧
        m'.subscriptions = m.subscriptions ∧ m'.unsettled = m.unsettled := by
    simpa [core] using h
  have hseat : m'.seat = m.seat := by
    funext p
    rw [Model.seat, Model.seat, ← Array.getElem?_map, ← Array.getElem?_map, hseats]
  have hsize : m'.entries.size = m.entries.size := by
    simpa using congrArg Array.size hseats
  exact .beside hm hstore halive hlevels (hsize ▸ hm.count_le) (fun p s h => hseat ▸ h)
    (fun p _ => congrFun hseat p) fun v _ => by rw [Model.row, Model.row, hrows]

theorem steps_of_keeps {ε α : Type} {x : Update ε (Model ν π) α} (h : Keeps core x) :
    Steps Evolves x := fun m hm => .of_core hm.valid (h m)

/-! ## Steps of the store -/

/-- `Evolves` for a step to a store with the same levels that still has the cells of all roles. -/
theorem Evolves.of_store (hm : m.Valid) {s : Store} (hs : s.Valid)
    (hpast : s.trail.past = m.store.trail.past) (hclock : s.trail.clock = m.store.trail.clock)
    (hsaved : s.saved = m.store.saved) (hvars : s.alive = m.store.alive)
    (hrooted : m.store.Rooted s)
    (hscene : ∀ v D, m.store.scene v = some D → ∃ D', s.scene v = some D' ∧ D'.Within D)
    {k : Nat} (hcount : s.trail.view.int m.alive.index = some (k : Int)) (hlt : k < 2 ^ 63)
    (hge : m.count ≤ k) (hle : k ≤ m.entries.size)
    (henabled : ∀ p e, m.seat p = some e →
      ∃ b, s.trail.view.int e.enabled.cell.index = some (BoolRef.bit b))
    (hretired : ∀ p e, m.seat p = some e →
      ∃ b, s.trail.view.int e.retired.cell.index = some (BoolRef.bit b)) :
    m.Evolves { m with store := s } := by
  have hcount' : m.countIn s.trail.view = k := by
    rw [countIn, hcount]
    rfl
  have hcell : ({ m with store := s } : Model ν π).cell = m.cell := by
    funext r
    cases r <;> simp only [cell, hvars] <;> rfl
  have hhouses : ∀ w n, m.Houses w n → ({ m with store := s } : Model ν π).Houses w n :=
    fun w n hw => ⟨hw.count, hw.enabled, hw.retired⟩
  have hnow : m.Houses s.trail.view m.entries.size :=
    ⟨⟨k, hcount, hlt, hle⟩, fun p _ => henabled p, fun p _ => hretired p⟩
  exact
    { valid :=
        { store := hs
          now := hhouses _ _ hnow
          past := fun p hp => hhouses _ _ (hm.past p (hpast ▸ hp))
          counts := by
            show (s.trail.view :: s.trail.past.map (·.2)).Pairwise
              fun w w' => m.countIn w' ≤ m.countIn w
            obtain ⟨h1, h2⟩ := List.pairwise_cons.1 hm.counts
            rw [hpast]
            exact List.pairwise_cons.2 ⟨fun w hw =>
              (h1 w hw).trans (hcount' ▸ hge), h2⟩
          apart := by rw [hcell]; exact hm.apart
          unsettled := by
            have hd : s.trail.depth = m.store.trail.depth := by
              rw [← Trail.length_past, ← Trail.length_past, hpast]
            exact hm.unsettled.trans hd.symm }
      past := hpast
      clock := hclock
      saved := hsaved
      rooted := hrooted
      scene := hscene
      vars := hvars
      alive := rfl
      count := hge.trans (Nat.le_of_eq hcount'.symm)
      seat := fun _ _ => rfl
      row := fun _ _ => rfl
      unsettled := rfl }

/-- The only role whose cell counts the variables is `Role.vars`. -/
theorem Valid.ne_vars (hm : m.Valid) {r : Role} {i : Nat} (hr : r ≠ .vars)
    (h : m.cell r = some i) : i ≠ m.store.alive.index := by
  rintro rfl
  exact hr (hm.apart r .vars _ h rfl)

theorem Valid.ne_propagators (hm : m.Valid) {r : Role} {i : Nat} (hr : r ≠ .props)
    (h : m.cell r = some i) : i ≠ m.alive.index := by
  rintro rfl
  exact hr (hm.apart r .props _ h rfl)

theorem cell_enabled {p : Nat} {e : Seat} (h : m.seat p = some e) :
    m.cell (.enabled p) = some e.enabled.cell.index := by rw [cell, h]; rfl

theorem cell_retired {p : Nat} {e : Seat} (h : m.seat p = some e) :
    m.cell (.retired p) = some e.retired.cell.index := by rw [cell, h]; rfl

/-- A step of the store is a step of the model. -/
theorem Evolves.withStore (hm : m.Valid) {s : Store} (h : m.store.Evolves s) :
    m.Evolves { m with store := s } := by
  obtain ⟨hn, hlt, hle⟩ := hm.now.countIn_eq
  refine .of_store hm h.valid h.past h.clock h.saved h.alive h.rooted h.scene
    ((h.ints _ (hm.ne_vars (r := .props) nofun rfl)).trans hn) hlt (Nat.le_refl _) hle
    (fun p e he => ?_) fun p e he => ?_
  · rw [h.ints _ (hm.ne_vars (r := .enabled p) nofun (cell_enabled he))]
    exact hm.now.enabled p (seat_lt he) e he
  · rw [h.ints _ (hm.ne_vars (r := .retired p) nofun (cell_retired he))]
    exact hm.now.retired p (seat_lt he) e he

/-- A write to a cell other than the one that counts the variables, or to a new cell, `Widens` the
store. -/
theorem widens_setInt {m : Model ν π} {t : Trail} {i : Nat} {a : Int}
    (ht : Trail.Turns m.store.trail (m.store.trail.view.setInt i a) t)
    (hvars : i ≠ m.store.alive.index) : m.store.Widens t where
  turns := ht.view.symm ▸ ht
  count := by rw [ht.view, View.setInt_of_ne _ _ (Ne.symm hvars)]
  sparse r x hx := by rw [ht.view]; exact hx
  bounded r x hx := by rw [ht.view]; exact hx

/-- `Evolves` for setting a flag, in a cell of its own or in a new one. -/
theorem Evolves.setBit (hm : m.Valid) {t : Trail} {i : Nat} {b : Bool}
    (ht : Trail.Turns m.store.trail (m.store.trail.view.setInt i (BoolRef.bit b)) t)
    (hvars : i ≠ m.store.alive.index) (halive : i ≠ m.alive.index) :
    m.Evolves { m with store := { m.store with trail := t } } := by
  obtain ⟨hvalid, hscene, hsaved⟩ := (widens_setInt ht hvars).valid hm.store
  have hbit : ∀ j, (∃ b, m.store.trail.view.int j = some (BoolRef.bit b)) →
      ∃ b, t.view.int j = some (BoolRef.bit b) := fun j ⟨c, hc⟩ => by
    rw [ht.view]
    by_cases hj : j = i
    · exact ⟨b, hj ▸ View.setInt_self _ _ _⟩
    · exact ⟨c, by rw [View.setInt_of_ne _ _ hj, hc]⟩
  obtain ⟨hn, hlt, hle⟩ := hm.now.countIn_eq
  refine .of_store hm hvalid ht.past ht.clock hsaved rfl (widens_setInt ht hvars).rooted
    (fun v D hv => ⟨D, by rw [hscene, hv], .refl D⟩) ?_ hlt (Nat.le_refl _) hle
    (fun p e he => hbit _ (hm.now.enabled p (seat_lt he) e he))
    fun p e he => hbit _ (hm.now.retired p (seat_lt he) e he)
  show t.view.int m.alive.index = _
  rw [ht.view, View.setInt_of_ne _ _ (Ne.symm halive), hn]

/-- `Evolves` for counting one more live propagator, if there is an entry for it. -/
theorem Evolves.counted (hm : m.Valid) {t : Trail}
    (ht : Trail.Turns m.store.trail
      (m.store.trail.view.setInt m.alive.index ((m.count + 1 : Nat) : Int)) t)
    (hlt : m.count + 1 < 2 ^ 63) (hle : m.count + 1 ≤ m.entries.size) :
    m.Evolves { m with store := { m.store with trail := t } } := by
  have hvars : m.alive.index ≠ m.store.alive.index := hm.ne_vars (r := .props) nofun rfl
  obtain ⟨hvalid, hscene, hsaved⟩ := (widens_setInt ht hvars).valid hm.store
  have hflag : ∀ {r : Role} {j : Nat}, r ≠ .props → m.cell r = some j →
      t.view.int j = m.store.trail.view.int j := fun hr hj => by
    rw [ht.view, View.setInt_of_ne _ _ (hm.ne_propagators hr hj)]
  refine .of_store hm hvalid ht.past ht.clock hsaved rfl (widens_setInt ht hvars).rooted
    (fun v D hv => ⟨D, by rw [hscene, hv], .refl D⟩) ?_ hlt (Nat.le_succ _) hle
    (fun p e he => ?_) fun p e he => ?_
  · show t.view.int m.alive.index = _
    rw [ht.view, View.setInt_self]
  · show ∃ b, t.view.int e.enabled.cell.index = _
    rw [hflag (r := .enabled p) nofun (cell_enabled he)]
    exact hm.now.enabled p (seat_lt he) e he
  · show ∃ b, t.view.int e.retired.cell.index = _
    rw [hflag (r := .retired p) nofun (cell_retired he)]
    exact hm.now.retired p (seat_lt he) e he

theorem onTrail_ok {α : Type} {x : Trail.Op α} {a : α} {t : Trail}
    (h : x m.store.trail = .ok a t) : (onTrail x : Op ν π α) m =
      .ok a { m with store := { m.store with trail := t } } := by
  rw [onTrail, onStore, within_apply, Store.onTrail_ok h]

/-- Setting the flag of a role succeeds. -/
theorem Valid.set_flag (hm : m.Valid) {r : Role} {f : BoolRef} (hf : m.cell r = some f.cell.index)
    (hvars : r ≠ .vars) (hprops : r ≠ .props) (b : Bool) :
    ∃ t, (onTrail (f.set b) : Op ν π Bool) m =
        .ok b { m with store := { m.store with trail := t } } ∧
      Trail.Turns m.store.trail (m.store.trail.view.setInt f.cell.index (BoolRef.bit b)) t ∧
      m.Evolves { m with store := { m.store with trail := t } } := by
  have hbit : ∃ c, m.store.trail.view.int f.cell.index = some (BoolRef.bit c) := by
    cases r with
    | vars => exact absurd rfl hvars
    | props => exact absurd rfl hprops
    | enabled p =>
      obtain ⟨e, he, hi⟩ := Option.map_eq_some_iff.1 hf
      exact hi ▸ hm.now.enabled p (seat_lt he) e he
    | retired p =>
      obtain ⟨e, he, hi⟩ := Option.map_eq_some_iff.1 hf
      exact hi ▸ hm.now.retired p (seat_lt he) e he
  obtain ⟨c, hc⟩ := hbit
  obtain ⟨t, hset, ht⟩ := BoolRef.set_bit hm.store.trail hc b
  exact ⟨t, onTrail_ok hset, ht, .setBit hm ht (hm.ne_vars hvars hf) (hm.ne_propagators hprops hf)⟩

end

/-! ## Activity -/

section
variable {m m' : Model ν π} {p : Nat}

/-- In the view `w` the propagator `p` is enabled and not retired. -/
def ActiveIn (m : Model ν π) (w : View) (p : Nat) : Prop :=
  ∃ s, m.seat p = some s ∧ w.int s.enabled.cell.index = some (BoolRef.bit true) ∧
    w.int s.retired.cell.index = some (BoolRef.bit false)

def Active (m : Model ν π) (p : Nat) : Prop := m.ActiveIn m.store.trail.view p

theorem seat_of_entry {e : Entry π} (he : m.entries[p]? = some e) : m.seat p = some e.seat := by
  rw [seat, he]
  rfl

theorem seat_lt_iff : m.seat p ≠ none ↔ p < m.entries.size := by
  rw [seat, ne_eq, Option.map_eq_none_iff, Array.getElem?_eq_none_iff, Nat.not_le]

theorem bit_inj {a b : Bool} (h : BoolRef.bit a = BoolRef.bit b) : a = b := by
  cases a <;> cases b <;> first | rfl | cases h

/-- `activeEntry` reads the flags of the first `n` entries, and answers `Active`. -/
theorem Houses.activeEntry {n : Nat} (h : m.Houses m.store.trail.view n) {e : Entry π}
    (he : m.entries[p]? = some e) (hp : p < n) :
    ∃ b, activeEntry e m = .ok b ∧ (b = true ↔ m.Active p) := by
  have hs := seat_of_entry he
  obtain ⟨b, hb⟩ := h.enabled p hp _ hs
  obtain ⟨c, hc⟩ := h.retired p hp _ hs
  refine ⟨b && !c, ?_, ?_⟩
  · have hen : e.enabled.get m.store.trail = .ok b := BoolRef.get_bit hb
    have hre : e.retired.get m.store.trail = .ok c := BoolRef.get_bit hc
    rw [Model.activeEntry, hen, hre]
    cases b <;> rfl
  · constructor
    · intro hbc
      obtain ⟨rfl, rfl⟩ : b = true ∧ c = false := by simpa using hbc
      exact ⟨_, hs, hb, hc⟩
    · rintro ⟨s, hs', hb', hc'⟩
      obtain rfl := Option.some.inj (hs.symm.trans hs')
      have h₁ := bit_inj (Option.some.inj (hb.symm.trans hb'))
      have h₂ := bit_inj (Option.some.inj (hc.symm.trans hc'))
      rw [h₁, h₂]
      rfl

theorem Valid.activeEntry (hm : m.Valid) {e : Entry π} (he : m.entries[p]? = some e) :
    ∃ b, Model.activeEntry e m = .ok b ∧ (b = true ↔ m.Active p) :=
  hm.now.activeEntry he (Array.getElem?_eq_some_iff.1 he).1

/-- `isActive` on a live propagator answers `Active`. -/
theorem Valid.isActive_live (hm : m.Valid) (hsize : m.entries.size = m.count) {p : PropagatorId}
    (hp : p.id < m.count) : ∃ b, m.isActive p = .ok b ∧ (b = true ↔ m.Active p.id) := by
  have he : m.entries[p.id]? = some m.entries[p.id] := Array.getElem?_eq_getElem (hsize ▸ hp)
  obtain ⟨b, hb, hactive⟩ := hm.activeEntry he
  refine ⟨b, ?_, hactive⟩
  rw [isActive, entry, hm.propagatorCount_eq, if_pos hp, Checked.fetch_eq_ok.2 he]
  exact hb

theorem Valid.isActive_dead (hm : m.Valid) {p : PropagatorId} (hp : ¬p.id < m.count) :
    m.isActive p = .error (.violation (.deadPropagator p)) := by
  rw [isActive, entry, hm.propagatorCount_eq, if_neg hp]
  rfl

theorem Valid.isActive_eq_true (hm : m.Valid) (hsize : m.entries.size = m.count)
    {p : PropagatorId} : m.isActive p = .ok true ↔ p.id < m.count ∧ m.Active p.id := by
  by_cases hp : p.id < m.count
  · obtain ⟨b, hb, hactive⟩ := hm.isActive_live hsize hp
    rw [hb, and_iff_right hp, ← hactive, Except.ok.injEq]
  · rw [hm.isActive_dead hp]
    exact iff_of_false nofun fun h => hp h.1

theorem isActive_congr (hm : m.Valid) (hm' : m'.Valid) (hsize : m.entries.size = m.count)
    (hsize' : m'.entries.size = m'.count) (hcount : m'.count = m.count)
    (hactive : ∀ p < m.count, m'.Active p ↔ m.Active p) (p : PropagatorId) :
    m'.isActive p = m.isActive p := by
  by_cases hp : p.id < m.count
  · obtain ⟨b, hb, hact⟩ := hm.isActive_live hsize hp
    obtain ⟨b', hb', hact'⟩ := hm'.isActive_live hsize' (hcount ▸ hp)
    rw [hb, hb', Except.ok.injEq]
    exact Bool.eq_iff_iff.2 (hact'.trans ((hactive _ hp).trans hact.symm))
  · rw [hm.isActive_dead hp, hm'.isActive_dead (hcount ▸ hp)]

end

end Model

end Propagation
