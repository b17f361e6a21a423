import Propagation.Proofs.Model.Does

/-!
# Flags

Whether a propagator is enabled, and whether it has been retired, are cells of the trail, so they
belong to a level as the domains do (`Model.FlagIn`). Narrowings and new variables leave all of them
alone (`Model.flag_of_store`), and setting one leaves the others (`Model.flag_of_set`).
-/

set_option autoImplicit false

namespace Propagation

/-- The index of the propagator whose flag has this role. -/
def Role.owner : Role → Option Nat
  | .enabled p => some p
  | .retired p => some p
  | _ => none

theorem Role.ne_vars_of_owner {r : Role} {p : Nat} (h : r.owner = some p) : r ≠ .vars := by
  rintro rfl
  cases h

namespace Model

variable {ν π : Type} {m m' : Model ν π} {w w' : View} {r r₀ : Role} {p : Nat} {b b₀ : Bool}

/-- The flag with the role `r` is `b` in the view `w`. -/
def FlagIn (m : Model ν π) (w : View) (r : Role) (b : Bool) : Prop :=
  ∃ i, m.cell r = some i ∧ w.int i = some (BoolRef.bit b)

/-- The flag with the role `r` is `b` in the innermost level. -/
def Flag (m : Model ν π) (r : Role) (b : Bool) : Prop := m.FlagIn m.store.trail.view r b

theorem FlagIn.unique (h : m.FlagIn w r b) (h' : m.FlagIn w r b₀) : b = b₀ := by
  obtain ⟨i, hi, hb⟩ := h
  obtain ⟨j, hj, hb'⟩ := h'
  cases hi.symm.trans hj
  exact bit_inj (Option.some.inj (hb.symm.trans hb'))

theorem activeIn_iff :
    m.ActiveIn w p ↔ m.FlagIn w (.enabled p) true ∧ m.FlagIn w (.retired p) false := by
  simp only [ActiveIn, FlagIn, cell, Option.map_eq_some_iff]
  constructor
  · rintro ⟨s, hs, he, hr⟩
    exact ⟨⟨_, ⟨s, hs, rfl⟩, he⟩, _, ⟨s, hs, rfl⟩, hr⟩
  · rintro ⟨⟨_, ⟨s, hs, rfl⟩, he⟩, _, ⟨s', hs', rfl⟩, hr⟩
    cases hs.symm.trans hs'
    exact ⟨s, hs, he, hr⟩

theorem active_iff : m.Active p ↔ m.Flag (.enabled p) true ∧ m.Flag (.retired p) false :=
  activeIn_iff

/-- Each of the `n` propagators of a view has both of its flags in it. -/
theorem Houses.flag {n : Nat} (h : m.Houses w n) (hp : p < n) (hp' : p < m.entries.size)
    (hr : r.owner = some p) : ∃ b, m.FlagIn w r b := by
  obtain ⟨s, hs⟩ := Option.ne_none_iff_exists'.1 (seat_lt_iff.2 hp')
  cases r with
  | vars => cases hr
  | props => cases hr
  | enabled q =>
    cases hr
    obtain ⟨b, hb⟩ := h.enabled p hp s hs
    exact ⟨b, _, cell_enabled hs, hb⟩
  | retired q =>
    cases hr
    obtain ⟨b, hb⟩ := h.retired p hp s hs
    exact ⟨b, _, cell_retired hs, hb⟩

/-- A propagator that is enabled in `w` and not active there is retired there. -/
theorem Houses.retired_of_not_active {n : Nat} (h : m.Houses w n) (hp : p < n)
    (hp' : p < m.entries.size) (he : m.FlagIn w (.enabled p) true) (hact : ¬m.ActiveIn w p) :
    m.FlagIn w (.retired p) true := by
  obtain ⟨b, hb⟩ := h.flag hp hp' (r := .retired p) rfl
  cases b with
  | true => exact hb
  | false => exact absurd (activeIn_iff.2 ⟨he, hb⟩) hact

/-- `BoolRef.get` on the cell of a role reads its `Flag`. -/
theorem Valid.get_iff (hm : m.Valid) {f : BoolRef} (hr : r.owner = some p)
    (hp : p < m.entries.size) (hf : m.cell r = some f.cell.index) :
    f.get m.store.trail = .ok b ↔ m.Flag r b := by
  obtain ⟨a, i, hi, hbit⟩ := hm.now.flag hp hp hr
  cases hf.symm.trans hi
  have hget : f.get m.store.trail = .ok a := BoolRef.get_bit hbit
  rw [hget, Except.ok.injEq]
  refine ⟨?_, fun h => FlagIn.unique ⟨_, hi, hbit⟩ h⟩
  rintro rfl
  exact ⟨_, hi, hbit⟩

/-- The cell `e.enabled` of an entry reads the flag `Role.enabled`. -/
theorem Valid.enabled_iff (hm : m.Valid) {e : Entry π} (he : m.entries[p]? = some e) :
    e.enabled.get m.store.trail = .ok b ↔ m.Flag (.enabled p) b :=
  hm.get_iff rfl (Array.getElem?_eq_some_iff.1 he).1 (cell_enabled (seat_of_entry he))

/-- The cell `e.retired` of an entry reads the flag `Role.retired`. -/
theorem Valid.retired_iff (hm : m.Valid) {e : Entry π} (he : m.entries[p]? = some e) :
    e.retired.get m.store.trail = .ok b ↔ m.Flag (.retired p) b :=
  hm.get_iff rfl (Array.getElem?_eq_some_iff.1 he).1 (cell_retired (seat_of_entry he))

/-! ## What leaves a flag alone -/

theorem cell_of_seat (hr : r.owner = some p) (h : m'.seat p = m.seat p) : m'.cell r = m.cell r := by
  cases r with
  | vars => cases hr
  | props => cases hr
  | enabled q =>
    cases hr
    exact congrArg (Option.map _) h
  | retired q =>
    cases hr
    exact congrArg (Option.map _) h

theorem flagIn_congr (hcell : m'.cell r = m.cell r)
    (hint : ∀ i, m.cell r = some i → w'.int i = w.int i) : m'.FlagIn w' r b ↔ m.FlagIn w r b := by
  rw [FlagIn, FlagIn, hcell]
  exact exists_congr fun i => and_congr_right fun hi => by rw [hint i hi]

theorem flagIn_of_seat (hr : r.owner = some p) (h : m'.seat p = m.seat p) :
    m'.FlagIn w r b ↔ m.FlagIn w r b :=
  flagIn_congr (cell_of_seat hr h) fun _ _ => rfl

/-- A step of the store leaves all flags of propagators as they are. -/
theorem flag_of_store (hm : m.Valid) (hr : r.owner = some p) (hseat : m'.seat p = m.seat p)
    (h : m.store.Evolves m'.store) : m'.Flag r b ↔ m.Flag r b :=
  flagIn_congr (cell_of_seat hr hseat) fun i hi =>
    h.ints i (hm.ne_vars (Role.ne_vars_of_owner hr) hi)

/-- Writing the cell of the role `r₀` sets its flag and no other. -/
theorem flag_of_set (hm : m.Valid) (hr : r.owner = some p) (hseat : m'.seat p = m.seat p) {i : Nat}
    (hi : m.cell r₀ = some i)
    (hview : m'.store.trail.view = m.store.trail.view.setInt i (BoolRef.bit b₀)) :
    m'.Flag r b ↔ if r = r₀ then b = b₀ else m.Flag r b := by
  rw [Flag, Flag, hview]
  split
  · next heq =>
    subst heq
    rw [FlagIn, cell_of_seat hr hseat, hi]
    constructor
    · rintro ⟨j, hj, hb⟩
      cases hj
      rw [View.setInt_self] at hb
      exact (bit_inj (Option.some.inj hb)).symm
    · rintro rfl
      exact ⟨i, rfl, View.setInt_self _ _ _⟩
  · next hne =>
    refine flagIn_congr (cell_of_seat hr hseat) fun j hj => View.setInt_of_ne _ _ ?_
    rintro rfl
    exact hne (hm.apart _ _ _ hj hi)

/-! ## Posting -/

section
variable [Propagator ν π] {setup : Setup ν π}

/-- A post leaves the flags of the propagators before it as they are. -/
theorem Posted.flag (h : m.Posted setup m') (hm : m.Valid) (hr : r.owner = some p)
    (hp : p < m.count) : m'.Flag r b ↔ m.Flag r b := by
  obtain ⟨t, hstore, -, hview⟩ := h.store
  refine flagIn_congr (cell_of_seat hr (h.evolves.seat p hp)) fun i hi => ?_
  have hlt := hm.cell_lt hi
  rw [hstore]
  show t.view.int i = _
  rw [hview, View.setInt_of_ne, View.setInt_of_ne _ _ (by omega), View.setInt_of_ne _ _ (by omega)]
  refine hm.ne_propagators ?_ hi
  rintro rfl
  cases hr

/-- The propagator of a post is enabled and not retired. -/
theorem Posted.flag_new (h : m.Posted setup m') (hm : m.Valid) :
    m'.Flag (.enabled m.count) true ∧ m'.Flag (.retired m.count) false := by
  obtain ⟨t, hstore, -, hview⟩ := h.store
  have hseat : m'.seat m.count =
      some (newEntry ν setup.propagator m.store.trail.cells.size).seat := by
    rw [seat, h.getElem?_entries hm, if_pos rfl]
    rfl
  have halive : m.alive.index < m.store.trail.cells.size := hm.cell_lt (r := .props) rfl
  have htrail : m'.store.trail = t := by rw [hstore]
  refine ⟨⟨_, cell_enabled hseat, ?_⟩, _, cell_retired hseat, ?_⟩ <;> rw [htrail, hview]
  · show View.int _ m.store.trail.cells.size = _
    rw [View.setInt_of_ne _ _ (by omega), View.setInt_of_ne _ _ (by omega), View.setInt_self]
  · show View.int _ (m.store.trail.cells.size + 1) = _
    rw [View.setInt_of_ne _ _ (by omega), View.setInt_self]

end

end Model

end Propagation
