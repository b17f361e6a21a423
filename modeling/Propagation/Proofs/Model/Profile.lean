import Propagation.Proofs.Filter.Constraint
import Propagation.Proofs.Model.Flags

/-!
# Constraints of a model

The profile of a level (`Profile`) is its domains and the constraints that are to hold of them.
`Model.Wired` is the invariant by which the engine runs the constraints: the monitors track the
logs, there is a subscription for each watch, and a constraint is not alive in a level in which one
of its variables is dead.
-/

set_option autoImplicit false

namespace Propagation

open Update

/-! ## Constraints and time -/

/-- The logs of the variables alive in `s` have grown, or all logs have been cleared. -/
structure Store.Later (s s' : Store) : Prop where
  epoch : s.epoch ≤ s'.epoch
  log : s'.epoch = s.epoch → ∀ v, s.scene v ≠ none → s.logOf v <+: s'.logOf v

theorem Store.Extends.later {s s' : Store} (h : s.Extends s') : s.Later s' where
  epoch := h.epoch.ge
  log _ := h.log

theorem Store.later_of_lt {s s' : Store} (h : s.epoch < s'.epoch) : s.Later s' where
  epoch := h.le
  log heq := absurd heq h.ne'

namespace Constraint

variable {ν : Type} {c : Constraint} {p : PropagatorId} {s s' : Store} {v : Var} {mask : Mask}

/-- `Tracks` is kept while the watched variables are alive and the logs are later ones. -/
theorem Tracks.later (h : c.Tracks s) (hc : c.Formed p)
    (hlive : ∀ x ∈ c.watches, s.scene x.1 ≠ none) (hl : s.Later s') : c.Tracks s' := by
  cases c with
  | notEqual c => trivial
  | graphChannel c =>
    intro k m hm
    obtain ⟨hw, -⟩ := GraphChannel.Formed.monitor hc k m hm
    rw [← GraphChannel.getElem?_watches, Option.map_eq_some_iff] at hw
    obtain ⟨x, hx, hvar⟩ := hw
    have hv : s.scene m.var ≠ none := hvar ▸ hlive x (List.mem_of_getElem? hx)
    exact (h k m hm).later hl.epoch fun heq => hl.log heq m.var hv

/-- The constraint `c` after it has been posted as `p`, without its monitors. -/
def postedAs (c : Constraint) (p : PropagatorId) : Constraint :=
  match c with
  | .notEqual c => .notEqual { c with cause := .propagator p }
  | .graphChannel c => .graphChannel { c.bare with cause := .propagator p }

theorem distinct_postedAs : (c.postedAs p).Distinct ↔ c.Distinct := by cases c <;> rfl

theorem watches_bare (c : Constraint) : c.bare.watches = c.watches := by cases c <;> rfl

/-- After `initialise` the constraint is `postedAs p`, its monitors track any store, and the watches
of the setup are its own. -/
theorem of_initialise {setup : Setup ν Constraint}
    (h : Propagator.initialise c p s = .ok setup) :
    setup.propagator.bare = c.postedAs p ∧ setup.propagator.Formed p ∧
      (∀ s, setup.propagator.Tracks s) ∧ setup.watches = setup.propagator.watches := by
  cases c with
  | notEqual c =>
    cases h
    exact ⟨rfl, rfl, fun _ => trivial, rfl⟩
  | graphChannel c =>
    obtain ⟨u, hu, h⟩ := Checked.exists_of_bind_eq_ok h
    cases h
    obtain ⟨n, -, hu⟩ := Checked.exists_of_bind_eq_ok hu
    split at hu
    · cases hu
      exact ⟨rfl, c.formed_posted p, c.tracks_posted p, rfl⟩
    · cases hu

/-- `Constraint.of_initialise` in a model with other propagators beside the constraints. -/
theorem of_initialise_inl {π : Type} [Propagator ν π] {x : Constraint ⊕ π}
    {setup : Setup ν (Constraint ⊕ π)} (h : Propagator.initialise x p s = .ok setup)
    (hc : setup.propagator = .inl c) : ∃ c₀, x = .inl c₀ ∧ c.bare = c₀.postedAs p ∧ c.Formed p ∧
      (∀ s, c.Tracks s) ∧ setup.watches = c.watches := by
  cases x with
  | inl c₀ =>
    obtain ⟨u, hu, h⟩ := Checked.exists_of_bind_eq_ok h
    cases h
    cases hc
    exact ⟨c₀, rfl, of_initialise hu⟩
  | inr x =>
    obtain ⟨u, hu, h⟩ := Checked.exists_of_bind_eq_ok h
    cases h
    cases hc

end Constraint

/-! ## Profiles -/

/-- The part of a level that posting and narrowing depend on: the number of variables and their
domains, the number of propagators, the constraints among them (`posed`, without monitors), and
which are `enabled`. -/
structure Profile where
  vars : Nat
  scene : Scene
  count : Nat
  posed : Nat → Option Constraint
  enabled : Nat → Prop

/-- The scene `G` is stable for every enabled constraint of `P`. -/
def Profile.Demands (P : Profile) (G : Scene) : Prop :=
  ∀ p c, P.posed p = some c → P.enabled p → c.Stable G

namespace Model

/-- The propagator at the index `p`. -/
def propagatorAt {ν π : Type} (m : Model ν π) (p : Nat) : Option π :=
  (m.entries[p]?).map Entry.propagator

variable {ν π : Type} {m m' : Model ν (Constraint ⊕ π)} {p : Nat} {c c' : Constraint} {w : View}

/-- The propagator at the index `p` is the constraint `c`. -/
def Poses (m : Model ν (Constraint ⊕ π)) (p : Nat) (c : Constraint) : Prop :=
  m.propagatorAt p = some (.inl c)

/-- The constraint at the index `p`, without its monitors. -/
def bareAt (m : Model ν (Constraint ⊕ π)) (p : Nat) : Option Constraint :=
  (m.propagatorAt p).bind fun x => x.elim (fun c => some c.bare) fun _ => none

theorem Poses.bareAt (h : m.Poses p c) : m.bareAt p = some c.bare := by
  rw [Model.bareAt, h]
  rfl

theorem exists_of_bareAt {b : Constraint} (h : m.bareAt p = some b) :
    ∃ c, m.Poses p c ∧ c.bare = b := by
  obtain ⟨x, hx, h⟩ := Option.bind_eq_some_iff.1 h
  cases x with
  | inl c => exact ⟨c, hx, Option.some.inj h⟩
  | inr x => cases h

theorem poses_of_entry {e : Entry (Constraint ⊕ π)} (he : m.entries[p]? = some e) :
    m.Poses p c ↔ e.propagator = .inl c := by
  rw [Poses, propagatorAt, he, Option.map_some, Option.some.injEq]

theorem Poses.entry (h : m.Poses p c) :
    ∃ e, m.entries[p]? = some e ∧ e.propagator = .inl c :=
  Option.map_eq_some_iff.1 h

theorem Poses.lt (h : m.Poses p c) : p < m.entries.size := by
  obtain ⟨e, he, -⟩ := h.entry
  exact (Array.getElem?_eq_some_iff.1 he).1

/-- The profile of the level with the view `w`. -/
def profileIn (m : Model ν (Constraint ⊕ π)) (w : View) : Profile where
  vars := m.store.countIn w
  scene := m.store.sceneIn w
  count := m.countIn w
  posed p := if p < m.countIn w then m.bareAt p else none
  enabled p := p < m.countIn w ∧ m.FlagIn w (.enabled p) true

/-- The profile of the innermost level. -/
def profile (m : Model ν (Constraint ⊕ π)) : Profile := m.profileIn m.store.trail.view

/-- The profiles of the levels that closing gives back, innermost first. -/
def levels (m : Model ν (Constraint ⊕ π)) : List Profile :=
  m.store.trail.past.map fun x => m.profileIn x.2

/-- `Demands` by the constraints that are posted and enabled at `w`. -/
theorem demands_iff {G : Scene} : (m.profileIn w).Demands G ↔
    ∀ p c, p < m.countIn w → m.Poses p c → m.FlagIn w (.enabled p) true → c.Stable G := by
  constructor
  · intro h p c hp hc he
    have hposed : (m.profileIn w).posed p = some c.bare := (if_pos hp).trans hc.bareAt
    exact Constraint.stable_of_bare c.bare_bare ▸ h p _ hposed ⟨hp, he⟩
  · intro h p b hb ⟨hp, he⟩
    obtain ⟨c, hc, rfl⟩ := exists_of_bareAt ((if_pos hp).symm.trans hb)
    rw [Constraint.stable_of_bare c.bare_bare]
    exact h p c hp hc he

/-- A step of the model keeps the scene of each outer level. -/
theorem Evolves.sceneIn (h : m.Evolves m') {x : Nat × View} (hx : x ∈ m.store.trail.past) :
    m'.store.sceneIn x.2 = m.store.sceneIn x.2 := by
  have hsaved := h.saved
  rw [Store.saved, Store.saved, h.past, List.map_inj_left] at hsaved
  exact congrArg Prod.snd (hsaved x hx)

theorem Evolves.countIn (h : m.Evolves m') (w : View) : m'.countIn w = m.countIn w := by
  rw [Model.countIn, Model.countIn, h.alive]

theorem Evolves.storeCountIn (h : m.Evolves m') (w : View) :
    m'.store.countIn w = m.store.countIn w := by
  rw [Store.countIn, Store.countIn, h.vars]

theorem profileIn_congr {w' : View} (hvars : m'.store.countIn w' = m.store.countIn w)
    (hscene : m'.store.sceneIn w' = m.store.sceneIn w) (hcount : m'.countIn w' = m.countIn w)
    (hposed : ∀ p < m.countIn w, m'.bareAt p = m.bareAt p)
    (henabled : ∀ p < m.countIn w,
      m'.FlagIn w' (.enabled p) true ↔ m.FlagIn w (.enabled p) true) :
    m'.profileIn w' = m.profileIn w := by
  have hbare : (m'.profileIn w').posed = (m.profileIn w).posed := by
    funext p
    show (if p < m'.countIn w' then _ else _) = if p < m.countIn w then _ else _
    rw [hcount]
    split
    · next hp => exact hposed p hp
    · rfl
  have hflag : (m'.profileIn w').enabled = (m.profileIn w).enabled := by
    funext p
    refine propext ?_
    show p < m'.countIn w' ∧ _ ↔ p < m.countIn w ∧ _
    rw [hcount]
    exact and_congr_right fun hp => henabled p hp
  have hall : ∀ {P Q : Profile}, P.vars = Q.vars → P.scene = Q.scene → P.count = Q.count →
      P.posed = Q.posed → P.enabled = Q.enabled → P = Q := by
    rintro ⟨⟩ ⟨⟩ rfl rfl rfl rfl rfl
    rfl
  exact hall hvars hscene hcount hbare hflag

/-- A step of the model that keeps the constraints keeps the profiles of the outer levels. -/
theorem Evolves.levels (h : m.Evolves m') (hm : m.Valid)
    (hbare : ∀ p < m.count, m'.bareAt p = m.bareAt p) : m'.levels = m.levels := by
  rw [Model.levels, Model.levels, h.past]
  refine List.map_congr_left fun x hx => ?_
  have hle := hm.countIn_past hx
  exact profileIn_congr (h.storeCountIn _) (h.sceneIn hx) (h.countIn _)
    (fun p hp => hbare p (hp.trans_le hle))
    fun p hp => flagIn_of_seat (p := p) rfl (h.seat p (hp.trans_le hle))

/-! ## Wiring -/

/-- The current view of the trail, followed by those at which the open levels were opened. -/
def views (m : Model ν (Constraint ⊕ π)) : List View :=
  m.store.trail.view :: m.store.trail.past.map (·.2)

/-- The constraint `c` at `p` is `Formed`, tracks the logs and has a subscription for each watch,
and in every view in which it is alive, so are its variables. -/
structure Wiring (m : Model ν (Constraint ⊕ π)) (p : Nat) (c : Constraint) : Prop where
  formed : c.Formed ⟨p⟩
  tracks : c.Tracks m.store
  row : ∀ k v mask, c.watches[k]? = some (v, mask) → ⟨⟨p⟩, k, mask⟩ ∈ m.row v
  live : ∀ w ∈ m.views, p < m.countIn w → ∀ x ∈ c.watches, x.1.id < m.store.countIn w

def Wired (m : Model ν (Constraint ⊕ π)) : Prop := ∀ p c, m.Poses p c → m.Wiring p c

theorem Wiring.scene_ne_none (h : m.Wiring p c) (hm : m.Valid) (hp : p < m.count) :
    ∀ x ∈ c.watches, m.store.scene x.1 ≠ none := fun x hx =>
  (hm.store.ne_none_iff _).2 (h.live _ List.mem_cons_self hp x hx)

/-- `Wiring` is kept by a step that changes at most the monitors of the constraint, from `c` to
`c'`. -/
theorem Wiring.evolves (h : m.Wiring p c) (hm : m.Valid) (hp : p < m.count) (hev : m.Evolves m')
    (hbare : c'.bare = c.bare) (hformed : c'.Formed ⟨p⟩) (htracks : c'.Tracks m'.store) :
    m'.Wiring p c' where
  formed := hformed
  tracks := htracks
  row k v mask hk := by
    rw [Constraint.watches_of_bare hbare] at hk
    have hv := h.scene_ne_none hm hp _ (List.mem_of_getElem? hk)
    have hmem : (⟨⟨p⟩, k, mask⟩ : Subscription) ∈
        (m.row v).filter (·.propagator.id < m.count) :=
      List.mem_filter.2 ⟨h.row k v mask hk, decide_eq_true hp⟩
    rw [← hev.row v hv] at hmem
    exact List.mem_of_mem_filter hmem
  live w hw hpw x hx := by
    rw [Constraint.watches_of_bare hbare] at hx
    rcases List.mem_cons.1 hw with rfl | hw
    · have hle := hev.varCount_le hm
      rw [hm.store.varCount_eq, hev.valid.store.varCount_eq] at hle
      exact (h.live _ List.mem_cons_self hp x hx).trans_le hle
    · rw [hev.past] at hw
      rw [hev.countIn] at hpw
      rw [hev.storeCountIn]
      exact h.live w (List.mem_cons_of_mem _ hw) hpw x hx

/-- `Wired` is kept by a step that leaves all propagators as they are. -/
theorem Wired.later (h : m.Wired) (hm : m.Valid) (ht : m.Tidy) (hev : m.Evolves m')
    (hsame : ∀ p, m'.propagatorAt p = m.propagatorAt p) (hl : m.store.Later m'.store) :
    m'.Wired := by
  intro p c hc
  have hold : m.Poses p c := (hsame p).symm.trans hc
  have hp : p < m.count := ht.size ▸ hold.lt
  have hw := h p c hold
  exact hw.evolves hm hp hev rfl hw.formed
    (hw.tracks.later hw.formed (hw.scene_ne_none hm hp) hl)

/-- Closing levels keeps the propagators that were alive at `w`. -/
theorem Reverted.propagatorAt {older : List (Nat × View)} (h : m.Reverted w older m')
    (hle : m.countIn w ≤ m.entries.size) (p : Nat) :
    m'.propagatorAt p = if p < m.countIn w then m.propagatorAt p else none := by
  rw [Model.propagatorAt, Model.propagatorAt]
  split
  · next hp =>
    have he := Array.getElem?_eq_getElem (hp.trans_le hle)
    obtain ⟨hwake, hsleep⟩ := h.entry p hp _ he
    by_cases hwork : m.workAt older.length = true ∧ m.ActiveIn w p
    · rw [hwake hwork, he]
      rfl
    · rw [hsleep hwork, he]
      rfl
  · next hp => rw [Array.getElem?_eq_none (by rw [h.size]; omega), Option.map_none]

theorem Wired.reverted {newer older : List (Nat × View)} {k : Nat} (h : m.Wired) (hm : m.Valid)
    (hpast : m.store.trail.past = newer ++ (k, w) :: older) (hr : m.Reverted w older m') :
    m'.Wired := by
  intro p c hc
  have hw : (k, w) ∈ m.store.trail.past := by rw [hpast]; simp
  have hold := hr.propagatorAt ((hm.past _ hw).countIn_eq).2.2 p
  rw [hc] at hold
  by_cases hp : p < m.countIn w
  · rw [if_pos hp] at hold
    have hwire := h p c hold.symm
    have hmem : ∀ w' ∈ m'.views, w' ∈ m.views := by
      intro w' hw'
      refine List.mem_cons_of_mem _ ?_
      rw [hpast, List.map_append, List.map_cons]
      refine List.mem_append_right _ ?_
      rwa [views, hr.store.view, hr.store.past] at hw'
    have hlive := hwire.live w (List.mem_cons_of_mem _ (List.mem_map_of_mem hw)) hp
    refine ⟨hwire.formed, ?_, fun i v mask hi => ?_, fun w' hw' hp' x hx => ?_⟩
    · refine hwire.tracks.later hwire.formed (hwire.scene_ne_none hm (hp.trans_le
        (hm.countIn_past hw))) (Store.later_of_lt ?_)
      rw [hr.store.epoch]
      exact Nat.lt_succ_self _
    · rw [hr.row, if_pos (hlive _ (List.mem_of_getElem? hi))]
      exact List.mem_filter.2 ⟨hwire.row i v mask hi, decide_eq_true hp⟩
    · rw [Store.countIn, hr.store.alive]
      refine hwire.live w' (hmem w' hw') ?_ x hx
      rwa [Model.countIn, hr.alive] at hp'
  · rw [if_neg hp] at hold
    cases hold

theorem views_save (hm : m.Valid) : m.save.views = m.store.trail.view :: m.views := by
  show m.store.trail.save.view :: m.store.trail.save.past.map (·.2) = _
  rw [Trail.past_save hm.store.trail.sound]
  rfl

theorem Wired.save (h : m.Wired) (hm : m.Valid) : m.save.Wired := by
  intro p c hc
  have hw := h p c hc
  have htracks : c.Tracks m.save.store := by
    cases c with
    | notEqual c => trivial
    | graphChannel c => exact hw.tracks
  refine ⟨hw.formed, htracks, hw.row, fun w hwv hp x hx => hw.live w ?_ hp x hx⟩
  rw [views_save hm] at hwv
  rcases List.mem_cons.1 hwv with rfl | hwv
  · exact List.mem_cons_self
  · exact hwv

section
variable [Propagator ν π]

theorem Posted.propagatorAt {setup : Setup ν (Constraint ⊕ π)} (h : m.Posted setup m')
    (hm : m.Valid) (p : Nat) : m'.propagatorAt p = if p = m.count then some setup.propagator
      else if p < m.count then m.propagatorAt p else none := by
  rw [Model.propagatorAt, h.getElem?_entries hm]
  split
  · rfl
  · split <;> rfl

theorem Wired.posted {x : Constraint ⊕ π} {setup : Setup ν (Constraint ⊕ π)} (h : m.Wired)
    (hm : m.Valid) (hinit : Propagator.initialise x ⟨m.count⟩ m.store = .ok setup)
    (hpost : m.Posted setup m') : m'.Wired := by
  intro p c hc
  have hat := hpost.propagatorAt hm p
  rw [hc] at hat
  obtain ⟨t, hstore, hwide, -⟩ := hpost.store
  by_cases hp : p = m.count
  · subst hp
    rw [if_pos rfl, Option.some.injEq] at hat
    obtain ⟨-, -, -, hformed, htracks, hwatches⟩ := Constraint.of_initialise_inl hinit hat.symm
    refine ⟨hformed, htracks _, fun k v mask hk => ?_, fun w hw hp x hx => ?_⟩
    · rw [hpost.row, List.mem_append, mem_watching]
      exact .inr ⟨rfl, k, hwatches ▸ hk, (Nat.zero_add k).symm⟩
    · rcases List.mem_cons.1 hw with rfl | hw
      · rw [← hpost.evolves.valid.store.varCount_eq, hpost.varCount_eq hm]
        exact hpost.watches x (hwatches ▸ hx)
      · -- at an outer level the propagator was not there
        rw [hpost.evolves.past] at hw
        obtain ⟨y, hy, rfl⟩ := List.mem_map.1 hw
        rw [hpost.evolves.countIn] at hp
        exact absurd (hm.countIn_past hy) (Nat.not_le.2 hp)
  · rw [if_neg hp] at hat
    by_cases hlt : p < m.count
    · rw [if_pos hlt] at hat
      have hw := h p c hat.symm
      refine hw.evolves hm hlt hpost.evolves rfl hw.formed
        (hw.tracks.later hw.formed (hw.scene_ne_none hm hlt) ?_)
      rw [hstore]
      exact ⟨Nat.le_refl _, fun _ _ _ => List.prefix_refl _⟩
    · rw [if_neg hlt] at hat
      cases hat

end

theorem wired_empty : (empty : Model ν (Constraint ⊕ π)).Wired := by
  intro p c hc
  obtain ⟨e, he, -⟩ := hc.entry
  cases he

end Model

end Propagation
