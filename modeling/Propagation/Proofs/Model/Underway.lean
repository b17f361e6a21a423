import Propagation.Proofs.Model.Profile

/-!
# Propagations under way

The inversion of `execute` (`Valid.execute_runs`), and the invariant of the rounds of a propagation
(`Model.Underway`): they change no flags but those of propagators that are retired, and of the
constraints only the monitors. So `Model.Wired` is kept by any calls that do not fault
(`Model.Wired.does`).
-/

set_option autoImplicit false

namespace Propagation

open Update Store

namespace Model

section
variable {ν π : Type} [Propagator ν π] {m m' : Model ν π} {p : PropagatorId} {e : Entry π}

/-! ## Running -/

/-- The model after `retire p`: at most the retired flag of `p` has been set, and then `entailment`
was `entailed`. -/
structure Judged (m : Model ν π) (p : PropagatorId) (e : Entry π) (m' : Model ν π) : Prop where
  evolves : m.Evolves m'
  same : m.store.Same m'.store
  entries : m'.entries = m.entries
  flag : ∀ q r b, r.owner = some q → r ≠ .retired p.id → (m'.Flag r b ↔ m.Flag r b)
  retired : m'.Flag (.retired p.id) true →
    m.Flag (.retired p.id) true ∨ Propagator.entailment ν e.propagator m.store = .ok .entailed

theorem Valid.retire_judges (hm : m.Valid) (he : m.entries[p.id]? = some e) :
    Ends (retire p : Op ν π Unit) m (fun _ m' => m.Judged p e m')
      fun f _ => Propagator.entailment ν e.propagator m.store = .error f := by
  refine (hm.retire_ends he).mono (fun _ m' ⟨a, hent, hnot, hyes⟩ => ?_) fun _ _ h => h.2
  by_cases ha : a = .entailed
  · obtain ⟨hev, t, hwide, hview, rfl⟩ := hyes ha
    obtain ⟨-, hscene, -⟩ := hwide.valid hm.store
    refine ⟨hev, ⟨hscene, rfl, rfl, rfl⟩, rfl, fun q r b hr hne => ?_, fun _ => .inr (ha ▸ hent)⟩
    refine Iff.trans (flag_of_set hm hr ?_ (cell_retired (seat_of_entry he)) hview)
      (by rw [if_neg hne])
    rfl
  · rw [hnot ha]
    exact ⟨hm.evolves_self, same_self _, rfl, fun _ _ _ _ _ => Iff.rfl, .inl⟩

omit [Propagator ν π] in
/-- Flags only depend on the `seat` of an entry. -/
theorem flag_modify {f : Entry π → Entry π} (hf : ∀ e, (f e).seat = e.seat) {q : Nat} {r : Role}
    {b : Bool} (hr : r.owner = some q) :
    ({ m with entries := m.entries.modify p.id f } : Model ν π).Flag r b ↔ m.Flag r b :=
  flagIn_congr (cell_of_seat hr (congrFun (seat_of_core (core_mapEntry hf p m)) q)) fun _ _ => rfl

/-- The action of an entry leaves a store that `Evolves`, however it ends. -/
theorem Valid.job_evolves (hm : m.Valid) (p : PropagatorId) (e : Entry π) :
    Ends (job ν e).run (m.desk p e) (fun _ w => m.store.Evolves w.store)
      fun _ w => m.store.Evolves w.store := by
  have hdesk := hm.store.evolves_aside m.store.sink (some p)
  exact ((job ν e).run_evolves (w := m.desk p e) hdesk.valid).mono
    (fun _ _ h => hdesk.trans h) fun _ _ h => hdesk.trans h

/-- `execute p` runs an active propagator and calls `retire p`, and makes the entry of any other
idle. -/
theorem Valid.execute_runs (hm : m.Valid) (he : m.entries[p.id]? = some e) :
    Ends (execute p : Attempt ν π Unit) m
      (fun _ m' => (¬m.Active p.id ∧ m' = { m with entries := m.entries.modify p.id Entry.idle }) ∨
        m.Active p.id ∧ ∃ w, (job ν e).run (m.desk p e) = .ok () w ∧
          (m.ran p e w none).Judged p { e.idle with propagator := w.own } m')
      fun f m' => m.Active p.id ∧ ∃ w, match f with
        | .contradiction _ => (job ν e).run (m.desk p e) = .error f w ∧ m' = m.ran p e w none
        | .fault g => (job ν e).run (m.desk p e) = .error f w ∨
          (job ν e).run (m.desk p e) = .ok () w ∧
            Propagator.entailment ν w.own { w.store with running := none } = .error g := by
  obtain ⟨b, hb, hact⟩ := hm.activeEntry he
  cases b with
  | false =>
    exact ends_of_ok (execute_inactive he hb) (.inl ⟨mt hact.2 Bool.false_ne_true, rfl⟩)
  | true =>
    have hrun := execute_active (m := m) he hb
    cases hjob : (job ν e).run (m.desk p e) with
    | ok _ w =>
      rw [hjob] at hrun
      have h := executed_ran hm he ((hm.job_evolves p e).of_ok hjob) none
      have hentry : (m.ran p e w none).entries[p.id]? = some { e.idle with propagator := w.own } := by
        show (m.entries.setIfInBounds p.id _)[p.id]? = _
        rw [Array.getElem?_setIfInBounds, if_pos rfl, if_pos (Array.getElem?_eq_some_iff.1 he).1]
      refine (Ends.mapError ((h.evolves.valid.retire_judges hentry).mono (fun _ _ h => ?_)
        fun _ _ h => ?_)).of_eq hrun
      · exact .inr ⟨hact.1 rfl, w, rfl, h⟩
      · exact ⟨hact.1 rfl, w, .inr ⟨rfl, h⟩⟩
    | error f w =>
      rw [hjob] at hrun
      cases f with
      | contradiction c => exact ends_of_error hrun ⟨hact.1 rfl, w, rfl, rfl⟩
      | fault f => exact ends_of_error hrun ⟨hact.1 rfl, w, .inl rfl⟩

/-! ## One round -/

/-- `Executed`, with the store extended and no flag changed but the retired flag of `p`. -/
structure Worked (m : Model ν π) (p : PropagatorId) (m' : Model ν π) : Prop where
  executed : m.Executed p m'
  grown : m.store.Extends m'.store
  flag : ∀ q r b, r.owner = some q → r ≠ .retired p.id → (m'.Flag r b ↔ m.Flag r b)

theorem Valid.flag_ran (hm : m.Valid) (he : m.entries[p.id]? = some e) {w : Workspace ν π}
    (hw : m.store.Evolves w.store) {q : Nat} {r : Role} {b : Bool} (hr : r.owner = some q) :
    (m.ran p e w none).Flag r b ↔ m.Flag r b := by
  have hstore : m.store.Evolves { w.store with running := none } :=
    hw.trans (hw.valid.evolves_aside w.store.sink none)
  refine flag_of_store hm hr ?_ hstore
  show ((m.entries.setIfInBounds p.id _)[q]?).map Entry.seat = _
  rw [Array.getElem?_setIfInBounds, seat]
  split
  · next hq =>
    subst hq
    rw [he, if_pos (Array.getElem?_eq_some_iff.1 he).1]
    rfl
  · rfl

theorem Valid.execute_works (hm : m.Valid) (he : m.entries[p.id]? = some e) :
    Ends (execute p : Attempt ν π Unit) m (fun _ m' => m.Worked p m')
      fun f m' => ∀ x, f = .contradiction x → m.Worked p m' := by
  have hevolves := hm.job_evolves p e
  have hextends := (job ν e).run_extends (w := m.desk p e)
    (hm.store.evolves_aside m.store.sink (some p)).valid
  have hran : ∀ {w : Workspace ν π}, m.store.Evolves w.store →
      (m.desk p e).store.Extends w.store → m.Worked p (m.ran p e w none) := by
    intro w hev hext
    exact ⟨executed_ran hm he hev none, ⟨(executed_ran hm he hev none).evolves.valid.store,
      hext.epoch, hext.live, hext.log⟩, fun q r b hr _ => hm.flag_ran he hev hr⟩
  have hexec := hm.execute_ends he
  have hruns := hm.execute_runs he
  cases hx : execute p m with
  | ok a m' =>
    refine ends_of_ok hx ?_
    rcases hruns.of_ok hx with ⟨-, rfl⟩ | ⟨-, w, hw, hj⟩
    · exact ⟨hexec.of_ok hx, hm.store.extends_self,
        fun q r b hr _ => flag_modify (f := Entry.idle) (fun _ => rfl) hr⟩
    · have h := hran (hevolves.of_ok hw) (hextends.of_ok hw)
      have hs := hj.same
      refine ⟨hexec.of_ok hx, h.grown.trans ⟨hj.evolves.valid.store, hs.epoch, ?_, ?_⟩,
        fun q r b hr hne => (hj.flag q r b hr hne).trans (h.flag q r b hr hne)⟩
      · rw [hs.scene]
        exact fun _ h => h
      · rw [hs.log]
        exact fun _ _ => List.prefix_refl _
  | error f m' =>
    refine ends_of_error hx ?_
    rintro x rfl
    obtain ⟨-, w, hw, rfl⟩ := hruns.of_error hx
    exact hran (hevolves.of_error hw) (hextends.of_error hw x rfl)

end

/-! ## Constraints -/

section
variable {ν π : Type} [Propagator ν π] {m m' m₁ : Model ν (Constraint ⊕ π)} {p : PropagatorId}
  {e : Entry (Constraint ⊕ π)} {c c' : Constraint} {P : Scene → Prop} {fit : Prop}

/-- The action of a constraint takes nothing from the scenes that are stable for it, and leaves it
covered by the pending indices other than those of `e`. -/
theorem job_ends (hs : m.store.Valid) (hown : e.propagator = .inl c) (hc : c.Formed p)
    (ht : c.Tracks m.store) (hP : ∀ G, P G → c.Stable G)
    (hfit : fit → c.Fits m.store.scene ∧ ∀ x ∈ e.pending, x.1 < c.watches.length) :
    Ends (job ν e).run (m.desk p e)
      (fun _ w => ∃ c', c.Kept p w c' ∧ Advance P m.store (.propagator p) w.store ∧
        (c.Distinct → ∀ todo, e.coarse = true ∨ c.Covered m.store todo →
          c'.Covered w.store fun k => todo k ∧ ∀ x ∈ e.pending, k ≠ x.1))
      fun f w => Halts P fit m.store (.propagator p) f w.store ∧
        ∀ x, f = .contradiction x → ∃ c', c.Kept p w c' := by
  have hdesk : m.store.Same (m.desk p e).store := ⟨rfl, rfl, rfl, rfl⟩
  have hs' : (m.desk p e).store.Valid := (hs.evolves_aside _ _).valid
  have hadvance : ∀ {w : Workspace ν (Constraint ⊕ π)},
      Advance P (m.desk p e).store (.propagator p) w.store →
        Advance P m.store (.propagator p) w.store :=
    fun h => h.congr hdesk (same_self _) h.valid
  have hhalts : ∀ {w : Workspace ν (Constraint ⊕ π)} {f : Failure},
      Halts P fit (m.desk p e).store (.propagator p) f w.store →
        Halts P fit m.store (.propagator p) f w.store := by
    intro w f h
    cases f with
    | contradiction x => exact ⟨hadvance h.1, h.2⟩
    | fault f => exact h
  rw [job]
  split
  · next hcoarse =>
    refine (Constraint.sweep_ends hs' hown hc (ht.same hdesk) hP fun hf => (hfit hf).1).mono ?_
      fun f w h => ⟨hhalts h.1, h.2⟩
    rintro - w ⟨c', hkept, hadv, hstable⟩
    refine ⟨c', hkept, hadvance hadv, fun hd todo _ => Constraint.Stable.covered ?_ _⟩
    exact Constraint.stable_of_bare hkept.bare ▸ hstable hd
  · next hcoarse =>
    refine (Constraint.hearAll_ends hs' hown hc (ht.same hdesk) hP hfit).mono ?_
      fun f w h => ⟨hhalts h.1, h.2⟩
    rintro - w ⟨c', hkept, hadv, hcov⟩
    exact ⟨c', hkept, hadvance hadv,
      fun hd todo h => hcov hd todo ((h.resolve_left hcoarse).same hdesk)⟩

/-- After the execution of `p` the constraint `c` has become `c'`, with at most the monitors
changed. -/
structure Serves (p : PropagatorId) (c : Constraint) (m' : Model ν (Constraint ⊕ π))
    (c' : Constraint) : Prop where
  poses : m'.Poses p.id c'
  bare : c'.bare = c.bare
  formed : c'.Formed p
  tracks : c'.Tracks m'.store

/-- The execution of a constraint, run or passed over: it `Serves`, is an `Advance`, and if it was
active the indices that were pending in `e` are no longer due. -/
structure Filtered (P : Scene → Prop) (m : Model ν (Constraint ⊕ π)) (p : PropagatorId)
    (e : Entry (Constraint ⊕ π)) (c : Constraint) (m' : Model ν (Constraint ⊕ π))
    (c' : Constraint) : Prop extends Serves p c m' c' where
  advance : Advance P m.store (.propagator p) m'.store
  covered : m.Active p.id → c.Distinct → ∀ todo, e.coarse = true ∨ c.Covered m.store todo →
    c'.Covered m'.store fun k => todo k ∧ ∀ x ∈ e.pending, k ≠ x.1
  retired : m'.Flag (.retired p.id) true →
    m.Flag (.retired p.id) true ∨ c.Says m'.store.scene .entailed

theorem Valid.execute_filters (hm : m.Valid) (he : m.entries[p.id]? = some e)
    (hown : e.propagator = .inl c) (hc : c.Formed p) (ht : c.Tracks m.store)
    (hP : m.Active p.id → ∀ G, P G → c.Stable G)
    (hfit : fit → c.Fits m.store.scene ∧ ∀ x ∈ e.pending, x.1 < c.watches.length) :
    Ends (execute p : Attempt ν (Constraint ⊕ π) Unit) m
      (fun _ m' => ∃ c', Filtered P m p e c m' c')
      fun f m' => ∀ x, f = .contradiction x → Advance P m.store (.propagator p) m'.store ∧
        (∀ G, P G → ¬Scene.Within G m.store.scene) ∧ ∃ c', Serves p c m' c' := by
  have hlt := (Array.getElem?_eq_some_iff.1 he).1
  have hran : ∀ {w : Workspace ν (Constraint ⊕ π)} {c'}, c.Kept p w c' → w.store.Valid →
      Serves p c (m.ran p e w none) c' := by
    intro w c' hkept hw
    refine ⟨?_, hkept.bare, hkept.formed, hkept.tracks.same ⟨rfl, rfl, rfl, rfl⟩⟩
    refine (poses_of_entry (e := { e.idle with propagator := w.own }) ?_).2 hkept.own
    show (m.entries.setIfInBounds p.id _)[p.id]? = _
    rw [Array.getElem?_setIfInBounds, if_pos rfl, if_pos hlt]
  have haside : ∀ w : Workspace ν (Constraint ⊕ π), w.store.Same (m.ran p e w none).store :=
    fun _ => ⟨rfl, rfl, rfl, rfl⟩
  have hruns := hm.execute_runs he
  cases hx : execute p m with
  | ok a m' =>
    refine ends_of_ok hx ?_
    rcases hruns.of_ok hx with ⟨hact, rfl⟩ | ⟨hact, w, hw, hj⟩
    · refine ⟨c, ⟨?_, rfl, hc, ht⟩, hm.store.advance_self P _, fun h => absurd h hact,
        fun h => .inl ((flag_modify (f := Entry.idle) (fun _ => rfl) rfl).1 h)⟩
      refine (poses_of_entry (e := e.idle) ?_).2 hown
      show (m.entries.modify p.id Entry.idle)[p.id]? = _
      rw [Array.getElem?_modify, if_pos rfl, he]
      rfl
    · obtain ⟨c', hkept, hadv, hcov⟩ := (job_ends hm.store hown hc ht (hP hact) hfit).of_ok hw
      have hev := (hm.job_evolves p e).of_ok hw
      have hserves := hran hkept hadv.valid
      have hsame := (haside w).trans hj.same
      refine ⟨c', ⟨?_, hkept.bare, hkept.formed, hkept.tracks.same hsame⟩,
        hadv.congr (same_self _) hsame hj.evolves.valid.store,
        fun _ hd todo h => (hcov hd todo h).same hsame, fun h => ?_⟩
      · rw [Poses, propagatorAt, hj.entries]
        exact hserves.poses
      · refine (hj.retired h).imp (hm.flag_ran he hev rfl).1 fun h => ?_
        have h : Propagator.entailment ν w.own (m.ran p e w none).store = .ok .entailed := h
        rw [hkept.own] at h
        rw [hj.same.scene, ← Constraint.says_of_bare hkept.bare]
        exact Constraint.says_of_entailment (executed_ran hm he hev none).evolves.valid.store h
  | error f m' =>
    refine ends_of_error hx ?_
    rintro x rfl
    obtain ⟨hact, w, hw, rfl⟩ := hruns.of_error hx
    obtain ⟨⟨hadv, hno⟩, hkept⟩ := (job_ends hm.store hown hc ht (hP hact) hfit).of_error hw
    obtain ⟨c', hkept⟩ := hkept x rfl
    have hserves := hran hkept hadv.valid
    exact ⟨hadv.congr (same_self _) (haside w) (hadv.valid.evolves_aside w.store.sink none).valid,
      hno, c', hserves⟩

/-- The action of a propagator of `π` leaves it one. -/
theorem job_inr {x : π} (hown : e.propagator = .inr x) :
    Ends (job ν e).run (m.desk p e) (fun _ w => ∃ y, w.own = .inr y)
      fun _ w => ∃ y, w.own = .inr y := by
  have hall : ∀ {α : Type} (f : Action ν π α) (y : π) (w : Workspace ν (Constraint ⊕ π)),
      w.own = .inr y → Ends (Propagator.onRight y f : Action ν (Constraint ⊕ π) α).run w
        (fun _ u => ∃ y, u.own = .inr y) fun _ u => ∃ y, u.own = .inr y := by
    intro α f y w hw
    refine Propagator.ends_onRight hw ?_
    rw [Ends]
    cases f.run (w.withOwn y) with
    | ok a u => exact ⟨u.own, rfl⟩
    | error g u => exact ⟨u.own, rfl⟩
  rw [job]
  split
  · refine Ends.of_eq ?_ (Action.run_state_bind _)
    rw [show (m.desk p e).own = .inr x from hown]
    exact hall _ x _ hown
  · refine Action.ends_forM (I := fun _ (w : Workspace ν (Constraint ⊕ π)) =>
      ∃ y : π, w.own = .inr y) ⟨x, hown⟩ ?_
    rintro z zs w ⟨y, hy⟩
    refine Ends.of_eq ?_ (Action.run_state_bind _)
    rw [hy]
    exact hall _ y _ hy

/-- The propagator `p` is a constraint in `m'` iff it is one in `m`, and the same up to its
monitors. -/
structure Stays (m : Model ν (Constraint ⊕ π)) (p : PropagatorId) (m' : Model ν (Constraint ⊕ π)) :
    Prop where
  serves : ∀ c, m.Poses p.id c → ∃ c', Serves p c m' c'
  posed : ∀ c', m'.Poses p.id c' → ∃ c, m.Poses p.id c

theorem Valid.execute_stays (hm : m.Valid) (hw : m.Wired) (he : m.entries[p.id]? = some e) :
    Ends (execute p : Attempt ν (Constraint ⊕ π) Unit) m (fun _ m' => m.Stays p m')
      fun f m' => ∀ x, f = .contradiction x → m.Stays p m' := by
  cases hown : e.propagator with
  | inl c =>
    have hc := (poses_of_entry he).2 hown
    have hserves : ∀ {m' c'}, Serves p c m' c' → m.Stays p m' := fun h =>
      ⟨fun c₀ hc₀ => by
        cases hc.symm.trans hc₀
        exact ⟨_, h⟩, fun _ _ => ⟨c, hc⟩⟩
    refine (hm.execute_filters (P := fun _ => False) he hown (hw _ c hc).formed
      (hw _ c hc).tracks (fun _ _ h => h.elim) fun h : False => h.elim).mono ?_ ?_
    · rintro - m' ⟨c', h⟩
      exact hserves h.toServes
    · intro f m' h x hx
      obtain ⟨-, -, c', h⟩ := h x hx
      exact hserves h
  | inr x =>
    have hnot : ∀ {m' : Model ν (Constraint ⊕ π)} {y : π}, m'.propagatorAt p.id = some (.inr y) →
        m.Stays p m' := by
      refine fun hy => ⟨fun c hc => ?_, fun c' hc' => ?_⟩
      · cases hown.symm.trans ((poses_of_entry he).1 hc)
      · cases hy.symm.trans hc'
    have hran : ∀ {w : Workspace ν (Constraint ⊕ π)}, (∃ y, w.own = .inr y) →
        ∃ y, (m.ran p e w none).propagatorAt p.id = some (.inr y) := by
      rintro w ⟨y, hy⟩
      refine ⟨y, ?_⟩
      show ((m.entries.setIfInBounds p.id _)[p.id]?).map Entry.propagator = _
      rw [Array.getElem?_setIfInBounds, if_pos rfl, if_pos (Array.getElem?_eq_some_iff.1 he).1,
        Option.map_some, hy]
    have hjob := job_inr (ν := ν) (m := m) (p := p) hown
    have hruns := hm.execute_runs he
    cases hx : execute p m with
    | ok a m' =>
      refine ends_of_ok hx ?_
      rcases hruns.of_ok hx with ⟨-, rfl⟩ | ⟨-, w, hw, hj⟩
      · refine hnot (y := x) ?_
        show ((m.entries.modify p.id Entry.idle)[p.id]?).map Entry.propagator = _
        rw [Array.getElem?_modify, if_pos rfl, he]
        exact congrArg some hown
      · obtain ⟨y, hy⟩ := hran (hjob.of_ok hw)
        refine hnot (y := y) ?_
        rw [propagatorAt, hj.entries]
        exact hy
    | error f m' =>
      refine ends_of_error hx ?_
      rintro c rfl
      obtain ⟨-, w, hw, rfl⟩ := hruns.of_error hx
      obtain ⟨y, hy⟩ := hran (hjob.of_error hw)
      exact hnot hy

/-! ## The rounds of a propagation -/

omit [Propagator ν π] in
theorem Worked.propagatorAt (h : m.Worked p m') {q : Nat} (hq : q ≠ p.id) :
    m'.propagatorAt q = m.propagatorAt q := by
  rw [Model.propagatorAt, h.executed.others q hq, Model.propagatorAt]

/-- The invariant of the rounds of a propagation from `m₀` to `m`: the propagators and their enabled
flags are those of `m₀`, and domains have only shrunk. -/
structure Underway (m₀ m : Model ν (Constraint ⊕ π)) : Prop where
  tidy : m.Tidy
  wired : m.Wired
  evolves : m₀.Evolves m
  count : m.count = m₀.count
  grown : m₀.store.Extends m.store
  bare : ∀ p, m.bareAt p = m₀.bareAt p
  enabled : ∀ p b, m.Flag (.enabled p) b ↔ m₀.Flag (.enabled p) b

variable {m₀ : Model ν (Constraint ⊕ π)}

omit [Propagator ν π] in
theorem Wired.underway (hw : m.Wired) (hm : m.Valid) (ht : m.Tidy) : Underway m m where
  tidy := ht
  wired := hw
  evolves := hm.evolves_self
  count := rfl
  grown := hm.store.extends_self
  bare _ := rfl
  enabled _ _ := Iff.rfl

omit [Propagator ν π] in
theorem Dispatched.propagatorAt (h : m.Dispatched m₁) (p : Nat) :
    m₁.propagatorAt p = m.propagatorAt p := by
  rw [Model.propagatorAt, Model.propagatorAt]
  cases he : m₁.entries[p]? with
  | none =>
    rw [Array.getElem?_eq_none_iff, h.size, ← Array.getElem?_eq_none_iff] at he
    rw [he]
  | some e =>
    obtain ⟨e₀, he₀, heq, -⟩ := h.entry he
    rw [he₀, heq]
    rfl

omit [Propagator ν π] in
/-- Dispatching leaves all flags as they are. -/
theorem Dispatched.flag (h : m.Dispatched m₁) {r : Role} {q : Nat} {b : Bool}
    (hr : r.owner = some q) : m₁.Flag r b ↔ m.Flag r b := by
  refine flagIn_congr (cell_of_seat hr (congrFun (seat_of_core h.core) q)) fun i _ => ?_
  rw [h.store]

omit [Propagator ν π] in
/-- `Underway` is kept by a dispatch, with or without the head taken off the queue. -/
theorem Underway.dispatched (h : Underway m₀ m) (hd : m.Dispatched m₁) : Underway m₀ m₁ := by
  have hm := h.evolves.valid
  have hev := hd.evolves hm
  have hstore := hd.store
  have hlater : m.store.Extends m₁.store := by
    refine ⟨hev.valid.store, ?_, ?_, ?_⟩
    · rw [hstore]
    · rw [hstore]
      exact fun _ h => h
    · rw [hstore]
      exact fun _ _ => List.prefix_refl _
  exact
    { tidy := hd.tidy h.tidy hm
      wired := h.wired.later hm h.tidy hev hd.propagatorAt hlater.later
      evolves := h.evolves.trans hev
      count := (h.tidy.count_eq hev hd.size).trans h.count
      grown := h.grown.trans hlater
      bare := fun p => by rw [← h.bare, bareAt, hd.propagatorAt, bareAt]
      enabled := fun p b => (hd.flag rfl).trans (h.enabled p b) }

omit [Propagator ν π] in
theorem Wired.withQueue (h : m.Wired) (q : Queue) : ({ m with queue := q } : Model _ _).Wired :=
  fun p c hc => ⟨(h p c hc).formed, (h p c hc).tracks, (h p c hc).row, (h p c hc).live⟩

omit [Propagator ν π] in
theorem Wired.worked (h : m.Wired) (hm : m.Valid) (hsize : m.entries.size = m.count)
    (hwork : m.Worked p m') (hstay : m.Stays p m') : m'.Wired := by
  intro r c hc
  have hev := hwork.executed.evolves
  by_cases hr : r = p.id
  · subst hr
    obtain ⟨c₀, hc₀⟩ := hstay.posed c hc
    obtain ⟨c', hserves⟩ := hstay.serves c₀ hc₀
    cases hc.symm.trans hserves.poses
    exact (h _ c₀ hc₀).evolves hm (hsize ▸ hc₀.lt) hev hserves.bare hserves.formed hserves.tracks
  · have hold : m.Poses r c := (hwork.propagatorAt hr).symm.trans hc
    have hw := h r c hold
    exact hw.evolves hm (hsize ▸ hold.lt) hev rfl hw.formed
      (hw.tracks.later hw.formed (hw.scene_ne_none hm (hsize ▸ hold.lt)) hwork.grown.later)

omit [Propagator ν π] in
/-- `Underway` is kept by the execution of the head `p` of the queue. -/
theorem Underway.worked (h : Underway m₀ m) {q : Queue} (hpop : m.queue.pop = some (p, q))
    (hwork : ({ m with queue := q } : Model _ _).Worked p m')
    (hstay : ({ m with queue := q } : Model _ _).Stays p m') : Underway m₀ m' := by
  have hm := h.evolves.valid
  have hev := Evolves.withQueue hm q
  exact
    { tidy := hwork.executed.tidy hpop h.tidy hm
      wired := (h.wired.withQueue q).worked hev.valid h.tidy.size hwork hstay
      evolves := h.evolves.trans (hev.trans hwork.executed.evolves)
      count := (h.tidy.count_eq (hev.trans hwork.executed.evolves) hwork.executed.size).trans h.count
      grown := h.grown.trans ⟨hwork.grown.valid, hwork.grown.epoch, hwork.grown.live,
        hwork.grown.log⟩
      bare := fun r => by
        rw [← h.bare]
        by_cases hr : r = p.id
        · subst hr
          cases hb : m.bareAt p.id with
          | none =>
            refine Option.eq_none_iff_forall_ne_some.2 fun b hb' => ?_
            obtain ⟨c', hc', -⟩ := exists_of_bareAt hb'
            obtain ⟨c, hc⟩ := hstay.posed c' hc'
            have hc : m.Poses p.id c := hc
            cases hb.symm.trans hc.bareAt
          | some b =>
            obtain ⟨c, hc, rfl⟩ := exists_of_bareAt hb
            obtain ⟨c', hserves⟩ := hstay.serves c hc
            rw [hserves.poses.bareAt, hserves.bare]
        · rw [bareAt, hwork.propagatorAt hr]
          rfl
      enabled := fun r b => (hwork.flag r (.enabled r) b rfl (by rintro ⟨⟩)).trans (h.enabled r b) }

theorem Underway.execute_ends (h : Underway m₀ m) {q : Queue} (hpop : m.queue.pop = some (p, q))
    (he : m.entries[p.id]? = some e) :
    Ends (execute p : Attempt ν (Constraint ⊕ π) Unit) { m with queue := q }
      (fun _ m' => Underway m₀ m') fun f m' => ∀ c, f = .contradiction c → Underway m₀ m' := by
  have hm := (Evolves.withQueue h.evolves.valid q).valid
  have hwork := hm.execute_works (p := p) he
  have hstay := hm.execute_stays (p := p) (h.wired.withQueue q) he
  cases hx : execute p { m with queue := q } with
  | ok a m' => exact ends_of_ok hx (h.worked hpop (hwork.of_ok hx) (hstay.of_ok hx))
  | error f m' =>
    exact ends_of_error hx fun c hc =>
      h.worked hpop (hwork.of_error hx c hc) (hstay.of_error hx c hc)

theorem Wired.settle_ends (hw : m₀.Wired) (hm : m₀.Valid) (ht : m₀.Tidy) (n : Nat) :
    Ends (settle n : Attempt ν (Constraint ⊕ π) Unit) m₀ (fun _ m => Underway m₀ m)
      fun f m => ∀ c, f = .contradiction c → Underway m₀ m := by
  refine settle_ends_of (I := Underway m₀) (fun m h => ⟨h.evolves.valid, h.tidy⟩) ?_ ?_ ?_ n
    (hw.underway hm ht)
  · exact fun m m₁ h hd _ => h.dispatched hd
  · exact fun m m₁ p q e h hd hpop he => (h.dispatched hd).execute_ends hpop he
  · rintro m' c ⟨⟩

/-! ## Calls -/

omit [Propagator ν π] in
/-- `Wired` is kept when the logs are cleared, whatever is done to the entries otherwise. -/
theorem Wired.cleared (h : m.Wired) (hm : m.Valid) (ht : m.Tidy) (hev : m.Evolves m')
    (hsame : ∀ p, m'.propagatorAt p = m.propagatorAt p)
    (hepoch : m'.store.epoch = m.store.epoch + 1) : m'.Wired :=
  h.later hm ht hev hsame (later_of_lt (by rw [hepoch]; exact Nat.lt_succ_self _))

omit [Propagator ν π] in
theorem propagatorAt_modify {f : Entry (Constraint ⊕ π) → Entry (Constraint ⊕ π)}
    (hf : ∀ e, (f e).propagator = e.propagator) (p q : Nat) :
    ((m.entries.modify p f)[q]?).map Entry.propagator = m.propagatorAt q := by
  rw [Array.getElem?_modify, propagatorAt]
  split
  · cases m.entries[q]? with
    | none => rfl
    | some e => exact congrArg some (hf e)
  · rfl

omit [Propagator ν π] in
theorem propagatorAt_abandon (l : LogLine) (p : Nat) :
    (m.abandon.finish l).propagatorAt p = m.propagatorAt p := by
  show ((m.entries.map Entry.idle)[p]?).map Entry.propagator = _
  rw [Array.getElem?_map, Option.map_map, propagatorAt]
  rfl

/-- `Wired` is kept by any call that does not fault. -/
theorem Wired.does {s s' : Session ν (Constraint ⊕ π)} {k : Call (Constraint ⊕ π)} {a : Answer}
    (h : s.model.Wired) (hs : s.model.Ready) (hd : Call.Does s k a s') : s'.model.Wired := by
  have hm := hs.valid
  have ht := hs.tidy
  have hstore : ∀ {t : Store}, s.model.store.Evolves t → s.model.store.Grows t →
      (s.withStore t).model.Wired := fun hev hg =>
    h.later hm ht (.withStore hm hev) (fun _ => rfl) hg.extends.later
  cases hd with
  | create hc => exact hstore hc.evolves hc.grows
  | narrow hn =>
    obtain ⟨D, D', -, -, -, hn, -⟩ := hn
    exact hstore hn.evolves hn.grows
  | refused => exact h
  | post hinit hpost => exact h.posted hm hinit hpost
  | enable hp he hflag =>
    exact h.later hm ht (hflag.rescheduled _ _)
      (propagatorAt_modify (f := Entry.swept) (fun _ => rfl) _)
      ⟨Nat.le_refl _, fun _ _ _ => List.prefix_refl _⟩
  | disable hp he hflag =>
    exact h.later hm ht (hflag.muted _)
      (propagatorAt_modify (f := fun e => { e with pending := [] }) (fun _ => rfl) _)
      ⟨Nat.le_refl _, fun _ _ _ => List.prefix_refl _⟩
  | save => exact h.save hm
  | checkpoint => exact h.save hm
  | restore hpast hr => exact h.reverted hm (show _ = [] ++ _ :: _ from hpast) hr
  | rollback hk hpast hdepth hr => exact h.reverted hm hpast hr
  | settled hx =>
    have hu := (h.settle_ends hm ht _).of_ok hx
    exact hu.wired.cleared hu.evolves.valid hu.tidy (.finish hu.evolves.valid _) (fun _ => rfl) rfl
  | failed hx =>
    have hu := (h.settle_ends hm ht _).of_error hx _ rfl
    have hab := Evolves.abandon hu.evolves.valid
    exact hu.wired.cleared hu.evolves.valid hu.tidy (hab.trans (.finish hab.valid _))
      (propagatorAt_abandon _) rfl
  | isEntailed => exact h

end

end Model

/-- A call that has succeeded ends by one of the cases of `Call.Does`. -/
theorem Call.does_of_ok {ν π : Type} [Propagator ν π] {s s' : Session ν π} {k : Call π} {a : Answer}
    (h : k.perform s = .ok a s') (hs : s.model.Ready) : k.Does s a s' :=
  (k.does_ends hs).of_ok h

/-- `Wired` is kept by any run without faults. -/
theorem Session.wired {ν π : Type} [Propagator ν π] {cs : List (Call (Constraint ⊕ π))}
    {s s' : Session ν (Constraint ⊕ π)} {xs : List (Step ν (Constraint ⊕ π))}
    (h : Session.run cs s = .ok xs s') (hs : s.model.Ready) (hw : s.model.Wired) :
    s'.model.Wired := by
  induction cs generalizing s xs with
  | nil =>
    cases h
    exact hw
  | cons c cs ih =>
    obtain ⟨a, s₁, ys, hc, hrun, -⟩ := Session.run_cons h
    exact ih hrun ((c.ready_ends hs).of_ok hc) (hw.does hs (Call.does_of_ok hc hs))

end Propagation
