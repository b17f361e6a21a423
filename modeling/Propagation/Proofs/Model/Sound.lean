import Propagation.Proofs.Model.Underway

/-!
# Soundness of propagation

In a model whose propagators are constraints, a propagation takes nothing from the scenes that are
stable for all enabled ones, and ends in a contradiction only if there is none within the domains
(`Wired.settle_sound`).
-/

set_option autoImplicit false

namespace Propagation.Model

open Update Store

variable {ν π : Type} {m₀ m m₁ m' : Model ν (Constraint ⊕ π)} {p : PropagatorId}
  {e : Entry (Constraint ⊕ π)} {c : Constraint} {G : Scene} {P : Scene → Prop}

/-- Every live propagator is a constraint. -/
def Constrains (m : Model ν (Constraint ⊕ π)) : Prop := ∀ p < m.count, ∃ c, m.Poses p c

/-- In the rounds of a propagation from `m₀`, the constraint of an entry is that of `m₀` up to its
monitors. -/
theorem Underway.posed (h : Underway m₀ m) (hall : m₀.Constrains) (he : m.entries[p.id]? = some e) :
    ∃ c, e.propagator = .inl c ∧ m.Poses p.id c ∧ p.id < m₀.count ∧
      ∃ c₀, m₀.Poses p.id c₀ ∧ c.bare = c₀.bare := by
  have hp : p.id < m₀.count := h.count ▸ h.tidy.size ▸ (Array.getElem?_eq_some_iff.1 he).1
  obtain ⟨c₀, hc₀⟩ := hall p.id hp
  obtain ⟨c, hc, hbare⟩ := exists_of_bareAt ((h.bare p.id).trans hc₀.bareAt)
  exact ⟨c, (poses_of_entry he).1 hc, hc, hp, c₀, hc₀, hbare⟩

/-- A scene that the profile of `m₀` demands is stable for every active constraint. -/
theorem Underway.stable (h : Underway m₀ m) (hall : m₀.Constrains) (hc : m.Poses p.id c)
    (hact : m.Active p.id) (hG : m₀.profile.Demands G) : c.Stable G := by
  obtain ⟨e, he, hown⟩ := hc.entry
  obtain ⟨c', hown', -, hp, c₀, hc₀, hbare⟩ := h.posed hall he
  cases hown.symm.trans hown'
  rw [Constraint.stable_of_bare hbare]
  exact demands_iff.1 hG p.id c₀ hp hc₀ ((h.enabled p.id true).1 (active_iff.1 hact).1)

section
variable [Propagator ν π]

/-- One round after its dispatch is an `Advance` of the scenes that the profile demands, or it
`Halts`. -/
theorem Underway.round_ends (h : Underway m₀ m₁) (hall : m₀.Constrains) {q : Queue}
    (hpop : m₁.queue.pop = some (p, q)) (he : m₁.entries[p.id]? = some e)
    (hP : ∀ G, P G → m₀.profile.Demands G) :
    Ends (execute p : Attempt ν (Constraint ⊕ π) Unit) { m₁ with queue := q }
      (fun _ m₂ => Underway m₀ m₂ ∧ ({ m₁ with queue := q } : Model _ _).Worked p m₂ ∧
        ∃ c c', m₁.Poses p.id c ∧ Filtered P { m₁ with queue := q } p e c m₂ c')
      fun f m₂ => ∀ x, f = .contradiction x → Underway m₀ m₂ ∧
        ∀ G, P G → ¬Scene.Within G m₁.store.scene := by
  have hm₁ := (Evolves.withQueue h.evolves.valid q).valid
  obtain ⟨c, hown, hc, -⟩ := h.posed hall he
  have hw := h.wired p.id c hc
  have hwork := hm₁.execute_works (p := p) he
  have hstay := hm₁.execute_stays (p := p) (h.wired.withQueue q) he
  have hfilter := hm₁.execute_filters (P := P) he hown hw.formed hw.tracks
    (fun hact G hG => h.stable hall hc hact (hP G hG)) fun h : False => h.elim
  cases hx : execute p { m₁ with queue := q } with
  | ok a m' =>
    obtain ⟨c', hf⟩ := hfilter.of_ok hx
    exact ends_of_ok hx ⟨h.worked hpop (hwork.of_ok hx) (hstay.of_ok hx), hwork.of_ok hx, c, c', hc, hf⟩
  | error f m' =>
    refine ends_of_error hx fun x hf => ?_
    exact ⟨h.worked hpop (hwork.of_error hx x hf) (hstay.of_error hx x hf),
      (hfilter.of_error hx x hf).2.1⟩

/-- The domains of `m` are within those of `m₀` and keep every scene of `P` that was within these.
No variables have become alive. -/
structure Refines (P : Scene → Prop) (m₀ m : Model ν (Constraint ⊕ π)) : Prop where
  within : Scene.Within m.store.scene m₀.store.scene
  dead : ∀ v, m₀.store.scene v = none → m.store.scene v = none
  sound : ∀ G, P G → Scene.Within G m₀.store.scene → Scene.Within G m.store.scene

omit [Propagator ν π] in
theorem Valid.refines_self (hm : m.Valid) : Refines P m m where
  within := .refl hm.store.scene_wf
  dead _ h := h
  sound _ _ h := h

omit [Propagator ν π] in
theorem Refines.of_scene (h : Refines P m₀ m) (hs : m'.store.scene = m.store.scene) :
    Refines P m₀ m' where
  within := hs ▸ h.within
  dead := hs ▸ h.dead
  sound := hs ▸ h.sound

omit [Propagator ν π] in
theorem Refines.advance {d : Cause} (h : Refines P m₀ m)
    (ha : Advance P m.store d m'.store) : Refines P m₀ m' where
  within := ha.within.trans h.within
  dead v hv := ha.dead v (h.dead v hv)
  sound G hG hle := ha.sound G hG (h.sound G hG hle)

omit [Propagator ν π] in
theorem Dispatched.scene (h : m.Dispatched m₁) : m₁.store.scene = m.store.scene := by
  rw [h.store]
  rfl

/-- `settle` keeps every scene that is stable for the enabled constraints, and ends in a
contradiction only if none is within the domains. -/
theorem Wired.settle_sound (hw : m₀.Wired) (hm : m₀.Valid) (ht : m₀.Tidy) (hall : m₀.Constrains)
    (n : Nat) : Ends (settle n : Attempt ν (Constraint ⊕ π) Unit) m₀
      (fun _ m => Underway m₀ m ∧ Refines m₀.profile.Demands m₀ m)
      fun f m => ∀ c, f = .contradiction c → Underway m₀ m ∧
        ∀ G, m₀.profile.Demands G → ¬Scene.Within G m₀.store.scene := by
  refine settle_ends_of (I := fun m => Underway m₀ m ∧ Refines m₀.profile.Demands m₀ m)
    (fun m h => ⟨h.1.evolves.valid, h.1.tidy⟩) ?_ ?_ ?_ n ⟨hw.underway hm ht, hm.refines_self⟩
  · exact fun m m₁ ⟨hu, hr⟩ hd _ => ⟨hu.dispatched hd, hr.of_scene hd.scene⟩
  · intro m m₁ p q e ⟨hu, hr⟩ hd hpop he
    have hr₁ := hr.of_scene hd.scene
    refine ((hu.dispatched hd).round_ends hall hpop he (P := m₀.profile.Demands)
      fun _ h => h).mono ?_ fun f m₂ h c hc => ?_
    · rintro - m₂ ⟨hu₂, -, c, c', -, hf⟩
      exact ⟨hu₂, hr₁.advance hf.advance⟩
    · obtain ⟨hu₂, hno⟩ := h c hc
      exact ⟨hu₂, fun G hG hle => hno G hG (hr₁.sound G hG hle)⟩
  · rintro m' c ⟨⟩

end

end Propagation.Model
