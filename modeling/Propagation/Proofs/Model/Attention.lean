import Propagation.Proofs.Model.Sound
import Propagation.Proofs.Model.Wakeup

/-!
# No pending change is lost

An active constraint whose entry is not coarse is stable but for the indices that are due to it
(`Model.Owes`), and one that has been retired is entailed (`Model.Attends`). The rounds of a
propagation keep it so, for the propagator that runs (`Filtered.attends`) and for all others
(`Worked.attends`). In a model that rests no index is due: every enabled constraint is stable then
(`Attentive.demands`). What rolling back requires of the levels outside is `Model.Pledged`.
-/

set_option autoImplicit false

namespace Propagation

open Update Store

namespace Model

variable {ν π : Type} {m m' m₀ m₁ m₂ : Model ν (Constraint ⊕ π)} {p : Nat}
  {e : Entry (Constraint ⊕ π)} {c c' : Constraint}

/-- The index `k` is due to the constraint: an event is pending at it in the entry `e`, or one by
another cause waits in the sink that its watch matches. -/
def Owes (m : Model ν (Constraint ⊕ π)) (p : Nat) (e : Entry (Constraint ⊕ π)) (c : Constraint)
    (k : Nat) : Prop :=
  (∃ f, e.Awaits k f) ∨ ∃ d, d ≠ .propagator ⟨p⟩ ∧ m.store.Wakes c.watches d k

/-- The constraint `c` at `p` is coarse, or covered by the indices due to it, while it is active,
and entailed once it is retired. -/
structure Attends (m : Model ν (Constraint ⊕ π)) (p : Nat) (c : Constraint) : Prop where
  active : m.Active p → ∀ e, m.entries[p]? = some e →
    e.coarse = true ∨ c.Covered m.store (m.Owes p e c)
  retired : m.Flag (.retired p) true → c.Says m.store.scene .entailed

def Attentive (m : Model ν (Constraint ⊕ π)) : Prop := ∀ p c, m.Poses p c → m.Attends p c

theorem attends_of_stable (h : m.Active p → c.Stable m.store.scene)
    (hretired : m.Flag (.retired p) true → c.Says m.store.scene .entailed) : m.Attends p c :=
  ⟨fun hact _ _ => .inr ((h hact).covered _), hretired⟩

/-- In a model that rests, an active constraint that is attended to is stable. -/
theorem Attends.stable (h : m.Attends p c) (hrest : m.Rests) (hc : m.Poses p c)
    (hact : m.Active p) : c.Stable m.store.scene := by
  obtain ⟨e, he, -⟩ := hc.entry
  obtain ⟨hcoarse, hpending⟩ := hrest.idle p e he
  have hcov := (h.active hact e he).resolve_left (by simp [hcoarse])
  refine (hcov.mono fun k hk => ?_).stable
  rcases hk with ⟨f, n, hn, -⟩ | ⟨d, -, v, mask, f, -, -, hf⟩
  · rw [hpending] at hn
    cases hn
  · rw [hrest.sink] at hf
    exact Sink.not_has_empty hf

/-- In a model that rests, every enabled constraint is stable, also if it has been retired. -/
theorem Attentive.demands (h : m.Attentive) (hm : m.Valid) (hrest : m.Rests) :
    m.profile.Demands m.store.scene := by
  refine demands_iff.2 fun p c hp hc he => ?_
  have hatt := h p c hc
  by_cases hact : m.Active p
  · exact hatt.stable hrest hc hact
  · exact (hatt.retired (hm.now.retired_of_not_active hc.lt hc.lt he hact)).stable

/-- `Attends` is kept by a step that leaves the entry of `p` alone, keeps the constraint covered by
what is due, and neither activates nor retires it. -/
theorem Attends.step (h : m.Attends p c) (hactive : m'.Active p → m.Active p)
    (hentry : m'.entries[p]? = m.entries[p]?)
    (hcov : ∀ e, m.entries[p]? = some e → c.Covered m.store (m.Owes p e c) →
      c.Covered m'.store (m'.Owes p e c))
    (hflag : m'.Flag (.retired p) true → m.Flag (.retired p) true)
    (hle : Scene.Within m'.store.scene m.store.scene) : m'.Attends p c where
  active hact e he :=
    (h.active (hactive hact) e (hentry ▸ he)).imp_right (hcov e (hentry ▸ he))
  retired hf := (h.retired (hflag hf)).within hle

/-- `Attends.step` for narrowings by a cause `d` other than `p`. -/
theorem Attends.ran (h : m.Attends p c) (hw : m.Wiring p c) {d : Cause}
    (hactive : m'.Active p → m.Active p) (hentry : m'.entries[p]? = m.entries[p]?)
    (hflag : m'.Flag (.retired p) true → m.Flag (.retired p) true)
    (hr : m.store.Ran d m'.store) (hd : d ≠ .propagator ⟨p⟩) : m'.Attends p c := by
  refine h.step hactive hentry (fun e _ hcov => ?_) hflag hr.within
  refine (hcov.ran hw.formed hw.tracks hr hd).mono fun k hk => ?_
  rcases hk with (hawait | ⟨d', hd', v, mask, f, hk, hf, hhas⟩) | hwake
  · exact .inl hawait
  · exact .inr ⟨d', hd', v, mask, f, hk, hf, hr.kept v f d' hhas⟩
  · exact .inr ⟨d, hd, hwake⟩

/-- `Attends.step` for a step that leaves the domains, logs and pending events alone. -/
theorem Attends.same (h : m.Attends p c) (hm' : m'.Valid) (hactive : m'.Active p → m.Active p)
    (hentry : m'.entries[p]? = m.entries[p]?)
    (hflag : m'.Flag (.retired p) true → m.Flag (.retired p) true)
    (hs : m.store.Same m'.store) : m'.Attends p c := by
  refine h.step hactive hentry (fun e _ hcov => (hcov.same hs).mono fun k hk => ?_) hflag ?_
  · exact hk.imp_right fun ⟨d, hd, v, mask, f, hk, hf, hhas⟩ =>
      ⟨d, hd, v, mask, f, hk, hf, hs.sink ▸ hhas⟩
  · exact hs.scene ▸ .refl hm'.store.scene_wf

/-! ## Rounds -/

/-- Dispatching keeps `Attends`: an index due for an event in the sink is due for a pending one
afterwards. -/
theorem Attends.dispatched (h : m.Attends p c) (hw : m.Wiring p c) (hd : m.Dispatched m₁) :
    m₁.Attends p c where
  active hact e he := by
    have hact := (hd.active p).1 hact
    obtain ⟨e₀, he₀, heq, -, -, hawaits⟩ := hd.entry he
    by_cases hcoarse : e.coarse = true
    · exact .inl hcoarse
    have hcov := (h.active hact e₀ he₀).resolve_left fun h => hcoarse (heq ▸ h)
    have hcov : c.Covered m₁.store (m.Owes p e₀ c) := by
      refine hcov.agree hw.formed (fun x _ => congrFun hd.scene x.1) (fun _ _ => ?_) ?_ <;>
        rw [hd.store]
      rfl
    refine .inr (hcov.mono fun k hk => .inl ?_)
    rcases hk with ⟨f, hf⟩ | ⟨d, hd', v, mask, f, hk, hf, hhas⟩
    · exact ⟨f, (hawaits k f).2 (.inl hf)⟩
    · obtain ⟨e', he', hwait⟩ := (hd.due_of_waiting hhas (hw.row k v mask hk) hf hd' hact).entry
      cases he.symm.trans he'
      exact ⟨f, hwait.resolve_left hcoarse⟩
  retired hf := by
    rw [hd.scene]
    exact h.retired ((hd.flag rfl).1 hf)

section
variable {q : PropagatorId} {P : Scene → Prop}

/-- After a run of the propagator `q` it is `Attends` with nothing due. -/
theorem Filtered.attends (hf : Filtered P m q e c m' c') (h : m.Attends q.id c)
    (he : m.entries[q.id]? = some e) (hd : c.Distinct) (hsink : m.store.sink = .empty)
    (hex : m.Executed q m') : m'.Attends q.id c' where
  active hact e' he' := by
    have hact := hex.retired hact
    refine .inr ((hf.covered hact hd _ (h.active hact e he)).mono fun k hk => ?_)
    obtain ⟨⟨f, n, hn, -⟩ | ⟨d, -, v, mask, f, -, -, hhas⟩, hnot⟩ := hk
    · exact absurd rfl (hnot _ hn)
    · rw [hsink] at hhas
      exact absurd hhas Sink.not_has_empty
  retired hflag := by
    rw [Constraint.says_of_bare hf.bare]
    exact (hf.retired hflag).elim (fun hflag => (h.retired hflag).within hf.advance.within) id

/-- A run of another propagator `q` keeps `Attends`: what it has narrowed is due for the events it
has pushed. -/
theorem Worked.attends (hwork : m.Worked q m') (h : m.Attends p c) (hw : m.Wiring p c)
    (hr : m.store.Ran (.propagator q) m'.store) (hp : p ≠ q.id) : m'.Attends p c := by
  refine h.ran hw (hwork.executed.active p hp).1 (hwork.executed.others p hp)
    (hwork.flag p _ _ rfl ?_).1 hr ?_
  · rintro ⟨⟩
    exact hp rfl
  · rintro ⟨⟩
    exact hp rfl

/-- Every live propagator is a constraint, and no channel has the same set for two nodes. -/
def Proper (m : Model ν (Constraint ⊕ π)) : Prop :=
  ∀ p < m.count, ∃ c, m.Poses p c ∧ c.Distinct

theorem Proper.constrains (h : m.Proper) : m.Constrains := fun p hp =>
  (h p hp).imp fun _ => And.left

theorem Proper.of_bare (h : m.Proper) (hcount : m'.count = m.count)
    (hbare : ∀ p < m.count, m'.bareAt p = m.bareAt p) : m'.Proper := by
  intro p hp
  rw [hcount] at hp
  obtain ⟨c, hc, hd⟩ := h p hp
  obtain ⟨c', hc', heq⟩ := exists_of_bareAt ((hbare p hp).trans hc.bareAt)
  exact ⟨c', hc', Constraint.distinct_of_bare heq ▸ hd⟩

theorem Proper.distinct (h : m.Proper) (hc : m.Poses p c) (hp : p < m.count) : c.Distinct := by
  obtain ⟨c', hc', hd⟩ := h p hp
  cases hc.symm.trans hc'
  exact hd

/-- `finish` clears the logs of a model that rests, which no index depends on. -/
theorem Attentive.finish (h : m.Attentive) (hrest : m.Rests) (l : LogLine) :
    (m.finish l).Attentive := fun p c hc => by
  have hc : m.Poses p c := hc
  exact attends_of_stable (m := m.finish l) ((h p c hc).stable hrest hc) (h p c hc).retired

/-- A propagation that succeeds leaves a model that is `Attentive` and rests. -/
theorem Attentive.settle_ends [Propagator ν π] (h : m₀.Attentive) (hw : m₀.Wired) (hm : m₀.Valid)
    (ht : m₀.Tidy) (hproper : m₀.Proper) (n : Nat) :
    Ends (settle n : Attempt ν (Constraint ⊕ π) Unit) m₀
      (fun _ m => m.Attentive ∧ m.Rests) fun _ _ => True := by
  refine settle_ends_of (I := fun m => Underway m₀ m ∧ m.Attentive)
    (fun m h => ⟨h.1.evolves.valid, h.1.tidy⟩) ?_ ?_ (fun _ => trivial) n
    ⟨hw.underway hm ht, h⟩
  · rintro m m₁ ⟨hu, hatt⟩ hd hpop
    have hatt₁ : m₁.Attentive := fun p c hc => by
      have hc : m.Poses p c := (hd.propagatorAt p).symm.trans hc
      exact (hatt p c hc).dispatched (hu.wired p c hc) hd
    exact ⟨hatt₁, hd.rests hu.tidy hu.evolves.valid hpop⟩
  · rintro m m₁ q l e ⟨hu, hatt⟩ hd hpop he
    have hu₁ := hu.dispatched hd
    have hatt₁ : ∀ p c, m₁.Poses p c → m₁.Attends p c := fun p c hc => by
      have hc : m.Poses p c := (hd.propagatorAt p).symm.trans hc
      exact (hatt p c hc).dispatched (hu.wired p c hc) hd
    refine (hu₁.round_ends hproper.constrains hpop he (P := fun _ => False)
      fun _ h => h.elim).mono ?_ fun _ _ _ => trivial
    rintro - m₂ ⟨hu₂, hwork, c, c', hc, hf⟩
    refine ⟨hu₂, fun p c₂ hc₂ => ?_⟩
    by_cases hp : p = q.id
    · subst hp
      cases hc₂.symm.trans hf.poses
      have hproper₁ := hproper.of_bare hu₁.count fun p _ => hu₁.bare p
      have hatt := hatt₁ q.id c hc
      exact hf.attends ⟨hatt.active, hatt.retired⟩ he
        (hproper₁.distinct hc (hu₁.tidy.size ▸ hc.lt)) hd.sink hwork.executed
    · have hc₂ : m₁.Poses p c₂ := (hwork.propagatorAt hp).symm.trans hc₂
      have hatt := hatt₁ p c₂ hc₂
      exact hwork.attends ⟨hatt.active, hatt.retired⟩ (hu₁.wired.withQueue l p c₂ hc₂)
        hf.advance.toRan hp

end

end Model

end Propagation
