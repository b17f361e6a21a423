import Propagation.Proofs.Model.Bookkeeping
import Propagation.Proofs.Model.Sound

/-!
# What can go wrong

A constraint that `Fits` the domains can be posted, is only run at the indices of its watches, and
neither its runs nor `entailment` fault unless integers overflow (`Model.Suited`). So in a model
whose propagators are such constraints nothing else makes a propagation fault
(`Model.Suited.fixpoint_ends`).
-/

set_option autoImplicit false

namespace Propagation

open Update Store

/-! ## Constraints that fit -/

namespace Constraint

variable {ν : Type} {c : Constraint} {p : PropagatorId} {s : Store} {S : Scene} {f : Fault}

theorem fits_postedAs : (c.postedAs p).Fits = c.Fits := by cases c <;> rfl

theorem watches_postedAs : (c.postedAs p).watches = c.watches := by cases c <;> rfl

theorem stable_postedAs : (c.postedAs p).Stable = c.Stable := by cases c <;> rfl

/-- The variables watched by a constraint that `Fits` are alive. -/
theorem Fits.live (h : c.Fits S) : ∀ x ∈ c.watches, S x.1 ≠ none := by
  intro x hx
  cases c with
  | notEqual c =>
    obtain ⟨⟨vs, hv⟩, ws, hw⟩ := h
    have hx : x ∈ c.watches := hx
    simp only [NotEqual.watches, List.mem_cons, List.not_mem_nil, or_false] at hx
    rcases hx with rfl | rfl
    · simp [hv]
    · simp [hw]
  | graphChannel c =>
    obtain ⟨⟨g, hgraph⟩, hrows⟩ := h
    rcases List.mem_append.1 hx with hx | hx
    · obtain ⟨v, hv, rfl⟩ := List.mem_map.1 hx
      obtain ⟨i, hi⟩ := Array.getElem?_of_mem (Array.mem_toList_iff.1 hv)
      obtain ⟨b, hset⟩ := (hrows i v hi).set
      simp [hset]
    · cases List.mem_singleton.1 hx
      simp [hgraph]

/-- `initialise` succeeds on a constraint that `Fits`. -/
theorem initialise_ok (hs : s.Valid) (h : c.Fits s.scene) (p : PropagatorId) :
    ∃ setup : Setup ν Constraint, Propagator.initialise c p s = .ok setup := by
  cases c with
  | notEqual c => exact ⟨_, rfl⟩
  | graphChannel c =>
    obtain ⟨⟨g, hgraph⟩, -⟩ := h
    have hinit : ∃ u : Setup ν GraphChannel, GraphChannel.initialise c p s = .ok u := by
      unfold GraphChannel.initialise
      rw [hs.nodeCount_eq hgraph]
      exact ⟨_, if_pos rfl⟩
    obtain ⟨u, hu⟩ := hinit
    refine ⟨⟨.graphChannel u.propagator, u.watches, u.notes⟩, ?_⟩
    show (GraphChannel.initialise c p s >>= _) = _
    rw [hu]
    rfl

/-- The only fault of `entailment` on a constraint that `Fits` is an overflow. -/
theorem entailment_fault (hs : s.Valid) (hfit : c.Fits s.scene)
    (h : Propagator.entailment ν c s = .error f) : f = .overflow := by
  cases c with
  | notEqual c =>
    obtain ⟨⟨vs, hx⟩, ws, hy⟩ := hfit
    have h : NotEqual.entailment c s = .error f := h
    rcases NotEqual.entailment_eq hs hx hy with heq | heq
    · cases h.symm.trans heq
    · cases h.symm.trans heq
      rfl
  | graphChannel c =>
    obtain ⟨a, ha⟩ := GraphChannel.entailment_ok hs hfit
    have h : GraphChannel.entailment c s = .error f := h
    cases h.symm.trans ha

end Constraint

/-! ## Models of such constraints -/

namespace Model

variable {ν π : Type} {m m' m₁ : Model ν (Constraint ⊕ π)} {p : PropagatorId} {c : Constraint}
  {f : Fault}

/-- The propagators are constraints that `Fits` the domains, and their subscriptions have the local
indices of their watches. -/
structure Suited (m : Model ν (Constraint ⊕ π)) : Prop where
  constrains : m.Constrains
  fits : ∀ p c, m.Poses p c → c.Fits m.store.scene
  watches : ∀ p c, m.Poses p c → ∀ v, ∀ s ∈ m.row v, s.propagator = ⟨p⟩ →
    s.localIndex < c.watches.length

theorem suited_of_count (ht : m.Tidy) (h : m.count = 0) : m.Suited := by
  have hno : ∀ p c, ¬m.Poses p c := by
    intro p c hc
    have hlt := hc.lt
    rw [ht.size, h] at hlt
    exact Nat.not_lt_zero p hlt
  refine ⟨fun p hp => absurd hp ?_, fun p c hc => absurd hc (hno p c),
    fun p c hc => absurd hc (hno p c)⟩
  rw [h]
  exact Nat.not_lt_zero p

/-- `Suited` is kept when domains shrink and monitors change. -/
theorem Suited.evolves (h : m.Suited) (ht : m.Tidy) (ht' : m'.Tidy) (hev : m.Evolves m')
    (hcount : m'.count = m.count) (hbare : ∀ p, m'.bareAt p = m.bareAt p)
    (hdead : ∀ v, m.store.scene v = none → m'.store.scene v = none) : m'.Suited := by
  have hposes : ∀ p c', m'.Poses p c' → ∃ c, m.Poses p c ∧ c.bare = c'.bare := fun p c' hc' =>
    exists_of_bareAt ((hbare p).symm.trans hc'.bareAt)
  refine ⟨fun p hp => ?_, fun p c' hc' => ?_, fun p c' hc' v s hs hp => ?_⟩
  · rw [hcount] at hp
    obtain ⟨c, hc⟩ := h.constrains p hp
    obtain ⟨c', hc', -⟩ := exists_of_bareAt ((hbare p).trans hc.bareAt)
    exact ⟨c', hc'⟩
  · obtain ⟨c, hc, hb⟩ := hposes p c' hc'
    rw [Constraint.fits_of_bare hb.symm]
    refine (h.fits p c hc).within fun v D hD => ?_
    obtain ⟨D', hD', hle⟩ := hev.scene v D hD
    exact ⟨D', hD', hev.valid.store.wf hD', hle⟩
  · obtain ⟨c, hc, hb⟩ := hposes p c' hc'
    have hlive : m.store.scene v ≠ none := by
      intro hv
      have hv' := hdead v hv
      have hno : m'.row v = [] := ht'.row_dead (by
        rw [hev.valid.store.varCount_eq]
        exact Nat.le_of_not_lt fun hlt => (hev.valid.store.ne_none_iff v).2 hlt hv')
      rw [hno] at hs
      cases hs
    have hrow := hev.row v hlive
    rw [ht.filter_row, ← hcount, ht'.filter_row] at hrow
    rw [hrow] at hs
    rw [Constraint.watches_of_bare hb.symm]
    exact h.watches p c hc v s hs hp

section
variable [Propagator ν π]

/-- Posting a constraint that `Fits` faults only if there are too many propagators. -/
theorem Valid.unposted_overflow (hm : m.Valid) (hfit : c.Fits m.store.scene)
    (h : m.Unposted (.inl c : Constraint ⊕ π) f) : f = .overflow := by
  obtain ⟨u, hu⟩ := Constraint.initialise_ok (ν := ν) hm.store hfit ⟨m.count⟩
  have hinit : Propagator.initialise (.inl c : Constraint ⊕ π) ⟨m.count⟩ m.store =
      .ok (⟨.inl u.propagator, u.watches, u.notes⟩ : Setup ν (Constraint ⊕ π)) := by
    show ((Propagator.initialise c ⟨m.count⟩ m.store : Except Fault (Setup ν Constraint)) >>= _) = _
    rw [hu]
    rfl
  cases h with
  | refused h => cases hinit.symm.trans h
  | @blind setup h w hw hdead =>
    cases hinit.symm.trans h
    obtain ⟨hbare, -, -, hwatches⟩ := Constraint.of_initialise hu
    refine absurd ?_ hdead
    rw [hm.store.varCount_eq, ← hm.store.ne_none_iff]
    refine hfit.live w ?_
    have hw : w ∈ u.watches := hw
    rwa [hwatches, ← Constraint.watches_bare, hbare, Constraint.watches_postedAs] at hw
  | full h => exact h

/-- Posting a constraint that `Fits` keeps `Suited`. -/
theorem Suited.posted (h : m.Suited) (hm : m.Valid) (ht : m.Tidy) (hfit : c.Fits m.store.scene)
    {setup : Setup ν (Constraint ⊕ π)}
    (hinit : Propagator.initialise (.inl c : Constraint ⊕ π) ⟨m.count⟩ m.store = .ok setup)
    (hpost : m.Posted setup m') : m'.Suited := by
  obtain ⟨u, hu, hsetup⟩ := Checked.exists_of_bind_eq_ok hinit
  cases hsetup
  obtain ⟨hbare, -, -, hwatches⟩ := Constraint.of_initialise hu
  have hscene : m'.store.scene = m.store.scene := by
    obtain ⟨t, hstore, hwide, -⟩ := hpost.store
    rw [hstore]
    exact (hwide.valid hm.store).2.1
  -- a constraint is the new one, or has been there before
  have hposes : ∀ p c', m'.Poses p c' → p = m.count ∧ c' = u.propagator ∨
      p < m.count ∧ m.Poses p c' := by
    intro p c' hc'
    have hat := hpost.propagatorAt hm p
    rw [hc'] at hat
    by_cases hnew : p = m.count
    · rw [if_pos hnew] at hat
      cases hat
      exact .inl ⟨hnew, rfl⟩
    · rw [if_neg hnew] at hat
      split at hat
      · next hp => exact .inr ⟨hp, hat.symm⟩
      · cases hat
  refine ⟨fun p hp => ?_, fun p c' hc' => ?_, fun p c' hc' v s hs hp => ?_⟩
  · have hat := hpost.propagatorAt hm p
    rw [hpost.count_eq] at hp
    by_cases hnew : p = m.count
    · exact ⟨u.propagator, hat.trans (if_pos hnew)⟩
    · have hlt : p < m.count := by omega
      obtain ⟨c', hc'⟩ := h.constrains p hlt
      exact ⟨c', hat.trans ((if_neg hnew).trans ((if_pos hlt).trans hc'))⟩
  · rw [hscene]
    rcases hposes p c' hc' with ⟨-, rfl⟩ | ⟨-, hc'⟩
    · rw [← Constraint.fits_of_bare (Constraint.bare_bare _), hbare, Constraint.fits_postedAs]
      exact hfit
    · exact h.fits p c' hc'
  · rw [hpost.row] at hs
    rcases List.mem_append.1 hs with hs | hs
    · -- the old subscriptions are of old propagators
      split at hs
      · have hlt := ht.ids v s hs
        rw [hp] at hlt
        rcases hposes p c' hc' with ⟨rfl, -⟩ | ⟨-, hc'⟩
        · exact absurd hlt (Nat.lt_irrefl _)
        · exact h.watches p c' hc' v s hs hp
      · cases hs
    · obtain ⟨hnew, k, hk, hindex⟩ := mem_watching.1 hs
      cases hp.symm.trans hnew
      rcases hposes m.count c' hc' with ⟨-, rfl⟩ | ⟨hlt, -⟩
      · have hlength : k < u.watches.length := (List.getElem?_eq_some_iff.1 hk).1
        rw [hwatches] at hlength
        omega
      · exact absurd hlt (Nat.lt_irrefl _)

/-! ## Propagations -/

/-- The rounds of a propagation keep the constraints, their enabled flags and the subscriptions. -/
theorem Went.underway {n : Nat} (h : m.Went n m') (hw : m.Wired) (hm : m.Valid) (ht : m.Tidy) :
    Underway m m' ∧ m'.subscriptions = m.subscriptions := by
  induction h with
  | start => exact ⟨hw.underway hm ht, rfl⟩
  | @round n m' m₁ m₂ p _ hnext hrun ih =>
    obtain ⟨hu, hrows⟩ := ih
    have hm' := hu.evolves.valid
    obtain ⟨u, hd, q, hpop, rfl⟩ := (hu.tidy.next_ends hm').of_ok hnext
    have hu₁ := hu.dispatched hd
    have he := Array.getElem?_eq_getElem (hu₁.tidy.lt_of_pop hpop)
    have hexec := ((Evolves.withQueue hu₁.evolves.valid q).valid.execute_ends he).of_ok hrun
    refine ⟨(hu₁.execute_ends hpop he).of_ok hrun, ?_⟩
    rw [hexec.subscriptions]
    exact hd.subscriptions.trans hrows

variable {e : Entry (Constraint ⊕ π)}

omit [Propagator ν π] in
/-- In the rounds of a propagation each entry has a constraint that `Fits`, with events pending at
indices of its watches only. -/
theorem Suited.served (h : m.Suited) (hu : Underway m m')
    (hrows : m'.subscriptions = m.subscriptions) (hb : m'.Booked) (he : m'.entries[p.id]? = some e) :
    ∃ c, e.propagator = .inl c ∧ m'.Wiring p.id c ∧ c.Fits m'.store.scene ∧
      ∀ x ∈ e.pending, x.1 < c.watches.length := by
  obtain ⟨c, hown, hc, -, c₀, hc₀, hbare⟩ := hu.posed h.constrains he
  refine ⟨c, hown, hu.wired p.id c hc, ?_, fun x hx => ?_⟩
  · rw [Constraint.fits_of_bare hbare]
    refine (h.fits p.id c₀ hc₀).within fun v D hD => ?_
    obtain ⟨D', hD', hle⟩ := hu.evolves.scene v D hD
    exact ⟨D', hD', hu.evolves.valid.store.wf hD', hle⟩
  · obtain ⟨v, s, hs, hp, hindex⟩ := hb.own p.id e he x.1 (List.mem_map_of_mem hx)
    unfold row at hs
    rw [hrows] at hs
    rw [← hindex, Constraint.watches_of_bare hbare]
    exact h.watches p.id c₀ hc₀ v s hs hp

/-- The only fault of the code of a `Suited` model in a round is an overflow. -/
theorem Suited.breaks (h : m.Suited) (hu : Underway m m')
    (hrows : m'.subscriptions = m.subscriptions) (hb : m'.Booked)
    (hbreaks : m'.Breaks p f) : f = .overflow := by
  have hs := hu.evolves.valid.store
  cases hbreaks with
  | running he hrun =>
    obtain ⟨c, hown, hwire, hfits, hpending⟩ := h.served hu hrows hb he
    have hjob := job_ends hs hown hwire.formed hwire.tracks (P := c.Stable) (fun _ h => h)
      fun _ : True => ⟨hfits, hpending⟩
    exact (hjob.of_error hrun).1 trivial
  | @asked e w he hrun hasked =>
    obtain ⟨c, hown, hwire, hfits, hpending⟩ := h.served hu hrows hb he
    have hjob := job_ends hs hown hwire.formed hwire.tracks (P := c.Stable) (fun _ h => h)
      fun _ : True => ⟨hfits, hpending⟩
    obtain ⟨c', hkept, hadv, -⟩ := hjob.of_ok hrun
    have hfits' : c'.Fits w.store.scene := by
      rw [Constraint.fits_of_bare hkept.bare]
      exact hfits.within hadv.within
    have hs' : ({ w.store with running := none } : Store).Valid := hadv.valid.aside _ _
    rw [hkept.own] at hasked
    exact Constraint.entailment_fault hs' hfits' hasked

/-- The only fault of a propagation on a `Suited` model is an overflow. -/
theorem Suited.fixpoint_ends (h : m.Suited) (hm : m.Valid) (ht : m.Tidy) (hw : m.Wired)
    (hb : m.Booked) : Ends (fixpoint : Attempt ν (Constraint ⊕ π) Unit) m (fun _ _ => True)
      fun e _ => ∀ f, e = .fault f → f = .overflow := by
  refine (ht.fixpoint_broken hm).mono (fun _ _ h => h) fun e _ hbroken f hf => ?_
  obtain ⟨n, u, p, u₁, hwent, hnext, hbreaks⟩ := hbroken f hf
  obtain ⟨hu, hrows⟩ := hwent.underway hw hm ht
  obtain ⟨v, hd, q, -, rfl⟩ := (hu.tidy.next_ends hu.evolves.valid).of_ok hnext
  have hbooked := hd.booked (hwent.booked hb hm ht) hu.tidy hu.evolves.valid
  refine h.breaks (hu.dispatched hd) (hd.subscriptions.trans hrows) hbooked (p := p) ?_
  -- the queue does not matter to what is run
  cases hbreaks with
  | running he h => exact .running he h
  | asked he hrun h => exact .asked he hrun h

end

end Model

end Propagation
