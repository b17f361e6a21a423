import Propagation.Proofs.Trail.Write
import Propagation.Trail.BoundedSet

/-!
# Bounded sets do what their views say

On a valid trail the queries of a bounded set answer about its kernel and its envelope, and
`enforce` and `remove` move one undecided value into the kernel, or out of the envelope, and change
nothing else.
-/

set_option autoImplicit false

namespace Propagation

/-- The kernel is within the envelope, and the envelope within the ground set. -/
structure BoundedView.Wf (x : BoundedView) : Prop where
  kernel_subset : x.kernel ⊆ x.envelope
  envelope_subset : x.envelope ⊆ Finset.range x.capacity

namespace BoundedRef

variable {t : Trail} {r : BoundedRef} {x : BoundedView}

/-- The layout of a set that the view has, with the cells and the slots that make up the view. -/
theorem layout_of_view (hv : t.Valid) (hx : t.view.bounded r.index = some x) :
    ∃ s k e, t.boundedSets[r.index]? = some s ∧ r.layout t = .ok s ∧ s.view t = x ∧ s.Sits t ∧
      t.content s.kernelSize.index = some ((k : Nat) : Int) ∧
      t.content s.envelopeSize.index = some ((e : Nat) : Int) ∧ k ≤ e ∧ e ≤ s.capacity ∧
      s.start + s.capacity < 2 ^ 63 := by
  obtain ⟨s, hs, hview⟩ := Trail.bounded_of_view hx
  have hsit := hv.sound.bounded r.index s hs
  obtain ⟨k, e, hk, he, hke, hcap⟩ := hsit.sizes
  refine ⟨s, k, e, hs, Checked.fetch_eq_ok.2 hs, hview, hsit, hk, he, hke, hcap, ?_⟩
  have := hsit.permutes.order_le
  have := hv.sound.boundedArena.lt
  omega

theorem wf_of_view (hv : t.Valid) (hx : t.view.bounded r.index = some x) : x.Wf := by
  obtain ⟨s, k, e, -, -, rfl, -, hk, he, hke, -, -⟩ := layout_of_view hv hx
  refine ⟨?_, Arena.zone_subset_range _ _ _ _⟩
  show s.kernel t ⊆ s.envelope t
  rw [BoundedSet.kernel, BoundedSet.envelope, Trail.count_of_content hk,
    Trail.count_of_content he]
  exact Arena.zone_mono _ _ _ hke

/-! ## Queries -/

section
variable (hv : t.Valid) (hx : t.view.bounded r.index = some x)
include hv hx

theorem capacity_eq : r.capacity t = .ok x.capacity := by
  obtain ⟨s, k, e, -, hlay, rfl, -⟩ := layout_of_view hv hx
  rw [capacity, hlay]
  rfl

theorem kernelSize_eq : r.kernelSize t = .ok x.kernel.card := by
  obtain ⟨s, k, e, -, hlay, rfl, hsit, hk, -, hke, hcap, hlt⟩ := layout_of_view hv hx
  have hcard : (s.kernel t).card = k := by
    rw [BoundedSet.kernel, Trail.count_of_content hk]
    exact hsit.permutes.card_zone (by omega)
  rw [kernelSize, hlay]
  exact (IntRef.getNat_eq hk (by omega)).trans (congrArg _ hcard.symm)

theorem envelopeSize_eq : r.envelopeSize t = .ok x.envelope.card := by
  obtain ⟨s, k, e, -, hlay, rfl, hsit, -, he, hke, hcap, hlt⟩ := layout_of_view hv hx
  have hcard : (s.envelope t).card = e := by
    rw [BoundedSet.envelope, Trail.count_of_content he]
    exact hsit.permutes.card_zone hcap
  rw [envelopeSize, hlay]
  exact (IntRef.getNat_eq he (by omega)).trans (congrArg _ hcard.symm)

theorem kernelContains_eq (a : Nat) : r.kernelContains a t = .ok (decide (a ∈ x.kernel)) := by
  obtain ⟨s, k, e, -, hlay, rfl, hsit, hk, -, hke, hcap, hlt⟩ := layout_of_view hv hx
  have hmem : a ∈ s.kernel t ↔ a < s.capacity ∧ t.boundedArena.rankOf s.start a < k := by
    rw [BoundedSet.kernel, Trail.count_of_content hk, Arena.mem_zone]
  rw [kernelContains, isWithin, hlay]
  simp only [bind, Except.bind]
  by_cases ha : a < s.capacity
  · rw [if_pos ha, hsit.permutes.position ha, IntRef.getNat_eq hk (by omega)]
    simp [BoundedSet.view, hmem, ha]
  · rw [if_neg ha]
    simp [BoundedSet.view, hmem, ha]

theorem envelopeContains_eq (a : Nat) :
    r.envelopeContains a t = .ok (decide (a ∈ x.envelope)) := by
  obtain ⟨s, k, e, -, hlay, rfl, hsit, -, he, hke, hcap, hlt⟩ := layout_of_view hv hx
  have hmem : a ∈ s.envelope t ↔ a < s.capacity ∧ t.boundedArena.rankOf s.start a < e := by
    rw [BoundedSet.envelope, Trail.count_of_content he, Arena.mem_zone]
  rw [envelopeContains, isWithin, hlay]
  simp only [bind, Except.bind]
  by_cases ha : a < s.capacity
  · rw [if_pos ha, hsit.permutes.position ha, IntRef.getNat_eq he (by omega)]
    simp [BoundedSet.view, hmem, ha]
  · rw [if_neg ha]
    simp [BoundedSet.view, hmem, ha]

theorem kernel_eq : ∃ vs, r.kernel t = .ok vs ∧ vs.Nodup ∧ ∀ v, v ∈ vs ↔ v ∈ x.kernel := by
  obtain ⟨s, k, e, -, hlay, rfl, hsit, hk, -, hke, hcap, hlt⟩ := layout_of_view hv hx
  obtain ⟨vs, hvs, hnd, hmem⟩ :=
    hsit.permutes.slice (k := k) (by omega) hv.sound.boundedArena.lt
  refine ⟨vs, ?_, hnd, fun v => (hmem v).trans ?_⟩
  · rw [kernel, zone, hlay]
    simp only [bind, Except.bind, IntRef.getNat_eq hk (show k < 2 ^ 64 by omega), hvs]
  · show _ ↔ v ∈ s.kernel t
    rw [BoundedSet.kernel, Trail.count_of_content hk]

theorem envelope_eq :
    ∃ vs, r.envelope t = .ok vs ∧ vs.Nodup ∧ ∀ v, v ∈ vs ↔ v ∈ x.envelope := by
  obtain ⟨s, k, e, -, hlay, rfl, hsit, -, he, hke, hcap, hlt⟩ := layout_of_view hv hx
  obtain ⟨vs, hvs, hnd, hmem⟩ :=
    hsit.permutes.slice (k := e) (by omega) hv.sound.boundedArena.lt
  refine ⟨vs, ?_, hnd, fun v => (hmem v).trans ?_⟩
  · rw [envelope, zone, hlay]
    simp only [bind, Except.bind, IntRef.getNat_eq he (show e < 2 ^ 64 by omega), hvs]
  · show _ ↔ v ∈ s.envelope t
    rw [BoundedSet.envelope, Trail.count_of_content he]

theorem isInstantiated_eq : r.isInstantiated t = .ok (decide (x.kernel = x.envelope)) := by
  have hwf := wf_of_view hv hx
  rw [isInstantiated, kernelSize_eq hv hx, envelopeSize_eq hv hx]
  simp only [bind, Except.bind]
  congr 1
  rw [Bool.eq_iff_iff, beq_iff_eq, decide_eq_true_iff]
  exact ⟨fun h => Finset.eq_of_subset_of_card_le hwf.kernel_subset (Nat.le_of_eq h.symm),
    fun h => congrArg _ h⟩

/-! ## Narrowing -/

/-- `moveTo` on an undecided value and a position among the undecided ones. -/
theorem moveTo_eq {s : BoundedSet} (hs : t.boundedSets[r.index]? = some s) {a p : Nat}
    (ha : a ∈ s.envelope t) (hak : a ∉ s.kernel t)
    (hkp : t.count s.kernelSize.index ≤ p) (hep : p < t.count s.envelopeSize.index) :
    ∃ m', moveTo s a p t = .ok () (t.withBounded m') ∧
      Arena.Moved t.boundedArena m' s.start s.capacity a p ∧
      Trail.Turns t t.view (t.withBounded m') := by
  obtain ⟨s', k, e, hs', -, -, hsit, hk, he, hke, hcap, hlt⟩ := layout_of_view hv hx
  rw [hs] at hs'
  cases hs'
  rw [BoundedSet.envelope, Arena.mem_zone] at ha
  rw [BoundedSet.kernel, Arena.mem_zone] at hak
  have hpcap : p < s.capacity := by
    rw [Trail.count_of_content he] at hep
    omega
  obtain ⟨m', hswap, hm⟩ := hsit.permutes.swap ha.1 hpcap
  refine ⟨m', ?_, hm, hv.move_bounded hs hm ha.1 ?_ ha.2 hkp hep⟩
  · have hslot : Checked.nat (s.start + p) = .ok (s.start + p) :=
      Checked.nat_eq_ok.2 ⟨by omega, rfl⟩
    simp only [moveTo, Update.bind_apply, Update.query_apply, hslot, hsit.permutes.value hpcap,
      hswap, Update.modify_apply]
    rfl
  · apply Nat.le_of_not_lt
    exact fun h => hak ⟨ha.1, h⟩

/-- `enforce` moves an undecided value into the kernel. -/
theorem enforce_undecided {a : Nat} (ha : a ∈ x.envelope) (hak : a ∉ x.kernel) :
    ∃ t', r.enforce a t = .ok true t' ∧ Trail.Turns t
      (t.view.setBounded r.index { x with kernel := insert a x.kernel }) t' := by
  obtain ⟨s, k, e, hs, hlay, rfl, hsit, hk, he, hke, hcap, hlt⟩ := layout_of_view hv hx
  have hcard : (s.view t).kernel.card = k := by
    show (s.kernel t).card = k
    rw [BoundedSet.kernel, Trail.count_of_content hk]
    exact hsit.permutes.card_zone (by omega)
  have hlt' : k < e := by
    have h := Arena.mem_zone.1 ha
    have h' : ¬(_ ∧ _) := fun hh => hak (Arena.mem_zone.2 hh)
    rw [Trail.count_of_content he] at h
    rw [Trail.count_of_content hk] at h'
    omega
  have hcap' : a < s.capacity := (Arena.mem_zone.1 ha).1
  obtain ⟨m', hmove, hm, hturns⟩ := moveTo_eq hv hx hs ha hak (p := k)
    (by rw [Trail.count_of_content hk]) (by rwa [Trail.count_of_content he])
  have hsound := hturns.valid.sound
  obtain ⟨t', hadd, hw⟩ := IntRef.add_eq (r := s.kernelSize) (t := t.withBounded m')
    hsound.tracked hk (d := 1) (Checked.int_eq_ok.2 ⟨by omega, rfl⟩)
  have hk' : t'.content s.kernelSize.index = some ((k + 1 : Nat) : Int) := hw.content_self
  have hne : s.envelopeSize.index ≠ s.kernelSize.index := by
    have := hsit.nodup
    simp only [BoundedSet.cells, List.nodup_cons, List.mem_cons, List.not_mem_nil,
      or_false] at this
    exact fun h => this.1 h.symm
  have he' : t'.content s.envelopeSize.index = some (e : Int) :=
    (hw.content_of_ne hne).trans he
  have hperm : t'.boundedArena.Permutes s.start s.capacity :=
    hw.boundedArena ▸ (hsound.bounded r.index s hs).permutes
  have hsit' : s.Sits t' := ⟨hperm, hsit.nodup, k + 1, e, hk', he', hlt', hcap⟩
  have hrev := hturns.valid.revise_bounded hw.toRevises hs
    (fun i hi => hw.content_of_ne fun h => hi (by simp [BoundedSet.cells, h])) hsit'
    (by
      rw [Trail.count_of_content hk']
      exact (Nat.le_of_eq (Trail.count_of_content hk)).trans (Nat.le_succ k))
    (by
      rw [Trail.count_of_content he']
      exact Nat.le_of_eq (Trail.count_of_content he).symm)
  have hker : s.kernel t' = insert a (s.kernel t) := by
    have h1 : m'.zone s.start s.capacity k = t.boundedArena.zone s.start s.capacity k :=
      hm.zone_eq ⟨fun h => absurd (Arena.mem_zone.2 ⟨hcap', Trail.count_of_content hk ▸ h⟩) hak,
        fun h => absurd h (Nat.lt_irrefl _)⟩
    rw [BoundedSet.kernel, BoundedSet.kernel, Trail.count_of_content hk',
      Trail.count_of_content hk, hw.boundedArena]
    exact (hm.zone_succ hsit.permutes hcap' (by omega)).trans (by rw [h1])
  have henv : s.envelope t' = s.envelope t := by
    rw [BoundedSet.envelope, BoundedSet.envelope, Trail.count_of_content he',
      Trail.count_of_content he, hw.boundedArena]
    refine hm.zone_eq ⟨fun _ => hlt', fun _ => ?_⟩
    have := (Arena.mem_zone.1 ha).2
    rwa [Trail.count_of_content he] at this
  refine ⟨t', ?_, hturns.trans ?_⟩
  · have hE := envelopeContains_eq hv hx a
    have hK := kernelContains_eq hv hx a
    rw [decide_eq_true ha] at hE
    rw [decide_eq_false hak] at hK
    have hsize := kernelSize_eq hv hx
    rw [hcard] at hsize
    simp only [enforce, Update.bind_apply, Update.query_apply, hE, hK, hlay, hsize, hmove,
      if_true, Bool.false_eq_true, if_false, Update.discard_apply, IntRef.increment, hadd,
      Update.pure_apply]
  · have hview := hturns.view
    rw [hview] at hrev
    have : s.view t' = { s.view t with kernel := insert a (s.view t).kernel } := by
      rw [BoundedSet.view, hker, henv]
      rfl
    rwa [this] at hrev

/-- `remove` moves an undecided value out of the envelope. -/
theorem remove_undecided {a : Nat} (ha : a ∈ x.envelope) (hak : a ∉ x.kernel) :
    ∃ t', r.remove a t = .ok true t' ∧ Trail.Turns t
      (t.view.setBounded r.index { x with envelope := x.envelope.erase a }) t' := by
  obtain ⟨s, k, e, hs, hlay, rfl, hsit, hk, he, hke, hcap, hlt⟩ := layout_of_view hv hx
  have hcard : (s.view t).envelope.card = e := by
    show (s.envelope t).card = e
    rw [BoundedSet.envelope, Trail.count_of_content he]
    exact hsit.permutes.card_zone hcap
  have hrank : a < s.capacity ∧ t.boundedArena.rankOf s.start a < e := by
    have h := Arena.mem_zone.1 ha
    rwa [Trail.count_of_content he] at h
  have hlt' : k < e := by
    have h' : ¬(_ ∧ _) := fun hh => hak (Arena.mem_zone.2 hh)
    rw [Trail.count_of_content hk] at h'
    omega
  obtain ⟨m', hmove, hm, hturns⟩ := moveTo_eq hv hx hs ha hak (p := e - 1)
    (by rw [Trail.count_of_content hk]; omega) (by rw [Trail.count_of_content he]; omega)
  have hsound := hturns.valid.sound
  obtain ⟨t', hadd, hw⟩ := IntRef.add_eq (r := s.envelopeSize) (t := t.withBounded m')
    hsound.tracked he (d := -1) (Checked.int_eq_ok.2 ⟨by omega, rfl⟩)
  have he' : t'.content s.envelopeSize.index = some ((e - 1 : Nat) : Int) := by
    rw [hw.content_self]
    congr 1
    omega
  have hne : s.kernelSize.index ≠ s.envelopeSize.index := by
    have := hsit.nodup
    simp only [BoundedSet.cells, List.nodup_cons, List.mem_cons, List.not_mem_nil,
      or_false] at this
    exact this.1
  have hk' : t'.content s.kernelSize.index = some (k : Int) :=
    (hw.content_of_ne hne).trans hk
  have hperm : t'.boundedArena.Permutes s.start s.capacity :=
    hw.boundedArena ▸ (hsound.bounded r.index s hs).permutes
  have hsit' : s.Sits t' := ⟨hperm, hsit.nodup, k, e - 1, hk', he', by omega, by omega⟩
  have hrev := hturns.valid.revise_bounded hw.toRevises hs
    (fun i hi => hw.content_of_ne fun h => hi (by simp [BoundedSet.cells, h])) hsit'
    (by
      rw [Trail.count_of_content hk']
      exact Nat.le_of_eq (Trail.count_of_content hk))
    (by
      rw [Trail.count_of_content he']
      exact (Nat.sub_le e 1).trans (Nat.le_of_eq (Trail.count_of_content he).symm))
  have henv : s.envelope t' = (s.envelope t).erase a := by
    have h1 : m'.zone s.start s.capacity e = t.boundedArena.zone s.start s.capacity e :=
      hm.zone_eq ⟨fun _ => by omega, fun _ => hrank.2⟩
    have h2 := hm.zone_succ hsit.permutes hrank.1 (by omega)
    have h3 := hm.notMem_zone hrank.1
    rw [Nat.sub_add_cancel (by omega : 1 ≤ e), h1] at h2
    rw [BoundedSet.envelope, BoundedSet.envelope, Trail.count_of_content he',
      Trail.count_of_content he, hw.boundedArena, h2, Finset.erase_insert h3]
    rfl
  have hker : s.kernel t' = s.kernel t := by
    rw [BoundedSet.kernel, BoundedSet.kernel, Trail.count_of_content hk',
      Trail.count_of_content hk, hw.boundedArena]
    refine hm.zone_eq ⟨fun h => absurd (Arena.mem_zone.2 ⟨hrank.1, ?_⟩) hak,
      fun h => absurd h (by omega)⟩
    rwa [Trail.count_of_content hk]
  refine ⟨t', ?_, hturns.trans ?_⟩
  · have hE := envelopeContains_eq hv hx a
    have hK := kernelContains_eq hv hx a
    rw [decide_eq_true ha] at hE
    rw [decide_eq_false hak] at hK
    have hsize := envelopeSize_eq hv hx
    rw [hcard] at hsize
    have hsub : Checked.sub e 1 = .ok (e - 1) := Checked.sub_eq (by omega)
    simp only [remove, Update.bind_apply, Update.query_apply, hE, hK, hlay, hsize, hsub, hmove,
      if_true, Bool.false_eq_true, if_false, Update.discard_apply, IntRef.decrement, hadd,
      Update.pure_apply]
  · have hview := hturns.view
    rw [hview] at hrev
    have : s.view t' = { s.view t with envelope := (s.view t).envelope.erase a } := by
      rw [BoundedSet.view, hker, henv]
      rfl
    rwa [this] at hrev

/-- `enforce` adds the value to the kernel, and is refused if it is out of the envelope. -/
theorem enforce_ends (a : Nat) :
    Update.Ends (r.enforce a) t
      (fun b t' => a ∈ x.envelope ∧ b = decide (a ∉ x.kernel) ∧ Trail.Turns t
        (t.view.setBounded r.index { x with kernel := insert a x.kernel }) t')
      fun e t' => e = .violation (.outsideEnvelope a) ∧ a ∉ x.envelope ∧ t' = t := by
  have hE := envelopeContains_eq hv hx a
  have hK := kernelContains_eq hv hx a
  by_cases ha : a ∈ x.envelope
  · by_cases hak : a ∈ x.kernel
    · refine Update.ends_of_ok (a := false) (u := t) ?_ ⟨ha, by simp [hak], ?_⟩
      · rw [decide_eq_true ha] at hE
        rw [decide_eq_true hak] at hK
        simp only [enforce, Update.bind_apply, Update.query_apply, hE, hK, if_true,
          Update.pure_apply]
      · rw [Finset.insert_eq_self.2 hak, View.setBounded_eq_self hx]
        exact hv.turns_self
    · obtain ⟨t', hok, ht⟩ := enforce_undecided hv hx ha hak
      exact Update.ends_of_ok hok ⟨ha, by simp [hak], ht⟩
  · refine Update.ends_of_error (e := .violation (.outsideEnvelope a)) (u := t) ?_ ⟨rfl, ha, rfl⟩
    rw [decide_eq_false ha] at hE
    simp only [enforce, Update.bind_apply, Update.query_apply, hE, Bool.false_eq_true, if_false,
      Update.throw_apply]

/-- `remove` takes the value from the envelope, and is refused if it is in the kernel. -/
theorem remove_ends (a : Nat) :
    Update.Ends (r.remove a) t
      (fun b t' => a ∉ x.kernel ∧ b = decide (a ∈ x.envelope) ∧ Trail.Turns t
        (t.view.setBounded r.index { x with envelope := x.envelope.erase a }) t')
      fun e t' => e = .violation (.insideKernel a) ∧ a ∈ x.kernel ∧ t' = t := by
  have hE := envelopeContains_eq hv hx a
  have hK := kernelContains_eq hv hx a
  by_cases hak : a ∈ x.kernel
  · refine Update.ends_of_error (e := .violation (.insideKernel a)) (u := t) ?_ ⟨rfl, hak, rfl⟩
    rw [decide_eq_true hak] at hK
    simp only [remove, Update.bind_apply, Update.query_apply, hK, if_true, Update.throw_apply]
  · by_cases ha : a ∈ x.envelope
    · obtain ⟨t', hok, ht⟩ := remove_undecided hv hx ha hak
      exact Update.ends_of_ok hok ⟨hak, by simp [ha], ht⟩
    · refine Update.ends_of_ok (a := false) (u := t) ?_ ⟨hak, by simp [ha], ?_⟩
      · rw [decide_eq_false ha] at hE
        rw [decide_eq_false hak] at hK
        simp only [remove, Update.bind_apply, Update.query_apply, hE, hK, Bool.false_eq_true,
          if_false, Update.pure_apply]
      · rw [Finset.erase_eq_of_notMem ha, View.setBounded_eq_self hx]
        exact hv.turns_self

end

end BoundedRef

end Propagation
