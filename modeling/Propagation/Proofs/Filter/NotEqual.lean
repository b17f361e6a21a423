import Propagation.Constraint.NotEqual
import Propagation.Proofs.Filter.Advance

/-!
# Filtering of disequalities

A scene is stable for `x ≠ y` if neither variable is fixed to a value that the other still has.
One round of `NotEqual.forbid` in each direction makes it so, and no stable scene loses anything by
it. What the constraint says about itself depends on the two domains only (`NotEqual.verdict`).
-/

set_option autoImplicit false

namespace Propagation.NotEqual

open Update Store

/-! ## What is to be reached -/

/-- If `x` is fixed in `S`, its value is not in the domain of `y`. -/
def Clear (S : Scene) (x y : Var) : Prop :=
  ∀ a vs, S x = some (.int {a}) → S y = some (.int vs) → a ∉ vs

def Stable (c : NotEqual) (S : Scene) : Prop := Clear S c.x c.y ∧ Clear S c.y c.x

/-- No value is in both domains. -/
def Entailed (c : NotEqual) (S : Scene) : Prop :=
  ∃ vs ws, S c.x = some (.int vs) ∧ S c.y = some (.int ws) ∧ Disjoint vs ws

/-- Both variables are integers in `S`. -/
def Fits (c : NotEqual) (S : Scene) : Prop :=
  (∃ vs, S c.x = some (.int vs)) ∧ ∃ vs, S c.y = some (.int vs)

/-- A direction that is not `Clear` is due: index `0` from `c.x`, index `1` from `c.y`. -/
def Covered (c : NotEqual) (S : Scene) (woken : Nat → Prop) : Prop :=
  (¬Clear S c.x c.y → woken 0) ∧ (¬Clear S c.y c.x → woken 1)

variable {c : NotEqual} {S S' : Scene} {x y : Var}

theorem Entailed.stable (h : c.Entailed S) : c.Stable S := by
  obtain ⟨vs, ws, hx, hy, hd⟩ := h
  constructor
  · intro a us ha hus
    rw [hx, Option.some.injEq, Dom.int.injEq] at ha
    rw [hy, Option.some.injEq, Dom.int.injEq] at hus
    subst ha hus
    exact Finset.disjoint_singleton_left.1 hd
  · intro a us ha hus
    rw [hy, Option.some.injEq, Dom.int.injEq] at ha
    rw [hx, Option.some.injEq, Dom.int.injEq] at hus
    subst ha hus
    exact Finset.disjoint_singleton_right.1 hd

theorem int_of_within (h : Scene.Within S' S) {v : Var} {vs : Finset Int}
    (hv : S v = some (.int vs)) : ∃ ws, S' v = some (.int ws) ∧ ws.Nonempty ∧ ws ⊆ vs := by
  obtain ⟨C, hC, hwf, hle⟩ := h v _ hv
  cases C with
  | int ws => exact ⟨ws, hC, hwf, hle⟩
  | set n b => exact hle.elim
  | graph n b => exact hle.elim

theorem Fits.within (h : c.Fits S) (hle : Scene.Within S' S) : c.Fits S' := by
  obtain ⟨⟨vs, hx⟩, ws, hy⟩ := h
  obtain ⟨vs', hx', -⟩ := int_of_within hle hx
  obtain ⟨ws', hy', -⟩ := int_of_within hle hy
  exact ⟨⟨vs', hx'⟩, ws', hy'⟩

theorem Entailed.within (h : c.Entailed S) (hle : Scene.Within S' S) : c.Entailed S' := by
  obtain ⟨vs, ws, hx, hy, hd⟩ := h
  obtain ⟨vs', hx', -, hvs⟩ := int_of_within hle hx
  obtain ⟨ws', hy', -, hws⟩ := int_of_within hle hy
  exact ⟨vs', ws', hx', hy', hd.mono hvs hws⟩

/-! ## One direction -/

/-- The scenes before and after `forbid x y`: nothing has changed, because `x` is not fixed, or `y`
has lost the value of `x`. -/
def Forbidden (S : Scene) (x y : Var) (S' : Scene) : Prop :=
  (S' = S ∧ ∀ a, S x ≠ some (.int {a})) ∨
    ∃ a vs, S x = some (.int {a}) ∧ S y = some (.int vs) ∧ x ≠ y ∧
      S' = Function.update S y (some (.int (vs.filter (· ≠ a))))

theorem Forbidden.clear (h : Forbidden S x y S') : Clear S' x y := by
  rcases h with ⟨rfl, hno⟩ | ⟨a, vs, hx, hy, hne, rfl⟩
  · exact fun b us hb => absurd hb (hno b)
  · intro b us hb hus
    rw [Function.update_of_ne hne, hx, Option.some.injEq, Dom.int.injEq,
      Finset.singleton_inj] at hb
    rw [Function.update_self, Option.some.injEq, Dom.int.injEq] at hus
    rw [← hus, ← hb]
    simp

/-- After `forbid x y` the other direction is clear, unless nothing has changed and it was not clear
before. -/
theorem Forbidden.clear_symm (h : Forbidden S x y S') :
    Clear S' y x ∨ (S' = S ∧ ¬Clear S y x) := by
  rcases h with ⟨rfl, -⟩ | ⟨a, vs, hx, hy, hne, rfl⟩
  · exact (em (Clear S' y x)).imp_right fun hn => ⟨rfl, hn⟩
  · refine .inl fun b us hb hus hmem => ?_
    rw [Function.update_of_ne hne, hx, Option.some.injEq, Dom.int.injEq] at hus
    rw [Function.update_self, Option.some.injEq, Dom.int.injEq] at hb
    obtain rfl := Finset.mem_singleton.1 (hus ▸ hmem)
    have hself : b ∈ vs.filter (· ≠ b) := hb ▸ Finset.mem_singleton_self b
    exact (Finset.mem_filter.1 hself).2 rfl

/-- `forbid` in both directions makes the scene stable. -/
theorem Forbidden.stable {S'' : Scene} (h : Forbidden S c.x c.y S')
    (h' : Forbidden S' c.y c.x S'') : c.Stable S'' := by
  refine ⟨?_, h'.clear⟩
  rcases h'.clear_symm with hclear | ⟨rfl, hn⟩
  · exact hclear
  · exact absurd h.clear hn

section
variable {ν σ : Type} {w : Workspace ν σ} {P : Scene → Prop} {fit : Prop} {cause : Cause}
  {fixed other : Var}

/-- If all scenes of `P` are clear from `fixed` to `other`, the removal of the fixed value is
granted. -/
theorem grants_remove {a : Int} (hP : ∀ G, P G → Clear G fixed other)
    (hv : S fixed = some (.int {a})) : Grants P S other (.remove a) := by
  intro G hG hle D C hD ha hC hwf hCD
  obtain ⟨us, hus, hne, hsub⟩ := int_of_within hle hv
  obtain rfl := (Finset.Nonempty.subset_singleton_iff hne).1 hsub
  cases D with
  | set n b => exact ha.elim
  | graph n b => exact ha.elim
  | int ws =>
    cases C with
    | set n b => exact hCD.elim
    | graph n b => exact hCD.elim
    | int vs =>
      have hself : vs.filter (· ≠ a) = vs :=
        Finset.filter_true_of_mem fun b hb hab => hP G hG a vs hus hC (hab ▸ hb)
      show (if (vs.filter (· ≠ a)).Nonempty then _ else _) = _
      rw [hself, if_pos (show vs.Nonempty from hwf)]

theorem forbid_filters (hs : w.store.Valid) (hP : ∀ G, P G → Clear G fixed other)
    (hfit : fit → (∃ vs, w.store.scene fixed = some (.int vs)) ∧
      ∃ vs, w.store.scene other = some (.int vs)) :
    Action.Filters P fit cause w (forbid fixed other cause : Action ν σ Unit) fun _ S =>
      Forbidden w.store.scene fixed other S := by
  by_cases hint : ∃ vs, w.store.scene fixed = some (.int vs)
  · obtain ⟨vs, hv⟩ := hint
    obtain ⟨lo, hi, hlo, -⟩ := hs.exists_bounds hv
    have hfixed := hs.isFixed_eq hv
    refine Action.filters_ask (fun b hb => ?_) fun e he => ?_
    swap
    · rw [hfixed] at he
      cases he
    rw [hfixed] at hb
    cases hb
    refine Action.filters_ask (fun a ha => ?_) fun e he _ => ?_
    swap
    · rcases hs.min_eq hv hlo with hmin | hmin <;> rw [hmin] at he <;> cases he
      rfl
    obtain rfl : a = some lo := by
      rcases hs.min_eq hv hlo with hmin | hmin <;> rw [hmin] at ha <;> cases ha
      rfl
    by_cases hcard : vs.card = 1
    · obtain ⟨a, rfl⟩ := Finset.card_eq_one.1 hcard
      obtain rfl : lo = a := by simpa using hlo.1
      rw [decide_eq_true hcard]
      refine (Action.filters_narrowing hs (grants_remove hP hv) fun hf => ?_).mono ?_
      · obtain ⟨-, us, hus⟩ := hfit hf
        exact ⟨_, hus, trivial⟩
      · rintro - u - ⟨D, D', hD, ha, hn, hscene⟩
        refine .inr ?_
        cases D with
        | set n b => exact ha.elim
        | graph n b => exact ha.elim
        | int us =>
          rw [Dom.after, Dom.keep] at hn
          split at hn
          · next hne =>
            cases hn
            refine ⟨lo, us, hv, hD, ?_, hscene⟩
            rintro rfl
            rw [hv] at hD
            cases hD
            obtain ⟨b, hb⟩ := hne
            obtain ⟨hb, hne⟩ := Finset.mem_filter.1 hb
            exact hne (Finset.mem_singleton.1 hb)
          · cases hn
    · rw [decide_eq_false hcard]
      refine Action.filters_pure hs (.inl ⟨rfl, fun a ha => hcard ?_⟩)
      rw [hv, Option.some.injEq, Dom.int.injEq] at ha
      rw [ha, Finset.card_singleton]
  · obtain ⟨k, hk⟩ := hs.ints_error (v := fixed) fun D hD hkind => by
      obtain ⟨vs, rfl⟩ := Dom.kindOf_eq_int hkind
      exact hint ⟨vs, hD⟩
    have herr : w.store.isFixed fixed = .error (.violation k) := by
      rw [isFixed, size, hk]
      rfl
    refine Action.filters_ask (fun b hb => ?_) fun e _ hf => absurd (hfit hf).1 hint
    rw [herr] at hb
    cases hb

end

/-! ## Runs -/

section
variable {ν : Type} {w : Workspace ν NotEqual} {P : Scene → Prop} {fit : Prop} {p : PropagatorId}

theorem propagate_filters (hs : w.store.Valid) (hown : w.own = c) (hc : c.cause = .propagator p)
    (hP : ∀ G, P G → c.Stable G) (hfit : fit → c.Fits w.store.scene) :
    Action.Filters P fit (.propagator p) w (Propagator.propagate : Action ν NotEqual Unit)
      fun _ S => c.Stable S := by
  subst hown
  refine Ends.of_eq ?_ (Action.run_state_bind _)
  rw [← hc]
  refine Action.Filters.seq (forbid_filters hs (fun G hG => (hP G hG).1) hfit)
    fun _ u hu hadv hx => ?_
  refine (forbid_filters hadv.valid (fun G hG => (hP G hG).2) fun hf => ?_).mono
    fun _ _ _ hy => hx.stable hy
  exact (Fits.within (hfit hf) hadv.within).symm

/-- `propagateOn` at the index `0` filters from `c.x` to `c.y`, and at any other index from `c.y` to
`c.x`. -/
theorem propagateOn_filters (hs : w.store.Valid) (hown : w.own = c) (hc : c.cause = .propagator p)
    (hP : ∀ G, P G → c.Stable G) (hfit : fit → c.Fits w.store.scene) (i : Nat) (m : Mask) :
    Action.Filters P fit (.propagator p) w (Propagator.propagateOn i m : Action ν NotEqual Unit)
      fun _ S => if i = 0 then Forbidden w.store.scene c.x c.y S
        else Forbidden w.store.scene c.y c.x S := by
  subst hown
  refine Ends.of_eq ?_ (Action.run_state_bind _)
  rw [← hc]
  by_cases hi : i = 0
  · simp only [if_pos hi]
    exact forbid_filters hs (fun G hG => (hP G hG).1) hfit
  · simp only [if_neg hi]
    exact forbid_filters hs (fun G hG => (hP G hG).2) fun hf => (hfit hf).symm

end

/-! ## Entailment -/

/-- The entailment of a disequality between the domains `vs` and `ws`. -/
def verdict (vs ws : Finset Int) : Entailment :=
  if Disjoint vs ws then .entailed
  else if vs.card = 1 ∧ ws.card = 1 then .violated else .undecided

section
variable {s : Store} {vs ws : Finset Int}

theorem meets_eq (hs : s.Valid) (hx : s.scene x = some (.int vs)) (hy : s.scene y = some (.int ws))
    (a : Int) (n : Nat) :
    meets s x y a n = .ok (decide (∃ k < n, a + (k : Nat) ∈ vs ∧ a + (k : Nat) ∈ ws)) ∨
      meets s x y a n = .error .overflow := by
  induction n generalizing a with
  | zero => exact .inl (by simp [meets])
  | succ n ih =>
    have hsplit : (∃ k < n + 1, a + (k : Nat) ∈ vs ∧ a + (k : Nat) ∈ ws) ↔
        (a ∈ vs ∧ a ∈ ws) ∨ ∃ k < n, a + 1 + (k : Nat) ∈ vs ∧ a + 1 + (k : Nat) ∈ ws := by
      constructor
      · rintro ⟨k, hk, h⟩
        cases k with
        | zero => exact .inl (by simpa using h)
        | succ k =>
          refine .inr ⟨k, by omega, ?_⟩
          rwa [Int.natCast_succ, add_comm (k : Int) 1, ← add_assoc] at h
      · rintro (h | ⟨k, hk, h⟩)
        · exact ⟨0, Nat.succ_pos n, by simpa using h⟩
        · refine ⟨k + 1, by omega, ?_⟩
          rwa [Int.natCast_succ, add_comm (k : Int) 1, ← add_assoc]
    have hnext : ¬(a ∈ vs ∧ a ∈ ws) → meets s x y a (n + 1) = meets s x y (a + 1) n →
        meets s x y a (n + 1) = .ok (decide (∃ k < n + 1, a + (k : Nat) ∈ vs ∧ a + (k : Nat) ∈ ws)) ∨
          meets s x y a (n + 1) = .error .overflow := fun ha heq => by
      simp only [heq, hsplit, ha, false_or]
      exact ih (a + 1)
    rcases hs.contains_eq hx a with hcx | hcx
    · by_cases ha : a ∈ vs
      · rcases hs.contains_eq hy a with hcy | hcy
        · by_cases hb : a ∈ ws
          · have hmeets : meets s x y a (n + 1) = .ok true := by
              simp [meets, hcx, hcy, ha, hb, bind, Except.bind]
            exact .inl (by rw [hmeets, decide_eq_true (hsplit.2 (.inl ⟨ha, hb⟩))])
          · exact hnext (fun h => hb h.2) (by simp [meets, hcx, hcy, ha, hb, bind, Except.bind])
        · exact .inr (by simp [meets, hcx, hcy, ha, bind, Except.bind])
      · exact hnext (fun h => ha h.1) (by simp [meets, hcx, ha, bind, Except.bind])
    · exact .inr (by simp [meets, hcx, bind, Except.bind])

theorem overlap_eq (hs : s.Valid) (hx : s.scene x = some (.int vs))
    (hy : s.scene y = some (.int ws)) :
    overlap s x y = .ok (decide ¬Disjoint vs ws) ∨ overlap s x y = .error .overflow := by
  obtain ⟨lo, hi, hlo, hhi⟩ := hs.exists_bounds hx
  rcases hs.min_eq hx hlo with hmin | hmin
  · rcases hs.max_eq hx hhi with hmax | hmax
    · have hiff : (∃ k < (hi + 1 - lo).toNat, lo + (k : Nat) ∈ vs ∧ lo + (k : Nat) ∈ ws) ↔
          ¬Disjoint vs ws := by
        rw [Finset.not_disjoint_iff]
        constructor
        · rintro ⟨k, -, h⟩
          exact ⟨_, h⟩
        · rintro ⟨a, ha, hb⟩
          have h1 := hlo.2 ha
          have h2 := hhi.2 ha
          refine ⟨(a - lo).toNat, by omega, ?_⟩
          rw [Int.toNat_of_nonneg (by omega), add_sub_cancel]
          exact ⟨ha, hb⟩
      rcases meets_eq hs hx hy lo (hi + 1 - lo).toNat with hmeets | hmeets
      · refine .inl ?_
        simp only [overlap, hmin, hmax, bind, Except.bind, hmeets, hiff]
      · refine .inr ?_
        simp only [overlap, hmin, hmax, bind, Except.bind, hmeets]
    · refine .inr ?_
      simp only [overlap, hmin, hmax, bind, Except.bind]
  · refine .inr ?_
    simp only [overlap, hmin, bind, Except.bind]

theorem entailment_of_overlap (hs : s.Valid) (hx : s.scene c.x = some (.int vs))
    (hy : s.scene c.y = some (.int ws)) (h : overlap s c.x c.y = .ok (decide ¬Disjoint vs ws)) :
    entailment c s = .ok (verdict vs ws) := by
  by_cases hd : Disjoint vs ws
  · simp [entailment, h, hd, verdict, bind, Except.bind]
  · by_cases hcx : vs.card = 1 <;> by_cases hcy : ws.card = 1 <;>
      simp [entailment, h, hd, verdict, hs.isFixed_eq hx, hs.isFixed_eq hy, hcx, hcy, bind,
        Except.bind]

theorem entailment_eq (hs : s.Valid) (hx : s.scene c.x = some (.int vs))
    (hy : s.scene c.y = some (.int ws)) :
    entailment c s = .ok (verdict vs ws) ∨ entailment c s = .error .overflow := by
  rcases overlap_eq hs hx hy with h | h
  · exact .inl (entailment_of_overlap hs hx hy h)
  · refine .inr ?_
    simp only [entailment, h, bind, Except.bind]

/-- `entailment` answers only if both variables are integers. -/
theorem fits_of_entailment (hs : s.Valid) {r : Entailment} (h : entailment c s = .ok r) :
    c.Fits s.scene := by
  have hints : ∀ v, (¬∃ vs, s.scene v = some (.int vs)) → ∃ k, s.ints v = .error (.violation k) :=
    fun v hno => hs.ints_error fun D hD hkind => by
      obtain ⟨vs, rfl⟩ := Dom.kindOf_eq_int hkind
      exact hno ⟨vs, hD⟩
  by_cases hx : ∃ vs, s.scene c.x = some (.int vs)
  · refine ⟨hx, ?_⟩
    by_contra hy
    obtain ⟨k, hk⟩ := hints _ hy
    obtain ⟨vs, hx⟩ := hx
    obtain ⟨lo, hi, hlo, hhi⟩ := hs.exists_bounds hx
    have hcx := hs.contains_of_mem hx hlo.1
    have hcy : s.contains c.y lo = .error (.violation k) := by
      rw [contains, hk]
      rfl
    -- the first value of the first variable is looked up in the second one
    have hle := hlo.2 hhi.1
    obtain ⟨n, hn⟩ : ∃ n, (hi + 1 - lo).toNat = n + 1 := ⟨(hi - lo).toNat, by omega⟩
    rcases hs.min_eq hx hlo with hmin | hmin <;> rcases hs.max_eq hx hhi with hmax | hmax <;>
      simp [entailment, overlap, hmin, hmax, hn, meets, hcx, hcy, bind, Except.bind] at h
  · obtain ⟨k, hk⟩ := hints _ hx
    have hmin : s.min c.x = .error (.violation k) := by
      unfold Store.min
      rw [hk]
      rfl
    simp [entailment, overlap, hmin, bind, Except.bind] at h

end

end Propagation.NotEqual
