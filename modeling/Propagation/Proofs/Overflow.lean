import Propagation.Proofs.Filter.NotEqual
import Propagation.Proofs.Made

/-!
# When integers overflow

An integer variable looks a value up by its distance from the lower end of the interval that it was
created with, before it checks whether the value lies in the interval. So `contains` overflows on a
value that is too far from there, and with it `fix` and `remove`, which call it first; cuts compare
with the bounds first, and never overflow (`Store.Handles`). A disequality looks up the values of
each variable in the other one, so it overflows at one that is too far away. The theorem
`made_overflows` states exactly when each of these overflows, and its result if it does not.
-/

set_option autoImplicit false

namespace Propagation

open Update

namespace Store

/-- The narrowing `n` of an integer variable with the values `vs` does not fault: it leaves what
`Dom.after` says and answers whether that is less, or is refused since nothing would be left. -/
def Carries (s : Store) (v : Var) (vs : Finset Int) (n : Narrowing) (c : Cause) : Prop :=
  match (Dom.int vs).after n with
  | some D => ∃ s', narrow v n c s = .ok (decide (D ≠ .int vs)) s' ∧ s'.Shows v D
  | none => narrow v n c s = .error (.contradiction ⟨some v, c, n.refusal⟩) s

/-- The queries and narrowings of an integer variable with the values `vs`, counted from `lo`: which
of them overflow, and the results of the others. -/
structure Handles (s : Store) (v : Var) (lo : Int) (vs : Finset Int) : Prop where
  shows : s.Shows v (.int vs)
  min : ∀ a, IsLeast (vs : Set Int) a → s.min v = .ok (some a)
  max : ∀ a, IsGreatest (vs : Set Int) a → s.max v = .ok (some a)
  contains : ∀ a, s.contains v a =
    if Checked.Signed (a - lo) then .ok (decide (a ∈ vs)) else .error .overflow
  /-- Arguments whose distance from `lo` is a machine integer. -/
  near : ∀ a, Checked.Signed (a - lo) → ∀ c,
    s.Carries v vs (.fix a) c ∧ s.Carries v vs (.remove a) c
  /-- Arguments whose distance from `lo` overflows. -/
  far : ∀ a, ¬Checked.Signed (a - lo) → ∀ c,
    narrow v (.fix a) c s = .error (.fault .overflow) s ∧
      narrow v (.remove a) c s = .error (.fault .overflow) s
  cuts : ∀ a c, s.Carries v vs (.removeBelow a) c ∧ s.Carries v vs (.removeAbove a) c

variable {s : Store} {v : Var} {lo hi : Int} {vs : Finset Int} {n : Narrowing}

/-! ## Integer variables -/

theorem Valid.carries (hs : s.Valid) (hv : s.scene v = some (.int vs)) (hn : n.kind = .int)
    (hno : ¬s.Overreaches v n) (c : Cause) : s.Carries v vs n c := by
  have hends := hs.narrow_ends v n c
  cases hrun : narrow v n c s with
  | ok changed s' =>
    obtain ⟨D, D', -, hafter, hchanged, h, -⟩ := hends.of_ok hrun
    obtain rfl : D = .int vs := Option.some.inj (h.before.symm.trans hv)
    rw [Carries, hafter]
    exact ⟨s', by rw [hrun, hchanged], h.valid.shows h.after⟩
  | error e s' =>
    cases e with
    | contradiction x =>
      obtain ⟨rfl, rfl, D, hD, -, hafter⟩ := hends.of_error hrun
      obtain rfl : D = .int vs := Option.some.inj (hD.symm.trans hv)
      rw [Carries, hafter]
      exact hrun
    | fault f =>
      rcases hends.of_error hrun with ⟨-, -, hover, -⟩ | ⟨k, -, -, hkind⟩
      · exact absurd hover hno
      · refine absurd ?_ (hkind _ hv)
        cases n <;> first | exact trivial | cases hn

section
variable (hs : s.Valid) (hv : s.Spans v lo hi vs) (hlo : Checked.Signed lo)
  (hhi : Checked.Signed hi)
include hv hlo hhi

theorem Spans.signed {a : Int} (ha : a ∈ vs) : Checked.Signed a := by
  have hwithin := hv.within a ha
  unfold Checked.Signed at *
  omega

/-- If all sums of `n` are machine integers, `n` does not overflow. -/
theorem Spans.not_overreaches (h : ∀ i ∈ n.sums lo, Checked.Signed i) : ¬s.Overreaches v n := by
  rintro ⟨ws, o, hws, ho, i, hi', hno⟩
  obtain rfl : vs = ws := by
    have heq := hv.scene.symm.trans hws
    cases heq
    rfl
  obtain rfl : lo = o := Option.some.inj (hv.offset.symm.trans ho)
  rcases hi' with hi' | hi'
  · exact hno (hv.signed hlo hhi hi')
  · exact hno (h i hi')

include hs

theorem Spans.min_eq {a : Int} (ha : IsLeast (vs : Set Int) a) : s.min v = .ok (some a) := by
  rw [hs.min_checked hv.scene ha, Checked.int_of_signed (hv.signed hlo hhi ha.1)]
  rfl

theorem Spans.max_eq {a : Int} (ha : IsGreatest (vs : Set Int) a) : s.max v = .ok (some a) := by
  rw [hs.max_checked hv.scene ha, Checked.int_of_signed (hv.signed hlo hhi ha.1)]
  rfl

omit hlo hhi in
theorem Spans.contains_eq (a : Int) : s.contains v a =
    if Checked.Signed (a - lo) then .ok (decide (a ∈ vs)) else .error .overflow := by
  rw [hs.contains_checked hv.scene hv.offset]
  split
  · next h => rw [Checked.int_of_signed h]; rfl
  · next h => rw [Checked.int_of_not_signed h]; rfl

/-- `remove a`, for a distance `a - lo` that is a machine integer, succeeds or would leave nothing.
-/
theorem Spans.remove_ends {a : Int} (ha : Checked.Signed (a - lo)) (c : Cause) :
    Ends (narrow v (.remove a) c) s
      (fun _ s' => s.Evolves s' ∧ s'.scene v = some (.int (vs.filter (· ≠ a))))
      fun e _ => (∃ k, e = .contradiction k) ∧ vs.filter (· ≠ a) = ∅ := by
  refine (hs.narrow_ends v (.remove a) c).mono ?_ fun e s' h => ?_
  · rintro b s' ⟨D, D', -, hafter, -, h, -⟩
    obtain rfl : D = .int vs := Option.some.inj (h.before.symm.trans hv.scene)
    rw [Dom.after, Dom.keep] at hafter
    split at hafter
    · cases hafter
      exact ⟨h.evolves, h.after⟩
    · cases hafter
  · have hno := hv.not_overreaches (n := .remove a) hlo hhi fun i hi' =>
      List.mem_singleton.1 hi' ▸ ha
    cases e with
    | contradiction k =>
      obtain ⟨-, -, D, hD, -, hafter⟩ := h
      obtain rfl : D = .int vs := Option.some.inj (hD.symm.trans hv.scene)
      rw [Dom.after, Dom.keep] at hafter
      split at hafter
      · cases hafter
      · next hempty => exact ⟨⟨k, rfl⟩, Finset.not_nonempty_iff_eq_empty.1 hempty⟩
    | fault f =>
      rcases h with ⟨-, -, hover, -⟩ | ⟨k, -, -, hkind⟩
      · exact absurd hover hno
      · exact absurd trivial (hkind _ hv.scene)

/-- A cut compares `a` with the bounds first: it changes nothing, or is refused, or `a` is within
the bounds, so that no sum overflows. -/
theorem Spans.carries_cuts (hsize : Checked.Signed (hi - lo + 1)) (a : Int) (c : Cause) :
    s.Carries v vs (.removeBelow a) c ∧ s.Carries v vs (.removeAbove a) c := by
  obtain ⟨l, g, hl, hg⟩ := hs.exists_bounds hv.scene
  have hmin := hv.min_eq hs hlo hhi hl
  have hmax := hv.max_eq hs hlo hhi hg
  have hl' := hv.within l hl.1
  have hg' := hv.within g hg.1
  have hidle : ∀ {n : Narrowing}, (Dom.int vs).after n = some (.int vs) →
      narrow v n c s = .ok false s → s.Carries v vs n c := fun hafter hrun => by
    rw [Carries, hafter]
    exact ⟨s, by rw [hrun]; simp, hs.shows hv.scene⟩
  constructor
  · by_cases hlow : a ≤ l
    · refine hidle (Dom.keep_int_of_all (hs.wf hv.scene) fun b hb => hlow.trans (hl.2 hb)) ?_
      simp [narrow, removeBelow, bind_apply, lift_apply, query_eq, hmin, hmax, hlow, pure_apply]
    · by_cases hhigh : g < a
      · have hafter : (Dom.int vs).after (.removeBelow a) = none :=
          Dom.keep_int_of_none fun b hb h => absurd (h.trans (hg.2 hb)) (not_le.2 hhigh)
        rw [Carries, hafter]
        simp [narrow, removeBelow, bind_apply, lift_apply, query_eq, hmin, hmax, hlow, hhigh,
          refuse, throw_apply, Narrowing.refusal]
      · refine hs.carries hv.scene rfl (hv.not_overreaches hlo hhi fun i hi' => ?_) c
        obtain rfl := List.mem_singleton.1 hi'
        unfold Checked.Signed at *
        omega
  · by_cases hhigh : g ≤ a
    · refine hidle (Dom.keep_int_of_all (hs.wf hv.scene) fun b hb => (hg.2 hb).trans hhigh) ?_
      simp [narrow, removeAbove, bind_apply, lift_apply, query_eq, hmin, hmax, hhigh, pure_apply]
    · by_cases hlow : a < l
      · have hafter : (Dom.int vs).after (.removeAbove a) = none :=
          Dom.keep_int_of_none fun b hb h => absurd ((hl.2 hb).trans h) (not_le.2 hlow)
        rw [Carries, hafter]
        simp [narrow, removeAbove, bind_apply, lift_apply, query_eq, hmin, hmax, hlow, hhigh,
          refuse, throw_apply, Narrowing.refusal]
      · refine hs.carries hv.scene rfl (hv.not_overreaches hlo hhi fun i hi' => ?_) c
        have hsum : i = a - lo ∨ i = a - lo + 1 := by simpa [Narrowing.sums] using hi'
        unfold Checked.Signed at *
        omega

theorem Spans.handles (hsize : Checked.Signed (hi - lo + 1)) : s.Handles v lo vs where
  shows := hs.shows hv.scene
  min _ := hv.min_eq hs hlo hhi
  max _ := hv.max_eq hs hlo hhi
  contains := hv.contains_eq hs
  near a ha c := by
    have hsums : ∀ i ∈ [a - lo], Checked.Signed i := fun i hi' => List.mem_singleton.1 hi' ▸ ha
    exact ⟨hs.carries hv.scene rfl (hv.not_overreaches (n := .fix a) hlo hhi hsums) c,
      hs.carries hv.scene rfl (hv.not_overreaches (n := .remove a) hlo hhi hsums) c⟩
  far a ha c := by
    have hcontains := hv.contains_eq hs a
    rw [if_neg ha] at hcontains
    constructor
    · simp only [narrow, fix, bind_apply, lift_apply, query_eq, hcontains]
    · simp only [narrow, remove, bind_apply, lift_apply, query_eq, hcontains]
  cuts := hv.carries_cuts hs hlo hhi hsize

end

end Store

/-! ## Disequalities -/

namespace NotEqual

open Store

/-- A value `a` of `vs` cannot be looked up in a domain counted from `o`, and no smaller value of
`vs` is in `ws`. -/
def Stumbles (vs ws : Finset Int) (o : Int) : Prop :=
  ∃ a ∈ vs, ¬Checked.Signed (a - o) ∧ ∀ b ∈ vs, b < a → b ∉ ws

instance (vs ws : Finset Int) (o : Int) : Decidable (Stumbles vs ws o) :=
  inferInstanceAs (Decidable (∃ a ∈ vs, _))

/-- `vs` has a single value, and it cannot be looked up in a domain counted from `o`. -/
def Strays (vs : Finset Int) (o : Int) : Prop := ∃ a ∈ vs, vs = {a} ∧ ¬Checked.Signed (a - o)

instance (vs : Finset Int) (o : Int) : Decidable (Strays vs o) :=
  inferInstanceAs (Decidable (∃ a ∈ vs, _))

/-- The value of a fixed variable cannot be looked up in the other one: in the second variable, or
in the first one if the second is fixed once the value of the first has been removed. -/
def Misses (vs ws : Finset Int) (o o' : Int) : Prop :=
  Strays vs o' ∨ Strays (ws.filter fun b => vs ≠ {b}) o

instance (vs ws : Finset Int) (o o' : Int) : Decidable (Misses vs ws o o') :=
  inferInstanceAs (Decidable (_ ∨ _))

variable {s : Store} {x y : Var} {lo hi lo' hi' : Int} {vs ws : Finset Int}

section
variable (hs : s.Valid) (hx : s.Spans x lo hi vs) (hy : s.Spans y lo' hi' ws)
  (hsize : Checked.Signed (hi - lo + 1))
include hs hx hy hsize

theorem meets_eq_overflow {a : Int} {n : Nat} (hlow : lo ≤ a) (hhigh : a + n ≤ hi + 1) :
    meets s x y a n = .error .overflow ↔ ∃ b, a ≤ b ∧ b < a + n ∧ b ∈ vs ∧
      ¬Checked.Signed (b - lo') ∧ ∀ j ∈ vs, a ≤ j → j < b → j ∉ ws := by
  induction n generalizing a with
  | zero =>
    refine iff_of_false (fun h => by cases h) ?_
    rintro ⟨b, hb, hb', -⟩
    omega
  | succ n ih =>
    have hnear : Checked.Signed (a - lo) := by
      unfold Checked.Signed at *
      omega
    -- a value that is passed over makes no difference
    have hnext : ¬(a ∈ vs ∧ ¬Checked.Signed (a - lo')) → ¬(a ∈ vs ∧ a ∈ ws) →
        (meets s x y (a + 1) n = .error .overflow ↔ ∃ b, a ≤ b ∧ b < a + (n + 1 : Nat) ∧ b ∈ vs ∧
          ¬Checked.Signed (b - lo') ∧ ∀ j ∈ vs, a ≤ j → j < b → j ∉ ws) := fun hsum hshared => by
      rw [ih (by omega) (by omega)]
      constructor
      · rintro ⟨b, hb, hb', hmem, hno, hbefore⟩
        refine ⟨b, by omega, by omega, hmem, hno, fun j hj hja hjb hjw => ?_⟩
        rcases eq_or_lt_of_le hja with rfl | hlt
        · exact hshared ⟨hj, hjw⟩
        · exact hbefore j hj (by omega) hjb hjw
      · rintro ⟨b, hb, hb', hmem, hno, hbefore⟩
        have hne : a ≠ b := by
          rintro rfl
          exact hsum ⟨hmem, hno⟩
        exact ⟨b, by omega, by omega, hmem, hno, fun j hj hja => hbefore j hj (by omega)⟩
    rw [meets, hx.contains_eq hs, if_pos hnear, hy.contains_eq hs]
    by_cases ha : a ∈ vs
    · by_cases hsum : Checked.Signed (a - lo')
      · by_cases hb : a ∈ ws
        · simp only [ha, hsum, hb, bind, Except.bind, decide_true, if_true]
          refine iff_of_false (fun h => by cases h) ?_
          rintro ⟨b, hb', -, -, hno, hbefore⟩
          have hne : a ≠ b := by
            rintro rfl
            exact hno hsum
          exact hbefore a ha (le_refl a) (by omega) hb
        · simp only [ha, hsum, hb, bind, Except.bind, decide_true, decide_false, if_true,
            Bool.false_eq_true, if_false]
          exact hnext (fun h => h.2 hsum) fun h => hb h.2
      · simp only [ha, hsum, bind, Except.bind, decide_true, if_true, if_false, true_iff]
        exact ⟨a, le_refl a, by omega, ha, hsum, fun j _ h h' => absurd h (not_le.2 h')⟩
    · simp only [ha, bind, Except.bind, decide_false, Bool.false_eq_true, if_false]
      exact hnext (fun h => ha h.1) fun h => ha h.1

variable (hlo : Checked.Signed lo) (hhi : Checked.Signed hi)
include hlo hhi

theorem entailment_checked (c : Cause) : entailment ⟨x, y, c⟩ s =
    if Stumbles vs ws lo' then .error .overflow else .ok (verdict vs ws) := by
  obtain ⟨l, g, hl, hg⟩ := hs.exists_bounds hx.scene
  have hl' := hx.within l hl.1
  have hg' := hx.within g hg.1
  have hle := hl.2 hg.1
  have hoverlap : overlap s x y = meets s x y l (g + 1 - l).toNat := by
    rw [overlap, hx.min_eq hs hlo hhi hl, hx.max_eq hs hlo hhi hg]
    rfl
  have hmeets : overlap s x y = .error .overflow ↔ Stumbles vs ws lo' := by
    rw [hoverlap, meets_eq_overflow hs hx hy hsize hl'.1 (by omega)]
    constructor
    · rintro ⟨b, -, -, hb, hno, hbefore⟩
      exact ⟨b, hb, hno, fun j hj => hbefore j hj (hl.2 hj)⟩
    · rintro ⟨b, hb, hno, hbefore⟩
      have hb₁ := hl.2 hb
      have hb₂ := hg.2 hb
      exact ⟨b, hb₁, by omega, hb, hno, fun j hj _ => hbefore j hj⟩
  split
  · next h =>
    simp only [entailment, hmeets.2 h, bind, Except.bind]
  · next h =>
    exact entailment_of_overlap (c := ⟨x, y, c⟩) hs hx.scene hy.scene
      ((overlap_eq hs hx.scene hy.scene).resolve_right fun he => h (hmeets.1 he))

end

/-! ## Filtering -/

theorem filter_fixed (ws : Finset Int) (a : Int) :
    (ws.filter fun b => ({a} : Finset Int) ≠ {b}) = ws.filter (· ≠ a) :=
  Finset.filter_congr fun b _ => by rw [ne_eq, Finset.singleton_inj, eq_comm]

theorem strays_singleton {a o : Int} : Strays {a} o ↔ ¬Checked.Signed (a - o) := by
  simp [Strays]

section
variable {ν σ : Type} (hlo : Checked.Signed lo) (hhi : Checked.Signed hi)
  (hlo' : Checked.Signed lo') (hhi' : Checked.Signed hi')
include hlo hhi hlo' hhi'

/-- `forbid x y` overflows iff the value of `x` `Strays` from `y`. Otherwise it removes the value of
a fixed `x` from `y`, or ends in a contradiction. -/
theorem forbid_ends {w : Workspace ν σ} (hs : w.store.Valid) (hx : w.store.Spans x lo hi vs)
    (hy : w.store.Spans y lo' hi' ws) (hsize' : Checked.Signed (hi' - lo' + 1)) (c : Cause) :
    Ends (forbid x y c : Action ν σ Unit).run w
      (fun _ u => ¬Strays vs lo' ∧ w.store.Evolves u.store ∧
        u.store.scene y = some (.int (ws.filter fun b => vs ≠ {b})))
      fun e _ => (Strays vs lo' ∧ e = .fault .overflow) ∨
        ¬Strays vs lo' ∧ (∃ k, e = .contradiction k) ∧ (ws.filter fun b => vs ≠ {b}) = ∅ := by
  obtain ⟨l, g, hl, hg⟩ := hs.exists_bounds hx.scene
  have hfixed := hs.isFixed_eq hx.scene
  have hmin := hx.min_eq hs hlo hhi hl
  refine Action.ends_ask (fun b hb => ?_) fun e he => by rw [hfixed] at he; cases he
  obtain rfl := Except.ok.inj (hfixed.symm.trans hb)
  refine Action.ends_ask (fun b hb => ?_) fun e he => by rw [hmin] at he; cases he
  obtain rfl := Except.ok.inj (hmin.symm.trans hb)
  by_cases hcard : vs.card = 1
  · obtain ⟨a, rfl⟩ := Finset.card_eq_one.1 hcard
    obtain rfl : l = a := by simpa using hl.1
    rw [decide_eq_true hcard, filter_fixed, strays_singleton]
    refine Action.ends_discard ?_
    by_cases hnear : Checked.Signed (l - lo')
    · have hremove := hy.remove_ends hs hlo' hhi' hnear c
      cases hrun : narrow y (.remove l) c w.store with
      | ok b s' =>
        exact ends_of_ok (by rw [Action.run_apply, hrun])
          ⟨fun hno => hno hnear, hremove.of_ok hrun⟩
      | error e s' =>
        exact ends_of_error (by rw [Action.run_apply, hrun])
          (.inr ⟨fun hno => hno hnear, hremove.of_error hrun⟩)
    · have hrun := ((hy.handles hs hlo' hhi' hsize').far l hnear c).2
      exact ends_of_error (by rw [Action.run_apply, hrun]) (.inl ⟨hnear, rfl⟩)
  · have hno : ∀ a, vs ≠ {a} := fun a h => hcard (by rw [h, Finset.card_singleton])
    rw [decide_eq_false hcard]
    refine ends_of_ok rfl ⟨?_, hs.evolves_self, ?_⟩
    · rintro ⟨a, -, h, -⟩
      exact hno a h
    · rw [Finset.filter_true_of_mem fun b _ => hno b]
      exact hy.scene

/-- `propagate` on a disequality overflows iff the two variables `Misses`. Otherwise it succeeds or
ends in a contradiction. -/
theorem propagate_checked {w : Workspace ν NotEqual} (hs : w.store.Valid)
    (hx : w.store.Spans w.own.x lo hi vs) (hy : w.store.Spans w.own.y lo' hi' ws)
    (hsize : Checked.Signed (hi - lo + 1)) (hsize' : Checked.Signed (hi' - lo' + 1)) :
    Ends (Propagator.propagate : Action ν NotEqual Unit).run w
      (fun _ _ => ¬Misses vs ws lo lo')
      fun e _ => (Misses vs ws lo lo' ∧ e = .fault .overflow) ∨
        ¬Misses vs ws lo lo' ∧ ∃ k, e = .contradiction k := by
  refine Ends.of_eq ?_ (Action.run_state_bind _)
  refine Action.ends_seq ((forbid_ends hlo hhi hlo' hhi' hs hx hy hsize' _).mono
    (fun _ _ h => h) fun e u h => ?_) fun _ u ⟨hfirst, hevolves, hscene⟩ => ?_
  · rcases h with ⟨hfirst, he⟩ | ⟨hfirst, he, hempty⟩
    · exact .inl ⟨.inl hfirst, he⟩
    · refine .inr ⟨?_, he⟩
      rw [Misses, hempty]
      rintro (h | ⟨a, ha, -⟩)
      · exact hfirst h
      · simp at ha
  · obtain ⟨vs', -, hx'⟩ := hevolves.spans hs hx
    obtain ⟨ws', -, hy'⟩ := hevolves.spans hs hy
    obtain rfl : ws' = ws.filter fun b => vs ≠ {b} := by
      have heq := hy'.scene.symm.trans hscene
      simpa using heq
    refine (forbid_ends hlo' hhi' hlo hhi hevolves.valid hy' hx' hsize _).mono
      (fun _ _ h hmiss => ?_) fun e _ h => ?_
    · exact hmiss.elim hfirst h.1
    · rcases h with ⟨hsecond, he⟩ | ⟨hsecond, he, -⟩
      · exact .inl ⟨.inr hsecond, he⟩
      · exact .inr ⟨fun hmiss => hmiss.elim hfirst hsecond, he⟩

end

end NotEqual

open NotEqual Store

variable {s : Store} {x y : Var} {lo hi lo' hi' : Int}

/-- In any reached store, two variables created with the integers from `lo` to `hi` and from `lo'`
to `hi'` have some of these left, and their queries and narrowings overflow exactly as `Handles`
says. So the entailment and the propagation of a disequality between them overflow only as
`Stumbles` and `Misses` say. -/
theorem made_overflows (hx : s.Made x lo hi) (hy : s.Made y lo' hi') (hlo : Checked.Signed lo)
    (hhi : Checked.Signed hi) (hlo' : Checked.Signed lo') (hhi' : Checked.Signed hi') :
    ∃ vs ws, (∀ a ∈ vs, lo ≤ a ∧ a ≤ hi) ∧ (∀ b ∈ ws, lo' ≤ b ∧ b ≤ hi') ∧
      s.Handles x lo vs ∧ s.Handles y lo' ws ∧
      (∀ c, NotEqual.entailment ⟨x, y, c⟩ s =
        if Stumbles vs ws lo' then .error .overflow else .ok (verdict vs ws)) ∧
      ∀ (ν : Type) (w : Workspace ν NotEqual), w.store = s → w.own.x = x → w.own.y = y →
        Ends (Propagator.propagate : Action ν NotEqual Unit).run w
          (fun _ _ => ¬Misses vs ws lo lo')
          fun e _ => (Misses vs ws lo lo' ∧ e = .fault .overflow) ∨
            ¬Misses vs ws lo lo' ∧ ∃ k, e = .contradiction k := by
  obtain ⟨hs, hrx⟩ := hx.ranges
  obtain ⟨-, hry⟩ := hy.ranges
  obtain ⟨vs, hvs⟩ := hrx.now
  obtain ⟨ws, hws⟩ := hry.now
  refine ⟨vs, ws, hvs.within, hws.within, hvs.handles hs hlo hhi hrx.size,
    hws.handles hs hlo' hhi' hry.size, entailment_checked hs hvs hws hrx.size hlo hhi, ?_⟩
  rintro ν w rfl rfl rfl
  exact propagate_checked hlo hhi hlo' hhi' hs hvs hws hrx.size hry.size

/-- A variable with the least machine integer, beside one with the integers 1 and 2. -/
def Store.farApart : Store :=
  (Call.create (.interval (-2 ^ 63) (-2 ^ 63))).perform.after
    ((Call.create (.interval 1 2)).perform.after .empty)

theorem Store.made_farApart :
    farApart.Made ⟨0⟩ 1 2 ∧ farApart.Made ⟨1⟩ (-2 ^ 63) (-2 ^ 63) := by
  refine ⟨.call (Reached.fresh.made ?_) _ nofun ?_, Reached.made (.call .fresh _ nofun) ?_⟩
  · decide +kernel
  · decide +kernel
  · decide +kernel

/-- The least machine integer cannot be looked up in the other variable. -/
theorem made_overflows_farApart : ∃ vs ws,
    farApart.Handles ⟨1⟩ (-2 ^ 63) vs ∧ farApart.Handles ⟨0⟩ 1 ws ∧
      ∀ c, NotEqual.entailment ⟨⟨1⟩, ⟨0⟩, c⟩ farApart =
        if Stumbles vs ws 1 then .error .overflow else .ok (verdict vs ws) := by
  obtain ⟨hx, hy⟩ := made_farApart
  obtain ⟨vs, ws, -, -, hvs, hws, hentailment, -⟩ :=
    made_overflows hy hx (by decide) (by decide) (by decide) (by decide)
  exact ⟨vs, ws, hvs, hws, hentailment⟩

/-- `contains`, `fix`, `remove` and a disequality overflow in a reached store. -/
theorem exists_overflow : farApart.Made ⟨0⟩ 1 2 ∧ farApart.Made ⟨1⟩ (-2 ^ 63) (-2 ^ 63) ∧
    Checked.Signed (-2 ^ 63) ∧ farApart.contains ⟨0⟩ (-2 ^ 63) = .error .overflow ∧
    (∃ s', narrow ⟨0⟩ (.fix (-2 ^ 63)) .decision farApart = .error (.fault .overflow) s') ∧
    (∃ s', narrow ⟨0⟩ (.remove (-2 ^ 63)) .decision farApart = .error (.fault .overflow) s') ∧
    NotEqual.entailment (.of ⟨1⟩ ⟨0⟩) farApart = .error .overflow ∧
    ∃ u, (Propagator.propagate : Action Unit NotEqual Unit).run ⟨farApart, .of ⟨1⟩ ⟨0⟩, #[]⟩ =
      .error (.fault .overflow) u := by
  have hfails : ∀ {σ α : Type} {x : Update Failure σ α} {s : σ},
      fails x s (fun e _ => decide (e = .fault .overflow)) = true →
        ∃ u, x s = .error (.fault .overflow) u := fun h => by
    obtain ⟨e, u, hrun, he⟩ := exists_of_fails h
    exact ⟨u, of_decide_eq_true he ▸ hrun⟩
  refine ⟨made_farApart.1, made_farApart.2, by decide, by decide +kernel, hfails ?_, hfails ?_,
    by decide +kernel, hfails ?_⟩
  · decide +kernel
  · decide +kernel
  · decide +kernel

end Propagation
