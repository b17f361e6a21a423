import Propagation.Proofs.Filter.Constraint
import Propagation.Proofs.Store.Offset

/-!
# Answers that last

A constraint that answers `entailed` gives the same answer when the domains shrink: it remains true,
and the queries behind it are among those made before, so that none of them overflows
(`Constraint.Lasting`). So `entailment` need not be called a second time.
-/

set_option autoImplicit false

namespace Propagation

open Store

/-! ## Disequalities -/

namespace NotEqual

/-- The lookups of the value `j` in `vs` and `ws`, which start at `o` and `o'`, do not overflow, and
`j` is not in both. -/
def Clears (vs ws : Finset Int) (o o' j : Int) : Prop :=
  Checked.int (j - o) = .ok (j - o) ∧ (j ∈ vs → Checked.int (j - o') = .ok (j - o') ∧ j ∉ ws)

/-- The bounds of `vs` can be computed, and the lookups of all values between two of them are
`Clears`. -/
structure Parted (vs ws : Finset Int) (o o' : Int) : Prop where
  bounds : ∀ i ∈ vs, Checked.int i = .ok i
  clears : ∀ i ∈ vs, ∀ k ∈ vs, ∀ j, i ≤ j → j ≤ k → Clears vs ws o o' j

/-- The disequality answers `entailed` in `S`, with the given starts of the domains, and the answer
is kept when they shrink. -/
def Lasting (c : NotEqual) (S : Scene) (start : Var → Option Int) : Prop :=
  ∃ vs ws o o', S c.x = some (.int vs) ∧ S c.y = some (.int ws) ∧ start c.x = some o ∧
    start c.y = some o' ∧ Parted vs ws o o'

variable {vs ws vs' ws' : Finset Int} {o o' j : Int} {s : Store} {c : NotEqual} {x y : Var}

theorem Parted.mono (h : Parted vs ws o o') (hv : vs' ⊆ vs) (hw : ws' ⊆ ws) :
    Parted vs' ws' o o' where
  bounds i hi := h.bounds i (hv hi)
  clears i hi k hk j hij hjk := by
    obtain ⟨hj, hshared⟩ := h.clears i (hv hi) k (hv hk) j hij hjk
    exact ⟨hj, fun hmem => (hshared (hv hmem)).imp_right fun hno h => hno (hw h)⟩

section
variable (hs : s.Valid) (hx : s.scene x = some (.int vs)) (hy : s.scene y = some (.int ws))
  (ho : s.offset x = some o) (ho' : s.offset y = some o')
include hs hx hy ho ho'

/-- `meets` over `n + 1` values is the lookup of the first one and `meets` over the others. -/
theorem meets_succ_eq_false (a : Int) (n : Nat) : meets s x y a (n + 1) = .ok false ↔
    Clears vs ws o o' a ∧ meets s x y (a + 1) n = .ok false := by
  rw [meets, hs.contains_checked hx ho, hs.contains_checked hy ho', Clears]
  rcases Checked.int_cases (a - o) with hi | hi
  · by_cases ha : a ∈ vs
    · rcases Checked.int_cases (a - o') with hi' | hi'
      · by_cases hb : a ∈ ws <;>
          simp [hi, hi', ha, hb, bind, Except.bind, Except.map]
      · simp [hi, hi', ha, bind, Except.bind, Except.map]
    · simp [hi, ha, bind, Except.bind, Except.map]
  · simp [hi, bind, Except.bind, Except.map]

theorem meets_eq_false (a : Int) (n : Nat) : meets s x y a n = .ok false ↔
    ∀ k < n, Clears vs ws o o' (a + (k : Nat)) := by
  induction n generalizing a with
  | zero => exact iff_of_true rfl fun k hk => absurd hk (Nat.not_lt_zero k)
  | succ n ih =>
    rw [meets_succ_eq_false hs hx hy ho ho', ih]
    constructor
    · rintro ⟨ha, hrest⟩ k hk
      cases k with
      | zero => simpa using ha
      | succ k =>
        rw [Int.natCast_succ, add_comm (k : Int) 1, ← add_assoc]
        exact hrest k (by omega)
    · intro h
      refine ⟨by simpa using h 0 (Nat.succ_pos n), fun k hk => ?_⟩
      have hnext := h (k + 1) (by omega)
      rwa [Int.natCast_succ, add_comm (k : Int) 1, ← add_assoc] at hnext

theorem overlap_eq_false : overlap s x y = .ok false ↔ Parted vs ws o o' := by
  obtain ⟨lo, hi, hlo, hhi⟩ := hs.exists_bounds hx
  have hmeets := meets_eq_false hs hx hy ho ho' lo (hi + 1 - lo).toNat
  have hle := hlo.2 hhi.1
  rw [overlap, hs.min_checked hx hlo, hs.max_checked hx hhi]
  constructor
  · intro h
    rcases Checked.int_cases lo with hl | hl <;> rcases Checked.int_cases hi with hh | hh <;>
      rw [hl, hh] at h
    · have hclears := hmeets.1 h
      have hbetween : ∀ j, lo ≤ j → j ≤ hi → Clears vs ws o o' j := fun j hj hj' => by
        have := hclears (j - lo).toNat (by omega)
        rwa [Int.toNat_of_nonneg (by omega), add_sub_cancel] at this
      refine ⟨fun i hi => Checked.int_eq_ok.2 ⟨?_, rfl⟩, fun i hi k hk j hij hjk => ?_⟩
      · have h₁ := (Checked.int_eq_ok.1 hl).1
        have h₂ := (Checked.int_eq_ok.1 hh).1
        have h₃ := hlo.2 hi
        have h₄ := hhi.2 hi
        omega
      · exact hbetween j ((hlo.2 hi).trans hij) (hjk.trans (hhi.2 hk))
    all_goals cases h
  · intro h
    rw [h.bounds lo hlo.1, h.bounds hi hhi.1]
    refine hmeets.2 fun k hk => h.clears lo hlo.1 hi hhi.1 _ ?_ ?_ <;> omega

end

theorem entailment_eq_entailed :
    entailment c s = .ok .entailed ↔ overlap s c.x c.y = .ok false := by
  rw [entailment]
  cases overlap s c.x c.y with
  | error e => simp [bind, Except.bind]
  | ok b =>
    cases b with
    | false => exact iff_of_true rfl rfl
    | true =>
      refine iff_of_false (fun h => ?_) (by rintro ⟨⟩)
      cases hx : s.isFixed c.x with
      | error e => simp [hx, bind, Except.bind] at h
      | ok b =>
        cases b with
        | false => simp [hx, bind, Except.bind] at h
        | true =>
          cases hy : s.isFixed c.y with
          | error e => simp [hx, hy, bind, Except.bind] at h
          | ok b => cases b <;> simp [hx, hy, bind, Except.bind] at h

theorem lasting_iff (hs : s.Valid) :
    c.Lasting s.scene s.offset ↔ entailment c s = .ok .entailed := by
  constructor
  · rintro ⟨vs, ws, o, o', hx, hy, ho, ho', h⟩
    exact entailment_eq_entailed.2 ((overlap_eq_false hs hx hy ho ho').2 h)
  · intro h
    obtain ⟨⟨vs, hx⟩, ws, hy⟩ := fits_of_entailment hs h
    obtain ⟨o, ho⟩ := hs.exists_offset hx
    obtain ⟨o', ho'⟩ := hs.exists_offset hy
    exact ⟨vs, ws, o, o', hx, hy, ho, ho',
      (overlap_eq_false hs hx hy ho ho').1 (entailment_eq_entailed.1 h)⟩

theorem Lasting.within {S S' : Scene} {start start' : Var → Option Int} (h : c.Lasting S start)
    (hle : Scene.Within S' S) (hstart : ∀ v o, start v = some o → start' v = some o) :
    c.Lasting S' start' := by
  obtain ⟨vs, ws, o, o', hx, hy, ho, ho', h⟩ := h
  obtain ⟨vs', hx', -, hvs⟩ := int_of_within hle hx
  obtain ⟨ws', hy', -, hws⟩ := int_of_within hle hy
  exact ⟨vs', ws', o, o', hx', hy', hstart _ _ ho, hstart _ _ ho', h.mono hvs hws⟩

end NotEqual

/-! ## Channels -/

namespace GraphChannel

variable {c : GraphChannel} {s : Store}

/-- The channel answers `entailed` in `S`, and the answer is kept when the domains shrink. -/
structure Lasting (c : GraphChannel) (S : Scene) : Prop where
  typed : c.Typed S
  answer : c.Says S .entailed

/-- A channel whose `clash` answers is one between a graph and sets. -/
theorem typed_of_clash (hs : s.Valid) {rows : List (Nat × Var)} (h : c.clash s rows = .ok false) :
    ∀ x ∈ rows, TypedRow s.scene c.graph x.1 x.2 := by
  induction rows with
  | nil => exact fun x hx => absurd hx List.not_mem_nil
  | cons x rows ih =>
    obtain ⟨i, set⟩ := x
    obtain ⟨js, hjs, h⟩ := Checked.exists_of_bind_eq_ok h
    obtain ⟨b₁, hb₁, h⟩ := Checked.exists_of_bind_eq_ok h
    cases b₁ with
    | true => cases h
    | false =>
      obtain ⟨ks, hks, h⟩ := Checked.exists_of_bind_eq_ok h
      obtain ⟨b₂, hb₂, h⟩ := Checked.exists_of_bind_eq_ok h
      cases b₂ with
      | true => cases h
      | false =>
        refine List.forall_mem_cons.2 ⟨⟨?_, ?_⟩, ih h⟩
        · rcases hs.kernelValues_spec set with ⟨hset, -⟩ | ⟨-, k, hk⟩
          · exact hset
          · cases hjs.symm.trans hk
        · rcases hs.kernelSuccessors_spec c.graph i with ⟨hgraph, -⟩ | ⟨-, k, hk⟩
          · exact hgraph
          · cases hks.symm.trans hk

theorem lasting_iff (hs : s.Valid) : c.Lasting s.scene ↔ c.entailment s = .ok .entailed := by
  constructor
  · intro h
    obtain ⟨D, hD, -⟩ := (h.answer.entailed.1 rfl).2 c.graph List.mem_cons_self
    obtain ⟨a, ha⟩ := entailment_of_typed hs (hD ▸ Option.some_ne_none D) h.typed
    rw [ha, (says_of_entailment hs ha).unique h.answer]
  · intro h
    refine ⟨fun i set hset => ?_, says_of_entailment hs h⟩
    obtain ⟨b, hclash, h⟩ := Checked.exists_of_bind_eq_ok h
    cases b with
    | true => cases h
    | false => exact typed_of_clash hs hclash (i, set) (mem_rows.2 hset)

theorem Lasting.within {S S' : Scene} (h : c.Lasting S) (hle : Scene.Within S' S) : c.Lasting S' :=
  ⟨h.typed.within hle, h.answer.within hle⟩

end GraphChannel

/-! ## All constraints -/

namespace Constraint

/-- The constraint answers `entailed` in `S`, and the answer is kept when the domains shrink.
Integers are counted from the offsets `start`. -/
def Lasting : Constraint → Scene → (Var → Option Int) → Prop
  | .notEqual c, S, start => c.Lasting S start
  | .graphChannel c, S, _ => c.Lasting S

variable {c c' : Constraint}

theorem lasting_of_bare (h : c'.bare = c.bare) : c'.Lasting = c.Lasting := by
  have hbare : ∀ c : Constraint, c.bare.Lasting = c.Lasting := fun c => by
    cases c with
    | notEqual c => rfl
    | graphChannel c =>
      funext S start
      have hanswer : c.bare.Says S .entailed ↔ c.Says S .entailed :=
        iff_of_eq (congrFun₂ (says_of_bare (bare_bare (.graphChannel c))) S .entailed)
      exact propext ⟨fun h => ⟨h.typed, hanswer.1 h.answer⟩, fun h => ⟨h.typed, hanswer.2 h.answer⟩⟩
  rw [← hbare, h, hbare]

theorem lasting_iff {ν : Type} {s : Store} (hs : s.Valid) :
    c.Lasting s.scene s.offset ↔ Propagator.entailment ν c s = .ok .entailed := by
  cases c with
  | notEqual c => exact NotEqual.lasting_iff hs
  | graphChannel c => exact GraphChannel.lasting_iff hs

/-- The answer is kept in any scene `S'` within `S`, if the starts are kept. -/
theorem Lasting.within {S S' : Scene} {start start' : Var → Option Int} (h : c.Lasting S start)
    (hle : Scene.Within S' S) (hstart : ∀ v o, start v = some o → start' v = some o) :
    c.Lasting S' start' := by
  cases c with
  | notEqual c => exact NotEqual.Lasting.within h hle hstart
  | graphChannel c => exact GraphChannel.Lasting.within h hle

end Constraint

end Propagation
