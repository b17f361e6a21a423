import Mathlib.Algebra.Order.Ring.Int
import Propagation.Checked

/-!
# When checked steps answer

A checked operation answers iff its exact result is in the 64-bit range (`Signed`), and then with
that result.
-/

set_option autoImplicit false

namespace Propagation.Checked

/-- If `x >>= f` answers, so do `x` and the second part. -/
theorem exists_of_bind_eq_ok {α β : Type} {x : Except Fault α} {f : α → Except Fault β} {b : β}
    (h : (x >>= f) = .ok b) : ∃ a, x = .ok a ∧ f a = .ok b := by
  cases x with
  | error e => cases h
  | ok a => exact ⟨a, rfl, h⟩

theorem exists_of_isOk {α : Type} {x : Except Fault α} (h : x.isOk = true) : ∃ a, x = .ok a := by
  cases x with
  | error e => cases h
  | ok a => exact ⟨a, rfl⟩

/-- If `test` is true of the answer of `x`, there is an answer. -/
theorem exists_of_any {α : Type} {x : Except Fault α} {test : α → Bool}
    (h : x.toOption.any test = true) : ∃ a, x = .ok a ∧ test a = true := by
  cases x with
  | error e => cases h
  | ok a => exact ⟨a, rfl, h⟩

theorem int_eq_ok {i r : Int} : int i = .ok r ↔ (-2 ^ 63 ≤ i ∧ i < 2 ^ 63) ∧ r = i := by
  have hiff : i.toNat < 0x8000000000000000 ∧ (-i).toNat ≤ 0x8000000000000000 ↔
      -2 ^ 63 ≤ i ∧ i < 2 ^ 63 := by omega
  unfold int
  split
  · next h =>
    have hr := hiff.1 h
    exact ⟨fun he => ⟨hr, by cases he; rfl⟩, fun he => by rw [he.2]⟩
  · next h => exact ⟨nofun, fun hr => absurd (hiff.2 hr.1) h⟩

theorem int_cases (i : Int) : int i = .ok i ∨ int i = .error .overflow := by
  cases h : int i with
  | ok r => exact .inl (congrArg _ (int_eq_ok.1 h).2)
  | error e => exact .inr (congrArg _ (int_eq_error h))

/-- The integer `i` has 64 bits. -/
def Signed (i : Int) : Prop := -2 ^ 63 ≤ i ∧ i < 2 ^ 63

instance (i : Int) : Decidable (Signed i) := inferInstanceAs (Decidable (_ ∧ _))

theorem int_of_signed {i : Int} (h : Signed i) : int i = .ok i := int_eq_ok.2 ⟨h, rfl⟩

theorem int_of_not_signed {i : Int} (h : ¬Signed i) : int i = .error .overflow :=
  (int_cases i).resolve_left fun hi => h (int_eq_ok.1 hi).1

theorem not_signed {i : Int} {e : Fault} (h : int i = .error e) : ¬Signed i := by
  intro hi
  rw [int_of_signed hi] at h
  cases h

theorem not_signed_of_map {α : Type} {i : Int} {f : Int → α} {e : Fault}
    (h : (int i).map f = .error e) : ¬Signed i := by
  intro hi
  rw [int_of_signed hi] at h
  cases h

theorem nat_eq_ok {n r : Nat} : nat n = .ok r ↔ n < 2 ^ 64 ∧ r = n := by
  unfold nat
  split
  · simp_all [eq_comm]
  · exact ⟨nofun, fun h => absurd h.1 ‹_›⟩

theorem toUnsigned_of_nonneg {i : Int} (h₀ : 0 ≤ i) (h : i < 2 ^ 64) : toUnsigned i = i.toNat := by
  rw [toUnsigned, Int.emod_eq_of_lt h₀ (by omega)]

end Propagation.Checked
