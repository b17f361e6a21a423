import Propagation.Fault

/-!
# Checked steps

Integers are 64 bits wide: signed ones are an `Int` that `Checked.int` has let through, unsigned
ones a `Nat` that `Checked.nat` or `Checked.sub` has let through. `Checked.fetch` reads an array.
Where a signed cell holds a size, `Checked.toUnsigned` and `Checked.toSigned` reinterpret its bits.
-/

set_option autoImplicit false

namespace Propagation.Checked

/-- A signed result; `overflow` iff `i` is not in `-2 ^ 63 ≤ i < 2 ^ 63`. The comparison is one of
natural numbers, which is stuck at once on an unknown `i`; a difference of integers would be
evaluated. -/
def int (i : Int) : Except Fault Int :=
  if i.toNat < 0x8000000000000000 ∧ (-i).toNat ≤ 0x8000000000000000 then .ok i
  else .error .overflow

/-- An unsigned result; `overflow` iff `n` is not below `2 ^ 64`. -/
def nat (n : Nat) : Except Fault Nat :=
  if n < 0x10000000000000000 then .ok n else .error .overflow

/-- The difference `m - n` of unsigned integers; `overflow` iff it would be negative. -/
def sub (m n : Nat) : Except Fault Nat :=
  if n ≤ m then .ok (m - n) else .error .overflow

/-- The element of `xs` at position `i`; `index` iff there is none. -/
def fetch {α : Type} (xs : Array α) (i : Nat) : Except Fault α :=
  match xs[i]? with
  | some x => .ok x
  | none => .error .index

/-- The bits of the signed integer `i`, read as an unsigned one. -/
def toUnsigned (i : Int) : Nat := (i % 0x10000000000000000).toNat

/-- The bits of the unsigned integer `n`, read as a signed one. -/
def toSigned (n : Nat) : Int := (n : Int).bmod 0x10000000000000000

/-! ## When they answer -/

theorem int_eq_error {i : Int} {e : Fault} (h : int i = .error e) : e = .overflow := by
  unfold int at h
  split at h
  · cases h
  · cases h; rfl

theorem sub_eq {m n : Nat} (h : n ≤ m) : sub m n = .ok (m - n) := if_pos h

theorem fetch_eq_ok {α : Type} {xs : Array α} {i : Nat} {x : α} :
    fetch xs i = .ok x ↔ xs[i]? = some x := by
  unfold fetch
  split <;> simp_all

end Propagation.Checked
