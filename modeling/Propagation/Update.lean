import Propagation.Checked

/-!
# Updates

An `Update ε σ α` changes a state `σ` and answers with an `α` or an error. When it fails it keeps
the state it had reached: what was done before the failure stays done. `Update.query` asks the
state something, `Update.within` runs an update of a part of the state.
-/

set_option autoImplicit false

namespace Propagation

abbrev Update (ε σ : Type) : Type → Type := EStateM ε σ

namespace Update

variable {ε ε' σ τ α : Type}

/-- The answer of `f` on the current state, which stays as it is. -/
def query (f : σ → Except ε α) : Update ε σ α := fun s =>
  match f s with
  | .ok a => .ok a s
  | .error e => .error e s

/-- Runs `x` on the part of the state that `get` reads and `put` writes. -/
def within (get : σ → τ) (put : τ → σ → σ) (x : Update ε τ α) : Update ε σ α := fun s =>
  match x (get s) with
  | .ok a t => .ok a (put t s)
  | .error e t => .error e (put t s)

/-- The update with its errors mapped by `f`. -/
def mapError (f : ε → ε') (x : Update ε σ α) : Update ε' σ α := fun s =>
  match x s with
  | .ok a t => .ok a t
  | .error e t => .error (f e) t

/-- The state that `x` leaves, however it ends. -/
def after (x : Update ε σ α) (s : σ) : σ :=
  match x s with
  | .ok _ u => u
  | .error _ u => u

/-! ## What they do -/

theorem query_apply_ok {f : σ → Except ε α} {s : σ} {a : α} (h : f s = .ok a) :
    query f s = .ok a s := by
  simp [query, h]

theorem query_apply_error {f : σ → Except ε α} {s : σ} {e : ε} (h : f s = .error e) :
    query f s = .error e s := by
  simp [query, h]

end Update

end Propagation
