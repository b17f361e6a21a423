import Propagation.Contradiction

/-!
# Running updates

One equation for each way to build an update: rewriting by them, with the equation of each step,
computes a run.

`Update.Ends x s ok bad` specifies a run: it returns a value and a state of which `ok` holds, or
ends in an error and a state of which `bad` holds.
-/

set_option autoImplicit false

namespace Propagation.Update

variable {ε ε' σ τ τ' α β : Type}

section
variable {s u : σ} {a : α} {e : ε}

/-! ## Sequences -/

theorem bind_apply (x : Update ε σ α) (f : α → Update ε σ β) (s : σ) :
    (x >>= f) s = match x s with
      | .ok a u => f a u
      | .error e u => .error e u := by
  show EStateM.bind x f s = _
  cases h : x s <;> rw [EStateM.bind, h]

theorem bind_ok {x : Update ε σ α} (f : α → Update ε σ β) (h : x s = .ok a u) :
    (x >>= f) s = f a u := by
  rw [bind_apply, h]

theorem bind_error {x : Update ε σ α} (f : α → Update ε σ β) (h : x s = .error e u) :
    (x >>= f) s = .error e u := by
  rw [bind_apply, h]

theorem discard_apply (x : Update ε σ α) (s : σ) :
    (discard x : Update ε σ PUnit) s = match x s with
      | .ok _ u => .ok ⟨⟩ u
      | .error e u => .error e u := by
  show EStateM.map _ x s = _
  cases h : x s <;> rw [EStateM.map, h]

/-! ## Single steps -/

theorem pure_apply (a : α) (s : σ) : (pure a : Update ε σ α) s = .ok a s := rfl

theorem throw_apply (e : ε) (s : σ) : (throw e : Update ε σ α) s = .error e s := rfl

theorem get_apply (s : σ) : (get : Update ε σ σ) s = .ok s s := rfl

theorem set_apply (s u : σ) : (set u : Update ε σ PUnit) s = .ok ⟨⟩ u := rfl

theorem modify_apply (f : σ → σ) (s : σ) :
    (modify f : Update ε σ PUnit) s = .ok ⟨⟩ (f s) := rfl

theorem query_apply (f : σ → Except ε α) (s : σ) :
    query f s = match f s with
      | .ok a => .ok a s
      | .error e => .error e s := by
  cases h : f s <;> rw [query, h]

theorem within_apply (get : σ → τ) (put : τ → σ → σ) (x : Update ε τ α) (s : σ) :
    within get put x s = match x (get s) with
      | .ok a t => .ok a (put t s)
      | .error e t => .error e (put t s) := by
  cases h : x (get s) <;> rw [within, h]

theorem mapError_apply (f : ε → ε') (x : Update ε σ α) (s : σ) :
    mapError f x s = match x s with
      | .ok a u => .ok a u
      | .error e u => .error (f e) u := by
  cases h : x s <;> rw [mapError, h]

theorem lift_apply (x : Update Fault σ α) (s : σ) :
    (liftM x : Update Failure σ α) s = match x s with
      | .ok a u => .ok a u
      | .error e u => .error (.fault e) u := by
  show mapError Failure.fault x s = _
  cases h : x s <;> rw [mapError, h]

end

/-! ## How a run may end -/

/-- If `x` returns from `s`, `ok` holds of its value and its last state, and if it ends in an error,
`bad` holds of that. -/
def Ends (x : Update ε σ α) (s : σ) (ok : α → σ → Prop) (bad : ε → σ → Prop) : Prop :=
  match x s with
  | .ok a u => ok a u
  | .error e u => bad e u

section
variable {s u : σ} {a : α} {e : ε} {ok : α → σ → Prop} {bad : ε → σ → Prop}

theorem ends_of_ok {x : Update ε σ α} (h : x s = .ok a u) (hok : ok a u) :
    Ends x s ok bad := by
  rw [Ends, h]
  exact hok

theorem ends_of_error {x : Update ε σ α} (h : x s = .error e u) (hbad : bad e u) :
    Ends x s ok bad := by
  rw [Ends, h]
  exact hbad

/-- Updates that run alike end alike. -/
theorem Ends.of_eq {x y : Update ε σ α} (hy : Ends y u ok bad) (h : x s = y u) :
    Ends x s ok bad := by
  rwa [Ends, h]

theorem Ends.of_ok {x : Update ε σ α} (h : Ends x s ok bad) (hx : x s = .ok a u) :
    ok a u := by
  rw [Ends, hx] at h
  exact h

theorem Ends.of_error {x : Update ε σ α} (h : Ends x s ok bad) (hx : x s = .error e u) :
    bad e u := by
  rw [Ends, hx] at h
  exact h

theorem Ends.mono {x : Update ε σ α} {ok' : α → σ → Prop} {bad' : ε → σ → Prop}
    (h : Ends x s ok bad) (hok : ∀ a u, ok a u → ok' a u)
    (hbad : ∀ e u, bad e u → bad' e u) : Ends x s ok' bad' := by
  rw [Ends] at h ⊢
  cases hx : x s with
  | ok a u => rw [hx] at h; exact hok a u h
  | error e u => rw [hx] at h; exact hbad e u h

/-- A run without bad ends returns. -/
theorem Ends.exists_ok {x : Update ε σ α} (h : Ends x s ok fun _ _ => False) :
    ∃ a u, x s = .ok a u ∧ ok a u := by
  cases hx : x s with
  | ok a u => exact ⟨a, u, rfl, h.of_ok hx⟩
  | error e u => exact (h.of_error hx).elim

/-- `x` returns from `s`, and `test` accepts its value and its last state. -/
def passes (x : Update ε σ α) (s : σ) (test : α → σ → Bool) : Bool :=
  match x s with
  | .ok a u => test a u
  | .error _ _ => false

theorem exists_of_passes {x : Update ε σ α} {test : α → σ → Bool} (h : passes x s test = true) :
    ∃ a u, x s = .ok a u ∧ test a u = true := by
  unfold passes at h
  cases hx : x s with
  | ok a u =>
    rw [hx] at h
    exact ⟨a, u, rfl, h⟩
  | error e u =>
    rw [hx] at h
    cases h

/-- `x` ends in an error from `s`, and `test` accepts the error and the last state. -/
def fails (x : Update ε σ α) (s : σ) (test : ε → σ → Bool) : Bool :=
  match x s with
  | .ok _ _ => false
  | .error e u => test e u

theorem exists_of_fails {x : Update ε σ α} {test : ε → σ → Bool} (h : fails x s test = true) :
    ∃ e u, x s = .error e u ∧ test e u = true := by
  unfold fails at h
  cases hx : x s with
  | ok a u =>
    rw [hx] at h
    cases h
  | error e u =>
    rw [hx] at h
    exact ⟨e, u, rfl, h⟩

/-- The rule for sequences, with `Q` after the first part. -/
theorem Ends.bind {x : Update ε σ α} {f : α → Update ε σ β} {Q : α → σ → Prop}
    {ok : β → σ → Prop} (h : Ends x s Q bad)
    (hf : ∀ a u, Q a u → Ends (f a) u ok bad) : Ends (x >>= f) s ok bad := by
  rw [Ends] at h
  cases hx : x s with
  | ok a u =>
    rw [hx] at h
    rw [Ends, bind_ok f hx]
    exact hf a u h
  | error e u =>
    rw [hx] at h
    exact ends_of_error (bind_error f hx) h

/-- The rule for loops, with an invariant over the elements that remain. -/
theorem Ends.forM {f : β → Update ε σ PUnit} {inv : List β → σ → Prop} {xs : List β}
    (h : inv xs s) (hstep : ∀ x xs s, inv (x :: xs) s → Ends (f x) s (fun _ u => inv xs u) bad) :
    Ends (xs.forM f) s (fun _ u => inv [] u) bad := by
  induction xs generalizing s with
  | nil => exact ends_of_ok rfl h
  | cons x xs ih => exact (hstep x xs s h).bind fun _ u hu => ih hu

theorem Ends.discard {x : Update ε σ α} {ok : σ → Prop}
    (h : Ends x s (fun _ u => ok u) bad) : Ends (discard x) s (fun _ u => ok u) bad := by
  rw [Ends] at h
  cases hx : x s with
  | ok a u => rw [hx] at h; exact ends_of_ok (by rw [discard_apply, hx]) h
  | error e u => rw [hx] at h; exact ends_of_error (by rw [discard_apply, hx]) h

theorem Ends.mapError {x : Update ε σ α} {f : ε → ε'} {bad : ε' → σ → Prop}
    (h : Ends x s ok fun e u => bad (f e) u) : Ends (mapError f x) s ok bad := by
  rw [Ends] at h
  cases hx : x s with
  | ok a u => rw [hx] at h; exact ends_of_ok (by rw [mapError_apply, hx]) h
  | error e u => rw [hx] at h; exact ends_of_error (by rw [mapError_apply, hx]) h

theorem Ends.lift {x : Update Fault σ α} {bad : Failure → σ → Prop}
    (h : Ends x s ok fun e u => bad (.fault e) u) :
    Ends (liftM x : Update Failure σ α) s ok bad :=
  h.mapError

theorem Ends.within {get : σ → τ} {put : τ → σ → σ} {x : Update ε τ α}
    (h : Ends x (get s) (fun a t => ok a (put t s)) fun e t => bad e (put t s)) :
    Ends (within get put x) s ok bad := by
  rw [Ends] at h
  cases hx : x (get s) with
  | ok a t => rw [hx] at h; exact ends_of_ok (by rw [within_apply, hx]) h
  | error e t => rw [hx] at h; exact ends_of_error (by rw [within_apply, hx]) h

end

/-! ## What a run does however it ends -/

section
variable {R : σ → σ → Prop} {s u : σ} {a : α} {e : ε}

theorem after_of_ok {x : Update ε σ α} (h : x s = .ok a u) : x.after s = u := by
  rw [after, h]

theorem after_of_error {x : Update ε σ α} (h : x s = .error e u) : x.after s = u := by
  rw [after, h]

theorem after_bind_ok {x : Update ε σ α} (f : α → Update ε σ β) (h : x s = .ok a u) :
    (x >>= f).after s = (f a).after u := by
  rw [after, after, bind_ok f h]

theorem after_bind_error {x : Update ε σ α} (f : α → Update ε σ β) (h : x s = .error e u) :
    (x >>= f).after s = u := by
  rw [after, bind_error f h]

theorem after_bind_pure (x : Update ε σ α) (b : α → β) (s : σ) :
    (x >>= fun a => pure (b a)).after s = x.after s := by
  rw [after, after, bind_apply]
  cases x s <;> rfl

theorem after_discard (x : Update ε σ α) (s : σ) :
    (discard x : Update ε σ PUnit).after s = x.after s := by
  rw [after, after, discard_apply]
  cases x s <;> rfl

theorem after_mapError (g : ε → ε') (x : Update ε σ α) (s : σ) :
    (mapError g x).after s = x.after s := by
  rw [after, after, mapError_apply]
  cases x s <;> rfl

/-- A transitive relation between states and those after them, in which `R s s` says that a run may
begin at `s`. -/
structure Onward (R : σ → σ → Prop) : Prop where
  trans : ∀ {a b c}, R a b → R b c → R a c
  start : ∀ {a b}, R a b → R b b

/-- However `x` ends, the last state is related to the first one. -/
def Steps (R : σ → σ → Prop) (x : Update ε σ α) : Prop := ∀ s, R s s → R s (x.after s)

theorem Steps.of_ok {x : Update ε σ α} (hx : Steps R x) (hs : R s s) (h : x s = .ok a u) :
    R s u := after_of_ok h ▸ hx s hs

theorem Steps.of_error {x : Update ε σ α} (hx : Steps R x) (hs : R s s) (h : x s = .error e u) :
    R s u := after_of_error h ▸ hx s hs

/-- A predicate on the last state, from a specification of both ends. -/
theorem after_of_ends {x : Update ε σ α} {p : σ → Prop}
    (h : Ends x s (fun _ u => p u) fun _ u => p u) : p (x.after s) := by
  unfold Ends at h
  unfold after
  split at h <;> simp_all

theorem Steps.ends {x : Update ε σ α} (hx : Steps R x) (hs : R s s) :
    Ends x s (fun _ u => R s u) fun _ u => R s u := by
  cases h : x s with
  | ok a u => exact ends_of_ok h (hx.of_ok hs h)
  | error e u => exact ends_of_error h (hx.of_error hs h)

theorem steps_pure (a : α) : Steps R (pure a : Update ε σ α) := fun _ hs => hs

theorem steps_throw (e : ε) : Steps R (throw e : Update ε σ α) := fun _ hs => hs

theorem steps_get : Steps R (get : Update ε σ σ) := fun _ hs => hs

theorem steps_modify {g : σ → σ} (h : ∀ s, R s s → R s (g s)) :
    Steps R (modify g : Update ε σ PUnit) := h

theorem after_query (g : σ → Except ε α) (s : σ) : (query g).after s = s := by
  rw [after, query]
  cases g s <;> rfl

theorem steps_query (g : σ → Except ε α) : Steps R (query g) := fun s hs =>
  (after_query g s).symm ▸ hs

/-- `Steps` for a query of the state and its continuation. -/
theorem steps_query_bind {g : σ → Except ε β} {f : β → Update ε σ α}
    (h : ∀ s, R s s → ∀ b, g s = .ok b → R s ((f b).after s)) : Steps R (query g >>= f) := by
  intro s hs
  rw [after, bind_apply, query_apply]
  cases hb : g s with
  | ok b => exact h s hs b hb
  | error e => exact hs

/-- `Steps` for `get` and its continuation. -/
theorem steps_get_bind {g : σ → Update ε σ α} (h : ∀ s, R s s → R s ((g s).after s)) :
    Steps R (get >>= g) := h

theorem Steps.discard {x : Update ε σ α} (hx : Steps R x) :
    Steps R (discard x : Update ε σ PUnit) := fun s hs => (after_discard x s).symm ▸ hx s hs

theorem steps_ite {p : Prop} [Decidable p] {x y : Update ε σ α} (hx : Steps R x)
    (hy : Steps R y) : Steps R (if p then x else y) := by
  split
  · exact hx
  · exact hy

theorem Steps.mapError {x : Update ε σ α} (hx : Steps R x) (g : ε → ε') :
    Steps R (mapError g x) := fun s hs => (after_mapError g x s).symm ▸ hx s hs

/-- `Steps` for an update of a part of the state, from `Steps` for the part. -/
theorem Steps.within {get : σ → τ} {put : τ → σ → σ} {Q : τ → τ → Prop} {x : Update ε τ α}
    (hx : Steps Q x) (hget : ∀ s, R s s → Q (get s) (get s))
    (hput : ∀ s t, R s s → Q (get s) t → R s (put t s)) : Steps R (within get put x) := by
  intro s hs
  rw [after, within_apply]
  cases h : x (get s) with
  | ok a u => exact hput s u hs (hx.of_ok (hget s hs) h)
  | error e u => exact hput s u hs (hx.of_error (hget s hs) h)

section
variable (hR : Onward R)
include hR

/-- `Steps` for a sequence, from `Steps` for both parts. -/
theorem Steps.bind {x : Update ε σ α} {g : α → Update ε σ β} (hx : Steps R x)
    (hg : ∀ a, Steps R (g a)) : Steps R (x >>= g) := by
  intro s hs
  rw [after, bind_apply]
  cases h : x s with
  | ok a u =>
    have hu := hx.of_ok hs h
    exact hR.trans hu (hg a u (hR.start hu))
  | error e u => exact hx.of_error hs h

theorem steps_forM {g : β → Update ε σ PUnit} (h : ∀ b, Steps R (g b)) (bs : List β) :
    Steps R (bs.forM g) := by
  induction bs with
  | nil => exact steps_pure _
  | cons b bs ih => exact (h b).bind hR fun _ => ih

end

end

/-! ## What a run leaves alone -/

/-- However `x` ends, it leaves the value of `f` on the state unchanged. -/
def Keeps (f : σ → τ) (x : Update ε σ α) : Prop := ∀ s, f (x.after s) = f s

section
variable {f : σ → τ}

theorem keeps_iff {x : Update ε σ α} : Keeps f x ↔ Steps (fun s t => f t = f s) x :=
  ⟨fun h s _ => h s, fun h s => h s rfl⟩

theorem onward_eq (f : σ → τ) : Onward fun s t => f t = f s :=
  ⟨fun h h' => h'.trans h, fun _ => rfl⟩

theorem keeps_pure (a : α) : Keeps f (pure a : Update ε σ α) := fun _ => rfl

theorem keeps_throw (e : ε) : Keeps f (throw e : Update ε σ α) := fun _ => rfl

theorem keeps_get : Keeps f (get : Update ε σ σ) := fun _ => rfl

theorem keeps_modify {g : σ → σ} (h : ∀ s, f (g s) = f s) :
    Keeps f (modify g : Update ε σ PUnit) := h

theorem keeps_query (g : σ → Except ε α) : Keeps f (query g) := keeps_iff.2 (steps_query g)

theorem Keeps.bind {x : Update ε σ α} {g : α → Update ε σ β} (hx : Keeps f x)
    (hg : ∀ a, Keeps f (g a)) : Keeps f (x >>= g) :=
  keeps_iff.2 ((keeps_iff.1 hx).bind (onward_eq f) fun a => keeps_iff.1 (hg a))

theorem Keeps.discard {x : Update ε σ α} (hx : Keeps f x) :
    Keeps f (discard x : Update ε σ PUnit) := keeps_iff.2 (keeps_iff.1 hx).discard

theorem keeps_ite {p : Prop} [Decidable p] {x y : Update ε σ α} (hx : Keeps f x)
    (hy : Keeps f y) : Keeps f (if p then x else y) :=
  keeps_iff.2 (steps_ite (keeps_iff.1 hx) (keeps_iff.1 hy))

theorem keeps_forM {g : β → Update ε σ PUnit} (h : ∀ b, Keeps f (g b)) (bs : List β) :
    Keeps f (bs.forM g) := keeps_iff.2 (steps_forM (onward_eq f) (fun b => keeps_iff.1 (h b)) bs)

theorem Keeps.mapError {x : Update ε σ α} (hx : Keeps f x) (g : ε → ε') :
    Keeps f (mapError g x) := keeps_iff.2 ((keeps_iff.1 hx).mapError g)

theorem Keeps.lift {x : Update Fault σ α} (hx : Keeps f x) :
    Keeps f (liftM x : Update Failure σ α) := hx.mapError Failure.fault

theorem Keeps.within {get : σ → τ'} {put : τ' → σ → σ} {g : τ' → τ} {x : Update ε τ' α}
    (hx : Keeps g x) (h : ∀ s t, g t = g (get s) → f (put t s) = f s) :
    Keeps f (within get put x) :=
  keeps_iff.2 ((keeps_iff.1 hx).within (fun _ _ => rfl) fun s t _ ht => h s t ht)

end

end Propagation.Update
