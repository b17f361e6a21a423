import Propagation.Action
import Propagation.Proofs.Store.Growth

/-!
# Running actions

How an action runs, one equation or rule for each way to build it, in the terms of the updates of
a workspace: an action runs as the sequence of its parts, so the rules for the ends of updates
(`Update.Ends`) are rules for actions too.
-/

set_option autoImplicit false

namespace Propagation

namespace Workspace

variable {ν σ : Type}

/-- The workspace `w` with the store `s`. -/
def withStore (w : Workspace ν σ) (s : Store) : Workspace ν σ := { w with store := s }

/-- The workspace `w` with the own state `o`. -/
def withOwn {τ : Type} (w : Workspace ν σ) (o : τ) : Workspace ν τ := ⟨w.store, o, w.notes⟩

@[simp] theorem store_withStore (w : Workspace ν σ) (s : Store) : (w.withStore s).store = s := rfl

@[simp] theorem own_withStore (w : Workspace ν σ) (s : Store) : (w.withStore s).own = w.own := rfl

@[simp] theorem store_withOwn {τ : Type} (w : Workspace ν σ) (o : τ) :
    (w.withOwn o).store = w.store := rfl

@[simp] theorem own_withOwn {τ : Type} (w : Workspace ν σ) (o : τ) : (w.withOwn o).own = o := rfl

end Workspace

namespace Action

open Update

variable {ν σ τ α β : Type} {w : Workspace ν σ}

/-! ## Sequences -/

theorem run_seq (x : Action ν σ α) (f : α → Action ν σ β) :
    (x >>= f).run = (x.run >>= fun a => (f a).run) := by
  funext w
  rw [bind_apply]
  exact (run_bind x f w).trans (by cases x.run w <;> rfl)

theorem run_forM (f : β → Action ν σ PUnit) (xs : List β) :
    (xs.forM f).run = xs.forM fun x => (f x).run := by
  induction xs with
  | nil => rfl
  | cons x xs ih =>
    show (f x >>= fun _ => xs.forM f).run = ((f x).run >>= fun _ => xs.forM fun x => (f x).run)
    rw [run_seq, ih]

theorem run_discard (x : Action ν σ α) :
    (discard x : Action ν σ PUnit).run = discard x.run := by
  funext w
  show (x >>= fun _ => pure ⟨⟩ : Action ν σ PUnit).run w = _
  rw [run_seq, bind_apply, discard_apply]
  cases x.run w <;> rfl

/-! ## Single steps -/

theorem run_query (f : Store → Except Fault α) (w : Workspace ν σ) :
    (query f).run w = match f w.store with
      | .ok a => .ok a w
      | .error e => .error (.fault e) w := by
  rw [query, run]
  cases f w.store <;> rfl

theorem run_state (w : Workspace ν σ) : (state : Action ν σ σ).run w = .ok w.own w := rfl

theorem run_state_bind (f : σ → Action ν σ α) : (state >>= f).run w = (f w.own).run w := rfl

theorem run_update (f : Store → Update Fault σ α) (w : Workspace ν σ) :
    (update f).run w = match f w.store w.own with
      | .ok a o => .ok a (w.withOwn o)
      | .error e o => .error (.fault e) (w.withOwn o) := by
  rw [update, run, run]
  cases f w.store w.own <;> rfl

theorem run_apply (v : Var) (n : Narrowing) (c : Cause) (w : Workspace ν σ) :
    (apply v n c).run w = match Store.narrow v n c w.store with
      | .ok changed s => .ok changed (w.withStore s)
      | .error e s => .error e (w.withStore s) := by
  rw [apply, run]
  cases Store.narrow v n c w.store with
  | ok changed s => rfl
  | error e s => cases e <;> rfl

/-! ## How an action may end -/

section
variable {ok : α → Workspace ν σ → Prop} {bad : Failure → Workspace ν σ → Prop}

theorem ends_seq {x : Action ν σ β} {f : β → Action ν σ α} {Q : β → Workspace ν σ → Prop}
    (h : Ends x.run w Q bad) (hf : ∀ b u, Q b u → Ends (f b).run u ok bad) :
    Ends (x >>= f).run w ok bad := by
  rw [run_seq]
  exact h.bind hf

/-- A loop invariant: `I xs` holds before the steps for `xs`, and each step carries it over to the
rest of the list. -/
theorem ends_forM {f : β → Action ν σ PUnit} {I : List β → Workspace ν σ → Prop} {xs : List β}
    (h : I xs w) (hstep : ∀ x xs w, I (x :: xs) w →
      Ends (f x).run w (fun _ u => I xs u) bad) :
    Ends (xs.forM f).run w (fun _ u => I [] u) bad := by
  rw [run_forM]
  exact Ends.forM h hstep

theorem ends_discard {x : Action ν σ α} {ok : Workspace ν σ → Prop}
    (h : Ends x.run w (fun _ u => ok u) bad) :
    Ends (discard x : Action ν σ PUnit).run w (fun _ u => ok u) bad := by
  rw [run_discard]
  exact h.discard

/-- `query f >>= k` goes on with `k b` if `f` answers `b`, and ends in the fault if `f` does. -/
theorem ends_ask {f : Store → Except Fault β} {k : β → Action ν σ α}
    (hok : ∀ b, f w.store = .ok b → Ends (k b).run w ok bad)
    (hbad : ∀ e, f w.store = .error e → bad (.fault e) w) : Ends (query f >>= k).run w ok bad := by
  rw [run_seq]
  cases h : f w.store with
  | ok b =>
    have hrun : (query f : Action ν σ β).run w = .ok b w := by rw [run_query, h]
    exact (hok b h).of_eq (bind_ok _ hrun)
  | error e =>
    have hrun : (query f : Action ν σ β).run w = .error (.fault e) w := by rw [run_query, h]
    exact ends_of_error (bind_error _ hrun) (hbad e h)

theorem ends_apply {v : Var} {n : Narrowing} {c : Cause}
    {ok : Bool → Workspace ν σ → Prop} (hs : w.store.Valid)
    (hok : ∀ b s, Store.Succeeds w.store v n c b s → ok b (w.withStore s))
    (hbad : ∀ e s, Store.Fails w.store v n c e s → bad e (w.withStore s)) :
    Ends (apply v n c).run w ok bad := by
  have hends := hs.narrow_ends v n c
  cases h : Store.narrow v n c w.store with
  | ok b s => exact ends_of_ok (by rw [run_apply, h]) (hok b s (hends.of_ok h))
  | error e s => exact ends_of_error (by rw [run_apply, h]) (hbad e s (hends.of_error h))

theorem ends_update {f : Store → Update Fault σ α}
    (h : Ends (f w.store) w.own (fun a o => ok a (w.withOwn o))
      fun e o => bad (.fault e) (w.withOwn o)) : Ends (update f).run w ok bad := by
  cases hf : f w.store w.own with
  | ok a o => exact ends_of_ok (by rw [run_update, hf]) (h.of_ok hf)
  | error e o => exact ends_of_error (by rw [run_update, hf]) (h.of_error hf)

end

/-! ## What any action leaves alone -/

/-- However `x` ends, the store has only evolved (`Store.Evolves`). -/
theorem run_evolves (x : Action ν σ α) (hs : w.store.Valid) :
    Ends x.run w (fun _ u => w.store.Evolves u.store) fun _ u => w.store.Evolves u.store := by
  induction x generalizing w with
  | done a => exact hs.evolves_self
  | fail e => exact hs.evolves_self
  | look k ih => exact ih _ hs
  | narrow v n c k ih =>
    cases hrun : Store.narrow v n c w.store with
    | ok b s =>
      have h := (hs.narrow_evolves v n c).of_ok hrun
      refine ((ih (.ok b) (w := w.withStore s) h.valid).mono (fun _ _ => h.trans)
        fun _ _ => h.trans).of_eq ?_
      rw [run, hrun]
      rfl
    | error e s =>
      have h := (hs.narrow_evolves v n c).of_error hrun
      cases e with
      | contradiction x =>
        refine ((ih (.error x) (w := w.withStore s) h.valid).mono (fun _ _ => h.trans)
          fun _ _ => h.trans).of_eq ?_
        rw [run, hrun]
        rfl
      | fault f => exact ends_of_error (by rw [run, hrun]) h
  | create d k ih =>
    cases hrun : Store.create d w.store with
    | ok v s =>
      have h := (hs.create_evolves d).of_ok hrun
      refine ((ih v (w := w.withStore s) h.valid).mono (fun _ _ => h.trans)
        fun _ _ => h.trans).of_eq ?_
      rw [run, hrun]
      rfl
    | error e s =>
      exact ends_of_error (by rw [run, hrun]) ((hs.create_evolves d).of_error hrun)
  | own k ih => exact ih _ hs
  | put o k ih => exact ih hs
  | note y k ih => exact ih hs

/-- An action only appends to the logs (`Store.Extends`), also when it catches contradictions or
ends in one. -/
theorem run_extends (x : Action ν σ α) (hs : w.store.Valid) :
    Ends x.run w (fun _ u => w.store.Extends u.store)
      fun e u => ∀ c, e = .contradiction c → w.store.Extends u.store := by
  induction x generalizing w with
  | done a => exact hs.extends_self
  | fail e => exact fun _ _ => hs.extends_self
  | look k ih => exact ih _ hs
  | narrow v n c k ih =>
    have hends := hs.narrow_grows v n c
    cases hrun : Store.narrow v n c w.store with
    | ok b s =>
      have h := (hends.of_ok hrun).extends
      refine ((ih (.ok b) (w := w.withStore s) h.valid).mono (fun _ _ => h.trans)
        fun _ _ hu c hc => h.trans (hu c hc)).of_eq ?_
      rw [run, hrun]
      rfl
    | error e s =>
      cases e with
      | contradiction x =>
        have h := (hends.of_error hrun x rfl).extends
        refine ((ih (.error x) (w := w.withStore s) h.valid).mono (fun _ _ => h.trans)
          fun _ _ hu c hc => h.trans (hu c hc)).of_eq ?_
        rw [run, hrun]
        rfl
      | fault f => exact ends_of_error (by rw [run, hrun]) (by simp)
  | create d k ih =>
    cases hrun : Store.create d w.store with
    | ok v s =>
      have h := ((hs.create_grows d).of_ok hrun).extends
      refine ((ih v (w := w.withStore s) h.valid).mono (fun _ _ => h.trans)
        fun _ _ hu c hc => h.trans (hu c hc)).of_eq ?_
      rw [run, hrun]
      rfl
    | error e s => exact ends_of_error (by rw [run, hrun]) (by simp)
  | own k ih => exact ih _ hs
  | put o k ih => exact ih hs
  | note y k ih => exact ih hs

/-! ## Actions on a part of the state -/

section
variable {get : τ → σ} {set : σ → τ → τ}

/-- `x.zoom get set` runs on `set w.own t` as `x` runs on `w.own`. -/
theorem run_zoom (hget : ∀ s t, get (set s t) = s) (hset : ∀ s s' t, set s (set s' t) = set s t)
    (x : Action ν σ α) (t : τ) (w : Workspace ν σ) :
    (x.zoom get set).run (w.withOwn (set w.own t)) =
      match x.run w with
      | .ok a u => .ok a (u.withOwn (set u.own t))
      | .error e u => .error e (u.withOwn (set u.own t)) := by
  induction x generalizing w with
  | done a => rfl
  | fail e => rfl
  | look k ih => exact ih _ w
  | narrow v n c k ih =>
    simp only [zoom, run, Workspace.store_withOwn]
    cases Store.narrow v n c w.store with
    | ok changed s => exact ih _ (w.withStore s)
    | error e s =>
      cases e with
      | contradiction x => exact ih _ (w.withStore s)
      | fault f => rfl
  | create d k ih =>
    simp only [zoom, run, Workspace.store_withOwn]
    cases Store.create d w.store with
    | ok v s => exact ih _ (w.withStore s)
    | error f s => rfl
  | own k ih =>
    simp only [zoom, run, Workspace.own_withOwn, hget]
    exact ih _ w
  | put s k ih =>
    simp only [zoom, run, Workspace.own_withOwn, hset]
    exact ih (w.withOwn s)
  | note x k ih => exact ih { w with notes := w.notes.push x }

theorem ends_zoom (hget : ∀ s t, get (set s t) = s) (hset : ∀ s s' t, set s (set s' t) = set s t)
    {x : Action ν σ α} {t : τ} {w : Workspace ν τ} (ht : set (get t) t = t) (hw : w.own = t)
    {ok : α → Workspace ν τ → Prop} {bad : Failure → Workspace ν τ → Prop}
    (h : Ends x.run (w.withOwn (get t)) (fun a u => ok a (u.withOwn (set u.own t)))
      fun e u => bad e (u.withOwn (set u.own t))) : Ends (x.zoom get set).run w ok bad := by
  have hrun := run_zoom hget hset x t (w.withOwn (get t))
  have hself : (w.withOwn (get t)).withOwn (set (w.withOwn (get t)).own t) = w := by
    rw [Workspace.own_withOwn, ht, ← hw]
    rfl
  rw [hself] at hrun
  cases hx : x.run (w.withOwn (get t)) with
  | ok a u =>
    rw [hx] at hrun
    exact ends_of_ok hrun (h.of_ok hx)
  | error e u =>
    rw [hx] at hrun
    exact ends_of_error hrun (h.of_error hx)

end

end Action

end Propagation
