import Propagation.Proofs.Recorded

/-!
# Events and the room of domains

An action pushes events of a variable only if it has narrowed it (`Action.run_spends`), and a domain
that has been narrowed does not become what it was (`Store.Spends.scene_ne`).
-/

set_option autoImplicit false

namespace Propagation

open Update

namespace Store

/-- From `s` to `s'` domains have shrunk, and the events pushed are of live variables whose domain
has changed. -/
structure Spends (s s' : Store) : Prop where
  scene : ∀ v D, s.scene v = some D → ∃ D', s'.scene v = some D' ∧ D'.Within D
  sink : ∀ v e c, s'.sink.Has v e c →
    s.sink.Has v e c ∨ s'.scene v ≠ none ∧ s'.scene v ≠ s.scene v

variable {s s' s'' : Store}

theorem spends_self (s : Store) : Spends s s where
  scene _ D hD := ⟨D, hD, .refl D⟩
  sink _ _ _ h := .inl h

theorem Spends.live (h : s.Spends s') {v : Var} (hv : s.scene v ≠ none) : s'.scene v ≠ none := by
  obtain ⟨D, hD⟩ := Option.ne_none_iff_exists'.1 hv
  obtain ⟨D', hD', -⟩ := h.scene v D hD
  exact hD' ▸ nofun

/-- A domain that has been narrowed does not become what it was. -/
theorem Spends.scene_ne (h : s.Spends s') (h' : s'.Spends s'') {v : Var} (hv : s''.scene v ≠ none)
    (hne : s'.scene v ≠ s.scene v ∨ s''.scene v ≠ s'.scene v) : s''.scene v ≠ s.scene v := by
  by_cases hnone : s.scene v = none
  · rwa [hnone]
  obtain ⟨D, hD⟩ := Option.ne_none_iff_exists'.1 hnone
  obtain ⟨D', hD', hle⟩ := h.scene v D hD
  obtain ⟨D'', hD'', hle'⟩ := h'.scene v D' hD'
  intro heq
  rw [hD'', hD] at heq
  cases heq
  obtain rfl := hle.antisymm hle'
  rw [hD, hD', hD''] at hne
  simp at hne

theorem Spends.trans (h : s.Spends s') (h' : s'.Spends s'') : s.Spends s'' where
  scene v D hD := by
    obtain ⟨D', hD', hle⟩ := h.scene v D hD
    obtain ⟨D'', hD'', hle'⟩ := h'.scene v D' hD'
    exact ⟨D'', hD'', hle'.trans hle⟩
  sink v e c hd := by
    rcases h'.sink v e c hd with hd | ⟨hv, hne⟩
    · rcases h.sink v e c hd with hd | ⟨hv, hne⟩
      · exact .inl hd
      · exact .inr ⟨h'.live hv, h.scene_ne h' (h'.live hv) (.inl hne)⟩
    · exact .inr ⟨hv, h.scene_ne h' hv (.inr hne)⟩

theorem Succeeds.spends {v : Var} {n : Narrowing} {c : Cause} {b : Bool}
    (h : Succeeds s v n c b s') : s.Spends s' where
  scene := by
    obtain ⟨D, D', -, -, -, hn, -⟩ := h
    exact hn.evolves.scene
  sink u e d hd := by
    rcases (h.sink u e d).1 hd with hd | ⟨-, -, D, D', hD, hD', hemits⟩
    · exact .inl hd
    · rw [hD, hD']
      refine .inr ⟨by simp, fun heq => ?_⟩
      cases heq
      exact Dom.not_emits_self D e hemits

theorem Created.spends {v : Var} {D : Dom} (h : Created s v D s') (hev : s.Evolves s') :
    s.Spends s' where
  scene := hev.scene
  sink _ _ _ hd := .inl (h.sink ▸ hd)

end Store

/-- An action `Spends`, unless it faults: it pushes events of variables only that it has narrowed.
-/
theorem Action.run_spends {ν σ α : Type} {w : Workspace ν σ} (x : Action ν σ α)
    (hs : w.store.Valid) :
    Ends x.run w (fun _ u => w.store.Spends u.store)
      fun e u => ∀ k, e = .contradiction k → w.store.Spends u.store := by
  induction x generalizing w with
  | done a => exact Store.spends_self _
  | fail e => exact fun _ _ => Store.spends_self _
  | look k ih => exact ih _ hs
  | narrow v n c k ih =>
    cases hrun : Store.narrow v n c w.store with
    | ok b s =>
      have h := ((hs.narrow_ends v n c).of_ok hrun).spends
      have hvalid := ((hs.narrow_evolves v n c).of_ok hrun).valid
      refine ((ih (.ok b) (w := w.withStore s) hvalid).mono (fun _ _ => h.trans)
        fun _ _ hu k hk => h.trans (hu k hk)).of_eq ?_
      rw [run, hrun]
      rfl
    | error e s =>
      cases e with
      | contradiction x =>
        obtain ⟨rfl, -⟩ := (hs.narrow_ends v n c).of_error hrun
        refine (ih (.error x) hs).of_eq ?_
        rw [run, hrun]
      | fault f =>
        have hfault : (narrow v n c k).run w = .error (.fault f) (w.withStore s) := by
          rw [run, hrun]
          rfl
        exact ends_of_error hfault (by simp)
  | create d k ih =>
    cases hrun : Store.create d w.store with
    | ok v s =>
      have hev := (hs.create_evolves d).of_ok hrun
      have h := ((hs.create_ends d).of_ok hrun).spends hev
      refine ((ih v (w := w.withStore s) hev.valid).mono (fun _ _ => h.trans)
        fun _ _ hu k hk => h.trans (hu k hk)).of_eq ?_
      rw [run, hrun]
      rfl
    | error e s =>
      have hfault : (create d k).run w = .error (.fault e) (w.withStore s) := by
        rw [run, hrun]
        rfl
      exact ends_of_error hfault (by simp)
  | own k ih => exact ih _ hs
  | put o k ih => exact ih hs
  | note y k ih => exact ih hs

end Propagation
