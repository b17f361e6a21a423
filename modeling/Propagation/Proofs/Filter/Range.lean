import Propagation.Proofs.Filter.Channel

/-!
# Actions without overflow

Only integers can overflow. An action that is `Action.InRange` neither narrows an integer nor
reports an overflow itself, whatever valid stores it is run on; so none comes up when it is run
(`Action.InRange.ends`). The actions of channels are, by complete filtering
(`GraphChannel.inRange_propagate`) and by reading a monitor (`GraphChannel.inRange_propagateOn`).
-/

set_option autoImplicit false

namespace Propagation

open Update Store

namespace Action

variable {ν σ α β : Type}

/-- No integer is narrowed and no step reports an overflow, whatever valid stores `look` is given
and whatever `narrow` answers. -/
def InRange : Action ν σ α → Prop
  | done _ => True
  | fail e => e ≠ .fault .overflow
  | look k => ∀ s : Store, s.Valid → (k s).InRange
  | narrow _ n _ k => n.kind ≠ .int ∧ ∀ r, (k r).InRange
  | create _ _ => False
  | own k => ∀ o, (k o).InRange
  | put _ k => k.InRange
  | note _ k => k.InRange

/-- An action that is `InRange` does not overflow on a valid store. -/
theorem InRange.ends {x : Action ν σ α} (h : x.InRange) {w : Workspace ν σ} (hs : w.store.Valid) :
    Ends x.run w (fun _ _ => True) fun e _ => e ≠ .fault .overflow := by
  induction x generalizing w with
  | done a => trivial
  | fail e => exact h
  | look k ih => exact ih _ (h _ hs) hs
  | narrow v n c k ih =>
    have hends := hs.narrow_ends v n c
    have hevolves := hs.narrow_evolves v n c
    cases hrun : Store.narrow v n c w.store with
    | ok b s =>
      refine (ih (.ok b) (h.2 _) (w := w.withStore s) (hevolves.of_ok hrun).valid).of_eq ?_
      rw [run, hrun]
      rfl
    | error e s =>
      cases e with
      | contradiction x =>
        refine (ih (.error x) (h.2 _) (w := w.withStore s) (hevolves.of_error hrun).valid).of_eq ?_
        rw [run, hrun]
        rfl
      | fault f =>
        refine ends_of_error (by rw [run, hrun]) ?_
        rcases hends.of_error hrun with ⟨-, hint, -⟩ | ⟨k, rfl, -⟩
        · exact absurd hint h.1
        · rintro ⟨⟩
  | create d k ih => exact h.elim
  | own k ih => exact ih _ (h _) hs
  | put o k ih => exact ih h hs
  | note y k ih => exact ih h hs

/-- An `InRange` action that `Halts` does not fault if `fit` holds: it ends without result only if
no scene of `P` is within that of `w`. -/
theorem InRange.halts {x : Action ν σ α} (h : x.InRange) {w : Workspace ν σ} (hs : w.store.Valid)
    {P : Scene → Prop} {fit : Prop} {c : Cause} {ok : α → Workspace ν σ → Prop}
    (hx : Ends x.run w ok fun e u => Halts P fit w.store c e u.store) :
    Ends x.run w ok fun e _ => fit →
      (∃ y, e = .contradiction y) ∧ ∀ G, P G → ¬Scene.Within G w.store.scene := by
  have hrange := h.ends hs
  cases hrun : x.run w with
  | ok a u => exact ends_of_ok hrun (hx.of_ok hrun)
  | error e u =>
    refine ends_of_error hrun fun hfit => ?_
    have hhalt := hx.of_error hrun
    cases e with
    | contradiction y => exact ⟨⟨y, rfl⟩, hhalt.2⟩
    | fault f =>
      have hover : f = .overflow := hhalt hfit
      exact absurd (congrArg Failure.fault hover) (hrange.of_error hrun)

/-! ## Ways to build actions -/

theorem inRange_state : (state : Action ν σ σ).InRange := fun _ => trivial

theorem InRange.bind {x : Action ν σ β} {f : β → Action ν σ α} (h : x.InRange)
    (hf : ∀ b, (f b).InRange) : (x >>= f).InRange := by
  show (x.bind f).InRange
  induction x with
  | done a => exact hf a
  | fail e => exact h
  | look k ih => exact fun s hs => ih s (h s hs)
  | narrow v n c k ih => exact ⟨h.1, fun r => ih r (h.2 r)⟩
  | create d k ih => exact h.elim
  | own k ih => exact fun o => ih o (h o)
  | put o k ih => exact ih h
  | note y k ih => exact ih h

theorem InRange.attempt {x : Action ν σ α} (h : x.InRange) : x.attempt.InRange := by
  induction x with
  | done a => trivial
  | fail e =>
    cases e with
    | contradiction c => trivial
    | fault f => exact h
  | look k ih => exact fun s hs => ih s (h s hs)
  | narrow v n c k ih => exact ⟨h.1, fun r => ih r (h.2 r)⟩
  | create d k ih => exact h.elim
  | own k ih => exact fun o => ih o (h o)
  | put o k ih => exact ih h
  | note y k ih => exact ih h

theorem inRange_query {f : Store → Except Fault α} (h : ∀ s, s.Valid → f s ≠ .error .overflow) :
    (query f : Action ν σ α).InRange := by
  rw [query, InRange]
  intro s hs
  cases hx : f s with
  | ok a => trivial
  | error e =>
    rintro ⟨⟩
    exact h s hs hx

/-- A query that answers, or else is a violation, is `InRange`. -/
theorem inRange_asking {f : Store → Except Fault α} {T : Store → Prop} {A : Store → α → Prop}
    (h : ∀ s, s.Valid → (T s ∧ ∃ a, f s = .ok a ∧ A s a) ∨
      ¬T s ∧ ∃ k, f s = .error (.violation k)) : (query f : Action ν σ α).InRange := by
  refine inRange_query fun s hs => ?_
  rcases h s hs with ⟨-, a, ha, -⟩ | ⟨-, k, hk⟩
  · rw [ha]
    nofun
  · rw [hk]
    nofun

theorem inRange_narrowing {v : Var} {n : Narrowing} {c : Cause} (h : n.kind ≠ .int) :
    (discard (apply v n c) : Action ν σ PUnit).InRange := by
  refine InRange.bind ⟨h, fun r => ?_⟩ fun _ => trivial
  cases r with
  | ok b => trivial
  | error x => nofun

theorem inRange_update {f : Store → Update Fault σ α}
    (h : ∀ s, s.Valid → ∀ o, Ends (f s) o (fun _ _ => True) fun e _ => e ≠ .overflow) :
    (update f : Action ν σ α).InRange := by
  rw [update, InRange]
  intro s hs o
  beta_reduce
  cases hx : f s o with
  | ok a o' => trivial
  | error e o' =>
    rintro ⟨⟩
    exact (h s hs o).of_error hx rfl

theorem inRange_forM {f : β → Action ν σ PUnit} (h : ∀ b, (f b).InRange) (xs : List β) :
    (xs.forM f).InRange := by
  induction xs with
  | nil => trivial
  | cons x xs ih => exact (h x).bind fun _ => ih

end Action

/-! ## Monitors -/

theorem Checked.fetch_ne_overflow {α : Type} {xs : Array α} {i : Nat} :
    fetch xs i ≠ .error .overflow := by
  unfold fetch
  split <;> nofun

/-- `delta` is a violation on a dead variable, never an overflow. -/
theorem Store.Valid.delta_ne_overflow {s : Store} (hs : s.Valid) (v : Var) :
    s.delta v ≠ .error .overflow := by
  by_cases hv : s.scene v = none
  · rw [hs.delta_dead hv]
    nofun
  · obtain ⟨l, hl, -⟩ := hs.delta_eq hv
    rw [hl]
    nofun

namespace Monitor

open Propagation.Action

variable {ν σ : Type} {m : Monitor} {e : Event} {f : DeltaEntry → Action ν σ Unit}

theorem inRange_freeze {s : Store} (hs : s.Valid) (m : Monitor) :
    Ends (freeze s) m (fun _ _ => True) fun f _ => f ≠ .overflow := by
  refine Ends.of_eq ?_ (bind_ok _ (get_apply m))
  split
  · exact ends_of_error (throw_apply _ _) nofun
  · refine Ends.of_eq ?_ (bind_ok _ (set_apply _ _))
    cases hdelta : Update.query (fun m : Monitor => s.delta m.var) (m.resync s.epoch) with
    | ok l m' => exact (ends_of_ok (modify_apply _ _) trivial).of_eq (bind_ok _ hdelta)
    | error f m' =>
      refine ends_of_error (bind_error _ hdelta) ?_
      rw [query_apply] at hdelta
      rintro rfl
      cases hd : s.delta (m.resync s.epoch).var with
      | ok l =>
        rw [hd] at hdelta
        cases hdelta
      | error f =>
        rw [hd] at hdelta
        cases hdelta
        exact hs.delta_ne_overflow _ hd

theorem inRange_unfreeze (m : Monitor) :
    Ends unfreeze m (fun _ _ => True) fun f _ => f ≠ .overflow := by
  refine Ends.of_eq ?_ (bind_ok _ (get_apply m))
  split
  · exact ends_of_ok (set_apply _ _) trivial
  · exact ends_of_error (throw_apply _ _) nofun

theorem inRange_deliver (h : ∀ x, (f x).InRange) (i n : Nat) : (m.deliver e f i n).InRange := by
  induction n generalizing i with
  | zero => trivial
  | succ n ih =>
    refine (inRange_query fun s hs => ?_).bind fun x => ?_
    · intro hx
      cases hd : s.delta m.var with
      | ok l =>
        rw [hd] at hx
        exact Checked.fetch_ne_overflow hx
      | error f =>
        rw [hd] at hx
        cases hx
        exact hs.delta_ne_overflow _ hd
    · split
      · exact (h x).bind fun _ => ih _
      · exact ih _

theorem inRange_drain (h : ∀ x, (f x).InRange) : (m.drain e f).InRange := by
  unfold drain
  split
  · nofun
  · intro s hs
    show InRange (if _ then _ else _)
    split
    · exact inRange_deliver h _ _
    · nofun

end Monitor

/-! ## Channels -/

namespace GraphChannel

open Propagation.Action

variable {ν σ : Type} {c : GraphChannel}

theorem inRange_onMonitor {f : Store → Update Fault Monitor Unit} (k : Nat)
    (h : ∀ s, s.Valid → ∀ m, Ends (f s) m (fun _ _ => True) fun e _ => e ≠ .overflow) :
    (Action.update fun s => onMonitor k (f s) : Action ν GraphChannel Unit).InRange := by
  refine inRange_update fun s hs c => ?_
  cases hm : c.monitors[k]? with
  | none => exact ends_of_error (e := .index) (by rw [onMonitor, hm]) nofun
  | some m =>
    cases hf : f s m with
    | ok a m' => exact ends_of_ok (by rw [onMonitor, hm]; dsimp only; rw [hf]) trivial
    | error e m' =>
      exact ends_of_error (by rw [onMonitor, hm]; dsimp only; rw [hf]) ((h s hs m).of_error hf)

theorem inRange_sweepRow (i : Nat) (set : Var) : (c.sweepRow i set : Action ν σ Unit).InRange := by
  have htrimSet : ∀ j, (c.trimSet i set j : Action ν σ Unit).InRange := fun j =>
    (inRange_asking fun s hs => hs.arcInEnvelope_spec c.graph i j).bind fun b => by
      cases b with
      | true => trivial
      | false => exact inRange_narrowing (by nofun)
  have htrimGraph : ∀ j, (c.trimGraph i set j : Action ν σ Unit).InRange := fun j =>
    (inRange_asking fun s hs => hs.envelopeContains_spec set j).bind fun b => by
      cases b with
      | true => trivial
      | false => exact inRange_narrowing (by nofun)
  refine (inRange_asking fun s hs => hs.kernelValues_spec set).bind fun required => ?_
  refine (inRange_forM (fun j => inRange_narrowing (by nofun)) _).bind fun _ => ?_
  refine (inRange_asking fun s hs => hs.kernelSuccessors_spec c.graph i).bind fun enforced => ?_
  refine (inRange_forM (fun j => inRange_narrowing (by nofun)) _).bind fun _ => ?_
  refine (inRange_asking fun s hs => hs.envelopeValues_spec set).bind fun possible => ?_
  refine (inRange_forM htrimSet _).bind fun _ => ?_
  refine (inRange_asking fun s hs => hs.envelopeSuccessors_spec c.graph i).bind fun allowed => ?_
  exact inRange_forM htrimGraph _

theorem inRange_propagate : (propagate : Action ν GraphChannel Unit).InRange := by
  refine inRange_state.bind fun c => ?_
  refine InRange.bind ?_ fun _ => ?_
  · refine inRange_forM ?_ _
    rintro ⟨i, set⟩
    exact inRange_sweepRow i set
  · refine inRange_forM (fun k => ?_) _
    refine inRange_onMonitor (f := skip) k fun s hs m => ?_
    exact (Monitor.inRange_freeze hs m).bind fun _ m' _ => Monitor.inRange_unfreeze m'

theorem inRange_drainSet (i : Nat) : (c.drainSet i : Action ν GraphChannel Unit).InRange := by
  refine (inRange_query fun s hs => Checked.fetch_ne_overflow).bind fun m => ?_
  refine (Monitor.inRange_drain fun x => inRange_narrowing (by nofun)).bind fun _ => ?_
  exact Monitor.inRange_drain fun x => inRange_narrowing (by nofun)

theorem inRange_drainGraph : (c.drainGraph : Action ν GraphChannel Unit).InRange := by
  have hset : ∀ i : Nat, (c.setOf i : Action ν GraphChannel Var).InRange := fun i =>
    inRange_query fun s hs => Checked.fetch_ne_overflow
  refine (inRange_query fun s hs => Checked.fetch_ne_overflow).bind fun m => ?_
  refine (Monitor.inRange_drain fun x => (hset _).bind fun v => ?_).bind fun _ => ?_
  · exact inRange_narrowing (by nofun)
  · exact Monitor.inRange_drain fun x => (hset _).bind fun v => inRange_narrowing (by nofun)

theorem inRange_propagateOn (k : Nat) : (propagateOn k : Action ν GraphChannel Unit).InRange := by
  unfold propagateOn
  refine (inRange_onMonitor k fun s hs m => Monitor.inRange_freeze hs m).bind fun _ => ?_
  refine inRange_state.bind fun c => (InRange.attempt ?_).bind fun r => ?_
  · split
    · exact inRange_drainSet k
    · exact inRange_drainGraph
  · refine (inRange_onMonitor k fun s hs m => Monitor.inRange_unfreeze m).bind fun _ => ?_
    split
    · trivial
    · nofun

end GraphChannel

end Propagation
