import Propagation.Proofs.Filter.Monitor
import Propagation.Proofs.Replayed

/-!
# What a monitor delivers

Since the logs were last cleared, let a monitor go through cycles of freezing, draining for one
event, and unfreezing, with any callbacks. These are run on the entries of the log that are of the
event and not caused by the owner: all of them up to the length of the log at the last freeze, each
once and in the order of the log (`Monitor.delivers_once`).

Draining is no more than running the callback on a list of entries that is known when the monitor
is frozen (`Monitor.run_drain`); what the callback appends to the log comes after that list.
-/

set_option autoImplicit false

namespace Propagation

open Update

/-! ## Between two clearings -/

/-- `s.Passes s'`: calls and actions lead from `s` to `s'` without clearing the logs. -/
inductive Store.Passes (s : Store) : Store → Prop
  | done : s.Passes s
  | call {s' s'' : Store} {c : Store.Call} (h : s.Passes s') (hc : Recorder.ofStore.call c s' s'')
    (hclear : ¬c.Clears) : s.Passes s''
  | act {ν σ α : Type} {w u : Workspace ν σ} (h : s.Passes w.store) (x : Action ν σ α)
    (hrun : (∃ a, x.run w = .ok a u) ∨ ∃ c, x.run w = .error (.contradiction c) u) :
    s.Passes u.store

theorem Store.Passes.extends {s s' : Store} (h : s.Passes s') (hs : s.Valid) : s.Extends s' := by
  induction h with
  | done => exact hs.extends_self
  | call _ hc hclear ih =>
    exact ih.trans (Recorder.ofStore_lawful.grows _ _ _ hc ih.valid hclear).extends
  | act _ x hrun ih =>
    have hends := x.run_extends ih.valid
    rcases hrun with ⟨a, hrun⟩ | ⟨c, hrun⟩
    · exact ih.trans (hends.of_ok hrun)
    · exact ih.trans (hends.of_error hrun c rfl)

namespace Monitor

variable {ν σ : Type}

/-- The callback `f`, which also appends each entry that it is run on to a list in the own state. -/
def keeping (f : DeltaEntry → Action ν σ Unit) (x : DeltaEntry) :
    Action ν (σ × List DeltaEntry) Unit := do
  let o ← Action.state
  Action.put (o.1, o.2 ++ [x]) (pure ())
  (f x).zoom Prod.fst fun o t => (o, t.2)

/-- An action on one of two states leaves the other alone. -/
theorem run_beside {τ α : Type} (x : Action ν σ α) (w : Workspace ν (σ × τ)) :
    Ends (x.zoom Prod.fst fun o t => (o, t.2)).run w (fun _ u => u.own.2 = w.own.2)
      fun _ _ => True := by
  refine Action.ends_zoom ?_ ?_ rfl rfl ?_
  · exact fun _ _ => rfl
  · exact fun _ _ _ => rfl
  unfold Ends
  split
  · rfl
  · trivial

theorem run_keeping (f : DeltaEntry → Action ν σ Unit) (xs : List DeltaEntry)
    (w : Workspace ν (σ × List DeltaEntry)) :
    Ends (xs.forM (keeping f)).run w (fun _ u => u.own.2 = w.own.2 ++ xs) fun _ _ => True := by
  refine (Action.ends_forM (I := fun rest u => u.own.2 ++ rest = w.own.2 ++ xs) rfl ?_).mono
    (fun _ u hu => (List.append_nil u.own.2).symm.trans hu) fun _ _ h => h
  intro x rest u hu
  have hkept : (u.own.2 ++ [x]) ++ rest = w.own.2 ++ xs := by rw [List.append_cons] at hu; exact hu
  exact (run_beside (f x) (u.withOwn (u.own.1, u.own.2 ++ [x]))).mono
    (fun _ u' hu' => hu'.symm ▸ hkept) fun _ _ h => h

/-! ## A monitor in use -/

variable {v : Var} {p : PropagatorId} {b : Bool} {m m' : Monitor} {s s' : Store}

/-- A monitor `m` of `v` for `p` and a store `s`, after any use of both. The flag is true iff the
monitor has been frozen since the logs were last cleared. -/
inductive Used (v : Var) (p : PropagatorId) : Bool → Monitor → Store → Prop
  | fresh {s : Store} (h : s.Reached) : Used v p false (.fresh v p) s
  | pass {b : Bool} {m : Monitor} {s s' : Store} (h : Used v p b m s) (hs : s.Passes s') :
    Used v p b m s'
  | clear {b : Bool} {m : Monitor} {s s' : Store} {c : Store.Call} (h : Used v p b m s)
    (hc : Recorder.ofStore.call c s s') (hclear : c.Clears) : Used v p false m s'
  | freeze {b : Bool} {m m' : Monitor} {s : Store} (h : Used v p b m s)
    (hm : freeze s m = .ok () m') : Used v p true m' s
  | unfreeze {b : Bool} {m m' : Monitor} {s : Store} (h : Used v p b m s)
    (hm : unfreeze m = .ok () m') : Used v p b m' s

/-- The invariant of a monitor in use: unless `b`, its `drained` refers to a log that has been
cleared. -/
structure Follows (v : Var) (p : PropagatorId) (b : Bool) (m : Monitor) (s : Store) : Prop where
  valid : s.Valid
  var : m.var = v
  owner : m.owner = p
  past : ∀ e, m.epoch = some e → e ≤ s.epoch
  cleared : b = false → m.epoch ≠ some s.epoch

theorem Used.follows (h : Used v p b m s) : Follows v p b m s := by
  induction h with
  | fresh hs => exact ⟨hs.valid, rfl, rfl, nofun, fun _ => nofun⟩
  | pass _ hs ih =>
    have hext := hs.extends ih.valid
    exact ⟨hext.valid, ih.var, ih.owner, hext.epoch ▸ ih.past, hext.epoch ▸ ih.cleared⟩
  | @clear _ m s s' c _ hc hclear ih =>
    have hepoch : s'.epoch = s.epoch + 1 := by
      have hends := c.cleared_ends ih.valid hclear
      rcases hc.2 with hrun | ⟨x, hrun⟩
      · exact (hends.of_ok hrun).1
      · exact (hends.of_error hrun x rfl).1
    refine ⟨Recorder.ofStore_lawful.keep _ _ _ hc ih.valid, ih.var, ih.owner, ?_, ?_⟩
    · intro e he
      have := ih.past e he
      omega
    · intro _ he
      have := ih.past _ he
      omega
  | @freeze _ m m' s _ hm ih =>
    obtain ⟨rfl, -⟩ := (freeze_ends ih.valid m).of_ok hm
    refine ⟨ih.valid, ih.var, ih.owner, ?_, by simp⟩
    rintro e ⟨⟩
    exact Nat.le_refl _
  | @unfreeze _ m m' s _ hm ih =>
    obtain ⟨k, -, rfl⟩ := (unfreeze_ends m).of_ok hm
    exact ⟨ih.valid, ih.var, ih.owner, ih.past, ih.cleared⟩

/-! ## Cycles -/

/-- `Cycles e m₀ s₀ xs n m s`: while the logs are not cleared, `m` has run through cycles in which
the callbacks were run on the entries `xs` and which ended at `n`. -/
inductive Cycles (e : Event) (m₀ : Monitor) (s₀ : Store) :
    List DeltaEntry → Nat → Monitor → Store → Prop
  | start : Cycles e m₀ s₀ [] 0 m₀ s₀
  | pass {xs : List DeltaEntry} {n : Nat} {m : Monitor} {s s' : Store}
    (h : Cycles e m₀ s₀ xs n m s) (hs : s.Passes s') : Cycles e m₀ s₀ xs n m s'
  | cycle {ν σ : Type} {xs : List DeltaEntry} {n k : Nat} {m m₁ m₂ : Monitor} {s : Store}
    {w u : Workspace ν (σ × List DeltaEntry)} {f : DeltaEntry → Action ν σ Unit}
    (h : Cycles e m₀ s₀ xs n m s) (hfreeze : freeze s m = .ok () m₁) (hk : m₁.frozen = some k)
    (hs : s.Passes w.store) (hw : w.own.2 = xs)
    (hdrain : (m₁.drain e (keeping f)).run w = .ok () u) (hunfreeze : unfreeze m₁ = .ok () m₂) :
    Cycles e m₀ s₀ u.own.2 k m₂ u.store

/-- The invariant of `Cycles`: `xs` are the entries of the event `e` up to `n` that are not caused
by `p`. -/
structure Progress (v : Var) (p : PropagatorId) (e : Event) (b : Bool) (xs : List DeltaEntry)
    (n : Nat) (m : Monitor) (s : Store) : Prop where
  valid : s.Valid
  var : m.var = v
  owner : m.owner = p
  frozen : b = false → m.frozen = none
  start : m.start s = n
  live : n ≠ 0 → s.scene v ≠ none
  within : n ≤ (s.logOf v).length
  handed : xs = ((s.logOf v).take n).filter fun x => x.event = e ∧ x.cause ≠ .propagator p

theorem Progress.pass {e : Event} {xs : List DeltaEntry} {n : Nat}
    (h : Progress v p e b xs n m s) (hs : s.Passes s') : Progress v p e b xs n m s' := by
  have hext := hs.extends h.valid
  have hstart : m.start s' = n := by
    rw [Monitor.start, hext.epoch]
    exact h.start
  by_cases hn : n = 0
  · subst hn
    exact ⟨hext.valid, h.var, h.owner, h.frozen, hstart, absurd rfl, Nat.zero_le _, h.handed⟩
  · have hv := h.live hn
    obtain ⟨es, hes⟩ := hext.log v hv
    refine ⟨hext.valid, h.var, h.owner, h.frozen, hstart, fun _ => hext.live v hv, ?_, ?_⟩
    · rw [← hes, List.length_append]
      exact h.within.trans (Nat.le_add_right _ _)
    · rw [← hes, List.take_append_of_le_length h.within]
      exact h.handed

theorem Cycles.progress {e : Event} {m₀ : Monitor} {s₀ : Store} {xs : List DeltaEntry} {n : Nat}
    (h₀ : Used v p false m₀ s₀) (h : Cycles e m₀ s₀ xs n m s) :
    Progress v p e m₀.isFrozen xs n m s := by
  induction h with
  | start =>
    have hfollows := h₀.follows
    exact ⟨hfollows.valid, hfollows.var, hfollows.owner, fun hb => by simpa [isFrozen] using hb,
      if_neg (hfollows.cleared rfl), absurd rfl, Nat.zero_le _, rfl⟩
  | pass _ hs ih => exact ih.pass hs
  | @cycle ν σ xs n k m m₁ m₂ s w u f _ hfreeze hk hs hw hdrain hunfreeze ih =>
    obtain ⟨rfl, hv⟩ := (freeze_ends ih.valid m).of_ok hfreeze
    cases hk
    rw [unfreeze_frozenAt] at hunfreeze
    cases hunfreeze
    have hext := hs.extends ih.valid
    rw [run_drain _ hext.valid (hext.live _ hv) hext.epoch (hext.log _ hv)] at hdrain
    have hext' := hext.trans ((Action.run_extends _ hext.valid).of_ok hdrain)
    have hown := (run_keeping f _ w).of_ok hdrain
    obtain ⟨es, hes⟩ := hext'.log _ hv
    obtain ⟨hvar, howner⟩ := And.intro ih.var ih.owner
    subst hvar howner
    refine ⟨hext'.valid, rfl, rfl, fun _ => rfl, if_pos (congrArg some hext'.epoch.symm),
      fun _ => hext'.live _ hv, ?_, ?_⟩
    · rw [← hes, List.length_append]
      exact Nat.le_add_right _ _
    · -- what was handed over before, then what was unseen when the monitor was frozen
      rw [hown, hw, ih.handed, ← hes, List.take_append_of_le_length (Nat.le_refl _), List.take_length,
        unseen, ih.start]
      conv_rhs => rw [← List.take_append_drop n (s.logOf m.var), List.filter_append]
      rfl

/-- After the logs have been cleared, let `m` go through cycles, with any callbacks and with
anything else done between. The callbacks have been run on `xs`, the entries of the log up to `n`
that are of the event `e` and not caused by `p`, each once and in order, where `n` is the length of
the log when the monitor was frozen last. The next cycle covers the entries from `n` on, and changes
nothing else. -/
theorem delivers_once {e : Event} {m₀ : Monitor} {s₀ : Store} {xs : List DeltaEntry} {n : Nat}
    {log : DeltaLog} (h₀ : Used v p false m₀ s₀) (h : Cycles e m₀ s₀ xs n m s)
    (hlog : s.delta v = .ok log) :
    n ≤ log.size ∧
    xs = (log.toList.take n).filter (fun x => x.event = e ∧ x.cause ≠ .propagator p) ∧
    (m₀.isFrozen = false → ∃ m₁, freeze s m = .ok () m₁ ∧ m₁.frozen = some log.size ∧
      ∀ (ν σ : Type) (f : DeltaEntry → Action ν σ Unit) (w : Workspace ν σ), s.Passes w.store →
        (m₁.drain e f).run w = (((log.toList.drop n).filter fun x =>
          x.event = e ∧ x.cause ≠ .propagator p).forM f).run w) := by
  have hprog := h.progress h₀
  have hv : s.scene v ≠ none := by
    intro hv
    rw [hprog.valid.delta_dead hv] at hlog
    cases hlog
  obtain ⟨l, hl, hlist⟩ := hprog.valid.delta_eq hv
  rw [hlog] at hl
  cases hl
  have hwithin := hprog.within
  have hhanded := hprog.handed
  rw [← hlist] at hwithin hhanded
  refine ⟨hwithin, hhanded, fun hfree => ?_⟩
  obtain ⟨hvar, howner⟩ := And.intro hprog.var hprog.owner
  subst hvar howner
  have hends := freeze_ends hprog.valid m
  cases hfreeze : freeze s m with
  | error f m' => exact absurd ⟨hprog.frozen hfree, hv⟩ (hends.of_error hfreeze)
  | ok a m₁ =>
    obtain ⟨rfl, -⟩ := hends.of_ok hfreeze
    refine ⟨_, rfl, by rw [frozenAt, ← hlist]; rfl, fun ν σ f w hs => ?_⟩
    have hext := hs.extends hprog.valid
    rw [run_drain f hext.valid (hext.live _ hv) hext.epoch (hext.log _ hv), unseen, hprog.start,
      ← hlist]
    rfl

/-- A callback that adds values to the set whose log is drained. -/
theorem delivers_once_reentrant :
    let s₀ := (Session.after (⟨.empty, #[]⟩ : Session Unit NotEqual)
      [.create (.subsets 5), .narrow ⟨0⟩ (.addToKernel 0) .decision,
        .narrow ⟨0⟩ (.addToKernel 1) .decision]).model.store
    ∃ xs m s log, Cycles .addToKernel (.fresh ⟨0⟩ ⟨0⟩) s₀ xs 2 m s ∧ s.delta ⟨0⟩ = .ok log ∧
      2 ≤ log.size ∧ xs = (log.toList.take 2).filter
        fun x => x.event = .addToKernel ∧ x.cause ≠ .propagator ⟨0⟩ := by
  intro s₀
  have hs : s₀.Reached := .model (.calls #[] _)
  let f (x : DeltaEntry) : Action Unit Unit Unit :=
    discard (Action.apply ⟨0⟩ (.addToKernel (x.first + 3)) .decision)
  obtain ⟨⟨⟩, m₁, hfreeze, -⟩ := exists_of_passes
    (show passes (freeze s₀) (.fresh ⟨0⟩ ⟨0⟩) (fun _ _ => true) = true by decide +kernel)
  obtain ⟨rfl, hv⟩ := (freeze_ends hs.valid _).of_ok hfreeze
  obtain ⟨⟨⟩, u, hdrain, -⟩ := exists_of_passes
    (show passes ((Monitor.frozenAt (.fresh ⟨0⟩ ⟨0⟩) s₀).drain .addToKernel (keeping f)).run
      ⟨s₀, ((), []), #[]⟩ (fun _ _ => true) = true by decide +kernel)
  have hcycles := Cycles.start.cycle (w := ⟨s₀, ((), []), #[]⟩) hfreeze
    (show _ = some 2 by decide +kernel) .done rfl hdrain (unfreeze_frozenAt _ _)
  have hused : Used ⟨0⟩ ⟨0⟩ false (.fresh ⟨0⟩ ⟨0⟩) s₀ := .fresh hs
  have hprog := hcycles.progress hused
  obtain ⟨log, hlog, -⟩ := hprog.valid.delta_eq (hprog.live (by decide))
  obtain ⟨hsize, hxs, -⟩ := delivers_once hused hcycles hlog
  exact ⟨_, _, _, log, hcycles, hlog, hsize, hxs⟩

end Monitor

end Propagation
