import Propagation.Proofs.Filter.Constraint
import Propagation.Proofs.Sweep

/-!
# Complete filterings that find nothing to do

Run on a scene that is stable for it, a constraint goes through all of its variables and narrows
none: however the run ends, the store is as it was, and it does not end in a contradiction
(`Constraint.propagate_idles`). It may end in a fault, since differences of integers are computed on
the way.
-/

set_option autoImplicit false

namespace Propagation

open Update Store Scene

namespace Action

variable {ν σ α β : Type} {w : Workspace ν σ}

/-- However `x` ends, the workspace is unchanged, and it does not end in a contradiction. -/
def Idles (w : Workspace ν σ) (x : Action ν σ α) : Prop :=
  Ends x.run w (fun _ u => u = w) fun e u => (∃ f, e = .fault f) ∧ u = w

theorem idles_pure (a : α) : Idles w (pure a : Action ν σ α) := ends_of_ok rfl rfl

theorem idles_of_run {x : Action ν σ α} {a : α} (h : x.run w = .ok a w) : Idles w x :=
  ends_of_ok h rfl

theorem Idles.store {x : Action ν σ α} (h : Idles w x) :
    Ends x.run w (fun _ u => u.store = w.store)
      fun e u => (∃ f, e = .fault f) ∧ u.store = w.store :=
  Ends.mono h (fun _ _ hu => congrArg Workspace.store hu)
    fun _ _ hu => ⟨hu.1, congrArg Workspace.store hu.2⟩

theorem Idles.seq {x : Action ν σ β} {f : β → Action ν σ α} (h : Idles w x)
    (hf : ∀ b, Idles w (f b)) : Idles w (x >>= f) := by
  refine ends_seq h fun b u hu => ?_
  subst hu
  exact hf b

theorem idles_ask {q : Store → Except Fault β} {f : β → Action ν σ α}
    (h : ∀ b, q w.store = .ok b → Idles w (f b)) : Idles w (query q >>= f) :=
  ends_ask h fun e _ => ⟨⟨e, rfl⟩, rfl⟩

theorem idles_forM {f : β → Action ν σ PUnit} {xs : List β} (h : ∀ x ∈ xs, Idles w (f x)) :
    Idles w (xs.forM f) := by
  induction xs with
  | nil => exact ends_of_ok rfl rfl
  | cons x xs ih =>
    have hrest := ih fun y hy => h y (List.mem_cons_of_mem x hy)
    exact (h x List.mem_cons_self).seq fun _ => hrest

/-- Removing an integer that `v` does not contain idles. -/
theorem idles_remove {v : Var} {a : Int} (h : w.store.contains v a ≠ .ok true) (c : Cause) :
    Idles w (discard (apply v (.remove a) c) : Action ν σ PUnit) := by
  have hnarrow : Ends (Store.narrow v (.remove a) c) w.store (fun _ s => s = w.store)
      fun e s => (∃ f, e = .fault f) ∧ s = w.store := by
    show Ends (Store.remove v a c) w.store _ _
    cases hc : w.store.contains v a with
    | error f =>
      refine ends_of_error (e := .fault f) (u := w.store) ?_ ⟨⟨f, rfl⟩, rfl⟩
      simp only [Store.remove, bind_apply, lift_apply, query_eq, hc]
    | ok b =>
      cases b with
      | true => exact absurd hc h
      | false =>
        refine ends_of_ok (a := false) (u := w.store) ?_ rfl
        simp only [Store.remove, bind_apply, lift_apply, query_eq, hc, Bool.false_eq_true, if_false,
          pure_apply]
  refine ends_discard ?_
  have hrun := run_apply v (.remove a) c w
  cases hx : Store.narrow v (.remove a) c w.store with
  | ok b s =>
    rw [hx] at hrun
    exact ends_of_ok hrun (by rw [hnarrow.of_ok hx]; rfl)
  | error e s =>
    rw [hx] at hrun
    obtain ⟨hf, hs⟩ := hnarrow.of_error hx
    exact ends_of_error hrun ⟨hf, by rw [hs]; rfl⟩

end Action

open Propagation.Action

/-! ## Disequalities -/

namespace NotEqual

variable {ν σ : Type} {w : Workspace ν σ} {s : Store} {x y : Var} {c : NotEqual}

/-- If `x` is fixed, `y` does not contain its value, by the queries of the store. -/
def Apart (s : Store) (x y : Var) : Prop :=
  ∀ a, s.isFixed x = .ok true → s.contains x a = .ok true → s.contains y a ≠ .ok true

/-- `contains` answers only on integer variables. -/
theorem int_of_contains (hs : s.Valid) {a : Int} (h : s.contains x a = .ok true) :
    ∃ vs, s.scene x = some (.int vs) ∧ a ∈ vs := by
  by_cases hint : ∃ vs, s.scene x = some (.int vs)
  · obtain ⟨vs, hv⟩ := hint
    refine ⟨vs, hv, ?_⟩
    rcases hs.contains_eq hv a with hc | hc <;> rw [hc] at h
    · exact of_decide_eq_true (Except.ok.inj h)
    · cases h
  · obtain ⟨k, hk⟩ := hs.ints_error (v := x) fun D hD hkind => by
      obtain ⟨vs, rfl⟩ := Dom.kindOf_eq_int hkind
      exact hint ⟨vs, hD⟩
    rw [contains, hk] at h
    cases h

theorem fixed_of_isFixed (hs : s.Valid) (h : s.isFixed x = .ok true) :
    ∃ a, s.scene x = some (.int {a}) := by
  by_cases hint : ∃ vs, s.scene x = some (.int vs)
  · obtain ⟨vs, hv⟩ := hint
    rw [hs.isFixed_eq hv] at h
    obtain ⟨a, rfl⟩ := Finset.card_eq_one.1 (of_decide_eq_true (Except.ok.inj h))
    exact ⟨a, hv⟩
  · obtain ⟨k, hk⟩ := hs.ints_error (v := x) fun D hD hkind => by
      obtain ⟨vs, rfl⟩ := Dom.kindOf_eq_int hkind
      exact hint ⟨vs, hD⟩
    rw [isFixed, size, hk] at h
    cases h

theorem Clear.apart (hs : s.Valid) (h : Clear s.scene x y) : Apart s x y := by
  intro a hfixed hx hy
  obtain ⟨b, hb⟩ := fixed_of_isFixed hs hfixed
  obtain ⟨vs, hvs, ha⟩ := int_of_contains hs hx
  obtain ⟨ws, hws, ha'⟩ := int_of_contains hs hy
  rw [hb] at hvs
  cases hvs
  cases Finset.mem_singleton.1 ha
  exact h a ws hb hws ha'

/-- `forbid x y` idles on variables that are `Apart`. -/
theorem forbid_idles (hs : w.store.Valid) (h : Apart w.store x y) (cause : Cause) :
    Idles w (forbid x y cause : Action ν σ Unit) := by
  refine idles_ask fun b hb => idles_ask fun a ha => ?_
  cases b with
  | false => exact idles_pure _
  | true =>
    obtain ⟨v, hv⟩ := fixed_of_isFixed hs hb
    have hleast : IsLeast (({v} : Finset Int) : Set Int) v := by simp
    have hcontains := hs.contains_of_mem hv (Finset.mem_singleton_self v)
    rcases hs.min_eq hv hleast with hmin | hmin <;> rw [hmin] at ha
    · cases ha
      exact idles_remove (h v hb hcontains) cause
    · cases ha

theorem propagate_idles {w : Workspace ν NotEqual} (hs : w.store.Valid)
    (h : w.own.Stable w.store.scene) :
    Idles w (Propagator.propagate : Action ν NotEqual Unit) := by
  refine Ends.of_eq ?_ (Action.run_state_bind _)
  exact Idles.seq (forbid_idles hs (h.1.apart hs) _) fun _ => forbid_idles hs (h.2.apart hs) _

end NotEqual

/-! ## Channels -/

namespace GraphChannel

variable {ν : Type} {c : GraphChannel} {i : Nat} {set : Var}

/-- A row whose sides agree is not changed by a sweep. -/
theorem sweepRow_idles {σ : Type} {w : Workspace ν σ} (hs : w.store.Valid)
    (ha : Agrees w.store.scene c.graph i set) : Idles w (c.sweepRow i set : Action ν σ Unit) := by
  refine idles_ask fun required hreq => ?_
  refine Idles.seq (idles_forM fun j hj => ?_) fun _ => ?_
  · rcases hs.kernelValues_spec set with ⟨-, l, hl, hmem⟩ | ⟨-, k, hk⟩
    · cases hl.symm.trans hreq
      exact idles_of_run (run_enforcing_idle (e := .arc i j) hs ((ha j).1.1 ((hmem j).1 hj)))
    · cases hk.symm.trans hreq
  refine idles_ask fun enforced henf => ?_
  refine Idles.seq (idles_forM fun j hj => ?_) fun _ => ?_
  · rcases hs.kernelSuccessors_spec c.graph i with ⟨-, l, hl, hmem⟩ | ⟨-, k, hk⟩
    · cases hl.symm.trans henf
      exact idles_of_run (run_enforcing_idle (e := .value j) hs ((ha j).1.2 ((hmem j).1 hj)))
    · cases hk.symm.trans henf
  refine idles_ask fun possible hpos => ?_
  refine Idles.seq (idles_forM fun j hj => ?_) fun _ => ?_
  · rcases hs.envelopeValues_spec set with ⟨-, l, hl, hmem⟩ | ⟨-, k, hk⟩
    · cases hl.symm.trans hpos
      refine idles_ask fun b hb => ?_
      rw [(hs.arcInEnvelope_iff c.graph i j).2 ((ha j).2.1 ((hmem j).1 hj))] at hb
      cases hb
      exact idles_pure _
    · cases hk.symm.trans hpos
  refine idles_ask fun allowed hall => idles_forM fun j hj => ?_
  rcases hs.envelopeSuccessors_spec c.graph i with ⟨-, l, hl, hmem⟩ | ⟨-, k, hk⟩
  · cases hl.symm.trans hall
    refine idles_ask fun b hb => ?_
    rw [(hs.envelopeContains_iff set j).2 ((ha j).2.2 ((hmem j).1 hj))] at hb
    cases hb
    exact idles_pure _
  · cases hk.symm.trans hall

/-- On a stable scene `propagate` brings the monitors up to date and leaves the store unchanged. -/
theorem propagate_idles {w : Workspace ν GraphChannel} (hs : w.store.Valid)
    (h : w.own.Stable w.store.scene) :
    Ends (propagate : Action ν GraphChannel Unit).run w (fun _ u => u.store = w.store)
      fun e u => (∃ f, e = .fault f) ∧ u.store = w.store := by
  refine Ends.of_eq ?_ (Action.run_state_bind _)
  have hsweep : Idles w (w.own.rows.forM fun x => w.own.sweepRow x.1 x.2 :
      Action ν GraphChannel PUnit) :=
    idles_forM fun x hx => sweepRow_idles hs (h _ _ (mem_rows.1 hx))
  refine ends_seq hsweep.store fun _ u hu => ?_
  refine ends_forM (I := fun _ u => u.store = w.store) hu fun k ks u hu => ends_update ?_
  cases hx : onMonitor k (skip u.store) u.own with
  | ok a o => exact ends_of_ok hx hu
  | error f o => exact ends_of_error hx ⟨⟨f, rfl⟩, hu⟩

end GraphChannel

/-! ## Constraints -/

namespace Constraint

/-- The constraint has nothing left to filter, by the queries of the store. -/
def Met : Constraint → Store → Prop
  | .notEqual c, s => NotEqual.Apart s c.x c.y ∧ NotEqual.Apart s c.y c.x
  | .graphChannel c, s => ∀ i set, c.sets[i]? = some set → GraphChannel.Shown s c.graph i set

theorem Stable.met {c : Constraint} {s : Store} (hs : s.Valid) (h : c.Stable s.scene) : c.Met s := by
  cases c with
  | notEqual c => exact ⟨NotEqual.Clear.apart hs h.1, NotEqual.Clear.apart hs h.2⟩
  | graphChannel c => exact fun i set hset => GraphChannel.Agrees.shown hs (h i set hset)

/-- On a stable scene a complete filtering leaves the store unchanged, however it ends, and does not
end in a contradiction. -/
theorem propagate_idles {ν π : Type} [Propagator ν π] {c : Constraint}
    {w : Workspace ν (Constraint ⊕ π)} (hs : w.store.Valid) (hw : w.own = .inl c)
    (hc : c.Stable w.store.scene) :
    Ends (Propagator.propagate : Action ν (Constraint ⊕ π) Unit).run w
      (fun _ u => u.store = w.store) fun e u => (∃ f, e = .fault f) ∧ u.store = w.store := by
  refine Ends.of_eq ?_ (Action.run_state_bind _)
  rw [hw]
  refine Propagator.ends_onLeft hw ?_
  refine Ends.of_eq ?_ (Action.run_state_bind _)
  rw [Workspace.own_withOwn]
  cases c with
  | notEqual c =>
    exact onNotEqual_ends rfl ((NotEqual.propagate_idles (w := w.withOwn c) hs hc).store.mono
      (fun _ _ h => h) fun _ _ h => h)
  | graphChannel c =>
    exact onGraphChannel_ends rfl ((GraphChannel.propagate_idles (w := w.withOwn c) hs hc).mono
      (fun _ _ h => h) fun _ _ h => h)

end Constraint

end Propagation
