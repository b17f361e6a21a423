import Propagation.Constraint
import Propagation.Proofs.Filter.Coverage
import Propagation.Proofs.Filter.Entailment
import Propagation.Propagator.Sum

/-!
# Constraints in a model

The runs of both kinds of constraints, by one specification: a complete filtering makes the scene
stable (`Constraint.sweep_ends`), and `propagateOn` leaves the constraint covered by the other
pending indices (`Constraint.hear_ends`). Neither takes anything from a stable scene.
-/

set_option autoImplicit false

namespace Propagation

open Update Store

/-! ## Parts of a sum -/

section
variable {ν π ρ α : Type} {ok : α → Workspace ν (π ⊕ ρ) → Prop}
  {bad : Failure → Workspace ν (π ⊕ ρ) → Prop} {w : Workspace ν (π ⊕ ρ)}

theorem Propagator.ends_onLeft {x : Action ν π α} {c : π} (hw : w.own = .inl c)
    (h : Ends x.run (w.withOwn c) (fun a u => ok a (u.withOwn (.inl u.own)))
      fun e u => bad e (u.withOwn (.inl u.own))) :
    Ends (Propagator.onLeft c x : Action ν (π ⊕ ρ) α).run w ok bad := by
  refine Action.ends_zoom ?_ ?_ ?_ hw h
  · exact fun _ _ => rfl
  · exact fun _ _ _ => rfl
  · rfl

theorem Propagator.ends_onRight {x : Action ν ρ α} {c : ρ} (hw : w.own = .inr c)
    (h : Ends x.run (w.withOwn c) (fun a u => ok a (u.withOwn (.inr u.own)))
      fun e u => bad e (u.withOwn (.inr u.own))) :
    Ends (Propagator.onRight c x : Action ν (π ⊕ ρ) α).run w ok bad := by
  refine Action.ends_zoom ?_ ?_ ?_ hw h
  · exact fun _ _ => rfl
  · exact fun _ _ _ => rfl
  · rfl

end

namespace Constraint

section
variable {ν α : Type} {ok : α → Workspace ν Constraint → Prop}
  {bad : Failure → Workspace ν Constraint → Prop} {w : Workspace ν Constraint}

theorem onNotEqual_ends {x : Action ν NotEqual α} {c : NotEqual} (hw : w.own = .notEqual c)
    (h : Ends x.run (w.withOwn c) (fun a u => ok a (u.withOwn (.notEqual u.own)))
      fun e u => bad e (u.withOwn (.notEqual u.own))) : Ends (onNotEqual c x).run w ok bad := by
  refine Action.ends_zoom ?_ ?_ ?_ hw h
  · exact fun _ _ => rfl
  · exact fun _ _ _ => rfl
  · rfl

theorem onGraphChannel_ends {x : Action ν GraphChannel α} {c : GraphChannel}
    (hw : w.own = .graphChannel c)
    (h : Ends x.run (w.withOwn c) (fun a u => ok a (u.withOwn (.graphChannel u.own)))
      fun e u => bad e (u.withOwn (.graphChannel u.own))) :
    Ends (onGraphChannel c x).run w ok bad := by
  refine Action.ends_zoom ?_ ?_ ?_ hw h
  · exact fun _ _ => rfl
  · exact fun _ _ _ => rfl
  · rfl

end

/-! ## The predicates of a constraint -/

/-- The constraint without its monitors. -/
def bare : Constraint → Constraint
  | .notEqual c => .notEqual c
  | .graphChannel c => .graphChannel c.bare

def watches : Constraint → List (Var × Mask)
  | .notEqual c => c.watches
  | .graphChannel c => c.watches

def Stable : Constraint → Scene → Prop
  | .notEqual c => c.Stable
  | .graphChannel c => c.Stable

/-- The variables are of the right kinds in the scene, and the sets of a channel range over its
nodes. -/
def Fits : Constraint → Scene → Prop
  | .notEqual c => c.Fits
  | .graphChannel c => c.Fits

/-- No two nodes of a channel have the same set. -/
def Distinct : Constraint → Prop
  | .notEqual _ => True
  | .graphChannel c => c.Distinct

/-- The constraint as posted under `p`. -/
def Formed : Constraint → PropagatorId → Prop
  | .notEqual c, p => c.cause = .propagator p
  | .graphChannel c, p => c.Formed p

/-- The monitors of a channel track the logs of the store, as they are or as they have been. -/
def Tracks : Constraint → Store → Prop
  | .notEqual _, _ => True
  | .graphChannel c, s => c.Tracks s

/-- The scene is stable but for what is pending at the indices in the last argument. -/
def Covered : Constraint → Store → (Nat → Prop) → Prop
  | .notEqual c, s, todo => c.Covered s.scene todo
  | .graphChannel c, s, todo => c.Covered s todo

variable {c c' : Constraint} {s s' : Store} {S S' : Scene} {p : PropagatorId} {d : Cause}
  {todo todo' : Nat → Prop}

theorem bare_bare (c : Constraint) : c.bare.bare = c.bare := by cases c <;> rfl

theorem watches_of_bare (h : c'.bare = c.bare) : c'.watches = c.watches := by
  have hbare : ∀ c : Constraint, c.bare.watches = c.watches := fun c => by cases c <;> rfl
  rw [← hbare, h, hbare]

theorem stable_of_bare (h : c'.bare = c.bare) : c'.Stable = c.Stable := by
  have hbare : ∀ c : Constraint, c.bare.Stable = c.Stable := fun c => by cases c <;> rfl
  rw [← hbare, h, hbare]

theorem fits_of_bare (h : c'.bare = c.bare) : c'.Fits = c.Fits := by
  have hbare : ∀ c : Constraint, c.bare.Fits = c.Fits := fun c => by cases c <;> rfl
  rw [← hbare, h, hbare]

theorem distinct_of_bare (h : c'.bare = c.bare) : c'.Distinct = c.Distinct := by
  have hbare : ∀ c : Constraint, c.bare.Distinct = c.Distinct := fun c => by cases c <;> rfl
  rw [← hbare, h, hbare]

theorem Fits.within (h : c.Fits S) (hle : Scene.Within S' S) : c.Fits S' := by
  cases c with
  | notEqual c => exact NotEqual.Fits.within h hle
  | graphChannel c => exact GraphChannel.Fits.within h hle

/-! ## Entailment -/

/-- The entailment `a` of the constraint in the scene. -/
def Says : Constraint → Scene → Entailment → Prop
  | .notEqual c => c.Says
  | .graphChannel c => c.Says

variable {a b : Entailment}

theorem says_of_bare (h : c'.bare = c.bare) : c'.Says = c.Says := by
  have hbare : ∀ c : Constraint, c.bare.Says = c.Says := fun c => by
    cases c with
    | notEqual c => rfl
    | graphChannel c =>
      funext S a
      exact propext ⟨fun h => ⟨h.violated, h.entailed⟩, fun h => ⟨h.violated, h.entailed⟩⟩
  rw [← hbare, h, hbare]

theorem says_of_entailment {ν : Type} (hs : s.Valid)
    (h : Propagator.entailment ν c s = .ok a) : c.Says s.scene a := by
  cases c with
  | notEqual c => exact NotEqual.says_of_entailment hs h
  | graphChannel c => exact GraphChannel.says_of_entailment hs h

/-- The answer is a function of the scene. -/
theorem Says.unique (h : c.Says S a) (h' : c.Says S b) : a = b := by
  cases c with
  | notEqual c =>
    obtain ⟨vs, ws, hx, hy, rfl⟩ := h
    obtain ⟨vs', ws', hx', hy', rfl⟩ := h'
    cases hx.symm.trans hx'
    cases hy.symm.trans hy'
    rfl
  | graphChannel c => exact GraphChannel.Says.unique h h'

/-- `Says c S .entailed` is kept when the domains shrink. -/
theorem Says.within (h : c.Says S .entailed) (hle : Scene.Within S' S) :
    c.Says S' .entailed := by
  cases c with
  | notEqual c => exact NotEqual.says_entailed.2 ((NotEqual.says_entailed.1 h).within hle)
  | graphChannel c => exact GraphChannel.Says.within h hle

theorem Says.stable (h : c.Says S .entailed) : c.Stable S := by
  cases c with
  | notEqual c => exact (NotEqual.says_entailed.1 h).stable
  | graphChannel c => exact GraphChannel.Says.stable h

/-! ## Between runs -/

theorem Tracks.same (h : c.Tracks s) (hs : s.Same s') : c.Tracks s' := by
  cases c with
  | notEqual c => trivial
  | graphChannel c =>
    intro k m hm e he
    rw [hs.epoch, hs.log]
    exact h k m hm e he

theorem Covered.same (h : c.Covered s todo) (hs : s.Same s') : c.Covered s' todo := by
  cases c with
  | notEqual c => exact NotEqual.Covered.congr h (congrFun hs.scene _) (congrFun hs.scene _)
  | graphChannel c =>
    refine GraphChannel.Covered.congr h (fun _ v _ => congrFun hs.scene v) fun k m _ => ?_
    rw [Monitor.unseen, Monitor.unseen, Monitor.start, Monitor.start, hs.epoch, hs.log]

/-- `Covered` only depends on the domains and logs of the watched variables, and on the epoch. -/
theorem Covered.agree (h : c.Covered s todo) (hc : c.Formed p)
    (hscene : ∀ x ∈ c.watches, s'.scene x.1 = s.scene x.1)
    (hlog : ∀ x ∈ c.watches, s'.logOf x.1 = s.logOf x.1) (hepoch : s'.epoch = s.epoch) :
    c.Covered s' todo := by
  cases c with
  | notEqual c =>
    have hx : (c.x, Mask.only .instantiate) ∈ c.watches := List.mem_cons_self
    have hy : (c.y, Mask.only .instantiate) ∈ c.watches := List.mem_cons_of_mem _ List.mem_cons_self
    exact NotEqual.Covered.congr h (hscene _ hx) (hscene _ hy)
  | graphChannel c =>
    have hwatch : ∀ {k v}, c.watched k = some v → ∃ mask, (v, mask) ∈ c.watches := by
      intro k v hv
      rw [← GraphChannel.getElem?_watches, Option.map_eq_some_iff] at hv
      obtain ⟨⟨v, mask⟩, hx, rfl⟩ := hv
      exact ⟨mask, List.mem_of_getElem? hx⟩
    refine GraphChannel.Covered.congr h (fun k v hv => ?_) fun k m hm => ?_
    · obtain ⟨mask, hx⟩ := hwatch hv
      exact hscene _ hx
    · obtain ⟨mask, hx⟩ := hwatch (GraphChannel.Formed.monitor hc k m hm).1
      have hlog : s'.logOf m.var = s.logOf m.var := hlog _ hx
      rw [Monitor.unseen, Monitor.unseen, Monitor.start, Monitor.start, hepoch, hlog]

theorem Covered.stable (h : c.Covered s fun _ => False) : c.Stable s.scene := by
  cases c with
  | notEqual c => exact NotEqual.Covered.stable h
  | graphChannel c => exact GraphChannel.Covered.stable h

theorem Stable.covered (h : c.Stable s.scene) (todo : Nat → Prop) : c.Covered s todo := by
  cases c with
  | notEqual c => exact NotEqual.Stable.covered h todo
  | graphChannel c => exact GraphChannel.Stable.covered h todo

theorem Covered.mono (h : c.Covered s todo) (hle : ∀ k, todo k → todo' k) :
    c.Covered s todo' := by
  cases c with
  | notEqual c => exact h.imp (fun h hn => hle 0 (h hn)) fun h hn => hle 1 (h hn)
  | graphChannel c => exact GraphChannel.Covered.mono h hle

/-- After a run by another cause `d` the constraint is covered once the indices whose watches `d`
has woken are pending too. -/
theorem Covered.ran (h : c.Covered s todo) (hc : c.Formed p) (ht : c.Tracks s) (hr : s.Ran d s')
    (hd : d ≠ .propagator p) : c.Covered s' fun k => todo k ∨ s'.Wakes c.watches d k := by
  cases c with
  | notEqual c => exact NotEqual.Covered.ran h hr
  | graphChannel c => exact GraphChannel.Covered.ran h hc ht hr hd

/-! ## Runs -/

section
variable {ν π : Type} {P : Scene → Prop} {fit : Prop}

/-- The constraint posted as `p` after a run that leaves `u`: it is `c'`, which differs from `c` in
its monitors at most. -/
structure Kept (c : Constraint) (p : PropagatorId) (u : Workspace ν (Constraint ⊕ π))
    (c' : Constraint) : Prop where
  own : u.own = .inl c'
  bare : c'.bare = c.bare
  formed : c'.Formed p
  tracks : c'.Tracks u.store

theorem Kept.trans {u u' : Workspace ν (Constraint ⊕ π)} {c'' : Constraint} (h : c.Kept p u c')
    (h' : c'.Kept p u' c'') : c.Kept p u' c'' :=
  ⟨h'.own, h'.bare.trans h.bare, h'.formed, h'.tracks⟩

variable [Propagator ν π] {w : Workspace ν (Constraint ⊕ π)}

/-- `propagate` on a `Formed` constraint is an `Advance`, or it `Halts`, and leaves the scene stable
if `c` is `Distinct`. -/
theorem sweep_ends (hs : w.store.Valid) (hw : w.own = .inl c) (hc : c.Formed p)
    (ht : c.Tracks w.store) (hP : ∀ G, P G → c.Stable G) (hfit : fit → c.Fits w.store.scene) :
    Ends (Propagator.propagate : Action ν (Constraint ⊕ π) Unit).run w
      (fun _ u => ∃ c', c.Kept p u c' ∧ Advance P w.store (.propagator p) u.store ∧
        (c.Distinct → c.Stable u.store.scene))
      fun e u => Halts P fit w.store (.propagator p) e u.store ∧
        ∀ x, e = .contradiction x → ∃ c', c.Kept p u c' := by
  refine Ends.of_eq ?_ (Action.run_state_bind _)
  rw [hw]
  refine Propagator.ends_onLeft hw ?_
  refine Ends.of_eq ?_ (Action.run_state_bind _)
  rw [Workspace.own_withOwn]
  cases c with
  | notEqual c =>
    refine onNotEqual_ends rfl (Ends.mono
      (NotEqual.propagate_filters (w := w.withOwn c) hs rfl hc hP hfit) ?_ ?_)
    · rintro - u ⟨hown, hadv, hstable⟩
      exact ⟨_, ⟨rfl, congrArg (fun c => bare (.notEqual c)) hown, hown ▸ hc, trivial⟩, hadv,
        fun _ => hstable⟩
    · rintro e u ⟨hown, hhalt⟩
      exact ⟨hhalt, fun _ _ =>
        ⟨_, rfl, congrArg (fun c => bare (.notEqual c)) hown, hown ▸ hc, trivial⟩⟩
  | graphChannel c =>
    refine onGraphChannel_ends rfl ((GraphChannel.propagate_ends
      (w := w.withOwn c) hs rfl hc ht hP hfit).mono ?_ ?_)
    · rintro - u ⟨hbare, hformed, htracks, hadv, -, hagree⟩
      exact ⟨_, ⟨rfl, congrArg Constraint.graphChannel hbare, hformed, htracks⟩, hadv,
        fun hd i set hset => hagree i set hset (GraphChannel.Distinct.sole hd hset)⟩
    · rintro e u ⟨hhalt, hown⟩
      refine ⟨hhalt, ?_⟩
      rintro x rfl
      exact ⟨_, rfl, congrArg (fun c => bare (.graphChannel c)) (hown x rfl), hown x rfl ▸ hc,
        hown x rfl ▸ GraphChannel.Tracks.ran ht hhalt.1.toRan⟩

/-- `propagateOn i m` is an `Advance`, or it `Halts`, and leaves the constraint covered by the
pending indices other than `i`. -/
theorem hear_ends (hs : w.store.Valid) (hw : w.own = .inl c) (hc : c.Formed p)
    (ht : c.Tracks w.store) (hP : ∀ G, P G → c.Stable G) {i : Nat}
    (hfit : fit → c.Fits w.store.scene ∧ i < c.watches.length) (m : Mask) :
    Ends (Propagator.propagateOn i m : Action ν (Constraint ⊕ π) Unit).run w
      (fun _ u => ∃ c', c.Kept p u c' ∧ Advance P w.store (.propagator p) u.store ∧
        (c.Distinct → ∀ todo, c.Covered w.store todo →
          c'.Covered u.store fun k => todo k ∧ k ≠ i))
      fun e u => Halts P fit w.store (.propagator p) e u.store ∧
        ∀ x, e = .contradiction x → ∃ c', c.Kept p u c' := by
  refine Ends.of_eq ?_ (Action.run_state_bind _)
  rw [hw]
  refine Propagator.ends_onLeft hw ?_
  refine Ends.of_eq ?_ (Action.run_state_bind _)
  rw [Workspace.own_withOwn]
  cases c with
  | notEqual c =>
    refine onNotEqual_ends rfl (Ends.mono (NotEqual.propagateOn_filters (w := w.withOwn c) hs
      rfl hc hP (fun hf => (hfit hf).1) i m) ?_ ?_)
    · rintro - u ⟨hown, hadv, hforbid⟩
      refine ⟨.notEqual u.own,
        ⟨rfl, congrArg (fun c => bare (.notEqual c)) hown, hown ▸ hc, trivial⟩, hadv,
        fun _ todo hcov => ?_⟩
      rw [hown]
      exact NotEqual.Covered.read hcov hforbid
    · rintro e u ⟨hown, hhalt⟩
      exact ⟨hhalt, fun _ _ =>
        ⟨_, rfl, congrArg (fun c => bare (.notEqual c)) hown, hown ▸ hc, trivial⟩⟩
  | graphChannel c =>
    have hfit' : fit → c.Fits w.store.scene ∧ i ≤ c.sets.size := by
      intro hf
      have hlt : i < c.watches.length := (hfit hf).2
      rw [GraphChannel.length_watches] at hlt
      exact ⟨(hfit hf).1, by omega⟩
    refine onGraphChannel_ends rfl ((GraphChannel.hear_ends
      (w := w.withOwn c) hs rfl hc ht hP hfit').mono ?_ ?_)
    · rintro - u ⟨h, hadv, hcov⟩
      exact ⟨_, ⟨rfl, congrArg Constraint.graphChannel h.bare, h.formed, h.tracks⟩, hadv, hcov⟩
    · rintro e u ⟨hhalt, h⟩
      exact ⟨hhalt, fun x hx => ⟨_, rfl, congrArg Constraint.graphChannel (h x hx).bare,
        (h x hx).formed, (h x hx).tracks⟩⟩

/-- The run lemma of `hear_ends`: `propagateOn` for all of the pending pairs `xs`. -/
theorem hearAll_ends (hs : w.store.Valid) (hw : w.own = .inl c) (hc : c.Formed p)
    (ht : c.Tracks w.store) (hP : ∀ G, P G → c.Stable G) {xs : List (Nat × Mask)}
    (hfit : fit → c.Fits w.store.scene ∧ ∀ x ∈ xs, x.1 < c.watches.length) :
    Ends (xs.forM fun x => Propagator.propagateOn x.1 x.2 : Action ν (Constraint ⊕ π) PUnit).run w
      (fun _ u => ∃ c', c.Kept p u c' ∧ Advance P w.store (.propagator p) u.store ∧
        (c.Distinct → ∀ todo, c.Covered w.store todo →
          c'.Covered u.store fun k => todo k ∧ ∀ x ∈ xs, k ≠ x.1))
      fun e u => Halts P fit w.store (.propagator p) e u.store ∧
        ∀ x, e = .contradiction x → ∃ c', c.Kept p u c' := by
  refine (Action.ends_hearing Prod.fst
    (K := fun u => ∃ c', c.Kept p u c' ∧ Advance P w.store (.propagator p) u.store)
    (C := fun u todo => ∀ c', u.own = .inl c' → c.Distinct → c'.Covered u.store todo)
    ⟨c, ⟨hw, rfl, hc, ht⟩, hs.advance_self P _⟩
    (fun h hle c' hown hd => (h c' hown hd).mono hle) ?_).mono ?_ fun _ _ h => h
  · rintro x hx u ⟨c', hkept, hadv⟩
    have hfit' : fit → c'.Fits u.store.scene ∧ x.1 < c'.watches.length := by
      intro hf
      rw [fits_of_bare hkept.bare, watches_of_bare hkept.bare]
      exact ⟨(hfit hf).1.within hadv.within, (hfit hf).2 x hx⟩
    refine (hear_ends hadv.valid hkept.own hkept.formed hkept.tracks
      (fun G hG => stable_of_bare hkept.bare ▸ hP G hG) hfit' x.2).mono ?_ ?_
    · rintro - u' ⟨c'', hkept', hadv', hcov⟩
      refine ⟨⟨c'', hkept.trans hkept', hadv.trans hadv'⟩, fun todo h c₂ hown hd => ?_⟩
      cases hkept'.own.symm.trans hown
      exact hcov (distinct_of_bare hkept.bare ▸ hd) todo (h c' hkept.own hd)
    · exact fun e u' ⟨hhalt, h⟩ => ⟨hadv.halts hhalt, fun y hy => (h y hy).imp fun _ => hkept.trans⟩
  · rintro - u ⟨⟨c', hkept, hadv⟩, hcov⟩
    refine ⟨c', hkept, hadv, fun hd todo h => hcov todo ?_ c' hkept.own hd⟩
    rintro c₂ hown -
    cases hw.symm.trans hown
    exact h

end

end Constraint

end Propagation
