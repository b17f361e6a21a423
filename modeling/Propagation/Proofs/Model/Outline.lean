import Propagation.Proofs.Model.Minded

/-!
# The outline of a session

The outline of a session with constraints is a profile for each level and the depths of the marks
(`Session.outline`). The queue, the pending events and the retired flags are not part of it: the
answer of a call and the outline after it are functions of the outline before it (`Outline.Does`).
Only the domains after a contradictory propagation are not, which last until the level is closed.
-/

set_option autoImplicit false

namespace Propagation

open Update Store

attribute [ext] Profile

/-! ## Profiles -/

namespace Profile

/-- The profile with one more variable, of the domain `D`. -/
def create (P : Profile) (D : Dom) : Profile :=
  { P with vars := P.vars + 1, scene := Function.update P.scene ⟨P.vars⟩ (some D) }

/-- The profile with the domains of `S` instead. -/
def withScene (P : Profile) (S : Scene) : Profile := { P with scene := S }

/-- The profile with one more constraint, which is enabled. -/
def post (P : Profile) (c : Constraint) : Profile :=
  { P with
    count := P.count + 1
    posed := Function.update P.posed P.count (some (c.postedAs ⟨P.count⟩))
    enabled := Function.update P.enabled P.count True }

/-- The profile with the flag `enabled` of `p` set to `b`. -/
def switch (P : Profile) (p : Nat) (b : Bool) : Profile :=
  { P with enabled := Function.update P.enabled p (b = true) }

/-- `S` is the greatest scene within that of `P` that is stable for all enabled constraints. -/
structure Closure (P : Profile) (S : Scene) : Prop where
  demands : P.Demands S
  within : Scene.Within S P.scene
  dead : ∀ v, P.scene v = none → S v = none
  greatest : ∀ G, P.Demands G → Scene.Within G P.scene → Scene.Within G S

theorem Closure.unique {P : Profile} {S S' : Scene} (h : P.Closure S) (h' : P.Closure S') :
    S = S' :=
  (h'.greatest S h.demands h.within).antisymm_of_within (h.greatest S' h'.demands h'.within)
    h.within h.dead h'.within h'.dead

end Profile

/-! ## Outlines -/

/-- The `profile` of the innermost level, the profiles of the `levels` that closing gives back,
innermost first, and the depths of the marks, oldest first. -/
structure Outline where
  profile : Profile
  levels : List Profile
  depths : List Nat

namespace Outline

def withProfile (o : Outline) (P : Profile) : Outline := { o with profile := P }

/-- The answers of a call, and the outlines after it, as functions of the outline `o` before it. -/
inductive Does {π : Type} (o : Outline) : Call (Constraint ⊕ π) → Answer → Outline → Prop
  | create {d : Shape} :
    Does o (.create d) (.var ⟨o.profile.vars⟩) (o.withProfile (o.profile.create d.dom))
  | narrow {v : Var} {n : Narrowing} {c : Cause} {D D' : Dom} (hv : o.profile.scene v = some D)
    (hn : D.after n = some D') :
    Does o (.narrow v n c) (.narrowed (decide (D' ≠ D)))
      (o.withProfile (o.profile.withScene (Function.update o.profile.scene v (some D'))))
  | refused {v : Var} {n : Narrowing} {c : Cause} {D : Dom} (hv : o.profile.scene v = some D)
    (hn : D.after n = none) : Does o (.narrow v n c) (.contradiction ⟨some v, c, n.refusal⟩) o
  | post {c : Constraint} :
    Does o (.post (.inl c)) (.propagator ⟨o.profile.count⟩) (o.withProfile (o.profile.post c))
  | enable {p : PropagatorId} :
    Does o (.enable p) .done (o.withProfile (o.profile.switch p.id true))
  | disable {p : PropagatorId} :
    Does o (.disable p) .done (o.withProfile (o.profile.switch p.id false))
  | save : Does o .save .done { o with levels := o.profile :: o.levels }
  | checkpoint : Does o .checkpoint (.marked o.levels.length)
    ⟨o.profile, o.profile :: o.levels, o.depths ++ [o.levels.length]⟩
  | restore {P : Profile} {older : List Profile} (h : o.levels = P :: older) :
    Does o .restore .done ⟨P, older, o.depths⟩
  | rollback {k : Nat} {P : Profile} {newer older : List Profile}
    (h : o.levels = newer ++ P :: older) (hk : o.depths[k]? = some older.length) :
    Does o (.rollback k) .done ⟨P, older, o.depths⟩
  | settled {S : Scene} (h : o.profile.Closure S) :
    Does o .fixpoint .done (o.withProfile (o.profile.withScene S))
  | failed {c : Contradiction} {P : Profile}
    (h : ∀ G, o.profile.Demands G → ¬Scene.Within G o.profile.scene) :
    Does o .fixpoint (.contradiction c) (o.withProfile P)
  | isEntailed {p : PropagatorId} {c : Constraint} {a : Entailment}
    (hp : o.profile.posed p.id = some c) (ha : c.Says o.profile.scene a) :
    Does o (.isEntailed p) (.entailment a) o

end Outline

def Session.outline {ν π : Type} (s : Session ν (Constraint ⊕ π)) : Outline :=
  ⟨s.model.profile, s.model.levels, s.marks.toList.map Mark.depth⟩

/-! ## What the engine does to profiles -/

/-- Stores with the same live variables have the same number of them. -/
theorem Store.Valid.countIn_of_live {s s' : Store} (hs : s.Valid) (hs' : s'.Valid)
    (h : ∀ v, s'.scene v ≠ none ↔ s.scene v ≠ none) :
    s'.countIn s'.trail.view = s.countIn s.trail.view := by
  have hlt : ∀ n, n < s'.countIn s'.trail.view ↔ n < s.countIn s.trail.view := by
    intro n
    rw [← hs'.ne_none_iff ⟨n⟩, ← hs.ne_none_iff ⟨n⟩, h]
  exact Nat.le_antisymm (Nat.le_of_not_lt fun h => Nat.lt_irrefl _ ((hlt _).1 h))
    (Nat.le_of_not_lt fun h => Nat.lt_irrefl _ ((hlt _).2 h))

namespace Model

variable {ν π : Type} {m m' : Model ν (Constraint ⊕ π)} {p : PropagatorId}
  {e : Entry (Constraint ⊕ π)} {t : Trail} {b : Bool} {w : View}

/-- A step that keeps the constraints and which of them are enabled changes the profile in `vars`
and `scene` only. -/
theorem profile_of_bare (hcount : m'.count = m.count)
    (hbare : ∀ p < m.count, m'.bareAt p = m.bareAt p)
    (henabled : ∀ p < m.count, m'.Flag (.enabled p) true ↔ m.Flag (.enabled p) true) :
    m'.profile = { m.profile with
      vars := m'.store.countIn m'.store.trail.view
      scene := m'.store.scene } := by
  ext1
  · rfl
  · rfl
  · exact hcount
  · funext p
    show (if p < m'.count then _ else _) = if p < m.count then _ else _
    rw [hcount]
    split
    · next hp => exact hbare p hp
    · rfl
  · funext p
    refine propext ?_
    show p < m'.count ∧ _ ↔ p < m.count ∧ _
    rw [hcount]
    exact and_congr_right fun hp => henabled p hp

theorem profile_withStore (hm : m.Valid) (ht : m.Tidy) {s : Store} (hev : m.store.Evolves s) :
    ({ m with store := s } : Model ν (Constraint ⊕ π)).profile = { m.profile with
      vars := s.countIn s.trail.view
      scene := s.scene } :=
  profile_of_bare (ht.count_eq (.withStore hm hev) rfl) (fun _ _ => rfl) fun _ _ =>
    flag_of_store hm rfl rfl hev

theorem profile_created (hm : m.Valid) (ht : m.Tidy) {v : Var} {D : Dom} {s : Store}
    (hc : m.store.Created v D s) :
    v = ⟨m.profile.vars⟩ ∧
      ({ m with store := s } : Model ν (Constraint ⊕ π)).profile = m.profile.create D := by
  have hv : v = ⟨m.profile.vars⟩ := congrArg Var.mk hc.id_eq
  refine ⟨hv, ?_⟩
  rw [profile_withStore hm ht hc.evolves, hc.scene, hv]
  ext1
  · show s.countIn s.trail.view = m.store.countIn m.store.trail.view + 1
    rw [Store.countIn, hc.alive, hc.ints, Function.update_self]
    rfl
  all_goals rfl

theorem profile_narrowed (hm : m.Valid) (ht : m.Tidy) {v : Var} {c : Cause} {D D' : Dom} {s : Store}
    (hn : m.store.Narrowed v c D D' s) :
    ({ m with store := s } : Model ν (Constraint ⊕ π)).profile =
      m.profile.withScene (Function.update m.profile.scene v (some D')) := by
  rw [profile_withStore hm ht hn.evolves, hn.scene]
  ext1
  · refine hm.store.countIn_of_live hn.valid fun u => ?_
    rw [hn.scene]
    by_cases hu : u = v
    · subst hu
      simp [hn.before]
    · rw [Function.update_of_ne hu]
  all_goals rfl

theorem profile_posted [Propagator ν π] {setup : Setup ν (Constraint ⊕ π)} {c : Constraint}
    (hm : m.Valid) (hinit : Propagator.initialise (.inl c : Constraint ⊕ π) ⟨m.count⟩ m.store =
      .ok setup)
    (hpost : m.Posted setup m') : m'.profile = m.profile.post c := by
  obtain ⟨u, hu, hsetup⟩ := Checked.exists_of_bind_eq_ok hinit
  obtain ⟨t, hstore, hwide, -⟩ := hpost.store
  have hcount := hpost.count_eq
  have hnew : m'.bareAt m.count = some (c.postedAs ⟨m.count⟩) := by
    cases hsetup
    rw [bareAt, hpost.propagatorAt hm, if_pos rfl]
    exact congrArg some (Constraint.of_initialise hu).1
  have hbare : ∀ p < m.count, m'.bareAt p = m.bareAt p := by
    intro p hp
    refine bareAt_of_propagatorAt ((hpost.propagatorAt hm p).trans ?_)
    rw [if_neg (Nat.ne_of_lt hp), if_pos hp]
  ext1
  · show m'.store.countIn m'.store.trail.view = m.store.countIn m.store.trail.view
    rw [hstore]
    exact congrArg (fun a => (a.getD 0).toNat) hwide.count
  · show m'.store.scene = m.store.scene
    rw [hstore]
    exact (hwide.valid hm.store).2.1
  · exact hcount
  · funext p
    show (if p < m'.count then m'.bareAt p else none) =
      Function.update (fun p => if p < m.count then m.bareAt p else none) m.count _ p
    rw [hcount]
    rcases Nat.lt_trichotomy p m.count with hp | rfl | hp
    · rw [if_pos (by omega), Function.update_of_ne (by omega), if_pos hp, hbare p hp]
    · rw [if_pos (by omega), Function.update_self, hnew]
      rfl
    · rw [if_neg (by omega), Function.update_of_ne (by omega), if_neg (by omega)]
  · funext p
    refine propext ?_
    show p < m'.count ∧ m'.Flag (.enabled p) true ↔
      Function.update (fun p => p < m.count ∧ m.Flag (.enabled p) true) m.count True p
    rw [hcount]
    rcases Nat.lt_trichotomy p m.count with hp | rfl | hp
    · rw [Function.update_of_ne (by omega), hpost.flag hm rfl hp]
      exact and_congr_left fun _ => iff_of_true (by omega) hp
    · rw [Function.update_self]
      exact iff_of_true ⟨by omega, (hpost.flag_new hm).1⟩ trivial
    · rw [Function.update_of_ne (by omega)]
      exact iff_of_false (by omega) (by omega)

/-- Setting the flag of `p` switches it in the profile, whatever else is done to its entry. -/
theorem profile_flagged (hm : m.Valid) (hp : p.id < m.count) (he : m.entries[p.id]? = some e)
    (hf : m.Flagged e.enabled b t) (hstore : m'.store = { m.store with trail := t })
    (hseat : m'.seat = m.seat) (hcount : m'.count = m.count)
    (hbare : ∀ q, m'.bareAt q = m.bareAt q) :
    m'.profile = m.profile.switch p.id b := by
  have hne := hm.ne_vars (r := .enabled p.id) (by rintro ⟨⟩) (cell_enabled (seat_of_entry he))
  have hwide := widens_setInt hf.turns hne
  ext1
  · show m'.store.countIn m'.store.trail.view = m.store.countIn m.store.trail.view
    rw [hstore]
    exact congrArg (fun a => (a.getD 0).toNat) hwide.count
  · show m'.store.scene = m.store.scene
    rw [hstore]
    exact (hwide.valid hm.store).2.1
  · exact hcount
  · funext q
    show (if q < m'.count then m'.bareAt q else none) = if q < m.count then m.bareAt q else none
    rw [hcount, hbare]
  · funext q
    refine propext ?_
    show q < m'.count ∧ m'.Flag (.enabled q) true ↔
      Function.update (fun q => q < m.count ∧ m.Flag (.enabled q) true) p.id (b = true) q
    rw [hcount, hf.flag hm he hstore hseat rfl]
    by_cases hq : q = p.id
    · subst hq
      rw [Function.update_self, if_pos rfl]
      exact (and_iff_right hp).trans eq_comm
    · rw [Function.update_of_ne hq, if_neg fun h => hq (by cases h; rfl)]

theorem levels_save (hm : m.Valid) : m.save.levels = m.profile :: m.levels := by
  show m.store.trail.save.past.map _ = _
  rw [Trail.past_save hm.store.trail.sound]
  rfl

section
variable {newer older : List (Nat × View)} {k : Nat}
  (hm : m.Valid) (hpast : m.store.trail.past = newer ++ (k, w) :: older)
  (hr : m.Reverted w older m')
include hm hpast hr

/-- Closing levels keeps the profile of each view outside of `w`. -/
theorem Reverted.profileIn {w' : View} (hle : m.countIn w' ≤ m.countIn w) :
    m'.profileIn w' = m.profileIn w' := by
  have hcount : m'.countIn w' = m.countIn w' := by rw [Model.countIn, Model.countIn, hr.alive]
  have hsize := (hm.houses_of_past hpast).countIn_eq.2.2
  refine profileIn_congr ?_ ?_ hcount (fun p hp => ?_) fun p hp => ?_
  · rw [Store.countIn, Store.countIn, hr.store.alive]
  · exact congrFun (sceneIn_congr hr.store.domains hr.store.alive) w'
  · refine bareAt_of_propagatorAt ((hr.propagatorAt hsize p).trans ?_)
    rw [if_pos (hp.trans_le hle)]
  · exact hr.flagIn hm hpast rfl (hp.trans_le hle)

theorem Reverted.profile : m'.profile = m.profileIn w := by
  rw [Model.profile, hr.store.view]
  exact hr.profileIn hm hpast le_rfl

theorem Reverted.levels : m'.levels = older.map fun x => m.profileIn x.2 := by
  rw [Model.levels, hr.store.past]
  refine List.map_congr_left fun x hx => hr.profileIn hm hpast ?_
  exact le_of_past (f := m.countIn) (hpast ▸ hm.counts) hx

end

/-- The rounds of a propagation change the profile in `vars` and `scene` only. -/
theorem Underway.profile [Propagator ν π] (h : Underway m m') :
    m'.profile = { m.profile with
      vars := m'.store.countIn m'.store.trail.view
      scene := m'.store.scene } :=
  profile_of_bare h.count (fun p _ => h.bare p) fun p _ => h.enabled p true

/-! ## Propagations -/

section
variable [Propagator ν π]

/-- A propagation that succeeds leaves the `Closure` of the profile. -/
theorem closure_of_settle {failed : Prop} (h : Minded failed m) (hopen : ¬failed)
    (hx : settle m.budget m = .ok () m') : m.profile.Closure m'.store.scene ∧
      m'.profile = m.profile.withScene m'.store.scene := by
  have hm := h.ready.valid
  have ht := h.ready.tidy
  have hatt := h.attentive hopen
  obtain ⟨hu, href⟩ := (h.wired.settle_sound hm ht h.proper.constrains _).of_ok hx
  obtain ⟨hatt', hrest⟩ := (hatt.settle_ends h.wired hm ht h.proper _).of_ok hx
  have hdemands := hatt'.demands hu.evolves.valid hrest
  rw [hu.profile] at hdemands ⊢
  refine ⟨⟨hdemands, href.within, href.dead, href.sound⟩, ?_⟩
  ext1
  · refine hm.store.countIn_of_live hu.evolves.valid.store fun v => ?_
    refine ⟨fun hv hdead => hv (href.dead v hdead), fun hv => ?_⟩
    obtain ⟨D, hD⟩ := Option.ne_none_iff_exists'.1 hv
    obtain ⟨C, hC, -⟩ := href.within v D hD
    rw [hC]
    exact Option.some_ne_none C
  all_goals rfl

/-- A propagation that ends in a contradiction shows that no scene that the profile demands is
within its scene. -/
theorem not_within_of_settle {failed : Prop} (h : Minded failed m) {c : Contradiction}
    (hx : settle m.budget m = .error (.contradiction c) m') (G : Scene)
    (hG : m.profile.Demands G) : ¬Scene.Within G m.profile.scene :=
  ((h.wired.settle_sound h.ready.valid h.ready.tidy h.proper.constrains _).of_error hx c rfl).2 G hG

end

end Model

/-! ## Calls -/

section
variable {ν π : Type} [Propagator ν π] {s s' : Session ν (Constraint ⊕ π)}
  {k : Call (Constraint ⊕ π)} {a : Answer} {failed : Prop}

open Model

/-- The step of a session by a call is one of its outline (`Outline.Does`). -/
theorem Call.Does.outlined (hd : Call.Does s k a s') (h : Minded failed s.model) (hk : k.Ordinary)
    (hprompt : failed → k.Closes) : s.outline.Does k a s'.outline := by
  have hm := h.ready.valid
  have ht := h.ready.tidy
  have hstep : ∀ {m' : Model ν (Constraint ⊕ π)} {P : Profile}, s.model.Evolves m' →
      (∀ p < s.model.count, m'.bareAt p = s.model.bareAt p) → m'.profile = P →
      (s.withModel m').outline = s.outline.withProfile P := by
    intro m' P hev hbare hP
    show (⟨m'.profile, m'.levels, _⟩ : Outline) = ⟨P, _, _⟩
    rw [hP, hev.levels hm hbare]
    rfl
  cases hd with
  | @create d v t hc =>
    obtain ⟨hv, hP⟩ := profile_created hm ht hc
    rw [Session.withStore, hstep (.withStore hm hc.evolves) (fun _ _ => rfl) hP, hv]
    exact .create
  | @narrow v n c b t hn =>
    obtain ⟨D, D', -, hafter, rfl, hn, -⟩ := hn
    rw [Session.withStore, hstep (.withStore hm hn.evolves) (fun _ _ => rfl)
      (profile_narrowed hm ht hn)]
    exact .narrow hn.before hafter
  | refused hv ha hn => exact .refused hv hn
  | @post x setup m hinit hpost =>
    obtain ⟨c, rfl, -⟩ := hk
    rw [hstep hpost.evolves (fun p hp => ?_) (profile_posted hm hinit hpost)]
    · exact .post
    · refine bareAt_of_propagatorAt ((hpost.propagatorAt hm p).trans ?_)
      rw [if_neg (Nat.ne_of_lt hp), if_pos hp]
  | @enable p e t hp he hf =>
    have hev := hf.rescheduled p e
    have hbare : ∀ q, (s.model.rescheduled p e t).bareAt q = s.model.bareAt q := fun q =>
      bareAt_of_propagatorAt (propagatorAt_modify (f := Entry.swept) (fun _ => rfl) p.id q)
    rw [hstep hev (fun q _ => hbare q) (profile_flagged hm hp he hf rfl
      (seat_modify (f := Entry.swept) (fun _ => rfl) p rfl)
      (ht.count_eq hev Array.size_modify) hbare)]
    exact .enable
  | @disable p e t hp he hf =>
    have hev := hf.muted p
    have hbare : ∀ q, (s.model.muted p t).bareAt q = s.model.bareAt q := fun q =>
      bareAt_of_propagatorAt
        (propagatorAt_modify (f := fun e => { e with pending := [] }) (fun _ => rfl) p.id q)
    rw [hstep hev (fun q _ => hbare q) (profile_flagged hm hp he hf rfl
      (seat_modify (f := fun e => { e with pending := [] }) (fun _ => rfl) p rfl)
      (ht.count_eq hev Array.size_modify) hbare)]
    exact .disable
  | save =>
    show s.outline.Does .save .done ⟨_, s.model.save.levels, _⟩
    rw [levels_save hm]
    exact .save
  | checkpoint =>
    have hdepth : s.model.store.checkpoint.1.depth = s.outline.levels.length :=
      (Trail.length_past s.model.store.trail).symm.trans (List.length_map _).symm
    show s.outline.Does .checkpoint _ ⟨_, s.model.save.levels, (s.marks.push _).toList.map _⟩
    rw [levels_save hm, Array.toList_push, List.map_append, List.map_singleton, hdepth]
    exact .checkpoint
  | @restore c w older m hpast hr =>
    have hpast : s.model.store.trail.past = [] ++ (c, w) :: older := hpast
    show s.outline.Does .restore .done ⟨m.profile, m.levels, _⟩
    rw [hr.profile hm hpast, hr.levels hm hpast]
    refine .restore (?_ : s.model.levels = _)
    rw [Model.levels, hpast]
    rfl
  | @rollback i mark newer w older m hi hpast hdepth hr =>
    show s.outline.Does (.rollback i) .done ⟨m.profile, m.levels, _⟩
    rw [hr.profile hm hpast, hr.levels hm hpast]
    have hlevels : s.model.levels = (newer.map fun x => s.model.profileIn x.2) ++
        s.model.profileIn w :: older.map fun x => s.model.profileIn x.2 := by
      rw [Model.levels, hpast, List.map_append, List.map_cons]
    refine .rollback hlevels ?_
    show (s.marks.toList.map Mark.depth)[i]? = _
    rw [List.getElem?_map, Array.getElem?_toList, hi, List.length_map, hdepth]
    rfl
  | @settled m hx =>
    obtain ⟨hclosure, hP⟩ := closure_of_settle h hprompt hx
    have hu := (h.wired.settle_ends hm ht _).of_ok hx
    rw [hstep (hu.evolves.trans (.finish hu.evolves.valid _)) (fun p _ => hu.bare p) hP]
    exact .settled hclosure
  | @failed c m hx =>
    have hu := (h.wired.settle_ends hm ht _).of_error hx c rfl
    have hab := Evolves.abandon hu.evolves.valid
    rw [hstep (hu.evolves.trans (hab.trans (.finish hab.valid _)))
      (fun p _ => (bareAt_of_propagatorAt (propagatorAt_abandon _ p)).trans (hu.bare p)) rfl]
    exact .failed (not_within_of_settle h hx)
  | @isEntailed p a ha =>
    obtain ⟨e, he, hret⟩ := Checked.exists_of_bind_eq_ok ha
    obtain ⟨b, hb, hsays⟩ := Checked.exists_of_bind_eq_ok hret
    obtain ⟨hp, hentry⟩ := entry_eq_ok he
    rw [hm.propagatorCount_eq] at hp
    obtain ⟨c, hc, -⟩ := h.proper p.id hp
    have hown := (poses_of_entry hentry).1 hc
    refine .isEntailed (c := c.bare) ((if_pos hp).trans hc.bareAt) ?_
    rw [Constraint.says_of_bare c.bare_bare]
    cases b with
    | true =>
      cases hsays
      exact (h.attentive hprompt p.id c hc).retired ((hm.retired_iff hentry).1 hb)
    | false =>
      have hsays : Propagator.entailment ν e.propagator s.model.store = .ok a := hsays
      rw [hown] at hsays
      exact Constraint.says_of_entailment hm.store hsays

/-- The inversion of a run of at least one call, with the step of the outline. -/
theorem Session.outlined_cons {cs : List (Call (Constraint ⊕ π))}
    {xs : List (Step ν (Constraint ⊕ π))} (hrun : Session.run (k :: cs) s = .ok xs s')
    (hk : k.Ordinary) (hprompt : failed → k.Closes) (h : Minded failed s.model) :
    ∃ a s₁ ys, xs = ⟨k, a, s₁.model⟩ :: ys ∧ k.perform s = .ok a s₁ ∧
      s.outline.Does k a s₁.outline ∧
      Minded (Step.Failed (⟨k, a, s₁.model⟩ : Step ν (Constraint ⊕ π))) s₁.model ∧
      Session.run cs s₁ = .ok ys s' := by
  obtain ⟨a, s₁, ys, hk₁, hrest, rfl⟩ := Session.run_cons hrun
  have hd := Call.does_of_ok hk₁ h.ready
  exact ⟨a, s₁, ys, rfl, hk₁, hd.outlined h hk hprompt,
    h.does hd hk hprompt ((k.ready_ends h.ready).of_ok hk₁), hrest⟩

end

end Propagation
