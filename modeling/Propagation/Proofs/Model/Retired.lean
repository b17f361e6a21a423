import Propagation.Proofs.Filter.Lasting
import Propagation.Proofs.Model.Minded
import Propagation.Proofs.Sweep

/-!
# Retired propagators

A propagator is retired when it is found entailed, and only closing the level makes it active again.
Its `entailment` is not called in the meantime, so the flag has to stand for the answer: at each
level the constraints that are retired there would answer `entailed` (`Model.Vouched`), and a
propagator that is retired within a level remains so as long as the level is open (`Model.Sealed`).
Both follow from the ways in which a call may change the flags (`Model.Shifts`,
`Model.Wired.shifts`).
-/

set_option autoImplicit false

namespace Propagation

open Update Store

/-- The number of sets of a channel is the number of nodes of its graph. -/
def Constraint.Sized : Constraint → Scene → Prop
  | .notEqual _, _ => True
  | .graphChannel c, S => ∃ b, S c.graph = some (.graph c.sets.size b)

namespace Constraint

variable {c c' : Constraint} {S S' : Scene}

theorem sized_of_bare (h : c'.bare = c.bare) : c'.Sized = c.Sized := by
  have hbare : ∀ c : Constraint, c.bare.Sized = c.Sized := fun c => by cases c <;> rfl
  rw [← hbare, h, hbare]

theorem Sized.within (h : c.Sized S) (hle : Scene.Within S' S) : c.Sized S' := by
  cases c with
  | notEqual c => trivial
  | graphChannel c =>
    obtain ⟨b, hb⟩ := h
    obtain ⟨b', hb', -⟩ := GraphChannel.graph_of_within hle hb
    exact ⟨b', hb'⟩

/-- `initialise` succeeds on a channel only if it is `Sized`. -/
theorem sized_of_initialise {ν : Type} {p : PropagatorId} {s : Store} {setup : Setup ν Constraint}
    (hs : s.Valid) (h : Propagator.initialise c p s = .ok setup) :
    setup.propagator.Sized s.scene := by
  cases c with
  | notEqual c =>
    cases h
    trivial
  | graphChannel c =>
    obtain ⟨u, hu, h⟩ := Checked.exists_of_bind_eq_ok h
    cases h
    obtain ⟨hcount, hposted⟩ := GraphChannel.initialise_eq_ok hu
    obtain ⟨n, b, hgraph⟩ := hs.graph_of_nodeCount hcount
    rw [hs.nodeCount_eq hgraph] at hcount
    cases hcount
    refine ⟨b, ?_⟩
    rw [hposted]
    exact hgraph

end Constraint

namespace Model

variable {ν π : Type} {m m' m'' m₀ : Model ν (Constraint ⊕ π)} {p : Nat} {c c' : Constraint}
  {w : View} {b : Bool}

/-! ## Steps and starts -/

theorem Evolves.within (h : m.Evolves m') : Scene.Within m'.store.scene m.store.scene := by
  intro v D hD
  obtain ⟨D', hD', hle⟩ := h.scene v D hD
  exact ⟨D', hD', h.valid.store.wf hD', hle⟩

/-- A `Lasting` answer is kept by any step of the model. -/
theorem Evolves.lasting (h : m.Evolves m') (hm : m.Valid) (hbare : c'.bare = c.bare)
    (hc : c.Lasting m.store.scene m.store.offset) :
    c'.Lasting m'.store.scene m'.store.offset := by
  rw [Constraint.lasting_of_bare hbare]
  exact hc.within h.within fun v o => h.rooted.keeps hm.store h.valid.store fun _ => h.live

theorem Evolves.sized (h : m.Evolves m') (hbare : c'.bare = c.bare) (hc : c.Sized m.store.scene) :
    c'.Sized m'.store.scene := by
  rw [Constraint.sized_of_bare hbare]
  exact hc.within h.within

/-- A step of the model keeps the starts of the integer domains of each outer level. -/
theorem Evolves.offsetIn (h : m.Evolves m') (hm : m.Valid) {x : Nat × View}
    (hx : x ∈ m.store.trail.past) : m'.store.offsetIn x.2 = m.store.offsetIn x.2 :=
  offsetIn_congr (h.storeCountIn _) fun i hi =>
    h.rooted.domain ⟨i⟩ ((hm.store.ne_none_iff _).2 (hi.trans_le (hm.store.countIn_past hx)))

theorem FlagIn.lt {r : Role} (h : m.FlagIn w r b) (hr : r.owner = some p) : p < m.entries.size := by
  obtain ⟨i, hi, -⟩ := h
  have hseat : ∀ {f : Seat → Nat}, (m.seat p).map f = some i → p < m.entries.size := fun h => by
    obtain ⟨s, hs, -⟩ := Option.map_eq_some_iff.1 h
    exact seat_lt hs
  cases r with
  | vars => cases hr
  | props => cases hr
  | enabled q =>
    cases hr
    exact hseat hi
  | retired q =>
    cases hr
    exact hseat hi

/-! ## What becomes of the flags -/

/-- From `m` to `m'` no propagator has ceased to be retired, and a newly retired one has a `Lasting`
answer. -/
structure Rates (m m' : Model ν (Constraint ⊕ π)) : Prop where
  stays : ∀ p, m.Flag (.retired p) true → m'.Flag (.retired p) true
  retired : ∀ p c, m'.Poses p c → m'.Flag (.retired p) true →
    m.Flag (.retired p) true ∨ c.Lasting m'.store.scene m'.store.offset

theorem Rates.of_iff (h : ∀ p, m'.Flag (.retired p) true ↔ m.Flag (.retired p) true) :
    m.Rates m' :=
  ⟨fun p => (h p).2, fun p _ _ hf => .inl ((h p).1 hf)⟩

/-- `Rates`, for a step that keeps the constraints and adds only ones that are `Sized`. -/
structure Ages (m m' : Model ν (Constraint ⊕ π)) : Prop extends Rates m m' where
  evolves : m.Evolves m'
  bare : ∀ p < m.count, m'.bareAt p = m.bareAt p
  sized : ∀ p c, m'.Poses p c → p < m.count ∨ c.Sized m'.store.scene

theorem Ages.poses (h : m.Ages m') (hp : p < m.count) (hc : m'.Poses p c) :
    ∃ c₀, m.Poses p c₀ ∧ c.bare = c₀.bare := by
  obtain ⟨c₀, hc₀, hbare⟩ := exists_of_bareAt ((h.bare p hp).symm.trans hc.bareAt)
  exact ⟨c₀, hc₀, hbare.symm⟩

/-- `Ages` for a step that changes neither the propagators nor their retired flags. -/
theorem Ages.of_same (hev : m.Evolves m') (hsize : m.entries.size = m.count)
    (hsame : ∀ p, m'.propagatorAt p = m.propagatorAt p)
    (hflag : ∀ p, m'.Flag (.retired p) true ↔ m.Flag (.retired p) true) : m.Ages m' where
  toRates := .of_iff hflag
  evolves := hev
  bare p _ := bareAt_of_propagatorAt (hsame p)
  sized p c hc := .inl (hsize ▸ Poses.lt (c := c) ((hsame p).symm.trans hc))

theorem ages_self (hm : m.Valid) (hsize : m.entries.size = m.count) : m.Ages m :=
  .of_same hm.evolves_self hsize (fun _ => rfl) fun _ => Iff.rfl

theorem Ages.trans (h : m.Ages m') (h' : m'.Ages m'') (hsize : m'.entries.size = m'.count) :
    m.Ages m'' where
  stays p hp := h'.stays p (h.stays p hp)
  retired p c hc hf := by
    rcases h'.retired p c hc hf with hf | hlast
    · obtain ⟨c', hc', hbare⟩ := h'.poses (hsize ▸ hf.lt rfl) hc
      exact (h.retired p c' hc' hf).imp_right (h'.evolves.lasting h.evolves.valid hbare)
    · exact .inr hlast
  evolves := h.evolves.trans h'.evolves
  bare p hp := (h'.bare p (hp.trans_le h.evolves.count)).trans (h.bare p hp)
  sized p c hc := by
    rcases h'.sized p c hc with hp | hsized
    · obtain ⟨c', hc', hbare⟩ := h'.poses hp hc
      exact (h.sized p c' hc').imp_right (h'.evolves.sized hbare)
    · exact .inr hsized

/-! ## Propagations -/

section
variable [Propagator ν π] {e : Entry (Constraint ⊕ π)} {q : PropagatorId}

/-- The run of `q` retires no other propagator, and `q` only if its `entailment` is `entailed`. -/
theorem Valid.execute_rates (hm : m.Valid) (he : m.entries[q.id]? = some e) :
    Ends (execute q : Attempt ν (Constraint ⊕ π) Unit) m (fun _ m' => m.Rates m')
      fun f m' => ∀ x, f = .contradiction x → m.Rates m' := by
  have hruns := hm.execute_runs he
  have hevolves := hm.job_evolves q e
  cases hx : execute q m with
  | ok a m' =>
    refine ends_of_ok hx ?_
    rcases hruns.of_ok hx with ⟨-, rfl⟩ | ⟨hact, w, hw, hj⟩
    · exact .of_iff fun p => flag_modify (f := Entry.idle) (fun _ => rfl) rfl
    · have hran : ∀ p, (m.ran q e w none).Flag (.retired p) true ↔ m.Flag (.retired p) true :=
        fun p => hm.flag_ran he (hevolves.of_ok hw) rfl
      refine ⟨fun p hp => ?_, fun p c hc hf => ?_⟩
      · -- the propagator that has been run was active
        have hne : p ≠ q.id := by
          rintro rfl
          cases hp.unique (active_iff.1 hact).2
        exact (hj.flag p _ _ rfl fun h => hne (Role.retired.inj h)).2 ((hran p).2 hp)
      · by_cases hp : p = q.id
        · subst hp
          refine (hj.retired hf).imp (hran _).1 fun hent => ?_
          have hown : (m.ran q e w none).Poses q.id c := by
            rwa [Poses, propagatorAt, ← hj.entries]
          have hrun := executed_ran hm he (hevolves.of_ok hw) none
          rw [poses_of_entry (e := { e.idle with propagator := w.own })] at hown
          · refine hj.evolves.lasting hrun.evolves.valid rfl
              ((Constraint.lasting_iff (ν := ν) hrun.evolves.valid.store).2 ?_)
            rw [hown] at hent
            exact hent
          · show (m.entries.setIfInBounds q.id _)[q.id]? = _
            rw [Array.getElem?_setIfInBounds, if_pos rfl,
              if_pos (Array.getElem?_eq_some_iff.1 he).1]
        · exact .inl ((hran p).1 ((hj.flag p _ _ rfl fun h => hp (Role.retired.inj h)).1 hf))
  | error f m' =>
    refine ends_of_error hx ?_
    rintro x rfl
    obtain ⟨-, w, hw, rfl⟩ := hruns.of_error hx
    exact .of_iff fun p => hm.flag_ran he (hevolves.of_error hw) rfl

omit [Propagator ν π] in
theorem Underway.ages (h : Underway m₀ m) (h' : Underway m₀ m') (hev : m.Evolves m')
    (hr : m.Rates m') : m.Ages m' where
  toRates := hr
  evolves := hev
  bare p _ := (h'.bare p).trans (h.bare p).symm
  sized _ _ hc := .inl (h.count ▸ h'.count ▸ h'.tidy.size ▸ hc.lt)

theorem Wired.settle_ages (hw : m₀.Wired) (hm : m₀.Valid) (ht : m₀.Tidy) (n : Nat) :
    Ends (settle n : Attempt ν (Constraint ⊕ π) Unit) m₀ (fun _ m => Underway m₀ m ∧ m₀.Ages m)
      fun f m => ∀ c, f = .contradiction c → Underway m₀ m ∧ m₀.Ages m := by
  have hdispatch : ∀ m m₁ : Model ν (Constraint ⊕ π), Underway m₀ m ∧ m₀.Ages m →
      m.Dispatched m₁ → Underway m₀ m₁ ∧ m₀.Ages m₁ := by
    rintro m m₁ ⟨h, ha⟩ hd
    have h₁ := h.dispatched hd
    exact ⟨h₁, ha.trans (h.ages h₁ (hd.evolves h.evolves.valid) (.of_iff fun p => hd.flag rfl))
      h.tidy.size⟩
  refine settle_ends_of (I := fun m => Underway m₀ m ∧ m₀.Ages m)
    (fun m h => ⟨h.1.evolves.valid, h.1.tidy⟩) ?_ ?_ ?_ n
    ⟨hw.underway hm ht, ages_self hm ht.size⟩
  · exact fun m m₁ h hd _ => hdispatch m m₁ h hd
  · intro m m₁ p q e h hd hpop he
    obtain ⟨h₁, ha₁⟩ := hdispatch m m₁ h hd
    have hq := Evolves.withQueue h₁.evolves.valid q
    have hround := h₁.execute_ends hpop he
    have hwork := hq.valid.execute_works (p := p) he
    have hrates := hq.valid.execute_rates (q := p) he
    have hdone : ∀ {m'}, Underway m₀ m' → ({ m₁ with queue := q } : Model _ _).Worked p m' →
        ({ m₁ with queue := q } : Model _ _).Rates m' → Underway m₀ m' ∧ m₀.Ages m' := by
      intro m' h' hwork hr
      exact ⟨h', ha₁.trans (h₁.ages h' (hq.trans hwork.executed.evolves) ⟨hr.stays, hr.retired⟩)
        h₁.tidy.size⟩
    cases hx : execute p { m₁ with queue := q } with
    | ok a m' => exact ends_of_ok hx (hdone (hround.of_ok hx) (hwork.of_ok hx) (hrates.of_ok hx))
    | error f m' =>
      exact ends_of_error hx fun c hc => hdone (hround.of_error hx c hc)
        (hwork.of_error hx c hc) (hrates.of_error hx c hc)
  · rintro m' c ⟨⟩

end

/-! ## Calls -/

/-- The ways in which a call may change the retired flags: within the innermost level, by opening
one, or by closing some. -/
inductive Shifts (m m' : Model ν (Constraint ⊕ π)) : Prop
  | aged (h : m.Ages m')
  | opened (h : m' = m.save)
  | closed (newer : List (Nat × View)) (k : Nat) (w : View) (older : List (Nat × View))
    (hpast : m.store.trail.past = newer ++ (k, w) :: older) (h : m.Reverted w older m')

/-- `enable` and `disable` retire no propagator. -/
theorem Flagged.ages {q : PropagatorId} {e : Entry (Constraint ⊕ π)} {t : Trail}
    (hf : m.Flagged e.enabled b t) (hm : m.Valid) (hsize : m.entries.size = m.count)
    (he : m.entries[q.id]? = some e) {f : Entry (Constraint ⊕ π) → Entry (Constraint ⊕ π)}
    (hseat : ∀ e, (f e).seat = e.seat) (hsame : ∀ e, (f e).propagator = e.propagator)
    (hstore : m'.store = { m.store with trail := t })
    (hentries : m'.entries = m.entries.modify q.id f) (hev : m.Evolves m') : m.Ages m' := by
  refine .of_same hev hsize (fun p => ?_) fun p => ?_
  · rw [propagatorAt, hentries]
    exact propagatorAt_modify hsame q.id p
  · rw [hf.flag hm he hstore (seat_modify hseat q hentries) (q := p) rfl, if_neg (by rintro ⟨⟩)]

section
variable [Propagator ν π]

/-- The propagator of a post is not retired, and `Sized` if it is a constraint. -/
theorem Posted.ages {x : Constraint ⊕ π} {setup : Setup ν (Constraint ⊕ π)}
    (hpost : m.Posted setup m') (hm : m.Valid) (hsize : m.entries.size = m.count)
    (hinit : Propagator.initialise x ⟨m.count⟩ m.store = .ok setup) : m.Ages m' where
  stays p hf := (hpost.flag hm rfl (hsize ▸ hf.lt rfl)).2 hf
  retired p c hc hf := by
    have hat := hpost.propagatorAt hm p
    rw [hc] at hat
    by_cases hnew : p = m.count
    · subst hnew
      cases hf.unique (hpost.flag_new hm).2
    · rw [if_neg hnew] at hat
      by_cases hlt : p < m.count
      · exact .inl ((hpost.flag hm rfl hlt).1 hf)
      · rw [if_neg hlt] at hat
        cases hat
  evolves := hpost.evolves
  bare p hp := by
    refine bareAt_of_propagatorAt ((hpost.propagatorAt hm p).trans ?_)
    rw [if_neg (Nat.ne_of_lt hp), if_pos hp]
  sized p c hc := by
    have hat := hpost.propagatorAt hm p
    rw [hc] at hat
    by_cases hnew : p = m.count
    · rw [if_pos hnew, Option.some.injEq] at hat
      obtain ⟨c₀, rfl, -⟩ := Constraint.of_initialise_inl hinit hat.symm
      obtain ⟨u, hu, hsetup⟩ := Checked.exists_of_bind_eq_ok hinit
      cases hsetup
      cases hat
      exact .inr ((Constraint.sized_of_initialise hm.store hu).within hpost.evolves.within)
    · rw [if_neg hnew] at hat
      by_cases hlt : p < m.count
      · exact .inl hlt
      · rw [if_neg hlt] at hat
        cases hat

/-- A call without a fault `Shifts` the model. -/
theorem Wired.shifts {s s' : Session ν (Constraint ⊕ π)} {k : Call (Constraint ⊕ π)} {a : Answer}
    (h : s.model.Wired) (hs : s.model.Ready) (hd : Call.Does s k a s') :
    s.model.Shifts s'.model := by
  have hm := hs.valid
  have ht := hs.tidy
  have hstore : ∀ {t : Store}, s.model.store.Evolves t → s.model.Shifts (s.withStore t).model :=
    fun hev => .aged (.of_same (.withStore hm hev) ht.size (fun _ => rfl)
      fun p => flag_of_store hm (p := p) rfl rfl hev)
  cases hd with
  | create hc => exact hstore hc.evolves
  | narrow hn =>
    obtain ⟨D, D', -, -, -, hn, -⟩ := hn
    exact hstore hn.evolves
  | refused => exact .aged (ages_self hm ht.size)
  | post hinit hpost => exact .aged (hpost.ages hm ht.size hinit)
  | @enable p e t hp he hflag =>
    exact .aged (hflag.ages hm ht.size he (f := Entry.swept) (fun _ => rfl) (fun _ => rfl) rfl rfl
      (hflag.rescheduled p e))
  | @disable p e t hp he hflag =>
    exact .aged (hflag.ages hm ht.size he (f := fun e => { e with pending := [] }) (fun _ => rfl)
      (fun _ => rfl) rfl rfl (hflag.muted p))
  | save => exact .opened rfl
  | checkpoint => exact .opened rfl
  | restore hpast hr => exact .closed [] _ _ _ hpast hr
  | rollback hk hpast hdepth hr => exact .closed _ _ _ _ hpast hr
  | @settled m hx =>
    obtain ⟨hu, ha⟩ := (h.settle_ages hm ht _).of_ok hx
    exact .aged (ha.trans (.of_same (.finish hu.evolves.valid _) hu.tidy.size (fun _ => rfl)
      fun _ => Iff.rfl) hu.tidy.size)
  | @failed c m hx =>
    obtain ⟨hu, ha⟩ := (h.settle_ages hm ht _).of_error hx c rfl
    have hab := Evolves.abandon hu.evolves.valid
    refine .aged (ha.trans (.of_same (hab.trans (.finish hab.valid _)) hu.tidy.size
      (propagatorAt_abandon _) fun p => flagIn_of_seat (p := p) rfl ?_) hu.tidy.size)
    show ((m.entries.map Entry.idle)[p]?).map Entry.seat = _
    rw [Array.getElem?_map, Option.map_map, seat]
    rfl
  | isEntailed => exact .aged (ages_self hm ht.size)

end

/-! ## What the flags stand for -/

/-- In the view `w`, every constraint is `Sized`, and every retired one has a `Lasting` answer. -/
structure Vouches (m : Model ν (Constraint ⊕ π)) (w : View) : Prop where
  sized : ∀ p c, p < m.countIn w → m.Poses p c → c.Sized (m.store.sceneIn w)
  retired : ∀ p c, p < m.countIn w → m.Poses p c → m.FlagIn w (.retired p) true →
    c.Lasting (m.store.sceneIn w) (m.store.offsetIn w)

/-- Every view of an open level `Vouches`. -/
def Vouched (m : Model ν (Constraint ⊕ π)) : Prop := ∀ w ∈ m.views, m.Vouches w

theorem Vouches.congr (h : m.Vouches w) (hcount : m'.countIn w = m.countIn w)
    (hposes : ∀ p < m.countIn w, ∀ c', m'.Poses p c' → ∃ c, m.Poses p c ∧ c'.bare = c.bare)
    (hseat : ∀ p < m.countIn w, m'.seat p = m.seat p)
    (hscene : m'.store.sceneIn w = m.store.sceneIn w)
    (hoffset : m'.store.offsetIn w = m.store.offsetIn w) : m'.Vouches w where
  sized p c' hp hc' := by
    rw [hcount] at hp
    obtain ⟨c, hc, hbare⟩ := hposes p hp c' hc'
    rw [Constraint.sized_of_bare hbare, hscene]
    exact h.sized p c hp hc
  retired p c' hp hc' hf := by
    rw [hcount] at hp
    obtain ⟨c, hc, hbare⟩ := hposes p hp c' hc'
    rw [Constraint.lasting_of_bare hbare, hscene, hoffset]
    exact h.retired p c hp hc ((flagIn_of_seat (p := p) rfl (hseat p hp)).1 hf)

theorem Vouched.ages (h : m.Vouched) (hm : m.Valid) (hsize : m.entries.size = m.count)
    (ha : m.Ages m') : m'.Vouched := by
  have hnow := h _ List.mem_cons_self
  intro w hw
  rcases List.mem_cons.1 hw with rfl | hw
  · refine ⟨fun p c _ hc => ?_, fun p c _ hc hf => ?_⟩
    · rcases ha.sized p c hc with hp | hsized
      · obtain ⟨c₀, hc₀, hbare⟩ := ha.poses hp hc
        exact ha.evolves.sized hbare (hnow.sized p c₀ hp hc₀)
      · exact hsized
    · rcases ha.retired p c hc hf with hf | hlast
      · have hp : p < m.count := hsize ▸ hf.lt rfl
        obtain ⟨c₀, hc₀, hbare⟩ := ha.poses hp hc
        exact ha.evolves.lasting hm hbare (hnow.retired p c₀ hp hc₀ hf)
      · exact hlast
  · rw [ha.evolves.past] at hw
    obtain ⟨x, hx, rfl⟩ := List.mem_map.1 hw
    have hle := hm.countIn_past hx
    exact (h _ (List.mem_cons_of_mem _ (List.mem_map_of_mem hx))).congr (ha.evolves.countIn _)
      (fun p hp c' hc' => ha.poses (hp.trans_le hle) hc')
      (fun p hp => ha.evolves.seat p (hp.trans_le hle)) (ha.evolves.sceneIn hx)
      (ha.evolves.offsetIn hm hx)

theorem Vouched.save (h : m.Vouched) (hm : m.Valid) : m.save.Vouched := by
  intro w hw
  have hw : w ∈ m.views := by
    rw [views_save hm] at hw
    exact (List.mem_cons.1 hw).elim (fun h => h ▸ List.mem_cons_self) id
  exact (h w hw).congr rfl (fun p _ c hc => ⟨c, hc, rfl⟩) (fun _ _ => rfl) rfl rfl

section
variable {newer older : List (Nat × View)} {k : Nat}
  (hm : m.Valid) (hpast : m.store.trail.past = newer ++ (k, w) :: older)
  (hr : m.Reverted w older m')
include hm hpast hr

theorem Vouched.reverted (h : m.Vouched) : m'.Vouched := by
  intro w' hw'
  rw [views, hr.store.view, hr.store.past] at hw'
  have hle : m.countIn w' ≤ m.countIn w := by
    rcases List.mem_cons.1 hw' with rfl | hmem
    · exact Nat.le_refl _
    · obtain ⟨y, hy, rfl⟩ := List.mem_map.1 hmem
      exact le_of_past (f := m.countIn) (hpast ▸ hm.counts) hy
  have hold : w' ∈ m.views := by
    refine List.mem_cons_of_mem _ ?_
    rw [hpast, List.map_append, List.map_cons]
    exact List.mem_append_right _ hw'
  refine (h w' hold).congr (by rw [Model.countIn, Model.countIn, hr.alive])
    (fun p _ c hc => ⟨c, ((hr.poses hm hpast).1 hc).2, rfl⟩)
    (fun p hp => hr.seat (hm.houses_of_past hpast).countIn_eq.2.2 (hp.trans_le hle))
    (congrFun (sceneIn_congr hr.store.domains hr.store.alive) w') (offsetIn_congr ?_ ?_)
  · rw [Store.countIn, Store.countIn, hr.store.alive]
  · exact fun _ _ => by rw [hr.store.domains]

end

theorem vouched_empty : (empty : Model ν (Constraint ⊕ π)).Vouched := by
  have hno : ∀ p c, ¬(empty : Model ν (Constraint ⊕ π)).Poses p c := fun p c hc => by
    obtain ⟨e, he, -⟩ := hc.entry
    cases he
  exact fun w _ => ⟨fun p c _ hc => absurd hc (hno p c), fun p c _ hc => absurd hc (hno p c)⟩

theorem Vouched.shifts (h : m.Vouched) (hm : m.Valid) (hsize : m.entries.size = m.count)
    (hshift : m.Shifts m') : m'.Vouched := by
  cases hshift with
  | aged ha => exact h.ages hm hsize ha
  | opened heq => exact heq ▸ h.save hm
  | closed newer k w older hpast hr => exact h.reverted hm hpast hr

/-! ## As long as a level is open -/

/-- The propagator `p` is retired in the current view and in those of all levels opened within the
level at the depth `d`. -/
structure Sealed (m : Model ν (Constraint ⊕ π)) (p d : Nat) : Prop where
  now : p < m.count ∧ m.Flag (.retired p) true
  past : ∀ newer k w older, m.store.trail.past = newer ++ (k, w) :: older → d ≤ older.length →
    p < m.countIn w ∧ m.FlagIn w (.retired p) true

variable {d : Nat}

theorem Sealed.ages (h : m.Sealed p d) (ha : m.Ages m') : m'.Sealed p d where
  now := ⟨h.now.1.trans_le ha.evolves.count, ha.stays p h.now.2⟩
  past newer k w older hpast hd := by
    rw [ha.evolves.past] at hpast
    obtain ⟨hp, hf⟩ := h.past newer k w older hpast hd
    exact ⟨ha.evolves.countIn w ▸ hp, (flagIn_of_seat rfl (ha.evolves.seat p h.now.1)).2 hf⟩

theorem Sealed.save (h : m.Sealed p d) (hm : m.Valid) : m.save.Sealed p d where
  now := h.now
  past newer k w older hpast hd := by
    have hpast : m.store.trail.save.past = newer ++ (k, w) :: older := hpast
    rw [Trail.past_save hm.store.trail.sound] at hpast
    cases newer with
    | nil =>
      obtain ⟨hx, rfl⟩ := List.cons.inj hpast
      cases hx
      exact h.now
    | cons x newer => exact h.past newer k w older (List.cons.inj hpast).2 hd

theorem Sealed.reverted {newer older : List (Nat × View)} {k : Nat} (h : m.Sealed p d)
    (hm : m.Valid) (hpast : m.store.trail.past = newer ++ (k, w) :: older)
    (hr : m.Reverted w older m') (hd : d ≤ older.length) : m'.Sealed p d := by
  obtain ⟨hp, hf⟩ := h.past newer k w older hpast hd
  refine ⟨⟨hr.count ▸ hp, ?_⟩, fun newer' k' w' older' hpast' hd' => ?_⟩
  · rw [Flag, hr.store.view]
    exact (hr.flagIn hm hpast rfl hp).2 hf
  · rw [hr.store.past] at hpast'
    have houter : m.store.trail.past = (newer ++ (k, w) :: newer') ++ (k', w') :: older' := by
      rw [hpast, hpast', List.append_assoc, List.cons_append]
    obtain ⟨hp', hf'⟩ := h.past _ k' w' older' houter hd'
    refine ⟨?_, (hr.flagIn hm hpast rfl hp).2 hf'⟩
    rwa [Model.countIn, hr.alive]

theorem Sealed.shifts (h : m.Sealed p d) (hm : m.Valid) (hd : d ≤ m'.depth)
    (hshift : m.Shifts m') : m'.Sealed p d := by
  cases hshift with
  | aged ha => exact h.ages ha
  | opened heq => exact heq ▸ h.save hm
  | closed newer k w older hpast hr =>
    refine h.reverted hm hpast hr (hd.trans_eq ?_)
    rw [← hr.store.past, Trail.length_past]
    rfl

end Model

/-! ## Runs -/

section
variable {ν π : Type} [Propagator ν π] {cs : List (Call (Constraint ⊕ π))}
  {s s' : Session ν (Constraint ⊕ π)} {xs : List (Step ν (Constraint ⊕ π))} {p d : Nat}

theorem Call.shifts_of_ok {k : Call (Constraint ⊕ π)} {a : Answer} (h : k.perform s = .ok a s')
    (hs : s.model.Ready) (hw : s.model.Wired) : s.model.Shifts s'.model :=
  hw.shifts hs (Call.does_of_ok h hs)

/-- `Vouched` is kept by any run without faults. -/
theorem Session.vouched (h : Session.run cs s = .ok xs s') (hs : s.model.Ready)
    (hw : s.model.Wired) (hv : s.model.Vouched) : s'.model.Vouched := by
  induction cs generalizing s xs with
  | nil =>
    cases h
    exact hv
  | cons c cs ih =>
    obtain ⟨a, s₁, ys, hc, hrun, -⟩ := Session.run_cons h
    exact ih hrun ((c.ready_ends hs).of_ok hc) (hw.does hs (Call.does_of_ok hc hs))
      (hv.shifts hs.valid hs.tidy.size (Call.shifts_of_ok hc hs hw))

/-- A propagator that is `Sealed` stays so while the level at the depth `d` is open. -/
theorem Session.sealed (h : Session.run cs s = .ok xs s') (hs : s.model.Ready)
    (hw : s.model.Wired) (hsealed : s.model.Sealed p d) (hopen : ∀ x ∈ xs, d ≤ x.after.depth) :
    ∀ x ∈ xs, x.after.Ready ∧ x.after.Sealed p d := by
  induction cs generalizing s xs with
  | nil =>
    cases h
    simp
  | cons c cs ih =>
    obtain ⟨a, s₁, ys, hc, hrun, rfl⟩ := Session.run_cons h
    have h₁ := hsealed.shifts hs.valid (hopen _ List.mem_cons_self) (Call.shifts_of_ok hc hs hw)
    have hready := (c.ready_ends hs).of_ok hc
    rw [List.forall_mem_cons]
    exact ⟨⟨hready, h₁⟩, ih hrun hready (hw.does hs (Call.does_of_ok hc hs)) h₁
      fun x hx => hopen x (List.mem_cons_of_mem _ hx)⟩

end

end Propagation
