import Propagation.Proofs.Model.Pledged

/-!
# Constraints between calls

After every call that does not fault all constraints are attended to, but for a propagation that has
come to a contradiction, after which a level has to be closed (`Model.Minded.does`).
-/

set_option autoImplicit false

namespace Propagation

open Update Store

/-- A narrowing is a decision, and a posted propagator is a constraint in which no two nodes have
the same set. -/
def Call.Ordinary {π : Type} : Call (Constraint ⊕ π) → Prop
  | .narrow _ _ c => c = .decision
  | .post x => ∃ c, x = .inl c ∧ c.Distinct
  | _ => True

namespace Model

variable {ν π : Type} {m m' : Model ν (Constraint ⊕ π)} {p : PropagatorId} {q : Nat}
  {e : Entry (Constraint ⊕ π)} {c : Constraint} {t : Trail} {b : Bool}

/-! ## Domains -/

theorem Attentive.created (h : m.Attentive) (hw : m.Wired) (hm : m.Valid) (ht : m.Tidy) {v : Var}
    {D : Dom} {s : Store} (hc : m.store.Created v D s) :
    ({ m with store := s } : Model ν (Constraint ⊕ π)).Attentive := by
  intro q c hq
  have hq : m.Poses q c := hq
  have hwire := hw q c hq
  have hlive := hwire.scene_ne_none hm (ht.size ▸ hq.lt)
  have hactive : ({ m with store := s } : Model ν (Constraint ⊕ π)).Active q ↔ m.Active q := by
    refine active_of_store hm ?_ hc.evolves q
    rfl
  have hflag : ({ m with store := s } : Model ν (Constraint ⊕ π)).Flag (.retired q) true ↔
      m.Flag (.retired q) true := flag_of_store hm (p := q) rfl rfl hc.evolves
  have hfresh : m.store.scene v = none := by
    by_contra hne
    have hlt := (hm.store.ne_none_iff v).1 hne
    rw [hc.id_eq] at hlt
    exact Nat.lt_irrefl _ hlt
  have hscene : ∀ u, m.store.scene u ≠ none → s.scene u = m.store.scene u := by
    intro u hu
    rw [hc.scene, Function.update_of_ne]
    rintro rfl
    exact hu hfresh
  refine (h q c hq).step hactive.1 rfl (fun e _ hcov => ?_) hflag.1 fun u E hu => ?_
  · refine (hcov.agree hwire.formed (fun x hx => hscene _ (hlive x hx))
      (fun x hx => hc.log_ne _ (hlive x hx)) hc.epoch).mono fun k hk => hk.imp_right ?_
    rintro ⟨d, hd, v, mask, f, hk, hf, hhas⟩
    exact ⟨d, hd, v, mask, f, hk, hf, hc.sink ▸ hhas⟩
  · exact ⟨E, (hscene u (by simp [hu])).trans hu, hm.store.wf hu, .refl E⟩

theorem Attentive.narrowed (h : m.Attentive) (hw : m.Wired) (hm : m.Valid) {v : Var} {D D' : Dom}
    {s : Store} (hn : m.store.Narrowed v .decision D D' s) :
    ({ m with store := s } : Model ν (Constraint ⊕ π)).Attentive := by
  intro q c hq
  have hq : m.Poses q c := hq
  have hactive : ({ m with store := s } : Model ν (Constraint ⊕ π)).Active q ↔ m.Active q := by
    refine active_of_store hm ?_ hn.evolves q
    rfl
  have hflag : ({ m with store := s } : Model ν (Constraint ⊕ π)).Flag (.retired q) true ↔
      m.Flag (.retired q) true := flag_of_store hm (p := q) rfl rfl hn.evolves
  refine (h q c hq).ran (hw q c hq) hactive.1 rfl hflag.1 (hn.ran hm.store) ?_
  rintro ⟨⟩

/-! ## Flags -/

/-- Setting the flag of a propagator leaves the domains, logs and pending events of the store. -/
theorem Flagged.same (hm : m.Valid) (he : m.entries[p.id]? = some e)
    (hf : m.Flagged e.enabled b t) : m.store.Same { m.store with trail := t } := by
  have hne := hm.ne_vars (r := .enabled p.id) (by rintro ⟨⟩) (cell_enabled (seat_of_entry he))
  obtain ⟨-, hscene, -⟩ := (widens_setInt hf.turns hne).valid hm.store
  exact ⟨hscene, rfl, rfl, rfl⟩

section
variable (hm : m.Valid) (he : m.entries[p.id]? = some e) (hf : m.Flagged e.enabled b t)
  (hstore : m'.store = { m.store with trail := t }) (hseat : m'.seat = m.seat)
include hm he hf hstore hseat

/-- `enable` and `disable` change the flag `Role.enabled` of `p` only. -/
theorem Flagged.flag {r : Role} {b' : Bool} (hr : r.owner = some q) :
    m'.Flag r b' ↔ if r = .enabled p.id then b' = b else m.Flag r b' := by
  refine flag_of_set hm hr (congrFun hseat q) (cell_enabled (seat_of_entry he)) ?_
  rw [hstore]
  exact hf.turns.view

/-- `Attends` for a constraint `q` is kept when the flag of another propagator `p` is set. -/
theorem Attends.flagged (h : m.Attends q c) (hm' : m'.Valid) (hq : q ≠ p.id)
    (hentry : m'.entries[q]? = m.entries[q]?) : m'.Attends q c := by
  have hflag : ∀ {r : Role} {b' : Bool}, r.owner = some q → m'.Flag r b' → m.Flag r b' := by
    intro r b' hr h
    rw [hf.flag hm he hstore hseat hr, if_neg] at h
    · exact h
    · rintro rfl
      exact hq (Option.some.inj hr).symm
  refine h.same hm' (fun hact => ?_) hentry (hflag rfl) (hstore ▸ hf.same hm he)
  rw [active_iff] at hact ⊢
  exact ⟨hflag rfl hact.1, hflag rfl hact.2⟩

end

/-- `seat` only depends on the fields of an entry that scheduling leaves alone. -/
theorem seat_modify {f : Entry (Constraint ⊕ π) → Entry (Constraint ⊕ π)}
    (hf : ∀ e, (f e).seat = e.seat) (p : PropagatorId)
    (h : m'.entries = m.entries.modify p.id f) : m'.seat = m.seat := by
  have hcore := seat_of_core (core_mapEntry hf p m)
  funext q
  rw [Model.seat, h]
  exact congrFun hcore q

theorem Attentive.rescheduled (h : m.Attentive) (hm : m.Valid) (he : m.entries[p.id]? = some e)
    (hf : m.Flagged e.enabled true t) : (m.rescheduled p e t).Attentive := by
  have hseat : (m.rescheduled p e t).seat = m.seat := seat_modify (f := Entry.swept) (fun _ => rfl) p rfl
  intro q c hq
  have hq : m.Poses q c :=
    (propagatorAt_modify (f := Entry.swept) (fun _ => rfl) p.id q).symm.trans hq
  by_cases hqp : q = p.id
  · subst hqp
    refine ⟨fun _ e' he' => .inl ?_, fun hr => ?_⟩
    · have he' : (m.entries.modify p.id Entry.swept)[p.id]? = some e' := he'
      rw [Array.getElem?_modify, if_pos rfl, he] at he'
      cases he'
      rfl
    · rw [hf.flag hm he rfl hseat (q := p.id) rfl, if_neg (by rintro ⟨⟩)] at hr
      exact (hf.same hm he).scene ▸ (h p.id c hq).retired hr
  · refine (h q c hq).flagged hm he hf rfl hseat (hf.rescheduled p e).valid hqp ?_
    exact (Array.getElem?_modify ..).trans (if_neg (Ne.symm hqp))

theorem Attentive.muted (h : m.Attentive) (hm : m.Valid) (he : m.entries[p.id]? = some e)
    (hf : m.Flagged e.enabled false t) : (m.muted p t).Attentive := by
  have hseat : (m.muted p t).seat = m.seat :=
    seat_modify (f := fun e => { e with pending := [] }) (fun _ => rfl) p rfl
  intro q c hq
  have hq : m.Poses q c :=
    (propagatorAt_modify (f := fun e => { e with pending := [] }) (fun _ => rfl) p.id q).symm.trans hq
  by_cases hqp : q = p.id
  · subst hqp
    refine ⟨fun hact => ?_, fun hr => ?_⟩
    · have hoff := (active_iff.1 hact).1
      rw [hf.flag hm he rfl hseat (q := p.id) rfl, if_pos rfl] at hoff
      cases hoff
    · rw [hf.flag hm he rfl hseat (q := p.id) rfl, if_neg (by rintro ⟨⟩)] at hr
      exact (hf.same hm he).scene ▸ (h p.id c hq).retired hr
  · refine (h q c hq).flagged hm he hf rfl hseat (hf.muted p).valid hqp ?_
    exact (Array.getElem?_modify ..).trans (if_neg (Ne.symm hqp))

/-! ## Posting -/

section
variable [Propagator ν π] {setup : Setup ν (Constraint ⊕ π)}

theorem Attentive.posted (h : m.Attentive) (hm : m.Valid) (hpost : m.Posted setup m') :
    m'.Attentive := by
  intro q c hq
  have hat := hpost.propagatorAt hm q
  rw [hq] at hat
  by_cases hnew : q = m.count
  · subst hnew
    refine ⟨fun _ e he => .inl ?_, fun hr => ?_⟩
    · rw [hpost.getElem?_entries hm, if_pos rfl] at he
      cases he
      rfl
    · cases hr.unique (hpost.flag_new hm).2
  · rw [if_neg hnew] at hat
    by_cases hlt : q < m.count
    · rw [if_pos hlt] at hat
      have hold : ∀ {r : Role} {b : Bool}, r.owner = some q → m'.Flag r b → m.Flag r b :=
        fun hr => (hpost.flag hm hr hlt).1
      have hentry : m'.entries[q]? = m.entries[q]? := by
        rw [hpost.getElem?_entries hm, if_neg hnew, if_pos hlt]
      obtain ⟨t, hstore, hwide, -⟩ := hpost.store
      refine (h q c hat.symm).same hpost.evolves.valid (fun hact => ?_) hentry (hold rfl)
        (hstore ▸ ⟨(hwide.valid hm.store).2.1, rfl, rfl, rfl⟩)
      rw [active_iff] at hact ⊢
      exact ⟨hold rfl hact.1, hold rfl hact.2⟩
    · rw [if_neg hlt] at hat
      cases hat

theorem Proper.posted (h : m.Proper) (hm : m.Valid) (hpost : m.Posted setup m')
    (hc : setup.propagator = .inl c) (hd : c.Distinct) : m'.Proper := by
  intro q hq
  have hat := hpost.propagatorAt hm q
  rw [hpost.count_eq] at hq
  by_cases hnew : q = m.count
  · rw [if_pos hnew, hc] at hat
    exact ⟨c, hat, hd⟩
  · have hlt : q < m.count := by omega
    rw [if_neg hnew, if_pos hlt] at hat
    obtain ⟨c', hc', hd'⟩ := h q hlt
    exact ⟨c', hat.trans hc', hd'⟩

end

/-! ## What is so between calls -/

/-- The state between calls without a fault. If the last one was a propagation that has `failed`,
the constraints need not be attended to. -/
structure Minded (failed : Prop) (m : Model ν (Constraint ⊕ π)) : Prop where
  ready : m.Ready
  wired : m.Wired
  proper : m.Proper
  pledged : m.Pledged
  attentive : ¬failed → m.Attentive

theorem Minded.opened {failed : Prop} (h : Minded failed m) (hopen : ¬failed) : Minded False m :=
  ⟨h.ready, h.wired, h.proper, h.pledged, fun _ => h.attentive hopen⟩

theorem minded_empty : Minded False (empty : Model ν (Constraint ⊕ π)) where
  ready := ready_empty
  wired := wired_empty
  proper p hp := by
    have hsize := (ready_empty (ν := ν) (π := Constraint ⊕ π)).tidy.size
    rw [← hsize] at hp
    exact absurd hp (Nat.not_lt_zero p)
  pledged newer k w older h := by
    have hpast : (empty : Model ν (Constraint ⊕ π)).store.trail.past = [] := rfl
    rw [hpast] at h
    simp at h
  attentive _ p c hc := by
    obtain ⟨e, he, -⟩ := hc.entry
    cases he

/-- `Minded` is kept by a step within the innermost level that keeps the constraints there are. -/
theorem Minded.within {failed failed' : Prop} (h : Minded failed m) (hev : m.Evolves m')
    (hready : m'.Ready) (hw : m'.Wired) (hcount : m'.count = m.count)
    (hbare : ∀ p < m.count, m'.bareAt p = m.bareAt p) (hatt : ¬failed' → m'.Attentive) :
    Minded failed' m' where
  ready := hready
  wired := hw
  proper := h.proper.of_bare hcount hbare
  pledged := h.pledged.evolves h.ready.valid hev hbare
  attentive := hatt

theorem bareAt_of_propagatorAt (h : m'.propagatorAt q = m.propagatorAt q) :
    m'.bareAt q = m.bareAt q := by rw [bareAt, bareAt, h]

/-- `Minded` is kept when levels are closed, and afterwards the constraints are attended to, for any
`failed'`. -/
theorem Minded.closed {failed failed' : Prop} (h : Minded failed m)
    {newer older : List (Nat × View)} {k : Nat} {w : View}
    (hpast : m.store.trail.past = newer ++ (k, w) :: older) (hr : m.Reverted w older m')
    (hready : m'.Ready) (hw : m'.Wired) : Minded failed' m' where
  ready := hready
  wired := hw
  proper := h.proper.reverted h.ready.valid hpast hr
  pledged := h.pledged.reverted h.ready.valid hpast hr
  attentive _ := h.pledged.attentive h.ready.valid hpast hr

theorem Minded.save {failed failed' : Prop} (h : Minded failed m) (hopen : ¬failed) :
    Minded failed' m.save where
  ready := h.ready.save
  wired := h.wired.save h.ready.valid
  proper := h.proper
  pledged := (h.attentive hopen).save h.ready.valid h.ready.tidy h.pledged
  attentive _ p c hc := by
    have hc : m.Poses p c := hc
    refine (h.attentive hopen p c hc).same h.ready.valid.save id rfl id ?_
    exact ⟨scene_save m.store, rfl, rfl, rfl⟩

section
variable [Propagator ν π] {s s' : Session ν (Constraint ⊕ π)} {k : Call (Constraint ⊕ π)}
  {a : Answer} {failed : Prop}

/-- `Minded` is kept by a call without a fault, if the call after a contradictory propagation closes
a level. -/
theorem Minded.does (h : Minded failed s.model) (hd : Call.Does s k a s') (hk : k.Ordinary)
    (hprompt : failed → k.Closes) (hready : s'.model.Ready) :
    Minded (Step.Failed (⟨k, a, s'.model⟩ : Step ν (Constraint ⊕ π))) s'.model := by
  have hm := h.ready.valid
  have ht := h.ready.tidy
  have hw := h.wired.does h.ready hd
  have hstore : ∀ {t : Store}, s.model.store.Evolves t →
      s.model.Evolves { s.model with store := t } := fun hev => .withStore hm hev
  cases hd with
  | create hc =>
    have hev := hstore hc.evolves
    exact h.within hev hready hw (ht.count_eq hev rfl) (fun _ _ => rfl)
      fun _ => (h.attentive hprompt).created h.wired hm ht hc
  | narrow hn =>
    obtain ⟨D, D', -, -, -, hn, -⟩ := hn
    have hev := hstore hn.evolves
    cases hk
    exact h.within hev hready hw (ht.count_eq hev rfl) (fun _ _ => rfl)
      fun _ => (h.attentive hprompt).narrowed h.wired hm hn
  | refused => exact ⟨hready, hw, h.proper, h.pledged, fun _ => h.attentive hprompt⟩
  | @post x setup m hinit hpost =>
    obtain ⟨c₀, rfl, hd⟩ := hk
    obtain ⟨u, hu, hsetup⟩ := Checked.exists_of_bind_eq_ok hinit
    have hc : setup.propagator = .inl u.propagator := by
      cases hsetup
      rfl
    have hbare := (Constraint.of_initialise hu).1
    have hdistinct : u.propagator.Distinct := by
      rw [← Constraint.distinct_of_bare u.propagator.bare_bare, hbare]
      exact Constraint.distinct_postedAs.2 hd
    refine ⟨hready, hw, h.proper.posted hm hpost hc hdistinct,
      h.pledged.evolves hm hpost.evolves fun p hp => ?_, fun _ => (h.attentive hprompt).posted hm hpost⟩
    refine bareAt_of_propagatorAt ((hpost.propagatorAt hm p).trans ?_)
    rw [if_neg (Nat.ne_of_lt hp), if_pos hp]
  | @enable p e t hp he hflag =>
    have hev := hflag.rescheduled p e
    exact h.within hev hready hw (ht.count_eq hev Array.size_modify)
      (fun q _ => bareAt_of_propagatorAt (propagatorAt_modify (f := Entry.swept) (fun _ => rfl) p.id q))
      fun _ => (h.attentive hprompt).rescheduled hm he hflag
  | @disable p e t hp he hflag =>
    have hev := hflag.muted p
    exact h.within hev hready hw (ht.count_eq hev Array.size_modify)
      (fun q _ => bareAt_of_propagatorAt
        (propagatorAt_modify (f := fun e => { e with pending := [] }) (fun _ => rfl) p.id q))
      fun _ => (h.attentive hprompt).muted hm he hflag
  | save => exact h.save hprompt
  | checkpoint => exact h.save hprompt
  | restore hpast hr => exact h.closed (show _ = [] ++ _ :: _ from hpast) hr hready hw
  | rollback hk hpast hdepth hr => exact h.closed hpast hr hready hw
  | @settled m hx =>
    have hu := (h.wired.settle_ends hm ht _).of_ok hx
    obtain ⟨hatt, hrest⟩ :=
      ((h.attentive hprompt).settle_ends h.wired hm ht h.proper _).of_ok hx
    exact h.within (hu.evolves.trans (.finish hu.evolves.valid _)) hready hw hu.count
      (fun p _ => hu.bare p) fun _ => hatt.finish hrest _
  | @failed c m hx =>
    have hu := (h.wired.settle_ends hm ht _).of_error hx c rfl
    have hab := Evolves.abandon hu.evolves.valid
    refine h.within (hu.evolves.trans (hab.trans (.finish hab.valid _))) hready hw hu.count
      (fun p _ => ?_) fun hf => absurd trivial hf
    exact (bareAt_of_propagatorAt (propagatorAt_abandon _ p)).trans (hu.bare p)
  | isEntailed => exact ⟨hready, hw, h.proper, h.pledged, fun _ => h.attentive hprompt⟩

end

end Model

/-- The run lemma of `Minded.does`, for every step of a run. -/
theorem Session.minded {ν π : Type} [Propagator ν π] {cs : List (Call (Constraint ⊕ π))}
    {s s' : Session ν (Constraint ⊕ π)} {xs : List (Step ν (Constraint ⊕ π))} {failed : Prop}
    (hrun : Session.run cs s = .ok xs s') (hcs : ∀ k ∈ cs, k.Ordinary)
    (hprompt : PromptFrom failed xs) (h : Model.Minded failed s.model) :
    ∀ x ∈ xs, Model.Minded x.Failed x.after ∧ (x.call = .fixpoint → x.after.Rests) := by
  induction cs generalizing s xs failed with
  | nil =>
    cases hrun
    simp
  | cons c cs ih =>
    obtain ⟨a, s₁, ys, hc, hrest, rfl⟩ := Session.run_cons hrun
    have h₁ := h.does (Call.does_of_ok hc h.ready) (hcs c List.mem_cons_self) hprompt.1
      ((c.ready_ends h.ready).of_ok hc)
    intro x hx
    rcases List.mem_cons.1 hx with rfl | hx
    · refine ⟨h₁, ?_⟩
      rintro rfl
      have hrests : Ends (Call.perform .fixpoint) s (fun _ s' => s'.model.Rests) fun _ _ => True :=
        Ends.within (h.ready.fixpoint.mono (fun _ _ h => h.2) fun _ _ h => h)
      exact hrests.of_ok hc
    · exact ih hrest (fun k hk => hcs k (List.mem_cons_of_mem _ hk)) hprompt.2 h₁ x hx

end Propagation
