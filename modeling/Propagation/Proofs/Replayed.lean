import Propagation.Proofs.Model.Session
import Propagation.Proofs.Reached
import Propagation.Proofs.Store.Growth

/-!
# What the logs hold

The log of a set or graph variable is what has happened to it since it was last empty, which is
when the logs were cleared or when the variable was created, whichever came later: replayed on the
domain of that time, it gives the current domain (`Recorder.Exact`). It is so in stores, and in
models with any propagators, for one reason: the calls that do not clear the logs let them grow by
what happens to the domains (`Recorder.Lawful`).
-/

set_option autoImplicit false

namespace Propagation

open Update Store

/-- A system around a store: the state it starts from, the relation of a call between states, which
holds if the call does not fault, and the calls that clear the logs. -/
structure Recorder (σ κ : Type) where
  start : σ
  store : σ → Store
  call : κ → σ → σ → Prop
  clears : κ → Prop

namespace Recorder

variable {σ κ : Type}

/-- `R.Runs s cs s'`: the calls `cs` lead from `s` to `s'` without a fault. -/
inductive Runs (R : Recorder σ κ) (s : σ) : List κ → σ → Prop
  | done : R.Runs s [] s
  | step {s' s'' : σ} {cs : List κ} {c : κ} (h : R.Runs s cs s') (hc : R.call c s' s'') :
    R.Runs s (cs ++ [c]) s''

/-- The run `before ++ c :: since` is divided at the last call `c` that has left the log of `v`
empty, in the state `s₀`: it has cleared the logs or created `v`, and nothing has cleared them
since. -/
structure Divided (R : Recorder σ κ) (v : Var) (before : List κ) (c : κ) (since : List κ)
    (s₀ s : σ) : Prop where
  begins : ∃ u, R.Runs R.start before u ∧ R.call c u s₀ ∧
    (R.clears c ∨ ¬v.id < (R.store u).varCount)
  goes_on : R.Runs s₀ since s
  uncleared : ∀ d ∈ since, ¬R.clears d

/-- After any run, let `v` be a live set or graph variable, and `D₀` the domain that it had when its
log was last empty (`Divided`). The log can be replayed on `D₀`, which gives the current domain `D`;
it has one entry for each element that has entered the kernel or left the envelope since, and no
others. -/
def Exact (R : Recorder σ κ) : Prop :=
  ∀ (cs : List κ) (s : σ) (v : Var) (D : Dom), R.Runs R.start cs s → (R.store s).Shows v D →
    (∀ vs, D ≠ .int vs) →
    ∃ before c since s₀ D₀ log, cs = before ++ c :: since ∧ R.Divided v before c since s₀ s ∧
      (R.store s₀).Shows v D₀ ∧ D₀.Wf ∧ (R.store s).delta v = .ok log ∧
      D₀.Replays log.toList D ∧ (log.toList.map DeltaEntry.change).Nodup ∧
      (∀ e, e ∈ D.kernel \ D₀.kernel ↔ ∃ c, e.enforced c ∈ log.toList) ∧
      ∀ e, e ∈ D₀.envelope \ D.envelope ↔ ∃ c, e.removed c ∈ log.toList

/-- The stores of the states in `I` are valid, the first one has no variables, and a call leaves
empty logs if it clears them, and otherwise lets them grow (`Store.Grows`). -/
structure Lawful (R : Recorder σ κ) (I : σ → Prop) : Prop where
  start : I R.start
  keep : ∀ c s s', R.call c s s' → I s → I s'
  valid : ∀ s, I s → (R.store s).Valid
  scene : (R.store R.start).scene = fun _ => none
  cleared : ∀ c s s', R.call c s s' → I s → R.clears c → ∀ v, (R.store s').logOf v = []
  grows : ∀ c s s', R.call c s s' → I s → ¬R.clears c → (R.store s).Grows (R.store s')

section
variable {R : Recorder σ κ} {I : σ → Prop} {s : σ} {cs : List κ}

theorem Lawful.run (hR : R.Lawful I) (h : R.Runs R.start cs s) : I s := by
  induction h with
  | done => exact hR.start
  | step _ hc ih => exact hR.keep _ _ _ hc ih

/-- For each live variable the run can be divided, and its log is `Logged` from `D₀` to `D`. -/
theorem Lawful.logged (hR : R.Lawful I) (h : R.Runs R.start cs s) {v : Var} {D : Dom}
    (hv : (R.store s).scene v = some D) :
    ∃ before c since s₀ D₀, cs = before ++ c :: since ∧ R.Divided v before c since s₀ s ∧
      (R.store s₀).Valid ∧ (R.store s₀).scene v = some D₀ ∧ D.Within D₀ ∧
      D₀.Logged ((R.store s).logOf v) D := by
  induction h generalizing D with
  | done =>
    rw [hR.scene] at hv
    cases hv
  | @step s s' cs c hrun hc ih =>
    have hI := hR.run hrun
    have hvalid := hR.valid s hI
    have hvalid' := hR.valid s' (hR.keep c s s' hc hI)
    have hhere : (R.store s').logOf v = [] → (R.clears c ∨ ¬v.id < (R.store s).varCount) →
        ∃ before d since s₀ D₀, cs ++ [c] = before ++ d :: since ∧
          R.Divided v before d since s₀ s' ∧ (R.store s₀).Valid ∧
          (R.store s₀).scene v = some D₀ ∧ D.Within D₀ ∧ D₀.Logged ((R.store s').logOf v) D := by
      intro hlog hbegins
      refine ⟨cs, c, [], s', D, rfl, ⟨⟨s, hrun, hc, hbegins⟩, .done, by simp⟩, hvalid', hv,
        .refl D, ?_⟩
      rw [hlog]
      exact D.logged_self
    by_cases hclear : R.clears c
    · exact hhere (hR.cleared c s s' hc hI hclear v) (.inl hclear)
    · have hgrows := hR.grows c s s' hc hI hclear
      cases hold : (R.store s).scene v with
      | none =>
        refine hhere (hgrows.new v hold (by rw [hv]; simp)) (.inr fun hlt => ?_)
        rw [hvalid.varCount_eq] at hlt
        exact (hvalid.ne_none_iff v).2 hlt hold
      | some D₁ =>
        obtain ⟨before, d, since, s₀, D₀, rfl, hdiv, hvalid₀, hv₀, hle, hlogged⟩ := ih hold
        obtain ⟨D', es, hD', hle', hes, hes'⟩ := hgrows.old v D₁ hold
        rw [hv] at hD'
        cases hD'
        refine ⟨before, d, since ++ [c], s₀, D₀, by simp, ⟨hdiv.begins, hdiv.goes_on.step hc, ?_⟩,
          hvalid₀, hv₀, hle'.trans hle, ?_⟩
        · intro d' hd'
          rcases List.mem_append.1 hd' with hd' | hd'
          · exact hdiv.uncleared d' hd'
          · exact List.mem_singleton.1 hd' ▸ hclear
        · rw [hes]
          exact hlogged.append hle hes'

theorem Lawful.exact (hR : R.Lawful I) : R.Exact := by
  intro cs s v D hrun hshows hD
  have hvalid := hR.valid s (hR.run hrun)
  have hv := hvalid.shows_iff.1 hshows
  obtain ⟨before, c, since, s₀, D₀, rfl, hdiv, hvalid₀, hv₀, hle, hlogged⟩ := hR.logged hrun hv
  obtain ⟨log, hlog, hlist⟩ := hvalid.delta_eq (v := v) (by rw [hv]; simp)
  have hD₀ : ∀ vs, D₀ ≠ .int vs := by
    rintro vs rfl
    obtain ⟨vs', rfl⟩ := hle.exists_int
    exact hD vs' rfl
  rw [← hlist, Dom.logged_iff hD₀] at hlogged
  exact ⟨before, c, since, s₀, D₀, log, rfl, hdiv, hvalid₀.shows hv₀, hvalid₀.wf hv₀, hlog, hlogged,
    hlogged.nodup, hlogged.kernel, hlogged.envelope⟩

end

/-! ## Stores -/

/-- A fresh store, without calls on its trail itself. -/
def ofStore : Recorder Store Store.Call where
  start := .empty
  store := id
  call c s s' := (∀ t, c ≠ .trail t) ∧
    (c.perform s = .ok () s' ∨ ∃ x, c.perform s = .error (.contradiction x) s')
  clears := Store.Call.Clears

theorem ofStore_lawful : ofStore.Lawful Store.Valid where
  start := Store.valid_empty
  keep := by
    rintro c s s' ⟨htrail, hrun⟩ hs
    have hvalid := c.valid htrail hs
    rcases hrun with hrun | ⟨x, hrun⟩
    · rwa [after_of_ok hrun] at hvalid
    · rwa [after_of_error hrun] at hvalid
  valid _ hs := hs
  scene := (valid_ofTrail Trail.valid_empty rfl).2
  cleared := by
    rintro c s s' ⟨-, hrun⟩ hs hclear
    have hends := c.cleared_ends hs hclear
    rcases hrun with hrun | ⟨x, hrun⟩
    · exact (hends.of_ok hrun).2
    · exact (hends.of_error hrun x rfl).2
  grows := by
    rintro c s s' ⟨htrail, hrun⟩ hs hclear
    have hends := c.grows_ends htrail hs hclear
    rcases hrun with hrun | ⟨x, hrun⟩
    · exact hends.of_ok hrun
    · exact hends.of_error hrun x rfl

/-! ## Models -/

end Recorder

section
variable {ν π : Type}

namespace Model

/-- All logs are empty. -/
def Unlogged (m : Model ν π) : Prop := ∀ v, m.store.logOf v = []

/-- `Store.Grows` of the stores of the models. -/
def Grows (m m' : Model ν π) : Prop := m.store.Grows m'.store

variable {m : Model ν π}

theorem store_of_core {α : Type} {x : Op ν π α} (h : Keeps core x) : Keeps Model.store x := fun m =>
  congrArg Prod.fst (h m)

/-- An operation that sets a flag and keeps the store otherwise leaves the logs as they are. -/
theorem Valid.flag_grows (hm : m.Valid) {r : Role} {f : BoolRef}
    (hf : m.cell r = some f.cell.index) (hvars : r ≠ .vars) (hprops : r ≠ .props) (b : Bool)
    {x : Op ν π Unit} (hx : Keeps Model.store x) :
    Ends (do discard (onTrail (f.set b)); x : Op ν π Unit) m
      (fun _ m' => m.Grows m') fun _ _ => True := by
  obtain ⟨t, hset, ht, -⟩ := hm.set_flag hf hvars hprops b
  have hgrows := (widens_setInt ht (hm.ne_vars hvars hf)).grows hm.store
  have hflag : (discard (onTrail (f.set b)) : Op ν π PUnit) m =
      .ok ⟨⟩ { m with store := { m.store with trail := t } } := by rw [discard_apply, hset]
  refine Ends.of_eq ?_ (bind_ok _ hflag)
  have hkeep := hx { m with store := { m.store with trail := t } }
  unfold Ends
  cases hrun : x { m with store := { m.store with trail := t } } with
  | error e m' => trivial
  | ok a m' =>
    rw [after_of_ok hrun] at hkeep
    show m.store.Grows m'.store
    rw [hkeep]
    exact hgrows

end Model

variable [Propagator ν π] {s : Session ν π}

open Model

theorem Call.cleared_ends (c : Call π) (hs : s.model.Valid) (hc : c = .fixpoint ∨ c.Closes) :
    Ends c.perform s (fun _ s' => s'.model.Unlogged) fun _ _ => True := by
  rcases hc with rfl | hc
  · refine Ends.within ?_
    unfold Ends answering Model.fixpoint
    cases settle s.model.budget s.model with
    | ok a m => exact logOf_clearDeltas m.store
    | error f m =>
      cases f with
      | contradiction c => exact logOf_clearDeltas m.abandon.store
      | fault e => trivial
  · cases c with
    | restore =>
      refine Session.onModel_ends (hs.restore_ends.mono ?_ fun _ _ _ => trivial) fun _ => .done
      rintro - m' ⟨c, w, older, -, h⟩
      exact h.store.log
    | rollback k =>
      unfold Call.perform
      cases hk : Checked.fetch s.marks k with
      | error e => exact ends_of_error (bind_error _ (query_apply_error (s := s) hk)) trivial
      | ok mark =>
        refine Ends.of_eq ?_ (bind_ok _ (query_apply_ok (s := s) hk))
        refine Session.onModel_ends ((hs.rollback_ends mark).mono ?_ fun _ _ _ => trivial)
          fun _ => .done
        rintro - m' ⟨newer, w, older, -, -, h⟩
        exact h.store.log
    | create d => exact hc.elim
    | narrow v n c => exact hc.elim
    | post x => exact hc.elim
    | enable p => exact hc.elim
    | disable p => exact hc.elim
    | save => exact hc.elim
    | checkpoint => exact hc.elim
    | fixpoint => exact hc.elim
    | isEntailed p => exact hc.elim

theorem Call.grows_ends (c : Call π) (hs : s.model.Valid) (hc : ¬(c = .fixpoint ∨ c.Closes)) :
    Ends c.perform s (fun _ s' => s.model.Grows s'.model) fun _ _ => True := by
  have hself : s.model.Grows s.model := hs.store.grows_self
  cases c with
  | create d =>
    have hcreate : Ends (onStore (Store.create d) : Op ν π Var) s.model
        (fun _ m' => s.model.Grows m') fun _ _ => True := Ends.within (hs.store.create_grows d)
    exact Session.onModel_ends hcreate .var
  | narrow v n c =>
    refine Ends.within ?_
    have hends := hs.store.narrow_grows v n c
    unfold Ends onDomain answering
    rw [within_apply]
    cases hrun : Store.narrow v n c s.model.store with
    | ok b t => exact hends.of_ok hrun
    | error f t =>
      cases f with
      | contradiction x => exact hends.of_error hrun x rfl
      | fault e => trivial
  | post x =>
    refine Session.onModel_ends ((hs.post_ends x).mono ?_ fun _ _ _ => trivial) .propagator
    rintro p m' ⟨-, setup, -, h⟩
    obtain ⟨t, hstore, hwide, -⟩ := h.store
    rw [Model.Grows, hstore]
    exact hwide.grows hs.store
  | enable p =>
    refine Session.onModel_ends ?_ fun _ => .done
    unfold Model.enable
    cases he : s.model.entry p with
    | error f => exact ends_of_error (bind_error _ (query_error he)) trivial
    | ok e =>
      refine Ends.of_eq ?_ (bind_ok _ (query_ok he))
      exact hs.flag_grows (cell_enabled (seat_of_entry (entry_eq_ok he).2)) (by simp) (by simp) _
        (store_of_core (core_schedule p))
  | disable p =>
    refine Session.onModel_ends ?_ fun _ => .done
    unfold Model.disable
    cases he : s.model.entry p with
    | error f => exact ends_of_error (bind_error _ (query_error he)) trivial
    | ok e =>
      refine Ends.of_eq ?_ (bind_ok _ (query_ok he))
      exact hs.flag_grows (cell_enabled (seat_of_entry (entry_eq_ok he).2)) (by simp) (by simp) _
        (keeps_modify fun _ => rfl)
  | save => exact ends_of_ok rfl (.of_same hs.store.save (scene_save _) rfl rfl)
  | checkpoint => exact ends_of_ok rfl (.of_same hs.store.save (scene_save _) rfl rfl)
  | isEntailed p =>
    refine Session.onModel_ends ?_ .entailment
    cases he : s.model.isEntailed p with
    | ok a => exact ends_of_ok (Model.query_ok he) hself
    | error f => exact ends_of_error (Model.query_error he) trivial
  | restore => exact absurd (.inr trivial) hc
  | rollback k => exact absurd (.inr trivial) hc
  | fixpoint => exact absurd (.inl rfl) hc

end

namespace Recorder

section
variable {ν π : Type} [Propagator ν π]

/-- A fresh model with any propagators, in a session that may hold any `marks` besides its own. -/
def ofModel (ν π : Type) [Propagator ν π] (marks : Array Mark) :
    Recorder (Session ν π) (Propagation.Call π) where
  start := ⟨.empty, marks⟩
  store s := s.model.store
  call c s s' := ∃ a, c.perform s = .ok a s'
  clears c := c = .fixpoint ∨ c.Closes

theorem ofModel_lawful (marks : Array Mark) :
    (ofModel ν π marks).Lawful fun s => s.model.Valid where
  start := Model.valid_empty
  keep := by
    rintro c s s' ⟨a, hrun⟩ hs
    have hvalid := (c.moves hs).valid hs
    rwa [after_of_ok hrun] at hvalid
  valid _ hs := hs.store
  scene := by
    have ht := Trail.valid_empty.addInt 0
    exact (valid_ofTrail ht.valid ht.past).2
  cleared := by
    rintro c s s' ⟨a, hrun⟩ hs hclear
    exact (c.cleared_ends hs hclear).of_ok hrun
  grows := by
    rintro c s s' ⟨a, hrun⟩ hs hclear
    exact (c.grows_ends hs hclear).of_ok hrun

end

/-- The logs of set and graph variables are `Exact`, in stores and in models. -/
theorem logs_replay : ofStore.Exact ∧
    ∀ (ν π : Type) [Propagator ν π] (marks : Array Mark), (ofModel ν π marks).Exact :=
  ⟨ofStore_lawful.exact, fun _ _ _ marks => (ofModel_lawful marks).exact⟩

end Recorder

end Propagation
