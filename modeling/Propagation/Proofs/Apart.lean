import Propagation.Proofs.Model.Termination
import Propagation.Proofs.Reached
import Propagation.Proofs.Store.Growth

/-!
# Variables do not interfere

A variable of any kind shares the arrays of the trail with all others, and takes its slots and its
index after variables that have died with a level. A narrowing changes the domain and the log of its
own variable only, and a new variable does not depend on earlier ones at the same index: events in
the sink are of live variables (`Store.Current`), and dead variables have no subscriptions
(`Store.Led.variables_apart`).
-/

set_option autoImplicit false

namespace Propagation

open Update

namespace Store

variable {s s' : Store} {rows : Array (List Subscription)}

/-! ## Waiting events -/

/-- Every event in the sink is one of a live variable. -/
def Current (s : Store) : Prop := ∀ v e c, s.sink.Has v e c → s.scene v ≠ none

theorem current_of_empty (h : s.sink = .empty) : s.Current := by
  intro v e c hd
  rw [h] at hd
  exact absurd hd Sink.not_has_empty

theorem Spends.current (h : s.Spends s') (hs : s.Current) : s'.Current := by
  intro v e c hd
  rcases h.sink v e c hd with hd | ⟨hv, -⟩
  · exact h.live (hs v e c hd)
  · exact hv

theorem Current.congr (hs : s.Current) (hsink : s'.sink = s.sink) (hscene : s'.scene = s.scene) :
    s'.Current := by
  unfold Current
  rw [hsink, hscene]
  exact hs

theorem Call.current_ends (c : Call) (hc : ∀ t, c ≠ .trail t) (hs : s.Valid) (h : s.Current) :
    Ends c.perform s (fun _ s' => s'.Current)
      fun f s' => ∀ x, f = .contradiction x → s'.Current := by
  cases c with
  | create d =>
    refine (Ends.lift ((hs.create_ends d).mono (fun v s' hs' => ?_) (by simp))).bind
      fun _ _ h => ends_of_ok (pure_apply _ _) h
    exact (hs'.spends hs'.evolves).current h
  | narrow v n c =>
    refine ((hs.narrow_ends v n c).mono (fun _ _ hs' => hs'.spends.current h) ?_).discard
    intro f s' hs' x hx
    subst hx
    rw [hs'.1]
    exact h
  | clearEvents => exact ends_of_ok (modify_apply _ _) (current_of_empty rfl)
  | clearDeltas => exact ends_of_ok (modify_apply _ _) (h.congr rfl rfl)
  | setRunning p => exact ends_of_ok (modify_apply _ _) (h.congr rfl rfl)
  | save => exact ends_of_ok (modify_apply _ _) (h.congr rfl (scene_save s))
  | checkpoint => exact ends_of_ok (modify_apply _ _) (h.congr rfl (scene_save s))
  | restore =>
    refine Ends.lift (hs.restore_ends.mono ?_ (by simp))
    rintro - s' ⟨c, w, older, -, h⟩
    exact current_of_empty h.sink
  | rollback m =>
    refine Ends.lift ((hs.rollback_ends m).mono ?_ (by simp))
    rintro - s' ⟨newer, w, older, -, -, h⟩
    exact current_of_empty h.sink
  | trail t => exact absurd rfl (hc t)

end Store

section
variable {ν π : Type} [Propagator ν π]

open Model

/-- A call that does not fault keeps `Current`. -/
theorem Call.Does.current {c : Call π} {a : Answer} {s s' : Session ν π} (h : c.Does s a s')
    (hm : s.model.Ready) (hs : s.model.store.Current) : s'.model.store.Current := by
  cases h with
  | create h => exact (h.spends h.evolves).current hs
  | narrow h => exact h.spends.current hs
  | refused | isEntailed => exact hs
  | save | checkpoint => exact hs.congr rfl (Store.scene_save _)
  | post _ h =>
    obtain ⟨t, hstore, hwide, -⟩ := h.store
    rw [Session.withModel, hstore]
    exact hs.congr rfl (hwide.valid hm.valid.store).2.1
  | enable _ _ h | disable _ _ h =>
    intro v e c hd
    obtain ⟨D, hD⟩ := Option.ne_none_iff_exists'.1 (hs v e c hd)
    obtain ⟨D', hD', -⟩ := h.evolves.scene v D hD
    exact Option.ne_none_iff_exists'.2 ⟨D', hD'⟩
  | restore _ h | rollback _ _ _ h => exact Store.current_of_empty h.store.sink
  | settled h =>
    obtain ⟨-, -, hrest⟩ := (hm.tidy.settle_ends hm.valid _).of_ok h
    exact Store.current_of_empty hrest.sink
  | failed => exact Store.current_of_empty rfl

theorem Session.current {cs : List (Call π)} {s s' : Session ν π} {xs : List (Step ν π)}
    (h : Session.run cs s = .ok xs s') (hm : s.model.Ready) (hs : s.model.store.Current) :
    s'.model.store.Current := by
  induction cs generalizing s xs with
  | nil =>
    cases h
    exact hs
  | cons c cs ih =>
    obtain ⟨a, s₁, ys, hc, hrest, -⟩ := run_cons h
    exact ih hrest ((c.ready_ends hm).of_ok hc) (((c.does_ends hm).of_ok hc).current hm hs)

/-- The rounds of a propagation keep `Current`. -/
theorem Model.Went.current {m m' : Model ν π} {n : Nat} (h : m.Went n m') (hm : m.Valid)
    (ht : m.Tidy) (hs : m.store.Current) : m'.store.Current := by
  cases h with
  | start => exact hs
  | @round _ m' u _ p h hnext hrun =>
    obtain ⟨hm', ht', -⟩ := h.load_le hm ht
    obtain ⟨u, hd, q, hpop, rfl⟩ := (ht'.next_ends hm').of_ok hnext
    have hu := (hd.evolves hm').valid
    have htu := hd.tidy ht' hm'
    have hp : p.id < u.entries.size := htu.lt_of_pop hpop
    have hspends := (Evolves.withQueue hu q).valid.execute_spends
      (Array.getElem?_eq_getElem hp) hrun
    exact hspends.current (Store.current_of_empty hd.sink)

end

/-! ## The main theorem -/

namespace Store

variable {s s' : Store} {rows : Array (List Subscription)}

/-- `Led rows s`: calls none of which faults lead to the store `s`, either a store of its own, with
no `rows` of subscriptions, or the store of a model with the subscriptions `rows`, between its calls
or in the course of a propagation. The levels of a store under a model are opened and closed by the
model only. -/
inductive Led : Array (List Subscription) → Store → Prop
  | fresh : Led #[] .empty
  | model {ν π : Type} [Propagator ν π] {cs : List (Propagation.Call π)} {marks : Array Mark}
    {s : Session ν π} {xs : List (Step ν π)} {n : Nat} {m : Model ν π}
    (h : Session.run cs ⟨.empty, marks⟩ = .ok xs s) (hm : s.model.Went n m) :
    Led m.subscriptions m.store
  | call {rows : Array (List Subscription)} {s s' : Store} (h : Led rows s) (c : Call)
    (htrail : ∀ t, c ≠ .trail t) (hlevels : c.Clears → rows = #[])
    (hc : c.perform s = .ok () s' ∨ ∃ x, c.perform s = .error (.contradiction x) s') :
    Led rows s'

/-- The invariants of a store with `Led rows s`. -/
structure Kept (rows : Array (List Subscription)) (s : Store) : Prop where
  valid : s.Valid
  current : s.Current
  rows : rows.size ≤ s.varCount

theorem Extends.varCount_le (h : s.Extends s') (hs : s.Valid) : s.varCount ≤ s'.varCount := by
  rw [hs.varCount_eq, h.valid.varCount_eq]
  refine Nat.le_of_not_lt fun hlt => ?_
  have hlive := (hs.ne_none_iff ⟨s'.countIn s'.trail.view⟩).2 hlt
  exact absurd ((h.valid.ne_none_iff _).1 (h.live _ hlive)) (Nat.lt_irrefl _)

theorem Led.kept (h : Led rows s) : Kept rows s := by
  induction h with
  | fresh => exact ⟨valid_empty, current_of_empty rfl, Nat.zero_le _⟩
  | model h hm =>
    have hready := Session.ready h Model.ready_empty
    have hcurrent := Session.current h Model.ready_empty (current_of_empty rfl)
    obtain ⟨hvalid, htidy, -⟩ := hm.load_le hready.valid hready.tidy
    exact ⟨hvalid.store, hm.current hready.valid hready.tidy hcurrent, htidy.rows⟩
  | @call rows s s' _ c htrail hlevels hc ih =>
    have hvalid := c.valid htrail ih.valid
    have hends := c.current_ends htrail ih.valid ih.current
    have hsize : rows.size ≤ s'.varCount := by
      by_cases hclears : c.Clears
      · rw [hlevels hclears]
        exact Nat.zero_le _
      · have hgrows := c.grows_ends htrail ih.valid hclears
        refine ih.rows.trans ((Grows.extends ?_).varCount_le ih.valid)
        rcases hc with hc | ⟨x, hc⟩
        · exact hgrows.of_ok hc
        · exact hgrows.of_error hc x rfl
    rcases hc with hc | ⟨x, hc⟩
    · rw [after_of_ok hc] at hvalid
      exact ⟨hvalid, hends.of_ok hc, hsize⟩
    · rw [after_of_error hc] at hvalid
      exact ⟨hvalid, hends.of_error hc x rfl, hsize⟩

/-- In every store with `Led rows s`, a narrowing of `v` changes neither the snapshot nor the delta
of another variable `w`, nor any of them if it ends in a contradiction. A new variable `v` takes the
index `s.varCount`, has all the values of its shape and an empty log, leaves the snapshots and
deltas of the others as they are, and has neither waiting events nor subscriptions, also if its
index belonged to a variable that has died. -/
theorem Led.variables_apart (h : Led rows s) :
    (∀ v n c, Ends (narrow v n c) s
      (fun _ s' => ∀ w, w ≠ v → s'.snapshot w = s.snapshot w ∧ s'.delta w = s.delta w)
      fun f s' => ∀ x, f = .contradiction x →
        ∀ w, s'.snapshot w = s.snapshot w ∧ s'.delta w = s.delta w) ∧
    ∀ d, Ends (create d) s
      (fun v s' => v.id = s.varCount ∧ s'.varCount = s.varCount + 1 ∧
        s'.Shows v d.dom ∧ s'.delta v = .ok .empty ∧
        (∀ w, w ≠ v → s'.snapshot w = s.snapshot w ∧ s'.delta w = s.delta w) ∧
        (∀ e c, ¬s'.sink.Has v e c) ∧ Model.rowOf rows v = [])
      fun _ _ => True := by
  obtain ⟨hs, hcurrent, hrows⟩ := h.kept
  refine ⟨fun v n c => (hs.narrow_ends v n c).mono (fun _ s' h => ?_) fun f s' h x hx => ?_,
    fun d => (hs.create_ends d).mono (fun v s' h => ?_) fun _ _ _ => trivial⟩
  · obtain ⟨D, D', -, -, -, hnarrowed, -⟩ := h
    intro w hw
    have hscene : s'.scene w = s.scene w := by rw [hnarrowed.scene, Function.update_of_ne hw]
    exact ⟨snapshot_congr hs hnarrowed.valid hscene,
      delta_congr hs hnarrowed.valid hscene (hnarrowed.log_ne w hw)⟩
  · subst hx
    rw [h.1]
    exact fun _ => ⟨rfl, rfl⟩
  · have hlive : s'.scene v = some d.dom := by rw [h.scene, Function.update_self]
    have hdead : s.scene v = none := by
      have := mt (hs.ne_none_iff v).1 (by rw [h.id_eq]; exact Nat.lt_irrefl _)
      exact not_not.1 this
    refine ⟨h.id_eq.trans hs.varCount_eq.symm, ?_, h.valid.shows hlive, ?_, fun w hw => ?_,
      fun e c hd => ?_, ?_⟩
    · rw [h.valid.varCount_eq, hs.varCount_eq]
      unfold countIn
      rw [h.alive, h.ints, Function.update_self]
      rfl
    · obtain ⟨⟨l⟩, hl, hlist⟩ := h.valid.delta_eq (v := v) (by rw [hlive]; simp)
      have hnil : l = #[] := Array.toList_inj.1 (hlist.trans h.log)
      rw [hl, hnil]
      rfl
    · have hscene : s'.scene w = s.scene w := by rw [h.scene, Function.update_of_ne hw]
      refine ⟨snapshot_congr hs h.valid hscene, ?_⟩
      by_cases hw : s.scene w = none
      · rw [hs.delta_dead hw, h.valid.delta_dead (hscene.trans hw)]
      · exact delta_congr hs h.valid hscene (h.log_ne w hw)
    · rw [h.sink] at hd
      exact hcurrent v e c hd hdead
    · rw [Model.rowOf, Array.getElem?_eq_none, Option.getD_none]
      rw [h.id_eq, ← hs.varCount_eq]
      exact hrows

/-- A set takes the index of an integer variable that has died with its subscription. -/
theorem variables_apart_recycled : ∃ (xs : List (Step Unit NotEqual))
    (s : Session Unit NotEqual) (t : Store),
    Session.run [.create (.interval 0 2), .checkpoint, .create (.interval 0 2),
      .post (.of ⟨0⟩ ⟨1⟩), .narrow ⟨1⟩ (.fix 1) .decision, .rollback 0] ⟨.empty, #[]⟩ = .ok xs s ∧
    create (.subsets 3) s.model.store = .ok ⟨1⟩ t ∧ t.Shows ⟨1⟩ (Shape.subsets 3).dom ∧
    t.delta ⟨1⟩ = .ok .empty ∧ t.snapshot ⟨0⟩ = s.model.store.snapshot ⟨0⟩ ∧
    s.model.row ⟨1⟩ = [] := by
  obtain ⟨xs, s, hrun, htest⟩ := Session.exists_run
    [.create (.interval 0 2), .checkpoint, .create (.interval 0 2), .post (NotEqual.of ⟨0⟩ ⟨1⟩),
      .narrow ⟨1⟩ (.fix 1) .decision, .rollback 0]
    (⟨.empty, #[]⟩ : Session Unit NotEqual)
    (fun s => passes (create (.subsets 3)) s.model.store fun v _ => decide (v = ⟨1⟩))
    (by decide +kernel)
  obtain ⟨v, t, hc, hv⟩ := exists_of_passes htest
  obtain rfl := of_decide_eq_true hv
  obtain ⟨-, -, hshows, hlog, hothers, -, hrow⟩ :=
    ((Led.variables_apart (.model hrun .start)).2 (.subsets 3)).of_ok hc
  exact ⟨xs, s, t, hrun, hc, hshows, hlog, (hothers ⟨0⟩ (by decide)).1, hrow⟩

end Store

end Propagation
