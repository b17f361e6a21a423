import Propagation.Proofs.Filter.Channel
import Propagation.Proofs.Filter.NotEqual

/-!
# What keeps constraints covered

A constraint is covered by a set of indices if it is stable but for the changes pending at them. A
change by another cause pushes an event that the constraint watches, so it stays covered with the
woken index added (`GraphChannel.Covered.ran`, `NotEqual.Covered.ran`); and an index that a run has
read can be dropped (`GraphChannel.Covered.read`, `NotEqual.Covered.read`). So `propagateOn k`
leaves a channel covered by the indices other than `k` (`GraphChannel.hear_ends`), and runs on
several indices do so together (`GraphChannel.hearAll_ends`).
-/

set_option autoImplicit false

namespace Propagation

open Scene Update

/-- A pending event with the cause `d` matches the watch at the index `k`. -/
def Store.Wakes (s : Store) (watches : List (Var × Mask)) (d : Cause) (k : Nat) : Prop :=
  ∃ v mask f, watches[k]? = some (v, mask) ∧ f ∈ mask ∧ s.sink.Has v f d

/-- Between `s` and `s'` an event of `Dom.Tells` matches the watch at the index `k`. -/
def Store.Stirs (s : Store) (watches : List (Var × Mask)) (k : Nat) (s' : Store) : Prop :=
  ∃ v mask f, watches[k]? = some (v, mask) ∧ f ∈ mask ∧
    ∃ D D', s.scene v = some D ∧ s'.scene v = some D' ∧ D.Tells D' f

theorem Dom.Tells.of_entering {D D' : Dom} {e : Element} (hle : D'.Within D)
    (h : e ∈ D'.kernel \ D.kernel) : D.Tells D' e.entering := by
  have hD : ∀ vs, D ≠ .int vs := by
    rintro vs rfl
    obtain ⟨vs', rfl⟩ := hle.exists_int
    cases (Finset.mem_sdiff.1 h).1
  exact ⟨(Dom.emits_iff hD).2 (.inl ⟨e, h, rfl⟩), fun ⟨vs, hvs⟩ => absurd hvs (hD vs)⟩

theorem Dom.Tells.of_leaving {D D' : Dom} {e : Element} (h : e ∈ D.envelope \ D'.envelope) :
    D.Tells D' e.leaving := by
  have hD : ∀ vs, D ≠ .int vs := Dom.ne_int_of_mem_envelope (Finset.mem_sdiff.1 h).1
  exact ⟨(Dom.emits_iff hD).2 (.inr ⟨e, h, rfl⟩), fun ⟨vs, hvs⟩ => absurd hvs (hD vs)⟩

namespace Store

variable {s s' : Store} {v : Var} {d : Cause} {e : Element}

theorem Ran.wakes (hr : s.Ran d s') {watches : List (Var × Mask)} {k : Nat}
    (h : s.Stirs watches k s') : s'.Wakes watches d k := by
  obtain ⟨v, mask, f, hwatch, hmask, D, D', hv, hv', hf⟩ := h
  exact ⟨v, mask, f, hwatch, hmask, hr.told v D D' hv hv' f hf⟩

/-- A variable that is alive after a run was alive before it. -/
theorem Ran.before (hr : s.Ran d s') {D' : Dom} (hv' : s'.scene v = some D') :
    ∃ D, s.scene v = some D ∧ D'.Within D := by
  cases hv : s.scene v with
  | none =>
    rw [hr.dead v hv] at hv'
    cases hv'
  | some D =>
    obtain ⟨C, hC, -, hle⟩ := hr.within v D hv
    cases hv'.symm.trans hC
    exact ⟨D, rfl, hle⟩

theorem Valid.inKernel_of_logged (hs : s.Valid) (hv : s.scene v ≠ none)
    (hx : e.enforced d ∈ s.logOf v) : InKernel s.scene v e := by
  obtain ⟨D, hD⟩ := Option.ne_none_iff_exists'.1 hv
  rcases hs.logged hD hx with ⟨f, hf, hk⟩ | ⟨f, hf, -⟩
  · rw [Element.cause_enforced] at hf
    rwa [Element.enforced_inj hf]
  · exact absurd hf (Element.enforced_ne_removed _ _ _ _)

theorem Valid.not_inEnvelope_of_logged (hs : s.Valid) (hv : s.scene v ≠ none)
    (hx : e.removed d ∈ s.logOf v) : ¬InEnvelope s.scene v e := by
  obtain ⟨D, hD⟩ := Option.ne_none_iff_exists'.1 hv
  rcases hs.logged hD hx with ⟨f, hf, -⟩ | ⟨f, hf, -, hk⟩
  · exact absurd hf.symm (Element.enforced_ne_removed _ _ _ _)
  · rw [Element.cause_removed] at hf
    rwa [Element.removed_inj hf]

end Store

/-- The run lemma of coverage: if each `f x` settles the index of `x`, a loop over `xs` settles the
indices of all of them. -/
theorem Action.ends_hearing {ν σ β : Type} {f : β → Action ν σ PUnit} (index : β → Nat)
    {K : Workspace ν σ → Prop} {C : Workspace ν σ → (Nat → Prop) → Prop}
    {bad : Failure → Workspace ν σ → Prop} {w : Workspace ν σ} {xs : List β} (hw : K w)
    (hmono : ∀ {u todo todo'}, C u todo → (∀ k, todo k → todo' k) → C u todo')
    (hstep : ∀ x ∈ xs, ∀ u, K u → Ends (f x).run u
      (fun _ u' => K u' ∧ ∀ todo, C u todo → C u' fun k => todo k ∧ k ≠ index x) bad) :
    Ends (xs.forM f).run w
      (fun _ u => K u ∧ ∀ todo, C w todo → C u fun k => todo k ∧ ∀ x ∈ xs, k ≠ index x) bad := by
  refine (ends_forM (I := fun rest u => K u ∧ ∃ done, xs = done ++ rest ∧
    ∀ todo, C w todo → C u fun k => todo k ∧ ∀ x ∈ done, k ≠ index x) ?_ ?_).mono ?_ fun _ _ h => h
  · exact ⟨hw, [], rfl, fun todo h => hmono h fun k hk => ⟨hk, by simp⟩⟩
  · rintro x rest u ⟨hu, done, hxs, hcov⟩
    refine (hstep x (by rw [hxs]; simp) u hu).mono ?_ fun _ _ h => h
    rintro - u' ⟨hu', hcov'⟩
    refine ⟨hu', done ++ [x], by rw [hxs]; simp, fun todo h => ?_⟩
    refine hmono (hcov' _ (hcov todo h)) fun k ⟨⟨htodo, hdone⟩, hk⟩ => ⟨htodo, fun y hy => ?_⟩
    rcases List.mem_append.1 hy with hy | hy
    · exact hdone y hy
    · rwa [List.mem_singleton.1 hy]
  · rintro - u ⟨hu, done, hxs, h⟩
    rw [List.append_nil] at hxs
    exact ⟨hu, hxs ▸ h⟩

namespace GraphChannel

open Store

variable {c : GraphChannel} {s s' : Store} {k : Nat} {m : Monitor} {p : PropagatorId}
  {todo : Nat → Prop} {v v' : Var} {e e' : Element}

/-! ## Channels -/

/-- The watches of a channel: those of its sets, and then that of the graph. -/
def watches (c : GraphChannel) : List (Var × Mask) :=
  c.sets.toList.map (·, .ofList [.addToKernel, .removeFromEnvelope]) ++
    [(c.graph, .ofList [.enforceArc, .removeArc])]

theorem length_watches (c : GraphChannel) : c.watches.length = c.sets.size + 1 := by
  simp [watches]

/-- The watch at `k` is of the variable `c.watched k`. -/
theorem getElem?_watches (c : GraphChannel) (k : Nat) :
    (c.watches[k]?).map Prod.fst = c.watched k := by
  have hfst : c.watches.map Prod.fst = (c.sets.push c.graph).toList := by
    simp [watches, Function.comp_def]
  rw [← List.getElem?_map, hfst, watched, Array.getElem?_toList]

/-- The first element of a link is watched for the events that enforce and remove it. -/
theorem Linked.watch (h : c.Linked k v e v' e') :
    ∃ mask, c.watches[k]? = some (v, mask) ∧ e.entering ∈ mask ∧ e.leaving ∈ mask := by
  cases h with
  | @out i set h j =>
    have hlt := (Array.getElem?_eq_some_iff.1 h).1
    refine ⟨.ofList [.addToKernel, .removeFromEnvelope], ?_, ?_, ?_⟩
    · rw [watches, List.getElem?_append_left (by simpa using hlt), List.getElem?_map,
        Array.getElem?_toList, h]
      rfl
    · exact Mask.mem_ofList.2 (by simp [Element.entering])
    · exact Mask.mem_ofList.2 (by simp [Element.leaving])
  | back h j =>
    refine ⟨.ofList [.enforceArc, .removeArc], ?_, ?_, ?_⟩
    · rw [watches, List.getElem?_append_right (by simp)]
      simp
    · exact Mask.mem_ofList.2 (by simp [Element.entering])
    · exact Mask.mem_ofList.2 (by simp [Element.leaving])

/-- In a channel `Formed` for `p` each link has a monitor, of its first variable. -/
theorem Formed.linked (hc : c.Formed p) (h : c.Linked k v e v' e') :
    ∃ m, c.monitors[k]? = some m ∧ m.var = v := by
  have hw := h.watched
  obtain ⟨hk, -⟩ := Array.getElem?_eq_some_iff.1 hw
  rw [Array.size_push, ← hc.size] at hk
  obtain ⟨hvar, -⟩ := hc.monitor k _ (Array.getElem?_eq_getElem hk)
  exact ⟨_, Array.getElem?_eq_getElem hk, Option.some.inj (hvar.symm.trans hw)⟩

/-- `Covered` only depends on the domains of the watched variables and on what the monitors have not
seen. -/
theorem Covered.congr (h : c.Covered s todo)
    (hscene : ∀ k v, c.watched k = some v → s'.scene v = s.scene v)
    (hunseen : ∀ (k : Nat) (m : Monitor), c.monitors[k]? = some m → m.unseen s' = m.unseen s) :
    c.Covered s' todo := by
  have hlink : ∀ {k v e v' e'}, c.Linked k v e v' e' →
      (InKernel s'.scene v e ↔ InKernel s.scene v e) ∧
        (InEnvelope s'.scene v e ↔ InEnvelope s.scene v e) := fun hl => by
    rw [InKernel, InKernel, InEnvelope, InEnvelope, hscene _ _ hl.watched]
    exact ⟨Iff.rfl, Iff.rfl⟩
  have htold : ∀ {k : Nat} {tell : Cause → Element → DeltaEntry} {e : Element},
      c.Told s k tell e → c.Told s' k tell e := by
    rintro k tell e ⟨m, hm, d, hd, hx⟩
    exact ⟨m, hm, d, hd, hunseen k m hm ▸ hx⟩
  refine ⟨fun k v e v' e' hl hk => ?_, fun k v e v' e' hl he => ?_⟩
  · obtain ⟨k', hl'⟩ := hl.symm
    rw [(hlink hl').1]
    exact (h.enforced k v e v' e' hl ((hlink hl).1.1 hk)).imp_right fun h => ⟨h.1, htold h.2⟩
  · obtain ⟨k', hl'⟩ := hl.symm
    rw [(hlink hl).2]
    exact (h.removed k v e v' e' hl ((hlink hl').2.1 he)).imp_right fun h => ⟨h.1, htold h.2⟩

section
variable {d : Cause} {tell : Cause → Element → DeltaEntry}

theorem Told.ran (h : c.Told s k tell e) (hr : s.Ran d s') : c.Told s' k tell e := by
  obtain ⟨m, hm, d', hd', hx⟩ := h
  obtain ⟨es, hes, -⟩ := hr.log m.var
  exact ⟨m, hm, d', hd', m.unseen_later hr.epoch ⟨es, hes.symm⟩ hx⟩

/-- The monitor of `v` is `Told` of an element that a run by another cause `d` decides. -/
theorem Tracks.told (h : c.Tracks s) (hr : s.Ran d s') (hd : d ≠ c.cause)
    (hm : c.monitors[k]? = some m) (hvar : m.var = v) {D D' : Dom} (hv : s.scene v = some D)
    (hv' : s'.scene v = some D') (hx : D.Logs D' d (tell d e)) : c.Told s' k tell e := by
  subst hvar
  obtain ⟨es, hes, -, hall⟩ := hr.log m.var
  exact ⟨m, hm, d, hd, (h k m hm).mem_unseen hr.epoch hes (hall D D' hv hv' _ hx)⟩

/-- After a run by another cause `d` the channel is covered once the indices that the passage stirs
are pending too. -/
theorem Covered.stirred (h : c.Covered s todo) (hc : c.Formed p) (ht : c.Tracks s)
    (hr : s.Ran d s') (hd : d ≠ .propagator p) :
    c.Covered s' fun k => todo k ∨ s.Stirs c.watches k s' := by
  rw [← hc.cause] at hd
  refine ⟨fun k v e v' e' hl hk => ?_, fun k v e v' e' hl he => ?_⟩
  · by_cases hold : InKernel s.scene v e
    · exact (h.enforced k v e v' e' hl hold).imp (fun h => hr.within.inKernel h)
        fun ⟨htodo, htold⟩ => ⟨.inl htodo, htold.ran hr⟩
    · obtain ⟨D', hv', hD'⟩ := hk
      obtain ⟨D, hv, hle⟩ := hr.before hv'
      have hmem : e ∈ D'.kernel \ D.kernel :=
        Finset.mem_sdiff.2 ⟨hD', fun hD => hold ⟨D, hv, hD⟩⟩
      obtain ⟨mask, hwatch, hmask, -⟩ := hl.watch
      obtain ⟨m, hm, hvar⟩ := hc.linked hl
      exact .inr ⟨.inr ⟨v, mask, e.entering, hwatch, hmask, D, D', hv, hv', .of_entering hle hmem⟩,
        ht.told hr hd hm hvar hv hv' (.inl ⟨e, hmem, rfl⟩)⟩
  · have hlive : s.scene v' ≠ none := by
      obtain ⟨D', hv', -⟩ := he
      obtain ⟨D, hv, -⟩ := hr.before hv'
      rw [hv]
      simp
    rcases h.removed k v e v' e' hl (hr.within.inEnvelope hlive he) with hold | ⟨htodo, htold⟩
    · by_cases hnew : InEnvelope s'.scene v e
      · exact .inl hnew
      · obtain ⟨D, hv, hD⟩ := hold
        obtain ⟨D', hv', -⟩ := hr.within v D hv
        have hmem : e ∈ D.envelope \ D'.envelope :=
          Finset.mem_sdiff.2 ⟨hD, fun hD' => hnew ⟨D', hv', hD'⟩⟩
        obtain ⟨mask, hwatch, -, hmask⟩ := hl.watch
        obtain ⟨m, hm, hvar⟩ := hc.linked hl
        exact .inr ⟨.inr ⟨v, mask, e.leaving, hwatch, hmask, D, D', hv, hv', .of_leaving hmem⟩,
          ht.told hr hd hm hvar hv hv' (.inr ⟨e, hmem, rfl⟩)⟩
    · exact .inr ⟨.inl htodo, htold.ran hr⟩

/-- `Covered.stirred` by the pending events: the indices that `d` has woken. -/
theorem Covered.ran (h : c.Covered s todo) (hc : c.Formed p) (ht : c.Tracks s) (hr : s.Ran d s')
    (hd : d ≠ .propagator p) : c.Covered s' fun k => todo k ∨ s'.Wakes c.watches d k :=
  (h.stirred hc ht hr hd).mono fun _ => Or.imp_right hr.wakes

end

/-- Once the unseen entries of the monitor `k` have been carried over, the channel is covered by the
other indices: what is decided that way need not be carried back. -/
theorem Covered.read (h : c.Covered s todo) (hc : c.Formed p) (hdist : c.Distinct)
    (hs : s.Valid) (hm : c.monitors[k]? = some m) (hv : s.scene m.var ≠ none)
    (hr : s.Ran (.propagator p) s')
    (hdec : Decided s.scene (c.Carried k Element.enforced (m.unseen s))
      (c.Carried k Element.removed (m.unseen s)) s'.scene) :
    (c.withMonitor k (m.caughtUp s)).Covered s' fun i => todo i ∧ i ≠ k := by
  have hkept : ∀ (told : Cause → Element → DeltaEntry) (i : Nat) (e : Element), i ≠ k →
      c.Told s i told e → (c.withMonitor k (m.caughtUp s)).Told s' i told e := by
    rintro told i e hi ⟨m', hm', d, hd, hx⟩
    obtain ⟨es, hes, -⟩ := hr.log m'.var
    exact ⟨m', by rw [getElem?_withMonitor hm, if_neg hi, hm'], d, hd,
      m'.unseen_later hr.epoch ⟨es, hes.symm⟩ hx⟩
  have hcarried : ∀ {told : Cause → Element → DeltaEntry} {v e v' e'}, c.Linked k v e v' e' →
      c.Told s k told e → c.Carried k told (m.unseen s) v' e' := by
    rintro told v e v' e' hl ⟨m', hm', d, hd, hx⟩
    cases hm.symm.trans hm'
    exact ⟨d, hd, v, e, hx, hl⟩
  have hlog : ∀ {v e v' e' x}, c.Linked k v e v' e' → x ∈ m.unseen s →
      s.scene v ≠ none ∧ x ∈ s.logOf v := by
    intro v e v' e' x hl hx
    obtain ⟨hw, -⟩ := hc.monitor k m hm
    cases hw.symm.trans hl.watched
    exact ⟨hv, List.mem_of_mem_drop hx⟩
  refine ⟨fun i v e v' e' hl hk => ?_, fun i v e v' e' hl he => ?_⟩
  · rcases (hdec.kernel v e hl.isFree.1).1 hk with hk | ⟨d, hd, v₀, e₀, hx, hl₀⟩
    · rcases h.enforced i v e v' e' hl hk with hk' | ⟨htodo, htold⟩
      · exact .inl (hr.within.inKernel hk')
      · by_cases hi : i = k
        · subst hi
          exact .inl ((hdec.kernel v' e' hl.isFree.2).2 (.inr (hcarried hl htold)))
        · exact .inr ⟨⟨htodo, hi⟩, hkept _ i e hi htold⟩
    · obtain ⟨rfl, rfl⟩ := hl₀.partner hdist hl
      exact .inl (hr.within.inKernel (hs.inKernel_of_logged (hlog hl₀ hx).1 (hlog hl₀ hx).2))
  · obtain ⟨he', hno⟩ := (hdec.envelope v' e' hl.isFree.2).1 he
    rcases h.removed i v e v' e' hl he' with hold | ⟨htodo, htold⟩
    · refine .inl ((hdec.envelope v e hl.isFree.1).2 ⟨hold, ?_⟩)
      rintro ⟨d, hd, v₀, e₀, hx, hl₀⟩
      obtain ⟨rfl, rfl⟩ := hl₀.partner hdist hl
      exact hs.not_inEnvelope_of_logged (hlog hl₀ hx).1 (hlog hl₀ hx).2 he'
    · by_cases hi : i = k
      · subst hi
        exact absurd (hcarried hl htold) hno
      · exact .inr ⟨⟨htodo, hi⟩, hkept _ i e hi htold⟩

/-- The channel after a run that leaves `u`: it differs from `c` in its monitors at most, which
track the store. -/
structure Kept {ν : Type} (c : GraphChannel) (p : PropagatorId) (u : Workspace ν GraphChannel) :
    Prop where
  bare : u.own.bare = c.bare
  formed : u.own.Formed p
  tracks : u.own.Tracks u.store

theorem Kept.trans {ν : Type} {u u' : Workspace ν GraphChannel} (h : c.Kept p u)
    (h' : u.own.Kept p u') : c.Kept p u' :=
  ⟨h'.bare.trans h.bare, h'.formed, h'.tracks⟩

/-- `propagateOn k` leaves the channel covered by the indices other than `k`. -/
theorem hear_ends {ν : Type} {P : Scene → Prop} {fit : Prop} {w : Workspace ν GraphChannel}
    (hs : w.store.Valid) (hown : w.own = c) (hc : c.Formed p) (ht : c.Tracks w.store)
    (hP : ∀ G, P G → c.Stable G) (hfit : fit → c.Fits w.store.scene ∧ k ≤ c.sets.size) :
    Ends (propagateOn k : Action ν GraphChannel Unit).run w
      (fun _ u => c.Kept p u ∧ Advance P w.store (.propagator p) u.store ∧
        (c.Distinct → ∀ todo, c.Covered w.store todo →
          u.own.Covered u.store fun i => todo i ∧ i ≠ k))
      fun e u => Halts P fit w.store (.propagator p) e u.store ∧
        ∀ x, e = .contradiction x → c.Kept p u := by
  have hkept : ∀ {u : Workspace ν GraphChannel} {m : Monitor}, c.monitors[k]? = some m →
      u.own = c.withMonitor k (m.caughtUp w.store) → w.store.Ran (.propagator p) u.store →
      c.Kept p u := by
    intro u m hm hown hr
    refine ⟨?_, ?_, ?_⟩ <;> rw [hown]
    · rfl
    · exact hc.withMonitor hm rfl rfl rfl
    · exact (ht.caughtUp hm).ran hr
  refine (propagateOn_ends hs hown hc hP hfit).mono ?_ ?_
  · rintro - u ⟨m, hm, hv, hown, hadv, hdec⟩
    refine ⟨hkept hm hown hadv.toRan, hadv, fun hd todo hcov => ?_⟩
    rw [hown]
    exact hcov.read hc hd hs hm hv hadv.toRan hdec
  · rintro e u ⟨hhalt, hown⟩
    refine ⟨hhalt, ?_⟩
    rintro x rfl
    obtain ⟨m, hm, hown⟩ := hown x rfl
    exact hkept hm hown hhalt.1.toRan

/-- The run lemma of `hear_ends`: `propagateOn` for all of the indices `xs`. -/
theorem hearAll_ends {ν : Type} {P : Scene → Prop} {fit : Prop} {w : Workspace ν GraphChannel}
    {xs : List Nat} (hs : w.store.Valid) (hown : w.own = c) (hc : c.Formed p)
    (ht : c.Tracks w.store) (hP : ∀ G, P G → c.Stable G) (hd : c.Distinct)
    (hfit : fit → c.Fits w.store.scene ∧ ∀ k ∈ xs, k ≤ c.sets.size) :
    Ends (xs.forM fun k => propagateOn k : Action ν GraphChannel PUnit).run w
      (fun _ u => (c.Kept p u ∧ Advance P w.store (.propagator p) u.store) ∧
        ∀ todo, w.own.Covered w.store todo →
          u.own.Covered u.store fun k => todo k ∧ ∀ i ∈ xs, k ≠ i)
      fun e u => Halts P fit w.store (.propagator p) e u.store := by
  subst hown
  refine Action.ends_hearing id (C := fun (u : Workspace ν GraphChannel) => u.own.Covered u.store)
    ⟨⟨rfl, hc, ht⟩, hs.advance_self P _⟩ (fun h hle => h.mono hle) ?_
  rintro k hk u ⟨hkept, hadv⟩
  obtain ⟨-, hsets, -⟩ := eq_of_bare hkept.bare
  have hfit' : fit → u.own.Fits u.store.scene ∧ k ≤ u.own.sets.size := fun hf =>
    ⟨fits_of_bare hkept.bare ▸ (hfit hf).1.within hadv.within, hsets.symm ▸ (hfit hf).2 k hk⟩
  refine (hear_ends hadv.valid rfl hkept.formed hkept.tracks
    (fun G hG => stable_of_bare hkept.bare ▸ hP G hG) hfit').mono ?_ fun _ _ h => hadv.halts h.1
  rintro - u' ⟨hkept', hadv', hcov⟩
  exact ⟨⟨hkept.trans hkept', hadv.trans hadv'⟩, hcov (distinct_of_bare hkept.bare ▸ hd)⟩

end GraphChannel

/-! ## Disequalities -/

namespace NotEqual

open Store

variable {c : NotEqual} {s s' : Store} {S S' : Scene} {todo : Nat → Prop} {x y : Var} {d : Cause}

/-- The watches of a disequality: each variable for `instantiate`. -/
def watches (c : NotEqual) : List (Var × Mask) :=
  [(c.x, .only .instantiate), (c.y, .only .instantiate)]

/-- If `Clear` fails for `x` and `y` after a run by `d`, it did before, or `x` has been instantiated
by `d`. -/
theorem sink_of_not_clear (hr : s.Ran d s') (h : ¬Clear s'.scene x y) :
    ¬Clear s.scene x y ∨ s'.sink.Has x .instantiate d := by
  simp only [Clear, not_forall, not_not] at h
  obtain ⟨a, vs, hx', hy', ha⟩ := h
  obtain ⟨D, hx, hle⟩ := hr.before hx'
  obtain ⟨E, hy, hle'⟩ := hr.before hy'
  cases D with
  | set n b => exact hle.elim
  | graph n b => exact hle.elim
  | int ws =>
    cases E with
    | set n b => exact hle'.elim
    | graph n b => exact hle'.elim
    | int us =>
      by_cases hws : ws = {a}
      · subst hws
        exact .inl fun hclear => hclear a us hx hy (hle' ha)
      · refine .inr (hr.told x _ _ hx hx' _ ⟨⟨fun h => hws h.symm, ?_⟩, fun _ => rfl⟩)
        exact Finset.card_singleton a

/-- After a run by another cause the disequality is covered once the indices woken by `d` are
pending too. -/
theorem Covered.ran (h : c.Covered s.scene todo) (hr : s.Ran d s') :
    c.Covered s'.scene fun k => todo k ∨ s'.Wakes c.watches d k := by
  refine ⟨fun hn => ?_, fun hn => ?_⟩
  · exact (sink_of_not_clear hr hn).imp h.1 fun hsink =>
      ⟨c.x, _, _, rfl, Mask.mem_only.2 rfl, hsink⟩
  · exact (sink_of_not_clear hr hn).imp h.2 fun hsink =>
      ⟨c.y, _, _, rfl, Mask.mem_only.2 rfl, hsink⟩

/-- After `forbid` in the direction of the index `i`, the disequality is covered by the other index.
-/
theorem Covered.read (h : c.Covered S todo) {i : Nat}
    (hf : if i = 0 then Forbidden S c.x c.y S' else Forbidden S c.y c.x S') :
    c.Covered S' fun k => todo k ∧ k ≠ i := by
  by_cases hi : i = 0
  · rw [if_pos hi] at hf
    refine ⟨absurd hf.clear, fun hn => ?_⟩
    obtain ⟨-, hn⟩ := hf.clear_symm.resolve_left hn
    exact ⟨h.2 hn, by omega⟩
  · rw [if_neg hi] at hf
    refine ⟨fun hn => ?_, absurd hf.clear⟩
    obtain ⟨-, hn⟩ := hf.clear_symm.resolve_left hn
    exact ⟨h.1 hn, Ne.symm hi⟩

theorem Covered.congr (h : c.Covered S todo) (hx : S' c.x = S c.x) (hy : S' c.y = S c.y) :
    c.Covered S' todo := by
  have hclear : (Clear S' c.x c.y ↔ Clear S c.x c.y) ∧ (Clear S' c.y c.x ↔ Clear S c.y c.x) := by
    rw [Clear, Clear, Clear, Clear, hx, hy]
    exact ⟨Iff.rfl, Iff.rfl⟩
  exact ⟨fun hn => h.1 (mt hclear.1.2 hn), fun hn => h.2 (mt hclear.2.2 hn)⟩

theorem Covered.stable (h : c.Covered S fun _ => False) : c.Stable S :=
  ⟨by_contra h.1, by_contra h.2⟩

theorem Stable.covered (h : c.Stable S) (todo : Nat → Prop) : c.Covered S todo :=
  ⟨fun hn => absurd h.1 hn, fun hn => absurd h.2 hn⟩

end NotEqual

end Propagation
