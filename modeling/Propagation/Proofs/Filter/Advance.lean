import Propagation.Proofs.Action
import Propagation.Proofs.Filter.Order

/-!
# Filtering runs

What a run of a propagator that narrows by one cause makes of a store: any number of narrowings
one after the other (`Store.Ran`), none of which takes anything from the scenes of a given kind
(`Store.Advance`). If it ends in a contradiction there was no such scene (`Store.Halts`).

The kind will be that of the scenes that are stable for a constraint: `Action.Filters` says
of an action that it is such a run; one narrowing is (`Action.filters_narrowing`), if those scenes
obey it, and so are sequences and loops.
-/

set_option autoImplicit false

namespace Propagation

/-- The events of the passage from `D` to `D'` that do not depend on how it is divided into
narrowings: those of sets and graphs, and `instantiate`. -/
def Dom.Tells (D D' : Dom) (e : Event) : Prop :=
  D.Emits D' e ∧ ((∃ vs, D = .int vs) → e = .instantiate)

/-- An event of `Dom.Tells` from `D` to `D''` is one from `D` to `D'` or from `D'` to `D''`. -/
theorem Dom.Tells.split {D D' D'' : Dom} {e : Event} (h : D.Tells D'' e) (hle : D'.Within D)
    (hle' : D''.Within D') : D.Tells D' e ∨ D'.Tells D'' e := by
  obtain ⟨hemits, hint⟩ := h
  by_cases hD : ∃ vs, D = .int vs
  · obtain ⟨vs, rfl⟩ := hD
    obtain rfl := hint ⟨vs, rfl⟩
    cases D' with
    | set n b => exact hle.elim
    | graph n b => exact hle.elim
    | int vs' =>
      cases D'' with
      | set n b => exact hle'.elim
      | graph n b => exact hle'.elim
      | int vs'' =>
        by_cases heq : vs'' = vs'
        · subst heq
          exact .inl ⟨hemits, fun _ => rfl⟩
        · exact .inr ⟨⟨heq, hemits.2⟩, fun _ => rfl⟩
  · have hD : ∀ vs, D ≠ .int vs := fun vs h => hD ⟨vs, h⟩
    have hD' := hle.ne_int hD
    have hno : ∀ {E : Dom}, (∀ vs, E ≠ .int vs) → (∃ vs, E = .int vs) → e = .instantiate :=
      fun hE ⟨vs, h⟩ => absurd h (hE vs)
    rcases (Dom.emits_iff hD).1 hemits with ⟨x, hx, rfl⟩ | ⟨x, hx, rfl⟩
    · rw [Finset.mem_sdiff] at hx
      by_cases hb : x ∈ D'.kernel
      · exact .inl ⟨(Dom.emits_iff hD).2 (.inl ⟨x, Finset.mem_sdiff.2 ⟨hb, hx.2⟩, rfl⟩), hno hD⟩
      · exact .inr ⟨(Dom.emits_iff hD').2 (.inl ⟨x, Finset.mem_sdiff.2 ⟨hx.1, hb⟩, rfl⟩), hno hD'⟩
    · rw [Finset.mem_sdiff] at hx
      by_cases hb : x ∈ D'.envelope
      · exact .inr ⟨(Dom.emits_iff hD').2 (.inr ⟨x, Finset.mem_sdiff.2 ⟨hb, hx.2⟩, rfl⟩), hno hD'⟩
      · exact .inl ⟨(Dom.emits_iff hD).2 (.inr ⟨x, Finset.mem_sdiff.2 ⟨hx.1, hb⟩, rfl⟩), hno hD⟩

theorem Dom.Logs.split {D D'' : Dom} {c : Cause} {x : DeltaEntry} (h : D.Logs D'' c x)
    (D' : Dom) : D.Logs D' c x ∨ D'.Logs D'' c x := by
  rcases h with ⟨e, he, rfl⟩ | ⟨e, he, rfl⟩
  · rw [Finset.mem_sdiff] at he
    by_cases hb : e ∈ D'.kernel
    · exact .inl (.inl ⟨e, Finset.mem_sdiff.2 ⟨hb, he.2⟩, rfl⟩)
    · exact .inr (.inl ⟨e, Finset.mem_sdiff.2 ⟨he.1, hb⟩, rfl⟩)
  · rw [Finset.mem_sdiff] at he
    by_cases hb : e ∈ D'.envelope
    · exact .inr (.inr ⟨e, Finset.mem_sdiff.2 ⟨hb, he.2⟩, rfl⟩)
    · exact .inl (.inr ⟨e, Finset.mem_sdiff.2 ⟨he.1, hb⟩, rfl⟩)

namespace Store

/-! ## Runs -/

/-- `s'` comes from `s` by narrowings of the cause `c`: they shrink domains, append to the logs and
push events, all with that cause. -/
structure Ran (s : Store) (c : Cause) (s' : Store) : Prop where
  valid : s'.Valid
  epoch : s'.epoch = s.epoch
  within : Scene.Within s'.scene s.scene
  dead : ∀ v, s.scene v = none → s'.scene v = none
  /-- The entries `es` that a log gains are of the cause `c`, and include one for each element that
  was decided. -/
  log : ∀ v, ∃ es, s'.logOf v = s.logOf v ++ es ∧ (∀ x ∈ es, x.cause = c) ∧
    ∀ D D', s.scene v = some D → s'.scene v = some D' → ∀ x, D.Logs D' c x → x ∈ es
  kept : ∀ v e d, s.sink.Has v e d → s'.sink.Has v e d
  fresh : ∀ v e d, s'.sink.Has v e d → s.sink.Has v e d ∨ d = c
  told : ∀ v D D', s.scene v = some D → s'.scene v = some D' → ∀ e, D.Tells D' e →
    s'.sink.Has v e c

/-- A run in which no domain loses anything that a scene of `P` within `s.scene` needs. -/
structure Advance (P : Scene → Prop) (s : Store) (c : Cause) (s' : Store) : Prop
    extends Ran s c s' where
  sound : ∀ G, P G → Scene.Within G s.scene → Scene.Within G s'.scene

/-- How such a run may end without result. A contradiction only comes up if no scene of `P` is
within `s.scene`, and a fault is an overflow if `fit` holds. -/
def Halts (P : Scene → Prop) (fit : Prop) (s : Store) (c : Cause) : Failure → Store → Prop
  | .contradiction _, s' => Advance P s c s' ∧ ∀ G, P G → ¬Scene.Within G s.scene
  | .fault f, _ => fit → f = .overflow

variable {s s' s'' : Store} {c : Cause} {v : Var} {n : Narrowing} {P : Scene → Prop}
  {D D' : Dom}

theorem Valid.scene_wf (hs : s.Valid) (v : Var) (D : Dom) (hv : s.scene v = some D) : D.Wf :=
  hs.wf hv

theorem Valid.ran_self (hs : s.Valid) (c : Cause) : Ran s c s where
  valid := hs
  epoch := rfl
  within := .refl hs.scene_wf
  dead _ h := h
  log v := ⟨[], by simp, nofun, fun D D' hv hv' x hx => by
    rw [hv] at hv'
    cases hv'
    exact absurd hx (Dom.not_logs_self D c x)⟩
  kept _ _ _ h := h
  fresh _ _ _ h := .inl h
  told v D D' hv hv' e he := by
    rw [hv] at hv'
    cases hv'
    exact absurd he.1 (Dom.not_emits_self D e)

theorem Ran.trans (h : Ran s c s') (h' : Ran s' c s'') : Ran s c s'' where
  valid := h'.valid
  epoch := h'.epoch.trans h.epoch
  within := h'.within.trans h.within
  dead v hv := h'.dead v (h.dead v hv)
  log v := by
    obtain ⟨es, hes, hc, hall⟩ := h.log v
    obtain ⟨es', hes', hc', hall'⟩ := h'.log v
    refine ⟨es ++ es', by rw [hes', hes, List.append_assoc], fun x hx => ?_,
      fun D D'' hv hv'' x hx => ?_⟩
    · exact (List.mem_append.1 hx).elim (hc x) (hc' x)
    · obtain ⟨D', hv', -, -⟩ := h.within v D hv
      exact List.mem_append.2 ((hx.split D').imp (hall D D' hv hv' x)
        (hall' D' D'' hv' hv'' x))
  kept v e d hd := h'.kept v e d (h.kept v e d hd)
  fresh v e d hd := (h'.fresh v e d hd).elim (h.fresh v e d) .inr
  told v D D'' hv hv'' e he := by
    obtain ⟨D', hv', -, hle⟩ := h.within v D hv
    obtain ⟨E, hE, -, hle'⟩ := h'.within v D' hv'
    rw [hv''] at hE
    cases hE
    exact (he.split hle hle').elim (fun h1 => h'.kept v e c (h.told v D D' hv hv' e h1))
      (h'.told v D' D'' hv' hv'' e)

theorem Narrowed.ran (hs : s.Valid) (h : Narrowed s v c D D' s') : Ran s c s' where
  valid := h.valid
  epoch := h.frame.epoch
  within u E hu := by
    by_cases huv : u = v
    · subst huv
      rw [h.before] at hu
      cases hu
      exact ⟨D', h.after, h.valid.wf h.after, h.within⟩
    · rw [h.scene, Function.update_of_ne huv]
      exact ⟨E, hu, hs.wf hu, .refl E⟩
  dead u hu := by
    have huv : u ≠ v := by
      rintro rfl
      rw [h.before] at hu
      cases hu
    rwa [h.scene, Function.update_of_ne huv]
  log u := by
    by_cases huv : u = v
    · subst huv
      obtain ⟨es, hes, hmem⟩ := h.logs
      refine ⟨es, hes, fun x hx => ?_, fun E E' hE hE' x hx => (hmem x).2 ?_⟩
      · rcases (hmem x).1 hx with ⟨e, -, rfl⟩ | ⟨e, -, rfl⟩ <;> simp
      · rw [h.before] at hE
        rw [h.after] at hE'
        cases hE
        cases hE'
        exact hx
    · refine ⟨[], by rw [h.log_ne u huv, List.append_nil], nofun, fun E E' hE hE' x hx => ?_⟩
      rw [h.scene, Function.update_of_ne huv, hE] at hE'
      cases hE'
      exact absurd hx (Dom.not_logs_self E c x)
  kept u e d hd := (h.sink u e d).2 (.inl hd)
  fresh u e d hd := ((h.sink u e d).1 hd).imp_right fun h => h.2.1
  told u E E' hE hE' e he := by
    by_cases huv : u = v
    · subst huv
      rw [h.before] at hE
      rw [h.after] at hE'
      cases hE
      cases hE'
      exact (h.sink u e c).2 (.inr ⟨rfl, rfl, he.1⟩)
    · rw [h.scene, Function.update_of_ne huv, hE] at hE'
      cases hE'
      exact absurd he.1 (Dom.not_emits_self E e)

theorem Valid.advance_self (hs : s.Valid) (P : Scene → Prop) (c : Cause) : Advance P s c s :=
  { hs.ran_self c with sound := fun _ _ h => h }

theorem Advance.trans (h : Advance P s c s') (h' : Advance P s' c s'') : Advance P s c s'' :=
  { h.toRan.trans h'.toRan with
    sound := fun G hG hle => h'.sound G hG (h.sound G hG hle) }

/-! ## What does not matter to a run -/

/-- `s'` has the domains, the logs, the epoch and the pending events of `s`. -/
structure Same (s s' : Store) : Prop where
  scene : s'.scene = s.scene
  log : s'.logOf = s.logOf
  epoch : s'.epoch = s.epoch
  sink : s'.sink = s.sink

theorem Same.trans (h : Same s s') (h' : Same s' s'') : Same s s'' where
  scene := h'.scene.trans h.scene
  log := h'.log.trans h.log
  epoch := h'.epoch.trans h.epoch
  sink := h'.sink.trans h.sink

theorem same_self (s : Store) : Same s s := ⟨rfl, rfl, rfl, rfl⟩

theorem Ran.congr {t t' : Store} (h : Ran s c s') (hs : Same t s) (hs' : Same s' t')
    (ht' : t'.Valid) : Ran t c t' where
  valid := ht'
  epoch := by rw [hs'.epoch, h.epoch, hs.epoch]
  within := by rw [hs'.scene, ← hs.scene]; exact h.within
  dead := by rw [hs'.scene, ← hs.scene]; exact h.dead
  log := by rw [hs'.log, hs'.scene, ← hs.log, ← hs.scene]; exact h.log
  kept := by rw [hs'.sink, ← hs.sink]; exact h.kept
  fresh := by rw [hs'.sink, ← hs.sink]; exact h.fresh
  told := by rw [hs'.sink, hs'.scene, ← hs.scene]; exact h.told

theorem Advance.congr {t t' : Store} (h : Advance P s c s') (hs : Same t s) (hs' : Same s' t')
    (ht' : t'.Valid) : Advance P t c t' where
  toRan := h.toRan.congr hs hs' ht'
  sound := by rw [hs'.scene, ← hs.scene]; exact h.sound

/-! ## One narrowing -/

/-- The domain of `v` in every scene of `P` within `S` obeys the narrowing `n`, if `n` is of its
kind. -/
def Grants (P : Scene → Prop) (S : Scene) (v : Var) (n : Narrowing) : Prop :=
  ∀ G, P G → Scene.Within G S → ∀ D C, S v = some D → D.Accepts n → G v = some C → C.Wf →
    C.Within D → C.Obeys n

theorem Grants.within {G : Scene} (h : Grants P s.scene v n) (hG : P G)
    (hle : Scene.Within G s.scene) (hv : s.scene v = some D) (ha : D.Accepts n) :
    ∃ C E, G v = some C ∧ C.Wf ∧ D.after n = some E ∧ C.Within E := by
  obtain ⟨C, hC, hwf, hCle⟩ := hle v D hv
  obtain ⟨E, hE, hCE⟩ := Dom.after_within hwf hCle (h G hG hle D C hv ha hC hwf hCle)
  exact ⟨C, E, hC, hwf, hE, hCE⟩

theorem Narrowed.advance (hs : s.Valid) (h : Narrowed s v c D D' s') (ha : D.Accepts n)
    (hn : D.after n = some D') (hg : Grants P s.scene v n) : Advance P s c s' :=
  { h.ran hs with
    sound := fun G hG hle u E hu => by
      by_cases huv : u = v
      · subst huv
        obtain ⟨C, E', hC, hwf, hE', hCle⟩ := hg.within hG hle h.before ha
        rw [h.after] at hu
        cases hu
        rw [hn] at hE'
        cases hE'
        exact ⟨C, hC, hwf, hCle⟩
      · rw [h.scene, Function.update_of_ne huv] at hu
        exact hle u E hu }

/-! ## Whole runs -/

/-- `Halts` is closed under a run before: one that has halted from `s'` has halted from `s`. -/
theorem Advance.halts {fit : Prop} {e : Failure} (h : Advance P s c s')
    (hhalt : Halts P fit s' c e s'') : Halts P fit s c e s'' := by
  cases e with
  | contradiction x =>
    exact ⟨h.trans hhalt.1, fun G hG hle => hhalt.2 G hG (h.sound G hG hle)⟩
  | fault f => exact hhalt

end Store

namespace Action

open Update Store

variable {ν σ α β : Type} {P : Scene → Prop} {fit : Prop} {c : Cause} {w : Workspace ν σ}

/-- `x` is an `Advance` by the cause `c` or `Halts`, leaves the state `w.own` as it is, and if it
returns, `post` holds of its value and of the scene it leaves. -/
def Filters (P : Scene → Prop) (fit : Prop) (c : Cause) (w : Workspace ν σ) (x : Action ν σ α)
    (post : α → Scene → Prop) : Prop :=
  Ends x.run w (fun a u => u.own = w.own ∧ Advance P w.store c u.store ∧ post a u.store.scene)
    fun e u => u.own = w.own ∧ Halts P fit w.store c e u.store

section
variable {x : Action ν σ α} {mid post : α → Scene → Prop}

theorem Filters.mono (h : Filters P fit c w x mid)
    (hpost : ∀ a u, Advance P w.store c u → mid a u.scene → post a u.scene) :
    Filters P fit c w x post :=
  Ends.mono h (fun a _ ⟨hown, hadv, hmid⟩ => ⟨hown, hadv, hpost a _ hadv hmid⟩) fun _ _ he => he

theorem filters_pure (hs : w.store.Valid) {a : α} (h : post a w.store.scene) :
    Filters P fit c w (pure a) post :=
  ends_of_ok rfl ⟨rfl, hs.advance_self P c, h⟩

theorem Filters.seq {f : α → Action ν σ β} {post : β → Scene → Prop} (h : Filters P fit c w x mid)
    (hf : ∀ a u, u.own = w.own → Advance P w.store c u.store → mid a u.store.scene →
      Filters P fit c u (f a) post) : Filters P fit c w (x >>= f) post := by
  refine ends_seq h fun a u ⟨hown, hadv, hmid⟩ => Ends.mono (hf a u hown hadv hmid) ?_ ?_
  · exact fun b u' ⟨hown', hadv', hpost⟩ => ⟨hown'.trans hown, hadv.trans hadv', hpost⟩
  · exact fun e u' ⟨hown', hhalt⟩ => ⟨hown'.trans hown, hadv.halts hhalt⟩

/-- A query in front of a filtering action: it adds no fault but an overflow if `fit` holds. -/
theorem filters_ask {q : Store → Except Fault β} {f : β → Action ν σ α}
    (hok : ∀ b, q w.store = .ok b → Filters P fit c w (f b) post)
    (hbad : ∀ e, q w.store = .error e → fit → e = .overflow) :
    Filters P fit c w (query q >>= f) post :=
  ends_ask hok fun e he => ⟨rfl, hbad e he⟩

theorem filters_forM {f : β → Action ν σ PUnit} {I : List β → Scene → Prop} {xs : List β}
    (hs : w.store.Valid) (h : I xs w.store.scene)
    (hstep : ∀ x rest u, u.own = w.own → Advance P w.store c u.store →
      I (x :: rest) u.store.scene →
      Filters P fit c u (f x) fun _ S => I rest S) :
    Filters P fit c w (xs.forM f) fun _ S => I [] S := by
  refine ends_forM (I := fun rest u => u.own = w.own ∧ Advance P w.store c u.store ∧
    I rest u.store.scene) ⟨rfl, hs.advance_self P c, h⟩ fun x rest u ⟨hown, hadv, hinv⟩ => ?_
  refine Ends.mono (hstep x rest u hown hadv hinv) (fun _ u' h => ?_) fun e u' h => ?_
  · exact ⟨h.1.trans hown, hadv.trans h.2.1, h.2.2⟩
  · exact ⟨h.1.trans hown, hadv.halts h.2⟩

end

/-- A single narrowing filters, if it is granted by `P`. The scene after it is `w.store.scene` with
the domain of `v` updated to what `Dom.after` says. -/
theorem filters_narrowing (hs : w.store.Valid) {v : Var} {n : Narrowing}
    (hg : Grants P w.store.scene v n)
    (hfit : fit → ∃ D, w.store.scene v = some D ∧ D.Accepts n) :
    Filters P fit c w (discard (apply v n c) : Action ν σ PUnit) fun _ S =>
      ∃ D D', w.store.scene v = some D ∧ D.Accepts n ∧ D.after n = some D' ∧
        S = Function.update w.store.scene v (some D') := by
  refine ends_discard (ends_apply hs ?_ ?_)
  · rintro b s' ⟨D, D', ha, hn, -, hD, -⟩
    exact ⟨rfl, hD.advance hs ha hn hg, D, D', hD.before, ha, hn, hD.scene⟩
  · rintro (x | f) s' hf
    · obtain ⟨rfl, -, D, hv, ha, hn⟩ := hf
      refine ⟨rfl, hs.advance_self P c, fun G hG hle => ?_⟩
      obtain ⟨C, E, -, -, hE, -⟩ := hg.within hG hle hv ha
      rw [hn] at hE
      cases hE
    · refine ⟨rfl, fun h => ?_⟩
      rcases hf with ⟨rfl, -, -⟩ | ⟨k, rfl, -, hno⟩
      · rfl
      · obtain ⟨D, hv, ha⟩ := hfit h
        exact absurd ha (hno D hv)

end Action

end Propagation
