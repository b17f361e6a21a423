import Propagation.Proofs.Model.Steady
import Propagation.Proofs.Store.Snapshot

/-!
# Confluence

A session posts constraints, narrows domains and propagates, in some order, up to the first
contradiction (`Session.attempt`). The order does not matter (`Session.confluent`). Each call puts a
condition on scenes (`Call.Holds`); it is contradicted only if no scene meets the conditions so far,
and otherwise no such scene is lost (`Profile.Keeps.does`). A propagation at the end finds the
greatest one (`Session.attempt_propagated_ends`).
-/

set_option autoImplicit false

namespace Propagation

open Update

variable {ν π : Type}

/-! ## What the calls demand -/

/-- The condition that the call puts on the final scene `G`. -/
def Call.Holds : Call (Constraint ⊕ π) → Scene → Prop
  | .post (.inl c), G => c.Stable G
  | .narrow v n _, G => ∃ C, G v = some C ∧ C.Obeys n
  | _, _ => True

/-- The scene `G` lies within `S`, and the conditions of all calls hold of it. -/
structure Call.Allow (cs : List (Call (Constraint ⊕ π))) (S G : Scene) : Prop where
  holds : ∀ k ∈ cs, k.Holds G
  within : Scene.Within G S

namespace Call

variable {cs cs' : List (Call (Constraint ⊕ π))} {k : Call (Constraint ⊕ π)} {S S' G : Scene}

/-- Calls that differ in propagations only allow the same scenes. -/
theorem Allow.congr (h : Allow cs S G) (hmem : ∀ k ∈ cs', k ∈ cs ∨ k = .fixpoint) :
    Allow cs' S G := by
  refine ⟨fun k hk => ?_, h.within⟩
  rcases hmem k hk with hk | rfl
  · exact h.holds k hk
  · trivial

end Call

/-! ## The domains under way -/

/-- The profile `P` is that of `S` after the calls `cs`, none of which has been contradicted: all
narrowings are obeyed, and every scene that the calls allow lies within the scene of `P`. -/
structure Profile.Keeps (S : Scene) (cs : List (Call (Constraint ⊕ π))) (P : Profile) : Prop where
  fresh : ∀ p, P.count ≤ p → P.posed p = none
  demands : ∀ G, P.Demands G ↔ ∀ c, .post (.inl c) ∈ cs → c.Stable G
  obeys : ∀ v n a, .narrow v n a ∈ cs → ∃ C, P.scene v = some C ∧ C.Obeys n
  within : Scene.Within P.scene S
  dead : ∀ v, S v = none → P.scene v = none
  greatest : ∀ G, Call.Allow cs S G → Scene.Within G P.scene

namespace Profile

variable {P : Profile} {c : Constraint} {G S T : Scene} {cs : List (Call (Constraint ⊕ π))}
  {k : Call (Constraint ⊕ π)}

theorem demands_post (h : P.posed P.count = none) :
    (P.post c).Demands G ↔ P.Demands G ∧ c.Stable G := by
  have hnew : (P.post c).posed P.count = some (c.postedAs ⟨P.count⟩) := Function.update_self _ _ _
  have hold : ∀ p, p ≠ P.count → (P.post c).posed p = P.posed p ∧
      (P.post c).enabled p = P.enabled p := fun p hp =>
    ⟨Function.update_of_ne hp _ _, Function.update_of_ne hp _ _⟩
  constructor
  · intro hG
    constructor
    · intro p c' hc' hp
      have hne : p ≠ P.count := by
        rintro rfl
        cases h.symm.trans hc'
      obtain ⟨hposed, henabled⟩ := hold p hne
      exact hG p c' (hposed.trans hc') (henabled ▸ hp)
    · have hstable := hG P.count _ hnew (by
        show Function.update P.enabled P.count True P.count
        rw [Function.update_self]
        trivial)
      rwa [Constraint.stable_postedAs] at hstable
  · intro ⟨hG, hstable⟩ p c' hc' hp
    by_cases hne : p = P.count
    · subst hne
      cases hnew.symm.trans hc'
      rwa [Constraint.stable_postedAs]
    · obtain ⟨hposed, henabled⟩ := hold p hne
      exact hG p c' (hposed.symm.trans hc') (henabled ▸ hp)

/-- Before the first call, the profile keeps its own scene. -/
theorem keeps_start (hwf : ∀ v D, P.scene v = some D → D.Wf)
    (hposed : ∀ p, P.posed p = none) : Keeps P.scene ([] : List (Call (Constraint ⊕ π))) P where
  fresh p _ := hposed p
  demands G := by
    constructor
    · intro _ c hc
      cases hc
    · intro _ p c hc
      cases (hposed p).symm.trans hc
  obeys v n a h := by cases h
  within := .refl hwf
  dead _ h := h
  greatest G h := h.within

/-- If the constraints are stable, the scene of `P` is allowed by the calls so far. -/
theorem Keeps.allow (h : Keeps S cs P) (hstable : P.Demands P.scene) :
    Call.Allow cs S P.scene := by
  refine ⟨fun k hk => ?_, h.within⟩
  match k, hk with
  | .post (.inl c), hk => exact (h.demands _).1 hstable c hk
  | .narrow v n a, hk => exact h.obeys v n a hk
  | .post (.inr _), _ | .create _, _ | .enable _, _ | .disable _, _ | .save, _ | .restore, _
  | .checkpoint, _ | .rollback _, _ | .fixpoint, _ | .isEntailed _, _ => trivial

/-- A scene allowed by `cs ++ [k]` is stable for the constraints posted so far, and lies within the
scene of `P`. -/
theorem Keeps.demands_of_allow (h : Keeps S cs P) (hG : Call.Allow (cs ++ [k]) S G) :
    P.Demands G ∧ Scene.Within G P.scene := by
  have hcs : Call.Allow cs S G := ⟨fun k hk => hG.holds k (by simp [hk]), hG.within⟩
  exact ⟨(h.demands G).2 fun c hc => hcs.holds _ hc, h.greatest G hcs⟩

/-- Where a narrowing is allowed, the domain after it is not empty and contains the allowed one. -/
theorem Keeps.after_of_allow (h : Keeps S cs P) {v : Var} {n : Narrowing} {a : Cause} {D : Dom}
    (hG : Call.Allow (cs ++ [.narrow v n a]) S G) (hv : P.scene v = some D) :
    ∃ E F, G v = some E ∧ E.Wf ∧ D.after n = some F ∧ E.Within F := by
  obtain ⟨E, hE, hobeys⟩ : Call.Holds (.narrow v n a : Call (Constraint ⊕ π)) G :=
    hG.holds _ (by simp)
  obtain ⟨E', hE', hwf, hle⟩ := (h.demands_of_allow hG).2 v D hv
  cases hE.symm.trans hE'
  obtain ⟨F, hF, hleF⟩ := Dom.after_within hwf hle hobeys
  exact ⟨E, F, hE, hwf, hF, hleF⟩

theorem Keeps.wf (h : Keeps S cs P) {v : Var} {D : Dom} (hv : P.scene v = some D) : D.Wf := by
  cases hS : S v with
  | none => cases (h.dead v hS).symm.trans hv
  | some D₀ =>
    obtain ⟨C, hC, hwf, -⟩ := h.within v D₀ hS
    cases hv.symm.trans hC
    exact hwf

theorem Keeps.posted (h : Keeps S cs P) :
    Keeps S (cs ++ [.post (.inl c)]) (P.post c) where
  fresh p hp := by
    have hp : P.count + 1 ≤ p := hp
    show Function.update P.posed P.count _ p = none
    rw [Function.update_of_ne (by omega)]
    exact h.fresh p (by omega)
  demands G := by
    rw [demands_post (h.fresh _ le_rfl), h.demands]
    constructor
    · intro ⟨hcs, hc⟩ c' hc'
      simp only [List.mem_append, List.mem_singleton, Call.post.injEq, Sum.inl.injEq] at hc'
      rcases hc' with hc' | rfl
      · exact hcs c' hc'
      · exact hc
    · intro hcs
      exact ⟨fun c' hc' => hcs c' (by simp [hc']), hcs c (by simp)⟩
  obeys v n a hn := h.obeys v n a (by simpa using hn)
  within := h.within
  dead := h.dead
  greatest G hG := (h.demands_of_allow hG).2

theorem Keeps.narrowed (h : Keeps S cs P) {v : Var} {n : Narrowing} {a : Cause} {D D' : Dom}
    (hv : P.scene v = some D) (hn : D.after n = some D') :
    Keeps S (cs ++ [.narrow v n a]) (P.withScene (Function.update P.scene v (some D'))) := by
  obtain ⟨hwf, hle⟩ := Dom.after_wf (h.wf hv) hn
  -- all domains are well-formed still, and allow no more than before
  have hbelow : ∀ u C, P.scene u = some C →
      ∃ C', Function.update P.scene v (some D') u = some C' ∧ C'.Wf ∧ C'.Within C := by
    intro u C hC
    by_cases hu : u = v
    · subst hu
      cases hv.symm.trans hC
      exact ⟨D', Function.update_self _ _ _, hwf, hle⟩
    · exact ⟨C, (Function.update_of_ne hu _ _).trans hC, h.wf hC, .refl C⟩
  refine ⟨h.fresh, fun G => ?_, fun u n' a' hu => ?_, fun u C₀ hC₀ => ?_, fun u hu => ?_,
    fun G hG u C hC => ?_⟩
  · show P.Demands G ↔ _
    rw [h.demands]
    simp
  · rcases List.mem_append.1 hu with hu | hu
    · obtain ⟨C, hC, hobeys⟩ := h.obeys u n' a' hu
      obtain ⟨C', hC', hwf', hle'⟩ := hbelow u C hC
      exact ⟨C', hC', Dom.obeys_of_after hobeys hwf' hle'⟩
    · cases List.mem_singleton.1 hu
      exact ⟨D', Function.update_self _ _ _, Dom.obeys_of_after hn hwf (.refl D')⟩
  · obtain ⟨C, hC, -, hleC⟩ := h.within u C₀ hC₀
    obtain ⟨C', hC', hwf', hle'⟩ := hbelow u C hC
    exact ⟨C', hC', hwf', hle'.trans hleC⟩
  · have hne : u ≠ v := by
      rintro rfl
      cases (h.dead u hu).symm.trans hv
    exact (Function.update_of_ne hne _ _).trans (h.dead u hu)
  · have hC : Function.update P.scene v (some D') u = some C := hC
    by_cases hu : u = v
    · subst hu
      rw [Function.update_self] at hC
      cases hC
      obtain ⟨E, F, hE, hwfE, hF, hle⟩ := h.after_of_allow hG hv
      cases hn.symm.trans hF
      exact ⟨E, hE, hwfE, hle⟩
    · rw [Function.update_of_ne hu] at hC
      exact (h.demands_of_allow hG).2 u C hC

theorem Keeps.settled (h : Keeps S cs P) (hT : P.Closure T) :
    Keeps S (cs ++ [.fixpoint]) (P.withScene T) where
  fresh := h.fresh
  demands G := by
    show P.Demands G ↔ _
    rw [h.demands]
    simp
  obeys v n a hn := by
    obtain ⟨C, hC, hobeys⟩ := h.obeys v n a (by simpa using hn)
    obtain ⟨C', hC', hwf, hle⟩ := hT.within v C hC
    exact ⟨C', hC', Dom.obeys_of_after hobeys hwf hle⟩
  within := hT.within.trans h.within
  dead v hv := hT.dead v (h.dead v hv)
  greatest G hG := by
    obtain ⟨hdemands, hle⟩ := h.demands_of_allow hG
    exact hT.greatest G hdemands hle

/-- A call is contradicted only if no scene is allowed by the calls up to it. Otherwise `Keeps` goes
on to hold, and after a propagation the constraints are stable. -/
theorem Keeps.does {o o' : Outline} {a : Answer} (h : Keeps S cs o.profile) (hd : o.Does k a o')
    (hk : k.Builds S) :
    (∃ c, a = .contradiction c) ∧ (∀ G, ¬Call.Allow (cs ++ [k]) S G) ∨
      (∀ c, a ≠ .contradiction c) ∧ Keeps S (cs ++ [k]) o'.profile ∧
        (k = .fixpoint → o'.profile.Demands o'.profile.scene) := by
  cases hk with
  | post =>
    cases hd
    exact .inr ⟨nofun, h.posted, nofun⟩
  | @narrow v n D hv ha =>
    cases hd with
    | narrow hv' hn => exact .inr ⟨nofun, h.narrowed hv' hn, nofun⟩
    | refused hv' hn =>
      refine .inl ⟨⟨_, rfl⟩, fun G hG => ?_⟩
      obtain ⟨E, F, -, -, hF, -⟩ := h.after_of_allow hG hv'
      cases hn.symm.trans hF
  | fixpoint =>
    cases hd with
    | settled hT => exact .inr ⟨nofun, h.settled hT, fun _ => hT.demands⟩
    | failed hno =>
      refine .inl ⟨⟨_, rfl⟩, fun G hG => ?_⟩
      obtain ⟨hdemands, hle⟩ := h.demands_of_allow hG
      exact hno G hdemands hle

end Profile

/-! ## Sessions -/

/-- Makes the calls one after the other up to the first contradiction. Answers whether there was
none. -/
def Session.attempt [Propagator ν π] : List (Call π) → Update Fault (Session ν π) Bool
  | [] => pure true
  | c :: cs => do
    match ← c.perform with
    | .contradiction _ => pure false
    | _ => attempt cs

/-- The calls post the constraints `P` and apply the narrowings `D`, each once and in any order,
with propagations between. -/
def Schedules (P : List Constraint) (D : List (Var × Narrowing))
    (cs : List (Call (Constraint ⊕ π))) : Prop :=
  ∃ n, cs.Perm (P.map (fun c => .post (.inl c)) ++ D.map (fun x => .narrow x.1 x.2 .decision) ++
    List.replicate n .fixpoint)

variable [Propagator ν π]

namespace Session

variable {s s' : Session ν (Constraint ⊕ π)} {cs ds : List (Call (Constraint ⊕ π))}
  {done : List (Call (Constraint ⊕ π))} {S : Scene}

theorem attempt_cons (k : Call (Constraint ⊕ π)) (cs : List (Call (Constraint ⊕ π)))
    (s : Session ν (Constraint ⊕ π)) :
    attempt (k :: cs) s = match k.perform s with
      | .ok (.contradiction _) u => .ok false u
      | .ok _ u => attempt cs u
      | .error e u => .error e u := by
  rw [attempt, bind_apply]
  cases k.perform s with
  | ok a u => cases a <;> rfl
  | error e u => rfl

/-- To attempt `k :: cs` is to perform `k` and, unless it is contradicted, to attempt `cs`. -/
theorem attempt_cons_ends {k : Call (Constraint ⊕ π)}
    {ok : Bool → Session ν (Constraint ⊕ π) → Prop}
    {bad : Fault → Session ν (Constraint ⊕ π) → Prop}
    (h : Ends k.perform s (fun a u => (∃ c, a = .contradiction c) ∧ ok false u ∨
      (∀ c, a ≠ .contradiction c) ∧ Ends (attempt cs) u ok bad) bad) :
    Ends (attempt (k :: cs)) s ok bad := by
  have hstep := attempt_cons k cs s
  cases hx : k.perform s with
  | error e u =>
    rw [hx] at hstep
    exact ends_of_error hstep (h.of_error hx)
  | ok a u =>
    rw [hx] at hstep
    rcases h.of_ok hx with ⟨⟨c, rfl⟩, hok⟩ | ⟨hopen, hrest⟩
    · exact ends_of_ok hstep hok
    · refine hrest.of_eq (hstep.trans ?_)
      cases a with
      | contradiction c => exact absurd rfl (hopen c)
      | _ => rfl

theorem attempt_append_ends {ok : Bool → Session ν (Constraint ⊕ π) → Prop}
    {bad : Fault → Session ν (Constraint ⊕ π) → Prop}
    (h : Ends (attempt cs) s (fun b u => b = false ∧ ok false u ∨
      b = true ∧ Ends (attempt ds) u ok bad) bad) : Ends (attempt (cs ++ ds)) s ok bad := by
  induction cs generalizing s with
  | nil =>
    rcases h with ⟨hb, -⟩ | ⟨-, h⟩
    · cases hb
    · exact h
  | cons k cs ih =>
    have hstep := attempt_cons k cs s
    refine attempt_cons_ends ?_
    cases hx : k.perform s with
    | error e u =>
      rw [hx] at hstep
      exact ends_of_error hx (h.of_error hstep)
    | ok a u =>
      rw [hx] at hstep
      refine ends_of_ok hx ?_
      cases a with
      | contradiction c =>
        rcases h.of_ok hstep with ⟨-, hok⟩ | ⟨hb, -⟩
        · exact .inl ⟨⟨c, rfl⟩, hok⟩
        · cases hb
      | _ => exact .inr ⟨nofun, ih (h.of_eq hstep.symm)⟩

/-- One call of an attempt. -/
theorem perform_ends {k : Call (Constraint ⊕ π)} (hk : k.Builds S) (h : s.model.Steady)
    (hkeeps : Profile.Keeps S done s.model.profile) :
    Ends k.perform s (fun a u =>
      (∃ c, a = .contradiction c) ∧ (∀ G, ¬Call.Allow (done ++ [k]) S G) ∨
      (∀ c, a ≠ .contradiction c) ∧ u.model.Steady ∧
        Profile.Keeps S (done ++ [k]) u.model.profile ∧
        (k = .fixpoint → u.model.profile.Demands u.model.store.scene))
      fun f _ => f = .overflow := by
  have hnow : k.Builds s.model.store.scene := hk.within hkeeps.within
  have hready := h.minded.ready
  cases hx : k.perform s with
  | error f u => exact ends_of_error hx ((hnow.fault_ends h).of_error hx)
  | ok a u =>
    have hd := Call.does_of_ok hx hready
    refine ends_of_ok hx ?_
    rcases hkeeps.does (hd.outlined h.minded hnow.ordinary False.elim) hk with
      hno | ⟨hopen, hkeeps', hdemands⟩
    · exact .inl hno
    · exact .inr ⟨hopen, hd.steady hnow h ((k.ready_ends hready).of_ok hx) hopen, hkeeps', hdemands⟩

/-- Any number of calls of an attempt. -/
theorem attempt_ends (hcs : ∀ k ∈ cs, k.Builds S) (h : s.model.Steady)
    (hkeeps : Profile.Keeps S done s.model.profile) :
    Ends (attempt cs) s (fun b u => b = false ∧ (∀ G, ¬Call.Allow (done ++ cs) S G) ∨
      b = true ∧ u.model.Steady ∧ Profile.Keeps S (done ++ cs) u.model.profile)
      fun f _ => f = .overflow := by
  induction cs generalizing s done with
  | nil =>
    refine ends_of_ok rfl (.inr ⟨rfl, h, ?_⟩)
    rwa [List.append_nil]
  | cons k cs ih =>
    refine attempt_cons_ends ((perform_ends (hcs k List.mem_cons_self) h hkeeps).mono ?_
      fun _ _ hf => hf)
    rintro a u (⟨ha, hno⟩ | ⟨hopen, h, hkeeps, -⟩)
    · refine .inl ⟨ha, .inl ⟨rfl, fun G hG => hno G ⟨fun k' hk' => hG.holds k' ?_, hG.within⟩⟩⟩
      rw [List.append_cons]
      exact List.mem_append_left cs hk'
    · have hrest := ih (fun k' hk' => hcs k' (List.mem_cons_of_mem k hk')) h hkeeps
      rw [List.append_assoc] at hrest
      exact .inr ⟨hopen, hrest⟩

/-- An attempt with a propagation at the end finds the greatest scene that the calls allow, or a
contradiction if they allow none. -/
theorem attempt_propagated_ends (hcs : ∀ k ∈ cs, k.Builds S) (h : s.model.Steady)
    (hkeeps : Profile.Keeps S ([] : List (Call (Constraint ⊕ π))) s.model.profile) :
    Ends (attempt (cs ++ [.fixpoint])) s (fun b u => b = false ∧ (∀ G, ¬Call.Allow cs S G) ∨
      b = true ∧ u.model.store.Valid ∧ (∀ v, S v = none → u.model.store.scene v = none) ∧
        Call.Allow cs S u.model.store.scene ∧
        ∀ G, Call.Allow cs S G → Scene.Within G u.model.store.scene)
      fun f _ => f = .overflow := by
  have hlast : ∀ {G}, Call.Allow cs S G → Call.Allow (cs ++ [.fixpoint]) S G := fun hG =>
    hG.congr fun k hk => by simpa using hk
  refine attempt_append_ends ((attempt_ends hcs h hkeeps).mono ?_ fun _ _ hf => hf)
  rintro b u (⟨hb, hno⟩ | ⟨hb, hu, hkeeps⟩)
  · exact .inl ⟨hb, .inl ⟨rfl, hno⟩⟩
  · refine .inr ⟨hb, attempt_cons_ends ((perform_ends .fixpoint hu hkeeps).mono ?_
      fun _ _ hf => hf)⟩
    rintro a t (⟨ha, hno⟩ | ⟨hopen, ht, hkeeps, hdemands⟩)
    · exact .inl ⟨ha, .inl ⟨rfl, fun G hG => hno G (hlast hG)⟩⟩
    · refine .inr ⟨hopen, ends_of_ok rfl (.inr ⟨rfl, ht.minded.ready.valid.store, hkeeps.dead, ?_,
        fun G hG => hkeeps.greatest G (hlast hG)⟩)⟩
      exact (hkeeps.allow (hdemands rfl)).congr fun k hk => .inl (by simp [hk])

end Session

/-! ## The main theorem -/

section
variable {P : List Constraint} {D : List (Var × Narrowing)} {cs cs' : List (Call (Constraint ⊕ π))}
  {S : Scene}

omit [Propagator ν π] in
/-- Two schedules of the same constraints and narrowings have the same calls, apart from
propagations. -/
theorem Schedules.mem (hcs : Schedules P D cs) (hcs' : Schedules P D cs') :
    ∀ k ∈ cs', k ∈ cs ∨ k = .fixpoint := by
  intro k hk
  obtain ⟨n, hperm⟩ := hcs
  obtain ⟨n', hperm'⟩ := hcs'
  rcases List.mem_append.1 (hperm'.mem_iff.1 hk) with hk | hk
  · exact .inl (hperm.mem_iff.2 (List.mem_append_left _ hk))
  · exact .inr (List.eq_of_mem_replicate hk)

omit [Propagator ν π] in
theorem Schedules.builds (hcs : Schedules P D cs) (hP : ∀ c ∈ P, c.Distinct ∧ c.Fits S)
    (hD : ∀ x ∈ D, ∃ E, S x.1 = some E ∧ E.Accepts x.2) : ∀ k ∈ cs, k.Builds S := by
  intro k hk
  obtain ⟨n, hperm⟩ := hcs
  rcases List.mem_append.1 (hperm.mem_iff.1 hk) with hk | hk
  · rcases List.mem_append.1 hk with hk | hk
    · obtain ⟨c, hc, rfl⟩ := List.mem_map.1 hk
      exact .post (hP c hc).1 (hP c hc).2
    · obtain ⟨x, hx, rfl⟩ := List.mem_map.1 hk
      obtain ⟨E, hE, ha⟩ := hD x hx
      exact .narrow hE ha
  · cases List.eq_of_mem_replicate hk
    exact .fixpoint

/-- On variables created with `shapes`, let distinct and fitting constraints `P` be posted and
accepted narrowings `D` be applied in two orders `cs` and `cs'`, each with a propagation at the end
and with nothing after a contradiction. Unless an integer overflows, no call faults, and either both
attempts meet a contradiction or neither does, and then all variables have the same snapshots. -/
theorem Session.confluent {shapes : List Shape} {marks : Array Mark}
    {s : Session ν (Constraint ⊕ π)} {xs : List (Step ν (Constraint ⊕ π))}
    (hrun : Session.run (shapes.map .create) ⟨.empty, marks⟩ = .ok xs s)
    (hP : ∀ c ∈ P, c.Distinct ∧ c.Fits (Shape.scene shapes))
    (hD : ∀ x ∈ D, ∃ d, shapes[x.1.id]? = some d ∧ d.dom.Accepts x.2)
    (hcs : Schedules P D cs) (hcs' : Schedules P D cs')
    (hover : ∀ t, Session.attempt (cs ++ [.fixpoint]) s ≠ .error .overflow t)
    (hover' : ∀ t, Session.attempt (cs' ++ [.fixpoint]) s ≠ .error .overflow t) :
    ∃ b t t', Session.attempt (cs ++ [.fixpoint]) s = .ok b t ∧
      Session.attempt (cs' ++ [.fixpoint]) s = .ok b t' ∧
      (b = true → ∀ v, t'.model.store.snapshot v = t.model.store.snapshot v) := by
  obtain ⟨hsteady, hnone, -, hscene⟩ := Session.created hrun
  rw [← hscene] at hP
  have hD : ∀ x ∈ D, ∃ E, s.model.store.scene x.1 = some E ∧ E.Accepts x.2 := by
    intro x hx
    obtain ⟨d, hd, ha⟩ := hD x hx
    refine ⟨d.dom, ?_, ha⟩
    rw [hscene, Shape.scene, hd]
    rfl
  have hkeeps : Profile.Keeps s.model.store.scene ([] : List (Call (Constraint ⊕ π)))
      s.model.profile := by
    refine Profile.keeps_start (P := s.model.profile) hsteady.minded.ready.valid.store.scene_wf
      fun p => if_neg ?_
    show ¬p < s.model.count
    rw [hnone]
    exact Nat.not_lt_zero p
  have hends := Session.attempt_propagated_ends (hcs.builds hP hD) hsteady hkeeps
  have hends' := Session.attempt_propagated_ends (hcs'.builds hP hD) hsteady hkeeps
  cases hx : Session.attempt (cs ++ [.fixpoint]) s with
  | error f t =>
    cases hends.of_error hx
    exact absurd hx (hover t)
  | ok b t =>
    cases hx' : Session.attempt (cs' ++ [.fixpoint]) s with
    | error f t' =>
      cases hends'.of_error hx'
      exact absurd hx' (hover' t')
    | ok b' t' =>
      -- what is allowed does not depend on the order
      have hallow : ∀ {G}, Call.Allow cs s.model.store.scene G →
          Call.Allow cs' s.model.store.scene G := fun hG => hG.congr (hcs.mem hcs')
      have hallow' : ∀ {G}, Call.Allow cs' s.model.store.scene G →
          Call.Allow cs s.model.store.scene G := fun hG => hG.congr (hcs'.mem hcs)
      rcases hends.of_ok hx, hends'.of_ok hx' with
        ⟨⟨rfl, hno⟩ | ⟨rfl, hs, hdead, hfound, hgreatest⟩,
          ⟨rfl, hno'⟩ | ⟨rfl, hs', hdead', hfound', hgreatest'⟩⟩
      · exact ⟨false, t, t', rfl, rfl, nofun⟩
      · exact absurd (hallow' hfound') (hno _)
      · exact absurd (hallow hfound) (hno' _)
      · refine ⟨true, t, t', rfl, rfl, fun _ v => Store.snapshot_congr hs hs' (congrFun ?_ v)⟩
        exact (hgreatest _ (hallow' hfound')).antisymm_of_within (hgreatest' _ (hallow hfound))
          hfound'.within hdead' hfound.within hdead

end

/-- All is posted and narrowed before it is propagated, or each constraint is propagated by itself.
-/
theorem Session.confluent_early_late :
    ∃ (xs : List (Step Unit (Constraint ⊕ NotEqual)))
      (s t t' : Session Unit (Constraint ⊕ NotEqual)),
      Session.run [.create (.interval 0 1), .create (.interval 0 1), .create (.digraphs 1),
        .create (.subsets 1)] ⟨.empty, #[]⟩ = .ok xs s ∧
      Session.attempt [.post (.inl (.notEqual (.of ⟨0⟩ ⟨1⟩))),
        .post (.inl (.graphChannel (.of ⟨2⟩ [⟨3⟩]))), .narrow ⟨0⟩ (.fix 1) .decision,
        .narrow ⟨3⟩ (.addToKernel 0) .decision, .fixpoint] s = .ok true t ∧
      Session.attempt [.narrow ⟨3⟩ (.addToKernel 0) .decision, .fixpoint,
        .post (.inl (.graphChannel (.of ⟨2⟩ [⟨3⟩]))), .fixpoint, .narrow ⟨0⟩ (.fix 1) .decision,
        .post (.inl (.notEqual (.of ⟨0⟩ ⟨1⟩))), .fixpoint] s = .ok true t' ∧
      ∀ v, t'.model.store.snapshot v = t.model.store.snapshot v := by
  obtain ⟨xs, s, hrun, htest⟩ := Session.exists_run
    [.create (.interval 0 1), .create (.interval 0 1), .create (.digraphs 1),
      .create (.subsets 1)]
    (⟨.empty, #[]⟩ : Session Unit (Constraint ⊕ NotEqual))
    (fun s =>
      passes (Session.attempt [.post (.inl (.notEqual (.of ⟨0⟩ ⟨1⟩))),
        .post (.inl (.graphChannel (.of ⟨2⟩ [⟨3⟩]))), .narrow ⟨0⟩ (.fix 1) .decision,
        .narrow ⟨3⟩ (.addToKernel 0) .decision, .fixpoint]) s (fun b _ => b) &&
      passes (Session.attempt [.narrow ⟨3⟩ (.addToKernel 0) .decision, .fixpoint,
        .post (.inl (.graphChannel (.of ⟨2⟩ [⟨3⟩]))), .fixpoint, .narrow ⟨0⟩ (.fix 1) .decision,
        .post (.inl (.notEqual (.of ⟨0⟩ ⟨1⟩))), .fixpoint]) s fun b _ => b)
    (by decide +kernel)
  obtain ⟨hearly, hlate⟩ := (Bool.and_eq_true _ _).mp htest
  obtain ⟨b, t, hx, rfl⟩ := exists_of_passes hearly
  obtain ⟨b', t', hx', rfl⟩ := exists_of_passes hlate
  have hfits : ∀ c ∈ [Constraint.notEqual (.of ⟨0⟩ ⟨1⟩), .graphChannel (.of ⟨2⟩ [⟨3⟩])],
      c.Distinct ∧ c.Fits (Shape.scene [.interval 0 1, .interval 0 1, .digraphs 1,
        .subsets 1]) := by
    intro c hc
    simp only [List.mem_cons, List.not_mem_nil, or_false] at hc
    rcases hc with rfl | rfl
    · exact ⟨trivial, ⟨_, rfl⟩, _, rfl⟩
    · refine ⟨List.nodup_singleton _, ⟨_, rfl⟩, fun i set hi => ?_⟩
      cases i with
      | zero =>
        cases hi
        exact ⟨⟨_, rfl⟩, ⟨_, rfl⟩, Nat.one_pos⟩
      | succ i => cases hi
  obtain ⟨b, u, u', hu, hu', hsame⟩ := @Session.confluent _ _ _
    [.notEqual (.of ⟨0⟩ ⟨1⟩), .graphChannel (.of ⟨2⟩ [⟨3⟩])]
    [(⟨0⟩, .fix 1), (⟨3⟩, .addToKernel 0)]
    [.post (.inl (.notEqual (.of ⟨0⟩ ⟨1⟩))),
      .post (.inl (.graphChannel (.of ⟨2⟩ [⟨3⟩]))), .narrow ⟨0⟩ (.fix 1) .decision,
      .narrow ⟨3⟩ (.addToKernel 0) .decision]
    [.narrow ⟨3⟩ (.addToKernel 0) .decision, .fixpoint,
      .post (.inl (.graphChannel (.of ⟨2⟩ [⟨3⟩]))), .fixpoint, .narrow ⟨0⟩ (.fix 1) .decision,
      .post (.inl (.notEqual (.of ⟨0⟩ ⟨1⟩)))]
    [.interval 0 1, .interval 0 1, .digraphs 1, .subsets 1] #[] s xs hrun hfits
    (by
      intro x hx
      simp only [List.mem_cons, List.not_mem_nil, or_false] at hx
      rcases hx with rfl | rfl
      · exact ⟨_, rfl, trivial⟩
      · exact ⟨_, rfl, Nat.one_pos⟩)
    ⟨0, by decide⟩ ⟨2, by decide⟩ (fun u hu => nomatch hx.symm.trans hu)
    fun u hu => nomatch hx'.symm.trans hu
  cases hx.symm.trans hu
  cases hx'.symm.trans hu'
  exact ⟨xs, s, t, t', hrun, hx, hx', hsame rfl⟩

end Propagation
