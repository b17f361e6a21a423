import Propagation.Proofs.Filter.Advance

/-!
# Deciding elements

To enforce or to remove a value or an arc decides that element and no other (`Scene.Decided`): only
nodes are decided along with something else, and nodes are not what is followed here. A loop that
decides an element in each of its steps decides all of them (`Action.filters_deciding`).
-/

set_option autoImplicit false

namespace Propagation

namespace Element

/-- The narrowing that enforces the element. -/
def enforcing : Element → Narrowing
  | .value a => .addToKernel a
  | .node i => .enforceNode i
  | .arc i j => .enforceArc i j

/-- The narrowing that removes the element. -/
def removing : Element → Narrowing
  | .value a => .removeFromEnvelope a
  | .node i => .removeNode i
  | .arc i j => .removeArc i j

/-- `e` is a value or an arc: no other element is decided along with it. -/
def IsFree (e : Element) : Prop := ∀ k, e ≠ .node k

theorem isFree_value (a : Nat) : (Element.value a).IsFree := nofun

theorem isFree_arc (i j : Nat) : (Element.arc i j).IsFree := nofun

theorem IsFree.mem_closure {e f : Element} (he : e.IsFree) : e ∈ f.closure ↔ e = f :=
  ⟨fun h => (Store.eq_of_mem_closure he h).symm, fun h => h ▸ mem_closure_self e⟩

end Element

namespace Dom

variable {D : Dom} {e : Element}

theorem after_enforcing (D : Dom) (e : Element) : D.after e.enforcing = D.enforce e := by
  cases e <;> rfl

theorem after_removing (D : Dom) (e : Element) : D.after e.removing = D.remove e := by
  cases e <;> rfl

theorem accepts_enforcing : D.Accepts e.enforcing ↔ D.Ground e := by
  cases D <;> cases e <;> exact Iff.rfl

theorem accepts_removing : D.Accepts e.removing ↔ D.Ground e := by
  cases D <;> cases e <;> exact Iff.rfl

theorem obeys_enforcing (hD : D.Wf) (he : e ∈ D.kernel) : D.Obeys e.enforcing := by
  rw [Obeys, after_enforcing, enforce_self hD he]

theorem obeys_removing (hD : D.Wf) (hg : D.Ground e) (he : e ∉ D.envelope) :
    D.Obeys e.removing := by
  rw [Obeys, after_removing]
  cases D with
  | int vs => exact hg.elim
  | set n b => exact congrArg (Option.map (Dom.set n)) (Bounds.remove_eq_self hD he)
  | graph n b => exact congrArg (Option.map (Dom.graph n)) (Bounds.remove_eq_self hD he)

end Dom

namespace Scene

variable {S S' S'' : Scene} {v : Var} {e : Element} {D D' : Dom}

/-- Of the values and arcs, those in `K` enter the kernels and those in `E` leave the envelopes.
Everything else is as in `S`. -/
structure Decided (S : Scene) (K E : Var → Element → Prop) (S' : Scene) : Prop where
  kernel : ∀ u f, f.IsFree → (InKernel S' u f ↔ InKernel S u f ∨ K u f)
  envelope : ∀ u f, f.IsFree → (InEnvelope S' u f ↔ InEnvelope S u f ∧ ¬E u f)

variable {K K' E E' : Var → Element → Prop}

theorem decided_self (S : Scene) : Decided S (fun _ _ => False) (fun _ _ => False) S :=
  ⟨fun _ _ _ => by simp, fun _ _ _ => by simp⟩

theorem Decided.trans (h : Decided S K E S') (h' : Decided S' K' E' S'') :
    Decided S (fun u f => K u f ∨ K' u f) (fun u f => E u f ∨ E' u f) S'' where
  kernel u f hf := by rw [h'.kernel u f hf, h.kernel u f hf, or_assoc]
  envelope u f hf := by rw [h'.envelope u f hf, h.envelope u f hf, and_assoc, not_or]

theorem Decided.congr (h : Decided S K E S') (hK : ∀ u f, K' u f ↔ K u f)
    (hE : ∀ u f, E' u f ↔ E u f) : Decided S K' E' S' where
  kernel u f hf := by rw [hK, h.kernel u f hf]
  envelope u f hf := by rw [hE, h.envelope u f hf]

theorem decided_enforce (hv : S v = some D) (h : D.enforce e = some D') :
    Decided S (fun u f => u = v ∧ f = e) (fun _ _ => False)
      (Function.update S v (some D')) where
  kernel u f hf := by rw [inKernel_enforce hv h, hf.mem_closure]
  envelope u f _ := by rw [inEnvelope_enforce hv h]; simp

theorem decided_remove (hv : S v = some D) (he : e.IsFree) (h : D.remove e = some D') :
    Decided S (fun _ _ => False) (fun u f => u = v ∧ f = e)
      (Function.update S v (some D')) where
  kernel u f _ := by rw [inKernel_remove hv h]; simp
  envelope u f _ := by rw [inEnvelope_remove hv h, he.mem_closure, eq_comm (a := e)]

end Scene

namespace Action

open Scene Store

variable {ν σ β : Type} {P : Scene → Prop} {fit : Prop} {c : Cause} {w : Workspace ν σ} {v : Var}
  {e : Element} {S : Scene}

/-- `e.enforcing` is granted if `e` is in the kernel in every scene of `P`. -/
theorem grants_enforcing (hP : ∀ G, P G → Scene.Within G S → InKernel G v e) :
    Grants P S v e.enforcing := by
  intro G hG hle D C _ _ hC hwf _
  exact Dom.obeys_enforcing hwf ((inKernel_iff hC).1 (hP G hG hle))

/-- `e.removing` is granted if `e` is out of the envelope in every scene of `P`. -/
theorem grants_removing (hP : ∀ G, P G → Scene.Within G S → ¬InEnvelope G v e) :
    Grants P S v e.removing := by
  intro G hG hle D C _ ha hC hwf hCD
  exact Dom.obeys_removing hwf ((hCD.ground e).2 (Dom.accepts_removing.1 ha))
    fun he => hP G hG hle ((inEnvelope_iff hC).2 he)

theorem filters_enforcing (hs : w.store.Valid)
    (hP : ∀ G, P G → Scene.Within G w.store.scene → InKernel G v e)
    (hfit : fit → ∃ D, w.store.scene v = some D ∧ D.Ground e) :
    Filters P fit c w (discard (apply v e.enforcing c) : Action ν σ PUnit) fun _ S' =>
      Decided w.store.scene (fun u f => u = v ∧ f = e) (fun _ _ => False) S' := by
  refine (filters_narrowing hs (grants_enforcing hP) fun hf => ?_).mono ?_
  · obtain ⟨D, hD, hg⟩ := hfit hf
    exact ⟨D, hD, Dom.accepts_enforcing.2 hg⟩
  · rintro - u - ⟨D, D', hD, -, hn, hscene⟩
    rw [Dom.after_enforcing] at hn
    exact hscene ▸ decided_enforce hD hn

theorem filters_removing (hs : w.store.Valid) (he : e.IsFree)
    (hP : ∀ G, P G → Scene.Within G w.store.scene → ¬InEnvelope G v e)
    (hfit : fit → ∃ D, w.store.scene v = some D ∧ D.Ground e) :
    Filters P fit c w (discard (apply v e.removing c) : Action ν σ PUnit) fun _ S' =>
      Decided w.store.scene (fun _ _ => False) (fun u f => u = v ∧ f = e) S' := by
  refine (filters_narrowing hs (grants_removing hP) fun hf => ?_).mono ?_
  · obtain ⟨D, hD, hg⟩ := hfit hf
    exact ⟨D, hD, Dom.accepts_removing.2 hg⟩
  · rintro - u - ⟨D, D', hD, -, hn, hscene⟩
    rw [Dom.after_removing] at hn
    exact hscene ▸ decided_remove hD he hn

/-- A query that answers by `R` if `T` holds and is a violation otherwise, in front of a filtering
action. -/
theorem filters_asking {α : Type} {q : Store → Except Fault β} {f : β → Action ν σ α}
    {post : α → Scene → Prop} {T : Prop} {R : β → Prop}
    (hq : (T ∧ ∃ a, q w.store = .ok a ∧ R a) ∨ ¬T ∧ ∃ k, q w.store = .error (.violation k))
    (hfit : fit → T) (hok : T → ∀ a, R a → Filters P fit c w (f a) post) :
    Filters P fit c w (query q >>= f) post := by
  rcases hq with ⟨hT, a, ha, hR⟩ | ⟨hno, k, hk⟩
  · refine filters_ask (fun b hb => ?_) fun e he => ?_
    · cases ha.symm.trans hb
      exact hok hT a hR
    · cases ha.symm.trans he
  · refine filters_ask (fun b hb => ?_) fun e _ hf => absurd (hfit hf) hno
    cases hk.symm.trans hb

/-- If each step decides `K x` and `E x` after the elements of the steps before it, the loop over
`xs` decides the unions. -/
theorem filters_deciding {f : β → Action ν σ PUnit} {K E : β → Var → Element → Prop} {xs : List β}
    (hs : w.store.Valid)
    (hstep : ∀ done x rest u, xs = done ++ x :: rest → u.own = w.own →
      Advance P w.store c u.store →
      Decided w.store.scene (fun v e => ∃ y ∈ done, K y v e) (fun v e => ∃ y ∈ done, E y v e)
        u.store.scene →
      Filters P fit c u (f x) fun _ S => Decided u.store.scene (K x) (E x) S) :
    Filters P fit c w (xs.forM f) fun _ S =>
      Decided w.store.scene (fun v e => ∃ x ∈ xs, K x v e) (fun v e => ∃ x ∈ xs, E x v e) S := by
  refine (filters_forM (I := fun rest S => ∃ done, xs = done ++ rest ∧
      Decided w.store.scene (fun v e => ∃ y ∈ done, K y v e) (fun v e => ∃ y ∈ done, E y v e) S) hs
    ⟨[], rfl, (decided_self _).congr (by simp) (by simp)⟩ ?_).mono ?_
  · rintro x rest u hown hadv ⟨done, hxs, hdone⟩
    refine (hstep done x rest u hxs hown hadv hdone).mono fun _ S _ hx => ?_
    refine ⟨done ++ [x], by rw [hxs, List.append_assoc]; rfl, (hdone.trans hx).congr ?_ ?_⟩ <;>
      · intro v e
        simp only [List.mem_append, List.mem_singleton, or_and_right, exists_or, exists_eq_left]
  · rintro - u - ⟨done, hxs, hdone⟩
    rw [List.append_nil] at hxs
    exact hxs ▸ hdone

end Action

end Propagation
