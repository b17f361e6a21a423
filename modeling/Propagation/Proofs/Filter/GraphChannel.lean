import Propagation.Constraint.GraphChannel
import Propagation.Proofs.Filter.Decide

/-!
# Complete filtering of channels

A scene is stable for a channel if, for each node, the kernel of its set is the kernel of its
successors, and likewise for the envelopes. Sweeping a row makes it so for that row
(`sweepRow_filters`); where no two nodes have the same set it undoes nothing of the other rows, so
sweeping all of them makes the scene stable.
-/

set_option autoImplicit false

namespace Propagation.GraphChannel

open Update Store Scene Propagation.Action

/-! ## What is to be reached -/

/-- The values in the kernel and in the envelope of `set` are the heads of the arcs from the node
`i` of `g`. -/
def Agrees (S : Scene) (g : Var) (i : Nat) (set : Var) : Prop :=
  ∀ j, (InKernel S set (.value j) ↔ InKernel S g (.arc i j)) ∧
    (InEnvelope S set (.value j) ↔ InEnvelope S g (.arc i j))

def Stable (c : GraphChannel) (S : Scene) : Prop :=
  ∀ i set, c.sets[i]? = some set → Agrees S c.graph i set

/-- `set` is a set, and `i` a node of the graph `g`. -/
def TypedRow (S : Scene) (g : Var) (i : Nat) (set : Var) : Prop :=
  (∃ n b, S set = some (.set n b)) ∧ ∃ n b, S g = some (.graph n b) ∧ i < n

def Typed (c : GraphChannel) (S : Scene) : Prop :=
  ∀ i set, c.sets[i]? = some set → TypedRow S c.graph i set

/-- `set` ranges over the `n` nodes of the graph `g`, of which `i` is one. -/
structure FitsRow (n : Nat) (S : Scene) (g : Var) (i : Nat) (set : Var) : Prop where
  graph : ∃ b, S g = some (.graph n b)
  set : ∃ b, S set = some (.set n b)
  lt : i < n

def Fits (c : GraphChannel) (S : Scene) : Prop :=
  (∃ b, S c.graph = some (.graph c.sets.size b)) ∧
    ∀ i set, c.sets[i]? = some set → FitsRow c.sets.size S c.graph i set

/-- What is required on one side is in the ground set of the other. -/
structure GroundedRow (S : Scene) (g : Var) (i : Nat) (set : Var) : Prop where
  typed : TypedRow S g i set
  value : ∀ j, InKernel S set (.value j) → ∃ D, S g = some D ∧ D.Ground (.arc i j)
  arc : ∀ j, InKernel S g (.arc i j) → ∃ D, S set = some D ∧ D.Ground (.value j)

def Grounded (c : GraphChannel) (S : Scene) : Prop :=
  ∀ i set, c.sets[i]? = some set → GroundedRow S c.graph i set

section
variable {S S' : Scene} {g set v : Var} {i n : Nat} {b : Bounds}

theorem set_of_within (h : Scene.Within S' S) (hv : S v = some (.set n b)) :
    ∃ b', S' v = some (.set n b') ∧ b'.Within b := by
  obtain ⟨C, hC, -, hle⟩ := h v _ hv
  cases C with
  | int vs => exact hle.elim
  | set m b' => exact ⟨b', hle.1 ▸ hC, hle.2⟩
  | graph m b' => exact hle.elim

theorem graph_of_within (h : Scene.Within S' S) (hv : S v = some (.graph n b)) :
    ∃ b', S' v = some (.graph n b') ∧ b'.Within b := by
  obtain ⟨C, hC, -, hle⟩ := h v _ hv
  cases C with
  | int vs => exact hle.elim
  | set m b' => exact hle.elim
  | graph m b' => exact ⟨b', hle.1 ▸ hC, hle.2⟩

theorem isSet_within (h : ∃ n b, S v = some (.set n b)) (hle : Scene.Within S' S) :
    ∃ n b, S' v = some (.set n b) := by
  obtain ⟨n, b, hv⟩ := h
  obtain ⟨b', hv', -⟩ := set_of_within hle hv
  exact ⟨n, b', hv'⟩

theorem TypedRow.within (h : TypedRow S g i set) (hle : Scene.Within S' S) :
    TypedRow S' g i set := by
  obtain ⟨hset, m, b', hg, hi⟩ := h
  obtain ⟨d', hg', -⟩ := graph_of_within hle hg
  exact ⟨isSet_within hset hle, m, d', hg', hi⟩

theorem FitsRow.within (h : FitsRow n S g i set) (hle : Scene.Within S' S) :
    FitsRow n S' g i set := by
  obtain ⟨⟨b, hg⟩, ⟨b', hset⟩, hi⟩ := h
  obtain ⟨d, hset', -⟩ := set_of_within hle hset
  obtain ⟨d', hg', -⟩ := graph_of_within hle hg
  exact ⟨⟨d', hg'⟩, ⟨d, hset'⟩, hi⟩

theorem Fits.within {c : GraphChannel} (h : c.Fits S) (hle : Scene.Within S' S) : c.Fits S' := by
  obtain ⟨⟨b, hg⟩, hrows⟩ := h
  obtain ⟨b', hg', -⟩ := graph_of_within hle hg
  exact ⟨⟨b', hg'⟩, fun i set hset => (hrows i set hset).within hle⟩

theorem Typed.within {c : GraphChannel} (h : c.Typed S) (hle : Scene.Within S' S) : c.Typed S' :=
  fun i set hset => (h i set hset).within hle

theorem FitsRow.typed (h : FitsRow n S g i set) : TypedRow S g i set := by
  obtain ⟨⟨b, hg⟩, ⟨b', hset⟩, hi⟩ := h
  exact ⟨⟨n, b', hset⟩, n, b, hg, hi⟩

/-- A value in the envelope of `set` is a node. -/
theorem FitsRow.value_lt (h : FitsRow n S g i set) (hwf : ∀ v D, S v = some D → D.Wf) {j : Nat}
    (hj : InEnvelope S set (.value j)) : j < n := by
  obtain ⟨b, hset⟩ := h.set
  have hb : b.Wf (Element.OfSet n) := hwf _ _ hset
  exact hb.ground _ ((inEnvelope_iff hset).1 hj)

theorem FitsRow.target_lt (h : FitsRow n S g i set) (hwf : ∀ v D, S v = some D → D.Wf) {j : Nat}
    (hj : InEnvelope S g (.arc i j)) : j < n := by
  obtain ⟨b, hg⟩ := h.graph
  have hb : b.Wf (Element.OfGraph n) := hwf _ _ hg
  exact (hb.ground _ ((inEnvelope_iff hg).1 hj)).2

theorem Fits.arc_lt {c : GraphChannel} (h : c.Fits S) (hwf : ∀ v D, S v = some D → D.Wf)
    {j : Nat} (hj : InEnvelope S c.graph (.arc i j)) : i < c.sets.size ∧ j < c.sets.size := by
  obtain ⟨b, hg⟩ := h.1
  have hb : b.Wf (Element.OfGraph c.sets.size) := hwf _ _ hg
  exact hb.ground _ ((inEnvelope_iff hg).1 hj)

theorem FitsRow.ground_value (h : FitsRow n S g i set) {j : Nat} (hj : j < n) :
    ∃ D, S set = some D ∧ D.Ground (.value j) := by
  obtain ⟨b, hset⟩ := h.set
  exact ⟨_, hset, hj⟩

theorem FitsRow.ground_arc (h : FitsRow n S g i set) {j : Nat} (hj : j < n) :
    ∃ D, S g = some D ∧ D.Ground (.arc i j) := by
  obtain ⟨b, hg⟩ := h.graph
  exact ⟨_, hg, h.lt, hj⟩

theorem ground_of_inEnvelope {e : Element} (hwf : ∀ v D, S v = some D → D.Wf)
    (he : InEnvelope S v e) : ∃ D, S v = some D ∧ D.Ground e := by
  obtain ⟨D, hv, he⟩ := he
  exact ⟨D, hv, (hwf v D hv).ground he⟩

theorem ground_of_within {e : Element} (h : ∃ D, S v = some D ∧ D.Ground e)
    (hle : Scene.Within S' S) : ∃ D, S' v = some D ∧ D.Ground e := by
  obtain ⟨D, hv, he⟩ := h
  obtain ⟨C, hC, -, hCD⟩ := hle v D hv
  exact ⟨C, hC, (hCD.ground e).2 he⟩

/-- A row stays `GroundedRow` in `S'` if each newly required element is in the ground set of the
other side. -/
theorem GroundedRow.within (h : GroundedRow S g i set) (hle : Scene.Within S' S)
    (hvalue : ∀ j, InKernel S' set (.value j) →
      InKernel S set (.value j) ∨ ∃ D, S g = some D ∧ D.Ground (.arc i j))
    (harc : ∀ j, InKernel S' g (.arc i j) →
      InKernel S g (.arc i j) ∨ ∃ D, S set = some D ∧ D.Ground (.value j)) :
    GroundedRow S' g i set where
  typed := h.typed.within hle
  value j hj := ground_of_within ((hvalue j hj).elim (h.value j) id) hle
  arc j hj := ground_of_within ((harc j hj).elim (h.arc j) id) hle

/-- A set that ranges over the nodes of the graph makes a grounded row. -/
theorem FitsRow.grounded (h : FitsRow n S g i set) (hwf : ∀ v D, S v = some D → D.Wf) :
    GroundedRow S g i set where
  typed := h.typed
  value _ hj := h.ground_arc (h.value_lt hwf (inEnvelope_of_inKernel hwf hj))
  arc _ hj := h.ground_value (h.target_lt hwf (inEnvelope_of_inKernel hwf hj))

end

theorem mem_rows {c : GraphChannel} {i : Nat} {set : Var} :
    (i, set) ∈ c.rows ↔ c.sets[i]? = some set := by
  simp [rows, List.mem_zipIdx_iff_getElem?]

/-! ## One row -/

section
variable {ν σ : Type} {w : Workspace ν σ} {P : Scene → Prop} {fit : Prop} {c : GraphChannel}
  {i n : Nat} {set : Var}

theorem trimSet_filters (hs : w.store.Valid) (hP : ∀ G, P G → Agrees G c.graph i set) (j : Nat)
    (hfit : fit → TypedRow w.store.scene c.graph i set ∧
      ∃ D, w.store.scene set = some D ∧ D.Ground (.value j)) :
    Filters P fit c.cause w (c.trimSet i set j : Action ν σ Unit) fun _ S =>
      Decided w.store.scene (fun _ _ => False)
        (fun u f => (u = set ∧ f = .value j) ∧ ¬InEnvelope w.store.scene c.graph (.arc i j)) S := by
  refine filters_asking (hs.arcInEnvelope_spec c.graph i j) (fun hf => ?_) ?_
  · obtain ⟨-, n, b, hg, -⟩ := (hfit hf).1
    exact ⟨n, b, hg⟩
  rintro ⟨m, b, hg⟩ a ha
  cases a with
  | true =>
    refine filters_pure hs ((decided_self _).congr (fun _ _ => Iff.rfl) fun u f => ?_)
    exact iff_false_intro fun h => h.2 (ha.1 rfl)
  | false =>
    have hout : ¬InEnvelope w.store.scene c.graph (.arc i j) := fun h => nomatch ha.2 h
    refine (filters_removing (e := .value j) hs (Element.isFree_value j)
      (fun G hG hle h => hout ?_)
      fun hf => (hfit hf).2).mono fun _ u _ h => ?_
    · exact hle.inEnvelope (by rw [hg]; nofun) ((hP G hG j).2.1 h)
    · exact h.congr (fun _ _ => Iff.rfl) fun u f => and_iff_left hout

theorem trimGraph_filters (hs : w.store.Valid) (hP : ∀ G, P G → Agrees G c.graph i set) (j : Nat)
    (hfit : fit → TypedRow w.store.scene c.graph i set ∧
      ∃ D, w.store.scene c.graph = some D ∧ D.Ground (.arc i j)) :
    Filters P fit c.cause w (c.trimGraph i set j : Action ν σ Unit) fun _ S =>
      Decided w.store.scene (fun _ _ => False)
        (fun u f => (u = c.graph ∧ f = .arc i j) ∧ ¬InEnvelope w.store.scene set (.value j)) S := by
  refine filters_asking (hs.envelopeContains_spec set j) (fun hf => (hfit hf).1.1) ?_
  rintro ⟨m, b, hset⟩ a ha
  cases a with
  | true =>
    refine filters_pure hs ((decided_self _).congr (fun _ _ => Iff.rfl) fun u f => ?_)
    exact iff_false_intro fun h => h.2 (ha.1 rfl)
  | false =>
    have hout : ¬InEnvelope w.store.scene set (.value j) := fun h => nomatch ha.2 h
    refine (filters_removing (e := .arc i j) hs (Element.isFree_arc i j)
      (fun G hG hle h => hout ?_)
      fun hf => (hfit hf).2).mono fun _ u _ h => ?_
    · exact hle.inEnvelope (by rw [hset]; nofun) ((hP G hG j).2.2 h)
    · exact h.congr (fun _ _ => Iff.rfl) fun u f => and_iff_left hout

/-- The effect of a sweep on a row: both sides agree, and rows with another node and another set
agree iff they did. -/
structure Swept (S : Scene) (g : Var) (i : Nat) (set : Var) (S' : Scene) : Prop where
  agrees : Agrees S' g i set
  others : ∀ i' set', i' ≠ i → set' ≠ set → (Agrees S' g i' set' ↔ Agrees S g i' set')

theorem swept_of_decided {S₀ S₁ S₂ S₃ S₄ : Scene} {g : Var} {js ks ls ms : List Nat}
    (hjs : ∀ j, j ∈ js ↔ InKernel S₀ set (.value j))
    (h₁ : Decided S₀ (fun u f => ∃ j ∈ js, u = g ∧ f = .arc i j) (fun _ _ => False) S₁)
    (hks : ∀ j, j ∈ ks ↔ InKernel S₁ g (.arc i j))
    (h₂ : Decided S₁ (fun u f => ∃ j ∈ ks, u = set ∧ f = .value j) (fun _ _ => False) S₂)
    (hls : ∀ j, j ∈ ls ↔ InEnvelope S₂ set (.value j))
    (h₃ : Decided S₂ (fun _ _ => False) (fun u f => ∃ j ∈ ls, (u = set ∧ f = .value j) ∧
      ¬InEnvelope S₂ g (.arc i j)) S₃)
    (hms : ∀ j, j ∈ ms ↔ InEnvelope S₃ g (.arc i j))
    (h₄ : Decided S₃ (fun _ _ => False) (fun u f => ∃ j ∈ ms, (u = g ∧ f = .arc i j) ∧
      ¬InEnvelope S₃ set (.value j)) S₄) : Swept S₀ g i set S₄ := by
  have hk := fun u f (hf : Element.IsFree f) => (h₄.kernel u f hf).trans
    (or_congr_left ((h₃.kernel u f hf).trans (or_congr_left ((h₂.kernel u f hf).trans
      (or_congr_left (h₁.kernel u f hf))))))
  have he := fun u f (hf : Element.IsFree f) => (h₄.envelope u f hf).trans
    (and_congr_left' ((h₃.envelope u f hf).trans (and_congr_left' ((h₂.envelope u f hf).trans
      (and_congr_left' (h₁.envelope u f hf))))))
  have hval := fun a => Element.isFree_value a
  have harc := fun k a => Element.isFree_arc k a
  refine ⟨fun j => ⟨?_, ?_⟩, fun i' set' hi hset => forall_congr' fun j => ?_⟩
  · rw [hk _ _ (hval j), hk _ _ (harc i j)]
    simp [hjs, hks, h₁.kernel _ _ (harc i j)]
    tauto
  · rw [h₄.envelope _ _ (hval j), h₄.envelope _ _ (harc i j), h₃.envelope _ _ (hval j),
      h₃.envelope _ _ (harc i j)]
    simp [hls, hms, h₃.envelope _ _ (harc i j), h₃.envelope _ _ (hval j)]
    tauto
  · rw [hk _ _ (hval j), hk _ _ (harc i' j), he _ _ (hval j), he _ _ (harc i' j)]
    simp [hi, hset]

/-- The effect of a sweep on the kernels: the arcs from `i` and the values of `set` are required
where one side required them, and nothing else is. -/
structure Copied (S : Scene) (g : Var) (i : Nat) (set : Var) (S' : Scene) : Prop where
  value : ∀ v j, InKernel S' v (.value j) ↔
    InKernel S v (.value j) ∨ v = set ∧ InKernel S g (.arc i j)
  arc : ∀ v k j, InKernel S' v (.arc k j) ↔
    InKernel S v (.arc k j) ∨ (v = g ∧ k = i) ∧ InKernel S set (.value j)

theorem copied_of_decided {S₀ S₁ S₂ S₃ S₄ : Scene} {g : Var} {js ks : List Nat}
    {E₃ E₄ : Var → Element → Prop} (hjs : ∀ j, j ∈ js ↔ InKernel S₀ set (.value j))
    (h₁ : Decided S₀ (fun u f => ∃ j ∈ js, u = g ∧ f = .arc i j) (fun _ _ => False) S₁)
    (hks : ∀ j, j ∈ ks ↔ InKernel S₁ g (.arc i j))
    (h₂ : Decided S₁ (fun u f => ∃ j ∈ ks, u = set ∧ f = .value j) (fun _ _ => False) S₂)
    (h₃ : Decided S₂ (fun _ _ => False) E₃ S₃) (h₄ : Decided S₃ (fun _ _ => False) E₄ S₄) :
    Copied S₀ g i set S₄ := by
  have hk := fun u f (hf : Element.IsFree f) => (h₄.kernel u f hf).trans
    (or_congr_left ((h₃.kernel u f hf).trans (or_congr_left ((h₂.kernel u f hf).trans
      (or_congr_left (h₁.kernel u f hf))))))
  refine ⟨fun v j => ?_, fun v k j => ?_⟩
  · rw [hk _ _ (Element.isFree_value j)]
    simp only [hks, hjs, h₁.kernel _ _ (Element.isFree_arc i j), Element.value.injEq,
      Element.arc.injEq, reduceCtorEq, exists_eq_right_right', exists_eq_right', exists_const,
      and_false, or_false, true_and]
    refine ⟨?_, fun h => h.imp_right fun ⟨hv, hj⟩ => ⟨.inl hj, hv⟩⟩
    rintro (h | ⟨h | h, rfl⟩)
    · exact .inl h
    · exact .inr ⟨rfl, h⟩
    · exact .inl h
  · rw [hk _ _ (Element.isFree_arc k j)]
    simp only [hjs, Element.arc.injEq, ↓existsAndEq, and_true, reduceCtorEq, and_false,
      exists_const, or_false]
    tauto

theorem enforceArcs_filters (hs : w.store.Valid) (hP : ∀ G, P G → Agrees G c.graph i set)
    (hfit : fit → GroundedRow w.store.scene c.graph i set) {js : List Nat}
    (hjs : ∀ j, j ∈ js ↔ InKernel w.store.scene set (.value j)) :
    Filters P fit c.cause w
      (js.forM fun j => discard (Action.apply c.graph (.enforceArc i j) c.cause) : Action ν σ PUnit)
      fun _ S => Decided w.store.scene (fun u f => ∃ j ∈ js, u = c.graph ∧ f = .arc i j)
        (fun _ _ => False) S := by
  refine (filters_deciding (K := fun j u f => u = c.graph ∧ f = .arc i j)
    (E := fun _ _ _ => False) hs fun done j rest u hjs' _ hadv _ => ?_).mono
    fun _ _ _ h => h.congr (fun _ _ => Iff.rfl) (by simp)
  have hj := (hjs j).1 (by simp [hjs'])
  refine filters_enforcing (e := .arc i j) hadv.valid (fun G hG hle => ?_) fun hf => ?_
  · exact ((hP G hG j).1.1 (hle.inKernel (hadv.within.inKernel hj)))
  · exact ground_of_within ((hfit hf).value j hj) hadv.within

theorem enforceValues_filters (hs : w.store.Valid) (hP : ∀ G, P G → Agrees G c.graph i set)
    (hfit : fit → GroundedRow w.store.scene c.graph i set) {js : List Nat}
    (hjs : ∀ j, j ∈ js ↔ InKernel w.store.scene c.graph (.arc i j)) :
    Filters P fit c.cause w
      (js.forM fun j => discard (Action.apply set (.addToKernel j) c.cause) : Action ν σ PUnit)
      fun _ S => Decided w.store.scene (fun u f => ∃ j ∈ js, u = set ∧ f = .value j)
        (fun _ _ => False) S := by
  refine (filters_deciding (K := fun j u f => u = set ∧ f = .value j)
    (E := fun _ _ _ => False) hs fun done j rest u hjs' _ hadv _ => ?_).mono
    fun _ _ _ h => h.congr (fun _ _ => Iff.rfl) (by simp)
  have hj := (hjs j).1 (by simp [hjs'])
  refine filters_enforcing (e := .value j) hadv.valid (fun G hG hle => ?_) fun hf => ?_
  · exact ((hP G hG j).1.2 (hle.inKernel (hadv.within.inKernel hj)))
  · exact ground_of_within ((hfit hf).arc j hj) hadv.within

theorem trimSets_filters (hs : w.store.Valid) (hP : ∀ G, P G → Agrees G c.graph i set)
    (hfit : fit → TypedRow w.store.scene c.graph i set) {js : List Nat}
    (hjs : ∀ j, j ∈ js ↔ InEnvelope w.store.scene set (.value j)) :
    Filters P fit c.cause w (js.forM (c.trimSet i set) : Action ν σ PUnit) fun _ S =>
      Decided w.store.scene (fun _ _ => False) (fun u f => ∃ j ∈ js, (u = set ∧ f = .value j) ∧
        ¬InEnvelope w.store.scene c.graph (.arc i j)) S := by
  refine (filters_deciding (K := fun _ _ _ => False)
    (E := fun j u f => (u = set ∧ f = .value j) ∧ ¬InEnvelope w.store.scene c.graph (.arc i j)) hs
    fun done j rest u hjs' _ hadv hdone => ?_).mono
    fun _ _ _ h => h.congr (by simp) fun _ _ => Iff.rfl
  have hj := (hjs j).1 (by simp [hjs'])
  refine (trimSet_filters hadv.valid hP j fun hf =>
    ⟨(hfit hf).within hadv.within, ground_of_within (ground_of_inEnvelope hs.scene_wf hj)
      hadv.within⟩).mono fun _ _ _ h => ?_
  refine h.congr (fun _ _ => Iff.rfl) fun v f => and_congr_right' (not_congr ?_)
  rw [hdone.envelope _ _ (Element.isFree_arc i j)]
  simp

theorem trimGraphs_filters (hs : w.store.Valid) (hP : ∀ G, P G → Agrees G c.graph i set)
    (hfit : fit → TypedRow w.store.scene c.graph i set) {js : List Nat}
    (hjs : ∀ j, j ∈ js ↔ InEnvelope w.store.scene c.graph (.arc i j)) :
    Filters P fit c.cause w (js.forM (c.trimGraph i set) : Action ν σ PUnit) fun _ S =>
      Decided w.store.scene (fun _ _ => False) (fun u f => ∃ j ∈ js,
        (u = c.graph ∧ f = .arc i j) ∧ ¬InEnvelope w.store.scene set (.value j)) S := by
  refine (filters_deciding (K := fun _ _ _ => False)
    (E := fun j u f => (u = c.graph ∧ f = .arc i j) ∧ ¬InEnvelope w.store.scene set (.value j)) hs
    fun done j rest u hjs' _ hadv hdone => ?_).mono
    fun _ _ _ h => h.congr (by simp) fun _ _ => Iff.rfl
  have hj := (hjs j).1 (by simp [hjs'])
  refine (trimGraph_filters hadv.valid hP j fun hf =>
    ⟨(hfit hf).within hadv.within, ground_of_within (ground_of_inEnvelope hs.scene_wf hj)
      hadv.within⟩).mono fun _ _ _ h => ?_
  refine h.congr (fun _ _ => Iff.rfl) fun v f => and_congr_right' (not_congr ?_)
  rw [hdone.envelope _ _ (Element.isFree_value j)]
  simp

/-- Once the values of `set` have been enforced as arcs, its row is still grounded. -/
theorem GroundedRow.enforced {S S' : Scene} {g : Var} {js : List Nat} (h : GroundedRow S g i set)
    (hwf : ∀ v D, S v = some D → D.Wf) (hjs : ∀ j, j ∈ js ↔ InKernel S set (.value j))
    (hle : Scene.Within S' S)
    (hd : Decided S (fun u f => ∃ j ∈ js, u = g ∧ f = .arc i j) (fun _ _ => False) S') :
    GroundedRow S' g i set := by
  refine h.within hle (fun j hj => ?_) fun j hj => ?_
  · rw [hd.kernel _ _ (Element.isFree_value j)] at hj
    exact hj.imp_right fun ⟨_, _, _, hf⟩ => nomatch hf
  · rw [hd.kernel _ _ (Element.isFree_arc i j)] at hj
    refine hj.imp_right ?_
    rintro ⟨_, hj, -, ⟨⟩⟩
    exact ground_of_inEnvelope hwf (inEnvelope_of_inKernel hwf ((hjs j).1 hj))

theorem sweepRow_filters (hs : w.store.Valid) (hP : ∀ G, P G → Agrees G c.graph i set)
    (hfit : fit → GroundedRow w.store.scene c.graph i set) :
    Filters P fit c.cause w (c.sweepRow i set : Action ν σ Unit) fun _ S =>
      TypedRow S c.graph i set ∧ Swept w.store.scene c.graph i set S ∧
        Copied w.store.scene c.graph i set S := by
  refine filters_asking (hs.kernelValues_spec set) (fun hf => (hfit hf).typed.1)
    fun hset js hjs => ?_
  refine (enforceArcs_filters hs hP hfit hjs).seq fun _ u₁ _ h₁ hd₁ => ?_
  have hfit₁ := fun hf => (hfit hf).enforced hs.scene_wf hjs h₁.within hd₁
  refine filters_asking (h₁.valid.kernelSuccessors_spec c.graph i)
    (fun hf => (hfit₁ hf).typed.2) fun hg ks hks => ?_
  refine (enforceValues_filters h₁.valid hP hfit₁ hks).seq fun _ u₂ _ h₂ hd₂ => ?_
  have hfit₂ := fun hf => (hfit₁ hf).typed.within h₂.within
  refine filters_asking (h₂.valid.envelopeValues_spec set) (fun hf => (hfit₂ hf).1)
    fun _ ls hls => ?_
  refine (trimSets_filters h₂.valid hP hfit₂ hls).seq fun _ u₃ _ h₃ hd₃ => ?_
  have hfit₃ := fun hf => (hfit₂ hf).within h₃.within
  refine filters_asking (h₃.valid.envelopeSuccessors_spec c.graph i)
    (fun hf => (hfit₃ hf).2) fun _ ms hms => ?_
  refine (trimGraphs_filters h₃.valid hP hfit₃ hms).mono fun _ u₄ h₄ hd₄ => ⟨?_, ?_, ?_⟩
  · have htyped : TypedRow u₁.store.scene c.graph i set :=
      ⟨isSet_within hset h₁.within, hg⟩
    exact ((htyped.within h₂.within).within h₃.within).within h₄.within
  · exact swept_of_decided hjs hd₁ hks hd₂ hls hd₃ hms hd₄
  · exact copied_of_decided hjs hd₁ hks hd₂ hd₃ hd₄

/-! ## All rows -/

/-- No two nodes have the same set. -/
def Distinct (c : GraphChannel) : Prop := c.sets.toList.Nodup

/-- No other node than `i` has this `set`. -/
def Sole (c : GraphChannel) (i : Nat) (set : Var) : Prop := ∀ i', c.sets[i']? = some set → i' = i

theorem Distinct.sole (h : c.Distinct) {i : Nat} {set : Var} (hi : c.sets[i]? = some set) :
    c.Sole i set := by
  intro i' hi'
  rw [← Array.getElem?_toList] at hi hi'
  obtain ⟨hlt, hset⟩ := List.getElem?_eq_some_iff.1 hi
  obtain ⟨hlt', hset'⟩ := List.getElem?_eq_some_iff.1 hi'
  exact (List.Nodup.getElem_inj_iff h).1 (hset'.trans hset.symm)

theorem Distinct.ne (h : c.Distinct) {i i' : Nat} {set set' : Var} (hi : c.sets[i]? = some set)
    (hi' : c.sets[i']? = some set') (hne : i' ≠ i) : set' ≠ set := by
  rintro rfl
  exact hne (h.sole hi i' hi')

theorem pairwise_rows (c : GraphChannel) : c.rows.Pairwise fun x y => x.1 ≠ y.1 := by
  have h : (c.rows.map (·.1)).Nodup := by
    have hfst : c.rows.map (·.1) = c.sets.toList.zipIdx.map (·.2) := by
      rw [rows, List.map_map]
      rfl
    rw [hfst, List.zipIdx_map_snd]
    exact List.nodup_range'
  exact List.pairwise_map.1 h

/-- The run lemma of `sweepRow_filters`: after all rows have been swept, each row with a `Sole` set
agrees. -/
theorem sweep_filters (hs : w.store.Valid) (hP : ∀ G, P G → c.Stable G)
    (hfit : fit → c.Fits w.store.scene) :
    Filters P fit c.cause w (c.rows.forM fun x => c.sweepRow x.1 x.2 : Action ν σ PUnit)
      fun _ S => c.Typed S ∧
        ∀ i set, c.sets[i]? = some set → c.Sole i set → Agrees S c.graph i set := by
  refine (filters_forM (I := fun rest S => ∃ done, c.rows = done ++ rest ∧ ∀ x ∈ done,
    TypedRow S c.graph x.1 x.2 ∧ (c.Sole x.1 x.2 → Agrees S c.graph x.1 x.2)) hs
    ⟨[], rfl, nofun⟩ ?_).mono ?_
  · rintro ⟨i, set⟩ rest u - hadv ⟨done, hrows, hdone⟩
    have hmem : ∀ x ∈ done ++ (i, set) :: rest, c.sets[x.1]? = some x.2 :=
      fun x hx => mem_rows.1 (hrows ▸ hx)
    have hset := hmem (i, set) (by simp)
    refine (sweepRow_filters hadv.valid (fun G hG => hP G hG i set hset)
      fun hf => (((hfit hf).within hadv.within).2 i set hset).grounded hadv.valid.scene_wf).mono
      fun _ u' hu' ⟨hty, hswept, _⟩ => ?_
    refine ⟨done ++ [(i, set)], by rw [hrows, List.append_assoc]; rfl, fun x hx => ?_⟩
    rcases List.mem_append.1 hx with hx | hx
    · obtain ⟨htyped, hagrees⟩ := hdone x hx
      refine ⟨htyped.within hu'.within, fun hsole => ?_⟩
      have hpair : (done ++ (i, set) :: rest).Pairwise fun x y => x.1 ≠ y.1 :=
        hrows ▸ c.pairwise_rows
      have hne := (List.pairwise_append.1 hpair).2.2 x hx (i, set) (by simp)
      have hother : x.2 ≠ set := fun heq => hne (hsole i (heq ▸ hset)).symm
      exact (hswept.others x.1 x.2 hne hother).2 (hagrees hsole)
    · obtain rfl := List.mem_singleton.1 hx
      exact ⟨hty, fun _ => hswept.agrees⟩
  · rintro - u - ⟨done, hrows, hdone⟩
    rw [List.append_nil] at hrows
    have hall := fun i set hset => hdone (i, set) (hrows ▸ mem_rows.2 hset)
    exact ⟨fun i set hset => (hall i set hset).1, fun i set hset => (hall i set hset).2⟩

end

end Propagation.GraphChannel
