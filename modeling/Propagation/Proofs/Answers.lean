import Propagation.Proofs.Sweep
import Propagation.Proofs.Solutions

/-!
# What the answers mean

A constraint that answers that it is entailed holds of every assignment that the domains admit, and
one that answers that it is violated holds of none (`Entailment.Sound`). The other way round:

* a disequality between two variables misses neither case;
* a channel with a set of its own for each node does not miss that it is violated: if no row
  clashes, the arcs that one of the sides requires (`GraphChannel.Required`) can be all the arcs.
-/

set_option autoImplicit false

namespace Propagation

open Scene

/-! ## Assignments within domains -/

/-- A well-formed domain admits some proper value. -/
theorem Dom.Wf.exists_admits {D : Dom} (h : D.Wf) : ∃ x, D.Admits x ∧ x.IsProper := by
  cases D with
  | int vs =>
    obtain ⟨a, ha⟩ : vs.Nonempty := h
    exact ⟨.int a, ha, trivial⟩
  | set n b =>
    refine ⟨.set fun a => .value a ∈ b.kernel, ⟨fun e he => ?_, fun e he => ?_⟩, trivial⟩
    · cases e with
      | value a => exact he
      | node i => exact (h.ground (h.kernel_subset he)).elim
      | arc i j => exact (h.ground (h.kernel_subset he)).elim
    · cases e with
      | value a => exact h.kernel_subset he
      | node i => exact he.elim
      | arc i j => exact he.elim
  | graph n b =>
    refine ⟨.graph (fun i => .node i ∈ b.kernel) fun i j => .arc i j ∈ b.kernel,
      ⟨fun e he => ?_, fun e he => ?_⟩, fun i j hij => ?_⟩
    · cases e with
      | value a => exact (h.ground (h.kernel_subset he)).elim
      | node i => exact he
      | arc i j => exact he
    · cases e with
      | value a => exact he.elim
      | node i => exact h.kernel_subset he
      | arc i j => exact h.kernel_subset he
    · have hends := h.kernel_closed hij
      exact ⟨hends (by simp [Element.closure]), hends (by simp [Element.closure])⟩

/-- If every domain admits a proper value with `P`, the store admits an assignment of such values.
-/
theorem Store.Valid.exists_admits {s : Store} (hs : s.Valid) {P : Var → Value → Prop}
    (h : ∀ v D, s.scene v = some D → ∃ x, D.Admits x ∧ x.IsProper ∧ P v x) :
    ∃ f, s.Admits f ∧ ∀ v, s.scene v ≠ none → P v (f v) := by
  have hall : ∀ v, ∃ x : Value, ∀ D, s.scene v = some D → D.Admits x ∧ x.IsProper ∧ P v x := by
    intro v
    cases hv : s.scene v with
    | none => exact ⟨.int 0, nofun⟩
    | some D =>
      obtain ⟨x, hx⟩ := h v D hv
      exact ⟨x, fun E hE => Option.some.inj hE ▸ hx⟩
  choose f hf using hall
  refine ⟨f, hs.admits_iff.2 fun v D hv => ⟨(hf v D hv).1, (hf v D hv).2.1⟩, fun v hv => ?_⟩
  obtain ⟨D, hD⟩ := Option.ne_none_iff_exists'.1 hv
  exact (hf v D hD).2.2

/-- A variable whose values `s.ints v` can be read has an integer domain in the scene. -/
theorem Store.Valid.int_of_ints {s : Store} {v : Var} (hs : s.Valid) (h : ∃ r, s.ints v = .ok r) :
    ∃ vs, s.scene v = some (.int vs) := by
  obtain ⟨r, hr⟩ := h
  by_contra hno
  obtain ⟨k, hk⟩ := hs.ints_error (v := v) fun D hD hkind => by
    obtain ⟨vs, rfl⟩ := Dom.kindOf_eq_int hkind
    exact hno ⟨vs, hD⟩
  cases hr.symm.trans hk

section
variable {s : Store} {f : Assignment} {v : Var} (hs : s.Valid) (hf : s.Admits f)
include hs hf

/-- An assignment that the store admits gives an integer variable one of its values. -/
theorem Store.Valid.int_of_admits {vs : Finset Int} (hv : s.scene v = some (.int vs)) :
    ∃ a ∈ vs, f v = .int a := by
  have hadm := (hs.admits_iff.1 hf v _ hv).1
  cases hx : f v with
  | int a => exact ⟨a, by rwa [hx] at hadm, rfl⟩
  | set members => exact (hx ▸ hadm : (Dom.int vs).Admits (.set members)).elim
  | graph nodes arcs => exact (hx ▸ hadm : (Dom.int vs).Admits (.graph nodes arcs)).elim

theorem Store.Valid.set_of_admits {n : Nat} {b : Bounds} (hv : s.scene v = some (.set n b)) :
    ∃ members, f v = .set members := by
  have hadm := (hs.admits_iff.1 hf v _ hv).1
  cases hx : f v with
  | int a => exact (hx ▸ hadm : (Dom.set n b).Admits (.int a)).elim
  | set members => exact ⟨members, rfl⟩
  | graph nodes arcs => exact (hx ▸ hadm : (Dom.set n b).Admits (.graph nodes arcs)).elim

theorem Store.Valid.graph_of_admits {n : Nat} {b : Bounds} (hv : s.scene v = some (.graph n b)) :
    ∃ nodes arcs, f v = .graph nodes arcs := by
  have hadm := (hs.admits_iff.1 hf v _ hv).1
  cases hx : f v with
  | int a => exact (hx ▸ hadm : (Dom.graph n b).Admits (.int a)).elim
  | set members => exact (hx ▸ hadm : (Dom.graph n b).Admits (.set members)).elim
  | graph nodes arcs => exact ⟨nodes, arcs, rfl⟩

theorem Store.Valid.assigned_wf (v : Var) (C : Dom) (hC : s.assigned f v = some C) : C.Wf := by
  obtain ⟨D, hD, -⟩ := Option.map_eq_some_iff.1 hC
  obtain ⟨C', hC', hwf, -⟩ := hs.assigned_within hf v D hD
  cases hC.symm.trans hC'
  exact hwf

end

/-- The answer `a` is true of all assignments that `s` admits. -/
structure Entailment.Sound (a : Entailment) (s : Store) (holds : Assignment → Prop) : Prop where
  entailed : a = .entailed → ∀ f, s.Admits f → holds f
  violated : a = .violated → ∀ f, s.Admits f → ¬holds f

/-! ## Disequalities -/

namespace NotEqual

variable {c : NotEqual} {s : Store} {vs ws : Finset Int} {f : Assignment}

theorem verdict_eq_violated (hv : vs.Nonempty) (hw : ws.Nonempty) :
    verdict vs ws = .violated ↔ ∀ k l, k ∈ vs → l ∈ ws → k = l := by
  obtain ⟨a, ha⟩ := hv
  obtain ⟨b, hb⟩ := hw
  unfold verdict
  split
  · next hd =>
    exact iff_of_false (by rintro ⟨⟩) fun h =>
      Finset.disjoint_left.1 hd ha (h a b ha hb ▸ hb)
  · next hd =>
    obtain ⟨k, hkv, hkw⟩ := Finset.not_disjoint_iff.1 hd
    split
    · next hcard =>
      obtain ⟨⟨x, rfl⟩, y, rfl⟩ := hcard.imp Finset.card_eq_one.1 Finset.card_eq_one.1
      refine iff_of_true rfl fun i j hi hj => ?_
      rw [Finset.mem_singleton] at hkv hkw hi hj
      rw [hi, hj, ← hkv, ← hkw]
    · next hcard =>
      refine iff_of_false (by rintro ⟨⟩) fun h => hcard ⟨?_, ?_⟩
      · exact Finset.card_eq_one.2 ⟨k, Finset.eq_singleton_iff_unique_mem.2
          ⟨hkv, fun i hi => h i k hi hkw⟩⟩
      · exact Finset.card_eq_one.2 ⟨k, Finset.eq_singleton_iff_unique_mem.2
          ⟨hkw, fun j hj => (h k j hkv hj).symm⟩⟩

theorem verdict_sound (hs : s.Valid) (hx : s.scene c.x = some (.int vs))
    (hy : s.scene c.y = some (.int ws)) : (verdict vs ws).Sound s c.Holds where
  entailed h f hf := by
    obtain ⟨a, ha, hfx⟩ := hs.int_of_admits hf hx
    obtain ⟨b, hb, hfy⟩ := hs.int_of_admits hf hy
    refine ⟨a, b, hfx, hfy, ?_⟩
    rintro rfl
    exact Finset.disjoint_left.1 (verdict_eq_entailed.1 h) ha hb
  violated h f hf := by
    obtain ⟨a, ha, hfx⟩ := hs.int_of_admits hf hx
    obtain ⟨b, hb, hfy⟩ := hs.int_of_admits hf hy
    rintro ⟨a', b', hfx', hfy', hne⟩
    cases hfx.symm.trans hfx'
    cases hfy.symm.trans hfy'
    exact hne ((verdict_eq_violated ⟨a, ha⟩ ⟨b, hb⟩).1 h a b ha hb)

end NotEqual

/-! ## Channels -/

namespace GraphChannel

variable {c : GraphChannel} {s : Store} {S : Scene} {i j : Nat} {set : Var} {a : Entailment}
  {f : Assignment}

theorem typed_of_nodeCount (hs : s.Valid) (hcount : s.nodeCount c.graph = .ok c.sets.size)
    (hsets : ∀ set ∈ c.sets, ∃ l, s.elements set = .ok l) :
    (∃ b, s.scene c.graph = some (.graph c.sets.size b)) ∧ c.Typed s.scene := by
  obtain ⟨n, b, hgraph⟩ := hs.graph_of_nodeCount hcount
  rw [hs.nodeCount_eq hgraph] at hcount
  cases hcount
  refine ⟨⟨b, hgraph⟩, fun i set hset => ⟨?_, _, b, hgraph, (Array.getElem?_eq_some_iff.1 hset).1⟩⟩
  obtain ⟨l, hl⟩ := hsets set (Array.mem_of_getElem? hset)
  rcases hs.isSet_or set with hset | ⟨-, k, hk⟩
  · exact hset
  · cases hl.symm.trans hk

/-- A channel fits the scene if the ground set of each of its sets has as many values as the graph
has nodes. -/
theorem fits_of_groundSize (hs : s.Valid) (hcount : s.nodeCount c.graph = .ok c.sets.size)
    (hsets : ∀ set ∈ c.sets, s.groundSize set = .ok c.sets.size) : c.Fits s.scene := by
  obtain ⟨hgraph, htyped⟩ := typed_of_nodeCount hs hcount fun set hset =>
    (Checked.exists_of_bind_eq_ok (hsets set hset)).imp fun _ h => h.1
  refine ⟨hgraph, fun i set hset => ?_⟩
  obtain ⟨⟨n, b, hv⟩, -⟩ := htyped i set hset
  cases (hs.groundSize_eq hv).symm.trans (hsets set (Array.mem_of_getElem? hset))
  exact ⟨hgraph, ⟨b, hv⟩, (Array.getElem?_eq_some_iff.1 hset).1⟩

/-- The arc `i → j` is in the kernel of the graph, or `j` in that of the set of `i`. -/
def Required (c : GraphChannel) (S : Scene) (i j : Nat) : Prop :=
  InKernel S c.graph (.arc i j) ∨ ∃ set, c.sets[i]? = some set ∧ InKernel S set (.value j)

/-- If no row clashes, a required arc is in the envelopes of both sides. -/
theorem Required.possible (hwf : ∀ v D, S v = some D → D.Wf)
    (hno : ∀ i set, c.sets[i]? = some set → ¬Clashes S c.graph i set) (h : c.Required S i j) :
    InEnvelope S c.graph (.arc i j) ∧
      ∀ set, c.sets[i]? = some set → InEnvelope S set (.value j) := by
  rcases h with hj | ⟨set, hset, hj⟩
  · exact ⟨inEnvelope_of_inKernel hwf hj, fun set hset => not_not.1 fun hout =>
      hno i set hset ⟨j, .inr ⟨hj, hout⟩⟩⟩
  · refine ⟨not_not.1 fun hout => hno i set hset ⟨j, .inl ⟨hj, hout⟩⟩, fun set' hset' => ?_⟩
    cases hset.symm.trans hset'
    exact inEnvelope_of_inKernel hwf hj

/-- If no row clashes, the digraph of the required arcs, on all nodes that are left, is a proper
value of the graph. -/
theorem admits_required_graph {n : Nat} {b : Bounds} (hwf : ∀ v D, S v = some D → D.Wf)
    (hno : ∀ i set, c.sets[i]? = some set → ¬Clashes S c.graph i set)
    (hgraph : S c.graph = some (.graph n b)) :
    (Dom.graph n b).Admits (.graph (fun i => .node i ∈ b.envelope) (c.Required S)) ∧
      (Value.graph (fun i => .node i ∈ b.envelope) (c.Required S)).IsProper := by
  have hD := hwf _ _ hgraph
  have hposs : ∀ {i j}, c.Required S i j → .arc i j ∈ b.envelope := fun h =>
    (inEnvelope_iff hgraph).1 (h.possible hwf hno).1
  refine ⟨⟨fun e he => ?_, fun e he => ?_⟩, fun i j hij => ?_⟩
  · cases e with
    | value a => exact (hD.ground (hD.kernel_subset he)).elim
    | node i => exact hD.kernel_subset he
    | arc i j => exact .inl ((inKernel_iff hgraph).2 he)
  · cases e with
    | value a => exact he.elim
    | node i => exact he
    | arc i j => exact hposs he
  · have hends := hD.envelope_closed (hposs hij)
    exact ⟨hends (by simp [Element.closure]), hends (by simp [Element.closure])⟩

/-- If no row clashes, the required successors of `i` are a value of its set. -/
theorem admits_required_set {n : Nat} {b : Bounds} (hwf : ∀ v D, S v = some D → D.Wf)
    (hno : ∀ i set, c.sets[i]? = some set → ¬Clashes S c.graph i set)
    (hi : c.sets[i]? = some set) (hset : S set = some (.set n b)) :
    (Dom.set n b).Admits (.set (c.Required S i)) := by
  have hD := hwf _ _ hset
  refine ⟨fun e he => ?_, fun e he => ?_⟩
  · cases e with
    | value a => exact .inr ⟨set, hi, (inKernel_iff hset).2 he⟩
    | node i => exact (hD.ground (hD.kernel_subset he)).elim
    | arc i j => exact (hD.ground (hD.kernel_subset he)).elim
  · cases e with
    | value a => exact (inEnvelope_iff hset).1 ((Required.possible hwf hno he).2 set hi)
    | node i => exact he.elim
    | arc i j => exact he.elim

/-- If no row clashes and no set occurs twice (`c.Distinct`), the store admits an assignment of
which `c` holds. -/
theorem exists_holds (hs : s.Valid) (hgraph : ∃ n b, s.scene c.graph = some (.graph n b))
    (htyped : c.Typed s.scene) (hd : c.Distinct)
    (hno : ∀ i set, c.sets[i]? = some set → ¬Clashes s.scene c.graph i set) :
    ∃ f, s.Admits f ∧ c.Holds f := by
  obtain ⟨n, b, hgraph⟩ := hgraph
  obtain ⟨f, hadm, hf⟩ := hs.exists_admits (P := fun v x =>
    (v = c.graph → x = .graph (fun i => .node i ∈ b.envelope) (c.Required s.scene)) ∧
      ∀ i : Nat, c.sets[i]? = some v → x = .set (c.Required s.scene i)) fun v D hv => by
    by_cases hvg : v = c.graph
    · subst hvg
      cases hv.symm.trans hgraph
      obtain ⟨hin, hproper⟩ := admits_required_graph hs.scene_wf hno hgraph
      refine ⟨_, hin, hproper, fun _ => rfl, fun i hi => ?_⟩
      obtain ⟨⟨m, d, hset⟩, -⟩ := htyped i _ hi
      cases hset.symm.trans hgraph
    · by_cases hmem : ∃ i : Nat, c.sets[i]? = some v
      · obtain ⟨i, hi⟩ := hmem
        obtain ⟨⟨m, d, hset⟩, -⟩ := htyped i v hi
        cases hv.symm.trans hset
        exact ⟨_, admits_required_set hs.scene_wf hno hi hset, trivial, fun h => absurd h hvg,
          fun k hk => hd.sole hi k hk ▸ rfl⟩
      · obtain ⟨x, hx, hproper⟩ := (hs.wf hv).exists_admits
        exact ⟨x, hx, hproper, fun h => absurd h hvg, fun i hi => absurd ⟨i, hi⟩ hmem⟩
  have hlive : ∀ (i : Nat) (set : Var), c.sets[i]? = some set → s.scene set ≠ none := by
    intro i set hset
    obtain ⟨⟨m, d, hv⟩, -⟩ := htyped i set hset
    rw [hv]
    exact Option.some_ne_none _
  have hg := (hf c.graph (by rw [hgraph]; nofun)).1 rfl
  exact ⟨f, hadm, _, _, hg, fun i set hset =>
    ⟨_, (hf set (hlive i set hset)).2 i hset, fun j => Iff.rfl⟩⟩

/-- If `c` holds of `f`, all its rows agree in the scene that `f` assigns. -/
theorem Holds.agrees (h : c.Holds f) (hs : s.Valid) (hadm : s.Admits f) (htyped : c.Typed s.scene)
    (hset : c.sets[i]? = some set) : Agrees (s.assigned f) c.graph i set := by
  obtain ⟨nodes, arcs, hg, hsets⟩ := h
  obtain ⟨members, hmembers, harcs⟩ := hsets i set hset
  obtain ⟨⟨m, d, hv⟩, n, b, hgraph, -⟩ := htyped i set hset
  intro j
  obtain ⟨hk, he⟩ := hs.mem_assigned hadm (v := set) (by rw [hv]; nofun) (.value j)
  obtain ⟨hk', he'⟩ := hs.mem_assigned hadm (v := c.graph) (by rw [hgraph]; nofun) (.arc i j)
  rw [hk, he, hk', he', hmembers, hg]
  exact ⟨(harcs j).symm, (harcs j).symm⟩

/-- An answer with `c.Says s.scene a` is sound. -/
theorem Says.sound (h : c.Says s.scene a) (hs : s.Valid)
    (hgraph : ∃ n b, s.scene c.graph = some (.graph n b)) (htyped : c.Typed s.scene) :
    a.Sound s c.Holds where
  entailed ha f hf := by
    subst ha
    obtain ⟨-, hfixed⟩ := h.entailed.1 rfl
    -- what is assigned to the variables of the channel is what their domains require
    have hsame : ∀ v ∈ c.graph :: c.sets.toList, ∀ e, (f v).Has e ↔ InKernel s.scene v e := by
      intro v hv e
      obtain ⟨D, hD, hD'⟩ := hfixed v hv
      obtain ⟨hadm, hproper⟩ := hs.admits_iff.1 hf v D hD
      have heq := hD'.eq_of_within (hadm.wf_assign hproper (hs.wf hD))
        (hadm.assign_within (hs.wf hD))
      rw [inKernel_iff hD, ← (hadm.mem_assign e).1, heq]
    obtain ⟨n, b, hgraph⟩ := hgraph
    obtain ⟨nodes, arcs, hg⟩ := hs.graph_of_admits hf hgraph
    refine ⟨nodes, arcs, hg, fun i set hset => ?_⟩
    obtain ⟨⟨m, d, hv⟩, -⟩ := htyped i set hset
    obtain ⟨members, hmembers⟩ := hs.set_of_admits hf hv
    refine ⟨members, hmembers, fun j => ?_⟩
    have harc := hsame c.graph List.mem_cons_self (.arc i j)
    have hvalue := hsame set (mem_vars hset) (.value j)
    rw [hg] at harc
    rw [hmembers] at hvalue
    exact harc.trans (((h.stable i set hset j).1).symm.trans hvalue.symm)
  violated ha f hf hholds := by
    obtain ⟨i, set, hset, hclash⟩ := h.violated.1 ha
    exact (hclash.within (htyped i set hset) (hs.assigned_within hf)).not_agrees
      (hs.assigned_wf hf) (hholds.agrees hs hf htyped hset)

end GraphChannel

/-! ## All answers -/

open Store

/-- In every reached store, a disequality between integer variables overflows, or its answer is
sound, and if `c.x ≠ c.y` it is entailed iff all pairs of values differ and violated iff all are
equal. A channel between a graph and as many sets as the graph has nodes answers, whatever the
ground sets are; its answer is sound, and if `c.Distinct` it is violated iff the store admits no
assignment of which the channel holds. -/
theorem Constraint.entailment_sound {s : Store} (hs : s.Reached) :
    (∀ c : NotEqual, (∃ r, s.ints c.x = .ok r) → (∃ r, s.ints c.y = .ok r) →
      c.entailment s = .error .overflow ∨ ∃ a, c.entailment s = .ok a ∧ a.Sound s c.Holds ∧
        (c.x ≠ c.y →
          (a = .entailed ↔ ∀ k l, s.contains c.x k = .ok true → s.contains c.y l = .ok true → k ≠ l) ∧
          (a = .violated ↔ ∀ k l, s.contains c.x k = .ok true → s.contains c.y l = .ok true →
            k = l))) ∧
    ∀ c : GraphChannel, s.nodeCount c.graph = .ok c.sets.size →
      (∀ set ∈ c.sets, ∃ r, s.elements set = .ok r) →
      ∃ a, c.entailment s = .ok a ∧ a.Sound s c.Holds ∧
        (c.Distinct → (a = .violated ↔ ∀ f, s.Admits f → ¬c.Holds f)) := by
  have hv := hs.valid
  constructor
  · intro c hx hy
    obtain ⟨vs, hx⟩ := hv.int_of_ints hx
    obtain ⟨ws, hy⟩ := hv.int_of_ints hy
    refine (NotEqual.entailment_eq hv hx hy).symm.imp_right fun heq => ⟨_, heq,
      NotEqual.verdict_sound hv hx hy, fun _ => ?_⟩
    simp only [hv.contains_iff hx, hv.contains_iff hy]
    refine ⟨NotEqual.verdict_eq_entailed.trans ?_,
      NotEqual.verdict_eq_violated (hv.wf hx) (hv.wf hy)⟩
    exact Finset.disjoint_iff_ne.trans
      ⟨fun h k l hk hl => h k hk l hl, fun h k hk l hl => h k l hk hl⟩
  · intro c hcount hsets
    obtain ⟨⟨b, hgraph⟩, htyped⟩ := GraphChannel.typed_of_nodeCount hv hcount hsets
    obtain ⟨a, ha⟩ := GraphChannel.entailment_of_typed hv (by rw [hgraph]; nofun) htyped
    have hanswer := GraphChannel.says_of_entailment hv ha
    have hsound := hanswer.sound hv ⟨_, b, hgraph⟩ htyped
    refine ⟨a, ha, hsound, fun hd => ⟨hsound.violated, fun hno => ?_⟩⟩
    by_contra hne
    obtain ⟨f, hadm, hholds⟩ := GraphChannel.exists_holds hv ⟨_, b, hgraph⟩ htyped hd
      fun i set hset hclash => hne (hanswer.violated.2 ⟨i, set, hset, hclash⟩)
    exact hno f hadm hholds

/-- A set that requires a value which is no node of the graph, and a disequality between variables
without a common value. -/
theorem Constraint.entailment_sound_mismatch : ∃ s : Store, s.Reached ∧
    (GraphChannel.of ⟨0⟩ [⟨1⟩]).entailment s = .ok .violated ∧
    (∀ f, s.Admits f → ¬(GraphChannel.of ⟨0⟩ [⟨1⟩]).Holds f) ∧
    (NotEqual.of ⟨2⟩ ⟨3⟩).entailment s = .ok .entailed ∧
    ∀ f, s.Admits f → (NotEqual.of ⟨2⟩ ⟨3⟩).Holds f := by
  obtain ⟨s, hs, hcount, hset, hviolated, hx, hy, hentailed⟩ : ∃ s : Store, s.Reached ∧
      s.nodeCount ⟨0⟩ = .ok 1 ∧ (s.elements ⟨1⟩).isOk = true ∧
      (GraphChannel.of ⟨0⟩ [⟨1⟩]).entailment s = .ok .violated ∧ (s.ints ⟨2⟩).isOk = true ∧
      (s.ints ⟨3⟩).isOk = true ∧ (NotEqual.of ⟨2⟩ ⟨3⟩).entailment s = .ok .entailed :=
    ⟨(Session.after (⟨.empty, #[]⟩ : Session Unit NotEqual) [.create (.digraphs 1),
      .create (.subsets 2), .create (.interval 0 1), .create (.interval 2 3),
      .narrow ⟨1⟩ (.addToKernel 1) .decision]).model.store,
      .model (.calls #[] _), by decide +kernel⟩
  obtain ⟨hdiff, hchannel⟩ := entailment_sound hs
  refine ⟨s, hs, hviolated, ?_, hentailed, ?_⟩
  · obtain ⟨a, ha, hsound, -⟩ := hchannel (.of ⟨0⟩ [⟨1⟩]) hcount fun set hmem => by
      obtain rfl : set = ⟨1⟩ := by simpa [GraphChannel.of] using hmem
      exact Checked.exists_of_isOk hset
    exact hsound.violated (Except.ok.inj (ha.symm.trans hviolated))
  · rcases hdiff (.of ⟨2⟩ ⟨3⟩) (Checked.exists_of_isOk hx) (Checked.exists_of_isOk hy) with
      hover | ⟨a, ha, hsound, -⟩
    · cases hover.symm.trans hentailed
    · exact hsound.entailed (Except.ok.inj (ha.symm.trans hentailed))

end Propagation
