import Propagation.Proofs.Reached

/-!
# Exact narrowings

What a successful narrowing does, to the element and to the event, in any store that can be reached:

* of the values of an integer variable those are left that pass the test of the narrowing, and the
  sink gets the events that say how the values and their bounds have changed
  (`Store.Reached.int_exact`);
* a node of a graph goes with the arcs that touch it, and an arc comes with its ends. Each of them
  is logged once, before the node or the arc of the call itself (`Store.Reached.graph_exact`).
-/

set_option autoImplicit false

namespace Propagation

open Update

/-! ## Integers -/

/-- The event is true of the passage from the values `S` to `T`: the minimum has risen, the maximum
has fallen, some value is gone, or one of several values is left. -/
def Event.Says (S T : Finset Int) : Event → Prop
  | removal => T ≠ S
  | lowerBound => ∃ lo lo', IsLeast (S : Set Int) lo ∧ IsLeast (T : Set Int) lo' ∧ lo < lo'
  | upperBound => ∃ hi hi', IsGreatest (S : Set Int) hi ∧ IsGreatest (T : Set Int) hi' ∧ hi' < hi
  | instantiate => 1 < S.card ∧ T.card = 1
  | _ => False

section
variable {S T : Finset Int}

end

namespace Store

variable {s s' : Store} {v : Var} {c : Cause}

/-- The bounds of the graph `g` have become `b'` by the changes of the entries `xs`, one after the
other. These are appended to its log and their events pushed, each with its cause, and the rest of
the store is as in `s`. -/
structure Turned (s : Store) (g : Var) (n : Nat) (b' : Bounds) (xs : List DeltaEntry)
    (s' : Store) : Prop where
  shows : s'.Shows g (.graph n b')
  log : ∃ l l', s.delta g = .ok l ∧ s'.delta g = .ok l' ∧ l'.toList = l.toList ++ xs
  sink : s'.sink = s.sink.tell g xs
  others : ∀ w, w ≠ g → s'.snapshot w = s.snapshot w ∧ s'.delta w = s.delta w
  frame : Frame s s'

variable {g : Var} {n i j : Nat} {b b' : Bounds}

/-- A graph narrowed from `b` to `b'` has `Turned` by entries that replay the change. -/
theorem Narrowed.turned (h : Narrowed s g c (.graph n b) (.graph n b') s') (hs : s.Valid) :
    ∃ xs, Turned s g n b' xs s' ∧ (∀ x ∈ xs, x.cause = c) ∧
      (Dom.graph n b).Replays xs (.graph n b') := by
  obtain ⟨xs, hxs, hc, hlogged, htold⟩ := h.told
  obtain ⟨l, hl, hlist⟩ := hs.delta_eq (v := g) (by rw [h.before]; simp)
  obtain ⟨l', hl', hlist'⟩ := h.valid.delta_eq (v := g) (by rw [h.after]; simp)
  refine ⟨xs, ⟨h.valid.shows h.after, ⟨l, l', hl, hl', by rw [hlist', hlist, hxs]⟩, htold,
    fun w hw => ?_, h.frame⟩, hc, hlogged⟩
  have hscene : s'.scene w = s.scene w := by rw [h.scene, Function.update_of_ne hw]
  exact ⟨snapshot_congr hs h.valid hscene, delta_congr hs h.valid hscene (h.log_ne w hw)⟩

/-- A narrowing `k` of a graph either leaves what `Dom.after` says, with the entries `xs` that
replay the change, or it is refused and changes nothing. -/
theorem Valid.graph_ends (hs : s.Valid) (hg : s.scene g = some (.graph n b)) {k : Narrowing}
    (ha : (Dom.graph n b).Accepts k) (c : Cause) :
    Ends (narrow g k c) s
      (fun changed s' => ∃ b' xs, (Dom.graph n b).after k = some (.graph n b') ∧
        changed = decide (b' ≠ b) ∧ (changed = false → s' = s) ∧ Turned s g n b' xs s' ∧
        (∀ x, x ∈ xs ↔ (Dom.graph n b).Logs (.graph n b') c x) ∧
        (Dom.graph n b).Replays xs (.graph n b'))
      fun f s' => f = .contradiction ⟨some g, c, k.refusal⟩ ∧ (Dom.graph n b).after k = none ∧
        s' = s := by
  refine (hs.narrow_ends g k c).mono ?_ ?_
  · rintro changed s' ⟨D, D', -, hD', hchanged, hnarrowed, hsame⟩
    have hD := hnarrowed.before
    rw [hg] at hD
    cases hD
    obtain ⟨b', rfl⟩ := hnarrowed.within.exists_graph
    obtain ⟨xs, hturned, hc, hreplays⟩ := hnarrowed.turned hs
    refine ⟨b', xs, hD', ?_, hsame, hturned, fun x => ?_, hreplays⟩
    · rw [hchanged]
      exact decide_eq_decide.2 (not_congr (by rw [Dom.graph.injEq]; simp))
    · exact ((Dom.logged_iff (by simp)).2 hreplays).mem_iff hnarrowed.within hc x
  · rintro (x | f) s' h
    · obtain ⟨rfl, rfl, D, hD, -, hnone⟩ := h
      rw [hg] at hD
      cases hD
      exact ⟨rfl, hnone, rfl⟩
    · rcases h with ⟨-, hint, -⟩ | ⟨k', -, -, hk⟩
      · cases ha.kindOf_eq.trans hint
      · exact absurd ha (hk _ hg)

/-- The node `i` has left the envelope of `b`, together with `arcs`, the arcs in it that touch `i`.
-/
structure NodeOut (b : Bounds) (i : Nat) (arcs : List (Nat × Nat)) (b' : Bounds) : Prop where
  kernel : b'.kernel = b.kernel
  node_iff : ∀ k, .node k ∈ b'.envelope ↔ .node k ∈ b.envelope ∧ k ≠ i
  arc_iff : ∀ k l, .arc k l ∈ b'.envelope ↔ .arc k l ∈ b.envelope ∧ k ≠ i ∧ l ≠ i
  nodup : arcs.Nodup
  mem_arcs : ∀ k l, (k, l) ∈ arcs ↔ .arc k l ∈ b.envelope ∧ (k = i ∨ l = i)

/-- The arc from `i` to `j` has entered the kernel of `b`, together with `nodes`, those of its ends
that were not in it. -/
structure ArcIn (b : Bounds) (i j : Nat) (nodes : List Nat) (b' : Bounds) : Prop where
  envelope : b'.envelope = b.envelope
  node_iff : ∀ k, .node k ∈ b'.kernel ↔ .node k ∈ b.kernel ∨ k = i ∨ k = j
  arc_iff : ∀ k l, .arc k l ∈ b'.kernel ↔ .arc k l ∈ b.kernel ∨ (k = i ∧ l = j)
  nodup : nodes.Nodup
  mem_nodes : ∀ k, k ∈ nodes ↔ (k = i ∨ k = j) ∧ .node k ∉ b.kernel

/-- The entries before the last one `z`, as the images `f a` of a list without duplicates. -/
theorem exists_map_of_nodup {α : Type} {f : α → DeltaEntry} (hf : f.Injective) {z : DeltaEntry}
    (hz : ∀ a, f a ≠ z) {ys : List DeltaEntry} (hnd : ((ys ++ [z]).map DeltaEntry.change).Nodup)
    (h : ∀ x ∈ ys ++ [z], x = z ∨ ∃ a, f a = x) :
    ∃ as : List α, as.Nodup ∧ ys = as.map f ∧ ∀ a, a ∈ as ↔ f a ∈ ys ++ [z] := by
  have hmem : ys ∈ Set.range (List.map f) := by
    rw [Set.range_list_map]
    intro y hy
    refine (h y (List.mem_append_left _ hy)).resolve_left ?_
    rintro rfl
    exact (List.nodup_append.1 hnd.of_map).2.2 y hy y (List.mem_singleton_self y) rfl
  obtain ⟨as, rfl⟩ := hmem
  rw [List.map_append, List.map_map] at hnd
  refine ⟨as, (List.nodup_append.1 hnd).1.of_map, rfl, fun a => ?_⟩
  rw [List.mem_append, List.mem_map_of_injective hf, List.mem_singleton]
  exact ⟨.inl, fun ha => ha.resolve_right (hz a)⟩

section
variable {xs : List DeltaEntry} (hreplays : (Dom.graph n b).Replays xs (.graph n b'))
  (hxs : ∀ x, x ∈ xs ↔ (Dom.graph n b).Logs (.graph n b') c x)
include hreplays hxs

/-- The entries of the removal of a node: a `removeArc` for each arc that touches it, then the
`removeNode`. -/
theorem exists_nodeOut (hb' : b.remove (.node i) = some b') (hi : .node i ∈ b.envelope) :
    ∃ arcs : List (Nat × Nat), NodeOut b i arcs b' ∧
      xs = arcs.map (fun p => ⟨.removeArc, p.1, p.2, c⟩) ++ [⟨.removeNode, i, 0, c⟩] := by
  rw [Bounds.remove] at hb'
  split at hb'
  · cases hb'
  obtain rfl := Option.some.inj hb'
  have hout : ∀ e : Element, e ∈ b.envelope ∧ .node i ∈ e.closure ↔ e.removed c ∈ xs := by
    intro e
    rw [hxs, Dom.logs_removed_iff, Dom.envelope, Dom.envelope, Finset.mem_sdiff, Finset.mem_filter]
    tauto
  have hall : ∀ x ∈ xs, ∃ e : Element, .node i ∈ e.closure ∧ x = e.removed c := by
    intro x hx
    rcases (hxs x).1 hx with ⟨e, he, -⟩ | ⟨e, -, rfl⟩
    · rw [Dom.kernel, Dom.kernel, sdiff_self] at he
      exact absurd he (Finset.notMem_empty e)
    · exact ⟨e, ((hout e).2 hx).2, rfl⟩
  obtain ⟨ys, rfl⟩ := hreplays.removed_last ((hout _).1 ⟨hi, Element.mem_closure_self _⟩) hall
  obtain ⟨arcs, hnd, rfl, harcs⟩ := exists_map_of_nodup
    (f := fun p : Nat × Nat => (Element.arc p.1 p.2).removed c)
    (fun p q h => by simpa [Prod.ext_iff] using Element.removed_inj h)
    (fun p h => by simpa using Element.removed_inj h) hreplays.nodup fun x hx => by
      obtain ⟨e, he, rfl⟩ := hall x hx
      cases e with
      | value a => simp [Element.closure] at he
      | node k => exact .inl (by rw [Finset.mem_singleton.1 he])
      | arc k l => exact .inr ⟨(k, l), rfl⟩
  refine ⟨arcs, ⟨rfl, fun k => ?_, fun k l => ?_, hnd, fun k l => ?_⟩, rfl⟩
  · rw [Finset.mem_filter, Element.closure, Finset.mem_singleton, Element.node.injEq, eq_comm]
  · rw [Finset.mem_filter]
    simp only [Element.closure, Finset.mem_insert, Finset.mem_singleton, reduceCtorEq,
      Element.node.injEq, false_or, not_or]
    rw [eq_comm, eq_comm (a := i)]
  · rw [harcs, ← hout]
    simp only [Element.closure, Finset.mem_insert, Finset.mem_singleton, reduceCtorEq,
      Element.node.injEq, false_or]
    rw [eq_comm, eq_comm (a := i)]

/-- The entries of the enforcement of an arc: an `enforceNode` for each end that was missing, then
the `enforceArc`. -/
theorem exists_arcIn (hb' : b.enforce (.arc i j) = some b') (harc : .arc i j ∉ b.kernel) :
    ∃ nodes : List Nat, ArcIn b i j nodes b' ∧
      xs = nodes.map (fun k => ⟨.enforceNode, k, 0, c⟩) ++ [⟨.enforceArc, i, j, c⟩] := by
  rw [Bounds.enforce] at hb'
  split at hb'
  case isFalse => cases hb'
  obtain rfl := Option.some.inj hb'
  have hin : ∀ e : Element, e ∈ (Element.arc i j).closure ∧ e ∉ b.kernel ↔ e.enforced c ∈ xs := by
    intro e
    rw [hxs, Dom.logs_enforced_iff, Dom.kernel, Dom.kernel, Finset.mem_sdiff, Finset.mem_union]
    tauto
  have hall : ∀ x ∈ xs, ∃ e ∈ (Element.arc i j).closure, x = e.enforced c := by
    intro x hx
    rcases (hxs x).1 hx with ⟨e, -, rfl⟩ | ⟨e, he, -⟩
    · exact ⟨e, ((hin e).2 hx).1, rfl⟩
    · rw [Dom.envelope, Dom.envelope, sdiff_self] at he
      exact absurd he (Finset.notMem_empty e)
  obtain ⟨ys, rfl⟩ := hreplays.enforced_last ((hin _).1 ⟨Element.mem_closure_self _, harc⟩) hall
  obtain ⟨nodes, hnd, rfl, hnodes⟩ := exists_map_of_nodup
    (f := fun k : Nat => (Element.node k).enforced c)
    (fun p q h => by simpa using Element.enforced_inj h)
    (fun p h => by simpa using Element.enforced_inj h) hreplays.nodup fun x hx => by
      obtain ⟨e, he, rfl⟩ := hall x hx
      simp only [Element.closure, Finset.mem_insert, Finset.mem_singleton] at he
      rcases he with rfl | rfl | rfl
      · exact .inl rfl
      · exact .inr ⟨i, rfl⟩
      · exact .inr ⟨j, rfl⟩
  refine ⟨nodes, ⟨rfl, fun k => ?_, fun k l => ?_, hnd, fun k => ?_⟩, rfl⟩
  · rw [Finset.mem_union]
    simp [Element.closure]
  · rw [Finset.mem_union]
    simp [Element.closure]
  · rw [hnodes, ← hin]
    simp [Element.closure]

end

/-- In any reached store, `removeNode g i c` and `enforceArc g i j c` change exactly the elements of
`NodeOut` and `ArcIn`, log each change once with the node or arc of the call last, and push its
event with the cause `c`. -/
theorem Reached.graph_exact (h : s.Reached) (hg : s.Shows g (.graph n b)) (hi : i < n) (hj : j < n)
    (c : Cause) :
    Ends (removeNode g i c) s
      (fun changed s' => changed = decide (.node i ∈ b.envelope) ∧ (changed = false → s' = s) ∧
        (changed = true → ∃ b' arcs, NodeOut b i arcs b' ∧ Turned s g n b'
          (arcs.map (fun p => ⟨.removeArc, p.1, p.2, c⟩) ++ [⟨.removeNode, i, 0, c⟩]) s'))
      (fun f s' => f = .contradiction ⟨some g, c, .removeMandatory (.node i)⟩ ∧
        .node i ∈ b.kernel ∧ s' = s) ∧
    Ends (enforceArc g i j c) s
      (fun changed s' => changed = decide (.arc i j ∉ b.kernel) ∧ (changed = false → s' = s) ∧
        (changed = true → ∃ b' nodes, ArcIn b i j nodes b' ∧ Turned s g n b'
          (nodes.map (fun k => ⟨.enforceNode, k, 0, c⟩) ++ [⟨.enforceArc, i, j, c⟩]) s'))
      (fun f s' => f = .contradiction ⟨some g, c, .enforceForbidden (.arc i j)⟩ ∧
        .arc i j ∉ b.envelope ∧ s' = s) := by
  have hs := h.valid
  have hg := hs.shows_iff.1 hg
  have hwf : b.Wf (Element.OfGraph n) := hs.wf hg
  refine ⟨(hs.graph_ends hg (k := .removeNode i) hi c).mono ?_ ?_,
    (hs.graph_ends hg (k := .enforceArc i j) ⟨hi, hj⟩ c).mono ?_ ?_⟩
  · rintro changed s' ⟨b', xs, hafter, rfl, hsame, hturned, hxs, hreplays⟩
    obtain ⟨_, hb', ⟨⟩⟩ := Option.map_eq_some_iff.1 hafter
    have hne : b' ≠ b ↔ .node i ∈ b.envelope := by
      rw [← not_iff_not, not_not]
      refine ⟨fun h => h ▸ Bounds.notMem_of_remove hb', fun h => ?_⟩
      exact Option.some.inj (hb'.symm.trans (Bounds.remove_eq_self hwf h))
    refine ⟨decide_eq_decide.2 hne, hsame, fun hchanged => ?_⟩
    obtain ⟨arcs, hout, rfl⟩ :=
      exists_nodeOut hreplays hxs hb' (hne.1 (of_decide_eq_true hchanged))
    exact ⟨b', arcs, hout, hturned⟩
  · rintro f s' ⟨rfl, hnone, rfl⟩
    have hnone : b.remove (.node i) = none := Option.map_eq_none_iff.1 hnone
    refine ⟨rfl, ?_, rfl⟩
    by_contra hk
    rw [Bounds.remove, if_neg hk] at hnone
    cases hnone
  · rintro changed s' ⟨b', xs, hafter, rfl, hsame, hturned, hxs, hreplays⟩
    obtain ⟨_, hb', ⟨⟩⟩ := Option.map_eq_some_iff.1 hafter
    have hne : b' ≠ b ↔ .arc i j ∉ b.kernel := by
      refine not_congr ⟨fun h => Bounds.mem_of_enforce_self (h ▸ hb'), fun h => ?_⟩
      exact Option.some.inj (hb'.symm.trans (Bounds.enforce_eq_self hwf h))
    refine ⟨decide_eq_decide.2 hne, hsame, fun hchanged => ?_⟩
    obtain ⟨nodes, hin, rfl⟩ :=
      exists_arcIn hreplays hxs hb' (hne.1 (of_decide_eq_true hchanged))
    exact ⟨b', nodes, hin, hturned⟩
  · rintro f s' ⟨rfl, hnone, rfl⟩
    have hnone : b.enforce (.arc i j) = none := Option.map_eq_none_iff.1 hnone
    refine ⟨rfl, fun he => ?_, rfl⟩
    rw [Bounds.enforce, if_pos he] at hnone
    cases hnone

/-- The node `1` goes with its loop, after its arc to `0` has gone, and an arc is enforced of which
one end is in the kernel. -/
theorem graph_exact_loop : ∃ (s : Store) (b : Bounds), s.Reached ∧ s.Shows ⟨0⟩ (.graph 2 b) ∧
    (∃ s' b' arcs, removeNode ⟨0⟩ 1 .decision s = .ok true s' ∧ NodeOut b 1 arcs b' ∧
      (1, 1) ∈ arcs ∧ (1, 0) ∉ arcs ∧ s'.Shows ⟨0⟩ (.graph 2 b')) ∧
    ∃ s' b' nodes, enforceArc ⟨0⟩ 0 1 .decision s = .ok true s' ∧ ArcIn b 0 1 nodes b' ∧
      1 ∈ nodes ∧ 0 ∉ nodes ∧ s'.Shows ⟨0⟩ (.graph 2 b') := by
  obtain ⟨s, hs, ⟨hcount, hasked⟩, hremove, henforce⟩ : ∃ s : Store, s.Reached ∧
      (s.nodeCount ⟨0⟩ = .ok 2 ∧
        s.arcInEnvelope ⟨0⟩ 1 1 = .ok true ∧ s.arcInEnvelope ⟨0⟩ 1 0 = .ok false ∧
        s.nodeInKernel ⟨0⟩ 0 = .ok true ∧ s.nodeInKernel ⟨0⟩ 1 = .ok false) ∧
      passes (removeNode ⟨0⟩ 1 .decision) s (fun changed _ => changed) = true ∧
      passes (enforceArc ⟨0⟩ 0 1 .decision) s (fun changed _ => changed) = true :=
    ⟨(Session.after (⟨.empty, #[]⟩ : Session Unit NotEqual)
      [.create (.digraphs 2), .narrow ⟨0⟩ (.removeArc 1 0) .decision,
        .narrow ⟨0⟩ (.enforceNode 0) .decision]).model.store,
      .model (.calls #[] _), by decide +kernel, by decide +kernel, by decide +kernel⟩
  obtain ⟨_, s₁, hremove, rfl⟩ := exists_of_passes hremove
  obtain ⟨_, s₂, henforce, rfl⟩ := exists_of_passes henforce
  obtain ⟨b, hb⟩ := hs.valid.exists_shows_graph hcount
  have hv := hs.valid.shows_iff.1 hb
  simp only [hs.valid.arcInEnvelope_eq hv, hs.valid.nodeInKernel_eq hv, Except.ok.injEq,
    decide_eq_true_eq, decide_eq_false_iff_not] at hasked
  obtain ⟨hloop, hgone, hthere, hmissing⟩ := hasked
  have hexact := hs.graph_exact hb (i := 0) (j := 1) (by decide) (by decide) .decision
  obtain ⟨b₂, nodes, hin, hturned₂⟩ := (hexact.2.of_ok henforce).2.2 rfl
  have hexact := hs.graph_exact hb (i := 1) (j := 1) (by decide) (by decide) .decision
  obtain ⟨b₁, arcs, hout, hturned₁⟩ := (hexact.1.of_ok hremove).2.2 rfl
  refine ⟨s, b, hs, hb, ⟨s₁, b₁, arcs, hremove, hout, ?_, ?_, hturned₁.shows⟩,
    s₂, b₂, nodes, henforce, hin, ?_, ?_, hturned₂.shows⟩
  · exact (hout.mem_arcs 1 1).2 ⟨hloop, .inl rfl⟩
  · exact fun h => hgone ((hout.mem_arcs 1 0).1 h).1
  · exact (hin.mem_nodes 1).2 ⟨.inr rfl, hmissing⟩
  · exact fun h => ((hin.mem_nodes 0).1 h).2 hthere

end Store

end Propagation
