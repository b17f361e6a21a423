import Propagation.Proofs.Filter.GraphChannel
import Propagation.Proofs.Filter.Monitor

/-!
# Channels that follow changes

A channel links each value of a set to an arc of its node, both ways: what is decided of the one is
to be decided of the other. A link that is not yet followed is covered if the change is among the
unseen entries of its monitor, and the index of the monitor is pending (`GraphChannel.Covered`).
Reading the entries of one monitor follows its links, and leaves the other links covered
(`propagateOn_ends`).
-/

set_option autoImplicit false

namespace Propagation

open Scene

namespace Store

variable {s : Store} {v : Var} {D : Dom} {x : DeltaEntry}

/-- An entry `x` in the log of `v` records an element that is in the kernel, or one that has left
the envelope. -/
theorem Valid.logged (hs : s.Valid) (hv : s.scene v = some D) (hx : x ∈ s.logOf v) :
    (∃ e, x = e.enforced x.cause ∧ InKernel s.scene v e) ∨
      ∃ e, x = e.removed x.cause ∧ D.Ground e ∧ ¬InEnvelope s.scene v e := by
  rcases hs.logs v D hv x hx with ⟨e, he, hk⟩ | ⟨e, he, hg, hn⟩
  · exact .inl ⟨e, he, D, hv, hk⟩
  · exact .inr ⟨e, he, hg, fun h => hn ((inEnvelope_iff hv).1 h)⟩

/-- An entry with an enforcing event is `Element.enforced` of the value or arc it names, which is in
the kernel. -/
theorem Valid.logged_enforced (hs : s.Valid) (hv : s.scene v = some D) (hx : x ∈ s.logOf v) :
    (x.event = .addToKernel → x = (Element.value x.first).enforced x.cause ∧
      InKernel s.scene v (.value x.first)) ∧
    (x.event = .enforceArc → x = (Element.arc x.first x.second).enforced x.cause ∧
      InKernel s.scene v (.arc x.first x.second)) := by
  rcases hs.logged hv hx with ⟨e, he, hk⟩ | ⟨e, he, -, -⟩
  · constructor <;> intro hev <;> rw [he] at hev <;> cases e <;> cases hev <;> rw [he] <;>
      exact ⟨rfl, hk⟩
  · constructor <;> intro hev <;> rw [he] at hev <;> cases e <;> cases hev

/-- An entry with a removing event is `Element.removed` of the value or arc it names, which has left
the envelope. -/
theorem Valid.logged_removed (hs : s.Valid) (hv : s.scene v = some D) (hx : x ∈ s.logOf v) :
    (x.event = .removeFromEnvelope → x = (Element.value x.first).removed x.cause ∧
      D.Ground (.value x.first) ∧ ¬InEnvelope s.scene v (.value x.first)) ∧
    (x.event = .removeArc → x = (Element.arc x.first x.second).removed x.cause ∧
      D.Ground (.arc x.first x.second) ∧ ¬InEnvelope s.scene v (.arc x.first x.second)) := by
  rcases hs.logged hv hx with ⟨e, he, -⟩ | ⟨e, he, hg, hk⟩
  · constructor <;> intro hev <;> rw [he] at hev <;> cases e <;> cases hev
  · constructor <;> intro hev <;> rw [he] at hev <;> cases e <;> cases hev <;> rw [he] <;>
      exact ⟨rfl, hg, hk⟩

end Store

namespace GraphChannel

open Update Store Propagation.Action

/-! ## Links -/

/-- `Link g sets k v e v' e'`: deciding the element `e` of `v` decides `e'` of `v'`, on the other
side. Changes of `v` are read by the monitor at the index `k`. -/
inductive Link (g : Var) (sets : Array Var) : Nat → Var → Element → Var → Element → Prop
  | out {i : Nat} {set : Var} (h : sets[i]? = some set) (j : Nat) :
    Link g sets i set (.value j) g (.arc i j)
  | back {i : Nat} {set : Var} (h : sets[i]? = some set) (j : Nat) :
    Link g sets sets.size g (.arc i j) set (.value j)

abbrev Linked (c : GraphChannel) : Nat → Var → Element → Var → Element → Prop :=
  Link c.graph c.sets

/-- What is required of `e` is required of `e'`, and what is excluded of `e` is excluded of `e'`. -/
structure Follows (S : Scene) (v : Var) (e : Element) (v' : Var) (e' : Element) : Prop where
  kernel : InKernel S v e → InKernel S v' e'
  envelope : InEnvelope S v' e' → InEnvelope S v e

section
variable {c : GraphChannel} {S : Scene} {k k' : Nat} {v v' v'' : Var} {e e' e'' : Element}

theorem Linked.isFree (h : c.Linked k v e v' e') : e.IsFree ∧ e'.IsFree := by
  cases h with
  | out h j => exact ⟨Element.isFree_value j, Element.isFree_arc _ j⟩
  | back h j => exact ⟨Element.isFree_arc _ j, Element.isFree_value j⟩

/-- The variable of the monitor at the index `k`: the set of the node `k`, or the graph after all
sets. -/
def watched (c : GraphChannel) (k : Nat) : Option Var := (c.sets.push c.graph)[k]?

theorem Linked.watched (h : c.Linked k v e v' e') : c.watched k = some v := by
  cases h with
  | out h j =>
    have hlt := (Array.getElem?_eq_some_iff.1 h).1
    rw [GraphChannel.watched, Array.getElem?_push_lt hlt, ← Array.getElem?_eq_getElem hlt, h]
  | back h j => exact Array.getElem?_push_size

theorem Linked.symm (h : c.Linked k v e v' e') : ∃ k', c.Linked k' v' e' v e := by
  cases h with
  | out h j => exact ⟨_, .back h j⟩
  | back h j => exact ⟨_, .out h j⟩

/-- Where no two nodes have the same set, following a link there and back leads to the element it
started from. -/
theorem Linked.partner (hd : c.Distinct) (h : c.Linked k v e v' e')
    (h' : c.Linked k' v' e' v'' e'') : v'' = v ∧ e'' = e := by
  cases h with
  | out h j =>
    cases h' with
    | back h' j =>
      cases h.symm.trans h'
      exact ⟨rfl, rfl⟩
  | @back i _ h j =>
    cases h' with
    | out h' j =>
      by_cases hi : k' = i
      · subst hi
        exact ⟨rfl, rfl⟩
      · exact absurd rfl (hd.ne h h' hi)

theorem stable_iff : c.Stable S ↔ ∀ k v e v' e', c.Linked k v e v' e' → Follows S v e v' e' := by
  constructor
  · intro h k v e v' e' hl
    cases hl with
    | out hset j => exact ⟨(h _ _ hset j).1.1, (h _ _ hset j).2.2⟩
    | back hset j => exact ⟨(h _ _ hset j).1.2, (h _ _ hset j).2.1⟩
  · intro h i set hset j
    have hout := h _ _ _ _ _ (.out hset j)
    have hback := h _ _ _ _ _ (.back hset j)
    exact ⟨⟨hout.1, hback.1⟩, ⟨hback.2, hout.2⟩⟩

end

/-! ## Carrying changes over -/

/-- One of the entries `es`, not by the channel itself, is for the first element of a link to `e'`
that the monitor at `k` reads. -/
def Carried (c : GraphChannel) (k : Nat) (told : Cause → Element → DeltaEntry)
    (es : List DeltaEntry) (v' : Var) (e' : Element) : Prop :=
  ∃ d ≠ c.cause, ∃ v e, told d e ∈ es ∧ c.Linked k v e v' e'

section
variable {c : GraphChannel} {p : PropagatorId} {told : Cause → Element → DeltaEntry}
  {es : List DeltaEntry} {ev : Event} {v' : Var} {e' : Element}

/-- At the index of a set, `Carried` is about the values in the entries with the event `ev`. -/
theorem carried_set {i : Nat} {set : Var} (hset : c.sets[i]? = some set)
    (hcause : c.cause = .propagator p)
    (htold : ∀ a d, told d (.value a) = ⟨ev, a, 0, d⟩)
    (hes : ∀ x ∈ es, x.event = ev → x = told x.cause (.value x.first)) :
    c.Carried i told es v' e' ↔ ∃ x ∈ es, (x.event = ev ∧ x.cause ≠ .propagator p) ∧
      v' = c.graph ∧ e' = .arc i x.first := by
  constructor
  · rintro ⟨d, hd, v, e, hmem, hl⟩
    cases hl with
    | out h j =>
      rw [htold] at hmem
      exact ⟨_, hmem, ⟨rfl, hcause ▸ hd⟩, rfl, rfl⟩
    | back h j => exact absurd (Array.getElem?_eq_some_iff.1 hset).1 (Nat.lt_irrefl _)
  · rintro ⟨x, hx, ⟨hxev, hxc⟩, rfl, rfl⟩
    exact ⟨x.cause, hcause ▸ hxc, set, .value x.first, hes x hx hxev ▸ hx, .out hset _⟩

/-- At the index of the graph, `Carried` is about the arcs in the entries with the event `ev`. -/
theorem carried_graph (hcause : c.cause = .propagator p)
    (htold : ∀ i j d, told d (.arc i j) = ⟨ev, i, j, d⟩)
    (hes : ∀ x ∈ es, x.event = ev → x = told x.cause (.arc x.first x.second)) :
    c.Carried c.sets.size told es v' e' ↔ ∃ x ∈ es, (x.event = ev ∧ x.cause ≠ .propagator p) ∧
      c.sets[x.first]? = some v' ∧ e' = .value x.second := by
  constructor
  · rintro ⟨d, hd, v, e, hmem, hl⟩
    generalize hk : c.sets.size = k at hl
    cases hl with
    | out h j => exact absurd (Array.getElem?_eq_some_iff.1 h).1 (hk ▸ Nat.lt_irrefl _)
    | back h j =>
      rw [htold] at hmem
      exact ⟨_, hmem, ⟨rfl, hcause ▸ hd⟩, h, rfl⟩
  · rintro ⟨x, hx, ⟨hxev, hxc⟩, hset, rfl⟩
    exact ⟨x.cause, hcause ▸ hxc, c.graph, .arc x.first x.second, hes x hx hxev ▸ hx,
      .back hset _⟩

end

section
variable {ν : Type} {c : GraphChannel} {w : Workspace ν GraphChannel} {P : Scene → Prop}
  {fit : Prop} {m : Monitor} {D : Dom}

theorem drainSet_filters (hs : w.store.Valid) (hP : ∀ G, P G → c.Stable G)
    (hfit : fit → c.Fits w.store.scene) {i : Nat} {set : Var} (hset : c.sets[i]? = some set)
    (hm : c.monitors[i]? = some (m.frozenAt w.store)) (hvar : m.var = set)
    (hcause : c.cause = .propagator m.owner) (hv : w.store.scene set = some D) :
    Filters P fit c.cause w (c.drainSet i) fun _ S => Decided w.store.scene
      (c.Carried i Element.enforced (m.unseen w.store))
      (c.Carried i Element.removed (m.unseen w.store)) S := by
  subst hvar
  refine filters_ask (fun m' hm' => ?_) fun e he => ?_
  swap
  · cases (Checked.fetch_eq_ok.2 hm).symm.trans he
  obtain rfl : m.frozenAt w.store = m' := Except.ok.inj ((Checked.fetch_eq_ok.2 hm).symm.trans hm')
  have hlive : w.store.scene m.var ≠ none := by rw [hv]; nofun
  have hmem : ∀ x ∈ m.unseen w.store, x ∈ w.store.logOf m.var := fun x => List.mem_of_mem_drop
  refine (m.drain_filters (K := fun x u f => u = c.graph ∧ f = .arc i x.first)
    (E := fun _ _ _ => False) hs hlive rfl (List.prefix_refl _) ?_).seq
    fun _ u₁ _ hadv₁ h₁ => ?_
  · intro x hx hd u hadv _
    obtain ⟨C, hC, -, hCD⟩ := hadv.within _ D hv
    obtain ⟨es, hes, -⟩ := hadv.log m.var
    have hxu : x ∈ u.store.logOf m.var := hes ▸ List.mem_append_left _ (hmem x hx)
    obtain ⟨-, hk⟩ := (hadv.valid.logged_enforced hC hxu).1 hd.1
    refine filters_enforcing (e := .arc i x.first) hadv.valid
      (fun G hG hle => (hP G hG i _ hset x.first).1.1 (hle.inKernel hk)) fun hf => ?_
    have hrow := ((hfit hf).within hadv.within).2 i _ hset
    exact hrow.ground_arc (hrow.value_lt hadv.valid.scene_wf
      (inEnvelope_of_inKernel hadv.valid.scene_wf hk))
  obtain ⟨D₁, hv₁, -⟩ := hadv₁.within _ D hv
  obtain ⟨es₁, hes₁, -⟩ := hadv₁.log m.var
  refine (m.drain_filters (s := w.store) (K := fun _ _ _ => False)
    (E := fun x u f => u = c.graph ∧ f = .arc i x.first) hadv₁.valid (by rw [hv₁]; nofun)
    hadv₁.epoch ⟨es₁, hes₁.symm⟩ ?_).mono fun _ u₂ _ h₂ => (h₁.trans h₂).congr ?_ ?_
  · intro x hx hd u hadv _
    have hadv := hadv₁.trans hadv
    obtain ⟨C, hC, -, hCD⟩ := hadv.within _ D hv
    obtain ⟨es, hes, -⟩ := hadv.log m.var
    have hxu : x ∈ u.store.logOf m.var := hes ▸ List.mem_append_left _ (hmem x hx)
    obtain ⟨-, hg, hk⟩ := (hadv.valid.logged_removed hC hxu).1 hd.1
    refine filters_removing (e := .arc i x.first) hadv.valid (Element.isFree_arc i _)
      (fun G hG hle he => hk (hle.inEnvelope (by rw [hC]; nofun)
        ((hP G hG i _ hset x.first).2.2 he))) fun hf => ?_
    have hrow := ((hfit hf).within hadv.within).2 i _ hset
    obtain ⟨b, hb⟩ := hrow.set
    rw [hC] at hb
    cases hb
    exact hrow.ground_arc hg
  · intro v' e'
    refine (carried_set hset hcause (fun _ _ => rfl) fun x hx hev => ?_).trans
      (by simp [Monitor.Delivers])
    exact ((hs.logged_enforced hv (hmem x hx)).1 hev).1
  · intro v' e'
    refine (carried_set hset hcause (fun _ _ => rfl) fun x hx hev => ?_).trans
      (by simp [Monitor.Delivers])
    exact ((hs.logged_removed hv (hmem x hx)).1 hev).1

/-- Carrying over an entry of the graph: the set is looked up by the source of the arc, then
narrowed. -/
theorem carryArc_filters {n : Narrowing} {K E : Var → Element → Prop} {i : Nat}
    (hfit : fit → c.Fits w.store.scene ∧ i < c.sets.size)
    (h : ∀ set, c.sets[i]? = some set →
      Filters P fit c.cause w (discard (apply set n c.cause) : Action ν GraphChannel PUnit)
        fun _ S => Decided w.store.scene (fun u f => u = set ∧ K u f)
          (fun u f => u = set ∧ E u f) S) :
    Filters P fit c.cause w (do
        let set ← c.setOf i
        discard (apply set n c.cause) : Action ν GraphChannel PUnit)
      fun _ S => Decided w.store.scene (fun u f => c.sets[i]? = some u ∧ K u f)
        (fun u f => c.sets[i]? = some u ∧ E u f) S := by
  refine filters_ask (fun set hset => ?_) fun e he hf => ?_
  · have hset := Checked.fetch_eq_ok.1 hset
    refine (h set hset).mono fun _ _ _ hd => hd.congr ?_ ?_ <;> simp [hset, eq_comm]
  · have hi := (hfit hf).2
    rw [Checked.fetch_eq_ok.2 (Array.getElem?_eq_getElem hi)] at he
    cases he

theorem drainGraph_filters (hs : w.store.Valid) (hP : ∀ G, P G → c.Stable G)
    (hfit : fit → c.Fits w.store.scene)
    (hm : c.monitors[c.sets.size]? = some (m.frozenAt w.store)) (hvar : m.var = c.graph)
    (hcause : c.cause = .propagator m.owner) (hv : w.store.scene c.graph = some D) :
    Filters P fit c.cause w c.drainGraph fun _ S => Decided w.store.scene
      (c.Carried c.sets.size Element.enforced (m.unseen w.store))
      (c.Carried c.sets.size Element.removed (m.unseen w.store)) S := by
  refine filters_ask (fun m' hm' => ?_) fun e he => ?_
  swap
  · cases (Checked.fetch_eq_ok.2 hm).symm.trans he
  obtain rfl : m.frozenAt w.store = m' := Except.ok.inj ((Checked.fetch_eq_ok.2 hm).symm.trans hm')
  rw [← hvar] at hv
  have hlive : w.store.scene m.var ≠ none := by rw [hv]; nofun
  have hmem : ∀ x ∈ m.unseen w.store, x ∈ w.store.logOf m.var := fun x => List.mem_of_mem_drop
  refine (m.drain_filters (K := fun x u f => c.sets[x.first]? = some u ∧ f = .value x.second)
    (E := fun x u _ => c.sets[x.first]? = some u ∧ False) hs hlive rfl (List.prefix_refl _) ?_).seq
    fun _ u₁ _ hadv₁ h₁ => ?_
  · intro x hx hd u hadv _
    obtain ⟨C, hC, -, hCD⟩ := hadv.within _ D hv
    obtain ⟨es, hes, -⟩ := hadv.log m.var
    have hxu : x ∈ u.store.logOf m.var := hes ▸ List.mem_append_left _ (hmem x hx)
    obtain ⟨-, hk⟩ := (hadv.valid.logged_enforced hC hxu).2 hd.1
    rw [hvar] at hk
    have hfit' := fun hf => ((hfit hf).within hadv.within).arc_lt hadv.valid.scene_wf
      (inEnvelope_of_inKernel hadv.valid.scene_wf hk)
    refine carryArc_filters (fun hf => ⟨(hfit hf).within hadv.within, (hfit' hf).1⟩)
      fun set hset => ?_
    refine (filters_enforcing (e := .value x.second) hadv.valid
      (fun G hG hle => (hP G hG _ set hset x.second).1.2 (hle.inKernel hk)) fun hf => ?_).mono
      fun _ _ _ h => h.congr (fun _ _ => Iff.rfl) (by simp)
    exact (((hfit hf).within hadv.within).2 _ set hset).ground_value (hfit' hf).2
  obtain ⟨D₁, hv₁, -⟩ := hadv₁.within _ D hv
  obtain ⟨es₁, hes₁, -⟩ := hadv₁.log m.var
  refine (m.drain_filters (s := w.store) (K := fun x u _ => c.sets[x.first]? = some u ∧ False)
    (E := fun x u f => c.sets[x.first]? = some u ∧ f = .value x.second) hadv₁.valid
    (by rw [hv₁]; nofun) hadv₁.epoch ⟨es₁, hes₁.symm⟩ ?_).mono
    fun _ u₂ _ h₂ => (h₁.trans h₂).congr ?_ ?_
  · intro x hx hd u hadv _
    have hadv := hadv₁.trans hadv
    obtain ⟨C, hC, -, hCD⟩ := hadv.within _ D hv
    obtain ⟨es, hes, -⟩ := hadv.log m.var
    have hxu : x ∈ u.store.logOf m.var := hes ▸ List.mem_append_left _ (hmem x hx)
    obtain ⟨-, hg, hk⟩ := (hadv.valid.logged_removed hC hxu).2 hd.1
    rw [hvar] at hk hC
    have hfit' : fit → x.first < c.sets.size ∧ x.second < c.sets.size := fun hf => by
      obtain ⟨b, hb⟩ := ((hfit hf).within hadv.within).1
      rw [hC] at hb
      cases hb
      exact hg
    refine carryArc_filters (fun hf => ⟨(hfit hf).within hadv.within, (hfit' hf).1⟩)
      fun set hset => ?_
    refine (filters_removing (e := .value x.second) hadv.valid (Element.isFree_value _)
      (fun G hG hle he => hk (hle.inEnvelope (by rw [hC]; nofun)
        ((hP G hG _ set hset x.second).2.1 he))) fun hf => ?_).mono
      fun _ _ _ h => h.congr (by simp) fun _ _ => Iff.rfl
    exact (((hfit hf).within hadv.within).2 _ set hset).ground_value (hfit' hf).2
  · intro v' e'
    refine (carried_graph hcause (fun _ _ _ => rfl) fun x hx hev => ?_).trans
      (by simp [Monitor.Delivers])
    exact ((hs.logged_enforced hv (hmem x hx)).2 hev).1
  · intro v' e'
    refine (carried_graph hcause (fun _ _ _ => rfl) fun x hx hev => ?_).trans
      (by simp [Monitor.Delivers])
    exact ((hs.logged_removed hv (hmem x hx)).2 hev).1

end

/-! ## The monitors of a channel -/

/-- The channel as posted under `p`: the cause is `p`, there is a monitor for each set and one for
the graph, and none of them is frozen. -/
structure Formed (c : GraphChannel) (p : PropagatorId) : Prop where
  cause : c.cause = .propagator p
  size : c.monitors.size = c.sets.size + 1
  monitor : ∀ (k : Nat) (m : Monitor), c.monitors[k]? = some m →
    c.watched k = some m.var ∧ m.owner = p ∧ m.frozen = none

def Tracks (c : GraphChannel) (s : Store) : Prop :=
  ∀ (k : Nat) (m : Monitor), c.monitors[k]? = some m → m.Tracks s

/-- Among the unseen entries of the monitor at `k` is one for `e`, by another cause. -/
def Told (c : GraphChannel) (s : Store) (k : Nat) (told : Cause → Element → DeltaEntry)
    (e : Element) : Prop :=
  ∃ m, c.monitors[k]? = some m ∧ ∃ d ≠ c.cause, told d e ∈ m.unseen s

/-- The links that are not followed are due: each is of an index in `todo`, and its monitor has been
`Told` of the change. -/
structure Covered (c : GraphChannel) (s : Store) (todo : Nat → Prop) : Prop where
  enforced : ∀ k v e v' e', c.Linked k v e v' e' → InKernel s.scene v e →
    InKernel s.scene v' e' ∨ todo k ∧ c.Told s k Element.enforced e
  removed : ∀ k v e v' e', c.Linked k v e v' e' → InEnvelope s.scene v' e' →
    InEnvelope s.scene v e ∨ todo k ∧ c.Told s k Element.removed e

section
variable {c : GraphChannel} {s s' : Store} {k : Nat} {m m' : Monitor} {p : PropagatorId}
  {todo : Nat → Prop}

theorem Covered.stable (h : c.Covered s fun _ => False) : c.Stable s.scene :=
  stable_iff.2 fun k v e v' e' hl =>
    ⟨fun hk => (h.enforced k v e v' e' hl hk).resolve_right fun h => h.1,
      fun hk => (h.removed k v e v' e' hl hk).resolve_right fun h => h.1⟩

theorem Stable.covered (h : c.Stable s.scene) (todo : Nat → Prop) : c.Covered s todo where
  enforced k v e v' e' hl hk := .inl ((stable_iff.1 h k v e v' e' hl).kernel hk)
  removed k v e v' e' hl hk := .inl ((stable_iff.1 h k v e v' e' hl).envelope hk)

theorem Covered.mono {todo' : Nat → Prop} (h : c.Covered s todo) (hle : ∀ k, todo k → todo' k) :
    c.Covered s todo' where
  enforced k v e v' e' hl hk := (h.enforced k v e v' e' hl hk).imp_right fun h => ⟨hle k h.1, h.2⟩
  removed k v e v' e' hl hk := (h.removed k v e v' e' hl hk).imp_right fun h => ⟨hle k h.1, h.2⟩

/-- The channel `c` with the monitor `m` at the index `k`. -/
def withMonitor (c : GraphChannel) (k : Nat) (m : Monitor) : GraphChannel :=
  { c with monitors := c.monitors.setIfInBounds k m }

/-- The channel without its monitors, hence what no run changes. -/
def bare (c : GraphChannel) : GraphChannel := { c with monitors := #[] }

theorem eq_of_bare {c' : GraphChannel} (h : c'.bare = c.bare) :
    c'.graph = c.graph ∧ c'.sets = c.sets ∧ c'.cause = c.cause := by
  simpa [bare] using h

theorem stable_of_bare {c' : GraphChannel} (h : c'.bare = c.bare) : c'.Stable = c.Stable := by
  obtain ⟨hgraph, hsets, -⟩ := eq_of_bare h
  funext S
  rw [Stable, Stable, hgraph, hsets]

theorem fits_of_bare {c' : GraphChannel} (h : c'.bare = c.bare) : c'.Fits = c.Fits := by
  obtain ⟨hgraph, hsets, -⟩ := eq_of_bare h
  funext S
  rw [Fits, Fits, hgraph, hsets]

theorem distinct_of_bare {c' : GraphChannel} (h : c'.bare = c.bare) :
    c'.Distinct = c.Distinct := by
  rw [Distinct, Distinct, (eq_of_bare h).2.1]

theorem getElem?_withMonitor (hm : c.monitors[k]? = some m) (i : Nat) :
    (c.withMonitor k m').monitors[i]? = if i = k then some m' else c.monitors[i]? := by
  have hlt := (Array.getElem?_eq_some_iff.1 hm).1
  rw [withMonitor, Array.getElem?_setIfInBounds]
  by_cases hi : i = k
  · subst hi
    rw [if_pos rfl, if_pos rfl, if_pos hlt]
  · rw [if_neg (Ne.symm hi), if_neg hi]

theorem Formed.withMonitor (h : c.Formed p) (hm : c.monitors[k]? = some m) (hvar : m'.var = m.var)
    (howner : m'.owner = m.owner) (hfrozen : m'.frozen = none) : (c.withMonitor k m').Formed p where
  cause := h.cause
  size := Array.size_setIfInBounds.trans h.size
  monitor i n hn := by
    rw [getElem?_withMonitor hm] at hn
    split at hn
    · next hi =>
      cases hn
      obtain ⟨hw, ho, -⟩ := h.monitor k m hm
      subst hi
      exact ⟨hvar.symm ▸ hw, howner.trans ho, hfrozen⟩
    · exact h.monitor i n hn

/-- The channel with the cause `p` and with fresh monitors. -/
def posted (c : GraphChannel) (p : PropagatorId) : GraphChannel :=
  { c with cause := .propagator p, monitors := (c.sets.push c.graph).map (Monitor.fresh · p) }

theorem formed_posted (c : GraphChannel) (p : PropagatorId) : (c.posted p).Formed p where
  cause := rfl
  size := by simp [posted]
  monitor k m hm := by
    obtain ⟨v, hv, rfl⟩ := Option.map_eq_some_iff.1 (Array.getElem?_map.symm.trans hm)
    exact ⟨hv, rfl, rfl⟩

theorem tracks_posted (c : GraphChannel) (p : PropagatorId) (s : Store) :
    (c.posted p).Tracks s := by
  intro k m hm
  obtain ⟨v, -, rfl⟩ := Option.map_eq_some_iff.1 (Array.getElem?_map.symm.trans hm)
  exact Monitor.tracks_fresh v p s

/-- `initialise` succeeds only if the graph has as many nodes as there are sets, and gives `c.posted
p`. -/
theorem initialise_eq_ok {ν : Type} {setup : Setup ν GraphChannel}
    (h : c.initialise p s = .ok setup) :
    s.nodeCount c.graph = .ok c.sets.size ∧ setup.propagator = c.posted p := by
  obtain ⟨n, hn, h⟩ := Checked.exists_of_bind_eq_ok h
  split at h
  · next heq =>
    cases h
    exact ⟨heq ▸ hn, rfl⟩
  · cases h

theorem Tracks.ran {d : Cause} (h : c.Tracks s) (hr : s.Ran d s') : c.Tracks s' := by
  intro k m hm
  refine (h k m hm).later (Nat.le_of_eq hr.epoch.symm) fun _ => ?_
  obtain ⟨es, hes, -⟩ := hr.log m.var
  exact ⟨es, hes.symm⟩

theorem Tracks.caughtUp (h : c.Tracks s) (hm : c.monitors[k]? = some m) :
    (c.withMonitor k (m.caughtUp s)).Tracks s := by
  intro i n hn
  rw [getElem?_withMonitor hm] at hn
  split at hn
  · cases hn
    exact m.tracks_caughtUp s
  · exact h i n hn

theorem onMonitor_ends {x : Update Fault Monitor Unit} {ok : Monitor → Monitor → Prop} {bad : Prop}
    (hk : c.monitors[k]? = none → bad)
    (hx : ∀ m, c.monitors[k]? = some m → Ends x m (fun _ m' => ok m m') fun _ _ => bad) :
    Ends (onMonitor k x) c
      (fun _ c' => ∃ m m', c.monitors[k]? = some m ∧ ok m m' ∧ c' = c.withMonitor k m')
      fun _ _ => bad := by
  cases hm : c.monitors[k]? with
  | none =>
    have hrun : onMonitor k x c = .error .index c := by
      rw [onMonitor, hm]
    exact ends_of_error hrun (hk hm)
  | some m =>
    have hends := hx m hm
    cases hxm : x m with
    | ok a m' =>
      have hrun : onMonitor k x c = .ok () (c.withMonitor k m') := by
        rw [onMonitor, hm]
        simp only [hxm]
        rfl
      exact ends_of_ok hrun ⟨m, m', rfl, hends.of_ok hxm, rfl⟩
    | error e m' =>
      have hrun : onMonitor k x c = .error e (c.withMonitor k m') := by
        rw [onMonitor, hm]
        simp only [hxm]
        rfl
      exact ends_of_error hrun (hends.of_error hxm)

end

/-! ## Runs -/

section
variable {ν : Type} {c : GraphChannel} {w : Workspace ν GraphChannel} {P : Scene → Prop}
  {fit : Prop} {p : PropagatorId} {k : Nat}

theorem withMonitor_twice (c : GraphChannel) (k : Nat) (m m' : Monitor) :
    (c.withMonitor k m).withMonitor k m' = c.withMonitor k m' :=
  congrArg (fun ms => { c with monitors := ms }) (Array.setIfInBounds_setIfInBounds ..)

/-- All variables of the monitors are alive in `S`. -/
def Live (c : GraphChannel) (S : Scene) : Prop := ∀ k v, c.watched k = some v → S v ≠ none

theorem Fits.live {S : Scene} (h : c.Fits S) : c.Live S := by
  intro k v hv
  rw [watched, Array.getElem?_push] at hv
  split at hv
  · cases hv
    obtain ⟨b, hb⟩ := h.1
    rw [hb]
    nofun
  · obtain ⟨b, hb⟩ := (h.2 k v hv).set
    rw [hb]
    nofun

/-- An `Action.update` by `onMonitor k` applies `g` to the monitor at `k`, and faults only if that
index or the variable of the monitor is invalid. -/
theorem updateMonitor_ends (hown : w.own = c) (hc : c.Formed p)
    (hfit : fit → c.Live w.store.scene ∧ k ≤ c.sets.size) {x : Store → Update Fault Monitor Unit}
    {g : Monitor → Monitor}
    (hx : ∀ m, Ends (x w.store) m (fun _ m' => m' = g m ∧ w.store.scene m.var ≠ none)
      fun _ _ => ¬(m.frozen = none ∧ w.store.scene m.var ≠ none)) :
    Ends (Action.update fun s => onMonitor k (x s) : Action ν GraphChannel Unit).run w
      (fun _ u => ∃ m, c.monitors[k]? = some m ∧ w.store.scene m.var ≠ none ∧
        u = w.withOwn (c.withMonitor k (g m)))
      fun e _ => ∃ f, e = .fault f ∧ ¬fit := by
  subst hown
  have hends : Ends (onMonitor k (x w.store)) w.own
      (fun _ c' => ∃ m m', w.own.monitors[k]? = some m ∧
        (m' = g m ∧ w.store.scene m.var ≠ none) ∧ c' = w.own.withMonitor k m')
      fun _ _ => ¬fit := by
    refine onMonitor_ends (fun hm hf => ?_) fun m hm => (hx m).mono (fun _ _ h => h)
      fun _ _ h hf => ?_
    · have := Array.getElem?_eq_none_iff.1 hm
      have := hc.size
      have := (hfit hf).2
      omega
    · obtain ⟨hw, -, hfrozen⟩ := hc.monitor k m hm
      exact h ⟨hfrozen, (hfit hf).1 k _ hw⟩
  refine ends_update (hends.mono ?_ fun f _ h => ⟨f, rfl, h⟩)
  rintro - c' ⟨m, m', hm, ⟨rfl, hv⟩, rfl⟩
  exact ⟨m, hm, hv, rfl⟩

/-- After `skip` on all monitors they are up to date with the logs, and the store is unchanged. -/
theorem skipAll_ends (hs : w.store.Valid) (hown : w.own = c) (hc : c.Formed p)
    (ht : c.Tracks w.store) (hfit : fit → c.Live w.store.scene) :
    Ends ((List.range c.monitors.size).forM fun k => Action.update fun s => onMonitor k (skip s) :
        Action ν GraphChannel PUnit).run w
      (fun _ u => u.store = w.store ∧ u.own.bare = c.bare ∧ u.own.Formed p ∧
        u.own.Tracks w.store)
      fun e _ => ∃ f, e = .fault f ∧ ¬fit := by
  refine (ends_forM (I := fun ks u => u.store = w.store ∧ u.own.bare = c.bare ∧
    u.own.Formed p ∧ u.own.Tracks w.store ∧ ∀ k ∈ ks, k ≤ c.sets.size) ?_ ?_).mono
    (fun _ _ h => ⟨h.1, h.2.1, h.2.2.1, h.2.2.2.1⟩) fun _ _ h => h
  · refine ⟨rfl, congrArg bare hown, hown ▸ hc, hown ▸ ht, fun k hk => ?_⟩
    have := List.mem_range.1 hk
    have := hc.size
    omega
  · rintro k ks u ⟨hstore, hbare, hformed, htracks, hks⟩
    obtain ⟨hgraph, hsets, -⟩ := eq_of_bare hbare
    have hwatched : u.own.watched = c.watched := by
      funext k
      rw [watched, watched, hsets, hgraph]
    refine (updateMonitor_ends (k := k) (x := skip) (g := fun m => m.caughtUp w.store) rfl
      hformed (fun hf => ⟨?_, ?_⟩) fun m => ?_).mono ?_ fun _ _ h => h
    · rw [hstore, Live, hwatched]
      exact hfit hf
    · rw [hsets]
      exact hks k List.mem_cons_self
    · rw [hstore]
      exact Monitor.skip_ends hs m
    · rintro - _ ⟨m, hm, -, rfl⟩
      exact ⟨hstore, hbare, hformed.withMonitor hm rfl rfl rfl, htracks.caughtUp hm,
        fun i hi => hks i (List.mem_cons_of_mem k hi)⟩

theorem run_unfreeze {m : Monitor} {s : Store} (hm : c.monitors[k]? = some m)
    (hown : w.own = c.withMonitor k (m.frozenAt s)) :
    (Action.update fun _ => onMonitor k Monitor.unfreeze : Action ν GraphChannel Unit).run w =
      .ok () (w.withOwn (c.withMonitor k (m.caughtUp s))) := by
  have hm' : w.own.monitors[k]? = some (m.frozenAt s) := by
    rw [hown, getElem?_withMonitor hm, if_pos rfl]
  rw [run_update, onMonitor, hm']
  simp only [Monitor.unfreeze_frozenAt]
  rw [← withMonitor_twice c k (m.frozenAt s), hown]
  rfl

/-- `drainSet` and `drainGraph`, with the monitor frozen at the end of its log, decide exactly the
elements that its unseen entries carry over. -/
theorem drain_filters {m : Monitor} (hs : w.store.Valid) (hc : c.Formed p)
    (hP : ∀ G, P G → c.Stable G) (hfit : fit → c.Fits w.store.scene)
    (hm : c.monitors[k]? = some m) (hv : w.store.scene m.var ≠ none) :
    Filters P fit (.propagator p) w
      (if k < c.sets.size then (c.withMonitor k (m.frozenAt w.store)).drainSet k
        else (c.withMonitor k (m.frozenAt w.store)).drainGraph)
      fun _ S => Decided w.store.scene (c.Carried k Element.enforced (m.unseen w.store))
        (c.Carried k Element.removed (m.unseen w.store)) S := by
  obtain ⟨hw, howner, -⟩ := hc.monitor k m hm
  obtain ⟨D, hD⟩ := Option.ne_none_iff_exists'.1 hv
  have hm' : (c.withMonitor k (m.frozenAt w.store)).monitors[k]? = some (m.frozenAt w.store) := by
    rw [getElem?_withMonitor hm, if_pos rfl]
  have hcause : c.cause = .propagator m.owner := howner ▸ hc.cause
  rw [watched, Array.getElem?_push] at hw
  rw [← hc.cause]
  by_cases hk : k < c.sets.size
  · rw [if_neg (Nat.ne_of_lt hk)] at hw
    rw [if_pos hk]
    exact drainSet_filters (c := c.withMonitor k (m.frozenAt w.store)) hs hP hfit hw hm' rfl hcause
      hD
  · obtain rfl : k = c.sets.size := by
      have := (Array.getElem?_eq_some_iff.1 hm).1
      have := hc.size
      omega
    rw [if_pos rfl, Option.some.injEq] at hw
    rw [if_neg hk]
    exact drainGraph_filters (c := c.withMonitor c.sets.size (m.frozenAt w.store)) hs hP hfit hm'
      hw.symm hcause (hw ▸ hD)

/-- The monitor `k` is unfrozen after `x`, whether `x` returns or ends in a contradiction. -/
theorem thaw_ends {x : Action ν GraphChannel Unit} {post : Unit → Scene → Prop} {cause : Cause}
    {m : Monitor} {s : Store} (hm : c.monitors[k]? = some m)
    (hown : w.own = c.withMonitor k (m.frozenAt s)) (hx : Filters P fit cause w x post) :
    Ends (do
        let result ← x.attempt
        Action.update fun _ => onMonitor k Monitor.unfreeze
        match result with
        | .ok () => pure ()
        | .error x => Action.fail (.contradiction x) : Action ν GraphChannel Unit).run w
      (fun _ u => u.own = c.withMonitor k (m.caughtUp s) ∧ Advance P w.store cause u.store ∧
        post () u.store.scene)
      fun e u => Halts P fit w.store cause e u.store ∧
        ∀ x, e = .contradiction x → u.own = c.withMonitor k (m.caughtUp s) := by
  have hattempt := run_attempt x w
  rw [run_seq]
  cases hrun : x.run w with
  | ok a u =>
    rw [hrun] at hattempt
    obtain ⟨hu, hadv, hpost⟩ := Ends.of_ok hx hrun
    refine Ends.of_eq ?_ (bind_ok _ hattempt)
    dsimp only
    rw [run_seq]
    refine Ends.of_eq ?_ (bind_ok _ (run_unfreeze hm (hu.trans hown)))
    exact ends_of_ok rfl ⟨rfl, hadv, hpost⟩
  | error e u =>
    rw [hrun] at hattempt
    obtain ⟨hu, hhalt⟩ := Ends.of_error hx hrun
    cases e with
    | contradiction e =>
      refine Ends.of_eq ?_ (bind_ok _ hattempt)
      dsimp only
      rw [run_seq]
      refine Ends.of_eq ?_ (bind_ok _ (run_unfreeze hm (hu.trans hown)))
      exact ends_of_error rfl ⟨hhalt, fun _ _ => rfl⟩
    | fault f => exact ends_of_error (bind_error _ hattempt) ⟨hhalt, nofun⟩

/-- `propagate` makes each node agree with its set, if no other node has the same one. -/
theorem propagate_ends (hs : w.store.Valid) (hown : w.own = c) (hc : c.Formed p)
    (ht : c.Tracks w.store) (hP : ∀ G, P G → c.Stable G) (hfit : fit → c.Fits w.store.scene) :
    Ends (propagate : Action ν GraphChannel Unit).run w
      (fun _ u => u.own.bare = c.bare ∧ u.own.Formed p ∧ u.own.Tracks u.store ∧
        Advance P w.store (.propagator p) u.store ∧ c.Typed u.store.scene ∧
        ∀ i set, c.sets[i]? = some set → c.Sole i set → Agrees u.store.scene c.graph i set)
      fun e u => Halts P fit w.store (.propagator p) e u.store ∧
        ∀ x, e = .contradiction x → u.own = c := by
  subst hown
  refine Ends.of_eq (ends_seq (Q := fun _ u => u.own = w.own ∧
    Advance P w.store (.propagator p) u.store ∧ w.own.Typed u.store.scene ∧
      ∀ i set, w.own.sets[i]? = some set → w.own.Sole i set →
        Agrees u.store.scene w.own.graph i set) ?_ ?_) (run_state_bind _)
  · have hsweep := sweep_filters (ν := ν) (σ := GraphChannel) hs hP hfit
    rw [hc.cause] at hsweep
    exact Ends.mono hsweep (fun _ _ h => h) fun _ _ h => ⟨h.2, fun _ _ => h.1⟩
  · rintro - u ⟨hown, hadv, htyped, hagree⟩
    refine (skipAll_ends hadv.valid hown hc (ht.ran hadv.toRan)
      fun hf => ((hfit hf).within hadv.within).live).mono ?_ ?_
    · rintro - u' ⟨hstore, hbare, hformed, htracks⟩
      rw [← hstore] at hadv htyped hagree htracks
      exact ⟨hbare, hformed, htracks, hadv, htyped, hagree⟩
    · rintro _ u' ⟨f, rfl, hno⟩
      exact ⟨fun hf => absurd hf hno, by simp⟩

/-- `propagateOn k` decides what the unseen entries of the monitor `k` carry over, and leaves the
monitor caught up, also if it ends in a contradiction. -/
theorem propagateOn_ends (hs : w.store.Valid) (hown : w.own = c) (hc : c.Formed p)
    (hP : ∀ G, P G → c.Stable G) (hfit : fit → c.Fits w.store.scene ∧ k ≤ c.sets.size) :
    Ends (propagateOn k : Action ν GraphChannel Unit).run w
      (fun _ u => ∃ m, c.monitors[k]? = some m ∧ w.store.scene m.var ≠ none ∧
        u.own = c.withMonitor k (m.caughtUp w.store) ∧
        Advance P w.store (.propagator p) u.store ∧
        Decided w.store.scene (c.Carried k Element.enforced (m.unseen w.store))
          (c.Carried k Element.removed (m.unseen w.store)) u.store.scene)
      fun e u => Halts P fit w.store (.propagator p) e u.store ∧ ∀ x, e = .contradiction x →
        ∃ m, c.monitors[k]? = some m ∧ u.own = c.withMonitor k (m.caughtUp w.store) := by
  have hfreeze := updateMonitor_ends (ν := ν) (k := k) (x := Monitor.freeze) hown hc
    (fun hf => ⟨(hfit hf).1.live, (hfit hf).2⟩) fun m => Monitor.freeze_ends hs m
  refine ends_seq (hfreeze.mono (fun _ _ h => h) ?_) ?_
  · rintro _ u ⟨f, rfl, hno⟩
    exact ⟨fun hf => absurd hf hno, nofun⟩
  rintro - _ ⟨m, hm, hv, rfl⟩
  have hdrain := drain_filters (w := w.withOwn (c.withMonitor k (m.frozenAt w.store))) hs hc hP
    (fun hf => (hfit hf).1) hm hv
  refine Ends.of_eq ((thaw_ends hm rfl hdrain).mono ?_ ?_) (run_state_bind _)
  · exact fun _ u h => ⟨m, hm, hv, h⟩
  · exact fun e u h => ⟨h.1, fun x hx => ⟨m, hm, h.2 x hx⟩⟩

end

end GraphChannel

end Propagation
