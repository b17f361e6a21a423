import Propagation.Proofs.Trail.Write
import Propagation.Trail.BoundedSet
import Propagation.Trail.SparseSet

/-!
# New resources

A trail that has grown (`Grows`) closes like the one before, and what was there means what it meant
(`Valid.grow`). So a new cell, a new sparse set and a new bounded set each add one thing to the
present view and change no other (`Valid.addInt`, `newSparse_ends`, `newBounded_ends`).
-/

set_option autoImplicit false

namespace Propagation

namespace Trail

/-- The trail `t'` is `t` with more cells, slots and sets. -/
structure Grows (t t' : Trail) : Prop where
  clock : t'.clock = t.clock
  base : t'.baseChanges = t.baseChanges
  levels : t'.levels = t.levels
  cells : ∃ cs : Array Cell, t'.cells = t.cells ++ cs ∧ ∀ c ∈ cs, c.stamp ≤ t.clock
  sparseSets : ∃ ss, t'.sparseSets = t.sparseSets ++ ss
  sparseArena : ∃ os rs, t'.sparseArena = ⟨t.sparseArena.order ++ os, t.sparseArena.rank ++ rs⟩
  boundedSets : ∃ ss, t'.boundedSets = t.boundedSets ++ ss
  boundedArena : ∃ os rs,
    t'.boundedArena = ⟨t.boundedArena.order ++ os, t.boundedArena.rank ++ rs⟩

theorem take_append {α : Type} {xs : Array α} (ys : Array α) {n : Nat} (h : n ≤ xs.size) :
    (xs ++ ys).take n = xs.take n := by
  refine Array.ext_getElem? fun i => ?_
  rw [getElem?_take, getElem?_take]
  split
  · rw [Array.getElem?_append_left (by omega)]
  · rfl

variable {t t' : Trail}

theorem Grows.content (h : Grows t t') {i : Nat} (hi : i < t.cells.size) :
    t'.content i = t.content i := by
  obtain ⟨cs, hcs, -⟩ := h.cells
  rw [Trail.content, Trail.content, hcs, Array.getElem?_append_left hi]

theorem Grows.close (h : Grows t t') (hs : t.Sound) (hl : t.levels ≠ []) :
    t'.close = t.close := by
  cases hls : t.levels with
  | nil => exact absurd hls hl
  | cons l ls =>
    obtain ⟨cs, hcs, -⟩ := h.cells
    obtain ⟨ss, hss⟩ := h.sparseSets
    obtain ⟨os, rs, hos⟩ := h.sparseArena
    obtain ⟨bs, hbs⟩ := h.boundedSets
    obtain ⟨ps, qs, hps⟩ := h.boundedArena
    obtain ⟨h1, h2, h3, h4, h5⟩ := hs.reach _ _ _ (labels_of_cons hls)
    have h3' : l.extent.sparseSlots ≤ t.sparseArena.rank.size :=
      hs.sparseArena.rank_size ▸ h3
    have h5' : l.extent.boundedSlots ≤ t.boundedArena.rank.size :=
      hs.boundedArena.rank_size ▸ h5
    rw [Arena.size] at h3 h5
    rw [close_of_cons hls, close_of_cons (h.levels.trans hls)]
    simp only [truncate, Arena.truncate, hss, hos, hbs, hps, h.clock, take_append _ h2,
      take_append _ h3, take_append _ h3', take_append _ h4, take_append _ h5,
      take_append _ h5']
    have hcells : (undo t'.cells l.changes).take l.extent.cells
        = (undo t.cells l.changes).take l.extent.cells := by
      rw [hcs]
      refine take_undo_agree _ (.inr ⟨h1, ?_⟩) fun i hi => ?_
      · rw [Array.size_append]; omega
      · rw [Array.getElem?_append_left (by omega)]
    rw [hcells, h.base]

theorem Grows.past (h : Grows t t') (hs : t.Sound) : t'.past = t.past :=
  past_congr (by rw [labels, labels, h.levels]) (h.close hs)

theorem Grows.matches (h : Grows t t') (hs : t.Sound) (hl : t.levels ≠ []) :
    Matches t.close t'.close := by
  rw [h.close hs hl]
  exact .refl _

theorem Grows.sparse_old (h : Grows t t') {r : Nat} (hr : r < t.sparseSets.size) :
    t'.sparseSets[r]? = t.sparseSets[r]? := by
  obtain ⟨ss, hss⟩ := h.sparseSets
  rw [hss, Array.getElem?_append_left hr]

theorem Grows.bounded_old (h : Grows t t') {r : Nat} (hr : r < t.boundedSets.size) :
    t'.boundedSets[r]? = t.boundedSets[r]? := by
  obtain ⟨ss, hss⟩ := h.boundedSets
  rw [hss, Array.getElem?_append_left hr]

theorem Grows.keeps_sparse (h : Grows t t') (hs : t.Sound) {r : Nat} {s : SparseSet}
    (hr : t.sparseSets[r]? = some s) : s.Sits t' ∧ s.view t' = s.view t := by
  have hsit := hs.sparse r s hr
  obtain ⟨os, rs, hos⟩ := h.sparseArena
  have hsame : Arena.SameOn t.sparseArena t'.sparseArena s.start s.capacity :=
    hos ▸ Arena.sameOn_append _ os rs hsit.permutes.order_le hsit.permutes.rank_le
  have ho := hsit.permutes.order_le
  have hk := hsit.permutes.rank_le
  have hperm : t'.sparseArena.Permutes s.start s.capacity := by
    refine hsame.permutes ?_ ?_ hsit.permutes
    · rw [hos]; simp only [Array.size_append]; omega
    · rw [hos]; simp only [Array.size_append]; omega
  obtain ⟨n, hn, hcap⟩ := hsit.size
  obtain ⟨lo, hi, hlo, hhi, hb⟩ := hsit.bounds
  have hn' := (h.content (lt_of_content hn)).trans hn
  have hmem : s.members t' = s.members t := by
    rw [SparseSet.members, SparseSet.members, count_congr (hn'.trans hn.symm), hsame.zone]
  refine ⟨⟨hperm, hsit.nodup, ⟨n, hn', hcap⟩, lo, hi, ?_, ?_, by rwa [hmem]⟩, ?_⟩
  · exact (h.content (lt_of_content hlo)).trans hlo
  · exact (h.content (lt_of_content hhi)).trans hhi
  · rw [SparseSet.view, SparseSet.view, hmem]

theorem Grows.keeps_bounded (h : Grows t t') (hs : t.Sound) {r : Nat} {s : BoundedSet}
    (hr : t.boundedSets[r]? = some s) : s.Sits t' ∧ s.view t' = s.view t := by
  have hsit := hs.bounded r s hr
  obtain ⟨os, rs, hos⟩ := h.boundedArena
  have hsame : Arena.SameOn t.boundedArena t'.boundedArena s.start s.capacity :=
    hos ▸ Arena.sameOn_append _ os rs hsit.permutes.order_le hsit.permutes.rank_le
  have ho := hsit.permutes.order_le
  have hk := hsit.permutes.rank_le
  have hperm : t'.boundedArena.Permutes s.start s.capacity := by
    refine hsame.permutes ?_ ?_ hsit.permutes
    · rw [hos]; simp only [Array.size_append]; omega
    · rw [hos]; simp only [Array.size_append]; omega
  obtain ⟨k, e, hk, he, hke, hcap⟩ := hsit.sizes
  have hk' := (h.content (lt_of_content hk)).trans hk
  have he' := (h.content (lt_of_content he)).trans he
  refine ⟨⟨hperm, hsit.nodup, k, e, hk', he', hke, hcap⟩, ?_⟩
  rw [BoundedSet.view, BoundedSet.view, BoundedSet.kernel, BoundedSet.kernel,
    BoundedSet.envelope, BoundedSet.envelope, count_congr (hk'.trans hk.symm),
    count_congr (he'.trans he.symm), hsame.zone, hsame.zone]

/-- The sets of `t'` that are not in `t` lie in new slots and new cells, and there is at most one of
them. -/
structure NewSets (t t' : Trail) : Prop where
  sparse : ∀ (r : Nat) (s : SparseSet), t'.sparseSets[r]? = some s → t.sparseSets.size ≤ r →
    s.Sits t' ∧ t.sparseArena.size ≤ s.start ∧ ∀ i ∈ s.cells, t.cells.size ≤ i
  bounded : ∀ (r : Nat) (s : BoundedSet), t'.boundedSets[r]? = some s →
    t.boundedSets.size ≤ r →
    s.Sits t' ∧ t.boundedArena.size ≤ s.start ∧ ∀ i ∈ s.cells, t.cells.size ≤ i
  one : t'.sparseSets.size + t'.boundedSets.size ≤
    t.sparseSets.size + t.boundedSets.size + 1

/-- The cells of an old set are its cells in `t`, and those of a new one are new. -/
theorem Grows.owns (h : Grows t t') (hs : t.Sound) (hn : NewSets t t') {o : Owner} {i : Nat}
    (ho : t'.Owns o i) : t.Owns o i ∧ i < t.cells.size ∨ ¬(∃ j, t.Owns o j) ∧ t.cells.size ≤ i := by
  cases o with
  | sparse r =>
    obtain ⟨s, hr, hi⟩ := ho
    by_cases hlt : r < t.sparseSets.size
    · rw [h.sparse_old hlt] at hr
      obtain ⟨n, hn, -⟩ := (hs.sparse r s hr).size
      obtain ⟨lo, hi', hlo, hhi, -⟩ := (hs.sparse r s hr).bounds
      have hcells : ∀ j ∈ s.cells, j < t.cells.size := by
        intro j hj
        simp only [SparseSet.cells, List.mem_cons, List.not_mem_nil, or_false] at hj
        rcases hj with rfl | rfl | rfl
        · exact lt_of_content hn
        · exact lt_of_content hlo
        · exact lt_of_content hhi
      exact .inl ⟨⟨s, hr, hi⟩, hcells i hi⟩
    · refine .inr ⟨?_, (hn.sparse r s hr (by omega)).2.2 i hi⟩
      rintro ⟨j, s', hr', -⟩
      exact hlt (Array.getElem?_eq_some_iff.1 hr').1
  | bounded r =>
    obtain ⟨s, hr, hi⟩ := ho
    by_cases hlt : r < t.boundedSets.size
    · rw [h.bounded_old hlt] at hr
      obtain ⟨k, e, hk, he, -, -⟩ := (hs.bounded r s hr).sizes
      have hcells : ∀ j ∈ s.cells, j < t.cells.size := by
        intro j hj
        simp only [BoundedSet.cells, List.mem_cons, List.not_mem_nil, or_false] at hj
        rcases hj with rfl | rfl
        · exact lt_of_content hk
        · exact lt_of_content he
      exact .inl ⟨⟨s, hr, hi⟩, hcells i hi⟩
    · refine .inr ⟨?_, (hn.bounded r s hr (by omega)).2.2 i hi⟩
      rintro ⟨j, s', hr', -⟩
      exact hlt (Array.getElem?_eq_some_iff.1 hr').1

theorem Grows.owner (h : Grows t t') (hs : t.Sound) (hn : NewSets t t') {o o' : Owner} {i : Nat}
    (ho : t'.Owns o i) (ho' : t'.Owns o' i) : o = o' := by
  have hone := hn.one
  have hsz : t.sparseSets.size ≤ t'.sparseSets.size := by
    obtain ⟨ss, hss⟩ := h.sparseSets
    rw [hss, Array.size_append]
    omega
  have hbz : t.boundedSets.size ≤ t'.boundedSets.size := by
    obtain ⟨ss, hss⟩ := h.boundedSets
    rw [hss, Array.size_append]
    omega
  rcases h.owns hs hn ho with ⟨h1, hi⟩ | ⟨h1, hi⟩
  · rcases h.owns hs hn ho' with ⟨h2, -⟩ | ⟨-, hi'⟩
    · exact hs.owner o o' i h1 h2
    · omega
  · rcases h.owns hs hn ho' with ⟨-, hi'⟩ | ⟨h2, -⟩
    · omega
    · -- Both are new, and only one set is.
      have hnew : ∀ (r : Nat) (s : SparseSet), t'.sparseSets[r]? = some s → t'.Owns (.sparse r) i →
          (¬∃ j, t.Owns (.sparse r) j) → t.sparseSets.size ≤ r ∧ r < t'.sparseSets.size := by
        intro r s hr _ hno
        refine ⟨?_, (Array.getElem?_eq_some_iff.1 hr).1⟩
        apply Nat.le_of_not_lt
        intro hlt
        rw [h.sparse_old hlt] at hr
        exact hno ⟨s.size.index, s, hr, by simp [SparseSet.cells]⟩
      have hnewb : ∀ (r : Nat) (s : BoundedSet), t'.boundedSets[r]? = some s →
          (¬∃ j, t.Owns (.bounded r) j) → t.boundedSets.size ≤ r ∧ r < t'.boundedSets.size := by
        intro r s hr hno
        refine ⟨?_, (Array.getElem?_eq_some_iff.1 hr).1⟩
        apply Nat.le_of_not_lt
        intro hlt
        rw [h.bounded_old hlt] at hr
        exact hno ⟨s.kernelSize.index, s, hr, by simp [BoundedSet.cells]⟩
      cases o with
      | sparse r =>
        obtain ⟨s, hr, -⟩ := id ho
        have := hnew r s hr ho h1
        cases o' with
        | sparse r' =>
          obtain ⟨s', hr', -⟩ := id ho'
          have := hnew r' s' hr' ho' h2
          rw [show r = r' by omega]
        | bounded r' =>
          obtain ⟨s', hr', -⟩ := ho'
          have := hnewb r' s' hr' h2
          omega
      | bounded r =>
        obtain ⟨s, hr, -⟩ := ho
        have := hnewb r s hr h1
        cases o' with
        | sparse r' =>
          obtain ⟨s', hr', -⟩ := id ho'
          have := hnew r' s' hr' ho' h2
          omega
        | bounded r' =>
          obtain ⟨s', hr', -⟩ := ho'
          have := hnewb r' s' hr' h2
          rw [show r = r' by omega]

/-- A trail that has grown is valid. -/
theorem Valid.grow (hv : t.Valid) (h : Grows t t') (hn : NewSets t t')
    (hsa : t'.sparseArena.Sized) (hba : t'.boundedArena.Sized) : t'.Valid := by
  have hs := hv.sound
  obtain ⟨cs, hcs, hstamp⟩ := h.cells
  have hcsize : t.cells.size ≤ t'.cells.size := by rw [hcs, Array.size_append]; omega
  have hlabels : t'.labels = t.labels := by rw [labels, labels, h.levels]
  have hone := hn.one
  refine Sound.valid ?_ fun hl => by
    rw [h.close hs (h.levels ▸ hl)]
    exact hv.close
  exact
    { tracked := by
        refine ⟨fun i c hc => ?_, fun l hl => ?_, fun l ls hl i hi c hc hle => ?_⟩
        · rw [h.clock]
          rw [hcs] at hc
          by_cases hi : i < t.cells.size
          · rw [Array.getElem?_append_left hi] at hc
            exact hs.tracked.stamp_le i c hc
          · rw [Array.getElem?_append_right (by omega)] at hc
            exact hstamp c (Array.mem_of_getElem? hc)
        · rw [h.clock]
          exact hs.tracked.clock_le l (h.levels ▸ hl)
        · have hl' := h.levels ▸ hl
          have hreach := (hs.reach _ _ _ (labels_of_cons hl')).1
          rw [hcs, Array.getElem?_append_left (by omega)] at hc
          exact hs.tracked.covers l ls hl' i hi c hc hle
      clocks := hlabels ▸ hs.clocks
      sparseArena := hsa
      boundedArena := hba
      sparse := fun r s hr => by
        by_cases hlt : r < t.sparseSets.size
        · exact (h.keeps_sparse hs (h.sparse_old hlt ▸ hr)).1
        · exact (hn.sparse r s hr (by omega)).1
      bounded := fun r s hr => by
        by_cases hlt : r < t.boundedSets.size
        · exact (h.keeps_bounded hs (h.bounded_old hlt ▸ hr)).1
        · exact (hn.bounded r s hr (by omega)).1
      sparse_apart := fun r r' s s' hlt hr hr' => by
        have hlt' := (Array.getElem?_eq_some_iff.1 hr').1
        have hz : t.boundedSets.size ≤ t'.boundedSets.size := by
          obtain ⟨ss, hss⟩ := h.boundedSets
          rw [hss, Array.size_append]
          omega
        have hold : r < t.sparseSets.size := by omega
        rw [h.sparse_old hold] at hr
        by_cases hr'old : r' < t.sparseSets.size
        · rw [h.sparse_old hr'old] at hr'
          exact hs.sparse_apart r r' s s' hlt hr hr'
        · have := (hs.sparse r s hr).permutes.order_le
          have := (hn.sparse r' s' hr' (by omega)).2.1
          rw [Arena.size] at this
          omega
      bounded_apart := fun r r' s s' hlt hr hr' => by
        have hlt' := (Array.getElem?_eq_some_iff.1 hr').1
        have hz : t.sparseSets.size ≤ t'.sparseSets.size := by
          obtain ⟨ss, hss⟩ := h.sparseSets
          rw [hss, Array.size_append]
          omega
        have hold : r < t.boundedSets.size := by omega
        rw [h.bounded_old hold] at hr
        by_cases hr'old : r' < t.boundedSets.size
        · rw [h.bounded_old hr'old] at hr'
          exact hs.bounded_apart r r' s s' hlt hr hr'
        · have := (hs.bounded r s hr).permutes.order_le
          have := (hn.bounded r' s' hr' (by omega)).2.1
          rw [Arena.size] at this
          omega
      owner := fun o o' i => h.owner hs hn
      reach := fun c e rest hl => by
        obtain ⟨h1, h2, h3, h4, h5⟩ := hs.reach c e rest (hlabels ▸ hl)
        obtain ⟨ss, hss⟩ := h.sparseSets
        obtain ⟨os, rs, hos⟩ := h.sparseArena
        obtain ⟨bs, hbs⟩ := h.boundedSets
        obtain ⟨ps, qs, hps⟩ := h.boundedArena
        rw [Arena.size] at h3 h5
        rw [hcs, hss, hos, hbs, hps]
        simp only [Arena.size, Array.size_append]
        omega
      sparse_new := fun c e rest hl r s hr hle => by
        by_cases hlt : r < t.sparseSets.size
        · exact hs.sparse_new c e rest (hlabels ▸ hl) r s (h.sparse_old hlt ▸ hr) hle
        · exact ((hs.reach c e rest (hlabels ▸ hl)).2.2.1).trans
            (hn.sparse r s hr (by omega)).2.1
      bounded_new := fun c e rest hl r s hr hle => by
        by_cases hlt : r < t.boundedSets.size
        · exact hs.bounded_new c e rest (hlabels ▸ hl) r s (h.bounded_old hlt ▸ hr) hle
        · exact ((hs.reach c e rest (hlabels ▸ hl)).2.2.2.2).trans
            (hn.bounded r s hr (by omega)).2.1
      sparse_le := fun r s hr => by
        by_cases hl : t.levels = []
        · rw [close_of_nil (h.levels.trans hl)]
        · rw [h.close hs hl] at hr ⊢
          obtain ⟨n, hn', -⟩ := (hs.sparse r s (sparseSets_of_close hr)).size
          rw [count_congr (h.content (lt_of_content hn'))]
          exact hs.sparse_le r s hr
      bounded_le := fun r s hr => by
        by_cases hl : t.levels = []
        · rw [close_of_nil (h.levels.trans hl)]
          exact ⟨Nat.le_refl _, Nat.le_refl _⟩
        · rw [h.close hs hl] at hr ⊢
          obtain ⟨k, e, hk, he, -⟩ := (hs.bounded r s (boundedSets_of_close hr)).sizes
          rw [count_congr (h.content (lt_of_content hk)),
            count_congr (h.content (lt_of_content he))]
          exact hs.bounded_le r s hr }

/-- The view of an old sparse set in a grown trail. -/
theorem Grows.view_sparse_old (h : Grows t t') (hs : t.Sound) {r : Nat}
    (hr : r < t.sparseSets.size) : t'.view.sparse r = t.view.sparse r := by
  rw [view_sparse_eq, view_sparse_eq, h.sparse_old hr]
  exact Option.map_congr fun s hs' => (h.keeps_sparse hs hs').2

theorem Grows.view_bounded_old (h : Grows t t') (hs : t.Sound) {r : Nat}
    (hr : r < t.boundedSets.size) : t'.view.bounded r = t.view.bounded r := by
  rw [view_bounded_eq, view_bounded_eq, h.bounded_old hr]
  exact Option.map_congr fun s hs' => (h.keeps_bounded hs hs').2

/-- Old cells stay free or owned, and keep their values. -/
theorem Grows.view_int_old (h : Grows t t') (hs : t.Sound) (hn : NewSets t t') {i : Nat}
    (hi : i < t.cells.size) : t'.view.int i = t.view.int i := by
  have hfree : t'.isFree i = t.isFree i := by
    rw [Bool.eq_iff_iff, isFree_iff, isFree_iff]
    constructor
    · intro hno o ho
      refine hno o ?_
      cases o with
      | sparse r =>
        obtain ⟨s, hr, his⟩ := ho
        exact ⟨s, (h.sparse_old (Array.getElem?_eq_some_iff.1 hr).1).trans hr, his⟩
      | bounded r =>
        obtain ⟨s, hr, his⟩ := ho
        exact ⟨s, (h.bounded_old (Array.getElem?_eq_some_iff.1 hr).1).trans hr, his⟩
    · intro hno o ho
      rcases h.owns hs hn ho with ⟨h1, -⟩ | ⟨-, h2⟩
      · exact hno o h1
      · omega
  rw [view_int_eq, view_int_eq, hfree, h.content hi]

theorem view_int_of_le (t : Trail) {i : Nat} (hi : t.cells.size ≤ i) : t.view.int i = none := by
  rw [view_int_eq, content, Array.getElem?_eq_none hi]
  exact ite_self _

theorem view_sparse_of_le (t : Trail) {r : Nat} (hr : t.sparseSets.size ≤ r) :
    t.view.sparse r = none := by
  rw [view_sparse_eq, Array.getElem?_eq_none hr]
  rfl

theorem view_bounded_of_le (t : Trail) {r : Nat} (hr : t.boundedSets.size ≤ r) :
    t.view.bounded r = none := by
  rw [view_bounded_eq, Array.getElem?_eq_none hr]
  rfl

/-! ## Cells -/

theorem grows_addInt (t : Trail) (a : Int) : Grows t (t.addInt a).2 where
  clock := rfl
  base := rfl
  levels := rfl
  cells := ⟨#[⟨t.clock, a⟩], rfl, by simp⟩
  sparseSets := ⟨#[], by simp [addInt]⟩
  sparseArena := ⟨#[], #[], by simp [addInt]⟩
  boundedSets := ⟨#[], by simp [addInt]⟩
  boundedArena := ⟨#[], #[], by simp [addInt]⟩

theorem newSets_addInt (t : Trail) (a : Int) : NewSets t (t.addInt a).2 where
  sparse _ _ hr hle := absurd (Array.getElem?_eq_some_iff.1 hr).1 (Nat.not_lt_of_le hle)
  bounded _ _ hr hle := absurd (Array.getElem?_eq_some_iff.1 hr).1 (Nat.not_lt_of_le hle)
  one := Nat.le_succ _

theorem Valid.addInt (hv : t.Valid) (a : Int) :
    Turns t (t.view.setInt t.cells.size a) (t.addInt a).2 := by
  have hs := hv.sound
  have hg := grows_addInt t a
  have hn := newSets_addInt t a
  refine ⟨hv.grow hg hn hs.sparseArena hs.boundedArena,
    View.ext (funext fun i => ?_) (funext fun r => ?_) (funext fun r => ?_), hg.past hs, rfl,
    hg.matches hs⟩
  · show _ = Function.update t.view.int t.cells.size (some a) i
    by_cases hi : i < t.cells.size
    · rw [hg.view_int_old hs hn hi, Function.update_of_ne (by omega)]
    · by_cases he : i = t.cells.size
      · subst he
        rw [Function.update_self]
        refine view_int.2 ⟨fun o ho => ?_, by simp [content, Trail.addInt]⟩
        rcases hg.owns hs hn ho with ⟨-, h⟩ | ⟨h, -⟩
        · omega
        · cases o <;> exact h ⟨_, ho⟩
      · rw [Function.update_of_ne he, view_int_of_le _ (by simp [Trail.addInt]; omega),
          view_int_of_le _ (by omega)]
  · by_cases hr : r < t.sparseSets.size
    · exact hg.view_sparse_old hs hr
    · show _ = t.view.sparse r
      rw [view_sparse_of_le _ (by simpa [Trail.addInt] using hr),
        view_sparse_of_le _ (by omega)]
  · by_cases hr : r < t.boundedSets.size
    · exact hg.view_bounded_old hs hr
    · show _ = t.view.bounded r
      rw [view_bounded_of_le _ (by simpa [Trail.addInt] using hr),
        view_bounded_of_le _ (by omega)]

theorem newInt_apply (a : Int) (t : Trail) :
    newInt a t = .ok ⟨t.cells.size⟩ (t.addInt a).2 := rfl

theorem newBool_apply (b : Bool) (t : Trail) :
    newBool b t = .ok ⟨⟨t.cells.size⟩⟩ (t.addInt (BoolRef.bit b)).2 := rfl

/-! ## Sets -/

/-- The trail with a new sparse set. -/
def addSparse (t : Trail) (n : Nat) (offset : Int) : Trail :=
  { t with
    cells := t.cells ++ #[⟨t.clock, n⟩, ⟨t.clock, 0⟩, ⟨t.clock, n - 1⟩]
    sparseArena :=
      ⟨t.sparseArena.order ++ Array.range n, t.sparseArena.rank ++ Array.range n⟩
    sparseSets := t.sparseSets.push
      { offset, start := t.sparseArena.size, capacity := n, size := ⟨t.cells.size⟩,
        least := ⟨t.cells.size + 1⟩, greatest := ⟨t.cells.size + 2⟩ } }

/-- The trail with a new bounded set. -/
def addBounded (t : Trail) (n : Nat) : Trail :=
  { t with
    cells := t.cells ++ #[⟨t.clock, 0⟩, ⟨t.clock, n⟩]
    boundedArena :=
      ⟨t.boundedArena.order ++ Array.range n, t.boundedArena.rank ++ Array.range n⟩
    boundedSets := t.boundedSets.push
      { start := t.boundedArena.size, capacity := n, kernelSize := ⟨t.cells.size⟩,
        envelopeSize := ⟨t.cells.size + 1⟩ } }

theorem newSparse_apply (n : Nat) (offset : Int) (t : Trail) :
    newSparse n offset t = match t.sparseArena.extend n with
      | .ok _ => .ok ⟨t.sparseSets.size⟩ (t.addSparse n offset)
      | .error e => .error e t := by
  rcases Arena.extend_eq t.sparseArena n with h | h
  · simp only [newSparse, Update.bind_apply, Update.get_apply, Update.query_apply, h]
  · simp only [newSparse, Update.bind_apply, Update.get_apply, Update.query_apply, h,
      Update.modify_apply, newInt_apply, addInt, Update.pure_apply, addSparse]
    simp [← Array.append_singleton, Array.append_assoc]

theorem newBounded_apply (n : Nat) (t : Trail) :
    newBounded n t = match t.boundedArena.extend n with
      | .ok _ => .ok ⟨t.boundedSets.size⟩ (t.addBounded n)
      | .error e => .error e t := by
  rcases Arena.extend_eq t.boundedArena n with h | h
  · simp only [newBounded, Update.bind_apply, Update.get_apply, Update.query_apply, h]
  · simp only [newBounded, Update.bind_apply, Update.get_apply, Update.query_apply, h,
      Update.modify_apply, newInt_apply, addInt, Update.pure_apply, addBounded]
    simp [← Array.append_singleton, Array.append_assoc]

theorem grows_addSparse (t : Trail) (n : Nat) (offset : Int) :
    Grows t (t.addSparse n offset) where
  clock := rfl
  base := rfl
  levels := rfl
  cells := ⟨_, rfl, by simp⟩
  sparseSets := ⟨_, Array.append_singleton.symm⟩
  sparseArena := ⟨_, _, rfl⟩
  boundedSets := ⟨#[], by simp [addSparse]⟩
  boundedArena := ⟨#[], #[], by simp [addSparse]⟩

theorem grows_addBounded (t : Trail) (n : Nat) : Grows t (t.addBounded n) where
  clock := rfl
  base := rfl
  levels := rfl
  cells := ⟨_, rfl, by simp⟩
  sparseSets := ⟨#[], by simp [addBounded]⟩
  sparseArena := ⟨#[], #[], by simp [addBounded]⟩
  boundedSets := ⟨_, Array.append_singleton.symm⟩
  boundedArena := ⟨_, _, rfl⟩

/-- The new sparse set has all values. -/
theorem members_addSparse (hs : t.Sound) (n : Nat) (offset : Int) {s : SparseSet}
    (h : (t.addSparse n offset).sparseSets[t.sparseSets.size]? = some s) :
    s.Sits (t.addSparse n offset) ∧ s.view (t.addSparse n offset) = ⟨offset, n, .range n⟩ ∧
      t.sparseArena.size ≤ s.start ∧ ∀ i ∈ s.cells, t.cells.size ≤ i := by
  have hperm := Arena.permutes_range t.sparseArena hs.sparseArena.rank_size n
  have hcell : ∀ k x, (#[⟨t.clock, n⟩, ⟨t.clock, 0⟩, ⟨t.clock, n - 1⟩] : Array Cell)[k]? = some x →
      (t.addSparse n offset).content (t.cells.size + k) = some x.value := by
    intro k x hx
    rw [content, addSparse, Array.getElem?_append_right (Nat.le_add_right _ _),
      Nat.add_sub_cancel_left, hx]
    rfl
  have h0 : (t.addSparse n offset).content t.cells.size = some (n : Int) := hcell 0 _ rfl
  have h1 : (t.addSparse n offset).content (t.cells.size + 1) = some 0 := hcell 1 _ rfl
  have h2 : (t.addSparse n offset).content (t.cells.size + 2) = some ((n : Int) - 1) :=
    hcell 2 _ rfl
  rw [addSparse, Array.getElem?_push_size] at h
  cases h
  have hmem : SparseSet.members
      { offset, start := t.sparseArena.size, capacity := n, size := ⟨t.cells.size⟩,
        least := ⟨t.cells.size + 1⟩, greatest := ⟨t.cells.size + 2⟩ }
      (t.addSparse n offset) = .range n := by
    rw [SparseSet.members, count_of_content h0]
    exact hperm.zone_full
  refine ⟨⟨hperm, by simp [SparseSet.cells], ⟨n, h0, Nat.le_refl _⟩, 0, n - 1, h1, h2, ?_⟩,
    ?_, Nat.le_refl _, by simp [SparseSet.cells]⟩
  · rw [hmem]
    rintro ⟨v, hv⟩
    have hv := Finset.mem_range.1 hv
    refine ⟨0, n - 1, rfl, by omega, ⟨?_, fun w _ => Nat.zero_le w⟩, ⟨?_, fun w hw => ?_⟩⟩
    · simpa using by omega
    · simpa using by omega
    · have := Finset.mem_range.1 (Finset.mem_coe.1 hw)
      omega
  · rw [SparseSet.view, hmem]

/-- The new bounded set has all values undecided. -/
theorem zones_addBounded (hs : t.Sound) (n : Nat) {s : BoundedSet}
    (h : (t.addBounded n).boundedSets[t.boundedSets.size]? = some s) :
    s.Sits (t.addBounded n) ∧ s.view (t.addBounded n) = ⟨n, ∅, .range n⟩ ∧
      t.boundedArena.size ≤ s.start ∧ ∀ i ∈ s.cells, t.cells.size ≤ i := by
  have hperm := Arena.permutes_range t.boundedArena hs.boundedArena.rank_size n
  have hcell : ∀ k x, (#[⟨t.clock, 0⟩, ⟨t.clock, n⟩] : Array Cell)[k]? = some x →
      (t.addBounded n).content (t.cells.size + k) = some x.value := by
    intro k x hx
    rw [content, addBounded, Array.getElem?_append_right (Nat.le_add_right _ _),
      Nat.add_sub_cancel_left, hx]
    rfl
  have h0 : (t.addBounded n).content t.cells.size = some ((0 : Nat) : Int) := hcell 0 _ rfl
  have h1 : (t.addBounded n).content (t.cells.size + 1) = some (n : Int) := hcell 1 _ rfl
  rw [addBounded, Array.getElem?_push_size] at h
  cases h
  refine ⟨⟨hperm, by simp [BoundedSet.cells], ⟨0, n, h0, h1, Nat.zero_le _, Nat.le_refl _⟩⟩,
    ?_, Nat.le_refl _, by simp [BoundedSet.cells]⟩
  rw [BoundedSet.view, BoundedSet.kernel, BoundedSet.envelope, count_of_content h0,
    count_of_content h1, Arena.zone_zero]
  exact congrArg _ hperm.zone_full

theorem newSets_addSparse (hs : t.Sound) (n : Nat) (offset : Int) :
    NewSets t (t.addSparse n offset) where
  sparse r s hr hle := by
    have hlt := (Array.getElem?_eq_some_iff.1 hr).1
    simp only [addSparse, Array.size_push] at hlt
    obtain rfl : r = t.sparseSets.size := by omega
    obtain ⟨h1, -, h2⟩ := members_addSparse hs n offset hr
    exact ⟨h1, h2⟩
  bounded _ _ hr hle := absurd (Array.getElem?_eq_some_iff.1 hr).1 (Nat.not_lt_of_le hle)
  one := by simp only [addSparse, Array.size_push]; omega

theorem newSets_addBounded (hs : t.Sound) (n : Nat) : NewSets t (t.addBounded n) where
  sparse _ _ hr hle := absurd (Array.getElem?_eq_some_iff.1 hr).1 (Nat.not_lt_of_le hle)
  bounded r s hr hle := by
    have hlt := (Array.getElem?_eq_some_iff.1 hr).1
    simp only [addBounded, Array.size_push] at hlt
    obtain rfl : r = t.boundedSets.size := by omega
    obtain ⟨h1, -, h2⟩ := zones_addBounded hs n hr
    exact ⟨h1, h2⟩
  one := by simp only [addBounded, Array.size_push]; omega

/-- New cells that belong to the new set are not free. -/
theorem view_int_new (h : Grows t t') (hs : t.Sound) (hn : NewSets t t') {i : Nat}
    (hown : t.cells.size ≤ i → i < t'.cells.size → ∃ o, t'.Owns o i) :
    t'.view.int i = t.view.int i := by
  by_cases hi : i < t.cells.size
  · exact h.view_int_old hs hn hi
  · rw [view_int_of_le t (by omega)]
    by_cases hi' : i < t'.cells.size
    · obtain ⟨o, ho⟩ := hown (by omega) hi'
      rw [view_int_eq, if_neg (fun hf => isFree_iff.1 hf o ho)]
    · exact view_int_of_le _ (by omega)

theorem Valid.addSparse (hv : t.Valid) {n : Nat} (hfit : t.sparseArena.order.size + n < 2 ^ 63)
    (offset : Int) :
    Turns t (t.view.setSparse t.sparseSets.size ⟨offset, n, .range n⟩) (t.addSparse n offset) := by
  have hs := hv.sound
  have hg := grows_addSparse t n offset
  have hn := newSets_addSparse hs n offset
  have hrank := hs.sparseArena.rank_size
  refine ⟨hv.grow hg hn ⟨?_, ?_⟩ hs.boundedArena,
    View.ext (funext fun i => ?_) (funext fun r => ?_) (funext fun r => ?_), hg.past hs, rfl,
    hg.matches hs⟩
  · simp [Trail.addSparse, hrank]
  · simpa [Trail.addSparse] using hfit
  · refine view_int_new hg hs hn fun hle hlt => ⟨.sparse t.sparseSets.size, _,
      Array.getElem?_push_size, ?_⟩
    simp only [Trail.addSparse, Array.size_append, List.size_toArray, List.length_cons,
      List.length_nil] at hlt
    simp only [SparseSet.cells, List.mem_cons, List.not_mem_nil, or_false]
    omega
  · show _ = Function.update t.view.sparse t.sparseSets.size _ r
    by_cases hr : r < t.sparseSets.size
    · rw [hg.view_sparse_old hs hr, Function.update_of_ne (by omega)]
    · by_cases he : r = t.sparseSets.size
      · subst he
        have hget : (t.addSparse n offset).sparseSets[t.sparseSets.size]? = some _ :=
          Array.getElem?_push_size
        rw [Function.update_self, view_sparse hget, (members_addSparse hs n offset hget).2.1]
      · have hsize : (t.addSparse n offset).sparseSets.size = t.sparseSets.size + 1 :=
          Array.size_push _
        rw [Function.update_of_ne he, view_sparse_of_le _ (by omega),
          view_sparse_of_le _ (by omega)]
  · by_cases hr : r < t.boundedSets.size
    · exact hg.view_bounded_old hs hr
    · show _ = t.view.bounded r
      rw [view_bounded_of_le _ (by simpa [Trail.addSparse] using hr),
        view_bounded_of_le _ (by omega)]

theorem Valid.addBounded (hv : t.Valid) {n : Nat}
    (hfit : t.boundedArena.order.size + n < 2 ^ 63) :
    Turns t (t.view.setBounded t.boundedSets.size ⟨n, ∅, .range n⟩) (t.addBounded n) := by
  have hs := hv.sound
  have hg := grows_addBounded t n
  have hn := newSets_addBounded hs n
  have hrank := hs.boundedArena.rank_size
  refine ⟨hv.grow hg hn hs.sparseArena ⟨?_, ?_⟩,
    View.ext (funext fun i => ?_) (funext fun r => ?_) (funext fun r => ?_), hg.past hs, rfl,
    hg.matches hs⟩
  · simp [Trail.addBounded, hrank]
  · simpa [Trail.addBounded] using hfit
  · refine view_int_new hg hs hn fun hle hlt => ⟨.bounded t.boundedSets.size, _,
      Array.getElem?_push_size, ?_⟩
    simp only [Trail.addBounded, Array.size_append, List.size_toArray, List.length_cons,
      List.length_nil] at hlt
    simp only [BoundedSet.cells, List.mem_cons, List.not_mem_nil, or_false]
    omega
  · by_cases hr : r < t.sparseSets.size
    · exact hg.view_sparse_old hs hr
    · show _ = t.view.sparse r
      rw [view_sparse_of_le _ (by simpa [Trail.addBounded] using hr),
        view_sparse_of_le _ (by omega)]
  · show _ = Function.update t.view.bounded t.boundedSets.size _ r
    by_cases hr : r < t.boundedSets.size
    · rw [hg.view_bounded_old hs hr, Function.update_of_ne (by omega)]
    · by_cases he : r = t.boundedSets.size
      · subst he
        have hget : (t.addBounded n).boundedSets[t.boundedSets.size]? = some _ :=
          Array.getElem?_push_size
        rw [Function.update_self, view_bounded hget, (zones_addBounded hs n hget).2.1]
      · have hsize : (t.addBounded n).boundedSets.size = t.boundedSets.size + 1 :=
          Array.size_push _
        rw [Function.update_of_ne he, view_bounded_of_le _ (by omega),
          view_bounded_of_le _ (by omega)]

/-! ## Creating -/

/-- `newSparse` adds a full set at the next index, or overflows and changes nothing. -/
theorem newSparse_ends (hv : t.Valid) (n : Nat) (offset : Int) :
    Update.Ends (newSparse n offset) t
      (fun r t' => t.view.sparse r.index = none ∧
        Turns t (t.view.setSparse r.index ⟨offset, n, .range n⟩) t')
      fun e t' => e = .overflow ∧ t' = t := by
  rcases Arena.extend_eq t.sparseArena n with h | h
  · exact Update.ends_of_error (by rw [newSparse_apply, h]) ⟨rfl, rfl⟩
  · exact Update.ends_of_ok (a := ⟨t.sparseSets.size⟩) (by rw [newSparse_apply, h])
      ⟨view_sparse_of_le t (Nat.le_refl _), hv.addSparse (Arena.extend_ok h).1 offset⟩

theorem index_newSparse {n : Nat} {offset : Int} {r : SparseRef} {t' : Trail}
    (h : newSparse n offset t = .ok r t') : r.index = t.sparseSets.size := by
  rw [newSparse_apply] at h
  split at h <;> cases h
  rfl

theorem newBounded_ends (hv : t.Valid) (n : Nat) :
    Update.Ends (newBounded n) t
      (fun r t' => t.view.bounded r.index = none ∧
        Turns t (t.view.setBounded r.index ⟨n, ∅, .range n⟩) t')
      fun e t' => e = .overflow ∧ t' = t := by
  rcases Arena.extend_eq t.boundedArena n with h | h
  · exact Update.ends_of_error (by rw [newBounded_apply, h]) ⟨rfl, rfl⟩
  · exact Update.ends_of_ok (a := ⟨t.boundedSets.size⟩) (by rw [newBounded_apply, h])
      ⟨view_bounded_of_le t (Nat.le_refl _), hv.addBounded (Arena.extend_ok h).1⟩

theorem index_newBounded {n : Nat} {r : BoundedRef} {t' : Trail}
    (h : newBounded n t = .ok r t') : r.index = t.boundedSets.size := by
  rw [newBounded_apply] at h
  split at h <;> cases h
  rfl

end Trail

end Propagation
