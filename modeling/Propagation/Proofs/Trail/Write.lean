import Propagation.Proofs.Trail.Valid

/-!
# Writes and moves

What keeps a trail valid. Writes to the cells of one set change the view of that set alone
(`Valid.revise_sparse`, `Valid.revise_bounded`), a write to a free cell changes nothing but its
content (`Valid.write_free`), and a move between two positions that no frontier of the set
separates changes no view at all, present or past (`Valid.move_sparse`, `Valid.move_bounded`).
-/

set_option autoImplicit false

namespace Propagation

variable {t t' : Trail}

/-- The view of a sparse set only depends on its slots and its cells. -/
theorem SparseSet.Sits.congr {s : SparseSet} (h : s.Sits t)
    (ha : t'.sparseArena = t.sparseArena) (hc : ∀ i ∈ s.cells, t'.content i = t.content i) :
    s.Sits t' ∧ s.view t' = s.view t ∧ t'.count s.size.index = t.count s.size.index := by
  have h1 : t'.content s.size.index = t.content s.size.index := hc _ (by simp [cells])
  have h2 : t'.content s.least.index = t.content s.least.index := hc _ (by simp [cells])
  have h3 : t'.content s.greatest.index = t.content s.greatest.index := hc _ (by simp [cells])
  have hm : s.members t' = s.members t := by
    rw [members, members, ha, Trail.count_congr h1]
  refine ⟨⟨ha ▸ h.permutes, h.nodup, h1 ▸ h.size, ?_⟩, ?_, Trail.count_congr h1⟩
  · rw [h2, h3, hm]
    exact h.bounds
  · rw [view, view, hm]

theorem BoundedSet.Sits.congr {s : BoundedSet} (h : s.Sits t)
    (ha : t'.boundedArena = t.boundedArena) (hc : ∀ i ∈ s.cells, t'.content i = t.content i) :
    s.Sits t' ∧ s.view t' = s.view t ∧
      t'.count s.kernelSize.index = t.count s.kernelSize.index ∧
      t'.count s.envelopeSize.index = t.count s.envelopeSize.index := by
  have h1 : t'.content s.kernelSize.index = t.content s.kernelSize.index :=
    hc _ (by simp [cells])
  have h2 : t'.content s.envelopeSize.index = t.content s.envelopeSize.index :=
    hc _ (by simp [cells])
  refine ⟨⟨ha ▸ h.permutes, h.nodup, ?_⟩, ?_, Trail.count_congr h1, Trail.count_congr h2⟩
  · rw [h1, h2]
    exact h.sizes
  · rw [view, view, kernel, kernel, envelope, envelope, ha, Trail.count_congr h1,
      Trail.count_congr h2]

namespace Trail

/-! ## Writes -/

theorem Revises.owns (h : Revises t t') (o : Owner) (i : Nat) : t'.Owns o i ↔ t.Owns o i := by
  cases o with
  | sparse r => rw [Owns, Owns, h.sparseSets]
  | bounded r => rw [Owns, Owns, h.boundedSets]

theorem Revises.past (h : Revises t t') : t'.past = t.past := past_congr h.labels h.close

theorem Revises.matches (h : Revises t t') (hl : t.levels ≠ []) : Matches t.close t'.close := by
  rw [h.close hl]
  exact .refl _

/-- Writes keep a trail valid if every set is still well placed, and its zones have only changed
inwards. -/
theorem Valid.revise (hv : t.Valid) (h : Revises t t')
    (hs : ∀ (r : Nat) (s : SparseSet), t.sparseSets[r]? = some s →
      s.Sits t' ∧ t'.count s.size.index ≤ t.count s.size.index)
    (hb : ∀ (r : Nat) (s : BoundedSet), t.boundedSets[r]? = some s → s.Sits t' ∧
      t.count s.kernelSize.index ≤ t'.count s.kernelSize.index ∧
        t'.count s.envelopeSize.index ≤ t.count s.envelopeSize.index) : t'.Valid := by
  have hsound := hv.sound
  have hne := mt h.levels_ne_nil.2
  refine Sound.valid ?_ fun hl => by
    rw [h.close (mt h.levels_ne_nil.2 hl)]
    exact hv.close
  exact
    { tracked := h.tracked
      clocks := h.labels ▸ hsound.clocks
      sparseArena := h.sparseArena ▸ hsound.sparseArena
      boundedArena := h.boundedArena ▸ hsound.boundedArena
      sparse := fun r s hr => (hs r s (h.sparseSets ▸ hr)).1
      bounded := fun r s hr => (hb r s (h.boundedSets ▸ hr)).1
      sparse_apart := by rw [h.sparseSets]; exact hsound.sparse_apart
      bounded_apart := by rw [h.boundedSets]; exact hsound.bounded_apart
      owner := fun o o' i => by rw [h.owns, h.owns]; exact hsound.owner o o' i
      reach := by
        rw [h.labels, h.size, h.sparseSets, h.sparseArena, h.boundedSets, h.boundedArena]
        exact hsound.reach
      sparse_new := by rw [h.labels, h.sparseSets]; exact hsound.sparse_new
      bounded_new := by rw [h.labels, h.boundedSets]; exact hsound.bounded_new
      sparse_le := fun r s hr => by
        by_cases hl : t'.levels = []
        · rw [close_of_nil hl]
        · rw [h.close (hne hl)] at hr ⊢
          exact (hs r s (sparseSets_of_close hr)).2.trans (hsound.sparse_le r s hr)
      bounded_le := fun r s hr => by
        by_cases hl : t'.levels = []
        · rw [close_of_nil hl]
          exact ⟨Nat.le_refl _, Nat.le_refl _⟩
        · rw [h.close (hne hl)] at hr ⊢
          obtain ⟨-, hk, he⟩ := hb r s (boundedSets_of_close hr)
          obtain ⟨hk', he'⟩ := hsound.bounded_le r s hr
          exact ⟨hk'.trans hk, he.trans he'⟩ }

section
variable (hv : t.Valid) (h : Revises t t')
include hv h

/-- A set whose cells have kept their contents has kept its view. -/
theorem Valid.keeps_sparse {r : Nat} {s : SparseSet} (hr : t.sparseSets[r]? = some s)
    (hc : ∀ i, t.Owns (.sparse r) i → t'.content i = t.content i) :
    s.Sits t' ∧ s.view t' = s.view t ∧ t'.count s.size.index = t.count s.size.index :=
  (hv.sound.sparse r s hr).congr h.sparseArena fun i hi => hc i ⟨s, hr, hi⟩

theorem Valid.keeps_bounded {r : Nat} {s : BoundedSet} (hr : t.boundedSets[r]? = some s)
    (hc : ∀ i, t.Owns (.bounded r) i → t'.content i = t.content i) :
    s.Sits t' ∧ s.view t' = s.view t ∧
      t'.count s.kernelSize.index = t.count s.kernelSize.index ∧
      t'.count s.envelopeSize.index = t.count s.envelopeSize.index :=
  (hv.sound.bounded r s hr).congr h.boundedArena fun i hi => hc i ⟨s, hr, hi⟩

/-- Writes to the cells of a sparse set change the view of that set alone. -/
theorem Valid.revise_sparse {r : Nat} {s : SparseSet} (hr : t.sparseSets[r]? = some s)
    (hc : ∀ i, i ∉ s.cells → t'.content i = t.content i) (hs : s.Sits t')
    (hle : t'.count s.size.index ≤ t.count s.size.index) :
    Turns t (t.view.setSparse r (s.view t')) t' := by
  have hother : ∀ o, o ≠ .sparse r → ∀ i, t.Owns o i → t'.content i = t.content i :=
    fun o ho i hi => hc i fun hmem => ho (hv.sound.owner _ _ i hi ⟨s, hr, hmem⟩)
  refine ⟨?_, View.ext (funext fun i => ?_) (funext fun r' => ?_) (funext fun r' => ?_),
    h.past, h.clock, h.matches⟩
  · refine hv.revise h (fun r' s' hr' => ?_) fun r' s' hr' => ?_
    · by_cases hne : r' = r
      · subst hne
        rw [hr] at hr'
        cases hr'
        exact ⟨hs, hle⟩
      · obtain ⟨h1, -, h2⟩ := hv.keeps_sparse h hr' (hother (.sparse r') (by simpa using hne))
        exact ⟨h1, Nat.le_of_eq h2⟩
    · obtain ⟨h1, -, h2, h3⟩ := hv.keeps_bounded h hr' (hother (.bounded r') (by simp))
      exact ⟨h1, Nat.le_of_eq h2.symm, Nat.le_of_eq h3⟩
  · show t'.view.int i = t.view.int i
    rw [view_int_eq, view_int_eq, isFree_congr h.sparseSets h.boundedSets]
    split
    · next hi => exact hc i fun hmem => isFree_iff.1 hi (.sparse r) ⟨s, hr, hmem⟩
    · rfl
  · show t'.view.sparse r' = Function.update t.view.sparse r (some (s.view t')) r'
    rw [view_sparse_eq, h.sparseSets]
    by_cases hne : r' = r
    · subst hne
      rw [hr, Function.update_self]
      rfl
    · rw [Function.update_of_ne hne, view_sparse_eq]
      refine Option.map_congr fun s' hr' => ?_
      exact (hv.keeps_sparse h hr' (hother (.sparse r') (by simpa using hne))).2.1
  · show t'.view.bounded r' = t.view.bounded r'
    rw [view_bounded_eq, view_bounded_eq, h.boundedSets]
    refine Option.map_congr fun s' hr' => ?_
    exact (hv.keeps_bounded h hr' (hother (.bounded r') (by simp))).2.1

/-- Writes to the cells of a bounded set change the view of that set alone. -/
theorem Valid.revise_bounded {r : Nat} {s : BoundedSet} (hr : t.boundedSets[r]? = some s)
    (hc : ∀ i, i ∉ s.cells → t'.content i = t.content i) (hs : s.Sits t')
    (hk : t.count s.kernelSize.index ≤ t'.count s.kernelSize.index)
    (he : t'.count s.envelopeSize.index ≤ t.count s.envelopeSize.index) :
    Turns t (t.view.setBounded r (s.view t')) t' := by
  have hother : ∀ o, o ≠ .bounded r → ∀ i, t.Owns o i → t'.content i = t.content i :=
    fun o ho i hi => hc i fun hmem => ho (hv.sound.owner _ _ i hi ⟨s, hr, hmem⟩)
  refine ⟨?_, View.ext (funext fun i => ?_) (funext fun r' => ?_) (funext fun r' => ?_),
    h.past, h.clock, h.matches⟩
  · refine hv.revise h (fun r' s' hr' => ?_) fun r' s' hr' => ?_
    · obtain ⟨h1, -, h2⟩ := hv.keeps_sparse h hr' (hother (.sparse r') (by simp))
      exact ⟨h1, Nat.le_of_eq h2⟩
    · by_cases hne : r' = r
      · subst hne
        rw [hr] at hr'
        cases hr'
        exact ⟨hs, hk, he⟩
      · obtain ⟨h1, -, h2, h3⟩ :=
          hv.keeps_bounded h hr' (hother (.bounded r') (by simpa using hne))
        exact ⟨h1, Nat.le_of_eq h2.symm, Nat.le_of_eq h3⟩
  · show t'.view.int i = t.view.int i
    rw [view_int_eq, view_int_eq, isFree_congr h.sparseSets h.boundedSets]
    split
    · next hi => exact hc i fun hmem => isFree_iff.1 hi (.bounded r) ⟨s, hr, hmem⟩
    · rfl
  · show t'.view.sparse r' = t.view.sparse r'
    rw [view_sparse_eq, view_sparse_eq, h.sparseSets]
    refine Option.map_congr fun s' hr' => ?_
    exact (hv.keeps_sparse h hr' (hother (.sparse r') (by simp))).2.1
  · show t'.view.bounded r' = Function.update t.view.bounded r (some (s.view t')) r'
    rw [view_bounded_eq, h.boundedSets]
    by_cases hne : r' = r
    · subst hne
      rw [hr, Function.update_self]
      rfl
    · rw [Function.update_of_ne hne, view_bounded_eq]
      refine Option.map_congr fun s' hr' => ?_
      exact (hv.keeps_bounded h hr' (hother (.bounded r') (by simpa using hne))).2.1

end

/-- A write to a free cell changes its content alone. -/
theorem Valid.write_free (hv : t.Valid) {i : Nat} {a b : Int} (hi : t.view.int i = some b)
    (h : Wrote t i a t') : Turns t (t.view.setInt i a) t' := by
  obtain ⟨hfree, -⟩ := view_int.1 hi
  have hother : ∀ o j, t.Owns o j → t'.content j = t.content j := fun o j hj =>
    h.content_of_ne fun hji => hfree o (hji ▸ hj)
  have hsp : ∀ (r : Nat) (s : SparseSet), t.sparseSets[r]? = some s → _ := fun r s hr =>
    hv.keeps_sparse h.toRevises hr (hother (.sparse r))
  have hbo : ∀ (r : Nat) (s : BoundedSet), t.boundedSets[r]? = some s → _ := fun r s hr =>
    hv.keeps_bounded h.toRevises hr (hother (.bounded r))
  refine ⟨?_, View.ext (funext fun j => ?_) (funext fun r => ?_) (funext fun r => ?_),
    h.past, h.clock, h.matches⟩
  · refine hv.revise h.toRevises (fun r s hr => ?_) fun r s hr => ?_
    · obtain ⟨h1, -, h2⟩ := hsp r s hr
      exact ⟨h1, Nat.le_of_eq h2⟩
    · obtain ⟨h1, -, h2, h3⟩ := hbo r s hr
      exact ⟨h1, Nat.le_of_eq h2.symm, Nat.le_of_eq h3⟩
  · show t'.view.int j = Function.update t.view.int i (some a) j
    rw [view_int_eq, isFree_congr h.sparseSets h.boundedSets]
    by_cases hji : j = i
    · subst hji
      rw [if_pos (isFree_iff.2 hfree), h.content_self, Function.update_self]
    · rw [h.content_of_ne hji, Function.update_of_ne hji, view_int_eq]
  · show t'.view.sparse r = t.view.sparse r
    rw [view_sparse_eq, view_sparse_eq, h.sparseSets]
    exact Option.map_congr fun s hr => (hsp r s hr).2.1
  · show t'.view.bounded r = t.view.bounded r
    rw [view_bounded_eq, view_bounded_eq, h.boundedSets]
    exact Option.map_congr fun s hr => (hbo r s hr).2.1

end Trail

/-! ## Free cells -/

namespace IntRef

variable {t : Trail} {r : IntRef} {a b d : Int}

theorem get_free (h : t.view.int r.index = some a) : r.get t = .ok a :=
  get_eq (Trail.view_int.1 h).2

theorem set_free (hv : t.Valid) (h : t.view.int r.index = some a) (b : Int) :
    ∃ t', r.set b t = .ok b t' ∧ Trail.Turns t (t.view.setInt r.index b) t' := by
  obtain ⟨t', hset, hw⟩ := set_eq hv.sound.tracked (Trail.view_int.1 h).2 b
  exact ⟨t', hset, hv.write_free h hw⟩

theorem add_free (hv : t.Valid) (h : t.view.int r.index = some a)
    (hb : Checked.int (a + d) = .ok b) :
    ∃ t', r.add d t = .ok b t' ∧ Trail.Turns t (t.view.setInt r.index b) t' := by
  obtain ⟨t', hadd, hw⟩ := add_eq hv.sound.tracked (Trail.view_int.1 h).2 hb
  exact ⟨t', hadd, hv.write_free h hw⟩

theorem add_overflow (h : t.view.int r.index = some a) {e : Fault}
    (hb : Checked.int (a + d) = .error e) : r.add d t = .error .overflow t := by
  obtain rfl := Checked.int_eq_error hb
  simp only [add, Update.bind_apply, Update.query_apply, get_free h, hb]

end IntRef

namespace BoolRef

variable {t : Trail} {r : BoolRef} {b : Bool}

/-- The content of a cell for a truth value. -/
def bit (b : Bool) : Int := if b then 1 else 0

theorem get_bit (h : t.view.int r.cell.index = some (bit b)) : r.get t = .ok b := by
  rw [get, IntRef.get_free h]
  cases b <;> rfl

theorem set_bit (hv : t.Valid) {a : Int} (h : t.view.int r.cell.index = some a) (b : Bool) :
    ∃ t', r.set b t = .ok b t' ∧ Trail.Turns t (t.view.setInt r.cell.index (bit b)) t' := by
  obtain ⟨t', hset, ht⟩ := IntRef.set_free hv h (bit b)
  refine ⟨t', ?_, ht⟩
  have hset' : r.cell.set (if b then 1 else 0) t = .ok (bit b) t' := hset
  simp only [set, Update.bind_apply, hset', Update.pure_apply]
  cases b <;> rfl

end BoolRef

/-! ## Moves -/

namespace Arena

theorem Moved.truncate {m m' : Arena} {start n a k e : Nat} (h : Moved m m' start n a k)
    (he : start + n ≤ e) (ha : a < n) (hk : k < n) :
    Moved (m.truncate e) (m'.truncate e) start n a k := by
  have hm := sameOn_truncate m he
  have hm' := sameOn_truncate m' he
  refine ⟨?_, ?_, fun v hv => ?_, fun p hp => ?_, fun i hi => ?_⟩
  · simp [Arena.truncate, Array.take_eq_extract, h.order_size]
  · simp [Arena.truncate, Array.take_eq_extract, h.rank_size]
  · rw [hm'.rankOf hv, hm.rankOf hv, hm.rankOf ha, h.rankOf_eq v hv]
  · rw [hm'.valueAt hp, hm.valueAt hp, hm.valueAt hk, hm.rankOf ha, h.valueAt_eq p hp]
  · simp only [Arena.truncate, Trail.getElem?_take, h.outside i hi, and_self]

/-- A move beyond the slots that `truncate` keeps leaves the truncated arena unchanged. -/
theorem Moved.truncate_eq {m m' : Arena} {start n a k e : Nat} (h : Moved m m' start n a k)
    (he : e ≤ start) : m'.truncate e = m.truncate e := by
  have hout : ∀ i, i < e → m'.order[i]? = m.order[i]? ∧ m'.rank[i]? = m.rank[i]? :=
    fun i hi => h.outside i (.inl (by omega))
  rw [Arena.truncate, Arena.truncate]
  congr 1
  · refine Array.ext_getElem? fun i => ?_
    rw [Trail.getElem?_take, Trail.getElem?_take]
    split
    · exact (hout i ‹_›).1
    · rfl
  · refine Array.ext_getElem? fun i => ?_
    rw [Trail.getElem?_take, Trail.getElem?_take]
    split
    · exact (hout i ‹_›).2
    · rfl

theorem size_truncate_congr {m m' : Arena} (h : m'.size = m.size) (e : Nat) :
    (m'.truncate e).size = (m.truncate e).size := by
  simp only [size] at h
  simp [size, truncate, Array.take_eq_extract, h]

theorem Sized.moved {m m' : Arena} {start n a k : Nat} (h : m.Sized)
    (hm : Moved m m' start n a k) : m'.Sized :=
  ⟨hm.rank_size.trans (h.rank_size.trans hm.order_size.symm), hm.order_size ▸ h.lt⟩

end Arena

namespace Trail

/-- The trail with the arena `m` for its sparse sets. -/
def withSparse (t : Trail) (m : Arena) : Trail := { t with sparseArena := m }

/-- The trail with the arena `m` for its bounded sets. -/
def withBounded (t : Trail) (m : Arena) : Trail := { t with boundedArena := m }

theorem close_withSparse {l : Level} {ls : List Level} (hl : t.levels = l :: ls) (m : Arena) :
    (t.withSparse m).close = t.close.withSparse (m.truncate l.extent.sparseSlots) := by
  rw [close_of_cons hl, close_of_cons (t := t.withSparse m) hl]
  rfl

theorem close_withBounded {l : Level} {ls : List Level} (hl : t.levels = l :: ls) (m : Arena) :
    (t.withBounded m).close = t.close.withBounded (m.truncate l.extent.boundedSlots) := by
  rw [close_of_cons hl, close_of_cons (t := t.withBounded m) hl]
  rfl

section
variable {r p a : Nat} {m' : Arena}

/-- A move within the members of one sparse set keeps the view of every sparse set. -/
theorem Sound.sits_withSparse (hs : t.Sound) {s : SparseSet} (hr : t.sparseSets[r]? = some s)
    (hm : Arena.Moved t.sparseArena m' s.start s.capacity a p) (ha : a < s.capacity)
    (hra : t.sparseArena.rankOf s.start a < t.count s.size.index)
    (hp : p < t.count s.size.index) {r' : Nat} {s' : SparseSet}
    (hr' : t.sparseSets[r']? = some s') :
    s'.Sits (t.withSparse m') ∧ s'.view (t.withSparse m') = s'.view t := by
  have hsit := hs.sparse r' s' hr'
  have hn : t.count s.size.index ≤ s.capacity := by
    obtain ⟨n, hn, hle⟩ := (hs.sparse r s hr).size
    rwa [count_of_content hn]
  have hkey : m'.Permutes s'.start s'.capacity ∧ m'.zone s'.start s'.capacity
      (t.count s'.size.index) = t.sparseArena.zone s'.start s'.capacity
      (t.count s'.size.index) := by
    by_cases hne : r' = r
    · subst hne
      rw [hr] at hr'
      cases hr'
      exact ⟨hm.permutes hsit.permutes ha (by omega),
        hm.zone_eq ⟨fun _ => hp, fun _ => hra⟩⟩
    · have hapart : s.start + s.capacity ≤ s'.start ∨ s'.start + s'.capacity ≤ s.start := by
        rcases Nat.lt_or_gt_of_ne hne with h | h
        · exact .inr (hs.sparse_apart r' r s' s h hr' hr)
        · exact .inl (hs.sparse_apart r r' s s' h hr hr')
      have hsame := hm.sameOn hapart
      exact ⟨hsame.permutes (hm.order_size ▸ hsit.permutes.order_le)
        (hm.rank_size ▸ hsit.permutes.rank_le) hsit.permutes, hsame.zone _⟩
  have hmem : s'.members (t.withSparse m') = s'.members t := hkey.2
  refine ⟨⟨hkey.1, hsit.nodup, hsit.size, ?_⟩, ?_⟩
  · rw [hmem]
    exact hsit.bounds
  · rw [SparseSet.view, SparseSet.view, hmem]

/-- The step of `Valid.move_sparse` from `t.close` to `t`. -/
theorem Valid.withSparse_of_close {s : SparseSet} (hv : t.Valid)
    (hr : t.sparseSets[r]? = some s)
    (hm : Arena.Moved t.sparseArena m' s.start s.capacity a p) (ha : a < s.capacity)
    (hra : t.sparseArena.rankOf s.start a < t.count s.size.index)
    (hp : p < t.count s.size.index)
    (hclose : t.levels ≠ [] → Turns t.close t.close.view (t.withSparse m').close) :
    Turns t t.view (t.withSparse m') := by
  have hs := hv.sound
  have hsits : ∀ {r' : Nat} {s' : SparseSet}, t.sparseSets[r']? = some s' → _ :=
    fun hr' => hs.sits_withSparse hr hm ha hra hp hr'
  have hsize : m'.size = t.sparseArena.size := hm.order_size
  have hclosed : ∃ m, (t.withSparse m').close = t.close.withSparse m ∧
      (t.levels ≠ [] → m.size = t.close.sparseArena.size) := by
    cases hl : t.levels with
    | nil =>
      exact ⟨m', by rw [close_of_nil hl, close_of_nil (t := t.withSparse m') hl],
        fun h => absurd rfl h⟩
    | cons l ls =>
      refine ⟨_, close_withSparse hl m', fun _ => ?_⟩
      rw [close_of_cons hl]
      exact Arena.size_truncate_congr hsize _
  obtain ⟨m, hmc, hmsize⟩ := hclosed
  refine ⟨Sound.valid ?_ fun hl => (hclose hl).valid, ?_, ?_, rfl, fun hl => ?_⟩
  · exact
      { tracked := ⟨hs.tracked.stamp_le, hs.tracked.clock_le, hs.tracked.covers⟩
        clocks := hs.clocks
        sparseArena := hs.sparseArena.moved hm
        boundedArena := hs.boundedArena
        sparse := fun r' s' hr' => (hsits hr').1
        bounded := fun r' s' hr' => ⟨(hs.bounded r' s' hr').1, (hs.bounded r' s' hr').2,
          (hs.bounded r' s' hr').3⟩
        sparse_apart := hs.sparse_apart
        bounded_apart := hs.bounded_apart
        owner := fun o o' i h h' => hs.owner o o' i (by cases o <;> exact h)
          (by cases o' <;> exact h')
        reach := fun c e rest h => by
          show _ ∧ _ ∧ _ ≤ m'.size ∧ _
          rw [hsize]
          exact hs.reach c e rest h
        sparse_new := hs.sparse_new
        bounded_new := hs.bounded_new
        sparse_le := by rw [hmc]; exact hs.sparse_le
        bounded_le := by rw [hmc]; exact hs.bounded_le }
  · refine View.ext rfl (funext fun r' => ?_) rfl
    rw [view_sparse_eq, view_sparse_eq]
    exact Option.map_congr fun s' hr' => (hsits hr').2
  · cases hl : t.levels with
    | nil => rw [past_of_nil hl, past_of_nil (t := t.withSparse m') hl]
    | cons l ls =>
      obtain ⟨-, hview, hpast, -, -⟩ := hclose (by simp [hl])
      rw [past_of_cons hl, past_of_cons (t := t.withSparse m') hl, hview, hpast]
  · rw [hmc]
    exact ⟨rfl, rfl, rfl, rfl, rfl, hmsize hl, rfl⟩

/-- A move within the members of a sparse set changes neither the current view nor those of the open
levels. -/
theorem Valid.move_sparse {s : SparseSet} (hv : t.Valid) (hr : t.sparseSets[r]? = some s)
    (hm : Arena.Moved t.sparseArena m' s.start s.capacity a p) (ha : a < s.capacity)
    (hra : t.sparseArena.rankOf s.start a < t.count s.size.index)
    (hp : p < t.count s.size.index) : Turns t t.view (t.withSparse m') := by
  induction hl : t.levels generalizing t m' with
  | nil => exact hv.withSparse_of_close hr hm ha hra hp fun h => absurd hl h
  | cons l ls ih =>
    refine hv.withSparse_of_close hr hm ha hra hp fun _ => ?_
    rw [close_withSparse hl]
    have harena : t.close.sparseArena = t.sparseArena.truncate l.extent.sparseSlots := by
      rw [close_of_cons hl]
      rfl
    by_cases hin : r < l.extent.sparseSets
    · -- The set was there when the level was opened, and was no smaller.
      have hr' : t.close.sparseSets[r]? = some s := by
        rw [getElem?_close_sparseSets hl, if_pos hin, hr]
      have hle := hv.sound.sparse_le r s hr'
      have hcap := (hv.sound.sparse r s hr).size
      obtain ⟨n, hn, hncap⟩ := hcap
      have hslots : s.start + s.capacity ≤ l.extent.sparseSlots :=
        (harena ▸ (hv.close.sound.sparse r s hr').permutes).le_of_truncate
      have hpcap : p < s.capacity := by
        rw [count_of_content hn] at hp
        omega
      have hrank := (Arena.sameOn_truncate t.sparseArena hslots).rankOf ha
      refine ih hv.close hr' (harena ▸ hm.truncate hslots ha hpcap) ?_ (by omega)
        (levels_close_of_cons hl)
      rw [harena, hrank]
      omega
    · have hstart := hv.sound.sparse_new _ _ _ (labels_of_cons hl) r s hr (by simpa using hin)
      rw [hm.truncate_eq hstart, ← harena]
      exact hv.close.turns_self

/-- A move of an undecided value of one bounded set keeps the view of every bounded set. -/
theorem Sound.sits_withBounded (hs : t.Sound) {s : BoundedSet}
    (hr : t.boundedSets[r]? = some s)
    (hm : Arena.Moved t.boundedArena m' s.start s.capacity a p) (ha : a < s.capacity)
    (hk : t.count s.kernelSize.index ≤ t.boundedArena.rankOf s.start a)
    (he : t.boundedArena.rankOf s.start a < t.count s.envelopeSize.index)
    (hkp : t.count s.kernelSize.index ≤ p) (hep : p < t.count s.envelopeSize.index)
    {r' : Nat} {s' : BoundedSet} (hr' : t.boundedSets[r']? = some s') :
    s'.Sits (t.withBounded m') ∧ s'.view (t.withBounded m') = s'.view t := by
  have hsit := hs.bounded r' s' hr'
  have hn : t.count s.envelopeSize.index ≤ s.capacity := by
    obtain ⟨k, e, -, he, -, hle⟩ := (hs.bounded r s hr).sizes
    rwa [count_of_content he]
  have hkey : m'.Permutes s'.start s'.capacity ∧
      m'.zone s'.start s'.capacity (t.count s'.kernelSize.index) = s'.kernel t ∧
      m'.zone s'.start s'.capacity (t.count s'.envelopeSize.index) = s'.envelope t := by
    by_cases hne : r' = r
    · subst hne
      rw [hr] at hr'
      cases hr'
      exact ⟨hm.permutes hsit.permutes ha (by omega), hm.zone_eq (by omega),
        hm.zone_eq (by omega)⟩
    · have hapart : s.start + s.capacity ≤ s'.start ∨ s'.start + s'.capacity ≤ s.start := by
        rcases Nat.lt_or_gt_of_ne hne with h | h
        · exact .inr (hs.bounded_apart r' r s' s h hr' hr)
        · exact .inl (hs.bounded_apart r r' s s' h hr hr')
      have hsame := hm.sameOn hapart
      exact ⟨hsame.permutes (hm.order_size ▸ hsit.permutes.order_le)
        (hm.rank_size ▸ hsit.permutes.rank_le) hsit.permutes, hsame.zone _, hsame.zone _⟩
  obtain ⟨hperm, hker, henv⟩ := hkey
  refine ⟨⟨hperm, hsit.nodup, hsit.sizes⟩, ?_⟩
  have hk' : s'.kernel (t.withBounded m') = s'.kernel t := hker
  have he' : s'.envelope (t.withBounded m') = s'.envelope t := henv
  rw [BoundedSet.view, BoundedSet.view, hk', he']

/-- The step of `Valid.move_bounded` from `t.close` to `t`. -/
theorem Valid.withBounded_of_close {s : BoundedSet} (hv : t.Valid)
    (hr : t.boundedSets[r]? = some s)
    (hm : Arena.Moved t.boundedArena m' s.start s.capacity a p) (ha : a < s.capacity)
    (hk : t.count s.kernelSize.index ≤ t.boundedArena.rankOf s.start a)
    (he : t.boundedArena.rankOf s.start a < t.count s.envelopeSize.index)
    (hkp : t.count s.kernelSize.index ≤ p) (hep : p < t.count s.envelopeSize.index)
    (hclose : t.levels ≠ [] → Turns t.close t.close.view (t.withBounded m').close) :
    Turns t t.view (t.withBounded m') := by
  have hs := hv.sound
  have hsits : ∀ {r' : Nat} {s' : BoundedSet}, t.boundedSets[r']? = some s' → _ :=
    fun hr' => hs.sits_withBounded hr hm ha hk he hkp hep hr'
  have hsize : m'.size = t.boundedArena.size := hm.order_size
  have hclosed : ∃ m, (t.withBounded m').close = t.close.withBounded m ∧
      (t.levels ≠ [] → m.size = t.close.boundedArena.size) := by
    cases hl : t.levels with
    | nil =>
      exact ⟨m', by rw [close_of_nil hl, close_of_nil (t := t.withBounded m') hl],
        fun h => absurd rfl h⟩
    | cons l ls =>
      refine ⟨_, close_withBounded hl m', fun _ => ?_⟩
      rw [close_of_cons hl]
      exact Arena.size_truncate_congr hsize _
  obtain ⟨m, hmc, hmsize⟩ := hclosed
  refine ⟨Sound.valid ?_ fun hl => (hclose hl).valid, ?_, ?_, rfl, fun hl => ?_⟩
  · exact
      { tracked := ⟨hs.tracked.stamp_le, hs.tracked.clock_le, hs.tracked.covers⟩
        clocks := hs.clocks
        sparseArena := hs.sparseArena
        boundedArena := hs.boundedArena.moved hm
        sparse := fun r' s' hr' => ⟨(hs.sparse r' s' hr').1, (hs.sparse r' s' hr').2,
          (hs.sparse r' s' hr').3, (hs.sparse r' s' hr').4⟩
        bounded := fun r' s' hr' => (hsits hr').1
        sparse_apart := hs.sparse_apart
        bounded_apart := hs.bounded_apart
        owner := fun o o' i h h' => hs.owner o o' i (by cases o <;> exact h)
          (by cases o' <;> exact h')
        reach := fun c e rest h => by
          show _ ∧ _ ∧ _ ∧ _ ∧ _ ≤ m'.size
          rw [hsize]
          exact hs.reach c e rest h
        sparse_new := hs.sparse_new
        bounded_new := hs.bounded_new
        sparse_le := by rw [hmc]; exact hs.sparse_le
        bounded_le := by rw [hmc]; exact hs.bounded_le }
  · refine View.ext rfl rfl (funext fun r' => ?_)
    rw [view_bounded_eq, view_bounded_eq]
    exact Option.map_congr fun s' hr' => (hsits hr').2
  · cases hl : t.levels with
    | nil => rw [past_of_nil hl, past_of_nil (t := t.withBounded m') hl]
    | cons l ls =>
      obtain ⟨-, hview, hpast, -, -⟩ := hclose (by simp [hl])
      rw [past_of_cons hl, past_of_cons (t := t.withBounded m') hl, hview, hpast]
  · rw [hmc]
    exact ⟨rfl, rfl, rfl, rfl, rfl, rfl, hmsize hl⟩

/-- A move between the kernel of a bounded set and the outside of its envelope changes neither the
current view nor those of the open levels. -/
theorem Valid.move_bounded {s : BoundedSet} (hv : t.Valid) (hr : t.boundedSets[r]? = some s)
    (hm : Arena.Moved t.boundedArena m' s.start s.capacity a p) (ha : a < s.capacity)
    (hk : t.count s.kernelSize.index ≤ t.boundedArena.rankOf s.start a)
    (he : t.boundedArena.rankOf s.start a < t.count s.envelopeSize.index)
    (hkp : t.count s.kernelSize.index ≤ p) (hep : p < t.count s.envelopeSize.index) :
    Turns t t.view (t.withBounded m') := by
  induction hl : t.levels generalizing t m' with
  | nil => exact hv.withBounded_of_close hr hm ha hk he hkp hep fun h => absurd hl h
  | cons l ls ih =>
    refine hv.withBounded_of_close hr hm ha hk he hkp hep fun _ => ?_
    rw [close_withBounded hl]
    have harena : t.close.boundedArena = t.boundedArena.truncate l.extent.boundedSlots := by
      rw [close_of_cons hl]
      rfl
    by_cases hin : r < l.extent.boundedSets
    · -- The set was there when the level was opened, with a larger undecided zone.
      have hr' : t.close.boundedSets[r]? = some s := by
        rw [getElem?_close_boundedSets hl, if_pos hin, hr]
      obtain ⟨hlk, hle⟩ := hv.sound.bounded_le r s hr'
      obtain ⟨-, n, -, hn, -, hncap⟩ := (hv.sound.bounded r s hr).sizes
      have hslots : s.start + s.capacity ≤ l.extent.boundedSlots :=
        (harena ▸ (hv.close.sound.bounded r s hr').permutes).le_of_truncate
      have hpcap : p < s.capacity := by
        rw [count_of_content hn] at hep
        omega
      have hrank := (Arena.sameOn_truncate t.boundedArena hslots).rankOf ha
      refine ih hv.close hr' (harena ▸ hm.truncate hslots ha hpcap) ?_ ?_ (by omega) (by omega)
        (levels_close_of_cons hl)
      · rw [harena, hrank]
        omega
      · rw [harena, hrank]
        omega
    · have hstart := hv.sound.bounded_new _ _ _ (labels_of_cons hl) r s hr (by simpa using hin)
      rw [hm.truncate_eq hstart, ← harena]
      exact hv.close.turns_self

end

end Trail

end Propagation
