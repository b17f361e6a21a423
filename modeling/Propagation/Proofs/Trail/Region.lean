import Mathlib.Data.Finset.Sort
import Propagation.Proofs.Checked
import Propagation.Trail.Arena

/-!
# Regions of an arena

`Arena.Permutes m start n`: the slots from `start` to `start + n` hold a permutation of the values
below `n`, in both directions. `Arena.zone m start n k` is the set of the values at its first `k`
positions; sparse sets, kernels and envelopes are zones.

Every narrowing moves one value to a given position (`Arena.Moved`). The zones whose frontier does
not separate the two positions stay what they are (`Moved.zone_eq`), and the value stands alone
between the zones on either side of its new position (`Moved.zone_succ`).
-/

set_option autoImplicit false

namespace Propagation.Arena

/-- The position of the value `v` in the set at `start`. -/
def rankOf (m : Arena) (start v : Nat) : Nat := (m.rank[start + v]?).getD 0

/-- The value at the position `k` of the set at `start`. -/
def valueAt (m : Arena) (start k : Nat) : Nat := (m.order[start + k]?).getD 0

/-- The slots of a set with `n` values hold a permutation of them and its inverse. -/
structure Permutes (m : Arena) (start n : Nat) : Prop where
  order_le : start + n ≤ m.order.size
  rank_le : start + n ≤ m.rank.size
  rankOf_lt : ∀ v < n, m.rankOf start v < n
  valueAt_lt : ∀ k < n, m.valueAt start k < n
  valueAt_rankOf : ∀ v < n, m.valueAt start (m.rankOf start v) = v
  rankOf_valueAt : ∀ k < n, m.rankOf start (m.valueAt start k) = k

/-- The values at the first `k` positions of a set with `n` values. -/
def zone (m : Arena) (start n k : Nat) : Finset Nat :=
  (Finset.range n).filter fun v => m.rankOf start v < k

@[simp] theorem mem_zone {m : Arena} {start n k v : Nat} :
    v ∈ m.zone start n k ↔ v < n ∧ m.rankOf start v < k := by
  simp [zone]

theorem zone_subset_range (m : Arena) (start n k : Nat) :
    m.zone start n k ⊆ Finset.range n := Finset.filter_subset _ _

theorem zone_mono (m : Arena) (start n : Nat) {k l : Nat} (h : k ≤ l) :
    m.zone start n k ⊆ m.zone start n l := by
  intro v hv
  rw [mem_zone] at hv ⊢
  exact ⟨hv.1, Nat.lt_of_lt_of_le hv.2 h⟩

@[simp] theorem zone_zero (m : Arena) (start n : Nat) : m.zone start n 0 = ∅ := by
  ext v
  simp

section
variable {m : Arena} {start n : Nat}

theorem Permutes.position (h : m.Permutes start n) {v : Nat} (hv : v < n) :
    m.position start v = .ok (m.rankOf start v) := by
  have hlt : start + v < m.rank.size := by have := h.rank_le; omega
  rw [Arena.position, Checked.fetch_eq_ok, rankOf, Array.getElem?_eq_getElem hlt]
  rfl

theorem Permutes.value (h : m.Permutes start n) {k : Nat} (hk : k < n) :
    m.value (start + k) = .ok (m.valueAt start k) := by
  have hlt : start + k < m.order.size := by have := h.order_le; omega
  rw [Arena.value, Checked.fetch_eq_ok, valueAt, Array.getElem?_eq_getElem hlt]
  rfl

theorem Permutes.rankOf_inj (h : m.Permutes start n) {v w : Nat} (hv : v < n) (hw : w < n)
    (he : m.rankOf start v = m.rankOf start w) : v = w := by
  rw [← h.valueAt_rankOf v hv, he, h.valueAt_rankOf w hw]

theorem Permutes.zone_full (h : m.Permutes start n) : m.zone start n n = Finset.range n := by
  ext v
  rw [mem_zone, Finset.mem_range]
  exact ⟨And.left, fun hv => ⟨hv, h.rankOf_lt v hv⟩⟩

/-- A zone is the image of the first `k` positions under `valueAt`. -/
theorem Permutes.zone_eq_image (h : m.Permutes start n) {k : Nat} (hk : k ≤ n) :
    m.zone start n k = (Finset.range k).image (m.valueAt start) := by
  ext v
  rw [mem_zone, Finset.mem_image]
  constructor
  · rintro ⟨hv, hlt⟩
    exact ⟨m.rankOf start v, Finset.mem_range.2 hlt, h.valueAt_rankOf v hv⟩
  · rintro ⟨p, hp, rfl⟩
    have hp := Finset.mem_range.1 hp
    exact ⟨h.valueAt_lt p (by omega), by rw [h.rankOf_valueAt p (by omega)]; exact hp⟩

theorem Permutes.card_zone (h : m.Permutes start n) {k : Nat} (hk : k ≤ n) :
    (m.zone start n k).card = k := by
  rw [h.zone_eq_image hk, Finset.card_image_of_injOn, Finset.card_range]
  intro p hp q hq he
  have hp : p < k := by simpa using hp
  have hq : q < k := by simpa using hq
  rw [← h.rankOf_valueAt p (by omega), ← h.rankOf_valueAt q (by omega)]
  exact congrArg _ he

/-- A slice lists a zone, without duplicates. -/
theorem Permutes.slice (h : m.Permutes start n) {k : Nat} (hk : k ≤ n)
    (hsize : m.order.size < 2 ^ 63) :
    ∃ vs, m.slice start k = .ok vs ∧ vs.Nodup ∧ ∀ v, v ∈ vs ↔ v ∈ m.zone start n k := by
  have hle : start + k ≤ m.order.size := by have := h.order_le; omega
  refine ⟨(List.range k).map (m.valueAt start), ?_, ?_, fun v => ?_⟩
  · have hnat : Checked.nat (start + k) = .ok (start + k) :=
      Checked.nat_eq_ok.2 ⟨by omega, rfl⟩
    have hlist : (m.order.extract start (start + k)).toList
        = (List.range k).map (m.valueAt start) := by
      apply List.ext_getElem
      · simp; omega
      · intro i h1 h2
        have hi : i < k := by simpa using h2
        have : start + i < m.order.size := by omega
        simp [valueAt, this]
    simp only [Arena.slice, hnat, bind, Except.bind, if_pos hle, hlist]
  · refine List.Nodup.map_on (fun p hp q hq he => ?_) List.nodup_range
    have hp := List.mem_range.1 hp
    have hq := List.mem_range.1 hq
    rw [← h.rankOf_valueAt p (by omega), he, h.rankOf_valueAt q (by omega)]
  · rw [h.zone_eq_image hk]
    simp

/-! ## Other regions and more slots -/

/-- Two arenas agree on the slots of a set. -/
structure SameOn (m m' : Arena) (start n : Nat) : Prop where
  order : ∀ k < n, m'.order[start + k]? = m.order[start + k]?
  rank : ∀ k < n, m'.rank[start + k]? = m.rank[start + k]?

theorem SameOn.refl (m : Arena) (start n : Nat) : SameOn m m start n :=
  ⟨fun _ _ => rfl, fun _ _ => rfl⟩

theorem SameOn.trans {m m' m'' : Arena} {start n : Nat} (h : SameOn m m' start n)
    (h' : SameOn m' m'' start n) : SameOn m m'' start n where
  order k hk := (h'.order k hk).trans (h.order k hk)
  rank k hk := (h'.rank k hk).trans (h.rank k hk)

theorem SameOn.rankOf {m m' : Arena} {start n : Nat} (h : SameOn m m' start n) {v : Nat}
    (hv : v < n) : m'.rankOf start v = m.rankOf start v := by
  rw [Arena.rankOf, Arena.rankOf, h.rank v hv]

theorem SameOn.valueAt {m m' : Arena} {start n : Nat} (h : SameOn m m' start n) {k : Nat}
    (hk : k < n) : m'.valueAt start k = m.valueAt start k := by
  rw [Arena.valueAt, Arena.valueAt, h.order k hk]

theorem SameOn.zone {m m' : Arena} {start n : Nat} (h : SameOn m m' start n) (k : Nat) :
    m'.zone start n k = m.zone start n k := by
  ext v
  rw [mem_zone, mem_zone]
  exact and_congr_right fun hv => by rw [h.rankOf hv]

theorem SameOn.permutes {m m' : Arena} {start n : Nat} (h : SameOn m m' start n)
    (ho : start + n ≤ m'.order.size) (hr : start + n ≤ m'.rank.size) (hp : m.Permutes start n) :
    m'.Permutes start n where
  order_le := ho
  rank_le := hr
  rankOf_lt v hv := by rw [h.rankOf hv]; exact hp.rankOf_lt v hv
  valueAt_lt k hk := by rw [h.valueAt hk]; exact hp.valueAt_lt k hk
  valueAt_rankOf v hv := by
    rw [h.rankOf hv, h.valueAt (hp.rankOf_lt v hv)]; exact hp.valueAt_rankOf v hv
  rankOf_valueAt k hk := by
    rw [h.valueAt hk, h.rankOf (hp.valueAt_lt k hk)]; exact hp.rankOf_valueAt k hk

/-- A set that is left after `truncate e` has all of its slots below `e`. -/
theorem Permutes.le_of_truncate {e : Nat} (h : (m.truncate e).Permutes start n) :
    start + n ≤ e := by
  have hle := h.order_le
  simp only [truncate, Array.take_eq_extract, Array.size_extract] at hle
  omega

/-- `truncate` keeps the regions below its bound. -/
theorem sameOn_truncate (m : Arena) {start n e : Nat} (h : start + n ≤ e) :
    SameOn m (m.truncate e) start n := by
  constructor <;>
  · intro k hk
    simp only [truncate, Array.take_eq_extract, Array.getElem?_extract]
    split
    · simp
    · rw [eq_comm, Array.getElem?_eq_none]
      omega

theorem extend_ok {m : Arena} {n : Nat} {m' : Arena} (h : m.extend n = .ok m') :
    m.order.size + n < 2 ^ 63 ∧
      m' = ⟨m.order ++ Array.range n, m.rank ++ Array.range n⟩ := by
  unfold extend at h
  cases hc : Checked.int (m.size + n) with
  | error e => rw [hc] at h; cases h
  | ok r =>
    rw [hc] at h
    obtain ⟨hr, -⟩ := Checked.int_eq_ok.1 hc
    cases h
    have hs : m.size = m.order.size := rfl
    exact ⟨by omega, rfl⟩

/-- `extend` appends the identity on `n` values, or overflows. -/
theorem extend_eq (m : Arena) (n : Nat) :
    m.extend n = .error .overflow ∨
      m.extend n = .ok ⟨m.order ++ Array.range n, m.rank ++ Array.range n⟩ := by
  unfold extend Checked.int
  split
  · exact .inr rfl
  · exact .inl rfl

theorem sameOn_append (m : Arena) (xs ys : Array Nat) {start n : Nat}
    (ho : start + n ≤ m.order.size) (hr : start + n ≤ m.rank.size) :
    SameOn m ⟨m.order ++ xs, m.rank ++ ys⟩ start n := by
  constructor <;>
  · intro k hk
    rw [Array.getElem?_append_left (by omega)]

/-- The region appended by `extend` is a permutation. -/
theorem permutes_range (m : Arena) (hs : m.rank.size = m.order.size) (n : Nat) :
    Permutes ⟨m.order ++ Array.range n, m.rank ++ Array.range n⟩ m.order.size n := by
  have hr : ∀ v < n, rankOf ⟨m.order ++ Array.range n, m.rank ++ Array.range n⟩
      m.order.size v = v := by
    intro v hv
    simp [rankOf, hs, hv]
  have hv : ∀ k < n, valueAt ⟨m.order ++ Array.range n, m.rank ++ Array.range n⟩
      m.order.size k = k := by
    intro k hk
    simp [valueAt, hk]
  constructor
  · simp
  · simp [hs]
  · intro v h; rw [hr v h]; exact h
  · intro k h; rw [hv k h]; exact h
  · intro v h; rw [hr v h, hv v h]
  · intro k h; rw [hv k h, hr k h]

/-! ## Moving a value -/

/-- The arena `m'` is `m` after the value `a` of a set has changed places with the one at position
`k`. -/
structure Moved (m m' : Arena) (start n a k : Nat) : Prop where
  order_size : m'.order.size = m.order.size
  rank_size : m'.rank.size = m.rank.size
  rankOf_eq : ∀ v < n, m'.rankOf start v =
    if v = a then k else if m.rankOf start v = k then m.rankOf start a else m.rankOf start v
  valueAt_eq : ∀ p < n, m'.valueAt start p =
    if p = k then a else if p = m.rankOf start a then m.valueAt start k else m.valueAt start p
  outside : ∀ i, i < start ∨ start + n ≤ i →
    m'.order[i]? = m.order[i]? ∧ m'.rank[i]? = m.rank[i]?

theorem exchange_eq {xs : Array Nat} {i j : Nat} (hi : i < xs.size) (hj : j < xs.size) :
    exchange xs i j =
      .ok ((xs.setIfInBounds i ((xs[j]?).getD 0)).setIfInBounds j ((xs[i]?).getD 0)) := by
  have h1 : Checked.fetch xs i = .ok ((xs[i]?).getD 0) :=
    Checked.fetch_eq_ok.2 (by simp [hi])
  have h2 : Checked.fetch xs j = .ok ((xs[j]?).getD 0) :=
    Checked.fetch_eq_ok.2 (by simp [hj])
  simp only [exchange, h1, h2, bind, Except.bind]

theorem getElem?_exchanged {xs : Array Nat} {i j : Nat} (hi : i < xs.size) (hj : j < xs.size)
    (x y p : Nat) :
    ((xs.setIfInBounds i y).setIfInBounds j x)[p]? =
      if p = j then some x else if p = i then some y else xs[p]? := by
  rw [Array.getElem?_setIfInBounds, Array.getElem?_setIfInBounds]
  by_cases h1 : j = p
  · subst h1; simp [hj]
  · by_cases h2 : i = p
    · subst h2; simp [h1, Ne.symm h1, hi]
    · simp [h1, h2, Ne.symm h1, Ne.symm h2]

theorem Permutes.swap (h : m.Permutes start n) {a k : Nat} (ha : a < n) (hk : k < n) :
    ∃ m', m.swap start a (m.valueAt start k) = .ok m' ∧ Moved m m' start n a k := by
  have hb : m.valueAt start k < n := h.valueAt_lt k hk
  have hpa : m.rankOf start a < n := h.rankOf_lt a ha
  have hpb : m.rankOf start (m.valueAt start k) = k := h.rankOf_valueAt k hk
  have ho := h.order_le
  have hr := h.rank_le
  have hx : exchange m.order (start + m.rankOf start a) (start + k) = .ok
      ((m.order.setIfInBounds (start + m.rankOf start a) (m.valueAt start k)).setIfInBounds
        (start + k) a) := by
    rw [exchange_eq (by omega) (by omega),
      show (m.order[start + m.rankOf start a]?).getD 0 = a from h.valueAt_rankOf a ha]
    rfl
  have hy : exchange m.rank (start + a) (start + m.valueAt start k) = .ok
      ((m.rank.setIfInBounds (start + a) k).setIfInBounds
        (start + m.valueAt start k) (m.rankOf start a)) := by
    rw [exchange_eq (by omega) (by omega),
      show (m.rank[start + m.valueAt start k]?).getD 0 = k from hpb]
    rfl
  have hswap : m.swap start a (m.valueAt start k) = .ok
      ⟨(m.order.setIfInBounds (start + m.rankOf start a) (m.valueAt start k)).setIfInBounds
          (start + k) a,
        (m.rank.setIfInBounds (start + a) k).setIfInBounds
          (start + m.valueAt start k) (m.rankOf start a)⟩ := by
    rw [Arena.swap, h.position ha, h.position hb]
    simp only [bind, Except.bind]
    rw [hpb, hx]
    simp only [hy]
  refine ⟨_, hswap, by simp, by simp, fun v hv => ?_, fun p hp => ?_, fun i hi => ?_⟩
  · rw [rankOf]
    simp only
    rw [getElem?_exchanged (by omega) (by omega)]
    simp only [Nat.add_left_cancel_iff]
    have hiff : v = m.valueAt start k ↔ m.rankOf start v = k := by
      constructor
      · rintro rfl; exact hpb
      · intro he; exact h.rankOf_inj hv hb (he.trans hpb.symm)
    by_cases hva : v = a
    · subst hva
      by_cases hvb : v = m.valueAt start k
      · rw [if_pos hvb, if_pos rfl, Option.getD_some]
        exact hiff.1 hvb
      · rw [if_neg hvb, if_pos rfl, if_pos rfl, Option.getD_some]
    · by_cases hvb : v = m.valueAt start k
      · rw [if_pos hvb, if_neg hva, if_pos (hiff.1 hvb), Option.getD_some]
      · rw [if_neg hvb, if_neg hva, if_neg hva, if_neg (fun he => hvb (hiff.2 he))]
        rfl
  · rw [valueAt]
    simp only
    rw [getElem?_exchanged (by omega) (by omega)]
    simp only [Nat.add_left_cancel_iff]
    split
    · rfl
    · split <;> rfl
  · simp only
    rw [getElem?_exchanged (by omega) (by omega), getElem?_exchanged (by omega) (by omega)]
    constructor
    · rw [if_neg (by omega), if_neg (by omega)]
    · rw [if_neg (by omega), if_neg (by omega)]

namespace Moved

variable {m' : Arena} {a k : Nat}

theorem permutes (hm : Moved m m' start n a k) (h : m.Permutes start n) (ha : a < n)
    (hk : k < n) : m'.Permutes start n := by
  have hpa := h.rankOf_lt a ha
  refine ⟨hm.order_size ▸ h.order_le, hm.rank_size ▸ h.rank_le, fun v hv => ?_, fun p hp => ?_,
    fun v hv => ?_, fun p hp => ?_⟩
  · rw [hm.rankOf_eq v hv]
    have := h.rankOf_lt v hv
    split
    · exact hk
    · split <;> omega
  · rw [hm.valueAt_eq p hp]
    have := h.valueAt_lt p hp
    have := h.valueAt_lt k hk
    split
    · exact ha
    · split <;> omega
  · rw [hm.rankOf_eq v hv]
    by_cases hva : v = a
    · rw [if_pos hva, hm.valueAt_eq k hk, if_pos rfl, hva]
    · rw [if_neg hva]
      by_cases hvk : m.rankOf start v = k
      · rw [if_pos hvk, hm.valueAt_eq _ hpa, if_neg, if_pos rfl, ← hvk, h.valueAt_rankOf v hv]
        intro he
        exact hva (h.rankOf_inj hv ha (hvk.trans he.symm))
      · rw [if_neg hvk, hm.valueAt_eq _ (h.rankOf_lt v hv), if_neg hvk, if_neg,
          h.valueAt_rankOf v hv]
        intro he
        exact hva (h.rankOf_inj hv ha he)
  · rw [hm.valueAt_eq p hp]
    by_cases hpk : p = k
    · rw [if_pos hpk, hm.rankOf_eq a ha, if_pos rfl, hpk]
    · rw [if_neg hpk]
      by_cases hpr : p = m.rankOf start a
      · rw [if_pos hpr, hm.rankOf_eq _ (h.valueAt_lt k hk), if_neg,
          if_pos (h.rankOf_valueAt k hk), hpr]
        intro he
        exact hpk (by rw [hpr, ← he, h.rankOf_valueAt k hk])
      · rw [if_neg hpr, hm.rankOf_eq _ (h.valueAt_lt p hp), if_neg, if_neg,
          h.rankOf_valueAt p hp]
        · rw [h.rankOf_valueAt p hp]; exact hpk
        · intro he
          exact hpr (by rw [← he, h.rankOf_valueAt p hp])

/-- A zone is unchanged if both positions are within it, or neither. -/
theorem zone_eq (hm : Moved m m' start n a k) {l : Nat} (hl : m.rankOf start a < l ↔ k < l) :
    m'.zone start n l = m.zone start n l := by
  ext v
  rw [mem_zone, mem_zone]
  refine and_congr_right fun hv => ?_
  rw [hm.rankOf_eq v hv]
  split
  · next he => rw [he]; exact hl.symm
  · split
    · next he => rw [he]; exact hl
    · rfl

/-- The zone up to and including the new position `k` is the one before it with `a` added. -/
theorem zone_succ (hm : Moved m m' start n a k) (h : m.Permutes start n) (ha : a < n)
    (hk : k < n) : m'.zone start n (k + 1) = insert a (m'.zone start n k) := by
  have hp := hm.permutes h ha hk
  have hak : m'.rankOf start a = k := by rw [hm.rankOf_eq a ha, if_pos rfl]
  ext v
  rw [Finset.mem_insert, mem_zone, mem_zone]
  constructor
  · rintro ⟨hv, hlt⟩
    by_cases he : m'.rankOf start v = k
    · exact .inl (hp.rankOf_inj hv ha (he.trans hak.symm))
    · exact .inr ⟨hv, by omega⟩
  · rintro (rfl | ⟨hv, hlt⟩)
    · exact ⟨ha, by omega⟩
    · exact ⟨hv, by omega⟩

theorem notMem_zone (hm : Moved m m' start n a k) (ha : a < n) : a ∉ m'.zone start n k := by
  rw [mem_zone, hm.rankOf_eq a ha, if_pos rfl]
  omega

theorem sameOn (hm : Moved m m' start n a k) {start' n' : Nat}
    (h : start + n ≤ start' ∨ start' + n' ≤ start) : SameOn m m' start' n' := by
  constructor
  · intro p hp
    exact (hm.outside _ (by omega)).1
  · intro p hp
    exact (hm.outside _ (by omega)).2

end Moved

end

end Propagation.Arena
