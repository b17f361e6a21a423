import Propagation.Proofs.Trail.Write
import Propagation.Trail.SparseSet

/-!
# Sparse sets do what their views say

On a valid trail the queries of a sparse set answer about its values, and each narrowing keeps the
values that it is to keep (`SparseView.keep`) and changes nothing else. The only fault is an
overflow, of an integer too far from the offset of the set. Where all values have 64 bits an
overflow comes up before anything has been done.
-/

set_option autoImplicit false

namespace Propagation

namespace SparseView

/-- The integers in the set. -/
def values (x : SparseView) : Finset Int := x.members.image fun v : Nat => x.offset + (v : Int)

/-- The set with only the integers that satisfy `p`. -/
def keep (x : SparseView) (p : Int → Prop) [DecidablePred p] : SparseView :=
  { x with members := x.members.filter fun v => p (x.offset + v) }

theorem mem_values {x : SparseView} {a : Int} :
    a ∈ x.values ↔ ∃ v ∈ x.members, x.offset + (v : Int) = a := by
  rw [values, Finset.mem_image]

@[simp] theorem mem_values_keep {x : SparseView} {p : Int → Prop} [DecidablePred p] {a : Int} :
    a ∈ (x.keep p).values ↔ a ∈ x.values ∧ p a := by
  rw [mem_values, mem_values]
  constructor
  · rintro ⟨v, hv, rfl⟩
    exact ⟨⟨v, (Finset.mem_filter.1 hv).1, rfl⟩, (Finset.mem_filter.1 hv).2⟩
  · rintro ⟨⟨v, hv, rfl⟩, hp⟩
    exact ⟨v, Finset.mem_filter.2 ⟨hv, hp⟩, rfl⟩

theorem values_keep (x : SparseView) (p : Int → Prop) [DecidablePred p] :
    (x.keep p).values = x.values.filter p := by
  ext a
  rw [mem_values_keep, Finset.mem_filter]

theorem card_values (x : SparseView) : x.values.card = x.members.card :=
  Finset.card_image_of_injective _ fun v w h => by
    have : x.offset + (v : Int) = x.offset + (w : Int) := h
    omega

theorem keep_true (x : SparseView) {p : Int → Prop} [DecidablePred p]
    (h : ∀ a ∈ x.values, p a) : x.keep p = x := by
  rw [keep, Finset.filter_true_of_mem fun v hv => h _ (mem_values.2 ⟨v, hv, rfl⟩)]

theorem keep_keep (x : SparseView) (p q : Int → Prop) [DecidablePred p] [DecidablePred q] :
    (x.keep p).keep q = x.keep fun a => p a ∧ q a := by
  rw [keep, keep, keep, Finset.filter_filter]

theorem keep_congr (x : SparseView) {p q : Int → Prop} [DecidablePred p] [DecidablePred q]
    (h : ∀ a ∈ x.values, p a ↔ q a) : x.keep p = x.keep q := by
  rw [keep, keep, Finset.filter_congr fun v hv => h _ (mem_values.2 ⟨v, hv, rfl⟩)]

/-- The integer `a` and its distance from the offset are machine integers. -/
def Reaches (x : SparseView) (a : Int) : Prop :=
  Checked.Signed a ∧ Checked.Signed (a - x.offset)

theorem Reaches.between {x : SparseView} {a b c : Int} (ha : x.Reaches a) (hc : x.Reaches c)
    (hab : a ≤ b) (hbc : b ≤ c) : x.Reaches b := by
  unfold Reaches Checked.Signed at *
  omega

/-- Every value of the set is a machine integer. -/
def Fits (x : SparseView) : Prop := ∀ a ∈ x.values, Checked.Signed a

theorem members_keep_false (x : SparseView) {p : Int → Prop} [DecidablePred p]
    (h : ∀ a ∈ x.values, ¬p a) : (x.keep p).members = ∅ :=
  Finset.filter_false_of_mem fun v hv => h _ (mem_values.2 ⟨v, hv, rfl⟩)

end SparseView

/-! ## Scans -/

namespace Arena

variable {m : Arena} {start n : Nat}

theorem Permutes.firstWithin (h : m.Permutes start n) (size : Nat) {v k : Nat}
    (hk : v + k ≤ n) : ∃ o, m.firstWithin start size v k = .ok o ∧
      (∀ w, o = some w → v ≤ w ∧ w ∈ m.zone start n size ∧
        ∀ u, v ≤ u → u < w → u ∉ m.zone start n size) ∧
      (o = none → ∀ u, v ≤ u → u < v + k → u ∉ m.zone start n size) := by
  induction k generalizing v with
  | zero => exact ⟨none, rfl, by simp, fun _ u h1 h2 => absurd h2 (by omega)⟩
  | succ k ih =>
    have hv : v < n := by omega
    rw [Arena.firstWithin, h.position hv]
    simp only [bind, Except.bind]
    by_cases hlt : m.rankOf start v < size
    · rw [if_pos hlt]
      refine ⟨some v, rfl, fun w hw => ?_, nofun⟩
      cases hw
      exact ⟨Nat.le_refl _, mem_zone.2 ⟨hv, hlt⟩, fun u h1 h2 => absurd h2 (by omega)⟩
    · rw [if_neg hlt]
      have hno : v ∉ m.zone start n size := fun hm => hlt (mem_zone.1 hm).2
      obtain ⟨o, ho, hsome, hnone⟩ := ih (v := v + 1) (by omega)
      refine ⟨o, ho, fun w hw => ?_, fun hn u h1 h2 => ?_⟩
      · obtain ⟨h1, h2, h3⟩ := hsome w hw
        refine ⟨by omega, h2, fun u hu hlt' => ?_⟩
        by_cases he : u = v
        · exact he ▸ hno
        · exact h3 u (by omega) hlt'
      · by_cases he : u = v
        · exact he ▸ hno
        · exact hnone hn u (by omega) (by omega)

theorem Permutes.lastWithin (h : m.Permutes start n) (size : Nat) {v k : Nat}
    (hk : v + k ≤ n) : ∃ o, m.lastWithin start size v k = .ok o ∧
      (∀ w, o = some w → w < v + k ∧ w ∈ m.zone start n size ∧
        ∀ u, w < u → u < v + k → u ∉ m.zone start n size) ∧
      (o = none → ∀ u, v ≤ u → u < v + k → u ∉ m.zone start n size) := by
  induction k with
  | zero => exact ⟨none, rfl, by simp, fun _ u h1 h2 => absurd h2 (by omega)⟩
  | succ k ih =>
    have hv : v + k < n := by omega
    rw [Arena.lastWithin, h.position hv]
    simp only [bind, Except.bind]
    by_cases hlt : m.rankOf start (v + k) < size
    · rw [if_pos hlt]
      refine ⟨some (v + k), rfl, fun w hw => ?_, nofun⟩
      cases hw
      exact ⟨by omega, mem_zone.2 ⟨hv, hlt⟩, fun u h1 h2 => absurd h2 (by omega)⟩
    · rw [if_neg hlt]
      have hno : v + k ∉ m.zone start n size := fun hm => hlt (mem_zone.1 hm).2
      obtain ⟨o, ho, hsome, hnone⟩ := ih (by omega)
      refine ⟨o, ho, fun w hw => ?_, fun hn u h1 h2 => ?_⟩
      · obtain ⟨h1, h2, h3⟩ := hsome w hw
        refine ⟨by omega, h2, fun u hu hlt' => ?_⟩
        by_cases he : u = v + k
        · exact he ▸ hno
        · exact h3 u hu (by omega)
      · by_cases he : u = v + k
        · exact he ▸ hno
        · exact hnone hn u h1 (by omega)

end Arena

theorem Checked.toSigned_of_lt {n : Nat} (h : n < 2 ^ 63) : Checked.toSigned n = n := by
  refine Int.bmod_eq_of_le_mul_two ?_ ?_ <;> omega

namespace SparseRef

theorem mapM_int (f : Nat → Int) (vs : List Nat) :
    vs.mapM (fun v => Checked.int (f v)) =
      if ∀ v ∈ vs, Checked.int (f v) = .ok (f v) then .ok (vs.map f) else .error .overflow := by
  induction vs with
  | nil => rfl
  | cons v vs ih =>
    rw [List.mapM_cons, ih]
    cases hv : Checked.int (f v) with
    | error e =>
      have hno : ¬∀ u ∈ v :: vs, Checked.int (f u) = .ok (f u) := fun h => by
        have hok := h v List.mem_cons_self
        rw [hv] at hok
        cases hok
      rw [Checked.int_eq_error hv, if_neg hno]
      rfl
    | ok a =>
      have hv' : Checked.int (f v) = .ok (f v) := by
        rw [hv, (Checked.int_eq_ok.1 hv).2]
      obtain ⟨-, rfl⟩ := Checked.int_eq_ok.1 hv
      by_cases hvs : ∀ v ∈ vs, Checked.int (f v) = .ok (f v)
      · have hall : ∀ u ∈ v :: vs, Checked.int (f u) = .ok (f u) := by
          rw [List.forall_mem_cons]
          exact ⟨hv', hvs⟩
        rw [if_pos hvs, if_pos hall]
        rfl
      · rw [if_neg hvs, if_neg fun h => hvs fun u hu => h u (List.mem_cons_of_mem v hu)]
        rfl

variable {t : Trail} {r : SparseRef} {x : SparseView}

/-- The layout of a set that the view has, with the cells and the slots that make up the view. -/
theorem layout_of_view (hv : t.Valid) (hx : t.view.sparse r.index = some x) :
    ∃ s n, t.sparseSets[r.index]? = some s ∧ r.layout t = .ok s ∧ s.view t = x ∧ s.Sits t ∧
      t.content s.size.index = some ((n : Nat) : Int) ∧ n ≤ s.capacity ∧
      s.members t = t.sparseArena.zone s.start s.capacity n ∧ (s.members t).card = n ∧
      s.start + s.capacity < 2 ^ 63 := by
  obtain ⟨s, hs, hview⟩ := Trail.sparse_of_view hx
  have hsit := hv.sound.sparse r.index s hs
  obtain ⟨n, hn, hcap⟩ := hsit.size
  have hmem : s.members t = t.sparseArena.zone s.start s.capacity n := by
    rw [SparseSet.members, Trail.count_of_content hn]
  refine ⟨s, n, hs, Checked.fetch_eq_ok.2 hs, hview, hsit, hn, hcap, hmem, ?_, ?_⟩
  · rw [hmem]
    exact hsit.permutes.card_zone hcap
  · have := hsit.permutes.order_le
    have := hv.sound.sparseArena.lt
    omega

/-! ## Queries -/

section
variable (hv : t.Valid) (hx : t.view.sparse r.index = some x)
include hv hx

theorem size_eq : r.size t = .ok x.members.card := by
  obtain ⟨s, n, -, hlay, rfl, -, hn, hcap, -, hcard, hlt⟩ := layout_of_view hv hx
  rw [size, hlay]
  exact (IntRef.getNat_eq hn (by omega)).trans (congrArg _ hcard.symm)

theorem isEmpty_eq : r.isEmpty t = .ok (decide (x.members = ∅)) := by
  rw [isEmpty, size_eq hv hx]
  simp only [bind, Except.bind]
  congr 1
  rw [Bool.eq_iff_iff, beq_iff_eq, decide_eq_true_iff, Finset.card_eq_zero]

theorem contains_eq (a : Int) :
    r.contains a t = (Checked.int (a - x.offset)).map fun _ => decide (a ∈ x.values) := by
  obtain ⟨s, n, -, hlay, rfl, hsit, hn, hcap, hmem, -, hlt⟩ := layout_of_view hv hx
  rw [contains, hlay]
  simp only [bind, Except.bind]
  cases hc : Checked.int (a - s.offset) with
  | error e =>
    show _ = (Checked.int (a - s.offset)).map _
    rw [hc]
    rfl
  | ok v =>
    obtain ⟨-, rfl⟩ := Checked.int_eq_ok.1 hc
    show _ = (Checked.int (a - s.offset)).map _
    rw [hc]
    simp only [Except.map]
    have hiff : a ∈ (s.view t).values ↔
        0 ≤ a - s.offset ∧ (a - s.offset).toNat ∈ s.members t := by
      rw [SparseView.mem_values]
      constructor
      · rintro ⟨v, hv', rfl⟩
        have he : s.offset + (v : Int) - s.offset = v := by omega
        show 0 ≤ s.offset + (v : Int) - s.offset ∧
          (s.offset + (v : Int) - s.offset).toNat ∈ s.members t
        rw [he]
        exact ⟨by omega, hv'⟩
      · rintro ⟨h0, hm⟩
        refine ⟨_, hm, ?_⟩
        show s.offset + ((a - s.offset).toNat : Int) = a
        omega
    split
    · next h =>
      congr 1
      rw [eq_comm, decide_eq_false_iff_not, hiff, hmem, Arena.mem_zone]
      omega
    · next h =>
      rw [IntRef.getNat_eq hn (by omega)]
      simp only
      rw [hsit.permutes.position (by omega)]
      simp only
      congr 1
      rw [decide_eq_decide, hiff, hmem, Arena.mem_zone]
      constructor
      · intro hlt'
        exact ⟨by omega, by omega, hlt'⟩
      · rintro ⟨-, -, hlt'⟩
        exact hlt'

theorem min_of_empty (h : x.members = ∅) : r.min t = .ok none := by
  obtain ⟨s, n, -, hlay, rfl, -, hn, -, -, hcard, -⟩ := layout_of_view hv hx
  have hn0 : n = 0 := by
    rw [← hcard]
    exact Finset.card_eq_zero.2 h
  rw [min, bound, hlay]
  simp only [bind, Except.bind, IntRef.get_eq hn]
  rw [if_pos (by omega)]

theorem max_of_empty (h : x.members = ∅) : r.max t = .ok none := by
  obtain ⟨s, n, -, hlay, rfl, -, hn, -, -, hcard, -⟩ := layout_of_view hv hx
  have hn0 : n = 0 := by
    rw [← hcard]
    exact Finset.card_eq_zero.2 h
  rw [max, bound, hlay]
  simp only [bind, Except.bind, IntRef.get_eq hn]
  rw [if_pos (by omega)]

/-- The stored bounds of a set that is not empty. -/
theorem bounds_of_nonempty (h : x.members.Nonempty) :
    ∃ s lo hi, t.sparseSets[r.index]? = some s ∧ r.layout t = .ok s ∧ s.view t = x ∧
      t.content s.least.index = some ((lo : Nat) : Int) ∧
      t.content s.greatest.index = some ((hi : Nat) : Int) ∧
      IsLeast (x.members : Set Nat) lo ∧ IsGreatest (x.members : Set Nat) hi ∧
      hi < s.capacity := by
  obtain ⟨s, n, hs, hlay, rfl, hsit, hn, hcap, hmem, hcard, -⟩ := layout_of_view hv hx
  obtain ⟨_, _, hlo, hhi, hb⟩ := hsit.bounds
  obtain ⟨a, b, rfl, rfl, hleast, hgreat⟩ := hb h
  refine ⟨s, a, b, hs, hlay, rfl, hlo, hhi, hleast, hgreat, ?_⟩
  have := hgreat.1
  rw [hmem] at this
  exact (Arena.mem_zone.1 this).1

theorem min_eq {a : Int} (h : IsLeast (x.values : Set Int) a) :
    r.min t = (Checked.int a).map some := by
  obtain ⟨v, hv', rfl⟩ := SparseView.mem_values.1 (Finset.mem_coe.1 h.1)
  obtain ⟨s, lo, hi, hs, hlay, rfl, hlo, -, hleast, -, -⟩ := bounds_of_nonempty hv hx ⟨v, hv'⟩
  obtain ⟨s', n, hs', -, -, -, hn, -, -, hcard, -⟩ := layout_of_view hv hx
  rw [hs] at hs'
  cases hs'
  have hn0 : n ≠ 0 := fun h0 => by
    rw [h0, Finset.card_eq_zero] at hcard
    change v ∈ s.members t at hv'
    rw [hcard] at hv'
    cases hv'
  have hlov : lo = v := by
    have h1 : lo ≤ v := hleast.2 hv'
    have h2 := h.2 (Finset.mem_coe.2 (SparseView.mem_values.2 ⟨lo, hleast.1, rfl⟩))
    omega
  rw [min, bound, hlay]
  simp only [bind, Except.bind, IntRef.get_eq hn]
  rw [if_neg (by omega)]
  simp only [IntRef.get_eq hlo]
  have he : ((lo : Int) + s.offset) = (s.view t).offset + (v : Int) := by
    show (lo : Int) + s.offset = s.offset + (v : Int)
    omega
  rw [he]
  cases Checked.int ((s.view t).offset + (v : Int)) <;> rfl

theorem max_eq {a : Int} (h : IsGreatest (x.values : Set Int) a) :
    r.max t = (Checked.int a).map some := by
  obtain ⟨v, hv', rfl⟩ := SparseView.mem_values.1 (Finset.mem_coe.1 h.1)
  obtain ⟨s, lo, hi, hs, hlay, rfl, -, hhi, -, hgreat, -⟩ := bounds_of_nonempty hv hx ⟨v, hv'⟩
  obtain ⟨s', n, hs', -, -, -, hn, -, -, hcard, -⟩ := layout_of_view hv hx
  rw [hs] at hs'
  cases hs'
  have hn0 : n ≠ 0 := fun h0 => by
    rw [h0, Finset.card_eq_zero] at hcard
    change v ∈ s.members t at hv'
    rw [hcard] at hv'
    cases hv'
  have hhiv : hi = v := by
    have h1 : v ≤ hi := hgreat.2 hv'
    have h2 := h.2 (Finset.mem_coe.2 (SparseView.mem_values.2 ⟨hi, hgreat.1, rfl⟩))
    omega
  rw [max, bound, hlay]
  simp only [bind, Except.bind, IntRef.get_eq hn]
  rw [if_neg (by omega)]
  simp only [IntRef.get_eq hhi]
  have he : ((hi : Int) + s.offset) = (s.view t).offset + (v : Int) := by
    show (hi : Int) + s.offset = s.offset + (v : Int)
    omega
  rw [he]
  cases Checked.int ((s.view t).offset + (v : Int)) <;> rfl

/-- `values` lists the integers of the set without duplicates, or overflows at one that is not a
machine integer. -/
theorem values_eq :
    ∃ vs : List Int, vs.Nodup ∧ (∀ a, a ∈ vs ↔ a ∈ x.values) ∧ r.values t =
      if ∀ a ∈ x.values, Checked.int a = .ok a then .ok vs else .error .overflow := by
  obtain ⟨s, n, -, hlay, rfl, hsit, hn, hcap, hmem, -, hlt⟩ := layout_of_view hv hx
  obtain ⟨vs, hvs, hnd, hvsmem⟩ := hsit.permutes.slice hcap hv.sound.sparseArena.lt
  have hvalues : ∀ a, a ∈ vs.map (fun v : Nat => (v : Int) + s.offset) ↔
      a ∈ (s.view t).values := by
    intro a
    rw [List.mem_map, SparseView.mem_values]
    refine exists_congr fun v => ?_
    rw [hvsmem, ← hmem, Int.add_comm]
    exact Iff.rfl
  refine ⟨vs.map fun v : Nat => (v : Int) + s.offset, ?_, hvalues, ?_⟩
  · refine List.Nodup.map (fun v w h => ?_) hnd
    have : (v : Int) + s.offset = (w : Int) + s.offset := h
    omega
  · have hiff : (∀ a ∈ (s.view t).values, Checked.int a = .ok a) ↔
        ∀ v ∈ vs, Checked.int ((v : Int) + s.offset) = .ok ((v : Int) + s.offset) := by
      simp only [← hvalues, List.forall_mem_map]
    rw [values, hlay]
    simp only [bind, Except.bind, IntRef.getNat_eq hn (by omega), hvs, hiff]
    exact mapM_int _ vs

/-! ## Narrowing -/

/-- `swap` on a member and a position among the members. -/
theorem swap_eq {s : SparseSet} (hs : t.sparseSets[r.index]? = some s) {v p : Nat}
    (hmem : v ∈ s.members t) (hp : p < t.count s.size.index) :
    ∃ m', swap s v (t.sparseArena.valueAt s.start p) t = .ok () (t.withSparse m') ∧
      t.sparseArena.value (s.start + p) = .ok (t.sparseArena.valueAt s.start p) ∧
      Arena.Moved t.sparseArena m' s.start s.capacity v p ∧
      Trail.Turns t t.view (t.withSparse m') := by
  obtain ⟨s', n, hs', -, -, hsit, hn, hcap, -, -, -⟩ := layout_of_view hv hx
  rw [hs] at hs'
  cases hs'
  rw [SparseSet.members, Arena.mem_zone] at hmem
  have hpcap : p < s.capacity := by
    rw [Trail.count_of_content hn] at hp
    omega
  obtain ⟨m', hswap, hm⟩ := hsit.permutes.swap hmem.1 hpcap
  refine ⟨m', ?_, hsit.permutes.value hpcap, hm, hv.move_sparse hs hm hmem.1 hmem.2 hp⟩
  simp only [swap, Update.bind_apply, Update.query_apply, hswap, Update.modify_apply]
  rfl

end

/-- `tighten` repairs the bounds after the value `v` has left the first `k` positions. -/
theorem tighten_eq {s : SparseSet} (ht : t.Tracked)
    (hperm : t.sparseArena.Permutes s.start s.capacity) (hnd : s.cells.Nodup)
    (hlt : s.start + s.capacity < 2 ^ 63) {v k lo hi : Nat} {M : Finset Nat}
    (hlo : t.content s.least.index = some (lo : Int))
    (hhi : t.content s.greatest.index = some (hi : Int)) (hcap : hi < s.capacity)
    (hM : t.sparseArena.zone s.start s.capacity k = M.erase v)
    (hleast : IsLeast (M : Set Nat) lo) (hgreat : IsGreatest (M : Set Nat) hi)
    (hne : (M.erase v).Nonempty) :
    ∃ t' lo' hi', tighten s v k t = .ok () t' ∧ Trail.Revises t t' ∧
      (∀ i, i ≠ s.least.index → i ≠ s.greatest.index → t'.content i = t.content i) ∧
      t'.content s.least.index = some ((lo' : Nat) : Int) ∧
      t'.content s.greatest.index = some ((hi' : Nat) : Int) ∧
      IsLeast ((M.erase v : Finset Nat) : Set Nat) lo' ∧
      IsGreatest ((M.erase v : Finset Nat) : Set Nat) hi' := by
  have hlohi : lo ≤ hi := hleast.2 hgreat.1
  have hgh : s.greatest.index ≠ s.least.index := by
    simp only [SparseSet.cells, List.nodup_cons, List.mem_cons, List.not_mem_nil, or_false] at hnd
    exact fun h => hnd.2.1 h.symm
  have hreadlo : s.least.getNat t = .ok lo := IntRef.getNat_eq hlo (by omega)
  have hreadhi : s.greatest.getNat t = .ok hi := IntRef.getNat_eq hhi (by omega)
  obtain ⟨u, hu⟩ := hne
  by_cases hvlo : v = lo
  · -- The least value has gone, so the next one is found by a scan upwards.
    subst hvlo
    have huv : u ≠ v := (Finset.mem_erase.1 hu).1
    have hle : v ≤ u := hleast.2 (Finset.mem_erase.1 hu).2
    have hule : u ≤ hi := hgreat.2 (Finset.mem_erase.1 hu).2
    have hvhi : v ≠ hi := by omega
    obtain ⟨o, ho, hsome, hnone⟩ :=
      hperm.firstWithin k (v := v + 1) (k := hi - v) (by omega)
    cases o with
    | none => exact absurd (hM ▸ hu) (hnone rfl u (by omega) (by omega))
    | some w =>
      obtain ⟨hw1, hw2, hw3⟩ := hsome w rfl
      have hwM := hM ▸ hw2
      have hwle : w ≤ hi := hgreat.2 (Finset.mem_erase.1 hwM).2
      obtain ⟨t', hset, hw⟩ := IntRef.set_eq ht hlo (Checked.toSigned w)
      refine ⟨t', w, hi, ?_, hw.toRevises, fun i hi1 _ => hw.content_of_ne hi1, ?_,
        (hw.content_of_ne hgh).trans hhi, ⟨hwM, fun y hy => ?_⟩, ⟨?_, fun y hy => ?_⟩⟩
      · simp only [tighten, Update.bind_apply, Update.query_apply, hreadlo, hreadhi, if_true, ho,
          Option.getD_some, Update.discard_apply, hset, if_neg hvhi, Update.pure_apply]
      · rw [hw.content_self, Checked.toSigned_of_lt (by omega)]
      · apply Nat.le_of_not_lt
        intro hyw
        have hyM := Finset.mem_coe.1 hy
        have hyv : y ≠ v := (Finset.mem_erase.1 hyM).1
        have hvy : v ≤ y := hleast.2 (Finset.mem_erase.1 hyM).2
        exact hw3 y (by omega) hyw (hM ▸ hyM)
      · exact Finset.mem_coe.2 (Finset.mem_erase.2 ⟨hvhi.symm, hgreat.1⟩)
      · exact hgreat.2 (Finset.mem_erase.1 (Finset.mem_coe.1 hy)).2
  · by_cases hvhi : v = hi
    · -- The greatest value has gone, so the next one is found by a scan downwards.
      subst hvhi
      have hloM : lo ∈ M.erase v := Finset.mem_erase.2 ⟨Ne.symm hvlo, hleast.1⟩
      obtain ⟨o, ho, hsome, hnone⟩ :=
        hperm.lastWithin k (v := lo) (k := v - lo) (by omega)
      cases o with
      | none => exact absurd (hM ▸ hloM) (hnone rfl lo (by omega) (by omega))
      | some w =>
        obtain ⟨hw1, hw2, hw3⟩ := hsome w rfl
        have hwM := hM ▸ hw2
        obtain ⟨t', hset, hw⟩ := IntRef.set_eq ht hhi (Checked.toSigned w)
        refine ⟨t', lo, w, ?_, hw.toRevises, fun i _ hi2 => hw.content_of_ne hi2,
          (hw.content_of_ne hgh.symm).trans hlo, ?_, ⟨hloM, fun y hy => ?_⟩,
          ⟨hwM, fun y hy => ?_⟩⟩
        · simp only [tighten, Update.bind_apply, Update.query_apply, hreadlo, hreadhi,
            if_neg hvlo, if_true, ho, Option.getD_some, Update.discard_apply, hset]
        · rw [hw.content_self, Checked.toSigned_of_lt (by omega)]
        · exact hleast.2 (Finset.mem_erase.1 (Finset.mem_coe.1 hy)).2
        · apply Nat.le_of_not_lt
          intro hyw
          have hyM := Finset.mem_coe.1 hy
          have hyv : y ≠ v := (Finset.mem_erase.1 hyM).1
          have hvy : y ≤ v := hgreat.2 (Finset.mem_erase.1 hyM).2
          exact hw3 y hyw (by omega) (hM ▸ hyM)
    · refine ⟨t, lo, hi, ?_, ht.revises_self, fun i _ _ => rfl, hlo, hhi,
        ⟨Finset.mem_erase.2 ⟨Ne.symm hvlo, hleast.1⟩, fun y hy => ?_⟩,
        ⟨Finset.mem_erase.2 ⟨Ne.symm hvhi, hgreat.1⟩, fun y hy => ?_⟩⟩
      · simp only [tighten, Update.bind_apply, Update.query_apply, hreadlo, hreadhi,
          if_neg hvlo, if_neg hvhi, Update.pure_apply]
      · exact hleast.2 (Finset.mem_erase.1 (Finset.mem_coe.1 hy)).2
      · exact hgreat.2 (Finset.mem_erase.1 (Finset.mem_coe.1 hy)).2

section
variable (hv : t.Valid) (hx : t.view.sparse r.index = some x)
include hv hx

theorem contains_of_mem {a : Int} (ha : a ∈ x.values) : r.contains a t = .ok true := by
  obtain ⟨v, hv', rfl⟩ := SparseView.mem_values.1 ha
  obtain ⟨s, n, -, -, rfl, -, -, -, hmem, -, hlt⟩ := layout_of_view hv hx
  change v ∈ s.members t at hv'
  have hcap : v < s.capacity := (Arena.mem_zone.1 (hmem ▸ hv')).1
  have hint : Checked.int ((s.view t).offset + (v : Int) - (s.view t).offset) = .ok v :=
    Checked.int_eq_ok.2 ⟨by omega, by omega⟩
  rw [contains_eq hv hx, hint, decide_eq_true ha]
  rfl

/-- If the set `Fits`, each of its values `Reaches`. -/
theorem reaches_of_mem (hfit : x.Fits) {a : Int} (ha : a ∈ x.values) : x.Reaches a := by
  refine ⟨hfit a ha, ?_⟩
  obtain ⟨v, hv', rfl⟩ := SparseView.mem_values.1 ha
  obtain ⟨s, n, -, -, rfl, -, -, -, hmem, -, hlt⟩ := layout_of_view hv hx
  change v ∈ s.members t at hv'
  have hcap : v < s.capacity := (Arena.mem_zone.1 (hmem ▸ hv')).1
  unfold Checked.Signed
  omega

/-- `Turns` for a revision of the cells of a set, given the size and the bounds after it. -/
theorem turns_of_revises {s : SparseSet} (hs : t.sparseSets[r.index]? = some s) {t' : Trail}
    (hr : Trail.Revises t t') (hc : ∀ i, i ∉ s.cells → t'.content i = t.content i) {n : Nat}
    (hn : t'.content s.size.index = some (n : Int)) (hle : n ≤ x.members.card)
    {M : Finset Nat} (hM : t.sparseArena.zone s.start s.capacity n = M) {lo hi : Int}
    (hlo : t'.content s.least.index = some lo) (hhi : t'.content s.greatest.index = some hi)
    (hb : M.Nonempty → ∃ a b : Nat, lo = a ∧ hi = b ∧ IsLeast (M : Set Nat) a ∧
      IsGreatest (M : Set Nat) b) :
    Trail.Turns t (t.view.setSparse r.index { x with members := M }) t' := by
  obtain ⟨s', k, hs', -, rfl, hsit, hk, hcap, -, hcard, -⟩ := layout_of_view hv hx
  rw [hs] at hs'
  cases hs'
  have hle' : n ≤ k := hcard ▸ hle
  have hmem : s.members t' = M := by
    rw [SparseSet.members, Trail.count_of_content hn, hr.sparseArena, hM]
  have hsit' : s.Sits t' := ⟨hr.sparseArena ▸ hsit.permutes, hsit.nodup, ⟨n, hn, by omega⟩,
    lo, hi, hlo, hhi, hmem.symm ▸ hb⟩
  have := hv.revise_sparse hr hs hc hsit' (by
    rw [Trail.count_of_content hn, Trail.count_of_content hk]
    exact hle')
  rwa [show s.view t' = { s.view t with members := M } by rw [SparseSet.view, hmem]; rfl] at this

/-- `remove` on a value of the set. -/
theorem remove_present {a : Int} (ha : a ∈ x.values) :
    ∃ t', r.remove a t = .ok true t' ∧
      Trail.Turns t (t.view.setSparse r.index (x.keep (· ≠ a))) t' := by
  have hcontains := contains_of_mem hv hx ha
  obtain ⟨v, hv', rfl⟩ := SparseView.mem_values.1 ha
  obtain ⟨s, n, hs, hlay, rfl, hsit, hn, hcap, hmem, hcard, hlt⟩ := layout_of_view hv hx
  change v ∈ s.members t at hv'
  have hvcap : v < s.capacity := (Arena.mem_zone.1 (hmem ▸ hv')).1
  have hpos : 0 < n := hcard ▸ Finset.card_pos.2 ⟨v, hv'⟩
  have hv0 : ((s.view t).offset + (v : Int) - s.offset).toNat = v := by
    show (s.offset + (v : Int) - s.offset).toNat = v
    omega
  have hcells := hsit.nodup
  simp only [SparseSet.cells, List.nodup_cons, List.mem_cons, List.not_mem_nil, or_false,
    not_or] at hcells
  -- The value goes behind the frontier, and the frontier goes down.
  obtain ⟨m', hswap, hvalue, hm, hturns⟩ := swap_eq hv hx hs hv' (p := n - 1)
    (by rw [Trail.count_of_content hn]; omega)
  have hsound := hturns.valid.sound
  obtain ⟨t₂, hadd, hw⟩ := IntRef.add_eq (r := s.size) (t := t.withSparse m')
    hsound.tracked hn (d := -1) (Checked.int_eq_ok.2 ⟨by omega, rfl⟩)
  have hleft : Checked.toUnsigned ((n : Int) + -1) = n - 1 := by
    rw [Checked.toUnsigned_of_nonneg (by omega) (by omega)]
    omega
  have hzone : m'.zone s.start s.capacity (n - 1) = (s.members t).erase v := by
    have h1 : m'.zone s.start s.capacity n = s.members t := by
      rw [hmem]
      exact hm.zone_eq ⟨fun _ => by omega, fun _ => (Arena.mem_zone.1 (hmem ▸ hv')).2⟩
    have h2 := hm.zone_succ hsit.permutes hvcap (by omega)
    rw [Nat.sub_add_cancel hpos, h1] at h2
    rw [h2, Finset.erase_insert (hm.notMem_zone hvcap)]
  obtain ⟨_, _, hlo, hhi, hb⟩ := hsit.bounds
  obtain ⟨lo, hi, rfl, rfl, hleast, hgreat⟩ := hb ⟨v, hv'⟩
  have hhicap : hi < s.capacity := by
    have := hgreat.1
    rw [hmem] at this
    exact (Arena.mem_zone.1 this).1
  have hlo₂ : t₂.content s.least.index = some (lo : Int) :=
    (hw.content_of_ne (fun h => hcells.1.1 h.symm)).trans hlo
  have hhi₂ : t₂.content s.greatest.index = some (hi : Int) :=
    (hw.content_of_ne (fun h => hcells.1.2 h.symm)).trans hhi
  -- The bounds are repaired unless nothing is left.
  have hlast : ∃ t₃ lo' hi', (if Checked.toUnsigned ((n : Int) + -1) > 0 then
        tighten s v (Checked.toUnsigned ((n : Int) + -1)) else pure ()) t₂ = .ok () t₃ ∧
      Trail.Revises t₂ t₃ ∧
      (∀ i, i ≠ s.least.index → i ≠ s.greatest.index → t₃.content i = t₂.content i) ∧
      t₃.content s.least.index = some lo' ∧ t₃.content s.greatest.index = some hi' ∧
      (((s.members t).erase v).Nonempty → ∃ a b : Nat, lo' = a ∧ hi' = b ∧
        IsLeast (((s.members t).erase v : Finset Nat) : Set Nat) a ∧
        IsGreatest (((s.members t).erase v : Finset Nat) : Set Nat) b) := by
    rw [hleft]
    have hperm₂ : t₂.sparseArena.Permutes s.start s.capacity :=
      hw.sparseArena ▸ (hsound.sparse r.index s hs).permutes
    by_cases hgt : n - 1 > 0
    · have hne : ((s.members t).erase v).Nonempty := by
        rw [← Finset.card_pos, Finset.card_erase_of_mem hv', hcard]
        exact hgt
      obtain ⟨t₃, lo', hi', h1, h2, h3, h4, h5, h6, h7⟩ := tighten_eq hw.tracked hperm₂
        hsit.nodup hlt (v := v) (k := n - 1) hlo₂ hhi₂ hhicap
        (by rw [hw.sparseArena]; exact hzone) hleast hgreat hne
      rw [if_pos hgt]
      exact ⟨t₃, lo', hi', h1, h2, h3, h4, h5, fun _ => ⟨lo', hi', rfl, rfl, h6, h7⟩⟩
    · have he : (s.members t).erase v = ∅ := by
        rw [← Finset.card_eq_zero, Finset.card_erase_of_mem hv', hcard]
        omega
      rw [if_neg hgt, he]
      exact ⟨t₂, lo, hi, rfl, hw.tracked.revises_self, fun _ _ _ => rfl, hlo₂, hhi₂,
        fun h => absurd h Finset.not_nonempty_empty⟩
  obtain ⟨t₃, lo', hi', hlast, hr₃, hc₃, hlo₃, hhi₃, hb₃⟩ := hlast
  refine ⟨t₃, ?_, ?_⟩
  · have hslot : Checked.nat (s.start + (n - 1)) = .ok (s.start + (n - 1)) :=
      Checked.nat_eq_ok.2 ⟨by omega, rfl⟩
    have hsize : s.size.getNat t = .ok n := IntRef.getNat_eq hn (by omega)
    have hsub : Checked.sub n 1 = .ok (n - 1) := Checked.sub_eq hpos
    rw [remove]
    simp only [Update.bind_apply, Update.query_apply, hcontains, if_true, hlay, hv0, hsize, hsub,
      hslot, hvalue, hswap, IntRef.decrement, hadd]
    split at hlast
    · next h => simp only [if_pos h, Update.bind_apply, hlast, Update.pure_apply]
    · next h =>
      cases hlast
      simp only [if_neg h, Update.pure_apply]
  · have hx₁ : (t.withSparse m').view.sparse r.index = some (s.view t) := hturns.view.symm ▸ hx
    have hn₃ : t₃.content s.size.index = some ((n - 1 : Nat) : Int) := by
      rw [hc₃ _ hcells.1.1 hcells.1.2, hw.content_self]
      congr 1
      omega
    have hfinal := turns_of_revises hturns.valid hx₁ hs (hw.toRevises.trans hr₃)
      (fun i hi => by
        simp only [SparseSet.cells, List.mem_cons, List.not_mem_nil, or_false, not_or] at hi
        rw [hc₃ i hi.2.1 hi.2.2, hw.content_of_ne hi.1])
      hn₃ (by show n - 1 ≤ (s.members t).card; omega) hzone hlo₃ hhi₃ hb₃
    rw [hturns.view] at hfinal
    have hkeep : (s.view t).keep (· ≠ (s.view t).offset + (v : Int)) =
        { s.view t with members := (s.members t).erase v } := by
      rw [SparseView.keep]
      congr 1
      ext w
      rw [Finset.mem_filter, Finset.mem_erase]
      show w ∈ s.members t ∧ s.offset + (w : Int) ≠ s.offset + (v : Int) ↔ _
      constructor
      · rintro ⟨h1, h2⟩
        exact ⟨fun h => h2 (by rw [h]), h1⟩
      · rintro ⟨h1, h2⟩
        exact ⟨h2, fun h => h1 (by omega)⟩
    rw [hkeep]
    exact hturns.trans hfinal

theorem remove_absent {a : Int} (ha : a ∉ x.values) {b : Int}
    (hb : Checked.int (a - x.offset) = .ok b) : r.remove a t = .ok false t := by
  have hcontains := contains_eq hv hx a
  rw [hb, decide_eq_false ha] at hcontains
  rw [remove]
  simp only [Update.bind_apply, Update.query_apply, hcontains, Except.map, Bool.false_eq_true,
    if_false, Update.pure_apply]

theorem removeAll_eq : ∃ t', r.removeAll t = .ok () t' ∧
    Trail.Turns t (t.view.setSparse r.index { x with members := ∅ }) t' := by
  obtain ⟨s, n, hs, hlay, rfl, hsit, hn, -⟩ := layout_of_view hv hx
  obtain ⟨lo, hi, hlo, hhi, -⟩ := hsit.bounds
  have hcells := hsit.nodup
  simp only [SparseSet.cells, List.nodup_cons, List.mem_cons, List.not_mem_nil, or_false,
    not_or] at hcells
  obtain ⟨t', hset, hw⟩ := IntRef.set_eq hv.sound.tracked hn 0
  refine ⟨t', ?_, ?_⟩
  · rw [removeAll]
    simp only [Update.bind_apply, Update.query_apply, hlay, Update.discard_apply, hset]
  · exact turns_of_revises hv hx hs hw.toRevises
      (fun i hi => hw.content_of_ne fun h => hi (by simp [SparseSet.cells, h])) (n := 0)
      hw.content_self (Nat.zero_le _) (Arena.zone_zero _ _ _)
      ((hw.content_of_ne (fun h => hcells.1.1 h.symm)).trans hlo)
      ((hw.content_of_ne (fun h => hcells.1.2 h.symm)).trans hhi)
      (fun h => absurd h Finset.not_nonempty_empty)

/-- `removeAllBut` on a value of the set. -/
theorem removeAllBut_present {a : Int} (ha : a ∈ x.values) : ∃ t', r.removeAllBut a t = .ok () t' ∧
    Trail.Turns t (t.view.setSparse r.index (x.keep (· = a))) t' := by
  have hcontains := contains_of_mem hv hx ha
  obtain ⟨v, hv', rfl⟩ := SparseView.mem_values.1 ha
  obtain ⟨s, n, hs, hlay, rfl, hsit, hn, hcap, hmem, hcard, hlt⟩ := layout_of_view hv hx
  change v ∈ s.members t at hv'
  have hvcap : v < s.capacity := (Arena.mem_zone.1 (hmem ▸ hv')).1
  have hpos : 0 < n := hcard ▸ Finset.card_pos.2 ⟨v, hv'⟩
  have hv0 : ((s.view t).offset + (v : Int) - s.offset).toNat = v := by
    show (s.offset + (v : Int) - s.offset).toNat = v
    omega
  have hcells := hsit.nodup
  simp only [SparseSet.cells, List.nodup_cons, List.mem_cons, List.not_mem_nil, or_false,
    not_or] at hcells
  obtain ⟨lo, hi, hlo, hhi, -⟩ := hsit.bounds
  obtain ⟨m', hswap, hvalue, hm, hturns⟩ := swap_eq hv hx hs hv' (p := 0)
    (by rw [Trail.count_of_content hn]; exact hpos)
  have hsound := hturns.valid.sound
  obtain ⟨t₂, h₂, hw₂⟩ := IntRef.set_eq (r := s.size) hsound.tracked hn 1
  obtain ⟨t₃, h₃, hw₃⟩ := IntRef.set_eq (r := s.least) hw₂.tracked
    ((hw₂.content_of_ne (fun h => hcells.1.1 h.symm)).trans hlo) v
  obtain ⟨t₄, h₄, hw₄⟩ := IntRef.set_eq (r := s.greatest) hw₃.tracked
    ((hw₃.content_of_ne (fun h => hcells.2.1 h.symm)).trans
      ((hw₂.content_of_ne (fun h => hcells.1.2 h.symm)).trans hhi)) v
  have hzone : m'.zone s.start s.capacity 1 = {v} := by
    have := hm.zone_succ hsit.permutes hvcap (by omega)
    rwa [Arena.zone_zero] at this
  refine ⟨t₄, ?_, ?_⟩
  · rw [Nat.add_zero] at hvalue
    rw [removeAllBut]
    simp only [Update.bind_apply, Update.query_apply, hcontains, if_true, hlay, hv0, hvalue,
      hswap, Update.discard_apply, h₂, h₃, h₄]
  · have hx₁ : (t.withSparse m').view.sparse r.index = some (s.view t) := hturns.view.symm ▸ hx
    have hfinal := turns_of_revises hturns.valid hx₁ hs
      ((hw₂.toRevises.trans hw₃.toRevises).trans hw₄.toRevises)
      (fun i hi => by
        simp only [SparseSet.cells, List.mem_cons, List.not_mem_nil, or_false, not_or] at hi
        rw [hw₄.content_of_ne hi.2.2, hw₃.content_of_ne hi.2.1, hw₂.content_of_ne hi.1])
      (n := 1) (by
        rw [hw₄.content_of_ne hcells.1.2, hw₃.content_of_ne hcells.1.1, hw₂.content_self]
        rfl)
      (by show 1 ≤ (s.members t).card; omega) hzone
      ((hw₄.content_of_ne hcells.2.1).trans hw₃.content_self) hw₄.content_self
      (fun _ => ⟨v, v, rfl, rfl, ⟨by simp, fun y hy => by simp_all⟩,
        ⟨by simp, fun y hy => by simp_all⟩⟩)
    rw [hturns.view] at hfinal
    have hkeep : (s.view t).keep (· = (s.view t).offset + (v : Int)) =
        { s.view t with members := {v} } := by
      rw [SparseView.keep]
      congr 1
      ext w
      rw [Finset.mem_filter, Finset.mem_singleton]
      show w ∈ s.members t ∧ s.offset + (w : Int) = s.offset + (v : Int) ↔ _
      constructor
      · rintro ⟨-, h⟩
        omega
      · rintro rfl
        exact ⟨hv', rfl⟩
    rw [hkeep]
    exact hturns.trans hfinal

/-- `remove a` drops `a` from the set, or overflows and changes nothing if the distance of `a` from
the offset is not a machine integer. -/
theorem remove_ends (a : Int) :
    Update.Ends (r.remove a) t
      (fun b t' => b = decide (a ∈ x.values) ∧
        Trail.Turns t (t.view.setSparse r.index (x.keep (· ≠ a))) t')
      fun e t' => e = .overflow ∧ ¬Checked.Signed (a - x.offset) ∧ t' = t := by
  by_cases ha : a ∈ x.values
  · obtain ⟨t', h, hturns⟩ := remove_present hv hx ha
    exact Update.ends_of_ok h ⟨(decide_eq_true ha).symm, hturns⟩
  · cases hb : Checked.int (a - x.offset) with
    | ok b =>
      refine Update.ends_of_ok (remove_absent hv hx ha hb) ⟨(decide_eq_false ha).symm, ?_⟩
      rw [SparseView.keep_true _ (fun c hc => by rintro rfl; exact ha hc),
        View.setSparse_eq_self hx]
      exact hv.turns_self
    | error e =>
      refine Update.ends_of_error (e := e) (u := t) ?_
        ⟨Checked.int_eq_error hb, Checked.not_signed hb, rfl⟩
      have hcontains := contains_eq hv hx a
      rw [hb] at hcontains
      rw [remove]
      simp only [Update.bind_apply, Update.query_apply, hcontains, Except.map]

theorem removeAllBut_ends (a : Int) :
    Update.Ends (r.removeAllBut a) t
      (fun _ t' => Trail.Turns t (t.view.setSparse r.index (x.keep (· = a))) t')
      fun e t' => e = .overflow ∧ ¬Checked.Signed (a - x.offset) ∧ t' = t := by
  by_cases ha : a ∈ x.values
  · obtain ⟨t', h, hturns⟩ := removeAllBut_present hv hx ha
    exact Update.ends_of_ok h hturns
  · have hcontains := contains_eq hv hx a
    cases hb : Checked.int (a - x.offset) with
    | ok b =>
      rw [hb, decide_eq_false ha] at hcontains
      obtain ⟨t', h, hturns⟩ := removeAll_eq hv hx
      refine Update.ends_of_ok (a := ()) (u := t') ?_ ?_
      · rw [removeAllBut]
        simp only [Update.bind_apply, Update.query_apply, hcontains, Except.map,
          Bool.false_eq_true, if_false, h]
      · have hkeep : x.keep (· = a) = { x with members := ∅ } := by
          rw [← SparseView.members_keep_false x (p := (· = a)) fun c hc he => ha (he ▸ hc)]
          rfl
        rwa [hkeep]
    | error e =>
      rw [hb] at hcontains
      refine Update.ends_of_error (e := e) (u := t) ?_
        ⟨Checked.int_eq_error hb, Checked.not_signed hb, rfl⟩
      rw [removeAllBut]
      simp only [Update.bind_apply, Update.query_apply, hcontains, Except.map]

end

/-! ## Cuts -/

/-- The trail after an overflow in the middle of a cut: no value with `p` is gone. -/
def CutShort (t : Trail) (r : SparseRef) (x : SparseView) (p : Int → Prop) (t' : Trail) : Prop :=
  ∃ (q : Int → Prop) (_ : DecidablePred q), (∀ a ∈ x.values, p a → q a) ∧
    Trail.Turns t (t.view.setSparse r.index (x.keep q)) t'

theorem cutShort_self (hv : t.Valid) (hx : t.view.sparse r.index = some x) (p : Int → Prop) :
    CutShort t r x p t := by
  refine ⟨fun _ => True, inferInstance, fun _ _ _ => trivial, ?_⟩
  rw [SparseView.keep_true _ fun _ _ => trivial, View.setSparse_eq_self hx]
  exact hv.turns_self

/-- The failures of a cut, all of them overflows: one of `sums` overflows and the trail is
unchanged, or some value of the set is not a machine integer and the cut stops there. -/
def CutFails (t : Trail) (r : SparseRef) (x : SparseView) (p : Int → Prop) (sums : List Int)
    (e : Fault) (t' : Trail) : Prop :=
  e = .overflow ∧
    ((∃ i ∈ sums, ¬Checked.Signed i) ∧ t' = t ∨ ¬x.Fits ∧ CutShort t r x p t')

theorem CutFails.cutShort {p : Int → Prop} {sums : List Int} {e : Fault} {t' : Trail}
    (h : CutFails t r x p sums e t') (hv : t.Valid) (hx : t.view.sparse r.index = some x) :
    e = .overflow ∧ CutShort t r x p t' := by
  obtain ⟨rfl, ⟨-, rfl⟩ | ⟨-, hcut⟩⟩ := h
  · exact ⟨rfl, cutShort_self hv hx p⟩
  · exact ⟨rfl, hcut⟩

/-- `removeAscending` removes `n` values one after the other, and overflows at the first that is out
of reach. -/
theorem removeAscending_ends (offset : Int) {y : Int} {n : Nat} (hv : t.Valid)
    (hx : t.view.sparse r.index = some x) :
    Update.Ends (r.removeAscending offset y n) t
      (fun _ t' => Trail.Turns t
        (t.view.setSparse r.index (x.keep fun a => ¬(y + offset ≤ a ∧ a < y + offset + n))) t')
      fun e t' => e = .overflow ∧ ∃ k < n, ¬x.Reaches (y + offset + k) ∧ Trail.Turns t
        (t.view.setSparse r.index (x.keep fun a => ¬(y + offset ≤ a ∧ a < y + offset + k))) t' := by
  have hnone : ∀ {t : Trail} {x : SparseView} {y : Int}, t.Valid →
      t.view.sparse r.index = some x → Trail.Turns t (t.view.setSparse r.index
        (x.keep fun a => ¬(y + offset ≤ a ∧ a < y + offset + (0 : Nat)))) t := fun hv hx => by
    rw [SparseView.keep_true _ (fun a _ => by omega), View.setSparse_eq_self hx]
    exact hv.turns_self
  induction n generalizing t x y with
  | zero => exact Update.ends_of_ok rfl (hnone hv hx)
  | succ n ih =>
    cases hb : Checked.int (y + offset) with
    | error e =>
      refine Update.ends_of_error (e := e) (u := t) ?_
        ⟨Checked.int_eq_error hb, 0, Nat.succ_pos n, fun h => Checked.not_signed hb
          (by simpa using h.1), hnone hv hx⟩
      rw [removeAscending]
      simp only [Update.bind_apply, Update.query_apply, hb]
    | ok a =>
      obtain ⟨-, rfl⟩ := Checked.int_eq_ok.1 hb
      have hrun : r.removeAscending offset y (n + 1) t = (do
          discard (r.remove (y + offset))
          r.removeAscending offset (y + 1) n : Trail.Op Unit) t := by
        rw [removeAscending, Update.bind_ok]
        rw [Update.query_apply, hb]
      refine Update.Ends.of_eq ?_ hrun
      have hremove : Update.Ends (discard (r.remove (y + offset))) _
          (fun _ t' => Trail.Turns _
            (View.setSparse _ r.index (x.keep (· ≠ y + offset))) t')
          fun e t' => e = .overflow ∧ ∃ k < n + 1, ¬x.Reaches (y + offset + k) ∧
            Trail.Turns _ (View.setSparse _ r.index
              (x.keep fun a => ¬(y + offset ≤ a ∧ a < y + offset + k))) t' :=
        ((remove_ends hv hx (y + offset)).mono (fun _ _ h => h.2) fun e t' h => by
          obtain ⟨rfl, hfar, rfl⟩ := h
          exact ⟨rfl, 0, Nat.succ_pos n, fun h => hfar (by simpa using h.2), hnone hv hx⟩).discard
      refine hremove.bind fun _ t₁ h₁ => ?_
      have hback : ∀ (k : Nat) (t₂ : Trail), Trail.Turns t₁ (t₁.view.setSparse r.index
            ((x.keep (· ≠ y + offset)).keep fun a =>
              ¬(y + 1 + offset ≤ a ∧ a < y + 1 + offset + k))) t₂ →
          Trail.Turns t (t.view.setSparse r.index
            (x.keep fun a => ¬(y + offset ≤ a ∧ a < y + offset + (k + 1 : Nat)))) t₂ := by
        intro k t₂ h₂
        rw [h₁.view, View.setSparse_setSparse, SparseView.keep_keep] at h₂
        rw [SparseView.keep_congr x (q := fun a =>
          a ≠ y + offset ∧ ¬(y + 1 + offset ≤ a ∧ a < y + 1 + offset + k)) fun a _ => by
            push_cast; omega]
        exact h₁.trans h₂
      refine (ih h₁.valid (by rw [h₁.view, View.setSparse_self])).mono (fun _ t₂ h₂ =>
        hback n t₂ h₂) ?_
      rintro _ t₂ ⟨rfl, k, hk, hfar, h₂⟩
      refine ⟨rfl, k + 1, Nat.succ_lt_succ hk, fun h => hfar ?_, hback k t₂ h₂⟩
      rwa [show y + 1 + offset + k = y + offset + (k + 1 : Nat) by push_cast; omega]

/-- `removeDescending` removes `n` values one after the other, and overflows at the first that is
out of reach. -/
theorem removeDescending_ends (offset : Int) {y : Int} {n : Nat} (hv : t.Valid)
    (hx : t.view.sparse r.index = some x) :
    Update.Ends (r.removeDescending offset y n) t
      (fun _ t' => Trail.Turns t
        (t.view.setSparse r.index (x.keep fun a => ¬(y + offset - n < a ∧ a ≤ y + offset))) t')
      fun e t' => e = .overflow ∧ ∃ k < n, ¬x.Reaches (y + offset - k) ∧ Trail.Turns t
        (t.view.setSparse r.index (x.keep fun a => ¬(y + offset - k < a ∧ a ≤ y + offset))) t' := by
  have hnone : ∀ {t : Trail} {x : SparseView} {y : Int}, t.Valid →
      t.view.sparse r.index = some x → Trail.Turns t (t.view.setSparse r.index
        (x.keep fun a => ¬(y + offset - (0 : Nat) < a ∧ a ≤ y + offset))) t := fun hv hx => by
    rw [SparseView.keep_true _ (fun a _ => by omega), View.setSparse_eq_self hx]
    exact hv.turns_self
  induction n generalizing t x y with
  | zero => exact Update.ends_of_ok rfl (hnone hv hx)
  | succ n ih =>
    cases hb : Checked.int (y + offset) with
    | error e =>
      refine Update.ends_of_error (e := e) (u := t) ?_
        ⟨Checked.int_eq_error hb, 0, Nat.succ_pos n, fun h => Checked.not_signed hb
          (by simpa using h.1), hnone hv hx⟩
      rw [removeDescending]
      simp only [Update.bind_apply, Update.query_apply, hb]
    | ok a =>
      obtain ⟨-, rfl⟩ := Checked.int_eq_ok.1 hb
      have hrun : r.removeDescending offset y (n + 1) t = (do
          discard (r.remove (y + offset))
          r.removeDescending offset (y - 1) n : Trail.Op Unit) t := by
        rw [removeDescending, Update.bind_ok]
        rw [Update.query_apply, hb]
      refine Update.Ends.of_eq ?_ hrun
      have hremove : Update.Ends (discard (r.remove (y + offset))) _
          (fun _ t' => Trail.Turns _
            (View.setSparse _ r.index (x.keep (· ≠ y + offset))) t')
          fun e t' => e = .overflow ∧ ∃ k < n + 1, ¬x.Reaches (y + offset - k) ∧
            Trail.Turns _ (View.setSparse _ r.index
              (x.keep fun a => ¬(y + offset - k < a ∧ a ≤ y + offset))) t' :=
        ((remove_ends hv hx (y + offset)).mono (fun _ _ h => h.2) fun e t' h => by
          obtain ⟨rfl, hfar, rfl⟩ := h
          exact ⟨rfl, 0, Nat.succ_pos n, fun h => hfar (by simpa using h.2), hnone hv hx⟩).discard
      refine hremove.bind fun _ t₁ h₁ => ?_
      have hback : ∀ (k : Nat) (t₂ : Trail), Trail.Turns t₁ (t₁.view.setSparse r.index
            ((x.keep (· ≠ y + offset)).keep fun a =>
              ¬(y - 1 + offset - k < a ∧ a ≤ y - 1 + offset))) t₂ →
          Trail.Turns t (t.view.setSparse r.index
            (x.keep fun a => ¬(y + offset - (k + 1 : Nat) < a ∧ a ≤ y + offset))) t₂ := by
        intro k t₂ h₂
        rw [h₁.view, View.setSparse_setSparse, SparseView.keep_keep] at h₂
        rw [SparseView.keep_congr x (q := fun a =>
          a ≠ y + offset ∧ ¬(y - 1 + offset - k < a ∧ a ≤ y - 1 + offset)) fun a _ => by
            push_cast; omega]
        exact h₁.trans h₂
      refine (ih h₁.valid (by rw [h₁.view, View.setSparse_self])).mono (fun _ t₂ h₂ =>
        hback n t₂ h₂) ?_
      rintro _ t₂ ⟨rfl, k, hk, hfar, h₂⟩
      refine ⟨rfl, k + 1, Nat.succ_lt_succ hk, fun h => hfar ?_, hback k t₂ h₂⟩
      rwa [show y - 1 + offset - k = y + offset - (k + 1 : Nat) by push_cast; omega]

section
variable (hv : t.Valid) (hx : t.view.sparse r.index = some x)
include hv hx

theorem removeAll_turns {p : Int → Prop} [DecidablePred p] (h : ∀ a ∈ x.values, ¬p a) :
    ∃ t', r.removeAll t = .ok () t' ∧
      Trail.Turns t (t.view.setSparse r.index (x.keep p)) t' := by
  obtain ⟨t', hrun, hturns⟩ := removeAll_eq hv hx
  refine ⟨t', hrun, ?_⟩
  have hkeep : x.keep p = { x with members := ∅ } := by
    rw [← SparseView.members_keep_false x h]
    rfl
  rwa [hkeep]

/-- The bounds of a set that is not empty, as the cuts read them. -/
theorem readBounds (h : x.members.Nonempty) :
    ∃ (s : SparseSet) (lo hi : Int), r.layout t = .ok s ∧ s.offset = x.offset ∧
      s.least.get t = .ok lo ∧ s.greatest.get t = .ok hi ∧
      lo + x.offset ∈ x.values ∧ hi + x.offset ∈ x.values ∧
      ∀ a ∈ x.values, lo + x.offset ≤ a ∧ a ≤ hi + x.offset := by
  obtain ⟨s, lo, hi, -, hlay, rfl, hlo, hhi, hleast, hgreat, -⟩ := bounds_of_nonempty hv hx h
  refine ⟨s, lo, hi, hlay, rfl, IntRef.get_eq hlo, IntRef.get_eq hhi, ?_, ?_, fun a ha => ?_⟩
  · exact SparseView.mem_values.2 ⟨lo, hleast.1, Int.add_comm _ _⟩
  · exact SparseView.mem_values.2 ⟨hi, hgreat.1, Int.add_comm _ _⟩
  · obtain ⟨v, hv', rfl⟩ := SparseView.mem_values.1 ha
    have h1 : lo ≤ v := hleast.2 hv'
    have h2 : v ≤ hi := hgreat.2 hv'
    omega

/-- A cut of an empty set changes nothing. -/
theorem cuts_of_empty (h : x.members = ∅) (a : Int) :
    r.removeBelow a t = .ok () t ∧ r.removeAbove a t = .ok () t := by
  obtain ⟨s, _, -, hlay, rfl, -⟩ := layout_of_view hv hx
  have hempty := isEmpty_eq hv hx
  rw [decide_eq_true h] at hempty
  constructor
  · unfold removeBelow
    simp only [Update.bind_apply, Update.query_apply, hlay, hempty, if_true, Update.pure_apply]
  · unfold removeAbove
    simp only [Update.bind_apply, Update.query_apply, hlay, hempty, if_true, Update.pure_apply]

/-- The cuts of a set that is not empty, unfolded with its bounds. -/
theorem cuts_of_nonempty (h : x.members.Nonempty) :
    ∃ lo hi : Int, lo + x.offset ∈ x.values ∧ hi + x.offset ∈ x.values ∧
      (∀ b ∈ x.values, lo + x.offset ≤ b ∧ b ≤ hi + x.offset) ∧
      (∀ a, r.removeBelow a t = match Checked.int (a - x.offset) with
        | .error e => .error e t
        | .ok v =>
          if v > hi then r.removeAll t else r.removeAscending x.offset lo (v - lo).toNat t) ∧
      ∀ a, r.removeAbove a t = match Checked.int (a - x.offset) with
        | .error e => .error e t
        | .ok v =>
          if v < lo then r.removeAll t
          else match Checked.int (v + 1) with
            | .error e => .error e t
            | .ok first => r.removeDescending x.offset hi (hi + 1 - first).toNat t := by
  have hempty := isEmpty_eq hv hx
  rw [decide_eq_false h.ne_empty] at hempty
  obtain ⟨s, lo, hi, hlay, hoff, hlo, hhi, hleast, hgreat, hbounds⟩ := readBounds hv hx h
  refine ⟨lo, hi, hleast, hgreat, hbounds, fun a => ?_, fun a => ?_⟩
  · unfold removeBelow
    simp only [Update.bind_apply, Update.query_apply, hlay, hempty, Bool.false_eq_true, if_false,
      hoff]
    cases Checked.int (a - x.offset) with
    | error e => rfl
    | ok v =>
      simp only [hlo, hhi]
      split <;> rfl
  · unfold removeAbove
    simp only [Update.bind_apply, Update.query_apply, hlay, hempty, Bool.false_eq_true, if_false,
      hoff]
    cases Checked.int (a - x.offset) with
    | error e => rfl
    | ok v =>
      simp only [hlo, hhi]
      split
      · rfl
      · rw [Update.bind_apply, Update.query_apply]
        cases Checked.int (v + 1) <;> rfl

/-- A cut that keeps every value leaves the view as it is. -/
theorem turns_of_keep_all {p : Int → Prop} [DecidablePred p] (h : ∀ a ∈ x.values, p a) :
    Trail.Turns t (t.view.setSparse r.index (x.keep p)) t := by
  rw [SparseView.keep_true _ h, View.setSparse_eq_self hx]
  exact hv.turns_self

theorem removeBelow_ends (a : Int) :
    Update.Ends (r.removeBelow a) t
      (fun _ t' => Trail.Turns t (t.view.setSparse r.index (x.keep (a ≤ ·))) t')
      (CutFails t r x (a ≤ ·) [a - x.offset]) := by
  obtain he | hne := x.members.eq_empty_or_nonempty
  · refine Update.ends_of_ok (cuts_of_empty hv hx he a).1 (turns_of_keep_all hv hx ?_)
    simp [SparseView.values, he]
  · obtain ⟨lo, hi, hleast, hgreat, hbounds, hbelow, -⟩ := cuts_of_nonempty hv hx hne
    have hrun := hbelow a
    cases hb : Checked.int (a - x.offset) with
    | error e =>
      rw [hb] at hrun
      exact Update.ends_of_error hrun ⟨Checked.int_eq_error hb,
        .inl ⟨⟨_, List.mem_cons_self, Checked.not_signed hb⟩, rfl⟩⟩
    | ok v =>
      rw [hb] at hrun
      obtain ⟨-, rfl⟩ := Checked.int_eq_ok.1 hb
      by_cases hgt : a - x.offset > hi
      · obtain ⟨t', hall, hturns⟩ := removeAll_turns hv hx (p := (a ≤ ·)) fun b hb' => by
          have := hbounds b hb'
          omega
        exact Update.ends_of_ok (hrun.trans ((if_pos hgt).trans hall)) hturns
      · refine Update.Ends.of_eq ?_ (hrun.trans (if_neg hgt))
        refine (removeAscending_ends x.offset (y := lo) (n := (a - x.offset - lo).toNat)
          hv hx).mono (fun _ t' h => ?_) ?_
        · rw [SparseView.keep_congr _ (q := (a ≤ ·)) fun b hb' => ?_] at h
          · exact h
          · have := hbounds b hb'
            omega
        · rintro _ t' ⟨rfl, k, hk, hfar, h⟩
          refine ⟨rfl, .inr ⟨fun hfit => hfar ?_, _, inferInstance, fun b hb' => by omega, h⟩⟩
          exact (reaches_of_mem hv hx hfit hleast).between (reaches_of_mem hv hx hfit hgreat)
            (by omega) (by omega)

theorem removeAbove_ends (a : Int) :
    Update.Ends (r.removeAbove a) t
      (fun _ t' => Trail.Turns t (t.view.setSparse r.index (x.keep (· ≤ a))) t')
      (CutFails t r x (· ≤ a) [a - x.offset, a - x.offset + 1]) := by
  obtain he | hne := x.members.eq_empty_or_nonempty
  · refine Update.ends_of_ok (cuts_of_empty hv hx he a).2 (turns_of_keep_all hv hx ?_)
    simp [SparseView.values, he]
  · obtain ⟨lo, hi, hleast, hgreat, hbounds, -, habove⟩ := cuts_of_nonempty hv hx hne
    have hrun := habove a
    cases hb : Checked.int (a - x.offset) with
    | error e =>
      rw [hb] at hrun
      exact Update.ends_of_error hrun ⟨Checked.int_eq_error hb,
        .inl ⟨⟨_, List.mem_cons_self, Checked.not_signed hb⟩, rfl⟩⟩
    | ok v =>
      rw [hb] at hrun
      obtain ⟨-, rfl⟩ := Checked.int_eq_ok.1 hb
      by_cases hlt : a - x.offset < lo
      · obtain ⟨t', hall, hturns⟩ := removeAll_turns hv hx (p := (· ≤ a)) fun b hb' => by
          have := hbounds b hb'
          omega
        exact Update.ends_of_ok (hrun.trans ((if_pos hlt).trans hall)) hturns
      · replace hrun := hrun.trans (if_neg hlt)
        cases hc : Checked.int (a - x.offset + 1) with
        | error e =>
          rw [hc] at hrun
          exact Update.ends_of_error hrun ⟨Checked.int_eq_error hc,
            .inl ⟨⟨_, by simp, Checked.not_signed hc⟩, rfl⟩⟩
        | ok first =>
          rw [hc] at hrun
          obtain ⟨-, rfl⟩ := Checked.int_eq_ok.1 hc
          refine Update.Ends.of_eq ?_ hrun
          refine (removeDescending_ends x.offset (y := hi)
            (n := (hi + 1 - (a - x.offset + 1)).toNat) hv hx).mono
            (fun _ t' h => ?_) ?_
          · rw [SparseView.keep_congr _ (q := (· ≤ a)) fun b hb' => ?_] at h
            · exact h
            · have := hbounds b hb'
              omega
          · rintro _ t' ⟨rfl, k, hk, hfar, h⟩
            refine ⟨rfl, .inr ⟨fun hfit => hfar ?_, _, inferInstance, fun b hb' => by omega, h⟩⟩
            exact (reaches_of_mem hv hx hfit hleast).between (reaches_of_mem hv hx hfit hgreat)
              (by omega) (by omega)

end

end SparseRef

end Propagation
