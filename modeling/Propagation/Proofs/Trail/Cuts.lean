import Propagation.Proofs.Trail.Ledger

/-!
# Cutting sets of integers

A cut at any integer whose distance from the first value has 64 bits comes back and keeps the values
on its side, and one that has nothing to remove does nothing at all (`Trail.sparse_cuts`). There is
one exception: an upward cut adds one to the distance before it compares, so at the largest distance
there is it overflows, whatever is in the set, unless that is nothing.
-/

set_option autoImplicit false

namespace Propagation

/-- The results of the cuts at `a` of a set of integers `p`. -/
structure SparseRef.Cuts (r : SparseRef) (t : Trail) (p : Pool) (a : Int) : Prop where
  below : ∃ t', r.removeBelow a t = .ok () t' ∧ r.Follows t' (p.map (·.filter (a ≤ ·)))
  below_idle : (∀ b ∈ p.values, a ≤ b) → r.removeBelow a t = .ok () t
  above : a - p.first ≠ 2 ^ 63 - 1 ∨ p.values = ∅ →
    ∃ t', r.removeAbove a t = .ok () t' ∧ r.Follows t' (p.map (·.filter (· ≤ a)))
  above_idle : a - p.first ≠ 2 ^ 63 - 1 ∨ p.values = ∅ → (∀ b ∈ p.values, b ≤ a) →
    r.removeAbove a t = .ok () t
  /-- The distance cannot be increased by one. -/
  above_last : a - p.first = 2 ^ 63 - 1 → p.values ≠ ∅ → r.removeAbove a t = .error .overflow t

namespace SparseRef

variable {t t' : Trail} {r : SparseRef} {x : SparseView} {a : Int}

theorem not_cutFails {p : Int → Prop} {sums : List Int} {e : Fault} (hfits : x.Fits)
    (hsums : ∀ i ∈ sums, Checked.Signed i) : ¬CutFails t r x p sums e t' := by
  rintro ⟨-, ⟨⟨i, hi, hno⟩, -⟩ | ⟨hno, -⟩⟩
  · exact hno (hsums i hi)
  · exact hno hfits

/-- `Follows` after a change that keeps the values with `p`. -/
theorem follows_of_keep (hfit : x.pool.Fits) {p : Int → Prop} [DecidablePred p]
    (h : Trail.Turns t (t.view.setSparse r.index (x.keep p)) t') :
    r.Follows t' (x.pool.map (·.filter p)) := by
  have hpool : (x.keep p).pool = x.pool.map (·.filter p) := by
    rw [SparseView.pool, SparseView.values_keep]
    rfl
  rw [← hpool]
  exact follows h.valid (by rw [h.view, View.setSparse_self]) hfit

section
variable (hv : t.Valid) (hx : t.view.sparse r.index = some x)
include hv hx

/-- A `removeBelow` with nothing to remove. -/
theorem removeBelow_idle (ha : Checked.Signed (a - x.offset)) (h : ∀ b ∈ x.values, a ≤ b) :
    r.removeBelow a t = .ok () t := by
  obtain he | hne := x.members.eq_empty_or_nonempty
  · exact (cuts_of_empty hv hx he a).1
  · obtain ⟨lo, hi, hleast, hgreat, -, hbelow, -⟩ := cuts_of_nonempty hv hx hne
    have h1 := h _ hleast
    have h2 := h _ hgreat
    rw [hbelow, Checked.int_of_signed ha]
    simp only
    rw [if_neg (by omega), show (a - x.offset - lo).toNat = 0 by omega]
    rfl

/-- A `removeAbove` with nothing to remove. -/
theorem removeAbove_idle (ha : Checked.Signed (a - x.offset))
    (hlast : a - x.offset ≠ 2 ^ 63 - 1 ∨ x.values = ∅) (h : ∀ b ∈ x.values, b ≤ a) :
    r.removeAbove a t = .ok () t := by
  obtain he | hne := x.members.eq_empty_or_nonempty
  · exact (cuts_of_empty hv hx he a).2
  · obtain ⟨lo, hi, hleast, hgreat, -, -, habove⟩ := cuts_of_nonempty hv hx hne
    have hne : x.values ≠ ∅ := Finset.ne_empty_of_mem hleast
    have h1 := h _ hleast
    have h2 := h _ hgreat
    have hnext : Checked.Signed (a - x.offset + 1) := by
      unfold Checked.Signed at ha ⊢
      have := hlast.resolve_right hne
      omega
    rw [habove, Checked.int_of_signed ha]
    simp only
    rw [if_neg (by omega), Checked.int_of_signed hnext]
    simp only
    rw [show (hi + 1 - (a - x.offset + 1)).toNat = 0 by omega]
    rfl

/-- A `removeAbove` at the largest distance overflows on a set that is not empty. -/
theorem removeAbove_last (hfits : x.Fits) (hlast : a - x.offset = 2 ^ 63 - 1)
    (hne : x.values ≠ ∅) : r.removeAbove a t = .error .overflow t := by
  have hmembers : x.members.Nonempty := by
    rw [Finset.nonempty_iff_ne_empty]
    intro he
    exact hne (by simp [SparseView.values, he])
  obtain ⟨lo, hi, hleast, -, -, -, habove⟩ := cuts_of_nonempty hv hx hmembers
  have hlo := (reaches_of_mem hv hx hfits hleast).2
  have ha : Checked.Signed (a - x.offset) := by
    unfold Checked.Signed
    omega
  have hno : ¬Checked.Signed (a - x.offset + 1) := by
    unfold Checked.Signed
    omega
  rw [habove, Checked.int_of_signed ha]
  simp only
  unfold Checked.Signed at hlo
  rw [if_neg (by omega), Checked.int_of_not_signed hno]

theorem cuts (hfit : x.pool.Fits) (ha : Checked.Signed (a - x.offset)) : r.Cuts t x.pool a := by
  have hfits := fits_of_pool hv hx hfit
  refine ⟨?_, removeBelow_idle hv hx ha, fun hlast => ?_, removeAbove_idle hv hx ha,
    removeAbove_last hv hx hfits⟩
  · have hends := removeBelow_ends hv hx a
    cases hrun : r.removeBelow a t with
    | ok u t' => exact ⟨t', rfl, follows_of_keep hfit (hends.of_ok hrun)⟩
    | error e t' =>
      refine absurd (hends.of_error hrun) (not_cutFails hfits fun i hi => ?_)
      rwa [List.mem_singleton.1 hi]
  · by_cases he : x.values = ∅
    · have hidle := removeAbove_idle hv hx ha (.inr he) fun b hb => by simp [he] at hb
      have hends := removeAbove_ends hv hx a
      exact ⟨t, hidle, follows_of_keep hfit (hends.of_ok hidle)⟩
    · have hnext : Checked.Signed (a - x.offset + 1) := by
        unfold Checked.Signed at ha ⊢
        have : a - x.offset ≠ 2 ^ 63 - 1 := hlast.resolve_right he
        omega
      have hends := removeAbove_ends hv hx a
      cases hrun : r.removeAbove a t with
      | ok u t' => exact ⟨t', rfl, follows_of_keep hfit (hends.of_ok hrun)⟩
      | error e t' =>
        refine absurd (hends.of_error hrun) (not_cutFails hfits fun i hi => ?_)
        obtain rfl | hi := List.mem_cons.1 hi
        · exact ha
        · rwa [List.mem_singleton.1 hi]

end

end SparseRef

namespace Trail

variable {cs : List Call} {t : Trail}

/-- After any calls on live handles, the cuts of every set of integers that `Fits`, at any `a` whose
distance from `p.first` is a machine integer, end as `SparseRef.Cuts` says. -/
theorem sparse_cuts (h : attempt cs empty = some t) {r : SparseRef}
    (hr : r.index < t.sparseSets.size) :
    ∃ p, (Ledger.ofCalls cs).now.pools[r.index]? = some p ∧
      (p.Fits → ∀ a, Checked.Signed (a - p.first) → r.Cuts t p a) := by
  obtain ⟨htells, hv⟩ := Ledger.Tells.start.run h valid_empty
  obtain ⟨x, hx⟩ := exists_sparse_view (decide_eq_true hr)
  refine ⟨x.pool, ?_, fun hfit a ha => SparseRef.cuts hv hx hfit ha⟩
  rw [Ledger.ofCalls, ← htells.now.sparse, hx, Option.map_some]

/-- A set with a hole, cut in the hole from both sides. -/
theorem sparse_cuts_hole :
    ∃ t, attempt [.newSparse 5 (-2), .save, .remove ⟨0⟩ 0] empty = some t ∧
      (∃ t', (⟨0⟩ : SparseRef).removeBelow 0 t = .ok () t' ∧
        (⟨0⟩ : SparseRef).Follows t' ⟨-2, 5, {1, 2}⟩) ∧
      ∃ t', (⟨0⟩ : SparseRef).removeAbove 0 t = .ok () t' ∧
        (⟨0⟩ : SparseRef).Follows t' ⟨-2, 5, {-2, -1}⟩ := by
  have hsome : (attempt [.newSparse 5 (-2), .save, .remove ⟨0⟩ 0] empty).any
      (fun t => decide (0 < t.sparseSets.size)) = true := by decide +kernel
  obtain ⟨t, h, ht⟩ := (Option.any_eq_true _ _).1 hsome
  obtain ⟨p, hp, hcuts⟩ := sparse_cuts h (r := ⟨0⟩) (of_decide_eq_true ht)
  have hpool : (Ledger.ofCalls [.newSparse 5 (-2), .save, .remove ⟨0⟩ 0]).now.pools[0]? =
      some ⟨-2, 5, {-2, -1, 1, 2}⟩ := by decide +kernel
  cases hp.symm.trans hpool
  have hfit : (⟨-2, 5, {-2, -1, 1, 2}⟩ : Pool).Fits := fun a (h1 : -2 ≤ a)
      (h2 : a < -2 + ((5 : Nat) : Int)) => by
    unfold Checked.Signed
    omega
  have hcut := hcuts hfit 0 (by decide)
  exact ⟨t, h, hcut.below, hcut.above (.inl (by decide))⟩

/-- A `removeAbove` that overflows although nothing is above its argument. -/
theorem removeAbove_overflows :
    ∃ t t', attempt [.newSparse 1 0] empty = some t ∧
      (Ledger.ofCalls [.newSparse 1 0]).now.pools[0]? = some ⟨0, 1, {0}⟩ ∧
      (⟨0, 1, {0}⟩ : Pool).Fits ∧ Checked.Signed (2 ^ 63 - 1 - 0) ∧
      (∀ b ∈ ({0} : Finset Int), b ≤ 2 ^ 63 - 1) ∧
      (⟨0⟩ : SparseRef).removeAbove (2 ^ 63 - 1) t = .error .overflow t' := by
  have hfails : (attempt [.newSparse 1 0] empty).any (fun t =>
      Update.fails ((⟨0⟩ : SparseRef).removeAbove (2 ^ 63 - 1)) t fun e _ => e = .overflow) =
        true := by decide +kernel
  obtain ⟨t, h, ht⟩ := (Option.any_eq_true _ _).1 hfails
  obtain ⟨e, t', hrun, he⟩ := Update.exists_of_fails ht
  have hfit : (⟨0, 1, {0}⟩ : Pool).Fits := fun a (h1 : 0 ≤ a) (h2 : a < 0 + ((1 : Nat) : Int)) => by
    unfold Checked.Signed
    omega
  exact ⟨t, t', h, by decide +kernel, hfit, by decide, by decide, of_decide_eq_true he ▸ hrun⟩

end Trail

end Propagation
