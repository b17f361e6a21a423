import Propagation.Proofs.Trail.Valid

/-!
# Levels of a valid trail

Opening a level puts the present view on top of the past (`Valid.save`), closing one takes it from
there (`Valid.close`, `past_close`), and a rollback takes as many as the mark says
(`Valid.rollback_live`). A mark is live iff the past has its clock at its depth
(`isLive_iff`).
-/

set_option autoImplicit false

namespace Propagation.Trail

variable {t : Trail}

theorem valid_empty : empty.Valid := by
  refine Sound.valid ?_ fun h => absurd rfl h
  exact
    { tracked := ⟨fun i c h => by simp [empty] at h, nofun, nofun⟩
      clocks := List.Pairwise.nil
      sparseArena := ⟨rfl, by decide⟩
      boundedArena := ⟨rfl, by decide⟩
      sparse := fun r s h => by simp [empty] at h
      bounded := fun r s h => by simp [empty] at h
      sparse_apart := fun r r' s s' _ h => by simp [empty] at h
      bounded_apart := fun r r' s s' _ h => by simp [empty] at h
      owner := fun o o' i h => by cases o <;> simp [Owns, empty] at h
      reach := fun c e rest h => by cases h
      sparse_new := fun c e rest h => by cases h
      bounded_new := fun c e rest h => by cases h
      sparse_le := fun r s h => by simp [empty, close] at h
      bounded_le := fun r s h => by simp [empty, close] at h }

/-! ## Later clocks -/

/-- The trail with the clock `c`. -/
def withClock (t : Trail) (c : Nat) : Trail := { t with clock := c }

theorem close_withClock (t : Trail) (c : Nat) : (t.withClock c).close = t.close.withClock c := by
  cases hl : t.levels with
  | nil => rw [close_of_nil hl, close_of_nil (t := t.withClock c) hl]
  | cons l ls =>
    rw [close_of_cons hl, close_of_cons (t := t.withClock c) hl]
    rfl

theorem closeMany_withClock (t : Trail) (c n : Nat) :
    (t.withClock c).closeMany n = (t.closeMany n).withClock c := by
  induction n generalizing t with
  | zero => rfl
  | succ n ih => rw [closeMany, closeMany, close_withClock, ih]

@[simp] theorem clock_closeMany (t : Trail) (n : Nat) : (t.closeMany n).clock = t.clock := by
  induction n generalizing t with
  | zero => rfl
  | succ n ih => rw [closeMany, ih, clock_close]

@[simp] theorem view_withClock (t : Trail) (c : Nat) : (t.withClock c).view = t.view := rfl

theorem past_withClock (t : Trail) (c : Nat) : (t.withClock c).past = t.past := by
  have h : ∀ (ls : List Level) (t : Trail), pastFrom ls (t.withClock c) = pastFrom ls t := by
    intro ls
    induction ls with
    | nil => intro t; rfl
    | cons l ls ih =>
      intro t
      rw [pastFrom, pastFrom, close_withClock, ih, view_withClock]
  exact h _ t

theorem Sound.withClock (hs : t.Sound) {c : Nat} (hc : t.clock ≤ c) : (t.withClock c).Sound where
  tracked := ⟨fun i x hx => (hs.tracked.stamp_le i x hx).trans hc,
    fun l hl => (hs.tracked.clock_le l hl).trans hc, hs.tracked.covers⟩
  clocks := hs.clocks
  sparseArena := hs.sparseArena
  boundedArena := hs.boundedArena
  sparse r s hr := ⟨(hs.sparse r s hr).1, (hs.sparse r s hr).2, (hs.sparse r s hr).3,
    (hs.sparse r s hr).4⟩
  bounded r s hr := ⟨(hs.bounded r s hr).1, (hs.bounded r s hr).2, (hs.bounded r s hr).3⟩
  sparse_apart := hs.sparse_apart
  bounded_apart := hs.bounded_apart
  owner o o' i h h' := hs.owner o o' i (by cases o <;> exact h) (by cases o' <;> exact h')
  reach := hs.reach
  sparse_new := hs.sparse_new
  bounded_new := hs.bounded_new
  sparse_le := by rw [close_withClock]; exact hs.sparse_le
  bounded_le := by rw [close_withClock]; exact hs.bounded_le

theorem Valid.withClock (hv : t.Valid) {c : Nat} (hc : t.clock ≤ c) : (t.withClock c).Valid := by
  intro n
  rw [closeMany_withClock]
  exact (hv n).withClock (by rw [clock_closeMany]; exact hc)

/-! ## Opening -/

theorem take_size {α : Type} (xs : Array α) : xs.take xs.size = xs := by
  refine Array.ext_getElem? fun i => ?_
  rw [getElem?_take]
  split
  · rfl
  · rw [Array.getElem?_eq_none (by omega)]

/-- A level that is closed at once changes the clock only. -/
theorem close_save (hs : t.Sound) : t.save.close = t.withClock (t.clock + 1) := by
  have hsp : t.sparseArena.truncate t.sparseArena.size = t.sparseArena := by
    rw [Arena.truncate, Arena.size, take_size, ← hs.sparseArena.rank_size, take_size]
  have hbo : t.boundedArena.truncate t.boundedArena.size = t.boundedArena := by
    rw [Arena.truncate, Arena.size, take_size, ← hs.boundedArena.rank_size, take_size]
  rw [close_of_cons (t := t.save) rfl, withClock]
  simp only [save, undo, List.foldl_nil, truncate, extent, take_size, hsp, hbo]

theorem Valid.save (hv : t.Valid) : t.save.Valid := by
  have hs := hv.sound
  have hclose := close_save hs
  refine Sound.valid ?_ fun _ => by rw [hclose]; exact hv.withClock (Nat.le_succ _)
  exact
    { tracked := by
        refine ⟨fun i x hx => (hs.tracked.stamp_le i x hx).trans (Nat.le_succ _),
          fun l hl => ?_, fun l ls hl i hi x hx hle => ?_⟩
        · rcases List.mem_cons.1 hl with rfl | hl
          · exact Nat.le_refl _
          · exact (hs.tracked.clock_le l hl).trans (Nat.le_succ _)
        · obtain ⟨rfl, -⟩ := List.cons.inj hl
          have := hs.tracked.stamp_le i x hx
          simp only at hle
          omega
      clocks := by
        refine List.pairwise_cons.2 ⟨fun x hx => ?_, hs.clocks⟩
        obtain ⟨l, hl, rfl⟩ := List.mem_map.1 hx
        exact Nat.lt_succ_of_le (hs.tracked.clock_le l hl)
      sparseArena := hs.sparseArena
      boundedArena := hs.boundedArena
      sparse := fun r s hr => ⟨(hs.sparse r s hr).1, (hs.sparse r s hr).2, (hs.sparse r s hr).3,
        (hs.sparse r s hr).4⟩
      bounded := fun r s hr => ⟨(hs.bounded r s hr).1, (hs.bounded r s hr).2,
        (hs.bounded r s hr).3⟩
      sparse_apart := hs.sparse_apart
      bounded_apart := hs.bounded_apart
      owner := fun o o' i h h' => hs.owner o o' i (by cases o <;> exact h)
        (by cases o' <;> exact h')
      reach := fun c e rest h => by
        obtain ⟨h, -⟩ := List.cons.inj h
        cases h
        exact ⟨Nat.le_refl _, Nat.le_refl _, Nat.le_refl _, Nat.le_refl _, Nat.le_refl _⟩
      sparse_new := fun c e rest h r s hr hle => by
        obtain ⟨h, -⟩ := List.cons.inj h
        cases h
        obtain ⟨hlt, -⟩ := Array.getElem?_eq_some_iff.1 hr
        exact absurd hlt (Nat.not_lt_of_le hle)
      bounded_new := fun c e rest h r s hr hle => by
        obtain ⟨h, -⟩ := List.cons.inj h
        cases h
        obtain ⟨hlt, -⟩ := Array.getElem?_eq_some_iff.1 hr
        exact absurd hlt (Nat.not_lt_of_le hle)
      sparse_le := fun r s _ => by rw [hclose]; exact Nat.le_refl _
      bounded_le := fun r s _ => by rw [hclose]; exact ⟨Nat.le_refl _, Nat.le_refl _⟩ }

@[simp] theorem view_save (t : Trail) : t.save.view = t.view := rfl

theorem past_save (hs : t.Sound) : t.save.past = (t.clock + 1, t.view) :: t.past := by
  rw [past_of_cons (t := t.save) rfl, close_save hs, view_withClock, past_withClock]

/-! ## Closing -/

theorem past_close (t : Trail) : t.close.past = t.past.tail := by
  cases hl : t.levels with
  | nil => rw [close_of_nil hl, past_of_nil hl, List.tail_nil]
  | cons l ls => rw [past_of_cons hl, List.tail_cons]

theorem past_closeMany (t : Trail) (n : Nat) : (t.closeMany n).past = t.past.drop n := by
  induction n generalizing t with
  | zero => rfl
  | succ n ih => rw [closeMany, ih, past_close, List.drop_tail]

/-- The views in `past` are those that closing the levels gives back. -/
theorem view_closeMany {n c : Nat} {v : View} {newer older : List (Nat × View)}
    (h : t.past = newer ++ (c, v) :: older) (hn : newer.length = n) :
    (t.closeMany (n + 1)).view = v := by
  induction n generalizing t newer with
  | zero =>
    obtain rfl := List.length_eq_zero_iff.1 hn
    cases hl : t.levels with
    | nil => rw [past_of_nil hl] at h; cases h
    | cons l ls =>
      rw [past_of_cons hl] at h
      obtain ⟨h, -⟩ := List.cons.inj h
      exact (Prod.ext_iff.1 h).2
  | succ n ih =>
    cases newer with
    | nil => cases hn
    | cons x xs =>
      have hx : t.close.past = xs ++ (c, v) :: older := by
        rw [past_close, h]
        rfl
      exact ih hx (by simpa using hn)

theorem map_fst_pastFrom (ls : List Level) (t : Trail) :
    (pastFrom ls t).map (·.1) = ls.map (·.clock) := by
  induction ls generalizing t with
  | nil => rfl
  | cons l ls ih => simp [pastFrom, ih]

/-! ## Marks -/

theorem isLive_iff {m : Mark} : t.isLive m = true ↔
    ∃ newer v older, t.past = newer ++ (m.clock, v) :: older ∧ older.length = m.depth := by
  have hget : (t.levels.reverse[m.depth]?).map (·.clock) =
      (t.past.reverse[m.depth]?).map (·.1) := by
    rw [← List.getElem?_map, ← List.getElem?_map, List.map_reverse, List.map_reverse, past,
      map_fst_pastFrom]
  have hlive : t.isLive m = true ↔
      (t.levels.reverse[m.depth]?).map (·.clock) = some m.clock := by
    rw [isLive]
    cases t.levels.reverse[m.depth]? <;> simp
  rw [hlive, hget]
  constructor
  · intro h
    obtain ⟨⟨c, v⟩, hx, rfl⟩ := Option.map_eq_some_iff.1 h
    obtain ⟨hlt, hx⟩ := List.getElem?_eq_some_iff.1 hx
    rw [List.length_reverse] at hlt
    rw [List.getElem_reverse] at hx
    have hlt' : t.past.length - 1 - m.depth < t.past.length := by omega
    refine ⟨t.past.take (t.past.length - 1 - m.depth), v,
      t.past.drop (t.past.length - 1 - m.depth + 1), ?_, ?_⟩
    · simp only [← hx]
      rw [← List.drop_eq_getElem_cons hlt', List.take_append_drop]
    · rw [List.length_drop]
      omega
  · rintro ⟨newer, v, older, h, hlen⟩
    rw [h]
    simp [← hlen]

/-- `rollback` to a live mark closes the levels down to that of the mark. -/
theorem rollback_live {m : Mark} {newer older : List (Nat × View)} {v : View}
    (h : t.past = newer ++ (m.clock, v) :: older) (hlen : older.length = m.depth) :
    ∃ t', rollback m t = .ok () t' ∧ t' = t.closeMany (newer.length + 1) ∧ t'.view = v ∧
      t'.past = older := by
  have hdepth : t.depth - m.depth = newer.length + 1 := by
    rw [← length_past, h, ← hlen]
    simp
    omega
  refine ⟨t.closeMany (newer.length + 1), ?_, rfl, view_closeMany h rfl, ?_⟩
  · rw [rollback, if_pos (isLive_iff.2 ⟨newer, v, older, h, hlen⟩), hdepth]
  · rw [past_closeMany, h]
    simp [List.drop_append]

theorem Valid.closeMany (hv : t.Valid) (n : Nat) : (t.closeMany n).Valid := by
  induction n generalizing t with
  | zero => exact hv
  | succ n ih => exact ih hv.close

end Propagation.Trail
