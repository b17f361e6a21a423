import Propagation.Proofs.Trail.Ticks

/-!
# Histories

A `History` is a trail with what it was just before each of its open levels was opened. It is kept
by looking at the depth alone (`History.follow`): one more level has been opened on the trail as it
was, and fewer levels are the outer ones of those that were open. So the trails of a history lie one
level apart each (`History.Nested`), whatever is called (`nested_ofCalls`).
-/

set_option autoImplicit false

namespace Propagation.Trail

/-- A call opens at most one level. -/
theorem Call.depth_le (c : Call) (t : Trail) : (c.perform.after t).depth ≤ t.depth + 1 := by
  rw [← length_clocks, ← length_clocks]
  cases c.ticks t with
  | same hc => rw [hc]; exact Nat.le_succ _
  | opened hc => rw [hc]; exact Nat.le_refl _
  | closed n hc =>
    rw [hc, List.length_drop]
    omega

structure History where
  now : Trail
  /-- The trails on which the open levels were opened, innermost first. -/
  opened : List Trail

namespace History

def start : History := ⟨.empty, []⟩

/-- The history after the trail has become `t`, which has at most one level more. -/
def follow (h : History) (t : Trail) : History where
  now := t
  opened := if h.now.depth < t.depth then h.now :: h.opened
    else h.opened.drop (h.now.depth - t.depth)

/-- The history after a call, also one that ends in a fault. -/
def after (h : History) (c : Call) : History := h.follow (c.perform.after h.now)

/-- The history of the calls `cs` on an empty trail. -/
def ofCalls (cs : List Call) : History := cs.foldl after start

variable {h : History} {t : Trail}

theorem opened_same (hd : t.depth = h.now.depth) : (h.follow t).opened = h.opened := by
  simp [follow, hd]

theorem opened_save (hd : t.depth = h.now.depth + 1) :
    (h.follow t).opened = h.now :: h.opened := by
  simp [follow, hd]

theorem opened_close {n : Nat} (hd : t.depth = h.now.depth - n) (hn : n ≤ h.now.depth) :
    (h.follow t).opened = h.opened.drop n := by
  have hlt : ¬h.now.depth < t.depth := by omega
  rw [follow, if_neg hlt, hd, Nat.sub_sub_self hn]

theorem mem_opened {u : Trail} (hu : u ∈ (h.follow t).opened) :
    u ∈ h.opened ∨ u = h.now ∧ h.now.depth < t.depth := by
  rw [follow] at hu
  split at hu
  · next hd =>
    obtain rfl | hu := List.mem_cons.1 hu
    · exact .inr ⟨rfl, hd⟩
    · exact .inl hu
  · exact .inl (List.mem_of_mem_drop hu)

/-- An invariant of all histories, from its preservation by a call. -/
theorem inv_ofCalls {P : History → Prop} (hstart : P start)
    (hstep : ∀ h c, P h → P (h.after c)) (cs : List Call) : P (ofCalls cs) := by
  have hall : ∀ h, P h → P (cs.foldl after h) := by
    induction cs with
    | nil => exact fun h hh => hh
    | cons c cs ih => exact fun h hh => ih (h.after c) (hstep h c hh)
  exact hall start hstart

theorem now_foldl (h : History) (cs : List Call) :
    (cs.foldl after h).now = cs.foldl (fun t (c : Call) => c.perform.after t) h.now := by
  induction cs generalizing h with
  | nil => rfl
  | cons c cs ih => exact ih (h.after c)

/-! ## Depths -/

/-- There is one trail for each open level, and each has as many levels as there are around it. -/
structure Nested (h : History) : Prop where
  length : h.opened.length = h.now.depth
  depth : ∀ n u, h.opened[n]? = some u → u.depth + n + 1 = h.now.depth

theorem nested_start : start.Nested := ⟨rfl, fun n u hu => by simp [start] at hu⟩

theorem Nested.follow (hn : h.Nested) (hd : t.depth ≤ h.now.depth + 1) : (h.follow t).Nested := by
  by_cases hlt : h.now.depth < t.depth
  · rw [History.follow, if_pos hlt]
    refine ⟨by simp [hn.length]; omega, fun n u hu => ?_⟩
    cases n with
    | zero =>
      cases hu
      show h.now.depth + 0 + 1 = t.depth
      omega
    | succ n =>
      have := hn.depth n u hu
      show u.depth + (n + 1) + 1 = t.depth
      omega
  · rw [History.follow, if_neg hlt]
    refine ⟨by simp [hn.length]; omega, fun n u hu => ?_⟩
    rw [List.getElem?_drop] at hu
    have := hn.depth _ u hu
    show u.depth + n + 1 = t.depth
    omega

theorem Nested.depth_lt (hn : h.Nested) {u : Trail} (hu : u ∈ h.opened) :
    u.depth < h.now.depth := by
  obtain ⟨n, hn'⟩ := List.mem_iff_getElem?.1 hu
  have := hn.depth n u hn'
  omega

theorem nested_ofCalls (cs : List Call) : (ofCalls cs).Nested :=
  inv_ofCalls nested_start (fun h c hn => hn.follow (c.depth_le h.now)) cs

end History

end Propagation.Trail
