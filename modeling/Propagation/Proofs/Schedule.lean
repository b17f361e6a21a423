import Mathlib.Data.List.Basic
import Propagation.Proofs.Queue

/-!
# The queue serves by class, then by age

The reference of the queue is a plain list of the scheduled propagators, each with the class it was
scheduled in, oldest first (`Schedule`). After any calls all observations of the queue are those of
the list (`Queue.Serves`, `Queue.serves_in_order`): a pop returns the oldest of the cheapest class.
None is lost or served twice: each one scheduled has been served or dropped or is still present.
-/

set_option autoImplicit false

namespace Propagation

/-! ## The list -/

/-- The scheduled propagators with their classes, oldest first. -/
abbrev Schedule := List (PropagatorId × Priority)

namespace Schedule

def ids (s : Schedule) : List PropagatorId := s.map (·.1)

/-- The list with `p` in the class `c` at its end, unless `p` is scheduled already, in whatever
class. -/
def enqueue (s : Schedule) (p : PropagatorId) (c : Priority) : Schedule :=
  if p ∈ s.ids then s else s ++ [(p, c)]

/-- The oldest of the propagators in the cheapest class present. -/
def first (s : Schedule) : Option (PropagatorId × Priority) :=
  s.find? fun x => s.all fun y => x.2.index ≤ y.2.index

def pop (s : Schedule) : Schedule :=
  match s.first with
  | none => s
  | some x => s.erase x

/-- The scheduled propagators of a class, oldest first. -/
def lane (s : Schedule) (c : Priority) : List PropagatorId := (s.filter (·.2 = c)).map (·.1)

variable {s before later : Schedule} {p : PropagatorId} {c d : Priority}

theorem mem_ids_iff : p ∈ s.ids ↔ ∃ c, p ∈ s.lane c := by
  simp [ids, lane]

theorem lane_append (s t : Schedule) (c : Priority) : lane (s ++ t) c = s.lane c ++ t.lane c := by
  simp [lane]

theorem lane_cons (p : PropagatorId) (c : Priority) (s : Schedule) (d : Priority) :
    lane ((p, c) :: s) d = if d = c then p :: s.lane d else s.lane d := by
  by_cases h : d = c
  · simp [lane, h]
  · simp [lane, h, Ne.symm h]

theorem lane_eq_nil : s.lane c = [] ↔ ∀ x ∈ s, x.2 ≠ c := by
  simp [lane]

/-- The head of a lane, and the part of the list before it. -/
theorem exists_of_lane {ps : List PropagatorId} (h : s.lane c = p :: ps) :
    ∃ before later, s = before ++ (p, c) :: later ∧ lane before c = [] ∧ lane later c = ps := by
  induction s with
  | nil => cases h
  | cons x s ih =>
    obtain ⟨r, d⟩ := x
    rw [lane_cons] at h
    split at h
    · next hd =>
      subst hd
      obtain ⟨rfl, rfl⟩ := List.cons.inj h
      exact ⟨[], s, rfl, rfl, rfl⟩
    · next hd =>
      obtain ⟨before, later, rfl, hbefore, hlater⟩ := ih h
      refine ⟨(r, d) :: before, later, rfl, ?_, hlater⟩
      rw [lane_cons, if_neg hd, hbefore]

/-- The pair that is `first`, by the classes before and after it. -/
theorem first_eq (hbefore : ∀ x ∈ before, c.index < x.2.index)
    (hlater : ∀ x ∈ later, c.index ≤ x.2.index) :
    first (before ++ (p, c) :: later) = some (p, c) := by
  refine List.find?_eq_some_iff_append.2 ⟨?_, before, later, rfl, fun x hx => ?_⟩
  · simp only [List.all_eq_true, List.mem_append, List.mem_cons, decide_eq_true_eq]
    rintro y (hy | rfl | hy)
    · exact Nat.le_of_lt (hbefore y hy)
    · exact Nat.le_refl _
    · exact hlater y hy
  · have hlt := hbefore x hx
    simp only [Bool.not_eq_true', List.all_eq_false, decide_eq_true_eq, Nat.not_le]
    exact ⟨(p, c), by simp, hlt⟩

theorem pop_eq (hbefore : ∀ x ∈ before, c.index < x.2.index)
    (hlater : ∀ x ∈ later, c.index ≤ x.2.index) :
    pop (before ++ (p, c) :: later) = before ++ later := by
  have hno : (p, c) ∉ before := fun h => Nat.lt_irrefl _ (hbefore _ h)
  rw [pop, first_eq hbefore hlater]
  simp only [List.erase_append_right _ hno, List.erase_cons_head]

end Schedule

/-! ## Calls -/

namespace Queue

inductive Call
  | enqueue (p : PropagatorId) (c : Priority)
  | pop
  | clear

namespace Call

/-- The queue after a call. -/
def perform (q : Queue) : Call → Queue
  | .enqueue p c => q.enqueue p c
  | .pop => (q.pop.map (·.2)).getD q
  | .clear => q.clear

/-- The list after a call. -/
def note (s : Schedule) : Call → Schedule
  | .enqueue p c => s.enqueue p c
  | .pop => s.pop
  | .clear => []

end Call

def after (q : Queue) (ks : List Call) : Queue := ks.foldl Call.perform q

/-- The list after the calls `ks`. -/
def noted (s : Schedule) (ks : List Call) : Schedule := ks.foldl Call.note s

/-- The calls, each with the queue that it is made on. -/
def met (q : Queue) : List Call → List (Queue × Call)
  | [] => []
  | k :: ks => (q, k) :: met (k.perform q) ks

/-- The call enqueues `p`, which is not in the queue. -/
def schedules (p : PropagatorId) : Queue × Call → Bool
  | (q, .enqueue r _) => r = p && !q.contains p
  | _ => false

/-- The call pops `p`. -/
def serves (p : PropagatorId) : Queue × Call → Bool
  | (q, .pop) => q.pop.any (·.1 = p)
  | _ => false

/-- The call clears the queue while `p` is in it. -/
def drops (p : PropagatorId) : Queue × Call → Bool
  | (q, .clear) => q.contains p
  | _ => false

/-! ## Following the list -/

/-- All observations of the queue `q` are those of the list `s`. -/
structure Serves (q : Queue) (s : Schedule) : Prop where
  size : q.size = s.length
  isEmpty : q.isEmpty = s.isEmpty
  contains : ∀ p, q.contains p = decide (p ∈ s.ids)
  once : s.ids.Nodup
  /-- The lanes are the classes of the list, in its order. -/
  lane : ∀ c, q.lane c = s.lane c
  /-- A class is on the agenda once if its lane is not empty, and otherwise not at all: a pop never
  finds an empty lane. -/
  agenda : ∀ c, q.agenda.count c = if q.lane c = [] then 0 else 1
  pop_none : q.pop = none ↔ s = []
  /-- The propagator that is popped is the oldest of its class, which is the cheapest. -/
  pop_some : ∀ p q', q.pop = some (p, q') → ∃ before c later, s = before ++ (p, c) :: later ∧
    (∀ x ∈ before, c.index < x.2.index) ∧ (∀ x ∈ later, c.index ≤ x.2.index) ∧
    s.first = some (p, c) ∧ s.pop = before ++ later

structure Follows (q : Queue) (s : Schedule) : Prop where
  valid : q.Valid
  once : s.ids.Nodup
  lane : ∀ c, q.lane c = s.lane c

variable {q q' : Queue} {s : Schedule} {p : PropagatorId} {c d : Priority}

theorem follows_empty : Follows empty [] where
  valid := valid_empty
  once := List.nodup_nil
  lane := lane_empty

theorem Valid.sorted_agenda (hq : q.Valid) : q.agenda.Pairwise (·.index < ·.index) :=
  hq.agenda_eq ▸ Priority.sorted_all.filter _

theorem Follows.contains_iff (h : Follows q s) : q.contains p = true ↔ p ∈ s.ids := by
  rw [h.valid.contains_iff, Schedule.mem_ids_iff]
  simp only [h.lane]

/-- The place in the list of a propagator that is popped. -/
theorem Follows.exists_of_pop (h : Follows q s) (hpop : q.pop = some (p, q')) :
    ∃ before c later, s = before ++ (p, c) :: later ∧ (∀ x ∈ before, c.index < x.2.index) ∧
      (∀ x ∈ later, c.index ≤ x.2.index) ∧ s.pop = before ++ later ∧
      ∀ d, q'.lane d = Schedule.lane (before ++ later) d := by
  obtain ⟨c, cs, ps, ha, hl, rfl⟩ := Queue.exists_of_pop hpop
  obtain ⟨before, later, rfl, hbefore, hlater⟩ := Schedule.exists_of_lane ((h.lane c).symm.trans hl)
  -- the head of the agenda is the cheapest class that is present
  have hle : ∀ x ∈ before ++ (p, c) :: later, c.index ≤ x.2.index := fun x hx => by
    have hx : x.2 ∈ q.agenda := by
      rw [h.valid.mem_agenda, h.lane, Ne, Schedule.lane_eq_nil]
      exact fun hno => hno x hx rfl
    rw [ha, List.mem_cons] at hx
    have hsorted := h.valid.sorted_agenda
    rw [ha] at hsorted
    obtain hx | hx := hx
    · exact Nat.le_of_eq (by rw [hx])
    · exact Nat.le_of_lt ((List.pairwise_cons.1 hsorted).1 _ hx)
  have hlt : ∀ x ∈ before, c.index < x.2.index := fun x hx =>
    Nat.lt_of_le_of_ne (hle x (List.mem_append_left _ hx)) fun he =>
      Schedule.lane_eq_nil.1 hbefore x hx (Priority.index_inj he).symm
  have hge : ∀ x ∈ later, c.index ≤ x.2.index := fun x hx =>
    hle x (List.mem_append_right _ (List.mem_cons_of_mem _ hx))
  refine ⟨before, c, later, rfl, hlt, hge, Schedule.pop_eq hlt hge, fun d => ?_⟩
  rw [lane_set, Schedule.lane_append]
  split
  · next hd => rw [hd, hbefore, hlater, List.nil_append]
  · next hd => rw [h.lane, Schedule.lane_append, Schedule.lane_cons, if_neg hd]

theorem Follows.perform (h : Follows q s) (k : Call) : Follows (k.perform q) (k.note s) := by
  cases k with
  | enqueue p c =>
    cases hp : q.contains p with
    | true =>
      rwa [Call.perform, Queue.enqueue, if_pos hp, Call.note, Schedule.enqueue,
        if_pos (h.contains_iff.1 hp)]
    | false =>
      have hno : p ∉ s.ids := fun hmem => by
        rw [h.contains_iff.2 hmem] at hp
        cases hp
      rw [Call.note, Schedule.enqueue, if_neg hno]
      refine ⟨h.valid.enqueue p c, ?_, fun d => ?_⟩
      · rw [Schedule.ids, List.map_append, List.nodup_append_comm]
        exact List.nodup_cons.2 ⟨hno, h.once⟩
      · rw [Call.perform, lane_enqueue hp, Schedule.lane_append, Schedule.lane_cons, h.lane, h.lane]
        by_cases hd : d = c
        · rw [if_pos hd, if_pos hd, hd]
          rfl
        · rw [if_neg hd, if_neg hd]
          exact (List.append_nil _).symm
  | pop =>
    unfold Call.perform Call.note
    cases hpop : q.pop with
    | none =>
      have hnil : s = [] := by
        have hno := h.valid.pop_none hpop
        refine List.eq_nil_iff_forall_not_mem.2 fun x hx => ?_
        have := h.contains_iff.2 (List.mem_map_of_mem hx)
        rw [hno] at this
        cases this
      rw [hnil] at h ⊢
      exact h
    | some x =>
      obtain ⟨p, q'⟩ := x
      obtain ⟨before, c, later, rfl, -, -, hrest, hlane⟩ := h.exists_of_pop hpop
      rw [hrest]
      refine ⟨(h.valid.pop_some hpop).1, h.once.sublist ?_, hlane⟩
      exact ((List.Sublist.refl before).append (List.sublist_cons_self _ later)).map _
  | clear => exact ⟨h.valid.clear, List.nodup_nil, h.valid.lane_clear⟩

theorem Follows.after (h : Follows q s) (ks : List Call) :
    Follows (q.after ks) (noted s ks) := by
  induction ks generalizing q s with
  | nil => exact h
  | cons k ks ih => exact ih (h.perform k)

theorem Follows.serves (h : Follows q s) : Serves q s := by
  have hperm : q.present.Perm s.ids :=
    (List.perm_ext_iff_of_nodup h.valid.nodup_present h.once).2 fun p => by
      rw [← contains_iff_present, h.contains_iff]
  have hsize : q.size = s.length := hperm.length_eq.trans (List.length_map _)
  have hempty : q.isEmpty = s.isEmpty := by
    rw [Bool.eq_iff_iff, isEmpty, List.isEmpty_iff, List.isEmpty_iff, ← List.length_eq_zero_iff,
      ← List.length_eq_zero_iff, ← hsize, size]
  refine ⟨hsize, hempty, fun p => ?_, h.once, h.lane, fun c => ?_, ?_, fun p q' hpop => ?_⟩
  · rw [Bool.eq_iff_iff, h.contains_iff, decide_eq_true_iff]
  · rw [h.valid.nodup_agenda.count]
    by_cases hc : q.lane c = [] <;> simp [h.valid.mem_agenda, hc]
  · rw [h.valid.pop_eq_none, hempty, List.isEmpty_iff]
  · obtain ⟨before, c, later, rfl, hlt, hge, hrest, -⟩ := h.exists_of_pop hpop
    exact ⟨before, c, later, rfl, hlt, hge, Schedule.first_eq hlt hge, hrest⟩

/-! ## Nobody is lost -/

theorem toNat_eq_ite (b : Bool) : b.toNat = if b then 1 else 0 := by cases b <;> rfl

/-- For each call and each `p`: present before plus scheduled is served plus dropped plus present
after. -/
theorem Valid.balance (hq : q.Valid) (k : Call) (p : PropagatorId) :
    (q.contains p).toNat + (schedules p (q, k)).toNat =
      (serves p (q, k)).toNat + (drops p (q, k)).toNat + ((k.perform q).contains p).toNat := by
  cases k with
  | enqueue r c =>
    have hr : (q.enqueue r c).contains p = (decide (p = r) || q.contains p) := by
      rw [Bool.eq_iff_iff, contains_enqueue, Bool.or_eq_true, decide_eq_true_iff]
    simp only [schedules, serves, drops, Call.perform, hr, eq_comm (a := r)]
    cases q.contains p <;> by_cases h : p = r <;> simp [h]
  | pop =>
    simp only [schedules, serves, drops, Call.perform]
    cases hpop : q.pop with
    | none => simp
    | some x =>
      obtain ⟨r, q'⟩ := x
      obtain ⟨-, hgone, hrest⟩ := hq.pop_some hpop
      by_cases h : r = p
      · subst h
        simp [(hrest r).2 (.inl rfl), hgone]
      · have hsame : q.contains p = q'.contains p := by
          rw [Bool.eq_iff_iff, hrest, or_iff_right (Ne.symm h)]
        simp [h, hsame]
  | clear => simp [schedules, serves, drops, Call.perform]

theorem balance_after (h : Follows q s) (ks : List Call) (p : PropagatorId) :
    (q.contains p).toNat + (q.met ks).countP (schedules p) =
      (q.met ks).countP (serves p) + (q.met ks).countP (drops p) +
        ((q.after ks).contains p).toNat := by
  induction ks generalizing q s with
  | nil => simp [met, after]
  | cons k ks ih =>
    have hstep := h.valid.balance k p
    have hrest := ih (h.perform k)
    have hafter : q.after (k :: ks) = (k.perform q).after ks := rfl
    simp only [met, List.countP_cons, hafter, ← toNat_eq_ite]
    omega

/-! ## The main theorem -/

/-- After any calls on an empty queue, it `Serves` the list, and each `p` has been scheduled as
often as served or dropped, and once more if it is present. -/
theorem serves_in_order (ks : List Call) :
    Serves (empty.after ks) (noted [] ks) ∧
      ∀ p, (empty.met ks).countP (schedules p) =
        (empty.met ks).countP (serves p) + (empty.met ks).countP (drops p) +
          if (empty.after ks).contains p then 1 else 0 := by
  refine ⟨(follows_empty.after ks).serves, fun p => ?_⟩
  have h := balance_after follows_empty ks p
  rw [contains_empty, toNat_eq_ite ((empty.after ks).contains p)] at h
  simpa using h

/-- The class of an earlier scheduling counts, and a queue that was cleared begins anew. -/
example : (empty.after [.enqueue ⟨0⟩ .linear, .enqueue ⟨1⟩ .unary, .clear, .enqueue ⟨2⟩ .cubic,
    .enqueue ⟨1⟩ .cubic, .enqueue ⟨1⟩ .unary]).pop.map (·.1) = some ⟨2⟩ := by decide

end Queue

end Propagation
