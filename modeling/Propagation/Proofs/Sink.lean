import Mathlib.Logic.Basic
import Propagation.Delta.Log
import Propagation.Event.Sink

/-!
# Pending events

The sink may join an event to the entry before it, but the events in it are exactly those that have
been pushed, each of its variable and its cause (`Sink.has_push`, `Sink.has_pushAll`). The changes
of sets and graphs are pushed entry by entry (`Sink.tell`).
-/

set_option autoImplicit false

namespace Propagation

namespace Mask

variable {m n : Mask} {e f : Event}

@[simp] theorem mem_only : f ∈ only e ↔ f = e := by
  rw [mem_iff, contains_only, decide_eq_true_iff, eq_comm]

@[simp] theorem mem_union : e ∈ m ∪ n ↔ e ∈ m ∨ e ∈ n := by
  simp [mem_iff]

@[simp] theorem mem_inter : e ∈ m ∩ n ↔ e ∈ m ∧ e ∈ n := by
  simp [mem_iff]

@[simp] theorem mem_addIf {b : Bool} : f ∈ m.addIf b e ↔ f ∈ m ∨ (b = true ∧ f = e) := by
  cases b <;> simp [addIf]

@[simp] theorem mem_ofList {es : List Event} : e ∈ ofList es ↔ e ∈ es := by
  have hfold : ∀ m : Mask, e ∈ es.foldl (fun m e => m ∪ only e) m ↔ e ∈ m ∨ e ∈ es := by
    intro m
    induction es generalizing m with
    | nil => simp
    | cons f fs ih => rw [List.foldl_cons, ih, mem_union, mem_only, List.mem_cons, or_assoc]
  rw [ofList, hfold]
  simp [mem_iff]

theorem isEmpty_iff : m.isEmpty = true ↔ ∀ e, e ∉ m := by
  rw [isEmpty, beq_iff_eq]
  constructor
  · intro h e he
    rw [mem_iff, contains, h] at he
    simp at he
  · intro h
    refine BitVec.eq_of_getLsbD_eq fun i hi => ?_
    have hall : ∀ i < 10, ∃ e ∈ Event.all, e.index = i := by decide
    obtain ⟨e, -, rfl⟩ := hall i hi
    have he := h e
    rw [mem_iff, contains] at he
    simpa using he

theorem isEmpty_eq_false_iff : m.isEmpty = false ↔ ∃ e, e ∈ m := by
  rw [← Bool.not_eq_true, isEmpty_iff, not_forall]
  exact exists_congr fun e => Classical.not_not

end Mask

namespace Sink

/-- The event `e` of `v` with the cause `c` is in an entry of the sink. -/
def Has (k : Sink) (v : Var) (e : Event) (c : Cause) : Prop :=
  ∃ p ∈ k.newest, p.var = v ∧ p.cause = c ∧ e ∈ p.mask

variable {k : Sink} {v w : Var} {c d : Cause} {e f : Event}

theorem isEmpty_iff : k.isEmpty = true ↔ k = .empty := by
  obtain ⟨l⟩ := k
  cases l <;> simp [isEmpty, empty]

theorem not_has_empty : ¬empty.Has v e c := fun ⟨_, hp, _⟩ => nomatch hp

/-- `push` adds one event, whether or not it joins an entry. -/
theorem has_push : (k.push v e c).Has w f d ↔ k.Has w f d ∨ (w = v ∧ d = c ∧ f = e) := by
  rw [push]
  split
  · next last rest heq =>
    split
    · next hlast =>
      simp only [Has, heq, List.mem_cons, exists_eq_or_imp]
      rw [Mask.mem_union, Mask.mem_only, hlast.1, hlast.2]
      grind
    · simp only [Has, heq, List.mem_cons, exists_eq_or_imp, Mask.mem_only]
      grind
  · next heq =>
    simp only [Has, heq, List.mem_singleton, exists_eq_left, List.not_mem_nil, false_and,
      exists_false, false_or, Mask.mem_only]
    grind

/-- A fold of `push` adds the events of the list. -/
theorem has_foldl {α : Type} (f : α → Var) (g : α → Event) (h : α → Cause) (l : List α) :
    (l.foldl (fun k a => k.push (f a) (g a) (h a)) k).Has w e d ↔
      k.Has w e d ∨ ∃ a ∈ l, w = f a ∧ d = h a ∧ e = g a := by
  induction l generalizing k with
  | nil => simp
  | cons a l ih =>
    simp only [List.foldl_cons, ih, has_push, List.mem_cons, exists_eq_or_imp, or_assoc]

theorem has_pushAll {m : Mask} :
    (k.pushAll v m c).Has w f d ↔ k.Has w f d ∨ (w = v ∧ d = c ∧ f ∈ m) := by
  rw [pushAll, has_foldl (fun _ => v) (fun e => e) fun _ => c]
  simp only [Mask.mem_toList]
  grind

theorem pushAll_empty (k : Sink) (v : Var) (c : Cause) : k.pushAll v .empty c = k := rfl

/-- The sink after the events of the log entries `xs` of `v` have been pushed, in this order. -/
def tell (k : Sink) (v : Var) (xs : List DeltaEntry) : Sink :=
  xs.foldl (fun k x => k.push v x.event x.cause) k

theorem has_tell {xs : List DeltaEntry} :
    (k.tell v xs).Has w f d ↔ k.Has w f d ∨ (w = v ∧ ∃ x ∈ xs, d = x.cause ∧ f = x.event) := by
  rw [tell, has_foldl (fun _ => v) DeltaEntry.event DeltaEntry.cause]
  simp only [and_left_comm (b := w = v), exists_and_left]

theorem tell_append (k : Sink) (v : Var) (xs ys : List DeltaEntry) :
    k.tell v (xs ++ ys) = (k.tell v xs).tell v ys := List.foldl_append

end Sink

end Propagation
