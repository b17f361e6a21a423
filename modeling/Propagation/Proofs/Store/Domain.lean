import Mathlib.Data.Finset.Basic
import Propagation.Store.Narrowing

/-!
# Domains as sets, and what narrowings do to them

A `Dom` is the domain of a variable as a value: the integers that are left, or the kernel and the
envelope of a set or of a graph. `Dom.after n` is the domain after the narrowing `n`, or nothing if
none would be left.

A domain lies `Within` another if it allows no more. Narrowing is monotone in this order: a domain
that lies within another and obeys a narrowing still lies within the other after it
(`Dom.after_within`). So a scene that obeys all narrowings of a propagation, be it of a solution or
of a fixpoint, is still within the domains at the end.
-/

set_option autoImplicit false

namespace Propagation

namespace Element

/-- The element with those that it needs: an arc needs both its ends. -/
def closure : Element → Finset Element
  | .value a => {.value a}
  | .node i => {.node i}
  | .arc i j => {.arc i j, .node i, .node j}

/-- The values below `n`. -/
def OfSet (n : Nat) : Element → Prop
  | .value a => a < n
  | _ => False

/-- The nodes below `n` and the arcs between them. -/
def OfGraph (n : Nat) : Element → Prop
  | .node i => i < n
  | .arc i j => i < n ∧ j < n
  | .value _ => False

@[simp] theorem mem_closure_self (e : Element) : e ∈ e.closure := by
  cases e <;> simp [closure]

/-- The closure of an element is closed. -/
theorem closure_subset {e f : Element} (h : f ∈ e.closure) : f.closure ⊆ e.closure := by
  cases e with
  | value a => rw [closure, Finset.mem_singleton] at h; rw [h]
  | node i => rw [closure, Finset.mem_singleton] at h; rw [h]
  | arc i j =>
    simp only [closure, Finset.mem_insert, Finset.mem_singleton] at h
    rcases h with rfl | rfl | rfl <;> simp [closure]

end Element

/-! ## Kernels and envelopes -/

/-- The elements that are required (`kernel`) and those that are possible (`envelope`). -/
structure Bounds where
  kernel : Finset Element
  envelope : Finset Element
deriving DecidableEq

namespace Bounds

/-- The kernel lies within the envelope, both are closed, and all elements satisfy `ground`. -/
structure Wf (b : Bounds) (ground : Element → Prop) : Prop where
  kernel_subset : b.kernel ⊆ b.envelope
  ground : ∀ e ∈ b.envelope, ground e
  kernel_closed : ∀ e ∈ b.kernel, e.closure ⊆ b.kernel
  envelope_closed : ∀ e ∈ b.envelope, e.closure ⊆ b.envelope

/-- `b'` allows no more than `b`. -/
structure Within (b' b : Bounds) : Prop where
  kernel_subset : b.kernel ⊆ b'.kernel
  envelope_subset : b'.envelope ⊆ b.envelope

/-- The bounds with the closure of `e` in the kernel, if `e` is possible. -/
def enforce (b : Bounds) (e : Element) : Option Bounds :=
  if e ∈ b.envelope then some { b with kernel := b.kernel ∪ e.closure } else none

/-- The bounds without the elements that need `e`, if `e` is not required. -/
def remove (b : Bounds) (e : Element) : Option Bounds :=
  if e ∈ b.kernel then none
  else some { b with envelope := b.envelope.filter fun f => e ∉ f.closure }

variable {b b' c : Bounds} {ground : Element → Prop} {e : Element}

theorem Within.refl (b : Bounds) : b.Within b := ⟨Finset.Subset.refl _, Finset.Subset.refl _⟩

theorem Within.trans (h : c.Within b') (h' : b'.Within b) : c.Within b :=
  ⟨h'.kernel_subset.trans h.kernel_subset, h.envelope_subset.trans h'.envelope_subset⟩

theorem Within.antisymm (h : b'.Within b) (h' : b.Within b') : b' = b := by
  cases b
  cases b'
  rw [Bounds.mk.injEq]
  exact ⟨Finset.Subset.antisymm h'.kernel_subset h.kernel_subset,
    Finset.Subset.antisymm h.envelope_subset h'.envelope_subset⟩

theorem enforce_wf (hb : b.Wf ground) (h : b.enforce e = some b') :
    b'.Wf ground ∧ b'.Within b := by
  rw [enforce] at h
  split at h
  · next he =>
    cases h
    refine ⟨⟨?_, hb.ground, fun f hf => ?_, hb.envelope_closed⟩,
      ⟨Finset.subset_union_left, Finset.Subset.refl _⟩⟩
    · exact Finset.union_subset hb.kernel_subset (hb.envelope_closed e he)
    · rcases Finset.mem_union.1 hf with hf | hf
      · exact (hb.kernel_closed f hf).trans Finset.subset_union_left
      · exact (Element.closure_subset hf).trans Finset.subset_union_right
  · cases h

theorem remove_wf (hb : b.Wf ground) (h : b.remove e = some b') :
    b'.Wf ground ∧ b'.Within b := by
  rw [remove] at h
  split at h
  · cases h
  · next he =>
    cases h
    refine ⟨⟨fun f hf => ?_, fun f hf => hb.ground f (Finset.mem_filter.1 hf).1,
      hb.kernel_closed, fun f hf g hg => ?_⟩,
      ⟨Finset.Subset.refl _, Finset.filter_subset _ _⟩⟩
    · exact Finset.mem_filter.2 ⟨hb.kernel_subset hf, fun hef => he (hb.kernel_closed f hf hef)⟩
    · obtain ⟨hf, hef⟩ := Finset.mem_filter.1 hf
      exact Finset.mem_filter.2 ⟨hb.envelope_closed f hf hg,
        fun heg => hef (Element.closure_subset hg heg)⟩

/-- Enforcing an element of the kernel changes nothing. -/
theorem enforce_eq_self (hb : b.Wf ground) (he : e ∈ b.kernel) : b.enforce e = some b := by
  rw [enforce, if_pos (hb.kernel_subset he),
    Finset.union_eq_left.2 (hb.kernel_closed e he)]

/-- Removing an element out of the envelope changes nothing. -/
theorem remove_eq_self (hb : b.Wf ground) (he : e ∉ b.envelope) : b.remove e = some b := by
  rw [remove, if_neg fun hk => he (hb.kernel_subset hk), Finset.filter_true_of_mem]
  exact fun f hf hef => he (hb.envelope_closed f hf hef)

theorem mem_of_enforce_self (h : b.enforce e = some b) : e ∈ b.kernel := by
  rw [enforce] at h
  split at h
  · have hk : b.kernel ∪ e.closure = b.kernel := congrArg Bounds.kernel (Option.some.inj h)
    rw [← hk]
    exact Finset.mem_union_right _ (Element.mem_closure_self e)
  · cases h

/-- A removed element is out of the envelope. -/
theorem notMem_of_remove (h : b.remove e = some b') : e ∉ b'.envelope := by
  rw [remove] at h
  split at h
  · cases h
  · cases h
    exact fun he => (Finset.mem_filter.1 he).2 (Element.mem_closure_self e)

theorem enforce_within (hc : c.Wf ground) (hle : c.Within b) (he : e ∈ c.kernel) :
    ∃ b', b.enforce e = some b' ∧ c.Within b' := by
  rw [enforce, if_pos (hle.envelope_subset (hc.kernel_subset he))]
  exact ⟨_, rfl, Finset.union_subset hle.kernel_subset (hc.kernel_closed e he),
    hle.envelope_subset⟩

theorem remove_within (hc : c.Wf ground) (hle : c.Within b) (he : e ∉ c.envelope) :
    ∃ b', b.remove e = some b' ∧ c.Within b' := by
  rw [remove, if_neg fun hk => he (hc.kernel_subset (hle.kernel_subset hk))]
  refine ⟨_, rfl, hle.kernel_subset, fun f hf => Finset.mem_filter.2 ⟨hle.envelope_subset hf, ?_⟩⟩
  exact fun hef => he (hc.envelope_closed f hf hef)

end Bounds

/-! ## Domains -/

/-- The domain of a variable. A set has values below `n`, a graph has nodes below `n`. -/
inductive Dom
  | int (values : Finset Int)
  | set (n : Nat) (bounds : Bounds)
  | graph (n : Nat) (bounds : Bounds)
deriving DecidableEq

namespace Dom

/-- The elements that can be in the envelope of such a domain. -/
def Ground : Dom → Element → Prop
  | .int _ => fun _ => False
  | .set n _ => Element.OfSet n
  | .graph n _ => Element.OfGraph n

def kernel : Dom → Finset Element
  | .int _ => ∅
  | .set _ b => b.kernel
  | .graph _ b => b.kernel

def envelope : Dom → Finset Element
  | .int _ => ∅
  | .set _ b => b.envelope
  | .graph _ b => b.envelope

/-- At least one integer is left, or the bounds are well formed. -/
def Wf : Dom → Prop
  | .int vs => vs.Nonempty
  | .set n b => b.Wf (Element.OfSet n)
  | .graph n b => b.Wf (Element.OfGraph n)

/-- The first domain allows no more than the second. -/
def Within : Dom → Dom → Prop
  | .int vs', .int vs => vs' ⊆ vs
  | .set n' b', .set n b => n' = n ∧ b'.Within b
  | .graph n' b', .graph n b => n' = n ∧ b'.Within b
  | _, _ => False

/-- The integers that satisfy `p`, if there are any. -/
def keep (D : Dom) (p : Int → Prop) [DecidablePred p] : Option Dom :=
  match D with
  | .int vs => if (vs.filter p).Nonempty then some (.int (vs.filter p)) else none
  | _ => none

def enforce : Dom → Element → Option Dom
  | .int _, _ => none
  | .set n b, e => (b.enforce e).map (.set n)
  | .graph n b, e => (b.enforce e).map (.graph n)

def remove : Dom → Element → Option Dom
  | .int _, _ => none
  | .set n b, e => (b.remove e).map (.set n)
  | .graph n b, e => (b.remove e).map (.graph n)

/-- The domain after a narrowing, or `none` if no value would be left. -/
def after (D : Dom) : Narrowing → Option Dom
  | .fix a => D.keep (· = a)
  | .remove a => D.keep (· ≠ a)
  | .removeBelow a => D.keep (a ≤ ·)
  | .removeAbove a => D.keep (· ≤ a)
  | .addToKernel a => D.enforce (.value a)
  | .removeFromEnvelope a => D.remove (.value a)
  | .enforceNode i => D.enforce (.node i)
  | .removeNode i => D.remove (.node i)
  | .enforceArc i j => D.enforce (.arc i j)
  | .removeArc i j => D.remove (.arc i j)

/-- The narrowing is one of domains of this kind, and of an element of its ground set. -/
def Accepts : Dom → Narrowing → Prop
  | .int _, .fix _ => True
  | .int _, .remove _ => True
  | .int _, .removeBelow _ => True
  | .int _, .removeAbove _ => True
  | .set n _, .addToKernel a => a < n
  | .set n _, .removeFromEnvelope a => a < n
  | .graph n _, .enforceNode i => i < n
  | .graph n _, .removeNode i => i < n
  | .graph n _, .enforceArc i j => i < n ∧ j < n
  | .graph n _, .removeArc i j => i < n ∧ j < n
  | _, _ => False

/-- The narrowing `n` changes nothing. -/
def Obeys (D : Dom) (n : Narrowing) : Prop := D.after n = some D

/-! ## The order -/

theorem Within.refl (D : Dom) : D.Within D := by
  cases D with
  | int vs => exact Finset.Subset.refl vs
  | set n b => exact ⟨rfl, .refl b⟩
  | graph n b => exact ⟨rfl, .refl b⟩

theorem Within.trans {C D E : Dom} (h : C.Within D) (h' : D.Within E) : C.Within E := by
  cases C <;> cases D <;> cases E <;> simp only [Within] at h h' ⊢
  · exact h.trans h'
  · exact ⟨h.1.trans h'.1, h.2.trans h'.2⟩
  · exact ⟨h.1.trans h'.1, h.2.trans h'.2⟩

theorem Within.antisymm {C D : Dom} (h : C.Within D) (h' : D.Within C) : C = D := by
  cases C <;> cases D <;> simp only [Within] at h h'
  · rw [Finset.Subset.antisymm h h']
  · rw [h.1, h.2.antisymm h'.2]
  · rw [h.1, h.2.antisymm h'.2]

theorem Within.kernel {C D : Dom} (h : C.Within D) : D.kernel ⊆ C.kernel := by
  cases C <;> cases D <;> simp only [Within] at h
  · exact Finset.Subset.refl _
  · exact h.2.kernel_subset
  · exact h.2.kernel_subset

theorem Within.envelope {C D : Dom} (h : C.Within D) : C.envelope ⊆ D.envelope := by
  cases C <;> cases D <;> simp only [Within] at h
  · exact Finset.Subset.refl _
  · exact h.2.envelope_subset
  · exact h.2.envelope_subset

theorem Within.ground {C D : Dom} (h : C.Within D) (e : Element) : C.Ground e ↔ D.Ground e := by
  cases C <;> cases D <;> simp only [Within] at h
  · exact Iff.rfl
  · rw [h.1]; exact Iff.rfl
  · rw [h.1]; exact Iff.rfl

theorem Within.accepts {C D : Dom} (h : C.Within D) (n : Narrowing) :
    C.Accepts n ↔ D.Accepts n := by
  cases C <;> cases D <;> simp only [Within] at h
  · cases n <;> exact Iff.rfl
  · rw [h.1]; cases n <;> exact Iff.rfl
  · rw [h.1]; cases n <;> exact Iff.rfl

/-! ## Narrowing -/

section
variable {C D E : Dom} {n : Narrowing} {e : Element}

theorem keep_wf {p : Int → Prop} [DecidablePred p] (h : D.keep p = some E) :
    E.Wf ∧ E.Within D := by
  cases D with
  | int vs =>
    rw [keep] at h
    split at h
    · next hne =>
      cases h
      exact ⟨hne, Finset.filter_subset _ _⟩
    · cases h
  | set n b => cases h
  | graph n b => cases h

theorem enforce_wf (hD : D.Wf) (h : D.enforce e = some E) : E.Wf ∧ E.Within D := by
  cases D with
  | int vs => cases h
  | set n b =>
    obtain ⟨b', hb, rfl⟩ := Option.map_eq_some_iff.1 h
    obtain ⟨h1, h2⟩ := Bounds.enforce_wf hD hb
    exact ⟨h1, rfl, h2⟩
  | graph n b =>
    obtain ⟨b', hb, rfl⟩ := Option.map_eq_some_iff.1 h
    obtain ⟨h1, h2⟩ := Bounds.enforce_wf hD hb
    exact ⟨h1, rfl, h2⟩

theorem remove_wf (hD : D.Wf) (h : D.remove e = some E) : E.Wf ∧ E.Within D := by
  cases D with
  | int vs => cases h
  | set n b =>
    obtain ⟨b', hb, rfl⟩ := Option.map_eq_some_iff.1 h
    obtain ⟨h1, h2⟩ := Bounds.remove_wf hD hb
    exact ⟨h1, rfl, h2⟩
  | graph n b =>
    obtain ⟨b', hb, rfl⟩ := Option.map_eq_some_iff.1 h
    obtain ⟨h1, h2⟩ := Bounds.remove_wf hD hb
    exact ⟨h1, rfl, h2⟩

/-- A narrowing leaves a well-formed domain within the one before. -/
theorem after_wf (hD : D.Wf) (h : D.after n = some E) : E.Wf ∧ E.Within D := by
  cases n with
  | fix a => exact keep_wf h
  | remove a => exact keep_wf h
  | removeBelow a => exact keep_wf h
  | removeAbove a => exact keep_wf h
  | addToKernel a => exact enforce_wf hD h
  | removeFromEnvelope a => exact remove_wf hD h
  | enforceNode i => exact enforce_wf hD h
  | removeNode i => exact remove_wf hD h
  | enforceArc i j => exact enforce_wf hD h
  | removeArc i j => exact remove_wf hD h

theorem keep_within {p : Int → Prop} [DecidablePred p] (hC : C.Wf) (hle : C.Within D)
    (ho : C.keep p = some C) : ∃ E, D.keep p = some E ∧ C.Within E := by
  cases C with
  | int vs =>
    cases D with
    | int ws =>
      rw [keep] at ho
      split at ho
      · have hvs : vs.filter p = vs := Dom.int.inj (Option.some.inj ho)
        have hsub : vs ⊆ ws.filter p := by
          rw [← hvs]
          exact Finset.filter_subset_filter p hle
        rw [keep, if_pos (hC.mono hsub)]
        exact ⟨_, rfl, hsub⟩
      · cases ho
    | set n b => exact hle.elim
    | graph n b => exact hle.elim
  | set n b => cases ho
  | graph n b => cases ho

theorem enforce_within (hC : C.Wf) (hle : C.Within D) (ho : C.enforce e = some C) :
    ∃ E, D.enforce e = some E ∧ C.Within E := by
  cases C with
  | int vs => cases ho
  | set m b =>
    cases D with
    | int vs => exact hle.elim
    | graph n b' => exact hle.elim
    | set n b' =>
      obtain ⟨b'', hb, he⟩ := Option.map_eq_some_iff.1 ho
      cases he
      obtain ⟨c, hc, hcle⟩ := Bounds.enforce_within hC hle.2 (Bounds.mem_of_enforce_self hb)
      exact ⟨.set n c, by rw [enforce, hc]; rfl, hle.1, hcle⟩
  | graph m b =>
    cases D with
    | int vs => exact hle.elim
    | set n b' => exact hle.elim
    | graph n b' =>
      obtain ⟨b'', hb, he⟩ := Option.map_eq_some_iff.1 ho
      cases he
      obtain ⟨c, hc, hcle⟩ := Bounds.enforce_within hC hle.2 (Bounds.mem_of_enforce_self hb)
      exact ⟨.graph n c, by rw [enforce, hc]; rfl, hle.1, hcle⟩

theorem remove_within (hC : C.Wf) (hle : C.Within D) (ho : C.remove e = some C) :
    ∃ E, D.remove e = some E ∧ C.Within E := by
  cases C with
  | int vs => cases ho
  | set m b =>
    cases D with
    | int vs => exact hle.elim
    | graph n b' => exact hle.elim
    | set n b' =>
      obtain ⟨b'', hb, he⟩ := Option.map_eq_some_iff.1 ho
      cases he
      obtain ⟨c, hc, hcle⟩ := Bounds.remove_within hC hle.2 (Bounds.notMem_of_remove hb)
      exact ⟨.set n c, by rw [remove, hc]; rfl, hle.1, hcle⟩
  | graph m b =>
    cases D with
    | int vs => exact hle.elim
    | set n b' => exact hle.elim
    | graph n b' =>
      obtain ⟨b'', hb, he⟩ := Option.map_eq_some_iff.1 ho
      cases he
      obtain ⟨c, hc, hcle⟩ := Bounds.remove_within hC hle.2 (Bounds.notMem_of_remove hb)
      exact ⟨.graph n c, by rw [remove, hc]; rfl, hle.1, hcle⟩

/-- Narrowing is monotone: a domain within `D` that obeys `n` is within `D` after `n`. -/
theorem after_within (hC : C.Wf) (hle : C.Within D) (ho : C.Obeys n) :
    ∃ E, D.after n = some E ∧ C.Within E := by
  cases n with
  | fix a => exact keep_within hC hle ho
  | remove a => exact keep_within hC hle ho
  | removeBelow a => exact keep_within hC hle ho
  | removeAbove a => exact keep_within hC hle ho
  | addToKernel a => exact enforce_within hC hle ho
  | removeFromEnvelope a => exact remove_within hC hle ho
  | enforceNode i => exact enforce_within hC hle ho
  | removeNode i => exact remove_within hC hle ho
  | enforceArc i j => exact enforce_within hC hle ho
  | removeArc i j => exact remove_within hC hle ho

theorem enforce_self (hD : D.Wf) (he : e ∈ D.kernel) : D.enforce e = some D := by
  cases D with
  | int vs => cases he
  | set n b => exact congrArg (Option.map (Dom.set n)) (Bounds.enforce_eq_self hD he)
  | graph n b => exact congrArg (Option.map (Dom.graph n)) (Bounds.enforce_eq_self hD he)

theorem kernel_enforce (h : D.enforce e = some E) : e ∈ E.kernel := by
  cases D with
  | int vs => cases h
  | set n b =>
    obtain ⟨b', hb, rfl⟩ := Option.map_eq_some_iff.1 h
    rw [Bounds.enforce] at hb
    split at hb
    · cases hb
      exact Finset.mem_union_right _ (Element.mem_closure_self e)
    · cases hb
  | graph n b =>
    obtain ⟨b', hb, rfl⟩ := Option.map_eq_some_iff.1 h
    rw [Bounds.enforce] at hb
    split at hb
    · cases hb
      exact Finset.mem_union_right _ (Element.mem_closure_self e)
    · cases hb

theorem keep_obeyed {p : Int → Prop} [DecidablePred p] (h : D.keep p = some E) (hC : C.Wf)
    (hle : C.Within E) : C.keep p = some C := by
  cases D with
  | int vs =>
    rw [keep] at h
    split at h
    · cases h
      cases C with
      | int ws =>
        have hall : ws.filter p = ws :=
          Finset.filter_true_of_mem fun a ha => (Finset.mem_filter.1 (hle ha)).2
        rw [keep, hall]
        exact if_pos hC
      | set n b => exact hle.elim
      | graph n b => exact hle.elim
    · cases h
  | set n b => cases h
  | graph n b => cases h

theorem remove_obeyed (h : D.remove e = some E) (hC : C.Wf) (hle : C.Within E) :
    C.remove e = some C := by
  cases D with
  | int vs => cases h
  | set n b =>
    obtain ⟨b', hb, rfl⟩ := Option.map_eq_some_iff.1 h
    cases C with
    | set m c =>
      have he : e ∉ c.envelope := fun he =>
        Bounds.notMem_of_remove hb (hle.2.envelope_subset he)
      exact congrArg (Option.map (Dom.set m)) (Bounds.remove_eq_self hC he)
    | int vs => exact hle.elim
    | graph m c => exact hle.elim
  | graph n b =>
    obtain ⟨b', hb, rfl⟩ := Option.map_eq_some_iff.1 h
    cases C with
    | graph m c =>
      have he : e ∉ c.envelope := fun he =>
        Bounds.notMem_of_remove hb (hle.2.envelope_subset he)
      exact congrArg (Option.map (Dom.graph m)) (Bounds.remove_eq_self hC he)
    | int vs => exact hle.elim
    | set m c => exact hle.elim

/-- A domain within `D` after `n` obeys `n`. -/
theorem obeys_of_after (h : D.after n = some E) (hC : C.Wf) (hle : C.Within E) : C.Obeys n := by
  cases n with
  | fix a => exact keep_obeyed h hC hle
  | remove a => exact keep_obeyed h hC hle
  | removeBelow a => exact keep_obeyed h hC hle
  | removeAbove a => exact keep_obeyed h hC hle
  | addToKernel a => exact enforce_self hC (hle.kernel (kernel_enforce h))
  | removeFromEnvelope a => exact remove_obeyed h hC hle
  | enforceNode i => exact enforce_self hC (hle.kernel (kernel_enforce h))
  | removeNode i => exact remove_obeyed h hC hle
  | enforceArc i j => exact enforce_self hC (hle.kernel (kernel_enforce h))
  | removeArc i j => exact remove_obeyed h hC hle

end

/-! ### Other bounds -/

/-- The domain with other bounds. -/
def withBounds : Dom → Bounds → Dom
  | .int vs, _ => .int vs
  | .set n _, b => .set n b
  | .graph n _, b => .graph n b

@[simp] theorem withBounds_withBounds (D : Dom) (b b' : Bounds) :
    (D.withBounds b).withBounds b' = D.withBounds b' := by cases D <;> rfl

@[simp] theorem withBounds_self (D : Dom) : D.withBounds ⟨D.kernel, D.envelope⟩ = D := by
  cases D <;> rfl

theorem ground_withBounds (D : Dom) (b : Bounds) : (D.withBounds b).Ground = D.Ground := by
  cases D <;> rfl

variable {D : Dom} {e : Element}

theorem Wf.kernel_subset (h : D.Wf) : D.kernel ⊆ D.envelope := by
  cases D with
  | int vs => exact Finset.Subset.refl _
  | set n b => exact Bounds.Wf.kernel_subset h
  | graph n b => exact Bounds.Wf.kernel_subset h

theorem Wf.ground (h : D.Wf) (he : e ∈ D.envelope) : D.Ground e := by
  cases D with
  | int vs => cases he
  | set n b => exact Bounds.Wf.ground h e he
  | graph n b => exact Bounds.Wf.ground h e he

theorem Wf.kernel_closed (h : D.Wf) (he : e ∈ D.kernel) : e.closure ⊆ D.kernel := by
  cases D with
  | int vs => cases he
  | set n b => exact Bounds.Wf.kernel_closed h e he
  | graph n b => exact Bounds.Wf.kernel_closed h e he

theorem Wf.envelope_closed (h : D.Wf) (he : e ∈ D.envelope) : e.closure ⊆ D.envelope := by
  cases D with
  | int vs => cases he
  | set n b => exact Bounds.Wf.envelope_closed h e he
  | graph n b => exact Bounds.Wf.envelope_closed h e he

section
variable (hD : ∀ vs, D ≠ .int vs)
include hD

theorem kernel_withBounds (b : Bounds) : (D.withBounds b).kernel = b.kernel := by
  cases D with
  | int vs => exact absurd rfl (hD vs)
  | set n c => rfl
  | graph n c => rfl

theorem envelope_withBounds (b : Bounds) : (D.withBounds b).envelope = b.envelope := by
  cases D with
  | int vs => exact absurd rfl (hD vs)
  | set n c => rfl
  | graph n c => rfl

theorem withBounds_wf {b : Bounds} (h : b.Wf D.Ground) : (D.withBounds b).Wf := by
  cases D with
  | int vs => exact absurd rfl (hD vs)
  | set n c => exact h
  | graph n c => exact h

theorem withBounds_within {b : Bounds} (hk : D.kernel ⊆ b.kernel)
    (he : b.envelope ⊆ D.envelope) : (D.withBounds b).Within D := by
  cases D with
  | int vs => exact absurd rfl (hD vs)
  | set n c => exact ⟨rfl, hk, he⟩
  | graph n c => exact ⟨rfl, hk, he⟩

theorem enforce_eq (he : e ∈ D.envelope) :
    D.enforce e = some (D.withBounds ⟨D.kernel ∪ e.closure, D.envelope⟩) := by
  cases D with
  | int vs => exact absurd rfl (hD vs)
  | set n b => exact congrArg (Option.map (Dom.set n)) (if_pos he)
  | graph n b => exact congrArg (Option.map (Dom.graph n)) (if_pos he)

theorem enforce_eq_none (he : e ∉ D.envelope) : D.enforce e = none := by
  cases D with
  | int vs => exact absurd rfl (hD vs)
  | set n b => exact congrArg (Option.map (Dom.set n)) (if_neg he)
  | graph n b => exact congrArg (Option.map (Dom.graph n)) (if_neg he)

theorem remove_eq (he : e ∉ D.kernel) : D.remove e =
    some (D.withBounds ⟨D.kernel, D.envelope.filter fun f => e ∉ f.closure⟩) := by
  cases D with
  | int vs => exact absurd rfl (hD vs)
  | set n b => exact congrArg (Option.map (Dom.set n)) (if_neg he)
  | graph n b => exact congrArg (Option.map (Dom.graph n)) (if_neg he)

theorem remove_eq_none (he : e ∈ D.kernel) : D.remove e = none := by
  cases D with
  | int vs => exact absurd rfl (hD vs)
  | set n b => exact congrArg (Option.map (Dom.set n)) (if_pos he)
  | graph n b => exact congrArg (Option.map (Dom.graph n)) (if_pos he)

theorem remove_self (hwf : D.Wf) (he : e ∉ D.envelope) : D.remove e = some D := by
  have hf : D.envelope.filter (fun f => e ∉ f.closure) = D.envelope :=
    Finset.filter_true_of_mem fun f hf h => he (hwf.envelope_closed hf h)
  rw [remove_eq hD fun hk => he (hwf.kernel_subset hk), hf, withBounds_self]

end

/-- Enforcing an element out of the kernel changes the domain. -/
theorem enforce_ne (he : e ∉ D.kernel) {E : Dom} (h : D.enforce e = some E) : E ≠ D := by
  rintro rfl
  exact he (kernel_enforce h)

end Dom

end Propagation
