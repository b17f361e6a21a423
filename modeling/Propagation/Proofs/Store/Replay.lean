import Propagation.Proofs.Store.Scene

/-!
# Replaying a log

An entry of a log says that one element, undecided until then, has entered the kernel or left the
envelope (`Dom.Change`). A list of entries is replayed on a domain by making these changes one
after the other, with a well-formed domain after each (`Dom.Replays`). So it has exactly one entry
for each element on which the first and the last domain differ (`Replays.kernel`,
`Replays.envelope`, `Replays.nodup`). An element comes after what it needs when it is enforced, and
after what needs it when it is removed (`Replays.enforced_last`, `Replays.removed_last`).
-/

set_option autoImplicit false

namespace Propagation

/-! ## Entries -/

namespace Element

/-- The event of an element that enters the kernel. -/
def entering : Element → Event
  | .value _ => .addToKernel
  | .node _ => .enforceNode
  | .arc _ _ => .enforceArc

/-- The event of an element that leaves the envelope. -/
def leaving : Element → Event
  | .value _ => .removeFromEnvelope
  | .node _ => .removeNode
  | .arc _ _ => .removeArc

@[simp] theorem event_enforced (c : Cause) (x : Element) : (x.enforced c).event = x.entering := by
  cases x <;> rfl

@[simp] theorem event_removed (c : Cause) (x : Element) : (x.removed c).event = x.leaving := by
  cases x <;> rfl

@[simp] theorem cause_enforced (c : Cause) (x : Element) : (x.enforced c).cause = c := by
  cases x <;> rfl

@[simp] theorem cause_removed (c : Cause) (x : Element) : (x.removed c).cause = c := by
  cases x <;> rfl

theorem enforced_inj {c : Cause} {x y : Element} (h : x.enforced c = y.enforced c) : x = y := by
  cases x <;> cases y <;> simp_all [enforced]

theorem removed_inj {c : Cause} {x y : Element} (h : x.removed c = y.removed c) : x = y := by
  cases x <;> cases y <;> simp_all [removed]

theorem enforced_ne_removed (c d : Cause) (x y : Element) : x.enforced c ≠ y.removed d := by
  cases x <;> cases y <;> simp [enforced, removed]

end Element

/-- The entry without its cause. -/
def DeltaEntry.change (x : DeltaEntry) : Event × Nat × Nat := (x.event, x.first, x.second)

namespace Element

theorem enforced_of_change {c d : Cause} {x y : Element}
    (h : (x.enforced c).change = (y.enforced d).change) : x = y := by
  cases x <;> cases y <;> simp_all [enforced, DeltaEntry.change]

theorem removed_of_change {c d : Cause} {x y : Element}
    (h : (x.removed c).change = (y.removed d).change) : x = y := by
  cases x <;> cases y <;> simp_all [removed, DeltaEntry.change]

theorem change_ne (c d : Cause) (x y : Element) :
    (x.enforced c).change ≠ (y.removed d).change := by
  cases x <;> cases y <;> simp [enforced, removed, DeltaEntry.change]

end Element

/-! ## Replaying -/

namespace Dom

/-- The change of the entry, made where its element is undecided. -/
inductive Change (D : Dom) : DeltaEntry → Dom → Prop
  | enters {e : Element} (c : Cause) (he : e ∈ D.envelope) (hk : e ∉ D.kernel) :
    Change D (e.enforced c) (D.withBounds ⟨insert e D.kernel, D.envelope⟩)
  | leaves {e : Element} (c : Cause) (he : e ∈ D.envelope) (hk : e ∉ D.kernel) :
    Change D (e.removed c) (D.withBounds ⟨D.kernel, D.envelope.erase e⟩)

/-- The changes of the entries, made one after the other, lead from the first domain to the last
one. Each leaves a well-formed domain. -/
inductive Replays : Dom → List DeltaEntry → Dom → Prop
  | done (D : Dom) : Replays D [] D
  | step {D D₁ D' : Dom} {x : DeltaEntry} {xs : List DeltaEntry} (hx : D.Change x D₁)
    (hwf : D₁.Wf) (hxs : Replays D₁ xs D') : Replays D (x :: xs) D'

variable {D D' D'' : Dom} {x : DeltaEntry} {xs ys : List DeltaEntry} {e : Element}

theorem ne_int_of_mem_envelope (he : e ∈ D.envelope) (vs : Finset Int) : D ≠ .int vs := by
  rintro rfl
  cases he

theorem Change.ne_int (h : D.Change x D') : ∀ vs, D ≠ .int vs := by
  cases h with
  | enters c he hk => exact ne_int_of_mem_envelope he
  | leaves c he hk => exact ne_int_of_mem_envelope he

theorem Change.within (h : D.Change x D') : D'.Within D := by
  cases h with
  | enters c he hk =>
    exact withBounds_within (ne_int_of_mem_envelope he) (Finset.subset_insert _ _)
      (Finset.Subset.refl _)
  | leaves c he hk =>
    exact withBounds_within (ne_int_of_mem_envelope he) (Finset.Subset.refl _)
      (Finset.erase_subset _ _)

/-- The inversion of `Change`: its element was undecided, and has entered the kernel or left the
envelope. -/
theorem Change.undecided (h : D.Change x D') :
    ∃ e ∈ D.envelope, e ∉ D.kernel ∧
      (((∃ c, x = e.enforced c) ∧ D'.kernel = insert e D.kernel ∧ D'.envelope = D.envelope) ∨
        ((∃ c, x = e.removed c) ∧ D'.kernel = D.kernel ∧ D'.envelope = D.envelope.erase e)) := by
  cases h with
  | @enters e c he hk =>
    have hD := ne_int_of_mem_envelope he
    exact ⟨e, he, hk, .inl ⟨⟨c, rfl⟩, kernel_withBounds hD _, envelope_withBounds hD _⟩⟩
  | @leaves e c he hk =>
    have hD := ne_int_of_mem_envelope he
    exact ⟨e, he, hk, .inr ⟨⟨c, rfl⟩, kernel_withBounds hD _, envelope_withBounds hD _⟩⟩

theorem Change.of_enforced {c : Cause} (h : D.Change (e.enforced c) D') :
    D'.kernel = insert e D.kernel := by
  obtain ⟨f, -, -, ⟨⟨d, hd⟩, hkernel, -⟩ | ⟨⟨d, hd⟩, -⟩⟩ := h.undecided
  · rw [hkernel, Element.enforced_of_change (congrArg DeltaEntry.change hd)]
  · exact absurd hd (Element.enforced_ne_removed _ _ _ _)

theorem Change.of_removed {c : Cause} (h : D.Change (e.removed c) D') :
    D'.envelope = D.envelope.erase e := by
  obtain ⟨f, -, -, ⟨⟨d, hd⟩, -⟩ | ⟨⟨d, hd⟩, -, henvelope⟩⟩ := h.undecided
  · exact absurd hd.symm (Element.enforced_ne_removed _ _ _ _)
  · rw [henvelope, Element.removed_of_change (congrArg DeltaEntry.change hd)]

theorem Change.replays (h : D.Change x D') (hwf : D'.Wf) : D.Replays [x] D' :=
  .step h hwf (.done D')

theorem Replays.append (h : D.Replays xs D') (h' : D'.Replays ys D'') :
    D.Replays (xs ++ ys) D'' := by
  induction h with
  | done => exact h'
  | step hx hwf _ ih => exact .step hx hwf (ih h')

theorem Replays.within (h : D.Replays xs D') : D'.Within D := by
  induction h with
  | done => exact .refl _
  | step hx _ _ ih => exact ih.trans hx.within

/-! ## What a log that can be replayed contains -/

/-- Each entry of a replay is for an element that is undecided at its start. -/
theorem Replays.undecided (h : D.Replays xs D') (hx : x ∈ xs) :
    ∃ e ∈ D.envelope, e ∉ D.kernel ∧ ((∃ c, x = e.enforced c) ∨ ∃ c, x = e.removed c) := by
  induction h with
  | done => cases hx
  | step hy _ _ ih =>
    rcases List.mem_cons.1 hx with rfl | hx
    · obtain ⟨e, he, hk, h⟩ := hy.undecided
      exact ⟨e, he, hk, h.imp And.left And.left⟩
    · obtain ⟨e, he, hk, h⟩ := ih hx
      exact ⟨e, hy.within.envelope he, fun h => hk (hy.within.kernel h), h⟩

/-- No element has two entries. -/
theorem Replays.nodup (h : D.Replays xs D') : (xs.map DeltaEntry.change).Nodup := by
  induction h with
  | done => exact List.nodup_nil
  | @step D D₁ D' x xs hx _ hxs ih =>
    refine List.nodup_cons.2 ⟨fun hmem => ?_, ih⟩
    obtain ⟨y, hy, hyx⟩ := List.mem_map.1 hmem
    obtain ⟨f, hf, hfk, hyf⟩ := hxs.undecided hy
    obtain ⟨e, he, hk, ⟨⟨c, rfl⟩, hkernel, -⟩ | ⟨⟨c, rfl⟩, -, henvelope⟩⟩ := hx.undecided
    · rcases hyf with ⟨d, rfl⟩ | ⟨d, rfl⟩
      · cases Element.enforced_of_change hyx
        exact hfk (hkernel ▸ Finset.mem_insert_self _ _)
      · exact Element.change_ne _ _ _ _ hyx.symm
    · rcases hyf with ⟨d, rfl⟩ | ⟨d, rfl⟩
      · exact Element.change_ne _ _ _ _ hyx
      · cases Element.removed_of_change hyx
        exact Finset.notMem_erase _ _ (henvelope ▸ hf)

/-- The elements that have entered the kernel are those with an enforcing entry. -/
theorem Replays.kernel (h : D.Replays xs D') (e : Element) :
    e ∈ D'.kernel \ D.kernel ↔ ∃ c, e.enforced c ∈ xs := by
  induction h with
  | done => simp
  | @step D D₁ D' x xs hx _ hxs ih =>
    have hsub := hxs.within.kernel
    simp only [Finset.mem_sdiff, List.mem_cons, exists_or] at ih ⊢
    obtain ⟨f, hf, hk, ⟨⟨c, rfl⟩, hkernel, -⟩ | ⟨⟨c, rfl⟩, hkernel, -⟩⟩ := hx.undecided
    · rw [← ih, hkernel, Finset.mem_insert]
      have hhead : (∃ d, e.enforced d = f.enforced c) ↔ e = f := by
        refine ⟨?_, fun h => ⟨c, h ▸ rfl⟩⟩
        rintro ⟨d, h⟩
        exact Element.enforced_of_change (congrArg DeltaEntry.change h)
      rw [hhead]
      by_cases hef : e = f
      · subst hef
        have hin : e ∈ D'.kernel := hsub (hkernel ▸ Finset.mem_insert_self _ _)
        simp [hin, hk]
      · simp [hef]
    · have hhead : ¬∃ d, e.enforced d = f.removed c := by
        rintro ⟨d, h⟩
        exact Element.enforced_ne_removed _ _ _ _ h
      rw [← ih, hkernel]
      simp [hhead]

/-- The elements that have left the envelope are those with a removing entry. -/
theorem Replays.envelope (h : D.Replays xs D') (e : Element) :
    e ∈ D.envelope \ D'.envelope ↔ ∃ c, e.removed c ∈ xs := by
  induction h with
  | done => simp
  | @step D D₁ D' x xs hx _ hxs ih =>
    have hsub := hxs.within.envelope
    simp only [Finset.mem_sdiff, List.mem_cons, exists_or] at ih ⊢
    obtain ⟨f, hf, hk, ⟨⟨c, rfl⟩, -, henvelope⟩ | ⟨⟨c, rfl⟩, -, henvelope⟩⟩ := hx.undecided
    · have hhead : ¬∃ d, e.removed d = f.enforced c := by
        rintro ⟨d, h⟩
        exact Element.enforced_ne_removed _ _ _ _ h.symm
      rw [← ih, henvelope]
      simp [hhead]
    · rw [← ih, henvelope, Finset.mem_erase]
      have hhead : (∃ d, e.removed d = f.removed c) ↔ e = f := by
        refine ⟨?_, fun h => ⟨c, h ▸ rfl⟩⟩
        rintro ⟨d, h⟩
        exact Element.removed_of_change (congrArg DeltaEntry.change h)
      rw [hhead]
      by_cases hef : e = f
      · subst hef
        have hout : e ∉ D'.envelope := fun h => Finset.notMem_erase _ _ (henvelope ▸ hsub h)
        simp [hout, hf]
      · simp [hef]

/-! ## The order of the entries -/

/-- A replay can be split at each of its entries. -/
theorem Replays.split (h : D.Replays (xs ++ x :: ys) D') :
    ∃ D₁ D₂ : Dom, D₁.Change x D₂ ∧ D₂.Wf ∧ D₂.Replays ys D' := by
  induction xs generalizing D with
  | nil =>
    cases h with
    | step hx hwf hys => exact ⟨D, _, hx, hwf, hys⟩
  | cons y xs ih =>
    cases h with
    | step hy hwf h => exact ih h

/-- If all entries are for elements that `e` needs, the one that enforces `e` is the last. -/
theorem Replays.enforced_last {c : Cause} (h : D.Replays xs D') (hx : e.enforced c ∈ xs)
    (hxs : ∀ x ∈ xs, ∃ f ∈ e.closure, x = f.enforced c) : ∃ ys, xs = ys ++ [e.enforced c] := by
  obtain ⟨ys, zs, rfl⟩ := List.append_of_mem hx
  obtain ⟨D₁, D₂, hchange, hwf, hzs⟩ := h.split
  cases zs with
  | nil => exact ⟨ys, rfl⟩
  | cons z zs =>
    obtain ⟨f, hf, rfl⟩ := hxs z (by simp)
    obtain ⟨g, -, hg, ⟨d, hd⟩ | ⟨d, hd⟩⟩ := hzs.undecided List.mem_cons_self
    · -- the domain after the entry of `e` would lack something that `e` needs
      obtain rfl := Element.enforced_of_change (congrArg DeltaEntry.change hd)
      have he : e ∈ D₂.kernel := hchange.of_enforced ▸ Finset.mem_insert_self _ _
      exact absurd (hwf.kernel_closed he hf) hg
    · exact absurd hd (Element.enforced_ne_removed _ _ _ _)

/-- If all entries are for elements that need `e`, the one that removes `e` is the last. -/
theorem Replays.removed_last {c : Cause} (h : D.Replays xs D') (hx : e.removed c ∈ xs)
    (hxs : ∀ x ∈ xs, ∃ f : Element, e ∈ f.closure ∧ x = f.removed c) :
    ∃ ys, xs = ys ++ [e.removed c] := by
  obtain ⟨ys, zs, rfl⟩ := List.append_of_mem hx
  obtain ⟨D₁, D₂, hchange, hwf, hzs⟩ := h.split
  cases zs with
  | nil => exact ⟨ys, rfl⟩
  | cons z zs =>
    obtain ⟨f, hf, rfl⟩ := hxs z (by simp)
    obtain ⟨g, hg, -, ⟨d, hd⟩ | ⟨d, hd⟩⟩ := hzs.undecided List.mem_cons_self
    · exact absurd hd.symm (Element.enforced_ne_removed _ _ _ _)
    · -- the domain after the entry of `e` would still have something that needs `e`
      obtain rfl := Element.removed_of_change (congrArg DeltaEntry.change hd)
      have he : e ∈ D₂.envelope := hwf.envelope_closed hg hf
      rw [hchange.of_removed] at he
      exact absurd he (Finset.notMem_erase _ _)

/-! ## What is logged -/

/-- The entries of the passage from `D` to `D'` by the cause `c`. -/
def Logs (D D' : Dom) (c : Cause) (x : DeltaEntry) : Prop :=
  (∃ e ∈ D'.kernel \ D.kernel, x = e.enforced c) ∨ ∃ e ∈ D.envelope \ D'.envelope, x = e.removed c

theorem logs_enforced_iff {c : Cause} :
    D.Logs D' c (e.enforced c) ↔ e ∈ D'.kernel \ D.kernel := by
  constructor
  · rintro (⟨f, hf, h⟩ | ⟨f, -, h⟩)
    · rwa [Element.enforced_inj h]
    · exact absurd h (Element.enforced_ne_removed _ _ _ _)
  · exact fun h => .inl ⟨e, h, rfl⟩

theorem logs_removed_iff {c : Cause} :
    D.Logs D' c (e.removed c) ↔ e ∈ D.envelope \ D'.envelope := by
  constructor
  · rintro (⟨f, -, h⟩ | ⟨f, hf, h⟩)
    · exact absurd h.symm (Element.enforced_ne_removed _ _ _ _)
    · rwa [Element.removed_inj h]
  · exact fun h => .inr ⟨e, h, rfl⟩

theorem Within.ne_int {D D' : Dom} (h : D'.Within D) (hD : ∀ vs, D ≠ .int vs)
    (vs : Finset Int) : D' ≠ .int vs := by
  cases D with
  | int ws => exact absurd rfl (hD ws)
  | set n b => rintro rfl; exact h
  | graph n b => rintro rfl; exact h

/-- The entries that a log gains with the passage of a domain: those of a replay for a set or a
graph, and none for integers. -/
def Logged : Dom → List DeltaEntry → Dom → Prop
  | .int _, xs, _ => xs = []
  | .set n b, xs, D' => (Dom.set n b).Replays xs D'
  | .graph n b, xs, D' => (Dom.graph n b).Replays xs D'

theorem logged_iff (hD : ∀ vs, D ≠ .int vs) : D.Logged xs D' ↔ D.Replays xs D' := by
  cases D with
  | int vs => exact absurd rfl (hD vs)
  | set n b => exact Iff.rfl
  | graph n b => exact Iff.rfl

theorem logged_self (D : Dom) : D.Logged [] D := by
  cases D with
  | int vs => rfl
  | set n b => exact .done _
  | graph n b => exact .done _

theorem Within.exists_int {vs : Finset Int} (h : D'.Within (.int vs)) : ∃ vs', D' = .int vs' := by
  cases D' with
  | int vs' => exact ⟨vs', rfl⟩
  | set n b => exact h.elim
  | graph n b => exact h.elim

theorem Within.exists_graph {n : Nat} {b : Bounds} (h : D'.Within (.graph n b)) :
    ∃ b', D' = .graph n b' := by
  cases D' with
  | int vs => exact h.elim
  | set m b' => exact h.elim
  | graph m b' =>
    obtain ⟨rfl, -⟩ := h
    exact ⟨b', rfl⟩

theorem Logged.append (h : D.Logged xs D') (hle : D'.Within D) (h' : D'.Logged ys D'') :
    D.Logged (xs ++ ys) D'' := by
  by_cases hint : ∃ vs, D = .int vs
  · obtain ⟨vs, rfl⟩ := hint
    obtain ⟨vs', rfl⟩ := hle.exists_int
    exact List.append_eq_nil_iff.2 ⟨h, h'⟩
  · have hD : ∀ vs, D ≠ .int vs := fun vs h => hint ⟨vs, h⟩
    rw [logged_iff hD] at h ⊢
    exact h.append ((logged_iff (hle.ne_int hD)).1 h')

/-- If all entries are of the cause `c`, they are those of `Dom.Logs`. -/
theorem Logged.mem_iff {c : Cause} (h : D.Logged xs D') (hle : D'.Within D)
    (hc : ∀ x ∈ xs, x.cause = c) (x : DeltaEntry) : x ∈ xs ↔ D.Logs D' c x := by
  by_cases hint : ∃ vs, D = .int vs
  · obtain ⟨vs, rfl⟩ := hint
    obtain ⟨vs', rfl⟩ := hle.exists_int
    rw [show xs = [] from h]
    simp [Logs, kernel, envelope]
  · have hD : ∀ vs, D ≠ .int vs := fun vs h => hint ⟨vs, h⟩
    rw [logged_iff hD] at h
    constructor
    · intro hx
      obtain ⟨e, -, -, ⟨d, rfl⟩ | ⟨d, rfl⟩⟩ := h.undecided hx
      · have hd := hc _ hx
        rw [Element.cause_enforced] at hd
        exact .inl ⟨e, (h.kernel e).2 ⟨d, hx⟩, by rw [hd]⟩
      · have hd := hc _ hx
        rw [Element.cause_removed] at hd
        exact .inr ⟨e, (h.envelope e).2 ⟨d, hx⟩, by rw [hd]⟩
    · rintro (⟨e, he, rfl⟩ | ⟨e, he, rfl⟩)
      · obtain ⟨d, hd⟩ := (h.kernel e).1 he
        have := hc _ hd
        rw [Element.cause_enforced] at this
        rwa [← this]
      · obtain ⟨d, hd⟩ := (h.envelope e).1 he
        have := hc _ hd
        rw [Element.cause_removed] at this
        rwa [← this]

end Dom

end Propagation
