import Mathlib.Data.List.Nodup
import Mathlib.Data.List.Pairwise
import Mathlib.Data.List.Perm.Basic
import Propagation.Queue

/-!
# The state of the queue

Enqueueing adds one propagator, popping takes one away, clearing takes all, and a propagator is in
the queue at most once (`Queue.Valid`). The three parts of a valid queue agree: its lanes hold
exactly the propagators in `present`, and its agenda lists exactly the lanes that are not empty.
-/

set_option autoImplicit false

namespace Propagation

namespace Priority

theorem nodup_all : all.Nodup := by decide

theorem sorted_all : all.Pairwise (·.index < ·.index) := by decide

theorem exists_index {i : Nat} (h : i < count) : ∃ c : Priority, c.index = i := by
  have hall : ∀ i < count, ∃ c ∈ all, c.index = i := by decide
  obtain ⟨c, -, hc⟩ := hall i h
  exact ⟨c, hc⟩

end Priority

namespace Queue

variable {q q' : Queue} {p r : PropagatorId} {c d : Priority}

/-! ## Presence -/

theorem contains_iff_present : q.contains p = true ↔ p ∈ q.present := List.contains_iff_mem

@[simp] theorem contains_empty (p : PropagatorId) : empty.contains p = false := rfl

@[simp] theorem contains_clear (q : Queue) (p : PropagatorId) : q.clear.contains p = false := rfl

theorem contains_enqueue :
    (q.enqueue p c).contains r = true ↔ r = p ∨ q.contains r = true := by
  unfold enqueue
  split
  · next h => exact ⟨.inr, fun hr => hr.elim (fun h' => h' ▸ h) id⟩
  · rw [contains_iff_present, contains_iff_present, List.mem_cons]

theorem isEmpty_iff : q.isEmpty = true ↔ ∀ p, q.contains p = false := by
  simp [isEmpty, contains, List.eq_nil_iff_forall_not_mem]

/-! ## Lanes -/

theorem map_toList (q : Queue) : q.toList.map (·.1) = Priority.all.flatMap q.lane := by
  rw [toList, List.map_flatMap]
  exact List.flatMap_congr fun c _ => by rw [List.map_map]; exact List.map_id _

theorem mem_map_toList : p ∈ q.toList.map (·.1) ↔ ∃ c, p ∈ q.lane c := by
  rw [map_toList, List.mem_flatMap]
  exact exists_congr fun c => ⟨And.right, fun h => ⟨Priority.mem_all c, h⟩⟩

theorem Valid.contains_iff_mem (hq : q.Valid) :
    q.contains p = true ↔ p ∈ q.toList.map (·.1) :=
  contains_iff_present.trans hq.present.mem_iff

theorem Valid.contains_iff (hq : q.Valid) : q.contains p = true ↔ ∃ c, p ∈ q.lane c :=
  hq.contains_iff_mem.trans mem_map_toList

/-- The lanes after one of them has been replaced. -/
theorem lane_set (l : List PropagatorId) (ps : List PropagatorId) (a : List Priority)
    (d : Priority) :
    lane { lanes := q.lanes.set c.index l c.index_lt, present := ps, agenda := a } d =
      if d = c then l else q.lane d := by
  refine (Vector.getElem_set c.index_lt d.index_lt).trans ?_
  by_cases hd : d = c
  · rw [if_pos (by rw [hd]), if_pos hd]
  · rw [if_neg fun he => hd (Priority.index_inj he).symm, if_neg hd]
    rfl

theorem nodup_iff : (q.toList.map (·.1)).Nodup ↔
    (∀ c, (q.lane c).Nodup) ∧ ∀ c d p, p ∈ q.lane c → p ∈ q.lane d → c = d := by
  rw [map_toList, List.nodup_flatMap]
  refine and_congr ⟨fun h c => h c (Priority.mem_all c), fun h c _ => h c⟩ ?_
  constructor
  · intro h c d p hc hd
    refine Classical.byContradiction fun hne => ?_
    have : Std.Symm (Function.onFun List.Disjoint q.lane) :=
      ⟨fun _ _ h _ hd hc => h hc hd⟩
    exact h.forall (Priority.mem_all c) (Priority.mem_all d) hne hc hd
  · intro h
    refine Priority.nodup_all.imp fun {c d} hne => ?_
    exact fun p hc hd => hne (h c d p hc hd)

/-- `Queue.Valid` from the agenda and the lanes. -/
theorem valid_of_lanes (hagenda : q.agenda = Priority.all.filter fun c => !(q.lane c).isEmpty)
    (hnodup : ∀ c, (q.lane c).Nodup) (huniq : ∀ c d p, p ∈ q.lane c → p ∈ q.lane d → c = d)
    (hpresent : q.present.Nodup) (hmem : ∀ p, p ∈ q.present ↔ ∃ c, p ∈ q.lane c) :
    q.Valid := by
  have hlist := nodup_iff.2 ⟨hnodup, huniq⟩
  refine ⟨hagenda, hlist, (List.perm_ext_iff_of_nodup hpresent hlist).2 fun p => ?_⟩
  rw [hmem, mem_map_toList]

theorem Valid.nodup_present (hq : q.Valid) : q.present.Nodup := hq.present.nodup_iff.2 hq.nodup

/-! ## The agenda -/

theorem Valid.mem_agenda (hq : q.Valid) : c ∈ q.agenda ↔ q.lane c ≠ [] := by
  rw [hq.agenda_eq, List.mem_filter, and_iff_right (Priority.mem_all c)]
  simp

theorem Valid.nodup_agenda (hq : q.Valid) : q.agenda.Nodup :=
  hq.agenda_eq ▸ Priority.nodup_all.filter _

/-- Inserting a class `c` that is missing from an agenda in order. -/
theorem insertClass_filter (f : Priority → Bool) (hc : f c = false) (cs : List Priority)
    (hsort : cs.Pairwise (·.index < ·.index)) (hmem : c ∈ cs) :
    insertClass c (cs.filter f) = cs.filter fun d => d = c || f d := by
  induction cs with
  | nil => cases hmem
  | cons b bs ih =>
    obtain ⟨hb, hbs⟩ := List.pairwise_cons.1 hsort
    by_cases hbc : b = c
    · subst hbc
      have hrest : (bs.filter fun d => decide (d = b) || f d) = bs.filter f := by
        refine List.filter_congr fun d hd => ?_
        have hne : d ≠ b := by
          rintro rfl
          exact Nat.lt_irrefl _ (hb d hd)
        simp [hne]
      rw [List.filter_cons_of_neg (by simp [hc]), List.filter_cons_of_pos (by simp), hrest]
      cases hf : bs.filter f with
      | nil => rfl
      | cons e es =>
        have he : e ∈ bs := (List.mem_filter.1 (hf ▸ List.mem_cons_self)).1
        rw [insertClass, if_pos (Nat.le_of_lt (hb e he))]
    · have hmem' : c ∈ bs := (List.mem_cons.1 hmem).resolve_left fun h => hbc h.symm
      have hlt : b.index < c.index := hb c hmem'
      rw [List.filter_cons, List.filter_cons]
      simp only [hbc, decide_false, Bool.false_or]
      split
      · rw [insertClass, if_neg (by omega), ih hbs hmem']
      · exact ih hbs hmem'

/-! ## Enqueueing -/

theorem lane_enqueue (h : q.contains p = false) :
    (q.enqueue p c).lane d = if d = c then q.lane c ++ [p] else q.lane d := by
  rw [enqueue, if_neg (by simp [h]), lane_set]

theorem mem_lane_enqueue (h : q.contains p = false) :
    r ∈ (q.enqueue p c).lane d ↔ r ∈ q.lane d ∨ r = p ∧ d = c := by
  rw [lane_enqueue h]
  by_cases hd : d = c
  · subst hd
    simp
  · simp [hd]

theorem Valid.enqueue (hq : q.Valid) (p : PropagatorId) (c : Priority) :
    (q.enqueue p c).Valid := by
  cases hp : q.contains p with
  | true => rwa [Queue.enqueue, if_pos hp]
  | false =>
    have hno : ∀ d, p ∉ q.lane d := fun d hd => by
      rw [hq.contains_iff.2 ⟨d, hd⟩] at hp
      cases hp
    obtain ⟨hnodup, huniq⟩ := nodup_iff.1 hq.nodup
    have hpresent : (q.enqueue p c).present = p :: q.present := by
      rw [Queue.enqueue, if_neg (by simp [hp])]
    refine valid_of_lanes ?_ (fun d => ?_) (fun d e r hd he => ?_) ?_ fun r => ?_
    · have hagenda : (q.enqueue p c).agenda =
          if (q.lane c).isEmpty then insertClass c q.agenda else q.agenda := by
        rw [Queue.enqueue, if_neg (by simp [hp])]
      have hfilter : (Priority.all.filter fun d => !((q.enqueue p c).lane d).isEmpty) =
          Priority.all.filter fun d => d = c || !(q.lane d).isEmpty := by
        refine List.filter_congr fun d _ => ?_
        rw [lane_enqueue hp]
        by_cases h : d = c <;> simp [h]
      rw [hfilter, hagenda, hq.agenda_eq]
      split
      · next hc =>
        exact insertClass_filter _ (by simp [hc]) _ Priority.sorted_all (Priority.mem_all c)
      · next hc =>
        refine List.filter_congr fun d _ => ?_
        by_cases h : d = c
        · subst h
          simp [hc]
        · simp [h]
    · rw [lane_enqueue hp]
      split
      · rw [List.nodup_append_comm]
        exact List.nodup_cons.2 ⟨hno c, hnodup c⟩
      · exact hnodup d
    · rw [mem_lane_enqueue hp] at hd he
      obtain hd | ⟨rfl, rfl⟩ := hd
      · obtain he | ⟨rfl, -⟩ := he
        · exact huniq d e r hd he
        · exact absurd hd (hno d)
      · obtain he | ⟨-, rfl⟩ := he
        · exact absurd he (hno e)
        · rfl
    · rw [hpresent]
      exact List.nodup_cons.2 ⟨mt contains_iff_present.2 (by simp [hp]), hq.nodup_present⟩
    · rw [hpresent, List.mem_cons, ← contains_iff_present, hq.contains_iff]
      simp only [mem_lane_enqueue hp, exists_or, exists_and_left, exists_eq, and_true]
      exact or_comm

/-! ## Enqueueing many -/

/-- `q'` is `q` after the propagators `news`, none of which was present, have been enqueued in this
order, each with its `rank`. -/
structure Gains (q : Queue) (rank : PropagatorId → Priority) (news : List PropagatorId)
    (q' : Queue) : Prop where
  nodup : news.Nodup
  absent : ∀ p ∈ news, q.contains p = false
  present : q'.present = news.reverse ++ q.present
  lane : ∀ c, q'.lane c = q.lane c ++ news.filter (rank · = c)
  agenda : ∃ cs, cs.Nodup ∧ (∀ c, c ∈ cs ↔ q.lane c = [] ∧ ∃ p ∈ news, rank p = c) ∧
    q'.agenda.Perm (cs ++ q.agenda)

theorem perm_insertClass (c : Priority) (cs : List Priority) : (insertClass c cs).Perm (c :: cs) := by
  induction cs with
  | nil => exact .refl _
  | cons d ds ih =>
    rw [insertClass]
    split
    · exact .refl _
    · exact (ih.cons d).trans (.swap c d ds)

section
variable {rank : PropagatorId → Priority} {news news' : List PropagatorId} {q₁ q₂ : Queue}

theorem gains_nil (q : Queue) (rank : PropagatorId → Priority) : q.Gains rank [] q where
  nodup := List.nodup_nil
  absent := nofun
  present := rfl
  lane c := by simp
  agenda := ⟨[], List.nodup_nil, by simp, .refl _⟩

theorem Gains.contains (h : q.Gains rank news q') :
    q'.contains p = true ↔ p ∈ news ∨ q.contains p = true := by
  rw [contains_iff_present, h.present, List.mem_append, List.mem_reverse, contains_iff_present]

/-- `Gains` is extended by enqueueing a propagator that is not present. -/
theorem Gains.enqueue (h : q.Gains rank news q') (hp : q'.contains p = false) :
    q.Gains rank (news ++ [p]) (q'.enqueue p (rank p)) := by
  have hno : p ∉ news ∧ q.contains p = false := by
    rw [← Bool.not_eq_true, h.contains, not_or, Bool.not_eq_true] at hp
    exact hp
  obtain ⟨cs, hnodup, hcs, hagenda⟩ := h.agenda
  refine ⟨?_, ?_, ?_, fun c => ?_, ?_⟩
  · exact List.nodup_append.2 ⟨h.nodup, List.nodup_singleton p, fun r hr s hs => by
      rw [List.mem_singleton.1 hs]
      rintro rfl
      exact hno.1 hr⟩
  · intro r hr
    rcases List.mem_append.1 hr with hr | hr
    · exact h.absent r hr
    · exact List.mem_singleton.1 hr ▸ hno.2
  · rw [Queue.enqueue, if_neg (by simp [hp]), List.reverse_append]
    exact congrArg _ h.present
  · rw [lane_enqueue hp, h.lane, h.lane, List.filter_append]
    by_cases hc : c = rank p
    · subst hc
      simp
    · simp [hc, Ne.symm hc]
  · rw [Queue.enqueue, if_neg (by simp [hp])]
    have hmem : ∀ c, (∃ r ∈ news ++ [p], rank r = c) ↔ (∃ r ∈ news, rank r = c) ∨ rank p = c :=
      fun c => by simp [or_and_right, exists_or]
    by_cases hempty : (q'.lane (rank p)).isEmpty = true
    · -- the class is new on the agenda
      have hnil := List.isEmpty_iff.1 hempty
      rw [h.lane, List.append_eq_nil_iff, List.filter_eq_nil_iff] at hnil
      obtain ⟨hlane, hnone⟩ := hnil
      refine ⟨rank p :: cs, List.nodup_cons.2 ⟨fun hin => ?_, hnodup⟩, fun c => ?_, ?_⟩
      · obtain ⟨-, r, hr, hclass⟩ := (hcs _).1 hin
        exact hnone r hr (by simp [hclass])
      · rw [List.mem_cons, hcs, hmem]
        constructor
        · rintro (rfl | ⟨hl, hr⟩)
          · exact ⟨hlane, .inr rfl⟩
          · exact ⟨hl, .inl hr⟩
        · rintro ⟨hl, hr | rfl⟩
          · exact .inr ⟨hl, hr⟩
          · exact .inl rfl
      · rw [if_pos hempty]
        exact (perm_insertClass _ _).trans (hagenda.cons _)
    · refine ⟨cs, hnodup, fun c => ?_, ?_⟩
      · rw [hcs, hmem]
        refine and_congr_right fun hl => (or_iff_left_of_imp ?_).symm
        rintro rfl
        rw [h.lane, hl, List.nil_append, List.isEmpty_iff, List.filter_eq_nil_iff] at hempty
        push Not at hempty
        obtain ⟨r, hr, hclass⟩ := hempty
        exact ⟨r, hr, by simpa using hclass⟩
      · rw [if_neg hempty]
        exact hagenda

/-- The same propagators enqueued in different orders leave queues that are equal up to order. -/
theorem Gains.perm (h : q.Gains rank news q₁) (h' : q.Gains rank news' q₂)
    (hsame : ∀ p, p ∈ news ↔ p ∈ news') : q₁.present.Perm q₂.present ∧
      (∀ c, (q₁.lane c).Perm (q₂.lane c)) ∧ q₁.agenda.Perm q₂.agenda := by
  have hnews : news.Perm news' := (List.perm_ext_iff_of_nodup h.nodup h'.nodup).2 hsame
  obtain ⟨cs, hnodup, hcs, hagenda⟩ := h.agenda
  obtain ⟨cs', hnodup', hcs', hagenda'⟩ := h'.agenda
  have hclasses : cs.Perm cs' := (List.perm_ext_iff_of_nodup hnodup hnodup').2 fun c => by
    rw [hcs, hcs']
    simp only [hsame]
  refine ⟨?_, fun c => ?_, hagenda.trans ((hclasses.append_right _).trans hagenda'.symm)⟩
  · rw [h.present, h'.present]
    exact ((List.reverse_perm _).trans (hnews.trans (List.reverse_perm _).symm)).append_right _
  · rw [h.lane, h'.lane]
    exact (hnews.filter _).append_left _

end

/-! ## Clearing -/

theorem get_foldl_set (cs : List Priority) (lanes : Vector (List PropagatorId) Priority.count)
    (d : Priority) :
    (cs.foldl (fun l c => l.set c.index [] c.index_lt) lanes).get d.slot =
      if d ∈ cs then [] else lanes.get d.slot := by
  induction cs generalizing lanes with
  | nil => rfl
  | cons c cs ih =>
    have hset : (lanes.set c.index [] c.index_lt).get d.slot =
        if d = c then [] else lanes.get d.slot := lane_set (q := ⟨lanes, [], []⟩) [] [] [] d
    rw [List.foldl_cons, ih, hset]
    by_cases hd : d = c <;> simp [hd]

theorem Valid.lane_clear (hq : q.Valid) (d : Priority) : q.clear.lane d = [] := by
  refine (get_foldl_set q.agenda q.lanes d).trans ?_
  split
  · rfl
  · next hd => exact Classical.not_not.1 fun hne => hd (hq.mem_agenda.2 hne)

/-- Clearing a valid queue leaves the empty queue: no lane is left out. -/
theorem Valid.clear_eq (hq : q.Valid) : q.clear = empty := by
  have hlanes : q.clear.lanes = empty.lanes := by
    refine Vector.ext fun i hi => ?_
    obtain ⟨d, rfl⟩ := Priority.exists_index hi
    exact (hq.lane_clear d).trans (lane_empty d).symm
  exact congrArg (⟨·, [], []⟩ : _ → Queue) hlanes

theorem Valid.clear (hq : q.Valid) : q.clear.Valid := hq.clear_eq ▸ valid_empty

/-! ## Popping -/

theorem Valid.isEmpty_iff_agenda (hq : q.Valid) : q.isEmpty = true ↔ q.agenda = [] := by
  rw [isEmpty_iff, List.eq_nil_iff_forall_not_mem]
  constructor
  · intro h c hc
    obtain ⟨p, hp⟩ := List.exists_mem_of_ne_nil _ (hq.mem_agenda.1 hc)
    have := h p
    rw [hq.contains_iff.2 ⟨c, hp⟩] at this
    cases this
  · intro h p
    rw [← Bool.not_eq_true, hq.contains_iff]
    intro ⟨c, hc⟩
    exact h c (hq.mem_agenda.2 (List.ne_nil_of_mem hc))

/-- A pop returns the head of the first lane on the agenda. -/
theorem exists_of_pop (h : q.pop = some (p, q')) :
    ∃ c cs ps, q.agenda = c :: cs ∧ q.lane c = p :: ps ∧
      q' = { lanes := q.lanes.set c.index ps c.index_lt
             present := q.present.erase p
             agenda := if ps.isEmpty then cs else c :: cs } := by
  unfold pop at h
  split at h
  · cases h
  · next c cs ha =>
    split at h
    · cases h
    · next r ps hl =>
      cases h
      exact ⟨c, cs, ps, ha, hl, rfl⟩

/-- A pop returns `none` iff the queue is empty: no class on the agenda has an empty lane. -/
theorem Valid.pop_eq_none (hq : q.Valid) : q.pop = none ↔ q.isEmpty = true := by
  rw [hq.isEmpty_iff_agenda]
  unfold pop
  split
  · next ha => simp [ha]
  · next c cs ha =>
    have hc : q.lane c ≠ [] := hq.mem_agenda.1 (ha ▸ List.mem_cons_self)
    split
    · next hl => exact absurd hl hc
    · simp [ha]

theorem Valid.pop_none (hq : q.Valid) (h : q.pop = none) : ∀ p, q.contains p = false :=
  isEmpty_iff.1 (hq.pop_eq_none.1 h)

theorem Valid.pop_some (hq : q.Valid) (h : q.pop = some (p, q')) :
    q'.Valid ∧ q'.contains p = false ∧ ∀ r, q.contains r = true ↔ r = p ∨ q'.contains r = true := by
  obtain ⟨c, cs, ps, ha, hl, rfl⟩ := exists_of_pop h
  obtain ⟨hnodup, huniq⟩ := nodup_iff.1 hq.nodup
  have hpc : p ∈ q.lane c := hl ▸ List.mem_cons_self
  have hp : p ∉ ps := (List.nodup_cons.1 (hl ▸ hnodup c)).1
  have hps : ps.Nodup := (List.nodup_cons.1 (hl ▸ hnodup c)).2
  -- the lanes hold what they held, but for the one that is served
  have hmem : ∀ d r, r ∈ (if d = c then ps else q.lane d) ↔ r ∈ q.lane d ∧ r ≠ p := by
    intro d r
    split
    · next hd =>
      rw [hd, hl, List.mem_cons]
      constructor
      · exact fun hr => ⟨.inr hr, fun he => hp (he ▸ hr)⟩
      · exact fun ⟨hr, hne⟩ => hr.resolve_left hne
    · next hd =>
      refine ⟨fun hr => ⟨hr, ?_⟩, And.left⟩
      rintro rfl
      exact hd (huniq d c r hr hpc)
  have hpresent : ∀ r, r ∈ q.present.erase p ↔ r ∈ q.present ∧ r ≠ p := fun r => by
    rw [hq.nodup_present.mem_erase_iff]
    exact and_comm
  refine ⟨valid_of_lanes ?_ (fun d => ?_) (fun d e r hd he => ?_)
    (hq.nodup_present.erase p) fun r => ?_, ?_, fun r => ?_⟩
  · simp only [lane_set]
    have hall : Priority.all.filter (fun d => !(q.lane d).isEmpty) = c :: cs := by
      rw [← hq.agenda_eq, ha]
    by_cases he : ps = []
    · -- the class leaves the agenda
      have hcs : c ∉ cs := (List.nodup_cons.1 (ha ▸ hq.nodup_agenda)).1
      have hfilter : (Priority.all.filter fun d =>
          !(if d = c then ps else q.lane d).isEmpty) =
          (Priority.all.filter fun d => !(q.lane d).isEmpty).filter (· ≠ c) := by
        rw [List.filter_filter]
        refine List.filter_congr fun d _ => ?_
        by_cases hd : d = c <;> simp [hd, he]
      rw [hfilter, hall, List.filter_cons_of_neg (by simp)]
      simp only [he, List.isEmpty_nil, if_true]
      exact (List.filter_eq_self.2 fun d hd => by
        simpa using fun h : d = c => hcs (h ▸ hd)).symm
    · have hfilter : (Priority.all.filter fun d =>
          !(if d = c then ps else q.lane d).isEmpty) =
          Priority.all.filter fun d => !(q.lane d).isEmpty := by
        refine List.filter_congr fun d _ => ?_
        by_cases hd : d = c
        · subst hd
          simp [he, hl]
        · simp [hd]
      rw [hfilter, hall]
      simp [he]
  · rw [lane_set]
    split
    · exact hps
    · exact hnodup d
  · rw [lane_set, hmem] at hd he
    exact huniq d e r hd.1 he.1
  · simp only [lane_set, hmem]
    rw [hpresent, ← contains_iff_present, hq.contains_iff, exists_and_right]
  · rw [← Bool.not_eq_true, contains_iff_present, hpresent]
    exact fun h => h.2 rfl
  · rw [contains_iff_present, contains_iff_present, hpresent]
    by_cases hr : r = p
    · subst hr
      simp [← contains_iff_present, hq.contains_iff.2 ⟨c, hpc⟩]
    · simp [hr]

end Queue

end Propagation
