import Propagation.Proofs.Trail.Edits
import Propagation.Proofs.Trail.History
import Propagation.Proofs.Trail.Level

/-!
# Stamps and records

A write may go unrecorded when the stamp of its cell is not behind the clock. `Trail.Dated` relates
the stamps of the cells to the records, for the innermost level; every edit keeps it
(`edits_rewrites`). For the other levels the relation is that of the trail on which the next one was
opened: closing a level gives back the cells and the records of that trail (`Recalls`), and its
clock is behind, as the clock is never turned back.

Main statement: `stamps_sound`, for any calls, also on handles whose resource is gone and also with
faults.
-/

set_option autoImplicit false

namespace Propagation

open Update

/-! ## What is recorded of a cell -/

/-- The recorded contents of the cell `i`, in the order of the changes. -/
def formers (cs : List Change) (i : Nat) : List Cell := (cs.filter (·.cell = i)).map (·.former)

theorem formers_cons (c : Change) (cs : List Change) (i : Nat) :
    formers (c :: cs) i = if c.cell = i then c.former :: formers cs i else formers cs i := by
  by_cases h : c.cell = i
  · simp [formers, h]
  · simp [formers, h]

theorem formers_append (cs ds : List Change) (i : Nat) :
    formers (cs ++ ds) i = formers cs i ++ formers ds i := by
  simp [formers]

theorem formers_eq_nil {cs : List Change} {i : Nat} :
    formers cs i = [] ↔ ∀ c ∈ cs, c.cell ≠ i := by
  simp [formers]

namespace Trail

/-- All recorded changes, newest first. -/
def records (t : Trail) : List Change := t.levels.flatMap (·.changes) ++ t.baseChanges

/-- The changes recorded in the innermost levels up to the `n`-th, newest first. -/
def since (t : Trail) (n : Nat) : List Change := (t.levels.take (n + 1)).flatMap (·.changes)

theorem length_records (t : Trail) : t.records.length = t.length := by
  rw [records, length, List.length_append, Nat.add_comm]

theorem undo_append (cells : Array Cell) (cs ds : List Change) :
    undo cells (cs ++ ds) = undo (undo cells cs) ds := List.foldl_append

/-- `undo` gives a cell the content of its oldest record. -/
theorem getElem?_undo {cells : Array Cell} (cs : List Change) {i : Nat} {c : Cell}
    (h : cells[i]? = some c) : (undo cells cs)[i]? = (c :: formers cs i).getLast? := by
  induction cs generalizing cells c with
  | nil => exact h
  | cons d cs ih =>
    show (undo (cells.setIfInBounds d.cell d.former) cs)[i]? = _
    rw [formers_cons]
    by_cases hd : d.cell = i
    · have hi : i < cells.size := (Array.getElem?_eq_some_iff.1 h).1
      have hset : (cells.setIfInBounds d.cell d.former)[i]? = some d.former := by
        simp [hd, hi]
      rw [ih hset, if_pos hd, List.getLast?_cons_cons]
    · have hset : (cells.setIfInBounds d.cell d.former)[i]? = some c := by
        rw [Array.getElem?_setIfInBounds, if_neg hd, h]
      rw [ih hset, if_neg hd]

/-! ## The innermost level -/

/-- The stamps of a cell are falling from its own to the oldest recorded one, and in the innermost
level only the oldest record of a cell is behind the clock of the level. -/
structure Dated (t : Trail) : Prop extends Tracked t where
  reach : ∀ l ls, t.levels = l :: ls → l.extent.cells ≤ t.cells.size
  there : ∀ c ∈ t.records, c.cell < t.cells.size
  falling : ∀ (i : Nat) (c : Cell), t.cells[i]? = some c →
    (c :: formers t.records i).Pairwise fun x y => y.stamp < x.stamp
  fresh : ∀ l ls, t.levels = l :: ls → ∀ (i : Nat) (c : Cell), t.cells[i]? = some c →
    ∀ x ∈ (c :: formers l.changes i).dropLast, l.clock ≤ x.stamp

/-- The cells and all records. -/
def tape (t : Trail) : Array Cell × List Level × List Change := (t.cells, t.levels, t.baseChanges)

variable {t t' : Trail} {l : Level} {ls : List Level}

theorem records_of_cons (h : t.levels = l :: ls) :
    t.records = l.changes ++ (ls.flatMap (·.changes) ++ t.baseChanges) := by
  rw [records, h, List.flatMap_cons, List.append_assoc]

theorem tape_close_of_cons (h : t.levels = l :: ls) :
    t.close.tape = ((undo t.cells l.changes).take l.extent.cells, ls, t.baseChanges) := by
  rw [close_of_cons h]
  rfl

theorem tape_eq (h : t'.tape = t.tape) :
    t'.cells = t.cells ∧ t'.levels = t.levels ∧ t'.baseChanges = t.baseChanges := by
  simpa [tape] using h

theorem tape_close_congr (h : t'.tape = t.tape) : t'.close.tape = t.close.tape := by
  obtain ⟨hcells, hlevels, hbase⟩ := tape_eq h
  cases hl : t.levels with
  | nil => rw [close_of_nil hl, close_of_nil (hlevels.trans hl), h]
  | cons l ls => rw [tape_close_of_cons hl, tape_close_of_cons (hlevels.trans hl), hcells, hbase]

namespace Dated

theorem congr (hd : t.Dated) (h : t'.tape = t.tape) (hc : t.clock ≤ t'.clock) : t'.Dated := by
  obtain ⟨hcells, hlevels, hbase⟩ := tape_eq h
  have hrecords : t'.records = t.records := by rw [records, records, hlevels, hbase]
  constructor
  · refine ⟨?_, ?_, ?_⟩
    · rw [hcells]
      exact fun i c hi => (hd.stamp_le i c hi).trans hc
    · rw [hlevels]
      exact fun l hl => (hd.clock_le l hl).trans hc
    · rw [hlevels, hcells]
      exact hd.covers
  · rw [hlevels, hcells]
    exact hd.reach
  · rw [hrecords, hcells]
    exact hd.there
  · rw [hrecords, hcells]
    exact hd.falling
  · rw [hlevels, hcells]
    exact hd.fresh

/-- Only cells of the trail are recorded. -/
theorem formers_records (hd : t.Dated) {i : Nat} (hi : t.cells.size ≤ i) :
    formers t.records i = [] := by
  rw [formers_eq_nil]
  intro c hc hci
  have := hd.there c hc
  omega

theorem formers_level (hd : t.Dated) (hl : t.levels = l :: ls) {i : Nat}
    (hi : t.cells.size ≤ i) : formers l.changes i = [] := by
  have h := hd.formers_records hi
  rw [records_of_cons hl, formers_append, List.append_eq_nil_iff] at h
  exact h.1

end Dated

/-! ## Edits -/

/-- The trail `t'` is `t` after cells have been added and written. -/
structure Rewrites (t t' : Trail) : Prop where
  dated : t'.Dated
  clock : t'.clock = t.clock
  labels : t'.labels = t.labels
  close : t.levels ≠ [] → t'.close.tape = t.close.tape

theorem Dated.rewrites_self (h : t.Dated) : Rewrites t t := ⟨h, rfl, rfl, fun _ => rfl⟩

theorem depth_of_labels (h : t'.labels = t.labels) : t'.depth = t.depth := by
  simpa [labels, depth] using congrArg List.length h

theorem levels_ne_nil_of_labels (h : t'.labels = t.labels) (hl : t.levels ≠ []) :
    t'.levels ≠ [] := by
  rw [← List.length_pos_iff] at hl ⊢
  exact Nat.lt_of_lt_of_eq hl (depth_of_labels h).symm

theorem Dated.addInt (hd : t.Dated) (a : Int) : Rewrites t (t.addInt a).2 := by
  have hget : ∀ {i : Nat} {c : Cell}, (t.cells.push ⟨t.clock, a⟩)[i]? = some c →
      t.cells[i]? = some c ∨ i = t.cells.size ∧ c = ⟨t.clock, a⟩ := by
    intro i c hi
    rw [Array.getElem?_push] at hi
    split at hi
    · next he =>
      cases hi
      exact .inr ⟨he, rfl⟩
    · exact .inl hi
  refine ⟨?_, rfl, rfl, fun hne => ?_⟩
  · constructor
    · refine ⟨fun i c hi => ?_, hd.clock_le, fun l ls hl i hi c hc => ?_⟩
      · obtain hi | ⟨-, rfl⟩ := hget hi
        · exact hd.stamp_le i c hi
        · exact Nat.le_refl _
      · obtain hc | ⟨rfl, -⟩ := hget hc
        · exact hd.covers l ls hl i hi c hc
        · have := hd.reach l ls hl
          omega
    · intro l ls hl
      have := hd.reach l ls hl
      simp [Trail.addInt]
      omega
    · intro c hc
      have : c.cell < t.cells.size := hd.there c hc
      simp [Trail.addInt]
      omega
    · intro i c hi
      obtain hi | ⟨rfl, -⟩ := hget hi
      · exact hd.falling i c hi
      · have hnil : formers (t.addInt a).2.records t.cells.size = [] :=
          hd.formers_records (Nat.le_refl _)
        rw [hnil]
        exact List.pairwise_singleton _ _
    · intro l ls hl i c hi
      obtain hi | ⟨rfl, -⟩ := hget hi
      · exact hd.fresh l ls hl i c hi
      · rw [hd.formers_level hl (Nat.le_refl _)]
        exact fun x hx => absurd hx List.not_mem_nil
  · obtain ⟨l, ls, hl⟩ := List.exists_cons_of_ne_nil hne
    have hr := hd.reach l ls hl
    rw [tape_close_of_cons hl, tape_close_of_cons (t := (t.addInt a).2) hl]
    have hcells : (undo (t.addInt a).2.cells l.changes).take l.extent.cells
        = (undo t.cells l.changes).take l.extent.cells := by
      refine take_undo_agree _ (.inr ⟨hr, ?_⟩) fun i hi => ?_
      · simp [Trail.addInt]
        omega
      · have hlt : i < t.cells.size := by omega
        exact (Array.getElem?_push_lt hlt).trans (Array.getElem?_eq_getElem hlt).symm
    rw [hcells]
    rfl

theorem records_record (t : Trail) (c : Change) : (t.record c).records = c :: t.records := by
  cases h : t.levels with
  | nil => simp [record, records, h]
  | cons l ls => simp [record, records, h]

theorem cells_record (t : Trail) (c : Change) : (t.record c).cells = t.cells := by
  cases h : t.levels with
  | nil => simp [record, h]
  | cons l ls => simp [record, h]

/-- `record` puts the change in front of those of the innermost level. -/
theorem levels_record {c : Change} {l : Level} {ls : List Level}
    (h : (t.record c).levels = l :: ls) :
    ∃ l₀, t.levels = l₀ :: ls ∧ l = { l₀ with changes := c :: l₀.changes } := by
  cases hl : t.levels with
  | nil => simp [record, hl] at h
  | cons l₀ ls₀ =>
    simp only [record, hl, List.cons.injEq] at h
    exact ⟨l₀, by rw [h.2], h.1.symm⟩

section
variable (hd : t.Dated) {i : Nat} {c : Cell} (hc : t.cells[i]? = some c) (a : Int)
include hd hc

/-- A write that is recorded stamps its cell with the clock. -/
theorem Dated.write_recorded (hs : c.stamp < t.clock) : Rewrites t (t.write i c a) := by
  have hw := hd.toTracked.write hc a
  have hi : i < t.cells.size := (Array.getElem?_eq_some_iff.1 hc).1
  have hrun : t.write i c a = { t.record ⟨i, c⟩ with
      cells := (t.record ⟨i, c⟩).cells.setIfInBounds i ⟨(t.record ⟨i, c⟩).clock, a⟩ } := if_pos hs
  have hclock : (t.record ⟨i, c⟩).clock = t.clock := congrArg Prod.fst (clocks_record t ⟨i, c⟩)
  have hrecords : (t.write i c a).records = ⟨i, c⟩ :: t.records := by
    rw [hrun]
    exact records_record t ⟨i, c⟩
  have hlevels : (t.write i c a).levels = (t.record ⟨i, c⟩).levels := by rw [hrun]
  have hget : ∀ (j : Nat) (d : Cell), (t.write i c a).cells[j]? = some d →
      j = i ∧ d = ⟨t.clock, a⟩ ∨ j ≠ i ∧ t.cells[j]? = some d := by
    intro j d hj
    rw [hrun, hclock, cells_record] at hj
    simp only [Array.getElem?_setIfInBounds] at hj
    split at hj
    · next he => exact .inl ⟨he.symm, by simpa [hi] using hj.symm⟩
    · next he => exact .inr ⟨Ne.symm he, hj⟩
  refine ⟨?_, hw.clock, hw.labels, fun hne => congrArg tape (hw.close hne)⟩
  constructor
  · exact hw.tracked
  · intro l ls hl
    rw [hlevels] at hl
    obtain ⟨l₀, hl₀, rfl⟩ := levels_record hl
    rw [hw.size]
    exact hd.reach l₀ ls hl₀
  · rw [hrecords, hw.size]
    intro d hm
    obtain rfl | hm := List.mem_cons.1 hm
    · exact hi
    · exact hd.there d hm
  · intro j d hj
    rw [hrecords, formers_cons]
    obtain ⟨rfl, rfl⟩ | ⟨hne, hj⟩ := hget j d hj
    · rw [if_pos rfl]
      have hfall := hd.falling j c hc
      refine List.pairwise_cons.2 ⟨fun x hx => ?_, hfall⟩
      obtain rfl | hx := List.mem_cons.1 hx
      · exact hs
      · exact ((List.pairwise_cons.1 hfall).1 x hx).trans hs
    · rw [if_neg (Ne.symm hne)]
      exact hd.falling j d hj
  · intro l ls hl j d hj x hx
    rw [hlevels] at hl
    obtain ⟨l₀, hl₀, rfl⟩ := levels_record hl
    rw [formers_cons] at hx
    obtain ⟨rfl, rfl⟩ | ⟨hne, hj⟩ := hget j d hj
    · rw [if_pos rfl, List.dropLast_cons_cons] at hx
      obtain rfl | hx := List.mem_cons.1 hx
      · exact hd.clock_le l₀ (by rw [hl₀]; exact List.mem_cons_self)
      · exact hd.fresh l₀ ls hl₀ j c hc x hx
    · rw [if_neg (Ne.symm hne)] at hx
      exact hd.fresh l₀ ls hl₀ j d hj x hx

/-- Any other write leaves the stamps and the records as they are. -/
theorem Dated.write_current (hs : ¬c.stamp < t.clock) : Rewrites t (t.write i c a) := by
  have hw := hd.toTracked.write hc a
  have hi : i < t.cells.size := (Array.getElem?_eq_some_iff.1 hc).1
  have hrun : t.write i c a = { t with cells := t.cells.setIfInBounds i ⟨c.stamp, a⟩ } := by
    rw [write, if_neg hs]
  have hget : ∀ (j : Nat) (d : Cell), (t.write i c a).cells[j]? = some d →
      ∃ e, t.cells[j]? = some e ∧ e.stamp = d.stamp := by
    intro j d hj
    rw [hrun] at hj
    simp only [Array.getElem?_setIfInBounds] at hj
    split at hj
    · next he =>
      subst he
      have hd : ⟨c.stamp, a⟩ = d := by simpa [hi] using hj
      exact ⟨c, hc, by rw [← hd]⟩
    · exact ⟨d, hj, rfl⟩
  have hrecords : (t.write i c a).records = t.records := by rw [hrun]; rfl
  have hlevels : (t.write i c a).levels = t.levels := by rw [hrun]
  refine ⟨?_, hw.clock, hw.labels, fun hne => congrArg tape (hw.close hne)⟩
  constructor
  · exact hw.tracked
  · rw [hlevels, hw.size]
    exact hd.reach
  · rw [hrecords, hw.size]
    exact hd.there
  · intro j d hj
    rw [hrecords]
    obtain ⟨e, he, hstamp⟩ := hget j d hj
    obtain ⟨hlt, hfall⟩ := List.pairwise_cons.1 (hd.falling j e he)
    exact List.pairwise_cons.2 ⟨fun x hx => hstamp ▸ hlt x hx, hfall⟩
  · rw [hlevels]
    intro l ls hl j d hj x hx
    obtain ⟨e, he, hstamp⟩ := hget j d hj
    have hfresh := hd.fresh l ls hl j e he
    cases hf : formers l.changes j with
    | nil =>
      rw [hf] at hx
      cases hx
    | cons y ys =>
      rw [hf, List.dropLast_cons_cons] at hfresh hx
      obtain rfl | hx := List.mem_cons.1 hx
      · rw [← hstamp]
        exact hfresh e List.mem_cons_self
      · exact hfresh x (List.mem_cons_of_mem _ hx)

theorem Dated.write : Rewrites t (t.write i c a) := by
  by_cases hs : c.stamp < t.clock
  · exact hd.write_recorded hc a hs
  · exact hd.write_current hc a hs

end

theorem edits_rewrites : Edits Rewrites where
  trans h h' := by
    refine ⟨h'.dated, h'.clock.trans h.clock, h'.labels.trans h.labels, fun hl => ?_⟩
    exact (h'.close (levels_ne_nil_of_labels h.labels hl)).trans (h.close hl)
  start h := h.dated.rewrites_self
  addInt h := h.dated.addInt
  write h hc := h.dated.write hc
  arrange h ss m bs k := by
    refine ⟨h.dated.congr rfl (Nat.le_refl _), rfl, rfl, fun _ => tape_close_congr rfl⟩

/-! ## Levels -/

theorem Dated.save (hd : t.Dated) : t.save.Dated := by
  constructor
  · refine ⟨fun i c hi => (hd.stamp_le i c hi).trans (Nat.le_succ _), fun l hl => ?_,
      fun l ls hl i hi c hc hle => ?_⟩
    · obtain rfl | hl := List.mem_cons.1 hl
      · exact Nat.le_refl _
      · exact (hd.clock_le l hl).trans (Nat.le_succ _)
    · obtain ⟨rfl, -⟩ := List.cons.inj hl
      have hstamp := hd.stamp_le i c hc
      have hle : t.clock + 1 ≤ c.stamp := hle
      omega
  · intro l ls hl
    obtain ⟨rfl, -⟩ := List.cons.inj hl
    exact Nat.le_refl _
  · exact hd.there
  · exact hd.falling
  · intro l ls hl i c _ x hx
    obtain ⟨rfl, -⟩ := List.cons.inj hl
    cases hx

theorem tape_close_save (t : Trail) : t.save.close.tape = t.tape := by
  rw [tape_close_of_cons (t := t.save) rfl]
  show (t.cells.take t.cells.size, t.levels, t.baseChanges) = t.tape
  rw [take_size]
  rfl

/-- Closing the levels, from the innermost one on, gives back the cells and the records of these
trails, and each level was opened right after the clock of its trail. -/
inductive Recalls : Trail → List Trail → Prop
  | outside {t : Trail} (hd : t.Dated) (hl : t.levels = []) : Recalls t []
  | within {t u : Trail} {us : List Trail} {l : Level} (hd : t.Dated)
      (hl : t.levels = l :: u.levels) (hclock : l.clock = u.clock + 1)
      (hcells : l.extent.cells = u.cells.size) (hclose : t.close.tape = u.tape)
      (hu : Recalls u us) : Recalls t (u :: us)

namespace Recalls

variable {us : List Trail} {u v : Trail} {n : Nat}

theorem dated (h : Recalls t us) : t.Dated := by
  cases h with
  | outside hd _ => exact hd
  | within hd _ _ _ _ _ => exact hd

theorem start : Recalls empty [] := by
  refine .outside ⟨valid_empty.sound.tracked, fun l ls h => ?_, fun c h => ?_, fun i c h => ?_,
    fun l ls h => ?_⟩ rfl
  · cases h
  · cases h
  · simp [empty] at h
  · cases h

/-- `Recalls` is kept by a later clock. -/
theorem congr (h : Recalls u us) (ht : t.tape = u.tape) (hc : u.clock ≤ t.clock) :
    Recalls t us := by
  have hlevels := (tape_eq ht).2.1
  cases h with
  | outside hd hl => exact .outside (hd.congr ht hc) (hlevels.trans hl)
  | within hd hl hclock hcells hclose hu =>
    exact .within (hd.congr ht hc) (hlevels.trans hl) hclock hcells
      ((tape_close_congr ht).trans hclose) hu

theorem rewrites (h : Recalls t us) (hr : Rewrites t t') : Recalls t' us := by
  cases h with
  | outside hd hl =>
    refine .outside hr.dated ?_
    have hlabels := hr.labels
    rwa [labels, labels, hl, List.map_nil, List.map_eq_nil_iff] at hlabels
  | @within _ u us l hd hl hclock hcells hclose hu =>
    have hne : t.levels ≠ [] := by simp [hl]
    obtain ⟨l', ls', hl'⟩ := List.exists_cons_of_ne_nil (levels_ne_nil_of_labels hr.labels hne)
    have hclose' := (hr.close hne).trans hclose
    have hls : ls' = u.levels := by
      rw [← levels_close_of_cons hl']
      exact (tape_eq hclose').2.1
    have hlabel : (l'.clock, l'.extent) = (l.clock, l.extent) := by
      have hlabels := hr.labels
      rw [labels_of_cons hl', labels_of_cons hl] at hlabels
      exact (List.cons.inj hlabels).1
    obtain ⟨hc, he⟩ := Prod.mk.inj hlabel
    exact .within hr.dated (hls ▸ hl') (hc.trans hclock) (by rw [he, hcells]) hclose' hu

theorem save (h : Recalls t us) : Recalls t.save (t :: us) :=
  .within h.dated.save rfl rfl rfl (tape_close_save t) h

theorem close (h : Recalls t us) : Recalls t.close us.tail := by
  cases h with
  | outside hd hl =>
    rw [close_of_nil hl]
    exact .outside hd hl
  | @within _ u us l hd hl hclock hcells hclose hu =>
    have hle : l.clock ≤ t.clock := hd.clock_le l (by rw [hl]; exact List.mem_cons_self)
    refine hu.congr hclose ?_
    rw [clock_close]
    omega

theorem closeMany (h : Recalls t us) (n : Nat) : Recalls (t.closeMany n) (us.drop n) := by
  induction n generalizing t us with
  | zero => exact h
  | succ n ih =>
    have := ih h.close
    rwa [← List.drop_one, List.drop_drop, Nat.add_comm 1 n] at this

end Recalls

/-- `Recalls` is kept by any call. -/
theorem recalls_after (h : History) (c : Call) (hr : Recalls h.now h.opened) :
    Recalls (h.after c).now (h.after c).opened := by
  unfold History.after
  cases ho : c.opens with
  | true =>
    rw [Call.after_opens ho, History.opened_save (depth_save _)]
    exact hr.save
  | false =>
    cases hc : c.closes with
    | true =>
      obtain ⟨n, hn, ht⟩ := Call.after_closes hc h.now
      rw [ht, History.opened_close (depth_closeMany _ n) hn]
      exact hr.closeMany n
    | false =>
      have hw := Call.edits edits_rewrites ho hc h.now hr.dated.rewrites_self
      rw [History.opened_same (depth_of_labels hw.labels)]
      exact hr.rewrites hw

theorem recalls_ofCalls (cs : List Call) :
    Recalls (History.ofCalls cs).now (History.ofCalls cs).opened :=
  History.inv_ofCalls (P := fun h => Recalls h.now h.opened) Recalls.start recalls_after cs

/-! ## What has been opened -/

namespace Recalls

variable {us : List Trail} {u v : Trail} {n : Nat}

/-- Each trail on which a level was opened recalls the levels around it. -/
theorem drop (h : Recalls t us) (hv : (t :: us)[n]? = some v) :
    Recalls v (us.drop n) ∧ v.levels = t.levels.drop n := by
  induction n generalizing t us with
  | zero =>
    cases hv
    exact ⟨h, rfl⟩
  | succ n ih =>
    cases h with
    | outside _ _ => cases hv
    | within hd hl _ _ _ hu =>
      obtain ⟨hrest, hlevels⟩ := ih hu hv
      rw [hl]
      exact ⟨hrest, hlevels⟩

/-- `undo` of the records since a level was opened gives back its cells. -/
theorem undo_since (h : Recalls t us) (hu : us[n]? = some u) : u.cells.size ≤ t.cells.size ∧
    ∀ i < u.cells.size, (undo t.cells (t.since n))[i]? = u.cells[i]? := by
  induction n generalizing t us with
  | zero =>
    cases h with
    | outside _ _ => cases hu
    | @within _ v us l hd hl _ hcells hclose _ =>
      cases hu
      have hreach := hd.reach l _ hl
      refine ⟨by omega, fun i hi => ?_⟩
      rw [tape_close_of_cons hl] at hclose
      obtain ⟨htake, -⟩ := Prod.mk.inj hclose
      rw [← htake, getElem?_take, if_pos (by omega), since, hl]
      simp
  | succ n ih =>
    cases h with
    | outside _ _ => cases hu
    | @within _ v us l hd hl _ hcells hclose hv =>
      obtain ⟨hle, hundo⟩ := ih hv hu
      have hreach := hd.reach l _ hl
      refine ⟨by omega, fun i hi => ?_⟩
      rw [tape_close_of_cons hl] at hclose
      obtain ⟨htake, -⟩ := Prod.mk.inj hclose
      have hsince : t.since (n + 1) = l.changes ++ v.since n := by
        rw [since, since, hl, List.take_succ_cons, List.flatMap_cons]
      rw [hsince, undo_append, ← hundo i hi]
      refine undo_agree (e := v.cells.size) _ (.inr ⟨Nat.le_refl _, ?_⟩) (fun j hj => ?_) i ?_
      · rw [size_undo]
        omega
      · rw [← htake, getElem?_take, if_pos (by omega)]
      · omega

end Recalls

/-- The invariant of stamps and records by which a cell whose stamp is not behind the clock need not
be recorded. -/
structure History.Stamped (h : History) : Prop where
  /-- There is one trail for each open level. -/
  nested : h.Nested
  stamp_le : ∀ (i : Nat) (c : Cell), h.now.cells[i]? = some c → c.stamp ≤ h.now.clock
  /-- Only cells of the trail are recorded. -/
  there : ∀ c ∈ h.now.records, c.cell < h.now.cells.size
  /-- The stamps of a cell are falling from its own to the oldest recorded one. -/
  falling : ∀ (i : Nat) (c : Cell), h.now.cells[i]? = some c →
    (c :: formers h.now.records i).Pairwise fun x y => y.stamp < x.stamp
  /-- A cell stamped with the clock is new in the innermost level, or recorded there. -/
  covered : ∀ l ls u us, h.now.levels = l :: ls → h.opened = u :: us →
    ∀ (i : Nat) (c : Cell), h.now.cells[i]? = some c → c.stamp = h.now.clock →
      u.cells.size ≤ i ∨ ∃ x ∈ l.changes, x.cell = i
  /-- The oldest record since a level was opened is the cell at that time. -/
  oldest : ∀ n u, h.opened[n]? = some u → ∀ (i : Nat) (c : Cell), u.cells[i]? = some c →
    ∀ x, (formers (h.now.since n) i).getLast? = some x → x = c
  /-- A cell that is not recorded since then is unchanged. -/
  untouched : ∀ n u, h.opened[n]? = some u → ∀ (i : Nat) (c : Cell), u.cells[i]? = some c →
    formers (h.now.since n) i = [] → h.now.cells[i]? = some c

theorem Recalls.stamped {h : History} (hr : Recalls h.now h.opened) (hn : h.Nested) :
    h.Stamped := by
  have hd := hr.dated
  -- What undoing gives back is the last of what the cell has held since.
  have hlast : ∀ n u, h.opened[n]? = some u → ∀ (i : Nat) (c : Cell), u.cells[i]? = some c →
      ∃ x, h.now.cells[i]? = some x ∧ (x :: formers (h.now.since n) i).getLast? = some c := by
    intro n u hu i c hc
    obtain ⟨hle, hundo⟩ := hr.undo_since hu
    have hi : i < u.cells.size := (Array.getElem?_eq_some_iff.1 hc).1
    have hx : h.now.cells[i]? = some h.now.cells[i] := Array.getElem?_eq_getElem (by omega)
    refine ⟨_, hx, ?_⟩
    rw [← getElem?_undo _ hx, hundo i hi, hc]
  refine ⟨hn, hd.stamp_le, hd.there, hd.falling, fun l ls u us hl hu i c hc hstamp => ?_,
    fun n u hu i c hc x hx => ?_, fun n u hu i c hc hnil => ?_⟩
  · rw [hu] at hr
    cases hr with
    | @within _ _ _ l' _ hl' _ hcells _ _ =>
      obtain ⟨rfl, -⟩ := List.cons.inj (hl'.symm.trans hl)
      by_cases hi : i < l'.extent.cells
      · refine .inr (hd.covers l' _ hl' i hi c hc ?_)
        rw [hstamp]
        exact hd.clock_le l' (by rw [hl']; exact List.mem_cons_self)
      · exact .inl (by omega)
  · obtain ⟨y, -, hy⟩ := hlast n u hu i c hc
    rw [List.getLast?_cons, hx] at hy
    exact Option.some.inj hy
  · obtain ⟨y, hy, hc'⟩ := hlast n u hu i c hc
    rw [hnil] at hc'
    cases hc'
    exact hy

/-- After any calls the history is `Stamped`: no stamp is ahead of the clock, the stamps of a cell
rise along the trail, a cell stamped with the clock need not be recorded, and the oldest record of a
cell in a level and those within it is its content when the level was opened. -/
theorem stamps_sound (cs : List Call) : (History.ofCalls cs).Stamped :=
  (recalls_ofCalls cs).stamped (History.nested_ofCalls cs)

end Trail

end Propagation
