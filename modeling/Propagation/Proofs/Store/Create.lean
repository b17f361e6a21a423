import Mathlib.Data.Finset.Prod
import Propagation.Proofs.Store.Change
import Propagation.Proofs.Trail.Create

/-!
# Creating variables

A new variable takes the next index and has the domain that its shape says (`Shape.dom`); its sets
are new ones of the trail, so the other variables keep their domains, and so do the open levels.
-/

set_option autoImplicit false

namespace Propagation

/-- The integers from `lo` to `hi`. -/
def intsBetween (lo hi : Int) : Finset Int :=
  (Finset.range (hi - lo + 1).toNat).image fun v : Nat => lo + (v : Int)

theorem mem_intsBetween {lo hi a : Int} : a ∈ intsBetween lo hi ↔ lo ≤ a ∧ a ≤ hi := by
  rw [intsBetween, Finset.mem_image]
  simp only [Finset.mem_range]
  constructor
  · rintro ⟨k, hk, rfl⟩
    omega
  · exact fun ha => ⟨(a - lo).toNat, by omega, by omega⟩

/-- The domain of a new variable. -/
def Shape.dom : Shape → Dom
  | .interval lo hi => .int (intsBetween lo hi)
  | .subsets n => .set n ⟨∅, (Finset.range n).image .value⟩
  | .digraphs n => .graph n ⟨∅, (Finset.range n).image .node ∪
      (Finset.range n ×ˢ Finset.range n).image fun p => .arc p.1 p.2⟩

/-- The offset of a new variable, if it is an integer. -/
def Shape.start : Shape → Option Int
  | .interval lo _ => some lo
  | .subsets _ => none
  | .digraphs _ => none

namespace Domain

variable {w w' : View} {d : Domain} {D : Dom} {i : Nat}

theorem exists_sparse (h : d.resolve w = some D) (hi : i ∈ d.sparseRefs) :
    ∃ x, w.sparse i = some x := by
  cases d with
  | int r =>
    obtain ⟨x, hx, -⟩ := Option.map_eq_some_iff.1 h
    rw [List.mem_singleton.1 hi]
    exact ⟨x, hx⟩
  | set r => cases hi
  | graph nodes rows => cases hi

theorem exists_bounded (h : d.resolve w = some D) (hi : i ∈ d.boundedRefs) :
    ∃ x, w.bounded i = some x := by
  cases d with
  | int r => cases hi
  | set r =>
    obtain ⟨x, hx, -⟩ := Option.map_eq_some_iff.1 h
    rw [List.mem_singleton.1 hi]
    exact ⟨x, hx⟩
  | graph nodes rows =>
    rw [resolve] at h
    split at h
    · next hcap =>
      obtain ⟨x, hx, -⟩ := Option.map_eq_some_iff.1 (hcap i hi)
      exact ⟨x, hx⟩
    · cases h

/-- A domain keeps its meaning in a view `w'` that has all sets of `w`. -/
theorem resolve_of_le (hs : ∀ i x, w.sparse i = some x → w'.sparse i = some x)
    (hb : ∀ i x, w.bounded i = some x → w'.bounded i = some x) (h : d.resolve w = some D) :
    d.resolve w' = some D := by
  rw [← h]
  refine resolve_congr (fun i hi => ?_) fun i hi => ?_
  · obtain ⟨x, hx⟩ := exists_sparse h hi
    rw [hs i x hx, hx]
  · obtain ⟨x, hx⟩ := exists_bounded h hi
    rw [hb i x hx, hx]

end Domain

namespace Store

open Update

variable {s : Store} {v : Var} {D : Dom}

/-- The store after the variable `v` has been created with the domain `D`. Nothing else has changed.
-/
structure Created (s : Store) (v : Var) (D : Dom) (s' : Store) : Prop where
  valid : s'.Valid
  id_eq : v.id = s.countIn s.trail.view
  scene : s'.scene = Function.update s.scene v (some D)
  saved : s'.saved = s.saved
  past : s'.trail.past = s.trail.past
  clock : s'.trail.clock = s.trail.clock
  ints : s'.trail.view.int = Function.update s.trail.view.int s.alive.index
    (some ((s.countIn s.trail.view + 1 : Nat) : Int))
  rooted : Rooted s s'
  alive : s'.alive = s.alive
  epoch : s'.epoch = s.epoch
  running : s'.running = s.running
  sink : s'.sink = s.sink
  log : s'.logOf v = []
  log_ne : ∀ u, s.scene u ≠ none → s'.logOf u = s.logOf u

theorem Valid.countIn_past (hs : s.Valid) {p : Nat × View} (hp : p ∈ s.trail.past) :
    s.countIn p.2 ≤ s.countIn s.trail.view :=
  (List.pairwise_cons.1 hs.counts).1 p.2 (List.mem_map_of_mem hp)

theorem Created.self {s' : Store} (h : Created s v D s') : s'.scene v = some D := by
  rw [h.scene, Function.update_self]

theorem Created.evolves {s' : Store} (h : Created s v D s') : Evolves s s' where
  valid := h.valid
  past := h.past
  clock := h.clock
  saved := h.saved
  alive := h.alive
  ints i hi := by rw [h.ints, Function.update_of_ne hi]
  rooted := h.rooted
  scene u E hu := by
    have hlt := (scene_eq_some.1 hu).1
    have hne : u ≠ v := by
      rintro rfl
      rw [h.id_eq] at hlt
      exact absurd hlt (Nat.lt_irrefl _)
    exact ⟨E, by rw [h.scene, Function.update_of_ne hne, hu], .refl E⟩

/-- The store with the trail `t` and the domain `d` in the slot after the live variables. -/
def withDomain (s : Store) (t : Trail) (d : Domain) : Store :=
  { s with trail := t, domains := (s.domains.take (s.countIn s.trail.view)).push d
           logs := (s.logs.take (s.countIn s.trail.view)).push .empty }

theorem getElem?_take_push {α : Type} {xs : Array α} {n : Nat} (hn : n ≤ xs.size) (x : α)
    (i : Nat) : ((xs.take n).push x)[i]? = if i = n then some x else if i < n then xs[i]?
      else none := by
  have hsize : (xs.take n).size = n := by simp [Array.take_eq_extract, hn]
  rw [Array.getElem?_push, hsize, Trail.getElem?_take]

/-- The offset of a new variable is that of its set. -/
theorem offset_withDomain {t : Trail} {d : Domain} (hlive : (s.withDomain t d).scene v = some D)
    (hv : v.id = s.countIn s.trail.view) (hle : s.countIn s.trail.view ≤ s.domains.size) :
    (s.withDomain t d).offset v = d.offset t.view := by
  have hd : (s.withDomain t d).domains[v.id]? = some d := by
    rw [withDomain]
    exact (getElem?_take_push hle d v.id).trans (if_pos hv)
  rw [offset, offsetIn, if_pos (scene_eq_some.1 hlive).1, hd]
  rfl

/-- The trail `t` differs from that of `s` at most by new sets, and by integer cells other than the
one that counts the variables. -/
structure Widens (s : Store) (t : Trail) : Prop where
  turns : Trail.Turns s.trail t.view t
  count : t.view.int s.alive.index = s.trail.view.int s.alive.index
  sparse : ∀ i x, s.trail.view.sparse i = some x → t.view.sparse i = some x
  bounded : ∀ i x, s.trail.view.bounded i = some x → t.view.bounded i = some x

theorem Widens.trans {t t' : Trail} (h : s.Widens t) (h' : ({ s with trail := t } : Store).Widens t') :
    s.Widens t' where
  turns := h.turns.trans h'.turns
  count := h'.count.trans h.count
  sparse i x hx := h'.sparse i x (h.sparse i x hx)
  bounded i x hx := h'.bounded i x (h.bounded i x hx)

theorem Widens.rooted {t : Trail} (h : s.Widens t) : Rooted s { s with trail := t } :=
  ⟨fun _ _ => rfl, fun i x hx => ⟨x, h.sparse i x hx, rfl⟩⟩

/-- Validity, scene and saved scenes do not depend on cells that `Widens` may change, nor on slots
after those of the live variables. -/
theorem Valid.of_agree (hs : s.Valid) {s' : Store} (ht : s.Widens s'.trail)
    (halive : s'.alive = s.alive) (hsize : s'.logs.size = s'.domains.size)
    (hle : s.countIn s.trail.view ≤ s'.domains.size)
    (hdom : ∀ i < s.countIn s.trail.view, s'.domains[i]? = s.domains[i]?)
    (hlog : ∀ i < s.countIn s.trail.view, s'.logs[i]? = s.logs[i]?) :
    s'.Valid ∧ s'.scene = s.scene ∧ s'.saved = s.saved := by
  have hcountIn : ∀ w, s'.countIn w = s.countIn w := fun w => by rw [countIn, countIn, halive]
  have hcount : s'.countIn s'.trail.view = s.countIn s.trail.view := by
    rw [countIn, countIn, halive, ht.count]
  have hpast := ht.turns.past
  have hplaced : ∀ i < s.countIn s.trail.view, ∀ d, s'.domains[i]? = some d → ∃ D,
      d.resolve s.trail.view = some D ∧ d.resolve s'.trail.view = some D ∧ D.Wf := by
    intro i hi d hd
    obtain ⟨D, hD, hwf⟩ := hs.now.placed i hi d (hdom i hi ▸ hd)
    exact ⟨D, hD, Domain.resolve_of_le ht.sparse ht.bounded hD, hwf⟩
  have hscene : s'.scene = s.scene := by
    funext v
    rw [scene, scene, sceneIn, sceneIn, hcount]
    split
    · next hv =>
      rw [hdom _ hv]
      cases hd : s.domains[v.id]? with
      | none => rfl
      | some d =>
        obtain ⟨D, hD, hD', -⟩ := hplaced v.id hv d (hdom _ hv ▸ hd)
        rw [Option.bind_some, Option.bind_some, hD, hD']
    · rfl
  have hsaved : ∀ p ∈ s.trail.past, s'.sceneIn p.2 = s.sceneIn p.2 := fun p hp => by
    funext v
    rw [sceneIn, sceneIn, hcountIn]
    split
    · next hv => rw [hdom _ (hv.trans_le (hs.countIn_past hp))]
    · rfl
  refine
    ⟨{ trail := ht.turns.valid
       logs_size := hsize
       now := ?_
       past := ?_
       counts := ?_
       nodup := fun i hi d hd => ?_
       apart := fun i j hi hj hij d d' hd hd' => ?_
       logs := fun v D hv x hx => ?_ }, hscene, ?_⟩
  · obtain ⟨n, hn, hlt, -⟩ := hs.now.count
    have hnc : s.countIn s.trail.view = n := by
      rw [countIn, hn]
      rfl
    refine ⟨⟨n, by rw [halive, ht.count, hn], hlt, hnc ▸ hle⟩, fun i hi d hd => ?_⟩
    obtain ⟨D, -, hD, hwf⟩ := hplaced i (hcount ▸ hi) d hd
    exact ⟨D, hD, hwf⟩
  · rw [hpast]
    intro p hp
    obtain ⟨n, hn, hlt, -⟩ := (hs.past p hp).count
    have hnc : s.countIn p.2 = n := by
      rw [countIn, hn]
      rfl
    have hp' := hs.countIn_past hp
    refine ⟨⟨n, by rw [halive, hn], hlt, by omega⟩, fun i hi d hd => ?_⟩
    rw [hcountIn] at hi
    exact (hs.past p hp).placed i hi d (hdom i (hi.trans_le hp') ▸ hd)
  · have hcounts := hs.counts
    simp only [hcountIn, hpast]
    refine List.pairwise_cons.2 ⟨fun w hw => ?_, (List.pairwise_cons.1 hcounts).2⟩
    rw [← hcountIn s'.trail.view, hcount]
    exact (List.pairwise_cons.1 hcounts).1 w hw
  · rw [hcount] at hi
    exact hs.nodup i hi d (hdom i hi ▸ hd)
  · rw [hcount] at hi hj
    exact hs.apart i j hi hj hij d d' (hdom i hi ▸ hd) (hdom j hj ▸ hd')
  · rw [hscene] at hv
    rw [logOf, hlog _ (scene_eq_some.1 hv).1] at hx
    exact hs.logs v D hv x hx
  · rw [saved, saved, hpast]
    exact List.map_congr_left fun p hp => Prod.ext rfl (hsaved p hp)

section
variable (hs : s.Valid) {t : Trail} (hw : s.Widens t)
include hs hw

theorem Widens.valid : ({ s with trail := t } : Store).Valid ∧
    ({ s with trail := t } : Store).scene = s.scene ∧
    ({ s with trail := t } : Store).saved = s.saved :=
  hs.of_agree hw rfl hs.logs_size hs.now.countIn_eq.2.2 (fun _ _ => rfl) fun _ _ => rfl

variable (hint : t.view.int = s.trail.view.int)
include hint

theorem Widens.evolves : Evolves s { s with trail := t } := by
  obtain ⟨hvalid, hscene, hsaved⟩ := hw.valid hs
  exact ⟨hvalid, hw.turns.past, hw.turns.clock, hsaved, rfl, fun i _ => congrFun hint i, hw.rooted,
    fun v D hv => ⟨D, by rw [hscene, hv], .refl D⟩⟩

/-- A slot after those of the live variables may be filled without creating a variable. -/
theorem Widens.evolves_withDomain (d : Domain) : Evolves s (s.withDomain t d) := by
  obtain ⟨-, -, hle⟩ := hs.now.countIn_eq
  have hlogs := hs.logs_size
  have hwide : s.Widens (s.withDomain t d).trail := hw
  obtain ⟨hvalid, hscene, hsaved⟩ := hs.of_agree hwide rfl
    (by simp [withDomain, Array.take_eq_extract, hlogs])
    (by simp [withDomain, Array.take_eq_extract, hle])
    (fun i hi => (getElem?_take_push hle d i).trans (by rw [if_neg (by omega), if_pos hi]))
    fun i hi => (getElem?_take_push (hlogs ▸ hle) _ i).trans
      (by rw [if_neg (by omega), if_pos hi])
  have hrooted : Rooted s (s.withDomain t d) := by
    refine ⟨fun v hv => (getElem?_take_push hle d v.id).trans ?_, fun i x hx => ⟨x, hw.sparse i x hx, rfl⟩⟩
    have hlt := (hs.ne_none_iff v).1 hv
    rw [if_neg (by omega), if_pos hlt]
  exact ⟨hvalid, hw.turns.past, hw.turns.clock, hsaved, rfl, fun i _ => congrFun hint i, hrooted,
    fun v D hv => ⟨D, by rw [hscene, hv], .refl D⟩⟩

end

section
variable (hs : s.Valid) {t : Trail} (ht : Trail.Turns s.trail t.view t)
  (hint : t.view.int = s.trail.view.int)
  (hsp : ∀ i x, s.trail.view.sparse i = some x → t.view.sparse i = some x)
  (hbo : ∀ i x, s.trail.view.bounded i = some x → t.view.bounded i = some x)
  {d : Domain} (hD : d.resolve t.view = some D) (hwf : D.Wf)
  (hnews : ∀ i ∈ d.sparseRefs, s.trail.view.sparse i = none)
  (hnewb : ∀ i ∈ d.boundedRefs, s.trail.view.bounded i = none) (hnd : d.boundedRefs.Nodup)
include hs ht hint hsp hbo hD hwf hnews hnewb hnd

/-- With the domain in its slot, counting one more variable creates it. -/
theorem Valid.withDomain {t' : Trail} (hlt : s.countIn s.trail.view + 1 < 2 ^ 63)
    (ht' : Trail.Turns t
      (t.view.setInt s.alive.index ((s.countIn s.trail.view + 1 : Nat) : Int)) t') :
    Created s ⟨s.countIn s.trail.view⟩ D (s.withDomain t' d) := by
  obtain ⟨-, -, hle⟩ := hs.now.countIn_eq
  have hpastle := fun p (hp : p ∈ s.trail.past) => hs.countIn_past hp
  have hpast : t'.past = s.trail.past := ht'.past.trans ht.past
  generalize hn : s.countIn s.trail.view = n at *
  have hdom : ∀ i, (s.withDomain t' d).domains[i]? =
      if i = n then some d else if i < n then s.domains[i]? else none := by
    intro i
    rw [Store.withDomain, hn]
    exact getElem?_take_push hle d i
  have hlog : ∀ i, (s.withDomain t' d).logs[i]? =
      if i = n then some .empty else if i < n then s.logs[i]? else none := by
    intro i
    rw [Store.withDomain, hn]
    exact getElem?_take_push (hs.logs_size ▸ hle) _ i
  have hcount : (s.withDomain t' d).countIn t'.view = n + 1 := by
    rw [countIn, ht'.view]
    show ((t.view.setInt s.alive.index _).int s.alive.index |>.getD 0).toNat = _
    rw [View.setInt_self]
    rfl
  have hcountIn : ∀ w, (s.withDomain t' d).countIn w = s.countIn w := fun w => rfl
  have hres : ∀ d' : Domain, d'.resolve t'.view = d'.resolve t.view := fun d' =>
    Domain.resolve_congr (fun i _ => by rw [ht'.view]; rfl) fun i _ => by rw [ht'.view]; rfl
  -- the old variables keep their domains
  have hold : ∀ (i : Nat) (d' : Domain) (D' : Dom), s.domains[i]? = some d' →
      d'.resolve s.trail.view = some D' → d'.resolve t'.view = some D' := fun i d' D' _ hD' =>
    (hres d').trans (Domain.resolve_of_le hsp hbo hD')
  have hplaced : ∀ i < n, ∀ d', s.domains[i]? = some d' →
      ∃ D', d'.resolve s.trail.view = some D' ∧ D'.Wf :=
    fun i hi d' hd' => hs.now.placed i (hn ▸ hi) d' hd'
  have hscene : (s.withDomain t' d).scene = Function.update s.scene ⟨n⟩ (some D) := by
    funext u
    show (s.withDomain t' d).sceneIn t'.view u = _
    rw [sceneIn, hcount, hdom]
    by_cases hu : u = ⟨n⟩
    · subst hu
      rw [Function.update_self, if_pos (Nat.lt_succ_self n), if_pos rfl, Option.bind_some, hres]
      exact hD
    · have hne : u.id ≠ n := fun h => hu (by cases u; cases h; rfl)
      rw [Function.update_of_ne hu, if_neg hne, scene, sceneIn, hn]
      by_cases hlt' : u.id < n
      · rw [if_pos (Nat.lt_succ_of_lt hlt'), if_pos hlt', if_pos hlt']
        cases hd' : s.domains[u.id]? with
        | none => rfl
        | some d' =>
          obtain ⟨D', hD', -⟩ := hplaced u.id hlt' d' hd'
          rw [Option.bind_some, Option.bind_some, hD', hold u.id d' D' hd' hD']
      · rw [if_neg (by omega), if_neg hlt']
  have hhouses : ∀ p ∈ s.trail.past, (s.withDomain t' d).Houses p.2 := by
    intro p hp
    have hle' := hpastle p hp
    obtain ⟨m, hm, hm63, hmle⟩ := (hs.past p hp).count
    have hsize : (s.withDomain t' d).domains.size = n + 1 := by
      rw [Store.withDomain, hn]
      simp [Array.take_eq_extract, hle]
    have hmc : s.countIn p.2 = m := by
      rw [countIn, hm]
      rfl
    refine ⟨⟨m, hm, hm63, by omega⟩, fun i hi d' hd' => (hs.past p hp).placed i hi d' ?_⟩
    have hin : i < n := Nat.lt_of_lt_of_le hi hle'
    rwa [hdom, if_neg (by omega), if_pos hin] at hd'
  have hvalid : (s.withDomain t' d).Valid :=
    { trail := ht'.valid
      logs_size := by
        have hsize := hs.logs_size
        simp [Store.withDomain, hn, Array.take_eq_extract, hsize]
      now := by
        refine ⟨⟨n + 1, ?_, hlt, ?_⟩, fun i hi d' hd' => ?_⟩
        · show t'.view.int s.alive.index = _
          rw [ht'.view, View.setInt_self]
        · simp [Store.withDomain, hn, Array.take_eq_extract, hle]
        · change i < (s.withDomain t' d).countIn t'.view at hi
          rw [hcount] at hi
          rw [hdom] at hd'
          by_cases hin : i = n
          · rw [if_pos hin] at hd'
            cases hd'
            exact ⟨D, (hres d).trans hD, hwf⟩
          · rw [if_neg hin, if_pos (by omega)] at hd'
            obtain ⟨D', hD', hwf'⟩ := hplaced i (by omega) d' hd'
            exact ⟨D', hold i d' D' hd' hD', hwf'⟩
      past := by
        show ∀ p ∈ t'.past, _
        rw [hpast]
        exact hhouses
      counts := by
        show (t'.view :: t'.past.map (·.2)).Pairwise fun w w' => s.countIn w' ≤ s.countIn w
        rw [hpast]
        obtain ⟨h1, h2⟩ := List.pairwise_cons.1 hs.counts
        refine List.pairwise_cons.2 ⟨fun w hw => ?_, h2⟩
        have hle' := h1 w hw
        rw [← hcountIn t'.view, hcount]
        omega
      nodup := by
        show ∀ i < (s.withDomain t' d).countIn t'.view, _
        rw [hcount]
        intro i hi d' hd'
        rw [hdom] at hd'
        by_cases hin : i = n
        · rw [if_pos hin] at hd'
          cases hd'
          exact hnd
        · rw [if_neg hin, if_pos (by omega)] at hd'
          exact hs.nodup i (by omega) d' hd'
      apart := by
        show ∀ i j, i < (s.withDomain t' d).countIn t'.view →
          j < (s.withDomain t' d).countIn t'.view → _
        rw [hcount]
        -- an old domain uses old sets only
        have hfresh : ∀ j < n, ∀ d', s.domains[j]? = some d' →
            d.sparseRefs.Disjoint d'.sparseRefs ∧ d.boundedRefs.Disjoint d'.boundedRefs := by
          intro j hj d' hd'
          obtain ⟨D', hD', -⟩ := hplaced j hj d' hd'
          refine ⟨fun i hi hi' => ?_, fun i hi hi' => ?_⟩
          · obtain ⟨x, hx⟩ := Domain.exists_sparse hD' hi'
            rw [hnews i hi] at hx
            cases hx
          · obtain ⟨x, hx⟩ := Domain.exists_bounded hD' hi'
            rw [hnewb i hi] at hx
            cases hx
        intro i j hi hj hij d₁ d₂ hd₁ hd₂
        rw [hdom] at hd₁ hd₂
        by_cases hin : i = n
        · rw [if_pos hin] at hd₁
          cases hd₁
          rw [if_neg (by omega), if_pos (by omega)] at hd₂
          exact hfresh j (by omega) d₂ hd₂
        · rw [if_neg hin, if_pos (by omega)] at hd₁
          by_cases hjn : j = n
          · rw [if_pos hjn] at hd₂
            cases hd₂
            obtain ⟨h1, h2⟩ := hfresh i (by omega) d₁ hd₁
            exact ⟨h1.symm, h2.symm⟩
          · rw [if_neg hjn, if_pos (by omega)] at hd₂
            exact hs.apart i j (by omega) (by omega) hij d₁ d₂ hd₁ hd₂
      logs := by
        intro u E hu x hx
        rw [hscene] at hu
        rw [logOf, hlog] at hx
        by_cases hun : u = ⟨n⟩
        · subst hun
          rw [if_pos rfl] at hx
          cases hx
        · have hne : u.id ≠ n := fun h => hun (by cases u; cases h; rfl)
          rw [Function.update_of_ne hun] at hu
          have hlt' := (scene_eq_some.1 hu).1
          rw [if_neg hne, if_pos (by omega)] at hx
          exact hs.logs u E hu x hx }
  refine
    { valid := hvalid
      id_eq := hn.symm
      scene := hscene
      saved := ?_
      past := hpast
      clock := ht'.clock.trans ht.clock
      ints := ?_
      rooted := ⟨fun u hu => ?_, fun i x hx => ⟨x, ?_, rfl⟩⟩
      alive := rfl
      epoch := rfl
      running := rfl
      sink := rfl
      log := ?_
      log_ne := fun u hu => ?_ }
  · show t'.past.map _ = s.trail.past.map _
    rw [hpast]
    refine List.map_congr_left fun p hp => Prod.ext rfl (funext fun u => ?_)
    show (s.withDomain t' d).sceneIn p.2 u = s.sceneIn p.2 u
    have hle' := hpastle p hp
    rw [sceneIn, sceneIn, hcountIn]
    split
    · rw [hdom, if_neg (by omega), if_pos (by omega)]
    · rfl
  · show t'.view.int = _
    rw [ht'.view, ← hint, hn]
    rfl
  · have hlt' := (hs.ne_none_iff u).1 hu
    rw [hdom, if_neg (by omega), if_pos (by omega)]
  · show t'.view.sparse i = _
    rw [ht'.view]
    exact hsp i x hx
  · rw [logOf, hlog, if_pos rfl]
    rfl
  · have hlt' := (hs.ne_none_iff u).1 hu
    rw [logOf, logOf, hlog, if_neg (by omega), if_pos (by omega)]

theorem Valid.register_ends :
    Ends (register d) { s with trail := t }
      (fun v s' => Created s v D s' ∧ s'.offset v = d.offset t.view)
      fun e s' => e = .overflow ∧ Evolves s s' := by
  obtain ⟨hcount, hlt, hle⟩ := hs.now.countIn_eq
  have hcount' : t.view.int s.alive.index = some ((s.countIn s.trail.view : Nat) : Int) := by
    rw [hint, hcount]
  have hvars : ({ s with trail := t } : Store).varCount = s.countIn s.trail.view := by
    rw [varCount, IntRef.getNat_eq (Trail.view_int.1 hcount').2 (by omega)]
  have hrun : register d { s with trail := t } =
      (do discard (onTrail s.alive.increment); pure ⟨s.countIn s.trail.view⟩ : Op Var)
        (s.withDomain t d) := by
    simp only [register, bind_apply, get_apply, set_apply, hvars]
    rfl
  refine Ends.of_eq ?_ hrun
  cases hc : Checked.int ((s.countIn s.trail.view : Int) + 1) with
  | error e =>
    have hinc : s.alive.increment (s.withDomain t d).trail = .error .overflow t :=
      IntRef.add_overflow hcount' hc
    refine ends_of_error (u := s.withDomain t d) ?_
      ⟨rfl, Widens.evolves_withDomain hs ⟨ht, congrFun hint _, hsp, hbo⟩ hint d⟩
    simp only [bind_apply, discard_apply, onTrail_error hinc]
    rfl
  | ok b =>
    obtain ⟨hrange, rfl⟩ := Checked.int_eq_ok.1 hc
    obtain ⟨t', hinc, ht'⟩ := IntRef.add_free (r := s.alive) ht.valid hcount' hc
    have hinc' : s.alive.increment (s.withDomain t d).trail = .ok _ t' := hinc
    have hcreated := hs.withDomain ht hint hsp hbo hD hwf hnews hnewb hnd (by omega) ht'
    have hoffset := (offset_withDomain hcreated.self hcreated.id_eq hle).trans
      (show d.offset t'.view = d.offset t.view by rw [ht'.view]; rfl)
    refine ends_of_ok (u := s.withDomain t' d) ?_ ⟨hcreated, hoffset⟩
    simp only [bind_apply, discard_apply, onTrail_ok hinc', pure_apply]
    rfl

end

/-! ## New bounded sets -/

/-- The trail has new bounded sets of `n` values at the indices `refs`, and nothing else is new. -/
structure Fresh (t : Trail) (n : Nat) (refs : List Nat) (t' : Trail) : Prop where
  turns : Trail.Turns t t'.view t'
  int : t'.view.int = t.view.int
  sparse : t'.view.sparse = t.view.sparse
  kept : ∀ i x, t.view.bounded i = some x → t'.view.bounded i = some x
  before : ∀ i ∈ refs, t.view.bounded i = none
  after : ∀ i ∈ refs, t'.view.bounded i = some ⟨n, ∅, .range n⟩
  nodup : refs.Nodup

theorem fresh_self {t : Trail} (hv : t.Valid) (n : Nat) : Fresh t n [] t where
  turns := hv.turns_self
  int := rfl
  sparse := rfl
  kept _ _ h := h
  before := nofun
  after := nofun
  nodup := List.nodup_nil

theorem Fresh.widens {t : Trail} {n : Nat} {refs : List Nat} (h : Fresh s.trail n refs t) :
    s.Widens t :=
  ⟨h.turns, congrFun h.int _, fun i x hx => by rw [h.sparse, hx], h.kept⟩

theorem Fresh.newBounded_ends {t t' : Trail} {n : Nat} {refs : List Nat}
    (h : Fresh t n refs t') :
    Ends (Trail.newBounded n) t' (fun r t'' => Fresh t n (refs ++ [r.index]) t'')
      fun e t'' => e = .overflow ∧ t'' = t' := by
  refine (Trail.newBounded_ends h.turns.valid n).mono (fun r t'' hr => ?_) fun _ _ he => he
  obtain ⟨hnone, ht''⟩ := hr
  have hne : ∀ i x, t'.view.bounded i = some x → i ≠ r.index := by
    rintro i x hx rfl
    rw [hnone] at hx
    cases hx
  have hkept : ∀ i x, t'.view.bounded i = some x → t''.view.bounded i = some x :=
    fun i x hx => by rw [ht''.view, View.setBounded_of_ne _ _ (hne i x hx), hx]
  refine
    { turns := h.turns.trans ⟨ht''.valid, rfl, ht''.past, ht''.clock, ht''.close⟩
      int := by rw [ht''.view, ← h.int]; rfl
      sparse := by rw [ht''.view, ← h.sparse]; rfl
      kept := fun i x hx => hkept i x (h.kept i x hx)
      before := fun i hi => ?_
      after := fun i hi => ?_
      nodup := ?_ }
  · rcases List.mem_append.1 hi with hi | hi
    · exact h.before i hi
    · rw [List.mem_singleton.1 hi]
      cases hx : t.view.bounded r.index with
      | none => rfl
      | some x =>
        rw [h.kept _ x hx] at hnone
        cases hnone
  · rcases List.mem_append.1 hi with hi | hi
    · exact hkept i _ (h.after i hi)
    · rw [List.mem_singleton.1 hi, ht''.view, View.setBounded_self]
  · refine List.nodup_append.2 ⟨h.nodup, List.nodup_singleton _, fun i hi j hj => ?_⟩
    rw [List.mem_singleton.1 hj]
    exact hne i _ (h.after i hi)

theorem Fresh.newRows_ends {t t' : Trail} {n : Nat} {refs : List Nat} (h : Fresh t n refs t')
    (k : Nat) :
    Ends (newRows n k) t' (fun rows t'' => rows.size = k ∧
      Fresh t n (refs ++ rows.toList.map BoundedRef.index) t'')
      fun e t'' => e = .overflow ∧ ∃ refs', Fresh t n refs' t'' := by
  induction k with
  | zero => exact ends_of_ok rfl ⟨rfl, by simpa using h⟩
  | succ k ih =>
    refine ih.bind fun rows u ⟨hsize, hu⟩ => ?_
    refine (hu.newBounded_ends.mono (fun _ _ h => h) ?_).bind fun r u' hu' =>
      ends_of_ok (pure_apply _ _) ?_
    · rintro e t'' ⟨rfl, rfl⟩
      exact ⟨rfl, _, hu⟩
    rw [Array.size_push, hsize, Array.toList_push, List.map_append, ← List.append_assoc]
    exact ⟨rfl, hu'⟩

/-- A graph on new bounded sets has an empty kernel, and all nodes and arcs in its envelope. -/
theorem resolve_digraphs {t t' : Trail} {nodes : BoundedRef} {rows : Array BoundedRef}
    (h : Fresh t rows.size (nodes.index :: rows.toList.map BoundedRef.index) t') :
    (Domain.graph nodes rows).resolve t'.view = some (Shape.digraphs rows.size).dom := by
  have hcap : ∀ i ∈ nodes.index :: rows.toList.map BoundedRef.index,
      (t'.view.bounded i).map (·.capacity) = some rows.size := fun i hi => by
    rw [h.after i hi]
    rfl
  have hrow : ∀ (i : Nat) (r : BoundedRef), rows[i]? = some r →
      t'.view.bounded r.index = some ⟨rows.size, ∅, .range rows.size⟩ := fun i r hr =>
    h.after _ (List.mem_cons_of_mem _ (List.mem_map_of_mem
      (Array.mem_toList_iff.2 (Array.mem_of_getElem? hr))))
  have hkernel : Domain.arcs t'.view (·.kernel) rows = ∅ := by
    refine Finset.eq_empty_of_forall_notMem fun e he => ?_
    obtain ⟨i, r, y, j, hr, hy, hj, -⟩ := Domain.mem_arcs.1 he
    rw [hrow i r hr] at hy
    cases hy
    cases hj
  have henvelope : Domain.arcs t'.view (·.envelope) rows =
      (Finset.range rows.size ×ˢ Finset.range rows.size).image fun p => .arc p.1 p.2 := by
    ext e
    rw [Domain.mem_arcs, Finset.mem_image]
    constructor
    · rintro ⟨i, r, y, j, hr, hy, hj, rfl⟩
      rw [hrow i r hr] at hy
      cases hy
      exact ⟨(i, j), Finset.mem_product.2
        ⟨Finset.mem_range.2 (Array.getElem?_eq_some_iff.1 hr).1, hj⟩, rfl⟩
    · rintro ⟨⟨i, j⟩, hij, rfl⟩
      obtain ⟨hi, hj⟩ := Finset.mem_product.1 hij
      have hr := Array.getElem?_eq_getElem (Finset.mem_range.1 hi)
      exact ⟨i, _, _, j, hr, hrow i _ hr, hj, rfl⟩
  rw [Domain.resolve, if_pos hcap, h.after _ List.mem_cons_self, Option.map_some, hkernel,
    henvelope]
  rfl

theorem dom_wf {d : Shape} (h : ∀ lo hi, d = .interval lo hi → lo ≤ hi) : d.dom.Wf := by
  cases d with
  | interval lo hi => exact ⟨lo, mem_intsBetween.2 ⟨le_refl lo, h lo hi rfl⟩⟩
  | subsets n =>
    refine ⟨Finset.empty_subset _, fun e he => ?_, by simp, fun e he => ?_⟩
    · obtain ⟨a, ha, rfl⟩ := Finset.mem_image.1 he
      exact Finset.mem_range.1 ha
    · obtain ⟨a, ha, rfl⟩ := Finset.mem_image.1 he
      exact Finset.singleton_subset_iff.2 he
  | digraphs n =>
    have hground : ∀ e, e ∈ (Shape.digraphs n).dom.envelope ↔ Element.OfGraph n e := by
      intro e
      cases e <;> simp [Shape.dom, Dom.envelope, Element.OfGraph]
    refine ⟨Finset.empty_subset _, fun e he => (hground e).1 he, by simp, fun e he => ?_⟩
    refine fun f hf => (hground f).2 ?_
    have he' := (hground e).1 he
    cases e with
    | value a => exact he'.elim
    | node i => rwa [Finset.mem_singleton.1 hf]
    | arc i j =>
      simp only [Element.closure, Finset.mem_insert, Finset.mem_singleton] at hf
      rcases hf with rfl | rfl | rfl
      · exact he'
      · exact he'.1
      · exact he'.2

/-! ## Creating -/

/-- `create d` leaves the domain and the offset of the shape, or faults: by an overflow, or because
the interval is empty. -/
theorem Valid.create_counted (hs : s.Valid) (d : Shape) :
    Ends (create d) s (fun v s' => Created s v d.dom s' ∧ s'.offset v = d.start) fun e s' =>
      e = .overflow ∧ Evolves s s' ∨
      e = .violation .emptyRange ∧ s' = s ∧ ∃ lo hi, d = .interval lo hi ∧ hi < lo := by
  cases d with
  | interval lo hi =>
    by_cases hle : lo ≤ hi
    · cases hc : Checked.int (hi - lo + 1) with
      | error e =>
        obtain rfl := Checked.int_eq_error hc
        refine ends_of_error (u := s) ?_ (.inl ⟨rfl, hs.evolves_self⟩)
        simp only [create, if_pos hle, bind_apply, query_eq, hc]
      | ok b =>
        obtain ⟨-, rfl⟩ := Checked.int_eq_ok.1 hc
        have hrun : create (.interval lo hi) s =
            (do let r ← onTrail (Trail.newSparse (hi - lo + 1).toNat lo); register (.int r) :
              Op Var) s := by
          simp only [create, if_pos hle, bind_apply, query_eq, hc]
        refine Ends.of_eq ?_ hrun
        refine ((onTrail_ends (Trail.newSparse_ends hs.trail _ lo)).mono (fun _ _ h => h) ?_).bind
          ?_
        · rintro e _ ⟨t, rfl, rfl, rfl⟩
          exact .inl ⟨rfl, hs.evolves_self⟩
        rintro r _ ⟨t, rfl, hnone, ht⟩
        have hD : (Domain.int r).resolve t.view = some (Shape.interval lo hi).dom := by
          rw [Domain.resolve, ht.view, View.setSparse_self]
          rfl
        refine (hs.register_ends ⟨ht.valid, rfl, ht.past, ht.clock, ht.close⟩ (by rw [ht.view]; rfl)
          (fun i x hx => ?_) (fun i x hx => by rw [ht.view]; exact hx) hD
          ⟨lo, mem_intsBetween.2 ⟨le_refl lo, hle⟩⟩ (fun i hi => ?_) (by rintro _ ⟨⟩) List.nodup_nil).mono
          (fun v s' h => ⟨h.1, ?_⟩) fun _ _ h => .inl h
        · rw [ht.view, View.setSparse_of_ne, hx]
          rintro rfl
          rw [hnone] at hx
          cases hx
        · rwa [List.mem_singleton.1 hi]
        · rw [h.2, Domain.offset, ht.view, View.setSparse_self]
          rfl
    · refine ends_of_error (u := s) ?_ (.inr ⟨rfl, rfl, lo, hi, rfl, not_le.1 hle⟩)
      simp only [create, if_neg hle, throw_apply]
  | subsets n =>
    refine ((onTrail_ends (fresh_self hs.trail n).newBounded_ends).mono (fun _ _ h => h) ?_).bind ?_
    · rintro e _ ⟨t, rfl, rfl, rfl⟩
      exact .inl ⟨rfl, hs.evolves_self⟩
    rintro r _ ⟨t, rfl, ht⟩
    have hD : (Domain.set r).resolve t.view = some (Shape.subsets n).dom := by
      rw [Domain.resolve, ht.after _ List.mem_cons_self]
      rfl
    exact (hs.register_ends ht.turns ht.int (fun i x hx => by rw [ht.sparse, hx]) ht.kept hD
      (dom_wf (by rintro _ _ ⟨⟩)) (by rintro _ ⟨⟩) ht.before ht.nodup).mono (fun _ _ h => h)
      fun _ _ h => .inl h
  | digraphs n =>
    refine ((onTrail_ends (fresh_self hs.trail n).newBounded_ends).mono (fun _ _ h => h) ?_).bind ?_
    · rintro e _ ⟨t, rfl, rfl, rfl⟩
      exact .inl ⟨rfl, hs.evolves_self⟩
    rintro nodes _ ⟨t, rfl, ht⟩
    refine ((onTrail_ends (s := { s with trail := t }) (ht.newRows_ends n)).mono (fun _ _ h => h)
      ?_).bind ?_
    · rintro e _ ⟨t', rfl, rfl, refs, ht'⟩
      exact .inl ⟨rfl, ht'.widens.evolves hs ht'.int⟩
    rintro rows _ ⟨t', rfl, rfl, ht'⟩
    exact (hs.register_ends ht'.turns ht'.int (fun i x hx => by rw [ht'.sparse, hx]) ht'.kept
      (resolve_digraphs ht') (dom_wf (by rintro _ _ ⟨⟩)) (by rintro _ ⟨⟩) ht'.before
      ht'.nodup).mono (fun _ _ h => h) fun _ _ h => .inl h

theorem Valid.create_ends (hs : s.Valid) (d : Shape) :
    Ends (create d) s (fun v s' => Created s v d.dom s') fun e s' =>
      e = .overflow ∧ Evolves s s' ∨
      e = .violation .emptyRange ∧ s' = s ∧ ∃ lo hi, d = .interval lo hi ∧ hi < lo :=
  (hs.create_counted d).mono (fun _ _ h => h.1) fun _ _ h => h

theorem Valid.create_evolves (hs : s.Valid) (d : Shape) :
    Ends (create d) s (fun _ s' => Evolves s s') fun _ s' => Evolves s s' := by
  refine (hs.create_ends d).mono (fun _ _ h => h.evolves) ?_
  rintro e s' (⟨-, h⟩ | ⟨-, rfl, -⟩)
  · exact h
  · exact hs.evolves_self

end Store

end Propagation
