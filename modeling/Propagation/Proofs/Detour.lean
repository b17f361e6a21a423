import Propagation.Proofs.Marks
import Propagation.Proofs.Model.Outline
import Propagation.Proofs.Store.Snapshot

/-!
# Detours

A level is opened, anything is done within it that does not close it, and it is closed by its mark.
To what is called from then on everything is as if nothing had happened
(`Session.detour_invisible`), even if something was still to be propagated when the level was
opened. For closing the level gives back the outline, and calls on sessions with the same outline go
the same way (`Outline.Does.similar`).
-/

set_option autoImplicit false

namespace Propagation

open Update

variable {ν π : Type}

/-! ## Users with different marks -/

/-- `c` in a session that has taken `n` further marks after the first `k`: a rollback to the mark
`i` goes to `i + n` where `k ≤ i`. -/
def Call.skip (k n : Nat) : Call π → Call π
  | .rollback i => .rollback (if i < k then i else i + n)
  | c => c

/-- The number of checkpoints among `cs`, hence of the marks that they take. -/
def Call.taken (cs : List (Call π)) : Nat := cs.countP fun
  | .checkpoint => true
  | _ => false

/-- `y` ends as `x` does, with the same answer and the same snapshots. Of two contradictory
propagations (`Step.Failed`) nothing else is required. -/
structure Step.Alike (x y : Step ν π) : Prop where
  failed : y.Failed ↔ x.Failed
  answer : ¬x.Failed → y.answer = x.answer
  snapshot : ¬x.Failed → ∀ v, y.after.store.snapshot v = x.after.store.snapshot v

theorem Call.ordinary_skip {k n : Nat} {c : Call (Constraint ⊕ π)} :
    (c.skip k n).Ordinary ↔ c.Ordinary := by
  cases c <;> rfl

theorem Call.closes_skip {k n : Nat} {c : Call π} : (c.skip k n).Closes ↔ c.Closes := by
  cases c <;> rfl

/-- `o'` is `o` in a session with `n` further marks after the first `k`. The profiles are compared
only unless `failed`: after a contradictory propagation the domains do not matter. -/
structure Outline.Similar (failed : Prop) (k n : Nat) (o o' : Outline) : Prop where
  profile : ¬failed → o'.profile = o.profile
  levels : o'.levels = o.levels
  depths : ∃ first more last, o.depths = first ++ last ∧ o'.depths = first ++ (more ++ last) ∧
    first.length = k ∧ more.length = n

namespace Outline

variable {o o' u u' : Outline} {c : Call (Constraint ⊕ π)} {a a' : Answer} {failed : Prop}
  {k n : Nat}

/-- The mark `i` of `o` is as deep as the corresponding mark of `o'`, or neither exists. -/
theorem Similar.getElem?_depths (h : Similar failed k n o o') (i : Nat) :
    o'.depths[if i < k then i else i + n]? = o.depths[i]? := by
  obtain ⟨first, more, last, ho, ho', rfl, rfl⟩ := h.depths
  rw [ho, ho']
  split
  · next hi => rw [List.getElem?_append_left hi, List.getElem?_append_left hi]
  · next hi =>
    rw [List.getElem?_append_right (by omega), List.getElem?_append_right (by omega),
      List.getElem?_append_right (by omega)]
    congr 1
    omega

theorem Similar.withProfile {failed' : Prop} (h : Similar failed k n o o') {P P' : Profile}
    (hP : ¬failed' → P' = P) :
    Similar failed' k n (o.withProfile P) (o'.withProfile P') :=
  ⟨hP, h.levels, h.depths⟩

/-- Two suffixes of `L` of the same length start with the same profile, that of the level opened at
that depth. -/
theorem eq_of_levels {L newer newer' older older' : List Profile} {P P' : Profile}
    (h : L = newer ++ P :: older) (h' : L = newer' ++ P' :: older')
    (hlen : older'.length = older.length) : P' = P ∧ older' = older :=
  List.cons.inj (List.append_inj_right' (h'.symm.trans h) (congrArg (· + 1) hlen))

/-- The outcome of `c` is a function of the outline: from `Similar` outlines `o` and `o'`, `c` and
`c.skip k n` fail together and otherwise answer the same, and the outlines `u` and `u'` after them
are `Similar` again. -/
theorem Does.similar (h : o.Does c a u) (h' : o'.Does (c.skip k n) a' u')
    (hs : Similar failed k n o o') (hprompt : failed → c.Closes)
    (m m' : Model ν (Constraint ⊕ π)) :
    Step.Failed ⟨c.skip k n, a', m'⟩ = Step.Failed ⟨c, a, m⟩ ∧
      (¬Step.Failed ⟨c, a, m⟩ → a' = a) ∧ Similar (Step.Failed ⟨c, a, m⟩) k n u u' := by
  have hlevels := hs.levels
  cases h with
  | create =>
    cases h'
    have hP := hs.profile hprompt
    exact ⟨rfl, fun _ => by rw [hP], hs.withProfile fun _ => by rw [hP]⟩
  | narrow hv hn =>
    have hP := hs.profile hprompt
    cases h' with
    | narrow hv' hn' =>
      rw [hP, hv] at hv'
      cases hv'
      rw [hn] at hn'
      cases hn'
      exact ⟨rfl, fun _ => rfl, hs.withProfile fun _ => by rw [hP]⟩
    | refused hv' hn' =>
      rw [hP, hv] at hv'
      cases hv'
      rw [hn] at hn'
      cases hn'
  | refused hv hn =>
    have hP := hs.profile hprompt
    cases h' with
    | narrow hv' hn' =>
      rw [hP, hv] at hv'
      cases hv'
      rw [hn] at hn'
      cases hn'
    | refused => exact ⟨rfl, fun _ => rfl, fun _ => hP, hlevels, hs.depths⟩
  | post =>
    cases h'
    have hP := hs.profile hprompt
    exact ⟨rfl, fun _ => by rw [hP], hs.withProfile fun _ => by rw [hP]⟩
  | enable =>
    cases h'
    have hP := hs.profile hprompt
    exact ⟨rfl, fun _ => rfl, hs.withProfile fun _ => by rw [hP]⟩
  | disable =>
    cases h'
    have hP := hs.profile hprompt
    exact ⟨rfl, fun _ => rfl, hs.withProfile fun _ => by rw [hP]⟩
  | save =>
    cases h'
    have hP := hs.profile hprompt
    refine ⟨rfl, fun _ => rfl, fun _ => hP, ?_, hs.depths⟩
    show o'.profile :: o'.levels = o.profile :: o.levels
    rw [hP, hlevels]
  | checkpoint =>
    cases h'
    have hP := hs.profile hprompt
    refine ⟨rfl, fun _ => by rw [hlevels], fun _ => hP, ?_, ?_⟩
    · show o'.profile :: o'.levels = o.profile :: o.levels
      rw [hP, hlevels]
    · obtain ⟨first, more, last, ho, ho', hk, hn⟩ := hs.depths
      refine ⟨first, more, last ++ [o.levels.length], ?_, ?_, hk, hn⟩
      · show o.depths ++ _ = _
        rw [ho, List.append_assoc]
      · show o'.depths ++ _ = _
        rw [ho', hlevels, List.append_assoc, List.append_assoc]
  | restore h =>
    cases h' with
    | restore h' =>
      obtain ⟨hP, hrest⟩ := List.cons.inj (h'.symm.trans (hlevels.trans h))
      exact ⟨rfl, fun _ => rfl, fun _ => hP, hrest, hs.depths⟩
  | rollback h hi =>
    cases h' with
    | rollback h' hi' =>
      rw [hs.getElem?_depths, hi] at hi'
      obtain ⟨hP, hrest⟩ := eq_of_levels h (hlevels.symm.trans h') (Option.some.inj hi').symm
      exact ⟨rfl, fun _ => rfl, fun _ => hP, hrest, hs.depths⟩
  | settled h =>
    have hP := hs.profile hprompt
    cases h' with
    | settled h' =>
      rw [hP] at h'
      refine ⟨rfl, fun _ => rfl, hs.withProfile fun _ => ?_⟩
      rw [hP, h'.unique h]
    | failed h' =>
      rw [hP] at h'
      exact absurd h.within (h' _ h.demands)
  | failed h =>
    have hP := hs.profile hprompt
    cases h' with
    | settled h' =>
      rw [hP] at h'
      exact absurd h'.within (h _ h'.demands)
    | failed =>
      exact ⟨rfl, fun hopen => absurd trivial hopen,
        hs.withProfile fun hopen => absurd trivial hopen⟩
  | isEntailed hp ha =>
    have hP := hs.profile hprompt
    cases h' with
    | isEntailed hp' ha' =>
      rw [hP, hp] at hp'
      cases hp'
      rw [hP] at ha'
      exact ⟨rfl, fun _ => by rw [ha'.unique ha], fun _ => hP, hlevels, hs.depths⟩

end Outline

section
variable [Propagator ν π] {s s' t t' : Session ν (Constraint ⊕ π)}
  {cs : List (Call (Constraint ⊕ π))} {xs ys : List (Step ν (Constraint ⊕ π))} {failed : Prop}

open Model

/-! ## The same calls -/

theorem Session.closes_of_prompt {c : Call (Constraint ⊕ π)}
    (hrun : Session.run (c :: cs) s = .ok xs s') (hprompt : PromptFrom failed xs) :
    failed → c.Closes := by
  obtain ⟨a, s₁, ys, -, -, rfl⟩ := Session.run_cons hrun
  exact hprompt.1

/-- The run lemma of `Outline.Does.similar`: calls and the skipped calls, run on `s` and `t` with
`Similar` outlines, take steps that are `Alike`. -/
theorem Session.similar_run {k n : Nat} (hsim : Outline.Similar failed k n s.outline t.outline)
    (hs : Minded failed s.model) (ht : Minded failed t.model) (hrun : Session.run cs s = .ok xs s')
    (hrun' : Session.run (cs.map (Call.skip k n)) t = .ok ys t') (hcs : ∀ c ∈ cs, c.Ordinary)
    (hprompt : PromptFrom failed ys) : List.Forall₂ Step.Alike xs ys := by
  induction cs generalizing s t xs ys failed with
  | nil =>
    cases hrun
    cases hrun'
    exact .nil
  | cons c cs ih =>
    have hc : c.Ordinary := hcs c List.mem_cons_self
    have hcloses' := Session.closes_of_prompt hrun' hprompt
    have hcloses : failed → c.Closes := fun hf => Call.closes_skip.1 (hcloses' hf)
    obtain ⟨a, s₁, ws, rfl, -, hout, hs₁, hrest⟩ := Session.outlined_cons hrun hc hcloses hs
    obtain ⟨a', t₁, zs, rfl, -, hout', ht₁, hrest'⟩ :=
      Session.outlined_cons hrun' (Call.ordinary_skip.2 hc) hcloses' ht
    obtain ⟨hfailed, hanswer, hsim₁⟩ := hout.similar hout' hsim hcloses s₁.model t₁.model
    have hrests := hprompt.2
    rw [hfailed] at ht₁ hrests
    refine .cons ⟨iff_of_eq hfailed, hanswer, fun hopen v => ?_⟩
      (ih hsim₁ hs₁ ht₁ hrest hrest' (fun c' hc' => hcs c' (List.mem_cons_of_mem _ hc')) hrests)
    have hscene : t₁.model.store.scene = s₁.model.store.scene :=
      congrArg Profile.scene (hsim₁.profile hopen)
    exact Store.snapshot_congr hs₁.ready.valid.store ht₁.ready.valid.store (congrFun hscene v)

/-! ## The level that is left open -/

theorem Call.Does.marks {c : Call (Constraint ⊕ π)} {a : Answer} (h : c.Does s a s') :
    ∃ more : Array Mark, s'.marks = s.marks ++ more ∧ more.size = Call.taken [c] := by
  cases h with
  | checkpoint => exact ⟨#[s.model.store.checkpoint.1], Array.push_eq_append, rfl⟩
  | _ => exact ⟨#[], Array.append_empty.symm, rfl⟩

/-- A run keeps the marks of `s` and appends as many as `Call.taken` counts. -/
theorem Session.marks_run (hrun : Session.run cs s = .ok xs s') (hs : s.model.Ready) :
    ∃ more : Array Mark, s'.marks = s.marks ++ more ∧ more.size = Call.taken cs := by
  induction cs generalizing s xs with
  | nil =>
    cases hrun
    exact ⟨#[], Array.append_empty.symm, rfl⟩
  | cons c cs ih =>
    obtain ⟨a, s₁, ys, hc, hrest, -⟩ := Session.run_cons hrun
    obtain ⟨more, hmore, hsize⟩ := (Call.does_of_ok hc hs).marks
    obtain ⟨last, hlast, hsize'⟩ := ih hrest ((c.ready_ends hs).of_ok hc)
    refine ⟨more ++ last, by rw [hlast, hmore, Array.append_assoc], ?_⟩
    rw [Array.size_append, hsize, hsize', Call.taken, Call.taken, ← List.countP_append,
      List.singleton_append]
    rfl

/-- A call after which at least `L.length` levels are open leaves the profiles `L` at the bottom of
`o.levels` unchanged. -/
theorem Outline.Does.suffix {o u : Outline} {c : Call (Constraint ⊕ π)} {a : Answer}
    {L : List Profile} (h : o.Does c a u) (hL : L <:+ o.levels)
    (hlen : L.length ≤ u.levels.length) :
    L <:+ u.levels := by
  cases h with
  | save | checkpoint => exact hL.trans (List.suffix_cons _ _)
  | restore h =>
    refine List.suffix_of_suffix_length_le hL ?_ hlen
    rw [h]
    exact List.suffix_cons _ _
  | @rollback k P newer older h hk =>
    refine List.suffix_of_suffix_length_le hL ?_ hlen
    rw [h]
    exact (List.suffix_cons P older).trans (List.suffix_append newer _)
  | _ => exact hL

/-- The state after a run is again `Minded`, for the `failed'` under which the `rest` of the steps
is prompt. -/
theorem Session.minded_run {rest : List (Step ν (Constraint ⊕ π))}
    (hrun : Session.run cs s = .ok xs s') (hcs : ∀ c ∈ cs, c.Ordinary)
    (hprompt : PromptFrom failed (xs ++ rest)) (hs : Minded failed s.model) :
    ∃ failed', Minded failed' s'.model ∧ PromptFrom failed' rest := by
  induction cs generalizing s xs failed with
  | nil =>
    cases hrun
    exact ⟨failed, hs, hprompt⟩
  | cons c cs ih =>
    obtain ⟨a, s₁, ys, hc, hrest, rfl⟩ := Session.run_cons hrun
    have hs₁ := hs.does (Call.does_of_ok hc hs.ready) (hcs c List.mem_cons_self) hprompt.1
      ((c.ready_ends hs.ready).of_ok hc)
    exact ih hrest (fun c' hc' => hcs c' (List.mem_cons_of_mem _ hc')) hprompt.2 hs₁

omit [Propagator ν π] in
theorem length_levels (m : Model ν (Constraint ⊕ π)) :
    m.levels.length = m.store.trail.depth := by
  rw [Model.levels, List.length_map, Trail.length_past]

/-- A run that stays above the depth `d` leaves the profiles `L` of the `d + 1` levels at the bottom
unchanged. -/
theorem Session.levels_run {L : List Profile} {rest : List (Step ν (Constraint ⊕ π))} {d : Nat}
    (hrun : Session.run cs s = .ok xs s') (hcs : ∀ c ∈ cs, c.Ordinary)
    (hprompt : PromptFrom failed (xs ++ rest)) (hs : Minded failed s.model)
    (habove : Trail.StaysAbove (fun s c => (Call.perform c).after s) (·.model.store.trail.depth) d
      s cs)
    (hlen : L.length = d + 1) (hL : L <:+ s.model.levels) : L <:+ s'.model.levels := by
  induction cs generalizing s xs failed with
  | nil =>
    cases hrun
    exact hL
  | cons c cs ih =>
    obtain ⟨a, s₁, ys, hc, hrest, rfl⟩ := Session.run_cons hrun
    have hc₁ : c.Ordinary := hcs c List.mem_cons_self
    have hdoes := Call.does_of_ok hc hs.ready
    have hs₁ := hs.does hdoes hc₁ hprompt.1 ((c.ready_ends hs.ready).of_ok hc)
    have hrests := (Trail.staysAbove_cons.1 habove).2
    rw [after_of_ok hc] at hrests
    have hdepth : d < s₁.model.store.trail.depth := hrests [] List.nil_prefix
    have hL₁ : L <:+ s₁.model.levels :=
      (hdoes.outlined hs hc₁ hprompt.1).suffix hL (by
        show L.length ≤ s₁.model.levels.length
        rw [length_levels, hlen]
        exact hdepth)
    exact ih hrest (fun c' hc' => hcs c' (List.mem_cons_of_mem _ hc')) hprompt.2 hs₁ hrests hL₁

/-! ## Detours -/

omit [Propagator ν π] in
theorem Outline.Does.rollback_eq {o u : Outline} {k : Nat} {a : Answer}
    (h : o.Does (.rollback k : Call (Constraint ⊕ π)) a u) : ∃ newer P older,
      o.levels = newer ++ P :: older ∧ o.depths[k]? = some older.length ∧
        u = ⟨P, older, o.depths⟩ := by
  cases h with
  | rollback h hk => exact ⟨_, _, _, h, hk, rfl⟩

/-- A checkpoint, a `detour` and the rollback to its mark give back the outline of `s`, up to the
marks that have been taken since. -/
theorem Session.similar_detour {detour : List (Call (Constraint ⊕ π))}
    {rest : List (Step ν (Constraint ⊕ π))}
    (hrun : Session.run (.checkpoint :: (detour ++ [.rollback s.marks.size])) s = .ok xs s')
    (hcs : ∀ c ∈ detour, c.Ordinary) (hprompt : PromptFrom failed (xs ++ rest))
    (hs : Minded failed s.model) :
    ¬failed ∧ Minded False s'.model ∧ PromptFrom False rest ∧
      Outline.Similar False s.marks.size (1 + Call.taken detour) s.outline s'.outline := by
  obtain ⟨a₁, s₁, ws, h₁, hrest, rfl⟩ := Session.run_cons hrun
  have hopen : ¬failed := hprompt.1
  have hdoes₁ := Call.does_of_ok h₁ hs.ready
  have hs₁ := hs.does hdoes₁ trivial hprompt.1 ((Call.ready_ends _ hs.ready).of_ok h₁)
  obtain ⟨hlevels₁, hmarks₁, htrail₁⟩ : s₁.model.levels = s.model.profile :: s.model.levels ∧
      s₁.marks = s.marks.push s.model.store.checkpoint.1 ∧
      s₁.model.store.trail = s.model.store.trail.checkpoint.2 := by
    cases hdoes₁
    exact ⟨levels_save hs.ready.valid, rfl, rfl⟩
  obtain ⟨us, vs, s₂, rfl, hrun₂, hlast⟩ := Session.run_append hrest
  have hprompt₁ : PromptFrom (Step.Failed ⟨.checkpoint, a₁, s₁.model⟩) (us ++ (vs ++ rest)) := by
    rw [← List.append_assoc]
    exact hprompt.2
  obtain ⟨failed₂, hs₂, hprompt₂⟩ := Session.minded_run hrun₂ hcs hprompt₁ hs₁
  obtain ⟨more, hmore, hsize⟩ := Session.marks_run hrun₂ hs₁.ready
  rw [hmarks₁] at hmore
  obtain ⟨a₃, s₃, rest', h₃, hnil, rfl⟩ := Session.run_cons hlast
  cases hnil
  have hdoes₃ := Call.does_of_ok h₃ hs₂.ready
  have hs₃ := hs₂.does hdoes₃ trivial hprompt₂.1 ((Call.ready_ends _ hs₂.ready).of_ok h₃)
  obtain ⟨newer, P, older, hlevels, hdepth, hout⟩ :=
    (hdoes₃.outlined hs₂ trivial hprompt₂.1).rollback_eq
  have hmark : s₂.marks[s.marks.size]? = some s.model.store.checkpoint.1 := by
    rw [hmore, Array.getElem?_append_left (by simp), Array.getElem?_push_size]
  -- the mark is accepted, so its level has been open all along
  have habove : Trail.StaysAbove (fun s c => (Call.perform c).after s)
      (·.model.store.trail.depth) s.model.store.trail.depth s₁ detour := by
    have hlive : s₂.model.store.trail.isLive s.model.store.checkpoint.1 = true := by
      cases hdoes₃ with
      | rollback hk hpast hdepth hr =>
        cases hmark.symm.trans hk
        exact Trail.isLive_iff.2 ⟨_, _, _, hpast, hdepth⟩
    have hover := Leveled.model_over ν (Constraint ⊕ π) #[]
    have hholds := Trail.holds_checkpoint s.model.store.trail
    rw [← htrail₁] at hholds
    refine (hholds.isLive_run hover.keep hover.ticks detour (s := s₁) hs₁.ready.valid).1 ?_
    rw [← Session.after_of_run hrun₂] at hlive
    exact hlive
  have hsuffix : s.model.profile :: s.model.levels <:+ s₂.model.levels :=
    Session.levels_run hrun₂ hcs hprompt₁ hs₁ habove (congrArg (· + 1) (length_levels _))
      (hlevels₁ ▸ List.suffix_refl _)
  have hlen : older.length = s.model.levels.length := by
    have hat : s₂.outline.depths[s.marks.size]? = some s.model.store.trail.depth := by
      show (s₂.marks.toList.map Mark.depth)[s.marks.size]? = _
      rw [List.getElem?_map, Array.getElem?_toList, hmark]
      rfl
    rw [length_levels]
    exact Option.some.inj (hdepth.symm.trans hat)
  obtain ⟨pre, hpre⟩ := hsuffix
  obtain ⟨rfl, rfl⟩ := Outline.eq_of_levels hpre.symm hlevels hlen
  refine ⟨hopen, hs₃, hprompt₂.2, ?_⟩
  rw [hout]
  refine ⟨fun _ => rfl, rfl, s.outline.depths,
    s.model.store.checkpoint.1.depth :: more.toList.map Mark.depth, [],
    (List.append_nil _).symm, ?_,
    ?_, ?_⟩
  · show s₂.marks.toList.map Mark.depth = s.marks.toList.map Mark.depth ++ _
    rw [hmore]
    simp
  · show (s.marks.toList.map Mark.depth).length = _
    simp
  · rw [List.length_cons, List.length_map, Array.length_toList, hsize, Nat.add_comm]

/-- In any run without faults, whose narrowings are decisions, whose propagators are constraints
without the same set twice in a channel, and in which only levels are closed after a contradictory
propagation: a `detour` between a checkpoint and the accepted rollback to its mark makes no
difference to the calls `after` it. Without it they are answered the same, up to which contradiction
a propagation comes to, and leave the same snapshots of all variables, except after contradictory
propagations. -/
theorem Session.detour_invisible {before detour after : List (Call (Constraint ⊕ π))}
    {marks : Array Mark} {s t u : Session ν (Constraint ⊕ π)}
    {xs ys zs : List (Step ν (Constraint ⊕ π))}
    (hbefore : Session.run before ⟨.empty, marks⟩ = .ok xs s)
    (hafter : Session.run after s = .ok ys t)
    (hdetour : Session.run (.checkpoint :: (detour ++ .rollback s.marks.size ::
      after.map (Call.skip s.marks.size (1 + Call.taken detour)))) s = .ok zs u)
    (hcs : ∀ c ∈ before ++ detour ++ after, c.Ordinary) (hprompt : Prompt (xs ++ zs)) :
    List.Forall₂ Step.Alike ys (zs.drop (detour.length + 2)) := by
  obtain ⟨failed, hs, hprompt⟩ := Session.minded_run hbefore
    (fun c hc => hcs c (by simp [hc])) hprompt minded_empty
  have hsplit : .checkpoint :: (detour ++ .rollback s.marks.size ::
      after.map (Call.skip s.marks.size (1 + Call.taken detour))) =
      (.checkpoint :: (detour ++ [.rollback s.marks.size])) ++
        after.map (Call.skip s.marks.size (1 + Call.taken detour)) := by
    simp
  rw [hsplit] at hdetour
  obtain ⟨ws, vs, s₁, rfl, hback, hrest⟩ := Session.run_append hdetour
  obtain ⟨hopen, hs₁, hprompt₁, hsim⟩ :=
    Session.similar_detour hback (fun c hc => hcs c (by simp [hc])) hprompt hs
  have hlen : ws.length = detour.length + 2 := by
    rw [Session.length_run hback]
    simp
  rw [← hlen, List.drop_left]
  exact Session.similar_run hsim (hs.opened hopen) hs₁ hafter hrest
    (fun c hc => hcs c (by simp [hc])) hprompt₁

end

/-- A level that is opened with an unsettled disequality, and a detour in which a propagation fails
and a second level is opened. -/
theorem Session.detour_invisible_unsettled :
    ∃ (xs ys zs : List (Step Unit (Constraint ⊕ NotEqual)))
      (s t u : Session Unit (Constraint ⊕ NotEqual)),
      Session.run [.create (.interval 0 1), .create (.interval 0 1), .create (.digraphs 1),
        .create (.subsets 1), .post (.inl (.notEqual (.of ⟨0⟩ ⟨1⟩))),
        .post (.inl (.graphChannel (.of ⟨2⟩ [⟨3⟩]))), .narrow ⟨0⟩ (.fix 1) .decision]
        ⟨.empty, #[]⟩ = .ok xs s ∧
      Session.run [.narrow ⟨3⟩ (.addToKernel 0) .decision, .fixpoint, .isEntailed ⟨1⟩, .checkpoint,
        .create (.subsets 2), .rollback 0, .isEntailed ⟨0⟩] s = .ok ys t ∧
      Session.run [.checkpoint, .fixpoint, .disable ⟨1⟩, .checkpoint, .narrow ⟨1⟩ (.fix 0) .decision,
        .post (.inl (.notEqual (.of ⟨1⟩ ⟨1⟩))), .fixpoint, .rollback 0,
        .narrow ⟨3⟩ (.addToKernel 0) .decision, .fixpoint, .isEntailed ⟨1⟩, .checkpoint,
        .create (.subsets 2), .rollback 2, .isEntailed ⟨0⟩] s = .ok zs u ∧
      Prompt (xs ++ zs) ∧ List.Forall₂ Step.Alike ys (zs.drop 8) := by
  obtain ⟨xs, s, hbefore, htest⟩ := Session.exists_steps
    [.create (.interval 0 1), .create (.interval 0 1), .create (.digraphs 1),
      .create (.subsets 1), .post (.inl (.notEqual (.of ⟨0⟩ ⟨1⟩))),
      .post (.inl (.graphChannel (.of ⟨2⟩ [⟨3⟩]))), .narrow ⟨0⟩ (.fix 1) .decision]
    (⟨.empty, #[]⟩ : Session Unit (Constraint ⊕ NotEqual))
    (fun xs s => decide (s.marks.size = 0) &&
      match Session.run [.narrow ⟨3⟩ (.addToKernel 0) .decision, .fixpoint, .isEntailed ⟨1⟩,
        .checkpoint, .create (.subsets 2), .rollback 0, .isEntailed ⟨0⟩] s with
      | .ok _ _ =>
        match Session.run [.checkpoint, .fixpoint, .disable ⟨1⟩, .checkpoint,
          .narrow ⟨1⟩ (.fix 0) .decision, .post (.inl (.notEqual (.of ⟨1⟩ ⟨1⟩))), .fixpoint,
          .rollback 0, .narrow ⟨3⟩ (.addToKernel 0) .decision, .fixpoint, .isEntailed ⟨1⟩,
          .checkpoint, .create (.subsets 2), .rollback 2, .isEntailed ⟨0⟩] s with
        | .ok zs _ => decide (Prompt (xs ++ zs))
        | .error _ _ => false
      | .error _ _ => false)
    (by decide +kernel)
  rw [Bool.and_eq_true, decide_eq_true_iff] at htest
  obtain ⟨hmarks, htest⟩ := htest
  split at htest
  · next ys t hafter =>
    split at htest
    · next zs u hdetour =>
      have hprompt := of_decide_eq_true htest
      refine ⟨xs, ys, zs, s, t, u, hbefore, hafter, hdetour, hprompt, ?_⟩
      refine @Session.detour_invisible _ _ _ _ [.fixpoint, .disable ⟨1⟩, .checkpoint,
        .narrow ⟨1⟩ (.fix 0) .decision, .post (.inl (.notEqual (.of ⟨1⟩ ⟨1⟩))), .fixpoint]
        _ _ _ _ u _ _ _ hbefore hafter ?_ ?_ hprompt
      · rw [hmarks]
        exact hdetour
      · simp [Call.Ordinary, Constraint.Distinct, GraphChannel.Distinct, GraphChannel.of]
    · cases htest
  · cases htest

end Propagation
