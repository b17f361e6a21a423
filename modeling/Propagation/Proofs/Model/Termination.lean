import Propagation.Proofs.Model.Underway
import Propagation.Proofs.Model.Wakeup
import Propagation.Proofs.Spent
import Propagation.Proofs.Store.Room

/-!
# Propagation ends

Every propagator that is run after those that are scheduled to begin with has been woken up by a
change, and a change takes from the room of its variable (`Action.run_spends`). So what is in the
queue, together with the room that is left for each subscription, bounds the runs to come
(`Model.load`): a round takes at least one from it (`Dispatched.load_lt`). Hence a propagation ends,
unless the code of a propagator itself does not (`Model.fixpoint_terminates`).
-/

set_option autoImplicit false

namespace Propagation

open Update

namespace Model

variable {ν π : Type} {m m' m₁ m₂ m₃ : Model ν π} {p : PropagatorId} {q : Queue}

/-! ## The load of a model -/

/-- The propagators in the queue. -/
def waiting (m : Model ν π) : List PropagatorId := m.queue.toList.map (·.1)

/-- A bound on the runs to come: one for each queued propagator, and for each subscription as many
as its variable has room for changes. -/
def load (m : Model ν π) : Nat :=
  m.waiting.length +
    ∑ v ∈ Finset.range m.subscriptions.size, (m.row ⟨v⟩).length * m.store.room ⟨v⟩

theorem Tidy.length_waiting (ht : m.Tidy) : m.waiting.length ≤ m.count := by
  have hids : (m.waiting.map PropagatorId.id).Nodup :=
    ht.queue.nodup.map fun p q h => by
      cases p
      cases q
      exact congrArg _ h
  have hsub : m.waiting.map PropagatorId.id ⊆ List.range m.count := by
    intro i hi
    obtain ⟨p, hp, rfl⟩ := List.mem_map.1 hi
    exact List.mem_range.2 (ht.queued p (ht.queue.contains_iff_mem.2 hp))
  simpa using (hids.subperm hsub).length_le

/-- Popping the queue takes one propagator from it. -/
theorem length_waiting_pop (hq : m.queue.Valid) (hpop : m.queue.pop = some (p, q)) :
    m.waiting.length = ({ m with queue := q } : Model ν π).waiting.length + 1 := by
  obtain ⟨hq', hp, hrest⟩ := hq.pop_some hpop
  have hperm : m.waiting.Perm (p :: ({ m with queue := q } : Model ν π).waiting) := by
    have hno : p ∉ ({ m with queue := q } : Model ν π).waiting := by
      intro hmem
      rw [hq'.contains_iff_mem.2 hmem] at hp
      cases hp
    refine (List.perm_ext_iff_of_nodup hq.nodup (List.nodup_cons.2 ⟨hno, hq'.nodup⟩)).2 fun r => ?_
    rw [← hq.contains_iff_mem, hrest, List.mem_cons, hq'.contains_iff_mem]
    rfl
  exact hperm.length_eq

theorem Dispatched.room_eq (h : m.Dispatched m₁) (v : Var) :
    m₁.store.room v = m.store.room v := by
  rw [h.store]
  rfl

theorem lt_of_mem_row {v : Var} {s : Subscription} (hs : s ∈ m.row v) :
    v.id < m.subscriptions.size := by
  refine Nat.lt_of_not_le fun hle => ?_
  rw [row, rowOf, Array.getElem?_eq_none hle] at hs
  cases hs

/-- The load after a dispatch, if `r` bounds the room that each variable had before its pending
events: each propagator that joins the queue is paid for by the room of an event. -/
theorem Dispatched.load_le (h : m.Dispatched m₁) {r : Nat → Nat}
    (hroom : ∀ v < m.subscriptions.size, m.store.room ⟨v⟩ ≤ r v ∧
      ∀ e c, m.store.sink.Has ⟨v⟩ e c → m.store.room ⟨v⟩ < r v) (hq : m.queue.Valid) :
    m₁.load ≤ m.waiting.length +
      ∑ v ∈ Finset.range m.subscriptions.size, (m.row ⟨v⟩).length * r v := by
  let spent := (Finset.range m.subscriptions.size).filter fun v => m.store.room ⟨v⟩ < r v
  let woken := spent.biUnion fun v => ((m.row ⟨v⟩).map (·.propagator)).toFinset
  have hsub : m₁.waiting.toFinset ⊆ m.waiting.toFinset ∪ woken := by
    intro p hp
    rw [List.mem_toFinset] at hp
    rw [Finset.mem_union, List.mem_toFinset]
    rcases (h.handed.queued p).1 (h.handed.queue.contains_iff_mem.2 hp) with hp | ⟨-, ⟨y, s⟩, hx, hhit, rfl⟩
    · exact .inl (hq.contains_iff_mem.1 hp)
    · obtain ⟨hy, hs⟩ := mem_audience.1 hx
      obtain ⟨f, hf⟩ := Mask.isEmpty_eq_false_iff.1 hhit.2
      have hhas : m.store.sink.Has y.var f y.cause :=
        ⟨y, List.mem_reverse.1 hy, rfl, rfl, (Mask.mem_inter.1 hf).1⟩
      have hlt := lt_of_mem_row hs
      refine .inr (Finset.mem_biUnion.2 ⟨y.var.id, ?_, ?_⟩)
      · exact Finset.mem_filter.2 ⟨Finset.mem_range.2 hlt, (hroom _ hlt).2 f y.cause hhas⟩
      · exact List.mem_toFinset.2 (List.mem_map_of_mem hs)
  have hwoken : woken.card ≤ ∑ v ∈ spent, (m.row ⟨v⟩).length := by
    refine Finset.card_biUnion_le.trans (Finset.sum_le_sum fun v _ => ?_)
    exact (List.toFinset_card_le _).trans_eq (List.length_map _)
  have hwaiting : m₁.waiting.length ≤ m.waiting.length + ∑ v ∈ spent, (m.row ⟨v⟩).length := by
    have hcard := (Finset.card_le_card hsub).trans (Finset.card_union_le _ _)
    have hnodup : m₁.waiting.Nodup := h.handed.queue.nodup
    have hnodup' : m.waiting.Nodup := hq.nodup
    rw [List.toFinset_card_of_nodup hnodup, List.toFinset_card_of_nodup hnodup'] at hcard
    omega
  -- each wake-up is paid for from the room of its variable
  have hpaid : ∑ v ∈ spent, (m.row ⟨v⟩).length +
      ∑ v ∈ Finset.range m.subscriptions.size, (m.row ⟨v⟩).length * m.store.room ⟨v⟩ ≤
        ∑ v ∈ Finset.range m.subscriptions.size, (m.row ⟨v⟩).length * r v := by
    rw [Finset.sum_filter, ← Finset.sum_add_distrib]
    refine Finset.sum_le_sum fun v hv => ?_
    split
    · next hlt =>
      have hmul := Nat.mul_le_mul_left (m.row ⟨v⟩).length hlt
      rw [Nat.mul_succ] at hmul
      omega
    · have hmul := Nat.mul_le_mul_left (m.row ⟨v⟩).length (hroom v (Finset.mem_range.1 hv)).1
      omega
  have hload : m₁.load = m₁.waiting.length +
      ∑ v ∈ Finset.range m.subscriptions.size, (m.row ⟨v⟩).length * m.store.room ⟨v⟩ := by
    simp only [load, row, h.subscriptions, h.room_eq]
  omega

/-- The load after the first dispatch, when every live propagator may be in the queue. -/
theorem Dispatched.load_le_budget (h : m.Dispatched m₁) (hm : m.Valid) (ht : m.Tidy) :
    m₁.load ≤ m.count +
      ∑ v ∈ Finset.range m.subscriptions.size, (m.row ⟨v⟩).length * m.store.room ⟨v⟩ := by
  have hlength := (h.tidy ht hm).length_waiting
  rw [ht.count_eq (h.evolves hm) h.size] at hlength
  have hload : m₁.load = m₁.waiting.length +
      ∑ v ∈ Finset.range m.subscriptions.size, (m.row ⟨v⟩).length * m.store.room ⟨v⟩ := by
    simp only [load, row, h.subscriptions, h.room_eq]
  omega

/-! ## Rounds -/

section
variable [Propagator ν π] {e : Entry π}

/-- A run that succeeds from an empty sink pushes events of variables only that have lost room. -/
theorem Valid.execute_spends (hm : m.Valid) (he : m.entries[p.id]? = some e)
    (h : execute p m = .ok () m') : m.store.Spends m'.store := by
  have hevolves := ((hm.execute_ends he).of_ok h).evolves
  refine ⟨hevolves.scene, ?_⟩
  rcases (hm.execute_runs he).of_ok h with ⟨-, rfl⟩ | ⟨-, w, hw, hj⟩
  · exact fun _ _ _ hd => .inl hd
  · have hdesk := hm.store.evolves_aside m.store.sink (some p)
    have hspends := ((job ν e).run_spends (w := m.desk p e) hdesk.valid).of_ok hw
    intro v f c hd
    rw [hj.same.sink] at hd
    rw [hj.same.scene]
    exact hspends.sink v f c hd

/-- A round takes at least one from the load. -/
theorem Dispatched.load_lt (h : m₁.Dispatched m₂) (hm : m.Valid) (ht : m.Tidy)
    (hsink : m.store.sink = .empty) (hpop : m.queue.pop = some (p, q))
    (hrun : execute p { m with queue := q } = .ok () m₁) : m₂.load < m.load := by
  have hready := (Evolves.withQueue hm q).valid
  have hp : p.id < m.entries.size := ht.lt_of_pop hpop
  have he : ({ m with queue := q } : Model ν π).entries[p.id]? = some m.entries[p.id] :=
    Array.getElem?_eq_getElem hp
  have hexec := (hready.execute_ends he).of_ok hrun
  have hspends := hready.execute_spends he hrun
  have hrows : m₁.subscriptions = m.subscriptions := hexec.subscriptions
  have hvalid := hexec.evolves.valid
  have hle := h.load_le (r := fun v => m.store.room ⟨v⟩) (fun v hv => ?_) ?_
  · have hwaiting : m₁.waiting = ({ m with queue := q } : Model ν π).waiting := by
      unfold waiting
      rw [hexec.queue]
    have hlength := length_waiting_pop ht.queue hpop
    have hload : m.load = m.waiting.length + ∑ v ∈ Finset.range m.subscriptions.size,
      (m.row ⟨v⟩).length * m.store.room ⟨v⟩ := rfl
    simp only [row, hrows, hwaiting] at hle hload
    omega
  · -- a variable with subscribers is alive, and its room is that of its domain
    rw [hrows] at hv
    have hlive : m.store.scene ⟨v⟩ ≠ none := by
      refine (hm.store.ne_none_iff _).2 ?_
      rw [← hm.store.varCount_eq]
      exact hv.trans_le ht.rows
    obtain ⟨D, hD⟩ := Option.ne_none_iff_exists'.1 hlive
    obtain ⟨D', hD', hle⟩ := hspends.scene ⟨v⟩ D hD
    have hwf := hm.store.wf hD
    have hwf' := hvalid.store.wf hD'
    rw [hvalid.store.room_eq hD', hm.store.room_eq hD]
    refine ⟨hle.room_le hwf' hwf, fun f c hd => hle.room_lt hwf' hwf fun heq => ?_⟩
    rcases hspends.sink ⟨v⟩ f c hd with hd | ⟨-, hne⟩
    · have hd : m.store.sink.Has ⟨v⟩ f c := hd
      rw [hsink] at hd
      exact Sink.not_has_empty hd
    · refine hne ?_
      rw [hD', heq]
      exact hD.symm
  · rw [hexec.queue]
    exact (ht.queue.pop_some hpop).1

/-- `m.Went n m'`: from `m` to `m'` there have been `n` rounds, each with a propagator taken off the
queue whose execution succeeded. -/
inductive Went (m : Model ν π) : Nat → Model ν π → Prop
  | start : Went m 0 m
  | round {n : Nat} {m' m₁ m₂ : Model ν π} {p : PropagatorId} (h : Went m n m')
    (hnext : next m' = .ok (some p) m₁) (hrun : execute p m₁ = .ok () m₂) : Went m (n + 1) m₂

/-- The bound on the number of rounds: one for each live propagator, and one for each subscription
and each change that its variable has room for. -/
def bound (m : Model ν π) : Nat :=
  m.propagatorCount + ∑ v ∈ Finset.range m.store.varCount,
    ((m.subscriptions[v]?).getD []).length * m.store.room ⟨v⟩

omit [Propagator ν π] in
theorem Dispatched.load_le_bound (h : m.Dispatched m₁) (hm : m.Valid) (ht : m.Tidy) :
    m₁.load ≤ m.bound := by
  have hle := h.load_le_budget hm ht
  have hsum : ∑ v ∈ Finset.range m.subscriptions.size, (m.row ⟨v⟩).length * m.store.room ⟨v⟩ ≤
      ∑ v ∈ Finset.range m.store.varCount,
        ((m.subscriptions[v]?).getD []).length * m.store.room ⟨v⟩ :=
    Finset.sum_le_sum_of_subset (Finset.range_subset_range.2 ht.rows)
  unfold bound
  rw [hm.propagatorCount_eq]
  omega

/-- The run lemma of `Dispatched.load_lt`: validity and `Tidy` are kept, and the load and the number
of rounds together are at most `m.bound`. -/
theorem Went.load_le {n : Nat} (h : m.Went n m') (hm : m.Valid) (ht : m.Tidy) :
    m'.Valid ∧ m'.Tidy ∧ ∀ m₁, m'.Dispatched m₁ → m₁.load + n ≤ m.bound := by
  induction h with
  | start => exact ⟨hm, ht, fun m₁ hd => hd.load_le_bound hm ht⟩
  | @round n m' m₁ m₂ p _ hnext hrun ih =>
    obtain ⟨hm', ht', hload⟩ := ih
    obtain ⟨u, hd, q, hpop, rfl⟩ := (ht'.next_ends hm').of_ok hnext
    have hu := (hd.evolves hm').valid
    have htu := hd.tidy ht' hm'
    have hp : p.id < u.entries.size := htu.lt_of_pop hpop
    have hexec := ((Evolves.withQueue hu q).valid.execute_ends
      (Array.getElem?_eq_getElem hp)).of_ok hrun
    refine ⟨hexec.evolves.valid, hexec.tidy hpop htu hu, fun m₃ hd₃ => ?_⟩
    have hlt := hd₃.load_lt hu htu hd.sink hpop hrun
    have hle := hload u hd
    omega

/-- If another propagator comes next after `n` rounds, then `n < m.bound`. -/
theorem Went.lt_bound {n : Nat} (h : m.Went n m') (hm : m.Valid) (ht : m.Tidy)
    (hnext : next m' = .ok (some p) m₁) : n < m.bound := by
  obtain ⟨hm', ht', hload⟩ := h.load_le hm ht
  obtain ⟨u, hd, q, hpop, -⟩ := (ht'.next_ends hm').of_ok hnext
  have hlength := length_waiting_pop (hd.tidy ht' hm').queue hpop
  have hle := hload u hd
  unfold load at hle
  omega

/-! ## The loop -/

theorem settle_zero (m : Model ν π) : settle 0 m = match next m with
    | .ok none u => .ok () u
    | .ok (some _) u => .error (.fault .exhausted) u
    | .error f u => .error (.fault f) u := by
  rw [settle, bind_apply, lift, mapError_apply]
  cases next m with
  | ok o u => cases o <;> rfl
  | error f u => rfl

theorem settle_succ (n : Nat) (m : Model ν π) : settle (n + 1) m = match next m with
    | .ok none u => .ok () u
    | .ok (some p) u => (execute p >>= fun _ => settle n : Attempt ν π Unit) u
    | .error f u => .error (.fault f) u := by
  rw [settle, bind_apply, lift, mapError_apply]
  cases next m with
  | ok o u => cases o <;> rfl
  | error f u => rfl

theorem Went.cons {n : Nat} (hnext : next m = .ok (some p) m₁) (hrun : execute p m₁ = .ok () m₂)
    (h : m₂.Went n m') : m.Went (n + 1) m' := by
  induction h with
  | start => exact .round .start hnext hrun
  | round _ hnext' hrun' ih => exact .round ih hnext' hrun'

/-- If no propagator comes next after `k` rounds, a limit of `k + 1` gives the same result as `k`.
-/
theorem settle_more {k : Nat} (h : ∀ m' p m₁, m.Went k m' → next m' ≠ .ok (some p) m₁) :
    settle (k + 1) m = settle k m := by
  induction k generalizing m with
  | zero =>
    rw [settle_zero, settle_succ]
    cases hnext : next m with
    | error f u => rfl
    | ok o u =>
      cases o with
      | none => rfl
      | some p => exact absurd hnext (h m p u .start)
  | succ k ih =>
    rw [settle_succ, settle_succ]
    cases hnext : next m with
    | error f u => rfl
    | ok o u =>
      cases o with
      | none => rfl
      | some p =>
        simp only [bind_apply]
        cases hrun : execute p u with
        | error e w => rfl
        | ok a w => exact ih fun m' q m₁ hw => h m' q m₁ (hw.cons hnext hrun)

/-- `settle k` faults because `execute` does after some number of rounds, or because another
propagator comes next after `k` of them. -/
theorem settle_fault {k : Nat} {f : Fault} (hm : m.Valid) (ht : m.Tidy)
    (h : settle k m = .error (.fault f) m') :
    ∃ n u p u₁, m.Went n u ∧ next u = .ok (some p) u₁ ∧
      (execute p u₁ = .error (.fault f) m' ∨ n = k ∧ f = .exhausted) := by
  induction k generalizing m with
  | zero =>
    rw [settle_zero] at h
    cases hnext : next m with
    | error g u => exact ((ht.next_ends hm).of_error hnext).elim
    | ok o u =>
      rw [hnext] at h
      cases o with
      | none => cases h
      | some p =>
        cases h
        exact ⟨0, m, p, _, .start, hnext, .inr ⟨rfl, rfl⟩⟩
  | succ k ih =>
    rw [settle_succ] at h
    cases hnext : next m with
    | error g u => exact ((ht.next_ends hm).of_error hnext).elim
    | ok o u =>
      rw [hnext] at h
      cases o with
      | none => cases h
      | some p =>
        simp only [bind_apply] at h
        cases hrun : execute p u with
        | error e w =>
          rw [hrun] at h
          cases h
          exact ⟨0, m, p, u, .start, hnext, .inl hrun⟩
        | ok a w =>
          rw [hrun] at h
          obtain ⟨hw, htw, -⟩ := (Went.round .start hnext hrun).load_le hm ht
          obtain ⟨n, u', p', u₁, hwent, hnext', hor⟩ := ih hw htw h
          exact ⟨n + 1, u', p', u₁, hwent.cons hnext hrun, hnext', hor.imp_right fun hn =>
            ⟨congrArg (· + 1) hn.1, hn.2⟩⟩

/-- The code of `p` faults by `f`: the action that its entry is scheduled for, or `entailment` after
it. -/
inductive Breaks (m : Model ν π) (p : PropagatorId) (f : Fault) : Prop
  | running {e : Entry π} {w : Workspace ν π} (he : m.entries[p.id]? = some e)
    (h : (job ν e).run (m.desk p e) = .error (.fault f) w)
  | asked {e : Entry π} {w : Workspace ν π} (he : m.entries[p.id]? = some e)
    (hrun : (job ν e).run (m.desk p e) = .ok () w)
    (h : Propagator.entailment ν w.own { w.store with running := none } = .error f)

theorem Valid.execute_breaks (hm : m.Valid) (hp : p.id < m.entries.size) {f : Fault}
    (h : execute p m = .error (.fault f) m') : m.Breaks p f := by
  have he : m.entries[p.id]? = some m.entries[p.id] := Array.getElem?_eq_getElem hp
  obtain ⟨-, w, hw⟩ := (hm.execute_runs he).of_error h
  rcases hw with hw | ⟨hw, hent⟩
  · exact .running he hw
  · exact .asked he hw hent

/-- In some round of a propagation from `m` the code of the propagator faults by `f`. -/
def Broken (m : Model ν π) (f : Fault) : Prop :=
  ∃ n u p u₁, m.Went n u ∧ next u = .ok (some p) u₁ ∧ u₁.Breaks p f

theorem Tidy.settle_broken (ht : m.Tidy) (hm : m.Valid) {k : Nat} (hk : m.bound ≤ k) {f : Fault}
    (h : settle k m = .error (.fault f) m') : m.Broken f := by
  obtain ⟨n, u, p, u₁, hwent, hnext, hrun | ⟨rfl, -⟩⟩ := settle_fault hm ht h
  · obtain ⟨hu, htu, -⟩ := hwent.load_le hm ht
    obtain ⟨v, hd, q, hpop, rfl⟩ := (htu.next_ends hu).of_ok hnext
    have htv := hd.tidy htu hu
    have hp : p.id < v.entries.size := htv.lt_of_pop hpop
    have hready := (Evolves.withQueue (hd.evolves hu).valid q).valid
    exact ⟨n, u, p, _, hwent, hnext, hready.execute_breaks hp hrun⟩
  · have hlt := hwent.lt_bound hm ht hnext
    omega

omit [Propagator ν π] in
theorem Tidy.budget_eq (ht : m.Tidy) (hm : m.Valid) : m.budget = m.bound := by
  have hfold : ∀ (f : Nat → Nat) (a n : Nat),
      (List.range n).foldl (fun b v => b + f v) a = a + ∑ v ∈ Finset.range n, f v := by
    intro f a n
    induction n with
    | zero => rfl
    | succ n ih =>
      rw [List.range_succ, List.foldl_append, ih, Finset.sum_range_succ]
      exact Nat.add_assoc _ _ _
  unfold budget bound
  rw [hfold, ht.size, hm.propagatorCount_eq]

/-- A fault of `fixpoint` is one of the code of a propagator. -/
theorem Tidy.fixpoint_broken (ht : m.Tidy) (hm : m.Valid) :
    Ends (fixpoint : Attempt ν π Unit) m (fun _ _ => True)
      fun e _ => ∀ f, e = .fault f → m.Broken f := by
  cases h : settle m.budget m with
  | ok a u => exact ends_of_ok (by rw [fixpoint, h]) trivial
  | error e u =>
    cases e with
    | contradiction c => exact ends_of_error (by rw [fixpoint, h]) (by simp)
    | fault f =>
      have hfault : fixpoint m = .error (.fault f) u := by rw [fixpoint, h]
      refine ends_of_error hfault fun g hg => ?_
      cases hg
      exact ht.settle_broken hm (ht.budget_eq hm).ge h

end

end Model

section
variable {ν π : Type} [Propagator ν π]

open Model

/-- After any calls without a fault, the number of propagators that a propagation takes off the
queue is at most that of the live ones, plus for each variable the number of its subscriptions times
the `room` of its domain. A higher limit makes no difference, and the propagation succeeds or ends
in a contradiction unless the code of a propagator itself faults. -/
theorem Model.fixpoint_terminates {cs : List (Call π)} {marks : Array Mark} {s : Session ν π}
    {xs : List (Step ν π)} (h : Session.run cs ⟨.empty, marks⟩ = .ok xs s) :
    (∀ n m p m₁, s.model.Went n m → next m = .ok (some p) m₁ →
      n + 1 ≤ s.model.propagatorCount + ∑ v ∈ Finset.range s.model.store.varCount,
        ((s.model.subscriptions[v]?).getD []).length * s.model.store.room ⟨v⟩) ∧
    (∀ k, s.model.budget ≤ k → settle k s.model = settle s.model.budget s.model) ∧
    Ends (fixpoint : Attempt ν π Unit) s.model (fun _ _ => True)
      fun e _ => ∀ f, e = .fault f → s.model.Broken f := by
  have hready := Session.ready h ready_empty
  obtain ⟨hm, ht⟩ := And.intro hready.valid hready.tidy
  refine ⟨fun n m p m₁ hwent hnext => hwent.lt_bound hm ht hnext, fun k hk => ?_,
    ht.fixpoint_broken hm⟩
  induction k, hk using Nat.le_induction with
  | base => rfl
  | succ k hk ih =>
    rw [← ih]
    refine settle_more fun m' p m₁ hwent hnext => ?_
    have hlt := hwent.lt_bound hm ht hnext
    rw [← ht.budget_eq hm] at hlt
    omega

end

open Model in
/-- Three variables of two values each, and two disequalities along them. -/
theorem Model.fixpoint_terminates_chain :
    ∃ (xs : List (Step Unit NotEqual)) (s : Session Unit NotEqual),
      Session.run [.create (.interval 0 1), .create (.interval 0 1), .create (.interval 0 1),
        .post (.of ⟨0⟩ ⟨1⟩), .post (.of ⟨1⟩ ⟨2⟩), .narrow ⟨0⟩ (.fix 1) .decision]
        ⟨.empty, #[]⟩ = .ok xs s ∧
      (∀ n m p m₁, s.model.Went n m → next m = .ok (some p) m₁ →
        n + 1 ≤ s.model.propagatorCount + ∑ v ∈ Finset.range s.model.store.varCount,
          ((s.model.subscriptions[v]?).getD []).length * s.model.store.room ⟨v⟩) ∧
      (∀ k, s.model.budget ≤ k → settle k s.model = settle s.model.budget s.model) ∧
      Ends (fixpoint : Attempt Unit NotEqual Unit) s.model (fun _ _ => True)
        fun e _ => ∀ f, e = .fault f → s.model.Broken f := by
  obtain ⟨xs, s, hrun, -⟩ := Session.exists_run
    [.create (.interval 0 1), .create (.interval 0 1), .create (.interval 0 1),
      .post (NotEqual.of ⟨0⟩ ⟨1⟩), .post (.of ⟨1⟩ ⟨2⟩), .narrow ⟨0⟩ (.fix 1) .decision]
    (⟨.empty, #[]⟩ : Session Unit NotEqual) (fun _ => true) (by decide +kernel)
  exact ⟨xs, s, hrun, fixpoint_terminates hrun⟩

end Propagation
