import Propagation.Delta.Monitor
import Propagation.Proofs.Filter.Decide

/-!
# What a monitor has seen

Freezing a monitor sets its end to the end of the log (`Monitor.frozenAt`), and unfreezing takes
everything up to there as dealt with (`Monitor.caughtUp`). Draining it in between decides what the
callback decides for the entries that are unseen (`Monitor.drain_filters`); what it appends to the
log itself stays unseen.
-/

set_option autoImplicit false

namespace Propagation.Monitor

open Update Store Scene Propagation.Action

/-- The position of the monitor in the log of `s`: what it has drained, or zero if the logs have
been cleared since. -/
def start (m : Monitor) (s : Store) : Nat := if m.epoch = some s.epoch then m.drained else 0

/-- The entries of the log from `m.start s` on. -/
def unseen (m : Monitor) (s : Store) : List DeltaEntry := (s.logOf m.var).drop (m.start s)

/-- The position of the monitor is one in the log, unless the epoch is over and the log has been
cleared. -/
def Tracks (m : Monitor) (s : Store) : Prop :=
  ∀ e, m.epoch = some e → e ≤ s.epoch ∧ (e = s.epoch → m.drained ≤ (s.logOf m.var).length)

/-- The monitor after `freeze` on `s`: its end is the end of the log. -/
def frozenAt (m : Monitor) (s : Store) : Monitor :=
  { m with
    epoch := some s.epoch
    drained := m.start s
    frozen := some (s.logOf m.var).length }

/-- The monitor after `freeze` and `unfreeze` on `s`: the whole log has been drained. -/
def caughtUp (m : Monitor) (s : Store) : Monitor :=
  { m with
    epoch := some s.epoch
    drained := (s.logOf m.var).length
    frozen := none }

variable {m : Monitor} {s s' : Store}

theorem tracks_fresh (v : Var) (p : PropagatorId) (s : Store) : (fresh v p).Tracks s := nofun

theorem tracks_caughtUp (m : Monitor) (s : Store) : (m.caughtUp s).Tracks s := by
  rintro e ⟨⟩
  exact ⟨Nat.le_refl _, fun _ => Nat.le_refl _⟩

/-- `Tracks` is kept when the log grows, and when all logs are cleared. -/
theorem Tracks.later (h : m.Tracks s) (hepoch : s.epoch ≤ s'.epoch)
    (hlog : s'.epoch = s.epoch → s.logOf m.var <+: s'.logOf m.var) : m.Tracks s' := by
  intro e he
  obtain ⟨hle, hlen⟩ := h e he
  refine ⟨hle.trans hepoch, fun heq => ?_⟩
  have hsame : s'.epoch = s.epoch := by omega
  exact (hlen (heq.trans hsame)).trans (hlog hsame).length_le

/-- An unseen entry stays unseen while the log grows. -/
theorem unseen_later (hepoch : s'.epoch = s.epoch)
    (hlog : s.logOf m.var <+: s'.logOf m.var) {x : DeltaEntry} (hx : x ∈ m.unseen s) :
    x ∈ m.unseen s' := by
  obtain ⟨es, hes⟩ := hlog
  rw [unseen, start, hepoch, ← hes, List.drop_append]
  exact List.mem_append_left _ hx

/-- The entries `es` appended to the log are unseen. -/
theorem Tracks.mem_unseen (h : m.Tracks s) (hepoch : s'.epoch = s.epoch) {es : List DeltaEntry}
    (hlog : s'.logOf m.var = s.logOf m.var ++ es) {x : DeltaEntry} (hx : x ∈ es) :
    x ∈ m.unseen s' := by
  have hle : m.start s' ≤ (s.logOf m.var).length := by
    rw [start, hepoch]
    split
    · next he => exact (h _ he).2 rfl
    · exact Nat.zero_le _
  rw [unseen, hlog, List.drop_append_of_le_length hle]
  exact List.mem_append_right _ hx

/-! ## Freezing and unfreezing -/

theorem resync_eq (m : Monitor) (s : Store) :
    m.resync s.epoch = { m with epoch := some s.epoch, drained := m.start s } := by
  rw [resync, start]
  by_cases h : m.epoch = some s.epoch
  · rw [if_pos h, if_pos h, ← h]
  · rw [if_neg h, if_neg h]

theorem freeze_ends (hs : s.Valid) (m : Monitor) :
    Ends (freeze s) m (fun _ m' => m' = m.frozenAt s ∧ s.scene m.var ≠ none)
      fun _ _ => ¬(m.frozen = none ∧ s.scene m.var ≠ none) := by
  unfold freeze
  refine Ends.of_eq ?_ (bind_ok _ (get_apply m))
  by_cases hf : m.frozen = none
  · rw [if_neg (by simp [isFrozen, hf])]
    refine Ends.of_eq ?_ (bind_ok _ (set_apply _ _))
    by_cases hv : s.scene m.var = none
    · have hdelta : Update.query (fun m : Monitor => s.delta m.var) (m.resync s.epoch) =
          .error (.violation (.deadVar m.var)) (m.resync s.epoch) := by
        rw [query_apply, resync_eq, hs.delta_dead hv]
      exact ends_of_error (bind_error _ hdelta) fun h => h.2 hv
    · obtain ⟨l, hl, hlog⟩ := hs.delta_eq hv
      have hdelta : Update.query (fun m : Monitor => s.delta m.var) (m.resync s.epoch) =
          .ok l (m.resync s.epoch) := by
        rw [query_apply, resync_eq, hl]
      refine Ends.of_eq ?_ (bind_ok _ hdelta)
      refine ends_of_ok (modify_apply _ _) ⟨?_, hv⟩
      rw [resync_eq, frozenAt, ← hlog]
      rfl
  · rw [if_pos (by simpa [isFrozen, Option.isSome_iff_ne_none] using hf)]
    exact ends_of_error (throw_apply _ _) fun h => hf h.1

theorem unfreeze_ends (m : Monitor) :
    Ends unfreeze m
      (fun _ m' => ∃ k, m.frozen = some k ∧ m' = { m with drained := k, frozen := none })
      fun _ _ => m.frozen = none := by
  unfold unfreeze
  refine Ends.of_eq ?_ (bind_ok _ (get_apply m))
  cases hm : m.frozen with
  | some k => exact ends_of_ok (set_apply _ _) ⟨k, rfl, rfl⟩
  | none => exact ends_of_error (throw_apply _ _) rfl

theorem unfreeze_frozenAt (m : Monitor) (s : Store) :
    unfreeze (m.frozenAt s) = .ok () (m.caughtUp s) := rfl

/-- Freezing a monitor and unfreezing it at once leaves it `caughtUp`. It faults iff the monitor is
frozen or its variable dead. -/
theorem skip_ends (hs : s.Valid) (m : Monitor) :
    Ends (do
        freeze s
        unfreeze) m (fun _ m' => m' = m.caughtUp s ∧ s.scene m.var ≠ none)
      fun _ _ => ¬(m.frozen = none ∧ s.scene m.var ≠ none) := by
  refine (freeze_ends hs m).bind fun _ m' ⟨hm', hv⟩ => ?_
  subst hm'
  exact ends_of_ok (unfreeze_frozenAt m s) ⟨rfl, hv⟩

/-! ## Draining -/

section
variable {ν σ : Type} {w : Workspace ν σ} {e : Event}

/-- `drain` passes `x` to the callback: it is an entry of the event `e`, and not by the owner. -/
def Delivers (m : Monitor) (e : Event) (x : DeltaEntry) : Prop :=
  x.event = e ∧ x.cause ≠ .propagator m.owner

instance (m : Monitor) (e : Event) (x : DeltaEntry) : Decidable (m.Delivers e x) :=
  inferInstanceAs (Decidable (_ ∧ _))

/-- `deliver` runs the callback on those of the `n` entries from `i` on that pass `Delivers`. The
log may have grown from `L` meanwhile. -/
theorem run_deliver (f : DeltaEntry → Action ν σ Unit) (hs : w.store.Valid)
    (hv : w.store.scene m.var ≠ none) {L : List DeltaEntry} (hL : L <+: w.store.logOf m.var)
    {i n : Nat} (hn : n ≤ L.length - i) :
    (m.deliver e f i n).run w = ((((L.drop i).take n).filter (m.Delivers e)).forM f).run w := by
  induction n generalizing i w with
  | zero =>
    rw [List.take_zero]
    rfl
  | succ n ih =>
    have hi : i < L.length := by omega
    obtain ⟨l, hl, hlog⟩ := hs.delta_eq hv
    have hentry : (do (← w.store.delta m.var).entry i) = Except.ok (ε := Fault) L[i] := by
      rw [hl]
      refine Checked.fetch_eq_ok.2 ?_
      rw [← Array.getElem?_toList]
      show l.toList[i]? = some L[i]
      obtain ⟨es, hes⟩ := hL
      rw [hlog, ← hes, List.getElem?_append_left hi, List.getElem?_eq_getElem hi]
    have hquery : (Action.query fun s => do (← s.delta m.var).entry i :
        Action ν σ DeltaEntry).run w = .ok L[i] w := by rw [run_query, hentry]
    rw [deliver, run_seq, bind_ok _ hquery, List.drop_eq_getElem_cons hi, List.take_succ_cons]
    by_cases hd : m.Delivers e L[i]
    · rw [if_pos (show _ ∧ _ from hd), List.filter_cons_of_pos (by simpa using hd)]
      show (f L[i] >>= fun _ => m.deliver e f (i + 1) n).run w =
        (f L[i] >>= fun _ => (((L.drop (i + 1)).take n).filter (m.Delivers e)).forM f).run w
      rw [run_seq, run_seq, bind_apply, bind_apply]
      cases hrun : (f L[i]).run w with
      | error x u => rfl
      | ok a u =>
        -- whatever the callback has done, the entries that follow are still there
        have h := ((f L[i]).run_extends hs).of_ok hrun
        exact ih h.valid (h.live _ hv) (hL.trans (h.log _ hv)) (by omega)
    · rw [if_neg (show ¬(_ ∧ _) from hd), List.filter_cons_of_neg (by simpa using hd)]
      exact ih hs hv hL (by omega)

/-- `drain` on a monitor that was frozen at `s` runs the callback on the entries that were unseen in
`s`. -/
theorem run_drain (f : DeltaEntry → Action ν σ Unit) (hs : w.store.Valid)
    (hv : w.store.scene m.var ≠ none) (hepoch : w.store.epoch = s.epoch)
    (hlog : s.logOf m.var <+: w.store.logOf m.var) :
    ((m.frozenAt s).drain e f).run w = (((m.unseen s).filter (m.Delivers e)).forM f).run w := by
  have hdeliver := run_deliver (m := m.frozenAt s) (e := e) (i := m.start s)
    (n := (s.logOf m.var).length - m.start s) f hs hv hlog (Nat.le_refl _)
  rw [List.take_of_length_le (by simp)] at hdeliver
  refine Eq.trans ?_ hdeliver
  show (if some s.epoch = some w.store.epoch then _ else _ : Action ν σ Unit).run w = _
  rw [hepoch, if_pos rfl]
  rfl

variable {P : Scene → Prop} {fit : Prop} {c : Cause} {K E : DeltaEntry → Var → Element → Prop}
  {f : DeltaEntry → Action ν σ Unit}

/-- If the callback decides `K x` and `E x` for each unseen entry, draining a monitor that was
frozen at `s` decides the unions. -/
theorem drain_filters (hs : w.store.Valid) (hv : w.store.scene m.var ≠ none)
    (hepoch : w.store.epoch = s.epoch) (hlog : s.logOf m.var <+: w.store.logOf m.var)
    (hstep : ∀ x ∈ m.unseen s, m.Delivers e x → ∀ u, Advance P w.store c u.store →
      u.own = w.own → Filters P fit c u (f x) fun _ S => Decided u.store.scene (K x) (E x) S) :
    Filters P fit c w ((m.frozenAt s).drain e f) fun _ S => Decided w.store.scene
      (fun v g => ∃ x ∈ m.unseen s, m.Delivers e x ∧ K x v g)
      (fun v g => ∃ x ∈ m.unseen s, m.Delivers e x ∧ E x v g) S := by
  refine Ends.of_eq (Filters.mono (filters_deciding (K := K) (E := E) hs ?_) fun _ _ _ h => ?_)
    (run_drain f hs hv hepoch hlog)
  · intro done x rest u hxs hown hadv _
    have hx : x ∈ (m.unseen s).filter (m.Delivers e) := by
      rw [hxs]
      exact List.mem_append_right _ List.mem_cons_self
    obtain ⟨hmem, hd⟩ := List.mem_filter.1 hx
    exact hstep x hmem (of_decide_eq_true hd) u hadv hown
  · refine h.congr ?_ ?_ <;>
    · intro v g
      simp only [List.mem_filter, decide_eq_true_eq, and_assoc]

end

end Propagation.Monitor
