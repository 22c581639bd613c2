import Mathlib.Algebra.Order.BigOperators.Group.List
import Mathlib.Algebra.Order.Group.Nat
import Moli.IndexedDb.Verify.TransactionAdmission
import Moli.Lib.MapSum

/-!
# No lost and no spurious wake

The callbacks of a request that were called or are still outstanding in some call, and the
transitions it made, form an account that every step keeps (`balance_step`): a callback is
collected exactly when its request becomes ready or canceled. A cancellation of a whole database
collects its callbacks before it marks the requests, so the transitions that are still to come are
counted on the other side.
-/

namespace Moli.IndexedDb.TransactionQueue

open Lib List Function

variable {w : World} {id : Nat}

namespace World

/-- Callbacks of a request that were collected and not called yet. -/
def outstandingWakes (w : World) (id : Nat) : Nat := (w.calls.map fun c => c.wakes.count id).sum

/-- Requests that left their queue and are not marked canceled yet. -/
def outstandingCancels (w : World) (id : Nat) : Nat := (w.calls.map fun c => c.cancels.count id).sum

theorem outstandingCancels_eq_zero :
    w.outstandingCancels id = 0 ↔ ∀ c ∈ w.calls, id ∉ c.cancels := by
  simp [outstandingCancels, List.sum_eq_zero_iff_forall_eq_nat, List.count_eq_zero]

/-- The state of the deferred actions. -/
structure Deferred (w : World) : Prop where
  sublist : ∀ c ∈ w.calls, c.cancels.Sublist c.wakes
  once : ∀ id, w.outstandingCancels id ≤ 1
  live : ∀ c ∈ w.calls, ∀ id ∈ c.cancels, IsLive (w.status id)

theorem Deferred.init : World.init.Deferred where
  sublist := by simp [World.init]
  once := by simp [World.init, outstandingCancels]
  live := by simp [World.init]

variable {w w' : World}

/-- Entries that are still queued are not being canceled outside the lock. -/
theorem Inv.outstandingCancels_eq_zero (h : w.Inv) {key : DatabaseKey} {e : QueuedRequest}
    (he : e ∈ w.queue key) : w.outstandingCancels e.id = 0 :=
  World.outstandingCancels_eq_zero.2 fun c hc hmem => (h.canceling c hc _ hmem).2 key e he rfl

theorem Deferred.effect (h : w.Inv) (hd : w.Deferred) (heffect : Effect w w') : w'.Deferred := by
  cases heffect with
  | unchanged heq => exact heq ▸ hd
  | admitted key e hnext hid hqueue hstatus hcalls _ _ =>
    refine ⟨hcalls ▸ hd.sublist, fun i => ?_, fun c hc i hi => ?_⟩
    · simpa only [outstandingCancels, hcalls] using hd.once i
    · rw [hcalls] at hc
      have hle := (h.canceling c hc i hi).1
      rw [hstatus, StatusCells.set_of_ne (by omega)]
      exact hd.live c hc i hi
  | started key older newer e hqueue hready heq =>
    subst heq
    refine ⟨hd.sublist, hd.once, fun c hc i hi => ?_⟩
    by_cases hie : i = e.id
    · exact .inr (.inr (hie ▸ update_self _ _ _))
    · simp only [StatusCells.set_of_ne hie]
      exact hd.live c hc i hi
  | shrunk mid wakes hmid hwakes hframe hnext hsub hsettled hcalls _ _ =>
    refine ⟨fun c hc => ?_, fun i => ?_, fun c hc i hi => ?_⟩
    · rw [hcalls, mem_append, mem_singleton] at hc
      rcases hc with hc | rfl
      · exact hd.sublist c hc
      · exact nil_sublist _
    · simpa [outstandingCancels, hcalls] using hd.once i
    · rw [hcalls, mem_append, mem_singleton] at hc
      rcases hc with hc | rfl
      · rw [hframe i fun k e he => (h.canceling c hc i hi).2 k e he]
        exact hd.live c hc i hi
      · cases hi
  | detached key hnext hqueue hstatus hcalls _ _ =>
    refine ⟨fun c hc => ?_, fun i => ?_, fun c hc i hi => ?_⟩
    · rw [hcalls, mem_append, mem_singleton] at hc
      rcases hc with hc | rfl
      · exact hd.sublist c hc
      · exact .refl _
    · have hold := hd.once i
      have hnew := nodup_iff_count_le_one.1 (h.nodup key) i
      simp only [outstandingCancels, hcalls, map_append, sum_append, map_cons,
        map_nil, sum_cons, sum_nil] at hold ⊢
      by_cases hi : i ∈ (w.queue key).map QueuedRequest.id
      · obtain ⟨e, he, rfl⟩ := mem_map.1 hi
        have hzero := h.outstandingCancels_eq_zero he
        rw [outstandingCancels] at hzero
        omega
      · rw [count_eq_zero_of_not_mem hi]
        omega
    · rw [hstatus]
      rw [hcalls, mem_append, mem_singleton] at hc
      rcases hc with hc | rfl
      · exact hd.live c hc i hi
      · obtain ⟨e, he, rfl⟩ := mem_map.1 hi
        exact (h.settled key).isLive e he
  | canceled call id cancels wakes hcall heq =>
    subst heq
    have hmem := mem_of_getElem? hcall
    have hsum := fun i => sum_map_set (fun c => c.cancels.count i) hcall ⟨cancels, wakes⟩
    refine ⟨fun c hc => ?_, fun i => ?_, fun c hc i hi => ?_⟩
    · rcases mem_or_eq_of_mem_set hc with hc | rfl
      · exact hd.sublist c hc
      · exact (sublist_cons_self id cancels).trans (hd.sublist _ hmem)
    · have hold := hd.once i
      have hnew := hsum i
      have hcount := count_le_count_cons (a := i) (b := id) (l := cancels)
      simp only [outstandingCancels] at hold ⊢
      simp only at hnew
      omega
    · have hne : i ≠ id := by
        rintro rfl
        have hold := hd.once i
        have hnew := hsum i
        simp only [outstandingCancels] at hold
        simp only [count_cons_self] at hnew
        refine World.outstandingCancels_eq_zero.1 ?_ c hc hi
        simp only [outstandingCancels]
        omega
      simp only [StatusCells.set_of_ne hne]
      rcases mem_or_eq_of_mem_set hc with hc | rfl
      · exact hd.live c hc i hi
      · exact hd.live _ hmem i (mem_cons_of_mem _ hi)
  | woke call id wakes hcall heq =>
    subst heq
    refine ⟨fun c hc => ?_, fun i => ?_, fun c hc i hi => ?_⟩
    · rcases mem_or_eq_of_mem_set hc with hc | rfl
      · exact hd.sublist c hc
      · exact nil_sublist _
    · have hnew := sum_map_set (fun c => c.cancels.count i) hcall ⟨[], wakes⟩
      have hold := hd.once i
      simp only [outstandingCancels] at hold ⊢
      simp only [count_nil] at hnew
      omega
    · rcases mem_or_eq_of_mem_set hc with hc | rfl
      · exact hd.live c hc i hi
      · cases hi

/-! ## The account of a request -/

/-- One if the step is a transition that the callback reports. -/
def transitionOf (id : Nat) (w w' : World) : Nat :=
  if wakeTransition (w.status id) (w'.status id) then 1 else 0

theorem balance_step (h : w.Inv) (hd : w.Deferred) (heffect : Effect w w') (id : Nat) :
    w'.woken.count id + w'.outstandingWakes id + w.outstandingCancels id =
      w.woken.count id + w.outstandingWakes id + w'.outstandingCancels id +
        transitionOf id w w' := by
  cases heffect with
  | unchanged heq => simp [heq, transitionOf]
  | admitted key e hnext hid hqueue hstatus hcalls hwoken _ =>
    have hnone : wakeTransition (w.status id) (w'.status id) = false := by
      rw [hstatus, StatusCells.set]
      by_cases hie : id = e.id
      · rw [h.fresh id (by omega)]
        rfl
      · rw [update_of_ne hie, wakeTransition_self]
    simp [outstandingWakes, outstandingCancels, hcalls, hwoken, transitionOf, hnone]
  | started key older newer e hqueue hready heq =>
    subst heq
    have hnone : wakeTransition (w.status id) ((w.status.set e.id .started) id) = false := by
      rw [StatusCells.set]
      by_cases hie : id = e.id
      · rw [hie, hready, update_self]
        rfl
      · rw [update_of_ne hie, wakeTransition_self]
    simp [outstandingWakes, outstandingCancels, transitionOf, hnone]
  | shrunk mid wakes hmid hwakes hframe hnext hsub hsettled hcalls hwoken _ =>
    have htrans : wakes.count id = transitionOf id w w' := by
      rw [hwakes.count_eq, transitionOf]
      rcases hmid with rfl | ⟨key, e, he, hlive, rfl, -⟩
      · rfl
      · by_cases hie : id = e.id
        · have hfin : (w.status.set e.id .finished) id = some .finished :=
            hie ▸ update_self _ _ _
          -- A finished request makes no further transition.
          have hafter : w'.status id = some .finished := by
            by_contra hne
            have := hwakes.changed id (by rwa [hfin])
            rw [hfin] at this
            simp [wakeTransition] at this
          rw [hafter]
          rcases hlive with hlive | hlive | hlive <;> simp [wakeTransition]
        · rw [StatusCells.set_of_ne hie]
    simp only [outstandingWakes, outstandingCancels, hcalls, hwoken, map_append,
      sum_append, map_cons, map_nil, sum_cons, count_nil]
    omega
  | detached key hnext hqueue hstatus hcalls hwoken _ =>
    simp only [outstandingWakes, outstandingCancels, hcalls, hwoken, transitionOf, hstatus,
      wakeTransition_self, map_append, sum_append, map_cons, map_nil]
    simp only [Bool.false_eq_true, if_false]
    omega
  | canceled call i cancels wakes hcall heq =>
    subst heq
    have hlive := hd.live _ (mem_of_getElem? hcall) i mem_cons_self
    have hc := sum_map_set (fun c => c.cancels.count id) hcall ⟨cancels, wakes⟩
    have hw := sum_map_set (fun c => c.wakes.count id) hcall ⟨cancels, wakes⟩
    simp only [outstandingWakes, outstandingCancels, transitionOf, StatusCells.set]
    by_cases hi : id = i
    · subst hi
      simp only [count_cons_self, update_self, wakeTransition_canceled hlive, if_true] at hc hw ⊢
      omega
    · simp only [count_cons_of_ne (Ne.symm hi), update_of_ne hi, wakeTransition_self] at hc hw ⊢
      simp only [Bool.false_eq_true, if_false]
      omega
  | woke call i wakes hcall heq =>
    subst heq
    have hc := sum_map_set (fun c => c.cancels.count id) hcall ⟨[], wakes⟩
    have hw := sum_map_set (fun c => c.wakes.count id) hcall ⟨[], wakes⟩
    simp only [outstandingWakes, outstandingCancels, transitionOf, wakeTransition_self,
      count_append]
    simp only [count_cons, count_nil, Bool.false_eq_true, if_false] at hc hw ⊢
    omega

/-! ## The life of a request -/

/-- How the status of a request can change in one step. -/
def StatusStep (a b : Option TransactionRequestStatus) : Prop :=
  b = a ∨ wakeTransition a b = true ∨ a = none ∧ (b = some .pending ∨ b = some .ready) ∨
    a = some .ready ∧ b = some .started ∨ IsLive a ∧ b = some .finished

theorem statusStep_set {cells : StatusCells} {i : Nat} {status : TransactionRequestStatus}
    (h : StatusStep (cells i) (some status)) (id : Nat) :
    StatusStep (cells id) ((cells.set i status) id) := by
  rw [StatusCells.set]
  by_cases hi : id = i
  · rwa [hi, update_self]
  · rw [update_of_ne hi]
    exact .inl rfl

theorem status_step (h : w.Inv) (hd : w.Deferred) (heffect : Effect w w') (id : Nat) :
    StatusStep (w.status id) (w'.status id) := by
  cases heffect with
  | unchanged heq => exact .inl (by rw [heq])
  | admitted key e hnext hid hqueue hstatus _ _ _ =>
    rw [hstatus]
    refine statusStep_set (.inr (.inr (.inl ⟨h.fresh _ (by omega), ?_⟩))) id
    cases blockedBy (w.queue key) e.scope <;> simp
  | started key older newer e hqueue hready heq =>
    subst heq
    exact statusStep_set (.inr (.inr (.inr (.inl ⟨hready, rfl⟩)))) id
  | shrunk mid wakes hmid hwakes hframe hnext hsub hsettled _ _ _ =>
    by_cases hsame : w'.status id = mid id
    · rw [hsame]
      rcases hmid with rfl | ⟨key, e, he, hlive, rfl, -⟩
      · exact .inl rfl
      · exact statusStep_set (.inr (.inr (.inr (.inr ⟨hlive, rfl⟩)))) id
    · have hwake := hwakes.changed id hsame
      rcases hmid with rfl | ⟨key, e, he, hlive, rfl, -⟩
      · exact .inr (.inl hwake)
      · by_cases hi : id = e.id
        · rw [StatusCells.set, hi] at hwake
          simp [wakeTransition] at hwake
        · rw [StatusCells.set_of_ne hi] at hwake
          exact .inr (.inl hwake)
  | detached key hnext hqueue hstatus _ _ _ => exact .inl (by rw [hstatus])
  | canceled call i cancels wakes hcall heq =>
    subst heq
    have hlive := hd.live _ (mem_of_getElem? hcall) i mem_cons_self
    exact statusStep_set (.inr (.inl (wakeTransition_canceled hlive))) id
  | woke call i wakes hcall heq =>
    subst heq
    exact .inl rfl

/-- A request is finished only while it is queued. -/
theorem outstandingCancels_of_finished (h : w.Inv) (heffect : Effect w w')
    (hbefore : w.status id ≠ some .finished) (hafter : w'.status id = some .finished) :
    w.outstandingCancels id = 0 := by
  have hset {cells : StatusCells} {i : Nat} {status : TransactionRequestStatus}
      (hcells : cells id ≠ some .finished) (hne : status ≠ .finished) :
      (cells.set i status) id ≠ some .finished := by
    rw [StatusCells.set]
    by_cases hi : id = i
    · subst hi
      simpa using hne
    · rwa [update_of_ne hi]
  cases heffect with
  | unchanged heq => exact absurd (heq ▸ hafter) hbefore
  | admitted key e hnext hid hqueue hstatus _ _ _ =>
    rw [hstatus] at hafter
    refine absurd hafter (hset hbefore ?_)
    split <;> simp
  | started key older newer e hqueue hready heq | canceled call i cancels wakes hcall heq =>
    subst heq
    exact absurd hafter (hset hbefore (by simp))
  | shrunk mid wakes hmid hwakes hframe hnext hsub hsettled _ _ _ =>
    refine World.outstandingCancels_eq_zero.2 fun c hc hi => ?_
    rw [hframe id (h.canceling c hc id hi).2] at hafter
    exact hbefore hafter
  | detached key hnext hqueue hstatus _ _ _ => exact absurd (hstatus ▸ hafter) hbefore
  | woke call i wakes hcall heq =>
    subst heq
    exact absurd hafter hbefore

end World

/-! ## Runs -/

open World

/-- The invariants of admission and of the deferred actions. -/
def Sound (w : World) : Prop := w.Inv ∧ w.Deferred

theorem sound_init : Sound transactionQueues.init := ⟨Inv.init, Deferred.init⟩

theorem sound_step (w : World) (op : Op) (h : Sound w) : Sound (transactionQueues.step w op) :=
  have heffect := step_effect h.1 op
  ⟨h.1.effect heffect, h.2.effect h.1 heffect⟩

theorem sound_run (ops : List Op) : Sound (transactionQueues.run ops) :=
  Machine.invariant sound_init sound_step ops

/-- The reported transitions of a request in a run. -/
def transitions (id : Nat) (w : World) (ops : List Op) : Nat :=
  transactionQueues.tally (transitionOf id) w ops

theorem balance (h : Sound w) (ops : List Op) (id : Nat) :
    (transactionQueues.runFrom w ops).woken.count id +
        (transactionQueues.runFrom w ops).outstandingWakes id + w.outstandingCancels id =
      w.woken.count id + w.outstandingWakes id +
        (transactionQueues.runFrom w ops).outstandingCancels id + transitions id w ops :=
  @Machine.tally_balance World Op transactionQueues Sound (transitionOf id)
    (fun w => w.woken.count id + w.outstandingWakes id) (fun w => w.outstandingCancels id)
    sound_step (fun _ op h => balance_step h.1 h.2 (step_effect h.1 op) id) w h ops

theorem outstandingCancels_le (h : Sound w) (id : Nat) :
    w.outstandingCancels id ≤ w.outstandingWakes id :=
  sum_le_sum fun c hc => (h.2.sublist c hc).count_le id

/-- How often a live request can have been reported: not before it became ready. -/
def reported : Option TransactionRequestStatus → Nat
  | some .ready => 1
  | some .started => 1
  | _ => 0

theorem reported_step {a b : Option TransactionRequestStatus} (h : StatusStep a b) (ha : a ≠ none)
    (hb : IsLive b) :
    IsLive a ∧ reported a + (if wakeTransition a b then 1 else 0) = reported b := by
  rcases h with rfl | h | ⟨rfl, -⟩ | ⟨rfl, rfl⟩ | ⟨-, rfl⟩
  · exact ⟨hb, by simp⟩
  · rcases hb with rfl | rfl | rfl <;> rcases a with _ | _ | _ <;>
      simp_all [wakeTransition, IsLive, reported]
  · exact absurd rfl ha
  · exact ⟨.inr (.inl rfl), rfl⟩
  · simp [IsLive] at hb

theorem ne_none_of_statusStep {a b : Option TransactionRequestStatus} (h : StatusStep a b)
    (ha : a ≠ none) : b ≠ none := by
  rcases h with rfl | h | ⟨rfl, -⟩ | ⟨-, rfl⟩ | ⟨-, rfl⟩
  · exact ha
  · rintro rfl
    rcases a with _ | _ | _ <;> simp [wakeTransition] at h
  · exact absurd rfl ha
  · simp
  · simp

theorem statusStep_step (h : Sound w) (op : Op) (id : Nat) :
    StatusStep (w.status id) ((transactionQueues.step w op).status id) :=
  status_step h.1 h.2 (step_effect h.1 op) id

/-- A request that is live at the end of a run was reported once if it became ready in the run. -/
theorem transitions_of_live (h : Sound w) (hstatus : w.status id ≠ none) (ops : List Op)
    (hlive : IsLive ((transactionQueues.runFrom w ops).status id)) :
    IsLive (w.status id) ∧
      reported (w.status id) + transitions id w ops =
        reported ((transactionQueues.runFrom w ops).status id) := by
  induction ops generalizing w with
  | nil => exact ⟨hlive, rfl⟩
  | cons op ops ih =>
    have hstep := statusStep_step h op id
    obtain ⟨hlive', hrest⟩ := ih (sound_step w op h) (ne_none_of_statusStep hstep hstatus) hlive
    obtain ⟨hlive, hfirst⟩ := reported_step hstep hstatus hlive'
    refine ⟨hlive, ?_⟩
    rw [Machine.runFrom_cons, ← hrest, ← hfirst, Nat.add_assoc]
    rfl

/-- A request that does not exist or is pending at the end of a run was not reported in it. -/
theorem transitions_of_pending (h : Sound w) (ops : List Op)
    (hend : (transactionQueues.runFrom w ops).status id = none ∨
      (transactionQueues.runFrom w ops).status id = some .pending) :
    (w.status id = none ∨ w.status id = some .pending) ∧ transitions id w ops = 0 := by
  induction ops generalizing w with
  | nil => exact ⟨hend, rfl⟩
  | cons op ops ih =>
    obtain ⟨hnext, hrest⟩ := ih (sound_step w op h) hend
    have hback : (w.status id = none ∨ w.status id = some .pending) ∧
        wakeTransition (w.status id) ((transactionQueues.step w op).status id) = false := by
      rcases statusStep_step h op id with heq | hwake | ⟨hnone, -⟩ | ⟨-, heq⟩ | ⟨-, heq⟩
      · rw [heq] at hnext ⊢
        exact ⟨hnext, wakeTransition_self _⟩
      · rcases hnext with hnext | hnext <;> rw [hnext] at hwake <;>
          rcases w.status id with _ | _ | _ <;> simp [wakeTransition] at hwake
      · rw [hnone]
        exact ⟨.inl rfl, rfl⟩
      · simp [heq] at hnext
      · simp [heq] at hnext
    refine ⟨hback.1, ?_⟩
    change transitionOf id w (transactionQueues.step w op) + transitions id _ ops = 0
    rw [hrest, transitionOf, hback.2]
    rfl

theorem transitions_of_finished (h : Sound w) (hfinished : w.status id = some .finished)
    (ops : List Op) :
    (transactionQueues.runFrom w ops).status id = some .finished ∧ transitions id w ops = 0 := by
  induction ops generalizing w with
  | nil => exact ⟨hfinished, rfl⟩
  | cons op ops ih =>
    have hstep := statusStep_step h op id
    rw [hfinished] at hstep
    have hnext : (transactionQueues.step w op).status id = some .finished := by
      rcases hstep with heq | hwake | ⟨hnone, -⟩ | ⟨hready, -⟩ | ⟨-, heq⟩
      · exact heq
      · simp [wakeTransition] at hwake
      · cases hnone
      · cases hready
      · exact heq
    obtain ⟨hend, hrest⟩ := ih (sound_step w op h) hnext
    refine ⟨hend, ?_⟩
    change transitionOf id w (transactionQueues.step w op) + transitions id _ ops = 0
    rw [hrest, transitionOf, hfinished]
    rfl

/-- The account of a request from the empty queues on. -/
theorem balance_run (ops : List Op) (id : Nat) :
    (transactionQueues.run ops).woken.count id + (transactionQueues.run ops).outstandingWakes id =
      transitions id World.init ops + (transactionQueues.run ops).outstandingCancels id := by
  have h := balance sound_init ops id
  have hinit : transactionQueues.init.woken.count id = 0 ∧
      transactionQueues.init.outstandingWakes id = 0 ∧
      transactionQueues.init.outstandingCancels id = 0 := ⟨rfl, rfl, rfl⟩
  change (transactionQueues.runFrom transactionQueues.init ops).woken.count id +
    (transactionQueues.runFrom transactionQueues.init ops).outstandingWakes id =
      transitions id transactionQueues.init ops +
        (transactionQueues.runFrom transactionQueues.init ops).outstandingCancels id
  omega

/-- A request that is live was reported since it was enqueued if it was pending then. -/
theorem transitions_since_enqueue {ops post : List Op} {op : Op}
    (hnew : (transactionQueues.run ops).status id = none)
    (henqueued : (transactionQueues.run (ops ++ [op])).status id ≠ none)
    (hlive : IsLive ((transactionQueues.run (ops ++ op :: post)).status id)) :
    reported ((transactionQueues.run (ops ++ [op])).status id) +
        transitions id World.init (ops ++ op :: post) =
      reported ((transactionQueues.run (ops ++ op :: post)).status id) := by
  have hbefore : transitions id World.init ops = 0 :=
    (transitions_of_pending sound_init ops (.inl hnew)).2
  have hsplit : transitions id World.init (ops ++ op :: post) =
      transitionOf id (transactionQueues.run ops) (transactionQueues.run (ops ++ [op])) +
        transitions id (transactionQueues.run (ops ++ [op])) post := by
    rw [transitions, Machine.tally_append, ← transitions, hbefore, Nat.zero_add, Machine.run_append]
    rfl
  have hfirst : transitionOf id (transactionQueues.run ops)
      (transactionQueues.run (ops ++ [op])) = 0 := by
    rw [transitionOf, hnew]
    rfl
  have hrun : transactionQueues.run (ops ++ op :: post) =
      transactionQueues.runFrom (transactionQueues.run (ops ++ [op])) post := by
    rw [← Machine.run_append, append_assoc, singleton_append]
  rw [hrun] at hlive ⊢
  rw [hsplit, hfirst, Nat.zero_add]
  exact (transitions_of_live (sound_run _) henqueued post hlive).2

/-- The callbacks of a request are called once for each of its transitions from pending to ready and
from pending, ready or started to canceled: as soon as none is outstanding, the calls are as many as
the transitions, and never more. A request that stays pending or was ready from the start has not
been called, finishing a request calls nothing, and a request that was enqueued pending and is ready
has been called once when its callback is no longer outstanding. -/
theorem wakes_match_transitions (ops : List Op) (id : Nat) :
    (transactionQueues.run ops).woken.count id ≤ transitions id World.init ops ∧
    ((transactionQueues.run ops).outstandingWakes id = 0 →
      (transactionQueues.run ops).woken.count id = transitions id World.init ops) ∧
    ((transactionQueues.run ops).status id = some .pending →
      (transactionQueues.run ops).woken.count id = 0) ∧
    (∀ op post, (transactionQueues.run ops).status id = none →
      (transactionQueues.run (ops ++ [op])).status id = some .ready →
      (transactionQueues.run (ops ++ op :: post)).status id = some .ready →
      (transactionQueues.run (ops ++ op :: post)).woken.count id = 0) ∧
    (∀ op post, (transactionQueues.run ops).status id = none →
      (transactionQueues.run (ops ++ [op])).status id = some .pending →
      (transactionQueues.run (ops ++ op :: post)).status id = some .ready →
      (transactionQueues.run (ops ++ op :: post)).woken.count id +
          (transactionQueues.run (ops ++ op :: post)).outstandingWakes id =
        1 + (transactionQueues.run (ops ++ op :: post)).outstandingCancels id ∧
      ((transactionQueues.run (ops ++ op :: post)).outstandingWakes id = 0 →
        (transactionQueues.run (ops ++ op :: post)).woken.count id = 1)) ∧
    (∀ op post, (transactionQueues.run ops).status id ≠ some .finished →
      (transactionQueues.run (ops ++ [op])).status id = some .finished →
      (transactionQueues.run (ops ++ op :: post)).woken.count id +
          (transactionQueues.run (ops ++ op :: post)).outstandingWakes id =
        (transactionQueues.run ops).woken.count id +
          (transactionQueues.run ops).outstandingWakes id) := by
  have hbalance := balance_run ops id
  have hle := outstandingCancels_le (sound_run ops) id
  refine ⟨by omega, fun hnone => by omega, fun hpending => ?_, fun op post hnew hready hend => ?_,
    fun op post hnew hpending hend => ?_, fun op post hbefore hfinished => ?_⟩
  · have hzero := (transitions_of_pending sound_init ops (.inr hpending)).2
    change transitions id World.init ops = 0 at hzero
    omega
  · have hsince := transitions_since_enqueue hnew (by simp [hready]) (.inr (.inl hend))
    rw [hready, hend] at hsince
    have hbalance := balance_run (ops ++ op :: post) id
    have hle := outstandingCancels_le (sound_run (ops ++ op :: post)) id
    omega
  · have hsince := transitions_since_enqueue hnew (by simp [hpending]) (.inr (.inl hend))
    rw [hpending, hend] at hsince
    simp only [reported] at hsince
    have hbalance := balance_run (ops ++ op :: post) id
    have hle := outstandingCancels_le (sound_run (ops ++ op :: post)) id
    omega
  · have h := sound_run ops
    have hrun : transactionQueues.run (ops ++ [op]) =
        transactionQueues.step (transactionQueues.run ops) op := by
      rw [Machine.run_append]
      rfl
    rw [hrun] at hfinished
    have hafter := transitions_of_finished (sound_step _ op h) hfinished post
    have hcancels := outstandingCancels_of_finished h.1 (step_effect h.1 op) hbefore hfinished
    have hstep : transitionOf id (transactionQueues.run ops)
        (transactionQueues.step (transactionQueues.run ops) op) = 0 := by
      rw [transitionOf, hfinished]
      rcases (transactionQueues.run ops).status id with _ | _ | _ <;> rfl
    have hend : (transactionQueues.run (ops ++ op :: post)).outstandingCancels id = 0 := by
      refine outstandingCancels_eq_zero.2 fun c hc hmem => ?_
      have hlive := (sound_run (ops ++ op :: post)).2.live c hc id hmem
      rw [Machine.run_append, Machine.runFrom_cons, hafter.1] at hlive
      simp [IsLive] at hlive
    have hbalance := balance h (op :: post) id
    have htally : transitions id (transactionQueues.run ops) (op :: post) =
        transitionOf id (transactionQueues.run ops)
          (transactionQueues.step (transactionQueues.run ops) op) +
        transitions id (transactionQueues.step (transactionQueues.run ops) op) post := rfl
    rw [← Machine.run_append] at hbalance
    omega

/-- The reader behind a writer is called once when the writer has finished. -/
theorem wakes_match_transitions_reader :
    (transactionQueues.run
      ([.enqueue ("", "") ⟨1⟩ {⟨[97]⟩} .readWrite] ++
        .enqueue ("", "") ⟨2⟩ {⟨[97]⟩} .readOnly ::
          [.claimStart ("", "") 1, .finish ("", "") 1, .resume 0])).woken.count 2 = 1 := by
  obtain ⟨-, -, -, -, hwoken, -⟩ :=
    wakes_match_transitions [.enqueue ("", "") ⟨1⟩ {⟨[97]⟩} .readWrite] 2
  have h := hwoken (.enqueue ("", "") ⟨2⟩ {⟨[97]⟩} .readOnly)
    [.claimStart ("", "") 1, .finish ("", "") 1, .resume 0]
    (by decide) (by decide) (by decide)
  exact h.2 (by decide)

end Moli.IndexedDb.TransactionQueue
