import Mathlib.Tactic.Abel
import Moli.Quota.Coordinator

/-!
# Quota windows

In every run, a bucket has at most one live reservation, the callbacks of a bucket are invoked in
the order of their registration, each at most once, a non-empty list of ready callbacks has exactly
one thread that drains it, and nothing is left when all threads have come to rest (`windows_run`).
The buckets that are active are those with an owner: a live reservation, a release under way, or a
callback that was given the bucket and has not been invoked yet.
-/

namespace Moli.Quota

open Lib QuotaState Multiset

variable {β : Type}

/-! ## Parts of a system -/

namespace Task

/-- The thread is bound to drain the list of ready callbacks. -/
def committed : Task β → Bool
  | draining => true
  | invoking _ _ => true
  | calling => true
  | notifying drain => drain
  | reserving _ _ => false
  | awaiting _ => false
  | drained => false
  | releasing _ => false

def notifies : Task β → Bool
  | drained => true
  | notifying _ => true
  | _ => false

/-- The bucket that a thread owns. -/
def holds : Task β → Multiset β
  | invoking locator _ => {locator}
  | releasing locator => {locator}
  | _ => 0

/-- The callback of a bucket that a thread is about to invoke. -/
def hand [DecidableEq β] (locator : β) : Task β → Multiset QuotaReady
  | invoking other ready => if other = locator then {ready} else 0
  | _ => 0

theorem committed_wake (task : Task β) : task.wake.committed = task.committed := by
  cases task <;> rfl

theorem holds_wake (task : Task β) : task.wake.holds = task.holds := by
  cases task <;> rfl

theorem hand_wake [DecidableEq β] (locator : β) (task : Task β) :
    task.wake.hand locator = task.hand locator := by
  cases task <;> rfl

theorem notifies_wake (task : Task β) : task.wake.notifies = task.notifies := by
  cases task <;> rfl

theorem isAsleep_wake (task : Task β) : task.wake.isAsleep = false := by
  cases task <;> rfl

theorem of_isAsleep {task : Task β} (h : task.isAsleep = true) :
    task.committed = false ∧ task.notifies = false ∧ task.holds = 0 := by
  cases task with
  | reserving | awaiting => exact ⟨rfl, rfl, rfl⟩
  | _ => cases h

end Task

namespace System

theorem bind_drainTask {α : Type} {f : Task β → Multiset α} (hf : f .draining = 0) (drain : Bool) :
    (drainTask drain).bind f = 0 := by
  cases drain with
  | false => rfl
  | true => exact (singleton_bind ..).trans hf

/-- The number of threads that are bound to drain. -/
def drainers (tasks : Multiset (Task β)) : Nat := tasks.countP (·.committed)

theorem drainers_cons (t : Task β) (rest : Multiset (Task β)) :
    drainers (t ::ₘ rest) = drainers rest + t.committed.toNat := by
  rw [drainers, countP_cons]
  cases t.committed <;> rfl

theorem drainers_drainTask (drain : Bool) (rest : Multiset (Task β)) :
    drainers (drainTask drain + rest) = drainers rest + drain.toNat := by
  cases drain with
  | false => exact congrArg drainers (zero_add rest)
  | true => exact drainers_cons .draining rest

theorem drainers_wake (tasks : Multiset (Task β)) :
    drainers (tasks.map Task.wake) = drainers tasks := by
  rw [drainers, countP_map, ← countP_eq_card_filter]
  simp only [Task.committed_wake, drainers]

theorem isAsleep_drainTask {drain : Bool} {t : Task β} (h : t ∈ drainTask drain) :
    t.isAsleep = false := by
  cases drain with
  | false => exact absurd h (notMem_zero t)
  | true =>
    obtain rfl := mem_singleton.1 h
    rfl

end System

namespace QuotaState

variable {state : QuotaState β}

theorem popReady_nil (h : state.ready = []) :
    state.popReady = (none, { state with draining := false }) := by
  simp only [popReady, h]

theorem popReady_cons {next : β × QuotaReady} {ready : List (β × QuotaReady)}
    (h : state.ready = next :: ready) :
    state.popReady = (some next, { state with ready := ready }) := by
  simp only [popReady, h]

end QuotaState

/-! ## The log -/

namespace Event

def registered? : Event β → Option (β × QuotaReady)
  | registered locator ready => some (locator, ready)
  | invoked _ _ => none

def invoked? : Event β → Option (β × QuotaReady)
  | registered _ _ => none
  | invoked locator ready => some (locator, ready)

end Event

def registrations (log : List (Event β)) : List (β × QuotaReady) := log.filterMap Event.registered?

def invocations (log : List (Event β)) : List (β × QuotaReady) := log.filterMap Event.invoked?

section Concat

variable (log : List (Event β)) (locator : β) (ready : QuotaReady)

theorem registrations_registered :
    registrations (log ++ [.registered locator ready]) = registrations log ++ [(locator, ready)] :=
  List.filterMap_append

theorem registrations_invoked :
    registrations (log ++ [.invoked locator ready]) = registrations log :=
  List.filterMap_append.trans (List.append_nil _)

theorem invocations_registered :
    invocations (log ++ [.registered locator ready]) = invocations log :=
  List.filterMap_append.trans (List.append_nil _)

theorem invocations_invoked :
    invocations (log ++ [.invoked locator ready]) = invocations log ++ [(locator, ready)] :=
  List.filterMap_append

end Concat

variable [DecidableEq β]

/-- The callbacks of a bucket in a list. -/
def callbacksOf (locator : β) (list : List (β × QuotaReady)) : List QuotaReady :=
  (list.filter (·.1 = locator)).map (·.2)

def waitingOf (waiting : AList fun _ : β => List QuotaReady) (locator : β) : List QuotaReady :=
  (waiting.lookup locator).getD []

theorem waitingOf_insert (waiting : AList fun _ : β => List QuotaReady) (locator b : β)
    (left : List QuotaReady) :
    waitingOf (waiting.insert locator left) b = if b = locator then left
      else waitingOf waiting b := by
  rw [waitingOf, lookup_insert_eq]
  split_ifs <;> rfl

theorem lookup_setWaiting (state : QuotaState β) (locator b : β) (left : List QuotaReady) :
    (state.setWaiting locator left).waiting.lookup b =
      if b = locator then if left.isEmpty then none else some left else state.waiting.lookup b := by
  cases left with
  | nil => exact lookup_erase_eq ..
  | cons ready left => exact lookup_insert_eq ..

theorem waitingOf_handed (state : QuotaState β) (locator b : β) (ready : QuotaReady)
    (left : List QuotaReady) :
    waitingOf ((state.setWaiting locator left).enqueueReady locator ready).2.waiting b =
      if b = locator then left else waitingOf state.waiting b := by
  refine (congrArg (·.getD []) (lookup_setWaiting state locator b left)).trans ?_
  by_cases hb : b = locator
  · cases left <;> simp [hb]
  · simp only [hb, if_false, waitingOf]

variable {list : List (β × QuotaReady)}

section Callbacks

variable (locator : β) (ready : QuotaReady) (b : β)

theorem callbacksOf_concat (list : List (β × QuotaReady)) :
    callbacksOf b (list ++ [(locator, ready)]) = callbacksOf b list ++ if locator = b then [ready]
      else [] := by
  by_cases hb : locator = b <;> simp [callbacksOf, hb]

theorem callbacksOf_cons (list : List (β × QuotaReady)) :
    callbacksOf b ((locator, ready) :: list) = (if locator = b then [ready] else []) ++
      callbacksOf b list := by
  by_cases hb : locator = b <;> simp [callbacksOf, hb]

theorem mem_callbacksOf {locator : β} {ready : QuotaReady} :
    ready ∈ callbacksOf locator list ↔ (locator, ready) ∈ list := by
  simp [callbacksOf]

theorem nodup_of_callbacksOf (h : ∀ b, (callbacksOf b list).Nodup) : list.Nodup := by
  induction list with
  | nil => exact .nil
  | cons entry list ih =>
    refine List.nodup_cons.2 ⟨fun hmem => ?_, ih fun b => ?_⟩
    · have hentry := h entry.1
      rw [callbacksOf_cons, if_pos rfl] at hentry
      exact (List.nodup_cons.1 hentry).1 (mem_callbacksOf.2 hmem)
    · have hb := h b
      rw [callbacksOf_cons] at hb
      exact hb.of_append_right

end Callbacks

namespace System

/-- The buckets with an owner. -/
def owners (s : System β) : Multiset β :=
  s.live + s.tasks.bind Task.holds + ↑(s.state.ready.map (·.1))

/-- The callback of a bucket that is ready or about to be invoked. -/
def inHand (s : System β) (locator : β) : Multiset QuotaReady :=
  s.tasks.bind (Task.hand locator) + ↑(callbacksOf locator s.state.ready)

/-- A sleeping thread has something to wait for. -/
def Waits (state : QuotaState β) : Task β → Prop
  | .reserving locator _ => locator ∈ state.active
  | .awaiting _ => state.dispatchPending = true
  | _ => False

structure Inv (s : System β) : Prop where
  owners_nodup : s.owners.Nodup
  mem_owners : ∀ b, b ∈ s.owners ↔ b ∈ s.state.active
  waiting : ∀ b left, s.state.waiting.lookup b = some left → b ∈ s.state.active ∧ left ≠ []
  single : drainers s.tasks = s.state.draining.toNat
  ready : s.state.ready ≠ [] → s.state.draining = true
  order : ∀ b, ∃ hand : List QuotaReady,
    callbacksOf b (registrations s.log) =
      callbacksOf b (invocations s.log) ++ hand ++ waitingOf s.state.waiting b ∧ ↑hand = s.inHand b
  ids : (registrations s.log).map (·.2) = List.range s.next
  asleep : ∀ t ∈ s.tasks, t.isAsleep = true → Waits s.state t ∨ ∃ t' ∈ s.tasks, t'.notifies = true

variable {s s' : System β} {b : β} {t new : Task β} {rest : Multiset (Task β)} {ready : QuotaReady}

theorem inv_start : (start : System β).Inv where
  owners_nodup := nodup_zero
  mem_owners b := by simp [start, owners, empty]
  waiting b left h := by cases h
  single := rfl
  ready h := absurd rfl h
  order b := ⟨[], rfl, rfl⟩
  ids := rfl
  asleep t h := absurd h (notMem_zero t)

/-! ## Steps -/

/-- A step that keeps the owners. -/
theorem Inv.of_owners (h : s.Inv) (howners : s'.owners = s.owners)
    (hactive : s'.state.active = s.state.active)
    (hwaiting : ∀ b left, s'.state.waiting.lookup b = some left → b ∈ s'.state.active ∧ left ≠ [])
    (hsingle : drainers s'.tasks = s'.state.draining.toNat)
    (hready : s'.state.ready ≠ [] → s'.state.draining = true)
    (horder : ∀ b, ∃ hand : List QuotaReady,
      callbacksOf b (registrations s'.log) =
        callbacksOf b (invocations s'.log) ++ hand ++ waitingOf s'.state.waiting b ∧
          ↑hand = s'.inHand b)
    (hids : (registrations s'.log).map (·.2) = List.range s'.next)
    (hasleep : ∀ t ∈ s'.tasks, t.isAsleep = true →
      Waits s'.state t ∨ ∃ t' ∈ s'.tasks, t'.notifies = true) : s'.Inv :=
  ⟨howners ▸ h.owners_nodup, fun b => by rw [howners, hactive, h.mem_owners], hwaiting, hsingle,
    hready, horder, hids, hasleep⟩

/-- A step that concerns no callback. -/
theorem Inv.order_of (h : s.Inv) (hlog : s'.log = s.log)
    (hwaiting : s'.state.waiting = s.state.waiting)
    (hhand : ∀ b, s'.inHand b = s.inHand b) (b : β) : ∃ hand : List QuotaReady,
      callbacksOf b (registrations s'.log) =
        callbacksOf b (invocations s'.log) ++ hand ++ waitingOf s'.state.waiting b ∧
          ↑hand = s'.inHand b := by
  rw [hlog, hwaiting, hhand]
  exact h.order b

/-- A step of threads that concerns no reservation. -/
theorem Inv.of_tasks (h : s.Inv) {tasks : Multiset (Task β)}
    (hholds : tasks.bind Task.holds = s.tasks.bind Task.holds)
    (hhand : ∀ b, tasks.bind (Task.hand b) = s.tasks.bind (Task.hand b))
    (hcommitted : drainers tasks = drainers s.tasks)
    (hasleep : ∀ t ∈ tasks, t.isAsleep = true → Waits s.state t ∨ ∃ t' ∈ tasks,
      t'.notifies = true) :
    ({ s with tasks := tasks } : System β).Inv := by
  refine h.of_owners ?_ rfl h.waiting (hcommitted.trans h.single) h.ready
    (h.order_of rfl rfl fun b => ?_) h.ids hasleep
  · simp only [owners, hholds]
  · simp only [inHand, hhand]

/-- A free bucket has no owner and no callbacks. -/
theorem Inv.waiting_of_free (h : s.Inv) (hfree : b ∉ s.state.active) :
    s.state.waiting.lookup b = none := by
  cases hwaiting : s.state.waiting.lookup b with
  | none => rfl
  | some left => exact absurd (h.waiting b left hwaiting).1 hfree

theorem hand_eq_zero {tasks : Multiset (Task β)} {ready : List (β × QuotaReady)}
    (hholds : b ∉ tasks.bind Task.holds) (hready : b ∉ ready.map (·.1)) :
    tasks.bind (Task.hand b) + ↑(callbacksOf b ready) = 0 := by
  refine eq_zero_of_forall_notMem fun x hx => ?_
  rcases mem_add.1 hx with hx | hx
  · obtain ⟨task, htask, hx⟩ := mem_bind.1 hx
    refine hholds (mem_bind.2 ⟨task, htask, ?_⟩)
    cases task with
    | invoking other ready =>
      simp only [Task.hand] at hx
      split_ifs at hx with hother
      · exact mem_singleton.2 hother.symm
      · exact absurd hx (notMem_zero x)
    | _ => exact absurd hx (notMem_zero x)
  · obtain ⟨entry, hentry, -⟩ := List.mem_map.1 hx
    obtain ⟨hmem, hb⟩ := List.mem_filter.1 hentry
    exact hready (List.mem_map.2 ⟨entry, hmem, of_decide_eq_true hb⟩)

section
variable (h : s.Inv)
include h

/-- The owner of a bucket is the only one. -/
theorem Inv.rest_hand (htasks : s.tasks = t ::ₘ rest) (hholds : t.holds = {b}) :
    rest.bind (Task.hand b) + ↑(callbacksOf b s.state.ready) = 0 := by
  have howners : s.owners =
      b ::ₘ (s.live + rest.bind Task.holds + ↑(s.state.ready.map (·.1))) := by
    rw [owners, htasks, cons_bind, hholds, ← singleton_add]
    abel
  have hnodup := h.owners_nodup
  rw [howners, nodup_cons] at hnodup
  have hnot := hnodup.1
  simp only [mem_add, not_or] at hnot
  exact hand_eq_zero hnot.1.2 hnot.2

theorem Inv.inHand_of_holds (htasks : s.tasks = t ::ₘ rest) (hholds : t.holds = {b}) :
    s.inHand b = t.hand b := by
  rw [inHand, htasks, cons_bind, add_assoc, h.rest_hand htasks hholds, add_zero]

/-- One thread moves on, and a sleeping thread still has something to wait for. -/
theorem Inv.asleep_of {state : QuotaState β} (htasks : s.tasks = t ::ₘ rest)
    (hnotifies : new.notifies = t.notifies) (hnew : new.isAsleep = true → Waits state new)
    (hwaits : ∀ u, Waits s.state u → Waits state u) :
    ∀ u ∈ new ::ₘ rest, u.isAsleep = true →
      Waits state u ∨ ∃ t' ∈ new ::ₘ rest, t'.notifies = true := by
  intro u hu hasleep
  rcases mem_cons.1 hu with rfl | hu
  · exact .inl (hnew hasleep)
  rcases h.asleep u (htasks ▸ mem_cons_of_mem hu) hasleep with hwait | ⟨t', ht', ht⟩
  · exact .inl (hwaits u hwait)
  · rw [htasks] at ht'
    rcases mem_cons.1 ht' with rfl | ht'
    · exact .inr ⟨new, mem_cons_self .., hnotifies.trans ht⟩
    · exact .inr ⟨t', mem_cons_of_mem ht', ht⟩

/-- A free bucket is reserved. -/
theorem Inv.of_reserved (hfree : b ∉ s.state.active) :
    ({ s with state := s.state.insertActive b, live := b ::ₘ s.live } : System β).Inv := by
  have howners :
      ({ s with state := s.state.insertActive b, live := b ::ₘ s.live } : System β).owners =
      b ::ₘ s.owners := by
    simp [owners, insertActive]
  constructor
  · rw [howners]
    exact nodup_cons.2 ⟨fun hmem => hfree ((h.mem_owners b).1 hmem), h.owners_nodup⟩
  · intro b'
    rw [howners, mem_cons, h.mem_owners]
    exact Finset.mem_insert.symm
  · intro b' left hleft
    obtain ⟨hactive, hne⟩ := h.waiting b' left hleft
    exact ⟨Finset.mem_insert_of_mem hactive, hne⟩
  · exact h.single
  · exact h.ready
  · exact h.order
  · exact h.ids
  · intro t ht hasleep
    refine (h.asleep t ht hasleep).imp_left fun hwaits => ?_
    cases t with
    | reserving locator _ => exact Finset.mem_insert_of_mem hwaits
    | awaiting | _ => exact hwaits

/-- A callback of an active bucket waits. -/
theorem Inv.of_waiting (hactive : b ∈ s.state.active) :
    ({ s with
      state := { s.state with
        waiting := s.state.waiting.insert b (waitingOf s.state.waiting b ++ [s.next]) }
      next := s.next + 1
      log := s.log ++ [.registered b s.next] } : System β).Inv := by
  constructor
  · exact h.owners_nodup
  · exact h.mem_owners
  · intro b' left hleft
    rw [lookup_insert_eq] at hleft
    split_ifs at hleft with hb
    · cases hleft
      exact ⟨hb ▸ hactive, by simp⟩
    · exact h.waiting b' left hleft
  · exact h.single
  · exact h.ready
  · intro b'
    obtain ⟨hand, horder, hhand⟩ := h.order b'
    refine ⟨hand, ?_, hhand⟩
    rw [registrations_registered, invocations_registered, callbacksOf_concat, horder,
      waitingOf_insert]
    by_cases hb : b = b'
    · subst hb
      simp
    · simp [hb, Ne.symm hb]
  · simp [registrations_registered, h.ids, List.range_succ]
  · intro t ht hasleep
    refine (h.asleep t ht hasleep).imp_left fun hwaits => ?_
    cases t with
    | awaiting _ => simp [Waits, dispatchPending]
    | _ => exact hwaits

/-- The callback of a free bucket is ready at once. -/
theorem Inv.of_started (hfree : b ∉ s.state.active) :
    ({ s with
      state := ((s.state.insertActive b).enqueueReady b s.next).2
      tasks := drainTask (!s.state.draining) + s.tasks
      next := s.next + 1
      log := s.log ++ [.registered b s.next] } : System β).Inv := by
  have hnot : b ∉ s.owners := fun hmem => hfree ((h.mem_owners b).1 hmem)
  have howners : ({ s with
      state := ((s.state.insertActive b).enqueueReady b s.next).2
      tasks := drainTask (!s.state.draining) + s.tasks
      next := s.next + 1
      log := s.log ++ [.registered b s.next] } : System β).owners = b ::ₘ s.owners := by
    simp only [owners, enqueueReady, add_bind,
      bind_drainTask (f := Task.holds) rfl, zero_add, List.map_append, ← coe_add]
    exact (add_assoc ..).symm.trans (add_comm ..)
  constructor
  · rw [howners]
    exact nodup_cons.2 ⟨hnot, h.owners_nodup⟩
  · intro b'
    rw [howners, mem_cons, h.mem_owners]
    exact Finset.mem_insert.symm
  · intro b' left hleft
    obtain ⟨hactive, hne⟩ := h.waiting b' left hleft
    exact ⟨Finset.mem_insert_of_mem hactive, hne⟩
  · rw [drainers_drainTask, h.single]
    cases s.state.draining <;> rfl
  · exact fun _ => rfl
  · intro b'
    obtain ⟨hand, horder, hhand⟩ := h.order b'
    refine ⟨hand ++ if b = b' then [s.next] else [], ?_, ?_⟩
    · rw [registrations_registered, invocations_registered, callbacksOf_concat, horder]
      by_cases hb : b = b'
      · subst hb
        have hnone := h.waiting_of_free hfree
        simp [waitingOf, hnone, enqueueReady, insertActive]
      · simp [hb, enqueueReady, insertActive]
    · rw [← coe_add, hhand]
      simp only [inHand, enqueueReady, insertActive, add_bind,
        bind_drainTask (f := Task.hand b') rfl, callbacksOf_concat, ← coe_add, zero_add, add_assoc]
  · simp [registrations_registered, h.ids, List.range_succ]
  · intro t ht hasleep
    rcases mem_add.1 ht with ht | ht
    · rw [isAsleep_drainTask ht] at hasleep
      cases hasleep
    rcases h.asleep t ht hasleep with hwaits | ⟨t', ht', hnotifies⟩
    · left
      cases t with
      | reserving locator _ => exact Finset.mem_insert_of_mem hwaits
      | awaiting _ => simp [Waits, dispatchPending, enqueueReady]
      | _ => exact hwaits
    · exact .inr ⟨t', mem_add.2 (.inr ht'), hnotifies⟩

/-- A live reservation is dropped. -/
theorem Inv.of_dropped {rest : Multiset β} (hlive : s.live = b ::ₘ rest) :
    ({ s with live := rest, tasks := .releasing b ::ₘ s.tasks } : System β).Inv := by
  refine h.of_owners ?_ rfl h.waiting ((drainers_cons ..).trans h.single) h.ready
    (h.order_of rfl rfl fun b' => ?_) h.ids fun t ht hasleep => ?_
  · simp [owners, hlive, Task.holds]
  · simp [inHand, Task.hand]
  · rcases mem_cons.1 ht with rfl | ht
    · cases hasleep
    · exact (h.asleep t ht hasleep).imp_right fun ⟨t', ht', hnotifies⟩ =>
        ⟨t', mem_cons_of_mem ht', hnotifies⟩

theorem Inv.drainers_cons (htasks : s.tasks = t ::ₘ rest) :
    drainers rest + t.committed.toNat = s.state.draining.toNat := by
  rw [← System.drainers_cons, ← htasks, h.single]

theorem Inv.single_of (htasks : s.tasks = t ::ₘ rest) (hnew : new.committed = t.committed) :
    drainers (new ::ₘ rest) = s.state.draining.toNat := by
  rw [System.drainers_cons, hnew]
  exact h.drainers_cons htasks

theorem Inv.draining_of_committed (htasks : s.tasks = t ::ₘ rest) (ht : t.committed = true) :
    s.state.draining = true := by
  have hcount := h.drainers_cons htasks
  rw [ht] at hcount
  cases hdraining : s.state.draining with
  | true => rfl
  | false =>
    rw [hdraining] at hcount
    cases hcount

/-- A bucket goes to its next callback. -/
theorem Inv.of_handed {left : List QuotaReady} (htasks : s.tasks = .releasing b ::ₘ rest)
    (hwaiting : s.state.waiting.lookup b = some (ready :: left)) :
    ({ s with
      state := ((s.state.setWaiting b left).enqueueReady b ready).2
      tasks := .notifying (!s.state.draining) ::ₘ rest } : System β).Inv := by
  have hzero : s.inHand b = 0 := h.inHand_of_holds htasks rfl
  refine h.of_owners ?_ rfl (fun b' left' hleft => ?_) ?_ (fun _ => rfl) (fun b' => ?_) h.ids
    fun t ht hasleep => .inr ⟨_, mem_cons_self .., rfl⟩
  · simp only [owners, htasks, enqueueReady, setWaiting, cons_bind,
      Task.holds, List.map_append, ← coe_add]
    abel
  · change (s.state.setWaiting b left).waiting.lookup b' = some left' at hleft
    rw [lookup_setWaiting] at hleft
    split_ifs at hleft with hb hempty
    · cases hleft
      exact ⟨hb ▸ (h.waiting b _ hwaiting).1, fun hnil => hempty (hnil ▸ rfl)⟩
    · exact h.waiting b' left' hleft
  · have hcount : drainers rest = s.state.draining.toNat := h.drainers_cons htasks
    rw [System.drainers_cons, hcount]
    cases s.state.draining <;> rfl
  · obtain ⟨hand, horder, hhand⟩ := h.order b'
    have hwaits : waitingOf s.state.waiting b = ready :: left := by
      rw [waitingOf, hwaiting]
      rfl
    refine ⟨hand ++ if b = b' then [ready] else [], ?_, ?_⟩
    · rw [horder, waitingOf_handed]
      by_cases hb : b = b'
      · subst hb
        have hnil : hand = [] := (coe_eq_zero hand).1 (hhand.trans hzero)
        simp [hwaits]
      · simp [hb, Ne.symm hb]
    · rw [← coe_add, hhand]
      simp only [inHand, htasks, enqueueReady, setWaiting, cons_bind,
        Task.hand, callbacksOf_concat, ← coe_add, add_assoc]

/-- A bucket without callbacks is free again. -/
theorem Inv.of_freed (htasks : s.tasks = .releasing b ::ₘ rest)
    (hwaiting : s.state.waiting.lookup b = none) :
    ({ s with
      state := { s.state with active := s.state.active.erase b }
      tasks := .notifying false ::ₘ rest } : System β).Inv := by
  have howners : s.owners = b ::ₘ ({ s with
      tasks := .notifying false ::ₘ rest } : System β).owners := by
    simp only [owners, htasks, cons_bind, Task.holds]
    rw [← singleton_add]
    abel
  have hnodup := h.owners_nodup
  rw [howners, nodup_cons] at hnodup
  constructor
  · exact hnodup.2
  · intro b'
    have hmem := h.mem_owners b'
    rw [howners, mem_cons] at hmem
    rw [Finset.mem_erase, ← hmem]
    constructor
    · exact fun hb => ⟨fun heq => hnodup.1 (heq ▸ hb), .inr hb⟩
    · exact fun ⟨hne, hb⟩ => hb.resolve_left hne
  · intro b' left hleft
    obtain ⟨hactive, hne⟩ := h.waiting b' left hleft
    refine ⟨Finset.mem_erase.2 ⟨fun heq => ?_, hactive⟩, hne⟩
    rw [heq, hwaiting] at hleft
    cases hleft
  · exact h.single_of htasks rfl
  · exact h.ready
  · exact h.order_of rfl rfl fun b' => by simp [inHand, htasks, Task.hand]
  · exact h.ids
  · exact fun t ht hasleep => .inr ⟨_, mem_cons_self .., rfl⟩

/-- The drainer takes the next callback. -/
theorem Inv.of_popped (htasks : s.tasks = .draining ::ₘ rest)
    (hready : s.state.ready = (b, ready) :: list) :
    ({ s with
      state := { s.state with ready := list }
      tasks := .invoking b ready ::ₘ rest } : System β).Inv := by
  refine h.of_owners ?_ rfl h.waiting (h.single_of htasks rfl) (fun _ => h.ready (by simp [hready]))
    (h.order_of rfl rfl fun b' => ?_) h.ids
    (h.asleep_of htasks rfl (fun hasleep => (by cases hasleep)) fun u hu => hu)
  · simp only [owners, htasks, hready, cons_bind, Task.holds, List.map_cons]
    rw [← cons_coe, ← singleton_add]
    abel
  · simp only [inHand, htasks, hready, cons_bind, callbacksOf_cons, ← coe_add, Task.hand]
    by_cases hb : b = b'
    · simp only [hb, if_true, coe_singleton]
      abel
    · simp only [hb, if_false, coe_nil, zero_add]

/-- The drainer finds the list empty. -/
theorem Inv.of_drained (htasks : s.tasks = .draining ::ₘ rest) (hready : s.state.ready = []) :
    ({ s with state := { s.state with draining := false }, tasks := .drained ::ₘ rest } :
      System β).Inv := by
  refine h.of_owners ?_ rfl h.waiting ?_ (fun hne => absurd hready hne)
    (h.order_of rfl rfl fun b' => ?_) h.ids fun t ht hasleep => .inr ⟨_, mem_cons_self .., rfl⟩
  · simp [owners, htasks, Task.holds]
  · have hcount := h.drainers_cons htasks
    rw [h.draining_of_committed htasks rfl] at hcount
    exact (System.drainers_cons ..).trans (Nat.succ.inj hcount)
  · simp [inHand, htasks, Task.hand]

/-- A callback is invoked with the reservation. -/
theorem Inv.of_invoked (htasks : s.tasks = .invoking b ready ::ₘ rest) :
    ({ s with
      live := b ::ₘ s.live
      tasks := .calling ::ₘ rest
      log := s.log ++ [.invoked b ready] } : System β).Inv := by
  refine h.of_owners ?_ rfl h.waiting (h.single_of htasks rfl) h.ready (fun b' => ?_)
    ((congrArg _ (registrations_invoked ..)).trans h.ids)
    (h.asleep_of htasks rfl (fun hasleep => (by cases hasleep)) fun u hu => hu)
  · simp only [owners, htasks, cons_bind, Task.holds]
    rw [← singleton_add]
    abel
  · obtain ⟨hand, horder, hhand⟩ := h.order b'
    rw [registrations_invoked, invocations_invoked, callbacksOf_concat, horder]
    by_cases hb : b = b'
    · subst hb
      have hsingle : s.inHand b = {ready} := (h.inHand_of_holds htasks rfl).trans (if_pos rfl)
      obtain rfl : hand = [ready] := coe_eq_singleton.1 (hhand.trans hsingle)
      refine ⟨[], by simp, ?_⟩
      rw [inHand, cons_bind, add_assoc, h.rest_hand htasks rfl]
      rfl
    · refine ⟨hand, by simp [hb], ?_⟩
      simpa [inHand, htasks, Task.hand, hb] using hhand

theorem Inv.of_moved (htasks : s.tasks = t ::ₘ rest) (hnotifies : new.notifies = t.notifies)
    (hholds : new.holds = t.holds) (hhand : ∀ b, new.hand b = t.hand b)
    (hcommitted : new.committed = t.committed) (hasleep : new.isAsleep = true → Waits s.state new) :
    ({ s with tasks := new ::ₘ rest } : System β).Inv := by
  refine h.of_tasks ?_ (fun b => ?_) ?_ (h.asleep_of htasks hnotifies hasleep fun u hu => hu)
  · rw [htasks, cons_bind, cons_bind, hholds]
  · rw [htasks, cons_bind, cons_bind, hhand]
  · exact (h.single_of htasks hcommitted).trans h.single.symm

/-- A thread comes in. -/
theorem Inv.of_spawned (hholds : t.holds = 0) (hhand : ∀ b, t.hand b = 0)
    (hcommitted : t.committed = false) (hasleep : t.isAsleep = false) :
    ({ s with tasks := t ::ₘ s.tasks } : System β).Inv := by
  refine h.of_tasks ?_ (fun b => ?_) ?_ fun u hu hu' => ?_
  · rw [cons_bind, hholds, zero_add]
  · rw [cons_bind, hhand, zero_add]
  · rw [System.drainers_cons, hcommitted]
    rfl
  · rcases mem_cons.1 hu with rfl | hu
    · rw [hasleep] at hu'
      cases hu'
    · exact (h.asleep u hu hu').imp_right fun ⟨t', ht', hnotifies⟩ =>
        ⟨t', mem_cons_of_mem ht', hnotifies⟩

/-- A thread ends. -/
theorem Inv.of_done (htasks : s.tasks = t ::ₘ rest) (hholds : t.holds = 0)
    (hhand : ∀ b, t.hand b = 0) (hcommitted : t.committed = false)
    (hnotifies : t.notifies = false) :
    ({ s with tasks := rest } : System β).Inv := by
  refine h.of_tasks ?_ (fun b => ?_) ?_ fun u hu hu' => ?_
  · rw [htasks, cons_bind, hholds, zero_add]
  · rw [htasks, cons_bind, hhand, zero_add]
  · rw [htasks, System.drainers_cons, hcommitted]
    rfl
  · refine (h.asleep u (htasks ▸ mem_cons_of_mem hu) hu').imp_right fun ⟨t', ht', ht⟩ => ?_
    rw [htasks] at ht'
    rcases mem_cons.1 ht' with rfl | ht'
    · rw [hnotifies] at ht
      cases ht
    · exact ⟨t', ht', ht⟩

/-- A thread notifies: nobody sleeps then. -/
theorem Inv.of_notified (htasks : s.tasks = t ::ₘ rest) (hholds : t.holds = 0)
    (hhand : ∀ b, t.hand b = 0) :
    ({ s with tasks := drainTask t.committed + rest.map Task.wake } : System β).Inv := by
  refine h.of_tasks ?_ (fun b => ?_) ?_ fun u hu hu' => ?_
  · rw [htasks, add_bind, bind_drainTask rfl, cons_bind, hholds, bind_map]
    simp only [Task.holds_wake]
  · rw [htasks, add_bind, bind_drainTask rfl, cons_bind, hhand, bind_map]
    simp only [Task.hand_wake]
  · rw [htasks, drainers_drainTask, System.drainers_cons, drainers_wake]
  · rcases mem_add.1 hu with hu | hu
    · rw [isAsleep_drainTask hu] at hu'
      cases hu'
    · obtain ⟨t, -, rfl⟩ := mem_map.1 hu
      rw [Task.isAsleep_wake] at hu'
      cases hu'

/-- The locked section of `release`. -/
theorem Inv.of_released (htasks : s.tasks = .releasing b ::ₘ rest) :
    ({ s with
      state := (s.state.release b).2
      tasks := .notifying (s.state.release b).1 ::ₘ rest } : System β).Inv := by
  unfold release
  split
  case h_1 ready left hwaiting => exact h.of_handed htasks hwaiting
  case h_2 hwaiting => exact absurd rfl (h.waiting b [] hwaiting).2
  case h_3 hwaiting => exact h.of_freed htasks hwaiting

theorem Inv.step (hstep : Step s s') : s'.Inv := by
  cases hstep with
  | tryReserve locator hfree => exact h.of_reserved hfree
  | reserve | await => exact h.of_spawned rfl (fun _ => rfl) rfl rfl
  | sleep htasks hactive => exact h.of_moved htasks rfl rfl (fun _ => rfl) rfl fun _ => hactive
  | reserved htasks hfree => exact (h.of_done htasks rfl (fun _ => rfl) rfl rfl).of_reserved hfree
  | reserveAsync locator =>
    unfold register
    split_ifs with hactive
    · refine (congrArg Inv ?_).mpr (h.of_waiting hactive)
      simp only [drainTask, Bool.false_eq_true, if_false, zero_add, waitingOf]
    · exact h.of_started hactive
  | drop hlive => exact h.of_dropped hlive
  | release htasks => exact h.of_released htasks
  | notify htasks => exact h.of_notified htasks rfl fun _ => rfl
  | pop htasks hpop =>
    cases hready : s.state.ready with
    | nil => simp [popReady, hready] at hpop
    | cons next ready =>
      rw [popReady_cons hready] at hpop ⊢
      cases hpop
      exact h.of_popped htasks hready
  | popNone htasks hpop =>
    cases hready : s.state.ready with
    | nil =>
      rw [popReady_nil hready]
      exact h.of_drained htasks hready
    | cons next ready => simp [popReady, hready] at hpop
  | invoke htasks => exact h.of_invoked htasks
  | called htasks => exact h.of_moved htasks rfl rfl (fun _ => rfl) rfl fun hasleep =>
    (by cases hasleep)
  | notifyDrained htasks =>
    have hnotified := h.of_notified htasks rfl fun _ => rfl
    rwa [Task.committed, drainTask, if_neg Bool.false_ne_true, zero_add] at hnotified
  | awaitSleep htasks hpending => exact h.of_moved htasks rfl rfl (fun _ => rfl) rfl fun _ =>
    hpending
  | awaited htasks hdone => exact h.of_done htasks rfl (fun _ => rfl) rfl rfl
  | wakeUp htasks =>
    refine h.of_moved htasks (Task.notifies_wake _) (Task.holds_wake _)
      (fun b => Task.hand_wake b _) (Task.committed_wake _) fun hasleep => ?_
    rw [Task.isAsleep_wake] at hasleep
    cases hasleep

end

theorem inv_run (hrun : Relation.ReflTransGen Step start s) : s.Inv := by
  induction hrun with
  | refl => exact inv_start
  | tail hrun hstep ih => exact ih.step hstep

/-! ## Runs -/

theorem Inv.registered_nodup (h : s.Inv) : ((registrations s.log).map (·.2)).Nodup := by
  rw [h.ids]
  exact List.nodup_range

theorem Inv.invoked_prefix (h : s.Inv) (b : β) :
    callbacksOf b (invocations s.log) <+: callbacksOf b (registrations s.log) := by
  obtain ⟨hand, horder, -⟩ := h.order b
  rw [horder, List.append_assoc]
  exact List.prefix_append ..

theorem Inv.invoked_nodup (h : s.Inv) : ((invocations s.log).map (·.2)).Nodup := by
  have hpairs : (invocations s.log).Nodup := by
    refine nodup_of_callbacksOf fun b => (h.invoked_prefix b).sublist.nodup ?_
    exact h.registered_nodup.sublist (List.filter_sublist.map _)
  have hsub : ∀ entry ∈ invocations s.log, entry ∈ registrations s.log := fun entry hentry =>
    mem_callbacksOf.1 ((h.invoked_prefix entry.1).subset (mem_callbacksOf.2 hentry))
  refine hpairs.map_on fun x hx y hy heq => ?_
  exact List.inj_on_of_nodup_map h.registered_nodup (hsub x hx) (hsub y hy) heq

/-- All threads sleep and no reservation is live. -/
def Quiet (s : System β) : Prop := s.live = 0 ∧ ∀ t ∈ s.tasks, t.isAsleep = true

omit [DecidableEq β] in
theorem Quiet.drainers_eq (hquiet : s.Quiet) : drainers s.tasks = 0 := by
  refine countP_eq_zero.2 fun t ht hcommitted => ?_
  rw [(Task.of_isAsleep (hquiet.2 t ht)).1] at hcommitted
  cases hcommitted

section
variable (h : s.Inv) (hquiet : s.Quiet)
include h hquiet

theorem Inv.draining_of_quiet : s.state.draining = false := by
  have hsingle := h.single
  rw [hquiet.drainers_eq] at hsingle
  cases hdraining : s.state.draining with
  | false => rfl
  | true =>
    rw [hdraining] at hsingle
    cases hsingle

theorem Inv.ready_of_quiet : s.state.ready = [] := by
  by_contra hready
  have hdraining := h.ready hready
  rw [h.draining_of_quiet hquiet] at hdraining
  cases hdraining

theorem Inv.free_of_quiet (b : β) : b ∉ s.state.active := by
  intro hactive
  have hb := (h.mem_owners b).2 hactive
  rw [owners, hquiet.1, h.ready_of_quiet hquiet, List.map_nil, coe_nil, zero_add, add_zero] at hb
  obtain ⟨t, ht, hb⟩ := mem_bind.1 hb
  rw [(Task.of_isAsleep (hquiet.2 t ht)).2.2] at hb
  exact notMem_zero b hb

theorem Inv.invoked_of_quiet (b : β) :
    callbacksOf b (invocations s.log) = callbacksOf b (registrations s.log) := by
  obtain ⟨hand, horder, hhand⟩ := h.order b
  have hholds : b ∉ s.tasks.bind Task.holds := by
    intro hb
    exact h.free_of_quiet hquiet b ((h.mem_owners b).1 (by simp [owners, hb]))
  have hready : b ∉ s.state.ready.map (·.1) := by simp [h.ready_of_quiet hquiet]
  have hnil : hand = [] := (coe_eq_zero hand).1 (hhand.trans (hand_eq_zero hholds hready))
  rw [horder, hnil, waitingOf, h.waiting_of_free (h.free_of_quiet hquiet b)]
  simp

theorem Inv.dispatched_of_quiet : s.state.dispatchPending = false := by
  have hempty : s.state.waiting.entries = [] := by
    refine List.eq_nil_iff_forall_not_mem.2 fun entry hentry => ?_
    have hlookup := AList.mem_lookup_iff.2 hentry
    rw [h.waiting_of_free (h.free_of_quiet hquiet entry.1)] at hlookup
    cases hlookup
  rw [dispatchPending, hempty, h.draining_of_quiet hquiet]
  rfl

theorem Inv.tasks_of_quiet : s.tasks = 0 := by
  refine eq_zero_of_forall_notMem fun t ht => ?_
  rcases h.asleep t ht (hquiet.2 t ht) with hwaits | ⟨t', ht', hnotifies⟩
  · cases t with
    | reserving locator asleep => exact h.free_of_quiet hquiet locator hwaits
    | awaiting asleep =>
      change s.state.dispatchPending = true at hwaits
      rw [h.dispatched_of_quiet hquiet] at hwaits
      cases hwaits
    | _ => exact hwaits
  · rw [(Task.of_isAsleep (hquiet.2 t' ht')).2.1] at hnotifies
    cases hnotifies

end

/-- At every moment of every run: no bucket has two live reservations; no callback is invoked twice,
and those of a bucket are invoked in the order of registration; a bucket with callbacks is active;
one thread is bound to drain a list that is not empty; and if all threads are at rest and no
reservation is live, every callback has been invoked and nothing blocks a thread. -/
theorem windows_run (hrun : Relation.ReflTransGen Step start s) :
    s.live.Nodup ∧ ((invocations s.log).map (·.2)).Nodup ∧
      (∀ b, callbacksOf b (invocations s.log) <+: callbacksOf b (registrations s.log)) ∧
      (∀ b left, s.state.waiting.lookup b = some left → b ∈ s.state.active) ∧
      (s.state.ready ≠ [] → drainers s.tasks = 1) ∧
      (s.Quiet → (∀ b, callbacksOf b (invocations s.log) = callbacksOf b (registrations s.log)) ∧
        s.state.dispatchPending = false ∧ s.tasks = 0) := by
  have h := inv_run hrun
  refine ⟨?_, h.invoked_nodup, h.invoked_prefix, fun b left hleft => (h.waiting b left hleft).1, ?_,
    ?_⟩
  · exact nodup_of_le ((Multiset.le_add_right ..).trans (Multiset.le_add_right ..)) h.owners_nodup
  · intro hready
    rw [h.single, h.ready hready]
    rfl
  · exact fun hquiet =>
      ⟨h.invoked_of_quiet hquiet, h.dispatched_of_quiet hquiet, h.tasks_of_quiet hquiet⟩

/-- The first callback keeps its reservation, so that the second one waits until it is dropped; the
second one drops its own at once. -/
theorem run_callbacks : Relation.ReflTransGen Step start (⟨.empty, 0, 0, 2,
    [.registered 7 0, .registered 7 1, .invoked 7 0, .invoked 7 1]⟩ : System Nat) := by
  refine .head (Step.reserveAsync 7) (.head (Step.reserveAsync 7) ?_)
  refine .head (@Step.pop Nat _ _ 7 0 0 rfl rfl) (.head (@Step.invoke Nat _ _ 7 0 0 rfl) ?_)
  refine .head (@Step.called Nat _ _ 0 rfl) (.head (@Step.popNone Nat _ _ 0 rfl rfl) ?_)
  refine .head (@Step.notifyDrained Nat _ _ 0 rfl) (.head (@Step.drop Nat _ _ 7 0 rfl) ?_)
  refine .head (@Step.release Nat _ _ 7 0 rfl) (.head (@Step.notify Nat _ _ true 0 rfl) ?_)
  refine .head (@Step.pop Nat _ _ 7 1 0 rfl rfl) (.head (@Step.invoke Nat _ _ 7 1 0 rfl) ?_)
  refine .head (@Step.drop Nat _ _ 7 0 rfl) (.head (@Step.release Nat _ _ 7 {.calling} rfl) ?_)
  refine .head (@Step.notify Nat _ _ false {.calling} rfl) (.head (@Step.called Nat _ _ 0 rfl) ?_)
  refine .head (@Step.popNone Nat _ _ 0 rfl rfl) ?_
  exact .single (@Step.notifyDrained Nat _ _ 0 rfl)

theorem windows_run_callbacks :
    callbacksOf 7 (invocations
      [.registered 7 0, .registered 7 1, .invoked 7 0, .invoked 7 1]) = [0, 1] ∧
      (empty : QuotaState Nat).dispatchPending = false :=
  have h := (windows_run run_callbacks).2.2.2.2.2 ⟨rfl, fun t ht => absurd ht (notMem_zero t)⟩
  ⟨h.1 7, h.2.1⟩

end System

end Moli.Quota
