import Moli.Lib.Lists
import Moli.Lib.Trace
import Moli.OwnerQueue.OwnerTaskSource

/-!
# Accepting wakes

Every method that accepts pending work leaves the channels empty and moves all of it to the local
queue. `drainWake_eq` says in which order: parser boundary work, then the previous local queue, then
regular work. `waitForWakeArrival` takes the first parser boundary item by itself and drains the
others in front of it, so that it agrees exactly if these items are all the same
(`waitForWakeArrival_accepts_iff`); it always keeps the work (`waitForWakeArrival_perm`).
-/

namespace Moli.OwnerQueue

open Lib OwnerWakeQueue List

variable {T : Type}

variable {item : T} {rest : List T}

namespace OwnerWakeQueue

/-- The items pending on the queue, oldest first. -/
def pending (queue : OwnerWakeQueue T) : List T := queue.buffered ++ queue.rx

@[simp] theorem pending_new : (new : OwnerWakeQueue T).pending = [] := rfl

@[simp] theorem pending_buffered (items : List T) :
    (⟨items, []⟩ : OwnerWakeQueue T).pending = items :=
  append_nil items

theorem tryDrainInto_eq (queue : OwnerWakeQueue T) (dst : List T) :
    queue.tryDrainInto dst = (dst ++ queue.pending, new) := rfl

theorem recv_of_nil {queue : OwnerWakeQueue T} (h : queue.pending = []) :
    queue.recv = (none, new) := by
  have h' : queue.buffered ++ queue.rx = [] := h
  simp only [recv, popFront, drainIncoming, h']
  rfl

theorem recv_of_cons {queue : OwnerWakeQueue T} (h : queue.pending = item :: rest) :
    queue.recv = (some item, ⟨rest, []⟩) := by
  have h' : queue.buffered ++ queue.rx = item :: rest := h
  simp only [recv, popFront, drainIncoming, h']

end OwnerWakeQueue

namespace OwnerTaskSource

variable (s : OwnerTaskSource T)

/-- All work of the source in the order in which it is to be done. -/
def work : List T :=
  s.parserBoundaryWake.pending ++ s.tasks ++ s.wake.pending

theorem drainWake_eq : s.drainWake = ⟨s.work, .new, .new⟩ := by
  rw [drainWake, tryDrainInto_eq]
  simp only [tryDrainInto_eq]
  cases hfront : s.parserBoundaryWake.pending with
  | nil | cons => simp [work, hfront]

/-! ## Waiting for a wake -/

theorem waitForWakeArrival_of_nil {s : OwnerTaskSource T} (h : s.parserBoundaryWake.pending = [])
    (hwake : s.wake.pending ≠ []) :
    s.waitForWakeArrival = (some true, ⟨s.work, .new, .new⟩) := by
  obtain ⟨item, rest, hitem⟩ := exists_cons_of_ne_nil hwake
  rw [waitForWakeArrival, recv_of_nil h]
  simp only [recv_of_cons hitem, drainWake_eq]
  simp [work, h, hitem]

/-- The first parser boundary item is put in front before the others are. -/
theorem waitForWakeArrival_of_cons {s : OwnerTaskSource T}
    (h : s.parserBoundaryWake.pending = item :: rest) :
    s.waitForWakeArrival =
      (some true, ⟨rest ++ item :: s.tasks ++ s.wake.pending, .new, .new⟩) := by
  rw [waitForWakeArrival, recv_of_cons h]
  simp only [drainWake_eq]
  simp [work]

/-- No work is lost or duplicated. -/
theorem waitForWakeArrival_perm : s.waitForWakeArrival.2.work.Perm s.work := by
  cases h : s.parserBoundaryWake.pending with
  | cons item rest =>
    rw [waitForWakeArrival_of_cons h]
    simp only [work, h, pending_new, append_nil]
    rw [cons_append, append_assoc, cons_append, cons_append, append_assoc]
    exact perm_middle
  | nil =>
    by_cases hwake : s.wake.pending = []
    · rw [waitForWakeArrival, recv_of_nil h]
      simp only [recv_of_nil hwake]
      simp [work, h, hwake]
    · rw [waitForWakeArrival_of_nil h hwake]
      simp [work]

/-- Waiting for pending work accepts it in the order in which `acceptReadyWakes` does. -/
def AcceptsAlike : Prop :=
  s.waitForWakeArrival.1 = some true ∧
    s.waitForWakeArrival.2.tasks = s.acceptReadyWakes.tasks ∧
    s.acceptReadyWakes.tasks = s.parserBoundaryWake.pending ++ s.tasks ++ s.wake.pending

/-- Waiting accepts alike exactly if the pending boundary items are all equal. -/
theorem waitForWakeArrival_accepts_iff (s : OwnerTaskSource T)
    (hpending : s.parserBoundaryWake.pending ≠ [] ∨ s.wake.pending ≠ []) :
    s.AcceptsAlike ↔
      ∀ x ∈ s.parserBoundaryWake.pending, ∀ y ∈ s.parserBoundaryWake.pending, x = y := by
  rw [AcceptsAlike, acceptReadyWakes, drainWake_eq]
  cases h : s.parserBoundaryWake.pending with
  | nil =>
    have hwake : s.wake.pending ≠ [] := hpending.resolve_left fun hne => hne h
    rw [waitForWakeArrival_of_nil h hwake]
    simp [work, h]
  | cons item rest =>
    rw [waitForWakeArrival_of_cons h]
    have hcons : rest ++ item :: s.tasks ++ s.wake.pending = s.work ↔ ∀ x ∈ rest, x = item := by
      rw [work, h, ← append_singleton_eq_cons_iff, append_cancel_right_eq,
        ← append_cancel_right_eq (rest ++ [item]) s.tasks]
      simp
    constructor
    · rintro ⟨-, htasks, -⟩ x hx y hy
      have hall : ∀ z ∈ item :: rest, z = item := by simpa using hcons.1 htasks
      rw [hall x hx, hall y hy]
    · intro hall
      refine ⟨rfl, hcons.2 fun x hx => ?_, ?_⟩
      · exact hall x (mem_cons_of_mem _ hx) item mem_cons_self
      · rw [work, h]

theorem waitForWakeArrival_accepts_one :
    (⟨[2], ⟨[], [1]⟩, ⟨[], [3, 4]⟩⟩ : OwnerTaskSource Nat).AcceptsAlike :=
  (waitForWakeArrival_accepts_iff ⟨[2], ⟨[], [1]⟩, ⟨[], [3, 4]⟩⟩ (.inl (by decide))).2 (by decide)

/-- Two items sent to the parser boundary are accepted in the wrong order. -/
theorem waitForWakeArrival_swaps :
    ((⟨[], ⟨[], [1, 2]⟩, ⟨[], []⟩⟩ : OwnerTaskSource Nat).waitForWakeArrival.2.tasks = [2, 1] ∧
      (⟨[], ⟨[], [1, 2]⟩, ⟨[], []⟩⟩ : OwnerTaskSource Nat).acceptReadyWakes.tasks = [1, 2]) ∧
      ¬ ∀ s : OwnerTaskSource Nat,
        s.parserBoundaryWake.pending ≠ [] ∨ s.wake.pending ≠ [] → s.AcceptsAlike := by
  refine ⟨by decide, fun h => ?_⟩
  have hsame := (h ⟨[], ⟨[], [1, 2]⟩, ⟨[], []⟩⟩ (.inl (by decide))).2.1
  exact absurd hsame (by decide)

/-! ## Runs -/

/-- What a step hands in, through `sender` or otherwise, and what it takes out. -/
structure Event (T : Type) where
  sent : List T := []
  other : List T := []
  taken : List T := []

/-- A send of another thread, or a call of the owner. -/
inductive Step : Event T → OwnerTaskSource T → Prop where
  | send (item : T) : Step { sent := [item] } { s with wake := s.wake.send item }
  | sendParserBoundary (item : T) :
      Step { other := [item] } { s with parserBoundaryWake := s.parserBoundaryWake.send item }
  | enqueueLocal (item : T) : Step { other := [item] } (s.enqueueLocal item)
  | enqueueParserBoundaryLocal (item : T) :
      Step { other := [item] } (s.enqueueParserBoundaryLocal item)
  | extendLocal (items : List T) : Step { other := items } (s.extendLocal items)
  | acceptReadyWakes : Step {} s.acceptReadyWakes
  | clearLocal : Step { taken := s.drainWake.tasks } s.clearLocal
  | popFront : Step { taken := s.popFront.1.toList } s.popFront.2
  | popFrontLocalOnly : Step { taken := s.popFrontLocalOnly.1.toList } s.popFrontLocalOnly.2
  | waitForArrival : Step {} s.waitForArrival.2
  | waitForWakeArrival : Step {} s.waitForWakeArrival.2

/-- No item is lost or duplicated, and regular work keeps the order in which it was sent. -/
structure Kept (e : Event T) (s' : OwnerTaskSource T) : Prop where
  perm : (e.taken ++ s'.work).Perm (s.work ++ (e.sent ++ e.other))
  order : (s.tasks ++ s.wake.pending ++ e.sent).Sublist (e.taken ++ (s'.tasks ++ s'.wake.pending))

variable {s} {s' : OwnerTaskSource T}

theorem Kept.drained {taken tasks : List T} (h : taken ++ tasks = s.work) :
    Kept s { taken } ⟨tasks, .new, .new⟩ := by
  refine ⟨?_, by simp [h, work]⟩
  rw [← h]
  simp [work]

theorem kept_of_step {e : Event T} (h : Step s e s') : Kept s e s' := by
  classical
  cases h with
  | send | sendParserBoundary | enqueueLocal | enqueueParserBoundaryLocal | extendLocal =>
    refine ⟨perm_iff_count.2 fun x => ?_, ?_⟩ <;>
      simp [work, pending, send, enqueueLocal, enqueueParserBoundaryLocal, extendLocal, count_cons]
    all_goals omega
  | acceptReadyWakes | clearLocal | popFront | waitForArrival =>
    simp only [acceptReadyWakes, clearLocal, popFront, popFrontLocalOnly, waitForArrival,
      drainWake_eq]
    cases h : s.work with
    | nil | cons => exact .drained (by simp [h])
  | popFrontLocalOnly =>
    rw [popFrontLocalOnly]
    cases h : s.tasks with
    | nil => constructor <;> simp [work]
    | cons =>
      refine ⟨?_, by simp [h]⟩
      simpa [work, h] using perm_middle.symm
  | waitForWakeArrival =>
    refine ⟨by simpa using s.waitForWakeArrival_perm, ?_⟩
    cases h : s.parserBoundaryWake.pending with
    | cons => simp [waitForWakeArrival_of_cons h]
    | nil =>
      by_cases hwake : s.wake.pending = []
      · simp [waitForWakeArrival, recv_of_nil h, recv_of_nil hwake, hwake]
      · simp [waitForWakeArrival_of_nil h hwake, work]

/-- Whatever the order of the sends and the calls. -/
theorem run_kept {events : List (Event T)} (h : Trace Step s events s') :
    Kept s ⟨events.flatMap (·.sent), events.flatMap (·.other), events.flatMap (·.taken)⟩ s' := by
  classical
  induction h with
  | nil => constructor <;> simp
  | @cons _ _ _ e events hstep _ ih =>
    obtain ⟨hperm, horder⟩ := kept_of_step hstep
    refine ⟨perm_iff_count.2 fun x => ?_, ?_⟩
    · have hfirst := hperm.count_eq x
      have hrest := ih.perm.count_eq x
      simp only [flatMap_cons, count_append] at *
      omega
    · have hfirst := horder.append_right (events.flatMap (·.sent))
      have hrest := ih.order.append_left e.taken
      simp only [flatMap_cons, append_assoc] at *
      exact hfirst.trans hrest

/-- Work of every kind is accepted out of order and taken while more arrives. -/
theorem run_kept_popFront : Kept (new : OwnerTaskSource Nat) ⟨[1, 2], [5, 6, 3], [6]⟩
    ⟨[5, 3, 1, 2], .new, .new⟩ :=
  run_kept (.cons (.send 1) (.cons (.sendParserBoundary 5) (.cons (.sendParserBoundary 6)
    (.cons (.enqueueLocal 3) (.cons .waitForWakeArrival (.cons (.send 2)
      (.cons .popFront (.nil _))))))))

end OwnerTaskSource

end Moli.OwnerQueue
