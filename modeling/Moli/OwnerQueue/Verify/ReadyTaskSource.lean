import Mathlib.Data.List.Infix
import Moli.Lib.Lists
import Moli.OwnerQueue.ReadyTaskSource

/-!
# No lost wake, and the order of consumption

`StepCase` lists what a step can do; the invariant `Ready` and the facts about whole runs are
derived from it. `ready_tasks_wake_and_order` collects them.
-/

namespace Moli.OwnerQueue

open Lib OwnerReadyTaskSource List

variable {T : Type}

/-! ## Steps -/

/-- Everything a step can do. -/
inductive StepCase (s : OwnerReadyTaskSource T) :
    Op T → Outcome T → OwnerReadyTaskSource T → Prop where
  | quiet {op} (hsent : s.state.sourceOpen = true → op = .sendAll []) (hnone : op.sent = []) :
      StepCase s op .silent s
  | refused {op first rest} (hopen : s.state.sourceOpen = false) (hsent : op.sent = first :: rest) :
      StepCase s op ⟨false, some first, []⟩ s
  | accepted {op} (hopen : s.state.sourceOpen = true) (hsent : op.sent ≠ []) :
      StepCase s op ⟨!s.state.ready, none, []⟩
        ⟨s.tasks, ⟨s.state.incoming ++ op.sent, true, true⟩⟩
  | enqueued {task} (hopen : s.state.sourceOpen = true) :
      StepCase s (.enqueueLocal task) .silent
        ⟨s.tasks ++ [task], ⟨s.state.incoming, true, true⟩⟩
  | taken {op removed tasks} (hopen : s.state.sourceOpen = true) (hnone : op.sent = [])
      (hlocal : op.enqueued = []) (hqueue : s.queue = removed ++ tasks) :
      StepCase s op ⟨false, none, removed⟩ ⟨tasks, ⟨[], !tasks.isEmpty, true⟩⟩
  | edited {operation} (hopen : s.state.sourceOpen = true) :
      StepCase s (.withTasksMut operation) .silent
        ⟨operation s.queue, ⟨[], !(operation s.queue).isEmpty, true⟩⟩
  | dropped (hopen : s.state.sourceOpen = true) :
      StepCase s .drop ⟨false, none, s.queue⟩ ⟨[], ⟨[], false, false⟩⟩

variable {s s' : OwnerReadyTaskSource T} {op : Op T} {outcome : Outcome T}

theorem step_cases (s : OwnerReadyTaskSource T) (op : Op T) :
    StepCase s op (s.step op).1 (s.step op).2 := by
  obtain ⟨tasks, incoming, ready, sourceOpen⟩ := s
  cases op with
  | send task =>
    cases sourceOpen with
    | true => exact .accepted rfl (cons_ne_nil task [])
    | false => exact .refused rfl rfl
  | sendAll batch =>
    cases batch with
    | nil => exact .quiet (fun _ => rfl) rfl
    | cons first rest =>
      cases sourceOpen with
      | true => exact .accepted rfl (cons_ne_nil first rest)
      | false => exact .refused rfl rfl
  | enqueueLocal task =>
    cases sourceOpen with
    | true => exact .enqueued rfl
    | false => exact .quiet (fun h => by cases h) rfl
  | front =>
    cases sourceOpen with
    | true =>
      have hready : (tasks ++ incoming).head?.isSome = !(tasks ++ incoming).isEmpty := by
        cases tasks ++ incoming <;> rfl
      simp only [OwnerReadyTaskSource.step, ownerStep, front, hready]
      exact .taken rfl rfl rfl rfl
    | false => exact .quiet (fun h => by cases h) rfl
  | popFront =>
    cases sourceOpen with
    | true =>
      refine .taken rfl rfl rfl ?_
      change tasks ++ incoming = (tasks ++ incoming).head?.toList ++ (tasks ++ incoming).tail
      cases tasks ++ incoming <;> rfl
    | false => exact .quiet (fun h => by cases h) rfl
  | isEmpty | hasMatchingTask =>
    cases sourceOpen with
    | true => exact .taken rfl rfl rfl rfl
    | false => exact .quiet (fun h => by cases h) rfl
  | withTasksMut operation =>
    cases sourceOpen with
    | true => exact .edited rfl
    | false => exact .quiet (fun h => by cases h) rfl
  | clearLocal =>
    cases sourceOpen with
    | true => exact .taken rfl rfl rfl (append_nil _).symm
    | false => exact .quiet (fun h => by cases h) rfl
  | drop =>
    cases sourceOpen with
    | true => exact .dropped rfl
    | false => exact .quiet (fun h => by cases h) rfl

/-! ## Readiness -/

/-- An open source is ready exactly when something is queued; a closed one holds nothing. -/
structure Ready (s : OwnerReadyTaskSource T) : Prop where
  ready_iff : s.state.sourceOpen = true → (s.state.ready = true ↔ s.queue ≠ [])
  closed : s.state.sourceOpen = false → s.queue = []

namespace Ready

theorem new : Ready (OwnerReadyTaskSource.new : OwnerReadyTaskSource T) :=
  ⟨fun _ => by simp [OwnerReadyTaskSource.new, OwnerReadyTaskState.default,
    queue], fun h => by cases h⟩

theorem step (h : Ready s) (hstep : StepCase s op outcome s') : Ready s' := by
  cases hstep with
  | quiet | refused => exact h
  | accepted hopen hsent =>
    exact ⟨fun _ => by simp [queue, hsent], fun hclosed => by cases hclosed⟩
  | enqueued =>
    exact ⟨fun _ => by simp [queue], fun hclosed => by cases hclosed⟩
  | taken | edited =>
    exact ⟨fun _ => by simp [queue], fun hclosed => by cases hclosed⟩
  | dropped => exact ⟨fun hopen => absurd hopen Bool.false_ne_true, fun _ => rfl⟩

theorem run (ops : List (Op T)) : Ready (readyTasks.run ops) :=
  Machine.invariant new (fun s op h => h.step (step_cases s op)) ops

/-- The signal is published by the sends that find nothing queued. -/
theorem signaled_iff (h : Ready s) (hstep : StepCase s op outcome s') :
    outcome.signaled = true ↔ s.state.sourceOpen = true ∧ op.sent ≠ [] ∧ s.queue = [] := by
  cases hstep with
  | quiet hopen hnone => simp [Outcome.silent, hnone]
  | refused hclosed => simp [hclosed]
  | accepted hopen hsent =>
    have hready := h.ready_iff hopen
    rw [Bool.not_eq_true', Bool.eq_false_iff, ne_eq, hready, not_not]
    exact ⟨fun hqueue => ⟨hopen, hsent, hqueue⟩, fun h => h.2.2⟩
  | enqueued | edited | dropped => simp [Outcome.silent, Op.sent]
  | taken hopen hnone => simp [hnone]

end Ready

/-- The steps by which the owner can put work into an empty source. -/
def Op.ownerEnqueues : Op T → Prop
  | .enqueueLocal _ | .withTasksMut _ => True
  | _ => False

/-- Where work appears in an empty source, a signal is published or the owner has put it there. -/
theorem woken_of_queue_ne_nil (h : Ready s) (hstep : StepCase s op outcome s')
    (hempty : s.queue = []) (hqueue : s'.queue ≠ []) :
    outcome.signaled = true ∨ op.ownerEnqueues := by
  cases hstep with
  | quiet | refused => exact absurd hempty hqueue
  | accepted hopen hsent =>
    exact .inl ((h.signaled_iff (.accepted hopen hsent)).2 ⟨hopen, hsent, hempty⟩)
  | enqueued | edited => exact .inr trivial
  | taken hopen hnone hlocal hsplit =>
    rw [hempty] at hsplit
    obtain ⟨-, rfl⟩ := append_eq_nil_iff.1 hsplit.symm
    exact absurd rfl hqueue
  | dropped => exact absurd rfl hqueue

/-- The last moment at which a source with work was empty. -/
theorem last_wake (ops : List (Op T)) (hqueue : (readyTasks.run ops).queue ≠ []) :
    ∃ before op after, ops = before ++ op :: after ∧ (readyTasks.run before).queue = [] ∧
      (∀ part, part <+: after → (readyTasks.run (before ++ op :: part)).queue ≠ []) ∧
      (((readyTasks.run before).step op).1.signaled = true ∨ op.ownerEnqueues) := by
  induction ops using reverseRecOn with
  | nil => exact absurd rfl hqueue
  | append_singleton ops op ih =>
    by_cases hempty : (readyTasks.run ops).queue = []
    · refine ⟨ops, op, [], rfl, hempty, ?_, ?_⟩
      · intro part hpart
        rw [prefix_nil.1 hpart]
        exact hqueue
      · rw [Machine.run_append] at hqueue
        exact woken_of_queue_ne_nil (.run ops) (step_cases _ op) hempty hqueue
    · obtain ⟨before, wake, after, rfl, hbefore, hafter, hwoken⟩ := ih hempty
      refine ⟨before, wake, after ++ [op], by simp, hbefore, ?_, hwoken⟩
      intro part hpart
      rcases prefix_concat_iff.1 hpart with rfl | hpart
      · simpa using hqueue
      · exact hafter part hpart

/-! ## Order -/

/-- Without edits by the owner, what is queued leaves in this order: the local queue, then the tasks
of the routes, batches in one piece, with the owner's own tasks in between. -/
theorem line_interleaving (ops : List (Op T)) (hedit : ∀ op ∈ ops, ∀ f, op ≠ .withTasksMut f)
    (s : OwnerReadyTaskSource T) :
    ∃ parts, removedBy s ops ++ (readyTasks.runFrom s ops).queue = s.tasks ++ parts.flatten ∧
      Interleaving (s.state.incoming :: acceptedBatches s ops) ((enqueuedBy s ops).map ([·]))
        parts := by
  induction ops generalizing s with
  | nil => exact ⟨[s.state.incoming], by simp [removedBy, queue], .left .nil⟩
  | cons op ops ih =>
    obtain ⟨parts, hrest, hparts⟩ :=
      ih (fun op hop => hedit op (mem_cons_of_mem _ hop)) (s.step op).2
    have hop := hedit op mem_cons_self
    have hstep := step_cases s op
    rw [removedBy, acceptedBatches, enqueuedBy, append_assoc]
    change ∃ parts, (s.step op).1.removed ++ (removedBy (s.step op).2 ops ++
      (readyTasks.runFrom (s.step op).2 ops).queue) = _ ∧ _
    rw [hrest]
    generalize (s.step op).1 = outcome, (s.step op).2 = s' at hstep hparts
    cases hstep with
    | quiet hopen hnone =>
      refine ⟨parts, rfl, ?_⟩
      cases hsource : s.state.sourceOpen with
      | false => simpa using hparts
      | true =>
        obtain rfl := hopen hsource
        simpa [Op.sent, Op.enqueued] using hparts
    | refused hclosed => exact ⟨parts, rfl, by simpa [hclosed] using hparts⟩
    | accepted hopen hsent =>
      obtain ⟨parts', hparts', hflat⟩ := hparts.split
      refine ⟨parts', by simp [hflat], ?_⟩
      have hlocal : op.enqueued = [] := by
        cases op with
        | enqueueLocal => exact absurd rfl hsent
        | send | sendAll | front | popFront | isEmpty | hasMatchingTask | withTasksMut | clearLocal
          | drop => rfl
      simpa [hopen, hsent, hlocal] using hparts'
    | @enqueued task hopen =>
      refine ⟨[task] :: parts, by simp [Outcome.silent], ?_⟩
      simpa [hopen, Op.sent, Op.enqueued] using hparts.right
    | taken hopen hnone hlocal hsplit =>
      -- All of `incoming` is in the local queue now; nothing gets in front of it any more.
      obtain ⟨parts', hparts', hflat⟩ := hparts.drop_nil
      refine ⟨s.state.incoming :: parts', ?_, ?_⟩
      · simp only [queue] at hsplit
        simp only [flatten_cons, hflat, ← append_assoc, hsplit]
      · simpa [hnone, hlocal] using hparts'.left
    | edited => exact absurd rfl (hop _)
    | dropped hopen =>
      obtain ⟨parts', hparts', hflat⟩ := hparts.drop_nil
      refine ⟨s.state.incoming :: parts', by simp [queue, hflat], ?_⟩
      simpa [Op.sent, Op.enqueued] using hparts'.left

/-! ## Runs -/

theorem step_of_closed (hclosed : s.state.sourceOpen = false) {first : T} {rest : List T}
    (hsent : op.sent = first :: rest) : s.step op = (⟨false, some first, []⟩, s) := by
  have hstep := step_cases s op
  generalize hout : s.step op = out at hstep
  obtain ⟨outcome, s'⟩ := out
  cases hstep with
  | quiet _ hnone => simp [hnone] at hsent
  | refused _ hsent' =>
    rw [hsent] at hsent'
    cases hsent'
    rfl
  | accepted hopen | enqueued hopen | taken hopen | edited hopen | dropped hopen =>
    rw [hclosed] at hopen
    cases hopen

/-- In every run, whatever the routes and the owner do: an open source is ready exactly when
something is queued; the ready signal is published by the sends that find nothing queued, and queued
work has been announced by a signal, or put there by the owner, since the queue was last empty; as
long as the owner does not edit the queue, its own tasks and the tasks of the routes each leave in
the order in which they were accepted, every batch in one piece, and the owner's tasks only overtake
tasks it has not yet taken over; a dropped source refuses every send without a signal. -/
theorem ready_tasks_wake_and_order (ops : List (Op T)) :
    ((readyTasks.run ops).state.sourceOpen = true →
      ((readyTasks.run ops).state.ready = true ↔
        (readyTasks.run ops).tasks ≠ [] ∨ (readyTasks.run ops).state.incoming ≠ [])) ∧
    (∀ op, ((readyTasks.run ops).step op).1.signaled = true ↔
      (readyTasks.run ops).state.sourceOpen = true ∧ op.sent ≠ [] ∧
        (readyTasks.run ops).tasks = [] ∧ (readyTasks.run ops).state.incoming = []) ∧
    ((readyTasks.run ops).queue ≠ [] →
      ∃ before op after, ops = before ++ op :: after ∧ (readyTasks.run before).queue = [] ∧
        (∀ part, part <+: after → (readyTasks.run (before ++ op :: part)).queue ≠ []) ∧
        (((readyTasks.run before).step op).1.signaled = true ∨ op.ownerEnqueues)) ∧
    (∀ later, (∀ op ∈ later, ∀ f, op ≠ .withTasksMut f) →
      ∃ parts, removedBy (readyTasks.run ops) later ++ (readyTasks.run (ops ++ later)).queue =
          (readyTasks.run ops).tasks ++ parts.flatten ∧
        Interleaving
          ((readyTasks.run ops).state.incoming :: acceptedBatches (readyTasks.run ops) later)
          ((enqueuedBy (readyTasks.run ops) later).map ([·])) parts) ∧
    ((readyTasks.run ops).state.sourceOpen = false → ∀ op first rest, op.sent = first :: rest →
      (readyTasks.run ops).step op = (⟨false, some first, []⟩, readyTasks.run ops)) := by
  have hready := Ready.run ops
  have hqueue : (readyTasks.run ops).queue = [] ↔
      (readyTasks.run ops).tasks = [] ∧ (readyTasks.run ops).state.incoming = [] :=
    append_eq_nil_iff
  refine ⟨?ready, ?signal, last_wake ops, ?order, ?closed⟩
  case ready =>
    intro hopen
    rw [hready.ready_iff hopen, ne_eq, hqueue, not_and_or]
  case signal =>
    intro op
    rw [hready.signaled_iff (step_cases _ op), hqueue]
  case order =>
    intro later hedit
    rw [Machine.run_append]
    exact line_interleaving later hedit _
  case closed =>
    intro hclosed op first rest hsent
    exact step_of_closed hclosed hsent

/-- A batch is announced once and leaves in one piece. -/
theorem ready_tasks_wake_and_order_batch :
    ((readyTasks.run [.enqueueLocal 1, .popFront]).step (.sendAll [2, 3])).1.signaled = true ∧
    ((readyTasks.run [.sendAll [2, 3], .drop]).step (.send 4)).1.refused = some 4 := by
  refine ⟨((ready_tasks_wake_and_order _).2.1 _).2 (by decide), ?_⟩
  rw [(ready_tasks_wake_and_order _).2.2.2.2 (by decide) (.send 4) 4 [] rfl]

/-- A task of the owner overtakes a task that a route sent before it, and an edit of the owner can
change the order altogether. -/
theorem local_tasks_overtake :
    removedBy .new [.send 2, .enqueueLocal 1, .popFront, .popFront] = [1, 2] ∧
    removedBy .new [.send 1, .send 2, .withTasksMut reverse, .popFront, .popFront] = [2, 1] := by
  decide

end Moli.OwnerQueue
