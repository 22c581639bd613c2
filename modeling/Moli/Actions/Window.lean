import Mathlib.Data.List.Basic
import Moli.Lib.Checked

/-!
# The action window

The one-second window of `window.rs` with its action and batch types. The methods return their
result and the window they leave; a panic of the source (an exhausted counter, a deadline outside
the range of `Instant`) is a `Fault`. The scope type only has the comparison of `PartialEq`.
-/

namespace Moli.Actions

open Lib

/-- The bit pattern of an `f64`. -/
abbrev F64 := UInt64

/-- Nanoseconds of the monotonic clock. -/
abbrev Instant := Nat

/-- The last instant: signed 64-bit seconds and a nanosecond part. -/
def Instant.last : Instant := (2 ^ 63 - 1) * 10 ^ 9 + 999999999

def Instant.checkedAdd (t : Instant) (duration : Nat) : Option Instant :=
  if duration ≤ Instant.last ∧ t ≤ Instant.last - duration then some (t + duration) else none

/-! ## Actions -/

structure Point where
  x : F64
  y : F64

structure InputModifiers where
  bits : UInt8
deriving DecidableEq

inductive ScrollDeltaMode where
  | pixel
  | line
  | page
deriving DecidableEq

/-- One scroll step. -/
structure ScrollAction where
  position : Point
  deltaX : F64
  deltaY : F64
  deltaMode : ScrollDeltaMode
  modifiers : InputModifiers

inductive MouseButton where
  | left
  | middle
  | right
  | back
  | forward
deriving DecidableEq

/-- One complete logical click. -/
structure ClickAction where
  position : Point
  button : MouseButton
  clickCount : UInt32
  modifiers : InputModifiers

inductive WindowAction (O : Type) where
  | scroll (scroll : ScrollAction)
  | click (click : ClickAction)
  | ordered (action : O)

/-! ## Batches -/

abbrev ActionBatchId := Nat

abbrev ActionSequence := Nat

/-- A read or synchronization operation that requires pending actions first. -/
inductive ActionBarrier where
  | screenshot
  | screencast
  | explicit
deriving DecidableEq

inductive ActionBatchCause where
  | deadline
  | barrier (barrier : ActionBarrier)
deriving DecidableEq

structure ScheduledAction (T : Type) where
  sequence : ActionSequence
  admittedAt : Instant
  value : T

structure ScrollRun where
  steps : List (ScheduledAction ScrollAction)

namespace ScrollRun

def new (step : ScheduledAction ScrollAction) : ScrollRun := ⟨[step]⟩

def push (run : ScrollRun) (step : ScheduledAction ScrollAction) : ScrollRun :=
  ⟨run.steps ++ [step]⟩

def append (run other : ScrollRun) : ScrollRun := ⟨run.steps ++ other.steps⟩

def len (run : ScrollRun) : Nat := run.steps.length

end ScrollRun

/-- A compacted unit in execution order. -/
inductive PlannedAction (S O : Type) where
  | scroll (scope : S) (run : ScrollRun)
  | click (scope : S) (click : ScheduledAction ClickAction)
  | ordered (scope : S) (action : ScheduledAction O)

namespace PlannedAction

variable {S O : Type}

def scope : PlannedAction S O → S
  | scroll scope _ | click scope _ | ordered scope _ => scope

def retainedActionCount : PlannedAction S O → Nat
  | scroll _ run => run.len
  | click _ _ | ordered _ _ => 1

/-- The sequences `remove_scope` reports for a removed action. -/
def sequences : PlannedAction S O → List ActionSequence
  | scroll _ run => run.steps.map (·.sequence)
  | click _ scheduled => [scheduled.sequence]
  | ordered _ scheduled => [scheduled.sequence]

/-- The `matches!` of `admitAction`: a click of the scope. -/
def isClickOf [BEq S] (scope : S) : PlannedAction S O → Bool
  | click clickScope _ => clickScope == scope
  | _ => false

end PlannedAction

structure ActionBatch (S O : Type) where
  id : ActionBatchId
  openedAt : Instant
  deadline : Instant
  releasedAt : Instant
  cause : ActionBatchCause
  admittedActionCount : Nat
  retainedActionCount : Nat
  actions : List (PlannedAction S O)

/-! ## The pending window -/

inductive ActionCompaction where
  | added
  | appendedToScrollRun
  | replacedClick

inductive AdmissionState where
  | opened
  | joined
  | rotated

structure ActionAdmission (S O : Type) where
  state : AdmissionState
  batchId : ActionBatchId
  sequence : ActionSequence
  deadline : Instant
  compaction : ActionCompaction
  readyBatch : Option (ActionBatch S O)

structure PendingWindow (S O : Type) where
  id : ActionBatchId
  openedAt : Instant
  deadline : Instant
  admittedActionCount : Nat
  retainedActionCount : Nat
  actions : List (PlannedAction S O)

namespace PendingWindow

variable {S O : Type} [BEq S]

/-- One turn of the loop of `normalize_scroll_runs`. -/
def normalizeStep (normalized : List (PlannedAction S O)) :
    PlannedAction S O → List (PlannedAction S O)
  | .scroll scope run =>
    match normalized.getLast? with
    | some (.scroll previousScope previousRun) =>
      if previousScope == scope then
        normalized.dropLast ++ [.scroll previousScope (previousRun.append run)]
      else normalized ++ [.scroll scope run]
    | _ => normalized ++ [.scroll scope run]
  | other => normalized ++ [other]

variable (w : PendingWindow S O)

def normalizeScrollRuns : PendingWindow S O :=
  { w with actions := w.actions.foldl normalizeStep [] }

def admitAction (scope : S) (action : WindowAction O) (sequence : ActionSequence)
    (admittedAt : Instant) : ActionCompaction × PendingWindow S O :=
  let w := { w with admittedActionCount := w.admittedActionCount + 1 }
  match action with
  | .scroll scroll =>
    let w := { w with retainedActionCount := w.retainedActionCount + 1 }
    let scheduled := ⟨sequence, admittedAt, scroll⟩
    match w.actions.getLast? with
    | some (.scroll previousScope run) =>
      if previousScope == scope then
        (.appendedToScrollRun,
          { w with actions := w.actions.dropLast ++ [.scroll previousScope (run.push scheduled)] })
      else (.added, { w with actions := w.actions ++ [.scroll scope (.new scheduled)] })
    | _ => (.added, { w with actions := w.actions ++ [.scroll scope (.new scheduled)] })
  | .click click =>
    let previous := w.actions.findIdx? (·.isClickOf scope)
    let w := match previous with
      | some index => { w with actions := w.actions.eraseIdx index }.normalizeScrollRuns
      | none => { w with retainedActionCount := w.retainedActionCount + 1 }
    (if previous.isSome then .replacedClick else .added,
      { w with actions := w.actions ++ [.click scope ⟨sequence, admittedAt, click⟩] })
  | .ordered action =>
    (.added, { w with
      retainedActionCount := w.retainedActionCount + 1
      actions := w.actions ++ [.ordered scope ⟨sequence, admittedAt, action⟩] })

def removeScope (scope : S) : List ActionSequence × PendingWindow S O :=
  let removedSequences := (w.actions.filter (·.scope == scope)).flatMap (·.sequences)
  let kept := w.actions.filter fun action => action.scope != scope
  let retainedActionCount := (kept.map PlannedAction.retainedActionCount).sum
  (removedSequences, { w with actions := kept, retainedActionCount }.normalizeScrollRuns)

omit [BEq S] in
def intoBatch (releasedAt : Instant) (cause : ActionBatchCause) : ActionBatch S O :=
  { id := w.id, openedAt := w.openedAt, deadline := w.deadline, releasedAt, cause,
    admittedActionCount := w.admittedActionCount, retainedActionCount := w.retainedActionCount,
    actions := w.actions }

end PendingWindow

/-! ## The window -/

/-- Where the source panics. -/
inductive Fault where
  | deadlineExceedsRange
  | batchIdExhausted
  | sequenceExhausted

def actionWindowDuration : Nat := 10 ^ 9

/-- A timer-independent, fixed one-second, one-shot action window. -/
structure ActionWindow (S O : Type) where
  nextBatchId : Nat
  nextSequence : Nat
  pending : Option (PendingWindow S O)

namespace ActionWindow

variable {S O : Type}

def new : ActionWindow S O := ⟨1, 1, none⟩

variable (w : ActionWindow S O)

def isIdle : Bool := w.pending.isNone

def clear : Nat × ActionWindow S O :=
  (w.pending.elim 0 (·.retainedActionCount), { w with pending := none })

def allocateBatchId : Except Fault (ActionBatchId × ActionWindow S O) :=
  if w.nextBatchId + 1 ≤ u64Max then
    .ok (w.nextBatchId, { w with nextBatchId := w.nextBatchId + 1 })
  else .error .batchIdExhausted

def allocateSequence : Except Fault (ActionSequence × ActionWindow S O) :=
  if w.nextSequence + 1 ≤ u64Max then
    .ok (w.nextSequence, { w with nextSequence := w.nextSequence + 1 })
  else .error .sequenceExhausted

/-- The new pending window is also the one left in `pending`. -/
def openWindow (openedAt : Instant) : Except Fault (PendingWindow S O × ActionWindow S O) := do
  let some deadline := Instant.checkedAdd openedAt actionWindowDuration
    | throw .deadlineExceedsRange
  let (id, w) ← w.allocateBatchId
  let window := ⟨id, openedAt, deadline, 0, 0, []⟩
  return (window, { w with pending := some window })

/-- The pending window, opened now where there is none. -/
def ensureWindow (admittedAt : Instant) : Except Fault (PendingWindow S O × ActionWindow S O) :=
  match w.pending with
  | none => w.openWindow admittedAt
  | some window => .ok (window, w)

variable [BEq S]

def push (w : ActionWindow S O) (scope : S) (action : WindowAction O) (admittedAt : Instant) :
    Except Fault (ActionAdmission S O × ActionWindow S O) := do
  let shouldRotate := w.pending.any fun window => window.deadline ≤ admittedAt
  let readyBatch :=
    if shouldRotate then w.pending.map (·.intoBatch admittedAt .deadline) else none
  let w := if shouldRotate then { w with pending := none } else w
  let state :=
    if readyBatch.isSome then .rotated else if w.pending.isSome then .joined else .opened
  let (window, w) ← w.ensureWindow admittedAt
  let (sequence, w) ← w.allocateSequence
  let (compaction, window) := window.admitAction scope action sequence admittedAt
  return (⟨state, window.id, sequence, window.deadline, compaction, readyBatch⟩,
    { w with pending := some window })

omit [BEq S] in
def takeDue (now : Instant) : Option (ActionBatch S O) × ActionWindow S O :=
  if w.pending.any fun window => window.deadline ≤ now then
    (w.pending.map (·.intoBatch now .deadline), { w with pending := none })
  else (none, w)

omit [BEq S] in
def flush (barrier : ActionBarrier) (now : Instant) : Option (ActionBatch S O) × ActionWindow S O :=
  (w.pending.map (·.intoBatch now (.barrier barrier)), { w with pending := none })

def cancelScope (w : ActionWindow S O) (scope : S) : List ActionSequence × ActionWindow S O :=
  match w.pending with
  | none => ([], w)
  | some window =>
    let (removed, window) := window.removeScope scope
    (removed, { w with pending := if window.actions.isEmpty then none else some window })

end ActionWindow

end Moli.Actions
