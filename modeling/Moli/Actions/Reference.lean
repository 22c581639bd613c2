import Mathlib.Data.List.Forall2
import Moli.Actions.Window

/-!
# The flat reference of the action window

What a window is for: of the actions admitted to it, it keeps those that no later event of the same
window removes, in admission order. `Compacted` compares planned actions with that list, and a
`World` follows a window through a sequence of calls, with the events of the open window and the
way every admitted action has left it.
-/

namespace Moli.Actions

/-! ## Flat actions -/

/-- An action with the scope, sequence and time of its admission. -/
structure FlatAction (S O : Type) where
  scope : S
  scheduled : ScheduledAction (WindowAction O)

namespace FlatAction

variable {S O : Type}

def sequence (a : FlatAction S O) : ActionSequence := a.scheduled.sequence

def isClick (a : FlatAction S O) : Bool :=
  match a.scheduled.value with
  | .click _ => true
  | _ => false

end FlatAction

/-- The actions of a planned action, a scroll run expanded into its steps. -/
def PlannedAction.expand {S O : Type} : PlannedAction S O → List (FlatAction S O)
  | .scroll scope run =>
    run.steps.map fun step => ⟨scope, ⟨step.sequence, step.admittedAt, .scroll step.value⟩⟩
  | .click scope scheduled =>
    [⟨scope, ⟨scheduled.sequence, scheduled.admittedAt, .click scheduled.value⟩⟩]
  | .ordered scope scheduled =>
    [⟨scope, ⟨scheduled.sequence, scheduled.admittedAt, .ordered scheduled.value⟩⟩]

def flatten {S O : Type} (actions : List (PlannedAction S O)) : List (FlatAction S O) :=
  actions.flatMap (·.expand)

/-- The actions of the open window. -/
def ActionWindow.retained {S O : Type} (w : ActionWindow S O) : List (FlatAction S O) :=
  w.pending.elim [] fun window => flatten window.actions

/-- What happens to an open window. -/
inductive WindowEvent (S O : Type) where
  | admitted (action : FlatAction S O)
  | canceled (scope : S)

def admissions {S O : Type} (events : List (WindowEvent S O)) : List (FlatAction S O) :=
  events.filterMap fun
    | .admitted a => some a
    | .canceled _ => none

section

variable {S O : Type} [BEq S]

/-- A later click of the scope supersedes a click, a cancellation removes all of its scope. -/
def WindowEvent.removes : WindowEvent S O → FlatAction S O → Bool
  | .admitted later, a => a.isClick && later.isClick && a.scope == later.scope
  | .canceled scope, a => a.scope == scope

/-- The admitted actions that no later event removes. -/
def survivors : List (WindowEvent S O) → List (FlatAction S O)
  | [] => []
  | .admitted a :: later =>
    if later.any (·.removes a) then survivors later else a :: survivors later
  | .canceled _ :: later => survivors later

/-- The same action. The steps of a scroll run all bear the scope of the first one, which is equal
to their own as far as `PartialEq` can tell. -/
def FlatAction.Same (a b : FlatAction S O) : Prop :=
  a.scheduled = b.scheduled ∧ (a.scope = b.scope ∨ a.scope == b.scope)

/-- Scroll runs of one scope. -/
def PlannedAction.sameRun : PlannedAction S O → PlannedAction S O → Bool
  | .scroll scope _, .scroll scope' _ => scope == scope'
  | _, _ => false

/-- The planned actions and counters of a window with these events are what they should be. -/
structure Compacting (actions : List (PlannedAction S O)) (retainedActionCount : Nat)
    (admittedActionCount : Nat) (events : List (WindowEvent S O)) : Prop where
  flat : List.Forall₂ FlatAction.Same (flatten actions) (survivors events)
  increasing : (flatten actions).Pairwise (·.sequence < ·.sequence)
  separated : actions.IsChain fun x y => x.sameRun y = false
  runs : ∀ scope run, .scroll scope run ∈ actions → run.steps ≠ []
  retained : retainedActionCount = (flatten actions).length
  admitted : admittedActionCount = (admissions events).length

/-- A window that is left open or released has planned actions. -/
structure Compacted (actions : List (PlannedAction S O)) (retainedActionCount : Nat)
    (admittedActionCount : Nat) (events : List (WindowEvent S O)) : Prop extends
    Compacting actions retainedActionCount admittedActionCount events where
  nonempty : actions ≠ []

end

/-! ## Runs -/

/-- How admitted actions leave the window. A released batch comes with the events of its window, the
sequences a cancellation returned with what the window held before it. -/
inductive Departure (S O : Type) where
  | released (batch : ActionBatch S O) (events : List (WindowEvent S O))
  | superseded (actions : List (FlatAction S O)) (successor : FlatAction S O)
  | canceled (scope : S) (held : List (FlatAction S O)) (sequences : List ActionSequence)
  | cleared (actions : List (FlatAction S O))

namespace Departure

variable {S O : Type}

def sequences : Departure S O → List ActionSequence
  | released batch _ => (flatten batch.actions).map (·.sequence)
  | superseded actions _ => actions.map (·.sequence)
  | canceled _ _ sequences => sequences
  | cleared actions => actions.map (·.sequence)

def released? : Departure S O → List ActionSequence
  | released batch _ => (flatten batch.actions).map (·.sequence)
  | superseded _ _ | canceled _ _ _ | cleared _ => []

end Departure

/-- A window, the events since it was opened and what has left it. -/
structure World (S O : Type) where
  window : ActionWindow S O
  events : List (WindowEvent S O)
  departures : List (Departure S O)

namespace World

variable {S O : Type}

def new : World S O := ⟨.new, [], []⟩

/-- The window has been released in this batch, if any. -/
def release (w : World S O) : Option (ActionBatch S O) → World S O
  | none => w
  | some batch =>
    ⟨{ w.window with pending := none }, [], w.departures ++ [.released batch w.events]⟩

end World

inductive Op (S O : Type) where
  | push (scope : S) (action : WindowAction O) (admittedAt : Instant)
  | takeDue (now : Instant)
  | flush (barrier : ActionBarrier) (now : Instant)
  | cancelScope (scope : S)
  | clear

variable {S O : Type} [BEq S]

def World.push (w : World S O) (scope : S) (action : WindowAction O) (admittedAt : Instant) :
    Except Fault (World S O) := do
  let (admission, window) ← w.window.push scope action admittedAt
  let w := w.release admission.readyBatch
  let admitted := ⟨scope, ⟨admission.sequence, admittedAt, action⟩⟩
  -- The actions of the open window that this admission has dropped.
  let kept := window.retained.map FlatAction.sequence
  let dropped := w.window.retained.filter fun a => !kept.contains a.sequence
  return ⟨window, w.events ++ [.admitted admitted], w.departures ++ [.superseded dropped admitted]⟩

def World.step (w : World S O) : Op S O → Except Fault (World S O)
  | .push scope action admittedAt => w.push scope action admittedAt
  | .takeDue now =>
    let (batch, window) := w.window.takeDue now
    return { w.release batch with window }
  | .flush barrier now =>
    let (batch, window) := w.window.flush barrier now
    return { w.release batch with window }
  | .cancelScope scope =>
    let (removed, window) := w.window.cancelScope scope
    let events := w.events ++ [.canceled scope]
    -- A window of which nothing is left is closed.
    return ⟨window, if (survivors events).isEmpty then [] else events,
      w.departures ++ [.canceled scope w.window.retained removed]⟩
  | .clear => return ⟨w.window.clear.2, [], w.departures ++ [.cleared w.window.retained]⟩

/-- The world after a sequence of calls. -/
def run (ops : List (Op S O)) : Except Fault (World S O) := ops.foldlM World.step .new

end Moli.Actions
