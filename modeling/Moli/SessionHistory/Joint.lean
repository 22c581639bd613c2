import Mathlib.Algebra.Order.Ring.Int
import Moli.Lib.SortedMap
import Moli.Lib.Trace

/-!
# Joint session history

The timeline of `moli-session-history`: a step holds an entry for each browsing context that is
active in it, and a cursor names the current step. A plan for a traversal is taken at one time and
committed at another one, if the history is still the one it was taken for.

Identities come from counters that all histories share. `descendants` walks the parent links, which
need not end; `rounds` bounds the rounds of its loop, and a call that does not end within them has
no result. The mutations of a history are the labels of a transition system (`Op`).
-/

namespace Moli.SessionHistory

open Lib

abbrev NavigationHistoryEntryKey := String

abbrev NavigationHistoryDocumentId := String

abbrev SessionHistoryContextId := Nat

abbrev SessionHistoryStepId := Nat

abbrev SessionHistoryRevision := Nat

structure SessionHistoryEntry where
  key : NavigationHistoryEntryKey
  document : NavigationHistoryDocumentId
deriving DecidableEq

abbrev Entries := SortedMap SessionHistoryContextId SessionHistoryEntry

structure SessionHistoryStep where
  id : SessionHistoryStepId
  entries : Entries

structure SessionHistoryPosition where
  index : Nat
  length : Nat
  index_lt : index < length

/-- The counters of the identities. -/
structure Ids where
  nextStep : SessionHistoryStepId
  nextRevision : SessionHistoryRevision

structure JointSessionHistory where
  revision : SessionHistoryRevision
  steps : List SessionHistoryStep
  current : Nat
  parents : SortedMap SessionHistoryContextId SessionHistoryContextId
  current_lt : current < steps.length

/-! ## Traversal plans -/

structure SessionHistoryContextChange where
  context : SessionHistoryContextId
  source : Option SessionHistoryEntry
  destination : Option SessionHistoryEntry
deriving DecidableEq

structure SessionHistoryTraversalPlan where
  revision : SessionHistoryRevision
  sourceStep : SessionHistoryStepId
  targetStep : SessionHistoryStepId
  delta : Int
  changes : List SessionHistoryContextChange
  targetEntries : Entries

/-- `i64::try_from`. -/
def toI64 (n : Nat) : Option Int := if n < 2 ^ 63 then some n else none

namespace SessionHistoryStep

def holds (step : SessionHistoryStep) (context : SessionHistoryContextId)
    (key : NavigationHistoryEntryKey) : Bool :=
  (step.entries.find context).any (·.key == key)

/-- `retain` of the entries of other contexts. -/
def without (step : SessionHistoryStep) (removed : List SessionHistoryContextId) :
    SessionHistoryStep :=
  { step with
    entries := step.entries.mapMaybe fun id entry =>
      if removed.contains id then none else some entry }

end SessionHistoryStep

namespace JointSessionHistory

/-- New steps with consecutive identities. -/
def new (position : SessionHistoryPosition) (ids : Ids) : JointSessionHistory × Ids :=
  ({ revision := ids.nextRevision
     steps := (List.range position.length).map fun i => ⟨ids.nextStep + i, .empty⟩
     current := position.index
     parents := .empty
     current_lt := by simpa using position.index_lt },
    ⟨ids.nextStep + position.length, ids.nextRevision + 1⟩)

variable (h : JointSessionHistory)

def stepNow : SessionHistoryStep := h.steps.get ⟨h.current, h.current_lt⟩

def currentStep : SessionHistoryStepId := h.stepNow.id

def entry (context : SessionHistoryContextId) : Option SessionHistoryEntry :=
  h.stepNow.entries.find context

/-- Change the entries of every step by its index. -/
def mapSteps (f : Nat → SessionHistoryStep → SessionHistoryStep) : JointSessionHistory :=
  { h with steps := h.steps.mapIdx f, current_lt := by simpa using h.current_lt }

/-! ## Topology -/

/-- Whether a step has the document that the parent has now. -/
def sameParentDocument (parent : Option SessionHistoryContextId) (step : SessionHistoryStep) :
    Bool :=
  match parent with
  | none => false
  | some parent =>
    match h.entry parent with
    | none => false
    | some now => (step.entries.find parent).any (·.document == now.document)

/-- The current step and those in the same parent document get the entry, if they have none. -/
def attachStep (context : SessionHistoryContextId) (parent : Option SessionHistoryContextId)
    (entry : SessionHistoryEntry) (index : Nat) (step : SessionHistoryStep) : SessionHistoryStep :=
  if (index = h.current ∨ h.sameParentDocument parent step) ∧
      (step.entries.find context).isNone then
    { step with entries := step.entries.insert context entry }
  else step

def attach (context : SessionHistoryContextId) (parent : Option SessionHistoryContextId)
    (entry : SessionHistoryEntry) : JointSessionHistory :=
  if (h.entry context).isSome then h
  else
    { h.mapSteps (h.attachStep context parent entry) with
      parents := match parent with
        | none => h.parents
        | some parent => h.parents.insert context parent }

def descendantsLoop (parents : SortedMap SessionHistoryContextId SessionHistoryContextId) :
    Nat → List SessionHistoryContextId → Nat → Option (List SessionHistoryContextId)
  | 0, _, _ => none
  | rounds + 1, found, index =>
    match found[index]? with
    | none => some found
    | some parent =>
      let children := (parents.entries.filter (·.2 = parent)).map (·.1)
      descendantsLoop parents rounds (found ++ children) (index + 1)

def descendants (rounds : Nat) (context : SessionHistoryContextId) :
    Option (List SessionHistoryContextId) :=
  (descendantsLoop h.parents rounds [context] 0).map List.tail

def detach (rounds : Nat) (context : SessionHistoryContextId) : Option JointSessionHistory := do
  let removed := (← h.descendants rounds context) ++ [context]
  if !h.parents.entries.any (removed.contains ·.1) &&
      !h.steps.any (·.entries.entries.any (removed.contains ·.1)) then
    return h
  return { h.mapSteps fun _ step => step.without removed with
    parents := h.parents.mapMaybe fun id parent =>
      if removed.contains id then none else some parent }

/-! ## The timeline -/

/-- Whether a step holds an entry of the context with another document. -/
def supersedes (entry : SessionHistoryEntry) (context : SessionHistoryContextId)
    (step : SessionHistoryStep) : Bool :=
  (step.entries.find context).any (·.document != entry.document)

def removeReplacedDocumentChildren (rounds : Nat) (step : SessionHistoryStep)
    (context : SessionHistoryContextId) (entry : SessionHistoryEntry) : Option SessionHistoryStep :=
  if supersedes entry context step then (h.descendants rounds context).map step.without
  else some step

def push (ids : Ids) (rounds : Nat) (context : SessionHistoryContextId)
    (entry : SessionHistoryEntry) : Option (JointSessionHistory × Ids) := do
  let next := { h.stepNow with id := ids.nextStep }
  let next ← h.removeReplacedDocumentChildren rounds next context entry
  let next := { next with entries := next.entries.insert context entry }
  return (
    { h with
      revision := ids.nextRevision
      steps := h.steps.take (h.current + 1) ++ [next]
      current := h.current + 1
      current_lt := by
        have := h.current_lt
        simp only [List.length_append, List.length_take, List.length_singleton]
        omega },
    ⟨ids.nextStep + 1, ids.nextRevision + 1⟩)

/-- The steps that `replace` changes: the current one and those that hold the key it replaces. -/
def shares (context : SessionHistoryContextId) (index : Nat) (step : SessionHistoryStep) : Bool :=
  index == h.current || (h.entry context).any fun old => step.holds context old.key

def replaceStep (descendants : List SessionHistoryContextId) (context : SessionHistoryContextId)
    (entry : SessionHistoryEntry) (index : Nat) (step : SessionHistoryStep) : SessionHistoryStep :=
  if h.shares context index step then
    let step := if supersedes entry context step then step.without descendants else step
    { step with entries := step.entries.insert context entry }
  else step

def replace (ids : Ids) (rounds : Nat) (context : SessionHistoryContextId)
    (entry : SessionHistoryEntry) : Option (JointSessionHistory × Ids) :=
  if h.entry context = some entry then some (h, ids)
  else do
    let descendants ← h.descendants rounds context
    let replaced := h.mapSteps (h.replaceStep descendants context entry)
    return ({ replaced with revision := ids.nextRevision },
      { ids with nextRevision := ids.nextRevision + 1 })

def pruneAllButCurrent (ids : Ids) : JointSessionHistory × Ids :=
  if h.steps.length = 1 then (h, ids)
  else
    ({ h with
        revision := ids.nextRevision, steps := [h.stepNow], current := 0, current_lt := by simp },
      { ids with nextRevision := ids.nextRevision + 1 })

/-! ## Queries -/

/-- The steps up to the current one are searched backwards, then those after it. -/
def stepForEntry (context : SessionHistoryContextId) (key : NavigationHistoryEntryKey) :
    Option SessionHistoryStepId :=
  let matching := fun step : SessionHistoryStep => step.holds context key
  (((h.steps.take (h.current + 1)).reverse.find? matching).or
    ((h.steps.drop (h.current + 1)).find? matching)).map (·.id)

/-! ## Traversal -/

/-- The change of one context between two steps, if its entry differs. -/
def changeBetween (source destination : Entries) (context : SessionHistoryContextId) :
    Option SessionHistoryContextChange :=
  if source.find context ≠ destination.find context then
    some ⟨context, source.find context, destination.find context⟩
  else none

/-- The changes between two steps in the order of the contexts. -/
def changesBetween (source destination : Entries) : List SessionHistoryContextChange :=
  let contexts := (source.entries ++ destination.entries).foldl
    (fun contexts e => contexts.insert e.1 ()) (SortedMap.empty : SortedMap _ Unit)
  contexts.entries.filterMap fun e => changeBetween source destination e.1

def planTraversal (target : SessionHistoryStepId) : Option SessionHistoryTraversalPlan := do
  let next ← h.steps.findIdx? (·.id = target)
  let delta := (← toI64 next) - (← toI64 h.current)
  let destination := (← h.steps[next]?).entries
  return {
    revision := h.revision
    sourceStep := h.currentStep
    targetStep := target
    delta
    changes := changesBetween h.stepNow.entries destination
    targetEntries := destination }

def isTraversalPlanCurrent (plan : SessionHistoryTraversalPlan) : Bool :=
  h.revision == plan.revision && h.currentStep == plan.sourceStep &&
    (h.planTraversal plan.targetStep).any (·.changes == plan.changes)

def commitTraversal (ids : Ids) (plan : SessionHistoryTraversalPlan) :
    Option Int × JointSessionHistory × Ids :=
  if !h.isTraversalPlanCurrent plan then (none, h, ids)
  else
    let next := h.steps.findIdx (·.id = plan.targetStep)
    if hnext : next < h.steps.length then
      (some plan.delta,
        { h with current := next, revision := ids.nextRevision, current_lt := hnext },
        { ids with nextRevision := ids.nextRevision + 1 })
    else (none, h, ids)

end JointSessionHistory

/-! ## Runs -/

/-- A history with the counters it draws from. -/
structure World where
  history : JointSessionHistory
  ids : Ids

inductive Op
  | attach (context : SessionHistoryContextId) (parent : Option SessionHistoryContextId)
      (entry : SessionHistoryEntry)
  | detach (rounds : Nat) (context : SessionHistoryContextId)
  | push (rounds : Nat) (context : SessionHistoryContextId) (entry : SessionHistoryEntry)
  | replace (rounds : Nat) (context : SessionHistoryContextId) (entry : SessionHistoryEntry)
  | pruneAllButCurrent
  | commitTraversal (plan : SessionHistoryTraversalPlan)
  -- identities that other histories allocate
  | elsewhere (steps revisions : Nat)

namespace World

def new (position : SessionHistoryPosition) (ids : Ids) : World :=
  let (history, ids) := JointSessionHistory.new position ids
  ⟨history, ids⟩

/-- One mutation; none if it does not return. -/
def apply (w : World) : Op → Option World
  | .attach context parent entry => some { w with history := w.history.attach context parent entry }
  | .detach rounds context =>
    (w.history.detach rounds context).map fun history => { w with history }
  | .push rounds context entry =>
    (w.history.push w.ids rounds context entry).map fun pushed => ⟨pushed.1, pushed.2⟩
  | .replace rounds context entry =>
    (w.history.replace w.ids rounds context entry).map fun replaced => ⟨replaced.1, replaced.2⟩
  | .pruneAllButCurrent =>
    let pruned := w.history.pruneAllButCurrent w.ids
    some ⟨pruned.1, pruned.2⟩
  | .commitTraversal plan =>
    let committed := w.history.commitTraversal w.ids plan
    some ⟨committed.2.1, committed.2.2⟩
  | .elsewhere steps revisions =>
    some { w with ids := ⟨w.ids.nextStep + steps, w.ids.nextRevision + revisions⟩ }

def Step (w : World) (op : Op) (w' : World) : Prop := w.apply op = some w'

end World

end Moli.SessionHistory
