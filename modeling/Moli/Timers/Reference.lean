import Mathlib.Data.Set.Card
import Moli.Timers.Scheduler

/-!
# The timers as a map

What the scheduler is for: a map from the ids of the live timers to their deadlines. A step takes
the least live timer that is due, or says that there is none. `TimerScheduler.reference` reads the
map off a scheduler.
-/

namespace Moli.Timers

/-- A live timer, due at its deadline; timers of one deadline are due in sequence. -/
structure Occurrence (T : Type) where
  deadline : Instant
  sequence : Nat
  delayMs : Nat
  payload : T

variable {T : Type}

namespace Occurrence

def key (o : Occurrence T) : Nat ×ₗ Nat := toLex (o.deadline, o.sequence)

end Occurrence

@[ext]
structure Reference (T : Type) where
  live : TimerId → Option (Occurrence T)
  running : Set TimerId
  /-- The running timers that must not be rescheduled. -/
  cancelled : Set TimerId
  /-- The ids handed out so far. -/
  used : Set TimerId
  nextSequence : Nat

namespace Reference

def new : Reference T := ⟨fun _ => none, ∅, ∅, ∅, 0⟩

variable (a : Reference T)

open Classical in
noncomputable def schedule (id : TimerId) (deadline : Instant) (delayMs : Nat) (payload : T) :
    Reference T :=
  { a with
    live := Function.update a.live id (some ⟨deadline, a.nextSequence, delayMs, payload⟩)
    nextSequence := min (a.nextSequence + 1) Lib.u64Max }

open Classical in
/-- The timer is no longer live. -/
noncomputable def discard (id : TimerId) : Reference T :=
  { a with live := Function.update a.live id none }

noncomputable def start (id : TimerId) : Reference T :=
  { a.discard id with running := insert id a.running }

def finish (id : TimerId) : Reference T :=
  { a with running := a.running \ {id}, cancelled := a.cancelled \ {id} }

def Matches (predicate : T → Bool) (id : TimerId) : Prop :=
  ∃ o, a.live id = some o ∧ predicate o.payload = true

/-- The least timer among the live ones that are `eligible`. -/
def Least (eligible : Occurrence T → Prop) (id : TimerId) (o : Occurrence T) : Prop :=
  a.live id = some o ∧ eligible o ∧
    ∀ id' o', a.live id' = some o' → eligible o' → o.key ≤ o'.key

/-- The steps, with what they return. -/
inductive Step (a : Reference T) : Op T × Output T → Reference T → Prop where
  | scheduled {payload delayMs now id deadline} (hfresh : id ∉ a.used)
      (hdeadline : deadlineAfter now delayMs = some deadline) :
      Step a (.scheduleAfter payload delayMs now, .id id)
        { a.schedule id deadline delayMs payload with used := insert id a.used }
  | cancelledLive {id} (hlive : a.live id ≠ none) :
      Step a (.cancel id, .flag true) (a.discard id)
  | cancelledRunning {id} (hlive : a.live id = none) (hrunning : id ∈ a.running)
      (hfirst : id ∉ a.cancelled) :
      Step a (.cancel id, .flag true) { a with cancelled := insert id a.cancelled }
  | cancelledNothing {id} (hlive : a.live id = none)
      (hrunning : id ∈ a.running → id ∈ a.cancelled) : Step a (.cancel id, .flag false) a
  | cancelledMatching {predicate} :
      Step a (.cancelMatching predicate, .count {id | a.Matches predicate id}.ncard)
        { a with live := fun id => (a.live id).filter fun o => !predicate o.payload }
  | took {now id o} (hleast : a.Least (fun _ => True) id o) (hdue : o.deadline ≤ now) :
      Step a (.takeNextReady now, .ready (some ⟨id, o.delayMs, o.payload⟩)) (a.start id)
  | tookNothing {now} (hnone : ∀ id o, a.live id = some o → now < o.deadline) :
      Step a (.takeNextReady now, .ready none) a
  | tookMatching {now predicate id o}
      (hleast : a.Least (fun o => o.deadline ≤ now ∧ predicate o.payload = true) id o) :
      Step a (.takeNextReadyMatching now predicate, .ready (some ⟨id, o.delayMs, o.payload⟩))
        (a.start id)
  | tookNoneMatching {now predicate}
      (hnone : ∀ id o, a.live id = some o → ¬ (o.deadline ≤ now ∧ predicate o.payload = true)) :
      Step a (.takeNextReadyMatching now predicate, .ready none) a
  | finished {id} (hrunning : id ∈ a.running) : Step a (.finishRunning id, .unit) (a.finish id)
  | rescheduled {id payload delayMs now deadline} (hrunning : id ∈ a.running)
      (hwanted : id ∉ a.cancelled) (hdeadline : deadlineAfter now delayMs = some deadline) :
      Step a (.rescheduleRunningAfter id payload delayMs now, .flag true)
        ((a.finish id).schedule id deadline delayMs payload)
  | prevented {id payload delayMs now} (hrunning : id ∈ a.running) (hunwanted : id ∈ a.cancelled) :
      Step a (.rescheduleRunningAfter id payload delayMs now, .flag false) (a.finish id)

end Reference

/-! ## Reading the map off a scheduler -/

def ScheduledTimer.occurrence (timer : ScheduledTimer T) : Occurrence T :=
  ⟨timer.runAt, timer.sequence, timer.delayMs, timer.payload⟩

/-- Entries that are not active are dead; all ids below the next one have been handed out. -/
def TimerScheduler.reference (s : TimerScheduler T) : Reference T where
  live id :=
    if id ∈ s.active then (s.pending.find? (·.id = id)).map ScheduledTimer.occurrence else none
  running := s.running
  cancelled := s.cancelledRunning
  used := {id | 0 < id.get.toNat ∧ id.get.toNat < s.nextId.toNat}
  nextSequence := s.nextSequence

/-! ## Labels -/

/-- The timer a call returns. -/
def Output.returned : Output T → Option TimerId
  | .ready timer => timer.map (·.id)
  | .id _ | .flag _ | .count _ | .unit => none

/-- The call cancels this timer. -/
def Reference.Cancels (a : Reference T) (id : TimerId) : Op T → Prop
  | .cancel cancelled => cancelled = id ∧ (a.live id ≠ none ∨ id ∈ a.running)
  | .cancelMatching predicate => a.Matches predicate id
  | _ => False

/-- Between two returns of a timer it has been rescheduled. -/
def ReturnedOnce (trace : List (Op T × Output T)) : Prop :=
  ∀ before x middle y after id, trace = before ++ x :: (middle ++ y :: after) →
    x.2.returned = some id → y.2.returned = some id →
      ∃ payload delayMs now, (.rescheduleRunningAfter id payload delayMs now, .flag true) ∈ middle

/-- A timer is rescheduled unless it has been cancelled since it was returned. -/
def RescheduledUnlessCancelled (trace : List (Op T × Output T)) : Prop :=
  ∀ before x middle id payload delayMs now value after,
    trace = before ++ x ::
      (middle ++ (.rescheduleRunningAfter id payload delayMs now, .flag value) :: after) →
    x.2.returned = some id → (∀ y ∈ middle, y.2.returned ≠ some id) →
      (value = false ↔ ∃ out, (.cancel id, out) ∈ middle)

/-- No id is handed out twice. -/
def HandedOutOnce (trace : List (Op T × Output T)) : Prop :=
  ∀ before op id after, trace = before ++ (op, .id id) :: after → ∀ op', (op', .id id) ∉ before

end Moli.Timers
