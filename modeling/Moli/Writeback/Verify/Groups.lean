import Mathlib.Data.List.Induction
import Moli.Lib.Lists
import Moli.Writeback.Owner

/-!
# The groups of accepted batches

The accepted batches are cut into groups where a commit takes the pending batch. In every state the
pending batch is the merge of the current group, each earlier group was merged and attempted once in
order, or is being written, and the database is the result of the successful attempts
(`Ledger.step`).
-/

namespace Moli.Writeback

open List

variable {β σ ρ : Type}

/-! ## The log -/

namespace Event

def accepted? : Event β ρ → Option β
  | accepted batch => some batch
  | _ => none

def attempted? : Event β ρ → Option (β × Receipt)
  | attempted batch result => some (batch, result)
  | _ => none

/-- The event concerns no group. -/
def isNeutral : Event β ρ → Bool
  | accepted _ | taken | attempted _ _ => false
  | _ => true

end Event

def acceptedOf (log : List (Event β ρ)) : List β := log.filterMap Event.accepted?

def attemptsOf (log : List (Event β ρ)) : List (β × Receipt) := log.filterMap Event.attempted?

structure Cut (β : Type) where
  groups : List (List β)
  current : List β

namespace Cut

def record (cut : Cut β) : Event β ρ → Cut β
  | .accepted batch => { cut with current := cut.current ++ [batch] }
  | .taken => ⟨cut.groups ++ [cut.current], []⟩
  | _ => cut

def all (cut : Cut β) : List β := cut.groups.flatten ++ cut.current

end Cut

def cut (log : List (Event β ρ)) : Cut β := log.foldl Cut.record ⟨[], []⟩

/-- The groups that were attempted. -/
def attemptedGroups (log : List (Event β ρ)) : List (List β) :=
  (cut log).groups.take (attemptsOf log).length

section Concat

variable (log : List (Event β ρ)) (event : Event β ρ)

theorem cut_concat : cut (log ++ [event]) = (cut log).record event := by
  rw [cut, foldl_append]
  rfl

theorem acceptedOf_concat :
    acceptedOf (log ++ [event]) = acceptedOf log ++ event.accepted?.toList :=
  Lib.filterMap_concat ..

theorem attemptsOf_concat :
    attemptsOf (log ++ [event]) = attemptsOf log ++ event.attempted?.toList :=
  Lib.filterMap_concat ..

variable {event}

theorem cut_neutral (h : event.isNeutral = true) : cut (log ++ [event]) = cut log := by
  rw [cut_concat]
  cases event <;> first | rfl | cases h

theorem acceptedOf_neutral (h : event.isNeutral = true) :
    acceptedOf (log ++ [event]) = acceptedOf log := by
  rw [acceptedOf_concat]
  cases event <;> first | exact append_nil _ | cases h

theorem attemptsOf_neutral (h : event.isNeutral = true) :
    attemptsOf (log ++ [event]) = attemptsOf log := by
  rw [attemptsOf_concat]
  cases event <;> first | exact append_nil _ | cases h

end Concat

/-- The groups and the current one are the accepted batches in their order. -/
theorem acceptedOf_eq (log : List (Event β ρ)) : acceptedOf log = (cut log).all := by
  induction log using reverseRecOn with
  | nil => rfl
  | append_singleton log event ih =>
    rw [acceptedOf_concat, cut_concat, ih]
    cases event with
    | accepted batch => exact append_assoc ..
    | taken => simp [Cut.all, Cut.record, Event.accepted?]
    | _ => exact append_nil _

/-- The batch that is being written. -/
def Loop.inFlight : Loop β σ ρ → List β
  | .writing batch _ => [batch]
  | _ => []

theorem Loop.inFlight_after (purpose : Purpose) :
    (Loop.after purpose : Loop β σ ρ).inFlight = [] := by
  cases purpose <;> rfl

theorem System.opening_eq (s : System β σ ρ) (result : Receipt) :
    s.opening result = [] ∨ s.opening result = [.opened result] := by
  unfold System.opening
  split
  · exact .inr rfl
  · exact .inl rfl

/-! ## Batches -/

variable [WriteBatch β σ]

open WriteBatch

/-- The laws of a batch type: a merged batch acts as its parts do one after the other. -/
class LawfulWriteBatch (β : Type) (σ : outParam Type) [WriteBatch β σ] : Prop where
  isEmpty_empty : isEmpty (empty : β) = true
  write_empty : ∀ disk : σ, write (empty : β) disk = disk
  isEmpty_merge : ∀ older newer : β, isEmpty newer = false → isEmpty (merge older newer) = false
  write_merge : ∀ (older newer : β) (disk : σ),
    write (merge older newer) disk = write newer (write older disk)

def mergeAll (batches : List β) : β := batches.foldl merge empty

def writeAll (disk : σ) (batches : List β) : σ :=
  batches.foldl (fun disk batch => write batch disk) disk

/-- The effect of an attempt. -/
def attempt (disk : σ) (attempt : β × Receipt) : σ :=
  if attempt.2.isOk then write attempt.1 disk else disk

theorem mergeAll_concat (batches : List β) (batch : β) :
    mergeAll (batches ++ [batch]) = merge (mergeAll batches) batch := by
  rw [mergeAll, foldl_append]
  rfl

section Lawful

variable [LawfulWriteBatch β σ]

theorem write_mergeAll (batches : List β) (disk : σ) :
    write (mergeAll batches) disk = writeAll disk batches := by
  induction batches using reverseRecOn with
  | nil => exact LawfulWriteBatch.write_empty disk
  | append_singleton batches batch ih =>
    rw [mergeAll_concat, LawfulWriteBatch.write_merge, ih, writeAll, writeAll, foldl_append]
    rfl

theorem isEmpty_mergeAll {batches : List β} (h : ∀ batch ∈ batches, isEmpty batch = false) :
    isEmpty (mergeAll batches) = batches.isEmpty := by
  rcases eq_nil_or_concat batches with rfl | ⟨front, last, rfl⟩
  · exact LawfulWriteBatch.isEmpty_empty
  · rw [concat_eq_append, mergeAll_concat, LawfulWriteBatch.isEmpty_merge _ _ (h last (by simp))]
    simp

end Lawful

/-! ## The ledger -/

structure Ledger (disk₀ : σ) (batch : β) (inFlight : List β) (disk : σ) (log : List (Event β ρ)) :
    Prop where
  batch_eq : batch = mergeAll (cut log).current
  accepted : ∀ batch ∈ acceptedOf log, isEmpty batch = false
  groups : ∀ group ∈ (cut log).groups, group ≠ []
  attempts : (attemptsOf log).map (·.1) ++ inFlight = (cut log).groups.map mergeAll
  disk_eq : disk = (attemptsOf log).foldl attempt disk₀

namespace Ledger

variable {disk₀ disk : σ} {batch : β} {inFlight : List β} {log : List (Event β ρ)}

theorem start (disk₀ : σ) : Ledger disk₀ (empty : β) [] disk₀ ([] : List (Event β ρ)) where
  batch_eq := rfl
  accepted _ h := absurd h not_mem_nil
  groups _ h := absurd h not_mem_nil
  attempts := rfl
  disk_eq := rfl

theorem event (h : Ledger disk₀ batch inFlight disk log) {event : Event β ρ}
    (hneutral : event.isNeutral = true) : Ledger disk₀ batch inFlight disk (log ++ [event]) := by
  constructor
  · rw [cut_neutral log hneutral]
    exact h.batch_eq
  · rw [acceptedOf_neutral log hneutral]
    exact h.accepted
  · rw [cut_neutral log hneutral]
    exact h.groups
  · rw [cut_neutral log hneutral, attemptsOf_neutral log hneutral]
    exact h.attempts
  · rw [attemptsOf_neutral log hneutral]
    exact h.disk_eq

theorem accept (h : Ledger disk₀ batch inFlight disk log) {newer : β}
    (hnewer : isEmpty newer = false) :
    Ledger disk₀ (merge batch newer) inFlight disk (log ++ [.accepted newer]) := by
  have hcut : cut (log ++ [.accepted newer]) = ⟨(cut log).groups, (cut log).current ++ [newer]⟩ :=
    cut_concat ..
  have hattempts : attemptsOf (log ++ [.accepted newer]) = attemptsOf log :=
    (attemptsOf_concat ..).trans (append_nil _)
  constructor
  · rw [hcut, mergeAll_concat, h.batch_eq]
  · intro b hb
    rw [acceptedOf_concat] at hb
    rcases mem_append.1 hb with hb | hb
    · exact h.accepted b hb
    · rwa [mem_singleton.1 hb]
  · rw [hcut]
    exact h.groups
  · rw [hcut, hattempts]
    exact h.attempts
  · rw [hattempts]
    exact h.disk_eq

variable [LawfulWriteBatch β σ]

theorem isEmpty_batch (h : Ledger disk₀ batch inFlight disk log) :
    isEmpty batch = (cut log).current.isEmpty := by
  rw [h.batch_eq]
  refine isEmpty_mergeAll fun b hb => h.accepted b ?_
  rw [acceptedOf_eq]
  exact mem_append_right _ hb

theorem take (h : Ledger disk₀ batch [] disk log) (hbatch : isEmpty batch = false) :
    Ledger disk₀ empty [batch] disk (log ++ [.taken]) := by
  have hcut : cut (log ++ [.taken]) = ⟨(cut log).groups ++ [(cut log).current], []⟩ := cut_concat ..
  have hattempts : attemptsOf (log ++ [.taken]) = attemptsOf log :=
    (attemptsOf_concat ..).trans (append_nil _)
  have hcurrent : (cut log).current ≠ [] := by
    rw [h.isEmpty_batch] at hbatch
    exact isEmpty_eq_false_iff.1 hbatch
  constructor
  · rw [hcut]
    rfl
  · rw [acceptedOf_concat]
    simpa [Event.accepted?] using h.accepted
  · rw [hcut]
    intro group hgroup
    rcases mem_append.1 hgroup with hgroup | hgroup
    · exact h.groups group hgroup
    · rwa [mem_singleton.1 hgroup]
  · have hold := h.attempts
    rw [append_nil] at hold
    rw [hcut, hattempts, hold, map_append, h.batch_eq]
    rfl
  · rw [hattempts]
    exact h.disk_eq

omit [LawfulWriteBatch β σ] in
theorem write (h : Ledger disk₀ batch inFlight disk log) {written : β}
    (hflight : inFlight = [written]) (result : Receipt) :
    Ledger disk₀ batch [] (attempt disk (written, result))
      (log ++ [.attempted written result]) := by
  have hcut : cut (log ++ [.attempted written result]) = cut log := cut_concat ..
  constructor
  · rw [hcut]
    exact h.batch_eq
  · rw [acceptedOf_concat]
    simpa [Event.accepted?] using h.accepted
  · rw [hcut]
    exact h.groups
  · rw [hcut, attemptsOf_concat, ← h.attempts, hflight]
    simp [Event.attempted?]
  · rw [attemptsOf_concat, h.disk_eq]
    simp [Event.attempted?]

end Ledger

namespace System

def Ledger (disk₀ : σ) (s : System β σ ρ) : Prop :=
  Writeback.Ledger disk₀ s.pending.batch s.loop.inFlight s.disk s.log

variable {s s' : System β σ ρ} {disk₀ : σ} {policy : WritebackPolicy}

theorem Ledger.opening (h : s.Ledger disk₀) (result : Receipt) :
    Writeback.Ledger disk₀ s.pending.batch s.loop.inFlight s.disk (s.log ++ s.opening result) := by
  rcases s.opening_eq result with hopening | hopening <;> rw [hopening]
  · rwa [append_nil]
  · exact Writeback.Ledger.event h rfl

variable [LawfulWriteBatch β σ]

theorem Ledger.loop (h : s.Ledger disk₀) (hstep : LoopStep policy s s') : s'.Ledger disk₀ := by
  have hopening := h.opening
  unfold Ledger at h
  cases hstep with
  | start hloop | notified hloop _ | timer hloop _ | recvQuery hloop _ | recvFlush hloop _
  | recvClose hloop _ | queried hloop | reply hloop | closing hloop | closeConnection hloop _
  | returned hloop | finish hloop =>
    rw [hloop] at h
    exact h
  | runQuery hloop opening =>
    rw [hloop] at hopening
    exact (hopening opening).event rfl
  | skip hloop _ | wrote hloop =>
    rw [hloop] at h
    unfold Ledger
    rw [Loop.inFlight_after]
    exact h
  | take hloop hempty =>
    rw [hloop] at h
    exact h.take hempty
  | write hloop opening outcome =>
    rw [hloop] at hopening
    exact (hopening opening).write rfl _
  | answer hloop =>
    rw [hloop] at h
    exact h.event rfl

omit [LawfulWriteBatch β σ] in
theorem Ledger.client (h : s.Ledger disk₀) (hstep : ClientStep s s') : s'.Ledger disk₀ := by
  cases hstep with
  | accept batch hclosed =>
    unfold System.accept
    split
    · exact h
    · next hbatch => exact Writeback.Ledger.accept h (Bool.not_eq_true _ ▸ hbatch)
  | query | flush => exact Writeback.Ledger.event h rfl
  | refuseQuery _ | refuseFlush _ => exact Writeback.Ledger.event h rfl

omit [LawfulWriteBatch β σ] in
theorem Ledger.owner (h : s.Ledger disk₀) (hstep : OwnerStep s s') : s'.Ledger disk₀ := by
  cases hstep with
  | close | drop | sendClose | dropped => exact h
  | closeAgain | sealAdmission | recv => exact Writeback.Ledger.event h rfl

theorem Ledger.step (h : s.Ledger disk₀) (hstep : Step policy s s') : s'.Ledger disk₀ := by
  cases hstep with
  | loop hstep => exact h.loop hstep
  | client hstep => exact h.client hstep
  | owner hstep => exact h.owner hstep
  | tick => exact h

end System

end Moli.Writeback
