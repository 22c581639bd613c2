import Moli.Fetch.Cancellation

/-!
# Completion and pending-only cancellation have one winner

`Next` says what one step can do: a transfer that is settled stays as it is, and a cancelled handle
keeps its selected transfer or gets one that is cancelled. The outcome of
`cancel_if_response_pending` is therefore final (`one_winner`).
-/

namespace Moli.Fetch

open Function World
open World (step)

/-- What one step can do. -/
structure Next (w w' : World) : Prop where
  handles_le : w.handles ≤ w'.handles
  responses_le : w.responses ≤ w'.responses
  selected_lt : ∀ handle < w'.handles, w'.selected handle < w'.responses
  writers_lt : ∀ writer ∈ w'.writers, writer < w'.responses
  own_token : ∀ handle < w'.handles, handle ∈ w'.tokens handle
  cancelled : ∀ handle < w.handles, w.isCancelled handle = true → w'.isCancelled handle = true
  settled : ∀ r < w.responses, w.progress r ≠ .pending → w'.progress r = w.progress r
  selected : ∀ handle < w.handles, w.isCancelled handle = true →
    w'.selected handle = w.selected handle ∨ w'.progress (w'.selected handle) = .cancelled

/-! ## One step -/

@[grind =] theorem commitState_eq (state : ResponseState) :
    state.commitState = if state = .pending then .committed else state := by
  cases state <;> rfl

@[simp, grind =] theorem cancelIfPending_snd (state : ResponseState) :
    state.cancelIfPending.2 = if state = .pending then .cancelled else state := by
  cases state <;> rfl

@[simp, grind =] theorem cancelIfPending_fst (state : ResponseState) :
    state.cancelIfPending.1 = decide (state ≠ .committed) := by
  cases state <;> rfl

/-- Every handle and every writer refers to a transfer that was started. -/
@[grind cases eager]
structure Inv (w : World) : Prop where
  selected_lt : ∀ handle < w.handles, w.selected handle < w.responses
  writers_lt : ∀ writer ∈ w.writers, writer < w.responses
  own_token : ∀ handle < w.handles, handle ∈ w.tokens handle

section Steps

variable {w w' : World} {handle : Nat}

theorem cancelIfResponsePending_eq (w : World) (handle : Nat) :
    w.cancelIfResponsePending handle =
      if w.responseCompletionIsCommitted handle then (false, w)
      else (true, { w with
        progress := update w.progress (w.selected handle) .cancelled
        cancelled := update w.cancelled handle true }) := by
  unfold cancelIfResponsePending responseCompletionIsCommitted
  cases h : w.progress (w.selected handle) with
  | committed =>
    have hsame : update w.progress (w.selected handle) .committed = w.progress := by
      rw [← h, update_eq_self]
    simp [hsame]
  | _ => simp [cancel]

/-- The commit of a selected transfer that is pending is in time, and cancellation comes too
late. -/
theorem commit_selected (h : w.progress (w.selected handle) = .pending) :
    (w.commit (w.selected handle)).responseCompletionIsCommitted handle = true ∧
      ((w.commit (w.selected handle)).cancelIfResponsePending handle).1 = false := by
  have hcommitted : (w.commit (w.selected handle)).responseCompletionIsCommitted handle = true := by
    simp [responseCompletionIsCommitted, commit, commitState_eq, h]
  refine ⟨hcommitted, ?_⟩
  rw [cancelIfResponsePending_eq, if_pos hcommitted]

theorem Inv.next (h : Inv w) {event : Event} (henabled : w.Enabled event) :
    Next w (w.step event) := by
  cases event with
  | new =>
    constructor <;> simp only [step, create, isCancelled] <;> grind
  | childForSubrequest handle =>
    constructor <;> simp only [step, childForSubrequest, create, isCancelled] <;> grind
  | cancel handle =>
    constructor <;>
      simp only [step, cancel, isCancelled] <;> grind
  | cancelIfResponsePending handle =>
    dsimp only [step, cancelIfResponsePending]
    split <;> constructor <;>
      simp only [cancel, isCancelled] <;> grind
  | beginResponseProgress handle =>
    constructor <;>
      simp only [step, beginResponseProgress, isCancelled] <;>
      grind [World.Enabled]
  | commit writer =>
    constructor <;> simp only [step, commit, isCancelled] <;> grind
  | responseProgress handle =>
    constructor <;> simp only [step, responseProgress, isCancelled] <;>
      grind [World.Enabled]
  | adoptResponseProgress handle writer =>
    constructor <;> simp only [step, adoptResponseProgress, isCancelled] <;>
      grind [World.Enabled]

theorem Next.inv (h : Next w w') : Inv w' := ⟨h.selected_lt, h.writers_lt, h.own_token⟩

/-! ## Final outcomes -/

/-- The handle has lost its response: it is cancelled, and so is what it has selected. -/
structure Lost (handle : Nat) (w : World) : Prop extends Inv w where
  handle_lt : handle < w.handles
  isCancelled : w.isCancelled handle = true
  progress : w.progress (w.selected handle) = .cancelled

theorem Lost.step (h : Lost handle w) (hnext : Next w w') : Lost handle w' := by
  refine ⟨hnext.inv, Nat.lt_of_lt_of_le h.handle_lt hnext.handles_le,
    hnext.cancelled _ h.handle_lt h.isCancelled, ?_⟩
  rcases hnext.selected _ h.handle_lt h.isCancelled with hsame | hcancelled
  · rw [hsame, hnext.settled _ (h.selected_lt _ h.handle_lt) (by simp [h.progress]), h.progress]
  · exact hcancelled

/-- A transfer that has committed. -/
structure Committed (response : Nat) (w : World) : Prop extends Inv w where
  response_lt : response < w.responses
  progress : w.progress response = .committed

theorem Committed.step {response : Nat} (h : Committed response w) (hnext : Next w w') :
    Committed response w' :=
  ⟨hnext.inv, Nat.lt_of_lt_of_le h.response_lt hnext.responses_le, by
    rw [hnext.settled _ h.response_lt (by simp [h.progress]), h.progress]⟩

/-- What follows from `Inv` and is kept by every step holds after every run. -/
theorem Run.kept {P : World → Prop} {events : List Event} (hrun : Run w events w')
    (hinv : ∀ w, P w → Inv w) (hstep : ∀ w w', P w → Next w w' → P w') (h : P w) : P w' := by
  refine hrun.invariant (fun w event w' hw hevent => ?_) h
  obtain ⟨henabled, rfl⟩ := hevent
  exact hstep w _ hw ((hinv w hw).next henabled)

end Steps

theorem Inv.init : Inv World.init := by
  constructor <;> simp [World.init]

/-- When pending-only cancellation has won on a handle, no response of the handle ever counts as
committed; when it has lost, the selected response had committed and remains so. A commit concerns
the handles that have selected the writer's transfer, and the cancellation concerns the handle and
its descendants. A commit that comes first is in time, and cancellation then loses. -/
theorem one_winner {events : List Event} {w : World} (hrun : Run World.init events w) {handle : Nat}
    (hhandle : handle < w.handles) {won : Bool} {w₁ : World}
    (hcancel : w.cancelIfResponsePending handle = (won, w₁)) :
    (won = true → ∀ later w', Run w₁ later w' → w'.responseCompletionIsCommitted handle = false) ∧
    (won = false → w.responseCompletionIsCommitted handle = true ∧
      ∀ later w', Run w₁ later w' → w'.selected handle = w.selected handle →
        w'.responseCompletionIsCommitted handle = true) ∧
    (∀ writer other, (w.commit writer).responseCompletionIsCommitted other ≠
      w.responseCompletionIsCommitted other → w.selected other = writer) ∧
    (∀ other, w₁.isCancelled other = true → w.isCancelled other = true ∨ handle ∈ w.tokens other) ∧
    (w.progress (w.selected handle) = .pending →
      (w.commit (w.selected handle)).responseCompletionIsCommitted handle = true ∧
        ((w.commit (w.selected handle)).cancelIfResponsePending handle).1 = false) := by
  have hinv : Inv w := hrun.kept (fun _ h => h) (fun _ _ _ hnext => hnext.inv) Inv.init
  have hnext : Next w (w.step (.cancelIfResponsePending handle)) := hinv.next hhandle
  rw [step, hcancel] at hnext
  rw [cancelIfResponsePending_eq] at hcancel
  refine ⟨fun hwon => ?_, fun hlost => ?_, fun writer other hne => ?_, fun other h => ?_,
    commit_selected⟩
  · split at hcancel
    case isTrue => grind
    case isFalse =>
      obtain ⟨-, rfl⟩ := Prod.mk.inj hcancel
      have hstart : Lost handle _ := ⟨hnext.inv, hhandle,
        List.any_eq_true.2 ⟨handle, hinv.own_token _ hhandle, update_self ..⟩, update_self ..⟩
      intro later w' hlater
      have hend := hlater.kept (fun _ h => h.toInv) (fun _ _ => Lost.step) hstart
      simp [responseCompletionIsCommitted, hend.progress]
  · split at hcancel
    case isFalse => grind
    case isTrue hcommitted =>
      obtain ⟨-, rfl⟩ := Prod.mk.inj hcancel
      refine ⟨hcommitted, fun later w' hlater hsame => ?_⟩
      have hstart : Committed (w.selected handle) w :=
        ⟨hinv, hinv.selected_lt _ hhandle, beq_iff_eq.1 hcommitted⟩
      have hend := hlater.kept (fun _ h => h.toInv) (fun _ _ => Committed.step) hstart
      rw [responseCompletionIsCommitted, hsame, hend.progress]
      rfl
  · by_contra hother
    refine hne ?_
    simp only [responseCompletionIsCommitted, commit, update_of_ne hother]
  · split at hcancel
    case isTrue => grind
    case isFalse =>
      obtain ⟨-, rfl⟩ := Prod.mk.inj hcancel
      obtain ⟨token, hmem, htoken⟩ := List.any_eq_true.1 h
      by_cases hown : token = handle
      · exact .inr (hown ▸ hmem)
      · exact .inl (List.any_eq_true.2 ⟨token, hmem, (update_of_ne hown ..).symm.trans htoken⟩)

/-- A pending transfer is cancelled for good; one that has committed is not. -/
theorem one_winner_pending :
    (∃ w, Run World.init [.new, .beginResponseProgress 0] w ∧
      (w.cancelIfResponsePending 0).1 = true ∧
      ∀ later w', Run (w.cancelIfResponsePending 0).2 later w' →
        w'.responseCompletionIsCommitted 0 = false) ∧
    ∃ w, Run World.init [.new, .beginResponseProgress 0, .commit 1] w ∧
      (w.cancelIfResponsePending 0).1 = false ∧
      ∀ later w', Run (w.cancelIfResponsePending 0).2 later w' → w'.selected 0 = 1 →
        w'.responseCompletionIsCommitted 0 = true := by
  have hrun : Run World.init [.new, .beginResponseProgress 0] _ :=
    .cons ⟨trivial, rfl⟩ (.cons ⟨Nat.zero_lt_one, rfl⟩ (.nil _))
  have hcommitted : Run World.init [.new, .beginResponseProgress 0, .commit 1] _ :=
    .cons ⟨trivial, rfl⟩ (.cons ⟨Nat.zero_lt_one, rfl⟩ (.cons ⟨List.mem_cons_self, rfl⟩ (.nil _)))
  exact ⟨⟨_, hrun, rfl, (one_winner hrun Nat.zero_lt_one rfl).1 rfl⟩,
    _, hcommitted, rfl, ((one_winner hcommitted Nat.zero_lt_one rfl).2.1 rfl).2⟩

end Moli.Fetch
