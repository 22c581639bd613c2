import Moli.Lib.Trace
import Moli.StorageIo.Sequence

/-!
# Turns are taken in ticket order

`Ordered` is the invariant of a sequence and its threads. A locked section that ends with
`advance_cancelled_storage_tickets` first leaves the sequence `Behind`, where the ticket being
served may be a cancelled one; `Behind.advance` shows that the loop then restores the invariant and
that no counter overflows in it. `turns_run` collects what follows for every run.
-/

namespace Moli.StorageIo

open Lib

/-- Everything the invariant says but that `serving` is open. -/
@[grind cases eager]
structure Behind (s : System) : Prop where
  issued : ∀ t, s.phase t = .unissued ↔ s.sequence.nextTicket ≤ t
  serving_le : s.sequence.serving ≤ s.sequence.nextTicket
  next_lt : s.sequence.nextTicket < 2 ^ 64
  past : ∀ t < s.sequence.serving, s.phase t = .finished ∨ s.phase t = .dropped
  ahead : ∀ t, s.sequence.serving ≤ t → s.phase t ≠ .finished
  cancelled : ∀ t, t ∈ s.sequence.cancelled ↔ s.sequence.serving ≤ t ∧ s.phase t = .dropped
  turn : ∀ t, s.phase t = .turn → t = s.sequence.serving
  sorted : s.granted.Pairwise (· < ·)
  recorded : ∀ t, t ∈ s.granted ↔ s.phase t = .turn ∨ s.phase t = .finished

@[grind cases eager]
structure Ordered (s : System) : Prop extends Behind s where
  serving_open : s.phase s.sequence.serving ≠ .dropped
  -- no thread misses the notification of its turn
  awake : s.phase s.sequence.serving ≠ .asleep

/-- The tickets that are done with: finished, or cancelled and passed. -/
def System.Passed (s : System) (t : Nat) : Prop :=
  s.phase t = .finished ∨ s.phase t = .dropped ∧ t ∉ s.sequence.cancelled

/-! ## The parts of a step -/

namespace System

variable (s : System) (t : Nat) (phase : Phase)

@[grind =] theorem moveTo_sequence : (s.moveTo t phase).sequence = s.sequence := rfl

@[grind =] theorem moveTo_granted : (s.moveTo t phase).granted = s.granted := rfl

@[grind =] theorem moveTo_phase (u : Nat) :
    (s.moveTo t phase).phase u = if u = t then phase else s.phase u :=
  Function.update_apply ..

@[grind =] theorem notifyAll_sequence (sequence : StorageIoSequenceState) :
    (s.notifyAll sequence).sequence = sequence := rfl

@[grind =] theorem notifyAll_granted (sequence : StorageIoSequenceState) :
    (s.notifyAll sequence).granted = s.granted := rfl

@[grind =] theorem notifyAll_phase (sequence : StorageIoSequenceState) (u : Nat) :
    (s.notifyAll sequence).phase u = if s.phase u = .asleep then .entering else s.phase u := rfl

end System

/-! ## The loop over the cancelled tickets -/

variable {s : System}

theorem Behind.serving_lt (h : Behind s) (hmem : s.sequence.serving ∈ s.sequence.cancelled) :
    s.sequence.serving < s.sequence.nextTicket := by
  grind

/-- One round passes a cancelled ticket. -/
theorem Behind.pass (h : Behind s) (hmem : s.sequence.serving ∈ s.sequence.cancelled) :
    Behind { s with sequence := { s.sequence with
      serving := s.sequence.serving + 1
      cancelled := s.sequence.cancelled.erase s.sequence.serving } } := by
  constructor <;> grind

/-- The loop restores the invariant, and everyone who may go on is told. -/
theorem Behind.advance (h : Behind s) :
    ∃ sequence, advanceCancelledStorageTickets s.sequence = some sequence ∧
      Ordered (s.notifyAll sequence) := by
  generalize hstate : s.sequence = state
  fun_induction advanceCancelledStorageTickets state generalizing s with
  | case1 state hmem _ hfull =>
    subst hstate
    have hlt := h.serving_lt hmem
    have hnext := h.next_lt
    rw [checkedAdd, if_pos (by omega)] at hfull
    cases hfull
  | case2 state hmem _ next hstep ih =>
    subst hstate
    obtain ⟨-, hnext⟩ := Option.ite_none_right_eq_some.1 hstep
    obtain rfl := Option.some.inj hnext
    have hrest := ih (h.pass hmem) rfl
    exact hrest
  | case3 state hmem =>
    refine ⟨_, rfl, ?_, by grind, by grind⟩
    constructor <;> grind

/-! ## One step -/

theorem Ordered.init : Ordered System.init := by
  constructor <;> simp [System.init]
  constructor <;> simp

section Steps

variable {s s' : System} {t : Nat}

/-- A thread that holds neither a turn nor a ticket that is done with moves on. -/
theorem Ordered.moveTo (h : Ordered s) {phase : Phase}
    (hfrom : s.phase t = .reserved ∨ s.phase t = .entering ∨ s.phase t = .asleep)
    (hto : phase = .entering ∨ phase = .asleep ∧ s.sequence.serving ≠ t) :
    Ordered (s.moveTo t phase) := by
  refine ⟨?_, by grind, by grind⟩
  constructor <;> grind

theorem Ordered.reserve (h : Ordered s) (hstep : s.step .reserve = some s') : Ordered s' := by
  simp only [System.step, StorageIo.reserve, checkedAdd] at hstep
  split at hstep
  case isTrue hfits =>
    obtain rfl := Option.some.inj hstep
    refine ⟨?_, by grind, by grind⟩
    constructor <;> grind
  case isFalse => cases hstep

theorem Ordered.look (h : Ordered s) (hphase : s.phase t = .entering) : Ordered (s.look t) := by
  unfold System.look
  split
  case isTrue hother => exact h.moveTo (.inr (.inl hphase)) (.inr ⟨rfl, hother⟩)
  case isFalse hserving =>
    refine ⟨?_, by grind, by grind⟩
    constructor <;> grind

/-- A turn can always be given back, and the sequence is in order afterwards. -/
theorem Ordered.finish (h : Ordered s) (hphase : s.phase t = .turn) :
    ∃ s', s.step (.finish t) = some s' ∧ Ordered s' := by
  obtain rfl := h.turn t hphase
  have hbehind : Behind { s.moveTo s.sequence.serving .finished with
      sequence := { s.sequence with serving := s.sequence.serving + 1 } } := by
    constructor <;> grind
  obtain ⟨sequence, hrun, hordered⟩ := hbehind.advance
  refine ⟨_, ?_, hordered⟩
  have hfits : s.sequence.serving + 1 < 2 ^ 64 := by grind
  rw [System.step, if_pos hphase, dropTurn, checkedAdd, if_pos hfits]
  exact congrArg _ hrun

/-- A reservation can always be given up, and the sequence is in order afterwards. -/
theorem Ordered.drop (h : Ordered s) (hphase : s.phase t = .reserved) :
    ∃ s', s.step (.drop t) = some s' ∧ Ordered s' := by
  have hbehind : Behind { s.moveTo t .dropped with
      sequence := { s.sequence with cancelled := insert t s.sequence.cancelled } } := by
    constructor <;> grind
  obtain ⟨sequence, hrun, hordered⟩ := hbehind.advance
  refine ⟨_, ?_, hordered⟩
  rw [System.step, if_pos hphase]
  exact congrArg _ hrun

theorem Ordered.step (h : Ordered s) {event : Event} (hstep : s.step event = some s') :
    Ordered s' := by
  cases event with
  | reserve => exact h.reserve hstep
  | enter t =>
    obtain ⟨hphase, heq⟩ := Option.ite_none_right_eq_some.1 hstep
    obtain rfl := Option.some.inj heq
    exact h.moveTo (.inl hphase) (.inl rfl)
  | look t =>
    obtain ⟨hphase, heq⟩ := Option.ite_none_right_eq_some.1 hstep
    obtain rfl := Option.some.inj heq
    exact h.look hphase
  | wake t =>
    obtain ⟨hphase, heq⟩ := Option.ite_none_right_eq_some.1 hstep
    obtain rfl := Option.some.inj heq
    exact h.moveTo (.inr (.inr hphase)) (.inl rfl)
  | finish t =>
    obtain ⟨next, hnext, hordered⟩ := h.finish (Option.ite_none_right_eq_some.1 hstep).1
    rwa [← Option.mem_unique hnext hstep]
  | drop t =>
    obtain ⟨next, hnext, hordered⟩ := h.drop (Option.ite_none_right_eq_some.1 hstep).1
    rwa [← Option.mem_unique hnext hstep]

end Steps

/-! ## Runs -/

/-- The threads of a sequence, from its creation on. -/
def Run (events : List Event) (s : System) : Prop :=
  Trace (fun s event s' => System.step s event = some s') System.init events s

theorem Run.ordered {events : List Event} (h : Run events s) : Ordered s :=
  h.invariant (fun _ _ _ hs hstep => hs.step hstep) Ordered.init

theorem Ordered.passed_iff (h : Ordered s) (t : Nat) : s.Passed t ↔ t < s.sequence.serving := by
  rw [System.Passed]
  by_cases hlt : t < s.sequence.serving
  · have := h.past t hlt
    grind
  · have := h.ahead t (by omega)
    grind

/-- A ticket that is still open while all smaller ones are finished or cancelled is the one
served. -/
theorem Ordered.serving_eq (h : Ordered s) {t : Nat}
    (hsmaller : ∀ u < t, s.phase u = .finished ∨ s.phase u = .dropped)
    (hopen : s.phase t ≠ .finished ∧ s.phase t ≠ .dropped) : s.sequence.serving = t := by
  rcases Nat.lt_trichotomy s.sequence.serving t with hlt | heq | hgt
  · have := hsmaller _ hlt
    grind
  · exact heq
  · have := h.past t hgt
    grind

/-- In every run at most one turn is live, turns are granted in the order of their tickets,
`serving` is the smallest ticket that is neither finished nor cancelled and passed, and the
cancelled tickets that are still kept are greater. The holder of a ticket whose smaller ones are all
finished or cancelled is awake in `enter`, and its next look at `serving` admits it; turns and
reservations can always be dropped. -/
theorem turns_run {events : List Event} {s : System} (hrun : Run events s) :
    (∀ t u, s.phase t = .turn → s.phase u = .turn → t = u) ∧
    s.granted.Pairwise (· < ·) ∧
    (∀ t, t ∈ s.granted ↔ s.phase t = .turn ∨ s.phase t = .finished) ∧
    IsLeast { t | ¬ s.Passed t } s.sequence.serving ∧
    (∀ t ∈ s.sequence.cancelled, s.sequence.serving < t) ∧
    (∀ t, (∀ u < t, s.phase u = .finished ∨ s.phase u = .dropped) →
      s.phase t ≠ .asleep ∧ (s.phase t = .entering →
        ∃ s', s.step (.look t) = some s' ∧ s'.phase t = .turn)) ∧
    (∀ t, s.phase t = .turn → (s.step (.finish t)).isSome) ∧
    (∀ t, s.phase t = .reserved → (s.step (.drop t)).isSome) := by
  have h := hrun.ordered
  refine ⟨fun t u ht hu => ?_, h.sorted, h.recorded, ⟨?_, fun t ht => ?_⟩, fun t ht => ?_,
    fun t hsmaller => ?_, fun t ht => ?_, fun t ht => ?_⟩
  · rw [h.turn t ht, h.turn u hu]
  · exact fun hpassed => absurd ((h.passed_iff _).1 hpassed) (Nat.lt_irrefl _)
  · exact Nat.le_of_not_lt fun hlt => ht ((h.passed_iff t).2 hlt)
  · obtain ⟨hle, hdropped⟩ := (h.cancelled t).1 ht
    refine Nat.lt_of_le_of_ne hle fun heq => ?_
    exact h.serving_open (heq ▸ hdropped)
  · refine ⟨fun hasleep => ?_, fun hentering => ?_⟩
    · have hserving := h.serving_eq hsmaller (by simp [hasleep])
      exact h.awake (hserving ▸ hasleep)
    · have hserving := h.serving_eq hsmaller (by simp [hentering])
      refine ⟨s.look t, if_pos hentering, ?_⟩
      rw [System.look, if_neg (not_not.2 hserving)]
      exact Function.update_self ..
  · obtain ⟨s', hstep, -⟩ := h.finish ht
    exact Option.isSome_of_mem hstep
  · obtain ⟨s', hstep, -⟩ := h.drop ht
    exact Option.isSome_of_mem hstep

/-- Of two tickets the first has the turn, and the second can be given up behind it. -/
theorem turns_run_second :
    ∃ s, Run [.reserve, .reserve, .enter 0, .look 0] s ∧ s.phase 0 = .turn ∧
      IsLeast { t | ¬ s.Passed t } s.sequence.serving ∧ (s.step (.drop 1)).isSome := by
  have hrun : Run [.reserve, .reserve, .enter 0, .look 0] _ :=
    .cons rfl (.cons rfl (.cons rfl (.cons rfl (.nil _))))
  obtain ⟨-, -, -, hleast, -, -, -, hdrop⟩ := turns_run hrun
  exact ⟨_, hrun, rfl, hleast, hdrop 1 rfl⟩

end Moli.StorageIo
