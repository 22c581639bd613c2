import Moli.Lib.Trace
import Moli.Timers.Reference

/-!
# Whole runs of the reference timers

What the map of live timers does over a run: a cancelled timer is not returned again, an occurrence
is returned once, a cancelled running timer is not rescheduled, and an id is handed out once.
-/

namespace Moli.Timers

open Lib

variable {T : Type}

namespace Reference

variable {a a' : Reference T} {id id' : TimerId} {o : Occurrence T} {label : Op T × Output T}
variable {labels : List (Op T × Output T)}

theorem discard_live : (a.discard id).live id' = if id' = id then none else a.live id' :=
  Function.update_apply ..

theorem discard_live_self : (a.discard id).live id = none := discard_live.trans (if_pos rfl)

theorem schedule_live {deadline delayMs : Nat} {payload : T} :
    (a.schedule id deadline delayMs payload).live id' =
      if id' = id then some ⟨deadline, a.nextSequence, delayMs, payload⟩ else a.live id' :=
  Function.update_apply ..

/-- Live timers do not run, and only used ids are live or running. -/
structure Sound (a : Reference T) : Prop where
  apart : ∀ id ∈ a.running, a.live id = none
  cancelled : a.cancelled ⊆ a.running
  live_used : ∀ id, a.live id ≠ none → id ∈ a.used
  running_used : a.running ⊆ a.used

namespace Sound

theorem new : Sound (T := T) new where
  apart _ _ := rfl
  cancelled := Set.empty_subset _
  live_used _ h := absurd rfl h
  running_used := Set.empty_subset _

theorem discard (h : Sound a) (id : TimerId) : Sound (a.discard id) :=
  { h with
    apart := fun id' hrunning => by rw [discard_live, h.apart id' hrunning, ite_self]
    live_used := fun id' hlive => by
      rw [discard_live] at hlive
      exact h.live_used id' fun hnone => hlive (by rw [hnone, ite_self]) }

theorem start (h : Sound a) (hlive : a.live id = some o) : Sound (a.start id) where
  apart id' hrunning := by
    rcases hrunning with rfl | hrunning
    · exact discard_live_self
    · exact (h.discard id).apart id' hrunning
  cancelled := h.cancelled.trans (Set.subset_insert _ _)
  live_used := (h.discard id).live_used
  running_used := Set.insert_subset (h.live_used id (by simp [hlive])) h.running_used

theorem finish (h : Sound a) (id : TimerId) : Sound (a.finish id) where
  apart id' hrunning := h.apart id' hrunning.1
  cancelled := Set.sdiff_subset_sdiff_left h.cancelled
  live_used := h.live_used
  running_used := Set.sdiff_subset.trans h.running_used

theorem schedule (h : Sound a) (hrunning : id ∉ a.running) (hused : id ∈ a.used)
    (deadline delayMs : Nat) (payload : T) : Sound (a.schedule id deadline delayMs payload) where
  apart id' hid' := by
    have hne : id' ≠ id := by
      rintro rfl
      exact hrunning hid'
    exact schedule_live.trans ((if_neg hne).trans (h.apart id' hid'))
  cancelled := h.cancelled
  live_used id' hlive := by
    by_cases hid : id' = id
    · exact hid ▸ hused
    · rw [schedule_live, if_neg hid] at hlive
      exact h.live_used id' hlive
  running_used := h.running_used

theorem use (h : Sound a) (id : TimerId) : Sound { a with used := insert id a.used } where
  apart := h.apart
  cancelled := h.cancelled
  live_used id' hlive := .inr (h.live_used id' hlive)
  running_used := h.running_used.trans (Set.subset_insert _ _)

theorem step (h : Sound a) (hstep : Step a label a') : Sound a' := by
  cases hstep with
  | scheduled hfresh =>
    exact (h.use _).schedule (fun hrunning => hfresh (h.running_used hrunning)) (.inl rfl) _ _ _
  | cancelledLive => exact h.discard _
  | cancelledRunning _ hrunning =>
    exact { h with cancelled := Set.insert_subset hrunning h.cancelled }
  | cancelledNothing | tookNothing | tookNoneMatching => exact h
  | cancelledMatching =>
    refine ⟨fun id hid => ?_, h.cancelled, fun id hlive => h.live_used id ?_, h.running_used⟩
    · simp only [h.apart id hid, Option.filter_none]
    · rintro hnone
      simp [hnone] at hlive
  | took hleast | tookMatching hleast => exact h.start hleast.1
  | finished | prevented => exact h.finish _
  | rescheduled hrunning =>
    exact (h.finish _).schedule (fun hid => hid.2 rfl) (h.running_used hrunning) _ _ _

end Sound

/-! ## Returned timers -/

/-- A timer that is returned was live and runs now. -/
theorem Step.returned (hstep : Step a label a') (hreturned : label.2.returned = some id) :
    a.live id ≠ none ∧ a' = a.start id := by
  cases hstep with
  | took hleast | tookMatching hleast =>
    obtain rfl := Option.some.inj hreturned
    exact ⟨by simp [hleast.1], rfl⟩
  | _ => cases hreturned

theorem Step.used_mono (hstep : Step a label a') (hused : id ∈ a.used) : id ∈ a'.used := by
  cases hstep with
  | scheduled => exact .inr hused
  | _ => exact hused

/-- A timer becomes live again only by being rescheduled. -/
theorem Step.live_none (hstep : Step a label a') (hused : id ∈ a.used) (hnone : a.live id = none)
    (hquiet : ∀ payload delayMs now,
      label ≠ (.rescheduleRunningAfter id payload delayMs now, .flag true)) :
    a'.live id = none := by
  have hdiscard : ∀ id', (a.discard id').live id = none := fun id' => by
    rw [discard_live, hnone, ite_self]
  cases hstep with
  | scheduled hfresh =>
    refine schedule_live.trans ((if_neg ?_).trans hnone)
    rintro rfl
    exact hfresh hused
  | cancelledLive | took | tookMatching => exact hdiscard _
  | cancelledRunning | cancelledNothing | tookNothing | tookNoneMatching | finished | prevented =>
    exact hnone
  | cancelledMatching => simp only [hnone, Option.filter_none]
  | rescheduled =>
    refine schedule_live.trans ((if_neg ?_).trans hnone)
    rintro rfl
    exact hquiet _ _ _ rfl

/-- The timer is neither live nor can it be rescheduled. -/
structure Dead (a : Reference T) (id : TimerId) : Prop where
  used : id ∈ a.used
  live : a.live id = none
  cancelled : id ∈ a.running → id ∈ a.cancelled

theorem Dead.step (h : Dead a id) (hstep : Step a label a') : Dead a' id := by
  refine ⟨hstep.used_mono h.used, hstep.live_none h.used h.live ?_, ?_⟩
  · rintro payload delayMs now rfl
    cases hstep with
    | rescheduled hrunning hwanted => exact hwanted (h.cancelled hrunning)
  · intro hrunning
    cases hstep with
    | cancelledRunning => exact .inr (h.cancelled hrunning)
    | took hleast | tookMatching hleast =>
      rcases hrunning with rfl | hrunning
      · exact absurd (h.live.symm.trans hleast.1) (by simp)
      · exact h.cancelled hrunning
    | finished | rescheduled | prevented => exact ⟨h.cancelled hrunning.1, hrunning.2⟩
    | _ => exact h.cancelled hrunning

theorem Step.dead (h : Sound a) (hstep : Step a label a') (hcancels : a.Cancels id label.1) :
    Dead a' id := by
  cases hstep with
  | cancelledLive hlive =>
    obtain ⟨rfl, -⟩ := hcancels
    exact ⟨h.live_used _ hlive, discard_live_self,
      fun hrunning => absurd (h.apart _ hrunning) hlive⟩
  | cancelledRunning hlive hrunning =>
    obtain ⟨rfl, -⟩ := hcancels
    exact ⟨h.running_used hrunning, hlive, fun _ => .inl rfl⟩
  | cancelledNothing hlive hcancelled =>
    obtain ⟨rfl, hcancels⟩ := hcancels
    have hrunning := hcancels.resolve_left (not_not.2 hlive)
    exact ⟨h.running_used hrunning, hlive, hcancelled⟩
  | cancelledMatching =>
    obtain ⟨o, ho, hmatches⟩ := hcancels
    have hlive : a.live id ≠ none := by simp [ho]
    refine ⟨h.live_used id hlive, ?_, fun hrunning => absurd (h.apart id hrunning) hlive⟩
    simp [ho, hmatches]
  | _ => exact hcancels.elim

/-! ## Runs -/

/-- A cancelled timer is not returned again. -/
theorem not_returned_of_dead (htrace : Trace Step a labels a') (h : Dead a id) :
    ∀ x ∈ labels, x.2.returned ≠ some id := by
  induction htrace with
  | nil => exact fun x hx => absurd hx List.not_mem_nil
  | cons hstep _ ih =>
    refine List.forall_mem_cons.2 ⟨fun hreturned => ?_, ih (h.step hstep)⟩
    exact (hstep.returned hreturned).1 h.live

/-- A timer that was not live is live only after it has been rescheduled. -/
theorem rescheduled_of_live (htrace : Trace Step a labels a') (hused : id ∈ a.used)
    (hnone : a.live id = none) (hlive : a'.live id ≠ none) :
    ∃ payload delayMs now,
      (.rescheduleRunningAfter id payload delayMs now, .flag true) ∈ labels := by
  by_contra hquiet
  refine hlive ((htrace.kept (P := fun a => id ∈ a.used ∧ a.live id = none) ?_ ⟨hused, hnone⟩).2)
  rintro s label s' hmem ⟨hused, hnone⟩ hstep
  refine ⟨hstep.used_mono hused, hstep.live_none hused hnone fun payload delayMs now heq => ?_⟩
  exact hquiet ⟨payload, delayMs, now, heq ▸ hmem⟩

theorem Step.running_cancelled (h : Sound a) (hstep : Step a label a')
    (hquiet : label.2.returned ≠ some id) (hrunning : id ∈ a'.running) :
    id ∈ a.running ∧
      (id ∈ a'.cancelled ↔ id ∈ a.cancelled ∨ ∃ out, label = (.cancel id, out)) := by
  cases hstep with
  | cancelledLive hlive =>
    refine ⟨hrunning, ⟨.inl, ?_⟩⟩
    rintro (hcancelled | ⟨out, hlabel⟩)
    · exact hcancelled
    · cases hlabel
      exact absurd (h.apart _ hrunning) hlive
  | cancelledRunning =>
    refine ⟨hrunning, ⟨?_, ?_⟩⟩
    · rintro (rfl | hcancelled)
      · exact .inr ⟨_, rfl⟩
      · exact .inl hcancelled
    · rintro (hcancelled | ⟨out, hlabel⟩)
      · exact .inr hcancelled
      · cases hlabel
        exact .inl rfl
  | cancelledNothing _ hcancelled =>
    refine ⟨hrunning, ⟨.inl, ?_⟩⟩
    rintro (hcancelled | ⟨out, hlabel⟩)
    · exact hcancelled
    · cases hlabel
      exact hcancelled hrunning
  | took | tookMatching =>
    rcases hrunning with rfl | hrunning
    · exact absurd rfl hquiet
    · exact ⟨hrunning, by simp [start, discard]⟩
  | finished | prevented => exact ⟨hrunning.1, by simp [finish, hrunning.2]⟩
  | rescheduled => exact ⟨hrunning.1, by simp [finish, schedule, hrunning.2]⟩
  | scheduled | cancelledMatching | tookNothing | tookNoneMatching =>
    exact ⟨hrunning, by simp [schedule]⟩

/-- While a timer runs, it is cancelled by the calls of `cancel` and by nothing else. -/
theorem running_cancelled (htrace : Trace Step a labels a') (h : Sound a)
    (hquiet : ∀ x ∈ labels, x.2.returned ≠ some id) (hrunning : id ∈ a'.running) :
    id ∈ a.running ∧
      (id ∈ a'.cancelled ↔ id ∈ a.cancelled ∨ ∃ out, (.cancel id, out) ∈ labels) := by
  induction htrace with
  | nil => exact ⟨hrunning, by simp⟩
  | cons hstep hrest ih =>
    obtain ⟨hfirst, hquiet⟩ := List.forall_mem_cons.1 hquiet
    obtain ⟨hmid, hiff⟩ := ih (h.step hstep) hquiet hrunning
    obtain ⟨hstart, hiff'⟩ := hstep.running_cancelled h hfirst hmid
    refine ⟨hstart, ?_⟩
    rw [hiff, hiff', or_assoc, ← exists_or]
    simp only [List.mem_cons, eq_comm]

/-- What has been handed out is used. -/
theorem used_of_handed_out (htrace : Trace Step a labels a') {op : Op T}
    (hmem : (op, .id id) ∈ labels) : id ∈ a'.used := by
  induction htrace with
  | nil => cases hmem
  | cons hstep hrest ih =>
    rcases List.mem_cons.1 hmem with rfl | hmem
    · refine hrest.invariant (P := fun a => id ∈ a.used) (fun _ _ _ h hs => hs.used_mono h) ?_
      cases hstep with
      | scheduled => exact .inl rfl
    · exact ih hmem

section
variable (htrace : Trace Step new labels a)
include htrace

theorem sound_of_trace : Sound a :=
  htrace.invariant (fun _ _ _ h hstep => h.step hstep) .new

theorem returnedOnce : ReturnedOnce labels := by
  rintro before x middle y after id rfl hx hy
  obtain ⟨b, hbefore, hrest⟩ := htrace.split
  cases hrest with
  | cons hstep hrest =>
    obtain ⟨c, hmiddle, hlast⟩ := hrest.split
    obtain ⟨hlive, rfl⟩ := hstep.returned hx
    cases hlast with
    | cons hlast _ =>
      have hused : id ∈ (b.start id).used := (sound_of_trace hbefore).live_used id hlive
      exact rescheduled_of_live hmiddle hused discard_live_self (hlast.returned hy).1

theorem rescheduledUnlessCancelled : RescheduledUnlessCancelled labels := by
  rintro before x middle id payload delayMs now value after rfl hx hquiet
  obtain ⟨b, hbefore, hrest⟩ := htrace.split
  cases hrest with
  | cons hstep hrest =>
    obtain ⟨c, hmiddle, hlast⟩ := hrest.split
    have hb := sound_of_trace hbefore
    have hb' := hb.step hstep
    obtain ⟨hlive, rfl⟩ := hstep.returned hx
    have hnot : id ∉ (b.start id).cancelled := fun hcancelled =>
      hlive (hb.apart id (hb.cancelled hcancelled))
    cases hlast with
    | cons hlast _ =>
      cases hlast with
      | rescheduled hrunning hwanted =>
        have hiff := (running_cancelled hmiddle hb' hquiet hrunning).2
        simp only [Bool.true_eq_false, false_iff]
        exact fun hcancel => hwanted (hiff.2 (.inr hcancel))
      | prevented hrunning hunwanted =>
        have hiff := (running_cancelled hmiddle hb' hquiet hrunning).2
        exact ⟨fun _ => (hiff.1 hunwanted).resolve_left hnot, fun _ => rfl⟩

theorem handedOutOnce : HandedOutOnce labels := by
  rintro before op id after rfl op' hmem
  obtain ⟨b, hbefore, hrest⟩ := htrace.split
  have hused := used_of_handed_out hbefore hmem
  cases hrest with
  | cons hstep _ =>
    cases hstep with
    | scheduled hfresh => exact hfresh hused

end

end Reference

end Moli.Timers
