import Mathlib.Data.List.Range
import Moli.Actions.Reference
import Moli.Lib.Coalesce
import Moli.Lib.Ensures
import Moli.Lib.Lists

/-!
# The action window refines the flat reference

`Compacted.admitAction` and `Compacted.removeScope` are the two ways an open window changes; every
call keeps `Inv`, and `window_refines_reference` reads the result off for every run.
-/

namespace Moli.Actions

open Lib ActionWindow FlatAction WindowEvent PendingWindow List

variable {S O : Type} [BEq S]

section

omit [BEq S]

variable (x : PlannedAction S O) (actions actions' : List (PlannedAction S O))

@[simp] theorem flatten_nil : flatten ([] : List (PlannedAction S O)) = [] := rfl

@[simp] theorem flatten_cons : flatten (x :: actions) = x.expand ++ flatten actions := rfl

@[simp] theorem flatten_append :
    flatten (actions ++ actions') = flatten actions ++ flatten actions' :=
  flatMap_append

end

/-! ## Scroll runs -/

/-- What `normalize_scroll_runs` and a scroll admission merge. -/
def joinRuns : PlannedAction S O → PlannedAction S O → Option (PlannedAction S O)
  | .scroll scope run, .scroll scope' run' =>
    if scope == scope' then some (.scroll scope (run.append run')) else none
  | _, _ => none

variable {x y m : PlannedAction S O} {actions : List (PlannedAction S O)} {a : FlatAction S O}

theorem joinRuns_eq_none : joinRuns x y = none ↔ x.sameRun y = false := by
  cases x <;> cases y <;> simp [joinRuns, PlannedAction.sameRun]

theorem joinRuns_eq_some (h : joinRuns x y = some m) :
    ∃ scope run scope' run', x = .scroll scope run ∧ y = .scroll scope' run' ∧
      (scope == scope') = true ∧ m = .scroll scope (run.append run') := by
  cases x with
  | click | ordered => cases h
  | scroll scope run =>
    cases y with
    | click | ordered => cases h
    | scroll scope' run' =>
      rw [joinRuns] at h
      split at h
      · next hscope =>
        cases h
        exact ⟨scope, run, scope', run', rfl, rfl, hscope, rfl⟩
      · cases h

theorem keepsLeft_joinRuns : KeepsLeft (joinRuns (S := S) (O := O)) := by
  intro x y a m hm hxy
  obtain ⟨scope, run, scope', run', rfl, rfl, -, rfl⟩ := joinRuns_eq_some hm
  rw [joinRuns_eq_none] at hxy ⊢
  cases x <;> exact hxy

theorem normalizeStep_eq (l : List (PlannedAction S O)) (a : PlannedAction S O) :
    normalizeStep l a = snocMerge joinRuns l a := by
  rcases eq_nil_or_concat' l with rfl | ⟨l, last, rfl⟩
  · cases a <;> rfl
  · rw [snocMerge_concat]
    cases a with
    | click | ordered => cases last <;> rfl
    | scroll scope run =>
      rw [normalizeStep, getLast?_concat, dropLast_concat]
      cases last with
      | click | ordered => rfl
      | scroll scope' run' =>
        simp only [joinRuns]
        split <;> rfl

theorem normalizeScrollRuns_actions (w : PendingWindow S O) :
    w.normalizeScrollRuns.actions = coalesce joinRuns w.actions := by
  have hstep : normalizeStep = snocMerge (joinRuns (S := S) (O := O)) := by
    funext l a
    exact normalizeStep_eq l a
  rw [normalizeScrollRuns, coalesce, hstep]

/-- No scroll run without steps. -/
def NonemptyRun : PlannedAction S O → Prop
  | .scroll _ run => run.steps ≠ []
  | _ => True

theorem joinRuns_nonempty (h : joinRuns x y = some m) (hx : NonemptyRun x) : NonemptyRun m := by
  obtain ⟨scope, run, scope', run', rfl, rfl, -, rfl⟩ := joinRuns_eq_some h
  exact append_ne_nil_of_left_ne_nil hx run'.steps

/-! ## Equal actions -/

namespace FlatAction.Same

theorem refl (a : FlatAction S O) : a.Same a := ⟨rfl, .inl rfl⟩

variable [PartialEquivBEq S] {a b c : FlatAction S O}

theorem trans (h : a.Same b) (h' : b.Same c) : a.Same c := by
  refine ⟨h.1.trans h'.1, ?_⟩
  rcases h.2 with hab | hab
  · rw [hab]
    exact h'.2
  · rcases h'.2 with hbc | hbc
    · exact .inr (hbc ▸ hab)
    · exact .inr (PartialEquivBEq.trans hab hbc)

omit [PartialEquivBEq S] in
theorem sequence_eq (h : a.Same b) : a.sequence = b.sequence := by
  rw [sequence, h.1, sequence]

omit [PartialEquivBEq S] in
theorem isClick_eq (h : a.Same b) : a.isClick = b.isClick := by
  rw [isClick, h.1, isClick]

theorem scope_beq (h : a.Same b) (scope : S) : (a.scope == scope) = (b.scope == scope) := by
  rcases h.2 with hab | hab
  · rw [hab]
  · exact BEq.congr_left hab

theorem removes_eq (h : a.Same b) (e : WindowEvent S O) : e.removes a = e.removes b := by
  cases e <;> simp only [removes, h.isClick_eq, h.scope_beq]

end FlatAction.Same

theorem expand_joinRuns (h : joinRuns x y = some m) :
    List.Forall₂ FlatAction.Same m.expand (x.expand ++ y.expand) := by
  obtain ⟨scope, run, scope', run', rfl, rfl, hscope, rfl⟩ := joinRuns_eq_some h
  simp only [PlannedAction.expand, ScrollRun.append, map_append]
  refine rel_append (forall₂_same.2 fun a _ => .refl a) ?_
  rw [forall₂_map_left_iff, forall₂_map_right_iff]
  exact forall₂_same.2 fun step _ => ⟨rfl, .inr hscope⟩

theorem flatten_coalesce [PartialEquivBEq S] (actions : List (PlannedAction S O)) :
    List.Forall₂ FlatAction.Same (flatten (coalesce joinRuns actions)) (flatten actions) :=
  flatMap_coalesce .refl (fun _ _ _ => .trans) fun _ _ _ => expand_joinRuns

/-! ## Survivors -/

theorem survivors_append (events : List (WindowEvent S O)) (e : WindowEvent S O) :
    survivors (events ++ [e]) =
      ((survivors events).filter fun a => !e.removes a) ++ admissions [e] := by
  induction events with
  | nil => cases e <;> rfl
  | cons first events ih =>
    cases first with
    | canceled => exact ih
    | admitted a =>
      simp only [cons_append, survivors, any_append, ih]
      cases hlater : events.any (·.removes a) with
      | true => simp
      | false => cases hremove : e.removes a <;> simp [hremove]

theorem survivors_sublist (events : List (WindowEvent S O)) :
    (survivors events).Sublist (admissions events) := by
  induction events with
  | nil => exact .slnil
  | cons e events ih =>
    cases e with
    | canceled => exact ih
    | admitted a =>
      rw [survivors]
      split
      · exact ih.cons a
      · exact ih.cons_cons a

/-- Two clicks of one scope. -/
def Clash (a b : FlatAction S O) : Prop := removes (.admitted b) a = true

theorem survivors_pairwise (events : List (WindowEvent S O)) :
    (survivors events).Pairwise fun a b => ¬ Clash a b := by
  induction events with
  | nil => exact .nil
  | cons e events ih =>
    cases e with
    | canceled => exact ih
    | admitted a =>
      rw [survivors]
      split
      · exact ih
      · next hlater =>
        refine pairwise_cons.2 ⟨?_, ih⟩
        intro b hb hclash
        have hmem : .admitted b ∈ events := by
          obtain ⟨e, he, heq⟩ := mem_filterMap.1 ((survivors_sublist events).subset hb)
          cases e with
          | canceled => cases heq
          | admitted b' =>
            cases heq
            exact he
        exact hlater (any_eq_true.2 ⟨_, hmem, hclash⟩)

/-! ## Removal from the plan -/

omit [BEq S] in
/-- Filtering planned actions by what all their actions share filters the flat list. -/
theorem flatten_filter {p : PlannedAction S O → Bool} {q : FlatAction S O → Bool}
    (h : ∀ x, ∀ a ∈ x.expand, q a = p x) :
    flatten (actions.filter p) = (flatten actions).filter q := by
  induction actions with
  | nil => rfl
  | cons x actions ih =>
    have hx : x.expand.filter q = if p x then x.expand else [] := by
      split
      · next hp => exact filter_eq_self.2 fun a ha => (h x a ha).trans hp
      · next hp => exact filter_eq_nil_iff.2 fun a ha => by rw [h x a ha]; exact hp
    rw [flatten_cons, filter_append, hx, ← ih, filter_cons]
    split <;> simp

omit [BEq S] in
theorem scope_of_mem_expand (h : a ∈ x.expand) : a.scope = x.scope := by
  cases x with
  | scroll scope run =>
    obtain ⟨step, -, rfl⟩ := mem_map.1 h
    rfl
  | click | ordered =>
    obtain rfl := mem_singleton.1 h
    rfl

theorem removes_of_mem_expand {b : FlatAction S O} (h : a ∈ x.expand) (hb : b.isClick = true) :
    removes (.admitted b) a = x.isClickOf b.scope := by
  cases x with
  | scroll scope run =>
    obtain ⟨step, -, rfl⟩ := mem_map.1 h
    rfl
  | click scope scheduled =>
    obtain rfl := mem_singleton.1 h
    simp only [removes, hb]
    rfl
  | ordered scope scheduled =>
    obtain rfl := mem_singleton.1 h
    rfl

omit [BEq S] in
theorem length_flatten (actions : List (PlannedAction S O)) :
    (flatten actions).length = (actions.map PlannedAction.retainedActionCount).sum := by
  have hx : ∀ x : PlannedAction S O, x.expand.length = x.retainedActionCount := by
    intro x
    cases x <;> simp [PlannedAction.expand, PlannedAction.retainedActionCount, ScrollRun.len]
  simp [flatten, hx]

omit [BEq S] in
theorem map_sequence_flatten (actions : List (PlannedAction S O)) :
    (flatten actions).map (·.sequence) = actions.flatMap (·.sequences) := by
  have hx : ∀ x : PlannedAction S O, x.expand.map (·.sequence) = x.sequences := by
    intro x
    cases x <;>
      simp [PlannedAction.expand, PlannedAction.sequences, FlatAction.sequence]
  simp [flatten, map_flatMap, hx]

/-! ## Admission -/

namespace PendingWindow

/-- The planned actions an admission leaves, before its own is added. -/
def spared (w : PendingWindow S O) (scope : S) : WindowAction O → List (PlannedAction S O)
  | .click _ =>
    if w.actions.any (·.isClickOf scope) then
      coalesce joinRuns (w.actions.eraseP (·.isClickOf scope))
    else w.actions
  | .scroll _ | .ordered _ => w.actions

/-- The planned action of an admission. -/
def planned (scope : S) (sequence : ActionSequence) (admittedAt : Instant) :
    WindowAction O → PlannedAction S O
  | .scroll scroll => .scroll scope (.new ⟨sequence, admittedAt, scroll⟩)
  | .click click => .click scope ⟨sequence, admittedAt, click⟩
  | .ordered action => .ordered scope ⟨sequence, admittedAt, action⟩

omit [BEq S] in
theorem expand_planned (scope : S) (sequence : ActionSequence) (admittedAt : Instant)
    (action : WindowAction O) :
    (planned scope sequence admittedAt action).expand =
      [⟨scope, ⟨sequence, admittedAt, action⟩⟩] := by
  cases action <;> rfl

omit [BEq S] in
theorem nonemptyRun_planned (scope : S) (sequence : ActionSequence) (admittedAt : Instant)
    (action : WindowAction O) : NonemptyRun (planned scope sequence admittedAt action) := by
  cases action <;> simp [planned, NonemptyRun, ScrollRun.new]

theorem snocMerge_of_not_scroll (l : List (PlannedAction S O)) {a : PlannedAction S O}
    (ha : ∀ x, joinRuns x a = none) : snocMerge joinRuns l a = l ++ [a] := by
  rcases eq_nil_or_concat' l with rfl | ⟨l, last, rfl⟩
  · rfl
  · rw [snocMerge_concat, ha]

theorem admit_actions (w : PendingWindow S O) (scope : S) (action : WindowAction O)
    (sequence : ActionSequence) (admittedAt : Instant) :
    (w.admitAction scope action sequence admittedAt).2.actions =
      snocMerge joinRuns (w.spared scope action) (planned scope sequence admittedAt action) := by
  cases action with
  | scroll scroll =>
    rw [← normalizeStep_eq]
    simp only [admitAction, spared, planned, normalizeStep]
    split
    · split <;> rfl
    · rfl
  | click click =>
    rw [snocMerge_of_not_scroll _ fun x => by cases x <;> rfl]
    simp only [admitAction, spared, planned, eraseP_eq_eraseIdx, ← findIdx?_isSome]
    cases w.actions.findIdx? (·.isClickOf scope) with
    | none => simp
    | some index => simp [normalizeScrollRuns_actions]
  | ordered action =>
    rw [snocMerge_of_not_scroll _ fun x => by cases x <;> rfl]
    rfl

theorem admit_admittedActionCount (w : PendingWindow S O) (scope : S) (action : WindowAction O)
    (sequence : ActionSequence) (admittedAt : Instant) :
    (w.admitAction scope action sequence admittedAt).2.admittedActionCount =
      w.admittedActionCount + 1 := by
  cases action with
  | scroll =>
    simp only [admitAction]
    split
    · split <;> rfl
    · rfl
  | click =>
    simp only [admitAction]
    split <;> rfl
  | ordered => rfl

end PendingWindow

/-- No two clicks of one scope among the actions of a window. -/
theorem Compacting.not_clash [PartialEquivBEq S] {retained admitted : Nat}
    {events : List (WindowEvent S O)} (h : Compacting actions retained admitted events) :
    (flatten actions).Pairwise fun a b => ¬ Clash a b := by
  refine pairwise_of_forall₂ ?_ h.flat (survivors_pairwise events)
  intro a a' b b' hab hab' hnot hclash
  refine hnot ?_
  simp only [Clash, removes, Bool.and_eq_true] at hclash ⊢
  rw [← hab.isClick_eq, ← hab'.isClick_eq, ← hab.scope_beq]
  refine ⟨hclash.1, ?_⟩
  rcases hab'.2 with hscope | hscope
  · rw [← hscope]
    exact hclash.2
  · exact PartialEquivBEq.trans hclash.2 hscope

theorem not_both_clicks [PartialEquivBEq S] (h : (flatten actions).Pairwise fun a b => ¬ Clash a b)
    (scope : S) :
    actions.Pairwise fun x y => ¬ (x.isClickOf scope = true ∧ y.isClickOf scope = true) := by
  refine (pairwise_flatMap.1 h).2.imp ?_
  rintro x y hxy ⟨hx, hy⟩
  cases x with
  | scroll | ordered => cases hx
  | click xscope xclick =>
    cases y with
    | scroll | ordered => cases hy
    | click yscope yclick =>
      refine hxy _ (mem_singleton.2 rfl) _ (mem_singleton.2 rfl) ?_
      exact PartialEquivBEq.trans hx (PartialEquivBEq.symm hy)

namespace PendingWindow

variable [PartialEquivBEq S] {w : PendingWindow S O} {scope : S} {action : WindowAction O}

/-- A replaced click leaves the count of retained actions alone. -/
theorem admit_retainedActionCount (sequence : ActionSequence) (admittedAt : Instant)
    (h : w.retainedActionCount = (flatten w.actions).length) :
    (w.admitAction scope action sequence admittedAt).2.retainedActionCount =
      (flatten (w.spared scope action)).length + 1 := by
  cases action with
  | scroll =>
    rw [spared, ← h]
    simp only [admitAction]
    split
    · split <;> rfl
    · rfl
  | ordered =>
    rw [spared, ← h]
    rfl
  | click =>
    simp only [admitAction, spared]
    cases hfound : w.actions.findIdx? (·.isClickOf scope) with
    | none => simp [← findIdx?_isSome, hfound, h]
    | some index =>
      have hany : w.actions.any (·.isClickOf scope) = true := by
        rw [← findIdx?_isSome, hfound]
        rfl
      obtain ⟨x, hx, hclick⟩ := any_eq_true.1 hany
      obtain ⟨y, before, after, -, hy, hsplit, herase⟩ := exists_of_eraseP hx hclick
      have hone : y.expand.length = 1 := by
        cases y with
        | scroll | ordered => cases hy
        | click => rfl
      rw [if_pos hany, (flatten_coalesce _).length_eq, herase]
      simp only [normalizeScrollRuns, h, hsplit, flatten_append, flatten_cons, length_append]
      omega

theorem flatten_spared (scope : S) (hclash : (flatten w.actions).Pairwise fun a b => ¬ Clash a b)
    (scheduled : ScheduledAction (WindowAction O)) (hvalue : scheduled.value = action) :
    List.Forall₂ FlatAction.Same (flatten (w.spared scope action))
      ((flatten w.actions).filter
        fun a => !removes (.admitted ⟨scope, scheduled⟩) a) := by
  have hself : List.Forall₂ FlatAction.Same (flatten w.actions) (flatten w.actions) :=
    forall₂_same.2 fun a _ => .refl a
  by_cases hclick : isClick ⟨scope, scheduled⟩ = true
  · have hfilter : flatten (w.actions.filter fun x => !x.isClickOf scope) =
        (flatten w.actions).filter
          fun a => !removes (.admitted ⟨scope, scheduled⟩) a :=
      flatten_filter fun x a ha => by rw [removes_of_mem_expand ha hclick]
    rw [← hfilter]
    cases action with
    | scroll | ordered =>
      rw [isClick, hvalue] at hclick
      cases hclick
    | click click =>
      rw [spared]
      split
      · rw [eraseP_eq_filter (not_both_clicks hclash scope)]
        exact flatten_coalesce _
      · next hany =>
        have hnone : w.actions.filter (fun x => !x.isClickOf scope) = w.actions := by
          refine filter_eq_self.2 fun x hx => ?_
          simp only [any_eq_true, not_exists, not_and] at hany
          simpa using hany x hx
        rw [hnone]
        exact hself
  · have hkeep : (flatten w.actions).filter
        (fun a => !removes (.admitted ⟨scope, scheduled⟩) a) = flatten w.actions := by
      simp [removes, hclick]
    have hspared : w.spared scope action = w.actions := by
      cases action with
      | scroll | ordered => rfl
      | click click =>
        rw [isClick, hvalue] at hclick
        exact absurd rfl hclick
    rw [hkeep, hspared]
    exact hself

omit [PartialEquivBEq S] in
theorem separated_spared (h : Separated joinRuns w.actions) :
    Separated joinRuns (w.spared scope action) := by
  cases action with
  | scroll | ordered => exact h
  | click =>
    rw [spared]
    split
    · exact separated_coalesce keepsLeft_joinRuns _
    · exact h

omit [PartialEquivBEq S] in
theorem nonemptyRun_spared (h : ∀ x ∈ w.actions, NonemptyRun x) :
    ∀ x ∈ w.spared scope action, NonemptyRun x := by
  cases action with
  | scroll | ordered => exact h
  | click =>
    rw [spared]
    split
    · exact forall_mem_coalesce (fun _ _ _ => joinRuns_nonempty)
        fun x hx => h x (mem_of_mem_eraseP hx)
    · exact h

end PendingWindow

/-! ## The changes of an open window -/

omit [BEq S] in
theorem length_admissions_append (events events' : List (WindowEvent S O)) :
    (admissions (events ++ events')).length =
      (admissions events).length + (admissions events').length := by
  simp [admissions]

/-- The flat list after an event. -/
abbrev afterEvent (flat : List (FlatAction S O)) (e : WindowEvent S O) : List (FlatAction S O) :=
  flat.filter (fun a => !e.removes a) ++ admissions [e]

namespace Compacting

variable {actions actions' : List (PlannedAction S O)} {retained admitted : Nat}
  {events : List (WindowEvent S O)}

theorem separated_joinRuns (h : Compacting actions retained admitted events) :
    Separated joinRuns actions :=
  h.separated.imp fun _ _ => joinRuns_eq_none.2

theorem nonemptyRun (h : Compacting actions retained admitted events) :
    ∀ x ∈ actions, NonemptyRun x := by
  intro x hx
  cases x with
  | scroll scope run => exact h.runs scope run hx
  | click | ordered => trivial

variable [PartialEquivBEq S]

theorem flat_after (h : Compacting actions retained admitted events) {e : WindowEvent S O}
    (hflat : List.Forall₂ FlatAction.Same (flatten actions') (afterEvent (flatten actions) e)) :
    List.Forall₂ FlatAction.Same (flatten actions') (survivors (events ++ [e])) := by
  rw [survivors_append]
  refine forall₂_trans (fun _ _ _ => .trans) hflat
    (rel_append (rel_filter ?_ h.flat) (forall₂_same.2 fun a _ => .refl a))
  intro a b hab
  simp only [hab.removes_eq]

omit [PartialEquivBEq S] in
theorem increasing_after (h : Compacting actions retained admitted events) {e : WindowEvent S O}
    (hflat : List.Forall₂ FlatAction.Same (flatten actions') (afterEvent (flatten actions) e))
    (hseq : ∀ b ∈ admissions [e], ∀ a ∈ flatten actions, a.sequence < b.sequence) :
    (flatten actions').Pairwise (·.sequence < ·.sequence) := by
  refine pairwise_of_forall₂ ?_ hflat
    (pairwise_append.2 ⟨h.increasing.filter _, ?_, ?_⟩)
  · intro a a' b b' hab hab' hlt
    rwa [hab.sequence_eq, hab'.sequence_eq]
  · cases e with
    | admitted b => exact pairwise_singleton _ _
    | canceled => exact .nil
  · intro a ha b hb
    exact hseq b hb a (mem_of_mem_filter ha)

variable {w : PendingWindow S O}

theorem flatten_admit
    (h : Compacting w.actions w.retainedActionCount w.admittedActionCount events)
    (scope : S) (action : WindowAction O) (sequence : ActionSequence) (admittedAt : Instant) :
    List.Forall₂ FlatAction.Same
      (flatten (w.admitAction scope action sequence admittedAt).2.actions)
      (afterEvent (flatten w.actions) (.admitted ⟨scope, ⟨sequence, admittedAt, action⟩⟩)) := by
  have hlast : List.Forall₂ FlatAction.Same
      (flatten (w.admitAction scope action sequence admittedAt).2.actions)
      (flatten (w.spared scope action) ++
        (planned scope sequence admittedAt action).expand) := by
    rw [admit_actions]
    exact flatMap_snocMerge FlatAction.Same.refl fun _ _ _ => expand_joinRuns
  rw [expand_planned] at hlast
  exact forall₂_trans (fun _ _ _ => .trans) hlast
    (rel_append (flatten_spared scope h.not_clash ⟨sequence, admittedAt, action⟩ rfl)
      (forall₂_same.2 fun a _ => .refl a))

theorem admitAction (h : Compacting w.actions w.retainedActionCount w.admittedActionCount events)
    (scope : S) (action : WindowAction O) {sequence : ActionSequence} (admittedAt : Instant)
    (hseq : ∀ a ∈ flatten w.actions, a.sequence < sequence) :
    Compacted (w.admitAction scope action sequence admittedAt).2.actions
      (w.admitAction scope action sequence admittedAt).2.retainedActionCount
      (w.admitAction scope action sequence admittedAt).2.admittedActionCount
      (events ++ [.admitted ⟨scope, ⟨sequence, admittedAt, action⟩⟩]) := by
  have hflat := h.flatten_admit scope action sequence admittedAt
  have hactions := w.admit_actions scope action sequence admittedAt
  refine ⟨⟨h.flat_after hflat, ?increasing, ?separated, ?runs, ?retained, ?admitted⟩, ?nonempty⟩
  case increasing =>
    refine h.increasing_after hflat fun b hb a ha => ?_
    obtain rfl := mem_singleton.1 hb
    exact hseq a ha
  case separated =>
    rw [hactions]
    exact ((separated_spared h.separated_joinRuns).snocMerge
      keepsLeft_joinRuns).imp fun _ _ => joinRuns_eq_none.1
  case runs =>
    intro scope' run hrun
    rw [hactions] at hrun
    exact forall_mem_snocMerge (fun _ _ _ => joinRuns_nonempty)
      (nonemptyRun_spared h.nonemptyRun)
      (nonemptyRun_planned scope sequence admittedAt action) _ hrun
  case retained =>
    have hspared := flatten_spared scope h.not_clash
      ⟨sequence, admittedAt, action⟩ rfl
    rw [admit_retainedActionCount sequence admittedAt h.retained, hflat.length_eq,
      hspared.length_eq, length_append]
    rfl
  case admitted =>
    rw [admit_admittedActionCount, h.admitted, length_admissions_append]
    rfl
  case nonempty =>
    rw [hactions]
    exact snocMerge_ne_nil

omit [PartialEquivBEq S] in
theorem removeScope_actions (w : PendingWindow S O) (scope : S) :
    (w.removeScope scope).2.actions =
      coalesce joinRuns (w.actions.filter fun x => x.scope != scope) :=
  normalizeScrollRuns_actions _

theorem flatten_removeScope (w : PendingWindow S O) (scope : S) :
    List.Forall₂ FlatAction.Same (flatten (w.removeScope scope).2.actions)
      (afterEvent (flatten w.actions) (.canceled scope)) := by
  have hfilter : flatten (w.actions.filter fun x => x.scope != scope) =
      (flatten w.actions).filter fun a => !removes (.canceled scope) a := by
    refine flatten_filter fun x a ha => ?_
    rw [removes, scope_of_mem_expand ha]
    rfl
  rw [removeScope_actions, afterEvent, ← hfilter]
  simpa [admissions] using flatten_coalesce (w.actions.filter fun x => x.scope != scope)

theorem removeScope (h : Compacting w.actions w.retainedActionCount w.admittedActionCount events)
    (scope : S) :
    Compacting (w.removeScope scope).2.actions (w.removeScope scope).2.retainedActionCount
      (w.removeScope scope).2.admittedActionCount (events ++ [.canceled scope]) := by
  have hflat := flatten_removeScope w scope
  refine ⟨h.flat_after hflat, ?increasing, ?separated, ?runs, ?retained, ?admitted⟩
  case increasing => exact h.increasing_after hflat fun b hb => by cases hb
  case separated =>
    rw [removeScope_actions]
    exact (separated_coalesce keepsLeft_joinRuns _).imp fun _ _ => joinRuns_eq_none.1
  case runs =>
    intro scope' run hrun
    rw [removeScope_actions] at hrun
    exact forall_mem_coalesce (fun _ _ _ => joinRuns_nonempty)
      (fun x hx => h.nonemptyRun x (mem_of_mem_filter hx)) _ hrun
  case retained =>
    rw [removeScope_actions, (flatten_coalesce _).length_eq, length_flatten]
    rfl
  case admitted =>
    rw [length_admissions_append, ← h.admitted]
    rfl

end Compacting

/-! ## Calls -/

section

omit [BEq S]

/-- A window that has just been opened. -/
def Fresh (window : PendingWindow S O) : Prop :=
  window.actions = [] ∧ window.retainedActionCount = 0 ∧ window.admittedActionCount = 0

theorem allocateSequence_spec (w : ActionWindow S O) :
    Ensures (fun _ => True) w.allocateSequence fun result =>
      result = (w.nextSequence, { w with nextSequence := w.nextSequence + 1 }) := by
  rw [allocateSequence]
  split
  · rfl
  · trivial

theorem allocateBatchId_spec (w : ActionWindow S O) :
    Ensures (fun _ => True) w.allocateBatchId fun result =>
      result.2.nextSequence = w.nextSequence := by
  rw [allocateBatchId]
  split
  · rfl
  · trivial

theorem openWindow_spec (w : ActionWindow S O) (openedAt : Instant) :
    Ensures (fun _ => True) (w.openWindow openedAt) fun result =>
      Fresh result.1 ∧ result.2.nextSequence = w.nextSequence := by
  cases hdeadline : Instant.checkedAdd openedAt actionWindowDuration with
  | none =>
    simp only [openWindow, hdeadline]
    trivial
  | some deadline =>
    simp only [openWindow, hdeadline]
    exact (allocateBatchId_spec w).bind fun allocated hallocated => ⟨⟨rfl, rfl, rfl⟩, hallocated⟩

theorem ensureWindow_spec (w : ActionWindow S O) (admittedAt : Instant) :
    Ensures (fun _ => True) (w.ensureWindow admittedAt) fun result =>
      (w.pending = some result.1 ∨ w.pending = none ∧ Fresh result.1) ∧
      result.2.nextSequence = w.nextSequence := by
  cases hpending : w.pending with
  | none =>
    simp only [ensureWindow, hpending]
    exact (openWindow_spec w admittedAt).mono fun result h => ⟨.inr ⟨trivial, h.1⟩, h.2⟩
  | some window =>
    simp only [ensureWindow, hpending]
    exact ⟨.inl rfl, rfl⟩

end

/-- A push admits to the pending window, or to a new one after releasing a due window. -/
theorem push_spec (w : ActionWindow S O) (scope : S) (action : WindowAction O)
    (admittedAt : Instant) :
    Ensures (fun _ => True) (w.push scope action admittedAt) fun result =>
      ∃ base : PendingWindow S O,
        result.2.pending = some (base.admitAction scope action w.nextSequence admittedAt).2 ∧
        result.1.sequence = w.nextSequence ∧ result.2.nextSequence = w.nextSequence + 1 ∧
        (w.pending = some base ∧ result.1.readyBatch = none ∨
          Fresh base ∧ result.1.readyBatch =
            w.pending.map (·.intoBatch admittedAt .deadline)) := by
  cases hdue : w.pending.any fun window => window.deadline ≤ admittedAt with
  | true =>
    simp only [ActionWindow.push, hdue, if_true]
    refine (ensureWindow_spec _ _).bind fun opened hopened => ?_
    refine (allocateSequence_spec _).bind fun allocated hallocated => ?_
    subst hallocated
    refine ⟨opened.1, by rw [hopened.2], hopened.2, by rw [hopened.2], .inr ⟨?_, rfl⟩⟩
    exact hopened.1.elim (fun hsome => by cases hsome) fun hnone => hnone.2
  | false =>
    simp only [ActionWindow.push, hdue, Bool.false_eq_true, if_false]
    refine (ensureWindow_spec _ _).bind fun opened hopened => ?_
    refine (allocateSequence_spec _).bind fun allocated hallocated => ?_
    subst hallocated
    refine ⟨opened.1, by rw [hopened.2], hopened.2, by rw [hopened.2], ?_⟩
    rcases hopened.1 with hsome | ⟨hnone, hfresh⟩
    · exact .inl ⟨hsome, rfl⟩
    · exact .inr ⟨hfresh, by rw [hnone]; rfl⟩

/-- What a departure says is right: a batch is compacted, a click is superseded by a later click of
its scope, and a cancellation returns the actions of its scope that the window held. -/
def Departure.Sound : Departure S O → Prop
  | released batch events =>
    Compacted batch.actions batch.retainedActionCount batch.admittedActionCount events
  | superseded actions successor =>
    ∀ a ∈ actions, removes (.admitted successor) a = true ∧ a.sequence < successor.sequence
  | canceled scope held sequences =>
    sequences = (held.filter (·.scope == scope)).map (·.sequence)
  | cleared _ => True

/-- What holds of every world of a run. -/
structure Inv (w : World S O) : Prop where
  idle : w.window.pending = none → w.events = []
  pending : ∀ window, w.window.pending = some window →
    Compacted window.actions window.retainedActionCount window.admittedActionCount w.events
  departures : ∀ d ∈ w.departures, d.Sound
  counter : 0 < w.window.nextSequence
  account : (w.departures.flatMap (·.sequences) ++ w.window.retained.map (·.sequence)).Perm
    (range' 1 (w.window.nextSequence - 1))
  order : (w.departures.flatMap (·.released?) ++ w.window.retained.map (·.sequence)).Pairwise
    (· < ·)

namespace Inv

variable {w : World S O}

theorem new : Inv (World.new : World S O) where
  idle _ := rfl
  pending _ h := by cases h
  departures _ h := by cases h
  counter := Nat.one_pos
  account := .refl []
  order := .nil

/-- One more departure. -/
theorem departures_append (h : Inv w) {d : Departure S O} (hd : d.Sound) :
    ∀ x ∈ w.departures ++ [d], x.Sound := by
  intro x hx
  rcases mem_append.1 hx with hx | hx
  · exact h.departures x hx
  · exact mem_singleton.1 hx ▸ hd

theorem lt_nextSequence (h : Inv w) {n : ActionSequence}
    (hn : n ∈ w.departures.flatMap (·.sequences) ++ w.window.retained.map (·.sequence)) :
    n < w.window.nextSequence :=
  lt_of_lt_of_eq (mem_range'_1.1 (h.account.subset hn)).2 (Nat.add_sub_cancel' h.counter)

theorem sequence_lt (h : Inv w) (ha : a ∈ w.window.retained) : a.sequence < w.window.nextSequence :=
  h.lt_nextSequence (mem_append_right _ (mem_map_of_mem ha))

theorem released_lt (h : Inv w) {n : ActionSequence}
    (hn : n ∈ w.departures.flatMap (·.released?)) : n < w.window.nextSequence := by
  obtain ⟨d, hd, hn⟩ := mem_flatMap.1 hn
  have hsub : n ∈ d.sequences := by
    cases d with
    | released batch events => exact hn
    | superseded | canceled | cleared => cases hn
  exact h.lt_nextSequence (mem_append_left _ (mem_flatMap.2 ⟨d, hd, hsub⟩))

/-- The window is dropped with this departure of all its actions. -/
theorem close (h : Inv w) {d : Departure S O}
    (hseq : d.sequences = w.window.retained.map (·.sequence))
    (hreleased : d.released?.Sublist (w.window.retained.map (·.sequence))) (hd : d.Sound) :
    Inv ⟨{ w.window with pending := none }, [], w.departures ++ [d]⟩ where
  idle _ := rfl
  pending _ hpending := by cases hpending
  departures := h.departures_append hd
  counter := h.counter
  account := by
    have haccount := h.account
    rw [← hseq] at haccount
    simpa [retained] using haccount
  order := by
    have horder := h.order.sublist ((List.Sublist.refl _).append hreleased)
    simpa [retained] using horder

theorem release (h : Inv w) {releasedAt : Instant} {cause : ActionBatchCause} :
    Inv (w.release (w.window.pending.map (·.intoBatch releasedAt cause))) := by
  cases hpending : w.window.pending with
  | none => exact h
  | some window =>
    have hretained : w.window.retained = flatten window.actions := by
      simp [retained, hpending]
    exact h.close (by rw [hretained]; rfl) (by rw [hretained]; exact .refl _)
      (h.pending window hpending)

theorem clear (h : Inv w) :
    Inv ⟨{ w.window with pending := none }, [], w.departures ++ [.cleared w.window.retained]⟩ :=
  h.close rfl (nil_sublist _) trivial

theorem map_sequence_eq {l l' : List (FlatAction S O)} (h : List.Forall₂ FlatAction.Same l l') :
    l.map (·.sequence) = l'.map (·.sequence) := by
  induction h with
  | nil => rfl
  | cons hab _ ih => rw [map_cons, map_cons, hab.sequence_eq, ih]

omit [BEq S] in
/-- The sequences of the actions a filter drops and of those it keeps. -/
theorem perm_filter {p : FlatAction S O → Bool} {l : List (FlatAction S O)} :
    ((l.filter p).map (·.sequence) ++ (l.filter fun a => !p a).map (·.sequence)).Perm
      (l.map (·.sequence)) := by
  rw [← map_append]
  exact (filter_append_perm p l).map _

theorem ledger_perm {departed retained dropped kept : List ActionSequence} {next : Nat}
    (hnext : 0 < next) (h : (departed ++ retained).Perm (range' 1 (next - 1)))
    (hsplit : (dropped ++ kept).Perm retained) :
    ((departed ++ dropped) ++ (kept ++ [next])).Perm (range' 1 next) := by
  obtain ⟨n, rfl⟩ := Nat.exists_eq_succ_of_ne_zero hnext.ne'
  rw [Nat.succ_eq_add_one, range'_concat, Nat.add_comm n 1, Nat.one_mul, append_assoc,
    ← append_assoc dropped, ← append_assoc]
  exact ((hsplit.append_left departed).trans h).append_right _

/-- What is missing after an admission is what the admission removes. -/
theorem filter_missing {l l' : List (FlatAction S O)} {b : FlatAction S O}
    (hinc : l.Pairwise (·.sequence < ·.sequence)) (hb : ∀ a ∈ l, a.sequence < b.sequence)
    (hl' : List.Forall₂ FlatAction.Same l' (afterEvent l (.admitted b))) :
    (l.filter fun a => !(l'.map (·.sequence)).contains a.sequence) =
      l.filter fun a => removes (.admitted b) a := by
  have hnodup : (l.map (·.sequence)).Nodup := pairwise_map.2 (hinc.imp fun hlt => hlt.ne)
  refine filter_congr fun a ha => ?_
  rw [map_sequence_eq hl']
  have hmem : a.sequence ∈ (afterEvent l (.admitted b)).map (·.sequence) ↔
      removes (.admitted b) a = false := by
    constructor
    · intro hmem
      obtain ⟨a', ha', hseq⟩ := mem_map.1 hmem
      rcases mem_append.1 ha' with ha' | ha'
      · obtain ⟨ha'l, hkeep⟩ := mem_filter.1 ha'
        obtain rfl : a' = a := inj_on_of_nodup_map hnodup ha'l ha hseq
        simpa using hkeep
      · obtain rfl := mem_singleton.1 ha'
        exact absurd hseq (hb a ha).ne'
    · intro hkeep
      refine mem_map_of_mem (mem_append_left _ (mem_filter.2 ⟨ha, ?_⟩))
      simp [hkeep]
  rw [Bool.eq_iff_iff]
  simp only [contains_eq_mem, hmem]
  simp

/-- The window `base` of the world, possibly just opened, admits an action. -/
theorem admitAction [PartialEquivBEq S] (h : Inv w) (base : PendingWindow S O)
    {window : ActionWindow S O}
    (hbase : Compacting base.actions base.retainedActionCount base.admittedActionCount w.events)
    (hretained : w.window.retained = flatten base.actions) (scope : S) (action : WindowAction O)
    (admittedAt : Instant)
    (hpending : window.pending =
      some (base.admitAction scope action w.window.nextSequence admittedAt).2)
    (hnext : window.nextSequence = w.window.nextSequence + 1) :
    Inv ⟨window,
      w.events ++ [.admitted ⟨scope, ⟨w.window.nextSequence, admittedAt, action⟩⟩],
      w.departures ++ [.superseded (w.window.retained.filter fun a =>
          !(window.retained.map (·.sequence)).contains a.sequence)
        ⟨scope, ⟨w.window.nextSequence, admittedAt, action⟩⟩]⟩ := by
  have hlt : ∀ a ∈ flatten base.actions, a.sequence < w.window.nextSequence := by
    intro a ha
    exact h.sequence_lt (hretained ▸ ha)
  have hcompacted := hbase.admitAction scope action admittedAt hlt
  have hflat := hbase.flatten_admit scope action w.window.nextSequence admittedAt
  have hafter : window.retained =
      flatten (base.admitAction scope action w.window.nextSequence admittedAt).2.actions := by
    simp [retained, hpending]
  have hmissing := filter_missing (b := ⟨scope, ⟨w.window.nextSequence, admittedAt, action⟩⟩)
    hbase.increasing hlt hflat
  rw [← hafter] at hmissing
  rw [hretained, hmissing]
  have hseqs : window.retained.map (·.sequence) = ((flatten base.actions).filter fun a =>
      !removes (.admitted ⟨scope, ⟨w.window.nextSequence, admittedAt, action⟩⟩) a).map
        (·.sequence) ++ [w.window.nextSequence] := by
    rw [hafter, map_sequence_eq hflat, map_append]
    rfl
  refine ⟨?idle, ?pending, h.departures_append ?departure, ?counter, ?account, ?order⟩
  case idle =>
    intro hnone
    rw [hpending] at hnone
    cases hnone
  case pending =>
    intro pending hsome
    obtain rfl := Option.mem_unique hpending hsome
    exact hcompacted
  case departure =>
    intro a ha
    obtain ⟨hamem, hremoves⟩ := mem_filter.1 ha
    exact ⟨hremoves, hlt a hamem⟩
  case counter => exact hnext ▸ Nat.succ_pos _
  case account =>
    rw [flatMap_append, flatMap_singleton, hseqs, hnext]
    exact ledger_perm h.counter (hretained ▸ h.account) perm_filter
  case order =>
    have hold := h.order
    rw [hretained] at hold
    rw [flatMap_append, flatMap_singleton, hseqs, Departure.released?, append_nil, ← append_assoc]
    refine pairwise_append.2 ⟨hold.sublist ?_, pairwise_singleton _ _, ?_⟩
    · exact (List.Sublist.refl _).append ((filter_sublist).map _)
    · intro n hn m hm
      obtain rfl := mem_singleton.1 hm
      rcases mem_append.1 hn with hn | hn
      · exact h.released_lt hn
      · obtain ⟨a, ha, rfl⟩ := mem_map.1 hn
        exact hlt a (mem_of_mem_filter ha)

theorem push [PartialEquivBEq S] (h : Inv w) (scope : S) (action : WindowAction O)
    (admittedAt : Instant) :
    Ensures (fun _ => True) (w.push scope action admittedAt) Inv := by
  refine (push_spec w.window scope action admittedAt).bind fun (admission, window) hresult => ?_
  obtain ⟨base, hpending, hsequence, hnext, hcase⟩ := hresult
  dsimp only at hpending hsequence hnext hcase
  simp only [hsequence]
  rcases hcase with ⟨hbase, hready⟩ | ⟨⟨hactions, hretained, hadmitted⟩, hready⟩
  · rw [hready]
    refine h.admitAction base (h.pending base hbase).toCompacting ?_ scope action admittedAt
      hpending hnext
    simp [retained, hbase]
  · rw [hready]
    have hreleased : Inv (w.release (w.window.pending.map (·.intoBatch admittedAt .deadline))) :=
      h.release
    have hidle : (w.release (w.window.pending.map
        (·.intoBatch admittedAt .deadline))).window.pending = none := by
      cases hold : w.window.pending with
      | none => exact hold
      | some => rfl
    have hsame : (w.release (w.window.pending.map
        (·.intoBatch admittedAt .deadline))).window.nextSequence = w.window.nextSequence := by
      cases w.window.pending <;> rfl
    rw [← hsame] at hpending hnext ⊢
    refine hreleased.admitAction base ?_ ?_ scope action admittedAt hpending hnext
    · rw [hreleased.idle hidle, hactions, hretained, hadmitted]
      exact ⟨.nil, .nil, .nil, fun _ _ hmem => absurd hmem not_mem_nil, rfl, rfl⟩
    · simp [retained, hidle, hactions]

/-- The sequences `cancel_scope` returns, and those it leaves. -/
theorem cancelScope_sequences [PartialEquivBEq S] (w : ActionWindow S O) (scope : S) :
    (w.cancelScope scope).1 =
      (w.retained.filter fun a => removes (.canceled scope) a).map (·.sequence) ∧
    (w.cancelScope scope).2.retained.map (·.sequence) =
      (w.retained.filter fun a => !removes (.canceled scope) a).map (·.sequence) := by
  cases hpending : w.pending with
  | none => simp [ActionWindow.cancelScope, retained, hpending]
  | some window =>
    have hretained : w.retained = flatten window.actions := by
      simp [retained, hpending]
    have hflat := map_sequence_eq (Compacting.flatten_removeScope window scope)
    constructor
    · simp only [ActionWindow.cancelScope, hpending, removeScope, hretained]
      rw [← map_sequence_flatten]
      congr 1
      refine flatten_filter fun x a ha => ?_
      rw [removes, scope_of_mem_expand ha]
    · have hleft : (w.cancelScope scope).2.retained =
          flatten (window.removeScope scope).2.actions := by
        simp only [ActionWindow.cancelScope, hpending, retained]
        cases hactions : (window.removeScope scope).2.actions <;> simp [hactions]
      rw [hleft, hflat, hretained, map_append]
      exact append_nil _

/-- The window is left open exactly if some action of it is of another scope. -/
theorem cancelScope_isIdle [PartialEquivBEq S] (h : Inv w) (scope : S) :
    (w.window.cancelScope scope).2.isIdle = (survivors (w.events ++ [.canceled scope])).isEmpty ∧
      ∀ window, (w.window.cancelScope scope).2.pending = some window →
        Compacted window.actions window.retainedActionCount window.admittedActionCount
          (w.events ++ [.canceled scope]) := by
  cases hpending : w.window.pending with
  | none =>
    rw [h.idle hpending]
    simp [ActionWindow.cancelScope, isIdle, hpending, survivors]
  | some window =>
    have hcompacting := (h.pending window hpending).toCompacting.removeScope scope
    have hlength := hcompacting.flat.length_eq
    simp only [ActionWindow.cancelScope, isIdle, hpending]
    cases hactions : (window.removeScope scope).2.actions with
    | nil =>
      rw [hactions, flatten_nil, length_nil] at hlength
      simp [length_eq_zero_iff.1 hlength.symm]
    | cons x rest =>
      have hne : survivors (w.events ++ [.canceled scope]) ≠ [] := by
        intro hnil
        rw [hactions, hnil, flatten_cons, length_append] at hlength
        have hrun := hcompacting.nonemptyRun x (by simp [hactions])
        cases x with
        | scroll => simp_all [PlannedAction.expand, NonemptyRun]
        | click | ordered => simp [PlannedAction.expand] at hlength
      simp only [isEmpty_cons, Bool.false_eq_true, if_false]
      refine ⟨by simpa using hne, fun window' hsome => ?_⟩
      cases hsome
      exact ⟨hcompacting, by simp [hactions]⟩

theorem cancelScope [PartialEquivBEq S] (h : Inv w) (scope : S) :
    Ensures (fun _ => True) (w.step (.cancelScope scope)) Inv := by
  obtain ⟨hremoved, hleft⟩ := cancelScope_sequences w.window scope
  obtain ⟨hidle, hopen⟩ := h.cancelScope_isIdle scope
  have hnext : (w.window.cancelScope scope).2.nextSequence = w.window.nextSequence := by
    rw [ActionWindow.cancelScope]
    split <;> rfl
  simp only [World.step, ← hidle]
  refine ⟨?idle, ?pending, h.departures_append hremoved, ?counter, ?account, ?order⟩
  case idle =>
    intro (hnone : (w.window.cancelScope scope).2.pending = none)
    simp [isIdle, hnone]
  case pending =>
    intro window' (hsome : (w.window.cancelScope scope).2.pending = some window')
    simpa [isIdle, hsome] using hopen window' hsome
  case counter => exact hnext ▸ h.counter
  case account =>
    rw [flatMap_append, flatMap_singleton, Departure.sequences, hremoved, hleft, hnext,
      append_assoc]
    exact (perm_filter.append_left _).trans h.account
  case order =>
    rw [flatMap_append, flatMap_singleton, Departure.released?, append_nil, hleft]
    exact h.order.sublist ((List.Sublist.refl _).append (filter_sublist.map _))

omit [BEq S] in
theorem release_idle (w : World S O) (f : PendingWindow S O → ActionBatch S O) :
    { w.release (w.window.pending.map f) with window := { w.window with pending := none } } =
      w.release (w.window.pending.map f) := by
  obtain ⟨⟨batchId, sequence, pending⟩, events, departures⟩ := w
  cases pending <;> rfl

theorem step [PartialEquivBEq S] (h : Inv w) (op : Op S O) :
    Ensures (fun _ => True) (w.step op) Inv := by
  cases op with
  | push scope action admittedAt => exact h.push scope action admittedAt
  | takeDue now =>
    simp only [World.step, takeDue]
    split
    · rw [release_idle]
      exact h.release
    · exact h
  | flush barrier now =>
    simp only [World.step, flush]
    rw [release_idle]
    exact h.release
  | cancelScope scope => exact h.cancelScope scope
  | clear => exact h.clear

theorem run [PartialEquivBEq S] (ops : List (Op S O)) :
    Ensures (fun _ => True) (Actions.run ops) Inv := by
  have hfrom : ∀ w : World S O, Inv w →
      Ensures (fun _ => True) (ops.foldlM World.step w) Inv := by
    induction ops with
    | nil => exact fun w h => h
    | cons op ops ih =>
      intro w h
      exact (h.step op).bind ih
  exact hfrom .new .new

end Inv

/-- After every run the open window and every released batch hold exactly the actions of their
window that no later event removed, and every admitted action is in exactly one place: released,
superseded by a later click of its scope, canceled, cleared or still retained. A cancellation takes
exactly the actions of its scope and closes the window only if no other is left; a due window is
released by the next `take_due`, and any window by `flush`. -/
theorem window_refines_reference [PartialEquivBEq S] {ops : List (Op S O)} {w : World S O}
    (h : run ops = .ok w) :
    (w.window.pending = none → w.events = []) ∧
    (∀ window, w.window.pending = some window →
      Compacted window.actions window.retainedActionCount window.admittedActionCount w.events) ∧
    (∀ batch events, .released batch events ∈ w.departures →
      Compacted batch.actions batch.retainedActionCount batch.admittedActionCount events) ∧
    (∀ actions successor, .superseded actions successor ∈ w.departures → ∀ a ∈ actions,
      a.isClick ∧ successor.isClick ∧ a.scope == successor.scope ∧
        a.sequence < successor.sequence) ∧
    (∀ scope held sequences, .canceled scope held sequences ∈ w.departures →
      sequences = (held.filter (·.scope == scope)).map (·.sequence)) ∧
    (∀ scope, (w.window.cancelScope scope).2.isIdle = true ↔
      ∀ a ∈ survivors w.events, a.scope == scope) ∧
    (∀ window, w.window.pending = some window →
      (∀ now, w.window.takeDue now =
        if window.deadline ≤ now then
          (some (window.intoBatch now .deadline), { w.window with pending := none })
        else (none, w.window)) ∧
      ∀ barrier now, w.window.flush barrier now =
        (some (window.intoBatch now (.barrier barrier)), { w.window with pending := none })) ∧
    (w.departures.flatMap (·.sequences) ++ w.window.retained.map (·.sequence)).Perm
      (range' 1 (w.window.nextSequence - 1)) ∧
    (w.departures.flatMap (·.released?) ++ w.window.retained.map (·.sequence)).Pairwise
      (· < ·) := by
  have hinv : Inv w := (Inv.run ops).of_ok h
  refine ⟨hinv.idle, hinv.pending, fun _ _ => hinv.departures _, ?_, fun _ _ _ => hinv.departures _,
    fun scope => ?_, fun window hpending => ⟨fun now => ?_, fun barrier now => ?_⟩, hinv.account,
    hinv.order⟩
  · intro actions successor hmem a ha
    obtain ⟨hremoves, hlt⟩ := hinv.departures _ hmem a ha
    simp only [removes, Bool.and_eq_true] at hremoves
    exact ⟨hremoves.1.1, hremoves.1.2, hremoves.2, hlt⟩
  · rw [(hinv.cancelScope_isIdle scope).1, survivors_append]
    simp [admissions, removes]
  · simp [takeDue, hpending]
  · simp [flush, hpending]

/-- A click between two scrolls, and a second click. -/
def clickedScrolls : List (Op Nat Unit) :=
  [.push 0 (.scroll ⟨⟨0, 0⟩, 0, 8, .pixel, ⟨0⟩⟩) 0, .push 0 (.click ⟨⟨0, 0⟩, .left, 1, ⟨0⟩⟩) 1,
    .push 0 (.scroll ⟨⟨0, 0⟩, 0, 9, .pixel, ⟨0⟩⟩) 2, .push 0 (.click ⟨⟨1, 1⟩, .left, 1, ⟨0⟩⟩) 3]

/-- The first click is superseded, and the scroll runs around it become one. -/
theorem window_refines_reference_click :
    ∃ w, run clickedScrolls = .ok w ∧ w.window.retained.map (·.sequence) = [1, 3, 4] ∧
      (∀ window, w.window.pending = some window → window.retainedActionCount = 3) := by
  obtain ⟨w, hw⟩ : ∃ w, run clickedScrolls = .ok w := ⟨_, rfl⟩
  have hseqs : (run clickedScrolls).toOption.map (·.window.retained.map (·.sequence)) =
      some [1, 3, 4] := rfl
  have hretained : w.window.retained.map (·.sequence) = [1, 3, 4] := by
    rw [hw] at hseqs
    exact Option.some.inj hseqs
  refine ⟨w, hw, hretained, fun window hpending => ?_⟩
  rw [((window_refines_reference hw).2.1 window hpending).retained, ← length_map (·.sequence)]
  have hwindow : w.window.retained = flatten window.actions := by
    simp [retained, hpending]
  rw [← hwindow, hretained]
  rfl

end Moli.Actions
