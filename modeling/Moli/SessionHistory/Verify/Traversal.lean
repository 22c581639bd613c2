import Moli.SessionHistory.Joint

/-!
# Traversal plans

A mutation of a history either leaves its timeline alone, the identities of the steps and the
cursor, with the revision, or takes a revision that was never used (`apply_cases`). A plan is
committed only under the revision it was taken for, so only on the timeline it was taken for, and
the changes are compared with those of the plan (`traversal_plans`).
-/

namespace Moli.SessionHistory

open Lib

namespace JointSessionHistory

/-! ## Changes between steps -/

theorem mem_changesBetween {source destination : Entries} {change : SessionHistoryContextChange} :
    change ∈ changesBetween source destination ↔
      source.find change.context ≠ destination.find change.context ∧
        change.source = source.find change.context ∧
        change.destination = destination.find change.context := by
  obtain ⟨context, before, after⟩ := change
  have hcontext : ∀ c, source.find c ≠ destination.find c →
      (c, ()) ∈ ((source.entries ++ destination.entries).foldl
        (fun contexts e => contexts.insert e.1 ())
        (SortedMap.empty : SortedMap _ Unit)).entries := by
    intro c hne
    rw [← SortedMap.find_eq_some, SortedMap.find_foldl_insert]
    right
    cases hs : source.find c with
    | some e => exact ⟨(c, e), List.mem_append_left _ (SortedMap.find_eq_some.1 hs), rfl⟩
    | none =>
      cases hd : destination.find c with
      | some e => exact ⟨(c, e), List.mem_append_right _ (SortedMap.find_eq_some.1 hd), rfl⟩
      | none => exact absurd (hs.trans hd.symm) hne
  rw [changesBetween, List.mem_filterMap]
  constructor
  · rintro ⟨⟨c, _⟩, -, hchange⟩
    rw [changeBetween] at hchange
    split_ifs at hchange with hne
    cases hchange
    exact ⟨hne, rfl, rfl⟩
  · rintro ⟨hne, hbefore, hafter⟩
    dsimp only at hne hbefore hafter
    subst hbefore hafter
    exact ⟨(context, ()), hcontext context hne, if_pos hne⟩

/-! ## Plans -/

/-- The identities of the steps and the cursor. -/
def timeline (h : JointSessionHistory) : List SessionHistoryStepId × Nat :=
  (h.steps.map (·.id), h.current)

variable {h h' : JointSessionHistory} {ids ids' : Ids} {plan : SessionHistoryTraversalPlan}
variable {target : SessionHistoryStepId}

theorem timeline_mapSteps {f : Nat → SessionHistoryStep → SessionHistoryStep}
    (hf : ∀ index step, (f index step).id = step.id) : (h.mapSteps f).timeline = h.timeline := by
  have hids : (h.steps.mapIdx f).map (·.id) = h.steps.map (·.id) := by
    apply List.ext_getElem?
    intro i
    rw [List.getElem?_map, List.getElem?_mapIdx, List.getElem?_map]
    cases h.steps[i]? with
    | none => rfl
    | some step => exact congrArg some (hf i step)
  exact Prod.ext hids rfl

theorem attach_timeline (context : SessionHistoryContextId)
    (parent : Option SessionHistoryContextId) (entry : SessionHistoryEntry) :
    (h.attach context parent entry).revision = h.revision ∧
      (h.attach context parent entry).timeline = h.timeline := by
  unfold attach
  split_ifs with hentry
  · exact ⟨rfl, rfl⟩
  · refine ⟨rfl, timeline_mapSteps fun index step => ?_⟩
    unfold attachStep
    split_ifs <;> rfl

theorem findIdx?_timeline (htimeline : h'.timeline = h.timeline) :
    h'.steps.findIdx? (·.id = target) = h.steps.findIdx? (·.id = target) := by
  have hids : h'.steps.map (·.id) = h.steps.map (·.id) := congrArg Prod.fst htimeline
  have hmap : ∀ steps : List SessionHistoryStep,
      steps.findIdx? (·.id = target) = (steps.map (·.id)).findIdx? (· = target) := by
    intro steps
    rw [List.findIdx?_map]
    rfl
  rw [hmap, hmap, hids]

/-- What a plan says: the target is the step at some index, and the changes lead there. -/
theorem planTraversal_eq_some (hplan : h.planTraversal target = some plan) :
    ∃ next step, h.steps.findIdx? (·.id = target) = some next ∧ h.steps[next]? = some step ∧
      plan.revision = h.revision ∧ plan.sourceStep = h.currentStep ∧ plan.targetStep = target ∧
      plan.delta = (next : Int) - h.current ∧
      plan.changes = changesBetween h.stepNow.entries step.entries := by
  simp only [planTraversal, Option.bind_eq_bind, Option.bind_eq_some_iff, toI64,
    Option.ite_none_right_eq_some, Option.some.injEq, Option.pure_def] at hplan
  obtain ⟨next, hnext, _, ⟨-, rfl⟩, _, ⟨-, rfl⟩, step, hstep, rfl⟩ := hplan
  exact ⟨next, step, hnext, hstep, rfl, rfl, rfl, rfl, rfl⟩

theorem isTraversalPlanCurrent_iff :
    h.isTraversalPlanCurrent plan = true ↔
      h.revision = plan.revision ∧ h.currentStep = plan.sourceStep ∧
        ∃ now, h.planTraversal plan.targetStep = some now ∧ now.changes = plan.changes := by
  rw [isTraversalPlanCurrent, Bool.and_eq_true, Bool.and_eq_true, Option.any_eq_true, and_assoc]
  simp only [beq_iff_eq]

theorem commitTraversal_stale (hstale : h.revision ≠ plan.revision) :
    h.commitTraversal ids plan = (none, h, ids) := by
  have hnot : h.isTraversalPlanCurrent plan = false := by
    rw [Bool.eq_false_iff, ne_eq, isTraversalPlanCurrent_iff]
    exact fun hcurrent => hstale hcurrent.1
  rw [commitTraversal, hnot]
  rfl

theorem commitTraversal_none (hcommit : h.commitTraversal ids plan = (none, h', ids')) :
    h = h' ∧ ids = ids' := by
  unfold commitTraversal at hcommit
  dsimp only at hcommit
  split_ifs at hcommit <;> simp_all

/-- A commit moves the cursor to the target of a plan that is current. -/
theorem commitTraversal_some {d : Int} (hcommit : h.commitTraversal ids plan = (some d, h', ids')) :
    ∃ next now, h.revision = plan.revision ∧ h.planTraversal plan.targetStep = some now ∧
      now.changes = plan.changes ∧ h.steps.findIdx? (·.id = plan.targetStep) = some next ∧
      d = plan.delta ∧ h'.steps = h.steps ∧ h'.current = next ∧ h'.revision = ids.nextRevision ∧
      ids' = { ids with nextRevision := ids.nextRevision + 1 } := by
  rw [commitTraversal] at hcommit
  by_cases hcurrent : h.isTraversalPlanCurrent plan = true
  · obtain ⟨hrevision, -, now, hnow, hchanges⟩ := isTraversalPlanCurrent_iff.1 hcurrent
    obtain ⟨next, step, hnext, -⟩ := planTraversal_eq_some hnow
    have hidx : h.steps.findIdx (·.id = plan.targetStep) = next :=
      (List.findIdx?_eq_some_iff_findIdx_eq.1 hnext).2
    have hlt : next < h.steps.length := (List.findIdx?_eq_some_iff_findIdx_eq.1 hnext).1
    simp only [hcurrent, hidx, hlt] at hcommit
    cases hcommit
    exact ⟨next, now, hrevision, hnow, hchanges, hnext, rfl, rfl, rfl, rfl, rfl⟩
  · simp [hcurrent] at hcommit

theorem stepNow_eq_of_getElem? {step : SessionHistoryStep}
    (hstep : h.steps[h.current]? = some step) : h.stepNow = step := by
  rw [List.getElem?_eq_getElem h.current_lt] at hstep
  exact Option.some.inj hstep

end JointSessionHistory

/-! ## Runs -/

/-- The mutations that give the history a revision of its own. -/
def Op.Stamps (w : World) : Op → Prop
  | .push _ _ _ => True
  | .replace _ context entry => w.history.entry context ≠ some entry
  | .pruneAllButCurrent => 1 < w.history.steps.length
  | .commitTraversal plan => (w.history.commitTraversal w.ids plan).1.isSome
  | _ => False

namespace World

open JointSessionHistory

variable {w w' : World} {op : Op} {ops : List Op}

/-- Nothing but the entries changes, or the history gets a new revision. -/
theorem apply_cases (hstep : w.Step op w') :
    w.ids.nextRevision ≤ w'.ids.nextRevision ∧
      ((¬ op.Stamps w ∧ w'.history.revision = w.history.revision ∧
          w'.history.timeline = w.history.timeline) ∨
        (op.Stamps w ∧ w.ids.nextRevision ≤ w'.history.revision ∧
          w'.history.revision < w'.ids.nextRevision)) := by
  cases op with
  | attach context parent entry =>
    cases hstep
    exact ⟨le_rfl, .inl ⟨id, attach_timeline context parent entry⟩⟩
  | detach rounds context =>
    obtain ⟨history, hdetach, rfl⟩ := Option.map_eq_some_iff.1 hstep
    refine ⟨le_rfl, .inl ⟨id, ?_⟩⟩
    simp only [detach, Option.bind_eq_bind, Option.bind_eq_some_iff] at hdetach
    obtain ⟨removed, -, hdetach⟩ := hdetach
    split_ifs at hdetach
    · cases hdetach
      exact ⟨rfl, rfl⟩
    · cases hdetach
      exact ⟨rfl, timeline_mapSteps fun _ _ => rfl⟩
  | push rounds context entry =>
    obtain ⟨pushed, hpush, rfl⟩ := Option.map_eq_some_iff.1 hstep
    simp only [push, Option.bind_eq_bind, Option.bind_eq_some_iff, Option.pure_def,
      Option.some.injEq] at hpush
    obtain ⟨next, -, rfl⟩ := hpush
    exact ⟨Nat.le_succ _, .inr ⟨trivial, le_rfl, Nat.lt_succ_self _⟩⟩
  | replace rounds context entry =>
    obtain ⟨replaced, hreplace, rfl⟩ := Option.map_eq_some_iff.1 hstep
    rw [replace] at hreplace
    split_ifs at hreplace with hsame
    · cases hreplace
      exact ⟨le_rfl, .inl ⟨fun hstamps => hstamps hsame, rfl, rfl⟩⟩
    · simp only [Option.bind_eq_bind, Option.bind_eq_some_iff, Option.pure_def,
        Option.some.injEq] at hreplace
      obtain ⟨removed, -, rfl⟩ := hreplace
      exact ⟨Nat.le_succ _, .inr ⟨hsame, le_rfl, Nat.lt_succ_self _⟩⟩
  | pruneAllButCurrent =>
    cases hstep
    have hpos := w.history.current_lt
    rw [pruneAllButCurrent]
    split_ifs with hone
    · exact ⟨le_rfl, .inl ⟨fun hstamps => absurd hstamps (by rw [Op.Stamps]; omega), rfl, rfl⟩⟩
    · refine ⟨Nat.le_succ _, .inr ⟨?_, le_rfl, Nat.lt_succ_self _⟩⟩
      rw [Op.Stamps]
      omega
  | commitTraversal plan =>
    cases hstep
    generalize hcommit : w.history.commitTraversal w.ids plan = committed
    obtain ⟨answer, history, ids⟩ := committed
    cases answer with
    | none =>
      obtain ⟨rfl, rfl⟩ := commitTraversal_none hcommit
      exact ⟨le_rfl, .inl ⟨by simp [Op.Stamps, hcommit], rfl, rfl⟩⟩
    | some d =>
      obtain ⟨-, -, -, -, -, -, -, -, -, hrevision, rfl⟩ := commitTraversal_some hcommit
      refine ⟨Nat.le_succ _, .inr ⟨by simp [Op.Stamps, hcommit], hrevision.ge, ?_⟩⟩
      exact hrevision.symm ▸ Nat.lt_succ_self _
  | elsewhere steps revisions =>
    cases hstep
    exact ⟨Nat.le_add_right _ _, .inl ⟨id, rfl, rfl⟩⟩

/-- The revision is one that was allocated. -/
theorem revision_lt {position : SessionHistoryPosition} {ids : Ids}
    (hrun : Trace Step (.new position ids) ops w) : w.history.revision < w.ids.nextRevision := by
  refine hrun.invariant (P := fun s => s.history.revision < s.ids.nextRevision)
    (fun s op s' hs hstep => ?_) (Nat.lt_succ_self _)
  obtain ⟨hle, ⟨-, hrevision, -⟩ | ⟨-, -, hlt⟩⟩ := apply_cases hstep
  · rw [hrevision]
    exact hs.trans_le hle
  · exact hlt

/-- A run keeps the timeline as long as it keeps the revision. -/
theorem run_cases (hrun : Trace Step w ops w') :
    w.ids.nextRevision ≤ w'.ids.nextRevision ∧
      ((w'.history.revision = w.history.revision ∧ w'.history.timeline = w.history.timeline) ∨
        w.ids.nextRevision ≤ w'.history.revision) := by
  refine hrun.invariant (P := fun s => w.ids.nextRevision ≤ s.ids.nextRevision ∧
    ((s.history.revision = w.history.revision ∧ s.history.timeline = w.history.timeline) ∨
      w.ids.nextRevision ≤ s.history.revision)) (fun s op s' hs hstep => ?_)
    ⟨le_rfl, .inl ⟨rfl, rfl⟩⟩
  obtain ⟨hle, hs⟩ := hs
  obtain ⟨hle', ⟨-, hrevision, htimeline⟩ | ⟨-, hnew, -⟩⟩ := apply_cases hstep
  · rw [hrevision, htimeline]
    exact ⟨hle.trans hle', hs⟩
  · exact ⟨hle.trans hle', .inr (hle.trans hnew)⟩

end World

open JointSessionHistory in
/-- Plans are atomic and never apply to another timeline than their own. -/
theorem traversal_plans (position : SessionHistoryPosition) (ids : Ids) (past : List Op) (w : World)
    (hreach : Trace World.Step (.new position ids) past w) (target : SessionHistoryStepId)
    (plan : SessionHistoryTraversalPlan) (hplan : w.history.planTraversal target = some plan) :
    (∀ before mid op mid' after w', Trace World.Step w before mid → op.Stamps mid →
      mid.Step op mid' → Trace World.Step mid' after w' →
        w'.history.commitTraversal w'.ids plan = (none, w'.history, w'.ids)) ∧
    ∀ ops w', Trace World.Step w ops w' →
      ∀ d h ids', w'.history.commitTraversal w'.ids plan = (some d, h, ids') →
        h.steps = w'.history.steps ∧ h.currentStep = target ∧
        d = (h.current : Int) - w'.history.current ∧
        ∀ context,
          (w'.history.entry context ≠ h.entry context ↔
            ∃ change ∈ plan.changes, change.context = context) ∧
          ∀ change ∈ plan.changes, change.context = context →
            w'.history.entry context = change.source ∧
              h.entry context = change.destination := by
  have hlt := World.revision_lt hreach
  obtain ⟨next, step, hnext, hstep, hrevision, -, htarget, hdelta, -⟩ :=
    planTraversal_eq_some hplan
  constructor
  · intro before mid op mid' after w' hbefore hstamps hop hafter
    have hmid := (World.run_cases hbefore).1
    have hstamped : w.ids.nextRevision ≤ mid'.history.revision ∧
        mid'.history.revision < mid'.ids.nextRevision := by
      obtain ⟨-, ⟨hquiet, -⟩ | ⟨-, hnew, hlt'⟩⟩ := World.apply_cases hop
      · exact absurd hstamps hquiet
      · exact ⟨hmid.trans hnew, hlt'⟩
    have hold : w.ids.nextRevision ≤ w'.history.revision := by
      obtain ⟨-, ⟨hsame, -⟩ | hnew⟩ := World.run_cases hafter
      · rw [hsame]
        exact hstamped.1
      · exact hstamped.1.trans (hstamped.2.le.trans hnew)
    apply commitTraversal_stale
    rw [hrevision]
    exact (hlt.trans_le hold).ne'
  · intro ops w' hrun d h ids' hcommit
    obtain ⟨next', now, hrev, hnow, hchanges, hnext', rfl, hsteps, hcurrent, -⟩ :=
      commitTraversal_some hcommit
    have htimeline : w'.history.timeline = w.history.timeline := by
      obtain ⟨-, ⟨-, htimeline⟩ | hnew⟩ := World.run_cases hrun
      · exact htimeline
      · rw [hrev, hrevision] at hnew
        exact absurd hlt hnew.not_gt
    obtain ⟨next'', destination, hnext'', hdestination, -, -, -, -, hnowChanges⟩ :=
      planTraversal_eq_some hnow
    obtain rfl : next'' = next' := Option.mem_unique hnext'' hnext'
    have hindex : next'' = next := by
      rw [htarget, findIdx?_timeline htimeline, hnext] at hnext'
      exact (Option.some.inj hnext').symm
    have hentries : h.stepNow = destination := by
      apply stepNow_eq_of_getElem?
      rw [hsteps, hcurrent, hdestination]
    have hid : destination.id = plan.targetStep := by
      have hfound := (List.findIdx?_eq_some_iff_getElem.1 hnext').2.1
      rw [List.getElem?_eq_some_iff] at hdestination
      obtain ⟨hlt', rfl⟩ := hdestination
      simpa using hfound
    have hmem : ∀ change, change ∈ plan.changes ↔
        w'.history.entry change.context ≠ h.entry change.context ∧
          change.source = w'.history.entry change.context ∧
          change.destination = h.entry change.context := by
      intro change
      rw [← hchanges, hnowChanges, mem_changesBetween, JointSessionHistory.entry,
        JointSessionHistory.entry, hentries]
    refine ⟨hsteps, ?_, ?_, fun context => ⟨?_, ?_⟩⟩
    · rw [currentStep, hentries, hid, htarget]
    · have hcursor : w'.history.current = w.history.current := congrArg Prod.snd htimeline
      rw [hdelta, hcurrent, hcursor, hindex]
    · constructor
      · intro hne
        exact ⟨⟨context, w'.history.entry context, h.entry context⟩,
          (hmem _).2 ⟨hne, rfl, rfl⟩, rfl⟩
      · rintro ⟨change, hchange, rfl⟩
        exact ((hmem change).1 hchange).1
    · rintro change hchange rfl
      obtain ⟨-, hsource, hdest⟩ := (hmem change).1 hchange
      exact ⟨hsource.symm, hdest.symm⟩

theorem traversal_plans_back :
    ∃ w plan d h ids',
      Trace World.Step (.new ⟨0, 1, by decide⟩ ⟨1, 1⟩)
        [.attach 0 none ⟨"a", "page"⟩, .push 1 0 ⟨"b", "page"⟩] w ∧
      w.history.planTraversal 1 = some plan ∧
      w.history.commitTraversal w.ids plan = (some d, h, ids') ∧
      h.steps = w.history.steps ∧ h.currentStep = 1 ∧
      d = (h.current : Int) - w.history.current := by
  have hreach : Trace World.Step (.new ⟨0, 1, by decide⟩ ⟨1, 1⟩)
      [.attach 0 none ⟨"a", "page"⟩, .push 1 0 ⟨"b", "page"⟩] _ := .cons rfl (.cons rfl (.nil _))
  obtain ⟨-, hcommit⟩ := traversal_plans _ _ _ _ hreach 1 _ rfl
  obtain ⟨hsteps, htarget, hdelta, -⟩ := hcommit [] _ (.nil _) _ _ _ rfl
  exact ⟨_, _, _, _, _, hreach, rfl, rfl, hsteps, htarget, hdelta⟩

end Moli.SessionHistory
