import Moli.Lib.Outward
import Moli.SessionHistory.Joint

/-!
# The nearest step of an entry

`stepForEntry` searches outwards from the current step. It finds the nearest step of an entry as
long as the steps that hold the entry have no gap (`Gapless`), which most mutations keep. Two can
make a gap: attaching a context to steps that are apart, and a replacement that drops the entries of
a child from steps in the middle of those that hold one (`Smooth`).
-/

namespace Moli.SessionHistory

open Lib SessionHistoryStep List

variable {context other : SessionHistoryContextId} {key : NavigationHistoryEntryKey}
variable {entry : SessionHistoryEntry}

/-! ## What a step holds -/

namespace SessionHistoryStep

variable {step : SessionHistoryStep} {removed : List SessionHistoryContextId}

theorem holds_iff : step.holds context key = true ↔
    ∃ e, step.entries.find context = some e ∧ e.key = key := by
  rw [holds, Option.any_eq_true]
  simp only [beq_iff_eq]

theorem holds_unique {key' : NavigationHistoryEntryKey} (h : step.holds context key = true)
    (h' : step.holds context key' = true) : key = key' := by
  obtain ⟨e, he, rfl⟩ := holds_iff.1 h
  obtain ⟨e', he', rfl⟩ := holds_iff.1 h'
  rw [Option.mem_unique he he']

theorem holds_insert_self :
    ({ step with entries := step.entries.insert context entry } : SessionHistoryStep).holds context
      key = true ↔ entry.key = key := by
  rw [holds_iff, SortedMap.find_insert]
  simp

theorem holds_insert_other (hne : other ≠ context) :
    ({ step with entries := step.entries.insert context entry } : SessionHistoryStep).holds other
      key = step.holds other key := by
  rw [holds, holds, SortedMap.find_insert, if_neg hne]

theorem holds_without :
    (step.without removed).holds context key = true ↔
      context ∉ removed ∧ step.holds context key = true := by
  rw [holds, without, SortedMap.find_mapMaybe, holds]
  cases step.entries.find context with
  | none => simp
  | some e =>
    by_cases hmem : context ∈ removed
    · simp [hmem]
    · simp [hmem]

end SessionHistoryStep

variable {rounds : Nat} {pushed : JointSessionHistory × Ids} {ids : Ids}

namespace JointSessionHistory

variable {h : JointSessionHistory}

/-- The steps that hold a key for a context. -/
def held (h : JointSessionHistory) (context : SessionHistoryContextId)
    (key : NavigationHistoryEntryKey) : Set Nat :=
  places (·.holds context key) h.steps

theorem held_unique {i : Nat} {key' : NavigationHistoryEntryKey} (hi : i ∈ h.held context key)
    (hi' : i ∈ h.held context key') : key = key' := by
  obtain ⟨step, hstep, hholds⟩ := hi
  obtain ⟨step', hstep', hholds'⟩ := hi'
  obtain rfl := Option.mem_unique hstep hstep'
  exact holds_unique hholds hholds'

theorem getElem?_current (h : JointSessionHistory) : h.steps[h.current]? = some h.stepNow :=
  getElem?_eq_getElem h.current_lt

theorem current_mem_held : h.current ∈ h.held context key ↔
    ∃ e, h.entry context = some e ∧ e.key = key := by
  rw [held, mem_places, getElem?_current, JointSessionHistory.entry, ← holds_iff]
  simp

theorem mem_held_mapSteps {f : Nat → SessionHistoryStep → SessionHistoryStep} {i : Nat} :
    i ∈ (h.mapSteps f).held context key ↔
      ∃ step, h.steps[i]? = some step ∧ (f i step).holds context key = true := by
  rw [held, mem_places, mapSteps, getElem?_mapIdx]
  cases h.steps[i]? with
  | none => simp
  | some step => simp

/-! ## Nearest steps -/

/-- The answer for an entry is a nearest step that holds it, if there is one. -/
def FindsNearest (h : JointSessionHistory) (context : SessionHistoryContextId)
    (key : NavigationHistoryEntryKey) : Prop :=
  (h.stepForEntry context key = none ↔ ∀ step ∈ h.steps, step.holds context key = false) ∧
    ∀ id, h.stepForEntry context key = some id →
      ∃ i step, h.steps[i]? = some step ∧ step.id = id ∧ step.holds context key = true ∧
        ∀ j step', h.steps[j]? = some step' → step'.holds context key = true →
          Nat.dist i h.current ≤ Nat.dist j h.current

def Gapless (h : JointSessionHistory) : Prop := ∀ context key, (h.held context key).OrdConnected

theorem Gapless.findsNearest (hgapless : h.Gapless) (context : SessionHistoryContextId)
    (key : NavigationHistoryEntryKey) : h.FindsNearest context key := by
  have hsearch : h.stepForEntry context key =
      (outward (·.holds context key) h.steps h.current).map (·.id) := rfl
  constructor
  · rw [hsearch, Option.map_eq_none_iff, outward_eq_none]
  · intro id hid
    obtain ⟨step, hstep, rfl⟩ := Option.map_eq_some_iff.1 hid
    obtain ⟨i, hget, hholds, hnear⟩ := outward_nearest h.current_lt (hgapless context key) hstep
    exact ⟨i, step, hget, rfl, hholds, fun j step' hget' hholds' => hnear j ⟨step', hget', hholds'⟩⟩

/-! ## Attaching and detaching -/

/-- The steps that `attach` gives an entry. -/
def attached (h : JointSessionHistory) (context : SessionHistoryContextId)
    (parent : Option SessionHistoryContextId) : Set Nat :=
  {i | ∃ step, h.steps[i]? = some step ∧
    (i = h.current ∨ h.sameParentDocument parent step = true) ∧ step.entries.find context = none}

variable {parent : Option SessionHistoryContextId} {i : Nat} {step : SessionHistoryStep}

theorem holds_attachStep_self :
    (h.attachStep context parent entry i step).holds context key = true ↔
      step.holds context key = true ∨ key = entry.key ∧
        (i = h.current ∨ h.sameParentDocument parent step = true) ∧
        step.entries.find context = none := by
  unfold attachStep
  split_ifs with hadd
  · have hnone := Option.isNone_iff_eq_none.1 hadd.2
    have hempty : ¬ step.holds context key = true := fun hholds => by
      obtain ⟨e, he, -⟩ := holds_iff.1 hholds
      rw [hnone] at he
      cases he
    rw [holds_insert_self, eq_comm]
    exact ⟨fun hkey => .inr ⟨hkey, hadd.1, hnone⟩, fun hor => (hor.resolve_left hempty).1⟩
  · rw [Option.isNone_iff_eq_none] at hadd
    simp [hadd]

theorem holds_attachStep_other (hne : other ≠ context) :
    (h.attachStep context parent entry i step).holds other key = step.holds other key := by
  unfold attachStep
  split_ifs
  · exact holds_insert_other hne
  · rfl

theorem held_attach (hentry : h.entry context = none) :
    (h.attach context parent entry).held =
      (h.mapSteps (h.attachStep context parent entry)).held := by
  unfold attach
  rw [if_neg (by simp [hentry])]
  rfl

theorem held_attach_self (hentry : h.entry context = none) :
    (h.attach context parent entry).held context key =
      h.held context key ∪ {i | key = entry.key ∧ i ∈ h.attached context parent} := by
  ext i
  rw [held_attach hentry, mem_held_mapSteps]
  cases hstep : h.steps[i]? with
  | none => simp [held, mem_places, attached, hstep]
  | some step => simp [held, mem_places, attached, hstep, holds_attachStep_self]

theorem held_attach_other (hentry : h.entry context = none) (hne : other ≠ context) :
    (h.attach context parent entry).held other key = h.held other key := by
  ext i
  rw [held_attach hentry, mem_held_mapSteps]
  simp only [holds_attachStep_other hne]
  rfl

theorem held_detach {h' : JointSessionHistory} (hdetach : h.detach rounds context = some h') :
    ∃ removed : List SessionHistoryContextId, ∀ other key,
      h'.held other key = {i | other ∉ removed ∧ i ∈ h.held other key} := by
  simp only [detach, Option.bind_eq_bind, Option.bind_eq_some_iff] at hdetach
  obtain ⟨removed, -, hdetach⟩ := hdetach
  split_ifs at hdetach
  · cases hdetach
    exact ⟨[], fun other key => by simp⟩
  · cases hdetach
    refine ⟨removed ++ [context], fun other key => ?_⟩
    ext i
    refine mem_held_mapSteps.trans ?_
    cases hstep : h.steps[i]? with
    | none => simp [held, mem_places, hstep]
    | some step => simp [held, mem_places, hstep, holds_without]

/-! ## The timeline -/

/-- A push adds one step at the end of the timeline; only its own context holds something new
there. -/
theorem mem_held_push (hpush : h.push ids rounds context entry = some pushed)
    (hi : i ∈ pushed.1.held other key) :
    i ≤ h.current ∧ i ∈ h.held other key ∨
      i = h.current + 1 ∧
        if other = context then key = entry.key else h.current ∈ h.held other key := by
  simp only [push, Option.bind_eq_bind, Option.bind_eq_some_iff, Option.pure_def,
    Option.some.injEq] at hpush
  obtain ⟨next, hnext, rfl⟩ := hpush
  obtain ⟨step, hstep, hholds⟩ := hi
  have hcurrent := h.current_lt
  have hlen : (h.steps.take (h.current + 1)).length = h.current + 1 := by
    rw [length_take]
    omega
  rcases Nat.lt_or_ge h.current i with hlt | hge
  · right
    rw [getElem?_append_right (by omega), hlen] at hstep
    have hi : i = h.current + 1 := by
      obtain ⟨hbound, -⟩ := List.getElem?_eq_some_iff.1 hstep
      rw [List.length_singleton] at hbound
      omega
    refine ⟨hi, ?_⟩
    rw [hi, Nat.sub_self] at hstep
    cases hstep
    split_ifs with hother
    · subst hother
      exact (holds_insert_self.1 hholds).symm
    · have hnow : next.holds other key = true :=
        (holds_insert_other hother).symm.trans hholds
      refine ⟨h.stepNow, h.getElem?_current, ?_⟩
      unfold removeReplacedDocumentChildren at hnext
      split_ifs at hnext
      · obtain ⟨removed, -, rfl⟩ := Option.map_eq_some_iff.1 hnext
        exact (holds_without.1 hnow).2
      · cases hnext
        exact hnow
  · left
    rw [getElem?_append_left (by omega), getElem?_take_of_lt (by omega)] at hstep
    exact ⟨hge, step, hstep, hholds⟩

theorem mem_held_push_of_le (hpush : h.push ids rounds context entry = some pushed)
    (hle : i ≤ h.current) (hi : i ∈ h.held other key) : i ∈ pushed.1.held other key := by
  simp only [push, Option.bind_eq_bind, Option.bind_eq_some_iff, Option.pure_def,
    Option.some.injEq] at hpush
  obtain ⟨next, -, rfl⟩ := hpush
  obtain ⟨step, hstep, hholds⟩ := hi
  refine ⟨step, ?_, hholds⟩
  have hcurrent := h.current_lt
  rw [getElem?_append_left (by rw [length_take]; omega),
    getElem?_take_of_lt (by omega), hstep]

/-- The steps from which a replacement drops the descendants of its context. -/
def dropped (h : JointSessionHistory) (context : SessionHistoryContextId)
    (entry : SessionHistoryEntry) : Set Nat :=
  {i | ∃ step, h.steps[i]? = some step ∧ h.shares context i step = true ∧
    supersedes entry context step = true}

/-- The steps that a replacement changes. -/
def sharing (h : JointSessionHistory) (context : SessionHistoryContextId) : Set Nat :=
  {i | ∃ step, h.steps[i]? = some step ∧ h.shares context i step = true}

variable {descendants : List SessionHistoryContextId}

theorem held_replaceStep_self :
    (h.mapSteps (h.replaceStep descendants context entry)).held context key =
      {i | key = entry.key ∧ i ∈ h.sharing context} ∪ (h.held context key \ h.sharing context) := by
  ext i
  rw [mem_held_mapSteps]
  cases hstep : h.steps[i]? with
  | none => simp [held, mem_places, sharing, hstep]
  | some step =>
    by_cases hshares : h.shares context i step = true
    · simp [sharing, hstep, replaceStep, hshares, holds_insert_self, eq_comm (a := key)]
    · simp [held, mem_places, sharing, hstep, replaceStep, hshares]

theorem held_replaceStep_other (hne : other ≠ context) :
    (h.mapSteps (h.replaceStep descendants context entry)).held other key =
      if other ∈ descendants then h.held other key \ h.dropped context entry
      else h.held other key := by
  have hholds_iff : ∀ i step, (h.replaceStep descendants context entry i step).holds other key ↔
      step.holds other key ∧ ¬ (other ∈ descendants ∧ h.shares context i step = true ∧
        supersedes entry context step = true) := by
    intro i step
    unfold replaceStep
    split_ifs with hshares hsuper
    · rw [holds_insert_other hne, holds_without]
      simp [hshares, hsuper, and_comm]
    · rw [holds_insert_other hne]
      simp [hsuper]
    · simp [hshares]
  ext i
  rw [mem_held_mapSteps]
  cases hstep : h.steps[i]? with
  | none => split_ifs <;> simp [held, mem_places, hstep]
  | some step => split_ifs with hdesc <;> simp [held, mem_places, dropped, hstep, hholds_iff, hdesc]

/-- The steps that share an entry are those of its key; without an entry it is the current one. -/
theorem sharing_eq : h.sharing context =
    match h.entry context with
    | some old => h.held context old.key
    | none => {h.current} := by
  ext i
  cases hentry : h.entry context with
  | some old =>
    have hcurrent : h.current ∈ h.held context old.key := current_mem_held.2 ⟨old, hentry, rfl⟩
    constructor
    · rintro ⟨step, hstep, hshares⟩
      simp only [shares, hentry, Bool.or_eq_true, beq_iff_eq] at hshares
      rcases hshares with rfl | hholds
      · exact hcurrent
      · exact ⟨step, hstep, hholds⟩
    · rintro ⟨step, hstep, hholds⟩
      exact ⟨step, hstep, by simp [shares, hentry, hholds]⟩
  | none =>
    constructor
    · rintro ⟨step, hstep, hshares⟩
      simpa [shares, hentry] using hshares
    · rintro rfl
      exact ⟨h.stepNow, h.getElem?_current, by simp [shares]⟩

/-- Steps that share the replaced entry hold no other key of its context. -/
theorem held_diff_sharing (key : NavigationHistoryEntryKey) :
    h.held context key \ h.sharing context = h.held context key ∨
      h.held context key = h.sharing context := by
  rw [sharing_eq]
  cases hentry : h.entry context with
  | some old =>
    by_cases hkey : key = old.key
    · exact .inr (by rw [hkey])
    · refine .inl (sdiff_eq_left.2 (Set.disjoint_left.2 fun i hi hold => ?_))
      exact hkey (held_unique hi hold)
  | none =>
    refine .inl (Set.sdiff_singleton_eq_self fun hcurrent => ?_)
    obtain ⟨e, he, -⟩ := current_mem_held.1 hcurrent
    rw [hentry] at he
    cases he

end JointSessionHistory

/-! ## Runs -/

namespace Op

def keys : Op → List NavigationHistoryEntryKey
  | .attach _ _ entry => [entry.key]
  | .push _ _ entry => [entry.key]
  | .replace _ _ entry => [entry.key]
  | _ => []

def documents : Op → List NavigationHistoryDocumentId
  | .attach _ _ entry => [entry.document]
  | .push _ _ entry => [entry.document]
  | .replace _ _ entry => [entry.document]
  | _ => []

/-- A pushed entry has a new key, and a new document unless it keeps the one it supersedes; a
replacement keeps the key or has a new one. -/
def Disciplined (past : List Op) (w : World) : Op → Prop
  | .push _ context entry =>
    entry.key ∉ past.flatMap keys ∧
      ∀ old ∈ w.history.entry context, old.document ≠ entry.document →
        entry.document ∉ past.flatMap documents
  | .replace _ context entry =>
    (∃ old ∈ w.history.entry context, entry.key = old.key) ∨ entry.key ∉ past.flatMap keys
  | _ => True

instance decidableDisciplined (past : List Op) (w : World) (op : Op) :
    Decidable (op.Disciplined past w) := by
  cases op <;> unfold Disciplined <;> infer_instance

/-- An attached entry leaves no gap between the steps it is for, and a replacement does not drop the
entry of a descendant between two steps that keep it. -/
def Smooth (w : World) : Op → Prop
  | .attach context parent entry =>
    w.history.entry context = none →
      (w.history.held context entry.key ∪ w.history.attached context parent).OrdConnected
  | .replace rounds context entry =>
    w.history.entry context ≠ some entry →
      ∀ descendants, w.history.descendants rounds context = some descendants →
        ∀ other ∈ descendants, ∀ key,
          (w.history.held other key \ w.history.dropped context entry).OrdConnected
  | _ => True

end Op

/-- A run, with the mutations so far. -/
def DisciplinedStep (s : List Op × World) (op : Op) (s' : List Op × World) : Prop :=
  op.Disciplined s.1 s.2 ∧ s.2.Step op s'.2 ∧ s'.1 = s.1 ++ [op]

theorem DisciplinedStep.of_apply {past : List Op} {w w' : World} {op : Op}
    (hop : op.Disciplined past w) (happly : w.apply op = some w') :
    DisciplinedStep (past, w) op (past ++ [op], w') :=
  ⟨hop, happly, rfl⟩

open JointSessionHistory

/-- No gaps, and every key that is held was used. -/
structure Laid (past : List Op) (h : JointSessionHistory) : Prop where
  gapless : h.Gapless
  used : ∀ i context key, i ∈ h.held context key → key ∈ past.flatMap Op.keys

namespace Laid

variable {past : List Op} {h h' : JointSessionHistory} {op : Op}

section
variable (hlaid : Laid past h)
include hlaid

theorem held_eq_empty (hnew : key ∉ past.flatMap Op.keys) : h.held context key = ∅ := by
  apply Set.eq_empty_of_forall_notMem
  intro i hi
  exact hnew (hlaid.used i context key hi)

/-- A change after which nothing else is held. -/
theorem of_subset (hgapless : h'.Gapless)
    (hsub : ∀ i context key, i ∈ h'.held context key →
      (∃ j, j ∈ h.held context key) ∨ key ∈ op.keys) :
    Laid (past ++ [op]) h' where
  gapless := hgapless
  used i context key hi := by
    rw [flatMap_append, mem_append]
    rcases hsub i context key hi with ⟨j, hj⟩ | hkey
    · exact .inl (hlaid.used j context key hj)
    · exact .inr (by simpa using hkey)

theorem attach {parent : Option SessionHistoryContextId}
    (hsmooth : h.entry context = none →
      (h.held context entry.key ∪ h.attached context parent).OrdConnected) :
    Laid (past ++ [.attach context parent entry]) (h.attach context parent entry) := by
  by_cases hentry : h.entry context = none
  · refine hlaid.of_subset (fun other key => ?_) fun i other key hi => ?_
    · by_cases hother : other = context
      · subst hother
        rw [held_attach_self hentry]
        by_cases hkey : key = entry.key
        · subst hkey
          simpa using hsmooth hentry
        · simpa [hkey] using hlaid.gapless other key
      · rw [held_attach_other hentry hother]
        exact hlaid.gapless other key
    · by_cases hother : other = context
      · subst hother
        rw [held_attach_self hentry] at hi
        rcases hi with hi | ⟨rfl, -⟩
        · exact .inl ⟨i, hi⟩
        · exact .inr mem_cons_self
      · rw [held_attach_other hentry hother] at hi
        exact .inl ⟨i, hi⟩
  · have hsame : h.attach context parent entry = h := by
      unfold JointSessionHistory.attach
      rw [if_pos (Option.isSome_iff_ne_none.2 hentry)]
    rw [hsame]
    exact hlaid.of_subset hlaid.gapless fun i _ _ hi => .inl ⟨i, hi⟩

theorem detach (hdetach : h.detach rounds context = some h') :
    Laid (past ++ [.detach rounds context]) h' := by
  obtain ⟨removed, hheld⟩ := held_detach hdetach
  refine hlaid.of_subset (fun other key => ?_) fun i other key hi => ?_
  · rw [hheld]
    by_cases hother : other ∈ removed
    · simpa [hother] using Set.ordConnected_empty
    · simpa [hother] using hlaid.gapless other key
  · rw [hheld] at hi
    exact .inl ⟨i, hi.2⟩

theorem push (hnew : entry.key ∉ past.flatMap Op.keys)
    (hpush : h.push ids rounds context entry = some pushed) :
    Laid (past ++ [.push rounds context entry]) pushed.1 := by
  refine hlaid.of_subset (fun other key => ⟨fun x hx y hy z hz => ?_⟩) fun i other key hi => ?_
  · rcases mem_held_push hpush hy with ⟨hyle, hy⟩ | ⟨rfl, hlast⟩
    · rcases mem_held_push hpush hx with ⟨-, hx⟩ | ⟨rfl, -⟩
      · have hz' := (hlaid.gapless other key).out hx hy hz
        exact mem_held_push_of_le hpush (hz.2.trans hyle) hz'
      · have := hz.1.trans (hz.2.trans hyle)
        omega
    · -- the new step is the last one
      rcases Nat.lt_or_ge h.current z with hlt | hle
      · rwa [show z = h.current + 1 from le_antisymm hz.2 hlt]
      · rcases mem_held_push hpush hx with ⟨-, hx⟩ | ⟨rfl, -⟩
        · split_ifs at hlast with hother
          · rw [hlast, hlaid.held_eq_empty hnew] at hx
            cases hx
          · exact mem_held_push_of_le hpush hle ((hlaid.gapless other key).out hx hlast ⟨hz.1, hle⟩)
        · have := hz.1.trans hle
          omega
  · rcases mem_held_push hpush hi with ⟨-, hi⟩ | ⟨-, hlast⟩
    · exact .inl ⟨i, hi⟩
    · split_ifs at hlast
      · exact .inr (by simp [Op.keys, hlast])
      · exact .inl ⟨_, hlast⟩

theorem sharing_ordConnected : (h.sharing context).OrdConnected := by
  rw [sharing_eq]
  cases h.entry context with
  | some old => exact hlaid.gapless context old.key
  | none => exact Set.ordConnected_singleton

theorem held_replaced_self (descendants : List SessionHistoryContextId)
    (hkey : (∃ old, h.entry context = some old ∧ entry.key = old.key) ∨
      entry.key ∉ past.flatMap Op.keys)
    (key : NavigationHistoryEntryKey) :
    ((h.mapSteps (h.replaceStep descendants context entry)).held context key).OrdConnected := by
  rw [held_replaceStep_self]
  by_cases hsame : key = entry.key
  · have hsub : h.held context key ⊆ h.sharing context := by
      rw [hsame]
      rcases hkey with ⟨old, hentry, hold⟩ | hnew
      · rw [sharing_eq, hentry, hold]
      · rw [hlaid.held_eq_empty hnew]
        exact Set.empty_subset _
    simpa [hsame, Set.sdiff_eq_empty.2 (hsame ▸ hsub)] using hlaid.sharing_ordConnected
  · simp only [hsame, false_and, Set.ofPred_false, Set.empty_union]
    rcases h.held_diff_sharing key with hdiff | heq
    · rw [hdiff]
      exact hlaid.gapless context key
    · rw [heq, Set.sdiff_self]
      exact Set.ordConnected_empty

theorem replace {replaced : JointSessionHistory × Ids}
    (hkey : (∃ old, h.entry context = some old ∧ entry.key = old.key) ∨
      entry.key ∉ past.flatMap Op.keys)
    (hsmooth : h.entry context ≠ some entry → ∀ descendants,
      h.descendants rounds context = some descendants →
        ∀ other ∈ descendants, ∀ key, (h.held other key \ h.dropped context entry).OrdConnected)
    (hreplace : h.replace ids rounds context entry = some replaced) :
    Laid (past ++ [.replace rounds context entry]) replaced.1 := by
  unfold JointSessionHistory.replace at hreplace
  split_ifs at hreplace with hsame
  · cases hreplace
    exact hlaid.of_subset hlaid.gapless fun i _ _ hi => .inl ⟨i, hi⟩
  · simp only [Option.bind_eq_bind, Option.bind_eq_some_iff, Option.pure_def,
      Option.some.injEq] at hreplace
    obtain ⟨descendants, hdesc, rfl⟩ := hreplace
    refine hlaid.of_subset (fun other key => ?_) fun i other key hi => ?_
    · change ((h.mapSteps (h.replaceStep descendants context entry)).held other key).OrdConnected
      by_cases hother : other = context
      · subst hother
        exact hlaid.held_replaced_self descendants hkey key
      · rw [held_replaceStep_other hother]
        split_ifs with hmem
        · exact hsmooth hsame descendants hdesc other hmem key
        · exact hlaid.gapless other key
    · have hmem : i ∈ (h.mapSteps (h.replaceStep descendants context entry)).held other key := hi
      by_cases hother : other = context
      · subst hother
        rw [held_replaceStep_self] at hmem
        rcases hmem with ⟨rfl, -⟩ | ⟨hold, -⟩
        · exact .inr mem_cons_self
        · exact .inl ⟨i, hold⟩
      · rw [held_replaceStep_other hother] at hmem
        split_ifs at hmem
        · exact .inl ⟨i, hmem.1⟩
        · exact .inl ⟨i, hmem⟩

theorem prune : Laid (past ++ [.pruneAllButCurrent]) (h.pruneAllButCurrent ids).1 := by
  unfold pruneAllButCurrent
  split_ifs
  · exact hlaid.of_subset hlaid.gapless fun i _ _ hi => .inl ⟨i, hi⟩
  · have hone : ∀ i context key, i ∈ places (·.holds context key) [h.stepNow] →
        i = 0 ∧ h.current ∈ h.held context key := by
      rintro i context key ⟨step, hstep, hholds⟩
      obtain ⟨hi, rfl⟩ := List.getElem?_eq_some_iff.1 hstep
      obtain rfl : i = 0 := by simpa using hi
      exact ⟨rfl, h.stepNow, h.getElem?_current, hholds⟩
    refine hlaid.of_subset (fun context key => ⟨fun x hx y hy z hz => ?_⟩) fun i context key hi =>
      ?_
    · obtain ⟨rfl, -⟩ := hone x context key hx
      obtain ⟨rfl, -⟩ := hone y context key hy
      rwa [show z = 0 from Nat.le_zero.1 hz.2]
    · exact .inl ⟨_, (hone i context key hi).2⟩

theorem commit {plan : SessionHistoryTraversalPlan} :
    Laid (past ++ [.commitTraversal plan]) (h.commitTraversal ids plan).2.1 := by
  have hsteps : (h.commitTraversal ids plan).2.1.held = h.held := by
    unfold commitTraversal
    dsimp only
    split_ifs <;> rfl
  refine hlaid.of_subset (fun context key => ?_) fun i context key hi => ?_
  · rw [hsteps]
    exact hlaid.gapless context key
  · rw [hsteps] at hi
    exact .inl ⟨i, hi⟩

end

theorem new (position : SessionHistoryPosition) (ids : Ids) :
    Laid [] (JointSessionHistory.new position ids).1 := by
  have hempty : ∀ i context key, i ∉ (JointSessionHistory.new position ids).1.held context key := by
    rintro i context key ⟨step, hstep, hholds⟩
    obtain ⟨j, -, rfl⟩ := mem_map.1 (mem_of_getElem? hstep)
    cases hholds
  constructor
  · exact fun context key => ⟨fun x hx => absurd hx (hempty x context key)⟩
  · exact fun i context key hi => absurd hi (hempty i context key)

theorem step {w w' : World} (hlaid : Laid past w.history) (hop : op.Disciplined past w)
    (hsmooth : op.Smooth w) (hstep : w.Step op w') : Laid (past ++ [op]) w'.history := by
  cases op with
  | attach context parent entry =>
    cases hstep
    exact hlaid.attach hsmooth
  | detach rounds context =>
    obtain ⟨h', hdetach, rfl⟩ := Option.map_eq_some_iff.1 hstep
    exact hlaid.detach hdetach
  | push rounds context entry =>
    obtain ⟨pushed, hpush, rfl⟩ := Option.map_eq_some_iff.1 hstep
    exact hlaid.push hop.1 hpush
  | replace rounds context entry =>
    obtain ⟨replaced, hreplace, rfl⟩ := Option.map_eq_some_iff.1 hstep
    exact hlaid.replace hop hsmooth hreplace
  | pruneAllButCurrent =>
    cases hstep
    exact hlaid.prune
  | commitTraversal plan =>
    cases hstep
    exact hlaid.commit
  | elsewhere steps revisions =>
    cases hstep
    exact hlaid.of_subset hlaid.gapless fun i _ _ hi => .inl ⟨i, hi⟩

end Laid

/-- In a run without gaps every entry is found at a nearest step. -/
theorem smooth_run_findsNearest (position : SessionHistoryPosition) (ids : Ids) (ops past : List Op)
    (w : World)
    (hrun : Trace (fun s op s' => DisciplinedStep s op s' ∧ op.Smooth s.2)
      ([], .new position ids) ops (past, w))
    (context : SessionHistoryContextId) (key : NavigationHistoryEntryKey) :
    w.history.FindsNearest context key := by
  have hlaid : Laid past w.history := by
    refine hrun.invariant (P := fun s => Laid s.1 s.2.history) (fun s op s' hs hstep => ?_)
      (Laid.new position ids)
    obtain ⟨⟨hop, happly, hpast⟩, hsmooth⟩ := hstep
    rw [hpast]
    exact hs.step hop hsmooth happly
  exact hlaid.gapless.findsNearest context key

/-- Two pushes, a traversal back and a replacement there. -/
def replacedBehind : List Op :=
  [.push 2 0 ⟨"a", "page"⟩, .push 2 0 ⟨"b", "page"⟩,
    .commitTraversal ⟨3, 3, 2, -1, [⟨0, some ⟨"b", "page"⟩, some ⟨"a", "page"⟩⟩],
      ⟨[(0, ⟨"a", "page"⟩)], by decide⟩⟩,
    .replace 2 0 ⟨"c", "other"⟩]

/-- The pushed entry is found ahead, and the replaced one nowhere. -/
theorem smooth_run_findsNearest_replaced :
    ∃ past w, Trace (fun s op s' => DisciplinedStep s op s' ∧ op.Smooth s.2)
      ([], .new ⟨0, 1, by decide⟩ ⟨1, 1⟩) replacedBehind (past, w) ∧
      w.history.current = 1 ∧ w.history.stepForEntry 0 "b" = some 3 ∧
      w.history.stepForEntry 0 "a" = none ∧ ∀ key, w.history.FindsNearest 0 key := by
  have hrun : Trace (fun s op s' => DisciplinedStep s op s' ∧ op.Smooth s.2)
      ([], .new ⟨0, 1, by decide⟩ ⟨1, 1⟩) replacedBehind (_, _) :=
    .cons ⟨.of_apply (by decide) rfl, trivial⟩ <|
    .cons ⟨.of_apply (by decide) rfl, trivial⟩ <|
    .cons ⟨.of_apply (by decide) rfl, trivial⟩ <|
    .cons ⟨.of_apply (by decide) rfl, fun _ _ hdescendants _ hother => by
      cases hdescendants
      cases hother⟩ <| .nil _
  exact ⟨_, _, hrun, rfl, by decide, by decide, smooth_run_findsNearest _ _ _ _ _ hrun 0⟩

/-! ## A replacement in the middle

The page `0` has the frames `1` and `2` and three entries in one document; the second one spans two
steps since frame `2` navigates in between. A replacement of this entry with another document drops
the frames from both steps, so that the entry of frame `1` has a gap. -/

def pushes : List Op :=
  [.attach 0 none ⟨"top0", "page"⟩, .attach 1 (some 0) ⟨"frame", "one"⟩,
    .attach 2 (some 0) ⟨"other0", "two"⟩, .push 9 0 ⟨"top1", "page"⟩, .push 9 2 ⟨"other1", "two"⟩,
    .push 9 0 ⟨"top2", "page"⟩]

/-- The traversal from the last step to the one before. -/
def back : SessionHistoryTraversalPlan where
  revision := 4
  sourceStep := 4
  targetStep := 3
  delta := -1
  changes := [⟨0, some ⟨"top2", "page"⟩, some ⟨"top1", "page"⟩⟩]
  targetEntries :=
    ⟨[(0, ⟨"top1", "page"⟩), (1, ⟨"frame", "one"⟩), (2, ⟨"other1", "two"⟩)], by decide⟩

/-- The search finds a step two away although the next step holds the entry. -/
theorem replace_leaves_gap :
    ∃ past w, Trace DisciplinedStep ([], .new ⟨0, 1, by decide⟩ ⟨1, 1⟩)
        (pushes ++ [.commitTraversal back, .replace 9 0 ⟨"top1", "new"⟩]) (past, w) ∧
      w.history.current = 2 ∧ w.history.stepForEntry 1 "frame" = some 1 ∧
      w.history.steps.map (fun step => (step.id, step.holds 1 "frame")) =
        [(1, true), (2, false), (3, false), (4, true)] ∧
      ¬ w.history.FindsNearest 1 "frame" := by
  have hrun : Trace DisciplinedStep ([], .new ⟨0, 1, by decide⟩ ⟨1, 1⟩)
      (pushes ++ [.commitTraversal back, .replace 9 0 ⟨"top1", "new"⟩]) (_, _) :=
    .cons (.of_apply (by decide) rfl) <|
    .cons (.of_apply (by decide) rfl) <|
    .cons (.of_apply (by decide) rfl) <|
    .cons (.of_apply (by decide) rfl) <|
    .cons (.of_apply (by decide) rfl) <|
    .cons (.of_apply (by decide) rfl) <|
    .cons (.of_apply (by decide) rfl) <|
    .cons (.of_apply (by decide) rfl) <| .nil _
  refine ⟨_, _, hrun, rfl, by decide, by decide, fun hnearest => ?_⟩
  obtain ⟨i, step, hget, hid, -, hnear⟩ := hnearest.2 1 (by decide)
  have hfar := hnear 3 _ rfl (by decide)
  rcases i with _ | _ | _ | _ | i
  · exact absurd hfar (by decide)
  all_goals cases hget
  all_goals exact absurd hid (by decide)

end Moli.SessionHistory
