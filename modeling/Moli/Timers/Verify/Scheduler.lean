import Moli.Lib.Ensures
import Moli.Timers.Verify.Reference

/-!
# The scheduler refines the map of live timers

The invariant `Inv`: every live id has one entry in the heap, no dead entry shares its id, and the
ids handed out are those below the next one. Every step of a legal run is a step of the reference
timers, and `timer_scheduler_refines_reference` draws the conclusions for whole runs.
-/

namespace Moli.Timers

open Lib Reference ScheduledTimer List

variable {T : Type}

/-! ## The order of the heap -/

namespace ScheduledTimer

variable {timer other : ScheduledTimer T}

def key (timer : ScheduledTimer T) : Nat ×ₗ Nat := timer.occurrence.key

theorem precedes_iff : timer.precedes other = true ↔ timer.key < other.key := by
  rw [key, key, Occurrence.key, Occurrence.key, Prod.Lex.toLex_lt_toLex, precedes]
  rcases lt_trichotomy timer.runAt other.runAt with hlt | heq | hgt
  · rw [compare_lt_iff_lt.2 hlt]
    simp [occurrence, hlt]
  · rw [compare_eq_iff_eq.2 heq]
    simp [occurrence, heq]
  · rw [compare_gt_iff_gt.2 hgt]
    simp [occurrence, hgt.not_gt, hgt.ne']

/-- The heap's order is the one of `timer_precedes`. -/
theorem cmp_eq_precedes : (timer.cmp other == .gt) = timer.precedes other := by
  unfold cmp precedes
  rw [Bool.eq_iff_iff]
  cases compare timer.runAt other.runAt <;> simp [compare_lt_iff_lt]

theorem byKey_precedes : ByKey (precedes (T := T)) key := ⟨fun _ _ => precedes_iff⟩

theorem byKey_cmp : ByKey (fun timer other : ScheduledTimer T => timer.cmp other == .gt) key :=
  ⟨fun _ _ => cmp_eq_precedes ▸ precedes_iff⟩

theorem runAt_le_of_key_le (h : timer.key ≤ other.key) : timer.runAt ≤ other.runAt := by
  rw [key, key, Occurrence.key, Occurrence.key, Prod.Lex.toLex_le_toLex] at h
  rcases h with hlt | ⟨heq, -⟩
  · exact hlt.le
  · exact heq.le

end ScheduledTimer

namespace TimerScheduler

variable {s s' : TimerScheduler T} {t t' : ScheduledTimer T} {id : TimerId} {o : Occurrence T}

/-! ## Live entries -/

structure Live (s : TimerScheduler T) (t : ScheduledTimer T) : Prop where
  pending : t ∈ s.pending
  active : t.id ∈ s.active

/-- No two entries of the heap share an id. -/
def Distinct (pending : List (ScheduledTimer T)) : Prop := (pending.map (·.id)).Nodup

variable {pending : List (ScheduledTimer T)} {payload : T} {delayMs : Nat} {now : Instant}

theorem Distinct.eq (h : Distinct pending) (ht : t ∈ pending) (ht' : t' ∈ pending)
    (hid : t.id = t'.id) : t = t' :=
  inj_on_of_nodup_map h ht ht' hid

theorem find?_eq_some (h : Distinct s.pending) :
    s.pending.find? (·.id = id) = some t ↔ t ∈ s.pending ∧ t.id = id := by
  constructor
  · intro hfind
    exact ⟨mem_of_find?_eq_some hfind, by simpa using find?_some hfind⟩
  · rintro ⟨hmem, rfl⟩
    cases hfind : s.pending.find? (·.id = t.id) with
    | none => exact absurd (find?_eq_none.1 hfind t hmem) (by simp)
    | some t' =>
      have hid : t'.id = t.id := by simpa using find?_some hfind
      rw [h.eq (mem_of_find?_eq_some hfind) hmem hid]

theorem reference_live (h : Distinct s.pending) :
    s.reference.live id = some o ↔ ∃ t, s.Live t ∧ t.id = id ∧ t.occurrence = o := by
  rw [reference]
  dsimp only
  split
  · next hactive =>
    rw [Option.map_eq_some_iff]
    refine exists_congr fun t => ?_
    rw [find?_eq_some h]
    constructor
    · rintro ⟨⟨hmem, rfl⟩, ho⟩
      exact ⟨⟨hmem, hactive⟩, rfl, ho⟩
    · rintro ⟨hlive, hid, ho⟩
      exact ⟨⟨hlive.pending, hid⟩, ho⟩
  · next hactive =>
    refine ⟨fun hnone => (nomatch hnone), ?_⟩
    rintro ⟨t, hlive, rfl, -⟩
    exact absurd hlive.active hactive

theorem live_ext {live live' : TimerId → Option (Occurrence T)}
    (h : ∀ id o, live id = some o ↔ live' id = some o) : live = live' :=
  funext fun id => Option.ext (h id)

theorem reference_discard (h : Distinct s.pending) (h' : Distinct s'.pending)
    (hlive : ∀ t, s'.Live t ↔ s.Live t ∧ t.id ≠ id) :
    s'.reference.live = (s.reference.discard id).live := by
  refine live_ext fun id' o => ?_
  rw [discard_live, reference_live h']
  constructor
  · rintro ⟨t, ht, rfl, rfl⟩
    obtain ⟨hold, hne⟩ := (hlive t).1 ht
    exact (if_neg hne).trans ((reference_live h).2 ⟨t, hold, rfl, rfl⟩)
  · intro ho
    split_ifs at ho with hid
    obtain ⟨t, ht, rfl, rfl⟩ := (reference_live h).1 ho
    exact ⟨t, (hlive t).2 ⟨ht, hid⟩, rfl, rfl⟩

theorem reference_schedule (h : Distinct s.pending) (h' : Distinct s'.pending)
    (new : ScheduledTimer T) (hlive : ∀ t, s'.Live t ↔ t = new ∨ s.Live t)
    (hfresh : ∀ t, s.Live t → t.id ≠ new.id) (hsequence : new.sequence = s.nextSequence) :
    s'.reference.live =
      (s.reference.schedule new.id new.runAt new.delayMs new.payload).live := by
  refine live_ext fun id' o => ?_
  have hnew : new.occurrence = ⟨new.runAt, s.nextSequence, new.delayMs, new.payload⟩ := by
    rw [← hsequence]
    rfl
  rw [schedule_live, reference_live h']
  constructor
  · rintro ⟨t, ht, rfl, rfl⟩
    rcases (hlive t).1 ht with rfl | hold
    · exact (if_pos rfl).trans (congrArg some hnew.symm)
    · exact (if_neg (hfresh t hold)).trans ((reference_live h).2 ⟨t, hold, rfl, rfl⟩)
  · intro ho
    split_ifs at ho with hid
    · exact ⟨new, (hlive new).2 (.inl rfl), hid.symm, hnew.trans (Option.some.inj ho)⟩
    · obtain ⟨t, ht, rfl, rfl⟩ := (reference_live h).1 ho
      exact ⟨t, (hlive t).2 (.inr ht), rfl, rfl⟩

/-! ## Taking an entry out of the heap -/

/-- The entries that are gone are dead. -/
def Shed (active : Finset TimerId) (pending pending' : List (ScheduledTimer T)) : Prop :=
  ∃ dead, pending.Perm (dead ++ pending') ∧ ∀ t ∈ dead, t.id ∉ active

namespace Shed

variable {active : Finset TimerId} {pending pending' : List (ScheduledTimer T)}

theorem refl : Shed active pending pending := ⟨[], .refl _, fun _ h => (nomatch h)⟩

theorem of_perm (h : pending.Perm pending') : Shed active pending pending' :=
  ⟨[], h, fun _ h => (nomatch h)⟩

theorem cons (hperm : pending.Perm (t :: pending')) (ht : t.id ∉ active)
    {pending'' : List (ScheduledTimer T)} (h : Shed active pending' pending'') :
    Shed active pending pending'' := by
  obtain ⟨dead, hdead, hgone⟩ := h
  exact ⟨t :: dead, hperm.trans (hdead.cons t), forall_mem_cons.2 ⟨ht, hgone⟩⟩

theorem mem (h : Shed active pending pending') (ht : t ∈ pending') : t ∈ pending := by
  obtain ⟨dead, hperm, -⟩ := h
  exact hperm.mem_iff.2 (mem_append_right _ ht)

theorem mem_of_active (h : Shed active pending pending') (ht : t ∈ pending)
    (hactive : t.id ∈ active) : t ∈ pending' := by
  obtain ⟨dead, hperm, hgone⟩ := h
  rcases mem_append.1 (hperm.mem_iff.1 ht) with hdead | ht
  · exact absurd hactive (hgone t hdead)
  · exact ht

theorem distinct (h : Shed active pending pending') (hdistinct : Distinct pending) :
    Distinct pending' := by
  obtain ⟨dead, hperm, -⟩ := h
  have hnodup := (hperm.map ScheduledTimer.id).nodup_iff.1 hdistinct
  rw [map_append] at hnodup
  exact (nodup_append.1 hnodup).2.1

end Shed

/-- The call has taken `t` out of the heap, and maybe some dead entries. -/
structure Taken (s : TimerScheduler T) (t : ScheduledTimer T) (s' : TimerScheduler T) : Prop where
  active : t.id ∈ s.active
  started : ∃ pending, Shed s.active s.pending (t :: pending) ∧ s' = { s with pending }.start t

/-- The loop takes the first live timer if it is due, and otherwise none is. -/
theorem takeNextReadyLoop_spec (now : Instant) {fuel : Nat} (hfuel : s.pending.length < fuel) :
    (takeNextReadyLoop now fuel s).1 = none ∧ (∀ t, s.Live t → now < t.runAt) ∧
        (∃ pending, Shed s.active s.pending pending ∧
          (takeNextReadyLoop now fuel s).2 = { s with pending }) ∨
      ∃ t, (takeNextReadyLoop now fuel s).1 = some t.ready ∧ t.runAt ≤ now ∧
        (∀ t', s.Live t' → t.key ≤ t'.key) ∧ s.Taken t (takeNextReadyLoop now fuel s).2 := by
  induction fuel generalizing s with
  | zero => exact absurd hfuel (Nat.not_lt_zero _)
  | succ fuel ih =>
    cases hpop : pop s.pending with
    | none =>
      have hempty : s.pending = [] := extract_eq_none hpop
      refine .inl ⟨?_, fun t ht => absurd ht.pending (by simp [hempty]), s.pending, .refl, ?_⟩ <;>
        simp [takeNextReadyLoop, hpop]
    | some popped =>
      obtain ⟨t, rest⟩ := popped
      obtain ⟨hperm, hleast⟩ := byKey_cmp.extract_eq_some hpop
      by_cases hactive : t.id ∈ s.active
      · by_cases hready : t.isReadyAt now = true
        · refine .inr ⟨t, ?_, by simpa [isReadyAt] using hready,
            fun t' ht' => hleast t' ht'.pending, hactive, rest, .of_perm hperm, ?_⟩ <;>
            simp [takeNextReadyLoop, hpop, hactive, hready]
        · refine .inl ⟨?_, fun t' ht' => ?_, s.pending, .refl, ?_⟩
          · simp [takeNextReadyLoop, hpop, hactive, hready]
          · have hlate : now < t.runAt := by simpa [isReadyAt] using hready
            exact hlate.trans_le (runAt_le_of_key_le (hleast t' ht'.pending))
          · simp [takeNextReadyLoop, hpop, hactive, hready]
      · -- A dead entry on top is dropped, and the live ones are those of the rest.
        have hloop : takeNextReadyLoop now (fuel + 1) s =
            takeNextReadyLoop now fuel { s with pending := rest } := by
          simp [takeNextReadyLoop, hpop, hactive]
        have hlive : ∀ t', s.Live t' → Live { s with pending := rest } t' := by
          intro t' ht'
          refine ⟨?_, ht'.active⟩
          rcases mem_cons.1 (hperm.mem_iff.1 ht'.pending) with rfl | hmem
          · exact absurd ht'.active hactive
          · exact hmem
        have hlength := hperm.length_eq
        rw [length_cons] at hlength
        have hfuel' : rest.length < fuel := by omega
        rw [hloop]
        rcases ih (s := { s with pending := rest }) hfuel' with
          ⟨hnone, hlate, pending, hshed, hs'⟩ | ⟨t', hsome, hdue, hfirst, hactive',
            pending, hshed, hs'⟩
        · exact .inl ⟨hnone, fun t' ht' => hlate t' (hlive t' ht'), pending,
            hshed.cons hperm hactive, hs'⟩
        · exact .inr ⟨t', hsome, hdue, fun t'' ht'' => hfirst t'' (hlive t'' ht''), hactive',
            pending, hshed.cons hperm hactive, hs'⟩

theorem retain_some (active : Finset TimerId) (id : TimerId) (sequence : Nat)
    (timers : List (ScheduledTimer T)) :
    retain active id sequence (some t) timers =
      (some t, timers.filter (·.id ∈ active)) := by
  induction timers with
  | nil => rfl
  | cons timer timers ih =>
    rw [retain, ih]
    by_cases hactive : timer.id ∈ active <;> simp [hactive]

theorem shed_filter (active : Finset TimerId) (timers : List (ScheduledTimer T)) :
    Shed active timers (timers.filter (·.id ∈ active)) := by
  refine ⟨timers.filter (fun t => !decide (t.id ∈ active)), ?_, fun t ht => ?_⟩
  · exact ((filter_append_perm (fun t => decide (t.id ∈ active)) timers).symm).trans
      perm_append_comm
  · simpa using (mem_filter.1 ht).2

theorem retain_none (active : Finset TimerId) {timers : List (ScheduledTimer T)}
    (hdistinct : Distinct timers) (hmem : t ∈ timers) :
    (retain active t.id t.sequence none timers).1 = some t ∧
      Shed active timers (t :: (retain active t.id t.sequence none timers).2) := by
  induction timers with
  | nil => cases hmem
  | cons timer timers ih =>
    by_cases hselected : timer.id = t.id
    · have heq := hdistinct.eq mem_cons_self hmem hselected
      subst heq
      rw [retain, if_pos (by simp), retain_some]
      obtain ⟨dead, hperm, hdead⟩ := shed_filter active timers
      exact ⟨rfl, dead, (hperm.cons timer).trans perm_middle.symm, hdead⟩
    · have hrest : t ∈ timers := by
        rcases mem_cons.1 hmem with rfl | hmem
        · exact absurd rfl hselected
        · exact hmem
      obtain ⟨hsome, dead, hperm, hdead⟩ := ih (nodup_cons.1 hdistinct).2 hrest
      rw [retain, if_neg (by simp [hselected])]
      refine ⟨hsome, ?_⟩
      dsimp only
      split
      · refine ⟨dead, (hperm.cons timer).trans ?_, hdead⟩
        exact perm_middle.symm.trans (.append_left _ (.swap _ _ _))
      · next hactive =>
        exact ⟨timer :: dead, hperm.cons timer, forall_mem_cons.2 ⟨hactive, hdead⟩⟩

theorem takeNextReadyMatching_spec (h : Distinct s.pending) (now : Instant)
    (predicate : T → Bool) :
    ((s.takeNextReadyMatching now predicate) = (none, s) ∧
        ∀ t, s.Live t → ¬ (t.runAt ≤ now ∧ predicate t.payload = true)) ∨
      ∃ t, (s.takeNextReadyMatching now predicate).1 = some t.ready ∧
        (t.runAt ≤ now ∧ predicate t.payload = true) ∧
        (∀ t', s.Live t' → t'.runAt ≤ now ∧ predicate t'.payload = true → t.key ≤ t'.key) ∧
        s.Taken t (s.takeNextReadyMatching now predicate).2 := by
  have hmem : ∀ t, t ∈ s.pending.filter (fun timer => timer.id ∈ s.active ∧
      timer.isReadyAt now = true ∧ predicate timer.payload = true) ↔
      s.Live t ∧ t.runAt ≤ now ∧ predicate t.payload = true := by
    intro t
    rw [mem_filter, decide_eq_true_eq]
    constructor
    · rintro ⟨hpending, hactive, hready, hmatches⟩
      exact ⟨⟨hpending, hactive⟩, by simpa [isReadyAt] using hready, hmatches⟩
    · rintro ⟨⟨hpending, hactive⟩, hready, hmatches⟩
      exact ⟨hpending, hactive, by simpa [isReadyAt] using hready, hmatches⟩
  cases hselect : s.nextReadyMatchingTimer now predicate with
  | none =>
    refine .inl ⟨by simp [takeNextReadyMatching, hselect], fun t ht hdue => ?_⟩
    have hnil := byKey_precedes.selectFrom_eq_none hselect
    exact not_mem_nil (hnil ▸ (hmem t).2 ⟨ht, hdue⟩)
  | some t =>
    obtain ⟨hfound, hleast⟩ := byKey_precedes.selectFrom_eq_some hselect
    obtain ⟨hlive, hdue⟩ := (hmem t).1 hfound
    obtain ⟨hsome, hshed⟩ := retain_none s.active h hlive.pending
    have htake : s.takeNextReadyMatching now predicate =
        (some t.ready, { s with
          pending := (retain s.active t.id t.sequence none s.pending).2 }.start t) := by
      rw [takeNextReadyMatching, hselect]
      dsimp only
      split
      · next hretain =>
        rw [hretain] at hsome
        cases hsome
      · next hretain =>
        rw [hretain] at hsome
        obtain rfl := Option.some.inj hsome
        rw [hretain]
    rw [htake]
    exact .inr ⟨t, rfl, hdue, fun t' ht' hdue' => hleast t' ((hmem t').2 ⟨ht', hdue'⟩),
      hlive.active, _, hshed, rfl⟩

/-! ## The invariant -/

/-- The sequence numbers are distinct until the counter is at its end. -/
structure Sequenced (pending : List (ScheduledTimer T)) (nextSequence : Nat) : Prop where
  next_le : nextSequence ≤ u64Max
  below : ∀ t ∈ pending, t.sequence < nextSequence ∨ t.sequence = u64Max
  injective : ∀ t ∈ pending, ∀ t' ∈ pending, t.sequence = t'.sequence →
    t = t' ∨ t.sequence = u64Max

theorem Sequenced.sub {pending' : List (ScheduledTimer T)} {nextSequence : Nat}
    (h : Sequenced pending nextSequence) (hsub : ∀ t ∈ pending', t ∈ pending) :
    Sequenced pending' nextSequence :=
  ⟨h.next_le, fun t ht => h.below t (hsub t ht),
    fun t ht t' ht' => h.injective t (hsub t ht) t' (hsub t' ht')⟩

theorem Sequenced.cons {nextSequence : Nat} (h : Sequenced pending nextSequence)
    (ht : t.sequence = nextSequence) :
    Sequenced (t :: pending) (min (nextSequence + 1) u64Max) := by
  have hnext := h.next_le
  have hother : ∀ t' ∈ pending, t'.sequence = nextSequence → nextSequence = u64Max := by
    intro t' ht' heq
    have hbelow := h.below t' ht'
    omega
  refine ⟨Nat.min_le_right _ _, forall_mem_cons.2 ⟨by omega, fun t' ht' => ?_⟩, ?_⟩
  · have hbelow := h.below t' ht'
    omega
  · intro t₁ ht₁ t₂ ht₂ heq
    rcases mem_cons.1 ht₁ with rfl | hmem₁ <;> rcases mem_cons.1 ht₂ with rfl | hmem₂
    · exact .inl rfl
    · exact .inr (ht.trans (hother t₂ hmem₂ (heq.symm.trans ht)))
    · exact .inr ((heq.trans ht).trans (hother t₁ hmem₁ (heq.trans ht)))
    · exact h.injective t₁ hmem₁ t₂ hmem₂ heq

structure Inv (s : TimerScheduler T) (scheduled : Nat) : Prop where
  distinct : Distinct s.pending
  active : ∀ id ∈ s.active, ∃ t ∈ s.pending, t.id = id
  apart : ∀ t ∈ s.pending, t.id ∉ s.running
  cancelled : s.cancelledRunning ⊆ s.running
  pending_used : ∀ t ∈ s.pending, t.id ∈ s.reference.used
  running_used : ∀ id ∈ s.running, id ∈ s.reference.used
  nextId : s.nextId.toNat = scheduled + 1
  bounded : scheduled < 2 ^ 32 - 1
  sequenced : Sequenced s.pending s.nextSequence

namespace Inv

variable {scheduled : Nat}

theorem default : Inv (T := T) default 0 where
  distinct := nodup_nil
  active _ h := by simp [TimerScheduler.default] at h
  apart _ h := nomatch h
  cancelled := Finset.Subset.refl _
  pending_used _ h := nomatch h
  running_used _ h := by simp [TimerScheduler.default] at h
  nextId := rfl
  bounded := by decide
  sequenced := ⟨Nat.zero_le _, fun _ h => (nomatch h), fun _ h => (nomatch h)⟩

theorem live_ne_none (h : Inv s scheduled) : s.reference.live id ≠ none ↔ id ∈ s.active := by
  rw [Option.ne_none_iff_exists']
  simp only [reference_live h.distinct]
  constructor
  · rintro ⟨o, t, ht, rfl, -⟩
    exact ht.active
  · intro hactive
    obtain ⟨t, ht, rfl⟩ := h.active id hactive
    exact ⟨_, t, ⟨ht, hactive⟩, rfl, rfl⟩

/-! ### Cancelling -/

theorem cancelLive (h : Inv s scheduled) (id : TimerId) :
    Inv { s with active := s.active.erase id } scheduled :=
  { h with active := fun id' hid' => h.active id' (Finset.mem_of_mem_erase hid') }

theorem cancel (h : Inv s scheduled) (id : TimerId) :
    Reference.Step s.reference (.cancel id, .flag (s.cancel id).1) (s.cancel id).2.reference ∧
      Inv (s.cancel id).2 scheduled := by
  rw [TimerScheduler.cancel]
  split
  · next hactive =>
    refine ⟨?_, h.cancelLive id⟩
    have hstep := Reference.Step.cancelledLive (h.live_ne_none.2 hactive)
    have heq : ({ s with active := s.active.erase id } : TimerScheduler T).reference =
        s.reference.discard id := by
      refine Reference.ext (reference_discard h.distinct h.distinct fun t => ?_) rfl rfl rfl rfl
      constructor
      · rintro ⟨hpending, hmem⟩
        exact ⟨⟨hpending, Finset.mem_of_mem_erase hmem⟩, Finset.ne_of_mem_erase hmem⟩
      · rintro ⟨⟨hpending, hmem⟩, hne⟩
        exact ⟨hpending, Finset.mem_erase.2 ⟨hne, hmem⟩⟩
    rw [heq]
    exact hstep
  · next hactive =>
    have hnone : s.reference.live id = none :=
      not_not.1 fun hlive => hactive (h.live_ne_none.1 hlive)
    split
    · next hrunning =>
      refine ⟨?_, { h with cancelled := Finset.insert_subset hrunning h.cancelled }⟩
      by_cases hcancelled : id ∈ s.cancelledRunning
      · have hstep := Reference.Step.cancelledNothing hnone fun _ => hcancelled
        simpa [hcancelled] using hstep
      · have hstep := Reference.Step.cancelledRunning hnone hrunning hcancelled
        have heq : ({ s with cancelledRunning := insert id s.cancelledRunning } :
            TimerScheduler T).reference =
            { s.reference with cancelled := insert id s.reference.cancelled } :=
          Reference.ext rfl rfl (Finset.coe_insert _ _) rfl rfl
        simp only [hcancelled, heq]
        exact hstep
    · next hrunning =>
      exact ⟨.cancelledNothing hnone fun hmem => absurd hmem hrunning, h⟩

/-- What the loop of `cancel_matching` does: it counts and removes the active matching timers. -/
theorem foldl_cancelIfMatching (predicate : T → Bool) (h : Distinct pending) (count : Nat)
    (active : Finset TimerId) :
    (pending.foldl (cancelIfMatching predicate) (count, active)).1 =
        count + pending.countP (fun t => t.id ∈ active ∧ predicate t.payload = true) ∧
      ∀ id, id ∈ (pending.foldl (cancelIfMatching predicate) (count, active)).2 ↔
        id ∈ active ∧ ∀ t ∈ pending, t.id = id → predicate t.payload = false := by
  induction pending generalizing count active with
  | nil => simp
  | cons timer pending ih =>
    obtain ⟨hnew, hdistinct⟩ := nodup_cons.1 h
    have hother : ∀ t ∈ pending, t.id ≠ timer.id := fun t ht heq =>
      hnew (mem_map.2 ⟨t, ht, heq⟩)
    rw [foldl_cons, countP_cons]
    by_cases hcancel : timer.id ∈ active ∧ predicate timer.payload = true
    · rw [cancelIfMatching, if_pos hcancel, if_pos (decide_eq_true hcancel)]
      obtain ⟨hcount, hmem⟩ := ih hdistinct (count + 1) (active.erase timer.id)
      refine ⟨?_, fun id => ?_⟩
      · have hsame : pending.countP (fun t => decide (t.id ∈ active.erase timer.id ∧
            predicate t.payload = true)) =
            pending.countP (fun t => t.id ∈ active ∧ predicate t.payload = true) := by
          refine countP_congr fun t ht => ?_
          simp [hother t ht]
        rw [hcount]
        omega
      · rw [hmem, Finset.mem_erase, forall_mem_cons]
        constructor
        · rintro ⟨⟨hne, hactive⟩, hrest⟩
          exact ⟨hactive, fun heq => absurd heq.symm hne, hrest⟩
        · rintro ⟨hactive, hfirst, hrest⟩
          refine ⟨⟨?_, hactive⟩, hrest⟩
          rintro rfl
          exact absurd hcancel.2 (by simp [hfirst rfl])
    · rw [cancelIfMatching, if_neg hcancel, if_neg (by simpa using hcancel)]
      obtain ⟨hcount, hmem⟩ := ih hdistinct count active
      refine ⟨hcount, fun id => ?_⟩
      rw [hmem, forall_mem_cons]
      constructor
      · rintro ⟨hactive, hrest⟩
        refine ⟨hactive, ?_, hrest⟩
        rintro rfl
        exact Bool.eq_false_iff.2 fun hmatches => hcancel ⟨hactive, hmatches⟩
      · rintro ⟨hactive, -, hrest⟩
        exact ⟨hactive, hrest⟩

theorem cancelMatching (h : Inv s scheduled) (predicate : T → Bool) :
    Reference.Step s.reference (.cancelMatching predicate, .count (s.cancelMatching predicate).1)
        (s.cancelMatching predicate).2.reference ∧
      Inv (s.cancelMatching predicate).2 scheduled := by
  obtain ⟨hcount, hmem⟩ := foldl_cancelIfMatching predicate h.distinct 0 s.active
  have hresult : s.cancelMatching predicate =
      ((s.pending.foldl (cancelIfMatching predicate) (0, s.active)).1,
        { s with active := (s.pending.foldl (cancelIfMatching predicate) (0, s.active)).2 }) := rfl
  rw [hresult]
  generalize s.pending.foldl (cancelIfMatching predicate) (0, s.active) = result at hcount hmem
  obtain ⟨count, active⟩ := result
  simp only at hcount hmem ⊢
  have hlive : ∀ t, Live { s with active } t ↔ s.Live t ∧ predicate t.payload = false := by
    intro t
    constructor
    · rintro ⟨hpending, hactive⟩
      obtain ⟨hold, hquiet⟩ := (hmem t.id).1 hactive
      exact ⟨⟨hpending, hold⟩, hquiet t hpending rfl⟩
    · rintro ⟨⟨hpending, hold⟩, hquiet⟩
      refine ⟨hpending, (hmem t.id).2 ⟨hold, fun t' ht' hid => ?_⟩⟩
      rwa [h.distinct.eq ht' hpending hid]
  have heq : ({ s with active } : TimerScheduler T).reference = { s.reference with
      live := fun id => (s.reference.live id).filter fun o => !predicate o.payload } := by
    refine Reference.ext (live_ext fun id o => ?_) rfl rfl rfl rfl
    have hdistinct : Distinct ({ s with active } : TimerScheduler T).pending := h.distinct
    rw [reference_live hdistinct, Option.filter_eq_some_iff, reference_live h.distinct]
    constructor
    · rintro ⟨t, ht, rfl, rfl⟩
      obtain ⟨hold, hquiet⟩ := (hlive t).1 ht
      exact ⟨⟨t, hold, rfl, rfl⟩, by simp [occurrence, hquiet]⟩
    · rintro ⟨⟨t, hold, rfl, rfl⟩, hquiet⟩
      exact ⟨t, (hlive t).2 ⟨hold, by simpa [occurrence] using hquiet⟩, rfl, rfl⟩
  have hnumber : count = {id | s.reference.Matches predicate id}.ncard := by
    have hset : {id | s.reference.Matches predicate id} =
        ((s.pending.filter fun t => t.id ∈ s.active ∧ predicate t.payload = true).map
          (·.id)).toFinset := by
      ext id
      simp only [coe_toFinset, mem_map, mem_filter,
        decide_eq_true_eq, Reference.Matches, reference_live h.distinct]
      constructor
      · rintro ⟨o, ⟨t, ht, rfl, rfl⟩, hmatches⟩
        exact ⟨t, ⟨ht.pending, ht.active, hmatches⟩, rfl⟩
      · rintro ⟨t, ⟨hpending, hactive, hmatches⟩, rfl⟩
        exact ⟨_, ⟨t, ⟨hpending, hactive⟩, rfl, rfl⟩, hmatches⟩
    have hnodup := h.distinct.sublist ((filter_sublist (p := fun t : ScheduledTimer T =>
      t.id ∈ s.active ∧ predicate t.payload = true)).map ScheduledTimer.id)
    rw [hset, Set.ncard_coe_finset, toFinset_card_of_nodup hnodup, length_map,
      ← countP_eq_length_filter, hcount, Nat.zero_add]
  refine ⟨?_, { h with active := fun id hid => h.active id ((hmem id).1 hid).1 }⟩
  rw [heq, hnumber]
  exact .cancelledMatching

/-! ### Taking -/

theorem shed (h : Inv s scheduled) (hshed : Shed s.active s.pending pending) :
    Inv { s with pending } scheduled :=
  { h with
    distinct := hshed.distinct h.distinct
    active := fun id hid => by
      obtain ⟨t, ht, rfl⟩ := h.active id hid
      exact ⟨t, hshed.mem_of_active ht hid, rfl⟩
    apart := fun t ht => h.apart t (hshed.mem ht)
    pending_used := fun t ht => h.pending_used t (hshed.mem ht)
    sequenced := h.sequenced.sub fun _ => hshed.mem }

/-- Dropping dead entries does not change the map. -/
theorem reference_shed (h : Inv s scheduled) (hshed : Shed s.active s.pending pending) :
    ({ s with pending } : TimerScheduler T).reference = s.reference := by
  refine Reference.ext (live_ext fun id o => ?_) rfl rfl rfl rfl
  rw [reference_live (h.shed hshed).distinct, reference_live h.distinct]
  refine exists_congr fun t => and_congr_left fun _ => ⟨fun ht => ?_, fun ht => ?_⟩
  · exact ⟨hshed.mem ht.pending, ht.active⟩
  · exact ⟨hshed.mem_of_active ht.pending ht.active, ht.active⟩

theorem start (h : Inv { s with pending := t :: pending } scheduled) :
    Inv ({ s with pending }.start t) scheduled where
  distinct := (nodup_cons.1 h.distinct).2
  active id hid := by
    obtain ⟨hne, hid⟩ := Finset.mem_erase.1 hid
    obtain ⟨t', ht', rfl⟩ := h.active id hid
    rcases mem_cons.1 ht' with rfl | ht'
    · exact absurd rfl hne
    · exact ⟨t', ht', rfl⟩
  apart t' ht' hrunning := by
    rcases Finset.mem_insert.1 hrunning with heq | hrunning
    · exact (nodup_cons.1 h.distinct).1 (mem_map.2 ⟨t', ht', heq⟩)
    · exact h.apart t' (mem_cons_of_mem _ ht') hrunning
  cancelled := h.cancelled.trans (Finset.subset_insert _ _)
  pending_used t' ht' := h.pending_used t' (mem_cons_of_mem _ ht')
  running_used id hid := by
    rcases Finset.mem_insert.1 hid with rfl | hid
    · exact h.pending_used t mem_cons_self
    · exact h.running_used id hid
  nextId := h.nextId
  bounded := h.bounded
  sequenced := h.sequenced.sub fun _ => mem_cons_of_mem _

section
variable (h : Inv s scheduled)
include h

theorem taken (htaken : s.Taken t s') :
    s.reference.live t.id = some t.occurrence ∧ s'.reference = s.reference.start t.id ∧
      Inv s' scheduled := by
  obtain ⟨hactive, pending, hshed, rfl⟩ := htaken
  have hinv := h.shed hshed
  have hmem : t ∈ s.pending := hshed.mem mem_cons_self
  refine ⟨(reference_live h.distinct).2 ⟨t, ⟨hmem, hactive⟩, rfl, rfl⟩, ?_, hinv.start⟩
  rw [← h.reference_shed hshed]
  refine Reference.ext (reference_discard hinv.distinct hinv.start.distinct fun t' => ?_)
    (Finset.coe_insert _ _) rfl rfl rfl
  constructor
  · rintro ⟨hpending, hmem'⟩
    exact ⟨⟨mem_cons_of_mem _ hpending, Finset.mem_of_mem_erase hmem'⟩,
      Finset.ne_of_mem_erase hmem'⟩
  · rintro ⟨⟨hpending, hmem'⟩, hne⟩
    refine ⟨?_, Finset.mem_erase.2 ⟨hne, hmem'⟩⟩
    rcases mem_cons.1 hpending with rfl | hpending
    · exact absurd rfl hne
    · exact hpending

theorem takeNextReady (now : Instant) :
    Reference.Step s.reference (.takeNextReady now, .ready (s.takeNextReady now).1)
        (s.takeNextReady now).2.reference ∧
      Inv (s.takeNextReady now).2 scheduled := by
  rw [TimerScheduler.takeNextReady]
  rcases takeNextReadyLoop_spec now (Nat.lt_succ_self s.pending.length) with
    ⟨hnone, hlate, pending, hshed, hs'⟩ | ⟨t, hsome, hdue, hleast, htaken⟩
  · rw [hnone, hs', h.reference_shed hshed]
    refine ⟨.tookNothing fun id o ho => ?_, h.shed hshed⟩
    obtain ⟨t, ht, -, rfl⟩ := (reference_live h.distinct).1 ho
    exact hlate t ht
  · obtain ⟨hlive, heq, hinv⟩ := h.taken htaken
    rw [hsome, heq]
    refine ⟨.took ⟨hlive, trivial, fun id o ho _ => ?_⟩ hdue, hinv⟩
    obtain ⟨t', ht', -, rfl⟩ := (reference_live h.distinct).1 ho
    exact hleast t' ht'

theorem takeNextReadyMatching (now : Instant) (predicate : T → Bool) :
    Reference.Step s.reference
        (.takeNextReadyMatching now predicate, .ready (s.takeNextReadyMatching now predicate).1)
        (s.takeNextReadyMatching now predicate).2.reference ∧
      Inv (s.takeNextReadyMatching now predicate).2 scheduled := by
  rcases takeNextReadyMatching_spec h.distinct now predicate with
    ⟨hresult, hnone⟩ | ⟨t, hsome, hdue, hleast, htaken⟩
  · rw [hresult]
    refine ⟨.tookNoneMatching fun id o ho => ?_, h⟩
    obtain ⟨t, ht, -, rfl⟩ := (reference_live h.distinct).1 ho
    exact hnone t ht
  · obtain ⟨hlive, heq, hinv⟩ := h.taken htaken
    rw [hsome, heq]
    refine ⟨.tookMatching ⟨hlive, hdue, fun id o ho hdue' => ?_⟩, hinv⟩
    obtain ⟨t', ht', -, rfl⟩ := (reference_live h.distinct).1 ho
    exact hleast t' ht' hdue'

/-! ### Running timers -/

theorem finish (id : TimerId) :
    Inv (s.finishRunning id) scheduled ∧
      (s.finishRunning id).reference = s.reference.finish id := by
  refine ⟨{ h with
    apart := fun t ht hid => h.apart t ht (Finset.mem_of_mem_erase hid)
    cancelled := Finset.erase_subset_erase _ h.cancelled
    running_used := fun id' hid' => h.running_used id' (Finset.mem_of_mem_erase hid') }, ?_⟩
  exact Reference.ext rfl (Finset.coe_erase _ _) (Finset.coe_erase _ _) rfl rfl

/-- A new entry for an id that is in use and neither live nor running. -/
theorem scheduleExistingAfter (hs' : s.scheduleExistingAfter id payload delayMs now = .ok s')
    (hused : id ∈ s.reference.used) (hrunning : id ∉ s.running)
    (hfresh : ∀ t ∈ s.pending, t.id ≠ id) :
    ∃ deadline, deadlineAfter now delayMs = some deadline ∧
      s'.reference = s.reference.schedule id deadline delayMs payload ∧ Inv s' scheduled := by
  rw [TimerScheduler.scheduleExistingAfter] at hs'
  split at hs'
  · cases hs'
  · next runAt hrunAt =>
    cases hs'
    have hdistinct : Distinct (⟨id, s.nextSequence, runAt, delayMs, payload⟩ :: s.pending) := by
      refine nodup_cons.2 ⟨fun hmem => ?_, h.distinct⟩
      obtain ⟨t, ht, hid⟩ := mem_map.1 hmem
      exact hfresh t ht hid
    refine ⟨runAt, hrunAt, ?_, ?_⟩
    · refine Reference.ext ?_ rfl rfl rfl rfl
      refine reference_schedule h.distinct hdistinct
        ⟨id, s.nextSequence, runAt, delayMs, payload⟩ (fun t => ?_)
        (fun t ht => hfresh t ht.pending) rfl
      constructor
      · rintro ⟨hpending, hactive⟩
        rcases mem_cons.1 hpending with rfl | hpending
        · exact .inl rfl
        · exact .inr ⟨hpending, (Finset.mem_insert.1 hactive).resolve_left (hfresh t hpending)⟩
      · rintro (rfl | ⟨hpending, hactive⟩)
        · exact ⟨mem_cons_self, Finset.mem_insert_self _ _⟩
        · exact ⟨mem_cons_of_mem _ hpending, Finset.mem_insert_of_mem hactive⟩
    · refine ⟨hdistinct, fun id' hid' => ?_, forall_mem_cons.2 ⟨hrunning, h.apart⟩,
        h.cancelled, forall_mem_cons.2 ⟨hused, h.pending_used⟩, h.running_used, h.nextId,
        h.bounded, h.sequenced.cons rfl⟩
      rcases Finset.mem_insert.1 hid' with rfl | hid'
      · exact ⟨_, mem_cons_self, rfl⟩
      · obtain ⟨t, ht, hid⟩ := h.active id' hid'
        exact ⟨t, mem_cons_of_mem _ ht, hid⟩

theorem rescheduleRunningAfter {value : Bool} (hid : id ∈ s.running)
    (hs' : s.rescheduleRunningAfter id payload delayMs now = .ok (value, s')) :
    Reference.Step s.reference (.rescheduleRunningAfter id payload delayMs now, .flag value)
        s'.reference ∧
      Inv s' scheduled := by
  obtain ⟨hinv, heq⟩ := h.finish id
  rw [TimerScheduler.rescheduleRunningAfter] at hs'
  by_cases hcancelled : id ∈ s.cancelledRunning
  · simp only [if_pos hcancelled] at hs'
    cases hs'
    have hstep : Reference.Step s.reference
        (.rescheduleRunningAfter id payload delayMs now, .flag false) (s.reference.finish id) :=
      .prevented hid hcancelled
    rw [← heq] at hstep
    exact ⟨hstep, hinv⟩
  · have hsame : ({ s with running := s.running.erase id } : TimerScheduler T) =
        s.finishRunning id := by
      rw [finishRunning, Finset.erase_eq_of_notMem hcancelled]
    simp only [if_neg hcancelled, hsame] at hs'
    obtain ⟨new, hnew, hs'⟩ := bind_eq_ok.1 hs'
    cases hs'
    obtain ⟨deadline, hdeadline, href, hinv'⟩ := hinv.scheduleExistingAfter hnew
      (h.running_used id hid) (Finset.notMem_erase _ _) fun t ht htid => h.apart t ht (htid ▸ hid)
    refine ⟨?_, hinv'⟩
    rw [href, heq]
    exact .rescheduled hid hcancelled hdeadline

end

/-! ### New timers -/

theorem max_one_eq {x : UInt32} (h : 0 < x.toNat) : max x 1 = x := by
  rw [UInt32.max_def]
  split
  · next hle =>
    have hone : x.toNat ≤ 1 := UInt32.le_iff_toNat_le.1 hle
    exact UInt32.toNat_inj.1 (le_antisymm h hone)
  · rfl

theorem toNat_add_one {x : UInt32} (h : x.toNat + 1 < 2 ^ 32) : (x + 1).toNat = x.toNat + 1 := by
  exact Nat.mod_eq_of_lt h

section
variable (h : Inv s scheduled) (hbound : scheduled + 1 < 2 ^ 32 - 1)
include h hbound

/-- Until the counter wraps around, the first id tried is free. -/
theorem allocateId : s.allocateId = .ok (⟨s.nextId⟩, { s with nextId := s.nextId + 1 }) := by
  have hnext := h.nextId
  have hfresh : (⟨s.nextId⟩ : TimerId) ∉ s.reference.used := fun hused =>
    Nat.lt_irrefl _ hused.2
  have hid : max s.nextId 1 = s.nextId := max_one_eq (by omega)
  have hnextId : max (s.nextId + 1) 1 = s.nextId + 1 :=
    max_one_eq (by rw [toNat_add_one (by omega)]; omega)
  have hactive : (⟨s.nextId⟩ : TimerId) ∉ s.active := fun hmem => by
    obtain ⟨t, ht, htid⟩ := h.active _ hmem
    exact hfresh (htid ▸ h.pending_used t ht)
  have hrunning : (⟨s.nextId⟩ : TimerId) ∉ s.running := fun hmem => hfresh (h.running_used _ hmem)
  obtain ⟨fuel, hfuel⟩ : ∃ fuel, 2 ^ 32 = fuel + 1 := ⟨2 ^ 32 - 1, by simp⟩
  rw [TimerScheduler.allocateId, hfuel, allocateIdLoop]
  simp [hid, hnextId, hactive, hrunning]

/-- The next id has been handed out. -/
theorem allocated :
    Inv { s with nextId := s.nextId + 1 } (scheduled + 1) ∧
      ({ s with nextId := s.nextId + 1 } : TimerScheduler T).reference =
        { s.reference with used := insert ⟨s.nextId⟩ s.reference.used } := by
  have hnext := h.nextId
  have hadd := toNat_add_one (x := s.nextId) (by omega)
  have hused : ({ s with nextId := s.nextId + 1 } : TimerScheduler T).reference.used =
      insert ⟨s.nextId⟩ s.reference.used := by
    ext id
    change 0 < id.get.toNat ∧ id.get.toNat < (s.nextId + 1).toNat ↔
      id = ⟨s.nextId⟩ ∨ 0 < id.get.toNat ∧ id.get.toNat < s.nextId.toNat
    rw [hadd]
    constructor
    · rintro ⟨hpos, hlt⟩
      rcases Nat.lt_succ_iff_lt_or_eq.1 hlt with hlt | heq
      · exact .inr ⟨hpos, hlt⟩
      · exact .inl (congrArg TimerId.mk (UInt32.toNat_inj.1 heq))
    · rintro (rfl | ⟨hpos, hlt⟩)
      · exact ⟨Nat.lt_of_lt_of_eq (Nat.succ_pos _) hnext.symm, Nat.lt_succ_self _⟩
      · exact ⟨hpos, by omega⟩
  refine ⟨⟨h.distinct, h.active, h.apart, h.cancelled, fun t ht => ?_, fun id hid => ?_,
    hadd.trans (by rw [hnext]), hbound, h.sequenced⟩, Reference.ext rfl rfl rfl hused rfl⟩
  · rw [hused]
    exact .inr (h.pending_used t ht)
  · rw [hused]
    exact .inr (h.running_used id hid)

theorem scheduleAfter (hs' : s.scheduleAfter payload delayMs now = .ok (id, s')) :
    Reference.Step s.reference (.scheduleAfter payload delayMs now, .id id) s'.reference ∧
      Inv s' (scheduled + 1) := by
  obtain ⟨hinv, heq⟩ := h.allocated hbound
  have hfresh : (⟨s.nextId⟩ : TimerId) ∉ s.reference.used := fun hused =>
    Nat.lt_irrefl _ hused.2
  rw [TimerScheduler.scheduleAfter, h.allocateId hbound] at hs'
  obtain ⟨_, hid, hs'⟩ := bind_eq_ok.1 hs'
  cases hid
  obtain ⟨new, hnew, hs'⟩ := bind_eq_ok.1 hs'
  cases hs'
  obtain ⟨deadline, hdeadline, href, hinv'⟩ := hinv.scheduleExistingAfter hnew
    (heq ▸ .inl rfl) (fun hmem => hfresh (h.running_used _ hmem))
    fun t ht htid => hfresh (htid ▸ h.pending_used t ht)
  refine ⟨?_, hinv'⟩
  rw [href, heq]
  exact .scheduled hfresh hdeadline

end

end Inv

/-- A step of a legal run is a step of the reference timers. -/
theorem Inv.step {w w' : World T} {label : Op T × Output T} (h : Inv w.scheduler w.scheduled)
    (hstep : w.Step label w') :
    Reference.Step w.scheduler.reference label w'.scheduler.reference ∧
      Inv w'.scheduler w'.scheduled := by
  obtain ⟨s', scheduled'⟩ := w'
  obtain ⟨op, out⟩ := label
  obtain ⟨hlegal, hreturns, rfl⟩ := hstep
  simp only at h hlegal hreturns ⊢
  cases op with
  | scheduleAfter payload delayMs now =>
    obtain ⟨result, hresult, hreturns⟩ := bind_eq_ok.1 hreturns
    cases hreturns
    exact h.scheduleAfter hlegal hresult
  | cancel id =>
    cases hreturns
    exact h.cancel id
  | cancelMatching predicate =>
    cases hreturns
    exact h.cancelMatching predicate
  | takeNextReady now =>
    cases hreturns
    exact h.takeNextReady now
  | takeNextReadyMatching now predicate =>
    cases hreturns
    exact h.takeNextReadyMatching now predicate
  | finishRunning id =>
    cases hreturns
    obtain ⟨hinv, heq⟩ := h.finish id
    rw [heq]
    exact ⟨.finished hlegal, hinv⟩
  | rescheduleRunningAfter id payload delayMs now =>
    obtain ⟨result, hresult, hreturns⟩ := bind_eq_ok.1 hreturns
    cases hreturns
    exact h.rescheduleRunningAfter hlegal hresult

theorem scheduleExistingAfter_none (hdeadline : deadlineAfter now delayMs = none) :
    s.scheduleExistingAfter id payload delayMs now = .error .deadlineOverflow := by
  rw [scheduleExistingAfter, hdeadline]

theorem exists_scheduleExistingAfter (s : TimerScheduler T) (id : TimerId) (payload : T)
    {deadline : Nat} (hdeadline : deadlineAfter now delayMs = some deadline) :
    ∃ s', s.scheduleExistingAfter id payload delayMs now = .ok s' := by
  rw [scheduleExistingAfter, hdeadline]
  exact ⟨_, rfl⟩

/-- A legal call returns unless it asks for a deadline that no `Instant` can hold. -/
theorem Inv.progress {w : World T} (h : Inv w.scheduler w.scheduled) {op : Op T}
    (hlegal : w.Legal op) :
    (∃ out w', w.Step (op, out) w') ∨
      w.scheduler.step op = .error .deadlineOverflow ∧
        ∃ payload delayMs now, deadlineAfter now delayMs = none ∧
          (op = .scheduleAfter payload delayMs now ∨
            ∃ id, op = .rescheduleRunningAfter id payload delayMs now) := by
  have hok : ∀ out s', w.scheduler.step op = .ok (out, s') → ∃ out w', w.Step (op, out) w' :=
    fun out s' hreturns => ⟨out, ⟨s', w.scheduled + World.count op⟩, hlegal, hreturns, rfl⟩
  cases op with
  | scheduleAfter payload delayMs now =>
    have hallocate := h.allocateId hlegal
    cases hdeadline : deadlineAfter now delayMs with
    | none =>
      refine .inr ⟨?_, payload, delayMs, now, hdeadline, .inl rfl⟩
      rw [TimerScheduler.step, TimerScheduler.scheduleAfter, hallocate]
      simp only [bind, Except.bind, scheduleExistingAfter_none hdeadline]
    | some deadline =>
      obtain ⟨s', hs'⟩ := exists_scheduleExistingAfter
        { w.scheduler with nextId := w.scheduler.nextId + 1 } ⟨w.scheduler.nextId⟩ payload hdeadline
      refine .inl (hok (.id ⟨w.scheduler.nextId⟩) s' ?_)
      rw [TimerScheduler.step, TimerScheduler.scheduleAfter, hallocate]
      simp only [bind, Except.bind, hs', pure, Except.pure]
  | cancel | cancelMatching | takeNextReady | takeNextReadyMatching | finishRunning =>
    exact .inl (hok _ _ rfl)
  | rescheduleRunningAfter id payload delayMs now =>
    by_cases hcancelled : id ∈ w.scheduler.cancelledRunning
    · refine .inl (hok (.flag false) (w.scheduler.finishRunning id) ?_)
      rw [TimerScheduler.step, TimerScheduler.rescheduleRunningAfter]
      simp only [if_pos hcancelled, bind, Except.bind, pure, Except.pure, finishRunning]
    · cases hdeadline : deadlineAfter now delayMs with
      | none =>
        refine .inr ⟨?_, payload, delayMs, now, hdeadline, .inr ⟨id, rfl⟩⟩
        rw [TimerScheduler.step, TimerScheduler.rescheduleRunningAfter]
        simp only [if_neg hcancelled, bind, Except.bind, scheduleExistingAfter_none hdeadline]
      | some deadline =>
        obtain ⟨s', hs'⟩ := exists_scheduleExistingAfter
          { w.scheduler with running := w.scheduler.running.erase id } id payload hdeadline
        refine .inl (hok (.flag true) s' ?_)
        rw [TimerScheduler.step, TimerScheduler.rescheduleRunningAfter]
        simp only [if_neg hcancelled, bind, Except.bind, hs', pure, Except.pure]

/-! ## Queries -/

theorem Inv.nextDeadline_eq_some {scheduled : Nat} (h : Inv s scheduled) {deadline : Instant} :
    s.nextDeadline = some deadline ↔
      (∃ id o, s.reference.live id = some o ∧ o.deadline = deadline) ∧
        ∀ id o, s.reference.live id = some o → deadline ≤ o.deadline := by
  have hmem : ∀ d, d ∈ (s.pending.filter (·.id ∈ s.active)).map (·.runAt) ↔
      ∃ id o, s.reference.live id = some o ∧ o.deadline = d := by
    intro d
    simp only [mem_map, mem_filter, decide_eq_true_eq, reference_live h.distinct]
    constructor
    · rintro ⟨t, ⟨hpending, hactive⟩, rfl⟩
      exact ⟨t.id, t.occurrence, ⟨t, ⟨hpending, hactive⟩, rfl, rfl⟩, rfl⟩
    · rintro ⟨id, o, ⟨t, ht, rfl, rfl⟩, rfl⟩
      exact ⟨t, ⟨ht.pending, ht.active⟩, rfl⟩
  rw [nextDeadline, min?_eq_some_iff, hmem]
  refine and_congr_right fun _ => ⟨fun hleast id o ho => ?_, fun hleast d hd => ?_⟩
  · exact hleast _ ((hmem _).2 ⟨id, o, ho, rfl⟩)
  · obtain ⟨id, o, ho, rfl⟩ := (hmem d).1 hd
    exact hleast id o ho

end TimerScheduler

/-! ## Runs -/

theorem World.Step.unique {w w₁ w₂ : World T} {label : Op T × Output T} (h₁ : w.Step label w₁)
    (h₂ : w.Step label w₂) : w₁ = w₂ := by
  obtain ⟨s₁, n₁⟩ := w₁
  obtain ⟨s₂, n₂⟩ := w₂
  obtain ⟨-, hreturns₁, rfl⟩ := h₁
  obtain ⟨-, hreturns₂, rfl⟩ := h₂
  cases hreturns₁.symm.trans hreturns₂
  rfl

theorem trace_reference {w w' : World T} {trace : List (Op T × Output T)}
    (h : TimerScheduler.Inv w.scheduler w.scheduled) (htrace : Trace World.Step w trace w') :
    Trace Reference.Step w.scheduler.reference trace w'.scheduler.reference ∧
      TimerScheduler.Inv w'.scheduler w'.scheduled := by
  have hanswer : ∀ (w : World T) (a : Reference T) label w',
      a = w.scheduler.reference ∧ w.scheduler.Inv w.scheduled → w.Step label w' →
        ∃ a', Reference.Step a label a' ∧
          a' = w'.scheduler.reference ∧ w'.scheduler.Inv w'.scheduled := by
    rintro w _ label w' ⟨rfl, hinv⟩ hstep
    obtain ⟨hanswer, hinv'⟩ := hinv.step hstep
    exact ⟨_, hanswer, rfl, hinv'⟩
  obtain ⟨_, href, rfl, hinv⟩ := htrace.simulate hanswer ⟨rfl, h⟩
  exact ⟨href, hinv⟩

theorem reference_new : (World.new (T := T)).scheduler.reference = .new := by
  refine Reference.ext rfl Finset.coe_empty Finset.coe_empty (Set.eq_empty_of_forall_notMem ?_) rfl
  rintro id ⟨hpos, hlt⟩
  exact absurd hlt (Nat.not_lt.2 hpos)

/-- Every legal run of the scheduler is a run of the map of live timers, so that what is taken is
the least due timer; the next deadline is the least live one. The live timers have distinct sequence
numbers until the counter is at its end, and every legal call returns unless its deadline overflows.
Over the run a cancelled timer is not returned again, an occurrence is returned once, a running
timer is rescheduled unless it has been cancelled, and an id is handed out once. -/
theorem timer_scheduler_refines_reference {trace : List (Op T × Output T)} {w : World T}
    (htrace : Trace World.Step World.new trace w) :
    Trace Reference.Step .new trace w.scheduler.reference ∧
      (∀ deadline, w.scheduler.nextDeadline = some deadline ↔
        (∃ id o, w.scheduler.reference.live id = some o ∧ o.deadline = deadline) ∧
          ∀ id o, w.scheduler.reference.live id = some o → deadline ≤ o.deadline) ∧
      (∀ id id' o o', w.scheduler.reference.live id = some o →
        w.scheduler.reference.live id' = some o' → o.sequence = o'.sequence →
          id = id' ∨ o.sequence = u64Max) ∧
      (∀ op, w.Legal op → (∃ out w', w.Step (op, out) w') ∨
        w.scheduler.step op = .error .deadlineOverflow ∧
          ∃ payload delayMs now, deadlineAfter now delayMs = none ∧
            (op = .scheduleAfter payload delayMs now ∨
              ∃ id, op = .rescheduleRunningAfter id payload delayMs now)) ∧
      (∀ before op out after w₁ id, trace = before ++ (op, out) :: after →
        Trace World.Step World.new before w₁ → w₁.scheduler.reference.Cancels id op →
          ∀ x ∈ after, x.2.returned ≠ some id) ∧
      ReturnedOnce trace ∧ RescheduledUnlessCancelled trace ∧ HandedOutOnce trace := by
  obtain ⟨href, hinv⟩ := trace_reference .default htrace
  rw [reference_new] at href
  refine ⟨href, fun _ => hinv.nextDeadline_eq_some, ?_, fun _ => hinv.progress, ?_,
    returnedOnce href, rescheduledUnlessCancelled href,
    handedOutOnce href⟩
  · intro id id' o o' ho ho' hsequence
    obtain ⟨t, ht, rfl, rfl⟩ := (TimerScheduler.reference_live hinv.distinct).1 ho
    obtain ⟨t', ht', rfl, rfl⟩ := (TimerScheduler.reference_live hinv.distinct).1 ho'
    rcases hinv.sequenced.injective t ht.pending t' ht'.pending hsequence with rfl | hlast
    · exact .inl rfl
    · exact .inr hlast
  · rintro before op out after w₁ id rfl hbefore hcancels
    obtain ⟨w₁', hbefore', hrest⟩ := htrace.split
    obtain rfl := hbefore.unique (fun _ _ _ _ h₁ h₂ => h₁.unique h₂) hbefore'
    obtain ⟨href₁, hinv₁⟩ := trace_reference .default hbefore
    rw [reference_new] at href₁
    cases hrest with
    | cons hstep hafter =>
      obtain ⟨hcancel, hinv₂⟩ := hinv₁.step hstep
      have hdead := hcancel.dead (sound_of_trace href₁) hcancels
      exact not_returned_of_dead (trace_reference hinv₂ hafter).1 hdead

/-- An interval timer that is cancelled while it runs. -/
def cancelledInterval : List (Op Nat × Output Nat) :=
  [(.scheduleAfter 7 10 0, .id ⟨1⟩), (.takeNextReady 5, .ready none),
    (.takeNextReady (10 ^ 7), .ready (some ⟨⟨1⟩, 10, 7⟩)), (.cancel ⟨1⟩, .flag true),
    (.rescheduleRunningAfter ⟨1⟩ 7 10 (10 ^ 7), .flag false)]

theorem timer_scheduler_refines_reference_interval :
    ∃ w : World Nat, Trace World.Step World.new cancelledInterval w ∧
      Trace Reference.Step .new cancelledInterval w.scheduler.reference := by
  have htrace : Trace World.Step World.new cancelledInterval ⟨⟨[], ∅, ∅, ∅, 2, 1⟩, 1⟩ := by
    have hlegal : World.Legal World.new (.scheduleAfter 7 10 0) := by
      change 0 + 1 < 2 ^ 32 - 1
      decide
    have hscheduled : World.Step World.new (.scheduleAfter 7 10 0, .id ⟨1⟩)
        ⟨⟨[⟨⟨1⟩, 0, 10 ^ 7, 10, 7⟩], {⟨1⟩}, ∅, ∅, 2, 1⟩, 1⟩ := ⟨hlegal, rfl, rfl⟩
    have htaken : World.Step ⟨⟨[⟨⟨1⟩, 0, 10 ^ 7, 10, 7⟩], {⟨1⟩}, ∅, ∅, 2, 1⟩, 1⟩
        (.takeNextReady (10 ^ 7), .ready (some ⟨⟨1⟩, 10, 7⟩)) ⟨⟨[], ∅, {⟨1⟩}, ∅, 2, 1⟩, 1⟩ :=
      ⟨trivial, rfl, rfl⟩
    have hcancelled : World.Step (T := Nat) ⟨⟨[], ∅, {⟨1⟩}, ∅, 2, 1⟩, 1⟩ (.cancel ⟨1⟩, .flag true)
        ⟨⟨[], ∅, {⟨1⟩}, {⟨1⟩}, 2, 1⟩, 1⟩ := ⟨trivial, rfl, rfl⟩
    exact .cons hscheduled <| .cons ⟨trivial, rfl, rfl⟩ <| .cons htaken <| .cons hcancelled <|
      .cons ⟨Finset.mem_singleton_self _, rfl, rfl⟩ (.nil _)
  exact ⟨_, htrace, (timer_scheduler_refines_reference htrace).1⟩

end Moli.Timers
