import Moli.Lib.Trace
import Moli.Writeback.Verify.Replies

/-!
# Runs of the write-back owner

What the replies promise: a flush that was sent is answered when every batch accepted before it has
been attempted, nothing is accepted after admission was closed, and a close returns when every
accepted batch has been attempted. All invariants hold along every run (`inv_run`), and the loop
alone brings every request that was sent to its reply (`Requests.exists_replies`).
-/

namespace Moli.Writeback

open Lib List

variable {β σ ρ : Type} [WriteBatch β σ]

/-! ## The loop comes to rest -/

namespace Loop

/-- A bound on the steps that the loop takes before it looks at its queue again. -/
def rank : Loop β σ ρ → Nat
  | committing _ => 8
  | writing _ _ => 7
  | wrote _ _ => 6
  | replying _ | closing => 5
  | answering _ _ | closingConnection _ => 4
  | querying _ _ | returned _ => 3
  | queried | sealed _ => 2
  | starting => 1
  | selecting _ | ended => 0

omit [WriteBatch β σ] in
theorem rank_after_lt (purpose : Purpose) : (after purpose : Loop β σ ρ).rank < 6 := by
  cases purpose <;> simp [after, rank]

end Loop

open Loop (rank hand)

namespace System

variable {s s' : System β σ ρ} {policy : WritebackPolicy}

def work (s : System β σ ρ) : Nat := s.queue.length * 10 + s.loop.rank

/-- The loop has ended, or it waits and nothing is queued. -/
def AtRest (s : System β σ ρ) : Prop :=
  s.loop = .ended ∨ (∃ deadline, s.loop = .selecting deadline) ∧ s.queue = []

theorem exists_step (policy : WritebackPolicy) (h : ¬ s.AtRest) :
    ∃ s', LoopStep policy s s' ∧ s'.work < s.work := by
  unfold work
  cases hloop : s.loop with
  | starting => exact ⟨_, .start hloop, by simp [rank]⟩
  | selecting deadline =>
    cases hqueue : s.queue with
    | nil => exact absurd (.inr ⟨⟨deadline, hloop⟩, hqueue⟩) h
    | cons message queue =>
      cases message with
      | query id run =>
        refine ⟨_, .recvQuery hloop hqueue, ?_⟩
        simp only [rank, length_cons]
        omega
      | flush id =>
        refine ⟨_, .recvFlush hloop hqueue, ?_⟩
        simp only [rank, length_cons]
        omega
      | close =>
        refine ⟨_, .recvClose hloop hqueue, ?_⟩
        simp only [rank, length_cons]
        omega
  | querying id run => exact ⟨_, .runQuery hloop (.ok ()), by simp [rank, runQuery]⟩
  | queried => exact ⟨_, .queried hloop, by simp [rank]⟩
  | committing purpose =>
    cases hempty : WriteBatch.isEmpty s.pending.batch with
    | true =>
      refine ⟨_, .skip hloop hempty, Nat.add_lt_add_left ?_ _⟩
      exact (Loop.rank_after_lt purpose).trans (by simp [rank])
    | false => exact ⟨_, .take hloop hempty, by simp [rank]⟩
  | writing batch purpose => exact ⟨_, .write hloop (.ok ()) (.ok ()), by simp [rank, write]⟩
  | wrote result purpose =>
    exact ⟨_, .wrote hloop, Nat.add_lt_add_left (Loop.rank_after_lt purpose) _⟩
  | replying id => exact ⟨_, .reply hloop, by simp [rank]⟩
  | answering id result => exact ⟨_, .answer hloop, by simp [rank]⟩
  | closing => exact ⟨_, .closing hloop, by simp [rank]⟩
  | closingConnection result =>
    refine ⟨_, .closeConnection hloop (.ok ()), ?_⟩
    simp only [rank, length_nil]
    omega
  | returned result => exact ⟨_, .returned hloop, by simp [rank]⟩
  | sealed result => exact ⟨_, .finish hloop, by simp [rank]⟩
  | ended => exact absurd (.inl hloop) h

theorem exists_atRest (policy : WritebackPolicy) (s : System β σ ρ) :
    ∃ s', Relation.ReflTransGen (LoopStep policy) s s' ∧ s'.AtRest := by
  induction hwork : s.work using Nat.strongRecOn generalizing s with
  | ind work ih =>
    by_cases hrest : s.AtRest
    · exact ⟨s, .refl, hrest⟩
    · obtain ⟨next, hstep, hless⟩ := exists_step policy hrest
      obtain ⟨s', hrun, hrest⟩ := ih next.work (hwork ▸ hless) next rfl
      exact ⟨s', .head hstep hrun, hrest⟩

omit [WriteBatch β σ] in
theorem Requests.replied_of_atRest (h : s.Requests) (hrest : s.AtRest) :
    repliesOf s.log = sentOf s.log := by
  have hfifo := h.requests.fifo
  rcases hrest with hloop | ⟨⟨deadline, hloop⟩, hqueue⟩
  · have hnone := (h.requests.none_left (by rw [hloop]; rfl)).2
    rw [hfifo, hnone, hloop]
    simp [hand]
  · rw [hfifo, hqueue, hloop]
    simp [hand, ids]

theorem log_prefix_of_loopStep (hstep : LoopStep policy s s') : s.log <+: s'.log := by
  cases hstep with
  | runQuery | write => exact ⟨_, (append_assoc ..).symm⟩
  | take | answer => exact prefix_append ..
  | _ => exact prefix_rfl

theorem log_prefix_of_loop (hrun : Relation.ReflTransGen (LoopStep policy) s s') :
    s.log <+: s'.log := by
  induction hrun with
  | refl => exact prefix_rfl
  | tail hrun hstep ih => exact ih.trans (log_prefix_of_loopStep hstep)

/-- The loop alone brings every request that was sent to its reply. -/
theorem Requests.exists_replies (h : s.Requests) (policy : WritebackPolicy) :
    ∃ s', Relation.ReflTransGen (LoopStep policy) s s' ∧ ∀ id ∈ sentOf s.log,
      id ∈ repliesOf s'.log := by
  obtain ⟨s', hrun, hrest⟩ := exists_atRest policy s
  have hs' : s'.Requests := by
    clear hrest
    induction hrun with
    | refl => exact h
    | tail hrun hstep ih => exact ih.loop hstep
  refine ⟨s', hrun, fun id hid => ?_⟩
  rw [hs'.replied_of_atRest hrest]
  obtain ⟨rest, hlog⟩ := log_prefix_of_loop hrun
  rw [← hlog, sentOf, filterMap_append]
  exact mem_append_left _ hid

end System

/-! ## Promises -/

section Promises

omit [WriteBatch β σ]

/-- The batches accepted before a flush was sent are in `groups`. -/
def Covered (id : Nat) (log : List (Event β ρ)) (groups : List (List β)) : Prop :=
  ∀ before rest, log = before ++ .sentFlush id :: rest → acceptedOf before <+: groups.flatten

/-- What an event says about the log before it. -/
def Promise (past : List (Event β ρ)) : Event β ρ → Prop
  | .accepted _ => Event.sealed ∉ past
  | .repliedFlush id result =>
    Covered id past (attemptedGroups past) ∧ result.isOk = !failing past
  | .closeReturned _ => acceptedOf past = (attemptedGroups past).flatten
  | _ => True

variable {log : List (Event β ρ)} {id : Nat}

theorem cut_opening (s : System β σ ρ) (result : Receipt) :
    cut (s.log ++ s.opening result) = cut s.log := by
  rcases s.opening_eq result with hopening | hopening <;> rw [hopening]
  · rw [append_nil]
  · exact cut_neutral s.log rfl

theorem cut_groups_prefix (log : List (Event β ρ)) (event : Event β ρ) :
    (cut log).groups <+: (cut (log ++ [event])).groups := by
  rw [cut_concat]
  cases event with
  | taken => exact prefix_append ..
  | _ => exact prefix_rfl

theorem acceptedOf_prefix {before log : List (Event β ρ)} (h : before <+: log) :
    acceptedOf before <+: acceptedOf log := by
  obtain ⟨rest, rfl⟩ := h
  rw [acceptedOf, acceptedOf, filterMap_append]
  exact prefix_append ..

theorem Covered.concat (h : Covered id log (cut log).groups) {event : Event β ρ}
    (hevent : ∀ other, event = .sentFlush other → other ≠ id) :
    Covered id (log ++ [event]) (cut (log ++ [event])).groups := by
  intro before rest hlog
  rcases eq_nil_or_concat rest with rfl | ⟨rest, last, rfl⟩
  · obtain ⟨-, hlast⟩ := append_inj' hlog rfl
    cases hlast
    exact absurd rfl (hevent id rfl)
  · rw [concat_eq_append, ← cons_append, ← append_assoc] at hlog
    obtain ⟨hlog, -⟩ := append_inj' hlog rfl
    refine (h before rest hlog).trans ?_
    obtain ⟨more, hmore⟩ := cut_groups_prefix log event
    rw [← hmore, flatten_append]
    exact prefix_append ..

theorem covered_opening {s : System β σ ρ} (h : Covered id s.log (cut s.log).groups)
    (result : Receipt) :
    Covered id (s.log ++ s.opening result) (cut (s.log ++ s.opening result)).groups := by
  rcases s.opening_eq result with hopening | hopening <;> rw [hopening]
  · rwa [append_nil]
  · exact h.concat fun other heq => (by cases heq)

/-- Everything accepted so far is in the groups. -/
theorem covered_of_current (id : Nat) (h : (cut log).current = []) :
    Covered id log (cut log).groups := by
  intro before rest hlog
  have hprefix : acceptedOf before <+: acceptedOf log := acceptedOf_prefix ⟨_, hlog.symm⟩
  rwa [acceptedOf_eq log, Cut.all, h, append_nil] at hprefix

end Promises

/-- The purpose of a commit that has taken its batch. -/
def Loop.settled? : Loop β σ ρ → Option Purpose
  | writing _ purpose | wrote _ purpose => some purpose
  | replying id | answering id _ => some (.flush id)
  | closing | closingConnection _ | returned _ | sealed _ | ended => some .close
  | _ => none

namespace Loop

omit [WriteBatch β σ]

variable {loop : Loop β σ ρ} {purpose purpose' : Purpose}

theorem mem_hand_of_settled {id : Nat} (h : loop.settled? = some (.flush id)) : id ∈ loop.hand := by
  cases loop with
  | writing _ _ | wrote _ _ | replying _ | answering _ _ =>
    cases h
    exact mem_singleton.2 rfl
  | _ => cases h

theorem closes_of_settled (h : loop.settled? = some .close) : loop.closes = true := by
  cases loop with
  | writing _ _ | wrote _ _ =>
    cases h
    rfl
  | closing | closingConnection _ | returned _ | sealed _ | ended => rfl
  | _ => cases h

theorem eq_of_settled_after (h : (after purpose : Loop β σ ρ).settled? = some purpose') :
    purpose = purpose' := by
  cases purpose <;> cases h <;> rfl

end Loop

section Groups

variable {disk₀ disk : σ} {batch : β} {inFlight : List β} {log : List (Event β ρ)}

theorem Ledger.attempts_eq (h : Ledger disk₀ batch inFlight disk log) :
    (attemptsOf log).map (·.1) = (attemptedGroups log).map mergeAll := by
  rw [attemptedGroups, map_take, ← h.attempts, take_append_of_le_length (by simp),
    take_of_length_le (by simp)]

omit [WriteBatch β σ] in
theorem attemptedGroups_isPrefix (log : List (Event β ρ)) :
    (attemptedGroups log).flatten <+: acceptedOf log := by
  obtain ⟨rest, hrest⟩ := take_prefix (attemptsOf log).length (cut log).groups
  rw [acceptedOf_eq, Cut.all, ← hrest, flatten_append, append_assoc]
  exact prefix_append ..

/-- The batches of the successful ones among some attempts. -/
def successful (groups : List (List β)) (attempts : List (β × Receipt)) : List β :=
  ((groups.zip attempts).filter (·.2.2.isOk)).flatMap (·.1)

theorem foldl_attempt [LawfulWriteBatch β σ] {groups : List (List β)}
    {attempts : List (β × Receipt)} (h : attempts.map (·.1) = groups.map mergeAll) (disk : σ) :
    attempts.foldl attempt disk = writeAll disk (successful groups attempts) := by
  induction groups generalizing attempts disk with
  | nil =>
    rw [map_eq_nil_iff.1 h]
    rfl
  | cons group groups ih =>
    cases attempts with
    | nil => rfl
    | cons first attempts =>
      obtain ⟨hfirst, hrest⟩ := List.cons.inj h
      replace hfirst : first.1 = mergeAll group := hfirst
      rw [foldl_cons, ih hrest, attempt, hfirst, write_mergeAll]
      cases hok : first.2.isOk with
      | true => simp [successful, writeAll, hok]
      | false => simp [successful, hok]

end Groups

theorem Ledger.attemptedGroups_eq {disk₀ disk : σ} {batch : β} {log : List (Event β ρ)}
    (h : Ledger disk₀ batch [] disk log) : attemptedGroups log = (cut log).groups := by
  have hlength := congrArg length h.attempts
  rw [append_nil, length_map, length_map] at hlength
  rw [attemptedGroups, hlength, take_length]

namespace System

variable {s s' : System β σ ρ} {policy : WritebackPolicy} {disk₀ : σ}

structure Promises (s : System β σ ρ) : Prop where
  every : Every Promise s.log
  flushes : ∀ id, s.loop.settled? = some (.flush id) → Covered id s.log (cut s.log).groups
  closes : s.loop.settled? = some .close → (cut s.log).current = []
  finished : s.finished.isSome = true → s.loop = .ended
  owner : ∀ result, s.owner = .closed result → s.loop = .ended

omit [WriteBatch β σ] in
theorem Promises.moved (h : s.Promises) (hloop : s.loop ≠ .ended)
    (hfinished : s'.finished = s.finished)
    (howner : s'.owner = s.owner) (hevery : Every Promise s'.log)
    (hflushes : ∀ id, s'.loop.settled? = some (.flush id) → Covered id s'.log (cut s'.log).groups)
    (hcloses : s'.loop.settled? = some .close → (cut s'.log).current = []) : s'.Promises := by
  refine ⟨hevery, hflushes, hcloses, fun hsome => ?_, fun result hclosed => ?_⟩
  · rw [hfinished] at hsome
    exact absurd (h.finished hsome) hloop
  · rw [howner] at hclosed
    exact absurd (h.owner result hclosed) hloop

omit [WriteBatch β σ] in
theorem Promises.every_opening (h : s.Promises) (result : Receipt) :
    Every Promise (s.log ++ s.opening result) := by
  rcases s.opening_eq result with hopening | hopening <;> rw [hopening]
  · rw [append_nil]
    exact h.every
  · exact every_concat.2 ⟨h.every, trivial⟩

variable [LawfulWriteBatch β σ]

theorem Promises.loop (h : s.Promises) (hledger : s.Ledger disk₀) (hfailures : s.Failures)
    (hstep : LoopStep policy s s') : s'.Promises := by
  have hflushes := h.flushes
  have hcloses := h.closes
  cases hstep with
  | start hloop | notified hloop _ | timer hloop _ | recvQuery hloop _ | recvFlush hloop _
  | recvClose hloop _ | queried hloop =>
    exact h.moved (by simp [hloop]) rfl rfl h.every (fun id hid => (by cases hid))
      fun hclose => (by cases hclose)
  | runQuery hloop opening =>
    refine h.moved (by simp [hloop]) rfl rfl ?_ (fun id hid => (by cases hid))
      fun hclose => (by cases hclose)
    exact every_concat.2 ⟨h.every_opening opening, trivial⟩
  | skip hloop hempty =>
    have hcurrent : (cut s.log).current = [] := by
      rw [hledger.isEmpty_batch] at hempty
      exact isEmpty_iff.1 hempty
    exact h.moved (by simp [hloop]) rfl rfl h.every (fun id _ => covered_of_current id hcurrent)
      fun _ => hcurrent
  | take hloop hempty =>
    have hcurrent : (cut (s.log ++ [.taken])).current = [] := by rw [cut_concat]; rfl
    exact h.moved (by simp [hloop]) rfl rfl (every_concat.2 ⟨h.every, trivial⟩)
      (fun id _ => covered_of_current id hcurrent) fun _ => hcurrent
  | write hloop opening outcome =>
    rw [hloop] at hflushes hcloses
    refine h.moved (by simp [hloop]) rfl rfl ?_ (fun id hid => ?_) fun hclose => ?_
    · exact every_concat.2 ⟨h.every_opening opening, trivial⟩
    · exact (covered_opening (hflushes id hid) opening).concat fun other heq => (by cases heq)
    · refine (congrArg Cut.current (cut_concat ..)).trans ?_
      exact (congrArg Cut.current (cut_opening s opening)).trans (hcloses hclose)
  | wrote hloop =>
    rw [hloop] at hflushes hcloses
    refine h.moved (by simp [hloop]) rfl rfl h.every (fun id hid => hflushes id ?_)
      fun hclose => hcloses ?_
    · rw [Loop.eq_of_settled_after hid]
      rfl
    · rw [Loop.eq_of_settled_after hclose]
      rfl
  | reply hloop | closing hloop | closeConnection hloop _ | returned hloop =>
    rw [hloop] at hflushes hcloses
    exact h.moved (by simp [hloop]) rfl rfl h.every hflushes hcloses
  | answer hloop =>
    have hnoted := hfailures.noted
    unfold Ledger at hledger
    rw [hloop] at hnoted hflushes hledger
    refine h.moved (by simp [hloop]) rfl rfl ?_ (fun id hid => (by cases hid))
      fun hclose => (by cases hclose)
    refine every_concat.2 ⟨h.every, ?_, hnoted.2⟩
    rw [hledger.attemptedGroups_eq]
    exact hflushes _ rfl
  | finish hloop =>
    rw [hloop] at hcloses
    exact ⟨h.every, fun id hid => (by cases hid), hcloses, fun _ => rfl, fun _ _ => rfl⟩

omit [WriteBatch β σ] [LawfulWriteBatch β σ] in
/-- An event while the loop stays where it is. -/
theorem Promises.event (h : s.Promises) {event : Event β ρ} (hpromise : Promise s.log event)
    (hsent : ∀ other, event = .sentFlush other → other ∉ s.loop.hand)
    (hclose : s.loop.settled? = some .close →
      (cut (s.log ++ [event])).current = (cut s.log).current) :
    ({ s with log := s.log ++ [event] } : System β σ ρ).Promises := by
  refine ⟨every_concat.2 ⟨h.every, hpromise⟩, fun id hid => ?_, fun hid => ?_, h.finished, h.owner⟩
  · refine (h.flushes id hid).concat fun other heq hother => ?_
    exact hsent other heq (hother ▸ Loop.mem_hand_of_settled hid)
  · exact (hclose hid).trans (h.closes hid)

omit [WriteBatch β σ] [LawfulWriteBatch β σ] in
theorem Promises.neutral (h : s.Promises) {event : Event β ρ} (hpromise : Promise s.log event)
    (hsent : ∀ other, event = .sentFlush other → other ∉ s.loop.hand)
    (hneutral : event.isNeutral = true) :
    ({ s with log := s.log ++ [event] } : System β σ ρ).Promises :=
  h.event hpromise hsent fun _ => by rw [cut_neutral _ hneutral]

omit [WriteBatch β σ] [LawfulWriteBatch β σ] in
theorem Requests.next_notMem_hand (h : s.Requests) : s.next ∉ s.loop.hand := by
  intro hmem
  have hsent : s.next ∈ sentOf s.log := by
    rw [h.requests.fifo]
    simp [hmem]
  rw [h.requests.fresh] at hsent
  exact Nat.lt_irrefl _ (mem_range.1 hsent)

omit [LawfulWriteBatch β σ] in
theorem Promises.client (h : s.Promises) (hrequests : s.Requests) (hstep : ClientStep s s') :
    s'.Promises := by
  cases hstep with
  | accept batch hclosed =>
    have hpromise : Promise s.log (.accepted batch) := by
      intro hsealed
      rw [hrequests.log hsealed] at hclosed
      cases hclosed
    unfold System.accept
    split
    · exact h
    · have hevent := h.event hpromise (fun _ heq => (by cases heq)) fun hclose => by
        rw [(hrequests.requests.none_left (Loop.closes_of_settled hclose)).1] at hclosed
        cases hclosed
      exact ⟨hevent.every, hevent.flushes, hevent.closes, h.finished, h.owner⟩
  | query run _ _ =>
    have hpromise : Promise s.log (.sentQuery s.next) := trivial
    have hevent := h.neutral hpromise (fun _ heq => (by cases heq)) rfl
    exact ⟨hevent.every, hevent.flushes, hevent.closes, h.finished, h.owner⟩
  | flush _ _ =>
    have hpromise : Promise s.log (.sentFlush s.next) := trivial
    have hevent :=
      h.neutral hpromise (fun other heq => (by cases heq; exact hrequests.next_notMem_hand)) rfl
    exact ⟨hevent.every, hevent.flushes, hevent.closes, h.finished, h.owner⟩
  | refuseQuery _ | refuseFlush _ => exact h.neutral trivial (fun _ heq => (by cases heq)) rfl

omit [LawfulWriteBatch β σ] in
/-- When the loop has ended every accepted batch has been attempted. -/
theorem Promises.attempted_of_ended (h : s.Promises) (hledger : s.Ledger disk₀)
    (hloop : s.loop = .ended) : acceptedOf s.log = (attemptedGroups s.log).flatten := by
  have hcurrent := h.closes (by rw [hloop]; rfl)
  unfold Ledger at hledger
  rw [hloop] at hledger
  rw [hledger.attemptedGroups_eq, acceptedOf_eq, Cut.all, hcurrent, append_nil]

omit [LawfulWriteBatch β σ] in
theorem Promises.ownerStep (h : s.Promises) (hledger : s.Ledger disk₀) (hstep : OwnerStep s s') :
    s'.Promises := by
  cases hstep with
  | close _ | sendClose _ | dropped _ | drop _ =>
    exact ⟨h.every, h.flushes, h.closes, h.finished, fun _ hclosed => (by cases hclosed)⟩
  | closeAgain howner =>
    exact h.neutral (h.attempted_of_ended hledger (h.owner _ howner))
      (fun _ heq => (by cases heq)) rfl
  | sealAdmission howner =>
    have hpromise : Promise s.log .sealed := trivial
    have hevent := h.neutral hpromise (fun _ heq => (by cases heq)) rfl
    exact ⟨hevent.every, hevent.flushes, hevent.closes, h.finished,
      fun _ hclosed => (by cases hclosed)⟩
  | recv howner hfinished =>
    have hended : s.loop = .ended := h.finished (by rw [hfinished]; rfl)
    refine ⟨?_, ?_, ?_, h.finished, fun _ _ => hended⟩
    · exact every_concat.2 ⟨h.every, h.attempted_of_ended hledger hended⟩
    · exact fun id hid => (h.flushes id hid).concat fun _ heq => (by cases heq)
    · intro hclose
      rw [cut_neutral _ rfl]
      exact h.closes hclose

/-! ## Runs -/

structure Inv (disk₀ : σ) (s : System β σ ρ) : Prop where
  ledger : s.Ledger disk₀
  requests : s.Requests
  failures : s.Failures
  promises : s.Promises

theorem Inv.step (h : s.Inv disk₀) (hstep : Step policy s s') : s'.Inv disk₀ := by
  refine ⟨h.ledger.step hstep, h.requests.step hstep, h.failures.step hstep, ?_⟩
  have hpromises := h.promises
  cases hstep with
  | loop hstep => exact hpromises.loop h.ledger h.failures hstep
  | client hstep => exact hpromises.client h.requests hstep
  | owner hstep => exact hpromises.ownerStep h.ledger hstep
  | tick =>
    exact ⟨hpromises.every, hpromises.flushes, hpromises.closes, hpromises.finished,
      hpromises.owner⟩

omit [LawfulWriteBatch β σ] in
theorem inv_start (disk₀ : σ) : (start disk₀ : System β σ ρ).Inv disk₀ where
  ledger := .start disk₀
  requests := ⟨.start, fun h => (by cases h), fun h => absurd h not_mem_nil⟩
  failures := ⟨rfl, rfl⟩
  promises := ⟨every_nil, fun _ h => (by cases h), fun h => (by cases h), fun h => (by cases h),
    fun _ h => (by cases h)⟩

theorem inv_run (hrun : Relation.ReflTransGen (Step policy) (start disk₀) s) : s.Inv disk₀ := by
  induction hrun with
  | refl => exact inv_start disk₀
  | tail hrun hstep ih => exact ih.step hstep

theorem Inv.disk_eq (h : s.Inv disk₀) :
    s.disk = writeAll disk₀ (successful (attemptedGroups s.log) (attemptsOf s.log)) :=
  h.ledger.disk_eq.trans (foldl_attempt h.ledger.attempts_eq disk₀)

omit [LawfulWriteBatch β σ] in
theorem Inv.sent_nodup (h : s.Inv disk₀) : (sentOf s.log).Nodup := by
  rw [h.requests.requests.fresh]
  exact nodup_range

omit [LawfulWriteBatch β σ] in
theorem Inv.replies_prefix (h : s.Inv disk₀) : repliesOf s.log <+: sentOf s.log := by
  rw [h.requests.requests.fifo, append_assoc]
  exact prefix_append ..

end System

end Moli.Writeback
