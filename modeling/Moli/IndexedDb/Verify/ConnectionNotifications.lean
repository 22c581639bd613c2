import Moli.IndexedDb.ConnectionNotifications
import Moli.Lib.Lists

/-!
# Versionchange batches decide exactly once

The completions of a batch that are alive, wherever they are, are as many as the batch is waiting
for (`Inv.counted`). Dropping one lowers both counts, so the assertion in the destructor never fails
and the drop that empties the count is the one that decides whether the batch is blocked. What a
step can do is `change_step`, what it does to a batch `batch_step`; a decided batch is not changed
again.
-/

namespace Moli.IndexedDb.ConnectionNotifications

open Lib List

namespace Registry

/-- The completions of a batch among some notifications. -/
def completions (batch : Nat) (notifications : List VersionChangeNotification) : Nat :=
  notifications.countP fun notification => notification.completion = batch

/-- The completions of a batch that exist: queued, taken, or being dropped with their connection. -/
def alive (r : Registry) (batch : Nat) : Nat :=
  mapSum (fun connection => completions batch connection.notifications) r.connections +
    completions batch r.taken + (r.retiring.map (completions batch)).sum

@[simp] theorem completions_nil (batch : Nat) : completions batch [] = 0 := rfl

theorem completions_append (batch : Nat) (xs ys : List VersionChangeNotification) :
    completions batch (xs ++ ys) = completions batch xs + completions batch ys :=
  countP_append

theorem completions_cons (batch : Nat) (x : VersionChangeNotification)
    (xs : List VersionChangeNotification) :
    completions batch (x :: xs) = completions batch xs + if x.completion = batch then 1 else 0 := by
  simp [completions, countP_cons]

structure Inv (r : Registry) : Prop where
  counted : ∀ i, r.alive i = (r.batches[i]?.map VersionChangeBatch.pending).getD 0
  decided : ∀ (i : Nat) (batch : VersionChangeBatch), r.batches[i]? = some batch →
    (batch.blocked = none ↔ 0 < batch.pending)
  no_underflow : r.underflow = false

theorem Inv.init : Registry.init.Inv where
  counted := fun i => by simp [Registry.init, alive]
  decided := by simp [Registry.init]
  no_underflow := rfl

variable {r r' : Registry}

/-- What a step can do: it moves completions around, acknowledges one that it removes, or begins a
batch. -/
inductive Change (r r' : Registry) : Prop
  | moved (hbatches : r'.batches = r.batches) (halive : ∀ i, r'.alive i = r.alive i)
    (hunderflow : r'.underflow = r.underflow)
  | acknowledged {removed : Registry} {completion : Nat} (heq : r' = removed.acknowledge completion)
    (hbatches : removed.batches = r.batches) (hstates : removed.states = r.states)
    (hunderflow : removed.underflow = r.underflow)
    (halive : ∀ i, removed.alive i + (if completion = i then 1 else 0) = r.alive i)
  | begun {key : String} {oldVersion : UInt64} {newVersion : Option UInt64}
    (heq : r' = r.beginVersionChange key oldVersion newVersion)

theorem Change.refl : Change r r := .moved rfl (fun _ => rfl) rfl

theorem change_register (r : Registry) (handle : DatabaseHandle) (key : String) :
    Change r (r.register handle key) := by
  refine .moved rfl (fun i => ?_) rfl
  have hsum := mapSum_insert (fun c => completions i c.notifications) r.connections handle
    ⟨key, r.states.length, []⟩
  simp only [Registry.register, alive]
  cases hprev : r.connections[handle]? with
  | none =>
    simp only [hprev, mapTerm_none, completions_nil] at hsum ⊢
    omega
  | some connection =>
    simp only [hprev, mapTerm_some, completions_nil] at hsum ⊢
    simp only [map_append, sum_append, map_cons, map_nil, sum_cons, sum_nil]
    omega

theorem change_step (r : Registry) (op : Op) : Change r (r.step op) := by
  cases op with
  | register handle key => exact change_register r handle key
  | beginVersionChange key oldVersion newVersion => exact .begun rfl
  | markClosePending handle =>
    simp only [Registry.step, Registry.markClosePending]
    split
    · exact .refl
    · exact .moved rfl (fun _ => rfl) rfl
  | unregister handle =>
    simp only [Registry.step, Registry.unregister]
    split
    · exact .refl
    · next connection hget =>
      refine .moved rfl (fun i => ?_) rfl
      have hsum := mapSum_erase (fun c => completions i c.notifications) r.connections handle
      simp only [hget, mapTerm_some] at hsum
      simp only [alive, map_append, sum_append, map_cons, map_nil, sum_cons, sum_nil]
      omega
  | takeNotification handle =>
    simp only [Registry.step, Registry.takeNotification]
    split
    · next key state notification rest hget =>
      refine .moved rfl (fun i => ?_) rfl
      have hsum := mapSum_insert (fun c => completions i c.notifications) r.connections handle
        ⟨key, state, rest⟩
      simp only [hget, mapTerm_some, completions_cons] at hsum
      simp only [alive, completions_append, completions_cons, completions_nil]
      omega
    · exact .refl
  | dropNotification index =>
    simp only [Registry.step, Registry.dropNotification]
    split
    · exact .refl
    · next notification hget =>
      refine .acknowledged rfl rfl rfl rfl fun i => ?_
      have herase := countP_eraseIdx (fun n => decide (n.completion = i)) hget
      simp only [decide_eq_true_eq] at herase
      simp only [alive, completions] at herase ⊢
      omega
  | resume call =>
    simp only [Registry.step, Registry.resume]
    split
    · next notification rest hget =>
      refine .acknowledged rfl rfl rfl rfl fun i => ?_
      have hset := sum_map_set (completions i) hget rest
      rw [completions_cons] at hset
      simp only [alive]
      omega
    · exact .refl

/-! ## The invariant -/

/-- What acknowledging does if one completion of the batch has just been removed. -/
theorem acknowledge_eq {completion : Nat} (h : r.Inv) (hbatches : r'.batches = r.batches)
    (halive : 0 < r.alive completion) :
    ∃ batch, r.batches[completion]? = some batch ∧ 0 < batch.pending ∧
      r'.acknowledge completion = { r' with batches := r.batches.set completion { batch with
        pending := batch.pending - 1
        blocked := if batch.pending - 1 = 0 then some (r'.hasOpenConnections batch)
          else batch.blocked } } := by
  have hcounted := h.counted completion
  cases hb : r.batches[completion]? with
  | none =>
    rw [hb] at hcounted
    simp only [Option.map_none, Option.getD_none] at hcounted
    omega
  | some batch =>
    rw [hb] at hcounted
    simp only [Option.map_some, Option.getD_some] at hcounted
    have hpos : 0 < batch.pending := by omega
    refine ⟨batch, rfl, hpos, ?_⟩
    simp only [acknowledge, hbatches, hb, hpos, if_true]

theorem Inv.acknowledge {completion : Nat} (h : r.Inv) (hbatches : r'.batches = r.batches)
    (hunderflow : r'.underflow = r.underflow)
    (halive : ∀ i, r'.alive i + (if completion = i then 1 else 0) = r.alive i) :
    (r'.acknowledge completion).Inv := by
  have hpos : 0 < r.alive completion := by
    rw [← halive completion, if_pos rfl]
    omega
  obtain ⟨batch, hb, hpending, heq⟩ := acknowledge_eq h hbatches hpos
  have hlt : completion < r.batches.length := (List.getElem?_eq_some_iff.1 hb).1
  rw [heq]
  refine ⟨fun i => ?_, fun i b hbi => ?_, hunderflow.trans h.no_underflow⟩
  · change r'.alive i = _
    have hmove := halive i
    have hcounted := h.counted i
    by_cases hi : completion = i
    · subst hi
      rw [hb] at hcounted
      simp only [Option.map_some, Option.getD_some] at hcounted
      simp only [List.getElem?_set_self hlt, Option.map_some, Option.getD_some]
      rw [if_pos rfl] at hmove
      omega
    · rw [if_neg hi] at hmove
      simp only [getElem?_set_ne hi]
      omega
  · by_cases hi : completion = i
    · subst hi
      simp only [List.getElem?_set_self hlt, Option.some.injEq] at hbi
      subst hbi
      have hdecided := h.decided completion batch hb
      simp only
      split
      · simp only [reduceCtorEq, false_iff]
        omega
      · exact hdecided.trans (by omega)
    · rw [getElem?_set_ne hi] at hbi
      exact h.decided i b hbi

/-- The connections that a new batch notifies. -/
def notifies (r : Registry) (key : String) (connection : RegisteredConnection) : Bool :=
  connection.key = key && !r.closePending connection.state

/-- A new batch waits for the connections that it notifies. -/
theorem pending_beginVersionChange (r : Registry) (key : String) :
    ((r.connections.toList.filter fun x => x.2.key = key).map fun x => x.2.state).countP
        (fun state => !r.closePending state) =
      r.connections.toList.countP fun x => r.notifies key x.2 := by
  rw [countP_map, countP_filter]
  refine countP_congr fun x _ => ?_
  simp [notifies, and_comm]

theorem alive_beginVersionChange (r : Registry) (key : String) (oldVersion : UInt64)
    (newVersion : Option UInt64) (i : Nat) :
    (r.beginVersionChange key oldVersion newVersion).alive i =
      r.alive i + if r.batches.length = i then
        r.connections.toList.countP (fun x => r.notifies key x.2) else 0 := by
  have hterm : ∀ x : DatabaseHandle × RegisteredConnection,
      completions i (if x.2.key = key ∧ r.closePending x.2.state = false then
          { x.2 with notifications := x.2.notifications ++
            [⟨oldVersion, newVersion, r.batches.length⟩] }
        else x.2).notifications =
      completions i x.2.notifications +
        if (r.notifies key x.2 && decide (r.batches.length = i)) then 1 else 0 := by
    intro x
    split
    · next hcond => simp [completions_append, completions_cons, notifies, hcond]
    · next hcond =>
      have hnot : r.notifies key x.2 = false := by
        simp only [notifies]
        rw [not_and] at hcond
        by_cases hkey : x.2.key = key
        · simpa [hkey] using hcond hkey
        · simp [hkey]
      simp [hnot]
  simp only [alive, beginVersionChange]
  rw [mapSum_map]
  simp only [hterm]
  rw [sum_map_add_ite]
  by_cases hi : r.batches.length = i
  · simp only [hi, decide_true, Bool.and_true, if_true, mapSum]
    omega
  · simp only [hi, decide_false, Bool.and_false, if_false, mapSum, countP_false,
      Function.const_apply]
    omega

theorem Inv.beginVersionChange (h : r.Inv) (key : String) (oldVersion : UInt64)
    (newVersion : Option UInt64) : (r.beginVersionChange key oldVersion newVersion).Inv := by
  refine ⟨fun i => ?_, fun i batch hb => ?_, h.no_underflow⟩
  · have hcounted := h.counted i
    rw [alive_beginVersionChange, hcounted]
    simp only [Registry.beginVersionChange]
    rcases Nat.lt_trichotomy i r.batches.length with hlt | rfl | hgt
    · rw [if_neg (by omega), List.getElem?_append_left hlt]
      rfl
    · rw [← pending_beginVersionChange]
      simp
    · rw [if_neg (by omega), getElem?_eq_none (by omega),
        getElem?_eq_none (by simp; omega)]
      rfl
  · simp only [Registry.beginVersionChange] at hb
    rcases getElem?_concat_cases hb with hb | ⟨-, rfl⟩
    · exact h.decided i batch hb
    · simp only
      split
      · next hzero =>
        rw [hzero]
        simp
      · simp only [true_iff]
        omega

theorem Inv.step (h : r.Inv) (op : Op) : (r.step op).Inv := by
  cases change_step r op with
  | moved hbatches halive hunderflow =>
    exact ⟨fun i => by rw [halive, hbatches, h.counted],
      fun i batch hb => h.decided i batch (hbatches ▸ hb), hunderflow.trans h.no_underflow⟩
  | acknowledged heq hbatches hstates hunderflow halive =>
    exact heq ▸ h.acknowledge hbatches hunderflow halive
  | begun heq => exact heq ▸ h.beginVersionChange _ _ _

/-! ## What a step does to a batch -/

/-- A batch after a step: as before, or acknowledged once and decided if that was the last time. -/
structure Acknowledged (r : Registry) (batch batch' : VersionChangeBatch) : Prop where
  connections_eq : batch'.connections = batch.connections
  pending_eq : batch'.pending + 1 = batch.pending
  blocked_eq : batch'.blocked =
    if batch'.pending = 0 then some (r.hasOpenConnections batch) else batch.blocked

theorem acknowledge_batch (h : r.Inv) {completion : Nat} (hbatches : r'.batches = r.batches)
    (hstates : r'.states = r.states) (halive : 0 < r.alive completion) {i : Nat}
    {batch : VersionChangeBatch} (hb : r.batches[i]? = some batch) :
    (r'.acknowledge completion).states = r.states ∧
    ∃ batch', (r'.acknowledge completion).batches[i]? = some batch' ∧
      (batch' = batch ∨ Acknowledged r batch batch') := by
  obtain ⟨batch₀, hb₀, hpos, heq⟩ := acknowledge_eq h hbatches halive
  have hopen : r'.hasOpenConnections = r.hasOpenConnections := by
    unfold hasOpenConnections isOpen
    rw [hstates]
  rw [heq]
  refine ⟨hstates, ?_⟩
  by_cases hi : completion = i
  · subst hi
    obtain rfl : batch₀ = batch := Option.mem_unique hb₀ hb
    refine ⟨_, List.getElem?_set_self (List.getElem?_eq_some_iff.1 hb).1, .inr ⟨rfl, ?_, ?_⟩⟩
    · simp only
      omega
    · simp only [hopen]
  · exact ⟨batch, by simpa only [getElem?_set_ne hi] using hb, .inl rfl⟩

theorem batch_step (h : r.Inv) (op : Op) {i : Nat} {batch : VersionChangeBatch}
    (hb : r.batches[i]? = some batch) :
    ∃ batch', (r.step op).batches[i]? = some batch' ∧
      (batch' = batch ∨ Acknowledged r batch batch' ∧ (r.step op).states = r.states) := by
  cases change_step r op with
  | moved hbatches => exact ⟨batch, hbatches ▸ hb, .inl rfl⟩
  | @acknowledged _ completion heq hbatches hstates _ halive =>
    have hpos : 0 < r.alive completion := by
      rw [← halive completion, if_pos rfl]
      omega
    obtain ⟨hstates, batch', hb', hcases⟩ := acknowledge_batch h hbatches hstates hpos hb
    rw [heq]
    exact ⟨batch', hb', hcases.imp_right fun hack => ⟨hack, hstates⟩⟩
  | begun heq =>
    refine ⟨batch, ?_, .inl rfl⟩
    rw [heq]
    exact (List.getElem?_append_left (List.getElem?_eq_some_iff.1 hb).1).trans hb

theorem length_acknowledge (r : Registry) (completion : Nat) :
    (r.acknowledge completion).batches.length = r.batches.length := by
  unfold Registry.acknowledge
  split
  · rfl
  · split <;> simp

/-- A batch is created with the open connections of its key, and decided at once if it notifies
none of them. -/
theorem new_batch (op : Op) {i : Nat} {batch : VersionChangeBatch} (hnone : r.batches[i]? = none)
    (hb : (r.step op).batches[i]? = some batch) :
    ∃ key, batch.connections =
        (r.connections.toList.filter fun x => x.2.key = key).map (fun x => x.2.state) ∧
      batch.pending = r.connections.toList.countP (fun x => r.notifies key x.2) ∧
      batch.blocked = if batch.pending = 0 then some (r.hasOpenConnections batch) else none := by
  cases change_step r op with
  | moved hbatches =>
    rw [hbatches, hnone] at hb
    cases hb
  | @acknowledged removed completion heq hbatches =>
    have hlength := getElem?_eq_none_iff.1 hnone
    rw [← hbatches, ← length_acknowledge removed completion, ← heq] at hlength
    rw [getElem?_eq_none hlength] at hb
    cases hb
  | @begun key _ _ heq =>
    rw [heq] at hb
    rcases getElem?_concat_cases hb with hb | ⟨-, rfl⟩
    · rw [hnone] at hb
      cases hb
    · exact ⟨key, rfl, r.pending_beginVersionChange key, rfl⟩

/-- A decided batch stays as it is. -/
theorem decided_step (h : r.Inv) (op : Op) {i : Nat} {batch : VersionChangeBatch} {b : Bool}
    (hb : r.batches[i]? = some batch) (hblocked : batch.blocked = some b) :
    (r.step op).batches[i]? = some batch := by
  obtain ⟨batch', hb', rfl | ⟨hack, -⟩⟩ := batch_step h op hb
  · exact hb'
  · have hdecided := h.decided i batch hb
    have hpending := hack.pending_eq
    rw [hblocked] at hdecided
    simp only [reduceCtorEq, false_iff] at hdecided
    omega

end Registry

/-! ## Runs -/

open Registry

theorem inv_run (ops : List Op) : (connectionNotifications.run ops).Inv :=
  Machine.invariant Inv.init (fun _ op h => h.step op) ops

theorem run_concat (ops : List Op) (op : Op) :
    connectionNotifications.run (ops ++ [op]) = (connectionNotifications.run ops).step op := by
  rw [Machine.run_append]
  rfl

/-- In every run the completions of a batch that are alive are as many as the batch is waiting for,
so no acknowledgement underflows, and the batch is undecided exactly while it waits for some. The
drop of the last one decides it, by whether a connection of its snapshot is open then; a batch that
waits for nobody is decided when it is created. A decision never changes. -/
theorem batches_decide_once (ops : List Op) :
    (connectionNotifications.run ops).underflow = false ∧
    (∀ (i : Nat) (batch : VersionChangeBatch),
      (connectionNotifications.run ops).batches[i]? = some batch →
      (connectionNotifications.run ops).alive i = batch.pending ∧
      (batch.blocked = none ↔ 0 < batch.pending)) ∧
    (∀ (i : Nat) (batch : VersionChangeBatch) (b : Bool) (more : List Op),
      (connectionNotifications.run ops).batches[i]? = some batch → batch.blocked = some b →
      (connectionNotifications.run (ops ++ more)).batches[i]? = some batch) ∧
    (∀ (i : Nat) (batch batch' : VersionChangeBatch) (b : Bool) (op : Op),
      (connectionNotifications.run ops).batches[i]? = some batch → batch.blocked = none →
      (connectionNotifications.run (ops ++ [op])).batches[i]? = some batch' →
      batch'.blocked = some b →
      batch.pending = 1 ∧ batch'.pending = 0 ∧ batch'.connections = batch.connections ∧
      (connectionNotifications.run (ops ++ [op])).states =
        (connectionNotifications.run ops).states ∧
      b = (connectionNotifications.run ops).hasOpenConnections batch) ∧
    (∀ (i : Nat) (batch : VersionChangeBatch) (b : Bool) (op : Op),
      (connectionNotifications.run ops).batches[i]? = none →
      (connectionNotifications.run (ops ++ [op])).batches[i]? = some batch →
      batch.blocked = some b →
      batch.pending = 0 ∧ b = (connectionNotifications.run ops).hasOpenConnections batch) := by
  have h := inv_run ops
  refine ⟨h.no_underflow, fun i batch hb => ?_, fun i batch b more hb hblocked => ?_,
    fun i batch batch' b op hb hnone hb' hblocked => ?_, fun i batch b op hnone hb hblocked => ?_⟩
  · have hcounted := h.counted i
    rw [hb] at hcounted
    exact ⟨hcounted, h.decided i batch hb⟩
  · rw [Machine.run_append]
    have hkeep : (connectionNotifications.runFrom (connectionNotifications.run ops) more).Inv ∧
        (connectionNotifications.runFrom (connectionNotifications.run ops) more).batches[i]? =
          some batch :=
      Machine.runFrom_invariant (P := fun r : Registry => r.Inv ∧ r.batches[i]? = some batch)
        (fun _ op hr => ⟨hr.1.step op, decided_step hr.1 op hr.2 hblocked⟩) ⟨h, hb⟩ more
    exact hkeep.2
  · rw [run_concat] at hb' ⊢
    obtain ⟨batch'', hb'', hcases⟩ := batch_step h op hb
    obtain rfl : batch'' = batch' := Option.mem_unique hb'' hb'
    rcases hcases with rfl | ⟨hack, hstates⟩
    · rw [hnone] at hblocked
      cases hblocked
    · have hpending := hack.pending_eq
      have heq := hack.blocked_eq
      rw [hblocked] at heq
      split at heq
      · next hzero =>
        exact ⟨by omega, hzero, hack.connections_eq, hstates, Option.some.inj heq⟩
      · rw [hnone] at heq
        cases heq
  · rw [run_concat] at hb
    obtain ⟨key, -, -, heq⟩ := new_batch op hnone hb
    rw [hblocked] at heq
    split at heq
    · next hzero => exact ⟨hzero, Option.some.inj heq⟩
    · cases heq

/-- Two connections, one of them about to close: one notification decides the batch. -/
theorem batches_decide_once_two :
    (connectionNotifications.run
      [.register ⟨1⟩ "db", .register ⟨2⟩ "db", .markClosePending ⟨2⟩,
        .beginVersionChange "db" 1 (some 2), .takeNotification ⟨1⟩]).alive 0 = 1 := by
  obtain ⟨-, hcount, -⟩ := batches_decide_once
    [.register ⟨1⟩ "db", .register ⟨2⟩ "db", .markClosePending ⟨2⟩,
      .beginVersionChange "db" 1 (some 2), .takeNotification ⟨1⟩]
  exact (hcount 0 ⟨[0, 1], 1, none⟩ (by decide)).1

end Moli.IndexedDb.ConnectionNotifications
