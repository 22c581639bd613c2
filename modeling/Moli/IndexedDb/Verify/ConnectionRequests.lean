import Mathlib.Data.List.Sort
import Mathlib.Tactic.Abel
import Moli.IndexedDb.Verify.ConnectionQueue

/-!
# Open and delete requests are served in order

Each queue holds the requests of its key in the order in which they came, so the head only moves to
later requests. A request that was behind another one is owed one wake when it becomes head, a
request that is retired is owed one wake for it, and the wakes that were fired together with those
that unfinished operations still hold are exactly the wakes that are owed (`requests_run`).
-/

namespace Moli.IndexedDb.ConnectionQueue

open QueueState List

variable {ν : Type} {log : List (Event ν)} {id : Nat} {tasks : Multiset (List Wake)}
  {events : List (Event ν)} {wakes : List Wake}

/-- An operation adds events and the wakes that they call for. -/
theorem balance_add (h : (fired log : Multiset Wake) + pending tasks = owed log)
    (hfired : fired events = []) (howed : owed events = wakes) :
    (fired (log ++ events) : Multiset Wake) + pending (wakes ::ₘ tasks) = owed (log ++ events) := by
  have hfired' : fired (log ++ events) = fired log := by
    rw [fired, filterMap_append]
    exact (congrArg (fired log ++ ·) hfired).trans (append_nil _)
  have howed' : owed (log ++ events) = owed log ++ wakes := by
    rw [owed, filterMap_append]
    exact congrArg (owed log ++ ·) howed
  rw [hfired', howed', pending, Multiset.cons_bind, ← Multiset.coe_add, ← h]
  abel

variable [LinearOrder ν]

structure Inv (s : System ν) : Prop where
  ordered : Ordered s.state s.log
  placed : Placed s.state s.log
  headed : Headed s.state s.log
  balance : (fired s.log : Multiset Wake) + pending s.tasks = (owed s.log : Multiset Wake)

namespace Inv

variable {s s' : System ν}

theorem init : Inv (System.init : System ν) where
  ordered := by
    refine ⟨fun key => .nil, ?_, ?_, ?_, .nil, fun _ key => rfl⟩
    · intro key id hid
      cases hid
    · intro key id behind hevent
      cases hevent
    · intro key key' id behind behind' hevent
      cases hevent
  placed := by
    refine ⟨?_, ?_, ?_, ?_, ?_, ?_, .nil⟩
    · intro key id hhead
      cases hhead
    · intro key id hid
      cases hid
    · intro key id hid
      cases hid
    · intro key id hevent
      cases hevent
    · intro id hevent
      cases hevent with
      | inl hevent | inr hevent => cases hevent
    · intro key id behind hevent
      cases hevent
  headed := by
    refine ⟨fun key => .nil, ?_, ?_, ?_⟩
    · intro key id hid
      cases hid
    · intro key id hid
      cases hid
    · intro key id hhead
      cases hhead
  balance := rfl

theorem enqueue {key : Key ν} {state : QueueState ν} (h : Inv s)
    (hspec : QueueState.Enqueues s.state key state id) :
    Inv { s with
      state
      log := s.log ++ [.enqueued key id (!(s.state.queue key).isEmpty)] } where
  ordered := h.ordered.enqueue hspec _
  placed := h.placed.enqueue h.ordered hspec
  headed := h.headed.enqueue h.ordered hspec
  balance := by
    have hbalance := h.balance
    rw [fired, owed, filterMap_append, filterMap_append]
    change ((fired s.log ++ [] : List Wake) : Multiset Wake) + pending s.tasks =
      (owed s.log ++ [] : List Wake)
    rwa [append_nil, append_nil]

theorem retire {retired : QueueState ν × List Nat} (h : Inv s)
    (hspec : QueueState.Retires s.state retired) : Inv (s.retire retired) := by
  have hqueue : ∀ key, (retired.1.queue key).Sublist (s.state.queue key) := by
    intro key
    rcases hspec.queue_cases key with hnil | heq
    · rw [hnil]
      exact nil_sublist _
    · rw [heq]
  have hhead : ∀ key id, (retired.1.queue key).head? = some id →
      (s.state.queue key).head? = some id := by
    intro key id hid
    rcases hspec.queue_cases key with hnil | heq
    · rw [hnil] at hid
      cases hid
    · rwa [heq] at hid
  have hsilent {β : Type} {f : Event ν → Option β} (hf : ∀ id, f (.cancelled id) = none) :
      (retired.2.map .cancelled).filterMap f = [] := by
    rw [filterMap_map]
    exact filterMap_eq_nil_iff.2 fun id _ => hf id
  have howed : owed (retired.2.map .cancelled : List (Event ν)) =
      retired.2.map (⟨·, .cancelled⟩) := by
    rw [owed, filterMap_map]
    exact congrFun filterMap_eq_map retired.2
  have hnone : ∀ key id, .promoted key id ∉ (retired.2.map .cancelled : List (Event ν)) := by simp
  have hnodup : retired.2.Nodup :=
    hspec.nodup h.ordered.nodup fun k k' id hid hid' => h.ordered.disjoint hid hid'
  refine ⟨?_, ?_, ?_, balance_add h.balance (hsilent fun _ => rfl) howed⟩
  · exact h.ordered.shrink hqueue hspec.nextId
      (fun hclosed => hspec.empty hclosed fun key hopen => h.ordered.closed hopen key)
      (hsilent fun _ => rfl)
  · refine h.placed.shrink h.ordered hqueue (fun key id hid => .inl (hhead key id hid)) ?_ ?_ ?_ ?_
    · exact fun key id hevent => absurd hevent (hnone key id)
    · intro id
      refine Iff.trans ?_ hspec.mem_iff
      simp
    · simp
    · rw [howed]
      refine hnodup.map fun id id' heq => ?_
      cases heq
      rfl
  · refine h.headed.shrink h.ordered h.placed hqueue (fun key id hid => .inl (hhead key id hid)) ?_
      ?_
    · exact fun key => .inl (hsilent fun _ => rfl)
    · exact fun key id hevent => absurd hevent (hnone key id)

/-- The events of a finished request. -/
def finishEvents (state : QueueState ν) (key : Key ν) (id : Nat) : List (Event ν) :=
  (if state.isActive key id then [.finished id] else []) ++
    (state.finish key id).2.toList.map (.promoted key)

section Finish

variable {state : QueueState ν} {key : Key ν}

theorem finished_mem_finishEvents {x : Nat} :
    .finished x ∈ finishEvents state key id ↔ x = id ∧ id ∈ state.queue key := by
  unfold finishEvents isActive
  by_cases hid : id ∈ state.queue key <;> simp [hid]

theorem promoted_mem_finishEvents {k : Key ν} {x : Nat} :
    .promoted k x ∈ finishEvents state key id ↔ k = key ∧ (state.finish key id).2 = some x := by
  unfold finishEvents isActive
  by_cases hid : id ∈ state.queue key <;>
    cases (state.finish key id).2 <;> simp [eq_comm]

theorem heads_finishEvents (k : Key ν) :
    heads k (finishEvents state key id) = if key = k then (state.finish key id).2.toList
      else [] := by
  unfold finishEvents heads
  rw [filterMap_append]
  have hfirst : filterMap (Event.head? k)
      (if state.isActive key id then [.finished id] else []) = [] := by
    split <;> rfl
  rw [hfirst]
  cases (state.finish key id).2 with
  | none => split <;> rfl
  | some x => by_cases hk : key = k <;> simp [Event.head?, hk]

theorem owed_finishEvents :
    owed (finishEvents state key id) = (state.finish key id).2.toList.map (⟨·, .head⟩) := by
  unfold finishEvents
  cases (state.finish key id).2 <;> split <;> rfl

theorem fired_finishEvents : fired (finishEvents state key id) = [] := by
  unfold finishEvents
  cases (state.finish key id).2 <;> split <;> rfl

/-- The request that is woken was the second one, and is the head now. -/
theorem wake_is_head {x : Nat} (h : (state.finish key id).2 = some x) :
    x ∈ (state.queue key).tail ∧ ((state.finish key id).1.queue key).head? = some x := by
  rw [finish_wake] at h
  split at h
  next hhead =>
    obtain ⟨rest, hrest⟩ := head?_eq_some_iff.mp hhead
    rw [hrest] at h
    refine ⟨?_, ?_⟩
    · rw [hrest]
      exact mem_of_head? h
    · rw [finish_queue, if_pos rfl, hrest, erase_cons_head]
      exact h
  · cases h

/-- A head that is new was woken. -/
theorem head_finish {k : Key ν} {x : Nat} (h : ((state.finish key id).1.queue k).head? = some x) :
    (state.queue k).head? = some x ∨ .promoted k x ∈ finishEvents state key id := by
  rw [promoted_mem_finishEvents, finish_wake]
  rw [finish_queue] at h
  split at h
  next hk =>
    subst hk
    cases hq : state.queue k with
    | nil =>
      rw [hq] at h
      cases h
    | cons first rest =>
      rw [hq] at h
      by_cases hfirst : first = id
      · subst hfirst
        rw [erase_cons_head] at h
        exact .inr ⟨rfl, by rw [head?_cons, if_pos rfl]; exact h⟩
      · rw [erase_cons_tail (by simpa using hfirst)] at h
        exact .inl h
  · exact .inl h

end Finish

theorem finish (h : Inv s) (key : Key ν) (id : Nat) :
    Inv {
      state := (s.state.finish key id).1
      tasks := (s.state.finish key id).2.toList.map (⟨·, .head⟩) ::ₘ s.tasks
      log := s.log ++ finishEvents s.state key id } := by
  have hqueue : ∀ k, ((s.state.finish key id).1.queue k).Sublist (s.state.queue k) := by
    intro k
    rw [finish_queue]
    split
    next hk =>
      subst hk
      exact erase_sublist
    · exact List.Sublist.refl _
  refine ⟨?_, ?_, ?_, balance_add h.balance fired_finishEvents owed_finishEvents⟩
  · refine h.ordered.shrink hqueue finish_nextId ?_ ?_
    · intro hclosed k
      rw [finish_closed] at hclosed
      have hnil := hqueue k
      rw [h.ordered.closed hclosed k] at hnil
      exact eq_nil_of_subset_nil hnil.subset
    · unfold finishEvents
      cases (s.state.finish key id).2 <;> split <;> rfl
  · refine h.placed.shrink h.ordered hqueue (fun k x hx => head_finish hx) ?_ ?_ ?_ ?_
    · intro k x hevent
      obtain ⟨rfl, hwake⟩ := promoted_mem_finishEvents.mp hevent
      exact wake_is_head hwake
    · intro x
      have hnot : .cancelled x ∉ finishEvents s.state key id := by
        unfold finishEvents
        cases (s.state.finish key id).2 <;> split <;> simp
      rw [or_iff_right hnot, finished_mem_finishEvents]
      constructor
      · rintro ⟨rfl, hx⟩
        refine ⟨key, hx, ?_⟩
        rw [finish_queue, if_pos rfl]
        exact (h.ordered.nodup key).not_mem_erase
      · rintro ⟨k, hx, hgone⟩
        rw [finish_queue] at hgone
        split at hgone
        next hk =>
          subst hk
          by_cases hid : x = id
          · exact ⟨hid, hid ▸ hx⟩
          · exact absurd ((mem_erase_of_ne hid).mpr hx) hgone
        · exact absurd hx hgone
    · intro k x behind hevent
      unfold finishEvents at hevent
      revert hevent
      cases (s.state.finish key id).2 <;> split <;> simp
    · rw [owed_finishEvents]
      cases (s.state.finish key id).2 with
      | none => exact .nil
      | some x => exact nodup_singleton _
  · refine h.headed.shrink h.ordered h.placed hqueue (fun k x hx => head_finish hx) ?_ ?_
    · intro k
      rw [heads_finishEvents]
      split
      next hk =>
        subst hk
        cases hwake : (s.state.finish key id).2 with
        | none => exact .inl rfl
        | some x => exact .inr ⟨x, rfl, wake_is_head hwake⟩
      · exact .inl rfl
    · intro k x hevent
      obtain ⟨rfl, hwake⟩ := promoted_mem_finishEvents.mp hevent
      rw [heads_finishEvents, if_pos rfl, hwake]
      exact mem_singleton_self x

theorem fire {wake : Wake} {wakes : List Wake} {rest : Multiset (List Wake)} (h : Inv s)
    (htasks : s.tasks = (wake :: wakes) ::ₘ rest) :
    Inv { s with
      tasks := wakes ::ₘ rest
      log := s.log ++ [.woken wake] } := by
  refine ⟨?_, ?_, ?_, ?_⟩
  · exact h.ordered.shrink (fun key => .refl _) rfl (fun hclosed => h.ordered.closed hclosed) rfl
  · refine h.placed.shrink h.ordered (fun key => .refl _) (fun key id hid => .inl hid) ?_ ?_ ?_ .nil
    · simp
    · simp
    · simp
  · exact h.headed.shrink h.ordered h.placed (fun key => .refl _) (fun key id hid => .inl hid)
      (fun key => .inl rfl) (by simp)
  · have hbalance := h.balance
    have hfired : fired (s.log ++ [.woken wake]) = fired s.log ++ [wake] := by
      rw [fired, filterMap_append]
      rfl
    have howed : owed (s.log ++ [.woken wake]) = owed s.log := by
      rw [owed, filterMap_append]
      exact append_nil _
    rw [htasks, pending, Multiset.cons_bind, ← Multiset.cons_coe,
      ← Multiset.singleton_add] at hbalance
    rw [hfired, howed, pending, Multiset.cons_bind, ← Multiset.coe_add,
      Multiset.coe_singleton, ← hbalance]
    abel

theorem step (h : Inv s) (hstep : System.Step s s') : Inv s' := by
  cases hstep with
  | enqueue henqueue => exact h.enqueue (tryEnqueueNamed_spec henqueue)
  | finish key id => exact h.finish key id
  | cancelOwner | cancelOwnerPrefix => exact h.retire (cancel_retires _ _)
  | shutdown => exact h.retire (shutdown_retires _)
  | fire htasks => exact h.fire htasks

theorem steps (h : Inv s) (hsteps : System.Steps s s') : Inv s' := by
  induction hsteps with
  | refl => exact h
  | tail _ hstep ih => exact ih.step hstep

/-- How often a request is woken for a reason, fired or still pending. -/
theorem count_wakes (h : Inv s) (wake : Wake) :
    (fired s.log).count wake + (pending s.tasks).count wake = (owed s.log).count wake := by
  have hcount := congrArg (Multiset.count wake) h.balance
  rwa [Multiset.count_add, Multiset.coe_count, Multiset.coe_count] at hcount

theorem sublist_heads (h : Inv s) (key : Key ν) :
    (heads key s.log).Sublist (requests key s.log) := by
  have hissued : (requests key s.log).Pairwise (· < ·) := by
    refine h.ordered.issued.sublist ?_
    unfold requests
    generalize s.log = log
    induction log with
    | nil => exact .slnil
    | cons event log ih =>
      cases event with
      | enqueued k id behind =>
        by_cases hk : k = key
        · have hrequest : Event.request? key (.enqueued k id behind) = some id := if_pos hk
          rw [filterMap_cons_some hrequest]
          exact ih.cons_cons id
        · have hrequest : Event.request? key (.enqueued k id behind) = none := if_neg hk
          rw [filterMap_cons_none hrequest]
          exact ih.cons id
      | _ => exact ih
  have hsubset : heads key s.log ⊆ requests key s.log := by
    intro id hid
    obtain ⟨behind, hevent⟩ := h.headed.known key id hid
    exact mem_filterMap.mpr ⟨_, hevent, if_pos rfl⟩
  have hnodup : (heads key s.log).Nodup := (h.headed.increasing key).imp fun hlt => hlt.ne
  exact sublist_of_subperm_of_pairwise (hnodup.subperm hsubset)
    (h.headed.increasing key) hissued

end Inv

/-! ## Runs -/

/-- What holds of the requests, in a state that was reached. -/
structure Served (s : System ν) : Prop where
  /-- A key has one head at a time. -/
  oneHead : ∀ key id id', s.state.isHead key id = true → s.state.isHead key id' = true → id = id'
  /-- Requests become head in the order in which they were enqueued. -/
  inOrder : ∀ key, (heads key s.log).Sublist (requests key s.log)
  head : ∀ key id, s.state.isHead key id = true → id ∈ heads key s.log
  /-- A request is in its queue until it is finished or cancelled. -/
  conserved : ∀ key id behind, .enqueued key id behind ∈ s.log →
    s.state.isActive key id = true ∨ .finished id ∈ s.log ∨ .cancelled id ∈ s.log
  headWake : ∀ key id, .enqueued key id true ∈ s.log → s.state.isHead key id = true →
    (fired s.log).count ⟨id, .head⟩ + (pending s.tasks).count ⟨id, .head⟩ = 1
  cancelWake : ∀ id, .cancelled id ∈ s.log →
    (fired s.log).count ⟨id, .cancelled⟩ + (pending s.tasks).count ⟨id, .cancelled⟩ = 1
  /-- Wakes are fired for these reasons only, and for each at most once. -/
  firedHead : ∀ id, ⟨id, .head⟩ ∈ fired s.log →
    ∃ key, .enqueued key id true ∈ s.log ∧ id ∈ heads key s.log
  firedCancelled : ∀ id, ⟨id, .cancelled⟩ ∈ fired s.log → .cancelled id ∈ s.log
  firedOnce : (fired s.log).Nodup
  /-- After a shutdown the queues stay empty. -/
  closed : ∀ s', System.Steps (s.retire s.state.shutdown) s' → ∀ key, s'.state.queue key = []

theorem closed_steps {s s' : System ν} (h : System.Steps s s') (hclosed : s.state.closed = true) :
    s'.state.closed = true := by
  induction h with
  | refl => exact hclosed
  | tail _ hstep ih =>
    cases hstep with
    | enqueue henqueue =>
      have hspec := tryEnqueueNamed_spec henqueue
      rw [hspec.wasOpen] at ih
      cases ih
    | finish key id => exact finish_closed.trans ih
    | cancelOwner owner | cancelOwnerPrefix start | fire htasks => exact ih
    | shutdown => rfl

/-- Every run serves its requests in order. -/
theorem requests_run {s : System ν} (h : System.Steps .init s) : Served s := by
  have hinv := Inv.init.steps h
  have howed : ∀ {wake : Wake}, wake ∈ owed s.log →
      (fired s.log).count wake + (pending s.tasks).count wake = 1 := by
    intro wake hwake
    rw [hinv.count_wakes, count_eq_one_of_mem hinv.placed.once hwake]
  have hfired : ∀ {wake : Wake}, wake ∈ fired s.log → wake ∈ owed s.log := by
    intro wake hwake
    have hcount := hinv.count_wakes wake
    have hpos := count_pos_iff.mpr hwake
    exact count_pos_iff.mp (by omega)
  refine ⟨?_, hinv.sublist_heads, ?_, ?_, ?_, ?_, ?_, ?_, ?_, ?_⟩
  · intro key id id' hid hid'
    exact Option.some.inj ((of_decide_eq_true hid).symm.trans (of_decide_eq_true hid'))
  · exact fun key id hid => hinv.headed.current key id (of_decide_eq_true hid)
  · intro key id behind hevent
    exact (hinv.placed.conserved key id behind hevent).imp_left fun hid => decide_eq_true hid
  · intro key id hevent hid
    have hpromoted := hinv.placed.head key id (of_decide_eq_true hid) hevent
    exact howed (mem_owed_head.mpr ⟨key, hpromoted⟩)
  · exact fun id hevent => howed (mem_owed_cancelled.mpr hevent)
  · intro id hid
    obtain ⟨key, hevent⟩ := mem_owed_head.mp (hfired hid)
    exact ⟨key, hinv.placed.behind key id hevent, mem_filterMap.mpr ⟨_, hevent, if_pos rfl⟩⟩
  · exact fun id hid => mem_owed_cancelled.mp (hfired hid)
  · rw [nodup_iff_count_le_one]
    intro wake
    have hcount := hinv.count_wakes wake
    have hle := nodup_iff_count_le_one.mp hinv.placed.once wake
    omega
  · intro s' hsteps
    have hinv' := (hinv.retire (shutdown_retires s.state)).steps hsteps
    exact hinv'.ordered.closed (closed_steps hsteps rfl)

/-- Two requests of one key: the first is finished, and the second is woken. -/
theorem requests_run_second_woken :
    ∃ s : System Nat, System.Steps .init s ∧ Served s ∧ s.state.isHead (toLex (['o'], 0)) 2 = true ∧
      fired s.log = [⟨2, .head⟩] := by
  have hrun : ∃ s : System Nat, System.Steps .init s ∧ s.state.isHead (toLex (['o'], 0)) 2 = true ∧
      fired s.log = [⟨2, .head⟩] := by
    refine ⟨_, .head (@System.Step.enqueue Nat _ _ (toLex (['o'], 0)) _ _ rfl)
      (.head (@System.Step.enqueue Nat _ _ (toLex (['o'], 0)) _ _ rfl)
        (.head (.finish _ (toLex (['o'], 0)) 1)
          (.head (@System.Step.fire Nat _ _ ⟨2, .head⟩ [] 0 rfl) .refl))), ?_, ?_⟩
    · rfl
    · rfl
  obtain ⟨s, hsteps, hhead, hfired⟩ := hrun
  exact ⟨s, hsteps, requests_run hsteps, hhead, hfired⟩

end Moli.IndexedDb.ConnectionQueue
