import Moli.IndexedDb.ConnectionQueue

/-!
# Queues and their history

What the operations do to the queues (`Enqueues`, `finish_eq`, `Retires`), and how the queues agree
with the log: requests stand in the order of their numbers (`Ordered`), the log knows what became of
each request (`Placed`), and those that were head come before those that wait (`Headed`). Each of
the three is kept by a new request (`enqueue`) and by requests that leave (`shrink`).
-/

namespace Moli.IndexedDb.ConnectionQueue

open Lib List

variable {ν : Type} {log : List (Event ν)} {id : Nat}

/-! ## The log -/

namespace Event

def woken? : Event ν → Option Wake
  | woken wake => some wake
  | _ => none

/-- The wake that an event calls for. -/
def owed? : Event ν → Option Wake
  | promoted _ id => some ⟨id, .head⟩
  | cancelled id => some ⟨id, .cancelled⟩
  | _ => none

def enqueued? : Event ν → Option Nat
  | enqueued _ id _ => some id
  | _ => none

end Event

/-- The wakes that were fired. -/
def fired (log : List (Event ν)) : List Wake := log.filterMap Event.woken?

def owed (log : List (Event ν)) : List Wake := log.filterMap Event.owed?

/-- The wakes that operations still hold. -/
def pending (tasks : Multiset (List Wake)) : Multiset Wake := tasks.bind (↑·)

theorem mem_owed_head : ⟨id, .head⟩ ∈ owed log ↔ ∃ key, .promoted key id ∈ log := by
  simp only [owed, mem_filterMap]
  constructor
  · rintro ⟨event, hmem, h⟩
    cases event with
    | promoted key id' =>
      cases h
      exact ⟨key, hmem⟩
    | _ => cases h
  · rintro ⟨key, h⟩
    exact ⟨_, h, rfl⟩

theorem mem_owed_cancelled : ⟨id, .cancelled⟩ ∈ owed log ↔ .cancelled id ∈ log := by
  simp only [owed, mem_filterMap]
  constructor
  · rintro ⟨event, hmem, h⟩
    cases event with
    | cancelled id' =>
      cases h
      exact hmem
    | _ => cases h
  · intro h
    exact ⟨_, h, rfl⟩

theorem mem_enqueued? (hid : id ∈ log.filterMap Event.enqueued?) :
    ∃ key behind, .enqueued key id behind ∈ log := by
  obtain ⟨event, hmem, h⟩ := mem_filterMap.mp hid
  cases event with
  | enqueued key id' behind =>
    cases h
    exact ⟨key, behind, hmem⟩
  | _ => cases h

variable [LinearOrder ν]

/-- The request that an event makes the head of a queue. -/
def Event.head? (key : Key ν) : Event ν → Option Nat
  | enqueued k id behind => if k = key ∧ behind = false then some id else none
  | promoted k id => if k = key then some id else none
  | _ => none

def Event.request? (key : Key ν) : Event ν → Option Nat
  | enqueued k id _ => if k = key then some id else none
  | _ => none

/-- The requests that became head of a queue, in the order in which they did. -/
def heads (key : Key ν) (log : List (Event ν)) : List Nat := log.filterMap (Event.head? key)

/-- The requests for a key, in the order in which they were enqueued. -/
def requests (key : Key ν) (log : List (Event ν)) : List Nat := log.filterMap (Event.request? key)

/-! ## The operations on the queues -/

namespace QueueState

variable {state state' : QueueState ν} {key k : Key ν}

theorem queue_insert (queue : List Nat) :
    ({ state with queues := state.queues.insert key queue } : QueueState ν).queue k =
      if k = key then queue else state.queue k := by
  unfold QueueState.queue
  rw [SortedMap.find_insert]
  split <;> rfl

theorem queue_remove :
    ({ state with queues := state.queues.remove key } : QueueState ν).queue k =
      if k = key then [] else state.queue k := by
  unfold QueueState.queue
  rw [SortedMap.find_remove]
  split <;> rfl

/-- What an enqueued request finds and leaves. -/
structure Enqueues (state : QueueState ν) (key : Key ν) (state' : QueueState ν) (id : Nat) :
    Prop where
  wasOpen : state.closed = false
  isOpen : state'.closed = false
  id_eq : id = state.nextId + 1
  nextId : state'.nextId = id
  queue : ∀ k, state'.queue k = if k = key then state.queue key ++ [id] else state.queue k

namespace Enqueues

variable (h : Enqueues state key state' id) {x : Nat}
include h

theorem mem_queue : x ∈ state'.queue k ↔ x ∈ state.queue k ∨ k = key ∧ x = id := by
  rw [h.queue]
  split
  next hk => simp [hk]
  next hk => simp [hk]

/-- A request that stands behind another one stood there, or is the new one. -/
theorem of_mem_tail (hx : x ∈ (state'.queue k).tail) :
    x ∈ (state.queue k).tail ∨ k = key ∧ x = id ∧ state.queue key ≠ [] := by
  rw [h.queue] at hx
  split at hx
  next hk =>
    cases hq : state.queue k <;> simp_all
  · exact .inl hx

theorem of_head? (hx : (state'.queue k).head? = some x) :
    (state.queue k).head? = some x ∨ k = key ∧ x = id ∧ state.queue key = [] := by
  rw [h.queue] at hx
  split at hx
  next hk =>
    cases hq : state.queue k <;> simp_all
  · exact .inl hx

end Enqueues

theorem tryEnqueueNamed_spec (h : state.tryEnqueueNamed key = some (state', id)) :
    Enqueues state key state' id := by
  unfold tryEnqueueNamed at h
  split at h
  · cases h
  next hopen =>
    have hclosed := eq_false_of_ne_true hopen
    split at h
    · cases h
      exact ⟨hclosed, hclosed, rfl, rfl, fun k => queue_insert _⟩
    · cases h

/-- The queue of a finished request loses it, and the request after a finished head is woken. -/
theorem finish_eq : state.finish key id =
    if id ∈ state.queue key then
      ({ state with
        queues := if ((state.queue key).erase id).isEmpty then state.queues.remove key
          else state.queues.insert key ((state.queue key).erase id) },
        if (state.queue key).head? = some id then (state.queue key).tail.head? else none)
    else (state, none) := by
  unfold finish
  cases hfind : state.queues.find key with
  | none =>
    have hqueue : state.queue key = [] := by simp only [queue, hfind, Option.getD_none]
    rw [hqueue, if_neg not_mem_nil]
  | some queue =>
    have hqueue : state.queue key = queue := by
      simp only [QueueState.queue, hfind, Option.getD_some]
    have herase : queue.eraseIdx (queue.idxOf id) = queue.erase id :=
      (erase_eq_eraseIdx_of_idxOf rfl).symm
    rw [hqueue]
    dsimp only
    by_cases hmem : id ∈ queue
    · rw [if_pos hmem, if_pos hmem, herase]
      congr 1
      obtain ⟨first, rest, rfl⟩ := exists_cons_of_ne_nil (ne_nil_of_mem hmem)
      by_cases hfirst : first = id
      · simp [hfirst]
      · have hindex : (first :: rest).idxOf id ≠ 0 := by simp [hfirst]
        rw [if_neg hindex, if_neg (by simpa using hfirst)]
    · rw [if_neg hmem, if_neg hmem]

theorem finish_queue : ((state.finish key id).1).queue k =
    if k = key then (state.queue key).erase id else state.queue k := by
  rw [finish_eq]
  split
  · split
    next hempty => rw [queue_remove, isEmpty_iff.mp hempty]
    · exact queue_insert _
  next hmem =>
    rw [erase_of_not_mem hmem]
    split
    next hk => rw [hk]
    · rfl

theorem finish_wake : (state.finish key id).2 =
    if (state.queue key).head? = some id then (state.queue key).tail.head? else none := by
  rw [finish_eq]
  split
  · rfl
  next hmem => rw [if_neg fun h => hmem (mem_of_head? h)]

theorem finish_closed : (state.finish key id).1.closed = state.closed := by
  rw [finish_eq]
  split <;> rfl

theorem finish_nextId : (state.finish key id).1.nextId = state.nextId := by
  rw [finish_eq]
  split <;> rfl

/-- Some queues are emptied, and their requests are returned. -/
structure Retires (state : QueueState ν) (retired : QueueState ν × List Nat) : Prop where
  nextId : retired.1.nextId = state.nextId
  closed : state.closed = true → retired.1.closed = true
  whole : ∃ owns : Key ν → Bool, (∀ k, retired.1.queue k = if owns k then [] else state.queue k) ∧
    retired.2 = (state.queues.entries.filter (owns ·.1)).flatMap (·.2)
  empty : retired.1.closed = true → (∀ k, state.closed = true → state.queue k = []) →
    ∀ k, retired.1.queue k = []

theorem shutdown_retires (state : QueueState ν) : Retires state state.shutdown where
  nextId := rfl
  closed := fun _ => rfl
  whole := ⟨fun _ => true, fun k => rfl, by simp [shutdown]⟩
  empty := fun _ _ k => rfl

theorem cancel_retires (state : QueueState ν) (owns : List Char → Bool) :
    Retires state (state.cancelMatchingOwners owns) := by
  have hqueue : ∀ k, (state.cancelMatchingOwners owns).1.queue k =
      if owns (ofLex k).1 then [] else state.queue k := by
    intro k
    simp only [cancelMatchingOwners, queue, SortedMap.find_mapMaybe]
    cases state.queues.find k with
    | none => split <;> rfl
    | some queue => cases owns (ofLex k).1 <;> simp
  refine ⟨rfl, id, ⟨fun k => owns (ofLex k).1, hqueue, rfl⟩, fun hclosed hempty k => ?_⟩
  rw [hqueue, hempty k hclosed]
  split <;> rfl

variable {retired : QueueState ν × List Nat}

theorem mem_queue :
    id ∈ state.queue key ↔ ∃ queue, (key, queue) ∈ state.queues.entries ∧ id ∈ queue := by
  unfold queue
  cases hfind : state.queues.find key with
  | none =>
    rw [SortedMap.find_eq_none] at hfind
    simp [hfind]
  | some queue =>
    rw [SortedMap.find_eq_some] at hfind
    refine ⟨fun h => ⟨queue, hfind, h⟩, ?_⟩
    rintro ⟨queue', hmem, hid⟩
    obtain ⟨-, rfl⟩ := Prod.mk.inj (SortedMap.eq_of_key_eq hmem hfind rfl)
    exact hid

theorem Retires.mem_iff (h : Retires state retired) :
    id ∈ retired.2 ↔ ∃ k, id ∈ state.queue k ∧ id ∉ retired.1.queue k := by
  obtain ⟨owns, hqueue, hids⟩ := h.whole
  rw [hids, mem_flatMap]
  constructor
  · rintro ⟨⟨k, queue⟩, hmem, hid⟩
    obtain ⟨hentry, howns⟩ := mem_filter.mp hmem
    refine ⟨k, mem_queue.mpr ⟨queue, hentry, hid⟩, ?_⟩
    rw [hqueue, if_pos howns]
    exact not_mem_nil
  · rintro ⟨k, hid, hnot⟩
    obtain ⟨queue, hentry, hin⟩ := mem_queue.mp hid
    rw [hqueue] at hnot
    have howns : owns k = true := by
      by_contra h
      rw [if_neg h] at hnot
      exact hnot hid
    exact ⟨(k, queue), mem_filter.mpr ⟨hentry, howns⟩, hin⟩

theorem Retires.nodup (h : Retires state retired) (hnodup : ∀ k, (state.queue k).Nodup)
    (hdisjoint : ∀ k k' id, id ∈ state.queue k → id ∈ state.queue k' → k = k') :
      retired.2.Nodup := by
  obtain ⟨owns, -, hids⟩ := h.whole
  rw [hids, nodup_flatMap]
  have hentry : ∀ entry ∈ state.queues.entries, state.queue entry.1 = entry.2 := by
    intro entry hentry
    simp only [queue, SortedMap.find_eq_some.mpr hentry, Option.getD_some]
  constructor
  · intro entry hmem
    rw [← hentry entry (mem_of_mem_filter hmem)]
    exact hnodup _
  · refine (state.queues.sorted.filter _).imp_of_mem ?_
    intro entry entry' hmem hmem' hlt id hid hid'
    refine hlt.ne (hdisjoint _ _ id ?_ ?_)
    · rwa [hentry entry (mem_of_mem_filter hmem)]
    · rwa [hentry entry' (mem_of_mem_filter hmem')]

theorem Retires.queue_cases (h : Retires state retired) (k : Key ν) :
    retired.1.queue k = [] ∨ retired.1.queue k = state.queue k := by
  obtain ⟨owns, hqueue, -⟩ := h.whole
  rw [hqueue]
  split
  · exact .inl rfl
  · exact .inr rfl

end QueueState

/-! ## Invariants -/

/-- The queues hold known requests in the order of their numbers. -/
structure Ordered (state : QueueState ν) (log : List (Event ν)) : Prop where
  increasing : ∀ key, (state.queue key).Pairwise (· < ·)
  known : ∀ key id, id ∈ state.queue key → ∃ behind, .enqueued key id behind ∈ log
  bounded : ∀ key id behind, .enqueued key id behind ∈ log → id ≤ state.nextId
  single : ∀ key key' id behind behind', .enqueued key id behind ∈ log →
    .enqueued key' id behind' ∈ log → key = key' ∧ behind = behind'
  issued : (log.filterMap Event.enqueued?).Pairwise (· < ·)
  closed : state.closed = true → ∀ key, state.queue key = []

/-- What happened to a request, by its place in the queues. -/
structure Placed (state : QueueState ν) (log : List (Event ν)) : Prop where
  head : ∀ key id, (state.queue key).head? = some id → .enqueued key id true ∈ log →
    .promoted key id ∈ log
  waiting : ∀ key, ∀ id ∈ (state.queue key).tail,
    (∀ k, .promoted k id ∉ log) ∧ .enqueued key id true ∈ log
  live : ∀ key, ∀ id ∈ state.queue key, .cancelled id ∉ log ∧ .finished id ∉ log
  behind : ∀ key id, .promoted key id ∈ log → .enqueued key id true ∈ log
  removed : ∀ id, .cancelled id ∈ log ∨ .finished id ∈ log → ∃ key behind,
    .enqueued key id behind ∈ log
  conserved : ∀ key id behind, .enqueued key id behind ∈ log →
    id ∈ state.queue key ∨ .finished id ∈ log ∨ .cancelled id ∈ log
  once : (owed log).Nodup

/-- The requests that were head come before those that wait. -/
structure Headed (state : QueueState ν) (log : List (Event ν)) : Prop where
  increasing : ∀ key, (heads key log).Pairwise (· < ·)
  before : ∀ key, ∀ id ∈ heads key log, ∀ x ∈ (state.queue key).tail, id < x
  known : ∀ key, ∀ id ∈ heads key log, ∃ behind, .enqueued key id behind ∈ log
  current : ∀ key id, (state.queue key).head? = some id → id ∈ heads key log

variable {key : Key ν} {events : List (Event ν)}

namespace Ordered

variable {state : QueueState ν}

theorem nodup (h : Ordered state log) (key : Key ν) : (state.queue key).Nodup :=
  (h.increasing key).imp fun hlt => hlt.ne

theorem disjoint (h : Ordered state log) {key' : Key ν} {id : Nat} (hid : id ∈ state.queue key)
    (hid' : id ∈ state.queue key') : key = key' := by
  obtain ⟨behind, hevent⟩ := h.known key id hid
  obtain ⟨behind', hevent'⟩ := h.known key' id hid'
  exact (h.single _ _ _ _ _ hevent hevent').1

/-- The log grows by events that are no new requests, and queues only shrink. -/
theorem shrink {state' : QueueState ν} (h : Ordered state log)
    (hqueue : ∀ key, (state'.queue key).Sublist (state.queue key))
    (hnext : state'.nextId = state.nextId)
    (hclosed : state'.closed = true → ∀ key, state'.queue key = [])
    (hevents : events.filterMap Event.enqueued? = []) : Ordered state' (log ++ events) := by
  have hold : ∀ key id behind, .enqueued key id behind ∈ log ++ events →
      .enqueued key id behind ∈ log := by
    intro key id behind hmem
    refine (mem_append.mp hmem).resolve_right fun hnew => ?_
    have hnone := filterMap_eq_nil_iff.mp hevents _ hnew
    cases hnone
  refine ⟨fun key => (h.increasing key).sublist (hqueue key), ?_, ?_, ?_, ?_, hclosed⟩
  · intro key id hid
    obtain ⟨behind, hevent⟩ := h.known key id ((hqueue key).subset hid)
    exact ⟨behind, mem_append_left _ hevent⟩
  · intro key id behind hevent
    rw [hnext]
    exact h.bounded key id behind (hold _ _ _ hevent)
  · intro key key' id behind behind' hevent hevent'
    exact h.single _ _ _ _ _ (hold _ _ _ hevent) (hold _ _ _ hevent')
  · rw [filterMap_append, hevents, append_nil]
    exact h.issued

theorem enqueue {state' : QueueState ν} {id : Nat} (h : Ordered state log)
    (hspec : QueueState.Enqueues state key state' id) (behind : Bool) :
    Ordered state' (log ++ [.enqueued key id behind]) := by
  have hbelow : ∀ k x, x ∈ state.queue k → x < id := by
    intro k x hx
    obtain ⟨behind', hevent⟩ := h.known k x hx
    have := h.bounded _ _ _ hevent
    have := hspec.id_eq
    omega
  have hfresh : ∀ k behind', .enqueued k id behind' ∉ log := by
    intro k behind' hevent
    have := h.bounded _ _ _ hevent
    have := hspec.id_eq
    omega
  have hcases : ∀ {k x b}, .enqueued k x b ∈ log ++ [Event.enqueued key id behind] →
      .enqueued k x b ∈ log ∨ k = key ∧ x = id ∧ b = behind := by
    intro k x b hmem
    rw [mem_append, mem_singleton] at hmem
    refine hmem.imp_right fun heq => ?_
    cases heq
    exact ⟨rfl, rfl, rfl⟩
  refine ⟨?_, ?_, ?_, ?_, ?_, ?_⟩
  · intro k
    rw [hspec.queue]
    split
    · rw [pairwise_append]
      refine ⟨h.increasing key, pairwise_singleton _ _, fun x hx y hy => ?_⟩
      rw [mem_singleton.mp hy]
      exact hbelow key x hx
    · exact h.increasing k
  · intro k x hx
    rcases hspec.mem_queue.1 hx with hx | ⟨rfl, rfl⟩
    · obtain ⟨behind', hevent⟩ := h.known k x hx
      exact ⟨behind', mem_append_left _ hevent⟩
    · exact ⟨behind, mem_append_right _ (mem_singleton_self _)⟩
  · intro k x behind' hevent
    have := hspec.id_eq
    have := hspec.nextId
    rcases hcases hevent with hold | ⟨-, rfl, -⟩
    · have := h.bounded _ _ _ hold
      omega
    · omega
  · intro k k' x b b' hevent hevent'
    rcases hcases hevent with hold | ⟨rfl, rfl, rfl⟩
    · rcases hcases hevent' with hold' | ⟨rfl, rfl, rfl⟩
      · exact h.single _ _ _ _ _ hold hold'
      · exact absurd hold (hfresh _ _)
    · rcases hcases hevent' with hold' | ⟨rfl, -, rfl⟩
      · exact absurd hold' (hfresh _ _)
      · exact ⟨rfl, rfl⟩
  · rw [filterMap_append, pairwise_append]
    refine ⟨h.issued, pairwise_singleton _ _, fun x hx y hy => ?_⟩
    obtain rfl := mem_singleton.mp hy
    obtain ⟨k, b, hevent⟩ := mem_enqueued? hx
    have := h.bounded _ _ _ hevent
    have := hspec.id_eq
    omega
  · intro hclosed
    rw [hspec.isOpen] at hclosed
    cases hclosed

end Ordered

namespace Placed

variable {state state' : QueueState ν}

/-- Nothing is known of a request that has not come yet. -/
theorem fresh (h : Placed state log) (ho : Ordered state log) (hid : state.nextId < id) :
    (∀ key, .promoted key id ∉ log) ∧ .cancelled id ∉ log ∧ .finished id ∉ log ∧
      ∀ key b, .enqueued key id b ∉ log := by
  have hnone : ∀ key b, .enqueued key id b ∉ log := by
    intro key b hevent
    have := ho.bounded _ _ _ hevent
    omega
  refine ⟨fun key hevent => ?_, fun hevent => ?_, fun hevent => ?_, hnone⟩
  · exact hnone _ _ (h.behind key id hevent)
  · obtain ⟨key, b, hkey⟩ := h.removed id (.inl hevent)
    exact hnone _ _ hkey
  · obtain ⟨key, b, hkey⟩ := h.removed id (.inr hevent)
    exact hnone _ _ hkey

theorem enqueue (h : Placed state log) (ho : Ordered state log)
    (hspec : QueueState.Enqueues state key state' id) :
    Placed state' (log ++ [.enqueued key id (!(state.queue key).isEmpty)]) := by
  have hid : state.nextId < id := by
    have := hspec.id_eq
    omega
  obtain ⟨hpromoted, hcancelled, hfinished, hnone⟩ := h.fresh ho hid
  have hold : ∀ {k x}, .enqueued k x true ∈ log ++
    [Event.enqueued key id (!(state.queue key).isEmpty)] →
      .enqueued k x true ∈ log ∨ k = key ∧ x = id ∧ state.queue key ≠ [] := by
    intro k x hmem
    rw [mem_append, mem_singleton] at hmem
    refine hmem.imp_right fun heq => ?_
    obtain ⟨rfl, rfl, hbehind⟩ := Event.enqueued.inj heq
    refine ⟨rfl, rfl, fun hnil => ?_⟩
    rw [hnil] at hbehind
    cases hbehind
  refine ⟨?_, ?_, ?_, ?_, ?_, ?_, ?_⟩
  · intro k x hhead hevent
    refine mem_append_left _ ?_
    rcases hspec.of_head? hhead with hhead | ⟨rfl, rfl, hnil⟩
    · rcases hold hevent with hevent | ⟨rfl, rfl, -⟩
      · exact h.head k x hhead hevent
      · obtain ⟨b, hfirst⟩ := ho.known k x (mem_of_head? hhead)
        exact absurd hfirst (hnone _ _)
    · rcases hold hevent with hevent | ⟨-, -, hne⟩
      · exact absurd hevent (hnone _ _)
      · exact absurd hnil hne
  · intro k x hx
    simp only [mem_append, mem_singleton, reduceCtorEq, or_false]
    rcases hspec.of_mem_tail hx with hx | ⟨rfl, rfl, hne⟩
    · obtain ⟨hnot, hevent⟩ := h.waiting k x hx
      exact ⟨hnot, .inl hevent⟩
    · exact ⟨hpromoted, .inr (by simp [hne])⟩
  · intro k x hx
    simp only [mem_append, mem_singleton, reduceCtorEq, or_false]
    rcases hspec.mem_queue.1 hx with hx | ⟨rfl, rfl⟩
    · exact h.live k x hx
    · exact ⟨hcancelled, hfinished⟩
  · intro k x hevent
    simp only [mem_append, mem_singleton, reduceCtorEq, or_false] at hevent
    exact mem_append_left _ (h.behind k x hevent)
  · intro x hevent
    simp only [mem_append, mem_singleton, reduceCtorEq, or_false] at hevent
    obtain ⟨k, b, hk⟩ := h.removed x hevent
    exact ⟨k, b, mem_append_left _ hk⟩
  · intro k x b hevent
    simp only [mem_append, mem_singleton, reduceCtorEq, or_false] at hevent ⊢
    rcases hevent with hevent | heq
    · exact (h.conserved k x b hevent).imp_left fun hx => hspec.mem_queue.2 (.inl hx)
    · obtain ⟨rfl, rfl, -⟩ := Event.enqueued.inj heq
      exact .inl (hspec.mem_queue.2 (.inr ⟨rfl, rfl⟩))
  · rw [owed, filterMap_append]
    change (owed log ++ []).Nodup
    rw [append_nil]
    exact h.once

/-- Requests leave the queues, and some requests become head. -/
theorem shrink (h : Placed state log) (ho : Ordered state log)
    (hqueue : ∀ key, (state'.queue key).Sublist (state.queue key))
    (hhead : ∀ key id, (state'.queue key).head? = some id → (state.queue key).head? = some id ∨
      .promoted key id ∈ events)
    (hpromoted : ∀ key id, .promoted key id ∈ events → id ∈ (state.queue key).tail ∧
      (state'.queue key).head? = some id)
    (hgone : ∀ id, .cancelled id ∈ events ∨ .finished id ∈ events ↔
      ∃ key, id ∈ state.queue key ∧ id ∉ state'.queue key)
    (henqueued : ∀ key id behind, .enqueued key id behind ∉ events) (honce : (owed events).Nodup) :
    Placed state' (log ++ events) := by
  have hsub : ∀ {key id}, id ∈ state'.queue key → id ∈ state.queue key :=
    fun hid => (hqueue _).subset hid
  have htail : ∀ {key id}, id ∈ (state'.queue key).tail → id ∈ (state.queue key).tail := fun hid =>
    (hqueue _).tail.subset hid
  have hold : ∀ {key id behind}, .enqueued key id behind ∈ log ++ events →
      .enqueued key id behind ∈ log := fun hmem =>
    (mem_append.mp hmem).resolve_right (henqueued _ _ _)
  refine ⟨?_, ?_, ?_, ?_, ?_, ?_, ?_⟩
  · intro key id hid hevent
    rcases hhead key id hid with hid | hid
    · exact mem_append_left _ (h.head key id hid (hold hevent))
    · exact mem_append_right _ hid
  · intro key id hid
    obtain ⟨hnot, hevent⟩ := h.waiting key id (htail hid)
    refine ⟨fun key' hmem => ?_, mem_append_left _ hevent⟩
    refine (mem_append.mp hmem).elim (hnot key') fun hmem => ?_
    -- it would be the head of its queue
    obtain ⟨hid', hhead'⟩ := hpromoted key' id hmem
    obtain rfl := ho.disjoint (mem_of_mem_tail hid') (mem_of_mem_tail (htail hid))
    obtain ⟨rest, hrest⟩ := head?_eq_some_iff.mp hhead'
    have hnodup := (ho.nodup key').sublist (hqueue key')
    rw [hrest] at hnodup hid
    exact (nodup_cons.mp hnodup).1 hid
  · intro key id hid
    obtain ⟨hcancelled, hfinished⟩ := h.live key id (hsub hid)
    have hstays : ¬(.cancelled id ∈ events ∨ .finished id ∈ events) := by
      rw [hgone]
      rintro ⟨key', hid', hnot⟩
      obtain rfl := ho.disjoint hid' (hsub hid)
      exact hnot hid
    obtain ⟨hc, hf⟩ := not_or.mp hstays
    simp only [mem_append, not_or]
    exact ⟨⟨hcancelled, hc⟩, hfinished, hf⟩
  · intro key id hevent
    rcases mem_append.mp hevent with hevent | hevent
    · exact mem_append_left _ (h.behind key id hevent)
    · exact mem_append_left _ (h.waiting key id (hpromoted key id hevent).1).2
  · intro id hevent
    have hcases : (.cancelled id ∈ log ∨ .finished id ∈ log) ∨
        (.cancelled id ∈ events ∨ .finished id ∈ events) := by
      simp only [mem_append] at hevent
      tauto
    rcases hcases with hevent | hevent
    · obtain ⟨key, b, hkey⟩ := h.removed id hevent
      exact ⟨key, b, mem_append_left _ hkey⟩
    · obtain ⟨key, hid, -⟩ := (hgone id).mp hevent
      obtain ⟨b, hkey⟩ := ho.known key id hid
      exact ⟨key, b, mem_append_left _ hkey⟩
  · intro key id behind hevent
    rcases h.conserved key id behind (hold hevent) with hid | hid | hid
    · by_cases hstays : id ∈ state'.queue key
      · exact .inl hstays
      · have hevent := (hgone id).mpr ⟨key, hid, hstays⟩
        simp only [mem_append]
        tauto
    · exact .inr (.inl (mem_append_left _ hid))
    · exact .inr (.inr (mem_append_left _ hid))
  · rw [owed, filterMap_append]
    refine List.Nodup.append h.once honce fun wake hwake hwake' => ?_
    obtain ⟨id, reason⟩ := wake
    cases reason with
    | head =>
      obtain ⟨key, hold⟩ := mem_owed_head.mp hwake
      obtain ⟨key', hnew⟩ := mem_owed_head.mp hwake'
      exact (h.waiting key' id (hpromoted key' id hnew).1).1 key hold
    | cancelled =>
      obtain ⟨key, hid, -⟩ := (hgone id).mp (.inl (mem_owed_cancelled.mp hwake'))
      exact (h.live key id hid).1 (mem_owed_cancelled.mp hwake)

end Placed

namespace Headed

variable {state state' : QueueState ν}

theorem enqueue (h : Headed state log) (ho : Ordered state log)
    (hspec : QueueState.Enqueues state key state' id) :
    Headed state' (log ++ [.enqueued key id (!(state.queue key).isEmpty)]) := by
  have hbelow : ∀ {k x}, x ∈ heads k log → x < id := by
    intro k x hx
    obtain ⟨b, hevent⟩ := h.known k x hx
    have := ho.bounded _ _ _ hevent
    have := hspec.id_eq
    omega
  have hheads : ∀ k, heads k (log ++ [.enqueued key id (!(state.queue key).isEmpty)]) =
      heads k log ++ if key = k ∧ state.queue key = [] then [id] else [] := by
    intro k
    rw [heads, filterMap_append]
    congr 1
    cases hq : state.queue key <;> by_cases hk : key = k <;> simp [Event.head?, hk]
  have hmem : ∀ {k x}, x ∈ heads k log ++ (if key = k ∧ state.queue key = [] then [id] else []) →
      x ∈ heads k log ∨ key = k ∧ state.queue key = [] ∧ x = id := by
    intro k x hx
    rw [mem_append] at hx
    refine hx.imp_right fun hx => ?_
    split at hx
    next hk => exact ⟨hk.1, hk.2, mem_singleton.mp hx⟩
    · cases hx
  refine ⟨?_, ?_, ?_, ?_⟩
  · intro k
    rw [hheads, pairwise_append]
    refine ⟨h.increasing k, ?_, fun x hx y hy => ?_⟩
    · split
      · exact pairwise_singleton _ _
      · exact .nil
    · split at hy
      · rw [mem_singleton.mp hy]
        exact hbelow hx
      · cases hy
  · intro k x hx y hy
    rw [hheads] at hx
    rcases hspec.of_mem_tail hy with hy | ⟨rfl, rfl, hne⟩
    · rcases hmem hx with hx | ⟨rfl, hnil, -⟩
      · exact h.before k x hx y hy
      · rw [hnil] at hy
        cases hy
    · rcases hmem hx with hx | ⟨-, hnil, -⟩
      · exact hbelow hx
      · exact absurd hnil hne
  · intro k x hx
    rw [hheads] at hx
    rcases hmem hx with hx | ⟨rfl, -, rfl⟩
    · obtain ⟨b, hevent⟩ := h.known k x hx
      exact ⟨b, mem_append_left _ hevent⟩
    · exact ⟨_, mem_append_right _ (mem_singleton_self _)⟩
  · intro k x hx
    rw [hheads]
    rcases hspec.of_head? hx with hx | ⟨rfl, rfl, hnil⟩
    · exact mem_append_left _ (h.current k x hx)
    · exact mem_append_right _ (by simp [hnil])

/-- Queues shrink, and the request that becomes head has waited. -/
theorem shrink (h : Headed state log) (ho : Ordered state log) (hp : Placed state log)
    (hqueue : ∀ key, (state'.queue key).Sublist (state.queue key))
    (hhead : ∀ key id, (state'.queue key).head? = some id → (state.queue key).head? = some id ∨
      .promoted key id ∈ events)
    (hnew : ∀ key, heads key events = [] ∨ ∃ id, heads key events = [id] ∧
      id ∈ (state.queue key).tail ∧ (state'.queue key).head? = some id)
    (hpromoted : ∀ key id, .promoted key id ∈ events → id ∈ heads key events) :
    Headed state' (log ++ events) := by
  have hheads : ∀ key, heads key (log ++ events) = heads key log ++ heads key events := fun key =>
    filterMap_append ..
  refine ⟨?_, ?_, ?_, ?_⟩
  · intro key
    rw [hheads, pairwise_append]
    rcases hnew key with hnil | ⟨id, hid, htail, -⟩
    · rw [hnil]
      exact ⟨h.increasing key, .nil, fun _ _ _ hy => (by cases hy)⟩
    · rw [hid]
      refine ⟨h.increasing key, pairwise_singleton _ _, fun x hx y hy => ?_⟩
      rw [mem_singleton.mp hy]
      exact h.before key x hx id htail
  · intro key x hx y hy
    rw [hheads, mem_append] at hx
    rcases hx with hx | hx
    · exact h.before key x hx y ((hqueue key).tail.subset hy)
    · rcases hnew key with hnil | ⟨id, hid, -, hfirst⟩
      · rw [hnil] at hx
        cases hx
      · rw [hid] at hx
        obtain rfl := mem_singleton.mp hx
        obtain ⟨rest, hrest⟩ := head?_eq_some_iff.mp hfirst
        have hincreasing := (ho.increasing key).sublist (hqueue key)
        rw [hrest] at hincreasing hy
        exact (pairwise_cons.mp hincreasing).1 y hy
  · intro key x hx
    rw [hheads, mem_append] at hx
    rcases hx with hx | hx
    · obtain ⟨b, hevent⟩ := h.known key x hx
      exact ⟨b, mem_append_left _ hevent⟩
    · rcases hnew key with hnil | ⟨id, hid, htail, -⟩
      · rw [hnil] at hx
        cases hx
      · rw [hid] at hx
        obtain rfl := mem_singleton.mp hx
        exact ⟨_, mem_append_left _ (hp.waiting key x htail).2⟩
  · intro key id hid
    rw [hheads, mem_append]
    exact (hhead key id hid).imp (h.current key id) (hpromoted key id)

end Headed

end Moli.IndexedDb.ConnectionQueue
