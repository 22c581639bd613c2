import Moli.MessagePort.Registry

/-!
# Message ports neither lose, duplicate nor reorder payloads

The account of an endpoint (`PortOk`) is kept by every operation: what was accepted for it is what
was delivered, what is still pending and what was handed back when the endpoint was removed, in this
order. Together with the entanglement and the range of the identifiers in use this is the invariant
`Inv`. It needs fresh identifiers, so it is proved for runs that allocate fewer than `2 ^ 64` of
them; `wrapped_id_loses_payload` is a run beyond that bound.
-/

namespace Moli.MessagePort

open Lib MessagePortPoll List

variable {P O : Type}

/-! ## Reading the log -/

def Event.port? : Event P → Option MessagePortId
  | .accepted portId _ => some portId
  | .returned _ => none
  | .delivered portId _ => some portId
  | .discarded portId _ => some portId
  | .closed portId _ => some portId

/-- The payloads accepted for an endpoint, in order. -/
def accepted (k : MessagePortId) (log : List (Event P)) : List P :=
  log.filterMap fun
    | .accepted k' payload => if k' = k then some payload else none
    | _ => none

/-- The payloads an endpoint delivered, in order. -/
def delivered (k : MessagePortId) (log : List (Event P)) : List P :=
  log.filterMap fun
    | .delivered k' payload => if k' = k then some payload else none
    | _ => none

/-- The payloads that were handed back when the endpoint was removed. -/
def discarded (k : MessagePortId) (log : List (Event P)) : List P :=
  log.filterMap fun
    | .discarded k' payload => if k' = k then some payload else none
    | _ => none

/-- The close notifications an endpoint delivered. -/
def closes (k : MessagePortId) (log : List (Event P)) : Nat :=
  log.countP fun
    | .closed k' _ => k' = k
    | _ => false

/-- The payloads that were handed in, accepted or returned. -/
def handedIn (log : List (Event P)) : List P :=
  log.filterMap fun
    | .accepted _ payload => some payload
    | .returned payload => some payload
    | _ => none

section
variable (k : MessagePortId) (xs ys : List (Event P))

theorem accepted_append : accepted k (xs ++ ys) = accepted k xs ++ accepted k ys :=
  filterMap_append

theorem delivered_append : delivered k (xs ++ ys) = delivered k xs ++ delivered k ys :=
  filterMap_append

theorem discarded_append : discarded k (xs ++ ys) = discarded k xs ++ discarded k ys :=
  filterMap_append

theorem closes_append : closes k (xs ++ ys) = closes k xs + closes k ys :=
  countP_append

end

variable {k q : MessagePortId} {log events : List (Event P)} {state peer : MessagePortState P O}

/-- Events of other endpoints do not count. -/
theorem events_of_others (h : ∀ e ∈ events, e.port? ≠ some k) :
    accepted k events = [] ∧ delivered k events = [] ∧ discarded k events = [] ∧
      closes k events = 0 := by
  induction events with
  | nil => exact ⟨rfl, rfl, rfl, rfl⟩
  | cons e events ih =>
    rw [forall_mem_cons] at h
    have he := h.1
    cases e <;> simp only [Event.port?] at he <;>
      simp_all [accepted, delivered, discarded, closes]

/-! ## The account of an endpoint -/

def pending (state : Option (MessagePortState P O)) : List P :=
  (state.map MessagePortState.pendingMessages).getD []

/-- The close notifications an endpoint can still deliver. -/
def closesToCome (state : Option (MessagePortState P O)) : Nat :=
  match state with
  | none => 0
  | some s => (if s.pendingClose.isSome then 1 else 0) + (if s.peerId.isSome then 1 else 0)

structure PortOk (k : MessagePortId) (log : List (Event P))
    (state : Option (MessagePortState P O)) : Prop where
  account : accepted k log = delivered k log ++ pending state ++ discarded k log
  undiscarded : state ≠ none → discarded k log = []
  closes_le : closes k log + closesToCome state ≤ 1

theorem PortOk.frame {state : Option (MessagePortState P O)} (h : PortOk k log state)
    (hevents : ∀ e ∈ events, e.port? ≠ some k) : PortOk k (log ++ events) state := by
  obtain ⟨ha, hd, hr, hc⟩ := events_of_others hevents
  obtain ⟨haccount, hundiscarded, hcloses⟩ := h
  constructor
  · rw [accepted_append, delivered_append, discarded_append, ha, hd, hr]
    simpa using haccount
  · rw [discarded_append, hr]
    simpa using hundiscarded
  · rwa [closes_append, hc]

namespace MessagePortRegistry

/-- The peer of a registered endpoint. -/
def peer? (r : MessagePortRegistry P O) (k : MessagePortId) : Option (Option MessagePortId) :=
  r.ports[k]?.map MessagePortState.peerId

theorem getElem?_update (r : MessagePortRegistry P O) (k k' : MessagePortId)
    (state : MessagePortState P O) :
    (r.update k state).ports[k']? = if k' = k then some state else r.ports[k']? := by
  simp only [update, Std.TreeMap.getElem?_insert, Std.LawfulEqCmp.compare_eq_iff_eq,
    eq_comm (a := k')]

theorem getElem?_remove (r : MessagePortRegistry P O) (k k' : MessagePortId) :
    (r.remove k).ports[k']? = if k' = k then none else r.ports[k']? := by
  simp only [remove, Std.TreeMap.getElem?_erase, Std.LawfulEqCmp.compare_eq_iff_eq,
    eq_comm (a := k')]

end MessagePortRegistry

open MessagePortRegistry

/-- The invariant after `n` allocations. -/
structure Inv (n : Nat) (w : World P O) : Prop where
  counter : w.registry.nextPortId.toNat = (n + 1) % 2 ^ 64
  registered : ∀ k : MessagePortId, w.registry.ports[k]? ≠ none → 0 < k.toNat ∧ k.toNat ≤ n
  logged : ∀ e ∈ w.log, ∀ k, e.port? = some k → 0 < k.toNat ∧ k.toNat ≤ n
  ports : ∀ k, PortOk k w.log w.registry.ports[k]?
  peers : ∀ k q, w.registry.peer? k = some (some q) →
    q ≠ k ∧ w.registry.peer? q = some (some k)

theorem Inv.init : Inv 0 (messagePorts : Machine (World P O) (Op P O)).init where
  counter := rfl
  registered := by simp [messagePorts, MessagePortRegistry.default]
  logged := by simp [messagePorts]
  ports := fun k => by
    exact ⟨rfl, fun h => absurd rfl h, Nat.zero_le _⟩
  peers := by simp [messagePorts, MessagePortRegistry.default, peer?]

variable {n m : Nat} {w : World P O} {r : MessagePortRegistry P O}

theorem peer?_of_get (h : r.ports[k]? = some state) : r.peer? k = some state.peerId := by
  rw [peer?, h]
  rfl

section Change
variable (h : Inv n w) (changed : List MessagePortId) (hm : n ≤ m)
  (hcounter : r.nextPortId.toNat = (m + 1) % 2 ^ 64)
  (hbound : ∀ j ∈ changed, 0 < j.toNat ∧ j.toNat ≤ m)
  (hsame : ∀ j ∉ changed, r.ports[j]? = w.registry.ports[j]?)
  (hevents : ∀ e ∈ events, ∀ j, e.port? = some j → j ∈ changed)
  (hok : ∀ j ∈ changed, PortOk j (w.log ++ events) r.ports[j]?)
include h hm hcounter hbound hsame hevents hok

/-- A call that changes some endpoints, with events of theirs. -/
theorem Inv.change
    (hpeers : ∀ j q, r.peer? j = some (some q) → q ≠ j ∧ r.peer? q = some (some j)) :
    Inv m ⟨r, w.log ++ events⟩ := by
  refine ⟨hcounter, fun j hj => ?_, fun e he j hj => ?_, fun j => ?_, hpeers⟩
  · by_cases hmem : j ∈ changed
    · exact hbound j hmem
    · exact (h.registered j (hsame j hmem ▸ hj)).imp_right hm.trans'
  · rcases mem_append.1 he with he | he
    · exact (h.logged e he j hj).imp_right hm.trans'
    · exact hbound j (hevents e he j hj)
  · by_cases hmem : j ∈ changed
    · exact hok j hmem
    · rw [hsame j hmem]
      exact (h.ports j).frame fun e he hj => hmem (hevents e he j hj)

/-- The changed endpoints were entangled only with each other, and are so afterwards. -/
theorem Inv.rewire
    (hbefore : ∀ j ∈ changed, ∀ q, w.registry.peer? j = some (some q) → q ∈ changed)
    (hafter : ∀ j ∈ changed, ∀ q, r.peer? j = some (some q) →
      q ≠ j ∧ r.peer? q = some (some j)) : Inv m ⟨r, w.log ++ events⟩ := by
  refine h.change changed hm hcounter hbound hsame hevents hok fun j q hj => ?_
  by_cases hmem : j ∈ changed
  · exact hafter j hmem q hj
  · rw [peer?, hsame j hmem] at hj
    obtain ⟨hne, hback⟩ := h.peers j q hj
    rw [peer?, hsame q fun hq => hmem (hbefore q hq j hback)]
    exact ⟨hne, hback⟩

end Change

/-- A call that only changes what is queued at one endpoint, or its owner. -/
theorem Inv.touch (h : Inv n w) {state' : MessagePortState P O}
    (hk : w.registry.ports[k]? = some state) (hpeer : state'.peerId = state.peerId)
    (hevents : ∀ e ∈ events, e.port? = some k) (hok : PortOk k (w.log ++ events) (some state')) :
    Inv n ⟨w.registry.update k state', w.log ++ events⟩ := by
  have hpeers : ∀ j, (w.registry.update k state').peer? j = w.registry.peer? j := by
    intro j
    rw [peer?, getElem?_update, peer?]
    split
    · next hj => rw [hj, hk, Option.map_some, Option.map_some, hpeer]
    · rfl
  refine h.change [k] le_rfl h.counter ?_ (fun j hj => ?_) (fun e he j hj => ?_) ?_ ?_
  · exact forall_mem_singleton.2 (h.registered k (by simp [hk]))
  · rw [getElem?_update, if_neg (mt mem_singleton.2 hj)]
  · rw [hevents e he, Option.some.injEq] at hj
    exact mem_singleton.2 hj.symm
  · rwa [forall_mem_singleton, getElem?_update, if_pos rfl]
  · simpa only [hpeers] using h.peers

/-- Payloads that are handed back change nothing. -/
theorem Inv.returned (h : Inv n w) (payload : P) :
    Inv n ⟨w.registry, w.log ++ [.returned payload]⟩ := by
  refine ⟨h.counter, h.registered, fun e he j hj => ?_, fun j => (h.ports j).frame ?_, h.peers⟩
  · rcases mem_append.1 he with he | he
    · exact h.logged e he j hj
    · rw [mem_singleton.1 he] at hj
      cases hj
  · simp [Event.port?]

theorem Inv.noEvents (h : Inv n w) : Inv n ⟨w.registry, w.log ++ []⟩ := by
  rw [append_nil]
  exact h

/-! ## Creation -/

theorem Inv.fresh (h : Inv n w) (hk : n < k.toNat) :
    w.registry.ports[k]? = none ∧ ∀ e ∈ w.log, e.port? ≠ some k := by
  constructor
  · by_contra hne
    exact absurd (h.registered k hne).2 (by omega)
  · intro e he heq
    exact absurd (h.logged e he k heq).2 (by omega)

theorem Inv.portOk_fresh (h : Inv n w) (hk : n < k.toNat)
    (hpending : state.pendingMessages = []) (hcloses : closesToCome (some state) ≤ 1) :
    PortOk k w.log (some state) := by
  obtain ⟨ha, hd, hr, hc⟩ := events_of_others (h.fresh hk).2
  exact ⟨by simp [ha, hd, hr, pending, hpending], fun _ => hr, by omega⟩

theorem nextMessagePortId_eq (hcounter : r.nextPortId.toNat = (m + 1) % 2 ^ 64)
    (hm : m + 1 < 2 ^ 64) :
    (r.nextMessagePortId).1.toNat = m + 1 ∧
      (r.nextMessagePortId).2.nextPortId.toNat = (m + 1 + 1) % 2 ^ 64 := by
  have hnext : r.nextPortId.toNat = m + 1 := by omega
  constructor
  · change (if r.nextPortId ≤ 1 then (1 : UInt64) else r.nextPortId).toNat = m + 1
    split
    · next hle =>
      rw [UInt64.le_iff_toNat_le, UInt64.toNat_one] at hle
      rw [UInt64.toNat_one]
      omega
    · exact hnext
  · rw [nextMessagePortId, UInt64.toNat_add, hnext]
    rfl

theorem Inv.create (h : Inv n w) (hn : n + 1 < 2 ^ 64) (hpeer : state.peerId = none)
    (hpending : state.pendingMessages = []) :
    Inv (n + 1) ⟨(w.registry.nextMessagePortId).2.update (w.registry.nextMessagePortId).1 state,
      w.log ++ []⟩ := by
  obtain ⟨hid, hnext⟩ := nextMessagePortId_eq h.counter hn
  generalize (w.registry.nextMessagePortId).1 = id at hid
  have hget := getElem?_update (w.registry.nextMessagePortId).2 id
  have hfresh := h.fresh (k := id) (by omega)
  refine h.rewire [id] (Nat.le_succ n) hnext ?_ (fun j hj => ?_) (by simp) ?_ ?_ ?_
  · simp [hid]
  · rw [hget, if_neg (mt mem_singleton.2 hj)]
    rfl
  · rw [forall_mem_singleton, hget, if_pos rfl, append_nil]
    refine h.portOk_fresh (by omega) hpending ?_
    simp only [closesToCome, hpeer]
    split <;> simp
  · simp [peer?, hfresh.1]
  · simp [peer?, hget, hpeer]

theorem Inv.createPair (h : Inv n w) (hn : n + 2 < 2 ^ 64) (owner : O) :
    Inv (n + 2) ⟨(w.registry.createEntangledMessagePortPair owner).2, w.log ++ []⟩ := by
  obtain ⟨hid₁, hnext₁⟩ := nextMessagePortId_eq h.counter (by omega)
  obtain ⟨hid₂, hnext₂⟩ := nextMessagePortId_eq hnext₁ (by omega)
  have hget : ∀ k, ((w.registry.createEntangledMessagePortPair owner).2).ports[k]? =
      if k = (w.registry.nextMessagePortId).2.nextMessagePortId.1 then
        some ⟨some (w.registry.nextMessagePortId).1, some owner, [], none⟩
      else if k = (w.registry.nextMessagePortId).1 then
        some ⟨some (w.registry.nextMessagePortId).2.nextMessagePortId.1, some owner, [], none⟩
      else w.registry.ports[k]? := by
    intro k
    simp only [createEntangledMessagePortPair, Std.TreeMap.getElem?_insert,
      Std.LawfulEqCmp.compare_eq_iff_eq, eq_comm (b := k)]
    rfl
  have hnext : (w.registry.createEntangledMessagePortPair owner).2.nextPortId.toNat =
      (n + 2 + 1) % 2 ^ 64 := hnext₂
  generalize (w.registry.nextMessagePortId).2.nextMessagePortId.1 = id₂ at hid₂ hget
  generalize (w.registry.nextMessagePortId).1 = id₁ at hid₁ hget
  have hne : id₁ ≠ id₂ := by
    rintro rfl
    omega
  have hfresh₁ := h.fresh (k := id₁) (by omega)
  have hfresh₂ := h.fresh (k := id₂) (by omega)
  refine h.rewire [id₁, id₂] (Nat.le_add_right n 2) hnext ?_ (fun j hj => ?_) (by simp) ?_ ?_ ?_
  · simp [hid₁, hid₂]
  · simp only [mem_cons, not_mem_nil, or_false, not_or] at hj
    rw [hget, if_neg hj.2, if_neg hj.1]
  · simp only [forall_mem_cons, hget, hne, append_nil]
    exact ⟨h.portOk_fresh (by omega) rfl le_rfl, h.portOk_fresh (by omega) rfl le_rfl, by simp⟩
  · simp [peer?, hfresh₁.1, hfresh₂.1]
  · simp [peer?, hget, hne, Ne.symm hne]

/-! ## Removal -/

theorem events_of_discarded (k : MessagePortId) (payloads : List P) :
    accepted k (payloads.map (Event.discarded k)) = [] ∧
      delivered k (payloads.map (Event.discarded k)) = [] ∧
      discarded k (payloads.map (Event.discarded k)) = payloads ∧
      closes k (payloads.map (Event.discarded k)) = 0 := by
  induction payloads with
  | nil => exact ⟨rfl, rfl, rfl, rfl⟩
  | cons payload payloads ih => simp_all [accepted, delivered, discarded, closes]

theorem port?_of_mem_discarded {payloads : List P} {e : Event P}
    (he : e ∈ payloads.map (Event.discarded k)) : e.port? = some k := by
  obtain ⟨payload, -, rfl⟩ := mem_map.1 he
  rfl

theorem PortOk.frame_discarded {j : MessagePortId} {state : Option (MessagePortState P O)}
    (h : PortOk j log state) (hjk : j ≠ k) (payloads : List P) :
    PortOk j (log ++ payloads.map (.discarded k)) state :=
  h.frame fun e he => by
    rw [port?_of_mem_discarded he, ne_eq, Option.some.injEq]
    exact Ne.symm hjk

/-- A removed endpoint has handed back what was pending. -/
theorem PortOk.remove (h : PortOk k log (some state)) :
    PortOk k (log ++ state.pendingMessages.map (.discarded k))
      (none : Option (MessagePortState P O)) := by
  obtain ⟨ha, hd, hr, hc⟩ := events_of_discarded k state.pendingMessages
  have hnone := h.undiscarded (by simp)
  have haccount := h.account
  constructor
  · rw [accepted_append, delivered_append, discarded_append, ha, hd, hr, haccount, hnone]
    simp [pending]
  · exact fun hne => absurd rfl hne
  · have hcloses := h.closes_le
    rw [closes_append]
    simp only [closesToCome]
    omega

/-- Removing an endpoint that is not entangled. -/
theorem Inv.remove (h : Inv n w) (hk : w.registry.ports[k]? = some state)
    (hpeer : state.peerId = none) :
    Inv n ⟨w.registry.remove k, w.log ++ state.pendingMessages.map (.discarded k)⟩ := by
  refine h.rewire [k] le_rfl h.counter ?_ (fun j hj => ?_) (fun e he j hj => ?_) ?_ ?_ ?_
  · exact forall_mem_singleton.2 (h.registered k (by simp [hk]))
  · rw [getElem?_remove, if_neg (mt mem_singleton.2 hj)]
  · rw [port?_of_mem_discarded he, Option.some.injEq] at hj
    exact mem_singleton.2 hj.symm
  · rw [forall_mem_singleton, getElem?_remove, if_pos rfl]
    exact (hk ▸ h.ports k).remove
  · simp [peer?_of_get hk, hpeer]
  · simp [peer?, getElem?_remove]

/-- The peer of a registered endpoint is registered. -/
theorem Inv.peer_registered (h : Inv n w) (hk : w.registry.ports[k]? = some state)
    (hpeer : state.peerId = some q) :
    q ≠ k ∧ ∃ peer, w.registry.ports[q]? = some peer := by
  obtain ⟨hne, hback⟩ := h.peers k q (by rw [peer?_of_get hk, hpeer])
  rw [peer?, Option.map_eq_some_iff] at hback
  obtain ⟨peer, hq, -⟩ := hback
  exact ⟨hne, peer, hq⟩

/-- The invariant looks at the ports one by one. -/
theorem Inv.of_ports (h : Inv n w) (hnext : r.nextPortId = w.registry.nextPortId)
    (hports : ∀ j : MessagePortId, r.ports[j]? = w.registry.ports[j]?) : Inv n ⟨r, w.log⟩ := by
  refine ⟨hnext ▸ h.counter, fun j hj => h.registered j (hports j ▸ hj), h.logged, fun j => ?_,
    fun j i hji => ?_⟩
  · rw [hports]
    exact h.ports j
  · simp only [peer?, hports] at hji ⊢
    exact h.peers j i hji

section Channel
variable (h : Inv n w) (hk : w.registry.ports[k]? = some state) (hpeer : state.peerId = some q)
  (hq : w.registry.ports[q]? = some peer)
include h hk hpeer hq

/-- Closing one endpoint of a channel tells the other one. -/
theorem Inv.close :
    Inv n ⟨(w.registry.remove k).update q
        { peer with peerId := none, pendingClose := some .peerClosed },
      w.log ++ state.pendingMessages.map (.discarded k)⟩ := by
  obtain ⟨hne, hback⟩ := h.peers k q (by rw [peer?_of_get hk, hpeer])
  rw [peer?_of_get hq, Option.some.injEq] at hback
  have hget : ∀ j, ((w.registry.remove k).update q
      { peer with peerId := none, pendingClose := some .peerClosed }).ports[j]? =
      if j = q then some { peer with peerId := none, pendingClose := some .peerClosed }
      else if j = k then none else w.registry.ports[j]? := fun j => by
    rw [getElem?_update, getElem?_remove]
  refine h.rewire [k, q] le_rfl h.counter ?_ (fun j hj => ?_) (fun e he j hj => ?_) ?_ ?_ ?_
  · simpa using ⟨h.registered k (by simp [hk]), h.registered q (by simp [hq])⟩
  · simp only [mem_cons, not_mem_nil, or_false, not_or] at hj
    rw [hget, if_neg hj.2, if_neg hj.1]
  · rw [port?_of_mem_discarded he, Option.some.injEq] at hj
    exact hj ▸ mem_cons_self
  · simp only [forall_mem_cons, hget, Ne.symm hne]
    refine ⟨(hk ▸ h.ports k).remove, ?_, by simp⟩
    have hok := (h.ports q).frame_discarded hne state.pendingMessages
    rw [hq] at hok
    have hcloses := hok.closes_le
    simp only [closesToCome, hback, Option.isSome_some, if_true] at hcloses
    refine ⟨hok.account, fun _ => hok.undiscarded (by simp), ?_⟩
    simp only [closesToCome, Option.isSome_some, Option.isSome_none, if_true,
      Bool.false_eq_true, if_false]
    omega
  · simp [peer?_of_get hk, peer?_of_get hq, hpeer, hback]
  · simp [peer?, hget]

/-- Discarding a channel closes one endpoint and removes the other one, which is alone then. -/
theorem Inv.discard :
    Inv n ⟨(w.registry.remove k).remove q, w.log ++ (state.pendingMessages.map (.discarded k) ++
      peer.pendingMessages.map (.discarded q))⟩ := by
  have hboth := (h.close hk hpeer hq).remove (by rw [getElem?_update, if_pos rfl]) rfl
  rw [append_assoc] at hboth
  refine hboth.of_ports rfl fun j => ?_
  simp only [getElem?_remove, getElem?_update]
  split <;> rfl

end Channel

/-! ## Every operation -/

variable {messages : List P} {close : Option MessagePortCloseKind} {owner : Option O}

/-- An update of the queue of an endpoint with the matching events. -/
theorem PortOk.update (h : PortOk k log (some state))
    (hmessages : state.pendingMessages ++ accepted k events = delivered k events ++ messages)
    (hdiscarded : discarded k events = [])
    (hcloses : closes k events + (if close.isSome then 1 else 0) ≤
      if state.pendingClose.isSome then 1 else 0) :
    PortOk k (log ++ events) (some ⟨state.peerId, owner, messages, close⟩) := by
  have hnone := h.undiscarded (by simp)
  have haccount := h.account
  constructor
  · rw [hnone] at haccount
    rw [accepted_append, delivered_append, discarded_append, hdiscarded, hnone, haccount]
    simp only [pending, Option.map_some, Option.getD_some, append_nil, append_assoc]
    rw [hmessages]
  · intro _
    rw [discarded_append, hdiscarded, hnone]
    rfl
  · have hle := h.closes_le
    simp only [closesToCome] at hle ⊢
    rw [closes_append]
    omega

theorem Inv.update (h : Inv n w) (hk : w.registry.ports[k]? = some state)
    (hevents : ∀ e ∈ events, e.port? = some k)
    (hmessages : state.pendingMessages ++ accepted k events = delivered k events ++ messages)
    (hdiscarded : discarded k events = [])
    (hcloses : closes k events + (if close.isSome then 1 else 0) ≤
      if state.pendingClose.isSome then 1 else 0) :
    Inv n ⟨w.registry.update k ⟨state.peerId, owner, messages, close⟩, w.log ++ events⟩ := by
  refine h.touch hk rfl hevents ?_
  have hok := h.ports k
  rw [hk] at hok
  exact hok.update hmessages hdiscarded hcloses

theorem Inv.step (h : Inv n w) (op : Op P O) (hn : n + op.allocations < 2 ^ 64) :
    Inv (n + op.allocations) (w.step op) := by
  rw [World.step]
  cases op with
  | createMessagePort | createDisconnectedMessagePort => exact h.create hn rfl rfl
  | createEntangledMessagePortPair owner => exact h.createPair hn owner
  | attachMessagePortOwner portId | detachMessagePortOwnerForTransfer portId
  | clearMessagePortOwner portId =>
    simp only [MessagePortRegistry.step, attachMessagePortOwner, detachMessagePortOwnerForTransfer,
      clearMessagePortOwner, removeOwner]
    split
    · exact h.noEvents
    · next state hk =>
      exact h.update hk (by simp) (by simp [accepted, delivered]) rfl (by simp [closes])
  | enqueueMessageToEndpoint portId payload =>
    simp only [MessagePortRegistry.step, enqueueMessageToEndpoint]
    cases hk : w.registry.ports[portId]? with
    | none => exact h.returned payload
    | some state =>
      exact h.update hk (by simp [Event.port?]) (by simp [accepted, delivered]) rfl
        (by simp [closes])
  | enqueueMessageToMessagePort portId payload =>
    simp only [MessagePortRegistry.step, enqueueMessageToMessagePort]
    cases hpeer : w.registry.ports[portId]?.bind MessagePortState.peerId with
    | none => exact h.returned payload
    | some peerId =>
      cases hk : w.registry.ports[peerId]? with
      | none =>
        simp only [hk]
        exact h.returned payload
      | some state =>
        simp only [hk]
        exact h.update hk (by simp [Event.port?]) (by simp [accepted, delivered]) rfl
          (by simp [closes])
  | pollMessagePort portId started =>
    simp only [MessagePortRegistry.step, pollMessagePort]
    cases hk : w.registry.ports[portId]? with
    | none => exact h.noEvents
    | some state =>
      simp only
      split
      · exact h.noEvents
      · cases hm : state.pendingMessages with
        | cons message rest =>
          exact h.update hk (by simp [events, Event.port?])
            (by simp [events, accepted, delivered, hm]) rfl
            (by simp [events, closes])
        | nil =>
          cases hc : state.pendingClose with
          | none => exact h.noEvents
          | some close =>
            exact h.update hk (by simp [events, Event.port?])
              (by simp [events, accepted, delivered, hm]) rfl
              (by simp [events, closes, hc])
  | takePendingMessagePortMessage portId =>
    simp only [MessagePortRegistry.step, takePendingMessagePortMessage]
    cases hk : w.registry.ports[portId]? with
    | none => exact h.noEvents
    | some state =>
      cases hm : state.pendingMessages with
      | nil =>
        simp only [hm]
        exact h.noEvents
      | cons message rest =>
        simp only [hm]
        exact h.update hk (by simp [Event.port?]) (by simp [accepted, delivered, hm]) rfl
          (by simp [closes])
  | takePendingMessagePortClose portId =>
    simp only [MessagePortRegistry.step, takePendingMessagePortClose]
    cases hk : w.registry.ports[portId]? with
    | none => exact h.noEvents
    | some state =>
      simp only
      cases hc : state.pendingClose with
      | none => exact h.update hk (by simp) (by simp [accepted, delivered]) rfl (by simp [closes])
      | some close =>
        exact h.update hk (by simp [Event.port?]) (by simp [accepted, delivered]) rfl
          (by simp [closes, hc])
  | discardMessagePortChannel portId =>
    simp only [MessagePortRegistry.step, discardMessagePortChannel]
    cases hk : w.registry.ports[portId]? with
    | none => exact h.noEvents
    | some state =>
      simp only
      cases hpeer : state.peerId with
      | none =>
        have hremove := h.remove hk hpeer
        simpa [DiscardedMessagePort.events, Op.allocations] using hremove
      | some peerId =>
        obtain ⟨hne, peer, hq⟩ := h.peer_registered hk hpeer
        simp only [getElem?_remove, if_neg hne, hq]
        have hdiscard := h.discard hk hpeer hq
        simpa [DiscardedMessagePort.events, Op.allocations] using hdiscard
  | closeMessagePort portId =>
    simp only [MessagePortRegistry.step, closeMessagePort]
    cases hk : w.registry.ports[portId]? with
    | none => exact h.noEvents
    | some state =>
      simp only
      cases hpeer : state.peerId with
      | none => exact h.remove hk hpeer
      | some peerId =>
        obtain ⟨hne, peer, hq⟩ := h.peer_registered hk hpeer
        simp only [getElem?_remove, if_neg hne, hq]
        exact h.close hk hpeer hq

/-! ## Runs -/

theorem Inv.runFrom (h : Inv n w) (ops : List (Op P O))
    (hn : n + (ops.map Op.allocations).sum < 2 ^ 64) :
    Inv (n + (ops.map Op.allocations).sum) (messagePorts.runFrom w ops) := by
  induction ops generalizing n w with
  | nil => exact h
  | cons op ops ih =>
    simp only [map_cons, sum_cons] at hn ⊢
    rw [← Nat.add_assoc] at hn ⊢
    exact ih (h.step op (by omega)) hn

theorem handedIn_step (w : World P O) (op : Op P O) :
    handedIn (w.step op).log = handedIn w.log ++ op.payload?.toList := by
  have hzero : ∀ {events : List (Event P)}, handedIn events = [] →
      handedIn (w.log ++ events) = handedIn w.log ++ [] := fun hevents => by
    rw [handedIn, filterMap_append, ← handedIn, ← handedIn, hevents]
  have hdiscarded : ∀ (k : MessagePortId) (payloads : List P),
      handedIn (payloads.map (Event.discarded k)) = [] := by
    simp [handedIn]
  cases op with
  | createMessagePort | createDisconnectedMessagePort | createEntangledMessagePortPair
  | attachMessagePortOwner | detachMessagePortOwnerForTransfer | clearMessagePortOwner =>
    exact hzero rfl
  | enqueueMessageToEndpoint portId payload =>
    simp only [World.step, MessagePortRegistry.step, enqueueMessageToEndpoint]
    cases w.registry.ports[portId]? <;> simp [handedIn, Op.payload?]
  | enqueueMessageToMessagePort portId payload =>
    simp only [World.step, MessagePortRegistry.step, enqueueMessageToMessagePort]
    cases w.registry.ports[portId]?.bind MessagePortState.peerId with
    | none => simp [handedIn, Op.payload?]
    | some peerId =>
      simp only
      cases w.registry.ports[peerId]? <;> simp [handedIn, Op.payload?]
  | pollMessagePort portId started =>
    refine hzero ?_
    simp only [MessagePortRegistry.step]
    cases (w.registry.pollMessagePort portId started).1 <;> simp [events, handedIn]
  | takePendingMessagePortMessage | takePendingMessagePortClose =>
    refine hzero ?_
    simp [MessagePortRegistry.step, handedIn]
  | discardMessagePortChannel portId =>
    refine hzero ?_
    simp only [MessagePortRegistry.step, handedIn, filterMap_flatMap]
    refine flatMap_eq_nil_iff.2 fun d _ => ?_
    exact hdiscarded d.portId d.discardedMessages
  | closeMessagePort portId => exact hzero (hdiscarded portId _)

theorem handedIn_runFrom (w : World P O) (ops : List (Op P O)) :
    handedIn (messagePorts.runFrom w ops).log = handedIn w.log ++ ops.filterMap Op.payload? := by
  induction ops generalizing w with
  | nil => simp
  | cons op ops ih =>
    rw [Machine.runFrom_cons, ih]
    change handedIn (w.step op).log ++ _ = _
    rw [handedIn_step]
    cases hp : op.payload? <;> simp [hp]

/-- A close notification is only seen when nothing is pending. -/
theorem pending_of_poll_close {k : MessagePortId} {kind : MessagePortCloseKind}
    (h : (r.pollMessagePort k true).1 = .close kind) : pending r.ports[k]? = [] := by
  unfold pollMessagePort at h
  cases hk : r.ports[k]? with
  | none => rfl
  | some state =>
    cases hm : state.pendingMessages with
    | nil => exact hm
    | cons message rest => simp [hk, hm] at h

/-- In a run that allocates fewer than `2 ^ 64` identifiers every payload that is handed in is
returned or accepted by one endpoint, and what an endpoint accepted is what it delivered, in the
same order, followed by what is still pending at it or was handed back when it was removed.
Entanglement is symmetric and irreflexive, and an endpoint delivers at most one close notification,
with no message pending. -/
theorem ports_conserve_payloads (ops : List (Op P O))
    (hids : (ops.map Op.allocations).sum < 2 ^ 64) :
    handedIn (messagePorts.run ops).log = ops.filterMap Op.payload? ∧
    (∀ k, accepted k (messagePorts.run ops).log =
      delivered k (messagePorts.run ops).log ++ pending (messagePorts.run ops).registry.ports[k]? ++
        discarded k (messagePorts.run ops).log) ∧
    (∀ k q, (messagePorts.run ops).registry.peer? k = some (some q) →
      q ≠ k ∧ (messagePorts.run ops).registry.peer? q = some (some k)) ∧
    (∀ k kind, ((messagePorts.run ops).registry.pollMessagePort k true).1 = .close kind →
      pending (messagePorts.run ops).registry.ports[k]? = []) ∧
    (∀ k, closes k (messagePorts.run ops).log ≤ 1) := by
  have h := Inv.init.runFrom ops (by omega)
  refine ⟨?_, fun k => (h.ports k).account, h.peers, fun k kind => pending_of_poll_close,
    fun k => Nat.le_of_add_right_le (h.ports k).closes_le⟩
  rw [Machine.run, handedIn_runFrom]
  rfl

/-- A pair, two messages and a close: the second message is handed back. -/
theorem ports_conserve_payloads_pair :
    accepted 2 (messagePorts.run
        [.createEntangledMessagePortPair (), .enqueueMessageToMessagePort 1 10,
          .enqueueMessageToMessagePort 1 20, .pollMessagePort 2 true,
          .closeMessagePort 2]).log = [10] ++ [] ++ [20] := by
  obtain ⟨-, haccount, -⟩ := ports_conserve_payloads
    [.createEntangledMessagePortPair (), .enqueueMessageToMessagePort 1 10,
      .enqueueMessageToMessagePort 1 20, .pollMessagePort 2 true, .closeMessagePort 2] (by decide)
  exact (haccount 2).trans (by decide)

/-! ## Beyond the range of identifiers -/

/-- Create an endpoint and discard it again, once for each identifier from `2` on. -/
def churn (rounds : Nat) : List (Op Nat Unit) :=
  (range rounds).flatMap fun i =>
    [.createMessagePort (), .discardMessagePortChannel (UInt64.ofNat (i + 2))]

/-- A port with one message, while all the other identifiers are used up. -/
structure Waiting (next : Nat) (w : World Nat Unit) : Prop where
  counter : w.registry.nextPortId = UInt64.ofNat next
  port : w.registry.ports[(1 : MessagePortId)]? = some ⟨none, some (), [7], none⟩
  log : w.log = [.accepted 1 7]

theorem nextMessagePortId_ofNat {r : MessagePortRegistry Nat Unit} {m : Nat}
    (hnext : r.nextPortId = UInt64.ofNat (m + 1)) (hm : m + 1 < 2 ^ 64) :
    (r.nextMessagePortId).1 = UInt64.ofNat (m + 1) := by
  have hcounter : r.nextPortId.toNat = (m + 1) % 2 ^ 64 := by rw [hnext, UInt64.toNat_ofNat']
  rw [← UInt64.toNat_inj, (nextMessagePortId_eq hcounter hm).1, UInt64.toNat_ofNat']
  omega

theorem Waiting.round {i : Nat} {w : World Nat Unit} (h : Waiting (i + 2) w)
    (hi : i + 2 < 2 ^ 64) :
    Waiting (i + 3) (messagePorts.runFrom w
      [.createMessagePort (), .discardMessagePortChannel (UInt64.ofNat (i + 2))]) := by
  have hid := nextMessagePortId_ofNat h.counter hi
  have hne : (1 : MessagePortId) ≠ UInt64.ofNat (i + 2) := by
    rw [ne_eq, ← UInt64.toNat_inj, UInt64.toNat_ofNat', UInt64.toNat_one]
    omega
  have hports : (w.registry.nextMessagePortId).2.ports = w.registry.ports := rfl
  have hget : (w.registry.createMessagePort ()).2.ports[UInt64.ofNat (i + 2)]? =
      some ⟨none, some (), [], none⟩ := by
    change ((w.registry.nextMessagePortId).2.update (w.registry.nextMessagePortId).1 _).ports[_]? =
      _
    rw [getElem?_update, hid, if_pos rfl]
  have hdiscard : (w.registry.createMessagePort ()).2.discardMessagePortChannel
      (UInt64.ofNat (i + 2)) = ([⟨UInt64.ofNat (i + 2), some (), []⟩],
        (w.registry.createMessagePort ()).2.remove (UInt64.ofNat (i + 2))) := by
    rw [discardMessagePortChannel, hget]
  simp only [messagePorts, Machine.runFrom, foldl_cons, foldl_nil, World.step,
    MessagePortRegistry.step, hdiscard]
  constructor
  · change w.registry.nextPortId + 1 = _
    rw [h.counter, ← UInt64.toNat_inj, UInt64.toNat_add, UInt64.toNat_ofNat', UInt64.toNat_ofNat',
      UInt64.toNat_one]
    omega
  · simp only
    rw [getElem?_remove, if_neg hne]
    change ((w.registry.nextMessagePortId).2.update (w.registry.nextMessagePortId).1 _).ports[_]? =
      _
    rw [getElem?_update, hid, if_neg hne, hports, h.port]
  · simp [h.log, DiscardedMessagePort.events]

theorem Waiting.churn {w : World Nat Unit} (h : Waiting 2 w) (rounds : Nat)
    (hrounds : rounds + 1 < 2 ^ 64) :
    Waiting (rounds + 2) (messagePorts.runFrom w (MessagePort.churn rounds)) := by
  induction rounds with
  | zero => exact h
  | succ rounds ih =>
    have hsplit : MessagePort.churn (rounds + 1) = MessagePort.churn rounds ++
        [.createMessagePort (), .discardMessagePortChannel (UInt64.ofNat (rounds + 2))] := by
      simp [MessagePort.churn, range_succ]
    rw [hsplit, Machine.runFrom_append]
    exact (ih (by omega)).round (by omega)

/-- After `2 ^ 64 - 1` further allocations the counter is back at the identifier of a live endpoint,
whose entry is replaced: the message that was pending there is neither delivered nor handed back. -/
theorem wrapped_id_loses_payload :
    ∃ ops : List (Op Nat Unit),
      accepted 1 (messagePorts.run ops).log = [7] ∧
      delivered 1 (messagePorts.run ops).log ++ pending (messagePorts.run ops).registry.ports[
        (1 : MessagePortId)]? ++ discarded 1 (messagePorts.run ops).log = [] := by
  refine ⟨[.createMessagePort (), .enqueueMessageToEndpoint 1 7] ++ churn (2 ^ 64 - 2) ++
    [.createMessagePort ()], ?_⟩
  have hfirst : Waiting 2 (messagePorts.run
      [.createMessagePort (), .enqueueMessageToEndpoint 1 7]) := ⟨rfl, rfl, rfl⟩
  have hlast := hfirst.churn (2 ^ 64 - 2) (by omega)
  rw [Machine.run_append, Machine.run_append]
  generalize messagePorts.runFrom _ (churn (2 ^ 64 - 2)) = w at hlast
  have hzero : w.registry.nextPortId = 0 := hlast.counter
  have hid : (w.registry.nextMessagePortId).1 = 1 := by
    rw [nextMessagePortId, hzero]
    rfl
  have hport : (messagePorts.runFrom w [.createMessagePort ()]).registry.ports[
      (1 : MessagePortId)]? = some ⟨none, some (), [], none⟩ := by
    change ((w.registry.nextMessagePortId).2.update (w.registry.nextMessagePortId).1 _).ports[_]? =
      _
    rw [getElem?_update, hid, if_pos rfl]
  have hlog : (messagePorts.runFrom w [.createMessagePort ()]).log = [.accepted 1 7] := by
    change w.log ++ [] = _
    rw [append_nil, hlast.log]
  rw [hport, hlog]
  exact ⟨rfl, rfl⟩

end Moli.MessagePort
