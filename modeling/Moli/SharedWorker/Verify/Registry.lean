import Moli.Lib.Assoc
import Moli.Lib.Ensures
import Moli.Lib.Lists
import Moli.Lib.Trace
import Moli.SharedWorker.Registry

/-!
# Shared worker lifecycles balance

`Change` says what a call does that changes one entry, to the registry and in what it announces;
`step_cases` shows that every call is such a change, leaves the entries alone or removes them all.
The invariant `Inv` and the accounts of instances, clients and owner events follow from that, and
`shared_worker_lifecycles_balance` collects them for every run.
-/

namespace Moli.SharedWorker

open Lib SharedWorkerRegistry List Label

variable {I : Type}

/-! ## Slots -/

/-- The clients of an entry, if there is one. -/
def slotClients (slot : Option (SharedWorkerEntry I)) : List SharedWorkerClientId :=
  slot.elim [] (·.clientIds)

@[simp] theorem slotClients_none : slotClients (I := I) none = [] := rfl

@[simp] theorem slotClients_some (entry : SharedWorkerEntry I) :
    slotClients (some entry) = entry.clientIds := rfl

/-- The owner has a client at the entry. -/
def slotOwns (slot : Option (SharedWorkerEntry I)) (ownerId : SharedWorkerClientOwnerId) : Bool :=
  slot.any fun entry => 0 < entry.clientCountForOwner ownerId

def slotLoads (slot : Option (SharedWorkerEntry I)) : Nat :=
  (slot.any (·.state.isLoading)).toNat

/-! ## The invariant -/

variable {r r' : SharedWorkerRegistry I} {label : Label I} {i : SharedWorkerInstanceId}
variable {o : SharedWorkerClientOwnerId} {c : SharedWorkerClientId} {k : SharedWorkerKey}
variable {e : SharedWorkerEntry I}

theorem mem_slotClients {slot : Option (SharedWorkerEntry I)} :
    c ∈ slotClients slot ↔ ∃ e, slot = some e ∧ c ∈ e.clientIds := by
  cases slot <;> simp

structure Inv (r : SharedWorkerRegistry I) : Prop where
  keys : ∀ c k, r.clientKeys.lookup c = some k ↔ c ∈ slotClients (r.entries.lookup k)
  occupied : ∀ k e, r.entries.lookup k = some e → e.clients ≠ [] ∧ e.clientIds.Nodup
  unique : ∀ k k' e e', r.entries.lookup k = some e → r.entries.lookup k' = some e' →
    e.instanceId = e'.instanceId → k = k'
  instance_le : ∀ k e, r.entries.lookup k = some e → e.instanceId.asU64 ≤ r.nextInstanceId
  client_le : ∀ c k, r.clientKeys.lookup c = some k → c.asU64 ≤ r.nextClientId

namespace Inv

theorem default : Inv (I := I) .default where
  keys c k := by simp [SharedWorkerRegistry.default]
  occupied k e h := by simp [SharedWorkerRegistry.default] at h
  unique k k' e e' h := by simp [SharedWorkerRegistry.default] at h
  instance_le k e h := by simp [SharedWorkerRegistry.default] at h
  client_le c k h := by simp [SharedWorkerRegistry.default] at h

theorem findInstance_eq_some (h : Inv r) :
    r.findInstance i = some e ↔ ∃ k, r.entries.lookup k = some e ∧ e.instanceId = i := by
  have hmem : ∀ e, e ∈ r.entries.entries.map Sigma.snd ↔ ∃ k, r.entries.lookup k = some e := by
    intro e
    simp only [mem_map, Sigma.exists, mem_entries_iff]
    constructor
    · rintro ⟨k, _, hlookup, rfl⟩
      exact ⟨k, hlookup⟩
    · rintro ⟨k, hlookup⟩
      exact ⟨k, e, hlookup, rfl⟩
  constructor
  · intro hfind
    obtain ⟨k, hlookup⟩ := (hmem e).1 (mem_of_find?_eq_some hfind)
    exact ⟨k, hlookup, by simpa using find?_some hfind⟩
  · rintro ⟨k, hlookup, rfl⟩
    cases hfind : r.findInstance e.instanceId with
    | none =>
      have hnone := find?_eq_none.1 hfind e ((hmem e).2 ⟨k, hlookup⟩)
      simp at hnone
    | some e' =>
      obtain ⟨k', hlookup'⟩ := (hmem e').1 (mem_of_find?_eq_some hfind)
      have hid : e'.instanceId = e.instanceId := by simpa using find?_some hfind
      obtain rfl := h.unique k' k e' e hlookup' hlookup hid
      exact hlookup'.symm.trans hlookup

end Inv

/-! ## Calls that change one entry -/

structure Change (r r' : SharedWorkerRegistry I) (label : Label I) (key : SharedWorkerKey)
    (id : SharedWorkerInstanceId) (old new : Option (SharedWorkerEntry I)) : Prop where
  before : r.entries.lookup key = old
  after : ∀ k, r'.entries.lookup k = if k = key then new else r.entries.lookup k
  counters : r.nextClientId ≤ r'.nextClientId ∧ r.nextInstanceId ≤ r'.nextInstanceId
  old_id : ∀ e ∈ old, e.instanceId = id
  new_id : ∀ e ∈ new, e.instanceId = id
  id_le : id.asU64 ≤ r'.nextInstanceId
  id_fresh : old = none → r.nextInstanceId < id.asU64
  keys : ∀ c, r'.clientKeys.lookup c =
    if c ∈ slotClients new then some key
    else if c ∈ slotClients old then none else r.clientKeys.lookup c
  clients : ∀ c ∈ slotClients new,
    c.asU64 ≤ r'.nextClientId ∧ (c ∈ slotClients old ∨ r.nextClientId < c.asU64)
  occupied : ∀ e ∈ new, e.clients ≠ [] ∧ e.clientIds.Nodup
  started : label.started = if old.isNone then [id] else []
  ended : label.ended = if new.isNone then [id] else []
  ran : ∀ i ∈ label.ran, i = id
  loads : label.ran.length + slotLoads new ≤ slotLoads old + label.started.length
  accepted : ∀ c, label.accepted.count c = if c ∈ slotClients new ∧ c ∉ slotClients old then 1
    else 0
  left : ∀ c, label.left.count c = if c ∈ slotClients old ∧ c ∉ slotClients new then 1 else 0
  signals : ∀ i o, label.signals i o = if i = id then edge (slotOwns old o) (slotOwns new o) else []

namespace Change

variable {key : SharedWorkerKey} {id : SharedWorkerInstanceId}
variable {old new : Option (SharedWorkerEntry I)}

section
variable (h : Change r r' label key id old new)
include h

theorem after_self : r'.entries.lookup key = new := by
  rw [h.after, if_pos rfl]

theorem after_of_ne (hk : k ≠ key) : r'.entries.lookup k = r.entries.lookup k := by
  rw [h.after, if_neg hk]

/-- The old clients are listed at the key. -/
theorem keys_old (hinv : Inv r) (hc : c ∈ slotClients old) : r.clientKeys.lookup c = some key :=
  (hinv.keys c key).2 (h.before ▸ hc)

/-- The new clients are not listed anywhere else. -/
theorem not_listed (hinv : Inv r) (hc : c ∈ slotClients new) (hk : k ≠ key) :
    r.clientKeys.lookup c ≠ some k := by
  intro hlookup
  rcases (h.clients c hc).2 with hold | hfresh
  · exact hk (Option.some.inj (hlookup.symm.trans (h.keys_old hinv hold)))
  · exact absurd (hinv.client_le c k hlookup) (Nat.not_le.2 hfresh)

/-- No other entry has the instance. -/
theorem instance_ne (hinv : Inv r) (hlookup : r.entries.lookup k = some e) (hk : k ≠ key) :
    e.instanceId ≠ id := by
  intro hid
  cases hold : old with
  | none =>
    have hfresh := h.id_fresh hold
    have hle := hinv.instance_le k e hlookup
    rw [hid] at hle
    exact absurd hle (Nat.not_le.2 hfresh)
  | some entry =>
    have hentry := h.old_id entry hold
    exact hk (hinv.unique k key e entry hlookup (h.before.trans hold) (hid.trans hentry.symm))

theorem inv (hinv : Inv r) : Inv r' where
  keys c k := by
    rw [h.keys, h.after]
    by_cases hk : k = key
    · subst hk
      have hold := hinv.keys c k
      rw [h.before] at hold
      split_ifs with hnew hgone <;> simp_all
    · rw [if_neg hk, ← hinv.keys]
      split_ifs with hnew hgone
      · simpa [Ne.symm hk] using h.not_listed hinv hnew hk
      · simp [h.keys_old hinv hgone, Ne.symm hk]
      · rfl
  occupied k e hlookup := by
    by_cases hk : k = key
    · subst hk
      exact h.occupied e (h.after_self.symm.trans hlookup)
    · rw [h.after_of_ne hk] at hlookup
      exact hinv.occupied k e hlookup
  unique k k' e e' hlookup hlookup' hid := by
    by_cases hk : k = key <;> by_cases hk' : k' = key
    · rw [hk, hk']
    · subst hk
      rw [h.after_of_ne hk'] at hlookup'
      have hnew := h.new_id e (h.after_self.symm.trans hlookup)
      exact absurd (hid.symm.trans hnew) (h.instance_ne hinv hlookup' hk')
    · subst hk'
      rw [h.after_of_ne hk] at hlookup
      have hnew := h.new_id e' (h.after_self.symm.trans hlookup')
      exact absurd (hid.trans hnew) (h.instance_ne hinv hlookup hk)
    · rw [h.after_of_ne hk] at hlookup
      rw [h.after_of_ne hk'] at hlookup'
      exact hinv.unique k k' e e' hlookup hlookup' hid
  instance_le k e hlookup := by
    by_cases hk : k = key
    · subst hk
      rw [h.new_id e (h.after_self.symm.trans hlookup)]
      exact h.id_le
    · rw [h.after_of_ne hk] at hlookup
      exact (hinv.instance_le k e hlookup).trans h.counters.2
  client_le c k hlookup := by
    rw [h.keys] at hlookup
    split at hlookup
    · next hnew => exact (h.clients c hnew).1
    · split at hlookup
      · cases hlookup
      · exact (hinv.client_le c k hlookup).trans h.counters.1

/-- The change is one of the instance's slot. -/
theorem findInstance (hinv : Inv r) :
    r.findInstance id = old ∧ r'.findInstance id = new ∧
      ∀ i, i ≠ id → r'.findInstance i = r.findInstance i := by
  have hinv' := h.inv hinv
  refine ⟨Option.ext fun e => ?_, Option.ext fun e => ?_, fun i hi => Option.ext fun e => ?_⟩
  · rw [hinv.findInstance_eq_some]
    constructor
    · rintro ⟨k, hlookup, hid⟩
      by_cases hk : k = key
      · subst hk
        exact h.before.symm.trans hlookup
      · exact absurd hid (h.instance_ne hinv hlookup hk)
    · intro hold
      exact ⟨key, h.before.trans hold, h.old_id e hold⟩
  · rw [hinv'.findInstance_eq_some]
    constructor
    · rintro ⟨k, hlookup, hid⟩
      by_cases hk : k = key
      · subst hk
        exact h.after_self.symm.trans hlookup
      · rw [h.after_of_ne hk] at hlookup
        exact absurd hid (h.instance_ne hinv hlookup hk)
    · intro hnew
      exact ⟨key, h.after_self.trans hnew, h.new_id e hnew⟩
  · rw [hinv'.findInstance_eq_some, hinv.findInstance_eq_some]
    refine exists_congr fun k => and_congr_left fun hid => ?_
    by_cases hk : k = key
    · subst hk
      rw [h.after_self, h.before]
      constructor
      · exact fun hnew => absurd (hid.symm.trans (h.new_id e hnew)) hi
      · exact fun hold => absurd (hid.symm.trans (h.old_id e hold)) hi
    · rw [h.after_of_ne hk]

end

end Change

/-! ## Owners -/

namespace SharedWorkerEntry

theorem foldl_owners (clients : List SharedWorkerClientRecord)
    {owners : List SharedWorkerClientOwnerId} (h : owners.Nodup) :
    (clients.foldl (fun owners client =>
        if client.ownerId ∈ owners then owners else owners ++ [client.ownerId]) owners).Nodup ∧
      ∀ o, o ∈ clients.foldl (fun owners client =>
          if client.ownerId ∈ owners then owners else owners ++ [client.ownerId]) owners ↔
        o ∈ owners ∨ ∃ client ∈ clients, client.ownerId = o := by
  induction clients generalizing owners with
  | nil => simp [h]
  | cons client clients ih =>
    rw [foldl_cons]
    by_cases hmem : client.ownerId ∈ owners
    · rw [if_pos hmem]
      refine ⟨(ih h).1, fun o => ?_⟩
      rw [(ih h).2, exists_mem_cons_iff]
      constructor
      · rintro (ho | ho)
        · exact .inl ho
        · exact .inr (.inr ho)
      · rintro (ho | rfl | ho)
        · exact .inl ho
        · exact .inl hmem
        · exact .inr ho
    · rw [if_neg hmem]
      have hnodup : (owners ++ [client.ownerId]).Nodup :=
        nodup_append.2 ⟨h, by simp, by
          rintro a ha b hb rfl
          exact hmem (mem_singleton.1 hb ▸ ha)⟩
      refine ⟨(ih hnodup).1, fun o => ?_⟩
      rw [(ih hnodup).2, exists_mem_cons_iff, mem_append, mem_singleton, or_assoc, eq_comm (a := o)]

theorem nodup_clientOwnerIds (e : SharedWorkerEntry I) : e.clientOwnerIds.Nodup :=
  (foldl_owners e.clients nodup_nil).1

theorem mem_clientOwnerIds : o ∈ e.clientOwnerIds ↔ 0 < e.clientCountForOwner o := by
  rw [clientOwnerIds, (foldl_owners e.clients nodup_nil).2, clientCountForOwner]
  simp

end SharedWorkerEntry

theorem filterMap_firstClientAdded (i id : SharedWorkerInstanceId)
    (o o' : SharedWorkerClientOwnerId) :
    [SharedWorkerClientOwnerEvent.firstClientAdded id o'].filterMap (signalOf i o) =
      if i = id ∧ o = o' then [true] else [] := by
  by_cases h : i = id ∧ o = o'
  · obtain ⟨rfl, rfl⟩ := h
    simp [signalOf]
  · have h' : ¬ (id = i ∧ o' = o) := fun ⟨hi, ho⟩ => h ⟨hi.symm, ho.symm⟩
    simp only [filterMap_cons, signalOf, if_neg h', if_neg h, filterMap_nil]

theorem filterMap_lastClientRemovedEvents (id : SharedWorkerInstanceId)
    (entry : SharedWorkerEntry I) :
    (lastClientRemovedEvents id entry).filterMap (signalOf i o) =
      if i = id then edge (slotOwns (some entry) o) false else [] := by
  rw [lastClientRemovedEvents, filterMap_map]
  split
  · next hid =>
    subst hid
    have hsignal : signalOf i o ∘ SharedWorkerClientOwnerEvent.lastClientRemoved i =
        fun o' => if o' = o then some false else none := by
      funext o'
      simp [signalOf]
    rw [hsignal, filterMap_ite_eq entry.nodup_clientOwnerIds]
    by_cases ho : o ∈ entry.clientOwnerIds
    · have hpos := SharedWorkerEntry.mem_clientOwnerIds.1 ho
      simp [ho, edge, slotOwns, hpos]
    · have hzero := fun hpos => ho (SharedWorkerEntry.mem_clientOwnerIds.2 hpos)
      simp [ho, slotOwns, Nat.eq_zero_of_not_pos hzero]
  · next hid =>
    simp [signalOf, Ne.symm hid]

/-! ## The calls -/

namespace Inv

/-- The clients of an entry are listed at its key. -/
theorem lookup_of_mem (h : Inv r) (hlookup : r.entries.lookup k = some e) (hc : c ∈ e.clientIds) :
    r.clientKeys.lookup c = some k :=
  (h.keys c k).2 (mem_slotClients.2 ⟨e, hlookup, hc⟩)

theorem not_mem_of_fresh (h : Inv r) (hlookup : r.entries.lookup k = some e) {n : Nat}
    (hfresh : r.nextClientId < n) : ⟨n⟩ ∉ e.clientIds := fun hc =>
  absurd (h.client_le ⟨n⟩ k (h.lookup_of_mem hlookup hc)) (Nat.not_le.2 hfresh)

end Inv

variable {op : Op I} {key : SharedWorkerKey}

/-- A new entry. -/
theorem Change.startLoading (hlookup : r.entries.lookup key = none)
    (descriptor : SharedWorkerDescriptor) (o : SharedWorkerClientOwnerId) :
    Change r
      { r with
        nextClientId := r.nextClientId + 1
        nextInstanceId := r.nextInstanceId + 1
        clientKeys := r.clientKeys.insert ⟨r.nextClientId + 1⟩ key
        entries := r.entries.insert key
          ⟨⟨r.nextInstanceId + 1⟩, descriptor, [⟨⟨r.nextClientId + 1⟩, o⟩], .loading⟩ }
      (op, .connected ⟨.startLoading ⟨r.nextInstanceId + 1⟩ ⟨r.nextClientId + 1⟩,
        [.firstClientAdded ⟨r.nextInstanceId + 1⟩ o]⟩)
      key ⟨r.nextInstanceId + 1⟩ none
      (some ⟨⟨r.nextInstanceId + 1⟩, descriptor, [⟨⟨r.nextClientId + 1⟩, o⟩], .loading⟩) where
  before := hlookup
  after k := lookup_insert_eq _ _ _ _
  counters := ⟨Nat.le_succ _, Nat.le_succ _⟩
  old_id e he := nomatch he
  new_id := by simp
  id_le := le_rfl
  id_fresh _ := Nat.lt_succ_self _
  keys c := by
    rw [lookup_insert_eq]
    simp [SharedWorkerEntry.clientIds]
  clients c hc := by
    obtain rfl : c = ⟨r.nextClientId + 1⟩ := by
      simpa [SharedWorkerEntry.clientIds] using hc
    exact ⟨le_rfl, .inr (Nat.lt_succ_self _)⟩
  occupied e he := by
    obtain rfl := Option.some.inj he
    simp [SharedWorkerEntry.clientIds]
  started := rfl
  ended := rfl
  ran i hi := nomatch hi
  loads := le_rfl
  accepted c := by
    simp [Label.accepted, SharedWorkerEntry.clientIds, count_singleton, eq_comm (a := c)]
  left c := by simp [Label.left]
  signals i o' := by
    rw [Label.signals, Label.ownerEvents, filterMap_firstClientAdded]
    by_cases hi : i = ⟨r.nextInstanceId + 1⟩ <;> by_cases ho : o' = o <;>
      simp [slotOwns, edge, SharedWorkerEntry.clientCountForOwner, ho, eq_comm]

@[simp] theorem SharedWorkerEntry.clientIds_addClient (entry : SharedWorkerEntry I)
    (client : SharedWorkerClientRecord) :
    (entry.addClient client).clientIds = entry.clientIds ++ [client.clientId] := by
  simp [clientIds, addClient]

theorem SharedWorkerEntry.clientCountForOwner_addClient (entry : SharedWorkerEntry I)
    (client : SharedWorkerClientRecord) (o : SharedWorkerClientOwnerId) :
    (entry.addClient client).clientCountForOwner o =
      entry.clientCountForOwner o + if client.ownerId = o then 1 else 0 := by
  simp [clientCountForOwner, addClient]

section
variable {key : SharedWorkerKey} {entry : SharedWorkerEntry I} (h : Inv r)
  (hlookup : r.entries.lookup key = some entry)
include h hlookup

/-- One more client at an entry. -/
theorem Change.addClient (o : SharedWorkerClientOwnerId) {action : SharedWorkerConnectAction I}
    (haction : action = .queueWhileLoading entry.instanceId ⟨r.nextClientId + 1⟩ ∨
      ∃ instance', action = .connectToRunning entry.instanceId ⟨r.nextClientId + 1⟩ instance') :
    Change r
      { r with
        nextClientId := r.nextClientId + 1
        nextInstanceId := r.nextInstanceId + 1
        entries := r.entries.insert key (entry.addClient ⟨⟨r.nextClientId + 1⟩, o⟩)
        clientKeys := r.clientKeys.insert ⟨r.nextClientId + 1⟩ key }
      (op, .connected ⟨action,
        if entry.clientCountForOwner o = 0 then [.firstClientAdded entry.instanceId o] else []⟩)
      key entry.instanceId (some entry)
      (some (entry.addClient ⟨⟨r.nextClientId + 1⟩, o⟩)) where
  before := hlookup
  after k := lookup_insert_eq _ _ _ _
  counters := ⟨Nat.le_succ _, Nat.le_succ _⟩
  old_id := by simp
  new_id := by simp [SharedWorkerEntry.addClient]
  id_le := (h.instance_le key entry hlookup).trans (Nat.le_succ _)
  id_fresh hnone := nomatch hnone
  keys c := by
    rw [lookup_insert_eq]
    by_cases hc : c = ⟨r.nextClientId + 1⟩
    · simp [hc]
    · by_cases hold : c ∈ entry.clientIds
      · simp [hc, h.lookup_of_mem hlookup hold]
      · simp [hold]
  clients c hc := by
    rw [slotClients_some, SharedWorkerEntry.clientIds_addClient] at hc
    rcases mem_append.1 hc with hc | hc
    · exact ⟨(h.client_le c key (h.lookup_of_mem hlookup hc)).trans (Nat.le_succ _), .inl hc⟩
    · obtain rfl := mem_singleton.1 hc
      exact ⟨le_rfl, .inr (Nat.lt_succ_self _)⟩
  occupied e he := by
    obtain rfl := Option.some.inj he
    have hfresh := h.not_mem_of_fresh hlookup (Nat.lt_succ_self r.nextClientId)
    refine ⟨by simp [SharedWorkerEntry.addClient], ?_⟩
    rw [SharedWorkerEntry.clientIds_addClient]
    refine nodup_append.2 ⟨(h.occupied key entry hlookup).2, by simp, ?_⟩
    rintro a ha b hb rfl
    obtain rfl := mem_singleton.1 hb
    exact hfresh ha
  started := by rcases haction with rfl | ⟨instance', rfl⟩ <;> rfl
  ended := rfl
  ran i hi := nomatch hi
  loads := by
    simp [Label.ran, slotLoads, SharedWorkerEntry.addClient]
  accepted c := by
    have hfresh := h.not_mem_of_fresh hlookup (Nat.lt_succ_self r.nextClientId)
    have haccepted : Label.accepted (op, .connected ⟨action,
        if entry.clientCountForOwner o = 0 then [.firstClientAdded entry.instanceId o] else []⟩) =
        [⟨r.nextClientId + 1⟩] := by rcases haction with rfl | ⟨instance', rfl⟩ <;> rfl
    rw [haccepted, count_singleton]
    by_cases hc : c = ⟨r.nextClientId + 1⟩
    · simp [hc, hfresh]
    · simp [hc, Ne.symm hc]
  left c := by
    have hleft : ∀ events, Label.left (op, .connected ⟨action, events⟩) = [] := by
      intro events
      cases op <;> rfl
    rw [hleft]
    simp +contextual
  signals i o' := by
    rw [Label.signals, Label.ownerEvents]
    simp only [slotOwns, Option.any_some, SharedWorkerEntry.clientCountForOwner_addClient]
    by_cases hzero : entry.clientCountForOwner o = 0
    · rw [if_pos hzero, filterMap_firstClientAdded]
      by_cases hi : i = entry.instanceId <;> by_cases ho : o' = o
      · simp [edge, ho, hzero]
      · simp [ho, Ne.symm ho]
      · simp [hi]
      · simp [hi]
    · rw [if_neg hzero]
      by_cases ho : o = o'
      · have hpos := Nat.pos_of_ne_zero hzero
        simp [← ho, hpos]
      · simp [ho]

/-- A loading entry becomes running. -/
theorem Change.finishLoading (hloading : entry.state.isLoading = true) (instance' : I) :
    Change r
      { r with entries := r.entries.insert key { entry with state := .running instance' } }
      (op, .loadReady (.running entry.instanceId entry.clientIds instance'))
      key entry.instanceId (some entry) (some { entry with state := .running instance' }) where
  before := hlookup
  after k := lookup_insert_eq _ _ _ _
  counters := ⟨le_rfl, le_rfl⟩
  old_id := by simp
  new_id := by simp
  id_le := h.instance_le key entry hlookup
  id_fresh hnone := nomatch hnone
  keys c := by
    by_cases hc : c ∈ entry.clientIds
    · exact (h.lookup_of_mem hlookup hc).trans (if_pos hc).symm
    · exact (if_neg hc).symm.trans (if_neg hc).symm
  clients c hc := ⟨h.client_le c key (h.lookup_of_mem hlookup hc), .inl hc⟩
  occupied e he := by
    obtain rfl := Option.some.inj he
    exact h.occupied key entry hlookup
  started := rfl
  ended := rfl
  ran i hi := mem_singleton.1 hi
  loads := by
    have hloads : slotLoads (some entry) = 1 := by simp [slotLoads, hloading]
    rw [hloads]
    exact Nat.le_refl 1
  accepted c := by
    refine (if_neg ?_).symm
    exact fun hc => hc.2 hc.1
  left c := by
    refine (if_neg ?_).symm
    exact fun hc => hc.2 hc.1
  signals i o := by
    rw [Label.signals]
    simp [Label.ownerEvents, slotOwns, SharedWorkerEntry.clientCountForOwner]

/-- An entry is removed with all of its clients. -/
theorem Change.removeEntry (hstarted : label.started = []) (hran : label.ran = [])
    (hended : label.ended = [entry.instanceId]) (haccepted : label.accepted = [])
    (hleft : label.left = entry.clientIds)
    (hevents : label.ownerEvents = lastClientRemovedEvents entry.instanceId entry) :
    Change r (r.removeEntry key entry) label key entry.instanceId (some entry) none where
  before := hlookup
  after k := lookup_erase_eq _ _ _
  counters := ⟨le_rfl, le_rfl⟩
  old_id := by simp
  new_id e he := nomatch he
  id_le := h.instance_le key entry hlookup
  id_fresh hnone := nomatch hnone
  keys c := by
    rw [SharedWorkerRegistry.removeEntry, lookup_foldl_erase]
    by_cases hc : c ∈ entry.clientIds <;> simp [hc]
  clients c hc := nomatch hc
  occupied e he := nomatch he
  started := hstarted
  ended := hended
  ran i hi := by
    rw [hran] at hi
    cases hi
  loads := by simp [hran, slotLoads]
  accepted c := by simp [haccepted]
  left c := by
    rw [hleft]
    by_cases hc : c ∈ entry.clientIds
    · simp [hc, count_eq_one_of_mem (h.occupied key entry hlookup).2 hc]
    · simp [hc, count_eq_zero_of_not_mem hc]
  signals i o := by
    rw [Label.signals, hevents, filterMap_lastClientRemovedEvents]
    rfl

end

namespace SharedWorkerEntry

/-- The client's record and the others. -/
theorem perm_filter_clients {clients : List SharedWorkerClientRecord}
    (h : (clients.map (·.clientId)).Nodup) (hc : c ∈ clients.map (·.clientId)) :
    ∃ o, (clients.findSome? fun client =>
        if client.clientId = c then some client.ownerId else none) = some o ∧
      clients.Perm (⟨c, o⟩ :: clients.filter (·.clientId ≠ c)) := by
  induction clients with
  | nil => cases hc
  | cons client clients ih =>
    obtain ⟨hnew, hnodup⟩ := nodup_cons.1 h
    by_cases hclient : client.clientId = c
    · refine ⟨client.ownerId, by simp [hclient], ?_⟩
      have hothers : clients.filter (·.clientId ≠ c) = clients := by
        refine filter_eq_self.2 fun x hx => decide_eq_true fun hxc => hnew ?_
        exact mem_map.2 ⟨x, hx, hxc.trans hclient.symm⟩
      rw [filter_cons_of_neg (by simp [hclient]), hothers, ← hclient]
    · have hrest : c ∈ clients.map (·.clientId) :=
        (mem_cons.1 hc).resolve_left (Ne.symm hclient)
      obtain ⟨o, hfind, hperm⟩ := ih hnodup hrest
      refine ⟨o, by simpa [hclient] using hfind, ?_⟩
      rw [filter_cons_of_pos (by simp [hclient])]
      exact (hperm.cons client).trans (.swap _ _ _)

end SharedWorkerEntry

/-- One client leaves an entry; an entry without clients is removed. -/
theorem Change.removeClient (h : Inv r) {entry : SharedWorkerEntry I}
    (hlookup : r.entries.lookup key = some entry) (hc : c ∈ entry.clientIds) {entries : Entries I}
    {new : Option (SharedWorkerEntry I)}
    (hnew : new = if (entry.removeClient c).1 then none else some (entry.removeClient c).2)
    (hentries : ∀ k, entries.lookup k = if k = key then new else r.entries.lookup k)
    (hstarted : label.started = []) (hran : label.ran = [])
    (hended : label.ended = if new.isNone then [entry.instanceId] else [])
    (haccepted : label.accepted = []) (hleft : label.left = [c])
    (hevents : label.ownerEvents = lastClientRemovedEvent entry.instanceId (entry.clientOwnerId c)
      ((entry.clientOwnerId c).any fun o => entry.clientCountForOwner o = 1)) :
    Change r { r with entries, clientKeys := r.clientKeys.erase c } label key entry.instanceId
      (some entry) new := by
  obtain ⟨o, howner, hperm⟩ :=
    SharedWorkerEntry.perm_filter_clients (h.occupied key entry hlookup).2 hc
  -- What is left at the entry, whether or not it is removed.
  have hremoved : entry.removeClient c = ((entry.clients.filter (·.clientId ≠ c)).isEmpty,
      { entry with clients := entry.clients.filter (·.clientId ≠ c) }) := rfl
  rw [hremoved] at hnew
  generalize entry.clients.filter (·.clientId ≠ c) = remaining at hperm hnew
  have hids : entry.clientIds.Perm (c :: remaining.map (·.clientId)) := hperm.map _
  have hnodup := hids.nodup_iff.1 (h.occupied key entry hlookup).2
  have hcount : ∀ o', entry.clientCountForOwner o' =
      remaining.countP (·.ownerId = o') + if o = o' then 1 else 0 := by
    intro o'
    rw [SharedWorkerEntry.clientCountForOwner, hperm.countP_eq, countP_cons]
    simp
  have hslot : slotClients new = remaining.map (·.clientId) ∧
      (∀ o', slotOwns new o' = decide (0 < remaining.countP (·.ownerId = o'))) ∧
      slotLoads new ≤ slotLoads (some entry) ∧
      ∀ e ∈ new, e.instanceId = entry.instanceId ∧ e.clients ≠ [] ∧ e.clients = remaining := by
    cases remaining with
    | nil =>
      subst hnew
      exact ⟨rfl, fun _ => rfl, Nat.zero_le _, fun e he => (nomatch he)⟩
    | cons first rest =>
      subst hnew
      refine ⟨rfl, fun _ => rfl, le_rfl, fun e he => ?_⟩
      obtain rfl := Option.some.inj he
      exact ⟨rfl, cons_ne_nil _ _, rfl⟩
  obtain ⟨hclients, howns, hloads, hentry⟩ := hslot
  have hmem : ∀ c', c' ∈ slotClients new ↔ c' ∈ entry.clientIds ∧ c' ≠ c := by
    intro c'
    rw [hclients, hids.mem_iff, mem_cons]
    constructor
    · refine fun hc' => ⟨.inr hc', ?_⟩
      rintro rfl
      exact (nodup_cons.1 hnodup).1 hc'
    · rintro ⟨hc' | hc', hne⟩
      · exact absurd hc' hne
      · exact hc'
  exact {
    before := hlookup
    after := hentries
    counters := ⟨le_rfl, le_rfl⟩
    old_id := by simp
    new_id := fun e he => (hentry e he).1
    id_le := h.instance_le key entry hlookup
    id_fresh := fun hnone => (nomatch hnone)
    keys := fun c' => by
      rw [lookup_erase_eq, slotClients_some]
      by_cases hsame : c' = c
      · rw [if_pos hsame, if_neg (fun hin => ((hmem c').1 hin).2 hsame), if_pos (hsame ▸ hc)]
      · rw [if_neg hsame]
        by_cases hin : c' ∈ entry.clientIds
        · rw [if_pos ((hmem c').2 ⟨hin, hsame⟩), h.lookup_of_mem hlookup hin]
        · rw [if_neg (fun hnew => hin ((hmem c').1 hnew).1), if_neg hin]
    clients := fun c' hc' =>
      have hold := ((hmem c').1 hc').1
      ⟨h.client_le c' key (h.lookup_of_mem hlookup hold), .inl hold⟩
    occupied := fun e he => by
      obtain ⟨-, hne, hrest⟩ := hentry e he
      refine ⟨hne, ?_⟩
      rw [SharedWorkerEntry.clientIds, hrest]
      exact (nodup_cons.1 hnodup).2
    started := hstarted
    ended := hended
    ran := fun i hi => by
      rw [hran] at hi
      cases hi
    loads := by
      rw [hran, hstarted]
      simpa using hloads
    accepted := fun c' => by
      rw [haccepted, if_neg fun hc' => hc'.2 ((hmem c').1 hc'.1).1]
      rfl
    left := fun c' => by
      rw [hleft]
      by_cases hsame : c' = c
      · subst hsame
        rw [count_singleton_self, if_pos ⟨hc, fun hin => ((hmem c').1 hin).2 rfl⟩]
      · rw [count_eq_zero_of_not_mem (by simpa using hsame),
          if_neg fun hc' => hc'.2 ((hmem c').2 ⟨hc'.1, hsame⟩)]
    signals := fun i o' => by
      have howner' : entry.clientOwnerId c = some o := howner
      rw [Label.signals, hevents, howner', howns]
      simp only [slotOwns, Option.any_some, hcount]
      by_cases hlast : remaining.countP (·.ownerId = o) = 0
      · by_cases hi : i = entry.instanceId <;> by_cases ho : o = o'
        · simp [lastClientRemovedEvent, signalOf, edge, hi, ← ho, hlast]
        · simp [lastClientRemovedEvent, signalOf, hlast, ho]
        · simp [lastClientRemovedEvent, signalOf, hlast, hi, Ne.symm hi]
        · simp [lastClientRemovedEvent, signalOf, hlast, hi, Ne.symm hi]
      · by_cases ho : o = o'
        · have hpos := Nat.pos_of_ne_zero hlast
          simp [lastClientRemovedEvent, hlast, ← ho, hpos]
        · simp [lastClientRemovedEvent, hlast, ho] }

/-! ## Steps -/

/-- The call announces nothing. -/
structure Quiet (label : Label I) : Prop where
  started : label.started = []
  ran : label.ran = []
  ended : label.ended = []
  accepted : label.accepted = []
  left : label.left = []
  ownerEvents : label.ownerEvents = []

/-- Everything a step can do. -/
inductive StepCase (r : SharedWorkerRegistry I) : Label I → SharedWorkerRegistry I → Prop where
  | stale {label : Label I} (hquiet : Quiet label) : StepCase r label r
  | rejected {op error} :
      StepCase r (op, .connected ⟨.rejectClient ⟨r.nextClientId + 1⟩ error, []⟩)
        { r with nextClientId := r.nextClientId + 1, nextInstanceId := r.nextInstanceId + 1 }
  | changed {label : Label I} {r' : SharedWorkerRegistry I} {key id old new}
      (hchange : Change r r' label key id old new) (hstale : ¬ label.stale) : StepCase r label r'
  | cleared :
      StepCase r (.removeAllInstances, .allRemoved r.removeAllInstances.1) r.removeAllInstances.2

theorem increment_eq_ok {counter next : Nat} (h : increment counter = .ok next) :
    next = counter + 1 := by
  rw [increment] at h
  split at h <;> cases h
  rfl

theorem step_cases_connect (h : Inv r) {descriptor : SharedWorkerDescriptor}
    {owner : Option SharedWorkerClientOwnerId}
    {observed : SharedWorkerObservedAction (SharedWorkerConnectAction I)}
    (hconnect : r.connect key descriptor owner = .ok (observed, r')) :
    StepCase r (.connect key descriptor owner, .connected observed) r' := by
  obtain ⟨nextClientId, hclient, hconnect⟩ := bind_eq_ok.1 hconnect
  obtain rfl := increment_eq_ok hclient
  obtain ⟨nextInstanceId, hinstance, hconnect⟩ := bind_eq_ok.1 hconnect
  obtain rfl := increment_eq_ok hinstance
  rw [connectSlot] at hconnect
  cases hlookup : r.entries.lookup key with
  | none =>
    simp only [hlookup] at hconnect
    cases hconnect
    exact .changed (.startLoading hlookup descriptor _) id
  | some entry =>
    simp only [hlookup] at hconnect
    split at hconnect
    · cases hconnect
      exact .rejected
    · cases hconnect
      refine .changed (.addClient h hlookup _ ?_) id
      cases entry.state with
      | loading => exact .inl rfl
      | running instance' => exact .inr ⟨instance', rfl⟩

theorem step_cases_finishLoading (h : Inv r) (key : SharedWorkerKey)
    (instanceId : SharedWorkerInstanceId) (instance' : I) :
    StepCase r (.finishLoading key instanceId instance',
        .loadReady (r.finishLoading key instanceId instance').1)
      (r.finishLoading key instanceId instance').2 := by
  rw [finishLoading]
  cases hlookup : r.entries.lookup key with
  | none => exact .stale ⟨rfl, rfl, rfl, rfl, rfl, rfl⟩
  | some entry =>
    dsimp only
    split
    · exact .stale ⟨rfl, rfl, rfl, rfl, rfl, rfl⟩
    · next hid =>
      obtain rfl := not_not.1 hid
      split
      · exact .stale ⟨rfl, rfl, rfl, rfl, rfl, rfl⟩
      · next hloading =>
        simp only [Bool.or_eq_true, Bool.not_eq_true', not_or, Bool.not_eq_false] at hloading
        exact .changed (.finishLoading h hlookup hloading.1 instance') id

theorem step_cases_failLoading (h : Inv r) (key : SharedWorkerKey)
    (instanceId : SharedWorkerInstanceId) :
    StepCase r (.failLoading key instanceId, .loadFailed (r.failLoading key instanceId).1)
      (r.failLoading key instanceId).2 := by
  rw [failLoading]
  cases hlookup : r.entries.lookup key with
  | none => exact .stale ⟨rfl, rfl, rfl, rfl, rfl, rfl⟩
  | some entry =>
    dsimp only
    split
    · exact .stale ⟨rfl, rfl, rfl, rfl, rfl, rfl⟩
    · next hid =>
      simp only [Bool.or_eq_true, decide_eq_true_eq, not_or, not_not] at hid
      obtain ⟨rfl, -⟩ := hid
      exact .changed (.removeEntry h hlookup rfl rfl rfl rfl rfl rfl) id

theorem step_cases_removeClient (h : Inv r) (c : SharedWorkerClientId) :
    StepCase r (.removeClient c, .clientRemoved (r.removeClient c).1) (r.removeClient c).2 := by
  rw [removeClient]
  cases hkey : r.clientKeys.lookup c with
  | none => exact .stale ⟨rfl, rfl, rfl, rfl, rfl, rfl⟩
  | some key =>
    obtain ⟨entry, hlookup, hc⟩ := mem_slotClients.1 ((h.keys c key).1 hkey)
    simp only [hlookup]
    cases hremoved : entry.removeClient c with
    | mk empty remaining =>
      cases empty with
      | false =>
        have hnew : some remaining =
            if (entry.removeClient c).1 then none else some (entry.removeClient c).2 := by
          rw [hremoved]
          rfl
        cases hstate : remaining.state
        all_goals
          simp only [hstate]
          exact .changed (.removeClient h hlookup hc hnew (fun k => lookup_insert_eq _ _ _ _) rfl
            rfl rfl rfl rfl rfl) id
      | true =>
        have hnew : none =
            if (entry.removeClient c).1 then none else some (entry.removeClient c).2 := by
          rw [hremoved]
          rfl
        cases hstate : remaining.state
        all_goals
          simp only [hstate]
          exact .changed (.removeClient h hlookup hc hnew (fun k => lookup_erase_eq _ _ _) rfl rfl
            rfl rfl rfl rfl) id

theorem step_cases_removeInstance (h : Inv r) (instanceId : SharedWorkerInstanceId) :
    StepCase r (.removeInstance instanceId, .instanceRemoved (r.removeInstance instanceId).1)
      (r.removeInstance instanceId).2 := by
  rw [removeInstance]
  cases hfind : r.entries.entries.find? (·.2.instanceId = instanceId) with
  | none => exact .stale ⟨rfl, rfl, rfl, rfl, rfl, rfl⟩
  | some found =>
    have hlookup := mem_entries_iff.1 (mem_of_find?_eq_some hfind)
    exact .changed (.removeEntry h hlookup rfl rfl rfl rfl rfl rfl) id

theorem step_cases (h : Inv r) (hstep : Step r label r') : StepCase r label r' := by
  obtain ⟨op, out⟩ := label
  cases op with
  | connect key descriptor owner =>
    obtain ⟨result, hconnect, hstep⟩ := bind_eq_ok.1 hstep
    cases hstep
    exact step_cases_connect h hconnect
  | finishLoading key instanceId instance' =>
    cases hstep
    exact step_cases_finishLoading h key instanceId instance'
  | failLoading key instanceId =>
    cases hstep
    exact step_cases_failLoading h key instanceId
  | removeClient c =>
    cases hstep
    exact step_cases_removeClient h c
  | removeInstance instanceId =>
    cases hstep
    exact step_cases_removeInstance h instanceId
  | removeAllInstances =>
    cases hstep
    exact .cleared

/-! ## Accounts -/

/-- What a step announces is what it does. -/
structure Balanced (r : SharedWorkerRegistry I) (label : Label I) (r' : SharedWorkerRegistry I) :
    Prop where
  counters : r.nextClientId ≤ r'.nextClientId ∧ r.nextInstanceId ≤ r'.nextInstanceId
  instances : ∀ i, label.ended.count i + (r'.findInstance i).isSome.toNat =
    label.started.count i + (r.findInstance i).isSome.toNat
  loads : ∀ i, label.ran.count i + slotLoads (r'.findInstance i) ≤
    label.started.count i + slotLoads (r.findInstance i)
  clients : ∀ c, label.left.count c + (r'.clientKeys.lookup c).isSome.toNat =
    label.accepted.count c + (r.clientKeys.lookup c).isSome.toNat
  signals : ∀ i o, label.signals i o =
    edge (slotOwns (r.findInstance i) o) (slotOwns (r'.findInstance i) o)
  started : ∀ i ∈ label.started, r.nextInstanceId < i.asU64 ∧ i.asU64 ≤ r'.nextInstanceId
  accepted : ∀ c ∈ label.accepted, r.nextClientId < c.asU64 ∧ c.asU64 ≤ r'.nextClientId
  once : (∀ i, label.started.count i ≤ 1) ∧ ∀ c, label.accepted.count c ≤ 1

namespace Balanced

/-- A call that announces nothing and leaves the entries alone. -/
theorem quiet (hquiet : Quiet label) (hentries : r'.entries = r.entries)
    (hkeys : r'.clientKeys = r.clientKeys)
    (hcounters : r.nextClientId ≤ r'.nextClientId ∧ r.nextInstanceId ≤ r'.nextInstanceId) :
    Balanced r label r' := by
  have hfind : ∀ i, r'.findInstance i = r.findInstance i := by
    intro i
    rw [findInstance, hentries]
    rfl
  refine ⟨hcounters, fun i => ?_, fun i => ?_, fun c => ?_, fun i o => ?_, ?_, ?_, ?_⟩
  · rw [hfind, hquiet.ended, hquiet.started]
  · rw [hfind, hquiet.ran, hquiet.started]
  · rw [hkeys, hquiet.left, hquiet.accepted]
  · rw [hfind, Label.signals, hquiet.ownerEvents, edge_self]
    rfl
  · rw [hquiet.started]
    exact fun i hi => absurd hi not_mem_nil
  · rw [hquiet.accepted]
    exact fun c hc => absurd hc not_mem_nil
  · rw [hquiet.started, hquiet.accepted]
    exact ⟨fun _ => Nat.zero_le _, fun _ => Nat.zero_le _⟩

theorem changed {id : SharedWorkerInstanceId} {old new : Option (SharedWorkerEntry I)}
    (hinv : Inv r) (h : Change r r' label key id old new) : Balanced r label r' := by
  obtain ⟨hold, hnew, hother⟩ := h.findInstance hinv
  have hcount : ∀ (i : SharedWorkerInstanceId) (present : Bool), i ≠ id →
      (if present then [id] else []).count i = 0 := by
    intro i present hi
    cases present with
    | false => rfl
    | true => simp [Ne.symm hi]
  refine ⟨h.counters, fun i => ?_, fun i => ?_, fun c => ?_, fun i o => ?_, ?_, ?_, ?_⟩
  · rw [h.ended, h.started]
    by_cases hi : i = id
    · subst hi
      rw [hold, hnew]
      cases old <;> cases new <;> simp
    · rw [hother i hi, hcount i _ hi, hcount i _ hi]
  · by_cases hi : i = id
    · subst hi
      have hran : label.ran.count i = label.ran.length :=
        count_eq_length.2 fun x hx => (h.ran x hx).symm
      have hstarted : label.started.count i = label.started.length := by
        rw [h.started]
        cases old <;> simp
      rw [hold, hnew, hran, hstarted, Nat.add_comm label.started.length]
      exact h.loads
    · have hran : label.ran.count i = 0 :=
        count_eq_zero.2 fun hmem => hi (h.ran i hmem)
      rw [hother i hi, hran, h.started, hcount i _ hi]
  · rw [h.left, h.accepted, h.keys]
    by_cases hn : c ∈ slotClients new <;> by_cases ho : c ∈ slotClients old
    · simp [hn, ho, h.keys_old hinv ho]
    · have hnone : r.clientKeys.lookup c = none := by
        cases hlookup : r.clientKeys.lookup c with
        | none => rfl
        | some k =>
          have hfresh := (h.clients c hn).2.resolve_left ho
          exact absurd (hinv.client_le c k hlookup) (Nat.not_le.2 hfresh)
      simp [hn, ho, hnone]
    · simp [hn, ho, h.keys_old hinv ho]
    · simp [hn, ho]
  · rw [h.signals]
    split
    · next hi => rw [hi, hold, hnew]
    · next hi => rw [hother i hi, edge_self]
  · intro i hi
    rw [h.started] at hi
    split at hi
    · next hnone =>
      obtain rfl := mem_singleton.1 hi
      exact ⟨h.id_fresh (Option.isNone_iff_eq_none.1 hnone), h.id_le⟩
    · cases hi
  · intro c hc
    have hpos : 0 < label.accepted.count c := count_pos_iff.2 hc
    rw [h.accepted] at hpos
    split at hpos
    · next hc => exact ⟨(h.clients c hc.1).2.resolve_left hc.2, (h.clients c hc.1).1⟩
    · cases hpos
  · refine ⟨fun i => ?_, fun c => ?_⟩
    · rw [h.started]
      split
      · exact count_le_length
      · exact Nat.zero_le _
    · rw [h.accepted]
      split <;> omega

/-- The events of the removal of all entries. -/
theorem filterMap_removed {l : List (Sigma fun _ : SharedWorkerKey => SharedWorkerEntry I)}
    (h : (l.map (·.2.instanceId)).Nodup) (i : SharedWorkerInstanceId)
    (o : SharedWorkerClientOwnerId) :
    (l.flatMap fun x => lastClientRemovedEvents x.2.instanceId x.2).filterMap (signalOf i o) =
      edge (slotOwns ((l.map Sigma.snd).find? (·.instanceId = i)) o) false := by
  induction l with
  | nil => rfl
  | cons x l ih =>
    obtain ⟨hnew, hnodup⟩ := nodup_cons.1 h
    rw [flatMap_cons, filterMap_append, filterMap_lastClientRemovedEvents, ih hnodup]
    by_cases hi : i = x.2.instanceId
    · have hnone : (l.map Sigma.snd).find? (·.instanceId = i) = none := by
        refine find?_eq_none.2 fun e he => ?_
        obtain ⟨y, hy, rfl⟩ := mem_map.1 he
        simp only [decide_eq_true_eq]
        exact fun hid => hnew (mem_map.2 ⟨y, hy, hid.trans hi⟩)
      rw [hnone]
      simp [hi, slotOwns]
    · simp [hi, Ne.symm hi]

theorem count_eq_toNat {α : Type} [DecidableEq α] {l : List α} (h : l.Nodup) {a : α} {b : Bool}
    (hmem : a ∈ l ↔ b = true) : l.count a = b.toNat := by
  rw [h.count]
  cases b <;> simp [hmem]

/-- All entries and clients are gone. -/
theorem cleared (hinv : Inv r) :
    Balanced r (.removeAllInstances, .allRemoved r.removeAllInstances.1)
      r.removeAllInstances.2 := by
  have hended : ended (I := I) (.removeAllInstances, .allRemoved r.removeAllInstances.1) =
      r.entries.entries.map (·.2.instanceId) := by
    rw [map_eq_flatMap]
    simp [ended, removeAllInstances, flatMap_map, removed, removedInstance]
  have hleft : Label.left (I := I) (.removeAllInstances, .allRemoved r.removeAllInstances.1) =
      r.entries.entries.flatMap (·.2.clientIds) := by
    simp [Label.left, removeAllInstances, flatMap_map, removed, removedClients]
  have hevents : Label.ownerEvents (I := I)
      (.removeAllInstances, .allRemoved r.removeAllInstances.1) =
      r.entries.entries.flatMap fun x => lastClientRemovedEvents x.2.instanceId x.2 := by
    simp [Label.ownerEvents, removeAllInstances, flatMap_map, removed]
  have hids : (r.entries.entries.map (·.2.instanceId)).Nodup := by
    refine List.Nodup.map_on ?_ r.entries.nodupKeys.nodup
    rintro ⟨k, e⟩ hx ⟨k', e'⟩ hy hid
    have hlookup := mem_entries_iff.1 hx
    have hlookup' := mem_entries_iff.1 hy
    obtain rfl := hinv.unique k k' e e' hlookup hlookup' hid
    rw [Option.mem_unique hlookup hlookup']
  have hclients : (r.entries.entries.flatMap (·.2.clientIds)).Nodup := by
    refine nodup_flatMap.2 ⟨fun x hx => (hinv.occupied x.1 x.2 (mem_entries_iff.1 hx)).2, ?_⟩
    refine (nodupKeys_iff_pairwise.1 r.entries.nodupKeys).imp_of_mem ?_
    intro x y hx hy hne c hcx hcy
    have hkey := hinv.lookup_of_mem (mem_entries_iff.1 hx) hcx
    have hkey' := hinv.lookup_of_mem (mem_entries_iff.1 hy) hcy
    exact hne (Option.mem_unique hkey hkey')
  refine ⟨⟨le_rfl, le_rfl⟩, fun i => ?_, fun i => Nat.zero_le _, fun c => ?_, fun i o => ?_,
    fun i hi => (nomatch hi), fun c hc => (nomatch hc), fun _ => Nat.zero_le _,
    fun _ => Nat.zero_le _⟩
  · have hmem : i ∈ r.entries.entries.map (·.2.instanceId) ↔
        (r.findInstance i).isSome = true := by
      rw [findInstance, find?_isSome, mem_map]
      constructor
      · rintro ⟨x, hx, rfl⟩
        exact ⟨x.2, mem_map_of_mem hx, by simp⟩
      · rintro ⟨e, he, hid⟩
        obtain ⟨x, hx, rfl⟩ := mem_map.1 he
        exact ⟨x, hx, by simpa using hid⟩
    rw [hended, count_eq_toNat hids hmem]
    exact Nat.add_comm ..
  · have hmem : c ∈ r.entries.entries.flatMap (·.2.clientIds) ↔
        (r.clientKeys.lookup c).isSome = true := by
      rw [mem_flatMap, Option.isSome_iff_exists]
      constructor
      · rintro ⟨⟨k, e⟩, hx, hc⟩
        exact ⟨k, hinv.lookup_of_mem (mem_entries_iff.1 hx) hc⟩
      · rintro ⟨k, hk⟩
        obtain ⟨e, he, hc⟩ := mem_slotClients.1 ((hinv.keys c k).1 hk)
        exact ⟨⟨k, e⟩, mem_entries_iff.2 he, hc⟩
    rw [hleft, count_eq_toNat hclients hmem]
    exact Nat.add_comm ..
  · rw [Label.signals, hevents, filterMap_removed hids]
    rfl

end Balanced

theorem StepCase.inv (h : StepCase r label r') (hinv : Inv r) : Inv r' := by
  cases h with
  | stale => exact hinv
  | rejected =>
    exact { hinv with
      instance_le := fun k e he => (hinv.instance_le k e he).trans (Nat.le_succ _)
      client_le := fun c k hk => (hinv.client_le c k hk).trans (Nat.le_succ _) }
  | changed hchange => exact hchange.inv hinv
  | cleared =>
    refine ⟨fun c k => ?_, ?_, ?_, ?_, ?_⟩ <;> simp [removeAllInstances]

theorem StepCase.balanced (h : StepCase r label r') (hinv : Inv r) : Balanced r label r' := by
  cases h with
  | stale hquiet => exact .quiet hquiet rfl rfl ⟨le_rfl, le_rfl⟩
  | @rejected op error =>
    refine .quiet ⟨rfl, rfl, rfl, rfl, ?_, rfl⟩ rfl rfl ⟨Nat.le_succ _, Nat.le_succ _⟩
    cases op <;> rfl
  | changed hchange => exact .changed hinv hchange
  | cleared => exact .cleared hinv

/-- Ids drawn from a counter, each at most once. -/
structure Drawn {α : Type} [DecidableEq α] (rank : α → Nat) (ids : List α) (counter : Nat) :
    Prop where
  once : ∀ a, ids.count a ≤ 1
  le : ∀ a ∈ ids, rank a ≤ counter

theorem Drawn.append {α : Type} [DecidableEq α] {rank : α → Nat} {ids new : List α} {n n' : Nat}
    (h : Drawn rank ids n) (hle : n ≤ n') (hnew : ∀ a ∈ new, n < rank a ∧ rank a ≤ n')
    (honce : ∀ a, new.count a ≤ 1) : Drawn rank (ids ++ new) n' := by
  refine ⟨fun a => ?_, fun a ha => ?_⟩
  · have hold := h.once a
    rw [count_append]
    by_cases hmem : a ∈ new
    · have hnot : a ∉ ids := fun hin => absurd (h.le a hin) (Nat.not_le.2 (hnew a hmem).1)
      rw [count_eq_zero_of_not_mem hnot, Nat.zero_add]
      exact honce a
    · rwa [count_eq_zero_of_not_mem hmem]
  · rcases mem_append.1 ha with ha | ha
    · exact (h.le a ha).trans hle
    · exact (hnew a ha).2

/-- The accounts of a run that has announced `trace` and left `r`. -/
structure Account (trace : List (Label I)) (r : SharedWorkerRegistry I) : Prop where
  instances : ∀ i, (trace.flatMap ended).count i + (r.findInstance i).isSome.toNat =
    (trace.flatMap started).count i
  loads : ∀ i, (trace.flatMap Label.ran).count i + slotLoads (r.findInstance i) ≤
    (trace.flatMap started).count i
  started : Drawn (·.asU64) (trace.flatMap started) r.nextInstanceId
  clients : ∀ c, (trace.flatMap Label.left).count c + (r.clientKeys.lookup c).isSome.toNat =
    (trace.flatMap Label.accepted).count c
  accepted : Drawn (·.asU64) (trace.flatMap Label.accepted) r.nextClientId
  signals : ∀ i o, Reports (trace.flatMap (Label.signals i o)) (slotOwns (r.findInstance i) o)

namespace Account

theorem nil : Account [] (SharedWorkerRegistry.default (I := I)) where
  instances _ := rfl
  loads _ := le_rfl
  started := ⟨fun _ => Nat.zero_le _, fun _ h => nomatch h⟩
  clients _ := rfl
  accepted := ⟨fun _ => Nat.zero_le _, fun _ h => nomatch h⟩
  signals _ _ := .nil

theorem snoc {trace : List (Label I)} (h : Account trace r) (hstep : Balanced r label r') :
    Account (trace ++ [label]) r' where
  instances i := by
    have htrace := h.instances i
    have hlast := hstep.instances i
    simp only [flatMap_append, flatMap_singleton, count_append]
    omega
  loads i := by
    have htrace := h.loads i
    have hlast := hstep.loads i
    simp only [flatMap_append, flatMap_singleton, count_append]
    omega
  started := by
    rw [flatMap_append, flatMap_singleton]
    exact h.started.append hstep.counters.2 hstep.started hstep.once.1
  clients c := by
    have htrace := h.clients c
    have hlast := hstep.clients c
    simp only [flatMap_append, flatMap_singleton, count_append]
    omega
  accepted := by
    rw [flatMap_append, flatMap_singleton]
    exact h.accepted.append hstep.counters.1 hstep.accepted hstep.once.2
  signals i o := by
    rw [flatMap_append, flatMap_singleton, hstep.signals]
    exact (h.signals i o).step _

theorem of_trace {before trace : List (Label I)} (htrace : Trace Step r trace r') (hinv : Inv r)
    (h : Account before r) : Inv r' ∧ Account (before ++ trace) r' := by
  induction htrace generalizing before with
  | nil => exact ⟨hinv, by simpa using h⟩
  | cons hstep _ ih =>
    have hcase := step_cases hinv hstep
    have hrest := ih (hcase.inv hinv) (h.snoc (hcase.balanced hinv))
    simpa using hrest

end Account

theorem slotOwns_findInstance :
    slotOwns (r.findInstance i) o = true ↔ 0 < r.clientCountForOwner i o := by
  rw [clientCountForOwner]
  cases r.findInstance i <;> simp [slotOwns]

theorem StepCase.stale_eq (h : StepCase r label r') (hstale : label.stale) :
    r' = r ∧ label.ownerEvents = [] := by
  cases h with
  | stale hquiet => exact ⟨rfl, hquiet.ownerEvents⟩
  | rejected | cleared => exact hstale.elim
  | changed _ hnot => exact absurd hstale hnot

/-- Every call returns unless a counter overflows. -/
theorem progress (r : SharedWorkerRegistry I) (op : Op I) :
    (∃ out r', Step r (op, out) r') ∨
      (2 ^ 64 - 1 ≤ r.nextClientId ∨ 2 ^ 64 - 1 ≤ r.nextInstanceId) ∧
        ∃ key descriptor owner, op = .connect key descriptor owner := by
  cases op with
  | connect key descriptor owner =>
    by_cases hclient : r.nextClientId < 2 ^ 64 - 1
    · by_cases hinstance : r.nextInstanceId < 2 ^ 64 - 1
      · let result := connectSlot
          { r with nextClientId := r.nextClientId + 1, nextInstanceId := r.nextInstanceId + 1 } key
          descriptor ⟨⟨r.nextClientId + 1⟩, owner.getD (.uniqueForClient ⟨r.nextClientId + 1⟩)⟩
          ⟨r.nextInstanceId + 1⟩
        refine .inl ⟨.connected result.1, result.2, ?_⟩
        simp only [result, Step, SharedWorkerRegistry.step, connect,
          connectLocked, increment, if_pos hclient, if_pos hinstance, bind,
          Except.bind, pure, Except.pure]
      · exact .inr ⟨.inr (Nat.not_lt.1 hinstance), key, descriptor, owner, rfl⟩
    · exact .inr ⟨.inl (Nat.not_lt.1 hclient), key, descriptor, owner, rfl⟩
  | finishLoading | failLoading | removeClient | removeInstance | removeAllInstances =>
    exact .inl ⟨_, _, rfl⟩

/-- After any run: the client keys list the clients of the entries; no entry is without clients, and
no two have one instance. An announced instance has ended once or is present, and has become running
at most once; an accepted client has left once or is attached. The events of an owner at an instance
alternate, and the last one says whether it has a client there. Stale calls change nothing. -/
theorem shared_worker_lifecycles_balance {trace : List (Label I)} {r : SharedWorkerRegistry I}
    (htrace : Trace Step .default trace r) :
    (∀ c k, r.clientKeys.lookup c = some k ↔
        ∃ e, r.entries.lookup k = some e ∧ c ∈ e.clientIds) ∧
      (∀ k e, r.entries.lookup k = some e → e.clients ≠ [] ∧ e.clientIds.Nodup) ∧
      (∀ k k' e e', r.entries.lookup k = some e → r.entries.lookup k' = some e' →
        e.instanceId = e'.instanceId → k = k') ∧
      (∀ i, (trace.flatMap ended).count i + (r.findInstance i).isSome.toNat =
          (trace.flatMap started).count i ∧
        (trace.flatMap started).count i ≤ 1 ∧
        (trace.flatMap Label.ran).count i ≤ (trace.flatMap started).count i) ∧
      (∀ c, (trace.flatMap Label.left).count c + (r.clientKeys.lookup c).isSome.toNat =
          (trace.flatMap Label.accepted).count c ∧
        (trace.flatMap Label.accepted).count c ≤ 1) ∧
      (∀ i o, (trace.flatMap (Label.signals i o)).head? ≠ some false ∧
        (trace.flatMap (Label.signals i o)).IsChain (· ≠ ·) ∧
        ((trace.flatMap (Label.signals i o)).getLast? = some true ↔
          0 < r.clientCountForOwner i o)) ∧
      (∀ label r', Step r label r' → label.stale → r' = r ∧ label.ownerEvents = []) ∧
      ∀ op, (∃ out r', Step r (op, out) r') ∨
        (2 ^ 64 - 1 ≤ r.nextClientId ∨ 2 ^ 64 - 1 ≤ r.nextInstanceId) ∧
          ∃ key descriptor owner, op = .connect key descriptor owner := by
  obtain ⟨hinv, haccount⟩ := Account.of_trace htrace .default .nil
  refine ⟨fun c k => (hinv.keys c k).trans mem_slotClients, hinv.occupied, hinv.unique,
    fun i => ?_, fun c => ?_, fun i o => ?_, ?_, progress r⟩
  · exact ⟨haccount.instances i, haccount.started.once i,
      (Nat.le_add_right _ _).trans (haccount.loads i)⟩
  · exact ⟨haccount.clients c, haccount.accepted.once c⟩
  · have hreports := haccount.signals i o
    exact ⟨hreports.first, hreports.alternate,
      hreports.last_eq_true.trans slotOwns_findInstance⟩
  · intro label r' hstep hstale
    exact (step_cases hinv hstep).stale_eq hstale

/-- One worker with two clients of one owner, which leave one after the other. -/
def twoClients : List (Label Nat) :=
  let key : SharedWorkerKey := ⟨⟨"a", "a", none, .firstParty, false⟩, "u", "n", .all⟩
  [(.connect key .default (some ⟨7⟩),
      .connected ⟨.startLoading ⟨1⟩ ⟨1⟩, [.firstClientAdded ⟨1⟩ ⟨7⟩]⟩),
    (.finishLoading key ⟨1⟩ 5, .loadReady (.running ⟨1⟩ [⟨1⟩] 5)),
    (.connect key .default (some ⟨7⟩), .connected ⟨.connectToRunning ⟨1⟩ ⟨2⟩ 5, []⟩),
    (.removeClient ⟨1⟩, .clientRemoved ⟨.removedFromRunning ⟨1⟩ 5, []⟩), (.removeClient ⟨2⟩,
      .clientRemoved ⟨.terminate ⟨1⟩ key 5, [.lastClientRemoved ⟨1⟩ ⟨7⟩]⟩)]

theorem shared_worker_lifecycles_balance_twoClients :
    ∃ r, Trace Step .default twoClients r ∧
      (twoClients.flatMap ended).count ⟨1⟩ + (r.findInstance ⟨1⟩).isSome.toNat =
        (twoClients.flatMap started).count ⟨1⟩ := by
  have htrace : Trace Step .default twoClients ⟨2, 2, ∅, ∅⟩ :=
    .cons rfl <| .cons rfl <| .cons rfl <| .cons rfl <| .cons rfl (.nil _)
  exact ⟨_, htrace, ((shared_worker_lifecycles_balance htrace).2.2.2.1 ⟨1⟩).1⟩

end Moli.SharedWorker
