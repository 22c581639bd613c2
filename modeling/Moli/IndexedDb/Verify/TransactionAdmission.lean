import Moli.IndexedDb.Verify.TransactionScan

/-!
# Admission is serialisable and first in, first out

`World.Inv` is the invariant of the queues, and `World.Effect` says what one step can do to a world
that satisfies it: admit a request, start one, shrink queues and settle them, detach a queue, or run
one deferred action. `step_effect` is the only place that looks into the operations; that the
invariant is kept and what follows for whole runs is read off the effects.
-/

namespace Moli.IndexedDb.TransactionQueue

open List

namespace World

/-! ## Queues as a function of the key -/

theorem cmp_eq_iff {a b : DatabaseKey} : DatabaseKey.cmp a b = .eq ↔ b = a :=
  Std.LawfulEqCmp.compare_eq_iff_eq.trans eq_comm

variable {w : World} {key : DatabaseKey} {q older newer : List QueuedRequest} {e : QueuedRequest}

theorem queue_of_insert {w' : World} (h : w'.queues = w.queues.insert key q) (k : DatabaseKey) :
    w'.queue k = if k = key then q else w.queue k := by
  simp only [queue, h, Std.TreeMap.getElem?_insert, cmp_eq_iff]
  split <;> rfl

theorem queue_of_erase {w' : World} (h : w'.queues = w.queues.erase key) (k : DatabaseKey) :
    w'.queue k = if k = key then [] else w.queue k := by
  simp only [queue, h, Std.TreeMap.getElem?_erase, cmp_eq_iff]
  split <;> rfl

theorem queue_of_get (h : w.queues[key]? = some q) : w.queue key = q := by
  rw [queue, h]
  rfl

theorem queue_cancelConnections (w : World) (databases : List DatabaseHandle) (k : DatabaseKey) :
    (w.cancelConnections databases).queue k = retained databases (w.queue k) := by
  simp only [queue, cancelConnections, defer, Std.TreeMap.getElem?_filterMap]
  cases h : w.queues[k]? with
  | none => rfl
  | some q =>
    simp only [Option.pbind_some]
    split
    · next hempty => simpa using hempty
    · rfl

/-! ## The invariant -/

structure Inv (w : World) : Prop where
  ids_le : ∀ key, ∀ e ∈ w.queue key, e.id ≤ w.nextId
  sorted : ∀ key, (w.queue key).Pairwise fun a b => a.id < b.id
  disjoint : ∀ key key', ∀ a ∈ w.queue key, ∀ b ∈ w.queue key', a.id = b.id → key = key'
  settled : ∀ key, Settled w.status [] (w.queue key)
  fresh : ∀ id, w.nextId < id → w.status id = none
  canceling : ∀ c ∈ w.calls, ∀ id ∈ c.cancels, id ≤ w.nextId ∧ ∀ key, ∀ e ∈ w.queue key, e.id ≠ id
  started_past : ∀ x ∈ w.started, x.2.id ≤ w.nextId ∧
    w.status x.2.id ≠ some .pending ∧ w.status x.2.id ≠ some .ready
  started_first : ∀ x ∈ w.started, ∀ o ∈ w.queue x.1, o.id < x.2.id →
    x.2.scope.conflictsWith o.scope = false
  started_ordered : w.started.Pairwise fun x y =>
    x.1 = y.1 → x.2.scope.conflictsWith y.2.scope = true → x.2.id < y.2.id

theorem Inv.nodup (h : w.Inv) (key : DatabaseKey) : ((w.queue key).map QueuedRequest.id).Nodup :=
  pairwise_map.2 ((h.sorted key).imp Nat.ne_of_lt)

theorem Inv.init : World.init.Inv where
  ids_le := by simp [World.init, queue]
  sorted := by simp [World.init, queue]
  disjoint := by simp [World.init, queue]
  settled := fun key => by simp [World.init, queue, Settled]
  fresh := fun _ _ => rfl
  canceling := by simp [World.init]
  started_past := by simp [World.init]
  started_first := by simp [World.init]
  started_ordered := by simp [World.init]

/-! ## Effects -/

/-- What one step can do. -/
inductive Effect (w w' : World) : Prop
  | unchanged (h : w' = w)
  | admitted (key : DatabaseKey) (e : QueuedRequest)
      (nextId_eq : w'.nextId = w.nextId + 1) (id_eq : e.id = w.nextId + 1)
      (queue_eq : ∀ k, w'.queue k = if k = key then w.queue key ++ [e] else w.queue k)
      (status_eq : w'.status =
        w.status.set e.id (if blockedBy (w.queue key) e.scope then .pending else .ready))
      (calls_eq : w'.calls = w.calls) (woken_eq : w'.woken = w.woken)
      (started_eq : w'.started = w.started)
  | started (key : DatabaseKey) (older newer : List QueuedRequest) (e : QueuedRequest)
      (queue_eq : w.queue key = older ++ e :: newer) (ready : w.status e.id = some .ready)
      (h : w' = { w with
        status := w.status.set e.id .started, started := w.started ++ [(key, e)] })
  /-- Entries left the queues, one of them possibly because it is finished. -/
  | shrunk (mid : StatusCells) (wakes : List Nat)
      (mid_eq : mid = w.status ∨ ∃ key, ∃ e ∈ w.queue key, IsLive (w.status e.id) ∧
        mid = w.status.set e.id .finished ∧ e ∉ w'.queue key)
      (wakes_eq : Wakes mid w'.status wakes)
      (frame : ∀ id, (∀ k, ∀ e ∈ w.queue k, e.id ≠ id) → w'.status id = w.status id)
      (nextId_eq : w'.nextId = w.nextId)
      (queue_sub : ∀ k, (w'.queue k).Sublist (w.queue k))
      (settled : ∀ k, Settled w'.status [] (w'.queue k))
      (calls_eq : w'.calls = w.calls ++ [⟨[], wakes⟩]) (woken_eq : w'.woken = w.woken)
      (started_eq : w'.started = w.started)
  | detached (key : DatabaseKey) (nextId_eq : w'.nextId = w.nextId)
      (queue_eq : ∀ k, w'.queue k = if k = key then [] else w.queue k)
      (status_eq : w'.status = w.status)
      (calls_eq : w'.calls = w.calls ++
        [⟨(w.queue key).map QueuedRequest.id, (w.queue key).map QueuedRequest.id⟩])
      (woken_eq : w'.woken = w.woken) (started_eq : w'.started = w.started)
  | canceled (call id : Nat) (cancels wakes : List Nat)
      (calls_eq : w.calls[call]? = some ⟨id :: cancels, wakes⟩)
      (h : w' = { w with
        status := w.status.set id .canceled, calls := w.calls.set call ⟨cancels, wakes⟩ })
  | woke (call id : Nat) (wakes : List Nat) (calls_eq : w.calls[call]? = some ⟨[], id :: wakes⟩)
      (h : w' = { w with woken := w.woken ++ [id], calls := w.calls.set call ⟨[], wakes⟩ })

theorem enqueue_effect (w : World) (key : DatabaseKey) (database : DatabaseHandle)
    (stores : Finset IndexedDbName) (mode : TransactionMode) :
    Effect w (w.enqueue key database stores mode) := by
  unfold enqueue
  split
  · exact .unchanged rfl
  · refine .admitted key ⟨w.nextId + 1, database, ⟨stores, mode⟩⟩ rfl rfl ?_ ?_ rfl rfl rfl
    · exact queue_of_insert rfl
    · simp only
      cases blockedBy (w.queue key) ⟨stores, mode⟩ <;> rfl

theorem cancelDatabase_effect (w : World) (origin name : String) :
    Effect w (w.cancelDatabase origin name) := by
  unfold cancelDatabase
  split
  · exact .unchanged rfl
  · next q hq =>
    refine .detached (origin, name) rfl (queue_of_erase rfl) rfl ?_ rfl rfl
    rw [queue_of_get hq]
    rfl

theorem claimStart_cases (w : World) (key : DatabaseKey) (id : Nat) :
    w.claimStart key id = (false, w) ∨
    ∃ older e newer, w.queue key = older ++ e :: newer ∧ e.id = id ∧
      w.status e.id = some .ready ∧
      w.claimStart key id = (true, { w with
        status := w.status.set e.id .started, started := w.started ++ [(key, e)] }) := by
  unfold claimStart
  split
  · exact .inl rfl
  · next e hfind =>
    obtain ⟨hid, older, newer, hqueue, -⟩ := find?_eq_some_iff_append.1 hfind
    split
    · exact .inl rfl
    · next hready =>
      exact .inr ⟨older, e, newer, hqueue, of_decide_eq_true hid, not_not.1 hready, rfl⟩

theorem claimStart_effect (w : World) (key : DatabaseKey) (id : Nat) :
    Effect w (w.claimStart key id).2 := by
  rcases w.claimStart_cases key id with h | ⟨older, e, newer, hqueue, -, hready, h⟩
  · exact .unchanged (by rw [h])
  · exact .started key older newer e hqueue hready (by rw [h])

theorem resume_effect (w : World) (call : Nat) : Effect w (w.resume call) := by
  unfold resume
  split
  · exact .unchanged rfl
  · next h => exact .canceled call _ _ _ h rfl
  · next h => exact .woke call _ _ h rfl
  · exact .unchanged rfl

theorem cancelConnections_effect (h : w.Inv) (databases : List DatabaseHandle) :
    Effect w (w.cancelConnections databases) := by
  have hget {x : DatabaseKey × List QueuedRequest} (hx : x ∈ w.queues.toList) :
      w.queue x.1 = x.2 :=
    queue_of_get (Std.TreeMap.mem_toList_iff_getElem?_eq_some.1 hx)
  have hdisjoint : w.queues.toList.Pairwise fun x y => ∀ a ∈ x.2, ∀ b ∈ y.2, a.id ≠ b.id := by
    refine (Std.TreeMap.distinct_keys_toList (t := w.queues)).imp_of_mem ?_
    intro x y hx hy hne a ha b hb hab
    rw [← hget hx] at ha
    rw [← hget hy] at hb
    exact hne (cmp_eq_iff.2 (h.disjoint _ _ b hb a ha hab.symm))
  have hsettled : ∀ x ∈ w.queues.toList, Settled w.status [] x.2 :=
    fun x hx => hget hx ▸ h.settled x.1
  obtain ⟨cells', new, heq, hsettled', hwakes, hframe⟩ := foldl_cancelQueue_spec databases hsettled
    (fun x hx => hget hx ▸ h.nodup x.1) hdisjoint []
  have hstatus : (w.cancelConnections databases).status = cells' := by
    simp only [cancelConnections, defer, heq]
  refine .shrunk w.status new (.inl rfl) (hstatus ▸ hwakes) (fun id hid => ?_) rfl (fun k => ?_)
    (fun k => ?_) ?_ rfl rfl
  · rw [hstatus]
    refine hframe id fun x hx e he => hid x.1 e ?_
    rwa [hget hx]
  · rw [queue_cancelConnections]
    exact retained_sublist databases _
  · rw [hstatus, queue_cancelConnections]
    cases hk : w.queues[k]? with
    | none => simp [queue, hk, retained, Settled]
    | some q =>
      rw [queue_of_get hk]
      exact hsettled' (k, q) (Std.TreeMap.mem_toList_iff_getElem?_eq_some.2 hk)
  · simp only [cancelConnections, defer, heq, nil_append]

theorem eq_append_of_findIdx? {p : QueuedRequest → Bool} {index : Nat}
    (h : q.findIdx? p = some index) :
    ∃ older e newer, q = older ++ e :: newer ∧ p e = true ∧ q.eraseIdx index = older ++ newer := by
  obtain ⟨hlt, hp, -⟩ := findIdx?_eq_some_iff_getElem.1 h
  refine ⟨q.take index, q[index], q.drop (index + 1), ?_, hp, eraseIdx_eq_take_drop_succ q index⟩
  rw [← drop_eq_getElem_cons hlt, take_append_drop]

theorem release_cases (w : World) (key : DatabaseKey) (id : Nat) (r : Release) :
    w.release key id r = w ∨
    ∃ older e newer, w.queue key = older ++ e :: newer ∧ e.id = id ∧
      (∀ k, (w.release key id r).queue k = if k = key then older ++ newer else w.queue k) ∧
      ∃ cells wakes,
        wakeNewlyReady [] (older ++ newer) (w.status.set id .finished) [] = (cells, wakes) ∧
        w.release key id r = { w with
          queues := (w.release key id r).queues
          status := cells
          calls := w.calls ++ [⟨[], wakes⟩] } := by
  unfold release
  split
  · exact .inl rfl
  · next q hq =>
    split
    · exact .inl rfl
    · next index hidx =>
      split
      · exact .inl rfl
      · obtain ⟨older, e, newer, rfl, hid, herase⟩ := eq_append_of_findIdx? hidx
        refine .inr ⟨older, e, newer, queue_of_get hq, of_decide_eq_true hid, fun k => ?_,
          _, _, rfl, by rw [herase]; rfl⟩
        rw [herase]
        by_cases hempty : (older ++ newer).isEmpty = true
        · rw [isEmpty_iff.1 hempty]
          exact queue_of_erase (by simp [defer]) k
        · exact queue_of_insert (by simp [defer, hempty]) k

theorem release_effect (h : w.Inv) (key : DatabaseKey) (id : Nat) (r : Release) :
    Effect w (w.release key id r) := by
  rcases w.release_cases key id r with heq | ⟨older, e, newer, hqueue, rfl, hqueue', cells, wakes,
    hscan, heq⟩
  · exact .unchanged heq
  · have hsettled := h.settled key
    have hnodup := h.nodup key
    rw [hqueue] at hsettled hnodup
    obtain ⟨cells', new, hscan', hsettled', hwakes, hfresh, hframe⟩ :=
      finishEntry_spec hsettled hnodup
    obtain ⟨rfl, rfl⟩ : cells = cells' ∧ wakes = new := by
      rw [hscan] at hscan'
      exact Prod.mk.inj hscan'
    have hmem : e ∈ w.queue key := by simp [hqueue]
    have hstatus : (w.release key e.id r).status = cells := by rw [heq]
    refine .shrunk (w.status.set e.id .finished) wakes
      (.inr ⟨key, e, hmem, (h.settled key).isLive e hmem, rfl, ?_⟩) (hstatus ▸ hwakes)
      (fun i hi => ?_) (by rw [heq]) (fun k => ?_) (fun k => ?_) (by rw [heq]) (by rw [heq])
      (by rw [heq])
    · rw [hqueue', if_pos rfl]
      exact fun he => hfresh (mem_map_of_mem he)
    · rw [hstatus]
      refine hframe i fun himem => ?_
      obtain ⟨o, ho, hoid⟩ := mem_map.1 himem
      exact hi key o (hqueue ▸ ho) hoid
    · rw [hqueue']
      split
      · next hk =>
        rw [hk, hqueue]
        exact (List.Sublist.refl older).append (sublist_cons_self e newer)
      · exact .refl _
    · rw [hqueue', hstatus]
      split
      · exact hsettled'
      · next hk =>
        -- The requests of the other queues are not touched.
        refine (h.settled k).congr fun o ho => hframe _ fun homem => ?_
        obtain ⟨b, hb, hbid⟩ := mem_map.1 homem
        exact hk (h.disjoint k key o ho b (hqueue ▸ hb) hbid.symm)

theorem step_effect (h : w.Inv) (op : Op) : Effect w (w.step op) := by
  cases op with
  | enqueue key database stores mode => exact w.enqueue_effect key database stores mode
  | claimStart key id => exact w.claimStart_effect key id
  | finish key id | dropLease key id => exact release_effect h key id _
  | cancelConnection database => exact cancelConnections_effect h _
  | cancelDatabase origin name => exact w.cancelDatabase_effect origin name
  | resume call => exact w.resume_effect call

/-! ## The invariant is kept -/

variable {w w' : World}

theorem Inv.admitted (h : w.Inv) (hnext : w'.nextId = w.nextId + 1) (hid : e.id = w.nextId + 1)
    (hqueue : ∀ k, w'.queue k = if k = key then w.queue key ++ [e] else w.queue k)
    (hstatus : w'.status = w.status.set e.id
      (if blockedBy (w.queue key) e.scope then .pending else .ready))
    (hcalls : w'.calls = w.calls) (hstarted : w'.started = w.started) : w'.Inv := by
  have hmem : ∀ k, ∀ o ∈ w'.queue k, o ∈ w.queue k ∨ o = e ∧ k = key := by
    intro k o ho
    rw [hqueue] at ho
    split at ho
    · next hk =>
      rw [mem_append, mem_singleton] at ho
      exact ho.imp (fun h => hk ▸ h) fun h => ⟨h, hk⟩
    · exact .inl ho
  have hold : ∀ i, i ≤ w.nextId → w'.status i = w.status i := fun i hi => by
    rw [hstatus]
    exact Function.update_of_ne (by omega) _ _
  have hsettled : ∀ k, Settled w'.status [] (w.queue k) :=
    fun k => (h.settled k).congr fun o ho => hold _ (h.ids_le k o ho)
  constructor
  case ids_le =>
    intro k o ho
    rcases hmem k o ho with ho | ⟨rfl, -⟩
    · exact hnext ▸ Nat.le_succ_of_le (h.ids_le k o ho)
    · omega
  case sorted =>
    intro k
    rw [hqueue]
    split
    · refine pairwise_append.2 ⟨h.sorted key, pairwise_singleton _ _, fun o ho b hb => ?_⟩
      rw [mem_singleton.1 hb, hid]
      exact Nat.lt_succ_of_le (h.ids_le key o ho)
    · exact h.sorted k
  case disjoint =>
    intro k k' a ha b hb hab
    rcases hmem k a ha with ha | ⟨rfl, rfl⟩ <;> rcases hmem k' b hb with hb | ⟨rfl, rfl⟩
    · exact h.disjoint k k' a ha b hb hab
    · have := h.ids_le k a ha
      omega
    · have := h.ids_le k' b hb
      omega
    · rfl
  case settled =>
    intro k
    rw [hqueue]
    split
    · refine settled_append.2 ⟨hsettled key, ?_, trivial⟩
      rw [hstatus]
      simp only [StatusCells.set, nil_append]
      cases blockedBy (w.queue key) e.scope <;> simp
    · exact hsettled k
  case fresh =>
    intro i hi
    rw [hstatus]
    exact (Function.update_of_ne (by omega) _ _).trans (h.fresh i (by omega))
  case canceling =>
    intro c hc i hi
    obtain ⟨hle, hout⟩ := h.canceling c (hcalls ▸ hc) i hi
    refine ⟨by omega, fun k o ho => ?_⟩
    rcases hmem k o ho with ho | ⟨rfl, -⟩
    · exact hout k o ho
    · omega
  case started_past =>
    intro x hx
    rw [hstarted] at hx
    obtain ⟨hle, hpast⟩ := h.started_past x hx
    rw [hold _ hle]
    exact ⟨by omega, hpast⟩
  case started_first =>
    intro x hx o ho hlt
    rw [hstarted] at hx
    rcases hmem _ o ho with ho | ⟨rfl, -⟩
    · exact h.started_first x hx o ho hlt
    · have := (h.started_past x hx).1
      omega
  case started_ordered => exact hstarted ▸ h.started_ordered

theorem settled_start {cells : StatusCells} {i : Nat} (hready : cells i = some .ready)
    {queue : List QueuedRequest} (h : Settled cells older queue) :
    Settled (cells.set i .started) older queue := by
  induction queue generalizing older with
  | nil => trivial
  | cons e rest ih =>
    refine ⟨?_, ih h.2⟩
    by_cases hi : e.id = i
    · have hentry := h.1
      rw [hi, hready] at hentry
      simp only [hi, StatusCells.set]
      simpa using hentry
    · simp only [StatusCells.set_of_ne hi]
      exact h.1

/-- A queue lists the requests in the order of their ids. -/
theorem Inv.mem_older (h : w.Inv) {o : QueuedRequest} (hqueue : w.queue key = older ++ e :: newer)
    (ho : o ∈ w.queue key) (hlt : o.id < e.id) : o ∈ older := by
  have hsorted := h.sorted key
  rw [hqueue] at hsorted ho
  rcases mem_append.1 ho with ho | ho
  · exact ho
  · rcases mem_cons.1 ho with rfl | ho
    · exact absurd hlt (lt_irrefl _)
    · exact absurd hlt
        (lt_asymm ((pairwise_cons.1 (pairwise_append.1 hsorted).2.1).1 o ho))

/-- A request that is ready or started has no older conflicting request in its queue. -/
theorem Inv.unblocked (h : w.Inv) (hqueue : w.queue key = older ++ e :: newer)
    (hstatus : w.status e.id ≠ some .pending) : blockedBy older e.scope = false := by
  have hsettled := h.settled key
  rw [hqueue] at hsettled
  rcases hsettled.entry with hentry | hentry
  · exact absurd hentry.1 hstatus
  · exact hentry.2

theorem Inv.start (h : w.Inv) (hqueue : w.queue key = older ++ e :: newer)
    (hready : w.status e.id = some .ready) :
    Inv { w with status := w.status.set e.id .started, started := w.started ++ [(key, e)] } := by
  have hmem : e ∈ w.queue key := by simp [hqueue]
  have hunblocked := h.unblocked hqueue (by simp [hready])
  constructor
  case ids_le => exact h.ids_le
  case sorted => exact h.sorted
  case disjoint => exact h.disjoint
  case settled => exact fun k => settled_start hready (h.settled k)
  case fresh =>
    intro i hi
    have := h.ids_le key e hmem
    exact (Function.update_of_ne (by simp only at hi; omega) _ _).trans (h.fresh i hi)
  case canceling => exact h.canceling
  case started_past =>
    intro x hx
    simp only [StatusCells.set]
    rcases mem_append.1 hx with hx | hx
    · obtain ⟨hle, hpast⟩ := h.started_past x hx
      have hne : x.2.id ≠ e.id := fun heq => hpast.2 (heq ▸ hready)
      rw [Function.update_of_ne hne]
      exact ⟨hle, hpast⟩
    · rw [mem_singleton.1 hx]
      exact ⟨h.ids_le key e hmem, by simp, by simp⟩
  case started_first =>
    intro x hx
    rcases mem_append.1 hx with hx | hx
    · exact h.started_first x hx
    · rw [mem_singleton.1 hx]
      exact fun o ho hlt => blockedBy_eq_false.1 hunblocked o (h.mem_older hqueue ho hlt)
  case started_ordered =>
    refine pairwise_append.2 ⟨h.started_ordered, pairwise_singleton _ _, ?_⟩
    intro x hx y hy hkey hconflict
    rw [mem_singleton.1 hy] at hkey hconflict ⊢
    rcases Nat.lt_trichotomy x.2.id e.id with hlt | heq | hgt
    · exact hlt
    · exact absurd (heq ▸ hready) (h.started_past x hx).2.2
    · rw [h.started_first x hx e (hkey ▸ hmem) hgt] at hconflict
      cases hconflict

theorem past_of_wakes {before after : StatusCells} {wakes : List Nat}
    (hwakes : Wakes before after wakes) {i : Nat}
    (h : before i ≠ some .pending ∧ before i ≠ some .ready) :
    after i ≠ some .pending ∧ after i ≠ some .ready := by
  by_cases hsame : after i = before i
  · rwa [hsame]
  · have htrans := hwakes.changed i hsame
    revert htrans h
    cases before i with
    | none => simp [wakeTransition]
    | some s =>
      cases after i with
      | none => cases s <;> simp [wakeTransition]
      | some s' => cases s <;> cases s' <;> simp [wakeTransition]

theorem Inv.shrink (h : w.Inv) {mid : StatusCells} {wakes : List Nat}
    (hmid : mid = w.status ∨ ∃ e : QueuedRequest, mid = w.status.set e.id .finished)
    (hwakes : Wakes mid w'.status wakes)
    (hframe : ∀ id, (∀ k, ∀ e ∈ w.queue k, e.id ≠ id) → w'.status id = w.status id)
    (hnext : w'.nextId = w.nextId) (hsub : ∀ k, (w'.queue k).Sublist (w.queue k))
    (hsettled : ∀ k, Settled w'.status [] (w'.queue k))
    (hcalls : ∀ c ∈ w'.calls, c ∈ w.calls ∨
      ∀ id ∈ c.cancels, id ≤ w.nextId ∧ ∀ key, ∀ e ∈ w'.queue key, e.id ≠ id)
    (hstarted : w'.started = w.started) : w'.Inv := by
  constructor
  case ids_le => exact fun k e he => hnext ▸ h.ids_le k e ((hsub k).subset he)
  case sorted => exact fun k => (h.sorted k).sublist (hsub k)
  case disjoint =>
    exact fun k k' a ha b hb => h.disjoint k k' a ((hsub k).subset ha) b ((hsub k').subset hb)
  case settled => exact hsettled
  case fresh =>
    intro i hi
    rw [hframe i, h.fresh i (hnext ▸ hi)]
    intro k e he hei
    have := h.ids_le k e he
    omega
  case canceling =>
    intro c hc i hi
    rcases hcalls c hc with hc | hnew
    · obtain ⟨hle, hout⟩ := h.canceling c hc i hi
      exact ⟨hnext ▸ hle, fun k e he => hout k e ((hsub k).subset he)⟩
    · exact hnext ▸ hnew i hi
  case started_past =>
    intro x hx
    rw [hstarted] at hx
    obtain ⟨hle, hpast⟩ := h.started_past x hx
    refine ⟨hnext ▸ hle, past_of_wakes hwakes ?_⟩
    rcases hmid with rfl | ⟨e, rfl⟩
    · exact hpast
    · by_cases hi : x.2.id = e.id
      · simp [StatusCells.set, hi]
      · rwa [StatusCells.set_of_ne hi]
  case started_first =>
    intro x hx o ho
    exact h.started_first x (hstarted ▸ hx) o ((hsub _).subset ho)
  case started_ordered => exact hstarted ▸ h.started_ordered

theorem Inv.detach (h : w.Inv) (hnext : w'.nextId = w.nextId)
    (hqueue : ∀ k, w'.queue k = if k = key then [] else w.queue k) (hstatus : w'.status = w.status)
    (hcalls : w'.calls = w.calls ++ [⟨(w.queue key).map QueuedRequest.id,
      (w.queue key).map QueuedRequest.id⟩])
    (hstarted : w'.started = w.started) : w'.Inv := by
  have hsub : ∀ k, (w'.queue k).Sublist (w.queue k) := by
    intro k
    rw [hqueue]
    split
    · exact nil_sublist _
    · exact .refl _
  refine h.shrink (.inl hstatus) (Wakes.refl w'.status) (fun _ _ => by rw [hstatus]) hnext hsub
    (fun k => ?_) (fun c hc => ?_) hstarted
  · rw [hqueue, hstatus]
    split
    · trivial
    · exact h.settled k
  · rw [hcalls, mem_append, mem_singleton] at hc
    refine hc.imp_right ?_
    rintro rfl i hi
    obtain ⟨a, ha, rfl⟩ := mem_map.1 hi
    refine ⟨h.ids_le key a ha, fun k b hb hba => ?_⟩
    have hk := h.disjoint k key b ((hsub k).subset hb) a ha hba
    rw [hqueue, if_pos hk] at hb
    cases hb

theorem Inv.resume (h : w.Inv) {cells : StatusCells} {call : Nat} {c c' : Callbacks}
    {woken : List Nat} (hcall : w.calls[call]? = some c) (hsub : c'.cancels ⊆ c.cancels)
    (hcells : ∀ i, cells i = w.status i ∨ i ∈ c.cancels ∧ cells i = some .canceled) :
    Inv { w with status := cells, woken := woken, calls := w.calls.set call c' } := by
  have hmem : c ∈ w.calls := mem_of_getElem? hcall
  constructor
  case ids_le => exact h.ids_le
  case sorted => exact h.sorted
  case disjoint => exact h.disjoint
  case settled =>
    intro k
    refine (h.settled k).congr fun e he => ?_
    rcases hcells e.id with hsame | ⟨hi, -⟩
    · exact hsame
    · exact absurd rfl ((h.canceling c hmem _ hi).2 k e he)
  case fresh =>
    intro i hi
    rcases hcells i with hsame | ⟨hi', -⟩
    · exact hsame.trans (h.fresh i hi)
    · have := (h.canceling c hmem i hi').1
      simp only at hi
      omega
  case canceling =>
    intro d hd i hi
    rcases mem_or_eq_of_mem_set hd with hd | rfl
    · exact h.canceling d hd i hi
    · exact h.canceling c hmem i (hsub hi)
  case started_past =>
    intro x hx
    obtain ⟨hle, hpast⟩ := h.started_past x hx
    refine ⟨hle, ?_⟩
    rcases hcells x.2.id with hsame | ⟨-, hcanceled⟩
    · simpa only [hsame] using hpast
    · simp [hcanceled]
  case started_first => exact h.started_first
  case started_ordered => exact h.started_ordered

theorem Inv.effect (h : w.Inv) (heffect : Effect w w') : w'.Inv := by
  cases heffect with
  | unchanged heq => exact heq ▸ h
  | admitted key e hnext hid hqueue hstatus hcalls _ hstarted =>
    exact h.admitted hnext hid hqueue hstatus hcalls hstarted
  | started key older newer e hqueue hready heq => exact heq ▸ h.start hqueue hready
  | shrunk mid wakes hmid hwakes hframe hnext hsub hsettled hcalls _ hstarted =>
    refine h.shrink (hmid.imp_right ?_) hwakes hframe hnext hsub hsettled (fun c hc => ?_) hstarted
    · rintro ⟨-, e, -, -, rfl, -⟩
      exact ⟨e, rfl⟩
    · rw [hcalls, mem_append, mem_singleton] at hc
      exact hc.imp_right (by rintro rfl i hi; cases hi)
  | detached key hnext hqueue hstatus hcalls _ hstarted =>
    exact h.detach hnext hqueue hstatus hcalls hstarted
  | canceled call id cancels wakes hcall heq =>
    subst heq
    refine h.resume hcall (subset_cons_self id cancels) fun i => ?_
    by_cases hi : i = id
    · exact .inr ⟨hi ▸ mem_cons_self, hi ▸ Function.update_self _ _ _⟩
    · exact .inl (Function.update_of_ne hi _ _)
  | woke call id wakes hcall heq =>
    subst heq
    exact h.resume hcall (fun _ hi => hi) fun i => .inl rfl

/-! ## What the invariant says about admission -/

theorem Inv.pending_iff (h : w.Inv) (hqueue : w.queue key = older ++ e :: newer) :
    (w.status e.id = some .pending ↔ ∃ o ∈ older, e.scope.conflictsWith o.scope = true) ∧
      ((¬∃ o ∈ older, e.scope.conflictsWith o.scope = true) →
        w.status e.id = some .ready ∨ w.status e.id = some .started) := by
  have hsettled := h.settled key
  rw [hqueue] at hsettled
  rw [← blockedBy_eq_true]
  rcases hsettled.entry with ⟨hpending, hblocked⟩ | ⟨hstatus, hblocked⟩
  · exact ⟨iff_of_true hpending hblocked, fun hnot => absurd hblocked hnot⟩
  · refine ⟨iff_of_false ?_ (by simp [hblocked]), fun _ => hstatus⟩
    rcases hstatus with hstatus | hstatus <;> simp [hstatus]

theorem Inv.compatible_of_lt (h : w.Inv) {a b : QueuedRequest} (ha : a ∈ w.queue key)
    (hb : b ∈ w.queue key) (hlt : a.id < b.id) (hstarted : w.status b.id = some .started) :
    a.scope.conflictsWith b.scope = false := by
  obtain ⟨older, newer, hqueue⟩ := append_of_mem hb
  have hunblocked := h.unblocked hqueue (by simp [hstarted])
  rw [TransactionScope.conflictsWith_comm]
  exact blockedBy_eq_false.1 hunblocked a (h.mem_older hqueue ha hlt)

/-- Started requests of one database are compatible. -/
theorem Inv.compatible (h : w.Inv) {a b : QueuedRequest} (ha : a ∈ w.queue key)
    (hb : b ∈ w.queue key) (hne : a.id ≠ b.id) (hstarted : w.status a.id = some .started)
    (hstarted' : w.status b.id = some .started) : a.scope.conflictsWith b.scope = false := by
  rcases Nat.lt_or_gt_of_ne hne with hlt | hgt
  · exact h.compatible_of_lt ha hb hlt hstarted'
  · rw [TransactionScope.conflictsWith_comm]
    exact h.compatible_of_lt hb ha hgt hstarted

theorem Inv.claimStart (h : w.Inv) {id : Nat} (hclaim : (w.claimStart key id).1 = true) :
    ∃ older e newer, w.queue key = older ++ e :: newer ∧ e.id = id ∧
      ∀ o ∈ older, e.scope.conflictsWith o.scope = false := by
  rcases w.claimStart_cases key id with hfalse | ⟨older, e, newer, hqueue, hid, hready, -⟩
  · simp [hfalse] at hclaim
  · exact ⟨older, e, newer, hqueue, hid,
      blockedBy_eq_false.1 (h.unblocked hqueue (by simp [hready]))⟩

end World

open World in
theorem inv_run (ops : List Op) : (transactionQueues.run ops).Inv :=
  Lib.Machine.invariant Inv.init (fun _ op h => h.effect (step_effect h op)) ops

/-! ## Runs -/

/-- In every state of every run an entry is pending exactly if an older entry of its queue conflicts
with it, and otherwise ready or started. So no two started entries of a database conflict, a start
is granted only when no older conflicting entry is queued, and conflicting transactions of a
database start in the order in which they were enqueued. -/
theorem admission_serialisable (ops : List Op) :
    (∀ key older e newer, (transactionQueues.run ops).queue key = older ++ e :: newer →
      (∀ o ∈ older, o.id < e.id) ∧
      ((transactionQueues.run ops).status e.id = some .pending ↔
        ∃ o ∈ older, e.scope.conflictsWith o.scope = true) ∧
      ((¬∃ o ∈ older, e.scope.conflictsWith o.scope = true) →
        (transactionQueues.run ops).status e.id = some .ready ∨
        (transactionQueues.run ops).status e.id = some .started)) ∧
    (∀ key, ∀ a ∈ (transactionQueues.run ops).queue key,
      ∀ b ∈ (transactionQueues.run ops).queue key, a.id ≠ b.id →
      (transactionQueues.run ops).status a.id = some .started →
      (transactionQueues.run ops).status b.id = some .started →
      a.scope.conflictsWith b.scope = false ∧
      (a.scope.mode = .readOnly ∨ b.scope.mode = .readOnly) ∧
      (a.scope.mode ≠ .readOnly ∨ b.scope.mode ≠ .readOnly →
        Disjoint a.scope.stores b.scope.stores) ∧
      a.scope.mode ≠ .versionChange ∧ b.scope.mode ≠ .versionChange) ∧
    (∀ key id, ((transactionQueues.run ops).claimStart key id).1 = true →
      ∃ older e newer, (transactionQueues.run ops).queue key = older ++ e :: newer ∧ e.id = id ∧
        ∀ o ∈ older, e.scope.conflictsWith o.scope = false) ∧
    (transactionQueues.run ops).started.Pairwise (fun x y =>
      x.1 = y.1 → x.2.scope.conflictsWith y.2.scope = true → x.2.id < y.2.id) := by
  have h := inv_run ops
  refine ⟨fun key older e newer hqueue => ⟨fun o ho => ?_, h.pending_iff hqueue⟩,
    fun key a ha b hb hne hsa hsb => ?_, fun key id => h.claimStart, h.started_ordered⟩
  · have hsorted := h.sorted key
    rw [hqueue] at hsorted
    exact (pairwise_append.1 hsorted).2.2 o ho e (by simp)
  · have hcompatible := h.compatible ha hb hne hsa hsb
    obtain ⟨hva, hvb, hwriters, hstores⟩ :=
      TransactionScope.conflictsWith_eq_false hcompatible
    exact ⟨hcompatible, hwriters, hstores, hva, hvb⟩

/-- A reader of another store starts beside a writer. -/
theorem admission_serialisable_reader :
    ∃ older e newer,
      (transactionQueues.run
        [.enqueue ("", "") ⟨1⟩ {⟨[97]⟩} .readWrite,
          .enqueue ("", "") ⟨2⟩ {⟨[98]⟩} .readOnly]).queue ("", "") = older ++ e :: newer ∧
      e.id = 2 ∧ ∀ o ∈ older, e.scope.conflictsWith o.scope = false := by
  obtain ⟨-, -, hstart, -⟩ := admission_serialisable
    [.enqueue ("", "") ⟨1⟩ {⟨[97]⟩} .readWrite, .enqueue ("", "") ⟨2⟩ {⟨[98]⟩} .readOnly]
  exact hstart ("", "") 2 (by decide)

end Moli.IndexedDb.TransactionQueue
