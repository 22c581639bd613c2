import Moli.IndexedDb.TransactionQueue

/-!
# What the scans do to one queue

A queue is `Settled` when each entry is pending exactly if an older entry conflicts with it, and
otherwise ready or started. Removing entries leaves it `Live`: an unblocked entry may still be
pending. `wakeNewlyReady` settles a live queue again. What a scan does to the status cells and which
callbacks it collects is described together by `Wakes`: one callback for each request that became
ready or canceled, and no other change.
-/

namespace Moli.IndexedDb.TransactionQueue

open List

/-! ## Conflicts -/

theorem TransactionScope.conflictsWith_comm (a b : TransactionScope) :
    a.conflictsWith b = b.conflictsWith a := by
  rw [Bool.eq_iff_iff]
  simp only [conflictsWith, Bool.or_eq_true, Bool.and_eq_true,
    Bool.not_eq_true', decide_eq_false_iff_not]
  tauto

/-- Transactions without a conflict: no version change, at most one writer, and no writer on a
store the other one uses. -/
theorem TransactionScope.conflictsWith_eq_false {a b : TransactionScope}
    (h : a.conflictsWith b = false) :
    a.mode ≠ .versionChange ∧ b.mode ≠ .versionChange ∧
      (a.mode = .readOnly ∨ b.mode = .readOnly) ∧
      (a.mode ≠ .readOnly ∨ b.mode ≠ .readOnly → Disjoint a.stores b.stores) := by
  simp only [conflictsWith, Bool.or_eq_false_iff, Bool.and_eq_false_iff, decide_eq_false_iff_not,
    Bool.not_eq_false', decide_eq_true_eq] at h
  tauto

theorem blockedBy_eq_true {older : List QueuedRequest} {scope : TransactionScope} :
    blockedBy older scope = true ↔ ∃ o ∈ older, scope.conflictsWith o.scope = true :=
  any_eq_true

theorem blockedBy_eq_false {older : List QueuedRequest} {scope : TransactionScope} :
    blockedBy older scope = false ↔ ∀ o ∈ older, scope.conflictsWith o.scope = false := by
  simp [blockedBy]

/-! ## Settled and live queues -/

/-- Every entry is pending if an older one blocks it, and ready or started otherwise. -/
def Settled (cells : StatusCells) : List QueuedRequest → List QueuedRequest → Prop
  | _, [] => True
  | older, entry :: rest =>
    (cells entry.id = some .pending ∧ blockedBy older entry.scope = true ∨
      (cells entry.id = some .ready ∨ cells entry.id = some .started) ∧
        blockedBy older entry.scope = false) ∧
    Settled cells (older ++ [entry]) rest

/-- An entry that is not pending is not blocked. -/
def Live (cells : StatusCells) : List QueuedRequest → List QueuedRequest → Prop
  | _, [] => True
  | older, entry :: rest =>
    (cells entry.id = some .pending ∨
      (cells entry.id = some .ready ∨ cells entry.id = some .started) ∧
        blockedBy older entry.scope = false) ∧
    Live cells (older ++ [entry]) rest

variable {cells cells' : StatusCells} {older queue : List QueuedRequest}

theorem Settled.live (h : Settled cells older queue) : Live cells older queue := by
  induction queue generalizing older with
  | nil => trivial
  | cons e rest ih => exact ⟨h.1.imp And.left id, ih h.2⟩

/-- Removing entries keeps a queue live. -/
theorem Live.sublist {older' queue' : List QueuedRequest} (hsub : queue'.Sublist queue)
    (holder : ∀ o ∈ older', o ∈ older) (h : Live cells older queue) : Live cells older' queue' := by
  induction hsub generalizing older older' with
  | slnil => trivial
  | cons e _ ih => exact ih (fun o ho => mem_append_left _ (holder o ho)) h.2
  | cons_cons e _ ih =>
    have hblocked : blockedBy older e.scope = false → blockedBy older' e.scope = false := by
      rw [blockedBy_eq_false, blockedBy_eq_false]
      exact fun hb o ho => hb o (holder o ho)
    refine ⟨h.1.imp_right fun hs => ⟨hs.1, hblocked hs.2⟩, ih ?_ h.2⟩
    intro o ho
    rw [mem_append] at ho ⊢
    exact ho.imp_left (holder o)

theorem Live.congr (hcells : ∀ e ∈ queue, cells' e.id = cells e.id) (h : Live cells older queue) :
    Live cells' older queue := by
  induction queue generalizing older with
  | nil => trivial
  | cons e rest ih =>
    rw [forall_mem_cons] at hcells
    exact ⟨hcells.1 ▸ h.1, ih hcells.2 h.2⟩

theorem Settled.congr (hcells : ∀ e ∈ queue, cells' e.id = cells e.id)
    (h : Settled cells older queue) : Settled cells' older queue := by
  induction queue generalizing older with
  | nil => trivial
  | cons e rest ih =>
    rw [forall_mem_cons] at hcells
    exact ⟨hcells.1 ▸ h.1, ih hcells.2 h.2⟩

theorem settled_append {front rest : List QueuedRequest} :
    Settled cells older (front ++ rest) ↔
      Settled cells older front ∧ Settled cells (older ++ front) rest := by
  induction front generalizing older with
  | nil => simp [Settled]
  | cons e front ih => simp [Settled, ih, and_assoc]

/-- What is said about an entry behind the entries `front`. -/
theorem Settled.entry {front rest : List QueuedRequest} {e : QueuedRequest}
    (h : Settled cells [] (front ++ e :: rest)) :
    cells e.id = some .pending ∧ blockedBy front e.scope = true ∨
      (cells e.id = some .ready ∨ cells e.id = some .started) ∧
        blockedBy front e.scope = false :=
  (settled_append.1 h).2.1

/-- The request is waiting or running. -/
def IsLive (status : Option TransactionRequestStatus) : Prop :=
  status = some .pending ∨ status = some .ready ∨ status = some .started

theorem Settled.isLive (h : Settled cells older queue) : ∀ e ∈ queue, IsLive (cells e.id) := by
  induction queue generalizing older with
  | nil => simp
  | cons e rest ih =>
    rw [forall_mem_cons]
    exact ⟨h.1.imp And.left And.left, ih h.2⟩

/-! ## Transitions that call back -/

/-- The transitions of a request that its callback reports. -/
def wakeTransition : Option TransactionRequestStatus → Option TransactionRequestStatus → Bool
  | some .pending, some .ready => true
  | some .pending, some .canceled => true
  | some .ready, some .canceled => true
  | some .started, some .canceled => true
  | _, _ => false

@[simp] theorem wakeTransition_self (status : Option TransactionRequestStatus) :
    wakeTransition status status = false := by
  cases status with
  | none => rfl
  | some s => cases s <;> rfl

theorem wakeTransition_canceled {status : Option TransactionRequestStatus} (h : IsLive status) :
    wakeTransition status (some .canceled) = true := by
  rcases h with rfl | rfl | rfl <;> rfl

/-- The cells changed only by reported transitions, and `wakes` has one callback for each. -/
structure Wakes (before after : StatusCells) (wakes : List Nat) : Prop where
  count_eq : ∀ id, wakes.count id = if wakeTransition (before id) (after id) then 1 else 0
  changed : ∀ id, after id ≠ before id → wakeTransition (before id) (after id) = true

theorem StatusCells.set_of_ne {id i : Nat} {status : TransactionRequestStatus} (h : i ≠ id) :
    cells.set id status i = cells i :=
  Function.update_of_ne h _ _

namespace Wakes

theorem refl (cells : StatusCells) : Wakes cells cells [] :=
  ⟨fun id => by simp, fun id h => absurd rfl h⟩

/-- Changes to different requests add up. -/
theorem trans {a b c : StatusCells} {xs ys : List Nat} (hab : Wakes a b xs) (hbc : Wakes b c ys)
    (hdisj : ∀ id, b id = a id ∨ c id = b id) : Wakes a c (xs ++ ys) := by
  refine ⟨fun id => ?_, fun id hne => ?_⟩
  · rw [count_append, hab.count_eq, hbc.count_eq]
    rcases hdisj id with h | h <;> simp [h]
  · rcases hdisj id with h | h
    · rw [← h] at hne ⊢
      exact hbc.changed id hne
    · rw [h] at hne ⊢
      exact hab.changed id hne

/-- A request changes, and then others do. -/
theorem cons {id : Nat} {status : TransactionRequestStatus} {new : List Nat}
    (h : wakeTransition (cells id) (some status) = true)
    (hwakes : Wakes (cells.set id status) cells' new)
    (hframe : cells' id = cells.set id status id) :
    Wakes cells cells' (id :: new) := by
  have hid : cells' id = some status := hframe.trans (Function.update_self _ _ _)
  refine ⟨fun i => ?_, fun i hne => ?_⟩
  · by_cases hi : i = id
    · rw [hi, count_cons_self, hwakes.count_eq, hframe, wakeTransition_self, ← hframe, hid, h]
      rfl
    · rw [count_cons_of_ne (Ne.symm hi), hwakes.count_eq, StatusCells.set_of_ne hi]
  · by_cases hi : i = id
    · rw [hi, hid, h]
    · have hchanged := hwakes.changed i
      rw [StatusCells.set_of_ne hi] at hchanged
      exact hchanged hne

end Wakes

/-! ## The scans -/

/-- The scan settles a live queue and touches only its entries. -/
theorem wakeNewlyReady_spec (hlive : Live cells older queue)
    (hnodup : (queue.map QueuedRequest.id).Nodup) (wakes : List Nat) :
    ∃ cells' new, wakeNewlyReady older queue cells wakes = (cells', wakes ++ new) ∧
      Settled cells' older queue ∧ Wakes cells cells' new ∧
      ∀ id ∉ queue.map QueuedRequest.id, cells' id = cells id := by
  induction queue generalizing older cells wakes with
  | nil => exact ⟨cells, [], by simp [wakeNewlyReady], trivial, .refl cells, fun _ _ => rfl⟩
  | cons e rest ih =>
    obtain ⟨hentry, hrest⟩ := hlive
    rw [map_cons, nodup_cons] at hnodup
    obtain ⟨hfresh, hnodup⟩ := hnodup
    rw [wakeNewlyReady]
    split
    · next hcond =>
      have hrest' : Live (cells.set e.id .ready) (older ++ [e]) rest :=
        hrest.congr fun o ho => StatusCells.set_of_ne fun h => hfresh (h ▸ mem_map_of_mem ho)
      obtain ⟨cells', new, heq, hsettled, hwakes, hframe⟩ := ih hrest' hnodup (wakes ++ [e.id])
      have hready : cells' e.id = some .ready := by
        rw [hframe _ hfresh]
        exact Function.update_self _ _ _
      refine ⟨cells', e.id :: new, ?_, ⟨.inr ⟨.inl hready, hcond.2⟩, hsettled⟩,
        .cons (by rw [hcond.1]; rfl) hwakes (hframe _ hfresh), fun i hi => ?_⟩
      · rw [heq, append_assoc, singleton_append]
      · rw [map_cons, mem_cons, not_or] at hi
        rw [hframe i hi.2, StatusCells.set_of_ne hi.1]
    · next hcond =>
      obtain ⟨cells', new, heq, hsettled, hwakes, hframe⟩ := ih hrest hnodup wakes
      have hsame := hframe _ hfresh
      refine ⟨cells', new, heq, ⟨?_, hsettled⟩, hwakes, fun i hi => ?_⟩
      · rw [hsame]
        refine hentry.imp_left fun hpending => ⟨hpending, ?_⟩
        simpa [hpending] using hcond
      · rw [map_cons, mem_cons, not_or] at hi
        exact hframe i hi.2

/-- Removing a finished entry settles what is left of its queue. -/
theorem finishEntry_spec {newer : List QueuedRequest} {e : QueuedRequest}
    (hsettled : Settled cells [] (older ++ e :: newer))
    (hnodup : ((older ++ e :: newer).map QueuedRequest.id).Nodup) :
    ∃ cells' new,
      wakeNewlyReady [] (older ++ newer) (cells.set e.id .finished) [] = (cells', new) ∧
      Settled cells' [] (older ++ newer) ∧ Wakes (cells.set e.id .finished) cells' new ∧
      e.id ∉ (older ++ newer).map QueuedRequest.id ∧
      ∀ id ∉ (older ++ e :: newer).map QueuedRequest.id, cells' id = cells id := by
  have hsub : (older ++ newer).Sublist (older ++ e :: newer) :=
    (List.Sublist.refl older).append (sublist_cons_self e newer)
  rw [map_append, map_cons, nodup_middle, nodup_cons, ← map_append] at hnodup
  obtain ⟨hfresh, hnodup⟩ := hnodup
  have hlive : Live (cells.set e.id .finished) [] (older ++ newer) :=
    (hsettled.live.sublist hsub fun _ ho => ho).congr fun o ho =>
      StatusCells.set_of_ne fun hoid => hfresh (hoid ▸ mem_map_of_mem ho)
  obtain ⟨cells', new, heq, hsettled', hwakes, hframe⟩ := wakeNewlyReady_spec hlive hnodup []
  refine ⟨cells', new, heq, hsettled', hwakes, hfresh, fun i hi => ?_⟩
  rw [hframe i fun h => hi ((hsub.map _).subset h), StatusCells.set_of_ne]
  rintro rfl
  exact hi (mem_map_of_mem (by simp))

namespace World

variable (databases : List DatabaseHandle)

/-- The canceled requests are those of the databases. -/
theorem cancelEntries_spec (hlive : ∀ e ∈ queue, IsLive (cells e.id))
    (hnodup : (queue.map QueuedRequest.id).Nodup) (wakes : List Nat) :
    ∃ cells' new, cancelEntries databases queue cells wakes = (cells', wakes ++ new) ∧
      Wakes cells cells' new ∧
      ∀ id, (∀ e ∈ queue, e.database ∈ databases → e.id ≠ id) → cells' id = cells id := by
  induction queue generalizing cells wakes with
  | nil => exact ⟨cells, [], by simp [cancelEntries], .refl cells, fun _ _ => rfl⟩
  | cons e rest ih =>
    rw [forall_mem_cons] at hlive
    rw [map_cons, nodup_cons] at hnodup
    obtain ⟨hfresh, hnodup⟩ := hnodup
    rw [cancelEntries]
    split
    · next hcond =>
      have hne : ∀ o ∈ rest, o.id ≠ e.id := fun o ho h => hfresh (h ▸ mem_map_of_mem ho)
      have hlive' : ∀ o ∈ rest, IsLive ((cells.set e.id .canceled) o.id) := by
        intro o ho
        rw [StatusCells.set_of_ne (hne o ho)]
        exact hlive.2 o ho
      obtain ⟨cells', new, heq, hwakes, hframe⟩ := ih hlive' hnodup (wakes ++ [e.id])
      refine ⟨cells', e.id :: new, ?_, .cons (wakeTransition_canceled hlive.1) hwakes
        (hframe _ fun o ho _ => hne o ho), fun i hi => ?_⟩
      · rw [heq, append_assoc, singleton_append]
      · rw [forall_mem_cons] at hi
        rw [hframe i hi.2, StatusCells.set_of_ne (Ne.symm (hi.1 hcond))]
    · obtain ⟨cells', new, heq, hwakes, hframe⟩ := ih hlive.2 hnodup wakes
      exact ⟨cells', new, heq, hwakes, fun i hi => hframe i (forall_mem_cons.1 hi).2⟩

theorem retained_sublist (queue : List QueuedRequest) :
    (retained databases queue).Sublist queue := filter_sublist

theorem cancelQueue_spec (hsettled : Settled cells [] queue)
    (hnodup : (queue.map QueuedRequest.id).Nodup) (wakes : List Nat) :
    ∃ cells' new, cancelQueue databases (cells, wakes) queue = (cells', wakes ++ new) ∧
      Settled cells' [] (retained databases queue) ∧ Wakes cells cells' new ∧
      ∀ id ∉ queue.map QueuedRequest.id, cells' id = cells id := by
  obtain ⟨cells₁, new₁, heq₁, hwakes₁, hframe₁⟩ :=
    cancelEntries_spec databases hsettled.isLive hnodup wakes
  have hsub := retained_sublist databases queue
  have hinj := inj_on_of_nodup_map hnodup
  -- The entries that stay have kept their status.
  have hkept : ∀ e ∈ retained databases queue, cells₁ e.id = cells e.id := by
    intro e he
    refine hframe₁ _ fun o ho hdb h => ?_
    have hoe : o = e := hinj ho (hsub.subset he) h
    exact (of_decide_eq_true (mem_filter.1 he).2) (hoe ▸ hdb)
  have houter : ∀ id ∉ queue.map QueuedRequest.id, cells₁ id = cells id :=
    fun id hid => hframe₁ id fun e he _ h => hid (h ▸ mem_map_of_mem he)
  simp only [cancelQueue, heq₁]
  split
  · have hlive : Live cells₁ [] (retained databases queue) :=
      (hsettled.live.sublist hsub fun _ h => h).congr hkept
    obtain ⟨cells₂, new₂, heq₂, hsettled₂, hwakes₂, hframe₂⟩ :=
      wakeNewlyReady_spec hlive (hnodup.sublist (hsub.map _)) (wakes ++ new₁)
    refine ⟨cells₂, new₁ ++ new₂, by rw [heq₂, append_assoc], hsettled₂,
      hwakes₁.trans hwakes₂ fun id => ?_, fun id hid => ?_⟩
    · by_cases hid : id ∈ (retained databases queue).map QueuedRequest.id
      · obtain ⟨e, he, rfl⟩ := mem_map.1 hid
        exact .inl (hkept e he)
      · exact .inr (hframe₂ id hid)
    · rw [hframe₂ id fun h => hid ((hsub.map _).subset h), houter id hid]
  · next hlen =>
    have heq : retained databases queue = queue := hsub.eq_of_length (not_not.1 hlen).symm
    exact ⟨cells₁, new₁, rfl, by rw [heq] at hkept ⊢; exact hsettled.congr hkept, hwakes₁, houter⟩

/-- The loop over all queues settles each of them. -/
theorem foldl_cancelQueue_spec {entries : List (DatabaseKey × List QueuedRequest)}
    (hsettled : ∀ x ∈ entries, Settled cells [] x.2)
    (hnodup : ∀ x ∈ entries, (x.2.map QueuedRequest.id).Nodup)
    (hdisjoint : entries.Pairwise fun x y => ∀ a ∈ x.2, ∀ b ∈ y.2, a.id ≠ b.id)
    (wakes : List Nat) :
    ∃ cells' new,
      entries.foldl (fun effects entry => cancelQueue databases effects entry.2) (cells, wakes) =
        (cells', wakes ++ new) ∧
      (∀ x ∈ entries, Settled cells' [] (retained databases x.2)) ∧ Wakes cells cells' new ∧
      ∀ id, (∀ x ∈ entries, ∀ e ∈ x.2, e.id ≠ id) → cells' id = cells id := by
  induction entries generalizing cells wakes with
  | nil => exact ⟨cells, [], by simp, by simp, .refl cells, fun _ _ => rfl⟩
  | cons x entries ih =>
    rw [forall_mem_cons] at hsettled hnodup
    rw [pairwise_cons] at hdisjoint
    obtain ⟨cells₁, new₁, heq₁, hsettled₁, hwakes₁, hframe₁⟩ :=
      cancelQueue_spec databases hsettled.1 hnodup.1 wakes
    have hsame : ∀ y ∈ entries, ∀ e ∈ y.2, cells₁ e.id = cells e.id := by
      intro y hy e he
      refine hframe₁ _ fun hmem => ?_
      obtain ⟨a, ha, haid⟩ := mem_map.1 hmem
      exact hdisjoint.1 y hy a ha e he haid
    obtain ⟨cells₂, new₂, heq₂, hsettled₂, hwakes₂, hframe₂⟩ :=
      ih (fun y hy => (hsettled.2 y hy).congr (hsame y hy)) hnodup.2 hdisjoint.2 (wakes ++ new₁)
    have hfirst : ∀ e ∈ x.2, cells₂ e.id = cells₁ e.id :=
      fun e he => hframe₂ _ fun y hy b hb => (hdisjoint.1 y hy e he b hb).symm
    refine ⟨cells₂, new₁ ++ new₂, ?_, ?_, hwakes₁.trans hwakes₂ fun id => ?_, fun id hid => ?_⟩
    · rw [foldl_cons, heq₁, heq₂, append_assoc]
    · rw [forall_mem_cons]
      exact ⟨hsettled₁.congr fun e he => hfirst e ((retained_sublist databases x.2).subset he),
        hsettled₂⟩
    · by_cases hid : id ∈ x.2.map QueuedRequest.id
      · obtain ⟨e, he, rfl⟩ := mem_map.1 hid
        exact .inr (hfirst e he)
      · exact .inl (hframe₁ id hid)
    · rw [forall_mem_cons] at hid
      rw [hframe₂ id hid.2, hframe₁ id]
      rintro hmem
      obtain ⟨e, he, heid⟩ := mem_map.1 hmem
      exact hid.1 e he heid

end World

end Moli.IndexedDb.TransactionQueue
