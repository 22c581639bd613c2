import Moli.Cookies.Database
import Moli.Writeback.Verify.Runs

/-!
# Batches of the cookie database

Writing a merged batch is writing its parts one after the other, so what the write-back owner
promises holds of the cookie database (`database_run`).
-/

namespace Moli.Cookies.Database

open Lib Writeback

namespace Change

/-- The row that a change leaves. -/
def row : Change → Option StoredCookie
  | put cookie => some cookie
  | delete => none

end Change

namespace Batch

theorem applyChange_eq (rows : Rows) (key : Key) (change : Change) :
    applyChange rows key change = Function.update rows key change.row := by
  cases change <;> rfl

/-- A batch decides the rows it has a change for, and the others by whether it clears. -/
theorem apply_eq (batch : Batch) (rows : Rows) (key : Key) :
    batch.apply rows key =
      match batch.changes.lookup key with
      | some change => change.row
      | none => if batch.clear then none else rows key := by
  have hput : ∀ (rows : Rows) (key : Key) (change : Change) (key' : Key),
      applyChange rows key change key' = if key' = key then change.row else rows key' := by
    intro rows key change key'
    rw [applyChange_eq, Function.update_apply]
  refine (read_foldl_entries (r := fun (rows : Rows) key => rows key)
    (f := fun change _ => change.row) hput batch.changes _ key).trans ?_
  cases batch.changes.lookup key with
  | some change => rfl
  | none => by_cases hclear : batch.clear = true <;> simp [hclear]

theorem lookup_merge (older newer : Batch) (key : Key) (h : newer.clear = false) :
    (merge older newer).changes.lookup key =
      (newer.changes.lookup key).or (older.changes.lookup key) := by
  rw [merge, h]
  exact lookup_extend ..

theorem clear_merge (older newer : Batch) :
    (merge older newer).clear = (newer.clear || older.clear) := by
  unfold merge
  by_cases hclear : newer.clear = true <;> simp [hclear]

theorem write_merge (older newer : Batch) (rows : Rows) :
    (merge older newer).apply rows = newer.apply (older.apply rows) := by
  funext key
  cases hclear : newer.clear with
  | true =>
    have hmerge : merge older newer = newer := if_pos hclear
    rw [hmerge, apply_eq, apply_eq, hclear]
    rfl
  | false =>
    rw [apply_eq, lookup_merge older newer key hclear, clear_merge, apply_eq newer,
      apply_eq older, hclear]
    cases newer.changes.lookup key <;> cases older.changes.lookup key <;> rfl

theorem isEmpty_iff {batch : Batch} :
    isEmpty batch = true ↔ batch.clear = false ∧ ∀ key, batch.changes.lookup key = none := by
  rw [isEmpty, Bool.and_eq_true, Bool.not_eq_true']
  refine and_congr_right fun _ => ⟨lookup_of_isEmpty, fun hnone => ?_⟩
  refine List.isEmpty_iff.2 (List.eq_nil_iff_forall_not_mem.2 fun entry hentry => ?_)
  have hlookup := AList.mem_lookup_iff.2 hentry
  rw [hnone entry.1] at hlookup
  cases hlookup

theorem isEmpty_merge (older newer : Batch) (h : isEmpty newer = false) :
    isEmpty (merge older newer) = false := by
  rw [← Bool.not_eq_true, isEmpty_iff] at h ⊢
  rintro ⟨hclear, hnone⟩
  rw [clear_merge, Bool.or_eq_false_iff] at hclear
  refine h ⟨hclear.1, fun key => ?_⟩
  have hkey := hnone key
  rw [lookup_merge older newer key hclear.1, Option.or_eq_none_iff] at hkey
  exact hkey.1

instance instLawfulWriteBatch : LawfulWriteBatch Batch Rows where
  isEmpty_empty := rfl
  write_empty _ := rfl
  isEmpty_merge := isEmpty_merge
  write_merge := write_merge

end Batch

/-- A merged batch of cookie changes acts as its parts do in turn. For every type of batches with
such a law and every run of its owner: the attempted groups are a cut of the accepted batches, each
was merged and attempted once in order, and the database is what the successful ones leave; the
promises of the log hold; and every request that was sent is answered once, by the end of the loop
at the latest. -/
theorem database_run :
    (∀ (older newer : Batch) (rows : Rows),
      (Batch.merge older newer).apply rows = newer.apply (older.apply rows)) ∧
    ∀ {β σ ρ : Type} [WriteBatch β σ] [LawfulWriteBatch β σ] {policy : WritebackPolicy} {disk₀ : σ}
      {s : System β σ ρ}, Relation.ReflTransGen (Step policy) (System.start disk₀) s →
      ((attemptedGroups s.log).flatten <+: acceptedOf s.log ∧
        (∀ group ∈ attemptedGroups s.log, group ≠ []) ∧
        (attemptsOf s.log).map (·.1) = (attemptedGroups s.log).map mergeAll ∧
        s.disk = writeAll disk₀ (successful (attemptedGroups s.log) (attemptsOf s.log))) ∧
      Every Promise s.log ∧
      (sentOf s.log).Nodup ∧ repliesOf s.log <+: sentOf s.log ∧
      (s.loop = .ended → repliesOf s.log = sentOf s.log) ∧
      ∃ s', Relation.ReflTransGen (LoopStep policy) s s' ∧
        ∀ id ∈ sentOf s.log, id ∈ repliesOf s'.log := by
  refine ⟨Batch.write_merge, fun hrun => ?_⟩
  have h := System.inv_run hrun
  refine ⟨⟨attemptedGroups_isPrefix _, ?_, h.ledger.attempts_eq, h.disk_eq⟩, h.promises.every,
    h.sent_nodup, h.replies_prefix, fun hended => h.requests.replied_of_atRest (.inl hended),
    h.requests.exists_replies _⟩
  exact fun group hgroup => h.ledger.groups group (List.mem_of_mem_take hgroup)

namespace Sample

def policy : WritebackPolicy := ⟨5, none⟩

def cleared : Batch := .change .clear

/-- A batch was accepted and flushed. -/
def flushed : System Batch Rows Unit where
  pending := .start
  changed := true
  queue := []
  connection := .opened
  disk := fun _ => none
  loop := .starting
  owner := .idle
  finished := none
  now := 0
  next := 1
  log := [.accepted cleared, .sentFlush 0, .taken, .opened (.ok ()), .attempted cleared (.ok ()),
    .repliedFlush 0 (.ok ())]

theorem run_flushed : Relation.ReflTransGen (Step policy) (System.start fun _ => none) flushed := by
  refine .head (.client (.accept cleared rfl)) (.head (.client (.flush rfl rfl)) ?_)
  refine .head (.loop (.start rfl)) (.head (.loop (.recvFlush rfl rfl)) ?_)
  refine .head (.loop (.take rfl rfl)) (.head (.loop (.write rfl (.ok ()) (.ok ()))) ?_)
  refine .head (.loop (.wrote rfl)) (.head (.loop (.reply rfl)) ?_)
  exact .single (.loop (.answer rfl))

/-- The owner has closed admission before the batch was written. -/
def closed : System Batch Rows Unit where
  pending := ⟨cleared, 1, some 0, none, true⟩
  changed := true
  queue := []
  connection := .unopened
  disk := fun _ => none
  loop := .starting
  owner := .sending false
  finished := none
  now := 0
  next := 0
  log := [.accepted cleared, .sealed, .refusedFlush]

theorem run_closed : Relation.ReflTransGen (Step policy) (System.start fun _ => none) closed := by
  refine .head (.client (.accept cleared rfl)) (.head (.owner (.close rfl)) ?_)
  refine .head (.owner (.sealAdmission rfl)) ?_
  exact .single (.client (.refuseFlush (.inl rfl)))

end Sample

theorem database_run_flushed :
    (∀ group ∈ attemptedGroups Sample.flushed.log, group ≠ []) ∧ Every Promise Sample.flushed.log :=
  have h := database_run.2 Sample.run_flushed
  ⟨h.1.2.1, h.2.1⟩

/-- A flush on a closed store returns before the batch that was accepted before it has been
attempted, and it fails although nothing did. -/
theorem flush_refused_unattempted : ∃ (s : System Batch Rows Unit) (past : List (Event Batch Unit)),
    Relation.ReflTransGen (Step Sample.policy) (System.start fun _ => none) s ∧
      s.log = past ++ [.refusedFlush] ∧ ¬ acceptedOf past <+: (attemptedGroups past).flatten ∧
      failing past = false :=
  ⟨Sample.closed, [.accepted Sample.cleared, .sealed], Sample.run_closed, rfl,
    fun h => absurd h.length_le (by decide), rfl⟩

end Moli.Cookies.Database
