import Moli.BoundedBuffer.Buffer
import Moli.Lib.Assoc

/-!
# An exact byte budget

A buffer represents the list of its entries in insertion order (`Represents`): the order, the map
and the running total agree. Every method keeps this without leaving the range of its arithmetic,
and an insert evicts the shortest prefix of the list that makes room (`exact_budget`).
-/

namespace Moli.BoundedBuffer

open Lib List

variable {K V : Type}

abbrev Entry (K V : Type) := Sigma fun _ : K => BufferedValue V

def charge (l : List (Entry K V)) : Nat := (l.map (·.2.byteLen)).sum

structure Represents (limits : ByteLimits) (b : BoundedByteBuffer K V) (l : List (Entry K V)) :
    Prop where
  limits_eq : b.limits = limits
  order : b.insertionOrder = l.keys
  perm : b.entries.entries.Perm l
  used : b.usedBytes = charge l
  le : b.usedBytes ≤ limits.maxTotalBytes

variable {limits : ByteLimits} {b : BoundedByteBuffer K V} {l : List (Entry K V)}
variable {key : K} {entry : BufferedValue V}

namespace Represents

variable (h : Represents limits b l)
include h

theorem nodupKeys : l.NodupKeys := (perm_nodupKeys h.perm).1 b.entries.nodupKeys

variable [DecidableEq K]

theorem lookup_iff : b.entries.lookup key = some entry ↔ ⟨key, entry⟩ ∈ l :=
  mem_entries_iff.symm.trans h.perm.mem_iff

theorem split (hentry : b.entries.lookup key = some entry) : ∃ before after,
    key ∉ before.keys ∧ l = before ++ ⟨key, entry⟩ :: after ∧ l.kerase key = before ++ after := by
  have hmem := h.lookup_iff.1 hentry
  obtain ⟨other, before, after, hbefore, hl, hrest⟩ :=
    exists_of_kerase (mem_keys_of_mem hmem)
  obtain rfl : other = entry := h.nodupKeys.eq_of_mk_mem (hl ▸ by simp) hmem
  exact ⟨before, after, hbefore, hl, hrest⟩

/-- Taking an entry out. -/
theorem erase (hentry : b.entries.lookup key = some entry) :
    checkedSub b.usedBytes entry.byteLen = some (b.usedBytes - entry.byteLen) ∧
      Represents limits { b with
        usedBytes := b.usedBytes - entry.byteLen
        insertionOrder := (l.kerase key).keys
        entries := b.entries.erase key } (l.kerase key) := by
  obtain ⟨before, after, -, hl, hrest⟩ := h.split hentry
  have hsum : b.usedBytes = entry.byteLen + charge (l.kerase key) := by
    rw [h.used, hrest, hl]
    simp [charge, Nat.add_left_comm]
  refine ⟨checkedSub_of_le (by omega), h.limits_eq, rfl, h.perm.kerase b.entries.nodupKeys, ?_, ?_⟩
  · exact Nat.sub_eq_of_eq_add' hsum
  · exact (Nat.sub_le ..).trans h.le

theorem remove (key : K) :
    ∃ value b', b.remove key = some (value, b') ∧ Represents limits b' (l.kerase key) := by
  unfold BoundedByteBuffer.remove
  cases hentry : b.entries.lookup key with
  | none =>
    have habsent : key ∉ l.keys := fun hmem =>
      AList.lookup_eq_none.1 hentry ((h.perm.map _).mem_iff.2 hmem)
    rw [kerase_of_notMem_keys habsent]
    exact ⟨none, b, rfl, h⟩
  | some entry =>
    obtain ⟨hsub, herase⟩ := h.erase hentry
    have horder : b.insertionOrder.filter (· != key) = (l.kerase key).keys := by
      rw [h.order, keys_kerase, List.Nodup.erase_eq_filter h.nodupKeys]
    simp only [hsub, horder]
    exact ⟨_, _, rfl, herase⟩

theorem getMut (key : K) (change : V → V) :
    ∃ l', Represents limits (b.getMut key change) l' ∧ l'.keys = l.keys := by
  unfold BoundedByteBuffer.getMut
  cases hentry : b.entries.lookup key with
  | none => exact ⟨l, h, rfl⟩
  | some entry =>
    obtain ⟨before, after, hbefore, hl, -⟩ := h.split hentry
    have hperm := h.perm.kreplace (a := key) (b := { entry with value := change entry.value })
      b.entries.nodupKeys
    refine ⟨_, ⟨h.limits_eq, h.order.trans (keys_kreplace ..).symm, hperm, ?_, h.le⟩,
      keys_kreplace ..⟩
    rw [h.used, hl, kreplace_append hbefore]
    simp [charge]

/-- The oldest entry is taken out. -/
theorem popOldest {oldest : Entry K V} {rest : List (Entry K V)} (hl : l = oldest :: rest) :
    ∃ b', b.popOldest = some (some (oldest.1, oldest.2.value), b') ∧ Represents limits b' rest := by
  obtain ⟨key, entry⟩ := oldest
  subst hl
  have hentry : b.entries.lookup key = some entry := h.lookup_iff.2 mem_cons_self
  obtain ⟨hsub, herase⟩ := h.erase hentry
  have hrest : kerase key (⟨key, entry⟩ :: rest) = rest := kerase_cons_eq rfl
  rw [hrest] at herase
  rw [BoundedByteBuffer.popOldest, h.order, keys_cons, BoundedByteBuffer.popFrom, hentry]
  simp only [hsub]
  exact ⟨_, rfl, herase⟩

omit h in
/-- The loop evicts the shortest prefix that makes room. -/
theorem evictTo (room : Nat) {rounds : Nat} (h : Represents limits b l)
    (hrounds : l.length < rounds) (past : List (K × V)) : ∃ evicted kept b', l = evicted ++ kept ∧
      b.evictTo room rounds past =
        some (past ++ evicted.map fun e => (e.1, e.2.value), b') ∧
      Represents limits b' kept ∧ charge kept ≤ room ∧
      ∀ n < evicted.length, room < charge (l.drop n) := by
  induction rounds generalizing b l past with
  | zero => cases hrounds
  | succ rounds ih =>
    rw [BoundedByteBuffer.evictTo]
    split_ifs with hused
    · cases l with
      | nil =>
        rw [h.used] at hused
        cases hused
      | cons oldest rest =>
        obtain ⟨b', hpop, hrest⟩ := h.popOldest rfl
        obtain ⟨evicted, kept, b'', rfl, heq, hkept, hroom, hleast⟩ :=
          ih hrest (Nat.lt_of_succ_lt_succ hrounds) (past ++ [(oldest.1, oldest.2.value)])
        refine ⟨oldest :: evicted, kept, b'', rfl, ?_, hkept, hroom, fun n hn => ?_⟩
        · rw [hpop]
          simpa using heq
        · cases n with
          | zero => exact h.used ▸ hused
          | succ n => exact hleast n (Nat.lt_of_succ_lt_succ hn)
    · exact ⟨[], l, b, rfl, by simp, h, h.used ▸ Nat.not_lt.1 hused, fun n hn => by cases hn⟩

theorem push {value : V} {byteLen : Nat} (hkey : key ∉ l.keys)
    (hroom : charge l + byteLen ≤ limits.maxTotalBytes) :
    Represents limits { b with
      usedBytes := b.usedBytes + byteLen
      insertionOrder := b.insertionOrder ++ [key]
      entries := b.entries.insert key ⟨value, byteLen⟩ } (l ++ [⟨key, value, byteLen⟩]) := by
  have habsent : key ∉ b.entries := fun hmem => hkey ((h.perm.map _).mem_iff.1 hmem)
  refine ⟨h.limits_eq, ?_, ?_, ?_, ?_⟩
  · simp [h.order]
  · rw [AList.entries_insert_of_notMem habsent]
    exact (h.perm.cons _).trans (perm_append_singleton _ _).symm
  · simp [h.used, charge]
  · rw [h.used]
    exact hroom

end Represents

variable [DecidableEq K]

/-- What an insert does, once the previous entry of its key is gone. -/
inductive Inserted (limits : ByteLimits) (l : List (Entry K V)) (entry : Entry K V) :
    InsertOutcome K V → List (Entry K V) → Prop where
  | rejected (h : entry.2.byteLen > limits.maxEntryBytes ∨ entry.2.byteLen > limits.maxTotalBytes) :
      Inserted limits l entry (.rejected entry.1 entry.2.value) l
  | stored {evicted kept : List (Entry K V)} (hentry : entry.2.byteLen ≤ limits.maxEntryBytes)
      (hl : l = evicted ++ kept) (hroom : charge kept + entry.2.byteLen ≤ limits.maxTotalBytes)
      (hleast : ∀ n < evicted.length, limits.maxTotalBytes < charge (l.drop n) + entry.2.byteLen) :
      Inserted limits l entry (.stored (evicted.map fun e => (e.1, e.2.value))) (kept ++ [entry])

theorem Represents.insert (h : Represents limits b l) (key : K) (value : V) (byteLen : Nat) :
    ∃ outcome b' l', b.insert key value byteLen = some (outcome, b') ∧ Represents limits b' l' ∧
      Inserted limits (l.kerase key) ⟨key, value, byteLen⟩ outcome l' := by
  obtain ⟨removed, b₁, hremove, h₁⟩ := h.remove key
  have hkey : key ∉ (l.kerase key).keys := notMem_keys_kerase _ h.nodupKeys
  unfold BoundedByteBuffer.insert
  simp only [hremove, Option.bind_eq_bind, Option.bind_some, h₁.limits_eq]
  split_ifs with hlarge
  · exact ⟨_, b₁, _, rfl, h₁, .rejected hlarge⟩
  · rw [not_or, Nat.not_lt, Nat.not_lt] at hlarge
    obtain ⟨evicted, kept, b₂, hl, hevict, h₂, hroom, hleast⟩ :=
      h₁.evictTo (limits.maxTotalBytes - byteLen) (Nat.lt_succ_self _) []
    have hfits : charge kept + byteLen ≤ limits.maxTotalBytes := by omega
    have hadd : checkedAdd b₂.usedBytes byteLen = some (b₂.usedBytes + byteLen) := by
      rw [h₂.used]
      exact checkedAdd_of_lt (hfits.trans_lt limits.fits)
    have hlength : b₁.insertionOrder.length = (l.kerase key).length := by
      rw [h₁.order, List.keys, length_map]
    have hsub : kept.keys.Sublist (l.kerase key).keys := hl ▸ (sublist_append_right ..).map _
    rw [checkedSub_of_le hlarge.2, hlength]
    simp only [Option.bind_some, hevict, hadd]
    refine ⟨_, _, _, rfl, h₂.push (fun hmem => hkey (hsub.subset hmem)) hfits,
      .stored hlarge.1 hl hfits fun n hn => ?_⟩
    exact (Nat.sub_lt_iff_lt_add hlarge.2).1 (hleast n hn)

/-! ## Runs -/

/-- The keys stand in the order of their last inserts. -/
def Ordered (stored keys : List K) : Prop :=
  keys.Pairwise fun a b => stored.reverse.idxOf b < stored.reverse.idxOf a

theorem Ordered.concat {stored keys : List K} (h : Ordered stored keys) (hkey : key ∉ keys) :
    Ordered (stored ++ [key]) (keys ++ [key]) := by
  have hne : ∀ k ∈ keys, k ≠ key := fun k hk heq => hkey (heq ▸ hk)
  unfold Ordered
  rw [reverse_append, reverse_singleton, singleton_append, pairwise_append]
  refine ⟨?_, pairwise_singleton _ _, fun a ha b hb => ?_⟩
  · refine List.Pairwise.imp_of_mem (fun {a b} ha hb hab => ?_) h
    rw [idxOf_cons_ne _ (hne a ha).symm, idxOf_cons_ne _ (hne b hb).symm]
    exact Nat.succ_lt_succ hab
  · obtain rfl := mem_singleton.1 hb
    rw [idxOf_cons_self, idxOf_cons_ne _ (hne a ha).symm]
    exact Nat.succ_pos _

/-- Every step succeeds. -/
theorem step_spec {w : World K V} (h : Represents limits w.buffer l)
    (hordered : Ordered w.stored l.keys) (op : Op K V) :
    ∃ w' l', w.step op = some w' ∧ Represents limits w'.buffer l' ∧ Ordered w'.stored l'.keys := by
  have hothers (key : K) : Ordered w.stored (l.kerase key).keys := by
    rw [keys_kerase]
    exact List.Pairwise.sublist erase_sublist hordered
  cases op with
  | insert key value byteLen =>
    obtain ⟨outcome, b', l', heq, h', hinserted⟩ := h.insert key value byteLen
    simp only [World.step, heq]
    refine ⟨_, l', rfl, h', ?_⟩
    have hkey : key ∉ (l.kerase key).keys := notMem_keys_kerase _ h.nodupKeys
    cases hinserted with
    | rejected => simpa [InsertOutcome.isStored] using hothers key
    | @stored evicted kept _ hl =>
      have hsub : kept.keys.Sublist (l.kerase key).keys := hl ▸ (sublist_append_right ..).map _
      have hkept := Ordered.concat (List.Pairwise.sublist hsub (hothers key)) fun hmem =>
        hkey (hsub.subset hmem)
      simpa [InsertOutcome.isStored] using hkept
  | remove key =>
    obtain ⟨value, b', heq, h'⟩ := h.remove key
    simp only [World.step, heq]
    exact ⟨_, _, rfl, h', hothers key⟩
  | getMut key change =>
    obtain ⟨l', h', hkeys⟩ := h.getMut key change
    exact ⟨_, l', rfl, h', hkeys ▸ hordered⟩
  | clear => exact ⟨_, [], rfl, ⟨h.limits_eq, rfl, .nil, rfl, Nat.zero_le _⟩, List.Pairwise.nil⟩

/-- Every run of calls succeeds and keeps what the buffer represents. -/
theorem run_spec {w : World K V} (h : Represents limits w.buffer l)
    (hordered : Ordered w.stored l.keys) (ops : List (Op K V)) :
    ∃ w' l', ops.foldlM World.step w = some w' ∧ Represents limits w'.buffer l' ∧
      Ordered w'.stored l'.keys := by
  induction ops generalizing w l with
  | nil => exact ⟨w, l, rfl, h, hordered⟩
  | cons op ops ih =>
    obtain ⟨w', l', hstep, h', hordered'⟩ := step_spec h hordered op
    rw [foldlM_cons, hstep]
    exact ih h' hordered'

/-- Every run succeeds, and leaves a buffer whose total is that of its entries and within the limit
and whose order lists their keys once each, by their last stored insert. An insert that stores then
evicts the shortest prefix of the other entries that makes room. -/
theorem exact_budget (limits : ByteLimits) (ops : List (Op K V)) :
    ∃ w l, ops.foldlM World.step ⟨.new limits, []⟩ = some w ∧ Represents limits w.buffer l ∧
      Ordered w.stored l.keys ∧
      ∀ key value byteLen, ∃ outcome b' l',
        w.buffer.insert key value byteLen = some (outcome, b') ∧ Represents limits b' l' ∧
        Inserted limits (l.kerase key) ⟨key, value, byteLen⟩ outcome l' := by
  have hnew : Represents limits (.new limits : BoundedByteBuffer K V) [] :=
    ⟨rfl, rfl, .nil, rfl, Nat.zero_le _⟩
  obtain ⟨w, l, hrun, h, hordered⟩ := run_spec (w := ⟨.new limits, []⟩) hnew List.Pairwise.nil ops
  exact ⟨w, l, hrun, h, hordered, h.insert⟩

end Moli.BoundedBuffer
