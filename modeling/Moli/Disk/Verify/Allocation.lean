import Moli.Disk.Allocation
import Moli.Lib.Ensures

/-!
# Soundness of the allocator

`Sound` relates an allocator to the extents in use: together with the free chunks they tile the
file up to its tail, the two indexes agree, and no two free chunks touch. Allocation and release
keep it and never panic.
-/

namespace Moli.Disk

open Lib AllocationState SortedMap List
open Extent (stop)

variable {state : AllocationState} {live : List Extent} {offset len : Nat} {e : Extent}

/-- The computation does not panic. -/
abbrev Safe {α : Type} (m : Except Fault α) (post : α → Prop) : Prop :=
  Ensures (fun _ => False) m post

theorem safe_expect {α : Type} {a : Option α} {fault : Fault} {post : α → Prop}
    (h : ∃ x, a = some x ∧ post x) : Safe (expect a fault) post := by
  obtain ⟨x, rfl, hx⟩ := h
  exact hx

theorem safe_debugAssert {condition : Bool} {fault : Fault} (h : condition = true) :
    Safe (debugAssert condition fault) fun _ => True := by
  rw [debugAssert, if_pos h]
  trivial

namespace AllocationState

theorem mem_free : e ∈ state.free ↔ (e.offset, e.len) ∈ state.freeChunksByOffset.entries := by
  rw [free, mem_map]
  constructor
  · rintro ⟨entry, hentry, rfl⟩
    exact hentry
  · exact fun h => ⟨_, h, rfl⟩

/-- Both indexes hold the same chunks. -/
def Indexed (state : AllocationState) : Prop :=
  ∀ len offset, (toLex (len, offset), ()) ∈ state.freeChunksBySize.entries ↔
    (offset, len) ∈ state.freeChunksByOffset.entries

/-- Only the indexes have changed. -/
structure Reindexed (state state' : AllocationState) : Prop where
  indexed : state'.Indexed
  mayWrite : state'.mayWrite = state.mayWrite
  fileTail : state'.fileTail = state.fileTail
  freeBytes : state'.freeBytes = state.freeBytes

theorem removeFreeChunk_spec (h : state.Indexed) (he : e ∈ state.free) :
    Safe (state.removeFreeChunk e) fun state' =>
      state.Reindexed state' ∧ state.free.Perm (e :: state'.free) := by
  rw [mem_free] at he
  refine (safe_debugAssert (by rw [find_eq_some.2 he]; simp)).bind fun _ _ => ?_
  refine (safe_debugAssert (by rw [find_eq_some.2 ((h _ _).2 he)]; rfl)).bind
    fun _ _ => ?_
  refine ⟨⟨fun len offset => ?_, rfl, rfl, rfl⟩, ?_⟩
  · simp only [mem_remove, h len offset]
    refine and_congr_right fun hmem => not_congr ?_
    constructor
    · intro heq
      exact (Prod.mk.inj (toLex.injective heq)).2
    · rintro rfl
      have := eq_of_key_eq hmem he rfl
      rw [(Prod.mk.inj this).2]
  · exact (remove_perm he).map _

theorem insertFreeChunk_spec (h : state.Indexed) (hnew : ∀ e' ∈ state.free, e'.offset ≠ e.offset) :
    Safe (state.insertFreeChunk e) fun state' =>
      state.Reindexed state' ∧ state'.free.Perm (e :: state.free) := by
  have hoffset : ∀ entry ∈ state.freeChunksByOffset.entries, entry.1 ≠ e.offset :=
    fun entry hentry => hnew ⟨entry.1, entry.2⟩ (mem_free.2 hentry)
  have hsize : ∀ v, (toLex (e.len, e.offset), v) ∉ state.freeChunksBySize.entries :=
    fun v hmem => hoffset _ ((h _ _).1 hmem) rfl
  refine (safe_debugAssert ?_).bind fun _ _ => ?_
  · rw [find_eq_none.2 fun v hmem => hoffset _ hmem rfl]
    rfl
  refine (safe_debugAssert ?_).bind fun _ _ => ?_
  · rw [find_eq_none.2 hsize]
    rfl
  refine ⟨⟨fun len offset => ?_, rfl, rfl, rfl⟩, (insert_perm hoffset).map _⟩
  simp only [mem_insert, h len offset, Prod.mk.injEq, and_true]
  constructor
  · rintro (heq | ⟨hmem, hne⟩)
    · obtain ⟨hlen, hoff⟩ := Prod.mk.inj (toLex.injective heq)
      exact .inl ⟨hoff, hlen⟩
    · exact .inr ⟨hmem, hoffset _ hmem⟩
  · rintro (⟨rfl, rfl⟩ | ⟨hmem, hne⟩)
    · exact .inl rfl
    · exact .inr ⟨hmem, fun heq => hne (Prod.mk.inj (toLex.injective heq)).2⟩

end AllocationState

/-- The number of bytes in extents. -/
def bytesIn (extents : List Extent) : Nat := (extents.map (·.len)).sum

theorem bytesIn_perm {extents extents' : List Extent} (h : extents.Perm extents') :
    bytesIn extents = bytesIn extents' :=
  (h.map _).sum_eq

@[simp] theorem bytesIn_cons (e : Extent) (extents : List Extent) :
    bytesIn (e :: extents) = e.len + bytesIn extents := by
  simp [bytesIn]

/-- No two extents touch. -/
def Coalesced (extents : List Extent) : Prop :=
  ∀ e ∈ extents, ∀ e' ∈ extents, e.stop ≠ e'.offset

/-- The allocator and the extents in use account for the whole file. -/
structure Sound (state : AllocationState) (live : List Extent) : Prop where
  tiling : Tiling (state.free ++ live) state.fileTail
  indexed : state.Indexed
  total : state.freeBytes = bytesIn state.free
  coalesced : Coalesced state.free
  bounded : state.fileTail ≤ u64Max

namespace Sound

theorem new (mayWrite : Bool) : Sound ⟨mayWrite, 0, .empty, .empty, 0⟩ [] where
  tiling := .nil
  indexed len offset := by simp [empty]
  total := rfl
  coalesced e he := by cases he
  bounded := Nat.zero_le _

theorem perm {live' : List Extent} (h : Sound state live) (hperm : live.Perm live') :
    Sound state live' :=
  ⟨h.tiling.perm (hperm.append_left _), h.indexed, h.total, h.coalesced, h.bounded⟩

/-- Each free chunk but the last one ends where a live extent starts. -/
theorem free_length_le (h : Sound state live) : state.free.length ≤ live.length + 1 := by
  have hstop : ∀ e ∈ state.free, e.stop ∈ state.fileTail :: live.map (·.offset) := by
    intro e he
    rcases h.tiling.stop_eq (mem_append_left _ he) with htail | ⟨e', he', hnext⟩
    · exact htail ▸ mem_cons_self
    · rcases mem_append.1 he' with hfree | hlive
      · exact absurd hnext.symm (h.coalesced e he e' hfree)
      · exact mem_cons_of_mem _ (mem_map.2 ⟨e', hlive, hnext⟩)
  have hnodup : (state.free.map (·.stop)).Nodup := by
    refine pairwise_map.2 ((pairwise_append.1 h.tiling.pairwise).1.imp_of_mem ?_)
    intro e e' he he' hapart
    have hpos := h.tiling.nonempty e (mem_append_left _ he)
    have hpos' := h.tiling.nonempty e' (mem_append_left _ he')
    simp only [Extent.Apart, stop] at *
    omega
  simpa using (subperm_of_subset hnodup (forall_mem_map.2 hstop)).length_le

end Sound

/-! ## Allocation -/

/-- Cutting a free chunk leaves a remainder that touches no other chunk. -/
theorem coalesced_remainder {size : Nat} {chosen : Extent} {rest : List Extent} {tail : Nat}
    (htiling : Tiling (chosen :: rest ++ live) tail) (h : Coalesced (chosen :: rest))
    (hsize : 0 < size) (hlt : size < chosen.len) :
    Coalesced (⟨chosen.offset + size, chosen.len - size⟩ :: rest) ∧
      ∀ e ∈ rest, e.offset ≠ chosen.offset + size := by
  have hapart : ∀ e ∈ rest, 0 < e.len ∧
      (chosen.offset + chosen.len ≤ e.offset ∨ e.offset + e.len ≤ chosen.offset) := by
    intro e he
    refine ⟨htiling.nonempty e (by simp [he]), ?_⟩
    exact (show Tiling (chosen :: (rest ++ live)) tail from htiling).apart_of_mem
      (mem_append_left _ he)
  have hchosen : ∀ e ∈ rest, chosen.offset + chosen.len ≠ e.offset := fun e he =>
    h chosen mem_cons_self e (mem_cons_of_mem _ he)
  constructor
  · intro e he e' he'
    rcases mem_cons.1 he with rfl | he <;> rcases mem_cons.1 he' with rfl | he'
    · simp only [stop]
      omega
    · have := hchosen e' he'
      simp only [stop]
      omega
    · have := hapart e he
      simp only [stop]
      omega
    · exact h e (mem_cons_of_mem _ he) e' (mem_cons_of_mem _ he')
  · intro e he
    have := hapart e he
    omega

theorem takeFromChunk_spec (h : Sound state live) {chosen : Extent} {size : Nat}
    (hchosen : chosen ∈ state.free) (hsize : 0 < size) (hle : size ≤ chosen.len) :
    Safe (takeFromChunk state chosen size) fun result =>
      Sound result.2 (result.1 :: live) ∧ result.1.len = size ∧
        result.2.fileTail = state.fileTail ∧ result.2.mayWrite = state.mayWrite := by
  have hstop : chosen.offset + chosen.len ≤ state.fileTail :=
    h.tiling.stop_le (mem_append_left _ hchosen)
  have hbounded := h.bounded
  refine (safe_expect ⟨_, checkedAdd_of_le (by omega), rfl⟩).bind fun remainder hremainder => ?_
  subst hremainder
  refine (removeFreeChunk_spec h.indexed hchosen).bind
    fun state₁ ⟨hre₁, hfree₁⟩ => ?_
  have htotal : state₁.freeBytes = chosen.len + bytesIn state₁.free := by
    rw [hre₁.freeBytes, h.total, bytesIn_perm hfree₁, bytesIn_cons]
  have htiling : Tiling (chosen :: state₁.free ++ live) state.fileTail :=
    h.tiling.perm (hfree₁.append_right live)
  have hcoalesced : Coalesced (chosen :: state₁.free) := fun e he e' he' =>
    h.coalesced e (hfree₁.mem_iff.2 he) e' (hfree₁.mem_iff.2 he')
  refine (safe_expect ⟨_, if_pos (by omega), rfl⟩).bind fun freeBytes hfreeBytes => ?_
  subst hfreeBytes
  by_cases hlt : size < chosen.len
  · rw [if_pos hlt]
    obtain ⟨hremainder, hnew⟩ := coalesced_remainder htiling hcoalesced hsize hlt
    have hindexed : AllocationState.Indexed
        { state₁ with freeBytes := state₁.freeBytes - size } := hre₁.indexed
    have hinsert := insertFreeChunk_spec hindexed
      (e := ⟨chosen.offset + size, chosen.len - size⟩) hnew
    refine hinsert.bind fun state₂ ⟨hre₂, hfree₂⟩ => ?_
    have hfree : state₂.free.Perm (⟨chosen.offset + size, chosen.len - size⟩ :: state₁.free) :=
      hfree₂
    have hsplit : Tiling (⟨chosen.offset, size⟩ :: ⟨chosen.offset + size, chosen.len - size⟩ ::
        (state₁.free ++ live)) state.fileTail := by
      refine Tiling.split ?_ hsize (by omega)
      rw [Nat.add_sub_cancel' hle]
      exact htiling
    refine ⟨⟨?_, hre₂.indexed, ?_, ?_, ?_⟩, rfl, hre₂.fileTail.trans hre₁.fileTail,
      hre₂.mayWrite.trans hre₁.mayWrite⟩
    · rw [hre₂.fileTail, hre₁.fileTail]
      exact hsplit.perm (((hfree.symm.append_right live).cons _).trans perm_middle.symm)
    · rw [hre₂.freeBytes, bytesIn_perm hfree, bytesIn_cons]
      simp only
      omega
    · exact fun e he e' he' => hremainder e (hfree.mem_iff.1 he) e' (hfree.mem_iff.1 he')
    · rw [hre₂.fileTail, hre₁.fileTail]
      exact hbounded
  · rw [if_neg hlt]
    refine ⟨⟨?_, hre₁.indexed, ?_, ?_, ?_⟩, Nat.le_antisymm (Nat.le_of_not_lt hlt) hle,
      hre₁.fileTail, hre₁.mayWrite⟩
    · rw [hre₁.fileTail]
      exact htiling.perm perm_middle.symm
    · change state₁.freeBytes - size = bytesIn state₁.free
      omega
    · exact fun e he e' he' => hcoalesced e (mem_cons_of_mem _ he) e' (mem_cons_of_mem _ he')
    · rw [hre₁.fileTail]
      exact hbounded

theorem firstOfSize_eq_some (h : Sound state live) {size : Nat}
    (hfirst : state.firstOfSize size = some (len, offset)) :
    (⟨offset, len⟩ : Extent) ∈ state.free ∧ len = size := by
  obtain ⟨entry, hentry, heq⟩ := Option.map_eq_some_iff.1 hfirst
  obtain ⟨hmem, hlow, hhigh⟩ := firstWithin_eq_some hentry
  obtain ⟨key, _⟩ := entry
  obtain rfl : key = toLex (len, offset) := ofLex.injective heq
  refine ⟨mem_free.2 ((h.indexed len offset).1 hmem), ?_⟩
  rw [Prod.Lex.toLex_le_toLex] at hlow hhigh
  omega

theorem firstOfSize_eq_none (h : Sound state live) {size : Nat}
    (hfirst : state.firstOfSize size = none) : ∀ e ∈ state.free, e.len ≠ size := by
  rintro e he rfl
  have hstop := h.tiling.stop_le (mem_append_left live he)
  have hbounded := h.bounded
  rw [stop] at hstop
  rw [mem_free] at he
  have hmem := (h.indexed e.len e.offset).2 he
  refine firstWithin_eq_none (Option.map_eq_none_iff.1 hfirst) _ hmem ?_ ?_
  · exact Prod.Lex.toLex_le_toLex.2 (.inr ⟨rfl, Nat.zero_le _⟩)
  · refine Prod.Lex.toLex_le_toLex.2 (.inr ⟨rfl, ?_⟩)
    omega

/-- A chunk is chosen if some free chunk is large enough. -/
theorem chooseChunk_spec (h : Sound state live) (size : Nat) :
    Safe (state.chooseChunk size) fun chosen =>
      (∀ e, chosen = some e → e ∈ state.free ∧ size ≤ e.len) ∧
        (chosen = none → ∀ e ∈ state.free, e.len < size) := by
  rw [chooseChunk]
  cases hexact : state.firstOfSize size with
  | some chunk =>
    obtain ⟨hfree, hlen⟩ := firstOfSize_eq_some h hexact
    refine ⟨fun e he => ?_, fun hnone => by cases hnone⟩
    obtain rfl := Option.some.inj he
    exact ⟨hfree, hlen.ge⟩
  | none =>
    have hne := firstOfSize_eq_none h hexact
    cases hlast : state.freeChunksBySize.last with
    | none =>
      refine ⟨fun e he => (nomatch he), fun _ e he => ?_⟩
      have hmem := (h.indexed e.len e.offset).2 (mem_free.1 he)
      rw [last_eq_none hlast] at hmem
      cases hmem
    | some largest =>
      obtain ⟨key, _⟩ := largest
      obtain ⟨hkey, hgreatest⟩ := last_eq_some hlast
      obtain ⟨largestLen, largestOffset⟩ := key
      have hlargest : (⟨largestOffset, largestLen⟩ : Extent) ∈ state.free :=
        mem_free.2 ((h.indexed _ _).1 hkey)
      change Safe (if largestLen ≤ size then .ok none else _) _
      split
      · next hle =>
        refine ⟨fun e he => (nomatch he), fun _ e he => ?_⟩
        have hbelow := hgreatest _ ((h.indexed e.len e.offset).2 (mem_free.1 he))
        have hlen : e.len ≤ largestLen := by
          rcases Prod.Lex.toLex_le_toLex.1 hbelow with hlt | ⟨heq, -⟩
          · exact hlt.le
          · exact heq.le
        exact lt_of_le_of_ne (hlen.trans hle) (hne e he)
      · next hgt =>
        cases hfirst : state.firstOfSize largestLen with
        | none => exact absurd rfl (firstOfSize_eq_none h hfirst _ hlargest)
        | some chunk =>
          obtain ⟨hfree, hlen⟩ := firstOfSize_eq_some h hfirst
          refine (safe_expect ⟨_, hfirst, rfl⟩).bind fun chunk' hchunk' => ?_
          subst hchunk'
          refine ⟨fun e he => ?_, fun hnone => by cases hnone⟩
          obtain rfl := Option.some.inj he
          exact ⟨hfree, by simp only; omega⟩

/-- A chunk is found whenever one is long enough. -/
theorem findFreeChunk_spec (h : Sound state live) {size : Nat} (hsize : 0 < size) :
    Safe (findFreeChunk state size) fun result =>
      result.2.fileTail = state.fileTail ∧ result.2.mayWrite = state.mayWrite ∧
      match result.1 with
      | some e => Sound result.2 (e :: live) ∧ e.len = size
      | none => result.2 = state ∧ ∀ e ∈ state.free, e.len < size := by
  refine (chooseChunk_spec h size).bind fun chosen hchosen => ?_
  cases chosen with
  | none => exact ⟨rfl, rfl, rfl, hchosen.2 rfl⟩
  | some chosen =>
    obtain ⟨hfree, hle⟩ := hchosen.1 chosen rfl
    refine (takeFromChunk_spec h hfree hsize hle).bind fun result hresult => ?_
    exact ⟨hresult.2.2.1, hresult.2.2.2, hresult.1, hresult.2.1⟩

/-! ## Release -/

/-- An extent on its way back: it belongs to nobody, but is not yet a free chunk. -/
structure Releasing (state : AllocationState) (merged : Extent) (live : List Extent)
    (returned : Nat) : Prop where
  tiling : Tiling (merged :: (state.free ++ live)) state.fileTail
  indexed : state.Indexed
  total : state.freeBytes + returned = bytesIn state.free + merged.len
  coalesced : Coalesced state.free
  bounded : state.fileTail ≤ u64Max

namespace Releasing

variable {merged : Extent} {returned : Nat}

section
variable (h : Releasing state merged live returned)
include h

theorem apart (he : e ∈ state.free) :
    0 < e.len ∧ (merged.offset + merged.len ≤ e.offset ∨ e.offset + e.len ≤ merged.offset) :=
  ⟨h.tiling.nonempty e (by simp [he]), h.tiling.apart_of_mem (mem_append_left _ he)⟩

theorem apart_of_ne {e' : Extent} (he : e ∈ state.free) (he' : e' ∈ state.free) (hne : e ≠ e') :
    e.Apart e' :=
  h.tiling.apart_of_ne (by simp [he]) (by simp [he']) hne

theorem pos : 0 < merged.len :=
  h.tiling.nonempty merged mem_cons_self

/-- A free chunk that touches the extent is taken out of the indexes and joined to it. -/
theorem join {chunk : Extent} (joined : Extent) (hchunk : chunk ∈ state.free)
    (hlen : joined.len = merged.len + chunk.len)
    (htile : ∀ rest, Tiling (merged :: chunk :: rest) state.fileTail →
      Tiling (joined :: rest) state.fileTail) :
    Safe (do
      let state ← state.removeFreeChunk chunk
      let len ← expect (checkedAdd merged.len chunk.len) .lengthOverflow
      return ((⟨joined.offset, len⟩ : Extent), state)) fun result =>
      result.1 = joined ∧ Releasing result.2 joined live returned ∧
        state.free.Perm (chunk :: result.2.free) ∧ result.2.fileTail = state.fileTail ∧
        result.2.mayWrite = state.mayWrite := by
  have hbounded := h.bounded
  have hjoined : ∀ free', state.free.Perm (chunk :: free') →
      Tiling (joined :: (free' ++ live)) state.fileTail := fun free' hfree =>
    htile _ (h.tiling.perm ((hfree.append_right live).cons merged))
  refine (removeFreeChunk_spec h.indexed hchunk).bind fun state' ⟨hre, hfree⟩ => ?_
  have hstop := (hjoined _ hfree).stop_le mem_cons_self
  rw [stop] at hstop
  refine (safe_expect ⟨_, checkedAdd_of_le (by omega), rfl⟩).bind fun len hlen' => ?_
  subst hlen'
  refine ⟨?_, ⟨?_, hre.indexed, ?_, ?_, ?_⟩, hfree, hre.fileTail, hre.mayWrite⟩
  · rw [← hlen]
  · rw [hre.fileTail]
    exact hjoined _ hfree
  · have htotal := h.total
    rw [bytesIn_perm hfree, bytesIn_cons] at htotal
    change state'.freeBytes + returned = bytesIn state'.free + joined.len
    rw [hre.freeBytes]
    omega
  · exact fun e he e' he' => h.coalesced e (hfree.mem_iff.2 (mem_cons_of_mem _ he)) e'
      (hfree.mem_iff.2 (mem_cons_of_mem _ he'))
  · rw [hre.fileTail]
    exact hbounded

theorem mergeLeft :
    Safe (Disk.mergeLeft state merged) fun result =>
      Releasing result.2 result.1 live returned ∧
      (∀ e ∈ result.2.free, e.stop ≠ result.1.offset) ∧
      result.2.fileTail = state.fileTail ∧ result.2.mayWrite = state.mayWrite := by
  rw [Disk.mergeLeft]
  cases hleft : state.freeChunksByOffset.lastBelow merged.offset with
  | none =>
    refine ⟨h, fun e he hstop => ?_, rfl, rfl⟩
    have hge := lastBelow_eq_none hleft _ (mem_free.1 he)
    have hpos := (h.apart he).1
    simp only [stop] at hstop hge
    omega
  | some left =>
    obtain ⟨leftOffset, leftLen⟩ := left
    obtain ⟨hmem, hlt, hlast⟩ := lastBelow_eq_some hleft
    have hchunk : (⟨leftOffset, leftLen⟩ : Extent) ∈ state.free := mem_free.2 hmem
    have hapart := h.apart hchunk
    have hstop := h.tiling.stop_le (mem_cons_of_mem _ (mem_append_left live hchunk))
    have hbounded := h.bounded
    simp only [stop] at hapart hstop hlt
    refine (safe_expect ⟨_, checkedAdd_of_le (by omega), rfl⟩).bind fun leftEnd hleftEnd => ?_
    subst hleftEnd
    refine (safe_debugAssert (by simp only [decide_eq_true_eq]; omega)).bind fun _ _ => ?_
    split
    · next htouch =>
      refine (h.join ⟨leftOffset, merged.len + leftLen⟩ hchunk rfl ?_).mono ?_
      · intro rest htiling
        have hmerged := htiling.perm (.swap _ _ _)
        rw [show merged = ⟨leftOffset + leftLen, merged.len⟩ from by rw [htouch]] at hmerged
        rw [Nat.add_comm merged.len leftLen]
        exact hmerged.merge
      · rintro result ⟨hjoined, hreleasing, hfree, htail, hmay⟩
        refine ⟨hjoined ▸ hreleasing, fun e he => ?_, htail, hmay⟩
        rw [hjoined]
        exact h.coalesced e (hfree.mem_iff.2 (mem_cons_of_mem _ he)) ⟨leftOffset, leftLen⟩ hchunk
    · next hgap =>
      refine ⟨h, fun e he hends => ?_, rfl, rfl⟩
      -- The last chunk below the extent is the only one that can end where it starts.
      rcases eq_or_ne e ⟨leftOffset, leftLen⟩ with rfl | hne
      · exact hgap hends
      have hbelow := hlast _ (mem_free.1 he)
      have hdisjoint := h.apart_of_ne he hchunk hne
      have hnonempty := (h.apart he).1
      simp only [Extent.Apart, stop] at hends hdisjoint hbelow
      omega

theorem mergeRight (hleft : ∀ e ∈ state.free, e.stop ≠ merged.offset) :
    Safe (Disk.mergeRight state merged) fun result =>
      Releasing result.2 result.1 live returned ∧
      (∀ e ∈ result.2.free, e.stop ≠ result.1.offset ∧ result.1.stop ≠ e.offset) ∧
      result.2.fileTail = state.fileTail ∧ result.2.mayWrite = state.mayWrite := by
  rw [Disk.mergeRight]
  cases hright : state.freeChunksByOffset.firstFrom merged.offset with
  | none =>
    refine ⟨h, fun e he => ⟨hleft e he, fun hstop => ?_⟩, rfl, rfl⟩
    have hlt := firstFrom_eq_none hright _ (mem_free.1 he)
    simp only [stop] at hstop hlt
    omega
  | some right =>
    obtain ⟨rightOffset, rightLen⟩ := right
    obtain ⟨hmem, hge, hfirst⟩ := firstFrom_eq_some hright
    have hchunk : (⟨rightOffset, rightLen⟩ : Extent) ∈ state.free := mem_free.2 hmem
    have hapart := h.apart hchunk
    have hstop := h.tiling.stop_le mem_cons_self
    have hbounded := h.bounded
    simp only [stop] at hapart hstop hge
    refine (safe_expect ⟨_, checkedAdd_of_le (by omega), rfl⟩).bind fun mergedEnd hmergedEnd => ?_
    subst hmergedEnd
    refine (safe_debugAssert (by simp only [decide_eq_true_eq]; omega)).bind fun _ _ => ?_
    split
    · next htouch =>
      refine (h.join ⟨merged.offset, merged.len + rightLen⟩ hchunk rfl ?_).mono ?_
      · intro rest htiling
        rw [← htouch] at htiling
        exact htiling.merge
      · rintro result ⟨hjoined, hreleasing, hfree, htail, hmay⟩
        refine ⟨hjoined ▸ hreleasing, fun e he => ?_, htail, hmay⟩
        have he' : e ∈ state.free := hfree.mem_iff.2 (mem_cons_of_mem _ he)
        rw [hjoined]
        refine ⟨hleft e he', ?_⟩
        have hnot := h.coalesced _ hchunk e he'
        simp only [stop] at hnot ⊢
        omega
    · next hgap =>
      refine ⟨h, fun e he => ⟨hleft e he, fun hstarts => ?_⟩, rfl, rfl⟩
      -- The first chunk from the extent on is the only one that can start where it ends.
      rcases eq_or_ne e ⟨rightOffset, rightLen⟩ with rfl | hne
      · exact hgap hstarts
      have habove := hfirst _ (mem_free.1 he)
      have hdisjoint := h.apart_of_ne he hchunk hne
      simp only [stop] at hstarts hdisjoint habove
      omega

end

end Releasing

/-- The released chunk is free, and free and live chunks still tile the file. -/
theorem releaseChunk_spec (h : Sound state (e :: live)) :
    Safe (releaseChunk state e) fun state' =>
      Sound state' live ∧ state'.fileTail = state.fileTail ∧ state'.mayWrite = state.mayWrite := by
  have hreleasing : Releasing state e live e.len :=
    ⟨h.tiling.perm perm_middle, h.indexed, by rw [h.total], h.coalesced, h.bounded⟩
  refine hreleasing.mergeLeft.bind fun (merged₁, state₁) ⟨h₁, hleft, htail₁, hmay₁⟩ => ?_
  refine (h₁.mergeRight hleft).bind fun (merged₂, state₂) ⟨h₂, halone, htail₂, hmay₂⟩ => ?_
  simp only at h₁ hleft htail₁ hmay₁ h₂ halone htail₂ hmay₂
  have hpos := h₂.pos
  refine (insertFreeChunk_spec h₂.indexed ?_).bind fun state₃ ⟨hre, hfree⟩ => ?_
  · intro e' he'
    have := h₂.apart he'
    omega
  have htiling : Tiling (state₃.free ++ live) state₂.fileTail :=
    h₂.tiling.perm (hfree.append_right live).symm
  have htotal : state₃.freeBytes + e.len = bytesIn state₃.free := by
    rw [hre.freeBytes, h₂.total, bytesIn_perm hfree, bytesIn_cons, Nat.add_comm]
  have hsum : bytesIn state₃.free ≤ state₂.fileTail := by
    have := htiling.sum_len
    rw [map_append, sum_append] at this
    exact Nat.le_of_add_right_le this.le
  have hbounded := h₂.bounded
  refine (safe_expect ⟨_, checkedAdd_of_le (by omega), rfl⟩).bind fun freeBytes hfreeBytes => ?_
  subst hfreeBytes
  refine ⟨⟨?_, hre.indexed, htotal, ?_, ?_⟩, ?_, ?_⟩
  · change Tiling (state₃.free ++ live) state₃.fileTail
    rw [hre.fileTail]
    exact htiling
  · intro a ha b hb
    rcases mem_cons.1 (hfree.mem_iff.1 ha) with rfl | ha <;>
      rcases mem_cons.1 (hfree.mem_iff.1 hb) with rfl | hb
    · simp only [stop]
      omega
    · exact (halone b hb).2
    · exact (halone a ha).1
    · exact h₂.coalesced a ha b hb
  · exact hre.fileTail ▸ hbounded
  · exact hre.fileTail.trans (htail₂.trans htail₁)
  · exact hre.mayWrite.trans (hmay₂.trans hmay₁)

end Moli.Disk
