import Moli.Lib.Trace
import Moli.FileApi.Read
import Moli.FileApi.Verify.BlobData

/-!
# Reads call their completion once, with the bytes denoted

`Reading` is the invariant of a read and of the events that led to it: a piece is outstanding, was
read correctly or failed, and the completion was taken when the last piece was read or the first one
failed. `blob_composition` puts the operations and the reads together.
-/

namespace Moli.FileApi

open Lib BlobData List

variable {σ : Type} {content : σ → Bytes} {pieces : List (BlobData σ)} {piece : BlobData σ}
variable {past : List ReadEvent} {read : Read σ} {i : Nat} {grants : Nat → Bool}

/-! ## Events -/

/-- A source completes a piece with its bytes, a wrong length or an error. -/
def Honest (content : σ → Bytes) (pieces : List (BlobData σ)) : ReadEvent → Prop
  | .complete i result => ∀ piece, pieces[i]? = some piece →
      result = .ok (piece.bytes content) ∨
        (∃ bytes, result = .ok bytes ∧ bytes.length ≠ piece.len) ∨ ∃ error, result = .error error
  | _ => True

/-- The piece was read: it is in memory and its turn has come, or its source gave its bytes. -/
def Correct (content : σ → Bytes) (pieces : List (BlobData σ)) (past : List ReadEvent) (i : Nat) :
    Prop :=
  ∃ piece, pieces[i]? = some piece ∧ ((piece.asBytes.isSome = true ∧ i < past.count .start) ∨
    .complete i (.ok (piece.bytes content)) ∈ past)

/-- The source of the piece completed it with something else. -/
def Wrong (content : σ → Bytes) (pieces : List (BlobData σ)) (past : List ReadEvent) (i : Nat) :
    Prop :=
  ∃ piece result, pieces[i]? = some piece ∧ .complete i result ∈ past ∧
    result ≠ .ok (piece.bytes content)

theorem checkLength_right (h : piece.Fits content) :
    Read.checkLength piece.length (.ok (piece.bytes content)) = .ok (piece.bytes content) :=
  if_neg (not_not.2 h.length_bytes)

variable {result : Result} {event : ReadEvent} {good : Nat → Prop} {slots : List (Option Bytes)}

theorem checkLength_wrong (hpiece : pieces[i]? = some piece)
    (h : Honest content pieces (.complete i result)) (hwrong : result ≠ .ok (piece.bytes content)) :
    ∃ error, Read.checkLength piece.length result = .error error := by
  rcases h piece hpiece with hright | ⟨bytes, rfl, hlength⟩ | ⟨error, rfl⟩
  · exact absurd hright hwrong
  · exact ⟨_, if_pos hlength⟩
  · exact ⟨error, rfl⟩

/-- The pieces that an event makes correct when `started` reads were started. -/
def Gained (content : σ → Bytes) (pieces : List (BlobData σ)) (started : Nat) :
    ReadEvent → Nat → Prop
  | .start, j => j = started ∧ ∃ piece, pieces[j]? = some piece ∧ piece.asBytes.isSome = true
  | .complete i result, j =>
    j = i ∧ ∃ piece, pieces[j]? = some piece ∧ result = .ok (piece.bytes content)
  | .call, _ => False

/-- The pieces that an event makes wrong. -/
def Spoilt (content : σ → Bytes) (pieces : List (BlobData σ)) : ReadEvent → Nat → Prop
  | .complete i result, j =>
    j = i ∧ ∃ piece, pieces[j]? = some piece ∧ result ≠ .ok (piece.bytes content)
  | _, _ => False

theorem correct_snoc :
    Correct content pieces (past ++ [event]) i ↔
      Correct content pieces past i ∨ Gained content pieces (past.count .start) event i := by
  unfold Correct
  cases event with
  | start =>
    simp only [Gained, count_append, count_singleton_self, mem_append]
    grind
  | complete j result =>
    simp only [Gained]
    grind
  | call =>
    simp [Gained]

theorem wrong_snoc :
    Wrong content pieces (past ++ [event]) i ↔
      Wrong content pieces past i ∨ Spoilt content pieces event i := by
  unfold Wrong
  cases event with
  | start => simp [Spoilt]
  | complete j result =>
    constructor
    · rintro ⟨piece, other, hpiece, hmem, hne⟩
      rcases mem_append.1 hmem with hmem | hmem
      · exact .inl ⟨piece, other, hpiece, hmem, hne⟩
      · cases mem_singleton.1 hmem
        exact .inr ⟨rfl, piece, hpiece, hne⟩
    · rintro (⟨piece, other, hpiece, hmem, hne⟩ | ⟨rfl, piece, hpiece, hne⟩)
      · exact ⟨piece, other, hpiece, mem_append_left _ hmem, hne⟩
      · exact ⟨piece, result, hpiece, mem_append_right _ (mem_singleton_self _), hne⟩
  | call => simp [Spoilt]

section
variable (hpiece : pieces[i]? = some piece)
include hpiece

theorem correct_start (hi : i = past.count .start) :
    Correct content pieces (past ++ [.start]) =
      fun j => Correct content pieces past j ∨ j = i ∧ piece.asBytes.isSome = true := by
  funext j
  rw [correct_snoc, ← hi, eq_iff_iff]
  exact or_congr_right (and_congr_right fun hj => by simp [hj, hpiece])

theorem correct_complete : Correct content pieces (past ++ [.complete i result]) =
    fun j => Correct content pieces past j ∨ j = i ∧ result = .ok (piece.bytes content) := by
  funext j
  rw [correct_snoc, eq_iff_iff]
  exact or_congr_right (and_congr_right fun hj => by simp [hj, hpiece])

theorem wrong_complete : Wrong content pieces (past ++ [.complete i result]) =
    fun j => Wrong content pieces past j ∨ j = i ∧ result ≠ .ok (piece.bytes content) := by
  funext j
  rw [wrong_snoc, eq_iff_iff]
  exact or_congr_right (and_congr_right fun hj => by simp [hj, hpiece])

end

/-! ## The collected pieces -/

/-- The slots of the pieces read so far. -/
structure Slots (content : σ → Bytes) (pieces : List (BlobData σ)) (good : Nat → Prop)
    (slots : List (Option Bytes)) : Prop where
  length : slots.length = pieces.length
  full : ∀ i piece, pieces[i]? = some piece → good i → slots[i]? = some (some (piece.bytes content))
  free : ∀ i, i < pieces.length → ¬ good i → slots[i]? = some none

/-- The allocator grants the vector in which more than one piece is joined. -/
def Granted (grants : Nat → Bool) (content : σ → Bytes) (pieces : List (BlobData σ)) : Prop :=
  1 < pieces.length →
    tryReserveExact grants (pieces.flatMap (BlobData.bytes content)).length = .ok ()

/-- The answer once all pieces were read. -/
inductive Joined (grants : Nat → Bool) (content : σ → Bytes) (pieces : List (BlobData σ)) :
    Result → Prop
  | bytes (h : Granted grants content pieces) :
    Joined grants content pieces (.ok (pieces.flatMap (BlobData.bytes content)))
  | refused {error : IoError} (h : ¬ Granted grants content pieces) :
    Joined grants content pieces (.error error)

/-- What the reader of the pieces has done, and the answers it gave, given the pieces that were read
and those that failed. -/
inductive Progress (grants : Nat → Bool) (content : σ → Bytes) (pieces : List (BlobData σ))
    (good bad : Nat → Prop) : Option ReadParts → List Result → Prop
  | single (hone : pieces.length = 1) (hgood : ¬ good 0) (hbad : ∀ i, ¬ bad i) :
    Progress grants content pieces good bad none []
  | collecting {slots : List (Option Bytes)} (hslots : Slots content pieces good slots)
    (hmany : 1 < pieces.length) (hpending : 0 < slots.countP Option.isNone) (hbad : ∀ i, ¬ bad i) :
    Progress grants content pieces good bad (some ⟨slots.countP Option.isNone, slots, true⟩) []
  | done {parts : Option ReadParts} {answer : Result} (hgood : ∀ i, i < pieces.length → good i)
    (hbad : ∀ i, ¬ bad i) (hanswer : Joined grants content pieces answer) :
    Progress grants content pieces good bad parts [answer]
  | failed {parts : Option ReadParts} {error : IoError}
    (hbad : ∃ i, i < pieces.length ∧ bad i ∧ ¬ good i)
    (hparts : ∀ p, parts = some p → p.complete = false) (hone : parts = none → pieces.length ≤ 1) :
    Progress grants content pieces good bad parts [.error error]

theorem Slots.set (h : Slots content pieces good slots) (hpiece : pieces[i]? = some piece) :
    Slots content pieces (fun j => good j ∨ j = i) (slots.set i (some (piece.bytes content))) where
  length := by rw [List.length_set, h.length]
  full j piece' hpiece' hgood := by
    have hlt := (List.getElem?_eq_some_iff.1 hpiece').1
    rw [List.getElem?_set]
    split
    · subst i
      rw [if_pos (h.length ▸ hlt), Option.mem_unique hpiece hpiece']
    · rename_i hne
      exact h.full j piece' hpiece' (hgood.resolve_right (Ne.symm hne))
  free j hj hgood := by
    rw [getElem?_set_ne fun heq => hgood (.inr heq.symm)]
    exact h.free j hj fun hgood' => hgood (.inl hgood')

theorem countP_set_some {bytes : Bytes} (h : slots[i]? = some none) :
    slots.countP Option.isNone = (slots.set i (some bytes)).countP Option.isNone + 1 := by
  obtain ⟨hlt, hnone⟩ := List.getElem?_eq_some_iff.1 h
  have hpos : 0 < slots.countP Option.isNone :=
    List.countP_pos_iff.2 ⟨none, List.mem_of_getElem? h, rfl⟩
  rw [countP_set hlt, hnone]
  simp only [Option.isNone_none, Option.isNone_some, if_true, Bool.false_eq_true, if_false]
  omega

theorem mapM_some (l : List Bytes) :
    (l.map some).mapM (fun piece => piece.elim (throw Failure.panicked) pure) =
      (.ok l : Except Failure (List Bytes)) := by
  induction l with
  | nil => rfl
  | cons bytes l ih =>
    rw [map_cons, mapM_cons, ih]
    rfl

theorem Slots.eq_map (h : Slots content pieces good slots)
    (hgood : ∀ i, i < pieces.length → good i) :
    slots = (pieces.map (BlobData.bytes content)).map some := by
  refine ext_getElem? fun i => ?_
  rw [getElem?_map, getElem?_map]
  cases hpiece : pieces[i]? with
  | none => simpa [h.length] using hpiece
  | some piece => exact h.full i piece hpiece (hgood i (List.getElem?_eq_some_iff.1 hpiece).1)

/-- Pieces that can be read, and whose bytes fit in memory together. -/
structure Readable (content : σ → Bytes) (pieces : List (BlobData σ)) : Prop where
  piece : ∀ piece ∈ pieces, BlobData.Piece content piece
  length_le : (pieces.flatMap (BlobData.bytes content)).length ≤ usizeMax

/-- All slots are full, so the pieces are joined. -/
theorem Slots.join (h : Slots content pieces good slots) (hmany : 1 < pieces.length)
    (hfull : slots.countP Option.isNone = 0)
    (hlength : (pieces.flatMap (BlobData.bytes content)).length ≤ usizeMax) :
    (∀ i, i < pieces.length → good i) ∧
      ∃ answer, ReadParts.join grants slots = .ok answer ∧ Joined grants content pieces answer := by
  have hgood : ∀ i, i < pieces.length → good i := by
    intro i hi
    by_contra hnot
    have hmem := List.mem_of_getElem? (h.free i hi hnot)
    exact absurd rfl (countP_eq_zero.1 hfull none hmem)
  refine ⟨hgood, ?_⟩
  rw [h.eq_map hgood, ReadParts.join, mapM_some]
  have hfold := foldlM_addLength List.length (pieces.map (BlobData.bytes content))
    (Nat.zero_le usizeMax)
  rw [← List.length_flatten, ← List.flatMap_def, Nat.zero_add, if_pos hlength] at hfold
  refine ⟨_, rfl, ?_⟩
  rw [hfold]
  change Joined grants content pieces (tryReserveExact grants _ >>= fun _ => .ok _)
  cases hreserve : tryReserveExact grants (pieces.flatMap (BlobData.bytes content)).length with
  | ok => exact .bytes fun _ => hreserve
  | error => exact .refused fun hgranted => nomatch hreserve.symm.trans (hgranted hmany)

section Finish

variable {good bad : Nat → Prop} {parts : Option ReadParts} {answers : List Result}

/-- What the completion of a piece changes: the collected pieces and the answers. -/
def Finished (grants : Nat → Bool) (content : σ → Bytes) (pieces : List (BlobData σ))
    (good bad : Nat → Prop) (read : Read σ) (read' : Read σ) : Prop :=
  ∃ parts extra, read' = { read with parts, ready := read.ready ++ extra } ∧
    Progress grants content pieces good bad parts (read.calls ++ read.ready ++ extra)

theorem Finished.unchanged
    (h : Progress grants content pieces good bad read.parts (read.calls ++ read.ready)) :
    Finished grants content pieces good bad read read :=
  ⟨read.parts, [], by rw [append_nil], by rwa [append_nil]⟩

/-- A piece that completes after the first failure changes nothing. -/
theorem finish_taken {p : ReadParts} (hparts : read.parts = some p) (hp : p.complete = false) :
    read.finish grants i result = .ok read := by
  obtain ⟨pieces, parts, started, outstanding, ready, calls⟩ := read
  cases hparts
  simp only [Read.finish, ReadParts.settle, hp]
  rfl

/-- After a failure there is no reader without collected pieces whose piece is still open. -/
theorem Progress.taken_of_failed (hone : parts = none → pieces.length ≤ 1)
    (hbad' : ∃ j, j < pieces.length ∧ bad j ∧ ¬ good j) (hlt : i < pieces.length) (hbad : ¬ bad i) :
    ∃ p, parts = some p := by
  cases parts with
  | some p => exact ⟨p, rfl⟩
  | none =>
    obtain ⟨j, hj, hbadj, -⟩ := hbad'
    have hle := hone rfl
    obtain rfl : i = j := by omega
    exact absurd hbadj hbad

theorem Progress.finish_right
    (h : Progress grants content pieces good bad read.parts (read.calls ++ read.ready))
    (hlength : (pieces.flatMap (BlobData.bytes content)).length ≤ usizeMax)
    (hpiece : pieces[i]? = some piece) (hgood : ¬ good i) (hbad : ¬ bad i) :
    Ensures (fun _ => False) (read.finish grants i (.ok (piece.bytes content)))
      (Finished grants content pieces (fun j => good j ∨ j = i) bad read) := by
  have hlt := (List.getElem?_eq_some_iff.1 hpiece).1
  generalize hparts : read.parts = parts at h
  generalize hanswers : read.calls ++ read.ready = answers at h
  cases h with
  | single hone _ hnone =>
    obtain rfl : i = 0 := by omega
    obtain ⟨only, rfl⟩ := length_eq_one_iff.1 hone
    cases hpiece
    rw [Read.finish, hparts]
    refine ⟨none, [.ok (piece.bytes content)], rfl, ?_⟩
    rw [hanswers]
    have hdone : Progress grants content [piece] (fun j => good j ∨ j = 0) bad none _ :=
      .done (fun j hj => .inr (Nat.lt_one_iff.1 hj)) hnone (.bytes fun hmany => by simp at hmany)
    rwa [flatMap_singleton] at hdone
  | @collecting slots hslots hmany hpending hnone =>
    have hslots' := hslots.set hpiece
    have hcount := @countP_set_some i slots (piece.bytes content) (hslots.free i hlt hgood)
    have hin : i < slots.length ∧ 0 < slots.countP Option.isNone := ⟨hslots.length ▸ hlt, hpending⟩
    rw [Read.finish, hparts]
    simp only [ReadParts.settle, Bool.not_true, Bool.false_eq_true, if_false, if_pos hin]
    rw [hcount]
    split
    · rename_i hrest
      refine ⟨_, [], by rw [append_nil], ?_⟩
      rw [hanswers]
      exact .collecting hslots' hmany (Nat.pos_of_ne_zero hrest) hnone
    · rename_i hrest
      obtain ⟨hall, answer, hjoin, hanswer⟩ := hslots'.join hmany (not_not.1 hrest) hlength
      change Ensures _ (ReadParts.join grants _ >>= _) _
      rw [hjoin]
      refine ⟨_, _, rfl, ?_⟩
      rw [hanswers]
      exact .done hall hnone hanswer
  | done hall => exact absurd (hall i hlt) hgood
  | failed hfail hcomplete hone =>
    obtain ⟨p, rfl⟩ := taken_of_failed hone hfail hlt hbad
    rw [finish_taken hparts (hcomplete p rfl)]
    refine Finished.unchanged ?_
    rw [hparts, hanswers]
    obtain ⟨j, hj, hbadj, hgoodj⟩ := hfail
    refine .failed ⟨j, hj, hbadj, fun hor => ?_⟩ hcomplete hone
    rcases hor with hor | rfl
    · exact hgoodj hor
    · exact hbad hbadj

theorem Progress.finish_wrong {error : IoError}
    (h : Progress grants content pieces good bad read.parts (read.calls ++ read.ready))
    (hpiece : pieces[i]? = some piece) (hgood : ¬ good i) (hbad : ¬ bad i) :
    Ensures (fun _ => False) (read.finish grants i (.error error))
      (Finished grants content pieces good (fun j => bad j ∨ j = i) read) := by
  have hlt := (List.getElem?_eq_some_iff.1 hpiece).1
  have hfail : ∃ j, j < pieces.length ∧ (bad j ∨ j = i) ∧ ¬ good j := ⟨i, hlt, .inr rfl, hgood⟩
  generalize hparts : read.parts = parts at h
  generalize hanswers : read.calls ++ read.ready = answers at h
  cases h with
  | single hone _ hnone =>
    rw [Read.finish, hparts]
    refine ⟨none, [.error error], rfl, ?_⟩
    rw [hanswers]
    exact .failed hfail (fun p hp => by cases hp) fun _ => hone.le
  | collecting =>
    rw [Read.finish, hparts]
    refine ⟨_, [.error error], rfl, ?_⟩
    rw [hanswers]
    exact .failed hfail (fun p hp => by cases hp; rfl) fun hp => by cases hp
  | done hall => exact absurd (hall i hlt) hgood
  | failed hfail' hcomplete hone =>
    obtain ⟨p, rfl⟩ := taken_of_failed hone hfail' hlt hbad
    rw [finish_taken hparts (hcomplete p rfl)]
    refine Finished.unchanged ?_
    rw [hparts, hanswers]
    exact .failed hfail hcomplete hone

end Finish

/-! ## Runs -/

structure Reading (grants : Nat → Bool) (content : σ → Bytes) (pieces : List (BlobData σ))
    (past : List ReadEvent) (read : Read σ) : Prop where
  same : read.pieces = pieces
  started : read.started = past.count .start
  unique : read.outstanding.Nodup
  pending : ∀ i ∈ read.outstanding, i < read.started ∧
    ¬ Correct content pieces past i ∧ ¬ Wrong content pieces past i
  later : ∀ i, read.started ≤ i → ¬ Correct content pieces past i ∧ ¬ Wrong content pieces past i
  progress : Progress grants content pieces (Correct content pieces past)
    (Wrong content pieces past) read.parts (read.calls ++ read.ready)

section
variable (h : Reading grants content pieces past read)
include h

variable {m : Except Failure (Read σ)}

theorem Reading.start (hpieces : Readable content pieces)
    (hstep : read.step grants .start = some m) :
    Ensures (fun _ => False) m (Reading grants content pieces (past ++ [.start])) := by
  obtain ⟨piece, hpiece, rfl⟩ := Option.map_eq_some_iff.1 hstep
  rw [h.same] at hpiece
  have hleaf := (hpieces.piece piece (List.mem_of_getElem? hpiece)).leaf
  have hwrong : Wrong content pieces (past ++ [.start]) = Wrong content pieces past := by
    funext j
    simp [wrong_snoc, Spoilt]
  have hcount : (past ++ [ReadEvent.start]).count .start = past.count .start + 1 := by
    simp [count_append]
  obtain ⟨hgood, hbad⟩ := h.later read.started (Nat.le_refl _)
  cases hbacking : piece.backing with
  | memory memory =>
    have hmemory : piece.asBytes = some (cut memory piece.offset piece.length) := by
      rw [asBytes, hbacking]
    have hcorrect : Correct content pieces (past ++ [.start]) =
        fun j => Correct content pieces past j ∨ j = read.started := by
      simp [correct_start hpiece h.started, hmemory]
    have hbytes : piece.bytes content = cut memory piece.offset piece.length :=
      bytes_of_asBytes hmemory
    dsimp only
    rw [← hbytes]
    refine Ensures.mono (Progress.finish_right h.progress hpieces.length_le hpiece hgood hbad) ?_
    rintro _ ⟨parts, extra, rfl, hprogress⟩
    refine ⟨h.same, ?_, h.unique, fun i hi => ?_, fun i hi => ?_, ?_⟩
    · rw [hcount, ← h.started]
    · obtain ⟨hlt, hgood', hbad'⟩ := h.pending i hi
      rw [hcorrect, hwrong]
      exact ⟨Nat.lt_succ_of_lt hlt, fun hor => hor.elim hgood' hlt.ne, hbad'⟩
    · obtain ⟨hgood', hbad'⟩ := h.later i (Nat.le_of_succ_le hi)
      rw [hcorrect, hwrong]
      exact ⟨fun hor => hor.elim hgood' (Nat.ne_of_gt hi), hbad'⟩
    · rw [hcorrect, hwrong]
      simpa using hprogress
  | source source =>
    have hsource : piece.asBytes = none := by
      rw [asBytes, hbacking]
    have hcorrect : Correct content pieces (past ++ [.start]) = Correct content pieces past := by
      simp [correct_start hpiece h.started, hsource]
    refine ⟨h.same, ?_, ?_, fun i hi => ?_, fun i hi => ?_, ?_⟩
    · rw [hcount, ← h.started]
    · refine nodup_append.2 ⟨h.unique, nodup_singleton _, ?_⟩
      intro a ha b hb
      rw [mem_singleton.1 hb]
      exact (h.pending a ha).1.ne
    · rw [hcorrect, hwrong]
      rcases mem_append.1 hi with hi | hi
      · obtain ⟨hlt, hrest⟩ := h.pending i hi
        exact ⟨Nat.lt_succ_of_lt hlt, hrest⟩
      · obtain rfl := mem_singleton.1 hi
        exact ⟨Nat.lt_succ_self _, hgood, hbad⟩
    · rw [hcorrect, hwrong]
      exact h.later i (Nat.le_of_succ_le hi)
    · rw [hcorrect, hwrong]
      exact h.progress
  | parts parts => exact absurd hbacking (hleaf parts)

/-- The source of the piece `i` completes it, whatever this makes of the piece. -/
theorem Reading.completed (hi : i ∈ read.outstanding) (hpiece : pieces[i]? = some piece)
    {read' : Read σ}
    (hfinish : Finished grants content pieces
      (Correct content pieces (past ++ [.complete i result]))
      (Wrong content pieces (past ++ [.complete i result]))
      { read with outstanding := read.outstanding.erase i } read') :
    Reading grants content pieces (past ++ [.complete i result]) read' := by
  obtain ⟨parts, extra, rfl, hprogress⟩ := hfinish
  have hopen : ∀ j, j ≠ i → ¬ Correct content pieces past j ∧ ¬ Wrong content pieces past j →
      ¬ Correct content pieces (past ++ [.complete i result]) j ∧
        ¬ Wrong content pieces (past ++ [.complete i result]) j := by
    intro j hne hopen
    simpa [correct_complete hpiece, wrong_complete hpiece, hne] using hopen
  refine ⟨h.same, ?_, h.unique.erase i, fun j hj => ?_, fun j hj => ?_, ?_⟩
  · rw [count_append, h.started]
    rfl
  · obtain ⟨hne, hmem⟩ := (h.unique.mem_erase_iff).1 hj
    obtain ⟨hlt, hpending⟩ := h.pending j hmem
    exact ⟨hlt, hopen j hne hpending⟩
  · exact hopen j (Nat.ne_of_gt ((h.pending i hi).1.trans_le hj)) (h.later j hj)
  · simpa using hprogress

theorem Reading.complete (hpieces : Readable content pieces)
    (hhonest : Honest content pieces (.complete i result))
    (hstep : read.step grants (.complete i result) = some m) :
    Ensures (fun _ => False) m (Reading grants content pieces (past ++ [.complete i result])) := by
  rw [Read.step] at hstep
  split at hstep
  · rename_i hi
    obtain ⟨piece, hpiece, rfl⟩ := Option.map_eq_some_iff.1 hstep
    rw [h.same] at hpiece
    have hfits := (hpieces.piece piece (List.mem_of_getElem? hpiece)).toFits
    obtain ⟨-, hgood, hbad⟩ := h.pending i hi
    by_cases hright : result = .ok (piece.bytes content)
    · subst hright
      rw [checkLength_right hfits]
      refine Ensures.mono (Progress.finish_right h.progress hpieces.length_le hpiece hgood hbad) ?_
      refine fun read' hfinish => h.completed hi hpiece ?_
      simpa [correct_complete hpiece, wrong_complete hpiece] using hfinish
    · obtain ⟨error, herror⟩ := checkLength_wrong hpiece hhonest hright
      rw [herror]
      refine Ensures.mono (Progress.finish_wrong h.progress hpiece hgood hbad) ?_
      refine fun read' hfinish => h.completed hi hpiece ?_
      simpa [correct_complete hpiece, wrong_complete hpiece, hright] using hfinish
  · cases hstep

theorem Reading.call (hstep : read.step grants .call = some m) :
    Ensures (fun _ => False) m (Reading grants content pieces (past ++ [.call])) := by
  have hcorrect : Correct content pieces (past ++ [.call]) = Correct content pieces past := by
    funext j
    simp [correct_snoc, Gained]
  have hwrong : Wrong content pieces (past ++ [.call]) = Wrong content pieces past := by
    funext j
    simp [wrong_snoc, Spoilt]
  rw [Read.step] at hstep
  cases hready : read.ready with
  | nil =>
    rw [hready] at hstep
    cases hstep
  | cons result ready =>
    rw [hready] at hstep
    cases hstep
    refine ⟨h.same, ?_, h.unique, ?_, ?_, ?_⟩
    · rw [count_append, h.started]
      rfl
    · rw [hcorrect, hwrong]
      exact h.pending
    · rw [hcorrect, hwrong]
      exact h.later
    · rw [hcorrect, hwrong]
      simpa [hready] using h.progress

theorem Reading.step (hpieces : Readable content pieces)
    (hhonest : Honest content pieces event) (hstep : read.step grants event = some m) :
    Ensures (fun _ => False) m (Reading grants content pieces (past ++ [event])) := by
  cases event with
  | start => exact h.start hpieces hstep
  | complete i result => exact h.complete hpieces hhonest hstep
  | call => exact h.call hstep

end

/-- What a read has answered after the given events. -/
structure Answered (grants : Nat → Bool) (content : σ → Bytes) (pieces : List (BlobData σ))
    (events : List ReadEvent) (read : Read σ) : Prop where
  once : (read.calls ++ read.ready).length ≤ 1
  bytes : ∀ bytes, .ok bytes ∈ read.calls ++ read.ready →
    bytes = pieces.flatMap (BlobData.bytes content)
  succeeded : (∃ bytes, .ok bytes ∈ read.calls ++ read.ready) ↔
    (∀ i, i < pieces.length → Correct content pieces events i) ∧ Granted grants content pieces
  failed : (∃ error, .error error ∈ read.calls ++ read.ready) ↔
    (∃ i, Wrong content pieces events i) ∨
      (∀ i, i < pieces.length → Correct content pieces events i) ∧ ¬ Granted grants content pieces
  noPanic : ∀ event failure, Honest content pieces event →
    read.step grants event ≠ some (.error failure)

theorem Reading.answered (h : Reading grants content pieces past read)
    (hpieces : Readable content pieces) :
    Answered grants content pieces past read := by
  have hpanic : ∀ event failure, Honest content pieces event →
      read.step grants event ≠ some (.error failure) := fun event failure hhonest hstep =>
    h.step hpieces hhonest hstep
  have hprogress := h.progress
  generalize read.parts = parts at hprogress
  generalize hanswers : read.calls ++ read.ready = answers at hprogress
  -- an open read has not answered, since some piece is neither read nor failed
  have hopen (hnone : answers = []) (hbad : ∀ i, ¬ Wrong content pieces past i)
      (hnot : ¬ ∀ i, i < pieces.length → Correct content pieces past i) :
      Answered grants content pieces past read := by
    rw [← hanswers] at hnone
    exact ⟨by simp [hnone], by simp [hnone], by simp [hnone, hnot], by simp [hnone, hnot, hbad],
      hpanic⟩
  cases hprogress with
  | single hone hgood hbad => exact hopen rfl hbad fun hall => hgood (hall 0 (by omega))
  | @collecting slots hslots _ hpending hbad =>
    refine hopen rfl hbad fun hall => ?_
    rw [hslots.eq_map hall, countP_eq_zero.2 (by simp)] at hpending
    exact Nat.lt_irrefl 0 hpending
  | done hall hbad hanswer =>
    cases hanswer with
    | bytes hgranted =>
      refine ⟨by simp [hanswers], by simp [hanswers], ?_, ?_, hpanic⟩
      · rw [hanswers]
        exact iff_of_true (by simp) ⟨hall, hgranted⟩
      · simp [hanswers, hbad, hgranted]
    | refused hrefused =>
      refine ⟨by simp [hanswers], by simp [hanswers], by simp [hanswers, hrefused], ?_, hpanic⟩
      rw [hanswers]
      exact iff_of_true (by simp) (.inr ⟨hall, hrefused⟩)
  | failed hbad _ _ =>
    obtain ⟨j, hj, hwrong, hgood⟩ := hbad
    refine ⟨by simp [hanswers], by simp [hanswers], ?_, ?_, hpanic⟩
    · rw [hanswers]
      exact iff_of_false (by simp) fun hall => hgood (hall.1 j hj)
    · rw [hanswers]
      exact iff_of_true (by simp) (.inl ⟨j, hwrong⟩)

theorem not_correct_nil : ¬ Correct content pieces [] i := by
  rintro ⟨piece, -, hstart | hcomplete⟩
  · exact Nat.not_lt_zero _ hstart.2
  · cases hcomplete

theorem not_wrong_nil : ¬ Wrong content pieces [] i := by
  rintro ⟨piece, result, -, hcomplete, -⟩
  cases hcomplete

theorem Reading.init {parts : Option ReadParts} {ready : List Result}
    (h : Progress grants content pieces (Correct content pieces []) (Wrong content pieces [])
      parts ready) :
    Reading grants content pieces [] ⟨pieces, parts, 0, [], ready, []⟩ :=
  ⟨rfl, rfl, nodup_nil, fun _ hi => absurd hi not_mem_nil,
    fun _ _ => ⟨not_correct_nil, not_wrong_nil⟩, h⟩

/-- A read of a valid range starts with the pieces of the range. -/
theorem read_spec {data : BlobData σ} {start stop : Nat} (h : data.Sound content)
    (hstart : start ≤ stop) (hstop : stop ≤ data.length) :
    Ensures (fun _ => False) (data.read start stop) fun read =>
      read.pieces.flatMap (BlobData.bytes content) =
          cut (data.bytes content) start (stop - start) ∧
        (∀ piece ∈ read.pieces, BlobData.Piece content piece) ∧
        Reading grants content read.pieces [] read := by
  have hslice := h.slice hstart hstop
  rw [BlobData.read, if_neg (by omega), slice_eq hstart hstop]
  refine (leaves_spec hslice).bind ?_
  rw [bytes_slice hstart hstop]
  rintro pieces ⟨hbytes, hpieces⟩
  split
  · refine ⟨hbytes, hpieces, .init (.done (fun i hi => ?_) (fun _ => not_wrong_nil) (.bytes ?_))⟩
    · exact absurd hi (Nat.not_lt_zero i)
    · exact fun hmany => absurd hmany (Nat.not_lt_zero 1)
  · exact ⟨hbytes, hpieces, .init (.single rfl not_correct_nil fun _ => not_wrong_nil)⟩
  · rename_i hnil hone
    refine ⟨hbytes, hpieces, .init ?_⟩
    have hcount : (replicate pieces.length (none : Option Bytes)).countP Option.isNone =
        pieces.length := by
      rw [countP_replicate, Option.isNone_none, if_pos rfl]
    have hslots : Slots content pieces (Correct content pieces [])
        (replicate pieces.length none) :=
      ⟨length_replicate, fun _ _ _ hgood => absurd hgood not_correct_nil,
        fun i hi _ => by rw [getElem?_replicate, if_pos hi]⟩
    have hmany : 1 < pieces.length := by
      rcases pieces with _ | ⟨piece, _ | _⟩
      · exact absurd rfl hnil
      · exact absurd rfl (hone piece)
      · simp
    have hstart : Progress grants content pieces _ (Wrong content pieces []) _ [] :=
      .collecting hslots hmany (hcount.symm ▸ Nat.zero_lt_of_lt hmany) fun _ => not_wrong_nil
    rwa [hcount] at hstart

/-- What a run of a read that starts with the given pieces answers. -/
theorem Reading.trace (h : Reading grants content pieces [] read)
    (hpieces : Readable content pieces)
    {events : List ReadEvent} {read' : Read σ} (htrace : Trace (Read.Step grants) read events read')
    (hhonest : ∀ event ∈ events, Honest content pieces event) :
    Answered grants content pieces events read' := by
  refine Reading.answered (htrace.history ?_ h) hpieces
  intro past read event read' hmem hreading hstep
  exact hreading.step hpieces (hhonest event hmem) hstep

/-- Blob composition is list composition, and reads return the bytes denoted. -/
theorem blob_composition (grants : Nat → Bool) (content : σ → Bytes) :
    (∀ data : BlobData σ, data.Built content →
      data.len = (data.bytes content).length ∧
      (∀ parts, data.backing = .parts parts → ∀ part ∈ parts, part.Leaf) ∧
      (∃ pieces, data.leaves = .ok pieces ∧
        pieces.flatMap (BlobData.bytes content) = data.bytes content ∧
        ∀ piece ∈ pieces, piece.Leaf ∧ piece.isEmpty = false) ∧
      ∀ start stop, start ≤ stop → stop ≤ data.len →
        (∃ part, data.slice start stop = .ok part ∧
          part.bytes content = cut (data.bytes content) start (stop - start)) ∧
        ∃ read, data.read start stop = .ok read ∧
          read.pieces.flatMap (BlobData.bytes content) =
            cut (data.bytes content) start (stop - start) ∧
          ∀ events read', Trace (Read.Step grants) read events read' →
            (∀ event ∈ events, Honest content read.pieces event) →
            Answered grants content read.pieces events read') ∧
    ∀ parts : List (BlobData σ), (∀ part ∈ parts, part.Built content) →
      (∃ data, concat grants parts = .ok data ∧
        data.bytes content = parts.flatMap (BlobData.bytes content)) ∨
      ∃ failure, concat grants parts = .error failure ∧
        BlobData.Refused grants (parts.map BlobData.len).sum failure := by
  refine ⟨fun data hbuilt => ?_, fun parts hparts => ?_⟩
  · have h := hbuilt.sound
    obtain ⟨pieces, hleaves, hbytes, hpieces⟩ := (leaves_spec h).exists_ok
    refine ⟨h.length_bytes.symm, fun parts hparts part hpart => (h.parts parts hparts part hpart).1,
      ⟨pieces, hleaves, hbytes, fun piece hpiece => ?_⟩, fun start stop hstart hstop => ⟨?_, ?_⟩⟩
    · exact ⟨(hpieces piece hpiece).leaf, (hpieces piece hpiece).nonempty⟩
    · exact ⟨_, slice_eq hstart hstop, bytes_slice hstart hstop⟩
    · obtain ⟨read, hread, hdenoted, hpieces, hreading⟩ := (read_spec h hstart hstop).exists_ok
      refine ⟨read, hread, hdenoted, fun events read' htrace hhonest => ?_⟩
      refine hreading.trace ⟨hpieces, ?_⟩ htrace hhonest
      have hlength := h.length_bytes
      have hbounded := h.bounded
      unfold BlobData.len at hlength hstop
      rw [hdenoted, length_cut (by omega)]
      omega
  · have hconcat := concat_spec grants fun part hpart => (hparts part hpart).sound
    cases hresult : concat grants parts with
    | ok data =>
      rw [hresult] at hconcat
      exact .inl ⟨data, rfl, hconcat.2⟩
    | error failure =>
      rw [hresult] at hconcat
      exact .inr ⟨failure, rfl, hconcat⟩

/-- Two sources complete in reverse order. -/
theorem blob_composition_reversed :
    let content : Bool → Bytes := fun second => if second then [116, 119, 111] else [111, 110, 101]
    let pieces : List (BlobData Bool) := [.fromSource false 3, .ofBytes [124], .fromSource true 3]
    let read : Read Bool := ⟨pieces, some ⟨3, [none, none, none], true⟩, 0, [], [], []⟩
    let events : List ReadEvent := [.start, .start, .start, .complete 2 (.ok [116, 119, 111]),
      .complete 0 (.ok [111, 110, 101]), .call]
    let read' : Read Bool :=
      ⟨pieces, some ⟨0, [], false⟩, 3, [], [], [.ok [111, 110, 101, 124, 116, 119, 111]]⟩
    concat (fun _ => true) pieces = .ok ⟨.parts pieces, 0, 7⟩ ∧
      BlobData.read ⟨.parts pieces, 0, 7⟩ 0 7 = .ok read ∧
      Trace (Read.Step fun _ => true) read events read' ∧
      Answered (fun _ => true) content pieces events read' := by
  intro content pieces read events read'
  have hdata : concat (fun _ => true) pieces = .ok ⟨.parts pieces, 0, 7⟩ := rfl
  have hbuilt : BlobData.Built content ⟨.parts pieces, 0, 7⟩ := by
    refine .concat (fun part hpart => ?_) hdata
    simp only [pieces, mem_cons, not_mem_nil, or_false] at hpart
    rcases hpart with rfl | rfl | rfl
    · exact .source (by decide) (by decide)
    · exact .memory (by decide)
    · exact .source (by decide) (by decide)
  obtain ⟨-, -, -, hranges⟩ := (blob_composition (fun _ => true) content).1 _ hbuilt
  obtain ⟨-, read₀, hread, -, hruns⟩ := hranges 0 7 (by decide) (by decide)
  obtain rfl : read₀ = read := (Except.ok.inj hread).symm
  have htrace : Trace (Read.Step fun _ => true) read events read' := by
    iterate 6 refine .cons (show Read.Step _ _ _ _ from rfl) ?_
    exact .nil _
  refine ⟨hdata, rfl, htrace, hruns _ _ htrace ?_⟩
  intro event hevent
  simp only [events, mem_cons, not_mem_nil, or_false] at hevent
  rcases hevent with rfl | rfl | rfl | rfl | rfl | rfl
  · trivial
  · trivial
  · trivial
  · intro piece hpiece
    cases hpiece
    exact .inl rfl
  · intro piece hpiece
    cases hpiece
    exact .inl rfl
  · trivial

/-- Both sources complete with their bytes, and the vector that joins them is not granted: the
completion is called with an error. -/
theorem read_not_granted :
    let content : Bool → Bytes := fun second => if second then [2] else [1]
    let pieces : List (BlobData Bool) := [.fromSource false 1, .fromSource true 1]
    let read : Read Bool := ⟨pieces, some ⟨2, [none, none], true⟩, 0, [], [], []⟩
    let events : List ReadEvent :=
      [.start, .start, .complete 0 (.ok [1]), .complete 1 (.ok [2]), .call]
    let read' : Read Bool := ⟨pieces, some ⟨0, [], false⟩, 2, [], [],
      [.error ⟨.other, "Unable to allocate Blob bytes"⟩]⟩
    BlobData.read ⟨.parts pieces, 0, 2⟩ 0 2 = .ok read ∧
      Trace (Read.Step fun _ => false) read events read' ∧
      ∀ i, i < pieces.length → Correct content pieces events i := by
  intro content pieces read events read'
  refine ⟨rfl, ?_, fun i hi => ?_⟩
  · iterate 5 refine .cons (show Read.Step _ _ _ _ from rfl) ?_
    exact .nil _
  · have hcases : i = 0 ∨ i = 1 := Nat.le_one_iff_eq_zero_or_eq_one.1 (Nat.le_of_lt_succ hi)
    rcases hcases with rfl | rfl
    · exact ⟨_, rfl, .inr (by decide)⟩
    · exact ⟨_, rfl, .inr (by decide)⟩

end Moli.FileApi
