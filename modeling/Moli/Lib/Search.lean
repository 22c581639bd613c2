import Mathlib.Data.List.Infix
import Mathlib.Algebra.Order.Ring.Int
import Mathlib.Data.List.Basic

/-!
# Finding a list in a list

`findSub needle hay` is the first place at which `needle` stands in `hay`. It is found wherever it
stands (`exists_findSub`), and what comes after the first place contains what comes after any other
(`drop_findSub`). What a pattern with a wildcard denotes is said character by character (`Denotes`)
and by the pieces between the wildcards (`Fits`); the two agree (`denotes_iff_fits`).
-/

namespace Lib

variable {α : Type*} [DecidableEq α] {needle hay : List α} {i : Nat}

def findSub (needle : List α) : List α → Option Nat
  | [] => if needle.isPrefixOf [] then some 0 else none
  | x :: hay =>
    if needle.isPrefixOf (x :: hay) then some 0 else (findSub needle hay).map (· + 1)

theorem findSub_of_isPrefix (h : needle <+: hay) : findSub needle hay = some 0 := by
  cases hay with
  | nil | cons => exact if_pos (List.isPrefixOf_iff_prefix.mpr h)

theorem findSub_cons (x : α) (h : ¬needle <+: x :: hay) :
    findSub needle (x :: hay) = (findSub needle hay).map (· + 1) :=
  if_neg fun hprefix => h (List.isPrefixOf_iff_prefix.mp hprefix)

/-- The needle stands where it is found. -/
theorem findSub_split (h : findSub needle hay = some i) :
    ∃ before after, hay = before ++ needle ++ after ∧ before.length = i := by
  induction hay generalizing i with
  | nil =>
    unfold findSub at h
    split at h
    next hprefix =>
      cases h
      obtain rfl := List.prefix_nil.mp (List.isPrefixOf_iff_prefix.mp hprefix)
      exact ⟨[], [], rfl, rfl⟩
    · cases h
  | cons x hay ih =>
    by_cases hprefix : needle <+: x :: hay
    · rw [findSub_of_isPrefix hprefix] at h
      cases h
      obtain ⟨after, hafter⟩ := hprefix
      exact ⟨[], after, hafter.symm, rfl⟩
    · rw [findSub_cons x hprefix, Option.map_eq_some_iff] at h
      obtain ⟨k, hk, rfl⟩ := h
      obtain ⟨before, after, rfl, rfl⟩ := ih hk
      exact ⟨x :: before, after, rfl, rfl⟩

theorem exists_findSub {before after : List α} (h : hay = before ++ needle ++ after) :
    ∃ i, findSub needle hay = some i ∧ i ≤ before.length := by
  induction before generalizing hay with
  | nil =>
    refine ⟨0, findSub_of_isPrefix ⟨after, ?_⟩, Nat.le_refl _⟩
    rw [h, List.nil_append]
  | cons x before ih =>
    subst h
    by_cases hprefix : needle <+: x :: (before ++ needle ++ after)
    · exact ⟨0, findSub_of_isPrefix hprefix, Nat.zero_le _⟩
    · obtain ⟨i, hi, hle⟩ := ih rfl
      refine ⟨i + 1, ?_, Nat.succ_le_succ hle⟩
      rw [List.cons_append, List.cons_append, findSub_cons x hprefix, hi]
      rfl

/-- What follows the needle at any place ends what follows it at the first. -/
theorem drop_findSub {before after : List α} (h : hay = before ++ needle ++ after)
    (hi : findSub needle hay = some i) : ∃ run, hay.drop (i + needle.length) = run ++ after := by
  obtain ⟨j, hj, hle⟩ := exists_findSub h
  obtain rfl := Option.some.inj (hi.symm.trans hj)
  refine ⟨(before ++ needle).drop (i + needle.length), ?_⟩
  have hlength : i + needle.length ≤ (before ++ needle).length := by
    rw [List.length_append]
    omega
  rw [h, List.drop_append_of_le_length hlength]

end Lib

namespace Lib.Glob

variable {α : Type*} {star : α} {pattern text : List α}

/-- A wildcard stands for any run, every other element for itself. -/
inductive Denotes (star : α) : List α → List α → Prop where
  | nil : Denotes star [] []
  | char {c : α} {pattern text : List α} (hc : c ≠ star) (h : Denotes star pattern text) :
    Denotes star (c :: pattern) (c :: text)
  | wild (run : List α) {pattern text : List α} (h : Denotes star pattern text) :
    Denotes star (star :: pattern) (run ++ text)

/-- The pieces stand in the text in order, the first at its start and the last at its end. -/
inductive Fits : List (List α) → List α → Prop where
  | last (piece : List α) : Fits [piece] piece
  | next (piece run : List α) {second : List α} {pieces : List (List α)} {text : List α}
    (h : Fits (second :: pieces) text) : Fits (piece :: second :: pieces) (piece ++ (run ++ text))

variable {pieces : List (List α)}

theorem Fits.cons_head {c : α} {piece : List α} :
    Fits ((c :: piece) :: pieces) (c :: text) ↔ Fits (piece :: pieces) text := by
  constructor
  · intro h
    generalize htext : c :: text = whole at h
    cases h with
    | last =>
      cases htext
      exact .last _
    | next _ run h =>
      cases htext
      exact .next _ run h
  · intro h
    cases h with
    | last => exact .last _
    | next _ run h => exact .next (c :: piece) run h

theorem Fits.exists_cons {c : α} {piece : List α} (h : Fits ((c :: piece) :: pieces) text) :
    ∃ rest, text = c :: rest := by
  cases h with
  | last | next => exact ⟨_, rfl⟩

theorem Fits.nil_cons {second : List α} :
    Fits ([] :: second :: pieces) text ↔ ∃ run rest, text = run ++ rest ∧
      Fits (second :: pieces) rest := by
  constructor
  · intro h
    cases h with
    | next _ run h => exact ⟨run, _, rfl, h⟩
  · rintro ⟨run, rest, rfl, h⟩
    exact .next [] run h

theorem denotes_iff_fits [DecidableEq α] :
    Denotes star pattern text ↔ Fits (pattern.splitOn star) text := by
  induction pattern generalizing text with
  | nil =>
    constructor
    · intro h
      cases h
      exact .last []
    · intro h
      cases h
      exact .nil
  | cons c pattern ih =>
    obtain ⟨piece, pieces, hpieces⟩ := List.exists_cons_of_ne_nil (List.splitOn_ne_nil star pattern)
    rw [List.splitOn_cons_eq_if_modifyHead]
    by_cases hc : c = star
    · subst hc
      rw [if_pos BEq.rfl, hpieces, Fits.nil_cons, ← hpieces]
      constructor
      · intro h
        cases h with
        | char hne => exact absurd rfl hne
        | wild run h => exact ⟨run, _, rfl, ih.mp h⟩
      · rintro ⟨run, rest, rfl, h⟩
        exact .wild run (ih.mpr h)
    · rw [if_neg (by simpa using hc), hpieces]
      rw [hpieces] at ih
      constructor
      · intro h
        cases h with
        | char _ h => exact Fits.cons_head.mpr (ih.mp h)
        | wild => exact absurd rfl hc
      · intro h
        obtain ⟨rest, rfl⟩ := h.exists_cons
        exact .char hc (ih.mpr (Fits.cons_head.mp h))

end Lib.Glob
