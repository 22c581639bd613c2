import Mathlib.Algebra.Order.Ring.Int
import Mathlib.Data.List.DropRight

/-!
# Texts

A text is a list of characters. White space is the `White_Space` property of Unicode, letter case is
that of ASCII, and the pieces of a text are those of `List.splitOn`.
-/

namespace Lib.Text

open List

variable {s t : List Char}

def isWhiteSpace (c : Char) : Bool :=
  let n := c.toNat
  (9 ≤ n && n ≤ 13) || n = 32 || n = 0x85 || n = 0xA0 || n = 0x1680 || (0x2000 ≤ n && n ≤ 0x200A) ||
    n = 0x2028 || n = 0x2029 || n = 0x202F || n = 0x205F || n = 0x3000

/-- Without the characters on both sides that satisfy `p`. -/
def trimMatches (p : Char → Bool) (s : List Char) : List Char := (s.dropWhile p).rdropWhile p

def trim (s : List Char) : List Char := trimMatches isWhiteSpace s

def toAsciiLowercase (s : List Char) : List Char := s.map Char.toLower

def eqIgnoreAsciiCase (s t : List Char) : Bool := toAsciiLowercase s = toAsciiLowercase t

/-- The text before and after the first `c`. -/
def splitOnce (c : Char) (s : List Char) : Option (List Char × List Char) :=
  if c ∈ s then some (s.takeWhile (· ≠ c), (s.dropWhile (· ≠ c)).tail) else none

def stripPrefix (start s : List Char) : Option (List Char) :=
  if start.isPrefixOf s then some (s.drop start.length) else none

def stripSuffix (ending s : List Char) : Option (List Char) :=
  if ending.isSuffixOf s then some (s.take (s.length - ending.length)) else none

/-- A decimal number, possibly with a plus sign in front, that is below a bound. -/
def parseBelow (bound : Nat) (s : List Char) : Option Nat :=
  let digits := match s with
    | '+' :: rest => if rest.isEmpty then s else rest
    | _ => s
  if digits.isEmpty || !digits.all Char.isDigit then none
  else
    let value := digits.foldl (fun n c => n * 10 + (c.toNat - 48)) 0
    if value < bound then some value else none

/-- The bytes of an ASCII text. -/
def ascii (s : String) : List UInt8 := s.toList.map fun c => UInt8.ofNat c.toNat

/-! ## Letter case -/

theorem eqIgnoreAsciiCase_iff :
    eqIgnoreAsciiCase s t = true ↔ toAsciiLowercase s = toAsciiLowercase t :=
  decide_eq_true_iff

/-! ## White space around a fixed character -/

theorem dropWhile_append_cons {p : Char → Bool} {c : Char} (hc : p c = false) :
    (s ++ c :: t).dropWhile p = s.dropWhile p ++ c :: t := by
  induction s with
  | nil => simp [hc]
  | cons d s ih =>
    cases hd : p d with
    | true => simp [hd, ih]
    | false => simp [hd]

theorem rdropWhile_append_cons {p : Char → Bool} {c : Char} (hc : p c = false) :
    (s ++ c :: t).rdropWhile p = s ++ c :: t.rdropWhile p := by
  have hreverse : (s ++ c :: t).reverse = t.reverse ++ c :: s.reverse := by simp
  rw [rdropWhile, hreverse, dropWhile_append_cons hc, rdropWhile]
  simp

theorem trim_append_cons {c : Char} (hc : isWhiteSpace c = false) :
    trim (s ++ c :: t) = s.dropWhile isWhiteSpace ++ c :: t.rdropWhile isWhiteSpace := by
  rw [trim, trimMatches, dropWhile_append_cons hc, rdropWhile_append_cons hc]

theorem mem_trim {c : Char} (hc : isWhiteSpace c = false) (h : c ∈ s) : c ∈ trim s := by
  obtain ⟨before, after, rfl⟩ := append_of_mem h
  rw [trim_append_cons hc]
  exact mem_append_right _ mem_cons_self

theorem splitOnce_append_cons {c : Char} (h : c ∉ s) : splitOnce c (s ++ c :: t) = some (s, t) := by
  have hne : ∀ d ∈ s, decide (d ≠ c) = true := by
    intro d hd
    rw [decide_eq_true_iff]
    rintro rfl
    exact h hd
  have htake : (s ++ c :: t).takeWhile (· ≠ c) = s := by
    rw [takeWhile_append_of_pos hne]
    simp
  have hdrop : (s ++ c :: t).dropWhile (· ≠ c) = c :: t := by
    rw [dropWhile_append_of_pos hne]
    simp
  rw [splitOnce, if_pos (by simp), htake, hdrop]
  rfl

/-! ## Pieces around a fixed character -/

section Pieces

variable {c d : Char} {good : List Char → Bool}

theorem modifyHead_nil_append (pieces : List (List Char)) :
    pieces.modifyHead (([] : List Char) ++ ·) = pieces := by
  cases pieces <;> rfl

/-- Pieces that contain `d` do not count, so the piece around it is left out. -/
theorem any_pieces_append_cons (hgood : ∀ piece, d ∈ piece → good piece = false) (hd : d ≠ c)
    (first s t : List Char) :
    ((s ++ d :: t).splitOn c |>.modifyHead (first ++ ·)).any good =
      (((s.splitOn c).modifyHead (first ++ ·)).dropLast.any good ||
        (t.splitOn c).tail.any good) := by
  induction s generalizing first with
  | nil =>
    rw [nil_append, splitOn_cons_eq_if_modifyHead, if_neg (by simpa using hd)]
    cases hpieces : t.splitOn c with
    | nil => exact (splitOn_ne_nil _ _ hpieces).elim
    | cons head rest =>
      have hhead : good (first ++ d :: head) = false := hgood _ (by simp)
      simp [hhead]
  | cons e s ih =>
    rw [cons_append, splitOn_cons_eq_if_modifyHead, splitOn_cons_eq_if_modifyHead]
    by_cases he : e = c
    · have hrest := ih []
      simp only [modifyHead_nil_append] at hrest
      simp only [he, BEq.rfl, if_true, modifyHead_cons, any_cons]
      rw [dropLast_cons_of_ne_nil (splitOn_ne_nil _ _), any_cons, Bool.or_assoc, ← hrest]
    · have hrest := ih (first ++ [e])
      have hne : ¬(e == c) = true := by simpa using he
      simpa only [if_neg hne, modifyHead_modifyHead, Function.comp_def, append_assoc,
        singleton_append] using hrest

theorem any_splitOn_append_cons (hgood : ∀ piece, d ∈ piece → good piece = false) (hd : d ≠ c)
    (s t : List Char) :
    ((s ++ d :: t).splitOn c).any good =
      ((s.splitOn c).dropLast.any good || (t.splitOn c).tail.any good) := by
  simpa only [modifyHead_nil_append] using any_pieces_append_cons hgood hd [] s t

theorem any_modifyHead (hgood : ∀ piece, d ∈ piece → good piece = false)
    (pieces : List (List Char)) :
    (pieces.modifyHead ([d] ++ ·)).any good = pieces.tail.any good := by
  cases pieces with
  | nil => rfl
  | cons piece rest =>
    have hpiece : good ([d] ++ piece) = false := hgood _ (by simp)
    rw [modifyHead_cons, any_cons, hpiece, Bool.false_or, tail_cons]

theorem dropLast_modifyHead {f : List Char → List Char} (pieces : List (List Char)) :
    (pieces.modifyHead f).dropLast = pieces.dropLast.modifyHead f := by
  match pieces with
  | [] | [_] | _ :: _ :: _ => rfl

theorem any_tail_splitOn_append_cons (hgood : ∀ piece, d ∈ piece → good piece = false) (hd : d ≠ c)
    (s t : List Char) :
    ((s ++ d :: t).splitOn c).tail.any good =
      ((s.splitOn c).dropLast.tail.any good || (t.splitOn c).tail.any good) := by
  have h := any_pieces_append_cons hgood hd [d] s t
  rwa [any_modifyHead hgood, dropLast_modifyHead, any_modifyHead hgood] at h

end Pieces

end Lib.Text
