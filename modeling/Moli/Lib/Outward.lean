import Mathlib.Data.List.Basic
import Mathlib.Data.Nat.Dist
import Mathlib.Order.Interval.Set.OrdConnected

/-!
# Searching outwards from a position

`outward p l n` searches a list from position `n` backwards and then from the next position
forwards. Where the positions that satisfy `p` have no gap, what it finds is nearest to `n`
(`outward_nearest`).
-/

namespace Lib

open List

variable {α : Type*} {p : α → Bool} {l : List α} {n : Nat} {a : α}

def outward (p : α → Bool) (l : List α) (n : Nat) : Option α :=
  ((l.take (n + 1)).reverse.find? p).or ((l.drop (n + 1)).find? p)

/-- The positions of a list with a property. -/
def places (p : α → Bool) (l : List α) : Set Nat := {i | ∃ a, l[i]? = some a ∧ p a = true}

theorem mem_places {i : Nat} : i ∈ places p l ↔ ∃ a, l[i]? = some a ∧ p a = true := Iff.rfl

theorem outward_eq_none : outward p l n = none ↔ ∀ a ∈ l, p a = false := by
  simp only [outward, Option.or_eq_none_iff, find?_eq_none, mem_reverse, Bool.not_eq_true]
  constructor
  · rintro ⟨hback, hforth⟩ a ha
    rw [← take_append_drop (n + 1) l] at ha
    rcases mem_append.1 ha with ha | ha
    · exact hback a ha
    · exact hforth a ha
  · intro hall
    exact ⟨fun a ha => hall a (mem_of_mem_take ha), fun a ha => hall a (mem_of_mem_drop ha)⟩

/-- Backwards the search stops at the last position up to `n`. -/
theorem find?_reverse_take (hn : n < l.length)
    (h : (l.take (n + 1)).reverse.find? p = some a) :
    ∃ i ≤ n, l[i]? = some a ∧ p a = true ∧ ∀ j ∈ places p l, j ≤ n → j ≤ i := by
  obtain ⟨hp, k, hk, hget, hbefore⟩ := find?_eq_some_iff_getElem.1 h
  have hlen : (l.take (n + 1)).length = n + 1 := by
    rw [length_take]
    omega
  have hat : l[n - k]? = some a := by
    rw [getElem_reverse, getElem_take] at hget
    rw [← hget, getElem?_eq_getElem (by omega)]
    congr 2
    omega
  refine ⟨n - k, by omega, hat, hp, ?_⟩
  rintro j ⟨b, hb, hpb⟩ hj
  by_contra hgt
  have hbefore' := hbefore (n - j) (by omega)
  rw [getElem_reverse, getElem_take] at hbefore'
  have hsame : l[(l.take (n + 1)).length - 1 - (n - j)]? = some b := by
    rw [hlen, show n + 1 - 1 - (n - j) = j by omega, hb]
  rw [getElem?_eq_some_iff] at hsame
  obtain ⟨_, hsame⟩ := hsame
  rw [hsame, hpb] at hbefore'
  cases hbefore'

/-- Forwards the search stops at the first position after `n`. -/
theorem find?_drop (h : (l.drop (n + 1)).find? p = some a) :
    ∃ i > n, l[i]? = some a ∧ p a = true ∧ ∀ j ∈ places p l, n < j → i ≤ j := by
  obtain ⟨hp, k, hk, hget, hbefore⟩ := find?_eq_some_iff_getElem.1 h
  refine ⟨n + 1 + k, by omega, ?_, hp, ?_⟩
  · rw [← getElem?_drop, getElem?_eq_getElem hk, hget]
  · rintro j ⟨b, hb, hpb⟩ hj
    by_contra hlt
    have hbefore' := hbefore (j - (n + 1)) (by omega)
    have hsame : (l.drop (n + 1))[j - (n + 1)]? = some b := by
      rw [getElem?_drop, show n + 1 + (j - (n + 1)) = j by omega, hb]
    rw [getElem?_eq_some_iff] at hsame
    obtain ⟨_, hsame⟩ := hsame
    rw [hsame, hpb] at hbefore'
    cases hbefore'

theorem outward_nearest (hn : n < l.length) (hconnected : (places p l).OrdConnected)
    (h : outward p l n = some a) :
    ∃ i : Nat, l[i]? = some a ∧ p a = true ∧ ∀ j ∈ places p l, Nat.dist i n ≤ Nat.dist j n := by
  rcases Option.or_eq_some_iff.1 h with hback | ⟨hnone, hforth⟩
  · obtain ⟨i, hi, hget, hp, hlast⟩ := find?_reverse_take hn hback
    refine ⟨i, hget, hp, fun j hj => ?_⟩
    rcases Nat.lt_or_ge n j with hlt | hge
    · -- the positions have no gap, so the search starts at one of them
      have hmid : n ∈ places p l := hconnected.out ⟨a, hget, hp⟩ hj ⟨hi, hlt.le⟩
      have hni := hlast n hmid le_rfl
      rw [show i = n by omega, Nat.dist_self]
      exact Nat.zero_le _
    · have hji := hlast j hj hge
      rw [Nat.dist_eq_sub_of_le hi, Nat.dist_eq_sub_of_le hge]
      omega
  · obtain ⟨i, hi, hget, hp, hfirst⟩ := find?_drop hforth
    refine ⟨i, hget, hp, fun j hj => ?_⟩
    have hnj : n < j := by
      by_contra hge
      obtain ⟨b, hb, hpb⟩ := hj
      have hmem : b ∈ (l.take (n + 1)).reverse := by
        rw [mem_reverse]
        refine mem_of_getElem? (i := j) ?_
        rw [getElem?_take_of_lt (by omega), hb]
      exact find?_eq_none.1 hnone b hmem hpb
    have hij := hfirst j hj hnj
    rw [Nat.dist_eq_sub_of_le_right (Nat.le_of_lt hi), Nat.dist_eq_sub_of_le_right hnj.le]
    omega

end Lib
