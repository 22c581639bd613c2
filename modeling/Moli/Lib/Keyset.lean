import Mathlib.Data.List.Infix

/-!
# Continuing a sorted list

A list without two equivalent elements is sorted by `le`. Filtering and sorting commute
(`mergeSort_filter`), and what comes after an element of the sorted list is found again by the
condition of coming after it (`filter_after`): no position has to be kept.
-/

namespace Lib.Keyset

open List

variable {α : Type*} {le : α → α → Bool} {l xs ys : List α} {x last : α}

/-- No two elements of the list are equivalent. -/
def Distinct (le : α → α → Bool) (l : List α) : Prop :=
  l.Pairwise fun a b => ¬(le a b = true ∧ le b a = true)

/-- `x` comes strictly after `last`. -/
def after (le : α → α → Bool) (last x : α) : Bool := !le x last

theorem Distinct.eq_of_le (h : Distinct le l) {a b : α} (ha : a ∈ l) (hb : b ∈ l)
    (hab : le a b = true) (hba : le b a = true) : a = b := by
  by_contra hne
  induction l with
  | nil => cases ha
  | cons c l ih =>
    obtain ⟨hc, hl⟩ := pairwise_cons.1 h
    rcases mem_cons.1 ha with rfl | ha'
    · rcases mem_cons.1 hb with rfl | hb'
      · exact hne rfl
      · exact hc b hb' ⟨hab, hba⟩
    · rcases mem_cons.1 hb with rfl | hb'
      · exact hc a ha' ⟨hba, hab⟩
      · exact ih hl ha' hb'

theorem distinct_mergeSort (h : Distinct le l) : Distinct le (l.mergeSort le) :=
  ((mergeSort_perm l le).pairwise_iff fun hab hba => hab hba.symm).2 h

section Order

variable (htrans : ∀ a b c, le a b = true → le b c = true → le a c = true)
  (htotal : ∀ a b, (le a b || le b a) = true)
include htrans htotal

theorem mergeSort_filter (h : Distinct le l) (p : α → Bool) :
    (l.filter p).mergeSort le = (l.mergeSort le).filter p := by
  refine List.Perm.eq_of_pairwise (fun a b ha hb hab hba => ?_)
    (pairwise_mergeSort htrans htotal _) ((pairwise_mergeSort htrans htotal l).filter p) ?_
  · have ha' : a ∈ l.filter p := (mergeSort_perm _ le).mem_iff.1 ha
    have hb' : b ∈ l.mergeSort le := mem_of_mem_filter hb
    exact h.eq_of_le (mem_of_mem_filter ha') ((mergeSort_perm l le).mem_iff.1 hb') hab hba
  · exact (mergeSort_perm _ le).trans ((mergeSort_perm l le).symm.filter p)

/-- What comes after an element of the sorted list is what stands behind it. -/
theorem filter_after (h : Distinct le l) (hsort : l.mergeSort le = xs ++ last :: ys) :
    (l.mergeSort le).filter (after le last) = ys := by
  have hsorted := pairwise_mergeSort htrans htotal l
  have hdistinct := distinct_mergeSort h
  rw [hsort] at hsorted hdistinct ⊢
  have hself : le last last = true := by simpa using htotal last last
  have hbefore : ∀ x ∈ xs, after le last x = false := by
    intro x hx
    have hle : le x last = true := (pairwise_append.1 hsorted).2.2 x hx last mem_cons_self
    simp [after, hle]
  have hbehind : ∀ y ∈ ys, after le last y = true := by
    intro y hy
    have hle := (pairwise_cons.1 (pairwise_append.1 hsorted).2.1).1 y hy
    have hne := (pairwise_cons.1 (pairwise_append.1 hdistinct).2.1).1 y hy
    simpa [after, hle] using hne
  rw [filter_append, filter_eq_nil_iff.2 (fun x hx => by simp [hbefore x hx]), nil_append,
    filter_cons_of_neg (by simp [after, hself]), filter_eq_self.2 hbehind]

/-- The rest behind an element of a filtered and sorted list, if nothing that comes after the
element was filtered out. -/
theorem mergeSort_after (h : Distinct le l) {p : α → Bool}
    (hp : p last = true → ∀ x, after le last x = true → p x = true) {n : Nat}
    (hrest : ((l.filter p).mergeSort le).drop n = xs ++ last :: ys) :
    (l.filter (after le last)).mergeSort le = ys := by
  have hsplit : (l.filter p).mergeSort le = (((l.filter p).mergeSort le).take n ++ xs) ++
      last :: ys := by
    rw [append_assoc, ← hrest, take_append_drop]
  have hlast : p last = true := by
    have hmem : last ∈ (l.filter p).mergeSort le := by
      rw [hsplit]
      simp
    exact of_mem_filter ((mergeSort_perm _ le).mem_iff.1 hmem)
  have hfilter : l.filter (after le last) = (l.filter p).filter (after le last) := by
    rw [filter_filter]
    refine filter_congr fun x _ => ?_
    cases hx : after le last x with
    | false => simp
    | true => simp [hp hlast x hx]
  have hdistinct : Distinct le (l.filter p) := h.filter p
  rw [hfilter, mergeSort_filter htrans htotal hdistinct]
  exact filter_after htrans htotal hdistinct hsplit

end Order

end Lib.Keyset
