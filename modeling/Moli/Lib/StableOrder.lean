import Mathlib.Data.List.MinMax
import Mathlib.Data.List.Sort

/-!
# Lists by rank

`byRank` sorts a list and keeps elements of one rank in their order. Selecting elements commutes
with sorting (`filter_byRank`), the first of a sorted list is the first of the least ones
(`head?_byRank`), and a search class by class finds the first of all (`findSome?_classes`).
-/

namespace Lib

open List

variable {α β : Type*} [LinearOrder β] {rank : α → β} {l : List α} {P : α → Bool}

/-- By rank; of equal ranks the earlier comes first. -/
def byRank (rank : α → β) (l : List α) : List α := l.insertionSort fun a b => rank a ≤ rank b

theorem byRank_cons (a : α) (l : List α) :
    byRank rank (a :: l) = (byRank rank l).orderedInsert (fun a b => rank a ≤ rank b) a := rfl

theorem perm_byRank (rank : α → β) (l : List α) : (byRank rank l).Perm l := perm_insertionSort _ l

theorem pairwise_byRank (rank : α → β) (l : List α) :
    (byRank rank l).Pairwise fun a b => rank a ≤ rank b := by
  exact pairwise_insertionSort _ l

theorem filter_orderedInsert {a : α} (hl : l.Pairwise fun a b => rank a ≤ rank b) :
    (l.orderedInsert (fun a b => rank a ≤ rank b) a).filter P =
      if P a then (l.filter P).orderedInsert (fun a b => rank a ≤ rank b) a else l.filter P := by
  induction l with
  | nil => cases ha : P a <;> simp [ha]
  | cons b l ih =>
    have hb := pairwise_cons.1 hl
    rw [orderedInsert_cons]
    split_ifs with hab ha ha
    · rw [filter_cons_of_pos ha]
      cases hrest : (b :: l).filter P with
      | nil => rfl
      | cons c rest =>
        have hc : c ∈ b :: l := (mem_filter.1 (hrest ▸ mem_cons_self)).1
        have hac : rank a ≤ rank c := by
          rcases mem_cons.1 hc with rfl | hc
          · exact hab
          · exact hab.trans (hb.1 c hc)
        rw [orderedInsert_cons, if_pos hac]
    · rw [filter_cons_of_neg ha]
    · rw [filter_cons, filter_cons, ih hb.2]
      split_ifs with hPb
      · rw [orderedInsert_cons, if_neg hab]
      · rfl
    · rw [filter_cons, filter_cons, ih hb.2, if_neg ha]

theorem filter_byRank (rank : α → β) (P : α → Bool) (l : List α) :
    (byRank rank l).filter P = byRank rank (l.filter P) := by
  induction l with
  | nil => rfl
  | cons a l ih =>
    rw [byRank_cons, filter_orderedInsert (pairwise_byRank rank l), ih]
    split_ifs with ha
    · rw [filter_cons_of_pos ha, byRank_cons]
    · rw [filter_cons_of_neg ha]

theorem head?_byRank (rank : α → β) (l : List α) : (byRank rank l).head? = l.argmin rank := by
  induction l with
  | nil => rfl
  | cons a l ih =>
    rw [argmin_cons, ← ih, byRank_cons]
    cases byRank rank l with
    | nil => rfl
    | cons b rest =>
      rw [orderedInsert_cons, head?_cons]
      dsimp only
      by_cases hab : rank a ≤ rank b
      · rw [if_pos hab, if_neg (not_lt.2 hab), head?_cons]
      · rw [if_neg hab, if_pos (not_le.1 hab), head?_cons]

/-- The least by one key is the least by another that compares the elements alike. -/
theorem argmin_congr {γ : Type*} [LinearOrder γ] {f : α → β} {g : α → γ}
    (h : ∀ a ∈ l, ∀ b ∈ l, f a < f b ↔ g a < g b) : l.argmin f = l.argmin g := by
  induction l with
  | nil => rfl
  | cons a l ih =>
    have hl := ih fun a ha b hb => h a (mem_cons_of_mem _ ha) b (mem_cons_of_mem _ hb)
    rw [argmin_cons, argmin_cons, hl]
    cases hmin : l.argmin g with
    | none => rfl
    | some c =>
      have hc := h c (mem_cons_of_mem _ (argmin_mem hmin)) a mem_cons_self
      simp only [hc]

/-- A search through ascending classes for the first element of a class finds the first element. -/
theorem findSome?_classes {γ : Type*} [LinearOrder γ] {cls : α → γ} {classes : List γ}
    (hl : l.Pairwise fun a b => cls a ≤ cls b) (hclasses : classes.Pairwise (· < ·))
    (hmem : ∀ a ∈ l, cls a ∈ classes) :
    classes.findSome? (fun c => (l.filter fun a => decide (cls a = c)).head?) = l.head? := by
  cases l with
  | nil => simp
  | cons a l =>
    obtain ⟨before, after, rfl⟩ := append_of_mem (hmem a mem_cons_self)
    have hbefore : before.findSome?
        (fun c => ((a :: l).filter fun a => decide (cls a = c)).head?) = none := by
      rw [findSome?_eq_none_iff]
      intro c hc
      have hlt : c < cls a := (pairwise_append.1 hclasses).2.2 c hc _ mem_cons_self
      rw [head?_eq_none_iff, filter_eq_nil_iff]
      intro b hb
      have hle : cls a ≤ cls b := by
        rcases mem_cons.1 hb with rfl | hb
        · exact le_rfl
        · exact (pairwise_cons.1 hl).1 b hb
      simpa using (hlt.trans_le hle).ne'
    rw [findSome?_append, hbefore, findSome?_cons, filter_cons_of_pos (by simp)]
    rfl

end Lib
