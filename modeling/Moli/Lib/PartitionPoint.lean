import Mathlib.Data.List.Basic

/-!
# Partition points by binary search

`partitionPoint pred l` searches for the first position of `l` whose element does not satisfy
`pred`, by bisection. The predicate may fail. On a list that is partitioned, `partitionPoint_append`
says that the search finds the boundary.
-/

namespace Lib

variable {α ε : Type*}

def partitionPointLoop (pred : α → Except ε Bool) (l : List α) : Nat → Nat → Nat → Except ε Nat
  | 0, low, _ => .ok low
  | fuel + 1, low, high =>
    if low < high then
      let middle := low + (high - low) / 2
      match l[middle]? with
      | none => .ok low
      | some a =>
        match pred a with
        | .error e => .error e
        | .ok true => partitionPointLoop pred l fuel (middle + 1) high
        | .ok false => partitionPointLoop pred l fuel low middle
    else .ok low

def partitionPoint (pred : α → Except ε Bool) (l : List α) : Except ε Nat :=
  partitionPointLoop pred l l.length 0 l.length

variable {pred : α → Except ε Bool} {xs ys : List α}

/-- The boundary stays between the two ends of the search interval, which shrinks with the fuel. -/
theorem partitionPointLoop_append (hxs : ∀ x ∈ xs, pred x = .ok true)
    (hys : ∀ y ∈ ys, pred y = .ok false) {fuel low high : Nat} (hlow : low ≤ xs.length)
    (hmid : xs.length ≤ high) (hhigh : high ≤ (xs ++ ys).length) (hfuel : high - low ≤ fuel) :
    partitionPointLoop pred (xs ++ ys) fuel low high = .ok xs.length := by
  induction fuel generalizing low high with
  | zero => rw [partitionPointLoop, show low = xs.length by omega]
  | succ fuel ih =>
    rw [partitionPointLoop]
    by_cases hlt : low < high
    · have hbound : low + (high - low) / 2 < (xs ++ ys).length := by omega
      simp only [if_pos hlt, List.getElem?_eq_getElem hbound]
      rcases Nat.lt_or_ge (low + (high - low) / 2) xs.length with hm | hm
      · have hpred : pred (xs ++ ys)[low + (high - low) / 2] = .ok true := by
          rw [List.getElem_append_left hm]
          exact hxs _ (List.getElem_mem hm)
        simp only [hpred]
        exact ih (by omega) hmid hhigh (by omega)
      · have hpred : pred (xs ++ ys)[low + (high - low) / 2] = .ok false := by
          rw [List.getElem_append_right hm]
          exact hys _ (List.getElem_mem _)
        simp only [hpred]
        exact ih hlow hm (by omega) (by omega)
    · rw [if_neg hlt, show low = xs.length by omega]

theorem partitionPoint_append (hxs : ∀ x ∈ xs, pred x = .ok true)
    (hys : ∀ y ∈ ys, pred y = .ok false) : partitionPoint pred (xs ++ ys) = .ok xs.length :=
  partitionPointLoop_append hxs hys (Nat.zero_le _) (by simp) (Nat.le_refl _) (by simp)

end Lib
