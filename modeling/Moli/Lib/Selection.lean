import Mathlib.Algebra.Order.Ring.Int
import Mathlib.Data.List.Perm.Basic

/-!
# Selecting a best entry

`selectFrom` is the scan that keeps the first entry no later one is better than; `extract` also
returns the other entries, as a priority queue does.
-/

namespace Lib

open List

variable {α : Type*}

/-- The scan over a list, starting with what has been selected before. -/
def selectFrom (better : α → α → Bool) (selected : Option α) (l : List α) : Option α :=
  l.foldl (fun selected x =>
    if selected.all (better x ·) then some x else selected) selected

/-- A best entry and the others. -/
def extract (better : α → α → Bool) : List α → Option (α × List α)
  | [] => none
  | x :: l =>
    match extract better l with
    | none => some (x, [])
    | some (y, rest) => if better y x then some (y, x :: rest) else some (x, l)

/-- A comparison by a key. -/
structure ByKey {κ : Type*} [LinearOrder κ] (better : α → α → Bool) (key : α → κ) : Prop where
  iff_lt : ∀ x y, better x y = true ↔ key x < key y

variable {κ : Type*} [LinearOrder κ] {better : α → α → Bool} {key : α → κ} {l rest : List α} {a : α}

theorem extract_eq_none (hnone : extract better l = none) : l = [] := by
  cases l with
  | nil => rfl
  | cons x l =>
    rw [extract] at hnone
    split at hnone
    · cases hnone
    · split at hnone <;> cases hnone

namespace ByKey

theorem selectFrom_some (h : ByKey better key) (selected : α) (l : List α) :
    ∃ a, selectFrom better (some selected) l = some a ∧ a ∈ selected :: l ∧
      ∀ b ∈ selected :: l, key a ≤ key b := by
  induction l generalizing selected with
  | nil => exact ⟨selected, rfl, by simp, by simp⟩
  | cons x l ih =>
    by_cases hbetter : better x selected = true
    · obtain ⟨a, ha, hmem, hleast⟩ := ih x
      refine ⟨a, ?_, mem_cons_of_mem _ hmem, ?_⟩
      · simpa [selectFrom, hbetter] using ha
      · have hlt := (h.iff_lt x selected).1 hbetter
        have hx := hleast x (by simp)
        exact forall_mem_cons.2 ⟨hx.trans hlt.le, hleast⟩
    · obtain ⟨a, ha, hmem, hleast⟩ := ih selected
      have hle : key selected ≤ key x := not_lt.1 fun hlt => hbetter ((h.iff_lt _ _).2 hlt)
      refine ⟨a, ?_, ?_, ?_⟩
      · simpa [selectFrom, hbetter] using ha
      · rcases mem_cons.1 hmem with rfl | hmem
        · exact mem_cons_self
        · exact mem_cons_of_mem _ (mem_cons_of_mem _ hmem)
      · have hselected := hleast selected (by simp)
        intro b hb
        rcases mem_cons.1 hb with rfl | hb
        · exact hselected
        rcases mem_cons.1 hb with rfl | hb
        · exact hselected.trans hle
        · exact hleast b (mem_cons_of_mem _ hb)

/-- The scan finds an entry with the least key. -/
theorem selectFrom_eq_some (h : ByKey better key) (ha : selectFrom better none l = some a) :
    a ∈ l ∧ ∀ b ∈ l, key a ≤ key b := by
  cases l with
  | nil => cases ha
  | cons x l =>
    obtain ⟨a', ha', hmem, hleast⟩ := h.selectFrom_some x l
    have hfirst : selectFrom better none (x :: l) = selectFrom better (some x) l := rfl
    rw [hfirst, ha'] at ha
    obtain rfl := Option.some.inj ha
    exact ⟨hmem, hleast⟩

theorem selectFrom_eq_none (h : ByKey better key) (hnone : selectFrom better none l = none) :
    l = [] := by
  cases l with
  | nil => rfl
  | cons x l =>
    obtain ⟨a, ha, -⟩ := h.selectFrom_some x l
    have hfirst : selectFrom better none (x :: l) = selectFrom better (some x) l := rfl
    rw [hfirst, ha] at hnone
    cases hnone

theorem extract_eq_some (h : ByKey better key) (ha : extract better l = some (a, rest)) :
    l.Perm (a :: rest) ∧ ∀ b ∈ l, key a ≤ key b := by
  induction l generalizing a rest with
  | nil => cases ha
  | cons x l ih =>
    rw [extract] at ha
    split at ha
    · next hnone =>
      cases ha
      obtain rfl := extract_eq_none hnone
      exact ⟨.refl _, by simp⟩
    · next y others hsome =>
      obtain ⟨hperm, hleast⟩ := ih hsome
      split at ha
      · next hbetter =>
        cases ha
        have hlt := (h.iff_lt _ _).1 hbetter
        exact ⟨(hperm.cons x).trans (.swap _ _ _), forall_mem_cons.2 ⟨hlt.le, hleast⟩⟩
      · next hbetter =>
        cases ha
        have hle : key x ≤ key y := not_lt.1 fun hlt => hbetter ((h.iff_lt _ _).2 hlt)
        refine ⟨.refl _, forall_mem_cons.2 ⟨le_rfl, fun b hb => hle.trans (hleast b hb)⟩⟩

end ByKey

end Lib
