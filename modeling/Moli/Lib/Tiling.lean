import Mathlib.Algebra.BigOperators.Intervals

/-!
# Tilings of an initial segment

A list of extents tiles `[0, tail)` if all of them are non-empty and every place is in exactly one
of them when it is below `tail`, and in none otherwise. The lemmas follow an allocator: an extent
is split, two neighbours are merged, the segment grows by one extent.
-/

namespace Lib

open List

/-- The places `offset, …, offset + len - 1`. -/
structure Extent where
  offset : Nat
  len : Nat
deriving DecidableEq

namespace Extent

def contains (e : Extent) (x : Nat) : Bool := e.offset ≤ x ∧ x < e.offset + e.len

def stop (e : Extent) : Nat := e.offset + e.len

/-- One ends before the other starts. -/
def Apart (e e' : Extent) : Prop := e.stop ≤ e'.offset ∨ e'.stop ≤ e.offset

end Extent

structure Tiling (extents : List Extent) (tail : Nat) : Prop where
  nonempty : ∀ e ∈ extents, 0 < e.len
  cover : ∀ x, extents.countP (·.contains x) = if x < tail then 1 else 0

namespace Tiling

variable {extents extents' : List Extent} {tail : Nat} {e e' : Extent}

theorem nil : Tiling [] 0 := ⟨fun _ h => absurd h not_mem_nil, fun _ => rfl⟩

theorem perm (h : Tiling extents tail) (hperm : extents.Perm extents') : Tiling extents' tail :=
  ⟨fun e he => h.nonempty e (hperm.mem_iff.2 he), fun x => (hperm.countP_eq _) ▸ h.cover x⟩

/-- No place is in two extents of a tiling. -/
theorem not_both (h : Tiling (e :: e' :: extents) tail) (x : Nat) :
    ¬ (e.contains x = true ∧ e'.contains x = true) := by
  rintro ⟨he, he'⟩
  have hcover := h.cover x
  simp only [countP_cons, he, he', if_true] at hcover
  split at hcover <;> omega

theorem apart (h : Tiling (e :: e' :: extents) tail) : e.Apart e' := by
  by_contra hnot
  simp only [Extent.Apart, Extent.stop] at hnot
  have hpos := h.nonempty e (by simp)
  have hpos' := h.nonempty e' (by simp)
  refine h.not_both (max e.offset e'.offset) ⟨?_, ?_⟩ <;>
    simp only [Extent.contains, decide_eq_true_eq] <;> omega

theorem apart_of_mem (h : Tiling (e :: extents) tail) (he' : e' ∈ extents) : e.Apart e' := by
  obtain ⟨before, after, rfl⟩ := append_of_mem he'
  have hperm : (e :: (before ++ e' :: after)).Perm (e :: e' :: (before ++ after)) :=
    .cons _ perm_middle
  exact (h.perm hperm).apart

theorem apart_of_ne (h : Tiling extents tail) (he : e ∈ extents) (he' : e' ∈ extents)
    (hne : e ≠ e') : e.Apart e' :=
  (h.perm (perm_cons_erase he)).apart_of_mem ((mem_erase_of_ne hne.symm).2 he')

theorem pairwise (h : Tiling extents tail) : extents.Pairwise Extent.Apart := by
  have hall : ∀ before after, extents = before ++ after → after.Pairwise Extent.Apart := by
    intro before after
    induction after generalizing before with
    | nil => exact fun _ => .nil
    | cons e after ih =>
      intro hsplit
      refine pairwise_cons.2 ⟨fun e' he' => ?_, ih (before ++ [e]) (by simp [hsplit])⟩
      have hperm : extents.Perm (e :: (before ++ after)) := hsplit ▸ perm_middle
      exact (h.perm hperm).apart_of_mem (mem_append_right _ he')
  exact hall [] extents rfl

theorem stop_le (h : Tiling extents tail) (he : e ∈ extents) : e.stop ≤ tail := by
  have hpos := h.nonempty e he
  by_contra hlt
  rw [Extent.stop] at hlt
  have hcover := h.cover (e.offset + e.len - 1)
  rw [if_neg (by omega), countP_eq_zero] at hcover
  refine hcover e he ?_
  simp only [Extent.contains, decide_eq_true_eq]
  omega

/-- An extent ends at the tail, or where another one starts. -/
theorem stop_eq (h : Tiling extents tail) (he : e ∈ extents) :
    e.stop = tail ∨ ∃ e' ∈ extents, e'.offset = e.stop := by
  refine (h.stop_le he).eq_or_lt.imp_right fun hlt => ?_
  have hcover := (h.cover e.stop).trans (if_pos hlt)
  obtain ⟨e', he', hin⟩ := countP_pos_iff.1 (hcover ▸ Nat.one_pos)
  refine ⟨e', he', ?_⟩
  have hpos := h.nonempty e he
  simp only [Extent.contains, decide_eq_true_eq] at hin
  rcases eq_or_ne e e' with rfl | hne
  · exact absurd hin.2 (Nat.lt_irrefl _)
  · have hapart := h.apart_of_ne he he' hne
    simp only [Extent.Apart, Extent.stop] at *
    omega

/-! ## Changes -/

theorem grow (h : Tiling extents tail) {len : Nat} (hlen : 0 < len) :
    Tiling (⟨tail, len⟩ :: extents) (tail + len) := by
  refine ⟨?_, fun x => ?_⟩
  · intro e he
    rcases mem_cons.1 he with rfl | he
    · exact hlen
    · exact h.nonempty e he
  · rw [countP_cons, h.cover]
    simp only [Extent.contains, decide_eq_true_eq]
    split_ifs <;> omega

theorem countP_split (offset len rest x : Nat) :
    (if (⟨offset, len + rest⟩ : Extent).contains x = true then 1 else 0) =
      (if (⟨offset, len⟩ : Extent).contains x = true then 1 else 0) +
        if (⟨offset + len, rest⟩ : Extent).contains x = true then 1 else 0 := by
  simp only [Extent.contains, decide_eq_true_eq]
  split_ifs <;> omega

theorem split {offset len rest : Nat} (h : Tiling (⟨offset, len + rest⟩ :: extents) tail)
    (hlen : 0 < len) (hrest : 0 < rest) :
    Tiling (⟨offset, len⟩ :: ⟨offset + len, rest⟩ :: extents) tail := by
  refine ⟨?_, fun x => ?_⟩
  · intro e he
    rcases mem_cons.1 he with rfl | he
    · exact hlen
    rcases mem_cons.1 he with rfl | he
    · exact hrest
    · exact h.nonempty e (mem_cons_of_mem _ he)
  · have hcover := h.cover x
    rw [countP_cons, countP_split] at hcover
    rw [countP_cons, countP_cons]
    omega

theorem merge {offset len rest : Nat}
    (h : Tiling (⟨offset, len⟩ :: ⟨offset + len, rest⟩ :: extents) tail) :
    Tiling (⟨offset, len + rest⟩ :: extents) tail := by
  have hlen := h.nonempty ⟨offset, len⟩ (by simp)
  refine ⟨?_, fun x => ?_⟩
  · intro e he
    rcases mem_cons.1 he with rfl | he
    · exact Nat.add_pos_left hlen rest
    · exact h.nonempty e (by simp [he])
  · have hcover := h.cover x
    rw [countP_cons, countP_cons] at hcover
    rw [countP_cons, countP_split]
    omega

/-! ## Size -/

theorem sum_contains (e : Extent) {bound : Nat} (he : e.stop ≤ bound) :
    (∑ x ∈ Finset.range bound, if e.contains x = true then 1 else 0) = e.len := by
  have hrange : (Finset.range bound).filter (fun x => e.contains x = true) =
      Finset.Ico e.offset (e.offset + e.len) := by
    ext x
    rw [Extent.stop] at he
    simp only [Finset.mem_filter, Finset.mem_range, Finset.mem_Ico, Extent.contains,
      decide_eq_true_eq]
    omega
  rw [← Finset.card_filter, hrange, Nat.card_Ico, Nat.add_sub_cancel_left]

/-- The lengths add up to the length of the segment. -/
theorem sum_len (h : Tiling extents tail) : (extents.map (·.len)).sum = tail := by
  have hcount : ∀ l : List Extent, (∀ e ∈ l, e.stop ≤ tail) →
      (∑ x ∈ Finset.range tail, l.countP (·.contains x)) = (l.map (·.len)).sum := by
    intro l hl
    induction l with
    | nil => simp
    | cons e l ih =>
      have hrest := ih fun e' he' => hl e' (mem_cons_of_mem _ he')
      simp only [countP_cons, Finset.sum_add_distrib, map_cons, sum_cons,
        sum_contains e (hl e mem_cons_self)]
      omega
  rw [← hcount extents fun e he => h.stop_le he]
  have hone : ∀ x ∈ Finset.range tail, extents.countP (·.contains x) = 1 := by
    intro x hx
    rw [h.cover, if_pos (Finset.mem_range.1 hx)]
  rw [Finset.sum_congr rfl hone, Finset.sum_const, Finset.card_range]
  exact Nat.mul_one tail

end Tiling

end Lib
