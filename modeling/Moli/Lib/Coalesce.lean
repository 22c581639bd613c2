import Mathlib.Data.List.Chain

/-!
# Merging neighbours

`snocMerge merge? l a` puts `a` behind `l`, merging it into the last element where `merge?` allows
that; `coalesce` does so for every element of a list. The result has no two neighbours that could
still be merged, and means the same as the list it was made from.
-/

namespace Lib

open List

variable {α β : Type*}

def snocMerge (merge? : α → α → Option α) (l : List α) (a : α) : List α :=
  match l.getLast? with
  | none => [a]
  | some last =>
    match merge? last a with
    | some merged => l.dropLast ++ [merged]
    | none => l ++ [a]

def coalesce (merge? : α → α → Option α) (l : List α) : List α :=
  l.foldl (snocMerge merge?) []

/-- A merge keeps what decides whether the left neighbour may absorb it. -/
def KeepsLeft (merge? : α → α → Option α) : Prop :=
  ∀ x y a m, merge? y a = some m → merge? x y = none → merge? x m = none

/-- No element can be merged into the one before it. -/
abbrev Separated (merge? : α → α → Option α) (l : List α) : Prop :=
  l.IsChain fun x y => merge? x y = none

variable {merge? : α → α → Option α} {l : List α} {a : α}

theorem snocMerge_nil : snocMerge merge? [] a = [a] := rfl

theorem snocMerge_concat (l : List α) (last a : α) :
    snocMerge merge? (l ++ [last]) a =
      match merge? last a with
      | some merged => l ++ [merged]
      | none => l ++ [last] ++ [a] := by
  simp only [snocMerge, getLast?_concat, dropLast_concat]

theorem snocMerge_ne_nil : snocMerge merge? l a ≠ [] := by
  rcases eq_nil_or_concat' l with rfl | ⟨l, last, rfl⟩
  · simp [snocMerge_nil]
  · rw [snocMerge_concat]
    cases merge? last a <;> simp

theorem Separated.snocMerge (hkeep : KeepsLeft merge?) (h : Separated merge? l) :
    Separated merge? (snocMerge merge? l a) := by
  rcases eq_nil_or_concat' l with rfl | ⟨l, last, rfl⟩
  · exact .singleton a
  · rw [snocMerge_concat]
    obtain ⟨hl, -, hlast⟩ := isChain_append.1 h
    cases hm : merge? last a with
    | some merged =>
      refine isChain_append.2 ⟨hl, .singleton merged, ?_⟩
      intro x hx y hy
      obtain rfl : merged = y := by simpa using hy
      exact hkeep x last a merged hm (hlast x hx last (by simp))
    | none =>
      refine isChain_append.2 ⟨h, .singleton a, ?_⟩
      intro x hx y hy
      obtain rfl : last = x := by simpa using hx
      obtain rfl : a = y := by simpa using hy
      exact hm

theorem separated_coalesce (hkeep : KeepsLeft merge?) (l : List α) :
    Separated merge? (coalesce merge? l) := by
  have hfold : ∀ acc, Separated merge? acc → Separated merge? (l.foldl (snocMerge merge?) acc) := by
    induction l with
    | nil => exact fun acc h => h
    | cons a l ih => exact fun acc h => ih _ (h.snocMerge hkeep)
  exact hfold [] .nil

/-- A property of the elements that merging keeps holds of every element of the result. -/
theorem forall_mem_snocMerge {P : α → Prop} (hmerge : ∀ x y m, merge? x y = some m → P x → P m)
    (h : ∀ x ∈ l, P x) (ha : P a) : ∀ x ∈ snocMerge merge? l a, P x := by
  rcases eq_nil_or_concat' l with rfl | ⟨l, last, rfl⟩
  · simpa [snocMerge_nil] using ha
  · rw [snocMerge_concat]
    cases hm : merge? last a with
    | some merged =>
      intro x hx
      rcases mem_append.1 hx with hx | hx
      · exact h x (mem_append_left _ hx)
      · obtain rfl := mem_singleton.1 hx
        exact hmerge last a x hm (h last (by simp))
    | none =>
      intro x hx
      rcases mem_append.1 hx with hx | hx
      · exact h x hx
      · obtain rfl := mem_singleton.1 hx
        exact ha

theorem forall_mem_coalesce {P : α → Prop} (hmerge : ∀ x y m, merge? x y = some m → P x → P m)
    (h : ∀ x ∈ l, P x) : ∀ x ∈ coalesce merge? l, P x := by
  have hfold : ∀ acc, (∀ x ∈ acc, P x) → ∀ x ∈ l.foldl (snocMerge merge?) acc, P x := by
    induction l with
    | nil => exact fun acc hacc => hacc
    | cons a l ih =>
      intro acc hacc
      exact ih (fun x hx => h x (mem_cons_of_mem a hx)) _
        (forall_mem_snocMerge hmerge hacc (h a mem_cons_self))
  exact hfold [] (by simp)

variable {R : β → β → Prop}

/-- If a merged element means what its parts mean, `snocMerge` appends meanings. -/
theorem flatMap_snocMerge (hrefl : ∀ b, R b b) {mean : α → List β}
    (hmerge : ∀ x y m, merge? x y = some m → List.Forall₂ R (mean m) (mean x ++ mean y)) :
    List.Forall₂ R ((snocMerge merge? l a).flatMap mean) (l.flatMap mean ++ mean a) := by
  have hself : ∀ bs, List.Forall₂ R bs bs := fun bs => forall₂_same.2 fun b _ => hrefl b
  rcases eq_nil_or_concat' l with rfl | ⟨l, last, rfl⟩
  · simpa [snocMerge_nil] using hself (mean a)
  · rw [snocMerge_concat]
    cases hm : merge? last a with
    | some merged =>
      simpa using rel_append (hself (l.flatMap mean)) (hmerge last a merged hm)
    | none => simpa using hself (l.flatMap mean ++ mean last ++ mean a)

theorem forall₂_trans (htrans : ∀ a b c, R a b → R b c → R a c) {xs ys zs : List β}
    (h : List.Forall₂ R xs ys) (h' : List.Forall₂ R ys zs) : List.Forall₂ R xs zs := by
  induction h generalizing zs with
  | nil => exact h'
  | cons hxy _ ih =>
    cases h' with
    | cons hyz h' => exact .cons (htrans _ _ _ hxy hyz) (ih h')

/-- A relation of the elements pulls a pairwise property back. -/
theorem pairwise_of_forall₂ {R : α → β → Prop} {P : α → α → Prop} {Q : β → β → Prop}
    (hR : ∀ a a' b b', R a b → R a' b' → Q b b' → P a a') {xs : List α} {ys : List β}
    (h : List.Forall₂ R xs ys) (hy : ys.Pairwise Q) : xs.Pairwise P := by
  induction h with
  | nil => exact .nil
  | @cons a b xs ys hab h ih =>
    obtain ⟨hb, hys⟩ := pairwise_cons.1 hy
    refine pairwise_cons.2 ⟨?_, ih hys⟩
    intro a' ha'
    obtain ⟨i, hi, rfl⟩ := mem_iff_getElem.1 ha'
    have hi' : i < ys.length := h.length_eq ▸ hi
    exact hR a xs[i] b ys[i] hab (h.get hi hi') (hb _ (getElem_mem hi'))

theorem flatMap_coalesce (hrefl : ∀ b, R b b) (htrans : ∀ a b c, R a b → R b c → R a c)
    {mean : α → List β}
    (hmerge : ∀ x y m, merge? x y = some m → List.Forall₂ R (mean m) (mean x ++ mean y)) :
    List.Forall₂ R ((coalesce merge? l).flatMap mean) (l.flatMap mean) := by
  have hself : ∀ bs, List.Forall₂ R bs bs := fun bs => forall₂_same.2 fun b _ => hrefl b
  have hfold : ∀ acc, List.Forall₂ R ((l.foldl (snocMerge merge?) acc).flatMap mean)
      (acc.flatMap mean ++ l.flatMap mean) := by
    induction l with
    | nil =>
      intro acc
      rw [flatMap_nil, append_nil]
      exact hself _
    | cons a l ih =>
      intro acc
      have hhead : List.Forall₂ R ((snocMerge merge? acc a).flatMap mean)
          (acc.flatMap mean ++ mean a) := flatMap_snocMerge hrefl hmerge
      have hboth := forall₂_trans htrans (ih (snocMerge merge? acc a))
        (rel_append hhead (hself (l.flatMap mean)))
      simpa using hboth
  exact hfold []

end Lib
