import Mathlib.Data.List.Nodup
import Mathlib.Data.List.Perm.Basic
import Mathlib.Data.List.Basic
import Mathlib.Data.List.Chain

/-!
# Lists

How single list operations act: the pieces of a list with one element appended, erased or moved, and
filters that keep at most one element. `cut l offset length` is the stretch of a list from an offset
on, `Interleaving xs ys l` says that `l` consists of `xs` and `ys`, each in their order, and
`Reports l v` that the reports of a signal that starts low and is now `v` alternate.
-/

namespace Lib

open List

variable {α β : Type*} {l : List α} {a b : α} {i : Nat}

/-! ## One element more or less -/

theorem getElem?_concat : (l ++ [a])[i]? = if i = l.length then some a else l[i]? := by
  rcases Nat.lt_trichotomy i l.length with hlt | rfl | hgt
  · rw [getElem?_append_left hlt, if_neg hlt.ne]
  · rw [getElem?_concat_length, if_pos rfl]
  · rw [if_neg hgt.ne', getElem?_eq_none hgt.le, getElem?_eq_none (by simp; omega)]

theorem getElem?_concat_cases (h : (l ++ [a])[i]? = some b) :
    l[i]? = some b ∨ l[i]? = none ∧ b = a := by
  rw [getElem?_concat] at h
  split_ifs at h with hi
  · exact .inr ⟨getElem?_eq_none hi.ge, (Option.some.inj h).symm⟩
  · exact .inl h

theorem filterMap_concat (f : α → Option β) (l : List α) (a : α) :
    (l ++ [a]).filterMap f = l.filterMap f ++ (f a).toList := by
  rw [filterMap_append, filterMap_cons]
  cases f a <;> rfl

theorem perm_of_getElem? (h : l[i]? = some a) : l.Perm (a :: l.eraseIdx i) := by
  obtain ⟨hlt, rfl⟩ := List.getElem?_eq_some_iff.1 h
  exact (List.getElem_cons_eraseIdx_perm hlt).symm

/-- Moving the first element behind the others changes nothing exactly if all are equal. -/
theorem append_singleton_eq_cons_iff : l ++ [a] = a :: l ↔ ∀ x ∈ l, x = a := by
  induction l with
  | nil => simp
  | cons x l ih =>
    rw [cons_append, List.cons.injEq, forall_mem_cons]
    constructor
    · rintro ⟨rfl, h⟩
      exact ⟨rfl, ih.1 h⟩
    · rintro ⟨rfl, h⟩
      exact ⟨rfl, ih.2 h⟩

/-! ## Parts of a list -/

theorem mem_take_iff_of_not_mem {g n : Nat} (h : a ∉ l.take g) :
    a ∈ (l.drop g).take (n - g) ↔ a ∈ l.take n := by
  by_cases hn : n ≤ g
  · have hnot : a ∉ l.take n := fun ha => h ((take_subset_take_left l hn) ha)
    simp [Nat.sub_eq_zero_of_le hn, hnot]
  · obtain ⟨m, rfl⟩ := Nat.exists_eq_add_of_le (Nat.le_of_not_le hn)
    rw [take_add, Nat.add_sub_cancel_left, mem_append, or_iff_right h]

/-- A list that is sorted by a strict order starts with the element that nothing precedes. -/
theorem mem_tail_iff {r : α → α → Prop} (hl : l.Pairwise r) (hirrefl : ∀ a, ¬ r a a) (hb : b ∈ l)
    (hfirst : ∀ a ∈ l, ¬ r a b) : a ∈ l.tail ↔ a ∈ l ∧ a ≠ b := by
  cases l with
  | nil => cases hb
  | cons c l =>
    obtain ⟨hc, -⟩ := pairwise_cons.1 hl
    obtain rfl : b = c := by
      rcases mem_cons.1 hb with rfl | hb
      · rfl
      · exact absurd (hc b hb) (hfirst c mem_cons_self)
    rw [mem_cons]
    constructor
    · intro ha
      refine ⟨.inr ha, ?_⟩
      rintro rfl
      exact hirrefl a (hc a ha)
    · intro ha
      exact ha.1.resolve_left ha.2

/-- A scan finds, among what qualifies, an element before anything else. Its tail is what else it
finds exactly if the element qualifies or there is nothing else. -/
theorem tail_scan_iff {r : α → α → Prop} {Q P : α → Prop} (hl : l.Pairwise r)
    (hirrefl : ∀ a, ¬ r a a)
    (hmem : ∀ b, b ∈ l ↔ Q b ∧ (b = a ∨ P b)) (hfirst : ∀ b, P b → ¬ r b a) (hself : ¬ P a) :
    (∀ b, b ∈ l.tail ↔ Q b ∧ P b) ↔ (Q a ∨ ∀ b, Q b → ¬ P b) := by
  by_cases ha : Q a
  · refine iff_of_true (fun b => ?_) (.inl ha)
    have hfirst' : ∀ b ∈ l, ¬ r b a := by
      intro b hb
      rcases ((hmem b).1 hb).2 with rfl | hP
      · exact hirrefl b
      · exact hfirst b hP
    rw [mem_tail_iff hl hirrefl ((hmem a).2 ⟨ha, .inl rfl⟩) hfirst', hmem]
    constructor
    · rintro ⟨⟨hQ, hb⟩, hne⟩
      exact ⟨hQ, hb.resolve_left hne⟩
    · rintro ⟨hQ, hP⟩
      exact ⟨⟨hQ, .inr hP⟩, fun hb => hself (hb ▸ hP)⟩
  · have hP : ∀ b ∈ l, Q b ∧ P b := fun b hb =>
      ⟨((hmem b).1 hb).1, ((hmem b).1 hb).2.resolve_left fun heq => ha (heq ▸ ((hmem b).1 hb).1)⟩
    rw [or_iff_right ha]
    constructor
    · intro htail b hQ hb
      cases l with
      | nil => cases (hmem b).2 ⟨hQ, .inr hb⟩
      | cons c l =>
        have hc := (htail c).2 (hP c mem_cons_self)
        exact hirrefl c ((pairwise_cons.1 hl).1 c hc)
    · intro hnone b
      refine iff_of_false (fun hb => ?_) fun hb => hnone b hb.1 hb.2
      obtain ⟨hQ, hb⟩ := hP b (mem_of_mem_tail hb)
      exact hnone b hQ hb

/-! ## At most one element -/

theorem filterMap_ite_eq [DecidableEq α] (h : l.Nodup) (a : α) (b : β) :
    l.filterMap (fun x => if x = a then some b else none) = if a ∈ l then [b] else [] := by
  induction l with
  | nil => rfl
  | cons x l ih =>
    obtain ⟨hx, hnodup⟩ := nodup_cons.1 h
    rw [filterMap_cons, ih hnodup]
    by_cases heq : x = a
    · subst heq
      simp [hx]
    · simp [heq, Ne.symm heq]

/-- Where at most one element has the property, erasing the first one erases them all. -/
theorem eraseP_eq_filter {p : α → Bool} (h : l.Pairwise fun x y => ¬ (p x = true ∧ p y = true)) :
    l.eraseP p = l.filter fun x => !p x := by
  induction l with
  | nil => rfl
  | cons x l ih =>
    obtain ⟨hx, hl⟩ := pairwise_cons.1 h
    cases hp : p x with
    | false => simp [hp, ih hl]
    | true =>
      have hrest : l.filter (fun y => !p y) = l := by
        refine filter_eq_self.2 fun y hy => ?_
        simpa using fun hpy => hx y hy ⟨hp, hpy⟩
      simp [hp, hrest]

/-! ## Windows -/

variable {α : Type*} {l : List α} {offset length : Nat}

def cut (l : List α) (offset length : Nat) : List α := (l.drop offset).take length

theorem length_cut (h : offset + length ≤ l.length) : (cut l offset length).length = length := by
  rw [cut, length_take, length_drop]
  omega

@[simp] theorem cut_zero : cut l offset 0 = [] := take_zero

@[simp] theorem cut_all : cut l 0 l.length = l := take_length

theorem cut_cut {start n : Nat} (h : start + n ≤ length) :
    cut (cut l offset length) start n = cut l (offset + start) n := by
  rw [cut, cut, drop_take, drop_drop, take_take]
  congr 1
  omega

/-- Only the length that is left counts. -/
theorem cut_min : cut l offset (min length (l.length - offset)) = cut l offset length := by
  rw [cut, cut, ← length_drop, take_eq_take_iff]
  omega

theorem cut_append {r : List α} :
    cut (l ++ r) offset length =
      cut l offset length ++ cut r (offset - l.length) (length - (l.length - offset)) := by
  rw [cut, drop_append, take_append, length_drop, cut, cut]

/-! ## Interleavings -/

variable {α : Type*}

inductive Interleaving : List α → List α → List α → Prop where
  | nil : Interleaving [] [] []
  | left {x xs ys l} (h : Interleaving xs ys l) : Interleaving (x :: xs) ys (x :: l)
  | right {y xs ys l} (h : Interleaving xs ys l) : Interleaving xs (y :: ys) (y :: l)

namespace Interleaving

/-- A chunk of elements that stay together may be counted as two chunks. -/
theorem split {x y : List α} {xs ys parts : List (List α)}
    (h : Interleaving ((x ++ y) :: xs) ys parts) :
    ∃ parts', Interleaving (x :: y :: xs) ys parts' ∧ parts'.flatten = parts.flatten := by
  generalize hl : (x ++ y) :: xs = l at h
  induction h with
  | nil => cases hl
  | left h =>
    cases hl
    exact ⟨_, h.left.left, by simp⟩
  | right _ ih =>
    obtain ⟨parts', hparts', hflat⟩ := ih hl
    exact ⟨_, hparts'.right, by simp [hflat]⟩

/-- An empty chunk counts for nothing. -/
theorem drop_nil {xs ys parts : List (List α)} (h : Interleaving ([] :: xs) ys parts) :
    ∃ parts', Interleaving xs ys parts' ∧ parts'.flatten = parts.flatten := by
  generalize hl : [] :: xs = l at h
  induction h with
  | nil => cases hl
  | left h =>
    cases hl
    exact ⟨_, h, rfl⟩
  | right _ ih =>
    obtain ⟨parts', hparts', hflat⟩ := ih hl
    exact ⟨_, hparts'.right, by simp [hflat]⟩

end Interleaving

/-! ## The edges of a signal -/

/-- What a step reports. -/
def edge (before after : Bool) : List Bool := if before = after then [] else [after]

@[simp] theorem edge_self (v : Bool) : edge v v = [] := by simp [edge]

structure Reports (reports : List Bool) (value : Bool) : Prop where
  first : reports.head? ≠ some false
  alternate : reports.IsChain (· ≠ ·)
  last : reports.getLast?.getD false = value

namespace Reports

variable {reports : List Bool} {value : Bool}

theorem nil : Reports [] false := ⟨by simp, .nil, rfl⟩

theorem last_eq_true (h : Reports reports value) : reports.getLast? = some true ↔ value = true := by
  rw [← h.last]
  cases reports.getLast? <;> simp

theorem step (h : Reports reports value) (after : Bool) :
    Reports (reports ++ edge value after) after := by
  by_cases heq : value = after
  · subst heq
    simpa using h
  rw [edge, if_neg heq]
  refine ⟨?_, ?_, by simp⟩
  · cases reports with
    | nil =>
      have hvalue : false = value := h.last
      subst hvalue
      simpa using fun hafter : after = false => heq hafter.symm
    | cons first rest => simpa using h.first
  · refine isChain_append.2 ⟨h.alternate, .singleton _, ?_⟩
    intro x hx y hy
    obtain rfl : after = y := by simpa using hy
    have hlast := h.last
    rw [Option.mem_def.1 hx] at hlast
    exact fun hxy => heq (hlast.symm.trans hxy)

end Reports

end Lib
