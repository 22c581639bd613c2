import Mathlib.Data.List.Nodup
import Mathlib.Data.List.Perm.Subperm
import Mathlib.Data.List.Range

/-!
# Following a partial function

`Follows next start l` says that the walk that begins at `start` and repeatedly applies `next`
visits exactly the elements of `l` and then stops. A finite walk never repeats an element
(`Follows.nodup`), so on a bounded carrier it is short (`Follows.length_le`) and the fuelled loop
`follow` computes it (`Follows.follow_eq`). `Follows.splice` redirects the end of a walk, which is
what insertion into and deletion from a linked list do; `Follows.reroute` changes one element's
successor, which is what moving a subtree does to the ancestor walks through its root.
-/

namespace Lib

open List

variable {α : Type*}

def Follows (next : α → Option α) : Option α → List α → Prop
  | start, [] => start = none
  | start, a :: l => start = some a ∧ Follows next (next a) l

/-- The walk from `start`, `none` when it is longer than the fuel. -/
def follow (next : α → Option α) : Nat → Option α → Option (List α)
  | _, none => some []
  | 0, some _ => none
  | fuel + 1, some a => (follow next fuel (next a)).map (a :: ·)

variable {f g : α → Option α} {start : Option α} {a b c : α} {l xs ys zs : List α}

@[simp] theorem follows_nil : Follows f start [] ↔ start = none := Iff.rfl

theorem length_le_of_nodup {l : List Nat} {n : Nat} (h : l.Nodup) (hn : ∀ x ∈ l, x < n) :
    l.length ≤ n := by
  have hsub : l ⊆ range n := fun x hx => mem_range.2 (hn x hx)
  simpa using (h.subperm hsub).length_le

namespace Follows

theorem start_eq (h : Follows f start l) : start = l.head? := by
  cases l with
  | nil => exact h
  | cons a l => exact h.1

theorem of_append (h : Follows f start (xs ++ ys)) : Follows f ys.head? ys := by
  induction xs generalizing start with
  | nil =>
    rw [nil_append] at h
    rwa [← h.start_eq]
  | cons x xs ih => exact ih h.2

theorem next_eq (h : Follows f start (xs ++ a :: ys)) : f a = ys.head? :=
  h.of_append.2.start_eq

theorem last_eq (h : Follows f start l) (ha : l.getLast? = some a) : f a = none := by
  obtain ⟨xs, rfl⟩ := getLast?_eq_some_iff.1 ha
  exact h.next_eq

theorem unique (h : Follows f start l) (h' : Follows f start xs) : l = xs := by
  induction l generalizing start xs with
  | nil =>
    cases xs with
    | nil => rfl
    | cons x xs => exact absurd (h.symm.trans h'.1) (by simp)
  | cons a l ih =>
    cases xs with
    | nil => exact absurd (h'.symm.trans h.1) (by simp)
    | cons x xs =>
      obtain rfl : a = x := Option.some.inj (h.1.symm.trans h'.1)
      rw [ih h.2 h'.2]

/-- A walk that came back to an element would never stop. -/
theorem nodup (h : Follows f start l) : l.Nodup := by
  induction l generalizing start with
  | nil => exact nodup_nil
  | cons a l ih =>
    refine nodup_cons.2 ⟨fun ha => ?_, ih h.2⟩
    obtain ⟨xs, ys, rfl⟩ := append_of_mem ha
    have hagain : Follows f (some a) (a :: ys) := h.2.of_append
    have hwhole : Follows f (some a) (a :: (xs ++ a :: ys)) := ⟨rfl, h.2⟩
    have heq := hagain.unique hwhole
    have hlen := congrArg length heq
    simp only [length_cons, length_append] at hlen
    omega

theorem congr (h : Follows f start l) (hfg : ∀ x ∈ l, g x = f x) : Follows g start l := by
  induction l generalizing start with
  | nil => exact h
  | cons a l ih =>
    refine ⟨h.1, ?_⟩
    rw [hfg a (by simp)]
    exact ih h.2 fun x hx => hfg x (by simp [hx])

/-- Redirecting the end of a walk: the elements of `xs` keep their successors, except that the last
one now leads to `zs`. -/
theorem splice (h : Follows f start (xs ++ ys)) (hz : Follows g zs.head? zs)
    (hlast : ∀ x, xs.getLast? = some x → g x = zs.head?)
    (hkeep : ∀ x ∈ xs, xs.getLast? ≠ some x → g x = f x) :
    Follows g (xs ++ zs).head? (xs ++ zs) := by
  induction xs generalizing start with
  | nil => exact hz
  | cons a xs ih =>
    refine ⟨rfl, ?_⟩
    cases xs with
    | nil =>
      rw [hlast a rfl]
      exact hz
    | cons b xs =>
      have ha : a ∉ b :: xs := fun hmem =>
        (nodup_cons.1 h.nodup).1 (mem_append_left _ hmem)
      have hne : (a :: b :: xs).getLast? ≠ some a := by
        exact fun hl => ha (mem_of_getLast? hl)
      have hfa : f a = some b := h.2.1
      rw [hkeep a (by simp) hne, hfa]
      exact ih h.2 hlast fun x hx => hkeep x (mem_cons_of_mem _ hx)

/-- A walk through `c` after `c` alone got a new successor. -/
theorem reroute (h : Follows f start (xs ++ c :: ys)) (hg : ∀ x, x ≠ c → g x = f x)
    (hzs : Follows g (g c) zs) : Follows g start (xs ++ c :: zs) := by
  induction xs generalizing start with
  | nil => exact ⟨h.1, hzs⟩
  | cons a xs ih =>
    refine ⟨h.1, ?_⟩
    have ha : a ≠ c := by
      rintro rfl
      exact (nodup_cons.1 h.nodup).1 (by simp)
    rw [hg a ha]
    exact ih h.2

/-- A walk whose steps all lead below `n` is short, wherever it begins. -/
theorem length_le {f : Nat → Option Nat} {start : Option Nat} {l : List Nat} {n : Nat}
    (h : Follows f start l) (hn : ∀ x y, f x = some y → y < n) : l.length ≤ n + 1 := by
  have hlt : ∀ {start l}, Follows f start l → (∀ y, start = some y → y < n) → ∀ x ∈ l, x < n := by
    intro start l hl hstart
    induction l generalizing start with
    | nil => simp
    | cons a l ih => exact forall_mem_cons.2 ⟨hstart a hl.1, ih hl.2 (hn a)⟩
  cases l with
  | nil => exact Nat.zero_le _
  | cons a l =>
    have hshort := length_le_of_nodup (nodup_cons.1 h.nodup).2 (hlt h.2 (hn a))
    rw [length_cons]
    omega

theorem follow_eq (h : Follows f start l) {fuel : Nat} (hfuel : l.length ≤ fuel) :
    follow f fuel start = some l := by
  induction l generalizing start fuel with
  | nil =>
    rw [h, follow]
  | cons a l ih =>
    obtain ⟨fuel, rfl⟩ : ∃ m, fuel = m + 1 := ⟨fuel - 1, by simp at hfuel; omega⟩
    rw [h.1, follow, ih h.2 (by simpa using hfuel)]
    rfl

end Follows

/-- Every walk is finite. -/
def Grounded (f : α → Option α) : Prop := ∀ a, ∃ l, Follows f (some a) l

namespace Grounded

/-- Walks that may stop early are finite as well. -/
theorem mono (h : Grounded f) (hg : ∀ x y, g x = some y → f x = some y) : Grounded g := by
  intro a
  obtain ⟨l, hl⟩ := h a
  induction l generalizing a with
  | nil => cases hl
  | cons b l ih =>
    obtain rfl : a = b := Option.some.inj hl.1
    cases hga : g a with
    | none => exact ⟨[a], rfl, hga⟩
    | some c =>
      obtain ⟨m, hm⟩ := ih c (hg a c hga ▸ hl.2)
      exact ⟨a :: m, rfl, hga ▸ hm⟩

/-- Giving `c` a new successor, or none, keeps walks finite if that successor's walk avoids `c`. -/
theorem reroute (h : Grounded f) (hg : ∀ x, x ≠ c → g x = f x)
    (hzs : Follows f (g c) zs) (hc : c ∉ zs) : Grounded g := by
  have hnew : Follows g (g c) zs := hzs.congr fun x hx => hg x (by rintro rfl; exact hc hx)
  intro a
  obtain ⟨l, hl⟩ := h a
  by_cases hmem : c ∈ l
  · obtain ⟨xs, ys, rfl⟩ := append_of_mem hmem
    exact ⟨_, hl.reroute hg hnew⟩
  · exact ⟨l, hl.congr fun x hx => hg x (by rintro rfl; exact hmem hx)⟩

end Grounded

end Lib
