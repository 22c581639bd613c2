import Mathlib.Algebra.Order.Ring.Int
import Mathlib.Data.Finset.Disjoint

/-!
# Sums over lists and maps

What an accounting argument needs: how a sum over a list changes when one position is replaced
(`sum_map_set`), removed (`countP_eraseIdx`) or some terms grow (`sum_map_add_ite`), and the same
for maps. `mapSum f t` adds up `f` over the values of a map. A change at one key changes the sum by
the values at that key (`mapSum_update`): insertion, replacement and removal are the cases in which
the key was absent, present or is absent afterwards.
-/

namespace Lib

open List

/-! ## Lists -/

theorem sum_map_set {α : Type*} (f : α → Nat) {l : List α} {i : Nat} {a : α}
    (h : l[i]? = some a) (b : α) : ((l.set i b).map f).sum + f a = (l.map f).sum + f b := by
  induction l generalizing i with
  | nil => cases h
  | cons x l ih =>
    cases i with
    | zero =>
      cases h
      simp only [set_cons_zero, map_cons, sum_cons]
      omega
    | succ i =>
      have := ih (getElem?_cons_succ ▸ h)
      simp only [set_cons_succ, map_cons, sum_cons]
      omega

theorem countP_eraseIdx {α : Type*} (p : α → Bool) {l : List α} {i : Nat} {a : α}
    (h : l[i]? = some a) : (l.eraseIdx i).countP p + (if p a then 1 else 0) = l.countP p := by
  obtain ⟨hlt, rfl⟩ := List.getElem?_eq_some_iff.1 h
  have hsplit : l.countP p = (l.take i ++ l[i] :: l.drop (i + 1)).countP p := by
    rw [← List.drop_eq_getElem_cons hlt, List.take_append_drop]
  rw [hsplit, eraseIdx_eq_take_drop_succ, countP_append, countP_append, countP_cons]
  omega

theorem sum_map_add_ite {α : Type*} (f : α → Nat) (p : α → Bool) (l : List α) :
    (l.map fun a => f a + if p a then 1 else 0).sum = (l.map f).sum + l.countP p := by
  induction l with
  | nil => rfl
  | cons a l ih =>
    simp only [map_cons, sum_cons, countP_cons]
    omega

/-! ## Maps -/

variable {κ α : Type*} {cmp : κ → κ → Ordering}

def mapSum (f : α → Nat) (t : Std.TreeMap κ α cmp) : Nat := (t.toList.map fun x => f x.2).sum

@[simp] theorem mapSum_empty (f : α → Nat) : mapSum f (∅ : Std.TreeMap κ α cmp) = 0 := rfl

/-- What a key contributes to a sum. -/
def mapTerm (f : α → Nat) (value : Option α) : Nat := value.elim 0 f

@[simp] theorem mapTerm_none (f : α → Nat) : mapTerm f none = 0 := rfl

@[simp] theorem mapTerm_some (f : α → Nat) (a : α) : mapTerm f (some a) = f a := rfl

theorem mapSum_map {β : Type*} (f : β → Nat) (g : κ → α → β) (t : Std.TreeMap κ α cmp) :
    mapSum f (t.map g) = (t.toList.map fun x => f (g x.1 x.2)).sum := by
  simp [mapSum, Function.comp_def]

variable [Std.TransCmp cmp] [Std.LawfulEqCmp cmp]

theorem nodup_toList (t : Std.TreeMap κ α cmp) : t.toList.Nodup :=
  Std.TreeMap.distinct_keys_toList.imp fun {x y} hne (heq : x = y) =>
    hne (heq ▸ Std.LawfulEqCmp.compare_eq_iff_eq.2 rfl)

variable [DecidableEq κ]

/-- A map is what it has at one key and what it has at the others. -/
theorem toList_perm (t : Std.TreeMap κ α cmp) (k : κ) :
    t.toList.Perm (t[k]?.toList.map (fun a => (k, a)) ++ t.toList.filter fun x => x.1 ≠ k) := by
  have hmem : ∀ x, x ∈ t.toList ↔ t[x.1]? = some x.2 :=
    fun x => Std.TreeMap.mem_toList_iff_getElem?_eq_some
  refine (perm_ext_iff_of_nodup (nodup_toList t) ?_).2 fun x => ?_
  · refine nodup_append.2 ⟨?_, (nodup_toList t).filter _, ?_⟩
    · cases t[k]? <;> simp
    · rintro x hx y hy rfl
      obtain ⟨a, -, rfl⟩ := mem_map.1 hx
      simp at hy
  · rw [mem_append]
    obtain ⟨k', a⟩ := x
    by_cases hk : k' = k
    · subst hk
      simp [Option.mem_toList]
    · simp [hk, Ne.symm hk]

theorem mapSum_eq (f : α → Nat) (t : Std.TreeMap κ α cmp) (k : κ) :
    mapSum f t =
      mapTerm f t[k]? + ((t.toList.filter fun x => x.1 ≠ k).map fun x => f x.2).sum := by
  rw [mapSum, ((toList_perm t k).map _).sum_nat]
  cases t[k]? <;> simp

/-- Maps that agree off one key differ in their sums by what they have there. -/
theorem mapSum_update (f : α → Nat) (t t' : Std.TreeMap κ α cmp) (k : κ)
    (h : ∀ k', k' ≠ k → t'[k']? = t[k']?) :
    mapSum f t' + mapTerm f t[k]? = mapSum f t + mapTerm f t'[k]? := by
  have hperm : (t'.toList.filter fun x => x.1 ≠ k).Perm (t.toList.filter fun x => x.1 ≠ k) := by
    refine (perm_ext_iff_of_nodup ((nodup_toList t').filter _)
      ((nodup_toList t).filter _)).2 fun x => ?_
    rw [mem_filter, mem_filter, Std.TreeMap.mem_toList_iff_getElem?_eq_some,
      Std.TreeMap.mem_toList_iff_getElem?_eq_some]
    by_cases hk : x.1 = k
    · simp [hk]
    · rw [h x.1 hk]
  rw [mapSum_eq f t' k, mapSum_eq f t k, (hperm.map _).sum_nat]
  omega

theorem mapSum_insert (f : α → Nat) (t : Std.TreeMap κ α cmp) (k : κ) (a : α) :
    mapSum f (t.insert k a) + mapTerm f t[k]? = mapSum f t + f a := by
  have h := mapSum_update f t (t.insert k a) k fun k' hk => by
    rw [Std.TreeMap.getElem?_insert, if_neg fun heq => hk (Std.LawfulEqCmp.eq_of_compare heq).symm]
  rwa [Std.TreeMap.getElem?_insert, if_pos Std.ReflCmp.compare_self] at h

theorem mapSum_erase (f : α → Nat) (t : Std.TreeMap κ α cmp) (k : κ) :
    mapSum f (t.erase k) + mapTerm f t[k]? = mapSum f t := by
  have h := mapSum_update f t (t.erase k) k fun k' hk => by
    rw [Std.TreeMap.getElem?_erase, if_neg fun heq => hk (Std.LawfulEqCmp.eq_of_compare heq).symm]
  rwa [Std.TreeMap.getElem?_erase, if_pos Std.ReflCmp.compare_self] at h

end Lib
