import Mathlib.Data.List.AList

/-!
# Association lists

What a search over the entries of an association list finds, in terms of its lookups. A map of
changes is carried out entry by entry: when a change at a place affects that place only, the order
of the entries does not matter (`read_foldl_entries`).
-/

namespace Lib

open List

variable {κ α : Type*} [DecidableEq κ] {l : AList fun _ : κ => α} {k : κ} {a : α}

theorem mem_entries_iff : (⟨k, a⟩ : Sigma fun _ : κ => α) ∈ l.entries ↔ l.lookup k = some a :=
  AList.mem_lookup_iff.symm

theorem lookup_insert_eq (l : AList fun _ : κ => α) (k k' : κ) (a : α) :
    (l.insert k a).lookup k' = if k' = k then some a else l.lookup k' := by
  by_cases h : k' = k
  · rw [if_pos h, h, AList.lookup_insert]
  · rw [if_neg h, AList.lookup_insert_ne h]

theorem lookup_erase_eq (l : AList fun _ : κ => α) (k k' : κ) :
    (l.erase k).lookup k' = if k' = k then none else l.lookup k' := by
  by_cases h : k' = k
  · rw [if_pos h, h, AList.lookup_erase]
  · rw [if_neg h, AList.lookup_erase_ne h]

theorem lookup_foldl_erase (l : AList fun _ : κ => α) (keys : List κ) (k : κ) :
    (keys.foldl (fun l k => l.erase k) l).lookup k = if k ∈ keys then none else l.lookup k := by
  induction keys generalizing l with
  | nil => simp
  | cons key keys ih =>
    rw [foldl_cons, ih, lookup_erase_eq]
    by_cases hkey : k = key <;> by_cases hkeys : k ∈ keys <;> simp [hkey]

/-! ## Values -/

/-- The values in the order of the entries. -/
def values (l : AList fun _ : κ => α) : List α := l.entries.map (·.2)

theorem mem_values : a ∈ values l ↔ ∃ k, l.lookup k = some a := by
  simp only [values, mem_map]
  constructor
  · rintro ⟨⟨k, a⟩, hmem, rfl⟩
    exact ⟨k, mem_entries_iff.1 hmem⟩
  · rintro ⟨k, hk⟩
    exact ⟨⟨k, a⟩, mem_entries_iff.2 hk, rfl⟩

theorem values_insert : values (l.insert k a) = a :: values (l.erase k) := rfl

theorem kreplace_append {before after : List (Sigma fun _ : κ => α)} {b : α}
    (hbefore : k ∉ before.keys) :
    kreplace k a (before ++ ⟨k, b⟩ :: after) = before ++ ⟨k, a⟩ :: after := by
  induction before with
  | nil => exact lookmap_cons_some _ _ (dif_pos rfl)
  | cons entry before ih =>
    rw [keys_cons, mem_cons, not_or] at hbefore
    exact (lookmap_cons_none _ _ (dif_neg hbefore.1)).trans (congrArg _ (ih hbefore.2))

theorem entries_split (h : l.lookup k = some a) : ∃ before after,
    k ∉ before.keys ∧ l.entries = before ++ ⟨k, a⟩ :: after ∧
      (l.erase k).entries = before ++ after ∧
      ∀ a', (l.replace k a').entries = before ++ ⟨k, a'⟩ :: after := by
  have hmem : k ∈ l.entries.keys := AList.lookup_isSome.1 (by rw [h]; rfl)
  obtain ⟨b, before, after, hbefore, hentries, herase⟩ := exists_of_kerase hmem
  have hb : b = a := by
    have hlookup : l.lookup k = some b := by
      rw [← mem_entries_iff, hentries]
      simp
    exact Option.some.inj (hlookup.symm.trans h)
  subst hb
  refine ⟨before, after, hbefore, hentries, herase, fun a' => ?_⟩
  rw [← kreplace_append hbefore, ← hentries]
  rfl

/-- The values around the one at a key. -/
theorem exists_values_split (h : l.lookup k = some a) : ∃ before after,
    values l = before ++ a :: after ∧ values (l.erase k) = before ++ after ∧
      ∀ a', values (l.replace k a') = before ++ a' :: after := by
  obtain ⟨before, after, -, hentries, herase, hreplace⟩ := entries_split h
  refine ⟨before.map (·.2), after.map (·.2), ?_, ?_, fun a' => ?_⟩
  · rw [values, hentries, map_append, map_cons]
  · rw [values, herase, map_append]
  · rw [values, hreplace, map_append, map_cons]

theorem values_perm_erase (h : l.lookup k = some a) :
    (values l).Perm (a :: values (l.erase k)) := by
  obtain ⟨before, after, hl, herase, -⟩ := exists_values_split h
  rw [hl, herase]
  exact perm_middle

/-- Replace the value of a key that is there. -/
theorem lookup_replace_eq {b : α} (h : l.lookup k = some b) (k' : κ) :
    (l.replace k a).lookup k' = if k' = k then some a else l.lookup k' := by
  obtain ⟨before, after, hbefore, hentries, -, hreplace⟩ := entries_split h
  rw [AList.lookup, AList.lookup, hreplace, hentries, dlookup_append, dlookup_append]
  split_ifs with hk
  · subst hk
    rw [dlookup_eq_none.2 hbefore, dlookup_cons_eq, Option.none_or]
  · rw [dlookup_cons_ne _ _ hk, dlookup_cons_ne _ _ hk]

theorem erase_of_absent (h : l.lookup k = none) : l.erase k = l :=
  AList.ext (kerase_of_notMem_keys (AList.lookup_eq_none.1 h))

theorem lookup_of_isEmpty (h : l.entries.isEmpty) (k : κ) : l.lookup k = none := by
  refine AList.lookup_eq_none.2 fun hmem => ?_
  have hkey : k ∈ l.keys := hmem
  rw [AList.keys, isEmpty_iff.1 h] at hkey
  exact not_mem_nil hkey

/-! ## Maps of maps -/

section Through

variable {β κ' : Type*} {r : β → κ' → Option α} {m : AList fun _ : κ => β} {b : β} {place : κ × κ'}

/-- Read an inner map of a map. -/
def through (r : β → κ' → Option α) (m : AList fun _ : κ => β) (place : κ × κ') : Option α :=
  (m.lookup place.1).bind fun b => r b place.2

/-- Store an inner map that differs from the present one at a single place. -/
theorem through_store [DecidableEq κ'] {k₀ : κ'} {x : Option α} {m' : AList fun _ : κ => β}
    (hm : ∀ k', m'.lookup k' = if k' = k then some b else m.lookup k')
    (hb : ∀ k', r b k' = if k' = k₀ then x else through r m (k, k')) :
    through r m' place = if place = (k, k₀) then x else through r m place := by
  obtain ⟨i, j⟩ := place
  by_cases hi : i = k
  · subst hi
    rw [through, hm, if_pos rfl, Option.bind_some, hb]
    simp only [Prod.mk.injEq, true_and]
  · rw [if_neg (by simp [hi]), through, through, hm, if_neg hi]

/-- Drop an inner map that holds nothing at other places. -/
theorem through_erase [DecidableEq κ'] {k₀ : κ'} (h : ∀ k', k' ≠ k₀ → through r m (k, k') = none) :
    through r (m.erase k) place = if place = (k, k₀) then none else through r m place := by
  obtain ⟨i, j⟩ := place
  by_cases hi : i = k
  · subst hi
    rw [through, lookup_erase_eq, if_pos rfl, Option.bind_none]
    by_cases hj : j = k₀
    · rw [if_pos (by rw [hj])]
    · rw [if_neg (by simp [hj]), h j hj]
  · rw [if_neg (by simp [hi]), through, through, lookup_erase_eq, if_neg hi]

theorem through_of_lookup (h : m.lookup place.1 = some b) : through r m place = r b place.2 := by
  rw [through, h, Option.bind_some]

theorem through_of_absent (h : m.lookup place.1 = none) : through r m place = none := by
  rw [through, h, Option.bind_none]

end Through

/-! ## Changes by place -/

variable {κ α δ γ : Type*} [DecidableEq κ]

/-- Carry out the changes of a map, where the reader `r` sees a change by `p` at its own place
only. -/
theorem read_foldl_entries {r : δ → κ → γ} {p : δ → κ → α → δ} {f : α → γ → γ}
    (hp : ∀ d k a k', r (p d k a) k' = if k' = k then f a (r d k) else r d k')
    (l : AList fun _ : κ => α) (d : δ) (k : κ) :
    r (l.entries.foldl (fun d e => p d e.1 e.2) d) k =
      match l.lookup k with
      | some a => f a (r d k)
      | none => r d k := by
  induction l using AList.insertRec generalizing d with
  | H0 => rfl
  | IH k' a l hk ih =>
    rw [AList.entries_insert_of_notMem hk, foldl_cons, ih, hp, lookup_insert_eq]
    by_cases hkk : k = k'
    · subst hkk
      rw [AList.lookup_eq_none.2 hk, if_pos rfl, if_pos rfl]
    · rw [if_neg hkk, if_neg hkk]

/-- The entries of the newer map replace those of the older one. -/
def extend (older newer : AList fun _ : κ => α) : AList fun _ : κ => α :=
  newer.entries.foldl (fun l e => l.insert e.1 e.2) older

theorem lookup_extend (older newer : AList fun _ : κ => α) (k : κ) :
    (extend older newer).lookup k = (newer.lookup k).or (older.lookup k) := by
  have hread := read_foldl_entries (r := fun (l : AList fun _ : κ => α) k => l.lookup k)
    (f := fun a _ => some a) (fun l k a k' => lookup_insert_eq l k k' a) newer older k
  refine hread.trans ?_
  cases newer.lookup k <;> rfl

end Lib
