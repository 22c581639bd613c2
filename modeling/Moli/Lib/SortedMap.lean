import Mathlib.Data.List.Nodup
import Mathlib.Order.Lattice

/-!
# Maps that are sorted by their keys

An ordered map as the list of its entries with increasing keys: insertion, removal and the
neighbours of a key. Each operation has one lemma that says what it does to the entries.
-/

namespace Lib

open List

variable {K V : Type*} [LinearOrder K]

@[ext]
structure SortedMap (K V : Type*) [LinearOrder K] where
  entries : List (K × V)
  sorted : entries.Pairwise (·.1 < ·.1)

namespace SortedMap

def empty : SortedMap K V := ⟨[], .nil⟩

def find (m : SortedMap K V) (k : K) : Option V := (m.entries.find? (·.1 = k)).map (·.2)

def insert (m : SortedMap K V) (k : K) (v : V) : SortedMap K V where
  entries := m.entries.filter (·.1 < k) ++ (k, v) :: m.entries.filter (k < ·.1)
  sorted := by
    refine pairwise_append.2 ⟨m.sorted.filter _, pairwise_cons.2 ⟨?_, m.sorted.filter _⟩, ?_⟩
    · intro e he
      simpa using (mem_filter.1 he).2
    · intro e he e' he'
      have hlt : e.1 < k := by simpa using (mem_filter.1 he).2
      rcases mem_cons.1 he' with rfl | he'
      · exact hlt
      · exact hlt.trans (by simpa using (mem_filter.1 he').2)

def remove (m : SortedMap K V) (k : K) : SortedMap K V where
  entries := m.entries.filter (·.1 ≠ k)
  sorted := m.sorted.filter _

/-- Keep, change or drop each entry. -/
def mapMaybe {W : Type*} (m : SortedMap K V) (f : K → V → Option W) : SortedMap K W where
  entries := m.entries.filterMap fun e => (f e.1 e.2).map (e.1, ·)
  sorted := by
    refine List.Pairwise.filterMap _ ?_ m.sorted
    intro e e' hlt
    simp only [Option.map_eq_some_iff]
    rintro _ ⟨w, -, rfl⟩ _ ⟨w', -, rfl⟩
    exact hlt

/-- The last entry below a key. -/
def lastBelow (m : SortedMap K V) (k : K) : Option (K × V) :=
  (m.entries.filter (·.1 < k)).getLast?

/-- The first entry at or above a key. -/
def firstFrom (m : SortedMap K V) (k : K) : Option (K × V) := m.entries.find? (k ≤ ·.1)

/-- The first entry between two keys. -/
def firstWithin (m : SortedMap K V) (low high : K) : Option (K × V) :=
  m.entries.find? fun e => low ≤ e.1 ∧ e.1 ≤ high

def last (m : SortedMap K V) : Option (K × V) := m.entries.getLast?

variable {m : SortedMap K V} {k : K} {v : V} {e : K × V}

/-! ## Entries -/

theorem nodup_keys (m : SortedMap K V) : (m.entries.map (·.1)).Nodup :=
  pairwise_map.2 (m.sorted.imp fun h => h.ne)

theorem eq_of_key_eq {e e' : K × V} (he : e ∈ m.entries) (he' : e' ∈ m.entries)
    (hkey : e.1 = e'.1) : e = e' :=
  inj_on_of_nodup_map m.nodup_keys he he' hkey

theorem mem_insert : e ∈ (m.insert k v).entries ↔ e = (k, v) ∨ e ∈ m.entries ∧ e.1 ≠ k := by
  simp only [insert, mem_append, mem_cons, mem_filter, decide_eq_true_eq]
  constructor
  · rintro (⟨he, hlt⟩ | rfl | ⟨he, hlt⟩)
    · exact .inr ⟨he, hlt.ne⟩
    · exact .inl rfl
    · exact .inr ⟨he, hlt.ne'⟩
  · rintro (rfl | ⟨he, hne⟩)
    · exact .inr (.inl rfl)
    · rcases lt_or_gt_of_ne hne with hlt | hlt
      · exact .inl ⟨he, hlt⟩
      · exact .inr (.inr ⟨he, hlt⟩)

theorem mem_remove : e ∈ (m.remove k).entries ↔ e ∈ m.entries ∧ e.1 ≠ k := by
  simp [remove]

theorem find_eq_some : m.find k = some v ↔ (k, v) ∈ m.entries := by
  rw [find, Option.map_eq_some_iff]
  constructor
  · rintro ⟨e, he, rfl⟩
    have hkey : e.1 = k := by simpa using find?_some he
    subst hkey
    exact mem_of_find?_eq_some he
  · intro hmem
    cases hfind : m.entries.find? (·.1 = k) with
    | none =>
      have := find?_eq_none.1 hfind (k, v) hmem
      simp at this
    | some e =>
      have hkey : e.1 = k := by simpa using find?_some hfind
      exact ⟨e, rfl, by rw [eq_of_key_eq (mem_of_find?_eq_some hfind) hmem hkey]⟩

theorem find_eq_none : m.find k = none ↔ ∀ v, (k, v) ∉ m.entries := by
  rw [Option.eq_none_iff_forall_ne_some]
  exact forall_congr' fun v => not_congr find_eq_some

theorem find_insert {x : K} : (m.insert k v).find x = if x = k then some v else m.find x := by
  refine Option.ext fun w => ?_
  rw [find_eq_some, mem_insert]
  by_cases hx : x = k
  · rw [if_pos hx]
    simp [hx, eq_comm]
  · simp [hx, find_eq_some]

theorem find_remove {x : K} : (m.remove k).find x = if x = k then none else m.find x := by
  refine Option.ext fun w => ?_
  rw [find_eq_some, mem_remove]
  by_cases hx : x = k
  · simp [hx]
  · simp [hx, find_eq_some]

/-- The keys of a list, collected one by one. -/
theorem find_foldl_insert {W : Type*} {l : List (K × W)} {m : SortedMap K Unit} {x : K} :
    (l.foldl (fun keys e => keys.insert e.1 ()) m).find x = some () ↔
      m.find x = some () ∨ ∃ e ∈ l, e.1 = x := by
  induction l generalizing m with
  | nil => simp
  | cons e l ih =>
    rw [foldl_cons, ih, find_insert]
    by_cases hx : x = e.1
    · simp [hx]
    · simp [hx, Ne.symm hx]

theorem find_mapMaybe {W : Type*} {f : K → V → Option W} :
    (m.mapMaybe f).find k = (m.find k).bind (f k) := by
  refine Option.ext fun w => ?_
  simp only [find_eq_some, Option.bind_eq_some_iff, mapMaybe, mem_filterMap,
    Option.map_eq_some_iff, Prod.mk.injEq]
  constructor
  · rintro ⟨e, he, w', hw, rfl, rfl⟩
    exact ⟨e.2, he, hw⟩
  · rintro ⟨v, hv, hw⟩
    exact ⟨(k, v), hv, w, hw, rfl, rfl⟩

/-- A new key adds its entry. -/
theorem insert_perm (hnew : ∀ e ∈ m.entries, e.1 ≠ k) :
    (m.insert k v).entries.Perm ((k, v) :: m.entries) := by
  have hrest : m.entries.filter (k < ·.1) = m.entries.filter fun e => !decide (e.1 < k) := by
    refine filter_congr fun e he => ?_
    rcases lt_or_gt_of_ne (hnew e he) with hlt | hlt
    · simp [hlt, hlt.not_gt]
    · simp [hlt, hlt.not_gt]
  refine perm_middle.trans (.cons _ ?_)
  rw [hrest]
  exact filter_append_perm _ _

/-- Removing an entry that is there. -/
theorem remove_perm (he : (k, v) ∈ m.entries) :
    m.entries.Perm ((k, v) :: (m.remove k).entries) := by
  have hhere : m.entries.filter (fun e => !decide (e.1 ≠ k)) = [(k, v)] := by
    obtain ⟨before, after, hsplit⟩ := append_of_mem he
    have hsorted := m.sorted
    rw [hsplit] at hsorted ⊢
    obtain ⟨-, hafter, hbefore⟩ := pairwise_append.1 hsorted
    have hb : before.filter (fun e => !decide (e.1 ≠ k)) = [] :=
      filter_eq_nil_iff.2 fun e hmem => by
        simpa using (hbefore e hmem (k, v) mem_cons_self).ne
    have ha : after.filter (fun e => !decide (e.1 ≠ k)) = [] :=
      filter_eq_nil_iff.2 fun e hmem => by
        simpa using ((pairwise_cons.1 hafter).1 e hmem).ne'
    rw [filter_append, hb, filter_cons_of_pos (by simp), ha]
    rfl
  have hperm := filter_append_perm (fun e : K × V => decide (e.1 ≠ k)) m.entries
  rw [hhere] at hperm
  exact (hperm.symm.trans perm_append_comm)

/-! ## Neighbours -/

theorem lastBelow_eq_some (h : m.lastBelow k = some e) :
    e ∈ m.entries ∧ e.1 < k ∧ ∀ e' ∈ m.entries, e'.1 < k → e'.1 ≤ e.1 := by
  obtain ⟨before, hsplit⟩ := getLast?_eq_some_iff.1 h
  have hmem : e ∈ m.entries.filter (·.1 < k) := by simp [hsplit]
  obtain ⟨he, hlt⟩ := mem_filter.1 hmem
  refine ⟨he, by simpa using hlt, fun e' he' hlt' => ?_⟩
  have hmem' : e' ∈ before ++ [e] := hsplit ▸ mem_filter.2 ⟨he', by simpa using hlt'⟩
  have hsorted : (before ++ [e]).Pairwise (·.1 < ·.1) := hsplit ▸ m.sorted.filter _
  rcases mem_append.1 hmem' with hbefore | hlast
  · exact ((pairwise_append.1 hsorted).2.2 e' hbefore e (by simp)).le
  · rw [mem_singleton.1 hlast]

theorem lastBelow_eq_none (h : m.lastBelow k = none) : ∀ e ∈ m.entries, k ≤ e.1 := by
  intro e he
  by_contra hlt
  have hmem : e ∈ m.entries.filter (·.1 < k) := mem_filter.2 ⟨he, by simpa using hlt⟩
  rw [getLast?_eq_none_iff.1 h] at hmem
  cases hmem

theorem firstFrom_eq_some (h : m.firstFrom k = some e) :
    e ∈ m.entries ∧ k ≤ e.1 ∧ ∀ e' ∈ m.entries, k ≤ e'.1 → e.1 ≤ e'.1 := by
  obtain ⟨hge, before, after, hsplit, hbefore⟩ := find?_eq_some_iff_append.1 h
  refine ⟨by simp [hsplit], by simpa using hge, fun e' he' hge' => ?_⟩
  have hsorted := m.sorted
  rw [hsplit] at he' hsorted
  rcases mem_append.1 he' with he' | he'
  · have := hbefore e' he'
    simp [hge'] at this
  · rcases mem_cons.1 he' with rfl | he'
    · exact le_rfl
    · exact ((pairwise_cons.1 (pairwise_append.1 hsorted).2.1).1 e' he').le

theorem firstFrom_eq_none (h : m.firstFrom k = none) : ∀ e ∈ m.entries, e.1 < k := by
  intro e he
  simpa using find?_eq_none.1 h e he

theorem firstWithin_eq_some {low high : K} (h : m.firstWithin low high = some e) :
    e ∈ m.entries ∧ low ≤ e.1 ∧ e.1 ≤ high := by
  have hwithin := find?_some h
  exact ⟨mem_of_find?_eq_some h, by simpa using hwithin⟩

theorem firstWithin_eq_none {low high : K} (h : m.firstWithin low high = none) :
    ∀ e ∈ m.entries, low ≤ e.1 → ¬ e.1 ≤ high := by
  intro e he hlow hhigh
  have := find?_eq_none.1 h e he
  simp [hlow, hhigh] at this

theorem last_eq_some (h : m.last = some e) :
    e ∈ m.entries ∧ ∀ e' ∈ m.entries, e'.1 ≤ e.1 := by
  obtain ⟨before, hsplit⟩ := getLast?_eq_some_iff.1 h
  have hsorted := m.sorted
  refine ⟨by simp [hsplit], fun e' he' => ?_⟩
  rw [hsplit] at he' hsorted
  rcases mem_append.1 he' with hbefore | hlast
  · exact ((pairwise_append.1 hsorted).2.2 e' hbefore e (by simp)).le
  · rw [mem_singleton.1 hlast]

theorem last_eq_none (h : m.last = none) : m.entries = [] := getLast?_eq_none_iff.1 h

end SortedMap

end Lib
