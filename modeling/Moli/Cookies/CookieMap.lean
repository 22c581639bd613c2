import Moli.Lib.Assoc
import Moli.Cookies.Cookie

/-!
# The map of a cookie store

Cookies are kept by domain, then path, then name and partition; a removal leaves the others in their
order. `find` reads the three levels as one
map from canonical keys, and a `CookieMap` holds every cookie at its own key.
-/

namespace Moli.Cookies

open Lib

structure CookieKey where
  name : Text
  partitionKey : Option CookiePartitionKey
deriving DecidableEq

structure CookieStoreKey where
  domain : Text
  path : Text
  name : Text
  partitionKey : Option CookiePartitionKey
deriving DecidableEq

namespace CookieStoreKey

def forCookie (cookie : Cookie) : CookieStoreKey where
  domain := cookie.domain.text
  path := cookie.path.text
  name := cookie.name
  partitionKey := cookie.partitionKey

def cookieKey (key : CookieStoreKey) : CookieKey := ⟨key.name, key.partitionKey⟩

theorem levels_iff {k k' : CookieStoreKey} :
    (k.domain = k'.domain ∧ k.path = k'.path ∧ k.cookieKey = k'.cookieKey) ↔ k = k' := by
  cases k
  cases k'
  simp [cookieKey]

end CookieStoreKey

abbrev NameMap := AList fun _ : CookieKey => Cookie

abbrev PathMap := AList fun _ : Text => NameMap

abbrev DomainMap := AList fun _ : Text => PathMap

namespace PathMap

def find (paths : PathMap) : Text × CookieKey → Option Cookie :=
  through (fun (names : NameMap) key => names.lookup key) paths

def remove (paths : PathMap) (path : Text) (key : CookieKey) : PathMap :=
  match paths.lookup path with
  | none => paths
  | some names =>
    let names := names.erase key
    if names.entries.isEmpty then paths.erase path else paths.replace path names

end PathMap

namespace DomainMap

def find (domains : DomainMap) (key : CookieStoreKey) : Option Cookie :=
  through PathMap.find domains (key.domain, key.path, key.cookieKey)

/-- `entry(domain).or_default().entry(path).or_default().insert(key, cookie)` -/
def insert (domains : DomainMap) (key : CookieStoreKey) (cookie : Cookie) : DomainMap :=
  let paths := (domains.lookup key.domain).getD ∅
  let names := (paths.lookup key.path).getD ∅
  AList.insert key.domain (paths.insert key.path (names.insert key.cookieKey cookie)) domains

/-- A domain goes with its last path, and only when the call removed that path. -/
def remove (domains : DomainMap) (key : CookieStoreKey) : DomainMap :=
  match domains.lookup key.domain with
  | none => domains
  | some paths =>
    let left := PathMap.remove paths key.path key.cookieKey
    if key.path ∈ paths ∧ left.entries.isEmpty then domains.erase key.domain
    else AList.replace key.domain left domains

def iterAny (domains : DomainMap) : List Cookie :=
  ((values domains).flatMap values).flatMap values

end DomainMap

variable {paths : PathMap} {path : Text} {names : NameMap} {ckey : CookieKey}
  {place : Text × CookieKey}
variable {domains : DomainMap} {key k : CookieStoreKey} {cookie : Cookie}

namespace PathMap

theorem find_insert :
    find (paths.insert path (((paths.lookup path).getD ∅).insert ckey cookie)) place =
      if place = (path, ckey) then some cookie else find paths place := by
  refine through_store (fun k' => lookup_insert_eq paths path k' _) fun ckey' => ?_
  rw [lookup_insert_eq]
  cases hpath : paths.lookup path with
  | none => rw [through_of_absent hpath, Option.getD_none, AList.lookup_empty]
  | some names => rw [through_of_lookup hpath, Option.getD_some]

theorem find_remove : find (remove paths path ckey) place =
    if place = (path, ckey) then none else find paths place := by
  unfold remove
  cases hpath : paths.lookup path with
  | none =>
    split_ifs with hplace
    · rw [hplace]
      exact through_of_absent hpath
    · rfl
  | some names =>
    dsimp only
    by_cases hempty : (names.erase ckey).entries.isEmpty
    · rw [if_pos hempty]
      refine through_erase fun ckey' hne => ?_
      rw [through_of_lookup hpath, ← AList.lookup_erase_ne hne]
      exact lookup_of_isEmpty hempty ckey'
    · rw [if_neg hempty]
      refine through_store (fun k' => lookup_replace_eq hpath k') fun ckey' => ?_
      rw [lookup_erase_eq, through_of_lookup hpath]

end PathMap

namespace DomainMap

theorem place_iff : (k.domain, k.path, k.cookieKey) = (key.domain, key.path, key.cookieKey) ↔
    k = key := by
  rw [← CookieStoreKey.levels_iff, Prod.mk.injEq, Prod.mk.injEq]

theorem find_insert :
    find (insert domains key cookie) k = if k = key then some cookie else find domains k := by
  simp only [← place_iff]
  refine through_store (fun k' => lookup_insert_eq domains key.domain k' _) fun place => ?_
  rw [PathMap.find_insert]
  cases hdomain : domains.lookup key.domain with
  | none =>
    rw [through_of_absent hdomain]
    rfl
  | some paths => rw [through_of_lookup hdomain, Option.getD_some]

theorem find_remove :
    find (remove domains key) k = if k = key then none else find domains k := by
  unfold remove
  cases hdomain : domains.lookup key.domain with
  | none =>
    split_ifs with hk
    · rw [hk]
      exact through_of_absent hdomain
    · rfl
  | some paths =>
    simp only [← place_iff]
    by_cases hempty : key.path ∈ paths ∧
      (PathMap.remove paths key.path key.cookieKey).entries.isEmpty
    · rw [if_pos hempty]
      refine through_erase fun place hne => ?_
      have hplace := @PathMap.find_remove paths key.path key.cookieKey place
      rw [if_neg hne] at hplace
      rw [through_of_lookup hdomain, ← hplace]
      exact through_of_absent (lookup_of_isEmpty hempty.2 _)
    · rw [if_neg hempty]
      refine through_store (fun k' => lookup_replace_eq hdomain k') fun place => ?_
      rw [PathMap.find_remove, through_of_lookup hdomain]

theorem mem_iterAny : cookie ∈ iterAny domains ↔ ∃ key, find domains key = some cookie := by
  simp only [iterAny, List.mem_flatMap, mem_values]
  constructor
  · rintro ⟨names, ⟨paths, ⟨domain, hdomain⟩, path, hpath⟩, ckey, hname⟩
    refine ⟨⟨domain, path, ckey.name, ckey.partitionKey⟩, ?_⟩
    rw [find, through_of_lookup hdomain]
    exact (through_of_lookup hpath).trans hname
  · rintro ⟨key, hkey⟩
    obtain ⟨paths, hdomain, hrest⟩ := Option.bind_eq_some_iff.1 hkey
    obtain ⟨names, hpath, hname⟩ := Option.bind_eq_some_iff.1 hrest
    exact ⟨names, ⟨paths, ⟨_, hdomain⟩, _, hpath⟩, _, hname⟩

end DomainMap

/-- Every cookie is at its own key. -/
structure CookieMap where
  domains : DomainMap
  placed : ∀ key cookie, domains.find key = some cookie → CookieStoreKey.forCookie cookie = key

namespace CookieMap

def empty : CookieMap where
  domains := ∅
  placed _ _ h := by cases h

def find (m : CookieMap) (key : CookieStoreKey) : Option Cookie := m.domains.find key

def iterAny (m : CookieMap) : List Cookie := m.domains.iterAny

def put (m : CookieMap) (cookie : Cookie) : CookieMap where
  domains := m.domains.insert (.forCookie cookie) cookie
  placed key other h := by
    rw [DomainMap.find_insert] at h
    split_ifs at h with hkey
    · cases h
      exact hkey.symm
    · exact m.placed key other h

def remove (m : CookieMap) (key : CookieStoreKey) : CookieMap where
  domains := m.domains.remove key
  placed k other h := by
    rw [DomainMap.find_remove] at h
    split_ifs at h with hkey
    exact m.placed k other h

end CookieMap

end Moli.Cookies
