import Moli.Cookies.Verify.Store
import Moli.Lib.Lists
import Moli.Lib.StableOrder

/-!
# Quotas of a cookie store

The two loops that make room take cookies from the front of one eviction order
(`evictOneCookie_eq`), so what they take can be read off the store before the write
(`makeRoomForCookie_eq`). A rejected write leaves the store alone exactly when it has nothing to
evict, and an accepted write meets the quotas exactly when the cookie it replaces is not evicted
first.
-/

namespace Moli.Cookies

open Lib.Text (ascii)
open List

open Lib CookieStoreKey

variable {p : Platform} {store : CookieStore} {cookie c : Cookie}
variable {domain : Option Text} {d : Text} {key : Option CookiePartitionKey}
  {secure replacing : Bool}

/-! ## The cookies as a list -/

theorem PathMap.values_remove {paths : PathMap} {path : Text} {names : NameMap} {ckey : CookieKey}
    (hpath : paths.lookup path = some names) (hname : names.lookup ckey = some c) :
    ∃ before after, (values paths).flatMap values = before ++ c :: after ∧
      (values (remove paths path ckey)).flatMap values = before ++ after := by
  obtain ⟨p₁, p₂, hpaths, herase, hreplace⟩ := exists_values_split hpath
  obtain ⟨n₁, n₂, hnames, hleft, -⟩ := exists_values_split hname
  refine ⟨p₁.flatMap values ++ n₁, n₂ ++ p₂.flatMap values, by simp [hpaths, hnames], ?_⟩
  rw [remove, hpath]
  dsimp only
  split_ifs with hempty
  · have hnone : n₁ ++ n₂ = [] := by rw [← hleft, values, List.isEmpty_iff.1 hempty]; rfl
    obtain ⟨rfl, rfl⟩ := append_eq_nil_iff.1 hnone
    simp [herase]
  · simp [hreplace, hleft]

theorem DomainMap.iterAny_remove {domains : DomainMap} {k : CookieStoreKey}
    (h : find domains k = some c) :
    ∃ before after, iterAny domains = before ++ c :: after ∧
      iterAny (remove domains k) = before ++ after := by
  obtain ⟨paths, hdomain, hrest⟩ := Option.bind_eq_some_iff.1 h
  obtain ⟨names, hpath, hname⟩ := Option.bind_eq_some_iff.1 hrest
  obtain ⟨d₁, d₂, hdomains, herase, hreplace⟩ := exists_values_split hdomain
  obtain ⟨before, after, hpaths, hleft⟩ := PathMap.values_remove hpath hname
  refine ⟨(d₁.flatMap values).flatMap values ++ before, after ++ (d₂.flatMap values).flatMap values,
    by simp [iterAny, hdomains, hpaths], ?_⟩
  rw [remove, hdomain]
  dsimp only
  split_ifs with hempty
  · have hnone : before ++ after = [] := by
      rw [← hleft, values, List.isEmpty_iff.1 hempty.2]
      rfl
    obtain ⟨rfl, rfl⟩ := append_eq_nil_iff.1 hnone
    simp [iterAny, herase]
  · simp [iterAny, hreplace, hleft]

namespace CookieMap

theorem iterAny_remove {m : CookieMap} (h : c ∈ m.iterAny) :
    ∃ before after, m.iterAny = before ++ c :: after ∧
      (m.remove (.forCookie c)).iterAny = before ++ after ∧ c ∉ before ++ after := by
  obtain ⟨before, after, hiter, hremove⟩ := DomainMap.iterAny_remove (mem_iterAny.1 h)
  refine ⟨before, after, hiter, hremove, fun hc => ?_⟩
  have hfound : (m.remove (.forCookie c)).find (.forCookie c) = some c :=
    mem_iterAny.1 ((congrArg (c ∈ ·) hremove).mpr hc)
  rw [find_remove, if_pos rfl] at hfound
  cases hfound

theorem nodup_iterAny (m : CookieMap) : m.iterAny.Nodup := by
  rw [nodup_iff_count_le_one]
  intro c
  by_cases hc : c ∈ m.iterAny
  · obtain ⟨before, after, hiter, -, hnot⟩ := iterAny_remove hc
    rw [hiter, count_append, count_cons_self, ← Nat.add_assoc, ← count_append,
      count_eq_zero_of_not_mem hnot]
  · rw [count_eq_zero_of_not_mem hc]
    exact Nat.zero_le 1

end CookieMap

namespace CookieStore

theorem nodup_iterUnexpired (p : Platform) (store : CookieStore) : (store.iterUnexpired p).Nodup :=
  store.cookies.nodup_iterAny.filter _

def evict (store : CookieStore) (c : Cookie) : CookieStore :=
  (store.removeWithPartitionKey (.forCookie c)).2

theorem evict_cookies : (store.evict c).cookies = store.cookies.remove (.forCookie c) := by
  unfold evict removeWithPartitionKey
  cases store.getAny (.forCookie c) <;> rfl

@[simp] theorem evict_limits : (store.evict c).limits = store.limits := by
  unfold evict removeWithPartitionKey
  cases store.getAny (.forCookie c) <;> rfl

theorem iterUnexpired_evict (h : c ∈ store.iterUnexpired p) :
    (store.evict c).iterUnexpired p = (store.iterUnexpired p).filter (· ≠ c) := by
  obtain ⟨hany, -⟩ := mem_filter.1 h
  obtain ⟨before, after, hiter, hremove, hnot⟩ := CookieMap.iterAny_remove hany
  have hstay : (before ++ after).filter (· ≠ c) = before ++ after :=
    filter_eq_self.2 fun a ha => decide_eq_true fun hac => hnot (hac ▸ ha)
  have hcookies : (store.iterAny).filter (· ≠ c) = (store.evict c).iterAny := by
    rw [iterAny, iterAny, evict_cookies, hiter, hremove, filter_append, filter_cons_of_neg,
      ← filter_append, hstay]
    simp
  rw [iterUnexpired, iterUnexpired, ← hcookies, filter_filter, filter_filter]
  exact filter_congr fun a _ => Bool.and_comm _ _

/-- Evict the cookies of a list. -/
def evictAll (store : CookieStore) (cookies : List Cookie) : CookieStore :=
  cookies.foldl evict store

theorem evictAll_limits (cookies : List Cookie) :
    (store.evictAll cookies).limits = store.limits := by
  induction cookies generalizing store with
  | nil => rfl
  | cons c cookies ih => exact ih.trans evict_limits

theorem get_evictAll (cookies : List Cookie) (k : CookieStoreKey) :
    (store.evictAll cookies).get p k =
    if k ∈ cookies.map .forCookie then none else store.get p k := by
  induction cookies generalizing store with
  | nil => rfl
  | cons c cookies ih =>
    refine ih.trans ?_
    rw [evict, get_removeWithPartitionKey]
    by_cases hk : k = .forCookie c
    · simp [hk]
    · simp [hk]

variable {cookies : List Cookie} {s : Bool}

theorem iterUnexpired_evictAll (hnodup : cookies.Nodup)
    (hmem : ∀ c ∈ cookies, c ∈ store.iterUnexpired p) :
    (store.evictAll cookies).iterUnexpired p = (store.iterUnexpired p).filter (· ∉ cookies) := by
  induction cookies generalizing store with
  | nil => simp [evictAll]
  | cons c cookies ih =>
    obtain ⟨hc, hrest⟩ := nodup_cons.1 hnodup
    have hiter := iterUnexpired_evict (hmem c mem_cons_self)
    refine (ih hrest fun a ha => ?_).trans ?_
    · rw [hiter, mem_filter, decide_eq_true_eq]
      exact ⟨hmem a (mem_cons_of_mem _ ha), fun hac => hc (hac ▸ ha)⟩
    · rw [hiter, filter_filter]
      exact filter_congr fun a _ => by simp [Bool.and_comm]

/-! ## Eviction order -/

def priorityLevel : CookiePriority → ℕ
  | .low => 0
  | .medium => 1
  | .high => 2

def evictionClass (cookie : Cookie) : Bool ×ₗ ℕ :=
  toLex (cookie.isSecure, priorityLevel cookie.effectivePriority)

def evictionRank (cookie : Cookie) : (Bool ×ₗ ℕ) ×ₗ (ℕ ×ₗ ℕ) :=
  toLex (evictionClass cookie, accessOrder cookie)

/-- The cookies a loop counts: those of a partition, of one domain or of all. -/
def inScope (domain : Option Text) (key : Option CookiePartitionKey) (cookie : Cookie) : Bool :=
  cookie.partitionKey == key && domain.all (cookie.domain.text == ·)

def mayEvict (secure : Bool) (cookie : Cookie) : Bool := secure || !cookie.isSecure

/-- What a loop may evict, in the order in which it does. -/
def evictable (p : Platform) (store : CookieStore) (domain : Option Text)
    (key : Option CookiePartitionKey) (secure : Bool) : List Cookie :=
  (byRank evictionRank (store.iterUnexpired p)).filter fun c =>
    inScope domain key c && mayEvict secure c

theorem mem_evictable : c ∈ evictable p store domain key secure ↔
    c ∈ store.iterUnexpired p ∧ inScope domain key c ∧ mayEvict secure c := by
  rw [evictable, mem_filter, (perm_byRank _ _).mem_iff, Bool.and_eq_true]

theorem nodup_evictable : (evictable p store domain key secure).Nodup :=
  (((perm_byRank evictionRank _).nodup_iff).2 (nodup_iterUnexpired p store)).filter _

theorem evictable_evictAll (hnodup : cookies.Nodup)
    (hmem : ∀ c ∈ cookies, c ∈ store.iterUnexpired p) :
    evictable p (store.evictAll cookies) domain key secure =
      (evictable p store domain key secure).filter (· ∉ cookies) := by
  rw [evictable, iterUnexpired_evictAll hnodup hmem, ← filter_byRank, evictable, filter_filter,
    filter_filter]
  exact filter_congr fun a _ => Bool.and_comm _ _

theorem priorityLevel_injective : Function.Injective priorityLevel := by
  intro a b h
  cases a <;> cases b <;> first | rfl | cases h

theorem evictionClass_eq_iff {priority : CookiePriority} :
    evictionClass c = toLex (s, priorityLevel priority) ↔
      c.isSecure = s ∧ c.effectivePriority = priority := by
  rw [evictionClass, EmbeddingLike.apply_eq_iff_eq, Prod.mk.injEq, priorityLevel_injective.eq_iff]

theorem oldestAccessedCookieKey_eq {priority : CookiePriority} (hs : s = true → secure = true) :
    store.oldestAccessedCookieKey p domain key s priority =
      ((evictable p store domain key secure).filter fun c =>
        decide (evictionClass c = toLex (s, priorityLevel priority))).head?.map .forCookie := by
  have hfilter : (evictable p store domain key secure).filter
      (fun c => decide (evictionClass c = toLex (s, priorityLevel priority))) =
        byRank evictionRank ((store.iterUnexpired p).filter fun cookie =>
          cookie.partitionKey == key && cookie.isSecure == s &&
            cookie.effectivePriority == priority && domain.all (cookie.domain.text == ·)) := by
    rw [evictable, filter_filter, filter_byRank]
    refine congrArg _ (filter_congr fun c _ => ?_)
    rw [Bool.eq_iff_iff]
    simp only [Bool.and_eq_true, decide_eq_true_eq, evictionClass_eq_iff, inScope, mayEvict,
      beq_iff_eq, Bool.or_eq_true]
    constructor
    · intro h
      exact ⟨⟨⟨h.2.1.1, h.1.1⟩, h.1.2⟩, h.2.1.2⟩
    · intro h
      refine ⟨⟨h.1.1.2, h.1.2⟩, ⟨h.1.1.1, h.2⟩, ?_⟩
      rw [h.1.1.2]
      cases s with
      | true => exact .inl (hs rfl)
      | false => exact .inr rfl
  rw [hfilter, head?_byRank]
  refine congrArg _ (argmin_congr fun a ha b hb => ?_)
  have hclass : evictionClass a = evictionClass b := by
    simp only [mem_filter, Bool.and_eq_true, beq_iff_eq] at ha hb
    rw [evictionClass, evictionClass, ha.2.1.1.2, hb.2.1.1.2, ha.2.1.2, hb.2.1.2]
  rw [evictionRank, evictionRank, hclass, Prod.Lex.toLex_lt_toLex]
  simp

def priorities : List CookiePriority := [.low, .medium, .high]

def classesOf (s : Bool) : List (Bool ×ₗ ℕ) :=
  priorities.map fun priority => toLex (s, priorityLevel priority)

def evictionClasses (secure : Bool) : List (Bool ×ₗ ℕ) :=
  classesOf false ++ if secure then classesOf true else []

theorem evictOneOf_eq (hs : s = true → secure = true) :
    store.evictOneOf p domain key s = ((classesOf s).findSome? fun cls =>
      ((evictable p store domain key secure).filter fun c =>
        decide (evictionClass c = cls)).head?).map store.evict := by
  rw [evictOneOf]
  have hkey : store.oldestAccessedCookieKey p domain key s = Option.map .forCookie ∘ fun priority =>
      ((evictable p store domain key secure).filter fun c =>
        decide (evictionClass c = toLex (s, priorityLevel priority))).head? := by
    funext priority
    exact oldestAccessedCookieKey_eq hs
  rw [hkey, ← map_findSome?, Option.map_map]
  rfl

theorem evictOneCookie_eq : evictOneCookie p domain key secure store =
    (evictable p store domain key secure).head?.map store.evict := by
  have hsorted : (evictable p store domain key secure).Pairwise
      fun a b => evictionClass a ≤ evictionClass b := by
    refine ((pairwise_byRank evictionRank _).filter _).imp fun {a b} hab => ?_
    rcases Prod.Lex.toLex_le_toLex.1 hab with h | h
    · exact h.le
    · exact h.1.le
  have hclasses : (evictionClasses secure).Pairwise (· < ·) := by
    cases secure <;> decide
  have hmem : ∀ c ∈ evictable p store domain key secure,
      evictionClass c ∈ evictionClasses secure := by
    intro c hc
    have hmay := (mem_evictable.1 hc).2.2
    rw [evictionClasses, evictionClass, mem_append]
    have hin : ∀ s, toLex (s, priorityLevel c.effectivePriority) ∈ classesOf s := by
      intro s
      refine mem_map.2 ⟨c.effectivePriority, ?_, rfl⟩
      cases c.effectivePriority <;> simp [priorities]
    cases hs : c.isSecure with
    | false => exact .inl (hin false)
    | true =>
      rw [mayEvict, hs, Bool.not_true, Bool.or_false] at hmay
      rw [if_pos hmay]
      exact .inr (hin true)
  rw [← findSome?_classes hsorted hclasses hmem, evictionClasses, findSome?_append, evictOneCookie,
    @evictOneOf_eq p store domain key secure false (by simp)]
  cases (classesOf false).findSome? _ with
  | some c => rfl
  | none =>
    cases secure with
    | true => exact @evictOneOf_eq p store domain key true true (by simp)
    | false => rfl

/-! ## Making room -/

def scopeCount (p : Platform) (store : CookieStore) (domain : Option Text)
    (key : Option CookiePartitionKey) : ℕ :=
  (store.iterUnexpired p).countP (inScope domain key)

theorem countUnpartitioned_eq : store.countUnpartitioned p = scopeCount p store none none := by
  refine countP_congr fun c _ => ?_
  simp [inScope]

theorem countBucket_eq : store.countBucket p d key = scopeCount p store (some d) key := rfl

theorem scopeCount_evictAll (hnodup : cookies.Nodup)
    (hmem : ∀ c ∈ cookies, c ∈ store.iterUnexpired p) :
    scopeCount p (store.evictAll cookies) domain key + cookies.countP (inScope domain key) =
      scopeCount p store domain key := by
  have hperm :
      (cookies ++ (store.iterUnexpired p).filter (· ∉ cookies)).Perm (store.iterUnexpired p) := by
    rw [perm_ext_iff_of_nodup]
    · intro c
      simp only [mem_append, mem_filter, decide_eq_true_eq]
      constructor
      · intro h
        exact h.elim (hmem c) And.left
      · intro h
        by_cases hc : c ∈ cookies
        · exact .inl hc
        · exact .inr ⟨h, hc⟩
    · refine hnodup.append ((nodup_iterUnexpired p store).filter _) ?_
      intro c hc hnot
      exact absurd hc (of_decide_eq_true (mem_filter.1 hnot).2)
    · exact nodup_iterUnexpired p store
  rw [scopeCount, iterUnexpired_evictAll hnodup hmem, Nat.add_comm, ← countP_append]
  exact hperm.countP_eq _

/-- How many cookies have to go for a quota. A quota of zero is never met. -/
def excess (quota count : ℕ) (replacing : Bool) : ℕ :=
  if quota = 0 then count + 1 else count + 1 - (quota + replacing.toNat)

theorem excess_eq_zero_iff {quota count : ℕ} :
    excess quota count replacing = 0 ↔ count - replacing.toNat < quota := by
  unfold excess
  split_ifs with hquota
  · simp [hquota]
  · omega

theorem excess_sub {quota count n : ℕ} (h : n ≤ count) :
    excess quota (count - n) replacing = excess quota count replacing - n := by
  unfold excess
  split_ifs <;> omega

/-- The excess over the total quota, which partitioned cookies do not count for. -/
def totalExcess (p : Platform) (store : CookieStore) (key : Option CookiePartitionKey)
    (replacing : Bool) : ℕ :=
  if key.isSome then 0
  else excess store.limits.totalCookies (scopeCount p store none none) replacing

def bucketExcess (p : Platform) (store : CookieStore) (d : Text) (key : Option CookiePartitionKey)
    (replacing : Bool) : ℕ :=
  excess store.limits.perDomainCookies (scopeCount p store (some d) key) replacing

theorem hasTotalRoom_eq :
    hasTotalRoom p key replacing store = decide (totalExcess p store key replacing = 0) := by
  rw [hasTotalRoom, totalExcess, countUnpartitioned_eq]
  cases key with
  | some _ => rfl
  | none => simp [excess_eq_zero_iff]

theorem hasBucketRoom_eq :
    hasBucketRoom p d key replacing store = decide (bucketExcess p store d key replacing = 0) := by
  rw [hasBucketRoom, bucketExcess, countBucket_eq, Bool.eq_iff_iff, decide_eq_true_eq,
    decide_eq_true_eq, excess_eq_zero_iff]

theorem take_evictable (n : ℕ) : ((evictable p store domain key secure).take n).Nodup ∧
    ∀ c ∈ (evictable p store domain key secure).take n, c ∈ store.iterUnexpired p :=
  ⟨nodup_evictable.sublist (take_sublist _ _), fun _ hc =>
    (mem_evictable.1 (mem_of_mem_take hc)).1⟩

theorem scopeCount_take_evictable (n : ℕ) :
    scopeCount p (store.evictAll ((evictable p store domain key secure).take n)) domain key +
      min n (evictable p store domain key secure).length = scopeCount p store domain key := by
  have hcount : ((evictable p store domain key secure).take n).countP (inScope domain key) =
      min n (evictable p store domain key secure).length := by
    rw [countP_eq_length.2, length_take]
    intro c hc
    exact (mem_evictable.1 (mem_of_mem_take hc)).2.1
  rw [← hcount, scopeCount_evictAll (take_evictable n).1 (take_evictable n).2]

theorem evictUntil_evictable {need : CookieStore → ℕ} {enough : CookieStore → Bool}
    (henough : ∀ s, enough s = decide (need s = 0))
    (hneed : ∀ s c, c ∈ evictable p s domain key secure → need (s.evict c) = need s - 1) :
    evictUntil enough (evictOneCookie p domain key secure) (store.iterUnexpired p).length store =
      (decide (need store ≤ (evictable p store domain key secure).length),
        store.evictAll ((evictable p store domain key secure).take (need store))) := by
  refine evictUntil_eq henough (fun s => evictOneCookie_eq) (fun s c rest hs => ?_) ?_
  · have hc : c ∈ evictable p s domain key secure := hs ▸ mem_cons_self
    refine ⟨?_, hneed s c hc⟩
    have hnot : c ∉ rest := (nodup_cons.1 (hs ▸ nodup_evictable)).1
    have hafter := @evictable_evictAll p s domain key secure [c] (nodup_singleton c)
      (by simpa using (mem_evictable.1 hc).1)
    rw [hs, filter_cons_of_neg (by simp)] at hafter
    refine hafter.trans (filter_eq_self.2 fun a ha => ?_)
    simpa using fun hac : a = c => hnot (hac ▸ ha)
  · exact (length_filter_le _ _).trans (perm_byRank _ _).length_eq.le

theorem scopeCount_evict (hc : c ∈ evictable p store domain key secure) {domain' : Option Text}
    {key' : Option CookiePartitionKey} (hscope : inScope domain' key' c) :
    scopeCount p (store.evict c) domain' key' + 1 = scopeCount p store domain' key' := by
  have hcount := @scopeCount_evictAll p store domain' key' [c] (nodup_singleton c)
    (by simpa using (mem_evictable.1 hc).1)
  rwa [countP_singleton, if_pos hscope] at hcount

theorem excess_evict {quota count count' : ℕ} (h : count' + 1 = count) :
    excess quota count' replacing = excess quota count replacing - 1 := by
  rw [← excess_sub (by omega), ← h, Nat.add_sub_cancel]

/-- What the first loop takes. -/
def firstEvicted (p : Platform) (store : CookieStore) (key : Option CookiePartitionKey)
    (secure replacing : Bool) : List Cookie :=
  (evictable p store none none secure).take (totalExcess p store key replacing)

/-- The second loop starts from what the first one left. -/
theorem makeRoomForCookie_eq :
    store.makeRoomForCookie p d key secure replacing =
      let left := store.evictAll (firstEvicted p store key secure replacing)
      let bucket := evictable p left (some d) key secure
      let surplus := bucketExcess p left d key replacing
      if totalExcess p store key replacing ≤ (evictable p store none none secure).length then
        (decide (surplus ≤ bucket.length), left.evictAll (bucket.take surplus))
      else (false, left) := by
  have hfirst := @evictUntil_evictable p store none none secure
    (fun s => totalExcess p s key replacing) (hasTotalRoom p key replacing)
    (fun _ => hasTotalRoom_eq)
    (fun s c hc => ?_)
  · rw [makeRoomForCookie, hfirst]
    split_ifs with hroom
    · rw [decide_eq_true hroom]
      refine evictUntil_evictable (fun _ => hasBucketRoom_eq) fun s c hc => ?_
      rw [bucketExcess, evict_limits]
      exact excess_evict (scopeCount_evict hc (mem_evictable.1 hc).2.1)
    · rw [decide_eq_false hroom]
      rfl
  · rw [totalExcess, totalExcess, evict_limits]
    split_ifs with hkey
    · rfl
    · exact excess_evict (scopeCount_evict hc (mem_evictable.1 hc).2.1)

/-- What the first loop takes from the bucket is the front of its order. -/
theorem bucket_after_first {left : CookieStore}
    (hleft : left = store.evictAll (firstEvicted p store key secure replacing)) :
    ∃ g ≤ (evictable p store (some d) key secure).length,
      evictable p left (some d) key secure = (evictable p store (some d) key secure).drop g ∧
      (∀ c ∈ evictable p store (some d) key secure,
        c ∈ (evictable p store (some d) key secure).take g ↔
          c ∈ firstEvicted p store key secure replacing) ∧
      bucketExcess p left d key replacing = bucketExcess p store d key replacing - g := by
  obtain ⟨hnodup, hmem⟩ :=
    @take_evictable p store none none secure (totalExcess p store key replacing)
  have hcount := @scopeCount_evictAll p store (some d) key _ hnodup hmem
  have hbucket := @evictable_evictAll p store (some d) key secure _ hnodup hmem
  rw [bucketExcess, bucketExcess, hleft, evictAll_limits]
  rw [← firstEvicted] at hcount hbucket
  cases key with
  | some key =>
    have hnone : firstEvicted p store (some key) secure replacing = [] := rfl
    rw [hnone]
    exact ⟨0, Nat.zero_le _, rfl, by simp, rfl⟩
  | none =>
    -- The bucket's order is the part of the total order that is in the bucket.
    have hpart : evictable p store (some d) none secure =
        (evictable p store none none secure).filter (inScope (some d) none) := by
      rw [evictable, evictable, filter_filter]
      refine filter_congr fun c _ => ?_
      cases hscope : c.partitionKey == none <;> simp [inScope, hscope]
    set first := firstEvicted p store none secure replacing with hfirst
    have hsplit := take_append_drop (totalExcess p store none replacing)
      (evictable p store none none secure)
    rw [show List.take _ (evictable p store none none secure) = first from rfl] at hsplit
    set rest := (evictable p store none none secure).drop (totalExcess p store none replacing)
    have hdisjoint : ∀ c ∈ rest, c ∉ first := fun c hc hcf =>
      (nodup_append.1 (hsplit ▸ nodup_evictable)).2.2 c hcf c hc rfl
    have hparts : evictable p store (some d) none secure =
        first.filter (inScope (some d) none) ++ rest.filter (inScope (some d) none) := by
      rw [hpart, ← hsplit, filter_append]
    have hdrop : (evictable p store (some d) none secure).filter (· ∉ first) =
        rest.filter (inScope (some d) none) := by
      rw [hparts, filter_append, filter_eq_nil_iff.2, filter_eq_self.2, nil_append]
      · intro c hc
        exact decide_eq_true (hdisjoint c (mem_filter.1 hc).1)
      · intro c hc
        simpa using (mem_filter.1 hc).1
    refine ⟨(first.filter (inScope (some d) none)).length, ?_, ?_, fun c hc => ?_, ?_⟩
    · rw [hparts, length_append]
      exact Nat.le_add_right _ _
    · rw [hbucket, hdrop, hparts, drop_left]
    · rw [hparts, take_left, mem_filter]
      exact and_iff_left (mem_evictable.1 hc).2.1
    · rw [← excess_sub (by rw [← countP_eq_length_filter]; omega)]
      rw [← countP_eq_length_filter, ← hcount, Nat.add_sub_cancel]

/-- What the second loop takes, in terms of the store before the write. -/
def secondEvicted (p : Platform) (store : CookieStore) (d : Text) (key : Option CookiePartitionKey)
    (secure replacing : Bool) : List Cookie :=
  let left := store.evictAll (firstEvicted p store key secure replacing)
  (evictable p left (some d) key secure).take (bucketExcess p left d key replacing)

theorem makeRoomForCookie_fst : (store.makeRoomForCookie p d key secure replacing).1 = decide
    (totalExcess p store key replacing ≤ (evictable p store none none secure).length ∧
      bucketExcess p store d key replacing ≤ (evictable p store (some d) key secure).length) := by
  obtain ⟨g, hg, hbucket, -, hover⟩ := @bucket_after_first p store d key secure replacing _ rfl
  rw [makeRoomForCookie_eq]
  dsimp only
  split_ifs with hroom
  · rw [hbucket, length_drop, decide_eq_decide]
    omega
  · simp [hroom]

/-! ## Writes that fail -/

theorem evictAll_unchanged_iff (hmem : ∀ c ∈ cookies, c ∈ store.iterUnexpired p) :
    ((store.evictAll cookies).get p = store.get p ∧
      (store.evictAll cookies).observer = store.observer) ↔ cookies = [] := by
  constructor
  · intro h
    refine eq_nil_iff_forall_not_mem.2 fun c hc => ?_
    have hget := congrFun h.1 (.forCookie c)
    rw [get_evictAll, if_pos (mem_map_of_mem hc), mem_iterUnexpired.1 (hmem c hc)] at hget
    cases hget
  · intro h
    subst h
    exact ⟨rfl, rfl⟩

/-- A write that cannot have room has nothing to evict before it fails. -/
@[mk_iff]
structure NothingToEvict (p : Platform) (store : CookieStore) (cookie : Cookie) (replacing : Bool) :
    Prop where
  total : (evictable p store none none cookie.isSecure).length <
      totalExcess p store cookie.partitionKey replacing →
    evictable p store none none cookie.isSecure = []
  bucket : totalExcess p store cookie.partitionKey replacing ≤
      (evictable p store none none cookie.isSecure).length →
    (evictable p store (some cookie.domain.text) cookie.partitionKey cookie.isSecure).length <
      bucketExcess p store cookie.domain.text cookie.partitionKey replacing →
    totalExcess p store cookie.partitionKey replacing = 0 ∧
      evictable p store (some cookie.domain.text) cookie.partitionKey cookie.isSecure = []

theorem evictAll_append (first second : List Cookie) :
    (store.evictAll first).evictAll second = store.evictAll (first ++ second) := by
  rw [evictAll, evictAll, evictAll, foldl_append]

theorem evicted_mem : ∀ c ∈ firstEvicted p store key secure replacing ++
    secondEvicted p store d key secure replacing, c ∈ store.iterUnexpired p := by
  intro c hc
  obtain ⟨hnodup, hmem⟩ :=
    @take_evictable p store none none secure (totalExcess p store key replacing)
  rcases mem_append.1 hc with hc | hc
  · exact hmem c hc
  · have hleft := (take_evictable _).2 c hc
    rw [firstEvicted, iterUnexpired_evictAll hnodup hmem] at hleft
    exact (mem_filter.1 hleft).1

/-- The room that is made for a checked cookie. -/
def roomFor (p : Platform) (store : CookieStore) (checked : Cookie) : Bool × CookieStore :=
  store.makeRoomForCookie p checked.domain.text checked.partitionKey checked.isSecure
    (store.get p (.forCookie checked)).isSome

theorem roomFor_unchanged_iff :
    ((store.roomFor p cookie).1 = false →
      (store.roomFor p cookie).2.get p = store.get p ∧
      (store.roomFor p cookie).2.observer = store.observer) ↔
    NothingToEvict p store cookie (store.get p (.forCookie cookie)).isSome := by
  unfold roomFor
  generalize (store.get p (.forCookie cookie)).isSome = replacing
  have hevicted :=
    @evicted_mem p store cookie.domain.text cookie.partitionKey cookie.isSecure replacing
  obtain ⟨g, hg, hbucket, -, hover⟩ := @bucket_after_first p store cookie.domain.text
    cookie.partitionKey cookie.isSecure replacing _ rfl
  rw [makeRoomForCookie_fst, makeRoomForCookie_eq, decide_eq_false_iff_not, nothingToEvict_iff]
  set all := evictable p store none none cookie.isSecure with hall
  set bucket := evictable p store (some cookie.domain.text) cookie.partitionKey cookie.isSecure
  set surplus := totalExcess p store cookie.partitionKey replacing
  set overBucket := bucketExcess p store cookie.domain.text cookie.partitionKey replacing
  have hfirst : firstEvicted p store cookie.partitionKey cookie.isSecure replacing =
      all.take surplus := rfl
  have hsecond :
      secondEvicted p store cookie.domain.text cookie.partitionKey cookie.isSecure replacing =
      (bucket.drop g).take (overBucket - g) := by
    rw [secondEvicted, hbucket, hover]
  by_cases hroom : surplus ≤ all.length
  · rw [if_pos hroom, hover, hbucket, hfirst, evictAll_append, ← hsecond, ← hfirst,
      evictAll_unchanged_iff hevicted, append_eq_nil_iff, hfirst, hsecond]
    constructor
    · intro h
      refine ⟨fun hshort => absurd hroom (by omega), fun _ hfull => ?_⟩
      obtain ⟨hnone, hrest⟩ := h (by omega)
      have hzero : surplus = 0 := by
        rcases take_eq_nil_iff.1 hnone with h | h
        · exact h
        · rw [h] at hroom
          exact Nat.le_zero.1 hroom
      refine ⟨hzero, ?_⟩
      -- With no eviction in the first loop the bucket is as it was.
      have hsame : bucket.drop g = bucket := by
        rw [← hbucket, hfirst, hzero]
        rfl
      rw [hsame] at hrest
      have hover' : overBucket - g ≠ 0 := by omega
      exact (take_eq_nil_iff.1 hrest).resolve_left hover'
    · intro h hfull
      obtain ⟨hzero, hnone⟩ := h.2 hroom (by omega)
      simp [hzero, hnone]
  · rw [if_neg hroom, hfirst, evictAll_unchanged_iff fun c hc =>
      hevicted c (mem_append_left _ (hfirst ▸ hc)), take_of_length_le (by omega)]
    constructor
    · intro h
      exact ⟨fun _ => h fun hroom' => hroom hroom'.1, fun hroom' => absurd hroom' hroom⟩
    · intro h _
      exact h.1 (by omega)

/-- The write passes its checks as the live cookie `checked`, and room is made for it. -/
structure Fits (p : Platform) (store : CookieStore) (cookie : Cookie) (context : InsertContext)
    (prior : CookieSetAccessResult) (preserve : Bool) (checked : Cookie) : Prop where
  begun : prior.status.isAccepted = true
  review : (store.reviewSet p (prepare p cookie context preserve) context prior).status.isAccepted =
    true
  check : store.checkInsert p (prepare p cookie context preserve) context = .ok checked
  domain : checked.domain.asCow.isSome = true
  visible : ∀ old, store.get p (.forCookie checked) = some old →
    (old.isHttpOnly && context.source == .document) = false
  live : checked.isExpired p = false

section Writes

variable {checked : Cookie} {context : InsertContext} {prior : CookieSetAccessResult}
  {preserve : Bool}

theorem Fits.run (h : Fits p store cookie context prior preserve checked) :
    (store.setWithOrdering p cookie context prior preserve).2 =
        (store.insertLive p checked preserve).2 ∧
      (store.setWithOrdering p cookie context prior preserve).1.status.isAccepted =
        (store.insertLive p checked preserve).1.isOk := by
  have hlive : store.insertWithContextImpl p (prepare p cookie context preserve) context preserve =
      store.insertLive p checked preserve := by
    rw [insertWithContextImpl, h.check]
    dsimp only
    obtain ⟨text, htext⟩ := Option.isSome_iff_exists.1 h.domain
    rw [insertChecked, htext]
    cases hold : store.get p (.forCookie checked) with
    | none => simp [h.live]
    | some old => simp [h.live, h.visible old hold]
  rw [setWithOrdering, if_pos h.begun]
  dsimp only
  rw [if_pos h.review, hlive]
  exact ⟨rfl, isAccepted_finishSet _ h.review⟩

/-- A write that makes no room is refused as it stands, or expires the cookie it names. -/
theorem setWithOrdering_of_not_fits
    (h : ∀ checked, ¬ Fits p store cookie context prior preserve checked) :
    (store.setWithOrdering p cookie context prior preserve).1.status.isAccepted = false ∧
      (store.setWithOrdering p cookie context prior preserve).2 = store ∨
    (store.setWithOrdering p cookie context prior preserve).1.status =
      .accepted .expiredExisting := by
  rw [setWithOrdering]
  by_cases hprior : prior.status.isAccepted
  · rw [if_pos hprior]
    by_cases hreview : (store.reviewSet p (prepare p cookie context preserve) context
        prior).status.isAccepted
    · rw [if_pos hreview, isAccepted_finishSet _ hreview, insertWithContextImpl]
      cases hcheck : store.checkInsert p (prepare p cookie context preserve) context with
      | error error => exact .inl ⟨rfl, rfl⟩
      | ok checked =>
        dsimp only
        rw [insertChecked]
        cases hdomain : checked.domain.asCow with
        | none => exact .inl ⟨rfl, rfl⟩
        | some text =>
          have hfits := fun hvisible hlive =>
            h checked ⟨hprior, hreview, hcheck, by rw [hdomain]; rfl, hvisible, hlive⟩
          cases hold : store.get p (.forCookie checked) with
          | none =>
            split_ifs with hexpired
            · exact .inl ⟨rfl, rfl⟩
            · refine absurd (by simpa using hexpired) (hfits fun old hsome => ?_)
              rw [hold] at hsome
              cases hsome
          | some old =>
            dsimp only
            split_ifs with hhttp hexpired
            · exact .inl ⟨rfl, rfl⟩
            · exact .inr rfl
            · refine absurd (by simpa using hexpired) (hfits fun other hsome => ?_)
              rw [hold] at hsome
              cases hsome
              simpa using hhttp
    · rw [if_neg hreview]
      exact .inl ⟨by simpa using hreview, rfl⟩
  · rw [if_neg hprior]
    exact .inl ⟨by simpa using hprior, rfl⟩

theorem insertLive_full_iff : (store.insertLive p checked preserve).1.isOk = false ↔
    (store.roomFor p checked).1 = false := by
  unfold insertLive roomFor
  dsimp only
  split
  next hroom => simp [hroom, Except.toBool]
  next room hroom => simp [hroom, Except.toBool]

theorem insertLive_full (h : (store.insertLive p checked preserve).1.isOk = false) :
    (store.insertLive p checked preserve).2 = (store.roomFor p checked).2 := by
  have hfalse := insertLive_full_iff.1 h
  unfold insertLive roomFor at *
  dsimp only
  split
  next hroom => rw [hroom]
  next room hroom =>
    rw [hroom] at hfalse
    cases hfalse

/-- A rejected write changes nothing exactly where it finds nothing to evict. -/
theorem rejected_write_unchanged_iff (p : Platform) (store : CookieStore) (cookie : Cookie)
    (context : InsertContext) (prior : CookieSetAccessResult) (preserve : Bool) :
    ((store.setWithOrdering p cookie context prior preserve).1.status.isAccepted = false →
      (store.setWithOrdering p cookie context prior preserve).2.get p = store.get p ∧
      (store.setWithOrdering p cookie context prior preserve).2.observer = store.observer) ↔
    ∀ checked, Fits p store cookie context prior preserve checked →
      NothingToEvict p store checked (store.get p (.forCookie checked)).isSome := by
  by_cases hfits : ∃ checked, Fits p store cookie context prior preserve checked
  · obtain ⟨checked, h⟩ := hfits
    have honly : ∀ other, Fits p store cookie context prior preserve other → other = checked :=
      fun other hother => Except.ok.inj (hother.check.symm.trans h.check)
    rw [h.run.1, h.run.2]
    constructor
    · intro hunchanged other hother
      rw [honly other hother, ← roomFor_unchanged_iff]
      intro hfull
      have herror := (@insertLive_full_iff p store checked preserve).2 hfull
      rw [← insertLive_full herror]
      exact hunchanged herror
    · intro hnothing herror
      rw [insertLive_full herror]
      exact roomFor_unchanged_iff.2 (hnothing checked h) (insertLive_full_iff.1 herror)
  · have hnone : ∀ checked, ¬ Fits p store cookie context prior preserve checked :=
      fun checked h => hfits ⟨checked, h⟩
    refine iff_of_true (fun hrejected => ?_) fun checked h => absurd h (hnone checked)
    rcases setWithOrdering_of_not_fits hnone with h | h
    · rw [h.2]
      exact ⟨rfl, rfl⟩
    · rw [h] at hrejected
      cases hrejected

end Writes

end CookieStore

/-! ## A rejected write that evicts -/

namespace Sample

/-- Two unpartitioned cookies are allowed, one of each domain. -/
def crowded : CookieStore where
  cookies := (CookieMap.empty.put (sid "/account" (some true))).put
    { sid "/" none with domain := .hostOnly (ascii "other.example") }
  nextCreationIndex := 2
  nextAccessIndex := 2
  limits := ⟨1, 2⟩
  observer := some []
  publicSuffixList := none

end Sample

/-- The write finds its domain full of a Secure cookie after another domain lost its cookie. -/
theorem rejected_write_evicts :
    let result :=
      Sample.crowded.setWithOrdering Sample.platform (Sample.sid "/" none) Sample.context
      .provisional false
    result.1.status = .rejected .storageFull ∧
    (Sample.crowded.iterUnexpired Sample.platform).length = 2 ∧
    (result.2.iterUnexpired Sample.platform).length = 1 ∧
    result.2.observer = some [.delete ⟨ascii "other.example", ascii "/", ascii "sid", none⟩] := by
  decide +kernel

/-! ## Accepted writes -/

namespace CookieStore

theorem forCookie_inScope {c c' : Cookie} (h : forCookie c' = .forCookie c) :
    inScope domain key c' = inScope domain key c := by
  rw [inScope, inScope, show c'.partitionKey = c.partitionKey from congrArg (·.partitionKey) h,
    show c'.domain.text = c.domain.text from congrArg (·.domain) h]

theorem eq_of_forCookie_eq {c c' : Cookie} (hc : c ∈ store.iterUnexpired p)
    (hc' : c' ∈ store.iterUnexpired p) (h : forCookie c' = .forCookie c) : c' = c := by
  rw [mem_iterUnexpired] at hc hc'
  rw [h, hc] at hc'
  exact (Option.some.inj hc').symm

theorem countP_forCookie :
    (store.iterUnexpired p).countP (fun c => forCookie c = .forCookie cookie) =
      (store.get p (.forCookie cookie)).isSome.toNat := by
  cases hget : store.get p (.forCookie cookie) with
  | none =>
    refine countP_eq_zero.2 fun c hc hkey => ?_
    rw [mem_iterUnexpired, of_decide_eq_true hkey, hget] at hc
    cases hc
  | some old =>
    have hkey := key_of_get hget
    have hold : old ∈ store.iterUnexpired p := mem_iterUnexpired.2 (by rw [hkey, hget])
    have hcount : (store.iterUnexpired p).count old = 1 :=
      count_eq_one_of_mem (nodup_iterUnexpired p store) hold
    refine Eq.trans (countP_congr fun c hc => ?_) hcount
    simp only [decide_eq_true_eq, beq_iff_eq]
    constructor
    · intro h
      exact eq_of_forCookie_eq hold hc (h.trans hkey.symm)
    · intro h
      rw [h, hkey]

/-- A cookie that goes in takes the place of the one with its key. -/
theorem scopeCount_upsert {room final : CookieStore} {stored : Cookie}
    (hkey : forCookie stored = .forCookie cookie)
    (hscope : inScope domain key cookie = true)
    (hget : ∀ k, final.get p k = if k = .forCookie cookie then some stored else room.get p k) :
    scopeCount p final domain key + (room.get p (.forCookie cookie)).isSome.toNat =
      scopeCount p room domain key + 1 := by
  have hperm : (final.iterUnexpired p).Perm (stored :: (room.iterUnexpired p).filter
      fun c => !decide (forCookie c = .forCookie cookie)) := by
    rw [perm_ext_iff_of_nodup (nodup_iterUnexpired p final)]
    · intro c
      rw [mem_iterUnexpired, hget, mem_cons, mem_filter, mem_iterUnexpired]
      split_ifs with hc
      · simp only [hc, decide_true, Bool.not_true, Bool.false_eq_true, and_false, or_false]
        exact Option.some_inj.trans eq_comm
      · have hne : c ≠ stored := fun h => hc (h ▸ hkey)
        simp [hne, hc]
    · refine nodup_cons.2 ⟨fun h => ?_, (nodup_iterUnexpired p room).filter _⟩
      simp [hkey] at h
  have hsame : (room.iterUnexpired p).countP (fun c =>
      inScope domain key c && decide (forCookie c = .forCookie cookie)) =
        (room.get p (.forCookie cookie)).isSome.toNat := by
    rw [← countP_forCookie]
    refine countP_congr fun c _ => ?_
    rw [Bool.and_eq_true, and_iff_right_of_imp]
    intro h
    rw [forCookie_inScope (of_decide_eq_true h), hscope]
  have hroom := countP_eq_countP_filter_add (room.iterUnexpired p) (inScope domain key)
    fun c => decide (forCookie c = .forCookie cookie)
  rw [countP_filter] at hroom
  rw [scopeCount, hperm.countP_eq, countP_cons_of_pos (by rw [forCookie_inScope hkey, hscope]),
    scopeCount]
  omega

section Writes

variable {checked : Cookie} {context : InsertContext} {prior : CookieSetAccessResult}
  {preserve : Bool}

theorem insertLive_ok (hlive : checked.isExpired p = false)
    (h : (store.insertLive p checked preserve).1.isOk = true) :
    ∃ stored, forCookie stored = .forCookie checked ∧
      ∀ k, (store.insertLive p checked preserve).2.get p k = if k = .forCookie checked then
        some stored else (store.roomFor p checked).2.get p k := by
  have hroom := makeRoomForCookie_evicted (p := p) store checked.domain.text checked.partitionKey
    checked.isSecure (store.get p (.forCookie checked)).isSome
  unfold insertLive roomFor at *
  dsimp only at h ⊢
  split at h
  next => cases h
  next room hresult =>
    rw [hresult] at hroom ⊢
    have hordered :
        Ready p (.forCookie checked) room (if preserve then (checked, room.keepOrdering checked)
          else room.assignOrdering checked (store.get p (.forCookie checked))).2 ∧
        SameCookie checked (if preserve then (checked, room.keepOrdering checked)
          else room.assignOrdering checked (store.get p (.forCookie checked))).1 := by
      cases preserve with
      | true => exact ⟨.kept ⟨rfl, rfl⟩, ⟨rfl, rfl, rfl⟩⟩
      | false => exact assignOrdering_spec room checked _ hroom.get_of_none
    obtain ⟨hready, hsame⟩ := hordered
    refine ⟨_, hsame.key, fun k => ?_⟩
    rw [get_upsert (hsame.isExpired.trans hlive), hready.get_eq, hsame.key]

/-- The cookie a write replaces is not among those evicted for it: neither among the first of all
unpartitioned cookies nor among the first of its domain. -/
def Spared (p : Platform) (store : CookieStore) (checked : Cookie) : Prop :=
  ∀ old, store.get p (.forCookie checked) = some old →
    old ∉ (evictable p store none none checked.isSecure).take
      (totalExcess p store checked.partitionKey true) ∧
    old ∉ (evictable p store (some checked.domain.text) checked.partitionKey checked.isSecure).take
      (bucketExcess p store checked.domain.text checked.partitionKey true)

theorem spared_iff {old : Cookie} :
    (old ∉ (evictable p store none none secure).take (totalExcess p store key replacing) ∧
      old ∉ (evictable p store (some d) key secure).take (bucketExcess p store d key replacing)) ↔
    old ∉ firstEvicted p store key secure replacing ++
      secondEvicted p store d key secure replacing := by
  obtain ⟨g, -, hbucket, hfront, hover⟩ := @bucket_after_first p store d key secure replacing _ rfl
  rw [mem_append, not_or]
  refine and_congr_right fun hfirst => not_congr ?_
  rw [secondEvicted, hbucket, hover]
  refine (mem_take_iff_of_not_mem fun hold => hfirst ?_).symm
  exact (hfront old (mem_of_mem_take hold)).1 hold

theorem makeRoomForCookie_snd
    (hroom : (store.makeRoomForCookie p d key secure replacing).1 = true) :
    (store.makeRoomForCookie p d key secure replacing).2 =
      store.evictAll (firstEvicted p store key secure replacing ++
        secondEvicted p store d key secure replacing) := by
  rw [makeRoomForCookie_fst, decide_eq_true_eq] at hroom
  rw [makeRoomForCookie_eq, if_pos hroom.1]
  exact evictAll_append _ _

theorem excess_spec {quota count left evicted : ℕ} (hquota : 0 < quota)
    (hleft : left + evicted = count) (hevicted : evicted = excess quota count replacing) :
    left < quota + replacing.toNat ∧ (0 < evicted → left + 1 = quota + replacing.toNat) := by
  rw [excess, if_neg hquota.ne'] at hevicted
  omega

/-- The counts once room is made, and that a loop which evicted stops right below its quota. -/
theorem room_counts (hdomain : 0 < store.limits.perDomainCookies)
    (htotal : 0 < store.limits.totalCookies)
    (hroom : (store.makeRoomForCookie p d key secure replacing).1 = true) :
    let room := (store.makeRoomForCookie p d key secure replacing).2
    (scopeCount p room (some d) key < store.limits.perDomainCookies + replacing.toNat ∧
      (secondEvicted p store d key secure replacing ≠ [] →
        scopeCount p room (some d) key + 1 = store.limits.perDomainCookies + replacing.toNat)) ∧
    (key = none → scopeCount p room none none < store.limits.totalCookies + replacing.toNat ∧
      (firstEvicted p store key secure replacing ≠ [] →
        secondEvicted p store d key secure replacing = [] →
        scopeCount p room none none + 1 = store.limits.totalCookies + replacing.toNat)) := by
  intro room
  obtain ⟨g, hg, hbucket, -, hover⟩ := @bucket_after_first p store d key secure replacing _ rfl
  have hends := hroom
  rw [makeRoomForCookie_fst, decide_eq_true_eq] at hends
  set left := store.evictAll (firstEvicted p store key secure replacing) with hleft
  have hroomEq : room = left.evictAll (secondEvicted p store d key secure replacing) :=
    (makeRoomForCookie_snd hroom).trans (evictAll_append _ _).symm
  have hsecond : secondEvicted p store d key secure replacing =
      (evictable p left (some d) key secure).take (bucketExcess p left d key replacing) := rfl
  have hlength : (secondEvicted p store d key secure replacing).length =
      bucketExcess p left d key replacing := by
    rw [hsecond, length_take, hbucket, length_drop]
    omega
  have hdomains := @scopeCount_take_evictable p left (some d) key secure
    (bucketExcess p left d key replacing)
  rw [← hsecond, ← hroomEq, ← length_take, ← hsecond, hlength] at hdomains
  constructor
  · have hspec := excess_spec hdomain hdomains (by rw [bucketExcess, evictAll_limits])
    refine ⟨hspec.1, fun hne => hspec.2 ?_⟩
    rw [← hlength]
    exact length_pos_iff.2 hne
  · rintro rfl
    have hexcess : totalExcess p store none replacing =
        excess store.limits.totalCookies (scopeCount p store none none) replacing := rfl
    have hfirst := @scopeCount_take_evictable p store none none secure
      (totalExcess p store none replacing)
    rw [min_eq_left hends.1, ← firstEvicted, ← hleft] at hfirst
    have hspec := excess_spec htotal hfirst hexcess
    obtain ⟨hnodup, hmem⟩ := @take_evictable p left (some d) none secure
      (bucketExcess p left d none replacing)
    have hless := @scopeCount_evictAll p left none none _ hnodup hmem
    rw [← hsecond, ← hroomEq] at hless
    refine ⟨by omega, fun hne hnone => ?_⟩
    have hpos : 0 < totalExcess p store none replacing := by
      refine Nat.pos_of_ne_zero fun hzero => hne ?_
      rw [firstEvicted, hzero, take_zero]
    rw [hnone, countP_nil, Nat.add_zero] at hless
    rw [hless]
    exact hspec.2 hpos

/-- Once room is made, a cookie that goes in meets the quotas unless its own predecessor was
evicted: the loop that ran last stopped with the quota full of other cookies. -/
theorem quotas_iff_spared {final : CookieStore} {stored : Cookie}
    (hdomain : 0 < store.limits.perDomainCookies) (htotal : 0 < store.limits.totalCookies)
    (hroom : (store.roomFor p checked).1 = true)
    (hkey : forCookie stored = .forCookie checked)
    (hget : ∀ k, final.get p k = if k = .forCookie checked then some stored
      else (store.roomFor p checked).2.get p k) :
    (scopeCount p final (some checked.domain.text) checked.partitionKey ≤
      store.limits.perDomainCookies ∧
      (checked.partitionKey = none → scopeCount p final none none ≤ store.limits.totalCookies)) ↔
    Spared p store checked := by
  unfold roomFor at hroom hget
  obtain ⟨⟨hbucket, hbucketFull⟩, htotals⟩ := room_counts hdomain htotal hroom
  have hin : inScope (some checked.domain.text) checked.partitionKey checked = true := by
    simp [inScope]
  have hdomains := scopeCount_upsert hkey hin hget
  have htotalCount := fun hnone : checked.partitionKey = none =>
    scopeCount_upsert hkey (show inScope none none checked = true by simp [inScope, hnone]) hget
  rw [makeRoomForCookie_snd hroom, get_evictAll] at hdomains htotalCount
  rw [makeRoomForCookie_snd hroom] at hbucket hbucketFull htotals
  cases hold : store.get p (.forCookie checked) with
  | none =>
    rw [hold] at hdomains htotalCount hbucket htotals
    simp only [ite_self] at *
    refine iff_of_true ⟨by omega, fun hnone => ?_⟩ fun old h => ?_
    · have hcount := htotalCount hnone
      have hless := (htotals hnone).1
      omega
    · rw [hold] at h
      cases h
  | some old =>
    have hmemOld : old ∈ store.iterUnexpired p :=
      mem_iterUnexpired.2 (by rw [key_of_get hold, hold])
    have hsome : (store.get p (.forCookie checked)).isSome = true := by rw [hold]; rfl
    simp only [hsome, Bool.toNat_true] at hdomains htotalCount hbucket hbucketFull htotals
    rw [hold] at hdomains htotalCount
    set second :=
      secondEvicted p store checked.domain.text checked.partitionKey checked.isSecure true
      with hsecond
    set gone := firstEvicted p store checked.partitionKey checked.isSecure true ++ second with hgone
    have hmem : forCookie checked ∈ gone.map .forCookie ↔ old ∈ gone := by
      constructor
      · intro h
        obtain ⟨c, hc, hckey⟩ := mem_map.1 h
        rwa [← eq_of_forCookie_eq hmemOld (evicted_mem c hc) (hckey.trans (key_of_get hold).symm)]
      · intro h
        rw [← key_of_get hold]
        exact mem_map_of_mem h
    have hspared : Spared p store checked ↔ old ∉ gone := by
      rw [← spared_iff, Spared]
      simp only [hold, Option.some.injEq, forall_eq']
    rw [hspared]
    by_cases hevicted : old ∈ gone
    · rw [if_pos (hmem.2 hevicted)] at hdomains htotalCount
      simp only [Option.isSome_none, Bool.toNat_false] at hdomains htotalCount
      refine iff_of_false (fun h => ?_) (not_not.2 hevicted)
      by_cases hnil : second = []
      · rw [hgone, hnil, append_nil] at hevicted
        have hnone : checked.partitionKey = none := by
          by_contra hsome
          have hzero : totalExcess p store checked.partitionKey true = 0 :=
            if_pos (Option.isSome_iff_ne_none.2 hsome)
          rw [firstEvicted, hzero] at hevicted
          cases hevicted
        have hfull := (htotals hnone).2 (ne_nil_of_mem hevicted) hnil
        have hcount := htotalCount hnone
        have hquota := h.2 hnone
        omega
      · have hfull := hbucketFull hnil
        omega
    · rw [if_neg fun h => hevicted (hmem.1 h)] at hdomains htotalCount
      simp only [Option.isSome_some, Bool.toNat_true] at hdomains htotalCount
      refine iff_of_true ⟨by omega, fun hnone => ?_⟩ hevicted
      have hcount := htotalCount hnone
      have hless := (htotals hnone).1
      omega

theorem fits_of_accepted {action : StoreAction}
    (hcheck : store.checkInsert p (prepare p cookie context preserve) context = .ok checked)
    (haccepted : (store.setWithOrdering p cookie context prior preserve).1.status =
      .accepted action)
    (hstores : action ≠ .expiredExisting) : Fits p store cookie context prior preserve checked := by
  by_contra hnot
  have hnone : ∀ other, ¬ Fits p store cookie context prior preserve other := by
    intro other hother
    cases Except.ok.inj (hother.check.symm.trans hcheck)
    exact hnot hother
  rcases setWithOrdering_of_not_fits hnone with h | h
  · rw [haccepted] at h
    cases h.1
  · rw [haccepted] at h
    cases h
    exact hstores rfl

/-- An accepted write meets the quotas exactly when the cookie it replaces is not evicted for it. -/
theorem accepted_write_quotas_iff (p : Platform) (store : CookieStore) (cookie : Cookie)
    (context : InsertContext) (prior : CookieSetAccessResult) (preserve : Bool) (checked : Cookie)
    (action : StoreAction) (hdomain : 0 < store.limits.perDomainCookies)
    (htotal : 0 < store.limits.totalCookies)
    (hcheck : store.checkInsert p (prepare p cookie context preserve) context = .ok checked)
    (haccepted : (store.setWithOrdering p cookie context prior preserve).1.status =
      .accepted action)
    (hstores : action ≠ .expiredExisting) :
    let final := (store.setWithOrdering p cookie context prior preserve).2
    (final.countBucket p checked.domain.text checked.partitionKey ≤ store.limits.perDomainCookies ∧
      (checked.partitionKey = none → final.countUnpartitioned p ≤ store.limits.totalCookies)) ↔
    Spared p store checked := by
  intro final
  have hfits := fits_of_accepted hcheck haccepted hstores
  have hok : (store.insertLive p checked preserve).1.isOk = true := by
    rw [← hfits.run.2, haccepted]
    rfl
  have hroom : (store.roomFor p checked).1 = true := by
    by_contra hnot
    rw [insertLive_full_iff.2 (by simpa using hnot)] at hok
    cases hok
  obtain ⟨stored, hkey, hget⟩ := insertLive_ok hfits.live hok
  rw [← hfits.run.1] at hget
  rw [countUnpartitioned_eq]
  exact quotas_iff_spared hdomain htotal hroom hkey hget

end Writes

end CookieStore

/-! ## A replaced cookie that is evicted first -/

namespace Sample

/-- Two cookies of a domain after its quota was lowered to one. -/
def lowered : CookieStore where
  cookies :=
    (CookieMap.empty.put (sid "/" none)).put { sid "/account" none with lastAccessIndex := 1 }
  nextCreationIndex := 2
  nextAccessIndex := 2
  limits := ⟨1, 3300⟩
  observer := none
  publicSuffixList := none

end Sample

/-- The accepted write leaves two cookies where one is allowed. -/
theorem accepted_write_over_quota :
    let result :=
      Sample.lowered.setWithOrdering Sample.platform (Sample.sid "/" none) Sample.context
      .provisional false
    result.1.status = .accepted .inserted ∧ Sample.lowered.limits.perDomainCookies = 1 ∧
    result.2.countBucket Sample.platform (ascii "example.com") none = 2 := by
  decide +kernel

theorem accepted_write_quotas_iff_account :
    ((Sample.lowered.setWithOrdering Sample.platform (Sample.sid "/account" none) Sample.context
        .provisional false).2.countBucket Sample.platform (ascii "example.com") none ≤ 1) := by
  have hspared :
      CookieStore.Spared Sample.platform Sample.lowered (Sample.sid "/account" none) := by
    intro old hold
    cases hold
    decide +kernel
  exact ((CookieStore.accepted_write_quotas_iff Sample.platform Sample.lowered
    (Sample.sid "/account" none) Sample.context .provisional false (Sample.sid "/account" none)
    .updatedExisting (by decide) (by decide) (by decide +kernel) (by decide +kernel)
    (by decide)).2 hspared).1

end Moli.Cookies
