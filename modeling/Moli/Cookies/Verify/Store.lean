import Moli.Cookies.Query

/-!
# What the operations of a cookie store do

Lookups after each primitive change, evictions as steps of a relation, and the cases of a write:
`setWithOrdering_cases` says once what a write can do to the store.
-/

namespace Moli.Cookies

open Lib.Text (ascii)

open Lib

variable {p : Platform} {m : CookieMap} {key k : CookieStoreKey} {cookie c old : Cookie}
variable {store store' : CookieStore}

namespace CookieMap

theorem find_put : (m.put cookie).find k =
    if k = .forCookie cookie then some cookie else m.find k :=
  DomainMap.find_insert

theorem find_remove : (m.remove key).find k = if k = key then none else m.find k :=
  DomainMap.find_remove

theorem key_of_find (h : m.find key = some c) : CookieStoreKey.forCookie c = key := m.placed key c h

theorem mem_iterAny : c ∈ m.iterAny ↔ m.find (.forCookie c) = some c := by
  refine DomainMap.mem_iterAny.trans ⟨?_, fun h => ⟨_, h⟩⟩
  rintro ⟨key, hkey⟩
  rw [key_of_find hkey]
  exact hkey

end CookieMap

namespace CookieStore

/-! ## Lookups -/

theorem get_eq_some : store.get p key = some c ↔
    store.getAny key = some c ∧ c.isExpired p = false := by
  rw [get, Option.filter_eq_some_iff, Bool.not_eq_true']

theorem key_of_get (h : store.get p key = some c) : CookieStoreKey.forCookie c = key :=
  CookieMap.key_of_find (get_eq_some.1 h).1

theorem mem_iterUnexpired : c ∈ store.iterUnexpired p ↔ store.get p (.forCookie c) = some c := by
  rw [iterUnexpired, List.mem_filter, get_eq_some, Bool.not_eq_true']
  exact and_congr_left fun _ => CookieMap.mem_iterAny

/-- Lookups depend on the cookies alone. -/
theorem get_congr (h : store'.cookies = store.cookies) : store'.get p = store.get p := by
  funext key
  rw [get, get, getAny, getAny, h]

theorem getAny_removeWithPartitionKey : (store.removeWithPartitionKey key).2.getAny k =
    if k = key then none else store.getAny k := by
  unfold removeWithPartitionKey
  cases store.getAny key with
  | none | some => exact CookieMap.find_remove

theorem get_removeWithPartitionKey : (store.removeWithPartitionKey key).2.get p k =
    if k = key then none else store.get p k := by
  rw [get, getAny_removeWithPartitionKey]
  split_ifs with hk
  · rfl
  · rfl

theorem getAny_put : ({ store with cookies := store.cookies.put c } : CookieStore).getAny k =
    if k = .forCookie c then some c else store.getAny k :=
  CookieMap.find_put

theorem get_put (hlive : c.isExpired p = false) :
    ({ store with cookies := store.cookies.put c } : CookieStore).get p k =
      if k = .forCookie c then some c else store.get p k := by
  rw [get, getAny_put]
  split_ifs with hk
  · simp [hlive]
  · rfl

theorem get_put_expired (hexpired : c.isExpired p = true) :
    ({ store with cookies := store.cookies.put c } : CookieStore).get p k =
      if k = .forCookie c then none else store.get p k := by
  rw [get, getAny_put]
  split_ifs with hk
  · simp [hexpired]
  · rfl

theorem expire_isExpired (hnow : 0 ≤ p.now) : (c.expire p).isExpired p = true := by
  have hmax : (0 : Int) ≤ maxRfc3339 := by decide
  simpa [Cookie.expire, Cookie.isExpired, CookieExpiration.expiresBy, CookieExpiration.ofDuration,
    hmax] using hnow

theorem get_expireExisting_of_ne (hk : k ≠ .forCookie old) :
    (store.expireExisting p old).get p k = store.get p k := by
  have hfind : (store.expireExisting p old).getAny k = store.getAny k :=
    getAny_put.trans (if_neg hk)
  rw [get, get, hfind]

theorem get_upsert (hlive : c.isExpired p = false) : (store.upsert c).2.get p k =
    if k = .forCookie c then some c else store.get p k :=
  get_put hlive

/-! ## Evictions -/

/-- One cookie is evicted; a secure one only for an incoming secure one. -/
def EvictStep (p : Platform) (secure : Bool) (store store' : CookieStore) : Prop :=
  ∃ c, store.get p (.forCookie c) = some c ∧ (c.isSecure = true → secure = true) ∧
    store' = (store.removeWithPartitionKey (.forCookie c)).2

def Evicted (p : Platform) (secure : Bool) : CookieStore → CookieStore → Prop :=
  Relation.ReflTransGen (EvictStep p secure)

variable {domain : Option Text} {partitionKey : Option CookiePartitionKey} {secure : Bool}

theorem oldestAccessedCookieKey_spec {priority : CookiePriority}
    (h : store.oldestAccessedCookieKey p domain partitionKey secure priority = some key) :
    ∃ c, store.get p (.forCookie c) = some c ∧ c.isSecure = secure ∧
      c.partitionKey = partitionKey ∧ (∀ d ∈ domain, c.domain.text = d) ∧
      key = .forCookie c := by
  obtain ⟨c, hmin, rfl⟩ := Option.map_eq_some_iff.1 h
  obtain ⟨hmem, hc⟩ := List.mem_filter.1 (List.argmin_mem hmin)
  simp only [Bool.and_eq_true, beq_iff_eq, Option.all_eq_true] at hc
  obtain ⟨⟨⟨hpartition, hsecure⟩, -⟩, hdomain⟩ := hc
  exact ⟨c, mem_iterUnexpired.1 hmem, hsecure, hpartition, fun d hd => hdomain d hd, rfl⟩

theorem evictOneOf_spec (h : store.evictOneOf p domain partitionKey secure = some store') :
    ∃ c, store.get p (.forCookie c) = some c ∧ c.isSecure = secure ∧
      c.partitionKey = partitionKey ∧ (∀ d ∈ domain, c.domain.text = d) ∧
      store' = (store.removeWithPartitionKey (.forCookie c)).2 := by
  obtain ⟨key, hkey, rfl⟩ := Option.map_eq_some_iff.1 h
  obtain ⟨priority, -, hpriority⟩ := List.exists_of_findSome?_eq_some hkey
  obtain ⟨c, hget, hsecure, hpartition, hdomain, rfl⟩ := oldestAccessedCookieKey_spec hpriority
  exact ⟨c, hget, hsecure, hpartition, hdomain, rfl⟩

theorem evictOneCookie_spec (h : evictOneCookie p domain partitionKey secure store = some store') :
    EvictStep p secure store store' := by
  unfold evictOneCookie at h
  cases hfirst : store.evictOneOf p domain partitionKey false with
  | some left =>
    rw [hfirst] at h
    obtain rfl := Option.some.inj h
    obtain ⟨c, hget, hsecure, -, -, rfl⟩ := evictOneOf_spec hfirst
    exact ⟨c, hget, fun hc => absurd hc (by simp [hsecure]), rfl⟩
  | none =>
    simp only [hfirst] at h
    split_ifs at h with hincoming
    obtain ⟨c, hget, -, -, -, rfl⟩ := evictOneOf_spec h
    exact ⟨c, hget, fun _ => hincoming, rfl⟩

theorem evictUntil_evicted {enough : CookieStore → Bool} {fuel : Nat} :
    Evicted p secure store
      (evictUntil enough (evictOneCookie p domain partitionKey secure) fuel store).2 :=
  evictUntil_kept (P := Evicted p secure store) (fun _ _ hs h => hs.tail (evictOneCookie_spec h))
    .refl

theorem makeRoomForCookie_evicted (store : CookieStore) (domain : Text)
    (partitionKey : Option CookiePartitionKey) (secure replacing : Bool) :
    Evicted p secure store (store.makeRoomForCookie p domain partitionKey secure replacing).2 := by
  unfold makeRoomForCookie
  split
  next hfirst =>
    have hevicted := congrArg Prod.snd hfirst ▸ evictUntil_evicted
    exact hevicted
  next hfirst =>
    have hevicted := congrArg Prod.snd hfirst ▸ evictUntil_evicted
    exact Relation.ReflTransGen.trans hevicted evictUntil_evicted

theorem Evicted.get_of_none (h : Evicted p secure store store') (hnone : store.get p key = none) :
    store'.get p key = none := by
  induction h with
  | refl => exact hnone
  | tail _ hstep ih =>
    obtain ⟨c, -, -, rfl⟩ := hstep
    rw [get_removeWithPartitionKey, ih, ite_self]

/-! ## The cases of a write -/

/-- A change that ordering a cookie leaves no trace of. -/
structure SameCookie (c c' : Cookie) : Prop where
  key : CookieStoreKey.forCookie c' = .forCookie c
  secure : c'.isSecure = c.isSecure
  expires : c'.expires = c.expires

theorem SameCookie.isExpired {c' : Cookie} (h : SameCookie c c') :
    c'.isExpired p = c.isExpired p := by
  rw [Cookie.isExpired, Cookie.isExpired, h.expires]

/-- The counters may change. -/
structure Recounted (store store' : CookieStore) : Prop where
  cookies : store'.cookies = store.cookies
  observer : store'.observer = store.observer

/-- The store right before a live cookie goes in: what it replaces, if expired, may be gone. -/
inductive Ready (p : Platform) (key : CookieStoreKey) (store : CookieStore) :
    CookieStore → Prop where
  | kept {store' : CookieStore} (h : Recounted store store') : Ready p key store store'
  | cleared {store' : CookieStore} (hnone : store.get p key = none)
      (h : Recounted (store.removeWithPartitionKey key).2 store') : Ready p key store store'

theorem Ready.get_eq {room ready : CookieStore} (h : Ready p key room ready) :
    ready.get p = room.get p := by
  cases h with
  | kept h => exact get_congr h.cookies
  | cleared hnone h =>
    funext k
    rw [get_congr h.cookies, get_removeWithPartitionKey]
    split_ifs with hk
    · rw [hk, hnone]
    · rfl

inductive WriteEffect (p : Platform) (cookie : Cookie) (store : CookieStore) :
    InsertResult → CookieStore → Prop where
  | refused {error : CookieError} : WriteEffect p cookie store (.error error) store
  | full {room : CookieStore} (hroom : Evicted p cookie.isSecure store room) :
      WriteEffect p cookie store (.error .storageFull) room
  | expired {old : Cookie} {sameSite : CookieEffectiveSameSite}
      (hold : store.get p (.forCookie cookie) = some old) :
      WriteEffect p cookie store (.ok (.expiredExisting, sameSite)) (store.expireExisting p old)
  | stored {room ready : CookieStore} {c : Cookie} {sameSite : CookieEffectiveSameSite}
      (hlive : cookie.isExpired p = false) (hroom : Evicted p cookie.isSecure store room)
      (hready : Ready p (.forCookie cookie) room ready) (hsame : SameCookie cookie c) :
      WriteEffect p cookie store (.ok ((ready.upsert c).1, sameSite)) (ready.upsert c).2

theorem assignOrdering_spec (room : CookieStore) (cookie : Cookie) (existing : Option Cookie)
    (hnone : existing = none → room.get p (.forCookie cookie) = none) :
    Ready p (.forCookie cookie) room (room.assignOrdering cookie existing).2 ∧
      SameCookie cookie (room.assignOrdering cookie existing).1 := by
  cases existing with
  | none => exact ⟨.cleared (hnone rfl) ⟨rfl, rfl⟩, ⟨rfl, rfl, rfl⟩⟩
  | some old => exact ⟨.kept ⟨rfl, rfl⟩, ⟨rfl, rfl, rfl⟩⟩

theorem insertLive_effect {preserve : Bool} (hlive : cookie.isExpired p = false) :
    WriteEffect p cookie store (store.insertLive p cookie preserve).1
      (store.insertLive p cookie preserve).2 := by
  have hroom := makeRoomForCookie_evicted (p := p) store cookie.domain.text cookie.partitionKey
    cookie.isSecure (store.get p (.forCookie cookie)).isSome
  unfold insertLive
  dsimp only
  split
  next hresult =>
    rw [hresult] at hroom
    exact .full hroom
  next room hresult =>
    rw [hresult] at hroom
    cases preserve with
    | true => exact .stored hlive hroom (.kept ⟨rfl, rfl⟩) ⟨rfl, rfl, rfl⟩
    | false =>
      obtain ⟨hready, hsame⟩ := assignOrdering_spec room cookie (store.get p (.forCookie cookie))
        hroom.get_of_none
      exact .stored hlive hroom hready hsame

theorem insertChecked_effect {context : InsertContext} {preserve : Bool} :
    WriteEffect p cookie store (store.insertChecked p cookie context preserve).1
      (store.insertChecked p cookie context preserve).2 := by
  unfold insertChecked
  cases cookie.domain.asCow with
  | none => exact .refused
  | some _ =>
    cases hold : store.get p (.forCookie cookie) with
    | none =>
      split_ifs with hexpired
      · exact .refused
      · exact insertLive_effect (by simpa using hexpired)
    | some old =>
      dsimp only
      split_ifs with hhttp hexpired
      · exact .refused
      · exact .expired hold
      · exact insertLive_effect (by simpa using hexpired)

theorem insertWithContextImpl_cases (store : CookieStore) (cookie : Cookie)
    (context : InsertContext) (preserve : Bool) :
    let result := store.insertWithContextImpl p cookie context preserve
    result.1.isOk = false ∧ result.2 = store ∨
    ∃ checked, store.checkInsert p cookie context = .ok checked ∧
      WriteEffect p checked store result.1 result.2 := by
  unfold insertWithContextImpl
  cases store.checkInsert p cookie context with
  | error error => exact .inl ⟨rfl, rfl⟩
  | ok checked => exact .inr ⟨checked, rfl, insertChecked_effect⟩

theorem isAccepted_finishSet {result : CookieSetAccessResult} (outcome : InsertResult)
    (h : result.status.isAccepted = true) :
    (finishSet result outcome).status.isAccepted = outcome.isOk := by
  cases outcome with
  | ok outcome => rfl
  | error error =>
    have hstatus : (result.addRejection error).status = .rejected error := if_pos h
    rw [finishSet, hstatus]
    rfl

/-- A write is refused as a whole, or its checks passed and the store changed by its effect. -/
theorem setWithOrdering_cases (store : CookieStore) (cookie : Cookie) (context : InsertContext)
    (prior : CookieSetAccessResult) (preserve : Bool) :
    let result := store.setWithOrdering p cookie context prior preserve
    result.1.status.isAccepted = false ∧ result.2 = store ∨
    ∃ checked outcome, store.checkInsert p (prepare p cookie context preserve) context =
      .ok checked ∧ WriteEffect p checked store outcome result.2 ∧
      result.1.status.isAccepted = outcome.isOk := by
  dsimp only
  unfold setWithOrdering
  by_cases hprior : prior.status.isAccepted
  · rw [if_pos hprior]
    by_cases hreview : (store.reviewSet p (prepare p cookie context preserve) context
        prior).status.isAccepted
    · rw [if_pos hreview, isAccepted_finishSet _ hreview]
      rcases insertWithContextImpl_cases (p := p) store (prepare p cookie context preserve) context
        preserve with hrefused | ⟨checked, hcheck, heffect⟩
      · exact .inl hrefused
      · exact .inr ⟨checked, _, hcheck, heffect, rfl⟩
    · rw [if_neg hreview]
      exact .inl ⟨by simpa using hreview, rfl⟩
  · rw [if_neg hprior]
    exact .inl ⟨by simpa using hprior, rfl⟩

end CookieStore

/-! ## A sample write -/

namespace Sample

def platform : Platform where
  now := 0
  canonicalizeHostText := some
  domainToAscii := some
  isHostName _ := true

def url : Url where
  scheme := ascii "http"
  host := some (.domain (ascii "example.com"))
  hostStr := some (ascii "example.com")
  path := ascii "/"
  cannotBeABase := false

/-- `sid` of `example.com` for the path. -/
def sid (path : String) (secure : Option Bool) : Cookie where
  name := ascii "sid"
  value := ascii "1"
  secure := secure
  httpOnly := none
  sameSite := none
  partitioned := none
  path := ⟨ascii path, true⟩
  domain := .hostOnly (ascii "example.com")
  expires := .sessionEnd
  creationIndex := 0
  creationTime := .known 0
  lastAccessIndex := 0
  priority := none
  sourceScheme := .unset
  partitionKey := none

def context : InsertContext where
  url := url
  source := .http
  cookiePartitionKey := none
  sameSiteContext := ⟨.sameSiteStrict, .sameSiteStrict⟩
  requestType := .subresource
  enforceBrowserPolicy := true

def call (path : String) : SetCall := ⟨sid path none, context, .provisional, false⟩

end Sample

end Moli.Cookies
