import Moli.Cookies.Write

/-!
# Reading and deleting cookies

Queries with their exclusion reasons, the access metadata they update, deletion by filter, and the
operations of a store as one type.
-/

namespace Moli.Cookies

structure QueryContext where
  url : Url
  source : CookieAccessSource
  cookiePartitionKey : Option CookiePartitionKey
  sameSiteContext : SameSiteContext
  requestType : HttpRequestType
  includeHttpOnly : Bool
  updateAccessTime : Bool
  returnExcludedCookies : Bool

inductive CookieExclusionReason where
  | expired
  | domainMismatch
  | pathMismatch
  | secureOnly
  | httpOnly
  | schemeMismatch
  | sameSiteStrict
  | sameSiteLax
  | sameSiteUnspecifiedTreatedAsLax
  | partitionKeyMismatch
deriving DecidableEq

def sourceSchemeMismatch (cookie : Cookie) (url : Url) : Bool :=
  cookie.sourceScheme != .unset && cookie.sourceScheme != .ofUrl url

def partitionKeyMismatch : Option CookiePartitionKey → Option CookiePartitionKey → Bool
  | some cookieKey, some contextKey => cookieKey != contextKey
  | some _, none => true
  | none, some (.nonce _ _) => true
  | none, some (.site _ _) => false
  | none, none => false

def sameSiteExclusionReason (cookie : Cookie) (context : QueryContext)
    (sameSiteContext : SameSiteRequestContext) (effectiveSameSite : CookieEffectiveSameSite) :
    Option CookieExclusionReason :=
  if context.source == .cdp then none
  else match effectiveSameSite with
    | .strict => if sameSiteContext != .sameSiteStrict then some .sameSiteStrict else none
    | .lax =>
      if sameSiteContext == .sameSiteStrict || sameSiteContext == .sameSiteLax then none
      else if cookie.sameSite.isNone then some .sameSiteUnspecifiedTreatedAsLax
      else some .sameSiteLax
    | .laxAllowUnsafe =>
      if sameSiteContext == .crossSite || (sameSiteContext == .sameSiteLaxMethodUnsafe &&
          context.requestType != .topLevelNavigation) then
        some .sameSiteUnspecifiedTreatedAsLax
      else none
    | .noRestriction => none

def addExclusion (reasons : List CookieExclusionReason) (reason : CookieExclusionReason) :
    List CookieExclusionReason :=
  if reason ∈ reasons then reasons else reasons ++ [reason]

/-- The exclusion reasons of `query_context_access_result`. -/
def exclusionReasons (p : Platform) (cookie : Cookie) (context : QueryContext) :
    List CookieExclusionReason :=
  let allowHttpOnly := context.includeHttpOnly || context.source != .document
  let reasons :=
    (if cookie.isExpired p then [.expired] else []) ++
    (if !cookie.domain.matchesUrl p context.url then [.domainMismatch] else []) ++
    (if !cookie.path.matchesUrl context.url then [.pathMismatch] else []) ++
    (if cookie.isSecure && !isSecure context.url then [.secureOnly] else []) ++
    (if cookie.isHttpOnly && !allowHttpOnly then [.httpOnly] else []) ++
    (if cookie.isHttpOnly && context.source == .http && !isHttpScheme context.url then [.httpOnly]
      else []) ++
    (if sourceSchemeMismatch cookie context.url then [.schemeMismatch] else []) ++
    (if partitionKeyMismatch cookie.partitionKey context.cookiePartitionKey then
      [.partitionKeyMismatch] else []) ++
    (sameSiteExclusionReason cookie context context.sameSiteContext.forInclusion
      (effectiveSameSite p cookie)).toList
  reasons.foldl addExclusion []

/-! ## Deletion filters -/

inductive CookiePartitionMatch where
  | any
  | unpartitioned
  | exact (key : CookiePartitionKey)
  | serialized (topLevelSite : Option Text) (hasCrossSiteAncestor : Option Bool)

structure CookieDeleteFilter where
  name : Option Text
  domain : Option Text
  serializedDomain : Option Text
  path : Option Text
  urlHost : Option Text
  partition : CookiePartitionMatch

def deleteFilterDomainMatchesHost (requestHost cookieDomain : Text) (hostOnly : Bool) : Bool :=
  let requestHost := requestHost.map toAsciiLowercase
  let cookieDomain := cookieDomain.map toAsciiLowercase
  requestHost == cookieDomain || (!hostOnly && (dot :: cookieDomain).isSuffixOf requestHost)

def serializedDomainMatches (wanted : Text) : CookieDomain → Bool
  | .suffix text => wanted == dot :: text
  | .hostOnly text => wanted == text
  | .notPresent => wanted == []
  | .empty => wanted == []

def partitionMatches (key : Option CookiePartitionKey) : CookiePartitionMatch → Bool
  | .any => true
  | .unpartitioned => key.isNone
  | .exact wanted => key == some wanted
  | .serialized topLevelSite hasCrossSiteAncestor =>
    match key with
    | some (.site actualSite actualAncestor) =>
      topLevelSite.all (· == actualSite) && hasCrossSiteAncestor.all (· == actualAncestor)
    | _ => false

def cookieMatchesDeleteFilter (cookie : Cookie) (filter : CookieDeleteFilter) : Bool :=
  let hostOnly := match cookie.domain with
    | .hostOnly _ => true
    | _ => false
  filter.name.all (· == cookie.name) && filter.domain.all (· == cookie.domain.text) &&
    filter.serializedDomain.all (serializedDomainMatches · cookie.domain) &&
    filter.path.all (· == cookie.path.text) &&
    filter.urlHost.all (deleteFilterDomainMatchesHost · cookie.domain.text hostOnly) &&
    partitionMatches cookie.partitionKey filter.partition

/-! ## Operations -/

structure CookieAccessQueryResult where
  includedCookies : List Cookie
  excludedCookies : List (Cookie × List CookieExclusionReason)

namespace CookieStore

variable (p : Platform)

variable (store : CookieStore)

/-- The access index is used up also where the cookie is absent. -/
def touchWithPartitionKey (key : CookieStoreKey) : Bool × CookieStore :=
  let (accessIndex, store) := store.bumpAccessIndex
  match store.get p key with
  | none => (false, store)
  | some cookie =>
    (true, { store with cookies := store.cookies.put (cookie.touchWithAccessIndex accessIndex) })

/-- The cookies of the domains whose text matches the URL. -/
def candidates (url : Url) : List Cookie :=
  ((store.cookies.domains.entries.filter fun entry => CookieDomain.textMatches p entry.1 url).map
    (·.2)).flatMap fun paths => (Lib.values paths).flatMap Lib.values

def getCookieAccessQueryResult (context : QueryContext) : CookieAccessQueryResult × CookieStore :=
  let candidates := store.candidates p context.url
  let included := candidates.filter fun cookie => (exclusionReasons p cookie context).isEmpty
  let excluded := candidates.filter fun cookie => !(exclusionReasons p cookie context).isEmpty
  let store := if context.updateAccessTime then
      included.foldl (fun store cookie => (store.touchWithPartitionKey p (.forCookie cookie)).2)
        store
    else store
  (⟨included, if context.returnExcludedCookies then
    excluded.map fun cookie => (cookie, exclusionReasons p cookie context) else []⟩, store)

def deleteMatching (filter : CookieDeleteFilter) : Nat × CookieStore :=
  let removed := ((store.iterUnexpired p).filter (cookieMatchesDeleteFilter · filter)).map
    CookieStoreKey.forCookie
  (removed.length, removed.foldl (fun store key => (store.removeWithPartitionKey key).2) store)

end CookieStore

/-- A write with an explicit context. `restore` keeps the ordering of the cookie. -/
structure SetCall where
  cookie : Cookie
  context : InsertContext
  priorResult : CookieSetAccessResult
  restore : Bool

namespace SetCall

def run (p : Platform) (call : SetCall) (store : CookieStore) :
    CookieSetAccessResult × CookieStore :=
  store.setWithOrdering p call.cookie call.context call.priorResult call.restore

end SetCall

inductive StoreOp where
  | set (call : SetCall)
  | remove (key : CookieStoreKey)
  | deleteMatching (filter : CookieDeleteFilter)
  | clear
  | touch (key : CookieStoreKey)
  | query (context : QueryContext)
  | setLimits (limits : CookieStoreLimits)

namespace StoreOp

def run (p : Platform) (store : CookieStore) : StoreOp → CookieStore
  | set call => (call.run p store).2
  | remove key => (store.removeWithPartitionKey key).2
  | deleteMatching filter => (store.deleteMatching p filter).2
  | clear => store.clear
  | touch key => (store.touchWithPartitionKey p key).2
  | query context => (store.getCookieAccessQueryResult p context).2
  | setLimits limits => store.setLimits limits

end StoreOp

end Moli.Cookies
