import Moli.Cookies.Store

/-!
# Writing cookies

`setWithOrdering` checks a write against the policy of its context and stores the cookie, as
`set_with_ordering` and `insert_with_context_impl` do for every entry point of the store. A write
that fails for lack of room keeps the evictions made so far.
-/

namespace Moli.Cookies

open Lib.Text (ascii)

inductive CookieAccessSource where
  | http
  | document
  | cdp
deriving DecidableEq

inductive SameSiteRequestContext where
  | sameSiteStrict
  | sameSiteLax
  | sameSiteLaxMethodUnsafe
  | crossSite
deriving DecidableEq

structure SameSiteContext where
  context : SameSiteRequestContext
  schemefulContext : SameSiteRequestContext
deriving DecidableEq

def SameSiteContext.forInclusion (context : SameSiteContext) : SameSiteRequestContext :=
  context.schemefulContext

inductive HttpRequestType where
  | subresource
  | topLevelNavigation
deriving DecidableEq

structure InsertContext where
  url : Url
  source : CookieAccessSource
  cookiePartitionKey : Option CookiePartitionKey
  sameSiteContext : SameSiteContext
  requestType : HttpRequestType
  enforceBrowserPolicy : Bool

inductive StoreAction where
  | inserted
  | expiredExisting
  | updatedExisting
deriving DecidableEq

inductive CookieSetResult where
  | accepted (action : StoreAction)
  | rejected (reason : CookieError)
deriving DecidableEq

def CookieSetResult.isAccepted : CookieSetResult → Bool
  | accepted _ => true
  | rejected _ => false

inductive CookieSetWarningReason where
  | domainAttributeIgnored
  | pathAttributeIgnored
  | secureAccessGrantedNonCryptographic
deriving DecidableEq

structure CookieSetAccessResult where
  status : CookieSetResult
  rejectionReasons : List CookieError
  warningReasons : List CookieSetWarningReason
  effectiveSameSite : Option CookieEffectiveSameSite

namespace CookieSetAccessResult

def provisional : CookieSetAccessResult := ⟨.accepted .inserted, [], [], none⟩

variable (result : CookieSetAccessResult)

def addWarning (reason : CookieSetWarningReason) : CookieSetAccessResult :=
  if reason ∈ result.warningReasons then result
  else { result with warningReasons := result.warningReasons ++ [reason] }

def addRejection (reason : CookieError) : CookieSetAccessResult where
  status := if result.status.isAccepted then .rejected reason else result.status
  rejectionReasons := if reason ∈ result.rejectionReasons then result.rejectionReasons
    else result.rejectionReasons ++ [reason]
  warningReasons := result.warningReasons
  effectiveSameSite := result.effectiveSameSite

end CookieSetAccessResult

/-! ## Policy -/

def maxCookieNameValueBytes : Nat := 4096

def cookieNameValueTooLarge (name value : Text) : Bool :=
  maxCookieNameValueBytes < name.length + value.length

def toAsciiLowercase (byte : UInt8) : UInt8 := if 65 ≤ byte ∧ byte ≤ 90 then byte + 32 else byte

def hasCaseInsensitivePrefix (value start : Text) : Bool :=
  start.length ≤ value.length &&
    (value.take start.length).map toAsciiLowercase == start.map toAsciiLowercase

def protectedPrefixInValue (value : Text) : Bool :=
  [ascii "__Host-Http-", ascii "__Http-", ascii "__Host-", ascii "__Secure-"].any
    (hasCaseInsensitivePrefix value)

def prefixesAreValid (cookie : Cookie) : Bool :=
  if cookie.name.isEmpty then !protectedPrefixInValue cookie.value
  else
    let hostOnly := match cookie.domain with
      | .hostOnly _ => true
      | _ => false
    let explicitRootPath := cookie.path.isFromPathAttr && cookie.path.text == [slash]
    if hasCaseInsensitivePrefix cookie.name (ascii "__Host-Http-") then
      cookie.isSecure && cookie.isHttpOnly && hostOnly && explicitRootPath
    else if hasCaseInsensitivePrefix cookie.name (ascii "__Http-") then
      cookie.isSecure && cookie.isHttpOnly
    else if hasCaseInsensitivePrefix cookie.name (ascii "__Host-") then
      cookie.isSecure && hostOnly && explicitRootPath
    else if hasCaseInsensitivePrefix cookie.name (ascii "__Secure-") then cookie.isSecure
    else true

def shouldDowngradeIdenticalIpDomainToHostOnly (p : Platform) (cookie : Cookie) (url : Url) :
    Bool :=
  (match url.host with
    | some (.ipv4 _) => true
    | some (.ipv6 _) => true
    | _ => false) &&
  (match cookie.domain with
    | .suffix _ => true
    | _ => false) &&
  cookie.domain.hostIsIdentical p url

def CookieDomain.isPublicSuffix (domain : CookieDomain) (psl : Text → Bool) : Bool :=
  domain.asCow.any psl

def sameSiteSetRejectionReason (cookie : Cookie) (context : InsertContext) : Option CookieError :=
  if !context.enforceBrowserPolicy || context.source == .cdp ||
      (context.source == .http && context.requestType == .topLevelNavigation) ||
      context.sameSiteContext.forInclusion == .sameSiteStrict ||
      context.sameSiteContext.forInclusion == .sameSiteLax then
    none
  else match cookie.sameSite with
    | some .none => none
    | some .strict => some .sameSiteStrict
    | some .lax => some .sameSiteLax
    | none => some .sameSiteUnspecifiedTreatedAsLax

namespace CookieStore

variable (p : Platform)

variable (store : CookieStore)

/-- A public suffix is kept as a host-only domain where it is the host itself. -/
def checkPublicSuffix (cookie : Cookie) (url : Url) : Except CookieError Cookie :=
  if store.publicSuffixList.any cookie.domain.isPublicSuffix then
    if cookie.domain.hostIsIdentical p url then do
      let domain ← CookieDomain.ofUrl p url
      return { cookie with domain := domain }
    else .error .publicSuffix
  else .ok cookie

def downgradeIpDomain (cookie : Cookie) (url : Url) : Except CookieError Cookie :=
  if shouldDowngradeIdenticalIpDomainToHostOnly p cookie url then do
    let domain ← CookieDomain.ofUrl p url
    return { cookie with domain := domain }
  else .ok cookie

def canonicalizeCookieForStoreChecks (cookie : Cookie) (url : Url) : Except CookieError Cookie := do
  let cookie ← store.checkPublicSuffix p cookie url
  downgradeIpDomain p cookie url

def overlaysSecure (cookie : Cookie) (context : InsertContext) : Bool :=
  context.enforceBrowserPolicy && context.source != .cdp && !cookie.isSecure &&
    !isSecure context.url && store.hasSecureOverlayConflict p cookie

/-- What the context forbids about the cookie before its domain is canonical, in the order of the
checks. -/
def attributeRejections (cookie : Cookie) (context : InsertContext) : List CookieError :=
  (if cookie.isHttpOnly && context.source == .document then [.nonHttpScheme] else []) ++
  (if context.enforceBrowserPolicy && cookie.isSecure && !isSecure context.url then [.secureOnly]
    else []) ++
  (if context.enforceBrowserPolicy && cookie.sameSite == some .none && !cookie.isSecure then
    [.sameSiteNoneRequiresSecure] else []) ++
  (sameSiteSetRejectionReason cookie context).toList ++
  (if context.enforceBrowserPolicy && cookieNameValueTooLarge cookie.name cookie.value then
    [.nameValueTooLarge] else []) ++
  (if cookie.isPartitioned then
    (if context.enforceBrowserPolicy && !cookie.isSecure then [.partitionedRequiresSecure]
    else []) ++ (if cookie.partitionKey.isNone then [.partitionedMissingPartitionKey] else [])
    else [])

/-- What is forbidden about a cookie with its canonical domain. -/
def canonicalRejections (cookie : Cookie) (context : InsertContext) : List CookieError :=
  (if context.enforceBrowserPolicy && !prefixesAreValid cookie then [.prefixViolation] else []) ++
  (if !cookie.domain.matchesUrl p context.url then [.domainMismatch] else []) ++
  (if store.overlaysSecure p cookie context then [.secureOverlay] else [])

def existingRejections (cookie : Cookie) (context : InsertContext) : List CookieError :=
  match cookie.domain.asCow with
  | some _ =>
    if (store.get p (.forCookie cookie)).any fun old =>
        old.isHttpOnly && context.source == .document then [.nonHttpScheme]
    else []
  | none => [.unspecifiedDomain]

def collectPreinsertRejectionReasons (cookie : Cookie) (context : InsertContext) :
    List CookieError :=
  attributeRejections cookie context ++
    match store.canonicalizeCookieForStoreChecks p cookie context.url with
    | .error error => [error]
    | .ok cookie => store.canonicalRejections p cookie context ++
        store.existingRejections p cookie context

/-! ## Storing -/

/-- The first of the rejections is the error. -/
def failFirst : List CookieError → Except CookieError Unit
  | [] => .ok ()
  | error :: _ => .error error

/-- The checks of `insert_with_context_impl`, which repeat those before the insertion. -/
def checkInsert (cookie : Cookie) (context : InsertContext) : Except CookieError Cookie := do
  let cookie ← store.canonicalizeCookieForStoreChecks p cookie context.url
  failFirst (attributeRejections cookie context)
  failFirst (store.canonicalRejections p cookie context)
  return cookie

/-- The counters are kept above those of a restored cookie. -/
def keepOrdering (cookie : Cookie) : CookieStore :=
  { store with
    nextCreationIndex := max store.nextCreationIndex (saturatingSucc cookie.creationIndex)
    nextAccessIndex := max store.nextAccessIndex (saturatingSucc cookie.lastAccessIndex) }

/-- A replacement keeps the creation order and time of the cookie it replaces; a new cookie takes
the place of an expired one. -/
def assignOrdering (cookie : Cookie) (existing : Option Cookie) : Cookie × CookieStore :=
  match existing with
  | some old =>
    let (accessIndex, store) := store.bumpAccessIndex
    (((cookie.setCreationTime old.createdAt).setCreationIndex
      old.creationIndex).touchWithAccessIndex accessIndex, store)
  | none =>
    let store := (store.removeWithPartitionKey (.forCookie cookie)).2
    let (creationIndex, store) := store.bumpCreationIndex
    let (accessIndex, store) := store.bumpAccessIndex
    ((cookie.setCreationIndex creationIndex).touchWithAccessIndex accessIndex, store)

def upsert (store : CookieStore) (cookie : Cookie) : StoreAction × CookieStore :=
  let replaced := (store.getAny (.forCookie cookie)).isSome
  (if replaced then .updatedExisting else .inserted,
    { store with cookies := store.cookies.put cookie }.notify (.upsert cookie))

abbrev InsertResult := Except CookieError (StoreAction × CookieEffectiveSameSite)

def insertLive (cookie : Cookie) (preserveOrdering : Bool) : InsertResult × CookieStore :=
  let existing := store.get p (.forCookie cookie)
  match store.makeRoomForCookie p cookie.domain.text cookie.partitionKey cookie.isSecure
      existing.isSome with
  | (false, store) => (.error .storageFull, store)
  | (true, store) =>
    let (cookie, store) := if preserveOrdering then (cookie, store.keepOrdering cookie)
      else store.assignOrdering cookie existing
    let (action, store) := store.upsert cookie
    (.ok (action, effectiveSameSite p cookie), store)

def expireExisting (old : Cookie) : CookieStore :=
  { store with cookies := store.cookies.put (old.expire p) }.notify (.delete (.forCookie old))

def insertChecked (cookie : Cookie) (context : InsertContext) (preserveOrdering : Bool) :
    InsertResult × CookieStore :=
  match cookie.domain.asCow with
  | none => (.error .unspecifiedDomain, store)
  | some _ =>
    match store.get p (.forCookie cookie) with
    | some old =>
      if old.isHttpOnly && context.source == .document then (.error .nonHttpScheme, store)
      else if cookie.isExpired p then
        (.ok (.expiredExisting, effectiveSameSite p cookie), store.expireExisting p old)
      else store.insertLive p cookie preserveOrdering
    | none =>
      if cookie.isExpired p then (.error .expired, store)
      else store.insertLive p cookie preserveOrdering

def insertWithContextImpl (cookie : Cookie) (context : InsertContext) (preserveOrdering : Bool) :
    InsertResult × CookieStore :=
  match store.checkInsert p cookie context with
  | .error error => (.error error, store)
  | .ok cookie => store.insertChecked p cookie context preserveOrdering

/-- The creation time and the partition of an incoming cookie. -/
def prepare (cookie : Cookie) (context : InsertContext) (preserveOrdering : Bool) : Cookie :=
  let cookie := if preserveOrdering then cookie.restoreCreationTime
    else cookie.initializeCreationTime p
  if cookie.isPartitioned then
    if cookie.partitionKey.isNone then { cookie with partitionKey := context.cookiePartitionKey }
    else cookie
  else { cookie with partitionKey := none }

def warnSecure (cookie : Cookie) (url : Url) (result : CookieSetAccessResult) :
    CookieSetAccessResult :=
  if cookie.isSecure && isTrustworthyNonCryptographic url then
    result.addWarning .secureAccessGrantedNonCryptographic
  else result

def finishSet (result : CookieSetAccessResult) : InsertResult → CookieSetAccessResult
  | .ok (action, sameSite) =>
    { result with status := .accepted action, effectiveSameSite := some sameSite }
  | .error error => result.addRejection error

/-- The result of the checks before the insertion. -/
def reviewSet (cookie : Cookie) (context : InsertContext) (priorResult : CookieSetAccessResult) :
    CookieSetAccessResult :=
  let sameSite := priorResult.effectiveSameSite.getD (effectiveSameSite p cookie)
  (store.collectPreinsertRejectionReasons p cookie context).foldl CookieSetAccessResult.addRejection
    (warnSecure cookie context.url { priorResult with effectiveSameSite := some sameSite })

def setWithOrdering (cookie : Cookie) (context : InsertContext)
    (priorResult : CookieSetAccessResult) (preserveOrdering : Bool) :
    CookieSetAccessResult × CookieStore :=
  if priorResult.status.isAccepted then
    let cookie := prepare p cookie context preserveOrdering
    let result := store.reviewSet p cookie context priorResult
    if result.status.isAccepted then
      let (outcome, store) := store.insertWithContextImpl p cookie context preserveOrdering
      (finishSet result outcome, store)
    else (result, store)
  else (priorResult, store)

end CookieStore

end Moli.Cookies
