import Moli.Lib.Text

/-!
# Cookies

The canonical cookies of `moli-cookie-store` with their domains, paths and expiry times, and the
URLs they are checked against. Text is the list of its UTF-8 bytes, times are nanoseconds since the
Unix epoch, and what the URL and IDNA libraries and the clock answer is a `Platform`.
-/

namespace Moli.Cookies

open Lib.Text (ascii)

abbrev Text := List UInt8

def slash : UInt8 := 47

def dot : UInt8 := 46

def saturatingSucc (n : Nat) : Nat := min (n + 1) (2 ^ 64 - 1)

/-! ## URLs -/

inductive Host where
  | domain (text : Text)
  | ipv4 (addr : BitVec 32)
  | ipv6 (addr : BitVec 128)

structure Url where
  scheme : Text
  host : Option Host
  hostStr : Option Text
  path : Text
  cannotBeABase : Bool

structure Platform where
  now : Int
  canonicalizeHostText : Text → Option Text
  /-- `idna::domain_to_ascii` of the trimmed text. -/
  domainToAscii : Text → Option Text
  isHostName : Text → Bool

def isHttpScheme (url : Url) : Bool :=
  url.scheme ∈ [ascii "http", ascii "https", ascii "ws", ascii "wss"]

def isCryptographic (url : Url) : Bool := url.scheme ∈ [ascii "https", ascii "wss"]

def Host.isTrustworthy : Host → Bool
  | domain text => text == ascii "localhost"
  | ipv4 addr => addr.toNat / 2 ^ 24 == 127
  | ipv6 addr => addr == 1

def isSecure (url : Url) : Bool := isCryptographic url || url.host.any Host.isTrustworthy

def isTrustworthyNonCryptographic (url : Url) : Bool := !isCryptographic url && isSecure url

def canonicalRequestHost (p : Platform) (url : Url) : Option Text :=
  match url.hostStr with
  | some host => p.canonicalizeHostText host
  | none => if url.scheme == ascii "file" then some [] else none

/-! ## Errors -/

/-- `CookieError`, and `CookieSetRejectionReason` with the same constructors. -/
inductive CookieError where
  | nonHttpScheme
  | secureOnly
  | nonRelativeScheme
  | domainMismatch
  | sameSiteNoneRequiresSecure
  | sameSiteStrict
  | sameSiteLax
  | sameSiteUnspecifiedTreatedAsLax
  | prefixViolation
  | secureOverlay
  | nameValueTooLarge
  | partitionedMissingPartitionKey
  | partitionedRequiresSecure
  | storageFull
  | expired
  | parse
  | publicSuffix
  | unspecifiedDomain
deriving DecidableEq

/-! ## Domains -/

inductive CookieDomain where
  | hostOnly (host : Text)
  | suffix (text : Text)
  | notPresent
  | empty
deriving DecidableEq

namespace CookieDomain

def ofUrl (p : Platform) (url : Url) : Except CookieError CookieDomain :=
  match url.hostStr with
  | some host =>
    match p.canonicalizeHostText host with
    | some host => .ok (.hostOnly host)
    | none => .error .parse
  | none => if url.scheme == ascii "file" then .ok (.hostOnly []) else .error .nonRelativeScheme

def endsAtLabel (host text : Text) : Bool :=
  text.isSuffixOf host && (host.drop (host.length - text.length - 1)).head? == some dot

def matchesUrl (p : Platform) (domain : CookieDomain) (url : Url) : Bool :=
  match canonicalRequestHost p url with
  | none => false
  | some urlHost =>
    match domain with
    | hostOnly host => host == urlHost
    | suffix text => text == urlHost || (p.isHostName urlHost && endsAtLabel urlHost text)
    | notPresent => false
    | empty => false

def hostIsIdentical (p : Platform) (domain : CookieDomain) (url : Url) : Bool :=
  match canonicalRequestHost p url with
  | none => false
  | some urlHost =>
    match domain with
    | hostOnly host => host == urlHost
    | suffix text => text == urlHost
    | notPresent => false
    | empty => false

def asCow : CookieDomain → Option Text
  | hostOnly text => some text
  | suffix text => some text
  | notPresent => none
  | empty => none

/-- `String::from`, and `canonical_cookie_domain`. -/
def text : CookieDomain → Text
  | hostOnly text => text
  | suffix text => text
  | notPresent => []
  | empty => []

def ofText (p : Platform) (value : Text) : Option CookieDomain :=
  (p.domainToAscii value).map fun domain =>
    if domain.isEmpty || domain == [dot] then .empty
    else if domain.head? == some dot then .suffix domain.tail else .suffix domain

/-- `cookie_domain::is_match` -/
def textMatches (p : Platform) (domain : Text) (url : Url) : Bool :=
  if domain.isEmpty then canonicalRequestHost p url == some []
  else (ofText p domain).any fun domain => domain.matchesUrl p url

end CookieDomain

/-! ## Paths -/

structure CookiePath where
  text : Text
  isFromPathAttr : Bool
deriving DecidableEq

namespace CookiePath

def matchesUrl (path : CookiePath) (url : Url) : Bool :=
  !url.cannotBeABase && (path.text == url.path ||
    (path.text.isPrefixOf url.path &&
      (path.text.getLast? == some slash || url.path[path.text.length]? == some slash)))

end CookiePath

/-! ## Expiry and creation times -/

inductive CookieExpiration where
  | atUtc (time : Int)
  | sessionEnd
deriving DecidableEq

/-- The nanoseconds of 9999-12-31T23:59:59Z. -/
def maxRfc3339 : Int := 253402300799 * 10 ^ 9

namespace CookieExpiration

def expiresBy : CookieExpiration → Int → Bool
  | atUtc time, now => time ≤ now
  | sessionEnd, _ => false

def ofDuration (p : Platform) (duration : Int) : CookieExpiration :=
  let utc := if duration = 0 then 0 else p.now + min (maxRfc3339 - p.now) duration
  .atUtc (min utc maxRfc3339)

end CookieExpiration

inductive CreationTime where
  | pending
  | unknown
  | known (created : Int)
deriving DecidableEq

/-- A time rounded down to its microsecond, where that fits 64 bits. -/
def normalize (created : Int) : Option Int :=
  if -2 ^ 63 ≤ created / 1000 ∧ created / 1000 < 2 ^ 63 then some (created / 1000 * 1000) else none

/-! ## Cookies -/

inductive SameSite where
  | strict
  | lax
  | none
deriving DecidableEq

inductive CookiePriority where
  | low
  | medium
  | high
deriving DecidableEq

inductive CookieSourceScheme where
  | unset
  | nonSecure
  | secure
deriving DecidableEq

def CookieSourceScheme.ofUrl (url : Url) : CookieSourceScheme :=
  if isCryptographic url then .secure else .nonSecure

inductive CookiePartitionKey where
  | site (topLevelSite : Text) (hasCrossSiteAncestor : Bool)
  | nonce (nonce : Nat) (hasCrossSiteAncestor : Bool)
deriving DecidableEq

structure Cookie where
  name : Text
  value : Text
  secure : Option Bool
  httpOnly : Option Bool
  sameSite : Option SameSite
  partitioned : Option Bool
  path : CookiePath
  domain : CookieDomain
  expires : CookieExpiration
  creationIndex : Nat
  creationTime : CreationTime
  lastAccessIndex : Nat
  priority : Option CookiePriority
  sourceScheme : CookieSourceScheme
  partitionKey : Option CookiePartitionKey
deriving DecidableEq

namespace Cookie

variable (cookie : Cookie)

def isSecure : Bool := cookie.secure.getD false

def isHttpOnly : Bool := cookie.httpOnly.getD false

def isPartitioned : Bool := cookie.partitioned.getD false

def isExpired (p : Platform) (cookie : Cookie) : Bool := cookie.expires.expiresBy p.now

/-- `CookieExpiration::from(0u64)` -/
def expire (p : Platform) (cookie : Cookie) : Cookie :=
  { cookie with expires := .ofDuration p 0 }

def effectivePriority : CookiePriority := cookie.priority.getD .medium

def createdAt : Option Int :=
  match cookie.creationTime with
  | .known created => some created
  | .pending => none
  | .unknown => none

def setCreationTime (creationTime : Option Int) (cookie : Cookie) : Cookie :=
  { cookie with
    creationTime := match creationTime.bind normalize with
      | some created => .known created
      | none => .unknown }

def initializeCreationTime (p : Platform) (cookie : Cookie) : Cookie :=
  if cookie.creationTime = .pending then cookie.setCreationTime (some p.now) else cookie

def restoreCreationTime : Cookie :=
  if cookie.creationTime = .pending then { cookie with creationTime := .unknown } else cookie

def setCreationIndex (creationIndex : Nat) (cookie : Cookie) : Cookie :=
  { cookie with creationIndex := creationIndex }

def touchWithAccessIndex (accessIndex : Nat) (cookie : Cookie) : Cookie :=
  { cookie with lastAccessIndex := accessIndex }

end Cookie

/-! ## Effective SameSite modes -/

inductive CookieEffectiveSameSite where
  | noRestriction
  | lax
  | laxAllowUnsafe
  | strict
deriving DecidableEq

/-- Created at most two minutes ago. -/
def isRecent (creationTime : Option Int) (now : Int) : Bool :=
  match creationTime.bind normalize, normalize now with
  | some created, some now => now - created ≤ 120 * 10 ^ 9
  | _, _ => false

def CookieEffectiveSameSite.forCookie (sameSite : Option SameSite) (creationTime : Option Int)
    (now : Int) : CookieEffectiveSameSite :=
  match sameSite with
  | some .none => .noRestriction
  | some .lax => .lax
  | some .strict => .strict
  | none => if isRecent creationTime now then .laxAllowUnsafe else .lax

def effectiveSameSite (p : Platform) (cookie : Cookie) : CookieEffectiveSameSite :=
  .forCookie cookie.sameSite cookie.createdAt p.now

end Moli.Cookies
