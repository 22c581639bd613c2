import Mathlib.Data.List.MinMax
import Mathlib.Data.Prod.Lex
import Moli.Lib.Loops
import Moli.Cookies.CookieMap

/-!
# The cookie store

The store holds the cookies, the counters that order them, its limits, and the observer with the
mutations it has received so far. Expired cookies may stay in the map; they do not count.
-/

namespace Moli.Cookies

open Lib

structure CookieStoreLimits where
  perDomainCookies : Nat
  totalCookies : Nat

inductive CookieStoreMutation where
  | upsert (cookie : Cookie)
  | delete (key : CookieStoreKey)
  | clear
deriving DecidableEq

structure CookieStore where
  cookies : CookieMap
  nextCreationIndex : Nat
  nextAccessIndex : Nat
  limits : CookieStoreLimits
  observer : Option (List CookieStoreMutation)
  publicSuffixList : Option (Text → Bool)

namespace CookieStore

variable (p : Platform)

def notify (store : CookieStore) (mutation : CookieStoreMutation) : CookieStore :=
  { store with observer := store.observer.map (· ++ [mutation]) }

def clear (store : CookieStore) : CookieStore :=
  if store.cookies.domains.entries.isEmpty then store
  else { store with cookies := .empty }.notify .clear

def iterAny (store : CookieStore) : List Cookie := store.cookies.iterAny

variable (store : CookieStore)

def iterUnexpired : List Cookie :=
  store.iterAny.filter fun cookie => !cookie.isExpired p

def getAny (key : CookieStoreKey) : Option Cookie := store.cookies.find key

def get (key : CookieStoreKey) : Option Cookie :=
  (store.getAny key).filter fun cookie => !cookie.isExpired p

def bumpCreationIndex : Nat × CookieStore :=
  (store.nextCreationIndex,
    { store with nextCreationIndex := saturatingSucc store.nextCreationIndex })

def bumpAccessIndex : Nat × CookieStore :=
  (store.nextAccessIndex, { store with nextAccessIndex := saturatingSucc store.nextAccessIndex })

def setLimits (limits : CookieStoreLimits) (store : CookieStore) : CookieStore :=
  { store with limits := limits }

def removeWithPartitionKey (key : CookieStoreKey) : Option Cookie × CookieStore :=
  let removed := store.getAny key
  let store := { store with cookies := store.cookies.remove key }
  match removed with
  | some cookie => (removed, store.notify (.delete (.forCookie cookie)))
  | none => (none, store)

/-! ## Secure cookies -/

def domainsOverlap (left right : Text) : Bool :=
  left == right || (dot :: right).isSuffixOf left || (dot :: left).isSuffixOf right

def pathOverlap (left right : Text) : Bool :=
  left == right || (right.isPrefixOf left &&
    (right.getLast? == some slash || left[right.length]? == some slash))

def hasSecureOverlayConflict (cookie : Cookie) : Bool :=
  (store.iterUnexpired p).any fun existing =>
    existing.name == cookie.name && existing.partitionKey == cookie.partitionKey &&
      existing.isSecure && domainsOverlap cookie.domain.text existing.domain.text &&
      pathOverlap cookie.path.text existing.path.text

/-! ## Quotas -/

def accessOrder (cookie : Cookie) : ℕ ×ₗ ℕ := toLex (cookie.lastAccessIndex, cookie.creationIndex)

def oldestAccessedCookieKey (domain : Option Text) (partitionKey : Option CookiePartitionKey)
    (secure : Bool) (priority : CookiePriority) : Option CookieStoreKey :=
  (((store.iterUnexpired p).filter fun cookie =>
    cookie.partitionKey == partitionKey && cookie.isSecure == secure &&
      cookie.effectivePriority == priority && domain.all (cookie.domain.text == ·)).argmin
        accessOrder).map .forCookie

def evictOneOf (domain : Option Text) (partitionKey : Option CookiePartitionKey) (secure : Bool) :
    Option CookieStore :=
  ([CookiePriority.low, .medium, .high].findSome?
    (store.oldestAccessedCookieKey p domain partitionKey secure)).map fun key =>
      (store.removeWithPartitionKey key).2

def evictOneCookie (domain : Option Text) (partitionKey : Option CookiePartitionKey)
    (incomingSecureCookie : Bool) (store : CookieStore) : Option CookieStore :=
  match store.evictOneOf p domain partitionKey false with
  | some store => some store
  | none => if incomingSecureCookie then store.evictOneOf p domain partitionKey true else none

def countUnpartitioned : Nat :=
  (store.iterUnexpired p).countP (·.partitionKey == none)

def countBucket (domain : Text) (partitionKey : Option CookiePartitionKey) (store : CookieStore) :
    Nat :=
  (store.iterUnexpired p).countP fun existing =>
    existing.partitionKey == partitionKey && existing.domain.text == domain

def hasTotalRoom (partitionKey : Option CookiePartitionKey) (replacingExisting : Bool)
    (store : CookieStore) : Bool :=
  partitionKey.isSome ||
    store.countUnpartitioned p - replacingExisting.toNat < store.limits.totalCookies

def hasBucketRoom (domain : Text) (partitionKey : Option CookiePartitionKey)
    (replacingExisting : Bool) (store : CookieStore) : Bool :=
  store.countBucket p domain partitionKey - replacingExisting.toNat < store.limits.perDomainCookies

/-- Each loop evicts an unexpired cookie per round, so their number bounds the rounds. -/
def makeRoomForCookie (domain : Text) (partitionKey : Option CookiePartitionKey)
    (incomingSecureCookie replacingExisting : Bool) : Bool × CookieStore :=
  match evictUntil (hasTotalRoom p partitionKey replacingExisting)
      (evictOneCookie p none none incomingSecureCookie) (store.iterUnexpired p).length store with
  | (false, store) => (false, store)
  | (true, store) =>
    evictUntil (hasBucketRoom p domain partitionKey replacingExisting)
      (evictOneCookie p (some domain) partitionKey incomingSecureCookie)
      (store.iterUnexpired p).length store

end CookieStore

end Moli.Cookies
