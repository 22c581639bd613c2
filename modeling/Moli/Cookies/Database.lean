import Moli.Lib.Endian
import Moli.Cookies.Store
import Moli.Writeback.Owner

/-!
# The cookie database

`moli-cookie-db` records the mutations of the jar as batches of row changes. The `cookies` table is
a map from its primary key to the row.
-/

namespace Moli.Cookies

open Lib Writeback

structure StoredCookie where
  name : Text
  value : Text
  domain : Text
  hostOnly : Bool
  path : Text
  secure : Bool
  httpOnly : Bool
  expires : Option Int
  sameSite : Option SameSite
  priority : Option CookiePriority
  partitionKey : Option CookiePartitionKey
  sourceScheme : CookieSourceScheme
  sourcePort : Int
  creationIndex : Nat
  creationTime : Option Int
  lastAccessIndex : Nat

/-- `StoredCookieIdentity::from`. -/
def StoredCookie.identity (cookie : StoredCookie) : CookieStoreKey :=
  ⟨cookie.domain, cookie.path, cookie.name, cookie.partitionKey⟩

inductive StoredCookieMutation where
  | upsert (cookie : StoredCookie)
  | delete (key : CookieStoreKey)
  | clear

namespace Database

def partitionBytes : Option CookiePartitionKey → List UInt8
  | none => [0]
  | some (.site topLevelSite hasCrossSiteAncestor) =>
    [1, if hasCrossSiteAncestor then 1 else 0] ++ topLevelSite
  | some (.nonce nonce hasCrossSiteAncestor) =>
    [2, if hasCrossSiteAncestor then 1 else 0] ++ BigEndian.beBytes 8 nonce

structure Key where
  partition : List UInt8
  domain : Text
  path : Text
  name : Text
deriving DecidableEq

def Key.ofIdentity (key : CookieStoreKey) : Key :=
  ⟨partitionBytes key.partitionKey, key.domain, key.path, key.name⟩

inductive Change where
  | put (cookie : StoredCookie)
  | delete

structure Batch where
  clear : Bool
  changes : AList fun _ : Key => Change

/-- The rows by primary key. -/
abbrev Rows := Key → Option StoredCookie

namespace Batch

def change : StoredCookieMutation → Batch
  | .upsert cookie => ⟨false, AList.singleton (Key.ofIdentity cookie.identity) (.put cookie)⟩
  | .delete key => ⟨false, AList.singleton (Key.ofIdentity key) .delete⟩
  | .clear => ⟨true, ∅⟩

def applyChange (rows : Rows) (key : Key) : Change → Rows
  | .put cookie => Function.update rows key (some cookie)
  | .delete => Function.update rows key none

def apply (batch : Batch) (rows : Rows) : Rows :=
  batch.changes.entries.foldl (fun rows entry => applyChange rows entry.1 entry.2)
    (if batch.clear then fun _ => none else rows)

def isEmpty (batch : Batch) : Bool := !batch.clear && batch.changes.entries.isEmpty

def merge (older newer : Batch) : Batch :=
  if newer.clear then newer else { older with changes := extend older.changes newer.changes }

instance instWriteBatch : WriteBatch Batch Rows where
  empty := ⟨false, ∅⟩
  isEmpty := isEmpty
  merge := merge
  write := apply

end Batch

end Database

end Moli.Cookies
