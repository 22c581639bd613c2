import Mathlib.Algebra.Order.Ring.Int
import Mathlib.Data.Finset.Disjoint

/-!
# Shared types of the IndexedDB layer

Names, connection handles and transaction modes, as the coordination structures use them.
-/

namespace Moli.IndexedDb

/-- An IndexedDB name: UTF-16 code units. -/
structure IndexedDbName where
  units : List UInt16
deriving DecidableEq

/-- A connection to a database. -/
structure DatabaseHandle where
  raw : UInt64
deriving DecidableEq

def DatabaseHandle.cmp : DatabaseHandle → DatabaseHandle → Ordering := compareOn DatabaseHandle.raw

instance : Std.TransCmp DatabaseHandle.cmp :=
  inferInstanceAs (Std.TransCmp (compareOn _))

instance : Std.LawfulEqCmp DatabaseHandle.cmp where
  eq_of_compare {a b} h := by
    cases a
    cases b
    exact congrArg DatabaseHandle.mk (Std.LawfulEqCmp.eq_of_compare h)

inductive TransactionMode where
  | readOnly
  | readWrite
  | versionChange
deriving DecidableEq

end Moli.IndexedDb
