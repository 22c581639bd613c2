import Mathlib.Data.List.AList
import Mathlib.Data.List.Lex
import Moli.IndexedDb.KeyCodec
import Moli.IndexedDb.Types

/-!
# Queries and their pages

`query.rs` of the SQLite backend. A query compiles to a selection of rows of an object store or of
one of its indexes, which SQLite filters and sorts; here the conditions of the SQL text are filters
of a list and its `ORDER BY` clause sorts it. What a query reads is one store: that the transaction
is active and the store exists is checked before. How a value is read from its chunks is a
parameter, and a failed memory reservation is not modelled.
-/

namespace Moli.IndexedDb

inductive CursorDirection where
  | next
  | nextUnique
  | prev
  | prevUnique
deriving DecidableEq

namespace CursorDirection

def isReverse : CursorDirection → Bool
  | prev | prevUnique => true
  | next | nextUnique => false

def isUnique : CursorDirection → Bool
  | nextUnique | prevUnique => true
  | next | prev => false

end CursorDirection

structure KeyRange where
  lower : Option Key := none
  upper : Option Key := none
  lowerOpen : Bool := false
  upperOpen : Bool := false

def KeyRange.validate (range : KeyRange) : Except IndexedDbError Unit := do
  for key in range.lower.toList ++ range.upper.toList do
    key.validateDepth.mapError .data
  match range.lower, range.upper with
  | some lower, some upper =>
    if lower.cmp upper == .gt || (lower.eq upper && (range.lowerOpen || range.upperOpen)) then
      throw (.data "invalid IndexedDB key range")
  | _, _ => return

/-! ## Tables -/

abbrev Blob := List UInt8

/-- Blobs are ordered as sequences of unsigned bytes. -/
def Blob.order (blob : Blob) : List Nat := blob.map UInt8.toNat

/-- A row of `records`. -/
structure Record where
  recordId : Int
  keySort : Blob
  keyValue : Blob
  wireSize : Int
  usage : Int

/-- A row of `index_entries`. -/
structure IndexEntry where
  indexKeySort : Blob
  indexKeyValue : Blob
  primaryKeySort : Blob
  recordId : Int
  isUnique : Bool

/-- A row of `indexes`, with its entries. -/
structure Index where
  isUnique : Bool
  entries : List IndexEntry

structure ObjectStore where
  records : List Record
  indexes : AList fun _ : IndexedDbName => Index

/-! ## Queries -/

inductive QuerySource where
  | objectStore
  | index (name : IndexedDbName)

structure Seek where
  key : Key
  primaryKey : Option Key
  inclusive : Bool

structure Query where
  source : QuerySource := .objectStore
  range : KeyRange := {}
  direction : CursorDirection := .next
  seek : Option Seek := none
  skip : Nat := 0
  limit : Nat := 1
  keysOnly : Bool := false
  blobReferences : Bool := false

structure RecordSnapshot (ν : Type) where
  key : Key
  primaryKey : Key
  value : Option ν

structure RecordPage (ν : Type) where
  records : List (RecordSnapshot ν)
  hasMore : Bool

inductive QueryError where
  | failed (error : IndexedDbError)
  | indexNotFound (name : IndexedDbName)

def corrupt (message : String) : QueryError := .failed (.corruption message)

def pageRecords : Nat := 1000

def pageBytes : Nat := 1024 * 1024

/-! ## Selections -/

/-- What a selection reads: the columns it compares and those it delivers, the latter from the
joined record. -/
structure Row where
  keySort : Blob
  primarySort : Blob
  keyValue : Blob
  isUnique : Bool
  record : Option Record

structure Selection where
  rows : List Row
  /-- The entries that the subquery of a unique direction looks at. -/
  entries : List IndexEntry
  /-- The selection has a column for the primary key. -/
  primary : Bool
  indexUnique : Option Bool

inductive Comparison where
  | gt
  | ge
  | lt
  | le

def Comparison.holds {κ : Type} [LinearOrder κ] : Comparison → κ → κ → Bool
  | gt, a, b => b < a
  | ge, a, b => b ≤ a
  | lt, a, b => a < b
  | le, a, b => a ≤ b

namespace Selection

def filter (selection : Selection) (condition : Row → Bool) : Selection :=
  { selection with rows := selection.rows.filter condition }

variable (selection : Selection)

def bound (key : Option Key) (comparison : Comparison) : Except IndexedDbError Selection :=
  match key with
  | none => .ok selection
  | some key => do
    let sort ← key.encodeOrdered
    return selection.filter fun row => comparison.holds (Blob.order row.keySort) (Blob.order sort)

def range (selection : Selection) (range : KeyRange) : Except IndexedDbError Selection := do
  range.validate
  let selection ← selection.bound range.lower (if range.lowerOpen then .gt else .ge)
  selection.bound range.upper (if range.upperOpen then .lt else .le)

def seekComparison (direction : CursorDirection) (inclusive : Bool) : Comparison :=
  match direction.isReverse, inclusive with
  | false, false => .gt
  | false, true => .ge
  | true, false => .lt
  | true, true => .le

def seek (selection : Selection) (seek : Seek) (direction : CursorDirection) :
    Except IndexedDbError Selection :=
  let comparison := seekComparison direction seek.inclusive
  if !selection.primary && seek.primaryKey.any (fun primary => !primary.eq seek.key) then
    .error (.data "object-store seek keys must agree")
  else
    match (if selection.primary && !direction.isUnique then seek.primaryKey else none) with
    | some primaryKey => do
      let sort ← seek.key.encodeOrdered
      let primarySort ← primaryKey.encodeOrdered
      return selection.filter fun row => comparison.holds
        [Blob.order row.keySort, Blob.order row.primarySort]
        [Blob.order sort, Blob.order primarySort]
    | none => selection.bound (some seek.key) comparison

/-- The primary key is the least one that the index has under the key. -/
def isLeast (entries : List IndexEntry) (row : Row) : Bool :=
  entries.all fun entry => entry.indexKeySort ≠ row.keySort ||
    decide (Blob.order row.primarySort ≤ Blob.order entry.primaryKeySort)

/-- The columns of the `ORDER BY` clause. -/
def orderColumns (direction : CursorDirection) (row : Row) : List (List Nat) :=
  if selection.primary && !direction.isUnique then
    [Blob.order row.keySort, Blob.order row.primarySort]
  else [Blob.order row.keySort]

def notAfter (direction : CursorDirection) (a b : Row) : Bool :=
  if direction.isReverse then
    decide (selection.orderColumns direction b ≤ selection.orderColumns direction a)
  else decide (selection.orderColumns direction a ≤ selection.orderColumns direction b)

def order (direction : CursorDirection) : List Row :=
  selection.rows.mergeSort (selection.notAfter direction)

end Selection

def recordRow (record : Record) : Row where
  keySort := record.keySort
  primarySort := record.keySort
  keyValue := record.keyValue
  isUnique := false
  record := some record

def entryRow (records : List Record) (entry : IndexEntry) : Row where
  keySort := entry.indexKeySort
  primarySort := entry.primaryKeySort
  keyValue := entry.indexKeyValue
  isUnique := entry.isUnique
  record := records.find? fun record =>
    record.recordId = entry.recordId ∧ record.keySort = entry.primaryKeySort

def selection (store : ObjectStore) : QuerySource → Except QueryError Selection
  | .objectStore => .ok
      { rows := store.records.map recordRow, entries := [], primary := false, indexUnique := none }
  | .index name =>
    match store.indexes.lookup name with
    | none => .error (.indexNotFound name)
    | some index => .ok
        { rows := index.entries.map (entryRow store.records), entries := index.entries,
          primary := true, indexUnique := some index.isUnique }

/-- The selection of a query with all its conditions, before it is ordered and limited. -/
def compileQuery (store : ObjectStore) (query : Query) : Except QueryError Selection := do
  let selection ← selection store query.source
  let selection ← (selection.range query.range).mapError .failed
  let selection ← match query.seek with
    | none => pure selection
    | some seek => (selection.seek seek query.direction).mapError .failed
  if query.direction.isUnique && selection.primary then
    return selection.filter (Selection.isLeast selection.entries)
  return selection

/-! ## Reading rows -/

section

variable {ν : Type}

/-- How values are stored: reading one (the record, its size, whether blobs stay references), and
how many of its bytes are not loaded. -/
structure Values (ν : Type) where
  readValue : Int → Nat → Bool → Except IndexedDbError ν
  deferred : ν → Nat

variable (values : Values ν)

def saturatingAdd (a b : Nat) : Nat := min (a + b) (2 ^ 64 - 1)

def rowPayload (query : Query) (row : Row) (record : Record) : Except QueryError Nat :=
  if query.keysOnly then .ok (saturatingAdd row.keyValue.length record.keyValue.length)
  else if record.usage < 0 then .error (corrupt "negative record usage")
  else .ok record.usage.toNat

/-- Without pages sizes are not read. -/
def pagePayload (query : Query) (paged : Bool) (row : Row) (record : Record) :
    Except QueryError Nat :=
  if paged then rowPayload query row record else .ok 0

/-- The record that a row delivers and by how much it counts for its page: bytes that are not loaded
do not. -/
def deliver (query : Query) (row : Row) (record : Record) (payload : Nat) :
    Except QueryError (RecordSnapshot ν × Nat) := do
  let key ← (Key.decodeValue row.keyValue).mapError .failed
  let primaryKey ← (Key.decodeValue record.keyValue).mapError .failed
  if query.keysOnly then
    return (⟨key, primaryKey, none⟩, payload)
  if record.wireSize < 0 then
    throw (corrupt "negative wire byte length")
  let value ← (values.readValue record.recordId record.wireSize.toNat query.blobReferences).mapError
    .failed
  return (⟨key, primaryKey, some value⟩, payload - values.deferred value)

def readRow (query : Query) (paged : Bool) (indexUnique : Option Bool) (row : Row) :
    Except QueryError (RecordSnapshot ν × Nat) :=
  if indexUnique.any fun unique => row.isUnique ≠ unique then
    .error (corrupt "index entry uniqueness differs from its definition")
  else
    match row.record.filter fun record => 0 < record.recordId with
    | none => .error (corrupt "index entry has no matching record")
    | some record => do
      let payload ← pagePayload query paged row record
      deliver values query row record payload

/-- The loop over the rows, with what was delivered so far and its size. -/
def readRows (query : Query) (paged : Bool) (limit : Nat) (indexUnique : Option Bool) :
    List Row → List (RecordSnapshot ν) → Nat → Except QueryError (RecordPage ν)
  | [], output, _ => .ok ⟨output, false⟩
  | row :: rows, output, bytes =>
    if output.length = limit || (paged && pageBytes ≤ bytes) then
      .ok ⟨output, output.length < query.limit⟩
    else do
      let (snapshot, payload) ← readRow values query paged indexUnique row
      readRows query paged limit indexUnique rows (output ++ [snapshot])
        (saturatingAdd bytes payload)

def readQuery (store : ObjectStore) (query : Query) (paged : Bool) :
    Except QueryError (RecordPage ν) := do
  let selection ← compileQuery store query
  let limit := if paged then min query.limit pageRecords else query.limit
  if limit = 0 then
    return ⟨[], false⟩
  let rows :=
    ((selection.order query.direction).drop query.skip).take (if paged then limit + 1 else limit)
  readRows values query paged limit selection.indexUnique rows [] 0

def query (store : ObjectStore) (query : Query) : Except QueryError (List (RecordSnapshot ν)) := do
  let page ← readQuery values store query false
  return page.records

def queryPage (store : ObjectStore) (query : Query) : Except QueryError (RecordPage ν) :=
  readQuery values store query true

/-! ## Following the pages -/

/-- The query for what a page leaves: past its last record, with the rest of the limit. -/
def Query.after (query : Query) (page : RecordPage ν) : Query :=
  match page.records.getLast? with
  | none => query
  | some last =>
    { query with
      seek := some ⟨last.key, some last.primaryKey, false⟩
      skip := 0
      limit := query.limit - page.records.length }

/-- Calls for pages until there are no more; `none` if the calls do not suffice. -/
def queryPages (store : ObjectStore) :
    (calls : Nat) → Query → Option (Except QueryError (List (RecordSnapshot ν)))
  | 0, _ => none
  | calls + 1, query =>
    match queryPage values store query with
    | .error error => some (.error error)
    | .ok page =>
      if page.hasMore then
        (queryPages store calls (query.after page)).map fun rest => rest.map (page.records ++ ·)
      else some (.ok page.records)

end

end Moli.IndexedDb
