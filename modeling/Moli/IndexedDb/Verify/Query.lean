import Moli.IndexedDb.Query
import Moli.IndexedDb.Verify.KeyRoundTrip
import Moli.Lib.Ensures
import Moli.Lib.Keyset

/-!
# Pages lose and repeat nothing

The rows of a query are those of its source and range, each condition of a seek removed and then put
back: `compileQuery_eq`. No two of them agree in the columns they are ordered by
(`selects_baseQuery`), and an exclusive seek to a delivered record is the condition to come after
its row (`seekCondition_after`), so the query for the next page selects the rest
(`compileQuery_after`). With what one page delivers (`readRows_spec`) this gives `query_pages`.
-/

namespace Moli.IndexedDb

open Lib Selection

variable {ν : Type} {store : ObjectStore} {q : Query} {sel base : Selection} {row : Row}
  {direction : CursorDirection}

/-! ## The order of the rows -/

variable {last : Row} {record : Record} {name : IndexedDbName} {index : Index}

namespace Selection

theorem notAfter_trans (sel : Selection) (direction : CursorDirection) (a b c : Row)
    (hab : sel.notAfter direction a b = true) (hbc : sel.notAfter direction b c = true) :
    sel.notAfter direction a c = true := by
  unfold notAfter at *
  cases hreverse : direction.isReverse with
  | true =>
    simp only [hreverse, if_true, decide_eq_true_eq] at *
    exact le_trans hbc hab
  | false =>
    simp only [hreverse, Bool.false_eq_true, if_false, decide_eq_true_eq] at *
    exact le_trans hab hbc

theorem notAfter_total (sel : Selection) (direction : CursorDirection) (a b : Row) :
    (sel.notAfter direction a b || sel.notAfter direction b a) = true := by
  unfold notAfter
  cases hreverse : direction.isReverse with
  | true | false => simpa using le_total _ _

/-- Rows that come neither before nor after each other agree in the columns. -/
theorem orderColumns_eq {a b : Row} (hab : sel.notAfter direction a b = true)
    (hba : sel.notAfter direction b a = true) :
    sel.orderColumns direction a = sel.orderColumns direction b := by
  unfold notAfter at *
  cases hreverse : direction.isReverse with
  | true =>
    simp only [hreverse, if_true, decide_eq_true_eq] at *
    exact le_antisymm hba hab
  | false =>
    simp only [hreverse, Bool.false_eq_true, if_false, decide_eq_true_eq] at *
    exact le_antisymm hab hba

theorem after_iff :
    Keyset.after (sel.notAfter direction) last row = true ↔
      if direction.isReverse then sel.orderColumns direction row < sel.orderColumns direction last
      else sel.orderColumns direction last < sel.orderColumns direction row := by
  unfold Keyset.after notAfter
  cases direction.isReverse with
  | true => simp
  | false => simp

theorem orderColumns_tuple (h : (sel.primary && !direction.isUnique) = true) :
    sel.orderColumns direction row = [Blob.order row.keySort, Blob.order row.primarySort] :=
      if_pos h

theorem orderColumns_key (h : (sel.primary && !direction.isUnique) = false) :
    sel.orderColumns direction row = [Blob.order row.keySort] := if_neg (by simp [h])

/-- The key is the first column. -/
theorem key_le_of_lt {a b : Row} (h : sel.orderColumns direction a < sel.orderColumns direction b) :
    Blob.order a.keySort ≤ Blob.order b.keySort := by
  cases htuple : sel.primary && !direction.isUnique with
  | true =>
    rw [orderColumns_tuple htuple, orderColumns_tuple htuple, List.cons_lt_cons_iff] at h
    exact h.elim le_of_lt fun heq => le_of_eq heq.1
  | false =>
    rw [orderColumns_key htuple, orderColumns_key htuple, List.cons_lt_cons_iff] at h
    exact h.elim le_of_lt fun heq => le_of_eq heq.1

end Selection

/-! ## Seeks as conditions -/

/-- The condition that a seek adds. -/
def seekCondition (primary : Bool) (seek : Seek) (direction : CursorDirection) :
    Except IndexedDbError (Row → Bool) :=
  let comparison := seekComparison direction seek.inclusive
  if !primary && seek.primaryKey.any (fun primaryKey => !primaryKey.eq seek.key) then
    .error (.data "object-store seek keys must agree")
  else
    match (if primary && !direction.isUnique then seek.primaryKey else none) with
    | some primaryKey => do
      let sort ← seek.key.encodeOrdered
      let primarySort ← primaryKey.encodeOrdered
      return fun row => comparison.holds [Blob.order row.keySort, Blob.order row.primarySort]
        [Blob.order sort, Blob.order primarySort]
    | none => do
      let sort ← seek.key.encodeOrdered
      return fun row => comparison.holds (Blob.order row.keySort) (Blob.order sort)

theorem seek_eq (sel : Selection) (seek : Seek) (direction : CursorDirection) :
    sel.seek seek direction = (seekCondition sel.primary seek direction).map sel.filter := by
  unfold Selection.seek seekCondition
  generalize (if (sel.primary && !direction.isUnique) = true then seek.primaryKey else none) = mode
  split
  · rfl
  · cases mode with
    | none =>
      simp only [bound]
      cases seek.key.encodeOrdered with
      | error | ok => rfl
    | some primaryKey =>
      simp only [bind]
      cases seek.key.encodeOrdered with
      | error e => rfl
      | ok sort =>
        cases primaryKey.encodeOrdered with
        | error | ok => rfl

theorem holds_mono {κ : Type} [LinearOrder κ] {inclusive : Bool} {a b bound : κ}
    (h : (seekComparison direction inclusive).holds a bound = true)
    (hab : if direction.isReverse then b ≤ a else a ≤ b) :
    (seekComparison direction inclusive).holds b bound = true := by
  unfold seekComparison Comparison.holds at *
  cases hreverse : direction.isReverse with
  | true =>
    simp only [hreverse] at h hab
    cases inclusive with
    | true => simpa using hab.trans (by simpa using h)
    | false => simpa using hab.trans_lt (by simpa using h)
  | false =>
    simp only [hreverse] at h hab
    cases inclusive with
    | true => simpa using le_trans (by simpa using h) hab
    | false => simpa using lt_of_lt_of_le (by simpa using h) hab

theorem holds_exclusive {κ : Type} [LinearOrder κ] {a b : κ} :
    (seekComparison direction false).holds a b = true ↔
      if direction.isReverse then a < b else b < a := by
  unfold seekComparison Comparison.holds
  cases direction.isReverse with
  | true => simp
  | false => simp

/-- A seek compares both columns or the key alone. -/
theorem seekCondition_cases {primary : Bool} {seek : Seek} {p : Row → Bool}
    (h : seekCondition primary seek direction = .ok p) :
    ((primary && !direction.isUnique) = true ∧ ∃ bound, p = fun row =>
      (seekComparison direction seek.inclusive).holds
        [Blob.order row.keySort, Blob.order row.primarySort] bound) ∨
    ∃ bound, p = fun row =>
      (seekComparison direction seek.inclusive).holds (Blob.order row.keySort) bound := by
  unfold seekCondition at h
  generalize hmode : (if (primary && !direction.isUnique) = true then seek.primaryKey else none) =
    mode at h
  split at h
  · cases h
  · cases mode with
    | none =>
      obtain ⟨sort, -, h⟩ := bind_eq_ok.1 h
      cases h
      exact .inr ⟨Blob.order sort, rfl⟩
    | some primaryKey =>
      have htuple : (primary && !direction.isUnique) = true := by
        by_contra hkey
        rw [if_neg hkey] at hmode
        cases hmode
      obtain ⟨sort, -, h⟩ := bind_eq_ok.1 h
      obtain ⟨primarySort, -, h⟩ := bind_eq_ok.1 h
      cases h
      exact .inl ⟨htuple, [Blob.order sort, Blob.order primarySort], rfl⟩

/-- What comes after a row that a seek keeps is kept as well. -/
theorem seekCondition_mono {seek : Seek} {p : Row → Bool}
    (h : seekCondition sel.primary seek direction = .ok p) (hlast : p last = true)
    (hafter : Keyset.after (sel.notAfter direction) last row = true) : p row = true := by
  rw [after_iff] at hafter
  rcases seekCondition_cases h with ⟨htuple, bound, rfl⟩ | ⟨bound, rfl⟩
  · refine holds_mono hlast ?_
    rw [← orderColumns_tuple htuple, ← orderColumns_tuple htuple]
    split at hafter
    next hreverse => simpa [hreverse] using hafter.le
    next hreverse => simpa [hreverse] using hafter.le
  · refine holds_mono hlast ?_
    split at hafter
    next hreverse => simpa [hreverse] using key_le_of_lt hafter
    next hreverse => simpa [hreverse] using key_le_of_lt hafter

/-- The seek past a row is the condition to come after it. -/
theorem seekCondition_after {key primaryKey : Key} (hkey : key.encodeOrdered = .ok last.keySort)
    (hprimary : primaryKey.encodeOrdered = .ok last.primarySort)
    (hagree : sel.primary = false → primaryKey.eq key = true) :
    seekCondition sel.primary ⟨key, some primaryKey, false⟩ direction =
      .ok (Keyset.after (sel.notAfter direction) last) := by
  have hfine : (!sel.primary && (some primaryKey).any fun primaryKey => !primaryKey.eq key) =
      false := by
    cases hsel : sel.primary with
    | true => rfl
    | false => simp [hagree hsel]
  unfold seekCondition
  rw [if_neg (Bool.eq_false_iff.1 hfine)]
  cases htuple : sel.primary && !direction.isUnique with
  | true =>
    simp only [if_true, hkey, hprimary, bind, Except.bind]
    congr 1
    funext row
    rw [Bool.eq_iff_iff, holds_exclusive, after_iff, orderColumns_tuple htuple,
      orderColumns_tuple htuple]
  | false =>
    simp only [Bool.false_eq_true, if_false, hkey, bind, Except.bind]
    congr 1
    funext row
    rw [Bool.eq_iff_iff, holds_exclusive, after_iff, orderColumns_key htuple,
      orderColumns_key htuple]
    simp [List.cons_lt_cons_iff]

/-! ## A query without its seek -/

/-- The selection of a query before its seek. -/
def baseQuery (store : ObjectStore) (query : Query) : Except QueryError Selection := do
  let selection ← selection store query.source
  let selection ← (selection.range query.range).mapError .failed
  if query.direction.isUnique && selection.primary then
    return selection.filter (isLeast selection.entries)
  return selection

/-- The condition of the seek of a query, if there is one. -/
def Query.condition (query : Query) (primary : Bool) : Except QueryError (Row → Bool) :=
  match query.seek with
  | none => .ok fun _ => true
  | some seek => (seekCondition primary seek query.direction).mapError .failed

theorem filter_filter_comm (sel : Selection) (p p' : Row → Bool) :
    (sel.filter p).filter p' = (sel.filter p').filter p := by
  unfold filter
  simp only [List.filter_filter, Bool.and_comm]

theorem compileQuery_eq (store : ObjectStore) (query : Query) :
    compileQuery store query = do
      let base ← baseQuery store query
      let p ← query.condition base.primary
      return base.filter p := by
  unfold compileQuery baseQuery Query.condition
  cases selection store query.source with
  | error e => rfl
  | ok sel₀ =>
    simp only [bind, Except.bind]
    cases (sel₀.range query.range).mapError QueryError.failed with
    | error e => rfl
    | ok sel =>
      cases query.seek with
      | none =>
        cases hleast : query.direction.isUnique && sel.primary with
        | true | false => simp [pure, Except.pure, filter, hleast]
      | some seek =>
        simp only [seek_eq]
        cases hleast : query.direction.isUnique && sel.primary with
        | true =>
          cases hseek : seekCondition sel.primary seek query.direction with
          | error e => simp [hseek, Except.map, Except.mapError, pure, Except.pure, filter]
          | ok p =>
            have hsame : (query.direction.isUnique && (sel.filter p).primary) = true := hleast
            simp only [Except.map, Except.mapError, hsame, if_true, pure, Except.pure]
            rw [show seekCondition (sel.filter (isLeast sel.entries)).primary seek query.direction =
              .ok p from hseek]
            simp only [filter_filter_comm]
            rfl
        | false =>
          cases hseek : seekCondition sel.primary seek query.direction with
          | error e => simp [hseek, Except.map, Except.mapError, pure, Except.pure]
          | ok p =>
            have hsame : (query.direction.isUnique && (sel.filter p).primary) = false := hleast
            simp [Except.map, Except.mapError, hsame, pure, Except.pure, hseek]

/-! ## Well-formed stores -/

/-- The rows are distinct, keys are sorted by their own bytes, and sizes are not negative. -/
structure ObjectStore.WellFormed (store : ObjectStore) : Prop where
  records_distinct : store.records.Pairwise fun a b => a.keySort ≠ b.keySort
  record_sort : ∀ record ∈ store.records, ∀ key, Key.decodeValue record.keyValue = .ok key →
    key.encodeOrdered = .ok record.keySort
  usage_nonneg : ∀ record ∈ store.records, 0 ≤ record.usage
  entries_distinct : ∀ name index, store.indexes.lookup name = some index →
    index.entries.Pairwise fun a b => a.indexKeySort ≠ b.indexKeySort ∨
      a.primaryKeySort ≠ b.primaryKeySort
  entry_sort : ∀ name index, store.indexes.lookup name = some index →
    ∀ entry ∈ index.entries, ∀ key,
    Key.decodeValue entry.indexKeyValue = .ok key → key.encodeOrdered = .ok entry.indexKeySort

/-- What a row of a selection of a well-formed store delivers is what it is sorted by. -/
structure RowSorted (primary : Bool) (row : Row) : Prop where
  key : ∀ key, Key.decodeValue row.keyValue = .ok key → key.encodeOrdered = .ok row.keySort
  record : ∀ record, row.record = some record → 0 ≤ record.usage ∧
    ∀ key, Key.decodeValue record.keyValue = .ok key → key.encodeOrdered = .ok row.primarySort
  own : primary = false → ∀ record, row.record = some record → record.keyValue = row.keyValue

/-- The selection of a query keeps rows of its source, and all that follow for the direction. -/
structure Selects (direction : CursorDirection) (sel : Selection) : Prop where
  sorted : ∀ row ∈ sel.rows, RowSorted sel.primary row
  distinct : Keyset.Distinct (sel.notAfter direction) sel.rows

theorem Blob.order_injective : Function.Injective Blob.order :=
  List.map_injective_iff.2 fun _ _ h => UInt8.toNat_inj.1 h

theorem rowSorted_recordRow (h : store.WellFormed) (hrecord : record ∈ store.records) :
    RowSorted false (recordRow record) where
  key := h.record_sort record hrecord
  record record' heq := by
    obtain rfl := Option.some.inj heq
    exact ⟨h.usage_nonneg record hrecord, h.record_sort record hrecord⟩
  own _ record' heq := by
    obtain rfl := Option.some.inj heq
    rfl

theorem rowSorted_entryRow (h : store.WellFormed) (hindex : store.indexes.lookup name = some index)
    {entry : IndexEntry} (hentry : entry ∈ index.entries) :
    RowSorted true (entryRow store.records entry) where
  key := h.entry_sort name index hindex entry hentry
  record record hfind := by
    have hmem : record ∈ store.records := List.mem_of_find?_eq_some hfind
    have hjoin := List.find?_some hfind
    simp only [decide_eq_true_eq] at hjoin
    refine ⟨h.usage_nonneg record hmem, fun key hkey => ?_⟩
    rw [h.record_sort record hmem key hkey, hjoin.2]
    rfl
  own hprimary := by cases hprimary

/-- A filter keeps what holds of a selection. -/
theorem Selects.filter (h : Selects direction sel) (p : Row → Bool) :
    Selects direction (sel.filter p) where
  sorted row hrow := h.sorted row (List.mem_of_mem_filter hrow)
  distinct := List.Pairwise.filter p h.distinct

theorem bound_eq {key : Option Key} {comparison : Comparison} {sel' : Selection}
    (h : sel.bound key comparison = .ok sel') : ∃ p, sel' = sel.filter p := by
  cases key with
  | none =>
    cases h
    exact ⟨fun _ => true, by simp [filter]⟩
  | some key =>
    obtain ⟨sort, -, h⟩ := bind_eq_ok.1 h
    cases h
    exact ⟨_, rfl⟩

theorem range_eq {range : KeyRange} {sel' : Selection} (h : sel.range range = .ok sel') :
    ∃ p, sel' = sel.filter p := by
  obtain ⟨-, -, h⟩ := bind_eq_ok.1 h
  obtain ⟨sel₁, hlower, h⟩ := bind_eq_ok.1 h
  obtain ⟨p, rfl⟩ := bound_eq hlower
  obtain ⟨p', rfl⟩ := bound_eq h
  exact ⟨fun row => p' row && p row, by simp [filter]⟩

/-! ## The rows of a query are distinct -/

theorem selects_objectStore (h : store.WellFormed) (direction : CursorDirection) :
    Selects direction
      { rows := store.records.map recordRow, entries := [], primary := false,
        indexUnique := none } where
  sorted row hrow := by
    obtain ⟨record, hrecord, rfl⟩ := List.mem_map.1 hrow
    exact rowSorted_recordRow h hrecord
  distinct := by
    refine List.pairwise_map.2 (h.records_distinct.imp fun hne hboth => hne ?_)
    have hcolumns := orderColumns_eq hboth.1 hboth.2
    exact Blob.order_injective (List.cons.inj hcolumns).1

/-- The rows of an index. -/
def indexSelection (records : List Record) (index : Index) : Selection where
  rows := index.entries.map (entryRow records)
  entries := index.entries
  primary := true
  indexUnique := some index.isUnique

theorem least_le {records : List Record} {a b : Row} (ha : isLeast index.entries a = true)
    (hb : b ∈ (indexSelection records index).rows) (hkey : b.keySort = a.keySort) :
    Blob.order a.primarySort ≤ Blob.order b.primarySort := by
  obtain ⟨entry, hentry, rfl⟩ := List.mem_map.1 hb
  have hleast := List.all_eq_true.1 ha entry hentry
  have hsame : entry.indexKeySort = a.keySort := hkey
  change Blob.order a.primarySort ≤ Blob.order entry.primaryKeySort
  simpa [hsame] using hleast

/-- In an index the rows that a direction leaves are distinct: it orders by both columns, or keeps
the least primary key of each key. -/
theorem selects_index (h : store.WellFormed) (hindex : store.indexes.lookup name = some index)
    (direction : CursorDirection) (p : Row → Bool)
    (hp : direction.isUnique = true → ∀ row, p row = true → isLeast index.entries row = true) :
    Selects direction ((indexSelection store.records index).filter p) where
  sorted row hrow := by
    obtain ⟨entry, hentry, rfl⟩ := List.mem_map.1 (List.mem_of_mem_filter hrow)
    exact rowSorted_entryRow h hindex hentry
  distinct := by
    have hrows : (indexSelection store.records index).rows.Pairwise fun a b =>
        a.keySort ≠ b.keySort ∨ a.primarySort ≠ b.primarySort :=
      List.pairwise_map.2 (h.entries_distinct name index hindex)
    refine (hrows.filter p).imp_of_mem fun {a b} ha hb hne hboth => ?_
    have hcolumns := orderColumns_eq hboth.1 hboth.2
    obtain ⟨ha, hpa⟩ := List.mem_filter.1 ha
    obtain ⟨hb, hpb⟩ := List.mem_filter.1 hb
    cases hunique : direction.isUnique with
    | false =>
      have htuple : (((indexSelection store.records index).filter p).primary &&
          !direction.isUnique) = true := by
        rw [hunique]
        rfl
      rw [orderColumns_tuple htuple, orderColumns_tuple htuple] at hcolumns
      obtain ⟨hkey, hrest⟩ := List.cons.inj hcolumns
      exact hne.elim (fun hk => hk (Blob.order_injective hkey))
        fun hk => hk (Blob.order_injective (List.cons.inj hrest).1)
    | true =>
      have hkeyed : (((indexSelection store.records index).filter p).primary &&
          !direction.isUnique) = false := by
        rw [hunique]
        rfl
      rw [orderColumns_key hkeyed, orderColumns_key hkeyed] at hcolumns
      have hkey : a.keySort = b.keySort := Blob.order_injective (List.cons.inj hcolumns).1
      have hle := least_le (hp hunique a hpa) hb hkey.symm
      have hge := least_le (hp hunique b hpb) ha hkey
      exact hne.elim (fun hk => hk hkey) fun hk => hk (Blob.order_injective (le_antisymm hle hge))

/-- The selection before the seek filters the rows of the source. -/
theorem baseQuery_cases (hbase : baseQuery store q = .ok base) :
    ∃ sel₀ p, selection store q.source = .ok sel₀ ∧
      base = if q.direction.isUnique && sel₀.primary then
        sel₀.filter fun row => isLeast sel₀.entries row && p row
      else sel₀.filter p := by
  obtain ⟨sel₀, hsource, hbase⟩ := bind_eq_ok.1 hbase
  obtain ⟨sel, hrange, hbase⟩ := bind_eq_ok.1 hbase
  obtain ⟨p, rfl⟩ := range_eq (mapError_eq_ok.1 hrange)
  refine ⟨sel₀, p, hsource, ?_⟩
  cases hleast : q.direction.isUnique && sel₀.primary with
  | true =>
    rw [if_pos (show (q.direction.isUnique && (sel₀.filter p).primary) = true from hleast)] at hbase
    rw [← Except.ok.inj hbase]
    simp [filter]
  | false =>
    rw [if_neg (show ¬(q.direction.isUnique && (sel₀.filter p).primary) = true from by
      rw [show (sel₀.filter p).primary = sel₀.primary from rfl, hleast]; simp)] at hbase
    rw [← Except.ok.inj hbase]
    simp

theorem selects_baseQuery (h : store.WellFormed) (hbase : baseQuery store q = .ok base) :
    Selects q.direction base := by
  obtain ⟨sel₀, p, hsource, rfl⟩ := baseQuery_cases hbase
  cases hs : q.source with
  | objectStore =>
    rw [hs] at hsource
    obtain rfl := Except.ok.inj hsource
    rw [if_neg (by simp)]
    exact (selects_objectStore h q.direction).filter p
  | index name =>
    rw [hs] at hsource
    unfold selection at hsource
    dsimp only at hsource
    cases hindex : store.indexes.lookup name with
    | none => simp [hindex] at hsource
    | some index =>
      rw [hindex] at hsource
      obtain rfl : indexSelection store.records index = sel₀ := Except.ok.inj hsource
      cases hunique : q.direction.isUnique with
      | true =>
        exact selects_index h hindex q.direction _ fun _ row hrow => (Bool.and_eq_true_iff.1 hrow).1
      | false =>
        refine selects_index h hindex q.direction p fun htrue => ?_
        rw [hunique] at htrue
        cases htrue

/-! ## Reading rows -/

variable {values : Values ν}

/-- What a row delivers. -/
def snapshot (values : Values ν) (q : Query) (indexUnique : Option Bool) (row : Row) :
    Except QueryError (RecordSnapshot ν) :=
  (readRow values q false indexUnique row).map Prod.fst

/-- What a record counts for its page, if its row counts `n`. -/
def deliveredSize (values : Values ν) (n : Nat) (record : RecordSnapshot ν) : Nat :=
  record.value.elim n fun value => n - values.deferred value

theorem exists_payload {primary : Bool} (hrow : RowSorted primary row)
    (hrecord : row.record = some record) (q : Query) (paged : Bool) :
    ∃ n, pagePayload q paged row record = .ok n := by
  have husage := (hrow.record record hrecord).1
  unfold pagePayload rowPayload
  cases paged with
  | false => exact ⟨0, rfl⟩
  | true =>
    cases q.keysOnly with
    | true => exact ⟨_, rfl⟩
    | false => exact ⟨record.usage.toNat, by simp [Int.not_lt.2 husage]⟩

theorem deliver_eq (row : Row) (record : Record) (n : Nat) :
    deliver values q row record n =
      ((deliver values q row record 0).map Prod.fst).map fun delivered =>
      (delivered, deliveredSize values n delivered) := by
  unfold deliver
  cases (Key.decodeValue row.keyValue).mapError QueryError.failed with
  | error e => rfl
  | ok key =>
    cases (Key.decodeValue record.keyValue).mapError QueryError.failed with
    | error e => rfl
    | ok primaryKey =>
      split
      · rfl
      · split
        · rfl
        · cases (values.readValue record.recordId record.wireSize.toNat q.blobReferences).mapError
              QueryError.failed with
          | error | ok => rfl

/-- A page delivers the same as a query without pages. -/
theorem readRow_eq {primary : Bool} (hrow : RowSorted primary row) (paged : Bool)
    (indexUnique : Option Bool) :
    ∃ n, readRow values q paged indexUnique row =
      (snapshot values q indexUnique row).map fun record =>
        (record, deliveredSize values n record) := by
  unfold snapshot readRow
  split
  · exact ⟨0, rfl⟩
  · cases hfilter : row.record.filter fun record => decide (0 < record.recordId) with
    | none => exact ⟨0, rfl⟩
    | some record =>
      obtain ⟨n, hn⟩ := exists_payload hrow (Option.filter_eq_some_iff.1 hfilter).1 q paged
      refine ⟨n, ?_⟩
      simp only [hn]
      exact deliver_eq row record n

theorem deliver_keys {n : Nat} {delivered : RecordSnapshot ν × Nat}
    (h : deliver values q row record n = .ok delivered) :
    Key.decodeValue row.keyValue = .ok delivered.1.key ∧
      Key.decodeValue record.keyValue = .ok delivered.1.primaryKey := by
  obtain ⟨key, hkey, h⟩ := bind_eq_ok.1 h
  obtain ⟨primaryKey, hprimary, h⟩ := bind_eq_ok.1 h
  rw [mapError_eq_ok] at hkey hprimary
  split at h
  · obtain rfl := Except.ok.inj h
    exact ⟨hkey, hprimary⟩
  · split at h
    · cases h
    · obtain ⟨value, -, h⟩ := bind_eq_ok.1 h
      obtain rfl := Except.ok.inj h
      exact ⟨hkey, hprimary⟩

/-- A delivered record has the keys by which its row is sorted. -/
theorem keys_of_snapshot {primary : Bool} (hrow : RowSorted primary row) {indexUnique : Option Bool}
    {record : RecordSnapshot ν} (h : snapshot values q indexUnique row = .ok record) :
    record.key.encodeOrdered = .ok row.keySort ∧ record.primaryKey.encodeOrdered =
      .ok row.primarySort ∧ (primary = false → record.primaryKey.eq record.key = true) := by
  unfold snapshot readRow at h
  split at h
  · cases h
  · cases hfilter : row.record.filter fun record => decide (0 < record.recordId) with
    | none => simp [hfilter, Except.map] at h
    | some stored =>
      have hstored := (Option.filter_eq_some_iff.1 hfilter).1
      simp only [hfilter] at h
      obtain ⟨delivered, hdeliver, rfl⟩ := map_eq_ok.1 h
      obtain ⟨hkey, hprimary⟩ := deliver_keys hdeliver
      refine ⟨hrow.key _ hkey, (hrow.record stored hstored).2 _ hprimary, fun hown => ?_⟩
      rw [hrow.own hown stored hstored, hkey] at hprimary
      have hself := KeyCodec.canonical_eq .value delivered.1.key
      rw [KeyCodec.canonical_value] at hself
      rwa [← Except.ok.inj hprimary]

/-- The loop delivers the records of as many rows as fit, and of all if nothing limits it. -/
theorem readRows_spec {primary paged : Bool} {limit : Nat} {indexUnique : Option Bool}
    {rows : List Row}
    (hrows : ∀ row ∈ rows, RowSorted primary row) (output : List (RecordSnapshot ν)) (bytes : Nat)
    (hlimit : output.length ≤ limit) :
    ∃ k ≤ rows.length, output.length + k ≤ limit ∧
      (bytes < pageBytes → rows ≠ [] → output.length < limit → 0 < k) ∧
      (paged = false → output.length + rows.length ≤ limit → k = rows.length) ∧
      readRows values q paged limit indexUnique rows output bytes =
        ((rows.take k).mapM (snapshot values q indexUnique)).map fun records =>
          ⟨output ++ records, decide (k < rows.length ∧ output.length + k < q.limit)⟩ := by
  induction rows generalizing output bytes with
  | nil =>
    refine ⟨0, le_rfl, hlimit, fun _ hne => (hne rfl).elim, fun _ _ => rfl, ?_⟩
    simp [readRows, pure, Except.pure, Except.map]
  | cons row rows ih =>
    unfold readRows
    by_cases hstop : (decide (output.length = limit) || (paged && decide (pageBytes ≤ bytes))) =
      true
    · refine ⟨0, Nat.zero_le _, hlimit, ?_, ?_, ?_⟩
      · intro hbytes _ hlt
        simp [Nat.ne_of_lt hlt, Nat.not_le.2 hbytes] at hstop
      · intro hpaged hfit
        simp [hpaged] at hstop
        omega
      · rw [if_pos hstop]
        simp [pure, Except.pure, Except.map]
    · have hlt : output.length < limit := by
        refine lt_of_le_of_ne hlimit fun heq => hstop ?_
        simp [heq]
      rw [if_neg hstop]
      obtain ⟨n, hread⟩ :=
        @readRow_eq ν q row values _ (hrows row List.mem_cons_self) paged indexUnique
      cases hrow : snapshot values q indexUnique row with
      | error e =>
        refine ⟨min (rows.length + 1) (limit - output.length), by simp, by omega,
          fun _ _ _ => by omega, ?_, ?_⟩
        · intro _ hfit
          rw [List.length_cons] at hfit ⊢
          omega
        · obtain ⟨k, hk⟩ : ∃ k, min (rows.length + 1) (limit - output.length) = k + 1 :=
            ⟨_, (Nat.succ_pred_eq_of_pos (by omega)).symm⟩
          rw [hk, List.take_succ_cons, List.mapM_cons, hread, hrow]
          rfl
      | ok record =>
        have hlength : (output ++ [record]).length = output.length + 1 := by simp
        obtain ⟨k, hk, hfit, -, hall, heq⟩ :=
          ih (fun row' h => hrows row' (List.mem_cons_of_mem _ h))
          (output ++ [record]) (saturatingAdd bytes (deliveredSize values n record)) (by omega)
        refine ⟨k + 1, by simpa using hk, by omega, fun _ _ _ => by omega, ?_, ?_⟩
        · intro hpaged hroom
          rw [List.length_cons] at hroom ⊢
          rw [hall hpaged (by omega)]
        · rw [List.take_succ_cons, List.mapM_cons, hread, hrow]
          simp only [Except.map, bind, Except.bind, heq]
          cases (rows.take k).mapM (snapshot values q indexUnique) with
          | error e => rfl
          | ok records => simp [pure, Except.pure, Nat.add_assoc, Nat.add_comm 1]

/-! ## Pages -/

/-- The rows that a query delivers, if it has no limit. -/
def Query.rows (query : Query) (sel : Selection) : List Row :=
  (sel.order query.direction).drop query.skip

theorem compileQuery_cases (hsel : compileQuery store q = .ok sel) :
    ∃ base p, baseQuery store q = .ok base ∧ q.condition base.primary = .ok p ∧
      sel = base.filter p := by
  rw [compileQuery_eq] at hsel
  obtain ⟨base, hbase, hsel⟩ := bind_eq_ok.1 hsel
  obtain ⟨p, hp, hsel⟩ := bind_eq_ok.1 hsel
  exact ⟨base, p, hbase, hp, (Except.ok.inj hsel).symm⟩

section
variable (h : store.WellFormed) (hsel : compileQuery store q = .ok sel)
include h hsel

theorem sorted_rows : ∀ row ∈ q.rows sel, RowSorted sel.primary row := by
  obtain ⟨base, p, hbase, -, rfl⟩ := compileQuery_cases hsel
  intro row hrow
  have hmem := (List.mergeSort_perm _ _).mem_iff.1 (List.mem_of_mem_drop hrow)
  exact ((selects_baseQuery h hbase).filter p).sorted row hmem

theorem query_spec :
    query values store q =
      ((q.rows sel).take q.limit).mapM (snapshot values q sel.indexUnique) := by
  unfold query readQuery
  simp only [hsel, bind, Except.bind, Bool.false_eq_true, if_false]
  by_cases hzero : q.limit = 0
  · simp [hzero, pure, Except.pure]
  · rw [if_neg hzero]
    obtain ⟨k, -, -, -, hall, heq⟩ := @readRows_spec ν q values _ false q.limit sel.indexUnique
      ((q.rows sel).take q.limit)
      (fun row hrow => sorted_rows h hsel row (List.mem_of_mem_take hrow))
      [] 0 (Nat.zero_le _)
    have hk := hall rfl (by simp)
    rw [hk, List.take_length] at heq
    unfold Query.rows at heq ⊢
    rw [heq]
    cases List.mapM (snapshot values q sel.indexUnique) _ with
    | error | ok => rfl

theorem query_take {k : Nat} (hk : k ≤ q.limit) :
    query values store q = do
      let records ← ((q.rows sel).take k).mapM (snapshot values q sel.indexUnique)
      let rest ← (((q.rows sel).take q.limit).drop k).mapM (snapshot values q sel.indexUnique)
      return records ++ rest := by
  have hsplit : (q.rows sel).take q.limit = (q.rows sel).take k ++
      ((q.rows sel).take q.limit).drop k := by
    conv_lhs => rw [← List.take_append_drop k ((q.rows sel).take q.limit)]
    rw [List.take_take, Nat.min_eq_left hk]
  rw [query_spec h hsel, ← List.mapM_append, ← hsplit]

/-- A page delivers the records of the first `k` rows. -/
theorem queryPage_spec :
    ∃ k ≤ (q.rows sel).length, k ≤ q.limit ∧ (q.rows sel ≠ [] → 0 < q.limit → 0 < k) ∧
      queryPage values store q =
        (((q.rows sel).take k).mapM (snapshot values q sel.indexUnique)).map
        fun records => ⟨records, decide (k < (q.rows sel).length ∧ k < q.limit)⟩ := by
  unfold queryPage readQuery
  simp only [hsel, bind, Except.bind, if_true]
  by_cases hzero : q.limit = 0
  · refine ⟨0, Nat.zero_le _, Nat.zero_le _, fun _ hpos => absurd hzero (by omega), ?_⟩
    simp [hzero, pure, Except.pure, Except.map]
  · have hpos : min q.limit pageRecords ≠ 0 := by
      unfold pageRecords
      omega
    rw [if_neg hpos]
    obtain ⟨k, hk, hfit, hprogress, -, heq⟩ :=
      @readRows_spec ν q values _ true (min q.limit pageRecords)
      sel.indexUnique ((q.rows sel).take (min q.limit pageRecords + 1))
      (fun row hrow => sorted_rows h hsel row (List.mem_of_mem_take hrow)) [] 0 (Nat.zero_le _)
    simp only [List.length_nil, Nat.zero_add, List.length_take] at hk hfit hprogress heq
    refine ⟨k, by omega, by omega, ?_, ?_⟩
    · intro hne _
      refine hprogress (by decide) ?_ (by omega)
      simpa using hne
    · unfold Query.rows at *
      have hmore :
          (k < min (min q.limit pageRecords + 1) ((sel.order q.direction).drop q.skip).length ∧
          k < q.limit) ↔ (k < ((sel.order q.direction).drop q.skip).length ∧
            k < q.limit) := by omega
      have htake : min k (min q.limit pageRecords + 1) = k := by omega
      rw [heq, List.take_take, htake]
      simp only [hmore, List.nil_append]

end

theorem condition_mono {p : Row → Bool} (hp : q.condition sel.primary = .ok p)
    (hlast : p last = true) (hrow : Keyset.after (sel.notAfter q.direction) last row = true) :
    p row = true := by
  unfold Query.condition at hp
  cases hseek : q.seek with
  | none =>
    rw [hseek] at hp
    rw [← Except.ok.inj hp]
  | some seek =>
    rw [hseek] at hp
    exact seekCondition_mono (mapError_eq_ok.1 hp) hlast hrow

/-- The query for the next page selects the rows that are left. -/
theorem compileQuery_after (h : store.WellFormed) (hsel : compileQuery store q = .ok sel)
    {xs ys : List Row} (hrows : q.rows sel = xs ++ last :: ys) {page : RecordPage ν}
    {record : RecordSnapshot ν} (hpage : page.records.getLast? = some record)
    (hrecord : snapshot values q sel.indexUnique last = .ok record) :
    ∃ rest, compileQuery store (q.after page) = .ok rest ∧ (q.after page).rows rest = ys ∧
      rest.indexUnique = sel.indexUnique := by
  have hlast : RowSorted sel.primary last := sorted_rows h hsel last (by simp [hrows])
  obtain ⟨hkey, hprimary, hagree⟩ := keys_of_snapshot hlast hrecord
  obtain ⟨base, p, hbase, hp, rfl⟩ := compileQuery_cases hsel
  have hafter : q.after page = { q with
      seek := some ⟨record.key, some record.primaryKey, false⟩
      skip := 0
      limit := q.limit - page.records.length } := by
    unfold Query.after
    rw [hpage]
  have hcondition : (q.after page).condition base.primary =
      .ok (Keyset.after (base.notAfter q.direction) last) := by
    rw [hafter]
    unfold Query.condition
    dsimp only
    have hseek :
        seekCondition base.primary ⟨record.key, some record.primaryKey, false⟩ q.direction =
        .ok (Keyset.after (base.notAfter q.direction) last) :=
          seekCondition_after hkey hprimary hagree
    rw [hseek]
    rfl
  refine ⟨base.filter (Keyset.after (base.notAfter q.direction) last), ?_, ?_, rfl⟩
  · have hsame : baseQuery store (q.after page) = .ok base := by
      rw [hafter]
      exact hbase
    rw [compileQuery_eq, hsame]
    simp only [bind, Except.bind, hcondition]
    rfl
  · rw [hafter]
    exact Keyset.mergeSort_after (base.notAfter_trans q.direction) (base.notAfter_total q.direction)
      (selects_baseQuery h hbase).distinct (fun hlast row => condition_mono hp hlast) hrows

/-- What the query for the rest delivers. -/
theorem query_after (h : store.WellFormed) (hsel : compileQuery store q = .ok sel)
    {page : RecordPage ν} {k : Nat} (hk : k ≤ (q.rows sel).length)
    (hpage : ((q.rows sel).take k).mapM (snapshot values q sel.indexUnique) = .ok page.records) :
    ∃ rest, compileQuery store (q.after page) = .ok rest ∧
      ((q.after page).rows rest).take (q.after page).limit = ((q.rows sel).take q.limit).drop k ∧
      query values store (q.after page) =
        (((q.rows sel).take q.limit).drop k).mapM (snapshot values q sel.indexUnique) := by
  cases k with
  | zero =>
    have hnone : page.records = [] := (Except.ok.inj hpage).symm
    have hsame : q.after page = q := by
      unfold Query.after
      rw [hnone]
      rfl
    rw [hsame]
    exact ⟨sel, hsel, rfl, query_spec h hsel⟩
  | succ k =>
    have htake : (q.rows sel).take (k + 1) = (q.rows sel).take k ++ [(q.rows sel)[k]] :=
      (List.take_concat_get' (q.rows sel) k hk).symm
    have hrows : q.rows sel = (q.rows sel).take k ++
        (q.rows sel)[k] :: (q.rows sel).drop (k + 1) := by
      simp
    have hlength := (mapM_eq_ok hpage).length_eq.symm
    rw [htake] at hpage
    obtain ⟨record, hrecord, hlast⟩ := mapM_concat_eq_ok hpage
    obtain ⟨rest, hrest, hrows', hunique⟩ := compileQuery_after h hsel hrows hlast hrecord
    have hlimit : (q.after page).limit = q.limit - (k + 1) := by
      unfold Query.after
      rw [hlast]
      simp only [hlength, List.length_take, Nat.min_eq_left hk]
    have hsnapshot : snapshot values (q.after page) = snapshot values q := by
      unfold Query.after
      rw [hlast]
      rfl
    refine ⟨rest, hrest, ?_, ?_⟩
    · rw [hrows', hlimit, List.drop_take]
    · rw [query_spec h hrest, hrows', hlimit, hunique, hsnapshot, List.drop_take]

/-- A page and the query for the rest deliver what the query delivers. -/
theorem query_split (h : store.WellFormed) (hsel : compileQuery store q = .ok sel)
    {page : RecordPage ν} (hpage : queryPage values store q = .ok page) :
    query values store q = (query values store (q.after page)).map (page.records ++ ·) ∧
      (page.hasMore = true ↔ query values store (q.after page) ≠ .ok []) ∧
      (page.hasMore = true → ∃ rest, compileQuery store (q.after page) = .ok rest ∧
        (((q.after page).rows rest).take (q.after page).limit).length <
          ((q.rows sel).take q.limit).length) := by
  obtain ⟨k, hk, hlimit, hprogress, heq⟩ := @queryPage_spec ν store q sel values h hsel
  rw [hpage] at heq
  obtain ⟨records, hrecords, rfl⟩ := map_eq_ok.1 heq.symm
  obtain ⟨rest, hrest, hrows, hquery⟩ := @query_after ν store q sel values h hsel
    ⟨records, decide (k < (q.rows sel).length ∧ k < q.limit)⟩ k hk hrecords
  refine ⟨?_, ?_, ?_⟩
  · rw [query_take h hsel hlimit, hrecords, hquery]
    cases (((q.rows sel).take q.limit).drop k).mapM (snapshot values q sel.indexUnique) with
    | error | ok => rfl
  · rw [hquery]
    have hempty : (((q.rows sel).take q.limit).drop k).mapM (snapshot values q sel.indexUnique) =
        .ok [] ↔ ((q.rows sel).take q.limit).drop k = [] := by
      refine ⟨fun hnil => List.length_eq_zero_iff.1 (mapM_eq_ok hnil).length_eq, fun hnil => ?_⟩
      rw [hnil]
      rfl
    rw [Ne, hempty]
    simp
    omega
  · intro hmore
    simp only [decide_eq_true_eq] at hmore
    have hpos : 0 < k := hprogress (List.ne_nil_of_length_pos (by omega)) (by omega)
    refine ⟨rest, hrest, ?_⟩
    rw [hrows, List.length_drop, List.length_take]
    omega

theorem query_error {e : QueryError} (hsel : compileQuery store q = .error e) :
    query values store q = .error e ∧ queryPage values store q = .error e := by
  unfold query queryPage readQuery
  rw [hsel]
  exact ⟨rfl, rfl⟩

theorem queryPages_eq (h : store.WellFormed) (hsel : compileQuery store q = .ok sel) {calls : Nat}
    (hcalls : ((q.rows sel).take q.limit).length < calls) :
    queryPages values store calls q = some (query values store q) := by
  induction calls generalizing q sel with
  | zero => exact absurd hcalls (Nat.not_lt_zero _)
  | succ calls ih =>
    unfold queryPages
    cases hpage : queryPage values store q with
    | error e =>
      obtain ⟨k, -, hlimit, -, heq⟩ := @queryPage_spec ν store q sel values h hsel
      rw [hpage] at heq
      rw [query_take h hsel hlimit]
      cases hrecords : ((q.rows sel).take k).mapM (snapshot values q sel.indexUnique) with
      | error e' =>
        rw [hrecords] at heq
        obtain rfl := Except.error.inj heq
        rfl
      | ok records => simp [hrecords, Except.map] at heq
    | ok page =>
      obtain ⟨hquery, hmore, hless⟩ := query_split h hsel hpage
      dsimp only
      split
      next hhas =>
        obtain ⟨rest, hrest, hlt⟩ := hless hhas
        rw [ih hrest (by omega), hquery]
        rfl
      next hhas =>
        have hnil : query values store (q.after page) = .ok [] := by
          by_contra hne
          exact hhas (hmore.2 hne)
        rw [hquery, hnil]
        simp [Except.map]

/-- Following the pages of a query ends, delivers what the query without pages delivers, and there
is more exactly if the query for the rest delivers something. -/
theorem query_pages (values : Values ν) (h : store.WellFormed) (q : Query) :
    (∃ calls, ∀ n ≥ calls, queryPages values store n q = some (query values store q)) ∧
      ∀ page, queryPage values store q = .ok page →
        (page.hasMore = true ↔ query values store (q.after page) ≠ .ok []) := by
  cases hsel : compileQuery store q with
  | error e =>
    obtain ⟨hquery, hpage⟩ := @query_error ν store q values e hsel
    refine ⟨⟨1, ?_⟩, ?_⟩
    · intro n hn
      obtain ⟨n, rfl⟩ := Nat.exists_eq_add_of_le' hn
      unfold queryPages
      rw [hpage, hquery]
    · intro page hok
      rw [hpage] at hok
      cases hok
  | ok sel =>
    exact ⟨⟨((q.rows sel).take q.limit).length + 1, fun n hn => queryPages_eq h hsel hn⟩,
      fun page hpage => (query_split h hsel hpage).2.1⟩

/-- Two records that fill a page each, and an index in which they have one key. -/
def twoRecords : ObjectStore where
  records := [⟨1, [64, 1, 0, 0], [64, 1, 0, 0], 0, 1048576⟩,
    ⟨2, [64, 2, 0, 0], [64, 2, 0, 0], 0, 1048576⟩]
  indexes := (∅ : AList fun _ : IndexedDbName => Index).insert ⟨[]⟩ ⟨false,
    [⟨[64, 3, 0, 0], [64, 3, 0, 0], [64, 2, 0, 0], 2, false⟩,
      ⟨[64, 3, 0, 0], [64, 3, 0, 0], [64, 1, 0, 0], 1, false⟩]⟩

theorem twoRecords_index (h : twoRecords.indexes.lookup name = some index) :
    index = ⟨false, [⟨[64, 3, 0, 0], [64, 3, 0, 0], [64, 2, 0, 0], 2, false⟩,
      ⟨[64, 3, 0, 0], [64, 3, 0, 0], [64, 1, 0, 0], 1, false⟩]⟩ := by
  unfold twoRecords at h
  by_cases hname : name = ⟨[]⟩
  · rw [hname] at h
    exact (Option.some.inj h).symm
  · rw [AList.lookup_insert_ne hname] at h
    cases h

theorem twoRecords_wellFormed : twoRecords.WellFormed where
  records_distinct := by decide
  record_sort record hrecord key hkey := by
    rcases List.mem_cons.1 hrecord with rfl | hrecord
    · obtain rfl : Key.binary [1] = key := Except.ok.inj hkey
      rfl
    · obtain rfl := List.mem_singleton.1 hrecord
      obtain rfl : Key.binary [2] = key := Except.ok.inj hkey
      rfl
  usage_nonneg := by decide
  entries_distinct name index hindex := by
    obtain rfl := twoRecords_index hindex
    decide
  entry_sort name index hindex entry hentry key hkey := by
    obtain rfl := twoRecords_index hindex
    have hvalue : entry.indexKeyValue = [64, 3, 0, 0] ∧ entry.indexKeySort = [64, 3, 0, 0] := by
      rcases List.mem_cons.1 hentry with rfl | hentry
      · exact ⟨rfl, rfl⟩
      · obtain rfl := List.mem_singleton.1 hentry
        exact ⟨rfl, rfl⟩
    rw [hvalue.1] at hkey
    rw [hvalue.2]
    obtain rfl : Key.binary [3] = key := Except.ok.inj hkey
    rfl

/-- A query over the index, backwards. -/
def backwards : Query := { source := .index ⟨[]⟩, direction := .prev, limit := 2 }

def noValues : Values Unit := ⟨fun _ _ _ => .ok (), fun _ => 0⟩

/-- The index has its rows in the order of the query, and the first one fills a page. -/
theorem queryPage_backwards : ∃ page, queryPage noValues twoRecords backwards = .ok page ∧
    page.records.length = 1 ∧ page.hasMore = true := by
  obtain ⟨sel, hsel⟩ : ∃ sel, compileQuery twoRecords backwards = .ok sel := ⟨_, rfl⟩
  have horder : sel.order .prev = sel.rows := by
    obtain rfl := Except.ok.inj hsel
    exact List.mergeSort_of_pairwise (by decide)
  rw [queryPage, readQuery, hsel]
  change ∃ page, readRows _ _ _ _ _ (((sel.order .prev).drop _).take _) _ _ = .ok page ∧ _
  rw [horder]
  obtain rfl := Except.ok.inj hsel
  exact ⟨_, rfl, rfl, rfl⟩

/-- The first page has one of the records, and the query for the rest delivers something. -/
theorem query_pages_index :
    twoRecords.WellFormed ∧
      (∃ page, queryPage noValues twoRecords backwards = .ok page ∧ page.records.length = 1 ∧
        page.hasMore = true ∧ query noValues twoRecords (backwards.after page) ≠ .ok []) ∧
      ∃ calls, ∀ n ≥ calls, queryPages noValues twoRecords n backwards =
        some (query noValues twoRecords backwards) := by
  obtain ⟨hpages, hrest⟩ := query_pages noValues twoRecords_wellFormed backwards
  obtain ⟨page, hpage, hlength, hmore⟩ := queryPage_backwards
  exact ⟨twoRecords_wellFormed, ⟨page, hpage, hlength, hmore, (hrest page hpage).1 hmore⟩, hpages⟩

end Moli.IndexedDb
