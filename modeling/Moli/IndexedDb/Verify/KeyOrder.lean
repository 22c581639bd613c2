import Moli.IndexedDb.Verify.KeyScalars

/-!
# Ordered key bytes are an order embedding

The bytes of every key, followed by anything, compare first as the keys do (`carriesAt_bytes`).
Tags decide between variants, fixed-width payloads between numbers and dates, and the two
terminated codes between strings, byte strings and arrays; the induction is over the nesting of
arrays. `encodeOrdered_order_embedding` is the statement about the encoder.
-/

namespace Moli.IndexedDb.KeyCodec

open Lib.BigEndian Lib.OrderCode List

/-! ## Escaped byte strings -/

/-- An escaped byte carries the order of bytes. -/
theorem carriesAt_escape (a b : UInt8) : CarriesAt compare escape a b := by
  intro s t
  unfold escape
  by_cases ha : a = 0 <;> by_cases hb : b = 0
  · simp [ha, hb]
  · simp only [ha, hb, if_true, if_false, cons_append, lexCmp_cons_cons]
    rw [Std.compare_eq_lt.2 (UInt8.pos_iff_ne_zero.2 hb)]
    rfl
  · simp only [ha, hb, if_true, if_false, cons_append, lexCmp_cons_cons]
    rw [Std.compare_eq_gt.2 (UInt8.pos_iff_ne_zero.2 ha)]
    rfl
  · simp only [ha, hb, if_false, cons_append, nil_append, lexCmp_cons_cons]

/-- The terminator `00 00` is below every escaped byte. -/
theorem terminator_lt_escape (b : UInt8) (s t : List UInt8) :
    lexCmp ([0, 0] ++ s) (escape b ++ t) = .lt := by
  unfold escape
  split
  · simp only [cons_append]
    rfl
  · next hb =>
    simp only [cons_append]
    rw [lexCmp_cons_of_ne (Ne.symm hb)]
    exact Std.compare_eq_lt.2 (UInt8.pos_iff_ne_zero.2 hb)

/-- Escaping byte strings of one length keeps their order. -/
theorem carriesAt_flatMap_escape : ∀ {x y : List UInt8}, x.length = y.length →
    CarriesAt lexCmp (flatMap escape) x y
  | [], [], _ => by
    intro s t
    rfl
  | a :: x, b :: y, h => by
    intro s t
    have ih := carriesAt_flatMap_escape (Nat.succ.inj h)
    rw [flatMap_cons, flatMap_cons, append_assoc, append_assoc,
      carriesAt_escape a b, ih s t, lexCmp_cons_cons, Ordering.then_assoc]

/-! ## Code units -/

/-- One code unit, escaped. -/
def escapedUnit (unit : UInt16) : List UInt8 := (beBytes 2 unit.toNat).flatMap escape

theorem escapedBytes_unitBytes (units : List UInt16) :
    escapedBytes (unitBytes units) = terminated escapedUnit [0, 0] units := by
  simp only [escapedBytes, unitBytes, terminated, flatMap_assoc]
  rfl

theorem compare_toNat_unit (a b : UInt16) : compare a.toNat b.toNat = compare a b := by
  cases h : compare a b with
  | lt => exact Nat.compare_eq_lt.2 (UInt16.lt_iff_toNat_lt.1 (Std.compare_eq_lt.1 h))
  | eq => rw [Std.LawfulEqCmp.eq_of_compare h]; exact Nat.compare_eq_eq.2 rfl
  | gt => exact Nat.compare_eq_gt.2 (UInt16.lt_iff_toNat_lt.1 (Std.compare_eq_gt.1 h))

theorem carriesAt_escapedUnit (a b : UInt16) : CarriesAt compare escapedUnit a b := by
  intro s t
  have hlen : (beBytes 2 a.toNat).length = (beBytes 2 b.toNat).length := by simp
  rw [escapedUnit, escapedUnit, carriesAt_flatMap_escape hlen s t,
    (carriesAt_beBytes a.toNat_lt b.toNat_lt).cmp_eq, compare_toNat_unit]

theorem terminator_lt_escapedUnit (unit : UInt16) (s t : List UInt8) :
    lexCmp ([0, 0] ++ s) (escapedUnit unit ++ t) = .lt := by
  rw [escapedUnit, beBytes, flatMap_cons, append_assoc]
  exact terminator_lt_escape _ _ _

/-! ## Keys -/

/-- The type tag of a key. -/
def tag : Key → UInt8
  | .number _ => number
  | .date _ => date
  | .string _ => string
  | .binary _ => binary
  | .array _ => array

theorem bytes_eq_cons (encoding : Encoding) (key : Key) :
    ∃ payload, bytes encoding key = tag key :: payload := by
  cases key <;> exact ⟨_, by rw [bytes]; rfl⟩

/-- Tags grow with the variant. -/
theorem toNat_tag (key : Key) : (tag key).toNat = 16 * (key.discriminant + 1) := by
  cases key <;> rfl

theorem zero_lt_tag (key : Key) : 0 < tag key := by
  rw [UInt8.lt_iff_toNat_lt, toNat_tag]
  exact Nat.mul_pos (by decide) (Nat.succ_pos _)

theorem cmp_of_discriminant_ne {a b : Key} (h : a.discriminant ≠ b.discriminant) :
    a.cmp b = compare a.discriminant b.discriminant := by
  cases a <;> cases b <;> first | exact absurd rfl h | (rw [Key.cmp] <;> simp)

theorem compare_tag (a b : Key) :
    compare (tag a) (tag b) = compare a.discriminant b.discriminant := by
  rw [← compare_toNat, toNat_tag, toNat_tag]
  rcases Nat.lt_trichotomy a.discriminant b.discriminant with h | h | h
  · rw [Nat.compare_eq_lt.2 h, Nat.compare_eq_lt.2 (by omega)]
  · rw [h]
    simp
  · rw [Nat.compare_eq_gt.2 h, Nat.compare_eq_gt.2 (by omega)]

/-- Keys of different types are told apart by their tags. -/
theorem carriesAt_of_discriminant_ne {encoding : Encoding} {a b : Key}
    (h : a.discriminant ≠ b.discriminant) : CarriesAt Key.cmp (bytes encoding) a b := by
  intro s t
  obtain ⟨p, hp⟩ := bytes_eq_cons encoding a
  obtain ⟨q, hq⟩ := bytes_eq_cons encoding b
  rw [hp, hq, cons_append, cons_append, lexCmp_cons_cons, compare_tag, cmp_of_discriminant_ne h]
  cases hc : compare a.discriminant b.discriminant with
  | lt => rfl
  | gt => rfl
  | eq => exact absurd (Nat.compare_eq_eq.1 hc) h

theorem cmpList_eq (xs ys : List Key) : Key.cmpList xs ys = List.compareLex Key.cmp xs ys := by
  induction xs generalizing ys with
  | nil => cases ys <;> simp [Key.cmpList, List.compareLex]
  | cons x xs ih =>
    cases ys with
    | nil => simp [Key.cmpList, List.compareLex]
    | cons y ys => rw [Key.cmpList, List.compareLex_cons_cons, ih]

theorem bytesAll_eq (encoding : Encoding) (keys : List Key) :
    bytesAll encoding keys ++ [0] = terminated (bytes encoding) [0] keys := by
  induction keys with
  | nil => rfl
  | cons key keys ih => rw [bytesAll, terminated_cons, append_assoc, ih]

/-- The terminator `00` of an array is below every key. -/
theorem terminator_lt_bytes (encoding : Encoding) (key : Key) (s t : List UInt8) :
    lexCmp ([0] ++ s) (bytes encoding key ++ t) = .lt := by
  obtain ⟨p, hp⟩ := bytes_eq_cons encoding key
  have hpos := zero_lt_tag key
  rw [hp, cons_append, cons_append, lexCmp_cons_of_ne (Ne.symm (UInt8.pos_iff_ne_zero.1 hpos))]
  exact Std.compare_eq_lt.2 hpos

/-- The ordered bytes carry the order of keys. -/
theorem carriesAt_bytes : ∀ a b : Key, CarriesAt Key.cmp (bytes .ordered) a b
  | .number a, b => by
    cases b with
    | number b =>
      have h := carriesAt_beBytes (k := 8) (numberBits a.value .ordered).toNat_lt
        (numberBits b.value .ordered).toNat_lt
      intro s t
      rw [bytes, bytes, cons_append, cons_append, lexCmp_cons_self, h s t,
        compare_numberBits, Key.cmp]
    | _ => exact carriesAt_of_discriminant_ne (by simp [Key.discriminant])
  | .date a, b => by
    cases b with
    | date b =>
      have hlt (x : Int64) : (x.toUInt64.toNat + 2 ^ 63) % 2 ^ 64 < 256 ^ 8 := by omega
      have h := carriesAt_beBytes (hlt a) (hlt b)
      intro s t
      rw [bytes, bytes, flipSign_beBytes a.toUInt64.toNat_lt, flipSign_beBytes b.toUInt64.toNat_lt,
        cons_append, cons_append, lexCmp_cons_self, h s t, compare_date, Key.cmp]
    | _ => exact carriesAt_of_discriminant_ne (by simp [Key.discriminant])
  | .string a, b => by
    cases b with
    | string b =>
      have h := carriesAt_terminated terminator_lt_escapedUnit a b
        fun x _ y _ => carriesAt_escapedUnit x y
      intro s t
      rw [bytes, bytes, escapedBytes_unitBytes, escapedBytes_unitBytes, cons_append,
        cons_append, lexCmp_cons_self, h s t, Key.cmp]
    | _ => exact carriesAt_of_discriminant_ne (by simp [Key.discriminant])
  | .binary a, b => by
    cases b with
    | binary b =>
      have h := carriesAt_terminated terminator_lt_escape a b fun x _ y _ => carriesAt_escape x y
      intro s t
      rw [bytes, bytes, escapedBytes, escapedBytes, cons_append, cons_append,
        lexCmp_cons_self, h s t, Key.cmp]
    | _ => exact carriesAt_of_discriminant_ne (by simp [Key.discriminant])
  | .array a, b => by
    cases b with
    | array b =>
      have h := carriesAt_terminated (terminator_lt_bytes .ordered) a b
        fun x hx y _ => carriesAt_bytes x y
      intro s t
      rw [bytes, bytes, bytesAll_eq, bytesAll_eq, cons_append, cons_append,
        lexCmp_cons_self, h s t, Key.cmp, cmpList_eq]
    | _ => exact carriesAt_of_discriminant_ne (by simp [Key.discriminant])

/-- The comparison bytes of two keys within the supported depth and date range exist, and their
unsigned lexicographic order is the order of the keys. -/
theorem encodeOrdered_order_embedding (a b : Key)
    (hda : a.arrayDepth ≤ maxKeyDepth) (hdb : b.arrayDepth ≤ maxKeyDepth)
    (hra : a.datesInRange = true) (hrb : b.datesInRange = true) :
    ∃ x y, a.encodeOrdered = .ok x ∧ b.encodeOrdered = .ok y ∧
      lexCmp x y = a.cmp b ∧ (x = y ↔ a.cmp b = .eq) ∧ (x < y ↔ a.cmp b = .lt) := by
  have hcmp := (carriesAt_bytes a b).cmp_eq
  refine ⟨bytes .ordered a, bytes .ordered b, encode_ok_iff.2 ⟨hda, hra, rfl⟩,
    encode_ok_iff.2 ⟨hdb, hrb, rfl⟩, hcmp, ?_, ?_⟩
  · rw [← hcmp, lexCmp_eq_iff]
  · rw [← hcmp, lexCmp_lt_iff]

/-- A shorter first element comes first although another element follows it. -/
theorem encodeOrdered_order_embedding_compound :
    ∃ x y, (Key.array [.string [], .number ⟨0, by decide⟩]).encodeOrdered = .ok x ∧
      (Key.array [.string [0], .number ⟨0x8000000000000000, by decide⟩]).encodeOrdered = .ok y ∧
      lexCmp x y = .lt := by
  obtain ⟨x, y, hx, hy, hcmp, -⟩ := encodeOrdered_order_embedding
    (.array [.string [], .number ⟨0, by decide⟩])
    (.array [.string [0], .number ⟨0x8000000000000000, by decide⟩])
    (by decide) (by decide) (by decide) (by decide)
  exact ⟨x, y, hx, hy, hcmp.trans (by decide)⟩

end Moli.IndexedDb.KeyCodec
