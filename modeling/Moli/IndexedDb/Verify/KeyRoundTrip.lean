import Moli.IndexedDb.Verify.KeyOrder

/-!
# Decoding key bytes

Decoding the bytes of a key gives the key back, up to the sign of zero in the ordered format
(`Decoder.key_bytes`), and conversely whatever the decoder accepts are the bytes of the key it
returns (`Decoder.eq_bytes_of_key`). Both are stated with further input behind the key and follow
the mutual recursion of the decoder and its array loop. `key_format_canonical` collects what this
says about the four entry points.
-/

namespace Moli.IndexedDb.KeyCodec

open Lib.BigEndian Lib.OrderCode List Key

/-! ## The key a decoder returns -/

/-- The ordered format has one representation of zero. -/
def canonicalNumber (n : KeyNumber) : Encoding → KeyNumber
  | .value => n
  | .ordered => if n.value.isZero then ⟨0, by decide⟩ else n

mutual

/-- The key that is read back from the bytes of a key. -/
def canonical (encoding : Encoding) : Key → Key
  | .number n => .number (canonicalNumber n encoding)
  | .date milliseconds => .date milliseconds
  | .string units => .string units
  | .binary bytes => .binary bytes
  | .array keys => .array (canonicalAll encoding keys)

def canonicalAll (encoding : Encoding) : List Key → List Key
  | [] => []
  | key :: keys => canonical encoding key :: canonicalAll encoding keys

end

mutual

theorem canonical_value : ∀ key : Key, canonical .value key = key
  | .number _ => rfl
  | .date _ => rfl
  | .string _ => rfl
  | .binary _ => rfl
  | .array keys => by rw [canonical, canonicalAll_value keys]

theorem canonicalAll_value : ∀ keys : List Key, canonicalAll .value keys = keys
  | [] => rfl
  | key :: keys => by rw [canonicalAll, canonical_value key, canonicalAll_value keys]

end

theorem canonicalNumber_eq (n : KeyNumber) (encoding : Encoding) :
    (canonicalNumber n encoding).eq n = true := by
  rw [KeyNumber.eq_iff]
  cases encoding with
  | value => exact .inl rfl
  | ordered =>
    rw [canonicalNumber]
    split
    · next h => exact .inr ⟨by decide, h⟩
    · exact .inl rfl

mutual

theorem canonical_eq (encoding : Encoding) : ∀ key : Key, (canonical encoding key).eq key = true
  | .number n => by simp [canonical, Key.eq, canonicalNumber_eq]
  | .date _ => by simp [canonical, Key.eq]
  | .string _ => by simp [canonical, Key.eq]
  | .binary _ => by simp [canonical, Key.eq]
  | .array keys => by rw [canonical, Key.eq, canonicalAll_eq encoding keys]

theorem canonicalAll_eq (encoding : Encoding) :
    ∀ keys : List Key, eqList (canonicalAll encoding keys) keys = true
  | [] => rfl
  | key :: keys => by
    rw [canonicalAll, eqList, canonical_eq encoding key, canonicalAll_eq encoding keys]
    rfl

end

/-! ## Payloads of numbers -/

theorem toNat_payloadBits_ordered (payload : UInt64) :
    (Decoder.payloadBits payload .ordered).toNat =
      if payload.toNat < 2 ^ 63 then 2 ^ 64 - 1 - payload.toNat else payload.toNat - 2 ^ 63 := by
  rw [Decoder.payloadBits]
  simp only [signBit, ne_eq, and_signBit_eq_zero_iff, ite_not]
  split
  · rw [UInt64.toNat_not, UInt64.size]
    omega
  · next h => rw [toNat_xor_signBit, if_neg h]

theorem toNat_numberBits (x : F64) : (numberBits x .ordered).toNat =
    if x.isZero then 2 ^ 63
    else if x.bits.toNat < 2 ^ 63 then x.bits.toNat + 2 ^ 63 else 2 ^ 64 - 1 - x.bits.toNat := by
  have hord := toNat_numberBits_ordered x
  rw [x.toInt_totalKey] at hord
  split
  · next hzero =>
    rw [if_pos hzero] at hord
    omega
  · next hzero =>
    rw [if_neg hzero] at hord
    split at hord <;> split <;> omega

theorem payloadBits_numberBits (n : KeyNumber) (encoding : Encoding) :
    Decoder.payloadBits (numberBits n.value encoding) encoding =
      (canonicalNumber n encoding).bits := by
  cases encoding with
  | value => rfl
  | ordered =>
    have hlt := toNat_lt_words n.value.bits
    rw [← UInt64.toNat_inj, toNat_payloadBits_ordered, toNat_numberBits, canonicalNumber]
    cases h : n.value.isZero with
    | true => simp
    | false =>
      simp only [Bool.false_eq_true, ↓reduceIte]
      change _ = n.value.bits.toNat
      by_cases hs : n.value.bits.toNat < 2 ^ 63
      · rw [if_pos hs, if_neg (by omega)]
        omega
      · rw [if_neg hs, if_pos (by omega)]
        omega

theorem numberBits_payloadBits (payload : UInt64) (encoding : Encoding)
    (h : ¬(encoding = .ordered ∧ (F64.mk (Decoder.payloadBits payload encoding)).isZero = true ∧
      Decoder.payloadBits payload encoding ≠ 0)) :
    numberBits ⟨Decoder.payloadBits payload encoding⟩ encoding = payload := by
  cases encoding with
  | value => rfl
  | ordered =>
    have hlt := toNat_lt_words payload
    have hbits := toNat_payloadBits_ordered payload
    rw [← UInt64.toNat_inj, toNat_numberBits]
    cases hzero : (F64.mk (Decoder.payloadBits payload .ordered)).isZero with
    | true =>
      have hb : Decoder.payloadBits payload .ordered = 0 := by
        by_contra hne
        exact h ⟨rfl, hzero, hne⟩
      rw [hb] at hbits
      simp only [↓reduceIte]
      rw [UInt64.toNat_zero] at hbits
      split at hbits <;> omega
    | false =>
      simp only [Bool.false_eq_true, ↓reduceIte, hbits]
      split <;> split <;> omega

variable {bs : List UInt8} {encoding : Encoding} {k : Key}

namespace Decoder

/-! ## Reading back an encoding -/

theorem scalar_append (h : bs.length = 8) (rest : List UInt8) :
    scalar (bs ++ rest) = .ok (bs, rest) := by
  unfold scalar
  rw [if_neg (by simp [h]), ← h, take_left, drop_left]

theorem variableBytes_escapedBytes (bs output rest : List UInt8) :
    variableBytes (escapedBytes bs ++ rest) output = .ok (output ++ bs, rest) := by
  induction bs generalizing output with
  | nil => simp [escapedBytes, variableBytes]
  | cons b bs ih =>
    rw [escapedBytes, terminated_cons, ← escapedBytes, escape]
    by_cases hb : b = 0
    · rw [variableBytes.eq_def]
      simp [ih, hb]
    · rw [variableBytes.eq_def]
      simp [ih, hb]

theorem codeUnits_unitBytes (units : List UInt16) : codeUnits (unitBytes units) = units := by
  induction units with
  | nil => rfl
  | cons unit units ih =>
    have hread : ofBeBytes (beBytes 2 unit.toNat) = unit.toNat := ofBeBytes_beBytes unit.toNat_lt
    change codeUnits (beBytes 2 unit.toNat ++ unitBytes units) = unit :: units
    simp only [beBytes, cons_append, nil_append] at hread ⊢
    rw [codeUnits, hread, ih, UInt16.ofNat_toNat]

theorem length_unitBytes (units : List UInt16) : (unitBytes units).length = 2 * units.length := by
  induction units with
  | nil => rfl
  | cons unit units ih =>
    change (beBytes 2 unit.toNat ++ unitBytes units).length = _
    rw [length_append, length_beBytes, length_cons]
    omega

theorem numberKey_bytes (encoding : Encoding) (n : KeyNumber) (rest : List UInt8) :
    numberKey encoding (beBytes 8 (numberBits n.value encoding).toNat ++ rest) =
      .ok (canonical encoding (.number n), rest) := by
  have hread : ofBeBytes (beBytes 8 (numberBits n.value encoding).toNat) =
      (numberBits n.value encoding).toNat :=
        ofBeBytes_beBytes (numberBits n.value encoding).toNat_lt
  have hcanon : ¬(encoding = .ordered ∧ (F64.mk (canonicalNumber n encoding).bits).isZero = true ∧
      (canonicalNumber n encoding).bits ≠ 0) := by
    rintro ⟨rfl, hz, hne⟩
    rw [canonicalNumber] at hz hne
    split at hz
    · next hzero => simp [hzero] at hne
    · next hzero => exact hzero hz
  have hnan := (canonicalNumber n encoding).not_nan
  rw [numberKey, scalar_append (length_beBytes _ _)]
  simp only [hread, UInt64.ofNat_toNat, payloadBits_numberBits]
  rw [if_neg hcanon, ofNumber, KeyNumber.new]
  simp only [hnan, ↓reduceDIte, Option.map_some, canonical]

theorem dateKey_bytes {milliseconds : Int64} (h : dateInRange milliseconds = true)
    (rest : List UInt8) :
    dateKey (flipSign (beBytes 8 milliseconds.toUInt64.toNat) ++ rest) =
      .ok (.date milliseconds, rest) := by
  have hlen : (flipSign (beBytes 8 milliseconds.toUInt64.toNat)).length = 8 := by
    rw [flipSign_beBytes milliseconds.toUInt64.toNat_lt, length_beBytes]
  have hread : ofBeBytes (beBytes 8 milliseconds.toUInt64.toNat) = milliseconds.toUInt64.toNat :=
    ofBeBytes_beBytes milliseconds.toUInt64.toNat_lt
  have hflip : flipSign (flipSign (beBytes 8 milliseconds.toUInt64.toNat)) =
      beBytes 8 milliseconds.toUInt64.toNat := by
    have hlt := toNat_lt_words milliseconds.toUInt64
    have hmod : ((milliseconds.toUInt64.toNat + 2 ^ 63) % 2 ^ 64 + 2 ^ 63) % 2 ^ 64 =
        milliseconds.toUInt64.toNat := by omega
    rw [flipSign_beBytes milliseconds.toUInt64.toNat_lt, flipSign_beBytes (by omega), hmod]
  rw [dateKey, scalar_append hlen]
  simp only [hflip, hread, UInt64.ofNat_toNat]
  rw [show milliseconds.toUInt64.toInt64 = milliseconds from rfl, if_pos h]

mutual

/-- Decoding the bytes of a key gives its canonical form and leaves what follows. -/
theorem key_bytes (encoding : Encoding) : ∀ (k : Key) (fuel depth : Nat) (rest : List UInt8),
    2 * ((bytes encoding k).length + rest.length) ≤ fuel → depth + k.arrayDepth ≤ maxKeyDepth →
    k.datesInRange = true →
    key encoding fuel depth (bytes encoding k ++ rest) = some (.ok (canonical encoding k, rest))
  | k, 0, _, rest, hfuel, _, _ => by
    obtain ⟨p, hp⟩ := bytes_eq_cons encoding k
    rw [hp, length_cons] at hfuel
    omega
  | .number n, fuel + 1, depth, rest, _, _, _ => by
    rw [bytes, cons_append, key]
    simp only [byte]
    rw [if_pos (by decide), scalarKey, if_pos rfl, numberKey_bytes]
  | .date milliseconds, fuel + 1, depth, rest, _, _, hdates => by
    rw [bytes, cons_append, key]
    simp only [byte]
    rw [scalarKey, dateKey_bytes hdates]
    rfl
  | .string units, fuel + 1, depth, rest, _, _, _ => by
    rw [bytes, cons_append, key]
    simp only [byte]
    rw [if_pos (by decide), scalarKey, if_neg (by decide), if_neg (by decide),
      stringKey, variableBytes_escapedBytes]
    simp [length_unitBytes, codeUnits_unitBytes, canonical]
  | .binary bs, fuel + 1, depth, rest, _, _, _ => by
    rw [bytes, cons_append, key]
    simp only [byte]
    rw [scalarKey, binaryKey, variableBytes_escapedBytes]
    rfl
  | .array keys, fuel + 1, depth, rest, hfuel, hdepth, hdates => by
    rw [arrayDepth] at hdepth
    rw [bytes, length_cons, length_append, length_singleton] at hfuel
    rw [bytes, cons_append, append_assoc, key]
    simp only [byte]
    rw [if_neg (by simp), if_neg (by omega), cons_append, nil_append,
      arrayKeys_bytesAll encoding keys fuel depth rest [] (by omega) (by omega) hdates]
    rfl

theorem arrayKeys_bytesAll (encoding : Encoding) :
    ∀ (keys : List Key) (fuel depth : Nat) (rest : List UInt8) (read : List Key),
    2 * ((bytesAll encoding keys).length + 1 + rest.length) < fuel →
    depth + 1 + arrayDepthAll keys ≤ maxKeyDepth → datesInRangeAll keys = true →
    arrayKeys encoding fuel depth (bytesAll encoding keys ++ 0 :: rest) read =
      some (.ok (.array (read ++ canonicalAll encoding keys), rest))
  | keys, 0, _, _, _, hfuel, _, _ => by omega
  | [], fuel + 1, depth, rest, read, _, _, _ => by simp [bytesAll, arrayKeys, canonicalAll]
  | k :: keys, fuel + 1, depth, rest, read, hfuel, hdepth, hdates => by
    obtain ⟨p, hp⟩ := bytes_eq_cons encoding k
    rw [datesInRangeAll, Bool.and_eq_true] at hdates
    rw [arrayDepthAll] at hdepth
    rw [bytesAll, length_append] at hfuel
    have hne : (bytes encoding k).length = p.length + 1 := by rw [hp, length_cons]
    have hkey := key_bytes encoding k fuel (depth + 1) (bytesAll encoding keys ++ 0 :: rest)
      (by simp only [length_append, length_cons]; omega) (by omega) hdates.1
    have hrec := arrayKeys_bytesAll encoding keys fuel depth rest (read ++ [canonical encoding k])
      (by omega) (by omega) hdates.2
    rw [bytesAll, append_assoc]
    rw [hp, cons_append] at hkey ⊢
    rw [arrayKeys, if_neg (UInt8.pos_iff_ne_zero.1 (zero_lt_tag k)), hkey]
    simp only
    rw [hrec, canonicalAll, append_assoc, singleton_append]

end

/-! ## What the decoder accepts -/

variable {input rest : List UInt8}

theorem eq_append_of_scalar (h : scalar input = .ok (bs, rest)) :
    input = bs ++ rest ∧ bs.length = 8 := by
  unfold scalar at h
  split at h
  · cases h
  · next hlen =>
    cases h
    exact ⟨(take_append_drop 8 input).symm, by simp; omega⟩

theorem eq_escapedBytes_of_variableBytes {output : List UInt8}
    (h : variableBytes input output = .ok (bs, rest)) :
    ∃ read, bs = output ++ read ∧ input = escapedBytes read ++ rest := by
  fun_induction variableBytes input output with
  | case1 | case3 | case6 => cases h
  | case2 b input output hb ih =>
    obtain ⟨read, rfl, rfl⟩ := ih h
    refine ⟨b :: read, by simp, ?_⟩
    rw [escapedBytes, escapedBytes, terminated_cons, escape, if_neg hb]
    rfl
  | case4 b output hb input =>
    cases h
    exact ⟨[], by simp, by rw [not_not.1 hb]; rfl⟩
  | case5 b output hb input _ ih =>
    obtain ⟨read, rfl, rfl⟩ := ih h
    refine ⟨0 :: read, by simp, ?_⟩
    rw [not_not.1 hb]
    rfl

theorem unitBytes_codeUnits : ∀ {bs : List UInt8}, bs.length % 2 = 0 →
    unitBytes (codeUnits bs) = bs
  | [], _ => rfl
  | [_], h => by simp at h
  | a :: b :: bs, h => by
    have hlt : ofBeBytes [a, b] < 2 ^ 16 := (ofBeBytes_lt [a, b]).trans_eq (by simp)
    have hab : beBytes 2 (ofBeBytes [a, b]) = [a, b] := beBytes_ofBeBytes [a, b]
    have ih : unitBytes (codeUnits bs) = bs :=
      unitBytes_codeUnits (by simp only [length_cons] at h; omega)
    change beBytes 2 (UInt16.ofNat (ofBeBytes [a, b])).toNat ++ unitBytes (codeUnits bs) = _
    rw [UInt16.toNat_ofNat', Nat.mod_eq_of_lt hlt, hab, ih]
    rfl

theorem beBytes_toNat_ofNat (h : bs.length = 8) :
    beBytes 8 (UInt64.ofNat (ofBeBytes bs)).toNat = bs := by
  have hlt : ofBeBytes bs < 2 ^ 64 := by
    have := ofBeBytes_lt bs
    rwa [h] at this
  have hbs := beBytes_ofBeBytes bs
  rw [h] at hbs
  rw [UInt64.toNat_ofNat', Nat.mod_eq_of_lt hlt, hbs]

/-- A key whose tag was read before its payload. -/
structure Reads (encoding : Encoding) (t : UInt8) (input : List UInt8) (k : Key)
    (rest : List UInt8) : Prop where
  bytes_eq : t :: input = bytes encoding k ++ rest
  arrayDepth_eq : k.arrayDepth = 0
  datesInRange : k.datesInRange = true

theorem reads_of_numberKey (h : numberKey encoding input = .ok (k, rest)) :
    Reads encoding number input k rest := by
  unfold numberKey at h
  split at h
  · cases h
  · next bs rest' hs =>
    obtain ⟨rfl, hlen⟩ := eq_append_of_scalar hs
    simp only at h
    split at h
    · cases h
    · next hcanon =>
      simp only [ofNumber, KeyNumber.new] at h
      split at h
      · cases h
      · next hsome =>
        cases h
        split at hsome
        · cases hsome
          refine ⟨?_, rfl, rfl⟩
          rw [bytes, KeyNumber.value, numberBits_payloadBits _ _ hcanon, beBytes_toNat_ofNat hlen]
          rfl
        · cases hsome

theorem reads_of_dateKey (h : dateKey input = .ok (k, rest)) :
    Reads encoding date input k rest := by
  unfold dateKey at h
  split at h
  · cases h
  · next bs rest' hs =>
    obtain ⟨rfl, hlen⟩ := eq_append_of_scalar hs
    simp only at h
    split at h
    · next hrange =>
      cases h
      refine ⟨?_, rfl, hrange⟩
      have hflip : flipSign (flipSign bs) = bs := by
        cases bs with
        | nil => rfl
        | cons b bs => rw [flipSign, flipSign, UInt8.xor_assoc, UInt8.xor_self, UInt8.xor_zero]
      have hlen' : (flipSign bs).length = 8 := by
        cases bs with
        | nil | cons => exact hlen
      rw [bytes, UInt64.toUInt64_toInt64, beBytes_toNat_ofNat hlen', hflip]
      rfl
    · cases h

theorem reads_of_stringKey (h : stringKey input = .ok (k, rest)) :
    Reads encoding string input k rest := by
  unfold stringKey at h
  split at h
  · cases h
  · next bs rest' hs =>
    obtain ⟨read, hread, rfl⟩ := eq_escapedBytes_of_variableBytes hs
    split at h
    · cases h
    · next heven =>
      cases h
      refine ⟨?_, rfl, rfl⟩
      rw [bytes, unitBytes_codeUnits (by simpa using heven), hread]
      rfl

theorem reads_of_binaryKey (h : binaryKey input = .ok (k, rest)) :
    Reads encoding binary input k rest := by
  unfold binaryKey at h
  split at h
  · cases h
  · next bs rest' hs =>
    obtain ⟨read, hread, rfl⟩ := eq_escapedBytes_of_variableBytes hs
    cases h
    refine ⟨?_, rfl, rfl⟩
    rw [hread]
    rfl

theorem reads_of_scalarKey {t : UInt8} (h : scalarKey t encoding input = .ok (k, rest)) :
    Reads encoding t input k rest := by
  unfold scalarKey at h
  split at h
  · next ht => exact ht ▸ reads_of_numberKey h
  · split at h
    · next ht => exact ht ▸ reads_of_dateKey h
    · split at h
      · next ht => exact ht ▸ reads_of_stringKey h
      · split at h
        · next ht => exact ht ▸ reads_of_binaryKey h
        · cases h

mutual

/-- Whatever is accepted are the bytes of the key that is returned. -/
theorem eq_bytes_of_key :
    ∀ {fuel depth : Nat} {input rest : List UInt8} {k : Key},
    key encoding fuel depth input = some (.ok (k, rest)) → depth ≤ maxKeyDepth →
    input = bytes encoding k ++ rest ∧ depth + k.arrayDepth ≤ maxKeyDepth ∧ k.datesInRange = true
  | 0, _, _, _, _, h, _ => by simp [key] at h
  | fuel + 1, depth, [], rest, k, h, _ => by simp [key, byte] at h
  | fuel + 1, depth, t :: input, rest, k, h, hdepth => by
    simp only [key, byte] at h
    split at h
    · obtain ⟨hbytes, hscalar, hdates⟩ := reads_of_scalarKey (Option.some.inj h)
      exact ⟨hbytes, by omega, hdates⟩
    · next htag =>
      split at h
      · cases h
      · obtain ⟨keys, rfl, rfl, hdeep, hdates⟩ := eq_bytesAll_of_arrayKeys h (by omega)
        refine ⟨?_, by rw [nil_append, arrayDepth]; omega, hdates⟩
        rw [bytes, not_not.1 htag, cons_append, append_assoc]
        rfl

theorem eq_bytesAll_of_arrayKeys :
    ∀ {fuel depth : Nat} {input rest : List UInt8} {read : List Key} {k : Key},
    arrayKeys encoding fuel depth input read = some (.ok (k, rest)) → depth + 1 ≤ maxKeyDepth →
    ∃ keys, k = .array (read ++ keys) ∧ input = bytesAll encoding keys ++ 0 :: rest ∧
      depth + 1 + arrayDepthAll keys ≤ maxKeyDepth ∧ datesInRangeAll keys = true
  | 0, _, _, _, _, _, h, _ => by simp [arrayKeys] at h
  | fuel + 1, depth, [], rest, read, k, h, _ => by simp [arrayKeys] at h
  | fuel + 1, depth, b :: input, rest, read, k, h, hdepth => by
    simp only [arrayKeys] at h
    split at h
    · next hb =>
      cases h
      exact ⟨[], by simp, by simp [bytesAll, hb], by simpa [arrayDepthAll] using hdepth, rfl⟩
    · split at h
      · cases h
      · cases h
      · next k' rest' hk =>
        obtain ⟨hinput, hdeep, hdates⟩ := eq_bytes_of_key hk hdepth
        obtain ⟨keys, rfl, rfl, hdeep', hdates'⟩ := eq_bytesAll_of_arrayKeys h hdepth
        refine ⟨k' :: keys, by simp, ?_, ?_, ?_⟩
        · rw [hinput, bytesAll, append_assoc]
        · rw [arrayDepthAll]
          omega
        · rw [datesInRangeAll, hdates, hdates']
          rfl

end

end Decoder

/-! ## The entry points -/

theorem decode_bytes (hdepth : k.arrayDepth ≤ maxKeyDepth) (hdates : k.datesInRange = true) :
    decode (bytes encoding k) encoding = .ok (canonical encoding k) := by
  have hkey := Decoder.key_bytes encoding k (2 * (bytes encoding k).length + 1) 0 []
    (by simp) (by omega) hdates
  rw [append_nil] at hkey
  unfold decode
  simp only [hkey]
  rfl

theorem encode_of_decode (h : decode bs encoding = .ok k) : encode k encoding = .ok bs := by
  unfold decode at h
  split at h
  · cases h
  · next k' rest hget =>
    split at h
    · cases h
    · next hrest =>
      cases h
      have hkey := Option.eq_some_of_isSome (@Decoder.isSome_key encoding (2 * bs.length + 1) 0 bs
        (Nat.succ_pos _) (Nat.le_succ _))
      rw [hget, not_not.1 hrest] at hkey
      obtain ⟨hbytes, hdepth, hdates⟩ := Decoder.eq_bytes_of_key hkey (Nat.zero_le _)
      rw [Nat.zero_add] at hdepth
      rw [append_nil] at hbytes
      exact encode_ok_iff.2 ⟨hdepth, hdates, hbytes⟩

mutual

theorem cmp_of_eq : ∀ {a b : Key}, a.eq b = true → a.cmp b = .eq
  | .number a, b, h => by
    cases b with
    | number b =>
      rw [Key.eq] at h
      rw [Key.cmp, KeyNumber.cmp, if_pos h]
    | _ => simp [Key.eq] at h
  | .date a, b, h => by
    cases b with
    | date b =>
      rw [Key.eq, beq_iff_eq] at h
      rw [Key.cmp, h]
      exact Std.ReflCmp.compare_self
    | _ => simp [Key.eq] at h
  | .string a, b, h => by
    cases b with
    | string b =>
      rw [Key.eq, beq_iff_eq] at h
      rw [Key.cmp, h]
      exact Std.ReflCmp.compare_self
    | _ => simp [Key.eq] at h
  | .binary a, b, h => by
    cases b with
    | binary b =>
      rw [Key.eq, beq_iff_eq] at h
      rw [Key.cmp, h]
      exact Std.ReflCmp.compare_self
    | _ => simp [Key.eq] at h
  | .array a, b, h => by
    cases b with
    | array b => rw [Key.cmp, cmpList_of_eqList h]
    | _ => simp [Key.eq] at h

theorem cmpList_of_eqList : ∀ {as bs : List Key}, eqList as bs = true →
    cmpList as bs = .eq
  | [], [], _ => rfl
  | [], _ :: _, h => by simp [eqList] at h
  | _ :: _, [], h => by simp [eqList] at h
  | a :: as, b :: bs, h => by
    rw [eqList, Bool.and_eq_true] at h
    rw [cmpList, cmp_of_eq h.1, cmpList_of_eqList h.2]
    rfl

end

/-- Equal keys have the same comparison bytes. -/
theorem bytes_eq_of_eq {a b : Key} (h : a.eq b = true) : bytes .ordered a = bytes .ordered b := by
  rw [← lexCmp_eq_iff, (carriesAt_bytes a b).cmp_eq, cmp_of_eq h]

/-- The value format keeps every key, the ordered format keeps it up to equality, and both accept
only the bytes their encoder produces; in particular equal keys have one accepted ordered form. -/
theorem key_format_canonical :
    (∀ k : Key, k.arrayDepth ≤ maxKeyDepth → k.datesInRange = true →
      ∃ bs, k.encodeValue = .ok bs ∧ Key.decodeValue bs = .ok k) ∧
    (∀ k : Key, k.arrayDepth ≤ maxKeyDepth → k.datesInRange = true →
      ∃ bs k', k.encodeOrdered = .ok bs ∧ decodeOrdered bs = .ok k' ∧ k'.eq k = true) ∧
    (∀ bs k, decodeOrdered bs = .ok k → k.encodeOrdered = .ok bs) ∧
    (∀ bs k, Key.decodeValue bs = .ok k → k.encodeValue = .ok bs) ∧
    (∀ bs bs' k k', decodeOrdered bs = .ok k → decodeOrdered bs' = .ok k' →
      k.eq k' = true → bs = bs') := by
  refine ⟨fun k hdepth hdates => ?_, fun k hdepth hdates => ?_, fun bs k => encode_of_decode,
    fun bs k => encode_of_decode, fun bs bs' k k' h h' heq => ?_⟩
  · refine ⟨_, encode_ok_iff.2 ⟨hdepth, hdates, rfl⟩, ?_⟩
    rw [Key.decodeValue, decode_bytes hdepth hdates, canonical_value]
  · exact ⟨_, _, encode_ok_iff.2 ⟨hdepth, hdates, rfl⟩, decode_bytes hdepth hdates,
      canonical_eq .ordered k⟩
  · obtain ⟨-, -, rfl⟩ := encode_ok_iff.1 (encode_of_decode h)
    obtain ⟨-, -, rfl⟩ := encode_ok_iff.1 (encode_of_decode h')
    exact bytes_eq_of_eq heq

/-- The sign of zero survives the value format. -/
theorem key_format_canonical_negZero :
    ∃ bs, (Key.array [.number ⟨0x8000000000000000, by decide⟩]).encodeValue = .ok bs ∧
      Key.decodeValue bs = .ok (.array [.number ⟨0x8000000000000000, by decide⟩]) :=
  key_format_canonical.1 _ (by decide) (by decide)

end Moli.IndexedDb.KeyCodec
