import Moli.IndexedDb.KeyPath
import Moli.Lib.Ensures

/-!
# Stored key paths are canonical

Each reader of the decoder accepts exactly what the encoder writes in front of some rest
(`string_iff`, `strings_iff`, `keyPath_iff`), so decoding is the inverse of encoding
(`key_paths_canonical`).
-/

namespace Moli.IndexedDb.KeyPath

open Lib Lib.BigEndian List

/-- The lengths fit in 32 bits. -/
def Fits : KeyPath → Prop
  | .string path => (asBytes path).length < 2 ^ 32
  | .sequence paths => paths.length < 2 ^ 32 ∧ ∀ path ∈ paths, (asBytes path).length < 2 ^ 32

def stringBytes (string : String) : List UInt8 :=
  beBytes 4 (asBytes string).length ++ asBytes string

def tag : KeyPath → UInt8
  | .string _ => 0
  | .sequence _ => 1

/-- What is written for a key path behind its tag. -/
def body : KeyPath → List UInt8
  | .string path => stringBytes path
  | .sequence paths => beBytes 4 paths.length ++ paths.flatMap stringBytes

variable {u : UnicodeId} {path : KeyPath} {paths : List String} {n : Nat}
  {bytes input rest : List UInt8}

/-! ## Encoding -/

theorem writeString_iff {output : List UInt8} {string : String} :
    writeString output string = .ok bytes ↔
      (asBytes string).length < 2 ^ 32 ∧ bytes = output ++ stringBytes string := by
  unfold writeString stringBytes
  split <;> simp_all [eq_comm]

theorem foldlM_writeString_iff {output : List UInt8} :
    paths.foldlM writeString output = .ok bytes ↔
      (∀ path ∈ paths, (asBytes path).length < 2 ^ 32) ∧
        bytes = output ++ paths.flatMap stringBytes := by
  induction paths generalizing output with
  | nil => simp [pure, Except.pure, eq_comm]
  | cons path paths ih =>
    simp only [foldlM_cons, bind_eq_ok, writeString_iff, ih, forall_mem_cons]
    constructor
    · rintro ⟨_, ⟨hpath, rfl⟩, hpaths, rfl⟩
      exact ⟨⟨hpath, hpaths⟩, append_assoc ..⟩
    · rintro ⟨⟨hpath, hpaths⟩, rfl⟩
      exact ⟨_, ⟨hpath, rfl⟩, hpaths, (append_assoc ..).symm⟩

theorem encodeValue_iff :
    encodeValue u path = .ok bytes ↔
      path.isValid u = true ∧ path.Fits ∧ bytes = path.tag :: path.body := by
  unfold encodeValue
  cases path.isValid u with
  | false => simp
  | true =>
    cases path with
    | string path => simp [writeString_iff, Fits, tag, body]
    | sequence paths =>
      by_cases hlength : paths.length < 2 ^ 32 <;>
        simp [-Nat.reducePow, hlength, foldlM_writeString_iff, Fits, tag, body]

/-! ## Decoding -/

namespace Input

theorem take_iff :
    take n input = .ok (bytes, rest) ↔ bytes.length = n ∧ input = bytes ++ rest := by
  unfold take
  constructor
  · intro h
    split at h
    · next hle =>
      cases h
      exact ⟨length_take_of_le hle, (take_append_drop ..).symm⟩
    · cases h
  · rintro ⟨rfl, rfl⟩
    simp

theorem count_iff : count input = .ok (n, rest) ↔ n < 2 ^ 32 ∧ input = beBytes 4 n ++ rest := by
  simp only [count, bind_eq_ok, Prod.exists, take_iff, Except.ok.injEq, Prod.mk.injEq]
  constructor
  · rintro ⟨bytes, _, ⟨hlength, rfl⟩, rfl, rfl⟩
    have hlt := ofBeBytes_lt bytes
    rw [hlength] at hlt
    refine ⟨hlt, ?_⟩
    rw [← hlength, beBytes_ofBeBytes]
  · rintro ⟨hlt, rfl⟩
    exact ⟨_, _, ⟨length_beBytes 4 n, rfl⟩, ofBeBytes_beBytes (k := 4) hlt, rfl⟩

theorem fromUtf8_iff {value : String} : fromUtf8 bytes = .ok value ↔ bytes = asBytes value := by
  unfold fromUtf8 String.fromUTF8?
  constructor
  · intro h
    split at h
    · next hsome =>
      split at hsome
      · cases hsome
        cases h
        rfl
      · cases hsome
    · cases h
  · rintro rfl
    have hvalid := value.isValidUTF8
    simp [asBytes, hvalid, String.fromUTF8]

theorem string_iff {value : String} :
    string input = .ok (value, rest) ↔
      (asBytes value).length < 2 ^ 32 ∧ input = stringBytes value ++ rest := by
  simp only [string, bind_eq_ok, Prod.exists, count_iff, take_iff, fromUtf8_iff, Except.ok.injEq,
    Prod.mk.injEq]
  constructor
  · rintro ⟨_, _, ⟨hlt, rfl⟩, _, _, ⟨rfl, rfl⟩, _, rfl, rfl, rfl⟩
    exact ⟨hlt, rfl⟩
  · rintro ⟨hlt, rfl⟩
    exact ⟨_, _, ⟨hlt, rfl⟩, _, _, ⟨rfl, rfl⟩, _, rfl, rfl, rfl⟩

theorem strings_iff :
    strings n input = .ok (paths, rest) ↔
      paths.length = n ∧ (∀ path ∈ paths, (asBytes path).length < 2 ^ 32) ∧
        input = paths.flatMap stringBytes ++ rest := by
  induction n generalizing paths input rest with
  | zero =>
    simp only [strings, length_eq_zero_iff]
    constructor
    · rintro ⟨rfl, rfl⟩
      simp
    · rintro ⟨rfl, -, rfl⟩
      simp
  | succ n ih =>
    simp only [strings, bind_eq_ok, Prod.exists, string_iff, ih, Except.ok.injEq, Prod.mk.injEq]
    constructor
    · rintro ⟨path, _, ⟨hpath, rfl⟩, paths, _, ⟨rfl, hpaths, rfl⟩, rfl, rfl⟩
      exact ⟨rfl, forall_mem_cons.2 ⟨hpath, hpaths⟩, by simp⟩
    · rintro ⟨hlength, hpaths, rfl⟩
      obtain ⟨path, paths, rfl⟩ := exists_cons_of_length_eq_add_one hlength
      obtain ⟨hpath, hpaths⟩ := forall_mem_cons.1 hpaths
      exact ⟨path, _, ⟨hpath, by simp⟩, paths, rest,
        ⟨Nat.succ.inj hlength, hpaths, rfl⟩, rfl, rfl⟩

/-- The check of the count never refuses what was written. -/
theorem length_le_flatMap (paths : List String) :
    paths.length ≤ (paths.flatMap stringBytes ++ rest).length / 4 := by
  have hmul : 4 * paths.length ≤ (paths.flatMap stringBytes).length := by
    induction paths with
    | nil => simp
    | cons path paths ih =>
      rw [flatMap_cons, length_append, stringBytes, length_append, length_beBytes, length_cons]
      omega
  rw [length_append]
  omega

theorem keyPath_iff {t : UInt8} :
    keyPath t input = .ok (path, rest) ↔ t = path.tag ∧ path.Fits ∧ input = path.body ++ rest := by
  unfold keyPath
  split
  · simp only [bind_eq_ok, Prod.exists, string_iff, Except.ok.injEq, Prod.mk.injEq]
    constructor
    · rintro ⟨_, _, ⟨hlt, rfl⟩, rfl, rfl⟩
      exact ⟨rfl, hlt, rfl⟩
    · rintro ⟨htag, hfits, rfl⟩
      cases path with
      | string path => exact ⟨_, _, ⟨hfits, rfl⟩, rfl, rfl⟩
      | sequence paths => cases htag
  · simp only [bind_eq_ok, Prod.exists, count_iff]
    constructor
    · rintro ⟨_, _, ⟨hlt, rfl⟩, h⟩
      split at h
      · cases h
      · simp only [bind_eq_ok, Prod.exists, strings_iff] at h
        obtain ⟨_, _, ⟨rfl, hpaths, rfl⟩, rfl, rfl⟩ := h
        exact ⟨rfl, ⟨hlt, hpaths⟩, (append_assoc ..).symm⟩
    · rintro ⟨htag, hfits, rfl⟩
      cases path with
      | string path => cases htag
      | sequence paths =>
        refine ⟨_, _, ⟨hfits.1, append_assoc ..⟩, ?_⟩
        rw [if_neg (Nat.not_lt.2 (length_le_flatMap paths))]
        simp only [bind_eq_ok, Prod.exists, strings_iff]
        exact ⟨_, _, ⟨rfl, hfits.2, rfl⟩, rfl⟩
  · next hstring hsequence =>
    refine ⟨fun h => (nomatch h), fun h => ?_⟩
    cases path with
    | string path => exact (hstring h.1).elim
    | sequence paths => exact (hsequence h.1).elim

end Input

theorem decodeValue_iff : decodeValue u bytes = .ok path ↔ encodeValue u path = .ok bytes := by
  rw [encodeValue_iff]
  unfold decodeValue
  split
  · simp
  · simp only [bind_eq_ok, Prod.exists, Input.keyPath_iff]
    constructor
    · rintro ⟨_, _, ⟨rfl, hfits, rfl⟩, h⟩
      split at h
      · cases h
      · next hend =>
        cases h
        simp only [Bool.or_eq_true, decide_eq_true_eq, not_or, not_not,
          length_eq_zero_iff, Bool.not_eq_true', Bool.not_eq_false] at hend
        rw [hend.1, append_nil]
        exact ⟨hend.2, hfits, rfl⟩
    · rintro ⟨hvalid, hfits, heq⟩
      cases heq
      exact ⟨path, [], ⟨rfl, hfits, (append_nil _).symm⟩, by simp [hvalid]⟩

/-- No encoding starts with another one. -/
theorem eq_nil_of_encodeValue_append {path' : KeyPath} (h : encodeValue u path = .ok bytes)
    (h' : encodeValue u path' = .ok (bytes ++ rest)) : rest = [] := by
  obtain ⟨-, hfits, rfl⟩ := encodeValue_iff.1 h
  obtain ⟨-, hfits', heq⟩ := encodeValue_iff.1 h'
  obtain ⟨htag, hbody⟩ := List.cons.inj heq
  have hread : Input.keyPath path.tag (path.body ++ rest) = .ok (path, rest) :=
    Input.keyPath_iff.2 ⟨rfl, hfits, rfl⟩
  have hread' : Input.keyPath path'.tag path'.body = .ok (path', []) :=
    Input.keyPath_iff.2 ⟨rfl, hfits', (append_nil _).symm⟩
  rw [← htag, ← hbody] at hread'
  exact (Prod.mk.inj (Except.ok.inj (hread.symm.trans hread'))).2

/-- A valid key path whose lengths fit is read back, and what is read is the encoding of the result.
So encodings are unique, and bytes behind one, a part of one or another tag are rejected. -/
theorem key_paths_canonical (u : UnicodeId) :
    (∀ path : KeyPath, path.isValid u = true → path.Fits →
      ∃ bytes, encodeValue u path = .ok bytes ∧ decodeValue u bytes = .ok path) ∧
    (∀ bytes path, decodeValue u bytes = .ok path → encodeValue u path = .ok bytes) ∧
    (∀ path path' bytes, encodeValue u path = .ok bytes → encodeValue u path' = .ok bytes →
      path = path') ∧
    (∀ path bytes rest path', encodeValue u path = .ok bytes → rest ≠ [] →
      decodeValue u (bytes ++ rest) ≠ .ok path') ∧
    (∀ path bytes n path', encodeValue u path = .ok bytes → n < bytes.length →
      decodeValue u (bytes.take n) ≠ .ok path') ∧
    (∀ t input path, t ≠ 0 → t ≠ 1 → decodeValue u (t :: input) ≠ .ok path) := by
  simp only [ne_eq, decodeValue_iff]
  refine ⟨fun path hvalid hfits => ?_, fun _ _ h => h, fun path path' bytes h h' => ?_,
    fun path bytes rest path' h hrest h' => hrest (eq_nil_of_encodeValue_append h h'),
    fun path bytes n path' h hn h' => ?_, fun t input path h0 h1 h => ?_⟩
  · exact ⟨_, and_self_iff.2 (encodeValue_iff.2 ⟨hvalid, hfits, rfl⟩)⟩
  · exact Except.ok.inj ((decodeValue_iff.2 h).symm.trans (decodeValue_iff.2 h'))
  · rw [← take_append_drop n bytes] at h
    have hnil := eq_nil_of_encodeValue_append h' h
    exact absurd (drop_eq_nil_iff.1 hnil) (Nat.not_le.2 hn)
  · obtain ⟨-, -, heq⟩ := encodeValue_iff.1 h
    cases path with
    | string path => exact h0 (List.cons.inj heq).1
    | sequence paths => exact h1 (List.cons.inj heq).1

end Moli.IndexedDb.KeyPath
