import Moli.LevelDb.Table
import Moli.Lib.Ensures

/-!
# Blocks decode soundly and completely

A reader that accepts `bytes` has read the front of them and would read the same from that front
with anything behind it (`Reads`); and it reads back what the format writes.

`Entry` is an entry of a block with the text of its lengths, `readings` what a list of entries says,
starting from a key. The scan of a block reads a list of entries that makes up the whole region
(`scanEntries_sound`), and reads every such list with the restart points on entries that share
nothing (`scanEntries_complete`).
-/

namespace Moli.LevelDb

/-! ## Fields -/

section

open Lib

variable {α β : Type} {bytes rest front : Bytes}

/-- The front alone decides what is read. -/
def Reads (reader : Bytes → Except ParseError (α × Bytes)) (front : Bytes) (a : α) : Prop :=
  ∀ rest, reader (front ++ rest) = .ok (a, rest)

/-- What a reader accepts, it read off the front. -/
def Frontal (reader : Bytes → Except ParseError (α × Bytes)) : Prop :=
  ∀ bytes a rest, reader bytes = .ok (a, rest) → ∃ front, bytes = front ++ rest ∧
    Reads reader front a

theorem ensure_ok {condition : Bool} {error : ParseError} :
    ensure condition error = .ok () ↔ condition = true := by
  unfold ensure
  split_ifs with h
  · exact iff_of_true rfl h
  · exact iff_of_false (fun h => by cases h) h

theorem Reads.bind {reader : Bytes → Except ParseError (α × Bytes)}
    {next : α → Bytes → Except ParseError (β × Bytes)} {front' : Bytes} {a : α} {b : β}
    (h : Reads reader front a) (h' : Reads (next a) front' b) :
    Reads (fun bytes => reader bytes >>= fun x => next x.1 x.2) (front ++ front') b := by
  intro rest
  show (reader (front ++ front' ++ rest) >>= _) = _
  rw [List.append_assoc, h]
  exact h' rest

theorem Frontal.bind {reader : Bytes → Except ParseError (α × Bytes)}
    {next : α → Bytes → Except ParseError (β × Bytes)} (h : Frontal reader)
    (h' : ∀ a, Frontal (next a)) :
    Frontal fun bytes => reader bytes >>= fun x => next x.1 x.2 := by
  intro bytes b rest hread
  obtain ⟨x, hx, hnext⟩ := bind_eq_ok.1 hread
  obtain ⟨front, rfl, hfront⟩ := h bytes x.1 x.2 hx
  obtain ⟨front', hrest, hfront'⟩ := h' x.1 x.2 b rest hnext
  exact ⟨front ++ front', by rw [hrest, List.append_assoc], hfront.bind hfront'⟩

/-! ## Bytes and fields -/

theorem take_append {length : Nat} (h : front.length = length) :
    Reads (take length) front front := by
  intro rest
  subst h
  rw [take, if_pos (by simp), List.take_left, List.drop_left]

theorem take_ok {length : Nat} {taken : Bytes} (h : take length bytes = .ok (taken, rest)) :
    bytes = taken ++ rest ∧ taken.length = length := by
  unfold take at h
  split_ifs at h with hle
  cases h
  exact ⟨(List.take_append_drop _ _).symm, List.length_take_of_le hle⟩

/-! ## Lengths -/

theorem frontal_varint32From (value : Nat) (shifts : List Nat) :
    Frontal (varint32From value shifts) := by
  induction shifts generalizing value with
  | nil => exact fun _ _ _ h => by cases h
  | cons shift shifts ih =>
    intro bytes n rest h
    cases bytes with
    | nil => cases h
    | cons byte bytes =>
      rw [varint32From] at h
      split_ifs at h with hover hlast
      · cases h
        refine ⟨[byte], rfl, fun rest => ?_⟩
        rw [List.singleton_append, varint32From, if_neg hover, if_pos hlast]
      · obtain ⟨front, rfl, hfront⟩ := ih _ bytes n rest h
        refine ⟨byte :: front, rfl, fun rest => ?_⟩
        rw [List.cons_append, varint32From, if_neg hover, if_neg hlast]
        exact hfront rest

theorem frontal_varint32 : Frontal varint32 := frontal_varint32From 0 _

/-- A group of seven bits goes above the bits that were read. -/
theorem or_shift {value shift digit : Nat} (h : value < 2 ^ shift) :
    value ||| digit <<< shift = value + digit * 2 ^ shift := by
  rw [Nat.or_comm, ← Nat.shiftLeft_add_eq_or_of_lt h, Nat.shiftLeft_eq, Nat.add_comm]

/-- The shifts of the last `k` of five groups. -/
def lastShifts : Nat → List Nat
  | 0 => []
  | k + 1 => (28 - 7 * k) :: lastShifts k

theorem varint32From_append {k : Nat} (hk : k < 5) {value n : Nat}
    (hvalue : value < 2 ^ (28 - 7 * k)) (hn : value + n * 2 ^ (28 - 7 * k) < 2 ^ 32) :
    Reads (varint32From value (lastShifts (k + 1))) (varintBytes n)
      (value + n * 2 ^ (28 - 7 * k)) := by
  have hdigit : ∀ m, m < 128 → ∀ n, (UInt8.ofNat (m + n * 128)).toNat &&& 127 = m := by
    intro m hm n
    have hand := Nat.and_two_pow_sub_one_eq_mod (UInt8.ofNat (m + n * 128)).toNat 7
    rw [hand, UInt8.toNat_ofNat']
    omega
  induction k generalizing value n with
  | zero =>
    intro rest
    have hbyte : (UInt8.ofNat n).toNat = n := UInt8.toNat_ofNat_of_lt' (by show n < 256; omega)
    rw [varintBytes_of_lt (by omega), List.singleton_append, lastShifts, varint32From,
      if_neg fun h => absurd (UInt8.lt_iff_toNat_lt.1 h.2) (by rw [hbyte]; show ¬ 15 < n; omega),
      if_pos (UInt8.lt_iff_toNat_lt.2 (by rw [hbyte]; show n < 128; omega))]
    have hand := hdigit n (by omega) 0
    rw [Nat.add_zero] at hand
    rw [hand, or_shift hvalue]
  | succ k ih =>
    intro rest
    have hpow : 2 ^ (28 - 7 * k) = 128 * 2 ^ (28 - 7 * (k + 1)) := by
      rw [show 28 - 7 * k = (28 - 7 * (k + 1)) + 7 by omega, pow_add, Nat.mul_comm]
      rfl
    have hshift : ¬ (28 - 7 * (k + 1) = 28) := by omega
    rw [lastShifts]
    by_cases hlast : n < 128
    · have hbyte : (UInt8.ofNat n).toNat = n := UInt8.toNat_ofNat_of_lt' (by show n < 256; omega)
      rw [varintBytes_of_lt hlast, List.singleton_append, varint32From, if_neg fun h => hshift h.1,
        if_pos (UInt8.lt_iff_toNat_lt.2 (by rw [hbyte]; exact hlast))]
      have hand := hdigit n hlast 0
      rw [Nat.add_zero] at hand
      rw [hand, or_shift hvalue]
    · have hbyte : (UInt8.ofNat (n % 128 + 128)).toNat = n % 128 + 128 :=
        UInt8.toNat_ofNat_of_lt' (by show _ < 256; omega)
      have hsum : value + n % 128 * 2 ^ (28 - 7 * (k + 1)) + n / 128 * 2 ^ (28 - 7 * k) =
          value + n * 2 ^ (28 - 7 * (k + 1)) := by
        rw [hpow, Nat.add_assoc, ← Nat.mul_assoc, ← Nat.add_mul, Nat.mul_comm (n / 128),
          Nat.mod_add_div]
      have hless : value + n % 128 * 2 ^ (28 - 7 * (k + 1)) < 2 ^ (28 - 7 * k) := by
        have hmod : n % 128 * 2 ^ (28 - 7 * (k + 1)) ≤ 127 * 2 ^ (28 - 7 * (k + 1)) :=
          Nat.mul_le_mul_right _ (by omega)
        omega
      rw [varintBytes_of_le (by omega), List.cons_append, varint32From, if_neg fun h => hshift h.1,
        if_neg fun h => absurd (UInt8.lt_iff_toNat_lt.1 h) (by rw [hbyte]; show ¬ _ < 128; omega)]
      have hand := hdigit (n % 128) (by omega) 1
      rw [hand, or_shift hvalue, ← hsum]
      exact ih (by omega) hless (by rw [hsum]; exact hn) rest

theorem varint32_append {n : Nat} (hn : n < 2 ^ 32) : Reads varint32 (varintBytes n) n := by
  intro rest
  have h := @varint32From_append 4 (by decide) 0 n (by decide) (by simpa using hn) rest
  simpa [varint32, lastShifts] using h

end

/-! ## Entries -/

open Lib List

/-- An entry with the bytes of its lengths. -/
structure Entry where
  shared : Nat
  lengths : Bytes
  suffix : Bytes
  value : Bytes
  reads : Reads readLengths lengths (shared, suffix.length, value.length)

namespace Entry

def bytes (entry : Entry) : Bytes := entry.lengths ++ entry.suffix ++ entry.value

def key (before : Bytes) (entry : Entry) : Bytes := before.take entry.shared ++ entry.suffix

end Entry

def allBytes (entries : List Entry) : Bytes := entries.flatMap Entry.bytes

theorem length_allBytes_cons (entry : Entry) (entries : List Entry) :
    (allBytes (entry :: entries)).length = entry.bytes.length + (allBytes entries).length :=
  length_append

/-- The keys and values of entries that come after a key. -/
def readings (key : Bytes) : List Entry → List (Bytes × Bytes)
  | [] => []
  | entry :: entries => (entry.key key, entry.value) :: readings (entry.key key) entries

/-- No entry shares more than the key before it has. -/
def Shares (key : Bytes) : List Entry → Prop
  | [] => True
  | entry :: entries => entry.shared ≤ key.length ∧ Shares (entry.key key) entries

theorem readings_append (key : Bytes) (left : List Entry) :
    ∃ middle, ∀ right, readings key (left ++ right) = readings key left ++ readings middle right ∧
      (Shares key (left ++ right) ↔ Shares key left ∧ Shares middle right) := by
  induction left generalizing key with
  | nil => exact ⟨key, fun right => ⟨rfl, by simp [Shares]⟩⟩
  | cons entry left ih =>
    obtain ⟨middle, hmiddle⟩ := ih (entry.key key)
    refine ⟨middle, fun right => ⟨?_, ?_⟩⟩
    · rw [cons_append, readings, (hmiddle right).1]
      rfl
    · rw [cons_append, Shares, (hmiddle right).2, ← and_assoc]
      rfl

/-- An entry that shares nothing reads the same after every key. -/
theorem readings_of_shared_eq_zero {entry : Entry} (h : entry.shared = 0) (key key' : Bytes)
    (entries : List Entry) :
    readings key (entry :: entries) = readings key' (entry :: entries) ∧
      (Shares key (entry :: entries) → Shares key' (entry :: entries)) := by
  have hkey : entry.key key = entry.key key' := by rw [Entry.key, Entry.key, h]; rfl
  refine ⟨by rw [readings, readings, hkey], fun hshares => ⟨by omega, ?_⟩⟩
  rw [← hkey]
  exact hshares.2

theorem length_readings (key : Bytes) (entries : List Entry) :
    (readings key entries).length = entries.length := by
  induction entries generalizing key with
  | nil => rfl
  | cons entry entries ih => rw [readings, length_cons, length_cons, ih]

/-! ## One entry -/

theorem frontal_readLengths : Frontal readLengths := by
  have hend (shared unshared valueLength : Nat) :
      Frontal fun rest => .ok ((shared, unshared, valueLength), rest) :=
    fun bytes lengths rest h => by cases h; exact ⟨[], rfl, fun rest => rfl⟩
  exact frontal_varint32.bind fun shared => frontal_varint32.bind fun unshared =>
    frontal_varint32.bind fun valueLength => hend shared unshared valueLength

theorem Entry.bytes_ne_nil (entry : Entry) : entry.bytes ≠ [] := by
  intro h
  have hlengths : entry.lengths = [] :=
    (append_eq_nil_iff.1 (append_eq_nil_iff.1 h).1).1
  have hreads := entry.reads []
  rw [hlengths] at hreads
  cases hreads

theorem readEntry_ok {entriesEnd : Nat} {key input rest : Bytes} {restarts left : List Nat}
    {entry : Bytes × Bytes}
    (h : readEntry entriesEnd key restarts input = .ok (entry, left, rest)) :
    ∃ e : Entry, input = e.bytes ++ rest ∧ e.shared ≤ key.length ∧ entry = (e.key key, e.value) ∧
      passRestart (entriesEnd - input.length) e.shared restarts = .ok left := by
  obtain ⟨⟨⟨shared, unshared, valueLength⟩, input₁⟩, hlengths, h₁⟩ := bind_eq_ok.1 h
  obtain ⟨_, hshared, h₂⟩ := bind_eq_ok.1 h₁
  obtain ⟨left', hleft, h₃⟩ := bind_eq_ok.1 h₂
  obtain ⟨⟨suffix, input₂⟩, hsuffix, h₄⟩ := bind_eq_ok.1 h₃
  obtain ⟨⟨value, input₃⟩, hvalue, h₅⟩ := bind_eq_ok.1 h₄
  obtain ⟨front, rfl, hfront⟩ := frontal_readLengths _ _ _ hlengths
  obtain ⟨rfl, rfl⟩ := take_ok hsuffix
  obtain ⟨rfl, rfl⟩ := take_ok hvalue
  cases h₅
  refine ⟨⟨shared, front, suffix, value, hfront⟩, ?_, of_decide_eq_true (ensure_ok.1 hshared), rfl,
    hleft⟩
  simp [Entry.bytes]

theorem readEntry_append {entriesEnd : Nat} {key rest : Bytes} {restarts left : List Nat}
    {e : Entry} (hshared : e.shared ≤ key.length)
    (hpass : passRestart (entriesEnd - (e.bytes ++ rest).length) e.shared restarts = .ok left) :
    readEntry entriesEnd key restarts (e.bytes ++ rest) =
      .ok ((e.key key, e.value), left, rest) := by
  have hbytes : e.bytes ++ rest = e.lengths ++ (e.suffix ++ (e.value ++ rest)) := by
    simp [Entry.bytes]
  rw [readEntry, show readLengths (e.bytes ++ rest) = _ from hbytes ▸ e.reads _]
  show ((ensure _ _ : Except ParseError Unit) >>= _) = _
  rw [show ensure (decide (e.shared ≤ key.length)) .invalidKeyLength = .ok () from
    ensure_ok.2 (decide_eq_true hshared)]
  rw [hpass]
  rw [take_append rfl]
  show (take _ _ >>= _) = _
  rw [take_append rfl]
  rfl

/-! ## The scan -/

/-- The restart points among the entries, at which nothing is shared. -/
def RestartsAt (start : Nat) (entries : List Entry) (restarts : List Nat) : Prop :=
  ∀ restart ∈ restarts, ∃ before entry after, entries = before ++ entry :: after ∧
    restart = start + (allBytes before).length ∧ entry.shared = 0

theorem scanEntries_sound {entriesEnd fuel : Nat} {key input : Bytes} {restarts left : List Nat}
    {visited : List (Bytes × Bytes)} (hfuel : input.length ≤ fuel)
    (hend : input.length ≤ entriesEnd)
    (h : scanEntries entriesEnd fuel key restarts input = .ok (visited, left)) :
    ∃ entries passed, input = allBytes entries ∧ Shares key entries ∧
      visited = readings key entries ∧
      restarts = passed ++ left ∧ RestartsAt (entriesEnd - input.length) entries passed := by
  induction fuel generalizing key input restarts visited with
  | zero =>
    obtain rfl : input = [] := length_eq_zero_iff.1 (Nat.le_zero.1 hfuel)
    cases h
    exact ⟨[], [], rfl, trivial, rfl, rfl, fun _ hr => by cases hr⟩
  | succ fuel ih =>
    rw [scanEntries] at h
    split_ifs at h with hempty
    · cases h
      exact ⟨[], [], isEmpty_iff.1 hempty, trivial, rfl, rfl, fun _ hr => by cases hr⟩
    · obtain ⟨⟨entry, restarts', rest⟩, hentry, h⟩ := bind_eq_ok.1 h
      obtain ⟨⟨visited', left'⟩, hrest, h⟩ := bind_eq_ok.1 h
      cases h
      obtain ⟨e, rfl, hshared, rfl, hpass⟩ := readEntry_ok hentry
      have hpos := length_pos_iff.2 e.bytes_ne_nil
      rw [length_append] at hfuel hend
      obtain ⟨entries, passed, rfl, hshares, rfl, rfl, hat⟩ := ih (by omega) (by omega) hrest
      have hoffset : entriesEnd - (allBytes entries).length =
          entriesEnd - (e.bytes ++ allBytes entries).length + e.bytes.length := by
        rw [length_append]
        omega
      have hlater : ∀ restart ∈ passed, ∃ before entry after, e :: entries = before ++
        entry :: after ∧
          restart = entriesEnd - (e.bytes ++ allBytes entries).length + (allBytes before).length ∧
            entry.shared = 0 := by
        intro restart hrestart
        obtain ⟨before, entry, after, hsplit, hat', hzero⟩ := hat restart hrestart
        refine ⟨e :: before, entry, after, by rw [hsplit]; rfl, ?_, hzero⟩
        rw [hat', hoffset, length_allBytes_cons, Nat.add_assoc]
      unfold passRestart at hpass
      split at hpass
      · have hnil := append_eq_nil_iff.1 (Except.ok.inj hpass).symm
        refine ⟨e :: entries, [], rfl, ⟨hshared, hshares⟩, rfl, hnil.2.symm,
          fun _ hr => by cases hr⟩
      next restart rest =>
        split_ifs at hpass with hless heq hzero
        · cases hpass
          refine ⟨e :: entries, restart :: passed, rfl, ⟨hshared, hshares⟩, rfl, rfl, ?_⟩
          intro restart' hrestart'
          rcases mem_cons.1 hrestart' with rfl | hrestart'
          · exact ⟨[], e, entries, rfl, by simpa [allBytes] using heq, hzero⟩
          · exact hlater restart' hrestart'
        · refine ⟨e :: entries, passed, rfl, ⟨hshared, hshares⟩, rfl, ?_, hlater⟩
          exact Except.ok.inj hpass

/-- The offsets of the entries that are marked. -/
def markedOffsets (start : Nat) : List (Bool × Entry) → List Nat
  | [] => []
  | (mark, entry) :: rest =>
    (if mark then [start] else []) ++ markedOffsets (start + entry.bytes.length) rest

theorem markedOffsets_unmarked (start : Nat) (entries : List Entry) :
    markedOffsets start (entries.map (Prod.mk false)) = [] := by
  induction entries generalizing start with
  | nil => rfl
  | cons entry entries ih => exact ih _

theorem le_markedOffsets {start restart : Nat} {entries : List (Bool × Entry)}
    (h : restart ∈ markedOffsets start entries) :
    start ≤ restart ∧ restart < start + (allBytes (entries.map (·.2))).length := by
  induction entries generalizing start with
  | nil => cases h
  | cons entry entries ih =>
    obtain ⟨mark, entry⟩ := entry
    have hpos := length_pos_iff.2 entry.bytes_ne_nil
    rw [show ((mark, entry) :: entries).map (·.2) = entry :: entries.map (·.2) from rfl,
      length_allBytes_cons]
    rcases mem_append.1 h with h | h
    · split_ifs at h
      · rw [mem_singleton.1 h]
        omega
      · cases h
    · have := ih h
      omega

theorem scanEntries_complete {entriesEnd fuel start : Nat} {key : Bytes}
    {entries : List (Bool × Entry)} (hfuel : (allBytes (entries.map (·.2))).length ≤ fuel)
    (hstart : start + (allBytes (entries.map (·.2))).length = entriesEnd)
    (hshares : Shares key (entries.map (·.2)))
    (hmarks : ∀ e ∈ entries, e.1 = true → e.2.shared = 0) :
    scanEntries entriesEnd fuel key (markedOffsets start entries) (allBytes (entries.map (·.2))) =
      .ok (readings key (entries.map (·.2)), []) := by
  induction entries generalizing key start fuel with
  | nil => cases fuel <;> rfl
  | cons entry entries ih =>
    obtain ⟨mark, entry⟩ := entry
    have hpos := length_pos_iff.2 entry.bytes_ne_nil
    have hcons : allBytes (((mark, entry) :: entries).map (·.2)) =
        entry.bytes ++ allBytes (entries.map (·.2)) := rfl
    rw [hcons] at hfuel hstart ⊢
    have hoffset : entriesEnd - (entry.bytes ++ allBytes (entries.map (·.2))).length =
        start := by omega
    rw [length_append] at hfuel hstart
    obtain ⟨fuel, rfl⟩ : ∃ k, fuel = k + 1 := ⟨fuel - 1, by omega⟩
    have hpass : passRestart start entry.shared (markedOffsets start ((mark, entry) :: entries)) =
        .ok (markedOffsets (start + entry.bytes.length) entries) := by
      rw [markedOffsets]
      cases mark with
      | true =>
        have hzero := hmarks (true, entry) mem_cons_self rfl
        simp [passRestart, show entry.shared = 0 from hzero]
      | false =>
        rw [if_neg (by simp), nil_append]
        cases hrest : markedOffsets (start + entry.bytes.length) entries with
        | nil => rfl
        | cons restart rest =>
          have hle := (le_markedOffsets (hrest ▸ mem_cons_self : restart ∈ _)).1
          rw [passRestart, if_neg (by omega), if_neg (by omega)]
    rw [scanEntries, if_neg (by simp [entry.bytes_ne_nil]),
      readEntry_append hshares.1 (by rw [hoffset]; exact hpass)]
    have hrest :=
      @ih fuel (start + entry.bytes.length) (entry.key key) (by omega) (by omega) hshares.2
      fun e he => hmarks e (mem_cons_of_mem _ he)
    show (scanEntries entriesEnd fuel _ _ _ >>= _) = _
    rw [hrest]
    rfl

/-! ## The restart points -/

/-- A block of a region of entries with its restart points. -/
def blockBytes (region : Bytes) (restarts : List Nat) : Bytes :=
  region ++ (restarts.flatMap (leBytes 4) ++ leBytes 4 restarts.length)

/-- The offsets and their number have four bytes each. -/
def RestartsFit (restarts : List Nat) : Prop :=
  restarts.length < 2 ^ 32 ∧ ∀ restart ∈ restarts, restart < 2 ^ 32

theorem length_flatMap_leBytes (restarts : List Nat) :
    (restarts.flatMap (leBytes 4)).length = 4 * restarts.length := by
  induction restarts with
  | nil => rfl
  | cons restart restarts ih =>
    rw [flatMap_cons, length_append, length_leBytes, length_cons]
    omega

theorem readU32s_flatMap {restarts : List Nat} (h : ∀ restart ∈ restarts, restart < 2 ^ 32) :
    readU32s restarts.length (restarts.flatMap (leBytes 4)) = restarts := by
  induction restarts with
  | nil => rfl
  | cons restart restarts ih =>
    have hlength := length_leBytes 4 restart
    rw [flatMap_cons, length_cons, readU32s, take_left' hlength, drop_left' hlength,
      leValue_leBytes (h restart mem_cons_self), ih fun r hr => h r (mem_cons_of_mem _ hr)]

theorem flatMap_readU32s {count : Nat} {bytes : Bytes} (h : bytes.length = 4 * count) :
    (readU32s count bytes).flatMap (leBytes 4) = bytes ∧ (readU32s count bytes).length = count := by
  induction count generalizing bytes with
  | zero => exact ⟨(length_eq_zero_iff.1 h).symm, rfl⟩
  | succ count ih =>
    have hfront : (bytes.take 4).length = 4 := by rw [length_take]; omega
    obtain ⟨hbytes, hlength⟩ := @ih (bytes.drop 4) (by rw [length_drop]; omega)
    refine ⟨?_, by rw [readU32s, length_cons, hlength]⟩
    have hfirst := leBytes_leValue (bytes.take 4)
    rw [hfront] at hfirst
    rw [readU32s, flatMap_cons, hfirst, hbytes, take_append_drop]

theorem splitRestarts_blockBytes {region : Bytes} {restarts : List Nat}
    (hfit : RestartsFit restarts) (hempty : restarts = [] → region = []) :
    splitRestarts (blockBytes region restarts) = .ok (region, restarts) := by
  have harray := length_flatMap_leBytes restarts
  have hassoc : blockBytes region restarts =
      region ++ restarts.flatMap (leBytes 4) ++ leBytes 4 restarts.length := by
    rw [blockBytes, append_assoc]
  have hbody : (blockBytes region restarts).length - 4 =
      (region ++ restarts.flatMap (leBytes 4)).length := by
    rw [hassoc, length_append, length_leBytes, Nat.add_sub_cancel]
  have hregion : (region ++ restarts.flatMap (leBytes 4)).length - 4 * restarts.length =
      region.length := by
    rw [length_append, harray, Nat.add_sub_cancel]
  have hcount : 4 * restarts.length ≤ (region ++ restarts.flatMap (leBytes 4)).length := by
    rw [length_append]
    omega
  have hfour : 4 ≤ (blockBytes region restarts).length := by
    rw [hassoc, length_append, length_leBytes]
    omega
  rw [splitRestarts, ensure_ok.2 (decide_eq_true hfour)]
  show (ensure _ _ >>= _) = _
  rw [hbody, hassoc, take_left, drop_left, leValue_leBytes hfit.1,
    ensure_ok.2 (decide_eq_true hcount)]
  dsimp only [bind]
  rw [hregion, take_left, drop_left, readU32s_flatMap hfit.2]
  split_ifs with hnone
  · rw [ensure_ok.2 (isEmpty_iff.2 (hempty (isEmpty_iff.1 hnone)))]
    rfl
  · rfl

theorem splitRestarts_ok {block region : Bytes} {restarts : List Nat}
    (h : splitRestarts block = .ok (region, restarts)) : block = blockBytes region restarts := by
  obtain ⟨_, hfour, h₁⟩ := bind_eq_ok.1 h
  obtain ⟨_, hcount, h₂⟩ := bind_eq_ok.1 h₁
  have hfour := of_decide_eq_true (ensure_ok.1 hfour)
  have hcount := of_decide_eq_true (ensure_ok.1 hcount)
  dsimp only at h₂
  set body := block.take (block.length - 4)
  set count := leValue (block.drop (block.length - 4)) with hvalue
  have hparts :
      (body.take (body.length - 4 * count), readU32s count (body.drop (body.length - 4 * count))) =
      (region, restarts) := by
    split_ifs at h₂
    · obtain ⟨_, -, h₃⟩ := bind_eq_ok.1 h₂
      exact Except.ok.inj h₃
    · exact Except.ok.inj h₂
  obtain ⟨rfl, rfl⟩ := Prod.mk.inj hparts
  obtain ⟨harray, hlength⟩ := @flatMap_readU32s count (body.drop (body.length - 4 * count))
    (by rw [length_drop]; omega)
  have htail := leBytes_leValue (block.drop (block.length - 4))
  rw [length_drop, Nat.sub_sub_self hfour] at htail
  rw [blockBytes, harray, hlength, htail, ← append_assoc, take_append_drop, take_append_drop]

theorem checkRestarts_markedOffsets {entriesEnd count previous start : Nat}
    {entries : List (Bool × Entry)}
    (hprevious : previous < start)
    (hend : start + (allBytes (entries.map (·.2))).length = entriesEnd) :
    checkRestarts entriesEnd count (some previous) (markedOffsets start entries) = .ok () := by
  induction entries generalizing previous start with
  | nil => rfl
  | cons entry entries ih =>
    obtain ⟨mark, entry⟩ := entry
    have hpos := length_pos_iff.2 entry.bytes_ne_nil
    rw [show ((mark, entry) :: entries).map (·.2) = entry :: entries.map (·.2) from rfl,
      length_allBytes_cons] at hend
    rw [markedOffsets]
    cases mark with
    | true =>
      have hbound : start < entriesEnd := by omega
      rw [if_pos rfl, singleton_append, checkRestarts,
        ensure_ok.2 (by rw [decide_eq_true hbound, Bool.true_or])]
      show (ensure _ _ >>= _) = _
      rw [ensure_ok.2 (decide_eq_true hprevious)]
      exact ih (by omega) (by omega)
    | false =>
      exact ih (by omega) (by omega)

/-- A block without entries has at most the restart point 0. -/
theorem checkRestarts_of_empty {restarts : List Nat}
    (h : checkRestarts 0 restarts.length none restarts = .ok ()) : restarts = [] ∨
      restarts = [0] := by
  cases restarts with
  | nil => exact .inl rfl
  | cons offset restarts =>
    obtain ⟨_, hbound, -⟩ := bind_eq_ok.1 h
    simpa [and_comm] using ensure_ok.1 hbound

/-! ## Whole blocks -/

/-- The block of entries, the first of which is marked, with a restart point at every marked one. -/
theorem readEntries_blockBytes {entries : List (Bool × Entry)}
    (hshares : Shares [] (entries.map (·.2)))
    (hmarks : ∀ e ∈ entries, e.1 = true → e.2.shared = 0) (hfirst : ∀ e ∈ entries.head?, e.1 = true)
    (hfit : RestartsFit (markedOffsets 0 entries)) :
    readEntries (blockBytes (allBytes (entries.map (·.2))) (markedOffsets 0 entries)) =
      .ok (readings [] (entries.map (·.2))) := by
  have hnone : markedOffsets 0 entries = [] → allBytes (entries.map (·.2)) = [] := by
    intro h
    cases entries with
    | nil => rfl
    | cons entry entries =>
      rw [markedOffsets, if_pos (hfirst entry rfl)] at h
      cases h
  have hcheck : checkRestarts (allBytes (entries.map (·.2))).length (markedOffsets 0 entries).length
      none (markedOffsets 0 entries) = .ok () := by
    cases entries with
    | nil => rfl
    | cons entry entries =>
      have hpos := length_pos_iff.2 entry.2.bytes_ne_nil
      rw [map_cons, length_allBytes_cons, markedOffsets, if_pos (hfirst entry rfl),
        singleton_append, checkRestarts,
        ensure_ok.2 (by rw [decide_eq_true (by omega), Bool.true_or])]
      exact checkRestarts_markedOffsets (by omega) (by omega)
  have hscan := @scanEntries_complete _ _ 0 [] entries le_rfl (Nat.zero_add _) hshares hmarks
  rw [readEntries, splitRestarts_blockBytes hfit hnone]
  show (checkRestarts _ _ _ _ >>= _) = _
  rw [hcheck]
  rw [hscan]
  show (ensure _ _ >>= _) = _
  rw [isEmpty_nil, Bool.or_true]
  rfl

theorem readEntries_ok {block : Bytes} {visited : List (Bytes × Bytes)}
    (h : readEntries block = .ok visited) :
    ∃ entries restarts, block = blockBytes (allBytes entries) restarts ∧ Shares [] entries ∧
      visited = readings [] entries ∧
        (entries = [] ∧ restarts = [0] ∨ RestartsAt 0 entries restarts) := by
  obtain ⟨⟨region, restarts⟩, hsplit, h₁⟩ := bind_eq_ok.1 h
  obtain ⟨_, hcheck, h₂⟩ := bind_eq_ok.1 h₁
  obtain ⟨⟨visited', left⟩, hscan, h₃⟩ := bind_eq_ok.1 h₂
  obtain ⟨_, hleft, h₄⟩ := bind_eq_ok.1 h₃
  cases h₄
  obtain ⟨entries, passed, rfl, hshares, rfl, rfl, hat⟩ := scanEntries_sound le_rfl le_rfl hscan
  rw [Nat.sub_self] at hat
  refine ⟨entries, passed ++ left, splitRestarts_ok hsplit, hshares, rfl, ?_⟩
  rcases Bool.or_eq_true_iff.1 (ensure_ok.1 hleft) with hnone | hnone
  · obtain rfl : entries = [] := by
      cases entries with
      | nil => rfl
      | cons entry entries =>
        exact absurd (append_eq_nil_iff.1 (isEmpty_iff.1 hnone)).1 entry.bytes_ne_nil
    rcases checkRestarts_of_empty hcheck with hrestarts | hrestarts
    · exact .inr (hrestarts ▸ fun _ hr => by cases hr)
    · exact .inl ⟨rfl, hrestarts⟩
  · rw [isEmpty_iff.1 hnone, append_nil]
    exact .inr hat

/-- From a restart point on, the entries are a block of their own. -/
theorem readEntries_from_restart {before after : List Entry} {entry : Entry}
    (hshares : Shares [] (before ++ entry :: after)) (hzero : entry.shared = 0) :
    readEntries (blockBytes ((allBytes (before ++ entry :: after)).drop (allBytes before).length)
      [0]) = .ok ((readings [] (before ++ entry :: after)).drop before.length) := by
  obtain ⟨middle, hmiddle⟩ := readings_append [] before
  obtain ⟨hreadings, hshares'⟩ := hmiddle (entry :: after)
  have hown := readings_of_shared_eq_zero hzero middle [] after
  have hmap : ((true, entry) :: after.map (Prod.mk false)).map (·.2) = entry :: after := by simp
  have hblock := @readEntries_blockBytes ((true, entry) :: after.map (Prod.mk false))
    (by rw [hmap]; exact hown.2 (hshares'.1 hshares).2)
    (by
      intro e he hmark
      rcases mem_cons.1 he with rfl | he
      · exact hzero
      · obtain ⟨next, -, rfl⟩ := mem_map.1 he
        cases hmark)
    (by intro e he; cases he; rfl)
    (by rw [markedOffsets, markedOffsets_unmarked]; exact ⟨by decide, by decide⟩)
  rw [hmap, markedOffsets, markedOffsets_unmarked] at hblock
  rw [show allBytes (before ++ entry :: after) = allBytes before ++ allBytes (entry :: after) from
    flatMap_append, drop_left, hreadings, drop_left' (length_readings [] before), hown.1]
  exact hblock

/-! ## Planned blocks -/

/-- A pair to be written, with the number of bytes to share and whether it is a restart point. -/
structure Planned where
  key : Bytes
  value : Bytes
  shared : Nat
  restart : Bool
  fits : shared < 2 ^ 32 ∧ key.length - shared < 2 ^ 32 ∧ value.length < 2 ^ 32

namespace Planned

theorem reads_lengths (planned : Planned) :
    Reads readLengths
      (varintBytes planned.shared ++ (varintBytes (planned.key.length - planned.shared) ++
        varintBytes planned.value.length))
      (planned.shared, (planned.key.drop planned.shared).length, planned.value.length) := by
  obtain ⟨hshared, hunshared, hvalue⟩ := planned.fits
  intro rest
  rw [readLengths, append_assoc, append_assoc, varint32_append hshared]
  show (varint32 _ >>= _) = _
  rw [varint32_append hunshared]
  show (varint32 _ >>= _) = _
  rw [varint32_append hvalue, length_drop]
  rfl

def entry (planned : Planned) : Entry where
  shared := planned.shared
  lengths := varintBytes planned.shared ++ (varintBytes (planned.key.length - planned.shared) ++
    varintBytes planned.value.length)
  suffix := planned.key.drop planned.shared
  value := planned.value
  reads := planned.reads_lengths

def marked (planned : Planned) : Bool × Entry := (planned.restart, planned.entry)

end Planned

/-- The length of the longest common beginning. -/
def commonLength : Bytes → Bytes → Nat
  | a :: as, b :: bs => if a = b then commonLength as bs + 1 else 0
  | _, _ => 0

theorem take_of_le_commonLength {n : Nat} {as bs : Bytes} (h : n ≤ commonLength as bs) :
    n ≤ as.length ∧ as.take n = bs.take n := by
  induction n generalizing as bs with
  | zero => exact ⟨Nat.zero_le _, rfl⟩
  | succ n ih =>
    cases as with
    | nil => cases h
    | cons a as =>
      cases bs with
      | nil => cases h
      | cons b bs =>
        rw [commonLength] at h
        split_ifs at h with hhead
        · obtain ⟨hle, htake⟩ := ih (Nat.le_of_succ_le_succ h)
          exact ⟨Nat.succ_le_succ hle, by rw [take_succ_cons, take_succ_cons, htake, hhead]⟩
        · cases h

/-- Every pair shares no more than it has in common with the key before, and nothing at a
restart. -/
def WellPlanned (before : Bytes) : List Planned → Prop
  | [] => True
  | planned :: plan => planned.shared ≤ commonLength before planned.key ∧
      (planned.restart = true → planned.shared = 0) ∧ WellPlanned planned.key plan

theorem WellPlanned.readings {before : Bytes} {plan : List Planned} (h : WellPlanned before plan) :
    Shares before (plan.map Planned.entry) ∧
      readings before (plan.map Planned.entry) = plan.map fun planned =>
        (planned.key, planned.value) := by
  induction plan generalizing before with
  | nil => exact ⟨trivial, rfl⟩
  | cons planned plan ih =>
    obtain ⟨hle, htake⟩ := take_of_le_commonLength h.1
    have hkey : planned.entry.key before = planned.key := by
      show before.take planned.shared ++ planned.key.drop planned.shared = _
      rw [htake, take_append_drop]
    obtain ⟨hshares, hreadings⟩ := ih h.2.2
    refine ⟨⟨hle, hkey.symm ▸ hshares⟩, ?_⟩
    rw [map_cons, LevelDb.readings, hkey, hreadings]
    rfl

theorem WellPlanned.restarts {before : Bytes} {plan : List Planned} (h : WellPlanned before plan) :
    ∀ planned ∈ plan, planned.restart = true → planned.shared = 0 := by
  induction plan generalizing before with
  | nil => exact fun _ hmem => by cases hmem
  | cons planned plan ih =>
    intro next hnext
    rcases mem_cons.1 hnext with rfl | hnext
    · exact h.2.1
    · exact ih h.2.2 next hnext

/-- The offsets of the entries that are restart points. -/
def planRestarts (plan : List Planned) : List Nat := markedOffsets 0 (plan.map Planned.marked)

def encodeBlock (plan : List Planned) : Bytes :=
  blockBytes (allBytes (plan.map Planned.entry)) (planRestarts plan)

/-- Blocks decode soundly and completely. A block of planned pairs is visited as the pairs in order;
and in every block that is accepted the region is the bytes of entries, each restart point is at the
start of one that shares nothing, and from there on the block reads the same by itself, unless the
block has no entries and the one restart point 0. -/
theorem readEntries_exact :
    (∀ plan : List Planned, WellPlanned [] plan → (∀ planned ∈ plan.head?, planned.restart = true) →
      RestartsFit (planRestarts plan) →
        readEntries (encodeBlock plan) =
          .ok (plan.map fun planned => (planned.key, planned.value))) ∧
    ∀ block visited, readEntries block = .ok visited →
      ∃ entries restarts, block = blockBytes (allBytes entries) restarts ∧ Shares [] entries ∧
        visited = readings [] entries ∧
        ∀ restart ∈ restarts, entries = [] ∧ restarts = [0] ∨
          ∃ before entry after, entries = before ++ entry :: after ∧
            restart = (allBytes before).length ∧ entry.shared = 0 ∧
              readEntries (blockBytes ((allBytes entries).drop restart) [0]) =
                .ok (visited.drop before.length) := by
  refine ⟨fun plan hplan hfirst hfit => ?_, fun block visited h => ?_⟩
  · obtain ⟨hshares, hreadings⟩ := hplan.readings
    have hmap : (plan.map Planned.marked).map (·.2) = plan.map Planned.entry := by
      rw [map_map]
      rfl
    rw [encodeBlock, ← hreadings, ← hmap]
    refine readEntries_blockBytes (hmap ▸ hshares) ?_ ?_ hfit
    · intro e he
      obtain ⟨planned, hplanned, rfl⟩ := mem_map.1 he
      exact hplan.restarts planned hplanned
    · intro e he
      rw [head?_map] at he
      obtain ⟨planned, hplanned, rfl⟩ := Option.map_eq_some_iff.1 he
      exact hfirst planned hplanned
  · obtain ⟨entries, restarts, rfl, hshares, rfl, hrestarts⟩ := readEntries_ok h
    refine ⟨entries, restarts, rfl, hshares, rfl, fun restart hrestart => ?_⟩
    refine hrestarts.imp_right fun hat => ?_
    obtain ⟨before, entry, after, rfl, rfl, hzero⟩ := hat restart hrestart
    rw [Nat.zero_add]
    exact ⟨before, entry, after, rfl, rfl, hzero, readEntries_from_restart hshares hzero⟩

/-- Two keys with a common byte, and a restart only at the first. -/
theorem readEntries_exact_shared :
    readEntries
      (encodeBlock [⟨[1, 2], [9], 0, true, by decide⟩, ⟨[1, 3], [], 1, false, by decide⟩]) =
      .ok [([1, 2], [9]), ([1, 3], [])] :=
  readEntries_exact.1 _ (by simp [WellPlanned, commonLength]) (by simp)
    (by simp [planRestarts, markedOffsets, RestartsFit, Planned.marked])

/-- A block of no entries is accepted with a restart point at which no entry starts. -/
theorem readEntries_empty_restart :
    readEntries [0, 0, 0, 0, 1, 0, 0, 0] = .ok [] ∧
      ¬ ∃ entries restarts, [0, 0, 0, 0, 1, 0, 0, 0] = blockBytes (allBytes entries) restarts ∧
        ∀ restart ∈ restarts, ∃ before entry after, entries = before ++ entry :: after ∧
          restart = (allBytes before).length ∧ entry.shared = 0 := by
  refine ⟨by decide, ?_⟩
  rintro ⟨entries, restarts, hblock, hrestarts⟩
  have hlength := congrArg length hblock
  rw [blockBytes, length_append, length_append, length_flatMap_leBytes, length_leBytes] at hlength
  simp only [length_cons, length_nil] at hlength
  rcases restarts with _ | ⟨restart, _ | ⟨second, restarts⟩⟩
  · have hdrop := congrArg (List.drop 4) hblock
    rw [blockBytes, drop_left' (by simpa using hlength.symm)] at hdrop
    simp [leBytes] at hdrop
  · obtain ⟨before, entry, after, rfl, -, -⟩ := hrestarts restart mem_cons_self
    have hentry := length_pos_iff.2 entry.bytes_ne_nil
    rw [allBytes, flatMap_append, flatMap_cons, length_append, length_append] at hlength
    simp only [length_cons] at hlength
    omega
  · simp only [length_cons] at hlength
    omega

end Moli.LevelDb
