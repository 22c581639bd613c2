import Mathlib.Algebra.BigOperators.Group.List.Basic
import Mathlib.Data.List.Induction
import Mathlib.Data.List.Nodup
import Moli.BoundedJson.Serializer

/-!
# Bounded serialization is exact

`jsonStringBetweenWithLimit_eq` says what escaping in place returns, `toStringWithLimit_eq` the same
for the bounded writer. A reply with one document has the members of
`OwnedOuterHtmlResponse.members` in some order (`takeOwnedOuterHtmlResponse_ok`), so both ways agree
on what fits and on its meaning.
-/

namespace Moli.BoundedJson

open Lib List
open Lib.Text (ascii)

/-! ## Bytes -/

theorem escapedBytes_eq (byte : UInt8) : escapedBytes byte = escapeByte byte := by
  have h : ∀ n : Fin 256, escapedBytes (UInt8.ofNat n) = escapeByte (UInt8.ofNat n) := by
    decide +kernel
  simpa using h ⟨byte.toNat, byte.toNat_lt⟩

theorem jsonEscapedByteLen_eq (byte : UInt8) :
    jsonEscapedByteLen byte = (escapeByte byte).length := by
  have h : ∀ n : Fin 256, jsonEscapedByteLen (UInt8.ofNat n) =
      (escapeByte (UInt8.ofNat n)).length := by
    decide +kernel
  simpa using h ⟨byte.toNat, byte.toNat_lt⟩

theorem length_escapeByte_pos (byte : UInt8) : 0 < (escapeByte byte).length := by
  rw [← jsonEscapedByteLen_eq, jsonEscapedByteLen]
  split_ifs <;> decide

theorem length_le_escape (value : Bytes) : value.length ≤ (escape value).length := by
  induction value with
  | nil => exact Nat.zero_le _
  | cons byte value ih =>
    have hpos := length_escapeByte_pos byte
    rw [escape, flatMap_cons, length_append, length_cons, ← escape]
    omega

theorem escape_append (left right : Bytes) : escape (left ++ right) = escape left ++ escape right :=
  flatMap_append

theorem escape_singleton (byte : UInt8) : escape [byte] = escapeByte byte := by
  rw [escape, flatMap_singleton]

/-! ## Lengths -/

/-- The sum is there unless it is too large for a length, and then it is above every limit. -/
theorem foldlM_checkedAdd (value : Bytes) (total : Nat) (htotal : total < 2 ^ 64) :
    value.foldlM (fun total byte => checkedAdd total (jsonEscapedByteLen byte)) total =
      if total + (escape value).length < 2 ^ 64 then some (total + (escape value).length)
      else none := by
  induction value generalizing total with
  | nil => exact (if_pos htotal).symm
  | cons byte value ih =>
    have hcons : (escape (byte :: value)).length =
        jsonEscapedByteLen byte + (escape value).length := by
      rw [jsonEscapedByteLen_eq, escape, flatMap_cons, length_append, ← escape]
    rw [foldlM_cons, checkedAdd, hcons, ← Nat.add_assoc]
    by_cases hfits : total + jsonEscapedByteLen byte < 2 ^ 64
    · rw [if_pos hfits]
      exact ih _ hfits
    · rw [if_neg hfits, if_neg (by omega)]
      rfl

theorem outputLen_eq (value before after : Bytes) :
    outputLen value before after =
      if before.length + (escape value).length + after.length < 2 ^ 64 then
        some ((escape value).length, before.length + (escape value).length + after.length)
      else none := by
  have hfold := foldlM_checkedAdd value 0 (by decide)
  rw [Nat.zero_add] at hfold
  rw [outputLen, escapedLen, hfold]
  by_cases hvalue : (escape value).length < 2 ^ 64
  · rw [if_pos hvalue]
    simp only [bind, Option.bind_some, checkedAdd]
    by_cases hbefore : before.length + (escape value).length < 2 ^ 64
    · rw [if_pos hbefore, Option.bind_some]
      split_ifs <;> rfl
    · rw [if_neg hbefore, if_neg (by omega)]
      rfl
  · rw [if_neg hvalue, if_neg (by omega)]
    rfl

/-! ## Escaping in place -/

theorem copyFromSlice_append {left middle right slice : Bytes} (h : middle.length = slice.length) :
    copyFromSlice (left ++ middle ++ right) left.length slice = left ++ slice ++ right := by
  rw [copyFromSlice, ← h]
  simp [append_assoc]

/-- Below the bytes already written there is room for the rest, since no byte gets shorter. -/
theorem escapeDown_eq (value gap rest : Bytes) (start : Nat)
    (hroom : value.length + gap.length = start + (escape value).length) :
    ∃ left : Bytes, left.length = start ∧
      escapeDown value.length (value ++ gap ++ rest) (value.length + gap.length) =
        (left ++ escape value ++ rest, start) := by
  induction value using reverseRecOn generalizing gap rest with
  | nil => exact ⟨gap, by simpa [escape] using hroom, by simpa [escape, escapeDown] using hroom⟩
  | append_singleton value byte ih =>
    have hle := length_le_escape value
    rw [escape_append, escape_singleton, length_append, length_append, length_singleton] at hroom
    -- The bytes between the ones still to be read and the ones written for this byte.
    obtain ⟨free, slot, hsplit, hslot⟩ : ∃ free slot, byte :: gap = free ++ slot ∧
        slot.length = (escapeByte byte).length :=
      ⟨(byte :: gap).take (start + (escape value).length - value.length),
        (byte :: gap).drop (start + (escape value).length - value.length),
        (take_append_drop _ _).symm, by rw [length_drop, length_cons]; omega⟩
    have hlength : gap.length + 1 = free.length + slot.length := by
      rw [← length_append, ← hsplit, length_cons]
    obtain ⟨left, hleft, hdown⟩ := ih free (escapeByte byte ++ rest) (by omega)
    refine ⟨left, hleft, ?_⟩
    have hread : (value ++ [byte] ++ gap ++ rest).getD value.length 0 = byte := by simp
    have hwrite : (value ++ [byte]).length + gap.length - (escapeByte byte).length =
        (value ++ free).length := by
      simp only [length_append, length_singleton]
      omega
    have hshape : value ++ [byte] ++ gap ++ rest = value ++ free ++ slot ++ rest := by
      have hsplit' : [byte] ++ gap = free ++ slot := hsplit
      rw [append_assoc value, hsplit', ← append_assoc value]
    rw [show (value ++ [byte]).length = value.length + 1 by simp, escapeDown, hread,
      escapedBytes_eq, show value.length + 1 = (value ++ [byte]).length by simp, hwrite, hshape,
      copyFromSlice_append hslot, append_assoc (value ++ free), length_append, hdown,
      escape_append, escape_singleton]
    simp only [append_assoc]

theorem jsonStringBetweenWithLimit_eq (value before after : Bytes) (limit : UInt64) :
    jsonStringBetweenWithLimit value before after limit =
      if (before ++ escape value ++ after).length ≤ limit.toNat then
        .ok (before ++ escape value ++ after)
      else .error (.limitExceeded limit) := by
  have hlimit := limit.toNat_lt
  have hlength : (before ++ escape value ++ after).length =
      before.length + (escape value).length + after.length := by
    rw [length_append, length_append]
  rw [jsonStringBetweenWithLimit, outputLen_eq, hlength]
  by_cases hfits : before.length + (escape value).length + after.length ≤ limit.toNat
  · have hle := length_le_escape value
    rw [if_pos hfits, if_pos (by omega)]
    dsimp only
    rw [if_neg (by omega)]
    -- The padding: room for the growth of the value, then for the text after it.
    have hpad : replicate (before.length + (escape value).length + after.length - value.length)
        (0 : UInt8) = replicate (before.length + (escape value).length - value.length) 0 ++
          replicate after.length 0 := by
      rw [← replicate_add]
      exact congrArg (replicate · 0) (by omega)
    obtain ⟨left, hleft, hdown⟩ := escapeDown_eq value
      (replicate (before.length + (escape value).length - value.length) 0)
      (replicate after.length 0) before.length (by rw [length_replicate]; omega)
    rw [length_replicate,
      show value.length + (before.length + (escape value).length - value.length) =
        before.length + (escape value).length by omega] at hdown
    have hbefore := @copyFromSlice_append [] left (escape value ++ replicate after.length 0) before
      hleft
    have hafter :=
      @copyFromSlice_append (before ++ escape value) (replicate after.length 0) [] after (by simp)
    simp only [nil_append, append_nil, length_nil] at hbefore hafter
    rw [hpad, ← append_assoc, hdown, append_assoc left, hbefore, Nat.add_sub_cancel,
      ← length_append, ← append_assoc, hafter]
  · rw [if_neg hfits]
    by_cases hbig : before.length + (escape value).length + after.length < 2 ^ 64
    · rw [if_pos hbig]
      exact if_pos (by omega)
    · rw [if_neg hbig]

/-! ## The bounded writer -/

namespace BoundedJsonBuffer

theorem write_eq (buffer : BoundedJsonBuffer) (piece : Bytes) :
    buffer.write piece = if buffer.bytes.length + piece.length ≤ buffer.limit.toNat then
      (true, { buffer with bytes := buffer.bytes ++ piece })
      else (false, { buffer with limitExceeded := true }) := by
  have hlimit := buffer.limit.toNat_lt
  have hfull :
      (checkedAdd buffer.bytes.length piece.length).all (fun len => buffer.limit.toNat < len) =
      decide (buffer.limit.toNat < buffer.bytes.length + piece.length) := by
    rw [checkedAdd]
    split_ifs with hbig
    · rfl
    · exact (decide_eq_true (by omega)).symm
  rw [write, hfull]
  by_cases hfits : buffer.bytes.length + piece.length ≤ buffer.limit.toNat
  · rw [if_pos hfits, if_neg (by simpa using hfits)]
  · rw [if_neg hfits, if_pos (by simpa using hfits)]

theorem writeAll_eq (pieces : List Bytes) (buffer : BoundedJsonBuffer)
    (hbuffer : buffer.bytes.length ≤ buffer.limit.toNat) :
    ((buffer.bytes ++ pieces.flatten).length ≤ buffer.limit.toNat →
      buffer.writeAll pieces = (true, { buffer with bytes := buffer.bytes ++ pieces.flatten })) ∧
    (buffer.limit.toNat < (buffer.bytes ++ pieces.flatten).length →
      ∃ output, buffer.writeAll pieces = (false, output) ∧ output.limitExceeded = true) := by
  induction pieces generalizing buffer with
  | nil =>
    rw [flatten_nil, append_nil]
    exact ⟨fun _ => rfl, fun h => absurd h (by omega)⟩
  | cons piece pieces ih =>
    rw [writeAll, write_eq, flatten_cons, ← append_assoc]
    by_cases hpiece : buffer.bytes.length + piece.length ≤ buffer.limit.toNat
    · rw [if_pos hpiece]
      exact ih { buffer with bytes := buffer.bytes ++ piece } (by simpa using hpiece)
    · rw [if_neg hpiece]
      refine ⟨fun h => absurd h ?_, fun _ => ⟨_, rfl, rfl⟩⟩
      simp only [length_append]
      omega

end BoundedJsonBuffer

theorem toStringWithLimit_eq (pieces : List Bytes) (limit : UInt64) :
    toStringWithLimit pieces limit =
      if pieces.flatten.length ≤ limit.toNat then .ok pieces.flatten
      else .error (.limitExceeded limit) := by
  obtain ⟨hok, hfull⟩ := BoundedJsonBuffer.writeAll_eq pieces (.new limit) (Nat.zero_le _)
  rw [toStringWithLimit]
  split_ifs with hfits
  · rw [hok hfits]
    rfl
  · obtain ⟨output, houtput, hexceeded⟩ := hfull (Nat.lt_of_not_le hfits)
    rw [houtput]
    exact if_pos hexceeded

/-! ## The texts of values -/

theorem flatten_contentPieces (run value : Bytes) :
    (contentPieces run value).flatten = run ++ escape value := by
  have hrun : ∀ run : Bytes, (if run = [] then [] else [run]).flatten = run := by
    intro run
    cases run <;> simp
  induction value generalizing run with
  | nil => simp [contentPieces, hrun, escape]
  | cons byte value ih =>
    have hcons : escape (byte :: value) = escapeByte byte ++ escape value := rfl
    rw [contentPieces, hcons, escapeByte]
    cases escapeTable byte with
    | none => simp [ih]
    | some letter => simp [ih, hrun]

theorem flatten_stringPieces (value : Bytes) :
    (stringPieces value).flatten = [quote] ++ escape value ++ [quote] := by
  simp [stringPieces, flatten_contentPieces]

theorem contents_escapeByte {byte : UInt8} {text value : Bytes} (h : Contents text value) :
    Contents (escapeByte byte ++ text) (byte :: value) := by
  have hcases : ∀ n : Fin 256, let byte := UInt8.ofNat n
      (escapeByte byte = [byte] ∧ 32 ≤ byte ∧ byte ≠ quote ∧ byte ≠ backslash) ∨
      (∃ pair ∈ [(quote, quote), (backslash, backslash), (47, 47), (98, 8), (102, 12), (110, 10),
        (114, 13), (116, 9)], escapeByte byte = [backslash, pair.1] ∧ pair.2 = byte) ∨
      (escapeByte byte = [backslash, 117, 48, 48, hexDigit (byte >>> 4), hexDigit (byte &&& 15)] ∧
        byte >>> 4 < 8 ∧ byte &&& 15 < 16 ∧
          (16 : UInt8) * (byte >>> 4) + (byte &&& 15) = byte) := by
    decide +kernel
  have hbyte := hcases ⟨byte.toNat, byte.toNat_lt⟩
  simp only [UInt8.ofNat_toNat] at hbyte
  rcases hbyte with ⟨htext, hplain⟩ | ⟨pair, hpair, htext, hvalue⟩ | ⟨htext, hhigh, hlow, hvalue⟩
  · rw [htext]
    exact .plain hplain h
  · rw [htext]
    subst hvalue
    exact .short hpair h
  · rw [htext]
    have hunicode := Contents.unicode hhigh hlow h
    rwa [hvalue] at hunicode

theorem contents_escape (value : Bytes) : Contents (escape value) value := by
  induction value with
  | nil => exact .nil
  | cons byte value ih => exact contents_escapeByte ih

theorem quoted_stringPieces (value : Bytes) : Quoted (stringPieces value).flatten value := by
  rw [flatten_stringPieces]
  exact .mk (contents_escape value)

section Values

variable {floatText : UInt64 → Bytes}

theorem elements_flatten {elements : List Json}
    (h : ∀ element ∈ elements, Denotes floatText (pieces floatText element).flatten element)
    (first : Bool) :
    Elements floatText first (elementPieces floatText first elements).flatten elements := by
  induction elements generalizing first with
  | nil => exact .nil
  | cons element rest ih =>
    obtain ⟨helement, hrest⟩ := forall_mem_cons.1 h
    have hcons : Elements floatText first _ (element :: rest) := .cons helement (ih hrest false)
    cases first <;> simpa [elementPieces] using hcons

mutual

theorem denotes_compact : ∀ value, Denotes floatText (pieces floatText value).flatten value
  | .null => .null
  | .bool true => .true
  | .bool false => .false
  | .number value => by
    rw [pieces, flatten_singleton]
    exact .number value
  | .string value => by
    exact .string (quoted_stringPieces value)
  | .array elements => by
    rw [pieces, flatten_append]
    exact .array (elements_flatten (fun element _ => denotes_compact element) true)
  | .object members => by
    rw [pieces, flatten_append]
    exact .object (members_flatten true members) (.refl members)

theorem members_flatten (first : Bool) :
    ∀ members, Members floatText first (memberPieces floatText first members).flatten members
  | [] => .nil
  | (key, value) :: rest => by
    have h : Members floatText first _ ((key, value) :: rest) :=
      .cons (quoted_stringPieces key) (denotes_compact value) (members_flatten false rest)
    cases first <;> simpa [memberPieces] using h

end

/-- The members after the first, each with its comma. -/
def membersLength (floatText : UInt64 → Bytes) (members : List (Bytes × Json)) : Nat :=
  (members.map fun member => (stringPieces member.1).flatten.length + 2 +
    (pieces floatText member.2).flatten.length).sum

theorem length_memberPieces (members : List (Bytes × Json)) :
    (memberPieces floatText false members).flatten.length = membersLength floatText members := by
  induction members with
  | nil => rfl
  | cons member rest ih =>
    rw [membersLength, map_cons, sum_cons, ← membersLength, memberPieces]
    simp only [flatten_append, length_append, Bool.false_eq_true, if_false,
      flatten_singleton, show (ascii ",").length = 1 from rfl, show (ascii ":").length = 1 from rfl]
    omega

theorem length_compact_object (members : List (Bytes × Json)) :
    (compact floatText (.object members)).length =
      membersLength floatText members + if members.isEmpty then 2 else 1 := by
  rw [compact, pieces]
  cases members with
  | nil => rfl
  | cons member rest =>
    rw [← length_memberPieces, memberPieces, memberPieces]
    simp only [flatten_append, length_append, Bool.false_eq_true, if_false, if_true,
      flatten_singleton, flatten_nil, length_nil, isEmpty_cons,
      show (ascii ",").length = 1 from rfl, show (ascii "\x7b").length = 1 from rfl,
      show (ascii "\x7d").length = 1 from rfl]
    omega

/-- The order of the members does not change the length. -/
theorem length_compact_perm {members members' : List (Bytes × Json)} (h : members.Perm members') :
    (compact floatText (.object members)).length =
      (compact floatText (.object members')).length := by
  have hempty : members.isEmpty = members'.isEmpty := by
    rw [Bool.eq_iff_iff, List.isEmpty_iff, List.isEmpty_iff, ← List.length_eq_zero_iff, h.length_eq,
      List.length_eq_zero_iff]
  rw [length_compact_object, length_compact_object, membersLength, membersLength,
    (h.map _).sum_eq, hempty]

/-! ## Replies with one document -/

def OwnedOuterHtmlResponse.members (response : OwnedOuterHtmlResponse) : List (Bytes × Json) :=
  [(ascii "id", .number (.posInt response.id)),
    (ascii "result", .object [(ascii "outerHTML", .string response.outerHtml)])] ++
    response.sessionId.toList.map fun sessionId => (ascii "sessionId", .string sessionId)

theorem mem_of_lookup {members : List (Bytes × Json)} {key : Bytes} {value : Json}
    (h : members.lookup key = some value) : (key, value) ∈ members := by
  induction members with
  | nil => cases h
  | cons member rest ih =>
    obtain ⟨name, other⟩ := member
    rw [lookup_cons] at h
    split at h
    next hkey =>
      rw [Option.some.inj h, eq_of_beq hkey]
      exact mem_cons_self
    next => exact mem_cons_of_mem _ (ih h)

/-- As many members as different keys that are found: there are no others. -/
theorem perm_of_lookups {members found : List (Bytes × Json)} (hnodup : (found.map (·.1)).Nodup)
    (hfound : ∀ member ∈ found, members.lookup member.1 = some member.2)
    (hlength : members.length = found.length) : found.Perm members := by
  have hsub : found.Subperm members := subperm_of_subset (List.Nodup.of_map _ hnodup)
    fun member hmember => mem_of_lookup (hfound member hmember)
  exact hsub.perm_of_length_le hlength.le

theorem outerHtmlOf_eq {result : Option Json} {outerHtml : Bytes}
    (h : outerHtmlOf result = some outerHtml) :
    result = some (.object [(ascii "outerHTML", .string outerHtml)]) := by
  unfold outerHtmlOf at h
  split at h
  next result =>
    split_ifs at h with hlength
    split at h
    next html hhtml =>
      obtain rfl := Option.some.inj h
      have hperm := @perm_of_lookups result [(ascii "outerHTML", .string html)] (by simp)
        (by simpa using hhtml) (by simpa using hlength)
      rw [singleton_perm.1 hperm]
    next => cases h
  next => cases h

theorem sessionIdOf_eq {object : List (Bytes × Json)} {sessionId : Option Bytes}
    (h : sessionIdOf object = some sessionId) : ∀ text ∈ sessionId,
      object.lookup (ascii "sessionId") = some (.string text) := by
  unfold sessionIdOf at h
  split at h
  next text htext =>
    obtain rfl := Option.some.inj h
    intro other hother
    rw [htext, Option.some.inj hother]
  next => cases h
  next =>
    obtain rfl := Option.some.inj h
    intro other hother
    cases hother

theorem takeOwnedOuterHtmlResponse_error {message back : Json}
    (h : takeOwnedOuterHtmlResponse message = .error back) : back = message := by
  unfold takeOwnedOuterHtmlResponse at h
  split at h
  · split at h
    · split_ifs at h with hlength
      · exact (Except.error.inj h).symm
      · split at h
        · cases h
        · exact (Except.error.inj h).symm
    · exact (Except.error.inj h).symm
  · exact (Except.error.inj h).symm

theorem takeOwnedOuterHtmlResponse_ok {message : Json} {response : OwnedOuterHtmlResponse}
    (h : takeOwnedOuterHtmlResponse message = .ok response) :
    ∃ object, message = .object object ∧ response.members.Perm object := by
  unfold takeOwnedOuterHtmlResponse at h
  split at h
  next object =>
    split at h
    next id sessionId hid hsession =>
      split_ifs at h with hlength
      split at h
      next outerHtml hhtml =>
        obtain rfl := Except.ok.inj h
        have hresult := outerHtmlOf_eq hhtml
        have hsession := sessionIdOf_eq hsession
        obtain ⟨value, hvalue, hnumber⟩ := Option.bind_eq_some_iff.1 hid
        have hvalueEq : value = .number (.posInt id) := by
          unfold Json.asU64 at hnumber
          split at hnumber
          · rw [Option.some.inj hnumber]
          · cases hnumber
        refine ⟨object, rfl, perm_of_lookups ?_ ?_ ?_⟩
        · have hkeys : [ascii "id", ascii "result", ascii "sessionId"].Nodup := by decide
          cases sessionId with
          | none => exact hkeys.sublist (sublist_append_left [ascii "id", ascii "result"] _)
          | some _ => exact hkeys
        · intro member hmember
          simp only [OwnedOuterHtmlResponse.members, mem_append, mem_cons, not_mem_nil,
            or_false, mem_map, Option.mem_toList] at hmember
          rcases hmember with (rfl | rfl) | ⟨text, htext, rfl⟩
          · rw [hvalue, hvalueEq]
          · exact hresult
          · exact hsession text htext
        · have hlen := not_not.1 hlength
          rw [hlen]
          cases sessionId <;> rfl
      next => cases h
    next => cases h
  next => cases h

/-- The fast way prints the members in its own order. -/
theorem serialize_response {message : Json} {response : OwnedOuterHtmlResponse}
    (h : takeOwnedOuterHtmlResponse message = .ok response) (limit : UInt64) :
    serializeOwnedMessageWithLimit floatText message limit =
      if (compact floatText (.object response.members)).length ≤ limit.toNat then
        .ok (compact floatText (.object response.members))
      else .error (.limitExceeded limit) := by
  have hid : (stringPieces (ascii "id")).flatten = ascii "\"id\"" := rfl
  have hresult : (stringPieces (ascii "result")).flatten = ascii "\"result\"" := rfl
  have hhtml : (stringPieces (ascii "outerHTML")).flatten = ascii "\"outerHTML\"" := rfl
  have hsession : (stringPieces (ascii "sessionId")).flatten = ascii "\"sessionId\"" := rfl
  obtain ⟨id, html, sessionId⟩ := response
  have htext : compact floatText (.object (OwnedOuterHtmlResponse.members ⟨id, html, sessionId⟩)) =
      ascii "\x7b\"id\":" ++ decimal id.toNat ++ ascii ",\"result\":\x7b\"outerHTML\":\"" ++
        escape html ++ match sessionId with
        | none => ascii "\"\x7d\x7d"
        | some sessionId =>
          ascii "\"\x7d,\"sessionId\":" ++ (stringPieces sessionId).flatten ++ ascii "\x7d" := by
    rw [OwnedOuterHtmlResponse.members, compact]
    cases sessionId
    all_goals
      simp only [Option.toList_none, Option.toList_some, map_nil, map_cons, cons_append,
        nil_append, pieces, memberPieces, Number.text, flatten_append, flatten_cons, hid, hresult,
          hhtml, hsession, flatten_stringPieces html]
      simp [ascii, quote]
  rw [serializeOwnedMessageWithLimit, h, htext]
  dsimp only
  cases sessionId with
  | none => exact jsonStringBetweenWithLimit_eq _ _ _ _
  | some sessionId =>
    rw [responseSuffix, toStringWithLimit_eq]
    by_cases hfits : (stringPieces sessionId).flatten.length ≤ limit.toNat
    · rw [if_pos hfits]
      exact jsonStringBetweenWithLimit_eq _ _ _ _
    · rw [if_neg hfits, if_neg (by simp only [length_append]; omega)]
      rfl

end Values

/-- Escaping in place is escaping, and serializing a message succeeds exactly when its compact text
fits; what comes out means the message. -/
theorem serialize_owned_message_exact (floatText : UInt64 → Bytes) :
    (∀ (value before after : Bytes) (limit : UInt64),
      jsonStringBetweenWithLimit value before after limit =
        if (before ++ escape value ++ after).length ≤ limit.toNat then
          .ok (before ++ escape value ++ after)
        else .error (.limitExceeded limit)) ∧
    ∀ (message : Json) (limit : UInt64),
      ((∃ output, serializeOwnedMessageWithLimit floatText message limit = .ok output) ↔
        (compact floatText message).length ≤ limit.toNat) ∧
      ∀ output, serializeOwnedMessageWithLimit floatText message limit = .ok output →
        Denotes floatText output message := by
  refine ⟨jsonStringBetweenWithLimit_eq, fun message limit => ?_⟩
  cases hresponse : takeOwnedOuterHtmlResponse message with
  | error back =>
    rw [serializeOwnedMessageWithLimit, hresponse]
    dsimp only
    rw [takeOwnedOuterHtmlResponse_error hresponse, toStringWithLimit_eq, ← compact]
    refine ⟨⟨fun h => ?_, fun h => ⟨_, if_pos h⟩⟩, fun output h => ?_⟩
    · obtain ⟨output, h⟩ := h
      by_contra hlong
      rw [if_neg hlong] at h
      cases h
    · split_ifs at h with hfits
      rw [← Except.ok.inj h]
      exact denotes_compact message
  | ok response =>
    obtain ⟨object, rfl, hperm⟩ := takeOwnedOuterHtmlResponse_ok hresponse
    rw [serialize_response hresponse, ← length_compact_perm hperm]
    refine ⟨⟨fun h => ?_, fun h => ⟨_, if_pos h⟩⟩, fun output h => ?_⟩
    · obtain ⟨output, h⟩ := h
      by_contra hlong
      rw [if_neg hlong] at h
      cases h
    · split_ifs at h with hfits
      rw [← Except.ok.inj h, compact, pieces, flatten_append]
      exact .object (members_flatten true response.members) hperm

end Moli.BoundedJson
