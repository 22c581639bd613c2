import Mathlib.Data.List.Perm.Basic
import Moli.Lib.Text
import Moli.Lib.Checked

/-!
# Bounded serialization

`pieces` lists what the serializer writes for a value in turn, and `compact` is the whole text.
`Denotes` gives compact texts their meaning, independently of the serializer: the members of an
object may come in any order. Texts are their UTF-8 bytes, of which escaping touches ASCII ones
only; the texts of numbers that are not integers are the library's.

`toStringWithLimit` writes pieces into a buffer that refuses to grow beyond its limit.
`jsonStringBetweenWithLimit` escapes a string inside its own allocation, from the last byte to the
first. `serializeOwnedMessageWithLimit` takes the second way for replies that carry one document.
-/

namespace Moli.BoundedJson

open Lib.Text (ascii)

abbrev Bytes := List UInt8

def decimal (n : Nat) : Bytes := (Nat.toDigits 10 n).map fun c => c.toNat.toUInt8

/-- A float is its bit pattern. -/
inductive Number where
  | posInt (value : UInt64)
  | negInt (value : Nat)
  | float (bits : UInt64)

inductive Json where
  | null
  | bool (value : Bool)
  | number (value : Number)
  | string (value : Bytes)
  | array (elements : List Json)
  | object (members : List (Bytes × Json))

def quote : UInt8 := 34

def backslash : UInt8 := 92

/-! ## Escaping -/

/-- The table of the serializer: how a byte is escaped, by the letter after the backslash. -/
def escapeTable (byte : UInt8) : Option UInt8 :=
  if byte = 8 then some 98
  else if byte = 9 then some 116
  else if byte = 10 then some 110
  else if byte = 12 then some 102
  else if byte = 13 then some 114
  else if byte < 32 then some 117
  else if byte = quote then some quote
  else if byte = backslash then some backslash
  else none

def hexDigit (n : UInt8) : UInt8 := if n < 10 then 48 + n else 87 + n

/-- `\u00` and two digits for the letter `u`. -/
def charEscape (byte letter : UInt8) : Bytes :=
  if letter = 117 then [backslash, 117, 48, 48, hexDigit (byte >>> 4), hexDigit (byte &&& 15)]
  else [backslash, letter]

def escapeByte (byte : UInt8) : Bytes :=
  match escapeTable byte with
  | none => [byte]
  | some letter => charEscape byte letter

def escape (value : Bytes) : Bytes := value.flatMap escapeByte

/-- Runs of plain bytes go out whole. -/
def contentPieces (run : Bytes) : Bytes → List Bytes
  | [] => if run.isEmpty then [] else [run]
  | byte :: rest =>
    match escapeTable byte with
    | none => contentPieces (run ++ [byte]) rest
    | some letter =>
      (if run.isEmpty then [] else [run]) ++ [charEscape byte letter] ++ contentPieces [] rest

def stringPieces (value : Bytes) : List Bytes := [[quote]] ++ contentPieces [] value ++ [[quote]]

section Text

variable (floatText : UInt64 → Bytes)

def Number.text : Number → Bytes
  | posInt value => decimal value.toNat
  | negInt value => ascii "-" ++ decimal value
  | float bits => floatText bits

mutual

def pieces : Json → List Bytes
  | .null => [ascii "null"]
  | .bool value => [ascii (if value then "true" else "false")]
  | .number value => [value.text floatText]
  | .string value => stringPieces value
  | .array elements => [ascii "["] ++ elementPieces true elements ++ [ascii "]"]
  | .object members => [ascii "\x7b"] ++ memberPieces true members ++ [ascii "\x7d"]

def elementPieces (first : Bool) : List Json → List Bytes
  | [] => []
  | element :: rest =>
    (if first then [] else [ascii ","]) ++ pieces element ++ elementPieces false rest

def memberPieces (first : Bool) : List (Bytes × Json) → List Bytes
  | [] => []
  | (key, value) :: rest =>
    (if first then [] else [ascii ","]) ++ stringPieces key ++ [ascii ":"] ++ pieces value ++
      memberPieces false rest

end

def compact (value : Json) : Bytes := (pieces floatText value).flatten

/-! ## Meaning -/

/-- The contents of a string, with the escapes of the grammar. -/
inductive Contents : Bytes → Bytes → Prop where
  | nil : Contents [] []
  | plain {byte : UInt8} {text value : Bytes} (hbyte : 32 ≤ byte ∧ byte ≠ quote ∧ byte ≠ backslash)
      (h : Contents text value) : Contents (byte :: text) (byte :: value)
  | short {byte letter : UInt8} {text value : Bytes}
      (hbyte : (letter, byte) ∈ [(quote, quote), (backslash, backslash), (47, 47), (98, 8),
        (102, 12), (110, 10), (114, 13), (116, 9)])
      (h : Contents text value) : Contents (backslash :: letter :: text) (byte :: value)
  | unicode {high low : UInt8} {text value : Bytes} (hhigh : high < 8) (hlow : low < 16)
      (h : Contents text value) :
      Contents ([backslash, 117, 48, 48, hexDigit high, hexDigit low] ++ text)
        ((16 * high + low) :: value)

inductive Quoted : Bytes → Bytes → Prop where
  | mk {text value : Bytes} (h : Contents text value) : Quoted ([quote] ++ text ++ [quote]) value

mutual

inductive Denotes : Bytes → Json → Prop where
  | null : Denotes (ascii "null") .null
  | true : Denotes (ascii "true") (.bool Bool.true)
  | false : Denotes (ascii "false") (.bool Bool.false)
  | number (value : Number) : Denotes (value.text floatText) (.number value)
  | string {text value : Bytes} (h : Quoted text value) : Denotes text (.string value)
  | array {text : Bytes} {elements : List Json} (h : Elements Bool.true text elements) :
      Denotes (ascii "[" ++ text ++ ascii "]") (.array elements)
  | object {text : Bytes} {members members' : List (Bytes × Json)}
      (h : Members Bool.true text members) (horder : members.Perm members') :
      Denotes (ascii "\x7b" ++ text ++ ascii "\x7d") (.object members')

inductive Elements : Bool → Bytes → List Json → Prop where
  | nil {first : Bool} : Elements first [] []
  | cons {first : Bool} {text rest : Bytes} {element : Json} {elements : List Json}
      (h : Denotes text element) (hrest : Elements Bool.false rest elements) :
      Elements first ((if first then [] else ascii ",") ++ text ++ rest) (element :: elements)

inductive Members : Bool → Bytes → List (Bytes × Json) → Prop where
  | nil {first : Bool} : Members first [] []
  | cons {first : Bool} {name text rest key : Bytes} {value : Json} {members : List (Bytes × Json)}
      (hkey : Quoted name key) (h : Denotes text value) (hrest : Members Bool.false rest members) :
      Members first ((if first then [] else ascii ",") ++ name ++ ascii ":" ++ text ++ rest)
        ((key, value) :: members)

end

end Text

/-! ## The serializer -/

open Lib
open Lib.Text (ascii)

inductive BoundedJsonError where
  | limitExceeded (limit : UInt64)
  | serialization
deriving DecidableEq

structure BoundedJsonBuffer where
  bytes : Bytes
  limit : UInt64
  limitExceeded : Bool

namespace BoundedJsonBuffer

def new (limit : UInt64) : BoundedJsonBuffer := ⟨[], limit, false⟩

/-- Whether the bytes were taken. -/
def write (buffer : BoundedJsonBuffer) (bytes : Bytes) : Bool × BoundedJsonBuffer :=
  if (checkedAdd buffer.bytes.length bytes.length).all fun len => buffer.limit.toNat < len then
    (false, { buffer with limitExceeded := true })
  else (true, { buffer with bytes := buffer.bytes ++ bytes })

def writeAll (buffer : BoundedJsonBuffer) : List Bytes → Bool × BoundedJsonBuffer
  | [] => (true, buffer)
  | piece :: rest =>
    match buffer.write piece with
    | (true, buffer) => buffer.writeAll rest
    | (false, buffer) => (false, buffer)

end BoundedJsonBuffer

def toStringWithLimit (pieces : List Bytes) (limit : UInt64) : Except BoundedJsonError Bytes :=
  match (BoundedJsonBuffer.new limit).writeAll pieces with
  | (true, output) => .ok output.bytes
  | (false, output) =>
    if output.limitExceeded then .error (.limitExceeded limit) else .error .serialization

/-! ## Escaping in place -/

def jsonEscapedByteLen (byte : UInt8) : Nat :=
  if byte = quote ∨ byte = backslash ∨ byte = 8 ∨ byte = 9 ∨ byte = 10 ∨ byte = 12 ∨
    byte = 13 then 2
  else if byte ≤ 31 then 6
  else 1

/-- What the loop writes for a byte. -/
def escapedBytes (byte : UInt8) : Bytes :=
  if byte = quote then [backslash, quote]
  else if byte = backslash then [backslash, backslash]
  else if byte = 8 then ascii "\\b"
  else if byte = 9 then ascii "\\t"
  else if byte = 10 then ascii "\\n"
  else if byte = 12 then ascii "\\f"
  else if byte = 13 then ascii "\\r"
  else if byte ≤ 31 then
    let hex := ascii "0123456789abcdef"
    ascii "\\u00" ++ [hex.getD (byte >>> 4).toNat 0, hex.getD (byte &&& 15).toNat 0]
  else [byte]

def copyFromSlice (output : Bytes) (start : Nat) (slice : Bytes) : Bytes :=
  output.take start ++ slice ++ output.drop (start + slice.length)

/-- The bytes before `read` are still those of the value; the result is written down from
`write`. -/
def escapeDown : Nat → Bytes → Nat → Bytes × Nat
  | 0, output, write => (output, write)
  | read + 1, output, write =>
    let escaped := escapedBytes (output.getD read 0)
    let write := write - escaped.length
    escapeDown read (copyFromSlice output write escaped) write

def escapedLen (value : Bytes) : Option Nat :=
  value.foldlM (fun total byte => checkedAdd total (jsonEscapedByteLen byte)) 0

def outputLen (value before after : Bytes) : Option (Nat × Nat) := do
  let escaped ← escapedLen value
  let total ← (checkedAdd before.length escaped).bind (checkedAdd · after.length)
  return (escaped, total)

def jsonStringBetweenWithLimit (value before after : Bytes) (limit : UInt64) :
    Except BoundedJsonError Bytes :=
  match outputLen value before after with
  | none => .error (.limitExceeded limit)
  | some (escaped, total) =>
    if limit.toNat < total then .error (.limitExceeded limit)
    else
      let output := value ++ List.replicate (total - value.length) 0
      let output := (escapeDown value.length output (before.length + escaped)).1
      let output := copyFromSlice output 0 before
      .ok (copyFromSlice output (total - after.length) after)

/-! ## Replies with one document -/

structure OwnedOuterHtmlResponse where
  id : UInt64
  outerHtml : Bytes
  sessionId : Option Bytes

def Json.asU64 : Json → Option UInt64
  | .number (.posInt value) => some value
  | _ => none

/-- A session identifier that is not a string makes the message another one. -/
def sessionIdOf (object : List (Bytes × Json)) : Option (Option Bytes) :=
  match object.lookup (ascii "sessionId") with
  | some (.string sessionId) => some (some sessionId)
  | some _ => none
  | none => some none

def outerHtmlOf : Option Json → Option Bytes
  | some (.object result) =>
    if result.length ≠ 1 then none
    else match result.lookup (ascii "outerHTML") with
      | some (.string outerHtml) => some outerHtml
      | _ => none
  | _ => none

def takeOwnedOuterHtmlResponse (message : Json) : Except Json OwnedOuterHtmlResponse :=
  match message with
  | .object object =>
    match (object.lookup (ascii "id")).bind Json.asU64, sessionIdOf object with
    | some id, some sessionId =>
      if object.length ≠ 2 + sessionId.isSome.toNat then .error message
      else match outerHtmlOf (object.lookup (ascii "result")) with
        | some outerHtml => .ok ⟨id, outerHtml, sessionId⟩
        | none => .error message
    | _, _ => .error message
  | message => .error message

def responseSuffix (sessionId : Option Bytes) (limit : UInt64) : Except BoundedJsonError Bytes :=
  match sessionId with
  | some sessionId => do
    let encoded ← toStringWithLimit (stringPieces sessionId) limit
    return ascii "\"\x7d,\"sessionId\":" ++ encoded ++ ascii "\x7d"
  | none => .ok (ascii "\"\x7d\x7d")

def serializeOwnedMessageWithLimit (floatText : UInt64 → Bytes) (message : Json) (limit : UInt64) :
    Except BoundedJsonError Bytes :=
  match takeOwnedOuterHtmlResponse message with
  | .error message => toStringWithLimit (pieces floatText message) limit
  | .ok response => do
    let before := ascii "\x7b\"id\":" ++ decimal response.id.toNat ++
      ascii ",\"result\":\x7b\"outerHTML\":\""
    let after ← responseSuffix response.sessionId limit
    jsonStringBetweenWithLimit response.outerHtml before after limit

end Moli.BoundedJson
