import Moli.Lib.Endian

/-!
# WebSocket messages from native chunks

libcurl decodes frames and delivers their payloads in chunks. The assembler buffers them within the
size limits and gives the session whole messages and control frames.
-/

namespace Moli.WebSocket

open Lib.BigEndian

abbrev Bytes := List UInt8

abbrev WsFlags := UInt32

namespace WsFlags

def text : WsFlags := 1
def binary : WsFlags := 2
def cont : WsFlags := 4
def close : WsFlags := 8
def ping : WsFlags := 16
def pong : WsFlags := 64

end WsFlags

/-- The metadata of a chunk. The lengths are within 63 bits, so that no sum of theirs overflows. -/
structure WsFrame where
  flags : WsFlags
  offset : Nat
  len : Nat
  bytesLeft : Nat

abbrev Chunk := Bytes × WsFrame

def maxFrameBytes : Nat := 16 * 1024 * 1024

def maxMessageBytes : Nat := 64 * 1024 * 1024

inductive Received where
  | text (message : String)
  | binary (message : Bytes)
  | ping (payload : Bytes)
  | pong
  | close (code : UInt16) (reason : String) (payload : Bytes)
  deriving DecidableEq

/-! ## Close payloads -/

def fromUtf8 (bytes : Bytes) : Option String := String.fromUTF8? ⟨bytes.toArray⟩

def closeCodeIsValid (code : UInt16) : Bool :=
  1000 ≤ code && code ≤ 1003 || 1007 ≤ code && code ≤ 1014 || 3000 ≤ code && code ≤ 4999

def parseClose (payload : Bytes) : Except String (UInt16 × String) :=
  if payload.isEmpty then .ok (1005, "")
  else if payload.length < 2 ∨ 125 < payload.length then
    .error "WebSocket close payload has invalid length"
  else
    let code := UInt16.ofNat (ofBeBytes (payload.take 2))
    if !closeCodeIsValid code then .error s!"WebSocket received invalid close code {code}"
    else
      match fromUtf8 (payload.drop 2) with
      | some reason => .ok (code, reason)
      | none => .error "WebSocket close reason is not valid UTF-8"

def closePayload (code : Option UInt16) (reason : String) : Except String Bytes :=
  match code with
  | none => .ok []
  | some code => do
    let payload := beBytes 2 code.toNat ++ reason.toUTF8.data.toList
    let _ ← parseClose payload
    return payload

/-! ## The assembler -/

structure Assembler where
  message : Bytes := []
  control : Bytes := []

namespace Assembler

def kindOf (flags : WsFlags) : WsFlags := flags &&& ~~~WsFlags.cont

def isControl (flags : WsFlags) : Bool :=
  kindOf flags == WsFlags.close || kindOf flags == WsFlags.ping || kindOf flags == WsFlags.pong

def buffer (a : Assembler) (flags : WsFlags) (data : Bytes) : Assembler :=
  if isControl flags then { a with control := a.control ++ data }
  else { a with message := a.message ++ data }

/-- The end of a frame. -/
def complete (a : Assembler) (flags : WsFlags) : Assembler × Except String (Option Received) :=
  if isControl flags then
    ({ a with control := [] }, Except.map some <|
      if kindOf flags = WsFlags.ping then .ok (.ping a.control)
      else if kindOf flags = WsFlags.pong then .ok .pong
      else (parseClose a.control).map fun (code, reason) => .close code reason a.control)
  else if flags &&& WsFlags.cont ≠ 0 then (a, .ok none)
  else
    ({ a with message := [] }, Except.map some <|
      if kindOf flags = WsFlags.text then
        match fromUtf8 a.message with
        | some message => .ok (.text message)
        | none => .error "WebSocket text is not valid UTF-8"
      else .ok (.binary a.message))

def push (a : Assembler) (data : Bytes) (frame : WsFrame) :
    Assembler × Except String (Option Received) :=
  let size := frame.len + frame.bytesLeft
  if frame.offset = 0 ∧ maxFrameBytes < size then (a, .error "WebSocket frame exceeds size limit")
  else if frame.offset = 0 ∧ !isControl frame.flags ∧ maxMessageBytes < a.message.length + size then
    (a, .error "WebSocket message exceeds size limit")
  else
    let a := a.buffer frame.flags data
    if frame.bytesLeft ≠ 0 then (a, .ok none) else a.complete frame.flags

/-- The result of every push, with the assembler after it. The session stops at the first error. -/
def run (a : Assembler) :
    List Chunk → List (Assembler × Except String (Option Received))
  | [] => []
  | (data, frame) :: rest => a.push data frame :: (a.push data frame).1.run rest

end Assembler

end Moli.WebSocket
