import Moli.Lib.Ensures
import Moli.WebSocket.Frames

/-!
# Reassembly does not depend on the chunks

A stream is a sequence of messages in data frames, with control frames in between, each frame cut
into chunks. Pushing its chunks gives the messages and the control frames in order, whatever the
cuts (`reassembly`).
-/

namespace Moli.WebSocket

open Lib.BigEndian List

/-! ## Streams -/

abbrev Event := Except String Received

/-- The chunks of a payload: there are bytes left until the last one. -/
def IsCut : List Bytes → Prop
  | [] => False
  | [_] => True
  | _ :: chunks => chunks.flatten ≠ [] ∧ IsCut chunks

/-- A payload that is cut into chunks. -/
structure Cut where
  chunks : List Bytes
  isCut : IsCut chunks
  fits : chunks.flatten.length ≤ maxFrameBytes

def Cut.payload (cut : Cut) : Bytes := cut.chunks.flatten

/-- The chunks of a frame with their metadata, from an offset on. -/
def frameChunks (flags : WsFlags) (offset : Nat) : List Bytes → List Chunk
  | [] => []
  | chunk :: chunks => (chunk, ⟨flags, offset, chunk.length, chunks.flatten.length⟩) ::
      frameChunks flags (offset + chunk.length) chunks

inductive ControlKind where
  | ping | pong | close

inductive DataKind where
  | text | binary

structure Control where
  kind : ControlKind
  cut : Cut

namespace Control

def flags (control : Control) : WsFlags :=
  match control.kind with
  | .ping => WsFlags.ping
  | .pong => WsFlags.pong
  | .close => WsFlags.close

def chunks (control : Control) : List Chunk :=
  frameChunks control.flags 0 control.cut.chunks

def event (control : Control) : Event :=
  match control.kind with
  | .ping => .ok (.ping control.cut.payload)
  | .pong => .ok .pong
  | .close => (parseClose control.cut.payload).map fun (code, reason) =>
      .close code reason control.cut.payload

end Control

/-- A data frame, after the control frames that come before it. -/
structure Fragment where
  controls : List Control
  cut : Cut

namespace Fragment

def chunks (flags : WsFlags) (fragment : Fragment) : List Chunk :=
  fragment.controls.flatMap Control.chunks ++ frameChunks flags 0 fragment.cut.chunks

def events (fragment : Fragment) : List Event :=
  fragment.controls.map Control.event

end Fragment

structure Message where
  kind : DataKind
  continued : List Fragment
  last : Fragment
  fits : (continued.flatMap (·.cut.payload) ++ last.cut.payload).length ≤ maxMessageBytes

namespace Message

def flags (message : Message) : WsFlags :=
  match message.kind with
  | .text => WsFlags.text
  | .binary => WsFlags.binary

def payload (message : Message) : Bytes :=
  message.continued.flatMap (·.cut.payload) ++ message.last.cut.payload

def chunks (message : Message) : List Chunk :=
  message.continued.flatMap (·.chunks (message.flags ||| WsFlags.cont)) ++
    message.last.chunks message.flags

def event (message : Message) : Event :=
  match message.kind with
  | .text =>
    match fromUtf8 message.payload with
    | some text => .ok (.text text)
    | none => .error "WebSocket text is not valid UTF-8"
  | .binary => .ok (.binary message.payload)

def events (message : Message) : List Event :=
  message.continued.flatMap Fragment.events ++ (message.last.events ++ [message.event])

end Message

/-- Messages and the control frames after the last one. -/
structure Stream where
  messages : List Message
  controls : List Control

namespace Stream

def chunks (stream : Stream) : List Chunk :=
  stream.messages.flatMap Message.chunks ++ stream.controls.flatMap Control.chunks

def events (stream : Stream) : List Event :=
  stream.messages.flatMap Message.events ++ stream.controls.map Control.event

end Stream

/-! ## Pushes -/

/-- What a push has for the session. -/
def emitted : Except String (Option Received) → Option Event
  | .ok received => received.map .ok
  | .error message => some (.error message)

theorem emitted_some (event : Event) :
    (emitted (event.map some)).toList = [event] := by
  cases event <;> rfl

namespace Assembler

variable {a b c : Assembler} {xs ys : List Chunk}
variable {es fs : List Event} {flags : WsFlags}

/-- Pushing the chunks emits the events, and the message stays within its limit. -/
inductive Emits : Assembler → List Chunk → List Event → Assembler → Prop
  | nil (a : Assembler) : Emits a [] [] a
  | cons {a b : Assembler} {p : Assembler × Except String (Option Received)} {data : Bytes}
      {frame : WsFrame} {xs : List Chunk} {es : List Event}
      (hpush : a.push data frame = p) (hbound : p.1.message.length ≤ maxMessageBytes)
      (hrest : Emits p.1 xs es b) : Emits a ((data, frame) :: xs) ((emitted p.2).toList ++ es) b

namespace Emits

theorem run_eq (h : Emits a xs es b) : (a.run xs).filterMap (emitted ·.2) = es ∧
    ∀ result ∈ a.run xs, result.1.message.length ≤ maxMessageBytes := by
  induction h with
  | nil a => exact ⟨rfl, by simp [run]⟩
  | @cons _ _ p _ _ _ _ hpush hbound _ ih =>
    rw [run, hpush, forall_mem_cons, filterMap_cons, ih.1]
    refine ⟨?_, hbound, ih.2⟩
    cases emitted p.2 <;> rfl

theorem append (h : Emits a xs es b) (h' : Emits b ys fs c) : Emits a (xs ++ ys) (es ++ fs) c := by
  induction h with
  | nil a => exact h'
  | cons hpush hbound _ ih =>
    rw [append_assoc]
    exact .cons hpush hbound (ih h')

theorem flatMap {α : Type} {f : α → List Chunk} {g : α → List Event}
    (h : ∀ x, Emits a (f x) (g x) a) (xs : List α) : Emits a (xs.flatMap f) (xs.flatMap g) a := by
  induction xs with
  | nil => exact .nil a
  | cons x xs ih => exact (h x).append ih

end Emits

/-- There is room for `n` more bytes of a frame. -/
def Room (a : Assembler) (flags : WsFlags) (n : Nat) : Prop :=
  a.message.length + (if isControl flags then 0 else n) ≤ maxMessageBytes

theorem push_eq (data : Bytes) (frame : WsFrame)
    (hframe : frame.len + frame.bytesLeft ≤ maxFrameBytes)
    (hroom : a.Room frame.flags (frame.len + frame.bytesLeft)) :
    a.push data frame = if frame.bytesLeft ≠ 0 then (a.buffer frame.flags data, .ok none)
      else (a.buffer frame.flags data).complete frame.flags := by
  unfold push
  rw [if_neg (by omega), if_neg]
  rintro ⟨-, hdata, hlarge⟩
  rw [Room, if_neg (by simpa using hdata)] at hroom
  omega

theorem buffer_append (x y : Bytes) :
    (a.buffer flags x).buffer flags y = a.buffer flags (x ++ y) := by
  unfold buffer
  split_ifs <;> simp

theorem length_complete_le : (a.complete flags).1.message.length ≤ a.message.length := by
  unfold complete
  split_ifs <;> simp

/-- A frame is pushed as one, however it is cut. -/
theorem emits_frame (flags : WsFlags) (offset : Nat) {chunks : List Bytes} (hcut : IsCut chunks)
    (hframe : chunks.flatten.length ≤ maxFrameBytes) (hroom : a.Room flags chunks.flatten.length) :
    Emits a (frameChunks flags offset chunks)
      (emitted ((a.buffer flags chunks.flatten).complete flags).2).toList
      ((a.buffer flags chunks.flatten).complete flags).1 := by
  induction chunks generalizing a offset with
  | nil => cases hcut
  | cons chunk chunks ih =>
    rw [flatten_cons, length_append] at hframe hroom
    have hpush := push_eq chunk ⟨flags, offset, chunk.length, chunks.flatten.length⟩ hframe hroom
    have hbuffer : (a.buffer flags chunk).Room flags chunks.flatten.length := by
      unfold Room buffer at *
      split_ifs at * <;> simp at * <;> omega
    have hbound : (a.buffer flags chunk).message.length ≤ maxMessageBytes :=
      Nat.le_of_add_right_le hbuffer
    cases chunks with
    | nil =>
      have h := Emits.cons hpush (length_complete_le.trans hbound) (.nil _)
      rw [append_nil] at h
      rwa [flatten_singleton]
    | cons next chunks =>
      rw [if_pos (mt length_eq_zero_iff.1 hcut.1)] at hpush
      have h := Emits.cons hpush hbound (ih (offset + chunk.length) hcut.2 (by omega) hbuffer)
      rwa [buffer_append] at h

variable {m : Bytes}

theorem emits_control (hbound : m.length ≤ maxMessageBytes) (control : Control) :
    Emits ⟨m, []⟩ control.chunks [control.event] ⟨m, []⟩ := by
  have hcontrol : isControl control.flags = true := by
    unfold Control.flags
    cases control.kind <;> rfl
  have hcomplete : (buffer ⟨m, []⟩ control.flags control.cut.payload).complete control.flags =
      (⟨m, []⟩, control.event.map some) := by
    unfold Control.flags Control.event
    cases control.kind <;> rfl
  have h := emits_frame (a := ⟨m, []⟩) control.flags 0 control.cut.isCut
    control.cut.fits (by rwa [Room, if_pos hcontrol])
  rwa [← Cut.payload, hcomplete, emitted_some] at h

/-- The control frames before a data frame leave the message as it is. -/
theorem emits_fragment (fragment : Fragment) (hflags : isControl flags = false)
    (hroom : (m ++ fragment.cut.payload).length ≤ maxMessageBytes) :
    Emits ⟨m, []⟩ (fragment.chunks flags)
      (fragment.events ++ (emitted (complete ⟨m ++ fragment.cut.payload, []⟩ flags).2).toList)
      (complete ⟨m ++ fragment.cut.payload, []⟩ flags).1 := by
  rw [length_append] at hroom
  have hcontrols := Emits.flatMap (emits_control (Nat.le_of_add_right_le hroom)) fragment.controls
  have hframe := emits_frame (a := ⟨m, []⟩) flags 0 fragment.cut.isCut fragment.cut.fits
    (by rwa [Room, hflags])
  rw [buffer, if_neg (by simp [hflags])] at hframe
  rw [← map_eq_flatMap] at hcontrols
  exact hcontrols.append hframe

theorem emits_continued (fragments : List Fragment) (hflags : isControl flags = false)
    (hcont : flags &&& WsFlags.cont ≠ 0)
    (hroom : (m ++ fragments.flatMap (·.cut.payload)).length ≤ maxMessageBytes) :
    Emits ⟨m, []⟩ (fragments.flatMap (·.chunks flags)) (fragments.flatMap Fragment.events)
      ⟨m ++ fragments.flatMap (·.cut.payload), []⟩ := by
  induction fragments generalizing m with
  | nil => simpa using Emits.nil _
  | cons fragment fragments ih =>
    rw [flatMap_cons, ← append_assoc] at hroom
    have hfirst := emits_fragment fragment hflags
      (Nat.le_of_add_right_le (length_append ▸ hroom))
    rw [complete, if_neg (by simp [hflags]), if_pos hcont] at hfirst
    have h := hfirst.append (ih hroom)
    simpa [emitted] using h

theorem emits_message (message : Message) : Emits {} message.chunks message.events {} := by
  have hflags : isControl message.flags = false ∧ isControl (message.flags ||| WsFlags.cont) =
      false ∧ (message.flags ||| WsFlags.cont) &&& WsFlags.cont ≠ 0 := by
    unfold Message.flags
    cases message.kind <;> decide
  have hcomplete : complete ⟨message.payload, []⟩ message.flags = ({}, message.event.map some) := by
    unfold Message.flags Message.event
    cases message.kind <;> rfl
  have hfits : message.payload.length ≤ maxMessageBytes := message.fits
  have hcontinued := emits_continued (m := []) message.continued hflags.2.1 hflags.2.2
    (Nat.le_of_add_right_le (length_append ▸ hfits))
  have hlast := emits_fragment message.last hflags.1 hfits
  rw [← Message.payload, hcomplete, emitted_some] at hlast
  exact hcontinued.append hlast

theorem fromUtf8_eq_some_iff {bytes : Bytes} {text : String} :
    fromUtf8 bytes = some text ↔ bytes = text.toUTF8.data.toList := by
  unfold fromUtf8 String.fromUTF8?
  constructor
  · intro h
    split at h
    · obtain rfl := Option.some.inj h
      rfl
    · cases h
  · rintro rfl
    simp [text.isValidUTF8, String.fromUTF8]

section Close

variable {code : UInt16} {reason : String} {payload : Bytes}

/-- What is accepted as a close payload: nothing, or a valid code and a reason of up to 123
bytes. -/
theorem parseClose_eq_ok_iff :
    parseClose payload = .ok (code, reason) ↔ payload = [] ∧ code = 1005 ∧ reason = "" ∨
      payload = beBytes 2 code.toNat ++ reason.toUTF8.data.toList ∧ payload.length ≤ 125 ∧
        closeCodeIsValid code = true := by
  by_cases hempty : payload = []
  · subst hempty
    change Except.ok (1005, "") = Except.ok (code, reason) ↔ _
    have hne : [] ≠ beBytes 2 code.toNat ++ reason.toUTF8.data.toList := by simp [beBytes]
    rw [or_iff_left fun h => hne h.1, Except.ok.injEq, Prod.mk.injEq, eq_comm, @eq_comm _ "",
      and_iff_right rfl]
  rw [parseClose, if_neg (by simpa using hempty)]
  constructor
  · intro h
    split at h
    · cases h
    next hlength =>
    dsimp only at h
    split at h
    · cases h
    next hvalid =>
    cases hreason : fromUtf8 (payload.drop 2) with
    | none =>
      rw [hreason] at h
      cases h
    | some text =>
      rw [hreason] at h
      cases h
      have hcode := ofBeBytes_lt (payload.take 2)
      have htake : (payload.take 2).length = 2 := by rw [length_take]; omega
      have hbytes := beBytes_ofBeBytes (payload.take 2)
      rw [htake] at hcode hbytes
      refine .inr ⟨?_, by omega, by simpa using hvalid⟩
      rw [← fromUtf8_eq_some_iff.1 hreason, UInt16.toNat_ofNat_of_lt' hcode]
      rw [hbytes, take_append_drop]
  · rintro (h | ⟨hpayload, hlength, hvalid⟩)
    · exact absurd h.1 hempty
    · have hcode : UInt16.ofNat (ofBeBytes (beBytes 2 code.toNat)) = code := by
        rw [ofBeBytes_beBytes (k := 2) code.toNat_lt, UInt16.ofNat_toNat]
      have htwo : 2 ≤ payload.length := by simp [hpayload]
      rw [if_neg (by omega), hpayload, take_left' (length_beBytes 2 _),
        drop_left' (length_beBytes 2 _), hcode, fromUtf8_eq_some_iff.2 rfl]
      simp [hvalid]

theorem parseClose_closePayload (h : closePayload (some code) reason = .ok payload) :
    parseClose payload = .ok (code, reason) := by
  obtain ⟨parsed, hparse, hpayload⟩ := Lib.bind_eq_ok.1 h
  cases hpayload
  rcases parseClose_eq_ok_iff.1 hparse with ⟨hnil, -⟩ | ⟨hpayload, hlength, hvalid⟩
  · simp [beBytes] at hnil
  · -- the first two bytes determine the code
    have hbytes := congrArg ofBeBytes (append_inj_left hpayload (by simp))
    rw [ofBeBytes_beBytes (k := 2) code.toNat_lt, ofBeBytes_beBytes (k := 2) parsed.1.toNat_lt,
      UInt16.toNat_inj] at hbytes
    exact parseClose_eq_ok_iff.2 (.inr ⟨rfl, hlength, hbytes ▸ hvalid⟩)

end Close

end Assembler

open Assembler

/-- The chunks of a stream give its messages and control frames in order, and the buffered message
stays within its limit; a close payload that is accepted for sending reads back. -/
theorem reassembly (stream : Stream) :
    (run {} stream.chunks).filterMap (emitted ·.2) = stream.events ∧
    (∀ result ∈ run {} stream.chunks, result.1.message.length ≤ maxMessageBytes) ∧
    ∀ code reason payload, closePayload (some code) reason = .ok payload →
      parseClose payload = .ok (code, reason) := by
  have hmessages := Emits.flatMap emits_message stream.messages
  have hcontrols := Emits.flatMap (emits_control (m := []) (Nat.zero_le _)) stream.controls
  rw [← map_eq_flatMap] at hcontrols
  obtain ⟨hevents, hbound⟩ := (hmessages.append hcontrols).run_eq
  exact ⟨hevents, hbound, fun code reason payload => parseClose_closePayload⟩

/-- A text in two fragments, the first in two chunks, with a ping in between; and a payload. -/
theorem reassembly_ping :
    (run {} [([104], ⟨5, 0, 1, 1⟩), ([105], ⟨5, 1, 1, 0⟩), ([7], ⟨16, 0, 1, 0⟩),
        ([], ⟨1, 0, 0, 0⟩)]).filterMap (emitted ·.2) = [.ok (.ping [7]), .ok (.text "hi")] ∧
      parseClose [3, 232] = .ok (1000, "") := by
  have h := reassembly ⟨[⟨.text, [⟨[], ⟨[[104], [105]], by simp [IsCut], by decide⟩⟩],
    ⟨[⟨.ping, ⟨[[7]], trivial, by decide⟩⟩], ⟨[[]], trivial, by decide⟩⟩, by decide⟩], []⟩
  refine ⟨h.1.trans (by decide), h.2.2 1000 "" _ (by decide)⟩

end Moli.WebSocket
