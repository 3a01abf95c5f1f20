import OpenshiftConsole.Library.Base64
import OpenshiftConsole.Library.Lines
import OpenshiftConsole.Library.Utf8

/-!
# The exec channel

`ExecChannel` speaks the protocol `base64.channel.k8s.io`: a message is a channel's digit and the
frame's bytes in base 64. `onMessage` decodes each message by itself and hands the text to the
terminal.

The bytes of the standard output are cut into frames anywhere, also inside a character. The
terminal gets the text of the whole output exactly if no frame ends in a sequence that the next
byte goes on with (`output_iff`).

`Base64.decode` is a parameter; what is relied on is that it decodes the bytes of each call by
themselves.
-/

namespace OpenshiftConsole.Terminal.ExecChannel

open OpenshiftConsole.Library
open OpenshiftConsole.Library.Lines (Text)

/-- `ERROR_CHANNEL` -/
def errorChannel : Char := '3'

/-- The standard output. -/
def stdoutChannel : Char := '1'

/-- The data of a message event. -/
inductive Message where
  | string (s : Text)
  /-- A blob, a buffer. -/
  | other

/-- A call of a handler. -/
inductive Call where
  | onData (data : Text)
  | onStreamError (message : Text)

/-- `onMessage` -/
def onMessage (decode : Text → Text) : Message → List Call
  | .string (channel :: s) =>
    let payload := decode s
    if channel = errorChannel then [.onStreamError payload] else [.onData payload]
  | .string [] => []
  | .other => []

/-- The calls of a sequence of messages. -/
def calls (decode : Text → Text) (ms : List Message) : List Call := ms.flatMap (onMessage decode)

/-- The text that is handed to the terminal. -/
def output : List Call → Text
  | [] => []
  | .onData data :: cs => data ++ output cs
  | .onStreamError _ :: cs => output cs

/-- What the endpoint sends. -/
inductive Frame where
  | stdout (bytes : List UInt8)
  | error (bytes : List UInt8)
  /-- An empty message, or one that is no string. -/
  | void (m : Message) (hm : m = .string [] ∨ m = .other)

/-- A frame as a message. -/
def Frame.message (encode : List UInt8 → Text) : Frame → Message
  | .stdout bytes => .string (stdoutChannel :: encode bytes)
  | .error bytes => .string (errorChannel :: encode bytes)
  | .void m _ => m

/-- The frames of the standard output. -/
def stdoutFrames : List Frame → List (List UInt8)
  | [] => []
  | .stdout bytes :: fs => bytes :: stdoutFrames fs
  | .error _ :: fs => stdoutFrames fs
  | .void _ _ :: fs => stdoutFrames fs

variable {decode : Text → Text} {encode : List UInt8 → Text}

/-- `Base64.decode` decodes the bytes of a call by themselves. -/
def DecodesAlone (decode : Text → Text) (encode : List UInt8 → Text) : Prop :=
  ∀ bytes, decode (encode bytes) = Utf8.decode bytes

theorem output_append (cs ds : List Call) : output (cs ++ ds) = output cs ++ output ds := by
  induction cs with
  | nil => rfl
  | cons c cs ih => cases c <;> simp [output, ih]

/-- The terminal is handed the frames of the standard output, each decoded by itself. -/
theorem output_calls (h : DecodesAlone decode encode) (fs : List Frame) :
    output (calls decode (fs.map (Frame.message encode))) = (stdoutFrames fs).flatMap Utf8.decode := by
  induction fs with
  | nil => rfl
  | cons f fs ih =>
    rw [calls, List.map_cons, List.flatMap_cons, output_append]
    cases f with
    | stdout bytes =>
      have hdata : onMessage decode (Frame.message encode (.stdout bytes)) = [.onData (Utf8.decode bytes)] := by
        rw [← h bytes]
        rfl
      rw [hdata, stdoutFrames, List.flatMap_cons, ← ih]
      simp [output, calls]
    | error bytes =>
      have herror : onMessage decode (Frame.message encode (.error bytes)) = [.onStreamError (decode (encode bytes))] := rfl
      rw [herror, stdoutFrames, ← ih]
      rfl
    | void m hm =>
      have hvoid : onMessage decode (Frame.message encode (.void m hm)) = [] := by
        rcases hm with rfl | rfl <;> rfl
      rw [hvoid, stdoutFrames, ← ih]
      rfl

/-- **When the terminal gets the text of the output**: exactly if no frame of it ends in a sequence
that the next byte goes on with. -/
theorem output_iff (h : DecodesAlone decode encode) (fs : List Frame) :
    output (calls decode (fs.map (Frame.message encode))) = Utf8.decode (stdoutFrames fs).flatten ↔
      ∀ l p r, stdoutFrames fs = l ++ p :: r → ¬ Utf8.Splits p r.flatten := by
  rw [output_calls h]
  exact Utf8.flatMap_decode_iff (stdoutFrames fs)

/-- What the package does. -/
def base64Decode (s : Text) : Text := Utf8.decode (Base64.decode s)

theorem base64Decode_alone : DecodesAlone base64Decode Base64.encode := by
  intro bytes
  rw [base64Decode, Base64.decode_encode]

/-- A euro sign in one frame. -/
theorem output_iff_euro :
    output (calls base64Decode ([.stdout [0xE2, 0x82, 0xAC]].map (Frame.message Base64.encode))) =
        Utf8.decode (stdoutFrames [.stdout [0xE2, 0x82, 0xAC]]).flatten ↔
      ∀ l p r, stdoutFrames [.stdout [0xE2, 0x82, 0xAC]] = l ++ p :: r → ¬ Utf8.Splits p r.flatten :=
  output_iff base64Decode_alone [.stdout [0xE2, 0x82, 0xAC]]

/-- An é that is cut in two. -/
theorem output_cut :
    ¬ ∀ (decode : Text → Text) (encode : List UInt8 → Text), DecodesAlone decode encode → ∀ fs : List Frame,
      output (calls decode (fs.map (Frame.message encode))) = Utf8.decode (stdoutFrames fs).flatten := by
  intro h
  have hcut := h base64Decode Base64.encode base64Decode_alone [.stdout [0xC3], .stdout [0xA9]]
  rw [output_calls base64Decode_alone] at hcut
  revert hcut
  decide

end OpenshiftConsole.Terminal.ExecChannel
