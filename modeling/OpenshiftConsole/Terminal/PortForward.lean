import Mathlib.Data.List.Basic
import Mathlib.Logic.Function.Basic
import Mathlib.Tactic.Common

/-!
# The port-forward channel

`PortForwardChannel` gives noVNC the data channel of a port-forward websocket. Each binary
message is a channel byte and a payload, and each channel begins with the port in two bytes,
which may come in pieces and between pieces of the other channel.

A state holds what of each channel's header is still to come; what the channel does with a
message is a list of calls of the handlers. `channel_delivers` says what they are for any
messages: the data is what the data channel holds after its header, and the channel opens once,
with the message that completes that header.

`TextDecoder` is a parameter: an error is reported piece by piece, each piece decoded on its own.
-/

namespace OpenshiftConsole.Terminal.PortForward

/-! ### The channel -/

/-- The data of a message event. -/
inductive Message where
  | arrayBuffer (bytes : List UInt8)
  /-- A view of some bytes of a buffer. -/
  | view (buffer : List UInt8) (byteOffset byteLength : ℕ)
  /-- A string, a blob. -/
  | other

/-- `toUint8Array` -/
def toUint8Array : Message → Option (List UInt8)
  | .arrayBuffer bytes => some bytes
  | .view buffer byteOffset byteLength => some ((buffer.drop byteOffset).take byteLength)
  | .other => none

/-- `DATA_CHANNEL` -/
def dataChannel : UInt8 := 0

/-- `ERROR_CHANNEL` -/
def errorChannel : UInt8 := 1

/-- `PORT_HEADER_BYTES` -/
def portHeaderBytes : ℕ := 2

/-- What a socket or channel reports of itself. -/
inductive ReadyState where
  | connecting | open | closing | closed
  deriving DecidableEq

/-- `PortForwardChannel` -/
structure Channel where
  /-- The bytes of a channel's header that are still to come, for the channels there are. -/
  pendingHeaderBytes : UInt8 → Option ℕ
  opened : Bool

/-- The channel as it is made. -/
def Channel.new : Channel where
  pendingHeaderBytes c := if c = dataChannel ∨ c = errorChannel then some portHeaderBytes else none
  opened := false

/-- `readyState`, given the socket's. -/
def Channel.readyState (c : Channel) (socket : ReadyState) : ReadyState :=
  if socket = .open ∧ c.opened = false then .connecting else socket

variable {τ : Type*}

/-- A call of a handler. -/
inductive Event (τ : Type*) where
  | onopen
  | onmessage (data : List UInt8)
  | onStreamError (message : τ)
  | onerror (message : τ)

variable (decode : List UInt8 → τ)

/-- The end of `onSocketMessage`: what is left of a payload after the header is handed on. -/
def handOn (channel : UInt8) (payload : List UInt8) : List (Event τ) :=
  if payload = [] then []
  else if channel = errorChannel then [.onStreamError (decode payload), .onerror (decode payload)]
  else if channel = dataChannel then [.onmessage payload]
  else []

/-- `onSocketMessage` -/
def onSocketMessage (c : Channel) (m : Message) : Channel × List (Event τ) :=
  match toUint8Array m with
  | none | some [] => (c, [])
  | some (channel :: payload) =>
    match c.pendingHeaderBytes channel with
    | none | some 0 => (c, handOn decode channel payload)
    | some (pending + 1) =>
      let consumed := min (pending + 1) payload.length
      let c := { c with
        pendingHeaderBytes := Function.update c.pendingHeaderBytes channel (some (pending + 1 - consumed)) }
      let rest := handOn decode channel (payload.drop consumed)
      if channel = dataChannel ∧ c.pendingHeaderBytes channel = some 0 then ({ c with opened := true }, .onopen :: rest)
      else (c, rest)

/-- What the channel comes to over a sequence of messages, and the calls it makes. -/
def run (c : Channel) : List Message → Channel × List (Event τ)
  | [] => (c, [])
  | m :: ms =>
    let r := onSocketMessage decode c m
    let s := run r.1 ms
    (s.1, r.2 ++ s.2)

/-! ### What the messages carry -/

/-- The bytes that a message has for a channel. -/
def payloadOf (channel : UInt8) (m : Message) : List UInt8 :=
  match toUint8Array m with
  | some (c :: payload) => if c = channel then payload else []
  | _ => []

/-- The bytes of a channel. -/
def bytesOf (channel : UInt8) (ms : List Message) : List UInt8 := ms.flatMap (payloadOf channel)

/-- The data that calls hand over. -/
def dataOf (es : List (Event τ)) : List UInt8 :=
  es.flatMap fun
    | .onmessage data => data
    | _ => []

/-- The messages reported to `onStreamError`. -/
def streamErrors (es : List (Event τ)) : List τ :=
  es.filterMap fun
    | .onStreamError message => some message
    | _ => none

/-- The messages reported to `onerror`. -/
def errors (es : List (Event τ)) : List τ :=
  es.filterMap fun
    | .onerror message => some message
    | _ => none

/-- How often the channel opens. -/
def opens (es : List (Event τ)) : ℕ :=
  es.countP fun
    | .onopen => true
    | _ => false

@[simp] theorem bytesOf_cons (channel : UInt8) (m : Message) (ms : List Message) :
    bytesOf channel (m :: ms) = payloadOf channel m ++ bytesOf channel ms := List.flatMap_cons

@[simp] theorem dataOf_append (es fs : List (Event τ)) : dataOf (es ++ fs) = dataOf es ++ dataOf fs :=
  List.flatMap_append

@[simp] theorem streamErrors_append (es fs : List (Event τ)) :
    streamErrors (es ++ fs) = streamErrors es ++ streamErrors fs := List.filterMap_append

@[simp] theorem errors_append (es fs : List (Event τ)) : errors (es ++ fs) = errors es ++ errors fs :=
  List.filterMap_append

@[simp] theorem opens_append (es fs : List (Event τ)) : opens (es ++ fs) = opens es + opens fs := List.countP_append

/-! ### One message -/

/-- The channel once so many bytes of the data and of the error channel have come. -/
def Channel.after (d e : ℕ) : Channel where
  pendingHeaderBytes c :=
    if c = dataChannel then some (portHeaderBytes - d)
    else if c = errorChannel then some (portHeaderBytes - e)
    else none
  opened := portHeaderBytes ≤ d

/-- The calls for a message that comes then. -/
def calls (d e : ℕ) (m : Message) : List (Event τ) :=
  (if d < portHeaderBytes ∧ portHeaderBytes ≤ d + (payloadOf dataChannel m).length then [.onopen] else []) ++
    handOn decode dataChannel ((payloadOf dataChannel m).drop (portHeaderBytes - d)) ++
      handOn decode errorChannel ((payloadOf errorChannel m).drop (portHeaderBytes - e))

theorem new_eq_after : Channel.new = .after 0 0 := by
  rw [Channel.new, Channel.after]
  congr 1
  funext c
  by_cases hd : c = dataChannel
  · simp [hd]
  · simp [hd]

@[simp] theorem handOn_nil (channel : UInt8) : handOn decode channel [] = [] := if_pos rfl

/-- A header that is not complete takes what it lacks from the payload. -/
theorem pending_sub (d n : ℕ) :
    portHeaderBytes - d - min (portHeaderBytes - d) n = portHeaderBytes - (d + n) := by
  omega

theorem drop_min (k : ℕ) (l : List UInt8) : l.drop (min k l.length) = l.drop k := by
  rcases Nat.le_total k l.length with h | h
  · rw [Nat.min_eq_left h]
  · rw [Nat.min_eq_right h, List.drop_length, List.drop_of_length_le h]

theorem update_data (d e n : ℕ) :
    Function.update (Channel.after d e).pendingHeaderBytes dataChannel (some (portHeaderBytes - (d + n))) =
      (Channel.after (d + n) e).pendingHeaderBytes := by
  funext c
  by_cases hd : c = dataChannel
  · subst hd
    simp [Channel.after]
  · simp [Channel.after, hd]

theorem update_error (d e n : ℕ) :
    Function.update (Channel.after d e).pendingHeaderBytes errorChannel (some (portHeaderBytes - (e + n))) =
      (Channel.after d (e + n)).pendingHeaderBytes := by
  funext c
  by_cases he : c = errorChannel
  · subst he
    simp [Channel.after, show errorChannel ≠ dataChannel by decide]
  · simp [Channel.after, he]

/-- A complete header stays complete. -/
theorem after_data_of_le {d : ℕ} (hd : portHeaderBytes ≤ d) (e n : ℕ) : Channel.after (d + n) e = .after d e := by
  have h₁ : portHeaderBytes - (d + n) = portHeaderBytes - d := by omega
  simp [Channel.after, h₁, hd, Nat.le_trans hd (Nat.le_add_right d n)]

theorem after_error_of_le {e : ℕ} (he : portHeaderBytes ≤ e) (d n : ℕ) : Channel.after d (e + n) = .after d e := by
  have h₁ : portHeaderBytes - (e + n) = portHeaderBytes - e := by omega
  simp [Channel.after, h₁]

/-- **One message**: the header bytes that are still to come are taken off, the rest is handed on. -/
theorem onSocketMessage_after (d e : ℕ) (m : Message) :
    onSocketMessage decode (.after d e) m =
      (.after (d + (payloadOf dataChannel m).length) (e + (payloadOf errorChannel m).length), calls decode d e m) := by
  unfold onSocketMessage calls payloadOf
  cases hm : toUint8Array m with
  | none => simp
  | some frame =>
    cases frame with
    | nil => simp
    | cons c payload =>
      have hne : dataChannel ≠ errorChannel := by decide
      by_cases hd : c = dataChannel
      · -- a piece of the data channel
        subst hd
        have hc : (Channel.after d e).pendingHeaderBytes dataChannel = some (portHeaderBytes - d) := by
          simp [Channel.after]
        cases hp : portHeaderBytes - d with
        | zero =>
          have hle : portHeaderBytes ≤ d := by omega
          rw [hp] at hc
          simp [hc, hne, after_data_of_le hle, Nat.not_lt.mpr hle]
        | succ k =>
          have hlt : d < portHeaderBytes := by omega
          rw [hp] at hc
          simp only [hc]
          rw [← hp, pending_sub, update_data]
          rw [drop_min]
          by_cases hfull : portHeaderBytes ≤ d + payload.length
          · have h₀ : portHeaderBytes - (d + payload.length) = 0 := Nat.sub_eq_zero_of_le hfull
            simp [Channel.after, hne, hlt, hfull, h₀]
          · have h₀ : portHeaderBytes - (d + payload.length) ≠ 0 := by omega
            simp [Channel.after, hne, Nat.not_le.mpr hlt, hfull, h₀]
      · by_cases he : c = errorChannel
        · -- a piece of the error channel
          subst he
          have hc : (Channel.after d e).pendingHeaderBytes errorChannel = some (portHeaderBytes - e) := by
            simp [Channel.after, hd]
          cases hp : portHeaderBytes - e with
          | zero =>
            have hle : portHeaderBytes ≤ e := by omega
            rw [hp] at hc
            simp [hc, hd, after_error_of_le hle]
          | succ k =>
            rw [hp] at hc
            simp only [hc]
            rw [← hp, pending_sub, update_error]
            rw [drop_min]
            simp [Channel.after, hd]
        · have hc : (Channel.after d e).pendingHeaderBytes c = none := by
            simp [Channel.after, hd, he]
          simp [hc, hd, he, handOn]

/-! ### What the calls are -/

theorem dataOf_handOn (channel : UInt8) (payload : List UInt8) :
    dataOf (handOn decode channel payload) = if channel = dataChannel then payload else [] := by
  rw [handOn]
  split
  · rename_i h
    simp [h, dataOf]
  · split
    · rename_i he
      simp [he, dataOf, show errorChannel ≠ dataChannel by decide]
    · split <;> simp [dataOf]

theorem opens_handOn (channel : UInt8) (payload : List UInt8) : opens (handOn decode channel payload) = 0 := by
  rw [handOn]
  split
  · rfl
  · split
    · simp [opens]
    · split <;> simp [opens]

theorem dataOf_calls (d e : ℕ) (m : Message) :
    dataOf (calls decode d e m) = (payloadOf dataChannel m).drop (portHeaderBytes - d) := by
  have hopen : dataOf (if d < portHeaderBytes ∧ portHeaderBytes ≤ d + (payloadOf dataChannel m).length
      then [.onopen] else [] : List (Event τ)) = [] := by
    split <;> rfl
  rw [calls, dataOf_append, dataOf_append, hopen, dataOf_handOn, dataOf_handOn, if_pos rfl, if_neg (by decide)]
  simp

/-- The channel opens with the message that completes the data channel's header. -/
theorem opens_calls (d e : ℕ) (m : Message) :
    opens (calls decode d e m) =
      if d < portHeaderBytes ∧ portHeaderBytes ≤ d + (payloadOf dataChannel m).length then 1 else 0 := by
  rw [calls, opens_append, opens_append, opens_handOn, opens_handOn, Nat.add_zero]
  split <;> rfl

/-- What is handed on of a payload: nothing where nothing is left of it. -/
def piece (payload : List UInt8) : List (List UInt8) := if payload = [] then [] else [payload]

theorem flatten_piece (payload : List UInt8) : (piece payload).flatten = payload := by
  rw [piece]
  split
  · rename_i h
    rw [h, List.flatten_nil]
  · simp

theorem reported_calls (d e : ℕ) (m : Message) :
    streamErrors (calls decode d e m) = (piece ((payloadOf errorChannel m).drop (portHeaderBytes - e))).map decode ∧
      errors (calls decode d e m) = (piece ((payloadOf errorChannel m).drop (portHeaderBytes - e))).map decode := by
  have hdata : ∀ payload : List UInt8, streamErrors (handOn decode dataChannel payload) = [] ∧
      errors (handOn decode dataChannel payload) = [] := by
    intro payload
    rw [handOn]
    split
    · exact ⟨rfl, rfl⟩
    · rw [if_neg (by decide), if_pos rfl]
      exact ⟨rfl, rfl⟩
  have herr : ∀ payload : List UInt8, streamErrors (handOn decode errorChannel payload) = (piece payload).map decode ∧
      errors (handOn decode errorChannel payload) = (piece payload).map decode := by
    intro payload
    rw [handOn, piece]
    split
    · exact ⟨rfl, rfl⟩
    · rw [if_pos rfl]
      exact ⟨rfl, rfl⟩
  have hopen : ∀ p : Prop, ∀ [Decidable p], streamErrors (if p then [.onopen] else [] : List (Event τ)) = [] ∧
      errors (if p then [.onopen] else [] : List (Event τ)) = [] := by
    intro p _
    split <;> exact ⟨rfl, rfl⟩
  constructor
  · rw [calls, streamErrors_append, streamErrors_append, (hopen _).1, (hdata _).1, (herr _).1]
    rfl
  · rw [calls, errors_append, errors_append, (hopen _).2, (hdata _).2, (herr _).2]
    rfl

/-- A channel that is not open and does not open hands no data over. -/
theorem silent_calls {d e : ℕ} {m : Message} {l : List (Event τ)} (hd : d < portHeaderBytes)
    (hl : l <+: calls decode d e m) (ho : opens l = 0) : dataOf l = [] := by
  by_cases hn : portHeaderBytes ≤ d + (payloadOf dataChannel m).length
  · -- the first call is the one that opens it
    rw [calls, if_pos ⟨hd, hn⟩, List.append_assoc, List.singleton_append] at hl
    rcases List.prefix_cons_iff.mp hl with rfl | ⟨l', rfl, -⟩
    · rfl
    · simp [opens] at ho
  · obtain ⟨k, hk⟩ := hl
    have hdata : dataOf l ++ dataOf k = [] := by
      rw [← dataOf_append, hk, dataOf_calls, List.drop_eq_nil_iff]
      omega
    exact (List.append_eq_nil_iff.mp hdata).1

/-! ### A sequence of messages -/

/-- What is left of a header's length, after one message and after the next. -/
theorem drop_payload (d : ℕ) (p q : List UInt8) :
    (p ++ q).drop (portHeaderBytes - d) =
      p.drop (portHeaderBytes - d) ++ q.drop (portHeaderBytes - (d + p.length)) := by
  rw [List.drop_append, Nat.sub_sub]

theorem run_fst (d e : ℕ) (ms : List Message) :
    (run decode (.after d e) ms).1 =
      .after (d + (bytesOf dataChannel ms).length) (e + (bytesOf errorChannel ms).length) := by
  induction ms generalizing d e with
  | nil => rfl
  | cons m ms ih =>
    rw [run, onSocketMessage_after]
    simp only [ih, bytesOf_cons, List.length_append, Nat.add_assoc]

theorem dataOf_run (d e : ℕ) (ms : List Message) :
    dataOf (run decode (.after d e) ms).2 = (bytesOf dataChannel ms).drop (portHeaderBytes - d) := by
  induction ms generalizing d e with
  | nil => simp [run, bytesOf, dataOf]
  | cons m ms ih =>
    rw [run, onSocketMessage_after, dataOf_append, dataOf_calls, ih, bytesOf_cons, drop_payload]

theorem opens_run (d e : ℕ) (ms : List Message) :
    opens (run decode (.after d e) ms).2 =
      if d < portHeaderBytes ∧ portHeaderBytes ≤ d + (bytesOf dataChannel ms).length then 1 else 0 := by
  induction ms generalizing d e with
  | nil =>
    rw [if_neg (fun h => absurd h.2 (Nat.not_le.mpr h.1))]
    rfl
  | cons m ms ih =>
    rw [run, onSocketMessage_after, opens_append, opens_calls, ih, bytesOf_cons, List.length_append]
    split <;> split <;> split <;> omega

theorem reported_run (d e : ℕ) (ms : List Message) :
    ∃ pieces : List (List UInt8), streamErrors (run decode (.after d e) ms).2 = pieces.map decode ∧
      errors (run decode (.after d e) ms).2 = pieces.map decode ∧
        pieces.flatten = (bytesOf errorChannel ms).drop (portHeaderBytes - e) := by
  induction ms generalizing d e with
  | nil => exact ⟨[], rfl, rfl, by simp [bytesOf]⟩
  | cons m ms ih =>
    obtain ⟨pieces, hs, he, hp⟩ := ih (d + (payloadOf dataChannel m).length) (e + (payloadOf errorChannel m).length)
    obtain ⟨hs', he'⟩ := reported_calls decode d e m
    refine ⟨piece ((payloadOf errorChannel m).drop (portHeaderBytes - e)) ++ pieces, ?_, ?_, ?_⟩
    · rw [run, onSocketMessage_after, streamErrors_append, hs', hs, List.map_append]
    · rw [run, onSocketMessage_after, errors_append, he', he, List.map_append]
    · rw [List.flatten_append, flatten_piece, hp, bytesOf_cons, drop_payload]

/-- No data before the channel opens. -/
theorem silent_run {d e : ℕ} {ms : List Message} {l : List (Event τ)} (hd : d < portHeaderBytes)
    (hl : l <+: (run decode (.after d e) ms).2) (ho : opens l = 0) : dataOf l = [] := by
  induction ms generalizing d e l with
  | nil =>
    obtain rfl := List.prefix_nil.mp hl
    rfl
  | cons m ms ih =>
    rw [run, onSocketMessage_after] at hl
    rcases List.prefix_or_prefix_of_prefix hl (List.prefix_append _ _) with hl' | ⟨k, rfl⟩
    · exact silent_calls decode hd hl' ho
    · rw [opens_append] at ho
      have hc := Nat.eq_zero_of_add_eq_zero_right ho
      have hd' : d + (payloadOf dataChannel m).length < portHeaderBytes := by
        rw [opens_calls] at hc
        by_contra hn
        rw [if_pos ⟨hd, by omega⟩] at hc
        exact absurd hc (by decide)
      rw [dataOf_append, silent_calls decode hd (List.prefix_refl _) hc, List.nil_append]
      exact ih hd' ((List.prefix_append_right_inj _).mp hl) (Nat.eq_zero_of_add_eq_zero_left ho)

/-- What the channel does with a sequence of messages, as it is meant. -/
structure Delivers (ms : List Message) (c : Channel) (es : List (Event τ)) : Prop where
  /-- What is handed over is what the data channel holds after its header. -/
  data : dataOf es = (bytesOf dataChannel ms).drop portHeaderBytes
  /-- What is reported is what the error channel holds after its header, in pieces. -/
  reported : ∃ pieces : List (List UInt8), streamErrors es = pieces.map decode ∧ errors es = pieces.map decode ∧
    pieces.flatten = (bytesOf errorChannel ms).drop portHeaderBytes
  /-- The channel opens once the data channel's header is complete, and once only. -/
  opens : opens es = if portHeaderBytes ≤ (bytesOf dataChannel ms).length then 1 else 0
  /-- Nothing is handed over before. -/
  silent : ∀ l, l <+: es → PortForward.opens l = 0 → dataOf l = []
  /-- It is connecting until then and open afterwards. -/
  readyState : c.readyState .open = if portHeaderBytes ≤ (bytesOf dataChannel ms).length then .open else .connecting

/-- **What the channel delivers**, for any messages: and of the messages it is the one that completes
the data channel's header that opens it, and each hands over only bytes of its own for the data channel. -/
theorem channel_delivers (ms : List Message) :
    Delivers decode ms (run decode .new ms).1 (run decode .new ms).2 ∧
      ∀ before m after, ms = before ++ m :: after →
        let d := (bytesOf dataChannel before).length
        let es := (onSocketMessage decode (run decode .new before).1 m).2
        (opens es = if d < portHeaderBytes ∧ portHeaderBytes ≤ d + (payloadOf dataChannel m).length then 1 else 0) ∧
          dataOf es = (payloadOf dataChannel m).drop (portHeaderBytes - d) := by
  rw [new_eq_after]
  constructor
  · refine ⟨dataOf_run decode 0 0 ms, reported_run decode 0 0 ms, ?_, fun l hl ho => ?_, ?_⟩
    · rw [opens_run, Nat.zero_add]
      by_cases h : portHeaderBytes ≤ (bytesOf dataChannel ms).length
      · rw [if_pos ⟨by decide, h⟩, if_pos h]
      · rw [if_neg (fun h' => h h'.2), if_neg h]
    · exact silent_run decode (by decide) hl ho
    · rw [run_fst, Nat.zero_add, Channel.readyState, Channel.after]
      by_cases h : portHeaderBytes ≤ (bytesOf dataChannel ms).length <;> simp [h]
  · intro before m after _
    rw [run_fst, onSocketMessage_after, Nat.zero_add]
    exact ⟨opens_calls decode _ _ m, dataOf_calls decode _ _ m⟩

/-- A header in two pieces, with an error's first byte between them. -/
example : (run (fun b => b) .new
    [.arrayBuffer [0, 0x0c], .arrayBuffer [1, 0x0c], .other, .arrayBuffer [0, 0x17, 0x52]]).2 =
      [.onopen, .onmessage [0x52]] := by
  rfl

end OpenshiftConsole.Terminal.PortForward
