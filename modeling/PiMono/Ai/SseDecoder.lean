import PiMono.Lib.TextDecoder

/-!
# Server-sent events

`packages/ai/src/api/anthropic-messages.ts`: `iterateSseMessages` decodes the chunks of a
body, cuts the text at CR LF, CR or LF, and dispatches what the lines since the last empty
line have set. `sseEvents` is what the whole text stands for.
-/

namespace PiMono.Ai

/-- `"\r"` -/
def carriageReturn : UInt16 := 0x0D

/-- `"\n"` -/
def lineFeed : UInt16 := 0x0A

/-- The unit ends a line. -/
def isLineBreak (u : UInt16) : Bool := u == carriageReturn || u == lineFeed

/-- `ServerSentEvent` -/
structure ServerSentEvent where
  event : Option JsString
  data : JsString
  raw : List JsString
  deriving DecidableEq

/-- `SseDecoderState` -/
structure SseDecoderState where
  event : Option JsString
  data : List JsString
  raw : List JsString
  deriving DecidableEq

namespace SseDecoderState

/-- `{ event: null, data: [], raw: [] }` -/
def empty : SseDecoderState := ⟨none, [], []⟩

/-- There is something to dispatch; an empty event name counts as none. -/
def pending (state : SseDecoderState) : Bool :=
  state.event.any (· ≠ []) || state.data ≠ []

end SseDecoderState

/-- `lines.join("\n")` -/
def joinData (data : List JsString) : JsString := [lineFeed].intercalate data

/-- `flushSseEvent` -/
def flushSseEvent (state : SseDecoderState) : Option ServerSentEvent × SseDecoderState :=
  if state.pending then (some ⟨state.event, joinData state.data, state.raw⟩, .empty)
  else (none, state)

/-- The name and the value of a field; the space behind the colon is dropped. -/
def splitField (line : JsString) : JsString × JsString :=
  match line.idxOf? 0x3A with
  | none => (line, [])
  | some delimiterIndex =>
    let value := line.drop (delimiterIndex + 1)
    (line.take delimiterIndex, if value.head? = some 0x20 then value.tail else value)

/-- `decodeSseLine` -/
def decodeSseLine (line : JsString) (state : SseDecoderState) :
    Option ServerSentEvent × SseDecoderState :=
  if line = [] then flushSseEvent state
  else
    let state := { state with raw := state.raw ++ [line] }
    if line.head? = some 0x3A then (none, state)
    else
      let (fieldName, value) := splitField line
      if fieldName = js "event" then (none, { state with event := some value })
      else if fieldName = js "data" then (none, { state with data := state.data ++ [value] })
      else (none, state)

/-- `nextLineBreakIndex`; `none` stands for `-1`. -/
def nextLineBreakIndex (text : JsString) : Option Nat :=
  match text.idxOf? carriageReturn, text.idxOf? lineFeed with
  | none, newlineIndex => newlineIndex
  | some carriageReturnIndex, none => some carriageReturnIndex
  | some carriageReturnIndex, some newlineIndex => some (min carriageReturnIndex newlineIndex)

/-- `consumeLine`: the first line, and the rest. -/
def consumeLine (text : JsString) : Option (JsString × JsString) :=
  (nextLineBreakIndex text).map fun lineBreakIndex =>
    let nextIndex :=
      if text[lineBreakIndex]? = some carriageReturn ∧ text[lineBreakIndex + 1]? =
        some lineFeed then
        lineBreakIndex + 2
      else lineBreakIndex + 1
    (text.take lineBreakIndex, text.drop nextIndex)

/-- What has been yielded, and the state behind it. -/
structure Decoded where
  state : SseDecoderState
  events : List ServerSentEvent
  deriving DecidableEq

namespace Decoded

def initial : Decoded := ⟨.empty, []⟩

/-- A line is decoded, and the event that it completes is yielded. -/
def line (d : Decoded) (text : JsString) : Decoded :=
  ⟨(decodeSseLine text d.state).2, d.events ++ (decodeSseLine text d.state).1.toList⟩

/-- `flushSseEvent` at the end -/
def flush (d : Decoded) : List ServerSentEvent := d.events ++ (flushSseEvent d.state).1.toList

end Decoded

/-- The loop that consumes the lines of the buffer; every line takes a unit of it. -/
def consumeLines : Nat → Decoded → JsString → Decoded × JsString
  | 0, d, buffer => (d, buffer)
  | fuel + 1, d, buffer =>
    match consumeLine buffer with
    | none => (d, buffer)
    | some (line, rest) => consumeLines fuel (d.line line) rest

/-- One round of the loop over the chunks, for what has been decoded of a chunk. -/
def readPiece (s : Decoded × JsString) (piece : JsString) : Decoded × JsString :=
  consumeLines (s.2 ++ piece).length s.1 (s.2 ++ piece)

/-- What is left of the buffer is a line as well. -/
def finish (s : Decoded × JsString) : List ServerSentEvent :=
  if s.2 = [] then s.1.flush else (s.1.line s.2).flush

/-- `iterateSseMessages`, for a body that is read to its end. -/
def iterateSseMessages (chunks : List (List UInt8)) : List ServerSentEvent :=
  finish ((TextDecoder.new.decodeChunks chunks).foldl readPiece (.initial, []))

/-! ## What the text stands for -/

/-- The lines of a text: it is cut at CR LF, CR or LF. -/
def splitLines : JsString → List JsString
  | [] => [[]]
  | [u] => if isLineBreak u then [[], []] else [[u]]
  | u :: v :: rest =>
    if u = carriageReturn ∧ v = lineFeed then [] :: splitLines rest
    else if isLineBreak u then [] :: splitLines (v :: rest)
    else (splitLines (v :: rest)).modifyHead (u :: ·)

/-- The events of a text: dispatched at each empty line and at the end. -/
def sseEvents (text : JsString) : List ServerSentEvent :=
  ((splitLines text).foldl Decoded.line .initial).flush

/-- What the lines that are ended have set since the last event. -/
def stateBehind (text : JsString) : SseDecoderState :=
  ((splitLines text).dropLast.foldl Decoded.line .initial).state

end PiMono.Ai
