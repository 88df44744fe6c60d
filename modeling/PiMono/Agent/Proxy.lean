import PiMono.Ai.StreamingJson
import PiMono.Lib.JsMap
import PiMono.Lib.JsNumber
import PiMono.Lib.Lines
import PiMono.Lib.TextDecoder

/-!
# Streaming through a proxy

`packages/agent/src/proxy.ts` with `EventStream` of `packages/ai/src/utils/event-stream.ts`: the
message that is built up from the events of a proxy server, and what is pushed to the stream.
What a consumer is given is in `events`, whether it waited for it or not; the events refer to the
message, of which only the last one says how it stands. The fields of an event of the server are
whatever its JSON has; `__proto__` is taken for a key like the others.
-/

namespace PiMono.Agent.Proxy

/-! ## The stream -/

/-- `EventStream` -/
structure EventStream (ε ρ : Type) where
  events : List ε
  done : Bool
  -- what `result()` resolves with
  result : Option ρ

namespace EventStream

variable {ε ρ : Type}

def new : EventStream ε ρ := ⟨[], false, none⟩

/-- `push`; `extractResult` gives the result of an event that is complete. -/
def push (extractResult : ε → Option ρ) (s : EventStream ε ρ) (event : ε) : EventStream ε ρ :=
  if s.done then s
  else
    match extractResult event with
    | some result => ⟨s.events ++ [event], true, some result⟩
    | none => { s with events := s.events ++ [event] }

/-- `end()`, without a result -/
def close (s : EventStream ε ρ) : EventStream ε ρ := { s with done := true }

end EventStream

/-! ## Events -/

/-- The fields of the message that events set. -/
structure AssistantMessage where
  stopReason : Option JsValue
  errorMessage : Option JsValue
  usage : Option JsValue
  -- the blocks by the property they are set at
  content : JsMap JsString JsValue

/-- `AssistantMessageEvent`; what the events of the server carry is passed on as it is. -/
inductive AssistantMessageEvent where
  | start
  | textStart (contentIndex : Option JsValue)
  | textDelta (contentIndex : Option JsValue) (delta : Option JsValue)
  | textEnd (contentIndex : Option JsValue) (content : Option JsValue)
  | thinkingStart (contentIndex : Option JsValue)
  | thinkingDelta (contentIndex : Option JsValue) (delta : Option JsValue)
  | thinkingEnd (contentIndex : Option JsValue) (content : Option JsValue)
  | toolcallStart (contentIndex : Option JsValue)
  | toolcallDelta (contentIndex : Option JsValue) (delta : Option JsValue)
  | toolcallEnd (contentIndex : Option JsValue) (toolCall : JsValue)
  | done (reason : Option JsValue) (message : AssistantMessage)
  | error (reason : Option JsValue) (message : AssistantMessage)

/-- `isComplete` and `extractResult` of the stream -/
def AssistantMessageEvent.result? : AssistantMessageEvent → Option AssistantMessage
  | done _ message => some message
  | error _ message => some message
  | _ => none

/-- What is not the code's own: the numbers of the engine, the texts of the errors that it throws,
and the parser of JSON that may be cut off. -/
structure Engine where
  -- `String(x)`, for the number that a literal is read as
  numberText : JsNumber → JsString
  -- `a + b` where neither is or becomes a string; there is a number for `NaN` as well
  sum : Option JsValue → Option JsValue → JsNumber
  -- `JSON.parse(data)` throws
  syntaxError : JsString → JsString
  -- `null.type`
  nullError : JsString
  -- a value that has no text
  conversionError : JsString
  -- `content.length = block`
  lengthError : JsString
  partialParse : JsString → Option JsValue

section Events

variable (engine : Engine)

/-- `String(value)` -/
def valueText (value : Option JsValue) : JsString :=
  (value.map (·.json.toText engine.numberText)).getD (js "undefined")

/-- `value` can be made a string or a number. -/
def convertible (value : Option JsValue) : Bool := value.all (·.json.convertible)

/-- `+` makes a string of the value. -/
def addsText (value : Option JsValue) : Bool :=
  value.any fun value => value.str?.isSome || value.items?.isSome || value.isObject

/-- `a + b` -/
def plus (a b : Option JsValue) : Except JsString JsValue :=
  if convertible a && convertible b then
    .ok (if addsText a || addsText b then .str (valueText engine a ++ valueText engine b)
      else .num (engine.sum a b))
  else .error engine.conversionError

/-- The property of an array that `[index]` is: whatever the index is, its text. -/
def propertyKey (index : Option JsValue) : Except JsString JsString :=
  if convertible index then .ok (valueText engine index) else .error engine.conversionError

/-- `partial.content[index] = block`; a block is no length. -/
def setBlock (message : AssistantMessage) (index : Option JsValue)
    (fields : List (String × JsValue)) : Except JsString AssistantMessage := do
  let key ← propertyKey engine index
  if key = js "length" then .error engine.lengthError
  else .ok { message with
    content := message.content.set key (.object (fields.map fun (key, value) => (js key, value))) }

/-- `partial.content[index]`, if it has that type. -/
def typedBlock? (message : AssistantMessage) (index : Option JsValue) (type : String) :
    Except JsString (Option (JsString × JsValue)) := do
  let key ← propertyKey engine index
  .ok (((message.content.get? key).filter (·.strField? (js "type") = some (js type))).map (key, ·))

/-- `Object.assign(block, source)`; a text or an array has its items for fields. -/
def assign (block : JsValue) (source : Option JsValue) : JsValue :=
  let indexed (items : List JsValue) : List (JsString × JsValue) :=
    items.zipIdx.map fun (item, i) => ((JsNumber.ofNat i).text, item)
  let fields (source : JsValue) : List (JsString × JsValue) :=
    match source.str?, source.items? with
    | some text, _ => indexed (text.map fun unit => .str [unit])
    | none, some items => indexed items
    | none, none => source.json.fields.filterMap fun (key, _) => (source.get? key).map (key, ·)
  ((source.map fields).getD []).foldl (fun block (key, value) => block.set key value) block

/-- `block[key] = value`, for `undefined` too -/
def setOptional (block : JsValue) (key : String) (value : Option JsValue) : JsValue :=
  match value with
  | some value => block.set (js key) value
  | none => block.delete (js key)

/-- `throw new Error(...)` at a delta or an end that is not for its block. -/
def wrongBlock (event type : String) : JsString :=
  js ("Received " ++ event ++ " for non-" ++ type ++ " content")

/-- A text or thinking delta. -/
def addDelta (message : AssistantMessage) (index : Option JsValue) (event type : String)
    (delta : Option JsValue) : Except JsString AssistantMessage := do
  match ← typedBlock? engine message index type with
  | some (key, block) =>
    let text ← plus engine (block.get? (js type)) delta
    .ok { message with content := message.content.set key (block.set (js type) text) }
  | none => .error (wrongBlock event type)

/-- The end of a text or of thinking: what the block has, and the message with the signature. -/
def endBlock (message : AssistantMessage) (index : Option JsValue) (event type signature : String)
    (contentSignature : Option JsValue) : Except JsString (Option JsValue × AssistantMessage) := do
  match ← typedBlock? engine message index type with
  | some (key, block) =>
    .ok (block.get? (js type), { message with
      content := message.content.set key (setOptional block signature contentSignature) })
  | none => .error (wrongBlock event type)

/-- A delta of the arguments of a tool call. -/
def addArguments (message : AssistantMessage) (index delta : Option JsValue) :
    Except JsString AssistantMessage := do
  match ← typedBlock? engine message index "toolCall" with
  | some (key, block) =>
    -- `undefined` behind the end of the call, and then a number is only ever `NaN`
    let partialJson ← plus engine (block.get? (js "partialJson")) delta
    let arguments := (partialJson.str?.map (Ai.parseStreamingJson engine.partialParse)).getD .empty
    .ok { message with
      content := message.content.set key
        ((block.set (js "partialJson") partialJson).set (js "arguments")
          (if arguments.truthy then arguments else .empty)) }
  | none => .error (wrongBlock "toolcall_delta" "toolCall")

/-- The end of a tool call; nothing happens to a block of another type. -/
def endToolCall (message : AssistantMessage) (index toolCall : Option JsValue) :
    Except JsString (Option JsValue × AssistantMessage) := do
  match ← typedBlock? engine message index "toolCall" with
  | some (key, block) =>
    let block := (assign block toolCall).delete (js "partialJson")
    .ok (some block, { message with content := message.content.set key block })
  | none => .ok (none, message)

/-- `processProxyEvent`: the event to push, if there is one, and the message; or the text of the
error that is thrown. -/
def processProxyEvent (proxyEvent : JsValue) (message : AssistantMessage) :
    Except JsString (Option AssistantMessageEvent × AssistantMessage) := do
  if proxyEvent = .null then .error engine.nullError
  else
    let type := proxyEvent.get? (js "type")
    let index := proxyEvent.get? (js "contentIndex")
    let delta := proxyEvent.get? (js "delta")
    let signature := proxyEvent.get? (js "contentSignature")
    let isType (name : String) : Bool := type = some (.str (js name))
    if isType "start" then .ok (some .start, message)
    else if isType "text_start" then
      let message ← setBlock engine message index [("type", .str (js "text")), ("text", .str [])]
      .ok (some (.textStart index), message)
    else if isType "text_delta" then
      let message ← addDelta engine message index "text_delta" "text" delta
      .ok (some (.textDelta index delta), message)
    else if isType "text_end" then
      let (content, message) ←
        endBlock engine message index "text_end" "text" "textSignature" signature
      .ok (some (.textEnd index content), message)
    else if isType "thinking_start" then
      let message ← setBlock engine message index
        [("type", .str (js "thinking")), ("thinking", .str [])]
      .ok (some (.thinkingStart index), message)
    else if isType "thinking_delta" then
      let message ← addDelta engine message index "thinking_delta" "thinking" delta
      .ok (some (.thinkingDelta index delta), message)
    else if isType "thinking_end" then
      let (content, message) ←
        endBlock engine message index "thinking_end" "thinking" "thinkingSignature" signature
      .ok (some (.thinkingEnd index content), message)
    else if isType "toolcall_start" then
      let message ← setBlock engine message index
        ([("type", .str (js "toolCall"))]
          ++ ((proxyEvent.get? (js "id")).map ("id", ·)).toList
          ++ ((proxyEvent.get? (js "toolName")).map ("name", ·)).toList
          ++ [("arguments", .empty), ("partialJson", .str [])])
      .ok (some (.toolcallStart index), message)
    else if isType "toolcall_delta" then
      let message ← addArguments engine message index delta
      .ok (some (.toolcallDelta index delta), message)
    else if isType "toolcall_end" then
      let (toolCall, message) ← endToolCall engine message index (proxyEvent.get? (js "toolCall"))
      .ok (toolCall.map (.toolcallEnd index), message)
    else if isType "done" then
      let reason := proxyEvent.get? (js "reason")
      let message := { message with
        stopReason := reason, usage := proxyEvent.get? (js "usage") }
      .ok (some (.done reason message), message)
    else if isType "error" then
      let reason := proxyEvent.get? (js "reason")
      let message := { message with
        stopReason := reason
        errorMessage := proxyEvent.get? (js "errorMessage")
        usage := proxyEvent.get? (js "usage") }
      .ok (some (.error reason message), message)
    -- the warning names the type
    else if convertible type then .ok (none, message)
    else .error engine.conversionError

/-! ## Lines -/

/-- `"data: "` -/
def dataPrefix : JsString := js "data: "

/-- What is done with a line. -/
def processLine (line : JsString) (message : AssistantMessage) :
    Except JsString (Option AssistantMessageEvent × AssistantMessage) :=
  if dataPrefix.isPrefixOf line then
    let data := trim (line.drop 6)
    if data = [] then .ok (none, message)
    else
      match JsValue.parse data with
      | some proxyEvent => processProxyEvent engine proxyEvent message
      | none => .error (engine.syntaxError data)
  else .ok (none, message)

/-- The message and the stream. -/
structure Pushed where
  message : AssistantMessage
  stream : EventStream AssistantMessageEvent AssistantMessage

namespace Pushed

/-- Before the first event. -/
def initial : Pushed := ⟨⟨some (.str (js "pending")), none, none, .empty⟩, .new⟩

def push (s : Pushed) (event : AssistantMessageEvent) : Pushed :=
  { s with stream := s.stream.push AssistantMessageEvent.result? event }

/-- The `catch` of `streamProxy`. -/
def fail (s : Pushed) (errorMessage : JsString) (aborted : Bool) : Pushed :=
  let reason := some (.str (js (if aborted then "aborted" else "error")))
  let message := { s.message with stopReason := reason, errorMessage := some (.str errorMessage) }
  let s := (Pushed.mk message s.stream).push (.error reason message)
  { s with stream := s.stream.close }

end Pushed

/-- The loop over the lines of a chunk; with the text of the error that ends it. -/
def processLines : List JsString → Pushed → Pushed × Option JsString
  | [], s => (s, none)
  | line :: lines, s =>
    match processLine engine line s.message with
    | .error error => (s, some error)
    | .ok (event, message) =>
      let s := { s with message }
      processLines lines (event.elim s s.push)

/-! ## Chunks -/

def lineFeed : UInt16 := 0x0A

/-- The loop over the chunks, with the decoder and the buffer. -/
def readChunks : List (List UInt8) → TextDecoder → JsString → Pushed → Pushed × Option JsString
  | [], _, _, s => (s, none)
  | value :: chunks, decoder, buffer, s =>
    let (text, decoder) := decoder.decode value
    match processLines engine (closedLines lineFeed (buffer ++ text)) s with
    | (s, some error) => (s, some error)
    | (s, none) => readChunks chunks decoder (lastLine lineFeed (buffer ++ text)) s

/-- How the reading ends. -/
inductive Ending where
  -- the body is at its end
  | closed
  -- the signal is aborted, and the reader is cancelled or has another chunk
  | aborted
  -- `fetch` or the reader throws, or the response is not ok
  | failed (errorMessage : JsString) (aborted : Bool)

/-- `streamProxy`, for the chunks that are read until the reading ends. -/
def streamProxy (chunks : List (List UInt8)) (ending : Ending) :
    EventStream AssistantMessageEvent AssistantMessage :=
  match readChunks engine chunks .new [] .initial with
  -- the signal was not aborted when the chunk came
  | (s, some error) => (s.fail error false).stream
  | (s, none) =>
    match ending with
    | .closed => s.stream.close
    | .aborted => (s.fail (js "Request aborted by user") true).stream
    | .failed errorMessage aborted => (s.fail errorMessage aborted).stream

end Events

end PiMono.Agent.Proxy
