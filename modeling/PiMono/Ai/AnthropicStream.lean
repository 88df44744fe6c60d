import PiMono.Ai.SseDecoder
import PiMono.Ai.StreamingJson

/-!
# Anthropic streams

`stream` of `packages/ai/src/api/anthropic-messages.ts`, from the server-sent events of the
response to the events that are pushed. Token usage and costs are left out.
-/

namespace PiMono.Ai.AnthropicStream

/-! ## Events of the provider -/

/-- `event.content_block` -/
inductive ContentBlock where
  | text (text : Option JsString)
  | thinking (thinking signature : Option JsString)
  | redacted_thinking (data : JsString)
  | tool_use (id name : JsString) (input : Option JsValue)
  -- a block of another type
  | other
  deriving DecidableEq

/-- `event.delta` of a block -/
inductive Delta where
  | text_delta (text : JsString)
  | thinking_delta (thinking : JsString)
  | input_json_delta (partial_json : JsString)
  | signature_delta (signature : JsString)
  -- a delta of another type
  | other
  deriving DecidableEq

/-- `RawMessageStreamEvent`; the index is `undefined` where an event has none. -/
inductive RawMessageStreamEvent where
  | message_start (id : JsString)
  | content_block_start (index : Option JsNumber) (content_block : ContentBlock)
  | content_block_delta (index : Option JsNumber) (delta : Delta)
  | content_block_stop (index : Option JsNumber)
  | message_delta (stop_reason explanation : Option JsString)
  | message_stop
  -- an event of another type
  | other
  deriving DecidableEq

def RawMessageStreamEvent.isMessageStart : RawMessageStreamEvent → Bool
  | .message_start _ => true
  | _ => false

def RawMessageStreamEvent.isMessageStop : RawMessageStreamEvent → Bool
  | .message_stop => true
  | _ => false

/-- A text that an event has. -/
def textAt (value : JsValue) (key : String) : JsString := (value.strField? (js key)).getD []

def readContentBlock (block : JsValue) : ContentBlock :=
  let type := textAt block "type"
  if type = js "text" then .text (block.strField? (js "text"))
  else if type = js "thinking" then
    .thinking (block.strField? (js "thinking")) (block.strField? (js "signature"))
  else if type = js "redacted_thinking" then .redacted_thinking (textAt block "data")
  else if type = js "tool_use" then
    .tool_use (textAt block "id") (textAt block "name")
      ((block.get? (js "input")).filter fun input => input ≠ .null)
  else .other

def readDelta (delta : JsValue) : Delta :=
  let type := textAt delta "type"
  if type = js "text_delta" then .text_delta (textAt delta "text")
  else if type = js "thinking_delta" then .thinking_delta (textAt delta "thinking")
  else if type = js "input_json_delta" then .input_json_delta (textAt delta "partial_json")
  else if type = js "signature_delta" then .signature_delta (textAt delta "signature")
  else .other

/-- The event that a parsed value is. -/
def readEvent (event : JsValue) : RawMessageStreamEvent :=
  let type := textAt event "type"
  let index := (event.get? (js "index")).bind JsValue.num?
  let delta := (event.get? (js "delta")).getD .empty
  if type = js "message_start" then
    .message_start (textAt ((event.get? (js "message")).getD .empty) "id")
  else if type = js "content_block_start" then
    .content_block_start index (readContentBlock ((event.get? (js "content_block")).getD .empty))
  else if type = js "content_block_delta" then .content_block_delta index (readDelta delta)
  else if type = js "content_block_stop" then .content_block_stop index
  else if type = js "message_delta" then
    .message_delta (delta.strField? (js "stop_reason"))
      ((delta.get? (js "stop_details")).bind fun details => details.strField? (js "explanation"))
  else if type = js "message_stop" then .message_stop
  else .other

/-- `ANTHROPIC_MESSAGE_EVENTS` -/
def anthropicMessageEvents : List JsString :=
  [js "message_start", js "message_delta", js "message_stop", js "content_block_start",
    js "content_block_delta", js "content_block_stop"]

/-! ## The message -/

/-- `StopReason` -/
inductive StopReason where
  | pending
  | stop
  | length
  | toolUse
  | error
  | aborted
  deriving DecidableEq

/-- `TextContent | ThinkingContent | ToolCall`, with the scratch buffer of a tool call. -/
inductive Content where
  | text (text : JsString)
  | thinking (thinking thinkingSignature : JsString) (redacted : Bool)
  | toolCall (id name : JsString) (arguments : JsValue) (partialJson : Option JsString)
  deriving DecidableEq

/-- `Block`: a content block with its scratch index. -/
structure Block where
  content : Content
  index : Option JsNumber
  deriving DecidableEq

/-- `AssistantMessage` -/
structure AssistantMessage where
  content : List Block
  responseId : Option JsString
  stopReason : StopReason
  rawStopReason : Option JsString
  errorMessage : Option JsString
  deriving DecidableEq

/-- `AssistantMessageEvent`; `partial` is the message itself. -/
inductive AssistantMessageEvent where
  | start
  | text_start (contentIndex : Nat)
  | text_delta (contentIndex : Nat) (delta : JsString)
  | text_end (contentIndex : Nat) (content : JsString)
  | thinking_start (contentIndex : Nat)
  | thinking_delta (contentIndex : Nat) (delta : JsString)
  | thinking_end (contentIndex : Nat) (content : JsString)
  | toolcall_start (contentIndex : Nat)
  | toolcall_delta (contentIndex : Nat) (delta : JsString)
  | toolcall_end (contentIndex : Nat) (toolCall : Content)
  | done (reason : StopReason) (message : AssistantMessage)
  | error (reason : StopReason) (error : AssistantMessage)
  deriving DecidableEq

/-- What the stream is given: the package `partial-json`, the engine's messages of syntax errors,
`toLowerCase`, and the tools of the context. -/
structure Options where
  partialParse : JsString → Option JsValue
  syntaxError : JsString → JsString
  toLowerCase : JsString → JsString
  isOAuth : Bool
  tools : List JsString

namespace Options

variable (options : Options)

/-- `fromClaudeCodeName` -/
def fromClaudeCodeName (name : JsString) : JsString :=
  let lowerName := options.toLowerCase name
  (options.tools.find? fun tool => options.toLowerCase tool = lowerName).getD name

/-- The name of a tool call. -/
def toolName (name : JsString) : JsString :=
  if options.isOAuth then options.fromClaudeCodeName name else name

/-- `parseStreamingJson` -/
def parse (partialJson : JsString) : JsValue := parseStreamingJson options.partialParse partialJson

/-! ## The loop over the events -/

/-- `output`, and what has been pushed. -/
structure Output where
  message : AssistantMessage
  pushed : List AssistantMessageEvent
  deriving DecidableEq

namespace Output

/-- The message before the first event. -/
def initial : Output := ⟨⟨[], none, .pending, none, none⟩, [.start]⟩

/-- `blocks.findIndex((b) => b.index === event.index)`, with the block. -/
def findBlock (blocks : List Block) (index : Option JsNumber) : Option (Block × Nat) :=
  blocks.zipIdx.find? fun b => b.1.index = index

/-- A block is added, and its start is pushed. -/
def start (output : Output) (content : Content) (index : Option JsNumber)
    (event : Nat → AssistantMessageEvent) : Output where
  message := { output.message with content := output.message.content ++ [⟨content, index⟩] }
  pushed := output.pushed ++ [event output.message.content.length]

/-- A block is changed. -/
def change (output : Output) (position : Nat) (block : Block)
    (events : List AssistantMessageEvent) : Output where
  message := { output.message with content := output.message.content.set position block }
  pushed := output.pushed ++ events

end Output

/-- `content_block_start` -/
def startBlock (output : Output) (index : Option JsNumber) : ContentBlock → Output
  | .text text => output.start (.text (text.getD [])) index .text_start
  | .thinking thinking signature =>
    output.start (.thinking (thinking.getD []) (signature.getD []) false) index .thinking_start
  | .redacted_thinking data =>
    output.start (.thinking (js "[Reasoning redacted]") data true) index .thinking_start
  | .tool_use id name input =>
    output.start (.toolCall id (options.toolName name) (input.getD .empty) (some [])) index
      .toolcall_start
  | .other => output

/-- `content_block_delta`, for the block at a place: what it becomes, and what is pushed. -/
def deltaBlock (position : Nat) :
    Content → Delta → Option (Content × List AssistantMessageEvent)
  | .text text, .text_delta delta => some (.text (text ++ delta), [.text_delta position delta])
  | .thinking thinking signature redacted, .thinking_delta delta =>
    some (.thinking (thinking ++ delta) signature redacted, [.thinking_delta position delta])
  | .thinking thinking signature redacted, .signature_delta delta =>
    some (.thinking thinking (signature ++ delta) redacted, [])
  | .toolCall id name _ partialJson, .input_json_delta delta =>
    -- a buffer that is deleted is `undefined`
    let partialJson := partialJson.getD (js "undefined") ++ delta
    some (.toolCall id name (options.parse partialJson) (some partialJson),
      [.toolcall_delta position delta])
  | _, _ => none

/-- `content_block_stop`, for the block at a place. -/
def stopBlock (position : Nat) : Content → Content × AssistantMessageEvent
  | .text text => (.text text, .text_end position text)
  | .thinking thinking signature redacted =>
    (.thinking thinking signature redacted, .thinking_end position thinking)
  | .toolCall id name _ partialJson =>
    let toolCall := .toolCall id name ((partialJson.map options.parse).getD .empty) none
    (toolCall, .toolcall_end position toolCall)

/-- `mapStopReason`; an unknown reason is thrown. -/
def mapStopReason (reason : JsString) (explanation : Option JsString) :
    Except JsString (StopReason × Option JsString) :=
  if reason = js "end_turn" then .ok (.stop, none)
  else if reason = js "max_tokens" then .ok (.length, none)
  else if reason = js "tool_use" then .ok (.toolUse, none)
  else if reason = js "refusal" then
    .ok (.error, some (match explanation with
      | some (unit :: units) => unit :: units
      | _ => js "The model refused to complete the request"))
  else if reason = js "pause_turn" then .ok (.stop, none)
  else if reason = js "stop_sequence" then .ok (.stop, none)
  else if reason = js "sensitive" then
    .ok (.error, some (js "Provider stopped with: sensitive"))
  else .error (js "Unhandled stop reason: " ++ reason)

/-- One event of the loop. A failure comes with the output behind it. -/
def handleEvent (output : Output) : RawMessageStreamEvent → Except (JsString × Output) Output
  | .message_start id =>
    .ok { output with message := { output.message with responseId := some id } }
  | .content_block_start index block => .ok (options.startBlock output index block)
  | .content_block_delta index delta =>
    .ok (match Output.findBlock output.message.content index with
      | none => output
      | some (block, position) => match options.deltaBlock position block.content delta with
        | none => output
        | some (content, events) => output.change position { block with content } events)
  | .content_block_stop index =>
    .ok (match Output.findBlock output.message.content index with
      | none => output
      | some (block, position) =>
        let stopped := options.stopBlock position block.content
        output.change position ⟨stopped.1, none⟩ [stopped.2])
  | .message_delta stop_reason explanation =>
    match stop_reason with
    | some (unit :: units) =>
      -- `rawStopReason` is set before the reason is read
      let message := { output.message with rawStopReason := some (unit :: units) }
      match mapStopReason (unit :: units) explanation with
      | .error error => .error (error, { output with message })
      | .ok (stopReason, errorMessage) => .ok { output with message := { message with
          stopReason
          errorMessage := errorMessage.or message.errorMessage } }
    | _ => .ok output
  | .message_stop => .ok output
  | .other => .ok output

/-! ## The stream -/

/-- What the stream goes through: the output, and whether a message has started and ended. -/
structure Reading where
  output : Output
  sawMessageStart : Bool
  sawMessageEnd : Bool

/-- `iterateAnthropicEvents`, with the body of the loop over what it yields. A failure comes with
the output behind it. -/
def handleMessage (reading : Reading) (sse : ServerSentEvent) :
    Except (JsString × Output) Reading :=
  if sse.event = some (js "error") then .error (sse.data, reading.output)
  else if sse.event.getD [] ∉ anthropicMessageEvents then .ok reading
  else match parseJsonWithRepair sse.data with
    | none => .error (js "Could not parse Anthropic SSE event " ++ sse.event.getD [] ++ js ": "
        ++ options.syntaxError sse.data ++ js "; data=" ++ sse.data ++ js "; raw="
        ++ (js "\\n").intercalate sse.raw, reading.output)
    | some value =>
      let event := readEvent value
      match options.handleEvent reading.output event with
      | .error failure => .error failure
      | .ok output => .ok
        { output
          sawMessageStart := reading.sawMessageStart || event.isMessageStart
          sawMessageEnd := reading.sawMessageEnd || event.isMessageStop }

/-- `catch`: the scratch data of the blocks is deleted. -/
def cleaned (block : Block) : Block where
  content := match block.content with
    | .toolCall id name arguments _ => .toolCall id name arguments none
    | content => content
  index := none

/-- `catch`, for a request that is not aborted -/
def failed (output : Output) (error : JsString) : List AssistantMessageEvent :=
  let message := { output.message with
    content := output.message.content.map cleaned
    stopReason := .error
    errorMessage := some error }
  output.pushed ++ [.error .error message]

/-- `stream`: what is pushed, for the server-sent events of a response. -/
def stream (messages : List ServerSentEvent) : List AssistantMessageEvent :=
  match messages.foldlM options.handleMessage ⟨.initial, false, false⟩ with
  | .error (error, output) => failed output error
  | .ok reading =>
    let output := reading.output
    if reading.sawMessageStart && !reading.sawMessageEnd then
      failed output (js "Anthropic stream ended before message_stop")
    else match output.message.stopReason with
      | .pending => failed output (js "Anthropic stream ended without a stop reason")
      | .aborted | .error => failed output
        (output.message.errorMessage.getD (js "An unknown error occurred"))
      | reason => output.pushed ++ [.done reason output.message]

end Options

end PiMono.Ai.AnthropicStream
