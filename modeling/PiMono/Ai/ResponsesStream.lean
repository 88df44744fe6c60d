import PiMono.Lib.JsMap
import PiMono.Lib.JsonPieces
import PiMono.Ai.StreamingJson

/-!
# Responses streams

`processResponsesStream` of `packages/ai/src/api/openai-responses-shared.ts`, with
`appendGrammarToolInputJsonDelta` of `packages/ai/src/api/constrained-sampling.ts`. Signatures,
response ids, usage, costs and stop reasons are left out.
-/

namespace PiMono.Ai.ResponsesStream

/-! ## Events of the provider -/

/-- `ResponseOutputItem`; of the parts of a summary or a content, their texts. -/
inductive OutputItem where
  | reasoning (summary content : List JsString)
  | message (content : List JsString)
  | function_call (call_id id name : JsString) (nameSpace arguments : Option JsString)
  | custom_tool_call (call_id id name : JsString) (nameSpace input : Option JsString)
  -- an item of another type
  | other
  deriving DecidableEq

/-- `ResponseStreamEvent`, but for what it begins with. -/
inductive ResponseEvent where
  | output_item_added (output_index : Nat) (item : OutputItem)
  | reasoning_summary_text_delta (output_index : Nat) (delta : JsString)
  | reasoning_summary_part_done (output_index : Nat)
  | reasoning_text_delta (output_index : Nat) (delta : JsString)
  | output_text_delta (output_index : Nat) (delta : JsString)
  | refusal_delta (output_index : Nat) (delta : JsString)
  | function_call_arguments_delta (output_index : Nat) (delta : JsString)
  | function_call_arguments_done (output_index : Nat) (arguments : JsString)
  | custom_tool_call_input_delta (output_index : Nat) (delta : JsString)
  | custom_tool_call_input_done (output_index : Nat) (input : JsString)
  | output_item_done (output_index : Nat) (item : OutputItem)
  | completed
  | incomplete
  -- `error` and `response.failed`, with what is thrown
  | failed (message : JsString)
  -- an event of another type
  | other
  deriving DecidableEq

/-- `event.output_index`, of the events that belong to an item. -/
def ResponseEvent.outputIndex? : ResponseEvent → Option Nat
  | output_item_added index _ | reasoning_summary_text_delta index _
  | reasoning_summary_part_done index | reasoning_text_delta index _ | output_text_delta index _
  | refusal_delta index _ | function_call_arguments_delta index _
  | function_call_arguments_done index _ | custom_tool_call_input_delta index _
  | custom_tool_call_input_done index _ | output_item_done index _ => some index
  | _ => none

/-! ## The message -/

/-- `GrammarToolInputJsonBuffer` -/
structure JsonBuffer where
  input : JsString
  started : Bool
  closed : Bool
  deriving DecidableEq

/-- `block.customInput` -/
structure CustomInput where
  property : JsString
  jsonBuffer : JsonBuffer
  deriving DecidableEq

/-- `StreamingToolCall` -/
structure StreamingToolCall where
  id : JsString
  name : JsString
  nameSpace : Option JsString
  arguments : JsValue
  partialJson : Option JsString
  customInput : Option CustomInput
  deriving DecidableEq

/-- A block of the message; its type is that of its slot. -/
inductive Block where
  | thinking (thinking : JsString)
  | text (text : JsString)
  | toolCall (toolCall : StreamingToolCall)
  deriving DecidableEq

/-- `AssistantMessageEvent` -/
inductive MessageEvent where
  | thinking_start (contentIndex : Nat)
  | thinking_delta (contentIndex : Nat) (delta : JsString)
  | thinking_end (contentIndex : Nat) (content : JsString)
  | text_start (contentIndex : Nat)
  | text_delta (contentIndex : Nat) (delta : JsString)
  | text_end (contentIndex : Nat) (content : JsString)
  | toolcall_start (contentIndex : Nat)
  | toolcall_delta (contentIndex : Nat) (delta : JsString)
  | toolcall_end (contentIndex : Nat) (toolCall : StreamingToolCall)
  deriving DecidableEq

def MessageEvent.contentIndex : MessageEvent → Nat
  | thinking_start i | thinking_delta i _ | thinking_end i _ | text_start i | text_delta i _
  | text_end i _ | toolcall_start i | toolcall_delta i _ | toolcall_end i _ => i

/-- `output.content`, `outputSlots` with the places of their blocks, and what has been pushed. -/
structure State where
  content : List Block
  slots : JsMap Nat Nat
  pushed : List MessageEvent
  sawTerminalResponseEvent : Bool
  deriving DecidableEq

def initial : State := ⟨[], .empty, [], false⟩

/-- The package `partial-json`, and `grammarToolInputProperties`. -/
structure Options where
  partialParse : JsString → Option JsValue
  grammarToolInputProperties : JsMap JsString JsString

/-! ## Grammar tools -/

/-- `appendGrammarToolInputJsonDelta` -/
def appendGrammarToolInputJsonDelta (buffer : JsonBuffer) (inputProperty nextInput : JsString)
    (close : Bool) : Except JsString (JsonBuffer × Option JsString) :=
  if buffer.closed then
    if close ∧ nextInput = buffer.input then .ok (buffer, none)
    else .error (js "grammar tool input for property \"" ++ inputProperty
      ++ js "\" changed after it was closed")
  else if !buffer.input.isPrefixOf nextInput then
    .error (js "grammar tool input for property \"" ++ inputProperty
      ++ js "\" changed non-monotonically")
  else
    let inputDelta := nextInput.drop buffer.input.length
    if !close ∧ inputDelta = [] then .ok (buffer, none)
    else
      let opened := if buffer.started then [] else openField inputProperty
      let delta := opened ++ quoteBody inputDelta ++ if close then closeField else []
      .ok (⟨nextInput, true, close⟩, some delta)

/-- `getCustomToolCallInput` -/
def getCustomToolCallInput (block : StreamingToolCall) : JsString :=
  match block.customInput with
  | none => []
  | some customInput => (block.arguments.strField? customInput.property).getD []

/-- `{ [property]: input }` -/
def inputArguments (property input : JsString) : JsValue := JsValue.empty.set property (.str input)

/-- `appendCustomToolCallInput`, with `pushToolCallDelta`: the block, and what is pushed. -/
def appendCustomToolCallInput (position : Nat) (block : StreamingToolCall) (nextInput : JsString)
    (close : Bool) : Except JsString (StreamingToolCall × List MessageEvent) :=
  match block.customInput with
  | none => .ok (block, [])
  | some customInput => do
    let (jsonBuffer, delta) ← appendGrammarToolInputJsonDelta customInput.jsonBuffer
      customInput.property nextInput close
    let block := { block with
      arguments := inputArguments customInput.property nextInput
      customInput := some { customInput with jsonBuffer } }
    return (block, delta.toList.map (.toolcall_delta position))

/-! ## The loop over the events -/

section Stream

variable (options : Options)

/-- `parseStreamingJson` -/
def parse (partialJson : JsString) : JsValue := parseStreamingJson options.partialParse partialJson

/-- The new block of an item, and the event of its start. -/
def newBlock : OutputItem → Option (Block × (Nat → MessageEvent))
  | .reasoning _ _ => some (.thinking [], .thinking_start)
  | .message _ => some (.text [], .text_start)
  | .function_call call_id id name nameSpace arguments => some (.toolCall
      { id := call_id ++ js "|" ++ id
        name, nameSpace
        arguments := .empty
        partialJson := some (arguments.getD [])
        customInput := none }, .toolcall_start)
  | .custom_tool_call call_id id name nameSpace input =>
    let inputProperty := (options.grammarToolInputProperties.get? name).getD (js "input")
    some (.toolCall
      { id := call_id ++ js "|" ++ id
        name, nameSpace
        arguments := inputArguments inputProperty (input.getD [])
        partialJson := none
        customInput := some ⟨inputProperty, [], false, false⟩ }, .toolcall_start)
  | .other => none

/-- `createSlot` -/
def createSlot (s : State) (outputIndex : Nat) (item : OutputItem) : State :=
  match newBlock options item with
  | none => s
  | some (block, start) => { s with
      content := s.content ++ [block]
      slots := s.slots.set outputIndex s.content.length
      pushed := s.pushed ++ [start s.content.length] }

/-- The block of a slot is changed, and events are pushed. -/
def change (s : State) (outputIndex : Nat)
    (f : Nat → Block → Except JsString (Block × List MessageEvent)) : Except JsString State :=
  match s.slots.get? outputIndex with
  | none => .ok s
  | some position => match s.content[position]? with
    | none => .ok s
    | some block => do
      let (block, events) ← f position block
      return { s with content := s.content.set position block, pushed := s.pushed ++ events }

/-- A delta of thinking. -/
def thinkingDelta (delta : JsString) (position : Nat) :
    Block → Except JsString (Block × List MessageEvent)
  | .thinking thinking => .ok (.thinking (thinking ++ delta), [.thinking_delta position delta])
  | block => .ok (block, [])

/-- A delta of text. -/
def textDelta (delta : JsString) (position : Nat) :
    Block → Except JsString (Block × List MessageEvent)
  | .text text => .ok (.text (text ++ delta), [.text_delta position delta])
  | block => .ok (block, [])

def argumentsDelta (delta : JsString) (position : Nat) :
    Block → Except JsString (Block × List MessageEvent)
  | .toolCall toolCall => match toolCall.partialJson with
    | none => .ok (.toolCall toolCall, [])
    | some partialJson => .ok (.toolCall { toolCall with
        partialJson := some (partialJson ++ delta)
        arguments := parse options (partialJson ++ delta) }, [.toolcall_delta position delta])
  | block => .ok (block, [])

def argumentsDone (arguments : JsString) (position : Nat) :
    Block → Except JsString (Block × List MessageEvent)
  | .toolCall toolCall => match toolCall.partialJson with
    | none => .ok (.toolCall toolCall, [])
    | some previousPartialJson =>
      let delta := arguments.drop previousPartialJson.length
      .ok (.toolCall { toolCall with
        partialJson := some arguments
        arguments := parse options arguments },
        if previousPartialJson.isPrefixOf arguments ∧ delta ≠ [] then
          [.toolcall_delta position delta]
        else [])
  | block => .ok (block, [])

/-- The input of a custom tool call, as it is now. -/
def customInput (nextInput : StreamingToolCall → JsString) (close : Bool) (position : Nat) :
    Block → Except JsString (Block × List MessageEvent)
  | .toolCall toolCall => do
    let (toolCall, events) ←
      appendCustomToolCallInput position toolCall (nextInput toolCall) close
    return (.toolCall toolCall, events)
  | block => .ok (block, [])

/-- `join("\n\n")` -/
def paragraphs (texts : List JsString) : JsString := (js "\n\n").intercalate texts

/-- The block of an item that is done, and what is pushed; `none` where they do not suit. -/
def finishBlock (item : OutputItem) (position : Nat) (block : Block) :
    Except JsString (Option (Block × List MessageEvent)) :=
  match item, block with
  | .reasoning summary content, .thinking thinking =>
    let summaryText := paragraphs summary
    let contentText := paragraphs content
    let thinking :=
      if summaryText ≠ [] then summaryText else if contentText ≠ [] then contentText else thinking
    .ok (some (.thinking thinking, [.thinking_end position thinking]))
  | .message content, .text _ =>
    .ok (some (.text content.flatten, [.text_end position content.flatten]))
  | .function_call _ _ _ nameSpace arguments, .toolCall toolCall =>
    match toolCall.partialJson with
    | none => .ok none
    | some partialJson =>
      let text := if arguments.getD [] ≠ [] then arguments.getD []
        else if partialJson ≠ [] then partialJson else js "\x7b\x7d"
      let toolCall := { toolCall with
        arguments := parse options text
        nameSpace := nameSpace.or toolCall.nameSpace
        partialJson := none }
      .ok (some (.toolCall toolCall, [.toolcall_end position toolCall]))
  | .custom_tool_call _ _ _ nameSpace input, .toolCall toolCall =>
    match toolCall.customInput with
    | none => .ok none
    | some _ => do
      let (toolCall, events) ← appendCustomToolCallInput position toolCall
        (input.getD (getCustomToolCallInput toolCall)) true
      let toolCall := { toolCall with
        nameSpace := nameSpace.or toolCall.nameSpace
        customInput := none }
      return some (.toolCall toolCall, events ++ [.toolcall_end position toolCall])
  | _, _ => .ok none

/-- `response.output_item.done`, behind `getOrCreateSlot`. -/
def finishItem (s : State) (outputIndex : Nat) (item : OutputItem) : Except JsString State :=
  match s.slots.get? outputIndex with
  | none => .ok s
  | some position => match s.content[position]? with
    | none => .ok s
    | some block => do
      match ← finishBlock options item position block with
      | none => return s
      | some (block, events) => return { s with
          content := s.content.set position block
          slots := s.slots.delete outputIndex
          pushed := s.pushed ++ events }

/-- One event of the loop. -/
def handleEvent (s : State) : ResponseEvent → Except JsString State
  | .output_item_added index item => .ok (createSlot options s index item)
  | .reasoning_summary_text_delta index delta | .reasoning_text_delta index delta =>
    change s index (thinkingDelta delta)
  | .reasoning_summary_part_done index => change s index (thinkingDelta (js "\n\n"))
  | .output_text_delta index delta | .refusal_delta index delta =>
    change s index (textDelta delta)
  | .function_call_arguments_delta index delta => change s index (argumentsDelta options delta)
  | .function_call_arguments_done index arguments =>
    change s index (argumentsDone options arguments)
  | .custom_tool_call_input_delta index delta =>
    change s index (customInput (getCustomToolCallInput · ++ delta) false)
  | .custom_tool_call_input_done index input => change s index (customInput (fun _ => input) true)
  | .output_item_done index item =>
    let s := if s.slots.has index then s else createSlot options s index item
    finishItem options s index item
  | .completed | .incomplete => .ok { s with sawTerminalResponseEvent := true }
  | .failed message => .error message
  | .other => .ok s

/-- `processResponsesStream` -/
def processResponsesStream (events : List ResponseEvent) : Except JsString State := do
  let s ← events.foldlM (handleEvent options) initial
  if !s.sawTerminalResponseEvent then
    throw (js "OpenAI Responses stream ended before a terminal response event")
  return s

end Stream

end PiMono.Ai.ResponsesStream
