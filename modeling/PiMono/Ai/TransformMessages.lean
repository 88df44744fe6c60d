import PiMono.Lib.CodeUnits
import PiMono.Lib.JsMap

/-!
# Replayed histories

`packages/ai/src/api/transform-messages.ts`: `transformMessages` makes the messages of a history
fit for another model. A first pass rewrites the ids of tool calls and of their results, a
second one drops failed messages and adds a result for each call that has none.
-/

namespace PiMono.Ai

/-! ## Messages -/

/-- `TextContent` -/
structure TextContent where
  text : JsString
  textSignature : Option JsString
  deriving DecidableEq

/-- `ImageContent` -/
structure ImageContent where
  data : JsString
  mimeType : JsString
  deriving DecidableEq

/-- `TextContent | ImageContent` -/
inductive MediaContent where
  | text (block : TextContent)
  | image (block : ImageContent)
  deriving DecidableEq

/-- `ThinkingContent` -/
structure ThinkingContent where
  thinking : JsString
  thinkingSignature : Option JsString
  redacted : Bool
  deriving DecidableEq

/-- `ToolCall`; its arguments are of any kind. -/
structure ToolCall (α : Type) where
  id : JsString
  name : JsString
  arguments : α
  thoughtSignature : Option JsString
  toolNamespace : Option JsString
  deriving DecidableEq

/-- `TextContent | ThinkingContent | ToolCall` -/
inductive AssistantContent (α : Type) where
  | text (block : TextContent)
  | thinking (block : ThinkingContent)
  | toolCall (block : ToolCall α)
  deriving DecidableEq

/-- `StopReason` -/
inductive StopReason where
  | pending | stop | length | toolUse | error | aborted | deferred
  deriving DecidableEq

/-- The content of a user message: a string, blocks, or (from untyped callers) nothing. -/
inductive UserContent where
  | text (text : JsString)
  | blocks (blocks : Option (List MediaContent))
  deriving DecidableEq

/-- `UserMessage` -/
structure UserMessage where
  content : UserContent
  timestamp : Nat
  deriving DecidableEq

/-- `AssistantMessage`, with what is read of it. -/
structure AssistantMessage (α : Type) where
  content : Option (List (AssistantContent α))
  api : JsString
  provider : JsString
  model : JsString
  stopReason : StopReason
  timestamp : Nat
  deriving DecidableEq

/-- `ToolResultMessage` -/
structure ToolResultMessage where
  toolCallId : JsString
  toolName : JsString
  content : Option (List MediaContent)
  isError : Bool
  timestamp : Nat
  deriving DecidableEq

/-- `Message` -/
inductive Message (α : Type) where
  | user (message : UserMessage)
  | assistant (message : AssistantMessage α)
  | toolResult (message : ToolResultMessage)
  deriving DecidableEq

/-- `Model`, with what is read of it. -/
structure Model where
  provider : JsString
  api : JsString
  id : JsString
  input : List JsString
  deriving DecidableEq

namespace AssistantMessage

variable {α : Type}

/-- `stopReason === "error" || stopReason === "aborted"` -/
def failed (m : AssistantMessage α) : Bool :=
  m.stopReason == .error || m.stopReason == .aborted

/-- `content.filter((b) => b.type === "toolCall")` -/
def toolCalls (m : AssistantMessage α) : List (ToolCall α) :=
  (m.content.getD []).filterMap fun
    | .toolCall block => some block
    | _ => none

/-- The ids of the tool calls. -/
def callIds (m : AssistantMessage α) : List JsString := m.toolCalls.map (·.id)

/-- `isSameModel` -/
def isSameModel (m : AssistantMessage α) (model : Model) : Bool :=
  m.provider == model.provider && m.api == model.api && m.model == model.id

/-- `{ ...msg, content: [] }`, if the content is missing -/
def withContent (m : AssistantMessage α) : AssistantMessage α :=
  { m with content := some (m.content.getD []) }

end AssistantMessage

/-! ## Images -/

/-- `NON_VISION_USER_IMAGE_PLACEHOLDER` -/
def nonVisionUserImagePlaceholder : JsString :=
  js "(image omitted: model does not support images)"

/-- `NON_VISION_TOOL_IMAGE_PLACEHOLDER` -/
def nonVisionToolImagePlaceholder : JsString :=
  js "(tool image omitted: model does not support images)"

/-- The loop of `replaceImagesWithPlaceholder`. -/
def replaceImagesFrom (placeholder : JsString) (previousWasPlaceholder : Bool) :
    List MediaContent → List MediaContent
  | [] => []
  | .image _ :: content =>
    (if previousWasPlaceholder then [] else [.text ⟨placeholder, none⟩])
      ++ replaceImagesFrom placeholder true content
  | .text block :: content =>
    .text block :: replaceImagesFrom placeholder (decide (block.text = placeholder)) content

/-- `replaceImagesWithPlaceholder` -/
def replaceImagesWithPlaceholder (content : List MediaContent) (placeholder : JsString) :
    List MediaContent :=
  replaceImagesFrom placeholder false content

/-- `model.input.includes("image")` -/
def Model.hasVision (model : Model) : Bool := model.input.contains (js "image")

def UserMessage.withContent (m : UserMessage) : UserMessage :=
  match m.content with
  | .text _ => m
  | .blocks content => { m with content := .blocks (some (content.getD [])) }

/-- A message whose content is missing gets an empty one. -/
def Message.withContent {α : Type} : Message α → Message α
  | .user m => .user m.withContent
  | .assistant m => .assistant m.withContent
  | .toolResult m => .toolResult { m with content := some (m.content.getD []) }

def UserMessage.withoutImages (m : UserMessage) : UserMessage :=
  match m.content with
  | .text _ => m
  | .blocks content =>
    let downgrade := fun blocks => replaceImagesWithPlaceholder blocks nonVisionUserImagePlaceholder
    { m with content := .blocks (content.map downgrade) }

/-- The images of a message are replaced. -/
def Message.withoutImages {α : Type} : Message α → Message α
  | .user m => .user m.withoutImages
  | .assistant m => .assistant m
  | .toolResult m =>
    let downgrade := fun blocks => replaceImagesWithPlaceholder blocks nonVisionToolImagePlaceholder
    .toolResult { m with content := m.content.map downgrade }

/-- `downgradeUnsupportedImages` -/
def downgradeUnsupportedImages {α : Type} (messages : List (Message α)) (model : Model) :
    List (Message α) :=
  if model.hasVision then messages else messages.map Message.withoutImages

/-! ## The first pass -/

/-- What a history is replayed to; `now` is the time of the call. -/
structure Target (α : Type) where
  model : Model
  normalizeToolCallId : Option (JsString → Model → AssistantMessage α → JsString)
  now : Nat

namespace Target

variable {α : Type} (target : Target α)

/-- The id that a call of a message is replayed with. -/
def normalizedId (m : AssistantMessage α) (id : JsString) : JsString :=
  if m.isSameModel target.model then id
  else match target.normalizeToolCallId with
    | none => id
    | some normalizeToolCallId => normalizeToolCallId id target.model m

/-- A string that is there and not empty. -/
def given (s : Option JsString) : Bool := s.any (· ≠ [])

/-- A tool call; the thought signature is for the same model only. -/
def transformToolCall (m : AssistantMessage α) (toolCall : ToolCall α) : ToolCall α :=
  { toolCall with
    id := target.normalizedId m toolCall.id
    thoughtSignature :=
      if !m.isSameModel target.model && given toolCall.thoughtSignature then none
      else toolCall.thoughtSignature }

/-- What a block becomes. -/
def transformBlock (m : AssistantMessage α) : AssistantContent α → List (AssistantContent α)
  | .thinking block =>
    if block.redacted then
      if m.isSameModel target.model then [.thinking block] else []
    else if m.isSameModel target.model && given block.thinkingSignature then [.thinking block]
    else if trim block.thinking = [] then []
    else if m.isSameModel target.model then [.thinking block]
    else [.text ⟨block.thinking, none⟩]
  | .text block =>
    if m.isSameModel target.model then [.text block] else [.text ⟨block.text, none⟩]
  | .toolCall block => [.toolCall (target.transformToolCall m block)]

def transformAssistant (m : AssistantMessage α) : AssistantMessage α :=
  { m with content := some ((m.content.getD []).flatMap (target.transformBlock m)) }

/-- The ids that are replayed as others, each with the other. -/
def renamedIds (m : AssistantMessage α) : List (JsString × JsString) :=
  m.callIds.filterMap fun id =>
    if target.normalizedId m id = id then none else some (id, target.normalizedId m id)

/-- What a message adds to `toolCallIdMap`. -/
def recordIds (toolCallIdMap : JsMap JsString JsString) : Message α → JsMap JsString JsString
  | .assistant m =>
    (target.renamedIds m).foldl (fun toolCallIdMap r => toolCallIdMap.set r.1 r.2) toolCallIdMap
  | _ => toolCallIdMap

/-- The id of a call, as a result has it; an empty one counts as none. -/
def resultId (renamed : Option JsString) (id : JsString) : JsString :=
  match renamed with
  | some normalizedId => if normalizedId ≠ [] then normalizedId else id
  | none => id

/-- The first pass over a message. -/
def transformMessage (toolCallIdMap : JsMap JsString JsString) : Message α → Message α
  | .user m => .user m
  | .toolResult m =>
    .toolResult { m with toolCallId := resultId (toolCallIdMap.get? m.toolCallId) m.toolCallId }
  | .assistant m => .assistant (target.transformAssistant m)

/-- The first pass. -/
def transformAll (toolCallIdMap : JsMap JsString JsString) : List (Message α) → List (Message α)
  | [] => []
  | msg :: messages => target.transformMessage toolCallIdMap msg
      :: transformAll (target.recordIds toolCallIdMap msg) messages

/-! ## The second pass -/

/-- A result for a call that has none. -/
def syntheticResult (toolCall : ToolCall α) : ToolResultMessage where
  toolCallId := toolCall.id
  toolName := toolCall.name
  content := some [.text ⟨js "No result provided", none⟩]
  isError := true
  timestamp := target.now

/-- `insertSyntheticToolResults` -/
def syntheticResults (pendingToolCalls : List (ToolCall α))
    (existingToolResultIds : List JsString) :
    List ToolResultMessage :=
  (pendingToolCalls.filter fun toolCall => toolCall.id ∉ existingToolResultIds).map
    target.syntheticResult

/-- `existingToolResultIds` behind `insertSyntheticToolResults` -/
def resetIds (pendingToolCalls : List (ToolCall α)) (existingToolResultIds : List JsString) :
    List JsString :=
  if pendingToolCalls.isEmpty then existingToolResultIds else []

/-- The second pass. -/
def insertResults (pendingToolCalls : List (ToolCall α))
    (existingToolResultIds : List JsString) : List (Message α) → List (Message α)
  | [] => (target.syntheticResults pendingToolCalls existingToolResultIds).map .toolResult
  | .assistant m :: messages =>
    let reset := resetIds pendingToolCalls existingToolResultIds
    (target.syntheticResults pendingToolCalls existingToolResultIds).map .toolResult ++
      if m.failed then insertResults [] reset messages
      else .assistant m ::
        insertResults m.toolCalls (if m.toolCalls.isEmpty then reset else []) messages
  | .toolResult m :: messages =>
    .toolResult m ::
      insertResults pendingToolCalls (existingToolResultIds ++ [m.toolCallId]) messages
  | .user m :: messages =>
    (target.syntheticResults pendingToolCalls existingToolResultIds).map .toolResult ++
      .user m :: insertResults [] (resetIds pendingToolCalls existingToolResultIds) messages

/-- `transformMessages` -/
def transformMessages (messages : List (Message α)) : List (Message α) :=
  let normalizedMessages := messages.map Message.withContent
  let imageAwareMessages := downgradeUnsupportedImages normalizedMessages target.model
  target.insertResults [] [] (target.transformAll JsMap.empty imageAwareMessages)

end Target

end PiMono.Ai
