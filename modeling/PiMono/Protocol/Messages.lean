import PiMono.Protocol.Schema

/-!
# The messages of the protocol

`packages/protocol/src/schemas.ts`, schema by schema.
-/

namespace PiMono.Protocol

def PROTOCOL_VERSION : SafeInt := ⟨1, by decide⟩

namespace Schema

/-- A property that an object must have. -/
def required (name : String) (schema : Schema) : JsString × Bool × Schema :=
  (js name, false, schema)

/-- A property of `Type.Optional`. -/
def optional (name : String) (schema : Schema) : JsString × Bool × Schema := (js name, true, schema)

/-- A union of literals, or a single one. -/
def literals (names : List String) : Schema :=
  .union (names.map fun name => .literal (.string (js name)))

def tag (name : String) : Schema := .literal (.string (js name))

def id : Schema := .string 1

def timestamp : Schema := .integer 0

def thinkingLevel : Schema := literals ["off", "minimal", "low", "medium", "high", "xhigh", "max"]

def sessionPhase : Schema := literals ["idle", "turn", "compaction", "branch_summary", "retry"]

def modelRef : Schema := .object [required "provider" id, required "id" id]

def modelCost : Schema :=
  .object [required "input" (.number (some 0)), required "output" (.number (some 0)),
    required "cacheRead" (.number (some 0)), required "cacheWrite" (.number (some 0))]

def modelMetadata : Schema :=
  .object [required "provider" id, required "id" id, required "name" (.string 1),
    required "api" id, required "reasoning" .boolean,
    required "input" (.array (literals ["text", "image"]) 0),
    required "contextWindow" (.integer 1), required "maxTokens" (.integer 1),
    required "cost" modelCost, required "supportedThinkingLevels" (.array thinkingLevel 1),
    required "authenticated" .boolean]

/-! ## Contents -/

def textContent : Schema := .object [required "type" (tag "text"), required "text" (.string 0)]

def thinkingContent : Schema :=
  .object [required "type" (tag "thinking"), required "thinking" (.string 0),
    optional "redacted" .boolean]

def imageContent : Schema :=
  .object [required "type" (tag "image"), required "data" (.string 0),
    required "mimeType" (.string 1)]

def toolCallContent : Schema :=
  .object [required "type" (tag "toolCall"), required "toolCallId" id, required "toolName" id,
    required "input" .jsonValue]

def userContent : Schema := .union [textContent, imageContent]

def assistantContent : Schema := .union [textContent, thinkingContent, toolCallContent]

def toolContent : Schema := .union [textContent, imageContent]

/-- `UsageSchema` -/
def usage : Schema :=
  .object [required "input" (.integer 0), required "output" (.integer 0),
    required "cacheRead" (.integer 0), required "cacheWrite" (.integer 0),
    optional "reasoning" (.integer 0), required "totalTokens" (.integer 0),
    required "cost" (.object [required "input" (.number (some 0)),
      required "output" (.number (some 0)), required "cacheRead" (.number (some 0)),
      required "cacheWrite" (.number (some 0)), required "total" (.number (some 0))])]

/-! ## Transcripts -/

def userTranscriptItem : Schema :=
  .object [required "id" id, required "role" (tag "user"),
    required "content" (.array userContent 0), required "timestamp" timestamp]

/-- `AssistantTranscriptItemProperties` -/
def assistantTranscriptItemProperties : List (JsString × Bool × Schema) :=
  [required "id" id, required "role" (tag "assistant"),
    required "content" (.array assistantContent 0), required "model" modelRef,
    optional "responseModel" (.string 1), optional "usage" usage, required "timestamp" timestamp]

def streamingAssistantTranscriptItem : Schema :=
  .object (assistantTranscriptItemProperties ++ [required "status" (tag "streaming")])

def completeAssistantTranscriptItem : Schema :=
  .object (assistantTranscriptItemProperties ++ [required "status" (tag "complete"),
    required "stopReason" (literals ["stop", "length", "toolUse"])])

def errorAssistantTranscriptItem : Schema :=
  .object (assistantTranscriptItemProperties ++ [required "status" (tag "error"),
    required "stopReason" (tag "error"), optional "errorMessage" (.string 1)])

def abortedAssistantTranscriptItem : Schema :=
  .object (assistantTranscriptItemProperties ++ [required "status" (tag "aborted"),
    required "stopReason" (tag "aborted"), optional "errorMessage" (.string 0)])

def assistantTranscriptItem : Schema :=
  .union [streamingAssistantTranscriptItem, completeAssistantTranscriptItem,
    errorAssistantTranscriptItem, abortedAssistantTranscriptItem]

/-- `ToolTranscriptItemProperties` -/
def toolTranscriptItemProperties : List (JsString × Bool × Schema) :=
  [required "id" id, required "role" (tag "tool"), required "toolCallId" id,
    required "toolName" id, required "input" .jsonValue, required "content" (.array toolContent 0),
    optional "details" .jsonValue, optional "usage" usage, required "timestamp" timestamp]

def runningToolTranscriptItem : Schema :=
  .object (toolTranscriptItemProperties ++ [required "status" (tag "running"),
    required "isError" (.literal (.bool false))])

def completeToolTranscriptItem : Schema :=
  .object (toolTranscriptItemProperties ++ [required "status" (tag "complete"),
    required "isError" (.literal (.bool false))])

def errorToolTranscriptItem : Schema :=
  .object (toolTranscriptItemProperties ++ [required "status" (tag "error"),
    required "isError" (.literal (.bool true))])

def toolTranscriptItem : Schema :=
  .union [runningToolTranscriptItem, completeToolTranscriptItem, errorToolTranscriptItem]

def transcriptItem : Schema :=
  .union [userTranscriptItem, assistantTranscriptItem, toolTranscriptItem]

def transcriptProgress : Schema :=
  .union [
    .object [required "type" (tag "item_started"), required "item" transcriptItem],
    .object [required "type" (tag "assistant_delta"), required "messageId" id,
      required "contentIndex" (.integer 0),
      required "kind" (literals ["text", "thinking", "toolCall"]), required "delta" (.string 0)],
    .object [required "type" (tag "item_updated"),
      required "item" (.union [assistantTranscriptItem, toolTranscriptItem])],
    .object [required "type" (tag "item_finished"),
      required "item" (.union [completeAssistantTranscriptItem, errorAssistantTranscriptItem,
        abortedAssistantTranscriptItem, completeToolTranscriptItem, errorToolTranscriptItem])]]

/-! ## Snapshots and errors -/

def sessionMetadata : Schema :=
  .object [required "id" id, required "createdAt" timestamp, optional "updatedAt" timestamp,
    optional "parentSessionId" id, optional "sessionName" (.string 0), optional "cwd" (.string 1)]

def sessionSnapshot : Schema :=
  .object [required "id" id, optional "name" (.string 0), required "cwd" (.string 1),
    required "createdAt" timestamp, required "updatedAt" timestamp, required "phase" sessionPhase,
    required "model" modelRef, required "thinkingLevel" thinkingLevel,
    required "attached" .boolean, required "locked" .boolean, required "revision" (.integer 0),
    required "transcript" (.array transcriptItem 0),
    required "queuedSteer" (.array userTranscriptItem 0),
    required "queuedSteerCount" (.integer 0)]

def serverSnapshot : Schema :=
  .object [required "serverId" id,
    required "protocolVersion" (.literal (.number PROTOCOL_VERSION)),
    required "revision" (.integer 0), required "sessions" (.array sessionMetadata 0),
    required "models" (.array modelMetadata 0)]

def protocolErrorCode : Schema :=
  literals ["version", "busy", "session_locked", "not_found", "invalid_request",
    "not_implemented", "internal_error"]

def protocolError : Schema :=
  .object [required "code" protocolErrorCode, required "message" (.string 0),
    optional "details" .jsonValue]

/-! ## Commands and results -/

/-- `PromptPayloadProperties` -/
def promptPayloadProperties : List (JsString × Bool × Schema) :=
  [required "sessionId" id, required "text" (.string 0)]

def command : Schema :=
  .union [
    .object [required "command" (tag "list")],
    .object [required "command" (tag "create"), optional "cwd" (.string 1),
      optional "name" (.string 0), optional "model" modelRef,
      optional "thinkingLevel" thinkingLevel],
    .object [required "command" (tag "attach"), required "sessionId" id],
    .object [required "command" (tag "detach"), required "sessionId" id],
    .object (required "command" (tag "prompt") :: promptPayloadProperties),
    .object (required "command" (tag "steer") :: promptPayloadProperties),
    .object [required "command" (tag "abort"), required "sessionId" id],
    .object [required "command" (tag "set_model"), required "sessionId" id,
      required "model" modelRef],
    .object [required "command" (tag "set_thinking"), required "sessionId" id,
      required "thinkingLevel" thinkingLevel]]

/-- The result of a command that returns its session. -/
def sessionResult (name : String) : Schema :=
  .object [required "command" (tag name), required "session" sessionSnapshot]

def commandResult : Schema :=
  .union [
    .object [required "command" (tag "list"), required "sessions" (.array sessionMetadata 0)],
    sessionResult "create",
    sessionResult "attach",
    .object [required "command" (tag "detach"), required "sessionId" id],
    sessionResult "prompt",
    sessionResult "steer",
    sessionResult "abort",
    sessionResult "set_model",
    sessionResult "set_thinking"]

/-! ## Messages -/

def clientHello : Schema := .object [required "type" (tag "hello"), required "version" (.integer 0)]

def requestEnvelope : Schema :=
  .object [required "type" (tag "request"), required "id" id, required "request" command]

def clientMessage : Schema := .union [clientHello, requestEnvelope]

def serverEvent : Schema :=
  .union [
    .object [required "type" (tag "server_snapshot"), required "snapshot" serverSnapshot],
    .object [required "type" (tag "session_snapshot"), required "snapshot" sessionSnapshot],
    .object [required "type" (tag "session_progress"), required "sessionId" id,
      required "progress" transcriptProgress],
    .object [required "type" (tag "session_removed"), required "sessionId" id]]

def serverHello : Schema :=
  .object [required "type" (tag "hello"), required "version" (.literal (.number PROTOCOL_VERSION)),
    required "connectionId" id, required "snapshot" serverSnapshot]

def serverHelloError : Schema :=
  .object [required "type" (tag "hello_error"), required "error" protocolError]

def responseEnvelope : Schema :=
  .union [
    .object [required "type" (tag "response"), required "id" id,
      required "ok" (.literal (.bool true)), required "result" commandResult],
    .object [required "type" (tag "response"), required "id" id,
      required "ok" (.literal (.bool false)), required "error" protocolError]]

def eventEnvelope : Schema := .object [required "type" (tag "event"), required "event" serverEvent]

def serverMessage : Schema :=
  .union [serverHello, serverHelloError, responseEnvelope, eventEnvelope]

end Schema

end PiMono.Protocol
