import PiMono.Lib.CodeUnits
import PiMono.Lib.Runs

/-!
# Retries and recovery

`_runAgentPrompt`, `_handlePostAgentRun`, `_checkCompaction`, `_runAutoCompaction` and
`_prepareRetry` of `packages/coding-agent/src/core/agent-session.ts`, with the part of
`_handleAgentEvent` that resets their counters, as the steps of one prompt. The tests of
`packages/ai/src/utils/retry.ts` and `overflow.ts` are those of the source but for the patterns of
error texts, which are parameters.
-/

namespace PiMono.CodingAgent.Recovery

inductive StopReason where
  | stop
  | toolUse
  | length
  | error
  | aborted
  deriving DecidableEq

/-- An assistant message, with its token counts. -/
structure Response where
  stopReason : StopReason
  errorMessage : Option JsString
  input : Nat
  output : Nat
  cacheRead : Nat

/-- The settings, the model, and the patterns of error texts. -/
structure Config where
  retryEnabled : Bool
  maxRetries : Nat
  compactionEnabled : Bool
  contextWindow : Nat
  maxTokens : Nat
  -- `NON_RETRYABLE_PROVIDER_LIMIT_ERROR_PATTERN`, `RETRYABLE_PROVIDER_ERROR_PATTERN`
  nonRetryable : JsString → Bool
  retryable : JsString → Bool
  -- `NON_OVERFLOW_PATTERNS`, `OVERFLOW_PATTERNS`
  nonOverflow : JsString → Bool
  overflow : JsString → Bool

section Tests

variable (config : Config) (response : Response)

/-- `isContextOverflow` -/
def isContextOverflow : Bool :=
  let message := response.errorMessage.getD []
  let inputTokens := response.input + response.cacheRead
  (response.stopReason = .error && message ≠ [] && !config.nonOverflow message
      && config.overflow message)
    || (config.contextWindow ≠ 0 && response.stopReason = .stop
      && config.contextWindow < inputTokens)
    -- `inputTokens >= contextWindow * 0.99`
    || (config.contextWindow ≠ 0 && response.stopReason = .length && response.output = 0
      && config.contextWindow * 99 ≤ inputTokens * 100)

/-- `isRecoverableLength` -/
def isRecoverableLength : Bool :=
  response.stopReason = .length && 0 < config.maxTokens && response.output < config.maxTokens

/-- `isRetryableAssistantError` -/
def isRetryableAssistantError : Bool :=
  let message := response.errorMessage.getD []
  response.stopReason = .error && message ≠ [] && !config.nonRetryable message
    && config.retryable message

/-- `_isRetryableError` -/
def isRetryableError : Bool :=
  !isContextOverflow config response && isRetryableAssistantError config response

end Tests

/-- A message of `agent.state.messages`; of an assistant message, whether its stop reason is
`error` or `length`. -/
inductive Message where
  | user
  | toolResult
  | custom
  | assistant (failed : Bool)
  deriving DecidableEq

def Message.isAssistant : Message → Bool
  | assistant _ => true
  | _ => false

/-- A message that `steer` or `followUp` puts in a queue. -/
def Message.isQueued : Message → Bool
  | user | custom => true
  | _ => false

/-- What listeners are told of retries, in the order of the responses. -/
inductive Event where
  | response (stopReason : StopReason)
  | retryStart (attempt : Nat)
  | retryEnd (success : Bool) (attempt : Nat)
  | agentSettled
  deriving DecidableEq

/-- Where the prompt is. -/
inductive Phase where
  -- `agent.prompt` or `agent.continue` waits for a response
  | running
  -- `_handlePostAgentRun`, for the last response
  | handling (response : Response)
  -- the sleep of `_prepareRetry`
  | sleeping (response : Response)
  -- behind the retry
  | checking (response : Response)
  -- `_runAutoCompaction`
  | compacting (willRetry : Bool)
  | settled

/-- The prompt, its counters, and what it has told; of the last two fields nothing is read:
the calls of `agent.continue` since the last response with stop reason `stop` or `toolUse`, and
whether a queued message has come since. -/
structure State where
  phase : Phase
  messages : List Message
  retryAttempt : Nat
  overflowRecoveryAttempted : Bool
  events : List Event
  continued : Nat
  queued : Bool

/-- `agent.prompt`, behind the messages of the context. -/
def initial (context : List Message) : State :=
  ⟨.running, context ++ [.user], 0, false, [], 0, false⟩

/-- What `_checkCompaction` finds. -/
structure Facts where
  sameModel : Bool
  -- the response is older than the latest compaction
  beforeCompaction : Bool
  -- `shouldCompact`
  overThreshold : Bool
  -- the queued messages
  queue : List Message

inductive Action where
  -- a response, with its tool results, and the queued messages that come next
  | respond (response : Response) (toolResults : Nat) (stops : Bool) (queue : List Message)
  -- the agent loop takes messages from the queues, in front of a request
  | deliver (queue : List Message)
  | handle
  -- the sleep is over, or `abortRetry` ends it
  | wake (queue : List Message)
  | cancel
  | check (facts : Facts)
  -- the compaction is over; with the messages of the agent, and whether it was done
  | compacted (messages : List Message) (done : Bool) (queue : List Message)

section Steps

variable (config : Config)

namespace State

def emit (s : State) (events : List Event) : State := { s with events := s.events ++ events }

/-- The `finally` of `_runAgentPrompt`. -/
def settle (s : State) : State := { s.emit [.agentSettled] with phase := .settled }

/-- Queued messages begin; a user message resets the overflow flag. -/
def deliver (s : State) (queue : List Message) : State :=
  { s with
    messages := s.messages ++ queue
    overflowRecoveryAttempted := s.overflowRecoveryAttempted && !queue.contains .user
    queued := s.queued || queue ≠ [] }

/-- `agent.continue()`: it throws behind an assistant message, unless messages are queued. -/
def continueRun (s : State) (queue : List Message) : State :=
  let s := { s with continued := s.continued + 1 }
  if s.messages.getLast?.any (!·.isAssistant) then { s with phase := .running }
  else if s.messages ≠ [] ∧ queue ≠ [] then { s.deliver queue with phase := .running }
  else s.settle

/-- `return this.agent.hasQueuedMessages()` -/
def finishPost (s : State) (queue : List Message) : State :=
  if queue = [] then s.settle else { s with queued := true }.continueRun queue

/-- The assistant message at the end is taken away. -/
def dropFailed (s : State) : State :=
  if s.messages.getLast?.any (·.isAssistant) then { s with messages := s.messages.dropLast } else s

end State

/-- The assistant message that a response is. -/
def messageOf (response : Response) : Message :=
  .assistant (response.stopReason = .error || response.stopReason = .length)

/-- `_handleAgentEvent`, for the end of an assistant message. -/
def messageEnd (s : State) (response : Response) : State :=
  let s := s.emit [.response response.stopReason]
  let s := { s with
    messages := s.messages ++ [messageOf response]
    overflowRecoveryAttempted := s.overflowRecoveryAttempted
      && (response.stopReason = .error || response.stopReason = .length) }
  let s :=
    if response.stopReason = .stop ∨ response.stopReason = .toolUse then
      { s with continued := 0, queued := false }
    else s
  if response.stopReason ≠ .error ∧ 0 < s.retryAttempt then
    { s.emit [.retryEnd true s.retryAttempt] with retryAttempt := 0 }
  else s

/-- A response, and what the agent loop does behind it: it goes on with tool results, unless they
end the turn, or with messages of the queues. -/
def respond (s : State) (response : Response) (toolResults : Nat) (stops : Bool)
    (queue : List Message) : State :=
  let s := messageEnd s response
  if response.stopReason = .error ∨ response.stopReason = .aborted then
    { s with phase := .handling response }
  else
    let s := { s with messages := s.messages ++ List.replicate toolResults Message.toolResult }
    if (toolResults = 0 ∨ stops) ∧ queue = [] then { s with phase := .handling response }
    else s.deliver queue

/-- The first part of `_handlePostAgentRun`, with `_prepareRetry` up to its sleep. -/
def handle (s : State) (response : Response) : State :=
  if isRetryableError config response ∧ config.retryEnabled = true
      ∧ s.retryAttempt + 1 ≤ config.maxRetries then
    let s := { s with retryAttempt := s.retryAttempt + 1, phase := .sleeping response }
    (s.emit [.retryStart s.retryAttempt]).dropFailed
  else if response.stopReason = .error ∧ 0 < s.retryAttempt then
    { s.emit [.retryEnd false s.retryAttempt] with retryAttempt := 0, phase := .checking response }
  else { s with phase := .checking response }

/-- `_checkCompaction`, up to `_runAutoCompaction`. -/
def check (s : State) (response : Response) (facts : Facts) : State :=
  if !config.compactionEnabled || response.stopReason = .aborted || facts.beforeCompaction then
    s.finishPost facts.queue
  else if facts.sameModel
      && (isContextOverflow config response || isRecoverableLength config response) then
    if response.stopReason = .stop then { s with phase := .compacting false }
    else if s.overflowRecoveryAttempted then s.finishPost facts.queue
    else { { s with overflowRecoveryAttempted := true }.dropFailed with phase := .compacting true }
  else if facts.overThreshold then { s with phase := .compacting false }
  else s.finishPost facts.queue

/-- The end of `_runAutoCompaction`, and of `_handlePostAgentRun`. -/
def compacted (s : State) (willRetry : Bool) (messages : List Message) (done : Bool)
    (queue : List Message) : State :=
  let s := { s with messages }
  if done ∧ willRetry then
    (if s.messages.getLast? = some (.assistant true) then s.dropFailed else s).continueRun queue
  else s.finishPost queue

def step (s : State) : Action → Option State
  | .respond response toolResults stops queue =>
    match s.phase with
    | .running =>
      if queue.all (·.isQueued) then some (respond s response toolResults stops queue) else none
    | _ => none
  | .deliver queue =>
    match s.phase with
    | .running => if queue.all (·.isQueued) then some (s.deliver queue) else none
    | _ => none
  | .handle =>
    match s.phase with
    | .handling response => some (handle config s response)
    | _ => none
  | .wake queue =>
    match s.phase with
    | .sleeping _ => if queue.all (·.isQueued) then some (s.continueRun queue) else none
    | _ => none
  | .cancel =>
    match s.phase with
    | .sleeping response =>
      some { s.emit [.retryEnd false s.retryAttempt] with
        retryAttempt := 0, phase := .checking response }
    | _ => none
  | .check facts =>
    match s.phase with
    | .checking response =>
      if facts.queue.all (·.isQueued) then some (check config s response facts) else none
    | _ => none
  | .compacted messages done queue =>
    match s.phase with
    | .compacting willRetry =>
      if queue.all (·.isQueued) then some (compacted s willRetry messages done queue) else none
    | _ => none

/-- A run. -/
def run (s : State) (actions : List Action) : Option State := actions.foldlM (step config) s

end Steps

/-! ## What is promised -/

/-- How far a series of retries is. -/
inductive Series where
  | closed
  | failing (attempt : Nat)
  -- a response ends it, and it has not been said
  | closing (attempt : Nat) (success : Bool)
  deriving DecidableEq

/-- What may be told next. A series has the attempts 1, 2, … up to `maxRetries`; it is ended once,
with success if a response ends it that is no error and was not aborted, and before the agent has
settled. -/
inductive Next (maxRetries : Nat) : Series → Event → Series → Prop
  | response (stopReason : StopReason) : Next maxRetries .closed (.response stopReason) .closed
  | first (h : 1 ≤ maxRetries) : Next maxRetries .closed (.retryStart 1) (.failing 1)
  | again (attempt : Nat) (h : attempt + 1 ≤ maxRetries) :
      Next maxRetries (.failing attempt) (.retryStart (attempt + 1)) (.failing (attempt + 1))
  | failed (attempt : Nat) :
      Next maxRetries (.failing attempt) (.response .error) (.failing attempt)
  | answered (attempt : Nat) (stopReason : StopReason) (h : stopReason ≠ .error) :
      Next maxRetries (.failing attempt) (.response stopReason)
        (.closing attempt (stopReason ≠ .aborted))
  | ended (attempt : Nat) (success : Bool) :
      Next maxRetries (.closing attempt success) (.retryEnd success attempt) .closed
  | givenUp (attempt : Nat) :
      Next maxRetries (.failing attempt) (.retryEnd false attempt) .closed
  | settled : Next maxRetries .closed .agentSettled .closed

/-- The events of a log may be told, one after the other. -/
abbrev Told (maxRetries : Nat) (events : List Event) (series : Series) : Prop :=
  Runs.Path (Next maxRetries) .closed events series

/-- While a series of retries is open, no response is aborted, and no truncated response goes on
with tool results. -/
def sound (s : State) : Action → Bool
  | .respond response toolResults stops _ =>
    s.retryAttempt = 0 || (response.stopReason ≠ .aborted
      && (response.stopReason ≠ .length || toolResults = 0 || stops))
  | _ => true

/-- A run in which every step is sound. -/
def runSound (config : Config) (s : State) (actions : List Action) : Option State :=
  actions.foldlM (fun s a => if sound s a then step config s a else none) s

end PiMono.CodingAgent.Recovery
