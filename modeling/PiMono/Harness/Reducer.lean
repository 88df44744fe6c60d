import Mathlib.Data.List.Sort
import PiMono.Lib.CodeUnits
import PiMono.Lib.JsMap
import PiMono.Lib.JsNumber

/-!
# Reducing a lane

`packages/agent/src/harness/reducer.ts`: what the recovery of a lane reads of its records and
entries. `validateRecordLog` rejects slices that the protocol cannot write, `reduceLaneState`
rebuilds the state of the open operation. Data that is only compared and copied is of a type
`δ`, whose equality is the deep equality of the source.
-/

namespace PiMono.Harness.Lane

/-! ## Entries -/

/-- `StopReason` -/
inductive StopReason where
  | stop
  | length
  | toolUse
  | error
  | aborted
  | pending
  | deferred
  deriving DecidableEq, Repr

/-- `AgentToolCall` -/
structure AgentToolCall (δ : Type) where
  id : JsString
  name : JsString
  data : δ
  deriving DecidableEq

/-- A block of an assistant message. -/
inductive AssistantContent (δ : Type) where
  | toolCall (call : AgentToolCall δ)
  | other (data : δ)
  deriving DecidableEq

/-- `AssistantMessage` -/
structure AssistantMessage (δ : Type) where
  content : List (AssistantContent δ)
  provider : JsString
  model : JsString
  stopReason : StopReason
  deferred : Option δ
  data : δ
  deriving DecidableEq

/-- The other roles of a message. -/
inductive OtherRole where
  | user
  | bashExecution
  | custom
  | branchSummary
  | compactionSummary
  deriving DecidableEq, Repr

/-- `AgentMessage` -/
inductive AgentMessage (δ : Type) where
  | assistant (message : AssistantMessage δ)
  | toolResult (toolCallId toolName : JsString) (data : δ)
  | other (role : OtherRole) (data : δ)
  deriving DecidableEq

/-- What an entry holds, by its type. -/
inductive EntryBody (δ : Type) where
  | message (message : AgentMessage δ) (terminate : Bool)
  | modelChange (provider modelId : JsString)
  | thinkingLevelChange (thinkingLevel : JsString)
  | activeToolsChange (activeToolNames : List JsString)
  | compaction (data : δ)
  | branchSummary (data : δ)
  | custom (data : δ)
  deriving DecidableEq

/-- `ProvisionedEntry` -/
structure ProvisionedEntry (δ : Type) where
  id : JsString
  body : EntryBody δ
  deriving DecidableEq

/-- `Entry` -/
structure Entry (δ : Type) where
  id : JsString
  seq : Nat
  body : EntryBody δ
  deriving DecidableEq

/-! ## Records -/

/-- `StepAttemptRecord["step"]` -/
inductive Step where
  | assistant
  | compaction
  | branchSummary
  deriving DecidableEq, Repr

/-- `OperationStartedRecord["intent"]` -/
inductive Intent (δ : Type) where
  | run (initialMessages : List (ProvisionedEntry δ)) (data : δ)
  | compaction (resultEntryId : JsString) (data : δ)
  | navigation (summaryEntryId : Option JsString) (data : δ)
  deriving DecidableEq

/-- `OperationStartedRecord` -/
structure OperationStarted (δ : Type) where
  id : JsString
  seq : Nat
  intent : Intent δ
  deriving DecidableEq

/-- `StepAttemptRecord`, the reason as it is read. -/
structure StepAttempt where
  runId : JsString
  step : Step
  attempt : Nat
  resultEntryId : JsString
  compactionReason : Option JsString
  deriving DecidableEq

/-- `ToolStartedRecord` -/
structure ToolStarted (δ : Type) where
  runId : JsString
  assistantEntryId : JsString
  toolIndex : Nat
  toolCallId : JsString
  toolName : JsString
  resultEntryId : JsString
  data : δ
  deriving DecidableEq

/-- `QueueEnqueuedRecord["queue"]` -/
inductive Queue where
  | steer
  | followUp
  | nextRun
  deriving DecidableEq, Repr

/-- `QueueEnqueuedRecord` -/
structure QueueEnqueued (δ : Type) where
  queue : Queue
  runId : Option JsString
  target : ProvisionedEntry δ
  deriving DecidableEq

/-- `UsageRecord["cause"]` -/
inductive UsageCause where
  | assistant
  | compaction
  | branchSummary
  | deferredFetch
  | tool
  | hook
  | adjustment
  deriving DecidableEq, Repr

/-- What a record holds, by its type. -/
inductive RecordBody (δ : Type) where
  | operationStarted (intent : Intent δ)
  | abortRequested (runId : JsString)
  | operationFinished (runId : JsString)
  | stepAttempt (attempt : StepAttempt)
  | toolStarted (start : ToolStarted δ)
  | queueEnqueued (enqueued : QueueEnqueued δ)
  | queueCancelled (runId : Option JsString) (entryId : JsString)
  | writeDeferred (runId : JsString) (target : ProvisionedEntry δ)
  | usage (cause : UsageCause) (runId entryId : Option JsString)
  deriving DecidableEq

/-- `LaneRecord` -/
structure LaneRecord (δ : Type) where
  id : JsString
  seq : Nat
  body : RecordBody δ
  deriving DecidableEq

/-- `RecordLogCorruptionReason` -/
inductive RecordLogCorruptionReason where
  | multipleOpenOperations
  | unknownOperation
  | recordAfterFinish
  | nonConsecutiveAttempt
  | invalidCompactionReason
  | queueAfterAbort
  | invalidQueueCancellation
  | inconsistentStep
  | toolCallMismatch
  | duplicateToolInvocation
  | provisionedEntryMismatch
  | invalidDeferredHandle
  deriving DecidableEq, Repr

/-- `RecordLogCorruption` -/
structure RecordLogCorruption where
  reason : RecordLogCorruptionReason
  message : JsString
  deriving DecidableEq

section Reading

variable {δ : Type}

namespace AssistantMessage

/-- The tool calls of a message, in their order. -/
def toolCalls (m : AssistantMessage δ) : List (AgentToolCall δ) :=
  m.content.filterMap fun
    | .toolCall call => some call
    | .other _ => none

end AssistantMessage

namespace Entry

/-- The message of an assistant entry. -/
def assistant? (e : Entry δ) : Option (AssistantMessage δ) :=
  match e.body with
  | .message (.assistant m) _ => some m
  | _ => none

/-- The ids a tool-result entry names: of the call and of the tool. -/
def toolResult? (e : Entry δ) : Option (JsString × JsString) :=
  match e.body with
  | .message (.toolResult toolCallId toolName _) _ => some (toolCallId, toolName)
  | _ => none

def isMessage (e : Entry δ) : Bool :=
  match e.body with
  | .message .. => true
  | _ => false

def isCompaction (e : Entry δ) : Bool :=
  match e.body with
  | .compaction _ => true
  | _ => false

def isBranchSummary (e : Entry δ) : Bool :=
  match e.body with
  | .branchSummary _ => true
  | _ => false

/-- `entry.terminate === true`, of a message entry. -/
def terminates (e : Entry δ) : Bool :=
  match e.body with
  | .message _ terminate => terminate
  | _ => false

end Entry

namespace LaneRecord

/-- `record.runId`, where `hasRunId`. -/
def runId? (r : LaneRecord δ) : Option JsString :=
  match r.body with
  | .operationStarted _ => none
  | .abortRequested runId | .operationFinished runId | .writeDeferred runId _ => some runId
  | .stepAttempt a => some a.runId
  | .toolStarted s => some s.runId
  | .queueEnqueued q => q.runId
  | .queueCancelled runId _ | .usage _ runId _ => runId

def isAbort (r : LaneRecord δ) : Bool :=
  match r.body with
  | .abortRequested _ => true
  | _ => false

end LaneRecord

end Reading

/-! ## Validation -/

/-- `corrupt` -/
def corrupt {α : Type} (reason : RecordLogCorruptionReason) (message : JsString) :
    Except RecordLogCorruption α := .error ⟨reason, message⟩

section Validation

variable {δ : Type} [DecidableEq δ]

/-- `entriesById.get` -/
abbrev Lookup (δ : Type) := JsString → Option (Entry δ)

/-- `matchesProvisionedEntry` -/
def matchesProvisionedEntry (entry : Entry δ) (target : ProvisionedEntry δ) : Bool :=
  (⟨entry.id, entry.body⟩ : ProvisionedEntry δ) = target

/-- `validateExactProvisionedEntry` -/
def validateExactProvisionedEntry (entriesById : Lookup δ) (target : ProvisionedEntry δ) :
    Except RecordLogCorruption Unit :=
  match entriesById target.id with
  | some entry =>
    if matchesProvisionedEntry entry target then .ok ()
    else corrupt .provisionedEntryMismatch
      (js "Provisioned entry " ++ target.id ++ js " exists with content different from its intent")
  | none => .ok ()

/-- `validateResultEntry` -/
def validateResultEntry (entriesById : Lookup δ) (resultEntryId : JsString)
    (accepts : Entry δ → Bool) (description : String) : Except RecordLogCorruption Unit :=
  match entriesById resultEntryId with
  | some entry =>
    if accepts entry then .ok ()
    else corrupt .provisionedEntryMismatch
      (js "Provisioned " ++ js description ++ js " entry " ++ resultEntryId
        ++ js " exists with different content")
  | none => .ok ()

/-- `${record.step}` -/
def Step.text : Step → JsString
  | assistant => js "assistant"
  | compaction => js "compaction"
  | branchSummary => js "branch_summary"

/-- `${n}` -/
def countText (n : Nat) : JsString := (JsNumber.ofNat n).text

/-- `validateAttemptReason` -/
def validateAttemptReason (id : JsString) (record : StepAttempt) :
    Except RecordLogCorruption Unit :=
  if record.step = .compaction then
    if record.compactionReason ≠ some (js "manual")
        ∧ record.compactionReason ≠ some (js "threshold")
        ∧ record.compactionReason ≠ some (js "overflow") then
      corrupt .invalidCompactionReason
        (js "Compaction attempt " ++ id ++ js " has no valid compaction reason")
    else .ok ()
  else if record.compactionReason ≠ none then
    corrupt .invalidCompactionReason
      (record.step.text ++ js " attempt " ++ id ++ js " has a compaction reason")
  else .ok ()

/-- `continuesSeries`: the result of the previous attempt did not stand in front of this one. -/
def continuesSeries (entriesById : Lookup δ) (seq : Nat) (record : StepAttempt)
    (previous : Option StepAttempt) : Bool :=
  previous.any fun previousRecord => previousRecord.step = record.step &&
    (entriesById previousRecord.resultEntryId).all (seq ≤ ·.seq)

/-- `validateAttemptSequence` -/
def validateAttemptSequence (entriesById : Lookup δ) (id : JsString) (seq : Nat)
    (record : StepAttempt) (previous : Option StepAttempt) : Except RecordLogCorruption Unit :=
  let continues := continuesSeries entriesById seq record previous
  let expectedAttempt :=
    match previous with
    | some previousRecord => if continues then previousRecord.attempt + 1 else 1
    | none => 1
  if record.attempt ≠ expectedAttempt then
    corrupt .nonConsecutiveAttempt
      (record.step.text ++ js " attempt " ++ id ++ js " is " ++ countText record.attempt
        ++ js "; expected " ++ countText expectedAttempt)
  else
    match previous with
    | none => .ok ()
    | some previousRecord =>
      if !continues || record.step = .assistant then .ok ()
      else if record.resultEntryId ≠ previousRecord.resultEntryId then
        corrupt .inconsistentStep
          (record.step.text ++ js " attempts disagree on their result entry id")
      else if record.compactionReason ≠ previousRecord.compactionReason then
        corrupt .inconsistentStep
          (record.step.text ++ js " attempts disagree on their compaction reason")
      else .ok ()

/-- `validateAttemptResult` -/
def validateAttemptResult (entriesById : Lookup δ) (record : StepAttempt) :
    Except RecordLogCorruption Unit :=
  match record.step with
  | .assistant =>
    validateResultEntry entriesById record.resultEntryId (·.assistant?.isSome) "assistant result"
  | .compaction =>
    validateResultEntry entriesById record.resultEntryId Entry.isCompaction "compaction result"
  | .branchSummary =>
    validateResultEntry entriesById record.resultEntryId Entry.isBranchSummary
      "branch-summary result"

/-- `validateToolStart`; the caller adds the invocation. -/
def validateToolStart (entriesById : Lookup δ) (invocations : List (JsString × Nat)) (id : JsString)
    (record : ToolStarted δ) : Except RecordLogCorruption Unit :=
  if (record.assistantEntryId, record.toolIndex) ∈ invocations then
    corrupt .duplicateToolInvocation
      (js "Tool invocation " ++ record.assistantEntryId ++ js ":" ++ countText record.toolIndex
        ++ js " is duplicated")
  else
    match (entriesById record.assistantEntryId).bind Entry.assistant? with
    | none =>
      corrupt .toolCallMismatch
        (js "Tool start " ++ id ++ js " does not reference an assistant entry")
    | some message =>
      if message.toolCalls[record.toolIndex]?.any fun toolCall =>
          toolCall.id = record.toolCallId && toolCall.name = record.toolName then
        validateResultEntry entriesById record.resultEntryId
          (fun entry => entry.toolResult? = some (record.toolCallId, record.toolName)) "tool result"
      else
        corrupt .toolCallMismatch
          (js "Tool start " ++ id ++ js " does not match its assistant tool-call ordinal")

/-- The first deferred assistant entry without a handle. -/
def withoutHandle (entry : Entry δ) : Bool :=
  entry.assistant?.any fun message => message.stopReason = .deferred && message.deferred.isNone

/-- `validateDeferredHandles` -/
def validateDeferredHandles (entries : List (Entry δ)) : Except RecordLogCorruption Unit :=
  match entries.find? withoutHandle with
  | some entry =>
    corrupt .invalidDeferredHandle
      (js "Deferred assistant entry " ++ entry.id ++ js " does not carry a handle")
  | none => .ok ()

/-- `validateOperationResult` -/
def validateOperationResult (entriesById : Lookup δ) : Intent δ → Except RecordLogCorruption Unit
  | .run initialMessages _ => initialMessages.forM (validateExactProvisionedEntry entriesById)
  | .compaction resultEntryId _ =>
    validateResultEntry entriesById resultEntryId Entry.isCompaction "manual compaction"
  | .navigation summaryEntryId _ =>
    -- an empty id is falsy, as no id is
    match summaryEntryId.filter (· ≠ []) with
    | some id => validateResultEntry entriesById id Entry.isBranchSummary "navigation summary"
    | none => .ok ()

/-- What `validateRecordLog` has seen of the records. -/
structure RecordLog (δ : Type) where
  starts : List JsString
  finishedAt : JsMap JsString Nat
  abortedAt : JsMap JsString Nat
  queueEnqueues : JsMap JsString (Nat × Option JsString)
  latestAttempt : JsMap JsString StepAttempt
  toolInvocations : List (JsString × Nat)

/-- What the loop starts with. -/
def RecordLog.empty (δ : Type) : RecordLog δ := ⟨[], .empty, .empty, .empty, .empty, []⟩

/-- `${record.queue}` -/
def Queue.text : Queue → JsString
  | steer => js "steer"
  | followUp => js "followUp"
  | nextRun => js "nextRun"

/-- The checks of a record that belongs to an operation. -/
def validateRunId (log : RecordLog δ) (record : LaneRecord δ) : Except RecordLogCorruption Unit :=
  match record.runId? with
  | none => .ok ()
  | some runId =>
    if runId ∉ log.starts then
      corrupt .unknownOperation
        (js "Record " ++ record.id ++ js " references unknown operation " ++ runId)
    else if (log.finishedAt.get? runId).any (· < record.seq) then
      corrupt .recordAfterFinish
        (js "Record " ++ record.id ++ js " follows the finish of operation " ++ runId)
    else .ok ()

/-- The `switch` of the loop. -/
def validateBody (entriesById : Lookup δ) (log : RecordLog δ) (record : LaneRecord δ) :
    Except RecordLogCorruption (RecordLog δ) :=
  match record.body with
  | .operationStarted intent => do
    validateOperationResult entriesById intent
    return { log with starts := record.id :: log.starts }
  | .operationFinished runId =>
    return { log with finishedAt := log.finishedAt.set runId record.seq }
  | .abortRequested runId => return { log with abortedAt := log.abortedAt.set runId record.seq }
  | .stepAttempt attempt => do
    validateAttemptReason record.id attempt
    validateAttemptSequence entriesById record.id record.seq attempt
      (log.latestAttempt.get? attempt.runId)
    validateAttemptResult entriesById attempt
    return { log with latestAttempt := log.latestAttempt.set attempt.runId attempt }
  | .toolStarted start => do
    validateToolStart entriesById log.toolInvocations record.id start
    return { log with
      toolInvocations := (start.assistantEntryId, start.toolIndex) :: log.toolInvocations }
  | .queueEnqueued q =>
    if q.queue ≠ .nextRun ∧ (q.runId.bind log.abortedAt.get?).any (· < record.seq) then
      corrupt .queueAfterAbort
        (q.queue.text ++ js " item " ++ q.target.id ++ js " was enqueued after abort")
    else do
      validateExactProvisionedEntry entriesById q.target
      return { log with queueEnqueues := log.queueEnqueues.set q.target.id (record.seq, q.runId) }
  | .queueCancelled runId entryId =>
    if (log.queueEnqueues.get? entryId).any fun enqueue =>
        enqueue.1 < record.seq && enqueue.2 = runId && (entriesById entryId).isNone then
      return log
    else
      corrupt .invalidQueueCancellation
        (js "Queue cancellation " ++ record.id ++ js " has no pending matching enqueue")
  | .writeDeferred _ target => do
    validateExactProvisionedEntry entriesById target
    return log
  | .usage .. => return log

/-- The body of the loop. -/
def validateRecord (entriesById : Lookup δ) (log : RecordLog δ) (record : LaneRecord δ) :
    Except RecordLogCorruption (RecordLog δ) := do
  validateRunId log record
  validateBody entriesById log record

/-- `left.seq - right.seq`, as an order. -/
def bySeq {α : Type} (seq : α → Nat) (left right : α) : Bool := seq left ≤ seq right

/-- `bySequence` -/
def bySequence {α : Type} (seq : α → Nat) (values : List α) : List α := values.mergeSort (bySeq seq)

/-- `validateRecordLog` -/
def validateRecordLog (lane : JsString) (openOperations : List (OperationStarted δ))
    (records : List (LaneRecord δ)) (entries : List (Entry δ)) :
    Except RecordLogCorruption (RecordLog δ) := do
  if 1 < openOperations.length then
    corrupt .multipleOpenOperations (js "Lane " ++ lane ++ js " has at least two open operations")
  else
    let entriesById := JsMap.index Entry.id entries
    validateDeferredHandles (entriesById.entries.map Prod.snd)
    (bySequence LaneRecord.seq records).foldlM (validateRecord entriesById.get?)
      (RecordLog.empty δ)

end Validation

/-! ## Reduction -/

/-- `EffectiveLaneConfiguration` -/
structure EffectiveLaneConfiguration where
  provider : JsString
  modelId : JsString
  thinkingLevel : JsString
  activeToolNames : List JsString
  deriving DecidableEq

/-- A call of `ToolBatchState`. -/
structure BatchCall (δ : Type) where
  toolIndex : Nat
  toolCall : AgentToolCall δ
  started : Option (LaneRecord δ × ToolStarted δ)
  resultExists : Bool
  terminate : Bool
  deriving DecidableEq

/-- `ToolBatchState` -/
structure ToolBatchState (δ : Type) where
  assistantEntryId : JsString
  calls : List (BatchCall δ)
  truncated : Bool
  unresolved : Bool
  deriving DecidableEq

/-- `LaneState["operation"]["step"]` -/
structure OpenStep where
  kind : Step
  attempts : Nat
  resultEntryId : JsString
  compactionReason : Option JsString
  deriving DecidableEq

/-- The type, the role and the reason it stopped, of `LaneState["operation"]["newestOwn"]`. -/
inductive OwnKind where
  | assistant (stopReason : StopReason)
  | toolResult
  | other (role : OtherRole)
  | modelChange
  | thinkingLevelChange
  | activeToolsChange
  | compaction
  | branchSummary
  | custom
  deriving DecidableEq

/-- `LaneState["operation"]["targets"]` -/
structure Targets where
  result : Option Bool
  summary : Option Bool
  deriving DecidableEq

/-- `LaneState["operation"]` -/
structure OperationState (δ : Type) where
  id : JsString
  intent : Intent δ
  aborting : Bool
  step : Option OpenStep
  toolBatch : Option (ToolBatchState δ)
  missingInitialMessages : List (ProvisionedEntry δ)
  pendingSteer : List (ProvisionedEntry δ)
  pendingFollowUp : List (ProvisionedEntry δ)
  pendingWrites : List (ProvisionedEntry δ)
  deferred : Option δ
  overflowRecoveryUsed : Bool
  newestOwn : Option (JsString × OwnKind)
  targets : Targets
  deriving DecidableEq

/-- `LaneState` -/
structure LaneState (δ : Type) where
  lane : JsString
  leafId : Option JsString
  operation : Option (OperationState δ)
  pendingNextRun : List (ProvisionedEntry δ)
  deriving DecidableEq

/-- `TerminalFailureState`: `true` where a step has produced the message. -/
structure TerminalFailureState (δ : Type) where
  entryId : JsString
  byStep : Bool
  message : AssistantMessage δ
  deriving DecidableEq

/-- `LaneReductionInput` -/
structure LaneReductionInput (δ : Type) where
  lane : JsString
  openOperations : List (OperationStarted δ)
  records : List (LaneRecord δ)
  entries : List (Entry δ)
  leafId : Option JsString
  ownEntries : List (Entry δ)
  configurationEntries : List (Entry δ)
  defaults : EffectiveLaneConfiguration
  deriving DecidableEq

/-- `LaneReductionResult` -/
structure LaneReductionResult (δ : Type) where
  laneState : LaneState δ
  effectiveConfiguration : EffectiveLaneConfiguration
  terminalFailure : Option (TerminalFailureState δ)
  deriving DecidableEq

section Reduction

variable {δ : Type} [DecidableEq δ]

/-- What an entry changes of the configuration. -/
def configure (configuration : EffectiveLaneConfiguration) (entry : Entry δ) :
    EffectiveLaneConfiguration :=
  match entry.body with
  | .modelChange provider modelId =>
    { configuration with provider := provider, modelId := modelId }
  | .thinkingLevelChange thinkingLevel => { configuration with thinkingLevel := thinkingLevel }
  | .activeToolsChange activeToolNames =>
    { configuration with activeToolNames := activeToolNames }
  | .message (.assistant m) _ => { configuration with provider := m.provider, modelId := m.model }
  | _ => configuration

/-- `deriveEffectiveConfiguration` -/
def deriveEffectiveConfiguration (input : LaneReductionInput δ) : EffectiveLaneConfiguration :=
  let entriesById := JsMap.index Entry.id (input.configurationEntries ++ input.ownEntries)
  (bySequence Entry.seq (entriesById.entries.map Prod.snd)).foldl configure input.defaults

/-- `deriveNewestOwn`, with the type, the role and the reason it stopped. -/
def deriveNewestOwn (entry : Entry δ) : JsString × OwnKind :=
  (entry.id, match entry.body with
    | .message (.assistant m) _ => .assistant m.stopReason
    | .message (.toolResult ..) _ => .toolResult
    | .message (.other role _) _ => .other role
    | .modelChange .. => .modelChange
    | .thinkingLevelChange _ => .thinkingLevelChange
    | .activeToolsChange _ => .activeToolsChange
    | .compaction _ => .compaction
    | .branchSummary _ => .branchSummary
    | .custom _ => .custom)

/-- The records of an operation. -/
def operationRecords (operationId : JsString) (records : List (LaneRecord δ)) :
    List (LaneRecord δ) :=
  records.filter fun record =>
    match record.body with
    | .operationStarted _ => record.id = operationId
    | _ => record.runId? = some operationId

/-- The assistant entry of the batch: the newest one with a tool call. -/
def batchEntry (ownEntries : List (Entry δ)) : Option (Entry δ × AssistantMessage δ) :=
  ownEntries.reverse.findSome? fun entry =>
    (entry.assistant?.filter (! ·.toolCalls.isEmpty)).map (entry, ·)

/-- The starts of a batch, by the ordinal of the call. -/
def batchStarts (operationId assistantEntryId : JsString) (records : List (LaneRecord δ)) :
    List (LaneRecord δ × ToolStarted δ) :=
  records.filterMap fun record =>
    match record.body with
    | .toolStarted start =>
      if start.runId = operationId ∧ start.assistantEntryId = assistantEntryId then
        some (record, start)
      else none
    | _ => none

/-- `starts.get(toolIndex)` -/
def startOf (starts : List (LaneRecord δ × ToolStarted δ)) (toolIndex : Nat) :
    Option (LaneRecord δ × ToolStarted δ) :=
  (JsMap.index (fun start => start.2.toolIndex) starts).get? toolIndex

/-- A tool result that is no deferred write, behind the assistant entry. -/
def isFallback (assistantEntry : Entry δ) (deferredWriteIds : List JsString)
    (toolCall : AgentToolCall δ) (entry : Entry δ) : Bool :=
  assistantEntry.seq < entry.seq && !deferredWriteIds.contains entry.id &&
    entry.toolResult?.any (·.1 = toolCall.id)

/-- `blockedResult` -/
def blockedResult (ownEntries : List (Entry δ)) (assistantEntry : Entry δ)
    (deferredWriteIds : List JsString) (toolCall : AgentToolCall δ) : Option (Entry δ) :=
  ownEntries.find? (isFallback assistantEntry deferredWriteIds toolCall)

/-- A call of the batch. -/
def batchCall (entriesById : Lookup δ) (ownEntries : List (Entry δ)) (assistantEntry : Entry δ)
    (deferredWriteIds : List JsString) (starts : List (LaneRecord δ × ToolStarted δ))
    (toolCall : AgentToolCall δ) (toolIndex : Nat) : BatchCall δ :=
  let started := startOf starts toolIndex
  let startedResult := started.bind fun start => entriesById start.2.resultEntryId
  let result :=
    startedResult.or (blockedResult ownEntries assistantEntry deferredWriteIds toolCall)
  ⟨toolIndex, toolCall, started, result.isSome, result.any Entry.terminates⟩

/-- `deriveToolBatch` -/
def deriveToolBatch (operationId : JsString) (records : List (LaneRecord δ))
    (ownEntries : List (Entry δ)) (entriesById : Lookup δ) (deferredWriteIds : List JsString) :
    Option (ToolBatchState δ) :=
  (batchEntry ownEntries).map fun (assistantEntry, message) =>
    let starts := batchStarts operationId assistantEntry.id records
    let calls := message.toolCalls.zipIdx.map fun (toolCall, toolIndex) =>
      batchCall entriesById ownEntries assistantEntry deferredWriteIds starts toolCall toolIndex
    { assistantEntryId := assistantEntry.id
      calls := calls
      truncated := message.stopReason = .length
      unresolved := calls.any (! ·.resultExists) }

/-- The targets of the records that are deferred writes. -/
def deferredWrites (records : List (LaneRecord δ)) : List (ProvisionedEntry δ) :=
  records.filterMap fun record =>
    match record.body with
    | .writeDeferred _ target => some target
    | _ => none

/-- The attempts among the records. -/
def stepAttempts (records : List (LaneRecord δ)) : List (Nat × StepAttempt) :=
  records.filterMap fun record =>
    match record.body with
    | .stepAttempt attempt => some (record.seq, attempt)
    | _ => none

/-- The items that were enqueued. -/
def enqueuedItems (records : List (LaneRecord δ)) : List (QueueEnqueued δ) :=
  records.filterMap fun record =>
    match record.body with
    | .queueEnqueued q => some q
    | _ => none

/-- The ids of the cancelled items. -/
def cancelledIds (records : List (LaneRecord δ)) : List JsString :=
  records.filterMap fun record =>
    match record.body with
    | .queueCancelled _ entryId => some entryId
    | _ => none

/-- The initial messages of an intent. -/
def Intent.initialMessages : Intent δ → List (ProvisionedEntry δ)
  | .run initialMessages _ => initialMessages
  | .compaction .. | .navigation .. => []

/-- `pendingQueueRecords` -/
def pendingQueue (entriesById : Lookup δ) (records : List (LaneRecord δ)) :
    List (QueueEnqueued δ) :=
  let cancelled := cancelledIds records
  (enqueuedItems records).filter fun q =>
    (entriesById q.target.id).isNone && !cancelled.contains q.target.id

/-- `newestConsumedInputSequence`; `none` is minus infinity. -/
def newestConsumed (entriesById : Lookup δ) (intent : Intent δ) (records : List (LaneRecord δ)) :
    Option Nat :=
  let ids := intent.initialMessages.map (·.id)
    ++ ((enqueuedItems records).filter (·.queue ≠ .nextRun)).map (·.target.id)
  ((ids.filterMap entriesById).filter Entry.isMessage).foldl
    (fun newest entry => some (max (newest.getD entry.seq) entry.seq)) none

/-- `overflowRecoveryUsed` -/
def overflowUsed (newest : Option Nat) (attempts : List (Nat × StepAttempt)) : Bool :=
  attempts.any fun (seq, attempt) =>
    attempt.step = .compaction && attempt.compactionReason = some (js "overflow")
      && newest.all (· < seq)

/-- `step` -/
def openStep (entriesById : Lookup δ) (attempts : List (Nat × StepAttempt)) : Option OpenStep :=
  attempts.getLast?.bind fun (_, attempt) =>
    if (entriesById attempt.resultEntryId).isSome then none
    else some ⟨attempt.step, attempt.attempt, attempt.resultEntryId,
      if attempt.step = .compaction then attempt.compactionReason else none⟩

/-- `targets` -/
def targetsOf (entriesById : Lookup δ) : Intent δ → Targets
  | .run .. => ⟨none, none⟩
  | .compaction resultEntryId _ => ⟨some (entriesById resultEntryId).isSome, none⟩
  | .navigation summaryEntryId _ =>
    ⟨none, (summaryEntryId.filter (· ≠ [])).map fun id => (entriesById id).isSome⟩

/-- The records say that a deferred fetch has produced the entry. -/
def fetchedEntry (records : List (LaneRecord δ)) (entryId : JsString) : Bool :=
  records.any fun record =>
    match record.body with
    | .usage cause _ id => cause = .deferredFetch && id = some entryId
    | _ => false

/-- The entry is an assistant message that stopped for that reason. -/
def stoppedFor (reason : StopReason) (entry : Entry δ) : Bool :=
  entry.assistant?.any (·.stopReason = reason)

/-- `terminalFailure`, of the newest entries first. -/
def terminalFailure (records : List (LaneRecord δ)) (deferredWriteIds : List JsString)
    (newestFirst : List (Entry δ)) : Option (TerminalFailureState δ) := do
  let newest ← newestFirst.head?
  let message ← newest.assistant?.filter (·.stopReason = .error)
  if deferredWriteIds.contains newest.id then none
  else
    let producedByStep := (stepAttempts records).any (·.2.resultEntryId = newest.id)
    let producedByDeferredFetch := fetchedEntry records newest.id
      || newestFirst.tail.head?.any (stoppedFor .deferred)
    if producedByStep || producedByDeferredFetch then some ⟨newest.id, producedByStep, message⟩
    else none

/-- `started.id` to `terminalFailure`: the state of the open operation. -/
def operationState (entriesById : Lookup δ) (records : List (LaneRecord δ))
    (ownEntries : List (Entry δ)) (started : OperationStarted δ) : OperationState δ :=
  let own := operationRecords started.id records
  let aborting := own.any LaneRecord.isAbort
  let pending (queue : Queue) := if aborting then [] else
    ((pendingQueue entriesById records).filter fun q =>
      q.queue = queue && q.runId = some started.id).map (·.target)
  let attempts := stepAttempts own
  let deferredWriteIds := (deferredWrites own).map (·.id)
  { id := started.id
    intent := started.intent
    aborting := aborting
    step := openStep entriesById attempts
    toolBatch := deriveToolBatch started.id own ownEntries entriesById deferredWriteIds
    missingInitialMessages :=
      started.intent.initialMessages.filter fun target => (entriesById target.id).isNone
    pendingSteer := pending .steer
    pendingFollowUp := pending .followUp
    pendingWrites := (deferredWrites own).filter fun target => (entriesById target.id).isNone
    deferred := (ownEntries.getLast?.bind Entry.assistant?).bind fun message =>
      if message.stopReason = .deferred then message.deferred else none
    overflowRecoveryUsed := overflowUsed (newestConsumed entriesById started.intent own) attempts
    newestOwn := ownEntries.getLast?.map deriveNewestOwn
    targets := targetsOf entriesById started.intent }

/-- What is computed behind the validation. -/
def reduced (entriesById : Lookup δ) (records : List (LaneRecord δ)) (ownEntries : List (Entry δ))
    (lane : JsString) (leafId : Option JsString) (started : Option (OperationStarted δ))
    (configuration : EffectiveLaneConfiguration) : LaneReductionResult δ :=
  let captured := started.elim [] fun started => started.intent.initialMessages.map (·.id)
  let pendingNextRun := ((pendingQueue entriesById records).filter fun q =>
    q.queue = .nextRun && !captured.contains q.target.id).map (·.target)
  { laneState :=
      { lane := lane
        leafId := leafId
        operation := started.map (operationState entriesById records ownEntries)
        pendingNextRun := pendingNextRun }
    effectiveConfiguration := configuration
    terminalFailure := started.bind fun started =>
      let own := operationRecords started.id records
      terminalFailure own ((deferredWrites own).map (·.id)) ownEntries.reverse }

/-- `reduceLaneState` -/
def reduceLaneState (input : LaneReductionInput δ) :
    Except RecordLogCorruption (LaneReductionResult δ) := do
  let _ ← validateRecordLog input.lane input.openOperations input.records input.entries
  let ownEntries := bySequence Entry.seq input.ownEntries
  let entriesById := JsMap.index Entry.id (input.entries ++ ownEntries)
  return reduced entriesById.get? (bySequence LaneRecord.seq input.records) ownEntries input.lane
    input.leafId input.openOperations.head? (deriveEffectiveConfiguration input)

end Reduction

end PiMono.Harness.Lane
