import Mathlib.Data.List.Basic

/-!
# The tool calls of an assistant message

`executeToolCalls` and `failToolCallsFromTruncatedMessage` of `packages/agent/src/agent-loop.ts`.
A `Batch` is what is left of them. It emits at most one event a step, and its delivery to the
listeners is part of the step. The place of a call in its message, and what is said of places
(`executed`, `refused`, `trace`), is kept beside the code's own state.

Texts stand for arguments and for the parts of a content; details, usage and added tool names
of results are left out.
-/

namespace PiMono.Agent

/-! ## Messages and events -/

/-- A tool call block of an assistant message. -/
structure AgentToolCall where
  id : String
  name : String
  arguments : String
  deriving DecidableEq

inductive StopReason where
  | stop
  | length
  | toolUse
  | error
  | aborted
  deriving DecidableEq

inductive AssistantContent where
  | text (text : String)
  | thinking (thinking : String)
  | toolCall (call : AgentToolCall)
  deriving DecidableEq

structure AssistantMessage where
  content : List AssistantContent
  stopReason : StopReason
  errorMessage : Option String
  deriving DecidableEq

/-- `message.content.filter((c) => c.type === "toolCall")` -/
def AssistantMessage.toolCalls (message : AssistantMessage) : List AgentToolCall :=
  message.content.filterMap fun
    | .toolCall call => some call
    | _ => none

structure ToolResultMessage where
  toolCallId : String
  toolName : String
  content : List String
  isError : Bool
  deriving DecidableEq

/-- Who passed a message. -/
inductive Origin where
  | prompt
  | steering
  | followUp
  deriving DecidableEq

/-- `AgentMessage`; `user` is any message that is passed to the agent. -/
inductive AgentMessage (μ : Type) where
  | user (origin : Origin) (message : μ)
  | assistant (message : AssistantMessage)
  | toolResult (message : ToolResultMessage)
  deriving DecidableEq

structure AgentToolResult where
  content : Option (List String)
  terminate : Option Bool
  deriving DecidableEq

inductive ToolExecutionMode where
  | sequential
  | parallel
  deriving DecidableEq

structure AgentTool where
  name : String
  executionMode : Option ToolExecutionMode
  deriving DecidableEq

/-- `AgentContext` -/
structure AgentContext (μ : Type) where
  messages : List (AgentMessage μ)
  tools : List AgentTool
  deriving DecidableEq

/-- `AgentEvent`, with the places of tool calls. -/
inductive AgentEvent (μ : Type) where
  | agentStart
  | agentEnd (messages : List (AgentMessage μ))
  | turnStart
  | turnEnd (message : AssistantMessage) (toolResults : List ToolResultMessage)
  | messageStart (message : AgentMessage μ)
  | messageUpdate (message : AssistantMessage)
  | messageEnd (message : AgentMessage μ)
  | toolExecutionStart (place : Nat) (toolCall : AgentToolCall)
  | toolExecutionUpdate (place : Nat) (toolCall : AgentToolCall) (partialResult : AgentToolResult)
  | toolExecutionEnd (place : Nat) (toolCall : AgentToolCall) (result : AgentToolResult)
      (isError : Bool)
  deriving DecidableEq

/-! ## One tool call -/

structure FinalizedToolCallOutcome where
  toolCall : AgentToolCall
  result : AgentToolResult
  isError : Bool
  deriving DecidableEq

structure ExecutedToolCallOutcome where
  result : AgentToolResult
  isError : Bool
  deriving DecidableEq

/-- `createErrorToolResult` -/
def createErrorToolResult (message : String) : AgentToolResult := ⟨some [message], none⟩

/-- `createToolResultMessage` -/
def createToolResultMessage (finalized : FinalizedToolCallOutcome) : ToolResultMessage :=
  ⟨finalized.toolCall.id, finalized.toolCall.name, finalized.result.content.getD [],
    finalized.isError⟩

/-- `emitToolExecutionEnd` -/
def toolExecutionEndEvent {μ : Type} (place : Nat) (finalized : FinalizedToolCallOutcome) :
    AgentEvent μ :=
  .toolExecutionEnd place finalized.toolCall finalized.result finalized.isError

/-- What `failToolCallsFromTruncatedMessage` makes of a call. -/
def truncatedOutcome (toolCall : AgentToolCall) : FinalizedToolCallOutcome :=
  ⟨toolCall, createErrorToolResult ("Tool call \"" ++ toolCall.name ++
    "\" was not executed: the response hit the output token limit, " ++
    "so its arguments may be truncated. Re-issue the tool call with complete arguments."), true⟩

/-- `BeforeToolCallResult` with `block` -/
structure BeforeToolCallResult where
  reason : Option String
  terminate : Bool
  deriving DecidableEq

/-- What `prepareArguments`, the validation and `beforeToolCall` answer. -/
inductive PrepareAnswer where
  | throws (message : String)
  | returns (block : Option BeforeToolCallResult)
  deriving DecidableEq

/-- `prepareToolCall`: an outcome, or `none` where the tool is to be executed. -/
def prepareToolCall (tools : List AgentTool) (aborted : Bool) (toolCall : AgentToolCall)
    (answer : PrepareAnswer) : Option FinalizedToolCallOutcome :=
  if tools.any (·.name = toolCall.name) then
    match answer with
    | .throws message => some ⟨toolCall, createErrorToolResult message, true⟩
    | .returns block =>
      if aborted then some ⟨toolCall, createErrorToolResult "Operation aborted", true⟩
      else
        block.map fun blocked =>
          let reason := (blocked.reason.filter (· ≠ "")).getD "Tool execution was blocked"
          ⟨toolCall, { createErrorToolResult reason with
            terminate := if blocked.terminate then some true else none }, true⟩
  else some ⟨toolCall, createErrorToolResult ("Tool " ++ toolCall.name ++ " not found"), true⟩

/-- `AfterToolCallResult` -/
structure AfterToolCallResult where
  content : Option (List String)
  terminate : Option Bool
  isError : Option Bool
  deriving DecidableEq

/-- `finalizeExecutedToolCall`; the hook returns nothing where there is none. -/
def finalizeExecutedToolCall (toolCall : AgentToolCall) (executed : ExecutedToolCallOutcome)
    (answer : Except String (Option AfterToolCallResult)) : FinalizedToolCallOutcome :=
  match answer with
  | .error message => ⟨toolCall, createErrorToolResult message, true⟩
  | .ok none => ⟨toolCall, executed.result, executed.isError⟩
  | .ok (some after) =>
    ⟨toolCall, ⟨after.content <|> executed.result.content,
      after.terminate <|> executed.result.terminate⟩, after.isError.getD executed.isError⟩

inductive TaskStage where
  -- the function that `Promise.all` calls
  | waiting
  | executing
  -- `execute` is settled
  | settled (executed : ExecutedToolCallOutcome)
  | done (finalized : FinalizedToolCallOutcome)
  | rejected
  deriving DecidableEq

/-- `executePreparedToolCall` and what follows it, for one call. -/
structure Task where
  toolCall : AgentToolCall
  stage : TaskStage
  -- why the delivery of an update was rejected
  updateFailed : Option String
  deriving DecidableEq

inductive TaskAction where
  | update (partialResult : AgentToolResult) (throws : Option String)
  | settle (answer : Except String AgentToolResult)
  | finalize (answer : Except String (Option AfterToolCallResult))
  -- `Promise.all(updateEvents)` is rejected
  | reject
  deriving DecidableEq

/-- `execute` has returned or thrown. -/
def executedOutcome (answer : Except String AgentToolResult) : ExecutedToolCallOutcome :=
  match answer with
  | .ok result => ⟨result, false⟩
  | .error message => ⟨createErrorToolResult message, true⟩

def Task.step {μ : Type} (t : Task) (place : Nat) (a : TaskAction) :
    Option (Task × Option (AgentEvent μ)) :=
  match t.stage, a with
  | .executing, .update partialResult throws =>
    some ({ t with updateFailed := t.updateFailed <|> throws },
      some (.toolExecutionUpdate place t.toolCall partialResult))
  | .executing, .settle answer => some ({ t with stage := .settled (executedOutcome answer) }, none)
  | .settled executed, .finalize answer =>
    if t.updateFailed.isSome then none
    else
      let finalized := finalizeExecutedToolCall t.toolCall executed answer
      some ({ t with stage := .done finalized }, some (toolExecutionEndEvent place finalized))
  | .settled _, .reject =>
    if t.updateFailed.isSome then some ({ t with stage := .rejected }, none) else none
  | _, _ => none

/-- The task has begun and can still emit. -/
def Task.live (t : Task) : Bool :=
  match t.stage with
  | .executing | .settled _ => true
  | _ => false

/-! ## All of them -/

/-- `FinalizedToolCallEntry` -/
inductive Entry where
  | finalized (outcome : FinalizedToolCallOutcome)
  | deferred (task : Task)
  deriving DecidableEq

namespace Entry

def outcome? (e : Entry) : Option FinalizedToolCallOutcome :=
  match e with
  | .finalized outcome => some outcome
  | .deferred ⟨_, .done outcome, _⟩ => some outcome
  | .deferred _ => none

/-- `entry()` -/
def start (e : Entry) : Entry :=
  match e with
  | .finalized outcome => .finalized outcome
  | .deferred task => .deferred { task with stage := .executing }

def isDeferred (e : Entry) : Bool :=
  match e with
  | .finalized _ => false
  | .deferred _ => true

def liveTask? (e : Entry) : Option Task :=
  match e with
  | .finalized _ => none
  | .deferred task => if task.live then some task else none

end Entry

/-- The function that handles the calls. -/
inductive BatchMode where
  | truncated
  | sequential
  | parallel
  deriving DecidableEq

inductive Stage where
  -- the head of the loop over the calls
  | calling
  -- `prepareToolCall`
  | preparing (toolCall : AgentToolCall)
  | running (task : Task)
  -- in front of `emitToolExecutionEnd`
  | finalized (outcome : FinalizedToolCallOutcome)
  -- `emitToolResultMessage`
  | resultStart (outcome : FinalizedToolCallOutcome)
  | resultEnd (outcome : FinalizedToolCallOutcome)
  -- `if (signal?.aborted) break`
  | checking
  -- `Promise.all`
  | joining
  -- the loop over `orderedFinalizedCalls`
  | reporting (rest : List FinalizedToolCallOutcome)
  | reported (outcome : FinalizedToolCallOutcome) (rest : List FinalizedToolCallOutcome)
  | finished
  deriving DecidableEq

structure Batch where
  calls : List AgentToolCall
  mode : BatchMode
  stage : Stage
  -- `finalizedCalls`
  entries : List Entry
  -- `messages`
  results : List ToolResultMessage
  -- the calls whose tool's `execute` was called, and those without a prepared call
  executed : List Nat
  refused : List Nat
  deriving DecidableEq

inductive BatchAction where
  -- the code goes on behind an await that it does not share
  | advance
  | prepared (answer : PrepareAnswer)
  | task (place : Nat) (a : TaskAction)
  deriving DecidableEq

namespace Batch

variable {μ : Type}

/-- `executeToolCalls`, and the other function for a truncated message. -/
def new (message : AssistantMessage) (tools : List AgentTool) (toolExecution : ToolExecutionMode) :
    Batch :=
  let calls := message.toolCalls
  let hasSequentialToolCall := calls.any fun call =>
    (tools.find? (·.name = call.name)).any (·.executionMode = some .sequential)
  let mode :=
    if message.stopReason = .length then .truncated
    else if toolExecution = .sequential ∨ hasSequentialToolCall then .sequential
    else .parallel
  ⟨calls, mode, .calling, [], [], [], []⟩

variable (b : Batch)

/-- The place of the call at hand. -/
def place : Nat := b.entries.length

def outcomes : List FinalizedToolCallOutcome := b.entries.filterMap (·.outcome?)

/-- `shouldTerminateToolBatch` -/
def terminate : Bool :=
  match b.mode with
  | .truncated => false
  | _ => !b.outcomes.isEmpty && b.outcomes.all (·.result.terminate = some true)

/-- The loop over the calls is left. -/
def leaveLoop : Batch :=
  match b.mode with
  | .parallel =>
    { b with
      stage := .joining
      entries := b.entries.map (·.start)
      executed := b.executed ++
        (List.range b.entries.length).filter fun k => (b.entries[k]?).any (·.isDeferred) }
  | _ => { b with stage := .finished }

def pushEntry (entry : Entry) (stage : Stage) : Batch :=
  { b with entries := b.entries ++ [entry], stage := stage }

def pushResult (outcome : FinalizedToolCallOutcome) : Batch :=
  { b with results := b.results ++ [createToolResultMessage outcome] }

/-- The code of the loops. -/
def advance (aborted : Bool) : Option (Batch × Option (AgentEvent μ)) :=
  match b.stage with
  | .calling =>
    match b.calls[b.place]? with
    | some call =>
      let stage := if b.mode = .truncated then .finalized (truncatedOutcome call)
        else .preparing call
      some ({ b with stage := stage }, some (.toolExecutionStart b.place call))
    | none => some (b.leaveLoop, none)
  | .finalized outcome =>
    let b' := if b.mode = .parallel then b.pushEntry (.finalized outcome) .checking
      else { b with stage := .resultStart outcome }
    some (b', some (toolExecutionEndEvent b.place outcome))
  | .resultStart outcome =>
    some ({ b with stage := .resultEnd outcome },
      some (.messageStart (.toolResult (createToolResultMessage outcome))))
  | .resultEnd outcome =>
    let stage := if b.mode = .truncated then .calling else .checking
    some ((b.pushResult outcome).pushEntry (.finalized outcome) stage,
      some (.messageEnd (.toolResult (createToolResultMessage outcome))))
  | .checking => some (if aborted then b.leaveLoop else { b with stage := .calling }, none)
  | .joining =>
    if b.entries.all (·.outcome?.isSome) then some ({ b with stage := .reporting b.outcomes }, none)
    else none
  | .reporting [] => some ({ b with stage := .finished }, none)
  | .reporting (outcome :: rest) =>
    some ({ b with stage := .reported outcome rest },
      some (.messageStart (.toolResult (createToolResultMessage outcome))))
  | .reported outcome rest =>
    some ({ b.pushResult outcome with stage := .reporting rest },
      some (.messageEnd (.toolResult (createToolResultMessage outcome))))
  | .preparing _ | .running _ | .finished => none

/-- `prepareToolCall` is settled. -/
def prepared (tools : List AgentTool) (aborted : Bool) (answer : PrepareAnswer) :
    Option Batch :=
  match b.stage with
  | .preparing call =>
    match prepareToolCall tools aborted call answer with
    | some outcome =>
      some { b with stage := .finalized outcome, refused := b.refused ++ [b.place] }
    | none =>
      if b.mode = .parallel then some (b.pushEntry (.deferred ⟨call, .waiting, none⟩) .checking)
      else some { b with
        stage := .running ⟨call, .executing, none⟩
        executed := b.executed ++ [b.place] }
  | _ => none

/-- A task goes on. -/
def stepTask (place : Nat) (a : TaskAction) : Option (Batch × Option (AgentEvent μ)) :=
  match b.stage with
  | .running task =>
    if place = b.place then
      (task.step place a).map fun (task', event) =>
        ({ b with stage := match task'.stage with
          | .done outcome => .resultStart outcome
          | _ => .running task' }, event)
    else none
  | .joining =>
    match b.entries[place]? with
    | some (.deferred task) =>
      (task.step place a).map fun (task', event) =>
        ({ b with entries := b.entries.set place (.deferred task') }, event)
    | _ => none
  | _ => none

def step (tools : List AgentTool) (aborted : Bool) (a : BatchAction) :
    Option (Batch × Option (AgentEvent μ)) :=
  match a with
  | .advance => b.advance aborted
  | .prepared answer => (b.prepared tools aborted answer).map (·, none)
  | .task place a => b.stepTask place a

/-- The tasks that go on when the batch is given up, with their places. -/
def orphans : List (Nat × Task) :=
  if b.stage = .joining then
    b.entries.zipIdx.filterMap fun (entry, place) => entry.liveTask?.map (place, ·)
  else []

end Batch

/-! ## What a step does -/

section Moves

variable {μ : Type}

/-- The steps of a task. -/
inductive Task.Moves (t : Task) (place : Nat) : Task → Option (AgentEvent μ) → Prop where
  | update (partialResult : AgentToolResult) (throws : Option String)
    (stage : t.stage = .executing) :
    Moves t place { t with updateFailed := t.updateFailed <|> throws }
      (some (.toolExecutionUpdate place t.toolCall partialResult))
  | settle (executed : ExecutedToolCallOutcome) (stage : t.stage = .executing) :
    Moves t place { t with stage := .settled executed } none
  | finalize {executed : ExecutedToolCallOutcome} {outcome : FinalizedToolCallOutcome}
    (stage : t.stage = .settled executed) (toolCall : outcome.toolCall = t.toolCall) :
    Moves t place { t with stage := .done outcome } (some (toolExecutionEndEvent place outcome))
  | reject {executed : ExecutedToolCallOutcome} (stage : t.stage = .settled executed) :
    Moves t place { t with stage := .rejected } none

theorem finalizeExecutedToolCall_toolCall (toolCall : AgentToolCall)
    (executed : ExecutedToolCallOutcome) (answer : Except String (Option AfterToolCallResult)) :
    (finalizeExecutedToolCall toolCall executed answer).toolCall = toolCall := by
  cases answer with
  | error message => rfl
  | ok after => cases after <;> rfl

theorem Task.moves_of_step {t t' : Task} {place : Nat} {a : TaskAction}
    {event : Option (AgentEvent μ)} (hstep : t.step place a = some (t', event)) :
    t.Moves place t' event := by
  cases hstage : t.stage <;> cases a <;> simp only [Task.step, hstage, reduceCtorEq] at hstep
  case executing.update partialResult throws =>
    cases hstep
    rw [← hstage]
    exact .update partialResult throws hstage
  case executing.settle answer =>
    cases hstep
    exact .settle _ hstage
  case settled.finalize executed answer =>
    split at hstep
    · cases hstep
    · cases hstep
      exact .finalize hstage (finalizeExecutedToolCall_toolCall ..)
  case settled.reject executed =>
    split at hstep
    · cases hstep
      exact .reject hstage
    · cases hstep

theorem prepareToolCall_toolCall {tools : List AgentTool} {aborted : Bool} {call : AgentToolCall}
    {answer : PrepareAnswer} {outcome : FinalizedToolCallOutcome}
    (h : prepareToolCall tools aborted call answer = some outcome) : outcome.toolCall = call := by
  unfold prepareToolCall at h
  split at h
  · cases answer with
    | throws message =>
      cases h
      rfl
    | returns block =>
      dsimp only at h
      split at h
      · cases h
        rfl
      · obtain ⟨blocked, -, rfl⟩ := Option.map_eq_some_iff.mp h
        rfl
  · cases h
    rfl

/-- The steps of a batch. -/
inductive Batch.Moves (b : Batch) (aborted : Bool) : Batch → Option (AgentEvent μ) → Prop where
  | callTruncated {call : AgentToolCall} (stage : b.stage = .calling)
    (found : b.calls[b.place]? = some call) (mode : b.mode = .truncated) :
    Moves b aborted { b with stage := .finalized (truncatedOutcome call) }
      (some (.toolExecutionStart b.place call))
  | call {call : AgentToolCall} (stage : b.stage = .calling)
    (found : b.calls[b.place]? = some call) (mode : b.mode ≠ .truncated) :
    Moves b aborted { b with stage := .preparing call } (some (.toolExecutionStart b.place call))
  | callsEnd (stage : b.stage = .calling) (found : b.calls[b.place]? = none) :
    Moves b aborted b.leaveLoop none
  | refuse {call : AgentToolCall} {outcome : FinalizedToolCallOutcome}
    (stage : b.stage = .preparing call) (toolCall : outcome.toolCall = call) :
    Moves b aborted { b with stage := .finalized outcome, refused := b.refused ++ [b.place] } none
  | defer {call : AgentToolCall} (stage : b.stage = .preparing call) (mode : b.mode = .parallel) :
    Moves b aborted (b.pushEntry (.deferred ⟨call, .waiting, none⟩) .checking) none
  | run {call : AgentToolCall} (stage : b.stage = .preparing call) (mode : b.mode ≠ .parallel) :
    Moves b aborted { b with
      stage := .running ⟨call, .executing, none⟩, executed := b.executed ++ [b.place] } none
  | runTask {task task' : Task} {event : Option (AgentEvent μ)} (stage : b.stage = .running task)
    (moves : task.Moves b.place task' event) (goesOn : ∀ outcome, task'.stage ≠ .done outcome) :
    Moves b aborted { b with stage := .running task' } event
  | runDone {task task' : Task} {event : Option (AgentEvent μ)}
    {outcome : FinalizedToolCallOutcome} (stage : b.stage = .running task)
    (moves : task.Moves b.place task' event) (done : task'.stage = .done outcome) :
    Moves b aborted { b with stage := .resultStart outcome } event
  | endParallel {outcome : FinalizedToolCallOutcome} (stage : b.stage = .finalized outcome)
    (mode : b.mode = .parallel) :
    Moves b aborted (b.pushEntry (.finalized outcome) .checking)
      (some (toolExecutionEndEvent b.place outcome))
  | endSequential {outcome : FinalizedToolCallOutcome} (stage : b.stage = .finalized outcome)
    (mode : b.mode ≠ .parallel) :
    Moves b aborted { b with stage := .resultStart outcome }
      (some (toolExecutionEndEvent b.place outcome))
  | resultStart {outcome : FinalizedToolCallOutcome} (stage : b.stage = .resultStart outcome) :
    Moves b aborted { b with stage := .resultEnd outcome }
      (some (.messageStart (.toolResult (createToolResultMessage outcome))))
  | resultEnd {outcome : FinalizedToolCallOutcome} (stage : b.stage = .resultEnd outcome) :
    Moves b aborted ((b.pushResult outcome).pushEntry (.finalized outcome)
      (if b.mode = .truncated then .calling else .checking))
      (some (.messageEnd (.toolResult (createToolResultMessage outcome))))
  | abort (stage : b.stage = .checking) (aborts : aborted = true) : Moves b aborted b.leaveLoop none
  | next (stage : b.stage = .checking) : Moves b aborted { b with stage := .calling } none
  | joinTask {place : Nat} {task task' : Task} {event : Option (AgentEvent μ)}
    (stage : b.stage = .joining) (found : b.entries[place]? = some (.deferred task))
    (moves : task.Moves place task' event) :
    Moves b aborted { b with entries := b.entries.set place (.deferred task') } event
  | joined (stage : b.stage = .joining)
    (all : ∀ entry ∈ b.entries, entry.outcome?.isSome = true) :
    Moves b aborted { b with stage := .reporting b.outcomes } none
  | reportStart {outcome : FinalizedToolCallOutcome} {rest : List FinalizedToolCallOutcome}
    (stage : b.stage = .reporting (outcome :: rest)) :
    Moves b aborted { b with stage := .reported outcome rest }
      (some (.messageStart (.toolResult (createToolResultMessage outcome))))
  | reportEnd {outcome : FinalizedToolCallOutcome} {rest : List FinalizedToolCallOutcome}
    (stage : b.stage = .reported outcome rest) :
    Moves b aborted { b.pushResult outcome with stage := .reporting rest }
      (some (.messageEnd (.toolResult (createToolResultMessage outcome))))
  | reportsEnd (stage : b.stage = .reporting []) :
    Moves b aborted { b with stage := .finished } none

theorem Batch.moves_of_step {b b' : Batch} {tools : List AgentTool} {aborted : Bool}
    {a : BatchAction} {event : Option (AgentEvent μ)}
    (hstep : b.step tools aborted a = some (b', event)) : b.Moves aborted b' event := by
  cases a with
  | advance =>
    simp only [Batch.step, Batch.advance] at hstep
    cases hstage : b.stage <;> simp only [hstage, reduceCtorEq] at hstep
    case calling =>
      cases hfound : b.calls[b.place]? with
      | none =>
        rw [hfound] at hstep
        cases hstep
        exact .callsEnd hstage hfound
      | some call =>
        rw [hfound] at hstep
        by_cases hmode : b.mode = .truncated
        · simp only [hmode, if_true] at hstep
          cases hstep
          rw [← hmode]
          exact .callTruncated hstage hfound hmode
        · simp only [hmode, if_false] at hstep
          cases hstep
          exact .call hstage hfound hmode
    case finalized outcome =>
      by_cases hmode : b.mode = .parallel
      · simp only [hmode, if_true] at hstep
        cases hstep
        exact .endParallel hstage hmode
      · simp only [hmode, if_false] at hstep
        cases hstep
        exact .endSequential hstage hmode
    case resultStart outcome =>
      cases hstep
      exact .resultStart hstage
    case resultEnd outcome =>
      cases hstep
      exact .resultEnd hstage
    case checking =>
      cases aborted with
      | true =>
        cases hstep
        exact .abort hstage rfl
      | false =>
        cases hstep
        exact .next hstage
    case joining =>
      split at hstep
      · rename_i hall
        cases hstep
        exact .joined hstage (List.all_eq_true.mp hall)
      · cases hstep
    case reporting rest =>
      cases rest with
      | nil =>
        cases hstep
        exact .reportsEnd hstage
      | cons outcome rest =>
        cases hstep
        exact .reportStart hstage
    case reported outcome rest =>
      cases hstep
      exact .reportEnd hstage
  | prepared answer =>
    simp only [Batch.step, Batch.prepared] at hstep
    obtain ⟨b'', hprepared, heq⟩ := Option.map_eq_some_iff.mp hstep
    cases heq
    cases hstage : b.stage <;> simp only [hstage, reduceCtorEq] at hprepared
    case preparing call =>
      cases houtcome : prepareToolCall tools aborted call answer with
      | some outcome =>
        rw [houtcome] at hprepared
        cases hprepared
        exact .refuse hstage (prepareToolCall_toolCall houtcome)
      | none =>
        rw [houtcome] at hprepared
        dsimp only at hprepared
        split at hprepared
        · cases hprepared
          exact .defer hstage ‹_›
        · cases hprepared
          exact .run hstage ‹_›
  | task place a =>
    simp only [Batch.step, Batch.stepTask] at hstep
    cases hstage : b.stage <;> simp only [hstage, reduceCtorEq] at hstep
    case running task =>
      split at hstep
      · rename_i hplace
        obtain ⟨⟨task', event'⟩, htask, heq⟩ := Option.map_eq_some_iff.mp hstep
        have hmoves := Task.moves_of_step htask
        rw [hplace] at hmoves
        cases heq
        cases hdone : task'.stage
        case done outcome => exact .runDone hstage hmoves hdone
        all_goals exact .runTask hstage hmoves fun outcome => by rw [hdone]; nofun
      · cases hstep
    case joining =>
      cases hfound : b.entries[place]? with
      | none => rw [hfound] at hstep; cases hstep
      | some entry =>
        rw [hfound] at hstep
        cases entry with
        | finalized => cases hstep
        | deferred task =>
          obtain ⟨⟨task', event'⟩, htask, heq⟩ := Option.map_eq_some_iff.mp hstep
          cases heq
          rw [← hstage]
          exact .joinTask hstage hfound (Task.moves_of_step htask)

end Moves

end PiMono.Agent
