import PiMono.Agent.ToolBatch
import PiMono.Lib.Runs

/-!
# The agent loop

`Agent` of `packages/agent/src/agent.ts` with `runAgentLoop`, `runAgentLoopContinue` and `runLoop`
of `agent-loop.ts`. `Control` is what the active run does next. Emitting an event and its delivery
to the listeners is one step, which may throw; `#go` is the code between two awaits. The context
transform, `convertToLlm`, the API key and the stream function are one step, and the events of a
stream come one by one.

`past`, `log`, `trace`, `initial`, `enqueued`, `foundEmpty` and `thrown` record what has happened.
-/

namespace PiMono.Agent

variable {μ : Type}

/-! ## Queues -/

inductive QueueMode where
  | all
  | oneAtATime
  deriving DecidableEq

structure PendingMessageQueue (μ : Type) where
  messages : List μ
  mode : QueueMode
  deriving DecidableEq

namespace PendingMessageQueue

def enqueue (queue : PendingMessageQueue μ) (message : μ) : PendingMessageQueue μ :=
  { queue with messages := queue.messages ++ [message] }

/-- `drain`: what is drained, and the queue behind it. -/
def drain (queue : PendingMessageQueue μ) : List μ × PendingMessageQueue μ :=
  match queue.mode with
  | .all => (queue.messages, { queue with messages := [] })
  | .oneAtATime => (queue.messages.take 1, { queue with messages := queue.messages.drop 1 })

theorem drain_append (queue : PendingMessageQueue μ) :
    queue.drain.1 ++ queue.drain.2.messages = queue.messages := by
  rw [drain]
  split
  · exact List.append_nil _
  · exact List.take_append_drop 1 _

/-- Nothing is drained from an empty queue only. -/
theorem messages_of_drain_nil {queue : PendingMessageQueue μ} (h : queue.drain.1 = []) :
    queue.messages = [] := by
  rw [drain] at h
  split at h
  · exact h
  · exact (List.take_eq_nil_iff.mp h).resolve_left Nat.one_ne_zero

end PendingMessageQueue

/-! ## The state of an agent -/

/-- Why a run ends. -/
inductive EndReason where
  -- a message with stop reason `error` or `aborted`
  | response
  -- `shouldStopAfterTurn`
  | stopped
  | exhausted
  -- `handleRunFailure`
  | failed
  deriving DecidableEq

/-- What the active run does next; `more` is `hasMoreToolCalls`. -/
inductive Control (μ : Type) where
  | idle
  -- `runAgentLoop`
  | agentStart (prompts : List (AgentMessage μ))
  | firstTurnStart (prompts : List (AgentMessage μ))
  | promptStart (prompts : List (AgentMessage μ))
  | promptEnd (prompt : AgentMessage μ) (prompts : List (AgentMessage μ))
  -- `getSteeringMessages`, and the head of the inner loop
  | polling (more : Bool)
  | looping (more : Bool)
  | turnStart
  -- the loop over `pendingMessages`
  | injecting
  | injected
  -- `streamAssistantResponse`
  | requesting
  | streaming (partialMessage : Option AssistantMessage)
  | responseStart (message : AssistantMessage)
  | responseEnd (message : AssistantMessage)
  | responded (message : AssistantMessage)
  | batch (message : AssistantMessage) (b : Batch)
  | turnEnding (message : AssistantMessage) (b : Option Batch)
  | preparingNextTurn (more : Bool)
  | stopping (more : Bool)
  -- `getFollowUpMessages`
  | followUps
  | agentEnding (reason : EndReason)
  -- the events of `handleRunFailure`
  | failStart (message : AssistantMessage)
  | failEnd (message : AssistantMessage)
  | failTurn (message : AssistantMessage)
  | failAgent (message : AssistantMessage)
  -- in front of `finishRun`
  | finishing (reason : EndReason)
  deriving DecidableEq

structure State (μ : Type) where
  messages : List (AgentMessage μ)
  streamingMessage : Option (AgentMessage μ)
  pendingToolCalls : List String
  errorMessage : Option String
  tools : List AgentTool
  toolExecution : ToolExecutionMode
  steeringQueue : PendingMessageQueue μ
  followUpQueue : PendingMessageQueue μ
  -- the active run
  control : Control μ
  context : AgentContext μ
  newMessages : List (AgentMessage μ)
  pendingMessages : List (AgentMessage μ)
  firstTurn : Bool
  skipInitialSteeringPoll : Bool
  aborted : Bool
  -- tasks of batches that were given up
  orphans : List (Nat × Task)
  -- the events of earlier runs, and those of the last one
  past : List (AgentEvent μ)
  log : List (AgentEvent μ)
  -- the events of the last batch of tool calls
  trace : List (AgentEvent μ)
  -- the messages in front of the last run
  initial : List (AgentMessage μ)
  -- what was enqueued, and whether the last drain found the queue empty
  enqueued : Origin → List μ
  foundEmpty : Origin → Bool
  thrown : Bool

/-- An agent that has not been used. -/
def State.new (messages : List (AgentMessage μ)) (tools : List AgentTool)
    (toolExecution : ToolExecutionMode) (steeringMode followUpMode : QueueMode) : State μ where
  messages := messages
  streamingMessage := none
  pendingToolCalls := []
  errorMessage := none
  tools := tools
  toolExecution := toolExecution
  steeringQueue := ⟨[], steeringMode⟩
  followUpQueue := ⟨[], followUpMode⟩
  control := .idle
  context := ⟨messages, tools⟩
  newMessages := []
  pendingMessages := []
  firstTurn := true
  skipInitialSteeringPoll := false
  aborted := false
  orphans := []
  past := []
  log := []
  trace := []
  initial := messages
  enqueued _ := []
  foundEmpty _ := false
  thrown := false

inductive Action (μ : Type) where
  | prompt (messages : List μ)
  | continue_
  | steer (message : μ)
  | followUp (message : μ)
  | steeringMode (mode : QueueMode)
  | followUpMode (mode : QueueMode)
  | abort
  -- an event is emitted, and delivered to the listeners
  | emit (throws : Option String)
  -- the code between two awaits
  | go
  -- the stream function has returned
  | requested
  | streamStart (message : AssistantMessage) (throws : Option String)
  | streamUpdate (message : AssistantMessage) (throws : Option String)
  | streamDone (message : AssistantMessage)
  | nextTurn (context : Option (AgentContext μ))
  | shouldStop (stop : Bool)
  -- a hook, the stream function or the stream throws
  | hookThrows (error : String)
  | batch (a : BatchAction) (throws : Option String)
  | orphan (i : Nat) (a : TaskAction) (throws : Option String)
  deriving DecidableEq

namespace State

variable (s : State μ)

/-- `activeRun` -/
def active : Bool :=
  match s.control with
  | .idle => false
  | _ => true

/-! ## Events -/

/-- `processEvents`, in front of the listeners. -/
def reduce (event : AgentEvent μ) : State μ :=
  match event with
  | .messageStart message => { s with streamingMessage := some message }
  | .messageUpdate message => { s with streamingMessage := some (.assistant message) }
  | .messageEnd message =>
    { s with streamingMessage := none, messages := s.messages ++ [message] }
  | .toolExecutionStart _ call =>
    { s with pendingToolCalls :=
        if call.id ∈ s.pendingToolCalls then s.pendingToolCalls
        else s.pendingToolCalls ++ [call.id] }
  | .toolExecutionEnd _ call _ _ =>
    { s with pendingToolCalls := s.pendingToolCalls.filter (· ≠ call.id) }
  | .turnEnd message _ =>
    { s with errorMessage := (message.errorMessage.filter (· ≠ "")) <|> s.errorMessage }
  | .agentEnd _ => { s with streamingMessage := none }
  | _ => s

/-- An event is emitted in the active run. -/
def emitted (event : AgentEvent μ) : State μ :=
  { s.reduce event with log := s.log ++ [event] }

/-- `handleRunFailure`; where it throws itself, `finishRun` is next. -/
def fail (error : String) : State μ :=
  match s.control with
  | .failStart _ | .failEnd _ | .failTurn _ | .failAgent _ =>
    { s with control := .finishing .failed, thrown := true }
  | control =>
    { s with
      control := .failStart
        ⟨[.text ""], if s.aborted then .aborted else .error, some error⟩
      orphans := s.orphans ++ match control with
        | .batch _ b => b.orphans
        | _ => []
      thrown := true }

/-- The run goes on behind an event, unless a listener has thrown. -/
def delivered (control : Control μ) (throws : Option String) : State μ :=
  match throws with
  | none => { s with control := control }
  | some error => s.fail error

/-! ## Runs -/

/-- `runWithLifecycle`, up to the first event. -/
def start (prompts : List (AgentMessage μ)) (skipInitialSteeringPoll : Bool) : State μ :=
  { s with
    streamingMessage := none
    errorMessage := none
    control := .agentStart prompts
    context := ⟨s.messages ++ prompts, s.tools⟩
    newMessages := prompts
    pendingMessages := []
    firstTurn := true
    skipInitialSteeringPoll := skipInitialSteeringPoll
    aborted := false
    past := s.past ++ s.log
    log := []
    initial := s.messages
    foundEmpty := fun _ => false
    thrown := false }

/-- `steeringQueue.drain()` -/
def drainSteering : List (AgentMessage μ) × State μ :=
  let (drained, queue) := s.steeringQueue.drain
  (drained.map (.user .steering), { s with
    steeringQueue := queue
    foundEmpty := fun o =>
      if o = .steering then s.steeringQueue.messages.isEmpty else s.foundEmpty o })

/-- `followUpQueue.drain()` -/
def drainFollowUps : List (AgentMessage μ) × State μ :=
  let (drained, queue) := s.followUpQueue.drain
  (drained.map (.user .followUp), { s with
    followUpQueue := queue
    foundEmpty := fun o =>
      if o = .followUp then s.followUpQueue.messages.isEmpty else s.foundEmpty o })

/-- `prompt` -/
def prompt (messages : List μ) : Option (State μ) :=
  match s.control with
  | .idle => some (s.start (messages.map (.user .prompt)) false)
  | _ => none

/-- `continue` -/
def continue_ : Option (State μ) :=
  match s.control with
  | .idle =>
    match s.messages.getLast? with
    | none => none
    | some (.assistant _) =>
      match s.drainSteering with
      | (queuedSteering, t) =>
        if queuedSteering ≠ [] then some (t.start queuedSteering true)
        else
          match t.drainFollowUps with
          | (queuedFollowUps, u) =>
            if queuedFollowUps ≠ [] then some (u.start queuedFollowUps false) else none
    | some _ => some (s.start [] false)
  | _ => none

/-- The event that is emitted next, the state in which it is, and what is next behind it. -/
def emission : Option (AgentEvent μ × State μ × Control μ) :=
  match s.control with
  | .agentStart prompts => some (.agentStart, s, .firstTurnStart prompts)
  | .firstTurnStart prompts => some (.turnStart, s, .promptStart prompts)
  | .promptStart prompts =>
    match prompts with
    | prompt :: prompts => some (.messageStart prompt, s, .promptEnd prompt prompts)
    | [] => none
  | .promptEnd prompt prompts => some (.messageEnd prompt, s, .promptStart prompts)
  | .turnStart => some (.turnStart, s, .injecting)
  | .injecting =>
    match s.pendingMessages with
    | message :: _ => some (.messageStart message, s, .injected)
    | [] => none
  | .injected =>
    match s.pendingMessages with
    | message :: pendingMessages =>
      some (.messageEnd message, { s with
        context := { s.context with messages := s.context.messages ++ [message] }
        newMessages := s.newMessages ++ [message]
        pendingMessages := pendingMessages }, .injecting)
    | [] => none
  | .responseStart message =>
    some (.messageStart (.assistant message), s, .responseEnd message)
  | .responseEnd message => some (.messageEnd (.assistant message), s, .responded message)
  | .turnEnding message b =>
    some (.turnEnd message (b.elim [] (·.results)), s,
      if message.stopReason = .error ∨ message.stopReason = .aborted then .agentEnding .response
      else .preparingNextTurn (b.elim false (!·.terminate)))
  | .agentEnding reason => some (.agentEnd s.newMessages, s, .finishing reason)
  | .failStart message => some (.messageStart (.assistant message), s, .failEnd message)
  | .failEnd message => some (.messageEnd (.assistant message), s, .failTurn message)
  | .failTurn message => some (.turnEnd message [], s, .failAgent message)
  | .failAgent message => some (.agentEnd [.assistant message], s, .finishing .failed)
  | _ => none

def emit (throws : Option String) : Option (State μ) :=
  s.emission.map fun (event, t, control) => (t.emitted event).delivered control throws

/-- The code between two awaits, where it emits nothing. -/
def go : Option (State μ) :=
  match s.control with
  | .promptStart prompts =>
    match prompts with
    | [] => some { s with control := .polling true }
    | _ => none
  | .polling more =>
    if s.skipInitialSteeringPoll then
      some { s with
        skipInitialSteeringPoll := false
        pendingMessages := []
        control := .looping more }
    else
      match s.drainSteering with
      | (drained, t) => some { t with pendingMessages := drained, control := .looping more }
  | .looping more =>
    if more ∨ s.pendingMessages ≠ [] then
      if s.firstTurn then some { s with firstTurn := false, control := .injecting }
      else some { s with control := .turnStart }
    else some { s with control := .followUps }
  | .injecting =>
    match s.pendingMessages with
    | [] => some { s with control := .requesting }
    | _ => none
  | .responded message =>
    let t := { s with
      newMessages := s.newMessages ++ [AgentMessage.assistant message]
      trace := [] }
    if message.stopReason = .error ∨ message.stopReason = .aborted ∨ message.toolCalls = [] then
      some { t with control := .turnEnding message none }
    else some { t with control := .batch message (.new message s.context.tools s.toolExecution) }
  | .batch message b =>
    match b.stage with
    | .finished =>
      let results := b.results.map AgentMessage.toolResult
      some { s with
        context := { s.context with messages := s.context.messages ++ results }
        newMessages := s.newMessages ++ results
        control := .turnEnding message (some b) }
    | _ => none
  | .followUps =>
    match s.drainFollowUps with
    | (drained, t) =>
      if drained ≠ [] then some { t with pendingMessages := drained, control := .looping true }
      else some { t with control := .agentEnding .exhausted }
  | .finishing _ =>
    some { s with streamingMessage := none, pendingToolCalls := [], control := .idle }
  | _ => none

/-! ## Responses -/

/-- `context.messages.push(...)`, or the assignment to the last message where one was added. -/
def setResponse (added : Bool) (message : AssistantMessage) : State μ :=
  let front := if added then s.context.messages.dropLast else s.context.messages
  { s with context := { s.context with messages := front ++ [.assistant message] } }

/-- The event `start` of a stream; a stream has one at most. -/
def streamStart (message : AssistantMessage) (throws : Option String) : Option (State μ) :=
  match s.control with
  | .streaming none =>
    some (((s.setResponse false message).emitted (.messageStart (.assistant message))).delivered
      (.streaming (some message)) throws)
  | _ => none

/-- An event between `start` and the end of a stream. -/
def streamUpdate (message : AssistantMessage) (throws : Option String) : Option (State μ) :=
  match s.control with
  | .streaming (some _) =>
    some (((s.setResponse true message).emitted (.messageUpdate message)).delivered
      (.streaming (some message)) throws)
  | _ => none

/-- The end of a stream, and its result. -/
def streamDone (message : AssistantMessage) : Option (State μ) :=
  match s.control with
  | .streaming none => some { s.setResponse false message with control := .responseStart message }
  | .streaming (some _) =>
    some { s.setResponse true message with control := .responseEnd message }
  | _ => none

/-! ## Batches -/

/-- What the promise of a task is rejected with, or a listener of an awaited delivery throws. -/
def rejection (b : Batch) (a : BatchAction) (event : Option (AgentEvent μ))
    (throws : Option String) : Option String :=
  match a with
  | .task place .reject =>
    match b.stage with
    | .running task => task.updateFailed
    | _ => (b.entries[place]?).bind fun
      | .deferred task => task.updateFailed
      | .finalized _ => none
  | .task _ (.update ..) => none
  | _ => event.bind fun _ => throws

def batch (a : BatchAction) (throws : Option String) : Option (State μ) :=
  match s.control with
  | .batch message b =>
    (b.step s.context.tools s.aborted a).map fun (b', event) =>
      let t := { event.elim s s.emitted with
        control := .batch message b'
        trace := s.trace ++ event.toList
        thrown := s.thrown || (event.bind fun _ => throws).isSome }
      match rejection b a event throws with
      | none => t
      | some error => t.fail error
  | _ => none

/-- A task of a batch that was given up; outside of a run its events reach no listener. -/
def orphan (i : Nat) (a : TaskAction) (throws : Option String) : Option (State μ) :=
  match s.orphans[i]? with
  | some (place, task) =>
    (task.step place a).map fun (task', event) =>
      let t := { s with
        orphans := s.orphans.set i (place, task')
        thrown := s.thrown || throws.isSome }
      match event with
      | none => t
      | some event => if s.active then t.emitted event else t.reduce event
  | none => none

def step (a : Action μ) : Option (State μ) :=
  match a with
  | .prompt messages => s.prompt messages
  | .continue_ => s.continue_
  | .steer message => some { s with
      steeringQueue := s.steeringQueue.enqueue message
      enqueued := fun o => if o = .steering then s.enqueued o ++ [message] else s.enqueued o }
  | .followUp message => some { s with
      followUpQueue := s.followUpQueue.enqueue message
      enqueued := fun o => if o = .followUp then s.enqueued o ++ [message] else s.enqueued o }
  | .steeringMode mode => some { s with steeringQueue := { s.steeringQueue with mode := mode } }
  | .followUpMode mode => some { s with followUpQueue := { s.followUpQueue with mode := mode } }
  | .abort => if s.active then some { s with aborted := true } else none
  | .emit throws => s.emit throws
  | .go => s.go
  | .requested =>
    match s.control with
    | .requesting => some { s with control := .streaming none }
    | _ => none
  | .streamStart message throws => s.streamStart message throws
  | .streamUpdate message throws => s.streamUpdate message throws
  | .streamDone message => s.streamDone message
  | .nextTurn context =>
    match s.control with
    | .preparingNextTurn more =>
      some { s with context := context.getD s.context, control := .stopping more }
    | _ => none
  | .shouldStop stop =>
    match s.control with
    | .stopping more =>
      some { s with control := if stop then .agentEnding .stopped else .polling more }
    | _ => none
  | .hookThrows error =>
    match s.control with
    | .requesting | .streaming _ | .preparingNextTurn _ | .stopping _ => some (s.fail error)
    | _ => none
  | .batch a throws => s.batch a throws
  | .orphan i a throws => s.orphan i a throws

end State

/-! ## What events change -/

/-- The message of a `message_end` event. -/
def AgentEvent.ended? : AgentEvent μ → Option (AgentMessage μ)
  | .messageEnd message => some message
  | _ => none

def messageEnds (log : List (AgentEvent μ)) : List (AgentMessage μ) := log.filterMap (·.ended?)

theorem messageEnds_append (xs ys : List (AgentEvent μ)) :
    messageEnds (xs ++ ys) = messageEnds xs ++ messageEnds ys := List.filterMap_append ..

theorem messageEnds_singleton (event : AgentEvent μ) :
    messageEnds [event] = event.ended?.toList := by
  rw [messageEnds, List.filterMap_cons]
  cases event.ended? <;> rfl

section Emitted

variable (s : State μ) (event : AgentEvent μ)

namespace State

@[simp] theorem log_reduce : (s.reduce event).log = s.log := by
  cases event <;> rfl

@[simp] theorem log_emitted : (s.emitted event).log = s.log ++ [event] := rfl

@[simp] theorem messages_emitted :
    (s.emitted event).messages = s.messages ++ event.ended?.toList := by
  cases event <;> first | rfl | exact (List.append_nil _).symm

@[simp] theorem control_emitted : (s.emitted event).control = s.control := by
  cases event <;> rfl

@[simp] theorem context_emitted : (s.emitted event).context = s.context := by
  cases event <;> rfl

@[simp] theorem newMessages_emitted : (s.emitted event).newMessages = s.newMessages := by
  cases event <;> rfl

@[simp] theorem pendingMessages_emitted :
    (s.emitted event).pendingMessages = s.pendingMessages := by
  cases event <;> rfl

@[simp] theorem firstTurn_emitted : (s.emitted event).firstTurn = s.firstTurn := by
  cases event <;> rfl

@[simp] theorem skipInitialSteeringPoll_emitted :
    (s.emitted event).skipInitialSteeringPoll = s.skipInitialSteeringPoll := by
  cases event <;> rfl

@[simp] theorem aborted_emitted : (s.emitted event).aborted = s.aborted := by
  cases event <;> rfl

@[simp] theorem orphans_emitted : (s.emitted event).orphans = s.orphans := by
  cases event <;> rfl

@[simp] theorem past_emitted : (s.emitted event).past = s.past := by
  cases event <;> rfl

@[simp] theorem trace_emitted : (s.emitted event).trace = s.trace := by
  cases event <;> rfl

@[simp] theorem initial_emitted : (s.emitted event).initial = s.initial := by
  cases event <;> rfl

@[simp] theorem enqueued_emitted : (s.emitted event).enqueued = s.enqueued := by
  cases event <;> rfl

@[simp] theorem foundEmpty_emitted : (s.emitted event).foundEmpty = s.foundEmpty := by
  cases event <;> rfl

@[simp] theorem thrown_emitted : (s.emitted event).thrown = s.thrown := by
  cases event <;> rfl

@[simp] theorem steeringQueue_emitted : (s.emitted event).steeringQueue = s.steeringQueue := by
  cases event <;> rfl

@[simp] theorem followUpQueue_emitted : (s.emitted event).followUpQueue = s.followUpQueue := by
  cases event <;> rfl

@[simp] theorem tools_emitted : (s.emitted event).tools = s.tools := by
  cases event <;> rfl

@[simp] theorem toolExecution_emitted : (s.emitted event).toolExecution = s.toolExecution := by
  cases event <;> rfl

end State

end Emitted

end PiMono.Agent
