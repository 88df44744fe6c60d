import PiMono.CodingAgent.Compaction
import PiMono.CodingAgent.SessionReload

/-!
# Session memory

`core/memory.ts`, with the texts it serializes (`core/compaction/utils.ts:85-150`,
`core/messages.ts:76-195`): which messages are still to be observed, what is read
out of a reply, and `updateSessionMemory`, a run with up to three model requests.

A run is a value of `MemoryRun`. While a request is awaited other parties go on
with the session (`Request.meanwhile`); between two requests nobody else does
anything. `gather` is the run up to its first append, `commit` the rest.
-/

namespace PiMono

/-! ## The text of a conversation -/

/-- `contentText` -/
def contentText (content : JsValue) (separator : JsString) : JsString :=
  match content.str? with
  | some text => text
  | none => joinWith separator (((content.items?.getD []).filter fun block =>
      block.strField? (js "type") = some (js "text")).map fun block =>
        (block.strField? (js "text")).getD [])

/-- `bashExecutionToText` -/
def bashExecutionToText (message : JsValue) : JsString :=
  let text (key : String) : JsString := (message.strField? (js key)).getD []
  let flag (key : String) : Bool := (message.get? (js key)).any (·.truthy)
  let exitCode := (message.get? (js "exitCode")).bind JsValue.num?
  js "Ran `" ++ text "command" ++ js "`\n"
    ++ (if text "output" ≠ [] then js "```\n" ++ text "output" ++ js "\n```" else js "(no output)")
    ++ (if flag "cancelled" then js "\n\n(command cancelled)"
      else match exitCode with
        | some code =>
          if code ≠ .ofNat 0 then js "\n\nCommand exited with code " ++ code.text else []
        | none => [])
    ++ (if flag "truncated" ∧ text "fullOutputPath" ≠ [] then
        js "\n\n[Output truncated. Full output: " ++ text "fullOutputPath" ++ js "]" else [])

/-- `COMPACTION_SUMMARY_PREFIX` -/
def compactionSummaryPrefix : JsString :=
  js "The conversation history before this point was compacted into the following summary:\n\n<summary>\n"

/-- `COMPACTION_SUMMARY_SUFFIX` -/
def compactionSummarySuffix : JsString := js "\n</summary>"

/-- `BRANCH_SUMMARY_PREFIX` -/
def branchSummaryPrefix : JsString :=
  js "The following is a summary of a branch that this conversation came back from:\n\n<summary>\n"

/-- `BRANCH_SUMMARY_SUFFIX` -/
def branchSummarySuffix : JsString := js "</summary>"

/-- A message as the model is sent it: what was said, and by whom. -/
inductive LlmMessage where
  | user (content : JsValue)
  | assistant (content : JsValue)
  | toolResult (content : JsValue)

/-- `convertToLlm`, of one stored message. -/
def convertToLlm (message : JsValue) : Option LlmMessage :=
  let content := (message.get? (js "content")).getD .null
  let textBlock (text : JsString) : JsValue :=
    .arr [.object [(js "type", .str (js "text")), (js "text", .str text)]]
  let summary := (message.strField? (js "summary")).getD []
  match (AgentMessage.stored message).role with
  | .bashExecution =>
    if (message.get? (js "excludeFromContext")).any (·.truthy) then none
    else some (.user (textBlock (bashExecutionToText message)))
  | .custom =>
    match content.str? with
    | some text => some (.user (textBlock text))
    | none => some (.user content)
  | .branchSummary =>
      some (.user (textBlock (branchSummaryPrefix ++ summary ++ branchSummarySuffix)))
  | .compactionSummary =>
    some (.user (textBlock (compactionSummaryPrefix ++ summary ++ compactionSummarySuffix)))
  | .user => some (.user content)
  | .assistant => some (.assistant content)
  | .toolResult => some (.toolResult content)
  | .other => none

/-- `TOOL_RESULT_MAX_CHARS` -/
def toolResultMaxChars : Nat := 2000

/-- `truncateForSummary` -/
def truncateForSummary (text : JsString) (maxChars : Nat) : JsString :=
  if text.length ≤ maxChars then text
  else text.take maxChars ++ js "\n\n[... " ++ (JsNumber.ofNat (text.length - maxChars)).text
    ++ js " more characters truncated]"

/-- `name(key=value, …)` of a tool call. -/
def toolCallText (block : JsValue) : JsString :=
  let args := ((block.get? (js "arguments")).map (·.json.fields)).getD []
  (block.strField? (js "name")).getD [] ++ js "("
    ++ joinWith (js ", ") (args.map fun (key, value) => key ++ js "=" ++ value.stringify) ++ js ")"

/-- The parts `serializeConversation` writes for a message. -/
def LlmMessage.parts : LlmMessage → List JsString
  | user content =>
    let text := contentText content []
    if text ≠ [] then [js "[User]: " ++ text] else []
  | assistant content =>
    let ofType (type : String) : List JsValue :=
      (content.items?.getD []).filter fun block => block.strField? (js "type") = some (js type)
    let thinking := (ofType "thinking").map fun block => (block.strField? (js "thinking")).getD []
    let toolCalls := (ofType "toolCall").map toolCallText
    (if thinking ≠ [] then [js "[Assistant thinking]: " ++ joinWith (js "\n") thinking] else [])
      ++ (if ofType "text" ≠ [] then [js "[Assistant]: " ++ contentText content (js "\n")] else [])
      ++ (if toolCalls ≠ [] then
          [js "[Assistant tool calls]: " ++ joinWith (js "; ") toolCalls] else [])
  | toolResult content =>
    let text := contentText content []
    if text ≠ [] then [js "[Tool result]: " ++ truncateForSummary text toolResultMaxChars] else []

/-- `serializeConversation(convertToLlm(messages))` -/
def serializeConversation (messages : List JsValue) : JsString :=
  joinWith (js "\n\n") ((messages.filterMap convertToLlm).flatMap LlmMessage.parts)

/-! ## Sources -/

/-- `MEMORY_INPUT_MAX_TOKENS` -/
def memoryInputMaxTokens : Nat := 32768

namespace FileEntry

/-- `entry.type === "message"` -/
def isMessage (e : FileEntry) : Bool := e.type = some (js "message")

/-- `entry.message` -/
def message (e : FileEntry) : JsValue := (e.raw.get? (js "message")).getD .null

end FileEntry

/-- The loop of `selectObservationSources`, over the sources from the last on. -/
def selectSources (maxChars : Nat) : List FileEntry → List FileEntry → Nat → List FileEntry
  | [], selected, _ => selected
  | source :: rest, selected, length =>
    let text := serializeConversation [source.message]
    let separatorLength := if selected ≠ [] ∧ text ≠ [] then 2 else 0
    if selected ≠ [] ∧ maxChars < length + separatorLength + text.length then selected
    else selectSources maxChars rest (source :: selected) (length + separatorLength + text.length)

/-- `selectObservationSources`: the ids of the latest sources that fit, and their
text. -/
def selectObservationSources (sources : List FileEntry) (maxTokens : Nat) :
    List JsString × JsString :=
  let maxChars := maxTokens * 4
  let selected := selectSources maxChars sources.reverse [] 0
  let serialized := serializeConversation (selected.map (·.message))
  -- `slice(-0)` is the whole text
  (selected.map (·.id),
    if maxChars < serialized.length ∧ maxChars ≠ 0 then
      serialized.drop (serialized.length - maxChars) else serialized)

/-- The ids that memory entries name as their sources. -/
def processedIds (entries : List FileEntry) : List JsString :=
  (entries.filterMap FileEntry.memory?).flatMap (·.sourceEntryIds)

/-- `unprocessedMessages` -/
def unprocessedMessages (entries : List FileEntry) : List FileEntry :=
  entries.filter fun e => e.isMessage ∧ e.id ∉ processedIds entries

/-- The tokens of messages. -/
def messageTokens (entries : List FileEntry) : Nat :=
  (entries.map fun e => estimateTokens (.stored e.message)).sum

/-! ## Replies -/

/-- `parseStringArray` -/
def parseStringArray (text : JsString) (key : String) : List JsString :=
  match ((JsValue.parse text).bind (·.get? (js key))).bind JsValue.items? with
  | some records => records.filterMap JsValue.str?
  | none => []

/-- `parseSupersedes` -/
def parseSupersedes (text : JsString) (key : String) (validIds : List JsString) : List JsString :=
  (parseStringArray text key).filter (· ∈ validIds)

structure Reflection where
  content : JsString
  projectKind : Option ProjectKind
  deriving DecidableEq

/-- One reflection of a reply; one that is not well formed is left out. -/
def parseReflection (reflection : JsValue) : Option Reflection :=
  match reflection.str? with
  | some content => some ⟨content, none⟩
  | none =>
    match reflection.strField? (js "content"), reflection.get? (js "projectKind") with
    | some content, none => some ⟨content, none⟩
    | some content, some projectKind =>
      (projectKind.str?.bind ProjectKind.ofText?).map fun kind => ⟨content, some kind⟩
    | none, _ => none

/-- `parseReflections` -/
def parseReflections (text : JsString) : List Reflection :=
  match ((JsValue.parse text).bind (·.get? (js "reflections"))).bind JsValue.items? with
  | some reflections => reflections.filterMap parseReflection
  | none => []

/-! ## A run -/

structure MemorySettings where
  enabled : Bool
  observeAfterTokens : Int
  reflectAfterTokens : Int
  observationsPoolMaxTokens : Int
  observationsPoolTargetTokens : JsNumber

/-- A model request: what others do until it settles, and the text of the reply to
a prompt, `none` where the request throws. -/
structure Request where
  meanwhile : List SessionStep
  reply : JsString → Option JsString

/-- A request during which nobody else acts, and that is answered. -/
def Request.quiet (reply : JsString → JsString) : Request := ⟨[], fun prompt => some (reply prompt)⟩

/-- A request during which nobody else acts, and that throws. -/
def Request.throwing : Request := ⟨[], fun _ => none⟩

/-- How a run ends. -/
inductive MemoryOutcome where
  | returned (changed : Bool)
  /-- A model request throws. -/
  | threw
  /-- The session itself fails. -/
  | failed (error : SessionError)
  deriving DecidableEq

/-- A run that goes on: the session, and what others have appended to it. -/
structure MemoryState where
  world : World
  byOthers : List FileEntry

/-- A run that has ended. -/
structure MemoryRun extends MemoryState where
  outcome : MemoryOutcome

namespace MemoryState

def stop (s : MemoryState) (outcome : MemoryOutcome) : MemoryRun := ⟨s, outcome⟩

/-- `sessionManager.getBranch()` -/
def getBranch (s : MemoryState) : Except MemoryRun (List FileEntry) :=
  match s.world.manager.getBranch none with
  | some branch => .ok branch
  | none => .error (s.stop (.failed .noReturn))

/-- What others do until a request settles. -/
def others (s : MemoryState) (steps : List SessionStep) : MemoryState :=
  let world := s.world.afterSteps steps
  ⟨world, s.byOthers ++ world.manager.getEntries.drop s.world.manager.getEntries.length⟩

/-- `await completeMemoryRequest(…)`, and the guard behind it. -/
def ask (s : MemoryState) (isCurrentBranch : World → Bool) (request : Request)
    (prompt : JsString) : Except MemoryRun (MemoryState × JsString) :=
  let s := s.others request.meanwhile
  match request.reply prompt with
  | none => .error (s.stop .threw)
  | some text => if isCurrentBranch s.world then .ok (s, text) else .error
      (s.stop (.returned false))

end MemoryState

/-- What a call of `appendMemory` is given. -/
structure MemoryFields where
  kind : MemoryKind
  content : JsString
  sourceEntryIds : List JsString
  supersedes : List JsString
  projectKind : Option ProjectKind
  deriving DecidableEq

/-- `appendMemory`, of one memory after the other. -/
def appendMemories (draws : Nat → Draws) :
    Nat → MemoryState → List MemoryFields → Except MemoryRun MemoryState
  | _, s, [] => .ok s
  | k, s, m :: rest =>
    match s.world.appendMemory (draws k) m.kind m.content m.sourceEntryIds m.supersedes
        m.projectKind with
    | .ok world => appendMemories draws (k + 1) { s with world := world } rest
    | .error error => .error (s.stop (.failed error))

/-- What the first request finds. -/
structure Observed where
  newObservations : List JsString
  newTrace : List JsString
  sourceEntryIds : List JsString

/-- What the second request finds. -/
structure Reflected where
  reflections : List Reflection
  supersedes : List JsString
  sourceEntryIds : List JsString

/-- `activeMemory` -/
def activeMemory (entries : List FileEntry) : List MemoryEntry :=
  activeMemories (entries.filterMap FileEntry.memory?)

/-- The observations of a branch that are active. -/
def observationPool (branch : List FileEntry) : List MemoryEntry :=
  (activeMemory branch).filter (·.kind = .observation)

/-- `[...new Set(ids)]` -/
def distinctIds (ids : List JsString) : List JsString :=
  ids.foldl (fun seen id => if id ∈ seen then seen else seen ++ [id]) []

/-- The prompt of the first request. -/
def observationPrompt (omitted : Bool) (sourceText : JsString) : JsString :=
  js "Extract concise, factual observations from this session span. Preserve decision-relevant quantitative facts when present: metric, value, unit or currency, period or as-of date, source reference, valuation assumptions or results, and decisive constraints. Do not infer or invent numbers, sources, or precision. Also return compact chronological trace lines for material state changes only: scope, evidence, decisions or reversals, deliverables, and unresolved next steps. Omit routine actions. Return JSON: \x7b\"observations\":[\"...\"],\"trace\":[\"...\"]\x7d.\n\n"
    ++ (if omitted then js "[Earlier transcript omitted]\n\n" else []) ++ sourceText

/-- The prompt of the second request. -/
def reflectionPrompt (existingReflections observations : JsString) : JsString :=
  let orNone (text : JsString) : JsString := if text ≠ [] then text else js "(none)"
  js "Consolidate durable session facts from the evidence below. Return JSON: \x7b\"reflections\":[\x7b\"content\":\"...\",\"projectKind\":\"convention|decision|failure|procedure\"\x7d],\"supersedes\":[\"memory-entry-id\"]\x7d. Return only net-new facts or a replacement that is more specific or newer than an existing reflection. A superseded ID must appear in Existing reflections, and a returned reflection must preserve or update its fact. Do not supersede merely related facts. Include projectKind only for facts worth corroborating across sessions.\n\nExisting reflections:\n"
    ++ orNone existingReflections ++ js "\n\nObservations:\n" ++ orNone observations

/-- The prompt of the third request. -/
def dropperPrompt (observationsPoolTargetTokens : JsNumber) (observations : List MemoryEntry) :
    JsString :=
  js "Drop stale or redundant observations until the retained pool is about "
    ++ observationsPoolTargetTokens.text
    ++ js " tokens. Return JSON: \x7b\"supersedes\":[\"memory-entry-id\"]\x7d.\n\n"
    ++ joinWith (js "\n") (observations.map fun m => js "- " ++ m.id ++ js ": " ++ m.content)

/-- `sum(ceil(content.length / 4))` -/
def contentTokens (contents : List JsString) : Nat :=
  (contents.map fun content => (content.length + 3) / 4).sum

section Run

variable (settings : MemorySettings) (force : Bool) (isCurrentBranch : World → Bool)

/-- The first request, if the messages still to be observed are long enough. -/
def observe (request : Request) (s : MemoryState) (branch : List FileEntry) :
    Except MemoryRun (MemoryState × Observed) :=
  let sources := unprocessedMessages branch
  let shouldObserve := sources ≠ [] ∧
    (force = true ∨ settings.observeAfterTokens ≤ (messageTokens sources : Int))
  if shouldObserve then do
    let (sourceEntryIds, sourceText) := selectObservationSources sources memoryInputMaxTokens
    let prompt := observationPrompt (sourceEntryIds.length < sources.length) sourceText
    let (s, text) ← s.ask isCurrentBranch request prompt
    return (s, ⟨parseStringArray text "observations", parseStringArray text "trace",
      sourceEntryIds⟩)
  else .ok (s, ⟨[], [], []⟩)

/-- The second request, if the messages not reflected yet are long enough. -/
def reflect (request : Request) (s : MemoryState) (branch : List FileEntry) (observed : Observed) :
    Except MemoryRun (MemoryState × Reflected) := do
  let memories := activeMemory (← s.getBranch)
  let activeReflections := memories.filter (·.kind = .reflection)
  let activeObservations := memories.filter (·.kind = .observation)
  let reflectedSourceIds := activeReflections.flatMap (·.sourceEntryIds)
  let reflectionTokens :=
    messageTokens (branch.filter fun e => e.isMessage ∧ e.id ∉ reflectedSourceIds)
  let shouldReflect := (memories ≠ [] ∨ observed.newObservations ≠ []) ∧
    (force = true ∨ settings.reflectAfterTokens ≤ (reflectionTokens : Int))
  if shouldReflect then do
    let existingReflections := joinWith (js "\n") (activeReflections.map memoryLine)
    let observations := joinWith (js "\n") (activeObservations.map memoryLine
      ++ observed.newObservations.map fun observation => js "- [new] " ++ observation)
    let sourceEntryIds := distinctIds (reflectedSourceIds
      ++ activeObservations.flatMap (·.sourceEntryIds) ++ observed.sourceEntryIds)
    let (s, text) ← s.ask isCurrentBranch request
      (reflectionPrompt existingReflections observations)
    let reflections := parseReflections text
    let supersedes :=
      if reflections ≠ [] then parseSupersedes text "supersedes" (activeReflections.map (·.id))
      else []
    return (s, ⟨reflections, supersedes, sourceEntryIds⟩)
  else .ok (s, ⟨[], [], []⟩)

/-- What a run holds before it appends anything. -/
structure Gathered where
  state : MemoryState
  observed : Observed
  reflected : Reflected

/-- A run up to its first append. -/
def gather (observing reflecting : Request) (w : World) : Except MemoryRun Gathered :=
  let s : MemoryState := ⟨w, []⟩
  if settings.enabled then do
    let branch ← s.getBranch
    let (s, observed) ← observe settings force isCurrentBranch observing s branch
    let (s, reflected) ← reflect settings force isCurrentBranch reflecting s branch observed
    return ⟨s, observed, reflected⟩
  else .error (s.stop (.returned false))

/-- What is appended before the third request. -/
def Gathered.early (g : Gathered) : List MemoryFields :=
  let memory (kind : MemoryKind) (content : JsString) : MemoryFields :=
    ⟨kind, content, g.observed.sourceEntryIds, [], none⟩
  g.observed.newObservations.map (memory .observation) ++ g.observed.newTrace.map (memory .trace)

/-- What is appended at the end of a run. -/
def Gathered.late (g : Gathered) (observationSupersedes : List JsString) : List MemoryFields :=
  g.reflected.reflections.map (fun reflection =>
      ⟨.reflection, reflection.content, g.reflected.sourceEntryIds, [], reflection.projectKind⟩)
    ++ (if g.reflected.supersedes ≠ [] then
        [⟨.supersedes, js "Superseded obsolete reflections.", g.reflected.sourceEntryIds,
          g.reflected.supersedes, none⟩] else [])
    ++ (if observationSupersedes ≠ [] then
        [⟨.supersedes, js "Pruned stale observations.", g.observed.sourceEntryIds,
          observationSupersedes, none⟩] else [])

/-- The third request, if there are too many observations: the observations to
drop. -/
def prune (request : Request) (s : MemoryState) :
    Except MemoryRun (MemoryState × List JsString) := do
  let observations := observationPool (← s.getBranch)
  if settings.observationsPoolMaxTokens <
    (contentTokens (observations.map (·.content)) : Int) then do
    let (s, text) ← s.ask isCurrentBranch request
      (dropperPrompt settings.observationsPoolTargetTokens observations)
    return (s, parseSupersedes text "supersedes" (observations.map (·.id)))
  else .ok (s, [])

/-- A run from its first append on. -/
def commit (draws : Nat → Draws) (pruning : Request) (g : Gathered) :
    Except MemoryRun MemoryState := do
  let s ← appendMemories draws 0 g.state g.early
  let (s, observationSupersedes) ← prune settings isCurrentBranch pruning s
  appendMemories draws g.early.length s (g.late observationSupersedes)

/-- `updateSessionMemory`; the `k`-th entry it appends draws `draws k`. -/
def updateSessionMemory (draws : Nat → Draws) (observing reflecting pruning : Request)
    (w : World) : MemoryRun :=
  match gather settings force isCurrentBranch observing reflecting w >>=
      commit settings isCurrentBranch draws pruning with
  | .ok s => s.stop (.returned true)
  | .error run => run

end Run

/-- The guard that `_updateSessionMemory` passes: the leaf is still the one it was. -/
def onBranchOf (w : World) (w' : World) : Bool := w'.manager.leafId = w.manager.leafId

end PiMono
