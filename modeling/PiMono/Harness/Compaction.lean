import PiMono.CodingAgent.Memory

/-!
# Compaction of a harness session

`packages/agent/src/harness/compaction/compaction.ts` with `compaction/utils.ts`, and the messages
of `harness/session/context.ts`: the cut point, `prepareCompaction`, `compact`, and the context
that a path of entries gives. The texts of messages are those of `CodingAgent.Memory`, whose
source is the same.
-/

namespace PiMono.Harness

/-- An entry of a path, as compaction and context read it. -/
inductive PathEntry where
  | message (message : JsValue)
  | modelChange
  | thinkingLevelChange
  | activeToolsChange
  | compaction (summary : JsString) (retainedTail : List JsValue) (tokensBefore : JsNumber)
    (details : Option JsValue) (timestamp : JsNumber)
  | branchSummary (fromId summary : JsString) (timestamp : JsNumber)
  | custom
  deriving DecidableEq

/-- `message.role` -/
def roleOf (message : JsValue) : Role := .ofText (message.strField? (js "role"))

namespace PathEntry

def isCompaction : PathEntry → Bool
  | compaction .. => true
  | _ => false

end PathEntry

/-! ## The context -/

/-- `createBranchSummaryMessage` -/
def createBranchSummaryMessage (summary fromId : JsString) (timestamp : JsNumber) : JsValue :=
  .object [(js "role", .str (js "branchSummary")), (js "summary", .str summary),
    (js "fromId", .str fromId), (js "timestamp", .num timestamp)]

/-- `createCompactionSummaryMessage` -/
def createCompactionSummaryMessage (summary : JsString) (tokensBefore timestamp : JsNumber) :
    JsValue :=
  .object [(js "role", .str (js "compactionSummary")), (js "summary", .str summary),
    (js "tokensBefore", .num tokensBefore), (js "timestamp", .num timestamp)]

/-- An assistant message that stands for a response still to come. -/
def isDeferred (message : JsValue) : Bool :=
  roleOf message = .assistant && message.strField? (js "stopReason") = some (js "deferred")

/-- `sessionEntryToContextMessages`, without projectors. -/
def sessionEntryToContextMessages : PathEntry → List JsValue
  | .message message => if isDeferred message then [] else [message]
  | .compaction summary retainedTail tokensBefore _ timestamp =>
    createCompactionSummaryMessage summary tokensBefore timestamp :: retainedTail
  | .branchSummary fromId summary timestamp =>
    if summary ≠ [] then [createBranchSummaryMessage summary fromId timestamp] else []
  | _ => []

/-- `defaultContextEntryTransform`: the latest compaction and what follows it. -/
def defaultContextEntryTransform : List PathEntry → List PathEntry
  | [] => []
  | entry :: rest =>
    if rest.any (·.isCompaction) then defaultContextEntryTransform rest else entry :: rest

/-- `buildSessionContext(pathEntries).messages` -/
def buildSessionContext (pathEntries : List PathEntry) : List JsValue :=
  (defaultContextEntryTransform pathEntries).flatMap sessionEntryToContextMessages

/-! ## Token estimates -/

/-- `safeJsonStringify` -/
def safeJsonStringify (value : Option JsValue) : JsString :=
  (value.map JsValue.stringify).getD (js "undefined")

/-- The characters of an assistant message. -/
def assistantChars (content : JsValue) : Nat :=
  ((content.items?.getD []).map fun block =>
    if block.strField? (js "type") = some (js "text") then fieldLength block "text"
    else if block.strField? (js "type") = some (js "thinking") then fieldLength block "thinking"
    else if block.strField? (js "type") = some (js "toolCall") then
      fieldLength block "name" + (safeJsonStringify (block.get? (js "arguments"))).length
    else 0).sum

/-- `estimateTokens` -/
def estimateTokens (message : JsValue) : Nat :=
  let content := (message.get? (js "content")).getD .null
  let chars :=
    match roleOf message with
    | .user | .custom | .toolResult => estimateTextAndImageContentChars content
    | .assistant => assistantChars content
    | .bashExecution => fieldLength message "command" + fieldLength message "output"
    | .branchSummary | .compactionSummary => fieldLength message "summary"
    | .other => 0
  (chars + 3) / 4

/-- `estimateContextTokens(messages).tokens` -/
def estimateContextTokens (messages : List JsValue) : Nat :=
  let usage (message : JsValue) : Option JsValue := getAssistantUsage (.stored message)
  match messages.reverse.findIdx? (fun message => (usage message).isSome) with
  | none => (messages.map estimateTokens).sum
  | some fromEnd =>
    let index := messages.length - 1 - fromEnd
    ((messages[index]?.bind usage).map calculateContextTokens).getD 0
      + ((messages.drop (index + 1)).map estimateTokens).sum

/-! ## The cut point -/

/-- An entry at which the retained tail may begin. -/
def isCutPoint : PathEntry → Bool
  | .message message =>
    match roleOf message with
    | .bashExecution | .custom | .branchSummary | .compactionSummary | .user | .assistant => true
    | .toolResult | .other => false
  | .branchSummary .. => true
  | _ => false

/-- `findValidCutPoints` -/
def findValidCutPoints (entries : List PathEntry) (startIndex endIndex : Nat) : List Nat :=
  (List.range' startIndex (endIndex - startIndex)).filter fun i => entries[i]?.any isCutPoint

/-- An entry that begins a turn. -/
def startsTurn : PathEntry → Bool
  | .branchSummary .. => true
  | .message message => roleOf message = .user || roleOf message = .bashExecution
  | _ => false

/-- `findTurnStartIndex`; `none` for `-1`. -/
def findTurnStartIndex (entries : List PathEntry) (entryIndex startIndex : Nat) : Option Nat :=
  (List.range' startIndex (entryIndex + 1 - startIndex)).reverse.find? fun i =>
    entries[i]?.any startsTurn

/-- The first index from the end at which the tokens reach the budget; `n` entries from
`startIndex` on are still to come. -/
def budgetIndex (entries : List PathEntry) (startIndex : Nat) (keepRecentTokens : Int) :
    Nat → Nat → Option Nat
  | 0, _ => none
  | n + 1, accumulated =>
    match entries[startIndex + n]? with
    | some (.message message) =>
      if keepRecentTokens ≤ accumulated + estimateTokens message then some (startIndex + n)
      else budgetIndex entries startIndex keepRecentTokens n (accumulated + estimateTokens message)
    | _ => budgetIndex entries startIndex keepRecentTokens n accumulated

/-- The scan back from the cut, up to a message or a compaction. -/
def overMetadata (entries : List PathEntry) (startIndex : Nat) : Nat → Nat
  | 0 => 0
  | cutIndex + 1 =>
    if startIndex < cutIndex + 1 ∧ entries[cutIndex]?.any (fun previous =>
        match previous with
        | .compaction .. | .message _ => false
        | _ => true) then
      overMetadata entries startIndex cutIndex
    else cutIndex + 1

/-- `findCutPoint` -/
def findCutPoint (entries : List PathEntry) (startIndex endIndex : Nat) (keepRecentTokens : Int) :
    CutPointResult :=
  match findValidCutPoints entries startIndex endIndex with
  | [] => ⟨startIndex, none, false⟩
  | first :: others =>
    let atBudget :=
      match budgetIndex entries startIndex keepRecentTokens (endIndex - startIndex) 0 with
      | some i => ((first :: others).find? (i ≤ ·)).getD first
      | none => first
    let cutIndex := overMetadata entries startIndex atBudget
    let isUserMessage := entries[cutIndex]?.any fun entry =>
      match entry with
      | .message message => roleOf message = .user
      | _ => false
    let turnStartIndex :=
      if isUserMessage then none else findTurnStartIndex entries cutIndex startIndex
    ⟨cutIndex, turnStartIndex, !isUserMessage && turnStartIndex.isSome⟩

/-! ## Preparation -/

/-- `getMessageFromEntry` -/
def getMessageFromEntry : PathEntry → Option JsValue
  | .message message => some message
  | .branchSummary fromId summary timestamp =>
    some (createBranchSummaryMessage summary fromId timestamp)
  | .compaction summary _ tokensBefore _ timestamp =>
    some (createCompactionSummaryMessage summary tokensBefore timestamp)
  | _ => none

/-- `getMessageFromEntryForCompaction` -/
def getMessageFromEntryForCompaction (entry : PathEntry) : Option JsValue :=
  if entry.isCompaction then none else getMessageFromEntry entry

/-- `CompactionPreparation` -/
structure CompactionPreparation where
  messagesToSummarize : List JsValue
  turnPrefixMessages : List JsValue
  retainedTail : List JsValue
  isSplitTurn : Bool
  tokensBefore : Nat
  previousSummary : Option JsString
  fileOps : FileOperations
  settings : CompactionSettings

/-- The latest compaction of a path, and the entries behind it. -/
def latestCompaction? : List PathEntry → Option (PathEntry × List PathEntry)
  | [] => none
  | entry :: rest =>
    (latestCompaction? rest).or (if entry.isCompaction then some (entry, rest) else none)

/-- `prevCompaction.summary`, `.retainedTail`, `.details` -/
def PathEntry.compacted? : PathEntry → Option (JsString × List JsValue × Option JsValue)
  | compaction summary retainedTail _ details _ => some (summary, retainedTail, details)
  | _ => none

/-- The entries to compact: the retained tail of the latest compaction as messages, and what
follows it. -/
def compactableEntries (pathEntries : List PathEntry) : List PathEntry :=
  match latestCompaction? pathEntries with
  | some (previous, rest) =>
    ((previous.compacted?.map (·.2.1)).getD []).map .message ++ rest
  | none => pathEntries

/-- The messages of the entries from one index to another, compactions left out. -/
def messagesBetween (entries : List PathEntry) (startIndex endIndex : Nat) : List JsValue :=
  ((entries.take endIndex).drop startIndex).filterMap getMessageFromEntryForCompaction

/-- The file operations that the previous compaction recorded. -/
def previousFileOps (details : Option JsValue) : FileOperations :=
  let paths (key : String) : List JsString :=
    ((details.bind fun details => (details.get? (js key)).bind JsValue.items?).getD []).filterMap
      JsValue.str?
  ⟨(paths "readFiles").foldl addPath [], [], (paths "modifiedFiles").foldl addPath []⟩

/-- `prepareCompaction`; `none` for `ok(undefined)`. It gives no error. -/
def prepareCompaction (pathEntries : List PathEntry) (settings : CompactionSettings) :
    Option CompactionPreparation :=
  if pathEntries.getLast?.all (·.isCompaction) then none
  else
    let previous := (latestCompaction? pathEntries).bind (·.1.compacted?)
    let entries := compactableEntries pathEntries
    let cutPoint := findCutPoint entries 0 entries.length settings.keepRecentTokens
    let historyEnd :=
      if cutPoint.isSplitTurn then cutPoint.turnStartIndex.getD 0 else cutPoint.firstKeptEntryIndex
    let messagesToSummarize := messagesBetween entries 0 historyEnd
    let turnPrefixMessages :=
      if cutPoint.isSplitTurn then messagesBetween entries historyEnd cutPoint.firstKeptEntryIndex
      else []
    some {
      messagesToSummarize := messagesToSummarize
      turnPrefixMessages := turnPrefixMessages
      retainedTail := messagesBetween entries cutPoint.firstKeptEntryIndex entries.length
      isSplitTurn := cutPoint.isSplitTurn
      tokensBefore := estimateContextTokens (buildSessionContext pathEntries)
      previousSummary := previous.map (·.1)
      fileOps := (messagesToSummarize ++ turnPrefixMessages).foldl
        (fun fileOps message => extractFileOpsFromMessage fileOps (.stored message))
        (previousFileOps (previous.bind (·.2.2)))
      settings := settings }

/-! ## Summaries -/

/-- `SUMMARIZATION_SYSTEM_PROMPT` -/
def summarizationSystemPrompt : JsString :=
  js ("You are a context summarization assistant. Your task is to read a conversation " ++
    "between a user and an AI assistant, then produce a structured summary following the " ++
    "exact format specified.\n\nDo NOT continue the conversation. Do NOT respond to any " ++
    "questions in the conversation. ONLY output the structured summary.")

/-- `SUMMARIZATION_PROMPT` -/
def summarizationPrompt : JsString :=
  js ("The messages above are a conversation to summarize. Create a structured context " ++
    "checkpoint summary that another LLM will use to continue the work.\n\nUse this " ++
    "EXACT format:\n\n## Goal\n[What is the user trying to accomplish? Can be multiple " ++
    "items if the session covers different tasks.]\n\n## Constraints & Preferences\n- " ++
    "[Any constraints, preferences, or requirements mentioned by user]\n- [Or \"(none)\" " ++
    "if none were mentioned]\n\n## Progress\n### Done\n- [x] [Completed tasks/changes]\n" ++
    "\n### In Progress\n- [ ] [Current work]\n\n### Blocked\n- [Issues preventing " ++
    "progress, if any]\n\n## Key Decisions\n- **[Decision]**: [Brief rationale]\n\n## " ++
    "Next Steps\n1. [Ordered list of what should happen next]\n\n## Critical Context\n- " ++
    "[Any data, examples, or references needed to continue]\n- [Or \"(none)\" if not " ++
    "applicable]\n\nKeep each section concise. Preserve exact file paths, function " ++
    "names, and error messages.")

/-- `UPDATE_SUMMARIZATION_PROMPT` -/
def updateSummarizationPrompt : JsString :=
  js ("The messages above are NEW conversation messages to incorporate into the existing " ++
    "summary provided in <previous-summary> tags.\n\nUpdate the existing structured " ++
    "summary with new information. RULES:\n- PRESERVE all existing information from the " ++
    "previous summary\n- ADD new progress, decisions, and context from the new messages\n" ++
    "- UPDATE the Progress section: move items from \"In Progress\" to \"Done\" when " ++
    "completed\n- UPDATE \"Next Steps\" based on what was accomplished\n- PRESERVE exact " ++
    "file paths, function names, and error messages\n- If something is no longer " ++
    "relevant, you may remove it\n\nUse this EXACT format:\n\n## Goal\n[Preserve " ++
    "existing goals, add new ones if the task expanded]\n\n## Constraints & Preferences\n" ++
    "- [Preserve existing, add new ones discovered]\n\n## Progress\n### Done\n- [x] " ++
    "[Include previously done items AND newly completed items]\n\n### In Progress\n- [ ] " ++
    "[Current work - update based on progress]\n\n### Blocked\n- [Current blockers - " ++
    "remove if resolved]\n\n## Key Decisions\n- **[Decision]**: [Brief rationale] " ++
    "(preserve all previous, add new)\n\n## Next Steps\n1. [Update based on current " ++
    "state]\n\n## Critical Context\n- [Preserve important context, add new if needed]\n\n" ++
    "Keep each section concise. Preserve exact file paths, function names, and error " ++
    "messages.")

/-- `TURN_PREFIX_SUMMARIZATION_PROMPT` -/
def turnPrefixSummarizationPrompt : JsString :=
  js ("This is the PREFIX of a turn that was too large to keep. The SUFFIX (recent work) " ++
    "is retained.\n\nSummarize the prefix to provide context for the retained suffix:\n\n" ++
    "## Original Request\n[What did the user ask for in this turn?]\n\n## Early " ++
    "Progress\n- [Key decisions and work done in the prefix]\n\n## Context for Suffix\n- " ++
    "[Information needed to understand the retained recent work]\n\nBe concise. Focus on " ++
    "what's needed to understand the kept suffix.")

/-- A request to the model. -/
structure Request where
  systemPrompt : JsString
  promptText : JsString
  deriving DecidableEq

/-- An assistant message that the model has answered. -/
structure Response where
  stopReason : JsString
  errorMessage : Option JsString
  content : JsValue

inductive CompactionErrorCode where
  | aborted
  | summarizationFailed
  deriving DecidableEq

/-- `CompactionError` -/
structure CompactionError where
  code : CompactionErrorCode
  message : JsString
  deriving DecidableEq

/-- `text || fallback` -/
def orElse (text : Option JsString) (fallback : JsString) : JsString :=
  (text.filter (· ≠ [])).getD fallback

/-- What a response says; `what` begins the texts of the errors. -/
def responseText (what : String) (response : Response) : Except CompactionError JsString :=
  if response.stopReason = js "aborted" then
    .error ⟨.aborted, orElse response.errorMessage (js what ++ js " aborted")⟩
  else if response.stopReason = js "error" then
    .error ⟨.summarizationFailed,
      js what ++ js " failed: " ++ orElse response.errorMessage (js "Unknown error")⟩
  else .ok (contentText response.content (js "\n"))

/-- `<conversation>…</conversation>` -/
def conversationBlock (messages : List JsValue) : JsString :=
  js "<conversation>\n" ++ serializeConversation messages ++ js "\n</conversation>\n\n"

/-- `<previous-summary>…</previous-summary>` -/
def previousSummaryBlock (previousSummary : JsString) : JsString :=
  js "<previous-summary>\n" ++ previousSummary ++ js "\n</previous-summary>\n\n"

/-- The request of `generateSummaryWithUsage`. -/
def summaryRequest (currentMessages : List JsValue)
    (customInstructions previousSummary : Option JsString) : Request :=
  let previous := (previousSummary.filter (· ≠ [])).map previousSummaryBlock
  let basePrompt := if previous.isSome then updateSummarizationPrompt else summarizationPrompt
  let focus :=
    ((customInstructions.filter (· ≠ [])).map (js "\n\nAdditional focus: " ++ ·)).getD []
  ⟨summarizationSystemPrompt,
    conversationBlock currentMessages ++ previous.getD [] ++ (basePrompt ++ focus)⟩

/-- The request of `generateTurnPrefixSummary`. -/
def turnPrefixRequest (messages : List JsValue) : Request :=
  ⟨summarizationSystemPrompt, conversationBlock messages ++ turnPrefixSummarizationPrompt⟩

/-- `sort()` of strings: by code units. -/
def sortPaths (paths : List JsString) : List JsString := paths.mergeSort fun a b => decide (a ≤ b)

/-- `computeFileLists`: the files that were only read, and the modified ones. -/
def computeFileLists (fileOps : FileOperations) : List JsString × List JsString :=
  let modified := fileOps.written.foldl addPath fileOps.edited
  (sortPaths (fileOps.read.filter (· ∉ modified)), sortPaths modified)

/-- `formatFileOperations` -/
def formatFileOperations (readFiles modifiedFiles : List JsString) : JsString :=
  let pathBlock (tag : String) (paths : List JsString) : List JsString :=
    if paths = [] then []
    else [js "<" ++ js tag ++ js ">\n" ++ joinWith (js "\n") paths ++ js "\n</" ++ js tag ++ js ">"]
  let sections := pathBlock "read-files" readFiles ++ pathBlock "modified-files" modifiedFiles
  if sections = [] then [] else js "\n\n" ++ joinWith (js "\n\n") sections

/-- `CompactResult`; `details` are the two lists of files. -/
structure CompactResult where
  summary : JsString
  tokensBefore : Nat
  retainedTail : List JsValue
  readFiles : List JsString
  modifiedFiles : List JsString
  deriving DecidableEq

/-- What is done with the text of the summary. -/
def compactResult (preparation : CompactionPreparation) (summary : JsString) : CompactResult :=
  let (readFiles, modifiedFiles) := computeFileLists preparation.fileOps
  ⟨summary ++ formatFileOperations readFiles modifiedFiles, preparation.tokensBefore,
    preparation.retainedTail, readFiles, modifiedFiles⟩

/-- The history summary of a split turn, with the requests made for it. -/
def historySummary (complete : Request → Response) (preparation : CompactionPreparation)
    (customInstructions : Option JsString) : List Request × Except CompactionError JsString :=
  if preparation.messagesToSummarize = [] then ([], .ok (js "No prior history."))
  else
    let request := summaryRequest preparation.messagesToSummarize customInstructions
      preparation.previousSummary
    ([request], responseText "Summarization" (complete request))

/-- `compact`: the requests it makes, and what it gives. -/
def compact (complete : Request → Response) (preparation : CompactionPreparation)
    (customInstructions : Option JsString) : List Request × Except CompactionError CompactResult :=
  if preparation.isSplitTurn ∧ preparation.turnPrefixMessages ≠ [] then
    match historySummary complete preparation customInstructions with
    | (requests, .error e) => (requests, .error e)
    | (requests, .ok historyText) =>
      let request := turnPrefixRequest preparation.turnPrefixMessages
      (requests ++ [request],
        (responseText "Turn prefix summarization" (complete request)).map fun text =>
          compactResult preparation
            (historyText ++ js "\n\n---\n\n**Turn Context (split turn):**\n\n" ++ text))
  else
    let request := summaryRequest preparation.messagesToSummarize customInstructions
      preparation.previousSummary
    ([request],
      (responseText "Summarization" (complete request)).map (compactResult preparation))

end PiMono.Harness
