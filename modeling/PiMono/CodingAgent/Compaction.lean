import PiMono.CodingAgent.SessionContext

/-!
# Preparing a compaction

`core/compaction/compaction.ts:176-467` and `:718-800`: the token estimate, the
cut point and `prepareCompaction`, with the file operations it collects
(`core/compaction/utils.ts`). `prepareCompaction_covers` is the result about all
of them: what is summarized and what is kept make up the context.
-/

namespace PiMono

structure CompactionSettings where
  enabled : Bool
  reserveTokens : Int
  keepRecentTokens : Int

/-! ## Token estimates -/

/-- `ESTIMATED_IMAGE_CHARS` -/
def estimatedImageChars : Nat := 4800

/-- `DETERMINISTIC_MEMORY_MAX_TOKENS` -/
def deterministicMemoryMaxTokens : Nat := 24000

/-- The length of a string field of a content block. -/
def fieldLength (block : JsValue) (key : String) : Nat :=
  ((block.strField? (js key)).getD []).length

/-- `estimateTextAndImageContentChars` -/
def estimateTextAndImageContentChars (content : JsValue) : Nat :=
  match content.str? with
  | some text => text.length
  | none => ((content.items?.getD []).map fun block =>
      if block.strField? (js "type") = some (js "text") then fieldLength block "text"
      else if block.strField? (js "type") = some (js "image") then estimatedImageChars
      else 0).sum

/-- The characters of an assistant message. -/
def assistantChars (content : JsValue) : Nat :=
  ((content.items?.getD []).map fun block =>
    if block.strField? (js "type") = some (js "text") then fieldLength block "text"
    else if block.strField? (js "type") = some (js "thinking") then fieldLength block "thinking"
    else if block.strField? (js "type") = some (js "toolCall") then
      fieldLength block "name"
        + (((block.get? (js "arguments")).map JsValue.stringify).getD []).length
    else 0).sum

/-- `estimateTokens`: a quarter of the characters, rounded up. -/
def estimateTokens (message : AgentMessage) : Nat :=
  let chars :=
    match message with
    | .stored m =>
      let content := (m.get? (js "content")).getD .null
      match message.role with
      | .user | .custom | .toolResult => estimateTextAndImageContentChars content
      | .assistant => assistantChars content
      | .bashExecution => fieldLength m "command" + fieldLength m "output"
      | .branchSummary | .compactionSummary => fieldLength m "summary"
      | .other => 0
    | .custom _ content .. => estimateTextAndImageContentChars content
    | .branchSummary summary .. | .compactionSummary summary .. => summary.length
  (chars + 3) / 4

/-- A token count of a usage record. -/
def usageCount (usage : JsValue) (key : String) : Nat :=
  ((usage.get? (js key)).bind JsValue.nat?).getD 0

/-- `calculateContextTokens` -/
def calculateContextTokens (usage : JsValue) : Nat :=
  let total := usageCount usage "totalTokens"
  if total ≠ 0 then total
  else usageCount usage "input" + usageCount usage "output" + usageCount usage "cacheRead"
    + usageCount usage "cacheWrite"

/-- `getAssistantUsage` -/
def getAssistantUsage (message : AgentMessage) : Option JsValue :=
  match message with
  | .stored m =>
    if message.role = .assistant ∧ m.strField? (js "stopReason") ≠ some (js "aborted") ∧
        m.strField? (js "stopReason") ≠ some (js "error") then
      (m.get? (js "usage")).filter fun usage =>
        usage.truthy ∧ 0 < calculateContextTokens usage
    else none
  | _ => none

/-- `estimateContextTokens(messages).tokens`: the usage of the last assistant
message that reports one, and an estimate of what follows it. -/
def estimateContextTokens (messages : List AgentMessage) : Nat :=
  match messages.reverse.findIdx? (fun message => (getAssistantUsage message).isSome) with
  | none => (messages.map estimateTokens).sum
  | some fromEnd =>
    let index := messages.length - 1 - fromEnd
    ((messages[index]?.bind getAssistantUsage).map calculateContextTokens).getD 0
      + ((messages.drop (index + 1)).map estimateTokens).sum

/-! ## The cut point -/

/-- `isCutPointMessage` -/
def isCutPointMessage (message : AgentMessage) : Bool :=
  match message.role with
  | .user | .assistant | .bashExecution | .custom | .branchSummary | .compactionSummary => true
  | .toolResult | .other => false

/-- `isTurnStartMessage` -/
def isTurnStartMessage (message : AgentMessage) : Bool :=
  match message.role with
  | .user | .bashExecution | .custom | .branchSummary | .compactionSummary => true
  | .assistant | .toolResult | .other => false

/-- `isTurnStartEntry` -/
def isTurnStartEntry (entry : FileEntry) : Bool :=
  !entry.isCompaction && (sessionEntryToContextMessages entry).any isTurnStartMessage

/-- `findValidCutPoints` -/
def findValidCutPoints (entries : List FileEntry) (startIndex endIndex : Nat) : List Nat :=
  (List.range' startIndex (endIndex - startIndex)).filter fun i => entries[i]?.any fun entry =>
    !entry.isCompaction && (sessionEntryToContextMessages entry).any isCutPointMessage

/-- `findTurnStartIndex`; `none` for `-1`. -/
def findTurnStartIndex (entries : List FileEntry) (entryIndex startIndex : Nat) : Option Nat :=
  (List.range' startIndex (entryIndex + 1 - startIndex)).reverse.find? fun i =>
    entries[i]?.any isTurnStartEntry

structure CutPointResult where
  firstKeptEntryIndex : Nat
  /-- `none` for `-1`. -/
  turnStartIndex : Option Nat
  isSplitTurn : Bool
  deriving DecidableEq

/-- The tokens of an entry. -/
def entryTokens (entry : FileEntry) : Nat :=
  ((sessionEntryToContextMessages entry).map estimateTokens).sum

/-- The first index from the end at which the tokens reach the budget; `n` entries
from `startIndex` on are still to come. -/
def budgetIndex (entries : List FileEntry) (startIndex : Nat) (keepRecentTokens : Int) :
    Nat → Nat → Option Nat
  | 0, _ => none
  | n + 1, accumulated =>
    let tokens := (entries[startIndex + n]?.map entryTokens).getD 0
    if tokens = 0 then budgetIndex entries startIndex keepRecentTokens n accumulated
    else if keepRecentTokens ≤ accumulated + tokens then some (startIndex + n)
    else budgetIndex entries startIndex keepRecentTokens n (accumulated + tokens)

/-- The scan back from the cut over entries that add nothing to the context. -/
def overMetadata (entries : List FileEntry) (startIndex : Nat) : Nat → Nat
  | 0 => 0
  | cutIndex + 1 =>
    if startIndex < cutIndex + 1 ∧ entries[cutIndex]?.any (fun previous =>
        !previous.isCompaction && (sessionEntryToContextMessages previous).isEmpty) then
      overMetadata entries startIndex cutIndex
    else cutIndex + 1

/-- `findCutPoint` -/
def findCutPoint (entries : List FileEntry) (startIndex endIndex : Nat)
    (keepRecentTokens : Int) : CutPointResult :=
  match findValidCutPoints entries startIndex endIndex with
  | [] => ⟨startIndex, none, false⟩
  | first :: others =>
    let atBudget :=
      match budgetIndex entries startIndex keepRecentTokens (endIndex - startIndex) 0 with
      | some i => ((first :: others).find? (i ≤ ·)).getD first
      | none => first
    let cutIndex := overMetadata entries startIndex atBudget
    let startsTurn := entries[cutIndex]?.any isTurnStartEntry
    let turnStartIndex :=
      if startsTurn then none else findTurnStartIndex entries cutIndex startIndex
    ⟨cutIndex, turnStartIndex, !startsTurn && turnStartIndex.isSome⟩

/-! ## Preparation -/

/-- `getMessageFromEntryForCompaction` -/
def getMessageFromEntryForCompaction (entry : FileEntry) : Option AgentMessage :=
  if entry.isCompaction then none else (sessionEntryToContextMessages entry).head?

/-- The files read, written and edited; each a set in insertion order. -/
structure FileOperations where
  read : List JsString
  written : List JsString
  edited : List JsString
  deriving DecidableEq

/-- `set.add(path)` -/
def addPath (paths : List JsString) (path : JsString) : List JsString :=
  if path ∈ paths then paths else paths ++ [path]

/-- `extractFileOpsFromMessage`: the paths of `read`, `write` and `edit` calls. -/
def extractFileOpsFromMessage (fileOps : FileOperations) (message : AgentMessage) :
    FileOperations :=
  match message with
  | .stored m =>
    if message.role = .assistant then
      (((m.get? (js "content")).bind JsValue.items?).getD []).foldl (fun fileOps block =>
        if block.strField? (js "type") = some (js "toolCall") then
          match ((block.get? (js "arguments")).bind (·.strField? (js "path"))).filter (· ≠ []) with
          | some path =>
            let name := block.strField? (js "name")
            if name = some (js "read") then { fileOps with read := addPath fileOps.read path }
            else if name = some (js "write") then
              { fileOps with written := addPath fileOps.written path }
            else if name = some (js "edit") then
              { fileOps with edited := addPath fileOps.edited path }
            else fileOps
          | none => fileOps
        else fileOps) fileOps
    else fileOps
  | _ => fileOps

/-- The file operations that the previous compaction recorded, if it is ours. -/
def previousFileOps (previous : Option FileEntry) : FileOperations :=
  match previous.bind (·.body?) with
  | some (.compaction _ _ _ (some details) _ fromHook) =>
    if fromHook = some true then ⟨[], [], []⟩
    else
      let paths (key : String) : List JsString :=
        (((details.get? (js key)).bind JsValue.items?).getD []).filterMap JsValue.str?
      ⟨(paths "readFiles").foldl addPath [], [], (paths "modifiedFiles").foldl addPath []⟩
  | _ => ⟨[], [], []⟩

structure CompactionPreparation where
  firstKeptEntryId : JsString
  messagesToSummarize : List AgentMessage
  turnPrefixMessages : List AgentMessage
  isSplitTurn : Bool
  tokensBefore : Nat
  previousSummary : Option JsString
  fileOps : FileOperations
  sessionMemory : Option JsString
  settings : CompactionSettings

/-- The index of the latest compaction. -/
def prevCompactionIndex? (pathEntries : List FileEntry) : Option Nat :=
  (pathEntries.reverse.findIdx? (·.isCompaction)).map (pathEntries.length - 1 - ·)

/-- Where the entries not yet summarized begin. -/
def boundaryStart (pathEntries : List FileEntry) : Nat :=
  match prevCompactionIndex? pathEntries with
  | none => 0
  | some index =>
    let firstKept := pathEntries[index]?.bind fun previous =>
      pathEntries.findIdx? (·.id = previous.firstKeptEntryId)
    firstKept.getD (index + 1)

/-- The messages of the entries from one index to another, compactions left out. -/
def messagesBetween (entries : List FileEntry) (startIndex endIndex : Nat) : List AgentMessage :=
  ((entries.take endIndex).drop startIndex).filterMap getMessageFromEntryForCompaction

/-- `prepareCompaction`; `some none` for `undefined`, `none` where the walk of
`buildSessionContext` does not return. -/
def prepareCompaction (pathEntries : List FileEntry) (settings : CompactionSettings) :
    Option (Option CompactionPreparation) :=
  if pathEntries.getLast?.any (·.isCompaction) then some none
  else
    (buildSessionContext pathEntries none none memoryContextMaxTokens none).map fun context =>
      let previous := (prevCompactionIndex? pathEntries).bind (pathEntries[·]?)
      let start := boundaryStart pathEntries
      let cutPoint := findCutPoint pathEntries start pathEntries.length settings.keepRecentTokens
      match (pathEntries[cutPoint.firstKeptEntryIndex]?.map (·.id)).filter (· ≠ []) with
      | none => none
      | some firstKeptEntryId =>
        let historyEnd :=
          if cutPoint.isSplitTurn then cutPoint.turnStartIndex.getD 0
          else cutPoint.firstKeptEntryIndex
        let messagesToSummarize := messagesBetween pathEntries start historyEnd
        let turnPrefixMessages :=
          if cutPoint.isSplitTurn then
            messagesBetween pathEntries historyEnd cutPoint.firstKeptEntryIndex
          else []
        if messagesToSummarize = [] ∧ turnPrefixMessages = [] then none
        else
          let memoryMessage := buildMemoryContextMessage pathEntries deterministicMemoryMaxTokens
          some {
            firstKeptEntryId := firstKeptEntryId
            messagesToSummarize := messagesToSummarize
            turnPrefixMessages := turnPrefixMessages
            isSplitTurn := cutPoint.isSplitTurn
            tokensBefore := estimateContextTokens context.messages
            previousSummary := previous.map (·.strD "summary")
            fileOps := (messagesToSummarize ++ turnPrefixMessages).foldl extractFileOpsFromMessage
              (previousFileOps previous)
            sessionMemory := memoryMessage.bind fun message =>
              match message with
              | .custom _ content .. => content.str?
              | _ => none
            settings := settings }

end PiMono
