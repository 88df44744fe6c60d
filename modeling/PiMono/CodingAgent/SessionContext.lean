import PiMono.CodingAgent.SessionManager

/-!
# The context of a session

`session-manager.ts:332-554` and the message constructors of `core/messages.ts`:
the path to a leaf, the entries of it that a compaction keeps, and the messages
the model is sent. `entries` never holds a header here.
-/

namespace PiMono

/-- The roles of an agent message. -/
inductive Role where
  | user
  | assistant
  | toolResult
  | bashExecution
  | custom
  | branchSummary
  | compactionSummary
  /-- No role, or one the code does not know. -/
  | other
  deriving DecidableEq, Repr

/-- The role a string names. -/
def Role.ofText (s : Option JsString) : Role :=
  if s = some (js "user") then .user
  else if s = some (js "assistant") then .assistant
  else if s = some (js "toolResult") then .toolResult
  else if s = some (js "bashExecution") then .bashExecution
  else if s = some (js "custom") then .custom
  else if s = some (js "branchSummary") then .branchSummary
  else if s = some (js "compactionSummary") then .compactionSummary
  else .other

/-- A message of the context: one that an entry stores, or one that is made of an
entry. The time `new Date(timestamp).getTime()` of the latter is kept as the text
it is read from. -/
inductive AgentMessage where
  | stored (message : JsValue)
  | custom (customType : JsString) (content : JsValue) (display : Bool) (details : Option JsValue)
    (timestamp : JsString)
  | branchSummary (summary fromId timestamp : JsString)
  | compactionSummary (summary : JsString) (tokensBefore : JsNumber) (timestamp : JsString)
  deriving DecidableEq

namespace AgentMessage

/-- `message.role` -/
def role : AgentMessage → Role
  | stored message => .ofText (message.strField? (js "role"))
  | custom .. => .custom
  | branchSummary .. => .branchSummary
  | compactionSummary .. => .compactionSummary

/-- `message.customType` -/
def customType? : AgentMessage → Option JsString
  | stored message => message.strField? (js "customType")
  | custom customType .. => some customType
  | _ => none

end AgentMessage

/-- `value == null` -/
def isNullish (v : Option JsValue) : Bool :=
  match v with
  | none => true
  | some v => v = .null

/-- `sessionEntryToContextMessages`: at most one message an entry. -/
def sessionEntryToContextMessages (entry : FileEntry) : List AgentMessage :=
  match entry.body? with
  | some (.message message) =>
    if (AgentMessage.stored message).role ∈ [.user, .assistant, .toolResult] ∧
        isNullish (message.get? (js "content")) then
      [.stored (message.set (js "content") (.arr []))]
    else [.stored message]
  | some (.customMessage customType content display details) =>
    let content := if isNullish content then .arr [] else content.getD .null
    [.custom customType content display details entry.timestamp]
  | some (.branchSummary fromId summary ..) =>
    if summary ≠ [] then [.branchSummary summary fromId entry.timestamp] else []
  | some (.compaction summary _ tokensBefore ..) =>
    [.compactionSummary summary tokensBefore entry.timestamp]
  | _ => []

/-- `entry.type === "compaction"` -/
def FileEntry.isCompaction (e : FileEntry) : Bool := e.type = some (js "compaction")

/-- `entry.firstKeptEntryId` -/
def FileEntry.firstKeptEntryId (e : FileEntry) : JsString := e.strD "firstKeptEntryId"

@[simp] theorem FileEntry.create_isCompaction (i : JsString) (p : Option JsString) (t : JsString)
    (b : EntryBody) : (create i p t b).isCompaction = decide (b.type = "compaction") := by
  simp [isCompaction]

@[simp] theorem FileEntry.create_firstKeptEntryId (i : JsString) (p : Option JsString)
    (t summary kept : JsString) (tokens : JsNumber) (details usage : Option JsValue)
    (fromHook : Option Bool) :
    (create i p t (.compaction summary kept tokens details usage fromHook)).firstKeptEntryId
      = kept := by
  simp [firstKeptEntryId, strD, JsValue.strField?, create_get?, EntryBody.fields]

/-- `getLatestCompactionEntry` -/
def getLatestCompactionEntry (entries : List FileEntry) : Option FileEntry :=
  entries.reverse.find? (·.isCompaction)

/-- `buildSessionPath`. `leafId` is `undefined`, `null` or an id; `none` where
the walk does not return. -/
def buildSessionPath (entries : List FileEntry) (leafId : Option (Option JsString))
    (byId : Option (JsMap JsString FileEntry)) : Option (List FileEntry) :=
  let index := byId.getD (JsMap.index (·.id) entries)
  if leafId = some none then some []
  else
    let leaf := ((leafId.join.filter (· ≠ [])).bind index.get?).or entries.getLast?
    (walkUp index.get? FileEntry.parentLink (index.entries.length + 1) leaf).map List.reverse

/-- The model and the thinking level a path has set last. -/
structure ContextSettings where
  thinkingLevel : JsString
  model : Option (JsString × JsString)
  deriving DecidableEq

/-- One turn of the loop of `getSessionContextSettings`. -/
def ContextSettings.step (settings : ContextSettings) (entry : FileEntry) : ContextSettings :=
  match entry.body? with
  | some (.thinkingLevelChange thinkingLevel) => { settings with thinkingLevel := thinkingLevel }
  | some (.modelChange provider modelId) => { settings with model := some (provider, modelId) }
  | some (.message message) =>
    if (AgentMessage.stored message).role = .assistant then
      { settings with model := some ((message.strField? (js "provider")).getD [],
          (message.strField? (js "model")).getD []) }
    else settings
  | _ => settings

/-- `getSessionContextSettings` -/
def getSessionContextSettings (path : List FileEntry) : ContextSettings :=
  path.foldl ContextSettings.step ⟨js "off", none⟩

/-! ## Session memory -/

/-- `MEMORY_CONTEXT_MAX_TOKENS` -/
def memoryContextMaxTokens : Nat := 24000

/-- A section of the memory message. -/
structure MemorySection where
  kind : MemoryKind
  heading : String
  tokens : Nat
  chronological : Bool

/-- `MEMORY_SECTION_BUDGETS` -/
def memorySectionBudgets : List MemorySection :=
  [⟨.trace, "Session Trace", 8000, true⟩, ⟨.reflection, "Reflections", 4000, false⟩,
    ⟨.observation, "Observations", 12000, false⟩]

/-- A memory entry, as far as the memory message reads it. -/
structure MemoryEntry where
  id : JsString
  timestamp : JsString
  kind : MemoryKind
  content : JsString
  sourceEntryIds : List JsString
  supersedes : List JsString
  deriving DecidableEq

/-- The memory entry an entry is. -/
def FileEntry.memory? (e : FileEntry) : Option MemoryEntry :=
  match e.body? with
  | some (.memory kind content _ sourceEntryIds supersedes) =>
    some ⟨e.id, e.timestamp, kind, content, sourceEntryIds, supersedes⟩
  | _ => none

/-- The memories that are neither decisions to supersede nor superseded. -/
def activeMemories (memories : List MemoryEntry) : List MemoryEntry :=
  let superseded :=
    memories.flatMap fun m => if m.kind = .supersedes then m.supersedes else []
  memories.filter fun m => m.kind ≠ .supersedes ∧ m.id ∉ superseded

/-- `- [${entry.id}] ${entry.content}` -/
def memoryLine (m : MemoryEntry) : JsString := js "- [" ++ m.id ++ js "] " ++ m.content

/-- The lines of a section: the latest memories that fit the budget. A
chronological section stops at the first that does not fit, and keeps the order
of the session. -/
def pickMemories (sec : MemorySection) (headed : Bool) : Nat → List MemoryEntry →
    List JsString → List MemoryEntry → List MemoryEntry × List JsString
  | _, selected, lines, [] => (selected, lines)
  | remaining, selected, lines, m :: rest =>
    let line := memoryLine m
    let before :=
      if lines = [] then (if headed then 2 else 0) + (js "## " ++ js sec.heading ++ js "\n").length
      else 1
    if remaining < before + line.length then
      if sec.chronological then (selected, lines)
      else pickMemories sec headed remaining selected lines rest
    else
      pickMemories sec headed (remaining - (before + line.length)) (selected ++ [m])
        (if sec.chronological then line :: lines else lines ++ [line]) rest

/-- `texts.join(separator)` -/
def joinWith (separator : JsString) (texts : List JsString) : JsString :=
  (texts.intersperse separator).flatten

/-- The memories selected and the sections written, section by section. -/
def memorySections (active : List MemoryEntry) (maxTokens : Nat) :
    List MemorySection → List MemoryEntry × List JsString → List MemoryEntry × List JsString
  | [], acc => acc
  | sec :: rest, (selected, sections) =>
    let budget := maxTokens * sec.tokens * 4 / memoryContextMaxTokens
    let (picked, lines) := pickMemories sec (sections ≠ []) budget [] []
      (active.filter (·.kind = sec.kind)).reverse
    memorySections active maxTokens rest
      (selected ++ picked,
        if lines = [] then sections
        else sections ++ [js "## " ++ js sec.heading ++ js "\n" ++ joinWith (js "\n") lines])

/-- `buildMemoryContextMessage` -/
def buildMemoryContextMessage (path : List FileEntry) (maxTokens : Nat) : Option AgentMessage :=
  let memories := path.filterMap FileEntry.memory?
  let (selected, sections) :=
    memorySections (activeMemories memories) maxTokens memorySectionBudgets ([], [])
  selected.getLast?.map fun latest =>
    .custom (js "memory") (.str (joinWith (js "\n\n") sections)) false none latest.timestamp

/-! ## The context -/

/-- The entries from the first kept one on. -/
def keptFrom (firstKeptEntryId : JsString) (entries : List FileEntry) : List FileEntry :=
  entries.dropWhile (·.id ≠ firstKeptEntryId)

/-- What the latest compaction leaves of a path: the compaction itself, the
entries before it from the first kept one on, and all that follow it. -/
def compactPath (path : List FileEntry) : List FileEntry :=
  match getLatestCompactionEntry path with
  | none => path
  | some compaction =>
    match path.findIdx? (·.id = compaction.id) with
    | none => path
    | some compactionIdx =>
      compaction :: (keptFrom compaction.firstKeptEntryId (path.take compactionIdx)
        ++ path.drop (compactionIdx + 1))

/-- `buildContextEntries` -/
def buildContextEntries (entries : List FileEntry) (leafId : Option (Option JsString))
    (byId : Option (JsMap JsString FileEntry)) : Option (List FileEntry) :=
  (buildSessionPath entries leafId byId).map compactPath

/-- `messages.splice(index, 0, message)` -/
def insertAt (messages : List AgentMessage) (index : Nat) (message : AgentMessage) :
    List AgentMessage :=
  messages.take index ++ message :: messages.drop index

structure ProjectMemoryContext where
  content : JsString
  timestamp : JsString

structure SessionContext where
  messages : List AgentMessage
  thinkingLevel : JsString
  model : Option (JsString × JsString)
  deriving DecidableEq

/-- The project memory and the session memory go behind the compaction summary,
in front of everything else. -/
def withMemory (messages : List AgentMessage) (memoryMessage : Option AgentMessage)
    (projectMemoryContext : Option ProjectMemoryContext) : List AgentMessage :=
  let behindCompaction :=
    ((messages.findIdx? (·.role = .compactionSummary)).map (· + 1)).getD 0
  let messages :=
    match projectMemoryContext with
    | some context => insertAt messages behindCompaction
        (.custom (js "project-memory") (.str context.content) false none context.timestamp)
    | none => messages
  match memoryMessage with
  | some memoryMessage =>
    let insertionIndex := messages.findIdx? fun message =>
      message.role = .custom ∧ message.customType? = some (js "project-memory")
    insertAt messages ((insertionIndex.map (· + 1)).getD behindCompaction) memoryMessage
  | none => messages

/-- The context of a path. -/
def pathContext (path : List FileEntry) (memoryTokenBudget : Nat)
    (projectMemoryContext : Option ProjectMemoryContext) : SessionContext :=
  let settings := getSessionContextSettings path
  { messages := withMemory ((compactPath path).flatMap sessionEntryToContextMessages)
      (buildMemoryContextMessage path memoryTokenBudget) projectMemoryContext
    thinkingLevel := settings.thinkingLevel
    model := settings.model }

/-- `buildSessionContext`; without a budget of its own it is
`memoryContextMaxTokens`. -/
def buildSessionContext (entries : List FileEntry) (leafId : Option (Option JsString))
    (byId : Option (JsMap JsString FileEntry)) (memoryTokenBudget : Nat)
    (projectMemoryContext : Option ProjectMemoryContext) : Option SessionContext :=
  (buildSessionPath entries leafId byId).map fun path =>
    pathContext path memoryTokenBudget projectMemoryContext

/-- `SessionManager.buildSessionContext` -/
def SessionManager.buildSessionContext (m : SessionManager) (memoryTokenBudget : Nat)
    (projectMemoryContext : Option ProjectMemoryContext) : Option SessionContext :=
  PiMono.buildSessionContext m.getEntries (some m.leafId) (some m.byId) memoryTokenBudget
    projectMemoryContext

end PiMono
