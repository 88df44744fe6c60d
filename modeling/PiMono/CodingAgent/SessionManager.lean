import PiMono.CodingAgent.SessionFile
import PiMono.Lib.ParentWalk

/-!
# The session manager

`session-manager.ts:926-1629`: the in-memory tree, its indexes, the leaf, and the
file behind them. A `World` is a manager and the disk. An operation takes the
`Draws` it makes (the clock and the UUIDs) and gives the next world, or says how
it failed: what it threw before changing anything, the exclusive open that found
a file, or a walk over cyclic parent links that does not return.
-/

namespace PiMono

/-- How an operation fails. -/
inductive SessionError where
  /-- An `Error` thrown before anything is changed. -/
  | thrown (message : JsString)
  /-- A `TypeError` of the runtime, before anything is written. -/
  | typeError
  /-- `openSync(path, "wx")` on a file that exists. -/
  | fileExists (path : JsString)
  /-- The parent links form a cycle, and the walk along them never ends. -/
  | noReturn
  deriving DecidableEq

/-- What an operation reads from outside: the clock, the UUID for a session, and
the UUIDs that the `k`-th call of `generateId` tries. -/
structure Draws where
  now : JsString
  sessionId : Uuid
  uuids : Nat → Nat → Uuid

/-- `SessionManager` -/
structure SessionManager where
  sessionId : JsString
  sessionFile : Option JsString
  sessionDir : JsString
  cwd : JsString
  persist : Bool
  flushed : Bool
  fileEntries : List FileEntry
  byId : JsMap JsString FileEntry
  labelsById : JsMap JsString JsString
  labelTimestampsById : JsMap JsString JsString
  leafId : Option JsString

/-- A manager and the disk it writes to. -/
structure World where
  manager : SessionManager
  disk : Disk

namespace FileEntry

/-- `entry.type === "label"` -/
def isLabel (e : FileEntry) : Bool := e.type = some (js "label")

/-- `current.parentId ? … : undefined`: an empty id is no link. -/
def parentLink (e : FileEntry) : Option JsString := e.parentId.filter (· ≠ [])

end FileEntry

/-- `/^[A-Za-z0-9](?:[A-Za-z0-9._-]*[A-Za-z0-9])?$/` -/
def isValidSessionId (id : JsString) : Bool :=
  let alphanumeric (u : UInt16) : Bool :=
    (0x30 ≤ u && u ≤ 0x39) || (0x41 ≤ u && u ≤ 0x5A) || (0x61 ≤ u && u ≤ 0x7A)
  id.head?.any alphanumeric && id.getLast?.any alphanumeric &&
    id.all fun u => alphanumeric u || u == 0x2E || u == 0x5F || u == 0x2D

/-- What `assertValidSessionId` throws. -/
def invalidSessionId : SessionError :=
  .thrown (js "Session id must be non-empty, contain only alphanumeric characters, '-', '_', and '.', and start and end with an alphanumeric character")

/-- `${timestamp.replace(/[:.]/g, "-")}_${sessionId}.jsonl`, in the session directory. -/
def sessionPath (sessionDir timestamp sessionId : JsString) : JsString :=
  sessionDir ++ js "/" ++ timestamp.map (fun u => if u = 0x3A ∨ u = 0x2E then 0x2D else u)
    ++ js "_" ++ sessionId ++ js ".jsonl"

/-- `name.replace(/[\r\n]+/g, " ")` -/
def joinLines : Bool → JsString → JsString
  | _, [] => []
  | inBreak, u :: us =>
    if u = 0x0A ∨ u = 0x0D then (if inBreak then [] else [0x20]) ++ joinLines true us
    else u :: joinLines false us

namespace Disk

/-- `appendFileSync` -/
def appendFile (disk : Disk) (path : JsString) (text : JsString) : Disk :=
  disk.set path ((disk.get? path).getD [] ++ encodeUtf8 text)

end Disk

namespace SessionManager

/-- The fields a persisted manager is constructed with. -/
def blank (cwd sessionDir : JsString) : SessionManager where
  sessionId := []
  sessionFile := none
  sessionDir := sessionDir
  cwd := cwd
  persist := true
  flushed := false
  fileEntries := []
  byId := .empty
  labelsById := .empty
  labelTimestampsById := .empty
  leafId := none

/-- `getEntries` -/
def getEntries (m : SessionManager) : List FileEntry := m.fileEntries.filter (!·.isHeader)

/-- `fileEntries.some((e) => e.type === "message" && e.message.role === "assistant")` -/
def hasAssistant (m : SessionManager) : Bool := m.fileEntries.any (·.isAssistant)

/-- The label maps after a label entry: an empty label clears. -/
def setLabel (m : SessionManager) (targetId : JsString) (label : Option JsString)
    (timestamp : JsString) : SessionManager :=
  match label.filter (· ≠ []) with
  | some label =>
    { m with
      labelsById := m.labelsById.set targetId label
      labelTimestampsById := m.labelTimestampsById.set targetId timestamp }
  | none =>
    { m with
      labelsById := m.labelsById.delete targetId
      labelTimestampsById := m.labelTimestampsById.delete targetId }

/-- The first half of `_appendEntry`. -/
def pushEntry (m : SessionManager) (entry : FileEntry) : SessionManager :=
  { m with
    fileEntries := m.fileEntries ++ [entry]
    byId := m.byId.set entry.id entry
    leafId := some entry.id }

/-- One turn of the loop of `_buildIndex`. -/
def indexEntry (m : SessionManager) (entry : FileEntry) : SessionManager :=
  if entry.isHeader then m
  else
    let m := { m with byId := m.byId.set entry.id entry, leafId := some entry.id }
    match entry.body? with
    | some (.label targetId label) => m.setLabel targetId label entry.timestamp
    | _ => m

/-- `_buildIndex` -/
def buildIndex (m : SessionManager) : SessionManager :=
  m.fileEntries.foldl indexEntry
    { m with byId := .empty, labelsById := .empty, labelTimestampsById := .empty, leafId := none }

/-- `newSession` -/
def newSession (m : SessionManager) (d : Draws) (id parentSession : Option JsString) :
    Except SessionError SessionManager :=
  if id.all isValidSessionId then
    let sessionId := id.getD d.sessionId.text
    .ok { m with
      sessionId := sessionId
      fileEntries := [.header sessionId d.now m.cwd parentSession]
      byId := .empty
      labelsById := .empty
      labelTimestampsById := .empty
      leafId := none
      flushed := false
      sessionFile :=
        if m.persist then some (sessionPath m.sessionDir d.now sessionId) else m.sessionFile }
  else
    .error invalidSessionId

/-- `getBranch`; `none` where it does not return. -/
def getBranch (m : SessionManager) (fromId : Option JsString) : Option (List FileEntry) :=
  let startId := (fromId.or m.leafId).filter (· ≠ [])
  (walkUp m.byId.get? FileEntry.parentLink m.byId.entries.length
    (startId.bind m.byId.get?)).map List.reverse

/-- The entries of a path but its labels, chained again. -/
def rechain : Option JsString → List FileEntry → List FileEntry
  | _, [] => []
  | parentId, entry :: path =>
    if entry.isLabel then rechain parentId path
    else entry.withParent parentId :: rechain (some entry.id) path

/-- The labels of entries of the branch, in map order, with their timestamps. -/
def labelsToWrite (m : SessionManager) (pathEntryIds : List JsString) :
    List (JsString × JsString × JsString) :=
  (m.labelsById.entries.filter (·.1 ∈ pathEntryIds)).map fun (targetId, label) =>
    (targetId, label, (m.labelTimestampsById.get? targetId).getD [])

/-- The label entries `createBranchedSession` writes behind the branch. -/
def labelEntries (uuids : Nat → Nat → Uuid) : Nat → List JsString → Option JsString →
    List (JsString × JsString × JsString) → List FileEntry
  | _, _, _, [] => []
  | k, taken, parentId, (targetId, label, timestamp) :: rest =>
    let id := generateId (· ∈ taken) (uuids k)
    .create id parentId timestamp (.label targetId (some label)) ::
      labelEntries uuids (k + 1) (taken ++ [id]) (some id) rest

/-- What `createBranchedSession` makes of a path: its entries without labels, and
the labels that are still set, behind them. -/
def branchedEntries (m : SessionManager) (d : Draws) (path : List FileEntry) : List FileEntry :=
  let pathWithoutLabels := rechain none path
  let pathEntryIds := pathWithoutLabels.map (·.id)
  let lastEntryId := (pathEntryIds.getLast?).filter (· ≠ [])
  pathWithoutLabels
    ++ labelEntries d.uuids 0 pathEntryIds lastEntryId (m.labelsToWrite pathEntryIds)

/-- The manager `createBranchedSession` leaves, before it looks at the file. -/
def branched (m : SessionManager) (d : Draws) (path : List FileEntry) : SessionManager :=
  let parentSession := if m.persist then m.sessionFile else none
  let header := FileEntry.header d.sessionId.text d.now m.cwd parentSession
  buildIndex { m with
    fileEntries := header :: m.branchedEntries d path
    sessionId := d.sessionId.text
    sessionFile :=
      if m.persist then some (sessionPath m.sessionDir d.now d.sessionId.text) else m.sessionFile }

end SessionManager

namespace World

/-- `_rewriteFile` -/
def rewriteFile (w : World) : World :=
  match w.manager.persist, w.manager.sessionFile with
  | true, some path => { w with disk := w.disk.set path (encodeLines w.manager.fileEntries) }
  | _, _ => w

/-- `_persist`: nothing is written before the first assistant message, which
creates the file with every entry so far. -/
def persistEntry (w : World) (entry : FileEntry) : Except SessionError World :=
  match w.manager.persist, w.manager.sessionFile with
  | true, some path =>
    if !w.manager.hasAssistant then
      if w.manager.flushed then .ok { w with disk := w.disk.appendFile path entry.line }
      else .ok { w with manager := { w.manager with flushed := false } }
    else if !w.manager.flushed then
      if w.disk.has path then .error (.fileExists path)
      else .ok {
        manager := { w.manager with flushed := true }
        disk := w.disk.set path (encodeLines w.manager.fileEntries) }
    else .ok { w with disk := w.disk.appendFile path entry.line }
  | _, _ => .ok w

/-- `_appendEntry` -/
def appendEntry (w : World) (entry : FileEntry) : Except SessionError World :=
  { w with manager := w.manager.pushEntry entry : World }.persistEntry entry

/-- The id the next append draws. -/
def nextId (w : World) (d : Draws) : JsString := generateId w.manager.byId.has (d.uuids 0)

/-- What every append method does with the fields of its entry. -/
def appendBody (w : World) (d : Draws) (body : EntryBody) : Except SessionError World :=
  w.appendEntry (.create (w.nextId d) w.manager.leafId d.now body)

def appendMessage (w : World) (d : Draws) (message : JsValue) : Except SessionError World :=
  w.appendBody d (.message message)

def appendThinkingLevelChange (w : World) (d : Draws) (thinkingLevel : JsString) :
    Except SessionError World :=
  w.appendBody d (.thinkingLevelChange thinkingLevel)

def appendModelChange (w : World) (d : Draws) (provider modelId : JsString) :
    Except SessionError World :=
  w.appendBody d (.modelChange provider modelId)

def appendCompaction (w : World) (d : Draws) (summary firstKeptEntryId : JsString)
    (tokensBefore : JsNumber) (details : Option JsValue) (fromHook : Option Bool)
    (usage : Option JsValue) : Except SessionError World :=
  w.appendBody d (.compaction summary firstKeptEntryId tokensBefore details usage fromHook)

def appendMemory (w : World) (d : Draws) (kind : MemoryKind) (content : JsString)
    (sourceEntryIds supersedes : List JsString) (projectKind : Option ProjectKind) :
    Except SessionError World :=
  w.appendBody d (.memory kind content projectKind sourceEntryIds supersedes)

def appendCustomEntry (w : World) (d : Draws) (customType : JsString) (data : Option JsValue) :
    Except SessionError World :=
  w.appendBody d (.custom customType data)

def appendSessionInfo (w : World) (d : Draws) (name : JsString) : Except SessionError World :=
  w.appendBody d (.sessionInfo (some (trim (joinLines false name))))

def appendCustomMessageEntry (w : World) (d : Draws) (customType : JsString) (content : JsValue)
    (display : Bool) (details : Option JsValue) : Except SessionError World :=
  w.appendBody d (.customMessage customType (some content) display details)

/-- `Entry ${id} not found` -/
def entryNotFound (id : JsString) : SessionError :=
  .thrown (js "Entry " ++ id ++ js " not found")

/-- `appendLabelChange` -/
def appendLabelChange (w : World) (d : Draws) (targetId : JsString) (label : Option JsString) :
    Except SessionError World :=
  if w.manager.byId.has targetId then
    (w.appendBody d (.label targetId label)).map fun w =>
      { w with manager := w.manager.setLabel targetId label d.now }
  else .error (entryNotFound targetId)

/-- `branch` -/
def branch (w : World) (branchFromId : JsString) : Except SessionError World :=
  if w.manager.byId.has branchFromId then
    .ok { w with manager := { w.manager with leafId := some branchFromId } }
  else .error (entryNotFound branchFromId)

/-- `resetLeaf` -/
def resetLeaf (w : World) : World := { w with manager := { w.manager with leafId := none } }

/-- `branchWithSummary` -/
def branchWithSummary (w : World) (d : Draws) (branchFromId : Option JsString)
    (summary : JsString) (details : Option JsValue) (fromHook : Option Bool)
    (usage : Option JsValue) : Except SessionError World :=
  if branchFromId.all w.manager.byId.has then
    { w with manager := { w.manager with leafId := branchFromId } : World }.appendBody d
      (.branchSummary (branchFromId.getD (js "root")) summary details usage fromHook)
  else .error (entryNotFound (branchFromId.getD []))

/-- `newSession` -/
def newSession (w : World) (d : Draws) (id parentSession : Option JsString) :
    Except SessionError World :=
  (w.manager.newSession d id parentSession).map fun m => { w with manager := m }

/-- `createBranchedSession` -/
def createBranchedSession (w : World) (d : Draws) (leafId : JsString) :
    Except SessionError World :=
  match w.manager.getBranch (some leafId) with
  | none => .error .noReturn
  | some [] => .error (entryNotFound leafId)
  | some path =>
    let w' : World := { w with manager := w.manager.branched d path }
    if !w.manager.persist then .ok w'
    else if w'.manager.hasAssistant then
      .ok { w'.rewriteFile with manager := { w'.manager with flushed := true } }
    else .ok { w' with manager := { w'.manager with flushed := false } }

/-- `SessionManager.create`: a new session in a directory. -/
def create (disk : Disk) (d : Draws) (cwd sessionDir : JsString)
    (id parentSession : Option JsString) :
    Except SessionError World :=
  World.newSession ⟨.blank cwd sessionDir, disk⟩ d id parentSession

/-- The version cannot be compared, or `migrateV1ToV2` sets fields of a string, a number or
a boolean. -/
def migrationThrows (entries : List FileEntry) : Bool :=
  versionThrows entries || (sessionVersion? entries).any (· < 2) &&
    entries.any fun e => !e.isHeader && !e.raw.isObject && e.raw.items?.isNone

/-- `_setSessionFile`: load a file, migrate it, rewrite it if that changed it, and
index it. `uuids` are the UUIDs of the migration. -/
def setSessionFile (w : World) (d : Draws) (path : JsString) : Except SessionError World :=
  match w.disk.get? path with
  | some bytes =>
    match loadEntries bytes with
    | [] =>
      if 0 < bytes.length then
        .error (.thrown (js "Session file is not a valid pi session: " ++ path))
      else (w.newSession d none none).map fun w =>
        let w := { w with manager := { w.manager with sessionFile := some path } :
          World }.rewriteFile
        { w with manager := { w.manager with flushed := true } }
    | entries =>
      if migrationThrows entries then .error .typeError
      else
      let header := entries.find? (·.isHeader)
      let (migrated, changed) := migrateToCurrentVersion d.uuids entries
      let w : World := { w with manager := { w.manager with
        sessionFile := some path
        sessionId := (header.map (·.id)).getD d.sessionId.text
        fileEntries := migrated } }
      let w := if changed then w.rewriteFile else w
      .ok { w with manager := { w.manager.buildIndex with flushed := true } }
  | none =>
    (w.newSession d none none).map fun w =>
      { w with manager := { w.manager with sessionFile := some path } }

/-- `SessionManager.open` with the working directory and the session directory
already worked out. -/
def openFile (disk : Disk) (d : Draws) (cwd sessionDir path : JsString) :
    Except SessionError World :=
  setSessionFile ⟨.blank cwd sessionDir, disk⟩ d path

end World

end PiMono
