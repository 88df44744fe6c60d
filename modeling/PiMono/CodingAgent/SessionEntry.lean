import PiMono.Lib.Json

/-!
# The lines of a session file

`packages/coding-agent/src/core/session-manager.ts:29-172`. A line is the object
`JSON.parse` returned or an append method built; files are parsed without
validation, so a `FileEntry` is that object, and its fields are read where the
code reads them. `FileEntry.create` is the object the append methods build, and
the lemmas at the end read it back.
-/

namespace PiMono

/-- `CURRENT_SESSION_VERSION` -/
def currentSessionVersion : Nat := 3

/-- What a memory entry records. -/
inductive MemoryKind where
  | observation
  | reflection
  | trace
  | supersedes
  deriving DecidableEq, Repr

/-- What a memory says about the project. -/
inductive ProjectKind where
  | convention
  | decision
  | failure
  | procedure
  deriving DecidableEq, Repr

namespace MemoryKind

def text : MemoryKind → String
  | observation => "observation"
  | reflection => "reflection"
  | trace => "trace"
  | supersedes => "supersedes"

def ofText? (s : JsString) : Option MemoryKind :=
  [observation, reflection, trace, supersedes].find? fun k => js k.text = s

@[simp] theorem ofText?_text (k : MemoryKind) : ofText? (js k.text) = some k := by
  cases k <;> simp [ofText?, text]

end MemoryKind

namespace ProjectKind

def text : ProjectKind → String
  | convention => "convention"
  | decision => "decision"
  | failure => "failure"
  | procedure => "procedure"

def ofText? (s : JsString) : Option ProjectKind :=
  [convention, decision, failure, procedure].find? fun k => js k.text = s

@[simp] theorem ofText?_text (k : ProjectKind) : ofText? (js k.text) = some k := by
  cases k <;> simp [ofText?, text]

end ProjectKind

/-- What an entry records: the fields beyond `type`, `id`, `parentId` and
`timestamp`, for each of the ten entry types. -/
inductive EntryBody where
  | message (message : JsValue)
  | thinkingLevelChange (thinkingLevel : JsString)
  | modelChange (provider modelId : JsString)
  | compaction (summary firstKeptEntryId : JsString) (tokensBefore : JsNumber)
    (details usage : Option JsValue) (fromHook : Option Bool)
  | branchSummary (fromId summary : JsString) (details usage : Option JsValue)
    (fromHook : Option Bool)
  | memory (kind : MemoryKind) (content : JsString) (projectKind : Option ProjectKind)
    (sourceEntryIds supersedes : List JsString)
  | custom (customType : JsString) (data : Option JsValue)
  | customMessage (customType : JsString) (content : Option JsValue) (display : Bool)
    (details : Option JsValue)
  | label (targetId : JsString) (label : Option JsString)
  | sessionInfo (name : Option JsString)
  deriving DecidableEq

namespace EntryBody

/-- `entry.type` -/
def type : EntryBody → String
  | message _ => "message"
  | thinkingLevelChange _ => "thinking_level_change"
  | modelChange .. => "model_change"
  | compaction .. => "compaction"
  | branchSummary .. => "branch_summary"
  | memory .. => "memory"
  | custom .. => "custom"
  | customMessage .. => "custom_message"
  | label .. => "label"
  | sessionInfo _ => "session_info"

/-- The fields of the type, in the order the append methods write them. -/
def fields : EntryBody → List (JsString × JsValue)
  | message m => [(js "message", m)]
  | thinkingLevelChange level => [(js "thinkingLevel", .str level)]
  | modelChange provider modelId => [(js "provider", .str provider), (js "modelId", .str modelId)]
  | compaction summary firstKeptEntryId tokensBefore details usage fromHook =>
    [(js "summary", .str summary), (js "firstKeptEntryId", .str firstKeptEntryId),
      (js "tokensBefore", .num tokensBefore)]
      ++ JsValue.optField (js "details") details id
      ++ JsValue.optField (js "usage") usage id
      ++ JsValue.optField (js "fromHook") fromHook .bool
  | branchSummary fromId summary details usage fromHook =>
    [(js "fromId", .str fromId), (js "summary", .str summary)]
      ++ JsValue.optField (js "details") details id
      ++ JsValue.optField (js "usage") usage id
      ++ JsValue.optField (js "fromHook") fromHook .bool
  | memory kind content projectKind sourceEntryIds supersedes =>
    [(js "kind", .str (js kind.text)), (js "content", .str content)]
      ++ JsValue.optField (js "projectKind") projectKind (fun k => .str (js k.text))
      ++ [(js "sourceEntryIds", .arr (sourceEntryIds.map .str)),
        (js "supersedes", .arr (supersedes.map .str))]
  | custom customType data =>
    (js "customType", .str customType) :: JsValue.optField (js "data") data id
  | customMessage customType content display details =>
    (js "customType", .str customType) :: JsValue.optField (js "content") content id
      ++ (js "display", .bool display) :: JsValue.optField (js "details") details id
  | label targetId text =>
    (js "targetId", .str targetId) :: JsValue.optField (js "label") text .str
  | sessionInfo name => JsValue.optField (js "name") name .str

end EntryBody

/-- A line of a session file: the header, or an entry. -/
structure FileEntry where
  raw : JsValue
  deriving DecidableEq

namespace FileEntry

/-- A string field; one that is missing reads as `""`, which is as falsy. -/
def strD (e : FileEntry) (key : String) : JsString := (e.raw.strField? (js key)).getD []

def strs (e : FileEntry) (key : String) : List JsString :=
  (((e.raw.get? (js key)).bind JsValue.items?).getD []).filterMap JsValue.str?

/-- `entry.type` -/
def type (e : FileEntry) : Option JsString := e.raw.strField? (js "type")

/-- `entry.type === "session"` -/
def isHeader (e : FileEntry) : Bool := e.type = some (js "session")

/-- `entry.id` -/
def id (e : FileEntry) : JsString := e.strD "id"

/-- `entry.parentId`, `null` for a root. -/
def parentId (e : FileEntry) : Option JsString := e.raw.strField? (js "parentId")

/-- `entry.timestamp` -/
def timestamp (e : FileEntry) : JsString := e.strD "timestamp"

/-- The fields of an entry, by its type; `none` for the header and for lines of
another type. -/
def body? (e : FileEntry) : Option EntryBody :=
  match e.type with
  | none => none
  | some t =>
    if t = js "message" then some (.message ((e.raw.get? (js "message")).getD .null))
    else if t = js "thinking_level_change" then
      some (.thinkingLevelChange (e.strD "thinkingLevel"))
    else if t = js "model_change" then some (.modelChange (e.strD "provider") (e.strD "modelId"))
    else if t = js "compaction" then
      some (.compaction (e.strD "summary") (e.strD "firstKeptEntryId")
        (((e.raw.get? (js "tokensBefore")).bind JsValue.num?).getD (.ofNat 0))
        (e.raw.get? (js "details")) (e.raw.get? (js "usage"))
        ((e.raw.get? (js "fromHook")).bind JsValue.bool?))
    else if t = js "branch_summary" then
      some (.branchSummary (e.strD "fromId") (e.strD "summary") (e.raw.get? (js "details"))
        (e.raw.get? (js "usage")) ((e.raw.get? (js "fromHook")).bind JsValue.bool?))
    else if t = js "memory" then
      (MemoryKind.ofText? (e.strD "kind")).map fun kind =>
        .memory kind (e.strD "content")
          ((e.raw.strField? (js "projectKind")).bind ProjectKind.ofText?)
          (e.strs "sourceEntryIds") (e.strs "supersedes")
    else if t = js "custom" then some (.custom (e.strD "customType") (e.raw.get? (js "data")))
    else if t = js "custom_message" then
      some (.customMessage (e.strD "customType") (e.raw.get? (js "content"))
        (((e.raw.get? (js "display")).bind JsValue.bool?).getD false) (e.raw.get? (js "details")))
    else if t = js "label" then
      some (.label (e.strD "targetId") (e.raw.strField? (js "label")))
    else if t = js "session_info" then some (.sessionInfo (e.raw.strField? (js "name")))
    else none

/-- `entry.message.role` of a message entry. -/
def messageRole? (e : FileEntry) : Option JsString :=
  match e.body? with
  | some (.message m) => m.strField? (js "role")
  | _ => none

/-- `e.type === "message" && e.message.role === "assistant"` -/
def isAssistant (e : FileEntry) : Bool := e.messageRole? = some (js "assistant")

/-- The object an append method builds. -/
def create (id : JsString) (parentId : Option JsString) (timestamp : JsString)
    (body : EntryBody) : FileEntry :=
  let base : List (JsString × JsValue) :=
    [(js "id", .str id), (js "parentId", parentId.elim .null .str),
      (js "timestamp", .str timestamp)]
  ⟨.object ((js "type", .str (js body.type)) ::
    match body with
    | .custom .. | .customMessage .. => body.fields ++ base
    | _ => base ++ body.fields)⟩

/-- The header of a session file. -/
def header (id timestamp cwd : JsString) (parentSession : Option JsString) : FileEntry :=
  ⟨.object ([(js "type", .str (js "session")), (js "version", .nat currentSessionVersion),
    (js "id", .str id), (js "timestamp", .str timestamp), (js "cwd", .str cwd)]
    ++ JsValue.optField (js "parentSession") parentSession .str)⟩

/-- `{ ...entry, parentId }` -/
def withParent (e : FileEntry) (parentId : Option JsString) : FileEntry :=
  ⟨e.raw.set (js "parentId") (parentId.elim .null .str)⟩

/-! ## Reading what was built -/

section Create

variable (i : JsString) (p : Option JsString) (t : JsString) (b : EntryBody)

theorem create_get? {key : String} (h : key ∉ ["id", "parentId", "timestamp", "type"]) :
    (create i p t b).raw.get? (js key) = JsValue.lastField? b.fields (js key) := by
  simp only [List.mem_cons, List.not_mem_nil, or_false, not_or] at h
  obtain ⟨h1, h2, h3, h4⟩ := h
  cases b <;> simp [create, Ne.symm h1, Ne.symm h2, Ne.symm h3, Ne.symm h4]

/-- The fields that every entry has are no fields of a body. -/
theorem create_get?_common {key : String} (h : key ∈ ["id", "parentId", "timestamp", "type"]) :
    (create i p t b).raw.get? (js key)
      = JsValue.lastField? [(js "type", .str (js b.type)), (js "id", .str i),
          (js "parentId", p.elim .null .str), (js "timestamp", .str t)] (js key) := by
  have hbody : JsValue.lastField? b.fields (js key) = none := by
    simp only [List.mem_cons, List.not_mem_nil, or_false] at h
    rcases h with rfl | rfl | rfl | rfl <;> cases b <;> simp [EntryBody.fields]
  cases b <;> simp [create, hbody]

@[simp] theorem create_type : (create i p t b).type = some (js b.type) := by
  rw [type, JsValue.strField?, create_get?_common i p t b (by decide)]
  simp

@[simp] theorem create_isHeader : (create i p t b).isHeader = false := by
  rw [isHeader, create_type]
  cases b <;> simp [EntryBody.type]

@[simp] theorem create_id : (create i p t b).id = i := by
  rw [FileEntry.id, strD, JsValue.strField?, create_get?_common i p t b (by decide)]
  simp

@[simp] theorem create_parentId : (create i p t b).parentId = p := by
  rw [parentId, JsValue.strField?, create_get?_common i p t b (by decide)]
  cases p <;> simp

@[simp] theorem create_timestamp : (create i p t b).timestamp = t := by
  rw [timestamp, strD, JsValue.strField?, create_get?_common i p t b (by decide)]
  simp

/-- What an append method writes is what is read. -/
@[simp] theorem create_body? : (create i p t b).body? = some b := by
  have hproject : ∀ o : Option ProjectKind,
      ((o.map fun k => JsValue.str (js k.text)).bind JsValue.str?).bind
        ProjectKind.ofText? = o := by
    intro o
    cases o <;> simp
  cases b <;>
    simp [body?, EntryBody.type, strD, strs, JsValue.strField?, create_get?, EntryBody.fields,
      hproject]

end Create

end FileEntry

end PiMono
