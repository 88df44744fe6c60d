import PiMono.Lib.Except
import PiMono.Lib.Utf8
import Mathlib.Data.List.Dedup
import Mathlib.Data.List.Sort

/-!
# Project memory

`ProjectMemoryDb` is the database of `project-memory.ts`: its three tables that are read
again, with the constraints the schema gives them. `addCandidate` is split into the
statements it runs: `lookupExact`, `lookupSimilar` and the transaction `commitCandidate`,
which `ProjectMemoryRace` interleaves. `promoteCandidate` is the body of the loop of
`_promoteProjectMemory` for the answers the user gives.

What is not in the repository stands in `MemoryEnv`: the lower case of the locale, the
letters and digits of Unicode, SHA-256, and the full text search of SQLite.
-/

namespace PiMono

/-- `ProjectMemoryKind` -/
inductive ProjectMemoryKind where
  | convention
  | decision
  | failure
  | procedure
  deriving DecidableEq, Repr

/-- `ProjectMemoryTier` -/
inductive ProjectMemoryTier where
  | candidate
  | archive
  | core
  | forgotten
  deriving DecidableEq, Repr

/-- `ProjectMemoryRecord` -/
structure ProjectMemoryRecord where
  id : JsString
  content : JsString
  kind : ProjectMemoryKind
  tier : ProjectMemoryTier
  createdAt : JsString
  lastConfirmedAt : JsString
  deriving DecidableEq

/-- `ProjectMemoryEvidence` -/
structure ProjectMemoryEvidence where
  sessionId : JsString
  entryId : JsString
  excerpt : JsString
  revision : Option JsString := none
  command : Option JsString := none
  exitCode : Option Int := none
  deriving DecidableEq

/-- A row of `records`: a record and its `normalized` content. -/
structure RecordRow where
  record : ProjectMemoryRecord
  normalized : JsString
  deriving DecidableEq

/-- A row of `evidence`. -/
structure EvidenceRow where
  recordId : JsString
  evidence : ProjectMemoryEvidence
  deriving DecidableEq

/-- The database. -/
structure ProjectMemoryDb where
  records : List RecordRow
  /-- `record_search`: the id and the content of every record. -/
  recordSearch : List (JsString × JsString)
  evidenceRows : List EvidenceRow
  /-- `id TEXT PRIMARY KEY` -/
  ids : (records.map (·.record.id)).Nodup
  /-- `normalized TEXT NOT NULL UNIQUE` -/
  normalizedUnique : (records.map (·.normalized)).Nodup

/-- What the program gets from elsewhere. -/
structure MemoryEnv where
  toLocaleLowerCase : JsString → JsString
  /-- `[\p{L}\p{N}]` -/
  isLetterOrNumber : Char → Bool
  /-- The hexadecimal digest of `createHash("sha256")`. -/
  sha256 : JsString → JsString
  /-- The ids of the rows that a query matches, in the order of `bm25`. -/
  matchRows : JsString → List (JsString × JsString) → List JsString

/-- What SQLite throws. -/
inductive SqliteError where
  | primaryKey
  | uniqueNormalized
  deriving DecidableEq, Repr

namespace ProjectMemoryDb

def empty : ProjectMemoryDb := ⟨[], [], [], List.nodup_nil, List.nodup_nil⟩

/-! ## Candidates -/

/-- `replace(/\s+/g, " ")`, behind a space or not. -/
def collapseSpaces : Bool → JsString → JsString
  | _, [] => []
  | behind, u :: us =>
    if isTrimmed u then (if behind then [] else [0x20]) ++ collapseSpaces true us
    else u :: collapseSpaces false us

/-- `normalize` -/
def normalize (env : MemoryEnv) (text : JsString) : JsString :=
  env.toLocaleLowerCase (collapseSpaces false (trim text))

/-- The runs of word characters of a text; `current` is the run being read. -/
def wordRuns (isWord : Char → Bool) (current : List Char) : List Char → List (List Char)
  | [] => if current = [] then [] else [current]
  | c :: cs =>
    if isWord c then wordRuns isWord (current ++ [c]) cs
    else (if current = [] then [] else [current]) ++ wordRuns isWord [] cs

/-- `searchQuery` -/
def searchQuery (env : MemoryEnv) (text : JsString) : Option JsString :=
  let isWord := fun c => env.isLetterOrNumber c || c == '_' || c == '-'
  let terms := (wordRuns isWord [] (scalars text)).take 12
  if terms = [] then none
  else some ((js " OR ").intercalate (terms.map fun term => [0x22] ++ term.flatMap utf16 ++ [0x22]))

/-- `SELECT … FROM records WHERE normalized = ?` -/
def lookupExact (db : ProjectMemoryDb) (normalized : JsString) : Option ProjectMemoryRecord :=
  (db.records.find? (·.normalized = normalized)).map (·.record)

/-- The candidate of an id. -/
def candidate? (db : ProjectMemoryDb) (id : JsString) : Option ProjectMemoryRecord :=
  (db.records.find? fun row => row.record.id = id ∧ row.record.tier = .candidate).map (·.record)

/-- `SELECT … WHERE record_search MATCH ? AND r.tier = 'candidate' ORDER BY bm25(record_search)
LIMIT 1` -/
def lookupSimilar (env : MemoryEnv) (db : ProjectMemoryDb) (query : JsString) :
    Option ProjectMemoryRecord :=
  ((env.matchRows query db.recordSearch).filterMap db.candidate?).head?

/-- The record that `addCandidate` makes when it found none. -/
def newRecord (env : MemoryEnv) (content : JsString) (kind : ProjectMemoryKind) (now : JsString) :
    ProjectMemoryRecord where
  id := (env.sha256 (normalize env content ++ [0] ++ now)).take 16
  content := trim content
  kind := kind
  tier := .candidate
  createdAt := now
  lastConfirmedAt := now

/-- `INSERT INTO records` and `INSERT INTO record_search`. -/
def insertRecord (db : ProjectMemoryDb) (record : ProjectMemoryRecord) (normalized : JsString) :
    Except SqliteError ProjectMemoryDb :=
  if hid : record.id ∈ db.records.map (·.record.id) then .error .primaryKey
  else if hnormalized : normalized ∈ db.records.map (·.normalized) then .error .uniqueNormalized
  else .ok
    { records := db.records ++ [⟨record, normalized⟩]
      recordSearch := db.recordSearch ++ [(record.id, record.content)]
      evidenceRows := db.evidenceRows
      ids := by
        rw [List.map_append]
        exact List.nodup_append_comm.mp (List.nodup_cons.mpr ⟨hid, db.ids⟩)
      normalizedUnique := by
        rw [List.map_append]
        exact List.nodup_append_comm.mp (List.nodup_cons.mpr ⟨hnormalized, db.normalizedUnique⟩) }

/-- `INSERT OR IGNORE INTO evidence`; the primary key is record, session and entry. -/
def insertEvidence (db : ProjectMemoryDb) (recordId : JsString)
    (evidence : ProjectMemoryEvidence) : ProjectMemoryDb :=
  if db.evidenceRows.any fun row => row.recordId = recordId
      ∧ row.evidence.sessionId = evidence.sessionId ∧ row.evidence.entryId = evidence.entryId then
    db
  else
    { db with
      evidenceRows := db.evidenceRows
        ++ [⟨recordId, { evidence with excerpt := evidence.excerpt.take 800 }⟩] }

/-- The transaction of `addCandidate`, with what its lookups found. A statement that throws
rolls it back. -/
def commitCandidate (env : MemoryEnv) (db : ProjectMemoryDb)
    (existing : Option ProjectMemoryRecord) (content : JsString) (kind : ProjectMemoryKind)
    (evidence : ProjectMemoryEvidence) (now : JsString) :
    Except SqliteError (ProjectMemoryRecord × ProjectMemoryDb) :=
  match existing with
  | some record => .ok (record, db.insertEvidence record.id evidence)
  | none => do
    let record := newRecord env content kind now
    let db ← db.insertRecord record (normalize env content)
    pure (record, db.insertEvidence record.id evidence)

@[simp] theorem insertEvidence_records (db : ProjectMemoryDb) (recordId : JsString)
    (evidence : ProjectMemoryEvidence) :
    (db.insertEvidence recordId evidence).records = db.records := by
  unfold insertEvidence
  split <;> rfl

theorem insertRecord_ok {db db' : ProjectMemoryDb} {record : ProjectMemoryRecord}
    {normalized : JsString} (h : db.insertRecord record normalized = .ok db') :
    db'.records = db.records ++ [⟨record, normalized⟩] ∧ db'.evidenceRows = db.evidenceRows := by
  unfold insertRecord at h
  split at h
  · cases h
  split at h
  · cases h
  · cases h
    exact ⟨rfl, rfl⟩

/-- What the lookups of `addCandidate` find. -/
def existing? (env : MemoryEnv) (db : ProjectMemoryDb) (content : JsString) :
    Option ProjectMemoryRecord :=
  match db.lookupExact (normalize env content) with
  | some record => some record
  | none => (searchQuery env content).bind (db.lookupSimilar env)

/-- `addCandidate` -/
def addCandidate (env : MemoryEnv) (db : ProjectMemoryDb) (content : JsString)
    (kind : ProjectMemoryKind) (evidence : ProjectMemoryEvidence) (now : JsString) :
    Except SqliteError (ProjectMemoryRecord × ProjectMemoryDb) :=
  db.commitCandidate env (db.existing? env content) content kind evidence now

theorem records_addCandidate {env : MemoryEnv} {db db' : ProjectMemoryDb} {content now : JsString}
    {kind : ProjectMemoryKind} {evidence : ProjectMemoryEvidence} {r : ProjectMemoryRecord}
    (h : db.addCandidate env content kind evidence now = .ok (r, db')) :
    db'.records = db.records ∨ db'.records
      = db.records ++ [⟨newRecord env content kind now, normalize env content⟩] := by
  unfold addCandidate commitCandidate at h
  split at h
  · cases h
    exact Or.inl (insertEvidence_records ..)
  · obtain ⟨db'', hinsert, h⟩ := Except.bind_eq_ok.mp h
    cases h
    rw [insertEvidence_records]
    exact Or.inr (insertRecord_ok hinsert).1

/-! ## Tiers -/

/-- `UPDATE records SET … WHERE id = ?`, of columns without a constraint. -/
def updateRecord (db : ProjectMemoryDb) (id : JsString)
    (update : ProjectMemoryRecord → ProjectMemoryRecord) (h : ∀ r, (update r).id = r.id) :
    ProjectMemoryDb where
  records := db.records.map fun row =>
    if row.record.id = id then { row with record := update row.record } else row
  recordSearch := db.recordSearch
  evidenceRows := db.evidenceRows
  ids := by
    have hsame : ((fun row : RecordRow => row.record.id) ∘ fun row =>
        if row.record.id = id then { row with record := update row.record } else row)
          = fun row => row.record.id := by
      funext row
      show (if _ then _ else _ : RecordRow).record.id = _
      split
      · exact h row.record
      · rfl
    rw [List.map_map, hsame]
    exact db.ids
  normalizedUnique := by
    have hsame : ((fun row : RecordRow => row.normalized) ∘ fun row =>
        if row.record.id = id then { row with record := update row.record } else row)
          = fun row => row.normalized := by
      funext row
      show (if _ then _ else _ : RecordRow).normalized = _
      split <;> rfl
    rw [List.map_map, hsame]
    exact db.normalizedUnique

/-- `approve` -/
def approve (db : ProjectMemoryDb) (id : JsString) (tier : ProjectMemoryTier) (now : JsString) :
    ProjectMemoryDb :=
  db.updateRecord id (fun r => { r with tier := tier, lastConfirmedAt := now }) fun _ => rfl

/-- `demote` -/
def demote (db : ProjectMemoryDb) (id now : JsString) : ProjectMemoryDb :=
  db.approve id .archive now

/-- `forget` -/
def forget (db : ProjectMemoryDb) (id : JsString) : ProjectMemoryDb :=
  db.updateRecord id (fun r => { r with tier := .forgotten }) fun _ => rfl

/-- The order of `ORDER BY` on a text column. -/
def binaryLe (s t : JsString) : Bool := decide (encodeUtf8 s ≤ encodeUtf8 t)

/-- `core` -/
def core (db : ProjectMemoryDb) : List ProjectMemoryRecord :=
  ((db.records.map (·.record)).filter (·.tier = .core)).insertionSort
    fun r r' => binaryLe r'.lastConfirmedAt r.lastConfirmedAt

/-- `evidence` -/
def evidence (db : ProjectMemoryDb) (id : JsString) : List ProjectMemoryEvidence :=
  (db.evidenceRows.filter (·.recordId = id)).map (·.evidence)

/-- `readyCandidates` -/
def readyCandidates (db : ProjectMemoryDb) : List ProjectMemoryRecord :=
  ((db.records.map (·.record)).filter fun r =>
    r.tier = .candidate ∧ 2 ≤ ((db.evidence r.id).map (·.sessionId)).dedup.length).insertionSort
      fun r r' => binaryLe r.createdAt r'.createdAt

end ProjectMemoryDb

/-! ## Promotion -/

/-- What the user answers to the question about a candidate. -/
inductive PromotionChoice where
  | approveArchive
  | promoteToCore
  | editAndApproveArchive
  | reject
  deriving DecidableEq, Repr

/-- The answers to the questions about one candidate: `none` where the user cancels. -/
structure PromotionAnswers where
  choice : Option PromotionChoice
  /-- The option chosen for `Choose a record to demote to archive.` -/
  demote : Option JsString
  edited : Option JsString

/-- `Math.ceil(content.length / 4)` -/
def memoryTokens (content : JsString) : Nat := (content.length + 3) / 4

def coreBudget : Nat := 1200

open ProjectMemoryDb

/-- The tokens of some records. -/
def coreTokens (records : List ProjectMemoryRecord) : Nat :=
  records.foldl (fun total r => total + memoryTokens r.content) 0

/-- The option that stands for a record of the core. -/
def demoteOption (r : ProjectMemoryRecord) : JsString :=
  js "[" ++ r.id ++ js "] " ++ r.content

/-- The record of the core that an option stands for: `options.indexOf`. -/
def chosenCore (core : List ProjectMemoryRecord) (demote : Option JsString) :
    Option ProjectMemoryRecord :=
  match demote with
  | none => none
  | some option => if option = [] then none else core.find? fun r => demoteOption r = option

/-- The body of the loop of `_promoteProjectMemory`. -/
def promoteCandidate (env : MemoryEnv) (db : ProjectMemoryDb) (candidate : ProjectMemoryRecord)
    (answers : PromotionAnswers) (now : JsString) : Except SqliteError ProjectMemoryDb :=
  match answers.choice with
  | some .approveArchive => .ok (db.approve candidate.id .archive now)
  | some .promoteToCore =>
    if coreTokens db.core + memoryTokens candidate.content ≤ coreBudget then
      .ok (db.approve candidate.id .core now)
    else
      match chosenCore db.core answers.demote with
      | some r => .ok ((db.demote r.id now).approve candidate.id .core now)
      | none => .ok db
  | some .editAndApproveArchive =>
    match answers.edited, db.evidence candidate.id with
    | some content, first :: _ =>
      if isBlank content then .ok db
      else do
        let (edited, db) ← db.addCandidate env content candidate.kind first now
        pure (db.approve edited.id .archive now)
    | _, _ => .ok db
  | some .reject | none => .ok db

end PiMono
