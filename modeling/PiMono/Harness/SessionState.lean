import PiMono.Harness.SessionTypes

/-!
# The session state

`packages/agent/src/harness/session/state.ts`: the in-memory fold of a session's
mutations, its queries, and the mutations a fork starts from. Every storage keeps
one of these or has to agree with it.
-/

namespace PiMono.Harness

/-- `SessionStats`. A floating-point total is kept as what was added to 0, in order:
whatever addition rounds to is a function of that. -/
structure SessionStats where
  messageCount : Nat
  cachedTokens : List Addend
  uncachedTokens : List Addend
  totalTokens : List Addend
  costTotal : List Addend
  deriving DecidableEq

/-- `SessionState` -/
structure SessionState where
  sequence : Nat
  usedIds : List JsString
  entries : List Entry
  entriesById : JsMap JsString Entry
  records : List LaneRecord
  openOperationsByLane : JsMap JsString (JsMap JsString LaneRecord)
  lanes : JsMap JsString (Option JsString)
  log : List LogItem
  stats : SessionStats
  name : Option JsString
  labels : JsMap JsString JsString
  deriving DecidableEq

/-- What `applyMutation` throws: an error before anything is changed, or a
`TypeError` of the runtime, and the state that one leaves. -/
inductive ApplyError where
  | invalid (message : JsString)
  | typeError (left : SessionState)
  deriving DecidableEq

/-- `EntryOrder` -/
inductive EntryOrder where
  | newestFirst
  | oldestFirst
  deriving DecidableEq, Repr

/-- `EntryQuery` -/
structure EntryQuery where
  type : Option EntryType
  customType : Option JsString
  order : Option EntryOrder
  limit : Option Nat
  cursor : Option Nat
  deriving DecidableEq

/-- `BranchBounds`, but for the start. -/
structure BranchBounds where
  stopAtType : Option EntryType
  stopAtId : Option JsString
  deriving DecidableEq

/-- `ForkOptions["position"]` -/
inductive ForkPosition where
  | before
  | at
  deriving DecidableEq, Repr

/-- `ForkOptions` -/
inductive ForkOptions where
  | branch (entryId : Option JsString) (position : Option ForkPosition)
  | tree
  deriving DecidableEq

/-- `assertValidLimit` -/
def assertValidLimit (limit : Option Nat) : Except SessionError Unit :=
  if limit = some 0 then .error ⟨.invalidQuery, js "limit must be a positive integer"⟩ else .ok ()

/-- What a loop keeps that stops at `results.length === limit`. -/
def limited {α : Type} (limit : Option Nat) (results : List α) : List α :=
  match limit with
  | some n => results.take n
  | none => results

/-- `ordered`: the newest come first unless asked otherwise. -/
def ordered {α : Type} (items : List α) (order : Option EntryOrder) : List α :=
  if order = some .oldestFirst then items else items.reverse

/-- What a loop sees that stops behind the first item it is to stop at. -/
def takeThrough {α : Type} (stop : α → Bool) : List α → List α
  | [] => []
  | a :: as => if stop a then [a] else a :: takeThrough stop as

/-- `entry.id === stopAtId || entry.type === stopAtType` -/
def BranchBounds.reached (b : BranchBounds) (e : Entry) : Bool :=
  some e.id = b.stopAtId ∨ some e.type = b.stopAtType

/-- `matchesEntryQuery` -/
def matchesEntryQuery (query : EntryQuery) (e : Entry) : Bool :=
  query.type.all (e.type = ·) &&
    query.customType.all (fun customType => e.type = .custom ∧ e.customType? = some customType) &&
    query.cursor.all fun afterSeq =>
      if query.order = some .oldestFirst then afterSeq < e.seq else e.seq < afterSeq

namespace SessionStats

def zero : SessionStats := ⟨0, [], [], [], []⟩

/-- One message more. -/
def addMessage (s : SessionStats) (e : Entry) : SessionStats :=
  if e.type = .message then { s with messageCount := s.messageCount + 1 } else s

/-- `total += addend` -/
def add (s : SessionStats) (t : Total) (a : Addend) : SessionStats :=
  match t with
  | .cachedTokens => { s with cachedTokens := s.cachedTokens ++ [a] }
  | .uncachedTokens => { s with uncachedTokens := s.uncachedTokens ++ [a] }
  | .totalTokens => { s with totalTokens := s.totalTokens ++ [a] }
  | .costTotal => { s with costTotal := s.costTotal ++ [a] }

end SessionStats

namespace SessionState

/-- `new SessionState()` -/
def fresh : SessionState where
  sequence := 0
  usedIds := []
  entries := []
  entriesById := .empty
  records := []
  openOperationsByLane := .empty
  lanes := .ofFields [(js "main", none)]
  log := []
  stats := .zero
  name := none
  labels := .empty

/-- `nextSequence` -/
def nextSequence (s : SessionState) : Nat := s.sequence + 1

/-- `getLanes` -/
def getLanes (s : SessionState) : List (JsString × Option JsString) := s.lanes.entries

/-- `requireLane` -/
def requireLane (s : SessionState) (lane : JsString) : Except SessionError (Option JsString) :=
  match s.lanes.get? lane with
  | some leafId => .ok leafId
  | none => .error ⟨.invalidLane, js "Lane not found: " ++ lane⟩

/-- `validateNewLane` -/
def validateNewLane (s : SessionState) (lane : JsString) : Except SessionError Unit :=
  if s.lanes.has lane then .error ⟨.alreadyExists, js "Lane already exists: " ++ lane⟩ else .ok ()

/-- `validateTarget` -/
def validateTarget (s : SessionState) (targetId : Option JsString) : Except SessionError Unit :=
  match targetId with
  | some id =>
    if s.entriesById.has id then .ok () else .error ⟨.notFound, js "Entry not found: " ++ id⟩
  | none => .ok ()

/-- `validateUnusedId` -/
def validateUnusedId (s : SessionState) (id : JsString) : Except SessionError Unit :=
  if id ∈ s.usedIds then .error ⟨.alreadyExists, js "Session id already exists: " ++ id⟩
  else .ok ()

/-! ## Applying a mutation -/

/-- The check of an entry's parent. -/
def missingParent (s : SessionState) (e : Entry) : Option JsString :=
  match e.parentId with
  | some parentId =>
    if s.entriesById.has parentId then none
    else some (js "references missing parent " ++ parentId)
  | none => none

/-- What `applyMutation` calls invalid, with its message. -/
def invalid? (s : SessionState) (m : SessionMutation) : Option JsString :=
  if m.seq ≠ s.sequence + 1 then
    some (js "has non-consecutive seq " ++ js (toString m.seq))
  else
    match m with
    | .entry lane e =>
      if e.id ∈ s.usedIds then some (js "contains duplicate id " ++ e.id)
      else
        match lane with
        | some lane =>
          match s.lanes.get? lane with
          | none => some (js "references missing lane " ++ lane)
          | some leafId =>
            if e.parentId ≠ leafId then some (js "does not chain to the lane leaf")
            else s.missingParent e
        | none => s.missingParent e
    | .record r =>
      if !s.lanes.has r.lane then some (js "references missing lane " ++ r.lane)
      else if r.id ∈ s.usedIds then some (js "contains duplicate id " ++ r.id)
      else none
    | .lane _ _ leafId =>
      match leafId with
      | some leafId =>
        if s.entriesById.has leafId then none
        else some (js "references missing lane target " ++ leafId)
      | none => none
    | .name _ _ => none
    | .label _ targetId _ =>
      if s.entriesById.has targetId then none
      else some (js "references missing label target " ++ targetId)

/-- The state with a new entry. -/
def pushEntry (s : SessionState) (lane : Option JsString) (e : Entry) : SessionState :=
  { s with
    sequence := e.seq
    usedIds := s.usedIds ++ [e.id]
    entries := s.entries ++ [e]
    entriesById := s.entriesById.set e.id e
    lanes := match lane with
      | some lane => s.lanes.set lane (some e.id)
      | none => s.lanes
    log := s.log ++ [.entry e]
    stats := s.stats.addMessage e }

/-- `openOperationsByLane` after a record. -/
def openOperationsAfter (open_ : JsMap JsString (JsMap JsString LaneRecord)) (r : LaneRecord) :
    JsMap JsString (JsMap JsString LaneRecord) :=
  match r.type with
  | .operationStarted => open_.set r.lane (((open_.get? r.lane).getD .empty).set r.id r)
  | .operationFinished =>
    match open_.get? r.lane, r.runId? with
    | some operations, some runId => open_.set r.lane (operations.delete runId)
    | _, _ => open_
  | _ => open_

/-- The state with a new record, before its usage is added up. -/
def pushRecord (s : SessionState) (r : LaneRecord) : SessionState :=
  { s with
    sequence := r.seq
    usedIds := s.usedIds ++ [r.id]
    records := s.records ++ [r]
    openOperationsByLane := openOperationsAfter s.openOperationsByLane r
    log := s.log ++ [.record r] }

/-- Add a usage to one total. Where that throws, what was done before stays. -/
def addTo (usage : JsValue) (s : SessionState) (t : Total) : Except ApplyError SessionState :=
  if usageAdds usage t then .ok { s with stats := s.stats.add t (usageAddend usage t) }
  else .error (.typeError s)

/-- Add the usage of a record to the totals. -/
def addUsage (s : SessionState) (r : LaneRecord) : Except ApplyError SessionState :=
  match readable? (r.payload.get? "usage") with
  | some usage => Total.all.foldlM (addTo usage) s
  | none => .error (.typeError s)

/-- What `applyMutation` does once its checks have passed. -/
def commit (s : SessionState) : SessionMutation → Except ApplyError SessionState
  | .entry lane e => .ok (s.pushEntry lane e)
  | .record r => if r.type = .usage then (s.pushRecord r).addUsage r else .ok (s.pushRecord r)
  | .lane seq lane leafId => .ok { s with
      sequence := seq
      lanes := s.lanes.set lane leafId
      log := s.log ++ [.lane seq lane leafId] }
  | .name seq name => .ok { s with
      sequence := seq
      name := name
      log := s.log ++ [.name seq name] }
  | .label seq targetId label => .ok { s with
      sequence := seq
      labels := match label with
        | some label => s.labels.set targetId label
        | none => s.labels.delete targetId
      log := s.log ++ [.label seq targetId label] }

/-- `applyMutation` -/
def applyMutation (s : SessionState) (m : SessionMutation) : Except ApplyError SessionState :=
  match s.invalid? m with
  | some message => .error (.invalid message)
  | none => s.commit m

/-- Mutations one after the other, up to the first that throws. -/
def replay (s : SessionState) (ms : List SessionMutation) : Except ApplyError SessionState :=
  ms.foldlM applyMutation s

/-! ## Queries -/

/-- `getEntry` -/
def getEntry (s : SessionState) (id : JsString) : Option Entry := s.entriesById.get? id

/-- `findEntries` -/
def findEntries (s : SessionState) (query : EntryQuery) : Except SessionError (List Entry) := do
  assertValidLimit query.limit
  return limited query.limit ((ordered s.entries query.order).filter (matchesEntryQuery query))

/-- What `walkToRoot` yields, and what it throws then. -/
structure Walk where
  yielded : List Entry
  thrown : Option SessionError

/-- `walkToRoot` from an entry on. No entry is visited twice, so the fuel is the
number of entries there are. -/
def walkFrom (s : SessionState) (stop : Entry → Bool) : Nat → List JsString → Entry → Walk
  | 0, _, current =>
    ⟨[], some ⟨.invalidEntry, js "Session branch contains a cycle at " ++ current.id⟩⟩
  | fuel + 1, visited, current =>
    if current.id ∈ visited then
      ⟨[], some ⟨.invalidEntry, js "Session branch contains a cycle at " ++ current.id⟩⟩
    else if stop current then ⟨[current], none⟩
    else
      match current.parentId with
      | none => ⟨[current], none⟩
      | some parentId =>
        match s.entriesById.get? parentId with
        | none => ⟨[current], some ⟨.invalidEntry, js "Entry not found: " ++ parentId⟩⟩
        | some parent =>
          let rest := walkFrom s stop fuel (visited ++ [current.id]) parent
          ⟨current :: rest.yielded, rest.thrown⟩

/-- `walkToRoot` -/
def walkToRoot (s : SessionState) (start : JsString) (stop : Entry → Bool) : Walk :=
  match s.entriesById.get? start with
  | none => ⟨[], some ⟨.notFound, js "Entry not found: " ++ start⟩⟩
  | some current => s.walkFrom stop (s.entriesById.entries.length + 1) [] current

/-- `findEntriesOnBranch`. From the newest on, the walk is only followed as far as the
results need it. -/
def findEntriesOnBranch (s : SessionState) (start : JsString) (query : EntryQuery)
    (bounds : BranchBounds) : Except SessionError (List Entry) := do
  assertValidLimit query.limit
  if query.order = some .oldestFirst then
    let walk := s.walkToRoot start fun _ => false
    let seen := takeThrough bounds.reached walk.yielded.reverse
    match walk.thrown with
    | some error => .error error
    | none => return limited query.limit (seen.filter (matchesEntryQuery query))
  else
    let walk := s.walkToRoot start bounds.reached
    let results := walk.yielded.filter (matchesEntryQuery query)
    match walk.thrown with
    | some error =>
      if query.limit.any (· ≤ results.length) then return limited query.limit results
      else .error error
    | none => return limited query.limit results

/-- `[...openOperationsById.values()].reverse()`, newest first. -/
def openOperations (s : SessionState) (lane : JsString) : List LaneRecord :=
  ((s.openOperationsByLane.get? lane).elim [] fun operations =>
    operations.entries.map Prod.snd).reverse

/-- `findOpenOperations` -/
def findOpenOperations (s : SessionState) (lane : JsString) (limit : Option Nat) :
    Except SessionError (List LaneRecord) := do
  assertValidLimit limit
  return limited limit (s.openOperations lane)

/-- `getLog` -/
def getLog (s : SessionState) (afterSeq limit : Option Nat) :
    Except SessionError (List LogItem) := do
  assertValidLimit limit
  return limited limit (s.log.filter fun item => afterSeq.all (· < item.seq))

/-! ## Forking -/

/-- Without conditions, oldest first. -/
def everything : EntryQuery := ⟨none, none, some .oldestFirst, none, none⟩

/-- The entry at or before a message. -/
def messageTarget (s : SessionState) (selectedEntryId : JsString) (position : ForkPosition) :
    Except SessionError (Option JsString) :=
  let notMessage := js "Fork target is not a message entry: " ++ selectedEntryId
  match s.getEntry selectedEntryId with
  | some entry =>
    if entry.type = .message then
      .ok (if position = .at then some entry.id else entry.parentId)
    else .error ⟨.invalidForkTarget, notMessage⟩
  | none => .error ⟨.invalidForkTarget, notMessage⟩

/-- The entry a branch fork ends at. -/
def forkTarget (s : SessionState) (entryId : Option JsString) (position : Option ForkPosition) :
    Except SessionError (Option JsString) := do
  let selectedEntryId ← match entryId with
    | some entryId => pure (some entryId)
    | none => s.requireLane (js "main")
  match selectedEntryId with
  | none => return none
  | some selectedEntryId =>
    s.messageTarget selectedEntryId (position.getD (if entryId = none then .at else .before))

/-- The entries a fork copies, and its lanes. -/
def forkSelection (s : SessionState) :
    ForkOptions → Except SessionError (List Entry × List (JsString × Option JsString))
  | .tree => do return (← s.findEntries everything, s.getLanes)
  | .branch entryId position => do
    let targetId ← s.forkTarget entryId position
    let copied ← match targetId with
      | none => pure []
      | some targetId => s.findEntriesOnBranch targetId everything ⟨none, none⟩
    return (copied, [(js "main", targetId)])

/-- Items numbered from `seq` on. -/
def numbered {α β : Type} (f : Nat → α → β) (seq : Nat) (items : List α) : List β :=
  items.mapIdx fun i a => f (seq + i) a

/-- The labels of the copied entries, in their order. -/
def copiedLabels (s : SessionState) (copied : List Entry) : List (JsString × JsString) :=
  copied.filterMap fun e => (s.labels.get? e.id).map (e.id, ·)

/-- The mutations of a fork: the entries, the lanes, the name and the labels, numbered
from 1 on. -/
def forkMutations (s : SessionState) (copied : List Entry)
    (lanes : List (JsString × Option JsString)) : List SessionMutation :=
  let afterEntries := 1 + copied.length
  let afterLanes := afterEntries + lanes.length
  let name := s.name.toList
  numbered (fun seq e => .entry none (e.withSeq seq)) 1 copied
    ++ numbered (fun seq l => .lane seq l.1 l.2) afterEntries lanes
    ++ numbered (fun seq n => .name seq (some n)) afterLanes name
    ++ numbered (fun seq l => .label seq l.1 (some l.2)) (afterLanes + name.length)
        (s.copiedLabels copied)

/-- `createForkMutations` -/
def createForkMutations (s : SessionState) (options : ForkOptions) :
    Except SessionError (List SessionMutation) := do
  let (copied, lanes) ← s.forkSelection options
  return s.forkMutations copied lanes

end SessionState

end PiMono.Harness
