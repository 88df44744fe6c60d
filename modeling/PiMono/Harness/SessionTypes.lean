import PiMono.Lib.Json

/-!
# Entries, records and mutations

`packages/agent/src/harness/session/types.ts` and the mutations of `state.ts:18-23`.
An entry or a record is its base fields and a `Payload`, the other fields of the
object, in their order. Only what `jsonl/codec.ts` checks of a payload is a field of
`Entry` and `LaneRecord` too: an object decoded from a file need not be more than
that. What callers hand in (`ProvisionedEntry`, `NewRecord`) has the declared types.
-/

namespace PiMono.Harness

/-- `SessionErrorCode` -/
inductive SessionErrorCode where
  | notFound
  | alreadyExists
  | invalidEntry
  | invalidPayload
  | invalidLane
  | invalidQuery
  | invalidForkTarget
  | storage
  deriving DecidableEq, Repr

/-- `SessionError` -/
structure SessionError where
  code : SessionErrorCode
  message : JsString
  deriving DecidableEq

/-- `Number.MAX_SAFE_INTEGER` -/
def maxSafeInteger : Nat := 2 ^ 53 - 1

/-- What `Date.now()` returns: milliseconds since the epoch, a safe integer. -/
structure Timestamp where
  ms : Nat
  safe : ms ≤ maxSafeInteger
  deriving DecidableEq

/-- `Entry["type"]` -/
inductive EntryType where
  | message
  | modelChange
  | thinkingLevelChange
  | activeToolsChange
  | compaction
  | branchSummary
  | custom
  deriving DecidableEq, Repr

/-- `LaneRecord["type"]` -/
inductive RecordType where
  | operationStarted
  | abortRequested
  | operationFinished
  | stepAttempt
  | toolStarted
  | queueEnqueued
  | queueCancelled
  | writeDeferred
  | usage
  deriving DecidableEq, Repr

namespace EntryType

def text : EntryType → String
  | message => "message"
  | modelChange => "model_change"
  | thinkingLevelChange => "thinking_level_change"
  | activeToolsChange => "active_tools_change"
  | compaction => "compaction"
  | branchSummary => "branch_summary"
  | custom => "custom"

/-- `ENTRY_TYPES` -/
def all : List EntryType :=
  [message, modelChange, thinkingLevelChange, activeToolsChange, compaction, branchSummary, custom]

def ofText? (s : JsString) : Option EntryType := all.find? fun t => js t.text = s

@[simp] theorem ofText?_text (t : EntryType) : ofText? (js t.text) = some t := by
  cases t <;> simp [ofText?, all, text]

end EntryType

namespace RecordType

def text : RecordType → String
  | operationStarted => "operation_started"
  | abortRequested => "abort_requested"
  | operationFinished => "operation_finished"
  | stepAttempt => "step_attempt"
  | toolStarted => "tool_started"
  | queueEnqueued => "queue_enqueued"
  | queueCancelled => "queue_cancelled"
  | writeDeferred => "write_deferred"
  | usage => "usage"

/-- `RECORD_TYPES` -/
def all : List RecordType :=
  [operationStarted, abortRequested, operationFinished, stepAttempt, toolStarted, queueEnqueued,
    queueCancelled, writeDeferred, usage]

def ofText? (s : JsString) : Option RecordType := all.find? fun t => js t.text = s

@[simp] theorem ofText?_text (t : RecordType) : ofText? (js t.text) = some t := by
  cases t <;> simp [ofText?, all, text]

end RecordType

/-! ## Payloads -/

/-- The fields of an object that are not among the `reserved` ones, in their order. -/
structure Payload (reserved : List String) where
  fields : JsMap JsString JsValue
  free : ∀ key ∈ reserved, fields.has (js key) = false

namespace Payload

variable {reserved : List String}

@[ext] theorem ext {p q : Payload reserved} (h : p.fields = q.fields) : p = q := by
  cases p
  cases q
  simpa using h

instance : DecidableEq (Payload reserved) := fun p q =>
  decidable_of_iff (p.fields = q.fields) ⟨ext, fun h => by rw [h]⟩

def get? (p : Payload reserved) (key : String) : Option JsValue := p.fields.get? (js key)

def str? (p : Payload reserved) (key : String) : Option JsString := (p.get? key).bind JsValue.str?

end Payload

/-- The fields every entry has, and those a line of a file has besides. -/
def entryFields : List String := ["kind", "lane", "type", "id", "parentId", "seq", "timestamp"]

/-- The fields every record has, and those a line of a file has besides. -/
def recordFields : List String := ["kind", "type", "id", "lane", "seq", "timestamp"]

/-- `OPERATION_KINDS` -/
def operationKinds : List String := ["run", "compaction", "navigation"]

/-- What decoding says against an entry's payload: a custom entry has a `customType`. -/
def EntryType.rejection? (t : EntryType) (p : Payload entryFields) : Option JsString :=
  if t = .custom ∧ p.str? "customType" = none then some (js "has invalid customType") else none

/-- Decoding accepts an entry's payload. -/
def EntryType.accepts (t : EntryType) (p : Payload entryFields) : Bool := (t.rejection? p).isNone

/-- `record.intent.kind` -/
def intentKind? (p : Payload recordFields) : Option JsString :=
  (p.get? "intent").bind (·.strField? (js "kind"))

/-- What decoding says against a record's payload: it needs the intent of an operation
that starts, and the run of one that finishes. -/
def RecordType.rejection? (t : RecordType) (p : Payload recordFields) : Option JsString :=
  match t with
  | .operationStarted =>
    if !(p.get? "intent").any (·.isObject) then some (js "has invalid intent")
    else
      match intentKind? p with
      | none => some (js "has invalid operation kind")
      | some kind =>
        if operationKinds.any fun k => js k = kind then none
        else some (js "has unknown operation kind " ++ kind)
  | .operationFinished =>
    if p.str? "runId" = none then some (js "has invalid runId") else none
  | .abortRequested | .stepAttempt | .toolStarted | .queueEnqueued | .queueCancelled
  | .writeDeferred | .usage => none

/-- Decoding accepts a record's payload. -/
def RecordType.accepts (t : RecordType) (p : Payload recordFields) : Bool :=
  (t.rejection? p).isNone

/-- `Entry` -/
structure Entry where
  type : EntryType
  id : JsString
  parentId : Option JsString
  seq : Nat
  timestamp : Timestamp
  payload : Payload entryFields
  accepted : type.accepts payload = true
  deriving DecidableEq

/-- `LaneRecord` -/
structure LaneRecord where
  type : RecordType
  id : JsString
  lane : JsString
  seq : Nat
  timestamp : Timestamp
  payload : Payload recordFields
  accepted : type.accepts payload = true
  deriving DecidableEq

namespace Entry

/-- `entry.customType`, of a custom entry. -/
def customType? (e : Entry) : Option JsString :=
  if e.type = .custom then e.payload.str? "customType" else none

/-- The entry under another sequence number. -/
def withSeq (e : Entry) (seq : Nat) : Entry := { e with seq := seq }

end Entry

namespace LaneRecord

/-- `record.runId` -/
def runId? (r : LaneRecord) : Option JsString := r.payload.str? "runId"

end LaneRecord

/-! ## What callers hand in -/

/-- The fields of a `ProvisionedEntry`, by its type. -/
inductive EntryBody where
  | message (message : JsValue) (isObject : message.isObject = true) (terminate : Bool)
  | modelChange (provider modelId : JsString)
  | thinkingLevelChange (thinkingLevel : JsString)
  | activeToolsChange (activeToolNames : List JsString)
  | compaction (summary : JsString) (retainedTail : List JsValue) (tokensBefore : JsNumber)
    (details usage : Option JsValue)
  | branchSummary (fromId summary : JsString) (details usage : Option JsValue)
  | custom (customType : JsString) (data : Option JsValue)

namespace EntryBody

def type : EntryBody → EntryType
  | message .. => .message
  | modelChange .. => .modelChange
  | thinkingLevelChange _ => .thinkingLevelChange
  | activeToolsChange _ => .activeToolsChange
  | compaction .. => .compaction
  | branchSummary .. => .branchSummary
  | custom .. => .custom

/-- The fields as an object literal has them. -/
def fields : EntryBody → List (String × JsValue)
  | message m _ terminate =>
    ("message", m) :: if terminate then [("terminate", .bool true)] else []
  | modelChange provider modelId => [("provider", .str provider), ("modelId", .str modelId)]
  | thinkingLevelChange level => [("thinkingLevel", .str level)]
  | activeToolsChange names => [("activeToolNames", .arr (names.map .str))]
  | compaction summary retainedTail tokensBefore details usage =>
    [("summary", .str summary), ("retainedTail", .arr retainedTail),
      ("tokensBefore", .num tokensBefore)]
      ++ (details.map ("details", ·)).toList ++ (usage.map ("usage", ·)).toList
  | branchSummary fromId summary details usage =>
    [("fromId", .str fromId), ("summary", .str summary)]
      ++ (details.map ("details", ·)).toList ++ (usage.map ("usage", ·)).toList
  | custom customType data =>
    ("customType", .str customType) :: (data.map ("data", ·)).toList

/-- The names of these fields. -/
def names : List String :=
  ["message", "terminate", "provider", "modelId", "thinkingLevel", "activeToolNames", "summary",
    "retainedTail", "tokensBefore", "details", "usage", "fromId", "customType", "data"]

theorem name_mem_names (b : EntryBody) {f : String × JsValue} (hf : f ∈ b.fields) :
    f.1 ∈ names := by
  revert f
  cases b with
  | message m _ terminate => cases terminate <;> simp [fields, names]
  | compaction _ _ _ details usage => cases details <;> cases usage <;> simp [fields, names]
  | branchSummary _ _ details usage => cases details <;> cases usage <;> simp [fields, names]
  | custom _ data => cases data <;> simp [fields, names]
  | _ => simp [fields, names]

theorem reserved_names : ∀ key ∈ entryFields, key ∉ names := by decide

/-- The payload of an entry with these fields. -/
def payload (b : EntryBody) : Payload entryFields where
  fields := .ofFields (b.fields.map fun f => (js f.1, f.2))
  free := by
    intro key hkey
    have hnot : key ∉ b.fields.map Prod.fst := fun hmem => by
      obtain ⟨f, hf, rfl⟩ := List.mem_map.mp hmem
      exact absurd (b.name_mem_names hf) (reserved_names f.1 hkey)
    rw [← Bool.not_eq_true, JsMap.has_iff, JsMap.mem_keys_ofFields]
    simpa using hnot

theorem accepts_payload (b : EntryBody) : b.type.accepts b.payload = true := by
  cases b with
  | custom customType data =>
    cases data <;>
      simp [EntryType.accepts, EntryType.rejection?, Payload.str?, Payload.get?, payload, fields,
        JsMap.ofFields]
  | _ => rfl

end EntryBody

/-- `ProvisionedEntry` -/
structure ProvisionedEntry where
  id : JsString
  body : EntryBody

/-- What `+=` adds to a running total: a value, or the sum of two. -/
inductive Addend where
  | value (v : Option JsValue)
  | sum (v w : Option JsValue)
  deriving DecidableEq

/-- Every operand can be turned into a number or a string. -/
def Addend.convertible : Addend → Bool
  | .value v => v.all (·.json.convertible)
  | .sum v w => v.all (·.json.convertible) && w.all (·.json.convertible)

/-- The numbers of `SessionStats` that usage is added to. -/
inductive Total where
  | cachedTokens
  | uncachedTokens
  | totalTokens
  | costTotal
  deriving DecidableEq, Repr

namespace Total

/-- In the order in which `applyMutation` adds to them. -/
def all : List Total := [cachedTokens, uncachedTokens, totalTokens, costTotal]

end Total

/-- What a usage adds to a total. -/
def usageAddend (usage : JsValue) : Total → Addend
  | .cachedTokens => .value (usage.get? (js "cacheRead"))
  | .uncachedTokens => .sum (usage.get? (js "input")) (usage.get? (js "cacheWrite"))
  | .totalTokens => .value (usage.get? (js "totalTokens"))
  | .costTotal => .value ((usage.get? (js "cost")).bind (·.get? (js "total")))

/-- The value, where reading a field of it does not throw: it is neither `null` nor
missing. -/
def readable? (v : Option JsValue) : Option JsValue := v.filter (· ≠ .null)

/-- Adding a usage to a total does not throw. -/
def usageAdds (usage : JsValue) (t : Total) : Bool :=
  (t ≠ .costTotal || (readable? (usage.get? (js "cost"))).isSome) &&
    (usageAddend usage t).convertible

/-- Adding up the usage of a record throws nothing. -/
def usageReadable (p : Payload recordFields) : Bool :=
  (readable? (p.get? "usage")).any fun usage => Total.all.all (usageAdds usage)

/-- What the declared type of a record says of its payload, as far as it is read. -/
def RecordType.declared (t : RecordType) (p : Payload recordFields) : Bool :=
  t.accepts p && (p.get? "runId").all (·.str?.isSome) && (t ≠ .usage || usageReadable p)

/-- `NewRecord` -/
structure NewRecord where
  type : RecordType
  id : JsString
  lane : JsString
  payload : Payload recordFields
  declared : type.declared payload = true

/-- The entry that storage makes of a provisioned one. -/
def ProvisionedEntry.commit (e : ProvisionedEntry) (parentId : Option JsString) (seq : Nat)
    (timestamp : Timestamp) : Entry :=
  ⟨e.body.type, e.id, parentId, seq, timestamp, e.body.payload, e.body.accepts_payload⟩

/-- The record that storage makes of a new one. -/
def NewRecord.commit (r : NewRecord) (seq : Nat) (timestamp : Timestamp) : LaneRecord where
  type := r.type
  id := r.id
  lane := r.lane
  seq := seq
  timestamp := timestamp
  payload := r.payload
  accepted := by
    have h := r.declared
    simp only [RecordType.declared, Bool.and_eq_true] at h
    exact h.1.1

/-! ## Mutations and the log -/

/-- `SessionMutation` -/
inductive SessionMutation where
  | entry (lane : Option JsString) (entry : Entry)
  | record (record : LaneRecord)
  | lane (seq : Nat) (lane : JsString) (leafId : Option JsString)
  | name (seq : Nat) (name : Option JsString)
  | label (seq : Nat) (targetId : JsString) (label : Option JsString)
  deriving DecidableEq

/-- `LogItem` -/
inductive LogItem where
  | entry (entry : Entry)
  | record (record : LaneRecord)
  | lane (seq : Nat) (lane : JsString) (leafId : Option JsString)
  | name (seq : Nat) (name : Option JsString)
  | label (seq : Nat) (targetId : JsString) (label : Option JsString)
  deriving DecidableEq

/-- `mutation.entry.seq`, `mutation.record.seq` or `mutation.seq`. -/
def SessionMutation.seq : SessionMutation → Nat
  | .entry _ e => e.seq
  | .record r => r.seq
  | .lane seq _ _ | .name seq _ | .label seq _ _ => seq

/-- `item.seq` -/
def LogItem.seq : LogItem → Nat
  | .entry e => e.seq
  | .record r => r.seq
  | .lane seq _ _ | .name seq _ | .label seq _ _ => seq

/-- The item a mutation leaves in the log. -/
def SessionMutation.item : SessionMutation → LogItem
  | .entry _ e => .entry e
  | .record r => .record r
  | .lane seq l leafId => .lane seq l leafId
  | .name seq n => .name seq n
  | .label seq targetId l => .label seq targetId l

@[simp] theorem SessionMutation.seq_item (m : SessionMutation) : m.item.seq = m.seq := by
  cases m <;> rfl

end PiMono.Harness
