import PiMono.Lib.JsonCut
import PiMono.Harness.SessionTypes

/-!
# Lines of a JSONL session file

`packages/agent/src/harness/session/jsonl/codec.ts`: a header, and one line for every
mutation. `decodeMutation_text` and `decodeHeader_text` say that what is written is read
back, as long as the sequence number is a safe integer; a larger one is written but not read
(`decodeMutation_tooLarge`).
-/

namespace PiMono.Harness

/-- `JsonlDecodeError["kind"]`; `notJson` is the kind `"syntax"`. -/
inductive DecodeErrorKind where
  | notJson
  | schema
  deriving DecidableEq, Repr

/-- `JsonlDecodeError` -/
structure JsonlDecodeError where
  kind : DecodeErrorKind
  message : JsString
  deriving DecidableEq

/-- `JsonlV4Header`. A v3 parent path is kept only where there is no parent id. -/
structure JsonlV4Header where
  id : JsString
  createdAt : Timestamp
  cwd : JsString
  parentSessionId : Option JsString
  legacyParentSessionPath : Option JsString
  metadata : Option { v : JsValue // v.isObject = true }
  oneParent : parentSessionId = none ∨ legacyParentSessionPath = none

/-! ## Encoding -/

/-- The fields of an entry, in the order in which storage sets them. -/
def Entry.toFields (e : Entry) : List (JsString × JsValue) :=
  [(js "type", .str (js e.type.text)), (js "id", .str e.id)] ++ e.payload.fields.entries
    ++ [(js "parentId", e.parentId.elim .null .str), (js "seq", .nat e.seq),
      (js "timestamp", .nat e.timestamp.ms)]

/-- The fields of a record, in the order in which storage sets them. -/
def LaneRecord.toFields (r : LaneRecord) : List (JsString × JsValue) :=
  [(js "type", .str (js r.type.text)), (js "id", .str r.id), (js "lane", .str r.lane)]
    ++ r.payload.fields.entries ++ [(js "seq", .nat r.seq), (js "timestamp", .nat r.timestamp.ms)]

/-- The fields of the object that is written for a mutation. -/
def SessionMutation.toFields : SessionMutation → List (JsString × JsValue)
  | .entry l e =>
    (js "kind", .str (js "entry")) :: (JsValue.optField (js "lane") l .str ++ e.toFields)
  | .record r => (js "kind", .str (js "record")) :: r.toFields
  | .lane seq l leafId =>
    [(js "kind", .str (js "lane")), (js "seq", .nat seq), (js "lane", .str l),
      (js "leafId", leafId.elim .null .str)]
  | .name seq n =>
    [(js "kind", .str (js "fact")), (js "seq", .nat seq), (js "fact", .str (js "name"))]
      ++ JsValue.optField (js "name") n .str
  | .label seq targetId l =>
    [(js "kind", .str (js "fact")), (js "seq", .nat seq), (js "fact", .str (js "label")),
      (js "targetId", .str targetId)] ++ JsValue.optField (js "label") l .str

/-- The JSON text of a mutation. -/
def SessionMutation.text (m : SessionMutation) : JsString := (JsValue.object m.toFields).stringify

/-- `encodeMutation` -/
def encodeMutation (m : SessionMutation) : JsString := m.text ++ [0x0A]

def JsonlV4Header.toFields (h : JsonlV4Header) : List (JsString × JsValue) :=
  [(js "kind", .str (js "header")), (js "version", .nat 4), (js "id", .str h.id),
    (js "createdAt", .nat h.createdAt.ms), (js "cwd", .str h.cwd)]
    ++ JsValue.optField (js "parentSessionId") h.parentSessionId .str
    ++ JsValue.optField (js "legacyParentSessionPath") h.legacyParentSessionPath .str
    ++ JsValue.optField (js "metadata") h.metadata Subtype.val

/-- The JSON text of a header. -/
def JsonlV4Header.text (h : JsonlV4Header) : JsString := (JsValue.object h.toFields).stringify

/-- `encodeHeader` -/
def encodeHeader (h : JsonlV4Header) : JsString := h.text ++ [0x0A]

/-! ## Decoding -/

def schemaError (message : String) : JsonlDecodeError := ⟨.schema, js message⟩

/-- `has invalid ${field}` -/
def invalidField (field : String) : JsonlDecodeError := ⟨.schema, js "has invalid " ++ js field⟩

/-- `parseObject` -/
def parseObject (line : JsString) : Except JsonlDecodeError (JsMap JsString JsValue) :=
  match JsValue.parse line with
  | none => .error ⟨.notJson, js "is not valid JSON"⟩
  | some v => if v.isObject then .ok v.objectFields else .error (schemaError "is not a JSON object")

/-- `requireString` -/
def requireString (value : Option JsValue) (field : String) : Except JsonlDecodeError JsString :=
  match value.bind JsValue.str? with
  | some s => .ok s
  | none => .error (invalidField field)

/-- A string field that may be missing. -/
def optionalString (value : Option JsValue) (field : String) :
    Except JsonlDecodeError (Option JsString) :=
  match value with
  | some v => some <$> requireString (some v) field
  | none => .ok none

/-- `requireSequence` -/
def requireSequence (value : Option JsValue) : Except JsonlDecodeError Nat :=
  match value.bind JsValue.nat? with
  | some n => if 0 < n ∧ n ≤ maxSafeInteger then .ok n else .error (invalidField "seq")
  | none => .error (invalidField "seq")

/-- `requireTimestamp` -/
def requireTimestamp (value : Option JsValue) : Except JsonlDecodeError Timestamp :=
  match value.bind JsValue.nat? with
  | some n => if h : n ≤ maxSafeInteger then .ok ⟨n, h⟩ else .error (invalidField "timestamp")
  | none => .error (invalidField "timestamp")

/-- `requireNullableId` -/
def requireNullableId (value : Option JsValue) (field : String) :
    Except JsonlDecodeError (Option JsString) :=
  if value = some .null then .ok none else some <$> requireString value field

/-- What a rest pattern leaves of an object: the fields that are not `reserved`. -/
def Payload.ofRest (reserved : List String) (m : JsMap JsString JsValue) : Payload reserved where
  fields := m.deleteAll (reserved.map fun key => js key)
  free := fun _ hkey => JsMap.has_deleteAll (List.mem_map_of_mem hkey)

/-- `parseEntryMutation` -/
def parseEntryMutation (value : JsMap JsString JsValue) (seq : Nat) :
    Except JsonlDecodeError SessionMutation := do
  let lane ← optionalString (value.get? (js "lane")) "lane"
  let id ← requireString (value.get? (js "id")) "id"
  let type ← requireString (value.get? (js "type")) "entry type"
  match EntryType.ofText? type with
  | none => .error ⟨.schema, js "has unknown entry type " ++ type⟩
  | some type =>
    let parentId ← requireNullableId (value.get? (js "parentId")) "parentId"
    let timestamp ← requireTimestamp (value.get? (js "timestamp"))
    let payload := Payload.ofRest entryFields value
    match h : type.rejection? payload with
    | some message => .error ⟨.schema, message⟩
    | none =>
      return .entry lane
        ⟨type, id, parentId, seq, timestamp, payload, by rw [EntryType.accepts, h]; rfl⟩

/-- `parseRecordMutation` -/
def parseRecordMutation (value : JsMap JsString JsValue) (seq : Nat) :
    Except JsonlDecodeError SessionMutation := do
  let id ← requireString (value.get? (js "id")) "id"
  let lane ← requireString (value.get? (js "lane")) "lane"
  let type ← requireString (value.get? (js "type")) "record type"
  match RecordType.ofText? type with
  | none => .error ⟨.schema, js "has unknown record type " ++ type⟩
  | some type =>
    let timestamp ← requireTimestamp (value.get? (js "timestamp"))
    let payload := Payload.ofRest recordFields value
    match h : type.rejection? payload with
    | some message => .error ⟨.schema, message⟩
    | none =>
      return .record ⟨type, id, lane, seq, timestamp, payload, by rw [RecordType.accepts, h]; rfl⟩

/-- `parseLaneMutation` -/
def parseLaneMutation (value : JsMap JsString JsValue) (seq : Nat) :
    Except JsonlDecodeError SessionMutation := do
  let lane ← requireString (value.get? (js "lane")) "lane"
  let leafId ← requireNullableId (value.get? (js "leafId")) "leafId"
  return .lane seq lane leafId

/-- `parseFactMutation` -/
def parseFactMutation (value : JsMap JsString JsValue) (seq : Nat) :
    Except JsonlDecodeError SessionMutation := do
  let fact := (value.get? (js "fact")).bind JsValue.str?
  if fact = some (js "name") then
    let name ← optionalString (value.get? (js "name")) "name"
    return .name seq name
  else if fact = some (js "label") then
    let label ← optionalString (value.get? (js "label")) "label"
    let targetId ← requireString (value.get? (js "targetId")) "targetId"
    return .label seq targetId label
  else .error (schemaError "has unknown fact type")

/-- `decodeMutation` -/
def decodeMutation (line : JsString) : Except JsonlDecodeError SessionMutation := do
  let value ← parseObject line
  let seq ← requireSequence (value.get? (js "seq"))
  let kind := (value.get? (js "kind")).bind JsValue.str?
  if kind = some (js "entry") then parseEntryMutation value seq
  else if kind = some (js "record") then parseRecordMutation value seq
  else if kind = some (js "lane") then parseLaneMutation value seq
  else if kind = some (js "fact") then parseFactMutation value seq
  else .error (schemaError "has unknown mutation kind")

/-- The metadata of a header. -/
def optionalObject (value : Option JsValue) :
    Except JsonlDecodeError (Option { v : JsValue // v.isObject = true }) :=
  match value with
  | none => .ok none
  | some v => if h : v.isObject = true then .ok (some ⟨v, h⟩) else .error (invalidField "metadata")

/-- `decodeHeader` -/
def decodeHeader (line : JsString) : Except JsonlDecodeError JsonlV4Header := do
  let value ← parseObject line
  if (value.get? (js "kind")).bind JsValue.str? ≠ some (js "header") then
    .error (schemaError "is not a header")
  else if (value.get? (js "version")).bind JsValue.nat? ≠ some 4 then
    .error (schemaError "has unsupported session version")
  else
    let parentSessionId ← optionalString (value.get? (js "parentSessionId")) "parentSessionId"
    let legacyParentSessionPath ←
      optionalString (value.get? (js "legacyParentSessionPath")) "legacyParentSessionPath"
    if h : parentSessionId = none ∨ legacyParentSessionPath = none then
      let metadata ← optionalObject (value.get? (js "metadata"))
      let id ← requireString (value.get? (js "id")) "id"
      let createdAt ← requireTimestamp (value.get? (js "createdAt"))
      let cwd ← requireString (value.get? (js "cwd")) "cwd"
      return ⟨id, createdAt, cwd, parentSessionId, legacyParentSessionPath, metadata, h⟩
    else .error (schemaError "has both parentSessionId and legacyParentSessionPath")

/-! ## What is written is read back -/

theorem parseObject_object (fields : List (JsString × JsValue)) :
    parseObject (JsValue.object fields).stringify = .ok (.ofFields fields) := by
  rw [parseObject, JsValue.parse_stringify]
  show (if (JsValue.object fields).isObject then _ else _) = _
  rw [if_pos (JsValue.isObject_object fields), JsValue.objectFields_object]

@[simp] theorem requireString_str (s : JsString) (field : String) :
    requireString (some (.str s)) field = .ok s := rfl

@[simp] theorem optionalString_map (o : Option JsString) (field : String) :
    optionalString (o.map .str) field = .ok o := by
  cases o <;> rfl

@[simp] theorem requireNullableId_elim (o : Option JsString) (field : String) :
    requireNullableId (some (o.elim .null .str)) field = .ok o := by
  cases o with
  | none => rfl
  | some s =>
    have hne : some (JsValue.str s) ≠ some .null := by
      intro h
      have hjson := congrArg JsValue.json (Option.some.inj h)
      cases hjson
    show requireNullableId (some (.str s)) field = _
    rw [requireNullableId, if_neg hne]
    rfl

theorem requireSequence_nat {n : Nat} (hpos : 0 < n) (hsafe : n ≤ maxSafeInteger) :
    requireSequence (some (.nat n)) = .ok n := by
  simp [requireSequence, hpos, hsafe]

/-- A number that is not safe is rejected. -/
theorem requireSequence_tooLarge {n : Nat} (h : maxSafeInteger < n) :
    requireSequence (some (.nat n)) = .error (invalidField "seq") := by
  have hnot : ¬(0 < n ∧ n ≤ maxSafeInteger) := fun hn => Nat.not_lt.mpr hn.2 h
  simp [requireSequence, hnot]

@[simp] theorem requireTimestamp_ms (t : Timestamp) :
    requireTimestamp (some (.nat t.ms)) = .ok t := by
  simp [requireTimestamp, t.safe]

@[simp] theorem optionalObject_unattach (o : Option { v : JsValue // v.isObject = true }) :
    optionalObject o.unattach = .ok o := by
  cases o with
  | none => rfl
  | some v => simp [optionalObject, v.2]

/-! ### Payloads -/

namespace Payload

variable {reserved : List String} {as bs : List (JsString × JsValue)}

theorem not_mem_keys (p : Payload reserved) {key : String} (hkey : key ∈ reserved) :
    js key ∉ p.fields.entries.map Prod.fst := by
  intro hmem
  have hhas := JsMap.has_iff.mpr hmem
  rw [p.free key hkey] at hhas
  cases hhas

/-- A reserved field is read from around the payload. -/
theorem get?_around (p : Payload reserved) {key : String} (hkey : key ∈ reserved) :
    (JsMap.ofFields (as ++ p.fields.entries ++ bs)).get? (js key)
      = JsValue.lastField? (as ++ bs) (js key) := by
  have hnone : JsValue.lastField? p.fields.entries (js key) = none :=
    JsValue.lastField?_eq_none (p.not_mem_keys hkey)
  rw [JsValue.get?_ofFields, JsValue.lastField?_append, JsValue.lastField?_append,
    JsValue.lastField?_append, hnone, Option.none_or]

/-- What a rest pattern leaves of an object that has reserved fields around a payload. -/
theorem ofRest_around (p : Payload reserved)
    (has : ∀ f ∈ as, f.1 ∈ reserved.map fun key => js key)
    (hbs : ∀ f ∈ bs, f.1 ∈ reserved.map fun key => js key)
    (hnd : ((as ++ bs).map Prod.fst).Nodup) :
    ofRest reserved (.ofFields (as ++ p.fields.entries ++ bs)) = p := by
  have hfree : ∀ k ∈ p.fields.entries.map Prod.fst, k ∉ reserved.map fun key => js key := by
    intro k hk hmem
    obtain ⟨key, hkey, rfl⟩ := List.mem_map.mp hmem
    exact p.not_mem_keys hkey hk
  have hkeys : ((as ++ p.fields.entries ++ bs).map Prod.fst).Nodup := by
    rw [List.map_append] at hnd
    obtain ⟨hnas, hnbs, hdisj⟩ := List.nodup_append.mp hnd
    rw [List.map_append, List.map_append, List.nodup_append, List.nodup_append]
    refine ⟨⟨hnas, p.fields.nodup, ?_⟩, hnbs, ?_⟩
    · rintro a ha b hb rfl
      obtain ⟨f, hf, rfl⟩ := List.mem_map.mp ha
      exact hfree _ hb (has f hf)
    · rintro a ha b hb rfl
      rcases List.mem_append.mp ha with ha | ha
      · exact hdisj a ha a hb rfl
      · obtain ⟨f, hf, rfl⟩ := List.mem_map.mp hb
        exact hfree _ ha (hbs f hf)
  refine Payload.ext (JsMap.ext ?_)
  exact JsMap.deleteAll_around hkeys has (fun f hf => hfree f.1 (List.mem_map_of_mem hf)) hbs

end Payload

/-! ### Mutations -/

/-- The number of a mutation stands in its object. -/
theorem lastField?_seq (m : SessionMutation) :
    JsValue.lastField? m.toFields (js "seq") = some (.nat m.seq) := by
  cases m with
  | entry lane e => simp [SessionMutation.toFields, Entry.toFields, SessionMutation.seq]
  | record r => simp [SessionMutation.toFields, LaneRecord.toFields, SessionMutation.seq]
  | lane seq lane leafId => simp [SessionMutation.toFields, SessionMutation.seq]
  | name seq name => simp [SessionMutation.toFields, SessionMutation.seq]
  | label seq targetId label => simp [SessionMutation.toFields, SessionMutation.seq]

theorem decodeMutation_eq (m : SessionMutation) : decodeMutation m.text = (do
    let seq ← requireSequence (some (.nat m.seq))
    let value := JsMap.ofFields m.toFields
    let kind := (value.get? (js "kind")).bind JsValue.str?
    if kind = some (js "entry") then parseEntryMutation value seq
    else if kind = some (js "record") then parseRecordMutation value seq
    else if kind = some (js "lane") then parseLaneMutation value seq
    else if kind = some (js "fact") then parseFactMutation value seq
    else .error (schemaError "has unknown mutation kind")) := by
  rw [decodeMutation, SessionMutation.text, parseObject_object]
  simp only [bind, Except.bind, JsValue.get?_ofFields, lastField?_seq]

/-- A line with a number that is not safe is rejected, and not as a torn line. -/
theorem decodeMutation_tooLarge {m : SessionMutation} (h : maxSafeInteger < m.seq) :
    decodeMutation m.text = .error (invalidField "seq") := by
  rw [decodeMutation_eq, requireSequence_tooLarge h]
  rfl

/-- What stands in the line of an entry before its payload. -/
def Entry.before (lane : Option JsString) (e : Entry) : List (JsString × JsValue) :=
  (js "kind", .str (js "entry")) :: (JsValue.optField (js "lane") lane .str
    ++ [(js "type", .str (js e.type.text)), (js "id", .str e.id)])

/-- What stands in the line of an entry behind its payload. -/
def Entry.behind (e : Entry) : List (JsString × JsValue) :=
  [(js "parentId", e.parentId.elim .null .str), (js "seq", .nat e.seq),
    (js "timestamp", .nat e.timestamp.ms)]

theorem toFields_entry (lane : Option JsString) (e : Entry) :
    (SessionMutation.entry lane e).toFields
      = e.before lane ++ e.payload.fields.entries ++ e.behind := by
  simp [SessionMutation.toFields, Entry.toFields, Entry.before, Entry.behind]

theorem get?_entry (lane : Option JsString) (e : Entry) {key : String} (hkey : key ∈ entryFields) :
    (JsMap.ofFields (SessionMutation.entry lane e).toFields).get? (js key)
      = JsValue.lastField? (e.before lane ++ e.behind) (js key) := by
  rw [toFields_entry, e.payload.get?_around hkey]

theorem ofRest_entry (lane : Option JsString) (e : Entry) :
    Payload.ofRest entryFields (.ofFields (SessionMutation.entry lane e).toFields) = e.payload := by
  rw [toFields_entry]
  refine e.payload.ofRest_around ?_ ?_ ?_
  · cases lane <;> simp [Entry.before, JsValue.optField, entryFields]
  · simp [Entry.behind, entryFields]
  · cases lane <;> simp [Entry.before, Entry.behind, JsValue.optField]

theorem parseEntryMutation_toFields (lane : Option JsString) (e : Entry) :
    parseEntryMutation (.ofFields (SessionMutation.entry lane e).toFields) e.seq
      = .ok (.entry lane e) := by
  have hnone : e.type.rejection? e.payload = none := by
    have haccepted := e.accepted
    rwa [EntryType.accepts, Option.isNone_iff_eq_none] at haccepted
  unfold parseEntryMutation
  rw [get?_entry lane e (by decide), get?_entry lane e (by decide), get?_entry lane e (by decide),
    get?_entry lane e (by decide), get?_entry lane e (by decide)]
  simp only [Entry.before, Entry.behind, List.cons_append, List.append_assoc, List.nil_append,
    JsValue.lastField?_cons, JsValue.lastField?_append, JsValue.lastField?_optField,
    JsValue.lastField?_nil, js_inj, String.reduceEq, if_false, if_true, Option.none_or,
    Option.or_none, Option.or_some, Option.getD_none, optionalString_map, requireString_str,
    requireNullableId_elim, requireTimestamp_ms, bind, Except.bind, EntryType.ofText?_text]
  split
  · rename_i message hmessage
    rw [ofRest_entry, hnone] at hmessage
    cases hmessage
  · simp only [ofRest_entry]
    rfl

/-- What stands in the line of a record before its payload. -/
def LaneRecord.before (r : LaneRecord) : List (JsString × JsValue) :=
  [(js "kind", .str (js "record")), (js "type", .str (js r.type.text)), (js "id", .str r.id),
    (js "lane", .str r.lane)]

/-- What stands in the line of a record behind its payload. -/
def LaneRecord.behind (r : LaneRecord) : List (JsString × JsValue) :=
  [(js "seq", .nat r.seq), (js "timestamp", .nat r.timestamp.ms)]

theorem toFields_record (r : LaneRecord) : (SessionMutation.record r).toFields
    = r.before ++ r.payload.fields.entries ++ r.behind := by
  simp [SessionMutation.toFields, LaneRecord.toFields, LaneRecord.before, LaneRecord.behind]

theorem get?_record (r : LaneRecord) {key : String} (hkey : key ∈ recordFields) :
    (JsMap.ofFields (SessionMutation.record r).toFields).get? (js key)
      = JsValue.lastField? (r.before ++ r.behind) (js key) := by
  rw [toFields_record, r.payload.get?_around hkey]

theorem ofRest_record (r : LaneRecord) :
    Payload.ofRest recordFields (.ofFields (SessionMutation.record r).toFields) = r.payload := by
  rw [toFields_record]
  refine r.payload.ofRest_around ?_ ?_ ?_
  · simp [LaneRecord.before, recordFields]
  · simp [LaneRecord.behind, recordFields]
  · simp [LaneRecord.before, LaneRecord.behind]

theorem parseRecordMutation_toFields (r : LaneRecord) :
    parseRecordMutation (.ofFields (SessionMutation.record r).toFields) r.seq
      = .ok (.record r) := by
  have hnone : r.type.rejection? r.payload = none := by
    have haccepted := r.accepted
    rwa [RecordType.accepts, Option.isNone_iff_eq_none] at haccepted
  unfold parseRecordMutation
  rw [get?_record r (by decide), get?_record r (by decide), get?_record r (by decide),
    get?_record r (by decide)]
  simp only [LaneRecord.before, LaneRecord.behind, List.cons_append, List.nil_append,
    JsValue.lastField?_cons, JsValue.lastField?_nil, js_inj, String.reduceEq, if_false, if_true,
    Option.or_none, Option.or_some, Option.getD_none, requireString_str, requireTimestamp_ms, bind,
    Except.bind, RecordType.ofText?_text]
  split
  · rename_i message hmessage
    rw [ofRest_record, hnone] at hmessage
    cases hmessage
  · simp only [ofRest_record]
    rfl

/-- **Decoding inverts encoding**, as long as the number is a safe integer. -/
theorem decodeMutation_text {m : SessionMutation} (hpos : 0 < m.seq)
    (hsafe : m.seq ≤ maxSafeInteger) : decodeMutation m.text = .ok m := by
  rw [decodeMutation_eq, requireSequence_nat hpos hsafe]
  cases m with
  | entry lane e =>
    have hkind : (JsMap.ofFields (SessionMutation.entry lane e).toFields).get? (js "kind")
        = some (.str (js "entry")) := by
      rw [get?_entry lane e (by decide)]
      simp [Entry.before, Entry.behind]
    simp only [bind, Except.bind, hkind, Option.bind_some, JsValue.str?_str, if_true]
    exact parseEntryMutation_toFields lane e
  | record r =>
    have hkind : (JsMap.ofFields (SessionMutation.record r).toFields).get? (js "kind")
        = some (.str (js "record")) := by
      rw [get?_record r (by decide)]
      simp [LaneRecord.before, LaneRecord.behind]
    simp only [bind, Except.bind, hkind, Option.bind_some, JsValue.str?_str, if_true,
      Option.some.injEq, js_inj, String.reduceEq, if_false]
    exact parseRecordMutation_toFields r
  | lane seq lane leafId =>
    simp [bind, Except.bind, JsValue.get?_ofFields, SessionMutation.toFields, parseLaneMutation,
      SessionMutation.seq]
    rfl
  | name seq name =>
    simp [bind, Except.bind, JsValue.get?_ofFields, SessionMutation.toFields, parseFactMutation,
      SessionMutation.seq]
    rfl
  | label seq targetId label =>
    simp [bind, Except.bind, JsValue.get?_ofFields, SessionMutation.toFields, parseFactMutation,
      SessionMutation.seq]
    rfl

/-- The text of a header is read as the header. -/
theorem decodeHeader_text (h : JsonlV4Header) : decodeHeader h.text = .ok h := by
  rw [decodeHeader, JsonlV4Header.text, parseObject_object]
  simp [bind, Except.bind, JsValue.get?_ofFields, JsonlV4Header.toFields, h.oneParent]
  rfl

end PiMono.Harness
