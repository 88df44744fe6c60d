import PiMono.Lib.JsonText
import PiMono.Ai.TransformMessages

/-!
# Validating the arguments of a tool call

`validateToolArguments` first coerces the arguments towards the schema of the tool (models send
`"5"` for `5`), then checks them. The compiled validator is a parameter (`check`), and so is what
`Number` makes of a text; a schema carries the value constraints it adds to its types as one
predicate. The model follows `packages/ai/src/utils/validation.ts`.
-/

namespace PiMono.Ai

/-! ## Schemas and values -/

/-- The types a schema can name. -/
inductive SchemaType where
  | number
  | integer
  | boolean
  | string
  | null
  | array
  | object
  deriving DecidableEq, Repr

/-- `items`: none, one schema for all of them, or a schema for each place. -/
inductive ItemSchemas (σ : Type) where
  | none
  | all (schema : σ)
  | each (schemas : List σ)

/-- A value as the coercion sees it: JSON, and the functions that `value[key]` finds in
`Object.prototype` where the object has no such field. -/
inductive ToolValue where
  | null
  | bool (b : Bool)
  | num (x : JsNumber)
  | str (s : JsString)
  | arr (items : List ToolValue)
  | obj (fields : List (JsString × ToolValue))
  | inherited (key : JsString)

/-- A schema. An absent list is empty; `additionalProperties: false`, `required`, `enum`, bounds
and patterns are among what the constraint says. -/
inductive JsonSchemaObject where
  | mk (type : List SchemaType) (properties : List (JsString × JsonSchemaObject))
    (items : ItemSchemas JsonSchemaObject) (additionalProperties : Option JsonSchemaObject)
    (allOf anyOf oneOf : List JsonSchemaObject) (constraint : ToolValue → Bool)

/-- The members of `Object.prototype` that are functions. (`__proto__` is an accessor: what is
assigned there is not part of the value.) -/
def prototypeKeys : List JsString :=
  [js "constructor", js "__defineGetter__", js "__defineSetter__", js "hasOwnProperty",
    js "__lookupGetter__", js "__lookupSetter__", js "isPrototypeOf", js "propertyIsEnumerable",
    js "toString", js "valueOf", js "toLocaleString"]

namespace ToolValue

mutual

def ofJson : Json → ToolValue
  | .null => .null
  | .bool b => .bool b
  | .num x => .num x
  | .str s => .str s
  | .arr items => .arr (ofItems items)
  | .obj fields => .obj (ofFields fields)

def ofItems : List Json → List ToolValue
  | [] => []
  | v :: vs => ofJson v :: ofItems vs

def ofFields : List (JsString × Json) → List (JsString × ToolValue)
  | [] => []
  | (key, v) :: fields => (key, ofJson v) :: ofFields fields

end

mutual

/-- Some part of the value is a function. -/
def holdsInherited : ToolValue → Bool
  | .inherited _ => true
  | .arr items => itemsHoldInherited items
  | .obj fields => fieldsHoldInherited fields
  | .null | .bool _ | .num _ | .str _ => false

def itemsHoldInherited : List ToolValue → Bool
  | [] => false
  | v :: vs => holdsInherited v || itemsHoldInherited vs

def fieldsHoldInherited : List (JsString × ToolValue) → Bool
  | [] => false
  | (_, v) :: fields => holdsInherited v || fieldsHoldInherited fields

end

/-- `typeof value === "object" && value !== null` -/
def isContainer : ToolValue → Bool
  | .arr _ | .obj _ => true
  | .null | .bool _ | .num _ | .str _ | .inherited _ => false

/-- `v !== w`, where `w` is a scalar or `v` itself. -/
def differs : ToolValue → ToolValue → Bool
  | .null, .null => false
  | .bool b, .bool c => b != c
  | .num x, .num y => x != y
  | .str s, .str t => s != t
  | .arr _, .arr _ => false
  | .obj _, .obj _ => false
  | .inherited _, .inherited _ => false
  | _, _ => true

end ToolValue

/-- `Number.isInteger` -/
def isInteger (x : JsNumber) : Bool := x.digits.length ≤ x.point

def matchesJsonType (value : ToolValue) (type : SchemaType) : Bool :=
  match type, value with
  | .number, .num _ => true
  | .integer, .num x => isInteger x
  | .boolean, .bool _ => true
  | .string, .str _ => true
  | .null, .null => true
  | .array, .arr _ => true
  | .object, .obj _ => true
  | _, _ => false

/-! ## Coercion -/

/-- `structuredClone` finds a function. -/
inductive DataCloneError where
  | mk
  deriving DecidableEq, Repr

def structuredClone (value : ToolValue) : Except DataCloneError ToolValue :=
  if value.holdsInherited then .error .mk else .ok value

section Coercion

variable (number : JsString → Option JsNumber) (check : JsonSchemaObject → ToolValue → Bool)

/-- What `number` makes of a text is a number when `Number` makes a finite one of it. -/
def coercePrimitiveByType (value : ToolValue) (type : SchemaType) : ToolValue :=
  match type with
  | .number =>
    match value with
    | .null => .num (.ofNat 0)
    | .str s =>
      if trim s ≠ [] then
        match number s with
        | some parsed => .num parsed
        | none => value
      else value
    | .bool b => .num (.ofNat (if b then 1 else 0))
    | _ => value
  | .integer =>
    match value with
    | .null => .num (.ofNat 0)
    | .str s =>
      if trim s ≠ [] then
        match number s with
        | some parsed => if isInteger parsed then .num parsed else value
        | none => value
      else value
    | .bool b => .num (.ofNat (if b then 1 else 0))
    | _ => value
  | .boolean =>
    match value with
    | .null => .bool false
    | .str s => if s = js "true" then .bool true else if s = js "false" then .bool false else value
    | .num x => if x = .ofNat 1 then .bool true else if x = .ofNat 0 then .bool false else value
    | _ => value
  | .string =>
    match value with
    | .null => .str []
    | .num x => .str x.text
    | .bool b => .str (js (if b then "true" else "false"))
    | _ => value
  | .null =>
    match value with
    | .str s => if s = [] then .null else value
    | .num x => if x = .ofNat 0 then .null else value
    | .bool b => if b then value else .null
    | _ => value
  | .array | .object => value

/-- The loop over the types: the first of them that changes the value. -/
def coerceByTypes (value : ToolValue) : List SchemaType → ToolValue
  | [] => value
  | type :: rest =>
    let candidate := coercePrimitiveByType number value type
    if candidate.differs value then candidate else coerceByTypes value rest

/-- The types of a schema at work on a value that is none of a list of two or more. -/
def coerceTypes (types : List SchemaType) (value : ToolValue) : ToolValue :=
  if types.length > 1 && types.any (matchesJsonType value) then value
  else coerceByTypes number value types

/-- A union: the value, if a member accepts it, else the first coerced clone that its member
accepts. `candidates` is the second loop. The flag says that a clone is returned. -/
def unionValue (schemas : List JsonSchemaObject) (value : ToolValue)
    (candidates : Except DataCloneError (Option ToolValue)) :
    Except DataCloneError (ToolValue × Bool) :=
  if schemas.any fun schema => check schema value then .ok (value, false)
  else do
    match ← candidates with
    | some coerced => .ok (coerced, true)
    | none => .ok (value, false)

mutual

/-- The coerced value, and whether it is another object than the one passed in (which is
otherwise changed in place). -/
def coerceWithJsonSchema :
    JsonSchemaObject → ToolValue → Except DataCloneError (ToolValue × Bool)
  | .mk type properties items additionalProperties allOf anyOf oneOf _, value => do
    let (value, cloned) ← coerceAllOf allOf value
    let (value, clonedAny) ← unionValue check anyOf value (coerceCandidates anyOf value)
    let (value, clonedOne) ← unionValue check oneOf value (coerceCandidates oneOf value)
    let cloned := cloned || clonedAny || clonedOne
    match coerceTypes number type value with
    | .obj fields =>
      if .object ∈ type then
        let fields ← coerceProperties properties fields
        match additionalProperties with
        | none => .ok (.obj fields, cloned)
        | some schema =>
          let fields ← fields.mapM fun (key, propertyValue) =>
            if key ∈ properties.map Prod.fst then .ok (key, propertyValue)
            else do
              let (coerced, _) ← coerceWithJsonSchema schema propertyValue
              .ok (key, coerced)
          .ok (.obj fields, cloned)
      else .ok (.obj fields, cloned)
    | .arr values =>
      if .array ∈ type then
        match items with
        | .none => .ok (.arr values, cloned)
        | .all schema =>
          let values ← values.mapM fun item => do
            let (coerced, _) ← coerceWithJsonSchema schema item
            .ok coerced
          .ok (.arr values, cloned)
        | .each schemas =>
          let values ← coerceItems schemas values
          .ok (.arr values, cloned)
      else .ok (.arr values, cloned)
    | value => .ok (value, cloned)

def coerceAllOf : List JsonSchemaObject → ToolValue → Except DataCloneError (ToolValue × Bool)
  | [], value => .ok (value, false)
  | nested :: rest, value => do
    let (value, cloned) ← coerceWithJsonSchema nested value
    let (value, clonedRest) ← coerceAllOf rest value
    .ok (value, cloned || clonedRest)

def coerceCandidates :
    List JsonSchemaObject → ToolValue → Except DataCloneError (Option ToolValue)
  | [], _ => .ok none
  | schema :: rest, value => do
    let candidate ← structuredClone value
    let (coerced, _) ← coerceWithJsonSchema schema candidate
    if check schema coerced then .ok (some coerced) else coerceCandidates rest value

/-- The loop over `schema.properties`; `key in value` also sees what objects inherit. -/
def coerceProperties : List (JsString × JsonSchemaObject) → List (JsString × ToolValue) →
    Except DataCloneError (List (JsString × ToolValue))
  | [], fields => .ok fields
  | (key, propertySchema) :: rest, fields =>
    match fieldValue? fields key with
    | some value => do
      let (coerced, _) ← coerceWithJsonSchema propertySchema value
      coerceProperties rest (setField fields key coerced)
    | none =>
      if key ∈ prototypeKeys then do
        let (coerced, _) ← coerceWithJsonSchema propertySchema (.inherited key)
        coerceProperties rest (setField fields key coerced)
      else coerceProperties rest fields

/-- Items and their schemas, place by place. -/
def coerceItems : List JsonSchemaObject → List ToolValue → Except DataCloneError (List ToolValue)
  | [], values => .ok values
  | _ :: _, [] => .ok []
  | itemSchema :: schemas, value :: values => do
    let (coerced, _) ← coerceWithJsonSchema itemSchema value
    let rest ← coerceItems schemas values
    .ok (coerced :: rest)

end

def coerceWithUnionSchema (value : ToolValue) (schemas : List JsonSchemaObject) :
    Except DataCloneError (ToolValue × Bool) :=
  unionValue check schemas value (coerceCandidates number check schemas value)

def coerceValue (schema : JsonSchemaObject) (value : ToolValue) :
    Except DataCloneError ToolValue := do
  let (coerced, _) ← coerceWithJsonSchema number check schema value
  .ok coerced

def applySchemaObjectCoercion (properties : List (JsString × JsonSchemaObject))
    (additionalProperties : Option JsonSchemaObject) (fields : List (JsString × ToolValue)) :
    Except DataCloneError (List (JsString × ToolValue)) := do
  let fields ← coerceProperties number check properties fields
  match additionalProperties with
  | none => .ok fields
  | some schema => fields.mapM fun (key, propertyValue) =>
      if key ∈ properties.map Prod.fst then .ok (key, propertyValue)
      else do
        let (coerced, _) ← coerceWithJsonSchema number check schema propertyValue
        .ok (key, coerced)

def applySchemaArrayCoercion (items : ItemSchemas JsonSchemaObject) (values : List ToolValue) :
    Except DataCloneError (List ToolValue) :=
  match items with
  | .none => .ok values
  | .all schema => values.mapM (coerceValue number check schema)
  | .each schemas => coerceItems number check schemas values

/-- What the types of a schema do inside an object or an array. -/
def coerceContents (type : List SchemaType) (properties : List (JsString × JsonSchemaObject))
    (items : ItemSchemas JsonSchemaObject) (additionalProperties : Option JsonSchemaObject) :
    ToolValue → Except DataCloneError ToolValue
  | .obj fields =>
    if .object ∈ type then
      .obj <$> applySchemaObjectCoercion number check properties additionalProperties fields
    else .ok (.obj fields)
  | .arr values =>
    if .array ∈ type then .arr <$> applySchemaArrayCoercion number check items values
    else .ok (.arr values)
  | value => .ok value

theorem coerceWithJsonSchema_mk (type : List SchemaType)
    (properties : List (JsString × JsonSchemaObject)) (items : ItemSchemas JsonSchemaObject)
    (additionalProperties : Option JsonSchemaObject) (allOf anyOf oneOf : List JsonSchemaObject)
    (constraint : ToolValue → Bool) (value : ToolValue) :
    coerceWithJsonSchema number check
      (.mk type properties items additionalProperties allOf anyOf oneOf constraint) value = (do
        let (value, cloned) ← coerceAllOf number check allOf value
        let (value, clonedAny) ← coerceWithUnionSchema number check value anyOf
        let (value, clonedOne) ← coerceWithUnionSchema number check value oneOf
        let coerced ← coerceContents number check type properties items additionalProperties
          (coerceTypes number type value)
        .ok (coerced, cloned || clonedAny || clonedOne)) := by
  rw [coerceWithJsonSchema]
  refine bind_congr fun afterAll => bind_congr fun afterAny => bind_congr fun afterOne => ?_
  obtain ⟨value, clonedOne⟩ := afterOne
  generalize htyped : coerceTypes number type value = typed
  cases typed with
  | obj fields =>
    simp only [htyped, coerceContents, applySchemaObjectCoercion]
    by_cases hobject : SchemaType.object ∈ type
    · rw [if_pos hobject, if_pos hobject, map_bind, bind_assoc]
      refine bind_congr fun fields => ?_
      cases additionalProperties with
      | none => rfl
      | some schema =>
        rw [bind_map_left]
    · rw [if_neg hobject, if_neg hobject]
      rfl
  | arr values =>
    simp only [htyped, coerceContents, applySchemaArrayCoercion]
    by_cases harray : SchemaType.array ∈ type
    · rw [if_pos harray, if_pos harray]
      cases items with
      | none => rfl
      | all schema =>
        rw [bind_map_left]
        rfl
      | each schemas =>
        rw [bind_map_left]
    · rw [if_neg harray, if_neg harray]
      rfl
  | _ =>
    simp only [htyped, coerceContents]
    rfl

end Coercion

/-! ## Validation -/

/-- What the validator reports of one failure. -/
structure LocalizedValidationError where
  keyword : JsString
  instancePath : JsString
  requiredProperties : List JsString
  message : JsString
  deriving DecidableEq

/-- `instancePath.replace(/^\//, "").replace(/\//g, ".")` -/
def dottedPath (instancePath : JsString) : JsString :=
  let path := if instancePath.head? = some 0x2F then instancePath.tail else instancePath
  path.map fun u => if u = 0x2F then 0x2E else u

def formatValidationPath (error : LocalizedValidationError) : JsString :=
  let path := dottedPath error.instancePath
  let requiredProperty := if error.keyword = js "required" then error.requiredProperties.headD []
    else []
  if requiredProperty ≠ [] then
    if path ≠ [] then path ++ js "." ++ requiredProperty else requiredProperty
  else if path ≠ [] then path else js "root"

structure Tool where
  name : JsString
  parameters : JsonSchemaObject
  /-- The schema was built by the TypeBox library and carries its `Kind` symbol. -/
  typeBoxKind : Bool

inductive ValidationError where
  | dataClone
  | failed (message : JsString)
  deriving DecidableEq

section Validate

variable (number : JsString → Option JsNumber) (check : JsonSchemaObject → ToolValue → Bool)
  (errorsOf : JsonSchemaObject → ToolValue → List LocalizedValidationError)
  (stringify : Json → JsString)

/-- The text of the failure; `stringify` is `JSON.stringify(arguments, null, 2)`. -/
def errorMessage (tool : Tool) (toolCall : ToolCall Json) (args : ToolValue) : JsString :=
  let errors := (js "\n").intercalate ((errorsOf tool.parameters args).map fun error =>
    js "  - " ++ formatValidationPath error ++ js ": " ++ error.message)
  js "Validation failed for tool \"" ++ toolCall.name ++ js "\":\n"
    ++ (if errors ≠ [] then errors else js "Unknown validation error")
    ++ js "\n\nReceived arguments:\n" ++ stringify toolCall.arguments

/-- The check both ways end in. -/
def checkArguments (tool : Tool) (toolCall : ToolCall Json) (args : ToolValue) :
    Except ValidationError ToolValue :=
  if check tool.parameters args then .ok args
  else .error (.failed (errorMessage errorsOf stringify tool toolCall args))

/-- `Object.assign` onto the emptied arguments; setting `__proto__` makes no field. -/
def assignArguments : ToolValue → ToolValue
  | .obj fields => .obj (fields.filter fun field => field.1 ≠ js "__proto__")
  | coerced => coerced

/-- `Value.Convert` is taken to leave the arguments alone. -/
def validateToolArguments (tool : Tool) (toolCall : ToolCall Json) :
    Except ValidationError ToolValue :=
  let args := ToolValue.ofJson toolCall.arguments
  if tool.typeBoxKind then checkArguments check errorsOf stringify tool toolCall args
  else
    match coerceWithJsonSchema number check tool.parameters args with
    | .error _ => .error .dataClone
    | .ok (coerced, cloned) =>
      if args.isContainer && coerced.isContainer then
        checkArguments check errorsOf stringify tool toolCall
          (if cloned then assignArguments coerced else coerced)
      else if coerced.differs args then
        .ok (if check tool.parameters coerced then coerced else args)
      else checkArguments check errorsOf stringify tool toolCall args

end Validate

end PiMono.Ai
