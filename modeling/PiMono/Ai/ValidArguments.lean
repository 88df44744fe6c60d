import PiMono.Ai.Validation
import PiMono.Lib.Except

/-!
# Validated arguments

What `validateToolArguments` returns satisfies the schema, and arguments that satisfy it come back
as they are, but for two slips. A scalar that the coercion changes is returned unchecked, and a
declared property that an object lacks is looked up in `Object.prototype`
(`validateToolArguments_iff`).

- `satisfies` is what a schema says, `readsInherited` where the coercion looks into the prototype;
- what has been read from there stays (`coerceWithJsonSchema_keeps`);
- where nothing is, a value that satisfies its schema is not changed
  (`coerceWithJsonSchema_of_satisfies`).
-/

namespace PiMono.Ai

/-! ## What a schema says -/

mutual

/-- The value satisfies the schema. -/
def satisfies : JsonSchemaObject → ToolValue → Bool
  | .mk type properties items additionalProperties allOf anyOf oneOf constraint, value =>
    (type.isEmpty || type.any (matchesJsonType value)) && satisfiesAll allOf value
      && (anyOf.isEmpty || satisfiedCount anyOf value != 0)
      && (oneOf.isEmpty || satisfiedCount oneOf value == 1)
      && (match value with
        | .obj fields => propertiesSatisfied properties fields &&
          match additionalProperties with
          | none => true
          | some schema => fields.all fun field =>
              decide (field.1 ∈ properties.map Prod.fst) || satisfies schema field.2
        | .arr values =>
          match items with
          | .none => true
          | .all schema => values.all (satisfies schema)
          | .each schemas => itemsSatisfied schemas values
        | _ => true)
      && constraint value

/-- The value satisfies all the schemas. -/
def satisfiesAll : List JsonSchemaObject → ToolValue → Bool
  | [], _ => true
  | schema :: rest, value => satisfies schema value && satisfiesAll rest value

/-- How many of the schemas the value satisfies. -/
def satisfiedCount : List JsonSchemaObject → ToolValue → Nat
  | [], _ => 0
  | schema :: rest, value => (if satisfies schema value then 1 else 0) + satisfiedCount rest value

/-- The declared properties that are there satisfy their schemas. -/
def propertiesSatisfied :
    List (JsString × JsonSchemaObject) → List (JsString × ToolValue) → Bool
  | [], _ => true
  | (key, schema) :: rest, fields =>
    (match fieldValue? fields key with
      | none => true
      | some value => satisfies schema value) && propertiesSatisfied rest fields

/-- The items satisfy the schemas at their places. -/
def itemsSatisfied : List JsonSchemaObject → List ToolValue → Bool
  | [], _ => true
  | _ :: _, [] => true
  | schema :: schemas, value :: values => satisfies schema value && itemsSatisfied schemas values

end

mutual

/-- Coercing a value that satisfies the schema comes to an object that lacks a declared property
whose name is that of a function all objects inherit. -/
def readsInherited : JsonSchemaObject → ToolValue → Bool
  | .mk type properties items additionalProperties allOf _ _ _, value =>
    anyReadsInherited allOf value ||
      match value with
      | .obj fields => decide (SchemaType.object ∈ type) &&
        (propertiesReadInherited properties fields ||
          match additionalProperties with
          | none => false
          | some schema => fields.any fun field =>
              decide (field.1 ∉ properties.map Prod.fst) && readsInherited schema field.2)
      | .arr values => decide (SchemaType.array ∈ type) &&
        match items with
        | .none => false
        | .all schema => values.any (readsInherited schema)
        | .each schemas => itemsReadInherited schemas values
      | _ => false

/-- The same for a list of schemas. -/
def anyReadsInherited : List JsonSchemaObject → ToolValue → Bool
  | [], _ => false
  | schema :: rest, value => readsInherited schema value || anyReadsInherited rest value

/-- The same for the declared properties. -/
def propertiesReadInherited :
    List (JsString × JsonSchemaObject) → List (JsString × ToolValue) → Bool
  | [], _ => false
  | (key, schema) :: rest, fields =>
    (match fieldValue? fields key with
      | none => decide (key ∈ prototypeKeys)
      | some value => readsInherited schema value) || propertiesReadInherited rest fields

/-- The same for items. -/
def itemsReadInherited : List JsonSchemaObject → List ToolValue → Bool
  | [], _ => false
  | _ :: _, [] => false
  | schema :: schemas, value :: values =>
    readsInherited schema value || itemsReadInherited schemas values

end

section Conversion

variable (number : JsString → Option JsNumber)

mutual

/-- What a schema makes of a scalar: the types of the schemas under `allOf`, then those of the
member of each union that accepts what they make of it, then its own. -/
def conversion : JsonSchemaObject → ToolValue → ToolValue
  | .mk type _ _ _ allOf anyOf oneOf _, value =>
    let value := conversionAll allOf value
    let value := if anyOf.any fun schema => satisfies schema value then value
      else (memberConversion anyOf value).getD value
    let value := if oneOf.any fun schema => satisfies schema value then value
      else (memberConversion oneOf value).getD value
    coerceTypes number type value

/-- The conversions, one after the other. -/
def conversionAll : List JsonSchemaObject → ToolValue → ToolValue
  | [], value => value
  | schema :: rest, value => conversionAll rest (conversion schema value)

/-- The first conversion that satisfies its schema. -/
def memberConversion : List JsonSchemaObject → ToolValue → Option ToolValue
  | [], _ => none
  | schema :: rest, value =>
    if satisfies schema (conversion schema value) then some (conversion schema value)
    else memberConversion rest value

end

/-- What a union makes of a scalar. -/
def unionConversion (schemas : List JsonSchemaObject) (value : ToolValue) : ToolValue :=
  if schemas.any fun schema => satisfies schema value then value
  else (memberConversion number schemas value).getD value

/-- Arguments that are no object and no array, changed by the conversion into a value that does
not satisfy the schema either. -/
def Misconverted (schema : JsonSchemaObject) (args : ToolValue) : Prop :=
  args.isContainer = false ∧ (conversion number schema args).differs args = true ∧
    satisfies schema (conversion number schema args) = false

end Conversion

/-! ## Scalars and containers -/

namespace ToolValue

theorem differs_self (value : ToolValue) : value.differs value = false := by
  cases value <;> simp [differs]

end ToolValue

section Types

variable (number : JsString → Option JsNumber)

/-- A value of the type is left as it is. -/
theorem coercePrimitiveByType_of_matches {value : ToolValue} {type : SchemaType}
    (h : matchesJsonType value type = true) : coercePrimitiveByType number value type = value := by
  cases type <;> cases value <;> first | rfl | cases h

theorem isContainer_coercePrimitiveByType (value : ToolValue) (type : SchemaType) :
    (coercePrimitiveByType number value type).isContainer = value.isContainer := by
  cases type <;> cases value <;> simp only [coercePrimitiveByType] <;> repeat' split
  all_goals rfl

theorem holdsInherited_coercePrimitiveByType (value : ToolValue) (type : SchemaType) :
    (coercePrimitiveByType number value type).holdsInherited = value.holdsInherited := by
  cases type <;> cases value <;> simp only [coercePrimitiveByType] <;> repeat' split
  all_goals rfl

theorem coerceByTypes_eq_self {value : ToolValue} {types : List SchemaType}
    (h : ∀ type ∈ types, coercePrimitiveByType number value type = value) :
    coerceByTypes number value types = value := by
  induction types with
  | nil => rfl
  | cons type rest ih =>
    rw [coerceByTypes, h type List.mem_cons_self]
    simp only [value.differs_self, Bool.false_eq_true, if_false]
    exact ih fun type htype => h type (List.mem_cons_of_mem _ htype)

/-- A value of one of the types is none to coerce. -/
theorem coerceTypes_of_matches {value : ToolValue} {types : List SchemaType}
    (h : (types.isEmpty || types.any (matchesJsonType value)) = true) :
    coerceTypes number types value = value := by
  rw [coerceTypes]
  match types, h with
  | [], _ => rfl
  | [type], h =>
    have hmatches : matchesJsonType value type = true := by simpa using h
    rw [if_neg (by simp)]
    refine coerceByTypes_eq_self number fun other hother => ?_
    obtain rfl := List.mem_singleton.mp hother
    exact coercePrimitiveByType_of_matches number hmatches
  | first :: second :: rest, h =>
    rw [if_pos]
    simpa using h

/-- Coercion picks one of the types, or none. -/
theorem coerceTypes_eq (types : List SchemaType) (value : ToolValue) :
    coerceTypes number types value = value ∨
      ∃ type, coerceTypes number types value = coercePrimitiveByType number value type := by
  have hloop : coerceByTypes number value types = value ∨
      ∃ type, coerceByTypes number value types = coercePrimitiveByType number value type := by
    induction types with
    | nil => exact Or.inl rfl
    | cons type rest ih =>
      rw [coerceByTypes]
      split
      · exact Or.inr ⟨type, rfl⟩
      · exact ih
  rw [coerceTypes]
  split
  · exact Or.inl rfl
  · exact hloop

theorem isContainer_coerceTypes (types : List SchemaType) (value : ToolValue) :
    (coerceTypes number types value).isContainer = value.isContainer := by
  obtain h | ⟨type, h⟩ := coerceTypes_eq number types value
  · rw [h]
  · rw [h, isContainer_coercePrimitiveByType]

theorem holdsInherited_coerceTypes (types : List SchemaType) (value : ToolValue) :
    (coerceTypes number types value).holdsInherited = value.holdsInherited := by
  obtain h | ⟨type, h⟩ := coerceTypes_eq number types value
  · rw [h]
  · rw [h, holdsInherited_coercePrimitiveByType]

end Types

/-! ## Coercion, step by step -/

section Steps

variable {number : JsString → Option JsNumber} {check : JsonSchemaObject → ToolValue → Bool}

theorem coerceWithJsonSchema_ok {type : List SchemaType}
    {properties : List (JsString × JsonSchemaObject)} {items : ItemSchemas JsonSchemaObject}
    {additionalProperties : Option JsonSchemaObject} {allOf anyOf oneOf : List JsonSchemaObject}
    {constraint : ToolValue → Bool} {value : ToolValue} {result : ToolValue × Bool}
    (h : coerceWithJsonSchema number check
      (.mk type properties items additionalProperties allOf anyOf oneOf constraint) value
        = .ok result) :
    ∃ afterAll afterAny afterOne, coerceAllOf number check allOf value = .ok afterAll ∧
      coerceWithUnionSchema number check afterAll.1 anyOf = .ok afterAny ∧
      coerceWithUnionSchema number check afterAny.1 oneOf = .ok afterOne ∧
      coerceContents number check type properties items additionalProperties
        (coerceTypes number type afterOne.1) = .ok result.1 ∧
      result.2 = (afterAll.2 || afterAny.2 || afterOne.2) := by
  rw [coerceWithJsonSchema_mk] at h
  obtain ⟨afterAll, hall, h⟩ := Except.bind_eq_ok.mp h
  obtain ⟨afterAny, hany, h⟩ := Except.bind_eq_ok.mp h
  obtain ⟨afterOne, hone, h⟩ := Except.bind_eq_ok.mp h
  obtain ⟨coerced, hcontents, h⟩ := Except.bind_eq_ok.mp h
  cases h
  exact ⟨afterAll, afterAny, afterOne, hall, hany, hone, hcontents, rfl⟩

/-- A union returns its value, or the clone a member accepts. -/
theorem coerceWithUnionSchema_ok {schemas : List JsonSchemaObject} {value : ToolValue}
    {result : ToolValue × Bool}
    (h : coerceWithUnionSchema number check value schemas = .ok result) :
    result = (value, false) ∨ ∃ coerced,
      coerceCandidates number check schemas value = .ok (some coerced) ∧
        result = (coerced, true) := by
  rw [coerceWithUnionSchema, unionValue] at h
  split at h
  · exact Or.inl (Except.ok.inj h).symm
  · obtain ⟨candidate, hcandidates, h⟩ := Except.bind_eq_ok.mp h
    cases candidate with
    | none => exact Or.inl (Except.ok.inj h).symm
    | some coerced => exact Or.inr ⟨coerced, hcandidates, (Except.ok.inj h).symm⟩

theorem coerceCandidates_ok {schemas : List JsonSchemaObject} {value coerced : ToolValue}
    (h : coerceCandidates number check schemas value = .ok (some coerced)) :
    value.holdsInherited = false ∧ ∃ schema ∈ schemas, ∃ cloned,
      coerceWithJsonSchema number check schema value = .ok (coerced, cloned) ∧
        check schema coerced = true := by
  induction schemas with
  | nil => cases h
  | cons schema rest ih =>
    rw [coerceCandidates] at h
    obtain ⟨candidate, hclone, h⟩ := Except.bind_eq_ok.mp h
    rw [structuredClone] at hclone
    split at hclone
    · cases hclone
    · rename_i hown
      cases hclone
      obtain ⟨⟨attempt, cloned⟩, hattempt, h⟩ := Except.bind_eq_ok.mp h
      refine ⟨Bool.not_eq_true _ ▸ hown, ?_⟩
      dsimp only at h
      split at h
      · rename_i hcheck
        cases h
        exact ⟨schema, List.mem_cons_self, cloned, hattempt, hcheck⟩
      · obtain ⟨-, other, hother, hcoerced⟩ := ih h
        exact ⟨other, List.mem_cons_of_mem _ hother, hcoerced⟩

/-- What holds a function cannot be cloned. -/
theorem coerceWithUnionSchema_of_holdsInherited {schemas : List JsonSchemaObject}
    {value : ToolValue} {result : ToolValue × Bool} (hinherited : value.holdsInherited = true)
    (h : coerceWithUnionSchema number check value schemas = .ok result) :
    result = (value, false) := by
  obtain h | ⟨coerced, hcandidates, -⟩ := coerceWithUnionSchema_ok h
  · exact h
  · rw [(coerceCandidates_ok hcandidates).1] at hinherited
    cases hinherited

end Steps

/-! ## Induction over schemas -/

/-- The schemas `items` names. -/
def ItemSchemas.schemas {σ : Type} : ItemSchemas σ → List σ
  | .none => []
  | .all schema => [schema]
  | .each schemas => schemas

/-- Induction over the schemas in a schema. -/
theorem JsonSchemaObject.induction {motive : JsonSchemaObject → Prop}
    (mk : ∀ type properties items additionalProperties allOf anyOf oneOf constraint,
      (∀ property ∈ properties, motive property.2) → (∀ schema ∈ items.schemas, motive schema) →
      (∀ schema ∈ additionalProperties, motive schema) → (∀ schema ∈ allOf, motive schema) →
      (∀ schema ∈ anyOf, motive schema) → (∀ schema ∈ oneOf, motive schema) →
      motive (.mk type properties items additionalProperties allOf anyOf oneOf constraint)) :
    ∀ schema, motive schema
  | .mk type properties items additionalProperties allOf anyOf oneOf constraint => by
    refine mk type properties items additionalProperties allOf anyOf oneOf constraint
      (fun property hproperty => ?_) (fun schema hschema => ?_) (fun schema hschema => ?_)
      (fun schema hschema => ?_) (fun schema hschema => ?_) (fun schema hschema => ?_)
    · have hlt := List.sizeOf_lt_of_mem hproperty
      exact induction mk property.2
    · have hlt : sizeOf schema < sizeOf items := by
        cases items with
        | none => cases hschema
        | all only =>
          obtain rfl := List.mem_singleton.mp hschema
          simp
        | each schemas =>
          have := List.sizeOf_lt_of_mem hschema
          simp only [ItemSchemas.schemas, ItemSchemas.each.sizeOf_spec] at this ⊢
          omega
      exact induction mk schema
    · have hlt : sizeOf schema < sizeOf additionalProperties := by
        cases hschema
        simp
      exact induction mk schema
    all_goals
      have hlt := List.sizeOf_lt_of_mem hschema
      exact induction mk schema
termination_by schema => sizeOf schema
decreasing_by
  · obtain ⟨key, schema⟩ := property
    simp only [Prod.mk.sizeOf_spec, JsonSchemaObject.mk.sizeOf_spec] at hlt ⊢
    omega
  all_goals
    rw [JsonSchemaObject.mk.sizeOf_spec]
    omega

/-! ## Functions stay where they are -/

section Inherited

variable {number : JsString → Option JsNumber} {check : JsonSchemaObject → ToolValue → Bool}

theorem itemsHoldInherited_eq_any (items : List ToolValue) :
    ToolValue.itemsHoldInherited items = items.any ToolValue.holdsInherited := by
  induction items with
  | nil => rfl
  | cons item items ih => rw [ToolValue.itemsHoldInherited, ih, List.any_cons]

theorem fieldsHoldInherited_eq_any (fields : List (JsString × ToolValue)) :
    ToolValue.fieldsHoldInherited fields = fields.any fun field => field.2.holdsInherited := by
  induction fields with
  | nil => rfl
  | cons field fields ih => rw [ToolValue.fieldsHoldInherited, ih, List.any_cons]

/-- Setting a field leaves a function, unless it was in the value replaced. -/
theorem fieldsHoldInherited_setField {fields : List (JsString × ToolValue)} {key : JsString}
    {coerced : ToolValue} (h : ToolValue.fieldsHoldInherited fields = true)
    (hvalue : ∀ value, fieldValue? fields key = some value → value.holdsInherited = true →
      coerced.holdsInherited = true) :
    ToolValue.fieldsHoldInherited (setField fields key coerced) = true := by
  induction fields with
  | nil => cases h
  | cons field fields ih =>
    obtain ⟨k, value⟩ := field
    rw [ToolValue.fieldsHoldInherited, Bool.or_eq_true] at h
    rw [setField]
    by_cases hkey : k = key
    · rw [if_pos hkey, ToolValue.fieldsHoldInherited, Bool.or_eq_true]
      refine h.imp_left (hvalue value ?_)
      rw [fieldValue?_cons, if_pos hkey]
    · rw [if_neg hkey, ToolValue.fieldsHoldInherited, Bool.or_eq_true]
      refine h.imp_right fun hrest => ih hrest fun value hfound => hvalue value ?_
      rw [fieldValue?_cons, if_neg hkey]
      exact hfound

theorem fieldsHoldInherited_setField_self (fields : List (JsString × ToolValue)) (key : JsString)
    {coerced : ToolValue} (h : coerced.holdsInherited = true) :
    ToolValue.fieldsHoldInherited (setField fields key coerced) = true := by
  rw [fieldsHoldInherited_eq_any, List.any_eq_true]
  have hfound : fieldValue? (setField fields key coerced) key = some coerced := by
    rw [fieldValue?_setField, if_pos rfl]
  exact ⟨(key, coerced), mem_of_fieldValue? hfound, h⟩

/-- Coercion towards the schema keeps a function that is in the value, and returns no clone. -/
def KeepsInherited (number : JsString → Option JsNumber)
    (check : JsonSchemaObject → ToolValue → Bool) (schema : JsonSchemaObject) : Prop :=
  ∀ value result, value.holdsInherited = true →
    coerceWithJsonSchema number check schema value = .ok result →
      result.1.holdsInherited = true ∧ result.2 = false

/-- `allOf` keeps what is inherited. -/
theorem coerceAllOf_keeps {schemas : List JsonSchemaObject}
    (hschemas : ∀ schema ∈ schemas, KeepsInherited number check schema) {value : ToolValue}
    {result : ToolValue × Bool} (hvalue : value.holdsInherited = true)
    (h : coerceAllOf number check schemas value = .ok result) :
    result.1.holdsInherited = true ∧ result.2 = false := by
  induction schemas generalizing value result with
  | nil =>
    cases h
    exact ⟨hvalue, rfl⟩
  | cons schema rest ih =>
    rw [coerceAllOf] at h
    obtain ⟨first, hfirst, h⟩ := Except.bind_eq_ok.mp h
    obtain ⟨others, hothers, h⟩ := Except.bind_eq_ok.mp h
    cases h
    obtain ⟨hfirstHolds, hfirstCloned⟩ :=
      hschemas schema List.mem_cons_self value first hvalue hfirst
    obtain ⟨hholds, hcloned⟩ := ih (fun other hother =>
      hschemas other (List.mem_cons_of_mem _ hother)) hfirstHolds hothers
    exact ⟨hholds, by rw [hfirstCloned, hcloned]; rfl⟩

/-- So do the properties. -/
theorem coerceProperties_keeps {properties : List (JsString × JsonSchemaObject)}
    (hproperties : ∀ property ∈ properties, KeepsInherited number check property.2)
    {fields coerced : List (JsString × ToolValue)}
    (hfields : ToolValue.fieldsHoldInherited fields = true)
    (h : coerceProperties number check properties fields = .ok coerced) :
    ToolValue.fieldsHoldInherited coerced = true := by
  induction properties generalizing fields with
  | nil =>
    cases h
    exact hfields
  | cons property rest ih =>
    obtain ⟨key, schema⟩ := property
    obtain ⟨hschema, hrest⟩ := List.forall_mem_cons.mp hproperties
    rw [coerceProperties] at h
    split at h
    · rename_i value hfound
      obtain ⟨result, hresult, h⟩ := Except.bind_eq_ok.mp h
      refine ih hrest (fieldsHoldInherited_setField hfields fun other hother hholds => ?_) h
      obtain rfl := Option.some.inj (hfound.symm.trans hother)
      exact (hschema value result hholds hresult).1
    · split at h
      · obtain ⟨result, hresult, h⟩ := Except.bind_eq_ok.mp h
        exact ih hrest (fieldsHoldInherited_setField_self _ _
          (hschema (.inherited key) result rfl hresult).1) h
      · exact ih hrest hfields h

/-- So do the items. -/
theorem coerceItems_keeps {schemas : List JsonSchemaObject}
    (hschemas : ∀ schema ∈ schemas, KeepsInherited number check schema)
    {values coerced : List ToolValue} (hvalues : ToolValue.itemsHoldInherited values = true)
    (h : coerceItems number check schemas values = .ok coerced) :
    ToolValue.itemsHoldInherited coerced = true := by
  induction schemas generalizing values coerced with
  | nil =>
    cases h
    exact hvalues
  | cons schema rest ih =>
    cases values with
    | nil => cases hvalues
    | cons value values =>
      obtain ⟨hschema, hrest⟩ := List.forall_mem_cons.mp hschemas
      rw [coerceItems] at h
      obtain ⟨first, hfirst, h⟩ := Except.bind_eq_ok.mp h
      obtain ⟨others, hothers, h⟩ := Except.bind_eq_ok.mp h
      cases h
      rw [ToolValue.itemsHoldInherited, Bool.or_eq_true] at hvalues ⊢
      exact hvalues.imp (fun hholds => (hschema value first hholds hfirst).1)
        fun hholds => ih hrest hholds hothers

/-- One item that is coerced into one with a function is enough. -/
theorem any_of_mapM {α : Type} {f : α → Except DataCloneError α} {p holds : α → Bool}
    {values coerced : List α}
    (hf : ∀ value ∈ values, ∀ result, p value = true → f value = .ok result → holds result = true)
    (hvalues : values.any p = true) (h : values.mapM f = .ok coerced) :
    coerced.any holds = true := by
  induction values generalizing coerced with
  | nil => cases hvalues
  | cons value values ih =>
    obtain ⟨first, others, hfirst, hothers, rfl⟩ := Except.mapM_cons_eq_ok.mp h
    rw [List.any_cons, Bool.or_eq_true] at hvalues ⊢
    exact hvalues.imp (fun hp => hf value List.mem_cons_self first hp hfirst) fun hp =>
      ih (fun other hother => hf other (List.mem_cons_of_mem _ hother)) hp hothers

theorem coerceContents_keeps {type : List SchemaType}
    {properties : List (JsString × JsonSchemaObject)} {items : ItemSchemas JsonSchemaObject}
    {additionalProperties : Option JsonSchemaObject}
    (hproperties : ∀ property ∈ properties, KeepsInherited number check property.2)
    (hitems : ∀ schema ∈ items.schemas, KeepsInherited number check schema)
    (hadditional : ∀ schema ∈ additionalProperties, KeepsInherited number check schema)
    {value coerced : ToolValue} (hvalue : value.holdsInherited = true)
    (h : coerceContents number check type properties items additionalProperties value
      = .ok coerced) : coerced.holdsInherited = true := by
  cases value with
  | obj fields =>
    rw [coerceContents] at h
    split at h
    · obtain ⟨result, hresult, rfl⟩ := Except.map_eq_ok.mp h
      rw [applySchemaObjectCoercion] at hresult
      obtain ⟨declared, hdeclared, hresult⟩ := Except.bind_eq_ok.mp hresult
      have hholds := coerceProperties_keeps hproperties hvalue hdeclared
      cases additionalProperties with
      | none =>
        cases hresult
        exact hholds
      | some schema =>
        rw [fieldsHoldInherited_eq_any] at hholds
        rw [ToolValue.holdsInherited, fieldsHoldInherited_eq_any]
        refine any_of_mapM (fun field _ other hfield hother => ?_) hholds hresult
        dsimp only at hother
        split at hother
        · cases hother
          exact hfield
        · obtain ⟨result, hcoerced, hother⟩ := Except.bind_eq_ok.mp hother
          cases hother
          exact (hadditional schema rfl field.2 result hfield hcoerced).1
    · cases h
      exact hvalue
  | arr values =>
    rw [coerceContents] at h
    split at h
    · obtain ⟨result, hresult, rfl⟩ := Except.map_eq_ok.mp h
      cases items with
      | none =>
        cases hresult
        exact hvalue
      | all schema =>
        rw [ToolValue.holdsInherited, itemsHoldInherited_eq_any] at hvalue ⊢
        refine any_of_mapM (fun item _ other hitem hother => ?_) hvalue hresult
        obtain ⟨result, hcoerced, hother⟩ := Except.bind_eq_ok.mp hother
        cases hother
        exact (hitems schema List.mem_cons_self item result hitem hcoerced).1
      | each schemas => exact coerceItems_keeps hitems hvalue hresult
    · cases h
      exact hvalue
  | inherited key =>
    cases h
    rfl
  | _ => cases hvalue

/-- No coercion removes an inherited value. -/
theorem coerceWithJsonSchema_keeps (schema : JsonSchemaObject) :
    KeepsInherited number check schema := by
  induction schema using JsonSchemaObject.induction with
  | mk type properties items additionalProperties allOf anyOf oneOf constraint hproperties hitems
      hadditional hallOf hanyOf honeOf =>
    intro value result hvalue h
    obtain ⟨afterAll, afterAny, afterOne, hall, hany, hone, hcontents, hcloned⟩ :=
      coerceWithJsonSchema_ok h
    obtain ⟨hholds, hallCloned⟩ := coerceAllOf_keeps hallOf hvalue hall
    have hafterAny := coerceWithUnionSchema_of_holdsInherited hholds hany
    rw [hafterAny] at hone hcloned
    have hafterOne := coerceWithUnionSchema_of_holdsInherited hholds hone
    rw [hafterOne] at hcontents hcloned
    refine ⟨coerceContents_keeps hproperties hitems hadditional ?_ hcontents, ?_⟩
    · rw [holdsInherited_coerceTypes]
      exact hholds
    · rw [hcloned, hallCloned]
      rfl

end Inherited

/-! ## Values that satisfy the schema -/

/-- What a schema says about the inside of an object or an array. -/
def contentsSatisfied (properties : List (JsString × JsonSchemaObject))
    (items : ItemSchemas JsonSchemaObject) (additionalProperties : Option JsonSchemaObject) :
    ToolValue → Bool
  | .obj fields => propertiesSatisfied properties fields &&
    match additionalProperties with
    | none => true
    | some schema => fields.all fun field =>
        decide (field.1 ∈ properties.map Prod.fst) || satisfies schema field.2
  | .arr values =>
    match items with
    | .none => true
    | .all schema => values.all (satisfies schema)
    | .each schemas => itemsSatisfied schemas values
  | _ => true

/-- The part of `readsInherited` about properties and items. -/
def contentsReadInherited (type : List SchemaType)
    (properties : List (JsString × JsonSchemaObject)) (items : ItemSchemas JsonSchemaObject)
    (additionalProperties : Option JsonSchemaObject) : ToolValue → Bool
  | .obj fields => decide (SchemaType.object ∈ type) &&
    (propertiesReadInherited properties fields ||
      match additionalProperties with
      | none => false
      | some schema => fields.any fun field =>
          decide (field.1 ∉ properties.map Prod.fst) && readsInherited schema field.2)
  | .arr values => decide (SchemaType.array ∈ type) &&
    match items with
    | .none => false
    | .all schema => values.any (readsInherited schema)
    | .each schemas => itemsReadInherited schemas values
  | _ => false

section Satisfied

variable {number : JsString → Option JsNumber} {type : List SchemaType}
  {properties : List (JsString × JsonSchemaObject)} {items : ItemSchemas JsonSchemaObject}
  {additionalProperties : Option JsonSchemaObject} {allOf anyOf oneOf : List JsonSchemaObject}
  {constraint : ToolValue → Bool}

theorem satisfies_mk {value : ToolValue} :
    satisfies (.mk type properties items additionalProperties allOf anyOf oneOf constraint) value
        = true ↔
      (type.isEmpty || type.any (matchesJsonType value)) = true ∧
        satisfiesAll allOf value = true ∧ (anyOf = [] ∨ satisfiedCount anyOf value ≠ 0) ∧
        (oneOf = [] ∨ satisfiedCount oneOf value = 1) ∧
        contentsSatisfied properties items additionalProperties value = true ∧
        constraint value = true := by
  have hcontents : satisfies
      (.mk type properties items additionalProperties allOf anyOf oneOf constraint) value =
        ((type.isEmpty || type.any (matchesJsonType value)) && satisfiesAll allOf value
          && (anyOf.isEmpty || satisfiedCount anyOf value != 0)
          && (oneOf.isEmpty || satisfiedCount oneOf value == 1)
          && contentsSatisfied properties items additionalProperties value && constraint
            value) := by
    cases value with
    | obj fields => cases additionalProperties <;> rw [satisfies] <;> rfl
    | arr values => cases items <;> rw [satisfies] <;> rfl
    | _ => rfl
  simp only [hcontents, Bool.and_eq_true, Bool.or_eq_true, List.isEmpty_iff, bne_iff_ne,
    beq_iff_eq, ne_eq, and_assoc]

theorem readsInherited_mk (value : ToolValue) :
    readsInherited (.mk type properties items additionalProperties allOf anyOf oneOf constraint)
        value =
      (anyReadsInherited allOf value ||
        contentsReadInherited type properties items additionalProperties value) := by
  cases value with
  | obj fields => cases additionalProperties <;> rw [readsInherited] <;> rfl
  | arr values => cases items <;> rw [readsInherited] <;> rfl
  | _ => rfl

theorem any_satisfies_of_count {schemas : List JsonSchemaObject} {value : ToolValue}
    (h : satisfiedCount schemas value ≠ 0) :
    (schemas.any fun schema => satisfies schema value) = true := by
  induction schemas with
  | nil => exact absurd rfl h
  | cons schema rest ih =>
    rw [satisfiedCount] at h
    rw [List.any_cons, Bool.or_eq_true]
    by_cases hschema : satisfies schema value = true
    · exact Or.inl hschema
    · rw [if_neg hschema, Nat.zero_add] at h
      exact Or.inr (ih h)

/-- A union that is satisfied coerces nothing. -/
theorem coerceWithUnionSchema_of_satisfied {schemas : List JsonSchemaObject} {value : ToolValue}
    (h : schemas = [] ∨ satisfiedCount schemas value ≠ 0) :
    coerceWithUnionSchema number satisfies value schemas = .ok (value, false) := by
  rw [coerceWithUnionSchema, unionValue]
  obtain rfl | h := h
  · rfl
  · rw [if_pos (any_satisfies_of_count h)]

/-- A value that satisfies the schema is left alone, but for functions that are picked up. -/
def KeepsSatisfying (number : JsString → Option JsNumber) (schema : JsonSchemaObject) : Prop :=
  ∀ value, satisfies schema value = true →
    (readsInherited schema value = false →
      coerceWithJsonSchema number satisfies schema value = .ok (value, false)) ∧
    (readsInherited schema value = true → ∀ result,
      coerceWithJsonSchema number satisfies schema value = .ok result →
        result.1.holdsInherited = true ∧ result.2 = false)

/-- `allOf` leaves a value that satisfies it, or reads an inherited one. -/
theorem coerceAllOf_of_satisfies {schemas : List JsonSchemaObject}
    (hschemas : ∀ schema ∈ schemas, KeepsSatisfying number schema) {value : ToolValue}
    (hvalue : satisfiesAll schemas value = true) :
    (anyReadsInherited schemas value = false →
      coerceAllOf number satisfies schemas value = .ok (value, false)) ∧
    (anyReadsInherited schemas value = true → ∀ result,
      coerceAllOf number satisfies schemas value = .ok result →
        result.1.holdsInherited = true ∧ result.2 = false) := by
  induction schemas with
  | nil => exact ⟨fun _ => rfl, nofun⟩
  | cons schema rest ih =>
    rw [satisfiesAll, Bool.and_eq_true] at hvalue
    obtain ⟨hschema, hrest⟩ := List.forall_mem_cons.mp hschemas
    obtain ⟨hquiet, hreads⟩ := hschema value hvalue.1
    obtain ⟨hquietRest, hreadsRest⟩ := ih hrest hvalue.2
    rw [anyReadsInherited, coerceAllOf]
    constructor
    · intro h
      rw [Bool.or_eq_false_iff] at h
      rw [hquiet h.1]
      show (coerceAllOf number satisfies rest value >>= _) = _
      rw [hquietRest h.2]
      rfl
    · intro h result hresult
      obtain ⟨first, hfirst, hresult⟩ := Except.bind_eq_ok.mp hresult
      obtain ⟨others, hothers, hresult⟩ := Except.bind_eq_ok.mp hresult
      cases hresult
      cases hfirstReads : readsInherited schema value with
      | true =>
        obtain ⟨hholds, hcloned⟩ := hreads hfirstReads first hfirst
        obtain ⟨hholdsRest, hclonedRest⟩ := coerceAllOf_keeps
          (fun other _ => coerceWithJsonSchema_keeps other) hholds hothers
        exact ⟨hholdsRest, by rw [hcloned, hclonedRest]; rfl⟩
      | false =>
        rw [hfirstReads, Bool.false_or] at h
        obtain rfl := Except.ok.inj ((hquiet hfirstReads).symm.trans hfirst)
        obtain ⟨hholdsRest, hclonedRest⟩ := hreadsRest h others hothers
        exact ⟨hholdsRest, by rw [hclonedRest]; rfl⟩

/-- So do the properties. -/
theorem coerceProperties_of_satisfied {properties : List (JsString × JsonSchemaObject)}
    (hproperties : ∀ property ∈ properties, KeepsSatisfying number property.2)
    {fields : List (JsString × ToolValue)}
    (hfields : propertiesSatisfied properties fields = true) :
    (propertiesReadInherited properties fields = false →
      coerceProperties number satisfies properties fields = .ok fields) ∧
    (propertiesReadInherited properties fields = true → ∀ coerced,
      coerceProperties number satisfies properties fields = .ok coerced →
        ToolValue.fieldsHoldInherited coerced = true) := by
  have hkeeps : ∀ {properties : List (JsString × JsonSchemaObject)}
      {fields coerced : List (JsString × ToolValue)},
      ToolValue.fieldsHoldInherited fields = true →
      coerceProperties number satisfies properties fields = .ok coerced →
        ToolValue.fieldsHoldInherited coerced = true :=
    coerceProperties_keeps fun property _ => coerceWithJsonSchema_keeps property.2
  induction properties with
  | nil => exact ⟨fun _ => rfl, nofun⟩
  | cons property rest ih =>
    obtain ⟨key, schema⟩ := property
    obtain ⟨hschema, hrest⟩ := List.forall_mem_cons.mp hproperties
    rw [propertiesSatisfied, Bool.and_eq_true] at hfields
    obtain ⟨hquietRest, hreadsRest⟩ := ih hrest hfields.2
    rw [propertiesReadInherited, coerceProperties]
    cases hfound : fieldValue? fields key with
    | some value =>
      rw [hfound] at hfields
      obtain ⟨hquiet, hreads⟩ := hschema value hfields.1
      constructor
      · intro h
        rw [Bool.or_eq_false_iff] at h
        dsimp only
        rw [hquiet h.1]
        show coerceProperties number satisfies rest (setField fields key value) = _
        rw [setField_self hfound, hquietRest h.2]
      · intro h coerced hcoerced
        obtain ⟨first, hfirst, hcoerced⟩ := Except.bind_eq_ok.mp hcoerced
        cases hfirstReads : readsInherited schema value with
        | true =>
          exact hkeeps (fieldsHoldInherited_setField_self _ _
            (hreads hfirstReads first hfirst).1) hcoerced
        | false =>
          dsimp only at h
          rw [hfirstReads, Bool.false_or] at h
          obtain rfl := Except.ok.inj ((hquiet hfirstReads).symm.trans hfirst)
          dsimp only at hcoerced
          rw [setField_self hfound] at hcoerced
          exact hreadsRest h coerced hcoerced
    | none =>
      by_cases hkey : key ∈ prototypeKeys
      · refine ⟨fun h => ?_, fun _ coerced hcoerced => ?_⟩
        · rw [Bool.or_eq_false_iff, decide_eq_false_iff_not] at h
          exact absurd hkey h.1
        · dsimp only at hcoerced
          rw [if_pos hkey] at hcoerced
          obtain ⟨first, hfirst, hcoerced⟩ := Except.bind_eq_ok.mp hcoerced
          exact hkeeps (fieldsHoldInherited_setField_self _ _
            (coerceWithJsonSchema_keeps schema (.inherited key) first rfl hfirst).1) hcoerced
      · simp only [hkey, decide_false, Bool.false_or, if_false]
        exact ⟨hquietRest, hreadsRest⟩

/-- So do the items. -/
theorem coerceItems_of_satisfied {schemas : List JsonSchemaObject}
    (hschemas : ∀ schema ∈ schemas, KeepsSatisfying number schema) {values : List ToolValue}
    (hvalues : itemsSatisfied schemas values = true) :
    (itemsReadInherited schemas values = false →
      coerceItems number satisfies schemas values = .ok values) ∧
    (itemsReadInherited schemas values = true → ∀ coerced,
      coerceItems number satisfies schemas values = .ok coerced →
        ToolValue.itemsHoldInherited coerced = true) := by
  induction schemas generalizing values with
  | nil => exact ⟨fun _ => rfl, nofun⟩
  | cons schema rest ih =>
    cases values with
    | nil => exact ⟨fun _ => rfl, nofun⟩
    | cons value values =>
      rw [itemsSatisfied, Bool.and_eq_true] at hvalues
      obtain ⟨hschema, hrest⟩ := List.forall_mem_cons.mp hschemas
      obtain ⟨hquiet, hreads⟩ := hschema value hvalues.1
      obtain ⟨hquietRest, hreadsRest⟩ := ih hrest hvalues.2
      rw [itemsReadInherited, coerceItems]
      constructor
      · intro h
        rw [Bool.or_eq_false_iff] at h
        rw [hquiet h.1]
        show (coerceItems number satisfies rest values >>= _) = _
        rw [hquietRest h.2]
        rfl
      · intro h coerced hcoerced
        obtain ⟨first, hfirst, hcoerced⟩ := Except.bind_eq_ok.mp hcoerced
        obtain ⟨others, hothers, hcoerced⟩ := Except.bind_eq_ok.mp hcoerced
        cases hcoerced
        rw [ToolValue.itemsHoldInherited, Bool.or_eq_true]
        exact (Bool.or_eq_true _ _ ▸ h).imp (fun hread => (hreads hread first hfirst).1)
          fun hread => hreadsRest hread others hothers

/-- Items that come back as they are. -/
theorem mapM_eq_self {α : Type} {f : α → Except DataCloneError α} {values : List α}
    (h : ∀ value ∈ values, f value = .ok value) : values.mapM f = .ok values := by
  induction values with
  | nil => rfl
  | cons value values ih =>
    obtain ⟨hvalue, hrest⟩ := List.forall_mem_cons.mp h
    exact Except.mapM_cons_eq_ok.mpr ⟨value, values, hvalue, ih hrest, rfl⟩

/-- So do properties and items together. -/
theorem coerceContents_of_satisfied
    (hproperties : ∀ property ∈ properties, KeepsSatisfying number property.2)
    (hitems : ∀ schema ∈ items.schemas, KeepsSatisfying number schema)
    (hadditional : ∀ schema ∈ additionalProperties, KeepsSatisfying number schema)
    {value : ToolValue}
    (hvalue : contentsSatisfied properties items additionalProperties value = true) :
    (contentsReadInherited type properties items additionalProperties value = false →
      coerceContents number satisfies type properties items additionalProperties value
        = .ok value) ∧
    (contentsReadInherited type properties items additionalProperties value = true → ∀ coerced,
      coerceContents number satisfies type properties items additionalProperties value
        = .ok coerced → coerced.holdsInherited = true) := by
  cases value with
  | obj fields =>
    have hvalue := Bool.and_eq_true_iff.mp hvalue
    obtain ⟨hquiet, hreads⟩ := coerceProperties_of_satisfied hproperties hvalue.1
    unfold coerceContents contentsReadInherited
    dsimp only
    by_cases htype : SchemaType.object ∈ type
    · rw [decide_eq_true htype, Bool.true_and, if_pos htype, applySchemaObjectCoercion]
      cases additionalProperties with
      | none =>
        rw [Bool.or_false]
        constructor
        · intro h
          rw [hquiet h]
          rfl
        · intro h coerced hcoerced
          obtain ⟨result, hresult, rfl⟩ := Except.map_eq_ok.mp hcoerced
          obtain ⟨declared, hdeclared, hresult⟩ := Except.bind_eq_ok.mp hresult
          cases hresult
          exact hreads h _ hdeclared
      | some schema =>
        have hfields := List.all_eq_true.mp hvalue.2
        have hschema := hadditional schema rfl
        have hown : ∀ field ∈ fields, field.1 ∉ properties.map Prod.fst →
            satisfies schema field.2 = true := by
          intro field hfield hkey
          have hfieldSatisfied := hfields field hfield
          rwa [decide_eq_false hkey, Bool.false_or] at hfieldSatisfied
        constructor
        · intro h
          rw [Bool.or_eq_false_iff] at h
          rw [hquiet h.1]
          refine Except.map_eq_ok.mpr ⟨fields, mapM_eq_self fun field hfield => ?_, rfl⟩
          by_cases hkey : field.1 ∈ properties.map Prod.fst
          · exact if_pos hkey
          · have hfieldReads : readsInherited schema field.2 = false := by
              have hnone := List.any_eq_false.mp h.2 field hfield
              rwa [decide_eq_true hkey, Bool.true_and, Bool.not_eq_true] at hnone
            refine (if_neg hkey).trans ?_
            rw [(hschema field.2 (hown field hfield hkey)).1 hfieldReads]
            rfl
        · intro h coerced hcoerced
          obtain ⟨result, hresult, rfl⟩ := Except.map_eq_ok.mp hcoerced
          obtain ⟨declared, hdeclared, hresult⟩ := Except.bind_eq_ok.mp hresult
          rw [ToolValue.holdsInherited, fieldsHoldInherited_eq_any]
          cases hdeclaredReads : propertiesReadInherited properties fields with
          | true =>
            have hholds := hreads hdeclaredReads declared hdeclared
            rw [fieldsHoldInherited_eq_any] at hholds
            refine any_of_mapM (fun field _ other hfield hother => ?_) hholds hresult
            dsimp only at hother
            split at hother
            · cases hother
              exact hfield
            · obtain ⟨result, hcoerced, hother⟩ := Except.bind_eq_ok.mp hother
              cases hother
              exact (coerceWithJsonSchema_keeps schema field.2 result hfield hcoerced).1
          | false =>
            rw [hdeclaredReads, Bool.false_or] at h
            obtain rfl := Except.ok.inj ((hquiet hdeclaredReads).symm.trans hdeclared)
            refine any_of_mapM (fun field hfield other hread hother => ?_) h hresult
            rw [Bool.and_eq_true, decide_eq_true_eq] at hread
            dsimp only at hother
            rw [if_neg hread.1] at hother
            obtain ⟨result, hcoerced, hother⟩ := Except.bind_eq_ok.mp hother
            cases hother
            exact ((hschema field.2 (hown field hfield hread.1)).2 hread.2 result hcoerced).1
    · rw [decide_eq_false htype, if_neg htype]
      exact ⟨fun _ => rfl, fun h => by cases h⟩
  | arr values =>
    unfold coerceContents contentsReadInherited
    dsimp only
    by_cases htype : SchemaType.array ∈ type
    · rw [decide_eq_true htype, Bool.true_and, if_pos htype]
      cases items with
      | none => exact ⟨fun _ => rfl, fun h => by cases h⟩
      | all schema =>
        have hall := List.all_eq_true.mp hvalue
        have hschema := hitems schema List.mem_cons_self
        constructor
        · intro h
          refine Except.map_eq_ok.mpr ⟨values, mapM_eq_self fun item hitem => ?_, rfl⟩
          have hitemReads : readsInherited schema item = false :=
            eq_false_of_ne_true (List.any_eq_false.mp h item hitem)
          rw [coerceValue, (hschema item (hall item hitem)).1 hitemReads]
          rfl
        · intro h coerced hcoerced
          obtain ⟨result, hresult, rfl⟩ := Except.map_eq_ok.mp hcoerced
          rw [ToolValue.holdsInherited, itemsHoldInherited_eq_any]
          refine any_of_mapM (fun item hitem other hread hother => ?_) h hresult
          obtain ⟨result, hcoerced, hother⟩ := Except.bind_eq_ok.mp hother
          cases hother
          exact ((hschema item (hall item hitem)).2 hread result hcoerced).1
      | each schemas =>
        obtain ⟨hquiet, hreads⟩ := coerceItems_of_satisfied hitems hvalue
        constructor
        · intro h
          exact Except.map_eq_ok.mpr ⟨values, hquiet h, rfl⟩
        · intro h coerced hcoerced
          obtain ⟨result, hresult, rfl⟩ := Except.map_eq_ok.mp hcoerced
          exact hreads h result hresult
    · rw [decide_eq_false htype, if_neg htype]
      exact ⟨fun _ => rfl, fun h => by cases h⟩
  | _ => exact ⟨fun _ => rfl, fun h => by cases h⟩

/-- A value that satisfies a schema is left as it is, unless an inherited one is read. -/
theorem coerceWithJsonSchema_of_satisfies (schema : JsonSchemaObject) :
    KeepsSatisfying number schema := by
  induction schema using JsonSchemaObject.induction with
  | mk type properties items additionalProperties allOf anyOf oneOf constraint hproperties hitems
      hadditional hallOf hanyOf honeOf =>
    intro value hvalue
    obtain ⟨htype, hall, hany, hone, hcontents, -⟩ := satisfies_mk.mp hvalue
    obtain ⟨hquietAll, hreadsAll⟩ := coerceAllOf_of_satisfies hallOf hall
    obtain ⟨hquiet, hreads⟩ :=
      @coerceContents_of_satisfied number type _ _ _ hproperties hitems hadditional _ hcontents
    have hunionAny := @coerceWithUnionSchema_of_satisfied number anyOf value hany
    have hunionOne := @coerceWithUnionSchema_of_satisfied number oneOf value
      (hone.imp_right fun h => by omega)
    rw [readsInherited_mk]
    constructor
    · intro h
      rw [Bool.or_eq_false_iff] at h
      rw [coerceWithJsonSchema_mk, hquietAll h.1]
      show (coerceWithUnionSchema number satisfies value anyOf >>= _) = _
      rw [hunionAny]
      show (coerceWithUnionSchema number satisfies value oneOf >>= _) = _
      rw [hunionOne]
      show (coerceContents number satisfies type properties items additionalProperties
        (coerceTypes number type value) >>= _) = _
      rw [coerceTypes_of_matches number htype, hquiet h.2]
      rfl
    · intro h result hresult
      obtain ⟨afterAll, afterAny, afterOne, hafterAll, hafterAny, hafterOne, hinside, hcloned⟩ :=
        coerceWithJsonSchema_ok hresult
      have hrest : afterAll.1.holdsInherited = true → afterAll.2 = false →
          result.1.holdsInherited = true ∧ result.2 = false := by
        intro hholds hallCloned
        have hafter := coerceWithUnionSchema_of_holdsInherited hholds hafterAny
        rw [hafter] at hafterOne hcloned
        rw [coerceWithUnionSchema_of_holdsInherited hholds hafterOne] at hinside hcloned
        refine ⟨coerceContents_keeps (fun property _ => coerceWithJsonSchema_keeps property.2)
          (fun schema _ => coerceWithJsonSchema_keeps schema)
          (fun schema _ => coerceWithJsonSchema_keeps schema) ?_ hinside, ?_⟩
        · rw [holdsInherited_coerceTypes]
          exact hholds
        · rw [hcloned, hallCloned]
          rfl
      cases hallReads : anyReadsInherited allOf value with
      | true =>
        obtain ⟨hholds, hallCloned⟩ := hreadsAll hallReads afterAll hafterAll
        exact hrest hholds hallCloned
      | false =>
        rw [hallReads, Bool.false_or] at h
        obtain rfl := Except.ok.inj ((hquietAll hallReads).symm.trans hafterAll)
        obtain rfl := Except.ok.inj (hunionAny.symm.trans hafterAny)
        obtain rfl := Except.ok.inj (hunionOne.symm.trans hafterOne)
        rw [coerceTypes_of_matches number htype] at hinside
        exact ⟨hreads h result.1 hinside, hcloned⟩

end Satisfied

/-! ## Scalars, and objects and arrays -/

section Kinds

variable {number : JsString → Option JsNumber} {check : JsonSchemaObject → ToolValue → Bool}

/-- An object or an array stays one, and a scalar becomes none. -/
theorem isContainer_coerceWithJsonSchema (schema : JsonSchemaObject) :
    ∀ value result, coerceWithJsonSchema number check schema value = .ok result →
      result.1.isContainer = value.isContainer := by
  induction schema using JsonSchemaObject.induction with
  | mk type properties items additionalProperties allOf anyOf oneOf constraint _ _ _ hallOf hanyOf
      honeOf =>
    intro value result h
    obtain ⟨afterAll, afterAny, afterOne, hall, hany, hone, hcontents, -⟩ :=
      coerceWithJsonSchema_ok h
    have hafterAll : afterAll.1.isContainer = value.isContainer := by
      clear hany hone hcontents h
      induction allOf generalizing value afterAll with
      | nil =>
        cases hall
        rfl
      | cons nested rest ih =>
        obtain ⟨hnested, hrest⟩ := List.forall_mem_cons.mp hallOf
        rw [coerceAllOf] at hall
        obtain ⟨first, hfirst, hall⟩ := Except.bind_eq_ok.mp hall
        obtain ⟨others, hothers, hall⟩ := Except.bind_eq_ok.mp hall
        cases hall
        exact (ih hrest first.1 others hothers).trans (hnested value first hfirst)
    have hunion : ∀ {schemas : List JsonSchemaObject} {value : ToolValue} {after},
        (∀ schema ∈ schemas, ∀ value result,
          coerceWithJsonSchema number check schema value = .ok result →
            result.1.isContainer = value.isContainer) →
        coerceWithUnionSchema number check value schemas = .ok after →
          after.1.isContainer = value.isContainer := by
      intro schemas value after hschemas hafter
      obtain rfl | ⟨coerced, hcandidates, rfl⟩ := coerceWithUnionSchema_ok hafter
      · rfl
      · obtain ⟨-, schema, hschema, cloned, hcoerced, -⟩ := coerceCandidates_ok hcandidates
        exact hschemas schema hschema value (coerced, cloned) hcoerced
    have hinside : ∀ {value coerced : ToolValue},
        coerceContents number check type properties items additionalProperties value = .ok coerced →
          coerced.isContainer = value.isContainer := by
      intro value coerced hcoerced
      cases value with
      | obj | arr =>
        rw [coerceContents] at hcoerced
        split at hcoerced
        · obtain ⟨_, -, rfl⟩ := Except.map_eq_ok.mp hcoerced
          rfl
        · cases hcoerced
          rfl
      | _ =>
        cases hcoerced
        rfl
    rw [hinside hcontents, isContainer_coerceTypes, hunion honeOf hone, hunion hanyOf hany,
      hafterAll]

/-- Neither an object nor an array nor a function. -/
def ToolValue.IsScalar (value : ToolValue) : Prop :=
  value.isContainer = false ∧ value.holdsInherited = false

theorem isScalar_coerceTypes {value : ToolValue} (h : value.IsScalar) (types : List SchemaType) :
    (coerceTypes number types value).IsScalar :=
  ⟨(isContainer_coerceTypes number types value).trans h.1,
    (holdsInherited_coerceTypes number types value).trans h.2⟩

theorem coerceContents_of_isScalar {type : List SchemaType}
    {properties : List (JsString × JsonSchemaObject)} {items : ItemSchemas JsonSchemaObject}
    {additionalProperties : Option JsonSchemaObject} {value : ToolValue} (h : value.IsScalar) :
    coerceContents number check type properties items additionalProperties value = .ok value := by
  cases value with
  | obj | arr => cases h.1
  | _ => rfl

/-- The coercion of a scalar is the conversion. -/
theorem coerceWithJsonSchema_of_isScalar (schema : JsonSchemaObject) :
    ∀ value : ToolValue, value.IsScalar → (conversion number schema value).IsScalar ∧
      ∃ cloned, coerceWithJsonSchema number satisfies schema value
        = .ok (conversion number schema value, cloned) := by
  induction schema using JsonSchemaObject.induction with
  | mk type properties items additionalProperties allOf anyOf oneOf constraint _ _ _ hallOf hanyOf
      honeOf =>
    intro value hvalue
    have hall : (conversionAll number allOf value).IsScalar ∧ ∃ cloned,
        coerceAllOf number satisfies allOf value
          = .ok (conversionAll number allOf value, cloned) := by
      induction allOf generalizing value with
      | nil => exact ⟨hvalue, false, rfl⟩
      | cons nested rest ih =>
        obtain ⟨hnested, hrest⟩ := List.forall_mem_cons.mp hallOf
        obtain ⟨hscalar, cloned, hcoerced⟩ := hnested value hvalue
        obtain ⟨hscalarRest, clonedRest, hcoercedRest⟩ := ih hrest _ hscalar
        refine ⟨hscalarRest, cloned || clonedRest, ?_⟩
        rw [coerceAllOf, hcoerced]
        show (coerceAllOf number satisfies rest (conversion number nested value) >>= _) = _
        rw [hcoercedRest]
        rfl
    have hmember : ∀ {schemas : List JsonSchemaObject}, (∀ schema ∈ schemas, ∀ value : ToolValue,
        value.IsScalar → (conversion number schema value).IsScalar ∧
          ∃ cloned, coerceWithJsonSchema number satisfies schema value
            = .ok (conversion number schema value, cloned)) →
        ∀ {value : ToolValue}, value.IsScalar →
          (∀ coerced ∈ memberConversion number schemas value, coerced.IsScalar) ∧
            coerceCandidates number satisfies schemas value
              = .ok (memberConversion number schemas value) := by
      intro schemas hschemas value hvalue
      induction schemas with
      | nil => exact ⟨nofun, rfl⟩
      | cons schema rest ih =>
        obtain ⟨hschema, hrest⟩ := List.forall_mem_cons.mp hschemas
        obtain ⟨hscalar, cloned, hcoerced⟩ := hschema value hvalue
        obtain ⟨hscalarRest, hcoercedRest⟩ := ih hrest
        rw [memberConversion, coerceCandidates, structuredClone, hvalue.2]
        show _ ∧ (coerceWithJsonSchema number satisfies schema value >>= _) = _
        rw [hcoerced]
        show _ ∧ (if satisfies schema (conversion number schema value) = true then _ else _) = _
        split
        · refine ⟨fun coerced hmem => ?_, rfl⟩
          cases hmem
          exact hscalar
        · exact ⟨hscalarRest, hcoercedRest⟩
    have hunion : ∀ {schemas : List JsonSchemaObject}, (∀ schema ∈ schemas, ∀ value : ToolValue,
        value.IsScalar → (conversion number schema value).IsScalar ∧
          ∃ cloned, coerceWithJsonSchema number satisfies schema value
            = .ok (conversion number schema value, cloned)) →
        ∀ {value : ToolValue}, value.IsScalar →
          (unionConversion number schemas value).IsScalar ∧
            ∃ cloned, coerceWithUnionSchema number satisfies value schemas
              = .ok (unionConversion number schemas value, cloned) := by
      intro schemas hschemas value hvalue
      obtain ⟨hscalar, hcandidates⟩ := hmember hschemas hvalue
      rw [coerceWithUnionSchema, unionValue, hcandidates, unionConversion]
      split
      · exact ⟨hvalue, false, rfl⟩
      · cases hcandidate : memberConversion number schemas value with
        | none => exact ⟨hvalue, false, rfl⟩
        | some coerced => exact ⟨hscalar coerced hcandidate, true, rfl⟩
    obtain ⟨hscalarAll, clonedAll, hcoercedAll⟩ := hall
    obtain ⟨hscalarAny, clonedAny, hcoercedAny⟩ := hunion hanyOf hscalarAll
    obtain ⟨hscalarOne, clonedOne, hcoercedOne⟩ := hunion honeOf hscalarAny
    have hscalar := @isScalar_coerceTypes number _ hscalarOne type
    rw [conversion, coerceWithJsonSchema_mk, hcoercedAll]
    refine ⟨hscalar, clonedAll || clonedAny || clonedOne, ?_⟩
    show (coerceWithUnionSchema number satisfies (conversionAll number allOf value) anyOf >>= _) = _
    rw [hcoercedAny]
    show (coerceWithUnionSchema number satisfies _ oneOf >>= _) = _
    rw [hcoercedOne]
    show (coerceContents number satisfies type properties items additionalProperties
      (coerceTypes number type _) >>= _) = _
    rw [coerceContents_of_isScalar hscalar]
    rfl

end Kinds

/-! ## The arguments a tool is called with -/

mutual

/-- A JSON value holds nothing inherited. -/
theorem holdsInherited_ofJson : ∀ v : Json, (ToolValue.ofJson v).holdsInherited = false
  | .arr items => itemsHoldInherited_ofItems items
  | .obj fields => fieldsHoldInherited_ofFields fields
  | .null | .bool _ | .num _ | .str _ => rfl

theorem itemsHoldInherited_ofItems : ∀ items : List Json,
    ToolValue.itemsHoldInherited (ToolValue.ofItems items) = false
  | [] => rfl
  | v :: vs => by
    rw [ToolValue.ofItems, ToolValue.itemsHoldInherited, holdsInherited_ofJson v,
      itemsHoldInherited_ofItems vs, Bool.or_false]

theorem fieldsHoldInherited_ofFields : ∀ fields : List (JsString × Json),
    ToolValue.fieldsHoldInherited (ToolValue.ofFields fields) = false
  | [] => rfl
  | (key, v) :: fields => by
    rw [ToolValue.ofFields, ToolValue.fieldsHoldInherited, holdsInherited_ofJson v,
      fieldsHoldInherited_ofFields fields, Bool.or_false]

end

section Arguments

variable (number : JsString → Option JsNumber)
  (errorsOf : JsonSchemaObject → ToolValue → List LocalizedValidationError)
  (stringify : Json → JsString)

theorem checkArguments_eq_ok {tool : Tool} {toolCall : ToolCall Json} {args value : ToolValue} :
    checkArguments satisfies errorsOf stringify tool toolCall args = .ok value ↔
      satisfies tool.parameters args = true ∧ args = value := by
  rw [checkArguments]
  split
  · rename_i h
    exact ⟨fun heq => ⟨h, Except.ok.inj heq⟩, fun heq => congrArg _ heq.2⟩
  · rename_i h
    exact ⟨nofun, fun heq => absurd heq.1 h⟩

/-- What validation returns is sound, and arguments that satisfy the schema are left alone. -/
def ValidatesArguments (check : JsonSchemaObject → ToolValue → Bool) (tool : Tool)
    (toolCall : ToolCall Json) : Prop :=
  (∀ value, validateToolArguments number check errorsOf stringify tool toolCall = .ok value →
      satisfies tool.parameters value = true) ∧
    (satisfies tool.parameters (ToolValue.ofJson toolCall.arguments) = true →
      validateToolArguments number check errorsOf stringify tool toolCall
        = .ok (ToolValue.ofJson toolCall.arguments))

variable {tool : Tool} {toolCall : ToolCall Json}

/-- What is returned for a scalar. -/
theorem validateToolArguments_of_scalar (htool : tool.typeBoxKind = false)
    (hscalar : (ToolValue.ofJson toolCall.arguments).isContainer = false) :
    validateToolArguments number satisfies errorsOf stringify tool toolCall =
      let args := ToolValue.ofJson toolCall.arguments
      let coerced := conversion number tool.parameters args
      if coerced.differs args then
        .ok (if satisfies tool.parameters coerced then coerced else args)
      else checkArguments satisfies errorsOf stringify tool toolCall args := by
  obtain ⟨-, cloned, hcoerced⟩ := @coerceWithJsonSchema_of_isScalar number
    tool.parameters _ ⟨hscalar, holdsInherited_ofJson toolCall.arguments⟩
  simp only [validateToolArguments, htool, hcoerced, hscalar, Bool.false_and, Bool.false_eq_true,
    if_false]

/-- Objects and arrays are checked whatever the coercion made of them. -/
theorem validateToolArguments_of_container (htool : tool.typeBoxKind = false)
    (hcontainer : (ToolValue.ofJson toolCall.arguments).isContainer = true) {value : ToolValue} :
    validateToolArguments number satisfies errorsOf stringify tool toolCall = .ok value ↔
      ∃ result, coerceWithJsonSchema number satisfies tool.parameters
          (ToolValue.ofJson toolCall.arguments) = .ok result ∧
        satisfies tool.parameters value = true ∧
        (if result.2 then assignArguments result.1 else result.1) = value := by
  simp only [validateToolArguments, htool, hcontainer, Bool.true_and, Bool.false_eq_true, if_false]
  cases hcoerced : coerceWithJsonSchema number satisfies tool.parameters
      (ToolValue.ofJson toolCall.arguments) with
  | error e => exact ⟨nofun, fun ⟨_, h, _⟩ => nomatch h⟩
  | ok result =>
    have hresult : result.1.isContainer = true :=
      (isContainer_coerceWithJsonSchema _ _ _ hcoerced).trans hcontainer
    dsimp only
    rw [if_pos hresult, checkArguments_eq_ok]
    constructor
    · rintro ⟨hsatisfies, rfl⟩
      exact ⟨result, rfl, hsatisfies, rfl⟩
    · rintro ⟨_, h, hsatisfies, rfl⟩
      cases h
      exact ⟨hsatisfies, rfl⟩

/-- **When validation is right**: unless a scalar is misconverted, or the arguments satisfy the
schema and the coercion reads what all objects inherit. -/
theorem validateToolArguments_iff {check : JsonSchemaObject → ToolValue → Bool}
    (hcheck : ∀ schema value, check schema value = satisfies schema value) (tool : Tool)
    (toolCall : ToolCall Json) :
    ValidatesArguments number errorsOf stringify check tool toolCall ↔
      tool.typeBoxKind = true ∨
        ¬ Misconverted number tool.parameters (ToolValue.ofJson toolCall.arguments) ∧
        ¬ (satisfies tool.parameters (ToolValue.ofJson toolCall.arguments) = true ∧
          readsInherited tool.parameters (ToolValue.ofJson toolCall.arguments) = true) := by
  obtain rfl : check = satisfies := funext fun schema => funext fun value => hcheck schema value
  have hown := holdsInherited_ofJson toolCall.arguments
  cases htool : tool.typeBoxKind with
  | true =>
    refine iff_of_true ?_ (Or.inl rfl)
    rw [ValidatesArguments]
    simp only [validateToolArguments, htool, if_true, checkArguments_eq_ok]
    exact ⟨fun value h => h.2 ▸ h.1, fun h => ⟨h, trivial⟩⟩
  | false =>
    simp only [Bool.false_eq_true, false_or]
    have hkeeps := @coerceWithJsonSchema_of_satisfies number tool.parameters
      (ToolValue.ofJson toolCall.arguments)
    cases hkind : (ToolValue.ofJson toolCall.arguments).isContainer with
    | true =>
      have hsound : ∀ value,
          validateToolArguments number satisfies errorsOf stringify tool toolCall = .ok value →
            satisfies tool.parameters value = true := by
        intro value h
        obtain ⟨_, -, hsatisfies, -⟩ :=
          (validateToolArguments_of_container number errorsOf stringify htool hkind).mp h
        exact hsatisfies
      have hnot : ¬ Misconverted number tool.parameters (ToolValue.ofJson toolCall.arguments) := by
        intro h
        rw [h.1] at hkind
        cases hkind
      rw [ValidatesArguments, and_iff_right hsound, and_iff_right hnot, not_and]
      refine forall_congr' fun hsatisfies => ?_
      obtain ⟨hquiet, hreads⟩ := hkeeps hsatisfies
      rw [validateToolArguments_of_container number errorsOf stringify htool hkind]
      constructor
      · rintro ⟨result, hresult, -, hvalue⟩ hread
        obtain ⟨hholds, hcloned⟩ := hreads hread result hresult
        rw [hcloned] at hvalue
        rw [← hvalue, if_neg Bool.false_ne_true, hholds] at hown
        cases hown
      · intro hread
        exact ⟨_, hquiet (eq_false_of_ne_true hread), hsatisfies, rfl⟩
    | false =>
      have hscalar : (ToolValue.ofJson toolCall.arguments).IsScalar := ⟨hkind, hown⟩
      obtain ⟨hconverted, cloned, hcoerced⟩ :=
        @coerceWithJsonSchema_of_isScalar number tool.parameters _ hscalar
      have hself : satisfies tool.parameters (ToolValue.ofJson toolCall.arguments) = true →
          readsInherited tool.parameters (ToolValue.ofJson toolCall.arguments) = false ∧
            conversion number tool.parameters (ToolValue.ofJson toolCall.arguments)
              = ToolValue.ofJson toolCall.arguments := by
        intro hsatisfies
        obtain ⟨hquiet, hreads⟩ := hkeeps hsatisfies
        have hread : readsInherited tool.parameters (ToolValue.ofJson toolCall.arguments)
            = false := by
          refine eq_false_of_ne_true fun hread => ?_
          have hholds := (hreads hread _ hcoerced).1
          rw [hconverted.2] at hholds
          cases hholds
        have hsame := Except.ok.inj (hcoerced.symm.trans (hquiet hread))
        exact ⟨hread, congrArg Prod.fst hsame⟩
      have hnot : ¬ (satisfies tool.parameters (ToolValue.ofJson toolCall.arguments) = true ∧
          readsInherited tool.parameters (ToolValue.ofJson toolCall.arguments) = true) := by
        rintro ⟨hsatisfies, hread⟩
        rw [(hself hsatisfies).1] at hread
        cases hread
      rw [and_iff_left hnot, ValidatesArguments,
        validateToolArguments_of_scalar number errorsOf stringify htool hkind]
      dsimp only
      constructor
      · rintro ⟨hsound, -⟩ ⟨-, hdiffers, hunsatisfied⟩
        have hsatisfies := hsound (ToolValue.ofJson toolCall.arguments) (by
          rw [if_pos hdiffers, hunsatisfied]
          rfl)
        rw [(hself hsatisfies).2, ToolValue.differs_self] at hdiffers
        cases hdiffers
      · intro hconversion
        constructor
        · intro value hvalue
          split at hvalue
          · rename_i hdiffers
            have hsatisfied : satisfies tool.parameters
                (conversion number tool.parameters (ToolValue.ofJson toolCall.arguments)) = true :=
              Bool.of_not_eq_false fun hunsatisfied =>
                hconversion ⟨hkind, hdiffers, hunsatisfied⟩
            rw [if_pos hsatisfied] at hvalue
            cases hvalue
            exact hsatisfied
          · obtain ⟨hsatisfies, rfl⟩ := (checkArguments_eq_ok errorsOf stringify).mp hvalue
            exact hsatisfies
        · intro hsatisfies
          rw [(hself hsatisfies).2, ToolValue.differs_self, if_neg Bool.false_ne_true]
          exact (checkArguments_eq_ok errorsOf stringify).mpr ⟨hsatisfies, rfl⟩

/-- The number a JSON literal spells, for texts that `Number` reads as JSON does. -/
def literalNumber? (s : JsString) : Option JsNumber :=
  (NumAcc.read s).bind fun a => if a.complete then some a.value else none

/-- `{ type: "number", minimum: 10 }` -/
def atLeastTen : JsonSchemaObject :=
  .mk [.number] [] .none none [] [] [] fun value =>
    match value with
    | .num x => decide (10 ≤ x.floor)
    | _ => true

theorem validateToolArguments_twelve :
    ValidatesArguments literalNumber? (fun _ _ => []) Json.stringify satisfies
      ⟨js "wait", atLeastTen, false⟩ ⟨js "1", js "wait", .str (js "12"), none, none⟩ :=
  (validateToolArguments_iff literalNumber? (fun _ _ => []) Json.stringify
    (fun _ _ => rfl) ⟨js "wait", atLeastTen, false⟩ ⟨js "1", js "wait", .str (js "12"),
      none, none⟩).mpr
    (Or.inr ⟨fun h => absurd h.2.2 (by decide), by decide⟩)

/-- `"5"` is changed into `5`, which is too small, and handed on as it came. -/
theorem validateToolArguments_unchecked :
    ¬ ∀ (tool : Tool) (toolCall : ToolCall Json),
      ValidatesArguments literalNumber? (fun _ _ => []) Json.stringify satisfies tool toolCall := by
  intro h
  have hsound := (h ⟨js "wait", atLeastTen, false⟩ ⟨js "1", js "wait", .str (js "5"), none, none⟩).1
    (.str (js "5"))
  rw [validateToolArguments_of_scalar literalNumber? _ _ rfl rfl] at hsound
  dsimp only at hsound
  rw [if_pos (by decide), if_neg (by decide)] at hsound
  exact absurd (hsound rfl) (by decide)

/-- An object that may have a string as its `constructor`. -/
def namedConstructor : JsonSchemaObject :=
  .mk [.object] [(js "constructor", .mk [.string] [] .none none [] [] [] fun _ => true)]
    .none none [] [] [] fun _ => true

/-- An empty object may have no string as its `constructor`, and is given a function. -/
example : satisfies namedConstructor (.obj []) = true ∧
    readsInherited namedConstructor (.obj []) = true := by decide

end Arguments

end PiMono.Ai
