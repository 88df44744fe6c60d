import PiMono.Lib.JsMap
import PiMono.Protocol.CborOptions

/-!
# Schemas of values

The schemas that `schemas.ts` is built of, as data, and which values they accept. An object
has the properties of its schema and no others; an optional one may be missing or be
`undefined`. So a value may lose its `undefined` properties and is still accepted
(`accepts_dropUndefined`).
-/

namespace PiMono.Protocol

/-- The value of `Type.Literal` -/
inductive Literal where
  | string (s : JsString)
  | bool (b : Bool)
  | number (n : SafeInt)
  deriving DecidableEq

/-- A schema. Where the source gives no minimum length it is zero; a length of strings is
that in UTF-16 units, and the least ones are zero and one. The properties of an object have
a name, and say whether they are optional. -/
inductive Schema where
  | null
  | boolean
  | number (minimum : Option Nat)
  | integer (minimum : Nat)
  | string (minLength : Nat)
  | literal (value : Literal)
  | array (items : Schema) (minItems : Nat)
  | union (anyOf : List Schema)
  | object (properties : List (JsString × Bool × Schema))
  -- `JsonValueSchema`
  | jsonValue

namespace CborValue

mutual

/-- What `JsonValueSchema` accepts. -/
def isJsonValue : CborValue → Bool
  | .null | .bool _ | .string _ => true
  | .number x => x.isFinite
  | .array items => areJsonValues items
  | .object _ fields => areJsonFields fields
  | .undefined | .bytes _ | .enclosing | .other _ => false

def areJsonValues : List CborValue → Bool
  | [] => true
  | v :: vs => isJsonValue v && areJsonValues vs

def areJsonFields : List (JsString × CborValue) → Bool
  | [] => true
  | (_, v) :: fields => isJsonValue v && areJsonFields fields

end

end CborValue

def Literal.accepts : Literal → CborValue → Bool
  | .string s, .string t => s = t
  | .bool a, .bool b => a = b
  | .number n, .number x => x.toInt? = some n.val
  | _, _ => false

namespace Schema

mutual

/-- Whether a value is one of the schema. -/
def accepts : Schema → CborValue → Bool
  | .null, v => match v with
    | .null => true
    | _ => false
  | .boolean, v => match v with
    | .bool _ => true
    | _ => false
  | .number minimum, v => match v with
    | .number x => x.isFinite && minimum.all x.atLeast
    | _ => false
  | .integer minimum, v => match v with
    | .number x => x.isInteger && x.atLeast minimum
    | _ => false
  | .string minLength, v => match v with
    | .string s => minLength ≤ s.length
    | _ => false
  | .literal value, v => value.accepts v
  | .array items minItems, v => match v with
    | .array vs => minItems ≤ vs.length && vs.all fun v => accepts items v
    | _ => false
  | .union anyOf, v => acceptsAny anyOf v
  | .object properties, v => match v with
    | .object _ fields => acceptsProperties properties fields &&
        fields.all fun f => properties.any fun p => p.1 = f.1
    | _ => false
  | .jsonValue, v => v.isJsonValue

def acceptsAny : List Schema → CborValue → Bool
  | [], _ => false
  | s :: ss, v => accepts s v || acceptsAny ss v

def acceptsProperties : List (JsString × Bool × Schema) → List (JsString × CborValue) → Bool
  | [], _ => true
  | (name, optional, s) :: properties, fields =>
    (match fieldValue? fields name with
      | none => optional
      | some v => (optional && v.isUndefined) || accepts s v) && acceptsProperties properties fields

end

/-! ## Undefined properties -/

mutual

theorem accepts_undefined : ∀ s : Schema, accepts s .undefined = false
  | .null | .boolean | .number _ | .integer _ | .string _ | .array _ _ | .object _
      | .jsonValue => rfl
  | .literal value => by cases value <;> rfl
  | .union anyOf => acceptsAny_undefined anyOf

theorem acceptsAny_undefined : ∀ ss : List Schema, acceptsAny ss .undefined = false
  | [] => rfl
  | s :: ss => by rw [acceptsAny, accepts_undefined s, acceptsAny_undefined ss]; rfl

end

/-- A field of the value without its undefined properties. -/
theorem fieldValue?_dropUndefined {fields : List (JsString × CborValue)}
    (hnodup : (fields.map Prod.fst).Nodup) (name : JsString) :
    fieldValue? (CborValue.dropUndefinedFields fields) name
      = ((fieldValue? fields name).filter fun v => !v.isUndefined).map CborValue.dropUndefined := by
  induction fields with
  | nil => rfl
  | cons f fields ih =>
    obtain ⟨key, v⟩ := f
    obtain ⟨hnew, hnodup⟩ := List.nodup_cons.mp hnodup
    rw [fieldValue?_cons, CborValue.dropUndefinedFields]
    by_cases hkey : key = name
    · subst hkey
      rw [if_pos rfl]
      by_cases hv : v.isUndefined = true
      · -- no second field of the name
        rw [if_pos hv, ih hnodup, fieldValue?_eq_none hnew]
        simp [Option.filter, hv]
      · rw [if_neg hv, fieldValue?_cons, if_pos rfl]
        simp [Option.filter, hv]
    · rw [if_neg hkey, ← ih hnodup]
      by_cases hv : v.isUndefined = true
      · rw [if_pos hv]
      · rw [if_neg hv, fieldValue?_cons, if_neg hkey]

mutual

theorem isJsonValue_dropUndefined : ∀ v : CborValue, v.isJsonValue = true →
    v.dropUndefined.isJsonValue = true
  | .null, _ | .bool _, _ | .string _, _ => rfl
  | .number _, h => h
  | .array items, h => areJsonValues_dropUndefined items h
  | .object _ fields, h => areJsonFields_dropUndefined fields h

theorem areJsonValues_dropUndefined : ∀ vs : List CborValue, CborValue.areJsonValues vs = true →
    CborValue.areJsonValues (CborValue.dropUndefinedItems vs) = true
  | [], _ => rfl
  | v :: vs, h => by
    obtain ⟨hv, hvs⟩ := Bool.and_eq_true_iff.mp h
    exact Bool.and_eq_true_iff.mpr
      ⟨isJsonValue_dropUndefined v hv, areJsonValues_dropUndefined vs hvs⟩

theorem areJsonFields_dropUndefined : ∀ fields : List (JsString × CborValue),
    CborValue.areJsonFields fields = true →
      CborValue.areJsonFields (CborValue.dropUndefinedFields fields) = true
  | [], _ => rfl
  | (_, v) :: fields, h => by
    obtain ⟨hv, hfields⟩ := Bool.and_eq_true_iff.mp h
    have hrest := areJsonFields_dropUndefined fields hfields
    rw [CborValue.dropUndefinedFields]
    split
    · exact hrest
    · exact Bool.and_eq_true_iff.mpr ⟨isJsonValue_dropUndefined v hv, hrest⟩

end

theorem Literal.accepts_dropUndefined {value : Literal} {v : CborValue}
    (h : value.accepts v = true) : value.accepts v.dropUndefined = true := by
  cases v with
  | array items => cases value <;> cases h
  | object symbols fields => cases value <;> cases h
  | _ => exact h

theorem keys_dropUndefined {fields : List (JsString × CborValue)} {f : JsString × CborValue}
    (hf : f ∈ CborValue.dropUndefinedFields fields) :
    ∃ v, (f.1, v) ∈ fields ∧ f.2 = v.dropUndefined := by
  rw [CborValue.dropUndefinedFields_eq] at hf
  obtain ⟨g, hg, rfl⟩ := List.mem_map.mp hf
  exact ⟨g.2, List.mem_of_mem_filter hg, rfl⟩

theorem nodup_of_ownOrder {keys : List JsString} (h : OwnOrder keys) : keys.Nodup :=
  h.imp fun hprecedes => hprecedes.1

mutual

/-- What a schema accepts it accepts without the undefined properties. -/
theorem accepts_dropUndefined : ∀ (s : Schema) {v : CborValue}, v.Wf → accepts s v = true →
    accepts s v.dropUndefined = true
  | .null, v, _, h | .boolean, v, _, h | .number _, v, _, h | .integer _, v, _, h
  | .string _, v, _, h => by
    cases v with
    | array items => cases h
    | object symbols fields => cases h
    | _ => exact h
  | .literal _, _, _, h => Literal.accepts_dropUndefined h
  | .array items minItems, v, hwf, h => by
    cases v with
    | array vs =>
      obtain ⟨hmin, hall⟩ := Bool.and_eq_true_iff.mp h
      show accepts _ (.array (CborValue.dropUndefinedItems vs)) = true
      rw [CborValue.dropUndefinedItems_eq]
      refine Bool.and_eq_true_iff.mpr ⟨by rw [List.length_map]; exact hmin, ?_⟩
      refine List.all_eq_true.mpr ?_
      intro v hv
      obtain ⟨w, hw, rfl⟩ := List.mem_map.mp hv
      exact accepts_dropUndefined items (hwf.item w hw) (List.all_eq_true.mp hall w hw)
    | _ => cases h
  | .union anyOf, _, hwf, h => acceptsAny_dropUndefined anyOf hwf h
  | .object properties, v, hwf, h => by
    cases v with
    | object symbols fields =>
      obtain ⟨hproperties, hnames⟩ := Bool.and_eq_true_iff.mp h
      refine Bool.and_eq_true_iff.mpr ⟨?_, ?_⟩
      · exact acceptsProperties_dropUndefined properties
          (nodup_of_ownOrder hwf.ownOrder) hwf.field hproperties
      · refine List.all_eq_true.mpr ?_
        intro f hf
        obtain ⟨w, hw, -⟩ := keys_dropUndefined hf
        exact List.all_eq_true.mp hnames (f.1, w) hw
    | _ => cases h
  | .jsonValue, v, _, h => isJsonValue_dropUndefined v h

theorem acceptsAny_dropUndefined : ∀ (ss : List Schema) {v : CborValue}, v.Wf →
    acceptsAny ss v = true → acceptsAny ss v.dropUndefined = true
  | s :: ss, v, hwf, h => by
    rcases Bool.or_eq_true_iff.mp h with h | h
    · exact Bool.or_eq_true_iff.mpr (.inl (accepts_dropUndefined s hwf h))
    · exact Bool.or_eq_true_iff.mpr (.inr (acceptsAny_dropUndefined ss hwf h))

theorem acceptsProperties_dropUndefined : ∀ (properties : List (JsString × Bool × Schema))
    {fields : List (JsString × CborValue)}, (fields.map Prod.fst).Nodup → (∀ f ∈ fields, f.2.Wf) →
      acceptsProperties properties fields = true →
        acceptsProperties properties (CborValue.dropUndefinedFields fields) = true
  | [], _, _, _, _ => rfl
  | (name, optional, s) :: properties, fields, hnodup, hwf, h => by
    obtain ⟨hfirst, hrest⟩ := Bool.and_eq_true_iff.mp h
    refine Bool.and_eq_true_iff.mpr
      ⟨?_, acceptsProperties_dropUndefined properties hnodup hwf hrest⟩
    rw [fieldValue?_dropUndefined hnodup]
    cases hfield : fieldValue? fields name with
    | none =>
      rw [hfield] at hfirst
      exact hfirst
    | some v =>
      rw [hfield] at hfirst
      have hmem : (name, v) ∈ fields := mem_of_fieldValue? hfield
      by_cases hv : v.isUndefined = true
      · rw [Option.filter_some_neg (by simpa using hv)]
        cases v with
        | undefined =>
          simp only [CborValue.isUndefined, Bool.and_true, accepts_undefined, Bool.or_false]
            at hfirst
          exact hfirst
        | _ => cases hv
      · rw [Option.filter_some_pos (by simpa using hv)]
        have haccepts : accepts s v = true := by
          simpa [hv] using hfirst
        exact Bool.or_eq_true_iff.mpr (.inr (accepts_dropUndefined s (hwf _ hmem) haccepts))

end

end Schema

end PiMono.Protocol
