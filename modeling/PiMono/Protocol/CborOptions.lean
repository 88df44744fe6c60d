import PiMono.Lib.Float64
import PiMono.Lib.OwnKeys

/-!
# Values and limits of the protocol's CBOR

`CborValue` is what `encodeCbor` can be given: a JavaScript value as the encoder walks
it. An item of an array that was never set reads as `undefined`, a reference to an array
or object that encloses it is the leaf `enclosing`, and of the values the encoder turns
away only the `typeof` is kept. `Wf` says that the keys of every object differ and stand
in the order an object has them.
-/

namespace PiMono.Protocol

/-- What the codec throws. -/
inductive CborFailure where
  /-- `CborError` -/
  | cborError (message : String)
  | rangeError (message : String)
  deriving DecidableEq, Repr

/-- `typeof` of a value that is not supported. -/
inductive UnsupportedType where
  | undefined
  | bigint
  | symbol
  | function
  | object
  deriving DecidableEq, Repr

def UnsupportedType.text : UnsupportedType → String
  | .undefined => "undefined"
  | .bigint => "bigint"
  | .symbol => "symbol"
  | .function => "function"
  | .object => "object"

/-- A value. `symbols` says that an object has an enumerable property whose key is a
symbol. -/
inductive CborValue where
  | undefined
  | null
  | bool (b : Bool)
  | number (x : Float64)
  | string (s : JsString)
  | bytes (bs : List UInt8)
  | array (items : List CborValue)
  | object (symbols : Bool) (fields : List (JsString × CborValue))
  | enclosing
  | other (type : UnsupportedType)

namespace CborValue

def isUndefined : CborValue → Bool
  | .undefined => true
  | _ => false

/-- `entries`: the fields whose value is defined. -/
def entries (fields : List (JsString × CborValue)) : List (JsString × CborValue) :=
  fields.filter fun f => !f.2.isUndefined

/-- The keys of every object are those of an object. -/
inductive Wf : CborValue → Prop
  | undefined : Wf .undefined
  | null : Wf .null
  | bool (b : Bool) : Wf (.bool b)
  | number (x : Float64) : Wf (.number x)
  | string (s : JsString) : Wf (.string s)
  | bytes (bs : List UInt8) : Wf (.bytes bs)
  | array {items : List CborValue} : (∀ v ∈ items, Wf v) → Wf (.array items)
  | object {symbols : Bool} {fields : List (JsString × CborValue)} :
    OwnOrder (fields.map Prod.fst) → (∀ f ∈ fields, Wf f.2) → Wf (.object symbols fields)
  | enclosing : Wf .enclosing
  | other (type : UnsupportedType) : Wf (.other type)

theorem Wf.item {items : List CborValue} (h : Wf (.array items)) : ∀ v ∈ items, Wf v := by
  cases h
  assumption

theorem Wf.field {symbols : Bool} {fields : List (JsString × CborValue)}
    (h : Wf (.object symbols fields)) : ∀ f ∈ fields, Wf f.2 := by
  cases h
  assumption

theorem Wf.ownOrder {symbols : Bool} {fields : List (JsString × CborValue)}
    (h : Wf (.object symbols fields)) : OwnOrder (fields.map Prod.fst) := by
  cases h
  assumption

mutual

/-- The value without the properties that are `undefined`. -/
def dropUndefined : CborValue → CborValue
  | .array items => .array (dropUndefinedItems items)
  | .object symbols fields => .object symbols (dropUndefinedFields fields)
  | .undefined => .undefined
  | .null => .null
  | .bool b => .bool b
  | .number x => .number x
  | .string s => .string s
  | .bytes bs => .bytes bs
  | .enclosing => .enclosing
  | .other type => .other type

def dropUndefinedItems : List CborValue → List CborValue
  | [] => []
  | v :: vs => dropUndefined v :: dropUndefinedItems vs

def dropUndefinedFields : List (JsString × CborValue) → List (JsString × CborValue)
  | [] => []
  | (key, v) :: fields =>
    if v.isUndefined then dropUndefinedFields fields
    else (key, dropUndefined v) :: dropUndefinedFields fields

end

theorem dropUndefinedItems_eq : ∀ items : List CborValue,
    dropUndefinedItems items = items.map dropUndefined
  | [] => rfl
  | v :: vs => by rw [dropUndefinedItems, dropUndefinedItems_eq vs, List.map_cons]

theorem dropUndefinedFields_eq : ∀ fields : List (JsString × CborValue),
    dropUndefinedFields fields = (entries fields).map fun f => (f.1, f.2.dropUndefined)
  | [] => rfl
  | (key, v) :: fields => by
    rw [dropUndefinedFields, dropUndefinedFields_eq fields, entries, entries, List.filter_cons]
    cases v.isUndefined <;> rfl

end CborValue

/-! ## Limits -/

def UINT32_BASE : Nat := 2 ^ 32

def MAX_UINT32 : Nat := 2 ^ 32 - 1

def MAX_CONFIGURED_DEPTH : Nat := 512

def DEFAULT_MAX_CBOR_BYTE_LENGTH : Nat := 16 * 1024 * 1024

def DEFAULT_MAX_CBOR_CONTAINER_LENGTH : Nat := 1000000

def DEFAULT_MAX_CBOR_DEPTH : Nat := 64

/-- `CborOptions`; a field that is missing is `none`. -/
structure CborOptions where
  maxByteLength : Option Float64 := none
  maxContainerLength : Option Float64 := none
  maxDepth : Option Float64 := none

/-- A limit: a count that `resolveLimit` has checked against its maximum. -/
abbrev Limit (maximum : Nat) := { n : Nat // n ≤ maximum }

/-- `ResolvedCborOptions` -/
structure ResolvedCborOptions where
  maxByteLength : Limit MAX_UINT32
  maxContainerLength : Limit MAX_UINT32
  maxDepth : Limit MAX_CONFIGURED_DEPTH

/-- `resolveLimit`, with the default that stands in for a missing value. -/
def resolveLimit (name : String) (value : Option Float64) (maximum : Nat)
    (fallback : Limit maximum) : Except CborFailure (Limit maximum) :=
  match value with
  | none => .ok fallback
  | some x =>
    match x.toSafe? with
    | some n =>
      if h : 0 ≤ n.val ∧ n.val ≤ maximum then .ok ⟨n.val.toNat, by omega⟩
      else .error (.rangeError (name ++ " must be an integer between 0 and " ++ toString maximum))
    | none =>
      .error (.rangeError (name ++ " must be an integer between 0 and " ++ toString maximum))

/-- `resolveOptions` -/
def resolveOptions (options : CborOptions) : Except CborFailure ResolvedCborOptions := do
  let maxByteLength ← resolveLimit "maxByteLength" options.maxByteLength MAX_UINT32
    ⟨DEFAULT_MAX_CBOR_BYTE_LENGTH, by decide⟩
  let maxContainerLength ← resolveLimit "maxContainerLength" options.maxContainerLength MAX_UINT32
    ⟨DEFAULT_MAX_CBOR_CONTAINER_LENGTH, by decide⟩
  let maxDepth ← resolveLimit "maxDepth" options.maxDepth MAX_CONFIGURED_DEPTH
    ⟨DEFAULT_MAX_CBOR_DEPTH, by decide⟩
  pure ⟨maxByteLength, maxContainerLength, maxDepth⟩

end PiMono.Protocol
