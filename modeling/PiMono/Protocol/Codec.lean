import PiMono.Protocol.CborRoundTrip
import PiMono.Protocol.Framing
import PiMono.Protocol.Messages

/-!
# The codec of messages

`packages/protocol/src/codec.ts`. A message is screened (`isProtocolValue`), checked against
its schema, encoded and framed; the decoder undoes this frame by frame. The check is that of
a library, and a parameter: `Decides` says that it decides the schema.

An object without a prototype is the leaf `other` here, as the screen refuses it before the
encoder sees it. What a message loses on the way are its undefined properties. Such are
allowed at optional properties only, so what is decoded is accepted again.
-/

namespace PiMono.Protocol

/-- `ProtocolValidationError` -/
structure ProtocolValidationError where
  message : String
  deriving DecidableEq, Repr

namespace CborValue

mutual

/-- `isProtocolValue`; the set of `ancestors` is the leaf `enclosing`. -/
def isProtocolValue : CborValue → Bool → Bool
  | .undefined, optionalProperty => optionalProperty
  | .null, _ | .bool _, _ | .number _, _ | .string _, _ => true
  | .array items, _ => areProtocolValues items
  | .object _ fields, _ => areProtocolFields fields
  | .bytes _, _ | .enclosing, _ | .other _, _ => false

def areProtocolValues : List CborValue → Bool
  | [] => true
  | v :: vs => isProtocolValue v false && areProtocolValues vs

def areProtocolFields : List (JsString × CborValue) → Bool
  | [] => true
  | (_, v) :: fields => isProtocolValue v true && areProtocolFields fields

end

mutual

theorem isProtocolValue_dropUndefined : ∀ (v : CborValue) {optionalProperty : Bool},
    v.isProtocolValue optionalProperty = true →
      v.dropUndefined.isProtocolValue optionalProperty = true
  | .undefined, _, h => h
  | .null, _, _ | .bool _, _, _ | .number _, _, _ | .string _, _, _ => rfl
  | .array items, _, h => areProtocolValues_dropUndefined items h
  | .object _ fields, _, h => areProtocolFields_dropUndefined fields h

theorem areProtocolValues_dropUndefined : ∀ vs : List CborValue, areProtocolValues vs = true →
    areProtocolValues (dropUndefinedItems vs) = true
  | [], _ => rfl
  | v :: vs, h => by
    obtain ⟨hv, hvs⟩ := Bool.and_eq_true_iff.mp h
    exact Bool.and_eq_true_iff.mpr
      ⟨isProtocolValue_dropUndefined v hv, areProtocolValues_dropUndefined vs hvs⟩

theorem areProtocolFields_dropUndefined : ∀ fields : List (JsString × CborValue),
    areProtocolFields fields = true → areProtocolFields (dropUndefinedFields fields) = true
  | [], _ => rfl
  | (_, v) :: fields, h => by
    obtain ⟨hv, hfields⟩ := Bool.and_eq_true_iff.mp h
    have hrest := areProtocolFields_dropUndefined fields hfields
    rw [dropUndefinedFields]
    split
    · exact hrest
    · exact Bool.and_eq_true_iff.mpr ⟨isProtocolValue_dropUndefined v hv, hrest⟩

end

theorem areProtocolValues_eq_all (vs : List CborValue) :
    areProtocolValues vs = vs.all (isProtocolValue · false) := by
  induction vs with
  | nil => rfl
  | cons v vs ih => rw [areProtocolValues, ih, List.all_cons]

theorem areProtocolFields_eq_all (fields : List (JsString × CborValue)) :
    areProtocolFields fields = fields.all fun f => isProtocolValue f.2 true := by
  induction fields with
  | nil => rfl
  | cons f fields ih => rw [areProtocolFields, ih, List.all_cons]

theorem isProtocolValue_optional {v : CborValue} (h : v.isProtocolValue false = true) :
    v.isProtocolValue true = true := by
  cases v with
  | undefined => rfl
  | _ => exact h

mutual

theorem isProtocolValue_of_isJsonValue : ∀ v : CborValue, v.isJsonValue = true →
    v.isProtocolValue false = true
  | .null, _ | .bool _, _ | .string _, _ | .number _, _ => rfl
  | .array items, h => areProtocolValues_of_areJsonValues items h
  | .object _ fields, h => areProtocolFields_of_areJsonFields fields h

theorem areProtocolValues_of_areJsonValues : ∀ vs : List CborValue, areJsonValues vs = true →
    areProtocolValues vs = true
  | [], _ => rfl
  | v :: vs, h => by
    obtain ⟨hv, hvs⟩ := Bool.and_eq_true_iff.mp h
    exact Bool.and_eq_true_iff.mpr
      ⟨isProtocolValue_of_isJsonValue v hv, areProtocolValues_of_areJsonValues vs hvs⟩

theorem areProtocolFields_of_areJsonFields : ∀ fields : List (JsString × CborValue),
    areJsonFields fields = true → areProtocolFields fields = true
  | [], _ => rfl
  | (_, v) :: fields, h => by
    obtain ⟨hv, hfields⟩ := Bool.and_eq_true_iff.mp h
    exact Bool.and_eq_true_iff.mpr ⟨isProtocolValue_optional (isProtocolValue_of_isJsonValue v hv),
      areProtocolFields_of_areJsonFields fields hfields⟩

end

end CborValue

namespace Schema

mutual

/-- What a schema accepts passes the screen. -/
theorem isProtocolValue_of_accepts : ∀ (s : Schema) {v : CborValue}, v.Wf → accepts s v = true →
    v.isProtocolValue false = true
  | .null, v, _, h | .boolean, v, _, h | .number _, v, _, h | .integer _, v, _, h
  | .string _, v, _, h => by
    cases v <;> first | rfl | cases h
  | .literal value, v, _, h => by
    cases v <;> first | rfl | (cases value <;> cases h)
  | .array items minItems, v, hwf, h => by
    cases v with
    | array vs =>
      have hall := List.all_eq_true.mp (Bool.and_eq_true_iff.mp h).2
      show CborValue.areProtocolValues vs = true
      rw [CborValue.areProtocolValues_eq_all]
      exact List.all_eq_true.mpr fun v hv =>
        isProtocolValue_of_accepts items (hwf.item v hv) (hall v hv)
    | _ => cases h
  | .union anyOf, _, hwf, h => isProtocolValue_of_acceptsAny anyOf hwf h
  | .object properties, v, hwf, h => by
    cases v with
    | object symbols fields =>
      obtain ⟨hproperties, hnames⟩ := Bool.and_eq_true_iff.mp h
      show CborValue.areProtocolFields fields = true
      rw [CborValue.areProtocolFields_eq_all]
      refine List.all_eq_true.mpr fun f hf => ?_
      obtain ⟨p, hp, hname⟩ := List.any_eq_true.mp (List.all_eq_true.mp hnames f hf)
      exact isProtocolValue_of_acceptsProperties properties (nodup_of_ownOrder hwf.ownOrder)
        hwf.field hproperties hf ⟨p, hp, of_decide_eq_true hname⟩
    | _ => cases h
  | .jsonValue, v, _, h => v.isProtocolValue_of_isJsonValue h

theorem isProtocolValue_of_acceptsAny : ∀ (ss : List Schema) {v : CborValue}, v.Wf →
    acceptsAny ss v = true → v.isProtocolValue false = true
  | s :: ss, v, hwf, h => by
    rcases Bool.or_eq_true_iff.mp h with h | h
    · exact isProtocolValue_of_accepts s hwf h
    · exact isProtocolValue_of_acceptsAny ss hwf h

theorem isProtocolValue_of_acceptsProperties :
    ∀ (properties : List (JsString × Bool × Schema)) {fields : List (JsString × CborValue)},
      (fields.map Prod.fst).Nodup → (∀ f ∈ fields, f.2.Wf) →
      acceptsProperties properties fields = true → ∀ {f}, f ∈ fields →
      (∃ p ∈ properties, p.1 = f.1) → f.2.isProtocolValue true = true
  | [], _, _, _, _, _, _, hp => by
    obtain ⟨p, hp, -⟩ := hp
    cases hp
  | (name, optional, s) :: properties, fields, hnodup, hwf, h, f, hf, hp => by
    obtain ⟨hfirst, hrest⟩ := Bool.and_eq_true_iff.mp h
    by_cases hname : name = f.1
    · subst hname
      rw [fieldValue?_of_mem hnodup hf] at hfirst
      rcases Bool.or_eq_true_iff.mp hfirst with hundefined | haccepts
      · have hv := (Bool.and_eq_true_iff.mp hundefined).2
        cases hvalue : f.2 with
        | undefined => rfl
        | _ => rw [hvalue] at hv; cases hv
      · exact CborValue.isProtocolValue_optional (isProtocolValue_of_accepts s (hwf f hf) haccepts)
    · obtain ⟨p, hp, hpname⟩ := hp
      rcases List.mem_cons.mp hp with rfl | hp
      · exact absurd hpname hname
      · exact isProtocolValue_of_acceptsProperties properties hnodup hwf hrest hf ⟨p, hp, hpname⟩

end

end Schema

/-- The side that sends a message. -/
inductive MessageKind where
  | client
  | server

/-- The `kind` in the texts of errors. -/
def MessageKind.text : MessageKind → String
  | .client => "client"
  | .server => "server"

/-- `ClientMessageSchema` and `ServerMessageSchema` -/
def MessageKind.schema : MessageKind → Schema
  | .client => Schema.clientMessage
  | .server => Schema.serverMessage

/-- `Check` decides whether a value is one of a schema. -/
def Decides (Check : Schema → CborValue → Bool) : Prop := ∀ s v, Check s v = s.accepts v

variable (Check : Schema → CborValue → Bool)

/-- `parseClientMessage` and `parseServerMessage` -/
def parseMessage (kind : MessageKind) (value : CborValue) :
    Except ProtocolValidationError CborValue :=
  if ¬ value.isProtocolValue false = true ∨ ¬ Check kind.schema value = true then
    .error ⟨"Invalid " ++ kind.text ++ " protocol message"⟩
  else .ok value

/-- `boundedErrorMessage` of an error with the message. -/
def boundedErrorMessage (message : String) : String :=
  if message.length ≤ 500 then message
  else String.ofList (message.toList.take 497) ++ "..."

def CborFailure.message : CborFailure → String
  | .cborError message | .rangeError message => message

def FrameFailure.message : FrameFailure → String
  | .frameError message | .rangeError message => message

/-- `options?.maxFrameLength ?? DEFAULT_MAX_FRAME_LENGTH` -/
def maxFrameLengthOf (maxFrameLength : Option Float64) : Float64 :=
  maxFrameLength.getD (.ofSafe ⟨DEFAULT_MAX_FRAME_LENGTH, by decide⟩)

/-- The body of `encodeProtocolMessage`, whose errors are wrapped there. -/
def encodeValidated (maxFrameLength : Float64) (validated : CborValue) :
    Except String (List UInt8) := do
  let payload ← (encodeCbor validated { maxByteLength := some maxFrameLength }).mapError
    CborFailure.message
  let frame ← (encodeFrame payload).mapError FrameFailure.message
  (assertCompleteFrame frame (some maxFrameLength)).mapError FrameFailure.message
  return frame

/-- `encodeProtocolMessage`: `encodeClientMessage` and `encodeServerMessage` -/
def encodeProtocolMessage (kind : MessageKind) (maxFrameLength : Option Float64)
    (value : CborValue) : Except ProtocolValidationError (List UInt8) := do
  let validated ← parseMessage Check kind value
  (encodeValidated (maxFrameLengthOf maxFrameLength) validated).mapError fun message =>
    ⟨"Unable to encode " ++ kind.text ++ " protocol message: " ++ boundedErrorMessage message⟩

/-- `ValidatedMessageDecoder`: `ClientMessageDecoder` and `ServerMessageDecoder` -/
structure ValidatedMessageDecoder where
  failed : Bool
  frames : FrameDecoder
  kind : MessageKind
  maxFrameLength : Float64

namespace ValidatedMessageDecoder

/-- The constructor. -/
def create (kind : MessageKind) (maxFrameLength : Option Float64) :
    Except FrameFailure ValidatedMessageDecoder := do
  return ⟨false, ← FrameDecoder.create maxFrameLength, kind, maxFrameLengthOf maxFrameLength⟩

/-- `decodeCbor` and `parse` of one frame. -/
def decodeFrame (d : ValidatedMessageDecoder) (frame : List UInt8) :
    Except ProtocolValidationError CborValue :=
  match decodeCbor frame { maxByteLength := some d.maxFrameLength } with
  | .ok value => parseMessage Check d.kind value
  | .error failure => .error ⟨"Invalid " ++ d.kind.text ++ " protocol frame: "
      ++ boundedErrorMessage failure.message⟩

/-- `push` -/
def push (d : ValidatedMessageDecoder) (chunk : List UInt8) :
    Except ProtocolValidationError (List CborValue) × ValidatedMessageDecoder :=
  if d.failed then (.error ⟨d.kind.text ++ " message decoder has failed"⟩, d)
  else
    match d.frames.push chunk with
    | (.error failure, frames) =>
      (.error ⟨"Invalid " ++ d.kind.text ++ " protocol frame: "
        ++ boundedErrorMessage failure.message⟩, { d with frames := frames, failed := true })
    | (.ok payloads, frames) =>
      match payloads.mapM (d.decodeFrame Check) with
      | .ok messages => (.ok messages, { d with frames := frames })
      | .error error => (.error error, { d with frames := frames, failed := true })

/-- `end` -/
def «end» (d : ValidatedMessageDecoder) :
    Except ProtocolValidationError Unit × ValidatedMessageDecoder :=
  if d.failed then (.error ⟨d.kind.text ++ " message decoder has failed"⟩, d)
  else
    match d.frames.end with
    | (.error failure, frames) =>
      (.error ⟨"Invalid " ++ d.kind.text ++ " protocol framing: "
        ++ boundedErrorMessage failure.message⟩, { d with frames := frames, failed := true })
    | (.ok (), frames) => (.ok (), { d with frames := frames })

/-- What a call returns, and the decoder it leaves. `end` returns no messages. -/
def call (d : ValidatedMessageDecoder) : FrameCall →
    Except ProtocolValidationError (List CborValue) × ValidatedMessageDecoder
  | .push chunk => d.push Check chunk
  | .end => (d.end.1.map fun _ => [], d.end.2)

/-- Calls one after the other: what each returns, and the decoder they leave. -/
def run (d : ValidatedMessageDecoder) : List FrameCall →
    List (Except ProtocolValidationError (List CborValue)) × ValidatedMessageDecoder
  | [] => ([], d)
  | c :: calls =>
    ((d.call Check c).1 :: (run (d.call Check c).2 calls).1, (run (d.call Check c).2 calls).2)

end ValidatedMessageDecoder

end PiMono.Protocol
