import PiMono.Lib.JsonText

/-!
# Streaming JSON

`packages/ai/src/utils/json-parse.ts`: JSON whose strings are repaired, and JSON that may have
been cut off. The parser of cut JSON is a parameter; `none` stands for what is thrown.
-/

namespace PiMono.Ai

def quotationMark : UInt16 := 0x22

def backslash : UInt16 := 0x5C

/-- `VALID_JSON_ESCAPES` -/
def validJsonEscapes : JsString := js "\"\\/bfnrtu"

/-- `isControlCharacter` -/
def isControlCharacter (char : UInt16) : Bool := char ≤ 0x1F

/-- `escapeControlCharacter` -/
def escapeControlCharacter (char : UInt16) : JsString :=
  if char = 0x08 then js "\\b"
  else if char = 0x0C then js "\\f"
  else if char = 0x0A then js "\\n"
  else if char = 0x0D then js "\\r"
  else if char = 0x09 then js "\\t"
  else unicodeEscape char

/-- `/^[0-9a-fA-F]$/` -/
def isHexDigit (char : UInt16) : Bool := (hexValue? char).isSome

/-- The loop of `repairJson`, inside or outside of a string. -/
def repairFrom : Bool → JsString → JsString
  | _, [] => []
  | false, char :: rest => char :: repairFrom (char == quotationMark) rest
  | true, char :: rest =>
    if char = quotationMark then char :: repairFrom false rest
    else if char = backslash then
      match rest with
      | [] => [backslash, backslash]
      | nextChar :: behind =>
        match behind with
        | d₁ :: d₂ :: d₃ :: d₄ :: behindDigits =>
          if nextChar = 0x75 ∧ isHexDigit d₁ ∧ isHexDigit d₂ ∧ isHexDigit d₃ ∧ isHexDigit d₄ then
            backslash :: nextChar :: d₁ :: d₂ :: d₃ :: d₄ :: repairFrom true behindDigits
          else if nextChar ∈ validJsonEscapes then
            backslash :: nextChar :: repairFrom true (d₁ :: d₂ :: d₃ :: d₄ :: behindDigits)
          else
            backslash :: backslash ::
              repairFrom true (nextChar :: d₁ :: d₂ :: d₃ :: d₄ :: behindDigits)
        | behind =>
          if nextChar ∈ validJsonEscapes then backslash :: nextChar :: repairFrom true behind
          else backslash :: backslash :: repairFrom true (nextChar :: behind)
    else
      (if isControlCharacter char then escapeControlCharacter char else [char])
        ++ repairFrom true rest
termination_by _ json => json.length

/-- `repairJson` -/
def repairJson (json : JsString) : JsString := repairFrom false json

/-- `parseJsonWithRepair`; `none` where it throws. -/
def parseJsonWithRepair (json : JsString) : Option JsValue :=
  match JsValue.parse json with
  | some value => some value
  | none =>
    let repairedJson := repairJson json
    if repairedJson ≠ json then JsValue.parse repairedJson else none

/-- `parseStreamingJson` -/
def parseStreamingJson (partialParse : JsString → Option JsValue) (partialJson : JsString) :
    JsValue :=
  -- `result ?? {}`
  let orEmpty : JsValue → JsValue := fun result => if result = .null then .empty else result
  if isBlank partialJson then .empty
  else match parseJsonWithRepair partialJson with
    | some value => value
    | none => match partialParse partialJson with
      | some result => orEmpty result
      | none => match partialParse (repairJson partialJson) with
        | some result => orEmpty result
        | none => .empty

end PiMono.Ai
