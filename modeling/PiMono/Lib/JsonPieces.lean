import PiMono.Lib.JsonRoundTrip

/-!
# Strings in pieces

The text of an object with one string field, written piece by piece: the pieces are escaped one by
one, also where a cut separates two surrogates, and the text reads as the whole string.
-/

namespace PiMono

/-- `{"key":"` -/
def openField (key : JsString) : JsString := 0x7B :: (quote key ++ [0x3A, 0x22])

/-- `"}` -/
def closeField : JsString := [0x22, 0x7D]

/-- The text is that of an open field, whose string has been written so far. -/
def WritesField (key : JsString) (text written : JsString) : Prop :=
  JsonState.init.run text = some ⟨.string .value written .plain, [.field [] key]⟩

theorem writesField_open (key : JsString) : WritesField key (openField key) [] := by
  have hbrace : JsonState.init.step 0x7B = some ⟨.firstKey, []⟩ := rfl
  have hquote : JsonState.step ⟨.firstKey, []⟩ 0x22 = some ⟨.string (.key []) [] .plain, []⟩ := rfl
  rw [WritesField, openField, JsonState.run_cons, hbrace, Option.bind_some, quote,
    List.cons_append, JsonState.run_cons, hquote, Option.bind_some, List.append_assoc,
    List.singleton_append, JsonState.run_quote]
  rfl

/-- A further piece. -/
theorem WritesField.piece {key text written : JsString} (h : WritesField key text written)
    (piece : JsString) : WritesField key (text ++ quoteBody piece) (written ++ piece) := by
  have hpiece := JsonState.run_quoteBody [.field [] key] .value [] piece written
  rw [List.append_nil] at hpiece
  rw [WritesField, JsonState.run_append, show JsonState.init.run text = _ from h, Option.bind_some,
    hpiece]
  rfl

/-- The closed text is JSON, with the whole string. -/
theorem WritesField.parse_close {key text written : JsString} (h : WritesField key text written) :
    JsValue.parse (text ++ closeField) = some (JsValue.empty.set key (.str written)) := by
  refine JsValue.parse_eq_some.mpr ?_
  rw [Json.parse, JsonState.run_append, show JsonState.init.run text = _ from h, Option.bind_some,
    JsValue.set_json rfl]
  rfl

end PiMono
