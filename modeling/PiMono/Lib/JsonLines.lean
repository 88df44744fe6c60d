import PiMono.Lib.JsonCut
import PiMono.Lib.Lines
import PiMono.Lib.Utf8

/-!
# Files of JSON lines

A file of lines, each the text of an object and a newline. `decodeUtf8_file_append` and
`physicalLines_open` say what is read when more bytes stand behind the lines, and `cut_line`
what a byte prefix of one more line is: nothing, the whole line, its text without the newline,
or something on a line of its own that is no JSON.
-/

namespace PiMono

/-- The bytes of a file with these lines. -/
def fileBytes (lines : List JsString) : List UInt8 := encodeUtf8 (lines.flatMap (· ++ [0x0A]))

/-- The pieces between newlines; one empty piece at the end does not count. -/
def physicalLines (content : JsString) : List JsString :=
  if lastLine 0x0A content = [] then closedLines 0x0A content else content.splitOn 0x0A

/-- Well-formed texts without a newline. -/
def AreLines (lines : List JsString) : Prop := ∀ line ∈ lines, WellFormed line ∧ 0x0A ∉ line

namespace AreLines

variable {lines : List JsString}

theorem wellFormed (h : AreLines lines) : WellFormed (lines.flatMap (· ++ [0x0A])) := by
  induction lines with
  | nil => exact wellFormed_nil
  | cons line lines ih =>
    obtain ⟨hline, hlines⟩ := List.forall_mem_cons.mp h
    rw [List.flatMap_cons]
    exact (hline.1.append (wellFormed_unit (by decide) (by decide))).append (ih hlines)

theorem splitOn_append (h : AreLines lines) (rest : JsString) :
    (lines.flatMap (· ++ [0x0A]) ++ rest).splitOn 0x0A = lines ++ rest.splitOn 0x0A := by
  induction lines with
  | nil => rfl
  | cons line lines ih =>
    obtain ⟨hline, hlines⟩ := List.forall_mem_cons.mp h
    rw [List.flatMap_cons, List.append_assoc, List.append_assoc, List.singleton_append,
      List.splitOn_append_cons_self_of_not_mem hline.2, ih hlines, List.cons_append]

end AreLines

theorem fileBytes_append {lines : List JsString} (h : AreLines lines) {line : JsString}
    (hline : WellFormed line) :
    fileBytes (lines ++ [line]) = fileBytes lines ++ encodeUtf8 (line ++ [0x0A]) := by
  rw [fileBytes, fileBytes, List.flatMap_append, List.flatMap_singleton,
    encodeUtf8_append h.wellFormed (hline.append (wellFormed_unit (by decide) (by decide)))]

/-- Behind whole lines the decoder starts anew. -/
theorem decodeUtf8_file_append {lines : List JsString} (h : AreLines lines) (p : List UInt8) :
    decodeUtf8 (fileBytes lines ++ p) = lines.flatMap (· ++ [0x0A]) ++ decodeUtf8 p := by
  obtain ⟨cs, hcs⟩ := h.wellFormed
  have hrun : decodeRun .start (fileBytes lines) = (lines.flatMap (· ++ [0x0A]), .start) := by
    rw [fileBytes, ← hcs, encodeUtf8, scalars_flatMap_utf16, decodeRun_text]
  rw [decodeUtf8, decodeFrom_append, hrun]
  rfl

theorem lastLine_eq_of_splitOn {content last : JsString} {lines : List JsString}
    (h : content.splitOn 0x0A = lines ++ [last]) :
    closedLines 0x0A content = lines ∧ lastLine 0x0A content = last := by
  have hsplit := (splitOn_eq 0x0A content).symm.trans h
  obtain ⟨hlines, hlast⟩ := List.append_inj' hsplit rfl
  exact ⟨hlines, (List.cons.inj hlast).1⟩

/-- What is read when an open line stands behind whole lines. -/
theorem physicalLines_open {lines : List JsString} (h : AreLines lines) {line : JsString}
    (hline : 0x0A ∉ line) : physicalLines (lines.flatMap (· ++ [0x0A]) ++ line)
      = if line = [] then lines else lines ++ [line] := by
  have hsplit : (lines.flatMap (· ++ [0x0A]) ++ line).splitOn 0x0A = lines ++ [line] := by
    rw [h.splitOn_append, List.splitOn_eq_singleton hline]
  obtain ⟨hclosed, hlast⟩ := lastLine_eq_of_splitOn hsplit
  rw [physicalLines, hclosed, hlast, hsplit]

/-! ## Cutting a line -/

/-- The text of an object is printable and ends with a brace. -/
theorem stringify_object {v : JsValue} (hv : v.isObject = true) :
    (WellFormed v.stringify ∧ 0x0A ∉ v.stringify) ∧ ∃ body, v.stringify = 0x7B ::
    (body ++ [0x7D]) := by
  refine ⟨⟨(Json.printable_stringify v.json).1, fun hmem => ?_⟩, ?_⟩
  · exact absurd ((Json.printable_stringify v.json).2 _ hmem) (by decide)
  · obtain ⟨fields, hfields⟩ := JsValue.isObject_iff.mp hv
    obtain ⟨body, hbody⟩ := Json.stringify_obj fields
    exact ⟨body, by rw [JsValue.stringify, hfields, hbody]⟩

/-- **Cutting a line.** A byte prefix of the line of an object is nothing, the line, its
text, or an open line that is no JSON text. -/
theorem cut_line {v : JsValue} (hv : v.isObject = true) {p rest : List UInt8}
    (h : p ++ rest = encodeUtf8 (v.stringify ++ [0x0A])) :
    p = [] ∨ p = encodeUtf8 v.stringify ∨ rest = [] ∨
      (0x0A ∉ decodeUtf8 p ∧ decodeUtf8 p ≠ [] ∧ JsValue.parse (decodeUtf8 p) = none) := by
  obtain ⟨⟨hwf, hline⟩, body, hbody⟩ := stringify_object hv
  have hnewline : WellFormed [(0x0A : UInt16)] := wellFormed_unit (by decide) (by decide)
  obtain ⟨q, r, hqr, hcut⟩ := decodeUtf8_prefix (hwf.append hnewline) h
  rcases List.eq_nil_or_concat r with rfl | ⟨r, u, rfl⟩
  · -- nothing is missing
    rcases hcut with ⟨-, hrest⟩ | ⟨-, hne⟩
    · exact Or.inr (Or.inr (Or.inl hrest))
    · exact absurd rfl hne
  · rw [List.concat_eq_append, ← List.append_assoc] at hqr
    obtain ⟨htext, hu⟩ := List.append_inj' hqr rfl
    obtain rfl := (List.cons.inj hu).1
    have hq : 0x0A ∉ q := fun hmem => hline (htext ▸ List.mem_append_left _ hmem)
    rcases hcut with ⟨hdecode, hrest⟩ | ⟨hdecode, -⟩
    · rcases List.eq_nil_or_concat r with rfl | ⟨r, u, rfl⟩
      · -- only the newline is missing
        refine Or.inr (Or.inl ?_)
        rw [List.concat_eq_append, List.nil_append] at hrest
        rw [hrest, encodeUtf8_append hwf hnewline] at h
        exact List.append_cancel_right h
      · rcases List.eq_nil_or_concat q with rfl | ⟨q', u', rfl⟩
        · -- all is missing
          refine Or.inl ?_
          have hall : encodeUtf8 (v.stringify ++ [0x0A]) = rest := by
            rw [hrest, htext]
            simp
          have hlength := congrArg List.length (h.trans hall)
          rw [List.length_append] at hlength
          exact List.length_eq_zero_iff.mp (by omega)
        · -- the closing brace is missing
          refine Or.inr (Or.inr (Or.inr ⟨hdecode ▸ hq, ?_, ?_⟩))
          · rw [hdecode, List.concat_eq_append]
            exact List.concat_ne_nil u' q'
          · have hbrace : (0x7D : UInt16) ∈ r.concat u := by
              have hlast : (0x7B :: (body ++ [0x7D])).getLast? = some (0x7D : UInt16) := by
                rw [← List.cons_append, List.getLast?_concat]
              have hsnoc : r.concat u = r ++ [u] := List.concat_eq_append
              rw [← hbody, htext, hsnoc, ← List.append_assoc, List.getLast?_concat] at hlast
              rw [← Option.some.inj hlast, hsnoc]
              exact List.mem_append_right _ (List.mem_singleton.mpr rfl)
            rw [hdecode, JsValue.parse_eq_none]
            refine Json.parse_cut ?_ hbrace
            rw [← htext]
            have hparse := Json.parse_stringify v.wf
            rw [Json.parse] at hparse
            cases hrun : JsonState.init.run v.json.stringify with
            | none =>
              rw [hrun] at hparse
              cases hparse
            | some s => rw [JsValue.stringify, hrun]; rfl
    · -- the cut is inside a character
      refine Or.inr (Or.inr (Or.inr ⟨?_, ?_, ?_⟩))
      · rw [hdecode]
        intro hmem
        rcases List.mem_append.mp hmem with hmem | hmem
        · exact hq hmem
        · exact absurd hmem (by decide)
      · rw [hdecode]
        exact List.append_ne_nil_of_right_ne_nil _ (utf16_ne_nil _)
      · rw [hdecode, JsValue.parse_eq_none]
        exact Json.parse_replacement q

end PiMono
