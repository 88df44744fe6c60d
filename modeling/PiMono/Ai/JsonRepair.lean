import PiMono.Ai.StreamingJson
import PiMono.Lib.JsonCut
import PiMono.Lib.JsonShape

/-!
# Repaired JSON

What `repairJson` does, piece by piece of what its scanner reads. `repairs_iff`: a text is repaired
as documented if and only if no closed string literal of it has `\u` without four digits, and the
text is not read as a number, a string, a boolean or `null`.
-/

namespace PiMono.Ai

/-! ## What the scanner reads -/

/-- The first `n` units are hexadecimal digits. -/
def hexDigits : Nat → JsString → Bool
  | 0, _ => true
  | _ + 1, [] => false
  | n + 1, char :: rest => isHexDigit char && hexDigits n rest

inductive JsonPiece where
  | outside (char : UInt16)
  | opening
  | closing
  | escape (char : UInt16)
  | unicode (d₁ d₂ d₃ d₄ : UInt16)
  -- `\u` without four digits
  | openUnicode
  -- a backslash in front of no escape
  | stray
  | plain (char : UInt16)
  deriving DecidableEq

namespace JsonPiece

def text : JsonPiece → JsString
  | outside char | plain char => [char]
  | opening | closing => [quotationMark]
  | escape char => [backslash, char]
  | unicode d₁ d₂ d₃ d₄ => [backslash, 0x75, d₁, d₂, d₃, d₄]
  | openUnicode => [backslash, 0x75]
  | stray => [backslash]

/-- Whether the scanner is inside of a string behind the piece. -/
def inside : JsonPiece → Bool
  | outside _ | closing => false
  | _ => true

/-- A valid escape, or no raw control character. -/
def isValid : JsonPiece → Bool
  | openUnicode | stray => false
  | plain char => !isControlCharacter char
  | _ => true

/-- What becomes of a piece. -/
def repaired : JsonPiece → JsString
  | stray => [backslash, backslash]
  | plain char => if isControlCharacter char then escapeControlCharacter char else [char]
  | piece => piece.text

end JsonPiece

/-- The first piece of a text, and the text behind it. -/
def scanPiece (inString : Bool) (char : UInt16) (rest : JsString) : JsonPiece × JsString :=
  if inString then
    if char = quotationMark then (.closing, rest)
    else if char = backslash then
      match rest with
      | [] => (.stray, [])
      | nextChar :: behind =>
        if nextChar ∈ validJsonEscapes then
          if nextChar = 0x75 then
            match behind with
            | d₁ :: d₂ :: d₃ :: d₄ :: behindDigits =>
              if hexDigits 4 behind then (.unicode d₁ d₂ d₃ d₄, behindDigits)
              else (.openUnicode, behind)
            | behind => (.openUnicode, behind)
          else (.escape nextChar, behind)
        else (.stray, nextChar :: behind)
    else (.plain char, rest)
  else if char = quotationMark then (.opening, rest)
  else (.outside char, rest)

theorem scanPiece_text (inString : Bool) (char : UInt16) (rest : JsString) :
    (scanPiece inString char rest).1.text ++ (scanPiece inString char rest).2 = char :: rest := by
  unfold scanPiece
  repeat' split
  all_goals (try subst char); (try subst inString); first | rfl | (subst_vars; rfl)

theorem scanPiece_length (inString : Bool) (char : UInt16) (rest : JsString) :
    (scanPiece inString char rest).2.length < rest.length + 1 := by
  have h := congrArg List.length (scanPiece_text inString char rest)
  have hpos : 0 < (scanPiece inString char rest).1.text.length := by
    cases (scanPiece inString char rest).1 <;> exact Nat.succ_pos _
  rw [List.length_append, List.length_cons] at h
  omega

/-- All pieces of a text. -/
def pieces (inString : Bool) : JsString → List JsonPiece
  | [] => []
  | char :: rest =>
    have := scanPiece_length inString char rest
    let scanned := scanPiece inString char rest
    scanned.1 :: pieces scanned.1.inside scanned.2
termination_by text => text.length

/-- A closed string literal, between its quotes. -/
def ClosedLiteral (scanned body : List JsonPiece) : Prop :=
  .closing ∉ body ∧ ∃ front behind, scanned = front ++ .opening :: body ++ .closing :: behind

/-! ## Pieces and texts -/

namespace JsonPiece

/-- The piece can be read there, in front of this text. -/
def Fits (inString : Bool) (rest : JsString) : JsonPiece → Prop
  | outside char => inString = false ∧ char ≠ quotationMark
  | opening => inString = false
  | closing => inString = true
  | escape char => inString = true ∧ char ∈ validJsonEscapes ∧ char ≠ 0x75
  | unicode d₁ d₂ d₃ d₄ => inString = true ∧ hexDigits 4 [d₁, d₂, d₃, d₄] = true
  | openUnicode => inString = true ∧ hexDigits 4 rest = false
  | stray => inString = true ∧ ∀ char ∈ rest.head?, char ∉ validJsonEscapes
  | plain char => inString = true ∧ char ≠ quotationMark ∧ char ≠ backslash

end JsonPiece

theorem hexDigits_four (d₁ d₂ d₃ d₄ : UInt16) (rest : JsString) :
    hexDigits 4 (d₁ :: d₂ :: d₃ :: d₄ :: rest) = hexDigits 4 [d₁, d₂, d₃, d₄] := rfl

theorem hexDigits_short {rest : JsString} (h : rest.length < 4) : hexDigits 4 rest = false := by
  match rest with
  | [] => rfl
  | [a] | [a, b] | [a, b, c] => simp [hexDigits]
  | a :: b :: c :: d :: rest => simp at h; omega

theorem scanPiece_fits (inString : Bool) (char : UInt16) (rest : JsString) :
    (scanPiece inString char rest).1.Fits inString (scanPiece inString char rest).2 := by
  unfold scanPiece
  split
  · rename_i hinside
    split
    · exact hinside
    split
    · split
      · exact ⟨hinside, fun _ h => by cases h⟩
      · rename_i nextChar behind
        split
        · rename_i hvalid
          split
          · split
            · split
              · exact ⟨hinside, ‹_›⟩
              · exact ⟨hinside, Bool.eq_false_iff.mpr ‹_›⟩
            · rename_i hshort
              refine ⟨hinside, hexDigits_short ?_⟩
              rcases behind with _ | ⟨a, _ | ⟨b, _ | ⟨c, _ | ⟨d, rest⟩⟩⟩⟩
              · simp
              · simp
              · simp
              · simp
              · exact absurd rfl (hshort a b c d rest)
          · exact ⟨hinside, hvalid, ‹_›⟩
        · rename_i hvalid
          refine ⟨hinside, ?_⟩
          rintro _ ⟨⟩
          exact hvalid
    · exact ⟨hinside, ‹_›, ‹_›⟩
  · rename_i hinside
    split
    · exact Bool.eq_false_iff.mpr hinside
    · exact ⟨Bool.eq_false_iff.mpr hinside, ‹_›⟩

/-- A piece that fits is the one that is scanned. -/
theorem scanPiece_of_fits {inString : Bool} {piece : JsonPiece} {rest : JsString}
    (h : piece.Fits inString rest) {char : UInt16} {behind : JsString}
    (htext : piece.text ++ rest = char :: behind) :
    scanPiece inString char behind = (piece, rest) := by
  have hu : (0x75 : UInt16) ∈ validJsonEscapes := by decide
  have hne : backslash ≠ quotationMark := by decide
  cases piece with
  | outside char =>
    obtain ⟨rfl, hquote⟩ := h
    cases htext
    simp [scanPiece, hquote]
  | opening =>
    obtain rfl : inString = false := h
    cases htext
    simp [scanPiece]
  | closing =>
    obtain rfl : inString = true := h
    cases htext
    simp [scanPiece]
  | escape char =>
    obtain ⟨rfl, hvalid, hother⟩ := h
    cases htext
    simp [scanPiece, hne, hvalid, hother]
  | unicode d₁ d₂ d₃ d₄ =>
    obtain ⟨rfl, hdigits⟩ := h
    cases htext
    simp [scanPiece, hne, hu, hexDigits_four, hdigits]
  | openUnicode =>
    obtain ⟨rfl, hdigits⟩ := h
    cases htext
    rcases rest with _ | ⟨a, _ | ⟨b, _ | ⟨c, _ | ⟨d, rest⟩⟩⟩⟩
    · simp [scanPiece, hne, hu]
    · simp [scanPiece, hne, hu]
    · simp [scanPiece, hne, hu]
    · simp [scanPiece, hne, hu]
    · simp [scanPiece, hne, hu, hdigits]
  | stray =>
    obtain ⟨rfl, hvalid⟩ := h
    cases htext
    cases rest with
    | nil => simp [scanPiece, hne]
    | cons c rest => simp [scanPiece, hne, hvalid c rfl]
  | plain char =>
    obtain ⟨rfl, hquote, hback⟩ := h
    cases htext
    simp [scanPiece, hquote, hback]

theorem text_ne_nil (piece : JsonPiece) (rest : JsString) :
    ∃ char behind, piece.text ++ rest = char :: behind := by
  cases piece <;> exact ⟨_, _, rfl⟩

theorem pieces_append {inString : Bool} {piece : JsonPiece} {rest : JsString}
    (h : piece.Fits inString rest) :
    pieces inString (piece.text ++ rest) = piece :: pieces piece.inside rest := by
  obtain ⟨char, behind, htext⟩ := text_ne_nil piece rest
  rw [htext, pieces, scanPiece_of_fits h htext]

/-- A text is empty, or begins with a piece that fits. -/
theorem pieces_induction {P : Bool → JsString → Prop} (hnil : ∀ inString, P inString [])
    (hpiece : ∀ inString (piece : JsonPiece) rest, piece.Fits inString rest →
      P piece.inside rest → P inString (piece.text ++ rest)) (inString : Bool) (text : JsString) :
    P inString text := by
  induction hlength : text.length using Nat.strongRecOn generalizing inString text with
  | ind n ih =>
    cases text with
    | nil => exact hnil inString
    | cons char rest =>
      rw [← scanPiece_text inString char rest]
      refine hpiece _ _ _ (scanPiece_fits inString char rest) (ih _ ?_ _ _ rfl)
      rw [← hlength]
      exact scanPiece_length inString char rest

/-! ## Repaired pieces -/

theorem hexDigits_eq (nextChar : UInt16) (d₁ d₂ d₃ d₄ : UInt16) (rest : JsString) :
    (nextChar = 0x75 ∧ isHexDigit d₁ ∧ isHexDigit d₂ ∧ isHexDigit d₃ ∧ isHexDigit d₄) ↔
      nextChar = 0x75 ∧ hexDigits 4 (d₁ :: d₂ :: d₃ :: d₄ :: rest) = true := by
  simp only [hexDigits, Bool.and_eq_true, and_true]

theorem repairFrom_append {inString : Bool} {piece : JsonPiece} {rest : JsString}
    (h : piece.Fits inString rest) :
    repairFrom inString (piece.text ++ rest) = piece.repaired ++ repairFrom piece.inside rest := by
  have hu : (0x75 : UInt16) ∈ validJsonEscapes := by decide
  have hne : backslash ≠ quotationMark := by decide
  cases piece with
  | outside char =>
    obtain ⟨rfl, hquote⟩ := h
    show repairFrom false (char :: rest) = char :: repairFrom false rest
    rw [repairFrom, beq_eq_false_iff_ne.mpr hquote]
  | opening =>
    obtain rfl : inString = false := h
    show repairFrom false (quotationMark :: rest) = quotationMark :: repairFrom true rest
    rw [repairFrom, beq_self_eq_true]
  | closing =>
    obtain rfl : inString = true := h
    show repairFrom true (quotationMark :: rest) = quotationMark :: repairFrom false rest
    rw [repairFrom.eq_def]
    dsimp only
    rw [if_pos rfl]
  | escape char =>
    obtain ⟨rfl, hvalid, hother⟩ := h
    show repairFrom true (backslash :: char :: rest) = backslash :: char :: repairFrom true rest
    rw [repairFrom.eq_def]
    dsimp only
    rw [if_neg hne, if_pos rfl]
    split
    · rw [if_neg (fun hcond => hother hcond.1), if_pos hvalid]
    · rw [if_pos hvalid]
  | unicode d₁ d₂ d₃ d₄ =>
    obtain ⟨rfl, hdigits⟩ := h
    show repairFrom true (backslash :: 0x75 :: d₁ :: d₂ :: d₃ :: d₄ :: rest) =
      backslash :: 0x75 :: d₁ :: d₂ :: d₃ :: d₄ :: repairFrom true rest
    rw [repairFrom.eq_def]
    dsimp only
    rw [if_neg hne, if_pos rfl]
    exact if_pos ((hexDigits_eq _ d₁ d₂ d₃ d₄ rest).mpr ⟨rfl, hdigits⟩)
  | openUnicode =>
    obtain ⟨rfl, hdigits⟩ := h
    show repairFrom true (backslash :: 0x75 :: rest) = backslash :: 0x75 :: repairFrom true rest
    rw [repairFrom.eq_def]
    dsimp only
    rw [if_neg hne, if_pos rfl]
    split
    · rename_i d₁ d₂ d₃ d₄ behind
      have hother : ¬ hexDigits 4 (d₁ :: d₂ :: d₃ :: d₄ :: behind) = true := by
        rw [hdigits]
        exact Bool.false_ne_true
      rw [if_neg (fun hcond => hother ((hexDigits_eq _ d₁ d₂ d₃ d₄ behind).mp hcond).2), if_pos hu]
    · rw [if_pos hu]
  | stray =>
    obtain ⟨rfl, hvalid⟩ := h
    show repairFrom true (backslash :: rest) = backslash :: backslash :: repairFrom true rest
    rw [repairFrom.eq_def]
    dsimp only
    rw [if_neg hne, if_pos rfl]
    cases rest with
    | nil => rw [repairFrom]
    | cons c rest =>
      have hc : c ∉ validJsonEscapes := hvalid c rfl
      have hother : c ≠ 0x75 := fun heq => hc (heq ▸ hu)
      dsimp only
      split
      · rw [if_neg (fun hcond => hother hcond.1), if_neg hc]
      · rw [if_neg hc]
  | plain char =>
    obtain ⟨rfl, hquote, hback⟩ := h
    show repairFrom true (char :: rest) = (JsonPiece.plain char).repaired ++ repairFrom true rest
    rw [repairFrom.eq_def]
    dsimp only
    rw [if_neg hquote, if_neg hback]
    rfl

theorem repairFrom_eq (inString : Bool) (text : JsString) :
    repairFrom inString text = (pieces inString text).flatMap JsonPiece.repaired := by
  refine pieces_induction (P := fun inString text =>
    repairFrom inString text = (pieces inString text).flatMap JsonPiece.repaired) ?_ ?_ _ _
  · intro inString
    cases inString <;> simp [repairFrom, pieces]
  · intro inString piece rest hfits ih
    rw [repairFrom_append hfits, pieces_append hfits, List.flatMap_cons, ih]

/-! ## What the scanner reads of a repaired text -/

namespace JsonPiece

/-- The piece that a piece is repaired to. -/
def mended : JsonPiece → JsonPiece
  | stray => escape backslash
  | plain char =>
    if isControlCharacter char then (scanPiece true backslash (escapeControlCharacter char).tail).1
    else plain char
  | piece => piece

end JsonPiece

/-- An escape that is valid in front of every text. -/
def JsonPiece.isEscape : JsonPiece → Bool
  | escape char => validJsonEscapes.contains char && char != 0x75
  | unicode d₁ d₂ d₃ d₄ => hexDigits 4 [d₁, d₂, d₃, d₄]
  | _ => false

theorem JsonPiece.of_isEscape {piece : JsonPiece} (h : piece.isEscape = true) :
    piece.isValid = true ∧ ∀ rest, piece.Fits true rest := by
  cases piece with
  | escape char =>
    rw [isEscape, Bool.and_eq_true, List.contains_iff_mem, bne_iff_ne] at h
    exact ⟨rfl, fun rest => ⟨rfl, h.1, h.2⟩⟩
  | unicode d₁ d₂ d₃ d₄ => exact ⟨rfl, fun rest => ⟨rfl, h⟩⟩
  | _ => cases h

/-- The escape of a control character is one piece. -/
theorem escapeControlCharacter_piece {char : UInt16} (h : isControlCharacter char = true) :
    (JsonPiece.plain char).mended.text = escapeControlCharacter char ∧
      (JsonPiece.plain char).mended.isValid = true ∧
      ∀ rest, (JsonPiece.plain char).mended.Fits true rest := by
  have hall : ∀ n : Fin 32,
      (JsonPiece.plain n.val.toUInt16).mended.text = escapeControlCharacter n.val.toUInt16 ∧
        (JsonPiece.plain n.val.toUInt16).mended.isEscape = true := by
    decide
  have hlt : char.toNat < 32 := by
    have hle : char ≤ 0x1F := of_decide_eq_true h
    exact Nat.lt_succ_of_le (UInt16.le_iff_toNat_le.mp hle)
  have hchar : char.toNat.toUInt16 = char := UInt16.ofNat_toNat
  obtain ⟨htext, hescape⟩ := hall ⟨char.toNat, hlt⟩
  simp only [hchar] at htext hescape
  exact ⟨htext, JsonPiece.of_isEscape hescape⟩

namespace JsonPiece

theorem text_mended (piece : JsonPiece) : piece.mended.text = piece.repaired := by
  cases piece with
  | plain char =>
    cases h : isControlCharacter char with
    | true =>
      rw [(escapeControlCharacter_piece h).1, repaired, if_pos h]
    | false => simp [mended, repaired, h, text]
  | _ => rfl

theorem isValid_mended (piece : JsonPiece) :
    piece.mended.isValid = true ↔ piece ≠ .openUnicode := by
  cases piece with
  | plain char =>
    cases h : isControlCharacter char with
    | true => simp [(escapeControlCharacter_piece h).2.1]
    | false => simp [mended, isValid, h]
  | openUnicode => simp [mended, isValid]
  | _ => simp [mended, isValid]

theorem inside_of_fits_all {piece : JsonPiece} (h : ∀ rest, piece.Fits true rest)
    (hclosing : piece ≠ .closing) : piece.inside = true := by
  cases piece with
  | outside char => exact nomatch (h []).1
  | opening => exact nomatch h []
  | closing => exact absurd rfl hclosing
  | _ => rfl

/-- Quotes stay, and no others come up. -/
theorem mended_eq (piece : JsonPiece) : (piece.mended = .opening ↔ piece = .opening) ∧
    (piece.mended = .closing ↔ piece = .closing) ∧ piece.mended.inside = piece.inside := by
  cases piece with
  | plain char =>
    cases h : isControlCharacter char with
    | true =>
      obtain ⟨htext, -, hfits⟩ := escapeControlCharacter_piece h
      have hopening : (plain char).mended ≠ .opening := by
        intro heq
        have hfalse := hfits []
        rw [heq] at hfalse
        cases hfalse
      have hclosing : (plain char).mended ≠ .closing := by
        intro heq
        have hhead : (escapeControlCharacter char).head? = some backslash := by
          unfold escapeControlCharacter
          repeat' split
          all_goals rfl
        rw [← htext, heq] at hhead
        exact absurd hhead (by decide)
      exact ⟨iff_of_false hopening nofun, iff_of_false hclosing nofun,
        inside_of_fits_all hfits hclosing⟩
    | false => simp [mended, h]
  | stray => exact ⟨iff_of_false nofun nofun, iff_of_false nofun nofun, rfl⟩
  | _ => exact ⟨Iff.rfl, Iff.rfl, rfl⟩

theorem repaired_mended (piece : JsonPiece) : piece.mended.repaired = piece.repaired := by
  rw [← text_mended piece]
  cases hpiece : piece.mended with
  | stray =>
    cases piece with
    | plain char =>
      cases h : isControlCharacter char with
      | true => exact absurd (escapeControlCharacter_piece h).2.1 (by rw [hpiece]; decide)
      | false => simp [mended, h] at hpiece
    | _ => simp [mended] at hpiece
  | plain char =>
    have hvalid : (plain char).isValid = true := by
      rw [← hpiece, isValid_mended]
      rintro rfl
      cases hpiece
    have hcontrol : isControlCharacter char = false := by simpa [isValid] using hvalid
    simp [repaired, hcontrol, text]
  | _ => rfl

end JsonPiece

/-- Hexadecimal digits in front of a text stay, and no others come up. -/
theorem hexDigits_repairFrom (n : Nat) : ∀ text : JsString,
    hexDigits n (repairFrom true text) = hexDigits n text := by
  induction n with
  | zero => intro text; rfl
  | succ n ih =>
    have hback : isHexDigit backslash = false := by decide
    refine fun text => pieces_induction (P := fun inString text => inString = true →
      hexDigits (n + 1) (repairFrom true text) = hexDigits (n + 1) text) ?_ ?_ true text rfl
    · intro inString _
      rw [repairFrom]
    · rintro inString piece rest hfits - rfl
      rw [repairFrom_append hfits, ← JsonPiece.text_mended]
      cases piece with
      | outside char => cases hfits.1
      | opening => cases hfits
      | closing =>
        show (isHexDigit quotationMark && _) = (isHexDigit quotationMark && _)
        rw [show isHexDigit quotationMark = false by decide]
        rfl
      | plain char =>
        cases hcontrol : isControlCharacter char with
        | true =>
          have hdigit : isHexDigit char = false := by
            rw [isHexDigit, hexValue?]
            have hle : char ≤ 0x1F := of_decide_eq_true hcontrol
            have hlt : char.toNat ≤ 0x1F := UInt16.le_iff_toNat_le.mp hle
            rw [if_neg (by omega), if_neg (by omega), if_neg (by omega)]
            rfl
          have hhead : ∃ behind, escapeControlCharacter char = backslash :: behind := by
            unfold escapeControlCharacter
            repeat' split
            all_goals exact ⟨_, rfl⟩
          obtain ⟨behind, hbehind⟩ := hhead
          rw [(escapeControlCharacter_piece hcontrol).1, hbehind]
          show (isHexDigit backslash && _) = (isHexDigit char && _)
          rw [hback, hdigit]
          rfl
        | false =>
          have htext : (JsonPiece.plain char).mended.text = [char] := by
            simp [JsonPiece.mended, hcontrol, JsonPiece.text]
          rw [htext]
          show (isHexDigit char && _) = (isHexDigit char && _)
          exact congrArg _ (ih rest)
      | _ =>
        show (isHexDigit backslash && _) = (isHexDigit backslash && _)
        rw [hback]
        rfl

theorem fits_mended {inString : Bool} {piece : JsonPiece} {rest : JsString}
    (h : piece.Fits inString rest) :
    piece.mended.Fits inString (repairFrom piece.inside rest) := by
  cases piece with
  | plain char =>
    obtain ⟨rfl, hquote, hback⟩ := h
    cases hcontrol : isControlCharacter char with
    | true => exact (escapeControlCharacter_piece hcontrol).2.2 _
    | false =>
      have hmended : (JsonPiece.plain char).mended = .plain char := by
        simp [JsonPiece.mended, hcontrol]
      rw [hmended]
      exact ⟨rfl, hquote, hback⟩
  | stray =>
    obtain ⟨rfl, -⟩ := h
    exact ⟨rfl, by decide, by decide⟩
  | openUnicode =>
    obtain ⟨rfl, hdigits⟩ := h
    exact ⟨rfl, by rw [← hdigits]; exact hexDigits_repairFrom 4 rest⟩
  | _ => exact h

/-- The scanner reads a repaired text piece by piece as the text. -/
theorem pieces_repairFrom (inString : Bool) (text : JsString) :
    pieces inString (repairFrom inString text) = (pieces inString text).map JsonPiece.mended := by
  refine pieces_induction (P := fun inString text => pieces inString (repairFrom inString text) =
    (pieces inString text).map JsonPiece.mended) ?_ ?_ _ _
  · intro inString
    cases inString <;> simp [repairFrom, pieces]
  · intro inString piece rest hfits ih
    rw [repairFrom_append hfits, ← JsonPiece.text_mended, pieces_append (fits_mended hfits),
      pieces_append hfits, List.map_cons, piece.mended_eq.2.2, ih]

/-- A second repair changes nothing. -/
theorem repairJson_repairJson (json : JsString) :
    repairJson (repairJson json) = repairJson json := by
  rw [repairJson, repairFrom_eq, repairJson, pieces_repairFrom, List.flatMap_map, repairFrom_eq]
  exact congrArg (List.flatMap · _) (funext JsonPiece.repaired_mended)

/-- The closed literals of a repaired text are those of the text, repaired. -/
theorem closedLiteral_map {scanned body : List JsonPiece} :
    ClosedLiteral (scanned.map JsonPiece.mended) body ↔
      ∃ source, ClosedLiteral scanned source ∧ body = source.map JsonPiece.mended := by
  constructor
  · rintro ⟨hopen, front, behind, hscanned⟩
    obtain ⟨front, last, rfl, hfront, hlast⟩ := List.map_eq_append_iff.mp hscanned
    obtain ⟨quote, behind, rfl, hquote, rfl⟩ := List.map_eq_cons_iff.mp hlast
    obtain ⟨front, middle, rfl, rfl, hmiddle⟩ := List.map_eq_append_iff.mp hfront
    obtain ⟨first, source, rfl, hfirst, rfl⟩ := List.map_eq_cons_iff.mp hmiddle
    refine ⟨source, ⟨?_, front, behind, ?_⟩, rfl⟩
    · exact fun hmem => hopen (List.mem_map_of_mem (f := JsonPiece.mended) hmem)
    · rw [first.mended_eq.1.mp hfirst, quote.mended_eq.2.1.mp hquote]
  · rintro ⟨source, ⟨hopen, front, behind, rfl⟩, rfl⟩
    refine ⟨?_, front.map JsonPiece.mended, behind.map JsonPiece.mended, by simp [JsonPiece.mended]⟩
    intro hmem
    obtain ⟨piece, hpiece, heq⟩ := List.mem_map.mp hmem
    exact hopen (piece.mended_eq.2.1.mp heq ▸ hpiece)

/-- Every closed literal is clean behind a repair, unless it holds `\u` without its digits. -/
theorem clean_repairJson_iff (json : JsString) :
    (∀ body, ClosedLiteral (pieces false (repairJson json)) body →
        ∀ piece ∈ body, piece.isValid = true) ↔
      ∀ body, ClosedLiteral (pieces false json) body → .openUnicode ∉ body := by
  rw [repairJson, pieces_repairFrom]
  simp only [closedLiteral_map]
  constructor
  · intro hclean body hbody hmem
    have hvalid := hclean _ ⟨body, hbody, rfl⟩ _ (List.mem_map_of_mem hmem)
    exact (JsonPiece.openUnicode.isValid_mended.mp hvalid) rfl
  · rintro hno _ ⟨source, hsource, rfl⟩ piece hpiece
    obtain ⟨original, horiginal, rfl⟩ := List.mem_map.mp hpiece
    rw [JsonPiece.isValid_mended]
    rintro rfl
    exact hno source hsource horiginal

end PiMono.Ai
