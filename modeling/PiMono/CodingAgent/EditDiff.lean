import PiMono.CodingAgent.Truncate
import PiMono.Lib.Except
import PiMono.Lib.Occurrences
import PiMono.Lib.Replacements

/-!
# Edits of a text

`packages/coding-agent/src/core/tools/edit-diff.ts`: `applyEditsToNormalizedContent`
finds the old text of every edit, verbatim or in a normalized copy, and replaces what it
found. Unicode normalization (`normalize("NFKC")`) is the parameter `nfkc`.
-/

namespace PiMono.CodingAgent

/-- `"\r"` -/
def carriageReturn : UInt16 := 0x0D

/-- The two endings that a file is written back with. -/
inductive LineEnding where
  | lf
  | crlf
  deriving DecidableEq, Repr

/-- `detectLineEnding` -/
def detectLineEnding (content : JsString) : LineEnding :=
  match indexOf? content [newline] with
  | none => .lf
  | some lfIdx =>
    match indexOf? content [carriageReturn, newline] with
    | none => .lf
    | some crlfIdx => if crlfIdx < lfIdx then .crlf else .lf

/-- `normalizeToLF`: first `\r\n`, then every `\r` that is left. -/
def normalizeToLF : JsString → JsString
  | [] => []
  | [u] => if u = carriageReturn then [newline] else [u]
  | u :: v :: rest =>
    if u = carriageReturn then
      if v = newline then newline :: normalizeToLF rest else newline :: normalizeToLF (v :: rest)
    else u :: normalizeToLF (v :: rest)

/-- `restoreLineEndings` -/
def restoreLineEndings (text : JsString) : LineEnding → JsString
  | .crlf => text.flatMap fun u => if u = newline then [carriageReturn, newline] else [u]
  | .lf => text

/-- `trimEnd` -/
def trimEnd (s : JsString) : JsString := s.rdropWhile isTrimmed

/-- The four classes of `normalizeForFuzzyMatch`: single quotes, double quotes, dashes, spaces. -/
def normalizeUnit (u : UInt16) : UInt16 :=
  if 0x2018 ≤ u ∧ u ≤ 0x201B then 0x27
  else if 0x201C ≤ u ∧ u ≤ 0x201F then 0x22
  else if (0x2010 ≤ u ∧ u ≤ 0x2015) ∨ u = 0x2212 then 0x2D
  else if u = 0xA0 ∨ (0x2002 ≤ u ∧ u ≤ 0x200A) ∨ u = 0x202F ∨ u = 0x205F ∨ u = 0x3000 then 0x20
  else u

/-- `normalizeForFuzzyMatch` -/
def normalizeForFuzzyMatch (nfkc : JsString → JsString) (text : JsString) : JsString :=
  (joinLines (((nfkc text).splitOn newline).map trimEnd)).map normalizeUnit

/-- `splitLinesWithEndings` -/
def splitLinesWithEndings : JsString → List JsString
  | [] => []
  | u :: us =>
    if u = newline then [newline] :: splitLinesWithEndings us
    else
      match splitLinesWithEndings us with
      | [] => [[u]]
      | line :: lines => (u :: line) :: lines

/-- `LineSpan` -/
structure LineSpan where
  start : Nat
  stop : Nat
  deriving DecidableEq, Repr

/-- The spans of lines that follow each other, the first one at `offset`. -/
def spansFrom (offset : Nat) : List JsString → List LineSpan
  | [] => []
  | line :: lines => ⟨offset, offset + line.length⟩ :: spansFrom (offset + line.length) lines

/-- `getLineSpans` -/
def getLineSpans (content : JsString) : List LineSpan := spansFrom 0 (splitLinesWithEndings content)

/-- `TextReplacement` -/
abbrev TextReplacement := Replacement UInt16

/-- The lines from `startLine` up to `endLine`. -/
structure LineRange where
  startLine : Nat
  endLine : Nat
  deriving DecidableEq, Repr

/-- `"Replacement range is outside the base content."` -/
def outsideError : JsString := js "Replacement range is outside the base content."

/-- `getReplacementLineRange` -/
def getReplacementLineRange (lines : List LineSpan) (replacement : TextReplacement) :
    Except JsString LineRange :=
  match lines.findIdx? fun line =>
      line.start ≤ replacement.matchIndex ∧ replacement.matchIndex < line.stop with
  | none => .error outsideError
  | some startLine =>
    let endLine := startLine
      + ((lines.drop startLine).takeWhile fun line => line.stop < replacement.stop).length
    if lines.length ≤ endLine then .error outsideError else .ok ⟨startLine, endLine + 1⟩

/-- `applyReplacements` -/
def applyReplacements (content : JsString) (replacements : List TextReplacement) (offset : Nat) :
    JsString :=
  replaceAll (replacements.map (·.shift offset)) content

/-- A run of lines with the replacements in it. -/
structure LineGroup where
  startLine : Nat
  endLine : Nat
  replacements : List TextReplacement
  deriving DecidableEq

/-- The loop that groups replacements, with the group that is still open. -/
def groupFrom (lines : List LineSpan) (current : LineGroup) :
    List TextReplacement → Except JsString (List LineGroup)
  | [] => .ok [current]
  | replacement :: rest => do
    let range ← getReplacementLineRange lines replacement
    if range.startLine < current.endLine then
      groupFrom lines
        ⟨current.startLine, max current.endLine range.endLine,
          current.replacements ++ [replacement]⟩ rest
    else
      let groups ← groupFrom lines ⟨range.startLine, range.endLine, [replacement]⟩ rest
      pure (current :: groups)

/-- The groups of sorted replacements. -/
def groupReplacements (lines : List LineSpan) :
    List TextReplacement → Except JsString (List LineGroup)
  | [] => .ok []
  | replacement :: rest => do
    let range ← getReplacementLineRange lines replacement
    groupFrom lines ⟨range.startLine, range.endLine, [replacement]⟩ rest

/-- The span of a line; the lines asked for exist. -/
def spanAt (lines : List LineSpan) (i : Nat) : LineSpan := lines.getD i ⟨0, 0⟩

/-- The loop that writes the groups and the lines between them. -/
def overlayFrom (originalLines : List JsString) (baseContent : JsString) (baseLines : List LineSpan)
    (originalLineIndex : Nat) : List LineGroup → JsString
  | [] => (originalLines.drop originalLineIndex).flatten
  | group :: groups =>
    let groupStartOffset := (spanAt baseLines group.startLine).start
    let groupEndOffset := (spanAt baseLines (group.endLine - 1)).stop
    ((originalLines.drop originalLineIndex).take (group.startLine - originalLineIndex)).flatten
      ++ applyReplacements
          ((baseContent.drop groupStartOffset).take (groupEndOffset - groupStartOffset))
          group.replacements groupStartOffset
      ++ overlayFrom originalLines baseContent baseLines group.endLine groups

/-- `(a, b) => a.matchIndex - b.matchIndex` -/
def matchOrder (a b : TextReplacement) : Bool := a.matchIndex ≤ b.matchIndex

/-- The text of the error when the line counts differ. -/
def lineCountError : JsString :=
  js "Cannot preserve unchanged lines because the base content has a different line count."

/-- `applyReplacementsPreservingUnchangedLines` -/
def applyReplacementsPreservingUnchangedLines (originalContent baseContent : JsString)
    (replacements : List TextReplacement) : Except JsString JsString :=
  let originalLines := splitLinesWithEndings originalContent
  let baseLines := getLineSpans baseContent
  if originalLines.length ≠ baseLines.length then .error lineCountError
  else do
    let groups ← groupReplacements baseLines (replacements.mergeSort matchOrder)
    pure (overlayFrom originalLines baseContent baseLines 0 groups)

/-- `FuzzyMatchResult`, where something was found. -/
structure FuzzyMatch where
  index : Nat
  matchLength : Nat
  usedFuzzyMatch : Bool
  deriving DecidableEq, Repr

/-- `Edit` -/
structure Edit where
  oldText : JsString
  newText : JsString
  deriving DecidableEq

/-- `AppliedEditsResult` -/
structure AppliedEditsResult where
  baseContent : JsString
  newContent : JsString
  deriving DecidableEq

/-- `fuzzyFindText`; `none` where nothing is found. -/
def fuzzyFindText (nfkc : JsString → JsString) (content oldText : JsString) : Option FuzzyMatch :=
  match indexOf? content oldText with
  | some exactIndex => some ⟨exactIndex, oldText.length, false⟩
  | none =>
    let fuzzyOldText := normalizeForFuzzyMatch nfkc oldText
    (indexOf? (normalizeForFuzzyMatch nfkc content) fuzzyOldText).map fun fuzzyIndex =>
      ⟨fuzzyIndex, fuzzyOldText.length, true⟩

/-- `s.split(sep)`: an empty separator cuts between all units. -/
def splitText (s sep : JsString) : List JsString :=
  if sep = [] then s.map fun u => [u] else splitBy s sep

/-- `countOccurrences`: one less than the pieces, which may be none. -/
def countOccurrences (nfkc : JsString → JsString) (content oldText : JsString) : Int :=
  ((splitText (normalizeForFuzzyMatch nfkc content)
    (normalizeForFuzzyMatch nfkc oldText)).length : Int) - 1

/-- `${n}` -/
def decimal (n : Nat) : JsString := js (toString n)

/-- `getNotFoundError` -/
def getNotFoundError (path : JsString) (editIndex totalEdits : Nat) : JsString :=
  if totalEdits = 1 then
    js "Could not find the exact text in " ++ path
      ++ js ". The old text must match exactly including all whitespace and newlines."
  else
    js "Could not find edits[" ++ decimal editIndex ++ js "] in " ++ path
      ++ js ". The oldText must match exactly including all whitespace and newlines."

/-- `getDuplicateError` -/
def getDuplicateError (path : JsString) (editIndex totalEdits occurrences : Nat) : JsString :=
  if totalEdits = 1 then
    js "Found " ++ decimal occurrences ++ js " occurrences of the text in " ++ path
      ++ js ". The text must be unique. Please provide more context to make it unique."
  else
    js "Found " ++ decimal occurrences ++ js " occurrences of edits[" ++ decimal editIndex
      ++ js "] in " ++ path
      ++ js ". Each oldText must be unique. Please provide more context to make it unique."

/-- `getEmptyOldTextError` -/
def getEmptyOldTextError (path : JsString) (editIndex totalEdits : Nat) : JsString :=
  if totalEdits = 1 then js "oldText must not be empty in " ++ path ++ js "."
  else js "edits[" ++ decimal editIndex ++ js "].oldText must not be empty in " ++ path ++ js "."

/-- `getNoChangeError` -/
def getNoChangeError (path : JsString) (totalEdits : Nat) : JsString :=
  if totalEdits = 1 then
    js "No changes made to " ++ path
      ++ js ". The replacement produced identical content. This might indicate an issue with special characters or the text not existing as expected."
  else js "No changes made to " ++ path ++ js ". The replacements produced identical content."

/-- The text of the error for two edits that overlap. -/
def getOverlapError (path : JsString) (previous current : Nat) : JsString :=
  js "edits[" ++ decimal previous ++ js "] and edits[" ++ decimal current ++ js "] overlap in "
    ++ path ++ js ". Merge them into one edit or target disjoint regions."

/-- `MatchedEdit` -/
structure MatchedEdit where
  editIndex : Nat
  replacement : TextReplacement
  deriving DecidableEq

/-- The body of the loop that matches the edits. -/
def matchEdit (nfkc : JsString → JsString) (path replacementBaseContent : JsString)
    (totalEdits : Nat) (i : Nat) (edit : Edit) : Except JsString MatchedEdit :=
  match fuzzyFindText nfkc replacementBaseContent edit.oldText with
  | none => .error (getNotFoundError path i totalEdits)
  | some matchResult =>
    let occurrences := countOccurrences nfkc replacementBaseContent edit.oldText
    if 1 < occurrences then .error (getDuplicateError path i totalEdits occurrences.toNat)
    else .ok ⟨i, ⟨matchResult.index, matchResult.matchLength, edit.newText⟩⟩

/-- The loop that looks for overlaps in the sorted edits. -/
def checkOverlaps (path : JsString) : List MatchedEdit → Except JsString Unit
  | previous :: current :: rest =>
    if current.replacement.matchIndex < previous.replacement.stop then
      .error (getOverlapError path previous.editIndex current.editIndex)
    else checkOverlaps path (current :: rest)
  | _ => .ok ()

/-- The edits with LF line endings. -/
def normalizeEdits (edits : List Edit) : List Edit :=
  edits.map fun edit => ⟨normalizeToLF edit.oldText, normalizeToLF edit.newText⟩

/-- The loop that refuses an empty `oldText`. -/
def checkEmpty (path : JsString) (edits : List Edit) : Except JsString Unit :=
  match edits.findIdx? fun edit => edit.oldText = [] with
  | some i => .error (getEmptyOldTextError path i edits.length)
  | none => .ok ()

/-- Some old text is only found in the normalized content. -/
def usedFuzzyMatch (nfkc : JsString → JsString) (content : JsString) (edits : List Edit) : Bool :=
  edits.any fun edit => (fuzzyFindText nfkc content edit.oldText).any (·.usedFuzzyMatch)

/-- What the edits are matched in: the content, or its normalized form. -/
def replacementBase (nfkc : JsString → JsString) (content : JsString) (edits : List Edit) :
    JsString :=
  if usedFuzzyMatch nfkc content edits then normalizeForFuzzyMatch nfkc content else content

/-- `(a, b) => a.matchIndex - b.matchIndex` -/
def editOrder (a b : MatchedEdit) : Bool := matchOrder a.replacement b.replacement

/-- The edits matched in `replacementBase`, sorted and without overlap. -/
def matchEdits (nfkc : JsString → JsString) (normalizedContent : JsString) (edits : List Edit)
    (path : JsString) : Except JsString (List MatchedEdit) := do
  checkEmpty path edits
  let matchedEdits ← (edits.zipIdx.mapM fun (edit, i) =>
    matchEdit nfkc path (replacementBase nfkc normalizedContent edits) edits.length i edit)
  let sorted := matchedEdits.mergeSort editOrder
  checkOverlaps path sorted
  pure sorted

/-- The new content for the sorted places. -/
def replacedContent (nfkc : JsString → JsString) (content : JsString) (edits : List Edit)
    (sorted : List TextReplacement) : Except JsString JsString :=
  if usedFuzzyMatch nfkc content edits then
    applyReplacementsPreservingUnchangedLines content (replacementBase nfkc content edits) sorted
  else pure (applyReplacements (replacementBase nfkc content edits) sorted 0)

/-- `applyEditsToNormalizedContent` -/
def applyEditsToNormalizedContent (nfkc : JsString → JsString) (normalizedContent : JsString)
    (edits : List Edit) (path : JsString) : Except JsString AppliedEditsResult := do
  let normalizedEdits := normalizeEdits edits
  let matchedEdits ← matchEdits nfkc normalizedContent normalizedEdits path
  let replacements := matchedEdits.map (·.replacement)
  let newContent ← replacedContent nfkc normalizedContent normalizedEdits replacements
  if normalizedContent = newContent then
    .error (getNoChangeError path normalizedEdits.length)
  else pure ⟨normalizedContent, newContent⟩

end PiMono.CodingAgent
