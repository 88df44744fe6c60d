import Mathlib.Data.List.GetD
import Mathlib.Data.List.Rotate
import PiMono.CodingAgent.Truncate
import PiMono.Lib.LineCursor
import PiMono.Tui.WordNavigation

/-!
# Kill and yank

`tui/src/kill-ring.ts` and the kill and yank operations of `tui/src/components/editor.ts`.
Kills that follow each other make one entry of the ring, a yank inserts the newest one, and
each yank-pop puts the next older one in its place. Undo snapshots and the history of prompts
are left out: none of these operations reads them.
-/

namespace PiMono.Tui

open CodingAgent (newline)

/-! ## The ring -/

namespace KillRing

/-- `push`: the newest entry is the last one. -/
def push (ring : List JsString) (text : JsString) (prepend accumulate : Bool) : List JsString :=
  if text = [] then ring
  else
    match ring.getLast? with
    | some last =>
      if accumulate then ring.dropLast ++ [if prepend then text ++ last else last ++ text]
      else ring ++ [text]
    | none => ring ++ [text]

/-- `peek` -/
def peek (ring : List JsString) : Option JsString := ring.getLast?

/-- `rotate` -/
def rotate (ring : List JsString) : List JsString :=
  if 1 < ring.length then ring.getLast?.toList ++ ring.dropLast else ring

end KillRing

/-! ## The editor -/

/-- `lastAction` -/
inductive LastAction where
  | kill
  | yank
  | typeWord
  deriving DecidableEq, Repr

/-- The editor, as far as kills and yanks read it. -/
structure Editor where
  lines : List JsString
  cursorLine : Nat
  cursorCol : Nat
  killRing : List JsString
  lastAction : Option LastAction
  validPasteIds : List Nat
  deriving DecidableEq

/-- The operations that kill. -/
inductive KillOp where
  | deleteToStartOfLine
  | deleteToEndOfLine
  | deleteWordBackwards
  | deleteWordForward
  deriving DecidableEq, Repr

/-- The operations that kill in front of the cursor. -/
def KillOp.prepends : KillOp → Bool
  | .deleteToStartOfLine | .deleteWordBackwards => true
  | .deleteToEndOfLine | .deleteWordForward => false

namespace Editor

/-- `getText` -/
def getText (e : Editor) : JsString := CodingAgent.joinLines e.lines

/-- `this.state.lines[this.state.cursorLine] || ""` -/
def currentLine (e : Editor) : JsString := e.lines.getD e.cursorLine []

/-- What every kill does first. -/
def pushKill (e : Editor) (text : JsString) (prepend : Bool) : Editor :=
  { e with
    killRing := KillRing.push e.killRing text prepend (e.lastAction = some .kill)
    lastAction := some .kill }

/-- The line is merged with the previous one. -/
def mergePrevious (e : Editor) : Editor :=
  let previousLine := e.lines.getD (e.cursorLine - 1) []
  { e with
    lines := (e.lines.set (e.cursorLine - 1) (previousLine ++ e.currentLine)).eraseIdx e.cursorLine
    cursorLine := e.cursorLine - 1
    cursorCol := previousLine.length }

/-- The line is merged with the next one. -/
def mergeNext (e : Editor) : Editor :=
  let nextLine := e.lines.getD (e.cursorLine + 1) []
  { e with
    lines := (e.lines.set e.cursorLine (e.currentLine ++ nextLine)).eraseIdx (e.cursorLine + 1) }

/-- `deleteToStartOfLine` -/
def deleteToStartOfLine (e : Editor) : Editor :=
  if 0 < e.cursorCol then
    { e.pushKill (e.currentLine.take e.cursorCol) true with
      lines := e.lines.set e.cursorLine (e.currentLine.drop e.cursorCol)
      cursorCol := 0 }
  else if 0 < e.cursorLine then (e.pushKill [newline] true).mergePrevious
  else e

/-- `deleteToEndOfLine` -/
def deleteToEndOfLine (e : Editor) : Editor :=
  if e.cursorCol < e.currentLine.length then
    { e.pushKill (e.currentLine.drop e.cursorCol) false with
      lines := e.lines.set e.cursorLine (e.currentLine.take e.cursorCol) }
  else if e.cursorLine < e.lines.length - 1 then (e.pushKill [newline] false).mergeNext
  else e

section Words

variable (wordSegments : JsString → List WordSegment)

/-- Where `moveWordBackwards` goes within the line. -/
def wordStart (e : Editor) : Nat :=
  findWordBackward wordSegments e.validPasteIds e.currentLine e.cursorCol

/-- Where `moveWordForwards` goes within the line. -/
def wordEnd (e : Editor) : Nat :=
  findWordForward wordSegments e.validPasteIds e.currentLine e.cursorCol

/-- `deleteWordBackwards` -/
def deleteWordBackwards (e : Editor) : Editor :=
  if e.cursorCol = 0 then
    if 0 < e.cursorLine then (e.pushKill [newline] true).mergePrevious else e
  else
    let deleteFrom := e.wordStart wordSegments
    { e.pushKill ((e.currentLine.take e.cursorCol).drop deleteFrom) true with
      lines := e.lines.set e.cursorLine
        (e.currentLine.take deleteFrom ++ e.currentLine.drop e.cursorCol)
      cursorCol := deleteFrom }

/-- `deleteWordForward` -/
def deleteWordForward (e : Editor) : Editor :=
  if e.currentLine.length ≤ e.cursorCol then
    if e.cursorLine < e.lines.length - 1 then (e.pushKill [newline] false).mergeNext else e
  else
    let deleteTo := e.wordEnd wordSegments
    { e.pushKill ((e.currentLine.take deleteTo).drop e.cursorCol) false with
      lines := e.lines.set e.cursorLine
        (e.currentLine.take e.cursorCol ++ e.currentLine.drop deleteTo) }

/-- One kill. -/
def kill (e : Editor) : KillOp → Editor
  | .deleteToStartOfLine => e.deleteToStartOfLine
  | .deleteToEndOfLine => e.deleteToEndOfLine
  | .deleteWordBackwards => e.deleteWordBackwards wordSegments
  | .deleteWordForward => e.deleteWordForward wordSegments

/-- A run of kills. -/
def kills (e : Editor) (ops : List KillOp) : Editor := ops.foldl (kill wordSegments) e

end Words

/-- The splices of the middle lines, the first one at `index`. -/
def spliceLines (index : Nat) (lines : List JsString) : List JsString → List JsString
  | [] => lines
  | line :: more => spliceLines (index + 1) (lines.insertIdx index line) more

/-- `insertYankedText` -/
def insertYankedText (e : Editor) (text : JsString) : Editor :=
  let lines := text.splitOn newline
  let before := e.currentLine.take e.cursorCol
  let after := e.currentLine.drop e.cursorCol
  if lines.length = 1 then
    { e with
      lines := e.lines.set e.cursorLine (before ++ text ++ after)
      cursorCol := e.cursorCol + text.length }
  else
    let first := e.lines.set e.cursorLine (before ++ lines.headD [])
    let middle := spliceLines (e.cursorLine + 1) first lines.tail.dropLast
    let lastLineIndex := e.cursorLine + lines.length - 1
    { e with
      lines := middle.insertIdx lastLineIndex (lines.getLastD [] ++ after)
      cursorLine := lastLineIndex
      cursorCol := (lines.getLastD []).length }

/-- `deleteYankedText` -/
def deleteYankedText (e : Editor) : Editor :=
  match KillRing.peek e.killRing with
  | none => e
  | some yankedText =>
    if yankedText = [] then e
    else
      let yankLines := yankedText.splitOn newline
      let after := e.currentLine.drop e.cursorCol
      if yankLines.length = 1 then
        { e with
          lines := e.lines.set e.cursorLine
            (e.currentLine.take (e.cursorCol - yankedText.length) ++ after)
          cursorCol := e.cursorCol - yankedText.length }
      else
        let startLine := e.cursorLine - (yankLines.length - 1)
        let startCol := (e.lines.getD startLine []).length - (yankLines.headD []).length
        let beforeYank := (e.lines.getD startLine []).take startCol
        { e with
          lines := e.lines.take startLine
            ++ (beforeYank ++ after) :: e.lines.drop (startLine + yankLines.length)
          cursorLine := startLine
          cursorCol := startCol }

/-- `yank` -/
def yank (e : Editor) : Editor :=
  match KillRing.peek e.killRing with
  | none => e
  | some text => { e.insertYankedText text with lastAction := some .yank }

/-- `yankPop` -/
def yankPop (e : Editor) : Editor :=
  if e.lastAction ≠ some .yank ∨ e.killRing.length ≤ 1 then e
  else
    let deleted := e.deleteYankedText
    let rotated := { deleted with killRing := KillRing.rotate deleted.killRing }
    let inserted := rotated.insertYankedText ((KillRing.peek rotated.killRing).getD [])
    { inserted with lastAction := some .yank }

/-! ## The cursor in the text -/

/-- The buffer and the cursor of the editor. -/
structure At (e : Editor) (c : LineCursor UInt16) : Prop where
  lines_eq : e.lines = c.lines
  cursorLine_eq : e.cursorLine = c.above.length
  cursorCol_eq : e.cursorCol = c.left.length

/-- The buffer cut at the cursor. -/
def cursor (e : Editor) : LineCursor UInt16 where
  above := e.lines.take e.cursorLine
  left := e.currentLine.take e.cursorCol
  right := e.currentLine.drop e.cursorCol
  below := e.lines.drop (e.cursorLine + 1)

/-- The text in front of the cursor. -/
def before (e : Editor) : JsString := e.cursor.before newline

/-- The text behind the cursor. -/
def after (e : Editor) : JsString := e.cursor.after newline

/-- The cursor is in the buffer, and the ring has no empty entry. -/
structure Valid (e : Editor) : Prop where
  line_lt : e.cursorLine < e.lines.length
  col_le : e.cursorCol ≤ e.currentLine.length
  entries : ∀ entry ∈ e.killRing, entry ≠ []

namespace At

variable {e : Editor} {c : LineCursor UInt16}

theorem getD_above (h : At e c) (k : Nat) :
    e.lines.getD (e.cursorLine + k) [] = ((c.left ++ c.right) :: c.below).getD k [] := by
  rw [h.lines_eq, h.cursorLine_eq, LineCursor.lines, List.getD_append_right _ _ _ _ (by omega),
    Nat.add_sub_cancel_left]

theorem currentLine_eq (h : At e c) : e.currentLine = c.left ++ c.right := by
  have := h.getD_above 0
  exact this

@[simp] theorem take_currentLine (h : At e c) : e.currentLine.take e.cursorCol = c.left := by
  rw [h.currentLine_eq, h.cursorCol_eq, List.take_left]

@[simp] theorem drop_currentLine (h : At e c) : e.currentLine.drop e.cursorCol = c.right := by
  rw [h.currentLine_eq, h.cursorCol_eq, List.drop_left]

theorem set_lines (h : At e c) (line : JsString) :
    e.lines.set e.cursorLine line = c.above ++ line :: c.below := by
  rw [h.lines_eq, h.cursorLine_eq, LineCursor.lines, List.set_append_right _ _ (Nat.le_refl _),
    Nat.sub_self]
  rfl

theorem cursor_eq (h : At e c) : e.cursor = c := by
  have habove : e.lines.take e.cursorLine = c.above := by
    rw [h.lines_eq, h.cursorLine_eq, LineCursor.lines, List.take_left]
  have hbelow : e.lines.drop (e.cursorLine + 1) = c.below := by
    rw [h.lines_eq, h.cursorLine_eq, LineCursor.lines, ← List.drop_drop, List.drop_left]
    rfl
  cases c with
  | mk above left right below =>
    simp only [cursor, habove, hbelow, h.take_currentLine, h.drop_currentLine]

theorem before_eq (h : At e c) : e.before = c.before newline := by rw [before, h.cursor_eq]

theorem after_eq (h : At e c) : e.after = c.after newline := by rw [after, h.cursor_eq]

theorem getText_eq (h : At e c) : e.getText = e.before ++ e.after := by
  rw [h.before_eq, h.after_eq, ← LineCursor.intercalate_lines, getText, h.lines_eq]
  rfl

/-- Only the buffer and the cursor matter. -/
theorem congr (h : At e c) {e' : Editor} (hlines : e'.lines = e.lines)
    (hline : e'.cursorLine = e.cursorLine) (hcol : e'.cursorCol = e.cursorCol) : At e' c :=
  ⟨hlines.trans h.lines_eq, hline.trans h.cursorLine_eq, hcol.trans h.cursorCol_eq⟩

theorem valid (h : At e c) (hentries : ∀ entry ∈ e.killRing, entry ≠ []) : e.Valid := by
  refine ⟨?_, ?_, hentries⟩
  · rw [h.lines_eq, h.cursorLine_eq, LineCursor.lines, List.length_append, List.length_cons]
    omega
  · rw [h.currentLine_eq, h.cursorCol_eq, List.length_append]
    exact Nat.le_add_right _ _

end At

/-- A valid editor is at its cursor. -/
theorem Valid.at_cursor {e : Editor} (h : e.Valid) : At e e.cursor := by
  have hlt := h.line_lt
  have hline : e.lines[e.cursorLine] = e.currentLine := by
    rw [currentLine, List.getD_eq_getElem _ _ hlt]
  refine ⟨?_, ?_, ?_⟩
  · show e.lines = e.lines.take e.cursorLine ++ (e.currentLine.take e.cursorCol
        ++ e.currentLine.drop e.cursorCol) :: e.lines.drop (e.cursorLine + 1)
    rw [List.take_append_drop, ← hline, ← List.drop_eq_getElem_cons, List.take_append_drop]
  · show e.cursorLine = (e.lines.take e.cursorLine).length
    rw [List.length_take, Nat.min_eq_left (Nat.le_of_lt h.line_lt)]
  · show e.cursorCol = (e.currentLine.take e.cursorCol).length
    rw [List.length_take, Nat.min_eq_left h.col_le]

/-! ## One kill -/

/-- From `e` to `e'` a text in front of the cursor is removed, or one behind it. -/
structure Killed (e : Editor) (text : JsString) (prepend : Bool) (e' : Editor) : Prop where
  valid : e'.Valid
  killRing : e'.killRing = KillRing.push e.killRing text prepend (e.lastAction = some .kill)
  lastAction : e'.lastAction = some .kill
  before : e.before = e'.before ++ if prepend then text else []
  after : e.after = (if prepend then [] else text) ++ e'.after

theorem push_entries {ring : List JsString} (h : ∀ entry ∈ ring, entry ≠ []) (text : JsString)
    (prepend accumulate : Bool) : ∀ entry ∈ KillRing.push ring text prepend accumulate,
      entry ≠ [] := by
  unfold KillRing.push
  by_cases htext : text = []
  · rw [if_pos htext]
    exact h
  · rw [if_neg htext]
    have hnew : ∀ entry ∈ ring ++ [text], entry ≠ [] := by
      intro entry hentry
      rcases List.mem_append.mp hentry with hentry | hentry
      · exact h entry hentry
      · rw [List.mem_singleton.mp hentry]
        exact htext
    cases hlast : ring.getLast? with
    | none => exact hnew
    | some last =>
      show ∀ entry ∈ if accumulate = true then _ else _, entry ≠ []
      cases accumulate with
      | false => exact hnew
      | true =>
        intro entry hentry
        rcases List.mem_append.mp hentry with hentry | hentry
        · exact h entry (List.mem_of_mem_dropLast hentry)
        · rw [List.mem_singleton.mp hentry]
          cases prepend <;> simp [htext]

/-- A kill that leaves the editor at `c'`. -/
theorem Killed.of_at {e e' : Editor} {c c' : LineCursor UInt16} {text : JsString} {prepend : Bool}
    (hvalid : e.Valid) (h : At e c) (h' : At e' c')
    (hring : e'.killRing = KillRing.push e.killRing text prepend (e.lastAction = some .kill))
    (haction : e'.lastAction = some .kill)
    (hbefore : c.before newline = c'.before newline ++ if prepend then text else [])
    (hafter : c.after newline = (if prepend then [] else text) ++ c'.after newline) :
    Killed e text prepend e' := by
  refine ⟨h'.valid ?_, hring, haction, ?_, ?_⟩
  · rw [hring]
    exact push_entries hvalid.entries text prepend _
  · rw [h.before_eq, h'.before_eq]
    exact hbefore
  · rw [h.after_eq, h'.after_eq]
    exact hafter

/-- A line merged with the one above. -/
theorem At.mergePrevious {e : Editor} {above below : List JsString} {previous right : JsString}
    (h : At e ⟨above ++ [previous], [], right, below⟩) :
    At e.mergePrevious ⟨above, previous, right, below⟩ := by
  have hline : e.cursorLine = above.length + 1 := by
    rw [h.cursorLine_eq, List.length_append, List.length_singleton]
  have hlines : e.lines = above ++ previous :: right :: below := by
    rw [h.lines_eq]
    exact List.append_assoc above [previous] _
  have hprevious : e.lines.getD (e.cursorLine - 1) [] = previous := by
    rw [hlines, hline, Nat.add_sub_cancel, List.getD_append_right _ _ _ _ (Nat.le_refl _),
      Nat.sub_self]
    rfl
  have hset : e.lines.set (e.cursorLine - 1) (previous ++ right)
      = above ++ (previous ++ right) :: right :: below := by
    rw [hlines, hline, Nat.add_sub_cancel, List.set_append_right _ _ (Nat.le_refl _), Nat.sub_self]
    rfl
  refine ⟨?_, ?_, ?_⟩
  · show ((e.lines.set (e.cursorLine - 1) (e.lines.getD (e.cursorLine - 1) [] ++ e.currentLine))
      |>.eraseIdx e.cursorLine) = above ++ (previous ++ right) :: below
    rw [hprevious, h.currentLine_eq, List.nil_append, hset, hline,
      List.eraseIdx_append_of_length_le (Nat.le_add_right _ 1), Nat.add_sub_cancel_left]
    rfl
  · show e.cursorLine - 1 = above.length
    rw [hline, Nat.add_sub_cancel]
  · show (e.lines.getD (e.cursorLine - 1) []).length = previous.length
    rw [hprevious]

/-- A line merged with the one below. -/
theorem At.mergeNext {e : Editor} {above below : List JsString} {left next : JsString}
    (h : At e ⟨above, left, [], next :: below⟩) : At e.mergeNext ⟨above, left, next, below⟩ := by
  have hnext : e.lines.getD (e.cursorLine + 1) [] = next := h.getD_above 1
  refine ⟨?_, h.cursorLine_eq, h.cursorCol_eq⟩
  show ((e.lines.set e.cursorLine (e.currentLine ++ e.lines.getD (e.cursorLine + 1) []))
    |>.eraseIdx (e.cursorLine + 1)) = above ++ (left ++ next) :: below
  rw [hnext, h.set_lines, h.currentLine_eq, h.cursorLine_eq, List.append_nil,
    List.eraseIdx_append_of_length_le (Nat.le_add_right _ 1), Nat.add_sub_cancel_left]
  rfl

theorem At.pushKill {e : Editor} {c : LineCursor UInt16} (h : At e c) (text : JsString)
    (prepend : Bool) : At (e.pushKill text prepend) c := h.congr rfl rfl rfl

/-- The line feed in front of a line is killed. -/
theorem killed_mergePrevious {e : Editor} (hvalid : e.Valid) (hcol : e.cursorCol = 0)
    (hline : 0 < e.cursorLine) :
    Killed e [newline] true (e.pushKill [newline] true).mergePrevious := by
  have h := hvalid.at_cursor
  generalize e.cursor = c at h
  obtain ⟨above, left, right, below⟩ := c
  obtain rfl : left = [] := List.eq_nil_of_length_eq_zero (h.cursorCol_eq.symm.trans hcol)
  rcases List.eq_nil_or_concat above with rfl | ⟨above, previous, rfl⟩
  · exact absurd h.cursorLine_eq (Nat.ne_of_gt hline)
  · rw [List.concat_eq_append] at h
    refine Killed.of_at hvalid h (h.pushKill [newline] true).mergePrevious rfl rfl ?_ rfl
    simp only [LineCursor.before, List.flatMap_append, List.flatMap_singleton, List.append_nil,
      if_true, List.append_assoc]

/-- The line feed behind a line is killed. -/
theorem killed_mergeNext {e : Editor} (hvalid : e.Valid) (hcol : e.currentLine.length ≤ e.cursorCol)
    (hline : e.cursorLine < e.lines.length - 1) :
    Killed e [newline] false (e.pushKill [newline] false).mergeNext := by
  have h := hvalid.at_cursor
  generalize e.cursor = c at h
  obtain ⟨above, left, right, below⟩ := c
  obtain rfl : right = [] := by
    rw [h.currentLine_eq, h.cursorCol_eq, List.length_append] at hcol
    have hlen : left.length + right.length ≤ left.length := hcol
    exact List.eq_nil_of_length_eq_zero (by omega)
  cases below with
  | nil =>
    have hlen : e.lines.length = above.length + 1 := by
      rw [h.lines_eq, LineCursor.lines, List.length_append]
      rfl
    have habove : e.cursorLine = above.length := h.cursorLine_eq
    omega
  | cons next below =>
    refine Killed.of_at hvalid h (h.pushKill [newline] false).mergeNext rfl rfl ?_ ?_
    · exact (List.append_nil _).symm
    · simp [LineCursor.after]

/-- What stands between two places of the line, in front of the cursor, is killed. -/
theorem killed_backward {e : Editor} (hvalid : e.Valid) {deleteFrom : Nat}
    (hle : deleteFrom ≤ e.cursorCol) :
    Killed e ((e.currentLine.take e.cursorCol).drop deleteFrom) true
      { e.pushKill ((e.currentLine.take e.cursorCol).drop deleteFrom) true with
        lines := e.lines.set e.cursorLine
          (e.currentLine.take deleteFrom ++ e.currentLine.drop e.cursorCol)
        cursorCol := deleteFrom } := by
  have h := hvalid.at_cursor
  generalize e.cursor = c at h
  have htake : e.currentLine.take deleteFrom = c.left.take deleteFrom := by
    rw [← h.take_currentLine, List.take_take, Nat.min_eq_left hle]
  have hat : At { e.pushKill ((e.currentLine.take e.cursorCol).drop deleteFrom) true with
        lines := e.lines.set e.cursorLine
          (e.currentLine.take deleteFrom ++ e.currentLine.drop e.cursorCol)
        cursorCol := deleteFrom } { c with left := c.left.take deleteFrom } := by
    refine ⟨?_, h.cursorLine_eq, ?_⟩
    · show e.lines.set e.cursorLine _ = _
      rw [h.set_lines, htake, h.drop_currentLine]
      rfl
    · show deleteFrom = (c.left.take deleteFrom).length
      rw [List.length_take, ← h.cursorCol_eq, Nat.min_eq_left hle]
  refine Killed.of_at hvalid h hat rfl rfl ?_ rfl
  rw [h.take_currentLine]
  show _ ++ c.left = (_ ++ c.left.take deleteFrom) ++ c.left.drop deleteFrom
  rw [List.append_assoc, List.take_append_drop]

/-- What stands behind the cursor, up to a place of the line, is killed. -/
theorem killed_forward {e : Editor} (hvalid : e.Valid) {deleteTo : Nat}
    (hle : e.cursorCol ≤ deleteTo) :
    Killed e ((e.currentLine.take deleteTo).drop e.cursorCol) false
      { e.pushKill ((e.currentLine.take deleteTo).drop e.cursorCol) false with
        lines := e.lines.set e.cursorLine
          (e.currentLine.take e.cursorCol ++ e.currentLine.drop deleteTo) } := by
  have h := hvalid.at_cursor
  generalize e.cursor = c at h
  obtain ⟨k, rfl⟩ := Nat.exists_eq_add_of_le hle
  have hdrop : e.currentLine.drop (e.cursorCol + k) = c.right.drop k := by
    rw [← h.drop_currentLine, List.drop_drop]
  have hkilled : (e.currentLine.take (e.cursorCol + k)).drop e.cursorCol = c.right.take k := by
    rw [List.drop_take, Nat.add_sub_cancel_left, h.drop_currentLine]
  rw [hkilled, hdrop, h.take_currentLine]
  have hat : At { e.pushKill (c.right.take k) false with
      lines := e.lines.set e.cursorLine (c.left ++ c.right.drop k) }
      { c with right := c.right.drop k } := by
    refine ⟨?_, h.cursorLine_eq, h.cursorCol_eq⟩
    show e.lines.set e.cursorLine _ = _
    rw [h.set_lines]
    rfl
  refine Killed.of_at hvalid h hat rfl rfl (List.append_nil _).symm ?_
  · show c.right ++ _ = c.right.take k ++ (c.right.drop k ++ _)
    rw [← List.append_assoc, List.take_append_drop]

/-! ## Yanks -/

theorem insertIdx_length (xs ys : List JsString) (line : JsString) :
    (xs ++ ys).insertIdx xs.length line = xs ++ line :: ys := by
  induction xs with
  | nil => rfl
  | cons x xs ih => exact congrArg (x :: ·) ih

/-- The splices put the lines in, one behind the other. -/
theorem spliceLines_append (xs ys more : List JsString) :
    spliceLines xs.length (xs ++ ys) more = xs ++ (more ++ ys) := by
  induction more generalizing xs with
  | nil => rfl
  | cons line more ih =>
    have hnext := ih (xs ++ [line])
    rw [List.length_append, List.length_singleton, List.append_assoc, List.append_assoc] at hnext
    rw [spliceLines, insertIdx_length]
    exact hnext

/-- `insertYankedText` inserts at the cursor. -/
theorem At.insertYankedText {e : Editor} {c : LineCursor UInt16} (h : At e c) (text : JsString) :
    At (e.insertYankedText text) (c.insert newline text) := by
  unfold Editor.insertYankedText LineCursor.insert
  rw [h.take_currentLine, h.drop_currentLine]
  cases hsplit : text.splitOn newline with
  | nil => exact absurd hsplit (List.splitOn_ne_nil newline text)
  | cons first rest =>
    cases rest with
    | nil =>
      refine ⟨?_, h.cursorLine_eq, ?_⟩
      · exact h.set_lines _
      · show e.cursorCol + text.length = (c.left ++ text).length
        rw [h.cursorCol_eq, List.length_append]
    | cons second rest =>
      obtain ⟨mids, hmids⟩ : ∃ mids, mids = (second :: rest).dropLast := ⟨_, rfl⟩
      obtain ⟨last, hlast⟩ : ∃ last, last = (second :: rest).getLast (List.cons_ne_nil _ _) :=
        ⟨_, rfl⟩
      have hlen : (first :: second :: rest).length = mids.length + 2 := by
        rw [hmids, List.length_dropLast]
        rfl
      have hlastD : (first :: second :: rest).getLastD [] = last := by
        rw [hlast, List.getLastD_cons, List.getLastD_cons]
        exact (List.getLast_eq_getLastD _).symm
      have hindex : e.cursorLine + (mids.length + 2) - 1
          = (c.above ++ (c.left ++ first) :: mids).length := by
        rw [h.cursorLine_eq, List.length_append, List.length_cons]
        omega
      have hmiddle : spliceLines (e.cursorLine + 1) (c.above ++ (c.left ++ first) :: c.below) mids
          = (c.above ++ (c.left ++ first) :: mids) ++ c.below := by
        have hsplice := spliceLines_append (c.above ++ [c.left ++ first]) c.below mids
        rw [List.length_append, List.length_singleton, ← h.cursorLine_eq] at hsplice
        simpa using hsplice
      simp only [List.tail_cons, List.headD_cons, ← hmids, hlastD, hlen,
        h.set_lines, hmiddle, hindex, insertIdx_length, ← hlast]
      exact ⟨rfl, rfl, rfl⟩

/-- `deleteYankedText` takes out again what was inserted. -/
theorem At.deleteYankedText {e : Editor} {c : LineCursor UInt16} {text : JsString}
    (h : At e (c.insert newline text)) (hpeek : KillRing.peek e.killRing = some text)
    (htext : text ≠ []) : At e.deleteYankedText c := by
  unfold Editor.deleteYankedText
  rw [h.drop_currentLine]
  simp only [hpeek, if_neg htext]
  cases hsplit : text.splitOn newline with
  | nil => exact absurd hsplit (List.splitOn_ne_nil newline text)
  | cons first rest =>
    cases rest with
    | nil =>
      have hinsert : c.insert newline text = { c with left := c.left ++ text } := by
        simp only [LineCursor.insert, hsplit]
      rw [hinsert] at h ⊢
      have hcol : e.cursorCol - text.length = c.left.length := by
        rw [h.cursorCol_eq, List.length_append, Nat.add_sub_cancel]
      refine ⟨?_, h.cursorLine_eq, hcol⟩
      show e.lines.set e.cursorLine
        (e.currentLine.take (e.cursorCol - text.length) ++ c.right) = _
      rw [h.set_lines, hcol, h.currentLine_eq, List.append_assoc, List.take_left]
      rfl
    | cons second rest =>
      obtain ⟨mids, hmids⟩ : ∃ mids, mids = (second :: rest).dropLast := ⟨_, rfl⟩
      obtain ⟨last, hlast⟩ : ∃ last, last = (second :: rest).getLast (List.cons_ne_nil _ _) :=
        ⟨_, rfl⟩
      have hlen : (first :: second :: rest).length = mids.length + 2 := by
        rw [hmids, List.length_dropLast]
        rfl
      have hone : ¬ (first :: second :: rest).length = 1 := by rw [hlen]; omega
      have hinsert : c.insert newline text
          = ⟨c.above ++ (c.left ++ first) :: mids, last, c.right, c.below⟩ := by
        simp only [LineCursor.insert, hsplit, hmids, hlast]
      rw [hinsert] at h ⊢
      have hstart : e.cursorLine - ((first :: second :: rest).length - 1) = c.above.length := by
        rw [h.cursorLine_eq, hlen, List.length_append, List.length_cons]
        omega
      have hlines : e.lines
          = c.above ++ (c.left ++ first) :: (mids ++ (last ++ c.right) :: c.below) := by
        rw [h.lines_eq]
        exact List.append_assoc _ _ _
      have hline : e.lines.getD c.above.length [] = c.left ++ first := by
        rw [hlines, List.getD_append_right _ _ _ _ (Nat.le_refl _), Nat.sub_self]
        rfl
      have hdrop : e.lines.drop (c.above.length + (first :: second :: rest).length) = c.below := by
        rw [hlines, hlen, ← List.drop_drop, List.drop_left]
        show (mids ++ (last ++ c.right) :: c.below).drop (mids.length + 1) = _
        rw [← List.drop_drop, List.drop_left]
        rfl
      have hcol : (c.left ++ first).length - first.length = c.left.length := by
        rw [List.length_append, Nat.add_sub_cancel]
      have htake : e.lines.take c.above.length = c.above := by rw [hlines, List.take_left]
      simp only [hone, if_false, hstart, hline, List.headD_cons, hcol, hdrop, htake,
        List.take_left]
      exact ⟨rfl, rfl, rfl⟩

/-- A yank inserts the newest entry. -/
theorem yank_halves {e : Editor} (hvalid : e.Valid) {text : JsString}
    (h : KillRing.peek e.killRing = some text) :
    e.yank.before = e.before ++ text ∧ e.yank.after = e.after ∧ e.yank.Valid := by
  have hat := hvalid.at_cursor.insertYankedText text
  have hyank : e.yank = { e.insertYankedText text with lastAction := some .yank } := by
    rw [yank, h]
  have hat' : At e.yank (e.cursor.insert newline text) := by
    rw [hyank]
    exact hat.congr rfl rfl rfl
  refine ⟨?_, ?_, hat'.valid ?_⟩
  · rw [hat'.before_eq, LineCursor.before_insert]
    rfl
  · rw [hat'.after_eq, LineCursor.after_insert]
    rfl
  · have hring : e.yank.killRing = e.killRing := by
      rw [hyank]
      show (e.insertYankedText text).killRing = e.killRing
      unfold insertYankedText
      simp only
      split <;> rfl
    rw [hring]
    exact hvalid.entries

/-! ## Kills -/

section Words

variable (wordSegments : JsString → List WordSegment)

/-- There is nothing to kill on that side of the cursor. -/
def AtEnd (e : Editor) : KillOp → Prop
  | .deleteToStartOfLine | .deleteWordBackwards => e.cursorCol = 0 ∧ e.cursorLine = 0
  | .deleteToEndOfLine | .deleteWordForward =>
    e.currentLine.length ≤ e.cursorCol ∧ e.lines.length ≤ e.cursorLine + 1

instance (e : Editor) (op : KillOp) : Decidable (e.AtEnd op) := by
  cases op <;> exact inferInstanceAs (Decidable (_ ∧ _))

/-- The word to be killed is found where the cursor is. -/
def EmptyWord (e : Editor) : KillOp → Prop
  | .deleteToStartOfLine | .deleteToEndOfLine => False
  | .deleteWordBackwards => 0 < e.cursorCol ∧ e.wordStart wordSegments = e.cursorCol
  | .deleteWordForward =>
    e.cursorCol < e.currentLine.length ∧ e.wordEnd wordSegments = e.cursorCol

instance (e : Editor) (op : KillOp) : Decidable (e.EmptyWord wordSegments op) := by
  cases op with
  | deleteToStartOfLine => exact inferInstanceAs (Decidable False)
  | deleteToEndOfLine => exact inferInstanceAs (Decidable False)
  | deleteWordBackwards => exact inferInstanceAs (Decidable (_ ∧ _))
  | deleteWordForward => exact inferInstanceAs (Decidable (_ ∧ _))

theorem kill_atEnd {e : Editor} {op : KillOp} (h : e.AtEnd op) : e.kill wordSegments op = e := by
  cases op with
  | deleteToStartOfLine =>
    show e.deleteToStartOfLine = e
    rw [deleteToStartOfLine, if_neg (by rw [h.1]; exact Nat.lt_irrefl 0),
      if_neg (by rw [h.2]; exact Nat.lt_irrefl 0)]
  | deleteToEndOfLine =>
    show e.deleteToEndOfLine = e
    rw [deleteToEndOfLine, if_neg (Nat.not_lt_of_le h.1),
      if_neg (by have := h.2; omega)]
  | deleteWordBackwards =>
    show e.deleteWordBackwards wordSegments = e
    rw [deleteWordBackwards, if_pos h.1, if_neg (by rw [h.2]; exact Nat.lt_irrefl 0)]
  | deleteWordForward =>
    show e.deleteWordForward wordSegments = e
    rw [deleteWordForward, if_pos h.1, if_neg (by have := h.2; omega)]

/-- **One kill.** Away from the end it removes some text, or none where it finds an empty
word; in both cases the flag is set. -/
theorem kill_killed {e : Editor} (hvalid : e.Valid) {op : KillOp} (h : ¬ e.AtEnd op) :
    ∃ text, Killed e text op.prepends (e.kill wordSegments op) ∧
      (text = [] ↔ e.EmptyWord wordSegments op) := by
  have hnewline : ([newline] : JsString) ≠ [] := List.cons_ne_nil _ _
  cases op with
  | deleteToStartOfLine =>
    show ∃ text, Killed e text true e.deleteToStartOfLine ∧ (text = [] ↔ False)
    rw [deleteToStartOfLine]
    by_cases hcol : 0 < e.cursorCol
    · have hkilled := killed_backward hvalid (Nat.zero_le e.cursorCol)
      rw [if_pos hcol]
      refine ⟨_, hkilled, iff_of_false ?_ not_false⟩
      refine List.ne_nil_of_length_pos ?_
      rw [List.drop_zero, List.length_take, Nat.min_eq_left hvalid.col_le]
      exact hcol
    · have hcol : e.cursorCol = 0 := Nat.eq_zero_of_not_pos hcol
      have hline : 0 < e.cursorLine := Nat.pos_of_ne_zero fun hline => h ⟨hcol, hline⟩
      rw [if_neg (by omega), if_pos hline]
      exact ⟨_, killed_mergePrevious hvalid hcol hline, iff_of_false hnewline not_false⟩
  | deleteToEndOfLine =>
    show ∃ text, Killed e text false e.deleteToEndOfLine ∧ (text = [] ↔ False)
    rw [deleteToEndOfLine]
    by_cases hcol : e.cursorCol < e.currentLine.length
    · have hkilled := killed_forward hvalid (Nat.le_of_lt hcol)
      rw [List.take_length, List.drop_length, List.append_nil] at hkilled
      rw [if_pos hcol]
      refine ⟨_, hkilled, iff_of_false ?_ not_false⟩
      refine List.ne_nil_of_length_pos ?_
      rw [List.length_drop]
      omega
    · have hline : e.cursorLine < e.lines.length - 1 := by
        by_contra hline
        exact h ⟨Nat.le_of_not_lt hcol, by omega⟩
      rw [if_neg hcol, if_pos hline]
      exact ⟨_, killed_mergeNext hvalid (Nat.le_of_not_lt hcol) hline,
        iff_of_false hnewline not_false⟩
  | deleteWordBackwards =>
    show ∃ text, Killed e text true (e.deleteWordBackwards wordSegments) ∧ (text = [] ↔ _ ∧ _)
    rw [deleteWordBackwards]
    by_cases hcol : e.cursorCol = 0
    · have hline : 0 < e.cursorLine := Nat.pos_of_ne_zero fun hline => h ⟨hcol, hline⟩
      rw [if_pos hcol, if_pos hline]
      exact ⟨_, killed_mergePrevious hvalid hcol hline,
        iff_of_false hnewline fun hword => Nat.ne_of_gt hword.1 hcol⟩
    · have hle : e.wordStart wordSegments ≤ e.cursorCol := Nat.sub_le _ _
      rw [if_neg hcol]
      refine ⟨_, killed_backward hvalid hle, ?_⟩
      rw [← List.length_eq_zero_iff, List.length_drop, List.length_take,
        Nat.min_eq_left hvalid.col_le]
      omega
  | deleteWordForward =>
    show ∃ text, Killed e text false (e.deleteWordForward wordSegments) ∧ (text = [] ↔ _ ∧ _)
    rw [deleteWordForward]
    by_cases hcol : e.currentLine.length ≤ e.cursorCol
    · have hline : e.cursorLine < e.lines.length - 1 := by
        by_contra hline
        exact h ⟨hcol, by omega⟩
      rw [if_pos hcol, if_pos hline]
      exact ⟨_, killed_mergeNext hvalid hcol hline,
        iff_of_false hnewline fun hword => Nat.not_lt_of_le hcol hword.1⟩
    · have hle : e.cursorCol ≤ e.wordEnd wordSegments := by
        rw [wordEnd, findWordForward, if_neg hcol]
        exact Nat.le_add_right _ _
      rw [if_neg hcol]
      refine ⟨_, killed_forward hvalid hle, ?_⟩
      rw [← List.length_eq_zero_iff, List.length_drop, List.length_take]
      omega

/-! ## A run of kills -/

/-- From `e` to `e'` the text around the cursor is removed. -/
def Removed (e e' : Editor) (back fwd : JsString) : Prop :=
  e.before = e'.before ++ back ∧ e.after = fwd ++ e'.after

/-- Behind a kill, the whole run goes into the newest entry. -/
theorem kills_accumulate (ops : List KillOp) {e : Editor} {older : List JsString}
    {newest : JsString} (hvalid : e.Valid) (haction : e.lastAction = some .kill)
    (hring : e.killRing = older ++ [newest]) :
    ∃ back fwd, Removed e (e.kills wordSegments ops) back fwd ∧
      (e.kills wordSegments ops).killRing = older ++ [back ++ newest ++ fwd] ∧
      (e.kills wordSegments ops).Valid := by
  induction ops generalizing e newest with
  | nil =>
    refine ⟨[], [], ⟨(List.append_nil _).symm, rfl⟩, ?_, hvalid⟩
    rw [List.nil_append, List.append_nil]
    exact hring
  | cons op ops ih =>
    show ∃ back fwd, Removed e ((e.kill wordSegments op).kills wordSegments ops) back fwd ∧ _
    by_cases hend : e.AtEnd op
    · rw [show e.kills wordSegments (op :: ops) = (e.kill wordSegments op).kills wordSegments ops
        from rfl, kill_atEnd wordSegments hend]
      exact ih hvalid haction hring
    · obtain ⟨text, hkilled, -⟩ := kill_killed wordSegments hvalid hend
      have hpushed : (e.kill wordSegments op).killRing
          = older ++ [if op.prepends then text ++ newest else newest ++ text] := by
        rw [hkilled.killRing, hring, haction, KillRing.push]
        by_cases htext : text = []
        · rw [if_pos htext, htext]
          cases op.prepends <;> simp
        · rw [if_neg htext, List.getLast?_concat, List.dropLast_concat]
          rfl
      obtain ⟨back, fwd, hremoved, hafter, hvalid'⟩ :=
        ih hkilled.valid hkilled.lastAction hpushed
      refine ⟨back ++ (if op.prepends then text else []),
        (if op.prepends then [] else text) ++ fwd, ⟨?_, ?_⟩, ?_, hvalid'⟩
      · rw [hkilled.before, hremoved.1, List.append_assoc]
      · rw [hkilled.after, hremoved.2, List.append_assoc]
      · show ((e.kill wordSegments op).kills wordSegments ops).killRing = _
        rw [hafter]
        cases op.prepends <;> simp

/-- The claims of a run of kills: the newest entry is what it has removed, and a yank brings
the text back. -/
def YankRestores (e : Editor) (ops : List KillOp) : Prop :=
  ∃ back fwd, Removed e (e.kills wordSegments ops) back fwd ∧
    KillRing.peek (e.kills wordSegments ops).killRing = some (back ++ fwd) ∧
    (e.kills wordSegments ops).yank.getText = e.getText

/-- When the run makes an entry of its own: it removes some text and, unless the ring is
empty, the last action was no kill and the first kill that is not at an end does not find an
empty word. -/
def OwnEntry (e : Editor) (ops : List KillOp) : Prop :=
  (∃ op ∈ ops, ¬ e.AtEnd op ∧ ¬ e.EmptyWord wordSegments op) ∧
    (e.killRing = [] ∨ e.lastAction ≠ some .kill ∧
      ∀ op, ops.find? (fun op => ! decide (e.AtEnd op)) = some op →
        ¬ e.EmptyWord wordSegments op)

theorem Removed.unique {e e' : Editor} {back fwd back' fwd' : JsString}
    (h : Removed e e' back fwd) (h' : Removed e e' back' fwd') : back = back' ∧ fwd = fwd' :=
  ⟨List.append_cancel_left (h.1.symm.trans h'.1), List.append_cancel_right (h.2.symm.trans h'.2)⟩

/-- What a run does whose first kill finds `newest` to go on with: an entry that holds more
than what is removed. -/
theorem not_yankRestores {e : Editor} {ops : List KillOp} (hvalid : e.Valid)
    (haction : e.lastAction = some .kill) (hring : e.killRing ≠ []) :
    ¬ e.YankRestores wordSegments ops := by
  rcases List.eq_nil_or_concat e.killRing with hnil | ⟨older, newest, hconcat⟩
  · exact absurd hnil hring
  · rw [List.concat_eq_append] at hconcat
    have hnewest : newest ≠ [] := hvalid.entries newest (by simp [hconcat])
    obtain ⟨back, fwd, hremoved, hpushed, -⟩ :=
      kills_accumulate wordSegments ops hvalid haction hconcat
    rintro ⟨back', fwd', hremoved', hpeek, -⟩
    obtain ⟨rfl, rfl⟩ := hremoved.unique hremoved'
    rw [hpushed, KillRing.peek, List.getLast?_concat] at hpeek
    have hlen := congrArg List.length (Option.some.inj hpeek)
    simp only [List.length_append] at hlen
    exact hnewest (List.eq_nil_of_length_eq_zero (by omega))

theorem push_fresh {ring : List JsString} {text : JsString} {prepend accumulate : Bool}
    (htext : text ≠ []) (h : ring = [] ∨ accumulate = false) :
    KillRing.push ring text prepend accumulate = ring ++ [text] := by
  rw [KillRing.push, if_neg htext]
  rcases h with rfl | rfl
  · rfl
  · cases ring.getLast? <;> rfl

/-- The first kill makes an entry of its own, and the others go into it. -/
theorem yankRestores_of_first {e : Editor} {op : KillOp} {ops : List KillOp} (hvalid : e.Valid)
    (hend : ¬ e.AtEnd op) (hword : ¬ e.EmptyWord wordSegments op)
    (hfresh : e.killRing = [] ∨ e.lastAction ≠ some .kill) :
    e.YankRestores wordSegments (op :: ops) := by
  obtain ⟨text, hkilled, htext⟩ := kill_killed wordSegments hvalid hend
  have hpushed := hkilled.killRing
  rw [push_fresh (fun hnil => hword (htext.mp hnil)) (hfresh.imp_right decide_eq_false)] at hpushed
  obtain ⟨back, fwd, hremoved, hring, hvalid'⟩ :=
    kills_accumulate wordSegments ops hkilled.valid hkilled.lastAction hpushed
  have hrun : e.kills wordSegments (op :: ops) = (e.kill wordSegments op).kills wordSegments ops :=
    rfl
  have hall : Removed e (e.kills wordSegments (op :: ops))
      (back ++ if op.prepends then text else []) ((if op.prepends then [] else text) ++ fwd) := by
    rw [hrun]
    refine ⟨?_, ?_⟩
    · rw [hkilled.before, hremoved.1, List.append_assoc]
    · rw [hkilled.after, hremoved.2, List.append_assoc]
  have hpeek : KillRing.peek (e.kills wordSegments (op :: ops)).killRing
      = some ((back ++ if op.prepends then text else [])
        ++ ((if op.prepends then [] else text) ++ fwd)) := by
    rw [hrun, hring, KillRing.peek, List.getLast?_concat]
    cases op.prepends <;> simp
  obtain ⟨hbefore, hafter, hyanked⟩ := yank_halves (hrun ▸ hvalid') hpeek
  refine ⟨_, _, hall, hpeek, ?_⟩
  rw [hyanked.at_cursor.getText_eq, hvalid.at_cursor.getText_eq, hbefore, hafter, hall.1, hall.2]
  simp only [List.append_assoc]

/-- The flag changes neither the buffer nor what there is to kill. -/
theorem kill_emptyWord {e : Editor} (hvalid : e.Valid) {op : KillOp} (hend : ¬ e.AtEnd op)
    (hword : e.EmptyWord wordSegments op) :
    e.kill wordSegments op = { e with lastAction := some .kill } := by
  have hset : e.lines.set e.cursorLine e.currentLine = e.lines := by
    rw [hvalid.at_cursor.set_lines, hvalid.at_cursor.currentLine_eq]
    exact hvalid.at_cursor.lines_eq.symm
  have hpush : ∀ prepend, e.pushKill [] prepend = { e with lastAction := some .kill } := by
    intro prepend
    rw [pushKill, KillRing.push, if_pos rfl]
  cases op with
  | deleteToStartOfLine => exact absurd hword not_false
  | deleteToEndOfLine => exact absurd hword not_false
  | deleteWordBackwards =>
    obtain ⟨hcol, hstart⟩ := hword
    have hnone : (e.currentLine.take e.cursorCol).drop e.cursorCol = [] :=
      List.drop_eq_nil_of_le (List.length_take_le _ _)
    show e.deleteWordBackwards wordSegments = _
    rw [deleteWordBackwards, if_neg (Nat.ne_of_gt hcol)]
    simp only [hstart, hnone, hpush, List.take_append_drop, hset]
  | deleteWordForward =>
    obtain ⟨hcol, hstop⟩ := hword
    have hnone : (e.currentLine.take e.cursorCol).drop e.cursorCol = [] :=
      List.drop_eq_nil_of_le (List.length_take_le _ _)
    show e.deleteWordForward wordSegments = _
    rw [deleteWordForward, if_neg (Nat.not_le_of_lt hcol)]
    simp only [hstop, hnone, hpush, List.take_append_drop, hset]

/-- **Kill and yank.** A run of kills has its text in the newest entry, and a yank brings it
back, exactly if it makes an entry of its own. -/
theorem yankRestores_iff {e : Editor} (hvalid : e.Valid) (ops : List KillOp) :
    e.YankRestores wordSegments ops ↔ e.OwnEntry wordSegments ops := by
  induction ops generalizing e with
  | nil =>
    refine iff_of_false ?_ ?_
    · rintro ⟨back, fwd, hremoved, hpeek, -⟩
      obtain ⟨rfl, rfl⟩ := hremoved.unique
        (show Removed e (e.kills wordSegments []) [] [] from ⟨(List.append_nil _).symm, rfl⟩)
      exact hvalid.entries [] (List.mem_of_getLast? hpeek) rfl
    · rintro ⟨⟨op, hop, -⟩, -⟩
      exact absurd hop List.not_mem_nil
  | cons op ops ih =>
    by_cases hend : e.AtEnd op
    · -- nothing happens
      have hsame : e.YankRestores wordSegments (op :: ops) ↔ e.YankRestores wordSegments ops := by
        rw [YankRestores, show e.kills wordSegments (op :: ops)
          = (e.kill wordSegments op).kills wordSegments ops from rfl, kill_atEnd wordSegments hend]
        rfl
      rw [hsame, ih hvalid]
      simp [OwnEntry, hend]
    · by_cases hword : e.EmptyWord wordSegments op
      · -- the flag is set, and nothing is removed
        have hsame : e.YankRestores wordSegments (op :: ops)
            ↔ ({ e with lastAction := some .kill } : Editor).YankRestores wordSegments ops := by
          rw [YankRestores, show e.kills wordSegments (op :: ops)
            = (e.kill wordSegments op).kills wordSegments ops from rfl,
            kill_emptyWord wordSegments hvalid hend hword]
          rfl
        have hvalid' : ({ e with lastAction := some .kill } : Editor).Valid :=
          ⟨hvalid.line_lt, hvalid.col_le, hvalid.entries⟩
        by_cases hring : e.killRing = []
        · rw [hsame, ih hvalid']
          have hhead : (∃ o ∈ op :: ops, ¬ e.AtEnd o ∧ ¬ e.EmptyWord wordSegments o)
              ↔ ∃ o ∈ ops, ¬ e.AtEnd o ∧ ¬ e.EmptyWord wordSegments o := by
            simp [hword]
          rw [OwnEntry, OwnEntry, hhead]
          exact and_congr Iff.rfl (iff_of_true (Or.inl hring) (Or.inl hring))
        · rw [hsame]
          refine iff_of_false (not_yankRestores wordSegments hvalid' rfl hring) ?_
          rintro ⟨-, hnil | ⟨-, hfirst⟩⟩
          · exact hring hnil
          · exact hfirst op (List.find?_cons_of_pos (by simpa using hend)) hword
      · by_cases hfresh : e.killRing = [] ∨ e.lastAction ≠ some .kill
        · refine iff_of_true (yankRestores_of_first wordSegments hvalid hend hword hfresh)
            ⟨⟨op, List.mem_cons_self, hend, hword⟩, ?_⟩
          refine hfresh.imp_right fun haction => ⟨haction, ?_⟩
          intro first hfirst
          rw [List.find?_cons_of_pos (by simpa using hend)] at hfirst
          obtain rfl := Option.some.inj hfirst
          exact hword
        · obtain ⟨hring, haction⟩ := not_or.mp hfresh
          refine iff_of_false
            (not_yankRestores wordSegments hvalid (not_not.mp haction) hring) ?_
          rintro ⟨-, hnil | ⟨hne, -⟩⟩
          · exact hring hnil
          · exact haction hne

end Words

/-! ## Yank-pops -/

/-- The entry `n` places older than the newest, in the circle. -/
def older (ring : List JsString) (n : Nat) : Option JsString := ring.reverse[n % ring.length]?

/-- The claims of a yank and `n` yank-pops: the text of the entry `n` places older stands at
the cursor, and the cursor behind it. -/
def PopsInsert (e : Editor) (n : Nat) : Prop :=
  match older e.killRing n with
  | none => yankPop^[n] e.yank = e
  | some entry => (yankPop^[n] e.yank).before = e.before ++ entry ∧
      (yankPop^[n] e.yank).after = e.after

/-- A rotation moves the newest entry behind the oldest one. -/
theorem rotate_eq (ring : List JsString) :
    KillRing.rotate ring = (ring.reverse.rotate 1).reverse := by
  rcases List.eq_nil_or_concat ring with rfl | ⟨front, last, rfl⟩
  · rfl
  · rw [List.concat_eq_append, KillRing.rotate]
    have hback : ((front ++ [last]).reverse.rotate 1).reverse = last :: front := by
      rw [List.reverse_concat, List.rotate_cons_succ, List.rotate_zero, List.reverse_concat,
        List.reverse_reverse]
    rw [hback]
    cases front with
    | nil => rfl
    | cons first front =>
      rw [if_pos (by simp), List.getLast?_concat, List.dropLast_concat]
      rfl

theorem older_eq_peek {ring : List JsString} (n : Nat) (hring : ring ≠ []) :
    older ring n = KillRing.peek (ring.reverse.rotate n).reverse := by
  have hpos : 0 < ring.length := List.length_pos_of_ne_nil hring
  rw [KillRing.peek, List.getLast?_reverse, ← List.rotate_mod, List.length_reverse,
    List.head?_rotate (by rw [List.length_reverse]; exact Nat.mod_lt _ hpos), older]

/-- What a yank and `n` yank-pops have made of the editor. -/
structure Yanked (e : Editor) (n : Nat) (e' : Editor) : Prop where
  at_insert : ∃ entry, older e.killRing n = some entry ∧
    At e' (e.cursor.insert newline entry)
  killRing : e'.killRing = (e.killRing.reverse.rotate n).reverse
  lastAction : e'.lastAction = some .yank

theorem insertYankedText_killRing (e : Editor) (text : JsString) :
    (e.insertYankedText text).killRing = e.killRing := by
  unfold insertYankedText
  simp only
  split <;> rfl

theorem deleteYankedText_killRing (e : Editor) : e.deleteYankedText.killRing = e.killRing := by
  unfold deleteYankedText
  cases KillRing.peek e.killRing with
  | none => rfl
  | some text =>
    simp only
    split
    · rfl
    · split <;> rfl

theorem yanked_yank {e : Editor} (hvalid : e.Valid) (hring : e.killRing ≠ []) :
    Yanked e 0 e.yank := by
  have hpeek : KillRing.peek e.killRing = some (e.killRing.getLast hring) :=
    List.getLast?_eq_some_getLast hring
  have holder : older e.killRing 0 = some (e.killRing.getLast hring) := by
    rw [older_eq_peek 0 hring, List.rotate_zero, List.reverse_reverse, hpeek]
  rw [yank, hpeek]
  refine ⟨⟨_, holder, ?_⟩, ?_, rfl⟩
  · exact (hvalid.at_cursor.insertYankedText _).congr rfl rfl rfl
  · rw [List.rotate_zero, List.reverse_reverse]
    exact insertYankedText_killRing e _

/-- One yank-pop takes the entry out and puts the next older one in. -/
theorem Yanked.yankPop {e e' : Editor} {n : Nat} (hvalid : e.Valid) (hring : e.killRing ≠ [])
    (h : Yanked e n e') : Yanked e (n + 1) e'.yankPop := by
  obtain ⟨entry, holder, hat⟩ := h.at_insert
  have hlen : e'.killRing.length = e.killRing.length := by
    rw [h.killRing, List.length_reverse, List.length_rotate, List.length_reverse]
  by_cases hmany : e.killRing.length ≤ 1
  · -- the only entry is every entry
    have hone : e.killRing.length = 1 := by
      have := List.length_pos_of_ne_nil hring
      omega
    have hsame : e'.yankPop = e' := by
      rw [Editor.yankPop, if_pos (Or.inr (hlen.trans_le hmany))]
    have hrotate : ∀ k, e.killRing.reverse.rotate k = e.killRing.reverse := by
      intro k
      rw [← List.rotate_mod, List.length_reverse, hone, Nat.mod_one, List.rotate_zero]
    rw [hsame]
    refine ⟨⟨entry, ?_, hat⟩, ?_, h.lastAction⟩
    · rw [← holder, older, older, hone, Nat.mod_one, Nat.mod_one]
    · rw [h.killRing, hrotate, hrotate]
  · have hpeek : KillRing.peek e'.killRing = some entry := by
      rw [h.killRing, ← older_eq_peek n hring, holder]
    have hentry : entry ≠ [] := by
      refine hvalid.entries entry ?_
      have hmem := List.mem_of_getElem? holder
      exact List.mem_reverse.mp hmem
    have hdeleted := hat.deleteYankedText hpeek hentry
    have hrotated : KillRing.rotate e'.deleteYankedText.killRing
        = (e.killRing.reverse.rotate (n + 1)).reverse := by
      rw [deleteYankedText_killRing, h.killRing, rotate_eq, List.reverse_reverse,
        List.rotate_rotate]
    obtain ⟨next, hnext⟩ : ∃ next, older e.killRing (n + 1) = some next := by
      have hpos : 0 < e.killRing.length := List.length_pos_of_ne_nil hring
      refine ⟨_, List.getElem?_eq_getElem ?_⟩
      rw [List.length_reverse]
      exact Nat.mod_lt _ hpos
    have hpeek' : KillRing.peek (e.killRing.reverse.rotate (n + 1)).reverse = some next := by
      rw [← older_eq_peek (n + 1) hring, hnext]
    obtain ⟨rotated, hrot⟩ : ∃ rotated : Editor, rotated
        = { e'.deleteYankedText with killRing := (e.killRing.reverse.rotate (n + 1)).reverse } :=
      ⟨_, rfl⟩
    have hat' : At rotated e.cursor := hdeleted.congr (by rw [hrot]) (by rw [hrot]) (by rw [hrot])
    have hring' : rotated.killRing = (e.killRing.reverse.rotate (n + 1)).reverse := by rw [hrot]
    have hpop : e'.yankPop = { rotated.insertYankedText next with lastAction := some .yank } := by
      rw [Editor.yankPop, if_neg (by rw [h.lastAction, hlen]; simp [hmany])]
      simp only [hrotated, hpeek', Option.getD_some, hrot]
    rw [hpop]
    refine ⟨⟨next, hnext, (hat'.insertYankedText next).congr rfl rfl rfl⟩, ?_, rfl⟩
    exact (insertYankedText_killRing rotated next).trans hring'

theorem yanked_iterate {e : Editor} (hvalid : e.Valid) (hring : e.killRing ≠ []) (n : Nat) :
    Yanked e n (Editor.yankPop^[n] e.yank) := by
  induction n with
  | zero => exact yanked_yank hvalid hring
  | succ n ih =>
    rw [Function.iterate_succ_apply']
    exact ih.yankPop hvalid hring

/-- **Yank and yank-pops.** -/
theorem popsInsert {e : Editor} (hvalid : e.Valid) (n : Nat) : e.PopsInsert n := by
  unfold PopsInsert
  by_cases hring : e.killRing = []
  · have hnone : older e.killRing n = none := by
      rw [older, hring]
      rfl
    have hyank : e.yank = e := by
      rw [yank, hring]
      rfl
    have hpop : e.yankPop = e := by
      rw [yankPop, if_pos (Or.inr (by rw [hring]; exact Nat.zero_le 1))]
    rw [hnone, hyank]
    exact Function.iterate_fixed hpop n
  · obtain ⟨⟨entry, holder, hat⟩, -, -⟩ := yanked_iterate hvalid hring n
    rw [holder]
    refine ⟨?_, ?_⟩
    · rw [hat.before_eq, LineCursor.before_insert]
      rfl
    · rw [hat.after_eq, LineCursor.after_insert]
      rfl

/-- **Kill and yank are inverse.** A run of kills is its newest entry, and a yank brings the
text back, exactly if it makes an entry of its own; yank-pops walk through the ring. -/
theorem kill_yank_iff {wordSegments : JsString → List WordSegment} {e : Editor} (hvalid : e.Valid)
    (ops : List KillOp) (n : Nat) :
    e.YankRestores wordSegments ops ∧ e.PopsInsert n ↔ e.OwnEntry wordSegments ops :=
  (and_iff_left (popsInsert hvalid n)).trans (yankRestores_iff wordSegments hvalid ops)

/-- The segments of a Hebrew letter with a geresh, which is one word. -/
def gereshSegments (text : JsString) : List WordSegment :=
  if text = js "\u05e6'" then [⟨text, true⟩] else text.map fun u => ⟨[u], false⟩

/-- Behind such a word, with an entry in the ring. -/
def behindGeresh : Editor where
  lines := [js "\u05e6'"]
  cursorLine := 0
  cursorCol := 2
  killRing := [js "old"]
  lastAction := some .typeWord
  validPasteIds := []

/-- The kill of the word removes nothing, and the kill of the line goes into the old entry. -/
theorem kill_yank_geresh :
    let after := behindGeresh.kills gereshSegments [.deleteWordBackwards, .deleteToStartOfLine]
    after.getText = [] ∧ KillRing.peek after.killRing = some (js "\u05e6'old") ∧
      after.yank.getText ≠ behindGeresh.getText ∧
      ¬ behindGeresh.YankRestores gereshSegments [.deleteWordBackwards, .deleteToStartOfLine] := by
  refine ⟨by decide, by decide, by decide, ?_⟩
  rintro ⟨-, -, -, -, hyank⟩
  exact absurd hyank (by decide)

/-- A line feed and the line above it are killed, and the old entry stays as it is. -/
theorem kill_yank_iff_of_words :
    let e : Editor := ⟨[js "ab", js "c"], 1, 0, [js "old"], none, []⟩
    e.YankRestores gereshSegments [.deleteToStartOfLine, .deleteToStartOfLine] ∧ e.PopsInsert 3 :=
  (@kill_yank_iff gereshSegments ⟨[js "ab", js "c"], 1, 0, [js "old"], none, []⟩
    ⟨by decide, by decide, fun entry hentry => by rw [List.mem_singleton.mp hentry]; decide⟩
    [.deleteToStartOfLine, .deleteToStartOfLine] 3).mpr
    ⟨⟨.deleteToStartOfLine, List.mem_cons_self, by decide, by decide⟩,
      Or.inr ⟨by decide, fun op _ => by cases op <;> decide⟩⟩

end Editor

end PiMono.Tui
