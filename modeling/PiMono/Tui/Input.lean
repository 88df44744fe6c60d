import PiMono.Tui.KillRing

/-!
# The input field

`tui/src/components/input.ts`: a line of text with a cursor, a kill ring and undo. The keys
that the user has bound, the decoder of Kitty sequences and the segmenters are parameters.
-/

namespace PiMono.Tui

/-! ## Slices -/

/-- Where a slice begins or ends: a negative index counts from the end. -/
def sliceIndex (s : JsString) (index : Int) : Nat :=
  if index < 0 then (s.length + index).toNat else min index.toNat s.length

/-- `s.slice(start, stop)` -/
def slice (s : JsString) (start stop : Int) : JsString :=
  (s.take (sliceIndex s stop)).drop (sliceIndex s start)

/-- `s.slice(start)` -/
def sliceFrom (s : JsString) (start : Int) : JsString := s.drop (sliceIndex s start)

/-! ## Words -/

/-- How far `findWordBackward` goes without atomic segments: the segments come last first. -/
def wordBackward (segs : List WordSegment) : Nat :=
  segsLength (segs.takeWhile fun seg => isWhitespaceChar seg.segment) +
    match segs.dropWhile fun seg => isWhitespaceChar seg.segment with
    | [] => 0
    | last :: segs =>
      if last.isWordLike then (last.segment.reverse.takeWhile (! isPunctuation ·)).length
      else segsLength ((last :: segs).takeWhile fun seg =>
        !seg.isWordLike && !isWhitespaceChar seg.segment)

/-- How far `findWordForward` goes without atomic segments. -/
def wordForward (segs : List WordSegment) : Nat :=
  segsLength (segs.takeWhile fun seg => isWhitespaceChar seg.segment) +
    match segs.dropWhile fun seg => isWhitespaceChar seg.segment with
    | [] => 0
    | next :: segs =>
      if next.isWordLike then (next.segment.takeWhile (! isPunctuation ·)).length
      else segsLength ((next :: segs).takeWhile fun seg =>
        !seg.isWordLike && !isWhitespaceChar seg.segment)

/-! ## The field -/

/-- `InputState` -/
structure InputState where
  value : JsString
  cursor : Int
  deriving DecidableEq

/-- `Input`; the newest snapshot comes first. -/
structure Input where
  value : JsString
  cursor : Int
  isInPaste : Bool
  pasteBuffer : JsString
  killRing : List JsString
  lastAction : Option LastAction
  undoStack : List InputState
  deriving DecidableEq

/-- The keys that `handleInput` asks for, in this order. -/
inductive InputKey where
  | cancel
  | undo
  | submit
  | deleteCharBackward
  | deleteCharForward
  | deleteWordBackward
  | deleteWordForward
  | deleteToLineStart
  | deleteToLineEnd
  | yank
  | yankPop
  | cursorLeft
  | cursorRight
  | cursorLineStart
  | cursorLineEnd
  | cursorWordLeft
  | cursorWordRight
  deriving DecidableEq, Repr

def InputKey.all : List InputKey :=
  [cancel, undo, submit, deleteCharBackward, deleteCharForward, deleteWordBackward,
    deleteWordForward, deleteToLineStart, deleteToLineEnd, yank, yankPop, cursorLeft, cursorRight,
    cursorLineStart, cursorLineEnd, cursorWordLeft, cursorWordRight]

namespace Input

def initial : Input := ⟨[], 0, false, [], [], none, []⟩

/-- `setValue` -/
def setValue (s : Input) (value : JsString) : Input :=
  { s with value := value, cursor := min s.cursor value.length }

/-- `pushUndo` -/
def pushUndo (s : Input) : Input := { s with undoStack := ⟨s.value, s.cursor⟩ :: s.undoStack }

/-- `undo` -/
def undo (s : Input) : Input :=
  match s.undoStack with
  | [] => s
  | snapshot :: rest =>
    { s with
      value := snapshot.value
      cursor := snapshot.cursor
      undoStack := rest
      lastAction := none }

/-- A text is put at the cursor, which goes behind it. -/
def insertText (s : Input) (text : JsString) : Input :=
  { s with
    value := slice s.value 0 s.cursor ++ text ++ sliceFrom s.value s.cursor
    cursor := s.cursor + text.length }

/-- `insertCharacter` -/
def insertCharacter (s : Input) (char : JsString) : Input :=
  let saved :=
    if isWhitespaceChar char ∨ s.lastAction ≠ some .typeWord then s.pushUndo else s
  { saved.insertText char with lastAction := some .typeWord }

/-- The replacements of `handlePaste`, in this order. -/
def cleanText (pastedText : JsString) : JsString :=
  (pastedText.filter fun u => u ≠ 0x0D ∧ u ≠ 0x0A).flatMap fun u =>
    if u = 0x09 then js "    " else [u]

/-- `handlePaste` -/
def handlePaste (s : Input) (pastedText : JsString) : Input :=
  { s with lastAction := none }.pushUndo.insertText (cleanText pastedText)

/-- What every kill does with the ring. -/
def pushKill (s : Input) (text : JsString) (prepend accumulate : Bool) : Input :=
  { s with
    killRing := KillRing.push s.killRing text prepend accumulate
    lastAction := some .kill }

/-- `deleteToLineStart` -/
def deleteToLineStart (s : Input) : Input :=
  if s.cursor = 0 then s
  else
    { s.pushUndo.pushKill (slice s.value 0 s.cursor) true (s.lastAction = some .kill) with
      value := sliceFrom s.value s.cursor
      cursor := 0 }

/-- `deleteToLineEnd` -/
def deleteToLineEnd (s : Input) : Input :=
  if s.value.length ≤ s.cursor then s
  else
    { s.pushUndo.pushKill (sliceFrom s.value s.cursor) false (s.lastAction = some .kill) with
      value := slice s.value 0 s.cursor }

/-- `yank` -/
def yank (s : Input) : Input :=
  match KillRing.peek s.killRing with
  | none | some [] => s
  | some text => { s.pushUndo.insertText text with lastAction := some .yank }

/-- A yank-pop does something. -/
def Pops (s : Input) : Prop := s.lastAction = some .yank ∧ 1 < s.killRing.length

instance (s : Input) : Decidable s.Pops := inferInstanceAs (Decidable (_ ∧ _))

/-- `yankPop` -/
def yankPop (s : Input) : Input :=
  if s.Pops then
    let saved := s.pushUndo
    let prevText := (KillRing.peek saved.killRing).getD []
    let deleted :=
      { saved with
        value := slice saved.value 0 (saved.cursor - prevText.length)
          ++ sliceFrom saved.value saved.cursor
        cursor := saved.cursor - prevText.length
        killRing := KillRing.rotate saved.killRing }
    { deleted.insertText ((KillRing.peek deleted.killRing).getD []) with
      lastAction := some .yank }
  else s

section Keys

variable (keyMatches : JsString → InputKey → Bool)
variable (decodeKittyPrintable : JsString → Option JsString)
variable (graphemes : JsString → List JsString)
variable (wordSegments : JsString → List WordSegment)

/-- The length of the last grapheme of a text. -/
def lastGraphemeLength (text : JsString) : Nat := ((graphemes text).getLast?.map List.length).getD 1

/-- The length of the first grapheme of a text. -/
def firstGraphemeLength (text : JsString) : Nat := ((graphemes text).head?.map List.length).getD 1

/-- `handleBackspace` -/
def handleBackspace (s : Input) : Input :=
  let s := { s with lastAction := none }
  if 0 < s.cursor then
    let graphemeLength := lastGraphemeLength graphemes (slice s.value 0 s.cursor)
    { s.pushUndo with
      value := slice s.value 0 (s.cursor - graphemeLength) ++ sliceFrom s.value s.cursor
      cursor := s.cursor - graphemeLength }
  else s

/-- `handleForwardDelete` -/
def handleForwardDelete (s : Input) : Input :=
  let s := { s with lastAction := none }
  if s.cursor < s.value.length then
    let graphemeLength := firstGraphemeLength graphemes (sliceFrom s.value s.cursor)
    { s.pushUndo with
      value := slice s.value 0 s.cursor ++ sliceFrom s.value (s.cursor + graphemeLength) }
  else s

/-- The key `cursorLeft`. -/
def cursorLeft (s : Input) : Input :=
  let s := { s with lastAction := none }
  if 0 < s.cursor then
    { s with cursor := s.cursor - lastGraphemeLength graphemes (slice s.value 0 s.cursor) }
  else s

/-- The key `cursorRight`. -/
def cursorRight (s : Input) : Input :=
  let s := { s with lastAction := none }
  if s.cursor < s.value.length then
    { s with cursor := s.cursor + firstGraphemeLength graphemes (sliceFrom s.value s.cursor) }
  else s

/-- `findWordBackward` -/
def findWordBackward (text : JsString) (cursor : Int) : Int :=
  if cursor ≤ 0 then 0 else cursor - wordBackward (wordSegments (slice text 0 cursor)).reverse

/-- `findWordForward` -/
def findWordForward (text : JsString) (cursor : Int) : Int :=
  if text.length ≤ cursor then text.length
  else cursor + wordForward (wordSegments (sliceFrom text cursor))

/-- `moveWordBackwards` -/
def moveWordBackwards (s : Input) : Input :=
  if s.cursor = 0 then s
  else
    { s with lastAction := none, cursor := findWordBackward wordSegments s.value s.cursor }

/-- `moveWordForwards` -/
def moveWordForwards (s : Input) : Input :=
  if s.value.length ≤ s.cursor then s
  else { s with lastAction := none, cursor := findWordForward wordSegments s.value s.cursor }

/-- `deleteWordBackwards` -/
def deleteWordBackwards (s : Input) : Input :=
  if s.cursor = 0 then s
  else
    let deleteFrom := (s.moveWordBackwards wordSegments).cursor
    { s.pushUndo.pushKill (slice s.value deleteFrom s.cursor) true (s.lastAction = some .kill) with
      value := slice s.value 0 deleteFrom ++ sliceFrom s.value s.cursor
      cursor := deleteFrom }

/-- `deleteWordForward` -/
def deleteWordForward (s : Input) : Input :=
  if s.value.length ≤ s.cursor then s
  else
    let deleteTo := (s.moveWordForwards wordSegments).cursor
    { s.pushUndo.pushKill (slice s.value s.cursor deleteTo) false (s.lastAction = some .kill) with
      value := slice s.value 0 s.cursor ++ sliceFrom s.value deleteTo }

/-- What one key does; submitting and cancelling only call the owner. -/
def press (s : Input) : InputKey → Input
  | .cancel | .submit => s
  | .undo => s.undo
  | .deleteCharBackward => s.handleBackspace graphemes
  | .deleteCharForward => s.handleForwardDelete graphemes
  | .deleteWordBackward => s.deleteWordBackwards wordSegments
  | .deleteWordForward => s.deleteWordForward wordSegments
  | .deleteToLineStart => s.deleteToLineStart
  | .deleteToLineEnd => s.deleteToLineEnd
  | .yank => s.yank
  | .yankPop => s.yankPop
  | .cursorLeft => s.cursorLeft graphemes
  | .cursorRight => s.cursorRight graphemes
  | .cursorLineStart => { s with lastAction := none, cursor := 0 }
  | .cursorLineEnd => { s with lastAction := none, cursor := s.value.length }
  | .cursorWordLeft => s.moveWordBackwards wordSegments
  | .cursorWordRight => s.moveWordForwards wordSegments

/-- `hasControlChars` -/
def hasControlChars (data : JsString) : Bool :=
  data.any fun code => code < 32 || code == 0x7F || (0x80 ≤ code && code ≤ 0x9F)

/-- What happens to the field, one after the other. -/
inductive Event where
  | press (key : InputKey)
  | insert (char : JsString)
  | paste (pastedText : JsString)
  /-- A paste begins, goes on or is over. -/
  | buffer (isInPaste : Bool) (pasteBuffer : JsString)
  /-- By the owner. -/
  | setValue (value : JsString)
  deriving DecidableEq

def step (s : Input) : Event → Input
  | .press key => s.press graphemes wordSegments key
  | .insert char => s.insertCharacter char
  | .paste pastedText => s.handlePaste pastedText
  | .buffer isInPaste pasteBuffer => { s with isInPaste := isInPaste, pasteBuffer := pasteBuffer }
  | .setValue value => s.setValue value

def run (s : Input) (events : List Event) : Input :=
  events.foldl (step graphemes wordSegments) s

/-- The part of `handleInput` behind the pastes. -/
def keyEvents (data : JsString) : List Event :=
  match InputKey.all.find? fun key => keyMatches data key || key == .submit && data == js "\n" with
  | some key => [.press key]
  | none => match decodeKittyPrintable data with
    | some kittyPrintable => [.insert kittyPrintable]
    | none => if hasControlChars data then [] else [.insert data]

def pasteStart : JsString := js "\x1b[200~"

def pasteEnd : JsString := js "\x1b[201~"

/-- `data.replace("\x1b[200~", "")` -/
def withoutStart (data : JsString) : JsString :=
  match indexOf? data pasteStart with
  | some index => data.take index ++ data.drop (index + pasteStart.length)
  | none => data

/-- What a paste has brought, with the new data: it starts anew where the data say so. -/
def buffered (pasteBuffer data : JsString) : JsString :=
  (if (indexOf? data pasteStart).isSome then [] else pasteBuffer) ++ withoutStart data

omit keyMatches decodeKittyPrintable in
theorem length_buffered (pasteBuffer data : JsString) :
    (buffered pasteBuffer data).length ≤ pasteBuffer.length + data.length := by
  have hdata : (withoutStart data).length ≤ data.length := by
    unfold withoutStart
    split
    · rw [List.length_append, List.length_take, List.length_drop]
      omega
    · exact Nat.le_refl _
  rw [buffered, List.length_append]
  split
  · rw [List.length_nil]
    omega
  · exact Nat.add_le_add_left hdata _

/-- What `handleInput` does, given whether a paste is going on and what it has brought. -/
def inputEvents (isInPaste : Bool) (pasteBuffer data : JsString) : List Event :=
  if (indexOf? data pasteStart).isSome || isInPaste then
    match indexOf? (buffered pasteBuffer data) pasteEnd with
    | none => [.buffer true (buffered pasteBuffer data)]
    | some endIndex =>
      let remaining := (buffered pasteBuffer data).drop (endIndex + pasteEnd.length)
      .paste ((buffered pasteBuffer data).take endIndex) :: .buffer false [] ::
        if remaining = [] then [] else inputEvents false [] remaining
  else keyEvents keyMatches decodeKittyPrintable data
termination_by pasteBuffer.length + data.length
decreasing_by
  rename_i hremaining
  have hlen := length_buffered pasteBuffer data
  have hpos := List.length_pos_of_ne_nil hremaining
  have hend : pasteEnd.length = 6 := by decide
  rw [List.length_drop] at hpos ⊢
  rw [List.length_nil]
  omega

/-- `handleInput` -/
def handleInput (s : Input) (data : JsString) : Input :=
  s.run graphemes wordSegments
    (inputEvents keyMatches decodeKittyPrintable s.isInPaste s.pasteBuffer data)

/-- What the owner and the terminal do. -/
inductive Op where
  | handleInput (data : JsString)
  | setValue (value : JsString)

/-- What happens to the field in a sequence of operations. -/
def history (s : Input) : List Op → List Event
  | [] => []
  | op :: ops =>
    let events := match op with
      | .handleInput data =>
        inputEvents keyMatches decodeKittyPrintable s.isInPaste s.pasteBuffer data
      | .setValue value => [.setValue value]
    events ++ history (s.run graphemes wordSegments events) ops

end Keys

/-! ## The cursor stays in the field -/

/-- Segments that make up the text, as a grapheme segmenter returns them. -/
def IsGraphemes (graphemes : JsString → List JsString) : Prop :=
  ∀ text, (graphemes text).flatten = text

/-- A position in a text. -/
def InField (value : JsString) (cursor : Int) : Prop := ∃ n : Nat, cursor = n ∧ n ≤ value.length

/-- The cursor is in the field, and was at each snapshot. -/
structure Inv (s : Input) : Prop where
  cursor : InField s.value s.cursor
  undo : ∀ snapshot ∈ s.undoStack, InField snapshot.value snapshot.cursor

theorem InField.bounds {value : JsString} {cursor : Int} (h : InField value cursor) :
    0 ≤ cursor ∧ cursor ≤ value.length := by
  obtain ⟨n, rfl, hn⟩ := h
  omega

theorem inField_of_bounds {value : JsString} {cursor : Int} (hpos : 0 ≤ cursor)
    (hle : cursor ≤ value.length) : InField value cursor :=
  ⟨cursor.toNat, (Int.toNat_of_nonneg hpos).symm, by omega⟩

theorem sliceIndex_natCast (s : JsString) (n : Nat) : sliceIndex s n = min n s.length := by
  rw [sliceIndex, if_neg (by omega), Int.toNat_natCast]

theorem slice_zero (s : JsString) (n : Nat) : slice s 0 n = s.take n := by
  have hzero : sliceIndex s 0 = 0 := by simp [sliceIndex]
  rw [slice, hzero, List.drop_zero, sliceIndex_natCast, ← List.take_eq_take_min]

theorem sliceFrom_natCast (s : JsString) (n : Nat) : sliceFrom s n = s.drop n := by
  rw [sliceFrom, sliceIndex_natCast]
  rcases Nat.le_total n s.length with h | h
  · rw [Nat.min_eq_left h]
  · rw [Nat.min_eq_right h, List.drop_length, List.drop_eq_nil_of_le h]

theorem inv_initial : Inv initial := ⟨⟨0, rfl, Nat.le_refl 0⟩, nofun⟩

/-- Nothing but the present state is ever saved. -/
theorem Inv.edit {s s' : Input} (h : Inv s) (hcursor : InField s'.value s'.cursor)
    (hundo : s'.undoStack ⊆ ⟨s.value, s.cursor⟩ :: s.undoStack) : Inv s' := by
  refine ⟨hcursor, fun snapshot hsnapshot => ?_⟩
  rcases List.mem_cons.mp (hundo hsnapshot) with rfl | hmem
  · exact h.cursor
  · exact h.undo snapshot hmem

section Bounds

variable {graphemes : JsString → List JsString} {wordSegments : JsString → List WordSegment}

theorem lastGraphemeLength_le (hgraphemes : IsGraphemes graphemes) {text : JsString}
    (hne : text ≠ []) : lastGraphemeLength graphemes text ≤ text.length := by
  have hflat := hgraphemes text
  rw [lastGraphemeLength]
  cases hlast : (graphemes text).getLast? with
  | none =>
    rw [List.getLast?_eq_none_iff.mp hlast] at hflat
    exact absurd hflat.symm hne
  | some last =>
    have hlen := (List.sublist_flatten_of_mem (List.mem_of_getLast? hlast)).length_le
    rwa [hflat] at hlen

theorem firstGraphemeLength_le (hgraphemes : IsGraphemes graphemes) {text : JsString}
    (hne : text ≠ []) : firstGraphemeLength graphemes text ≤ text.length := by
  have hflat := hgraphemes text
  rw [firstGraphemeLength]
  cases hfirst : (graphemes text).head? with
  | none =>
    rw [List.head?_eq_none_iff.mp hfirst] at hflat
    exact absurd hflat.symm hne
  | some first =>
    have hlen := (List.sublist_flatten_of_mem (List.mem_of_head? hfirst)).length_le
    rwa [hflat] at hlen

theorem wordBackward_le (segs : List WordSegment) : wordBackward segs ≤ segsLength segs := by
  have hsplit := congrArg segsLength
    (@List.takeWhile_append_dropWhile _ (fun seg => isWhitespaceChar seg.segment) segs)
  rw [segsLength_append] at hsplit
  rw [← hsplit]
  refine Nat.add_le_add_left ?_ _
  cases segs.dropWhile fun seg => isWhitespaceChar seg.segment with
  | nil => exact Nat.le_refl 0
  | cons last segs =>
    have hone : last.segment.length ≤ segsLength (last :: segs) := Nat.le_add_right _ _
    simp only
    split
    · refine le_trans ((List.takeWhile_sublist _).length_le) ?_
      rw [List.length_reverse]
      exact hone
    · exact segsLength_takeWhile_le _ _

theorem wordForward_le (segs : List WordSegment) : wordForward segs ≤ segsLength segs := by
  have hsplit := congrArg segsLength
    (@List.takeWhile_append_dropWhile _ (fun seg => isWhitespaceChar seg.segment) segs)
  rw [segsLength_append] at hsplit
  rw [← hsplit]
  refine Nat.add_le_add_left ?_ _
  cases segs.dropWhile fun seg => isWhitespaceChar seg.segment with
  | nil => exact Nat.le_refl 0
  | cons next segs =>
    have hone : next.segment.length ≤ segsLength (next :: segs) := Nat.le_add_right _ _
    simp only
    split
    · exact le_trans ((List.takeWhile_sublist _).length_le) hone
    · exact segsLength_takeWhile_le _ _

theorem findWordBackward_inField (hwords : IsSegmenter wordSegments) {value : JsString}
    {cursor : Int} (h : InField value cursor) :
    InField value (findWordBackward wordSegments value cursor) ∧
      findWordBackward wordSegments value cursor ≤ cursor := by
  obtain ⟨n, rfl, hn⟩ := h
  rw [findWordBackward]
  split
  · exact ⟨⟨0, rfl, Nat.zero_le _⟩, by omega⟩
  · have hle := wordBackward_le (wordSegments (value.take n)).reverse
    rw [segsLength_reverse, segsLength_eq_length, hwords.text_eq, List.length_take] at hle
    rw [slice_zero]
    exact ⟨inField_of_bounds (by omega) (by omega), by omega⟩

theorem findWordForward_inField (hwords : IsSegmenter wordSegments) {value : JsString}
    {cursor : Int} (h : InField value cursor) :
    InField value (findWordForward wordSegments value cursor) ∧
      cursor ≤ findWordForward wordSegments value cursor := by
  obtain ⟨n, rfl, hn⟩ := h
  rw [findWordForward]
  split
  · exact ⟨⟨value.length, rfl, Nat.le_refl _⟩, by omega⟩
  · have hle := wordForward_le (wordSegments (value.drop n))
    rw [segsLength_eq_length, hwords.text_eq, List.length_drop] at hle
    rw [sliceFrom_natCast]
    exact ⟨inField_of_bounds (by omega) (by omega), by omega⟩

end Bounds

/-- Text that is put between the two sides of the cursor. -/
theorem insertText_eq {s : Input} {before behind : JsString} (text : JsString)
    (hvalue : s.value = before ++ behind) (hcursor : s.cursor = before.length) :
    (s.insertText text).value = before ++ text ++ behind ∧
      (s.insertText text).cursor = (before ++ text).length := by
  constructor
  · show slice s.value 0 s.cursor ++ text ++ sliceFrom s.value s.cursor = _
    rw [hcursor, slice_zero, sliceFrom_natCast, hvalue, List.take_left, List.drop_left]
  · show s.cursor + text.length = _
    rw [hcursor, List.length_append]
    omega

theorem insertText_inField {s : Input} (text : JsString) (h : InField s.value s.cursor) :
    InField (s.insertText text).value (s.insertText text).cursor := by
  obtain ⟨n, hcursor, hn⟩ := h
  obtain ⟨hvalue', hcursor'⟩ := @insertText_eq s (s.value.take n) (s.value.drop n) text
    (List.take_append_drop n s.value).symm (by rw [hcursor, List.length_take, Nat.min_eq_left hn])
  refine ⟨_, hcursor', ?_⟩
  rw [hvalue']
  exact (List.prefix_append _ _).length_le

/-! ## Every event keeps the cursor in the field -/

section Steps

variable {graphemes : JsString → List JsString} {wordSegments : JsString → List WordSegment}

/-- The text in front of the field's end and the text behind its start may be cut off. -/
theorem inField_cut {value : JsString} {start stop : Int} (hstart : InField value start)
    (hstop : InField value stop) : InField (slice value 0 start ++ sliceFrom value stop) start := by
  obtain ⟨n, rfl, hn⟩ := hstart
  obtain ⟨m, rfl, hm⟩ := hstop
  rw [slice_zero, sliceFrom_natCast]
  refine ⟨n, rfl, ?_⟩
  rw [List.length_append, List.length_take, Nat.min_eq_left hn]
  omega

section Cases

variable {s : Input} (h : Inv s)
include h

theorem Inv.undo_step : Inv s.undo := by
  unfold Input.undo
  cases hstack : s.undoStack with
  | nil => exact h
  | cons snapshot rest =>
    have hall := h.undo
    rw [hstack, List.forall_mem_cons] at hall
    exact ⟨hall.1, hall.2⟩

/-- A grapheme in front of the cursor begins in the field. -/
theorem Inv.lastGrapheme (hgraphemes : IsGraphemes graphemes) (hpos : 0 < s.cursor) :
    InField s.value (s.cursor - lastGraphemeLength graphemes (slice s.value 0 s.cursor)) := by
  obtain ⟨n, hcursor, hn⟩ := h.cursor
  have hne : s.value.take n ≠ [] := by
    rw [← List.length_pos_iff, List.length_take]
    omega
  have hle := lastGraphemeLength_le hgraphemes hne
  rw [List.length_take, Nat.min_eq_left hn] at hle
  rw [hcursor, slice_zero]
  exact inField_of_bounds (by omega) (by omega)

/-- A grapheme behind the cursor ends in the field. -/
theorem Inv.firstGrapheme (hgraphemes : IsGraphemes graphemes) (hlt : s.cursor < s.value.length) :
    InField s.value (s.cursor + firstGraphemeLength graphemes (sliceFrom s.value s.cursor)) := by
  obtain ⟨n, hcursor, hn⟩ := h.cursor
  have hne : s.value.drop n ≠ [] := by
    rw [← List.length_pos_iff, List.length_drop]
    omega
  have hle := firstGraphemeLength_le hgraphemes hne
  rw [List.length_drop] at hle
  rw [hcursor, sliceFrom_natCast]
  exact inField_of_bounds (by omega) (by omega)

theorem Inv.handleBackspace (hgraphemes : IsGraphemes graphemes) :
    Inv (s.handleBackspace graphemes) := by
  unfold Input.handleBackspace
  dsimp only
  split
  · rename_i hpos
    exact h.edit (inField_cut (h.lastGrapheme hgraphemes hpos) h.cursor) (List.Subset.refl _)
  · exact h.edit h.cursor (List.subset_cons_self _ _)

theorem Inv.handleForwardDelete (hgraphemes : IsGraphemes graphemes) :
    Inv (s.handleForwardDelete graphemes) := by
  unfold Input.handleForwardDelete
  dsimp only
  split
  · rename_i hlt
    exact h.edit (inField_cut h.cursor (h.firstGrapheme hgraphemes hlt)) (List.Subset.refl _)
  · exact h.edit h.cursor (List.subset_cons_self _ _)

theorem Inv.deleteWordBackwards (hwords : IsSegmenter wordSegments) :
    Inv (s.deleteWordBackwards wordSegments) := by
  unfold Input.deleteWordBackwards
  split
  · exact h
  · rename_i hzero
    have hmoved : (s.moveWordBackwards wordSegments).cursor =
        findWordBackward wordSegments s.value s.cursor := by
      rw [moveWordBackwards, if_neg hzero]
    refine h.edit (inField_cut ?_ h.cursor) (List.Subset.refl _)
    rw [hmoved]
    exact (findWordBackward_inField hwords h.cursor).1

theorem Inv.deleteWordForward (hwords : IsSegmenter wordSegments) :
    Inv (s.deleteWordForward wordSegments) := by
  unfold Input.deleteWordForward
  split
  · exact h
  · rename_i hend
    have hmoved : (s.moveWordForwards wordSegments).cursor =
        findWordForward wordSegments s.value s.cursor := by
      rw [moveWordForwards, if_neg hend]
    refine h.edit (inField_cut h.cursor ?_) (List.Subset.refl _)
    rw [hmoved]
    exact (findWordForward_inField hwords h.cursor).1

theorem Inv.deleteToLineStart : Inv s.deleteToLineStart := by
  unfold Input.deleteToLineStart
  split
  · exact h
  · exact h.edit ⟨0, rfl, Nat.zero_le _⟩ (List.Subset.refl _)

theorem Inv.deleteToLineEnd : Inv s.deleteToLineEnd := by
  obtain ⟨n, hcursor, hn⟩ := h.cursor
  unfold Input.deleteToLineEnd
  split
  · exact h
  · refine h.edit ⟨n, hcursor, ?_⟩ (List.Subset.refl _)
    show n ≤ (slice s.value 0 s.cursor).length
    rw [hcursor, slice_zero, List.length_take, Nat.min_eq_left hn]

theorem Inv.yank : Inv s.yank := by
  unfold Input.yank
  split
  · exact h
  · exact h
  · exact h.edit (@insertText_inField s.pushUndo _ h.cursor) (List.Subset.refl _)

theorem Inv.yankPop (hyank : s.Pops →
    InField s.value (s.cursor - ((KillRing.peek s.killRing).getD []).length)) :
    Inv s.yankPop := by
  unfold Input.yankPop
  split
  · rename_i hpops
    exact h.edit (insertText_inField _ (inField_cut (hyank hpops) h.cursor)) (List.Subset.refl _)
  · exact h

theorem Inv.cursorLeft (hgraphemes : IsGraphemes graphemes) : Inv (s.cursorLeft graphemes) := by
  unfold Input.cursorLeft
  dsimp only
  split
  · rename_i hpos
    exact h.edit (h.lastGrapheme hgraphemes hpos) (List.subset_cons_self _ _)
  · exact h.edit h.cursor (List.subset_cons_self _ _)

theorem Inv.cursorRight (hgraphemes : IsGraphemes graphemes) : Inv (s.cursorRight graphemes) := by
  unfold Input.cursorRight
  dsimp only
  split
  · rename_i hlt
    exact h.edit (h.firstGrapheme hgraphemes hlt) (List.subset_cons_self _ _)
  · exact h.edit h.cursor (List.subset_cons_self _ _)

theorem Inv.moveWordBackwards (hwords : IsSegmenter wordSegments) :
    Inv (s.moveWordBackwards wordSegments) := by
  unfold Input.moveWordBackwards
  split
  · exact h
  · exact h.edit (findWordBackward_inField hwords h.cursor).1 (List.subset_cons_self _ _)

theorem Inv.moveWordForwards (hwords : IsSegmenter wordSegments) :
    Inv (s.moveWordForwards wordSegments) := by
  unfold Input.moveWordForwards
  split
  · exact h
  · exact h.edit (findWordForward_inField hwords h.cursor).1 (List.subset_cons_self _ _)

theorem Inv.press (hgraphemes : IsGraphemes graphemes) (hwords : IsSegmenter wordSegments)
    (hyank : s.Pops →
      InField s.value (s.cursor - ((KillRing.peek s.killRing).getD []).length)) (key : InputKey) :
    Inv (s.press graphemes wordSegments key) := by
  cases key with
  | cancel => exact h
  | submit => exact h
  | undo => exact h.undo_step
  | deleteCharBackward => exact h.handleBackspace hgraphemes
  | deleteCharForward => exact h.handleForwardDelete hgraphemes
  | deleteWordBackward => exact h.deleteWordBackwards hwords
  | deleteWordForward => exact h.deleteWordForward hwords
  | deleteToLineStart => exact h.deleteToLineStart
  | deleteToLineEnd => exact h.deleteToLineEnd
  | yank => exact h.yank
  | yankPop => exact h.yankPop hyank
  | cursorLeft => exact h.cursorLeft hgraphemes
  | cursorRight => exact h.cursorRight hgraphemes
  | cursorLineStart => exact h.edit ⟨0, rfl, Nat.zero_le _⟩ (List.subset_cons_self _ _)
  | cursorLineEnd => exact h.edit ⟨s.value.length, rfl, Nat.le_refl _⟩ (List.subset_cons_self _ _)
  | cursorWordLeft => exact h.moveWordBackwards hwords
  | cursorWordRight => exact h.moveWordForwards hwords

end Cases

end Steps

end Input

end PiMono.Tui
