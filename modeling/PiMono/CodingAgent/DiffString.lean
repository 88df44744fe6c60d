import PiMono.CodingAgent.EditDiff
import PiMono.Lib.JsNumber

/-!
# Diffs for display

`generateDiffString` of `tools/edit-diff.ts` shows the parts of `Diff.diffLines` with line
numbers, and of the unchanged lines only those next to a change. The listing of all lines,
with the numbers they have in the contents, is what it should show; `DiffView` says which of
them it leaves out and where a `...` stands for them.
-/

namespace PiMono.CodingAgent

/-- A part of `Diff.diffLines`. -/
structure DiffPart where
  value : JsString
  added : Bool
  removed : Bool
  deriving DecidableEq

/-- `value.split("\n")`, without an empty piece at the end. -/
def partLines (value : JsString) : List JsString :=
  let raw := value.splitOn newline
  if raw.getLast? = some [] then raw.dropLast else raw

namespace DiffPart

/-- The lines of a part. -/
def raw (p : DiffPart) : List JsString := partLines p.value

/-- `part.added || part.removed` -/
def isChange (p : DiffPart) : Bool := p.added || p.removed

end DiffPart

/-- A line of the output. -/
inductive DiffLine where
  | added (lineNum : Nat) (line : JsString)
  | removed (lineNum : Nat) (line : JsString)
  | context (lineNum : Nat) (line : JsString)
  | gap
  deriving DecidableEq

/-- `" "` -/
def space : UInt16 := 0x20

/-- `s.padStart(width, " ")` -/
def padStart (width : Nat) (s : JsString) : JsString :=
  List.replicate (width - s.length) space ++ s

/-- `String(n)` -/
def lineNumText (n : Nat) : JsString := (JsNumber.ofNat n).text

/-- What is pushed for a line. -/
def DiffLine.text (lineNumWidth : Nat) : DiffLine → JsString
  | added n line => js "+" ++ padStart lineNumWidth (lineNumText n) ++ js " " ++ line
  | removed n line => js "-" ++ padStart lineNumWidth (lineNumText n) ++ js " " ++ line
  | context n line => js " " ++ padStart lineNumWidth (lineNumText n) ++ js " " ++ line
  | gap => js " " ++ padStart lineNumWidth [] ++ js " ..."

/-- The variables of the loop. -/
structure DiffState where
  output : List DiffLine
  oldLineNum : Nat
  newLineNum : Nat
  lastWasChange : Bool
  firstChangedLine : Option Nat
  deriving DecidableEq

namespace DiffState

/-- What the loop starts with. -/
def initial : DiffState := ⟨[], 1, 1, false, none⟩

def pushAdded (s : DiffState) (line : JsString) : DiffState :=
  { s with output := s.output ++ [.added s.newLineNum line], newLineNum := s.newLineNum + 1 }

def pushRemoved (s : DiffState) (line : JsString) : DiffState :=
  { s with output := s.output ++ [.removed s.oldLineNum line], oldLineNum := s.oldLineNum + 1 }

def pushContext (s : DiffState) (line : JsString) : DiffState :=
  { s with
    output := s.output ++ [.context s.oldLineNum line]
    oldLineNum := s.oldLineNum + 1
    newLineNum := s.newLineNum + 1 }

/-- Lines that are not shown are counted. -/
def skip (s : DiffState) (skippedLines : Nat) : DiffState :=
  { s with
    oldLineNum := s.oldLineNum + skippedLines
    newLineNum := s.newLineNum + skippedLines }

def pushGap (s : DiffState) : DiffState := { s with output := s.output ++ [.gap] }

/-- The lines of a part that is no change. -/
def showContext (contextLines : Nat) (raw : List JsString)
    (hasLeadingChange hasTrailingChange : Bool) (s : DiffState) : DiffState :=
  if hasLeadingChange && hasTrailingChange then
    if raw.length ≤ contextLines * 2 then raw.foldl pushContext s
    else
      let leadingLines := raw.take contextLines
      let trailingLines := raw.drop (raw.length - contextLines)
      let skippedLines := raw.length - leadingLines.length - trailingLines.length
      let s := (leadingLines.foldl pushContext s).pushGap.skip skippedLines
      trailingLines.foldl pushContext s
  else if hasLeadingChange then
    let shownLines := raw.take contextLines
    let skippedLines := raw.length - shownLines.length
    let s := shownLines.foldl pushContext s
    if 0 < skippedLines then s.pushGap.skip skippedLines else s
  else if hasTrailingChange then
    let skippedLines := raw.length - contextLines
    let s := if 0 < skippedLines then s.pushGap.skip skippedLines else s
    (raw.drop skippedLines).foldl pushContext s
  else s.skip raw.length

/-- The body of the loop: `nextPartIsChange` looks at the part behind this one. -/
def showPart (contextLines : Nat) (s : DiffState) (part : DiffPart) (nextPartIsChange : Bool) :
    DiffState :=
  if part.isChange then
    let s := { s with firstChangedLine := some (s.firstChangedLine.getD s.newLineNum) }
    let s := part.raw.foldl (if part.added then pushAdded else pushRemoved) s
    { s with lastWasChange := true }
  else
    { showContext contextLines part.raw s.lastWasChange nextPartIsChange s with
      lastWasChange := false }

/-- The loop over the parts. -/
def showParts (contextLines : Nat) (s : DiffState) : List DiffPart → DiffState
  | [] => s
  | part :: parts =>
    showParts contextLines (showPart contextLines s part (parts.head?.any DiffPart.isChange)) parts

end DiffState

/-- `lineNumWidth` -/
def lineNumWidth (oldContent newContent : JsString) : Nat :=
  (lineNumText (max (oldContent.splitOn newline).length (newContent.splitOn newline).length)).length

/-- `generateDiffString`: `diff` and `firstChangedLine`. -/
def generateDiffString (diffLines : JsString → JsString → List DiffPart)
    (oldContent newContent : JsString) (contextLines : Nat) : JsString × Option Nat :=
  let parts := diffLines oldContent newContent
  let s := DiffState.initial.showParts contextLines parts
  (joinLines (s.output.map (DiffLine.text (lineNumWidth oldContent newContent))),
    s.firstChangedLine)

/-! ## The lines of the parts -/

/-- Where a part ends and more content follows, a line ends. -/
def CutAtLineEnds (parts : List DiffPart) : Prop :=
  ∀ before part after, parts = before ++ part :: after →
    after.flatMap DiffPart.value ≠ [] → lastLine newline part.value = []

/-- The parts of the old content. -/
def oldParts (parts : List DiffPart) : List DiffPart := parts.filter (! ·.added)

/-- The parts of the new content. -/
def newParts (parts : List DiffPart) : List DiffPart := parts.filter (! ·.removed)

/-- What `Diff.diffLines` returns. -/
structure IsDiff (oldContent newContent : JsString) (parts : List DiffPart) : Prop where
  oneKind : ∀ part ∈ parts, ¬ (part.added = true ∧ part.removed = true)
  oldContent_eq : (oldParts parts).flatMap DiffPart.value = oldContent
  newContent_eq : (newParts parts).flatMap DiffPart.value = newContent
  oldCut : CutAtLineEnds (oldParts parts)
  newCut : CutAtLineEnds (newParts parts)

theorem diffLines_append {u : JsString} (hu : lastLine newline u = []) (v : JsString) :
    partLines (u ++ v) = partLines u ++ partLines v := by
  rcases lastLine_eq_nil.mp hu with rfl | hlast
  · rfl
  · obtain ⟨w, rfl⟩ := List.getLast?_eq_some_iff.mp hlast
    have hw : (w ++ [newline]).splitOn newline = w.splitOn newline ++ [[]] :=
      List.splitOn_append_cons_self w []
    have hwv : (w ++ [newline] ++ v).splitOn newline
        = w.splitOn newline ++ v.splitOn newline := by
      rw [List.append_assoc]
      exact List.splitOn_append_cons_self w v
    have hne := List.splitOn_ne_nil newline v
    have hend : (w.splitOn newline ++ v.splitOn newline).getLast? = (v.splitOn newline).getLast? :=
      List.getLast?_append_of_ne_nil _ hne
    simp only [partLines, hw, hwv, hend, List.getLast?_concat, List.dropLast_concat, if_true]
    by_cases hv : (v.splitOn newline).getLast? = some []
    · rw [if_pos hv, if_pos hv, List.dropLast_append_of_ne_nil hne]
    · rw [if_neg hv, if_neg hv]

theorem CutAtLineEnds.tail {part : DiffPart} {parts : List DiffPart}
    (h : CutAtLineEnds (part :: parts)) : CutAtLineEnds parts := by
  intro before p after heq
  exact h (part :: before) p after (by rw [heq, List.cons_append])

/-- The lines of the parts are the lines of the content. -/
theorem CutAtLineEnds.raw_eq {parts : List DiffPart} (h : CutAtLineEnds parts) :
    parts.flatMap DiffPart.raw = partLines (parts.flatMap DiffPart.value) := by
  induction parts with
  | nil => rfl
  | cons part parts ih =>
    rw [List.flatMap_cons, List.flatMap_cons, ih h.tail]
    by_cases hnil : parts.flatMap DiffPart.value = []
    · rw [hnil, List.append_nil]
      exact List.append_nil _
    · exact (diffLines_append (h [] part parts rfl hnil) _).symm

/-- The lines of a content are pieces of it, the last one possibly left out. -/
theorem diffLines_prefix (content : JsString) : partLines content <+: content.splitOn newline := by
  unfold partLines
  by_cases h : (content.splitOn newline).getLast? = some []
  · simp only [if_pos h]
    exact List.dropLast_prefix _
  · simp only [if_neg h]
    exact List.prefix_rfl

/-- `line` is line `n` of a content. -/
def IsLine (content : JsString) (n : Nat) (line : JsString) : Prop :=
  0 < n ∧ (content.splitOn newline)[n - 1]? = some line

/-! ## What there is to show -/

/-- Lines with the numbers from `n` on. -/
def numbered (f : Nat → JsString → DiffLine) : Nat → List JsString → List DiffLine
  | _, [] => []
  | n, line :: lines => f n line :: numbered f (n + 1) lines

namespace DiffPart

/-- The lines that a part has in the old content. -/
def oldLength (p : DiffPart) : Nat := if p.added then 0 else p.raw.length

/-- The lines that a part has in the new content. -/
def newLength (p : DiffPart) : Nat :=
  if p.added then p.raw.length else if p.removed then 0 else p.raw.length

/-- All lines of a part, the first one with the number `old` or `new`. -/
def listing (old new : Nat) (p : DiffPart) : List DiffLine :=
  if p.added then numbered .added new p.raw
  else if p.removed then numbered .removed old p.raw
  else numbered .context old p.raw

end DiffPart

/-- All lines of the parts. -/
def listing : Nat → Nat → List DiffPart → List DiffLine
  | _, _, [] => []
  | old, new, part :: parts =>
    part.listing old new ++ listing (old + part.oldLength) (new + part.newLength) parts

/-- Where the first change starts: the number of the line behind those in front of it. -/
def firstChange (new : Nat) (parts : List DiffPart) : Option Nat :=
  if parts.any DiffPart.isChange then
    some (new + ((parts.takeWhile (! ·.isChange)).flatMap DiffPart.raw).length)
  else none

/-- An unchanged line. -/
def DiffLine.IsContext (l : DiffLine) : Prop := ∃ n line, l = .context n line

/-- What a view of a listing leaves out: runs of unchanged lines, with or without a `...`
that stands for them. -/
inductive DiffView : List DiffLine → List DiffLine → Prop
  | nil : DiffView [] []
  | keep (l : DiffLine) {all shown : List DiffLine} (h : DiffView all shown) :
    DiffView (l :: all) (l :: shown)
  | gap {run all shown : List DiffLine} (hne : run ≠ []) (hrun : ∀ l ∈ run, l.IsContext)
    (h : DiffView all shown) : DiffView (run ++ all) (.gap :: shown)
  | skip {run all shown : List DiffLine} (hrun : ∀ l ∈ run, l.IsContext)
    (h : DiffView all shown) : DiffView (run ++ all) shown

namespace DiffView

theorem append {all shown all' shown' : List DiffLine} (h : DiffView all shown)
    (h' : DiffView all' shown') : DiffView (all ++ all') (shown ++ shown') := by
  induction h with
  | nil => exact h'
  | keep l _ ih => exact .keep l ih
  | gap hne hrun _ ih =>
    rw [List.append_assoc]
    exact .gap hne hrun ih
  | skip hrun _ ih =>
    rw [List.append_assoc]
    exact .skip hrun ih

theorem refl (all : List DiffLine) : DiffView all all := by
  induction all with
  | nil => exact .nil
  | cons l all ih => exact .keep l ih

/-- A view keeps what is picked from the changed lines. -/
theorem filterMap_eq {β : Type} {pick : DiffLine → Option β} (hgap : pick .gap = none)
    (hcontext : ∀ n line, pick (.context n line) = none) {all shown : List DiffLine}
    (h : DiffView all shown) : shown.filterMap pick = all.filterMap pick := by
  have hrun : ∀ run : List DiffLine, (∀ l ∈ run, l.IsContext) → run.filterMap pick = [] := by
    intro run hrun
    refine List.filterMap_eq_nil_iff.mpr fun l hl => ?_
    obtain ⟨n, line, rfl⟩ := hrun l hl
    exact hcontext n line
  induction h with
  | nil => rfl
  | keep l _ ih => rw [List.filterMap_cons, List.filterMap_cons, ih]
  | gap _ hctx _ ih =>
    rw [List.filterMap_append, hrun _ hctx, List.filterMap_cons_none hgap, ih, List.nil_append]
  | skip hctx _ ih => rw [List.filterMap_append, hrun _ hctx, ih, List.nil_append]

/-- No line is shown that the listing does not have. -/
theorem mem {all shown : List DiffLine} (h : DiffView all shown) {l : DiffLine} (hl : l ∈ shown) :
    l = .gap ∨ l ∈ all := by
  induction h with
  | nil => exact absurd hl List.not_mem_nil
  | keep m _ ih =>
    rcases List.mem_cons.mp hl with rfl | hl
    · exact Or.inr List.mem_cons_self
    · exact (ih hl).imp_right (List.mem_cons_of_mem m)
  | gap _ _ _ ih =>
    rcases List.mem_cons.mp hl with rfl | hl
    · exact Or.inl rfl
    · exact (ih hl).imp_right (List.mem_append_right _)
  | skip _ _ ih => exact (ih hl).imp_right (List.mem_append_right _)

end DiffView

/-! ## The loop shows the listing -/

@[simp] theorem numbered_nil (f : Nat → JsString → DiffLine) (n : Nat) : numbered f n [] = [] := rfl

theorem numbered_append (f : Nat → JsString → DiffLine) (n : Nat) (lines more : List JsString) :
    numbered f n (lines ++ more) = numbered f n lines ++ numbered f (n + lines.length) more := by
  induction lines generalizing n with
  | nil => rfl
  | cons line lines ih =>
    show f n line :: numbered f (n + 1) (lines ++ more) = _
    rw [ih, List.length_cons, Nat.add_right_comm, Nat.add_assoc]
    rfl

theorem isContext_of_mem {n : Nat} {lines : List JsString} {l : DiffLine}
    (h : l ∈ numbered .context n lines) : l.IsContext := by
  induction lines generalizing n with
  | nil => exact absurd h List.not_mem_nil
  | cons line lines ih =>
    rcases List.mem_cons.mp h with rfl | h
    · exact ⟨n, line, rfl⟩
    · exact ih h

namespace DiffState

/-- From `s` to `s'` the loop has shown a view of `all`, and has counted the lines of both
contents. -/
structure Shown (s : DiffState) (all : List DiffLine) (old new : Nat) (s' : DiffState) : Prop where
  output : ∃ shown, s'.output = s.output ++ shown ∧ DiffView all shown
  oldLineNum : s'.oldLineNum = s.oldLineNum + old
  newLineNum : s'.newLineNum = s.newLineNum + new
  firstChangedLine : s'.firstChangedLine = s.firstChangedLine

/-- What is shown of unchanged lines. -/
abbrev ShownContext (s : DiffState) (lines : List JsString) (s' : DiffState) : Prop :=
  Shown s (numbered .context s.oldLineNum lines) lines.length lines.length s'

namespace Shown

theorem refl (s : DiffState) : Shown s [] 0 0 s :=
  ⟨⟨[], (List.append_nil _).symm, .nil⟩, rfl, rfl, rfl⟩

theorem trans {s s' s'' : DiffState} {all all' : List DiffLine} {old new old' new' : Nat}
    (h : Shown s all old new s') (h' : Shown s' all' old' new' s'') :
    Shown s (all ++ all') (old + old') (new + new') s'' := by
  obtain ⟨shown, hout, hview⟩ := h.output
  obtain ⟨shown', hout', hview'⟩ := h'.output
  constructor
  · exact ⟨shown ++ shown', by rw [hout', hout, List.append_assoc], hview.append hview'⟩
  · rw [h'.oldLineNum, h.oldLineNum, Nat.add_assoc]
  · rw [h'.newLineNum, h.newLineNum, Nat.add_assoc]
  · rw [h'.firstChangedLine, h.firstChangedLine]

end Shown

/-- Unchanged lines behind unchanged lines. -/
theorem ShownContext.trans {s s' s'' : DiffState} {lines more : List JsString}
    (h : ShownContext s lines s') (h' : ShownContext s' more s'') :
    ShownContext s (lines ++ more) s'' := by
  have hboth := Shown.trans h h'
  rw [h.oldLineNum, ← numbered_append] at hboth
  unfold ShownContext
  rw [List.length_append]
  exact hboth

theorem foldl_pushAdded (lines : List JsString) (s : DiffState) :
    Shown s (numbered .added s.newLineNum lines) 0 lines.length (lines.foldl pushAdded s) := by
  induction lines generalizing s with
  | nil => exact Shown.refl s
  | cons line lines ih =>
    have hone : Shown s [.added s.newLineNum line] 0 1 (s.pushAdded line) :=
      ⟨⟨_, rfl, DiffView.refl _⟩, rfl, rfl, rfl⟩
    rw [List.length_cons, Nat.add_comm]
    exact hone.trans (ih (s.pushAdded line))

theorem foldl_pushRemoved (lines : List JsString) (s : DiffState) :
    Shown s (numbered .removed s.oldLineNum lines) lines.length 0 (lines.foldl pushRemoved s) := by
  induction lines generalizing s with
  | nil => exact Shown.refl s
  | cons line lines ih =>
    have hone : Shown s [.removed s.oldLineNum line] 1 0 (s.pushRemoved line) :=
      ⟨⟨_, rfl, DiffView.refl _⟩, rfl, rfl, rfl⟩
    rw [List.length_cons, Nat.add_comm]
    exact hone.trans (ih (s.pushRemoved line))

theorem foldl_pushContext (lines : List JsString) (s : DiffState) :
    ShownContext s lines (lines.foldl pushContext s) := by
  induction lines generalizing s with
  | nil => exact Shown.refl s
  | cons line lines ih =>
    have hone : ShownContext s [line] (s.pushContext line) :=
      ⟨⟨_, rfl, DiffView.refl _⟩, rfl, rfl, rfl⟩
    exact hone.trans (ih (s.pushContext line))

/-- Lines left out without a trace. -/
theorem skip_shown (s : DiffState) (lines : List JsString) :
    ShownContext s lines (s.skip lines.length) := by
  refine ⟨⟨[], (List.append_nil _).symm, ?_⟩, rfl, rfl, rfl⟩
  rw [← List.append_nil (numbered .context s.oldLineNum lines)]
  exact .skip (fun l hl => isContext_of_mem hl) .nil

/-- A `...` with the lines it stands for. -/
theorem gap_shown (s : DiffState) {lines : List JsString} (hne : lines ≠ []) :
    ShownContext s lines (s.pushGap.skip lines.length) := by
  refine ⟨⟨[.gap], rfl, ?_⟩, rfl, rfl, rfl⟩
  rw [← List.append_nil (numbered .context s.oldLineNum lines)]
  refine .gap ?_ (fun l hl => isContext_of_mem hl) .nil
  obtain ⟨line, rest, rfl⟩ := List.exists_cons_of_ne_nil hne
  exact List.cons_ne_nil _ _

/-- The lines between the shown ones, if there are any. -/
theorem skipped_shown (s : DiffState) (lines : List JsString) :
    ShownContext s lines (if 0 < lines.length then s.pushGap.skip lines.length else s) := by
  by_cases h : 0 < lines.length
  · rw [if_pos h]
    exact gap_shown s (List.ne_nil_of_length_pos h)
  · rw [if_neg h]
    obtain rfl := List.eq_nil_of_length_eq_zero (Nat.eq_zero_of_not_pos h)
    exact Shown.refl s

/-- **Context.** In each of its branches `showContext` counts all lines of the part, and
shows a view of them. -/
theorem showContext_shown (contextLines : Nat) (raw : List JsString)
    (hasLeadingChange hasTrailingChange : Bool) (s : DiffState) :
    ShownContext s raw (showContext contextLines raw hasLeadingChange hasTrailingChange s) := by
  cases hasLeadingChange with
  | true =>
    cases hasTrailingChange with
    | true =>
      show ShownContext s raw (if raw.length ≤ contextLines * 2 then _ else _)
      by_cases hfew : raw.length ≤ contextLines * 2
      · rw [if_pos hfew]
        exact foldl_pushContext raw s
      · rw [if_neg hfew]
        -- the part in front of the gap, the gap, the part behind it
        obtain ⟨middle, hmiddle⟩ : ∃ middle,
            middle = (raw.drop contextLines).take (raw.length - contextLines - contextLines) :=
          ⟨_, rfl⟩
        have hsplit : raw = raw.take contextLines
            ++ (middle ++ raw.drop (raw.length - contextLines)) := by
          have hdrop : raw.drop (raw.length - contextLines)
              = (raw.drop contextLines).drop (raw.length - contextLines - contextLines) := by
            rw [List.drop_drop]
            congr 1
            omega
          rw [hmiddle, hdrop, List.take_append_drop, List.take_append_drop]
        have hskipped : raw.length - (raw.take contextLines).length
            - (raw.drop (raw.length - contextLines)).length = middle.length := by
          rw [hmiddle]
          simp only [List.length_take, List.length_drop]
          omega
        have hne : middle ≠ [] := by
          refine List.ne_nil_of_length_pos ?_
          rw [hmiddle]
          simp only [List.length_take, List.length_drop]
          omega
        have hall := (foldl_pushContext (raw.take contextLines) s).trans
          ((gap_shown _ hne).trans (foldl_pushContext (raw.drop (raw.length - contextLines)) _))
        rw [← hsplit] at hall
        simp only [hskipped]
        exact hall
    | false =>
      have hskipped : raw.length - (raw.take contextLines).length
          = (raw.drop contextLines).length := by
        rw [List.length_take, List.length_drop]
        omega
      have hall := (foldl_pushContext (raw.take contextLines) s).trans
        (skipped_shown _ (raw.drop contextLines))
      rw [List.take_append_drop, ← hskipped] at hall
      exact hall
  | false =>
    cases hasTrailingChange with
    | true =>
      have hskipped : (raw.take (raw.length - contextLines)).length
          = raw.length - contextLines := by
        rw [List.length_take]
        omega
      have hall := (skipped_shown s (raw.take (raw.length - contextLines))).trans
        (foldl_pushContext (raw.drop (raw.length - contextLines)) _)
      rw [List.take_append_drop, hskipped] at hall
      exact hall
    | false => exact skip_shown s raw

/-- One part. -/
theorem showPart_shown (contextLines : Nat) (s : DiffState) (part : DiffPart) (next : Bool) :
    ∃ first, (first = if part.isChange then some (s.firstChangedLine.getD s.newLineNum)
        else s.firstChangedLine) ∧
      Shown { s with firstChangedLine := first } (part.listing s.oldLineNum s.newLineNum)
        part.oldLength part.newLength (showPart contextLines s part next) := by
  refine ⟨_, rfl, ?_⟩
  unfold showPart DiffPart.listing DiffPart.oldLength DiffPart.newLength DiffPart.isChange
  obtain ⟨value, added, removed⟩ := part
  cases added with
  | true =>
    have h := foldl_pushAdded (partLines value)
      { s with firstChangedLine := some (s.firstChangedLine.getD s.newLineNum) }
    exact ⟨h.output, h.oldLineNum, h.newLineNum, h.firstChangedLine⟩
  | false =>
    cases removed with
    | true =>
      have h := foldl_pushRemoved (partLines value)
        { s with firstChangedLine := some (s.firstChangedLine.getD s.newLineNum) }
      exact ⟨h.output, h.oldLineNum, h.newLineNum, h.firstChangedLine⟩
    | false =>
      have h := showContext_shown contextLines (partLines value) s.lastWasChange next s
      exact ⟨h.output, h.oldLineNum, h.newLineNum, h.firstChangedLine⟩

/-- **The loop** shows a view of the listing. -/
theorem showParts_shown (contextLines : Nat) (parts : List DiffPart) (s : DiffState) :
    ∃ shown, (s.showParts contextLines parts).output = s.output ++ shown ∧
      DiffView (listing s.oldLineNum s.newLineNum parts) shown := by
  induction parts generalizing s with
  | nil => exact ⟨[], (List.append_nil _).symm, .nil⟩
  | cons part parts ih =>
    obtain ⟨first, -, hone⟩ :=
      showPart_shown contextLines s part (parts.head?.any DiffPart.isChange)
    obtain ⟨shown, hout, hview⟩ := hone.output
    obtain ⟨rest, hrest, hviewRest⟩ :=
      ih (showPart contextLines s part (parts.head?.any DiffPart.isChange))
    refine ⟨shown ++ rest, ?_, ?_⟩
    · show (showParts contextLines (showPart contextLines s part _) parts).output = _
      rw [hrest, hout, List.append_assoc]
    · rw [hone.oldLineNum, hone.newLineNum] at hviewRest
      exact hview.append hviewRest

/-- The loop keeps the line at which the first change starts. -/
theorem showParts_firstChangedLine (contextLines : Nat) (parts : List DiffPart) (s : DiffState) :
    (s.showParts contextLines parts).firstChangedLine
      = s.firstChangedLine.or (firstChange s.newLineNum parts) := by
  induction parts generalizing s with
  | nil => exact (Option.or_none).symm
  | cons part parts ih =>
    obtain ⟨first, hfirst, hone⟩ :=
      showPart_shown contextLines s part (parts.head?.any DiffPart.isChange)
    show (showParts contextLines (showPart contextLines s part _) parts).firstChangedLine = _
    rw [ih, hone.firstChangedLine, hone.newLineNum]
    show first.or _ = _
    cases hchange : part.isChange with
    | true =>
      obtain rfl : first = some (s.firstChangedLine.getD s.newLineNum) := by
        rw [hfirst, if_pos hchange]
      have hany : firstChange s.newLineNum (part :: parts) = some s.newLineNum := by
        simp [firstChange, hchange]
      rw [hany]
      cases s.firstChangedLine <;> rfl
    | false =>
      obtain rfl : first = s.firstChangedLine := by rw [hfirst, hchange]; rfl
      have hnew : part.newLength = part.raw.length := by
        obtain ⟨value, added, removed⟩ := part
        obtain ⟨rfl, rfl⟩ : added = false ∧ removed = false := Bool.or_eq_false_iff.mp hchange
        rfl
      have hstep : firstChange s.newLineNum (part :: parts)
          = firstChange (s.newLineNum + part.newLength) parts := by
        simp [firstChange, hchange, hnew, Nat.add_assoc]
      rw [hstep]

end DiffState

/-! ## The listing has the lines of the contents -/

/-- The lines of the old content, each with whether it is removed. -/
def oldMarked (parts : List DiffPart) : List (JsString × Bool) :=
  (oldParts parts).flatMap fun p => p.raw.map (·, p.removed)

/-- The lines of the new content, each with whether it is added. -/
def newMarked (parts : List DiffPart) : List (JsString × Bool) :=
  (newParts parts).flatMap fun p => p.raw.map (·, p.added)

/-- The marked lines with their numbers. -/
def markedLines (marked : List (JsString × Bool)) : List (Nat × JsString) :=
  (marked.zipIdx 1).filterMap fun x => if x.1.2 then some (x.2, x.1.1) else none

/-- The added lines, with their numbers in the new content. -/
def addedLines (parts : List DiffPart) : List (Nat × JsString) := markedLines (newMarked parts)

/-- The removed lines, with their numbers in the old content. -/
def removedLines (parts : List DiffPart) : List (Nat × JsString) := markedLines (oldMarked parts)

/-- The entries of the old content in a listing. -/
def DiffLine.old? : DiffLine → Option ((JsString × Bool) × Nat)
  | removed n line => some ((line, true), n)
  | context n line => some ((line, false), n)
  | added _ _ | gap => none

/-- The added lines in a listing. -/
def DiffLine.added? : DiffLine → Option (Nat × JsString)
  | added n line => some (n, line)
  | _ => none

/-- The removed lines in a listing. -/
def DiffLine.removed? : DiffLine → Option (Nat × JsString)
  | removed n line => some (n, line)
  | _ => none

/-- Lines of one kind. -/
theorem filterMap_numbered {β : Type} {f : Nat → JsString → DiffLine} {pick : DiffLine → Option β}
    {flag : Bool} {entry : (JsString × Bool) × Nat → Option β}
    (h : ∀ n line, pick (f n line) = entry ((line, flag), n)) (n : Nat) (lines : List JsString) :
    (numbered f n lines).filterMap pick
      = ((lines.map (·, flag)).zipIdx n).filterMap entry := by
  induction lines generalizing n with
  | nil => rfl
  | cons line lines ih =>
    rw [List.map_cons, List.zipIdx_cons, List.filterMap_cons, ← ih, ← h]
    rfl

/-- What is picked from the listing by the old content. -/
theorem filterMap_listing_old {β : Type} {pick : DiffLine → Option β}
    {entry : (JsString × Bool) × Nat → Option β}
    (hadded : ∀ n line, pick (.added n line) = none)
    (hremoved : ∀ n line, pick (.removed n line) = entry ((line, true), n))
    (hcontext : ∀ n line, pick (.context n line) = entry ((line, false), n))
    (old new : Nat) (parts : List DiffPart) :
    (listing old new parts).filterMap pick = ((oldMarked parts).zipIdx old).filterMap entry := by
  induction parts generalizing old new with
  | nil => rfl
  | cons part parts ih =>
    rw [listing, List.filterMap_append, ih]
    obtain ⟨value, added, removed⟩ := part
    cases added with
    | true =>
      have hnone : (numbered .added new (partLines value)).filterMap pick = [] := by
        rw [@filterMap_numbered β .added pick true (fun _ => none) hadded]
        exact List.filterMap_eq_nil_iff.mpr fun _ _ => rfl
      show (numbered .added new (partLines value)).filterMap pick ++ _ = _
      rw [hnone]
      rfl
    | false =>
      have hcons : oldMarked (⟨value, false, removed⟩ :: parts)
          = (partLines value).map (·, removed) ++ oldMarked parts := rfl
      rw [hcons, List.zipIdx_append, List.filterMap_append, List.length_map]
      congr 1
      cases removed with
      | true => exact filterMap_numbered hremoved old (partLines value)
      | false => exact filterMap_numbered hcontext old (partLines value)

/-- What is picked from the listing by the new content: unchanged lines have their old numbers
there, so that they are not picked. -/
theorem filterMap_listing_new {parts : List DiffPart}
    (hkind : ∀ part ∈ parts, ¬ (part.added = true ∧ part.removed = true)) (old new : Nat) :
    (listing old new parts).filterMap DiffLine.added?
      = ((newMarked parts).zipIdx new).filterMap fun x =>
        if x.1.2 then some (x.2, x.1.1) else none := by
  induction parts generalizing old new with
  | nil => rfl
  | cons part parts ih =>
    rw [listing, List.filterMap_append, ih fun p hp => hkind p (List.mem_cons_of_mem part hp)]
    have hone := hkind part List.mem_cons_self
    obtain ⟨value, added, removed⟩ := part
    cases removed with
    | true =>
      obtain rfl : added = false := by simpa using hone
      show (numbered .removed old (partLines value)).filterMap DiffLine.added? ++ _ = _
      rw [@filterMap_numbered _ .removed DiffLine.added? true (fun _ => none) fun _ _ => rfl,
        List.filterMap_eq_nil_iff.mpr fun _ _ => rfl]
      rfl
    | false =>
      have hcons : newMarked (⟨value, added, false⟩ :: parts)
          = (partLines value).map (·, added) ++ newMarked parts := rfl
      rw [hcons, List.zipIdx_append, List.filterMap_append, List.length_map]
      cases added with
      | true =>
        congr 1
        exact filterMap_numbered (fun _ _ => rfl) new (partLines value)
      | false =>
        congr 1
        show (numbered .context old (partLines value)).filterMap DiffLine.added? = _
        rw [@filterMap_numbered _ .context DiffLine.added? false (fun _ => none) fun _ _ => rfl,
          List.filterMap_eq_nil_iff.mpr fun _ _ => rfl]
        refine (List.filterMap_eq_nil_iff.mpr fun x hx => ?_).symm
        obtain ⟨line, -, hline⟩ := List.mem_map.mp (List.fst_mem_of_mem_zipIdx hx)
        rw [← hline]
        rfl

theorem oldMarked_lines {oldContent newContent : JsString} {parts : List DiffPart}
    (h : IsDiff oldContent newContent parts) :
    (oldMarked parts).map Prod.fst = partLines oldContent := by
  rw [← h.oldContent_eq, ← h.oldCut.raw_eq, oldMarked, List.map_flatMap]
  simp only [List.map_map, Function.comp_def, List.map_id']

theorem newMarked_lines {oldContent newContent : JsString} {parts : List DiffPart}
    (h : IsDiff oldContent newContent parts) :
    (newMarked parts).map Prod.fst = partLines newContent := by
  rw [← h.newContent_eq, ← h.newCut.raw_eq, newMarked, List.map_flatMap]
  simp only [List.map_map, Function.comp_def, List.map_id']

/-- The number of a marked line is the number it has in the content. -/
theorem isLine_of_marked {content : JsString} {marked : List (JsString × Bool)}
    (h : marked.map Prod.fst = partLines content) {x : (JsString × Bool) × Nat}
    (hx : x ∈ marked.zipIdx 1) : IsLine content x.2 x.1.1 := by
  obtain ⟨⟨line, flag⟩, n⟩ := x
  obtain ⟨hpos, hn⟩ := List.mem_zipIdx_iff_le_and_getElem?_sub.mp hx
  have hline : (partLines content)[n - 1]? = some line := by
    rw [← h, List.getElem?_map, hn]
    rfl
  obtain ⟨tail, htail⟩ := diffLines_prefix content
  refine ⟨hpos, ?_⟩
  rw [← htail, List.getElem?_append_left (List.getElem?_eq_some_iff.mp hline).1]
  exact hline

/-- A line of the listing is the line of that number. -/
theorem listing_isLine {oldContent newContent : JsString} {parts : List DiffPart}
    (h : IsDiff oldContent newContent parts) (n : Nat) (line : JsString) :
    (.added n line ∈ listing 1 1 parts → IsLine newContent n line) ∧
      (.removed n line ∈ listing 1 1 parts → IsLine oldContent n line) ∧
      (.context n line ∈ listing 1 1 parts → IsLine oldContent n line) := by
  have hold : (listing 1 1 parts).filterMap DiffLine.old? = (oldMarked parts).zipIdx 1 := by
    rw [@filterMap_listing_old _ DiffLine.old? some (fun _ _ => rfl) (fun _ _ => rfl)
      fun _ _ => rfl, List.filterMap_some]
  refine ⟨fun hl => ?_, fun hl => ?_, fun hl => ?_⟩
  · have hmem : (n, line) ∈ (listing 1 1 parts).filterMap DiffLine.added? :=
      List.mem_filterMap.mpr ⟨_, hl, rfl⟩
    rw [filterMap_listing_new h.oneKind] at hmem
    obtain ⟨x, hx, hsome⟩ := List.mem_filterMap.mp hmem
    by_cases hflag : x.1.2
    · rw [if_pos hflag] at hsome
      obtain ⟨rfl, rfl⟩ := Prod.mk.inj (Option.some.inj hsome)
      exact isLine_of_marked (newMarked_lines h) hx
    · rw [if_neg hflag] at hsome
      cases hsome
  · have hmem : ((line, true), n) ∈ (oldMarked parts).zipIdx 1 := by
      rw [← hold]
      exact List.mem_filterMap.mpr ⟨_, hl, rfl⟩
    exact isLine_of_marked (oldMarked_lines h) hmem
  · have hmem : ((line, false), n) ∈ (oldMarked parts).zipIdx 1 := by
      rw [← hold]
      exact List.mem_filterMap.mpr ⟨_, hl, rfl⟩
    exact isLine_of_marked (oldMarked_lines h) hmem

/-! ## A line is read back from its text -/

theorem isNumberUnit_of_run {us : JsString} {a b : NumAcc} (h : a.run us = some b) :
    ∀ u ∈ us, NumAcc.isNumberUnit u = true := by
  induction us generalizing a with
  | nil => exact fun u hu => absurd hu List.not_mem_nil
  | cons v us ih =>
    rw [NumAcc.run_cons] at h
    obtain ⟨c, hc, hrun⟩ := Option.bind_eq_some_iff.mp h
    intro u hu
    rcases List.mem_cons.mp hu with rfl | hu
    · by_contra hnot
      rw [NumAcc.step_of_not_numberUnit (Bool.eq_false_iff.mpr hnot)] at hc
      cases hc
    · exact ih hrun u hu

theorem lineNumText_ne_nil (n : Nat) : lineNumText n ≠ [] := by
  intro hnil
  obtain ⟨a, hread, -, -⟩ := NumAcc.read_text (JsNumber.ofNat n)
  rw [show (JsNumber.ofNat n).text = [] from hnil] at hread
  cases hread

/-- The units of a number. -/
theorem isNumberUnit_of_mem {n : Nat} {u : UInt16} (hu : u ∈ lineNumText n) :
    NumAcc.isNumberUnit u = true := by
  obtain ⟨a, hread, -, -⟩ := NumAcc.read_text (JsNumber.ofNat n)
  obtain ⟨v, us, htext⟩ := List.exists_cons_of_ne_nil (lineNumText_ne_nil n)
  rw [show (JsNumber.ofNat n).text = v :: us from htext] at hread
  obtain ⟨b, hfirst, hrun⟩ := Option.bind_eq_some_iff.mp hread
  rw [htext] at hu
  rcases List.mem_cons.mp hu with rfl | hu
  · unfold NumAcc.first at hfirst
    by_cases hminus : u = 0x2D
    · rw [hminus]
      rfl
    · rw [if_neg hminus] at hfirst
      obtain ⟨d, hd, -⟩ := Option.map_eq_some_iff.mp hfirst
      simp [NumAcc.isNumberUnit, hd]
  · exact isNumberUnit_of_run hrun u hu

theorem lineNumText_inj {m n : Nat} (h : lineNumText m = lineNumText n) : m = n := by
  obtain ⟨a, hread, -, hm⟩ := NumAcc.read_text (JsNumber.ofNat m)
  obtain ⟨b, hread', -, hn⟩ := NumAcc.read_text (JsNumber.ofNat n)
  rw [show (JsNumber.ofNat m).text = (JsNumber.ofNat n).text from h, hread'] at hread
  obtain rfl := Option.some.inj hread
  exact JsNumber.ofNat_inj.mp (hm.symm.trans hn)

theorem space_not_number : NumAcc.isNumberUnit space = false := by decide

theorem dropWhile_padding (k : Nat) (us : JsString) :
    (List.replicate k space ++ us).dropWhile (· == space) = us.dropWhile (· == space) := by
  refine List.dropWhile_append_of_pos fun u hu => ?_
  rw [List.eq_of_mem_replicate hu]
  rfl

/-- A padded number, and what stands behind the space. -/
theorem read_padded (width n : Nat) (line : JsString) :
    (padStart width (lineNumText n) ++ js " " ++ line).dropWhile (· == space)
      = lineNumText n ++ space :: line := by
  have hspace : js " " = [space] := by decide
  rw [padStart, hspace, List.append_assoc, List.append_assoc, dropWhile_padding]
  obtain ⟨u, us, htext⟩ := List.exists_cons_of_ne_nil (lineNumText_ne_nil n)
  have hu : (u == space) = false := by
    rw [beq_eq_false_iff_ne]
    rintro rfl
    have hnumber := @isNumberUnit_of_mem n space (htext ▸ List.mem_cons_self)
    rw [space_not_number] at hnumber
    cases hnumber
  rw [htext, List.cons_append, List.dropWhile_cons, hu]
  rfl

/-- The number and the line are read back. -/
theorem padded_inj {width m n : Nat} {line line' : JsString}
    (h : padStart width (lineNumText m) ++ js " " ++ line
      = padStart width (lineNumText n) ++ js " " ++ line') : m = n ∧ line = line' := by
  have hdrop := read_padded width m line
  rw [h, read_padded] at hdrop
  have htake : ∀ (k : Nat) (rest : JsString),
      (lineNumText k ++ space :: rest).takeWhile NumAcc.isNumberUnit = lineNumText k := by
    intro k rest
    rw [List.takeWhile_append_of_pos fun u hu => isNumberUnit_of_mem hu,
      List.takeWhile_cons_of_neg (by rw [space_not_number]; decide), List.append_nil]
  have hnum : lineNumText n = lineNumText m := by
    rw [← htake n line', hdrop, htake m line]
  obtain rfl := lineNumText_inj hnum
  exact ⟨rfl, (List.cons.inj (List.append_cancel_left hdrop)).2.symm⟩

/-- A `...` is no context line. -/
theorem gap_ne_padded (width n : Nat) (line : JsString) :
    padStart width [] ++ js " ..." ≠ padStart width (lineNumText n) ++ js " " ++ line := by
  intro h
  have hdrop := read_padded width n line
  rw [← h, padStart, List.append_nil, dropWhile_padding] at hdrop
  -- a space stands behind the number, and none behind the dots
  have hmem : space ∈ (js " ...").dropWhile (· == space) := by
    rw [hdrop]
    exact List.mem_append_right _ List.mem_cons_self
  exact absurd hmem (by decide)

namespace DiffLine

/-- The first unit of a line. -/
def mark : DiffLine → UInt16
  | added .. => 0x2B
  | removed .. => 0x2D
  | context .. | gap => space

/-- What stands behind the first unit. -/
def body (width : Nat) : DiffLine → JsString
  | added n line | removed n line | context n line =>
    padStart width (lineNumText n) ++ js " " ++ line
  | gap => padStart width [] ++ js " ..."

theorem text_eq (width : Nat) (l : DiffLine) : l.text width = l.mark :: l.body width := by
  cases l with
  | added n line =>
    have hplus : js "+" = [0x2B] := by decide
    rw [text, hplus]
    rfl
  | removed n line =>
    have hminus : js "-" = [0x2D] := by decide
    rw [text, hminus]
    rfl
  | context n line =>
    have hspace : js " " = [space] := by decide
    rw [text, body, hspace]
    rfl
  | gap =>
    have hspace : js " " = [space] := by decide
    rw [text, hspace]
    rfl

/-- **Reading back.** Different lines have different texts. -/
theorem text_injective (width : Nat) : Function.Injective (text width) := by
  intro a b h
  rw [text_eq, text_eq] at h
  obtain ⟨hmark, hbody⟩ := List.cons.inj h
  cases a with
  | added m line =>
    cases b with
    | added n line' =>
      obtain ⟨rfl, rfl⟩ := padded_inj hbody
      rfl
    | _ => simp [mark, space] at hmark
  | removed m line =>
    cases b with
    | removed n line' =>
      obtain ⟨rfl, rfl⟩ := padded_inj hbody
      rfl
    | _ => simp [mark, space] at hmark
  | context m line =>
    cases b with
    | context n line' =>
      obtain ⟨rfl, rfl⟩ := padded_inj hbody
      rfl
    | gap => exact absurd hbody.symm (gap_ne_padded width m line)
    | _ => simp [mark, space] at hmark
  | gap =>
    cases b with
    | gap => rfl
    | context n line => exact absurd hbody (gap_ne_padded width n line)
    | _ => simp [mark, space] at hmark

/-- A line that the contents have under its number. -/
def IsTrue (oldContent newContent : JsString) : DiffLine → Prop
  | added n line => IsLine newContent n line
  | removed n line | context n line => IsLine oldContent n line
  | gap => True

/-- A true line has no line feed. -/
theorem newline_notMem {oldContent newContent : JsString} {l : DiffLine}
    (h : l.IsTrue oldContent newContent) (width : Nat) : newline ∉ l.text width := by
  have hspaces : ∀ k, newline ∉ List.replicate k space := by
    intro k hk
    exact absurd (List.eq_of_mem_replicate hk) (by decide)
  have hpadded : ∀ {content : JsString} {n : Nat} {line : JsString}, IsLine content n line →
      newline ∉ padStart width (lineNumText n) ++ js " " ++ line := by
    intro content n line hline hmem
    rcases List.mem_append.mp hmem with hmem | hmem
    · rcases List.mem_append.mp hmem with hmem | hmem
      · rcases List.mem_append.mp hmem with hmem | hmem
        · exact hspaces _ hmem
        · have hnumber := isNumberUnit_of_mem hmem
          exact absurd hnumber (by decide)
      · exact absurd hmem (by decide)
    · exact notMem_of_mem_splitOn (List.mem_of_getElem? hline.2) hmem
  rw [text_eq]
  refine List.not_mem_cons_of_ne_of_not_mem ?_ ?_
  · cases l <;> simp [mark, newline, space]
  · cases l with
    | added n line => exact hpadded h
    | removed n line => exact hpadded h
    | context n line => exact hpadded h
    | gap =>
      intro hmem
      rcases List.mem_append.mp hmem with hmem | hmem
      · rw [padStart, List.append_nil] at hmem
        exact hspaces _ hmem
      · exact absurd hmem (by decide)

end DiffLine

/-- The lines of a joined output. -/
theorem splitOn_text {oldContent newContent : JsString} {output : List DiffLine}
    (h : ∀ l ∈ output, l.IsTrue oldContent newContent) (width : Nat) {l : DiffLine}
    (hl : l.text width ∈ (joinLines (output.map (DiffLine.text width))).splitOn newline) :
    l ∈ output := by
  cases output with
  | nil =>
    have hnil : l.text width = [] := List.mem_singleton.mp hl
    rw [DiffLine.text_eq] at hnil
    cases hnil
  | cons first output =>
    have hlines : ∀ line ∈ (first :: output).map (DiffLine.text width), newline ∉ line := by
      intro line hline
      obtain ⟨m, hm, rfl⟩ := List.mem_map.mp hline
      exact DiffLine.newline_notMem (h m hm) width
    rw [joinLines, List.splitOn_intercalate newline hlines (List.cons_ne_nil _ _)] at hl
    obtain ⟨m, hm, htext⟩ := List.mem_map.mp hl
    exact DiffLine.text_injective width htext ▸ hm

/-! ## Displayed diffs -/

/-- What the loop has pushed. -/
def diffOutput (parts : List DiffPart) (contextLines : Nat) : List DiffLine :=
  (DiffState.initial.showParts contextLines parts).output

theorem diffOutput_view (parts : List DiffPart) (contextLines : Nat) :
    DiffView (listing 1 1 parts) (diffOutput parts contextLines) := by
  obtain ⟨shown, hout, hview⟩ := DiffState.showParts_shown contextLines parts .initial
  rw [diffOutput, hout]
  exact hview

theorem diffOutput_isTrue {oldContent newContent : JsString} {parts : List DiffPart}
    (h : IsDiff oldContent newContent parts) (contextLines : Nat) :
    ∀ l ∈ diffOutput parts contextLines, l.IsTrue oldContent newContent := by
  intro l hl
  rcases (diffOutput_view parts contextLines).mem hl with rfl | hmem
  · exact True.intro
  · cases l with
    | added n line => exact (listing_isLine h n line).1 hmem
    | removed n line => exact (listing_isLine h n line).2.1 hmem
    | context n line => exact (listing_isLine h n line).2.2 hmem
    | gap => exact True.intro

/-- **Displayed diffs have true line numbers.** A line of the diff is the line of its number;
the added and the removed lines are those of the parts, each once; a `...` stands for at
least one unchanged line; and `firstChangedLine` is where the first change starts. -/
theorem generateDiffString_lines {diffLines : JsString → JsString → List DiffPart}
    {oldContent newContent : JsString}
    (h : IsDiff oldContent newContent (diffLines oldContent newContent)) (contextLines : Nat) :
    let parts := diffLines oldContent newContent
    let output := diffOutput parts contextLines
    let width := lineNumWidth oldContent newContent
    let result := generateDiffString diffLines oldContent newContent contextLines
    result.1 = joinLines (output.map (DiffLine.text width)) ∧
      (∀ l : DiffLine, l.text width ∈ result.1.splitOn newline →
        l ∈ output ∧ l.IsTrue oldContent newContent) ∧
      output.filterMap DiffLine.added? = addedLines parts ∧
      output.filterMap DiffLine.removed? = removedLines parts ∧
      DiffView (listing 1 1 parts) output ∧ result.2 = firstChange 1 parts := by
  intro parts output width result
  have hview := diffOutput_view parts contextLines
  have htrue := diffOutput_isTrue h contextLines
  refine ⟨rfl, fun l hl => ?_, ?_, ?_, hview, ?_⟩
  · have hmem := splitOn_text htrue width hl
    exact ⟨hmem, htrue l hmem⟩
  · rw [hview.filterMap_eq rfl fun _ _ => rfl]
    exact filterMap_listing_new h.oneKind 1 1
  · rw [hview.filterMap_eq rfl fun _ _ => rfl]
    exact filterMap_listing_old (fun _ _ => rfl) (fun _ _ => rfl) (fun _ _ => rfl) 1 1 parts
  · exact DiffState.showParts_firstChangedLine contextLines parts .initial

/-- Parts that all end with a line feed. -/
theorem cutAtLineEnds_of_all {parts : List DiffPart}
    (h : ∀ part ∈ parts, lastLine newline part.value = []) : CutAtLineEnds parts := by
  rintro before part after rfl -
  exact h part (List.mem_append_right before List.mem_cons_self)

/-- The last of three lines is replaced, and one line of context is shown. -/
theorem generateDiffString_lines_of_three :
    let parts := [⟨js "a\nb\n", false, false⟩, ⟨js "c\n", false, true⟩, ⟨js "d\n", true, false⟩]
    let output := diffOutput parts 1
    output = [.gap, .context 2 (js "b"), .removed 3 (js "c"), .added 3 (js "d")] ∧
      output.filterMap DiffLine.added? = addedLines parts ∧ firstChange 1 parts = some 3 := by
  have h : IsDiff (js "a\nb\nc\n") (js "a\nb\nd\n")
      [⟨js "a\nb\n", false, false⟩, ⟨js "c\n", false, true⟩, ⟨js "d\n", true, false⟩] := by
    constructor
    · decide
    · rfl
    · rfl
    · exact cutAtLineEnds_of_all (by decide)
    · exact cutAtLineEnds_of_all (by decide)
  have hlines := @generateDiffString_lines
    (fun _ _ => [⟨js "a\nb\n", false, false⟩, ⟨js "c\n", false, true⟩, ⟨js "d\n", true, false⟩])
    (js "a\nb\nc\n") (js "a\nb\nd\n") h 1
  exact ⟨by decide, hlines.2.2.1, by decide⟩

end PiMono.CodingAgent
