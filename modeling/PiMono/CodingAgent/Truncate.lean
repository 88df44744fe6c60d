import PiMono.Lib.Lines
import PiMono.Lib.TextDecoder
import Mathlib.Algebra.Order.Ring.Nat

/-!
# Truncating tool output

`packages/coding-agent/src/core/tools/truncate.ts`: `truncateTail` keeps the last lines of
a text that two limits allow. It collects them from the end; `collect_spec` says when it
gets through some lines, and that otherwise it never sees what stands in front of them.
-/

namespace PiMono.CodingAgent

/-- `DEFAULT_MAX_LINES` -/
def defaultMaxLines : Nat := 2000

/-- `DEFAULT_MAX_BYTES` -/
def defaultMaxBytes : Nat := 50 * 1024

/-- `"\n"` -/
def newline : UInt16 := 0x0A

/-- `TruncationResult["truncatedBy"]` -/
inductive TruncatedBy where
  | lines
  | bytes
  deriving DecidableEq, Repr

/-- `TruncationResult` -/
structure TruncationResult where
  content : JsString
  truncated : Bool
  truncatedBy : Option TruncatedBy
  totalLines : Nat
  totalBytes : Nat
  outputLines : Nat
  outputBytes : Nat
  lastLinePartial : Bool
  firstLineExceedsLimit : Bool
  maxLines : Nat
  maxBytes : Nat
  deriving DecidableEq

/-- `splitLinesForCounting` -/
def splitLinesForCounting (content : JsString) : List JsString :=
  if content = [] then []
  else
    let lines := content.splitOn newline
    if content.getLast? = some newline then lines.dropLast else lines

/-- `lines.join("\n")` -/
def joinLines (lines : List JsString) : JsString := [newline].intercalate lines

/-- What the loop of `truncateTail` has collected. -/
structure Collected where
  outputLines : List JsString
  outputBytesCount : Nat
  truncatedBy : TruncatedBy
  lastLinePartial : Bool
  deriving DecidableEq

/-- The loop of `truncateTail`, over the lines from the last one on. -/
def collect (maxLines maxBytes : Nat) : List JsString → Collected → Collected
  | [], c => c
  | line :: lines, c =>
    if c.outputLines.length < maxLines then
      let lineBytes := byteLength line + if 0 < c.outputLines.length then 1 else 0
      if maxBytes < c.outputBytesCount + lineBytes then
        if c.outputLines = [] then
          let truncatedLine := lastBytes maxBytes line
          ⟨[truncatedLine], byteLength truncatedLine, .bytes, true⟩
        else { c with truncatedBy := .bytes }
      else collect maxLines maxBytes lines
        { c with
          outputLines := line :: c.outputLines
          outputBytesCount := c.outputBytesCount + lineBytes }
    else c

/-- What the loop starts with. -/
def Collected.none : Collected := ⟨[], 0, .lines, false⟩

/-- What has been collected of the lines of a text. -/
def collectedLines (maxLines maxBytes : Nat) (content : JsString) : Collected :=
  collect maxLines maxBytes (splitLinesForCounting content).reverse .none

/-- `truncateTail` -/
def truncateTail (content : JsString) (maxLines maxBytes : Nat) : TruncationResult :=
  let totalBytes := byteLength content
  let totalLines := (splitLinesForCounting content).length
  if totalLines ≤ maxLines ∧ totalBytes ≤ maxBytes then
    ⟨content, false, none, totalLines, totalBytes, totalLines, totalBytes, false, false, maxLines,
      maxBytes⟩
  else
    let c := collectedLines maxLines maxBytes content
    let truncatedBy :=
      if maxLines ≤ c.outputLines.length ∧ c.outputBytesCount ≤ maxBytes then .lines
      else c.truncatedBy
    let outputContent := joinLines c.outputLines
    ⟨outputContent, true, some truncatedBy, totalLines, totalBytes, c.outputLines.length,
      byteLength outputContent, c.lastLinePartial, false, maxLines, maxBytes⟩

/-- The loop of `truncateHead`. -/
def collectHead (maxLines maxBytes : Nat) : List JsString → Collected → Collected
  | [], c => c
  | line :: lines, c =>
    if c.outputLines.length < maxLines then
      let lineBytes := byteLength line + if 0 < c.outputLines.length then 1 else 0
      if maxBytes < c.outputBytesCount + lineBytes then { c with truncatedBy := .bytes }
      else collectHead maxLines maxBytes lines
        { c with
          outputLines := c.outputLines ++ [line]
          outputBytesCount := c.outputBytesCount + lineBytes }
    else c

/-- `truncateHead` -/
def truncateHead (content : JsString) (maxLines maxBytes : Nat) : TruncationResult :=
  let totalBytes := byteLength content
  let lines := splitLinesForCounting content
  let totalLines := lines.length
  if totalLines ≤ maxLines ∧ totalBytes ≤ maxBytes then
    ⟨content, false, none, totalLines, totalBytes, totalLines, totalBytes, false, false, maxLines,
      maxBytes⟩
  else if maxBytes < byteLength (lines.headD []) then
    ⟨[], true, some .bytes, totalLines, totalBytes, 0, 0, false, true, maxLines, maxBytes⟩
  else
    let c := collectHead maxLines maxBytes lines .none
    let truncatedBy :=
      if maxLines ≤ c.outputLines.length ∧ c.outputBytesCount ≤ maxBytes then .lines
      else c.truncatedBy
    let outputContent := joinLines c.outputLines
    ⟨outputContent, true, some truncatedBy, totalLines, totalBytes, c.outputLines.length,
      byteLength outputContent, false, false, maxLines, maxBytes⟩

/-! ## Lines -/

theorem joinLines_cons {lines : List JsString} (h : lines ≠ []) (line : JsString) :
    joinLines (line :: lines) = line ++ newline :: joinLines lines := by
  obtain ⟨l, ls, rfl⟩ := List.exists_cons_of_ne_nil h
  simp [joinLines, List.intercalate]

@[simp] theorem joinLines_singleton (line : JsString) : joinLines [line] = line := by
  simp [joinLines, List.intercalate]

theorem byteLength_joinLines_cons (line : JsString) (lines : List JsString) :
    byteLength (joinLines (line :: lines))
      = byteLength (joinLines lines) + (byteLength line + if 0 < lines.length then 1 else 0) := by
  cases lines with
  | nil =>
    rw [joinLines_singleton]
    show byteLength line = byteLength [] + (byteLength line + 0)
    rw [byteLength_nil]
    omega
  | cons l ls =>
    rw [joinLines_cons (List.cons_ne_nil l ls), newline, byteLength_append_newline,
      if_pos (by simp)]
    omega

/-- More lines take no less room. -/
theorem byteLength_joinLines_le : ∀ front lines : List JsString,
    byteLength (joinLines lines) ≤ byteLength (joinLines (front ++ lines))
  | [], _ => Nat.le_refl _
  | line :: front, lines => by
    have := byteLength_joinLines_le front lines
    rw [List.cons_append, byteLength_joinLines_cons]
    omega

/-- The lines in front of a newline, and those behind it. -/
theorem splitLines_append_newline (front rest : JsString) :
    splitLinesForCounting (front ++ newline :: rest)
      = front.splitOn newline ++ splitLinesForCounting rest := by
  have hsplit : (front ++ newline :: rest).splitOn newline
      = front.splitOn newline ++ rest.splitOn newline := List.splitOn_append_cons_self front rest
  have hne : front ++ newline :: rest ≠ [] := by simp
  rw [splitLinesForCounting, if_neg hne]
  simp only [hsplit]
  cases rest with
  | nil =>
    have hlast : (front ++ [newline]).getLast? = some newline := by simp
    rw [if_pos hlast]
    simp [splitLinesForCounting]
  | cons u us =>
    have hlast : (front ++ newline :: u :: us).getLast? = (u :: us).getLast? := by
      rw [List.getLast?_append_of_ne_nil _ (by simp)]
      rfl
    rw [hlast, splitLinesForCounting, if_neg (List.cons_ne_nil u us)]
    simp only
    split
    · rw [List.dropLast_append_of_ne_nil (List.splitOn_ne_nil newline (u :: us))]
    · rfl

theorem splitLines_of_open {s : JsString} (hne : s ≠ []) (h : s.getLast? ≠ some newline) :
    splitLinesForCounting s = s.splitOn newline := by
  rw [splitLinesForCounting, if_neg hne]
  simp only [if_neg h]

/-- A text is its lines, and a newline if it ends with one. -/
theorem joinLines_splitLines {s : JsString} (hne : s ≠ []) :
    s.getLast? ≠ some newline ∧ joinLines (splitLinesForCounting s) = s ∨
      s.getLast? = some newline ∧ joinLines (splitLinesForCounting s) ++ [newline] = s := by
  by_cases hlast : s.getLast? = some newline
  · obtain ⟨front, rfl⟩ := List.getLast?_eq_some_iff.mp hlast
    refine Or.inr ⟨hlast, ?_⟩
    have hlines : splitLinesForCounting (front ++ [newline]) = front.splitOn newline := by
      rw [splitLines_append_newline]
      exact List.append_nil _
    rw [hlines, joinLines, List.intercalate_splitOn]
  · refine Or.inl ⟨hlast, ?_⟩
    rw [splitLines_of_open hne hlast, joinLines, List.intercalate_splitOn]

theorem splitLines_ne_nil {s : JsString} (hne : s ≠ []) : splitLinesForCounting s ≠ [] := by
  rcases joinLines_splitLines hne with ⟨hlast, -⟩ | ⟨hlast, -⟩
  · rw [splitLines_of_open hne hlast]
    exact List.splitOn_ne_nil newline s
  · obtain ⟨front, rfl⟩ := List.getLast?_eq_some_iff.mp hlast
    rw [splitLines_append_newline]
    simp [List.splitOn_ne_nil]

/-- The room a text takes besides a newline at its end. -/
theorem byteLength_splitLines {s : JsString} (hne : s ≠ []) :
    s.getLast? ≠ some newline ∧ byteLength s = byteLength (joinLines (splitLinesForCounting s)) ∨
      s.getLast? = some newline ∧
        byteLength s = byteLength (joinLines (splitLinesForCounting s)) + 1 := by
  rcases joinLines_splitLines hne with ⟨hlast, hjoin⟩ | ⟨hlast, hjoin⟩
  · exact Or.inl ⟨hlast, by rw [hjoin]⟩
  · refine Or.inr ⟨hlast, ?_⟩
    have hbytes := byteLength_append_newline (joinLines (splitLinesForCounting s)) []
    rw [← newline, hjoin, byteLength_nil] at hbytes
    omega

/-- Lines are counted by the newlines that end them, with an open one at the end. -/
theorem length_splitLines (s : JsString) :
    (splitLinesForCounting s).length
      = s.count newline + if lastLine newline s = [] then 0 else 1 := by
  by_cases hne : s = []
  · rw [hne]
    rfl
  have hlen : (s.splitOn newline).length = s.count newline + 1 := length_splitOn s
  unfold splitLinesForCounting
  rw [if_neg hne]
  by_cases hlast : s.getLast? = some newline
  · have hnil : lastLine newline s = [] := lastLine_eq_nil.mpr (Or.inr hlast)
    simp only [if_pos hlast, if_pos hnil, List.length_dropLast]
    omega
  · have hopen : lastLine newline s ≠ [] := by
      intro h
      rcases lastLine_eq_nil.mp h with h | h
      · exact hne h
      · exact hlast h
    simp only [if_neg hlast, if_neg hopen]
    exact hlen

/-! ## Collecting -/

variable {maxLines maxBytes : Nat}

/-- Lines that fit behind what has been collected. -/
def Fits (maxLines maxBytes : Nat) (lines : List JsString) : Prop :=
  lines.length ≤ maxLines ∧ byteLength (joinLines lines) ≤ maxBytes

instance (lines : List JsString) : Decidable (Fits maxLines maxBytes lines) :=
  inferInstanceAs (Decidable (_ ∧ _))

/-- The loop gets through lines that fit, and otherwise ends within them. -/
theorem collect_spec : ∀ (lines more : List JsString) (c : Collected),
    c.outputBytesCount = byteLength (joinLines c.outputLines) →
      Fits maxLines maxBytes c.outputLines →
    if Fits maxLines maxBytes (lines.reverse ++ c.outputLines) then
      collect maxLines maxBytes (lines ++ more) c = collect maxLines maxBytes more
        ⟨lines.reverse ++ c.outputLines, byteLength (joinLines (lines.reverse ++ c.outputLines)),
          c.truncatedBy, c.lastLinePartial⟩
    else collect maxLines maxBytes (lines ++ more) c = collect maxLines maxBytes lines c
  | [], more, c, hbytes, hfits => by
    have hc : c = ⟨c.outputLines, byteLength (joinLines c.outputLines), c.truncatedBy,
        c.lastLinePartial⟩ := by
      rw [← hbytes]
    rw [List.reverse_nil, List.nil_append, List.nil_append, if_pos hfits, ← hc]
  | line :: lines, more, c, hbytes, hfits => by
    have hall : (line :: lines).reverse ++ c.outputLines
        = lines.reverse ++ (line :: c.outputLines) := by simp
    have hroom := byteLength_joinLines_cons line c.outputLines
    rw [hall, List.cons_append, collect, collect]
    by_cases hlines : c.outputLines.length < maxLines
    · rw [if_pos hlines, if_pos hlines, hbytes]
      simp only
      by_cases hover : maxBytes < byteLength (joinLines c.outputLines)
          + (byteLength line + if 0 < c.outputLines.length then 1 else 0)
      · rw [if_pos hover, if_pos hover]
        have hnot : ¬ Fits maxLines maxBytes (lines.reverse ++ (line :: c.outputLines)) := by
          rintro ⟨-, hle⟩
          have := byteLength_joinLines_le lines.reverse (line :: c.outputLines)
          omega
        rw [if_neg hnot]
      · rw [if_neg hover, if_neg hover, ← hroom]
        exact collect_spec lines more
          { c with outputLines := line :: c.outputLines
                   outputBytesCount := byteLength (joinLines (line :: c.outputLines)) } rfl
          ⟨hlines, by
            show byteLength (joinLines (line :: c.outputLines)) ≤ maxBytes
            omega⟩
    · have hnot : ¬ Fits maxLines maxBytes (lines.reverse ++ (line :: c.outputLines)) := by
        rintro ⟨hle, -⟩
        rw [List.length_append, List.length_cons] at hle
        omega
      rw [if_neg hlines, if_neg hlines, if_neg hnot]

/-- Lines from the end on, with others in front. -/
theorem collect_lines (maxLines maxBytes : Nat) (front lines : List JsString) :
    if Fits maxLines maxBytes lines then
      collect maxLines maxBytes (front ++ lines).reverse .none
        = collect maxLines maxBytes front.reverse
          ⟨lines, byteLength (joinLines lines), .lines, false⟩
    else collect maxLines maxBytes (front ++ lines).reverse .none
      = collect maxLines maxBytes lines.reverse .none := by
  have h := @collect_spec maxLines maxBytes lines.reverse front.reverse .none rfl
    ⟨Nat.zero_le _, Nat.zero_le _⟩
  have hall : lines.reverse.reverse ++ Collected.none.outputLines = lines := by
    rw [List.reverse_reverse]
    exact List.append_nil _
  rw [hall] at h
  rw [List.reverse_append]
  exact h

/-- A line in front that does not fit any more. -/
theorem collect_tooLong {line : JsString} {c : Collected} (hne : c.outputLines ≠ [])
    (hlines : c.outputLines.length < maxLines)
    (hover : maxBytes < c.outputBytesCount + (byteLength line + 1)) (more : List JsString) :
    collect maxLines maxBytes (line :: more) c = { c with truncatedBy := .bytes } := by
  have hpos : 0 < c.outputLines.length := List.length_pos_iff.mpr hne
  rw [collect, if_pos hlines]
  simp only [if_pos hpos, if_pos hover, if_neg hne]

theorem collect_full {c : Collected} (hlines : maxLines ≤ c.outputLines.length)
    (lines : List JsString) : collect maxLines maxBytes lines c = c := by
  cases lines with
  | nil => rfl
  | cons line lines => rw [collect, if_neg (by omega)]

/-- A last line that does not fit is cut. -/
theorem collect_partial (hpos : 0 < maxLines) {line : JsString} (hover : maxBytes < byteLength line)
    (more : List JsString) : collect maxLines maxBytes (line :: more) .none
      = ⟨[lastBytes maxBytes line], byteLength (lastBytes maxBytes line), .bytes, true⟩ := by
  have hover' : maxBytes < 0 + (byteLength line + if 0 < 0 then 1 else 0) := by
    simpa using hover
  rw [collect]
  exact (if_pos hpos).trans ((if_pos hover').trans (if_pos rfl))

/-- A text over a limit is collected from its lines. -/
theorem truncateTail_over {content : JsString}
    (h : ¬ ((splitLinesForCounting content).length ≤ maxLines ∧ byteLength content ≤ maxBytes)) :
    let c := collectedLines maxLines maxBytes content
    let result := truncateTail content maxLines maxBytes
    result.content = joinLines c.outputLines ∧
      result.truncatedBy = some (if maxLines ≤ c.outputLines.length ∧ c.outputBytesCount ≤ maxBytes
        then .lines else c.truncatedBy) ∧
      result.outputLines = c.outputLines.length ∧ result.lastLinePartial = c.lastLinePartial ∧
      result.truncated = true := by
  intro c result
  have hresult : result = _ := if_neg h
  rw [hresult]
  exact ⟨rfl, rfl, rfl, rfl, rfl⟩

end PiMono.CodingAgent
