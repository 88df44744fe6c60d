import PiMono.CodingAgent.TruncateLimits
import PiMono.Lib.JsNumber

/-!
# Reading a file page by page

The text branch of `tools/read.ts:270-319`. A page shows the lines from its offset on that the
caller's limit and `truncateHead` allow, and names the offset of the next page. Truncation
does not count an empty line at the end, the file does: `readText_page` says that the two
counts never lose or repeat a line, and `readAll_lines` follows the notices to the end.
-/

namespace PiMono.CodingAgent

/-- `${n}` -/
def numberText (n : Nat) : JsString := (JsNumber.ofNat n).text

/-- What stands behind the lines of a page. -/
inductive ReadNotice where
  | none
  | lineExceedsLimit (line bytes : Nat) (path : JsString)
  | lineLimit (first last total next : Nat)
  | byteLimit (first last total next : Nat)
  | moreLines (remaining next : Nat)
  deriving DecidableEq

namespace ReadNotice

/-- The offset a notice names. -/
def nextOffset? : ReadNotice → Option Nat
  | none | lineExceedsLimit .. => Option.none
  | lineLimit _ _ _ next | byteLimit _ _ _ next | moreLines _ next => some next

end ReadNotice

/-- The result of a call: the lines shown, and the notice. -/
structure ReadPage where
  shown : JsString
  notice : ReadNotice
  details : Option TruncationResult
  deriving DecidableEq

namespace ReadPage

/-- The lines of the file that a page returns. -/
def lines (p : ReadPage) : List JsString := p.shown.splitOn newline

end ReadPage

/-- `startLine` -/
def startLine (offset : Option Nat) : Nat := offset.getD 0 - 1

/-- The lines of which a page is made; `none` where truncation alone decides. -/
def selectLines (limit : Option Nat) (lines : List JsString) : List JsString :=
  match limit with
  | some limit => lines.take limit
  | none => lines

/-- The text branch of `execute`, behind the reading of the file. -/
def readText (path textContent : JsString) (offset limit : Option Nat) :
    Except JsString ReadPage :=
  let allLines := textContent.splitOn newline
  let startLine := startLine offset
  if allLines.length ≤ startLine then
    .error (js "Offset " ++ numberText (offset.getD 0) ++ js " is beyond end of file ("
      ++ numberText allLines.length ++ js " lines total)")
  else
    let selected := selectLines limit (allLines.drop startLine)
    let truncation := truncateHead (joinLines selected) defaultMaxLines defaultMaxBytes
    let startLineDisplay := startLine + 1
    if truncation.firstLineExceedsLimit then
      .ok ⟨[], .lineExceedsLimit startLineDisplay (byteLength (selected.headD [])) path,
        some truncation⟩
    else if truncation.truncated then
      let endLineDisplay := startLineDisplay + truncation.outputLines - 1
      let nextOffset := endLineDisplay + 1
      .ok ⟨truncation.content,
        if truncation.truncatedBy = some .lines then
          .lineLimit startLineDisplay endLineDisplay allLines.length nextOffset
        else .byteLimit startLineDisplay endLineDisplay allLines.length nextOffset,
        some truncation⟩
    else if limit.isSome ∧ startLine + selected.length < allLines.length then
      .ok ⟨truncation.content,
        .moreLines (allLines.length - (startLine + selected.length))
          (startLine + selected.length + 1), none⟩
    else .ok ⟨truncation.content, .none, none⟩

/-- Read on with the offset of the last notice, each call with a limit of its own; `none`
where a call fails or more calls than `fuel` are needed. -/
def readAll (path textContent : JsString) (limits : Nat → Option Nat) :
    Nat → Nat → Option Nat → Option (List ReadPage)
  | 0, _, _ => none
  | fuel + 1, call, offset =>
    match readText path textContent offset (limits call) with
    | .error _ => none
    | .ok page =>
      match page.notice.nextOffset? with
      | none => some [page]
      | some next => (readAll path textContent limits fuel (call + 1) (some next)).map (page :: ·)

/-! ## One page -/

/-- Lines of a file. -/
def AreLines (lines : List JsString) : Prop := ∀ line ∈ lines, newline ∉ line

theorem splitOn_joinLines {lines : List JsString} (h : AreLines lines) (hne : lines ≠ []) :
    (joinLines lines).splitOn newline = lines :=
  List.splitOn_intercalate newline h hne

/-- The lines that are counted are the lines, or all but an empty one at the end. -/
theorem splitLines_joinLines {lines : List JsString} (h : AreLines lines) (hne : lines ≠ []) :
    splitLinesForCounting (joinLines lines) <+: lines := by
  unfold splitLinesForCounting
  split
  · exact List.nil_prefix
  · simp only [splitOn_joinLines h hne]
    split
    · exact List.dropLast_prefix lines
    · exact List.prefix_rfl

theorem truncateHead_within {content : JsString} {maxLines maxBytes : Nat}
    (h : WithinLimits content maxLines maxBytes) :
    (truncateHead content maxLines maxBytes).truncated = false ∧
      (truncateHead content maxLines maxBytes).firstLineExceedsLimit = false := by
  rw [truncateHead]
  simp only [if_pos (show _ ∧ _ from h), and_self]

theorem truncateHead_over {content : JsString} {maxLines maxBytes : Nat}
    (h : ¬ WithinLimits content maxLines maxBytes)
    (hfirst : byteLength ((splitLinesForCounting content).headD []) ≤ maxBytes) :
    (truncateHead content maxLines maxBytes).truncated = true ∧
      (truncateHead content maxLines maxBytes).firstLineExceedsLimit = false := by
  rw [truncateHead]
  simp only [if_neg (show ¬ (_ ∧ _) from h), if_neg (Nat.not_lt_of_le hfirst), and_self]

/-- What is cut off some lines: at least one is kept, and not all of them. -/
theorem truncateHead_lines {lines : List JsString} {maxLines maxBytes : Nat} (h : AreLines lines)
    (hpos : 0 < maxLines) (hfit : ∀ line ∈ lines, byteLength line ≤ maxBytes)
    (hover : ¬ WithinLimits (joinLines lines) maxLines maxBytes) :
    let r := truncateHead (joinLines lines) maxLines maxBytes
    r.truncated = true ∧ r.firstLineExceedsLimit = false ∧ 0 < r.outputLines ∧
      r.outputLines < lines.length ∧ r.content.splitOn newline = lines.take r.outputLines := by
  intro r
  have hne : lines ≠ [] := by
    rintro rfl
    exact hover ⟨Nat.zero_le _, Nat.zero_le _⟩
  have hcounted := splitLines_joinLines h hne
  obtain ⟨first, rest, hsplit⟩ := List.exists_cons_of_ne_nil (lines_ne_nil hover)
  have hfirst : byteLength first ≤ maxBytes :=
    hfit first (hcounted.subset (by rw [hsplit]; exact List.mem_cons_self))
  obtain ⟨htruncated, hexceeds⟩ := truncateHead_over hover (by rw [hsplit]; exact hfirst)
  obtain ⟨hle, hcontent, hfits, hmax⟩ := (keepsHead_truncateHead _ maxLines maxBytes).run hover
  have hone : 0 < r.outputLines := by
    refine hmax 1 (List.length_pos_of_ne_nil (lines_ne_nil hover)) ?_
    rw [hsplit]
    show Fits maxLines maxBytes [first]
    exact ⟨hpos, by rwa [joinLines_singleton]⟩
  have hless : r.outputLines < lines.length := by
    refine Nat.lt_of_le_of_ne (hle.trans hcounted.length_le) fun hall => hover ?_
    -- all lines fit, and the text is no more than they are
    have hsame : splitLinesForCounting (joinLines lines) = lines :=
      hcounted.eq_of_length (Nat.le_antisymm hcounted.length_le (hall ▸ hle))
    rw [hsame, show (truncateHead (joinLines lines) maxLines maxBytes).outputLines = lines.length
      from hall, List.take_length] at hfits
    exact ⟨by rw [hsame]; exact hfits.1, hfits.2⟩
  have htake : (splitLinesForCounting (joinLines lines)).take r.outputLines
      = lines.take r.outputLines := by
    have htake := List.prefix_iff_eq_take.mp hcounted
    conv_lhs => rw [htake, List.take_take, Nat.min_eq_left hle]
  refine ⟨htruncated, hexceeds, hone, hless, ?_⟩
  show (truncateHead (joinLines lines) maxLines maxBytes).content.splitOn newline = _
  rw [hcontent, show (truncateHead (joinLines lines) maxLines maxBytes).outputLines = r.outputLines
    from rfl, htake]
  refine splitOn_joinLines (fun line hline => h line (List.mem_of_mem_take hline)) ?_
  refine List.ne_nil_of_length_pos ?_
  rw [List.length_take]
  omega

/-- The lines the caller asks for. -/
theorem selectLines_take {allLines : List JsString} {start : Nat} {limit : Option Nat}
    (hstart : start < allLines.length) (hlimit : ∀ n ∈ limit, 0 < n) :
    ∃ m, 0 < m ∧ start + m ≤ allLines.length ∧
      selectLines limit (allLines.drop start) = (allLines.drop start).take m ∧
      (start + m < allLines.length → limit.isSome) := by
  cases limit with
  | none =>
    refine ⟨allLines.length - start, by omega, by omega, ?_, fun h => by omega⟩
    rw [selectLines, List.take_of_length_le (by rw [List.length_drop])]
  | some limit =>
    have hpos := hlimit limit rfl
    refine ⟨min limit (allLines.length - start), by omega, by omega, ?_, fun _ => rfl⟩
    rw [← List.length_drop, ← List.take_eq_take_min]
    rfl

/-- **One page.** It returns the next lines of the file, at least one, and names the offset
of the line behind them, if there is one. -/
theorem readText_page {path textContent : JsString} {offset limit : Option Nat}
    (hfit : ∀ line ∈ textContent.splitOn newline, byteLength line ≤ defaultMaxBytes)
    (hstart : startLine offset < (textContent.splitOn newline).length)
    (hlimit : ∀ n ∈ limit, 0 < n) :
    ∃ page n, readText path textContent offset limit = .ok page ∧ 0 < n ∧
      page.lines = ((textContent.splitOn newline).drop (startLine offset)).take n ∧
      (page.notice.nextOffset? = some (startLine offset + n + 1) ∧
          startLine offset + n < (textContent.splitOn newline).length ∨
        page.notice.nextOffset? = none ∧
          (textContent.splitOn newline).length ≤ startLine offset + n) := by
  have hlines : AreLines (textContent.splitOn newline) := fun line hline =>
    notMem_of_mem_splitOn hline
  unfold readText
  generalize textContent.splitOn newline = allLines at hfit hstart hlines ⊢
  generalize startLine offset = start at hstart ⊢
  simp only [if_neg (Nat.not_le_of_lt hstart)]
  obtain ⟨m, hm, hmle, hselected, hmlast⟩ := selectLines_take hstart hlimit
  rw [hselected]
  have hlen : ((allLines.drop start).take m).length = m := by
    rw [List.length_take, List.length_drop]
    omega
  have hmem : ∀ line ∈ (allLines.drop start).take m, line ∈ allLines := fun line hline =>
    List.mem_of_mem_drop (List.mem_of_mem_take hline)
  have hpage : AreLines ((allLines.drop start).take m) := fun line hline =>
    hlines line (hmem line hline)
  by_cases hwithin : WithinLimits (joinLines ((allLines.drop start).take m)) defaultMaxLines
      defaultMaxBytes
  · obtain ⟨htruncated, hexceeds⟩ := truncateHead_within hwithin
    have hcontent := ((keepsHead_truncateHead _ defaultMaxLines defaultMaxBytes).whole hwithin).1
    have hshown : (joinLines ((allLines.drop start).take m)).splitOn newline
        = (allLines.drop start).take m := by
      refine splitOn_joinLines hpage (List.ne_nil_of_length_pos ?_)
      rw [hlen]
      exact hm
    simp only [htruncated, hexceeds, hlen, hcontent, Bool.false_eq_true, if_false]
    by_cases hmore : start + m < allLines.length
    · rw [if_pos ⟨hmlast hmore, hmore⟩]
      exact ⟨_, m, rfl, hm, hshown, Or.inl ⟨rfl, hmore⟩⟩
    · rw [if_neg fun h => hmore h.2]
      exact ⟨_, m, rfl, hm, hshown, Or.inr ⟨rfl, Nat.le_of_not_lt hmore⟩⟩
  · obtain ⟨htruncated, hexceeds, hpos, hless, hshown⟩ := truncateHead_lines hpage (by decide)
      (fun line hline => hfit line (hmem line hline)) hwithin
    rw [hlen] at hless
    rw [List.take_take, Nat.min_eq_left (Nat.le_of_lt hless)] at hshown
    simp only [htruncated, hexceeds, Bool.false_eq_true, if_false, if_true]
    refine ⟨_, _, rfl, hpos, hshown, Or.inl ⟨?_, by omega⟩⟩
    have hnext : start + 1 + (truncateHead (joinLines ((allLines.drop start).take m))
        defaultMaxLines defaultMaxBytes).outputLines - 1 + 1
        = start + (truncateHead (joinLines ((allLines.drop start).take m))
          defaultMaxLines defaultMaxBytes).outputLines + 1 := by omega
    rw [← hnext]
    split <;> rfl

/-! ## All pages -/

/-- As many calls as there are lines left are enough. -/
theorem readAll_drop {path textContent : JsString} {limits : Nat → Option Nat}
    (hfit : ∀ line ∈ textContent.splitOn newline, byteLength line ≤ defaultMaxBytes)
    (hlimits : ∀ call, ∀ n ∈ limits call, 0 < n) (fuel : Nat) :
    ∀ (call : Nat) {offset : Option Nat},
      startLine offset < (textContent.splitOn newline).length →
      (textContent.splitOn newline).length ≤ startLine offset + fuel →
        ∃ pages, readAll path textContent limits fuel call offset = some pages ∧
          pages.flatMap ReadPage.lines
            = (textContent.splitOn newline).drop (startLine offset) := by
  induction fuel with
  | zero =>
    intro call offset hstart hfuel
    omega
  | succ fuel ih =>
    intro call offset hstart hfuel
    obtain ⟨page, n, hread, hpos, hlines, hnext⟩ :=
      @readText_page path textContent offset (limits call) hfit hstart (hlimits call)
    rcases hnext with ⟨hnext, hless⟩ | ⟨hnext, hall⟩
    · have hstart' : startLine (some (startLine offset + n + 1)) = startLine offset + n := rfl
      obtain ⟨pages, hpages, hrest⟩ := @ih (call + 1) (some (startLine offset + n + 1))
        (by rw [hstart']; exact hless) (by rw [hstart']; omega)
      refine ⟨page :: pages, ?_, ?_⟩
      · rw [readAll, hread]
        simp only [hnext, hpages, Option.map_some]
      · rw [List.flatMap_cons, hlines, hrest, hstart', ← List.drop_drop, List.take_append_drop]
    · refine ⟨[page], ?_, ?_⟩
      · rw [readAll, hread]
        simp only [hnext]
      · rw [List.flatMap_cons, List.flatMap_nil, List.append_nil, hlines, List.take_of_length_le]
        rw [List.length_drop]
        omega

/-- **Paged reading.** Following the notices comes to an end, and the pages are the lines of
the file from the offset on, each once and in order, whatever limits the calls have. -/
theorem readAll_lines {path textContent : JsString} {limits : Nat → Option Nat}
    {offset : Option Nat}
    (hfit : ∀ line ∈ textContent.splitOn newline, byteLength line ≤ defaultMaxBytes)
    (hlimits : ∀ call, ∀ n ∈ limits call, 0 < n)
    (hstart : startLine offset < (textContent.splitOn newline).length) :
    ∃ pages, readAll path textContent limits (textContent.splitOn newline).length 0 offset
        = some pages ∧
      pages.flatMap ReadPage.lines = (textContent.splitOn newline).drop (startLine offset) :=
  readAll_drop hfit hlimits _ 0 hstart (Nat.le_add_left _ _)

/-- Three lines and an empty one, from the second on, two at a time. -/
theorem readAll_lines_of_four :
    ∃ pages, readAll (js "a.txt") (js "a\nb\nc\n") (fun _ => some 2) 4 0 (some 2) = some pages ∧
      pages.flatMap ReadPage.lines = [js "b", js "c", js ""] :=
  readAll_lines (by decide) (fun _ n h => by cases h; decide) (by decide)

end PiMono.CodingAgent
