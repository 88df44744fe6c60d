import PiMono.CodingAgent.OutputAccumulator

/-!
# What a snapshot shows

A snapshot truncates the end of the text that the accumulator has kept; where that end
starts inside a line, only what is behind its first newline. `Shows` compares this with
the truncation of the whole text. In front of lines that do not fit, more text changes
nothing (`shows_of_not_fits`), nor does it in front of a single line that does not fit
(`shows_of_open`). Behind a long line that was cut, the answer is in the text behind its
newline (`shows_rest_iff`).

`snapshot_agrees_iff` is about every run: the counters and the temp file are always right,
and the output is that of the whole text except where a long line was cut and `ShowsRest`
fails.
-/

namespace PiMono.CodingAgent

variable {maxLines maxBytes : Nat} {front rest : JsString}

/-- What is shown of an end of a text is what is shown of the text. -/
structure Shows (shown whole : TruncationResult) : Prop where
  content : shown.content = whole.content
  truncatedBy : some (shown.truncatedBy.getD .bytes) = whole.truncatedBy
  outputLines : shown.outputLines = whole.outputLines
  lastLinePartial : shown.lastLinePartial = whole.lastLinePartial

/-- The text behind the newline of a long line shows what the whole text does: it does not
fit itself, or there is room for more lines and its last one is open, or it leaves no room
at all. -/
def ShowsRest (maxLines maxBytes : Nat) (rest : JsString) : Prop :=
  rest ≠ [] ∧
    (¬ Fits maxLines maxBytes (splitLinesForCounting rest) ∨
      (splitLinesForCounting rest).length < maxLines ∧ rest.getLast? ≠ some newline ∨
      (splitLinesForCounting rest).length = maxLines ∧ rest.getLast? = some newline ∧
        byteLength (joinLines (splitLinesForCounting rest)) = maxBytes)

/-- A text whose lines do not fit is over a limit. -/
theorem over_of_not_fits (hnot : ¬ Fits maxLines maxBytes (splitLinesForCounting rest)) :
    ¬ ((splitLinesForCounting rest).length ≤ maxLines ∧ byteLength rest ≤ maxBytes) := by
  rintro ⟨hlines, hbytes⟩
  refine hnot ⟨hlines, ?_⟩
  by_cases hnil : rest = []
  · rw [hnil]
    exact Nat.zero_le _
  · rcases byteLength_splitLines hnil with ⟨-, h⟩ | ⟨-, h⟩
    · omega
    · omega

/-- A text that ends with lines over a limit. -/
theorem over_of_behind
    (hover : ¬ ((splitLinesForCounting rest).length ≤ maxLines ∧ byteLength rest ≤ maxBytes)) :
    ¬ ((splitLinesForCounting (front ++ newline :: rest)).length ≤ maxLines ∧
      byteLength (front ++ newline :: rest) ≤ maxBytes) := by
  rintro ⟨hlines, hbytes⟩
  rw [splitLines_append_newline, List.length_append] at hlines
  rw [newline, byteLength_append_newline] at hbytes
  exact hover ⟨by omega, by omega⟩

/-- Both texts are collected alike. -/
theorem shows_of_collected
    (hshown : ¬ ((splitLinesForCounting rest).length ≤ maxLines ∧ byteLength rest ≤ maxBytes))
    {whole : JsString}
    (hwhole : ¬ ((splitLinesForCounting whole).length ≤ maxLines ∧ byteLength whole ≤ maxBytes))
    (h : collectedLines maxLines maxBytes whole = collectedLines maxLines maxBytes rest) :
    Shows (truncateTail rest maxLines maxBytes) (truncateTail whole maxLines maxBytes) := by
  obtain ⟨hcontent, hby, hlines, hlastPart, -⟩ := truncateTail_over hshown
  obtain ⟨hcontent', hby', hlines', hlastPart', -⟩ := truncateTail_over hwhole
  rw [h] at hcontent' hby' hlines' hlastPart'
  constructor
  · rw [hcontent, hcontent']
  · rw [hby, hby']
    rfl
  · rw [hlines, hlines']
  · rw [hlastPart, hlastPart']

/-- In front of lines that do not fit, more text changes nothing. -/
theorem shows_of_not_fits (hnot : ¬ Fits maxLines maxBytes (splitLinesForCounting rest)) :
    Shows (truncateTail rest maxLines maxBytes)
      (truncateTail (front ++ newline :: rest) maxLines maxBytes) := by
  have hover := over_of_not_fits hnot
  refine shows_of_collected hover (over_of_behind hover) ?_
  have hcollect := collect_lines maxLines maxBytes
    (front.splitOn newline) (splitLinesForCounting rest)
  rw [if_neg hnot, ← splitLines_append_newline] at hcollect
  exact hcollect

/-- What is collected of a text that ends with an open line that does not fit. -/
theorem collectedLines_open (hpos : 0 < maxLines) (hopen : newline ∉ rest)
    (hover : maxBytes < byteLength (lastLine newline front ++ rest)) :
    collectedLines maxLines maxBytes (front ++ rest)
      = ⟨[lastBytes maxBytes (lastLine newline front ++ rest)],
        byteLength (lastBytes maxBytes (lastLine newline front ++ rest)), .bytes, true⟩ := by
  have hlast : lastLine newline (front ++ rest) ≠ [] := by
    rw [lastLine_append front hopen]
    intro hnil
    rw [hnil] at hover
    exact absurd hover (Nat.not_lt_zero _)
  have hne : front ++ rest ≠ [] := fun hnil => hlast (lastLine_eq_nil.mpr (Or.inl hnil))
  have hend : (front ++ rest).getLast? ≠ some newline := fun h =>
    hlast (lastLine_eq_nil.mpr (Or.inr h))
  rw [collectedLines, splitLines_of_open hne hend, splitOn_append front hopen, List.reverse_append]
  exact collect_partial hpos hover _

/-- In front of the end of a line that does not fit, more text changes nothing. -/
theorem shows_of_open (hpos : 0 < maxLines) (hwf : WellFormed rest) (hopen : newline ∉ rest)
    (hover : maxBytes < byteLength rest) :
    Shows (truncateTail rest maxLines maxBytes)
      (truncateTail (front ++ rest) maxLines maxBytes) := by
  have hlen := byteLength_append front hwf
  have hlen' := byteLength_append (lastLine newline front) hwf
  refine shows_of_collected (fun h => by omega) (fun h => by omega) ?_
  have hshown := @collectedLines_open maxLines maxBytes [] rest hpos hopen hover
  rw [collectedLines_open hpos hopen (by omega), lastBytes_append _ hwf hover]
  exact hshown.symm

/-- Lines that fit, behind a long line, are all that is collected. -/
theorem truncateTail_fits (hbytes : 0 < maxBytes) (hne : rest ≠ [])
    (hfits : Fits maxLines maxBytes (splitLinesForCounting rest))
    (hlong : maxBytes * 2 ≤ byteLength (lastLine newline front) + byteLength rest) :
    let lines := splitLinesForCounting rest
    let whole := truncateTail (front ++ newline :: rest) maxLines maxBytes
    whole.content = joinLines lines ∧
      whole.truncatedBy = some (if lines.length < maxLines then .bytes else .lines) ∧
      whole.outputLines = lines.length ∧ whole.lastLinePartial = false := by
  intro lines whole
  have hlinesNe : lines ≠ [] := splitLines_ne_nil hne
  have hroom : byteLength rest ≤ byteLength (joinLines lines) + 1 := by
    rcases byteLength_splitLines hne with ⟨-, h⟩ | ⟨-, h⟩
    · exact Nat.le_succ_of_le (Nat.le_of_eq h)
    · exact Nat.le_of_eq h
  have hcollected : collectedLines maxLines maxBytes (front ++ newline :: rest)
      = ⟨lines, byteLength (joinLines lines), if lines.length < maxLines then .bytes else .lines,
        false⟩ := by
    have hcollect := collect_lines maxLines maxBytes
      (front.splitOn newline) lines
    rw [if_pos hfits, ← splitLines_append_newline, splitOn_eq, List.reverse_append] at hcollect
    refine hcollect.trans ?_
    by_cases hspace : lines.length < maxLines
    · -- the long line is next
      rw [if_pos hspace]
      refine collect_tooLong hlinesNe hspace ?_ _
      show maxBytes < byteLength (joinLines lines) + (byteLength (lastLine newline front) + 1)
      omega
    · rw [if_neg hspace]
      exact collect_full (Nat.not_lt.mp hspace) _
  have hover : ¬ ((splitLinesForCounting (front ++ newline :: rest)).length ≤ maxLines ∧
      byteLength (front ++ newline :: rest) ≤ maxBytes) := by
    rintro ⟨-, hle⟩
    have hsplit : front ++ newline :: rest
        = joinLines (closedLines newline front ++ [lastLine newline front]) ++ newline :: rest := by
      rw [← splitOn_eq, joinLines, List.intercalate_splitOn]
    have hlast := byteLength_joinLines_le (closedLines newline front) [lastLine newline front]
    rw [joinLines_singleton] at hlast
    rw [hsplit, newline, byteLength_append_newline, ← newline] at hle
    omega
  obtain ⟨hcontent, hby, houtput, hlastPart, -⟩ := truncateTail_over hover
  rw [hcollected] at hcontent hby houtput hlastPart
  refine ⟨hcontent, hby.trans ?_, houtput, hlastPart⟩
  by_cases hspace : lines.length < maxLines
  · simp only [if_pos hspace, if_neg (fun h : _ ∧ _ => Nat.not_lt.mpr h.1 hspace)]
  · have hfull : maxLines ≤ lines.length ∧ byteLength (joinLines lines) ≤ maxBytes :=
      ⟨Nat.not_lt.mp hspace, hfits.2⟩
    simp only [if_neg hspace, if_pos hfull]

/-- Nothing is shown behind a newline at the end, though the line in front of it is cut. -/
theorem not_shows_nil (hlines : 0 < maxLines)
    (hover : maxBytes < byteLength (lastLine newline front)) :
    ¬ Shows (truncateTail [] maxLines maxBytes)
      (truncateTail (front ++ [newline]) maxLines maxBytes) := by
  intro h
  have hlast := byteLength_joinLines_le (closedLines newline front) [lastLine newline front]
  rw [joinLines_singleton, ← splitOn_eq, joinLines, List.intercalate_splitOn] at hlast
  have hlen := byteLength_append_newline front []
  rw [← newline] at hlen
  obtain ⟨-, -, -, hlastPart, -⟩ := @truncateTail_over maxLines maxBytes
    (front ++ [newline]) (fun hle => by omega)
  have hsplit : splitLinesForCounting (front ++ [newline])
      = closedLines newline front ++ [lastLine newline front] := by
    rw [splitLines_append_newline, ← splitOn_eq]
    exact List.append_nil _
  rw [collectedLines, hsplit, List.reverse_append] at hlastPart
  have hcut : (truncateTail (front ++ [newline]) maxLines maxBytes).lastLinePartial = true :=
    hlastPart.trans (by rw [List.reverse_singleton, List.singleton_append,
      collect_partial hlines hover])
  have hnone : (truncateTail [] maxLines maxBytes).lastLinePartial = false := by
    rw [truncateTail]
    exact congrArg TruncationResult.lastLinePartial (if_pos ⟨Nat.zero_le _, Nat.zero_le _⟩)
  rw [h.lastLinePartial.symm.trans hnone] at hcut
  exact Bool.noConfusion hcut

/-- Behind the end of a long line. -/
theorem shows_rest_iff (hlines : 0 < maxLines) (hbytes : 0 < maxBytes)
    (hlong : maxBytes * 2 ≤ byteLength (lastLine newline front) + byteLength rest) :
    Shows (truncateTail rest maxLines maxBytes)
      (truncateTail (front ++ newline :: rest) maxLines maxBytes)
        ↔ ShowsRest maxLines maxBytes rest := by
  by_cases hne : rest = []
  · subst hne
    rw [byteLength_nil] at hlong
    constructor
    · intro h
      exact absurd h (not_shows_nil hlines (by omega))
    · intro h
      exact absurd rfl h.1
  by_cases hfits : Fits maxLines maxBytes (splitLinesForCounting rest)
  · obtain ⟨hcontent, hby, houtput, hlastPart⟩ := truncateTail_fits hbytes hne hfits hlong
    have hlen : (splitLinesForCounting rest).length ≤ maxLines := hfits.1
    have hbyteLen := byteLength_splitLines hne
    by_cases hwhole : byteLength rest ≤ maxBytes
    · -- the rest is shown as it is, with a newline that it ends with
      have hshown : truncateTail rest maxLines maxBytes = _ := if_pos ⟨hlen, hwhole⟩
      constructor
      · intro h
        have hopen := h.content.trans hcontent
        have hcause := h.truncatedBy.trans hby
        rw [hshown] at hopen hcause
        have hspace : (splitLinesForCounting rest).length < maxLines := by
          by_contra hfull
          rw [if_neg hfull] at hcause
          exact TruncatedBy.noConfusion (Option.some.inj hcause)
        refine ⟨hne, Or.inr (Or.inl ⟨hspace, ?_⟩)⟩
        rcases hbyteLen with ⟨hlast, -⟩ | ⟨-, hlonger⟩
        · exact hlast
        · have hsame := congrArg byteLength hopen
          exact absurd (hlonger.symm.trans hsame) (Nat.succ_ne_self _)
      · rintro ⟨-, hnot | ⟨hspace, hlast⟩ | ⟨-, hlast, hbytes⟩⟩
        · exact absurd hfits hnot
        · have hjoin : joinLines (splitLinesForCounting rest) = rest := by
            rcases joinLines_splitLines hne with ⟨-, hjoin⟩ | ⟨hends, -⟩
            · exact hjoin
            · exact absurd hends hlast
          rw [if_pos hspace] at hby
          rw [hjoin] at hcontent
          rw [hshown]
          exact ⟨hcontent.symm, hby.symm, houtput.symm, hlastPart.symm⟩
        · rcases hbyteLen with ⟨hopen, -⟩ | ⟨-, hlonger⟩
          · exact absurd hlast hopen
          · omega
    · -- its lines leave no room for its newline
      have hends : rest.getLast? = some newline ∧
          byteLength (joinLines (splitLinesForCounting rest)) = maxBytes := by
        have hle : byteLength (joinLines (splitLinesForCounting rest)) ≤ maxBytes := hfits.2
        rcases hbyteLen with ⟨-, h⟩ | ⟨hlast, h⟩
        · omega
        · exact ⟨hlast, by omega⟩
      have hcollected : collectedLines maxLines maxBytes rest = ⟨splitLinesForCounting rest,
          byteLength (joinLines (splitLinesForCounting rest)), .lines, false⟩ := by
        have hcollect := collect_lines maxLines maxBytes [] (splitLinesForCounting rest)
        rw [if_pos hfits] at hcollect
        exact hcollect
      obtain ⟨hcontent', hby', houtput', hlastPart', -⟩ :=
        @truncateTail_over maxLines maxBytes rest (fun hle => hwhole hle.2)
      rw [hcollected] at hcontent' hby' houtput' hlastPart'
      rw [ite_self] at hby'
      constructor
      · intro h
        have hcause := h.truncatedBy.trans hby
        rw [hby'] at hcause
        refine ⟨hne, Or.inr (Or.inr ⟨?_, hends⟩)⟩
        by_contra hspace
        rw [if_pos (by omega)] at hcause
        exact TruncatedBy.noConfusion (Option.some.inj hcause)
      · rintro ⟨-, hnot | ⟨-, hlast⟩ | ⟨hfull, -, -⟩⟩
        · exact absurd hfits hnot
        · exact absurd hends.1 hlast
        · rw [if_neg (by omega)] at hby
          constructor
          · rw [hcontent', hcontent]
          · rw [hby', hby]
            rfl
          · rw [houtput', houtput]
          · rw [hlastPart', hlastPart]
  · constructor
    · intro _
      exact ⟨hne, Or.inl hfits⟩
    · intro _
      exact shows_of_not_fits hfits

/-! ## Snapshots -/

namespace OutputAccumulator

variable {a : OutputAccumulator} {cut text : JsString}

/-- A snapshot reports what the truncation of a text does. -/
structure Reports (snapshot : OutputSnapshot) (whole : TruncationResult) : Prop where
  content : snapshot.content = whole.content
  truncated : snapshot.truncation.truncated = whole.truncated
  truncatedBy : snapshot.truncation.truncatedBy = whole.truncatedBy
  totalLines : snapshot.truncation.totalLines = whole.totalLines
  totalBytes : snapshot.truncation.totalBytes = whole.totalBytes
  outputLines : snapshot.truncation.outputLines = whole.outputLines
  lastLinePartial : snapshot.truncation.lastLinePartial = whole.lastLinePartial

/-- The text behind the first newline. -/
def behindNewline (s : JsString) : JsString := (s.dropWhile (· ≠ newline)).tail

/-- What must hold of the text that is kept behind `cut`: nothing was cut, or whole lines,
or all that is kept is one line, or what is behind the rest of the line that was cut shows
enough. -/
def ShowsTail (maxLines maxBytes : Nat) (cut kept : JsString) : Prop :=
  lastLine newline cut = [] ∨ newline ∉ kept ∨ ShowsRest maxLines maxBytes (behindNewline kept)

theorem truncateTail_totals (maxLines maxBytes : Nat) (content : JsString) :
    (truncateTail content maxLines maxBytes).totalLines = (splitLinesForCounting content).length ∧
      (truncateTail content maxLines maxBytes).totalBytes = byteLength content ∧
      (truncateTail content maxLines maxBytes).truncated
        = (decide (maxLines < (splitLinesForCounting content).length)
          || decide (maxBytes < byteLength content)) ∧
      ((truncateTail content maxLines maxBytes).truncated = true →
        ∃ by', (truncateTail content maxLines maxBytes).truncatedBy = some by') ∧
      ((truncateTail content maxLines maxBytes).truncated = false →
        (truncateTail content maxLines maxBytes).truncatedBy = none) := by
  rw [truncateTail]
  simp only
  split
  · rename_i h
    simp [Nat.not_lt.mpr h.1, Nat.not_lt.mpr h.2]
  · rename_i h
    refine ⟨rfl, rfl, ?_, fun _ => ⟨_, rfl⟩, fun hno => Bool.noConfusion hno⟩
    by_cases hlines : maxLines < (splitLinesForCounting content).length
    · simp [hlines]
    · have hbytes : maxBytes < byteLength content := by
        by_contra hle
        exact h ⟨Nat.not_lt.mp hlines, Nat.not_lt.mp hle⟩
      simp [hbytes]

/-- All of the text is kept. -/
theorem Tracks.reports (h : Tracks a [] text) (persistIfTruncated : Bool) :
    Reports (a.snapshot persistIfTruncated).1 (truncateTail text a.maxLines a.maxBytes) := by
  have hall : a.tailText = text := h.keeps.kept.symm
  have hboundary : a.tailStartsAtLineBoundary = true := h.keeps.boundary.mpr rfl
  have htext : a.getSnapshotText = text := by rw [getSnapshotText, if_pos hboundary, hall]
  obtain ⟨hlines, hbytes, htruncated, hsome, hnone⟩ :=
    truncateTail_totals a.maxLines a.maxBytes text
  have hsame : (decide (a.maxLines < a.totalLines) || decide (a.maxBytes < a.totalDecodedBytes))
      = (truncateTail text a.maxLines a.maxBytes).truncated := by
    rw [htruncated, h.counts.totalLines, h.totalDecodedBytes]
  rw [snapshot, htext]
  refine ⟨rfl, hsame, ?_, h.counts.totalLines.trans hlines.symm,
    h.totalDecodedBytes.trans hbytes.symm, rfl, rfl⟩
  simp only [hsame]
  cases hcase : (truncateTail text a.maxLines a.maxBytes).truncated with
  | true =>
    obtain ⟨reason, hreason⟩ := hsome hcase
    rw [hreason]
    rfl
  | false =>
    rw [hnone hcase]
    rfl

/-- More bytes came than may be shown. -/
theorem Tracks.reports_iff_shows (h : Tracks a cut text) (hover : a.maxBytes < byteLength text)
    (persistIfTruncated : Bool) :
    Reports (a.snapshot persistIfTruncated).1 (truncateTail text a.maxLines a.maxBytes) ↔
      Shows (truncateTail a.getSnapshotText a.maxLines a.maxBytes)
        (truncateTail text a.maxLines a.maxBytes) := by
  obtain ⟨hlines, hbytes, htruncated, -, -⟩ :=
    truncateTail_totals a.maxLines a.maxBytes text
  have hdecoded : a.maxBytes < a.totalDecodedBytes := by rw [h.totalDecodedBytes]; exact hover
  have hby : (a.snapshot persistIfTruncated).1.truncation.truncatedBy = some
      ((truncateTail a.getSnapshotText a.maxLines a.maxBytes).truncatedBy.getD .bytes) := by
    simp [snapshot, hdecoded]
  constructor
  · intro hreports
    exact ⟨hreports.content, hby.symm.trans hreports.truncatedBy, hreports.outputLines,
      hreports.lastLinePartial⟩
  · intro hshows
    refine ⟨hshows.content, ?_, hby.trans hshows.truncatedBy, ?_, ?_, hshows.outputLines,
      hshows.lastLinePartial⟩
    · rw [htruncated]
      simp [snapshot, hdecoded, hover]
    · exact h.counts.totalLines.trans hlines.symm
    · exact h.totalDecodedBytes.trans hbytes.symm

theorem dropWhile_newline {line : JsString} (h : newline ∉ line) (more : JsString) :
    (line ++ more).dropWhile (· ≠ newline) = more.dropWhile (· ≠ newline) := by
  refine List.dropWhile_append_of_pos fun u hu => ?_
  have hne : u ≠ newline := fun heq => h (heq ▸ hu)
  simpa using hne

/-- The end of a line that was cut is as long as all that is shown, with room to spare. -/
theorem byteLength_cutLine {p line more : JsString} {c : Char} (hc : c ≠ '\n')
    (hline : newline ∉ line) (hwf : WellFormed (line ++ more)) :
    byteLength (utf16 c) + byteLength line
      ≤ byteLength (lastLine newline (p ++ utf16 c ++ line)) := by
  have hopen : newline ∉ utf16 c := fun hmem => hc (newline_mem_utf16.mp hmem)
  have hhead : ∀ u ∈ line.head?, isLowSurrogate u = false := by
    intro u hu
    refine hwf.head u ?_
    cases line with
    | nil => cases hu
    | cons v vs => exact hu
  have hlen : byteLength (lastLine newline p ++ utf16 c ++ line)
      = byteLength (lastLine newline p) + byteLength (utf16 c) + byteLength line := by
    rw [byteLength, encodeUtf8_append_of_head hhead, encodeUtf8_append_text _ (wellFormed_utf16 c),
      List.length_append, List.length_append]
    rfl
  rw [lastLine_append _ hline, lastLine_append p hopen, hlen]
  omega

/-- **What a snapshot reports.** -/
theorem Tracks.reports_iff (h : Tracks a cut text) (hlines : 1 ≤ a.maxLines)
    (hbytes : 4 ≤ a.maxBytes) (persistIfTruncated : Bool) :
    Reports (a.snapshot persistIfTruncated).1 (truncateTail text a.maxLines a.maxBytes) ↔
      ShowsTail a.maxLines a.maxBytes cut a.tailText := by
  by_cases hcut : cut = []
  · subst hcut
    constructor
    · intro _
      exact Or.inl rfl
    · intro _
      exact h.reports persistIfTruncated
  obtain ⟨p, c, hpc, hlt⟩ := h.keeps.behind hcut
  have hrolling : a.maxRollingBytes = a.maxBytes * 2 := Nat.max_eq_left (by omega)
  have hchar := byteLength_utf16_le c
  have hlen : byteLength text = byteLength cut + byteLength a.tailText := by
    rw [h.keeps.kept, byteLength_append cut h.keeps.wfTail]
  rw [hrolling] at hlt
  rw [h.reports_iff_shows (by omega)]
  by_cases hboundary : lastLine newline cut = []
  · -- whole lines were cut
    have htext : a.getSnapshotText = a.tailText := if_pos (h.keeps.boundary.mpr hboundary)
    have hnl : c = '\n' := (lastLine_utf16 p c).mp (by rw [← hpc]; exact hboundary)
    have hone : byteLength (utf16 '\n') = 1 := by decide
    have hbehind : text = p ++ newline :: a.tailText := by
      rw [h.keeps.kept, hpc, hnl, List.append_assoc]
      rfl
    have hnot : ¬ Fits a.maxLines a.maxBytes (splitLinesForCounting a.tailText) := by
      rintro ⟨-, hfits⟩
      rw [hnl, hone] at hlt
      have hne : a.tailText ≠ [] := by
        intro hnil
        rw [hnil, byteLength_nil] at hlt
        omega
      rcases byteLength_splitLines hne with ⟨-, hsplit⟩ | ⟨-, hsplit⟩
      · omega
      · omega
    rw [htext, hbehind]
    exact iff_of_true (shows_of_not_fits hnot) (Or.inl hboundary)
  have hinside : ¬ a.tailStartsAtLineBoundary = true := fun hyes =>
    hboundary (h.keeps.boundary.mp hyes)
  have hc : c ≠ '\n' := by
    intro hnl
    exact hboundary (by rw [hpc]; exact (lastLine_utf16 p c).mpr hnl)
  by_cases hmem : newline ∈ a.tailText
  · obtain ⟨line, rest, htail, hline⟩ := List.eq_append_cons_of_mem hmem
    have hdrop : a.tailText.dropWhile (· ≠ newline) = newline :: rest := by
      rw [htail, dropWhile_newline hline]
      simp
    have hbehind : behindNewline a.tailText = rest := by rw [behindNewline, hdrop, List.tail_cons]
    have htext : a.getSnapshotText = rest := by
      rw [getSnapshotText, if_neg hinside, hdrop]
    have hwhole : text = cut ++ line ++ newline :: rest := by
      rw [h.keeps.kept, htail, List.append_assoc]
    have hcutLine := @byteLength_cutLine p line (newline :: rest) c hc hline
      (by rw [← htail]; exact h.keeps.wfTail)
    have htailLen : byteLength a.tailText = byteLength line + 1 + byteLength rest := by
      rw [htail, newline, byteLength_append_newline]
    rw [← hpc] at hcutLine
    rw [htext, hwhole, shows_rest_iff hlines (by omega) (by omega), ShowsTail, hbehind]
    constructor
    · exact fun hshows => Or.inr (Or.inr hshows)
    · rintro (habs | habs | hshows)
      · exact absurd habs hboundary
      · exact absurd hmem habs
      · exact hshows
  · have hdrop : a.tailText.dropWhile (· ≠ newline) = [] := by
      have h := dropWhile_newline hmem []
      rwa [List.append_nil] at h
    have htext : a.getSnapshotText = a.tailText := by
      rw [getSnapshotText, if_neg hinside, hdrop]
    rw [htext, h.keeps.kept]
    exact iff_of_true (shows_of_open hlines h.keeps.wfTail hmem (by omega)) (Or.inr (Or.inl hmem))

/-- The decoded text of all the bytes. -/
def decodedText (bytes : List UInt8) : JsString := TextDecoder.stripBom (decodeUtf8 bytes)

/-- The bytes of the temp file whose path a snapshot reports are all of the bytes. -/
def FileComplete (a : OutputAccumulator) (bytes : List UInt8) : Prop :=
  ∀ persistIfTruncated, (a.snapshot persistIfTruncated).1.fullOutputPath.isSome = true →
    ∃ file, (a.snapshot persistIfTruncated).2.tempFile = some file ∧ file.written = bytes

theorem fileComplete (h : Recorded a bytes) : FileComplete a bytes := by
  intro persistIfTruncated
  have hsnapshot : (a.snapshot persistIfTruncated).1.fullOutputPath
      = (a.snapshot persistIfTruncated).2.tempFile.map fun _ =>
        (a.snapshot persistIfTruncated).2.tempFilePath := rfl
  have hrec : Recorded (a.snapshot persistIfTruncated).2 bytes := by
    unfold snapshot
    simp only
    split
    · exact h.ensureTempFile
    · exact h
  rw [hsnapshot, Option.isSome_map]
  intro hsome
  obtain ⟨file, hfile⟩ := Option.isSome_iff_exists.mp hsome
  exact ⟨file, hfile, hrec.written file hfile⟩

/-- **Snapshots of a finished output.** Chunks are appended, with snapshots in between;
then come other calls, and the output is finished by one of them. The temp file holds all
the bytes at every moment, and a snapshot reports what `truncateTail` does with the whole
text if and only if the end that is kept shows enough of it. -/
theorem snapshot_agrees_iff (hlines : 1 ≤ maxLines) (hbytes : 4 ≤ maxBytes) (path : JsString)
    {before after : List Call} (hbefore : ∀ c ∈ before, c ≠ .finish ∧ c ≠ .closeTempFile)
    (hafter : ∀ c ∈ after, ∀ data, c ≠ .append data) :
    ∃ a, (new maxLines maxBytes path).run (before ++ after) = .ok a ∧
      FileComplete a (appended before).flatten ∧
      (.finish ∈ after →
        let text := decodedText (appended before).flatten
        let kept := keptTail maxBytes (TextDecoder.new.decodeChunks (appended before))
        ∀ persistIfTruncated,
          Reports (a.snapshot persistIfTruncated).1 (truncateTail text maxLines maxBytes) ↔
            ShowsTail maxLines maxBytes (text.take (text.length - kept.length)) kept) := by
  obtain ⟨b, pieces, hb, hfollows, hbLines, hbBytes⟩ := Follows.run_feeding before hbefore
    (follows_new maxLines maxBytes path) rfl (fun _ h => by cases h)
  obtain ⟨a, pieces', ha, hfollows', hfinished, haLines, haBytes⟩ :=
    Follows.run_after after hafter hfollows
  rw [List.nil_append] at hfollows'
  have hmaxLines : a.maxLines = maxLines := haLines.trans hbLines
  have hmaxBytes : a.maxBytes = maxBytes := haBytes.trans hbBytes
  refine ⟨a, ?_, fileComplete hfollows'.recorded, ?_⟩
  · rw [run, List.foldlM_append]
    rw [run] at hb
    rw [hb]
    exact ha
  · intro hmem text kept persistIfTruncated
    obtain ⟨cut, htracks⟩ := hfollows'.tracks
    have hpieces := hfollows'.decoded (hfinished (Or.inr hmem))
    have htext : pieces'.flatten = text := by
      rw [hpieces, TextDecoder.decodeChunks_text]
      rfl
    have hkept : a.tailText = kept := by rw [hfollows'.kept, hmaxBytes, hpieces]
    have hcut : cut = text.take (text.length - kept.length) := by
      have hsplit : text = cut ++ kept := by
        rw [← htext, ← hkept]
        exact htracks.keeps.kept
      rw [hsplit, List.length_append, Nat.add_sub_cancel, List.take_left]
    rw [← hcut, ← htext, ← hkept, ← hmaxLines, ← hmaxBytes]
    rw [← hmaxLines] at hlines
    rw [← hmaxBytes] at hbytes
    exact htracks.reports_iff hlines hbytes persistIfTruncated

/-- A line of twenty bytes, and its newline in a chunk of its own. -/
def longLine : List Call := [.append (List.replicate 20 0x78), .append [0x0A]]

theorem snapshot_agrees_iff_longLine :
    ∃ a, (new 10 4 []).run (longLine ++ [.finish]) = .ok a ∧
      FileComplete a (appended longLine).flatten ∧
      ∀ persistIfTruncated, ¬ Reports (a.snapshot persistIfTruncated).1
        (truncateTail (decodedText (appended longLine).flatten) 10 4) := by
  obtain ⟨a, ha, hfile, hreports⟩ :=
    @snapshot_agrees_iff 10 4 (by decide) (by decide) [] longLine [.finish] (by decide) (by simp)
  refine ⟨a, ha, hfile, fun persistIfTruncated h => ?_⟩
  have hshows := (hreports (List.mem_singleton_self _) persistIfTruncated).mp h
  revert hshows
  rw [ShowsTail, ShowsRest]
  decide

/-- The whole text shows the end of the line, the snapshot nothing. -/
theorem longLine_shows_nothing :
    ((new 10 4 []).run (longLine ++ [.finish])).toOption.map
        (fun a => ((a.snapshot false).1.content, (a.snapshot false).1.truncation.lastLinePartial))
          = some ([], false) ∧
      (truncateTail (decodedText (appended longLine).flatten) 10 4).content
        = List.replicate 4 0x78 ∧
      (truncateTail (decodedText (appended longLine).flatten) 10 4).lastLinePartial = true := by
  decide

/-- A snapshot does not report what `truncateTail` does, however the bytes come. -/
theorem not_reports_longLine :
    ¬ ∀ (chunks : List (List UInt8)) (maxLines maxBytes : Nat), 1 ≤ maxLines → 4 ≤ maxBytes →
      ∀ a, (new maxLines maxBytes []).run (chunks.map .append ++ [.finish]) = .ok a →
        Reports (a.snapshot false).1
          (truncateTail (decodedText chunks.flatten) maxLines maxBytes) := by
  intro hall
  obtain ⟨hshown, hwhole, -⟩ := longLine_shows_nothing
  have hcalls : longLine = [List.replicate 20 0x78, [0x0A]].map Call.append := rfl
  cases hrun : (new 10 4 []).run (longLine ++ [.finish]) with
  | error e =>
    rw [hrun] at hshown
    cases hshown
  | ok a =>
    rw [hrun] at hshown
    have hcontent := congrArg Prod.fst (Option.some.inj hshown)
    have hreports := hall [List.replicate 20 0x78, [0x0A]] 10 4 (by decide) (by decide) a
      (by rw [← hcalls]; exact hrun)
    have hempty := hcontent.symm.trans (hreports.content.trans hwhole)
    cases hempty

end OutputAccumulator

end PiMono.CodingAgent
