import PiMono.Harness.Truncate

/-!
# Capturing the output of a shell command

`agent/src/harness/utils/shell-output.ts:30-195`. Only the last 100 KB of the output are kept,
and a file takes the whole of it as soon as a limit is crossed. `collectedLines_cut` is why
that is enough: what is truncated from more than the byte limit does not depend on what
stands in front. File operations succeed, so the writes chained are made at once, and the
caller's `onChunk` is left out.
-/

namespace PiMono.Harness

open CodingAgent (TruncationResult TruncatedBy Collected splitLinesForCounting newline
  defaultMaxLines defaultMaxBytes finalLine WithinLimits)

/-- `sanitizeBinaryOutput(str)`; a pair of surrogates passes as its two units do. -/
def sanitizeBinaryOutput (str : JsString) : JsString :=
  str.filter fun code =>
    if code = 0x09 || code = 0x0A || code = 0x0D then true
    else if code ≤ 0x1F then false
    else !(0xFFF9 ≤ code && code ≤ 0xFFFB)

/-- `sanitizeBinaryOutput(chunk).replace(/\r/g, "")` -/
def chunkText (chunk : JsString) : JsString := (sanitizeBinaryOutput chunk).filter (· ≠ 0x0D)

/-- `trimToLastUtf8Bytes` -/
def trimToLastUtf8Bytes (text : JsString) (maxBytes : Nat) : JsString :=
  if byteLength text ≤ maxBytes then text
  else TextDecoder.stripBom
    (decodeUtf8 (bytesFrom (byteLength text - maxBytes) (encodeUtf8 text)))

/-- `maxOutputBytes` -/
def maxOutputBytes : Nat := defaultMaxBytes * 2

/-- The variables of `executeShellWithCapture`; `fullOutput` is what the file holds once it
is asked for. -/
structure ShellCapture where
  tailOutput : JsString
  totalBytes : Nat
  completedLines : Nat
  hasOpenLine : Bool
  currentLineBytes : Nat
  fullOutput : Option (List UInt8)
  deriving DecidableEq

namespace ShellCapture

def new : ShellCapture := ⟨[], 0, 0, false, 0, none⟩

/-- `totalLines` -/
def totalLines (c : ShellCapture) : Nat := c.completedLines + if c.hasOpenLine then 1 else 0

/-- A limit is crossed. -/
def isOver (c : ShellCapture) : Bool :=
  defaultMaxBytes < c.totalBytes || defaultMaxLines < c.totalLines

/-- The counters of `onChunk`. -/
def countText (c : ShellCapture) (text : JsString) : ShellCapture :=
  let counted := { c with
    totalBytes := c.totalBytes + byteLength text
    completedLines := c.completedLines + ((text.splitOn newline).length - 1) }
  if newline ∈ text then
    let trailingText := lastLine newline text
    { counted with
      currentLineBytes := byteLength trailingText
      hasOpenLine := 0 < trailingText.length }
  else if 0 < text.length then
    { counted with currentLineBytes := c.currentLineBytes + byteLength text, hasOpenLine := true }
  else counted

/-- `ensureFullOutputFile(tailOutput)` or `appendFullOutput(text)`. -/
def writeText (c : ShellCapture) (text : JsString) : ShellCapture :=
  match c.fullOutput with
  | some written => { c with fullOutput := some (written ++ encodeUtf8 text) }
  | none => if c.isOver then { c with fullOutput := some (encodeUtf8 c.tailOutput) } else c

/-- `onChunk` -/
def onChunk (c : ShellCapture) (chunk : JsString) : ShellCapture :=
  let text := chunkText chunk
  let counted := c.countText text
  let c := { counted with tailOutput := c.tailOutput ++ text }.writeText text
  { c with tailOutput := trimToLastUtf8Bytes c.tailOutput maxOutputBytes }

/-- `createProgress().truncation` -/
def truncation (c : ShellCapture) (runtimeBuffer : Bool) : TruncationResult :=
  let tailTruncation := truncateTail runtimeBuffer defaultMaxLines defaultMaxBytes c.tailOutput
  let truncated := decide (defaultMaxLines < c.totalLines ∨ defaultMaxBytes < c.totalBytes)
  { tailTruncation with
    truncated := truncated
    truncatedBy :=
      if truncated then
        some (tailTruncation.truncatedBy.getD
          (if defaultMaxBytes < c.totalBytes then .bytes else .lines))
      else none
    totalLines := c.totalLines
    totalBytes := c.totalBytes }

/-- `createProgress().output` -/
def output (c : ShellCapture) (runtimeBuffer : Bool) : JsString :=
  let truncation := c.truncation runtimeBuffer
  if truncation.truncated then truncation.content else c.tailOutput

/-- What is done once the command has ended. -/
def finish (c : ShellCapture) (runtimeBuffer : Bool) : ShellCapture :=
  if (c.truncation runtimeBuffer).truncated ∧ c.fullOutput = none then
    { c with fullOutput := some (encodeUtf8 c.tailOutput) }
  else c

end ShellCapture

/-- How `env.exec` ends. -/
inductive ExecResult where
  | exited (exitCode : Int)
  | failed (isAborted : Bool) (message : JsString)
  deriving DecidableEq

/-- `ShellCaptureResult` -/
structure ShellCaptureResult where
  output : JsString
  truncation : TruncationResult
  fullOutput : Option (List UInt8)
  lastLineBytes : Nat
  exitCode : Option Int
  cancelled : Bool
  truncated : Bool
  executionError : Option JsString
  deriving DecidableEq

/-- `executeShellWithCapture`: the chunks that `env.exec` hands over, in their order, and how
it ends. -/
def executeShellWithCapture (runtimeBuffer returnExecutionErrors signalAborted : Bool)
    (chunks : List JsString) (result : ExecResult) : Except JsString ShellCaptureResult :=
  let c := (chunks.foldl ShellCapture.onChunk .new).finish runtimeBuffer
  let progress (exitCode : Option Int) (cancelled : Bool) (executionError : Option JsString) :
      ShellCaptureResult :=
    ⟨c.output runtimeBuffer, c.truncation runtimeBuffer, c.fullOutput, c.currentLineBytes, exitCode,
      cancelled, (c.truncation runtimeBuffer).truncated, executionError⟩
  match result with
  | .failed isAborted message =>
    if isAborted || signalAborted then .ok (progress none true none)
    else if returnExecutionErrors then .ok (progress none false (some message))
    else .error message
  | .exited exitCode =>
    .ok (progress (if signalAborted then none else some exitCode) signalAborted none)

/-! ## What is in front of a long tail does not matter -/

section Cut

variable {maxLines maxBytes : Nat}

/-- A line that does not fit behind the lines collected ends the loop, however long. -/
theorem collect_blocked {rest : List JsString} {long short : JsString} (hne : rest ≠ [])
    (hlong : maxBytes < byteLength (CodingAgent.joinLines (long :: rest)))
    (hshort : maxBytes < byteLength (CodingAgent.joinLines (short :: rest)))
    (front : List JsString) :
    CodingAgent.collect maxLines maxBytes (front ++ long :: rest).reverse .none
      = CodingAgent.collect maxLines maxBytes (short :: rest).reverse .none := by
  have hpos : 0 < rest.length := List.length_pos_of_ne_nil hne
  have hfront := CodingAgent.collect_lines maxLines maxBytes (front ++ [long]) rest
  have hone := CodingAgent.collect_lines maxLines maxBytes [short] rest
  have happ : front ++ [long] ++ rest = front ++ long :: rest := by simp
  rw [happ] at hfront
  rw [List.singleton_append] at hone
  by_cases hfits : CodingAgent.Fits maxLines maxBytes rest
  · rw [if_pos hfits] at hfront hone
    rw [hfront, hone, List.reverse_append, List.reverse_singleton, List.singleton_append,
      List.reverse_singleton]
    rw [CodingAgent.byteLength_joinLines_cons, if_pos hpos] at hlong hshort
    by_cases hroom : rest.length < maxLines
    · have hlines : (Collected.mk rest (byteLength (CodingAgent.joinLines rest)) .lines
          false).outputLines.length < maxLines := hroom
      rw [CodingAgent.collect_tooLong hne hlines hlong,
        CodingAgent.collect_tooLong hne hlines hshort]
    · rw [CodingAgent.collect_full (Nat.le_of_not_lt hroom),
        CodingAgent.collect_full (Nat.le_of_not_lt hroom)]
  · rw [if_neg hfits] at hfront hone
    rw [hfront, hone]

/-- The lines of a text behind another: the first is the end of a line of the other. -/
theorem splitLines_cut (cut : JsString) {tail : JsString} (hne : tail ≠ []) :
    ∃ first rest, splitLinesForCounting tail = first :: rest ∧
      splitLinesForCounting (cut ++ tail)
        = closedLines newline cut ++ (lastLine newline cut ++ first) :: rest ∧
      (first = tail ∨ ∃ behind, tail = first ++ newline :: behind) := by
  by_cases hmem : newline ∈ tail
  · obtain ⟨first, behind, rfl, hfirst⟩ := List.eq_append_cons_of_mem hmem
    have hown := CodingAgent.splitLines_append_newline first behind
    have hall := CodingAgent.splitLines_append_newline (cut ++ first) behind
    rw [List.splitOn_eq_singleton hfirst] at hown
    rw [splitOn_append cut hfirst, List.append_assoc, List.append_assoc] at hall
    exact ⟨first, _, hown, hall, Or.inr ⟨behind, rfl⟩⟩
  · have hlast : tail.getLast? ≠ some newline := fun h =>
      hmem (List.mem_of_getLast? h)
    have hlast' : (cut ++ tail).getLast? ≠ some newline := by
      rwa [List.getLast?_append_of_ne_nil _ hne]
    refine ⟨tail, [], ?_, ?_, Or.inl rfl⟩
    · rw [CodingAgent.splitLines_of_open hne hlast, List.splitOn_eq_singleton hmem]
    · rw [CodingAgent.splitLines_of_open (List.append_ne_nil_of_right_ne_nil _ hne) hlast',
        splitOn_append cut hmem]

/-- **What is cut off does not matter.** As long as the text behind it does not fit. -/
theorem collectedLines_cut (hpos : 0 < maxLines) (cut : JsString) {tail : JsString}
    (hwf : WellFormed tail) (hover : maxBytes + 1 < byteLength tail) :
    CodingAgent.collectedLines maxLines maxBytes (cut ++ tail)
      = CodingAgent.collectedLines maxLines maxBytes tail := by
  have hne : tail ≠ [] := by
    rintro rfl
    exact absurd hover (Nat.not_lt_zero _)
  obtain ⟨first, rest, hown, hall, hshape⟩ := splitLines_cut cut hne
  have hfirst : WellFormed first := by
    rcases hshape with rfl | ⟨behind, rfl⟩
    · exact hwf
    · exact (WellFormed.of_append_cons (by decide) (by decide) hwf).1
  have hlong := byteLength_append (lastLine newline cut) hfirst
  have hjoin : maxBytes < byteLength (CodingAgent.joinLines (first :: rest)) := by
    rcases CodingAgent.byteLength_splitLines hne with ⟨-, h⟩ | ⟨-, h⟩ <;> rw [hown] at h <;> omega
  have hroom := CodingAgent.byteLength_joinLines_cons first rest
  have hroom' := CodingAgent.byteLength_joinLines_cons (lastLine newline cut ++ first) rest
  rw [CodingAgent.collectedLines, CodingAgent.collectedLines, hown, hall]
  by_cases hrest : rest = []
  · -- one line, of which the end is taken
    subst hrest
    rw [CodingAgent.joinLines_singleton] at hjoin
    have hcut := @CodingAgent.collect_partial maxLines maxBytes hpos
    rw [List.reverse_append, List.reverse_singleton, List.singleton_append, hcut (by omega),
      List.reverse_singleton, hcut hjoin, lastBytes_append _ hfirst hjoin]
  · exact collect_blocked hrest (by omega) hjoin _

end Cut

/-! ## What the capture keeps -/

/-- The mark that a decoder drops is three bytes. -/
theorem stripBom_cases (s : JsString) :
    TextDecoder.stripBom s = s ∨ s = 0xFEFF :: TextDecoder.stripBom s := by
  unfold TextDecoder.stripBom
  split
  · rename_i hbom
    cases s with
    | nil => cases hbom
    | cons u us =>
      obtain rfl := Option.some.inj hbom
      exact Or.inr rfl
  · exact Or.inl rfl

/-- What is trimmed is an end of the text, and all of the bytes but a few. -/
theorem trim_spec {text : JsString} (hwf : WellFormed text) {maxBytes : Nat} :
    ∃ cut, text = cut ++ trimToLastUtf8Bytes text maxBytes ∧
      WellFormed (trimToLastUtf8Bytes text maxBytes) ∧
      (cut = [] ∨ maxBytes ≤ byteLength (trimToLastUtf8Bytes text maxBytes) + 6) := by
  by_cases hfits : byteLength text ≤ maxBytes
  · rw [trimToLastUtf8Bytes, if_pos hfits]
    exact ⟨[], rfl, hwf, Or.inl rfl⟩
  · have hlast : trimToLastUtf8Bytes text maxBytes
        = TextDecoder.stripBom (lastBytes maxBytes text) := by
      rw [trimToLastUtf8Bytes, if_neg hfits, lastBytes, if_neg hfits]
    obtain ⟨p, c, hsplit, -, hwf', -, hbehind⟩ := lastBytes_split hwf (Nat.lt_of_not_le hfits)
    have hstrip := TextDecoder.wellFormed_stripBom hwf'
    have hchar := byteLength_utf16_le c
    rw [byteLength_append _ hwf'] at hbehind
    rw [hlast]
    rcases stripBom_cases (lastBytes maxBytes text) with hsame | hmark
    · rw [hsame]
      exact ⟨p ++ utf16 c, hsplit, hwf', Or.inr (by omega)⟩
    · have hthree : byteLength [0xFEFF] = 3 := by decide
      have hlen := byteLength_append [0xFEFF] hstrip
      rw [List.singleton_append, ← hmark, hthree] at hlen
      refine ⟨p ++ utf16 c ++ [0xFEFF], ?_, hstrip, Or.inr (by omega)⟩
      rw [List.append_assoc, List.singleton_append, ← hmark]
      exact hsplit

/-- Characters of one unit are kept or dropped, all others pass. -/
theorem wellFormed_filter {keep : UInt16 → Bool}
    (hsurrogate : ∀ u, isHighSurrogate u = true ∨ isLowSurrogate u = true → keep u = true)
    {s : JsString} (h : WellFormed s) : WellFormed (s.filter keep) := by
  obtain ⟨cs, rfl⟩ := h
  induction cs with
  | nil => exact wellFormed_nil
  | cons c cs ih =>
    rw [List.flatMap_cons, List.filter_append]
    refine WellFormed.append ?_ ih
    by_cases hall : ∀ u ∈ utf16 c, keep u = true
    · rw [List.filter_eq_self.mpr hall]
      exact wellFormed_utf16 c
    · obtain ⟨u, hu, hdrop⟩ : ∃ u ∈ utf16 c, keep u ≠ true := by
        by_contra hnone
        exact hall fun u hu => by
          by_contra hdrop
          exact hnone ⟨u, hu, hdrop⟩
      have hplain : ¬ (isHighSurrogate u = true ∨ isLowSurrogate u = true) :=
        fun h => hdrop (hsurrogate u h)
      rw [not_or, Bool.not_eq_true, Bool.not_eq_true] at hplain
      rw [utf16_of_mem hu hplain.1 hplain.2, List.filter_cons_of_neg (by simpa using hdrop)]
      exact wellFormed_nil

theorem wellFormed_chunkText {chunk : JsString} (h : WellFormed chunk) :
    WellFormed (chunkText chunk) := by
  refine wellFormed_filter (fun u hu => ?_) (wellFormed_filter (fun u hu => ?_) h)
  · have hne : u ≠ 0x0D := by
      rintro rfl
      revert hu
      decide
    simpa using hne
  · have hbounds : 0xD800 ≤ u.toNat ∧ u.toNat ≤ 0xDFFF := by
      simp only [isHighSurrogate, isLowSurrogate, Bool.and_eq_true, decide_eq_true_eq] at hu
      omega
    have hlow : ¬ u ≤ 0x1F := by
      rw [UInt16.le_iff_toNat_le]
      have : (0x1F : UInt16).toNat = 0x1F := rfl
      omega
    have hhigh : ¬ 0xFFF9 ≤ u := by
      rw [UInt16.le_iff_toNat_le]
      have : (0xFFF9 : UInt16).toNat = 0xFFF9 := rfl
      omega
    simp [hlow, hhigh]

/-- What the variables have to do with the text so far. -/
structure Captures (c : ShellCapture) (text : JsString) : Prop where
  wellFormed : WellFormed text
  tail : ∃ cut, text = cut ++ c.tailOutput ∧ WellFormed c.tailOutput ∧
    (cut = [] ∨ maxOutputBytes ≤ byteLength c.tailOutput + 6)
  totalBytes : c.totalBytes = byteLength text
  completedLines : c.completedLines = text.count newline
  hasOpenLine : c.hasOpenLine = true ↔ lastLine newline text ≠ []
  file : ∀ written, c.fullOutput = some written → written = encodeUtf8 text
  unwritten : c.fullOutput = none → c.isOver = false

theorem captures_new : Captures .new [] where
  wellFormed := wellFormed_nil
  tail := ⟨[], rfl, wellFormed_nil, Or.inl rfl⟩
  totalBytes := rfl
  completedLines := rfl
  hasOpenLine := by simp [ShellCapture.new]
  file := nofun
  unwritten := fun _ => by decide

section Steps

variable {c : ShellCapture} {text piece : JsString}

theorem Captures.totalLines (h : Captures c text) :
    c.totalLines = (splitLinesForCounting text).length := by
  rw [ShellCapture.totalLines, h.completedLines, CodingAgent.length_splitLines]
  by_cases hlast : lastLine newline text = []
  · have hclosed : c.hasOpenLine = false :=
      Bool.eq_false_iff.mpr fun hopen => h.hasOpenLine.mp hopen hlast
    rw [hclosed, if_pos hlast]
    rfl
  · rw [h.hasOpenLine.mpr hlast, if_neg hlast]
    rfl

/-- Below the limits nothing has been cut off. -/
theorem Captures.uncut (h : Captures c text) (hbytes : byteLength text ≤ defaultMaxBytes) :
    c.tailOutput = text := by
  obtain ⟨cut, htext, hwf, hcut | hlong⟩ := h.tail
  · rw [htext, hcut]
    rfl
  · have hlen := byteLength_append cut hwf
    rw [← htext] at hlen
    simp only [maxOutputBytes, defaultMaxBytes] at hlong hbytes
    omega

/-- The counters of one more piece. -/
theorem Captures.countText (h : Captures c text) (hpiece : WellFormed piece) :
    (c.countText piece).totalBytes = byteLength (text ++ piece) ∧
      (c.countText piece).completedLines = (text ++ piece).count newline ∧
      ((c.countText piece).hasOpenLine = true ↔ lastLine newline (text ++ piece) ≠ []) ∧
      (c.countText piece).fullOutput = c.fullOutput := by
  have hbytes := byteLength_append text hpiece
  have hlines : (piece.splitOn newline).length - 1 = piece.count newline := by
    rw [length_splitOn, Nat.add_sub_cancel]
  unfold ShellCapture.countText
  rw [List.count_append, hbytes, hlines, h.totalBytes, h.completedLines]
  by_cases hmem : newline ∈ piece
  · rw [lastLine_append_of_mem text hmem]
    simp only [if_pos hmem, decide_eq_true_eq, List.length_pos_iff, and_true]
  · rw [lastLine_append text hmem]
    simp only [if_neg hmem]
    by_cases hpos : 0 < piece.length
    · simp only [if_pos hpos, true_and, and_true, true_iff]
      exact List.append_ne_nil_of_right_ne_nil _ (List.length_pos_iff.mp hpos)
    · have hnil : piece = [] := List.eq_nil_of_length_eq_zero (by omega)
      simp only [if_neg hpos, true_and, and_true]
      rw [hnil, List.append_nil]
      exact h.hasOpenLine

namespace ShellCapture

theorem writeText_tailOutput (c : ShellCapture) (text : JsString) :
    (c.writeText text).tailOutput = c.tailOutput := by
  unfold writeText
  split
  · rfl
  · split <;> rfl

theorem writeText_some {written : List UInt8} (h : c.fullOutput = some written) :
    c.writeText text = { c with fullOutput := some (written ++ encodeUtf8 text) } := by
  simp only [writeText, h]

theorem writeText_none (h : c.fullOutput = none) :
    c.writeText text
      = { c with fullOutput := if c.isOver then some (encodeUtf8 c.tailOutput) else none } := by
  simp only [writeText, h]
  split
  · rfl
  · rw [← h]

end ShellCapture

/-- One more chunk. -/
theorem Captures.onChunk (h : Captures c text) {chunk : JsString} (hchunk : WellFormed chunk) :
    Captures (c.onChunk chunk) (text ++ chunkText chunk) := by
  have hpiece := wellFormed_chunkText hchunk
  generalize hname : chunkText chunk = piece at hpiece
  obtain ⟨hbytes, hlines, hopen, hfull⟩ := h.countText hpiece
  obtain ⟨cut, htext, hwf, hcut⟩ := h.tail
  obtain ⟨extended, hextended⟩ : ∃ extended : ShellCapture,
      extended = { c.countText piece with tailOutput := c.tailOutput ++ piece } := ⟨_, rfl⟩
  have htail : extended.tailOutput = c.tailOutput ++ piece := by rw [hextended]
  have hfull' : extended.fullOutput = c.fullOutput := by rw [hextended]; exact hfull
  have hisOver : extended.isOver = (c.countText piece).isOver := by rw [hextended]; rfl
  have honChunk : c.onChunk chunk = { extended.writeText piece with
      tailOutput := trimToLastUtf8Bytes (extended.writeText piece).tailOutput maxOutputBytes } := by
    rw [ShellCapture.onChunk, hname, hextended]
  -- the counters stay as the text is written and trimmed
  obtain ⟨fullOutput, hresult, hfile, hunwritten⟩ : ∃ fullOutput,
      c.onChunk chunk = { c.countText piece with
        tailOutput := trimToLastUtf8Bytes (c.tailOutput ++ piece) maxOutputBytes
        fullOutput := fullOutput } ∧
      (∀ written, fullOutput = some written → written = encodeUtf8 (text ++ piece)) ∧
      (fullOutput = none → (c.countText piece).isOver = false) := by
    rw [honChunk, ShellCapture.writeText_tailOutput, htail]
    cases hbefore : c.fullOutput with
    | some written =>
      rw [ShellCapture.writeText_some (hfull'.trans hbefore), hextended]
      refine ⟨_, rfl, fun all hall => ?_, nofun⟩
      rw [← Option.some.inj hall, h.file written hbefore, encodeUtf8_append_text text hpiece]
    | none =>
      have hover := h.unwritten hbefore
      have huncut : c.tailOutput = text := h.uncut (by
        rw [← h.totalBytes]
        simp only [ShellCapture.isOver, Bool.or_eq_false_iff, decide_eq_false_iff_not] at hover
        omega)
      rw [ShellCapture.writeText_none (hfull'.trans hbefore), hisOver, htail, huncut, hextended]
      refine ⟨_, rfl, fun all hall => ?_, fun hnone => ?_⟩
      · rw [← Option.some.inj (Option.ite_none_right_eq_some.mp hall).2]
      · by_contra hnow
        rw [Bool.not_eq_false] at hnow
        rw [if_pos hnow] at hnone
        cases hnone
  obtain ⟨cut', htrim, hwf', hcut'⟩ := @trim_spec _ (hwf.append hpiece) maxOutputBytes
  rw [hresult]
  refine ⟨h.wellFormed.append hpiece, ⟨cut ++ cut', ?_, hwf', ?_⟩, hbytes, hlines, hopen, hfile,
    hunwritten⟩
  · show text ++ piece = cut ++ cut' ++ trimToLastUtf8Bytes (c.tailOutput ++ piece) maxOutputBytes
    rw [List.append_assoc, ← htrim, htext, List.append_assoc]
  · show _ ∨ maxOutputBytes ≤
      byteLength (trimToLastUtf8Bytes (c.tailOutput ++ piece) maxOutputBytes) + 6
    rcases hcut' with hnone | hlong
    · rcases hcut with hnone' | hlong
      · exact Or.inl (by rw [hnone, hnone', List.append_nil])
      · refine Or.inr (hlong.trans ?_)
        rw [hnone, List.nil_append] at htrim
        rw [← htrim, byteLength_append _ hpiece]
        omega
    · exact Or.inr hlong

/-- All chunks. -/
theorem captures_chunks {chunks : List JsString} (h : ∀ chunk ∈ chunks, WellFormed chunk) :
    Captures (chunks.foldl ShellCapture.onChunk .new) (chunks.flatMap chunkText) := by
  induction chunks using List.reverseRecOn with
  | nil => exact captures_new
  | append_singleton chunks chunk ih =>
    have hchunks := ih fun other hother => h other (List.mem_append_left _ hother)
    rw [List.foldl_append, List.flatMap_append, List.flatMap_singleton]
    exact hchunks.onChunk (h chunk (by simp))

theorem Captures.finish (h : Captures c text) (runtimeBuffer : Bool) :
    Captures (c.finish runtimeBuffer) text := by
  unfold ShellCapture.finish
  split
  · -- over a limit the file has been asked for
    rename_i hover
    have hnot := h.unwritten hover.2
    have htruncated := hover.1
    simp only [ShellCapture.truncation, decide_eq_true_eq] at htruncated
    simp only [ShellCapture.isOver, Bool.or_eq_false_iff, decide_eq_false_iff_not] at hnot
    omega
  · exact h

end Steps

/-! ## What is reported -/

/-- Over a limit everything but the totals is read off what is collected. -/
theorem truncateTail_of_over {content : JsString} {maxLines maxBytes : Nat}
    (h : ¬ WithinLimits content maxLines maxBytes) :
    CodingAgent.truncateTail content maxLines maxBytes =
      let c := CodingAgent.collectedLines maxLines maxBytes content
      ⟨CodingAgent.joinLines c.outputLines, true, some (CodingAgent.reported maxLines maxBytes c),
        (splitLinesForCounting content).length, byteLength content, c.outputLines.length,
        byteLength (CodingAgent.joinLines c.outputLines), c.lastLinePartial, false, maxLines,
          maxBytes⟩ := by
  rw [CodingAgent.truncateTail]
  simp only [if_neg (show ¬ (_ ∧ _) from h)]
  rfl

/-- The tail collects the same as the whole text. -/
theorem Captures.collected {c : ShellCapture} {text : JsString} (h : Captures c text) :
    CodingAgent.collectedLines defaultMaxLines defaultMaxBytes text
        = CodingAgent.collectedLines defaultMaxLines defaultMaxBytes c.tailOutput ∧
      (WithinLimits c.tailOutput defaultMaxLines defaultMaxBytes
        ↔ WithinLimits text defaultMaxLines defaultMaxBytes) := by
  obtain ⟨cut, htext, hwf, hcut | hlong⟩ := h.tail
  · rw [htext, hcut]
    exact ⟨rfl, Iff.rfl⟩
  · have hover : defaultMaxBytes + 1 < byteLength c.tailOutput := by
      simp only [maxOutputBytes, defaultMaxBytes] at hlong ⊢
      omega
    have hlen := byteLength_append cut hwf
    rw [← htext] at hlen
    refine ⟨?_, fun hin => ?_, fun hin => ?_⟩
    · rw [htext]
      exact collectedLines_cut (by decide) cut hwf hover
    · have := hin.2
      omega
    · have := hin.2
      omega

/-- The truncation of the tail is that of the whole text. -/
theorem Captures.truncation_eq {c : ShellCapture} {text : JsString} (h : Captures c text)
    (runtimeBuffer : Bool) : c.truncation runtimeBuffer
      = truncateTail runtimeBuffer defaultMaxLines defaultMaxBytes text := by
  have hpos : 0 < defaultMaxBytes := by decide
  obtain ⟨hcollected, hiff⟩ := h.collected
  have hover : (defaultMaxLines < c.totalLines ∨ defaultMaxBytes < c.totalBytes)
      ↔ ¬ WithinLimits text defaultMaxLines defaultMaxBytes := by
    rw [h.totalLines, h.totalBytes, WithinLimits]
    omega
  rw [ShellCapture.truncation]
  simp only [truncateTail_eq runtimeBuffer hpos, hover]
  by_cases hwithin : WithinLimits text defaultMaxLines defaultMaxBytes
  · -- nothing is truncated, and the tail is the text
    have htail := h.uncut hwithin.2
    have htruncate : CodingAgent.truncateTail text defaultMaxLines defaultMaxBytes
        = ⟨text, false, none, (splitLinesForCounting text).length, byteLength text,
          (splitLinesForCounting text).length, byteLength text, false, false, defaultMaxLines,
          defaultMaxBytes⟩ := by
      rw [CodingAgent.truncateTail]
      simp only [if_pos (show _ ∧ _ from hwithin)]
    rw [htail, htruncate, h.totalLines, h.totalBytes]
    simp [hwithin]
  · rw [truncateTail_of_over hwithin, truncateTail_of_over (hiff.not.mpr hwithin), hcollected,
      h.totalLines, h.totalBytes]
    simp [hwithin]

/-- What is reported of the whole text: its truncation, and a file that has all of it. -/
structure CapturesAll (runtimeBuffer : Bool) (whole : JsString) (r : ShellCaptureResult) :
    Prop where
  output : r.output = (truncateTail runtimeBuffer defaultMaxLines defaultMaxBytes whole).content
  untruncated : r.truncated = false → r.output = whole
  truncation : r.truncation = truncateTail runtimeBuffer defaultMaxLines defaultMaxBytes whole
  truncated : r.truncated
    = (truncateTail runtimeBuffer defaultMaxLines defaultMaxBytes whole).truncated
  file : ∀ written, r.fullOutput = some written → written = encodeUtf8 whole

/-- The text that is shown: of a text that is not truncated, the tail. -/
theorem Captures.output_eq {c : ShellCapture} {text : JsString} (h : Captures c text)
    (runtimeBuffer : Bool) : c.output runtimeBuffer
      = (truncateTail runtimeBuffer defaultMaxLines defaultMaxBytes text).content ∧
      ((c.truncation runtimeBuffer).truncated = false → c.output runtimeBuffer = text) := by
  have hpos : 0 < defaultMaxBytes := by decide
  rw [ShellCapture.output, h.truncation_eq, truncateTail_eq runtimeBuffer hpos]
  by_cases hwithin : WithinLimits text defaultMaxLines defaultMaxBytes
  · have htail := h.uncut hwithin.2
    have htruncate : (CodingAgent.truncateTail text defaultMaxLines defaultMaxBytes).truncated
        = false := by
      rw [CodingAgent.truncateTail]
      simp only [if_pos (show _ ∧ _ from hwithin)]
    have hcontent := ((@CodingAgent.keepsTail_truncateTail text defaultMaxLines defaultMaxBytes
      (by decide)).whole hwithin).1
    simp [htruncate, hcontent, htail]
  · rw [truncateTail_of_over hwithin]
    exact ⟨rfl, fun h => by cases h⟩

/-- **The capture.** However the command ends, what is returned is what `truncateTail` makes
of all its output; only a failure that is to be thrown returns nothing. No chunk has a lone
surrogate: the streams are read with `setEncoding("utf8")`, which hands over whole characters. -/
theorem executeShellWithCapture_captures (runtimeBuffer returnExecutionErrors signalAborted : Bool)
    {chunks : List JsString} (h : ∀ chunk ∈ chunks, WellFormed chunk) (result : ExecResult) :
    match executeShellWithCapture runtimeBuffer returnExecutionErrors signalAborted
      chunks result with
    | .ok r => CapturesAll runtimeBuffer (chunks.flatMap chunkText) r
    | .error message =>
      result = .failed false message ∧ signalAborted = false ∧ returnExecutionErrors = false := by
  have hcaptures := (captures_chunks h).finish runtimeBuffer
  obtain ⟨houtput, huntruncated⟩ := hcaptures.output_eq runtimeBuffer
  have htruncation := hcaptures.truncation_eq runtimeBuffer
  have hall (exitCode : Option Int) (cancelled : Bool) (executionError : Option JsString) :
      CapturesAll runtimeBuffer (chunks.flatMap chunkText)
        ⟨_, _, _, ((chunks.foldl ShellCapture.onChunk .new).finish runtimeBuffer).currentLineBytes,
          exitCode, cancelled, _, executionError⟩ :=
    ⟨houtput, huntruncated, htruncation, congrArg TruncationResult.truncated htruncation,
      hcaptures.file⟩
  cases result with
  | exited exitCode => exact hall _ _ _
  | failed isAborted message =>
    cases isAborted with
    | true => exact hall _ _ _
    | false =>
      cases signalAborted with
      | true => exact hall _ _ _
      | false =>
        cases returnExecutionErrors with
        | true => exact hall _ _ _
        | false => exact ⟨rfl, rfl, rfl⟩

/-- Two chunks, of which the second has a carriage return. -/
theorem executeShellWithCapture_captures_two :
    CapturesAll true (js "ab\nc")
      ⟨js "ab\nc", truncateTail true defaultMaxLines defaultMaxBytes (js "ab\nc"), none, 1, some 0,
        false, false, none⟩ := by
  have h := @executeShellWithCapture_captures true false false [js "ab", js "\r\nc"]
    (fun chunk hchunk => by
      rcases List.mem_pair.mp hchunk with rfl | rfl
      · exact wellFormed_js _
      · exact wellFormed_js _) (.exited 0)
  have hrun : executeShellWithCapture true false false [js "ab", js "\r\nc"] (.exited 0)
      = .ok ⟨js "ab\nc", truncateTail true defaultMaxLines defaultMaxBytes (js "ab\nc"), none, 1,
        some 0, false, false, none⟩ := by decide
  have htext : [js "ab", js "\r\nc"].flatMap chunkText = js "ab\nc" := by decide
  rw [hrun, htext] at h
  exact h

end PiMono.Harness
