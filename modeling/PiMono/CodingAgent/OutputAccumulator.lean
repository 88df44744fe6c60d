import PiMono.CodingAgent.Truncate

/-!
# Accumulating tool output

`packages/coding-agent/src/core/tools/output-accumulator.ts`: output comes in chunks, and
only an end of the decoded text is kept for snapshots. `Tracks` says what the parts of an
accumulator have to do with the text so far: which end of it is kept, and that the counters
are those of the whole text. `Recorded` says what the temp file holds.

What a snapshot shows where the text that is kept starts inside a line may differ from what is
shown of the whole text; `snapshot_agrees_iff`, behind this module, says when.
-/

namespace PiMono.CodingAgent

/-- The temp file: the bytes written to it, and whether its stream is open. -/
structure TempFile where
  written : List UInt8
  isOpen : Bool
  deriving DecidableEq

/-- `OutputAccumulator`. `tempFilePath` is the path that `defaultTempFilePath` draws; it is
set once there is a `tempFile`. -/
structure OutputAccumulator where
  maxLines : Nat
  maxBytes : Nat
  decoder : TextDecoder
  rawChunks : List (List UInt8)
  tailText : JsString
  tailBytes : Nat
  tailStartsAtLineBoundary : Bool
  totalRawBytes : Nat
  totalDecodedBytes : Nat
  completedLines : Nat
  totalLines : Nat
  currentLineBytes : Nat
  hasOpenLine : Bool
  finished : Bool
  tempFilePath : JsString
  tempFile : Option TempFile

/-- `OutputSnapshot` -/
structure OutputSnapshot where
  content : JsString
  truncation : TruncationResult
  fullOutputPath : Option JsString

namespace OutputAccumulator

/-- `new OutputAccumulator({ maxLines, maxBytes })` -/
def new (maxLines maxBytes : Nat) (tempFilePath : JsString) : OutputAccumulator where
  maxLines := maxLines
  maxBytes := maxBytes
  decoder := .new
  rawChunks := []
  tailText := []
  tailBytes := 0
  tailStartsAtLineBoundary := true
  totalRawBytes := 0
  totalDecodedBytes := 0
  completedLines := 0
  totalLines := 0
  currentLineBytes := 0
  hasOpenLine := false
  finished := false
  tempFilePath := tempFilePath
  tempFile := none

def maxRollingBytes (a : OutputAccumulator) : Nat := max (a.maxBytes * 2) 1

/-- `trimTail` -/
def trimTail (a : OutputAccumulator) : OutputAccumulator :=
  let buffer := encodeUtf8 a.tailText
  if buffer.length ≤ a.maxRollingBytes then { a with tailBytes := buffer.length }
  else
    let kept := bytesFrom (buffer.length - a.maxRollingBytes) buffer
    let tailText := decodeUtf8 kept
    { a with
      -- the byte in front of those kept; some byte is in front
      tailStartsAtLineBoundary := (buffer.take (buffer.length - kept.length)).getLast? = some 0x0A
      tailText := tailText
      tailBytes := byteLength tailText }

/-- What `appendDecodedText` does to the tail. -/
def appendToTail (a : OutputAccumulator) (text : JsString) : OutputAccumulator :=
  let bytes := byteLength text
  let a := { a with
    totalDecodedBytes := a.totalDecodedBytes + bytes
    tailText := a.tailText ++ text
    tailBytes := a.tailBytes + bytes }
  if a.maxRollingBytes * 2 < a.tailBytes then a.trimTail else a

/-- What `appendDecodedText` does to the counters of lines. -/
def countLines (a : OutputAccumulator) (text : JsString) : OutputAccumulator :=
  let newlines := text.count newline
  let tail := lastLine newline text
  let a :=
    if newlines = 0 then
      { a with currentLineBytes := a.currentLineBytes + byteLength text, hasOpenLine := true }
    else
      { a with
        completedLines := a.completedLines + newlines
        currentLineBytes := byteLength tail
        hasOpenLine := 0 < tail.length }
  { a with totalLines := a.completedLines + if a.hasOpenLine then 1 else 0 }

/-- `appendDecodedText` -/
def appendDecodedText (a : OutputAccumulator) (text : JsString) : OutputAccumulator :=
  if text = [] then a else (a.appendToTail text).countLines text

/-- `getSnapshotText` -/
def getSnapshotText (a : OutputAccumulator) : JsString :=
  if a.tailStartsAtLineBoundary then a.tailText
  else
    match a.tailText.dropWhile (· ≠ newline) with
    | [] => a.tailText
    | _ :: rest => rest

/-- `shouldUseTempFile` -/
def shouldUseTempFile (a : OutputAccumulator) : Bool :=
  a.maxBytes < a.totalRawBytes || a.maxBytes < a.totalDecodedBytes || a.maxLines < a.totalLines

/-- `ensureTempFile` -/
def ensureTempFile (a : OutputAccumulator) : OutputAccumulator :=
  match a.tempFile with
  | some _ => a
  | none => { a with tempFile := some ⟨a.rawChunks.flatten, true⟩, rawChunks := [] }

/-- `this.tempFileStream?.write(data)` -/
def writeTempFile (a : OutputAccumulator) (data : List UInt8) : OutputAccumulator :=
  match a.tempFile with
  | some file => if file.isOpen then { a with tempFile := some ⟨file.written ++ data, true⟩ } else a
  | none => a

/-- What `append` does with the bytes. -/
def recordChunk (a : OutputAccumulator) (data : List UInt8) : OutputAccumulator :=
  if a.tempFile.any (·.isOpen) || a.shouldUseTempFile then a.ensureTempFile.writeTempFile data
  else if 0 < data.length then { a with rawChunks := a.rawChunks ++ [data] }
  else a

/-- `append` -/
def append (a : OutputAccumulator) (data : List UInt8) : Except String OutputAccumulator :=
  if a.finished then .error "Cannot append to a finished output accumulator"
  else
    let (text, decoder) := a.decoder.decode data
    let a := { a with totalRawBytes := a.totalRawBytes + data.length, decoder := decoder }
    .ok ((a.appendDecodedText text).recordChunk data)

/-- `finish` -/
def finish (a : OutputAccumulator) : OutputAccumulator :=
  if a.finished then a
  else
    let a := { a with finished := true }.appendDecodedText a.decoder.flush
    if a.shouldUseTempFile then a.ensureTempFile else a

/-- `snapshot` -/
def snapshot (a : OutputAccumulator) (persistIfTruncated : Bool) :
    OutputSnapshot × OutputAccumulator :=
  let tailTruncation := truncateTail a.getSnapshotText a.maxLines a.maxBytes
  let truncated : Bool := a.maxLines < a.totalLines || a.maxBytes < a.totalDecodedBytes
  let truncatedBy :=
    if truncated then
      some (tailTruncation.truncatedBy.getD
        (if a.maxBytes < a.totalDecodedBytes then .bytes else .lines))
    else none
  let truncation := { tailTruncation with
    truncated := truncated
    truncatedBy := truncatedBy
    totalLines := a.totalLines
    totalBytes := a.totalDecodedBytes
    maxLines := a.maxLines
    maxBytes := a.maxBytes }
  let a := if persistIfTruncated && truncation.truncated then a.ensureTempFile else a
  (⟨truncation.content, truncation, a.tempFile.map fun _ => a.tempFilePath⟩, a)

/-- `closeTempFile` -/
def closeTempFile (a : OutputAccumulator) : OutputAccumulator :=
  { a with tempFile := a.tempFile.map fun file => { file with isOpen := false } }

/-- A call of an accumulator. -/
inductive Call where
  | append (data : List UInt8)
  | finish
  | snapshot (persistIfTruncated : Bool)
  | closeTempFile
  deriving DecidableEq

/-- The accumulator a call leaves, or what it throws. -/
def call (a : OutputAccumulator) : Call → Except String OutputAccumulator
  | .append data => a.append data
  | .finish => .ok a.finish
  | .snapshot persistIfTruncated => .ok (a.snapshot persistIfTruncated).2
  | .closeTempFile => .ok a.closeTempFile

/-- Calls one after the other, up to the first that throws. -/
def run (a : OutputAccumulator) (calls : List Call) : Except String OutputAccumulator :=
  calls.foldlM call a

/-! ## What is kept of a text -/

/-- The end of the text that is kept behind one more piece. -/
def keptStep (maxBytes : Nat) (kept piece : JsString) : JsString :=
  let all := kept ++ piece
  let maxRollingBytes := max (maxBytes * 2) 1
  if maxRollingBytes * 2 < byteLength all then lastBytes maxRollingBytes all else all

/-- The end that is kept of a text that comes in pieces. -/
def keptTail (maxBytes : Nat) (pieces : List JsString) : JsString :=
  pieces.foldl (keptStep maxBytes) []

/-- The tail is the text behind `cut`. -/
structure Keeps (a : OutputAccumulator) (cut text : JsString) : Prop where
  kept : text = cut ++ a.tailText
  wfCut : WellFormed cut
  wfTail : WellFormed a.tailText
  tailBytes : a.tailBytes = byteLength a.tailText
  boundary : a.tailStartsAtLineBoundary = true ↔ lastLine newline cut = []
  -- the character in front of the tail would not have fitted when it was cut
  behind : cut ≠ [] → ∃ (p : JsString) (c : Char), cut = p ++ utf16 c ∧
    a.maxRollingBytes < byteLength (utf16 c) + byteLength a.tailText

/-- The counters are those of the whole text. -/
structure Counts (a : OutputAccumulator) (text : JsString) : Prop where
  completedLines : a.completedLines = text.count newline
  hasOpenLine : a.hasOpenLine = true ↔ lastLine newline text ≠ []
  totalLines : a.totalLines = (splitLinesForCounting text).length

/-- What the parts of an accumulator have to do with the text so far. -/
structure Tracks (a : OutputAccumulator) (cut text : JsString) : Prop where
  keeps : Keeps a cut text
  counts : Counts a text
  room : byteLength a.tailText ≤ a.maxRollingBytes * 2
  totalDecodedBytes : a.totalDecodedBytes = byteLength text

theorem tracks_new (maxLines maxBytes : Nat) (path : JsString) :
    Tracks (new maxLines maxBytes path) [] [] where
  keeps := {
    kept := rfl
    wfCut := wellFormed_nil
    wfTail := wellFormed_nil
    tailBytes := rfl
    boundary := by simp [new]
    behind := fun h => absurd rfl h }
  counts := {
    completedLines := rfl
    hasOpenLine := by simp [new]
    totalLines := rfl }
  room := Nat.zero_le _
  totalDecodedBytes := rfl

variable {a : OutputAccumulator} {cut text piece : JsString}

/-- The last line of a text that a character ends. -/
theorem lastLine_utf16 (p : JsString) (c : Char) :
    lastLine newline (p ++ utf16 c) = [] ↔ c = '\n' := by
  constructor
  · intro h
    by_contra hc
    have hmem : newline ∉ utf16 c := fun hmem => hc (newline_mem_utf16.mp hmem)
    rw [lastLine_append p hmem] at h
    exact utf16_ne_nil c (List.append_eq_nil_iff.mp h).2
  · rintro rfl
    exact lastLine_concat p

/-- A trimmed tail is an end of it, and knows whether a newline stands in front. -/
theorem trimTail_eq {p : JsString} {c : Char}
    (hsplit : a.tailText = p ++ utf16 c ++ lastBytes a.maxRollingBytes a.tailText)
    (hwf : WellFormed a.tailText) (hkept : WellFormed (lastBytes a.maxRollingBytes a.tailText))
    (hover : a.maxRollingBytes < byteLength a.tailText) :
    a.trimTail = { a with
      tailStartsAtLineBoundary := c = '\n'
      tailText := lastBytes a.maxRollingBytes a.tailText
      tailBytes := byteLength (lastBytes a.maxRollingBytes a.tailText) } := by
  have hlen : (encodeUtf8 a.tailText).length = byteLength a.tailText := rfl
  have hbytes := bytesFrom_eq hwf hover
  have hlast : decodeUtf8 (bytesFrom (byteLength a.tailText - a.maxRollingBytes)
      (encodeUtf8 a.tailText)) = lastBytes a.maxRollingBytes a.tailText := by
    rw [lastBytes, if_neg (by omega)]
  have hfront : encodeUtf8 a.tailText = encodeUtf8 p ++ encodeUtf8 (utf16 c)
      ++ encodeUtf8 (lastBytes a.maxRollingBytes a.tailText) := by
    conv_lhs => rw [hsplit]
    rw [encodeUtf8_append_text _ hkept, encodeUtf8_append_text _ (wellFormed_utf16 c)]
  have htake : (encodeUtf8 a.tailText).take ((encodeUtf8 a.tailText).length
      - (encodeUtf8 (lastBytes a.maxRollingBytes a.tailText)).length)
        = encodeUtf8 p ++ encodeUtf8 (utf16 c) := by
    rw [hfront]
    generalize encodeUtf8 p ++ encodeUtf8 (utf16 c) = front
    rw [List.length_append, Nat.add_sub_cancel, List.take_left]
  have hbyte : (encodeUtf8 p ++ encodeUtf8 (utf16 c)).getLast? = some 0x0A ↔ c = '\n' := by
    rw [List.getLast?_append_of_ne_nil _ (encodeUtf8_utf16_ne_nil c)]
    exact getLast?_encodeUtf8_utf16 c
  rw [trimTail]
  simp only
  rw [if_neg (by omega), hlen, hlast, hbytes, ← hlen, htake]
  simp only [hbyte]

theorem Keeps.trimTail (h : Keeps a cut text) (hover : a.maxRollingBytes < byteLength a.tailText) :
    (∃ cut', Keeps a.trimTail cut' text) ∧
      a.trimTail.tailText = lastBytes a.maxRollingBytes a.tailText := by
  obtain ⟨p, c, hsplit, hp, hlast, -, hbehind⟩ := lastBytes_split h.wfTail hover
  rw [byteLength_append _ hlast] at hbehind
  rw [trimTail_eq hsplit h.wfTail hlast hover]
  refine ⟨⟨cut ++ (p ++ utf16 c), ?_⟩, rfl⟩
  constructor
  · show text = cut ++ (p ++ utf16 c) ++ lastBytes a.maxRollingBytes a.tailText
    rw [List.append_assoc, ← hsplit]
    exact h.kept
  · exact h.wfCut.append (hp.append (wellFormed_utf16 c))
  · exact hlast
  · rfl
  · show decide (c = '\n') = true ↔ _
    rw [decide_eq_true_iff, ← List.append_assoc, lastLine_utf16]
  · intro _
    exact ⟨cut ++ p, c, (List.append_assoc ..).symm, hbehind⟩

theorem Keeps.appendToTail (h : Keeps a cut text) (hp : WellFormed piece) :
    (∃ cut', Keeps (a.appendToTail piece) cut' (text ++ piece)) ∧
      (a.appendToTail piece).tailText = keptStep a.maxBytes a.tailText piece := by
  have hlen := byteLength_append a.tailText hp
  have hwritten : Keeps { a with
      totalDecodedBytes := a.totalDecodedBytes + byteLength piece
      tailText := a.tailText ++ piece
      tailBytes := a.tailBytes + byteLength piece } cut (text ++ piece) := by
    refine { h with
      kept := ?_, wfTail := h.wfTail.append hp, tailBytes := ?_, behind := ?_ }
    · rw [h.kept, List.append_assoc]
    · show a.tailBytes + byteLength piece = byteLength (a.tailText ++ piece)
      rw [h.tailBytes, hlen]
    · intro hcut
      obtain ⟨p, c, hpc, hlt⟩ := h.behind hcut
      refine ⟨p, c, hpc, ?_⟩
      show a.maxRollingBytes < byteLength (utf16 c) + byteLength (a.tailText ++ piece)
      omega
  have hbytes : a.tailBytes + byteLength piece = byteLength (a.tailText ++ piece) :=
    hwritten.tailBytes
  rw [OutputAccumulator.appendToTail, keptStep]
  simp only
  by_cases hover : a.maxRollingBytes * 2 < byteLength (a.tailText ++ piece)
  · rw [if_pos (by rw [hbytes]; exact hover)]
    have htrim := hwritten.trimTail (by
      show a.maxRollingBytes < byteLength (a.tailText ++ piece)
      omega)
    exact ⟨htrim.1, htrim.2.trans (if_pos hover).symm⟩
  · rw [if_neg (by rw [hbytes]; exact hover)]
    exact ⟨⟨cut, hwritten⟩, (if_neg hover).symm⟩

theorem Counts.countLines (h : Counts a text) (hne : piece ≠ []) :
    Counts (a.countLines piece) (text ++ piece) := by
  have hopen : (a.countLines piece).hasOpenLine = true ↔ lastLine newline (text ++ piece) ≠ [] := by
    unfold OutputAccumulator.countLines
    by_cases hmem : newline ∈ piece
    · have hcount : piece.count newline ≠ 0 := by
        rw [Ne, List.count_eq_zero]
        exact not_not_intro hmem
      rw [lastLine_append_of_mem text hmem]
      simp [hcount, List.length_pos_iff]
    · rw [lastLine_append text hmem]
      simp [List.count_eq_zero.mpr hmem, hne]
  have hclosed : (a.countLines piece).completedLines = (text ++ piece).count newline := by
    unfold OutputAccumulator.countLines
    rw [List.count_append, ← h.completedLines]
    by_cases hzero : piece.count newline = 0 <;> simp [hzero]
  refine ⟨hclosed, hopen, ?_⟩
  have htotal : (a.countLines piece).totalLines = (a.countLines piece).completedLines
      + if (a.countLines piece).hasOpenLine then 1 else 0 := rfl
  rw [htotal, length_splitLines, hclosed]
  by_cases hlast : lastLine newline (text ++ piece) = []
  · have hno : (a.countLines piece).hasOpenLine = false :=
      Bool.eq_false_iff.mpr fun hyes => hopen.mp hyes hlast
    rw [if_pos hlast, hno]
    rfl
  · rw [if_neg hlast, if_pos (hopen.mpr hlast)]

theorem appendToTail_counts (h : Counts a text) : Counts (a.appendToTail piece) text := by
  unfold appendToTail trimTail
  simp only
  split
  · split
    · exact ⟨h.completedLines, h.hasOpenLine, h.totalLines⟩
    · exact ⟨h.completedLines, h.hasOpenLine, h.totalLines⟩
  · exact ⟨h.completedLines, h.hasOpenLine, h.totalLines⟩

theorem countLines_keeps (h : Keeps a cut text) : Keeps (a.countLines piece) cut text := by
  unfold countLines
  simp only
  split
  · exact { h with }
  · exact { h with }

/-- The parts that decoded text leaves alone. -/
structure SameBesidesText (a b : OutputAccumulator) : Prop where
  maxLines : b.maxLines = a.maxLines
  maxBytes : b.maxBytes = a.maxBytes
  decoder : b.decoder = a.decoder
  rawChunks : b.rawChunks = a.rawChunks
  finished : b.finished = a.finished
  tempFile : b.tempFile = a.tempFile

theorem appendDecodedText_same (a : OutputAccumulator) (text : JsString) :
    SameBesidesText a (a.appendDecodedText text) := by
  unfold appendDecodedText
  split
  · constructor <;> rfl
  · unfold countLines appendToTail trimTail
    simp only
    constructor <;> (repeat' split) <;> rfl

theorem keptStep_room (maxBytes : Nat) (kept : JsString) (hk : WellFormed kept)
    (hp : WellFormed piece) :
    byteLength (keptStep maxBytes kept piece) ≤ max (maxBytes * 2) 1 * 2 := by
  rw [keptStep]
  split
  · rename_i hover
    obtain ⟨-, -, -, -, -, hle, -⟩ :=
      lastBytes_split (n := max (maxBytes * 2) 1) (hk.append hp) (by omega)
    omega
  · omega

/-- A piece of text is kept behind the tail, and counted. -/
theorem Tracks.appendDecodedText (h : Tracks a cut text) (hp : WellFormed piece) :
    (∃ cut', Tracks (a.appendDecodedText piece) cut' (text ++ piece)) ∧
      (a.appendDecodedText piece).tailText = keptStep a.maxBytes a.tailText piece := by
  have hroom := h.room
  by_cases hnil : piece = []
  · rw [OutputAccumulator.appendDecodedText, if_pos hnil, hnil, List.append_nil]
    refine ⟨⟨cut, h⟩, ?_⟩
    rw [keptStep, List.append_nil]
    exact (if_neg (Nat.not_lt.mpr hroom)).symm
  · have hsame := appendDecodedText_same a piece
    obtain ⟨⟨cut', hkeeps⟩, htail⟩ := h.keeps.appendToTail hp
    rw [OutputAccumulator.appendDecodedText, if_neg hnil] at hsame ⊢
    have htail' : ((a.appendToTail piece).countLines piece).tailText
        = keptStep a.maxBytes a.tailText piece := by
      rw [← htail]
      unfold countLines
      simp only
      split <;> rfl
    refine ⟨⟨cut', countLines_keeps hkeeps, (appendToTail_counts h.counts).countLines hnil, ?_, ?_⟩,
      htail'⟩
    · rw [htail', maxRollingBytes, hsame.maxBytes]
      exact keptStep_room a.maxBytes a.tailText h.keeps.wfTail hp
    · have htotal : ((a.appendToTail piece).countLines piece).totalDecodedBytes
          = a.totalDecodedBytes + byteLength piece := by
        unfold countLines OutputAccumulator.appendToTail trimTail
        simp only
        (repeat' split) <;> rfl
      rw [htotal, h.totalDecodedBytes, byteLength_append text hp]

/-! ## Runs -/

/-- The parts that the temp file and the chunks leave alone. -/
structure SameText (a b : OutputAccumulator) : Prop where
  maxLines : b.maxLines = a.maxLines
  maxBytes : b.maxBytes = a.maxBytes
  tailText : b.tailText = a.tailText
  tailBytes : b.tailBytes = a.tailBytes
  tailStartsAtLineBoundary : b.tailStartsAtLineBoundary = a.tailStartsAtLineBoundary
  totalDecodedBytes : b.totalDecodedBytes = a.totalDecodedBytes
  completedLines : b.completedLines = a.completedLines
  hasOpenLine : b.hasOpenLine = a.hasOpenLine
  totalLines : b.totalLines = a.totalLines

theorem Tracks.sameText {b : OutputAccumulator} (h : Tracks a cut text) (hsame : SameText a b) :
    Tracks b cut text := by
  have hrolling : b.maxRollingBytes = a.maxRollingBytes := by
    rw [maxRollingBytes, hsame.maxBytes, maxRollingBytes]
  obtain ⟨hkeeps, hcounts, hroom, htotal⟩ := h
  constructor
  · constructor
    · rw [hsame.tailText]
      exact hkeeps.kept
    · exact hkeeps.wfCut
    · rw [hsame.tailText]
      exact hkeeps.wfTail
    · rw [hsame.tailBytes, hsame.tailText]
      exact hkeeps.tailBytes
    · rw [hsame.tailStartsAtLineBoundary]
      exact hkeeps.boundary
    · rw [hrolling, hsame.tailText]
      exact hkeeps.behind
  · constructor
    · rw [hsame.completedLines]
      exact hcounts.completedLines
    · rw [hsame.hasOpenLine]
      exact hcounts.hasOpenLine
    · rw [hsame.totalLines]
      exact hcounts.totalLines
  · rw [hsame.tailText, hrolling]
    exact hroom
  · rw [hsame.totalDecodedBytes]
    exact htotal

/-- The bytes so far are in the temp file, or else still with the accumulator. -/
structure Recorded (a : OutputAccumulator) (bytes : List UInt8) : Prop where
  held : a.tempFile = none → a.rawChunks.flatten = bytes
  written : ∀ file, a.tempFile = some file → file.written = bytes

/-- The temp file, if there is one, can be written to. -/
def Writable (a : OutputAccumulator) : Prop := ∀ file, a.tempFile = some file → file.isOpen = true

theorem Recorded.ensureTempFile {bytes : List UInt8} (h : Recorded a bytes) :
    Recorded a.ensureTempFile bytes := by
  unfold OutputAccumulator.ensureTempFile
  cases hfile : a.tempFile with
  | some file => exact h
  | none =>
    constructor
    · intro hnone
      cases hnone
    · intro file hsome
      obtain rfl := Option.some.inj hsome
      exact h.held hfile

theorem Writable.ensureTempFile (h : Writable a) : Writable a.ensureTempFile := by
  unfold OutputAccumulator.ensureTempFile
  cases hfile : a.tempFile with
  | some file => exact h
  | none =>
    intro file hsome
    obtain rfl := Option.some.inj hsome
    rfl

theorem exists_ensureTempFile (a : OutputAccumulator) :
    ∃ rawChunks file, a.ensureTempFile =
      { a with rawChunks := rawChunks, tempFile := some file } := by
  unfold OutputAccumulator.ensureTempFile
  cases hfile : a.tempFile with
  | some file =>
    refine ⟨a.rawChunks, file, ?_⟩
    cases a
    cases hfile
    rfl
  | none => exact ⟨_, _, rfl⟩

/-- The bytes of a chunk are recorded behind the others, and nothing else changes. -/
theorem recordChunk_spec {bytes : List UInt8} (hrec : Recorded a bytes) (hopen : Writable a)
    (data : List UInt8) :
    Recorded (a.recordChunk data) (bytes ++ data) ∧ Writable (a.recordChunk data) ∧
      ∃ rawChunks tempFile, a.recordChunk data
        = { a with rawChunks := rawChunks, tempFile := tempFile } := by
  unfold recordChunk
  split
  · obtain ⟨rawChunks, file, heq⟩ := exists_ensureTempFile a
    have hwritten := hrec.ensureTempFile.written file (by rw [heq])
    have hisOpen := hopen.ensureTempFile file (by rw [heq])
    have hwrite : a.ensureTempFile.writeTempFile data = { a with
        rawChunks := rawChunks, tempFile := some ⟨file.written ++ data, true⟩ } := by
      rw [heq]
      simp [writeTempFile, hisOpen]
    rw [hwrite]
    refine ⟨⟨?_, ?_⟩, ?_, _, _, rfl⟩
    · intro hnone
      cases hnone
    · intro file' hsome
      obtain rfl := Option.some.inj hsome
      rw [hwritten]
    · intro file' hsome
      obtain rfl := Option.some.inj hsome
      rfl
  · rename_i hno
    -- an open file would have been written to
    have hnone : a.tempFile = none := by
      cases hfile : a.tempFile with
      | none => rfl
      | some file => simp [hfile, hopen file hfile] at hno
    split
    · refine ⟨⟨?_, ?_⟩, hopen, _, _, rfl⟩
      · intro _
        rw [List.flatten_append, hrec.held hnone, List.flatten_singleton]
      · intro file hsome
        rw [hnone] at hsome
        cases hsome
    · rename_i hempty
      have hnil : data = [] := List.length_eq_zero_iff.mp (Nat.eq_zero_of_not_pos hempty)
      rw [hnil, List.append_nil]
      exact ⟨hrec, hopen, a.rawChunks, a.tempFile, rfl⟩

/-- What an accumulator has to do with the chunks so far, decoded to pieces. -/
structure Follows (a : OutputAccumulator) (chunks : List (List UInt8)) (pieces : List JsString) :
    Prop where
  running : a.finished = false → ∀ more,
    TextDecoder.new.decodeChunks (chunks ++ more) = pieces ++ a.decoder.decodeChunks more
  decoded : a.finished = true → pieces = TextDecoder.new.decodeChunks chunks
  tracks : ∃ cut, Tracks a cut pieces.flatten
  kept : a.tailText = keptTail a.maxBytes pieces
  recorded : Recorded a chunks.flatten

theorem follows_new (maxLines maxBytes : Nat) (path : JsString) :
    Follows (new maxLines maxBytes path) [] [] where
  running := fun _ _ => rfl
  decoded := fun h => Bool.noConfusion h
  tracks := ⟨[], tracks_new maxLines maxBytes path⟩
  kept := rfl
  recorded := ⟨fun _ => rfl, fun _ h => by cases h⟩

/-- The chunks that calls append. -/
def appended (calls : List Call) : List (List UInt8) :=
  calls.flatMap fun
    | .append data => [data]
    | _ => []

variable {chunks : List (List UInt8)} {pieces : List JsString}

/-- A chunk is decoded, kept and recorded. -/
theorem Follows.append (h : Follows a chunks pieces) (hrun : a.finished = false)
    (hopen : Writable a) (data : List UInt8) :
    ∃ b piece, a.append data = .ok b ∧ Follows b (chunks ++ [data]) (pieces ++ [piece]) ∧
      b.finished = false ∧ Writable b ∧ b.maxLines = a.maxLines ∧ b.maxBytes = a.maxBytes := by
  obtain ⟨cut, htracks⟩ := h.tracks
  let a' : OutputAccumulator := { a with
    totalRawBytes := a.totalRawBytes + data.length
    decoder := (a.decoder.decode data).2 }
  have htracks' : Tracks a' cut pieces.flatten := htracks.sameText (by constructor <;> rfl)
  obtain ⟨⟨cut', hpiece⟩, htail⟩ := htracks'.appendDecodedText (a.decoder.wellFormed_decode data)
  have hsame := appendDecodedText_same a' (a.decoder.decode data).1
  have hrec : Recorded (a'.appendDecodedText (a.decoder.decode data).1) chunks.flatten := by
    constructor
    · rw [hsame.tempFile, hsame.rawChunks]
      exact h.recorded.held
    · rw [hsame.tempFile]
      exact h.recorded.written
  have hwritable : Writable (a'.appendDecodedText (a.decoder.decode data).1) := by
    rw [Writable, hsame.tempFile]
    exact hopen
  obtain ⟨hrec', hopen', rawChunks, tempFile, heq⟩ := recordChunk_spec hrec hwritable data
  have hfinished : (a'.appendDecodedText (a.decoder.decode data).1).finished = false :=
    hsame.finished.trans hrun
  refine ⟨(a'.appendDecodedText (a.decoder.decode data).1).recordChunk data,
    (a.decoder.decode data).1, ?_, ?_, ?_, hopen', ?_, ?_⟩
  · rw [OutputAccumulator.append]
    exact if_neg (Bool.eq_false_iff.mp hrun)
  · rw [heq] at hrec' ⊢
    constructor
    · intro _ more
      show _ = _ ++ TextDecoder.decodeChunks (a'.appendDecodedText _).decoder more
      rw [hsame.decoder, List.append_assoc, List.append_assoc]
      exact h.running hrun (data :: more)
    · intro hyes
      exact absurd (hfinished.symm.trans hyes) Bool.noConfusion
    · rw [List.flatten_append, List.flatten_singleton]
      exact ⟨cut', hpiece.sameText (by constructor <;> rfl)⟩
    · show (a'.appendDecodedText _).tailText = keptTail (a'.appendDecodedText _).maxBytes _
      rw [htail, hsame.maxBytes, keptTail, List.foldl_concat, ← keptTail]
      exact congrArg (keptStep a.maxBytes · _) h.kept
    · rw [List.flatten_append, List.flatten_singleton]
      exact hrec'
  · rw [heq]
    exact hfinished
  · rw [heq]
    exact hsame.maxLines
  · rw [heq]
    exact hsame.maxBytes

/-- Only the chunks that are held and the temp file change. -/
theorem Follows.withFile (h : Follows a chunks pieces) {rawChunks : List (List UInt8)}
    {tempFile : Option TempFile}
    (hrec : Recorded { a with rawChunks := rawChunks, tempFile := tempFile } chunks.flatten) :
    Follows { a with rawChunks := rawChunks, tempFile := tempFile } chunks pieces where
  running := h.running
  decoded := h.decoded
  tracks := by
    obtain ⟨cut, htracks⟩ := h.tracks
    exact ⟨cut, htracks.sameText (by constructor <;> rfl)⟩
  kept := h.kept
  recorded := hrec

theorem Follows.ensureTempFile (h : Follows a chunks pieces) :
    Follows a.ensureTempFile chunks pieces := by
  obtain ⟨rawChunks, file, heq⟩ := exists_ensureTempFile a
  have hrec := h.recorded.ensureTempFile
  rw [heq] at hrec ⊢
  exact h.withFile hrec

theorem Follows.closeTempFile (h : Follows a chunks pieces) :
    Follows a.closeTempFile chunks pieces := by
  refine h.withFile ⟨?_, ?_⟩
  · intro hnone
    exact h.recorded.held (Option.map_eq_none_iff.mp hnone)
  · intro file hsome
    obtain ⟨file', hfile, rfl⟩ := Option.map_eq_some_iff.mp hsome
    exact h.recorded.written file' hfile

/-- The end of the input is decoded and kept, once. -/
theorem Follows.finish (h : Follows a chunks pieces) :
    ∃ pieces', Follows a.finish chunks pieces' ∧ a.finish.finished = true ∧
      a.finish.maxLines = a.maxLines ∧ a.finish.maxBytes = a.maxBytes ∧
      (Writable a → Writable a.finish) := by
  unfold OutputAccumulator.finish
  cases hrun : a.finished with
  | true => exact ⟨pieces, h, hrun, rfl, rfl, id⟩
  | false =>
    obtain ⟨cut, htracks⟩ := h.tracks
    let a' : OutputAccumulator := { a with finished := true }
    have htracks' : Tracks a' cut pieces.flatten := htracks.sameText (by constructor <;> rfl)
    obtain ⟨⟨cut', hpiece⟩, htail⟩ := htracks'.appendDecodedText a.decoder.wellFormed_flush
    have hsame := appendDecodedText_same a' a.decoder.flush
    have hfollows : Follows (a'.appendDecodedText a.decoder.flush) chunks
        (pieces ++ [a.decoder.flush]) := by
      constructor
      · intro hno
        exact absurd (hsame.finished.symm.trans hno) Bool.noConfusion
      · intro _
        have hall := h.running hrun []
        rw [List.append_nil] at hall
        exact hall.symm
      · rw [List.flatten_append, List.flatten_singleton]
        exact ⟨cut', hpiece⟩
      · rw [htail, hsame.maxBytes, keptTail, List.foldl_concat, ← keptTail]
        exact congrArg (keptStep a.maxBytes · _) h.kept
      · constructor
        · rw [hsame.tempFile, hsame.rawChunks]
          exact h.recorded.held
        · rw [hsame.tempFile]
          exact h.recorded.written
    have hwritable : Writable a → Writable (a'.appendDecodedText a.decoder.flush) := by
      intro hopen
      rw [Writable, hsame.tempFile]
      exact hopen
    refine ⟨pieces ++ [a.decoder.flush], ?_⟩
    simp only [Bool.false_eq_true, if_false]
    split
    · obtain ⟨rawChunks, file, heq⟩ := exists_ensureTempFile (a'.appendDecodedText a.decoder.flush)
      refine ⟨hfollows.ensureTempFile, ?_, ?_, ?_, fun hopen => (hwritable hopen).ensureTempFile⟩
      · rw [heq]
        exact hsame.finished
      · rw [heq]
        exact hsame.maxLines
      · rw [heq]
        exact hsame.maxBytes
    · exact ⟨hfollows, hsame.finished, hsame.maxLines, hsame.maxBytes, hwritable⟩

/-- A snapshot, closing the temp file and finishing change none of the bytes. -/
theorem Follows.call (h : Follows a chunks pieces) {c : Call} (hc : ∀ data, c ≠ .append data) :
    ∃ b pieces', a.call c = .ok b ∧ Follows b chunks pieces' ∧
      (a.finished = true ∨ c = .finish → b.finished = true) ∧
      (c ≠ .finish → b.finished = a.finished) ∧
      (c ≠ .closeTempFile → Writable a → Writable b) ∧
      b.maxLines = a.maxLines ∧ b.maxBytes = a.maxBytes := by
  cases c with
  | append data => exact absurd rfl (hc data)
  | finish =>
    obtain ⟨pieces', hfollows, hfinished, hlines, hbytes, hopen⟩ := h.finish
    exact ⟨a.finish, pieces', rfl, hfollows, fun _ => hfinished, fun hne => absurd rfl hne,
      fun _ => hopen, hlines, hbytes⟩
  | snapshot persistIfTruncated =>
    obtain ⟨rawChunks, file, heq⟩ := exists_ensureTempFile a
    have hsnapshot : (a.snapshot persistIfTruncated).2 = a ∨
        (a.snapshot persistIfTruncated).2 = a.ensureTempFile := by
      unfold snapshot
      simp only
      split
      · exact Or.inr rfl
      · exact Or.inl rfl
    have hkeep : a.ensureTempFile.finished = a.finished := by rw [heq]
    refine ⟨(a.snapshot persistIfTruncated).2, pieces, rfl, ?_⟩
    rcases hsnapshot with hb | hb
    · rw [hb]
      exact ⟨h, fun hor => hor.resolve_right (by simp), fun _ => rfl, fun _ hopen =>
        hopen, rfl, rfl⟩
    · rw [hb]
      refine ⟨h.ensureTempFile, ?_, fun _ => hkeep, fun _ hopen => hopen.ensureTempFile, ?_, ?_⟩
      · intro hor
        exact hkeep.trans (hor.resolve_right (by simp))
      · rw [heq]
      · rw [heq]
  | closeTempFile =>
    exact ⟨a.closeTempFile, pieces, rfl, h.closeTempFile, fun hor => hor.resolve_right (by simp),
      fun _ => rfl, fun hne => absurd rfl hne, rfl, rfl⟩

/-- Chunks and snapshots, up to the end of the output. -/
theorem Follows.run_feeding : ∀ (calls : List Call) {a : OutputAccumulator}
    {chunks : List (List UInt8)} {pieces : List JsString},
    (∀ c ∈ calls, c ≠ .finish ∧ c ≠ .closeTempFile) → Follows a chunks pieces →
      a.finished = false → Writable a →
      ∃ b pieces', a.run calls = .ok b ∧ Follows b (chunks ++ appended calls) pieces' ∧
        b.maxLines = a.maxLines ∧ b.maxBytes = a.maxBytes
  | [], a, chunks, pieces, _, h, _, _ => by
    refine ⟨a, pieces, rfl, ?_, rfl, rfl⟩
    rw [appended, List.flatMap_nil, List.append_nil]
    exact h
  | c :: calls, a, chunks, pieces, hcalls, h, hrun, hopen => by
    obtain ⟨hfeeds, hcalls⟩ := List.forall_mem_cons.mp hcalls
    have hstep : ∃ b pieces', a.call c = .ok b ∧ Follows b (chunks ++ appended [c]) pieces' ∧
        b.finished = false ∧ Writable b ∧ b.maxLines = a.maxLines ∧ b.maxBytes = a.maxBytes := by
      by_cases happend : ∃ data, c = .append data
      · obtain ⟨data, rfl⟩ := happend
        obtain ⟨b, piece, hb, hrest⟩ := h.append hrun hopen data
        exact ⟨b, _, hb, hrest⟩
      · have hno : ∀ data, c ≠ .append data := fun data heq => happend ⟨data, heq⟩
        obtain ⟨b, pieces', hb, hfollows, -, hfinished, hwritable, hmax⟩ := h.call hno
        refine ⟨b, pieces', hb, ?_, (hfinished hfeeds.1).trans hrun, hwritable hfeeds.2 hopen, hmax⟩
        have hnone : appended [c] = [] := by
          cases c with
          | append data => exact absurd rfl (hno data)
          | finish => rfl
          | snapshot => rfl
          | closeTempFile => rfl
        rw [hnone, List.append_nil]
        exact hfollows
    obtain ⟨b, pieces', hb, hfollows, hrun', hopen', hlines, hbytes⟩ := hstep
    obtain ⟨d, pieces'', hd, hfollows', hlines', hbytes'⟩ :=
      run_feeding calls hcalls hfollows hrun' hopen'
    refine ⟨d, pieces'', ?_, ?_, hlines'.trans hlines, hbytes'.trans hbytes⟩
    · rw [run, List.foldlM_cons, hb]
      exact hd
    · have hcons : appended [c] ++ appended calls = appended (c :: calls) := by simp [appended]
      rw [List.append_assoc, hcons] at hfollows'
      exact hfollows'

/-- The other calls, with the end of the output among them. -/
theorem Follows.run_after : ∀ (calls : List Call) {a : OutputAccumulator} {pieces : List JsString},
    (∀ c ∈ calls, ∀ data, c ≠ .append data) → Follows a chunks pieces →
      ∃ b pieces', a.run calls = .ok b ∧ Follows b chunks pieces' ∧
        (a.finished = true ∨ .finish ∈ calls → b.finished = true) ∧
        b.maxLines = a.maxLines ∧ b.maxBytes = a.maxBytes
  | [], a, pieces, _, h => ⟨a, pieces, rfl, h, fun hor => hor.resolve_right (by simp), rfl, rfl⟩
  | c :: calls, a, pieces, hcalls, h => by
    obtain ⟨hc, hcalls⟩ := List.forall_mem_cons.mp hcalls
    obtain ⟨b, pieces', hb, hfollows, hfinished, -, -, hlines, hbytes⟩ := h.call hc
    obtain ⟨d, pieces'', hd, hfollows', hfinished', hlines', hbytes'⟩ :=
      run_after calls hcalls hfollows
    refine ⟨d, pieces'', ?_, hfollows', ?_, hlines'.trans hlines, hbytes'.trans hbytes⟩
    · rw [run, List.foldlM_cons, hb]
      exact hd
    · rintro (hyes | hmem)
      · exact hfinished' (Or.inl (hfinished (Or.inl hyes)))
      · rcases List.mem_cons.mp hmem with hhead | hmem
        · exact hfinished' (Or.inl (hfinished (Or.inr hhead.symm)))
        · exact hfinished' (Or.inr hmem)

end OutputAccumulator

end PiMono.CodingAgent
