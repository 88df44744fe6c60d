import PiMono.CodingAgent.SessionFile
import PiMono.Lib.LineChunks

/-!
# The header of a session file

`readSessionHeader` (`session-manager.ts:654-699`) looks for the header of a file without
reading all of it, `loadEntriesFromFile` (`:587-630`) reads everything; both take the bytes
in the pieces that `readSync` returns. `loadEntriesInChunks_eq` says that the pieces are of
no matter to the load, and `readSessionHeader_agrees` that the scan finds the header that
the load finds.
-/

namespace PiMono

/-- `SESSION_READ_BUFFER_SIZE` -/
def sessionReadBufferSize : Nat := 1024 * 1024

/-- `SESSION_HEADER_READ_BUFFER_SIZE` -/
def sessionHeaderReadBufferSize : Nat := 4096

/-- `MAX_SESSION_HEADER_SCAN_BYTES` -/
def maxSessionHeaderScanBytes : Nat := 1024 * 1024

/-- `readSync`: some of the bytes that are left, at least one of them and at most
`length`; the file system offers `offered`. What is read, and what is left. -/
def readSync (offered length : Nat) (bytes : List UInt8) : List UInt8 × List UInt8 :=
  bytes.splitAt (min length (max 1 offered))

theorem readSync_append (offered length : Nat) (bytes : List UInt8) :
    (readSync offered length bytes).1 ++ (readSync offered length bytes).2 = bytes := by
  rw [readSync, List.splitAt_eq]
  exact List.take_append_drop _ _

theorem length_readSync_lt {offered length : Nat} {bytes : List UInt8} (hlength : 0 < length)
    (h : bytes ≠ []) : (readSync offered length bytes).2.length < bytes.length := by
  have := List.length_pos_of_ne_nil h
  rw [readSync, List.splitAt_eq, List.length_drop]
  omega

theorem length_readSync_le (offered length : Nat) (bytes : List UInt8) :
    (readSync offered length bytes).1.length ≤ length := by
  rw [readSync, List.splitAt_eq, List.length_take]
  omega

/-! ## The load -/

/-- The loop of `loadEntriesFromFile` from the `i`-th read on. -/
def loadChunks (offered : Nat → Nat) (i : Nat) (bytes : List UInt8) (decoder : DecodeState)
    (pending : JsString) (entries : List FileEntry) : List FileEntry :=
  if bytes = [] then
    entries ++ entriesOfLines [pending ++ decodeEnd decoder]
  else
    let read := readSync (offered i) sessionReadBufferSize bytes
    let text := pending ++ (decodeRun decoder read.1).1
    loadChunks offered (i + 1) read.2 (decodeRun decoder read.1).2 (lastLine 0x0A text)
      (entries ++ entriesOfLines (closedLines 0x0A text))
termination_by bytes.length
decreasing_by
  rename_i hnil
  exact length_readSync_lt (by decide) hnil

/-- `loadEntriesFromFile`, read by read. -/
def loadEntriesInChunks (offered : Nat → Nat) (bytes : List UInt8) : List FileEntry :=
  let entries := loadChunks offered 0 bytes .start [] []
  if hasSessionHeader entries then entries else []

theorem entriesOfLines_append (lines others : List JsString) :
    entriesOfLines (lines ++ others) = entriesOfLines lines ++ entriesOfLines others :=
  List.filterMap_append

/-- What comes out of a decoder at the end ends no line. -/
theorem newline_notMem_decodeEnd (q : DecodeState) : (0x0A : UInt16) ∉ decodeEnd q := by
  cases q with
  | start => exact List.not_mem_nil
  | inside =>
    show (0x0A : UInt16) ∉ utf16 replacementChar
    decide

theorem loadChunks_eq (offered : Nat → Nat) (i : Nat) (bytes : List UInt8)
    (decoder : DecodeState) (pending : JsString) (entries : List FileEntry)
    (hpending : (0x0A : UInt16) ∉ pending) :
    loadChunks offered i bytes decoder pending entries
      = entries ++ entriesOfText (pending ++ decodeFrom decoder bytes) := by
  induction hn : bytes.length using Nat.strongRecOn
    generalizing i bytes decoder pending entries with
  | _ n ih =>
    rw [loadChunks]
    by_cases hnil : bytes = []
    · have hline : (0x0A : UInt16) ∉ pending ++ decodeEnd decoder := by
        rw [List.mem_append]
        exact fun h => h.elim hpending (newline_notMem_decodeEnd decoder)
      rw [if_pos hnil, hnil, decodeFrom, entriesOfText, List.splitOn_eq_singleton hline]
    · rw [if_neg hnil]
      dsimp only
      have hlt : (readSync (offered i) sessionReadBufferSize bytes).2.length < bytes.length :=
        length_readSync_lt (by decide) hnil
      rw [ih _ (hn ▸ hlt) _ _ _ _ _ (notMem_lastLine _) rfl]
      conv_rhs => rw [← readSync_append (offered i) sessionReadBufferSize bytes]
      rw [decodeFrom_append, ← List.append_assoc, entriesOfText, entriesOfText,
        splitOn_behind (pending ++ _), entriesOfLines_append, List.append_assoc]

/-- However the bytes are read, the load is that of all of them. -/
theorem loadEntriesInChunks_eq (offered : Nat → Nat) (bytes : List UInt8) :
    loadEntriesInChunks offered bytes = loadEntries bytes := by
  rw [loadEntriesInChunks, loadChunks_eq _ _ _ _ _ _ List.not_mem_nil]
  rfl

/-! ## The scan -/

/-- `parseSessionHeaderCandidate`: `none` to go on, `some none` for an entry that is no
header. -/
def parseSessionHeaderCandidate (line : JsString) : Option (Option FileEntry) :=
  if isBlank line then none
  else match (parseSessionEntryLine line).filter (·.raw.truthy) with
    | none => none
    | some entry => some (if hasSessionHeader [entry] then some entry else none)

/-- `SessionHeaderScanLimitError` -/
inductive ScanError where
  | limit
  deriving DecidableEq, Repr

/-- The loop of `readSessionHeader` from the `i`-th read on; `lineChunks` are joined. -/
def scanHeader (offered : Nat → Nat) (i scannedBytes : Nat) (bytes : List UInt8)
    (decoder : DecodeState) (lineChunks : JsString) : Except ScanError (Option FileEntry) :=
  if scannedBytes < maxSessionHeaderScanBytes then
    let readLength := min sessionHeaderReadBufferSize (maxSessionHeaderScanBytes - scannedBytes)
    if bytes = [] then
      .ok (parseSessionHeaderCandidate (lineChunks ++ decodeEnd decoder)).join
    else
      let read := readSync (offered i) readLength bytes
      let chunk := (decodeRun decoder read.1).1
      match findInPieces parseSessionHeaderCandidate lineChunks (chunk.splitOn 0x0A) with
      | .inl header => .ok header
      | .inr lineChunks => scanHeader offered (i + 1) (scannedBytes + read.1.length) read.2
          (decodeRun decoder read.1).2 lineChunks
  else if bytes = [] then
    .ok (parseSessionHeaderCandidate (lineChunks ++ decodeEnd decoder)).join
  else .error .limit
termination_by bytes.length
decreasing_by
  rename_i hlimit hnil
  exact length_readSync_lt (Nat.lt_min.mpr ⟨by decide, by omega⟩) hnil

/-- `readSessionHeader` -/
def readSessionHeader (offered : Nat → Nat) (bytes : List UInt8) :
    Except ScanError (Option FileEntry) :=
  scanHeader offered 0 0 bytes .start []

/-- What the lines of a text say about the header. -/
def headerOfText (text : JsString) : Option FileEntry :=
  ((text.splitOn 0x0A).findSome? parseSessionHeaderCandidate).join

/-- **The scan.** It passes the limit, or says what the lines of the text say. -/
theorem scanHeader_cases (offered : Nat → Nat) (i scannedBytes : Nat) (bytes : List UInt8)
    (decoder : DecodeState) (lineChunks : JsString) (hchunks : (0x0A : UInt16) ∉ lineChunks)
    (hscanned : scannedBytes ≤ maxSessionHeaderScanBytes) :
    (scanHeader offered i scannedBytes bytes decoder lineChunks = .error .limit ∧
        maxSessionHeaderScanBytes < scannedBytes + bytes.length) ∨
      scanHeader offered i scannedBytes bytes decoder lineChunks
        = .ok (headerOfText (lineChunks ++ decodeFrom decoder bytes)) := by
  induction hn : bytes.length using Nat.strongRecOn
    generalizing i scannedBytes bytes decoder lineChunks with
  | _ n ih =>
    -- behind the last byte there is one line left
    have hend : bytes = [] → headerOfText (lineChunks ++ decodeFrom decoder bytes)
        = (parseSessionHeaderCandidate (lineChunks ++ decodeEnd decoder)).join := by
      rintro rfl
      have hline : (0x0A : UInt16) ∉ lineChunks ++ decodeEnd decoder := by
        rw [List.mem_append]
        exact fun h => h.elim hchunks (newline_notMem_decodeEnd decoder)
      rw [decodeFrom, headerOfText, List.splitOn_eq_singleton hline, List.findSome?_singleton]
    rw [scanHeader]
    by_cases hlimit : scannedBytes < maxSessionHeaderScanBytes
    · rw [if_pos hlimit]
      dsimp only
      by_cases hnil : bytes = []
      · rw [if_pos hnil, hend hnil]
        exact .inr rfl
      · rw [if_neg hnil]
        have hlength : 0 < min sessionHeaderReadBufferSize
            (maxSessionHeaderScanBytes - scannedBytes) := Nat.lt_min.mpr ⟨by decide, by omega⟩
        have hlt := @length_readSync_lt (offered i) _ _ hlength hnil
        have hle := length_readSync_le (offered i) (min sessionHeaderReadBufferSize
          (maxSessionHeaderScanBytes - scannedBytes)) bytes
        have hbytes := readSync_append (offered i) (min sessionHeaderReadBufferSize
          (maxSessionHeaderScanBytes - scannedBytes)) bytes
        generalize readSync (offered i) (min sessionHeaderReadBufferSize
          (maxSessionHeaderScanBytes - scannedBytes)) bytes = read at hlt hle hbytes
        obtain ⟨data, rest⟩ := read
        dsimp only at hlt hle hbytes ⊢
        have hsum : bytes.length = data.length + rest.length := by
          rw [← hbytes, List.length_append]
        have hspec := findInPieces_spec parseSessionHeaderCandidate (decodeRun decoder data).1
          hchunks (decodeFrom (decodeRun decoder data).2 rest)
        rw [← decodeFrom_append, hbytes] at hspec
        split
        · rename_i header hfound
          rw [hfound] at hspec
          rw [headerOfText, hspec]
          exact .inr rfl
        · rename_i lineChunks' hfound
          rw [hfound] at hspec
          rw [headerOfText, hspec.2, ← headerOfText]
          obtain ⟨hthrows, hlarge⟩ | hok := ih _ (hn ▸ hlt) (i + 1) (scannedBytes + data.length)
            rest (decodeRun decoder data).2 lineChunks' hspec.1 (by omega) rfl
          · exact .inl ⟨hthrows, by omega⟩
          · exact .inr hok
    · rw [if_neg hlimit]
      by_cases hnil : bytes = []
      · rw [if_pos hnil, hend hnil]
        exact .inr rfl
      · rw [if_neg hnil]
        have hpos := List.length_pos_of_ne_nil hnil
        exact .inl ⟨rfl, by omega⟩

/-- The first entry of the lines decides. -/
theorem headerOfText_eq (text : JsString) : headerOfText text
    = (entriesOfText text).head?.bind fun entry =>
        if hasSessionHeader [entry] then some entry else none := by
  have hcandidate : ∀ line, parseSessionHeaderCandidate line
      = ((parseSessionEntryLine line).filter (·.raw.truthy)).map fun entry =>
          if hasSessionHeader [entry] then some entry else none := by
    intro line
    rw [parseSessionHeaderCandidate]
    by_cases hblank : isBlank line = true
    · rw [if_pos hblank, parseSessionEntryLine, if_pos hblank]
      rfl
    · rw [if_neg hblank]
      cases (parseSessionEntryLine line).filter (·.raw.truthy) <;> rfl
  rw [headerOfText, entriesOfText, entriesOfLines, List.head?_filterMap]
  induction text.splitOn 0x0A with
  | nil => rfl
  | cons line lines ih =>
    rw [List.findSome?_cons, List.findSome?_cons, hcandidate]
    cases (parseSessionEntryLine line).filter (·.raw.truthy) with
    | none => exact ih
    | some entry => rfl

/-- **The scan agrees with the load.** However the bytes are read, the scan throws, or
returns the first entry that is loaded, and `null` where nothing is loaded. It throws only
for a file that is larger than the limit. -/
theorem readSessionHeader_agrees (bytes : List UInt8) (offered offered' : Nat → Nat) :
    (readSessionHeader offered bytes = .error .limit ∧
        maxSessionHeaderScanBytes < bytes.length) ∨
      ∃ header, readSessionHeader offered bytes = .ok header ∧
        (∀ h, header = some h ↔ ∃ others, loadEntriesInChunks offered' bytes = h :: others) ∧
        (header = none ↔ loadEntriesInChunks offered' bytes = []) := by
  rw [loadEntriesInChunks_eq]
  obtain ⟨hthrows, hlarge⟩ | hok :=
    scanHeader_cases offered 0 0 bytes .start [] List.not_mem_nil (Nat.zero_le _)
  · exact .inl ⟨hthrows, by omega⟩
  · refine .inr ⟨_, hok, ?_⟩
    rw [List.nil_append, headerOfText_eq, ← decodeUtf8, loadEntries]
    cases entriesOfText (decodeUtf8 bytes) with
    | nil => simp [hasSessionHeader]
    | cons entry entries =>
      have hsame : hasSessionHeader (entry :: entries) = hasSessionHeader [entry] := rfl
      cases hheader : hasSessionHeader [entry] <;> simp [hsame, hheader]

end PiMono
