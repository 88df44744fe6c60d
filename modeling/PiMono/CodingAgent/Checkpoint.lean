import PiMono.CodingAgent.Memory

/-!
# The compaction checkpoint

`core/compaction/compaction.ts:115-142` and `:812-855`, with `computeFileLists`
(`core/compaction/utils.ts:56-61`): the text that stands for what a compaction
leaves out. `compactDeterministically` writes it without a model request. What
the later modules need of it is where a section stands in the text
(`summary_eq`).
-/

namespace PiMono

/-- `DETERMINISTIC_TRANSCRIPT_MAX_TOKENS` -/
def deterministicTranscriptMaxTokens : Nat := 8192

/-- `DETERMINISTIC_REQUEST_MAX_CHARS` -/
def deterministicRequestMaxChars : Nat := 2000

/-! ## The current request -/

namespace AgentMessage

/-- What a user message says, `contentText(message.content, "").trim()`. Only
stored messages have the role. -/
def userText? : AgentMessage → Option JsString
  | stored message =>
    if (stored message).role = .user then
      some (trim (contentText ((message.get? (js "content")).getD .null) []))
    else none
  | _ => none

/-- `convertToLlm`, of a message of the context. -/
def convertToLlm : AgentMessage → Option LlmMessage
  | stored message => PiMono.convertToLlm message
  | custom _ content .. => some (.user content)
  | branchSummary summary .. =>
    some (.user (.str (branchSummaryPrefix ++ summary ++ branchSummarySuffix)))
  | compactionSummary summary .. =>
    some (.user (.str (compactionSummaryPrefix ++ summary ++ compactionSummarySuffix)))

end AgentMessage

/-- A request as the checkpoint shows it; `none` for one without text. -/
def shownRequest (request : JsString) : Option JsString :=
  if deterministicRequestMaxChars < request.length then
    some (request.take deterministicRequestMaxChars ++ js "\n[Request truncated]")
  else if request = [] then none
  else some request

/-- `latestUserRequest`: the scan from the end stops at the first user message. -/
def latestUserRequest (messages : List AgentMessage) : Option JsString :=
  (messages.reverse.findSome? AgentMessage.userText?).bind shownRequest

/-! ## Commits -/

/-- `\w` -/
def isWordUnit (u : UInt16) : Bool :=
  (0x30 ≤ u && u ≤ 0x39) || (0x41 ≤ u && u ≤ 0x5A) || u == 0x5F || (0x61 ≤ u && u ≤ 0x7A)

/-- `[0-9a-f]`, in both cases. -/
def isHexUnit (u : UInt16) : Bool :=
  (0x30 ≤ u && u ≤ 0x39) || (0x41 ≤ u && u ≤ 0x46) || (0x61 ≤ u && u ≤ 0x66)

/-- What `.` does not match. -/
def isLineTerminator (u : UInt16) : Bool := u == 0x0A || u == 0x0D || u == 0x2028 || u == 0x2029

/-- `git\s+(commit|log)\b` at the start of a text. -/
def startsGitCommand (text : JsString) : Bool :=
  js "git" <+: text &&
    let behind := text.drop 3
    let command := behind.dropWhile isTrimmed
    behind ≠ command && [js "commit", js "log"].any fun word =>
      word <+: command && !(command.drop word.length).head?.any isWordUnit

/-- `/\bgit\s+(commit|log)\b/.test(command)`; `inWord` says whether a word character
stands before the text. -/
def namesGitCommand (inWord : Bool) : JsString → Bool
  | [] => false
  | u :: rest => (!inWord && startsGitCommand (u :: rest)) || namesGitCommand (isWordUnit u) rest

/-- `(?:\[[^\]]+\]\s+)?`: what stands behind the tag in brackets, if there is one. -/
def behindTag (line : JsString) : Option JsString :=
  match line with
  | 0x5B :: tagged =>
    let tag := tagged.takeWhile (· ≠ 0x5D)
    let behind := (tagged.drop tag.length).drop 1
    let text := behind.dropWhile isTrimmed
    if tag = [] ∨ tagged.length = tag.length ∨ behind = text then none else some text
  | _ => some line

/-- `(.+)$` behind `\s+`: one space is given back where nothing else is left. -/
def subjectOf (spaces rest : JsString) : Option JsString :=
  let subject := if rest = [] ∧ 1 < spaces.length then spaces.getLast?.toList else rest
  if subject = [] ∨ subject.any isLineTerminator then none else some subject

/-- A line of the output of `git log --oneline` or `git commit`: the hash and the
subject. -/
def commitOfLine (line : JsString) : Option JsString :=
  (behindTag line).bind fun text =>
    let hash := text.takeWhile isHexUnit
    let behind := text.drop hash.length
    let spaces := behind.takeWhile isTrimmed
    if 7 ≤ hash.length ∧ hash.length ≤ 40 ∧ spaces ≠ [] then
      (subjectOf spaces (behind.drop spaces.length)).map fun subject => hash ++ js " " ++ subject
    else none

/-- `extractCommits` -/
def extractCommits (messages : List AgentMessage) : List JsString :=
  (messages.flatMap fun message =>
    match message with
    | .stored m =>
      let text (key : String) : JsString := (m.strField? (js key)).getD []
      if message.role = .bashExecution ∧ namesGitCommand false (text "command") then
        ((text "output").splitOn 0x0A).filterMap commitOfLine
      else []
    | _ => []).foldl addPath []

/-! ## Files -/

/-- `paths.sort()`, by code units. -/
def sortPaths (paths : List JsString) : List JsString := paths.mergeSort fun p q => decide (p ≤ q)

/-- `computeFileLists`: the files only read, and those modified. -/
def computeFileLists (fileOps : FileOperations) : List JsString × List JsString :=
  let modified := fileOps.written.foldl addPath fileOps.edited
  (sortPaths (fileOps.read.filter (· ∉ modified)), sortPaths modified)

/-! ## The transcript -/

/-- The latest messages that fit, and at least one. The first list runs backwards. -/
def transcriptMessages : List AgentMessage → List AgentMessage → Nat → List AgentMessage
  | [], kept, _ => kept
  | message :: earlier, kept, transcriptTokens =>
    if deterministicTranscriptMaxTokens < transcriptTokens + estimateTokens message ∧ kept ≠ [] then
      kept
    else
      transcriptMessages earlier (message :: kept) (transcriptTokens + estimateTokens message)

/-- What stands behind `## Transcript`. -/
def transcriptText (sourceMessages : List AgentMessage) : JsString :=
  let kept := transcriptMessages sourceMessages.reverse [] 0
  let serializedTranscript :=
    joinWith (js "\n\n") ((kept.filterMap AgentMessage.convertToLlm).flatMap LlmMessage.parts)
  let transcript :=
    serializedTranscript.drop (serializedTranscript.length - deterministicTranscriptMaxTokens * 4)
  (if kept.length < sourceMessages.length ∨ transcript.length < serializedTranscript.length then
      js "[Earlier transcript omitted]\n\n" else []) ++ transcript

/-! ## The checkpoint -/

/-- `CompactionResult`; `usage` and `estimatedTokensAfter` are never set here. -/
structure CompactionResult where
  summary : JsString
  firstKeptEntryId : JsString
  tokensBefore : Nat
  readFiles : List JsString
  modifiedFiles : List JsString
  deriving DecidableEq

namespace CompactionPreparation

/-- `sourceMessages` -/
def sourceMessages (p : CompactionPreparation) : List AgentMessage :=
  p.messagesToSummarize ++ p.turnPrefixMessages

/-- A heading and a list below it; nothing where the list is empty. -/
def listed (heading : String) (items : List JsString) : JsString :=
  if items = [] then []
  else js heading ++ js "\n" ++ joinWith (js "\n") (items.map (js "- " ++ ·))

/-- What stands where there is no request. -/
def noRequest : JsString := js "No user request found in compacted history."

/-- The sections from `## Files` on, those without text left out. -/
def laterSections (p : CompactionPreparation) : List JsString :=
  let (readFiles, modifiedFiles) := computeFileLists p.fileOps
  [js "## Files",
    listed "### Read" readFiles,
    listed "### Modified" modifiedFiles,
    listed "## Commits" (extractCommits p.sourceMessages),
    js "## Outstanding Context",
    js "- Continue from session memory and the retained transcript; use session_memory_evidence with a memory ID to inspect source evidence."].filter
      (· ≠ [])

/-- `compactDeterministically` -/
def compactDeterministically (p : CompactionPreparation) : CompactionResult :=
  let (readFiles, modifiedFiles) := computeFileLists p.fileOps
  let currentRequest := latestUserRequest p.sourceMessages
  let fileSections :=
    js "## Current Request" :: (js "- " ++ currentRequest.getD noRequest) :: p.laterSections
  { summary := joinWith (js "\n\n") fileSections
      ++ ((p.sessionMemory.filter (· ≠ [])).map (js "\n\n## Session Memory\n" ++ ·)).getD []
      ++ js "\n\n## Transcript\n" ++ transcriptText p.sourceMessages
    firstKeptEntryId := p.firstKeptEntryId
    tokensBefore := p.tokensBefore
    readFiles := readFiles
    modifiedFiles := modifiedFiles }

end CompactionPreparation

end PiMono
