import PiMono.CodingAgent.Compaction

/-!
# Preparing a branch summary

`core/compaction/branch-summarization.ts:156-247`. The walk from the newest entry on
stops where the messages outgrow the budget, so the tool calls of the entries behind that
place are never read: `mem_paths_prepare` says which paths are collected, for any budget.
-/

namespace PiMono

/-- `getMessageFromEntry` of `branch-summarization.ts` -/
def getBranchMessage (entry : FileEntry) : Option AgentMessage :=
  match entry.body? with
  | some (.message message) =>
    if (AgentMessage.stored message).role = .toolResult then none else some (.stored message)
  | some (.customMessage customType content display details) =>
    some (.custom customType (content.getD .null) display details entry.timestamp)
  | some (.branchSummary fromId summary ..) => some (.branchSummary summary fromId entry.timestamp)
  | some (.compaction summary _ tokensBefore ..) =>
    some (.compactionSummary summary tokensBefore entry.timestamp)
  | _ => none

structure BranchPreparation where
  messages : List AgentMessage
  fileOps : FileOperations
  totalTokens : Nat
  deriving DecidableEq

/-- The strings of a list of `details`. -/
def detailsPaths (details : JsValue) (key : String) : List JsString :=
  (((details.get? (js key)).bind JsValue.items?).getD []).filterMap JsValue.str?

/-- One turn of the first pass: the files of a summary that is ours. -/
def addSummaryFileOps (fileOps : FileOperations) (entry : FileEntry) : FileOperations :=
  match entry.body? with
  | some (.branchSummary _ _ (some details) _ fromHook) =>
    if fromHook = some true then fileOps
    else { fileOps with
      read := (detailsPaths details "readFiles").foldl addPath fileOps.read
      edited := (detailsPaths details "modifiedFiles").foldl addPath fileOps.edited }
  | _ => fileOps

/-- `entry.type === "compaction" || entry.type === "branch_summary"` -/
def FileEntry.isSummary (entry : FileEntry) : Bool :=
  entry.isCompaction || entry.type = some (js "branch_summary")

/-- The second pass, over the entries from the newest on. `tokenBudget * 0.9` is compared
in tenths. -/
def branchWalk (tokenBudget : Int) : List FileEntry → BranchPreparation → BranchPreparation
  | [], acc => acc
  | entry :: older, acc =>
    match getBranchMessage entry with
    | none => branchWalk tokenBudget older acc
    | some message =>
      let fileOps := extractFileOpsFromMessage acc.fileOps message
      let tokens := estimateTokens message
      if 0 < tokenBudget ∧ tokenBudget < acc.totalTokens + tokens then
        if entry.isSummary ∧ 10 * (acc.totalTokens : Int) < 9 * tokenBudget then
          ⟨message :: acc.messages, fileOps, acc.totalTokens + tokens⟩
        else { acc with fileOps := fileOps }
      else
        branchWalk tokenBudget older ⟨message :: acc.messages, fileOps, acc.totalTokens + tokens⟩

/-- `prepareBranchEntries` -/
def prepareBranchEntries (entries : List FileEntry) (tokenBudget : Int) : BranchPreparation :=
  branchWalk tokenBudget entries.reverse
    ⟨[], entries.foldl addSummaryFileOps ⟨[], [], []⟩, 0⟩

/-! ## The paths of an entry -/

/-- The tools whose paths are collected. -/
inductive FileTool where
  | read
  | write
  | edit
  deriving DecidableEq, Repr

namespace FileTool

def name : FileTool → String
  | read => "read"
  | write => "write"
  | edit => "edit"

/-- The field of a summary's `details` that joins the set; none joins the written files. -/
def detailsKey? : FileTool → Option String
  | read => some "readFiles"
  | write => none
  | edit => some "modifiedFiles"

end FileTool

/-- The set a tool's paths are added to. -/
def FileOperations.paths (fileOps : FileOperations) : FileTool → List JsString
  | .read => fileOps.read
  | .write => fileOps.written
  | .edit => fileOps.edited

/-- The path of a content block that calls the tool. -/
def blockPath? (tool : FileTool) (block : JsValue) : Option JsString :=
  if block.strField? (js "type") = some (js "toolCall") ∧
      block.strField? (js "name") = some (js tool.name) then
    ((block.get? (js "arguments")).bind (·.strField? (js "path"))).filter (· ≠ [])
  else none

/-- The paths that the tool calls of a message name. -/
def AgentMessage.toolPaths (tool : FileTool) : AgentMessage → List JsString
  | stored m =>
    if (stored m).role = .assistant then
      (((m.get? (js "content")).bind JsValue.items?).getD []).filterMap (blockPath? tool)
    else []
  | _ => []

/-- The paths that the tool calls of an assistant entry name. -/
def FileEntry.toolPaths (tool : FileTool) (entry : FileEntry) : List JsString :=
  match entry.body? with
  | some (.message message) => (AgentMessage.stored message).toolPaths tool
  | _ => []

/-- The paths that a branch summary of ours records for the tool. -/
def FileEntry.summaryPaths (tool : FileTool) (entry : FileEntry) : List JsString :=
  match entry.body? with
  | some (.branchSummary _ _ (some details) _ fromHook) =>
    if fromHook = some true then []
    else (tool.detailsKey?.map (detailsPaths details)).getD []
  | _ => []

/-! ## What is collected -/

theorem mem_addPath {path p : JsString} {paths : List JsString} :
    p ∈ addPath paths path ↔ p ∈ paths ∨ p = path := by
  unfold addPath
  split
  · constructor
    · exact Or.inl
    · rintro (h | rfl)
      · exact h
      · assumption
  · simp

theorem mem_foldl_addPath {p : JsString} (added : List JsString) : ∀ paths : List JsString,
    p ∈ added.foldl addPath paths ↔ p ∈ paths ∨ p ∈ added := by
  induction added with
  | nil => simp
  | cons path added ih =>
    intro paths
    rw [List.foldl_cons, ih, mem_addPath, List.mem_cons, or_assoc]

/-- A fold that adds, at each item, the paths the item stands for. -/
theorem mem_paths_foldl {α : Type} {step : FileOperations → α → FileOperations} {tool : FileTool}
    {found : α → List JsString}
    (hstep : ∀ ops a p, p ∈ (step ops a).paths tool ↔ p ∈ ops.paths tool ∨ p ∈ found a)
    {p : JsString} (items : List α) : ∀ ops : FileOperations,
    p ∈ (items.foldl step ops).paths tool ↔ p ∈ ops.paths tool ∨ ∃ a ∈ items, p ∈ found a := by
  induction items with
  | nil => simp
  | cons a items ih =>
    intro ops
    rw [List.foldl_cons, ih, hstep]
    simp only [List.mem_cons, exists_eq_or_imp, or_assoc]

theorem mem_paths_extract (tool : FileTool) (ops : FileOperations) (message : AgentMessage)
    (p : JsString) : p ∈ (extractFileOpsFromMessage ops message).paths tool
      ↔ p ∈ ops.paths tool ∨ p ∈ message.toolPaths tool := by
  cases message with
  | stored m =>
    unfold extractFileOpsFromMessage AgentMessage.toolPaths
    by_cases hrole : (AgentMessage.stored m).role = .assistant
    · simp only [if_pos hrole]
      rw [@mem_paths_foldl JsValue _ tool fun block => (blockPath? tool block).toList]
      · simp [List.mem_filterMap]
      · intro ops block p
        by_cases htype : block.strField? (js "type") = some (js "toolCall")
        · simp only [blockPath?, htype, true_and]
          cases hpath : ((block.get? (js "arguments")).bind (·.strField? (js "path"))).filter
              (· ≠ []) with
          | none => cases tool <;> simp
          | some path =>
            by_cases hread : block.strField? (js "name") = some (js "read")
            · cases tool <;> simp [hread, FileOperations.paths, FileTool.name, mem_addPath]
            by_cases hwrite : block.strField? (js "name") = some (js "write")
            · cases tool <;> simp [hwrite, FileOperations.paths, FileTool.name, mem_addPath]
            by_cases hedit : block.strField? (js "name") = some (js "edit")
            · cases tool <;> simp [hedit, FileOperations.paths, FileTool.name, mem_addPath]
            cases tool <;> simp [hread, hwrite, hedit, FileTool.name]
        · simp [htype, blockPath?]
    · simp [hrole]
  | custom => simp [extractFileOpsFromMessage, AgentMessage.toolPaths]
  | branchSummary => simp [extractFileOpsFromMessage, AgentMessage.toolPaths]
  | compactionSummary => simp [extractFileOpsFromMessage, AgentMessage.toolPaths]

theorem mem_paths_addSummary (tool : FileTool) (ops : FileOperations) (entry : FileEntry)
    (p : JsString) : p ∈ (addSummaryFileOps ops entry).paths tool
      ↔ p ∈ ops.paths tool ∨ p ∈ entry.summaryPaths tool := by
  unfold addSummaryFileOps FileEntry.summaryPaths
  split
  · split
    · simp
    · cases tool <;> simp [FileOperations.paths, FileTool.detailsKey?, mem_foldl_addPath]
  · simp

/-- The tool calls of an entry are those of its message. -/
theorem FileEntry.toolPaths_eq (tool : FileTool) (entry : FileEntry) :
    entry.toolPaths tool = ((getBranchMessage entry).map (·.toolPaths tool)).getD [] := by
  unfold FileEntry.toolPaths getBranchMessage
  cases entry.body? with
  | none => rfl
  | some body =>
    cases body with
    | message message =>
      by_cases hrole : (AgentMessage.stored message).role = .toolResult
      · simp [hrole, AgentMessage.toolPaths]
      · simp [hrole]
    | _ => rfl

/-! ## What the walk reaches -/

/-- The messages of a stretch of entries; tool results have none. -/
def branchMessages (entries : List FileEntry) : List AgentMessage :=
  entries.filterMap getBranchMessage

def branchTokens (entries : List FileEntry) : Nat :=
  ((branchMessages entries).map estimateTokens).sum

theorem branchTokens_cons_none {entry : FileEntry} {newer : List FileEntry}
    (h : getBranchMessage entry = none) : branchTokens (entry :: newer) = branchTokens newer := by
  simp [branchTokens, branchMessages, h]

theorem branchTokens_cons_some {entry : FileEntry} {newer : List FileEntry}
    {message : AgentMessage} (h : getBranchMessage entry = some message) :
    branchTokens (entry :: newer) = branchTokens newer + estimateTokens message := by
  simp [branchTokens, branchMessages, h, Nat.add_comm]

theorem branchTokens_append (older newer : List FileEntry) :
    branchTokens (older ++ newer) = branchTokens older + branchTokens newer := by
  simp [branchTokens, branchMessages]

/-- The messages are those of the newest entries, and go over the budget by the oldest of
them at most, which is then a compaction or a branch summary. -/
def FitsSuffix (entries : List FileEntry) (tokenBudget : Int) (messages : List AgentMessage) :
    Prop :=
  ∃ older newer, entries = older ++ newer ∧ messages = branchMessages newer ∧
    ((branchTokens newer : Int) ≤ tokenBudget ∨
      ∃ summary rest, newer = summary :: rest ∧ summary.isSummary = true ∧
        (branchTokens rest : Int) ≤ tokenBudget)

/-- A tool call of the list, with as much of it behind the call as the budget holds. -/
def CalledWithin (entries : List FileEntry) (tokenBudget : Int) (tool : FileTool)
    (path : JsString) : Prop :=
  ∃ older entry newer, entries = older ++ entry :: newer ∧ path ∈ entry.toolPaths tool ∧
    (branchTokens newer : Int) ≤ tokenBudget

section Walk

variable {tokenBudget : Int} {newer : List FileEntry} {acc : BranchPreparation}

/-- What the walk carries: the messages of the entries behind it, which fit. -/
structure Walked (tokenBudget : Int) (newer : List FileEntry) (acc : BranchPreparation) :
    Prop where
  messages : acc.messages = branchMessages newer
  totalTokens : acc.totalTokens = branchTokens newer
  fits : (acc.totalTokens : Int) ≤ tokenBudget

/-- A message that fits joins those behind it. -/
theorem Walked.push {entry : FileEntry} {message : AgentMessage} (h : Walked tokenBudget newer acc)
    (hmessage : getBranchMessage entry = some message)
    (hfits : (acc.totalTokens : Int) + estimateTokens message ≤ tokenBudget) :
    Walked tokenBudget (entry :: newer) ⟨message :: acc.messages,
      extractFileOpsFromMessage acc.fileOps message,
      acc.totalTokens + estimateTokens message⟩ := by
  constructor
  · show message :: acc.messages = branchMessages (entry :: newer)
    rw [h.messages, branchMessages, branchMessages, List.filterMap_cons_some hmessage]
  · show acc.totalTokens + estimateTokens message = _
    rw [branchTokens_cons_some hmessage, h.totalTokens]
  · simpa using hfits

theorem Walked.skip {entry : FileEntry} (h : Walked tokenBudget newer acc)
    (hmessage : getBranchMessage entry = none) : Walked tokenBudget (entry :: newer) acc := by
  constructor
  · rw [h.messages, branchMessages, branchMessages, List.filterMap_cons_none hmessage]
  · rw [branchTokens_cons_none hmessage, h.totalTokens]
  · exact h.fits

/-- The walk ends on a suffix of the list. -/
theorem branchWalk_messages (hbudget : 0 < tokenBudget) (older : List FileEntry) :
    ∀ {newer : List FileEntry} {acc : BranchPreparation}, Walked tokenBudget newer acc →
      FitsSuffix (older ++ newer) tokenBudget
        (branchWalk tokenBudget older.reverse acc).messages := by
  induction older using List.reverseRecOn with
  | nil =>
    intro newer acc h
    refine ⟨[], newer, rfl, h.messages, Or.inl ?_⟩
    rw [← h.totalTokens]
    exact h.fits
  | append_singleton older entry ih =>
    intro newer acc h
    have happ : older ++ [entry] ++ newer = older ++ entry :: newer := by simp
    rw [happ, List.reverse_append, List.reverse_singleton, List.singleton_append, branchWalk]
    cases hmessage : getBranchMessage entry with
    | none => exact ih (h.skip hmessage)
    | some message =>
      show FitsSuffix _ _ (if _ then _ else _ : BranchPreparation).messages
      split
      · -- the walk stops here, with the entry's own message where it is a summary
        have hbehind : (branchTokens newer : Int) ≤ tokenBudget := by
          rw [← h.totalTokens]
          exact h.fits
        split
        · refine ⟨older, entry :: newer, rfl, ?_, Or.inr ⟨entry, newer, rfl, ?_, hbehind⟩⟩
          · show message :: acc.messages = _
            rw [h.messages, branchMessages, branchMessages, List.filterMap_cons_some hmessage]
          · exact (by assumption : entry.isSummary = true ∧ _).1
        · exact ⟨older ++ [entry], newer, happ.symm, h.messages, Or.inl hbehind⟩
      · exact ih (h.push hmessage (by omega))

/-- A place of a list with one item more is a place of the list, or the last. -/
theorem split_concat_iff {α : Type} {items : List α} {last : α} {P : α → List α → Prop} :
    (∃ before item between, items ++ [last] = before ++ item :: between ∧ P item between)
      ↔ P last [] ∨ ∃ before item between, items = before ++ item :: between ∧
          P item (between ++ [last]) := by
  constructor
  · rintro ⟨before, item, between, heq, h⟩
    rcases List.eq_nil_or_concat between with rfl | ⟨between, other, rfl⟩
    · obtain ⟨-, hlast⟩ := List.append_inj' heq rfl
      obtain rfl : last = item := by simpa using hlast
      exact Or.inl h
    · have heq' : items ++ [last] = (before ++ item :: between) ++ [other] := by
        rw [heq]
        simp
      obtain ⟨rfl, hlast⟩ := List.append_inj' heq' rfl
      obtain rfl : last = other := by simpa using hlast
      rw [List.concat_eq_append] at h
      exact Or.inr ⟨before, item, between, rfl, h⟩
  · rintro (h | ⟨before, item, between, rfl, h⟩)
    · exact ⟨items, last, [], rfl, h⟩
    · exact ⟨before, item, between ++ [last], by simp, h⟩

/-- The walk collects the calls it comes by before the budget is used up. -/
theorem branchWalk_paths (hbudget : 0 < tokenBudget) {tool : FileTool} {path : JsString}
    (older : List FileEntry) :
    ∀ {newer : List FileEntry} {acc : BranchPreparation}, Walked tokenBudget newer acc →
      (path ∈ (branchWalk tokenBudget older.reverse acc).fileOps.paths tool
        ↔ path ∈ acc.fileOps.paths tool ∨ ∃ before entry between,
          older = before ++ entry :: between ∧ path ∈ entry.toolPaths tool ∧
            (branchTokens (between ++ newer) : Int) ≤ tokenBudget) := by
  induction older using List.reverseRecOn with
  | nil =>
    intro newer acc h
    simp [branchWalk]
  | append_singleton older entry ih =>
    intro newer acc h
    have hbehind : (branchTokens newer : Int) ≤ tokenBudget := by
      rw [← h.totalTokens]
      exact h.fits
    rw [List.reverse_append, List.reverse_singleton, List.singleton_append, branchWalk,
      split_concat_iff]
    simp only [List.append_assoc, List.singleton_append, List.nil_append]
    rw [FileEntry.toolPaths_eq tool entry]
    cases hmessage : getBranchMessage entry with
    | none =>
      have hrest := ih (h.skip hmessage)
      simpa using hrest
    | some message =>
      show path ∈ (if _ then _ else _ : BranchPreparation).fileOps.paths tool ↔ _
      split
      · -- an older call has this entry behind it, and with it more than the budget holds
        rename_i hover
        have hnone : ∀ before item between, older = before ++ item :: between →
            ¬ (branchTokens (between ++ entry :: newer) : Int) ≤ tokenBudget := by
          intro before item between _ hle
          rw [branchTokens_append, branchTokens_cons_some hmessage, ← h.totalTokens] at hle
          omega
        have hops : ∀ r : BranchPreparation,
            r.fileOps = extractFileOpsFromMessage acc.fileOps message →
            (path ∈ r.fileOps.paths tool
              ↔ path ∈ acc.fileOps.paths tool ∨ path ∈ message.toolPaths tool) := by
          intro r hr
          rw [hr, mem_paths_extract]
        have hend : (path ∈ message.toolPaths tool ∧ (branchTokens newer : Int) ≤ tokenBudget ∨
            ∃ before item between, older = before ++ item :: between ∧
              path ∈ item.toolPaths tool ∧
                (branchTokens (between ++ entry :: newer) : Int) ≤ tokenBudget)
            ↔ path ∈ message.toolPaths tool := by
          constructor
          · rintro (⟨hmem, -⟩ | ⟨before, item, between, heq, -, hle⟩)
            · exact hmem
            · exact absurd hle (hnone before item between heq)
          · exact fun hmem => Or.inl ⟨hmem, hbehind⟩
        rw [Option.map_some, Option.getD_some, hend]
        split
        · exact hops _ rfl
        · exact hops _ rfl
      · rename_i hfits
        have hrest := ih (h.push hmessage (by omega))
        rw [hrest]
        show path ∈ (extractFileOpsFromMessage acc.fileOps message).paths tool ∨ _ ↔ _
        rw [mem_paths_extract, Option.map_some, Option.getD_some, or_assoc]
        simp only [hbehind, and_true]

end Walk

/-! ## What a preparation keeps -/

/-- Every path of a tool call and of a summary of ours is in the tool's set. -/
def KeepsFileOps (entries : List FileEntry) (fileOps : FileOperations) : Prop :=
  ∀ tool, ∀ entry ∈ entries, ∀ path,
    path ∈ entry.toolPaths tool ∨ path ∈ entry.summaryPaths tool → path ∈ fileOps.paths tool

/-- What an entry behind the budget calls for is called for within it too, or is recorded
by a summary. -/
def OlderCallsRepeated (entries : List FileEntry) (tokenBudget : Int) : Prop :=
  ∀ tool path older entry newer, entries = older ++ entry :: newer →
    path ∈ entry.toolPaths tool → tokenBudget < branchTokens newer →
      CalledWithin entries tokenBudget tool path ∨
        ∃ summary ∈ entries, path ∈ summary.summaryPaths tool

section Prepare

variable {tokenBudget : Int} (hbudget : 0 < tokenBudget) (entries : List FileEntry)
include hbudget

/-- Nothing is behind the end of the list. -/
theorem walked_nil (fileOps : FileOperations) :
    Walked tokenBudget [] ⟨[], fileOps, 0⟩ :=
  ⟨rfl, rfl, by show ((0 : Nat) : Int) ≤ tokenBudget; omega⟩

theorem prepareBranchEntries_messages :
    FitsSuffix entries tokenBudget (prepareBranchEntries entries tokenBudget).messages := by
  have h := branchWalk_messages hbudget entries
    (walked_nil hbudget (entries.foldl addSummaryFileOps ⟨[], [], []⟩))
  rwa [List.append_nil] at h

/-- **What is collected.** The calls within the budget, and all that a summary records. -/
theorem mem_paths_prepare (tool : FileTool) (path : JsString) :
    path ∈ (prepareBranchEntries entries tokenBudget).fileOps.paths tool
      ↔ (∃ summary ∈ entries, path ∈ summary.summaryPaths tool) ∨
        CalledWithin entries tokenBudget tool path := by
  have hempty : path ∉ (⟨[], [], []⟩ : FileOperations).paths tool := by
    cases tool <;> simp [FileOperations.paths]
  have h := @branchWalk_paths tokenBudget hbudget tool path entries _ _
    (walked_nil hbudget (entries.foldl addSummaryFileOps ⟨[], [], []⟩))
  rw [mem_paths_foldl (mem_paths_addSummary tool)] at h
  simpa [hempty, CalledWithin, prepareBranchEntries] using h

end Prepare

/-- **File operations and messages.** The messages are always those of a newest stretch that
fits; every path is kept exactly where no call behind the budget is the only one of its
path. -/
theorem keeps_all_iff {tokenBudget : Int} (hbudget : 0 < tokenBudget)
    (entries : List FileEntry) :
    (KeepsFileOps entries (prepareBranchEntries entries tokenBudget).fileOps ∧
        FitsSuffix entries tokenBudget (prepareBranchEntries entries tokenBudget).messages)
      ↔ OlderCallsRepeated entries tokenBudget := by
  have hmem := mem_paths_prepare hbudget entries
  constructor
  · rintro ⟨hkeeps, -⟩ tool path older entry newer rfl hpath -
    exact ((hmem tool path).mp (hkeeps tool entry (by simp) path (Or.inl hpath))).symm
  · intro hrepeated
    refine ⟨fun tool entry hentry path hpath => (hmem tool path).mpr ?_,
      prepareBranchEntries_messages hbudget entries⟩
    rcases hpath with hcall | hsummary
    · obtain ⟨older, newer, heq⟩ := List.append_of_mem hentry
      rcases le_or_gt (branchTokens newer : Int) tokenBudget with hfits | hover
      · exact Or.inr ⟨older, entry, newer, heq, hcall, hfits⟩
      · exact (hrepeated tool path older entry newer heq hcall hover).symm
    · exact Or.inl ⟨entry, hentry, hsummary⟩

/-- An assistant message that reads `a`, and a user message behind it. -/
def readThenSay : List FileEntry :=
  [.create (js "1") none (js "t") (.message (.object [(js "role", .str (js "assistant")),
      (js "content", .arr [.object [(js "type", .str (js "toolCall")),
        (js "name", .str (js "read")),
        (js "arguments", .object [(js "path", .str (js "a"))])]])])),
    .create (js "2") (some (js "1")) (js "t") (.message (.object [(js "role", .str (js "user")),
      (js "content", .str (js "hello"))]))]

/-- A budget of two tokens holds both messages' calls. -/
theorem keeps_all_of_read :
    KeepsFileOps readThenSay (prepareBranchEntries readThenSay 2).fileOps ∧
      FitsSuffix readThenSay 2 (prepareBranchEntries readThenSay 2).messages := by
  refine (keeps_all_iff (by decide) readThenSay).mpr ?_
  intro tool path older entry newer hentries _ hover
  rcases older with _ | ⟨first, _ | ⟨second, older⟩⟩
  · cases hentries
    exact absurd hover (by decide)
  · cases hentries
    exact absurd hover (by decide)
  · simp [readThenSay] at hentries

/-- With a budget of one token the walk stops at the user message, and the file read before
it is not recorded. -/
theorem read_behind_budget_lost :
    ¬ ∀ (entries : List FileEntry) (tokenBudget : Int), 0 < tokenBudget →
      KeepsFileOps entries (prepareBranchEntries entries tokenBudget).fileOps ∧
        FitsSuffix entries tokenBudget (prepareBranchEntries entries tokenBudget).messages := by
  intro h
  have hkeeps := (h readThenSay 1 (by decide)).1 .read (readThenSay.head (by decide))
    (by decide) (js "a")
  have hcall : js "a" ∈ (readThenSay.head (by decide)).toolPaths .read := by decide
  have hlost : js "a" ∉ (prepareBranchEntries readThenSay 1).fileOps.paths .read := by
    decide
  exact hlost (hkeeps (Or.inl hcall))

end PiMono
