import PiMono.Harness.CompactionCoverage

/-!
# What a compaction of a harness session gets rid of

The retained tail keeps every tool result behind its call, and there is something to summarize
exactly if a message stands in front of the cut that the budget selects:
`prepareCompaction_progress`.
-/

namespace PiMono.Harness

/-! ## Calls and results -/

/-- The assistant message has issued the call that the result answers. -/
def issuesCall (message result : JsValue) : Bool :=
  roleOf message = .assistant && (((message.get? (js "content")).bind JsValue.items?).getD []).any
    fun block => block.strField? (js "type") = some (js "toolCall") &&
      (block.get? (js "id")).isSome && block.get? (js "id") = result.get? (js "toolCallId")

def isToolResult (message : JsValue) : Bool := roleOf message = .toolResult

/-- A tool result, or an entry without a message. -/
def isBetweenResults (entry : PathEntry) : Bool :=
  (getMessageFromEntryForCompaction entry).all isToolResult

/-- Each tool result follows its call, with only tool results and entries without messages between
them. -/
def Paired (entries : List PathEntry) : Prop :=
  ∀ before result after, entries = before ++ .message result :: after → isToolResult result = true →
    ∃ earlier call between, before = earlier ++ .message call :: between ∧
      issuesCall call result = true ∧ ∀ entry ∈ between, isBetweenResults entry = true

/-- Each tool result has its call in front of it. -/
def CallsKept (messages : List JsValue) : Prop :=
  ∀ before result after, messages = before ++ result :: after → isToolResult result = true →
    ∃ call ∈ before, issuesCall call result = true

/-! ## The place of the cut -/

/-- The entries in front of a cut point that the cut takes along. -/
theorem overMetadata_skipped (entries : List PathEntry) {startIndex : Nat} :
    ∀ {cutIndex i : Nat}, overMetadata entries startIndex cutIndex ≤ i → i < cutIndex →
      ∀ message, entries[i]? ≠ some (.message message)
  | 0, i, _, hlt => absurd hlt (Nat.not_lt_zero i)
  | cutIndex + 1, i, hle, hlt => by
    intro message hentry
    rw [overMetadata] at hle
    split at hle
    · rename_i hback
      rcases Nat.lt_succ_iff_lt_or_eq.mp hlt with hlt | rfl
      · exact overMetadata_skipped entries hle hlt message hentry
      · rw [hentry] at hback
        exact absurd hback.2 Bool.false_ne_true
    · omega

/-- The retained tail begins with the window, or with entries that are no messages in front of a
cut point. -/
theorem firstKept_cases (entries : List PathEntry) (startIndex endIndex : Nat)
    (keepRecentTokens : Int) :
    (findCutPoint entries startIndex endIndex keepRecentTokens).firstKeptEntryIndex = startIndex ∨
      ∃ cut, entries[cut]?.any isCutPoint = true ∧
        (findCutPoint entries startIndex endIndex keepRecentTokens).firstKeptEntryIndex
          = overMetadata entries startIndex cut := by
  rw [findCutPoint]
  split
  · exact Or.inl rfl
  · rename_i first others hcuts
    dsimp only
    refine Or.inr ⟨_, ?_, rfl⟩
    have hmem : ∀ cut ∈ first :: others, entries[cut]?.any isCutPoint = true := by
      intro cut hcut
      rw [← hcuts] at hcut
      exact (List.mem_filter.mp hcut).2
    split
    · rename_i i _
      cases hfind : (first :: others).find? (i ≤ ·) with
      | none => exact hmem first List.mem_cons_self
      | some cut => exact hmem cut (List.mem_of_find?_eq_some hfind)
    · exact hmem first List.mem_cons_self

/-- A cut point is no tool result, and no entry without a message. -/
theorem not_between_of_cutPoint {entry : PathEntry} (h : isCutPoint entry = true) :
    isBetweenResults entry = false := by
  cases entry with
  | message message =>
    show (some message).all isToolResult = false
    rw [Option.all_some, isToolResult]
    simp only [isCutPoint] at h
    cases hrole : roleOf message <;> rw [hrole] at h <;> first | rfl | cases h
  | branchSummary fromId summary timestamp => rfl
  | _ => cases h

/-! ## Pairs -/

/-- No call is cut off from its results. -/
theorem call_kept {earlier between after : List PathEntry} {call result : JsValue}
    (hresult : isToolResult result = true)
    (hbetween : ∀ entry ∈ between, isBetweenResults entry = true) {endIndex : Nat}
    {keepRecentTokens : Int} {entries : List PathEntry}
    (hentries : entries = earlier ++ .message call :: between ++ .message result :: after)
    (hkept : (findCutPoint entries 0 endIndex keepRecentTokens).firstKeptEntryIndex ≤
      earlier.length + 1 + between.length) :
    (findCutPoint entries 0 endIndex keepRecentTokens).firstKeptEntryIndex ≤ earlier.length := by
  rcases firstKept_cases entries 0 endIndex keepRecentTokens with hzero | ⟨cut, hcut, hover⟩
  · rw [hzero]
    exact Nat.zero_le _
  rw [hover] at hkept ⊢
  by_contra hlt
  have hle := (overMetadata_bounds entries (Nat.zero_le cut)).2
  have htail : ∀ i, entries[earlier.length + 1 + i]? =
    (between ++ .message result :: after)[i]? := by
    intro i
    rw [hentries, List.append_assoc, List.getElem?_append_right (by omega), List.cons_append,
      show earlier.length + 1 + i - earlier.length = i + 1 by omega, List.getElem?_cons_succ]
  have hat : entries[earlier.length + 1 + between.length]? = some (.message result) := by
    rw [htail, List.getElem?_append_right (Nat.le_refl _), Nat.sub_self]
    rfl
  rcases Nat.lt_or_ge (earlier.length + 1 + between.length) cut with hcutlt | hcutle
  · -- the result stands among the entries that are no messages
    exact overMetadata_skipped entries hkept hcutlt result hat
  · -- the cut point stands between the call and its result
    obtain ⟨i, rfl⟩ : ∃ i, cut = earlier.length + 1 + i := ⟨cut - (earlier.length + 1), by omega⟩
    rw [htail] at hcut
    obtain ⟨entry, hentry, hpoint⟩ := (Option.any_eq_true _ _).mp hcut
    have hno := not_between_of_cutPoint hpoint
    rcases Nat.lt_or_ge i between.length with hi | hi
    · rw [List.getElem?_append_left hi] at hentry
      rw [hbetween entry (List.mem_of_getElem? hentry)] at hno
      cases hno
    · obtain rfl : i = between.length := by omega
      rw [List.getElem?_append_right (Nat.le_refl _), Nat.sub_self] at hentry
      cases hentry
      rw [show isBetweenResults (.message result) = isToolResult result from rfl, hresult] at hno
      cases hno

/-- Only a message entry stands for a tool result. -/
theorem message_of_toolResult {entry : PathEntry} {result : JsValue}
    (h : getMessageFromEntryForCompaction entry = some result)
    (hresult : isToolResult result = true) :
    entry = .message result := by
  unfold getMessageFromEntryForCompaction at h
  split at h
  · cases h
  cases entry with
  | message message => cases h; rfl
  | branchSummary fromId summary timestamp =>
    cases h
    have hrole : roleOf (createBranchSummaryMessage summary fromId timestamp) =
      .branchSummary := rfl
    rw [isToolResult, hrole] at hresult
    cases hresult
  | compaction => rename_i hno; exact absurd rfl hno
  | _ => cases h

/-- The messages from a cut on keep their calls. -/
theorem callsKept_drop {entries : List PathEntry} (hpaired : Paired entries) {cut : Nat}
    (hcut : ∀ earlier call between result after,
      entries = earlier ++ .message call :: between ++ .message result :: after →
      isToolResult result = true → (∀ entry ∈ between, isBetweenResults entry = true) →
      cut ≤ earlier.length + 1 + between.length → cut ≤ earlier.length) :
    CallsKept ((entries.drop cut).filterMap getMessageFromEntryForCompaction) := by
  intro before result after hmessages hresult
  obtain ⟨front, rest, hdrop, rfl, hrest⟩ := List.filterMap_eq_append_iff.mp hmessages
  obtain ⟨idle, entry, behind, rfl, hidle, hentry, hbehind⟩ := List.filterMap_eq_cons_iff.mp hrest
  obtain rfl := message_of_toolResult hentry hresult
  have hsplit : entries = entries.take cut ++ (front ++ idle) ++ .message result :: behind := by
    conv_lhs => rw [← List.take_append_drop cut entries, hdrop]
    simp only [List.append_assoc]
  obtain ⟨earlier, call, between, heq, hcall, hbetween⟩ := hpaired _ _ _ hsplit hresult
  have hwithin : cut ≤ entries.length := by
    by_contra hgt
    rw [List.drop_of_length_le (by omega)] at hdrop
    have hnil := (List.append_eq_nil_iff.mp hdrop.symm).2
    exact absurd (List.append_eq_nil_iff.mp hnil).2 (List.cons_ne_nil _ _)
  have hlen := congrArg List.length heq
  simp only [List.length_append, List.length_cons, List.length_take,
    Nat.min_eq_left hwithin] at hlen
  have hle : cut ≤ earlier.length :=
    hcut earlier call between result behind (by rw [← heq]; exact hsplit) hresult hbetween
      (by omega)
  have hmem : .message call ∈ front ++ idle := by
    rcases List.append_eq_append_iff.mp heq with ⟨more, -, hmore⟩ | ⟨more, htake, hmore⟩
    · rw [hmore]
      exact List.mem_append_right _ List.mem_cons_self
    · have hlength := congrArg List.length htake
      rw [List.length_append, List.length_take, Nat.min_eq_left hwithin] at hlength
      have hnil : more = [] := List.length_eq_zero_iff.mp (by omega)
      rw [hnil, List.nil_append] at hmore
      rw [← hmore]
      exact List.mem_cons_self
  refine ⟨call, ?_, hcall⟩
  rcases List.mem_append.mp hmem with hfront | hidle'
  · exact List.mem_filterMap.mpr ⟨_, hfront, rfl⟩
  · exact absurd (hidle _ hidle') (Option.some_ne_none _)

/-! ## Progress -/

/-- The tokens that the budget counts for an entry. -/
def entryTokens : PathEntry → Nat
  | .message message => estimateTokens message
  | _ => 0

/-- The tokens from an index on. -/
def tokensFrom (entries : List PathEntry) (i : Nat) : Nat := ((entries.drop i).map entryTokens).sum

theorem tokensFrom_eq {entries : List PathEntry} {i : Nat} {entry : PathEntry}
    (h : entries[i]? = some entry) :
    tokensFrom entries i = entryTokens entry + tokensFrom entries (i + 1) := by
  obtain ⟨hi, rfl⟩ := List.getElem?_eq_some_iff.mp h
  rw [tokensFrom, List.drop_eq_getElem_cons hi, List.map_cons, List.sum_cons, tokensFrom]

theorem tokensFrom_anti (entries : List PathEntry) {i j : Nat} (h : i ≤ j) :
    tokensFrom entries j ≤ tokensFrom entries i := by
  obtain ⟨k, rfl⟩ := Nat.exists_eq_add_of_le h
  rw [tokensFrom, tokensFrom, ← List.take_append_drop k (entries.drop i), List.map_append,
    List.sum_append, List.drop_drop]
  exact Nat.le_add_left _ _

/-- The tokens counted from the end reach the budget at `i`. -/
structure Reaches (entries : List PathEntry) (keepRecentTokens : Int) (i : Nat) : Prop where
  reached : keepRecentTokens ≤ tokensFrom entries i
  before : tokensFrom entries (i + 1) < keepRecentTokens

/-- The loop finds this place. -/
theorem budgetIndex_of_reaches {entries : List PathEntry} {keepRecentTokens : Int} {i : Nat}
    (h : Reaches entries keepRecentTokens i) : ∀ n, i < n → n ≤ entries.length →
      budgetIndex entries 0 keepRecentTokens n (tokensFrom entries n) = some i
  | 0, hlt, _ => absurd hlt (Nat.not_lt_zero i)
  | n + 1, hlt, hle => by
    have hget : entries[0 + n]? = some entries[n] := by
      rw [Nat.zero_add]
      exact List.getElem?_eq_getElem hle
    have hsum := tokensFrom_eq (i := n) (List.getElem?_eq_getElem hle)
    unfold budgetIndex
    rw [hget]
    rcases Nat.lt_succ_iff_lt_or_eq.mp hlt with hlt | rfl
    · have hless : (tokensFrom entries n : Int) < keepRecentTokens :=
        lt_of_le_of_lt (Int.ofNat_le.mpr (tokensFrom_anti entries hlt)) h.before
      have hrest := budgetIndex_of_reaches h n hlt (Nat.le_of_succ_le hle)
      cases hentry : entries[n] with
      | message message =>
        rw [hentry, entryTokens] at hsum
        dsimp only
        rw [if_neg (by omega), show tokensFrom entries (n + 1) + estimateTokens message =
          tokensFrom entries n by omega]
        exact hrest
      | _ =>
        rw [hentry] at hsum
        rw [show tokensFrom entries n = _ from hsum.trans (Nat.zero_add _)] at hrest
        exact hrest
    · have hreached := h.reached
      have hbefore := h.before
      cases hentry : entries[i] with
      | message message =>
        rw [hentry, entryTokens] at hsum
        dsimp only
        rw [if_pos (by omega), Nat.zero_add]
      | _ =>
        rw [hentry] at hsum
        have hsame := hsum.trans (Nat.zero_add _)
        omega

/-- The first valid cut point from an index on. -/
structure FirstCutPoint (entries : List PathEntry) (i cut : Nat) : Prop where
  from_index : i ≤ cut
  valid : entries[cut]?.any isCutPoint = true
  first : ∀ j, i ≤ j → j < cut → entries[j]?.any isCutPoint = false

/-- The cut that the budget selects. -/
theorem firstKept_of_reaches {entries : List PathEntry} {keepRecentTokens : Int} {i cut : Nat}
    (h : Reaches entries keepRecentTokens i) (hcut : FirstCutPoint entries i cut) :
    (findCutPoint entries 0 entries.length keepRecentTokens).firstKeptEntryIndex
      = overMetadata entries 0 cut := by
  have hlt : cut < entries.length := by
    obtain ⟨entry, hentry, -⟩ := (Option.any_eq_true _ _).mp hcut.valid
    exact (List.getElem?_eq_some_iff.mp hentry).1
  have hfind : (findValidCutPoints entries 0 entries.length).find? (i ≤ ·) = some cut := by
    rw [findValidCutPoints, List.find?_filter, List.find?_range'_eq_some]
    refine ⟨?_, by simpa using hlt, fun j _ hj => ?_⟩
    · simp [hcut.valid, hcut.from_index]
    · by_cases hij : i ≤ j
      · simp [hcut.first j hij hj]
      · simp [hij]
  have hbudget : budgetIndex entries 0 keepRecentTokens (entries.length - 0) 0 = some i := by
    have hzero : tokensFrom entries entries.length = 0 := by rw [tokensFrom, List.drop_length]; rfl
    have hindex := budgetIndex_of_reaches h entries.length (hcut.from_index.trans_lt hlt) le_rfl
    rwa [hzero] at hindex
  rw [findCutPoint, hbudget]
  split
  · rename_i hnone
    rw [hnone] at hfind
    cases hfind
  · rename_i first others hcuts
    rw [hcuts] at hfind
    dsimp only
    rw [hfind, Option.getD_some]

/-- The scan back stops behind a message or a compaction. -/
theorem overMetadata_stop (entries : List PathEntry) : ∀ {cutIndex k : Nat},
    cutIndex < entries.length → overMetadata entries 0 cutIndex = k + 1 →
      ∃ entry, entries[k]? = some entry ∧ (entry.isCompaction = true ∨ ∃ m, entry = .message m)
  | 0, k, _, h => by cases h
  | cutIndex + 1, k, hlt, h => by
    rw [overMetadata] at h
    split at h
    · exact overMetadata_stop entries (Nat.lt_of_succ_lt hlt) h
    · rename_i hstop
      obtain rfl : cutIndex = k := Nat.succ.inj h
      have hget := List.getElem?_eq_getElem (Nat.lt_of_succ_lt hlt)
      refine ⟨_, hget, ?_⟩
      rw [hget, Option.any_some] at hstop
      cases hentry : entries[cutIndex] with
      | message message => exact Or.inr ⟨message, rfl⟩
      | compaction => exact Or.inl rfl
      | _ =>
        rw [hentry] at hstop
        exact absurd ⟨Nat.succ_pos _, rfl⟩ hstop

theorem compactableEntries_isCompaction (path : List PathEntry) :
    ∀ entry ∈ compactableEntries path, entry.isCompaction = false := by
  intro entry hentry
  rw [compactableEntries_eq] at hentry
  rcases List.mem_append.mp hentry with htail | hbehind
  · obtain ⟨message, -, rfl⟩ := List.mem_map.mp htail
    rfl
  · exact behindCompaction_isCompaction path entry hbehind

/-- What is summarized stands in front of the cut. -/
theorem prepareCompaction_summarized {path : List PathEntry} {settings : CompactionSettings}
    {p : CompactionPreparation} (hp : prepareCompaction path settings = some p) :
    let entries := compactableEntries path
    let cut := findCutPoint entries 0 entries.length settings.keepRecentTokens
    p.messagesToSummarize ++ p.turnPrefixMessages
        = messagesBetween entries 0 cut.firstKeptEntryIndex ∧
      p.retainedTail
        = (entries.drop cut.firstKeptEntryIndex).filterMap getMessageFromEntryForCompaction := by
  rw [prepareCompaction] at hp
  split at hp
  · cases hp
  obtain rfl := Option.some.inj hp
  dsimp only
  generalize hcut : findCutPoint (compactableEntries path) 0 (compactableEntries path).length
    settings.keepRecentTokens = cut
  obtain ⟨-, -, hturn⟩ := findCutPoint_bounds (Nat.zero_le _) hcut
  refine ⟨?_, by rw [messagesBetween, List.take_length]⟩
  cases hsplit : cut.isSplitTurn with
  | false =>
    rw [if_neg Bool.false_ne_true, if_neg Bool.false_ne_true, List.append_nil]
  | true =>
    obtain ⟨turnStart, hsome, -, hle, -⟩ := hturn hsplit
    rw [if_pos rfl, if_pos rfl, hsome, Option.getD_some]
    exact messagesBetween_append _ (Nat.zero_le _) hle

/-- **A compaction keeps tool pairs and makes progress**: every retained tool result has its call
in front of it, and something is summarized exactly if a message stands in front of the first
valid cut point from the place on at which the budget is reached. -/
theorem prepareCompaction_progress {path : List PathEntry} {settings : CompactionSettings}
    {p : CompactionPreparation} (hp : prepareCompaction path settings = some p) :
    (Paired (compactableEntries path) → CallsKept p.retainedTail) ∧
      ∀ i cut, Reaches (compactableEntries path) settings.keepRecentTokens i →
        FirstCutPoint (compactableEntries path) i cut →
        (p.messagesToSummarize ++ p.turnPrefixMessages ≠ [] ↔
          ∃ j < cut, ∃ message, (compactableEntries path)[j]? = some (.message message)) := by
  obtain ⟨hsummarized, hretained⟩ := prepareCompaction_summarized hp
  constructor
  · intro hpaired
    rw [hretained]
    refine callsKept_drop hpaired ?_
    intro earlier call between result after hentries hresult hbetween hkept
    exact call_kept hresult hbetween hentries hkept
  · intro i cut hreaches hcut
    have hlt : cut < (compactableEntries path).length := by
      obtain ⟨entry, hentry, -⟩ := (Option.any_eq_true _ _).mp hcut.valid
      exact (List.getElem?_eq_some_iff.mp hentry).1
    rw [hsummarized, firstKept_of_reaches hreaches hcut, messagesBetween, List.drop_zero]
    constructor
    · intro hne
      obtain ⟨k, hk⟩ : ∃ k, overMetadata (compactableEntries path) 0 cut = k + 1 := by
        refine Nat.exists_eq_succ_of_ne_zero fun hzero => hne ?_
        rw [hzero]
        rfl
      have hle := (overMetadata_bounds (compactableEntries path) (Nat.zero_le cut)).2
      obtain ⟨entry, hentry, hcompaction | ⟨message, rfl⟩⟩ := overMetadata_stop _ hlt hk
      · rw [compactableEntries_isCompaction path entry (List.mem_of_getElem? hentry)] at hcompaction
        cases hcompaction
      · exact ⟨k, by omega, message, hentry⟩
    · rintro ⟨j, hj, message, hentry⟩
      have hkept : j < overMetadata (compactableEntries path) 0 cut := by
        by_contra hge
        exact overMetadata_skipped _ (Nat.not_lt.mp hge) hj message hentry
      have hmem : .message message ∈ (compactableEntries path).take
          (overMetadata (compactableEntries path) 0 cut) := by
        refine List.mem_of_getElem? (i := j) ?_
        rw [List.getElem?_take, if_pos hkept, hentry]
      exact List.ne_nil_of_mem (List.mem_filterMap.mpr ⟨_, hmem, rfl⟩)

/-! ## A call with its result, and a budget that all messages fill -/

def callMessage (id : String) : JsValue :=
  .object [(js "role", .str (js "assistant")),
    (js "content", .arr [.object [(js "type", .str (js "toolCall")), (js "id", .str (js id)),
      (js "name", .str (js "read")), (js "arguments", .object [])]])]

def resultMessage (id text : String) : JsValue :=
  .object [(js "role", .str (js "toolResult")), (js "toolCallId", .str (js id)),
    (js "content", .str (js text))]

def calledPath : List PathEntry :=
  [.message (textMessage "user" "aaaa"), .message (callMessage "1"),
    .message (resultMessage "1" "bbbbbbbb"), .message (textMessage "user" "cccc")]

theorem calledPath_paired : Paired calledPath := by
  intro before result after hentries hresult
  rcases before with _ | ⟨first, _ | ⟨second, _ | ⟨third, _ | ⟨fourth, before⟩⟩⟩⟩
  · cases hentries
    cases hresult
  · cases hentries
    cases hresult
  · cases hentries
    exact ⟨[.message (textMessage "user" "aaaa")], callMessage "1", [], rfl, by decide, nofun⟩
  · cases hentries
    cases hresult
  · simp [calledPath] at hentries

/-- With a budget of four tokens the call is kept with its result, and the prompt summarized. -/
theorem prepareCompaction_progress_called : ∃ p,
    prepareCompaction calledPath ⟨true, 0, 4⟩ = some p ∧ CallsKept p.retainedTail ∧
      p.messagesToSummarize ++ p.turnPrefixMessages ≠ [] := by
  obtain ⟨p, hp⟩ : ∃ p, prepareCompaction calledPath ⟨true, 0, 4⟩ = some p := ⟨_, rfl⟩
  obtain ⟨hkept, hprogress⟩ := prepareCompaction_progress hp
  refine ⟨p, hp, hkept calledPath_paired, (hprogress 1 1 ⟨by decide, by decide⟩ ?_).mpr ?_⟩
  · exact ⟨Nat.le_refl 1, by decide, fun j hle hlt => absurd (hle.trans_lt hlt) (Nat.lt_irrefl 1)⟩
  · exact ⟨0, Nat.zero_lt_one, textMessage "user" "aaaa", rfl⟩

/-- The tail that the last compaction retained has a tool result without its call. -/
def orphanedPath : List PathEntry :=
  [.compaction (js "s") [textMessage "user" "aaaa", resultMessage "1" "bbbb"] (.ofNat 1) none
      (.ofNat 1),
    .message (textMessage "user" "cccc")]

theorem orphanedPath_paired : Paired orphanedPath := by
  intro before result after hentries hresult
  rcases before with _ | ⟨first, _ | ⟨second, before⟩⟩
  · cases hentries
  · cases hentries
    cases hresult
  · simp [orphanedPath] at hentries

/-- A result that the last compaction retained without its call is kept; and where two messages
fill the budget, both are. -/
theorem prepareCompaction_keeps_all :
    (¬ ∀ path settings p, prepareCompaction path settings = some p → Paired path →
      CallsKept p.retainedTail) ∧
    ¬ ∀ path settings p, prepareCompaction path settings = some p →
    settings.keepRecentTokens ≤ tokensFrom (compactableEntries path) 0 →
    0 < settings.keepRecentTokens →
    2 ≤ (findValidCutPoints (compactableEntries path) 0 (compactableEntries path).length).length →
    p.messagesToSummarize ++ p.turnPrefixMessages ≠ [] := by
  constructor
  · intro h
    obtain ⟨call, hcall, hissues⟩ := h orphanedPath ⟨true, 0, 8⟩ _ rfl orphanedPath_paired
      [textMessage "user" "aaaa"] (resultMessage "1" "bbbb") [textMessage "user" "cccc"]
      (by decide) (by decide)
    obtain rfl := List.mem_singleton.mp hcall
    exact absurd hissues (by decide)
  · intro h
    refine h [.message (textMessage "user" "aaaa"), .message (textMessage "user" "bbbb")]
      ⟨true, 0, 2⟩ _ rfl ?_ ?_ ?_ ?_
    all_goals decide

end PiMono.Harness
