import PiMono.Harness.Compaction

/-!
# What a compaction of a harness session covers

`prepareCompaction` and `buildSessionContext` read the same entries by two functions, which
differ at deferred responses and at empty branch summaries: `prepareCompaction_covers_iff`.
`compact_keeps_summary_iff` says when the earlier summary is sent along.
-/

namespace PiMono.Harness

/-! ## The latest compaction -/

theorem latestCompaction?_none {path : List PathEntry} (h : latestCompaction? path = none) :
    ∀ entry ∈ path, entry.isCompaction = false := by
  induction path with
  | nil => exact fun _ hentry => by cases hentry
  | cons entry rest ih =>
    rw [latestCompaction?, Option.or_eq_none_iff] at h
    intro other hother
    rcases List.mem_cons.mp hother with rfl | hrest
    · refine Bool.eq_false_iff.mpr fun hc => ?_
      rw [if_pos hc] at h
      exact absurd h.2 (Option.some_ne_none _)
    · exact ih h.1 other hrest

theorem latestCompaction?_of_none {path : List PathEntry}
    (h : ∀ entry ∈ path, entry.isCompaction = false) : latestCompaction? path = none := by
  induction path with
  | nil => rfl
  | cons entry rest ih =>
    rw [latestCompaction?, ih fun other hother => h other (List.mem_cons_of_mem _ hother),
      h entry List.mem_cons_self]
    rfl

theorem latestCompaction?_split {pre post : List PathEntry} {c : PathEntry}
    (hc : c.isCompaction = true) (hpost : ∀ entry ∈ post, entry.isCompaction = false) :
    latestCompaction? (pre ++ c :: post) = some (c, post) := by
  induction pre with
  | nil =>
    rw [List.nil_append, latestCompaction?, latestCompaction?_of_none hpost, if_pos hc]
    rfl
  | cons entry pre ih =>
    rw [List.cons_append, latestCompaction?, ih]
    rfl

/-- A path with a compaction is one in front of entries that are none. -/
theorem latestCompaction?_some {path post : List PathEntry} {c : PathEntry}
    (h : latestCompaction? path = some (c, post)) :
    c.isCompaction = true ∧ (∀ entry ∈ post, entry.isCompaction = false) ∧
      ∃ pre, path = pre ++ c :: post := by
  induction path with
  | nil => cases h
  | cons entry rest ih =>
    rw [latestCompaction?] at h
    cases hrest : latestCompaction? rest with
    | some found =>
      rw [hrest, Option.some_or] at h
      obtain ⟨hc, hpost, pre, hpre⟩ := ih (hrest.trans h)
      exact ⟨hc, hpost, entry :: pre, by rw [hpre, List.cons_append]⟩
    | none =>
      rw [hrest, Option.none_or] at h
      split at h
      · rename_i hc
        cases h
        exact ⟨hc, latestCompaction?_none hrest, [], rfl⟩
      · cases h

theorem defaultContextEntryTransform_eq (path : List PathEntry) :
    defaultContextEntryTransform path =
      match latestCompaction? path with
      | some (c, post) => c :: post
      | none => path := by
  induction path with
  | nil => rfl
  | cons entry rest ih =>
    rw [defaultContextEntryTransform, latestCompaction?]
    cases hrest : latestCompaction? rest with
    | some found =>
      obtain ⟨hc, -, pre, hpre⟩ := @latestCompaction?_some rest found.2 found.1 hrest
      have hany : rest.any (·.isCompaction) = true :=
        List.any_eq_true.mpr ⟨found.1, by rw [hpre]; simp, hc⟩
      rw [if_pos hany, ih, hrest]
      rfl
    | none =>
      have hany : ¬ rest.any (·.isCompaction) = true := by
        intro hany
        obtain ⟨other, hother, hc⟩ := List.any_eq_true.mp hany
        rw [latestCompaction?_none hrest other hother] at hc
        cases hc
      rw [if_neg hany, Option.none_or]
      by_cases hc : entry.isCompaction = true
      · rw [if_pos hc]
      · rw [if_neg hc]

/-- What follows the latest compaction; everything, if there is none. -/
def behindCompaction (path : List PathEntry) : List PathEntry :=
  match latestCompaction? path with
  | some (_, post) => post
  | none => path

/-- The messages of the latest compaction's retained tail. -/
def earlierTail (path : List PathEntry) : List JsValue :=
  match latestCompaction? path with
  | some (c, _) => (c.compacted?.map (·.2.1)).getD []
  | none => []

theorem behindCompaction_isCompaction (path : List PathEntry) :
    ∀ entry ∈ behindCompaction path, entry.isCompaction = false := by
  unfold behindCompaction
  split
  · rename_i c post h
    exact (latestCompaction?_some h).2.1
  · rename_i h
    exact latestCompaction?_none h

theorem compactableEntries_eq (path : List PathEntry) :
    compactableEntries path = (earlierTail path).map .message ++ behindCompaction path := by
  unfold compactableEntries earlierTail behindCompaction
  cases latestCompaction? path with
  | none => rfl
  | some found => rfl

/-! ## Windows -/

theorem window_append {α : Type} (xs : List α) {i j k : Nat} (hij : i ≤ j) (hjk : j ≤ k) :
    (xs.take j).drop i ++ (xs.take k).drop j = (xs.take k).drop i := by
  have htake : xs.take j = (xs.take k).take j := by rw [List.take_take, Nat.min_eq_left hjk]
  rw [htake]
  generalize xs.take k = ys
  rcases Nat.le_total j ys.length with hle | hle
  · have hrest : (ys.drop j).drop (i - (ys.take j).length) = ys.drop j := by
      rw [List.length_take, Nat.min_eq_left hle, Nat.sub_eq_zero_of_le hij, List.drop_zero]
    conv_rhs => rw [← List.take_append_drop j ys, List.drop_append, hrest]
  · rw [List.take_of_length_le hle, List.drop_of_length_le hle, List.append_nil]

/-- Two adjacent windows make one. -/
theorem messagesBetween_append (entries : List PathEntry) {i j k : Nat} (hij : i ≤ j)
    (hjk : j ≤ k) :
    messagesBetween entries i j ++ messagesBetween entries j k = messagesBetween entries i k := by
  rw [messagesBetween, messagesBetween, messagesBetween, ← List.filterMap_append,
    window_append entries hij hjk]

theorem messagesBetween_all (entries : List PathEntry) :
    messagesBetween entries 0 entries.length
      = entries.filterMap getMessageFromEntryForCompaction := by
  rw [messagesBetween, List.take_length, List.drop_zero]

/-! ## The cut point -/

theorem findValidCutPoints_bounds {entries : List PathEntry} {startIndex endIndex i : Nat}
    (h : i ∈ findValidCutPoints entries startIndex endIndex) : startIndex ≤ i ∧ i < endIndex := by
  obtain ⟨hrange, -⟩ := List.mem_filter.mp h
  rw [List.mem_range'_1] at hrange
  omega

theorem overMetadata_bounds (entries : List PathEntry) {startIndex : Nat} :
    ∀ {cutIndex : Nat}, startIndex ≤ cutIndex →
      startIndex ≤ overMetadata entries startIndex cutIndex ∧
        overMetadata entries startIndex cutIndex ≤ cutIndex
  | 0, h => by
    rw [overMetadata]
    omega
  | cutIndex + 1, h => by
    rw [overMetadata]
    split
    · rename_i hback
      have hle : startIndex ≤ cutIndex := by omega
      have hbounds := overMetadata_bounds entries hle
      omega
    · omega

/-- The cut that the budget gives is a valid one. -/
theorem budgetCut_mem {entries : List PathEntry} {startIndex endIndex first : Nat}
    {others : List Nat}
    (hcuts : findValidCutPoints entries startIndex endIndex = first :: others)
    (keepRecentTokens : Int) :
    (match budgetIndex entries startIndex keepRecentTokens (endIndex - startIndex) 0 with
      | some i => ((first :: others).find? (i ≤ ·)).getD first
      | none => first) ∈ findValidCutPoints entries startIndex endIndex := by
  rw [hcuts]
  split
  · rename_i i _
    cases hfind : (first :: others).find? (i ≤ ·) with
    | none => exact List.mem_cons_self
    | some cut => exact List.mem_of_find?_eq_some hfind
  · exact List.mem_cons_self

/-- The cut is inside the window, and a split turn starts at or before it. -/
theorem findCutPoint_bounds {entries : List PathEntry} {startIndex endIndex : Nat}
    (hwindow : startIndex ≤ endIndex) {keepRecentTokens : Int} {cut : CutPointResult}
    (h : findCutPoint entries startIndex endIndex keepRecentTokens = cut) :
    startIndex ≤ cut.firstKeptEntryIndex ∧ cut.firstKeptEntryIndex ≤ endIndex ∧
      (cut.isSplitTurn = true → ∃ turnStart, cut.turnStartIndex = some turnStart ∧
        startIndex ≤ turnStart ∧ turnStart ≤ cut.firstKeptEntryIndex ∧
        entries[turnStart]?.any startsTurn = true) := by
  subst h
  rw [findCutPoint]
  split
  · exact ⟨Nat.le_refl _, hwindow, fun h => by cases h⟩
  · rename_i first others hcuts
    have hbudget := budgetCut_mem hcuts keepRecentTokens
    obtain ⟨hlow, hhigh⟩ := findValidCutPoints_bounds hbudget
    obtain ⟨hstart, hback⟩ := overMetadata_bounds entries hlow
    dsimp only
    refine ⟨hstart, Nat.le_trans hback (Nat.le_of_lt hhigh), fun hsplit => ?_⟩
    rw [Bool.and_eq_true, Bool.not_eq_true'] at hsplit
    obtain ⟨huser, hsome⟩ := hsplit
    obtain ⟨turnStart, hturn⟩ := Option.isSome_iff_exists.mp hsome
    refine ⟨turnStart, hturn, ?_⟩
    rw [huser, if_neg Bool.false_ne_true] at hturn
    unfold findTurnStartIndex at hturn
    have hstarts := List.find?_some hturn
    have hrange := List.mem_of_find?_eq_some hturn
    rw [List.mem_reverse, List.mem_range'_1] at hrange
    exact ⟨hrange.1, by omega, hstarts⟩

/-! ## Coverage -/

/-- The context shows no message of the entry, and a compaction does. -/
def isHidden : PathEntry → Bool
  | .message message => isDeferred message
  | .branchSummary _ summary _ => summary = []
  | _ => false

/-- `buildSessionContext(path).messages` without the summary of the latest compaction. -/
def contextWithoutSummary (path : List PathEntry) : List JsValue :=
  if path.any (·.isCompaction) then (buildSessionContext path).tail else buildSessionContext path

theorem buildSessionContext_of_none {path : List PathEntry} (h : latestCompaction? path = none) :
    buildSessionContext path = path.flatMap sessionEntryToContextMessages := by
  rw [buildSessionContext, defaultContextEntryTransform_eq, h]

theorem contextWithoutSummary_eq (path : List PathEntry) :
    contextWithoutSummary path
      = earlierTail path ++ (behindCompaction path).flatMap sessionEntryToContextMessages := by
  unfold contextWithoutSummary
  cases h : latestCompaction? path with
  | none =>
    have hany : ¬ path.any (·.isCompaction) = true := by
      intro hany
      obtain ⟨entry, hentry, hc⟩ := List.any_eq_true.mp hany
      rw [latestCompaction?_none h entry hentry] at hc
      cases hc
    rw [if_neg hany, buildSessionContext_of_none h, earlierTail, behindCompaction, h]
    rfl
  | some found =>
    obtain ⟨c, post⟩ := found
    obtain ⟨hc, -, pre, hpre⟩ := latestCompaction?_some h
    have hany : path.any (·.isCompaction) = true :=
      List.any_eq_true.mpr ⟨c, by rw [hpre]; simp, hc⟩
    rw [if_pos hany, buildSessionContext, defaultContextEntryTransform_eq, h, earlierTail,
      behindCompaction, h]
    cases c with
    | compaction => rfl
    | _ => cases hc

/-- Of a hidden entry, compaction has one message more than the context. -/
theorem context_of_entry {entry : PathEntry} (h : entry.isCompaction = false) :
    (isHidden entry = false →
      sessionEntryToContextMessages entry = (getMessageFromEntryForCompaction entry).toList) ∧
    (isHidden entry = true → sessionEntryToContextMessages entry = [] ∧
      (getMessageFromEntryForCompaction entry).toList.length = 1) := by
  unfold getMessageFromEntryForCompaction
  rw [if_neg (by rw [h]; exact Bool.false_ne_true)]
  cases entry with
  | message message =>
    constructor
    · intro hshown
      have hshows : isDeferred message = false := hshown
      show (if isDeferred message = true then [] else [message]) = [message]
      rw [if_neg (by rw [hshows]; exact Bool.false_ne_true)]
    · intro hhidden
      exact ⟨if_pos hhidden, rfl⟩
  | branchSummary fromId summary timestamp =>
    constructor
    · exact fun hshown => if_pos (of_decide_eq_false hshown)
    · exact fun hhidden => ⟨if_neg (not_not.mpr (of_decide_eq_true hhidden)), rfl⟩
  | compaction => cases h
  | _ => exact ⟨fun _ => rfl, nofun⟩

/-- The context never has more messages than compaction reads. -/
theorem context_length_le {entries : List PathEntry}
    (h : ∀ entry ∈ entries, entry.isCompaction = false) :
    (entries.flatMap sessionEntryToContextMessages).length
      ≤ (entries.filterMap getMessageFromEntryForCompaction).length := by
  rw [List.filterMap_eq_flatMap_toList]
  induction entries with
  | nil => exact Nat.le_refl 0
  | cons entry rest ih =>
    have hrest := ih fun other hother => h other (List.mem_cons_of_mem _ hother)
    obtain ⟨hshown, hhidden⟩ := context_of_entry (h entry List.mem_cons_self)
    rw [List.flatMap_cons, List.flatMap_cons, List.length_append, List.length_append]
    cases hentry : isHidden entry with
    | false =>
      rw [hshown hentry]
      omega
    | true =>
      rw [(hhidden hentry).1]
      exact Nat.add_le_add (Nat.zero_le _) hrest

/-- Both functions read the same messages when no entry is hidden, and only then. -/
theorem context_eq_iff {entries : List PathEntry}
    (h : ∀ entry ∈ entries, entry.isCompaction = false) :
    entries.filterMap getMessageFromEntryForCompaction
        = entries.flatMap sessionEntryToContextMessages ↔
      ∀ entry ∈ entries, isHidden entry = false := by
  induction entries with
  | nil => exact ⟨fun _ => nofun, fun _ => rfl⟩
  | cons entry rest ih =>
    have hrest := fun other hother => h other (List.mem_cons_of_mem _ hother)
    obtain ⟨hshown, hhidden⟩ := context_of_entry (h entry List.mem_cons_self)
    rw [List.forall_mem_cons, ← ih hrest, List.flatMap_cons, List.filterMap_eq_flatMap_toList,
      List.flatMap_cons, ← List.filterMap_eq_flatMap_toList]
    cases hentry : isHidden entry with
    | false =>
      rw [hshown hentry, List.append_cancel_left_eq]
      exact ⟨fun heq => ⟨rfl, heq⟩, fun heq => heq.2⟩
    | true =>
      obtain ⟨hnone, hone⟩ := hhidden hentry
      constructor
      · intro heq
        have hlength := congrArg List.length heq
        have hle := context_length_le hrest
        rw [hnone, List.nil_append, List.length_append, hone] at hlength
        omega
      · exact fun heq => absurd heq.1.symm Bool.false_ne_true

/-- The three parts of a preparation, by its cut. -/
theorem prepareCompaction_parts {path : List PathEntry} {settings : CompactionSettings}
    {p : CompactionPreparation} (hp : prepareCompaction path settings = some p) :
    p.messagesToSummarize ++ p.turnPrefixMessages ++ p.retainedTail
      = (compactableEntries path).filterMap getMessageFromEntryForCompaction := by
  rw [prepareCompaction] at hp
  split at hp
  · cases hp
  obtain rfl := Option.some.inj hp
  dsimp only
  generalize hcut : findCutPoint (compactableEntries path) 0 (compactableEntries path).length
    settings.keepRecentTokens = cut
  obtain ⟨-, hend, hturn⟩ := findCutPoint_bounds (Nat.zero_le _) hcut
  rw [← messagesBetween_all]
  cases hsplit : cut.isSplitTurn with
  | false =>
    rw [if_neg Bool.false_ne_true, if_neg Bool.false_ne_true, List.append_nil]
    exact messagesBetween_append _ (Nat.zero_le _) hend
  | true =>
    obtain ⟨turnStart, hsome, -, hle, -⟩ := hturn hsplit
    rw [if_pos rfl, if_pos rfl, hsome, Option.getD_some, messagesBetween_append _
      (Nat.zero_le _) hle]
    exact messagesBetween_append _ (Nat.zero_le _) hend

theorem filterMap_message (messages : List JsValue) :
    (messages.map PathEntry.message).filterMap getMessageFromEntryForCompaction = messages := by
  rw [List.filterMap_map]
  exact List.filterMap_some

/-- **Compaction coverage.** What is summarized and what is kept are the messages of the context,
without the earlier summary, exactly if no entry behind the latest compaction is a deferred
response or an empty branch summary. Once the compaction is appended, the context is its summary
and what is kept. -/
theorem prepareCompaction_covers_iff {path : List PathEntry} {settings : CompactionSettings}
    {p : CompactionPreparation} (hp : prepareCompaction path settings = some p) :
    (p.messagesToSummarize ++ p.turnPrefixMessages ++ p.retainedTail = contextWithoutSummary path ↔
      ∀ entry ∈ behindCompaction path, isHidden entry = false) ∧
    ∀ summary tokensBefore details timestamp,
      buildSessionContext
        (path ++ [.compaction summary p.retainedTail tokensBefore details timestamp])
        = createCompactionSummaryMessage summary tokensBefore timestamp :: p.retainedTail := by
  constructor
  · rw [prepareCompaction_parts hp, compactableEntries_eq, contextWithoutSummary_eq,
      List.filterMap_append, filterMap_message, List.append_cancel_left_eq]
    exact context_eq_iff (behindCompaction_isCompaction path)
  · intro summary tokensBefore details timestamp
    rw [buildSessionContext, defaultContextEntryTransform_eq,
      latestCompaction?_split rfl fun _ hentry => absurd hentry List.not_mem_nil]
    exact List.append_nil _

/-- A message with a text. -/
def textMessage (role text : String) : JsValue :=
  .object [(js "role", .str (js role)), (js "content", .str (js text))]

/-- A response still to come. -/
def deferredMessage : JsValue :=
  .object [(js "role", .str (js "assistant")), (js "stopReason", .str (js "deferred")),
    (js "content", .arr [])]

/-- Two turns. -/
theorem prepareCompaction_covers_turns : ∃ p,
    prepareCompaction [.message (textMessage "user" "a"), .message (textMessage "user" "b")]
      ⟨true, 0, 1⟩ = some p ∧
    p.messagesToSummarize ++ p.turnPrefixMessages ++ p.retainedTail
      = contextWithoutSummary [.message (textMessage "user" "a"),
        .message (textMessage "user" "b")] :=
  ⟨_, rfl, (prepareCompaction_covers_iff rfl).1.mpr (by decide)⟩

/-- A deferred response is kept, and not shown by the context. -/
theorem prepareCompaction_deferred :
    (prepareCompaction [.message (textMessage "user" "a"), .message deferredMessage]
      ⟨true, 0, 1⟩).any (fun p =>
        p.messagesToSummarize ++ p.turnPrefixMessages ++ p.retainedTail ≠
          contextWithoutSummary [.message (textMessage "user" "a"), .message deferredMessage])
      = true := by
  decide

/-! ## The earlier summary -/

/-- The cut splits a turn behind its first entry, and no message comes before that turn. -/
def splitsFirstTurn (entries : List PathEntry) (keepRecentTokens : Int) : Bool :=
  let cut := findCutPoint entries 0 entries.length keepRecentTokens
  let turnStart := cut.turnStartIndex.getD 0
  cut.isSplitTurn && turnStart < cut.firstKeptEntryIndex && messagesBetween entries 0 turnStart = []

/-- A turn begins with a message. -/
theorem message_of_startsTurn {entry : PathEntry} (h : startsTurn entry = true) :
    ∃ message, getMessageFromEntryForCompaction entry = some message := by
  cases entry with
  | message message => exact ⟨message, rfl⟩
  | branchSummary fromId summary timestamp => exact ⟨_, rfl⟩
  | _ => cases h

theorem messagesBetween_ne_nil {entries : List PathEntry} {i j : Nat} (hij : i < j)
    (h : entries[i]?.any startsTurn = true) : messagesBetween entries i j ≠ [] := by
  obtain ⟨entry, hentry, hstarts⟩ := (Option.any_eq_true _ _).mp h
  obtain ⟨message, hmessage⟩ := message_of_startsTurn hstarts
  have hmem : entry ∈ (entries.take j).drop i := by
    refine List.mem_of_getElem? (i := 0) ?_
    rw [List.getElem?_drop, Nat.add_zero, List.getElem?_take, if_pos hij, hentry]
  exact List.ne_nil_of_mem (List.mem_filterMap.mpr ⟨entry, hmem, hmessage⟩)

/-- When the history of a split turn is empty, and there is something of the turn to summarize. -/
theorem prepareCompaction_splits {path : List PathEntry} {settings : CompactionSettings}
    {p : CompactionPreparation} (hp : prepareCompaction path settings = some p) :
    (p.isSplitTurn = true ∧ p.turnPrefixMessages ≠ [] ∧ p.messagesToSummarize = []) ↔
      splitsFirstTurn (compactableEntries path) settings.keepRecentTokens = true := by
  rw [prepareCompaction] at hp
  split at hp
  · cases hp
  obtain rfl := Option.some.inj hp
  unfold splitsFirstTurn
  dsimp only
  generalize hcut : findCutPoint (compactableEntries path) 0 (compactableEntries path).length
    settings.keepRecentTokens = cut
  obtain ⟨-, -, hturn⟩ := findCutPoint_bounds (Nat.zero_le _) hcut
  cases hsplit : cut.isSplitTurn with
  | false => exact ⟨fun h => absurd h.1 Bool.false_ne_true, nofun⟩
  | true =>
    obtain ⟨turnStart, hsome, -, hle, hstarts⟩ := hturn hsplit
    rw [if_pos rfl, if_pos rfl, hsome, Option.getD_some, Bool.true_and, Bool.and_eq_true,
      decide_eq_true_iff, decide_eq_true_iff]
    constructor
    · rintro ⟨-, hturn, hhistory⟩
      refine ⟨Nat.lt_of_le_of_ne hle fun heq => hturn ?_, hhistory⟩
      rw [heq, messagesBetween,
        List.drop_of_length_le (by rw [List.length_take]; exact Nat.min_le_left ..)]
      rfl
    · exact fun h => ⟨rfl, messagesBetween_ne_nil h.1 hstarts, h.2⟩

/-- The request for a summary contains the earlier one. -/
theorem summary_in_request (messages : List JsValue) (customInstructions : Option JsString)
    {summary : JsString} (h : summary ≠ []) :
    summary <:+: (summaryRequest messages customInstructions (some summary)).promptText := by
  have hfilter : (some summary).filter (· ≠ []) = some summary :=
    Option.filter_eq_some_iff.mpr ⟨rfl, decide_eq_true h⟩
  rw [summaryRequest]
  dsimp only
  rw [hfilter]
  exact (List.infix_append (js "<previous-summary>\n") summary _).trans (List.infix_append ..)

/-- Every call that succeeds has asked for a summary with the earlier one, unless the first turn
is split. -/
theorem compact_sends_summary {p : CompactionPreparation} {summary : JsString} (h : summary ≠ [])
    (hprevious : p.previousSummary = some summary)
    (hkept : ¬ (p.isSplitTurn = true ∧ p.turnPrefixMessages ≠ [] ∧ p.messagesToSummarize = []))
    (complete : Request → Response) (customInstructions : Option JsString) :
    ∃ request ∈ (compact complete p customInstructions).1, summary <:+: request.promptText := by
  refine ⟨summaryRequest p.messagesToSummarize customInstructions (some summary), ?_,
    summary_in_request _ _ h⟩
  rw [compact, ← hprevious]
  split
  · rename_i hsplit
    have hhistory : p.messagesToSummarize ≠ [] := fun hnil => hkept ⟨hsplit.1, hsplit.2, hnil⟩
    rw [historySummary, if_neg hhistory]
    dsimp only
    generalize responseText "Summarization" _ = outcome
    cases outcome with
    | error e => exact List.mem_singleton_self _
    | ok text => exact List.mem_append_left _ (List.mem_singleton_self _)
  · exact List.mem_singleton_self _

/-- When the first turn is split, there is one request, and the earlier summary is not read. -/
theorem compact_drops_summary {p : CompactionPreparation} (hsplit : p.isSplitTurn = true)
    (hturn : p.turnPrefixMessages ≠ []) (hhistory : p.messagesToSummarize = [])
    (complete : Request → Response) (customInstructions : Option JsString) :
    compact complete p customInstructions =
      ([turnPrefixRequest p.turnPrefixMessages],
        (responseText "Turn prefix summarization"
          (complete (turnPrefixRequest p.turnPrefixMessages))).map
          fun text => compactResult p
            (js "No prior history." ++ js "\n\n---\n\n**Turn Context (split turn):**\n\n" ++
              text)) := by
  rw [compact, if_pos ⟨hsplit, hturn⟩, historySummary, if_pos hhistory]
  rfl

/-- What is compacted of a path with a compaction does not depend on its summary. -/
theorem compactableEntries_split {pre post : List PathEntry}
    (hpost : ∀ entry ∈ post, entry.isCompaction = false) (summary : JsString)
    (retainedTail : List JsValue) (tokensBefore : JsNumber) (details : Option JsValue)
    (timestamp : JsNumber) :
    compactableEntries
        (pre ++ .compaction summary retainedTail tokensBefore details timestamp :: post)
      = retainedTail.map .message ++ post := by
  rw [compactableEntries, latestCompaction?_split rfl hpost]
  rfl

/-- The prefix of a split turn is read off the entries alone. -/
theorem turnPrefixMessages_congr {path path' : List PathEntry} {settings : CompactionSettings}
    {p p' : CompactionPreparation} (hp : prepareCompaction path settings = some p)
    (hp' : prepareCompaction path' settings = some p')
    (h : compactableEntries path = compactableEntries path') :
    p.turnPrefixMessages = p'.turnPrefixMessages := by
  rw [prepareCompaction] at hp hp'
  split at hp
  · cases hp
  split at hp'
  · cases hp'
  obtain rfl := Option.some.inj hp
  obtain rfl := Option.some.inj hp'
  dsimp only
  rw [h]

theorem prepareCompaction_previousSummary {pre post : List PathEntry}
    (hpost : ∀ entry ∈ post, entry.isCompaction = false) {summary : JsString}
    {retainedTail : List JsValue} {tokensBefore : JsNumber} {details : Option JsValue}
    {timestamp : JsNumber} {settings : CompactionSettings} {p : CompactionPreparation}
    (hp : prepareCompaction
      (pre ++ .compaction summary retainedTail tokensBefore details timestamp :: post) settings
        = some p) : p.previousSummary = some summary := by
  rw [prepareCompaction] at hp
  split at hp
  · cases hp
  obtain rfl := Option.some.inj hp
  dsimp only
  rw [latestCompaction?_split rfl hpost]
  rfl

/-- Something behind the latest compaction is enough for a preparation. -/
theorem prepareCompaction_some {pre post : List PathEntry} {c : PathEntry}
    (hpost : ∀ entry ∈ post, entry.isCompaction = false) (hsome : post ≠ [])
    (settings : CompactionSettings) :
    ∃ p, prepareCompaction (pre ++ c :: post) settings = some p := by
  obtain ⟨last, hlast⟩ : ∃ last, post.getLast? = some last :=
    ⟨post.getLast hsome, List.getLast?_eq_some_getLast hsome⟩
  have hpath : (pre ++ c :: post).getLast? = some last := by
    rw [List.getLast?_append_of_ne_nil _ (List.cons_ne_nil c post), List.getLast?_cons, hlast]
    rfl
  rw [prepareCompaction, hpath, Option.all_some,
    if_neg (by rw [hpost last (List.mem_of_getLast? hlast)]; exact Bool.false_ne_true)]
  exact ⟨_, rfl⟩

/-- A model that always answers. -/
def answers (_ : Request) : Response := ⟨js "stop", none, .arr []⟩

theorem answers_ok (what : String) (request : Request) :
    responseText what (answers request) = .ok (contentText (.arr []) (js "\n")) := by
  rw [responseText, answers, if_neg (by decide), if_neg (by decide)]

/-- When the first turn is split, a call that succeeds does not send an earlier summary that is
longer than its request. -/
theorem summary_lost {pre post : List PathEntry}
    (hpost : ∀ entry ∈ post, entry.isCompaction = false) (hsome : post ≠ [])
    {retainedTail : List JsValue} {tokensBefore : JsNumber} {details : Option JsValue}
    {timestamp : JsNumber} {settings : CompactionSettings}
    (hsplits : splitsFirstTurn (retainedTail.map .message ++ post)
      settings.keepRecentTokens = true) :
    ∃ summary p result, summary ≠ [] ∧
      prepareCompaction
        (pre ++ .compaction summary retainedTail tokensBefore details timestamp :: post) settings
          = some p ∧
      (compact answers p none).2 = .ok result ∧
      ∀ request ∈ (compact answers p none).1, ¬ summary <:+: request.promptText := by
  have hentries := fun summary => @compactableEntries_split pre post hpost summary retainedTail
    tokensBefore details timestamp
  -- the request is the same for every earlier summary
  obtain ⟨q, hq⟩ := @prepareCompaction_some pre post
    (.compaction [] retainedTail tokensBefore details timestamp) hpost hsome settings
  let request := turnPrefixRequest q.turnPrefixMessages
  let summary : JsString := List.replicate (request.promptText.length + 1) 0
  obtain ⟨p, hp⟩ := @prepareCompaction_some pre post
    (.compaction summary retainedTail tokensBefore details timestamp) hpost hsome settings
  have hsplit := (prepareCompaction_splits hp).mpr (by rw [hentries]; exact hsplits)
  have hdrops := compact_drops_summary hsplit.1 hsplit.2.1 hsplit.2.2 answers none
  rw [answers_ok, turnPrefixMessages_congr hp hq ((hentries _).trans (hentries _).symm)] at hdrops
  refine ⟨summary, p, _, List.cons_ne_nil _ _, hp, by rw [hdrops]; rfl, fun sent hsent hinfix => ?_⟩
  rw [hdrops, List.mem_singleton] at hsent
  have hlength := hinfix.length_le
  rw [hsent, List.length_replicate] at hlength
  exact Nat.lt_irrefl _ hlength

/-- **The earlier summary is sent along**, whatever its text and whatever the model answers, in
every call of `compact` that succeeds, exactly if the cut does not split, behind its first entry,
a turn that no message comes before. -/
theorem compact_keeps_summary_iff (pre : List PathEntry) {post : List PathEntry}
    (hpost : ∀ entry ∈ post, entry.isCompaction = false) (hsome : post ≠ [])
    (retainedTail : List JsValue) (tokensBefore : JsNumber) (details : Option JsValue)
    (timestamp : JsNumber) (settings : CompactionSettings) :
    (∀ summary p, summary ≠ [] →
      prepareCompaction
        (pre ++ .compaction summary retainedTail tokensBefore details timestamp :: post)
        settings = some p →
      ∀ complete customInstructions result, (compact complete p customInstructions).2 = .ok result →
        ∃ request ∈ (compact complete p customInstructions).1, summary <:+: request.promptText) ↔
      splitsFirstTurn (retainedTail.map .message ++ post) settings.keepRecentTokens = false := by
  constructor
  · intro hsends
    refine Bool.eq_false_iff.mpr fun hsplits => ?_
    obtain ⟨summary, p, result, hsummary, hp, hresult, hlost⟩ := summary_lost hpost hsome hsplits
    obtain ⟨request, hsent, hinfix⟩ := hsends summary p hsummary hp answers none result hresult
    exact hlost request hsent hinfix
  · intro hsplits summary p hsummary hp complete customInstructions result _
    refine compact_sends_summary hsummary (prepareCompaction_previousSummary hpost hp) ?_ complete
      customInstructions
    rw [prepareCompaction_splits hp, compactableEntries_split hpost, hsplits]
    exact Bool.false_ne_true

/-- A turn that goes on behind a compaction, of which everything fits. -/
theorem compact_keeps_summary_next :
    splitsFirstTurn ([textMessage "user" "a"].map .message ++ [.message (textMessage "user" "b")]) 1
        = false ∧
      ∀ summary p, summary ≠ [] →
        prepareCompaction
          ([] ++ .compaction summary [textMessage "user" "a"] (.ofNat 0) none (.ofNat 0)
          :: [.message (textMessage "user" "b")]) ⟨true, 0, 1⟩ = some p →
        ∀ complete customInstructions result,
          (compact complete p customInstructions).2 = .ok result →
          ∃ request ∈ (compact complete p customInstructions).1,
            summary <:+: request.promptText := by
  have hsplits : splitsFirstTurn
      ([textMessage "user" "a"].map .message ++ [.message (textMessage "user" "b")]) 1 = false := by
    decide
  exact ⟨hsplits,
    (compact_keeps_summary_iff [] (by decide) (by decide) _ _ _ _ ⟨true, 0, 1⟩).mpr hsplits⟩

/-- A response with a text. -/
def responseMessage (text : String) : JsValue :=
  .object [(js "role", .str (js "assistant")),
    (js "content", .arr [.object [(js "type", .str (js "text")), (js "text", .str (js text))]])]

/-- One long turn is compacted twice. -/
theorem compact_forgets_summary : ∃ summary p result, summary ≠ [] ∧
    prepareCompaction
      ([] ++ .compaction summary [textMessage "user" "a", responseMessage "bbbb"] (.ofNat 0) none
        (.ofNat 0) :: [.message (responseMessage "cccc")]) ⟨true, 0, 1⟩ = some p ∧
    (compact answers p none).2 = .ok result ∧
    ∀ request ∈ (compact answers p none).1, ¬ summary <:+: request.promptText :=
  summary_lost (by decide) (by decide) (by decide)

end PiMono.Harness
