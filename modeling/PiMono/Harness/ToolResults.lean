import PiMono.Harness.ReducerOrder
import PiMono.Lib.Except

/-!
# Whose result a tool call has

`deriveToolBatch` finds the result of a started call by its provisioned id and, failing that,
as the result of a blocked call: by the id of the call. Calls of one message may share an id.
`tool_results_iff` says when each started call has the result of its own start, and no other.
-/

namespace PiMono.Harness.Lane

section Batches

variable {δ : Type}

/-- What the tool batch of an operation is made of. -/
structure Batch (δ : Type) where
  entriesById : Lookup δ
  ownEntries : List (Entry δ)
  assistantEntry : Entry δ
  message : AssistantMessage δ
  deferredWriteIds : List JsString
  starts : List (LaneRecord δ × ToolStarted δ)

/-- The batch of the open operation. -/
def batchOf (input : LaneReductionInput δ) (started : OperationStarted δ) : Option (Batch δ) :=
  let ownEntries := bySequence Entry.seq input.ownEntries
  let own := operationRecords started.id (bySequence LaneRecord.seq input.records)
  (batchEntry ownEntries).map fun (assistantEntry, message) =>
    { entriesById := (JsMap.index Entry.id (input.entries ++ ownEntries)).get?
      ownEntries := ownEntries
      assistantEntry := assistantEntry
      message := message
      deferredWriteIds := (deferredWrites own).map (·.id)
      starts := batchStarts started.id assistantEntry.id own }

namespace Batch

/-- The start of the call with that ordinal. -/
def start? (b : Batch δ) (toolIndex : Nat) : Option (LaneRecord δ × ToolStarted δ) :=
  startOf b.starts toolIndex

/-- The entry that the start of the call has provisioned. -/
def startedResult? (b : Batch δ) (toolIndex : Nat) : Option (Entry δ) :=
  (b.start? toolIndex).bind fun start => b.entriesById start.2.resultEntryId

/-- The result that is found by the id of the call. -/
def fallback? (b : Batch δ) (toolCall : AgentToolCall δ) : Option (Entry δ) :=
  blockedResult b.ownEntries b.assistantEntry b.deferredWriteIds toolCall

/-- The calls with their ordinals. -/
def calls (b : Batch δ) : List (AgentToolCall δ × Nat) := b.message.toolCalls.zipIdx

/-- What the reducer makes of a call. -/
def call (b : Batch δ) (c : AgentToolCall δ × Nat) : BatchCall δ :=
  batchCall b.entriesById b.ownEntries b.assistantEntry b.deferredWriteIds b.starts c.1 c.2

/-- What the reducer makes of the batch. -/
def state (b : Batch δ) : ToolBatchState δ where
  assistantEntryId := b.assistantEntry.id
  calls := b.calls.map b.call
  truncated := b.message.stopReason = .length
  unresolved := (b.calls.map b.call).any (! ·.resultExists)

/-- A result that is found by the id of the call, and that no start has provisioned. Calls of one
id that are not started share it: nothing in it tells them apart. -/
def HasBlockedResult (b : Batch δ) (toolCall : AgentToolCall δ) : Prop :=
  ∃ entry ∈ b.ownEntries,
    isFallback b.assistantEntry b.deferredWriteIds toolCall entry = true ∧
      ∀ c ∈ b.calls, ∀ start, b.start? c.2 = some start → start.2.resultEntryId ≠ entry.id

/-- A call has a result of its own: the entry of its start or, without a start, a blocked
result. -/
def HasOwnResult (b : Batch δ) (c : AgentToolCall δ × Nat) : Prop :=
  match b.start? c.2 with
  | some start => (b.entriesById start.2.resultEntryId).isSome = true
  | none => b.HasBlockedResult c.1

/-- The claims of a batch: a started call has a result exactly if its entry exists, and the
batch is unresolved exactly if some call has no result of its own. -/
def OwnResultsOnly (b : Batch δ) : Prop :=
  (∀ call ∈ b.state.calls, ∀ start, call.started = some start →
      (call.resultExists = true ↔ (b.entriesById start.2.resultEntryId).isSome = true)) ∧
    (b.state.unresolved = true ↔ ∃ c ∈ b.calls, ¬ b.HasOwnResult c)

/-- No started call whose entry is missing finds a result by the id of the call, and, unless
some call has no result at all, a call without a start that finds one by its id finds one
that no start has provisioned. -/
def NoneBorrowed (b : Batch δ) : Prop :=
  (∀ c ∈ b.calls, (b.start? c.2).isSome = true → b.startedResult? c.2 = none →
      b.fallback? c.1 = none) ∧
    ((∃ c ∈ b.calls, b.startedResult? c.2 = none ∧ b.fallback? c.1 = none) ∨
      ∀ c ∈ b.calls, b.start? c.2 = none → b.fallback? c.1 ≠ none → b.HasBlockedResult c.1)

theorem call_resultExists (b : Batch δ) (c : AgentToolCall δ × Nat) :
    (b.call c).resultExists = ((b.startedResult? c.2).isSome || (b.fallback? c.1).isSome) :=
  Option.isSome_or

/-- A call is unresolved where neither way finds a result. -/
theorem unresolved_iff (b : Batch δ) : b.state.unresolved = true
    ↔ ∃ c ∈ b.calls, b.startedResult? c.2 = none ∧ b.fallback? c.1 = none := by
  show (b.calls.map b.call).any (! ·.resultExists) = true ↔ _
  rw [List.any_map, List.any_eq_true]
  refine exists_congr fun c => and_congr_right fun _ => ?_
  show (! (b.call c).resultExists) = true ↔ _
  rw [call_resultExists]
  simp

/-- A blocked result is found by the id of the call. -/
theorem HasBlockedResult.fallback {b : Batch δ} {toolCall : AgentToolCall δ}
    (h : b.HasBlockedResult toolCall) : b.fallback? toolCall ≠ none := by
  obtain ⟨entry, hmem, hfallback, -⟩ := h
  intro hnone
  exact List.find?_eq_none.mp hnone entry hmem hfallback

/-- A call that has no result has none of its own. -/
theorem not_hasOwnResult {b : Batch δ} {c : AgentToolCall δ × Nat}
    (hstarted : b.startedResult? c.2 = none) (hfallback : b.fallback? c.1 = none) :
    ¬ b.HasOwnResult c := by
  unfold HasOwnResult
  cases hstart : b.start? c.2 with
  | some start =>
    rw [startedResult?, hstart, Option.bind_some] at hstarted
    simp [hstarted]
  | none => exact fun h => h.fallback hfallback

/-- The part about the started calls. -/
theorem started_iff (b : Batch δ) :
    (∀ call ∈ b.state.calls, ∀ start, call.started = some start →
      (call.resultExists = true ↔ (b.entriesById start.2.resultEntryId).isSome = true)) ↔
    ∀ c ∈ b.calls, (b.start? c.2).isSome = true → b.startedResult? c.2 = none →
      b.fallback? c.1 = none := by
  constructor
  · intro h c hc hstart hnone
    obtain ⟨start, hstart⟩ := Option.isSome_iff_exists.mp hstart
    have hiff := h (b.call c) (List.mem_map_of_mem hc) start hstart
    rw [startedResult?, hstart, Option.bind_some] at hnone
    rw [call_resultExists, startedResult?, hstart, Option.bind_some, hnone] at hiff
    simpa using hiff
  · intro h call hcall start hstart
    obtain ⟨c, hc, rfl⟩ := List.mem_map.mp hcall
    have hstart : b.start? c.2 = some start := hstart
    have hresult : b.startedResult? c.2 = b.entriesById start.2.resultEntryId := by
      rw [startedResult?, hstart, Option.bind_some]
    rw [call_resultExists, hresult]
    cases hentry : b.entriesById start.2.resultEntryId with
    | some entry => simp
    | none =>
      rw [h c hc (by rw [hstart]; rfl) (hresult.trans hentry)]
      simp

/-- **Own results.** -/
theorem ownResultsOnly_iff (b : Batch δ) : b.OwnResultsOnly ↔ b.NoneBorrowed := by
  rw [OwnResultsOnly, NoneBorrowed, started_iff]
  refine and_congr_right fun hstarted => ?_
  rw [unresolved_iff]
  constructor
  · intro h
    by_cases hsome : ∃ c ∈ b.calls, b.startedResult? c.2 = none ∧ b.fallback? c.1 = none
    · exact Or.inl hsome
    · refine Or.inr fun c hc hstart hfallback => ?_
      by_contra hnot
      refine hsome (h.mpr ⟨c, hc, ?_⟩)
      unfold HasOwnResult
      rw [hstart]
      exact hnot
  · intro h
    constructor
    · rintro ⟨c, hc, hstart, hfallback⟩
      exact ⟨c, hc, not_hasOwnResult hstart hfallback⟩
    · rintro ⟨c, hc, hown⟩
      rcases h with hsome | hall
      · exact hsome
      · refine ⟨c, hc, ?_⟩
        unfold HasOwnResult at hown
        cases hstart : b.start? c.2 with
        | some start =>
          rw [hstart] at hown
          have hnone : b.startedResult? c.2 = none := by
            rw [startedResult?, hstart, Option.bind_some]
            simpa using hown
          exact ⟨hnone, hstarted c hc (by rw [hstart]; rfl) hnone⟩
        | none =>
          rw [hstart] at hown
          refine ⟨by rw [startedResult?, hstart]; rfl, ?_⟩
          by_contra hfallback
          exact hown (hall c hc hstart hfallback)

end Batch

end Batches

/-! ## The starts of a batch -/

section Starts

variable {δ : Type} [DecidableEq δ]

/-- The invocations that the records start. -/
def invocations (records : List (LaneRecord δ)) : List (JsString × Nat) :=
  records.filterMap fun record =>
    match record.body with
    | .toolStarted start => some (start.assistantEntryId, start.toolIndex)
    | _ => none

/-- One record adds the invocation it starts, which is a new one. -/
theorem validateRecord_invocations {entriesById : Lookup δ} {log log' : RecordLog δ}
    {record : LaneRecord δ} (h : validateRecord entriesById log record = .ok log') :
    log'.toolInvocations = invocations [record] ++ log.toolInvocations ∧
      (log.toolInvocations.Nodup → log'.toolInvocations.Nodup) := by
  obtain ⟨-, -, h⟩ := Except.bind_eq_ok.mp h
  obtain ⟨id, seq, body⟩ := record
  cases body with
  | toolStarted start =>
    obtain ⟨⟨⟩, hstart, hlog⟩ := Except.bind_eq_ok.mp h
    obtain rfl := Except.ok.inj hlog
    refine ⟨rfl, fun hnodup => List.nodup_cons.mpr ⟨fun hmem => ?_, hnodup⟩⟩
    rw [validateToolStart, if_pos hmem] at hstart
    cases hstart
  | operationStarted intent =>
    obtain ⟨-, -, hlog⟩ := Except.bind_eq_ok.mp h
    obtain rfl := Except.ok.inj hlog
    exact ⟨rfl, fun hnodup => hnodup⟩
  | abortRequested runId =>
    obtain rfl := Except.ok.inj h
    exact ⟨rfl, fun hnodup => hnodup⟩
  | operationFinished runId =>
    obtain rfl := Except.ok.inj h
    exact ⟨rfl, fun hnodup => hnodup⟩
  | stepAttempt attempt =>
    obtain ⟨-, -, h⟩ := Except.bind_eq_ok.mp h
    obtain ⟨-, -, h⟩ := Except.bind_eq_ok.mp h
    obtain ⟨-, -, hlog⟩ := Except.bind_eq_ok.mp h
    obtain rfl := Except.ok.inj hlog
    exact ⟨rfl, fun hnodup => hnodup⟩
  | queueEnqueued q =>
    simp only [validateBody] at h
    split at h
    · cases h
    · obtain ⟨-, -, hlog⟩ := Except.bind_eq_ok.mp h
      obtain rfl := Except.ok.inj hlog
      exact ⟨rfl, fun hnodup => hnodup⟩
  | queueCancelled runId entryId =>
    simp only [validateBody] at h
    split at h
    · obtain rfl := Except.ok.inj h
      exact ⟨rfl, fun hnodup => hnodup⟩
    · cases h
  | writeDeferred runId target =>
    obtain ⟨-, -, hlog⟩ := Except.bind_eq_ok.mp h
    obtain rfl := Except.ok.inj hlog
    exact ⟨rfl, fun hnodup => hnodup⟩
  | usage cause runId entryId =>
    obtain rfl := Except.ok.inj h
    exact ⟨rfl, fun hnodup => hnodup⟩

/-- **Invocations.** No two records of a valid slice start the same call. -/
theorem foldlM_invocations {entriesById : Lookup δ} (records : List (LaneRecord δ))
    {log log' : RecordLog δ} (hnodup : log.toolInvocations.Nodup)
    (h : records.foldlM (validateRecord entriesById) log = .ok log') :
    ((invocations records).reverse ++ log.toolInvocations).Nodup := by
  induction records generalizing log with
  | nil => exact hnodup
  | cons record records ih =>
    rw [List.foldlM_cons] at h
    obtain ⟨next, hnext, hrest⟩ := Except.bind_eq_ok.mp h
    obtain ⟨heq, hkeep⟩ := validateRecord_invocations hnext
    have hall := ih (hkeep hnodup) hrest
    have hcons : invocations (record :: records) = invocations [record] ++ invocations records := by
      rw [← List.singleton_append, invocations, List.filterMap_append]
      rfl
    have hone : (invocations [record]).reverse = invocations [record] := by
      obtain ⟨id, seq, body⟩ := record
      cases body <;> rfl
    rw [heq, ← List.append_assoc] at hall
    rw [hcons, List.reverse_append, hone]
    exact hall

theorem filterMap_sublist {α β : Type} {f g : α → Option β}
    (h : ∀ a b, f a = some b → g a = some b) (xs : List α) :
    (xs.filterMap f).Sublist (xs.filterMap g) := by
  induction xs with
  | nil => exact .slnil
  | cons a xs ih =>
    cases hf : f a with
    | none =>
      rw [List.filterMap_cons_none hf]
      cases hg : g a with
      | none => rw [List.filterMap_cons_none hg]; exact ih
      | some b => rw [List.filterMap_cons_some hg]; exact ih.cons b
    | some b =>
      rw [List.filterMap_cons_some hf, List.filterMap_cons_some (h a b hf)]
      exact ih.cons_cons b

/-- What makes a record the start of a call of the batch. -/
structure IsStart (input : LaneReductionInput δ) (operationId assistantEntryId : JsString)
    (start : LaneRecord δ × ToolStarted δ) : Prop where
  mem : start.1 ∈ input.records
  body : start.1.body = .toolStarted start.2
  runId : start.2.runId = operationId
  assistantEntryId : start.2.assistantEntryId = assistantEntryId

/-- The starts of a batch among the records. -/
def startsOf (input : LaneReductionInput δ) (operationId assistantEntryId : JsString) :
    List (LaneRecord δ × ToolStarted δ) :=
  batchStarts operationId assistantEntryId
    (operationRecords operationId (bySequence LaneRecord.seq input.records))

omit [DecidableEq δ] in
theorem mem_startsOf {input : LaneReductionInput δ} {operationId assistantEntryId : JsString}
    {start : LaneRecord δ × ToolStarted δ} : start ∈ startsOf input operationId assistantEntryId
      ↔ IsStart input operationId assistantEntryId start := by
  constructor
  · intro h
    obtain ⟨record, hrecord, hstart⟩ := List.mem_filterMap.mp h
    have hmem : record ∈ input.records :=
      (List.mergeSort_perm _ _).mem_iff.mp (List.mem_of_mem_filter hrecord)
    obtain ⟨id, seq, body⟩ := record
    cases body with
    | toolStarted s =>
      simp only at hstart
      split at hstart
      · rename_i hids
        obtain rfl := Option.some.inj hstart
        exact ⟨hmem, rfl, hids.1, hids.2⟩
      · cases hstart
    | _ => cases hstart
  · rintro ⟨hmem, hbody, hrun, hentry⟩
    obtain ⟨⟨id, seq, body⟩, s⟩ := start
    obtain rfl : body = .toolStarted s := hbody
    refine List.mem_filterMap.mpr ⟨⟨id, seq, .toolStarted s⟩, ?_, if_pos ⟨hrun, hentry⟩⟩
    refine List.mem_filter.mpr ⟨(List.mergeSort_perm _ _).mem_iff.mpr hmem, ?_⟩
    exact decide_eq_true (congrArg some hrun)

/-- The starts of a batch are starts of different calls. -/
theorem startsOf_nodup {input : LaneReductionInput δ} {log : RecordLog δ}
    (h : validateRecordLog input.lane input.openOperations input.records input.entries = .ok log)
    (operationId assistantEntryId : JsString) :
    ((startsOf input operationId assistantEntryId).map (·.2.toolIndex)).Nodup := by
  have hfold : ((invocations (bySequence LaneRecord.seq input.records)).reverse ++ []).Nodup := by
    unfold validateRecordLog at h
    split at h
    · cases h
    · obtain ⟨-, -, hrun⟩ := Except.bind_eq_ok.mp h
      exact foldlM_invocations _ List.nodup_nil hrun
  rw [List.append_nil, List.nodup_reverse] at hfold
  have hsub : (((startsOf input operationId assistantEntryId).map (·.2.toolIndex)).map
      (assistantEntryId, ·)).Sublist
        (invocations (bySequence LaneRecord.seq input.records)) := by
    rw [startsOf, batchStarts, operationRecords, List.filterMap_filter, List.map_filterMap,
      List.map_filterMap]
    refine filterMap_sublist ?_ _
    rintro ⟨id, seq, body⟩ invocation hsome
    cases body with
    | toolStarted s =>
      obtain ⟨index, hindex, rfl⟩ := Option.map_eq_some_iff.mp hsome
      obtain ⟨start, hstart, rfl⟩ := Option.map_eq_some_iff.mp hindex
      simp only at hstart
      split at hstart
      · split at hstart
        · rename_i hids
          obtain rfl := Option.some.inj hstart
          show some (s.assistantEntryId, s.toolIndex) = some (assistantEntryId, s.toolIndex)
          rw [hids.2]
        · cases hstart
      · cases hstart
    | _ => simp at hsome
  exact (hfold.sublist hsub).of_map _

/-- The start of a call is the record that starts it. -/
theorem startOf_iff {input : LaneReductionInput δ} {log : RecordLog δ}
    (h : validateRecordLog input.lane input.openOperations input.records input.entries = .ok log)
    {operationId assistantEntryId : JsString} {toolIndex : Nat}
    {start : LaneRecord δ × ToolStarted δ} :
    startOf (startsOf input operationId assistantEntryId) toolIndex = some start
      ↔ IsStart input operationId assistantEntryId start ∧ start.2.toolIndex = toolIndex := by
  rw [← mem_startsOf]
  constructor
  · exact JsMap.mem_of_get?_index_some _
  · rintro ⟨hmem, rfl⟩
    exact JsMap.get?_index_of_mem (startsOf_nodup h operationId assistantEntryId) hmem

/-- The state of the reduced batch. -/
theorem toolBatch_eq {input : LaneReductionInput δ} {r : LaneReductionResult δ}
    (h : reduceLaneState input = .ok r) {o : OperationState δ}
    (ho : r.laneState.operation = some o) {s : ToolBatchState δ} (hs : o.toolBatch = some s) :
    ∃ log started b,
      validateRecordLog input.lane input.openOperations input.records input.entries = .ok log ∧
      input.openOperations.head? = some started ∧ batchOf input started = some b ∧
      s = b.state ∧ b.starts = startsOf input started.id b.assistantEntry.id := by
  obtain ⟨log, hlog, hr⟩ := Except.bind_eq_ok.mp h
  obtain rfl := Except.ok.inj hr
  obtain ⟨started, hstarted, rfl⟩ := Option.map_eq_some_iff.mp ho
  obtain ⟨⟨assistantEntry, message⟩, hentry, rfl⟩ := Option.map_eq_some_iff.mp hs
  have hb : batchOf input started = some
      { entriesById := (JsMap.index Entry.id
          (input.entries ++ bySequence Entry.seq input.ownEntries)).get?
        ownEntries := bySequence Entry.seq input.ownEntries
        assistantEntry := assistantEntry
        message := message
        deferredWriteIds := (deferredWrites (operationRecords started.id
          (bySequence LaneRecord.seq input.records))).map (·.id)
        starts := startsOf input started.id assistantEntry.id } := by
    rw [batchOf, hentry]
    rfl
  exact ⟨log, started, _, hlog, hstarted, hb, rfl, rfl⟩

/-- **Tool results.** In the batch of a valid slice the start of a call is the record that
starts it; a started call is resolved by its own result only, and the batch is unresolved
exactly if some call has no result of its own, if and only if none is borrowed. -/
theorem tool_results_iff {input : LaneReductionInput δ} {r : LaneReductionResult δ}
    (h : reduceLaneState input = .ok r) {o : OperationState δ}
    (ho : r.laneState.operation = some o) {s : ToolBatchState δ} (hs : o.toolBatch = some s) :
    ∃ started b, input.openOperations.head? = some started ∧ batchOf input started = some b ∧
      s = b.state ∧
      (∀ toolIndex start, b.start? toolIndex = some start ↔
        IsStart input started.id b.assistantEntry.id start ∧ start.2.toolIndex = toolIndex) ∧
      (b.OwnResultsOnly ↔ b.NoneBorrowed) := by
  obtain ⟨log, started, b, hlog, hstarted, hb, hstate, hstarts⟩ := toolBatch_eq h ho hs
  refine ⟨started, b, hstarted, hb, hstate, ?_, b.ownResultsOnly_iff⟩
  intro toolIndex start
  rw [Batch.start?, hstarts]
  exact startOf_iff hlog

/-- The slice of a run with two calls of one id, the second of which has no result. -/
def twoCalls (secondResult : List (Entry Unit)) : LaneReductionInput Unit :=
  let call : AgentToolCall Unit := ⟨js "x", js "bash", ()⟩
  let message : AssistantMessage Unit :=
    ⟨[.toolCall call, .toolCall call], js "p", js "m", .toolUse, none, ()⟩
  let own : List (Entry Unit) :=
    [⟨js "a", 2, .message (.assistant message) false⟩,
      ⟨js "r0", 5, .message (.toolResult (js "x") (js "bash") ()) false⟩] ++ secondResult
  { lane := js "main"
    openOperations := [⟨js "op", 1, .run [] ()⟩]
    records :=
      [⟨js "op", 1, .operationStarted (.run [] ())⟩,
        ⟨js "s0", 3, .toolStarted ⟨js "op", js "a", 0, js "x", js "bash", js "r0", ()⟩⟩,
        ⟨js "s1", 4, .toolStarted ⟨js "op", js "a", 1, js "x", js "bash", js "r1", ()⟩⟩]
    entries := own
    leafId := some (js "r0")
    ownEntries := own
    configurationEntries := []
    defaults := ⟨[], [], [], []⟩ }

/-- The batch that the reducer makes of a slice. -/
def reducedBatch (input : LaneReductionInput Unit) : Option (ToolBatchState Unit) :=
  ((reduceLaneState input).toOption.bind (·.laneState.operation)).bind (·.toolBatch)

theorem reducedBatch_eq_some {input : LaneReductionInput Unit} {s : ToolBatchState Unit}
    (h : reducedBatch input = some s) : ∃ r o, reduceLaneState input = .ok r ∧
      r.laneState.operation = some o ∧ o.toolBatch = some s := by
  obtain ⟨o, ho, hs⟩ := Option.bind_eq_some_iff.mp h
  obtain ⟨r, hr, ho⟩ := Option.bind_eq_some_iff.mp ho
  cases hreduce : reduceLaneState input with
  | error e =>
    rw [hreduce] at hr
    cases hr
  | ok r' =>
    rw [hreduce] at hr
    obtain rfl : r' = r := Option.some.inj hr
    exact ⟨r', o, rfl, ho, hs⟩

/-- Arrays that are in order already. -/
theorem bySequence_sorted {α : Type} {seq : α → Nat} {xs : List α}
    (h : xs.Pairwise fun a b => seq a ≤ seq b) : bySequence seq xs = xs :=
  List.mergeSort_of_pairwise (h.imp fun hab => decide_eq_true hab)

/-- The second call has no result, and the result of the first one stands for it. -/
theorem twoCalls_borrowed : ∃ s, reducedBatch (twoCalls []) = some s ∧
    s.calls.map (fun call => call.started.map (·.2.resultEntryId))
      = [some (js "r0"), some (js "r1")] ∧
    (∀ entry ∈ (twoCalls []).entries ++ (twoCalls []).ownEntries, entry.id ≠ js "r1") ∧
    s.calls.map (·.resultExists) = [true, true] ∧ s.unresolved = false := by
  have hrecords : bySequence LaneRecord.seq (twoCalls []).records = (twoCalls []).records :=
    bySequence_sorted (by decide)
  have hown : bySequence Entry.seq (twoCalls []).ownEntries = (twoCalls []).ownEntries :=
    bySequence_sorted (by decide)
  have hany : (reducedBatch (twoCalls [])).any (fun s =>
      s.calls.map (fun call => call.started.map (·.2.resultEntryId))
        = [some (js "r0"), some (js "r1")] &&
      s.calls.map (·.resultExists) = [true, true] && ! s.unresolved) = true := by
    rw [reducedBatch, reduceLaneState, validateRecordLog]
    simp only [hrecords, hown]
    decide
  cases hs : reducedBatch (twoCalls []) with
  | none =>
    rw [hs] at hany
    cases hany
  | some s =>
    rw [hs] at hany
    simp only [Option.any_some, Bool.and_eq_true, decide_eq_true_eq, Bool.not_eq_true'] at hany
    exact ⟨s, rfl, hany.1.1, by decide, hany.1.2, hany.2⟩

/-- The same slice with a result of the second call. -/
theorem tool_results_iff_of_two :
    let second : Entry Unit :=
      ⟨js "r1", 6, .message (.toolResult (js "x") (js "bash") ()) false⟩
    ∃ s, reducedBatch (twoCalls [second]) = some s ∧
      ∃ started b, batchOf (twoCalls [second]) started = some b ∧ s = b.state ∧
        b.OwnResultsOnly := by
  intro second
  have hrecords : bySequence LaneRecord.seq (twoCalls [second]).records
      = (twoCalls [second]).records := bySequence_sorted (by decide)
  have hown : bySequence Entry.seq (twoCalls [second]).ownEntries
      = (twoCalls [second]).ownEntries := bySequence_sorted (by decide)
  have hsome : (reducedBatch (twoCalls [second])).isSome = true := by
    rw [reducedBatch, reduceLaneState, validateRecordLog]
    simp only [hrecords, hown]
    decide
  obtain ⟨s, hs⟩ := Option.isSome_iff_exists.mp hsome
  obtain ⟨r, o, hr, ho, hbatch⟩ := reducedBatch_eq_some hs
  obtain ⟨started, b, hstarted, hb, hstate, -, hiff⟩ := tool_results_iff hr ho hbatch
  refine ⟨s, hs, started, b, hb, hstate, hiff.mpr ?_⟩
  obtain rfl := Option.some.inj hstarted
  have hall : ((batchOf (twoCalls [second]) ⟨js "op", 1, .run [] ()⟩).all fun b =>
      b.calls.all fun c => (b.startedResult? c.2).isSome) = true := by
    rw [batchOf]
    simp only [hrecords, hown]
    decide
  -- the entry of each call is there
  have hthere : ∀ c ∈ b.calls, (b.startedResult? c.2).isSome = true := by
    rw [hb] at hall
    exact List.all_eq_true.mp hall
  refine ⟨fun c hc _ hnone => ?_, .inr fun c hc hnone _ => ?_⟩
  · have hresult := hthere c hc
    rw [hnone] at hresult
    cases hresult
  · have hresult := hthere c hc
    rw [Batch.startedResult?, hnone] at hresult
    cases hresult

end Starts

end PiMono.Harness.Lane
