import PiMono.Ai.AnthropicStream

/-!
# Assembling Anthropic streams

For events in which every block is started and stopped once, with deltas of its kind in between,
what `stream` pushes and the message in the end are known (`stream_of_wellFormed`). They are
what the events say if every tool call without deltas was started without input
(`faithful_iff_spoken`).
-/

namespace PiMono.Ai.AnthropicStream

/-! ## What the events say -/

/-- A started block. -/
def RawMessageStreamEvent.started : RawMessageStreamEvent → Option (JsNumber × ContentBlock)
  | .content_block_start (some index) block => some (index, block)
  | _ => none

/-- The index of a stopped block. -/
def RawMessageStreamEvent.stopped : RawMessageStreamEvent → Option JsNumber
  | .content_block_stop (some index) => some index
  | _ => none

/-- The delta of a block. -/
def RawMessageStreamEvent.deltaOf (index : JsNumber) : RawMessageStreamEvent → Option Delta
  | .content_block_delta (some i) delta => if i = index then some delta else none
  | _ => none

/-- Blocks that are part of the message. -/
def ContentBlock.isKnown : ContentBlock → Bool
  | .other => false
  | _ => true

def starts (events : List RawMessageStreamEvent) : List (JsNumber × ContentBlock) :=
  events.filterMap RawMessageStreamEvent.started

def stops (events : List RawMessageStreamEvent) : List JsNumber :=
  events.filterMap RawMessageStreamEvent.stopped

/-- The deltas of a block. -/
def deltas (events : List RawMessageStreamEvent) (index : JsNumber) : List Delta :=
  events.filterMap (RawMessageStreamEvent.deltaOf index)

/-- The blocks of the message. -/
def blocks (events : List RawMessageStreamEvent) : List (JsNumber × ContentBlock) :=
  (starts events).filter (·.2.isKnown)

/-- The deltas of the kind of a block. -/
def ContentBlock.suits : ContentBlock → Delta → Bool
  | .text _, .text_delta _ => true
  | .thinking _ _, .thinking_delta _ => true
  | .thinking _ _, .signature_delta _ => true
  | .tool_use _ _ _, .input_json_delta _ => true
  | .other, _ => true
  | _, .other => true
  | _, _ => false

/-- The known reasons, other than those for which the provider refuses. -/
def stopReasons : List JsString :=
  [js "end_turn", js "max_tokens", js "tool_use", js "pause_turn", js "stop_sequence"]

/-- An event that may come behind others. -/
def Allowed (before : List RawMessageStreamEvent) : RawMessageStreamEvent → Prop
  | .content_block_start index _ => ∃ i, index = some i ∧ i ∉ (starts before).map Prod.fst
  | .content_block_delta index delta => ∃ i block, index = some i ∧ (i, block) ∈ starts before ∧
      i ∉ stops before ∧ block.suits delta = true
  | .content_block_stop index => ∃ i block, index = some i ∧ (i, block) ∈ starts before ∧
      i ∉ stops before
  | .message_delta stop_reason _ => ∀ reason, stop_reason = some reason → reason ∈ stopReasons
  | _ => True

/-- Blocks are started and stopped at most once, with deltas of their kinds in between. -/
def Orderly (events : List RawMessageStreamEvent) : Prop :=
  ∀ before event behind, events = before ++ event :: behind → Allowed before event

/-- Events of a whole message. -/
structure WellFormed (events : List RawMessageStreamEvent) : Prop where
  orderly : Orderly events
  stopped : ∀ block ∈ starts events, block.1 ∈ stops events
  reason : ∃ reason explanation, .message_delta (some reason) explanation ∈ events
  final : events.getLast? = some .message_stop

theorem orderly_nil : Orderly [] := by
  intro before event behind h
  cases before <;> cases h

theorem orderly_concat {events : List RawMessageStreamEvent} {event : RawMessageStreamEvent}
    (h : Orderly (events ++ [event])) : Orderly events ∧ Allowed events event := by
  refine ⟨fun before e behind heq => ?_, h events event [] rfl⟩
  exact h before e (behind ++ [event]) (by rw [heq, List.append_assoc, List.cons_append])

section Concat

variable (events : List RawMessageStreamEvent) (event : RawMessageStreamEvent)

theorem starts_concat : starts (events ++ [event]) = starts events ++ event.started.toList := by
  rw [starts, List.filterMap_append]
  cases h : event.started <;> simp [starts, h]

theorem stops_concat : stops (events ++ [event]) = stops events ++ event.stopped.toList := by
  rw [stops, List.filterMap_append]
  cases h : event.stopped <;> simp [stops, h]

theorem deltas_concat (index : JsNumber) :
    deltas (events ++ [event]) index = deltas events index ++ (event.deltaOf index).toList := by
  rw [deltas, List.filterMap_append]
  cases h : event.deltaOf index <;> simp [deltas, h]

theorem blocks_concat : blocks (events ++ [event])
    = blocks events ++ event.started.toList.filter (·.2.isKnown) := by
  rw [blocks, starts_concat, List.filter_append]
  rfl

end Concat

section Orderly

variable {events : List RawMessageStreamEvent}

/-- Indices are used once. -/
theorem nodup_starts (h : Orderly events) : ((starts events).map Prod.fst).Nodup := by
  induction events using List.reverseRecOn with
  | nil => exact List.nodup_nil
  | append_singleton events event ih =>
    obtain ⟨horderly, hallowed⟩ := orderly_concat h
    rw [starts_concat, List.map_append]
    cases hstarted : event.started with
    | none => simpa using ih horderly
    | some block =>
      have hfresh : block.1 ∉ (starts events).map Prod.fst := by
        unfold RawMessageStreamEvent.started at hstarted
        split at hstarted
        · obtain ⟨i, hi, hfresh⟩ := hallowed
          rw [← Option.some.inj hstarted]
          exact Option.some.inj hi ▸ hfresh
        · cases hstarted
      refine List.nodup_append.mpr ⟨ih horderly, List.nodup_singleton _, ?_⟩
      intro a ha b hb heq
      rw [Option.toList_some, List.map_singleton, List.mem_singleton] at hb
      exact hfresh (hb ▸ heq ▸ ha)

theorem nodup_blocks (h : Orderly events) : ((blocks events).map Prod.fst).Nodup :=
  (nodup_starts h).sublist (List.filter_sublist.map _)

/-- Only started blocks are stopped, and have deltas. -/
theorem started_of_stopped (h : Orderly events) {index : JsNumber} (hstop : index ∈ stops events) :
    index ∈ (starts events).map Prod.fst := by
  induction events using List.reverseRecOn with
  | nil => cases hstop
  | append_singleton events event ih =>
    obtain ⟨horderly, hallowed⟩ := orderly_concat h
    rw [stops_concat] at hstop
    rw [starts_concat, List.map_append]
    refine List.mem_append_left _ ?_
    obtain hold | hnew := List.mem_append.mp hstop
    · exact ih horderly hold
    · rw [Option.mem_toList] at hnew
      unfold RawMessageStreamEvent.stopped at hnew
      split at hnew
      · obtain ⟨i, block, hi, hstarted, -⟩ := hallowed
        rw [← Option.some.inj hnew, Option.some.inj hi]
        exact List.mem_map_of_mem hstarted
      · cases hnew

theorem started_of_delta (h : Orderly events) {index : JsNumber}
    (hdeltas : deltas events index ≠ []) :
    index ∈ (starts events).map Prod.fst := by
  induction events using List.reverseRecOn with
  | nil => exact absurd rfl hdeltas
  | append_singleton events event ih =>
    obtain ⟨horderly, hallowed⟩ := orderly_concat h
    rw [starts_concat, List.map_append]
    refine List.mem_append_left _ ?_
    by_cases hold : deltas events index = []
    · rw [deltas_concat, hold, List.nil_append] at hdeltas
      cases hnew : event.deltaOf index with
      | none => exact absurd (by rw [hnew]; rfl) hdeltas
      | some delta =>
        unfold RawMessageStreamEvent.deltaOf at hnew
        split at hnew
        · obtain ⟨i, block, hi, hstarted, -⟩ := hallowed
          split at hnew
          · rename_i heq
            rw [← heq, Option.some.inj hi]
            exact List.mem_map_of_mem hstarted
          · cases hnew
        · cases hnew
    · exact ih horderly hold

end Orderly

/-! ## Places -/

/-- A block of the message, with its place. -/
def lookup (events : List RawMessageStreamEvent) (index : JsNumber) :
    Option ((JsNumber × ContentBlock) × Nat) :=
  (blocks events).zipIdx.find? fun b => b.1.1 = index

theorem lookup_spec {events : List RawMessageStreamEvent} {index : JsNumber}
    {block : JsNumber × ContentBlock} {position : Nat}
    (h : lookup events index = some (block, position)) :
    (blocks events)[position]? = some block ∧ block.1 = index := by
  refine ⟨List.mem_zipIdx_iff_getElem?.mp (List.mem_of_find?_eq_some h), ?_⟩
  simpa using List.find?_some h

theorem lookup_eq_none {events : List RawMessageStreamEvent} {index : JsNumber} :
    lookup events index = none ↔ ∀ block ∈ blocks events, block.1 ≠ index := by
  rw [lookup, List.find?_eq_none]
  constructor
  · intro h block hblock heq
    obtain ⟨position, hposition⟩ := List.mem_iff_getElem?.mp hblock
    exact h (block, position) (List.mem_zipIdx_iff_getElem?.mpr hposition) (by simpa using heq)
  · intro h r hr heq
    exact h r.1 (List.mem_iff_getElem?.mpr ⟨r.2, List.mem_zipIdx_iff_getElem?.mp hr⟩)
      (by simpa using heq)

/-- A block is found at its place. -/
theorem lookup_of_getElem {events : List RawMessageStreamEvent} (h : Orderly events)
    {block : JsNumber × ContentBlock} {position : Nat}
    (hblock : (blocks events)[position]? = some block) :
    lookup events block.1 = some (block, position) := by
  cases hlookup : lookup events block.1 with
  | none => exact absurd rfl (lookup_eq_none.mp hlookup block (List.mem_of_getElem? hblock))
  | some r =>
    obtain ⟨hr, hindex⟩ := lookup_spec hlookup
    have hkeys : ((blocks events).map Prod.fst)[r.2]? =
      ((blocks events).map Prod.fst)[position]? := by
      rw [List.getElem?_map, List.getElem?_map, hr, hblock, Option.map_some,
        Option.map_some, hindex]
    have hlt : r.2 < ((blocks events).map Prod.fst).length := by
      rw [List.length_map]
      exact (List.getElem?_eq_some_iff.mp hr).1
    have hposition : r.2 = position := (List.getElem?_inj hlt (nodup_blocks h)).mp hkeys
    rw [hposition, hblock] at hr
    rw [Option.some.inj hr, ← hposition]

/-- A started block keeps its place. -/
theorem lookup_concat {events : List RawMessageStreamEvent} {event : RawMessageStreamEvent}
    (hallowed : Allowed events event) {index : JsNumber}
    (hstarted : index ∈ (starts events).map Prod.fst) :
    lookup (events ++ [event]) index = lookup events index := by
  have hfresh : ∀ block, event.started = some block → block.1 ≠ index := by
    intro block hblock heq
    unfold RawMessageStreamEvent.started at hblock
    split at hblock
    · obtain ⟨i, hi, hfresh⟩ := hallowed
      rw [← Option.some.inj hblock] at heq
      have hindex : i = index := (Option.some.inj hi).symm.trans heq
      exact hfresh (hindex ▸ hstarted)
    · cases hblock
  unfold lookup
  rw [blocks_concat, List.zipIdx_append, List.find?_append]
  cases hold : (blocks events).zipIdx.find? fun b => b.1.1 = index with
  | some r => rfl
  | none =>
    rw [Option.none_or, List.find?_eq_none]
    intro r hr
    obtain ⟨block, position⟩ := r
    have hmem := List.mem_filter.mp (List.fst_mem_of_mem_zipIdx hr)
    simpa using hfresh block (Option.mem_toList.mp hmem.1)

/-- A block that is started now comes behind the others. -/
theorem lookup_started {events : List RawMessageStreamEvent} {index : JsNumber}
    {block : ContentBlock} (hfresh : index ∉ (starts events).map Prod.fst)
    (hknown : block.isKnown = true) :
    lookup (events ++ [.content_block_start (some index) block]) index
      = some ((index, block), (blocks events).length) := by
  have hnone : (blocks events).zipIdx.find? (fun b => b.1.1 = index) = none :=
    lookup_eq_none.mpr fun b hb heq =>
      hfresh (heq ▸ List.mem_map_of_mem (List.mem_of_mem_filter hb))
  unfold lookup
  rw [blocks_concat, List.zipIdx_append, List.find?_append, hnone, Option.none_or]
  simp [RawMessageStreamEvent.started, hknown]

/-! ## What is assembled -/

/-- What a delta adds to a block. -/
def ContentBlock.shown : ContentBlock → Delta → Option JsString
  | .text _, .text_delta delta => some delta
  | .thinking _ _, .thinking_delta delta => some delta
  | .tool_use _ _ _, .input_json_delta delta => some delta
  | _, _ => none

/-- What the deltas add to a block. -/
def ContentBlock.appended (block : ContentBlock) (deltas : List Delta) : JsString :=
  (deltas.filterMap block.shown).flatten

def Delta.signature? : Delta → Option JsString
  | .signature_delta signature => some signature
  | _ => none

def signatures (deltas : List Delta) : JsString := (deltas.filterMap Delta.signature?).flatten

namespace Options

variable (options : Options)

/-- What the stream has of a block, before or after its stop. -/
def assembled (block : ContentBlock) (deltas : List Delta) (stopped : Bool) : Content :=
  match block with
  | .text text => .text (text.getD [] ++ block.appended deltas)
  | .thinking thinking signature =>
    .thinking (thinking.getD [] ++ block.appended deltas) (signature.getD [] ++ signatures deltas)
      false
  | .redacted_thinking data => .thinking (js "[Reasoning redacted]") data true
  | .tool_use id name input =>
    .toolCall id (options.toolName name)
      (if stopped = false ∧ deltas.filterMap block.shown = [] then input.getD .empty
        else options.parse (block.appended deltas))
      (if stopped then none else some (block.appended deltas))
  | .other => .text []

/-- A block as the message has it. -/
def blockAfter (events : List RawMessageStreamEvent) (block : JsNumber × ContentBlock) : Block :=
  let stopped := decide (block.1 ∈ stops events)
  ⟨options.assembled block.2 (deltas events block.1) stopped,
    if stopped then none else some block.1⟩

end Options

/-- The start event of a block. -/
def startEvent (position : Nat) : ContentBlock → Option AssistantMessageEvent
  | .text _ => some (.text_start position)
  | .thinking _ _ => some (.thinking_start position)
  | .redacted_thinking _ => some (.thinking_start position)
  | .tool_use _ _ _ => some (.toolcall_start position)
  | .other => none

/-- The delta event of a block. -/
def deltaEvent (position : Nat) : ContentBlock → Delta → Option AssistantMessageEvent
  | .text _, .text_delta text => some (.text_delta position text)
  | .thinking _ _, .thinking_delta thinking => some (.thinking_delta position thinking)
  | .tool_use _ _ _, .input_json_delta partial_json => some (.toolcall_delta position partial_json)
  | _, _ => none

/-- The end event of a block. -/
def endEvent (position : Nat) : Content → AssistantMessageEvent
  | .text text => .text_end position text
  | .thinking thinking _ _ => .thinking_end position thinking
  | .toolCall id name arguments partialJson =>
    .toolcall_end position (.toolCall id name arguments partialJson)

/-- What is pushed for an event, when blocks end with the given content. -/
def announce (content : ContentBlock → List Delta → Content) (events : List RawMessageStreamEvent) :
    RawMessageStreamEvent → Option AssistantMessageEvent
  | .content_block_start (some index) block =>
    (lookup events index).bind fun found => startEvent found.2 block
  | .content_block_delta (some index) delta =>
    (lookup events index).bind fun found => deltaEvent found.2 found.1.2 delta
  | .content_block_stop (some index) =>
    (lookup events index).map fun found =>
      endEvent found.2 (content found.1.2 (deltas events index))
  | _ => none

/-- What was pushed stays what the events say. -/
theorem announce_concat {content : ContentBlock → List Delta → Content}
    {events : List RawMessageStreamEvent} {event : RawMessageStreamEvent}
    (h : Orderly (events ++ [event])) :
    (events ++ [event]).filterMap (announce content (events ++ [event]))
      = events.filterMap (announce content events)
        ++ (announce content (events ++ [event]) event).toList := by
  obtain ⟨horderly, hallowed⟩ := orderly_concat h
  have hsame : ∀ e ∈ events, announce content (events ++ [event]) e =
    announce content events e := by
    intro e he
    unfold announce
    split
    · rename_i index block
      rw [lookup_concat hallowed (List.mem_map_of_mem (List.mem_filterMap.mpr ⟨_, he, rfl⟩))]
    · rename_i index delta
      have hdeltas : deltas events index ≠ [] :=
        List.ne_nil_of_mem (List.mem_filterMap.mpr ⟨_, he, if_pos rfl⟩)
      rw [lookup_concat hallowed (started_of_delta horderly hdeltas)]
    · rename_i index
      have hstop : index ∈ stops events := List.mem_filterMap.mpr ⟨_, he, rfl⟩
      rw [lookup_concat hallowed (started_of_stopped horderly hstop), deltas_concat]
      -- a stopped block has no more deltas
      have hnone : event.deltaOf index = none := by
        unfold RawMessageStreamEvent.deltaOf
        split
        · obtain ⟨i, block, hi, -, hnot, -⟩ := hallowed
          refine if_neg fun heq => hnot ?_
          rw [← Option.some.inj hi, heq]
          exact hstop
        · rfl
      rw [hnone, Option.toList_none, List.append_nil]
    · rfl
  rw [List.filterMap_append, List.filterMap_congr hsame]
  cases hevent : announce content (events ++ [event]) event <;> simp [hevent]

/-- One item of a list is changed. -/
theorem map_set {α β : Type} {items : List (JsNumber × α)} {f g : JsNumber × α → β}
    {item : JsNumber × α} {position : Nat} (hnodup : (items.map Prod.fst).Nodup)
    (hitem : items[position]? = some item)
    (hothers : ∀ other ∈ items, other.1 ≠ item.1 → f other = g other) :
    (items.map f).set position (g item) = items.map g := by
  refine List.ext_getElem? fun i => ?_
  rw [List.getElem?_set, List.length_map, List.getElem?_map, List.getElem?_map]
  by_cases hi : position = i
  · subst hi
    rw [if_pos rfl, if_pos (List.getElem?_eq_some_iff.mp hitem).1, hitem, Option.map_some]
  · rw [if_neg hi]
    cases hother : items[i]? with
    | none => rfl
    | some other =>
      refine congrArg some (hothers other (List.mem_of_getElem? hother) fun heq => hi ?_)
      have hkeys : (items.map Prod.fst)[position]? = (items.map Prod.fst)[i]? := by
        rw [List.getElem?_map, List.getElem?_map, hitem, hother, Option.map_some,
          Option.map_some, heq]
      have hlt : position < (items.map Prod.fst).length := by
        rw [List.length_map]
        exact (List.getElem?_eq_some_iff.mp hitem).1
      exact (List.getElem?_inj hlt hnodup).mp hkeys

/-! ## The loop -/

namespace Options

variable (options : Options)

/-- What the stream has after some events. -/
structure Assembled (events : List RawMessageStreamEvent) (output : Output) : Prop where
  content : output.message.content = (blocks events).map (options.blockAfter events)
  pushed : output.pushed = .start :: events.filterMap
    (announce (fun block deltas => options.assembled block deltas true) events)
  -- the reasons are those of messages that are done
  reason : output.message.stopReason ≠ .error ∧ output.message.stopReason ≠ .aborted ∧
    ((∃ reason explanation, .message_delta (some reason) explanation ∈ events) →
      output.message.stopReason ≠ .pending)

theorem assembled_initial : options.Assembled [] Output.initial :=
  ⟨rfl, rfl, nofun, nofun, nofun⟩

/-- A block that is not stopped is found at its place. -/
theorem findBlock_map {events : List RawMessageStreamEvent} {index : JsNumber}
    (h : index ∉ stops events) :
    Output.findBlock ((blocks events).map (options.blockAfter events)) (some index)
      = (lookup events index).map fun found => (options.blockAfter events found.1, found.2) := by
  have hindex : ∀ found : (JsNumber × ContentBlock) × Nat,
      decide ((options.blockAfter events found.1).index = some index)
        = decide (found.1.1 = index) := by
    intro found
    refine decide_eq_decide.mpr ?_
    by_cases hstop : found.1.1 ∈ stops events
    · rw [blockAfter, decide_eq_true hstop]
      exact ⟨nofun, fun heq => absurd (heq ▸ hstop) h⟩
    · rw [blockAfter, decide_eq_false hstop]
      exact Option.some_inj
  unfold Output.findBlock lookup
  rw [List.zipIdx_map, List.find?_map]
  refine congrArg (Option.map _) (congrFun (congrArg List.find? (funext fun found => ?_)) _)
  exact hindex found

section Step

variable {events : List RawMessageStreamEvent} {event : RawMessageStreamEvent} {output : Output}

/-- Blocks that an event is not about stay. -/
theorem blockAfter_concat {block : JsNumber × ContentBlock}
    (hdelta : event.deltaOf block.1 = none) (hstop : event.stopped ≠ some block.1) :
    options.blockAfter (events ++ [event]) block = options.blockAfter events block := by
  have hstops : (block.1 ∈ stops (events ++ [event])) = (block.1 ∈ stops events) := by
    rw [stops_concat, List.mem_append, Option.mem_toList]
    exact propext (or_iff_left hstop)
  have hdeltas : deltas (events ++ [event]) block.1 = deltas events block.1 := by
    rw [deltas_concat, hdelta, Option.toList_none, List.append_nil]
  rw [blockAfter, blockAfter, hdeltas]
  simp only [hstops]

/-- An event that is about no block of the message, and pushes nothing. -/
theorem Assembled.quiet (h : options.Assembled events output)
    (horderly : Orderly (events ++ [event]))
    (hblocks : blocks (events ++ [event]) = blocks events)
    (hsame : ∀ block ∈ blocks events,
      options.blockAfter (events ++ [event]) block = options.blockAfter events block)
    (hsilent : ∀ content, announce content (events ++ [event]) event = none)
    (hreason : ∀ reason explanation, event ≠ .message_delta (some reason) explanation) :
    options.Assembled (events ++ [event]) output := by
  refine ⟨?_, ?_, h.reason.1, h.reason.2.1, ?_⟩
  · rw [h.content, hblocks]
    exact List.map_congr_left fun block hblock => (hsame block hblock).symm
  · rw [h.pushed, announce_concat horderly, hsilent, Option.toList_none, List.append_nil]
  · rintro ⟨reason, explanation, hmem⟩
    obtain hold | hnew := List.mem_append.mp hmem
    · exact h.reason.2.2 ⟨reason, explanation, hold⟩
    · exact absurd (List.mem_singleton.mp hnew).symm (hreason reason explanation)

/-- A block is changed at its place. -/
theorem Assembled.change (h : options.Assembled events output)
    (horderly : Orderly (events ++ [event])) {index : JsNumber}
    {block : JsNumber × ContentBlock} {position : Nat}
    (hlookup : lookup events index = some (block, position))
    (hblocks : blocks (events ++ [event]) = blocks events)
    (hdelta : ∀ other, other ≠ index → event.deltaOf other = none)
    (hstop : ∀ other, other ≠ index → event.stopped ≠ some other)
    (hreason : ∀ reason explanation, event ≠ .message_delta (some reason) explanation)
    {changed : Block} {pushed : List AssistantMessageEvent}
    (hchanged : changed = options.blockAfter (events ++ [event]) block)
    (hpushed : pushed = (announce (fun block deltas => options.assembled block deltas true)
      (events ++ [event]) event).toList) :
    options.Assembled (events ++ [event]) (output.change position changed pushed) := by
  obtain ⟨hblock, rfl⟩ := lookup_spec hlookup
  refine ⟨?_, ?_, h.reason.1, h.reason.2.1, ?_⟩
  · show output.message.content.set position changed = _
    rw [h.content, hblocks, hchanged]
    refine map_set (nodup_blocks (orderly_concat horderly).1) hblock fun other _ hne => ?_
    exact (options.blockAfter_concat (hdelta other.1 hne) (hstop other.1 hne)).symm
  · show output.pushed ++ pushed = _
    rw [h.pushed, announce_concat horderly, hpushed]
    rfl
  · rintro ⟨reason, explanation, hmem⟩
    obtain hold | hnew := List.mem_append.mp hmem
    · exact h.reason.2.2 ⟨reason, explanation, hold⟩
    · exact absurd (List.mem_singleton.mp hnew).symm (hreason reason explanation)

/-- A block is added. -/
theorem Assembled.start {index : JsNumber} {block : ContentBlock}
    (h : options.Assembled events output)
    (horderly : Orderly (events ++ [.content_block_start (some index) block]))
    (hknown : block.isKnown = true) {content : Content} {started : Nat → AssistantMessageEvent}
    (hcontent : content = options.assembled block [] false)
    (hstarted : ∀ position, startEvent position block = some (started position)) :
    options.Assembled (events ++ [.content_block_start (some index) block])
      (output.start content (some index) started) := by
  obtain ⟨horderly', i, hi, hfresh⟩ := orderly_concat horderly
  obtain rfl := Option.some.inj hi
  have hblocks : blocks (events ++ [.content_block_start (some index) block])
      = blocks events ++ [(index, block)] := by
    rw [blocks_concat]
    simp [RawMessageStreamEvent.started, hknown]
  have hdeltas : deltas (events ++ [.content_block_start (some index) block]) index = [] := by
    rw [deltas_concat]
    by_contra hne
    exact hfresh (started_of_delta horderly' (by simpa [RawMessageStreamEvent.deltaOf] using hne))
  have hstops : index ∉ stops (events ++ [.content_block_start (some index) block]) := by
    rw [stops_concat]
    intro hmem
    exact hfresh (started_of_stopped horderly'
      (by simpa [RawMessageStreamEvent.stopped] using hmem))
  refine ⟨?_, ?_, h.reason.1, h.reason.2.1, ?_⟩
  · show output.message.content ++ [⟨content, some index⟩] = _
    rw [h.content, hblocks, List.map_append, List.map_singleton]
    refine congrArg₂ (· ++ ·) ?_ ?_
    · exact List.map_congr_left fun other _ =>
        (options.blockAfter_concat rfl (by simp [RawMessageStreamEvent.stopped])).symm
    · rw [blockAfter, hdeltas, decide_eq_false hstops, hcontent]
      rfl
  · show output.pushed ++ [started output.message.content.length] = _
    rw [h.pushed, announce_concat horderly, h.content, List.length_map]
    have hannounced : ∀ final, announce final
        (events ++ [.content_block_start (some index) block])
        (.content_block_start (some index) block) = some (started (blocks events).length) := by
      intro final
      show (lookup _ index).bind _ = _
      rw [lookup_started hfresh hknown]
      exact hstarted _
    rw [hannounced]
    rfl
  · rintro ⟨reason, explanation, hmem⟩
    obtain hold | hnew := List.mem_append.mp hmem
    · exact h.reason.2.2 ⟨reason, explanation, hold⟩
    · cases List.mem_singleton.mp hnew

end Step

/-- A delta of the kind of its block goes to the block, with its event. -/
theorem deltaBlock_assembled {block : ContentBlock} {deltas : List Delta} {delta : Delta}
    (hknown : block.isKnown = true) (hsuits : block.suits delta = true) (position : Nat) :
    match options.deltaBlock position (options.assembled block deltas false) delta with
    | some (content, pushed) => content = options.assembled block (deltas ++ [delta]) false ∧
        pushed = (deltaEvent position block delta).toList
    | none => options.assembled block (deltas ++ [delta]) false
          = options.assembled block deltas false ∧
        deltaEvent position block delta = none := by
  have happended : ∀ block : ContentBlock, block.appended (deltas ++ [delta])
      = block.appended deltas ++ (block.shown delta).getD [] := by
    intro block
    rw [ContentBlock.appended, List.filterMap_append, List.flatten_append]
    cases hshown : block.shown delta <;> simp [ContentBlock.appended, hshown]
  have hsignatures : signatures (deltas ++ [delta])
      = signatures deltas ++ (delta.signature?).getD [] := by
    rw [signatures, List.filterMap_append, List.flatten_append]
    cases hshown : delta.signature? <;> simp [signatures, hshown]
  cases block with
  | text text =>
    cases delta with
    | text_delta delta =>
      refine ⟨?_, rfl⟩
      simp [assembled, happended, ContentBlock.shown]
    | other => simp [deltaBlock, assembled, happended, ContentBlock.shown, deltaEvent]
    | _ => cases hsuits
  | thinking thinking signature =>
    cases delta with
    | thinking_delta delta =>
      refine ⟨?_, rfl⟩
      simp [assembled, happended, hsignatures, ContentBlock.shown, Delta.signature?]
    | signature_delta delta =>
      refine ⟨?_, rfl⟩
      simp [assembled, happended, hsignatures, ContentBlock.shown, Delta.signature?]
    | other =>
      simp [deltaBlock, assembled, happended, hsignatures, ContentBlock.shown, Delta.signature?,
        deltaEvent]
    | _ => cases hsuits
  | redacted_thinking data =>
    cases delta with
    | other => exact ⟨rfl, rfl⟩
    | _ => cases hsuits
  | tool_use id name input =>
    cases delta with
    | input_json_delta delta =>
      refine ⟨?_, rfl⟩
      have hsome : ¬ (deltas ++ [Delta.input_json_delta delta]).filterMap
          (ContentBlock.tool_use id name input).shown = [] := by
        rw [List.filterMap_append]
        exact List.append_ne_nil_of_right_ne_nil _ (List.cons_ne_nil delta [])
      simp only [assembled, hsome, and_false, if_false, happended, Bool.false_eq_true]
      rfl
    | other =>
      simp [deltaBlock, assembled, happended, ContentBlock.shown, deltaEvent,
        List.filterMap_append]
    | _ => cases hsuits
  | other => cases hknown

/-- A stopped block is finished, with its event. -/
theorem stopBlock_assembled {block : ContentBlock} {deltas : List Delta}
    (hknown : block.isKnown = true) (position : Nat) :
    options.stopBlock position (options.assembled block deltas false)
      = (options.assembled block deltas true,
        endEvent position (options.assembled block deltas true))
        := by
  cases block with
  | other => cases hknown
  | _ => rfl

/-- A known block is not stopped: what the stream has of it. -/
theorem content_blockAfter {events : List RawMessageStreamEvent}
    {block : JsNumber × ContentBlock} (hstop : block.1 ∉ stops events) :
    options.blockAfter events block
      = ⟨options.assembled block.2 (deltas events block.1) false, some block.1⟩ := by
  rw [blockAfter, decide_eq_false hstop]
  rfl

/-- The block that is found is the one that was started. -/
theorem found_block {events : List RawMessageStreamEvent} (h : Orderly events) {index : JsNumber}
    {block : ContentBlock} (hstarted : (index, block) ∈ starts events)
    {found : JsNumber × ContentBlock} {position : Nat}
    (hlookup : lookup events index = some (found, position)) :
    found = (index, block) ∧ block.isKnown = true := by
  obtain ⟨hfound, hindex⟩ := lookup_spec hlookup
  obtain ⟨hmem, hknown⟩ := List.mem_filter.mp (List.mem_of_getElem? hfound)
  have hsame : found = (index, block) :=
    List.inj_on_of_nodup_map (nodup_starts h) hmem hstarted hindex
  rw [hsame] at hknown
  exact ⟨hsame, hknown⟩

section Events

variable {events : List RawMessageStreamEvent} {output : Output}

theorem Assembled.startBlock (h : options.Assembled events output) {index : Option JsNumber}
    {block : ContentBlock} (horderly : Orderly (events ++ [.content_block_start index block])) :
    options.Assembled (events ++ [.content_block_start index block])
      (options.startBlock output index block) := by
  obtain ⟨i, rfl, hfresh⟩ := (orderly_concat horderly).2
  cases block with
  | text text =>
    exact h.start options horderly rfl (by simp [assembled, ContentBlock.appended]) fun _ => rfl
  | thinking thinking signature =>
    exact h.start options horderly rfl (by simp [assembled, ContentBlock.appended, signatures])
      fun _ => rfl
  | redacted_thinking data => exact h.start options horderly rfl rfl fun _ => rfl
  | tool_use id name input =>
    exact h.start options horderly rfl (by simp [assembled, ContentBlock.appended]) fun _ => rfl
  | other =>
    refine h.quiet options horderly ?_ (fun block _ => ?_) (fun content => ?_) (by simp)
    · rw [blocks_concat]
      simp [RawMessageStreamEvent.started, ContentBlock.isKnown]
    · exact options.blockAfter_concat rfl (by simp [RawMessageStreamEvent.stopped])
    · show (lookup _ i).bind _ = none
      cases lookup (events ++ [.content_block_start (some i) .other]) i <;> rfl

theorem Assembled.delta (h : options.Assembled events output) {index : Option JsNumber}
    {delta : Delta} (horderly : Orderly (events ++ [.content_block_delta index delta])) :
    ∃ output', options.handleEvent output (.content_block_delta index delta) = .ok output' ∧
      options.Assembled (events ++ [.content_block_delta index delta]) output' := by
  obtain ⟨hbefore, i, block, rfl, hstarted, hstop, hsuits⟩ := orderly_concat horderly
  have hblocks : blocks (events ++ [.content_block_delta (some i) delta]) = blocks events := by
    rw [blocks_concat]
    exact List.append_nil _
  have hplace := lookup_concat (orderly_concat horderly).2 (List.mem_map_of_mem hstarted)
  have hothers : ∀ other, other ≠ i →
      (RawMessageStreamEvent.content_block_delta (some i) delta).deltaOf other = none :=
    fun other hne => if_neg fun heq => hne heq.symm
  refine ⟨_, rfl, ?_⟩
  rw [h.content, options.findBlock_map hstop]
  cases hlookup : lookup events i with
  | none =>
    -- a block that is not part of the message
    refine h.quiet options horderly hblocks (fun other hother => ?_) (fun content => ?_) (by simp)
    · exact options.blockAfter_concat (hothers _ (lookup_eq_none.mp hlookup other hother))
        (by simp [RawMessageStreamEvent.stopped])
    · show (lookup _ i).bind _ = none
      rw [hplace, hlookup]
      rfl
  | some found =>
    obtain ⟨found, position⟩ := found
    obtain ⟨rfl, hknown⟩ := found_block hbefore hstarted hlookup
    have hafter : options.blockAfter (events ++ [.content_block_delta (some i) delta]) (i, block)
        = ⟨options.assembled block (deltas events i ++ [delta]) false, some i⟩ := by
      have hstop' : i ∉ stops (events ++ [.content_block_delta (some i) delta]) := by
        rw [stops_concat]
        simpa [RawMessageStreamEvent.stopped] using hstop
      rw [options.content_blockAfter hstop', deltas_concat,
        RawMessageStreamEvent.deltaOf, if_pos rfl]
      rfl
    have hannounced : ∀ content, announce content
        (events ++ [.content_block_delta (some i) delta]) (.content_block_delta (some i) delta)
        = deltaEvent position block delta := by
      intro content
      show (lookup _ i).bind _ = _
      rw [hplace, hlookup]
      rfl
    have hdelta := @deltaBlock_assembled options block (deltas events i) delta hknown
      hsuits position
    rw [Option.map_some, options.content_blockAfter hstop]
    dsimp only
    cases hchanged : options.deltaBlock position
        (options.assembled block (deltas events i) false) delta with
    | none =>
      rw [hchanged] at hdelta
      refine h.quiet options horderly hblocks (fun other hother => ?_) (fun content => ?_) (by simp)
      · by_cases hother' : other.1 = i
        · have hsame : other = (i, block) := List.inj_on_of_nodup_map (nodup_starts hbefore)
            (List.mem_of_mem_filter hother) hstarted hother'
          rw [hsame, hafter, hdelta.1, options.content_blockAfter hstop]
        · exact options.blockAfter_concat (hothers _ hother')
            (by simp [RawMessageStreamEvent.stopped])
      · rw [hannounced, hdelta.2]
    | some changed =>
      rw [hchanged] at hdelta
      refine h.change options horderly hlookup hblocks hothers
        (by simp [RawMessageStreamEvent.stopped]) (by simp) ?_ ?_
      · rw [hafter, hdelta.1]
      · rw [hannounced, hdelta.2]

theorem Assembled.stop (h : options.Assembled events output) {index : Option JsNumber}
    (horderly : Orderly (events ++ [.content_block_stop index])) :
    ∃ output', options.handleEvent output (.content_block_stop index) = .ok output' ∧
      options.Assembled (events ++ [.content_block_stop index]) output' := by
  obtain ⟨hbefore, i, block, rfl, hstarted, hstop⟩ := orderly_concat horderly
  have hblocks : blocks (events ++ [.content_block_stop (some i)]) = blocks events := by
    rw [blocks_concat]
    exact List.append_nil _
  have hplace := lookup_concat (orderly_concat horderly).2 (List.mem_map_of_mem hstarted)
  have hothers : ∀ other, other ≠ i →
      (RawMessageStreamEvent.content_block_stop (some i)).stopped ≠ some other :=
    fun other hne heq => hne (Option.some.inj heq).symm
  have hdeltas : ∀ other, deltas (events ++ [.content_block_stop (some i)]) other
      = deltas events other := by
    intro other
    rw [deltas_concat]
    exact List.append_nil _
  refine ⟨_, rfl, ?_⟩
  rw [h.content, options.findBlock_map hstop]
  cases hlookup : lookup events i with
  | none =>
    refine h.quiet options horderly hblocks (fun other hother => ?_) (fun content => ?_) (by simp)
    · exact options.blockAfter_concat rfl (hothers _ (lookup_eq_none.mp hlookup other hother))
    · show (lookup _ i).map _ = none
      rw [hplace, hlookup]
      rfl
  | some found =>
    obtain ⟨found, position⟩ := found
    obtain ⟨rfl, hknown⟩ := found_block hbefore hstarted hlookup
    rw [Option.map_some, options.content_blockAfter hstop]
    dsimp only
    rw [options.stopBlock_assembled hknown]
    refine h.change options horderly hlookup hblocks (fun _ _ => rfl) hothers (by simp) ?_ ?_
    · have hstopped : i ∈ stops (events ++ [.content_block_stop (some i)]) := by
        rw [stops_concat]
        exact List.mem_append_right _ (List.mem_singleton.mpr rfl)
      rw [blockAfter, decide_eq_true hstopped, hdeltas]
      rfl
    · have hannounced : ∀ content, announce content (events ++ [.content_block_stop (some i)])
          (.content_block_stop (some i))
          = some (endEvent position (content block (deltas events i))) := by
        intro content
        show (lookup _ i).map _ = _
        rw [hplace, hlookup, Option.map_some, hdeltas]
      rw [hannounced]
      rfl

theorem mapStopReason_known {reason : JsString} (h : reason ∈ stopReasons)
    (explanation : Option JsString) :
    ∃ stopReason, mapStopReason reason explanation = .ok (stopReason, none) ∧
      stopReason ≠ .error ∧ stopReason ≠ .aborted ∧ stopReason ≠ .pending := by
  simp only [stopReasons, List.mem_cons, List.not_mem_nil, or_false] at h
  obtain rfl | rfl | rfl | rfl | rfl := h <;> simp [mapStopReason]

/-- Events that are about no block. -/
theorem Assembled.aside (h : options.Assembled events output) {event : RawMessageStreamEvent}
    (horderly : Orderly (events ++ [event])) (hstarted : event.started = none)
    (hdelta : ∀ index, event.deltaOf index = none) (hstop : event.stopped = none)
    (hsilent : ∀ content, announce content (events ++ [event]) event = none)
    (hreason : ∀ reason explanation, event ≠ .message_delta (some reason) explanation) :
    options.Assembled (events ++ [event]) output := by
  refine h.quiet options horderly ?_ (fun block _ => ?_) hsilent hreason
  · rw [blocks_concat, hstarted]
    exact List.append_nil _
  · exact options.blockAfter_concat (hdelta _) (by simp [hstop])

theorem Assembled.messageDelta (h : options.Assembled events output)
    {stop_reason explanation : Option JsString}
    (horderly : Orderly (events ++ [.message_delta stop_reason explanation])) :
    ∃ output', options.handleEvent output (.message_delta stop_reason explanation) = .ok output' ∧
      options.Assembled (events ++ [.message_delta stop_reason explanation]) output' := by
  have hallowed := (orderly_concat horderly).2
  cases stop_reason with
  | none =>
    exact ⟨output, rfl, h.aside options horderly rfl (fun _ => rfl) rfl (fun _ => rfl) (by simp)⟩
  | some reason =>
    have hknown : reason ∈ stopReasons := hallowed reason rfl
    obtain ⟨stopReason, hmap, herror, haborted, hpending⟩ := mapStopReason_known hknown explanation
    have hsome : ∀ reason ∈ stopReasons, reason ≠ [] := by decide
    cases reason with
    | nil => exact absurd rfl (hsome [] hknown)
    | cons unit units =>
      refine ⟨{ output with message := { output.message with
        rawStopReason := some (unit :: units)
        stopReason
        errorMessage := output.message.errorMessage } }, ?_, ?_, ?_, herror, haborted,
        fun _ => hpending⟩
      · rw [handleEvent, hmap]
        rfl
      · show output.message.content = _
        rw [h.content, blocks_concat]
        refine Eq.trans (List.map_congr_left fun block _ => ?_)
          (congrArg _ (List.append_nil _).symm)
        exact (options.blockAfter_concat rfl (by simp [RawMessageStreamEvent.stopped])).symm
      · show output.pushed = _
        rw [h.pushed, announce_concat horderly]
        exact (congrArg _ (List.append_nil _)).symm

/-- One event more. -/
theorem Assembled.step (h : options.Assembled events output) {event : RawMessageStreamEvent}
    (horderly : Orderly (events ++ [event])) :
    ∃ output', options.handleEvent output event = .ok output' ∧
      options.Assembled (events ++ [event]) output' := by
  cases event with
  | content_block_start index block => exact ⟨_, rfl, h.startBlock options horderly⟩
  | content_block_delta index delta => exact h.delta options horderly
  | content_block_stop index => exact h.stop options horderly
  | message_delta stop_reason explanation => exact h.messageDelta options horderly
  | message_start id =>
    have haside := h.aside options horderly rfl (fun _ => rfl) rfl (fun _ => rfl) (by simp)
    exact ⟨_, rfl, haside.content, haside.pushed, haside.reason⟩
  | message_stop =>
    exact ⟨_, rfl, h.aside options horderly rfl (fun _ => rfl) rfl (fun _ => rfl) (by simp)⟩
  | other =>
    exact ⟨_, rfl, h.aside options horderly rfl (fun _ => rfl) rfl (fun _ => rfl) (by simp)⟩

end Events

/-- What the stream has after all events of the loop. -/
theorem assembled_run {events : List RawMessageStreamEvent} (h : Orderly events) :
    ∃ output, events.foldlM options.handleEvent Output.initial = .ok output ∧
      options.Assembled events output := by
  induction events using List.reverseRecOn with
  | nil => exact ⟨_, rfl, options.assembled_initial⟩
  | append_singleton events event ih =>
    obtain ⟨output, hrun, hassembled⟩ := ih (orderly_concat h).1
    obtain ⟨output', hstep, hassembled'⟩ := hassembled.step options h
    refine ⟨output', ?_, hassembled'⟩
    rw [List.foldlM_append, hrun]
    show List.foldlM options.handleEvent output [event] = _
    rw [List.foldlM_cons, hstep]
    rfl

/-! ## Reading the messages -/

end Options

/-- The events of a server-sent event, as `iterateAnthropicEvents` yields them. -/
def readMessage (sse : ServerSentEvent) : Option (List RawMessageStreamEvent) :=
  if sse.event = some (js "error") then none
  else if sse.event.getD [] ∉ anthropicMessageEvents then some []
  else (parseJsonWithRepair sse.data).map fun value => [readEvent value]

/-- The events of a response; `none` if one cannot be read. -/
def readMessages (messages : List ServerSentEvent) : Option (List RawMessageStreamEvent) :=
  (messages.mapM readMessage).map List.flatten

namespace Options

variable (options : Options)

/-- A message is handled as its events are. -/
theorem handleMessage_eq {sse : ServerSentEvent} {events : List RawMessageStreamEvent}
    {reading : Reading} {output : Output} (hread : readMessage sse = some events)
    (hrun : events.foldlM options.handleEvent reading.output = .ok output) :
    ∃ sawMessageStart, options.handleMessage reading sse = .ok ⟨output, sawMessageStart,
      reading.sawMessageEnd || events.any RawMessageStreamEvent.isMessageStop⟩ := by
  unfold readMessage at hread
  unfold handleMessage
  split at hread
  · cases hread
  · rename_i herror
    rw [if_neg herror]
    split at hread
    · rename_i hignored
      rw [if_pos hignored]
      obtain rfl := Option.some.inj hread
      obtain rfl := Except.ok.inj hrun
      exact ⟨reading.sawMessageStart, by simp⟩
    · rename_i hevent
      rw [if_neg hevent]
      obtain ⟨value, hvalue, rfl⟩ := Option.map_eq_some_iff.mp hread
      rw [hvalue]
      dsimp only
      cases hstep : options.handleEvent reading.output (readEvent value) with
      | error error =>
        rw [List.foldlM_cons, hstep] at hrun
        cases hrun
      | ok next =>
        rw [List.foldlM_cons, hstep] at hrun
        obtain rfl : next = output := Except.ok.inj hrun
        exact ⟨_, by rw [List.any_cons, List.any_nil, Bool.or_false]⟩

/-- The loop over the messages is the loop over their events. -/
theorem handleMessages {messages : List ServerSentEvent} :
    ∀ {events : List RawMessageStreamEvent} {reading : Reading} {output : Output},
      readMessages messages = some events →
      events.foldlM options.handleEvent reading.output = .ok output →
      ∃ sawMessageStart, messages.foldlM options.handleMessage reading = .ok
        ⟨output, sawMessageStart,
          reading.sawMessageEnd || events.any RawMessageStreamEvent.isMessageStop⟩ := by
  induction messages with
  | nil =>
    intro events reading output hread hrun
    obtain rfl : [] = events := Option.some.inj hread
    obtain rfl := Except.ok.inj hrun
    refine ⟨reading.sawMessageStart, ?_⟩
    rw [List.any_nil, Bool.or_false]
    rfl
  | cons sse messages ih =>
    intro events reading output hread hrun
    rw [readMessages, List.mapM_cons, Option.map_eq_some_iff] at hread
    obtain ⟨parts, hparts, rfl⟩ := hread
    obtain ⟨first, hfirst, hparts⟩ := Option.bind_eq_some_iff.mp hparts
    obtain ⟨rest, hrest, hparts⟩ := Option.bind_eq_some_iff.mp hparts
    obtain rfl := Option.some.inj hparts
    have hread : readMessages messages = some rest.flatten := by
      rw [readMessages, hrest]
      rfl
    rw [List.flatten_cons, List.foldlM_append] at hrun
    cases hmiddle : first.foldlM options.handleEvent reading.output with
    | error error =>
      rw [hmiddle] at hrun
      cases hrun
    | ok middle =>
      rw [hmiddle] at hrun
      obtain ⟨sawMessageStart, hmessage⟩ := options.handleMessage_eq hfirst hmiddle
      rw [List.foldlM_cons, hmessage, List.flatten_cons, List.any_append, ← Bool.or_assoc]
      exact @ih rest.flatten ⟨middle, _, _⟩ output hread hrun

/-- What is pushed for a whole message. -/
theorem stream_of_wellFormed {messages : List ServerSentEvent}
    {events : List RawMessageStreamEvent} (hread : readMessages messages = some events)
    (h : WellFormed events) :
    ∃ output, options.Assembled events output ∧
      options.stream messages = output.pushed ++
        [.done output.message.stopReason output.message] := by
  obtain ⟨output, hrun, hassembled⟩ := options.assembled_run h.orderly
  obtain ⟨sawMessageStart, hmessages⟩ :=
    @handleMessages options messages events ⟨.initial, false, false⟩ output hread hrun
  have hstop : events.any RawMessageStreamEvent.isMessageStop = true :=
    List.any_eq_true.mpr ⟨.message_stop, List.mem_of_getLast? h.final, rfl⟩
  refine ⟨output, hassembled, ?_⟩
  obtain ⟨herror, haborted, hpending⟩ := hassembled.reason
  have hpending := hpending h.reason
  unfold stream
  rw [hmessages]
  dsimp only
  rw [hstop, Bool.or_true, Bool.not_true, Bool.and_false, if_neg Bool.false_ne_true]
  cases hreason : output.message.stopReason with
  | pending => exact absurd hreason hpending
  | aborted => exact absurd hreason haborted
  | error => exact absurd hreason herror
  | _ => rfl

/-! ## Faithful streams -/

/-- A block as the events say it: a tool call without deltas has the input of its start. -/
def said (block : ContentBlock) (deltas : List Delta) : Content :=
  match block with
  | .tool_use id name input =>
    .toolCall id (options.toolName name)
      (if deltas.filterMap block.shown = [] then input.getD .empty
        else options.parse (block.appended deltas)) none
  | _ => options.assembled block deltas true

end Options

/-- The delta of an event for a place. -/
def deltaAt (position : Nat) : AssistantMessageEvent → Option JsString
  | .text_delta contentIndex delta => if contentIndex = position then some delta else none
  | .thinking_delta contentIndex delta => if contentIndex = position then some delta else none
  | .toolcall_delta contentIndex delta => if contentIndex = position then some delta else none
  | _ => none

/-- The message is what the events say, and what is pushed names the places of its blocks. -/
structure Faithful (options : Options) (events : List RawMessageStreamEvent)
    (pushed : List AssistantMessageEvent) : Prop where
  message : ∃ reason message,
    pushed = .start :: events.filterMap (announce options.said events) ++ [.done reason message] ∧
      message.content = (blocks events).map fun b => ⟨options.said b.2 (deltas events b.1), none⟩
  deltas : ∀ position index block, (blocks events)[position]? = some (index, block) →
    pushed.filterMap (deltaAt position) = (deltas events index).filterMap block.shown

/-- Tool calls that have no deltas have no input. -/
def Spoken (events : List RawMessageStreamEvent) : Prop :=
  ∀ index id name input, (index, .tool_use id name input) ∈ starts events →
    (deltas events index).filterMap (ContentBlock.tool_use id name input).shown = [] →
      input.getD .empty = .empty

/-- The deltas that are pushed for a place are those of its block. -/
theorem deltaAt_announce {events : List RawMessageStreamEvent} (h : Orderly events)
    (content : ContentBlock → List Delta → Content) {position : Nat} {index : JsNumber}
    {block : ContentBlock} (hblock : (blocks events)[position]? = some (index, block)) :
    (events.filterMap (announce content events)).filterMap (deltaAt position)
      = (deltas events index).filterMap block.shown := by
  have hlookup := lookup_of_getElem h hblock
  unfold deltas
  rw [List.filterMap_filterMap, List.filterMap_filterMap]
  refine List.filterMap_congr fun event hevent => ?_
  cases event with
  | content_block_delta i delta =>
    cases i with
    | none => rfl
    | some i =>
      show ((lookup events i).bind _).bind _ = (if i = index then some delta else none).bind _
      by_cases hi : i = index
      · subst hi
        rw [hlookup, if_pos rfl]
        cases block <;> cases delta <;> simp [deltaEvent, ContentBlock.shown, deltaAt]
      · rw [if_neg hi]
        cases hother : lookup events i with
        | none => rfl
        | some found =>
          obtain ⟨⟨j, found⟩, place⟩ := found
          have hplace : place ≠ position := by
            rintro rfl
            obtain ⟨hfound, rfl⟩ := lookup_spec hother
            rw [hblock] at hfound
            exact hi (congrArg Prod.fst (Option.some.inj hfound)).symm
          cases found <;> cases delta <;> simp [deltaEvent, deltaAt, hplace]
  | content_block_start i started =>
    cases i with
    | none => rfl
    | some i =>
      show ((lookup events i).bind _).bind _ = none
      cases lookup events i with
      | none => rfl
      | some found => cases started <;> rfl
  | content_block_stop i =>
    cases i with
    | none => rfl
    | some i =>
      show ((lookup events i).map _).bind _ = none
      cases lookup events i with
      | none => rfl
      | some found =>
        rw [Option.map_some, Option.bind_some]
        cases content found.1.2 (PiMono.Ai.AnthropicStream.deltas events i) <;> rfl
  | _ => rfl

/-- What is pushed depends on the content of the blocks of the message only. -/
theorem announce_congr {events : List RawMessageStreamEvent}
    {content content' : ContentBlock → List Delta → Content}
    (h : ∀ b ∈ blocks events, content b.2 (deltas events b.1) = content' b.2 (deltas events b.1)) :
    announce content events = announce content' events := by
  funext event
  unfold announce
  split
  · rfl
  · rfl
  · rename_i index
    cases hlookup : lookup events index with
    | none => rfl
    | some found =>
      obtain ⟨hfound, rfl⟩ := lookup_spec hlookup
      rw [Option.map_some, Option.map_some, h found.1 (List.mem_of_getElem? hfound)]
  · rfl

section Faithful

variable (options : Options) {messages : List ServerSentEvent}
  {events : List RawMessageStreamEvent}

/-- A silent tool call parses nothing when it stops. -/
theorem parse_silent {block : ContentBlock} {deltas : List Delta}
    (h : deltas.filterMap block.shown = []) : options.parse (block.appended deltas) = .empty := by
  rw [ContentBlock.appended, h]
  rfl

/-- The message has all blocks, finished. -/
theorem content_of_wellFormed (h : WellFormed events) {output : Options.Output}
    (hassembled : options.Assembled events output) :
    output.message.content = (blocks events).map fun b =>
      ⟨options.assembled b.2 (deltas events b.1) true, none⟩ := by
  rw [hassembled.content]
  refine List.map_congr_left fun b hb => ?_
  rw [Options.blockAfter, decide_eq_true (h.stopped b (List.mem_of_mem_filter hb))]
  rfl

theorem spoken_of_faithful (hread : readMessages messages = some events) (h : WellFormed events)
    (hfaithful : Faithful options events (options.stream messages)) : Spoken events := by
  obtain ⟨output, hassembled, hstream⟩ := options.stream_of_wellFormed hread h
  intro index id name input hstarted hsilent
  obtain ⟨reason, message, hpushed, hsaid⟩ := hfaithful.message
  rw [hstream] at hpushed
  obtain ⟨-, hdone⟩ := List.append_inj' hpushed rfl
  have hmessage : output.message = message := by
    injection hdone with hevent
    injection hevent
  rw [← hmessage, content_of_wellFormed options h hassembled] at hsaid
  have hblock : (index, ContentBlock.tool_use id name input) ∈ blocks events :=
    List.mem_filter.mpr ⟨hstarted, rfl⟩
  have hsame := List.map_inj_left.mp hsaid _ hblock
  simp only [Options.assembled, Options.said, hsilent, parse_silent options hsilent, if_true,
    Block.mk.injEq, Content.toolCall.injEq] at hsame
  exact Eq.symm (by simpa using hsame)

theorem faithful_of_spoken (hread : readMessages messages = some events) (h : WellFormed events)
    (hspoken : Spoken events) : Faithful options events (options.stream messages) := by
  obtain ⟨output, hassembled, hstream⟩ := options.stream_of_wellFormed hread h
  have hsaid : ∀ b ∈ blocks events, options.assembled b.2 (deltas events b.1) true
      = options.said b.2 (deltas events b.1) := by
    rintro ⟨index, block⟩ hb
    cases block with
    | tool_use id name input =>
      by_cases hsilent : (deltas events index).filterMap
          (ContentBlock.tool_use id name input).shown = []
      · have hinput := hspoken index id name input (List.mem_of_mem_filter hb) hsilent
        simp [Options.assembled, Options.said, hsilent, parse_silent options hsilent, hinput]
      · simp [Options.assembled, Options.said, hsilent]
    | _ => rfl
  refine ⟨⟨output.message.stopReason, output.message, ?_, ?_⟩, ?_⟩
  · rw [hstream, hassembled.pushed, announce_congr hsaid]
  · rw [content_of_wellFormed options h hassembled]
    exact List.map_congr_left fun b hb => by rw [hsaid b hb]
  · intro position index block hblock
    rw [hstream, hassembled.pushed, List.filterMap_append, List.filterMap_cons,
      deltaAt_announce h.orderly _ hblock]
    exact List.append_nil _

/-- The stream is faithful if and only if tool calls that have no deltas have no input. -/
theorem faithful_iff_spoken (hread : readMessages messages = some events) (h : WellFormed events) :
    Faithful options events (options.stream messages) ↔ Spoken events :=
  ⟨spoken_of_faithful options hread h, faithful_of_spoken options hread h⟩

end Faithful

/-! ### A tool call whose input comes with its start -/

theorem orderly_append {events : List RawMessageStreamEvent} {event : RawMessageStreamEvent}
    (h : Orderly events) (hallowed : Allowed events event) : Orderly (events ++ [event]) := by
  intro before e behind heq
  obtain rfl | ⟨behind, last, rfl⟩ := List.eq_nil_or_concat behind
  · obtain ⟨rfl, hevent⟩ := List.append_inj' heq rfl
    exact List.head_eq_of_cons_eq hevent ▸ hallowed
  · have hsplit : events ++ [event] = (before ++ e :: behind) ++ [last] := by
      rw [heq, List.append_assoc, List.concat_eq_append, List.cons_append]
    exact h before e behind (List.append_inj' hsplit rfl).1

/-- The input of the call. -/
def toolInput : JsValue := .object [(js "a", .str (js "b"))]

/-- A server-sent event for an object. -/
def message (type : String) (fields : List (JsString × JsValue)) : ServerSentEvent :=
  ⟨some (js type), (JsValue.object ((js "type", .str (js type)) :: fields)).stringify, []⟩

def toolMessages (input : JsValue) : List ServerSentEvent :=
  [message "content_block_start" [(js "index", .nat 0), (js "content_block", .object
      [(js "type", .str (js "tool_use")), (js "id", .str (js "i")), (js "name", .str (js "n")),
        (js "input", input)])],
    message "content_block_stop" [(js "index", .nat 0)],
    message "message_delta" [(js "delta", .object [(js "stop_reason", .str (js "tool_use"))])],
    message "message_stop" []]

def toolEvents (input : JsValue) : List RawMessageStreamEvent :=
  [.content_block_start (some (.ofNat 0)) (.tool_use (js "i") (js "n") (some input)),
    .content_block_stop (some (.ofNat 0)), .message_delta (some (js "tool_use")) none,
    .message_stop]

theorem wellFormed_tool (input : JsValue) : WellFormed (toolEvents input) := by
  refine ⟨?_, ?_, ⟨js "tool_use", none, by simp [toolEvents]⟩, rfl⟩
  · refine @orderly_append [_, _, _] _ (@orderly_append [_, _] _ (@orderly_append [_] _
      (@orderly_append [] _ orderly_nil ⟨_, rfl, by simp [starts]⟩) ?_) ?_) trivial
    · exact ⟨_, _, rfl, List.mem_cons_self .., by simp [stops, RawMessageStreamEvent.stopped]⟩
    · intro reason hreason
      rw [← Option.some.inj hreason]
      simp [stopReasons]
  · intro block hblock
    rw [List.mem_singleton.mp hblock]
    exact List.mem_cons_self ..

/-- A provider without tools, for a parser that gives nothing. -/
def plainOptions : Options := ⟨fun _ => none, id, id, false, []⟩

/-- A call without arguments. -/
theorem faithful_iff_spoken_tool :
    Faithful plainOptions (toolEvents .empty) (plainOptions.stream (toolMessages .empty)) := by
  have hread : readMessages (toolMessages .empty) = some (toolEvents .empty) := by decide
  refine (faithful_iff_spoken plainOptions hread (wellFormed_tool .empty)).mpr ?_
  intro index id name input hstart _
  obtain ⟨⟩ := List.mem_singleton.mp hstart
  rfl

/-- The input of the start is lost. -/
theorem input_lost : readMessages (toolMessages toolInput) = some (toolEvents toolInput) ∧
    WellFormed (toolEvents toolInput) ∧
    ¬ Faithful plainOptions (toolEvents toolInput)
      (plainOptions.stream (toolMessages toolInput)) := by
  have hread : readMessages (toolMessages toolInput) = some (toolEvents toolInput) := by decide
  have hformed := wellFormed_tool toolInput
  refine ⟨hread, hformed, fun hfaithful => ?_⟩
  have hspoken := spoken_of_faithful plainOptions hread hformed hfaithful
  have hempty : toolInput = .empty :=
    hspoken (.ofNat 0) (js "i") (js "n") (some toolInput) (List.mem_cons_self ..) rfl
  exact absurd hempty (by decide)

end PiMono.Ai.AnthropicStream
