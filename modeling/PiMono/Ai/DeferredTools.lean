import PiMono.Ai.ToolPairing
import Mathlib.Algebra.Order.Ring.Nat

/-!
# Tools that a transcript adds

`packages/ai/src/utils/deferred-tools.ts` and what the requests make of it: the parameters and the
messages of `anthropic-messages.ts`, `openai-responses.ts` with `openai-responses-shared.ts`, and
`openai-completions.ts` (Kimi), with what is in them of tools. A tool that a result adds is declared
where the messages add it, the others with the request. Kimi's conversion declares a tool again
behind every group of results that adds it, and looks at no calls (`declares_iff`).
-/

namespace PiMono.Ai.DeferredTools

/-! ## Transcripts -/

/-- `Tool`; what is not its name is of any kind. -/
structure Tool (ρ : Type) where
  name : JsString
  definition : ρ
  deriving DecidableEq

/-- A message, with the `addedToolNames` of a result. -/
structure Listed (α : Type) where
  message : Message α
  addedToolNames : List JsString
  deriving DecidableEq

/-- What a message has of tools. -/
inductive Event where
  | calls (names : List JsString)
  | added (names : List JsString)
  | said
  deriving DecidableEq

variable {α ρ : Type}

namespace Listed

def event (normalizeName : JsString → JsString) (m : Listed α) : Event :=
  match m.message with
  | .user _ => .said
  | .assistant a => .calls (a.toolCalls.map fun call => normalizeName call.name)
  | .toolResult _ => .added (m.addedToolNames.map normalizeName)

/-- A message that is not replayed. -/
def failed (m : Listed α) : Bool :=
  match m.message with
  | .assistant a => a.failed
  | _ => false

/-- An assistant message has its content. -/
def Given (m : Listed α) : Prop :=
  ∀ a, m.message = .assistant a → a.content.isSome

end Listed

section Replay

variable (target : Target α)

/-- The second pass of `transformMessages`; the results that it inserts add no tools. -/
def insertListed (pendingToolCalls : List (ToolCall α)) (existingToolResultIds : List JsString) :
    List (Listed α) → List (Listed α)
  | [] => (target.syntheticResults pendingToolCalls existingToolResultIds).map
      fun result => ⟨.toolResult result, []⟩
  | ⟨.assistant m, names⟩ :: messages =>
    let reset := Target.resetIds pendingToolCalls existingToolResultIds
    ((target.syntheticResults pendingToolCalls existingToolResultIds).map
        fun result => ⟨.toolResult result, []⟩) ++
      if m.failed then insertListed [] reset messages
      else ⟨.assistant m, names⟩ ::
        insertListed m.toolCalls (if m.toolCalls.isEmpty then reset else []) messages
  | ⟨.toolResult m, names⟩ :: messages =>
    ⟨.toolResult m, names⟩ ::
      insertListed pendingToolCalls (existingToolResultIds ++ [m.toolCallId]) messages
  | ⟨.user m, names⟩ :: messages =>
    ((target.syntheticResults pendingToolCalls existingToolResultIds).map
        fun result => ⟨.toolResult result, []⟩) ++
      ⟨.user m, names⟩ ::
        insertListed [] (Target.resetIds pendingToolCalls existingToolResultIds) messages

/-- The first pass. -/
def listReplayed (toolCallIdMap : JsMap JsString JsString) : List (Listed α) → List (Listed α)
  | [] => []
  | m :: messages =>
    ⟨target.transformMessage toolCallIdMap (target.prepare m.message), m.addedToolNames⟩ ::
      listReplayed (target.recordIds toolCallIdMap (target.prepare m.message)) messages

/-- `transformMessages` -/
def transformListed (messages : List (Listed α)) : List (Listed α) :=
  insertListed target [] [] (listReplayed target JsMap.empty messages)

end Replay

/-! ## Where tools are placed -/

/-- `add` of a `Set`, which keeps the order of insertion. -/
def addName (names : List JsString) (name : JsString) : List JsString :=
  if name ∈ names then names else names ++ [name]

structure Seen where
  deferredNames : List JsString
  usedNames : List JsString

def Seen.step (seen : Seen) : Event → Seen
  | .calls names => { seen with usedNames := names.foldl addName seen.usedNames }
  | .added names =>
    { seen with
      deferredNames := (names.filter (· ∉ seen.usedNames)).foldl addName seen.deferredNames }
  | .said => seen

structure Placement (ρ : Type) where
  immediate : List (Tool ρ)
  deferred : JsMap JsString (Tool ρ)

/-- `splitDeferredTools` -/
def splitDeferredTools (tools : List (Tool ρ)) (messages : List (Listed α)) (enabled : Bool)
    (normalizeName : JsString → JsString) : Placement ρ :=
  let uniqueTools := JsMap.ofFields (tools.map fun tool => (normalizeName tool.name, tool))
  if !enabled then ⟨uniqueTools.entries.map Prod.snd, JsMap.empty⟩
  else
    let seen := (messages.map (·.event normalizeName)).foldl Seen.step ⟨[], []⟩
    ⟨(uniqueTools.entries.filter (·.1 ∉ seen.deferredNames)).map Prod.snd,
      JsMap.ofFields (uniqueTools.entries.filter (·.1 ∈ seen.deferredNames))⟩

/-! ## Requests -/

/-- What the messages of a request have of tools: a call, a `tool_reference`, a
`tool_search_call`, or a message with definitions. -/
inductive Item (ρ : Type) where
  | call (name : JsString)
  | reference (name : JsString)
  | search (names : List JsString)
  | load (tools : List (Tool ρ))

/-- What a request has of tools; `deferredTools` are those of its `tools` that have
`defer_loading`. -/
structure Request (ρ : Type) where
  tools : List (Tool ρ)
  deferredTools : List (Tool ρ)
  messages : List (Item ρ)

/-- The names that a result loads, and `loadedToolNames` behind it. -/
def loadNames (isDeferred : JsString → Bool) (loadedToolNames : List JsString) :
    List JsString → List JsString × List JsString
  | [] => ([], loadedToolNames)
  | name :: names =>
    if !isDeferred name || name ∈ loadedToolNames then loadNames isDeferred loadedToolNames names
    else
      let rest := loadNames isDeferred (loadedToolNames ++ [name]) names
      (name :: rest.1, rest.2)

/-- The conversions that load a name once. -/
def convertWith (isDeferred : JsString → Bool) (emit : List JsString → List (Item ρ))
    (loadedToolNames : List JsString) : List Event → List (Item ρ)
  | [] => []
  | .said :: events => convertWith isDeferred emit loadedToolNames events
  | .calls names :: events =>
    names.map .call ++ convertWith isDeferred emit loadedToolNames events
  | .added names :: events =>
    let loads := loadNames isDeferred loadedToolNames names
    emit loads.1 ++ convertWith isDeferred emit loads.2 events

/-- `convertMessages` of the Anthropic messages. -/
def convertMessages (deferredToolNames : List JsString) (events : List Event) : List (Item ρ) :=
  convertWith (· ∈ deferredToolNames) (·.map .reference) [] events

/-- The way that a Responses request loads tools. -/
inductive DeferredToolsMode where
  | additionalTools
  | toolSearch

def DeferredToolsMode.emit (mode : DeferredToolsMode) (deferredTools : List (Tool ρ)) :
    List (Item ρ) :=
  if deferredTools.isEmpty then []
  else match mode with
    | .additionalTools => [.load deferredTools]
    | .toolSearch => [.search (deferredTools.map (·.name)), .load deferredTools]

/-- `convertResponsesMessages` -/
def convertResponsesMessages (deferredTools : JsMap JsString (Tool ρ)) (mode : DeferredToolsMode)
    (events : List Event) : List (Item ρ) :=
  convertWith deferredTools.has (fun names => mode.emit (names.filterMap deferredTools.get?)) []
    events

/-- `getDeferredToolNames` -/
def getDeferredToolNames (events : List Event) : List JsString :=
  events.foldl (fun names event => match event with
    | .added added => added.foldl addName names
    | _ => names) []

/-- `getToolsByName` -/
def getToolsByName (tools : List (Tool ρ)) (names : List JsString) : List (Tool ρ) :=
  names.filterMap (JsMap.ofFields (tools.map fun tool => (tool.name, tool))).get?

/-- The system message with the tools of a group of results. -/
def kimiToolMessage (tools : List (Tool ρ)) (deferredToolNames : List JsString) : List (Item ρ) :=
  let deferredTools := getToolsByName tools deferredToolNames
  if deferredTools.isEmpty then [] else [.load deferredTools]

/-- `convertMessages` of the completions, for Kimi; `deferredToolNames` are those of the group of
results that goes on. -/
def convertKimi (tools : List (Tool ρ)) (deferredToolNames : List JsString) :
    List Event → List (Item ρ)
  | [] => kimiToolMessage tools deferredToolNames
  | .said :: events => kimiToolMessage tools deferredToolNames ++ convertKimi tools [] events
  | .calls names :: events =>
    kimiToolMessage tools deferredToolNames ++ (names.map .call ++ convertKimi tools [] events)
  | .added names :: events => convertKimi tools (names.foldl addName deferredToolNames) events

/-- The modes in which transcripts add tools, with the normalization of tool names. -/
inductive Mode where
  | anthropic (normalizeToolName : JsString → JsString)
  | responses (mode : DeferredToolsMode)
  | kimi

def Mode.normalizeName : Mode → JsString → JsString
  | .anthropic normalizeToolName, name => normalizeToolName name
  | .responses _, name => name
  | .kimi, name => name

/-- `buildParams`, of messages with content: where it is null, `splitDeferredTools` for Responses
and `hasToolHistory` for Kimi throw. -/
def buildParams (target : Target α) (tools : List (Tool ρ)) (messages : List (Listed α)) :
    Mode → Request ρ
  | .anthropic normalizeToolName =>
    let transformedMessages := transformListed target messages
    let toolPlacement := splitDeferredTools tools transformedMessages true normalizeToolName
    let deferred := toolPlacement.deferred.entries.map Prod.snd
    let swapped := toolPlacement.immediate.isEmpty && !deferred.isEmpty
    let immediateTools := if swapped then deferred else toolPlacement.immediate
    let deferredTools := if swapped then [] else deferred
    ⟨immediateTools, deferredTools,
      convertMessages (deferredTools.map fun tool => normalizeToolName tool.name)
        (transformedMessages.map (·.event normalizeToolName))⟩
  | .responses mode =>
    let toolPlacement := splitDeferredTools tools messages true id
    ⟨toolPlacement.immediate, [],
      convertResponsesMessages toolPlacement.deferred mode
        ((transformListed target messages).map (·.event id))⟩
  | .kimi =>
    let deferredToolNames := getDeferredToolNames (messages.map (·.event id))
    ⟨tools.filter (·.name ∉ deferredToolNames), [],
      convertKimi tools [] ((transformListed target messages).map (·.event id))⟩

/-! ## Declared once, and before a call -/

/-- How often an item declares the tool of a name. -/
def Item.declares (normalizeName : JsString → JsString) (key : JsString) : Item ρ → Nat
  | .call _ => 0
  | .reference name => if name = key then 1 else 0
  | .search _ => 0
  | .load tools => (tools.map fun tool => normalizeName tool.name).count key

namespace Request

variable (normalizeName : JsString → JsString) (r : Request ρ) (tool : Tool ρ)

/-- How often the tools of the request that are there from the start have the name of the tool. -/
def inTools : Nat := (r.tools.map fun t => normalizeName t.name).count (normalizeName tool.name)

/-- How often those have it that are deferred. -/
def inDeferred : Nat :=
  (r.deferredTools.map fun t => normalizeName t.name).count (normalizeName tool.name)

/-- How often the messages declare it. -/
def inMessages : Nat :=
  (r.messages.map (Item.declares normalizeName (normalizeName tool.name))).sum

/-- The tool is declared once: by the parameter, or at one place in the messages, which has the
definition or refers to the deferred one of the parameter. -/
inductive DeclaredOnce : Prop
  | immediate (hmem : tool ∈ r.tools) (htools : r.inTools normalizeName tool = 1)
      (hdeferred : r.inDeferred normalizeName tool = 0)
      (hmessages : r.inMessages normalizeName tool = 0)
  | referred (hmem : tool ∈ r.deferredTools) (htools : r.inTools normalizeName tool = 0)
      (hdeferred : r.inDeferred normalizeName tool = 1)
      (hmessages : r.inMessages normalizeName tool = 1)
  | loaded (hmem : ∃ tools, .load tools ∈ r.messages ∧ tool ∈ tools)
      (htools : r.inTools normalizeName tool = 0) (hdeferred : r.inDeferred normalizeName tool = 0)
      (hmessages : r.inMessages normalizeName tool = 1)

/-- No call of the tool is in front of what makes it available. -/
def CallsAvailable : Prop :=
  ∀ before after, r.messages = before ++ .call (normalizeName tool.name) :: after →
    r.inTools normalizeName tool ≠ 0 ∨
      ∃ item ∈ before, Item.declares normalizeName (normalizeName tool.name) item ≠ 0

structure Declares : Prop where
  once : r.DeclaredOnce normalizeName tool
  available : r.CallsAvailable normalizeName tool

end Request

/-! ## Additions and calls -/

/-- Some addition names the tool. -/
def Mentioned (key : JsString) : List Event → Prop
  | [] => False
  | .added names :: events => key ∈ names ∨ Mentioned key events
  | .calls _ :: events => Mentioned key events
  | .said :: events => Mentioned key events

/-- An addition names the tool, and no call in front of it. -/
def MentionedFirst (key : JsString) : List Event → Prop
  | [] => False
  | .added names :: events => key ∈ names ∨ MentionedFirst key events
  | .calls names :: events => key ∉ names ∧ MentionedFirst key events
  | .said :: events => MentionedFirst key events

/-- No call names the tool. -/
def Uncalled (key : JsString) : List Event → Prop
  | [] => True
  | .calls names :: events => key ∉ names ∧ Uncalled key events
  | .added _ :: events => Uncalled key events
  | .said :: events => Uncalled key events

theorem MentionedFirst.mentioned {key : JsString} {events : List Event}
    (h : MentionedFirst key events) : Mentioned key events := by
  induction events with
  | nil => exact h
  | cons event events ih =>
    cases event with
    | added names => exact h.imp_right ih
    | calls names => exact ih h.2
    | said => exact ih h

theorem mentionedFirst_of_uncalled {key : JsString} {events : List Event}
    (h : Mentioned key events) (huncalled : Uncalled key events) : MentionedFirst key events := by
  induction events with
  | nil => exact h
  | cons event events ih =>
    cases event with
    | added names => exact h.imp_right fun h => ih h huncalled
    | calls names => exact ⟨huncalled.1, ih h huncalled.2⟩
    | said => exact ih h huncalled

@[simp]
theorem mem_foldl_addName {key : JsString} (added names : List JsString) :
    key ∈ added.foldl addName names ↔ key ∈ names ∨ key ∈ added := by
  induction added generalizing names with
  | nil => simp
  | cons name added ih =>
    rw [List.foldl_cons, ih, addName]
    split
    · rename_i hmem
      rw [List.mem_cons]
      constructor
      · exact fun h => h.imp_right .inr
      · rintro (h | rfl | h)
        · exact .inl h
        · exact .inl hmem
        · exact .inr h
    · rw [List.mem_append, List.mem_singleton, List.mem_cons, or_assoc]

theorem nodup_foldl_addName (added : List JsString) {names : List JsString} (h : names.Nodup) :
    (added.foldl addName names).Nodup := by
  induction added generalizing names with
  | nil => exact h
  | cons name added ih =>
    refine ih ?_
    rw [addName]
    split
    · exact h
    · rename_i hnot
      exact List.nodup_append.mpr ⟨h, List.nodup_singleton _, fun a ha b hb heq =>
        hnot (List.mem_singleton.mp hb ▸ heq ▸ ha)⟩

/-- The tools that are deferred are those that are added in front of their first call. -/
theorem mem_deferredNames {key : JsString} (events : List Event) (seen : Seen) :
    key ∈ (events.foldl Seen.step seen).deferredNames ↔
      key ∈ seen.deferredNames ∨ (key ∉ seen.usedNames ∧ MentionedFirst key events) := by
  induction events generalizing seen with
  | nil => simp [MentionedFirst]
  | cons event events ih =>
    rw [List.foldl_cons, ih]
    cases event with
    | said => simp [Seen.step, MentionedFirst]
    | calls names =>
      simp only [Seen.step, mem_foldl_addName, MentionedFirst]
      tauto
    | added names =>
      simp only [Seen.step, mem_foldl_addName, MentionedFirst, List.mem_filter, decide_eq_true_eq]
      tauto

theorem mem_getDeferredToolNames {key : JsString} (events : List Event) :
    key ∈ getDeferredToolNames events ↔ Mentioned key events := by
  have hfold : ∀ (events : List Event) (names : List JsString),
      key ∈ events.foldl (fun names event => match event with
        | .added added => added.foldl addName names
        | _ => names) names ↔ key ∈ names ∨ Mentioned key events := by
    intro events
    induction events with
    | nil => simp [Mentioned]
    | cons event events ih =>
      intro names
      rw [List.foldl_cons, ih]
      cases event with
      | added added => simp only [mem_foldl_addName, Mentioned, or_assoc]
      | calls | said => rfl
  rw [getDeferredToolNames, hfold]
  simp

/-! ## The replayed events -/

/-- The events are those of another list, with additions of nothing between them. -/
inductive Padded : List Event → List Event → Prop
  | nil : Padded [] []
  | keep (event : Event) {events padded : List Event} (h : Padded events padded) :
      Padded (event :: events) (event :: padded)
  | pad {events padded : List Event} (h : Padded events padded) :
      Padded events (.added [] :: padded)

namespace Padded

variable {key : JsString} {events padded : List Event}

theorem mentionedFirst_iff (h : Padded events padded) :
    MentionedFirst key padded ↔ MentionedFirst key events := by
  induction h with
  | nil => rfl
  | keep event _ ih => cases event <;> simp only [MentionedFirst, ih]
  | pad _ ih => simp only [MentionedFirst, List.not_mem_nil, false_or, ih]

theorem uncalled_iff (h : Padded events padded) : Uncalled key padded ↔ Uncalled key events := by
  induction h with
  | nil => rfl
  | keep event _ ih => cases event <;> simp only [Uncalled, ih]
  | pad _ ih => simp only [Uncalled, ih]

end Padded

/-- The events of the messages that are replayed. -/
def replayedEvents (normalizeName : JsString → JsString) (messages : List (Listed α)) :
    List Event :=
  (messages.filter fun m => !m.failed).map (·.event normalizeName)

theorem padded_synthetic (normalizeName : JsString → JsString) (results : List ToolResultMessage)
    {events padded : List Event} (h : Padded events padded) :
    Padded events ((results.map fun result =>
      (⟨.toolResult result, []⟩ : Listed α)).map (·.event normalizeName) ++ padded) := by
  induction results with
  | nil => exact h
  | cons result results ih => exact .pad ih

section Replayed

variable (target : Target α) (normalizeName : JsString → JsString)

theorem padded_insertListed (messages : List (Listed α)) :
    ∀ (pending : List (ToolCall α)) (existing : List JsString),
      Padded (replayedEvents normalizeName messages)
        ((insertListed target pending existing messages).map (·.event normalizeName)) := by
  induction messages with
  | nil =>
    intro pending existing
    rw [insertListed, ← List.append_nil (List.map _ _)]
    exact padded_synthetic _ _ .nil
  | cons m messages ih =>
    obtain ⟨message, names⟩ := m
    intro pending existing
    cases message with
    | user u =>
      rw [insertListed, List.map_append]
      exact padded_synthetic _ _ (.keep _ (ih _ _))
    | toolResult r =>
      rw [insertListed]
      exact .keep _ (ih _ _)
    | assistant a =>
      rw [insertListed, List.map_append]
      refine padded_synthetic _ _ ?_
      cases hfailed : a.failed with
      | true =>
        have hskip : replayedEvents normalizeName (⟨.assistant a, names⟩ :: messages) =
            replayedEvents normalizeName messages := by
          rw [replayedEvents, List.filter_cons_of_neg (by simp [Listed.failed, hfailed])]
          rfl
        rw [hskip]
        exact ih _ _
      | false =>
        have hkeep : replayedEvents normalizeName (⟨.assistant a, names⟩ :: messages) =
            Listed.event normalizeName ⟨.assistant a, names⟩ ::
              replayedEvents normalizeName messages := by
          rw [replayedEvents, List.filter_cons_of_pos (by simp [Listed.failed, hfailed])]
          rfl
        rw [hkeep]
        exact .keep _ (ih _ _)

/-- The first pass keeps the names of calls, the additions and the failures. -/
theorem replayedEvents_listReplayed (messages : List (Listed α))
    (toolCallIdMap : JsMap JsString JsString) :
    replayedEvents normalizeName (listReplayed target toolCallIdMap messages) =
      replayedEvents normalizeName messages := by
  have hmessage : ∀ (toolCallIdMap : JsMap JsString JsString) (m : Listed α),
      Listed.event normalizeName
          ⟨target.transformMessage toolCallIdMap (target.prepare m.message), m.addedToolNames⟩ =
        m.event normalizeName ∧
      Listed.failed
          ⟨target.transformMessage toolCallIdMap (target.prepare m.message), m.addedToolNames⟩ =
        m.failed := by
    intro toolCallIdMap m
    obtain ⟨message, names⟩ := m
    cases message with
    | user u =>
      rw [Target.prepare]
      split <;> exact ⟨rfl, rfl⟩
    | toolResult r =>
      rw [Target.prepare]
      split <;> exact ⟨rfl, rfl⟩
    | assistant a =>
      have hprepared : target.prepare (.assistant a) = .assistant a.withContent := by
        rw [Target.prepare]
        split <;> rfl
      rw [hprepared, Target.transformMessage]
      refine ⟨?_, rfl⟩
      dsimp only [Listed.event]
      rw [Target.toolCalls_transformAssistant, List.map_map]
      rfl
  induction messages generalizing toolCallIdMap with
  | nil => rfl
  | cons m messages ih =>
    obtain ⟨hevent, hfailed⟩ := hmessage toolCallIdMap m
    rw [listReplayed, replayedEvents, List.filter_cons, hfailed, replayedEvents, List.filter_cons]
    have ih' := ih (target.recordIds toolCallIdMap (target.prepare m.message))
    rw [replayedEvents, replayedEvents] at ih'
    split
    · rw [List.map_cons, List.map_cons, hevent, ih']
    · exact ih'

theorem padded_transformListed (messages : List (Listed α)) :
    Padded (replayedEvents normalizeName messages)
      ((transformListed target messages).map (·.event normalizeName)) := by
  rw [← replayedEvents_listReplayed target normalizeName messages JsMap.empty]
  exact padded_insertListed target normalizeName _ [] []

end Replayed

/-- A failed message adds nothing, and its calls are not replayed. -/
theorem mentioned_replayed {key : JsString} (normalizeName : JsString → JsString)
    (messages : List (Listed α)) :
    Mentioned key (replayedEvents normalizeName messages) ↔
      Mentioned key (messages.map (·.event normalizeName)) := by
  induction messages with
  | nil => rfl
  | cons m messages ih =>
    obtain ⟨message, names⟩ := m
    rw [replayedEvents] at ih ⊢
    cases message with
    | user u => exact ih
    | toolResult r => exact or_congr_right ih
    | assistant a =>
      rw [List.filter_cons]
      split <;> exact ih

theorem mentionedFirst_replayed {key : JsString} {normalizeName : JsString → JsString}
    {messages : List (Listed α)}
    (h : MentionedFirst key (messages.map (·.event normalizeName))) :
    MentionedFirst key (replayedEvents normalizeName messages) := by
  induction messages with
  | nil => exact h
  | cons m messages ih =>
    obtain ⟨message, names⟩ := m
    rw [replayedEvents] at ih ⊢
    cases message with
    | user u => exact ih h
    | toolResult r => exact Or.imp_right ih h
    | assistant a =>
      rw [List.filter_cons]
      split
      · exact ⟨h.1, ih h.2⟩
      · exact ih h.2

/-! ## Conversions that load a name once -/

/-- Nothing calls the tool in front of what declares it. -/
def Guarded (normalizeName : JsString → JsString) (key : JsString) : List (Item ρ) → Prop
  | [] => True
  | item :: items => Item.declares normalizeName key item ≠ 0 ∨
      (item ≠ .call key ∧ Guarded normalizeName key items)

section Items

variable {normalizeName : JsString → JsString} {key : JsString}

theorem guarded_iff {items : List (Item ρ)} : Guarded normalizeName key items ↔
    ∀ before after, items = before ++ .call key :: after →
      ∃ item ∈ before, Item.declares normalizeName key item ≠ 0 := by
  induction items with
  | nil => exact iff_of_true trivial fun before after h => by cases before <;> cases h
  | cons item items ih =>
    rw [Guarded, ih]
    constructor
    · rintro (hdeclares | ⟨hne, hitems⟩) before after h
      · cases before with
        | nil =>
          obtain ⟨rfl, -⟩ := List.cons.inj h
          exact absurd rfl hdeclares
        | cons first before =>
          obtain ⟨rfl, -⟩ := List.cons.inj h
          exact ⟨item, List.mem_cons_self, hdeclares⟩
      · cases before with
        | nil => exact absurd (List.cons.inj h).1 hne
        | cons first before =>
          obtain ⟨rfl, hrest⟩ := List.cons.inj h
          obtain ⟨found, hmem, hfound⟩ := hitems before after hrest
          exact ⟨found, List.mem_cons_of_mem _ hmem, hfound⟩
    · intro h
      by_cases hdeclares : Item.declares normalizeName key item = 0
      · refine .inr ⟨?_, fun before after heq => ?_⟩
        · rintro rfl
          obtain ⟨found, hmem, -⟩ := h [] items rfl
          cases hmem
        · obtain ⟨found, hmem, hfound⟩ := h (item :: before) after (by rw [heq]; rfl)
          obtain rfl | hmem := List.mem_cons.mp hmem
          · exact absurd hdeclares hfound
          · exact ⟨found, hmem, hfound⟩
      · exact .inl hdeclares

theorem declares_map_call (names : List JsString) :
    ((names.map .call : List (Item ρ)).map (Item.declares normalizeName key)).sum = 0 := by
  induction names with
  | nil => rfl
  | cons name names ih => rw [List.map_cons, List.map_cons, List.sum_cons, ih]; rfl

theorem guarded_map_call_append (names : List JsString) (items : List (Item ρ)) :
    Guarded normalizeName key (names.map .call ++ items) ↔
      key ∉ names ∧ Guarded normalizeName key items := by
  induction names with
  | nil => simp
  | cons name names ih =>
    rw [List.map_cons, List.cons_append, Guarded, ih, List.mem_cons, not_or]
    have hzero : Item.declares normalizeName key (.call name : Item ρ) = 0 := rfl
    have hcall : ((.call name : Item ρ) ≠ .call key) ↔ ¬ key = name := by
      rw [ne_eq, Item.call.injEq, eq_comm]
    rw [hzero, hcall]
    simp [and_assoc]

/-- Items of which none is a call. -/
theorem guarded_append {items : List (Item ρ)} (hcalls : ∀ name, .call name ∉ items)
    (rest : List (Item ρ)) : Guarded normalizeName key (items ++ rest) ↔
      (items.map (Item.declares normalizeName key)).sum ≠ 0 ∨
        Guarded normalizeName key rest := by
  induction items with
  | nil => simp
  | cons item items ih =>
    have hitem : item ≠ .call key := fun h => hcalls key (h ▸ List.mem_cons_self)
    rw [List.cons_append, Guarded, ih fun name h => hcalls name (List.mem_cons_of_mem _ h),
      List.map_cons, List.sum_cons]
    simp only [ne_eq, hitem, not_false_eq_true, true_and, Nat.add_eq_zero_iff]
    tauto

end Items

section Loads

variable {isDeferred : JsString → Bool} {key : JsString}

theorem loadNames_mem (hkey : isDeferred key = true) (names : List JsString) :
    ∀ loaded, key ∈ (loadNames isDeferred loaded names).2 ↔ key ∈ loaded ∨ key ∈ names := by
  induction names with
  | nil => simp [loadNames]
  | cons name names ih =>
    intro loaded
    rw [loadNames]
    split
    · rename_i hskip
      rw [ih, List.mem_cons]
      have hname : key = name → key ∈ loaded := by
        rintro rfl
        simpa [hkey] using hskip
      tauto
    · dsimp only
      rw [ih, List.mem_append, List.mem_singleton, List.mem_cons, or_assoc]

/-- A name is loaded if it is deferred and not loaded before, and only once. -/
theorem count_loadNames (names : List JsString) : ∀ loaded,
    (loadNames isDeferred loaded names).1.count key =
      if isDeferred key = true ∧ key ∉ loaded ∧ key ∈ names then 1 else 0 := by
  induction names with
  | nil => simp [loadNames]
  | cons name names ih =>
    intro loaded
    rw [loadNames]
    split
    · rename_i hskip
      rw [ih]
      have hname : isDeferred key = true → key = name → key ∈ loaded := by
        rintro hkey rfl
        simpa [hkey] using hskip
      refine if_congr ?_ rfl rfl
      rw [List.mem_cons]
      tauto
    · rename_i hload
      rw [List.count_cons, ih]
      simp only [Bool.or_eq_true, Bool.not_eq_true', decide_eq_true_eq, not_or,
        Bool.not_eq_false] at hload
      by_cases hname : name = key
      · subst hname
        simp [hload]
      · have hname' : ¬ key = name := fun h => hname h.symm
        simp [hname, hname']

theorem loadNames_deferred (names : List JsString) : ∀ loaded,
    ∀ name ∈ (loadNames isDeferred loaded names).1, isDeferred name = true := by
  intro loaded name hmem
  have hcount := @count_loadNames isDeferred name names loaded
  by_contra hnot
  rw [if_neg fun h => hnot h.1] at hcount
  exact List.count_eq_zero.mp hcount hmem

variable {normalizeName : JsString → JsString} {emit : List JsString → List (Item ρ)}

/-- What is emitted for names declares each of them, and calls nothing. -/
structure Emits (normalizeName : JsString → JsString) (isDeferred : JsString → Bool)
    (emit : List JsString → List (Item ρ)) : Prop where
  declares : ∀ names key, (∀ name ∈ names, isDeferred name = true) →
    ((emit names).map (Item.declares normalizeName key)).sum = names.count key
  calls : ∀ names name, .call name ∉ emit names

variable (hemit : Emits normalizeName isDeferred emit)

include hemit

/-- A tool that is loaded, or is not deferred, is not declared. -/
theorem declares_convertWith_zero (events : List Event) : ∀ loaded,
    (isDeferred key = true → key ∈ loaded) →
      ((convertWith isDeferred emit loaded events).map (Item.declares normalizeName key)).sum =
        0 := by
  induction events with
  | nil => exact fun _ _ => rfl
  | cons event events ih =>
    intro loaded hloaded
    cases event with
    | said => exact ih loaded hloaded
    | calls names =>
      rw [convertWith, List.map_append, List.sum_append, declares_map_call, ih loaded hloaded]
    | added names =>
      rw [convertWith, List.map_append, List.sum_append,
        hemit.declares _ _ (loadNames_deferred names loaded), count_loadNames, if_neg, ih]
      · exact fun hkey => (loadNames_mem hkey names loaded).mpr (.inl (hloaded hkey))
      · exact fun h => h.2.1 (hloaded h.1)

/-- A deferred tool is declared once if something adds it. -/
theorem declares_convertWith (hkey : isDeferred key = true) {events : List Event}
    (hmentioned : Mentioned key events) : ∀ loaded, key ∉ loaded →
      ((convertWith isDeferred emit loaded events).map (Item.declares normalizeName key)).sum =
        1 := by
  induction events with
  | nil => cases hmentioned
  | cons event events ih =>
    intro loaded hloaded
    cases event with
    | said => exact ih hmentioned loaded hloaded
    | calls names =>
      rw [convertWith, List.map_append, List.sum_append, declares_map_call,
        ih hmentioned loaded hloaded]
    | added names =>
      rw [convertWith, List.map_append, List.sum_append,
        hemit.declares _ _ (loadNames_deferred names loaded), count_loadNames]
      by_cases hnames : key ∈ names
      · rw [if_pos ⟨hkey, hloaded, hnames⟩, declares_convertWith_zero hemit]
        exact fun _ => (loadNames_mem hkey names loaded).mpr (.inr hnames)
      · rw [if_neg fun h => hnames h.2.2, ih (hmentioned.resolve_left hnames)]
        exact fun h => ((loadNames_mem hkey names loaded).mp h).elim hloaded hnames

/-- What adds a deferred tool in front of its first call declares it there. -/
theorem guarded_convertWith (hkey : isDeferred key = true) {events : List Event}
    (hfirst : MentionedFirst key events) : ∀ loaded, key ∉ loaded →
      Guarded normalizeName key (convertWith isDeferred emit loaded events) := by
  induction events with
  | nil => cases hfirst
  | cons event events ih =>
    intro loaded hloaded
    cases event with
    | said => exact ih hfirst loaded hloaded
    | calls names =>
      rw [convertWith, guarded_map_call_append]
      exact ⟨hfirst.1, ih hfirst.2 loaded hloaded⟩
    | added names =>
      rw [convertWith, guarded_append (hemit.calls _),
        hemit.declares _ _ (loadNames_deferred names loaded), count_loadNames]
      by_cases hnames : key ∈ names
      · rw [if_pos ⟨hkey, hloaded, hnames⟩]
        exact .inl Nat.one_ne_zero
      · refine .inr (ih (hfirst.resolve_left hnames) _ ?_)
        exact fun h => ((loadNames_mem hkey names loaded).mp h).elim hloaded hnames

end Loads

/-! ## The ways to load -/

section Tools

variable {normalizeName : JsString → JsString} {tools : List (Tool ρ)}

/-- Tools whose names differ have different entries. -/
theorem entries_uniqueTools (h : (tools.map fun tool => normalizeName tool.name).Nodup) :
    (JsMap.ofFields (tools.map fun tool => (normalizeName tool.name, tool))).entries =
      tools.map fun tool => (normalizeName tool.name, tool) := by
  refine JsMap.entries_ofFields ?_
  rw [List.map_map]
  exact h

theorem eq_of_name (h : (tools.map fun tool => normalizeName tool.name).Nodup) {a b : Tool ρ}
    (ha : a ∈ tools) (hb : b ∈ tools) (hname : normalizeName a.name = normalizeName b.name) :
    a = b :=
  List.inj_on_of_nodup_map h ha hb hname

/-- The tool is once among those that are selected, if it is selected. -/
theorem count_filter (h : (tools.map fun tool => normalizeName tool.name).Nodup) {tool : Tool ρ}
    (hmem : tool ∈ tools) (p : Tool ρ → Bool) :
    ((tools.filter p).map fun t => normalizeName t.name).count (normalizeName tool.name) =
      if p tool then 1 else 0 := by
  split
  · rename_i hp
    refine List.count_eq_one_of_mem (h.sublist (List.filter_sublist.map _)) ?_
    exact List.mem_map_of_mem (List.mem_filter.mpr ⟨hmem, hp⟩)
  · rename_i hp
    refine List.count_eq_zero.mpr fun hname => ?_
    obtain ⟨t, ht, hname⟩ := List.mem_map.mp hname
    obtain ⟨htools, hpt⟩ := List.mem_filter.mp ht
    exact hp (eq_of_name h htools hmem hname ▸ hpt)

/-- The names that `splitDeferredTools` defers. -/
def deferredNames (normalizeName : JsString → JsString) (messages : List (Listed α)) :
    List JsString :=
  ((messages.map (·.event normalizeName)).foldl Seen.step ⟨[], []⟩).deferredNames

theorem mem_deferredNames_iff {messages : List (Listed α)} {key : JsString} :
    key ∈ deferredNames normalizeName messages ↔
      MentionedFirst key (messages.map (·.event normalizeName)) := by
  rw [deferredNames, mem_deferredNames]
  simp

variable (messages : List (Listed α))

theorem splitDeferredTools_immediate
    (h : (tools.map fun tool => normalizeName tool.name).Nodup) :
    (splitDeferredTools tools messages true normalizeName).immediate =
      tools.filter fun tool => normalizeName tool.name ∉ deferredNames normalizeName messages := by
  rw [splitDeferredTools, if_neg (by simp)]
  dsimp only
  rw [entries_uniqueTools h, List.filter_map, List.map_map]
  exact List.map_id _

theorem splitDeferredTools_deferred
    (h : (tools.map fun tool => normalizeName tool.name).Nodup) :
    (splitDeferredTools tools messages true normalizeName).deferred.entries =
      (tools.filter fun tool =>
        normalizeName tool.name ∈ deferredNames normalizeName messages).map fun tool =>
          (normalizeName tool.name, tool) := by
  rw [splitDeferredTools, if_neg (by simp)]
  dsimp only
  rw [entries_uniqueTools h, List.filter_map, JsMap.entries_ofFields]
  · rfl
  · rw [List.map_map]
    exact h.sublist (List.filter_sublist.map _)

end Tools

theorem emits_reference (normalizeName : JsString → JsString) (isDeferred : JsString → Bool) :
    Emits normalizeName isDeferred fun names => (names.map .reference : List (Item ρ)) where
  declares := by
    intro names key hnames
    clear hnames
    induction names with
    | nil => rfl
    | cons name names ih =>
      rw [List.map_cons, List.map_cons, List.sum_cons, ih, List.count_cons, Nat.add_comm]
      simp [Item.declares]
  calls := by
    intro names name hmem
    obtain ⟨other, -, h⟩ := List.mem_map.mp hmem
    cases h

theorem declares_emit (mode : DeferredToolsMode) (tools : List (Tool ρ)) (key : JsString) :
    ((mode.emit tools).map (Item.declares id key)).sum = (tools.map (·.name)).count key := by
  unfold DeferredToolsMode.emit
  split
  · rename_i hempty
    rw [List.isEmpty_iff.mp hempty]
    rfl
  · cases mode <;> simp [Item.declares]

theorem mem_emit {mode : DeferredToolsMode} {tools : List (Tool ρ)} {item : Item ρ}
    (h : item ∈ mode.emit tools) : item = .load tools ∨ ∃ names, item = .search names := by
  unfold DeferredToolsMode.emit at h
  split at h
  · cases h
  · cases mode with
    | additionalTools => exact .inl (List.mem_singleton.mp h)
    | toolSearch =>
      obtain h | h := List.mem_cons.mp h
      · exact .inr ⟨_, h⟩
      · exact .inl (List.mem_singleton.mp h)

/-- A map whose keys are the names of its tools. -/
def NamedByKey (deferredTools : JsMap JsString (Tool ρ)) : Prop :=
  ∀ entry ∈ deferredTools.entries, entry.2.name = entry.1

theorem names_filterMap {deferredTools : JsMap JsString (Tool ρ)} (h : NamedByKey deferredTools)
    (names : List JsString) :
    (names.filterMap deferredTools.get?).map (·.name) = names.filter deferredTools.has := by
  induction names with
  | nil => rfl
  | cons name names ih =>
    rw [List.filterMap_cons, List.filter_cons, JsMap.has]
    cases htool : deferredTools.get? name with
    | none => exact ih
    | some tool =>
      dsimp only [Option.isSome_some]
      rw [if_pos rfl, List.map_cons, h _ (JsMap.mem_of_get? htool), ih]

theorem emits_emit (mode : DeferredToolsMode) {deferredTools : JsMap JsString (Tool ρ)}
    (h : NamedByKey deferredTools) :
    Emits id deferredTools.has fun names => mode.emit (names.filterMap deferredTools.get?) where
  declares := by
    intro names key hnames
    rw [declares_emit, names_filterMap h, List.filter_eq_self.mpr hnames]
  calls := by
    intro names name hmem
    unfold DeferredToolsMode.emit at hmem
    split at hmem
    · cases hmem
    · cases mode <;> simp at hmem

/-- The items of a conversion are calls and what is emitted. -/
theorem mem_convertWith {isDeferred : JsString → Bool} {emit : List JsString → List (Item ρ)}
    {item : Item ρ} (events : List Event) : ∀ loaded,
      item ∈ convertWith isDeferred emit loaded events →
        (∃ name, item = .call name) ∨ ∃ names, item ∈ emit names := by
  induction events with
  | nil => exact fun _ h => by cases h
  | cons event events ih =>
    intro loaded h
    cases event with
    | said => exact ih loaded h
    | calls names =>
      obtain h | h := List.mem_append.mp h
      · obtain ⟨name, -, rfl⟩ := List.mem_map.mp h
        exact .inl ⟨name, rfl⟩
      · exact ih loaded h
    | added names =>
      obtain h | h := List.mem_append.mp h
      · exact .inr ⟨_, h⟩
      · exact ih _ h

/-- Where the messages load tools of the context only, what they declare is loaded there. -/
theorem exists_load {tools : List (Tool ρ)} (h : (tools.map (·.name)).Nodup) {tool : Tool ρ}
    (hmem : tool ∈ tools) {items : List (Item ρ)} (hreference : ∀ name, .reference name ∉ items)
    (hload : ∀ loaded, .load loaded ∈ items → ∀ t ∈ loaded, t ∈ tools)
    (hdeclares : (items.map (Item.declares id tool.name)).sum ≠ 0) :
    ∃ loaded, .load loaded ∈ items ∧ tool ∈ loaded := by
  obtain ⟨n, hn, hne⟩ : ∃ n ∈ items.map (Item.declares id tool.name), n ≠ 0 := by
    by_contra hzero
    push Not at hzero
    exact hdeclares (List.sum_eq_zero_iff_forall_eq_nat.mpr hzero)
  obtain ⟨item, hitem, rfl⟩ := List.mem_map.mp hn
  cases item with
  | call name => exact absurd rfl hne
  | search names => exact absurd rfl hne
  | reference name => exact absurd hitem (hreference name)
  | load loaded =>
    have hname : tool.name ∈ loaded.map fun t => id t.name := by
      by_contra hnot
      exact hne (List.count_eq_zero.mpr hnot)
    obtain ⟨t, ht, hname⟩ := List.mem_map.mp hname
    have heq : t = tool := List.inj_on_of_nodup_map h (hload loaded hitem t ht) hmem hname
    exact ⟨loaded, hitem, heq ▸ ht⟩

/-! ## Groups of results -/

/-- The number of groups of results that add a tool; `opened` says if the one that goes on
does. -/
def groups (key : JsString) : Bool → List Event → Nat
  | opened, [] => opened.toNat
  | opened, .added names :: events => groups key (opened || decide (key ∈ names)) events
  | opened, .calls _ :: events => opened.toNat + groups key false events
  | opened, .said :: events => opened.toNat + groups key false events

theorem Padded.groups_eq {key : JsString} {events padded : List Event} (h : Padded events padded)
    (opened : Bool) : groups key opened padded = groups key opened events := by
  induction h generalizing opened with
  | nil => rfl
  | keep event _ ih => cases event <;> simp only [groups, ih]
  | pad _ ih => simp only [groups, List.not_mem_nil, decide_false, Bool.or_false, ih]

theorem groups_eq_zero {key : JsString} {events : List Event} :
    groups key false events = 0 ↔ ¬ Mentioned key events := by
  have hopened : ∀ events : List Event, groups key true events ≠ 0 := by
    intro events
    induction events with
    | nil => exact Nat.one_ne_zero
    | cons event events ih => cases event <;> simp [groups, ih]
  induction events with
  | nil => exact iff_of_true rfl id
  | cons event events ih =>
    cases event with
    | calls | said => simp only [groups, Mentioned, Bool.toNat_false, Nat.zero_add, ih]
    | added names =>
      by_cases hnames : key ∈ names
      · simp [groups, Mentioned, hnames, hopened]
      · simp [groups, Mentioned, hnames, ih]

section Kimi

variable {tools : List (Tool ρ)} {tool : Tool ρ}

theorem namedByKey_tools :
    NamedByKey (JsMap.ofFields (tools.map fun tool => (tool.name, tool))) := by
  induction tools using List.reverseRecOn with
  | nil => exact fun _ h => by cases h
  | append_singleton tools t ih =>
    intro entry hentry
    rw [List.map_append, List.map_singleton, JsMap.ofFields, List.foldl_append] at hentry
    obtain h | rfl := mem_setField hentry
    · exact ih entry h
    · rfl

theorem mem_getToolsByName {names : List JsString} {t : Tool ρ}
    (h : t ∈ getToolsByName tools names) :
    t ∈ tools := by
  obtain ⟨name, -, hget⟩ := List.mem_filterMap.mp h
  have hmem := JsMap.mem_of_get? hget
  clear hget h
  induction tools using List.reverseRecOn with
  | nil => cases hmem
  | append_singleton tools other ih =>
    rw [List.map_append, List.map_singleton, JsMap.ofFields, List.foldl_append] at hmem
    obtain h | h := mem_setField hmem
    · exact List.mem_append_left _ (ih h)
    · exact List.mem_append_right _ (List.mem_singleton.mpr (Prod.mk.inj h).2)

/-- The message behind a group declares each tool of the context that the group adds. -/
theorem declares_kimiToolMessage (hmem : tool ∈ tools) {names : List JsString}
    (hnames : names.Nodup) :
    ((kimiToolMessage tools names).map (Item.declares id tool.name)).sum =
      (decide (tool.name ∈ names)).toNat := by
  have hhas : (JsMap.ofFields (tools.map fun tool => (tool.name, tool))).has tool.name = true := by
    rw [JsMap.has_iff, JsMap.mem_keys_ofFields, List.map_map]
    exact List.mem_map.mpr ⟨tool, hmem, rfl⟩
  have hcount : ((getToolsByName tools names).map fun t => id t.name).count tool.name =
      (decide (tool.name ∈ names)).toNat := by
    show ((getToolsByName tools names).map (·.name)).count tool.name = _
    rw [getToolsByName, names_filterMap namedByKey_tools]
    by_cases hname : tool.name ∈ names
    · rw [decide_eq_true hname, List.count_eq_one_of_mem (hnames.filter _)
        (List.mem_filter.mpr ⟨hname, hhas⟩)]
      rfl
    · rw [decide_eq_false hname, List.count_eq_zero.mpr fun h => hname (List.mem_filter.mp h).1]
      rfl
  rw [kimiToolMessage]
  split
  · rename_i hempty
    rw [List.isEmpty_iff.mp hempty] at hcount
    rw [← hcount]
    rfl
  · rw [← hcount]
    exact Nat.add_zero _

theorem kimiToolMessage_calls (names : List JsString) (name : JsString) :
    .call name ∉ kimiToolMessage tools names := by
  rw [kimiToolMessage]
  split <;> simp

theorem declares_convertKimi (hmem : tool ∈ tools) (events : List Event) :
    ∀ names : List JsString, names.Nodup →
      ((convertKimi tools names events).map (Item.declares id tool.name)).sum =
        groups tool.name (decide (tool.name ∈ names)) events := by
  induction events with
  | nil =>
    intro names hnames
    rw [convertKimi, declares_kimiToolMessage hmem hnames]
    rfl
  | cons event events ih =>
    intro names hnames
    cases event with
    | said =>
      rw [convertKimi, List.map_append, List.sum_append, declares_kimiToolMessage hmem hnames,
        ih [] List.nodup_nil]
      rfl
    | calls called =>
      rw [convertKimi, List.map_append, List.sum_append, List.map_append, List.sum_append,
        declares_map_call, declares_kimiToolMessage hmem hnames, ih [] List.nodup_nil,
        Nat.zero_add]
      rfl
    | added added =>
      rw [convertKimi, ih _ (nodup_foldl_addName added hnames), groups, ← Bool.decide_or]
      simp only [mem_foldl_addName]

/-- Nothing calls a tool that is added in front of the place that declares it, if and only if
nothing calls it in front of what adds it. -/
theorem guarded_convertKimi (hmem : tool ∈ tools) (events : List Event) :
    ∀ names : List JsString, names.Nodup →
      (Guarded id tool.name (convertKimi tools names events) ↔
        tool.name ∈ names ∨ MentionedFirst tool.name events ∨ Uncalled tool.name events) := by
  induction events with
  | nil =>
    intro names hnames
    rw [convertKimi, ← List.append_nil (kimiToolMessage tools names),
      guarded_append (kimiToolMessage_calls names)]
    simp [Guarded, Uncalled]
  | cons event events ih =>
    intro names hnames
    have hflush : ∀ rest : List (Item ρ),
        Guarded id tool.name (kimiToolMessage tools names ++ rest) ↔
          tool.name ∈ names ∨ Guarded id tool.name rest := by
      intro rest
      rw [guarded_append (kimiToolMessage_calls names), declares_kimiToolMessage hmem hnames]
      by_cases hname : tool.name ∈ names <;> simp [hname]
    cases event with
    | said =>
      rw [convertKimi, hflush, ih [] List.nodup_nil]
      simp [MentionedFirst, Uncalled]
    | calls called =>
      rw [convertKimi, hflush, guarded_map_call_append, ih [] List.nodup_nil]
      simp only [MentionedFirst, Uncalled, List.not_mem_nil, false_or]
      tauto
    | added added =>
      rw [convertKimi, ih _ (nodup_foldl_addName added hnames), mem_foldl_addName]
      simp only [MentionedFirst, Uncalled]
      tauto

theorem mem_convertKimi {item : Item ρ} (events : List Event) : ∀ names : List JsString,
    item ∈ convertKimi tools names events →
      (∃ name, item = .call name) ∨ ∃ names, item ∈ kimiToolMessage tools names := by
  induction events with
  | nil => exact fun names h => .inr ⟨names, h⟩
  | cons event events ih =>
    intro names h
    cases event with
    | said => exact (List.mem_append.mp h).elim (fun h => .inr ⟨names, h⟩) (ih [])
    | calls called =>
      obtain h | h := List.mem_append.mp h
      · exact .inr ⟨names, h⟩
      · obtain h | h := List.mem_append.mp h
        · obtain ⟨name, -, rfl⟩ := List.mem_map.mp h
          exact .inl ⟨name, rfl⟩
        · exact ih [] h
    | added added => exact ih _ h

end Kimi

/-! ## Additions in a transcript -/

namespace Listed

/-- The message is a result that adds the tool. -/
def Adds (m : Listed α) (key : JsString) : Prop :=
  ∃ names, m.event id = .added names ∧ key ∈ names

/-- The message is replayed and calls the tool. -/
def Calls (m : Listed α) (key : JsString) : Prop :=
  m.failed = false ∧ ∃ names, m.event id = .calls names ∧ key ∈ names

/-- The message does not end a group of results: it is a result or is not replayed. -/
def Silent (m : Listed α) : Prop := m.failed = true ∨ ∃ names, m.event id = .added names

end Listed

/-- A tool is added by results of one group, and is not called in front of them. -/
structure AddedOnce (key : JsString) (messages : List (Listed α)) : Prop where
  uncalled : ∀ call added, List.Sublist [call, added] messages → call.Calls key → ¬ added.Adds key
  together : ∀ first between last, List.Sublist [first, between, last] messages →
    first.Adds key → last.Adds key → between.Silent

section Added

variable {key : JsString} {m : Listed α} {messages : List (Listed α)}

theorem replayedEvents_of_failed (h : m.failed = true) :
    replayedEvents id (m :: messages) = replayedEvents id messages := by
  rw [replayedEvents, List.filter_cons_of_neg (by simp [h])]
  rfl

theorem replayedEvents_of_replayed (h : m.failed = false) :
    replayedEvents id (m :: messages) = m.event id :: replayedEvents id messages := by
  rw [replayedEvents, List.filter_cons_of_pos (by simp [h])]
  rfl

theorem Listed.Adds.not_failed (h : m.Adds key) : m.failed = false := by
  obtain ⟨names, hevent, -⟩ := h
  obtain ⟨message, listed⟩ := m
  cases message with
  | assistant a => cases hevent
  | user u | toolResult r => rfl

theorem Listed.Calls.not_silent (h : m.Calls key) : ¬ m.Silent := by
  obtain ⟨hreplayed, names, hevent, -⟩ := h
  rintro (hfailed | ⟨added, hadded⟩)
  · rw [hreplayed] at hfailed
    cases hfailed
  · rw [hevent] at hadded
    cases hadded

theorem sublist_cons_pair {a b c : Listed α} :
    List.Sublist [a, b] (c :: messages) ↔ List.Sublist [a, b] messages ∨
      (a = c ∧ b ∈ messages) := by
  rw [List.cons_sublist_cons']
  simp

theorem mentioned_iff : Mentioned key (replayedEvents id messages) ↔
    ∃ m ∈ messages, m.Adds key := by
  induction messages with
  | nil => simp [replayedEvents, Mentioned]
  | cons m messages ih =>
    rw [List.exists_mem_cons_iff, ← ih]
    cases hfailed : m.failed with
    | true =>
      rw [replayedEvents_of_failed hfailed]
      refine (or_iff_right fun h => ?_).symm
      rw [h.not_failed] at hfailed
      cases hfailed
    | false =>
      rw [replayedEvents_of_replayed hfailed, Listed.Adds]
      cases hevent : m.event id <;> simp [Mentioned]

/-- Behind a result that adds the tool: only results of its group add it. -/
theorem groups_opened : groups key true (replayedEvents id messages) = 1 ↔
    ∀ between last, List.Sublist [between, last] messages → last.Adds key → between.Silent := by
  induction messages with
  | nil => simp [replayedEvents, groups]
  | cons m messages ih =>
    have hsplit : (∀ between last, List.Sublist [between, last] (m :: messages) →
        last.Adds key → between.Silent) ↔
          (∀ between last, List.Sublist [between, last] messages → last.Adds key →
            between.Silent) ∧ ((∃ last ∈ messages, last.Adds key) → m.Silent) := by
      simp only [sublist_cons_pair]
      constructor
      · intro h
        refine ⟨fun between last hsub => h between last (.inl hsub), ?_⟩
        rintro ⟨last, hlast, hadds⟩
        exact h m last (.inr ⟨rfl, hlast⟩) hadds
      · rintro ⟨h, hm⟩ between last (hsub | ⟨rfl, hlast⟩) hadds
        · exact h between last hsub hadds
        · exact hm ⟨last, hlast, hadds⟩
    rw [hsplit]
    cases hfailed : m.failed with
    | true =>
      rw [replayedEvents_of_failed hfailed, ih]
      exact (and_iff_left fun _ => .inl hfailed).symm
    | false =>
      rw [replayedEvents_of_replayed hfailed]
      have hseparator : (∀ names, m.event id ≠ .added names) →
          (1 + groups key false (replayedEvents id messages) = 1 ↔
            (∀ between last, List.Sublist [between, last] messages → last.Adds key →
              between.Silent) ∧ ((∃ last ∈ messages, last.Adds key) → m.Silent)) := by
        intro hadded
        have hsilent : ¬ m.Silent := by
          rintro (h | ⟨names, h⟩)
          · rw [hfailed] at h
            cases h
          · exact hadded names h
        rw [Nat.add_eq_left, groups_eq_zero, mentioned_iff]
        constructor
        · intro hnone
          exact ⟨fun between last hsub hadds => absurd
            ⟨last, hsub.subset (by simp), hadds⟩ hnone, fun h => absurd h hnone⟩
        · exact fun h hmentioned => hsilent (h.2 hmentioned)
      cases hevent : m.event id with
      | added names =>
        rw [groups, Bool.true_or, ih]
        exact (and_iff_left fun _ => .inr ⟨names, hevent⟩).symm
      | calls names => exact hseparator (by rw [hevent]; nofun)
      | said => exact hseparator (by rw [hevent]; nofun)

theorem sublist_cons_triple {a b c d : Listed α} :
    List.Sublist [a, b, c] (d :: messages) ↔
      List.Sublist [a, b, c] messages ∨ (a = d ∧ List.Sublist [b, c] messages) := by
  rw [List.cons_sublist_cons']

theorem groups_opened_pos (events : List Event) : 1 ≤ groups key true events := by
  induction events with
  | nil => exact Nat.le_refl 1
  | cons event events ih =>
    cases event with
    | added names => exact ih
    | calls | said => exact Nat.le_add_right 1 _

theorem groups_le_one : groups key false (replayedEvents id messages) ≤ 1 ↔
    ∀ first between last, List.Sublist [first, between, last] messages → first.Adds key →
      last.Adds key → between.Silent := by
  induction messages with
  | nil => simp [replayedEvents, groups]
  | cons m messages ih =>
    have hsplit : (∀ first between last, List.Sublist [first, between, last] (m :: messages) →
        first.Adds key → last.Adds key → between.Silent) ↔
          (∀ first between last, List.Sublist [first, between, last] messages → first.Adds key →
            last.Adds key → between.Silent) ∧
          (m.Adds key → groups key true (replayedEvents id messages) = 1) := by
      rw [groups_opened]
      simp only [sublist_cons_triple]
      constructor
      · intro h
        exact ⟨fun first between last hsub => h first between last (.inl hsub),
          fun hm between last hsub => h m between last (.inr ⟨rfl, hsub⟩) hm⟩
      · rintro ⟨h, hm⟩ first between last (hsub | ⟨rfl, hsub⟩) hfirst hlast
        · exact h first between last hsub hfirst hlast
        · exact hm hfirst between last hsub hlast
    rw [hsplit, ← ih]
    cases hfailed : m.failed with
    | true =>
      rw [replayedEvents_of_failed hfailed]
      refine (and_iff_left fun h => ?_).symm
      rw [h.not_failed] at hfailed
      cases hfailed
    | false =>
      rw [replayedEvents_of_replayed hfailed]
      have hseparator : (∀ names, m.event id ≠ .added names) → ¬ m.Adds key :=
        fun hadded h => hadded _ h.choose_spec.1
      cases hevent : m.event id with
      | calls names =>
        rw [groups, Bool.toNat_false, Nat.zero_add]
        exact (and_iff_left fun h => absurd h (hseparator (by rw [hevent]; nofun))).symm
      | said =>
        rw [groups, Bool.toNat_false, Nat.zero_add]
        exact (and_iff_left fun h => absurd h (hseparator (by rw [hevent]; nofun))).symm
      | added names =>
        rw [groups, Bool.false_or]
        by_cases hnames : key ∈ names
        · have hadds : m.Adds key := ⟨names, hevent, hnames⟩
          have hpos := @groups_opened_pos key (replayedEvents id messages)
          rw [decide_eq_true hnames, forall_prop_of_true hadds]
          refine ⟨fun h => ?_, fun h => h.2.le⟩
          have hone := le_antisymm h hpos
          refine ⟨?_, hone⟩
          -- Behind the group no result adds the tool, in front of it only those of the group do.
          rw [ih]
          intro first between last hsub _ hlast
          rw [groups_opened] at hone
          exact hone between last ((List.sublist_cons_self _ _).trans hsub) hlast
        · rw [decide_eq_false hnames]
          refine (and_iff_left fun h => ?_).symm
          obtain ⟨other, hother, hmem⟩ := h
          obtain rfl := Event.added.inj (hevent.symm.trans hother)
          exact absurd hmem hnames

theorem mentionedFirst_of_uncalledFirst
    (h : ∀ call added, List.Sublist [call, added] messages → call.Calls key → ¬ added.Adds key)
    (hmentioned : Mentioned key (replayedEvents id messages)) :
    MentionedFirst key (replayedEvents id messages) := by
  induction messages with
  | nil => exact hmentioned
  | cons m messages ih =>
    have ih' := ih fun call added hsub => h call added (hsub.cons m)
    cases hfailed : m.failed with
    | true =>
      rw [replayedEvents_of_failed hfailed] at hmentioned ⊢
      exact ih' hmentioned
    | false =>
      rw [replayedEvents_of_replayed hfailed] at hmentioned ⊢
      cases hevent : m.event id with
      | said =>
        rw [hevent] at hmentioned
        exact ih' hmentioned
      | added names =>
        rw [hevent] at hmentioned
        exact hmentioned.imp_right ih'
      | calls names =>
        rw [hevent] at hmentioned
        refine ⟨fun hname => ?_, ih' hmentioned⟩
        obtain ⟨added, hmem, hadds⟩ := mentioned_iff.mp hmentioned
        exact h m added (sublist_cons_pair.mpr (.inr ⟨rfl, hmem⟩)) ⟨hfailed, names, hevent, hname⟩
          hadds

theorem uncalled_of_mentionedFirst
    (htogether : ∀ first between last, List.Sublist [first, between, last] messages →
      first.Adds key → last.Adds key → between.Silent)
    (h : MentionedFirst key (replayedEvents id messages)) :
    ∀ call added, List.Sublist [call, added] messages → call.Calls key → ¬ added.Adds key := by
  induction messages with
  | nil =>
    intro call added hsub
    cases hsub
  | cons m messages ih =>
    intro call added hsub hcall hadds
    have htogether' : ∀ first between last, List.Sublist [first, between, last] messages →
        first.Adds key → last.Adds key → between.Silent :=
      fun first between last hsub => htogether first between last (hsub.cons m)
    have hmessage : m ≠ call ∧ (¬ m.Adds key →
        MentionedFirst key (replayedEvents id messages)) := by
      cases hfailed : m.failed with
      | true =>
        rw [replayedEvents_of_failed hfailed] at h
        refine ⟨fun heq => ?_, fun _ => h⟩
        rw [heq, hcall.1] at hfailed
        cases hfailed
      | false =>
        rw [replayedEvents_of_replayed hfailed] at h
        obtain ⟨hreplayed, called, hcalled, hname⟩ := hcall
        cases hevent : m.event id with
        | said =>
          rw [hevent] at h
          refine ⟨fun heq => ?_, fun _ => h⟩
          rw [heq, hcalled] at hevent
          cases hevent
        | calls names =>
          rw [hevent] at h
          refine ⟨fun heq => ?_, fun _ => h.2⟩
          rw [heq, hcalled] at hevent
          obtain rfl := Event.calls.inj hevent
          exact h.1 hname
        | added names =>
          rw [hevent] at h
          refine ⟨fun heq => ?_, fun hnot => h.resolve_left fun hmem => hnot ⟨names, hevent, hmem⟩⟩
          rw [heq, hcalled] at hevent
          cases hevent
    obtain hsub | ⟨rfl, -⟩ := sublist_cons_pair.mp hsub
    · by_cases hm : m.Adds key
      · exact hcall.not_silent (htogether m call added
          (sublist_cons_triple.mpr (.inr ⟨rfl, hsub⟩)) hm hadds)
      · exact ih htogether' (hmessage.2 hm) call added hsub hcall hadds
    · exact hmessage.1 rfl

/-- The transcript adds a tool once, if and only if the messages declare it once and in front of
its calls. -/
theorem addedOnce_iff : AddedOnce key messages ↔
    (Mentioned key (replayedEvents id messages) →
      groups key false (replayedEvents id messages) = 1 ∧
        MentionedFirst key (replayedEvents id messages)) := by
  constructor
  · intro h hmentioned
    have hle := groups_le_one.mpr h.together
    have hne : groups key false (replayedEvents id messages) ≠ 0 := fun hzero =>
      groups_eq_zero.mp hzero hmentioned
    exact ⟨by omega, mentionedFirst_of_uncalledFirst h.uncalled hmentioned⟩
  · intro h
    by_cases hmentioned : Mentioned key (replayedEvents id messages)
    · obtain ⟨hone, hfirst⟩ := h hmentioned
      have htogether := groups_le_one.mp hone.le
      exact ⟨uncalled_of_mentionedFirst htogether hfirst, htogether⟩
    · have hadds : ∀ m ∈ messages, ¬ m.Adds key := fun m hm hadds =>
        hmentioned (mentioned_iff.mpr ⟨m, hm, hadds⟩)
      exact ⟨fun call added hsub _ => hadds added (hsub.subset (by simp)),
        fun first between last hsub hfirst => absurd hfirst (hadds first (hsub.subset (by simp)))⟩

end Added

/-! ## Requests that declare their tools -/

section Requests

variable {tools : List (Tool ρ)} {messages : List (Listed α)}

theorem available_of_inTools {normalizeName : JsString → JsString} {r : Request ρ} {tool : Tool ρ}
    (h : r.inTools normalizeName tool = 1) : r.CallsAvailable normalizeName tool :=
  fun _ _ _ => .inl (by rw [h]; exact Nat.one_ne_zero)

theorem available_iff_guarded {normalizeName : JsString → JsString} {r : Request ρ}
    {tool : Tool ρ} (h : r.inTools normalizeName tool = 0) :
    r.CallsAvailable normalizeName tool ↔
      Guarded normalizeName (normalizeName tool.name) r.messages := by
  rw [guarded_iff, Request.CallsAvailable, h]
  simp

/-- The requests that refer to the deferred tools. -/
theorem anthropic_declares (target : Target α) (normalizeToolName : JsString → JsString)
    (h : (tools.map fun tool => normalizeToolName tool.name).Nodup) {tool : Tool ρ}
    (hmem : tool ∈ tools) :
    (buildParams target tools messages (.anthropic normalizeToolName)).Declares normalizeToolName
      tool := by
  set transformed := transformListed target messages with htransformed
  set names := deferredNames normalizeToolName transformed
  have himmediate := splitDeferredTools_immediate transformed h
  have hdeferred : (splitDeferredTools tools transformed true
      normalizeToolName).deferred.entries.map Prod.snd =
        tools.filter fun tool => normalizeToolName tool.name ∈ names := by
    rw [splitDeferredTools_deferred transformed h, List.map_map]
    exact List.map_id _
  rw [buildParams, ← htransformed, hdeferred, himmediate]
  split
  · -- Without a tool from the start, all are declared from the start.
    rename_i hswapped
    rw [Bool.and_eq_true, List.isEmpty_iff, List.filter_eq_nil_iff] at hswapped
    have hname : normalizeToolName tool.name ∈ names := by
      simpa using hswapped.1 tool hmem
    have hone := count_filter h hmem fun tool => decide (normalizeToolName tool.name ∈ names)
    rw [if_pos (decide_eq_true hname)] at hone
    refine ⟨.immediate (List.mem_filter.mpr ⟨hmem, decide_eq_true hname⟩) hone rfl ?_,
      available_of_inTools hone⟩
    exact declares_convertWith_zero (emits_reference _ _) _ _ (by simp)
  · by_cases hname : normalizeToolName tool.name ∈ names
    · have hzero := count_filter h hmem fun tool => decide (normalizeToolName tool.name ∉ names)
      have hone := count_filter h hmem fun tool => decide (normalizeToolName tool.name ∈ names)
      rw [if_neg (by simpa using hname)] at hzero
      rw [if_pos (decide_eq_true hname)] at hone
      have hkey : normalizeToolName tool.name ∈ (tools.filter fun tool =>
          decide (normalizeToolName tool.name ∈ names)).map fun tool =>
            normalizeToolName tool.name :=
        List.mem_map.mpr ⟨tool, List.mem_filter.mpr ⟨hmem, decide_eq_true hname⟩, rfl⟩
      have hfirst := mem_deferredNames_iff.mp hname
      refine ⟨.referred (List.mem_filter.mpr ⟨hmem, decide_eq_true hname⟩) hzero hone ?_,
        (available_iff_guarded ?_).mpr ?_⟩
      · exact declares_convertWith (emits_reference _ _) (decide_eq_true hkey) hfirst.mentioned []
          List.not_mem_nil
      · exact hzero
      · exact guarded_convertWith (emits_reference _ _) (decide_eq_true hkey) hfirst []
          List.not_mem_nil
    · have hone := count_filter h hmem fun tool => decide (normalizeToolName tool.name ∉ names)
      have hzero := count_filter h hmem fun tool => decide (normalizeToolName tool.name ∈ names)
      rw [if_pos (decide_eq_true hname)] at hone
      rw [if_neg (by simpa using hname)] at hzero
      refine ⟨.immediate (List.mem_filter.mpr ⟨hmem, decide_eq_true hname⟩) hone hzero ?_,
        available_of_inTools hone⟩
      refine declares_convertWith_zero (emits_reference _ _) _ _ fun hkey => ?_
      exact absurd (of_decide_eq_true hkey) (List.count_eq_zero.mp hzero)

theorem responses_declares (target : Target α) (mode : DeferredToolsMode)
    (h : (tools.map (·.name)).Nodup) {tool : Tool ρ} (hmem : tool ∈ tools) :
    (buildParams target tools messages (.responses mode)).Declares id tool := by
  set names := deferredNames id messages
  have himmediate := @splitDeferredTools_immediate _ _ id tools messages h
  have hentries := @splitDeferredTools_deferred _ _ id tools messages h
  rw [buildParams, himmediate]
  set deferred := (splitDeferredTools tools messages true id).deferred
  have hnamed : NamedByKey deferred := by
    intro entry hentry
    rw [hentries] at hentry
    obtain ⟨t, -, rfl⟩ := List.mem_map.mp hentry
    rfl
  have hhas : deferred.has tool.name = true ↔ tool.name ∈ names := by
    rw [JsMap.has_iff, JsMap.keys, hentries, List.map_map]
    constructor
    · intro hkey
      obtain ⟨t, ht, hname⟩ := List.mem_map.mp hkey
      exact hname ▸ of_decide_eq_true (List.mem_filter.mp ht).2
    · exact fun hname => List.mem_map.mpr
        ⟨tool, List.mem_filter.mpr ⟨hmem, decide_eq_true hname⟩, rfl⟩
  have hemit := emits_emit mode hnamed
  by_cases hname : tool.name ∈ names
  · have hzero := @count_filter _ id tools h tool hmem fun tool => decide (tool.name ∉ names)
    rw [if_neg (by simpa using hname)] at hzero
    have hfirst := (padded_transformListed target id messages).mentionedFirst_iff.mpr
      (mentionedFirst_replayed (mem_deferredNames_iff.mp hname))
    have hone := declares_convertWith hemit (hhas.mpr hname) hfirst.mentioned []
      List.not_mem_nil
    have hitems : ∀ item, item ∈ convertResponsesMessages deferred mode
        ((transformListed target messages).map (·.event id)) →
          (∃ name, item = .call name) ∨
            ∃ names : List JsString, item ∈ mode.emit (names.filterMap deferred.get?) :=
      fun item => mem_convertWith _ _
    have hne := hone ▸ Nat.one_ne_zero
    refine ⟨.loaded (exists_load h hmem ?_ ?_ hne) hzero rfl hone,
      (available_iff_guarded ?_).mpr ?_⟩
    · intro name hreference
      obtain ⟨called, hcall⟩ | ⟨names, hitem⟩ := hitems _ hreference
      · cases hcall
      · cases (mem_emit hitem).resolve_right fun h => by cases h.choose_spec
    · intro loaded hload t ht
      obtain ⟨called, hcall⟩ | ⟨names, hitem⟩ := hitems _ hload
      · cases hcall
      · obtain hload | ⟨searched, hsearch⟩ := mem_emit hitem
        · obtain rfl := Item.load.inj hload
          obtain ⟨name, -, hget⟩ := List.mem_filterMap.mp ht
          have hentry := JsMap.mem_of_get? hget
          rw [hentries] at hentry
          obtain ⟨t', ht', heq⟩ := List.mem_map.mp hentry
          obtain ⟨-, rfl⟩ := Prod.mk.inj heq
          exact List.mem_of_mem_filter ht'
        · cases hsearch
    · exact hzero
    · exact guarded_convertWith hemit (hhas.mpr hname) hfirst [] List.not_mem_nil
  · have hone := @count_filter _ id tools h tool hmem fun tool => decide (tool.name ∉ names)
    rw [if_pos (decide_eq_true hname)] at hone
    refine ⟨.immediate (List.mem_filter.mpr ⟨hmem, decide_eq_true hname⟩) hone rfl ?_,
      available_of_inTools hone⟩
    exact declares_convertWith_zero hemit _ _ fun hkey => absurd (hhas.mp hkey) hname

/-- Kimi's requests declare the tools that the transcript adds once. -/
theorem kimi_declares_iff (target : Target α) (h : (tools.map (·.name)).Nodup) {tool : Tool ρ}
    (hmem : tool ∈ tools) :
    (buildParams target tools messages .kimi).Declares id tool ↔
      AddedOnce tool.name messages := by
  have hpadded := padded_transformListed target id messages
  have hnames : tool.name ∈ getDeferredToolNames (messages.map (·.event id)) ↔
      Mentioned tool.name (replayedEvents id messages) := by
    rw [mem_getDeferredToolNames, mentioned_replayed]
  have hmessages : (buildParams target tools messages .kimi).inMessages id tool =
      groups tool.name false (replayedEvents id messages) := by
    have hsum := declares_convertKimi hmem ((transformListed target messages).map (·.event id)) []
      List.nodup_nil
    rw [hpadded.groups_eq] at hsum
    exact hsum
  have hguarded := guarded_convertKimi hmem ((transformListed target messages).map (·.event id))
    [] List.nodup_nil
  rw [hpadded.mentionedFirst_iff, hpadded.uncalled_iff] at hguarded
  have hcount := @count_filter _ id tools h tool hmem fun t =>
    decide (t.name ∉ getDeferredToolNames (messages.map (·.event id)))
  rw [addedOnce_iff]
  by_cases hmentioned : Mentioned tool.name (replayedEvents id messages)
  · have htools : (buildParams target tools messages .kimi).inTools id tool = 0 :=
      hcount.trans (if_neg (by simpa using hnames.mpr hmentioned))
    rw [forall_prop_of_true hmentioned]
    constructor
    · rintro ⟨honce, havailable⟩
      have hone : (buildParams target tools messages .kimi).inMessages id tool = 1 := by
        cases honce with
        | immediate _ hone => exact absurd (htools.symm.trans hone) Nat.zero_ne_one
        | referred hdeferred => cases hdeferred
        | loaded _ _ _ hone => exact hone
      refine ⟨hmessages.symm.trans hone, ?_⟩
      obtain hmem' | hfirst | huncalled :=
        hguarded.mp ((available_iff_guarded htools).mp havailable)
      · cases hmem'
      · exact hfirst
      · exact mentionedFirst_of_uncalled hmentioned huncalled
    · rintro ⟨hone, hfirst⟩
      have hitems : ∀ item, item ∈ convertKimi tools []
          ((transformListed target messages).map (·.event id)) →
            (∃ name, item = .call name) ∨
              ∃ names : List JsString, item ∈ kimiToolMessage tools names :=
        fun item => mem_convertKimi _ _
      have hload : ∀ {item : Item ρ} {names : List JsString}, item ∈ kimiToolMessage tools names →
          item = .load (getToolsByName tools names) := by
        intro item names hitem
        rw [kimiToolMessage] at hitem
        split at hitem
        · cases hitem
        · exact List.mem_singleton.mp hitem
      refine ⟨.loaded (exists_load h hmem ?_ ?_ ?_) htools rfl (hmessages.trans hone),
        (available_iff_guarded htools).mpr (hguarded.mpr (.inr (.inl hfirst)))⟩
      · intro name hreference
        obtain ⟨called, hcall⟩ | ⟨names, hitem⟩ := hitems _ hreference
        · cases hcall
        · cases hload hitem
      · intro loaded hloaded t ht
        obtain ⟨called, hcall⟩ | ⟨names, hitem⟩ := hitems _ hloaded
        · cases hcall
        · obtain rfl := Item.load.inj (hload hitem)
          exact mem_getToolsByName ht
      · exact fun hzero => absurd ((hmessages.trans hone).symm.trans hzero) Nat.one_ne_zero
  · have hnot := hnames.not.mpr hmentioned
    have htools : (buildParams target tools messages .kimi).inTools id tool = 1 :=
      hcount.trans (if_pos (decide_eq_true hnot))
    refine iff_of_true ⟨.immediate ?_ htools rfl ?_, available_of_inTools htools⟩
      fun h => absurd h hmentioned
    · exact List.mem_filter.mpr ⟨hmem, decide_eq_true hnot⟩
    · rw [hmessages, groups_eq_zero]
      exact hmentioned

/-- A request declares each tool of the context once and in front of its calls; Kimi's do if and
only if the transcript adds it once. -/
theorem declares_iff (target : Target α) (mode : Mode) (messages : List (Listed α))
    (_hgiven : ∀ m ∈ messages, m.Given)
    (h : (tools.map fun tool => mode.normalizeName tool.name).Nodup) :
    (∀ tool ∈ tools, (buildParams target tools messages mode).Declares mode.normalizeName tool) ↔
      (mode = .kimi → ∀ tool ∈ tools, AddedOnce tool.name messages) := by
  cases mode with
  | anthropic normalizeToolName =>
    exact iff_of_true (fun tool hmem => anthropic_declares target normalizeToolName h hmem) nofun
  | responses mode =>
    exact iff_of_true (fun tool hmem => responses_declares target mode h hmem) nofun
  | kimi =>
    rw [forall_prop_of_true rfl]
    exact forall₂_congr fun tool hmem => kimi_declares_iff target h hmem

end Requests

section Instances

/-- A message with a call, and its result. -/
def turn (id name : JsString) (added : List JsString) : List (Listed Unit) :=
  [⟨.assistant ⟨some [.toolCall ⟨id, name, (), none, none⟩], js "completions", js "kimi", js "k2",
      .toolUse, 0⟩, []⟩,
    ⟨.toolResult ⟨id, name, some [], false, 0⟩, added⟩]

def kimiTarget : Target Unit := ⟨⟨js "kimi", js "completions", js "k2", []⟩, none, 0⟩

def contextTools : List (Tool Unit) := [⟨js "find", ()⟩, ⟨js "read", ()⟩]

/-- The search adds the same tool twice. -/
def addedTwice : List (Listed Unit) :=
  turn (js "a") (js "find") [js "read"] ++ turn (js "b") (js "find") [js "read"]

theorem addedTwice_given : ∀ m ∈ addedTwice, m.Given := by
  intro m hm a ha
  simp only [addedTwice, turn, List.cons_append, List.nil_append, List.mem_cons,
    List.not_mem_nil, or_false] at hm
  rcases hm with rfl | rfl | rfl | rfl <;> cases ha <;> rfl

/-- The message that adds the tool a second time is behind a call. -/
theorem declares_iff_addedTwice : ¬ ∀ tool ∈ contextTools,
    (buildParams kimiTarget contextTools addedTwice .kimi).Declares Mode.kimi.normalizeName
      tool := by
  intro h
  have hadded := (declares_iff kimiTarget .kimi addedTwice addedTwice_given (by decide)).mp h rfl
    ⟨js "read", ()⟩ (by decide)
  have hsilent := hadded.together addedTwice[1] addedTwice[2] addedTwice[3]
    (.cons _ (List.Sublist.refl _)) ⟨_, rfl, by decide⟩ ⟨_, rfl, by decide⟩
  rcases hsilent with hfailed | ⟨names, hevent⟩
  · cases hfailed
  · cases hevent

/-- The messages for Kimi declare the tool twice. -/
theorem addedTwice_not_declares :
    (contextTools.map fun tool => Mode.kimi.normalizeName tool.name).Nodup ∧
      ¬ ∀ tool ∈ contextTools,
        (buildParams kimiTarget contextTools addedTwice .kimi).Declares Mode.kimi.normalizeName
          tool := by
  refine ⟨by decide, fun h => ?_⟩
  have hread := (h ⟨js "read", ()⟩ (by decide)).once
  have hmessages : (buildParams kimiTarget contextTools addedTwice .kimi).inMessages
      Mode.kimi.normalizeName ⟨js "read", ()⟩ = 2 := by decide
  cases hread with
  | immediate _ _ _ hzero | referred _ _ _ hzero | loaded _ _ _ hzero =>
    rw [hmessages] at hzero
    cases hzero

end Instances

end PiMono.Ai.DeferredTools
