import Mathlib.Data.List.Perm.Subperm
import PiMono.Ai.TransformMessages

/-!
# Calls and their results

`turns` reads a history as its messages that have not failed, each with the results that answer
it. `transformMessages_paired_iff` says when every call of a replayed history is answered by
exactly its own result.
-/

namespace PiMono.Ai

variable {α : Type}

/-! ## Turns -/

/-- The results in front of the next user message or message that has not failed. -/
def leading : List (Message α) → List ToolResultMessage
  | .toolResult r :: messages => r :: leading messages
  | .assistant m :: messages => if m.failed then leading messages else []
  | _ => []

/-- The results in front of any other message. -/
def direct : List (Message α) → List ToolResultMessage
  | .toolResult r :: messages => r :: direct messages
  | _ => []

/-- The leading results behind a failed message. -/
def later : List (Message α) → List ToolResultMessage
  | .toolResult _ :: messages => later messages
  | .assistant m :: messages => if m.failed then leading messages else []
  | _ => []

theorem direct_append_later : ∀ messages : List (Message α),
    leading messages = direct messages ++ later messages
  | [] => rfl
  | .user _ :: _ => rfl
  | .assistant _ :: _ => rfl
  | .toolResult r :: messages => congrArg (r :: ·) (direct_append_later messages)

/-- The messages that have not failed, each with what follows. -/
def tails : List (Message α) → List (AssistantMessage α × List (Message α))
  | [] => []
  | .assistant m :: messages => (if m.failed then [] else [(m, messages)]) ++ tails messages
  | _ :: messages => tails messages

/-- What follows a user message. -/
def userTails : List (Message α) → List (List (Message α))
  | [] => []
  | .user _ :: messages => messages :: userTails messages
  | _ :: messages => userTails messages

/-- The messages that have not failed, each with the results that answer it. -/
def turns (messages : List (Message α)) : List (AssistantMessage α × List ToolResultMessage) :=
  (tails messages).map fun t => (t.1, leading t.2)

/-- Every result stands behind a message that has not failed, with no user message in between. -/
structure NoLoose (messages : List (Message α)) : Prop where
  front : leading messages = []
  users : ∀ b ∈ userTails messages, leading b = []

/-- The results answer calls, at most one each, and the ids of the calls of a message differ. -/
structure Answered (messages : List (Message α)) : Prop where
  noLoose : NoLoose messages
  calls : ∀ t ∈ turns messages, t.1.callIds.Nodup
  answers : ∀ t ∈ turns messages, ∀ r ∈ t.2, r.toolCallId ∈ t.1.callIds
  once : ∀ t ∈ turns messages, (t.2.map (·.toolCallId)).Nodup

namespace Target

variable (target : Target α)

/-- The id that a call of a message is replayed with. -/
def outputId (m : AssistantMessage α) (id : JsString) : JsString :=
  target.normalizedId m.withContent id

/-- A result with its images replaced. -/
def preparedResult (r : ToolResultMessage) : ToolResultMessage :=
  { r with content := some (if target.model.hasVision then r.content.getD []
      else replaceImagesWithPlaceholder (r.content.getD []) nonVisionToolImagePlaceholder) }

/-- A result as it has to be replayed behind the message it answers. -/
def attached (m : AssistantMessage α) (r : ToolResultMessage) : ToolResultMessage :=
  { target.preparedResult r with toolCallId := target.outputId m r.toolCallId }

/-- A turn is replayed: each call has one result, the real ones first, with their contents. -/
structure Replays (t t' : AssistantMessage α × List ToolResultMessage) : Prop where
  calls : t'.1.callIds = t.1.callIds.map (target.outputId t.1)
  once : (t'.2.map (·.toolCallId)).Perm t'.1.callIds
  attached : ∃ added, t'.2 = t.2.map (target.attached t.1) ++ added

/-- Every turn of a history is replayed, and nothing else with it. -/
structure Paired (messages replayed : List (Message α)) : Prop where
  succeeded : ∀ m, .assistant m ∈ replayed → m.failed = false
  noLoose : NoLoose replayed
  turns : List.Forall₂ target.Replays (Ai.turns messages) (Ai.turns replayed)

/-- The ids that a message renames. -/
def renamings : Message α → List (JsString × JsString)
  | .assistant m => target.renamedIds m.withContent
  | _ => []

/-- The last id that a call of this id has been renamed to. -/
def lastRenaming (before : List (Message α)) (id : JsString) : Option JsString :=
  ((before.flatMap target.renamings).reverse.find? (·.1 = id)).map (·.2)

/-- A message that has not failed is answered before the next message, and the last renaming of
the id of each call that is answered is its own. -/
def Faithful (messages : List (Message α)) : Prop :=
  ∀ before m after, messages = before ++ .assistant m :: after → m.failed = false →
    later after = [] ∧ ∀ r ∈ leading after,
      resultId (target.lastRenaming (before ++ [.assistant m]) r.toolCallId) r.toolCallId
        = target.outputId m r.toolCallId

/-! ## The second pass -/

section Second

variable {target}

theorem leading_results (results : List ToolResultMessage) (messages : List (Message α)) :
    leading (results.map .toolResult ++ messages) = results ++ leading messages := by
  induction results with
  | nil => rfl
  | cons r results ih => exact congrArg (r :: ·) ih

theorem tails_results (results : List ToolResultMessage) (messages : List (Message α)) :
    tails (results.map .toolResult ++ messages) = tails messages := by
  induction results with
  | nil => rfl
  | cons r results ih => exact ih

theorem userTails_results (results : List ToolResultMessage) (messages : List (Message α)) :
    userTails (results.map .toolResult ++ messages) = userTails messages := by
  induction results with
  | nil => rfl
  | cons r results ih => exact ih

theorem syntheticResults_nil (existing : List JsString) :
    target.syntheticResults [] existing = [] := rfl

/-- The results behind a message: those that stand there, those that are missing, and those that
stand behind a failed message. -/
theorem leading_insertResults : ∀ (messages : List (Message α)) (pending : List (ToolCall α))
    (existing : List JsString), leading (target.insertResults pending existing messages)
      = direct messages ++ target.syntheticResults pending
          (existing ++ (direct messages).map (·.toolCallId)) ++ later messages
  | [], pending, existing => by
    have h := leading_results (α := α) (target.syntheticResults pending existing) []
    rw [List.append_nil] at h
    rw [insertResults, h]
    simp [direct, later, leading]
  | .user m :: messages, pending, existing => by
    rw [insertResults, leading_results]
    simp [direct, later, leading]
  | .assistant m :: messages, pending, existing => by
    rw [insertResults, leading_results]
    by_cases hfailed : m.failed = true
    · rw [if_pos hfailed, leading_insertResults messages, syntheticResults_nil, List.append_nil,
        ← direct_append_later]
      simp [direct, later, hfailed]
    · rw [if_neg hfailed]
      simp [direct, later, leading, hfailed]
  | .toolResult r :: messages, pending, existing => by
    rw [insertResults, leading, leading_insertResults messages]
    simp [direct, later]

theorem tails_insertResults : ∀ (messages : List (Message α)) (pending : List (ToolCall α))
    (existing : List JsString), turns (target.insertResults pending existing messages)
      = (tails messages).map fun t => (t.1, direct t.2 ++ target.syntheticResults t.1.toolCalls
          ((direct t.2).map (·.toolCallId)) ++ later t.2)
  | [], pending, existing => by
    have h := tails_results (α := α) (target.syntheticResults pending existing) []
    rw [List.append_nil] at h
    rw [insertResults, turns, h]
    rfl
  | .user m :: messages, pending, existing => by
    rw [insertResults, turns, tails_results]
    exact tails_insertResults messages [] _
  | .assistant m :: messages, pending, existing => by
    rw [insertResults, turns, tails_results]
    by_cases hfailed : m.failed = true
    · rw [if_pos hfailed, tails, if_pos hfailed, List.nil_append]
      exact tails_insertResults messages [] _
    · rw [if_neg hfailed, tails, tails, if_neg hfailed, if_neg hfailed, List.singleton_append,
        List.singleton_append,
        List.map_cons, List.map_cons, leading_insertResults messages]
      have hrest := tails_insertResults messages m.toolCalls
        (if m.toolCalls.isEmpty then resetIds pending existing else [])
      rw [turns] at hrest
      rw [hrest]
      by_cases hcalls : m.toolCalls = []
      · -- nothing is missing
        rw [hcalls]
        rfl
      · rw [if_neg (by simpa using hcalls)]
        rfl
  | .toolResult r :: messages, pending, existing => by
    rw [insertResults]
    exact tails_insertResults messages pending _

theorem succeeded_insertResults : ∀ (messages : List (Message α)) (pending : List (ToolCall α))
    (existing : List JsString) (m : AssistantMessage α),
    .assistant m ∈ target.insertResults pending existing messages → m.failed = false
  | [], pending, existing, m, h => by
    rw [insertResults] at h
    simp at h
  | .user u :: messages, pending, existing, m, h => by
    rw [insertResults] at h
    simp at h
    exact succeeded_insertResults messages _ _ m h
  | .assistant n :: messages, pending, existing, m, h => by
    rw [insertResults] at h
    by_cases hfailed : n.failed = true
    · simp [hfailed] at h
      exact succeeded_insertResults messages _ _ m h
    · simp only [hfailed, Bool.false_eq_true, if_false, List.mem_append, List.mem_cons] at h
      rcases h with h | h | h
      · simp at h
      · cases h
        exact Bool.eq_false_iff.mpr hfailed
      · exact succeeded_insertResults messages _ _ m h
  | .toolResult r :: messages, pending, existing, m, h => by
    rw [insertResults] at h
    simp at h
    exact succeeded_insertResults messages _ _ m h

theorem userTails_insertResults : ∀ (messages : List (Message α)) (pending : List (ToolCall α))
    (existing : List JsString), ∀ b ∈ userTails (target.insertResults pending existing messages),
    ∃ c ∈ userTails messages, ∃ existing', b = target.insertResults [] existing' c
  | [], pending, existing, b, hb => by
    have h := userTails_results (α := α) (target.syntheticResults pending existing) []
    rw [List.append_nil] at h
    rw [insertResults, h] at hb
    cases hb
  | .user u :: messages, pending, existing, b, hb => by
    rw [insertResults, userTails_results] at hb
    rcases List.mem_cons.mp hb with rfl | hb
    · exact ⟨messages, List.mem_cons_self, _, rfl⟩
    · obtain ⟨c, hc, h⟩ := userTails_insertResults messages _ _ b hb
      exact ⟨c, List.mem_cons_of_mem _ hc, h⟩
  | .assistant m :: messages, pending, existing, b, hb => by
    rw [insertResults, userTails_results] at hb
    by_cases hfailed : m.failed = true
    · rw [if_pos hfailed] at hb
      exact userTails_insertResults messages _ _ b hb
    · rw [if_neg hfailed] at hb
      exact userTails_insertResults messages _ _ b hb
  | .toolResult r :: messages, pending, existing, b, hb => by
    rw [insertResults] at hb
    exact userTails_insertResults messages _ _ b hb

/-- No result is loose behind the second pass, if none was before it. -/
theorem noLoose_insertResults {messages : List (Message α)} (h : NoLoose messages) :
    NoLoose (target.insertResults [] [] messages) := by
  have hleading : ∀ {c : List (Message α)} (existing : List JsString), leading c = [] →
      leading (target.insertResults [] existing c) = [] := by
    intro c existing hc
    rw [leading_insertResults, syntheticResults_nil, List.append_nil, ← direct_append_later, hc]
  refine ⟨hleading _ h.front, fun b hb => ?_⟩
  obtain ⟨c, hc, existing', rfl⟩ := userTails_insertResults messages _ _ b hb
  exact hleading existing' (h.users c hc)

end Second

/-! ## The first pass -/

section First

/-- A message as the first pass gets it. -/
def prepare (msg : Message α) : Message α :=
  if target.model.hasVision then msg.withContent else msg.withContent.withoutImages

/-- A history behind the first pass. -/
def replayed (toolCallIdMap : JsMap JsString JsString) (messages : List (Message α)) :
    List (Message α) :=
  target.transformAll toolCallIdMap (messages.map target.prepare)

theorem transformMessages_eq (messages : List (Message α)) :
    target.transformMessages messages
      = target.insertResults [] [] (target.replayed JsMap.empty messages) := by
  have hprepare : downgradeUnsupportedImages (messages.map Message.withContent) target.model
      = messages.map target.prepare := by
    unfold downgradeUnsupportedImages prepare
    by_cases hvision : target.model.hasVision = true
    · simp [hvision]
    · simp [hvision]
  rw [transformMessages, hprepare, replayed]

/-- A result behind the first pass. -/
def renamed (toolCallIdMap : JsMap JsString JsString) (r : ToolResultMessage) :
    ToolResultMessage :=
  { target.preparedResult r with
    toolCallId := resultId (toolCallIdMap.get? r.toolCallId) r.toolCallId }

variable {target} {toolCallIdMap : JsMap JsString JsString}

theorem replayed_user (u : UserMessage) (messages : List (Message α)) :
    ∃ u', target.replayed toolCallIdMap (.user u :: messages)
      = .user u' :: target.replayed toolCallIdMap messages := by
  unfold replayed prepare
  by_cases hvision : target.model.hasVision = true
  · simp only [hvision, if_true]
    exact ⟨_, rfl⟩
  · simp only [hvision, Bool.false_eq_true, if_false]
    exact ⟨_, rfl⟩

theorem prepare_assistant (m : AssistantMessage α) :
    target.prepare (.assistant m) = .assistant m.withContent := by
  unfold prepare
  split <;> rfl

theorem replayed_assistant (m : AssistantMessage α) (messages : List (Message α)) :
    target.replayed toolCallIdMap (.assistant m :: messages)
      = .assistant (target.transformAssistant m.withContent)
        :: target.replayed (target.recordIds toolCallIdMap (.assistant m.withContent))
          messages := by
  rw [replayed, List.map_cons, prepare_assistant]
  rfl

theorem replayed_toolResult (r : ToolResultMessage) (messages : List (Message α)) :
    target.replayed toolCallIdMap (.toolResult r :: messages)
      = .toolResult (target.renamed toolCallIdMap r) :: target.replayed toolCallIdMap messages := by
  have hprepare : target.prepare (.toolResult r) = .toolResult (target.preparedResult r) := by
    unfold prepare preparedResult
    by_cases hvision : target.model.hasVision = true
    · simp [hvision, Message.withContent]
    · simp [hvision, Message.withContent, Message.withoutImages]
  rw [replayed, List.map_cons, hprepare]
  rfl

theorem direct_replayed : ∀ messages : List (Message α),
    direct (target.replayed toolCallIdMap messages)
      = (direct messages).map (target.renamed toolCallIdMap)
  | [] => rfl
  | .user u :: messages => by
    obtain ⟨u', hu⟩ := @replayed_user α target toolCallIdMap u messages
    rw [hu]
    rfl
  | .assistant m :: messages => by
    rw [replayed_assistant]
    rfl
  | .toolResult r :: messages => by
    rw [replayed_toolResult]
    exact congrArg (target.renamed toolCallIdMap r :: ·) (direct_replayed messages)

theorem length_leading_replayed : ∀ (messages : List (Message α))
    (toolCallIdMap : JsMap JsString JsString),
    (leading (target.replayed toolCallIdMap messages)).length = (leading messages).length
  | [], _ => rfl
  | .user u :: messages, toolCallIdMap => by
    obtain ⟨u', hu⟩ := @replayed_user α target toolCallIdMap u messages
    rw [hu]
    rfl
  | .assistant m :: messages, toolCallIdMap => by
    rw [replayed_assistant, leading, leading]
    show (if m.failed then _ else _ : List ToolResultMessage).length = _
    split
    · exact length_leading_replayed messages _
    · rfl
  | .toolResult r :: messages, toolCallIdMap => by
    rw [replayed_toolResult, leading, leading, List.length_cons, List.length_cons,
      length_leading_replayed messages]

theorem length_later_replayed (messages : List (Message α)) :
    (later (target.replayed toolCallIdMap messages)).length = (later messages).length := by
  have h := @length_leading_replayed α target messages toolCallIdMap
  rw [direct_append_later, direct_append_later, List.length_append, List.length_append,
    direct_replayed, List.length_map] at h
  omega

/-- The messages that have not failed, with what stands before and behind them. -/
def splits (before : List (Message α)) :
    List (Message α) → List (List (Message α) × AssistantMessage α × List (Message α))
  | [] => []
  | .assistant m :: messages =>
    (if m.failed then [] else [(before ++ [.assistant m], m, messages)])
      ++ splits (before ++ [.assistant m]) messages
  | .user u :: messages => splits (before ++ [.user u]) messages
  | .toolResult r :: messages => splits (before ++ [.toolResult r]) messages

theorem tails_eq_splits : ∀ (messages before : List (Message α)),
    tails messages = (splits before messages).map (·.2)
  | [], _ => rfl
  | .user _ :: messages, before => tails_eq_splits messages _
  | .toolResult _ :: messages, before => tails_eq_splits messages _
  | .assistant m :: messages, before => by
    rw [tails, splits, List.map_append, tails_eq_splits messages (before ++ [.assistant m])]
    split <;> rfl

theorem mem_splits {a b : List (Message α)} {m : AssistantMessage α} :
    ∀ {messages before : List (Message α)}, (a, m, b) ∈ splits before messages ↔
      ∃ front, messages = front ++ .assistant m :: b ∧
        a = before ++ front ++ [.assistant m] ∧ m.failed = false
  | [], before => by
    constructor
    · exact nofun
    · rintro ⟨front, h, -⟩
      simp at h
  | msg :: messages, before => by
    have hnext : (a, m, b) ∈ splits (before ++ [msg]) messages ↔
        ∃ front, msg :: messages = (msg :: front) ++ .assistant m :: b ∧
          a = before ++ (msg :: front) ++ [.assistant m] ∧ m.failed = false := by
      rw [mem_splits]
      simp
    have hfront : (∃ front, msg :: messages = front ++ .assistant m :: b ∧
          a = before ++ front ++ [.assistant m] ∧ m.failed = false) ↔
        (msg = .assistant m ∧ messages = b ∧ a = before ++ [.assistant m] ∧ m.failed = false) ∨
          (a, m, b) ∈ splits (before ++ [msg]) messages := by
      rw [hnext]
      constructor
      · rintro ⟨front, h, ha, hfailed⟩
        cases front with
        | nil =>
          obtain ⟨rfl, rfl⟩ := List.cons.inj h
          exact .inl ⟨rfl, rfl, by simpa using ha, hfailed⟩
        | cons x front =>
          obtain ⟨rfl, -⟩ := List.cons.inj h
          exact .inr ⟨front, h, ha, hfailed⟩
      · rintro (⟨rfl, rfl, ha, hfailed⟩ | ⟨front, h⟩)
        · exact ⟨[], rfl, by simpa using ha, hfailed⟩
        · exact ⟨_, h⟩
    rw [hfront]
    cases msg with
    | user u => simp [splits]
    | toolResult r => simp [splits]
    | assistant n =>
      rw [splits, List.mem_append]
      refine or_congr_left ?_
      by_cases hfailed : n.failed = true
      · rw [if_pos hfailed]
        constructor
        · exact nofun
        · rintro ⟨h, -, -, hm⟩
          cases h
          rw [hfailed] at hm
          cases hm
      · rw [if_neg hfailed, List.mem_singleton]
        constructor
        · rintro h
          cases h
          exact ⟨rfl, rfl, rfl, Bool.eq_false_iff.mpr hfailed⟩
        · rintro ⟨h, rfl, rfl, -⟩
          cases h
          rfl

/-- `toolCallIdMap` behind some messages -/
def idMap (target : Target α) (before : List (Message α)) : JsMap JsString JsString :=
  before.foldl (fun toolCallIdMap msg => target.recordIds toolCallIdMap (target.prepare msg))
    JsMap.empty

theorem idMap_concat (before : List (Message α)) (msg : Message α) :
    idMap target (before ++ [msg]) = target.recordIds (idMap target before)
      (target.prepare msg) := by
  unfold idMap
  rw [List.foldl_append]
  rfl

theorem get?_foldl_set (pairs : List (JsString × JsString)) (id : JsString) :
    ∀ toolCallIdMap : JsMap JsString JsString,
    (pairs.foldl (fun toolCallIdMap r => toolCallIdMap.set r.1 r.2) toolCallIdMap).get? id
      = ((pairs.reverse.find? (·.1 = id)).map (·.2)).or (toolCallIdMap.get? id) := by
  induction pairs with
  | nil => exact fun _ => rfl
  | cons r pairs ih =>
    intro toolCallIdMap
    rw [List.foldl_cons, ih, JsMap.get?_set, List.reverse_cons, List.find?_append]
    by_cases hr : r.1 = id
    · cases hfind : pairs.reverse.find? (·.1 = id) <;> simp [hr]
    · cases hfind : pairs.reverse.find? (·.1 = id) <;> simp [hr]

/-- `toolCallIdMap` holds the last renaming of each id. -/
theorem get?_idMap (before : List (Message α)) (id : JsString) :
    (idMap target before).get? id = target.lastRenaming before id := by
  have hrecord : ∀ (toolCallIdMap : JsMap JsString JsString) (msg : Message α),
      target.recordIds toolCallIdMap (target.prepare msg)
        = (target.renamings msg).foldl (fun toolCallIdMap r => toolCallIdMap.set r.1 r.2)
            toolCallIdMap := by
    intro toolCallIdMap msg
    unfold prepare
    cases msg <;> split <;> rfl
  have hfold : idMap target before = (before.flatMap target.renamings).foldl
      (fun toolCallIdMap r => toolCallIdMap.set r.1 r.2) JsMap.empty := by
    rw [List.foldl_flatMap]
    exact congrArg (fun f => before.foldl f JsMap.empty) (funext₂ hrecord)
  rw [hfold, get?_foldl_set, lastRenaming, JsMap.get?_empty, Option.or_none]

theorem tails_replayed : ∀ (messages before : List (Message α)),
    tails (target.replayed (idMap target before) messages)
      = (splits before messages).map fun t =>
          (target.transformAssistant t.2.1.withContent, target.replayed (idMap target t.1) t.2.2)
  | [], _ => rfl
  | .user u :: messages, before => by
    obtain ⟨u', hu⟩ :=
      @replayed_user α target (idMap target before) u messages
    have hmap : idMap target before = idMap target (before ++ [.user u]) := by
      rw [idMap_concat]
      unfold prepare
      split <;> rfl
    rw [hu, splits, ← tails_replayed messages, ← hmap]
    rfl
  | .toolResult r :: messages, before => by
    have hmap : idMap target before = idMap target (before ++ [.toolResult r]) := by
      rw [idMap_concat]
      unfold prepare
      split <;> rfl
    rw [replayed_toolResult, splits, ← tails_replayed messages, ← hmap]
    rfl
  | .assistant m :: messages, before => by
    have hmap : target.recordIds (idMap target before) (.assistant m.withContent)
        = idMap target (before ++ [.assistant m]) := by
      rw [idMap_concat, prepare_assistant]
    rw [replayed_assistant, hmap, splits, List.map_append,
      ← tails_replayed messages (before ++ [Message.assistant m]), tails]
    show (if m.failed then _ else _) ++ _ = _
    split <;> rfl

theorem userTails_replayed : ∀ (messages : List (Message α))
    (toolCallIdMap : JsMap JsString JsString),
    ∀ b ∈ userTails (target.replayed toolCallIdMap messages),
    ∃ c ∈ userTails messages, ∃ toolCallIdMap', b = target.replayed toolCallIdMap' c
  | [], _, b, hb => by cases hb
  | .user u :: messages, toolCallIdMap, b, hb => by
    obtain ⟨u', hu⟩ := @replayed_user α target toolCallIdMap u messages
    rw [hu] at hb
    rcases List.mem_cons.mp hb with rfl | hb
    · exact ⟨messages, List.mem_cons_self, _, rfl⟩
    · obtain ⟨c, hc, h⟩ := userTails_replayed messages _ b hb
      exact ⟨c, List.mem_cons_of_mem _ hc, h⟩
  | .assistant m :: messages, toolCallIdMap, b, hb => by
    rw [replayed_assistant] at hb
    exact userTails_replayed messages _ b hb
  | .toolResult r :: messages, toolCallIdMap, b, hb => by
    rw [replayed_toolResult] at hb
    exact userTails_replayed messages _ b hb

theorem noLoose_replayed {messages : List (Message α)} (h : NoLoose messages) :
    NoLoose (target.replayed toolCallIdMap messages) := by
  have hleading : ∀ {c : List (Message α)} (toolCallIdMap' : JsMap JsString JsString),
      leading c = [] → leading (target.replayed toolCallIdMap' c) = [] := by
    intro c toolCallIdMap' hc
    have hlength := @length_leading_replayed α target c toolCallIdMap'
    rw [hc] at hlength
    exact List.length_eq_zero_iff.mp hlength
  refine ⟨hleading _ h.front, fun b hb => ?_⟩
  obtain ⟨c, hc, toolCallIdMap', rfl⟩ := userTails_replayed messages _ b hb
  exact hleading toolCallIdMap' (h.users c hc)

theorem toolCalls_transformAssistant (m : AssistantMessage α) :
    (target.transformAssistant m).toolCalls = m.toolCalls.map (target.transformToolCall m) := by
  unfold AssistantMessage.toolCalls transformAssistant
  rw [Option.getD_some]
  induction m.content.getD [] with
  | nil => rfl
  | cons block content ih =>
    rw [List.flatMap_cons, List.filterMap_append, ih, List.filterMap_cons]
    cases block with
    | toolCall block => rfl
    | text block =>
      simp only [transformBlock]
      split <;> rfl
    | thinking block =>
      simp only [transformBlock]
      split
      · split <;> rfl
      · split
        · rfl
        · split
          · rfl
          · split <;> rfl

theorem callIds_transformAssistant (m : AssistantMessage α) :
    (target.transformAssistant m.withContent).callIds = m.callIds.map (target.outputId m) := by
  have hcalls : m.withContent.toolCalls = m.toolCalls := rfl
  unfold AssistantMessage.callIds
  rw [toolCalls_transformAssistant, hcalls, List.map_map, List.map_map]
  rfl

end First

/-! ## One turn -/

section Turn

variable {target} {m : AssistantMessage α} {before after : List (Message α)}

/-- The results behind a message that has not failed, as they are replayed. -/
def replayedTurn (target : Target α) (before : List (Message α)) (m : AssistantMessage α)
    (after : List (Message α)) : AssistantMessage α × List ToolResultMessage :=
  let m' := target.transformAssistant m.withContent
  let after' := target.replayed (idMap target before) after
  (m', direct after' ++ target.syntheticResults m'.toolCalls ((direct after').map (·.toolCallId))
    ++ later after')

theorem ids_syntheticResults (calls : List (ToolCall α)) (existing : List JsString) :
    (target.syntheticResults calls existing).map (·.toolCallId)
      = (calls.map (·.id)).filter fun id => id ∉ existing := by
  rw [syntheticResults, List.map_map, List.filter_map]
  rfl

/-- If the calls have just their results, then no result stands behind a failed message. -/
theorem later_of_once (hcalls : (target.transformAssistant m.withContent).callIds.Nodup)
    (honce : ((replayedTurn target before m after).2.map (·.toolCallId)).Perm
      (target.transformAssistant m.withContent).callIds) :
    later after = [] := by
  have hlength := honce.length_eq
  rw [replayedTurn, List.map_append, List.map_append, ids_syntheticResults, List.length_append,
    List.length_append, List.length_map, List.length_map, length_later_replayed] at hlength
  -- the calls with a result are not more than the results
  have hexisting : ∀ existing : List JsString,
      ((target.transformAssistant m.withContent).callIds.filter (· ∈ existing)).length
        ≤ existing.length := fun existing =>
    ((hcalls.filter _).subperm fun id hid => of_decide_eq_true (List.mem_filter.mp hid).2).length_le
  have hexisting := hexisting
    ((direct (target.replayed (idMap target before) after)).map (·.toolCallId))
  rw [List.length_map] at hexisting
  have hsplit := List.length_eq_length_filter_add
    (l := (target.transformAssistant m.withContent).callIds)
    fun id => decide (id ∈ (direct (target.replayed (idMap target before) after)).map
      (·.toolCallId))
  have hsame : (target.transformAssistant m.withContent).toolCalls.map (·.id)
      = (target.transformAssistant m.withContent).callIds := rfl
  simp only [hsame, decide_not] at hlength hsplit hexisting
  exact List.length_eq_zero_iff.mp (by omega)

theorem later_replayed (h : later after = []) :
    later (target.replayed (idMap target before) after) = [] := by
  have hlength := @length_later_replayed α target (idMap target before) after
  rw [h] at hlength
  exact List.length_eq_zero_iff.mp hlength

theorem leading_of_later (h : later after = []) : leading after = direct after := by
  rw [direct_append_later, h, List.append_nil]

/-- A turn is replayed if and only if it is answered at once and the last renamings are its own. -/
theorem replayedTurn_iff (hcalls : m.callIds.Nodup)
    (hinjective : ∀ i ∈ m.callIds, ∀ j ∈ m.callIds,
      target.outputId m i = target.outputId m j → i = j)
    (hanswers : ∀ r ∈ leading after, r.toolCallId ∈ m.callIds)
    (honce : ((leading after).map (·.toolCallId)).Nodup) :
    target.Replays (m, leading after) (replayedTurn target before m after) ↔
      later after = [] ∧ ∀ r ∈ leading after,
        resultId (target.lastRenaming before r.toolCallId) r.toolCallId
          = target.outputId m r.toolCallId := by
  have hids := @callIds_transformAssistant α target m
  have hcalls' : (target.transformAssistant m.withContent).callIds.Nodup := by
    rw [hids]
    exact hcalls.map_on hinjective
  have hdirect := @direct_replayed α target (idMap target before) after
  constructor
  · intro h
    have hlater := later_of_once hcalls' h.once
    refine ⟨hlater, ?_⟩
    obtain ⟨added, hadded⟩ := h.attached
    rw [replayedTurn, later_replayed hlater, List.append_nil, hdirect, leading_of_later hlater]
      at hadded
    have hsame := (List.append_inj hadded (by rw [List.length_map, List.length_map])).1
    rw [leading_of_later hlater]
    intro r hr
    have hid := congrArg ToolResultMessage.toolCallId (List.map_inj_left.mp hsame r hr)
    rw [renamed, attached, get?_idMap] at hid
    exact hid
  · rintro ⟨hlater, hown⟩
    rw [leading_of_later hlater] at hown hanswers honce ⊢
    have hattached : direct (target.replayed (idMap target before) after)
        = (direct after).map (target.attached m) := by
      rw [hdirect]
      refine List.map_congr_left fun r hr => ?_
      rw [renamed, attached, get?_idMap, hown r hr]
    have hturn : (replayedTurn target before m after).2 = (direct after).map (target.attached m)
        ++ target.syntheticResults (target.transformAssistant m.withContent).toolCalls
            (((direct after).map (target.attached m)).map (·.toolCallId)) := by
      rw [replayedTurn, later_replayed hlater, List.append_nil, hattached]
    refine ⟨hids, ?_, ⟨_, hturn⟩⟩
    have hresults : ((direct after).map (target.attached m)).map (·.toolCallId)
        = ((direct after).map (·.toolCallId)).map (target.outputId m) := by
      rw [List.map_map, List.map_map]
      rfl
    have hmem : ∀ id ∈ (direct after).map (·.toolCallId), id ∈ m.callIds := by
      intro id hid
      obtain ⟨r, hr, rfl⟩ := List.mem_map.mp hid
      exact hanswers r hr
    rw [hturn, List.map_append, ids_syntheticResults, hresults]
    show (_ ++ (target.transformAssistant m.withContent).callIds.filter _).Perm
      (target.transformAssistant m.withContent).callIds
    have hnodup : (((direct after).map (·.toolCallId)).map (target.outputId m)).Nodup :=
      honce.map_on fun i hi j hj => hinjective i (hmem i hi) j (hmem j hj)
    refine (List.perm_ext_iff_of_nodup ?_ hcalls').mpr fun id => ?_
    · refine List.nodup_append.mpr ⟨hnodup, hcalls'.filter _, ?_⟩
      intro i hi j hj hij
      exact of_decide_eq_true (List.mem_filter.mp hj).2 (hij ▸ hi)
    · rw [List.mem_append, List.mem_filter, decide_eq_true_iff]
      constructor
      · rintro (hid | ⟨hid, -⟩)
        · obtain ⟨i, hi, rfl⟩ := List.mem_map.mp hid
          rw [hids]
          exact List.mem_map_of_mem (hmem i hi)
        · exact hid
      · intro hid
        by_cases hreal : id ∈ ((direct after).map (·.toolCallId)).map (target.outputId m)
        · exact .inl hreal
        · exact .inr ⟨hid, hreal⟩

end Turn

/-! ## The whole history -/

/-- The turns of a replayed history. -/
theorem turns_transformMessages (messages : List (Message α)) :
    turns (target.transformMessages messages)
      = (splits [] messages).map fun t => replayedTurn target t.1 t.2.1 t.2.2 := by
  have hempty : (JsMap.empty : JsMap JsString JsString) = idMap target [] := rfl
  rw [transformMessages_eq, tails_insertResults, hempty, tails_replayed, List.map_map]
  rfl

theorem turns_eq_splits (messages : List (Message α)) :
    turns messages = (splits [] messages).map fun t => (t.2.1, leading t.2.2) := by
  rw [turns, tails_eq_splits messages [], List.map_map]
  rfl

theorem faithful_iff (messages : List (Message α)) :
    target.Faithful messages ↔ ∀ t ∈ splits [] messages, later t.2.2 = [] ∧
      ∀ r ∈ leading t.2.2, resultId (target.lastRenaming t.1 r.toolCallId) r.toolCallId
        = target.outputId t.2.1 r.toolCallId := by
  constructor
  · rintro h ⟨a, m, b⟩ ht
    obtain ⟨front, hmessages, rfl, hfailed⟩ := mem_splits.mp ht
    exact h front m b hmessages hfailed
  · intro h front m b hmessages hfailed
    exact h (front ++ [.assistant m], m, b) (mem_splits.mpr ⟨front, hmessages, rfl, hfailed⟩)

/-- **Replayed histories.** For a history whose results answer its calls: in what it is replayed
as, every call is answered by exactly its result if and only if every message is answered before
the next one, and the id of each result has last been renamed as that of its call. -/
theorem transformMessages_paired_iff (target : Target α) (messages : List (Message α))
    (hanswered : Answered messages)
    (hinjective : ∀ m, .assistant m ∈ messages → ∀ i ∈ m.callIds, ∀ j ∈ m.callIds,
      target.outputId m i = target.outputId m j → i = j) :
    target.Paired messages (target.transformMessages messages) ↔ target.Faithful messages := by
  have hturn : ∀ t ∈ splits [] messages,
      (target.Replays (t.2.1, leading t.2.2) (replayedTurn target t.1 t.2.1 t.2.2) ↔
        later t.2.2 = [] ∧ ∀ r ∈ leading t.2.2,
          resultId (target.lastRenaming t.1 r.toolCallId) r.toolCallId
            = target.outputId t.2.1 r.toolCallId) := by
    rintro ⟨a, m, b⟩ ht
    obtain ⟨front, hmessages, -, -⟩ := mem_splits.mp ht
    have hmem : (m, leading b) ∈ turns messages := by
      rw [turns_eq_splits]
      exact List.mem_map.mpr ⟨_, ht, rfl⟩
    have hassistant : .assistant m ∈ messages := by
      rw [hmessages]
      exact List.mem_append_right _ List.mem_cons_self
    exact replayedTurn_iff (hanswered.calls _ hmem) (hinjective m hassistant)
      (hanswered.answers _ hmem) (hanswered.once _ hmem)
  have hturns : List.Forall₂ target.Replays (turns messages)
        (turns (target.transformMessages messages)) ↔
      ∀ t ∈ splits [] messages,
        target.Replays (t.2.1, leading t.2.2) (replayedTurn target t.1 t.2.1 t.2.2) := by
    rw [turns_eq_splits, turns_transformMessages, List.forall₂_map_left_iff,
      List.forall₂_map_right_iff, List.forall₂_same]
  rw [faithful_iff]
  constructor
  · intro h t ht
    exact (hturn t ht).mp (hturns.mp h.turns t ht)
  · intro h
    refine ⟨fun m hm => ?_, ?_, hturns.mpr fun t ht => (hturn t ht).mpr (h t ht)⟩
    · rw [transformMessages_eq] at hm
      exact succeeded_insertResults _ _ _ m hm
    · rw [transformMessages_eq]
      exact noLoose_insertResults (noLoose_replayed hanswered.noLoose)

/-! ## A repeated id -/

/-- A message with one call. -/
def calling (model id : JsString) : Message Unit :=
  .assistant ⟨some [.toolCall ⟨id, js "read", (), none, none⟩], js "messages", js "one", model,
    .toolUse, 0⟩

def answering (id : JsString) : Message Unit :=
  .toolResult ⟨id, js "read", some [.text ⟨js "text", none⟩], false, 0⟩

/-- A model, with a normalization that marks the ids of other models. -/
def markingTarget : Target Unit :=
  ⟨⟨js "one", js "messages", js "big", [js "text"]⟩, some fun id _ _ => js "t_" ++ id, 0⟩

/-- The messages of the target's model come first. -/
def sampleHistory : List (Message Unit) :=
  [calling (js "big") (js "a"), answering (js "a"), calling (js "small") (js "a"),
    answering (js "a")]

/-- The messages of the target's model come last, with an id that has been renamed. -/
def repeatedHistory : List (Message Unit) :=
  [calling (js "small") (js "a"), answering (js "a"), calling (js "big") (js "a"),
    answering (js "a")]

theorem answered_sample (first second : JsString) :
    Answered [calling first (js "a"), answering (js "a"), calling second (js "a"),
      answering (js "a")] where
  noLoose := ⟨rfl, fun _ hb => by cases hb⟩
  calls := by
    rintro t ht
    simp [turns, tails, calling, answering, AssistantMessage.failed] at ht
    rcases ht with rfl | rfl <;> simp [AssistantMessage.callIds, AssistantMessage.toolCalls]
  answers := by
    rintro t ht
    simp [turns, tails, leading, calling, answering, AssistantMessage.failed] at ht
    rcases ht with rfl | rfl <;> simp [AssistantMessage.callIds, AssistantMessage.toolCalls]
  once := by
    rintro t ht
    simp [turns, tails, leading, calling, answering, AssistantMessage.failed] at ht
    rcases ht with rfl | rfl <;> simp

theorem sampleHistory_paired :
    markingTarget.Paired sampleHistory (markingTarget.transformMessages sampleHistory) := by
  refine (transformMessages_paired_iff markingTarget sampleHistory (answered_sample _ _) ?_).mpr ?_
  · intro m hm i hi j hj _
    simp [sampleHistory, calling, answering] at hm
    rcases hm with rfl | rfl <;>
      simp [AssistantMessage.callIds, AssistantMessage.toolCalls] at hi hj <;> rw [hi, hj]
  · rw [faithful_iff]
    decide

/-- The result behind the second call gets the id of the first one. -/
theorem repeatedHistory_not_paired : Answered repeatedHistory ∧
    ¬ markingTarget.Paired repeatedHistory (markingTarget.transformMessages repeatedHistory) := by
  refine ⟨answered_sample _ _, fun h => ?_⟩
  have hturns := h.turns
  obtain ⟨first, second, hsource, hreplayed, hlength⟩ : ∃ first second,
      turns repeatedHistory = first ∧
      turns (markingTarget.transformMessages repeatedHistory) = second ∧
      (second[1]?.map fun t => (t.2.length, t.1.callIds.length)) = some (2, 1) :=
    ⟨_, _, rfl, rfl, by decide⟩
  rw [hsource, hreplayed] at hturns
  obtain ⟨t, ht, hcounts⟩ := Option.map_eq_some_iff.mp hlength
  obtain ⟨hindex, rfl⟩ := List.getElem?_eq_some_iff.mp ht
  have hperm := (List.forall₂_iff_get.mp hturns).2 1
    ((List.forall₂_iff_get.mp hturns).1 ▸ hindex) hindex
  have hcount := hperm.once.length_eq
  rw [List.length_map] at hcount
  obtain ⟨htwo, hone⟩ := Prod.mk.inj hcounts
  simp only [List.get_eq_getElem] at hcount
  omega

end Target

end PiMono.Ai
