import PiMono.Agent.AgentLoop
import PiMono.Lib.CodeUnits

/-!
# The displayed queue

The lists `_steeringMessages` and `_followUpMessages` that `AgentSession` keeps beside the queues of
its agent (`coding-agent/src/core/agent-session.ts`, with the queues and `continue` of
`agent/src/agent.ts` and the polls of `agent-loop.ts`). They are the texts of the queues in every
run in which no empty text is queued and the text of every delivered message is found where it was
queued (`queues_displayed`).
-/

namespace PiMono.CodingAgent.QueueMirror

open PiMono.Agent (PendingMessageQueue QueueMode)

variable {ι : Type}

/-! ## Messages -/

inductive Content (ι : Type) where
  | text (text : JsString)
  | image (image : ι)
  deriving DecidableEq

inductive AgentMessage (ι : Type) where
  | user (content : List (Content ι))
  | custom (content : List (Content ι))
  deriving DecidableEq

/-- `contentText(content, "")` -/
def contentText (content : List (Content ι)) : JsString :=
  content.flatMap fun
    | .text text => text
    | .image _ => []

/-- What `_queueSteer`, `_queueFollowUp` and `prompt` send. -/
def userMessage (text : JsString) (images : List ι) : AgentMessage ι :=
  .user (.text text :: images.map .image)

/-- The text of a user message. -/
def AgentMessage.userText? : AgentMessage ι → Option JsString
  | .user content => some (contentText content)
  | .custom _ => none

inductive Source where
  | prompt
  | steering
  | followUp
  deriving DecidableEq

/-- A message in front of its `message_start`. `cleared` records that `clearQueue` ran since it was
drained. -/
structure Taken (ι : Type) where
  message : AgentMessage ι
  source : Source
  cleared : Bool := false
  deriving DecidableEq

/-! ## The session -/

/-- `taken` are the messages of the agent's run that are still to be delivered. -/
structure AgentSession (ι : Type) where
  steeringMessages : List JsString
  followUpMessages : List JsString
  steeringQueue : PendingMessageQueue (AgentMessage ι)
  followUpQueue : PendingMessageQueue (AgentMessage ι)
  taken : List (Taken ι)
  isAgentRunActive : Bool
  deriving DecidableEq

/-- What the session's extensions and templates do with a text. -/
structure Texts where
  -- `getCommand` finds the command that the text names
  isExtensionCommand : JsString → Bool
  -- `_expandSkillCommand` and `expandPromptTemplate`
  expand : JsString → JsString

inductive StreamingBehavior where
  | steer
  | followUp
  deriving DecidableEq

inductive Event (ι : Type) where
  | steer (text : JsString) (images : List ι)
  | followUp (text : JsString) (images : List ι)
  | prompt (text : JsString) (images : List ι) (streamingBehavior : Option StreamingBehavior)
    (customMessages : List (List (Content ι)))
  | sendCustomMessage (content : List (Content ι)) (deliverAs : StreamingBehavior)
  | clearQueue
  | abort
  | setSteeringMode (mode : QueueMode)
  | setFollowUpMode (mode : QueueMode)
  -- the polls of the agent's loop
  | getSteeringMessages
  | getFollowUpMessages
  | continue (afterAssistant : Bool)
  -- the `message_start` of the next message
  | messageStart
  | agentSettled
  deriving DecidableEq

namespace AgentSession

def initial (steeringMode followUpMode : QueueMode) : AgentSession ι :=
  ⟨[], [], ⟨[], steeringMode⟩, ⟨[], followUpMode⟩, [], false⟩

def queueSteer (s : AgentSession ι) (text : JsString) (images : List ι) : AgentSession ι :=
  { s with
    steeringMessages := s.steeringMessages ++ [text]
    steeringQueue := s.steeringQueue.enqueue (userMessage text images) }

def queueFollowUp (s : AgentSession ι) (text : JsString) (images : List ι) : AgentSession ι :=
  { s with
    followUpMessages := s.followUpMessages ++ [text]
    followUpQueue := s.followUpQueue.enqueue (userMessage text images) }

def clearQueue (s : AgentSession ι) : AgentSession ι :=
  { s with
    steeringMessages := []
    followUpMessages := []
    steeringQueue := { s.steeringQueue with messages := [] }
    followUpQueue := { s.followUpQueue with messages := [] }
    taken := s.taken.map fun taken => { taken with cleared := true } }

def drainSteering (s : AgentSession ι) : AgentSession ι :=
  { s with
    steeringQueue := s.steeringQueue.drain.2
    taken := s.steeringQueue.drain.1.map fun message => ⟨message, .steering, false⟩ }

def drainFollowUps (s : AgentSession ι) : AgentSession ι :=
  { s with
    followUpQueue := s.followUpQueue.drain.2
    taken := s.followUpQueue.drain.1.map fun message => ⟨message, .followUp, false⟩ }

/-- `_handleAgentEvent`, for the `message_start` of a message. -/
def handleMessageStart (s : AgentSession ι) (message : AgentMessage ι) : AgentSession ι :=
  match message.userText? with
  | none => s
  | some messageText =>
    if messageText = [] then s
    else if messageText ∈ s.steeringMessages then
      { s with steeringMessages := s.steeringMessages.erase messageText }
    else if messageText ∈ s.followUpMessages then
      { s with followUpMessages := s.followUpMessages.erase messageText }
    else s

def pendingMessageCount (s : AgentSession ι) : Nat :=
  s.steeringMessages.length + s.followUpMessages.length

/-- One step, unless it cannot happen. The agent's loop polls when it holds no message. -/
def step (texts : Texts) (s : AgentSession ι) : Event ι → Option (AgentSession ι)
  | .steer text images =>
    some (if texts.isExtensionCommand text then s else s.queueSteer (texts.expand text) images)
  | .followUp text images =>
    some (if texts.isExtensionCommand text then s else s.queueFollowUp (texts.expand text) images)
  | .prompt text images streamingBehavior customMessages =>
    some <|
      if texts.isExtensionCommand text then s
      else if s.isAgentRunActive then
        match streamingBehavior with
        | none => s
        | some .followUp => s.queueFollowUp (texts.expand text) images
        | some .steer => s.queueSteer (texts.expand text) images
      else
        { s with
          taken := ⟨userMessage (texts.expand text) images, .prompt, false⟩ ::
            customMessages.map fun content => ⟨.custom content, .prompt, false⟩
          isAgentRunActive := true }
  | .sendCustomMessage content deliverAs =>
    some <|
      if s.isAgentRunActive then
        match deliverAs with
        | .followUp => { s with followUpQueue := s.followUpQueue.enqueue (.custom content) }
        | .steer => { s with steeringQueue := s.steeringQueue.enqueue (.custom content) }
      else s
  | .clearQueue => some s.clearQueue
  -- the run sees the signal and goes on to its end
  | .abort => some s
  | .setSteeringMode mode => some { s with steeringQueue := { s.steeringQueue with mode := mode } }
  | .setFollowUpMode mode => some { s with followUpQueue := { s.followUpQueue with mode := mode } }
  | .getSteeringMessages =>
    if s.isAgentRunActive ∧ s.taken = [] then some s.drainSteering else none
  | .getFollowUpMessages =>
    if s.isAgentRunActive ∧ s.taken = [] then some s.drainFollowUps else none
  | .continue afterAssistant =>
    if s.isAgentRunActive ∧ s.taken = [] then
      some <|
        if afterAssistant then
          if s.steeringQueue.drain.1 ≠ [] then s.drainSteering else s.drainFollowUps
        else s
    else none
  | .messageStart =>
    match s.taken with
    | [] => none
    | next :: rest => some ({ s with taken := rest }.handleMessageStart next.message)
  | .agentSettled =>
    if s.isAgentRunActive ∧ s.taken = [] then some { s with isAgentRunActive := false } else none

/-! ## The mirror -/

/-- The texts that `steer`, `followUp` and `prompt` queued. -/
def texts (messages : List (AgentMessage ι)) : List JsString := messages.filterMap (·.userText?)

/-- The messages of a queue that were drained, not delivered and not cleared. -/
def undelivered (s : AgentSession ι) (source : Source) : List (AgentMessage ι) :=
  (s.taken.filter fun taken => taken.source = source ∧ taken.cleared = false).map (·.message)

/-- Every drained message is delivered. -/
def Delivered (s : AgentSession ι) : Prop := ∀ taken ∈ s.taken, taken.source = .prompt

/-- The lists that are displayed are the queues. -/
structure Displayed (s : AgentSession ι) : Prop where
  steering : s.steeringMessages = texts s.steeringQueue.messages
  followUp : s.followUpMessages = texts s.followUpQueue.messages
  count : s.pendingMessageCount = 0 ↔
    texts s.steeringQueue.messages = [] ∧ texts s.followUpQueue.messages = []

/-- The text of a message that is delivered is found where it was queued, or nowhere. -/
def Found (s : AgentSession ι) (next : Taken ι) : Prop :=
  ∀ text ∈ next.message.userText?, text ≠ [] →
    (next.source = .steering ∧ next.cleared = false) ∨ text ∉ s.steeringMessages ∧
      ((next.source = .followUp ∧ next.cleared = false) ∨ text ∉ s.followUpMessages)

/-- The step queues no empty text, and the text that it delivers is found where it was queued. -/
def Safe (texts : Texts) (s : AgentSession ι) : Event ι → Prop
  | .steer text _ | .followUp text _ =>
    texts.isExtensionCommand text = false → texts.expand text ≠ []
  | .prompt text _ streamingBehavior _ =>
    texts.isExtensionCommand text = false → s.isAgentRunActive = true →
      streamingBehavior ≠ none → texts.expand text ≠ []
  | .messageStart => ∀ next ∈ s.taken.head?, s.Found next
  | _ => True

instance (s : AgentSession ι) : Decidable s.Delivered :=
  inferInstanceAs (Decidable (∀ taken ∈ s.taken, taken.source = .prompt))

instance (s : AgentSession ι) (next : Taken ι) : Decidable (s.Found next) :=
  inferInstanceAs (Decidable (∀ text ∈ next.message.userText?, text ≠ [] → _))

instance (texts : Texts) (s : AgentSession ι) : (event : Event ι) → Decidable (s.Safe texts event)
  | .steer _ _ | .followUp _ _ => inferInstanceAs (Decidable (_ → _))
  | .prompt _ _ _ _ => inferInstanceAs (Decidable (_ → _ → _ → _))
  | .messageStart => inferInstanceAs (Decidable (∀ next ∈ s.taken.head?, s.Found next))
  | .sendCustomMessage _ _ | .clearQueue | .abort | .setSteeringMode _ | .setFollowUpMode _
  | .getSteeringMessages | .getFollowUpMessages | .continue _ | .agentSettled => .isTrue trivial

/-- What every safe step keeps: the lists are the texts of what was drained and not delivered, and
of what is queued. -/
structure Mirrors (s : AgentSession ι) : Prop where
  steering : s.steeringMessages = texts (s.undelivered .steering ++ s.steeringQueue.messages)
  followUp : s.followUpMessages = texts (s.undelivered .followUp ++ s.followUpQueue.messages)
  written : ∀ text ∈ s.steeringMessages ++ s.followUpMessages, text ≠ []
  settled : s.isAgentRunActive = false → s.taken = []

theorem texts_append (as bs : List (AgentMessage ι)) : texts (as ++ bs) = texts as ++ texts bs :=
  List.filterMap_append

theorem texts_userMessage (text : JsString) (images : List ι) :
    texts [userMessage text images] = [text] := by
  have himages : (images.map Content.image).flatMap
      (fun | .text text => text | .image _ => ([] : JsString)) = [] := by
    induction images with
    | nil => rfl
    | cons image images ih => exact ih
  have htext : contentText (.text text :: images.map .image) = text := by
    rw [contentText, List.flatMap_cons, himages, List.append_nil]
  rw [texts, List.filterMap_cons, userMessage, AgentMessage.userText?, htext]
  rfl

variable {s t : AgentSession ι} {texts : Texts}

/-- Nothing is undelivered while the run holds nothing. -/
theorem undelivered_of_taken (h : s.taken = []) (source : Source) : s.undelivered source = [] := by
  rw [undelivered, h]
  rfl

theorem Mirrors.queueSteer (h : Mirrors s) {text : JsString} (htext : text ≠ []) (images : List ι) :
    Mirrors (s.queueSteer text images) where
  steering := by
    change s.steeringMessages ++ [text] = AgentSession.texts
      (s.undelivered .steering ++ (s.steeringQueue.messages ++ [userMessage text images]))
    rw [h.steering, ← List.append_assoc, texts_append _ [_], texts_userMessage]
  followUp := h.followUp
  written := by
    intro other hother
    simp only [AgentSession.queueSteer, List.mem_append, List.mem_singleton] at hother
    obtain (hother | rfl) | hother := hother
    · exact h.written other (List.mem_append_left _ hother)
    · exact htext
    · exact h.written other (List.mem_append_right _ hother)
  settled := h.settled

theorem Mirrors.queueFollowUp (h : Mirrors s) {text : JsString} (htext : text ≠ [])
    (images : List ι) : Mirrors (s.queueFollowUp text images) where
  steering := h.steering
  followUp := by
    change s.followUpMessages ++ [text] = AgentSession.texts
      (s.undelivered .followUp ++ (s.followUpQueue.messages ++ [userMessage text images]))
    rw [h.followUp, ← List.append_assoc, texts_append _ [_], texts_userMessage]
  written := by
    intro other hother
    simp only [AgentSession.queueFollowUp, ← List.append_assoc] at hother
    obtain hother | hother := List.mem_append.mp hother
    · exact h.written other hother
    · exact List.mem_singleton.mp hother ▸ htext
  settled := h.settled

/-- Nothing that was drained before is in the lists. -/
theorem Mirrors.clearQueue (h : Mirrors s) : Mirrors s.clearQueue := by
  have hnone : ∀ source, s.clearQueue.undelivered source = [] := by
    intro source
    simp only [undelivered, AgentSession.clearQueue, List.map_eq_nil_iff, List.filter_eq_nil_iff]
    rintro taken htaken
    obtain ⟨before, -, rfl⟩ := List.mem_map.mp htaken
    simp
  refine ⟨by rw [hnone]; rfl, by rw [hnone]; rfl, by simp [AgentSession.clearQueue], ?_⟩
  intro hactive
  simp only [AgentSession.clearQueue, h.settled hactive, List.map_nil]

theorem undelivered_drained (messages : List (AgentMessage ι)) (source other : Source)
    (htaken : s.taken = messages.map fun message => ⟨message, source, false⟩) :
    s.undelivered other = if other = source then messages else [] := by
  rw [undelivered, htaken]
  split
  · rename_i heq
    subst heq
    rw [List.filter_eq_self.mpr (by simp), List.map_map]
    exact List.map_id' messages
  · rename_i hne
    rw [List.filter_eq_nil_iff.mpr (by simpa using fun _ _ => Ne.symm hne)]
    rfl

theorem Mirrors.drainSteering (h : Mirrors s) (htaken : s.taken = [])
    (hactive : s.isAgentRunActive = true) : Mirrors s.drainSteering where
  steering := by
    rw [undelivered_drained s.steeringQueue.drain.1 .steering .steering rfl, if_pos rfl]
    change s.steeringMessages = AgentSession.texts (_ ++ s.steeringQueue.drain.2.messages)
    rw [PendingMessageQueue.drain_append, h.steering, undelivered_of_taken htaken, List.nil_append]
  followUp := by
    rw [undelivered_drained s.steeringQueue.drain.1 .steering .followUp rfl, if_neg nofun]
    exact h.followUp.trans (by rw [undelivered_of_taken htaken]; rfl)
  written := h.written
  settled := fun hidle => absurd (hactive.symm.trans hidle) nofun

theorem Mirrors.drainFollowUps (h : Mirrors s) (htaken : s.taken = [])
    (hactive : s.isAgentRunActive = true) : Mirrors s.drainFollowUps where
  steering := by
    rw [undelivered_drained s.followUpQueue.drain.1 .followUp .steering rfl, if_neg nofun]
    exact h.steering.trans (by rw [undelivered_of_taken htaken]; rfl)
  followUp := by
    rw [undelivered_drained s.followUpQueue.drain.1 .followUp .followUp rfl, if_pos rfl]
    change s.followUpMessages = AgentSession.texts (_ ++ s.followUpQueue.drain.2.messages)
    rw [PendingMessageQueue.drain_append, h.followUp, undelivered_of_taken htaken, List.nil_append]
  written := h.written
  settled := fun hidle => absurd (hactive.symm.trans hidle) nofun

/-- The message that is delivered is the first of its queue that was not. -/
theorem undelivered_cons {next : Taken ι} {rest : List (Taken ι)} (h : s.taken = next :: rest)
    (source : Source) :
    s.undelivered source =
      (if next.source = source ∧ next.cleared = false then [next.message] else []) ++
        { s with taken := rest }.undelivered source := by
  rw [undelivered, h, List.filter_cons]
  split
  · rename_i hnext
    rw [if_pos (of_decide_eq_true hnext)]
    rfl
  · rename_i hnext
    rw [if_neg (by simpa using hnext)]
    rfl

/-- The text of a delivered message, if it was queued by the list that it is looked for in. -/
theorem texts_delivered {next : Taken ι} {text : JsString}
    (htext : next.message.userText? = some text) (p : Prop) [Decidable p] :
    AgentSession.texts (if p then [next.message] else []) = if p then [text] else [] := by
  split
  · rw [AgentSession.texts, List.filterMap_cons, htext]
    rfl
  · rfl

theorem Mirrors.messageStart (h : Mirrors s) {next : Taken ι} {rest : List (Taken ι)}
    (htaken : s.taken = next :: rest) (hfound : s.Found next) :
    Mirrors ({ s with taken := rest }.handleMessageStart next.message) := by
  have hsteering := h.steering
  have hfollowUp := h.followUp
  have hsettled : s.isAgentRunActive = false → rest = [] := fun hidle =>
    absurd (htaken.symm.trans (h.settled hidle)) (List.cons_ne_nil _ _)
  rw [undelivered_cons htaken, List.append_assoc, texts_append] at hsteering hfollowUp
  rw [handleMessageStart]
  cases htext : next.message.userText? with
  | none =>
    have hnone : ∀ source : Source, AgentSession.texts
        (if next.source = source ∧ next.cleared = false then [next.message] else []) = [] := by
      intro source
      split
      · rw [AgentSession.texts, List.filterMap_cons, htext]
        rfl
      · rfl
    rw [hnone, List.nil_append] at hsteering hfollowUp
    exact ⟨hsteering, hfollowUp, h.written, hsettled⟩
  | some text =>
    rw [texts_delivered htext] at hsteering hfollowUp
    dsimp only
    by_cases hempty : text = []
    · -- an empty text is in no list
      have hnone : ∀ {source : Source} {texts others : List JsString},
          texts = (if next.source = source ∧ next.cleared = false then [text] else []) ++ others →
            (∀ text ∈ texts, text ≠ []) → texts = others := by
        intro source texts others heq hwritten
        split at heq
        · exact absurd hempty (hwritten text (heq ▸ List.mem_cons_self))
        · exact heq
      rw [if_pos hempty]
      exact ⟨hnone hsteering fun text htext => h.written text (List.mem_append_left _ htext),
        hnone hfollowUp fun text htext => h.written text (List.mem_append_right _ htext),
        h.written, hsettled⟩
    · rw [if_neg hempty]
      obtain hsource | ⟨hout, hfollow⟩ := hfound text htext hempty
      · rw [if_pos hsource, List.singleton_append] at hsteering
        rw [if_neg fun hother => by simp [hsource.1] at hother, List.nil_append] at hfollowUp
        rw [if_pos (hsteering ▸ List.mem_cons_self)]
        refine ⟨?_, hfollowUp, ?_, hsettled⟩
        · change s.steeringMessages.erase text = _
          rw [hsteering, List.erase_cons_head]
          rfl
        · intro other hother
          refine h.written other ?_
          obtain hother | hother := List.mem_append.mp hother
          · exact List.mem_append_left _ (List.mem_of_mem_erase hother)
          · exact List.mem_append_right _ hother
      · rw [if_neg hout]
        have hsteering' : s.steeringMessages = AgentSession.texts
            ({ s with taken := rest }.undelivered .steering ++ s.steeringQueue.messages) := by
          split at hsteering
          · exact absurd (hsteering ▸ List.mem_cons_self) hout
          · exact hsteering
        obtain hsource | hout' := hfollow
        · rw [if_pos hsource, List.singleton_append] at hfollowUp
          rw [if_pos (hfollowUp ▸ List.mem_cons_self)]
          refine ⟨hsteering', ?_, ?_, hsettled⟩
          · change s.followUpMessages.erase text = _
            rw [hfollowUp, List.erase_cons_head]
            rfl
          · intro other hother
            refine h.written other ?_
            obtain hother | hother := List.mem_append.mp hother
            · exact List.mem_append_left _ hother
            · exact List.mem_append_right _ (List.mem_of_mem_erase hother)
        · rw [if_neg hout']
          refine ⟨hsteering', ?_, h.written, hsettled⟩
          split at hfollowUp
          · exact absurd (hfollowUp ▸ List.mem_cons_self) hout'
          · exact hfollowUp

/-- Every safe step keeps the mirror. -/
theorem Mirrors.step {event : Event ι} (h : Mirrors s) (hsafe : s.Safe texts event)
    (hstep : s.step texts event = some t) : Mirrors t := by
  cases event with
  | steer text images =>
    obtain rfl := Option.some.inj hstep
    split
    · exact h
    · rename_i hcommand
      exact h.queueSteer (hsafe (by simpa using hcommand)) images
  | followUp text images =>
    obtain rfl := Option.some.inj hstep
    split
    · exact h
    · rename_i hcommand
      exact h.queueFollowUp (hsafe (by simpa using hcommand)) images
  | prompt text images streamingBehavior customMessages =>
    obtain rfl := Option.some.inj hstep
    split
    · exact h
    rename_i hcommand
    have hwritten := hsafe (by simpa using hcommand)
    split
    · rename_i hactive
      split
      · exact h
      · exact h.queueFollowUp (hwritten hactive nofun) images
      · exact h.queueSteer (hwritten hactive nofun) images
    · rename_i hidle
      have htaken := h.settled (by simpa using hidle)
      have hprompt : ∀ source, source ≠ .prompt → ∀ u : AgentSession ι,
          (∀ taken ∈ u.taken, taken.source = .prompt) → u.undelivered source = [] := by
        intro source hsource u hu
        rw [undelivered, List.map_eq_nil_iff, List.filter_eq_nil_iff]
        intro taken htaken
        simp [hu taken htaken, hsource.symm]
      have hsteering := h.steering
      have hfollowUp := h.followUp
      rw [undelivered_of_taken htaken] at hsteering hfollowUp
      refine ⟨?_, ?_, h.written, nofun⟩
      · rw [hprompt .steering nofun _ (by simp)]
        exact hsteering
      · rw [hprompt .followUp nofun _ (by simp)]
        exact hfollowUp
  | sendCustomMessage content deliverAs =>
    obtain rfl := Option.some.inj hstep
    have hcustom : ∀ messages : List (AgentMessage ι),
        AgentSession.texts (messages ++ [.custom content]) = AgentSession.texts messages := by
      intro messages
      rw [texts_append]
      exact List.append_nil _
    split
    · split
      · refine ⟨h.steering, ?_, h.written, h.settled⟩
        change s.followUpMessages = AgentSession.texts (_ ++ (_ ++ [_]))
        rw [← List.append_assoc, hcustom]
        exact h.followUp
      · refine ⟨?_, h.followUp, h.written, h.settled⟩
        change s.steeringMessages = AgentSession.texts (_ ++ (_ ++ [_]))
        rw [← List.append_assoc, hcustom]
        exact h.steering
    · exact h
  | clearQueue =>
    obtain rfl := Option.some.inj hstep
    exact h.clearQueue
  | abort =>
    obtain rfl := Option.some.inj hstep
    exact h
  | setSteeringMode mode =>
    obtain rfl := Option.some.inj hstep
    exact ⟨h.steering, h.followUp, h.written, h.settled⟩
  | setFollowUpMode mode =>
    obtain rfl := Option.some.inj hstep
    exact ⟨h.steering, h.followUp, h.written, h.settled⟩
  | getSteeringMessages =>
    obtain ⟨⟨hactive, htaken⟩, hstep⟩ := Option.ite_none_right_eq_some.mp hstep
    obtain rfl := Option.some.inj hstep
    exact h.drainSteering htaken hactive
  | getFollowUpMessages =>
    obtain ⟨⟨hactive, htaken⟩, hstep⟩ := Option.ite_none_right_eq_some.mp hstep
    obtain rfl := Option.some.inj hstep
    exact h.drainFollowUps htaken hactive
  | «continue» afterAssistant =>
    obtain ⟨⟨hactive, htaken⟩, hstep⟩ := Option.ite_none_right_eq_some.mp hstep
    obtain rfl := Option.some.inj hstep
    split
    · split
      · exact h.drainSteering htaken hactive
      · exact h.drainFollowUps htaken hactive
    · exact h
  | messageStart =>
    rw [AgentSession.step] at hstep
    cases htaken : s.taken with
    | nil => rw [htaken] at hstep; cases hstep
    | cons next rest =>
      rw [htaken] at hstep
      obtain rfl := Option.some.inj hstep
      exact h.messageStart htaken (hsafe next (by rw [htaken]; rfl))
  | agentSettled =>
    obtain ⟨⟨hactive, htaken⟩, hstep⟩ := Option.ite_none_right_eq_some.mp hstep
    obtain rfl := Option.some.inj hstep
    exact ⟨h.steering, h.followUp, h.written, fun _ => htaken⟩

theorem Mirrors.initial (steeringMode followUpMode : QueueMode) :
    Mirrors (initial steeringMode followUpMode : AgentSession ι) :=
  ⟨rfl, rfl, nofun, fun _ => rfl⟩

/-- The lists are the queues once everything drained is delivered. -/
theorem Mirrors.displayed (h : Mirrors s) (hdelivered : s.Delivered) : s.Displayed := by
  have hnone : ∀ source, source ≠ .prompt → s.undelivered source = [] := by
    intro source hsource
    rw [undelivered, List.map_eq_nil_iff, List.filter_eq_nil_iff]
    intro taken htaken
    simp [hdelivered taken htaken, hsource.symm]
  have hsteering := h.steering
  have hfollowUp := h.followUp
  rw [hnone .steering nofun, List.nil_append] at hsteering
  rw [hnone .followUp nofun, List.nil_append] at hfollowUp
  refine ⟨hsteering, hfollowUp, ?_⟩
  rw [pendingMessageCount, hsteering, hfollowUp, Nat.add_eq_zero_iff, List.length_eq_zero_iff,
    List.length_eq_zero_iff]

/-- A run of steps that are safe. -/
def runSafe (texts : Texts) (s : AgentSession ι) (events : List (Event ι)) :
    Option (AgentSession ι) :=
  events.foldlM (fun s event => if s.Safe texts event then s.step texts event else none) s

/-- In every run of safe steps, the lists that are displayed are the queues whenever everything
drained is delivered. -/
theorem queues_displayed (texts : Texts) (steeringMode followUpMode : QueueMode)
    (events : List (Event ι)) (t : AgentSession ι)
    (hrun : runSafe texts (initial steeringMode followUpMode) events = some t)
    (hdelivered : t.Delivered) : t.Displayed := by
  have hmirrors : Mirrors t :=
    Runs.run_induction_if (fun _ _ _ (h : Mirrors _) hsafe hstep => h.step hsafe hstep) events
      (Mirrors.initial steeringMode followUpMode) hrun
  exact hmirrors.displayed hdelivered

/-- No extension commands, no templates. -/
def plainTexts : Texts where
  isExtensionCommand _ := false
  expand text := text

/-- Equal texts are steered, and one of them is delivered. -/
def steeredTwice : List (Event Unit) :=
  [.prompt (js "p") [] none [], .messageStart, .steer (js "a") [()], .steer (js "a") [],
    .followUp (js "b") [], .getSteeringMessages, .messageStart]

theorem queues_displayed_steeredTwice :
    ∃ t, runSafe plainTexts (initial .oneAtATime .all) steeredTwice = some t ∧
      t.pendingMessageCount = 2 ∧ t.Displayed :=
  ⟨_, rfl, rfl,
    queues_displayed plainTexts .oneAtATime .all steeredTwice _ rfl (by decide)⟩

/-- A steered text that is empty stays in the list. -/
theorem not_displayed_empty :
    ¬ ∀ (texts : Texts) (steeringMode followUpMode : QueueMode) (events : List (Event Unit))
      (t : AgentSession Unit),
      events.foldlM (step texts) (initial steeringMode followUpMode) = some t → t.Delivered →
        t.Displayed := by
  intro h
  have hdisplayed := h plainTexts .all .all
    [.prompt (js "p") [] none [], .messageStart, .steer [] [], .getSteeringMessages, .messageStart]
    _ rfl (by decide)
  exact absurd hdisplayed.steering (by decide)

end AgentSession

end PiMono.CodingAgent.QueueMirror
