import PiMono.Agent.AgentLoop

/-!
# Queued messages

`queued_delivered`: in every run of an agent whose listeners do not throw, a queue's messages are
those that were delivered, those that the active run holds, and those still queued. A run holds
none when it ends, and when it ends by itself it has found both queues empty.
-/

namespace PiMono.Agent

variable {μ : Type}

/-! ## Where a message is -/

/-- A message from a queue. -/
def AgentMessage.from? (o : Origin) : AgentMessage μ → Option μ
  | .user o' message => if o' = o then some message else none
  | _ => none

/-- The prompts of the active run that were not delivered. -/
def Control.prompts : Control μ → List (AgentMessage μ)
  | .agentStart prompts | .firstTurnStart prompts | .promptStart prompts => prompts
  | .promptEnd prompt prompts => prompt :: prompts
  | _ => []

namespace State

variable (s : State μ)

/-- What was delivered by the active run and those in front of it. -/
def ended : List (AgentMessage μ) := messageEnds (s.past ++ s.log)

/-- What the active run has drained, and not delivered. -/
def held : List (AgentMessage μ) := s.control.prompts ++ s.pendingMessages

def queued (o : Origin) : List μ :=
  match o with
  | .prompt => []
  | .steering => s.steeringQueue.messages
  | .followUp => s.followUpQueue.messages

/-- A queue's messages, wherever they are. -/
def account (o : Origin) : List μ := (s.ended ++ s.held).filterMap (·.from? o) ++ s.queued o

/-- The last polls of a run that comes to its end. -/
def Found : Prop :=
  match s.control with
  | .looping more => more = false → s.pendingMessages = [] → s.foundEmpty .steering = true
  | .followUps => s.foundEmpty .steering = true
  | .agentEnding reason | .finishing reason =>
    reason = .exhausted → s.foundEmpty .steering = true ∧ s.foundEmpty .followUp = true
  | _ => True

end State

/-- The listener of an event that the action emits throws. -/
def Action.throws : Action μ → Option String
  | .emit throws | .streamStart _ throws | .streamUpdate _ throws | .batch _ throws
  | .orphan _ _ throws => throws
  | _ => none

/-- Pending messages are being delivered. -/
def Control.delivers : Control μ → Bool
  | .looping _ | .turnStart | .injecting | .injected => true
  | _ => false

/-- In front of the first poll. -/
def Control.first : Control μ → Bool
  | .agentStart _ | .firstTurnStart _ | .promptStart _ | .promptEnd _ _ => true
  | .polling more => more
  | _ => false

/-- What every step keeps. -/
structure Queues (messages : List (AgentMessage μ)) (s : State μ) : Prop where
  kept : ∀ o, o ≠ .prompt → s.enqueued o = s.account o
  present : s.messages = messages ++ s.ended
  pending : s.pendingMessages ≠ [] → s.control.delivers = true
  skips : s.skipInitialSteeringPoll = true → s.control.first = true
  found : s.Found

variable {s t : State μ} {messages : List (AgentMessage μ)} {o : Origin}

/-! ## Events -/

theorem ended_emitted (event : AgentEvent μ) :
    (s.emitted event).ended = s.ended ++ event.ended?.toList := by
  rw [State.ended, State.past_emitted, State.log_emitted, ← List.append_assoc, messageEnds_append,
    messageEnds_singleton, State.ended]

/-- The event ends no message of a queue. -/
def AgentEvent.ownEnd (event : AgentEvent μ) : Prop :=
  ∀ message ∈ event.ended?, ∀ o, message.from? o = none

theorem filterMap_ownEnd {event : AgentEvent μ} (h : event.ownEnd) (o : Origin) :
    event.ended?.toList.filterMap (·.from? o) = [] := by
  cases hended : event.ended? with
  | none => rfl
  | some message =>
    rw [Option.toList_some, List.filterMap_cons, h message hended o]
    rfl

/-! ## Steps that drain nothing -/

/-- What is delivered was held, or came from no queue. -/
theorem Queues.of (h : Queues messages s) (henqueued : t.enqueued = s.enqueued)
    (hqueued : ∀ o, t.queued o = s.queued o) (es : List (AgentMessage μ))
    (hmessages : t.messages = s.messages ++ es) (hended : t.ended = s.ended ++ es)
    (hheld : ∀ o, (es ++ t.held).filterMap (·.from? o) = s.held.filterMap (·.from? o))
    (hpending : t.pendingMessages ≠ [] → t.control.delivers = true)
    (hskips : t.skipInitialSteeringPoll = true → t.control.first = true) (hfound : t.Found) :
    Queues messages t where
  kept o ho := by
    rw [henqueued, h.kept o ho, State.account, State.account, hqueued, hended, List.append_assoc,
      List.filterMap_append, List.filterMap_append, hheld]
  present := by rw [hmessages, hended, h.present, List.append_assoc]
  pending := hpending
  skips := hskips
  found := hfound

/-- An event is emitted and delivered. -/
theorem Queues.emitted (h : Queues messages s) {u : State μ} {event : AgentEvent μ}
    {control : Control μ} (henqueued : u.enqueued = s.enqueued)
    (hqueued : ∀ o, u.queued o = s.queued o) (hmessages : u.messages = s.messages)
    (hended : u.ended = s.ended)
    (hheld : ∀ o, (event.ended?.toList ++ (control.prompts ++ u.pendingMessages)).filterMap
      (·.from? o) = s.held.filterMap (·.from? o))
    (hpending : u.pendingMessages ≠ [] → control.delivers = true)
    (hskips : u.skipInitialSteeringPoll = true → control.first = true)
    (hfound : ({ u with control := control } : State μ).Found) :
    Queues messages ((u.emitted event).delivered control none) := by
  refine h.of (t := { u.emitted event with control := control }) ?_ ?_ event.ended?.toList ?_ ?_ ?_
    ?_ ?_ ?_
  · exact (State.enqueued_emitted u event).trans henqueued
  · intro o
    refine Eq.trans ?_ (hqueued o)
    cases o <;> simp [State.queued]
  · exact (State.messages_emitted u event).trans (by rw [hmessages])
  · exact (ended_emitted event).trans (by rw [hended])
  · intro o
    refine Eq.trans ?_ (hheld o)
    simp [State.held]
  · simpa using hpending
  · simpa using hskips
  · rw [State.Found] at hfound ⊢
    simpa using hfound

theorem Queues.emit (h : Queues messages s) (hstep : s.emit none = some t) :
    Queues messages t := by
  obtain ⟨⟨event, u, control⟩, hemission, rfl⟩ := Option.map_eq_some_iff.mp hstep
  have hpending := h.pending
  have hskips := h.skips
  have hfound := h.found
  rw [State.Found] at hfound
  cases hcontrol : s.control <;> rw [hcontrol] at hpending hskips hfound <;>
    simp only [State.emission, hcontrol] at hemission
  case agentStart | firstTurnStart | promptEnd | turnStart | responseStart | responseEnd
      | failStart | failEnd | failTurn | failAgent =>
    cases hemission
    refine h.emitted rfl (fun _ => rfl) rfl rfl (fun o => ?_) hpending hskips ?_
    · simp [State.held, hcontrol, Control.prompts, AgentEvent.ended?, AgentMessage.from?]
    · first | trivial | nofun
  case agentEnding reason =>
    cases hemission
    refine h.emitted rfl (fun _ => rfl) rfl rfl (fun o => ?_) hpending hskips hfound
    simp [State.held, hcontrol, Control.prompts, AgentEvent.ended?]
  case turnEnding message b =>
    cases hemission
    refine h.emitted rfl (fun _ => rfl) rfl rfl (fun o => ?_) (fun hne => ?_) (fun hskip => ?_) ?_
    · split <;> simp [State.held, hcontrol, Control.prompts, AgentEvent.ended?]
    · cases hpending hne
    · cases hskips hskip
    · split
      · nofun
      · trivial
  case promptStart prompts =>
    cases prompts with
    | nil => cases hemission
    | cons prompt prompts =>
      cases hemission
      refine h.emitted rfl (fun _ => rfl) rfl rfl (fun o => ?_) hpending hskips trivial
      simp [State.held, hcontrol, Control.prompts, AgentEvent.ended?]
  case injecting =>
    cases hheld : s.pendingMessages with
    | nil =>
      rw [hheld] at hemission
      cases hemission
    | cons message rest =>
      rw [hheld] at hemission
      cases hemission
      refine h.emitted rfl (fun _ => rfl) rfl rfl (fun o => ?_) hpending hskips trivial
      simp [State.held, hcontrol, Control.prompts, AgentEvent.ended?]
  case injected =>
    cases hheld : s.pendingMessages with
    | nil =>
      rw [hheld] at hemission
      cases hemission
    | cons message rest =>
      rw [hheld] at hemission
      cases hemission
      refine h.emitted rfl (fun _ => rfl) rfl rfl (fun o => ?_) (fun _ => rfl) hskips trivial
      simp [State.held, hcontrol, hheld, Control.prompts, AgentEvent.ended?]
  all_goals cases hemission

/-- Nothing is delivered or drained. -/
theorem Queues.quiet (h : Queues messages s) (henqueued : t.enqueued = s.enqueued)
    (hsteering : t.steeringQueue = s.steeringQueue) (hfollowUp : t.followUpQueue = s.followUpQueue)
    (hmessages : t.messages = s.messages) (hended : t.ended = s.ended)
    (hprompts : t.control.prompts = s.control.prompts)
    (hheld : t.pendingMessages = s.pendingMessages)
    (hpending : t.pendingMessages ≠ [] → t.control.delivers = true)
    (hskips : t.skipInitialSteeringPoll = true → t.control.first = true) (hfound : t.Found) :
    Queues messages t := by
  refine h.of henqueued ?_ [] (hmessages.trans (List.append_nil _).symm)
    (hended.trans (List.append_nil _).symm) ?_ hpending hskips hfound
  · intro o
    cases o <;> simp only [State.queued, hsteering, hfollowUp]
  · intro o
    rw [State.held, State.held, hprompts, hheld, List.nil_append]

/-- The run is given up where it delivers no message. -/
theorem Queues.fail (h : Queues messages s) (error : String) (hprompts : s.control.prompts = [])
    (hdelivers : s.control.delivers = false) (hfirst : s.control.first = false) :
    Queues messages (s.fail error) := by
  have hpending : ¬ s.pendingMessages ≠ [] := fun hne => by
    rw [h.pending hne] at hdelivers
    cases hdelivers
  have hskips : s.skipInitialSteeringPoll ≠ true := fun hskip => by
    rw [h.skips hskip] at hfirst
    cases hfirst
  rw [State.fail]
  cases hcontrol : s.control <;> rw [hcontrol] at hprompts <;> dsimp only <;>
    refine h.quiet rfl rfl rfl rfl rfl ?_ rfl (absurd · hpending) (absurd · hskips) ?_
  all_goals first | exact (hcontrol ▸ hprompts.symm) | trivial | nofun

/-! ## Queues that are drained -/

theorem from?_user (origin : Origin) (drained : List μ) (o : Origin) :
    (drained.map (AgentMessage.user origin)).filterMap (·.from? o) =
      if origin = o then drained else [] := by
  induction drained with
  | nil => split <;> rfl
  | cons message rest ih =>
    rw [List.map_cons, List.filterMap_cons, ih, AgentMessage.from?]
    by_cases ho : origin = o <;> simp only [ho, if_true, if_false]

theorem foundEmpty_drainSteering (h : s.drainSteering.1 = []) :
    s.drainSteering.2.foundEmpty .steering = true :=
  List.isEmpty_iff.mpr (PendingMessageQueue.messages_of_drain_nil (List.map_eq_nil_iff.mp h))

theorem foundEmpty_drainFollowUps (h : s.drainFollowUps.1 = []) :
    s.drainFollowUps.2.foundEmpty .followUp = true :=
  List.isEmpty_iff.mpr (PendingMessageQueue.messages_of_drain_nil (List.map_eq_nil_iff.mp h))

/-- A queue's messages are accounted for when the run holds them. -/
def Kept (s t : State μ) (drained : List (AgentMessage μ)) : Prop :=
  ∀ o, o ≠ .prompt → s.enqueued o =
    (s.ended ++ drained).filterMap (·.from? o) ++ t.queued o

theorem Queues.kept_nil (h : Queues messages s) (hheld : s.held = []) : Kept s s [] := by
  intro o ho
  rw [h.kept o ho, State.account, hheld]

theorem Kept.drainSteering (h : Kept s s []) : Kept s s.drainSteering.2 s.drainSteering.1 := by
  intro o ho
  rw [h o ho, List.append_nil, List.filterMap_append, List.append_assoc]
  congr 1
  show _ = (s.steeringQueue.drain.1.map (AgentMessage.user .steering)).filterMap _ ++ _
  rw [from?_user]
  cases o with
  | prompt => exact absurd rfl ho
  | steering => exact s.steeringQueue.drain_append.symm
  | followUp => rfl

theorem Kept.drainFollowUps (h : Kept s t []) : Kept s t.drainFollowUps.2 t.drainFollowUps.1 := by
  intro o ho
  rw [h o ho, List.append_nil, List.filterMap_append, List.append_assoc]
  congr 1
  show _ = (t.followUpQueue.drain.1.map (AgentMessage.user .followUp)).filterMap _ ++ _
  rw [from?_user]
  cases o with
  | prompt => exact absurd rfl ho
  | steering => rfl
  | followUp => exact t.followUpQueue.drain_append.symm

/-- The run holds what it has drained. -/
theorem Queues.of_kept (h : Queues messages s) {drained : List (AgentMessage μ)}
    (hkept : Kept s t drained) (henqueued : t.enqueued = s.enqueued)
    (hmessages : t.messages = s.messages) (hended : t.ended = s.ended)
    (hheld : ∀ o, o ≠ .prompt → t.held.filterMap (·.from? o) = drained.filterMap (·.from? o))
    (hpending : t.pendingMessages ≠ [] → t.control.delivers = true)
    (hskips : t.skipInitialSteeringPoll = true → t.control.first = true) (hfound : t.Found) :
    Queues messages t where
  kept o ho := by
    rw [henqueued, hkept o ho, State.account, hended, List.filterMap_append, List.filterMap_append,
      hheld o ho]
  present := by rw [hmessages, hended, h.present]
  pending := hpending
  skips := hskips
  found := hfound

/-- A run starts with prompts that are new, or were drained. -/
theorem Queues.start (h : Queues messages s) {prompts drained : List (AgentMessage μ)}
    {skip : Bool} (hkept : Kept s t drained) (henqueued : t.enqueued = s.enqueued)
    (hmessages : t.messages = s.messages) (hended : t.ended = s.ended)
    (hprompts : ∀ o, o ≠ .prompt →
      prompts.filterMap (·.from? o) = drained.filterMap (·.from? o)) :
    Queues messages (t.start prompts skip) := by
  have hstart : Kept s (t.start prompts skip) drained := by
    intro o ho
    rw [hkept o ho]
    cases o <;> rfl
  refine h.of_kept hstart henqueued hmessages ?_ ?_ (fun hne => absurd rfl hne) (fun _ => rfl)
    trivial
  · refine Eq.trans ?_ hended
    show messageEnds (t.past ++ t.log ++ []) = _
    rw [List.append_nil, State.ended]
  · intro o ho
    show (prompts ++ []).filterMap _ = _
    rw [List.append_nil, hprompts o ho]

/-- Between runs, nothing is held. -/
theorem Queues.held_nil (h : Queues messages s) (hprompts : s.control.prompts = [])
    (hdelivers : s.control.delivers = false) : s.held = [] := by
  have hnone : s.pendingMessages = [] := by
    by_contra hne
    rw [h.pending hne] at hdelivers
    cases hdelivers
  rw [State.held, hprompts, hnone, List.nil_append]

theorem Queues.prompt (h : Queues messages s) {ms : List μ} (hstep : s.prompt ms = some t) :
    Queues messages t := by
  rw [State.prompt] at hstep
  cases hcontrol : s.control <;> rw [hcontrol] at hstep <;> cases hstep
  have hheld : s.held = [] := h.held_nil (by rw [hcontrol]; rfl) (by rw [hcontrol]; rfl)
  refine h.start (h.kept_nil hheld) rfl rfl rfl fun o ho => ?_
  rw [from?_user, if_neg ho.symm]
  rfl

theorem Queues.continue_ (h : Queues messages s) (hstep : s.continue_ = some t) :
    Queues messages t := by
  rw [State.continue_] at hstep
  cases hcontrol : s.control <;> rw [hcontrol] at hstep <;> dsimp only at hstep <;>
    try cases hstep
  have hheld : s.held = [] := h.held_nil (by rw [hcontrol]; rfl) (by rw [hcontrol]; rfl)
  have hkept := h.kept_nil hheld
  cases hlast : s.messages.getLast? with
  | none => rw [hlast] at hstep; cases hstep
  | some last =>
    rw [hlast] at hstep
    cases last with
    | user | toolResult =>
      cases hstep
      exact h.start hkept rfl rfl rfl fun _ _ => rfl
    | assistant message =>
      dsimp only at hstep
      split at hstep
      · cases hstep
        exact h.start hkept.drainSteering rfl rfl rfl fun _ _ => rfl
      · rename_i hsteering
        -- the steering queue was empty
        have hnone : s.drainSteering.1 = [] := not_not.mp hsteering
        have hkept' := hkept.drainSteering
        rw [hnone] at hkept'
        split at hstep
        · cases hstep
          exact h.start hkept'.drainFollowUps rfl rfl rfl fun _ _ => rfl
        · cases hstep

theorem Queues.go (h : Queues messages s) (hstep : s.go = some t) : Queues messages t := by
  rw [State.go] at hstep
  have hpending := h.pending
  have hskips := h.skips
  have hfound := h.found
  rw [State.Found] at hfound
  have hheld := h.held_nil
  cases hcontrol : s.control <;> rw [hcontrol] at hpending hskips hfound hheld hstep <;>
    dsimp only at hstep hfound
  case promptStart prompts =>
    cases prompts with
    | cons => cases hstep
    | nil =>
      cases hstep
      exact h.quiet rfl rfl rfl rfl rfl (by rw [hcontrol]; rfl) rfl
        (fun hne => by cases hpending hne) (fun _ => rfl) trivial
  case polling more =>
    have hheld := hheld rfl rfl
    split at hstep
    · rename_i hskip
      cases hstep
      have hmore : more = true := hskips hskip
      refine h.of_kept (h.kept_nil hheld) rfl rfl rfl (fun _ _ => rfl) (absurd rfl) nofun ?_
      intro hfalse
      rw [hmore] at hfalse
      cases hfalse
    · rename_i hskip
      cases hstep
      exact h.of_kept (h.kept_nil hheld).drainSteering rfl rfl rfl (fun _ _ => rfl)
        (fun _ => rfl) (fun h => absurd h hskip) fun _ hnone => foundEmpty_drainSteering hnone
  case looping more =>
    split at hstep
    · split at hstep <;> cases hstep
      all_goals
        exact h.quiet rfl rfl rfl rfl rfl (by rw [hcontrol]; rfl) rfl (fun _ => rfl)
          (fun hskip => by cases hskips hskip) trivial
    · rename_i hends
      cases hstep
      rw [not_or, not_not] at hends
      exact h.quiet rfl rfl rfl rfl rfl (by rw [hcontrol]; rfl) rfl (fun hne => absurd hends.2 hne)
        (fun hskip => by cases hskips hskip) (hfound (Bool.eq_false_iff.mpr hends.1) hends.2)
  case injecting =>
    cases hnone : s.pendingMessages with
    | cons => rw [hnone] at hstep; cases hstep
    | nil =>
      rw [hnone] at hstep
      cases hstep
      exact h.quiet rfl rfl rfl rfl rfl (by rw [hcontrol]; rfl) hnone.symm (absurd rfl)
        (fun hskip => by cases hskips hskip) trivial
  case responded message =>
    split at hstep <;> cases hstep
    all_goals
      exact h.quiet rfl rfl rfl rfl rfl (by rw [hcontrol]; rfl) rfl
        (fun hne => by cases hpending hne) (fun hskip => by cases hskips hskip) trivial
  case batch message b =>
    cases hstage : b.stage <;> rw [hstage] at hstep <;> cases hstep
    exact h.quiet rfl rfl rfl rfl rfl (by rw [hcontrol]; rfl) rfl
      (fun hne => by cases hpending hne) (fun hskip => by cases hskips hskip) trivial
  case followUps =>
    have hheld := hheld rfl rfl
    have hkept := (h.kept_nil hheld).drainFollowUps
    split at hstep
    · cases hstep
      exact h.of_kept hkept rfl rfl rfl (fun _ _ => rfl) (fun _ => rfl)
        (fun hskip => by cases hskips hskip) nofun
    · rename_i hnone
      have hnone : s.drainFollowUps.1 = [] := not_not.mp hnone
      cases hstep
      rw [hnone] at hkept
      have hnil : s.pendingMessages = [] := (List.append_eq_nil_iff.mp hheld).2
      refine h.of_kept hkept rfl rfl rfl (fun o _ => ?_) (fun hne => absurd hnil hne)
        (fun hskip => by cases hskips hskip) ?_
      · show ([] ++ s.pendingMessages).filterMap _ = _
        rw [hnil]
        rfl
      · exact fun _ => ⟨hfound, foundEmpty_drainFollowUps hnone⟩
  case finishing reason =>
    cases hstep
    exact h.quiet rfl rfl rfl rfl rfl (by rw [hcontrol]; rfl) rfl
      (fun hne => by cases hpending hne) (fun hskip => by cases hskips hskip) trivial
  all_goals cases hstep

/-! ## The other steps -/

theorem ownEnd_taskMoves {task task' : Task} {place : Nat} {event : Option (AgentEvent μ)}
    (hmoves : task.Moves place task' event) : ∀ e ∈ event, e.ended? = none := by
  intro e he
  cases hmoves <;> cases he <;> rfl

theorem ownEnd_of_none {event : AgentEvent μ} (h : event.ended? = none) : event.ownEnd := by
  intro message hmessage
  rw [h] at hmessage
  cases hmessage

/-- A batch ends the messages of its results only. -/
theorem ownEnd_batchMoves {b b' : Batch} {aborted : Bool} {event : Option (AgentEvent μ)}
    (hmoves : b.Moves aborted b' event) : ∀ e ∈ event, e.ownEnd := by
  intro e he
  cases hmoves
  case runTask _ moves => exact ownEnd_of_none (ownEnd_taskMoves moves e he)
  case runDone _ moves => exact ownEnd_of_none (ownEnd_taskMoves moves e he)
  case joinTask moves => exact ownEnd_of_none (ownEnd_taskMoves moves e he)
  case resultEnd | reportEnd =>
    cases he
    rintro message ⟨⟩ o
    rfl
  all_goals cases he <;> exact ownEnd_of_none rfl

/-- An event of the run itself, behind which the control holds no message either. -/
theorem Queues.ownEvent (h : Queues messages s) {event : AgentEvent μ} (hown : event.ownEnd)
    (henqueued : t.enqueued = s.enqueued) (hsteering : t.steeringQueue = s.steeringQueue)
    (hfollowUp : t.followUpQueue = s.followUpQueue)
    (hmessages : t.messages = s.messages ++ event.ended?.toList)
    (hended : t.ended = s.ended ++ event.ended?.toList)
    (hprompts : t.control.prompts = s.control.prompts)
    (hheld : t.pendingMessages = s.pendingMessages)
    (hpending : t.pendingMessages ≠ [] → t.control.delivers = true)
    (hskips : t.skipInitialSteeringPoll = true → t.control.first = true) (hfound : t.Found) :
    Queues messages t := by
  refine h.of henqueued ?_ event.ended?.toList hmessages hended ?_ hpending hskips hfound
  · intro o
    cases o <;> simp only [State.queued, hsteering, hfollowUp]
  · intro o
    rw [List.filterMap_append, filterMap_ownEnd hown, State.held, State.held, hprompts, hheld,
      List.nil_append]

theorem Queues.batch (h : Queues messages s) {a : BatchAction} {throws : Option String}
    (hstep : s.batch a throws = some t) : Queues messages t := by
  rw [State.batch] at hstep
  cases hcontrol : s.control <;> rw [hcontrol] at hstep <;> dsimp only at hstep <;>
    try cases hstep
  rename_i message b
  obtain ⟨⟨b', event⟩, hb, rfl⟩ := Option.map_eq_some_iff.mp hstep
  have hown := ownEnd_batchMoves (Batch.moves_of_step hb)
  have hpending : ¬ s.pendingMessages ≠ [] := fun hne => by
    have := h.pending hne
    rw [hcontrol] at this
    cases this
  have hskips : s.skipInitialSteeringPoll ≠ true := fun hskip => by
    have := h.skips hskip
    rw [hcontrol] at this
    cases this
  have hnext : ∀ trace thrown, Queues messages { event.elim s s.emitted with
      control := .batch message b', trace := trace, thrown := thrown } := by
    intro trace thrown
    cases event with
    | none =>
      exact h.quiet rfl rfl rfl rfl rfl (by rw [hcontrol]; rfl) rfl (absurd · hpending)
        (absurd · hskips) trivial
    | some event =>
      refine h.ownEvent (hown event rfl) (s.enqueued_emitted event) (s.steeringQueue_emitted event)
        (s.followUpQueue_emitted event) (s.messages_emitted event) (ended_emitted event)
        (by rw [hcontrol]; rfl) (s.pendingMessages_emitted event) (fun hne => ?_) (fun hskip => ?_)
        trivial
      · exact absurd (by simpa using hne) hpending
      · exact absurd (by simpa using hskip) hskips
  dsimp only
  split
  · exact hnext _ _
  · exact (hnext _ _).fail _ rfl rfl rfl

/-- A task that was given up emits no message. -/
theorem Queues.orphan (h : Queues messages s) {i : Nat} {a : TaskAction} {throws : Option String}
    (hstep : s.orphan i a throws = some t) : Queues messages t := by
  rw [State.orphan] at hstep
  cases horphan : s.orphans[i]? with
  | none => rw [horphan] at hstep; cases hstep
  | some orphan =>
  rw [horphan] at hstep
  obtain ⟨⟨task', event⟩, htask, rfl⟩ := Option.map_eq_some_iff.mp hstep
  have hnone := ownEnd_taskMoves (Task.moves_of_step htask)
  have hquiet : ∀ {orphans thrown},
    Queues messages { s with orphans := orphans, thrown := thrown } :=
    h.quiet rfl rfl rfl rfl rfl rfl rfl h.pending h.skips h.found
  cases event with
  | none => exact hquiet
  | some event =>
    have hended : event.ended? = none := hnone event rfl
    have h' := @hquiet (s.orphans.set i (orphan.1, task')) (s.thrown || throws.isSome)
    have hemitted := h'.ownEvent (ownEnd_of_none hended) (State.enqueued_emitted _ event)
      (State.steeringQueue_emitted _ event) (State.followUpQueue_emitted _ event)
      (State.messages_emitted _ event) (ended_emitted event)
      (congrArg Control.prompts (State.control_emitted _ event))
        (State.pendingMessages_emitted _ event)
      (by simpa using h'.pending) (by simpa using h'.skips) (by
        have := h'.found
        rw [State.Found] at this ⊢
        simpa using this)
    dsimp only
    split
    · exact hemitted
    · -- outside of a run, the event is not recorded
      refine hemitted.quiet rfl rfl rfl rfl ?_ rfl rfl hemitted.pending hemitted.skips
        hemitted.found
      rw [ended_emitted, hended, State.ended, State.log_reduce]
      exact (congrArg (messageEnds <| · ++ _) (State.past_emitted _ event)).trans
        (List.append_nil _).symm

theorem Queues.enqueue (h : Queues messages s) (o : Origin) (message : μ)
    (henqueued : t.enqueued = fun o' => if o' = o then s.enqueued o' ++
      [message] else s.enqueued o')
    (hqueued : ∀ o', t.queued o' = if o' = o then s.queued o' ++ [message] else s.queued o')
    (hmessages : t.messages = s.messages) (hended : t.ended = s.ended) (hheld : t.held = s.held)
    (hpending : t.pendingMessages ≠ [] → t.control.delivers = true)
    (hskips : t.skipInitialSteeringPoll = true → t.control.first = true) (hfound : t.Found) :
    Queues messages t where
  kept o' ho' := by
    rw [henqueued, State.account, hqueued, hended, hheld]
    dsimp only
    rw [h.kept o' ho', State.account]
    split
    · rw [List.append_assoc]
    · rfl
  present := by rw [hmessages, hended, h.present]
  pending := hpending
  skips := hskips
  found := hfound

theorem Queues.streamStart (h : Queues messages s) {message : AssistantMessage}
    (hstep : s.streamStart message none = some t) : Queues messages t := by
  rw [State.streamStart] at hstep
  split at hstep
  · rename_i hcontrol
    cases hstep
    have hpending := h.pending
    have hskips := h.skips
    rw [hcontrol] at hpending hskips
    refine h.emitted rfl (fun _ => rfl) rfl rfl (fun o => ?_) hpending hskips trivial
    simp [State.held, hcontrol, Control.prompts, AgentEvent.ended?, State.setResponse]
  · cases hstep

theorem Queues.streamUpdate (h : Queues messages s) {message : AssistantMessage}
    (hstep : s.streamUpdate message none = some t) : Queues messages t := by
  rw [State.streamUpdate] at hstep
  split at hstep
  · rename_i hcontrol
    cases hstep
    have hpending := h.pending
    have hskips := h.skips
    rw [hcontrol] at hpending hskips
    refine h.emitted rfl (fun _ => rfl) rfl rfl (fun o => ?_) hpending hskips trivial
    simp [State.held, hcontrol, Control.prompts, AgentEvent.ended?, State.setResponse]
  · cases hstep

theorem Queues.streamDone (h : Queues messages s) {message : AssistantMessage}
    (hstep : s.streamDone message = some t) : Queues messages t := by
  have hpending := h.pending
  have hskips := h.skips
  rw [State.streamDone] at hstep
  split at hstep
  all_goals first | cases hstep; done | skip
  all_goals
    rename_i hcontrol
    rw [hcontrol] at hpending hskips
    cases hstep
    exact h.quiet rfl rfl rfl rfl rfl (by rw [hcontrol]; rfl) rfl
      (fun hne => by cases hpending hne) (fun hskip => by cases hskips hskip) trivial

theorem Queues.step (h : Queues messages s) {a : Action μ} (hthrows : a.throws = none)
    (hstep : s.step a = some t) : Queues messages t := by
  have hpending := h.pending
  have hskips := h.skips
  cases a with
  | prompt ms => exact h.prompt hstep
  | continue_ => exact h.continue_ hstep
  | steer message =>
    cases hstep
    refine h.enqueue .steering message rfl (fun o => ?_) rfl rfl rfl h.pending h.skips h.found
    cases o <;> rfl
  | followUp message =>
    cases hstep
    refine h.enqueue .followUp message rfl (fun o => ?_) rfl rfl rfl h.pending h.skips h.found
    cases o <;> rfl
  | steeringMode mode | followUpMode mode =>
    cases hstep
    exact h.of rfl (fun o => by cases o <;> rfl) [] (List.append_nil _).symm
      (List.append_nil _).symm (fun _ => rfl) h.pending h.skips h.found
  | abort =>
    rw [State.step] at hstep
    split at hstep <;> cases hstep
    exact h.quiet rfl rfl rfl rfl rfl rfl rfl h.pending h.skips h.found
  | emit throws =>
    obtain rfl : throws = none := hthrows
    exact h.emit hstep
  | go => exact h.go hstep
  | requested =>
    rw [State.step] at hstep
    cases hcontrol : s.control <;> rw [hcontrol] at hstep hpending hskips <;> cases hstep
    exact h.quiet rfl rfl rfl rfl rfl (by rw [hcontrol]; rfl) rfl
      (fun hne => by cases hpending hne) (fun hskip => by cases hskips hskip) trivial
  | streamStart message throws =>
    obtain rfl : throws = none := hthrows
    exact h.streamStart hstep
  | streamUpdate message throws =>
    obtain rfl : throws = none := hthrows
    exact h.streamUpdate hstep
  | streamDone message => exact h.streamDone hstep
  | nextTurn context =>
    rw [State.step] at hstep
    cases hcontrol : s.control <;> rw [hcontrol] at hstep hpending hskips <;> cases hstep
    exact h.quiet rfl rfl rfl rfl rfl (by rw [hcontrol]; rfl) rfl
      (fun hne => by cases hpending hne) (fun hskip => by cases hskips hskip) trivial
  | shouldStop stop =>
    rw [State.step] at hstep
    cases hcontrol : s.control <;> rw [hcontrol] at hstep hpending hskips <;> cases hstep
    cases stop
    all_goals
      exact h.quiet rfl rfl rfl rfl rfl (by rw [hcontrol]; rfl) rfl
        (fun hne => by cases hpending hne) (fun hskip => by cases hskips hskip)
        (by first | trivial | nofun)
  | hookThrows error =>
    rw [State.step] at hstep
    cases hcontrol : s.control <;> rw [hcontrol] at hstep <;> cases hstep
    all_goals
      exact h.fail error (by rw [hcontrol]; rfl) (by rw [hcontrol]; rfl) (by rw [hcontrol]; rfl)
  | batch a throws => exact h.batch hstep
  | orphan i a throws => exact h.orphan hstep

theorem queues_new (tools : List AgentTool) (toolExecution : ToolExecutionMode)
    (steeringMode followUpMode : QueueMode) : Queues messages
      (State.new messages tools toolExecution steeringMode followUpMode) where
  kept o ho := by cases o <;> rfl
  present := (List.append_nil _).symm
  pending := nofun
  skips := nofun
  found := trivial

theorem Queues.run {as : List (Action μ)} (hthrows : ∀ a ∈ as, a.throws = none)
    (h : Queues messages s) (hrun : as.foldlM State.step s = some t) : Queues messages t := by
  induction as generalizing s with
  | nil => exact Option.some.inj hrun ▸ h
  | cons a as ih =>
    rw [List.foldlM_cons] at hrun
    obtain ⟨u, hu, hrest⟩ := Option.bind_eq_some_iff.mp hrun
    obtain ⟨ha, has⟩ := List.forall_mem_cons.mp hthrows
    exact ih has (h.step ha hu) hrest

/-- The messages of a queue are delivered, held by the active run, or still queued; a run that
ends by itself has found both queues empty. -/
theorem queued_delivered (messages : List (AgentMessage μ)) (tools : List AgentTool)
    (toolExecution : ToolExecutionMode) (steeringMode followUpMode : QueueMode)
    (as : List (Action μ)) (hthrows : ∀ a ∈ as, a.throws = none)
    (hrun : as.foldlM State.step
      (State.new messages tools toolExecution steeringMode followUpMode) = some s) :
    (∀ o, o ≠ .prompt → s.enqueued o =
      (messageEnds (s.past ++ s.log)).filterMap (·.from? o) ++
        (s.held.filterMap (·.from? o) ++ s.queued o)) ∧
    (s.active = false → s.held = []) ∧
    s.messages = messages ++ messageEnds (s.past ++ s.log) ∧
    (s.control = .finishing .exhausted →
      s.foundEmpty .steering = true ∧ s.foundEmpty .followUp = true) := by
  have h : Queues messages s := (queues_new ..).run hthrows hrun
  refine ⟨fun o ho => ?_, fun hidle => ?_, h.present, fun hends => ?_⟩
  · rw [h.kept o ho, State.account, List.filterMap_append, List.append_assoc, State.ended]
  · refine h.held_nil ?_ ?_
    all_goals
      rw [State.active] at hidle
      cases hcontrol : s.control <;> rw [hcontrol] at hidle <;> first | rfl | cases hidle
  · have hfound := h.found
    rw [State.Found, hends] at hfound
    exact hfound rfl

/-- A run with a message in each queue. -/
def queuedRun : List (Action String) :=
  [.prompt ["a"], .steer "b", .emit none, .emit none, .emit none, .emit none, .go, .go, .go,
    .emit none, .emit none, .go, .followUp "c", .requested,
    .streamDone ⟨[], .stop, none⟩, .emit none, .emit none, .go, .emit none, .nextTurn none,
    .shouldStop false, .go, .go, .go, .go, .emit none, .emit none, .emit none, .go, .requested,
    .streamDone ⟨[], .stop, none⟩, .emit none, .emit none, .go, .emit none, .nextTurn none,
    .shouldStop false, .go, .go, .go, .emit none]

/-- An agent without messages. -/
def unused : State String := .new [] [] .parallel .all .oneAtATime

theorem queuedRun_delivered : ∃ s, queuedRun.foldlM State.step unused = some s ∧
    (∀ o, o ≠ .prompt → s.enqueued o =
      (messageEnds (s.past ++ s.log)).filterMap (·.from? o) ++
        (s.held.filterMap (·.from? o) ++ s.queued o)) ∧
    s.foundEmpty .steering = true ∧ s.foundEmpty .followUp = true := by
  have hends : ((queuedRun.foldlM State.step unused).map (·.control)) =
      some (.finishing .exhausted) := by decide
  obtain ⟨s, hs, hcontrol⟩ := Option.map_eq_some_iff.mp hends
  obtain ⟨hkept, -, -, hfound⟩ :=
    queued_delivered [] [] .parallel .all .oneAtATime queuedRun (by decide) hs
  exact ⟨s, hs, hkept, hfound hcontrol⟩

end PiMono.Agent
