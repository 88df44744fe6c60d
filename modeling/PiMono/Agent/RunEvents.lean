import PiMono.Agent.AgentLoop

/-!
# The events of a run

`events_bracketed`: what the log and the state are behind a run in which one call throws at most.
A listener that throws at `agent_end` makes the run emit a second one, and a tool call that goes
on when its batch was given up emits behind it; `orderly` leaves these out.
-/

namespace PiMono.Agent

variable {μ : Type}

/-! ## What is claimed -/

/-- Two versions of one message. -/
def SameMessage (a b : AgentMessage μ) : Prop :=
  a = b ∨ ∃ partialMessage message, a = .assistant partialMessage ∧ b = .assistant message

def AgentEvent.isMessageBound : AgentEvent μ → Bool
  | .messageStart _ | .messageEnd _ => true
  | _ => false

/-- Messages are started one by one; `o` is the one that was not ended. -/
inductive Bracketed : List (AgentEvent μ) → Option (AgentMessage μ) → Prop where
  | nil : Bracketed [] none
  | start {log : List (AgentEvent μ)} (h : Bracketed log none) (message : AgentMessage μ) :
    Bracketed (log ++ [.messageStart message]) (some message)
  | stop {log : List (AgentEvent μ)} {started message : AgentMessage μ}
    (h : Bracketed log (some started)) (same : SameMessage started message) :
    Bracketed (log ++ [.messageEnd message]) none
  | other {log : List (AgentEvent μ)} {o : Option (AgentMessage μ)} {event : AgentEvent μ}
    (h : Bracketed log o) (bound : event.isMessageBound = false) : Bracketed (log ++ [event]) o

/-- The log has one `agent_end`, as its last event. -/
def EndsOnce (log : List (AgentEvent μ)) : Prop :=
  ∃ front messages, log = front ++ [.agentEnd messages] ∧ ∀ ms, .agentEnd ms ∉ front

/-- A call that the code does not catch throws. -/
def Action.fails : Action μ → Bool
  | .emit throws | .streamStart _ throws | .streamUpdate _ throws | .batch _ throws
  | .orphan _ _ throws => throws.isSome
  | .hookThrows _ => true
  | _ => false

def TaskAction.emits : TaskAction → Bool
  | .update .. | .finalize _ => true
  | .settle _ | .reject => false

/-- One call of a run throws, and none at its `agent_end`; no task of a batch that was given up
emits while that is delivered. -/
def orderly (s : State μ) (a : Action μ) : Bool :=
  match s.control, a with
  | .agentEnding _, .emit throws => throws.isNone
  | .finishing _, .orphan _ a _ => !a.emits
  | _, a => !a.fails || !s.thrown

/-- What is claimed of a run when it is over. -/
structure Closed (s : State μ) : Prop where
  ends : EndsOnce s.log
  messages : s.messages = s.initial ++ messageEnds s.log
  streamingMessage : s.streamingMessage = none
  pendingToolCalls : s.pendingToolCalls = []
  bracketed : s.thrown = false → Bracketed s.log none

/-! ## What every step keeps -/

/-- The message that a batch has started and not ended. -/
def Stage.opens (stage : Stage) (o : Option (AgentMessage μ)) : Prop :=
  match stage with
  | .resultEnd outcome | .reported outcome _ =>
    o = some (.toolResult (createToolResultMessage outcome))
  | _ => o = none

/-- The message that was started and not ended. -/
def Control.opens (control : Control μ) (pendingMessages : List (AgentMessage μ))
    (o : Option (AgentMessage μ)) : Prop :=
  match control with
  | .promptEnd prompt _ => o = some prompt
  | .injected => o = pendingMessages.head?
  | .streaming (some _) | .responseEnd _ => ∃ message, o = some (.assistant message)
  | .batch _ b => b.stage.opens o
  | _ => o = none

/-- `handleRunFailure` -/
def Control.failing : Control μ → Bool
  | .failStart _ | .failEnd _ | .failTurn _ | .failAgent _ => true
  | _ => false

/-- A run in front of its `agent_end`. -/
structure Open (s : State μ) : Prop where
  messages : s.messages = s.initial ++ messageEnds s.log
  quiet : ∀ ms, .agentEnd ms ∉ s.log

structure Events (s : State μ) : Prop where
  messages : s.messages = s.initial ++ messageEnds s.log
  failing : s.control.failing = true → s.thrown = true
  quiet : s.control ≠ .idle → (∀ reason, s.control ≠ .finishing reason) →
    ∀ ms, .agentEnd ms ∉ s.log
  ended : ∀ reason, s.control = .finishing reason → EndsOnce s.log
  idle : s.control = .idle → (s.log = [] ∨ EndsOnce s.log) ∧ s.streamingMessage = none ∧
    s.pendingToolCalls = []
  brackets : s.thrown = false → ∃ o, Bracketed s.log o ∧ s.control.opens s.pendingMessages o

variable {s t : State μ}

theorem Open.emitted (h : Open s) {event : AgentEvent μ} (hevent : ∀ ms, event ≠ .agentEnd ms) :
    Open (s.emitted event) where
  messages := by
    rw [State.messages_emitted, State.initial_emitted, State.log_emitted, messageEnds_append,
      messageEnds_singleton, h.messages, List.append_assoc]
  quiet ms := by
    rw [State.log_emitted, List.mem_append, List.mem_singleton]
    rintro (hmem | heq)
    · exact h.quiet ms hmem
    · exact hevent ms heq.symm

/-- The run goes on. -/
theorem Open.events (h : Open s) (hfailing : s.control.failing = true → s.thrown = true)
    (hidle : s.control ≠ .idle) (hfinishing : ∀ reason, s.control ≠ .finishing reason)
    (hbrackets : s.thrown = false →
      ∃ o, Bracketed s.log o ∧ s.control.opens s.pendingMessages o) : Events s where
  messages := h.messages
  failing := hfailing
  quiet _ _ := h.quiet
  ended reason hreason := absurd hreason (hfinishing reason)
  idle hnone := absurd hnone hidle
  brackets := hbrackets

theorem Open.fail (h : Open s) (hfailing : s.control.failing = false) (error : String) :
    Events (s.fail error) := by
  rw [State.fail]
  cases hcontrol : s.control <;> rw [hcontrol] at hfailing <;> dsimp only
  case failStart | failEnd | failTurn | failAgent => cases hfailing
  all_goals exact Open.events ⟨h.messages, h.quiet⟩ (fun _ => rfl) nofun nofun nofun

/-- An event is emitted and delivered. -/
theorem Open.delivered (h : Open s) {event : AgentEvent μ} {control : Control μ}
    {throws : Option String} (hevent : ∀ ms, event ≠ .agentEnd ms)
    (hfailing : s.control.failing = true → control.failing = true ∧ throws = none)
    (hthrown : control.failing = true → s.thrown = true) (hidle : control ≠ .idle)
    (hfinishing : ∀ reason, control ≠ .finishing reason)
    (hbrackets : s.thrown = false → ∃ o, Bracketed (s.log ++ [event]) o ∧
      control.opens s.pendingMessages o) :
    Events ((s.emitted event).delivered control throws) := by
  have h' := h.emitted hevent
  cases throws with
  | none =>
    refine Open.events ⟨h'.messages, h'.quiet⟩ (fun hf => ?_) hidle hfinishing fun hf => ?_
    · exact (State.thrown_emitted s event).trans (hthrown hf)
    · obtain ⟨o, hlog, hopens⟩ := hbrackets ((State.thrown_emitted s event).symm.trans hf)
      exact ⟨o, hlog, (State.pendingMessages_emitted s event).symm ▸ hopens⟩
  | some error =>
    refine h'.fail ?_ error
    rw [State.control_emitted]
    by_contra hf
    cases (hfailing (Bool.not_eq_false _ ▸ hf)).2

/-- In front of its end, the run is open. -/
theorem Events.open_ (h : Events s) (hidle : s.control ≠ .idle)
    (hfinishing : ∀ reason, s.control ≠ .finishing reason) : Open s :=
  ⟨h.messages, h.quiet hidle hfinishing⟩

/-- `agent_end` is delivered. -/
theorem Events.agentEnd (h : Open s) {ms : List (AgentMessage μ)} {reason : EndReason}
    (hbrackets : s.thrown = false → Bracketed s.log none) :
    Events ((s.emitted (.agentEnd ms)).delivered (.finishing reason) none) where
  messages := by
    show s.messages = s.initial ++ messageEnds (s.log ++ [.agentEnd ms])
    rw [messageEnds_append, h.messages]
    exact (congrArg (s.initial ++ ·) (List.append_nil _)).symm
  failing := nofun
  quiet _ hfinishing := absurd rfl (hfinishing reason)
  ended _ _ := ⟨s.log, ms, rfl, h.quiet⟩
  idle := nofun
  brackets hf := ⟨none, .other (hbrackets hf) rfl, rfl⟩

theorem Events.emit (h : Events s) {throws : Option String}
    (horderly : orderly s (.emit throws) = true) (hstep : s.emit throws = some t) : Events t := by
  obtain ⟨⟨event, u, control⟩, hemission, rfl⟩ := Option.map_eq_some_iff.mp hstep
  have hopen := h.open_
  have hfailing := h.failing
  have hbrackets := h.brackets
  cases hcontrol : s.control <;> rw [hcontrol] at hopen hfailing hbrackets <;>
    simp only [State.emission, hcontrol] at hemission <;>
    simp only [orderly, hcontrol, Action.fails] at horderly
  case agentStart prompts | firstTurnStart prompts | turnStart =>
    cases hemission
    refine (hopen nofun nofun).delivered nofun (by rw [hcontrol]; nofun) nofun nofun nofun ?_
    intro hf
    obtain ⟨o, hlog, rfl⟩ := hbrackets hf
    exact ⟨none, .other hlog rfl, rfl⟩
  case promptStart prompts =>
    cases prompts with
    | nil => cases hemission
    | cons prompt prompts =>
      cases hemission
      refine (hopen nofun nofun).delivered nofun (by rw [hcontrol]; nofun) nofun nofun nofun ?_
      intro hf
      obtain ⟨o, hlog, rfl⟩ := hbrackets hf
      exact ⟨_, .start hlog prompt, rfl⟩
  case promptEnd prompt prompts =>
    cases hemission
    refine (hopen nofun nofun).delivered nofun (by rw [hcontrol]; nofun) nofun nofun nofun ?_
    intro hf
    obtain ⟨o, hlog, rfl⟩ := hbrackets hf
    exact ⟨none, .stop hlog (.inl rfl), rfl⟩
  case injecting =>
    cases hpending : s.pendingMessages with
    | nil =>
      rw [hpending] at hemission
      cases hemission
    | cons message rest =>
      rw [hpending] at hemission
      cases hemission
      refine (hopen nofun nofun).delivered nofun (by rw [hcontrol]; nofun) nofun nofun nofun ?_
      intro hf
      obtain ⟨o, hlog, rfl⟩ := hbrackets hf
      refine ⟨_, .start hlog message, ?_⟩
      show some message = s.pendingMessages.head?
      rw [hpending]
      rfl
  case injected =>
    cases hpending : s.pendingMessages with
    | nil =>
      rw [hpending] at hemission
      cases hemission
    | cons message rest =>
      rw [hpending] at hemission
      cases hemission
      have hopen := hopen nofun nofun
      show Events ((State.emitted _ _).delivered _ _)
      refine Open.delivered ?_ nofun nofun nofun nofun nofun ?_
      · exact ⟨hopen.messages, hopen.quiet⟩
      · intro hf
        obtain ⟨o, hlog, hopens⟩ := hbrackets hf
        obtain rfl : o = some message := hopens.trans (by rw [hpending]; rfl)
        exact ⟨none, .stop hlog (.inl rfl), rfl⟩
  case responseStart message =>
    cases hemission
    refine (hopen nofun nofun).delivered nofun (by rw [hcontrol]; nofun) nofun nofun nofun ?_
    intro hf
    obtain ⟨o, hlog, rfl⟩ := hbrackets hf
    exact ⟨_, .start hlog (.assistant message), message, rfl⟩
  case responseEnd message =>
    cases hemission
    refine (hopen nofun nofun).delivered nofun (by rw [hcontrol]; nofun) nofun nofun nofun ?_
    intro hf
    obtain ⟨o, hlog, partialMessage, rfl⟩ := hbrackets hf
    exact ⟨none, .stop hlog (.inr ⟨partialMessage, message, rfl, rfl⟩), rfl⟩
  case turnEnding message b =>
    cases hemission
    refine (hopen nofun nofun).delivered nofun (by rw [hcontrol]; nofun) ?_ ?_ ?_ ?_
    · split <;> nofun
    · split <;> nofun
    · intro reason
      split <;> nofun
    · intro hf
      obtain ⟨o, hlog, rfl⟩ := hbrackets hf
      refine ⟨none, .other hlog rfl, ?_⟩
      split <;> rfl
  case agentEnding reason =>
    cases hemission
    obtain rfl := Option.isNone_iff_eq_none.mp horderly
    refine Events.agentEnd (hopen nofun nofun) fun hf => ?_
    obtain ⟨o, hlog, rfl⟩ := hbrackets hf
    exact hlog
  case failStart message | failEnd message | failTurn message =>
    have hthrown := hfailing rfl
    have hnone : throws = none := by
      rw [hthrown] at horderly
      cases throws with
      | none => rfl
      | some error => cases horderly
    cases hemission
    refine (hopen nofun nofun).delivered nofun (fun _ => ⟨rfl, hnone⟩) (fun _ => hthrown) nofun
      nofun fun hf => ?_
    rw [hthrown] at hf
    cases hf
  case failAgent message =>
    have hthrown := hfailing rfl
    cases throws with
    | some error => rw [hthrown] at horderly; cases horderly
    | none =>
      cases hemission
      refine Events.agentEnd (hopen nofun nofun) fun hf => ?_
      rw [hthrown] at hf
      cases hf
  all_goals cases hemission

/-- Nothing is emitted. -/
theorem Open.goesOn (h : Open s) (hmessages : t.messages = s.messages)
    (hinitial : t.initial = s.initial) (hlog : t.log = s.log) (hthrown : t.thrown = s.thrown)
    (hfailing : t.control.failing = false) (hidle : t.control ≠ .idle)
    (hfinishing : ∀ reason, t.control ≠ .finishing reason)
    (hbrackets : s.thrown = false →
      ∃ o, Bracketed s.log o ∧ t.control.opens t.pendingMessages o) : Events t := by
  refine Open.events ⟨?_, ?_⟩ (fun hf => ?_) hidle hfinishing ?_
  · rw [hmessages, hinitial, hlog, h.messages]
  · rw [hlog]
    exact h.quiet
  · rw [hfailing] at hf
    cases hf
  · rw [hthrown, hlog]
    exact hbrackets

theorem Events.go (h : Events s) (hstep : s.go = some t) : Events t := by
  have hopen := h.open_
  have hfailing := h.failing
  have hbrackets := h.brackets
  rw [State.go] at hstep
  cases hcontrol : s.control <;> rw [hcontrol] at hopen hfailing hbrackets hstep <;>
    dsimp only at hstep
  case promptStart prompts =>
    cases prompts with
    | cons => cases hstep
    | nil =>
      cases hstep
      exact (hopen nofun nofun).goesOn rfl rfl rfl rfl rfl nofun nofun hbrackets
  case polling more =>
    split at hstep <;> cases hstep <;>
      exact (hopen nofun nofun).goesOn rfl rfl rfl rfl rfl nofun nofun hbrackets
  case looping more =>
    split at hstep
    · split at hstep <;> cases hstep <;>
        exact (hopen nofun nofun).goesOn rfl rfl rfl rfl rfl nofun nofun hbrackets
    · cases hstep
      exact (hopen nofun nofun).goesOn rfl rfl rfl rfl rfl nofun nofun hbrackets
  case injecting =>
    cases hpending : s.pendingMessages with
    | cons => rw [hpending] at hstep; cases hstep
    | nil =>
      rw [hpending] at hstep
      cases hstep
      exact (hopen nofun nofun).goesOn rfl rfl rfl rfl rfl nofun nofun hbrackets
  case responded message =>
    split at hstep <;> cases hstep <;>
      exact (hopen nofun nofun).goesOn rfl rfl rfl rfl rfl nofun nofun hbrackets
  case batch message b =>
    cases hstage : b.stage <;> rw [hstage] at hstep <;> cases hstep
    refine (hopen nofun nofun).goesOn rfl rfl rfl rfl rfl nofun nofun fun hf => ?_
    obtain ⟨o, hlog, hopens⟩ := hbrackets hf
    simp only [Control.opens, hstage] at hopens
    exact ⟨o, hlog, hopens⟩
  case followUps =>
    split at hstep <;> cases hstep <;>
      exact (hopen nofun nofun).goesOn rfl rfl rfl rfl rfl nofun nofun hbrackets
  case finishing reason =>
    cases hstep
    refine ⟨h.messages, nofun, fun hne => absurd rfl hne, nofun, fun _ => ⟨.inr ?_, rfl, rfl⟩,
      hbrackets⟩
    exact h.ended reason hcontrol
  all_goals cases hstep

theorem taskMoves_bound {task task' : Task} {place : Nat} {event : Option (AgentEvent μ)}
    (hmoves : task.Moves place task' event) :
    ∀ e ∈ event, e.isMessageBound = false ∧ ∀ ms, e ≠ .agentEnd ms := by
  intro e he
  cases hmoves <;> cases he <;> exact ⟨rfl, nofun⟩

theorem Bracketed.aside {log : List (AgentEvent μ)} {o : Option (AgentMessage μ)}
    (h : Bracketed log o) {event : Option (AgentEvent μ)}
    (hevent : ∀ e ∈ event, e.isMessageBound = false) : Bracketed (log ++ event.toList) o := by
  cases event with
  | none => exact (List.append_nil log).symm ▸ h
  | some event => exact .other h (hevent event rfl)

theorem leaveLoop_opens {b : Batch} {o : Option (AgentMessage μ)} :
    b.leaveLoop.stage.opens o ↔ o = none := by
  rw [Batch.leaveLoop]
  cases b.mode <;> rfl

/-- The result messages of a batch are started and ended one by one. -/
theorem batchMoves_bracketed {b b' : Batch} {aborted : Bool} {event : Option (AgentEvent μ)}
    (hmoves : b.Moves aborted b' event) {log : List (AgentEvent μ)} {o : Option (AgentMessage μ)}
    (hlog : Bracketed log o) (hopens : b.stage.opens o) :
    ∃ o', Bracketed (log ++ event.toList) o' ∧ b'.stage.opens o' := by
  have hquiet : o = none → (∀ e ∈ event, e.isMessageBound = false) →
      b'.stage.opens (none : Option (AgentMessage μ)) →
      ∃ o', Bracketed (log ++ event.toList) o' ∧ b'.stage.opens o' := by
    rintro rfl hevent hopens'
    exact ⟨none, hlog.aside hevent, hopens'⟩
  cases hmoves with
  | callsEnd stage _ | abort stage _ =>
    rw [stage] at hopens
    exact hquiet hopens nofun (leaveLoop_opens.mpr rfl)
  | callTruncated stage _ _ | call stage _ _ | endParallel stage _ | endSequential stage _ =>
    rw [stage] at hopens
    exact hquiet hopens (fun e he => by cases he; rfl) rfl
  | runTask stage moves _ | runDone stage moves _ =>
    rw [stage] at hopens
    exact hquiet hopens (fun e he => (taskMoves_bound moves e he).1) rfl
  | joinTask stage _ moves =>
    rw [stage] at hopens
    exact hquiet hopens (fun e he => (taskMoves_bound moves e he).1) (by rw [stage]; rfl)
  | resultStart stage | reportStart stage =>
    rw [stage] at hopens
    obtain rfl := hopens
    exact ⟨_, .start hlog _, rfl⟩
  | resultEnd stage =>
    rw [stage] at hopens
    obtain rfl := hopens
    refine ⟨none, .stop hlog (.inl rfl), ?_⟩
    show Stage.opens (if b.mode = .truncated then .calling else .checking) none
    split <;> rfl
  | reportEnd stage =>
    rw [stage] at hopens
    obtain rfl := hopens
    exact ⟨none, .stop hlog (.inl rfl), rfl⟩
  | refuse stage _ | defer stage _ | run stage _ | joined stage _ | next stage
  | reportsEnd stage =>
    rw [stage] at hopens
    exact hquiet hopens nofun rfl

theorem batchMoves_ne_agentEnd {b b' : Batch} {aborted : Bool} {event : Option (AgentEvent μ)}
    (hmoves : b.Moves aborted b' event) : ∀ e ∈ event, ∀ ms, e ≠ .agentEnd ms := by
  intro e he
  cases hmoves with
  | runTask _ moves _ | runDone _ moves _ | joinTask _ _ moves =>
    exact (taskMoves_bound moves e he).2
  | _ => cases he <;> nofun

theorem Events.batch (h : Events s) {a : BatchAction} {throws : Option String}
    (hstep : s.batch a throws = some t) : Events t := by
  rw [State.batch] at hstep
  cases hcontrol : s.control <;> rw [hcontrol] at hstep <;> dsimp only at hstep <;>
    try cases hstep
  rename_i message b
  obtain ⟨⟨b', event⟩, hb, rfl⟩ := Option.map_eq_some_iff.mp hstep
  have hmoves := Batch.moves_of_step hb
  have hopen : Open s := h.open_ (by rw [hcontrol]; nofun) (by rw [hcontrol]; nofun)
  -- the state behind the event
  have hnext : ∀ {u : State μ}, u.messages = (event.elim s s.emitted).messages →
      u.initial = (event.elim s s.emitted).initial → u.log = (event.elim s s.emitted).log →
      Open u := by
    intro u hmessages hinitial hlog
    have h' : Open (event.elim s s.emitted) := by
      cases event with
      | none => exact hopen
      | some event => exact hopen.emitted (batchMoves_ne_agentEnd hmoves event rfl)
    exact ⟨by rw [hmessages, hinitial, hlog, h'.messages], by rw [hlog]; exact h'.quiet⟩
  dsimp only
  split
  · refine Open.events (hnext rfl rfl rfl) nofun nofun nofun fun hf => ?_
    obtain ⟨o, hlog, hopens⟩ := h.brackets (Bool.or_eq_false_iff.mp hf).1
    rw [hcontrol] at hopens
    obtain ⟨o', hlog', hopens'⟩ := batchMoves_bracketed hmoves hlog hopens
    refine ⟨o', ?_, hopens'⟩
    cases event with
    | none => exact (List.append_nil s.log) ▸ hlog'
    | some event => exact hlog'
  · refine Open.fail ?_ rfl _
    exact hnext rfl rfl rfl

theorem Task.emits_of_step {task task' : Task} {place : Nat} {a : TaskAction}
    {event : AgentEvent μ} (hstep : task.step place a = some (task', some event)) :
    a.emits = true := by
  cases hstage : task.stage <;> cases a <;> simp only [Task.step, hstage, reduceCtorEq] at hstep
  case executing.update | settled.finalize => rfl
  case executing.settle => cases hstep
  case settled.reject =>
    split at hstep <;> cases hstep

/-- A task that was given up emits no message. -/
theorem Events.orphan (h : Events s) {i : Nat} {a : TaskAction} {throws : Option String}
    (horderly : orderly s (.orphan i a throws) = true) (hstep : s.orphan i a throws = some t) :
    Events t := by
  rw [State.orphan] at hstep
  cases horphan : s.orphans[i]? with
  | none => rw [horphan] at hstep; cases hstep
  | some orphan =>
  rw [horphan] at hstep
  obtain ⟨⟨task', event⟩, htask, rfl⟩ := Option.map_eq_some_iff.mp hstep
  have hmoves := Task.moves_of_step htask
  have hbound := taskMoves_bound hmoves
  have hquiet : Events { s with
      orphans := s.orphans.set i (orphan.1, task'), thrown := s.thrown || throws.isSome } :=
    { h with
      failing := fun hf => Bool.or_eq_true_iff.mpr (.inl (h.failing hf))
      brackets := fun hf => h.brackets (Bool.or_eq_false_iff.mp hf).1 }
  cases event with
  | none => exact hquiet
  | some event =>
    obtain ⟨hmessage, hend⟩ := hbound event rfl
    dsimp only
    split
    · rename_i hactive
      have hidle : s.control ≠ .idle := fun hidle => by
        rw [State.active, hidle] at hactive
        cases hactive
      have hfinishing : ∀ reason, s.control ≠ .finishing reason := fun reason hfinishing => by
        simp only [orderly, hfinishing, Task.emits_of_step htask] at horderly
        cases horderly
      have hopen := (hquiet.open_ hidle hfinishing).emitted hend
      refine hopen.events ?_ ?_ ?_ ?_
      · rw [State.control_emitted, State.thrown_emitted]
        exact hquiet.failing
      · rw [State.control_emitted]
        exact hidle
      · rw [State.control_emitted]
        exact hfinishing
      · rw [State.control_emitted, State.thrown_emitted, State.pendingMessages_emitted]
        intro hf
        obtain ⟨o, hlog, hopens⟩ := hquiet.brackets hf
        exact ⟨o, .other hlog hmessage, hopens⟩
    · rename_i hactive
      have hidle : s.control = .idle := by
        rw [State.active] at hactive
        cases hcontrol : s.control <;> rw [hcontrol] at hactive <;>
          first | rfl | exact absurd rfl hactive
      obtain ⟨-, -, hpending⟩ := h.idle hidle
      cases hmoves with
      | update partialResult throws' stage =>
        exact { hquiet with
          brackets := hquiet.brackets }
      | finalize stage toolCall =>
        exact { hquiet with
          idle := fun _ => ⟨(h.idle hidle).1, (h.idle hidle).2.1, by
            show s.pendingToolCalls.filter _ = []
            rw [hpending]
            rfl⟩ }

/-- A run starts with an empty log. -/
theorem events_start (prompts : List (AgentMessage μ)) (skip : Bool) :
    Events (s.start prompts skip) where
  messages := (List.append_nil _).symm
  failing := nofun
  quiet _ _ := nofun
  ended := nofun
  idle := nofun
  brackets _ := ⟨none, .nil, rfl⟩

theorem events_prompt {ms : List μ} (hstep : s.prompt ms = some t) : Events t := by
  rw [State.prompt] at hstep
  split at hstep <;> cases hstep
  exact events_start ..

theorem events_continue (hstep : s.continue_ = some t) : Events t := by
  rw [State.continue_] at hstep
  split at hstep
  swap
  · cases hstep
  split at hstep
  · cases hstep
  · dsimp only at hstep
    split at hstep
    · cases hstep
      exact events_start ..
    · split at hstep <;> cases hstep
      exact events_start ..
  · cases hstep
    exact events_start ..

/-! ## Responses -/

theorem Open.setResponse (h : Open s) (added : Bool) (message : AssistantMessage) :
    Open (s.setResponse added message) := ⟨h.messages, h.quiet⟩

theorem Events.streamStart (h : Events s) {message : AssistantMessage} {throws : Option String}
    (hstep : s.streamStart message throws = some t) : Events t := by
  rw [State.streamStart] at hstep
  split at hstep <;> cases hstep
  rename_i hcontrol
  have hopen := h.open_ (by rw [hcontrol]; nofun) (by rw [hcontrol]; nofun)
  refine (hopen.setResponse false message).delivered nofun ?_ nofun nofun nofun fun hf => ?_
  · show s.control.failing = true → _
    rw [hcontrol]
    nofun
  · obtain ⟨o, hlog, hopens⟩ := h.brackets hf
    rw [hcontrol] at hopens
    obtain rfl : o = none := hopens
    exact ⟨_, .start hlog _, message, rfl⟩

theorem Events.streamUpdate (h : Events s) {message : AssistantMessage} {throws : Option String}
    (hstep : s.streamUpdate message throws = some t) : Events t := by
  rw [State.streamUpdate] at hstep
  split at hstep <;> cases hstep
  rename_i hcontrol
  have hopen := h.open_ (by rw [hcontrol]; nofun) (by rw [hcontrol]; nofun)
  refine (hopen.setResponse true message).delivered nofun ?_ nofun nofun nofun fun hf => ?_
  · show s.control.failing = true → _
    rw [hcontrol]
    nofun
  · obtain ⟨o, hlog, hopens⟩ := h.brackets hf
    rw [hcontrol] at hopens
    exact ⟨o, .other hlog rfl, hopens⟩

theorem Events.streamDone (h : Events s) {message : AssistantMessage}
    (hstep : s.streamDone message = some t) : Events t := by
  rw [State.streamDone] at hstep
  split at hstep <;> cases hstep
  all_goals
    rename_i hcontrol
    have hopen := h.open_ (by rw [hcontrol]; nofun) (by rw [hcontrol]; nofun)
    have hbrackets := h.brackets
    rw [hcontrol] at hbrackets
    exact hopen.goesOn rfl rfl rfl rfl rfl nofun nofun hbrackets

/-! ## Runs -/

theorem Events.step (h : Events s) {a : Action μ} (horderly : orderly s a = true)
    (hstep : s.step a = some t) : Events t := by
  cases a with
  | prompt ms => exact events_prompt hstep
  | continue_ => exact events_continue hstep
  | steer message | followUp message | steeringMode mode | followUpMode mode =>
    cases hstep
    exact { h with }
  | abort =>
    rw [State.step] at hstep
    split at hstep <;> cases hstep
    exact { h with }
  | emit throws => exact h.emit horderly hstep
  | go => exact h.go hstep
  | requested | nextTurn context =>
    rw [State.step] at hstep
    split at hstep <;> cases hstep
    rename_i hcontrol
    have hopen := h.open_ (by rw [hcontrol]; nofun) (by rw [hcontrol]; nofun)
    have hbrackets := h.brackets
    rw [hcontrol] at hbrackets
    exact hopen.goesOn rfl rfl rfl rfl rfl nofun nofun hbrackets
  | streamStart message throws => exact h.streamStart hstep
  | streamUpdate message throws => exact h.streamUpdate hstep
  | streamDone message => exact h.streamDone hstep
  | shouldStop stop =>
    rw [State.step] at hstep
    split at hstep <;> cases hstep
    rename_i hcontrol
    have hopen := h.open_ (by rw [hcontrol]; nofun) (by rw [hcontrol]; nofun)
    have hbrackets := h.brackets
    rw [hcontrol] at hbrackets
    cases stop <;> exact hopen.goesOn rfl rfl rfl rfl rfl nofun nofun hbrackets
  | hookThrows error =>
    rw [State.step] at hstep
    cases hcontrol : s.control <;> rw [hcontrol] at hstep <;> cases hstep
    all_goals
      exact (h.open_ (by rw [hcontrol]; nofun) (by rw [hcontrol]; nofun)).fail
        (by rw [hcontrol]; rfl) error
  | batch a throws => exact h.batch hstep
  | orphan i a throws => exact h.orphan horderly hstep

theorem events_new (messages : List (AgentMessage μ)) (tools : List AgentTool)
    (toolExecution : ToolExecutionMode) (steeringMode followUpMode : QueueMode) :
    Events (State.new messages tools toolExecution steeringMode followUpMode) where
  messages := (List.append_nil _).symm
  failing := nofun
  quiet := fun hidle => absurd rfl hidle
  ended := nofun
  idle _ := ⟨.inl rfl, rfl, rfl⟩
  brackets _ := ⟨none, .nil, rfl⟩

/-- A run that is over has one `agent_end`, and its messages are those of the state. -/
theorem events_bracketed (messages : List (AgentMessage μ)) (tools : List AgentTool)
    (toolExecution : ToolExecutionMode) (steeringMode followUpMode : QueueMode)
    (as : List (Action μ))
    (hrun : as.foldlM (fun s a => if orderly s a = true then s.step a else none)
      (State.new messages tools toolExecution steeringMode followUpMode) = some s)
    (hover : s.control = .idle) (hran : s.log ≠ []) : Closed s := by
  have h : Events s := Runs.run_induction_if (fun _ _ _ h horderly hstep => h.step horderly hstep)
    as (events_new ..) hrun
  obtain ⟨hlog, hstreaming, hpending⟩ := h.idle hover
  refine ⟨hlog.resolve_left hran, h.messages, hstreaming, hpending, fun hthrown => ?_⟩
  obtain ⟨o, hbracketed, hopens⟩ := h.brackets hthrown
  rw [hover] at hopens
  obtain rfl : o = none := hopens
  exact hbracketed

/-- A run whose stream function throws. -/
def failedRun : List (Action String) :=
  [.prompt ["a"], .emit none, .emit none, .emit none, .emit none, .go, .go, .go, .go,
    .hookThrows "offline", .emit none, .emit none, .emit none, .emit none, .go]

theorem failedRun_closed : ∃ s : State String,
    failedRun.foldlM (fun s a => if orderly s a = true then s.step a else none)
      (.new [] [] .parallel .all .all) = some s ∧ Closed s := by
  have hover : (failedRun.foldlM (fun s a => if orderly s a = true then s.step a else none)
      (State.new [] [] .parallel .all .all)).any (fun s =>
        s.control = .idle ∧ s.log ≠ []) = true := by
    decide
  obtain ⟨s, hs, hidle⟩ := (Option.any_eq_true ..).mp hover
  obtain ⟨hcontrol, hlog⟩ := of_decide_eq_true hidle
  exact ⟨s, hs, events_bracketed [] [] .parallel .all .all failedRun hs hcontrol hlog⟩

/-- A listener throws at `agent_end`. -/
def throwingRun : List (Action String) :=
  [.prompt ["a"], .emit none, .emit none, .emit none, .emit none, .go, .go, .go, .go, .requested,
    .streamDone ⟨[], .stop, none⟩, .emit none, .emit none, .go, .emit none, .nextTurn none,
    .shouldStop false, .go, .go, .go, .emit (some "listener"), .emit none, .emit none, .emit none,
    .emit none, .go]

def AgentEvent.isEnd : AgentEvent μ → Bool
  | .agentEnd _ => true
  | _ => false

theorem EndsOnce.count {log : List (AgentEvent μ)} (h : EndsOnce log) :
    (log.filter (·.isEnd)).length = 1 := by
  obtain ⟨front, messages, rfl, hfront⟩ := h
  have hnone : front.filter (·.isEnd) = [] := by
    rw [List.filter_eq_nil_iff]
    intro event hevent hend
    cases event with
    | agentEnd ms => exact hfront ms hevent
    | _ => cases hend
  rw [List.filter_append, hnone]
  rfl

theorem throwingRun_not_closed : ¬ ∀ s : State String,
    throwingRun.foldlM State.step (.new [] [] .parallel .all .all) = some s → Closed s := by
  intro hall
  have htwice : ((throwingRun.foldlM State.step (State.new [] [] .parallel .all .all)).map fun s =>
      (s.log.filter (·.isEnd)).length) = some 2 := by
    decide
  obtain ⟨s, hs, hlength⟩ := Option.map_eq_some_iff.mp htwice
  have hone := (hall s hs).ends.count
  omega

end PiMono.Agent
