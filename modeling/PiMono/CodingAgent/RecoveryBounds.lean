import PiMono.CodingAgent.Recovery

/-!
# Recovery is bounded

In a run whose steps are `sound`, every series of retries is told as `Told` says, and between two
responses with stop reason `stop` or `toolUse` the prompt is continued `2 * maxRetries + 1` times
at most: twice `maxRetries` retries, and the one recovery from an overflow between them.

- `allowed` is how often a prompt may still have been continued, by the flag of the recovery and
  the counter of the retries;
- `Inv` holds the events, the counter and this bound together, with what the messages end with;
- each action keeps it (`inv_respond` to `inv_compacted`), and so does a run (`inv_runSound`).
-/

namespace PiMono.CodingAgent.Recovery

/-- The series that a counter says is open. -/
def seriesOf : Nat → Series
  | 0 => .closed
  | attempt + 1 => .failing (attempt + 1)

/-- The continuations that a counter and the flag allow. -/
def allowed (maxRetries : Nat) (recovered : Bool) (attempt : Nat) : Nat :=
  (if recovered then maxRetries + 1 else 0) + attempt

/-- Without queued messages, this many continuations. -/
def Bounded (s : State) (bound : Nat) : Prop := s.queued = false → s.continued ≤ bound

/-- The agent can go on. -/
def EndsWithInput (messages : List Message) : Prop :=
  ∃ init last, messages = init ++ [last] ∧ last.isAssistant = false

/-- What an assistant message allows, once its retry is over. -/
def bound (maxRetries : Nat) (s : State) (response : Response) : Nat :=
  if response.stopReason = .aborted then 2 * maxRetries + 1
  else allowed maxRetries s.overflowRecoveryAttempted maxRetries

/-- What holds of the messages and the continuations in each phase. -/
def PhaseInv (maxRetries : Nat) (s : State) : Prop :=
  match s.phase with
  | .running => EndsWithInput s.messages ∧
    Bounded s (allowed maxRetries s.overflowRecoveryAttempted s.retryAttempt)
  | .handling response =>
    if response.stopReason = .error then
      (∃ init, s.messages = init ++ [messageOf response] ∧ EndsWithInput init) ∧
        Bounded s (allowed maxRetries s.overflowRecoveryAttempted s.retryAttempt)
    else s.retryAttempt = 0 ∧ Bounded s (bound maxRetries s response)
  | .sleeping response => response.stopReason = .error ∧ 0 < s.retryAttempt ∧
    EndsWithInput s.messages ∧
    (s.queued = false →
      s.continued + 1 ≤ allowed maxRetries s.overflowRecoveryAttempted s.retryAttempt)
  | .checking response => s.retryAttempt = 0 ∧ Bounded s (bound maxRetries s response)
  | .compacting willRetry => s.retryAttempt = 0 ∧ Bounded s (2 * maxRetries + 1) ∧
    (willRetry = true → s.overflowRecoveryAttempted = true ∧ Bounded s maxRetries)
  | .settled => s.retryAttempt = 0 ∧ Bounded s (2 * maxRetries + 1)

/-- What a prompt keeps. -/
structure Inv (maxRetries : Nat) (s : State) : Prop where
  told : Told maxRetries s.events (seriesOf s.retryAttempt)
  attempt : s.retryAttempt ≤ maxRetries
  phase : PhaseInv maxRetries s

/-- It holds at the start. -/
theorem inv_initial (maxRetries : Nat) (context : List Message) :
    Inv maxRetries (initial context) where
  told := rfl
  attempt := Nat.zero_le _
  phase := ⟨⟨context, .user, rfl, rfl⟩, fun _ => Nat.zero_le _⟩

/-- The flag and `maxRetries` attempts allow the most. -/
theorem allowed_le {maxRetries attempt : Nat} (h : attempt ≤ maxRetries) (recovered : Bool) :
    allowed maxRetries recovered attempt ≤ allowed maxRetries recovered maxRetries ∧
      allowed maxRetries recovered maxRetries ≤ 2 * maxRetries + 1 := by
  unfold allowed
  cases recovered
  · rw [if_neg Bool.false_ne_true]
    omega
  · rw [if_pos rfl]
    omega

/-- No response allows more than all that is allowed. -/
theorem bound_le (maxRetries : Nat) (s : State) (response : Response) :
    bound maxRetries s response ≤ 2 * maxRetries + 1 := by
  unfold bound
  split
  · exact Nat.le_refl _
  · exact (allowed_le (Nat.le_refl _) _).2

theorem Bounded.mono {s : State} {b c : Nat} (h : Bounded s b) (hbc : b ≤ c) : Bounded s c :=
  fun hqueued => Nat.le_trans (h hqueued) hbc

section Steps

variable {config : Config} {s : State}

/-! ## The end of a prompt, and its continuation -/

/-- The same, to be evaluated. -/
theorem endsWithInput_iff {messages : List Message} :
    EndsWithInput messages ↔ messages.getLast?.any (!·.isAssistant) = true := by
  constructor
  · rintro ⟨init, last, rfl, hlast⟩
    rw [List.getLast?_concat, Option.any_some, hlast]
    rfl
  · intro h
    obtain ⟨last, hlast, hinput⟩ := (Option.any_eq_true _ _).mp h
    obtain ⟨init, hinit⟩ := List.getLast?_eq_some_iff.mp hlast
    exact ⟨init, last, hinit, (Bool.not_eq_true' _).mp hinput⟩

theorem endsWithInput_of_ne_nil {messages more : List Message} (hmore : more ≠ [])
    (hinput : ∀ message ∈ more, message.isAssistant = false) :
    EndsWithInput (messages ++ more) := by
  obtain ⟨init, last, rfl⟩ := (List.eq_nil_or_concat more).resolve_left hmore
  rw [List.concat_eq_append] at hinput ⊢
  exact ⟨messages ++ init, last, (List.append_assoc ..).symm, hinput last (by simp)⟩

/-- Queued messages are input. -/
theorem EndsWithInput.append {messages queue : List Message} (h : EndsWithInput messages)
    (hqueue : ∀ message ∈ queue, message.isAssistant = false) :
    EndsWithInput (messages ++ queue) := by
  by_cases hnil : queue = []
  · rw [hnil, List.append_nil]
    exact h
  · exact endsWithInput_of_ne_nil hnil hqueue

theorem not_isAssistant_of_isQueued {queue : List Message} (h : queue.all (·.isQueued) = true) :
    ∀ message ∈ queue, message.isAssistant = false := by
  intro message hmessage
  have hqueued := List.all_eq_true.mp h message hmessage
  cases message with
  | assistant failed => cases hqueued
  | _ => rfl

/-- A prompt that settles may be continued from the start. -/
theorem inv_settle {maxRetries : Nat} (h : Told maxRetries s.events (seriesOf s.retryAttempt))
    (hattempt : s.retryAttempt = 0) (hbounded : Bounded s (2 * maxRetries + 1)) :
    Inv maxRetries s.settle where
  told := by
    rw [hattempt] at h
    show Told maxRetries (s.events ++ [.agentSettled]) (seriesOf s.retryAttempt)
    rw [hattempt]
    exact Runs.path_concat h .settled
  attempt := by
    show s.retryAttempt ≤ maxRetries
    rw [hattempt]
    exact Nat.zero_le _
  phase := ⟨hattempt, hbounded⟩

/-- A continuation that the counter and the flag allow, or that queued messages ask for. -/
theorem inv_continueRun {maxRetries : Nat} (h : Told maxRetries s.events (seriesOf s.retryAttempt))
    (hattempt : s.retryAttempt ≤ maxRetries) {queue : List Message}
    (hqueue : queue.all (·.isQueued) = true)
    (hbounded : s.queued = false →
      s.continued + 1 ≤ allowed maxRetries s.overflowRecoveryAttempted s.retryAttempt)
    (hthrows : ¬ EndsWithInput s.messages → s.retryAttempt = 0) :
    Inv maxRetries (s.continueRun queue) := by
  unfold State.continueRun
  dsimp only
  by_cases hinput : EndsWithInput s.messages
  · rw [if_pos (endsWithInput_iff.mp hinput)]
    exact ⟨h, hattempt, hinput, hbounded⟩
  · rw [if_neg fun hlast => hinput (endsWithInput_iff.mpr hlast)]
    split
    · rename_i hqueued
      refine ⟨h, hattempt, ?_, fun hnone => ?_⟩
      · exact endsWithInput_of_ne_nil hqueued.2 (not_isAssistant_of_isQueued hqueue)
      · have hsome : (s.queued || decide (queue ≠ [])) = false := hnone
        rw [decide_eq_true hqueued.2, Bool.or_true] at hsome
        cases hsome
    · refine inv_settle h (hthrows hinput) fun hnone => ?_
      exact Nat.le_trans (hbounded hnone)
        (Nat.le_trans (allowed_le hattempt _).1 (allowed_le hattempt _).2)

/-- So may one that goes on with the queue, or settles without one. -/
theorem inv_finishPost {maxRetries : Nat} (h : Told maxRetries s.events (seriesOf s.retryAttempt))
    (hattempt : s.retryAttempt = 0) (hbounded : Bounded s (2 * maxRetries + 1))
    {queue : List Message} (hqueue : queue.all (·.isQueued) = true) :
    Inv maxRetries (s.finishPost queue) := by
  unfold State.finishPost
  split
  · exact inv_settle h hattempt hbounded
  · refine inv_continueRun (s := { s with queued := true }) h ?_ hqueue
      (fun hnone => by cases hnone) fun _ => hattempt
    show s.retryAttempt ≤ maxRetries
    rw [hattempt]
    exact Nat.zero_le _

/-! ## The end of a response -/

/-- A response that is no error resets the counter. -/
theorem messageEnd_retryAttempt (s : State) (response : Response) :
    (messageEnd s response).retryAttempt
      = if response.stopReason = .error then s.retryAttempt else 0 := by
  unfold messageEnd
  cases response.stopReason <;> cases hattempt : s.retryAttempt <;> simp [State.emit, hattempt]

theorem messageEnd_messages (s : State) (response : Response) :
    (messageEnd s response).messages = s.messages ++ [messageOf response] := by
  unfold messageEnd
  dsimp only
  split <;> split <;> rfl

theorem messageEnd_phase (s : State) (response : Response) :
    (messageEnd s response).phase = s.phase := by
  unfold messageEnd
  dsimp only
  split <;> split <;> rfl

/-- A complete response resets the flag. -/
theorem messageEnd_recovered (s : State) (response : Response) :
    (messageEnd s response).overflowRecoveryAttempted
      = (s.overflowRecoveryAttempted
        && (response.stopReason = .error || response.stopReason = .length)) := by
  unfold messageEnd
  dsimp only
  split <;> split <;> rfl

/-- A response that is complete starts the count again; another one leaves it. -/
theorem Bounded.messageEnd {b : Nat} (h : Bounded s b) (response : Response) :
    Bounded (messageEnd s response) b := by
  unfold Recovery.messageEnd
  dsimp only
  split <;> split
  · exact fun _ => Nat.zero_le _
  · exact fun _ => Nat.zero_le _
  · exact h
  · exact h

/-- Behind a complete response nothing has been continued yet. -/
theorem bounded_of_complete {response : Response}
    (h : response.stopReason = .stop ∨ response.stopReason = .toolUse) (b : Nat) :
    Bounded (messageEnd s response) b := by
  unfold Recovery.messageEnd
  dsimp only
  rw [if_pos h]
  split <;> exact fun _ => Nat.zero_le _

/-- The events tell how a response ends its series of retries, unless it is aborted. -/
theorem told_messageEnd {maxRetries : Nat} (h : Told maxRetries s.events (seriesOf s.retryAttempt))
    {response : Response} (hsound : s.retryAttempt = 0 ∨ response.stopReason ≠ .aborted) :
    Told maxRetries (messageEnd s response).events
      (seriesOf (messageEnd s response).retryAttempt) := by
  rw [messageEnd_retryAttempt]
  by_cases herror : response.stopReason = .error
  · have hevents : (messageEnd s response).events = s.events ++ [.response .error] := by
      unfold messageEnd
      simp [State.emit, herror]
    rw [if_pos herror, hevents]
    cases hattempt : s.retryAttempt with
    | zero =>
      rw [hattempt] at h
      exact Runs.path_concat h (.response _)
    | succ attempt =>
      rw [hattempt] at h
      exact Runs.path_concat h (.failed _)
  · rw [if_neg herror]
    cases hattempt : s.retryAttempt with
    | zero =>
      have hevents : (messageEnd s response).events
          = s.events ++ [.response response.stopReason] := by
        unfold messageEnd
        cases response.stopReason <;> simp [State.emit, hattempt]
      rw [hevents]
      rw [hattempt] at h
      exact Runs.path_concat h (.response _)
    | succ attempt =>
      have haborted := hsound.resolve_left fun hzero => by rw [hzero] at hattempt; cases hattempt
      have hevents : (messageEnd s response).events
          = s.events ++ [.response response.stopReason] ++ [.retryEnd true (attempt + 1)] := by
        unfold messageEnd
        cases hreason : response.stopReason <;> first
          | exact absurd hreason herror
          | exact absurd hreason haborted
          | simp [State.emit, hattempt]
      rw [hattempt] at h
      have hanswered := Runs.path_concat h (.answered (attempt + 1) response.stopReason herror)
      rw [decide_eq_true haborted] at hanswered
      rw [hevents]
      exact Runs.path_concat hanswered (.ended _ _)

/-- Queued messages make room for more continuations. -/
theorem phaseInv_deliver {maxRetries : Nat} (hphase : s.phase = .running) {queue : List Message}
    (hinput : EndsWithInput (s.messages ++ queue))
    (hbounded : queue = [] →
      Bounded s (allowed maxRetries s.overflowRecoveryAttempted s.retryAttempt)) :
    PhaseInv maxRetries (s.deliver queue) := by
  have hphase' : (s.deliver queue).phase = .running := hphase
  rw [PhaseInv, hphase']
  refine ⟨hinput, fun hnone => ?_⟩
  have hnone : (s.queued || decide (queue ≠ [])) = false := hnone
  obtain ⟨hqueued, hnil⟩ := Bool.or_eq_false_iff.mp hnone
  have hnil := not_not.mp (of_decide_eq_false hnil)
  have hflag : (s.deliver queue).overflowRecoveryAttempted = s.overflowRecoveryAttempted := by
    rw [hnil]
    exact Bool.and_true _
  rw [hflag]
  exact hbounded hnil hqueued

/-- A response, with the results of its calls. -/
theorem inv_respond {maxRetries : Nat} (h : Inv maxRetries s) (hrunning : s.phase = .running)
    {response : Response} {toolResults : Nat} {stops : Bool} {queue : List Message}
    (hqueue : queue.all (·.isQueued) = true)
    (hsound : sound s (.respond response toolResults stops queue) = true) :
    Inv maxRetries (respond s response toolResults stops queue) := by
  obtain ⟨htold, hattempt, hphase⟩ := h
  rw [PhaseInv, hrunning] at hphase
  obtain ⟨hinput, hbounded⟩ := hphase
  have hsound : s.retryAttempt = 0 ∨ (response.stopReason ≠ .aborted
      ∧ (response.stopReason ≠ .length ∨ toolResults = 0 ∨ stops = true)) := by
    simpa [sound, or_assoc] using hsound
  have htold' := told_messageEnd htold (hsound.imp_right And.left)
  have hattempt' : (messageEnd s response).retryAttempt ≤ maxRetries := by
    rw [messageEnd_retryAttempt]
    split
    · exact hattempt
    · exact Nat.zero_le _
  have hzero : response.stopReason ≠ .error → (messageEnd s response).retryAttempt = 0 := by
    intro herror
    rw [messageEnd_retryAttempt, if_neg herror]
  unfold respond
  dsimp only
  split
  · rename_i hfails
    refine ⟨htold', hattempt', ?_⟩
    unfold PhaseInv
    dsimp only
    split
    · rename_i herror
      refine ⟨⟨s.messages, messageEnd_messages s response, hinput⟩, ?_⟩
      have hkept := hbounded.messageEnd response
      rw [messageEnd_retryAttempt, if_pos herror, messageEnd_recovered, herror]
      show Bounded (messageEnd s response) _
      simpa using hkept
    · rename_i herror
      refine ⟨hzero herror, ?_⟩
      rw [bound, if_pos (hfails.resolve_left herror)]
      exact (hbounded.messageEnd response).mono
        (Nat.le_trans (allowed_le hattempt _).1 (allowed_le hattempt _).2)
  · rename_i hfails
    obtain ⟨herror, haborted⟩ := not_or.mp hfails
    -- a truncated response keeps the flag, any other one starts the count again
    have hcases : (response.stopReason = .stop ∨ response.stopReason = .toolUse) ∨
        (response.stopReason = .length
          ∧ (messageEnd s response).overflowRecoveryAttempted = s.overflowRecoveryAttempted) := by
      rw [messageEnd_recovered]
      cases hreason : response.stopReason with
      | stop => exact .inl (.inl rfl)
      | toolUse => exact .inl (.inr rfl)
      | length => exact .inr ⟨rfl, by simp⟩
      | error => exact absurd hreason herror
      | aborted => exact absurd hreason haborted
    split
    · refine ⟨htold', hattempt', ?_⟩
      unfold PhaseInv
      dsimp only
      rw [if_neg herror, bound, if_neg haborted]
      refine ⟨hzero herror, ?_⟩
      rcases hcases with hcomplete | ⟨-, hflag⟩
      · exact bounded_of_complete (s := s) hcomplete _
      · show Bounded (messageEnd s response) (allowed maxRetries
          (messageEnd s response).overflowRecoveryAttempted maxRetries)
        rw [hflag]
        exact (hbounded.messageEnd response).mono (allowed_le hattempt _).1
    · rename_i hgoes
      refine ⟨htold', hattempt', ?_⟩
      refine phaseInv_deliver (s := { messageEnd s response with
        messages := (messageEnd s response).messages
          ++ List.replicate toolResults Message.toolResult })
        ((messageEnd_phase s response).trans hrunning) ?_ ?_
      · show EndsWithInput ((messageEnd s response).messages
          ++ List.replicate toolResults .toolResult ++ queue)
        rw [messageEnd_messages, List.append_assoc, List.append_assoc, ← List.append_assoc]
        refine endsWithInput_of_ne_nil ?_ ?_
        · rintro hnil
          obtain ⟨hresults, rfl⟩ := List.append_eq_nil_iff.mp hnil
          rw [List.replicate_eq_nil_iff] at hresults
          exact hgoes ⟨.inl hresults, rfl⟩
        · intro message hmessage
          rcases List.mem_append.mp hmessage with hresult | hqueued
          · rw [List.eq_of_mem_replicate hresult]
            rfl
          · exact not_isAssistant_of_isQueued hqueue message hqueued
      · intro hnil
        show Bounded (messageEnd s response) (allowed maxRetries
          (messageEnd s response).overflowRecoveryAttempted (messageEnd s response).retryAttempt)
        rcases hcases with hcomplete | ⟨hlength, hflag⟩
        · exact bounded_of_complete (s := s) hcomplete _
        · have hclosed : s.retryAttempt = 0 := by
            refine hsound.resolve_right fun ⟨_, hends⟩ => ?_
            exact hgoes ⟨hends.resolve_left (absurd hlength), hnil⟩
          rw [hflag, hzero herror, ← hclosed]
          exact hbounded.messageEnd response

/-! ## Behind a run -/

/-- A retry drops the failed response, which is the last message. -/
theorem dropFailed_eq (t : State) {init : List Message} {response : Response}
    (h : t.messages = init ++ [messageOf response]) :
    t.dropFailed = { t with messages := init } := by
  have hlast : t.messages.getLast?.any (·.isAssistant) = true := by
    rw [h, List.getLast?_concat]
    rfl
  rw [State.dropFailed, if_pos hlast, h, List.dropLast_concat]

/-- A failed response starts a retry, or is checked. -/
theorem inv_handle {maxRetries : Nat} (hmax : config.maxRetries = maxRetries)
    (h : Inv maxRetries s) {response : Response} (hhandling : s.phase = .handling response) :
    Inv maxRetries (handle config s response) := by
  obtain ⟨htold, hattempt, hphase⟩ := h
  rw [PhaseInv, hhandling] at hphase
  dsimp only at hphase
  unfold handle
  split
  · rename_i hretry
    obtain ⟨hretryable, -, hleft⟩ := hretry
    have herror : response.stopReason = .error := by
      simp only [isRetryableError, isRetryableAssistantError, Bool.and_eq_true,
        decide_eq_true_eq] at hretryable
      exact hretryable.2.1.1.1
    rw [if_pos herror] at hphase
    obtain ⟨⟨init, hmessages, hinput⟩, hbounded⟩ := hphase
    dsimp only
    rw [hmax] at hleft
    rw [@dropFailed_eq _ init response]
    rotate_left
    · exact hmessages
    refine ⟨?_, hleft, herror, Nat.succ_pos _, hinput, fun hnone => ?_⟩
    · show Told maxRetries (s.events ++ [.retryStart (s.retryAttempt + 1)])
        (.failing (s.retryAttempt + 1))
      cases hcount : s.retryAttempt with
      | zero =>
        rw [hcount] at htold hleft
        exact Runs.path_concat htold (.first hleft)
      | succ attempt =>
        rw [hcount] at htold hleft
        exact Runs.path_concat htold (.again _ hleft)
    · have hcontinued := hbounded hnone
      unfold allowed at hcontinued ⊢
      show s.continued + 1 ≤ (if s.overflowRecoveryAttempted = true then _ else _) + (_ + 1)
      omega
  · split
    · rename_i hends
      obtain ⟨herror, hopen⟩ := hends
      rw [if_pos herror] at hphase
      have hnotAborted : response.stopReason ≠ .aborted := by
        rw [herror]
        exact nofun
      refine ⟨?_, Nat.zero_le _, rfl, ?_⟩
      · show Told maxRetries (s.events ++ [.retryEnd false s.retryAttempt]) .closed
        obtain ⟨attempt, hcount⟩ := Nat.exists_eq_add_one_of_ne_zero (Nat.ne_of_gt hopen)
        rw [hcount] at htold ⊢
        exact Runs.path_concat htold (.givenUp _)
      · rw [bound, if_neg hnotAborted]
        exact hphase.2.mono (allowed_le hattempt _).1
    · rename_i hends
      refine ⟨htold, hattempt, ?_⟩
      unfold PhaseInv
      dsimp only
      by_cases herror : response.stopReason = .error
      · have hclosed : s.retryAttempt = 0 := by
          have hnot : ¬ 0 < s.retryAttempt := fun hopen => hends ⟨herror, hopen⟩
          omega
        have hnotAborted : response.stopReason ≠ .aborted := by
          rw [herror]
          exact nofun
        rw [if_pos herror] at hphase
        refine ⟨hclosed, ?_⟩
        rw [bound, if_neg hnotAborted]
        exact hphase.2.mono (allowed_le hattempt _).1
      · rw [if_neg herror] at hphase
        exact hphase

/-- The retry goes on when its delay is over. -/
theorem inv_wake {maxRetries : Nat} (h : Inv maxRetries s) {response : Response}
    (hsleeping : s.phase = .sleeping response) {queue : List Message}
    (hqueue : queue.all (·.isQueued) = true) : Inv maxRetries (s.continueRun queue) := by
  obtain ⟨htold, hattempt, hphase⟩ := h
  rw [PhaseInv, hsleeping] at hphase
  obtain ⟨-, -, hinput, hbounded⟩ := hphase
  exact inv_continueRun htold hattempt hqueue hbounded fun hthrows => absurd hinput hthrows

/-- The delay of a retry is cancelled. -/
theorem inv_cancel {maxRetries : Nat} (h : Inv maxRetries s) {response : Response}
    (hsleeping : s.phase = .sleeping response) :
    Inv maxRetries { s.emit [.retryEnd false s.retryAttempt] with
      retryAttempt := 0, phase := .checking response } := by
  obtain ⟨htold, hattempt, hphase⟩ := h
  rw [PhaseInv, hsleeping] at hphase
  obtain ⟨herror, hopen, -, hbounded⟩ := hphase
  have hnotAborted : response.stopReason ≠ .aborted := by
    rw [herror]
    exact nofun
  refine ⟨?_, Nat.zero_le _, rfl, ?_⟩
  · show Told maxRetries (s.events ++ [.retryEnd false s.retryAttempt]) .closed
    obtain ⟨attempt, hcount⟩ := Nat.exists_eq_add_one_of_ne_zero (Nat.ne_of_gt hopen)
    rw [hcount] at htold ⊢
    exact Runs.path_concat htold (.givenUp _)
  · rw [bound, if_neg hnotAborted]
    refine fun hnone => Nat.le_trans (Nat.le_of_succ_le (hbounded hnone)) ?_
    exact (allowed_le hattempt _).1

/-- The check for a compaction, which recovers from an overflow once. -/
theorem inv_check {maxRetries : Nat} (h : Inv maxRetries s) {response : Response}
    (hchecking : s.phase = .checking response) {facts : Facts}
    (hqueue : facts.queue.all (·.isQueued) = true) :
    Inv maxRetries (check config s response facts) := by
  obtain ⟨htold, hattempt, hphase⟩ := h
  rw [PhaseInv, hchecking] at hphase
  obtain ⟨hclosed, hbounded⟩ := hphase
  have hwide := hbounded.mono (bound_le maxRetries s response)
  have hpost := inv_finishPost htold hclosed hwide hqueue
  have hcompacting : Inv maxRetries { s with phase := .compacting false } :=
    ⟨htold, hattempt, hclosed, hwide, nofun⟩
  unfold check
  split
  · exact hpost
  · rename_i hskip
    split
    · split
      · exact hcompacting
      · split
        · exact hpost
        · rename_i hrecovered
          have haborted : response.stopReason ≠ .aborted := by
            intro haborted
            exact hskip (by simp [haborted])
          rw [bound, if_neg haborted, allowed, if_neg hrecovered, Nat.zero_add] at hbounded
          unfold State.dropFailed
          dsimp only
          split
          · exact ⟨htold, hattempt, hclosed, hwide, fun _ => ⟨rfl, hbounded⟩⟩
          · exact ⟨htold, hattempt, hclosed, hwide, fun _ => ⟨rfl, hbounded⟩⟩
    · split
      · exact hcompacting
      · exact hpost

/-- The end of a compaction. -/
theorem inv_compacted {maxRetries : Nat} (h : Inv maxRetries s) {willRetry : Bool}
    (hcompacting : s.phase = .compacting willRetry) {messages : List Message} {done : Bool}
    {queue : List Message} (hqueue : queue.all (·.isQueued) = true) :
    Inv maxRetries (compacted s willRetry messages done queue) := by
  obtain ⟨htold, hattempt, hphase⟩ := h
  rw [PhaseInv, hcompacting] at hphase
  obtain ⟨hclosed, hbounded, hretried⟩ := hphase
  unfold compacted
  dsimp only
  split
  · rename_i hretry
    obtain ⟨hflag, hfew⟩ := hretried hretry.2
    have hallowed : s.queued = false →
        s.continued + 1 ≤ allowed maxRetries s.overflowRecoveryAttempted s.retryAttempt := by
      intro hnone
      rw [allowed, if_pos hflag, hclosed]
      exact Nat.succ_le_succ (hfew hnone)
    split
    · unfold State.dropFailed
      split
      · exact inv_continueRun (s := { s with messages := messages.dropLast }) htold hattempt hqueue
          hallowed fun _ => hclosed
      · exact inv_continueRun (s := { s with messages }) htold hattempt hqueue hallowed
          fun _ => hclosed
    · exact inv_continueRun (s := { s with messages }) htold hattempt hqueue hallowed
        fun _ => hclosed
  · exact inv_finishPost (s := { s with messages }) htold hclosed hbounded hqueue

/-- Every sound step keeps the invariant. -/
theorem Inv.step (h : Inv config.maxRetries s) (action : Action) {t : State}
    (hsound : sound s action = true) (hstep : step config s action = some t) :
    Inv config.maxRetries t := by
  cases action with
  | respond response toolResults stops queue =>
    cases hphase : s.phase <;> simp only [Recovery.step, hphase, reduceCtorEq] at hstep
    obtain ⟨hqueue, hstep⟩ := Option.ite_none_right_eq_some.mp hstep
    exact Option.some.inj hstep ▸ inv_respond h hphase hqueue hsound
  | deliver queue =>
    cases hphase : s.phase <;> simp only [Recovery.step, hphase, reduceCtorEq] at hstep
    obtain ⟨hqueue, hstep⟩ := Option.ite_none_right_eq_some.mp hstep
    have hrunning := h.phase
    rw [PhaseInv, hphase] at hrunning
    refine Option.some.inj hstep ▸
      ⟨h.told, h.attempt, phaseInv_deliver hphase ?_ fun _ => hrunning.2⟩
    exact hrunning.1.append (not_isAssistant_of_isQueued hqueue)
  | handle =>
    cases hphase : s.phase <;> simp only [Recovery.step, hphase, reduceCtorEq] at hstep
    exact Option.some.inj hstep ▸ inv_handle rfl h hphase
  | wake queue =>
    cases hphase : s.phase <;> simp only [Recovery.step, hphase, reduceCtorEq] at hstep
    obtain ⟨hqueue, hstep⟩ := Option.ite_none_right_eq_some.mp hstep
    exact Option.some.inj hstep ▸ inv_wake h hphase hqueue
  | cancel =>
    cases hphase : s.phase <;> simp only [Recovery.step, hphase, reduceCtorEq] at hstep
    exact Option.some.inj hstep ▸ inv_cancel h hphase
  | check facts =>
    cases hphase : s.phase <;> simp only [Recovery.step, hphase, reduceCtorEq] at hstep
    obtain ⟨hqueue, hstep⟩ := Option.ite_none_right_eq_some.mp hstep
    exact Option.some.inj hstep ▸ inv_check h hphase hqueue
  | compacted messages done queue =>
    cases hphase : s.phase <;> simp only [Recovery.step, hphase, reduceCtorEq] at hstep
    obtain ⟨hqueue, hstep⟩ := Option.ite_none_right_eq_some.mp hstep
    exact Option.some.inj hstep ▸ inv_compacted h hphase hqueue

/-! ## Runs -/

/-- In every phase the prompt has been continued at most so often. -/
theorem Inv.bounded {maxRetries : Nat} (h : Inv maxRetries s) :
    Bounded s (2 * maxRetries + 1) := by
  obtain ⟨-, hattempt, hphase⟩ := h
  have hallowed : allowed maxRetries s.overflowRecoveryAttempted s.retryAttempt
      ≤ 2 * maxRetries + 1 :=
    Nat.le_trans (allowed_le hattempt _).1 (allowed_le hattempt _).2
  cases hcase : s.phase with
  | running =>
    rw [PhaseInv, hcase] at hphase
    exact hphase.2.mono hallowed
  | handling response =>
    rw [PhaseInv, hcase] at hphase
    dsimp only at hphase
    split at hphase
    · exact hphase.2.mono hallowed
    · exact hphase.2.mono (bound_le maxRetries s response)
  | sleeping response =>
    rw [PhaseInv, hcase] at hphase
    exact fun hnone => Nat.le_trans (Nat.le_of_succ_le (hphase.2.2.2 hnone)) hallowed
  | checking response =>
    rw [PhaseInv, hcase] at hphase
    exact hphase.2.mono (bound_le maxRetries s response)
  | compacting willRetry =>
    rw [PhaseInv, hcase] at hphase
    exact hphase.2.1
  | settled =>
    rw [PhaseInv, hcase] at hphase
    exact hphase.2

/-- So does every run of sound steps. -/
theorem inv_runSound {context : List Message} {actions : List Action}
    (hrun : runSound config (initial context) actions = some s) : Inv config.maxRetries s :=
  @Runs.run_induction_if _ _ _ (Inv config.maxRetries) (fun s a => sound s a = true) _
    (fun _ a _ h hsound hstep => h.step a hsound hstep) actions _ _
    (inv_initial config.maxRetries context) hrun

/-- Whatever responses come: what has been told is allowed, no series is open once the agent has
settled, and the continuations are bounded. -/
theorem recovery_bounded {context : List Message} {actions : List Action}
    (hrun : runSound config (initial context) actions = some s) :
    Told config.maxRetries s.events (seriesOf s.retryAttempt)
      ∧ (s.phase = .settled → seriesOf s.retryAttempt = .closed)
      ∧ (s.queued = false → s.continued ≤ 2 * config.maxRetries + 1) := by
  have h := inv_runSound hrun
  refine ⟨h.told, fun hsettled => ?_, h.bounded⟩
  have hphase := h.phase
  rw [PhaseInv, hsettled] at hphase
  rw [hphase.1]
  rfl

end Steps

/-! ## Examples -/

/-- One retry, and every error text is one to retry. -/
def onceRetried : Config where
  retryEnabled := true
  maxRetries := 1
  compactionEnabled := true
  contextWindow := 1000
  maxTokens := 100
  nonRetryable _ := false
  retryable _ := true
  nonOverflow _ := true
  overflow _ := false

def overloaded : Response := ⟨.error, some (js "overloaded"), 0, 0, 0⟩

def truncated : Response := ⟨.length, none, 10, 100, 0⟩

def retried : List Action :=
  [.respond overloaded 0 false [], .handle, .wake [],
    .respond ⟨.stop, none, 10, 5, 0⟩ 0 false [], .handle, .check ⟨true, false, false, []⟩]

theorem recovery_bounded_retried :
    ∃ s, runSound onceRetried (initial []) retried = some s
      ∧ s.events = [.response .error, .retryStart 1, .response .stop, .retryEnd true 1,
        .agentSettled]
      ∧ Told 1 s.events (seriesOf s.retryAttempt)
      ∧ s.continued ≤ 3 := by
  have hrun : (runSound onceRetried (initial []) retried).isSome = true := by decide
  obtain ⟨s, hs⟩ := Option.isSome_iff_exists.mp hrun
  have hevents : (runSound onceRetried (initial []) retried).map (fun s => (s.events, s.queued))
      = some ([.response .error, .retryStart 1, .response .stop, .retryEnd true 1,
        .agentSettled], false) := by decide
  rw [hs] at hevents
  have hpair := Option.some.inj hevents
  have h := recovery_bounded hs
  exact ⟨s, hs, congrArg Prod.fst hpair, h.1, h.2.2 (congrArg Prod.snd hpair)⟩

/-- The user aborts the retried response: it ends the series, as a success. -/
theorem aborted_retry_succeeds :
    (run onceRetried (initial []) [.respond overloaded 0 false [], .handle, .wake [],
        .respond ⟨.aborted, none, 0, 0, 0⟩ 0 false []]).map (·.events)
      = some [.response .error, .retryStart 1, .response .aborted, .retryEnd true 1]
      ∧ ¬ ∃ series, Told 1
        [.response .error, .retryStart 1, .response .aborted, .retryEnd true 1] series := by
  refine ⟨by decide, ?_⟩
  rintro ⟨series, _, hfailed, _, hstart, _, haborted, _, hend, -⟩
  cases hfailed
  cases hstart
  cases haborted
  cases hend

/-- An error that is retried, and a truncated response that goes on with a tool result. -/
def truncatedRound : List Action :=
  [.respond overloaded 0 false [], .handle, .wake [], .respond truncated 1 false []]

theorem run_truncatedRound {s : State} (hrunning : s.phase = .running)
    (hattempt : s.retryAttempt = 0) (hinput : EndsWithInput s.messages) :
    ∃ t, run onceRetried s truncatedRound = some t ∧ t.phase = .running ∧ t.retryAttempt = 0
      ∧ EndsWithInput t.messages ∧ t.continued = s.continued + 1 ∧ t.queued = s.queued := by
  obtain ⟨phase, messages, retryAttempt, recovered, events, continued, queued⟩ := s
  dsimp only at hrunning hattempt hinput
  subst hrunning hattempt
  have hlast := endsWithInput_iff.mp hinput
  have hrespond : step onceRetried ⟨.running, messages, 0, recovered, events, continued, queued⟩
      (.respond overloaded 0 false []) = some ⟨.handling overloaded,
        messages ++ [messageOf overloaded], 0, recovered, events ++ [.response .error], continued,
        queued⟩ := by
    simp [step, respond, messageEnd, State.emit, overloaded]
  have hhandle : step onceRetried ⟨.handling overloaded, messages ++ [messageOf overloaded], 0,
      recovered, events ++ [.response .error], continued, queued⟩ .handle
        = some ⟨.sleeping overloaded, messages, 1, recovered,
          events ++ [.response .error] ++ [.retryStart 1], continued, queued⟩ := by
    have htaken : isRetryableError onceRetried overloaded = true ∧ true = true ∧ 0 + 1 ≤ 1 :=
      ⟨by decide, rfl, Nat.le_refl _⟩
    refine congrArg some ?_
    unfold handle
    refine (if_pos htaken).trans ?_
    rw [@dropFailed_eq _ messages overloaded]
    · rfl
    · rfl
  have hwake : step onceRetried ⟨.sleeping overloaded, messages, 1, recovered,
      events ++ [.response .error] ++ [.retryStart 1], continued, queued⟩ (.wake [])
        = some ⟨.running, messages, 1, recovered,
          events ++ [.response .error] ++ [.retryStart 1], continued + 1, queued⟩ := by
    simp [step, State.continueRun, endsWithInput_iff.mp hinput]
  have hgoesOn : step onceRetried ⟨.running, messages, 1, recovered,
      events ++ [.response .error] ++ [.retryStart 1], continued + 1, queued⟩
        (.respond truncated 1 false []) = some ⟨.running,
          messages ++ [.assistant true] ++ [.toolResult], 0, recovered,
          events ++ [.response .error] ++ [.retryStart 1] ++ [.response .length]
            ++ [.retryEnd true 1], continued + 1, queued⟩ := by
    simp [step, respond, messageEnd, messageOf, State.emit, State.deliver, truncated]
  refine ⟨⟨.running, messages ++ [.assistant true] ++ [.toolResult], 0, recovered,
    events ++ [.response .error] ++ [.retryStart 1] ++ [.response .length] ++ [.retryEnd true 1],
    continued + 1, queued⟩, ?_, rfl, rfl, ⟨_, .toolResult, rfl, rfl⟩, rfl, rfl⟩
  show run onceRetried _ [_, _, _, _] = some _
  unfold run
  rw [List.foldlM_cons, hrespond, Option.bind_eq_bind, Option.bind_some, List.foldlM_cons, hhandle,
    Option.bind_eq_bind, Option.bind_some, List.foldlM_cons, hwake, Option.bind_eq_bind,
    Option.bind_some, List.foldlM_cons, hgoesOn]
  rfl

/-- Truncated responses between the errors: the prompt is continued without end. -/
theorem continuations_unbounded (n : Nat) :
    ∃ t, run onceRetried (initial []) (List.replicate n truncatedRound).flatten = some t
      ∧ t.queued = false ∧ t.continued = n := by
  have hrounds : ∃ t,
      run onceRetried (initial []) (List.replicate n truncatedRound).flatten = some t
        ∧ t.phase = .running ∧ t.retryAttempt = 0 ∧ EndsWithInput t.messages
        ∧ t.continued = n ∧ t.queued = false := by
    induction n with
    | zero => exact ⟨_, rfl, rfl, rfl, ⟨[], .user, rfl, rfl⟩, rfl, rfl⟩
    | succ n ih =>
      obtain ⟨s, hs, hrunning, hattempt, hinput, hcontinued, hqueued⟩ := ih
      obtain ⟨t, ht, h⟩ := run_truncatedRound hrunning hattempt hinput
      refine ⟨t, ?_, h.1, h.2.1, h.2.2.1, ?_, ?_⟩
      · unfold run at hs ht ⊢
        rw [List.replicate_succ', List.flatten_append, List.foldlM_append, hs,
          List.flatten_singleton]
        exact ht
      · rw [h.2.2.2.1, hcontinued]
      · rw [h.2.2.2.2, hqueued]
  obtain ⟨t, ht, -, -, -, hcontinued, hqueued⟩ := hrounds
  exact ⟨t, ht, hqueued, hcontinued⟩

end PiMono.CodingAgent.Recovery
