import PiMono.Lib.Runs

/-!
# Idle sessions

`prompt`, `sendCustomMessage`, `_runAgentPrompt`, `_emitAgentSettled` and `waitForIdle` of
`packages/coding-agent/src/core/agent-session.ts`, with the check of `Agent.prompt` and
`Agent.continue`, as the steps of many calls in any order. What a run, a retry or a compaction
does is left to the steps.

A call whose run begins while no run is active and nobody is told of a settled one keeps the flag
`_isAgentRunActive` for itself. So without a compaction in front of a prompt, `isIdle` says what
its comment promises.
-/

namespace PiMono.CodingAgent.Idle

/-- Where a call is. -/
inductive Phase where
  -- `prompt`, in front of its check of `isStreaming`
  | preflight
  | admitted
  -- the auto-compaction of the preflight, and what comes behind it
  | compactingFirst
  | preparing
  -- the agent's run, and `_handlePostAgentRun` behind it
  | running
  | posting
  | sleeping
  | compacting
  -- something has thrown, and the `finally` of `_runAgentPrompt` comes next
  | failing
  -- the extensions are told that the agent has settled
  | settling
  | done
  deriving DecidableEq

namespace Phase

/-- An agent run, a retry wait, an auto-compaction or a continuation is in progress. -/
def inProgress : Phase → Bool
  | compactingFirst | running | posting | sleeping | compacting => true
  | _ => false

/-- The call is within the `try` of `_runAgentPrompt`. -/
def isLive : Phase → Bool
  | running | posting | sleeping | compacting | failing => true
  | _ => false

/-- The call is in front of its run, or behind all of it. -/
def isQuiet : Phase → Bool
  | preflight | admitted | preparing | done => true
  | _ => false

end Phase

/-- What callers and listeners see. -/
inductive Notice where
  | agentSettled
  -- a promise of `waitForIdle` resolves
  | idle
  deriving DecidableEq

/-- The session: its calls, the one that holds `agent.activeRun`, `_isAgentRunActive`, how many
wait for `_idleWaitPromise`, and each notice with whether anything was in progress then. -/
structure State where
  calls : List Phase
  agentRun : Option Nat
  isAgentRunActive : Bool
  waiting : Nat
  notices : List (Notice × Bool)
  deriving DecidableEq

def initial : State := ⟨[], none, false, 0, []⟩

inductive Action where
  | prompt
  -- an extension command or an input handler has handled the prompt, or its preflight throws
  | handled (call : Nat)
  -- the input handlers are done: the prompt is queued, refused or admitted
  | checkStreaming (call : Nat)
  -- the model has its authentication; and whether `_checkCompaction` compacts
  | prepare (call : Nat) (compacts : Bool)
  | preparedCompaction (call : Nat)
  | start (call : Nat)
  | sendCustomMessage (nextTurn triggerTurn : Bool)
  | runEnds (call : Nat)
  -- `_handlePostAgentRun` waits for a retry or a compaction, and is back
  | retry (call : Nat)
  | compact (call : Nat)
  | waited (call : Nat)
  | continueRun (call : Nat)
  | throws (call : Nat)
  -- the `finally` of `_runAgentPrompt`, up to the extensions' handlers, and behind them
  | finish (call : Nat)
  | settled (call : Nat)
  | waitForIdle

namespace State

/-- Whether anything is in progress. -/
def busy (s : State) : Bool := s.calls.any (·.inProgress)

/-- `isIdle`, and the negation of `isStreaming`. -/
def isIdle (s : State) : Bool := !s.isAgentRunActive

def move (s : State) (call : Nat) (phase : Phase) : State :=
  { s with calls := s.calls.set call phase }

def notify (s : State) (notices : List Notice) : State :=
  { s with notices := s.notices ++ notices.map (·, s.busy) }

/-- `Agent.prompt` and `Agent.continue`: they throw while a run is active. -/
def runAgent (s : State) (call : Nat) : State :=
  if s.agentRun.isSome then s.move call .failing
  else { s.move call .running with agentRun := some call }

/-- `_runAgentPrompt` -/
def runAgentPrompt (s : State) (call : Nat) : State :=
  { s with isAgentRunActive := true }.runAgent call

/-- `_emitAgentSettled`, up to its `await`. -/
def emitAgentSettled (s : State) (call : Nat) : State :=
  { s.move call .settling with isAgentRunActive := false }.notify [.agentSettled]

/-- `_resolveIdleWaitIfIdle` -/
def resolveIdleWaitIfIdle (s : State) : State :=
  if s.isAgentRunActive then s
  else { s.notify (List.replicate s.waiting .idle) with waiting := 0 }

end State

def step (s : State) : Action → Option State
  | .prompt => some { s with calls := s.calls ++ [.preflight] }
  | .handled call =>
    match s.calls[call]? with
    | some .preflight | some .admitted | some .preparing => some (s.move call .done)
    | _ => none
  | .checkStreaming call =>
    match s.calls[call]? with
    | some .preflight => some (s.move call (if s.isAgentRunActive then .done else .admitted))
    | _ => none
  | .prepare call compacts =>
    match s.calls[call]? with
    | some .admitted => some (s.move call (if compacts then .compactingFirst else .preparing))
    | _ => none
  | .preparedCompaction call =>
    match s.calls[call]? with
    | some .compactingFirst => some (s.move call .preparing)
    | _ => none
  | .start call =>
    match s.calls[call]? with
    | some .preparing => some (s.runAgentPrompt call)
    | _ => none
  | .sendCustomMessage nextTurn triggerTurn =>
    if nextTurn || s.isAgentRunActive || !triggerTurn then some s
    else some ({ s with calls := s.calls ++ [Phase.preparing] }.runAgentPrompt s.calls.length)
  | .runEnds call =>
    match s.calls[call]? with
    | some .running => some { s.move call .posting with agentRun := none }
    | _ => none
  | .retry call =>
    match s.calls[call]? with
    | some .posting => some (s.move call .sleeping)
    | _ => none
  | .compact call =>
    match s.calls[call]? with
    | some .posting => some (s.move call .compacting)
    | _ => none
  | .waited call =>
    match s.calls[call]? with
    | some .sleeping | some .compacting => some (s.move call .posting)
    | _ => none
  | .continueRun call =>
    match s.calls[call]? with
    | some .posting => some (s.runAgent call)
    | _ => none
  | .throws call =>
    match s.calls[call]? with
    | some .running => some { s.move call .failing with agentRun := none }
    | some .posting | some .sleeping | some .compacting => some (s.move call .failing)
    | _ => none
  | .finish call =>
    match s.calls[call]? with
    | some .posting | some .failing => some (s.emitAgentSettled call)
    | _ => none
  | .settled call =>
    match s.calls[call]? with
    | some .settling => some ((s.move call .done).notify [.agentSettled]).resolveIdleWaitIfIdle
    | _ => none
  | .waitForIdle =>
    if s.isIdle then some (s.notify [.idle]) else some { s with waiting := s.waiting + 1 }

/-- A run. -/
def run (s : State) (actions : List Action) : Option State := actions.foldlM step s

/-- A run begins while none is active and nobody is told of a settled one, and no prompt compacts
in front of its run. -/
def sound (s : State) : Action → Bool
  | .start _ => !s.isAgentRunActive && !s.calls.contains .settling
  | .sendCustomMessage nextTurn triggerTurn =>
    nextTurn || s.isAgentRunActive || !triggerTurn || !s.calls.contains .settling
  | .prepare _ compacts => !compacts
  | _ => true

/-- A run in which every step is sound. -/
def runSound (s : State) (actions : List Action) : Option State :=
  actions.foldlM (fun s a => if sound s a then step s a else none) s

/-! ## The flag belongs to one call -/

/-- While a call is within its run, the flag is set, and all others are quiet. -/
structure Inv (s : State) : Prop where
  live : ∀ (i : Nat) (phase : Phase), s.calls[i]? = some phase → phase.isLive = true →
    s.isAgentRunActive = true ∧
      ∀ (j : Nat) (other : Phase), j ≠ i → s.calls[j]? = some other → other.isQuiet = true
  noCompaction : Phase.compactingFirst ∉ s.calls
  settling : Phase.settling ∈ s.calls → s.isAgentRunActive = false
  notices : ∀ notice ∈ s.notices, notice.2 = false

theorem inv_initial : Inv initial where
  live := fun _ _ h => nomatch h
  noCompaction := List.not_mem_nil
  settling := fun _ => rfl
  notices := nofun

variable {s : State}

theorem Phase.isLive_of_isQuiet {phase : Phase} (h : phase.isQuiet = true) :
    phase.isLive = false := by
  cases phase <;> first | rfl | cases h

theorem Phase.eq_of_inProgress {phase : Phase} (h : phase.inProgress = true) :
    phase = .compactingFirst ∨ phase.isLive = true := by
  cases phase <;> first | exact .inl rfl | exact .inr rfl | cases h

/-- Without the flag, nothing is in progress. -/
theorem Inv.not_busy (h : Inv s) (hidle : s.isAgentRunActive = false) : s.busy = false := by
  refine List.any_eq_false.mpr fun phase hphase hbusy => ?_
  rcases Phase.eq_of_inProgress hbusy with rfl | hlive
  · exact h.noCompaction hphase
  · obtain ⟨i, hi⟩ := List.mem_iff_getElem?.mp hphase
    have hactive := (h.live i phase hi hlive).1
    rw [hidle] at hactive
    cases hactive

theorem Inv.notify (h : Inv s) (hidle : s.isAgentRunActive = false) (notices : List Notice) :
    Inv (s.notify notices) where
  live := h.live
  noCompaction := h.noCompaction
  settling := h.settling
  notices := by
    intro notice hnotice
    rcases List.mem_append.mp hnotice with hold | hnew
    · exact h.notices notice hold
    · obtain ⟨_, -, rfl⟩ := List.mem_map.mp hnew
      exact h.not_busy hidle

theorem Inv.withRun (h : Inv s) (agentRun : Option Nat) (waiting : Nat) :
    Inv { s with agentRun, waiting } :=
  ⟨h.live, h.noCompaction, h.settling, h.notices⟩

/-- A call that stays within its run, or in front of it, or behind it. -/
theorem Inv.move (h : Inv s) {call : Nat} {phase next : Phase}
    (hphase : s.calls[call]? = some phase) (hlive : next.isLive = true → phase.isLive = true)
    (hquiet : phase.isQuiet = true → next.isQuiet = true) (hfirst : next ≠ .compactingFirst)
    (hsettling : next ≠ .settling) : Inv (s.move call next) where
  live := by
    intro i other hother halive
    have hcall : call < s.calls.length := (List.getElem?_eq_some_iff.mp hphase).1
    have hlater : ∀ (j : Nat) (p : Phase), (s.calls.set call next)[j]? = some p →
        (j = call ∧ p = next) ∨ (j ≠ call ∧ s.calls[j]? = some p) := by
      intro j p hj
      by_cases heq : j = call
      · subst heq
        rw [List.getElem?_set_self hcall] at hj
        exact .inl ⟨rfl, (Option.some.inj hj).symm⟩
      · rw [List.getElem?_set_ne (Ne.symm heq)] at hj
        exact .inr ⟨heq, hj⟩
    have hbefore : ∃ p, s.calls[i]? = some p ∧ p.isLive = true := by
      rcases hlater i other hother with ⟨rfl, rfl⟩ | ⟨-, hi⟩
      · exact ⟨phase, hphase, hlive halive⟩
      · exact ⟨other, hi, halive⟩
    obtain ⟨p, hp, hplive⟩ := hbefore
    obtain ⟨hactive, hothers⟩ := h.live i p hp hplive
    refine ⟨hactive, fun j q hij hq => ?_⟩
    rcases hlater j q hq with ⟨rfl, rfl⟩ | ⟨-, hj⟩
    · exact hquiet (hothers j phase hij hphase)
    · exact hothers j q hij hj
  noCompaction := by
    intro hmem
    rcases List.mem_or_eq_of_mem_set hmem with hold | hnew
    · exact h.noCompaction hold
    · exact hfirst hnew.symm
  settling := by
    intro hmem
    rcases List.mem_or_eq_of_mem_set hmem with hold | hnew
    · exact h.settling hold
    · exact absurd hnew.symm hsettling
  notices := h.notices

theorem Inv.append (h : Inv s) {phase : Phase} (hquiet : phase.isQuiet = true) :
    Inv { s with calls := s.calls ++ [phase] } := by
  have hnotLive := Phase.isLive_of_isQuiet hquiet
  have hlater : ∀ (j : Nat) (p : Phase), (s.calls ++ [phase])[j]? = some p →
      p = phase ∨ s.calls[j]? = some p := by
    intro j p hj
    by_cases hlt : j < s.calls.length
    · rw [List.getElem?_append_left hlt] at hj
      exact .inr hj
    · rw [List.getElem?_append_right (Nat.le_of_not_lt hlt)] at hj
      exact .inl (List.mem_singleton.mp (List.mem_of_getElem? hj))
  refine ⟨fun i p hp hplive => ?_, fun hmem => ?_, fun hmem => ?_, h.notices⟩
  · rcases hlater i p hp with rfl | hi
    · rw [hnotLive] at hplive
      cases hplive
    · obtain ⟨hactive, hothers⟩ := h.live i p hi hplive
      refine ⟨hactive, fun j q hij hq => ?_⟩
      rcases hlater j q hq with rfl | hj
      · exact hquiet
      · exact hothers j q hij hj
  · rcases List.mem_append.mp hmem with hold | hnew
    · exact h.noCompaction hold
    · rw [← List.mem_singleton.mp hnew] at hquiet
      cases hquiet
  · rcases List.mem_append.mp hmem with hold | hnew
    · exact h.settling hold
    · rw [← List.mem_singleton.mp hnew] at hquiet
      cases hquiet

/-- Where no call is within its run, and none is told of a settled one, all are quiet. -/
theorem Inv.quiet (h : Inv s) (hidle : s.isAgentRunActive = false)
    (hsettling : Phase.settling ∉ s.calls) {i : Nat} {phase : Phase}
    (hi : s.calls[i]? = some phase) : phase.isQuiet = true := by
  have hmem := List.mem_of_getElem? hi
  have hlive : phase.isLive = false := by
    by_contra hlive
    have hactive := (h.live i phase hi ((Bool.not_eq_false _).mp hlive)).1
    rw [hidle] at hactive
    cases hactive
  cases phase with
  | compactingFirst => exact absurd hmem h.noCompaction
  | settling => exact absurd hmem hsettling
  | preflight | admitted | preparing | done => rfl
  | running | posting | sleeping | compacting | failing => cases hlive

theorem inv_runAgentPrompt (h : Inv s) (hidle : s.isAgentRunActive = false)
    (hsettling : Phase.settling ∉ s.calls) (call : Nat) : Inv (s.runAgentPrompt call) := by
  have hstarted : ∀ phase : Phase, phase ≠ .compactingFirst → phase ≠ .settling →
      Inv ({ s with isAgentRunActive := true }.move call phase) := by
    intro phase hfirst hnotSettling
    refine ⟨fun i p hp hplive => ⟨rfl, fun j q hij hq => ?_⟩, fun hmem => ?_, fun hmem => ?_,
      h.notices⟩
    · have hothers : ∀ (k : Nat) (p : Phase), k ≠ call →
          (s.calls.set call phase)[k]? = some p → p.isQuiet = true := by
        intro k p hk hkp
        rw [List.getElem?_set_ne (Ne.symm hk)] at hkp
        exact h.quiet hidle hsettling hkp
      by_cases heq : j = call
      · -- then the other call is within its run, and was quiet
        have hquiet := hothers i p (fun hi => hij (heq.trans hi.symm)) hp
        rw [Phase.isLive_of_isQuiet hquiet] at hplive
        cases hplive
      · exact hothers j q heq hq
    · rcases List.mem_or_eq_of_mem_set hmem with hold | hnew
      · exact h.noCompaction hold
      · exact hfirst hnew.symm
    · rcases List.mem_or_eq_of_mem_set hmem with hold | hnew
      · exact absurd hold hsettling
      · exact absurd hnew.symm hnotSettling
  unfold State.runAgentPrompt State.runAgent
  split
  · exact hstarted .failing nofun nofun
  · exact (hstarted .running nofun nofun).withRun (some call) s.waiting

theorem inv_emitAgentSettled (h : Inv s) {call : Nat} {phase : Phase}
    (hphase : s.calls[call]? = some phase) (hlive : phase.isLive = true) :
    Inv (s.emitAgentSettled call) := by
  obtain ⟨-, hothers⟩ := h.live call phase hphase hlive
  have hcall : call < s.calls.length := (List.getElem?_eq_some_iff.mp hphase).1
  have hnone : ∀ (i : Nat) (p : Phase), (s.calls.set call .settling)[i]? = some p →
      p.isLive = false := by
    intro i p hi
    by_cases heq : i = call
    · subst heq
      rw [List.getElem?_set_self hcall] at hi
      rw [← Option.some.inj hi]
      rfl
    · rw [List.getElem?_set_ne (Ne.symm heq)] at hi
      exact Phase.isLive_of_isQuiet (hothers i p heq hi)
  have hmoved : Inv { s.move call .settling with isAgentRunActive := false } := by
    refine ⟨fun i p hi hplive => ?_, fun hmem => ?_, fun _ => rfl, h.notices⟩
    · rw [hnone i p hi] at hplive
      cases hplive
    · rcases List.mem_or_eq_of_mem_set hmem with hold | hnew
      · exact h.noCompaction hold
      · cases hnew
  exact hmoved.notify rfl _

theorem inv_settled (h : Inv s) {call : Nat} (hphase : s.calls[call]? = some .settling) :
    Inv ((s.move call .done).notify [.agentSettled]).resolveIdleWaitIfIdle := by
  have hidle := h.settling (List.mem_of_getElem? hphase)
  have hmoved : Inv (s.move call .done) := h.move hphase nofun nofun nofun nofun
  have hnotified := hmoved.notify hidle [.agentSettled]
  unfold State.resolveIdleWaitIfIdle
  split
  · exact hnotified
  · have hwaiting := hnotified.notify hidle (List.replicate s.waiting .idle)
    exact hwaiting.withRun s.agentRun 0

/-- A call that moves between phases of one kind. -/
theorem Inv.stays (h : Inv s) {call : Nat} {phase next : Phase}
    (hphase : s.calls[call]? = some phase)
    (hkind : phase.isLive = true ∧ next.isLive = true ∨
      phase.isQuiet = true ∧ next.isQuiet = true) : Inv (s.move call next) := by
  rcases hkind with ⟨hphase', hnext⟩ | ⟨hphase', hnext⟩
  · refine h.move hphase (fun _ => hphase') (fun hquiet => ?_) ?_ ?_
    · rw [Phase.isLive_of_isQuiet hquiet] at hphase'
      cases hphase'
    · rintro rfl
      cases hnext
    · rintro rfl
      cases hnext
  · refine h.move hphase (fun hlive => ?_) (fun _ => hnext) ?_ ?_
    · rw [Phase.isLive_of_isQuiet hnext] at hlive
      cases hlive
    · rintro rfl
      cases hnext
    · rintro rfl
      cases hnext

theorem Inv.step (h : Inv s) (action : Action) {t : State} (hsound : sound s action = true)
    (hstep : step s action = some t) : Inv t := by
  cases action with
  | prompt => exact Option.some.inj hstep ▸ h.append rfl
  | handled call =>
    simp only [Idle.step] at hstep
    split at hstep
    case h_1 hphase | h_2 hphase | h_3 hphase =>
      exact Option.some.inj hstep ▸ h.stays hphase (.inr ⟨rfl, rfl⟩)
    case h_4 => cases hstep
  | checkStreaming call =>
    simp only [Idle.step] at hstep
    split at hstep
    case h_1 hphase =>
      refine Option.some.inj hstep ▸ h.stays hphase (.inr ⟨rfl, ?_⟩)
      split <;> rfl
    case h_2 => cases hstep
  | prepare call compacts =>
    simp only [Idle.step] at hstep
    split at hstep
    case h_1 hphase =>
      rw [if_neg (by simpa [sound] using hsound)] at hstep
      exact Option.some.inj hstep ▸ h.stays hphase (.inr ⟨rfl, rfl⟩)
    case h_2 => cases hstep
  | preparedCompaction call =>
    simp only [Idle.step] at hstep
    split at hstep
    case h_1 hphase => exact absurd (List.mem_of_getElem? hphase) h.noCompaction
    case h_2 => cases hstep
  | start call =>
    simp only [Idle.step] at hstep
    split at hstep
    case h_1 =>
      obtain ⟨hidle, hsettling⟩ : s.isAgentRunActive = false ∧ Phase.settling ∉ s.calls := by
        simpa [sound] using hsound
      exact Option.some.inj hstep ▸ inv_runAgentPrompt h hidle hsettling call
    case h_2 => cases hstep
  | sendCustomMessage nextTurn triggerTurn =>
    simp only [Idle.step] at hstep
    split at hstep
    · exact Option.some.inj hstep ▸ h
    · rename_i hstarts
      have hidle : s.isAgentRunActive = false := by
        cases hactive : s.isAgentRunActive with
        | false => rfl
        | true => exact absurd (by simp [hactive]) hstarts
      have hsettling : Phase.settling ∉ s.calls := by
        intro hmem
        simp only [sound, Bool.or_eq_true] at hsound
        refine hsound.elim (fun hqueued => hstarts (by simpa using hqueued)) fun hnone => ?_
        rw [List.contains_iff_mem.mpr hmem] at hnone
        cases hnone
      refine Option.some.inj hstep ▸ inv_runAgentPrompt (h.append rfl) hidle (fun hmem => ?_) _
      rcases List.mem_append.mp hmem with hold | hnew
      · exact hsettling hold
      · cases List.mem_singleton.mp hnew
  | runEnds call =>
    simp only [Idle.step] at hstep
    split at hstep
    case h_1 hphase =>
      exact Option.some.inj hstep ▸
        (h.stays hphase (.inl ⟨rfl, rfl⟩)).withRun none s.waiting
    case h_2 => cases hstep
  | retry call | compact call =>
    simp only [Idle.step] at hstep
    split at hstep
    case h_1 hphase => exact Option.some.inj hstep ▸ h.stays hphase (.inl ⟨rfl, rfl⟩)
    case h_2 => cases hstep
  | waited call =>
    simp only [Idle.step] at hstep
    split at hstep
    case h_1 hphase | h_2 hphase =>
      exact Option.some.inj hstep ▸ h.stays hphase (.inl ⟨rfl, rfl⟩)
    case h_3 => cases hstep
  | continueRun call =>
    simp only [Idle.step] at hstep
    split at hstep
    case h_1 hphase =>
      refine Option.some.inj hstep ▸ ?_
      unfold State.runAgent
      split
      · exact h.stays hphase (.inl ⟨rfl, rfl⟩)
      · exact (h.stays hphase (.inl ⟨rfl, rfl⟩)).withRun (some call) s.waiting
    case h_2 => cases hstep
  | throws call =>
    simp only [Idle.step] at hstep
    split at hstep
    case h_1 hphase =>
      exact Option.some.inj hstep ▸
        (h.stays hphase (.inl ⟨rfl, rfl⟩)).withRun none s.waiting
    case h_2 hphase | h_3 hphase | h_4 hphase =>
      exact Option.some.inj hstep ▸ h.stays hphase (.inl ⟨rfl, rfl⟩)
    case h_5 => cases hstep
  | finish call =>
    simp only [Idle.step] at hstep
    split at hstep
    case h_1 hphase | h_2 hphase =>
      exact Option.some.inj hstep ▸ inv_emitAgentSettled h hphase rfl
    case h_3 => cases hstep
  | settled call =>
    simp only [Idle.step] at hstep
    split at hstep
    case h_1 hphase => exact Option.some.inj hstep ▸ inv_settled h hphase
    case h_2 => cases hstep
  | waitForIdle =>
    simp only [Idle.step] at hstep
    split at hstep
    · rename_i hidle
      exact Option.some.inj hstep ▸ h.notify ((Bool.not_eq_true' _).mp hidle) _
    · exact Option.some.inj hstep ▸ h.withRun s.agentRun (s.waiting + 1)

theorem inv_runSound {actions : List Action} (hrun : runSound initial actions = some s) : Inv s :=
  @Runs.run_induction_if _ _ _ Inv (fun s a => sound s a = true) _
    (fun _ a _ h hsound hstep => h.step a hsound hstep) actions _ _ inv_initial hrun

/-- Idle means idle: in whatever order the calls go on. -/
theorem idle_means_idle {actions : List Action} (hrun : runSound initial actions = some s) :
    (s.busy = true → s.isIdle = false) ∧ ∀ notice ∈ s.notices, notice.2 = false := by
  have h := inv_runSound hrun
  refine ⟨fun hbusy => ?_, h.notices⟩
  cases hactive : s.isAgentRunActive with
  | false =>
    rw [h.not_busy hactive] at hbusy
    cases hbusy
  | true =>
    rw [State.isIdle, hactive]
    rfl

/-! ## Examples -/

/-- A prompt, and a custom message that is queued; somebody waits. -/
def oneAfterAnother : List Action :=
  [.prompt, .prompt, .checkStreaming 0, .prepare 0 false, .start 0, .checkStreaming 1,
    .waitForIdle, .runEnds 0,
    .retry 0, .sendCustomMessage false true, .waited 0, .continueRun 0, .runEnds 0, .finish 0,
    .settled 0]

theorem idle_means_idle_queued :
    ∃ s, runSound initial oneAfterAnother = some s
      ∧ s.notices.map Prod.fst = [.agentSettled, .agentSettled, .idle]
      ∧ ∀ notice ∈ s.notices, notice.2 = false := by
  have hrun : (runSound initial oneAfterAnother).isSome = true := by decide
  obtain ⟨s, hs⟩ := Option.isSome_iff_exists.mp hrun
  have hnotices : (runSound initial oneAfterAnother).map (·.notices.map Prod.fst)
      = some [.agentSettled, .agentSettled, .idle] := by decide
  rw [hs] at hnotices
  exact ⟨s, hs, Option.some.inj hnotices, (idle_means_idle hs).2⟩

/-- Both prompts are admitted before one of them begins: the agent refuses the second, whose
`finally` says that the first has settled. -/
def overlapping : List Action :=
  [.prompt, .prompt, .checkStreaming 0, .checkStreaming 1, .prepare 0 false, .prepare 1 false,
    .start 0, .start 1,
    .finish 1]

/-- A prompt compacts in front of its run. -/
def compactsFirst : List Action := [.prompt, .checkStreaming 0, .prepare 0 true]

/-- A prompt begins while the extensions are told that another one has settled. -/
def whileSettling : List Action :=
  [.prompt, .checkStreaming 0, .prepare 0 false, .start 0, .runEnds 0, .finish 0, .prompt,
    .checkStreaming 1,
    .prepare 1 false, .start 1, .settled 0]

theorem idle_while_busy :
    (run initial overlapping).map (fun s => (s.isIdle, s.busy, s.notices))
        = some (true, true, [(.agentSettled, true)])
      ∧ (run initial compactsFirst).map (fun s => (s.isIdle, s.busy)) = some (true, true)
      ∧ (run initial whileSettling).map (·.notices)
        = some [(.agentSettled, false), (.agentSettled, true)] := by decide

end PiMono.CodingAgent.Idle
