import PiMono.CodingAgent.Recovery

/-!
# Aborted runs

`abort` of `packages/coding-agent/src/core/agent-session.ts`, with `abort` of
`packages/agent/src/agent.ts` and the requests of the agent loop, over the steps of `Recovery`;
no messages are queued.

`abort` reaches the run of the agent and the wait in front of a retry. What `_handlePostAgentRun`
decides behind them does not ask for it. Where `abort` comes neither in front of a retry wait nor
in a compaction that is followed by a retry, no response behind it is one to retry and the context
then needs no compaction, nothing begins any more, and the session settles.
-/

namespace PiMono.CodingAgent.Abort

open Recovery (Config Response Facts Message)

/-- What begins: a request, with whether its signal is aborted already, a wait in front of a
retry, or an auto-compaction. -/
inductive Begun where
  | request (signal : Bool)
  | retryWait
  | compaction
  deriving DecidableEq

/-- The prompt, the request in flight, whether the controller of `activeRun` is aborted, whether
`abort` has been called, and what has begun since; of the last field nothing is read. -/
structure State where
  prompt : Recovery.State
  -- with what its signal was when it began
  requesting : Option Bool
  signal : Bool
  aborted : Bool
  begun : List Begun

def initial (context : List Message) : State := ⟨Recovery.initial context, none, false, false, []⟩

inductive Action where
  -- the agent loop calls `streamFunction`
  | request
  | respond (response : Response) (toolResults : Nat) (stops : Bool)
  | handle
  | wake
  | check (facts : Facts)
  | compacted (messages : List Message) (done : Bool)
  | abort

def Action.isAbort : Action → Bool
  | abort => true
  | _ => false

section Steps

variable (config : Config)

/-- What a phase of the prompt begins with. -/
def begins : Recovery.Phase → List Begun
  | .sleeping _ => [.retryWait]
  | .compacting _ => [.compaction]
  | _ => []

/-- A step of the prompt. -/
def advance (s : State) (action : Recovery.Action) : Option State :=
  (Recovery.step config s.prompt action).map fun prompt =>
    { s with prompt, begun := s.begun ++ if s.aborted then begins prompt.phase else [] }

/-- `abortRetry`, and `abort` of the agent. -/
def abort (s : State) : State :=
  match s.prompt.phase with
  | .running => { s with aborted := true, signal := true }
  | .sleeping _ =>
    match Recovery.step config s.prompt .cancel with
    | some prompt => { s with prompt, aborted := true }
    | none => s
  | _ => { s with aborted := true }

def step (s : State) : Action → Option State
  | .request =>
    match s.prompt.phase, s.requesting with
    | .running, none => some { s with
        requesting := some s.signal
        begun := s.begun ++ if s.aborted then [.request s.signal] else [] }
    | _, _ => none
  | .respond response toolResults stops =>
    match s.requesting with
    | none => none
    | some signal =>
      -- a stream function that gets an aborted signal ends with an aborted message, or an error
      if signal = true ∧ response.stopReason ≠ .aborted ∧ response.stopReason ≠ .error then none
      else advance config { s with requesting := none } (.respond response toolResults stops [])
  | .handle => advance config s .handle
  | .wake => advance config { s with signal := false } (.wake [])
  | .check facts => if facts.queue = [] then advance config s (.check facts) else none
  | .compacted messages done =>
    advance config { s with signal := false } (.compacted messages done [])
  | .abort => some (abort config s)

/-- A run. -/
def run (s : State) (actions : List Action) : Option State := actions.foldlM (step config) s

/-- `_handlePostAgentRun` waits for a retry of the response. -/
def retries (s : Recovery.State) (response : Response) : Bool :=
  Recovery.isRetryableError config response && config.retryEnabled
    && s.retryAttempt + 1 ≤ config.maxRetries

/-- `_checkCompaction` compacts behind the response. -/
def compacts (s : Recovery.State) (response : Response) (facts : Facts) : Bool :=
  config.compactionEnabled && response.stopReason ≠ .aborted && !facts.beforeCompaction
    && if facts.sameModel && (Recovery.isContextOverflow config response
          || Recovery.isRecoverableLength config response) then
        response.stopReason = .stop || !s.overflowRecoveryAttempted
      else facts.overThreshold

/-- `abort` comes neither in a compaction that is followed by a retry nor between a response to
retry and its wait; no response behind it is one to retry, and `_checkCompaction` finds nothing to
compact for. -/
def sound (s : State) : Action → Bool
  | .abort =>
    match s.prompt.phase with
    | .compacting willRetry => !willRetry
    | .handling response => !retries config s.prompt response
    | _ => true
  | .respond response _ _ => !s.aborted || !retries config s.prompt response
  | .check facts =>
    match s.prompt.phase with
    | .checking response => !s.aborted || !compacts config s.prompt response facts
    | _ => true
  | _ => true

/-- A run in which every step is sound. -/
def runSound (s : State) (actions : List Action) : Option State :=
  actions.foldlM (fun s a => if sound config s a then step config s a else none) s

/-- How many steps are left to an aborted prompt. -/
def left (s : State) : Nat :=
  match s.prompt.phase with
  | .running =>
    match s.requesting with
    | some false => 5
    | none => 4
    | some true => 3
  | .handling _ => 2
  | .checking _ | .compacting _ => 1
  | .sleeping _ | .settled => 0

/-- Where an aborted prompt may be. -/
def Halting (signal : Bool) (s : Recovery.State) : Prop :=
  match s.phase with
  | .running => signal = true
  | .handling response => retries config s response = false
  | .sleeping _ => False
  | .compacting willRetry => willRetry = false
  | _ => True

/-- What an aborted prompt keeps. -/
structure Inv (s : State) : Prop where
  begun : s.begun = [] ∨ s.begun = [.request true]
  -- one request with an aborted signal ends the run
  early : s.prompt.phase = .running → s.requesting ≠ some true → s.begun = []
  fresh : s.aborted = false → s.begun = []
  requesting : s.requesting ≠ none → s.prompt.phase = .running
  phase : s.aborted = true → Halting config s.signal s.prompt

theorem inv_initial (context : List Message) : Inv config (initial context) where
  begun := .inl rfl
  early := fun _ _ => rfl
  fresh := fun _ => rfl
  requesting := fun h => absurd rfl h
  phase := nofun

/-! ## Where the steps lead -/

section Phases

variable {config} {s : Recovery.State}

theorem phase_respond (hrunning : s.phase = .running) (response : Response) (toolResults : Nat)
    (stops : Bool) : (Recovery.respond s response toolResults stops []).phase = .running
      ∨ (Recovery.respond s response toolResults stops []).phase = .handling response := by
  have hkept : (Recovery.messageEnd s response).phase = s.phase := by
    unfold Recovery.messageEnd
    dsimp only
    split <;> split <;> rfl
  unfold Recovery.respond
  dsimp only
  split
  · exact .inr rfl
  · split
    · exact .inr rfl
    · exact .inl (hkept.trans hrunning)

theorem phase_respond_ends {response : Response}
    (h : response.stopReason = .error ∨ response.stopReason = .aborted) (toolResults : Nat)
    (stops : Bool) :
    (Recovery.respond s response toolResults stops []).phase = .handling response := by
  unfold Recovery.respond
  dsimp only
  rw [if_pos h]

/-- Only an error is retried, and an error leaves the attempts as they are. -/
theorem retries_respond (response : Response) (toolResults : Nat) (stops : Bool)
    (h : retries config s response = false) :
    retries config (Recovery.respond s response toolResults stops []) response = false := by
  by_cases herror : response.stopReason = .error
  · have hattempt : (Recovery.respond s response toolResults stops []).retryAttempt
        = s.retryAttempt := by
      unfold Recovery.respond Recovery.messageEnd
      simp [herror, Recovery.State.emit]
    rw [retries, hattempt]
    exact h
  · simp [retries, Recovery.isRetryableError, Recovery.isRetryableAssistantError, herror]

theorem phase_dropFailed : s.dropFailed.phase = s.phase := by
  unfold Recovery.State.dropFailed
  split <;> rfl

theorem phase_handle (response : Response) :
    (Recovery.handle config s response).phase
      = if retries config s response then .sleeping response else .checking response := by
  unfold Recovery.handle
  have hretries : retries config s response = true ↔
      Recovery.isRetryableError config response = true ∧ config.retryEnabled = true
        ∧ s.retryAttempt + 1 ≤ config.maxRetries := by
    simp [retries, and_assoc]
  by_cases h : retries config s response = true
  · rw [if_pos h, if_pos (hretries.mp h)]
    exact phase_dropFailed
  · rw [if_neg h, if_neg fun hno => h (hretries.mpr hno)]
    split <;> rfl

theorem phase_check {response : Response} {facts : Facts} (hqueue : facts.queue = [])
    (hcompacts : compacts config s response facts = false) :
    (Recovery.check config s response facts).phase = .settled := by
  unfold Recovery.check
  unfold compacts at hcompacts
  rw [hqueue]
  split
  · rfl
  · rename_i hgoes
    split
    · rename_i hrecovers
      split
      · rename_i hstop
        simp_all
      · split
        · rfl
        · simp_all
    · split
      · simp_all
      · rfl

end Phases

variable {config} {s t : State}

/-- A step of the prompt, where nothing begins behind `abort`. -/
theorem advance_spec {action : Recovery.Action} (h : advance config s action = some t) :
    ∃ prompt begun, Recovery.step config s.prompt action = some prompt
      ∧ t = { s with prompt, begun }
      ∧ ((s.aborted = true → begins prompt.phase = []) → begun = s.begun) := by
  obtain ⟨prompt, hprompt, rfl⟩ := Option.map_eq_some_iff.mp h
  refine ⟨prompt, _, hprompt, rfl, fun hnothing => ?_⟩
  split
  · rename_i haborted
    rw [hnothing haborted, List.append_nil]
  · exact List.append_nil _

/-- Outside the runs of the agent nothing is in flight. -/
theorem Inv.behind (h : Inv config s) {prompt : Recovery.State} {signal aborted : Bool}
    (hrequesting : s.requesting = none) (hrunning : prompt.phase ≠ .running)
    (haborted : aborted = false → s.aborted = false)
    (hphase : aborted = true → Halting config signal prompt) :
    Inv config { s with prompt, signal, aborted } where
  begun := h.begun
  early := fun hrun => absurd hrun hrunning
  fresh := fun hnot => h.fresh (haborted hnot)
  requesting := fun hsome => absurd hrequesting hsome
  phase := hphase

theorem Inv.idle (h : Inv config s) (hphase : s.prompt.phase ≠ .running) : s.requesting = none := by
  by_contra hsome
  exact hphase (h.requesting hsome)

theorem Inv.abort (h : Inv config s) (hsound : sound config s .abort = true) :
    Inv config (abort config s) ∧ (s.aborted = true → left (Abort.abort config s) = left s) := by
  unfold Abort.abort
  cases hphase : s.prompt.phase with
  | running =>
    refine ⟨⟨h.begun, h.early, nofun, h.requesting, fun _ => ?_⟩, fun _ => ?_⟩
    · show Halting config true s.prompt
      rw [Halting, hphase]
    · simp only [left, hphase]
  | sleeping response =>
    have hnone := h.idle (by rw [hphase]; exact nofun)
    have hcancel : Recovery.step config s.prompt .cancel
        = some { s.prompt.emit [.retryEnd false s.prompt.retryAttempt] with
          retryAttempt := 0, phase := .checking response } := by
      simp only [Recovery.step, hphase]
    dsimp only
    rw [hcancel]
    refine ⟨h.behind hnone nofun nofun fun _ => trivial, fun haborted => ?_⟩
    have himpossible := h.phase haborted
    rw [Halting, hphase] at himpossible
    exact himpossible.elim
  | compacting willRetry =>
    have hnone := h.idle (by rw [hphase]; exact nofun)
    refine ⟨h.behind hnone (by rw [hphase]; exact nofun) nofun fun _ => ?_, fun _ => ?_⟩
    · rw [Halting, hphase]
      simpa [sound, hphase] using hsound
    · simp only [left, hphase]
  | handling response =>
    have hnone := h.idle (by rw [hphase]; exact nofun)
    refine ⟨h.behind hnone (by rw [hphase]; exact nofun) nofun fun _ => ?_, fun _ => ?_⟩
    · rw [Halting, hphase]
      simpa [sound, hphase] using hsound
    · simp only [left, hphase]
  | checking | settled =>
    have hnone := h.idle (by rw [hphase]; exact nofun)
    refine ⟨h.behind hnone (by rw [hphase]; exact nofun) nofun fun _ => ?_, fun _ => ?_⟩
    · rw [Halting, hphase]
      trivial
    · simp only [left, hphase]

theorem Inv.request (h : Inv config s) (hstep : step config s .request = some t) :
    Inv config t ∧ (s.aborted = true → left t < left s) := by
  cases hphase : s.prompt.phase with
  | running =>
    cases hrequesting : s.requesting with
    | none =>
      simp only [step, hphase, hrequesting] at hstep
      obtain rfl := Option.some.inj hstep
      have hnone : s.begun = [] := h.early hphase (by rw [hrequesting]; exact nofun)
      have hsignal : s.aborted = true → s.signal = true := by
        intro haborted
        have hkept := h.phase haborted
        rw [Halting, hphase] at hkept
        exact hkept
      refine ⟨⟨?_, fun _ hnot => ?_, fun hnot => ?_, fun _ => hphase, h.phase⟩, fun haborted => ?_⟩
      · show s.begun ++ _ = [] ∨ s.begun ++ _ = _
        rw [hnone]
        split
        · rename_i haborted
          rw [hsignal haborted]
          exact .inr rfl
        · exact .inl rfl
      · show s.begun ++ _ = []
        rw [hnone]
        split
        · rename_i haborted
          exact absurd (congrArg some (hsignal haborted)) hnot
        · rfl
      · show s.begun ++ _ = []
        rw [hnone, if_neg (by rw [show s.aborted = false from hnot]; exact nofun)]
        rfl
      · simp only [left, hphase, hrequesting]
        rw [hsignal haborted]
        decide
    | some signal => simp only [step, hphase, hrequesting, reduceCtorEq] at hstep
  | _ => simp only [step, hphase, reduceCtorEq] at hstep

theorem Inv.respond (h : Inv config s) {response : Response} {toolResults : Nat} {stops : Bool}
    (hsound : sound config s (.respond response toolResults stops) = true)
    (hstep : step config s (.respond response toolResults stops) = some t) :
    Inv config t ∧ (s.aborted = true → left t < left s) := by
  cases hrequesting : s.requesting with
  | none => simp only [step, hrequesting, reduceCtorEq] at hstep
  | some signal =>
    have hphase := h.requesting (by rw [hrequesting]; exact nofun)
    simp only [step, hrequesting] at hstep
    obtain ⟨hended, hstep⟩ := Option.ite_none_left_eq_some.mp hstep
    obtain ⟨prompt, begun, hprompt, rfl, hbegun⟩ := advance_spec hstep
    simp only [Recovery.step, hphase] at hprompt
    obtain ⟨-, hprompt⟩ := Option.ite_none_right_eq_some.mp hprompt
    have hprompt := Option.some.inj hprompt
    rcases phase_respond hphase response toolResults stops with hruns | hends
    · -- it goes on with tool results: the request began with a signal that was not aborted
      have hsignal : signal = false := by
        cases signal with
        | false => rfl
        | true =>
          have hends : response.stopReason = .error ∨ response.stopReason = .aborted := by
            by_contra hno
            obtain ⟨herror, haborted⟩ := not_or.mp hno
            exact hended ⟨rfl, haborted, herror⟩
          rw [phase_respond_ends hends] at hruns
          cases hruns
      rw [hprompt] at hruns
      have hkept := hbegun fun _ => by rw [hruns]; rfl
      have hnone : s.begun = [] := h.early hphase (by rw [hrequesting, hsignal]; exact nofun)
      refine ⟨⟨.inl (hkept.trans hnone), fun _ _ => hkept.trans hnone, fun _ => hkept.trans hnone,
        fun hsome => absurd rfl hsome, fun haborted => ?_⟩, fun _ => ?_⟩
      · have hkeptSignal := h.phase haborted
        rw [Halting, hphase] at hkeptSignal
        show Halting config _ prompt
        rw [Halting, hruns]
        exact hkeptSignal
      · simp only [left, hphase, hrequesting, hruns, hsignal]
        decide
    · rw [hprompt] at hends
      have hkept := hbegun fun _ => by rw [hends]; rfl
      refine ⟨⟨?_, fun hrunning => ?_, fun hnot => hkept.trans (h.fresh hnot),
        fun hsome => absurd rfl hsome, fun haborted => ?_⟩, fun _ => ?_⟩
      · show begun = [] ∨ begun = _
        rw [hkept]
        exact h.begun
      · rw [show prompt.phase = .running from hrunning] at hends
        cases hends
      · have haborted : s.aborted = true := haborted
        simp only [sound, haborted, Bool.not_true, Bool.false_or, Bool.not_eq_true'] at hsound
        show Halting config _ prompt
        rw [Halting, hends, ← hprompt]
        exact retries_respond response toolResults stops hsound
      · simp only [left, hphase, hrequesting, hends]
        cases signal <;> decide

/-- A step behind the runs of the agent, with which an aborted prompt begins nothing. -/
theorem Inv.advance (h : Inv config s) {action : Recovery.Action} {signal : Bool}
    (hrunning : s.prompt.phase = .running → Recovery.step config s.prompt action = none)
    (hstep : Abort.advance config { s with signal } action = some t)
    (hleads : ∀ prompt, Recovery.step config s.prompt action = some prompt →
      s.aborted = true →
          (match prompt.phase with | .checking _ | .settled => True | _ => False) ∧
          left { s with prompt } < left s) :
    Inv config t ∧ (s.aborted = true → left t < left s) := by
  obtain ⟨prompt, begun, hprompt, rfl, hbegun⟩ := advance_spec hstep
  have hleads := hleads prompt hprompt
  have hidle : s.requesting = none := by
    refine h.idle fun hphase => ?_
    rw [show Recovery.step config s.prompt action = some prompt from hprompt] at hrunning
    cases hrunning hphase
  have hkept : begun = s.begun := by
    refine hbegun fun haborted => ?_
    have hphase := (hleads haborted).1
    cases hp : prompt.phase with
    | checking | settled => rfl
    | _ =>
      rw [hp] at hphase
      exact hphase.elim
  refine ⟨⟨?_, fun _ _ => ?_, fun hnot => hkept.trans (h.fresh hnot),
    fun hsome => absurd hidle hsome, fun haborted => ?_⟩, fun haborted => (hleads haborted).2⟩
  · show begun = [] ∨ begun = _
    rw [hkept]
    exact h.begun
  · rename_i hrunning _
    cases haborted : s.aborted with
    | false => exact hkept.trans (h.fresh haborted)
    | true =>
      have hphase := (hleads haborted).1
      rw [show prompt.phase = .running from hrunning] at hphase
      exact hphase.elim
  · have hphase := (hleads haborted).1
    show Halting config _ prompt
    rw [Halting]
    cases hp : prompt.phase with
    | checking | settled => trivial
    | _ =>
      rw [hp] at hphase
      exact hphase.elim

theorem Inv.step (h : Inv config s) (action : Action) (hsound : sound config s action = true)
    (hstep : step config s action = some t) :
    Inv config t ∧ (s.aborted = true → action.isAbort = false → left t < left s) := by
  cases action with
  | request => exact (h.request hstep).imp_right fun hleft haborted _ => hleft haborted
  | respond response toolResults stops =>
    exact (h.respond hsound hstep).imp_right fun hleft haborted _ => hleft haborted
  | abort =>
    obtain rfl := Option.some.inj hstep
    exact ⟨(h.abort hsound).1, fun _ => nofun⟩
  | handle =>
    have hrunning : s.prompt.phase = .running → Recovery.step config s.prompt .handle = none := by
      intro hrunning
      simp only [Recovery.step, hrunning]
    refine (h.advance hrunning hstep fun prompt hprompt haborted => ?_).imp_right
      fun hleft haborted _ => hleft haborted
    cases hphase : s.prompt.phase with
    | handling response =>
      have hkept := h.phase haborted
      rw [Halting, hphase] at hkept
      simp only [Recovery.step, hphase] at hprompt
      have hchecking := @phase_handle config s.prompt response
      rw [Option.some.inj hprompt, hkept, if_neg Bool.false_ne_true] at hchecking
      refine ⟨by rw [hchecking]; trivial, ?_⟩
      simp only [left, hphase, hchecking]
      decide
    | _ => simp only [Recovery.step, hphase, reduceCtorEq] at hprompt
  | wake =>
    have hrunning : s.prompt.phase = .running →
        Recovery.step config s.prompt (.wake []) = none := by
      intro hrunning
      simp only [Recovery.step, hrunning]
    refine (h.advance hrunning hstep fun prompt hprompt haborted => ?_).imp_right
      fun hleft haborted _ => hleft haborted
    have himpossible := h.phase haborted
    cases hphase : s.prompt.phase with
    | sleeping response =>
      rw [Halting, hphase] at himpossible
      exact himpossible.elim
    | _ => simp only [Recovery.step, hphase, reduceCtorEq] at hprompt
  | check facts =>
    obtain ⟨hqueue, hstep⟩ := Option.ite_none_right_eq_some.mp hstep
    have hrunning : s.prompt.phase = .running →
        Recovery.step config s.prompt (.check facts) = none := by
      intro hrunning
      simp only [Recovery.step, hrunning]
    refine (h.advance hrunning hstep fun prompt hprompt haborted => ?_).imp_right
      fun hleft haborted _ => hleft haborted
    cases hphase : s.prompt.phase with
    | checking response =>
      simp only [Recovery.step, hphase] at hprompt
      obtain ⟨-, hprompt⟩ := Option.ite_none_right_eq_some.mp hprompt
      simp only [sound, hphase, haborted, Bool.not_true, Bool.false_or, Bool.not_eq_true'] at hsound
      have hsettled := phase_check hqueue hsound
      rw [Option.some.inj hprompt] at hsettled
      refine ⟨by rw [hsettled]; trivial, ?_⟩
      simp only [left, hphase, hsettled]
      decide
    | _ => simp only [Recovery.step, hphase, reduceCtorEq] at hprompt
  | compacted messages done =>
    have hrunning : s.prompt.phase = .running →
        Recovery.step config s.prompt (.compacted messages done []) = none := by
      intro hrunning
      simp only [Recovery.step, hrunning]
    refine (h.advance hrunning hstep fun prompt hprompt haborted => ?_).imp_right
      fun hleft haborted _ => hleft haborted
    have hkept := h.phase haborted
    cases hphase : s.prompt.phase with
    | compacting willRetry =>
      rw [Halting, hphase] at hkept
      obtain rfl : willRetry = false := hkept
      simp only [Recovery.step, hphase] at hprompt
      obtain ⟨-, hprompt⟩ := Option.ite_none_right_eq_some.mp hprompt
      have hsettled : prompt.phase = .settled := by
        rw [← Option.some.inj hprompt]
        unfold Recovery.compacted
        dsimp only
        rw [if_neg (fun hdone => nomatch hdone.2)]
        rfl
      refine ⟨by rw [hsettled]; trivial, ?_⟩
      simp only [left, hphase, hsettled]
      decide
    | _ => simp only [Recovery.step, hphase, reduceCtorEq] at hprompt

/-! ## Runs -/

theorem inv_runSound {context : List Message} {actions : List Action}
    (hrun : runSound config (initial context) actions = some s) : Inv config s :=
  @Runs.run_induction_if _ _ _ (Inv config) (fun s a => sound config s a = true) _
    (fun _ a _ h hsound hstep => (h.step a hsound hstep).1) actions _ _ (inv_initial config context) hrun

theorem abort_aborted (haborted : s.aborted = true) : (abort config s).aborted = true := by
  unfold abort
  split
  · rfl
  · split
    · rfl
    · exact haborted
  · rfl

theorem aborted_step {action : Action} (haborted : s.aborted = true)
    (hstep : step config s action = some t) : t.aborted = true := by
  have hadvance : ∀ {u v : State} {a : Recovery.Action}, advance config u a = some v →
      u.aborted = true → v.aborted = true := by
    intro u v a hv hu
    obtain ⟨_, _, -, rfl, -⟩ := advance_spec hv
    exact hu
  cases action with
  | request =>
    simp only [step] at hstep
    split at hstep
    · exact Option.some.inj hstep ▸ haborted
    · cases hstep
  | respond response toolResults stops =>
    simp only [step] at hstep
    split at hstep
    · cases hstep
    · exact hadvance (Option.ite_none_left_eq_some.mp hstep).2 haborted
  | handle => exact hadvance hstep haborted
  | wake => exact hadvance hstep haborted
  | check facts => exact hadvance (Option.ite_none_right_eq_some.mp hstep).2 haborted
  | compacted messages done => exact hadvance hstep haborted
  | abort => exact Option.some.inj hstep ▸ abort_aborted haborted

/-- From an aborted state, the steps that are no further `abort` are at most so many. -/
theorem left_runSound (h : Inv config s) (haborted : s.aborted = true) {more : List Action}
    (hrun : runSound config s more = some t) :
    (more.filter (!·.isAbort)).length + left t ≤ left s := by
  induction more generalizing s with
  | nil =>
    obtain rfl := Option.some.inj hrun
    exact Nat.le_of_eq (Nat.zero_add _)
  | cons action more ih =>
    unfold runSound at hrun
    rw [List.foldlM_cons] at hrun
    obtain ⟨u, hu, hrest⟩ := Option.bind_eq_some_iff.mp hrun
    obtain ⟨hsound, hu⟩ := Option.ite_none_right_eq_some.mp hu
    obtain ⟨hinv, hleft⟩ := h.step action hsound hu
    have hmore := ih hinv (aborted_step haborted hu) hrest
    cases habort : action.isAbort with
    | false =>
      rw [List.filter_cons_of_pos (by rw [habort]; rfl), List.length_cons]
      have hless := hleft haborted habort
      omega
    | true =>
      rw [List.filter_cons_of_neg (by rw [habort]; exact nofun)]
      have hsame : left u = left s := by
        cases action with
        | abort =>
          obtain rfl := Option.some.inj hu
          exact (h.abort hsound).2 haborted
        | _ => cases habort
      omega

theorem left_le (s : State) : left s ≤ 5 := by
  unfold left
  split
  · split <;> decide
  all_goals decide

end Steps

/-! ## Examples -/

/-- Every error text is one to retry, but for those of an overflow. -/
def retrying : Config where
  retryEnabled := true
  maxRetries := 3
  compactionEnabled := true
  contextWindow := 1000
  maxTokens := 100
  nonRetryable _ := false
  retryable _ := true
  nonOverflow _ := false
  overflow message := message = js "too long"

def here : Facts := ⟨true, false, false, []⟩

/-- The tools run when the user aborts. -/
def abortedTools : List Action :=
  [.request, .respond ⟨.toolUse, none, 10, 5, 0⟩ 1 false, .abort, .request,
    .respond ⟨.aborted, none, 0, 0, 0⟩ 0 false, .handle, .check here]

/-- The context overflows, and the user aborts while it is compacted. -/
def abortedCompaction : List Action :=
  [.request, .respond ⟨.error, some (js "too long"), 0, 0, 0⟩ 0 false, .handle, .check here,
    .abort, .compacted [.user] true, .request]

/-- The response fails, and the user aborts before the wait in front of its retry has begun. -/
def abortedEarly : List Action :=
  [.request, .respond ⟨.error, some (js "overloaded"), 0, 0, 0⟩ 0 false, .abort, .handle, .wake,
    .request]

end PiMono.CodingAgent.Abort
