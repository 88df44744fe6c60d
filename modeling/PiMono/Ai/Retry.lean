import PiMono.Ai.TransformMessages
import Mathlib.Algebra.Order.Ring.Nat

/-!
# Retrying an assistant call

`retryAssistantCall` of `packages/ai/src/utils/retry.ts`: a call is repeated while it fails with a
transient error, and callbacks report it. A run is a list of events and the way the promise
settles. The bracket that `onRetryScheduled` opens is closed on every way out of the loop but one:
a repeated call that rejects (`follows_iff`).
-/

namespace PiMono.Ai.Retry

/-- What the loop reads and changes of an `AssistantMessage`. -/
structure Response (α : Type) where
  stopReason : StopReason
  errorMessage : Option JsString
  content : α
  deriving DecidableEq

/-- How one call of `produce` ends. -/
inductive Outcome (α ε : Type) where
  | response (response : Response α)
  | rejected (error : ε)

/-- `RetryPolicy` -/
structure RetryPolicy where
  enabled : Bool
  maxRetries : Nat
  baseDelayMs : Nat

/-- What happens in a run; a backoff sleep either ends or is hit by an abort. -/
inductive Event where
  | produce
  | onRetryScheduled (attempt maxAttempts delayMs : Nat) (errorMessage : JsString)
  | slept
  | sleepAborted
  | onRetryAttemptStart
  | onRetryFinished (success : Bool) (attempt : Nat) (finalError : Option JsString)
  deriving DecidableEq

inductive Settled (α ε : Type) where
  | resolved (message : Response α)
  | rejected (error : ε)

section Loop

variable {α ε : Type}

/-- `{ ...response, stopReason: "aborted", errorMessage: undefined }` -/
def Response.abort (response : Response α) : Response α :=
  { response with stopReason := .aborted, errorMessage := none }

/-- `isRetryableAssistantError`; the two patterns are tests of the error text. -/
def isRetryableAssistantError (nonRetryable retryable : JsString → Bool) (message : Response α) :
    Bool :=
  match message.errorMessage with
  | none => false
  | some errorMessage =>
    message.stopReason = .error && errorMessage ≠ [] && !nonRetryable errorMessage
      && retryable errorMessage

/-- `response.errorMessage || "Unknown error"` -/
def errorText (response : Response α) : JsString :=
  match response.errorMessage with
  | some (u :: us) => u :: us
  | _ => js "Unknown error"

/-- `if (lastRetry) await callbacks?.onRetryFinished?.(…)` -/
def finished (lastRetry : Option (Nat × JsString)) (success : Bool)
    (finalError : Option JsString) : List Event :=
  match lastRetry with
  | none => []
  | some (attempt, _) => [.onRetryFinished success attempt finalError]

variable (isRetryable : Response α → Bool) (policy : Option RetryPolicy)
  (produce : Nat → Outcome α ε) (aborted : Nat → Bool)

/-- `policy?.enabled ? policy.maxRetries : 0` -/
def maxAttempts : Nat :=
  match policy with
  | some policy => if policy.enabled then policy.maxRetries else 0
  | none => 0

/-- `policy!.baseDelayMs * 2 ** (attempt - 1)` -/
def delayMs (attempt : Nat) : Nat :=
  match policy with
  | some policy => policy.baseDelayMs * 2 ^ (attempt - 1)
  | none => 0

/-- The loop. `produce attempt` is the call after so many retries, `aborted attempt` says that the
signal is aborted before the sleep behind that call is over. -/
def retryLoop (attempt : Nat) (lastRetry : Option (Nat × JsString)) :
    List Event × Settled α ε :=
  match produce attempt with
  | .rejected error => ([.produce], .rejected error)
  | .response response =>
    if response.stopReason = .aborted then
      (.produce :: finished lastRetry false none, .resolved response)
    else if response.stopReason ≠ .error then
      (.produce :: finished lastRetry true none, .resolved response)
    else if _h : attempt ≥ maxAttempts policy ∨ isRetryable response = false then
      (.produce :: finished lastRetry false response.errorMessage, .resolved response)
    else
      let scheduled := .onRetryScheduled (attempt + 1) (maxAttempts policy)
        (delayMs policy (attempt + 1)) (errorText response)
      let lastRetry := some (attempt + 1, errorText response)
      if aborted attempt then
        (.produce :: scheduled :: .sleepAborted :: finished lastRetry false (errorText response),
          .resolved response.abort)
      else
        let (events, settled) := retryLoop (attempt + 1) lastRetry
        (.produce :: scheduled :: .slept :: .onRetryAttemptStart :: events, settled)
  termination_by maxAttempts policy - attempt

def retryAssistantCall : List Event × Settled α ε :=
  retryLoop isRetryable policy produce aborted 0 none

/-! ## The protocol -/

def Event.isProduce : Event → Bool
  | .produce => true
  | _ => false

def Event.isScheduled : Event → Bool
  | .onRetryScheduled .. => true
  | _ => false

def Event.isFinished : Event → Bool
  | .onRetryFinished .. => true
  | _ => false

def Event.isCallback : Event → Bool
  | .onRetryScheduled .. | .onRetryAttemptStart | .onRetryFinished .. => true
  | .produce | .slept | .sleepAborted => false

/-- The calls (`none`) and the attempts scheduled (`some`) of a run. -/
def Event.mark : Event → Option (Option Nat)
  | .produce => some none
  | .onRetryScheduled attempt .. => some (some attempt)
  | _ => none

/-- A call, then attempts `1, 2, …`, each scheduled and then called. -/
def callsInOrder (retries : Nat) : List (Option Nat) :=
  none :: (List.range retries).flatMap fun retry => [some (retry + 1), none]

/-- What a run promises. -/
structure Follows (run : List Event × Settled α ε) : Prop where
  calls : run.1.countP Event.isProduce ≤ maxAttempts policy + 1
  inOrder : ∃ retries, run.1.filterMap Event.mark = callsInOrder retries ∨
    run.1.filterMap Event.mark = callsInOrder retries ++ [some (retries + 1)]
  closed : run.1.countP Event.isFinished = if run.1.any Event.isScheduled then 1 else 0
  closedLast : ∀ event ∈ (run.1.filter Event.isCallback).dropLast, event.isFinished = false
  success : ∀ success attempt finalError, .onRetryFinished success attempt finalError ∈ run.1 →
    (success = true ↔ ∃ response, run.2 = .resolved response ∧
      response.stopReason ≠ .error ∧ response.stopReason ≠ .aborted)
  returned : ∀ message, run.2 = .resolved message → ∃ last,
    produce (run.1.countP Event.isProduce - 1) = .response last ∧
      message = if .sleepAborted ∈ run.1 then last.abort else last

/-- A call is repeated: it fails with an error that can be retried, there is an attempt left and no
abort hits the sleep. -/
def Repeated (call : Nat) : Prop :=
  call < maxAttempts policy ∧ aborted call = false ∧
    ∃ response, produce call = .response response ∧ response.stopReason = .error ∧
      isRetryable response = true

/-- A repeated call rejects. -/
def RejectsRetry : Prop :=
  ∃ call error, produce (call + 1) = .rejected error ∧
    ∀ earlier ≤ call, Repeated isRetryable policy produce aborted earlier

/-! ## A run is a number of rounds and an ending -/

/-- What a repeated call and the retry behind it do. -/
def round (errorMessage : Nat → JsString) (call : Nat) : List Event :=
  [.produce, .onRetryScheduled (call + 1) (maxAttempts policy) (delayMs policy (call + 1))
    (errorMessage call), .slept, .onRetryAttemptStart]

/-- The last retry scheduled when so many were made. -/
def lastRetryOf (errorMessage : Nat → JsString) : Nat → Option (Nat × JsString)
  | 0 => none
  | retries + 1 => some (retries + 1, errorMessage retries)

/-- The ways the loop is left after so many retries. -/
inductive Ending (retries : Nat) (lastRetry : Option (Nat × JsString)) :
    List Event × Settled α ε → Prop where
  | rejected {error : ε} (hcall : produce retries = .rejected error) :
    Ending retries lastRetry ([.produce], .rejected error)
  | returned {response : Response α} {finalError : Option JsString}
    (hcall : produce retries = .response response) (success : Bool)
    (hsuccess : success = true ↔ response.stopReason ≠ .error ∧ response.stopReason ≠ .aborted) :
    Ending retries lastRetry
      (.produce :: finished lastRetry success finalError, .resolved response)
  | sleepAborted {response : Response α} {delay : Nat} {errorMessage : JsString}
    (hcall : produce retries = .response response) (hattempt : retries < maxAttempts policy) :
    Ending retries lastRetry
      ([.produce, .onRetryScheduled (retries + 1) (maxAttempts policy) delay errorMessage,
        .sleepAborted, .onRetryFinished false (retries + 1) (some errorMessage)],
        .resolved response.abort)

/-- The error texts of the responses. -/
def errorMessages (produce : Nat → Outcome α ε) (call : Nat) : JsString :=
  match produce call with
  | .response response => errorText response
  | .rejected _ => []

/-- One turn of the loop. -/
theorem retryLoop_cases (attempt : Nat) (lastRetry : Option (Nat × JsString)) :
    (Repeated isRetryable policy produce aborted attempt ∧
      retryLoop isRetryable policy produce aborted attempt lastRetry =
        let rest := retryLoop isRetryable policy produce aborted (attempt + 1)
          (some (attempt + 1, errorMessages produce attempt))
        (round policy (errorMessages produce) attempt ++ rest.1, rest.2)) ∨
    ¬ Repeated isRetryable policy produce aborted attempt ∧
      Ending policy produce attempt lastRetry
        (retryLoop isRetryable policy produce aborted attempt lastRetry) := by
  rw [retryLoop]
  cases hcall : produce attempt with
  | rejected error =>
    refine Or.inr ⟨?_, .rejected hcall⟩
    rintro ⟨-, -, _, hresponse, -⟩
    rw [hcall] at hresponse
    cases hresponse
  | response response =>
    have hnot : response.stopReason ≠ .error ∨ maxAttempts policy ≤ attempt ∨
        isRetryable response = false ∨ aborted attempt = true →
        ¬ Repeated isRetryable policy produce aborted attempt := by
      rintro h ⟨hattempt, habort, _, hresponse, herror, hretryable⟩
      rw [hcall] at hresponse
      cases hresponse
      obtain h | h | h | h := h
      · exact h herror
      · omega
      · rw [h] at hretryable
        cases hretryable
      · rw [h] at habort
        cases habort
    dsimp only
    split
    · rename_i haborted
      refine Or.inr ⟨hnot (Or.inl (by rw [haborted]; decide)), .returned hcall false ?_⟩
      simp [haborted]
    · rename_i haborted
      split
      · rename_i herror
        exact Or.inr ⟨hnot (Or.inl herror), .returned hcall true (by simp [herror, haborted])⟩
      · rename_i herror
        split
        · rename_i hlast
          refine Or.inr ⟨hnot (Or.inr (hlast.imp id Or.inl)), .returned hcall false ?_⟩
          simp [Decidable.not_not.mp herror]
        · rename_i hlast
          obtain ⟨hattempt, hretryable⟩ := not_or.mp hlast
          split
          · rename_i hsleep
            exact Or.inr ⟨hnot (Or.inr (Or.inr (Or.inr hsleep))),
              .sleepAborted hcall (Nat.lt_of_not_le hattempt)⟩
          · rename_i hsleep
            refine Or.inl ⟨⟨Nat.lt_of_not_le hattempt, eq_false_of_ne_true hsleep, response, hcall,
              Decidable.not_not.mp herror, Bool.of_not_eq_false hretryable⟩, ?_⟩
            simp only [round, errorMessages, hcall, List.cons_append, List.nil_append]

/-- The rounds from one attempt on, and how they end. -/
theorem retryLoop_rounds (attempt : Nat) :
    ∃ more ending, Ending policy produce (attempt + more)
        (lastRetryOf (errorMessages produce) (attempt + more)) ending ∧
      (∀ call, attempt ≤ call → call < attempt + more →
        Repeated isRetryable policy produce aborted call) ∧
      ¬ Repeated isRetryable policy produce aborted (attempt + more) ∧
      retryLoop isRetryable policy produce aborted attempt
          (lastRetryOf (errorMessages produce) attempt) =
        ((List.range' attempt more).flatMap (round policy (errorMessages produce)) ++ ending.1,
          ending.2) := by
  obtain ⟨hrepeated, hloop⟩ | ⟨hnot, hending⟩ := retryLoop_cases isRetryable policy produce aborted
    attempt (lastRetryOf (errorMessages produce) attempt)
  · have hattempt := hrepeated.1
    obtain ⟨more, ending, hending, hall, hnot, hrest⟩ := retryLoop_rounds (attempt + 1)
    have hshift : attempt + 1 + more = attempt + (more + 1) := by omega
    rw [hshift] at hending hnot hall
    refine ⟨more + 1, ending, hending, fun call hle hlt => ?_, hnot, ?_⟩
    · obtain rfl | hne := Nat.eq_or_lt_of_le hle
      · exact hrepeated
      · exact hall call hne hlt
    · rw [hloop, show some (attempt + 1, errorMessages produce attempt) =
        lastRetryOf (errorMessages produce) (attempt + 1) from rfl, hrest, List.range'_succ,
        List.flatMap_cons, List.append_assoc]
  · exact ⟨0, _, hending, fun call hle hlt => absurd hlt (by omega), hnot, rfl⟩
  termination_by maxAttempts policy - attempt

/-! ## What the rounds show -/

/-- The events of so many rounds. -/
def rounds (errorMessage : Nat → JsString) (retries : Nat) : List Event :=
  (List.range retries).flatMap (round policy errorMessage)

theorem rounds_succ (errorMessage : Nat → JsString) (retries : Nat) :
    rounds policy errorMessage (retries + 1) =
      rounds policy errorMessage retries ++ round policy errorMessage retries := by
  rw [rounds, List.range_succ, List.flatMap_append, List.flatMap_singleton, rounds]

theorem countP_produce_rounds (errorMessage : Nat → JsString) (retries : Nat) :
    (rounds policy errorMessage retries).countP Event.isProduce = retries := by
  induction retries with
  | zero => rfl
  | succ retries ih =>
    rw [rounds_succ, List.countP_append, ih]
    rfl

theorem marks_rounds (errorMessage : Nat → JsString) (retries : Nat) :
    (rounds policy errorMessage retries).filterMap Event.mark ++ [none] = callsInOrder retries := by
  induction retries with
  | zero => rfl
  | succ retries ih =>
    have hmarks : (round policy errorMessage retries).filterMap Event.mark
        = [none, some (retries + 1)] := rfl
    rw [rounds_succ, List.filterMap_append, hmarks, callsInOrder, List.range_succ,
      List.flatMap_append, List.flatMap_singleton, ← List.cons_append, ← callsInOrder, ← ih]
    simp only [List.append_assoc, List.cons_append, List.nil_append]

theorem any_scheduled_rounds (errorMessage : Nat → JsString) (retries : Nat) :
    (rounds policy errorMessage retries).any Event.isScheduled = decide (retries ≠ 0) := by
  cases retries with
  | zero => rfl
  | succ retries =>
    rw [rounds_succ, List.any_append, round]
    simp [Event.isScheduled]

/-- No round finishes the retry, and no abort hits its sleep. -/
theorem not_mem_rounds {errorMessage : Nat → JsString} {retries : Nat} {event : Event}
    (h : event ∈ rounds policy errorMessage retries) :
    event.isFinished = false ∧ event ≠ .sleepAborted := by
  obtain ⟨call, -, hmem⟩ := List.mem_flatMap.mp h
  simp only [round, List.mem_cons, List.not_mem_nil, or_false] at hmem
  obtain rfl | rfl | rfl | rfl := hmem <;> exact ⟨rfl, nofun⟩

theorem countP_finished_rounds (errorMessage : Nat → JsString) (retries : Nat) :
    (rounds policy errorMessage retries).countP Event.isFinished = 0 :=
  List.countP_eq_zero.mpr fun _ h => ne_true_of_eq_false (not_mem_rounds policy h).1

/-- The run is so many rounds and an ending. -/
theorem retryAssistantCall_rounds : ∃ retries ending,
    Ending policy produce retries (lastRetryOf (errorMessages produce) retries) ending ∧
      (∀ call < retries, Repeated isRetryable policy produce aborted call) ∧
      ¬ Repeated isRetryable policy produce aborted retries ∧
      retryAssistantCall isRetryable policy produce aborted =
        (rounds policy (errorMessages produce) retries ++ ending.1, ending.2) := by
  obtain ⟨retries, ending, hending, hall, hnot, hrun⟩ :=
    retryLoop_rounds isRetryable policy produce aborted 0
  rw [Nat.zero_add] at hending hall hnot
  exact ⟨retries, ending, hending, fun call hcall => hall call (Nat.zero_le _) hcall, hnot,
    by rw [retryAssistantCall, rounds, List.range_eq_range', ← hrun]; rfl⟩

/-- The retry is over with the last callback, if there was one. -/
theorem closedLast_append {events ending : List Event}
    (hevents : ∀ event ∈ events, event.isFinished = false)
    (hending : ∀ event ∈ (ending.filter Event.isCallback).dropLast, event.isFinished = false) :
    ∀ event ∈ ((events ++ ending).filter Event.isCallback).dropLast, event.isFinished = false := by
  intro event hmem
  rw [List.filter_append] at hmem
  cases hcallbacks : ending.filter Event.isCallback with
  | nil =>
    rw [hcallbacks, List.append_nil] at hmem
    exact hevents event (List.mem_filter.mp (List.dropLast_subset _ hmem)).1
  | cons callback callbacks =>
    rw [List.dropLast_append_of_ne_nil (by rw [hcallbacks]; exact List.cons_ne_nil _ _)] at hmem
    rcases List.mem_append.mp hmem with hmem | hmem
    · exact hevents event (List.mem_filter.mp hmem).1
    · exact hending event hmem

theorem follows_append {retries : Nat} {tail : List Event} {settled : Settled α ε}
    (hle : retries ≤ maxAttempts policy) (hproduce : tail.countP Event.isProduce = 0)
    (hmarks : tail.filterMap Event.mark = [] ∨ tail.filterMap Event.mark = [some (retries + 1)])
    (hclosed : tail.countP Event.isFinished =
      if retries ≠ 0 ∨ tail.any Event.isScheduled = true then 1 else 0)
    (hclosedLast : ∀ event ∈ (tail.filter Event.isCallback).dropLast, event.isFinished = false)
    (hsuccess : ∀ success attempt finalError, .onRetryFinished success attempt finalError ∈ tail →
      (success = true ↔ ∃ response, settled = .resolved response ∧
        response.stopReason ≠ .error ∧ response.stopReason ≠ .aborted))
    (hreturned : ∀ message, settled = .resolved message → ∃ last,
      produce retries = .response last ∧
        message = if .sleepAborted ∈ tail then last.abort else last) :
    Follows policy produce
      (rounds policy (errorMessages produce) retries ++ .produce :: tail, settled) where
  calls := by
    rw [List.countP_append, countP_produce_rounds, List.countP_cons_of_pos rfl, hproduce]
    omega
  inOrder := by
    have hcalls : (rounds policy (errorMessages produce) retries ++ .produce :: tail).filterMap
        Event.mark = callsInOrder retries ++ tail.filterMap Event.mark := by
      rw [← marks_rounds policy (errorMessages produce), List.filterMap_append, List.append_assoc]
      rfl
    refine ⟨retries, ?_⟩
    rw [hcalls]
    refine hmarks.imp (fun h => ?_) fun h => ?_
    · rw [h, List.append_nil]
    · rw [h]
  closed := by
    rw [List.countP_append, countP_finished_rounds, List.countP_cons_of_neg (by decide),
      Nat.zero_add, hclosed, List.any_append, any_scheduled_rounds, List.any_cons]
    simp only [Event.isScheduled, Bool.false_or, Bool.or_eq_true, decide_eq_true_eq]
  closedLast := closedLast_append (fun event h => (not_mem_rounds policy h).1) hclosedLast
  success := by
    intro success attempt finalError hmem
    rcases List.mem_append.mp hmem with hmem | hmem
    · exact absurd (not_mem_rounds policy hmem).1 nofun
    · rcases List.mem_cons.mp hmem with hmem | hmem
      · cases hmem
      · exact hsuccess success attempt finalError hmem
  returned := by
    intro message hmessage
    obtain ⟨last, hlast, heq⟩ := hreturned message hmessage
    refine ⟨last, ?_, ?_⟩
    · rw [List.countP_append, countP_produce_rounds, List.countP_cons_of_pos rfl, hproduce]
      exact hlast
    · have hiff : Event.sleepAborted ∈
          rounds policy (errorMessages produce) retries ++ .produce :: tail ↔
          .sleepAborted ∈ tail := by
        rw [List.mem_append, List.mem_cons]
        constructor
        · rintro (h | h | h)
          · exact absurd rfl (not_mem_rounds policy h).2
          · cases h
          · exact h
        · exact fun h => Or.inr (Or.inr h)
      simp only [hiff]
      exact heq

theorem Ending.follows {retries : Nat} {ending : List Event × Settled α ε}
    (h : Ending policy produce retries (lastRetryOf (errorMessages produce) retries) ending)
    (hle : retries ≤ maxAttempts policy)
    (hrejects : ∀ error, produce retries = .rejected error → retries = 0) :
    Follows policy produce
      (rounds policy (errorMessages produce) retries ++ ending.1, ending.2) := by
  cases h with
  | rejected hcall =>
    obtain rfl := hrejects _ hcall
    exact follows_append policy produce hle rfl (Or.inl rfl) rfl nofun nofun nofun
  | @returned response finalError hcall success hsuccess =>
    have hsettled : ∀ other : Response α, (Settled.resolved response : Settled α ε) =
      .resolved other →
        response = other := fun other h => Settled.resolved.inj h
    cases retries with
    | zero =>
      refine follows_append policy produce hle rfl (Or.inl rfl) rfl nofun nofun fun other h => ?_
      exact ⟨response, hcall, (hsettled other h).symm⟩
    | succ retries =>
      refine follows_append policy produce hle rfl (Or.inl rfl) rfl nofun ?_ fun other h => ?_
      · intro other attempt message hmem
        obtain ⟨rfl, rfl, rfl⟩ := Event.onRetryFinished.inj (List.mem_singleton.mp hmem)
        rw [hsuccess]
        constructor
        · exact fun h => ⟨response, rfl, h⟩
        · rintro ⟨_, h, hreason⟩
          rw [hsettled _ h]
          exact hreason
      · exact ⟨response, hcall, (hsettled other h).symm⟩
  | @sleepAborted response delay errorMessage hcall hattempt =>
    refine follows_append policy produce hle rfl (Or.inr rfl) ?_ ?_ ?_ fun other h => ?_
    · exact (if_pos (Or.inr rfl)).symm
    · intro event hmem
      rw [List.mem_singleton.mp hmem]
      rfl
    · intro success attempt finalError hmem
      have hmem : Event.onRetryFinished success attempt finalError =
          .onRetryFinished false (retries + 1) (some errorMessage) := by
        simpa using hmem
      obtain ⟨rfl, rfl, rfl⟩ := Event.onRetryFinished.inj hmem
      constructor
      · exact nofun
      · rintro ⟨_, h, -, haborted⟩
        rw [← Settled.resolved.inj h] at haborted
        exact absurd rfl haborted
    · exact ⟨response, hcall, (Settled.resolved.inj h).symm⟩

/-- **When a run keeps the protocol**: no repeated call rejects. -/
theorem follows_iff (nonRetryable retryable : JsString → Bool) (policy : Option RetryPolicy)
    (produce : Nat → Outcome α ε) (aborted : Nat → Bool) :
    Follows policy produce
        (retryAssistantCall (isRetryableAssistantError nonRetryable retryable) policy produce
          aborted) ↔
      ¬ RejectsRetry (isRetryableAssistantError nonRetryable retryable) policy produce
        aborted := by
  obtain ⟨retries, ending, hending, hall, hnot, hrun⟩ := retryAssistantCall_rounds
    (isRetryableAssistantError nonRetryable retryable) policy produce aborted
  rw [hrun]
  have hle : retries ≤ maxAttempts policy := by
    cases retries with
    | zero => exact Nat.zero_le _
    | succ retries => exact (hall retries (Nat.lt_succ_self _)).1
  constructor
  · rintro hfollows ⟨call, error, hcall, hearlier⟩
    -- the call that rejects is the one the rounds end at
    have hretries : retries = call + 1 := by
      refine Nat.le_antisymm (Nat.le_of_not_lt fun hlt => ?_) (Nat.lt_of_not_le fun hle => ?_)
      · obtain ⟨-, -, _, hresponse, -⟩ := hall (call + 1) hlt
        rw [hcall] at hresponse
        cases hresponse
      · exact hnot (hearlier retries hle)
    subst hretries
    have hclosed := hfollows.closed
    cases hending with
    | rejected =>
      rw [List.any_append, any_scheduled_rounds, List.countP_append, countP_finished_rounds]
        at hclosed
      cases hclosed
    | returned hresponse =>
      rw [hcall] at hresponse
      cases hresponse
    | sleepAborted hresponse =>
      rw [hcall] at hresponse
      cases hresponse
  · intro hrejects
    refine hending.follows policy produce hle fun error hcall => ?_
    cases retries with
    | zero => rfl
    | succ call =>
      exact absurd ⟨call, error, hcall, fun earlier h => hall earlier (Nat.lt_succ_of_le h)⟩
        hrejects

/-- `overloaded` once, then the call itself fails: the retry is never reported as finished. -/
theorem not_follows_rejected : ¬ ∀ (policy : Option RetryPolicy)
    (produce : Nat → Outcome Unit Unit) (aborted : Nat → Bool),
    Follows policy produce (retryAssistantCall
      (isRetryableAssistantError (fun _ => false) fun _ => true) policy produce aborted) := by
  intro h
  have hclosed := (h (some ⟨true, 3, 1000⟩) (fun call => if call = 0
    then .response ⟨.error, some (js "overloaded"), ()⟩ else .rejected ()) fun _ => false).closed
  have hretry : isRetryableAssistantError (fun _ => false) (fun _ => true)
      (⟨.error, some (js "overloaded"), ()⟩ : Response Unit) = true := by decide
  simp [retryAssistantCall, retryLoop, maxAttempts, hretry, Event.isFinished,
    Event.isScheduled] at hclosed

end Loop

end PiMono.Ai.Retry
