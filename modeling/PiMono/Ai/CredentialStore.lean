import PiMono.Lib.Runs

/-!
# The credential of a provider

`InMemoryCredentialStore` of `packages/ai/src/auth/credential-store.ts` for one provider, and
`resolveStoredOAuth` of `packages/ai/src/auth/resolve.ts` on it. The tasks of `modify` and
`delete` wait for each other on a chain of promises; the steps are what happens between two
awaits. `Event` says what the tasks have done.
-/

namespace PiMono.Ai

/-- `OAuthCredential`, with what is read of it. -/
structure OAuthCredential (τ : Type) where
  tokens : τ
  expires : Nat
  deriving DecidableEq

/-- `Credential` -/
inductive Credential (τ : Type) where
  | apiKey (key : τ)
  | oauth (credential : OAuthCredential τ)
  deriving DecidableEq

/-- `DEFAULT_OAUTH_MINIMUM_VALIDITY_MS` -/
def defaultOAuthMinimumValidityMs : Nat := 5 * 60 * 1000

/-- `expiresSoon` -/
def expiresSoon {τ : Type} (now : Nat) (minOAuthValidityMs : Option Nat)
    (credential : OAuthCredential τ) : Bool :=
  credential.expires ≤ now + max defaultOAuthMinimumValidityMs (minOAuthValidityMs.getD 0)

namespace CredentialStore

/-- What a task of the chain is to do. -/
inductive Task (τ : Type) where
  -- `modify` of `resolveStoredOAuth`
  | resolve (minOAuthValidityMs : Option Nat)
  -- `modify(providerId, async () => credential)`
  | login (credential : Credential τ)
  -- `delete(providerId)`
  | logout
  deriving DecidableEq

/-- How far a task is. -/
inductive Stage (τ : Type) where
  -- `await previous`
  | queued
  -- `await oauth.refresh(current)`
  | refreshing (current : OAuthCredential τ)
  -- `await fn(current)`, which has its answer
  | returning (current next : Option (Credential τ))
  -- settled, rejected with `none`
  | settled (result : Option (Option (Credential τ)))
  deriving DecidableEq

/-- The call waits for its turn. -/
def Stage.isQueued {τ : Type} : Stage τ → Bool
  | queued => true
  | _ => false

/-- The promise is settled. -/
def Stage.isSettled {τ : Type} : Stage τ → Bool
  | settled _ => true
  | _ => false

/-- A call of `enqueue`, with the call whose tail it waits for. -/
structure Op (τ : Type) where
  previous : Option Nat
  task : Task τ
  aborted : Bool
  stage : Stage τ
  deriving DecidableEq

/-- What a task has done. -/
inductive Event (τ : Type) where
  | began (i : Nat)
  | refreshStarted (i : Nat) (current : OAuthCredential τ)
  | refreshRejected (i : Nat)
  | refreshResolved (i : Nat) (next : OAuthCredential τ)
  -- the credential is set
  | wrote (i : Nat) (next : Credential τ)
  | deleted (i : Nat)
  -- there was nothing to set
  | kept (i : Nat)
  -- the signal was aborted: nothing is set
  | dropped (i : Nat)
  deriving DecidableEq

namespace Event

variable {τ : Type}

/-- Whose event it is. -/
def op : Event τ → Nat
  | began i | refreshStarted i _ | refreshRejected i | refreshResolved i _ | wrote i _ | deleted i
  | kept i | dropped i => i

/-- The stored credential behind the event. -/
def after (credential : Option (Credential τ)) : Event τ → Option (Credential τ)
  | wrote _ next => some next
  | deleted _ => none
  | _ => credential

/-- The credential is set or deleted. -/
def writes : Event τ → Bool
  | wrote _ _ | deleted _ => true
  | _ => false

end Event

/-- The calls in their order, `chains.get(providerId)`, `credentials.get(providerId)`, the clock,
and what has happened. -/
structure State (τ : Type) where
  ops : List (Op τ)
  chain : Option Nat
  credential : Option (Credential τ)
  now : Nat
  log : List (Event τ)

inductive Action (τ : Type) where
  -- `resolveStoredOAuth` with a credential that was read before
  | resolve (stored : OAuthCredential τ) (minOAuthValidityMs : Option Nat)
  | login (credential : Credential τ)
  | logout
  -- the signal of a call is aborted
  | abort (i : Nat)
  -- time passes
  | tick (ms : Nat)
  -- `await previous` goes on
  | start (i : Nat)
  -- `oauth.refresh` settles, with `none` if it rejects
  | reply (i : Nat) (answer : Option (OAuthCredential τ))
  -- `await fn(current)` goes on
  | commit (i : Nat)
  -- `tail.then(...)`
  | forget (i : Nat)

namespace State

variable {τ : Type}

def initial (credential : Option (Credential τ)) (now : Nat) : State τ :=
  ⟨[], none, credential, now, []⟩

/-- `enqueue` -/
def enqueue (s : State τ) (task : Task τ) : State τ :=
  { s with ops := s.ops ++ [⟨s.chain, task, false, .queued⟩], chain := some s.ops.length }

/-- A task has come to a stage. -/
def advance (s : State τ) (i : Nat) (op : Op τ) (stage : Stage τ) (events : List (Event τ)) :
    State τ :=
  { s with
    ops := s.ops.set i { op with stage }
    credential := events.foldl Event.after s.credential
    log := s.log ++ events }

/-- A promise of the chain is settled. -/
def isSettled (s : State τ) (i : Nat) : Bool := (s.ops[i]?).any (·.stage.isSettled)

/-- `await previous` can go on. -/
def inTurn (s : State τ) : Option Nat → Bool
  | none => true
  | some j => s.isSettled j

/-- The task begins. -/
def begin (s : State τ) (i : Nat) (op : Op τ) : State τ :=
  match op.task with
  | .logout => s.advance i op (.settled (some none)) [.began i, .deleted i]
  | .login credential =>
    s.advance i op (.returning s.credential (some credential)) [.began i]
  | .resolve minOAuthValidityMs =>
    match s.credential with
    | some (.oauth current) =>
      if expiresSoon s.now minOAuthValidityMs current then
        s.advance i op (.refreshing current) [.began i, .refreshStarted i current]
      else s.advance i op (.returning s.credential none) [.began i]
    | _ => s.advance i op (.returning s.credential none) [.began i]

end State

section Steps

variable {τ : Type}

/-- One step; `none` where it cannot happen. -/
def step (s : State τ) : Action τ → Option (State τ)
  | .resolve stored minOAuthValidityMs =>
    some (if expiresSoon s.now minOAuthValidityMs stored then s.enqueue
      (.resolve minOAuthValidityMs)
      else s)
  | .login credential => some (s.enqueue (.login credential))
  | .logout => some (s.enqueue .logout)
  | .abort i => (s.ops[i]?).map fun op => { s with ops := s.ops.set i { op with aborted := true } }
  | .tick ms => some { s with now := s.now + ms }
  | .start i =>
    (s.ops[i]?).bind fun op =>
      if op.stage.isQueued ∧ s.inTurn op.previous then
        some (if op.aborted then s.advance i op (.settled none) [] else s.begin i op)
      else none
  | .reply i answer =>
    (s.ops[i]?).bind fun op => match op.stage, answer with
      | .refreshing current, some next => some (s.advance i op
          (.returning (some (.oauth current)) (some (.oauth next))) [.refreshResolved i next])
      | .refreshing _, none => some (s.advance i op (.settled none) [.refreshRejected i])
      | _, _ => none
  | .commit i =>
    (s.ops[i]?).bind fun op => match op.stage with
      | .returning current next =>
        some <| if op.aborted then s.advance i op (.settled none) [.dropped i]
          else match next with
            | some credential =>
              s.advance i op (.settled (some (some credential))) [.wrote i credential]
            | none => s.advance i op (.settled (some current)) [.kept i]
      | _ => none
  | .forget i => if s.chain = some i ∧ s.isSettled i then some { s with chain := none } else none

/-- A run. -/
def run (s : State τ) (actions : List (Action τ)) : Option (State τ) := actions.foldlM step s

end Steps

end CredentialStore

end PiMono.Ai
