import PiMono.Lib.LockedUpdates

/-!
# Reads of the auth file

`AuthStorage` of `packages/coding-agent/src/core/auth-storage.ts`, as the instances of one process
use it that share an auth file and with it one `readState`: `read` and `list`, `modify`,
`delete` and `reload`, as the steps that they take between their awaits. The lock is exclusive,
and other processes write the file while they hold it.
-/

namespace PiMono.CodingAgent.AuthReads

open LockedUpdates

/-- What the file holds, with its revision; `0` is the revision of the `{}` that stands for a
file that has not been read. -/
structure Content (π γ : Type) where
  data : π → Option γ
  version : Nat

/-- A call of `storage.withLockAsync`. -/
inductive Kind (π : Type) where
  | modify (provider : π)
  | delete (provider : π)
  -- `reloadFromStorageAsync`
  | reload
  deriving DecidableEq

/-- How a call goes on behind `withLockAsync`. -/
inductive Outcome (π γ : Type) where
  -- `this.updateReadState(latestData, revision)`
  | updated (latestData : Content π γ) (revision : Option Nat) (wrote : Bool)
  -- a reload gives `currentData`
  | loaded (currentData : Content π γ)
  -- it throws; whether the reason is that its signal is aborted
  | failed (aborted : Bool)

inductive Phase (π γ : Type) where
  -- `acquireLockAsync`
  | acquiring
  -- `await fn(current)`, with the lock
  | working (current : Content π γ)
  -- `await release()`, with the lock
  | releasing (outcome : Outcome π γ)
  -- the lock is free, and the call has not gone on
  | released (outcome : Outcome π γ)
  | settled (outcome : Outcome π γ)

/-- A call, with its signal; `readers` is that of an `AuthFileReload`. -/
structure Call (π γ : Type) where
  kind : Kind π
  phase : Phase π γ
  aborted : Bool
  readers : Nat

/-- How far a call of `readLatestData` is. -/
inductive Reading (π γ : Type) where
  -- `await result`, for the promise of a reload
  | waiting (reload : Nat)
  | returned (data : Content π γ)
  -- its own signal is aborted
  | aborted
  -- the reload has thrown; whether the reason is that it was aborted
  | rejected (byAbort : Bool)

/-- A call of `readLatestData`; `after` is the last revision that a resolved call has written. -/
structure Reader (π γ : Type) where
  signal : Bool
  after : Nat
  reading : Reading π γ

/-- The file and the lock, `readState`, and the calls. Of the last three fields nothing is read:
the contents of the file by their revision, the last one that a resolved call has written,
and the calls that have written the file or changed `readState.data`. -/
structure State (π γ : Type) where
  file : Content π γ
  -- the call that holds it; another process holds it as `some none`
  lock : Option (Option Nat)
  -- `readState.data`, `readState.revision`, `readState.reload`
  snapshot : Content π γ
  revision : Option Nat
  reload : Option Nat
  calls : List (Call π γ)
  readers : List (Reader π γ)
  written : List (π → Option γ)
  resolved : Nat
  touched : List Nat

/-- Nothing has been read. -/
def initial {π γ : Type} (first : π → Option γ) : State π γ where
  file := ⟨first, 1⟩
  lock := none
  snapshot := ⟨fun _ => none, 0⟩
  revision := none
  reload := none
  calls := []
  readers := []
  written := [fun _ => none, first]
  resolved := 0
  touched := []

inductive Action (π γ : Type) where
  -- `read` or `list`
  | read (signal : Bool)
  -- `modify` or `delete`
  | call (kind : Kind π)
  -- a call gets the lock, and reads the file
  | acquire (i : Nat)
  -- a call does not get the lock, or finds that its signal is aborted
  | refuse (i : Nat)
  -- `fn` has replied
  | work (i : Nat) (reply : Reply γ)
  -- the lock is released
  | release (i : Nat)
  -- the call goes on behind `await release()`
  | finish (i : Nat)
  -- the signal of a `modify` or `delete` is aborted
  | abort (i : Nat)
  -- the reload of a reader is settled
  | resume (r : Nat)
  -- the signal of a reader is aborted
  | leave (r : Nat)
  -- `AuthStorage.reload`, of the constructor too
  | reload
  -- another process takes the lock, writes the file, and releases the lock
  | lockOther
  | external (data : π → Option γ)
  | unlockOther

section Steps

variable {π γ : Type}

namespace State

def setCall (s : State π γ) (i : Nat) (call : Call π γ) : State π γ :=
  { s with calls := s.calls.set i call }

def setReader (s : State π γ) (r : Nat) (reader : Reader π γ) : State π γ :=
  { s with readers := s.readers.set r reader }

def addCall (s : State π γ) (kind : Kind π) : State π γ :=
  { s with calls := s.calls ++ [⟨kind, .acquiring, false, 0⟩] }

def setLock (s : State π γ) (lock : Option (Option Nat)) : State π γ := { s with lock }

/-- `writeFileSync` -/
def writeFile (s : State π γ) (data : π → Option γ) : State π γ :=
  { s with file := ⟨data, s.file.version + 1⟩, written := s.written ++ [data] }

def updateReadState (s : State π γ) (data : Content π γ) (revision : Option Nat) : State π γ :=
  { s with snapshot := data, revision }

def touch (s : State π γ) (i : Nat) : State π γ := { s with touched := s.touched ++ [i] }

/-- The promise of a call that has written `version` resolves. -/
def resolve (s : State π γ) (version : Nat) : State π γ :=
  { s with resolved := max s.resolved version }

/-- `if (this.readState.reload === reload) this.readState.reload = undefined` -/
def clearReload (s : State π γ) (i : Nat) : State π γ :=
  if s.reload = some i then { s with reload := none } else s

end State

/-- A reader waits for a reload: `reload.readers++`. -/
def join (s : State π γ) (signal : Bool) (i : Nat) : Option (State π γ) :=
  (s.calls[i]?).map fun call =>
    let s := s.setCall i { call with readers := call.readers + 1 }
    { s with readers := s.readers ++ [⟨signal, s.resolved, .waiting i⟩] }

/-- `readLatestData`, up to its await. -/
def read (s : State π γ) (signal : Bool) : Option (State π γ) :=
  if s.revision = some s.file.version then
    some { s with readers := s.readers ++ [⟨signal, s.resolved, .returned s.snapshot⟩] }
  else
    match s.reload with
    | some i => join s signal i
    | none => join { s.addCall .reload with reload := some s.calls.length } signal s.calls.length

/-- The `finally` of `readLatestData`. -/
def leaveReload (s : State π γ) (i : Nat) : State π γ :=
  match s.calls[i]? with
  | some call =>
    if call.readers - 1 = 0 ∧ s.reload = some i then
      -- `reload.controller.abort()`
      { s.setCall i { call with readers := call.readers - 1, aborted := true } with reload := none }
    else s.setCall i { call with readers := call.readers - 1 }
  | none => s

/-- A call has the lock. -/
def acquire (s : State π γ) (i : Nat) (call : Call π γ) : State π γ :=
  let s := s.setLock (some (some i))
  if call.aborted then s.setCall i { call with phase := .releasing (.failed true) }
  else
    let s := s.setCall i { call with phase := .working s.file }
    match call.kind with
    | .reload => (s.updateReadState s.file (some s.file.version)).touch i
    | _ => s

section Work

variable [DecidableEq π]

/-- What `fn` makes of the content of the file. -/
def nextData (kind : Kind π) (current : Content π γ) (reply : Reply γ) : Option (π → Option γ) :=
  match kind, reply with
  | .modify provider, .writes next => some (Function.update current.data provider (some next))
  | .delete provider, _ => some (Function.update current.data provider none)
  | _, _ => none

/-- What the call gives without writing the file. -/
def keptOutcome (s : State π γ) (kind : Kind π) (current : Content π γ) : Outcome π γ :=
  match kind with
  | .reload => .loaded current
  | _ => .updated current (some s.file.version) false

/-- `fn` has replied: `signal.throwIfAborted()`, `writeFileSync`. -/
def work (s : State π γ) (i : Nat) (call : Call π γ) (current : Content π γ) (reply : Reply γ) :
    State π γ :=
  match call.kind, reply with
  | .modify _, .throws => s.setCall i { call with phase := .releasing (.failed false) }
  | kind, reply =>
    if call.aborted then s.setCall i { call with phase := .releasing (.failed true) }
    else
      match nextData kind current reply with
      | some data =>
        let s := s.writeFile data
        (s.setCall i { call with phase := .releasing (.updated s.file none true) }).touch i
      | none => s.setCall i { call with phase := .releasing (keptOutcome s kind current) }

end Work

/-- A call goes on behind its release. -/
def finish (s : State π γ) (i : Nat) (call : Call π γ) (outcome : Outcome π γ) : State π γ :=
  let s := s.setCall i { call with phase := .settled outcome }
  match outcome with
  | .updated data revision wrote =>
    let s := (s.updateReadState data revision).touch i
    if wrote then s.resolve data.version else s
  | _ => s.clearReload i

/-- The reload of a reader is settled. -/
def resume (s : State π γ) (r : Nat) (reader : Reader π γ) (i : Nat) (outcome : Outcome π γ) :
    State π γ :=
  match outcome with
  | .failed aborted =>
    -- `result.catch(() => this.readState.data)`, without a signal
    leaveReload (s.setReader r { reader with
      reading := if reader.signal then .rejected aborted else .returned s.snapshot }) i
  | .loaded data | .updated data _ _ =>
    leaveReload (s.setReader r { reader with reading := .returned data }) i

variable [DecidableEq π]

def step (s : State π γ) : Action π γ → Option (State π γ)
  | .read signal => read s signal
  | .call kind => if kind = .reload then none else some (s.addCall kind)
  | .acquire i =>
    match s.calls[i]?, s.lock with
    | some call, none =>
      match call.phase with
      | .acquiring => some (acquire s i call)
      | _ => none
    | _, _ => none
  | .refuse i =>
    match s.calls[i]? with
    | some call =>
      match call.phase with
      | .acquiring => some (s.setCall i { call with phase := .released (.failed call.aborted) })
      | _ => none
    | none => none
  | .work i reply =>
    match s.calls[i]? with
    | some call =>
      match call.phase with
      | .working current => some (work s i call current reply)
      | _ => none
    | none => none
  | .release i =>
    match s.calls[i]? with
    | some call =>
      match call.phase with
      | .releasing outcome =>
          some ((s.setLock none).setCall i { call with phase := .released outcome })
      | _ => none
    | none => none
  | .finish i =>
    match s.calls[i]? with
    | some call =>
      match call.phase with
      | .released outcome => some (finish s i call outcome)
      | _ => none
    | none => none
  | .abort i =>
    match s.calls[i]? with
    | some call => if call.kind = .reload then none else some
        (s.setCall i { call with aborted := true })
    | none => none
  | .resume r =>
    match s.readers[r]? with
    | some reader =>
      match reader.reading with
      | .waiting i =>
        match s.calls[i]? with
        | some call =>
          match call.phase with
          | .settled outcome => some (resume s r reader i outcome)
          | _ => none
        | none => none
      | _ => none
    | none => none
  | .leave r =>
    match s.readers[r]? with
    | some reader =>
      match reader.reading with
      | .waiting i =>
        if reader.signal then
          some (leaveReload (s.setReader r { reader with reading := .aborted }) i)
        else none
      | _ => none
    | none => none
  | .reload =>
    if s.lock = none then some (s.updateReadState s.file (some s.file.version)) else none
  | .lockOther => if s.lock = none then some (s.setLock (some none)) else none
  | .external data => if s.lock = some none then some (s.writeFile data) else none
  | .unlockOther => if s.lock = some none then some (s.setLock none) else none

/-- A run. -/
def run (s : State π γ) (actions : List (Action π γ)) : Option (State π γ) :=
  actions.foldlM step s

end Steps

end PiMono.CodingAgent.AuthReads
