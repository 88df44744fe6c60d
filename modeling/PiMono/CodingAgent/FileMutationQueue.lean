import PiMono.Lib.JsMap
import PiMono.Lib.Runs
import Mathlib.Algebra.Order.Ring.Nat

/-!
# The file mutation queue

`packages/coding-agent/src/core/tools/file-mutation-queue.ts`: `withFileMutationQueue`
registers its calls one after the other, each under the key that `realpath` gives at that
moment, and runs the callback behind the queue of that key. The steps are what happens
between two awaits; files come and go at any time, the symbolic links stay.
-/

namespace PiMono.CodingAgent.FileMutationQueue

/-- The file that a path denotes once its symbolic links are resolved, whether or not it exists. -/
structure Links (Path : Type) where
  target : Path → Path
  target_target : ∀ p, target (target p) = target p

/-- How far a call of `withFileMutationQueue` is. -/
inductive Stage (Path : Type) where
  -- `registrationQueue.then(...)` has not looked up the key
  | queued
  -- `getMutationQueueKey` has a key, or throws
  | looked (key : Option Path)
  -- the registration was rejected
  | rejected
  -- `await currentQueue`; `none` is `Promise.resolve()`, a call its `chainedQueue`
  | waiting (key : Path) (currentQueue : Option Nat)
  -- `await fn()`
  | running (key : Path) (currentQueue : Option Nat)
  -- `fn` has returned or thrown, `releaseNext` is called; whether `chainedQueue` is resolved
  | settled (key : Path) (currentQueue : Option Nat) (chained : Bool)
  deriving DecidableEq

namespace Stage

variable {Path : Type}

/-- The key that the call is registered under. -/
def key : Stage Path → Option Path
  | waiting k _ | running k _ | settled k _ _ => some k
  | _ => none

/-- The promise that the call waits for, or has waited for. -/
def currentQueue : Stage Path → Option Nat
  | waiting _ q | running _ q | settled _ q _ => q
  | _ => none

/-- The promise of the registration is settled. -/
def registered : Stage Path → Bool
  | queued | looked _ => false
  | _ => true

/-- The callback has been called. -/
def started : Stage Path → Bool
  | running _ _ | settled _ _ _ => true
  | _ => false

/-- The call has returned or thrown. -/
def done : Stage Path → Bool
  | rejected | settled _ _ _ => true
  | _ => false

/-- `chainedQueue` is resolved. -/
def chained : Stage Path → Bool
  | settled _ _ c => c
  | _ => false

/-- How many steps the call can still take by itself. -/
def steps : Stage Path → Nat
  | queued => 3
  | looked _ => 2
  | waiting _ _ | running _ _ => 1
  | settled _ _ c => if c then 0 else 1
  | rejected => 0

end Stage

/-- A call of `withFileMutationQueue`, with its resolved path. -/
structure Call (Path : Type) where
  path : Path
  stage : Stage Path

/-- `fileMutationQueues`, each promise by the call that has made it, with all calls in call order
and the files that exist. -/
structure State (Path : Type) [DecidableEq Path] where
  calls : List (Call Path)
  fileMutationQueues : JsMap Path Nat
  existing : List Path

inductive Action (Path : Type) where
  -- `withFileMutationQueue(path, fn)`
  | call (path : Path)
  -- `realpath` reads the file system, or fails with an error that is not a missing path
  | lookup (i : Nat) (fails : Bool)
  -- the registration goes on with the key
  | register (i : Nat)
  -- `currentQueue` is resolved, the callback is called
  | start (i : Nat)
  -- the callback settles
  | finish (i : Nat)
  -- `chainedQueue` is resolved
  | chain (i : Nat)
  -- a file is made or removed
  | change (file : Path) (made : Bool)

section Steps

variable {Path : Type} [DecidableEq Path]

namespace State

def initial : State Path := ⟨[], JsMap.empty, []⟩

def stage (s : State Path) (i : Nat) : Option (Stage Path) := s.calls[i]?.map (·.stage)

def path (s : State Path) (i : Nat) : Option Path := s.calls[i]?.map (·.path)

def setStage (s : State Path) (i : Nat) (stage : Stage Path) : State Path :=
  { s with calls := s.calls.modify i fun c => { c with stage } }

/-- A promise that a call waits for is resolved. -/
def resolved (s : State Path) : Option Nat → Bool
  | none => true
  | some j => (s.stage j).any Stage.chained

/-- The registrations in front of a call are settled. -/
def inTurn (s : State Path) (i : Nat) : Bool :=
  (List.range i).all fun j => (s.stage j).any Stage.registered

end State

open State

/-- `getMutationQueueKey`: the real path of a file that exists, else the path. -/
def getMutationQueueKey (links : Links Path) (existing : List Path) (path : Path) : Path :=
  if links.target path ∈ existing then links.target path else path

/-- One step; `none` where it cannot happen. -/
def step (links : Links Path) (s : State Path) : Action Path → Option (State Path)
  | .call path => some { s with calls := s.calls ++ [⟨path, .queued⟩] }
  | .lookup i fails =>
    match s.calls[i]? with
    | some ⟨path, .queued⟩ =>
      if s.inTurn i then
        some (s.setStage i (.looked
          (if fails then none else some (getMutationQueueKey links s.existing path))))
      else none
    | _ => none
  | .register i =>
    match s.stage i with
    | some (.looked none) => some (s.setStage i .rejected)
    | some (.looked (some key)) =>
      some { s.setStage i (.waiting key (s.fileMutationQueues.get? key)) with
        fileMutationQueues := s.fileMutationQueues.set key i }
    | _ => none
  | .start i =>
    match s.stage i with
    | some (.waiting key currentQueue) =>
      if s.resolved currentQueue then some (s.setStage i (.running key currentQueue)) else none
    | _ => none
  | .finish i =>
    match s.stage i with
    | some (.running key currentQueue) =>
      some { s.setStage i (.settled key currentQueue false) with
        fileMutationQueues :=
          if s.fileMutationQueues.get? key = some i then s.fileMutationQueues.delete key
          else s.fileMutationQueues }
    | _ => none
  | .chain i =>
    match s.stage i with
    | some (.settled key currentQueue false) =>
      if s.resolved currentQueue then some (s.setStage i (.settled key currentQueue true)) else none
    | _ => none
  | .change file made =>
    some { s with existing := if made then file :: s.existing else s.existing.filter (· ≠ file) }

/-- Steps that calls take by themselves, without a callback that settles. -/
def Action.byItself : Action Path → Bool
  | .lookup _ _ | .register _ | .chain _ => true
  | _ => false

/-- How many steps the calls can still take by themselves. -/
def State.remaining (s : State Path) : Nat := (s.calls.map fun c => c.stage.steps).sum

/-- When a call is registered, the calls for its file that are registered and not done have its
key. -/
def keysAgree (links : Links Path) (s : State Path) : Action Path → Bool
  | .register i =>
    match s.calls[i]? with
    | some ⟨path, .looked (some key)⟩ =>
      s.calls.all fun c => links.target c.path ≠ links.target path || c.stage.key = none ||
        c.stage.done || c.stage.key = some key
    | _ => true
  | _ => true

/-- Two calls are for one file. -/
def SameFile (links : Links Path) (s : State Path) (i j : Nat) : Prop :=
  (s.path i).map links.target = (s.path j).map links.target

/-- What the queue is for. -/
structure Serialized (links : Links Path) (s : State Path) : Prop where
  -- two callbacks for one file never run at the same time
  exclusive : ∀ i j, i ≠ j → SameFile links s i j →
    ∀ k q k' q', s.stage i = some (.running k q) → s.stage j ≠ some (.running k' q')
  -- callbacks for one file run in call order
  inOrder : ∀ i j x y, i < j → SameFile links s i j → s.stage i = some x → s.stage j = some y →
    y.started = true → x.done = true
  -- what the calls do by themselves comes to an end
  stops : ∀ a t, a.byItself = true → step links s a = some t → t.remaining < s.remaining
  -- and then each callback can be called that has no predecessor which is not done
  runnable : (∀ a, a.byItself = true → step links s a = none) →
    ∀ i x, s.stage i = some x → x.done = false →
      x.started = true ∨ (step links s (.start i)).isSome = true ∨
        ∃ j < i, ∃ y, s.stage j = some y ∧ y.done = false ∧ y.key = x.key
  -- when all calls have settled, the map is empty
  empty : (∀ i x, s.stage i = some x → x.done = true) → s.fileMutationQueues = JsMap.empty

end Steps

end PiMono.CodingAgent.FileMutationQueue
