import Mathlib.Logic.Function.Basic
import PiMono.Lib.CodeUnits
import PiMono.Lib.JsMap

/-!
# Live sessions of a server

`packages/server/src/sessions.ts`: `LiveSessionManager`, as a machine whose steps are what
happens between two awaits. Sessions, connections and the promises of `create` are objects,
so they have numbers. What a command still has to do when an await returns is a `Task`;
calls of `disconnect` and `maybeDispose` that follow within the same turn are the `agenda`,
and nothing else happens before it is done.

Snapshots and messages are left out, except that a command awaits them, and so is a server
that is closing.
-/

namespace PiMono.Server.Sessions

/-- `LiveSession.disposing`: not set, or a promise. -/
inductive Disposing where
  | unset
  | running
  | finished
  deriving DecidableEq

/-- `LiveSession`, with the phase of its runtime and whether that has a listener. -/
structure LiveSession where
  id : JsString
  connections : List Nat
  subscribed : Bool
  operationCount : Nat
  ready : Bool
  terminal : Bool
  disposing : Disposing
  idle : Bool

/-- What is read of a `ConnectionState`; `closed` is set once its stage is not `"ready"` any
more or its transport is closed. -/
structure ConnectionState where
  sessionIds : List JsString
  closed : Bool
  disconnected : Bool

/-- The promise of `create`. -/
inductive Creation where
  | unused
  | pending (id : JsString)
  | failed
  | made (live : Nat)

/-- What is left of a call behind an await. -/
inductive Task where
  -- `await existing.disposing` in `acquire`
  | awaitDisposal (connection : Nat) (id : JsString) (live : Nat)
  -- `return opening`, or `return await pending` of the call that has made the promise
  | awaitCreation (connection : Nat) (id : JsString) (creation : Nat) (own : Bool)
  -- `acquire` has returned, `attach` comes next
  | attach (connection live : Nat)
  -- `await operation()` and what follows in `runOperation`
  | operation (live : Nat)
  -- `await this.broadcastSnapshot(live)` of `detach`
  | detach (live : Nat)
  -- `closeConnection` of `terminate`
  | terminate (live : Nat) (connections : List Nat)
  -- `disconnect` of `terminate`
  | terminated (live : Nat)
  deriving DecidableEq

/-- A call that follows within the turn. -/
inductive Job where
  | disconnect (connection : Nat)
  | maybeDispose (live : Nat)
  deriving DecidableEq

/-- A call of a runtime. -/
inductive RuntimeCall where
  | operation
  | dispose
  deriving DecidableEq

/-- `LiveSessionManager`, with the objects it refers to, the tasks and the agenda. `calls`
remembers the calls of runtimes. -/
structure LiveSessionManager where
  live : Nat → LiveSession
  connection : Nat → ConnectionState
  creation : Nat → Creation
  nextLive : Nat
  nextCreation : Nat
  liveSessions : JsMap JsString Nat
  openingSessions : JsMap JsString Nat
  tasks : List Task
  agenda : List Job
  calls : List (Nat × RuntimeCall)

inductive Action where
  -- commands; `create` has drawn its id
  | create (connection : Nat) (id : JsString)
  | attach (connection : Nat) (id : JsString)
  | detach (connection : Nat) (id : JsString)
  -- `prompt`, `steer`, `abort`, `set_model` and `set_thinking`
  | operation (connection : Nat) (id : JsString)
  -- a connection is closing, or closed
  | close (connection : Nat)
  | disconnect (connection : Nat)
  -- the phase of a runtime changes
  | phase (live : Nat) (idle : Bool)
  -- an event of a runtime: a snapshot or progress, or an error
  | event (live : Nat)
  | error (live : Nat)
  -- `create` returns; the runtime may report an error while it is subscribed to
  | created (creation : Nat) (error : Bool)
  | failed (creation : Nat)
  -- `runtime.dispose()` returns
  | disposed (live : Nat)
  -- an await returns, or throws
  | resume (task : Task)
  | reject (task : Task)
  -- the next call of the agenda
  | next

namespace LiveSessionManager

/-- Change one session. -/
def setLive (m : LiveSessionManager) (live : Nat) (f : LiveSession → LiveSession) :
    LiveSessionManager :=
  { m with live := Function.update m.live live (f (m.live live)) }

/-- Change one connection. -/
def setConnection (m : LiveSessionManager) (connection : Nat)
    (f : ConnectionState → ConnectionState) : LiveSessionManager :=
  { m with connection := Function.update m.connection connection (f (m.connection connection)) }

/-- A task ends, and others begin. -/
def replaceTask (m : LiveSessionManager) (task : Task) (tasks : List Task) : LiveSessionManager :=
  { m with tasks := m.tasks.erase task ++ tasks }

/-- `acquire`, up to its first await; without a task it throws. -/
def acquire (m : LiveSessionManager) (connection : Nat) (id : JsString) : LiveSessionManager :=
  match m.liveSessions.get? id with
  | some live =>
    if (m.live live).terminal then m
    else if (m.live live).disposing ≠ .unset then
      { m with tasks := m.tasks ++ [.awaitDisposal connection id live] }
    else { m with tasks := m.tasks ++ [.attach connection live] }
  | none =>
    match m.openingSessions.get? id with
    | some creation => { m with tasks := m.tasks ++ [.awaitCreation connection id creation false] }
    | none =>
      { m with
        creation := Function.update m.creation m.nextCreation (.pending id)
        nextCreation := m.nextCreation + 1
        openingSessions := m.openingSessions.set id m.nextCreation
        tasks := m.tasks ++ [.awaitCreation connection id m.nextCreation true] }

/-- `maybeDispose` disposes. -/
def mayDispose (m : LiveSessionManager) (live : Nat) : Bool :=
  (m.live live).ready ∧ (m.live live).disposing = .unset ∧ (m.live live).connections = [] ∧
    (m.live live).operationCount = 0 ∧ ((m.live live).terminal ∨ (m.live live).idle)

/-- `maybeDispose`, up to its await. -/
def maybeDispose (m : LiveSessionManager) (live : Nat) : LiveSessionManager :=
  if m.mayDispose live then
    { m.setLive live fun l => { l with subscribed := false, disposing := .running } with
      calls := m.calls ++ [(live, .dispose)] }
  else m

/-- `attach`, with the `maybeDispose` of a connection that is gone. -/
def attach (m : LiveSessionManager) (connection live : Nat) : LiveSessionManager :=
  if (m.connection connection).disconnected ∨ (m.connection connection).closed then
    { m with agenda := [.maybeDispose live] }
  else
    (m.setConnection connection fun c =>
        { c with sessionIds := c.sessionIds.insert (m.live live).id }).setLive live fun l =>
      { l with connections := l.connections.insert connection }

/-- `detach`, up to its await. -/
def detach (m : LiveSessionManager) (connection : Nat) (id : JsString) : LiveSessionManager :=
  if id ∈ (m.connection connection).sessionIds then
    let m := m.setConnection connection fun c =>
      { c with sessionIds := c.sessionIds.filter (· ≠ id) }
    match m.liveSessions.get? id with
    | none => m
    | some live =>
      let m := m.setLive live fun l =>
        { l with connections := l.connections.filter (· ≠ connection) }
      if (m.live live).connections ≠ [] ∧ (m.live live).terminal = false ∧
          (m.live live).disposing = .unset then
        { m with tasks := m.tasks ++ [.detach live] }
      else { m with agenda := [.maybeDispose live] }
  else m

/-- `requireAttached` and the start of `runOperation`; it throws for a session that is not
live. -/
def operation (m : LiveSessionManager) (connection : Nat) (id : JsString) :
    LiveSessionManager :=
  if id ∈ (m.connection connection).sessionIds then
    match m.liveSessions.get? id with
    | none => m
    | some live =>
      if (m.live live).terminal ∨ (m.live live).disposing ≠ .unset then m
      else
        { m.setLive live fun l => { l with operationCount := l.operationCount + 1 } with
          tasks := m.tasks ++ [.operation live]
          calls := m.calls ++ [(live, .operation)] }
  else m

/-- `disconnect` of the server and of the manager, up to its await. -/
def disconnect (m : LiveSessionManager) (connection : Nat) (agenda : List Job) :
    LiveSessionManager :=
  if (m.connection connection).disconnected then { m with agenda := agenda }
  else
    let sessions := (m.connection connection).sessionIds.filterMap m.liveSessions.get?
    { m with
      connection := Function.update m.connection connection ⟨[], true, true⟩
      live := fun k =>
        if k ∈ sessions then
          { m.live k with connections := (m.live k).connections.filter (· ≠ connection) }
        else m.live k
      agenda := sessions.map .maybeDispose ++ agenda }

/-- `terminate`, up to its first await. -/
def terminate (m : LiveSessionManager) (live : Nat) : LiveSessionManager :=
  if (m.live live).terminal then m
  else
    { m.setLive live fun l => { l with terminal := true, subscribed := false } with
      tasks := m.tasks ++ [.terminate live (m.live live).connections] }

/-- The end of `create`. -/
def created (m : LiveSessionManager) (creation : Nat) (id : JsString) (error : Bool) :
    LiveSessionManager :=
  { m with
    live := Function.update m.live m.nextLive ⟨id, [], true, 0, true, error, .unset, true⟩
    nextLive := m.nextLive + 1
    creation := Function.update m.creation creation (.made m.nextLive)
    liveSessions := m.liveSessions.set id m.nextLive
    tasks := m.tasks ++ if error then [.terminate m.nextLive []] else [] }

/-- `finally` of `acquire` -/
def forgetOpening (m : LiveSessionManager) (id : JsString) (creation : Nat) : LiveSessionManager :=
  if m.openingSessions.get? id = some creation then
    { m with openingSessions := m.openingSessions.delete id }
  else m

/-- An await returns, if it can. -/
def resume (m : LiveSessionManager) : Task → Option LiveSessionManager
  | .awaitDisposal connection id live =>
    if (m.live live).disposing = .finished then
      some ((m.replaceTask (.awaitDisposal connection id live) []).acquire connection id)
    else none
  | .awaitCreation connection id creation own =>
    let m' := if own then m.forgetOpening id creation else m
    match m.creation creation with
    | .made live =>
      some (m'.replaceTask (.awaitCreation connection id creation own) [.attach connection live])
    | .failed => some (m'.replaceTask (.awaitCreation connection id creation own) [])
    | _ => none
  | .attach connection live =>
    some ((m.replaceTask (.attach connection live) []).attach connection live)
  | .operation live =>
    some { (m.replaceTask (.operation live) []).setLive live fun l =>
        { l with operationCount := l.operationCount - 1 } with
      agenda := [.maybeDispose live] }
  | .detach live => some { m.replaceTask (.detach live) [] with agenda := [.maybeDispose live] }
  | .terminate live connections =>
    some { m.replaceTask (.terminate live connections) [.terminated live] with
      agenda := connections.map .disconnect }
  | .terminated live =>
    some { m.replaceTask (.terminated live) [] with agenda := [.maybeDispose live] }

/-- An await throws: `runtime.dispose()` has failed, or the snapshot of a session. The other
awaits catch, or go on as they do otherwise. -/
def reject (m : LiveSessionManager) : Task → Option LiveSessionManager
  | .awaitDisposal connection id live =>
    if (m.live live).disposing = .finished then
      some (m.replaceTask (.awaitDisposal connection id live) [])
    else none
  | .detach live => some (m.replaceTask (.detach live) [])
  | _ => none

/-- A step with nothing on the agenda. -/
def turn (m : LiveSessionManager) : Action → Option LiveSessionManager
  | .create connection id | .attach connection id => some (m.acquire connection id)
  | .detach connection id => some (m.detach connection id)
  | .operation connection id => some (m.operation connection id)
  | .close connection => some (m.setConnection connection fun c => { c with closed := true })
  | .disconnect connection => some (m.disconnect connection [])
  | .phase live idle => some (m.setLive live fun l => { l with idle := idle })
  | .event live =>
    if live < m.nextLive ∧ (m.live live).subscribed then
      some { m with agenda := [.maybeDispose live] }
    else none
  | .error live =>
    if live < m.nextLive ∧ (m.live live).subscribed then some (m.terminate live) else none
  | .created creation error =>
    match m.creation creation with
    | .pending id => some (m.created creation id error)
    | _ => none
  | .failed creation =>
    match m.creation creation with
    | .pending _ => some { m with creation := Function.update m.creation creation .failed }
    | _ => none
  | .disposed live =>
    if (m.live live).disposing = .running then
      let m' := m.setLive live fun l => { l with disposing := .finished }
      if m.liveSessions.get? (m.live live).id = some live then
        some { m' with liveSessions := m.liveSessions.delete (m.live live).id }
      else some m'
    else none
  | .resume task => if task ∈ m.tasks then m.resume task else none
  | .reject task => if task ∈ m.tasks then m.reject task else none
  | .next => none

/-- The state after an action, if it can happen. -/
def step (m : LiveSessionManager) (a : Action) : Option LiveSessionManager :=
  match m.agenda with
  | [] => m.turn a
  | job :: agenda =>
    match a, job with
    | .next, .disconnect connection => some (m.disconnect connection agenda)
    | .next, .maybeDispose live => some ({ m with agenda := agenda }.maybeDispose live)
    | _, _ => none

/-- `new LiveSessionManager(…)`, with connections that are ready. -/
def start : LiveSessionManager where
  live := fun _ => ⟨[], [], false, 0, false, false, .unset, false⟩
  connection := fun _ => ⟨[], false, false⟩
  creation := fun _ => .unused
  nextLive := 0
  nextCreation := 0
  liveSessions := .empty
  openingSessions := .empty
  tasks := []
  agenda := []
  calls := []

/-- The states that a manager gets to, where each step is one that `safe` allows. -/
inductive Reachable (safe : LiveSessionManager → Action → Prop) : LiveSessionManager → Prop where
  | start : Reachable safe start
  | step {m m' : LiveSessionManager} {a : Action} (h : Reachable safe m) (hsafe : safe m a)
      (hs : m.step a = some m') : Reachable safe m'

end LiveSessionManager

end PiMono.Server.Sessions
