import PiMono.Client.Connection
import PiMono.Lib.CodeUnits
import PiMono.Lib.SharedLeases

/-!
# Session leases of a client

`packages/client/src/client.ts:137-187`, `:209-319` and `:342-412`, and the attachments of
`state.ts`. Promises are the places of requests, attachments and reconciliations in lists.
What an async function still has to do is a `Task`; it goes on at any time after the promise
that it waits for has been settled, so other messages, or the loss of the connection, may
come first. Listeners are called at the end of a step: what they do are steps that follow.

The numbers, generations and connections that tokens and leases carry beyond those of the
source say when they were made; no step looks at them.
-/

namespace PiMono.Client.Leases

open SharedLeases

/-- `SessionLeaseMode` -/
inductive SessionLeaseMode where
  | shared
  | exclusive
  deriving DecidableEq

/-- `SessionLeaseToken`, an object; `generation` is that of its reservation. -/
structure SessionLeaseToken where
  number : Nat
  mode : SessionLeaseMode
  generation : Nat
  deriving DecidableEq

/-- `SessionLeaseState`; a lease is invalidated when its generation has passed. -/
inductive SessionLeaseState where
  | active
  | releasing
  | released
  deriving DecidableEq

/-- What the closure of `#createSessionLease` keeps; `connection` is the one whose answer
the lease rests on. -/
structure SessionLease where
  sessionId : JsString
  token : SessionLeaseToken
  generation : Nat
  state : SessionLeaseState
  connection : Nat

/-- What is read of a `SessionSnapshot`. -/
structure SessionSnapshot where
  id : JsString
  revision : Nat
  attached : Bool

/-- `CommandResult`; those of other commands than `list` and `detach` have a session. -/
inductive CommandResult where
  | list
  | detach (sessionId : JsString)
  | session (command : CommandName) (session : SessionSnapshot)

def CommandResult.command : CommandResult → CommandName
  | .list => .list
  | .detach _ => .detach
  | .session command _ => command

/-- The promise of a request. -/
inductive RequestState where
  | pending
  | resolved (result : CommandResult)
  | rejected

/-- A request, with the connection it was made on. -/
structure Request where
  command : CommandName
  connection : Nat
  state : RequestState

/-- The promise of `#attachSession`. -/
structure Attachment where
  sessionId : JsString
  previous : Option SessionSnapshot
  request : Nat
  ok : Option Bool

/-- The promise in `#sessionReconciliations`. -/
structure Reconciliation where
  sessionId : JsString
  request : Nat
  ok : Option Bool

/-- What an acquisition waits for. -/
inductive Awaited where
  | detachment (request : Nat)
  | reconciliation (reconciliation : Nat)
  | attachment (attachment : Nat)
  deriving DecidableEq

/-- What is left of an async function behind an await. -/
inductive Task where
  | createSession (request : Nat)
  | acquireSession (sessionId : JsString) (token : SessionLeaseToken) (awaited : Awaited)
  | attachSession (attachment : Nat)
  -- the `then` and the `finally` of a reconciliation
  | reconcile (reconciliation : Nat)
  | reconciled (reconciliation : Nat) (ok : Bool)
  -- the function that `release` calls, and its `catch`
  | release (lease : Nat) (relinquishOnFailure : Bool) (request : Nat)
  | releaseFailed (lease : Nat) (relinquishOnFailure : Bool)
  deriving DecidableEq

/-- What is read of a `ServerMessage` -/
inductive ServerMessage where
  | hello
  | helloError
  | response (id : Nat) (result : Option CommandResult)
  | sessionSnapshot (snapshot : SessionSnapshot)
  | sessionRemoved (sessionId : JsString)
  -- other events
  | event

/-- `ConnectionState` -/
inductive ConnectionState where
  | disconnected
  | connecting
  | connected
  deriving DecidableEq

/-- `PiClient`, with the state of its connection and what is read of its `ClientState`. -/
structure PiClient where
  connection : ConnectionState
  sequence : Nat
  disposed : Bool
  requests : List Request
  attachedSessionIds : List JsString
  sessionSnapshots : JsMap JsString SessionSnapshot
  sessionLeaseCounts : JsMap JsString Nat
  exclusiveSessionLeases : JsMap JsString SessionLeaseToken
  sessionLeaseGenerations : JsMap JsString Nat
  sessionAttachments : JsMap JsString Nat
  sessionDetachments : JsMap JsString Nat
  sessionCleanupRequired : List JsString
  sessionReconciliations : JsMap JsString Nat
  attachments : List Attachment
  reconciliations : List Reconciliation
  tokens : Nat
  leases : List SessionLease
  tasks : List Task

inductive Action where
  | createSession
  | acquireSession (sessionId : JsString) (mode : SessionLeaseMode)
  -- `detach` or `dispose` of a handle
  | release (lease : Nat) (relinquishOnFailure : Bool)
  -- a request that no lease depends on
  | request (command : CommandName)
  | connect
  -- `disconnect`, or the connection is lost
  | disconnect
  | dispose
  | message (message : ServerMessage)
  | resume (task : Task)

namespace PiClient

/-- `this.#sessionLeaseGenerations.get(sessionId) ?? 0` -/
def generation (c : PiClient) (sessionId : JsString) : Nat :=
  (c.sessionLeaseGenerations.get? sessionId).getD 0

/-- `#request`; its promise is the last one of `requests` then. -/
def request (c : PiClient) (command : CommandName) : PiClient :=
  let state := if c.disposed = false ∧ c.connection = .connected then .pending else .rejected
  { c with requests := c.requests ++ [⟨command, c.sequence, state⟩] }

def await (c : PiClient) (task : Task) : PiClient := { c with tasks := c.tasks ++ [task] }

/-! ## `state.ts` -/

/-- `#applySessionSnapshot` -/
def applySessionSnapshot (c : PiClient) (snapshot : SessionSnapshot) (force : Bool) : PiClient :=
  let old := (c.sessionSnapshots.get? snapshot.id).any fun current =>
    snapshot.revision < current.revision
  if force = false ∧ old = true then c
  else { c with
    sessionSnapshots := c.sessionSnapshots.set snapshot.id snapshot
    attachedSessionIds := if snapshot.attached then c.attachedSessionIds ++ [snapshot.id] else
      c.attachedSessionIds.filter (· ≠ snapshot.id) }

/-- `applyResult` -/
def applyResult (c : PiClient) : CommandResult → PiClient
  | .list => c
  | .detach sessionId =>
    let c := { c with attachedSessionIds := c.attachedSessionIds.filter (· ≠ sessionId) }
    match c.sessionSnapshots.get? sessionId with
    | some snapshot => c.applySessionSnapshot { snapshot with attached := false } true
    | none => c
  | .session _ session => c.applySessionSnapshot session false

/-! ## Counts, marks and generations -/

/-- `#reserveSessionLease` -/
def reserveSessionLease (c : PiClient) (sessionId : JsString) (mode : SessionLeaseMode) :
    Option (SessionLeaseToken × PiClient) :=
  let count := countOf c.sessionLeaseCounts sessionId
  if mode = .exclusive ∧ 0 < count then none
  else if mode = .shared ∧ c.exclusiveSessionLeases.has sessionId = true then none
  else
    let token : SessionLeaseToken := ⟨c.tokens, mode, c.generation sessionId⟩
    some (token, { c with
      tokens := c.tokens + 1
      sessionLeaseCounts := c.sessionLeaseCounts.set sessionId (count + 1)
      exclusiveSessionLeases := if mode = .exclusive then
        c.exclusiveSessionLeases.set sessionId token else c.exclusiveSessionLeases })

/-- `#releaseSessionLease` -/
def releaseSessionLease (c : PiClient) (sessionId : JsString) (token : SessionLeaseToken) :
    PiClient :=
  { c with
    sessionLeaseCounts := dropCount c.sessionLeaseCounts sessionId
    exclusiveSessionLeases := dropMark c.exclusiveSessionLeases sessionId token }

/-- `#invalidateSessionLeases` -/
def invalidateSessionLeases (c : PiClient) (sessionId : JsString) : PiClient :=
  { c with
    sessionLeaseCounts := c.sessionLeaseCounts.delete sessionId
    exclusiveSessionLeases := c.exclusiveSessionLeases.delete sessionId
    sessionCleanupRequired := c.sessionCleanupRequired.filter (· ≠ sessionId)
    sessionLeaseGenerations := c.sessionLeaseGenerations.set sessionId
      (c.generation sessionId + 1) }

/-- `#invalidateAllSessionLeases` -/
def invalidateAllSessionLeases (c : PiClient) : PiClient :=
  { c.sessionLeaseCounts.keys.foldl invalidateSessionLeases c with sessionCleanupRequired := [] }

/-! ## The connection -/

/-- `#rejectPendingRequests` -/
def rejectPendingRequests (c : PiClient) : PiClient :=
  { c with requests := c.requests.map fun request =>
      match request.state with
      | .pending => { request with state := .rejected }
      | _ => request }

/-- The connection is lost, up to the listeners of its state. -/
def disconnect (c : PiClient) : PiClient :=
  if c.connection = .disconnected then c
  else
    { c with connection := .disconnected, attachedSessionIds := [] }
      |>.invalidateAllSessionLeases.rejectPendingRequests

/-- `connect`, up to the listeners. -/
def connect (c : PiClient) : PiClient :=
  if c.disposed = false ∧ c.connection = .disconnected then
    { c with
      attachedSessionIds := []
      sessionSnapshots := .empty
      sequence := c.sequence + 1
      connection := .connecting }
  else c

/-- `dispose` -/
def dispose (c : PiClient) : PiClient :=
  if c.disposed then c
  else
    let c := { c with disposed := true }.rejectPendingRequests.disconnect
    { c with attachedSessionIds := [], sessionSnapshots := .empty }.invalidateAllSessionLeases

/-- `#handleMessage` -/
def handleMessage (c : PiClient) (message : ServerMessage) : PiClient :=
  match c.connection, message with
  | .disconnected, _ => c
  | .connecting, .hello => { c with connection := .connected }
  | .connected, .event => c
  | .connected, .sessionSnapshot snapshot => c.applySessionSnapshot snapshot false
  | .connected, .sessionRemoved sessionId =>
    let c := c.invalidateSessionLeases sessionId
    { c with
      sessionSnapshots := c.sessionSnapshots.delete sessionId
      attachedSessionIds := c.attachedSessionIds.filter (· ≠ sessionId) }
  | .connected, .response id result =>
    match c.requests[id]? with
    | some ⟨command, connection, .pending⟩ =>
      let settle (state : RequestState) : PiClient :=
        { c with requests := c.requests.set id ⟨command, connection, state⟩ }
      match result with
      | none => settle .rejected
      | some result =>
        if result.command ≠ command then (settle .rejected).disconnect
        else (settle (.resolved result)).applyResult result
    | _ => c.disconnect
  | _, _ => c.disconnect

/-! ## Leases -/

/-- `#createSessionLease` -/
def createSessionLease (c : PiClient) (sessionId : JsString) (token : SessionLeaseToken)
    (connection : Nat) : PiClient :=
  let generation := c.generation sessionId
  { c with
    sessionLeaseGenerations := c.sessionLeaseGenerations.set sessionId generation
    leases := c.leases ++ [⟨sessionId, token, generation, .active, connection⟩] }

/-- `#attachSession`, up to its await; the promise is the last one of `attachments` then. -/
def attachSession (c : PiClient) (sessionId : JsString) : PiClient :=
  let attachment : Attachment :=
    ⟨sessionId, c.sessionSnapshots.get? sessionId, c.requests.length, none⟩
  { c with
    sessionSnapshots := c.sessionSnapshots.delete sessionId
    attachments := c.attachments ++ [attachment] }
    |>.request .attach |>.await (.attachSession c.attachments.length)

/-- `acquireSession` behind the reconciliation. -/
def acquireAttached (c : PiClient) (sessionId : JsString) (token : SessionLeaseToken)
    (reconciled : Bool) : PiClient :=
  if reconciled = true ∨ sessionId ∉ c.attachedSessionIds then
    match c.sessionAttachments.get? sessionId with
    | some attachment => c.await (.acquireSession sessionId token (.attachment attachment))
    | none =>
      let attachment := c.attachments.length
      let c := c.attachSession sessionId
      { c with sessionAttachments := c.sessionAttachments.set sessionId attachment }
        |>.await (.acquireSession sessionId token (.attachment attachment))
  else c.createSessionLease sessionId token c.sequence

/-- `acquireSession` behind the detachment, with `#reconcileSessionCleanup`. -/
def acquireReconciled (c : PiClient) (sessionId : JsString) (token : SessionLeaseToken) :
    PiClient :=
  if sessionId ∈ c.sessionCleanupRequired then
    match c.sessionReconciliations.get? sessionId with
    | some reconciliation =>
      c.await (.acquireSession sessionId token (.reconciliation reconciliation))
    | none =>
      let reconciliation := c.reconciliations.length
      let added : Reconciliation := ⟨sessionId, c.requests.length, none⟩
      { c with
        reconciliations := c.reconciliations ++ [added]
        sessionReconciliations := c.sessionReconciliations.set sessionId reconciliation }
        |>.request .detach |>.await (.reconcile reconciliation)
        |>.await (.acquireSession sessionId token (.reconciliation reconciliation))
  else c.acquireAttached sessionId token false

/-- `acquireSession`, up to its first await. -/
def acquireSession (c : PiClient) (sessionId : JsString) (mode : SessionLeaseMode) : PiClient :=
  if c.disposed then c
  else
    match c.reserveSessionLease sessionId mode with
    | none => c
    | some (token, c) =>
      match c.sessionDetachments.get? sessionId with
      | some detachment => c.await (.acquireSession sessionId token (.detachment detachment))
      | none => c.acquireReconciled sessionId token

/-- The lease has another state. -/
def setLease (c : PiClient) (lease : Nat) (state : SessionLeaseState) : PiClient :=
  { c with leases := c.leases.modify lease fun l => { l with state := state } }

/-- `release` of a lease -/
def release (c : PiClient) (i : Nat) (lease : SessionLease) (relinquishOnFailure : Bool) :
    PiClient :=
  -- it has been released or invalidated, is being released, or `assertActive` throws
  if lease.state ≠ .active ∨ lease.generation ≠ c.generation lease.sessionId then c
  else if c.disposed = true ∨ c.connection ≠ .connected ∨
      lease.sessionId ∉ c.attachedSessionIds then c
  else if countOf c.sessionLeaseCounts lease.sessionId ≤ 1 then
    let detachment := c.requests.length
    let c := (c.setLease i .releasing).request .detach
    { c with sessionDetachments := c.sessionDetachments.set lease.sessionId detachment }
      |>.await (.release i relinquishOnFailure detachment)
  else (c.releaseSessionLease lease.sessionId lease.token).setLease i .released

/-- The detachment of a session is over. -/
def forgetDetachment (c : PiClient) (sessionId : JsString) (detachment : Nat) : PiClient :=
  if c.sessionDetachments.get? sessionId = some detachment then
    { c with sessionDetachments := c.sessionDetachments.delete sessionId }
  else c

/-- The `finally` of `await attachment`. -/
def forgetAttachment (c : PiClient) (sessionId : JsString) (attachment : Nat) : PiClient :=
  if c.sessionAttachments.get? sessionId = some attachment then
    { c with sessionAttachments := c.sessionAttachments.delete sessionId }
  else c

/-- `restoreSessionSnapshot` -/
def restoreSessionSnapshot (c : PiClient) (snapshot : SessionSnapshot) : PiClient :=
  if c.sessionSnapshots.has snapshot.id = true then c
  else { c with sessionSnapshots := c.sessionSnapshots.set snapshot.id snapshot }

/-- Whether the promise of a request is fulfilled, if it has been settled. -/
def settled (c : PiClient) (request : Nat) : Option Bool :=
  match c.requests[request]? with
  | some ⟨_, _, .resolved _⟩ => some true
  | some ⟨_, _, .rejected⟩ => some false
  | _ => none

/-- The connection of the request of an attachment. -/
def connectionOf (c : PiClient) (attachment : Attachment) : Nat :=
  ((c.requests[attachment.request]?).map Request.connection).getD 0

/-- A task goes on, if what it waits for has been settled. -/
def continueTask (c : PiClient) : Task → Option PiClient
  | .createSession request =>
    match c.requests[request]? with
    | some ⟨_, connection, .resolved (.session _ session)⟩ =>
      match c.reserveSessionLease session.id .exclusive with
      | some (token, c) => some (c.createSessionLease session.id token connection)
      | none => some c
    | some ⟨_, _, .pending⟩ | none => none
    | some _ => some c
  | .acquireSession sessionId token (.detachment request) => do
    let _ ← c.settled request
    return c.acquireReconciled sessionId token
  | .acquireSession sessionId token (.reconciliation reconciliation) => do
    let reconciliation ← c.reconciliations[reconciliation]?
    let ok ← reconciliation.ok
    return if ok then c.acquireAttached sessionId token true
      else c.releaseSessionLease sessionId token
  | .acquireSession sessionId token (.attachment k) => do
    let attachment ← c.attachments[k]?
    let ok ← attachment.ok
    let c := c.forgetAttachment sessionId k
    return if ok then c.createSessionLease sessionId token (c.connectionOf attachment)
      else c.releaseSessionLease sessionId token
  | .attachSession k => do
    let attachment ← c.attachments[k]?
    let ok ← c.settled attachment.request
    let c := { c with attachments := c.attachments.set k { attachment with ok := some ok } }
    match ok, attachment.previous with
    | false, some previous => return c.restoreSessionSnapshot previous
    | _, _ => return c
  | .reconcile k => do
    let reconciliation ← c.reconciliations[k]?
    let ok ← c.settled reconciliation.request
    let cleanup := if ok then c.sessionCleanupRequired.filter (· ≠ reconciliation.sessionId)
      else c.sessionCleanupRequired
    return { c with sessionCleanupRequired := cleanup }.await (.reconciled k ok)
  | .reconciled k ok => do
    let reconciliation ← c.reconciliations[k]?
    return { c with
      sessionReconciliations := c.sessionReconciliations.delete reconciliation.sessionId
      reconciliations := c.reconciliations.set k { reconciliation with ok := some ok } }
  | .release i relinquishOnFailure request => do
    let lease ← c.leases[i]?
    let ok ← c.settled request
    if ok then
      return (c.releaseSessionLease lease.sessionId lease.token).forgetDetachment lease.sessionId
        request |>.setLease i .released
    else
      return (c.forgetDetachment lease.sessionId request).await
        (.releaseFailed i relinquishOnFailure)
  | .releaseFailed i relinquishOnFailure => do
    let lease ← c.leases[i]?
    if lease.generation ≠ c.generation lease.sessionId then return c
    else if relinquishOnFailure then
      let c := c.releaseSessionLease lease.sessionId lease.token
      return { c with
        sessionCleanupRequired := c.sessionCleanupRequired ++
          [lease.sessionId] }.setLease i .released
    else return c.setLease i .active

/-- The state after an action, if it can happen. -/
def step (c : PiClient) : Action → Option PiClient
  | .createSession => some ((c.request .create).await (.createSession c.requests.length))
  | .acquireSession sessionId mode => some (c.acquireSession sessionId mode)
  | .release i relinquishOnFailure => do
    let lease ← c.leases[i]?
    return c.release i lease relinquishOnFailure
  | .request command => some (c.request command)
  | .connect => some c.connect
  | .disconnect => some c.disconnect
  | .dispose => some c.dispose
  | .message message => some (c.handleMessage message)
  | .resume task =>
    if task ∈ c.tasks then { c with tasks := c.tasks.erase task }.continueTask task else none

/-- `new PiClient(options)` -/
def start : PiClient where
  connection := .disconnected
  sequence := 0
  disposed := false
  requests := []
  attachedSessionIds := []
  sessionSnapshots := .empty
  sessionLeaseCounts := .empty
  exclusiveSessionLeases := .empty
  sessionLeaseGenerations := .empty
  sessionAttachments := .empty
  sessionDetachments := .empty
  sessionCleanupRequired := []
  sessionReconciliations := .empty
  attachments := []
  reconciliations := []
  tokens := 0
  leases := []
  tasks := []

/-- The states that a client gets to by steps that `safe` allows. -/
inductive Reachable (safe : PiClient → Action → Prop) : PiClient → Prop where
  | start : Reachable safe start
  | step {c c' : PiClient} {a : Action} (h : Reachable safe c) (hsafe : safe c a)
      (hs : c.step a = some c') : Reachable safe c'

end PiClient

end PiMono.Client.Leases
