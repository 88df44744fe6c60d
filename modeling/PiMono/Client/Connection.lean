import PiMono.Lib.JsMap

/-!
# A client and its connection

`packages/client/src/connection.ts`, with the request path of `client.ts:189-207` and
`:294-353`. Listeners and transports are code of others, and while they run they may call
the client again; so what is left of a call at such a place is a `Frame` on the stack of
calls under way, and any call of the client may come on top of it. Only the topmost frame
goes on. What other code starts later, in a turn of its own, comes with an empty stack.

Connections have the number that `#sequence` gives them, and a transport belongs to one of
them. A promise is a number. Session leases and snapshots are left out here; the frames
stand where their listeners are called.
-/

namespace PiMono.Client

/-- `Command["command"]` -/
inductive CommandName where
  | list
  | create
  | attach
  | detach
  | prompt
  | steer
  | abort
  | setModel
  | setThinking
  deriving DecidableEq

/-- `PendingRequest`, with its id, its promise and the connection it was made on. -/
structure PendingRequest where
  id : Nat
  promise : Nat
  command : CommandName
  connection : Nat
  deriving DecidableEq

/-- What is read of a `ServerMessage`; the response to a failed command has no result. -/
inductive ServerMessage where
  | hello
  | helloError
  | event
  | response (id : Nat) (result : Option CommandName)
  deriving DecidableEq

/-- `ConnectionLifecycle`: the number, and whether there is a transport, or a handshake
that has not been resolved. -/
inductive Lifecycle where
  | disconnected
  | connecting (id : Nat) (transport : Bool)
  | connected (id : Nat) (handshake : Bool)
  deriving DecidableEq

/-- How a promise is settled: by the response `id` to `command` that came on a connection,
or by an error. -/
inductive Outcome where
  | resolved (connection id : Nat) (command : CommandName)
  | rejected
  deriving DecidableEq

/-- What is left of a call when it calls the code of others. -/
inductive Frame where
  -- the loop of `#handleData`
  | messages (connection : Nat) (messages : List ServerMessage)
  -- behind `onHandshake`
  | handshake (connection : Nat)
  -- behind `onStateChange({ state: "connected" })`
  | announced (connection : Nat)
  -- behind `onStateChange({ state: "connecting" })`
  | opening (connection : Nat)
  -- behind `applyResult`
  | resolve (request : PendingRequest) (connection id : Nat) (command : CommandName)
  -- `transport.send` of `send`
  | sending
  deriving DecidableEq

/-- `PiClient` and its `Connection`. `requests` are all that were registered, `settled` all
calls of `resolve` and `reject`; `opening` are the connections whose transport is awaited. -/
structure PiClient where
  lifecycle : Lifecycle
  sequence : Nat
  disposed : Bool
  requestSequence : Nat
  nextPromise : Nat
  pendingRequests : JsMap Nat PendingRequest
  requests : List PendingRequest
  settled : List (Nat × Outcome)
  opening : List Nat
  stack : List Frame

inductive Action where
  -- `#request`, of a command that can be encoded or not
  | request (command : CommandName) (encodes : Bool)
  | connect
  | disconnect
  | dispose
  -- `onData`, with the messages of the chunk; a malformed one has none
  | data (connection : Nat) (messages : Option (List ServerMessage))
  | close (connection : Nat)
  -- `onError`, or the hello or a frame could not be sent
  | error (connection : Nat)
  -- the code of others returns, or throws
  | return
  | throw
  -- the transport has been opened, or could not be
  | opened (connection : Nat)
  | openFails (connection : Nat)
  deriving DecidableEq

namespace PiClient

/-- `this.#isCurrent(id)` -/
def isCurrent (c : PiClient) (id : Nat) : Bool :=
  match c.lifecycle with
  | .disconnected => false
  | .connecting current _ | .connected current _ => current = id

/-- `#rejectPendingRequests` -/
def rejectPendingRequests (c : PiClient) : PiClient :=
  { c with
    pendingRequests := .empty
    settled := c.settled ++ c.pendingRequests.entries.map fun entry =>
      (entry.2.promise, Outcome.rejected) }

/-- `#fail`, with the `#handleConnectionStateChange` that it calls. -/
def fail (c : PiClient) : PiClient :=
  if c.lifecycle = .disconnected then c
  else { c with lifecycle := .disconnected }.rejectPendingRequests

/-- A promise that is rejected at once. -/
def rejectCall (c : PiClient) : PiClient :=
  { c with nextPromise := c.nextPromise + 1, settled := c.settled ++ [(c.nextPromise, .rejected)] }

/-- `#request`, up to `transport.send` -/
def request (c : PiClient) (command : CommandName) (encodes : Bool) : PiClient :=
  match c.disposed, c.lifecycle with
  | false, .connected connection _ =>
    let request : PendingRequest := ⟨c.requestSequence + 1, c.nextPromise, command, connection⟩
    let c := { c with
      requestSequence := c.requestSequence + 1
      nextPromise := c.nextPromise + 1
      requests := c.requests ++ [request] }
    -- a request that cannot be encoded is taken from the map again
    if encodes then
      { c with
        pendingRequests := c.pendingRequests.set request.id request
        stack := .sending :: c.stack }
    else { c with settled := c.settled ++ [(request.promise, .rejected)] }
  | _, _ => c.rejectCall

/-- `connect`, up to its listeners. -/
def connect (c : PiClient) : PiClient :=
  if c.disposed = false ∧ c.lifecycle = .disconnected then
    { c with
      sequence := c.sequence + 1
      lifecycle := .connecting (c.sequence + 1) false
      stack := .opening (c.sequence + 1) :: c.stack }
  else c

/-- `dispose` -/
def dispose (c : PiClient) : PiClient :=
  if c.disposed then c else { c with disposed := true }.rejectPendingRequests.fail

/-- `#handleMessage` of the client; `connection` is the one the message came on. -/
def handleResponse (c : PiClient) (connection id : Nat) (result : Option CommandName) : PiClient :=
  match c.pendingRequests.get? id with
  | none => c.fail
  | some pending =>
    let c := { c with pendingRequests := c.pendingRequests.delete id }
    match result with
    | none => { c with settled := c.settled ++ [(pending.promise, .rejected)] }
    | some command =>
      if command ≠ pending.command then
        { c with settled := c.settled ++ [(pending.promise, Outcome.rejected)] }.fail
      else { c with stack := .resolve pending connection id command :: c.stack }

/-- `#handleMessage` of the connection. -/
def handleMessage (c : PiClient) (connection : Nat) (message : ServerMessage) : PiClient :=
  match c.lifecycle, message with
  | .connecting id true, .hello =>
    { c with lifecycle := .connected id true, stack := .handshake id :: c.stack }
  | .connected _ _, .event => c
  | .connected _ _, .response id result => c.handleResponse connection id result
  | .disconnected, _ => c
  | _, _ => c.fail

/-- `#handleData`, up to its loop. -/
def handleData (c : PiClient) (connection : Nat) (messages : Option (List ServerMessage)) :
    PiClient :=
  if c.isCurrent connection then
    match c.lifecycle, messages with
    | .connecting _ false, _ | _, none => c.fail
    | _, some messages => { c with stack := .messages connection messages :: c.stack }
  else c

/-- What is left of a call goes on. -/
def continueFrame (c : PiClient) : Frame → PiClient
  | .messages _ [] => c
  | .messages connection (message :: rest) =>
    if c.lifecycle = .disconnected then c
    else { c with stack := .messages connection rest :: c.stack }.handleMessage connection message
  | .handshake connection =>
    if c.lifecycle = .connected connection true then
      { c with stack := .announced connection :: c.stack }
    else c
  | .announced connection =>
    if c.lifecycle = .connected connection true then
      { c with lifecycle := .connected connection false }
    else c
  | .opening connection => { c with opening := c.opening ++ [connection] }
  | .resolve request connection id command =>
    { c with settled := c.settled ++ [(request.promise, .resolved connection id command)] }
  | .sending => c

/-- The state after an action, if it can happen. -/
def step (c : PiClient) : Action → Option PiClient
  | .request command encodes => some (c.request command encodes)
  | .connect => some c.connect
  | .disconnect => some c.fail
  | .dispose => some c.dispose
  | .data connection messages => some (c.handleData connection messages)
  | .close connection | .error connection => some (if c.isCurrent connection then c.fail else c)
  | .return =>
    match c.stack with
    | [] => none
    | frame :: stack => some ({ c with stack := stack }.continueFrame frame)
  | .throw =>
    -- listeners that throw are caught where they are called
    match c.stack with
    | .sending :: stack => some { c with stack := stack }.fail
    | _ => none
  | .opened connection =>
    if c.stack = [] ∧ connection ∈ c.opening then
      let c := { c with opening := c.opening.erase connection }
      if c.lifecycle = .connecting connection false then
        some { c with lifecycle := .connecting connection true }
      else some c
    else none
  | .openFails connection =>
    if c.stack = [] ∧ connection ∈ c.opening then
      let c := { c with opening := c.opening.erase connection }
      some (if c.isCurrent connection then c.fail else c)
    else none

/-- `new PiClient(options)` -/
def start : PiClient where
  lifecycle := .disconnected
  sequence := 0
  disposed := false
  requestSequence := 0
  nextPromise := 0
  pendingRequests := .empty
  requests := []
  settled := []
  opening := []
  stack := []

/-- The states that a client gets to. -/
inductive Reachable : PiClient → Prop where
  | start : Reachable start
  | step {c c' : PiClient} {a : Action} (h : Reachable c) (hs : c.step a = some c') : Reachable c'

end PiClient

end PiMono.Client
