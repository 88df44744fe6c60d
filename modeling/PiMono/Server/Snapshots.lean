import PiMono.Lib.CodeUnits
import PiMono.Lib.JsMap

/-!
# Snapshots of a server

`packages/server/src/snapshots.ts`, with `finishHandshake` of `server.ts:221-260` and
`listMetadata` of `sessions.ts:133-150`: a broadcast and a handshake both list the sessions
over several awaits, and what they have sent is remembered with each connection. A step of
a `PiServer` is what happens between two awaits; any step may come at any time. Connections
are objects, so each has a number of its own. A server that is closing is left out, and so
are the models of a snapshot: only the await for them counts here. A handshake that fails ends
in `failProtocol`, which closes the transport: nothing more is sent, as if it were disconnected.
-/

namespace PiMono.Server

/-- `SessionMetadata` -/
structure SessionMetadata where
  id : JsString
  createdAt : Nat
  updatedAt : Option Nat
  parentSessionId : Option JsString
  sessionName : Option JsString
  cwd : Option JsString
  deriving DecidableEq

/-- What `toMetadata` reads of a `SessionSnapshot`. -/
structure SessionSnapshot where
  id : JsString
  name : Option JsString
  cwd : JsString
  createdAt : Nat
  updatedAt : Nat
  deriving DecidableEq

/-- `toMetadata` -/
def toMetadata (snapshot : SessionSnapshot) : SessionMetadata where
  id := snapshot.id
  createdAt := snapshot.createdAt
  updatedAt := some snapshot.updatedAt
  parentSessionId := none
  sessionName := snapshot.name
  cwd := some snapshot.cwd

/-- What `listMetadata` maps the stored sessions to, and what is left of `liveById`. -/
def mergeStored : List SessionMetadata → List (JsString × SessionSnapshot) →
    List SessionMetadata × List (JsString × SessionSnapshot)
  | [], liveById => ([], liveById)
  | item :: stored, liveById =>
    match fieldValue? liveById item.id with
    | none =>
      let (metadata, rest) := mergeStored stored liveById
      (item :: metadata, rest)
    | some snapshot =>
      let (metadata, rest) := mergeStored stored (removeField liveById item.id)
      ({ toMetadata snapshot with parentSessionId := item.parentSessionId } :: metadata, rest)

/-- The list that `listMetadata` makes of the stored sessions and the live ones. -/
def mergeMetadata (stored : List SessionMetadata) (live : List (JsString × SessionSnapshot)) :
    List SessionMetadata :=
  let (metadata, rest) := mergeStored stored live
  metadata ++ rest.map fun entry => toMetadata entry.2

/-- The parts of a `ServerSnapshot` that change. -/
structure ServerSnapshot where
  revision : Nat
  sessions : List SessionMetadata
  deriving DecidableEq

/-- How far a call of `listMetadata` is: it awaits the stored sessions, which the service has
read or not, or the snapshots of the sessions that were live then, or it has returned. -/
inductive Listing where
  | stored
  | read (stored : List SessionMetadata)
  | live (stored : List SessionMetadata) (slots : List (JsString × Option SessionSnapshot))
  | listed (sessions : List SessionMetadata)
  deriving DecidableEq

/-- A call of `ServerSnapshotPublisher.get`: the revision it took, and its list. -/
structure Get where
  revision : Nat
  listing : Listing
  deriving DecidableEq

/-- How far a connection is: `finishHandshake` builds a snapshot (`handshaking`), awaits
the sending of the hello (`greeting`), and may build another one when the connection is
ready (`catchUp`). -/
inductive Stage where
  | awaitingHello
  | handshaking (get : Get)
  | greeting (revision : Nat)
  | ready (catchUp : Option Get)
  deriving DecidableEq

/-- `ConnectionState`, with the snapshots sent to it. -/
structure ConnectionState where
  id : Nat
  stage : Stage
  sent : List ServerSnapshot
  deriving DecidableEq

/-- `performBroadcast` awaits the models, or lists the sessions; then it sends. -/
inductive Phase where
  | models
  | listing (listing : Listing)
  deriving DecidableEq

/-- A `performBroadcast` under way, with the connections it has still to send to. -/
structure Broadcast where
  revision : Nat
  phase : Phase
  readyConnections : List Nat
  deriving DecidableEq

/-- The server. `live` are the live sessions that are not disposing, by their id;
`queued` is the number of broadcasts in `broadcastQueue` that have not begun; `unannounced`
says that sessions have changed since the last call of `broadcast`. -/
structure PiServer where
  stored : List SessionMetadata
  live : JsMap JsString SessionSnapshot
  revision : Nat
  connections : List ConnectionState
  queued : Nat
  broadcast : Option Broadcast
  unannounced : Bool
  nextId : Nat
  deriving DecidableEq

/-- Whose list is continued. -/
inductive Reader where
  | broadcast
  | connection (id : Nat)
  deriving DecidableEq

/-- What happens between two awaits. -/
inductive Action where
  -- sessions change
  | change (stored : List SessionMetadata) (live : JsMap JsString SessionSnapshot)
  | broadcast
  | accept
  | hello (id : Nat)
  | list (reader : Reader)
  -- a snapshot of a session; a runtime that is not live any more has some answer
  | snapshot (reader : Reader) (sessionId : JsString) (answer : SessionSnapshot)
  | models (reader : Reader)
  -- the hello has been sent
  | greeted (id : Nat)
  -- the next broadcast of the queue begins
  | perform
  -- the service throws at the models or the list of the broadcast
  | fail
  -- the broadcast sends to its next connection, or ends
  | send
  -- `disconnect`; its broadcast comes later, if the handshake was complete
  | disconnect (id : Nat)
  deriving DecidableEq

/-- `connection.stage === "ready"` -/
def Stage.isReady : Stage → Bool
  | .ready _ => true
  | _ => false

/-- A second snapshot is on its way to the connection. -/
def Stage.catchesUp : Stage → Bool
  | .ready (some _) => true
  | _ => false

namespace PiServer

/-- The list of sessions as it is now. -/
def sessions (s : PiServer) : List SessionMetadata := mergeMetadata s.stored s.live.entries

/-- The next part of `listMetadata`: the live sessions are those that are live when the
stored ones have come, and their snapshots are awaited together. What the service answers may
be older than its answer. -/
def list (s : PiServer) : Listing → Option Listing
  | .stored => some (.read s.stored)
  | .read stored => some (.live stored (s.live.entries.map fun entry => (entry.1, none)))
  | .live stored slots =>
    if slots.all (·.2.isSome) then
      some (.listed (mergeMetadata stored (slots.filterMap fun slot => slot.2.map (slot.1, ·))))
    else none
  | .listed _ => none

/-- `normalizedSnapshot` of one session returns. -/
def answer (s : PiServer) (sessionId : JsString) (answer : SessionSnapshot) :
    Listing → Option Listing
  | .live stored slots =>
    some (.live stored (slots.map fun slot =>
      if slot.1 = sessionId ∧ slot.2 = none then
        (sessionId, some ((s.live.get? sessionId).getD answer))
      else slot))
  | _ => none

/-- The stage of a connection that is not disconnected. -/
def stage? (s : PiServer) (id : Nat) : Option Stage :=
  (s.connections.find? (·.id = id)).map ConnectionState.stage

/-- Change one connection. -/
def update (s : PiServer) (id : Nat) (stage : Stage) (sent : List ServerSnapshot) : PiServer :=
  { s with connections := s.connections.map fun c =>
      if c.id = id then { c with stage := stage, sent := c.sent ++ sent } else c }

/-- Continue a list. -/
def continueList (s : PiServer) (next : Listing → Option Listing) : Reader → Option PiServer
  | .broadcast =>
    match s.broadcast with
    | some ⟨revision, .listing listing, readyConnections⟩ =>
      (next listing).map fun listing =>
        { s with broadcast := some ⟨revision, .listing listing, readyConnections⟩ }
    | _ => none
  | .connection id =>
    match s.stage? id with
    | some (.handshaking get) =>
      (next get.listing).map fun listing => s.update id (.handshaking ⟨get.revision, listing⟩) []
    | some (.ready (some get)) =>
      (next get.listing).map fun listing =>
        s.update id (.ready (some ⟨get.revision, listing⟩)) []
    | _ => none

/-- `performBroadcast`, up to its first await. -/
def performBroadcast (s : PiServer) : PiServer :=
  let readyConnections := s.connections.filter (·.stage.isReady)
  if readyConnections = [] then s
  else
    { s with
      revision := s.revision + 1
      broadcast := some ⟨s.revision + 1, .models, readyConnections.map (·.id)⟩ }

/-- The state after an action, if it can happen. -/
def step (s : PiServer) : Action → Option PiServer
  | .change stored live => some { s with stored := stored, live := live, unannounced := true }
  | .broadcast => some { s with queued := s.queued + 1, unannounced := false }
  | .accept =>
    some { s with
      connections := s.connections ++ [⟨s.nextId, .awaitingHello, []⟩]
      nextId := s.nextId + 1 }
  | .hello id =>
    match s.stage? id with
    | some .awaitingHello => some (s.update id (.handshaking ⟨s.revision, .stored⟩) [])
    | _ => none
  | .list reader => s.continueList s.list reader
  | .snapshot reader sessionId answer => s.continueList (s.answer sessionId answer) reader
  | .models .broadcast =>
    match s.broadcast with
    | some ⟨revision, .models, readyConnections⟩ =>
      some { s with broadcast := some ⟨revision, .listing .stored, readyConnections⟩ }
    | _ => none
  | .models (.connection id) =>
    match s.stage? id with
    | some (.handshaking ⟨revision, .listed sessions⟩) =>
      some (s.update id (.greeting revision) [⟨revision, sessions⟩])
    | some (.ready (some ⟨revision, .listed sessions⟩)) =>
      some (s.update id (.ready none) [⟨revision, sessions⟩])
    | _ => none
  | .greeted id =>
    match s.stage? id with
    | some (.greeting revision) =>
      let catchUp := if revision ≠ s.revision then some ⟨s.revision, .stored⟩ else none
      some (s.update id (.ready catchUp) [])
    | _ => none
  | .perform =>
    if 0 < s.queued ∧ s.broadcast = none then
      some { s with queued := s.queued - 1 }.performBroadcast
    else none
  | .fail =>
    match s.broadcast with
    | some ⟨_, .listing (.listed _), _⟩ | none => none
    | some _ => some { s with broadcast := none }
  | .send =>
    match s.broadcast with
    | some ⟨revision, .listing (.listed sessions), id :: readyConnections⟩ =>
      some { s with
        broadcast := some ⟨revision, .listing (.listed sessions), readyConnections⟩
        connections := s.connections.map fun c =>
          if c.id = id then { c with sent := c.sent ++ [⟨revision, sessions⟩] } else c }
    | some ⟨_, .listing (.listed _), []⟩ => some { s with broadcast := none }
    | _ => none
  | .disconnect id => some { s with connections := s.connections.filter (·.id ≠ id) }

/-- A server that has just been made. -/
def start (stored : List SessionMetadata) (live : JsMap JsString SessionSnapshot) : PiServer where
  stored := stored
  live := live
  revision := 0
  connections := []
  queued := 0
  broadcast := none
  unannounced := false
  nextId := 0

/-- The states that a server gets to, where each step is one that `safe` allows. -/
inductive Reachable (safe : PiServer → Action → Prop) : PiServer → Prop where
  | start (stored : List SessionMetadata) (live : JsMap JsString SessionSnapshot) :
      Reachable safe (start stored live)
  | step {s s' : PiServer} {a : Action} (h : Reachable safe s) (hsafe : safe s a)
      (hs : s.step a = some s') : Reachable safe s'

end PiServer

end PiMono.Server
