import PiMono.Harness.SessionTypes
import PiMono.Lib.LeaseLog
import PiMono.Sqlite.WriterLeases

/-!
# Sessions and their writers

`packages/session-backends/sqlite-node/src/sqlite/repo.ts:91-160`, `:333-415` and
`:647-909`, as far as they read and write leases: the storages that repository
instances make, what a storage knows of its lease, and the transactions on one
database. Each step of a `World` is one transaction, or one change to a storage
that happens between two awaits; any instance may take any step at any time, with
any clock reading. `σ` is what the tables hold of a session, and what a write does
to it is a parameter of the write, as in `enqueueWrite`.
-/

namespace PiMono.Sqlite

/-! ## Options -/

/-- `ResolvedWriterLeaseOptions`: what `resolveWriterLeaseOptions` lets through. -/
structure ResolvedWriterLeaseOptions where
  ttlMs : Int
  heartbeatIntervalMs : Int
  heartbeat_pos : 0 < heartbeatIntervalMs
  heartbeat_lt : heartbeatIntervalMs < ttlMs

/-! ## Errors -/

/-- `activeWriterError` -/
def activeWriterError (sessionId : JsString) : Harness.SessionError :=
  ⟨.storage, js "SQLite session " ++ sessionId ++ js " already has an active writer"⟩

/-- `lostWriterError` -/
def lostWriterError (sessionId : JsString) : Harness.SessionError :=
  ⟨.storage, js "SQLite session " ++ sessionId ++ js " writer lease was lost"⟩

/-- What `enqueueWrite` rejects with once the storage is closing. -/
def closedError (sessionId : JsString) : Harness.SessionError :=
  ⟨.storage, js "SQLite session " ++ sessionId ++ js " is closed"⟩

/-- `requireSessionRow` of a session that is not there. -/
def sessionNotFound (sessionId : JsString) : Harness.SessionError :=
  ⟨.notFound, js "Session not found: " ++ sessionId⟩

/-- `create` and `fork` under an id that is taken. -/
def sessionExists (sessionId : JsString) : Harness.SessionError :=
  ⟨.alreadyExists, js "Session already exists: " ++ sessionId⟩

/-! ## Storages -/

/-- `SqliteSessionStorage`: what one instance keeps of a session it has open. -/
structure SqliteSessionStorage where
  /-- The repository instance that made it. -/
  repository : Nat
  sessionId : JsString
  lease : WriterLease
  /-- Whether `leaseError` is set, to `lostWriterError`. -/
  leaseError : Bool
  closing : Bool
  /-- Whether `activeStorages` of its repository holds it. -/
  active : Bool
  deriving DecidableEq

/-- One database, and the storages that all instances ever made, in that order. -/
structure World (σ : Type) where
  sessions : JsMap JsString σ
  leases : WriterLeases
  storages : List SqliteSessionStorage
  /-- Which owner acquired and wrote what, in the order of the transactions. -/
  log : List (LeaseEvent JsString JsString)

namespace World

variable {σ : Type}

def empty : World σ := ⟨JsMap.empty, JsMap.empty, [], []⟩

/-- `[...this.activeStorages].find((storage) => storage.isForSession(sessionId))` -/
def activeStorage? (w : World σ) (repository : Nat) (sessionId : JsString) : Option Nat :=
  w.storages.findIdx? fun s =>
    s.active ∧ s.repository = repository ∧ s.sessionId = sessionId

/-- `claimWriterLease`, with the owner id it draws. -/
def claimWriterLease (options : ResolvedWriterLeaseOptions) (w : World σ)
    (sessionId ownerId : JsString) (now : Int) :
    Except Harness.SessionError (WriterLease × World σ) :=
  match acquireWriterLease w.leases sessionId ownerId now (now + options.ttlMs) with
  | some (lease, leases) =>
    .ok (lease, { w with leases := leases, log := w.log ++ [.acquired sessionId ownerId] })
  | none => .error (activeWriterError sessionId)

/-- A storage for a lease, behind those there are; the number is its place. -/
def addStorage (w : World σ) (repository : Nat) (sessionId : JsString) (lease : WriterLease) :
    Nat × World σ :=
  (w.storages.length, { w with
    storages := w.storages ++ [⟨repository, sessionId, lease, false, false, true⟩] })

/-- The transaction of `create` and of `fork`: a session with the tables `make` reads
off the others, and its lease. -/
def create (options : ResolvedWriterLeaseOptions) (w : World σ) (repository : Nat)
    (sessionId ownerId : JsString) (now : Int)
    (make : JsMap JsString σ → Except Harness.SessionError σ) :
    Except Harness.SessionError (Nat × World σ) := do
  if w.sessions.has sessionId then throw (sessionExists sessionId)
  let tables ← make w.sessions
  let (lease, w) ← claimWriterLease options w sessionId ownerId now
  let written : World σ := { w with
    sessions := w.sessions.set sessionId tables
    log := w.log ++ [.committed sessionId ownerId] }
  return written.addStorage repository sessionId lease

/-- `claimStorage`; `readLanes` throws where a lane points at a missing entry. -/
def claimStorage (options : ResolvedWriterLeaseOptions)
    (readLanes : σ → Except Harness.SessionError Unit)
    (w : World σ) (repository : Nat) (sessionId ownerId : JsString) (now : Int) :
    Except Harness.SessionError (Nat × World σ) :=
  match w.sessions.get? sessionId with
  | none => .error (sessionNotFound sessionId)
  | some tables => do
    let (lease, w) ← claimWriterLease options w sessionId ownerId now
    readLanes tables
    return w.addStorage repository sessionId lease

/-- `claimSession`, which `open` calls: the storage that is active, or a new one. A
session without tables has no lanes to read. -/
def claimSession (options : ResolvedWriterLeaseOptions)
    (readLanes : σ → Except Harness.SessionError Unit)
    (w : World σ) (repository : Nat) (sessionId ownerId : JsString) (now : Int) :
    Except Harness.SessionError (Nat × World σ) :=
  match w.activeStorage? repository sessionId with
  | some i =>
    match w.sessions.get? sessionId with
    | some tables => (readLanes tables).map fun _ => (i, w)
    | none => .ok (i, w)
  | none => claimStorage options readLanes w repository sessionId ownerId now

/-- Change one storage. -/
def updateStorage (w : World σ) (i : Nat) (f : SqliteSessionStorage → SqliteSessionStorage) :
    World σ :=
  { w with storages := w.storages.modify i f }

/-- What a storage of no place rejects with; there is none in a run. -/
def noStorage : Harness.SessionError := ⟨.storage, []⟩

/-- `enqueueWrite`, from its place in the queue on: the lease is renewed in the
transaction of the operation, and an operation that throws takes the renewal back. -/
def enqueueWrite (options : ResolvedWriterLeaseOptions) (w : World σ) (i : Nat) (now : Int)
    (operation : σ → Except Harness.SessionError σ) : Except Harness.SessionError Unit × World σ :=
  match w.storages[i]? with
  | none => (.error noStorage, w)
  | some s =>
    if s.closing then (.error (closedError s.sessionId), w)
    else if s.leaseError then (.error (lostWriterError s.sessionId), w)
    else
      match renewWriterLease w.leases s.sessionId s.lease now (now + options.ttlMs) with
      | none =>
        (.error (lostWriterError s.sessionId),
          w.updateStorage i fun s => { s with leaseError := true })
      | some leases =>
        match w.sessions.get? s.sessionId with
        | none => (.error (sessionNotFound s.sessionId), w)
        | some tables =>
          match operation tables with
          | .error e => (.error e, w)
          | .ok tables =>
            (.ok (), { w with
              sessions := w.sessions.set s.sessionId tables
              leases := leases
              log := w.log ++ [.committed s.sessionId s.lease.ownerId] })

/-- A heartbeat of `scheduleHeartbeat`. -/
def heartbeat (options : ResolvedWriterLeaseOptions) (w : World σ) (i : Nat) (now : Int) :
    World σ :=
  match w.storages[i]? with
  | none => w
  | some s =>
    if s.closing ∨ s.leaseError then w
    else
      match renewWriterLease w.leases s.sessionId s.lease now (now + options.ttlMs) with
      | none => w.updateStorage i fun s => { s with leaseError := true }
      | some leases => { w with leases := leases }

/-- `finishRelease`, up to its place in the queue. -/
def beginRelease (w : World σ) (i : Nat) : World σ :=
  w.updateStorage i fun s => { s with closing := true }

/-- `finishRelease`, from its place in the queue on; the transaction may fail. -/
def finishRelease (w : World σ) (i : Nat) (fails : Bool) : World σ :=
  match w.storages[i]? with
  | none => w
  | some s =>
    let leases := if fails then w.leases else releaseWriterLease w.leases s.sessionId s.lease
    updateStorage { w with leases := leases } i fun s => { s with active := false }

/-- The transaction of `delete`. -/
def deleteSession (options : ResolvedWriterLeaseOptions) (w : World σ)
    (sessionId ownerId : JsString) (now : Int) : Except Harness.SessionError (World σ) :=
  if w.sessions.has sessionId then do
    let (_, w) ← claimWriterLease options w sessionId ownerId now
    return { w with
      sessions := w.sessions.delete sessionId
      leases := deleteWriterLease w.leases sessionId
      log := w.log ++ [.committed sessionId ownerId] }
  else return { w with leases := deleteWriterLease w.leases sessionId }

/-- The transaction of `repairBranchCache`. -/
def repairBranchCache (options : ResolvedWriterLeaseOptions)
    (rebuild : σ → Except Harness.SessionError σ)
    (w : World σ) (sessionId ownerId : JsString) (now : Int) :
    Except Harness.SessionError (World σ) := do
  let (lease, w) ← claimWriterLease options w sessionId ownerId now
  match w.sessions.get? sessionId with
  | none => throw (sessionNotFound sessionId)
  | some tables =>
    let tables ← rebuild tables
    return { w with
      sessions := w.sessions.set sessionId tables
      leases := releaseWriterLease w.leases sessionId lease
      log := w.log ++ [.committed sessionId ownerId] }

/-! ## Runs -/

/-- What is the same for all steps: the options of each instance, and how the tables
of a session are read and rebuilt. -/
structure Setting (σ : Type) where
  options : Nat → ResolvedWriterLeaseOptions
  readLanes : σ → Except Harness.SessionError Unit
  rebuildBranchCache : σ → Except Harness.SessionError σ

/-- A step of some instance, with the owner id it draws and its clock reading. -/
inductive Action (σ : Type) where
  | create (repository : Nat) (sessionId ownerId : JsString) (now : Int)
    (make : JsMap JsString σ → Except Harness.SessionError σ)
  | claim (repository : Nat) (sessionId ownerId : JsString) (now : Int)
  | write (i : Nat) (now : Int) (operation : σ → Except Harness.SessionError σ)
  | heartbeat (i : Nat) (now : Int)
  | beginRelease (i : Nat)
  | finishRelease (i : Nat) (fails : Bool)
  | delete (repository : Nat) (sessionId ownerId : JsString) (now : Int)
  | repair (repository : Nat) (sessionId ownerId : JsString) (now : Int)

/-- The options of the instance that made a storage. -/
def optionsOf (setting : Setting σ) (w : World σ) (i : Nat) : ResolvedWriterLeaseOptions :=
  setting.options ((w.storages[i]?.map (·.repository)).getD 0)

/-- What a step leaves; one that throws leaves what was there, but for a lease error
that a write notes. -/
def step (setting : Setting σ) (w : World σ) : Action σ → World σ
  | .create repository sessionId ownerId now make =>
    ((create (setting.options repository) w repository sessionId ownerId now make).map
      Prod.snd).toOption.getD w
  | .claim repository sessionId ownerId now =>
    ((claimSession (setting.options repository) setting.readLanes w repository sessionId ownerId
      now).map Prod.snd).toOption.getD w
  | .write i now operation => (enqueueWrite (w.optionsOf setting i) w i now operation).2
  | .heartbeat i now => heartbeat (w.optionsOf setting i) w i now
  | .beginRelease i => w.beginRelease i
  | .finishRelease i fails => w.finishRelease i fails
  | .delete repository sessionId ownerId now =>
    (deleteSession (setting.options repository) w sessionId ownerId now).toOption.getD w
  | .repair repository sessionId ownerId now =>
    (repairBranchCache (setting.options repository) setting.rebuildBranchCache w sessionId ownerId
      now).toOption.getD w

/-- The worlds that runs reach, from a database without sessions. -/
def Reachable (setting : Setting σ) (w : World σ) : Prop :=
  ∃ actions : List (Action σ), actions.foldl (step setting) empty = w

end World

end PiMono.Sqlite
