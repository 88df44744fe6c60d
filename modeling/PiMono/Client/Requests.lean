import PiMono.Client.Connection
import PiMono.Lib.Runs

/-!
# Requests settle once

A promise of `#request` is in one of three places: it has been settled, its request is
pending, or a response has been found for it and the listeners of `applyResult` are still
running. `Inv.promises` says that these are all the promises, each once; the steps move a
promise from one place to the next.

A response is handled for the connection that is connected at that moment, not for the one
it came on. They are the same (`Inv.frames`): when a listener has reconnected, the new
connection has no transport before all calls under way have returned.
-/

namespace PiMono.Client

/-- The promise that a call under way is about to resolve. -/
def Frame.promise? : Frame → Option Nat
  | .resolve request _ _ _ => some request.promise
  | _ => none

/-- The connection that has a transport. -/
def Lifecycle.transport? : Lifecycle → Option Nat
  | .connecting id true | .connected id _ => some id
  | _ => none

namespace PiClient

variable {c c' : PiClient} {hand : List Nat}

/-- The promises that are pending. -/
def pendingPromises (c : PiClient) : List Nat := c.pendingRequests.entries.map (·.2.promise)

/-- The promises that a call under way is about to resolve. -/
def resolving (c : PiClient) : List Nat := c.stack.filterMap Frame.promise?

/-- What holds when the promises of `hand` have been taken from one place and not yet put in
the next. -/
structure Inv (hand : List Nat) (c : PiClient) : Prop where
  -- messages are handled for the connection they came on
  frames : ∀ k messages id, .messages k messages ∈ c.stack →
    c.lifecycle.transport? = some id → k = id
  pending : ∀ id r, (id, r) ∈ c.pendingRequests.entries →
    r.id = id ∧ r ∈ c.requests ∧ ∃ handshake, c.lifecycle = .connected r.connection handshake
  resolve : ∀ r k id command, .resolve r k id command ∈ c.stack →
    r ∈ c.requests ∧ r.connection = k ∧ r.id = id ∧ r.command = command
  resolved : ∀ p k id command, (p, .resolved k id command) ∈ c.settled →
    ∃ r ∈ c.requests, r.promise = p ∧ r.connection = k ∧ r.id = id ∧ r.command = command
  disposed : c.disposed = true → c.lifecycle = .disconnected
  made : ∀ r ∈ c.requests, r.id ≤ c.requestSequence ∧ r.promise < c.nextPromise
  distinct : c.requests.Pairwise fun earlier later =>
    earlier.id < later.id ∧ earlier.promise < later.promise
  promises : (hand ++ c.settled.map Prod.fst ++ c.pendingPromises ++ c.resolving).Perm
    (List.range c.nextPromise)

theorem inv_start : Inv [] start where
  frames := fun _ _ _ h => absurd h List.not_mem_nil
  pending := fun _ _ h => absurd h List.not_mem_nil
  resolve := fun _ _ _ _ h => absurd h List.not_mem_nil
  resolved := fun _ _ _ _ h => absurd h List.not_mem_nil
  disposed := fun h => by cases h
  made := fun _ h => absurd h List.not_mem_nil
  distinct := List.Pairwise.nil
  promises := List.Perm.refl _

/-- Without a connection nothing is pending. -/
theorem Inv.pending_eq_nil (h : Inv hand c)
    (hlifecycle : ∀ id handshake, c.lifecycle ≠ .connected id handshake) :
    c.pendingRequests.entries = [] := by
  refine List.eq_nil_iff_forall_not_mem.mpr ?_
  rintro ⟨id, r⟩ hmem
  obtain ⟨-, -, handshake, hconnected⟩ := h.pending id r hmem
  exact hlifecycle r.connection handshake hconnected

/-! ## Teardown -/

/-- All pending requests are rejected; then the connection may go. -/
theorem Inv.rejectPendingRequests (h : Inv hand c) : Inv hand c.rejectPendingRequests where
  frames := h.frames
  pending := fun _ _ hmem => absurd hmem List.not_mem_nil
  resolve := h.resolve
  resolved := by
    intro p k id command hmem
    rcases List.mem_append.mp hmem with hmem | hmem
    · exact h.resolved p k id command hmem
    · obtain ⟨entry, -, heq⟩ := List.mem_map.mp hmem
      cases heq
  disposed := h.disposed
  made := h.made
  distinct := h.distinct
  promises := by
    have hall : hand ++ c.rejectPendingRequests.settled.map Prod.fst
        = hand ++ c.settled.map Prod.fst ++ c.pendingPromises := by
      rw [PiClient.rejectPendingRequests, List.map_append, List.map_map, List.append_assoc]
      rfl
    rw [hall]
    show (_ ++ [] ++ c.resolving).Perm _
    rw [List.append_nil]
    exact h.promises

theorem Inv.setDisconnected (h : Inv hand c) (hnone : c.pendingRequests.entries = []) :
    Inv hand { c with lifecycle := .disconnected } where
  frames := fun _ _ _ _ htransport => by cases htransport
  pending := by
    intro id r hmem
    rw [hnone] at hmem
    cases hmem
  resolve := h.resolve
  resolved := h.resolved
  disposed := fun _ => rfl
  made := h.made
  distinct := h.distinct
  promises := h.promises

theorem Inv.fail (h : Inv hand c) : Inv hand c.fail := by
  unfold PiClient.fail
  split
  · exact h
  · exact h.rejectPendingRequests.setDisconnected rfl

theorem fail_lifecycle (c : PiClient) : c.fail.lifecycle = .disconnected := by
  unfold PiClient.fail
  split
  · assumption
  · rfl

theorem Inv.setDisposed (h : Inv hand c) (hlifecycle : c.lifecycle = .disconnected) :
    Inv hand { c with disposed := true } where
  frames := h.frames
  pending := h.pending
  resolve := h.resolve
  resolved := h.resolved
  disposed := fun _ => hlifecycle
  made := h.made
  distinct := h.distinct
  promises := h.promises

theorem Inv.dispose (h : Inv hand c) : Inv hand c.dispose := by
  unfold PiClient.dispose
  split
  · exact h
  · have hfailed : Inv hand c.rejectPendingRequests.fail := h.rejectPendingRequests.fail
    have hdisposed := hfailed.setDisposed (fail_lifecycle c.rejectPendingRequests)
    -- whether the client is disposed makes no difference to the teardown
    have heq : { c.rejectPendingRequests.fail with disposed := true }
        = { c with disposed := true }.rejectPendingRequests.fail := by
      unfold PiClient.fail PiClient.rejectPendingRequests
      by_cases hnone : c.lifecycle = .disconnected
      · simp only [if_pos hnone]
      · simp only [if_neg hnone]
    exact heq ▸ hdisposed

/-! ## Calls under way -/

theorem Inv.push (h : Inv hand c) (frame : Frame) (hpromise : frame.promise? = none)
    (hframe : ∀ k messages id, frame = .messages k messages →
      c.lifecycle.transport? = some id → k = id) :
    Inv hand { c with stack := frame :: c.stack } where
  frames := by
    intro k messages id hmem htransport
    rcases List.mem_cons.mp hmem with heq | hmem
    · exact hframe k messages id heq.symm htransport
    · exact h.frames k messages id hmem htransport
  pending := h.pending
  resolve := by
    intro r k id command hmem
    rcases List.mem_cons.mp hmem with heq | hmem
    · rw [← heq] at hpromise
      cases hpromise
    · exact h.resolve r k id command hmem
  resolved := h.resolved
  disposed := h.disposed
  made := h.made
  distinct := h.distinct
  promises := by
    have hsame : resolving { c with stack := frame :: c.stack } = c.resolving :=
      List.filterMap_cons_none hpromise
    rw [hsame]
    exact h.promises

theorem Inv.pop (h : Inv hand c) {frame : Frame} {stack : List Frame}
    (hstack : c.stack = frame :: stack) (hpromise : frame.promise? = none) :
    Inv hand { c with stack := stack } where
  frames := fun k messages id hmem =>
    h.frames k messages id (hstack ▸ List.mem_cons_of_mem _ hmem)
  pending := h.pending
  resolve := fun r k id command hmem =>
    h.resolve r k id command (hstack ▸ List.mem_cons_of_mem _ hmem)
  resolved := h.resolved
  disposed := h.disposed
  made := h.made
  distinct := h.distinct
  promises := by
    have hsame : resolving { c with stack := stack } = c.resolving := by
      show stack.filterMap Frame.promise? = c.stack.filterMap Frame.promise?
      rw [hstack, List.filterMap_cons_none hpromise]
    rw [hsame]
    exact h.promises

theorem Inv.setLifecycle (h : Inv hand c) {lifecycle : Lifecycle}
    (htransport : c.stack = [] ∨ ∀ id, lifecycle.transport? = some id →
      c.lifecycle.transport? = some id)
    (hconnected : ∀ k handshake, c.lifecycle = .connected k handshake →
      ∃ handshake', lifecycle = .connected k handshake')
    (hdisposed : c.disposed = true → lifecycle = .disconnected) :
    Inv hand { c with lifecycle := lifecycle } where
  frames := by
    intro k messages id hmem hid
    rcases htransport with hempty | hsame
    · rw [show c.stack = [] from hempty] at hmem
      cases hmem
    · exact h.frames k messages id hmem (hsame id hid)
  pending := by
    intro id r hmem
    obtain ⟨hid, hr, handshake, hcurrent⟩ := h.pending id r hmem
    exact ⟨hid, hr, hconnected r.connection handshake hcurrent⟩
  resolve := h.resolve
  resolved := h.resolved
  disposed := hdisposed
  made := h.made
  distinct := h.distinct
  promises := h.promises

theorem Inv.setOpening (h : Inv hand c) (opening : List Nat) :
    Inv hand { c with opening := opening } where
  frames := h.frames
  pending := h.pending
  resolve := h.resolve
  resolved := h.resolved
  disposed := h.disposed
  made := h.made
  distinct := h.distinct
  promises := h.promises

/-! ## Promises -/

/-- A new promise is in hand. -/
theorem Inv.draw (h : Inv hand c) :
    Inv (c.nextPromise :: hand) { c with nextPromise := c.nextPromise + 1 } where
  frames := h.frames
  pending := h.pending
  resolve := h.resolve
  resolved := h.resolved
  disposed := h.disposed
  made := fun r hr => ⟨(h.made r hr).1, Nat.lt_succ_of_lt (h.made r hr).2⟩
  distinct := h.distinct
  promises := by
    show List.Perm _ (List.range (c.nextPromise + 1))
    rw [List.range_succ]
    exact (h.promises.cons _).trans (List.perm_append_singleton _ _).symm

/-- The promise in hand is settled. -/
theorem Inv.settle {p : Nat} (h : Inv (p :: hand) c) {outcome : Outcome}
    (houtcome : ∀ k id command, outcome = .resolved k id command →
      ∃ r ∈ c.requests, r.promise = p ∧ r.connection = k ∧ r.id = id ∧ r.command = command) :
    Inv hand { c with settled := c.settled ++ [(p, outcome)] } where
  frames := h.frames
  pending := h.pending
  resolve := h.resolve
  resolved := by
    intro p' k id command hmem
    rcases List.mem_append.mp hmem with hmem | hmem
    · exact h.resolved p' k id command hmem
    · cases List.mem_singleton.mp hmem
      exact houtcome k id command rfl
  disposed := h.disposed
  made := h.made
  distinct := h.distinct
  promises := by
    refine List.Perm.trans ?_ h.promises
    refine (List.Perm.append_right _ ?_).append_right _
    rw [List.map_append, ← List.append_assoc]
    exact List.perm_append_singleton _ _

theorem Inv.reject {p : Nat} (h : Inv (p :: hand) c) :
    Inv hand { c with settled := c.settled ++ [(p, .rejected)] } :=
  h.settle fun _ _ _ heq => by cases heq

theorem Inv.rejectCall (h : Inv hand c) : Inv hand c.rejectCall := h.draw.reject

/-- A pending request is taken from the map. -/
theorem Inv.takePendingRequest (h : Inv hand c) {id : Nat} {r : PendingRequest}
    (hget : c.pendingRequests.get? id = some r) :
    Inv (r.promise :: hand) { c with pendingRequests := c.pendingRequests.delete id } where
  frames := h.frames
  pending := fun id' r' hmem => h.pending id' r' (List.mem_of_mem_filter hmem)
  resolve := h.resolve
  resolved := h.resolved
  disposed := h.disposed
  made := h.made
  distinct := h.distinct
  promises := by
    have hpending := (JsMap.perm_delete hget).map fun entry => entry.2.promise
    have hall := ((hpending.append_left (hand ++ c.settled.map Prod.fst)).trans
      List.perm_middle).append_right c.resolving
    exact hall.symm.trans h.promises

/-- The promise in hand is resolved when the listeners have run. -/
theorem Inv.holdResolve {r : PendingRequest} (h : Inv (r.promise :: hand) c) (hr : r ∈ c.requests) :
    Inv hand { c with stack := .resolve r r.connection r.id r.command :: c.stack } where
  frames := by
    intro k messages id hmem
    rcases List.mem_cons.mp hmem with heq | hmem
    · cases heq
    · exact h.frames k messages id hmem
  pending := h.pending
  resolve := by
    intro r' k id command hmem
    rcases List.mem_cons.mp hmem with heq | hmem
    · cases heq
      exact ⟨hr, rfl, rfl, rfl⟩
    · exact h.resolve r' k id command hmem
  resolved := h.resolved
  disposed := h.disposed
  made := h.made
  distinct := h.distinct
  promises := List.perm_middle.trans h.promises

/-- The listeners of a response have run: its promise is resolved. -/
theorem Inv.resolveFrame (h : Inv hand c) {r : PendingRequest} {connection id : Nat}
    {command : CommandName} {stack : List Frame}
    (hstack : c.stack = .resolve r connection id command :: stack) :
    Inv hand { c with
      stack := stack
      settled := c.settled ++ [(r.promise, .resolved connection id command)] } := by
  have htaken : Inv (r.promise :: hand) { c with stack := stack } := {
    frames := fun k messages id hmem =>
      h.frames k messages id (hstack ▸ List.mem_cons_of_mem _ hmem)
    pending := h.pending
    resolve := fun r k id command hmem =>
      h.resolve r k id command (hstack ▸ List.mem_cons_of_mem _ hmem)
    resolved := h.resolved
    disposed := h.disposed
    made := h.made
    distinct := h.distinct
    promises := by
      have hsplit : c.resolving = r.promise :: stack.filterMap Frame.promise? := by
        rw [resolving, hstack]
        rfl
      have hall := h.promises
      rw [hsplit] at hall
      exact List.perm_middle.symm.trans hall }
  refine htaken.settle ?_
  intro k id' command' heq
  cases heq
  obtain ⟨hr, hrest⟩ := h.resolve r connection id command (hstack ▸ List.mem_cons_self)
  exact ⟨r, hr, rfl, hrest⟩

/-! ## Requests -/

theorem Inv.addRequest (h : Inv hand c) {r : PendingRequest} (hid : r.id = c.requestSequence + 1)
    (hpromise : r.promise < c.nextPromise) (hnew : ∀ r' ∈ c.requests, r'.promise < r.promise) :
    Inv hand { c with
      requestSequence := c.requestSequence + 1
      requests := c.requests ++ [r] } where
  frames := h.frames
  pending := by
    intro id r' hmem
    obtain ⟨hid', hr, hconnected⟩ := h.pending id r' hmem
    exact ⟨hid', List.mem_append_left _ hr, hconnected⟩
  resolve := by
    intro r' k id command hmem
    obtain ⟨hr, hrest⟩ := h.resolve r' k id command hmem
    exact ⟨List.mem_append_left _ hr, hrest⟩
  resolved := by
    intro p k id command hmem
    obtain ⟨r', hr, hrest⟩ := h.resolved p k id command hmem
    exact ⟨r', List.mem_append_left _ hr, hrest⟩
  disposed := h.disposed
  made := by
    intro r' hmem
    rcases List.mem_append.mp hmem with hmem | hmem
    · exact ⟨Nat.le_succ_of_le (h.made r' hmem).1, (h.made r' hmem).2⟩
    · rw [List.mem_singleton.mp hmem]
      exact ⟨Nat.le_of_eq hid, hpromise⟩
  distinct := by
    refine List.pairwise_append.mpr ⟨h.distinct, List.pairwise_singleton _ _, ?_⟩
    intro r' hr' last hlast
    obtain rfl := List.mem_singleton.mp hlast
    exact ⟨hid ▸ Nat.lt_succ_of_le (h.made r' hr').1, hnew r' hr'⟩
  promises := h.promises

/-- The promise in hand becomes that of a pending request. -/
theorem Inv.setPending {r : PendingRequest} (h : Inv (r.promise :: hand) c) (hr : r ∈ c.requests)
    (hnew : r.id ∉ c.pendingRequests.keys) {handshake : Bool}
    (hlifecycle : c.lifecycle = .connected r.connection handshake) :
    Inv hand { c with pendingRequests := c.pendingRequests.set r.id r } := by
  have hentries : (c.pendingRequests.set r.id r).entries
      = c.pendingRequests.entries ++ [(r.id, r)] := JsMap.set_of_notMem hnew r
  refine ⟨h.frames, ?_, h.resolve, h.resolved, h.disposed, h.made, h.distinct, ?_⟩
  · intro id r' hmem
    rcases List.mem_append.mp (hentries ▸ hmem) with hmem | hmem
    · exact h.pending id r' hmem
    · cases List.mem_singleton.mp hmem
      exact ⟨rfl, hr, handshake, hlifecycle⟩
  · show (hand ++ c.settled.map Prod.fst
      ++ (c.pendingRequests.set r.id r).entries.map (fun entry => entry.2.promise)
      ++ c.resolving).Perm _
    rw [hentries, List.map_append, ← List.append_assoc, List.append_assoc _ _ c.resolving]
    exact List.perm_middle.trans h.promises

theorem Inv.request (h : Inv hand c) (command : CommandName) (encodes : Bool) :
    Inv hand (c.request command encodes) := by
  unfold PiClient.request
  split
  · rename_i connection handshake _ hlifecycle
    have hadded := h.draw.addRequest
      (r := ⟨c.requestSequence + 1, c.nextPromise, command, connection⟩) rfl (Nat.lt_succ_self _)
      fun r hr => (h.made r hr).2
    dsimp only
    split
    · -- the ids of earlier requests are smaller
      have hnew : c.requestSequence + 1 ∉ c.pendingRequests.keys := by
        intro hmem
        obtain ⟨⟨id, old⟩, hold, hid⟩ := List.mem_map.mp hmem
        obtain ⟨holdId, hrequest, -⟩ := h.pending id old hold
        have hle := (h.made old hrequest).1
        have hr : id = c.requestSequence + 1 := hid
        omega
      have hpending := hadded.setPending
        (r := ⟨c.requestSequence + 1, c.nextPromise, command, connection⟩)
        (List.mem_append_right _ (List.mem_singleton_self _)) hnew hlifecycle
      exact hpending.push _ rfl fun _ _ _ heq => by cases heq
    · exact hadded.reject
  · exact h.rejectCall

/-! ## Responses -/

theorem Inv.handleResponse (h : Inv hand c) {connection : Nat} {handshake : Bool}
    (hlifecycle : c.lifecycle = .connected connection handshake) (id : Nat)
    (result : Option CommandName) : Inv hand (c.handleResponse connection id result) := by
  unfold PiClient.handleResponse
  split
  · exact h.fail
  · rename_i pending hget
    obtain ⟨hid, hr, handshake', hconnected⟩ := h.pending id pending (JsMap.mem_of_get? hget)
    have hconnection : pending.connection = connection := by
      rw [hconnected] at hlifecycle
      cases hlifecycle
      rfl
    cases result with
    | none => exact (h.takePendingRequest hget).reject
    | some command =>
      dsimp only
      split
      · exact (h.takePendingRequest hget).reject.fail
      · rename_i hcommand
        obtain rfl : command = pending.command := not_not.mp hcommand
        subst hconnection hid
        exact (h.takePendingRequest hget).holdResolve hr

/-! ## Steps -/

/-- The lifecycle moves on, on the same transport. -/
theorem Inv.advance (h : Inv hand c) {lifecycle : Lifecycle} (lifecycle' : Lifecycle)
    (hcurrent : c.lifecycle = lifecycle) (hlive : lifecycle ≠ .disconnected)
    (htransport : lifecycle'.transport? = lifecycle.transport?)
    (hconnected : ∀ k handshake, lifecycle = .connected k handshake →
      ∃ handshake', lifecycle' = .connected k handshake') :
    Inv hand { c with lifecycle := lifecycle' } := by
  subst hcurrent
  refine h.setLifecycle (.inr fun id hid => ?_) hconnected fun hdisposed => ?_
  · rw [← htransport]
    exact hid
  · exact absurd (h.disposed hdisposed) hlive

theorem Inv.connect (h : Inv hand c) : Inv hand c.connect := by
  unfold PiClient.connect
  split
  · rename_i hcan
    have hinv : Inv hand { c with lifecycle := .connecting (c.sequence + 1) false } := by
      refine h.setLifecycle (.inr fun id hid => by cases hid) ?_ ?_
      · intro k handshake hconnected
        rw [hcan.2] at hconnected
        cases hconnected
      · intro hdisposed
        rw [hcan.1] at hdisposed
        cases hdisposed
    have hpushed := hinv.push (.opening (c.sequence + 1)) rfl fun _ _ _ heq => by cases heq
    exact ⟨hpushed.frames, hpushed.pending, hpushed.resolve, hpushed.resolved, hpushed.disposed,
      hpushed.made, hpushed.distinct, hpushed.promises⟩
  · exact h

theorem Inv.handleMessage (h : Inv hand c) {connection : Nat}
    (hconnection : ∀ id, c.lifecycle.transport? = some id → connection = id)
    (message : ServerMessage) : Inv hand (c.handleMessage connection message) := by
  unfold PiClient.handleMessage
  split
  · rename_i id hlifecycle
    have hinv := h.advance (.connected id true) hlifecycle (by simp) rfl
      fun _ _ heq => by cases heq
    exact hinv.push _ rfl fun _ _ _ heq => by cases heq
  · exact h
  · rename_i id handshake responseId result hlifecycle
    obtain rfl : connection = id := hconnection id (by rw [hlifecycle]; rfl)
    exact h.handleResponse hlifecycle responseId result
  · exact h
  · exact h.fail

theorem Inv.handleData (h : Inv hand c) (connection : Nat)
    (messages : Option (List ServerMessage)) :
    Inv hand (c.handleData connection messages) := by
  unfold PiClient.handleData
  split
  · rename_i hcurrent
    split
    · exact h.fail
    · exact h.fail
    · refine h.push _ rfl ?_
      intro k messages' id heq htransport
      cases heq
      cases hlifecycle : c.lifecycle with
      | disconnected =>
        rw [hlifecycle] at htransport
        cases htransport
      | connecting current transport =>
        rw [isCurrent, hlifecycle] at hcurrent
        rw [hlifecycle] at htransport
        cases transport with
        | false => cases htransport
        | true =>
          cases htransport
          exact (of_decide_eq_true hcurrent).symm
      | connected current handshake =>
        rw [isCurrent, hlifecycle] at hcurrent
        rw [hlifecycle] at htransport
        cases htransport
        exact (of_decide_eq_true hcurrent).symm
  · exact h

theorem Inv.continueFrame (h : Inv hand c) {frame : Frame} {stack : List Frame}
    (hstack : c.stack = frame :: stack) :
    Inv hand ({ c with stack := stack }.continueFrame frame) := by
  cases frame with
  | messages connection messages =>
    have hpopped := h.pop hstack rfl
    cases messages with
    | nil => exact hpopped
    | cons message rest =>
      have hframe : ∀ id, c.lifecycle.transport? = some id → connection = id := fun id =>
        h.frames connection (message :: rest) id (hstack ▸ List.mem_cons_self)
      show Inv hand (if _ then _ else _)
      split
      · exact hpopped
      · have hpushed := hpopped.push (.messages connection rest) rfl
          fun k messages id heq htransport => by
            cases heq
            exact hframe id htransport
        exact hpushed.handleMessage hframe message
  | handshake connection =>
    have hpopped := h.pop hstack rfl
    show Inv hand (if _ then _ else _)
    split
    · exact hpopped.push _ rfl fun _ _ _ heq => by cases heq
    · exact hpopped
  | announced connection =>
    have hpopped := h.pop hstack rfl
    show Inv hand (if _ then _ else _)
    split
    · rename_i hlifecycle
      refine hpopped.advance _ hlifecycle (by simp) rfl ?_
      intro k handshake heq
      cases heq
      exact ⟨false, rfl⟩
    · exact hpopped
  | opening connection => exact (h.pop hstack rfl).setOpening _
  | resolve r connection id command => exact h.resolveFrame hstack
  | sending => exact h.pop hstack rfl

theorem Inv.opened (h : Inv hand c) (hstack : c.stack = []) {connection : Nat}
    (hlifecycle : c.lifecycle = .connecting connection false) :
    Inv hand { c with lifecycle := .connecting connection true } := by
  refine h.setLifecycle (.inl hstack) ?_ ?_
  · intro k handshake hconnected
    rw [hlifecycle] at hconnected
    cases hconnected
  · intro hdisposed
    rw [h.disposed hdisposed] at hlifecycle
    cases hlifecycle

theorem inv_step {a : Action} (h : Inv hand c) (hs : c.step a = some c') : Inv hand c' := by
  cases a with
  | request command encodes => exact Option.some.inj hs ▸ h.request command encodes
  | connect => exact Option.some.inj hs ▸ h.connect
  | disconnect => exact Option.some.inj hs ▸ h.fail
  | dispose => exact Option.some.inj hs ▸ h.dispose
  | data connection messages => exact Option.some.inj hs ▸ h.handleData connection messages
  | close connection | error connection =>
    obtain rfl := Option.some.inj hs
    split
    · exact h.fail
    · exact h
  | «return» =>
    dsimp only [step] at hs
    split at hs
    · cases hs
    · rename_i frame stack hstack
      exact Option.some.inj hs ▸ h.continueFrame hstack
  | throw =>
    dsimp only [step] at hs
    split at hs
    · rename_i stack hstack
      exact Option.some.inj hs ▸ (h.pop hstack rfl).fail
    · cases hs
  | opened connection =>
    dsimp only [step] at hs
    split at hs
    · rename_i hcan
      have hopening := h.setOpening (c.opening.erase connection)
      split at hs
      · rename_i hlifecycle
        exact Option.some.inj hs ▸ hopening.opened hcan.1 hlifecycle
      · exact Option.some.inj hs ▸ hopening
    · cases hs
  | openFails connection =>
    dsimp only [step] at hs
    split at hs
    · have hopening := h.setOpening (c.opening.erase connection)
      obtain rfl := Option.some.inj hs
      split
      · exact hopening.fail
      · exact hopening
    · cases hs

theorem inv_of_reachable (h : Reachable c) : Inv [] c := by
  induction h with
  | start => exact inv_start
  | step _ hs ih => exact inv_step ih hs

/-! ## Main result -/

/-- Every promise that has been made is settled, pending or about to be resolved, once.
One that was resolved was that of a request with the id and the command of the response,
on the connection that the response came on. Without a connection nothing is pending, and
when the calls under way have returned, all promises have been settled. -/
theorem requests_settle (h : Reachable c) :
    (c.settled.map Prod.fst ++ c.pendingPromises ++ c.resolving).Perm (List.range c.nextPromise) ∧
    (c.settled.map Prod.fst ++ c.pendingPromises ++ c.resolving).Nodup ∧
    (∀ p k id command, (p, .resolved k id command) ∈ c.settled → ⟨id, p, command, k⟩ ∈ c.requests) ∧
    (c.requests.Pairwise fun r r' => r.id ≠ r'.id ∧ r.promise ≠ r'.promise) ∧
    (c.lifecycle = .disconnected ∨ c.disposed = true → c.pendingRequests = .empty ∧
      (c.stack = [] → (c.settled.map Prod.fst).Perm (List.range c.nextPromise))) := by
  have hinv := inv_of_reachable h
  have hperm : (c.settled.map Prod.fst ++ c.pendingPromises ++ c.resolving).Perm
      (List.range c.nextPromise) := hinv.promises
  refine ⟨hperm, hperm.nodup_iff.mpr List.nodup_range, ?_, ?_, ?_⟩
  · intro p k id command hmem
    obtain ⟨r, hr, rfl, rfl, rfl, rfl⟩ := hinv.resolved p k id command hmem
    exact hr
  · exact hinv.distinct.imp fun hlt => ⟨Nat.ne_of_lt hlt.1, Nat.ne_of_lt hlt.2⟩
  · intro hgone
    have hlifecycle : c.lifecycle = .disconnected := hgone.elim (fun heq => heq) hinv.disposed
    have hnone : c.pendingRequests.entries = [] := by
      refine hinv.pending_eq_nil ?_
      intro id handshake hconnected
      rw [hlifecycle] at hconnected
      cases hconnected
    refine ⟨JsMap.ext hnone, ?_⟩
    intro hstack
    rw [pendingPromises, hnone, resolving, hstack] at hperm
    simpa using hperm

def run (c : PiClient) (as : List Action) : Option PiClient := as.foldlM step c

theorem Reachable.run (as : List Action) (h : Reachable c) (hrun : c.run as = some c') :
    Reachable c' :=
  Runs.run_induction (fun _ _ _ h hs => .step h hs) as h hrun

/-- Two requests; the first is answered, and a listener disconnects before the second is. -/
def answeredRun : List Action :=
  [.connect, .return, .opened 1, .data 1 (some [.hello]), .return, .return, .return, .return,
    .request .list true, .return, .request .prompt true, .return,
    .data 1 (some [.response 1 (some .list)]), .return, .disconnect, .return, .return]

theorem requests_settle_answered : ∃ c, Reachable c ∧
    (c.settled.map Prod.fst).Perm [0, 1] ∧ (0, .resolved 1 1 .list) ∈ c.settled := by
  have h : (start.run answeredRun).any fun c => c.lifecycle = .disconnected ∧ c.stack = [] ∧
      c.nextPromise = 2 ∧ (0, .resolved 1 1 .list) ∈ c.settled := by
    decide
  obtain ⟨c, hrun, h⟩ := (Option.any_eq_true _ _).mp h
  obtain ⟨hlifecycle, hstack, hnext, hmem⟩ := of_decide_eq_true h
  have hreachable := Reachable.run _ .start hrun
  have hall := ((requests_settle hreachable).2.2.2.2 (.inl hlifecycle)).2 hstack
  rw [hnext] at hall
  exact ⟨c, hreachable, hall, hmem⟩

end PiClient

end PiMono.Client
