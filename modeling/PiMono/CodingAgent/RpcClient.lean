import PiMono.Lib.JsonText

/-!
# The requests of an RPC client

`RpcClient` of `coding-agent/src/modes/rpc/rpc-client.ts`: what settles the promises of `send` and
when. Every event of a child process, every line, timer and call is one step. A request whose child
exits is rejected at once; `stop` forgets those it still finds (`pending_settle`).
-/

namespace PiMono.CodingAgent.Rpc

/-- The errors that requests are rejected with. -/
inductive RpcError where
  | exited
  | process
  | stdin
  | notWritable
  | timeout
  | write
  deriving DecidableEq

inductive Outcome where
  | resolved (response : JsValue)
  | rejected (error : RpcError)
  deriving DecidableEq

/-- A call of the `resolve` or `reject` of a promise, and the child whose event it was. -/
structure Settlement where
  id : Nat
  outcome : Outcome
  child : Option Nat
  deriving DecidableEq

/-- `RpcClient`. Children are counted in the order of their start, and `req_n` is the `n`. `timers`
are the requests whose timeout is armed, `stopping` the calls of `stop` that wait, `stopReading` the
child whose reader `stopReadingStdout` detaches. `sent`, `settled` and `gone` only record: the child
of each request, what was settled, and that the child exited, failed or was stopped. -/
structure RpcClient where
  process : Option Nat
  pendingRequests : List Nat
  requestId : Nat
  exitError : Option RpcError
  stopReading : Option Nat
  readers : List Nat
  stopping : Nat
  children : Nat
  exited : List Nat
  timers : List Nat
  sent : List (Nat × Nat)
  settled : List Settlement
  gone : Bool
  deriving DecidableEq

inductive Event where
  | start
  -- the check behind the 100 ms of `start`
  | started
  -- `stdin` can be written to or not, and the write throws or not
  | send (writable writeFails : Bool)
  | line (child : Nat) (text : JsString)
  -- the exit code is there before the event
  | terminated (child : Nat)
  | exit (child : Nat)
  | error (child : Nat)
  | stdinError (child : Nat)
  | timeout (id : Nat)
  | stop
  -- `stop` goes on, behind the exit or after 1000 ms
  | stopped
  deriving DecidableEq

/-- `req_${id}` -/
def requestText (id : Nat) : JsString := js "req_" ++ JsNumber.digitsText (natDigits id)

namespace RpcClient

def initial : RpcClient :=
  ⟨none, [], 0, none, none, [], 0, 0, [], [], [], [], false⟩

/-- The promise of a request is settled, and its timeout cleared. -/
def settle (c : RpcClient) (id : Nat) (outcome : Outcome) (child : Option Nat) : RpcClient :=
  { c with
    timers := c.timers.erase id
    settled := c.settled ++ [⟨id, outcome, child⟩] }

/-- `rejectPendingRequests` -/
def rejectPendingRequests (c : RpcClient) (error : RpcError) (child : Nat) : RpcClient :=
  { c with
    pendingRequests := []
    timers := c.timers.filter fun id => id ∉ c.pendingRequests
    settled := c.settled ++ c.pendingRequests.map fun id => ⟨id, .rejected error, some child⟩ }

/-- The listeners of a child that has exited or failed. -/
def leave (c : RpcClient) (child : Nat) (error : RpcError) : RpcClient :=
  if c.process = some child then
    { c with exitError := some error, gone := true }.rejectPendingRequests error child
  else c

def start (c : RpcClient) : RpcClient :=
  if c.process.isSome then c
  else
    { c with
      process := some c.children
      exitError := none
      stopReading := some c.children
      readers := c.readers ++ [c.children]
      children := c.children + 1
      gone := false }

def started (c : RpcClient) : RpcClient :=
  match c.process with
  | some child =>
    if child ∈ c.exited then { c with exitError := some (c.exitError.getD .exited) } else c
  | none => c

/-- `send`; a call that throws has no request. -/
def send (c : RpcClient) (writable writeFails : Bool) : RpcClient :=
  match c.process with
  | none => c
  | some child =>
    if c.exitError.isSome then c
    else if child ∈ c.exited then { c with exitError := some .exited }
    else if writable = false then { c with exitError := some .notWritable }
    else
      let id := c.requestId + 1
      let c := { c with
        requestId := id
        timers := c.timers ++ [id]
        pendingRequests := c.pendingRequests ++ [id]
        sent := c.sent ++ [(id, child)] }
      if writeFails then
        { c with pendingRequests := c.pendingRequests.erase id }.settle id (.rejected .write) child
      else c

/-- The pending request that a line answers. -/
def answered? (c : RpcClient) (text : JsString) : Option (Nat × JsValue) :=
  match JsValue.parse text with
  | none => none
  | some data =>
    if data.strField? (js "type") = some (js "response") then
      match data.strField? (js "id") with
      | some id => (c.pendingRequests.find? fun request => requestText request = id).map (·, data)
      | none => none
    else none

/-- `handleLine`; the listeners are left out. -/
def handleLine (c : RpcClient) (child : Nat) (text : JsString) : RpcClient :=
  match c.answered? text with
  | some (id, data) =>
    { c with pendingRequests := c.pendingRequests.erase id }.settle id (.resolved data) child
  | none => c

def stop (c : RpcClient) : RpcClient :=
  if c.process.isNone then c
  else
    { c with
      readers := match c.stopReading with
        | some child => c.readers.erase child
        | none => c.readers
      stopReading := none
      stopping := c.stopping + 1 }

def stopped (c : RpcClient) : RpcClient :=
  if c.stopping = 0 then c
  else { c with stopping := c.stopping - 1, process := none, pendingRequests := [], gone := true }

def timeout (c : RpcClient) (id : Nat) : RpcClient :=
  if id ∈ c.timers then
    { c with pendingRequests := c.pendingRequests.erase id }.settle id (.rejected .timeout) none
  else c

def step (c : RpcClient) : Event → RpcClient
  | .start => c.start
  | .started => c.started
  | .send writable writeFails => c.send writable writeFails
  | .line child text => if child ∈ c.readers then c.handleLine child text else c
  | .terminated child => { c with exited := child :: c.exited }
  | .exit child => { c with exited := child :: c.exited }.leave child .exited
  | .error child => c.leave child .process
  | .stdinError child => c.leave child (c.exitError.getD .stdin)
  | .timeout id => c.timeout id
  | .stop => c.stop
  | .stopped => c.stopped

def run (c : RpcClient) (events : List Event) : RpcClient := events.foldl step c

/-! ## What requests are promised -/

/-- The child goes away with the event. -/
def goes (c : RpcClient) : Event → Bool
  | .exit child | .error child | .stdinError child => c.process = some child
  | .stopped => c.stopping ≠ 0
  | _ => false

/-- How often the promise of a request was settled. -/
def settlements (c : RpcClient) (id : Nat) : Nat := c.settled.countP fun s => s.id = id

structure Lawful (c : RpcClient) : Prop where
  /-- Settled once, or not yet and the timeout will do it. -/
  once : ∀ id, 1 ≤ id → id ≤ c.requestId →
    (c.settlements id = 1 ∧ id ∉ c.timers) ∨ (c.settlements id = 0 ∧ id ∈ c.timers)
  unissued : ∀ id, c.requestId < id → c.settlements id = 0
  own : ∀ s ∈ c.settled, ∀ response, s.outcome = .resolved response →
    response.strField? (js "type") = some (js "response") ∧
      response.strField? (js "id") = some (requestText s.id)
  gone : c.gone = true → ∀ id, 1 ≤ id → id ≤ c.requestId → c.settlements id = 1
  notLater : ∀ s ∈ c.settled, ∀ child, s.child = some child →
    ∃ owner, (s.id, owner) ∈ c.sent ∧ child ≤ owner

/-- A request that is pending when the child goes away is rejected by that event. -/
def RejectsAtOnce (c : RpcClient) (event : Event) : Prop :=
  c.goes event = true → ∀ id ∈ c.pendingRequests, ∃ error,
    ⟨id, .rejected error, c.process⟩ ∈ (c.step event).settled

/-! ## The invariant -/

/-- What holds while no `stop` forgets a request. -/
structure Inv (c : RpcClient) : Prop where
  timers : c.timers = c.pendingRequests
  nodup : c.pendingRequests.Nodup
  issued : ∀ id ∈ c.pendingRequests, 1 ≤ id ∧ id ≤ c.requestId
  count : ∀ id, 1 ≤ id → id ≤ c.requestId →
    c.settlements id = if id ∈ c.pendingRequests then 0 else 1
  unissued : ∀ id, c.requestId < id → c.settlements id = 0
  own : ∀ s ∈ c.settled, ∀ response, s.outcome = .resolved response →
    response.strField? (js "type") = some (js "response") ∧
      response.strField? (js "id") = some (requestText s.id)
  gone : c.gone = true → c.pendingRequests = [] ∧ (c.process = none ∨ c.exitError.isSome = true)
  idle : c.process = none → c.pendingRequests = []
  owner : ∀ id ∈ c.pendingRequests, ∀ child, c.process = some child → (id, child) ∈ c.sent
  readers : ∀ reader ∈ c.readers, reader < c.children ∧
    ∀ child, c.process = some child → reader ≤ child
  notLater : ∀ s ∈ c.settled, ∀ child, s.child = some child →
    ∃ owner, (s.id, owner) ∈ c.sent ∧ child ≤ owner

theorem inv_initial : Inv initial where
  timers := rfl
  nodup := List.nodup_nil
  issued := nofun
  count := fun id hle hissued => absurd (Nat.le_trans hle hissued) (by decide)
  unissued := fun _ _ => rfl
  own := nofun
  gone := nofun
  idle := fun _ => rfl
  owner := nofun
  readers := nofun
  notLater := nofun

theorem Inv.lawful {c : RpcClient} (h : Inv c) : Lawful c where
  once := by
    intro id hle hissued
    rw [h.count id hle hissued, h.timers]
    by_cases hpending : id ∈ c.pendingRequests
    · exact Or.inr ⟨if_pos hpending, hpending⟩
    · exact Or.inl ⟨if_neg hpending, hpending⟩
  unissued := h.unissued
  own := h.own
  gone := by
    intro hgone id hle hissued
    rw [h.count id hle hissued, (h.gone hgone).1, if_neg List.not_mem_nil]
  notLater := h.notLater

/-- One pending request is settled. -/
theorem Inv.settle {c : RpcClient} (h : Inv c) {id : Nat} (hpending : id ∈ c.pendingRequests)
    {outcome : Outcome} {child : Option Nat}
    (hown : ∀ response, outcome = .resolved response →
      response.strField? (js "type") = some (js "response") ∧
        response.strField? (js "id") = some (requestText id))
    (hchild : ∀ source, child = some source → ∃ owner, (id, owner) ∈ c.sent ∧ source ≤ owner) :
    Inv ({ c with pendingRequests := c.pendingRequests.erase id }.settle id outcome child) := by
  have hmem : ∀ other, other ∈ c.pendingRequests.erase id ↔
      other ≠ id ∧ other ∈ c.pendingRequests := fun other => h.nodup.mem_erase_iff
  have hcount : ∀ other, ({ c with pendingRequests := c.pendingRequests.erase id }.settle id outcome
      child).settlements other = c.settlements other + if id = other then 1 else 0 := by
    intro other
    simp only [settlements, RpcClient.settle, List.countP_append, List.countP_singleton,
      decide_eq_true_eq]
  refine {
    timers := congrArg (·.erase id) h.timers
    nodup := h.nodup.erase id
    issued := fun other hother => h.issued other ((hmem other).mp hother).2
    count := fun other hle hissued => ?_
    unissued := fun other hlt => ?_
    own := fun s hs => ?_
    gone := fun hgone => ?_
    idle := fun hnone => ?_
    owner := fun other hother => h.owner other ((hmem other).mp hother).2
    readers := h.readers
    notLater := fun s hs => ?_ }
  · rw [hcount, h.count other hle hissued]
    show _ = if other ∈ c.pendingRequests.erase id then 0 else 1
    simp only [hmem]
    by_cases heq : id = other
    · subst heq
      rw [if_pos hpending, if_pos rfl, if_neg (fun hne => hne.1 rfl)]
    · rw [if_neg heq, Nat.add_zero]
      exact if_congr (by rw [and_iff_right (Ne.symm heq)]) rfl rfl
  · have hne : id ≠ other := by
      rintro rfl
      exact absurd (h.issued id hpending).2 (Nat.not_le.mpr hlt)
    rw [hcount, h.unissued other hlt, if_neg hne]
  · rcases List.mem_append.mp hs with hs | hs
    · exact h.own s hs
    · rw [List.mem_singleton.mp hs]
      exact hown
  · rw [(h.gone hgone).1] at hpending
    cases hpending
  · rw [h.idle hnone] at hpending
    cases hpending
  · rcases List.mem_append.mp hs with hs | hs
    · exact h.notLater s hs
    · rw [List.mem_singleton.mp hs]
      exact hchild

/-- All pending requests are rejected by the current child. -/
theorem Inv.leave {c : RpcClient} (h : Inv c) (child : Nat) (error : RpcError) :
    Inv (c.leave child error) := by
  rw [RpcClient.leave]
  split
  · rename_i hprocess
    have hcount : ∀ id, ({ c with exitError := some error, gone := true }.rejectPendingRequests
        error child).settlements id =
          c.settlements id + if id ∈ c.pendingRequests then 1 else 0 := by
      intro id
      simp only [settlements, rejectPendingRequests, List.countP_append, List.countP_map]
      congr 1
      rw [show ((fun s : Settlement => decide (s.id = id)) ∘ fun other =>
        (⟨other, .rejected error, some child⟩ : Settlement)) = (· == id) from rfl]
      exact List.Nodup.count h.nodup
    refine {
      timers := ?_
      nodup := List.nodup_nil
      issued := nofun
      count := fun id hle hissued => ?_
      unissued := fun id hlt => ?_
      own := fun s hs => ?_
      gone := fun _ => ⟨rfl, Or.inr rfl⟩
      idle := fun _ => rfl
      owner := nofun
      readers := h.readers
      notLater := fun s hs => ?_ }
    · show c.timers.filter _ = []
      rw [h.timers, List.filter_eq_nil_iff]
      intro id hid
      simpa using hid
    · rw [hcount, h.count id hle hissued]
      show _ = if id ∈ [] then 0 else 1
      by_cases hpending : id ∈ c.pendingRequests
      · rw [if_pos hpending, if_pos hpending, if_neg List.not_mem_nil]
      · rw [if_neg hpending, if_neg hpending, if_neg List.not_mem_nil]
    · have hnot : id ∉ c.pendingRequests := fun hpending =>
        absurd (h.issued id hpending).2 (Nat.not_le.mpr hlt)
      rw [hcount, h.unissued id hlt, if_neg hnot]
    · rcases List.mem_append.mp hs with hs | hs
      · exact h.own s hs
      · obtain ⟨id, -, rfl⟩ := List.mem_map.mp hs
        exact nofun
    · rcases List.mem_append.mp hs with hs | hs
      · exact h.notLater s hs
      · obtain ⟨id, hid, rfl⟩ := List.mem_map.mp hs
        intro source hsource
        cases hsource
        exact ⟨child, h.owner id hid child hprocess, Nat.le_refl _⟩
  · exact h

theorem Inv.start {c : RpcClient} (h : Inv c) : Inv c.start := by
  rw [RpcClient.start]
  split
  · exact h
  · rename_i hprocess
    have hnone : c.process = none := by simpa using hprocess
    have hidle := h.idle hnone
    exact {
      h with
      gone := nofun
      idle := nofun
      owner := fun id hid => by
        rw [show c.pendingRequests = [] from hidle] at hid
        cases hid
      readers := by
        intro reader hreader
        rcases List.mem_append.mp hreader with hreader | hreader
        · refine ⟨Nat.lt_succ_of_lt (h.readers reader hreader).1, fun child hchild => ?_⟩
          cases hchild
          exact Nat.le_of_lt (h.readers reader hreader).1
        · obtain rfl := List.mem_singleton.mp hreader
          refine ⟨Nat.lt_succ_self _, fun child hchild => ?_⟩
          cases hchild
          exact Nat.le_refl _ }

theorem Inv.setExitError {c : RpcClient} (h : Inv c) (error : RpcError) :
    Inv { c with exitError := some error } :=
  { h with gone := fun hgone => ⟨(h.gone hgone).1, Or.inr rfl⟩ }

theorem Inv.started {c : RpcClient} (h : Inv c) : Inv c.started := by
  rw [RpcClient.started]
  split
  · split
    · exact h.setExitError _
    · exact h
  · exact h

theorem Inv.send {c : RpcClient} (h : Inv c) (writable writeFails : Bool) :
    Inv (c.send writable writeFails) := by
  rw [RpcClient.send]
  split
  · exact h
  rename_i child hprocess
  split
  · exact h
  rename_i hnoError
  split
  · exact h.setExitError _
  split
  · exact h.setExitError _
  have hfresh : c.requestId + 1 ∉ c.pendingRequests := fun hpending =>
    absurd (h.issued _ hpending).2 (Nat.not_le.mpr (Nat.lt_succ_self _))
  have hsent : Inv { c with
      requestId := c.requestId + 1
      timers := c.timers ++ [c.requestId + 1]
      pendingRequests := c.pendingRequests ++ [c.requestId + 1]
      sent := c.sent ++ [(c.requestId + 1, child)] } := {
    h with
    timers := congrArg (· ++ [c.requestId + 1]) h.timers
    nodup := List.nodup_append.mpr ⟨h.nodup, List.nodup_singleton _, by
      rintro id hid other hother rfl
      rw [List.mem_singleton.mp hother] at hid
      exact hfresh hid⟩
    issued := by
      intro id hid
      rcases List.mem_append.mp hid with hid | hid
      · exact ⟨(h.issued id hid).1, Nat.le_succ_of_le (h.issued id hid).2⟩
      · rw [List.mem_singleton.mp hid]
        exact ⟨Nat.succ_pos _, Nat.le_refl _⟩
    count := by
      intro id hle hissued
      show c.settlements id = if id ∈ c.pendingRequests ++ [c.requestId + 1] then 0 else 1
      rcases Nat.lt_or_eq_of_le hissued with hlt | rfl
      · rw [h.count id hle (Nat.le_of_lt_succ hlt)]
        refine if_congr ?_ rfl rfl
        rw [List.mem_append, List.mem_singleton, or_iff_left (Nat.ne_of_lt hlt)]
      · rw [h.unissued _ (Nat.lt_succ_self _), if_pos (List.mem_append_right _ (by simp))]
    unissued := fun id hlt => h.unissued id (Nat.lt_of_succ_lt hlt)
    gone := by
      intro hgone
      rcases (h.gone hgone).2 with hnone | herror
      · rw [hprocess] at hnone
        cases hnone
      · exact absurd herror hnoError
    idle := fun hnone => by
      rw [show c.process = none from hnone] at hprocess
      cases hprocess
    owner := by
      intro id hid other hother
      obtain rfl : child = other := Option.some.inj (hprocess.symm.trans hother)
      rcases List.mem_append.mp hid with hid | hid
      · exact List.mem_append_left _ (h.owner id hid child hprocess)
      · rw [List.mem_singleton.mp hid]
        exact List.mem_append_right _ List.mem_cons_self
    notLater := fun s hs source hsource =>
      have ⟨owner, hsent, hle⟩ := h.notLater s hs source hsource
      ⟨owner, List.mem_append_left _ hsent, hle⟩ }
  dsimp only
  split
  · refine hsent.settle (List.mem_append_right _ List.mem_cons_self) nofun fun source hsource => ?_
    cases hsource
    exact ⟨child, List.mem_append_right _ List.mem_cons_self, Nat.le_refl _⟩
  · exact hsent

theorem answered?_eq_some {c : RpcClient} {text : JsString} {id : Nat} {data : JsValue}
    (h : c.answered? text = some (id, data)) : id ∈ c.pendingRequests ∧
      data.strField? (js "type") = some (js "response") ∧
      data.strField? (js "id") = some (requestText id) := by
  rw [answered?] at h
  split at h
  · cases h
  split at h
  · rename_i data' hparse htype
    split at h
    · rename_i text' hid
      obtain ⟨request, hfound, heq⟩ := Option.map_eq_some_iff.mp h
      cases heq
      refine ⟨List.mem_of_find?_eq_some hfound, htype, ?_⟩
      have hrequest : requestText id = text' := by
        simpa using List.find?_some hfound
      rw [hid, hrequest]
    · cases h
  · cases h

theorem Inv.line {c : RpcClient} (h : Inv c) {child : Nat} (hreader : child ∈ c.readers)
    (text : JsString) : Inv (c.handleLine child text) := by
  rw [handleLine]
  split
  · rename_i id data hanswered
    obtain ⟨hpending, htype, hid⟩ := answered?_eq_some hanswered
    refine h.settle hpending (fun response hresponse => ?_) fun source hsource => ?_
    · cases hresponse
      exact ⟨htype, hid⟩
    · cases hsource
      cases hprocess : c.process with
      | none =>
        rw [h.idle hprocess] at hpending
        cases hpending
      | some current =>
        exact ⟨current, h.owner id hpending current hprocess,
          (h.readers child hreader).2 current hprocess⟩
  · exact h

theorem Inv.stop {c : RpcClient} (h : Inv c) : Inv c.stop := by
  rw [RpcClient.stop]
  split
  · exact h
  · refine { h with readers := fun reader hreader => h.readers reader ?_ }
    dsimp only at hreader
    split at hreader
    · exact List.mem_of_mem_erase hreader
    · exact hreader

/-- Where nothing is pending, `stop` forgets nothing. -/
theorem Inv.stopped {c : RpcClient} (h : Inv c)
    (hnone : c.stopping ≠ 0 → c.pendingRequests = []) : Inv c.stopped := by
  rw [RpcClient.stopped]
  split
  · exact h
  · rename_i hstopping
    have hidle := hnone hstopping
    exact {
      h with
      timers := h.timers.trans hidle
      nodup := List.nodup_nil
      issued := nofun
      count := fun id hle hissued => by
        have hcount := h.count id hle hissued
        rw [hidle] at hcount
        exact hcount
      gone := fun _ => ⟨rfl, Or.inl rfl⟩
      idle := fun _ => rfl
      owner := nofun
      readers := fun reader hreader => ⟨(h.readers reader hreader).1, nofun⟩ }

theorem Inv.timeout {c : RpcClient} (h : Inv c) (id : Nat) : Inv (c.timeout id) := by
  rw [RpcClient.timeout]
  split
  · rename_i htimer
    rw [h.timers] at htimer
    exact h.settle htimer nofun nofun
  · exact h

/-- The condition: a `stop` that goes on finds no request pending. -/
def FindsNone (c : RpcClient) (event : Event) : Prop :=
  event = .stopped → c.stopping ≠ 0 → c.pendingRequests = []

theorem Inv.terminated {c : RpcClient} (h : Inv c) (child : Nat) :
    Inv { c with exited := child :: c.exited } :=
  { h with }

theorem Inv.step {c : RpcClient} (h : Inv c) {event : Event} (hnone : c.FindsNone event) :
    Inv (c.step event) := by
  cases event with
  | start => exact h.start
  | started => exact h.started
  | send writable writeFails => exact h.send writable writeFails
  | line child text =>
    rw [RpcClient.step]
    split
    · rename_i hreader
      exact h.line hreader text
    · exact h
  | terminated child => exact h.terminated child
  | exit child => exact (h.terminated child).leave child .exited
  | error child => exact h.leave child .process
  | stdinError child => exact h.leave child _
  | timeout id => exact h.timeout id
  | stop => exact h.stop
  | stopped => exact h.stopped (hnone rfl)

theorem inv_run {events : List Event}
    (hnone : ∀ done event, done ++ [event] <+: events → (initial.run done).FindsNone event) :
    Inv (initial.run events) := by
  induction events using List.reverseRecOn with
  | nil => exact inv_initial
  | append_singleton done event ih =>
    have hdone := ih fun earlier next hfront =>
      hnone earlier next (hfront.trans (List.prefix_append _ _))
    rw [run, List.foldl_append]
    exact hdone.step (hnone done event List.prefix_rfl)

theorem rejects_leave {c : RpcClient} {child : Nat} (error : RpcError)
    (hprocess : c.process = some child) {id : Nat} (hid : id ∈ c.pendingRequests) :
    ⟨id, .rejected error, c.process⟩ ∈ (c.leave child error).settled := by
  rw [RpcClient.leave, if_pos hprocess, hprocess]
  exact List.mem_append_right _ (List.mem_map.mpr ⟨id, hid, rfl⟩)

theorem rejectsAtOnce_step {c : RpcClient} {event : Event} (hnone : c.FindsNone event) :
    c.RejectsAtOnce event := by
  intro hgoes id hid
  cases event with
  | exit child =>
    exact ⟨_, rejects_leave (c := { c with exited := child :: c.exited }) .exited
      (of_decide_eq_true hgoes) hid⟩
  | error child => exact ⟨_, rejects_leave .process (of_decide_eq_true hgoes) hid⟩
  | stdinError child => exact ⟨_, rejects_leave _ (of_decide_eq_true hgoes) hid⟩
  | stopped =>
    rw [hnone rfl (of_decide_eq_true hgoes)] at hid
    cases hid
  | _ => cases hgoes

/-- **The law of requests**, in every run in which no `stop` goes on while a request is pending. -/
theorem pending_settle (events : List Event)
    (hnone : ∀ done event, done ++ [event] <+: events → (initial.run done).FindsNone event) :
    (∀ done, done <+: events → (initial.run done).Lawful) ∧
      ∀ done event, done ++ [event] <+: events → (initial.run done).RejectsAtOnce event := by
  refine ⟨fun done hdone => (inv_run fun earlier event hfront =>
    hnone earlier event (hfront.trans hdone)).lawful, fun done event hfront => ?_⟩
  exact rejectsAtOnce_step (hnone done event hfront)

/-- The condition, checked step by step. -/
def checked (c : RpcClient) : List Event → Bool
  | [] => true
  | event :: events =>
    decide (event = .stopped → c.stopping ≠ 0 → c.pendingRequests = []) &&
      checked (c.step event) events

theorem findsNone_of_checked {c : RpcClient} {events : List Event} (h : c.checked events = true) :
    ∀ done event, done ++ [event] <+: events → (c.run done).FindsNone event := by
  induction events generalizing c with
  | nil =>
    intro done event hfront
    exact absurd (List.prefix_nil.mp hfront) (by simp)
  | cons first events ih =>
    rw [checked, Bool.and_eq_true, decide_eq_true_eq] at h
    intro done event hfront
    cases done with
    | nil =>
      obtain rfl := (List.cons_prefix_cons.mp hfront).1
      exact h.1
    | cons earlier done =>
      obtain ⟨rfl, hrest⟩ := List.cons_prefix_cons.mp hfront
      exact ih h.2 done event hrest

/-- A child that exits while a request is pending. -/
def exitedRun : List Event :=
  [.start, .send true false, .stop, .exit 0, .stopped]

theorem pending_settle_exited :
    (∀ done, done <+: exitedRun → (initial.run done).Lawful) ∧
      ∀ done event, done ++ [event] <+: exitedRun → (initial.run done).RejectsAtOnce event :=
  pending_settle exitedRun (findsNone_of_checked (by decide))

/-- A child that is still there when `stop` has waited for 1000 ms: its request is forgotten. -/
theorem not_pending_settle : ¬ ∀ events : List Event, (initial.run events).Lawful := by
  intro h
  have hgone := (h [.start, .send true false, .stop, .stopped]).gone rfl 1 (by decide) (by decide)
  exact absurd hgone (by decide)

end RpcClient

end PiMono.CodingAgent.Rpc
