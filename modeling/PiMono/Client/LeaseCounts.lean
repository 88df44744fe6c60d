import PiMono.Client.SessionLeases
import PiMono.Lib.Runs

/-!
# Leases are exclusive and counted

The owners of a session are its handles that have not been released and the acquisitions in
flight, of the session's current generation. As long as tasks go on that own what they
think they own (`Orderly`), the maps of the client count the owners (`Inv.counted`), and a
handle lives no longer than the connection it was issued for (`Inv.live`). A step moves an
owner from one place to another; on the way it is in the `hand` of `Inv`.
-/

namespace PiMono.Client.Leases

open SharedLeases

/-- Active or releasing, and of the current generation. -/
def SessionLease.live (generation : JsString → Nat) (l : SessionLease) : Prop :=
  l.state ≠ .released ∧ l.generation = generation l.sessionId

instance (generation : JsString → Nat) (l : SessionLease) : Decidable (l.live generation) :=
  inferInstanceAs (Decidable (_ ∧ _))

def SessionLease.owner? (generation : JsString → Nat) (l : SessionLease) :
    Option (JsString × SessionLeaseToken) :=
  if l.live generation then some (l.sessionId, l.token) else none

/-- The owner that an acquisition in flight is. -/
def SessionLeaseToken.owner? (generation : JsString → Nat) (sessionId : JsString)
    (token : SessionLeaseToken) : Option (JsString × SessionLeaseToken) :=
  if token.generation = generation sessionId then some (sessionId, token) else none

def Task.owner? (generation : JsString → Nat) : Task → Option (JsString × SessionLeaseToken)
  | .acquireSession sessionId token _ => token.owner? generation sessionId
  | _ => none

/-- The lease that a task is to release. -/
def Task.releasing? : Task → Option Nat
  | .release lease _ _ | .releaseFailed lease _ => some lease
  | _ => none

namespace PiClient

variable {c c' : PiClient} {hand : List (JsString × SessionLeaseToken)} {i : Nat}
  {l : SessionLease} {s : JsString} {token : SessionLeaseToken}

/-- Those to whom the sessions are leased. -/
def owners (c : PiClient) : List (JsString × SessionLeaseToken) :=
  c.leases.filterMap (·.owner? c.generation) ++ c.tasks.filterMap (·.owner? c.generation)

structure Inv (hand : List (JsString × SessionLeaseToken)) (c : PiClient) : Prop where
  counted : Counted (fun token : SessionLeaseToken => token.mode = .exclusive)
    c.sessionLeaseCounts c.exclusiveSessionLeases (hand ++ c.owners)
  leases : ∀ l ∈ c.leases, l.generation ≤ c.generation l.sessionId
  tokens : ∀ s token awaited, .acquireSession s token awaited ∈ c.tasks →
    token.generation ≤ c.generation s
  -- handles do not outlive their connection
  live : ∀ l ∈ c.leases, l.live c.generation →
    c.connection = .connected ∧ l.connection = c.sequence
  attached : ∀ s ∈ c.attachedSessionIds, c.connection = .connected
  -- a lease that is being released has one task that does so
  releasing : ∀ i ∈ c.tasks.filterMap Task.releasing?,
    ∃ l, c.leases[i]? = some l ∧ l.state = .releasing
  once : (c.tasks.filterMap Task.releasing?).Nodup

theorem inv_start : Inv [] start where
  counted := counted_empty
  leases := fun _ h => absurd h List.not_mem_nil
  tokens := fun _ _ _ h => absurd h List.not_mem_nil
  live := fun _ h => absurd h List.not_mem_nil
  attached := fun _ h => absurd h List.not_mem_nil
  releasing := fun _ h => absurd h List.not_mem_nil
  once := List.nodup_nil

/-- What the invariant is about. -/
def core (c : PiClient) :=
  (c.connection, c.sequence, c.attachedSessionIds, c.sessionLeaseCounts, c.exclusiveSessionLeases,
    c.sessionLeaseGenerations, c.leases, c.tasks)

theorem Inv.of_core (h : Inv hand c) (hcore : c'.core = c.core) : Inv hand c' := by
  cases c
  cases c'
  simp only [core, Prod.mk.injEq] at hcore
  obtain ⟨rfl, rfl, rfl, rfl, rfl, rfl, rfl, rfl⟩ := hcore
  exact ⟨h.counted, h.leases, h.tokens, h.live, h.attached, h.releasing, h.once⟩

/-! ## Tasks -/

/-- A task goes on: what it owns is in hand. -/
theorem Inv.take (h : Inv [] c) {task : Task} (hmem : task ∈ c.tasks) :
    Inv (task.owner? c.generation).toList { c with tasks := c.tasks.erase task } where
  counted := by
    refine h.counted.perm ?_
    have hsplit := (List.perm_cons_erase hmem).filterMap (·.owner? c.generation)
    refine (hsplit.append_left _).trans ?_
    show List.Perm _ (_ ++ (_ ++ (c.tasks.erase task).filterMap (·.owner? c.generation)))
    cases howner : task.owner? c.generation with
    | none => rw [List.filterMap_cons_none howner]; exact List.Perm.refl _
    | some o => rw [List.filterMap_cons_some howner]; exact List.perm_middle
  leases := h.leases
  tokens := fun s token awaited hm => h.tokens s token awaited (List.mem_of_mem_erase hm)
  live := h.live
  attached := h.attached
  releasing := fun i hi => h.releasing i ((List.erase_sublist.filterMap _).subset hi)
  once := h.once.sublist (List.erase_sublist.filterMap _)

/-- A task waits: it owns what was in hand. -/
theorem Inv.await {task : Task} (h : Inv ((task.owner? c.generation).toList ++ hand) c)
    (htoken : ∀ s token awaited, task = .acquireSession s token awaited →
      token.generation ≤ c.generation s)
    (hreleasing : ∀ i, task.releasing? = some i → i ∉ c.tasks.filterMap Task.releasing? ∧
      ∃ l, c.leases[i]? = some l ∧ l.state = .releasing) :
    Inv hand (c.await task) where
  counted := by
    have howners : (c.await task).owners
        = c.owners ++ [task].filterMap (·.owner? c.generation) := by
      rw [owners, owners, List.append_assoc, ← List.filterMap_append]
      rfl
    have htask : [task].filterMap (·.owner? c.generation) = (task.owner? c.generation).toList := by
      cases howner : task.owner? c.generation with
      | none => exact List.filterMap_cons_none howner
      | some o => exact List.filterMap_cons_some howner
    refine h.counted.perm (List.perm_iff_count.mpr ?_)
    intro o
    rw [howners, htask]
    simp only [List.count_append]
    omega
  leases := h.leases
  tokens := by
    intro s token awaited hmem
    rcases List.mem_append.mp hmem with hmem | hmem
    · exact h.tokens s token awaited hmem
    · exact htoken s token awaited (List.mem_singleton.mp hmem).symm
  live := h.live
  attached := h.attached
  releasing := by
    intro i hi
    rw [show (c.await task).tasks = c.tasks ++ [task] from rfl, List.filterMap_append] at hi
    rcases List.mem_append.mp hi with hi | hi
    · exact h.releasing i hi
    · obtain ⟨t, ht, hrel⟩ := List.mem_filterMap.mp hi
      obtain rfl := List.mem_singleton.mp ht
      exact (hreleasing i hrel).2
  once := by
    show ((c.tasks ++ [task]).filterMap Task.releasing?).Nodup
    rw [List.filterMap_append, List.nodup_append]
    refine ⟨h.once, ?_, ?_⟩
    · cases hrel : task.releasing? with
      | none => rw [List.filterMap_cons_none hrel]; exact List.nodup_nil
      | some i => rw [List.filterMap_cons_some hrel]; exact List.nodup_singleton _
    · intro i hi j hj heq
      obtain ⟨t, ht, hrel⟩ := List.mem_filterMap.mp hj
      obtain rfl := List.mem_singleton.mp ht
      exact (hreleasing j hrel).1 (heq ▸ hi)

/-- A task that owns nothing and releases nothing. -/
theorem Inv.awaitPlain (h : Inv hand c) {task : Task}
    (hplain : ∀ s token awaited, task ≠ .acquireSession s token awaited)
    (hreleasing : task.releasing? = none) : Inv hand (c.await task) := by
  refine Inv.await ?_ (fun s token awaited heq => absurd heq (hplain s token awaited)) ?_
  · cases task with
    | acquireSession s token awaited => exact absurd rfl (hplain s token awaited)
    | _ => exact h
  · intro i hi
    rw [hreleasing] at hi
    cases hi

/-- An acquisition goes on waiting. -/
theorem Inv.awaitAcquire (h : Inv hand c) (hhand : hand = (token.owner? c.generation s).toList)
    (htoken : token.generation ≤ c.generation s) (awaited : Awaited) :
    Inv [] (c.await (.acquireSession s token awaited)) := by
  subst hhand
  refine Inv.await (by rw [List.append_nil]; exact h) ?_ (fun i hi => by cases hi)
  intro s' token' awaited' heq
  cases heq
  exact htoken

/-! ## Counts and marks -/

theorem Inv.reserve (h : Inv hand c) {mode : SessionLeaseMode}
    (hreserve : c.reserveSessionLease s mode = some (token, c')) :
    Inv ((s, token) :: hand) c' ∧ token.generation = c'.generation s ∧
      c'.connection = c.connection ∧ c'.sequence = c.sequence := by
  unfold reserveSessionLease at hreserve
  dsimp only at hreserve
  split at hreserve
  · cases hreserve
  · rename_i hfree
    split at hreserve
    · cases hreserve
    · rename_i hopen
      cases hreserve
      refine ⟨?_, rfl, rfl, rfl⟩
      have hcounted := h.counted.reserve (k := s)
        (t := ⟨c.tokens, mode, c.generation s⟩)
        (fun hex => by
          have hmode : mode = .exclusive := of_decide_eq_true hex
          have hcount : ¬ 0 < countOf c.sessionLeaseCounts s := fun hpos => hfree ⟨hmode, hpos⟩
          omega)
        (fun hex => by
          have hmode : mode = .shared := by
            cases mode with
            | shared => rfl
            | exclusive => exact absurd (decide_eq_true rfl) (by rw [hex]; simp)
          cases hget : c.exclusiveSessionLeases.get? s with
          | none => rfl
          | some t => exact absurd ⟨hmode, by rw [JsMap.has, hget]; rfl⟩ hopen)
      simp only [decide_eq_true_eq] at hcounted
      exact ⟨hcounted, h.leases, h.tokens, h.live, h.attached, h.releasing, h.once⟩

/-- The owner in hand gives its lease back. -/
theorem Inv.giveBack (h : Inv ((s, token) :: hand) c) :
    Inv hand (c.releaseSessionLease s token) where
  counted := h.counted.release
  leases := h.leases
  tokens := h.tokens
  live := h.live
  attached := h.attached
  releasing := h.releasing
  once := h.once

/-- Somebody who owns nothing finds no count. -/
theorem Inv.giveBackNone (h : Inv hand c) (hnone : c.sessionLeaseCounts.get? s = none) :
    Inv hand (c.releaseSessionLease s token) where
  counted := h.counted.release_absent (by rw [countOf, hnone]; rfl)
  leases := h.leases
  tokens := h.tokens
  live := h.live
  attached := h.attached
  releasing := h.releasing
  once := h.once

theorem generation_set (c : PiClient) (s : JsString) (n : Nat) (j : JsString) :
    generation { c with sessionLeaseGenerations := c.sessionLeaseGenerations.set s n } j
      = if s = j then n else c.generation j := by
  show ((c.sessionLeaseGenerations.set s n).get? j).getD 0 = _
  rw [JsMap.get?_set]
  split <;> rfl

theorem generation_invalidate (c : PiClient) (s j : JsString) :
    (c.invalidateSessionLeases s).generation j
      = if s = j then c.generation s + 1 else c.generation j := generation_set c s _ j

theorem generation_le_invalidate (c : PiClient) (s j : JsString) :
    c.generation j ≤ (c.invalidateSessionLeases s).generation j := by
  rw [generation_invalidate]
  split
  · rename_i heq
    rw [heq]
    exact Nat.le_succ _
  · exact Nat.le_refl _

/-- What is of a generation that has been passed is of no later one. -/
theorem eq_invalidate_iff {n : Nat} {j : JsString} (hn : n ≤ c.generation j) (s : JsString) :
    n = (c.invalidateSessionLeases s).generation j ↔ n = c.generation j ∧ j ≠ s := by
  rw [generation_invalidate]
  by_cases heq : s = j
  · subst heq
    rw [if_pos rfl]
    constructor
    · intro hsucc
      omega
    · exact fun hboth => absurd rfl hboth.2
  · rw [if_neg heq]
    exact ⟨fun hsame => ⟨hsame, Ne.symm heq⟩, fun hboth => hboth.1⟩

/-- The owners of a session lose their leases. -/
theorem Inv.owners_invalidate (h : Inv hand c) (s : JsString) :
    (c.invalidateSessionLeases s).owners = c.owners.filter (·.1 ≠ s) := by
  unfold owners
  rw [List.filter_append, List.filter_filterMap, List.filter_filterMap]
  refine congrArg₂ _ (List.filterMap_congr ?_) (List.filterMap_congr ?_)
  · intro l hl
    unfold SessionLease.owner?
    by_cases hlive : l.live c.generation
    · rw [if_pos hlive]
      by_cases heq : l.sessionId = s
      · rw [if_neg]
        · simp [Option.filter, heq]
        · exact fun hnew => ((eq_invalidate_iff (h.leases l hl) s).mp hnew.2).2 heq
      · rw [if_pos ⟨hlive.1, (eq_invalidate_iff (h.leases l hl) s).mpr ⟨hlive.2, heq⟩⟩]
        simp [Option.filter, heq]
    · rw [if_neg hlive, if_neg]
      · rfl
      · exact fun hnew => hlive ⟨hnew.1, ((eq_invalidate_iff (h.leases l hl) s).mp hnew.2).1⟩
  · intro task htask
    cases task with
    | acquireSession j token awaited =>
      have hle := h.tokens j token awaited htask
      show token.owner? _ j = (token.owner? _ j).filter _
      unfold SessionLeaseToken.owner?
      by_cases hcurrent : token.generation = c.generation j
      · rw [if_pos hcurrent]
        by_cases heq : j = s
        · rw [if_neg]
          · simp [Option.filter, heq]
          · exact fun hnew => ((eq_invalidate_iff hle s).mp hnew).2 heq
        · rw [if_pos ((eq_invalidate_iff hle s).mpr ⟨hcurrent, heq⟩)]
          simp [Option.filter, heq]
      · rw [if_neg hcurrent, if_neg]
        · rfl
        · exact fun hnew => hcurrent ((eq_invalidate_iff hle s).mp hnew).1
    | _ => rfl

theorem Inv.invalidate (h : Inv [] c) (s : JsString) : Inv [] (c.invalidateSessionLeases s) where
  counted := by
    rw [h.owners_invalidate s]
    exact h.counted.invalidate s
  leases := fun l hl => (h.leases l hl).trans (generation_le_invalidate c s _)
  tokens := fun j token awaited hmem =>
    (h.tokens j token awaited hmem).trans (generation_le_invalidate c s _)
  live := fun l hl hlive =>
    h.live l hl ⟨hlive.1, ((eq_invalidate_iff (h.leases l hl) s).mp hlive.2).1⟩
  attached := h.attached
  releasing := h.releasing
  once := h.once

theorem Inv.invalidateKeys (h : Inv [] c) (ks : List JsString) :
    Inv [] (ks.foldl invalidateSessionLeases c) ∧
      (ks.foldl invalidateSessionLeases c).owners = c.owners.filter (·.1 ∉ ks) := by
  induction ks generalizing c with
  | nil =>
    refine ⟨h, ?_⟩
    simp
  | cons k ks ih =>
    obtain ⟨hinv, howners⟩ := ih (h.invalidate k)
    refine ⟨hinv, ?_⟩
    rw [List.foldl_cons, howners, h.owners_invalidate k, List.filter_filter]
    refine List.filter_congr ?_
    intro o _
    simp only [List.mem_cons, not_or, ne_eq, Bool.decide_and]
    rw [Bool.and_comm]

/-- Nobody owns anything any more. -/
theorem Inv.invalidateAll (h : Inv [] c) :
    Inv [] c.invalidateAllSessionLeases ∧ c.invalidateAllSessionLeases.owners = [] := by
  obtain ⟨hinv, howners⟩ := h.invalidateKeys c.sessionLeaseCounts.keys
  refine ⟨hinv.of_core rfl, ?_⟩
  show (c.sessionLeaseCounts.keys.foldl invalidateSessionLeases c).owners = []
  rw [howners, List.filter_eq_nil_iff]
  rintro ⟨k, token⟩ hmem
  simpa using h.counted.mem_keys hmem

/-- A live lease is an owner. -/
theorem not_live_of_owners (hnone : c.owners = []) (hl : l ∈ c.leases) : ¬ l.live c.generation := by
  intro hlive
  have hmem : (l.sessionId, l.token) ∈ c.owners :=
    List.mem_append_left _ (List.mem_filterMap.mpr ⟨l, hl, if_pos hlive⟩)
  rw [hnone] at hmem
  cases hmem

/-! ## The connection -/

theorem Inv.setRequests (h : Inv hand c) (requests : List Request) :
    Inv hand { c with requests := requests } := h.of_core rfl

theorem Inv.rejectPending (h : Inv hand c) : Inv hand c.rejectPendingRequests := h.of_core rfl

theorem Inv.reset (h : Inv hand c) : Inv hand { c with attachedSessionIds := [] } where
  counted := h.counted
  leases := h.leases
  tokens := h.tokens
  live := h.live
  attached := fun _ hs => absurd hs List.not_mem_nil
  releasing := h.releasing
  once := h.once

/-- The connection changes, when no handle is alive. -/
theorem Inv.setConnection (h : Inv hand c) (hlive : ∀ l ∈ c.leases, ¬ l.live c.generation)
    (connection : ConnectionState) (sequence : Nat) :
    Inv hand
      { c with connection := connection, sequence := sequence, attachedSessionIds := [] } where
  counted := h.counted
  leases := h.leases
  tokens := h.tokens
  live := fun l hl halive => absurd halive (hlive l hl)
  attached := fun _ hs => absurd hs List.not_mem_nil
  releasing := h.releasing
  once := h.once

/-- Without a connection no handle is alive. -/
theorem Inv.not_live (h : Inv hand c) (hconnection : c.connection ≠ .connected) :
    ∀ l ∈ c.leases, ¬ l.live c.generation :=
  fun l hl halive => hconnection (h.live l hl halive).1

theorem Inv.disconnect (h : Inv [] c) : Inv [] c.disconnect := by
  unfold PiClient.disconnect
  split
  · exact h
  · obtain ⟨hinv, hnone⟩ := h.invalidateAll
    have hset := hinv.setConnection (fun l hl => not_live_of_owners hnone hl) .disconnected
      c.invalidateAllSessionLeases.sequence
    -- which lease is invalidated does not depend on the connection
    have hfold : c.sessionLeaseCounts.keys.foldl invalidateSessionLeases
          { c with connection := .disconnected, attachedSessionIds := [] }
        = { c.sessionLeaseCounts.keys.foldl invalidateSessionLeases c with
            connection := .disconnected, attachedSessionIds := [] } :=
      List.foldl_hom
        (fun c : PiClient => { c with connection := .disconnected, attachedSessionIds := [] })
        (fun _ _ => rfl)
    refine hset.of_core ?_
    rw [rejectPendingRequests, invalidateAllSessionLeases, hfold]
    rfl

theorem Inv.connect (h : Inv [] c) : Inv [] c.connect := by
  unfold PiClient.connect
  split
  · rename_i hcan
    have hset := h.setConnection (h.not_live (by rw [hcan.2]; simp)) .connecting (c.sequence + 1)
    exact hset.of_core rfl
  · exact h

theorem Inv.dispose (h : Inv [] c) : Inv [] c.dispose := by
  unfold PiClient.dispose
  split
  · exact h
  · have hdisposed : Inv [] { c with disposed := true } := h.of_core rfl
    have hreset := hdisposed.rejectPending.disconnect.reset
    have hcleared : Inv [] { { c with disposed := true }.rejectPendingRequests.disconnect with
        attachedSessionIds := [], sessionSnapshots := .empty } := hreset.of_core rfl
    exact hcleared.invalidateAll.1

/-! ## Messages -/

theorem Inv.setAttached (h : Inv hand c) (hconnection : c.connection = .connected)
    (attached : List JsString) : Inv hand { c with attachedSessionIds := attached } where
  counted := h.counted
  leases := h.leases
  tokens := h.tokens
  live := h.live
  attached := fun _ _ => hconnection
  releasing := h.releasing
  once := h.once

theorem Inv.applySessionSnapshot (h : Inv hand c) (hconnection : c.connection = .connected)
    (snapshot : SessionSnapshot) (force : Bool) :
    Inv hand (c.applySessionSnapshot snapshot force) := by
  unfold PiClient.applySessionSnapshot
  dsimp only
  split
  · exact h
  · exact (h.setAttached hconnection _).of_core rfl

theorem Inv.applyResult (h : Inv hand c) (hconnection : c.connection = .connected)
    (result : CommandResult) : Inv hand (c.applyResult result) := by
  cases result with
  | list => exact h
  | detach sessionId =>
    have hset := h.setAttached hconnection (c.attachedSessionIds.filter (· ≠ sessionId))
    dsimp only [PiClient.applyResult]
    split
    · exact hset.applySessionSnapshot hconnection _ true
    · exact hset
  | session command session => exact h.applySessionSnapshot hconnection session false

theorem Inv.handleMessage (h : Inv [] c) (message : ServerMessage) :
    Inv [] (c.handleMessage message) := by
  unfold PiClient.handleMessage
  split
  · exact h
  · rename_i hconnection
    have hset := h.setConnection (h.not_live (by rw [hconnection]; simp)) .connected c.sequence
    exact {
      counted := hset.counted
      leases := hset.leases
      tokens := hset.tokens
      live := hset.live
      attached := fun _ _ => rfl
      releasing := hset.releasing
      once := hset.once }
  · exact h
  · rename_i snapshot hconnection
    exact h.applySessionSnapshot hconnection snapshot false
  · rename_i sessionId hconnection
    have hset := (h.invalidate sessionId).setAttached hconnection
      (c.attachedSessionIds.filter (· ≠ sessionId))
    exact hset.of_core rfl
  · rename_i id result hconnection
    split
    · rename_i command connection _
      dsimp only
      split
      · exact h.setRequests _
      · rename_i result
        split
        · exact (h.setRequests _).disconnect
        · have hset := h.setRequests (c.requests.set id ⟨command, connection, .resolved result⟩)
          exact hset.applyResult hconnection result
    · exact h.disconnect
  · exact h.disconnect

/-! ## Leases -/

theorem generation_set_self (c : PiClient) (s : JsString) :
    generation { c with
      sessionLeaseGenerations := c.sessionLeaseGenerations.set s (c.generation s) } =
        c.generation := by
  funext j
  rw [generation_set]
  split
  · rename_i heq
    rw [heq]
  · rfl

/-- The owner in hand gets a handle. -/
theorem Inv.createSessionLease (h : Inv ((s, token) :: hand) c) {connection : Nat}
    (hconnection : c.connection = .connected ∧ connection = c.sequence) :
    Inv hand (c.createSessionLease s token connection) := by
  have hgeneration : (c.createSessionLease s token connection).generation = c.generation :=
    generation_set_self c s
  refine ⟨?_, ?_, ?_, ?_, h.attached, ?_, h.once⟩
  · have hnew : SessionLease.owner? c.generation ⟨s, token, c.generation s, .active, connection⟩
        = some (s, token) := if_pos ⟨by simp, rfl⟩
    have howners : (c.createSessionLease s token connection).owners
        = c.leases.filterMap (·.owner? c.generation) ++ [(s, token)]
          ++ c.tasks.filterMap (·.owner? c.generation) := by
      rw [owners, hgeneration, PiClient.createSessionLease, List.filterMap_append,
        List.filterMap_cons_some hnew]
      rfl
    refine h.counted.perm (List.perm_iff_count.mpr ?_)
    intro o
    rw [howners, owners]
    simp only [List.count_append, List.cons_append, List.count_cons, List.count_nil]
    omega
  · rw [hgeneration]
    intro l hl
    rcases List.mem_append.mp hl with hl | hl
    · exact h.leases l hl
    · rw [List.mem_singleton.mp hl]
  · rw [hgeneration]
    exact h.tokens
  · rw [hgeneration]
    intro l hl hlive
    rcases List.mem_append.mp hl with hl | hl
    · exact h.live l hl hlive
    · rw [List.mem_singleton.mp hl]
      exact hconnection
  · intro i hi
    obtain ⟨l, hl, hreleasing⟩ := h.releasing i hi
    refine ⟨l, ?_, hreleasing⟩
    show (c.leases ++ [_])[i]? = some l
    rw [List.getElem?_append_left (List.getElem?_eq_some_iff.mp hl).1]
    exact hl

/-- The list around the lease of a number. -/
theorem leases_around (hl : c.leases[i]? = some l) (state : SessionLeaseState) :
    ∃ as bs, c.leases = as ++ l :: bs ∧
      (c.setLease i state).leases = as ++ { l with state := state } :: bs := by
  obtain ⟨hlt, hget⟩ := List.getElem?_eq_some_iff.mp hl
  obtain ⟨as, l', bs, hsplit, hlength, hmodify⟩ :=
    List.exists_of_modify (fun l : SessionLease => { l with state := state }) hlt
  have hl' : l' = l := by
    subst hlength
    simp only [hsplit, List.getElem_append_right (Nat.le_refl _), Nat.sub_self,
      List.getElem_cons_zero] at hget
    exact hget
  subst hl'
  exact ⟨as, bs, hsplit, hmodify⟩

theorem filterMap_around {α β : Type} (f : α → Option β) (as bs : List α) (a : α) :
    (as ++ a :: bs).filterMap f = as.filterMap f ++ ((f a).toList ++ bs.filterMap f) := by
  rw [List.filterMap_append]
  cases hf : f a with
  | none => rw [List.filterMap_cons_none hf]; rfl
  | some b => rw [List.filterMap_cons_some hf]; rfl

/-- The state of a lease changes that no task releases. -/
theorem Inv.setLease (h : Inv hand c) (hl : c.leases[i]? = some l)
    (hfree : i ∉ c.tasks.filterMap Task.releasing?) {state : SessionLeaseState}
    {hand' : List (JsString × SessionLeaseToken)}
    (halive : state ≠ .released → l.state ≠ .released)
    (hhand : (hand ++ (l.owner? c.generation).toList).Perm
      (hand' ++ (SessionLease.owner? c.generation { l with state := state }).toList)) :
    Inv hand' (c.setLease i state) := by
  obtain ⟨as, bs, hsplit, hset⟩ := leases_around hl state
  have hmem : l ∈ c.leases := List.mem_of_getElem? hl
  have hcases : ∀ l' ∈ (c.setLease i state).leases, l' = { l with state := state } ∨
    l' ∈ c.leases := by
    intro l' hl'
    rw [hset] at hl'
    rw [hsplit]
    rcases List.mem_append.mp hl' with hl' | hl'
    · exact .inr (List.mem_append_left _ hl')
    · rcases List.mem_cons.mp hl' with heq | hl'
      · exact .inl heq
      · exact .inr (List.mem_append_right _ (List.mem_cons_of_mem _ hl'))
  refine ⟨?_, ?_, h.tokens, ?_, h.attached, ?_, h.once⟩
  · have howners : (c.setLease i state).owners
        = (c.setLease i state).leases.filterMap (·.owner? c.generation)
          ++ c.tasks.filterMap (·.owner? c.generation) := rfl
    refine h.counted.perm (List.perm_iff_count.mpr ?_)
    intro o
    have hcount := hhand.count_eq o
    rw [howners, owners, hset, hsplit, filterMap_around, filterMap_around]
    simp only [List.count_append] at hcount ⊢
    omega
  · intro l' hl'
    rcases hcases l' hl' with rfl | hl'
    · exact h.leases l hmem
    · exact h.leases l' hl'
  · intro l' hl' hlive
    rcases hcases l' hl' with rfl | hl'
    · exact h.live l hmem ⟨halive hlive.1, hlive.2⟩
    · exact h.live l' hl' hlive
  · intro j hj
    obtain ⟨l', hl', hreleasing⟩ := h.releasing j hj
    refine ⟨l', ?_, hreleasing⟩
    have hne : i ≠ j := by
      rintro rfl
      exact hfree hj
    show (c.leases.modify i _)[j]? = some l'
    rw [List.getElem?_modify_ne _ _ hne]
    exact hl'

/-- The owner of a live lease keeps it. -/
theorem Inv.keepLease (h : Inv hand c) (hl : c.leases[i]? = some l)
    (hfree : i ∉ c.tasks.filterMap Task.releasing?) {state : SessionLeaseState}
    (hold : l.state ≠ .released) (hnew : state ≠ .released) : Inv hand (c.setLease i state) := by
  refine h.setLease hl hfree (fun _ => hold) ?_
  have hsame : SessionLease.owner? c.generation { l with state := state }
      = l.owner? c.generation := by
    unfold SessionLease.owner? SessionLease.live
    simp only [hold, hnew, ne_eq, not_false_eq_true, true_and]
  rw [hsame]

/-- A lease is released: its owner, if it has one, is in hand. -/
theorem Inv.dropLease (h : Inv hand c) (hl : c.leases[i]? = some l)
    (hfree : i ∉ c.tasks.filterMap Task.releasing?) :
    Inv ((l.owner? c.generation).toList ++ hand) (c.setLease i .released) := by
  refine h.setLease hl hfree (fun hne => absurd rfl hne) ?_
  have hnone : SessionLease.owner? c.generation { l with state := .released } = none :=
    if_neg fun hlive => hlive.1 rfl
  rw [hnone]
  exact List.perm_append_comm.trans (by simp)

/-! ## Acquisitions -/

theorem Inv.request (h : Inv hand c) (command : CommandName) : Inv hand (c.request command) :=
  h.of_core rfl

theorem Inv.attachSession (h : Inv hand c) (s : JsString) : Inv hand (c.attachSession s) := by
  have hadded : Inv hand { c with
      sessionSnapshots := c.sessionSnapshots.delete s
      attachments := c.attachments ++
        [⟨s, c.sessionSnapshots.get? s, c.requests.length, none⟩] } := h.of_core rfl
  exact (hadded.request .attach).awaitPlain (fun _ _ _ heq => by cases heq) rfl

theorem owner?_current (hcurrent : token.generation = c.generation s) :
    token.owner? c.generation s = some (s, token) := if_pos hcurrent

theorem Inv.acquireAttached (h : Inv (token.owner? c.generation s).toList c)
    (htoken : token.generation ≤ c.generation s) {reconciled : Bool}
    (hissue : reconciled = false → s ∈ c.attachedSessionIds → token.generation = c.generation s) :
    Inv [] (c.acquireAttached s token reconciled) := by
  unfold PiClient.acquireAttached
  split
  · split
    · exact h.awaitAcquire rfl htoken _
    · have hset : Inv _ { c.attachSession s with
          sessionAttachments :=
            (c.attachSession s).sessionAttachments.set s c.attachments.length } :=
        (h.attachSession s).of_core rfl
      exact hset.awaitAcquire rfl htoken _
  · rename_i hattached
    have hreconciled : reconciled = false := by simpa using fun heq => hattached (.inl heq)
    have hmem : s ∈ c.attachedSessionIds := by_contra fun hnot => hattached (.inr hnot)
    rw [owner?_current (hissue hreconciled hmem)] at h
    exact h.createSessionLease ⟨h.attached s hmem, rfl⟩

theorem Inv.acquireReconciled (h : Inv (token.owner? c.generation s).toList c)
    (htoken : token.generation ≤ c.generation s)
    (hissue : s ∉ c.sessionCleanupRequired → s ∈ c.attachedSessionIds →
      token.generation = c.generation s) :
    Inv [] (c.acquireReconciled s token) := by
  unfold PiClient.acquireReconciled
  split
  · split
    · exact h.awaitAcquire rfl htoken _
    · have hadded : Inv (token.owner? c.generation s).toList { c with
          reconciliations := c.reconciliations ++ [⟨s, c.requests.length, none⟩]
          sessionReconciliations := c.sessionReconciliations.set s c.reconciliations.length } :=
        h.of_core rfl
      have hplain : ∀ s token awaited,
          Task.reconcile c.reconciliations.length ≠ .acquireSession s token awaited :=
        fun _ _ _ heq => by cases heq
      have hawaited := (hadded.request .detach).awaitPlain hplain rfl
      exact hawaited.awaitAcquire rfl htoken _
  · rename_i hcleanup
    exact h.acquireAttached htoken fun _ => hissue hcleanup

theorem Inv.acquireSession (h : Inv [] c) (s : JsString) (mode : SessionLeaseMode) :
    Inv [] (c.acquireSession s mode) := by
  unfold PiClient.acquireSession
  split
  · exact h
  · split
    · exact h
    · rename_i token c' hreserve
      obtain ⟨hinv, hcurrent, -, -⟩ := h.reserve hreserve
      have hhand : Inv (token.owner? c'.generation s).toList c' := by
        rw [owner?_current hcurrent]
        exact hinv
      split
      · exact hhand.awaitAcquire rfl hcurrent.le _
      · exact hhand.acquireReconciled hcurrent.le fun _ _ => hcurrent

/-! ## Releases -/

theorem Inv.release (h : Inv [] c) (hl : c.leases[i]? = some l) (relinquishOnFailure : Bool) :
    Inv [] (c.release i l relinquishOnFailure) := by
  unfold PiClient.release
  split
  · exact h
  · rename_i hactive
    have hstate : l.state = .active := by_contra fun hne => hactive (.inl hne)
    have hgeneration : l.generation = c.generation l.sessionId :=
      by_contra fun hne => hactive (.inr hne)
    -- a lease that is being released is not active
    have hfree : i ∉ c.tasks.filterMap Task.releasing? := by
      intro hi
      obtain ⟨l', hl', hreleasing⟩ := h.releasing i hi
      obtain rfl := Option.some.inj (hl.symm.trans hl')
      rw [hstate] at hreleasing
      cases hreleasing
    split
    · exact h
    · split
      · have hnew : SessionLeaseState.releasing ≠ .released := by simp
        have hkept := h.keepLease hl hfree (by rw [hstate]; simp) hnew
        have hset : Inv _ { (c.setLease i .releasing).request .detach with
            sessionDetachments := c.sessionDetachments.set l.sessionId c.requests.length } :=
          hkept.of_core rfl
        refine Inv.await hset (fun _ _ _ heq => by cases heq) ?_
        intro j hj
        obtain rfl := Option.some.inj hj
        refine ⟨hfree, { l with state := .releasing }, ?_, rfl⟩
        show (c.leases.modify i _)[i]? = _
        rw [List.getElem?_modify_eq, hl]
        rfl
      · have hdropped := h.dropLease hl hfree
        have howner : l.owner? c.generation = some (l.sessionId, l.token) :=
          if_pos ⟨by rw [hstate]; simp, hgeneration⟩
        rw [howner] at hdropped
        exact hdropped.giveBack.of_core rfl

/-! ## Tasks that go on -/

/-- The handle that a task would issue: its session, the generation of the reservation, and
the connection whose answer it rests on. -/
def issues? (c : PiClient) : Task → Option (JsString × Nat × Nat)
  | .createSession request =>
    match c.requests[request]? with
    | some ⟨_, connection, .resolved (.session _ session)⟩ =>
      (c.reserveSessionLease session.id .exclusive).map fun _ =>
        (session.id, c.generation session.id, connection)
    | _ => none
  | .acquireSession s token (.detachment _) =>
    if s ∉ c.sessionCleanupRequired ∧ s ∈ c.attachedSessionIds then
      some (s, token.generation, c.sequence)
    else none
  | .acquireSession s token (.attachment k) =>
    match c.attachments[k]? with
    | some attachment =>
      if attachment.ok = some true then some (s, token.generation, c.connectionOf attachment)
      else none
    | none => none
  | _ => none

/-- The lease that a task would release without a look at its generation: its session, and
the generation. -/
def releases? (c : PiClient) : Task → Option (JsString × Nat)
  | .acquireSession s token (.reconciliation k) =>
    if (c.reconciliations[k]?).bind Reconciliation.ok = some false then
      some (s, token.generation)
    else none
  | .acquireSession s token (.attachment k) =>
    if (c.attachments[k]?).bind Attachment.ok = some false then some (s, token.generation)
    else none
  | .release i _ request =>
    match c.leases[i]?, c.settled request with
    | some l, some true => some (l.sessionId, l.generation)
    | _, _ => none
  | _ => none

/-- The lease of a task has not been invalidated: it issues a handle while the reservation
is of the current generation and the connection is still there, and gives back a lease of
the current generation, or where there is no count. -/
def Current (c : PiClient) (task : Task) : Prop :=
  (∀ lease ∈ c.issues? task, lease.2.1 = c.generation lease.1 ∧ c.connection = .connected ∧
    lease.2.2 = c.sequence) ∧
  ∀ lease ∈ c.releases? task, lease.2 = c.generation lease.1 ∨
    c.sessionLeaseCounts.get? lease.1 = none

theorem issues?_tasks (c : PiClient) (tasks : List Task) (task : Task) :
    issues? { c with tasks := tasks } task = c.issues? task := by
  cases task with
  | createSession request =>
    dsimp only [issues?]
    split
    · dsimp only [reserveSessionLease]
      split
      · rfl
      · split
        · rfl
        · rfl
    · rfl
  | acquireSession s token awaited =>
    cases awaited with
    | _ => rfl
  | _ => rfl

/-- Which tasks there are makes no difference. -/
theorem Current.of_tasks {task : Task} (h : c.Current task) (tasks : List Task) :
    Current { c with tasks := tasks } task := by
  refine ⟨?_, h.2⟩
  rw [issues?_tasks]
  exact h.1

/-- A step in which no task goes on with a lease that has been invalidated. -/
def Orderly (c : PiClient) : Action → Prop
  | .resume task => c.Current task
  | _ => True

/-- An acquisition fails. -/
theorem Inv.giveBackAcquired (h : Inv hand c) (hhand : hand = (token.owner? c.generation s).toList)
    (hcurrent : token.generation = c.generation s ∨ c.sessionLeaseCounts.get? s = none) :
    Inv [] (c.releaseSessionLease s token) := by
  subst hhand
  by_cases hgeneration : token.generation = c.generation s
  · rw [owner?_current hgeneration] at h
    exact h.giveBack
  · rw [SessionLeaseToken.owner?, if_neg hgeneration] at h
    exact h.giveBackNone (hcurrent.resolve_left hgeneration)

theorem forgetAttachment_eq (c : PiClient) (s : JsString) (k : Nat) :
    ∃ attachments, c.forgetAttachment s k = { c with sessionAttachments := attachments } := by
  unfold PiClient.forgetAttachment
  split
  · exact ⟨_, rfl⟩
  · exact ⟨c.sessionAttachments, rfl⟩

theorem forgetDetachment_eq (c : PiClient) (s : JsString) (request : Nat) :
    ∃ detachments, c.forgetDetachment s request = { c with sessionDetachments := detachments } := by
  unfold PiClient.forgetDetachment
  split
  · exact ⟨_, rfl⟩
  · exact ⟨c.sessionDetachments, rfl⟩

theorem Inv.continueAcquire {awaited : Awaited} (h : Inv hand c)
    (hhand : hand = (token.owner? c.generation s).toList)
    (htoken : token.generation ≤ c.generation s)
    (hcurrent : c.Current (.acquireSession s token awaited))
    (hs : c.continueTask (.acquireSession s token awaited) = some c') : Inv [] c' := by
  obtain ⟨hissues, hreleases⟩ := hcurrent
  subst hhand
  cases awaited with
  | detachment request =>
    obtain ⟨_, -, hs⟩ := Option.bind_eq_some_iff.mp hs
    cases hs
    refine h.acquireReconciled htoken ?_
    intro hcleanup hattached
    exact (hissues _ (if_pos ⟨hcleanup, hattached⟩)).1
  | reconciliation k =>
    obtain ⟨reconciliation, hk, hs⟩ := Option.bind_eq_some_iff.mp hs
    obtain ⟨ok, hok, hs⟩ := Option.bind_eq_some_iff.mp hs
    cases hs
    split
    · exact h.acquireAttached htoken fun heq => by cases heq
    · rename_i hfailed
      refine h.giveBackAcquired rfl (hreleases _ (if_pos ?_))
      rw [hk, Option.bind_some, hok]
      simpa using hfailed
  | attachment k =>
    obtain ⟨attachment, hk, hs⟩ := Option.bind_eq_some_iff.mp hs
    obtain ⟨ok, hok, hs⟩ := Option.bind_eq_some_iff.mp hs
    obtain ⟨attachments, hforget⟩ := forgetAttachment_eq c s k
    have hforgotten : Inv _ { c with sessionAttachments := attachments } := h.of_core rfl
    dsimp only at hs
    rw [hforget] at hs
    cases hs
    split
    · rename_i hdone
      have hissued := hissues (s, token.generation, c.connectionOf attachment) (by
        rw [issues?, hk]
        exact if_pos (by rw [hok, hdone]))
      rw [owner?_current hissued.1] at hforgotten
      exact hforgotten.createSessionLease hissued.2
    · rename_i hfailed
      refine hforgotten.giveBackAcquired rfl (hreleases _ (if_pos ?_))
      rw [hk, Option.bind_some, hok]
      simpa using hfailed

theorem Inv.continueCreate {request : Nat} (h : Inv [] c)
    (hcurrent : c.Current (.createSession request))
    (hs : c.continueTask (.createSession request) = some c') : Inv [] c' := by
  obtain ⟨hissues, -⟩ := hcurrent
  dsimp only [continueTask] at hs
  split at hs
  · rename_i command connection command' session hrequest
    split at hs
    · rename_i token c₁ hreserve
      cases hs
      obtain ⟨hinv, -, hconnection, hsequence⟩ := h.reserve hreserve
      have hissued := hissues (session.id, c.generation session.id, connection) (by
        rw [issues?, hrequest]
        dsimp only
        rw [hreserve]
        rfl)
      exact hinv.createSessionLease (by rw [hconnection, hsequence]; exact hissued.2)
    · cases hs
      exact h
  · cases hs
  · cases hs
  · cases hs
    exact h

theorem Inv.continueRelease {relinquishOnFailure : Bool} {request : Nat} (h : Inv [] c)
    (hfree : i ∉ c.tasks.filterMap Task.releasing?)
    (hreleasing : ∃ l, c.leases[i]? = some l ∧ l.state = .releasing)
    (hcurrent : c.Current (.release i relinquishOnFailure request))
    (hs : c.continueTask (.release i relinquishOnFailure request) = some c') : Inv [] c' := by
  obtain ⟨-, hreleases⟩ := hcurrent
  obtain ⟨l, hl, hs⟩ := Option.bind_eq_some_iff.mp hs
  obtain ⟨ok, hok, hs⟩ := Option.bind_eq_some_iff.mp hs
  split at hs
  · rename_i hdone
    cases hs
    have hrelease : l.generation = c.generation l.sessionId ∨
        c.sessionLeaseCounts.get? l.sessionId = none := by
      refine hreleases (l.sessionId, l.generation) ?_
      rw [releases?, hl, hok, hdone]
      rfl
    have hdropped := h.dropLease hl hfree
    rw [List.append_nil] at hdropped
    have hreleased : Inv [] ((c.setLease i .released).releaseSessionLease l.sessionId l.token) := by
      unfold SessionLease.owner? at hdropped
      split at hdropped
      · exact hdropped.giveBack
      · rename_i hdead
        refine hdropped.giveBackNone (hrelease.resolve_left fun hgeneration => ?_)
        obtain ⟨l', hl', hstate⟩ := hreleasing
        obtain rfl := Option.some.inj (hl.symm.trans hl')
        exact hdead ⟨by rw [hstate]; simp, hgeneration⟩
    obtain ⟨detachments, hforget⟩ :=
      forgetDetachment_eq (c.releaseSessionLease l.sessionId l.token) l.sessionId request
    rw [hforget]
    exact hreleased.of_core rfl
  · cases hs
    obtain ⟨detachments, hforget⟩ := forgetDetachment_eq c l.sessionId request
    have hforgotten : Inv [] { c with sessionDetachments := detachments } := h.of_core rfl
    rw [hforget]
    refine Inv.await hforgotten (fun _ _ _ heq => by cases heq) ?_
    intro j hj
    obtain rfl := Option.some.inj hj
    exact ⟨hfree, hreleasing⟩

theorem Inv.continueReleaseFailed {relinquishOnFailure : Bool} (h : Inv [] c)
    (hfree : i ∉ c.tasks.filterMap Task.releasing?)
    (hreleasing : ∃ l, c.leases[i]? = some l ∧ l.state = .releasing)
    (hs : c.continueTask (.releaseFailed i relinquishOnFailure) = some c') : Inv [] c' := by
  obtain ⟨l, hl, hs⟩ := Option.bind_eq_some_iff.mp hs
  obtain ⟨l', hl', hstate⟩ := hreleasing
  obtain rfl := Option.some.inj (hl.symm.trans hl')
  have hold : l.state ≠ .released := by
    rw [hstate]
    simp
  split at hs
  · cases hs
    exact h
  · rename_i hgeneration
    split at hs
    · cases hs
      have hdropped := h.dropLease hl hfree
      have howner : l.owner? c.generation = some (l.sessionId, l.token) :=
        if_pos ⟨hold, not_not.mp hgeneration⟩
      rw [howner] at hdropped
      exact hdropped.giveBack.of_core rfl
    · cases hs
      exact h.keepLease hl hfree hold (by simp)

/-- Tasks that hold no lease. -/
theorem Inv.continueOther {task : Task} (h : Inv [] c)
    (hother : (∃ k, task = .attachSession k) ∨ (∃ k, task = .reconcile k) ∨
      ∃ k ok, task = .reconciled k ok)
    (hs : c.continueTask task = some c') : Inv [] c' := by
  rcases hother with ⟨k, rfl⟩ | ⟨k, rfl⟩ | ⟨k, ok, rfl⟩
  · obtain ⟨attachment, -, hs⟩ := Option.bind_eq_some_iff.mp hs
    obtain ⟨ok, -, hs⟩ := Option.bind_eq_some_iff.mp hs
    dsimp only at hs
    split at hs
    · cases hs
      unfold restoreSessionSnapshot
      split
      · exact h.of_core rfl
      · exact h.of_core rfl
    · cases hs
      exact h.of_core rfl
  · obtain ⟨reconciliation, -, hs⟩ := Option.bind_eq_some_iff.mp hs
    obtain ⟨ok, -, hs⟩ := Option.bind_eq_some_iff.mp hs
    cases hs
    refine Inv.awaitPlain ?_ (fun _ _ _ heq => by cases heq) rfl
    exact h.of_core rfl
  · obtain ⟨reconciliation, -, hs⟩ := Option.bind_eq_some_iff.mp hs
    cases hs
    exact h.of_core rfl

/-- The tasks that release a lease are apart. -/
theorem Inv.not_releasing_erase (h : Inv hand c) {task : Task} (hmem : task ∈ c.tasks)
    (hreleasing : task.releasing? = some i) :
    i ∉ (c.tasks.erase task).filterMap Task.releasing? := by
  have hperm := (List.perm_cons_erase hmem).filterMap Task.releasing?
  rw [List.filterMap_cons_some hreleasing] at hperm
  exact (List.nodup_cons.mp (hperm.nodup_iff.mp h.once)).1

theorem Inv.resume (h : Inv [] c) {task : Task} (hmem : task ∈ c.tasks) (hcurrent : c.Current task)
    (hs : { c with tasks := c.tasks.erase task }.continueTask task = some c') : Inv [] c' := by
  have htaken := h.take hmem
  have hcurrent' := hcurrent.of_tasks (c.tasks.erase task)
  have hreleasing : ∀ i, task.releasing? = some i →
      ∃ l, c.leases[i]? = some l ∧ l.state = .releasing := fun i hi =>
    h.releasing i (List.mem_filterMap.mpr ⟨task, hmem, hi⟩)
  cases task with
  | createSession request => exact htaken.continueCreate hcurrent' hs
  | acquireSession s token awaited =>
    exact htaken.continueAcquire rfl (h.tokens s token awaited hmem) hcurrent' hs
  | attachSession k => exact htaken.continueOther (.inl ⟨k, rfl⟩) hs
  | reconcile k => exact htaken.continueOther (.inr (.inl ⟨k, rfl⟩)) hs
  | reconciled k ok => exact htaken.continueOther (.inr (.inr ⟨k, ok, rfl⟩)) hs
  | release i relinquishOnFailure request =>
    exact htaken.continueRelease (h.not_releasing_erase hmem rfl) (hreleasing i rfl) hcurrent' hs
  | releaseFailed i relinquishOnFailure =>
    exact htaken.continueReleaseFailed (h.not_releasing_erase hmem rfl) (hreleasing i rfl) hs

theorem inv_step {a : Action} (h : Inv [] c) (horderly : c.Orderly a) (hs : c.step a = some c') :
    Inv [] c' := by
  cases a with
  | createSession =>
    exact Option.some.inj hs ▸ (h.request .create).awaitPlain (fun _ _ _ heq => by cases heq) rfl
  | acquireSession s mode => exact Option.some.inj hs ▸ h.acquireSession s mode
  | release i relinquishOnFailure =>
    obtain ⟨l, hl, hs⟩ := Option.bind_eq_some_iff.mp hs
    exact Option.some.inj hs ▸ h.release hl relinquishOnFailure
  | request command => exact Option.some.inj hs ▸ h.request command
  | connect => exact Option.some.inj hs ▸ h.connect
  | disconnect => exact Option.some.inj hs ▸ h.disconnect
  | dispose => exact Option.some.inj hs ▸ h.dispose
  | message message => exact Option.some.inj hs ▸ h.handleMessage message
  | resume task =>
    dsimp only [step] at hs
    split at hs
    · rename_i hmem
      exact h.resume hmem horderly hs
    · cases hs

theorem inv_of_reachable (h : Reachable Orderly c) : Inv [] c := by
  induction h with
  | start => exact inv_start
  | step _ horderly hs ih => exact inv_step ih horderly hs

/-! ## Main result -/

/-- `isActive` of a handle -/
def Active (c : PiClient) (l : SessionLease) : Prop :=
  l.state = .active ∧ l.generation = c.generation l.sessionId ∧ l.sessionId ∈ c.attachedSessionIds

instance (c : PiClient) (l : SessionLease) : Decidable (c.Active l) :=
  inferInstanceAs (Decidable (_ ∧ _ ∧ _))

/-- The task is an acquisition of a session, whose reservation stands. -/
def inFlight (c : PiClient) (s : JsString) : Task → Bool
  | .acquireSession s' token _ => s' = s ∧ token.generation = c.generation s
  | _ => false

theorem Active.live (h : c.Active l) : l.live c.generation := ⟨by rw [h.1]; simp, h.2.1⟩

/-- The owners of a session are its handles and the acquisitions in flight. -/
theorem countP_owners (c : PiClient) (s : JsString) : c.owners.countP (·.1 = s)
    = c.leases.countP (fun l => l.live c.generation ∧ l.sessionId = s)
      + c.tasks.countP (c.inFlight s) := by
  rw [owners, List.countP_append, List.countP_filterMap, List.countP_filterMap]
  congr 1
  · refine List.countP_congr ?_
    intro l _
    unfold SessionLease.owner?
    by_cases hlive : l.live c.generation
    · simp [hlive]
    · simp [hlive]
  · refine List.countP_congr ?_
    intro task _
    cases task with
    | acquireSession s' token awaited =>
      show ((token.owner? c.generation s').map fun o => decide (o.1 = s)).getD false = true ↔
        decide (s' = s ∧ token.generation = c.generation s) = true
      unfold SessionLeaseToken.owner?
      by_cases hcurrent : token.generation = c.generation s'
      · rw [if_pos hcurrent]
        simp only [Option.map_some, Option.getD_some, decide_eq_true_eq]
        exact ⟨fun heq => ⟨heq, heq ▸ hcurrent⟩, fun hboth => hboth.1⟩
      · rw [if_neg hcurrent]
        simp only [Option.map_none, Option.getD_none, Bool.false_eq_true,
          decide_eq_true_eq, false_iff]
        rintro ⟨rfl, hgeneration⟩
        exact hcurrent hgeneration
    | _ => exact Iff.rfl

/-- What one of a list at most fulfills, one place fulfills. -/
theorem eq_of_countP_le_one {α : Type} {p : α → Bool} {xs : List α} (h : xs.countP p ≤ 1)
    {i j : Nat} {a b : α} (hi : xs[i]? = some a) (hj : xs[j]? = some b) (ha : p a = true)
    (hb : p b = true) : i = j := by
  induction xs generalizing i j with
  | nil => cases hi
  | cons x xs ih =>
    rw [List.countP_cons] at h
    have hrest : ∀ {k : Nat} {d : α}, xs[k]? = some d → p d = true → 0 < xs.countP p := by
      intro k d hk hd
      exact List.countP_pos_iff.mpr ⟨d, List.mem_of_getElem? hk, hd⟩
    cases i with
    | zero =>
      obtain rfl := Option.some.inj hi
      cases j with
      | zero => rfl
      | succ j =>
        have hpos := hrest hj hb
        rw [if_pos ha] at h
        omega
    | succ i =>
      cases j with
      | zero =>
        obtain rfl := Option.some.inj hj
        have hpos := hrest hi ha
        rw [if_pos hb] at h
        omega
      | succ j => rw [ih (by omega) hi hj]

/-- Where no task goes on with a lease that has been invalidated: an active handle that is
exclusive is the only active one, the counts are those of the handles and of the
acquisitions in flight, and active handles are of the connection there is. -/
theorem leases_counted (h : Reachable Orderly c) :
    (∀ (i j : Nat) (l l' : SessionLease), c.leases[i]? = some l → c.leases[j]? = some l' →
      c.Active l → c.Active l' → l.token.mode = .exclusive → l'.sessionId = l.sessionId → i = j) ∧
    (∀ s, countOf c.sessionLeaseCounts s
      = c.leases.countP (fun l => l.live c.generation ∧ l.sessionId = s)
        + c.tasks.countP (c.inFlight s)) ∧
    (∀ l ∈ c.leases, c.Active l → c.connection = .connected ∧ l.connection = c.sequence) := by
  have hinv := inv_of_reachable h
  have hcount : ∀ s, countOf c.sessionLeaseCounts s
      = c.leases.countP (fun l => l.live c.generation ∧ l.sessionId = s)
        + c.tasks.countP (c.inFlight s) := fun s =>
    (hinv.counted.count s).trans (countP_owners c s)
  refine ⟨?_, hcount, fun l hl hactive => hinv.live l hl hactive.live⟩
  intro i j l l' hi hj hl hl' hex hsession
  have howner : (l.sessionId, l.token) ∈ c.owners :=
    List.mem_append_left _ (List.mem_filterMap.mpr ⟨l, List.mem_of_getElem? hi, if_pos hl.live⟩)
  have hone : countOf c.sessionLeaseCounts l.sessionId = 1 :=
    (hinv.counted.alone _ _ (hinv.counted.marked _ _ howner (decide_eq_true hex))).1
  rw [hcount] at hone
  refine eq_of_countP_le_one (Nat.le_of_add_right_le hone.le) hi hj ?_ ?_
  · exact decide_eq_true ⟨hl.live, rfl⟩
  · exact decide_eq_true ⟨hl'.live, hsession⟩

instance (c : PiClient) (task : Task) : Decidable (c.Current task) :=
  inferInstanceAs (Decidable ((∀ _ ∈ c.issues? task, _) ∧ ∀ _ ∈ c.releases? task, _))

instance (c : PiClient) : (a : Action) → Decidable (c.Orderly a)
  | .resume task => inferInstanceAs (Decidable (c.Current task))
  | .createSession | .acquireSession _ _ | .release _ _ | .request _ | .connect | .disconnect
  | .dispose | .message _ => isTrue trivial

/-- The state that steps lead to, each of which `safe` allows. -/
def run (safe : PiClient → Action → Prop) [∀ c a, Decidable (safe c a)] (c : PiClient)
    (as : List Action) : Option PiClient :=
  as.foldlM (fun c a => if safe c a then c.step a else none) c

theorem Reachable.run {safe : PiClient → Action → Prop} [∀ c a, Decidable (safe c a)]
    (as : List Action) (h : Reachable safe c) (hrun : c.run safe as = some c') :
    Reachable safe c' :=
  Runs.run_induction_if (fun _ _ _ h hsafe hs => .step h hsafe hs) as h hrun

/-- A session is acquired exclusively, after `request` others; its attachment is answered,
and more messages may follow the answer. -/
def acquireRun (s : JsString) (request token generation : Nat) (messages : List ServerMessage) :
    List Action :=
  [.acquireSession s .exclusive,
    .message (.response request (some (.session .attach ⟨s, 0, true⟩)))]
    ++ messages.map .message ++
    [.resume (.attachSession request),
      .resume (.acquireSession s ⟨token, .exclusive, generation⟩ (.attachment request))]

/-- An exclusive handle, the loss of the connection, and another one. -/
def reacquiredRun (s : JsString) : List Action :=
  [.connect, .message .hello] ++ acquireRun s 0 0 0 [] ++
    [.disconnect, .connect, .message .hello] ++ acquireRun s 1 1 1 []

theorem leases_counted_reacquired : ∃ c, Reachable Orderly c ∧ c.leases.length = 2 ∧
    c.leases[1]?.any (fun l => c.Active l ∧ l.connection = c.sequence) = true ∧
    ∀ l, c.leases[0]? = some l → ¬ c.Active l := by
  have h : (start.run Orderly (reacquiredRun (js "s"))).any fun c => c.leases.length = 2 ∧
      c.leases[1]?.any (fun l => c.Active l ∧ l.token.mode = .exclusive ∧
        l.connection = c.sequence ∧ l.sessionId = js "s") ∧
      c.leases[0]?.any (fun l => l.sessionId = js "s") := by
    decide
  obtain ⟨c, hrun, h⟩ := (Option.any_eq_true _ _).mp h
  obtain ⟨hlength, hlast, hfirst⟩ := of_decide_eq_true h
  obtain ⟨l₁, hl₁, hlast⟩ := (Option.any_eq_true _ _).mp hlast
  obtain ⟨hactive, hmode, hsequence, hs₁⟩ := of_decide_eq_true hlast
  obtain ⟨l₀, hl₀, hs₀⟩ := (Option.any_eq_true _ _).mp hfirst
  have hreachable := Reachable.run _ .start hrun
  refine ⟨c, hreachable, hlength, ?_, ?_⟩
  · rw [hl₁]
    exact decide_eq_true ⟨hactive, hsequence⟩
  · intro l hl hl'
    obtain rfl := Option.some.inj (hl₀.symm.trans hl)
    have heq := (leases_counted hreachable).1 1 0 l₁ l₀ hl₁ hl hactive hl' hmode
      ((of_decide_eq_true hs₀).trans hs₁.symm)
    cases heq

/-- The session is removed between the answer to its attachment and the handle: there is no
count for that handle, and the session is acquired exclusively once more. -/
def removedRun (s : JsString) : List Action :=
  [.connect, .message .hello] ++ acquireRun s 0 0 0 [.sessionRemoved s] ++ acquireRun s 1 1 1 []

/-- Two active handles of a session, both of them exclusive. -/
theorem not_leases_exclusive : ¬ ∀ c, Reachable (fun _ _ => True) c →
    ∀ (i j : Nat) (l l' : SessionLease), c.leases[i]? = some l → c.leases[j]? = some l' →
      c.Active l → c.Active l' → l.token.mode = .exclusive → l'.sessionId = l.sessionId →
      i = j := by
  intro hall
  have h : (start.run (fun _ _ => True) (removedRun (js "s"))).any fun c =>
      c.leases[0]?.any (fun l => c.Active l ∧ l.token.mode = .exclusive ∧ l.sessionId = js "s") ∧
      c.leases[1]?.any (fun l => c.Active l ∧ l.sessionId = js "s") := by
    decide
  obtain ⟨c, hrun, h⟩ := (Option.any_eq_true _ _).mp h
  obtain ⟨hfirst, hsecond⟩ := of_decide_eq_true h
  obtain ⟨l, hl, hfirst⟩ := (Option.any_eq_true _ _).mp hfirst
  obtain ⟨l', hl', hsecond⟩ := (Option.any_eq_true _ _).mp hsecond
  obtain ⟨hactive, hmode, hs⟩ := of_decide_eq_true hfirst
  obtain ⟨hactive', hs'⟩ := of_decide_eq_true hsecond
  have heq := hall c (Reachable.run _ .start hrun) 0 1 l l' hl hl' hactive hactive' hmode
    (hs'.trans hs.symm)
  cases heq

end PiClient

end PiMono.Client.Leases
