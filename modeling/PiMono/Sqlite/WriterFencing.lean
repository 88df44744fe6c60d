import PiMono.Lib.Except
import PiMono.Sqlite.SessionWriters

/-!
# Fencing, and reopening

`Leased` ties the table of leases to the log of a world: the owner of a row is the
one that acquired last. Every transaction keeps it, and no write commits without
the row of its owner, so the log of every run is fenced (`writes_fenced`). What
the table says is not all a storage goes by, though: `claimSession` hands out the
storage that is active, whatever became of its lease, and `append_after_open_iff`
says when the next append to it commits.
-/

namespace PiMono.Sqlite

/-! ## Leases and the log -/

/-- The row of a session is the lease of the owner that acquired it last. -/
structure Leased (leases : WriterLeases) (log : List (LeaseEvent JsString JsString)) : Prop where
  owner : ∀ id row, leases.get? id = some row → lastOwner id log = some row.ownerId
  fenced : Fenced log

namespace Leased

variable {leases leases' : WriterLeases} {log : List (LeaseEvent JsString JsString)}
  {sessionId : JsString} {lease : WriterLease} {expiresAtMs : Int}

theorem nil : Leased JsMap.empty [] := ⟨by simp, .nil⟩

theorem acquire (h : Leased leases log) : Leased (leases.set sessionId ⟨lease, expiresAtMs⟩)
    (log ++ [.acquired sessionId lease.ownerId]) := by
  constructor
  · intro id row hrow
    rw [JsMap.get?_set] at hrow
    rw [lastOwner_acquired]
    split at hrow
    · rename_i hid
      rw [if_pos hid, ← Option.some.inj hrow]
    · rename_i hid
      rw [if_neg hid]
      exact h.owner id row hrow
  · exact .acquire _ _ h.fenced

theorem commit (h : Leased leases log) {row : WriterLeaseRow}
    (hrow : leases.get? sessionId = some row) (hlease : row.toWriterLease = lease) :
    Leased leases (log ++ [.committed sessionId lease.ownerId]) := by
  constructor
  · intro id row' hrow'
    rw [lastOwner_committed]
    exact h.owner id row' hrow'
  · exact .commit h.fenced (by rw [h.owner sessionId row hrow, ← hlease])

theorem renew (h : Leased leases log) {row : WriterLeaseRow}
    (hrow : leases.get? sessionId = some row) (hlease : row.toWriterLease = lease) :
    Leased (leases.set sessionId ⟨lease, expiresAtMs⟩) log := by
  constructor
  · intro id row' hrow'
    rw [JsMap.get?_set] at hrow'
    split at hrow'
    · rename_i hid
      rw [← Option.some.inj hrow', ← hid, h.owner sessionId row hrow, ← hlease]
    · exact h.owner id row' hrow'
  · exact h.fenced

/-- An owner that has acquired a lease may write. -/
theorem acquire_commit (h : Leased leases log) :
    Leased (leases.set sessionId ⟨lease, expiresAtMs⟩)
      (log ++ [.acquired sessionId lease.ownerId] ++ [.committed sessionId lease.ownerId]) :=
  h.acquire.commit ((JsMap.get?_set ..).trans (if_pos rfl)) rfl

/-- Rows may go. -/
theorem sub (h : Leased leases log)
    (hsub : ∀ id row, leases'.get? id = some row → leases.get? id = some row) :
    Leased leases' log :=
  ⟨fun id row hrow => h.owner id row (hsub id row hrow), h.fenced⟩

end Leased

/-- Only sessions that exist are leased. -/
def SessionsExist {σ : Type} (sessions : JsMap JsString σ) (leases : WriterLeases) : Prop :=
  ∀ id row, leases.get? id = some row → sessions.has id = true

/-! ## What each step does -/

namespace World

variable {σ : Type} {options : ResolvedWriterLeaseOptions} {w w' : World σ}
  {repository i : Nat} {sessionId ownerId : JsString} {now : Int}

theorem claimWriterLease_ok {lease : WriterLease}
    (h : claimWriterLease options w sessionId ownerId now = .ok (lease, w')) :
    lease.ownerId = ownerId ∧ w' = { w with
      leases := w.leases.set sessionId ⟨lease, now + options.ttlMs⟩
      log := w.log ++ [.acquired sessionId ownerId] } := by
  rw [claimWriterLease] at h
  cases hacquire : acquireWriterLease w.leases sessionId ownerId now (now + options.ttlMs) with
  | none =>
    rw [hacquire] at h
    cases h
  | some acquired =>
    rw [hacquire] at h
    obtain ⟨rfl, rfl⟩ := Prod.mk.inj (Except.ok.inj h)
    obtain ⟨howner, hleases⟩ := acquireWriterLease_some hacquire
    exact ⟨howner, by rw [hleases]⟩

theorem create_ok {make : JsMap JsString σ → Except Harness.SessionError σ}
    (h : create options w repository sessionId ownerId now make = .ok (i, w')) :
    ∃ tables lease, lease.ownerId = ownerId ∧
      w'.sessions = w.sessions.set sessionId tables ∧
      w'.leases = w.leases.set sessionId ⟨lease, now + options.ttlMs⟩ ∧
      w'.log = w.log ++ [.acquired sessionId ownerId] ++ [.committed sessionId ownerId] := by
  rw [create] at h
  split at h
  · cases h
  simp only [Except.bind_eq_ok] at h
  obtain ⟨tables, -, ⟨lease, w₁⟩, hclaim, h⟩ := h
  obtain ⟨howner, rfl⟩ := claimWriterLease_ok hclaim
  obtain ⟨rfl, rfl⟩ := Prod.mk.inj (Except.ok.inj h)
  exact ⟨tables, lease, howner, rfl, rfl, rfl⟩

theorem claimStorage_ok {readLanes : σ → Except Harness.SessionError Unit}
    (h : claimStorage options readLanes w repository sessionId ownerId now = .ok (i, w')) :
    ∃ lease : WriterLease, lease.ownerId = ownerId ∧ w.sessions.has sessionId = true ∧
      i = w.storages.length ∧ w' = {
        sessions := w.sessions
        leases := w.leases.set sessionId ⟨lease, now + options.ttlMs⟩
        storages := w.storages ++ [⟨repository, sessionId, lease, false, false, true⟩]
        log := w.log ++ [.acquired sessionId ownerId] } := by
  rw [claimStorage] at h
  cases htables : w.sessions.get? sessionId with
  | none =>
    rw [htables] at h
    cases h
  | some tables =>
    rw [htables] at h
    simp only [Except.bind_eq_ok] at h
    obtain ⟨⟨lease, w₁⟩, hclaim, -, -, h⟩ := h
    obtain ⟨howner, rfl⟩ := claimWriterLease_ok hclaim
    obtain ⟨rfl, rfl⟩ := Prod.mk.inj (Except.ok.inj h)
    exact ⟨lease, howner, by rw [JsMap.has, htables]; rfl, rfl, rfl⟩

/-- `open` hands out the storage that is active, as it is, or claims the session. -/
theorem claimSession_ok {readLanes : σ → Except Harness.SessionError Unit}
    (h : claimSession options readLanes w repository sessionId ownerId now = .ok (i, w')) :
    w.activeStorage? repository sessionId = some i ∧ w' = w ∨
      w.activeStorage? repository sessionId = none ∧
        claimStorage options readLanes w repository sessionId ownerId now = .ok (i, w') := by
  rw [claimSession] at h
  cases hactive : w.activeStorage? repository sessionId with
  | none =>
    rw [hactive] at h
    exact Or.inr ⟨rfl, h⟩
  | some j =>
    rw [hactive] at h
    dsimp only at h
    cases htables : w.sessions.get? sessionId with
    | none =>
      rw [htables] at h
      obtain ⟨rfl, rfl⟩ := Prod.mk.inj (Except.ok.inj h)
      exact Or.inl ⟨rfl, rfl⟩
    | some tables =>
      rw [htables] at h
      obtain ⟨-, -, heq⟩ := Except.map_eq_ok.mp h
      obtain ⟨rfl, rfl⟩ := Prod.mk.inj heq
      exact Or.inl ⟨rfl, rfl⟩

theorem deleteSession_ok (h : deleteSession options w sessionId ownerId now = .ok w') :
    w' = { w with leases := w.leases.delete sessionId } ∧ w.sessions.has sessionId = false ∨
      ∃ lease : WriterLease, lease.ownerId = ownerId ∧ w' = { w with
        sessions := w.sessions.delete sessionId
        leases := (w.leases.set sessionId ⟨lease, now + options.ttlMs⟩).delete sessionId
        log := w.log ++ [.acquired sessionId ownerId] ++ [.committed sessionId ownerId] } := by
  rw [deleteSession] at h
  split at h
  · simp only [Except.bind_eq_ok] at h
    obtain ⟨⟨lease, w₁⟩, hclaim, h⟩ := h
    obtain ⟨howner, rfl⟩ := claimWriterLease_ok hclaim
    obtain rfl := Except.ok.inj h
    exact Or.inr ⟨lease, howner, rfl⟩
  · rename_i hhas
    obtain rfl := Except.ok.inj h
    exact Or.inl ⟨rfl, by simpa using hhas⟩

theorem repairBranchCache_ok {rebuild : σ → Except Harness.SessionError σ}
    (h : repairBranchCache options rebuild w sessionId ownerId now = .ok w') :
    ∃ (lease : WriterLease) (tables : σ), lease.ownerId = ownerId ∧
      w.sessions.has sessionId = true ∧ w' = { w with
        sessions := w.sessions.set sessionId tables
        leases := releaseWriterLease
          (w.leases.set sessionId ⟨lease, now + options.ttlMs⟩) sessionId lease
        log := w.log ++ [.acquired sessionId ownerId] ++ [.committed sessionId ownerId] } := by
  rw [repairBranchCache] at h
  simp only [Except.bind_eq_ok] at h
  obtain ⟨⟨lease, w₁⟩, hclaim, h⟩ := h
  obtain ⟨howner, rfl⟩ := claimWriterLease_ok hclaim
  dsimp only at h
  cases htables : w.sessions.get? sessionId with
  | none =>
    rw [htables] at h
    cases h
  | some tables =>
    rw [htables] at h
    simp only [Except.bind_eq_ok] at h
    obtain ⟨rebuilt, -, h⟩ := h
    obtain rfl := Except.ok.inj h
    exact ⟨lease, rebuilt, howner, by rw [JsMap.has, htables]; rfl, rfl⟩

/-- A write that commits has renewed the lease of its storage; one that does not
leaves the tables, the leases and the log. -/
theorem enqueueWrite_cases {operation : σ → Except Harness.SessionError σ}
    {result : Except Harness.SessionError Unit}
    (h : enqueueWrite options w i now operation = (result, w')) :
    (∃ e, result = .error e ∧ w'.sessions = w.sessions ∧ w'.leases = w.leases ∧ w'.log = w.log) ∨
      ∃ s row tables tables', w.storages[i]? = some s ∧ s.closing = false ∧
        s.leaseError = false ∧ w.leases.get? s.sessionId = some row ∧ row.toWriterLease = s.lease ∧
        now < row.expiresAtMs ∧ w.sessions.get? s.sessionId = some tables ∧
        operation tables = .ok tables' ∧ w' = { w with
          sessions := w.sessions.set s.sessionId tables'
          leases := w.leases.set s.sessionId ⟨s.lease, now + options.ttlMs⟩
          log := w.log ++ [.committed s.sessionId s.lease.ownerId] } := by
  rw [enqueueWrite] at h
  cases hs : w.storages[i]? with
  | none =>
    rw [hs] at h
    obtain ⟨rfl, rfl⟩ := Prod.mk.inj h
    exact Or.inl ⟨_, rfl, rfl, rfl, rfl⟩
  | some s =>
    rw [hs] at h
    dsimp only at h
    split at h
    · obtain ⟨rfl, rfl⟩ := Prod.mk.inj h
      exact Or.inl ⟨_, rfl, rfl, rfl, rfl⟩
    rename_i hclosing
    split at h
    · obtain ⟨rfl, rfl⟩ := Prod.mk.inj h
      exact Or.inl ⟨_, rfl, rfl, rfl, rfl⟩
    rename_i hlost
    cases hrenew : renewWriterLease w.leases s.sessionId s.lease now (now + options.ttlMs) with
    | none =>
      rw [hrenew] at h
      obtain ⟨rfl, rfl⟩ := Prod.mk.inj h
      exact Or.inl ⟨_, rfl, rfl, rfl, rfl⟩
    | some leases =>
      rw [hrenew] at h
      dsimp only at h
      obtain ⟨row, hrow, hlease, hnow, rfl⟩ := renewWriterLease_eq_some.mp hrenew
      cases htables : w.sessions.get? s.sessionId with
      | none =>
        rw [htables] at h
        obtain ⟨rfl, rfl⟩ := Prod.mk.inj h
        exact Or.inl ⟨_, rfl, rfl, rfl, rfl⟩
      | some tables =>
        rw [htables] at h
        dsimp only at h
        cases hoperation : operation tables with
        | error e =>
          rw [hoperation] at h
          obtain ⟨rfl, rfl⟩ := Prod.mk.inj h
          exact Or.inl ⟨_, rfl, rfl, rfl, rfl⟩
        | ok tables' =>
          rw [hoperation] at h
          obtain ⟨rfl, rfl⟩ := Prod.mk.inj h
          exact Or.inr ⟨s, row, tables, tables', rfl, by simpa using hclosing, by simpa using hlost,
            hrow, hlease, hnow, htables, hoperation, rfl⟩

theorem heartbeat_cases (options : ResolvedWriterLeaseOptions) (w : World σ) (i : Nat) (now : Int) :
    (heartbeat options w i now).sessions = w.sessions ∧ (heartbeat options w i now).log = w.log ∧
      ((heartbeat options w i now).leases = w.leases ∨
        ∃ (s : SqliteSessionStorage) (row : WriterLeaseRow),
          w.leases.get? s.sessionId = some row ∧ row.toWriterLease = s.lease ∧
          (heartbeat options w i now).leases
            = w.leases.set s.sessionId ⟨s.lease, now + options.ttlMs⟩) := by
  rw [heartbeat]
  cases w.storages[i]? with
  | none => exact ⟨rfl, rfl, Or.inl rfl⟩
  | some s =>
    dsimp only
    split
    · exact ⟨rfl, rfl, Or.inl rfl⟩
    cases hrenew : renewWriterLease w.leases s.sessionId s.lease now (now + options.ttlMs) with
    | none => exact ⟨rfl, rfl, Or.inl rfl⟩
    | some leases =>
      obtain ⟨row, hrow, hlease, -, rfl⟩ := renewWriterLease_eq_some.mp hrenew
      exact ⟨rfl, rfl, Or.inr ⟨s, row, hrow, hlease, rfl⟩⟩

/-! ## Runs -/

/-- What every reachable world satisfies. -/
structure Inv (w : World σ) : Prop where
  leased : Leased w.leases w.log
  exist : SessionsExist w.sessions w.leases

theorem inv_empty : Inv (empty : World σ) := ⟨Leased.nil, by simp [SessionsExist, empty]⟩

/-- The tables of one more session, or a lease of a session that exists. -/
theorem SessionsExist.set {sessions : JsMap JsString σ} {leases : WriterLeases}
    (h : SessionsExist sessions leases) {sessions' : JsMap JsString σ}
    (hkeep : ∀ id, sessions.has id = true → sessions'.has id = true)
    (hid : sessions'.has sessionId = true) (row : WriterLeaseRow) :
    SessionsExist sessions' (leases.set sessionId row) := by
  intro id row' hrow
  rw [JsMap.get?_set] at hrow
  split at hrow
  · rename_i heq
    exact heq ▸ hid
  · exact hkeep id (h id row' hrow)

theorem has_set (sessions : JsMap JsString σ) (id : JsString) (tables : σ) {other : JsString}
    (h : other = id ∨ sessions.has other = true) : (sessions.set id tables).has other = true := by
  rw [JsMap.has, JsMap.get?_set]
  split
  · rfl
  · rename_i hne
    exact h.resolve_left (Ne.symm hne)

theorem Inv.create (h : Inv w) {make : JsMap JsString σ → Except Harness.SessionError σ}
    (hok : World.create options w repository sessionId ownerId now make = .ok (i, w')) :
    Inv w' := by
  obtain ⟨tables, lease, howner, hsessions, hleases, hlog⟩ := create_ok hok
  constructor
  · rw [hleases, hlog, ← howner]
    exact h.leased.acquire_commit
  · rw [hsessions, hleases]
    exact SessionsExist.set h.exist (fun id hid => has_set _ _ _ (Or.inr hid))
      (has_set _ _ _ (Or.inl rfl)) _

theorem Inv.claimSession (h : Inv w) {readLanes : σ → Except Harness.SessionError Unit}
    (hok : World.claimSession options readLanes w repository sessionId ownerId now = .ok (i, w')) :
    Inv w' := by
  rcases claimSession_ok hok with ⟨-, rfl⟩ | ⟨-, hok⟩
  · exact h
  · obtain ⟨lease, howner, hhas, -, rfl⟩ := claimStorage_ok hok
    constructor
    · show Leased (w.leases.set sessionId _) (w.log ++ [.acquired sessionId ownerId])
      rw [← howner]
      exact h.leased.acquire
    · exact SessionsExist.set h.exist (fun id hid => hid) hhas _

theorem Inv.enqueueWrite (h : Inv w) {operation : σ → Except Harness.SessionError σ}
    {result : Except Harness.SessionError Unit}
    (hok : World.enqueueWrite options w i now operation = (result, w')) : Inv w' := by
  rcases enqueueWrite_cases hok with ⟨e, -, hsessions, hleases, hlog⟩ |
      ⟨s, row, tables, tables', -, -, -, hrow, hlease, -, -, -, rfl⟩
  · constructor
    · rw [hleases, hlog]
      exact h.leased
    · rw [hsessions, hleases]
      exact h.exist
  · constructor
    · exact (h.leased.renew hrow hlease).commit ((JsMap.get?_set ..).trans (if_pos rfl)) rfl
    · exact SessionsExist.set h.exist (fun id hid => has_set _ _ _ (Or.inr hid))
        (has_set _ _ _ (Or.inl rfl)) _

theorem Inv.heartbeat (h : Inv w) (options : ResolvedWriterLeaseOptions) (i : Nat) (now : Int) :
    Inv (World.heartbeat options w i now) := by
  obtain ⟨hsessions, hlog, hleases | ⟨s, row, hrow, hlease, hleases⟩⟩ :=
    heartbeat_cases options w i now
  · constructor
    · rw [hleases, hlog]
      exact h.leased
    · rw [hsessions, hleases]
      exact h.exist
  · constructor
    · rw [hleases, hlog]
      exact h.leased.renew hrow hlease
    · rw [hsessions, hleases]
      exact SessionsExist.set h.exist (fun id hid => hid) (h.exist _ row hrow) _

theorem Inv.finishRelease (h : Inv w) (i : Nat) (fails : Bool) :
    Inv (w.finishRelease i fails) := by
  rw [World.finishRelease]
  cases w.storages[i]? with
  | none => exact h
  | some s =>
    have hsub : ∀ id row, (if fails then w.leases else
        releaseWriterLease w.leases s.sessionId s.lease).get? id = some row →
        w.leases.get? id = some row := by
      intro id row hrow
      split at hrow
      · exact hrow
      · exact get?_releaseWriterLease hrow
    exact ⟨h.leased.sub hsub, fun id row hrow => h.exist id row (hsub id row hrow)⟩

theorem Inv.deleteSession (h : Inv w)
    (hok : World.deleteSession options w sessionId ownerId now = .ok w') : Inv w' := by
  rcases deleteSession_ok hok with ⟨rfl, -⟩ | ⟨lease, rfl, rfl⟩
  · exact ⟨h.leased.sub fun id row hrow => JsMap.get?_of_delete hrow,
      fun id row hrow => h.exist id row (JsMap.get?_of_delete hrow)⟩
  · constructor
    · exact h.leased.acquire_commit.sub fun id row hrow => JsMap.get?_of_delete hrow
    · intro id row hrow
      show (w.sessions.delete sessionId).has id = true
      rw [JsMap.get?_delete] at hrow
      split at hrow
      · cases hrow
      · rename_i hne
        rw [JsMap.get?_set, if_neg hne] at hrow
        rw [JsMap.has, JsMap.get?_delete, if_neg hne]
        exact h.exist id row hrow

theorem Inv.repairBranchCache (h : Inv w) {rebuild : σ → Except Harness.SessionError σ}
    (hok : World.repairBranchCache options rebuild w sessionId ownerId now = .ok w') : Inv w' := by
  obtain ⟨lease, tables, rfl, hhas, rfl⟩ := repairBranchCache_ok hok
  constructor
  · exact h.leased.acquire_commit.sub fun id row hrow => get?_releaseWriterLease hrow
  · intro id row hrow
    exact SessionsExist.set h.exist (fun id hid => has_set _ _ _ (Or.inr hid))
      (has_set _ _ _ (Or.inl rfl)) _ id row (get?_releaseWriterLease hrow)

/-- Where a transaction throws, nothing has changed. -/
theorem inv_getD (h : Inv w) (result : Except Harness.SessionError (World σ))
    (hok : ∀ w', result = .ok w' → Inv w') : Inv (result.toOption.getD w) := by
  cases result with
  | error e => exact h
  | ok w' => exact hok w' rfl

theorem Inv.step (h : Inv w) (setting : Setting σ) (action : Action σ) :
    Inv (World.step setting w action) := by
  cases action with
  | create repository sessionId ownerId now make =>
    refine inv_getD h _ fun w' hw' => ?_
    obtain ⟨⟨i, w₁⟩, hok, rfl⟩ := Except.map_eq_ok.mp hw'
    exact h.create hok
  | claim repository sessionId ownerId now =>
    refine inv_getD h _ fun w' hw' => ?_
    obtain ⟨⟨i, w₁⟩, hok, rfl⟩ := Except.map_eq_ok.mp hw'
    exact h.claimSession hok
  | write i now operation => exact h.enqueueWrite rfl
  | heartbeat i now => exact h.heartbeat _ i now
  | beginRelease i => exact ⟨h.leased, h.exist⟩
  | finishRelease i fails => exact h.finishRelease i fails
  | delete repository sessionId ownerId now => exact inv_getD h _ fun w' hok => h.deleteSession hok
  | repair repository sessionId ownerId now =>
    exact inv_getD h _ fun w' hok => h.repairBranchCache hok

theorem Reachable.inv {setting : Setting σ} (h : Reachable setting w) : Inv w := by
  obtain ⟨actions, rfl⟩ := h
  induction actions using List.reverseRecOn with
  | nil => exact inv_empty
  | append_singleton actions action ih =>
    rw [List.foldl_concat]
    exact ih.step setting action

/-- **Fencing**: once an owner has acquired the lease of a session, no other owner
commits a write before it acquires the lease in turn. -/
theorem writes_fenced {setting : Setting σ} (h : Reachable setting w) {sessionId A B : JsString}
    {pre mid post : List (LeaseEvent JsString JsString)}
    (hlog : w.log = pre ++ .acquired sessionId B :: (mid ++ .committed sessionId A :: post)) :
    (A ≠ B → .acquired sessionId A ∈ mid) ∧
      ((∀ C, .acquired sessionId C ∉ mid) → A = B) := by
  have hbetween := h.inv.leased.fenced.acquired_between hlog
  constructor
  · intro hne
    exact hbetween.resolve_left hne
  · intro hnone
    exact hbetween.resolve_right (hnone A)

/-- A setting in which every session can be read. -/
def plainSetting : Setting Unit where
  options _ := ⟨30000, 10000, by decide, by decide⟩
  readLanes _ := .ok ()
  rebuildBranchCache _ := .ok ()

/-- A lease is taken over, released, and acquired by its first owner again. -/
theorem writes_fenced_again : ∃ w : World Unit, Reachable plainSetting w ∧
    w.log = [.acquired (js "s") (js "a"), .committed (js "s") (js "a"),
      .acquired (js "s") (js "b"), .acquired (js "s") (js "a"), .committed (js "s") (js "a")] ∧
    .acquired (js "s") (js "a") ∈ [LeaseEvent.acquired (js "s") (js "a")] := by
  let actions : List (Action Unit) :=
    [.create 0 (js "s") (js "a") 0 fun _ => .ok (), .claim 1 (js "s") (js "b") 30000,
      .finishRelease 0 false, .finishRelease 1 false, .claim 0 (js "s") (js "a") 30001,
      .write 2 30002 .ok]
  have hlog : (actions.foldl (step plainSetting) empty).log
      = [.acquired (js "s") (js "a"), .committed (js "s") (js "a")] ++
        .acquired (js "s") (js "b") ::
        ([.acquired (js "s") (js "a")] ++ [.committed (js "s") (js "a")]) := by
    decide
  have hreachable : Reachable plainSetting (actions.foldl (step plainSetting) empty) :=
    ⟨actions, rfl⟩
  exact ⟨_, hreachable, hlog, (writes_fenced hreachable hlog).1 (by decide)⟩

/-! ## Reopening -/

/-- When a write commits. -/
theorem enqueueWrite_ok_iff {operation : σ → Except Harness.SessionError σ} :
    (enqueueWrite options w i now operation).1 = .ok () ↔
      ∃ s row tables tables', w.storages[i]? = some s ∧ s.closing = false ∧ s.leaseError = false ∧
        w.leases.get? s.sessionId = some row ∧ row.toWriterLease = s.lease ∧
        now < row.expiresAtMs ∧ w.sessions.get? s.sessionId = some tables ∧
        operation tables = .ok tables' := by
  constructor
  · intro h
    rcases enqueueWrite_cases (Prod.ext h rfl) with ⟨e, he, -⟩ |
      ⟨s, row, tables, tables', hs, hclosing, hlost, hrow, hlease, hnow, htables, hoperation, -⟩
    · cases he
    · exact ⟨s, row, tables, tables', hs, hclosing, hlost, hrow, hlease, hnow, htables, hoperation⟩
  · rintro ⟨s, row, tables, tables', hs, hclosing, hlost, hrow, hlease, hnow, htables, hoperation⟩
    have hrenew : renewWriterLease w.leases s.sessionId s.lease now
      (now + options.ttlMs) = some _ :=
      renewWriterLease_eq_some.mpr ⟨row, hrow, hlease, hnow, rfl⟩
    simp [enqueueWrite, hs, hclosing, hlost, hrenew, htables, hoperation]

/-- An owner other than that of a storage holds a lease of its session that has not
expired. -/
def HeldByOther (w : World σ) (i : Nat) (now : Int) : Prop :=
  ∃ s row, w.storages[i]? = some s ∧ w.leases.get? s.sessionId = some row ∧
    now < row.expiresAtMs ∧ row.ownerId ≠ s.lease.ownerId

/-- The instance has no storage for the session, and appends before a new lease
expires; or its storage is not closing, has noted no lease error, and appends while
the table holds its lease. -/
def Usable (setting : Setting σ) (w : World σ) (repository : Nat) (sessionId : JsString)
    (opened appended : Int) : Prop :=
  match w.activeStorage? repository sessionId with
  | none => appended < opened + (setting.options repository).ttlMs
  | some i => ∃ s row, w.storages[i]? = some s ∧ s.closing = false ∧ s.leaseError = false ∧
      w.leases.get? sessionId = some row ∧ row.toWriterLease = s.lease ∧ appended < row.expiresAtMs

theorem activeStorage?_some (h : w.activeStorage? repository sessionId = some i) :
    ∃ s, w.storages[i]? = some s ∧ s.sessionId = sessionId := by
  obtain ⟨hlt, hactive, -⟩ := List.findIdx?_eq_some_iff_getElem.mp h
  exact ⟨w.storages[i], List.getElem?_eq_getElem hlt, (of_decide_eq_true hactive).2.2⟩

/-- **Reopening**: where `open` resolves, the next append to what it returns commits
exactly if the writer is usable. -/
theorem append_after_open_iff {setting : Setting σ} (h : Reachable setting w) {opened : Int}
    (hopen : claimSession (setting.options repository) setting.readLanes w repository sessionId
      ownerId opened = .ok (i, w'))
    (appended : Int) {append : σ → Except Harness.SessionError σ}
    (happend : ∀ tables, w'.sessions.get? sessionId = some tables →
      ∃ tables', append tables = .ok tables') :
    (enqueueWrite (w'.optionsOf setting i) w' i appended append).1 = .ok () ↔
      w.Usable setting repository sessionId opened appended := by
  rw [enqueueWrite_ok_iff, Usable]
  rcases claimSession_ok hopen with ⟨hactive, rfl⟩ | ⟨hactive, hclaim⟩
  · rw [hactive]
    obtain ⟨s, hs, rfl⟩ := activeStorage?_some hactive
    constructor
    · rintro ⟨s', row, -, -, hs', hclosing, hlost, hrow, hlease, happended, -⟩
      rw [hs] at hs'
      obtain rfl := Option.some.inj hs'
      exact ⟨s, row, hs, hclosing, hlost, hrow, hlease, happended⟩
    · rintro ⟨s', row, hs', hclosing, hlost, hrow, hlease, happended⟩
      rw [hs] at hs'
      obtain rfl := Option.some.inj hs'
      -- the session of a lease exists
      obtain ⟨tables, htables⟩ := Option.isSome_iff_exists.mp (h.inv.exist _ row hrow)
      obtain ⟨tables', happend⟩ := happend tables htables
      exact ⟨s, row, tables, tables', hs, hclosing, hlost, hrow, hlease, happended,
        htables, happend⟩
  · rw [hactive]
    obtain ⟨lease, -, hhas, rfl, rfl⟩ := claimStorage_ok hclaim
    have hrow : (w.leases.set sessionId ⟨lease, opened + (setting.options repository).ttlMs⟩).get?
        sessionId = some ⟨lease, opened + (setting.options repository).ttlMs⟩ :=
      (JsMap.get?_set ..).trans (if_pos rfl)
    constructor
    · rintro ⟨s, row, -, -, hs, -, -, hrow', -, happended, -⟩
      obtain rfl : _ = s := by simpa using hs
      rw [hrow] at hrow'
      rw [← Option.some.inj hrow'] at happended
      exact happended
    · intro happended
      obtain ⟨tables, htables⟩ := Option.isSome_iff_exists.mp hhas
      obtain ⟨tables', happend⟩ := happend tables htables
      have hs : (w.storages ++ [⟨repository, sessionId, lease, false, false, true⟩])[
          w.storages.length]? = some ⟨repository, sessionId, lease, false, false, true⟩ := by simp
      exact ⟨_, _, tables, tables', hs, rfl, rfl, hrow, rfl, happended, htables, happend⟩

/-- A session is created, no heartbeat comes until its lease expires, and it is
opened again. -/
def lateHeartbeat : World Unit :=
  [.create 0 (js "s") (js "a") 0 fun _ => .ok ()].foldl (step plainSetting) empty

/-- Reopening hands out a writer whose lease has expired. -/
theorem append_after_open_not : ¬∀ (setting : Setting Unit) (w w' : World Unit)
    (repository i : Nat) (sessionId ownerId : JsString) (now : Int)
    (append : Unit → Except Harness.SessionError Unit), Reachable setting w →
    claimSession (setting.options repository) setting.readLanes w repository sessionId ownerId now
      = .ok (i, w') → ¬HeldByOther w' i now →
    (∀ tables, w'.sessions.get? sessionId = some tables → ∃ tables', append tables = .ok tables') →
    (enqueueWrite (w'.optionsOf setting i) w' i now append).1 = .ok () := by
  intro hall
  have hopen : claimSession (plainSetting.options 0) plainSetting.readLanes lateHeartbeat 0 (js "s")
      (js "b") 30000 = .ok (0, lateHeartbeat) := rfl
  have hother : ¬HeldByOther lateHeartbeat 0 30000 := by
    rintro ⟨s, row, hs, hrow, -, hne⟩
    have hs' : lateHeartbeat.storages[0]? = some ⟨0, js "s", ⟨js "a", 1⟩, false, false, true⟩ := rfl
    have hrow' : lateHeartbeat.leases.get? (js "s") = some ⟨⟨js "a", 1⟩, 30000⟩ := rfl
    rw [hs'] at hs
    obtain rfl := Option.some.inj hs
    rw [hrow'] at hrow
    exact hne (by rw [← Option.some.inj hrow])
  have hok := hall plainSetting lateHeartbeat lateHeartbeat 0 0 (js "s") (js "b") 30000 .ok ⟨_, rfl⟩
    hopen hother (fun tables _ => ⟨tables, rfl⟩)
  have hlost : (enqueueWrite (lateHeartbeat.optionsOf plainSetting 0) lateHeartbeat 0 30000 .ok).1
      = .error (lostWriterError (js "s")) := rfl
  rw [hlost] at hok
  cases hok

/-- The heartbeat in time, and the same opening. -/
theorem append_after_open_heartbeat : (enqueueWrite (plainSetting.options 0)
    (step plainSetting lateHeartbeat (.heartbeat 0 10000)) 0 30000 .ok).1 = .ok () := by
  have hreachable : Reachable plainSetting (step plainSetting lateHeartbeat (.heartbeat 0 10000)) :=
    ⟨[.create 0 (js "s") (js "a") 0 fun _ => .ok (), .heartbeat 0 10000], rfl⟩
  have hopen : claimSession (plainSetting.options 0) plainSetting.readLanes
      (step plainSetting lateHeartbeat (.heartbeat 0 10000)) 0 (js "s") (js "b") 30000
      = .ok (0, step plainSetting lateHeartbeat (.heartbeat 0 10000)) := rfl
  refine (append_after_open_iff hreachable hopen 30000 fun tables _ => ⟨tables, rfl⟩).mpr ?_
  exact ⟨⟨0, js "s", ⟨js "a", 1⟩, false, false, true⟩, ⟨⟨js "a", 1⟩, 40000⟩, rfl, rfl,
    rfl, rfl, rfl,
    by decide⟩

end World

end PiMono.Sqlite
