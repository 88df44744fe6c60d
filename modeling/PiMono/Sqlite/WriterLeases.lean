import PiMono.Lib.CodeUnits
import PiMono.Lib.JsMap

/-!
# Writer leases

`packages/session-backends/sqlite-node/src/sqlite/storage/writer-leases.ts`: the
table `writer_leases`, with the session id as its primary key, and the four
statements on it. A lease is an owner id with a fence number; a row keeps the
time it expires as well.
-/

namespace PiMono.Sqlite

/-- `WriterLease`. The expiry it repeats is never read. -/
structure WriterLease where
  ownerId : JsString
  fence : Nat
  deriving DecidableEq

/-- `WriterLeaseRow` -/
structure WriterLeaseRow extends WriterLease where
  expiresAtMs : Int
  deriving DecidableEq

/-- The table `writer_leases`. -/
abbrev WriterLeases := JsMap JsString WriterLeaseRow

/-- `acquireWriterLease`: an insert that takes over a row that has expired. -/
def acquireWriterLease (leases : WriterLeases) (sessionId ownerId : JsString)
    (now expiresAtMs : Int) : Option (WriterLease × WriterLeases) :=
  match leases.get? sessionId with
  | none => some (⟨ownerId, 1⟩, leases.set sessionId ⟨⟨ownerId, 1⟩, expiresAtMs⟩)
  | some row =>
    if row.expiresAtMs ≤ now then
      some (⟨ownerId, row.fence + 1⟩, leases.set sessionId ⟨⟨ownerId, row.fence + 1⟩, expiresAtMs⟩)
    else none

/-- `renewWriterLease`; `none` where the update changes no row. -/
def renewWriterLease (leases : WriterLeases) (sessionId : JsString) (lease : WriterLease)
    (now expiresAtMs : Int) : Option WriterLeases :=
  match leases.get? sessionId with
  | some row =>
    if row.toWriterLease = lease ∧ now < row.expiresAtMs then
      some (leases.set sessionId ⟨lease, expiresAtMs⟩)
    else none
  | none => none

/-- `releaseWriterLease` -/
def releaseWriterLease (leases : WriterLeases) (sessionId : JsString) (lease : WriterLease) :
    WriterLeases :=
  if (leases.get? sessionId).any (·.toWriterLease = lease) then leases.delete sessionId else leases

/-- `deleteWriterLease` -/
def deleteWriterLease (leases : WriterLeases) (sessionId : JsString) : WriterLeases :=
  leases.delete sessionId

section

variable {leases leases' : WriterLeases} {sessionId ownerId : JsString} {lease : WriterLease}
  {now expiresAtMs : Int}

theorem acquireWriterLease_some
    (h : acquireWriterLease leases sessionId ownerId now expiresAtMs = some (lease, leases')) :
    lease.ownerId = ownerId ∧ leases' = leases.set sessionId ⟨lease, expiresAtMs⟩ := by
  rw [acquireWriterLease] at h
  cases hrow : leases.get? sessionId with
  | none =>
    rw [hrow] at h
    obtain ⟨rfl, rfl⟩ := Prod.mk.inj (Option.some.inj h)
    exact ⟨rfl, rfl⟩
  | some row =>
    rw [hrow] at h
    dsimp only at h
    split at h
    · obtain ⟨rfl, rfl⟩ := Prod.mk.inj (Option.some.inj h)
      exact ⟨rfl, rfl⟩
    · cases h

theorem renewWriterLease_eq_some :
    renewWriterLease leases sessionId lease now expiresAtMs = some leases' ↔
      ∃ row, leases.get? sessionId = some row ∧ row.toWriterLease = lease ∧
        now < row.expiresAtMs ∧ leases' = leases.set sessionId ⟨lease, expiresAtMs⟩ := by
  rw [renewWriterLease]
  cases hrow : leases.get? sessionId with
  | none => simp
  | some row =>
    dsimp only
    split
    · rename_i hown
      simp [hown, eq_comm]
    · rename_i hown
      simp only [reduceCtorEq, false_iff]
      rintro ⟨_, heq, hlease, hnow, -⟩
      obtain rfl := Option.some.inj heq
      exact hown ⟨hlease, hnow⟩

/-- What is left behind a release was there before. -/
theorem get?_releaseWriterLease {id : JsString} {row : WriterLeaseRow}
    (h : (releaseWriterLease leases sessionId lease).get? id = some row) :
    leases.get? id = some row := by
  rw [releaseWriterLease] at h
  split at h
  · exact JsMap.get?_of_delete h
  · exact h

end

end PiMono.Sqlite
