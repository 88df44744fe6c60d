import PiMono.Harness.ForkSoundness
import PiMono.Lib.Except

/-!
# Storage operations

What the storages of a session have in common: `memory.ts` and `jsonl/storage.ts` check
an operation against the session state and make a mutation of it (`StorageOp.mutation`).
`StorageOp.applies` says that the mutation of an operation that passes the checks can
always be applied. `InMemorySessionStorage` is no more than that.
-/

namespace PiMono.Harness

/-- The operations of a `SessionStorage` that write. `Date.now()` is an argument of those
that ask for it. -/
inductive StorageOp where
  | createLane (lane : JsString) (at_ : Option JsString)
  | moveLane (lane : JsString) (to_ : Option JsString)
  | appendEntry (newEntry : ProvisionedEntry) (lane : JsString) (now : Timestamp)
  | appendRecord (newRecord : NewRecord) (now : Timestamp)
  | setName (name : Option JsString)
  | setLabel (id : JsString) (label : Option JsString)

/-- The error of a second operation on a lane. -/
def alreadyOpen (lane id : JsString) : SessionError :=
  ⟨.storage, js "Lane " ++ lane ++ js " already has an open operation " ++ id⟩

/-- The mutation of an operation, if it passes the checks. -/
def StorageOp.mutation (s : SessionState) : StorageOp → Except SessionError SessionMutation
  | createLane l at_ => do
    s.validateNewLane l
    s.validateTarget at_
    return .lane s.nextSequence l at_
  | moveLane l to_ => do
    let _ ← s.requireLane l
    s.validateTarget to_
    return .lane s.nextSequence l to_
  | appendEntry newEntry l now => do
    let parentId ← s.requireLane l
    s.validateUnusedId newEntry.id
    return .entry (some l) (newEntry.commit parentId s.nextSequence now)
  | appendRecord newRecord now => do
    let _ ← s.requireLane newRecord.lane
    s.validateUnusedId newRecord.id
    let opened ← s.findOpenOperations newRecord.lane (some 1)
    match newRecord.type, opened.head? with
    | .operationStarted, some current => .error (alreadyOpen newRecord.lane current.id)
    | _, _ => return .record (newRecord.commit s.nextSequence now)
  | setName n => return .name s.nextSequence n
  | setLabel id l => do
    s.validateTarget (some id)
    return .label s.nextSequence id l

/-! ## What the checks give -/

namespace SessionState

variable {s : SessionState}

theorem validateTarget_ok {targetId : Option JsString} {u : Unit}
    (h : s.validateTarget targetId = .ok u) :
    ∀ id, targetId = some id → s.entriesById.has id = true := by
  rintro id rfl
  unfold validateTarget at h
  by_cases hid : s.entriesById.has id = true
  · exact hid
  · simp [hid] at h

theorem requireLane_ok {lane : JsString} {leafId : Option JsString}
    (h : s.requireLane lane = .ok leafId) : s.lanes.get? lane = some leafId := by
  unfold requireLane at h
  cases hlane : s.lanes.get? lane with
  | none =>
    rw [hlane] at h
    cases h
  | some leafId' =>
    rw [hlane] at h
    rw [Except.ok.inj h]

theorem validateUnusedId_ok {id : JsString} {u : Unit} (h : s.validateUnusedId id = .ok u) :
    id ∉ s.usedIds := by
  intro hid
  rw [validateUnusedId, if_pos hid] at h
  cases h

end SessionState

open SessionState

/-- What an operation makes passes the checks of `applyMutation`, and it adds up no usage
that cannot be read. -/
theorem StorageOp.accepts {s : SessionState} (h : s.Consistent) {op : StorageOp}
    {m : SessionMutation} (hm : op.mutation s = .ok m) :
    m.seq = s.nextSequence ∧ s.Accepts m ∧ s.breaks m = false := by
  cases op with
  | createLane lane at_ =>
    obtain ⟨_, -, hm⟩ := Except.bind_eq_ok.mp hm
    obtain ⟨_, htarget, hm⟩ := Except.bind_eq_ok.mp hm
    obtain rfl := Except.ok.inj hm
    exact ⟨rfl, validateTarget_ok htarget, rfl⟩
  | moveLane lane to_ =>
    obtain ⟨_, -, hm⟩ := Except.bind_eq_ok.mp hm
    obtain ⟨_, htarget, hm⟩ := Except.bind_eq_ok.mp hm
    obtain rfl := Except.ok.inj hm
    exact ⟨rfl, validateTarget_ok htarget, rfl⟩
  | appendEntry newEntry lane now =>
    obtain ⟨parentId, hlane, hm⟩ := Except.bind_eq_ok.mp hm
    obtain ⟨_, hid, hm⟩ := Except.bind_eq_ok.mp hm
    obtain rfl := Except.ok.inj hm
    have hleaf := requireLane_ok hlane
    refine ⟨rfl, ⟨validateUnusedId_ok hid, ?_, ?_⟩, rfl⟩
    · rintro l hl
      rw [← Option.some.inj hl]
      exact hleaf
    · intro id hid
      have hparent : parentId = some id := hid
      rw [hparent] at hleaf
      exact h.has_iff.mpr (h.lanes lane id hleaf)
  | appendRecord newRecord now =>
    obtain ⟨leafId, hlane, hm⟩ := Except.bind_eq_ok.mp hm
    obtain ⟨_, hid, hm⟩ := Except.bind_eq_ok.mp hm
    obtain ⟨opened, -, hm⟩ := Except.bind_eq_ok.mp hm
    have hrecord : m = .record (newRecord.commit s.nextSequence now) := by
      split at hm
      · cases hm
      · exact (Except.ok.inj hm).symm
    subst hrecord
    refine ⟨rfl, ⟨?_, validateUnusedId_ok hid⟩, ?_⟩
    · have hget := requireLane_ok hlane
      show (s.lanes.get? newRecord.lane).isSome = true
      rw [hget]
      rfl
    · have hdeclared := newRecord.declared
      simp only [RecordType.declared, Bool.and_eq_true, Bool.or_eq_true] at hdeclared
      refine decide_eq_false ?_
      rintro ⟨-, -, -, husage, hread⟩
      rcases hdeclared.2 with hother | hreadable
      · have hne : newRecord.type ≠ .usage := by simpa using hother
        exact hne husage
      · have hsame : usageReadable newRecord.payload = false := hread
        rw [hsame] at hreadable
        cases hreadable
  | setName name =>
    obtain rfl := Except.ok.inj hm
    exact ⟨rfl, trivial, rfl⟩
  | setLabel id label =>
    obtain ⟨_, htarget, hm⟩ := Except.bind_eq_ok.mp hm
    obtain rfl := Except.ok.inj hm
    exact ⟨rfl, validateTarget_ok htarget id rfl, rfl⟩

/-- The mutation of an operation can be applied. -/
theorem StorageOp.applies {s : SessionState} (h : s.Consistent) {op : StorageOp}
    {m : SessionMutation} (hm : op.mutation s = .ok m) :
    m.seq = s.nextSequence ∧ ∃ s', s.applyMutation m = .ok s' := by
  obtain ⟨hseq, hok, hbreaks⟩ := StorageOp.accepts h hm
  refine ⟨hseq, ?_⟩
  rw [applyMutation_of_accepts hseq hok]
  rcases s.commit_cases m with ⟨s', hs', -⟩ | ⟨r, stats, rfl, husage, hread, -⟩
  · exact ⟨s', hs'⟩
  · have hbroken : s.breaks (.record r) = true := by
      simp only [breaks, decide_eq_true_eq]
      exact ⟨hseq, hok.1, hok.2, husage, hread⟩
    rw [hbroken] at hbreaks
    cases hbreaks

end PiMono.Harness
