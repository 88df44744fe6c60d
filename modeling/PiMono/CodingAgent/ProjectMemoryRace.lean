import PiMono.CodingAgent.ProjectMemoryBudget

/-!
# Two sessions that record one candidate at once

A call of `addCandidate` looks its content up, searches for a similar candidate and then
runs its transaction (`CallPhase.next`); `Race.step` is one statement of one of two calls
on one database. The transactions are atomic, the lookups before them are not part of
them. `Looked` says what a call knows as long as none has committed,
`run_alone` that after the first commit the other call runs alone, and
`corroborated_iff` says for which interleavings the evidence of both sessions ends up at
one record of their content.
-/

namespace PiMono

open ProjectMemoryDb

/-- The arguments of a call of `addCandidate`, with its clock. -/
structure CandidateCall where
  content : JsString
  kind : ProjectMemoryKind
  evidence : ProjectMemoryEvidence
  now : JsString

/-- Where a call stands: what comes next, or what it came to. -/
inductive CallPhase where
  | started
  /-- There was no record of the content; the search is next. -/
  | searching
  /-- The transaction is next. -/
  | deciding (existing : Option ProjectMemoryRecord)
  | returned (record : ProjectMemoryRecord)
  | threw (error : SqliteError)

namespace CallPhase

def done : CallPhase → Bool
  | .returned _ | .threw _ => true
  | .started | .searching | .deciding _ => false

/-- The next statement of a call. -/
def next (env : MemoryEnv) (call : CandidateCall) :
    ProjectMemoryDb × CallPhase → ProjectMemoryDb × CallPhase
  | (db, .started) =>
    match db.lookupExact (normalize env call.content) with
    | some record => (db, .deciding (some record))
    | none => if searchQuery env call.content = none then (db, .deciding none) else (db, .searching)
  | (db, .searching) =>
    (db, .deciding ((searchQuery env call.content).bind (db.lookupSimilar env)))
  | (db, .deciding existing) =>
    match db.commitCandidate env existing call.content call.kind call.evidence call.now with
    | .ok (record, db') => (db', .returned record)
    | .error error => (db, .threw error)
  | (db, .returned record) => (db, .returned record)
  | (db, .threw error) => (db, .threw error)

theorem next_of_done {env : MemoryEnv} {call : CandidateCall} {db : ProjectMemoryDb}
    {phase : CallPhase} (h : phase.done = true) : next env call (db, phase) = (db, phase) := by
  cases phase with
  | returned record => rfl
  | threw error => rfl
  | _ => cases h

/-- The record a call takes up if it goes on alone. -/
def existing (env : MemoryEnv) (call : CandidateCall) (db : ProjectMemoryDb) :
    CallPhase → Option ProjectMemoryRecord
  | .started => db.existing? env call.content
  | .searching => (searchQuery env call.content).bind (db.lookupSimilar env)
  | .deciding existing => existing
  | .returned _ | .threw _ => none

/-- The transaction of a call. -/
def commit (env : MemoryEnv) (call : CandidateCall) (db : ProjectMemoryDb)
    (existing : Option ProjectMemoryRecord) : ProjectMemoryDb × CallPhase :=
  match db.commitCandidate env existing call.content call.kind call.evidence call.now with
  | .ok (record, db') => (db', .returned record)
  | .error error => (db, .threw error)

theorem done_commit (env : MemoryEnv) (call : CandidateCall) (db : ProjectMemoryDb)
    (existing : Option ProjectMemoryRecord) : (commit env call db existing).2.done = true := by
  unfold commit
  split <;> rfl

/-- A call runs its transaction, or a lookup that leaves the database and what the call
will find. -/
theorem next_cases (env : MemoryEnv) (call : CandidateCall) (db : ProjectMemoryDb)
    {phase : CallPhase} (h : phase.done = false) :
    (∃ e, phase = .deciding e ∧ next env call (db, phase) = commit env call db e) ∨
      ∃ phase', next env call (db, phase) = (db, phase') ∧ phase'.done = false ∧
        phase'.existing env call db = phase.existing env call db ∧
        (phase' = .searching → db.lookupExact (normalize env call.content) = none) := by
  cases phase with
  | started =>
    refine Or.inr ?_
    cases hexact : db.lookupExact (normalize env call.content) with
    | some record =>
      refine ⟨.deciding (some record), by simp only [next, hexact], rfl, ?_, nofun⟩
      simp only [existing, existing?, hexact]
    | none =>
      by_cases hquery : searchQuery env call.content = none
      · refine ⟨.deciding none, by simp only [next, hexact, if_pos hquery], rfl, ?_, nofun⟩
        simp only [existing, existing?, hexact, hquery, Option.bind_none]
      · refine ⟨.searching, by simp only [next, hexact, if_neg hquery], rfl, ?_, fun _ => rfl⟩
        simp only [existing, existing?, hexact]
  | searching => exact Or.inr ⟨_, rfl, rfl, rfl, nofun⟩
  | deciding e => exact Or.inl ⟨e, rfl, rfl⟩
  | returned r => cases h
  | threw e => cases h

end CallPhase

/-! ## What a transaction leaves -/

namespace ProjectMemoryDb

/-- The evidence of a record comes from the session, too. -/
def Carries (db : ProjectMemoryDb) (id sessionId : JsString) : Prop :=
  ∃ row ∈ db.evidenceRows, row.recordId = id ∧ row.evidence.sessionId = sessionId

/-- Evidence is kept for records only. -/
def Owned (db : ProjectMemoryDb) : Prop :=
  ∀ row ∈ db.evidenceRows, row.recordId ∈ db.records.map (·.record.id)

theorem carries_insertEvidence {db : ProjectMemoryDb} {recordId id sessionId : JsString}
    {evidence : ProjectMemoryEvidence} :
    (db.insertEvidence recordId evidence).Carries id sessionId ↔
      db.Carries id sessionId ∨ id = recordId ∧ sessionId = evidence.sessionId := by
  unfold insertEvidence
  split
  · rename_i hany
    refine ⟨Or.inl, ?_⟩
    rintro (h | ⟨rfl, rfl⟩)
    · exact h
    obtain ⟨row, hrow, hsame⟩ := List.any_eq_true.mp hany
    exact ⟨row, hrow, (of_decide_eq_true hsame).1, (of_decide_eq_true hsame).2.1⟩
  · constructor
    · rintro ⟨row, hrow, hid, hsession⟩
      rcases List.mem_append.mp hrow with hrow | hrow
      · exact Or.inl ⟨row, hrow, hid, hsession⟩
      · obtain rfl := List.mem_singleton.mp hrow
        exact Or.inr ⟨hid.symm, hsession.symm⟩
    · rintro (⟨row, hrow, hrest⟩ | ⟨rfl, rfl⟩)
      · exact ⟨row, List.mem_append_left _ hrow, hrest⟩
      · exact ⟨_, List.mem_append_right _ (List.mem_singleton.mpr rfl), rfl, rfl⟩

theorem Owned.mem {db : ProjectMemoryDb} (h : db.Owned) {id sessionId : JsString}
    (hc : db.Carries id sessionId) : id ∈ db.records.map (·.record.id) := by
  obtain ⟨row, hrow, rfl, -⟩ := hc
  exact h row hrow

/-- A candidate with evidence from two sessions is ready. -/
theorem mem_readyCandidates {db : ProjectMemoryDb} {row : RecordRow} (hrow : row ∈ db.records)
    (htier : row.record.tier = .candidate) {s t : JsString} (hne : s ≠ t)
    (hs : db.Carries row.record.id s) (ht : db.Carries row.record.id t) :
    row.record ∈ db.readyCandidates := by
  have hmem : ∀ u, db.Carries row.record.id u →
      u ∈ ((db.evidence row.record.id).map (·.sessionId)).dedup := by
    rintro u ⟨er, her, hid, rfl⟩
    refine List.mem_dedup.mpr (List.mem_map_of_mem (List.mem_map_of_mem ?_))
    exact List.mem_filter.mpr ⟨her, decide_eq_true hid⟩
  have htwo : [s, t].Subperm ((db.evidence row.record.id).map (·.sessionId)).dedup := by
    refine List.subperm_of_subset (by simpa using hne) ?_
    intro u hu
    rcases List.mem_pair.mp hu with rfl | rfl
    · exact hmem _ hs
    · exact hmem _ ht
  refine (List.perm_insertionSort ..).mem_iff.mpr (List.mem_filter.mpr ⟨?_, ?_⟩)
  · exact List.mem_map_of_mem hrow
  · exact decide_eq_true ⟨htier, htwo.length_le⟩

theorem row_of_candidate? {db : ProjectMemoryDb} {id : JsString} {r : ProjectMemoryRecord}
    (h : db.candidate? id = some r) : ∃ row ∈ db.records, row.record = r := by
  obtain ⟨row, hrow, rfl⟩ := Option.map_eq_some_iff.mp h
  exact ⟨row, List.mem_of_find?_eq_some hrow, rfl⟩

theorem row_of_similar {env : MemoryEnv} {db : ProjectMemoryDb} {query : Option JsString}
    {r : ProjectMemoryRecord} (h : query.bind (db.lookupSimilar env) = some r) :
    ∃ row ∈ db.records, row.record = r := by
  obtain ⟨q, -, hq⟩ := Option.bind_eq_some_iff.mp h
  obtain ⟨id, -, hid⟩ := List.mem_filterMap.mp (List.mem_of_head? hq)
  exact row_of_candidate? hid

theorem lookupExact_eq_none {db : ProjectMemoryDb} {normalized : JsString} :
    db.lookupExact normalized = none ↔ ∀ row ∈ db.records, row.normalized ≠ normalized := by
  simp [lookupExact, List.find?_eq_none]

theorem row_of_lookupExact {db : ProjectMemoryDb} {normalized : JsString}
    {r : ProjectMemoryRecord} (h : db.lookupExact normalized = some r) :
    ∃ row ∈ db.records, row.record = r ∧ row.normalized = normalized := by
  obtain ⟨row, hrow, rfl⟩ := Option.map_eq_some_iff.mp h
  have hnormalized := List.find?_some hrow
  exact ⟨row, List.mem_of_find?_eq_some hrow, rfl, of_decide_eq_true hnormalized⟩

/-- Two rows of one normalized content are one row. -/
theorem row_unique {db : ProjectMemoryDb} {row row' : RecordRow} (hrow : row ∈ db.records)
    (hrow' : row' ∈ db.records) (h : row.normalized = row'.normalized) : row = row' :=
  List.inj_on_of_nodup_map db.normalizedUnique hrow hrow' h

/-- A record of the content is what the lookups find. -/
theorem existing?_of_row {env : MemoryEnv} {db : ProjectMemoryDb} {content : JsString}
    {row : RecordRow} (hrow : row ∈ db.records) (h : row.normalized = normalize env content) :
    db.existing? env content = some row.record := by
  unfold existing?
  cases hexact : db.lookupExact (normalize env content) with
  | none => exact absurd h (lookupExact_eq_none.mp hexact row hrow)
  | some r =>
    obtain ⟨row', hrow', rfl, hnormalized⟩ := row_of_lookupExact hexact
    rw [row_unique hrow hrow' (h.trans hnormalized.symm)]

theorem row_of_existing? {env : MemoryEnv} {db : ProjectMemoryDb} {content : JsString}
    {r : ProjectMemoryRecord} (h : db.existing? env content = some r) :
    ∃ row ∈ db.records, row.record = r := by
  unfold existing? at h
  split at h
  · rename_i hexact
    obtain ⟨row, hrow, hr, -⟩ := row_of_lookupExact hexact
    cases h
    exact ⟨row, hrow, hr⟩
  · exact row_of_similar h

/-! ### Every operation keeps the evidence of records only -/

theorem Owned.insertEvidence {db : ProjectMemoryDb} (h : db.Owned) {recordId : JsString}
    (hmem : recordId ∈ db.records.map (·.record.id)) (evidence : ProjectMemoryEvidence) :
    (db.insertEvidence recordId evidence).Owned := by
  intro row hrow
  rw [insertEvidence_records]
  rw [ProjectMemoryDb.insertEvidence] at hrow
  split at hrow
  · exact h row hrow
  · rcases List.mem_append.mp hrow with hrow | hrow
    · exact h row hrow
    · obtain rfl := List.mem_singleton.mp hrow
      exact hmem

theorem Owned.addCandidate {env : MemoryEnv} {db db' : ProjectMemoryDb} (h : db.Owned)
    {content now : JsString} {kind : ProjectMemoryKind} {evidence : ProjectMemoryEvidence}
    {r : ProjectMemoryRecord} (hadd : db.addCandidate env content kind evidence now = .ok (r, db')) :
    db'.Owned := by
  unfold ProjectMemoryDb.addCandidate commitCandidate at hadd
  split at hadd
  · rename_i hexisting
    cases hadd
    obtain ⟨row, hrow, rfl⟩ := row_of_existing? hexisting
    exact h.insertEvidence (List.mem_map_of_mem hrow) evidence
  · obtain ⟨inserted, hinsert, hadd⟩ := Except.bind_eq_ok.mp hadd
    cases hadd
    obtain ⟨hrecords, hrows⟩ := insertRecord_ok hinsert
    have howned : inserted.Owned := by
      intro row hrow
      rw [hrecords, List.map_append]
      exact List.mem_append_left _ (h row (hrows ▸ hrow))
    refine howned.insertEvidence ?_ evidence
    rw [hrecords, List.map_append]
    exact List.mem_append_right _ (List.mem_singleton_self _)

theorem Owned.updateRecord {db : ProjectMemoryDb} (h : db.Owned) {id : JsString}
    {update : ProjectMemoryRecord → ProjectMemoryRecord} (hid : ∀ r, (update r).id = r.id) :
    (db.updateRecord id update hid).Owned := by
  intro row hrow
  obtain ⟨old, hold, heq⟩ := List.mem_map.mp (h row hrow)
  refine List.mem_map.mpr ⟨_, List.mem_map_of_mem hold, ?_⟩
  rw [← heq]
  split
  · exact hid old.record
  · rfl

theorem Owned.promoteCandidate {env : MemoryEnv} {db db' : ProjectMemoryDb} (h : db.Owned)
    {candidate : ProjectMemoryRecord} {answers : PromotionAnswers} {now : JsString}
    (hpromote : PiMono.promoteCandidate env db candidate answers now = .ok db') : db'.Owned := by
  unfold PiMono.promoteCandidate at hpromote
  split at hpromote
  · cases hpromote
    exact h.updateRecord _
  · split at hpromote
    · cases hpromote
      exact h.updateRecord _
    · split at hpromote
      · cases hpromote
        exact (h.updateRecord _).updateRecord _
      · cases hpromote
        exact h
  · split at hpromote
    · split at hpromote
      · cases hpromote
        exact h
      · obtain ⟨⟨edited, added⟩, hadd, hpromote⟩ := Except.bind_eq_ok.mp hpromote
        cases hpromote
        exact (h.addCandidate hadd).updateRecord _
    · cases hpromote
      exact h
  · cases hpromote
    exact h
  · cases hpromote
    exact h

theorem owned_empty : empty.Owned := nofun

theorem Owned.step {env : MemoryEnv} {s : Promotion} (h : s.db.Owned) (e : PromotionEvent) :
    (s.step env e).db.Owned := by
  cases e with
  | record content kind evidence now =>
    rw [Promotion.step]
    split
    · rename_i hadd
      exact h.addCandidate hadd
    · exact h
  | forget id => exact h.updateRecord _
  | call =>
    rw [Promotion.step]
    split <;> exact h
  | answer answers now =>
    rw [Promotion.step]
    split
    · exact h
    · split
      · rename_i hpromote
        exact h.promoteCandidate hpromote
      · exact h

/-- Whatever sessions record and users answer, evidence is kept for records only. -/
theorem owned_run (env : MemoryEnv) (events : List PromotionEvent) :
    (Promotion.start.run env events).db.Owned := by
  induction events using List.reverseRecOn with
  | nil => exact owned_empty
  | append_singleton events e ih =>
    rw [Promotion.run_concat]
    exact ih.step e

end ProjectMemoryDb

namespace CallPhase

variable (env : MemoryEnv) (call : CandidateCall) (db : ProjectMemoryDb)

theorem commit_some (r : ProjectMemoryRecord) : commit env call db (some r)
    = (db.insertEvidence r.id call.evidence, .returned r) := rfl

/-- The record a call makes when its lookups found none. -/
abbrev newRecord (env : MemoryEnv) (call : CandidateCall) : ProjectMemoryRecord :=
  ProjectMemoryDb.newRecord env call.content call.kind call.now

/-- Inserting a record, if its id and its content are new. -/
theorem commit_none :
    (newRecord env call).id ∉ db.records.map (·.record.id) ∧
        normalize env call.content ∉ db.records.map (·.normalized) ∧
        (∃ db', commit env call db none = (db', .returned (newRecord env call)) ∧
          db'.records = db.records ++ [⟨newRecord env call, normalize env call.content⟩] ∧
          ∀ id sessionId, db'.Carries id sessionId ↔ db.Carries id sessionId ∨
            id = (newRecord env call).id ∧ sessionId = call.evidence.sessionId) ∨
      ((newRecord env call).id ∈ db.records.map (·.record.id) ∨
        normalize env call.content ∈ db.records.map (·.normalized)) ∧
        ∃ error, commit env call db none = (db, .threw error) := by
  unfold commit commitCandidate
  simp only
  cases hinsert : db.insertRecord (newRecord env call) (normalize env call.content) with
  | error e =>
    refine Or.inr ⟨?_, e, ?_⟩
    · unfold insertRecord at hinsert
      split at hinsert
      · exact Or.inl ‹_›
      split at hinsert
      · exact Or.inr ‹_›
      · cases hinsert
    · rfl
  | ok db' =>
    obtain ⟨hrecords, hrows⟩ := insertRecord_ok hinsert
    have hnew : (newRecord env call).id ∉ db.records.map (·.record.id) ∧
        normalize env call.content ∉ db.records.map (·.normalized) := by
      unfold insertRecord at hinsert
      split at hinsert
      · cases hinsert
      split at hinsert
      · cases hinsert
      · exact ⟨‹_›, ‹_›⟩
    refine Or.inl ⟨hnew.1, hnew.2, _, rfl, ?_, fun id sessionId => ?_⟩
    · show (db'.insertEvidence _ _).records = _
      rw [insertEvidence_records, hrecords]
    · show (db'.insertEvidence _ _).Carries id sessionId ↔ _
      rw [carries_insertEvidence]
      unfold Carries
      rw [hrows]

end CallPhase

/-! ## Two calls -/

/-- The two calls. -/
inductive Party where
  | left
  | right
  deriving DecidableEq, Repr

def Party.other : Party → Party
  | .left => .right
  | .right => .left

theorem Party.other_ne (p : Party) : p.other ≠ p := by cases p <;> decide

theorem Party.eq_or_other (p q : Party) : q = p ∨ q = p.other := by
  cases p <;> cases q <;> simp [Party.other]

/-- The database and where the calls stand. -/
structure Race where
  db : ProjectMemoryDb
  phase : Party → CallPhase

namespace Race

variable {env : MemoryEnv} {calls : Party → CandidateCall}

def start (db : ProjectMemoryDb) : Race := ⟨db, fun _ => .started⟩

/-- A party's share of the state. -/
def put (s : Race) (p : Party) (r : ProjectMemoryDb × CallPhase) : Race :=
  ⟨r.1, Function.update s.phase p r.2⟩

/-- A party runs its next statement. -/
def step (env : MemoryEnv) (calls : Party → CandidateCall) (s : Race) (p : Party) : Race :=
  s.put p (CallPhase.next env (calls p) (s.db, s.phase p))

def run (env : MemoryEnv) (calls : Party → CandidateCall) (s : Race) (schedule : List Party) :
    Race :=
  schedule.foldl (step env calls) s

def complete (s : Race) : Prop := ∀ p, (s.phase p).done = true

@[simp] theorem phase_put (s : Race) (p : Party) (r : ProjectMemoryDb × CallPhase) :
    (s.put p r).phase p = r.2 := Function.update_self ..

@[simp] theorem phase_put_other (s : Race) (p : Party) (r : ProjectMemoryDb × CallPhase) :
    (s.put p r).phase p.other = s.phase p.other := Function.update_of_ne p.other_ne ..

@[simp] theorem phase_put_self (s : Race) (p : Party) (r : ProjectMemoryDb × CallPhase) :
    (s.put p.other r).phase p = s.phase p := Function.update_of_ne p.other_ne.symm ..

@[simp] theorem put_put (s : Race) (p : Party) (r r' : ProjectMemoryDb × CallPhase) :
    (s.put p r).put p r' = s.put p r' := by
  unfold put
  rw [Function.update_idem]

theorem step_of_done {s : Race} {p : Party} (h : (s.phase p).done = true) :
    s.step env calls p = s := by
  unfold step put
  rw [CallPhase.next_of_done h, Function.update_eq_self]

theorem run_of_complete {s : Race} (h : s.complete) (schedule : List Party) :
    s.run env calls schedule = s := by
  induction schedule with
  | nil => rfl
  | cons p schedule ih =>
    show (s.step env calls p).run env calls schedule = s
    rw [step_of_done (h p), ih]

/-- When one call is done, the other runs as if it were alone. -/
theorem run_alone {s : Race} {p : Party} (hp : (s.phase p).done = true)
    (hq : (s.phase p.other).done = false) {schedule : List Party}
    (hdone : (s.run env calls schedule).complete) :
    s.run env calls schedule = s.put p.other (CallPhase.commit env (calls p.other) s.db
      ((s.phase p.other).existing env (calls p.other) s.db)) := by
  induction schedule generalizing s with
  | nil => exact absurd (hdone p.other) (by rw [show s.run env calls [] = s from rfl, hq]; nofun)
  | cons q schedule ih =>
    have hrun : s.run env calls (q :: schedule) = (s.step env calls q).run env calls schedule := rfl
    rw [hrun] at hdone ⊢
    rcases p.eq_or_other q with rfl | rfl
    · rw [step_of_done hp] at hdone ⊢
      exact ih hp hq hdone
    · unfold step at hdone ⊢
      rcases CallPhase.next_cases env (calls p.other) s.db hq with
        ⟨e, hphase, hcommit⟩ | ⟨phase', hnext, hphase', hexisting, -⟩
      · rw [hcommit] at hdone ⊢
        rw [hphase]
        refine run_of_complete (fun q => ?_) schedule
        rcases p.eq_or_other q with rfl | rfl
        · rw [phase_put_self]
          exact hp
        · rw [phase_put]
          exact CallPhase.done_commit ..
      · rw [hnext] at hdone ⊢
        rw [ih (by rwa [phase_put_self]) (by rwa [phase_put]) hdone, phase_put, put_put]
        show s.put p.other (CallPhase.commit env (calls p.other) s.db
          (phase'.existing env (calls p.other) s.db)) = _
        rw [hexisting]

/-! ## Before the first commit -/

/-- The party that commits first, and the state in front of its transaction. -/
def firstCommit (env : MemoryEnv) (calls : Party → CandidateCall) :
    Race → List Party → Option (Party × Race)
  | _, [] => none
  | s, p :: schedule =>
    match s.phase p with
    | .deciding _ => some (p, s)
    | _ => firstCommit env calls (s.step env calls p) schedule

/-- No call has committed: what each has looked up is what the database says. -/
structure Looked (env : MemoryEnv) (calls : Party → CandidateCall) (db : ProjectMemoryDb)
    (s : Race) : Prop where
  same : s.db = db
  notDone : ∀ p, (s.phase p).done = false
  existing : ∀ p, (s.phase p).existing env (calls p) db = db.existing? env (calls p).content
  searching : ∀ p, s.phase p = .searching →
    db.lookupExact (normalize env (calls p).content) = none

theorem looked_start (db : ProjectMemoryDb) : Looked env calls db (start db) :=
  ⟨rfl, fun _ => rfl, fun _ => rfl, nofun⟩

/-- A lookup leaves what the calls know as it was. -/
theorem Looked.step {db : ProjectMemoryDb} {s : Race} (h : Looked env calls db s) {p : Party}
    (hp : ∀ e, s.phase p ≠ .deciding e) : Looked env calls db (s.step env calls p) := by
  obtain ⟨rfl, hnot, hexisting, hsearching⟩ := h
  rcases CallPhase.next_cases env (calls p) s.db (hnot p) with
    ⟨e, he, -⟩ | ⟨phase', hnext, hphase', hsame, hsearch⟩
  · exact absurd he (hp e)
  · unfold Race.step
    rw [hnext]
    refine ⟨rfl, fun q => ?_, fun q => ?_, fun q => ?_⟩
    all_goals rcases p.eq_or_other q with rfl | rfl
    · rwa [phase_put]
    · rw [phase_put_other]
      exact hnot _
    · rw [phase_put, hsame]
      exact hexisting q
    · rw [phase_put_other]
      exact hexisting _
    · rw [phase_put]
      exact hsearch
    · rw [phase_put_other]
      exact hsearching _

/-- In an interleaving that ends, some call commits first, knowing what the database
says. -/
theorem exists_firstCommit {db : ProjectMemoryDb} {s : Race} (h : Looked env calls db s)
    {schedule : List Party} (hdone : (s.run env calls schedule).complete) :
    ∃ p s' post, firstCommit env calls s schedule = some (p, s') ∧ Looked env calls db s' ∧
      s'.phase p = .deciding (db.existing? env (calls p).content) ∧
      s.run env calls schedule = (s'.step env calls p).run env calls post := by
  induction schedule generalizing s with
  | nil =>
    have hcon := hdone .left
    rw [show s.run env calls [] = s from rfl, h.notDone] at hcon
    cases hcon
  | cons p schedule ih =>
    by_cases hp : ∃ e, s.phase p = .deciding e
    · obtain ⟨e, he⟩ := hp
      have hexisting := h.existing p
      rw [he] at hexisting
      refine ⟨p, s, schedule, ?_, h, ?_, rfl⟩
      · simp only [firstCommit, he]
      · rw [he, ← hexisting]
        rfl
    · have hnot : ∀ e, s.phase p ≠ .deciding e := fun e he => hp ⟨e, he⟩
      obtain ⟨q, s', post, hfirst, hrest⟩ := ih (h.step hnot) hdone
      refine ⟨q, s', post, ?_, hrest⟩
      rw [firstCommit]
      split
      · rename_i e he
        exact absurd he (hnot e)
      · exact hfirst

/-- How an interleaving ends: the first transaction runs on the database as it was, and the
other call goes on alone from there. -/
theorem exists_outcome {db : ProjectMemoryDb} {schedule : List Party}
    (hdone : ((start db).run env calls schedule).complete) :
    ∃ p s', firstCommit env calls (start db) schedule = some (p, s') ∧ Looked env calls db s' ∧
      s'.phase p = .deciding (db.existing? env (calls p).content) ∧
      let first := CallPhase.commit env (calls p) db (db.existing? env (calls p).content)
      (start db).run env calls schedule = (s'.put p first).put p.other
        (CallPhase.commit env (calls p.other) first.1
          ((s'.phase p.other).existing env (calls p.other) first.1)) := by
  obtain ⟨p, s', post, hfirst, hlooked, hphase, hrun⟩ :=
    exists_firstCommit (looked_start db) hdone
  refine ⟨p, s', hfirst, hlooked, hphase, ?_⟩
  have hstep : s'.step env calls p
      = s'.put p (CallPhase.commit env (calls p) db (db.existing? env (calls p).content)) := by
    unfold step
    rw [hphase, hlooked.same]
    rfl
  rw [hrun] at hdone
  rw [hstep] at hrun hdone
  rw [hrun]
  have hother : ((s'.put p (CallPhase.commit env (calls p) db
      (db.existing? env (calls p).content))).phase p.other).done = false := by
    rw [phase_put_other]
    exact hlooked.notDone _
  have hself : ((s'.put p (CallPhase.commit env (calls p) db
      (db.existing? env (calls p).content))).phase p).done = true := by
    rw [phase_put]
    exact CallPhase.done_commit ..
  rw [run_alone hself hother hdone, phase_put_other]
  rfl

/-! ## Corroboration -/

/-- Both calls return and one record of the content carries the evidence of both sessions;
it is listed, if it is a candidate. -/
def Corroborated (calls : Party → CandidateCall) (normalized : JsString) (s : Race) : Prop :=
  (∀ p, ∃ r, s.phase p = .returned r) ∧ ∃ row ∈ s.db.records, row.normalized = normalized ∧
    (∀ p, s.db.Carries row.record.id (calls p).evidence.sessionId) ∧
    (row.record.tier = .candidate → row.record ∈ s.db.readyCandidates)

/-- The database has a record of the content; or the call that commits first finds none and
draws an id that is not in use, and the other looks the content up, or searches and finds
the new record, only then. -/
def InTime (env : MemoryEnv) (calls : Party → CandidateCall) (db : ProjectMemoryDb)
    (schedule : List Party) : Prop :=
  (∃ row ∈ db.records, row.normalized = normalize env (calls .left).content) ∨
    ∃ p s, firstCommit env calls (start db) schedule = some (p, s) ∧ s.phase p = .deciding none ∧
      (CallPhase.newRecord env (calls p)).id ∉ db.records.map (·.record.id) ∧
      (s.phase p.other = .started ∨ s.phase p.other = .searching ∧
        (searchQuery env (calls p.other).content).bind
            ((CallPhase.commit env (calls p) db none).1.lookupSimilar env)
          = some (CallPhase.newRecord env (calls p)))

/-- How the state ends when both transactions have run. -/
def ended (s : Race) (p : Party) (first second : ProjectMemoryDb × CallPhase) : Race :=
  (s.put p first).put p.other second

theorem ended_db (s : Race) (p : Party) (first second : ProjectMemoryDb × CallPhase) :
    (s.ended p first second).db = second.1 := rfl

theorem ended_returned (s : Race) (p : Party) (first second : ProjectMemoryDb × CallPhase) :
    (∀ q, ∃ r, (s.ended p first second).phase q = .returned r) ↔
      (∃ r, first.2 = .returned r) ∧ ∃ r, second.2 = .returned r := by
  have hp : (s.ended p first second).phase p = first.2 := by
    rw [ended, phase_put_self, phase_put]
  have hq : (s.ended p first second).phase p.other = second.2 := phase_put ..
  constructor
  · intro h
    obtain ⟨r, hr⟩ := h p
    obtain ⟨r', hr'⟩ := h p.other
    exact ⟨⟨r, hp ▸ hr⟩, r', hq ▸ hr'⟩
  · rintro ⟨⟨r, hr⟩, r', hr'⟩ q
    rcases p.eq_or_other q with rfl | rfl
    · exact ⟨r, hp.trans hr⟩
    · exact ⟨r', hq.trans hr'⟩

section Outcome

variable {db : ProjectMemoryDb} {normalized : JsString} {s : Race} {p : Party}

/-- Both calls take up one record of the content. -/
theorem corroborated_same (hne : (calls .left).evidence.sessionId
      ≠ (calls .right).evidence.sessionId) {row : RecordRow} (hrow : row ∈ db.records)
    (hnormalized : row.normalized = normalized)
    (hfirst : db.Carries row.record.id (calls p).evidence.sessionId) {first : CallPhase}
    (hreturned : ∃ r, first = .returned r) :
    Corroborated calls normalized (s.ended p (db, first)
      (CallPhase.commit env (calls p.other) db (some row.record))) := by
  have hboth : ∀ q, (db.insertEvidence row.record.id (calls p.other).evidence).Carries
      row.record.id (calls q).evidence.sessionId := by
    intro q
    rw [carries_insertEvidence]
    rcases p.eq_or_other q with rfl | rfl
    · exact Or.inl hfirst
    · exact Or.inr ⟨rfl, rfl⟩
  refine ⟨(ended_returned ..).mpr ⟨hreturned, _, rfl⟩, row, ?_, hnormalized, hboth, ?_⟩
  · show row ∈ (db.insertEvidence _ _).records
    rwa [insertEvidence_records]
  · intro htier
    refine mem_readyCandidates ?_ htier hne (hboth .left) (hboth .right)
    show row ∈ (db.insertEvidence _ _).records
    rwa [insertEvidence_records]

/-- A first call that takes up a record of another content: the other call cannot make up
for it. -/
theorem not_corroborated_other (hdb : db.Owned)
    (hne : (calls p).evidence.sessionId ≠ (calls p.other).evidence.sessionId)
    (hno : ∀ row ∈ db.records, row.normalized ≠ normalized) {row : RecordRow}
    (hrow : row ∈ db.records) (existing : Option ProjectMemoryRecord) :
    ¬ Corroborated calls normalized (s.ended p
      (CallPhase.commit env (calls p) db (some row.record))
      (CallPhase.commit env (calls p.other)
        (CallPhase.commit env (calls p) db (some row.record)).1 existing)) := by
  rintro ⟨hreturned, row', hrow', hnormalized, hcarries, -⟩
  rw [ended_returned] at hreturned
  rw [ended_db] at hrow' hcarries
  rw [CallPhase.commit_some] at hrow' hcarries hreturned
  cases existing with
  | some r =>
    rw [CallPhase.commit_some, insertEvidence_records, insertEvidence_records] at hrow'
    exact hno row' hrow' hnormalized
  | none =>
    rcases CallPhase.commit_none env (calls p.other)
      (db.insertEvidence row.record.id (calls p).evidence) with
      ⟨hid, -, db', hcommit, hrecords, hiff⟩ | ⟨-, error, hcommit⟩
    · rw [hcommit] at hrow' hcarries
      rw [insertEvidence_records] at hid hrecords
      have hnew : row' = ⟨CallPhase.newRecord env (calls p.other),
          normalize env (calls p.other).content⟩ := by
        rw [hrecords] at hrow'
        rcases List.mem_append.mp hrow' with hrow' | hrow'
        · exact absurd hnormalized (hno row' hrow')
        · exact List.mem_singleton.mp hrow'
      have hp := (hiff _ _).mp (hcarries p)
      rw [hnew, carries_insertEvidence] at hp
      rcases hp with (hp | ⟨hsameId, -⟩) | ⟨-, hsession⟩
      · exact hid (hdb.mem hp)
      · exact hid (List.mem_map.mpr ⟨row, hrow, hsameId.symm⟩)
      · exact hne hsession
    · rw [hcommit] at hreturned
      obtain ⟨-, r, hr⟩ := hreturned
      cases hr

/-- A first call that inserts the record: the other has to take it up. -/
theorem corroborated_new_iff (hdb : db.Owned)
    (hne : (calls p).evidence.sessionId ≠ (calls p.other).evidence.sessionId)
    (hsame : ∀ q, normalize env (calls q).content = normalized) {db' : ProjectMemoryDb}
    (hid : (CallPhase.newRecord env (calls p)).id ∉ db.records.map (·.record.id))
    (hrecords : db'.records = db.records ++ [⟨CallPhase.newRecord env (calls p), normalized⟩])
    (hiff : ∀ id sessionId, db'.Carries id sessionId ↔ db.Carries id sessionId ∨
      id = (CallPhase.newRecord env (calls p)).id ∧ sessionId = (calls p).evidence.sessionId)
    {existing : Option ProjectMemoryRecord}
    (hexisting : ∀ r, existing = some r → ∃ row ∈ db'.records, row.record = r) :
    Corroborated calls normalized (s.ended p
        (db', .returned (CallPhase.newRecord env (calls p)))
        (CallPhase.commit env (calls p.other) db' existing)) ↔
      existing = some (CallPhase.newRecord env (calls p)) := by
  have hrow : ⟨CallPhase.newRecord env (calls p), normalized⟩ ∈ db'.records := by
    rw [hrecords]
    exact List.mem_append_right _ (List.mem_singleton.mpr rfl)
  constructor
  · rintro ⟨hreturned, row, hrow', hnormalized, hcarries, -⟩
    rw [ended_returned] at hreturned
    rw [ended_db] at hrow' hcarries
    cases existing with
    | none =>
      -- the content is in the database now, so the insertion throws
      rcases CallPhase.commit_none env (calls p.other) db' with
        ⟨-, hnot, -⟩ | ⟨-, error, hcommit⟩
      · rw [hsame p.other] at hnot
        exact absurd (List.mem_map_of_mem hrow) hnot
      · rw [hcommit] at hreturned
        obtain ⟨-, r, hr⟩ := hreturned
        cases hr
    | some r =>
      rw [CallPhase.commit_some] at hrow' hcarries
      rw [insertEvidence_records] at hrow'
      obtain rfl : row = ⟨CallPhase.newRecord env (calls p), normalized⟩ :=
        row_unique hrow' hrow hnormalized
      have hq := carries_insertEvidence.mp (hcarries p.other)
      rw [hiff] at hq
      rcases hq with (hq | ⟨-, hsession⟩) | ⟨hsameId, -⟩
      · exact absurd (hdb.mem hq) hid
      · exact absurd hsession hne.symm
      · obtain ⟨row', hrow'', rfl⟩ := hexisting r rfl
        rw [List.inj_on_of_nodup_map db'.ids hrow'' hrow hsameId.symm]
  · rintro rfl
    have hlr : (calls .left).evidence.sessionId ≠ (calls .right).evidence.sessionId := by
      cases p
      · exact hne
      · exact hne.symm
    exact corroborated_same hlr hrow rfl ((hiff _ _).mpr (Or.inr ⟨rfl, rfl⟩)) ⟨_, rfl⟩

end Outcome

/-- With a record of the content in the database, every call takes it up. -/
theorem Looked.existing_of_row {db db' : ProjectMemoryDb} {s : Race}
    (h : Looked env calls db s) {p : Party} {row : RecordRow} (hrow : row ∈ db.records)
    (hrow' : row ∈ db'.records) (hnormalized : row.normalized = normalize env (calls p).content) :
    (s.phase p).existing env (calls p) db' = some row.record := by
  have hnot := h.notDone p
  have hexisting := h.existing p
  cases hphase : s.phase p with
  | started => exact existing?_of_row hrow' hnormalized
  | searching =>
    exact absurd hnormalized (lookupExact_eq_none.mp (h.searching p hphase) row hrow)
  | deciding e =>
    rw [hphase] at hexisting
    exact hexisting.trans (existing?_of_row hrow hnormalized)
  | returned r =>
    rw [hphase] at hnot
    cases hnot
  | threw e =>
    rw [hphase] at hnot
    cases hnot

/-- What a call takes up is in the database. -/
theorem Looked.row_of_existing {db db' : ProjectMemoryDb} {s : Race} (h : Looked env calls db s)
    (hsub : ∀ row ∈ db.records, row ∈ db'.records) {p : Party} {r : ProjectMemoryRecord}
    (hr : (s.phase p).existing env (calls p) db' = some r) :
    ∃ row ∈ db'.records, row.record = r := by
  have hexisting := h.existing p
  cases hphase : s.phase p with
  | started =>
    rw [hphase] at hr
    exact row_of_existing? hr
  | searching =>
    rw [hphase] at hr
    exact row_of_similar hr
  | deciding e =>
    rw [hphase] at hr hexisting
    obtain ⟨row, hrow, hrecord⟩ := row_of_existing? (hexisting.symm.trans hr)
    exact ⟨row, hsub row hrow, hrecord⟩
  | returned r' =>
    rw [hphase] at hr
    cases hr
  | threw e =>
    rw [hphase] at hr
    cases hr

/-- The evidence of both sessions ends up at one record of the content exactly when the
second call learns of the record in time. -/
theorem corroborated_iff {db : ProjectMemoryDb} (hdb : db.Owned)
    (hsame : normalize env (calls .left).content = normalize env (calls .right).content)
    (hne : (calls .left).evidence.sessionId ≠ (calls .right).evidence.sessionId)
    {schedule : List Party} (hdone : ((start db).run env calls schedule).complete) :
    Corroborated calls (normalize env (calls .left).content)
        ((start db).run env calls schedule) ↔ InTime env calls db schedule := by
  obtain ⟨p, s, hfirst, hlooked, hphase, hrun⟩ := exists_outcome hdone
  rw [hrun]
  have hsame' : ∀ q, normalize env (calls q).content = normalize env (calls .left).content := by
    intro q
    cases q
    · rfl
    · exact hsame.symm
  have hne' : (calls p).evidence.sessionId ≠ (calls p.other).evidence.sessionId := by
    cases p
    · exact hne
    · exact hne.symm
  -- the condition speaks of the transaction that is the first one
  have hunique : ∀ {q s'}, firstCommit env calls (start db) schedule = some (q, s') →
      q = p ∧ s' = s := fun h => by
    rw [hfirst] at h
    exact ⟨(congrArg Prod.fst (Option.some.inj h)).symm,
      (congrArg Prod.snd (Option.some.inj h)).symm⟩
  by_cases hhas : ∃ row ∈ db.records, row.normalized = normalize env (calls .left).content
  · obtain ⟨row, hrow, hnormalized⟩ := hhas
    refine iff_of_true ?_ (Or.inl ⟨row, hrow, hnormalized⟩)
    have hexisting := existing?_of_row hrow (hnormalized.trans (hsame' p).symm)
    simp only [hexisting]
    have hrow' : row ∈ (CallPhase.commit env (calls p) db (some row.record)).1.records := by
      rw [CallPhase.commit_some, insertEvidence_records]
      exact hrow
    rw [hlooked.existing_of_row hrow hrow' (hnormalized.trans (hsame' p.other).symm)]
    exact corroborated_same hne hrow' hnormalized
      (carries_insertEvidence.mpr (Or.inr ⟨rfl, rfl⟩)) ⟨_, rfl⟩
  · have hno : ∀ row ∈ db.records, row.normalized ≠ normalize env (calls .left).content :=
      fun row hrow heq => hhas ⟨row, hrow, heq⟩
    cases hexisting : db.existing? env (calls p).content with
    | some r =>
      obtain ⟨row, hrow, rfl⟩ := row_of_existing? hexisting
      refine iff_of_false (not_corroborated_other hdb hne' hno hrow _) ?_
      rintro (h | ⟨q, s', h, hnone, -⟩)
      · exact hhas h
      · obtain ⟨rfl, rfl⟩ := hunique h
        rw [hphase, hexisting] at hnone
        cases hnone
    | none =>
      rcases CallPhase.commit_none env (calls p) db with
        ⟨hid, -, db', hcommit, hrecords, hiff⟩ | ⟨hused, error, hcommit⟩
      · rw [hsame' p] at hrecords
        have hsub : ∀ row ∈ db.records, row ∈ db'.records := fun row hrow => by
          rw [hrecords]
          exact List.mem_append_left _ hrow
        simp only [hcommit]
        refine (corroborated_new_iff hdb hne' hsame' hid hrecords hiff
          fun r hr => hlooked.row_of_existing hsub hr).trans ?_
        constructor
        · intro hnew
          refine Or.inr ⟨p, s, hfirst, by rw [hphase, hexisting], hid, ?_⟩
          cases hother : s.phase p.other with
          | started => exact Or.inl rfl
          | searching =>
            rw [hother] at hnew
            rw [hcommit]
            exact Or.inr ⟨rfl, hnew⟩
          | deciding e =>
            have hknown := hlooked.existing p.other
            rw [hother] at hnew hknown
            obtain ⟨row, hrow, hrecord⟩ := row_of_existing? (hknown.symm.trans hnew)
            exact absurd (List.mem_map.mpr ⟨row, hrow, congrArg ProjectMemoryRecord.id hrecord⟩) hid
          | returned r =>
            rw [hother] at hnew
            cases hnew
          | threw e =>
            rw [hother] at hnew
            cases hnew
        · rintro (h | ⟨q, s', h, -, -, htime⟩)
          · exact absurd h hhas
          · obtain ⟨rfl, rfl⟩ := hunique h
            rcases htime with hstarted | ⟨hsearching, hfound⟩
            · rw [hstarted]
              have hrow : ⟨CallPhase.newRecord env (calls q), normalize env (calls .left).content⟩
                  ∈ db'.records := by
                rw [hrecords]
                exact List.mem_append_right _ (List.mem_singleton.mpr rfl)
              exact existing?_of_row hrow (hsame' q.other).symm
            · rw [hsearching]
              rw [hcommit] at hfound
              exact hfound
      · have hused' : (CallPhase.newRecord env (calls p)).id ∈ db.records.map (·.record.id) := by
          rcases hused with hused | hused
          · exact hused
          · obtain ⟨row, hrow, heq⟩ := List.mem_map.mp hused
            exact absurd (heq.trans (hsame' p)) (hno row hrow)
        refine iff_of_false ?_ ?_
        · rintro ⟨hreturned, -⟩
          obtain ⟨⟨r, hr⟩, -⟩ := (ended_returned ..).mp hreturned
          rw [hcommit] at hr
          cases hr
        · rintro (h | ⟨q, s', h, -, hid, -⟩)
          · exact hhas h
          · obtain ⟨rfl, rfl⟩ := hunique h
            exact hid hused'

/-- Two sessions that record the same content. -/
def sampleCalls : Party → CandidateCall
  | .left => ⟨js "a", .convention, ⟨js "s1", js "e", js "x", none, none, none⟩, Promotion.sampleNow⟩
  | .right => ⟨js "a", .convention, ⟨js "s2", js "e", js "x", none, none, none⟩,
      Promotion.sampleNow⟩

/-- One call after the other. -/
theorem corroborated_iff_turns :
    Corroborated sampleCalls (normalize Promotion.sampleEnv (js "a"))
      ((start .empty).run Promotion.sampleEnv sampleCalls
        [.left, .left, .left, .right, .right]) := by
  refine (corroborated_iff owned_empty rfl (by decide) fun p => by cases p <;> decide).mpr ?_
  exact .inr ⟨.left, _, rfl, rfl, by decide, .inl rfl⟩

/-- Both calls look the content up before one of them commits: the other one throws. -/
theorem corroborated_not : ¬ ∀ (env : MemoryEnv) (db : ProjectMemoryDb)
    (calls : Party → CandidateCall) (schedule : List Party), db.Owned →
    normalize env (calls .left).content = normalize env (calls .right).content →
    (calls .left).evidence.sessionId ≠ (calls .right).evidence.sessionId →
    ((start db).run env calls schedule).complete →
      Corroborated calls (normalize env (calls .left).content)
        ((start db).run env calls schedule) := by
  intro h
  obtain ⟨hreturned, -⟩ := h Promotion.sampleEnv .empty sampleCalls
    [.left, .left, .right, .right, .left, .right] owned_empty rfl (by decide)
    fun p => by cases p <;> decide
  obtain ⟨r, hr⟩ := hreturned .right
  have hthrew : ((start .empty).run Promotion.sampleEnv sampleCalls
      [.left, .left, .right, .right, .left, .right]).phase .right = .threw .primaryKey := by
    rfl
  rw [hr] at hthrew
  cases hthrew

end Race

end PiMono
