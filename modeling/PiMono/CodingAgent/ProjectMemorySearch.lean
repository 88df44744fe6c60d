import PiMono.CodingAgent.ProjectMemoryRace

/-!
# Edited candidates

`addCandidate` returns a candidate that the full text search finds before it makes a record
of its own. `MatchesSharedTerms` is what the search is taken to do, in any order and with any
notion of a row that has a term (the tokenizer splits at hyphens, the words of a query do not);
on it `existing?_eq_none` says when a text gets a record of its own, and
`promoteCandidate_edited_iff` when an edit is what the user approves.
-/

namespace PiMono

open ProjectMemoryDb

/-! ## What the search finds -/

/-- `/[\p{L}\p{N}_-]+/gu`: the words of a text. -/
def textTerms (env : MemoryEnv) (text : JsString) : List (List Char) :=
  wordRuns (fun c => env.isLetterOrNumber c || c == '_' || c == '-') [] (scalars text)

/-- The words a text is searched by. -/
def searchTerms (env : MemoryEnv) (text : JsString) : List (List Char) :=
  (textTerms env text).take 12

/-- The content has a word that the text is searched by; `hasTerm` is how FTS5 finds a quoted term
in a content. -/
def SharesTerm (hasTerm : List Char → JsString → Bool) (env : MemoryEnv)
    (text content : JsString) : Prop :=
  ∃ term ∈ searchTerms env text, hasTerm term content = true

instance (hasTerm : List Char → JsString → Bool) (env : MemoryEnv) (text content : JsString) :
    Decidable (SharesTerm hasTerm env text content) :=
  inferInstanceAs (Decidable (∃ term ∈ _, _ = _))

/-- FTS5: the query of a text, quoted terms with `OR` between them, matches the rows that
share one. -/
def MatchesSharedTerms (hasTerm : List Char → JsString → Bool) (env : MemoryEnv) (text : JsString)
    (rows : List (JsString × JsString)) : Prop :=
  ∀ query id : JsString, searchQuery env text = some query →
    (id ∈ env.matchRows query rows ↔
      ∃ content, (id, content) ∈ rows ∧ SharesTerm hasTerm env text content)

/-- A candidate has a word of the text. -/
def HasSimilarCandidate (hasTerm : List Char → JsString → Bool) (env : MemoryEnv)
    (db : ProjectMemoryDb) (text : JsString) : Prop :=
  ∃ indexed ∈ db.recordSearch, SharesTerm hasTerm env text indexed.2 ∧
    ∃ row ∈ db.records, row.record.id = indexed.1 ∧ row.record.tier = .candidate

variable {hasTerm : List Char → JsString → Bool} {env : MemoryEnv} {db db' : ProjectMemoryDb}
  {content now : JsString}

theorem searchQuery_eq_none : searchQuery env content = none ↔ searchTerms env content = [] := by
  have hquery : searchQuery env content = if searchTerms env content = [] then none
      else some ((js " OR ").intercalate
        ((searchTerms env content).map fun term => [0x22] ++ term.flatMap utf16 ++ [0x22])) := rfl
  rw [hquery]
  split <;> simp [*]

namespace ProjectMemoryDb

theorem candidate?_isSome {id : JsString} : (db.candidate? id).isSome ↔
    ∃ row ∈ db.records, row.record.id = id ∧ row.record.tier = .candidate := by
  rw [candidate?, Option.isSome_map, List.find?_isSome]
  simp only [decide_eq_true_eq]

theorem lookupSimilar_isSome (hmatch : MatchesSharedTerms hasTerm env content db.recordSearch)
    {query : JsString} (hquery : searchQuery env content = some query) :
    (db.lookupSimilar env query).isSome ↔ HasSimilarCandidate hasTerm env db content := by
  have hhead : ∀ rs : List ProjectMemoryRecord, rs.head?.isSome ↔ ∃ r, r ∈ rs := by
    intro rs
    cases rs <;> simp
  rw [lookupSimilar, hhead]
  constructor
  · rintro ⟨r, hr⟩
    obtain ⟨id, hid, hfound⟩ := List.mem_filterMap.mp hr
    obtain ⟨text, hrow, hshares⟩ := (hmatch _ _ hquery).mp hid
    exact ⟨(id, text), hrow, hshares, candidate?_isSome.mp (by rw [hfound]; rfl)⟩
  · rintro ⟨⟨id, text⟩, hrow, hshares, hcandidate⟩
    obtain ⟨r, hr⟩ := Option.isSome_iff_exists.mp (candidate?_isSome.mpr hcandidate)
    exact ⟨r, List.mem_filterMap.mpr
      ⟨id, (hmatch _ _ hquery).mpr ⟨text, hrow, hshares⟩, hr⟩⟩

/-- A text gets a record of its own where no record has it and no candidate has a word of
it. -/
theorem existing?_eq_none (hmatch : MatchesSharedTerms hasTerm env content db.recordSearch) :
    db.existing? env content = none ↔
      (∀ row ∈ db.records, row.normalized ≠ normalize env content) ∧
        ¬ HasSimilarCandidate hasTerm env db content := by
  rw [existing?]
  cases hexact : db.lookupExact (normalize env content) with
  | some r =>
    obtain ⟨row, hrow, -, hnormalized⟩ := row_of_lookupExact hexact
    simp only [reduceCtorEq, false_iff]
    exact fun h => h.1 row hrow hnormalized
  | none =>
    have hnone := lookupExact_eq_none.mp hexact
    rw [and_iff_right hnone]
    dsimp only
    cases hquery : searchQuery env content with
    | none =>
      rw [Option.bind_none, eq_self_iff_true, true_iff]
      rintro ⟨-, -, ⟨term, hterm, -⟩, -⟩
      rw [searchQuery_eq_none.mp hquery] at hterm
      cases hterm
    | some query =>
      rw [Option.bind_some, ← lookupSimilar_isSome hmatch hquery, Option.not_isSome_iff_eq_none]

/-! ## What the transaction leaves -/

theorem mem_records_approve {id : JsString} {tier : ProjectMemoryTier} {row : RecordRow} :
    row ∈ (db.approve id tier now).records ↔ ∃ old ∈ db.records, row
      = if old.record.id = id then
          { old with record := { old.record with tier := tier, lastConfirmedAt := now } }
        else old := by
  rw [approve, updateRecord, List.mem_map]
  exact exists_congr fun old => and_congr_right fun _ => eq_comm

/-- Approving leaves the normalized texts. -/
theorem normalized_approve {id : JsString} {tier : ProjectMemoryTier} :
    (db.approve id tier now).records.map (·.normalized) = db.records.map (·.normalized) := by
  rw [approve, updateRecord, List.map_map]
  refine List.map_congr_left fun row _ => ?_
  show (if _ then _ else _ : RecordRow).normalized = _
  split <;> rfl

theorem evidence_ne_nil_of_ready {candidate : ProjectMemoryRecord}
    (h : candidate ∈ db.readyCandidates) : db.evidence candidate.id ≠ [] := by
  have hmem := (List.perm_insertionSort ..).mem_iff.mp h
  have htwo := (of_decide_eq_true (List.mem_filter.mp hmem).2).2
  intro hnone
  rw [hnone] at htwo
  exact absurd htwo (by decide)

end ProjectMemoryDb

/-! ## Edits -/

/-- After the edit a record of the text is in the archive. -/
def EditApproved (env : MemoryEnv) (content : JsString)
    (result : Except SqliteError ProjectMemoryDb) : Prop :=
  ∃ db', result = .ok db' ∧ ∃ row ∈ db'.records, row.record.tier = .archive ∧
    row.normalized = normalize env content

/-- **Edit and approve archive.** The edited text is what is approved exactly where a record
has it already, or where no candidate has a word of it (and the id of the new record is
new). -/
theorem promoteCandidate_edited_iff (hmatch : MatchesSharedTerms hasTerm env content db.recordSearch)
    {candidate : ProjectMemoryRecord} (hready : candidate ∈ db.readyCandidates)
    (hblank : isBlank content = false) (demote : Option JsString) (now : JsString) :
    EditApproved env content (promoteCandidate env db candidate
        ⟨some .editAndApproveArchive, demote, some content⟩ now) ↔
      (∃ row ∈ db.records, row.normalized = normalize env content) ∨
        (¬ HasSimilarCandidate hasTerm env db content ∧
          (newRecord env content candidate.kind now).id ∉ db.records.map (·.record.id)) := by
  obtain ⟨first, others, hevidence⟩ :=
    List.exists_cons_of_ne_nil (evidence_ne_nil_of_ready hready)
  have hpromote : promoteCandidate env db candidate
      ⟨some .editAndApproveArchive, demote, some content⟩ now
        = (db.addCandidate env content candidate.kind first now).bind fun added =>
            .ok (added.2.approve added.1.id .archive now) := by
    rw [promoteCandidate]
    dsimp only
    rw [hevidence]
    dsimp only
    rw [hblank, if_neg Bool.false_ne_true]
    rfl
  rw [hpromote, addCandidate]
  cases hexisting : db.existing? env content with
  | some r =>
    -- the transaction adds evidence to the record that was found
    have hcommit : db.commitCandidate env (some r) content candidate.kind first now
        = .ok (r, db.insertEvidence r.id first) := rfl
    rw [hcommit]
    show EditApproved env content (.ok _) ↔ _
    constructor
    · rintro ⟨db', hdb', row, hrow, -, hnormalized⟩
      cases hdb'
      have hmem := List.mem_map_of_mem (f := (·.normalized)) hrow
      rw [normalized_approve, insertEvidence_records, List.mem_map] at hmem
      obtain ⟨old, hold, heq⟩ := hmem
      exact .inl ⟨old, hold, heq.trans hnormalized⟩
    · intro h
      have hrow : ∃ row ∈ db.records, row.normalized = normalize env content := by
        by_contra hnone
        obtain h | ⟨hsimilar, -⟩ := h
        · exact hnone h
        · have hnew : db.existing? env content = none := (existing?_eq_none hmatch).mpr
            ⟨fun row hrow heq => hnone ⟨row, hrow, heq⟩, hsimilar⟩
          rw [hnew] at hexisting
          cases hexisting
      obtain ⟨row, hrow, hnormalized⟩ := hrow
      rw [existing?_of_row hrow hnormalized] at hexisting
      cases hexisting
      refine ⟨_, rfl, _, mem_records_approve.mpr ⟨row, ?_, rfl⟩, ?_⟩
      · rwa [insertEvidence_records]
      · rw [if_pos rfl]
        exact ⟨rfl, hnormalized⟩
  | none =>
    obtain ⟨hnone, hsimilar⟩ := (existing?_eq_none hmatch).mp hexisting
    have hexact : ¬ ∃ row ∈ db.records, row.normalized = normalize env content :=
      not_exists.mpr fun row hrow => hnone row hrow.1 hrow.2
    have hcommit : db.commitCandidate env none content candidate.kind first now
        = (db.insertRecord (newRecord env content candidate.kind now) (normalize env content)).bind
          fun db => .ok (newRecord env content candidate.kind now,
            db.insertEvidence (newRecord env content candidate.kind now).id first) := rfl
    rw [hcommit, or_iff_right hexact, and_iff_right hsimilar]
    constructor
    · rintro ⟨db', hdb', -⟩ hused
      rw [insertRecord, dif_pos hused] at hdb'
      cases hdb'
    · intro hfresh
      have hfreeText : normalize env content ∉ db.records.map (·.normalized) := by
        rw [List.mem_map]
        exact hexact
      rw [insertRecord, dif_neg hfresh, dif_neg hfreeText]
      refine ⟨_, rfl, _, mem_records_approve.mpr
        ⟨⟨newRecord env content candidate.kind now, normalize env content⟩, ?_, rfl⟩, ?_⟩
      · rw [insertEvidence_records]
        exact List.mem_append_right _ (List.mem_singleton.mpr rfl)
      · rw [if_pos rfl]
        exact ⟨rfl, rfl⟩

section Runs

/-- An environment of ASCII words, without a search. -/
def asciiEnv : MemoryEnv where
  toLocaleLowerCase := id
  isLetterOrNumber c := c.isAlphanum
  sha256 _ := js "0f1e2d3c4b5a69788796a5b4c3d2e1f00f1e2d3c4b5a69788796a5b4c3d2e1f0"
  matchRows _ _ := []

/-- The text a user writes. -/
def editedText : JsString := js "use npm"

/-- The term is a word of the content. -/
def isWordOf (term : List Char) (content : JsString) : Bool :=
  decide (term ∈ textTerms asciiEnv content)

/-- The search for it, in the order of the table. -/
def editEnv : MemoryEnv :=
  { asciiEnv with
    matchRows := fun _ rows =>
      (rows.filter fun row => decide (SharesTerm isWordOf asciiEnv editedText row.2)).map (·.1) }

theorem editEnv_matches (rows : List (JsString × JsString)) :
    MatchesSharedTerms isWordOf editEnv editedText rows := by
  intro query id _
  show id ∈ (rows.filter _).map (·.1) ↔ ∃ content, (id, content) ∈ rows ∧
    SharesTerm isWordOf asciiEnv editedText content
  simp

def pnpmCandidate : ProjectMemoryRecord :=
  ⟨js "00000000000000aa", js "use pnpm", .convention, .candidate, Promotion.sampleNow,
    Promotion.sampleNow⟩

def npmRecord : ProjectMemoryRecord :=
  ⟨js "00000000000000bb", js "use npm", .convention, .forgotten, Promotion.sampleNow,
    Promotion.sampleNow⟩

/-- The candidate, recorded by two sessions, and other records. -/
def editedDb (others : List RecordRow)
    (hids : ((⟨pnpmCandidate, js "use pnpm"⟩ :: others).map (·.record.id)).Nodup)
    (hnormalized : ((⟨pnpmCandidate, js "use pnpm"⟩ :: others).map (·.normalized)).Nodup) :
    ProjectMemoryDb where
  records := ⟨pnpmCandidate, js "use pnpm"⟩ :: others
  recordSearch := (⟨pnpmCandidate, js "use pnpm"⟩ :: others).map fun row =>
    (row.record.id, row.record.content)
  evidenceRows := [⟨pnpmCandidate.id, ⟨js "s1", js "e", js "x", none, none, none⟩⟩,
    ⟨pnpmCandidate.id, ⟨js "s2", js "e", js "x", none, none, none⟩⟩]
  ids := hids
  normalizedUnique := hnormalized

/-- The edited text is a record that was forgotten: it is in the archive again. -/
theorem promoteCandidate_edited_npm : EditApproved editEnv editedText
    (promoteCandidate editEnv (editedDb [⟨npmRecord, js "use npm"⟩] (by decide) (by decide))
      pnpmCandidate ⟨some .editAndApproveArchive, none, some editedText⟩ Promotion.sampleNow) :=
  (promoteCandidate_edited_iff (editEnv_matches _) (by decide) (by decide) none
    Promotion.sampleNow).mpr (.inl (by decide))

/-- The search finds the candidate that is edited, and its old text is approved. -/
theorem promoteCandidate_edit_lost :
    let db := editedDb [] (by decide) (by decide)
    MatchesSharedTerms isWordOf editEnv editedText db.recordSearch ∧ pnpmCandidate ∈ db.readyCandidates ∧
      isBlank editedText = false ∧
      ¬ EditApproved editEnv editedText (promoteCandidate editEnv db pnpmCandidate
        ⟨some .editAndApproveArchive, none, some editedText⟩ Promotion.sampleNow) := by
  refine ⟨editEnv_matches _, by decide, by decide, ?_⟩
  have hnone : ∀ row ∈ ((promoteCandidate editEnv (editedDb [] (by decide) (by decide))
      pnpmCandidate ⟨some .editAndApproveArchive, none, some editedText⟩
        Promotion.sampleNow).toOption.map
        (·.records)).getD [], row.normalized ≠ normalize editEnv editedText := by
    decide
  rintro ⟨db', hdb', row, hrow, -, hnormalized⟩
  rw [hdb'] at hnone
  exact hnone row hrow hnormalized

end Runs

end PiMono
