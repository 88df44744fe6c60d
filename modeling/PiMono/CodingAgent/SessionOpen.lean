import PiMono.CodingAgent.SessionAppend

/-!
# Opening a session file

`_setSessionFile` (`session-manager.ts:980-1013`) loads a file, migrates it and
indexes it.

- `migrateV1ToV2_forall₂` and `migrateV2ToV3_forall₂` follow the migrations line by line, and
  `migrate_sameLine` says that they leave every line readable;
- `byId_foldl_indexEntry` is the index of the entries;
- `World.openFile_behind` says what stands behind an opened session, `World.openFile_isOk` when
  a file is opened.
-/

namespace PiMono

/-! ## Migration keeps lines readable -/

namespace FileEntry

/-- A new version changes no other key. -/
theorem withVersion_get? (e : FileEntry) (n : Nat) {key : String} (h : key ≠ "version") :
    (e.withVersion n).raw.get? (js key) = e.raw.get? (js key) :=
  JsValue.get?_set_of_ne (by simpa using Ne.symm h) ..

theorem withVersion_strField? (e : FileEntry) (n : Nat) {key : String} (h : key ≠ "version") :
    (e.withVersion n).raw.strField? (js key) = e.raw.strField? (js key) := by
  rw [JsValue.strField?, e.withVersion_get? n h, JsValue.strField?]

/-- Resolving what a compaction keeps makes no entry falsy. -/
theorem truthy_keepById (e : FileEntry) (entries : List FileEntry) :
    (e.keepById entries).raw.truthy = e.raw.truthy := by
  rw [keepById]
  split
  · rfl
  · rw [JsValue.truthy_delete]
    split
    · split
      · rfl
      · split
        · rw [JsValue.truthy_set]
        · rw [JsValue.truthy_delete]
    · rfl

/-- It changes no other key. -/
theorem keepById_get? (e : FileEntry) (entries : List FileEntry) {key : String}
    (h : key ≠ "firstKeptEntryId") (h' : key ≠ "firstKeptEntryIndex") :
    (e.keepById entries).raw.get? (js key) = e.raw.get? (js key) := by
  have hid : js "firstKeptEntryId" ≠ js key := by simpa using Ne.symm h
  have hindex : js "firstKeptEntryIndex" ≠ js key := by simpa using Ne.symm h'
  rw [keepById]
  split
  · rfl
  · rw [JsValue.get?_delete_of_ne hindex]
    split
    · split
      · rfl
      · split
        · rw [JsValue.get?_set_of_ne hid]
        · rw [JsValue.get?_delete_of_ne hid]
    · rfl

/-- Nor does renaming the role of a hook's message. -/
theorem truthy_renameHookMessage (e : FileEntry) :
    e.renameHookMessage.raw.truthy = e.raw.truthy := by
  rw [renameHookMessage]
  split
  · split
    · rw [JsValue.truthy_set]
    · rfl
  · rfl

end FileEntry

/-- A migrated line is as readable as the line, and a header is the header but for
its version. -/
def SameLine (e e' : FileEntry) : Prop :=
  e'.raw.truthy = e.raw.truthy ∧
    (e.isHeader = true → e'.isHeader = true ∧
      e'.raw.strField? (js "id") = e.raw.strField? (js "id"))

theorem sameLine_withVersion (e : FileEntry) (n : Nat) : SameLine e (e.withVersion n) := by
  refine ⟨JsValue.truthy_set .., fun h => ⟨?_, e.withVersion_strField? n (by decide)⟩⟩
  rw [← h, FileEntry.isHeader, FileEntry.type, e.withVersion_strField? n (by decide)]
  rfl

/-- Lines are compared through both migrations. -/
theorem SameLine.trans {e e' e'' : FileEntry} (h : SameLine e e') (h' : SameLine e' e'') :
    SameLine e e'' :=
  ⟨h'.1.trans h.1, fun hheader =>
    ⟨(h'.2 (h.2 hheader).1).1, (h'.2 (h.2 hheader).1).2.trans (h.2 hheader).2⟩⟩

/-- What `migrateV1ToV2` makes of the entries, one by one: `R` holds line by line if
it holds of a header with its version, and of an entry with an id drawn, with its
compaction index replaced or not. -/
theorem migrateV1ToV2_forall₂ {uuids : Nat → Nat → Uuid} {R : FileEntry → FileEntry → Prop}
    (hheader : ∀ e : FileEntry, e.isHeader = true → R e (e.withVersion 2))
    (hentry : ∀ (e : FileEntry) (k : Nat) (parent : JsValue), e.isHeader = false →
      let linked : FileEntry := ⟨(e.raw.set (js "id")
        (.str (generateId (fun _ => false) (uuids k)))).set (js "parentId") parent⟩
      R e linked ∧ ∀ entries, R e (linked.keepById entries))
    (entries : List FileEntry) : List.Forall₂ R entries (migrateV1ToV2 uuids entries) := by
  have hfrom : ∀ (entries done : List FileEntry) (prevId : Option JsString), ∃ entries',
      migrateV1ToV2From uuids done entries prevId = done ++ entries' ∧
        List.Forall₂ R entries entries' := by
    intro entries
    induction entries with
    | nil => exact fun done _ => ⟨[], (List.append_nil _).symm, .nil⟩
    | cons e rest ih =>
      intro done prevId
      rw [migrateV1ToV2From]
      cases he : e.isHeader with
      | true =>
        rw [if_pos rfl]
        obtain ⟨rest', heq, hrest⟩ := ih (done ++ [e.withVersion 2]) prevId
        exact ⟨_ :: rest', by rw [heq, List.append_assoc]; rfl, .cons (hheader e he) hrest⟩
      | false =>
        rw [if_neg Bool.false_ne_true]
        dsimp only
        obtain ⟨hlinked, hkept⟩ := hentry e done.length (prevId.elim .null .str) he
        obtain ⟨rest', heq, hrest⟩ := ih (done ++ [_]) _
        refine ⟨_ :: rest', by rw [heq, List.append_assoc]; rfl, .cons ?_ hrest⟩
        split
        · exact hkept _
        · exact hlinked
  obtain ⟨entries', heq, hall⟩ := hfrom entries [] none
  rw [migrateV1ToV2, heq]
  exact hall

/-- The migration from version 2, line by line. -/
theorem migrateV2ToV3_forall₂ {R : FileEntry → FileEntry → Prop}
    (hheader : ∀ e : FileEntry, e.isHeader = true → R e (e.withVersion 3))
    (hentry : ∀ e : FileEntry, e.isHeader = false → R e e.renameHookMessage)
    (entries : List FileEntry) : List.Forall₂ R entries (migrateV2ToV3 entries) := by
  rw [migrateV2ToV3, List.forall₂_map_right_iff]
  refine List.forall₂_same.mpr fun e _ => ?_
  split
  · exact hheader e ‹_›
  · exact hentry e (by simpa using ‹¬e.isHeader = true›)

/-- The lines that are migrated are those that were read. -/
theorem migrate_sameLine (uuids : Nat → Nat → Uuid) (entries : List FileEntry) :
    List.Forall₂ SameLine entries (migrateToCurrentVersion uuids entries).1 := by
  have hrefl : ∀ es : List FileEntry, List.Forall₂ SameLine es es :=
    fun es => List.forall₂_same.mpr fun e _ => ⟨rfl, fun h => ⟨h, rfl⟩⟩
  have hnot : ∀ {e : FileEntry} {P : Prop}, e.isHeader = false → e.isHeader = true → P := by
    intro e P hfalse htrue
    rw [hfalse] at htrue
    cases htrue
  have hfirst : List.Forall₂ SameLine entries (migrateV1ToV2 uuids entries) := by
    refine migrateV1ToV2_forall₂ (fun e _ => sameLine_withVersion e 2)
      (fun e k parent he => ⟨⟨?_, hnot he⟩, fun entries => ⟨?_, hnot he⟩⟩) entries
    · rw [JsValue.truthy_set, JsValue.truthy_set]
    · rw [FileEntry.truthy_keepById, JsValue.truthy_set, JsValue.truthy_set]
  have hsecond : ∀ es, List.Forall₂ SameLine es (migrateV2ToV3 es) :=
    migrateV2ToV3_forall₂ (fun e _ => sameLine_withVersion e 3)
      fun e he => ⟨e.truthy_renameHookMessage, hnot he⟩
  have htrans : ∀ {es es' es'' : List FileEntry}, List.Forall₂ SameLine es es' →
      List.Forall₂ SameLine es' es'' → List.Forall₂ SameLine es es'' := by
    intro es es' es'' h
    induction h generalizing es'' with
    | nil => exact id
    | cons h _ ih =>
      rintro (_ | ⟨h', hrest⟩)
      exact .cons (h.trans h') (ih hrest)
  rw [migrateToCurrentVersion]
  dsimp only
  split
  · exact hrefl entries
  · dsimp only
    split <;> split
    · exact htrans hfirst (hsecond _)
    · exact hsecond _
    · exact hfirst
    · exact hrefl entries

/-- A file keeps its header. -/
theorem SameLine.hasSessionHeader {entries entries' : List FileEntry}
    (h : List.Forall₂ SameLine entries entries') (hheader : hasSessionHeader entries = true) :
    PiMono.hasSessionHeader entries' = true := by
  cases h with
  | nil => exact hheader
  | cons h _ =>
    rw [PiMono.hasSessionHeader, Bool.and_eq_true] at hheader ⊢
    obtain ⟨htype, hid⟩ := h.2 hheader.1
    exact ⟨htype, hid ▸ hheader.2⟩

/-- No line becomes falsy, so all are read again. -/
theorem SameLine.truthy {entries entries' : List FileEntry}
    (h : List.Forall₂ SameLine entries entries') (htruthy : ∀ e ∈ entries, e.raw.truthy = true) :
    ∀ e ∈ entries', e.raw.truthy = true := by
  induction h with
  | nil => simp
  | cons h _ ih =>
    obtain ⟨he, hes⟩ := List.forall_mem_cons.mp htruthy
    exact List.forall_mem_cons.mpr ⟨h.1.trans he, ih hes⟩

/-- What is loaded is readable, behind a header. -/
theorem loadEntries_ne_nil {bytes : List UInt8} (h : loadEntries bytes ≠ []) :
    hasSessionHeader (loadEntries bytes) = true ∧
      loadEntries bytes = entriesOfText (decodeUtf8 bytes) ∧
      ∀ e ∈ loadEntries bytes, e.raw.truthy = true := by
  rw [loadEntries] at h ⊢
  split at h
  · rename_i hheader
    rw [if_pos hheader]
    refine ⟨hheader, rfl, fun e he => ?_⟩
    obtain ⟨line, -, hline⟩ := List.mem_filterMap.mp he
    exact (Option.filter_eq_some_iff.mp hline).2
  · exact absurd rfl h

/-! ## Opening -/

namespace SessionManager

/-- `byId` after indexing: the entries that are no header, in their order. -/
theorem byId_foldl_indexEntry : ∀ (m : SessionManager) (es : List FileEntry),
    (es.foldl indexEntry m).byId
      = (es.filter (!·.isHeader)).foldl (fun byId e => byId.set e.id e) m.byId
  | _, [] => rfl
  | m, e :: es => by
    rw [List.foldl_cons, byId_foldl_indexEntry]
    cases he : e.isHeader with
    | true =>
      rw [indexEntry, he, List.filter_cons_of_neg (by simp [he])]
      rfl
    | false =>
      rw [indexEntry_eq m he, List.filter_cons_of_pos (by simp [he]), List.foldl_cons]

/-- `_buildIndex` indexes the entries. -/
theorem buildIndex_byId (m : SessionManager) :
    m.buildIndex.byId = JsMap.index (·.id) m.getEntries := by
  rw [buildIndex, byId_foldl_indexEntry]
  rfl

/-- Indexing leaves the entries, and where they are stored. -/
theorem foldl_indexEntry_fields (es : List FileEntry) (m : SessionManager) :
    (es.foldl indexEntry m).fileEntries = m.fileEntries ∧
      (es.foldl indexEntry m).persist = m.persist ∧
      (es.foldl indexEntry m).sessionFile = m.sessionFile := by
  induction es generalizing m with
  | nil => exact ⟨rfl, rfl, rfl⟩
  | cons e es ih =>
    have hstep : (m.indexEntry e).fileEntries = m.fileEntries ∧
        (m.indexEntry e).persist = m.persist ∧ (m.indexEntry e).sessionFile = m.sessionFile := by
      cases he : e.isHeader with
      | true =>
        rw [indexEntry, he]
        exact ⟨rfl, rfl, rfl⟩
      | false =>
        rw [indexEntry_eq m he]
        exact ⟨rfl, rfl, rfl⟩
    rw [List.foldl_cons]
    obtain ⟨h1, h2, h3⟩ := ih (m.indexEntry e)
    exact ⟨h1.trans hstep.1, h2.trans hstep.2.1, h3.trans hstep.2.2⟩

theorem buildIndex_fields (m : SessionManager) :
    m.buildIndex.fileEntries = m.fileEntries ∧ m.buildIndex.persist = m.persist ∧
      m.buildIndex.sessionFile = m.sessionFile :=
  foldl_indexEntry_fields _ _

end SessionManager

namespace World

variable {disk : Disk} {d : Draws} {cwd sessionDir path : JsString} {bytes : List UInt8}
  {w : World}

/-- The bytes that opening a file leaves: a file of an old version is rewritten. -/
def openedBytes (d : Draws) (bytes : List UInt8) : List UInt8 :=
  let (migrated, changed) := migrateToCurrentVersion d.uuids (loadEntries bytes)
  if changed then encodeLines migrated else bytes

/-- An opened session stands behind its file. -/
theorem openFile_behind (hdisk : disk.get? path = some bytes) (hload : loadEntries bytes ≠ [])
    (hopen : openFile disk d cwd sessionDir path = .ok w) :
    Behind path (openedBytes d bytes)
      (migrateToCurrentVersion d.uuids (loadEntries bytes)).1 [] w := by
  rw [openFile, setSessionFile] at hopen
  simp only [hdisk] at hopen
  obtain ⟨first, rest, hentries⟩ := List.exists_cons_of_ne_nil hload
  rw [openedBytes]
  rw [hentries] at hopen ⊢
  dsimp only at hopen ⊢
  split at hopen
  · cases hopen
  obtain rfl := Except.ok.inj hopen
  generalize migrateToCurrentVersion d.uuids (first :: rest) = migrated
  obtain ⟨es, changed⟩ := migrated
  generalize hm : ({ SessionManager.blank cwd sessionDir with
    sessionFile := some path
    sessionId := (((first :: rest).find? (·.isHeader)).map (·.id)).getD d.sessionId.text
    fileEntries := es } : SessionManager) = m
  obtain ⟨hentries', hpersist, hfile⟩ := m.buildIndex_fields
  have hsession : m.sessionFile = some path ∧ m.persist = true ∧ m.fileEntries = es := by
    subst hm
    exact ⟨rfl, rfl, rfl⟩
  have hrewrite : ∃ disk', (if changed = true then World.rewriteFile ⟨m, disk⟩ else ⟨m, disk⟩)
      = ⟨m, disk'⟩ ∧ disk'.get? path = some (if changed = true then encodeLines es else bytes) := by
    cases changed with
    | true =>
      refine ⟨disk.set path (encodeLines m.fileEntries), ?_, ?_⟩
      · rw [if_pos rfl, World.rewriteFile]
        simp only [hsession]
      · rw [JsMap.get?_set, if_pos rfl, if_pos rfl, hsession.2.2]
    | false => exact ⟨disk, rfl, hdisk⟩
  obtain ⟨disk', hworld, hget⟩ := hrewrite
  simp only [hworld]
  refine ⟨hpersist.trans hsession.2.1, hfile.trans hsession.1, rfl, ?_, ?_, by simp, ?_⟩
  · show m.buildIndex.fileEntries = es ++ []
    rw [hentries', hsession.2.2, List.append_nil]
  · show disk'.get? path = some (_ ++ encodeLines [])
    rw [hget]
    exact congrArg some (List.append_nil _).symm
  · show m.buildIndex.byId = _
    rw [m.buildIndex_byId, SessionManager.getEntries, SessionManager.getEntries]
    show _ = JsMap.index _ (m.buildIndex.fileEntries.filter _)
    rw [hentries']

/-- The file of an opened session holds its entries. -/
theorem loadEntries_openedBytes (d : Draws) (hload : loadEntries bytes ≠ []) :
    loadEntries (openedBytes d bytes)
        = (migrateToCurrentVersion d.uuids (loadEntries bytes)).1 ∧
      (migrateToCurrentVersion d.uuids (loadEntries bytes)).1 ≠ [] := by
  obtain ⟨hheader, -, htruthy⟩ := loadEntries_ne_nil hload
  have hsame := migrate_sameLine d.uuids (loadEntries bytes)
  have hheader' := SameLine.hasSessionHeader hsame hheader
  refine ⟨?_, fun hnil => by rw [hnil] at hheader'; cases hheader'⟩
  rw [openedBytes]
  cases hchanged : (migrateToCurrentVersion d.uuids (loadEntries bytes)).2 with
  | true =>
    simp only [hchanged, if_true]
    exact loadEntries_encodeLines (SameLine.truthy hsame htruthy) hheader'
  | false =>
    simp only [hchanged, Bool.false_eq_true, if_false]
    rw [migrateToCurrentVersion] at hchanged ⊢
    dsimp only at hchanged ⊢
    split at hchanged
    · rw [if_pos ‹_›]
    · cases hchanged

/-- A file is rewritten unless its version is the current one or later. -/
theorem migrate_unchanged {uuids : Nat → Nat → Uuid} {entries : List FileEntry} :
    (migrateToCurrentVersion uuids entries).2 = true ↔
      ¬(sessionVersion? entries).any ((currentSessionVersion : Int) ≤ ·) = true := by
  rw [migrateToCurrentVersion]
  dsimp only
  split
  · rename_i hcurrent
    simp [hcurrent]
  · rename_i hold
    simp [hold]

/-- A file with entries is opened unless a migration throws. -/
theorem openFile_isOk (hdisk : disk.get? path = some bytes) (hload : loadEntries bytes ≠ []) :
    (∃ w, openFile disk d cwd sessionDir path = .ok w) ↔
      migrationThrows (loadEntries bytes) = false := by
  obtain ⟨first, rest, hentries⟩ := List.exists_cons_of_ne_nil hload
  rw [openFile, setSessionFile]
  simp only [hdisk, hentries]
  cases migrationThrows (first :: rest) with
  | true => simp
  | false =>
    rw [if_neg Bool.false_ne_true]
    simp

end World

end PiMono
