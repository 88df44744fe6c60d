import PiMono.CodingAgent.SessionOpen
import PiMono.CodingAgent.SessionContext

/-!
# Forking a session file

`SessionManager.forkFrom` (`session-manager.ts:1696-1747`) writes a header of the
current version and copies the entries of the source behind it as they are;
`SessionManager.open` migrates them by the version of the source. `World.forkFrom_open`
says for which files the two hold the same conversation.
-/

namespace PiMono

namespace World

/-- `forkFrom` with the paths already worked out. -/
def forkFrom (disk : Disk) (d : Draws) (targetCwd dir sourcePath : JsString)
    (id : Option JsString) : Except SessionError World :=
  match loadEntriesFromFile disk sourcePath with
  | [] => .error (.thrown
      (js "Cannot fork: source session file is empty or invalid: " ++ sourcePath))
  | sourceEntries =>
    if sourceEntries.any (·.isHeader) then
      if id.all isValidSessionId then
        let newSessionId := id.getD d.sessionId.text
        let newSessionFile := sessionPath dir d.now newSessionId
        let newHeader := FileEntry.header newSessionId d.now targetCwd (some sourcePath)
        if disk.has newSessionFile then .error (.fileExists newSessionFile)
        else
          let disk : Disk := disk.set newSessionFile (encodeUtf8 newHeader.line)
          let disk := sourceEntries.foldl (fun (disk : Disk) entry =>
            if entry.isHeader then disk else disk.appendFile newSessionFile entry.line) disk
          openFile disk d targetCwd dir newSessionFile
      else .error invalidSessionId
    else .error (.thrown (js "Cannot fork: source session has no header: " ++ sourcePath))

end World

/-! ## Names of entries -/

/-- The ids that migrating draws. -/
def Draws.drawsId (d : Draws) (id : JsString) : Prop :=
  ∃ k, id = generateId (fun _ => false) (d.uuids k)

namespace FileEntry

/-- A string field with another name in it. -/
def renameIn (rename : JsString → JsString) (key : String) (e : FileEntry) : FileEntry :=
  match e.raw.strField? (js key) with
  | some id => ⟨e.raw.set (js key) (.str (rename id))⟩
  | none => e

/-- The entry with other names for the ids that a migration gives. -/
def renameIds (rename : JsString → JsString) (e : FileEntry) : FileEntry :=
  ((e.renameIn rename "id").renameIn rename "parentId").renameIn rename "firstKeptEntryId"

theorem renameIn_get? (rename : JsString → JsString) {key k : String} (h : key ≠ k)
    (e : FileEntry) : (e.renameIn rename key).raw.get? (js k) = e.raw.get? (js k) := by
  rw [renameIn]
  split
  · rename_i id hid
    obtain ⟨v, hv, -⟩ := Option.bind_eq_some_iff.mp hid
    simp [JsValue.get?_set (JsValue.isObject_of_get? hv), h]
  · rfl

theorem renameIn_strField? (rename : JsString → JsString) (key : String) (e : FileEntry) :
    (e.renameIn rename key).raw.strField? (js key)
      = (e.raw.strField? (js key)).map rename := by
  rw [renameIn]
  split
  · rename_i id hid
    obtain ⟨v, hv, -⟩ := Option.bind_eq_some_iff.mp hid
    rw [JsValue.strField?, JsValue.get?_set (JsValue.isObject_of_get? hv), if_pos rfl, hid]
    rfl
  · rename_i hnone
    rw [hnone]
    rfl

/-- A string that reads as itself. -/
theorem eq_str_of_str? {v : JsValue} {s : JsString} (h : v.str? = some s) : v = .str s := by
  refine JsValue.ext ?_
  rw [JsValue.str?] at h
  split at h
  · rename_i t ht
    cases h
    exact ht
  · cases h

theorem renameIn_id (key : String) (e : FileEntry) : e.renameIn (fun name => name) key = e := by
  rw [renameIn]
  split
  · rename_i name hname
    obtain ⟨v, hv, hstr⟩ := Option.bind_eq_some_iff.mp hname
    rw [← eq_str_of_str? hstr, JsValue.set_get? hv]
  · rfl

theorem renameIds_id (e : FileEntry) : e.renameIds (fun name => name) = e := by
  rw [renameIds, renameIn_id, renameIn_id, renameIn_id]

theorem renameIds_get? (rename : JsString → JsString) {k : String}
    (h : k ∉ ["id", "parentId", "firstKeptEntryId"]) (e : FileEntry) :
    (e.renameIds rename).raw.get? (js k) = e.raw.get? (js k) := by
  simp only [List.mem_cons, List.not_mem_nil, or_false, not_or] at h
  obtain ⟨hid, hparent, hkept⟩ := h
  rw [renameIds, renameIn_get? rename (Ne.symm hkept), renameIn_get? rename (Ne.symm hparent),
    renameIn_get? rename (Ne.symm hid)]

theorem renameIds_id? (rename : JsString → JsString) (e : FileEntry) :
    (e.renameIds rename).raw.strField? (js "id") = (e.raw.strField? (js "id")).map rename := by
  rw [renameIds, JsValue.strField?, renameIn_get? rename (by decide),
    renameIn_get? rename (by decide), ← JsValue.strField?, renameIn_strField?]

/-- The role an entry with a body has. -/
def roleOf? : Option EntryBody → Option JsString
  | some (.message m) => m.strField? (js "role")
  | _ => none

theorem roleOf?_ite {c : Prop} [Decidable c] {b b' : Option EntryBody} (h : roleOf? b = none)
    (h' : roleOf? b' = none) : roleOf? (if c then b else b') = none := by
  split
  · exact h
  · exact h'

theorem messageRole?_eq (e : FileEntry) : e.messageRole? =
    if e.type = some (js "message") then
      (e.raw.get? (js "message")).bind (·.strField? (js "role"))
    else none := by
  have hrole : e.messageRole? = roleOf? e.body? := rfl
  rw [hrole, body?]
  cases htype : e.type with
  | none => rfl
  | some t =>
    dsimp only
    by_cases ht : t = js "message"
    · rw [if_pos ht, if_pos (congrArg some ht)]
      cases e.raw.get? (js "message") <;> rfl
    · have hmemory : ∀ o : Option MemoryKind, roleOf? (o.map fun kind => .memory kind
          (e.strD "content") ((e.raw.strField? (js "projectKind")).bind ProjectKind.ofText?)
          (e.strs "sourceEntryIds") (e.strs "supersedes")) = none := by
        intro o
        cases o <;> rfl
      rw [if_neg ht, if_neg (fun h => ht (Option.some.inj h))]
      refine roleOf?_ite rfl (roleOf?_ite rfl (roleOf?_ite rfl (roleOf?_ite rfl
        (roleOf?_ite (hmemory _) (roleOf?_ite rfl (roleOf?_ite rfl (roleOf?_ite rfl
          (roleOf?_ite rfl rfl))))))))

/-- Another name changes no role. -/
theorem renameIds_messageRole? (rename : JsString → JsString) (e : FileEntry) :
    (e.renameIds rename).messageRole? = e.messageRole? := by
  have hmessage := renameIds_get? rename (k := "message") (by decide) e
  have htype : (e.renameIds rename).type = e.type := by
    rw [type, JsValue.strField?, renameIds_get? rename (by decide), type, JsValue.strField?]
  rw [messageRole?_eq, messageRole?_eq, hmessage, htype]

end FileEntry

/-- Two sessions hold the same conversation, up to the header and to ids that a
migration drew. -/
structure SameConversation (d : Draws) (m m' : SessionManager) : Prop where
  entries : ∃ rename : JsString → JsString, (∀ id, ¬d.drawsId id → rename id = id) ∧
    m.getEntries = m'.getEntries.map (·.renameIds rename)
  context : ∀ (memoryTokenBudget : Nat) (projectMemoryContext : Option ProjectMemoryContext),
    m.buildSessionContext memoryTokenBudget projectMemoryContext
      = m'.buildSessionContext memoryTokenBudget projectMemoryContext

/-- A fork keeps what it copies: the version can be compared, no entry is older than
version 2, and none older than version 3 has the role `hookMessage`. -/
def ForkKeeps (entries : List FileEntry) : Prop :=
  versionThrows entries = false ∧ ∀ e ∈ entries, e.isHeader = false →
    ¬(sessionVersion? entries).any (· < 2) = true ∧
      ((sessionVersion? entries).any (· < 3) = true → e.messageRole? ≠ some (js "hookMessage"))

instance (entries : List FileEntry) : Decidable (ForkKeeps entries) :=
  inferInstanceAs (Decidable (_ ∧ ∀ e ∈ entries, _))

/-! ## What the two hold -/

/-- A renamed role is another one. -/
theorem FileEntry.renameHookMessage_eq {e : FileEntry}
    (h : e.messageRole? ≠ some (js "hookMessage")) : e.renameHookMessage = e := by
  rw [renameHookMessage]
  split
  · rename_i m hm
    rw [if_neg]
    rintro ⟨htype, hrole⟩
    rw [messageRole?_eq, if_pos htype, hm] at h
    exact h hrole
  · rfl

theorem FileEntry.renameHookMessage_role {e : FileEntry}
    (h : e.messageRole? = some (js "hookMessage")) :
    e.renameHookMessage.messageRole? = some (js "custom") := by
  rw [messageRole?_eq] at h
  split at h
  · rename_i htype
    obtain ⟨m, hm, hrole⟩ := Option.bind_eq_some_iff.mp h
    obtain ⟨v, hv, -⟩ := Option.bind_eq_some_iff.mp hrole
    have htype' : (⟨e.raw.set (js "message") (m.set (js "role") (.str (js "custom")))⟩ :
        FileEntry).type = some (js "message") := by
      rw [← htype, type, type, JsValue.strField?, JsValue.get?_set (JsValue.isObject_of_get? hm),
        if_neg (by decide), JsValue.strField?]
    rw [renameHookMessage, hm]
    dsimp only
    rw [if_pos ⟨htype, hrole⟩, messageRole?_eq, if_pos htype',
      JsValue.get?_set (JsValue.isObject_of_get? hm), if_pos rfl, Option.bind_some,
      JsValue.strField?, JsValue.get?_set (JsValue.isObject_of_get? hv), if_pos rfl]
    rfl
  · cases h

theorem FileEntry.renameHookMessage_get? (e : FileEntry) {k : String} (h : k ≠ "message") :
    e.renameHookMessage.raw.get? (js k) = e.raw.get? (js k) := by
  rw [renameHookMessage]
  split
  · rename_i m hm
    split
    · simp [JsValue.get?_set (JsValue.isObject_of_get? hm), Ne.symm h]
    · rfl
  · rfl

namespace SessionManager

theorem leafId_foldl_indexEntry : ∀ (m : SessionManager) (es : List FileEntry),
    (es.foldl indexEntry m).leafId
      = (es.filter (!·.isHeader)).foldl (fun _ e => some e.id) m.leafId
  | _, [] => rfl
  | m, e :: es => by
    rw [List.foldl_cons, leafId_foldl_indexEntry]
    cases he : e.isHeader with
    | true =>
      rw [indexEntry, he, List.filter_cons_of_neg (by simp [he])]
      rfl
    | false =>
      rw [indexEntry_eq m he, List.filter_cons_of_pos (by simp [he]), List.foldl_cons]

/-- The context depends on the entries only, once they are indexed. -/
theorem buildSessionContext_buildIndex {m m' : SessionManager}
    (h : m.getEntries = m'.getEntries) (memoryTokenBudget : Nat)
    (projectMemoryContext : Option ProjectMemoryContext) :
    m.buildIndex.buildSessionContext memoryTokenBudget projectMemoryContext
      = m'.buildIndex.buildSessionContext memoryTokenBudget projectMemoryContext := by
  have hentries : ∀ m : SessionManager, m.buildIndex.getEntries = m.getEntries := by
    intro m
    rw [getEntries, m.buildIndex_fields.1, getEntries]
  have hleaf : ∀ m : SessionManager,
      m.buildIndex.leafId = m.getEntries.foldl (fun _ e => some e.id) none :=
    fun m => leafId_foldl_indexEntry _ _
  rw [buildSessionContext, buildSessionContext, hentries, hentries, buildIndex_byId,
    buildIndex_byId, hleaf, hleaf, h]

end SessionManager

namespace World

variable {disk : Disk} {d d' : Draws} {cwd sessionDir targetCwd dir path source : JsString}
  {bytes : List UInt8} {id : Option JsString} {w : World}

/-- An opened session is indexed. -/
theorem openFile_built (hdisk : disk.get? path = some bytes) (hload : loadEntries bytes ≠ [])
    (hopen : openFile disk d cwd sessionDir path = .ok w) :
    ∃ m : SessionManager, w.manager = { m.buildIndex with flushed := true } ∧
      m.fileEntries = (migrateToCurrentVersion d.uuids (loadEntries bytes)).1 := by
  rw [openFile, setSessionFile] at hopen
  simp only [hdisk] at hopen
  obtain ⟨first, rest, hentries⟩ := List.exists_cons_of_ne_nil hload
  rw [hentries] at hopen ⊢
  split at hopen
  · cases hopen
  obtain rfl := Except.ok.inj hopen
  split
  · rw [World.rewriteFile]
    split <;> exact ⟨_, rfl, rfl⟩
  · exact ⟨_, rfl, rfl⟩

theorem foldl_appendFile (path : JsString) : ∀ (entries done : List FileEntry) (disk : Disk),
    disk.get? path = some (encodeLines done) →
    (entries.foldl (fun (disk : Disk) entry =>
        if entry.isHeader then disk else disk.appendFile path entry.line) disk).get? path
      = some (encodeLines (done ++ entries.filter (!·.isHeader)))
  | [], done, disk, h => by rw [List.filter_nil, List.append_nil]; exact h
  | e :: entries, done, disk, h => by
    rw [List.foldl_cons]
    cases he : e.isHeader with
    | true =>
      rw [List.filter_cons_of_neg (by simp [he])]
      exact foldl_appendFile path entries done disk h
    | false =>
      rw [List.filter_cons_of_pos (by simp [he]), List.append_cons]
      refine foldl_appendFile path entries _ _ ?_
      rw [Disk.appendFile, if_neg Bool.false_ne_true, JsMap.get?_set, if_pos rfl, h,
        Option.getD_some, encodeLines_append]

theorem header_isObject (sessionId timestamp cwd : JsString) (parentSession : Option JsString) :
    (FileEntry.header sessionId timestamp cwd parentSession).raw.isObject = true := by
  unfold FileEntry.header
  exact JsValue.isObject_object _

/-- The header a fork writes has the current version. -/
theorem header_version (sessionId timestamp cwd : JsString) (parentSession : Option JsString)
    (entries : List FileEntry) :
    sessionVersion? (.header sessionId timestamp cwd parentSession :: entries)
        = some (currentSessionVersion : Int) ∧
      versionThrows (.header sessionId timestamp cwd parentSession :: entries) = false := by
  have hversion : (FileEntry.header sessionId timestamp cwd parentSession).raw.get? (js "version")
      = some (.nat currentSessionVersion) := by
    simp [FileEntry.header]
  rw [sessionVersion?, versionThrows,
    List.find?_cons_of_pos (FileEntry.header_isHeader _ _ _ _), Option.bind_some, hversion]
  refine ⟨?_, rfl⟩
  show FileEntry.version? _ = _
  rw [FileEntry.version?, hversion]
  decide

/-- A fork holds the entries of its source, as they are. -/
theorem forkFrom_ok (hdisk : disk.get? source = some bytes) (hload : loadEntries bytes ≠ [])
    (hid : id.all isValidSessionId = true)
    (hnew : disk.has (sessionPath dir d'.now (id.getD d'.sessionId.text)) = false) :
    ∃ w m, forkFrom disk d' targetCwd dir source id = .ok w ∧
      w.manager = { SessionManager.buildIndex m with flushed := true } ∧
      m.getEntries = (loadEntries bytes).filter (!·.isHeader) := by
  obtain ⟨hheader, -, htruthy⟩ := loadEntries_ne_nil hload
  obtain ⟨first, rest, hentries⟩ := List.exists_cons_of_ne_nil hload
  have hany : (loadEntries bytes).any (·.isHeader) = true := by
    rw [hentries, hasSessionHeader, Bool.and_eq_true] at hheader
    rw [hentries, List.any_cons, hheader.1, Bool.true_or]
  generalize hnewFile : sessionPath dir d'.now (id.getD d'.sessionId.text) = newFile at hnew
  let header := FileEntry.header (id.getD d'.sessionId.text) d'.now targetCwd (some source)
  let copied := (loadEntries bytes).filter (!·.isHeader)
  let disk' := (loadEntries bytes).foldl (fun (disk : Disk) entry =>
    if entry.isHeader then disk else disk.appendFile newFile entry.line)
    (disk.set newFile (encodeUtf8 header.line))
  have hdisk' : disk'.get? newFile = some (encodeLines (header :: copied)) := by
    refine foldl_appendFile newFile _ [header] _ ?_
    rw [JsMap.get?_set, if_pos rfl, encodeLines, List.flatMap_singleton]
  have hload' : loadEntries (encodeLines (header :: copied)) = header :: copied := by
    refine loadEntries_encodeLines (List.forall_mem_cons.mpr ⟨?_, fun e he => ?_⟩) ?_
    · obtain ⟨fields, hf⟩ := JsValue.isObject_iff.mp (header_isObject
        (id.getD d'.sessionId.text) d'.now targetCwd (some source))
      rw [JsValue.truthy, hf]
    · exact htruthy e (List.mem_filter.mp he).1
    · simp [hasSessionHeader, header, FileEntry.header, FileEntry.isHeader, FileEntry.type,
        JsValue.strField?]
  obtain ⟨hversion, hcompared⟩ :=
    header_version (id.getD d'.sessionId.text) d'.now targetCwd (some source) copied
  have hmigrate : migrateToCurrentVersion d'.uuids (header :: copied) =
    (header :: copied, false) := by
    rw [migrateToCurrentVersion, hversion]
    rfl
  have hfork : forkFrom disk d' targetCwd dir source id = openFile disk' d' targetCwd dir
    newFile := by
    rw [forkFrom, loadEntriesFromFile, hdisk]
    simp only [hentries]
    rw [← hentries, if_pos hany, if_pos hid]
    simp only [hnewFile, hnew]
    rfl
  have hne : loadEntries (encodeLines (header :: copied)) ≠ [] := by
    rw [hload']
    exact List.cons_ne_nil _ _
  have hopens : ∃ w, openFile disk' d' targetCwd dir newFile = .ok w := by
    rw [openFile_isOk hdisk' hne, hload', migrationThrows, hversion, hcompared]
    rfl
  obtain ⟨w, hw⟩ := hopens
  obtain ⟨m, hm, hm'⟩ := openFile_built hdisk' hne hw
  rw [hload', hmigrate] at hm'
  refine ⟨w, m, hfork.trans hw, hm, ?_⟩
  rw [SessionManager.getEntries, hm', List.filter_cons_of_neg (by simp [header]),
    List.filter_filter]
  simp

end World

/-! ## Migrated or copied -/

section Migrated

variable {d : Draws}

theorem isHeader_renameHookMessage (e : FileEntry) : e.renameHookMessage.isHeader = e.isHeader := by
  rw [FileEntry.isHeader, FileEntry.type, JsValue.strField?,
    e.renameHookMessage_get? (by decide)]
  rfl

theorem getEntries_migrateV2ToV3 (entries : List FileEntry) :
    (migrateV2ToV3 entries).filter (!·.isHeader)
      = (entries.filter (!·.isHeader)).map (·.renameHookMessage) := by
  induction entries with
  | nil => rfl
  | cons e entries ih =>
    rw [migrateV2ToV3, List.map_cons, ← migrateV2ToV3]
    cases he : e.isHeader with
    | true =>
      have hstill := ((sameLine_withVersion e 3).2 he).1
      rw [if_pos rfl, List.filter_cons_of_neg (by simp [hstill]),
        List.filter_cons_of_neg (by simp [he]), ih]
    | false =>
      have hstill := (isHeader_renameHookMessage e).trans he
      rw [if_neg Bool.false_ne_true, List.filter_cons_of_pos (by simp [hstill]),
        List.filter_cons_of_pos (by simp [he]), ih, List.map_cons]

/-- From version 2 on, migrating renames roles and nothing else. -/
theorem getEntries_migrated {entries : List FileEntry}
    (hversion : ¬(sessionVersion? entries).any (· < 2) = true) (uuids : Nat → Nat → Uuid) :
    (migrateToCurrentVersion uuids entries).1.filter (!·.isHeader)
      = (entries.filter (!·.isHeader)).map fun e =>
          if (sessionVersion? entries).any (· < 3) = true then e.renameHookMessage else e := by
  rw [migrateToCurrentVersion]
  cases hv : sessionVersion? entries with
  | none => simp
  | some v =>
    rw [hv] at hversion
    simp only [Option.any_some, decide_eq_true_eq, currentSessionVersion] at hversion ⊢
    by_cases hcurrent : (3 : Int) ≤ v
    · have hnot : ¬v < 3 := by omega
      simp [hcurrent, hnot]
    · have hold : v < 3 := by omega
      simp [hcurrent, hold, hversion, getEntries_migrateV2ToV3]

/-- What migrating from version 1 makes of a line: an entry that is an object has an
id drawn. -/
def NamedBy (d : Draws) (e e' : FileEntry) : Prop :=
  e'.isHeader = e.isHeader ∧ (e.isHeader = false → e.raw.isObject = true →
    ∃ id, d.drawsId id ∧ e'.raw.strField? (js "id") = some id)

theorem namedBy_of_header {e e' : FileEntry} (h : e.isHeader = true) (h' : e'.isHeader = true) :
    NamedBy d e e' := by
  refine ⟨h'.trans h.symm, fun hnot => ?_⟩
  rw [h] at hnot
  cases hnot

theorem migrateV1ToV2_namedBy (d : Draws) (entries : List FileEntry) :
    List.Forall₂ (NamedBy d) entries (migrateV1ToV2 d.uuids entries) := by
  refine migrateV1ToV2_forall₂
    (fun e he => namedBy_of_header he ((sameLine_withVersion e 2).2 he).1)
    (fun e k parent he => ?_) entries
  have htype : ∀ v : JsValue, (⟨(e.raw.set (js "id") v).set (js "parentId") parent⟩ :
      FileEntry).raw.get? (js "type") = e.raw.get? (js "type") := by
    intro v
    show ((e.raw.set _ v).set _ parent).get? _ = _
    rw [JsValue.get?_set_of_ne (by decide), JsValue.get?_set_of_ne (by decide)]
  have hid : ∀ id, e.raw.isObject = true →
      ((e.raw.set (js "id") (.str id)).set (js "parentId") parent).strField? (js "id")
        = some id := by
    intro id hobject
    rw [JsValue.strField?, JsValue.get?_set_of_ne (by decide), JsValue.get?_set hobject,
      if_pos rfl]
    rfl
  refine ⟨⟨?_, fun _ hobject => ⟨_, ⟨k, rfl⟩, hid _ hobject⟩⟩, fun entries => ⟨?_, fun _ hobject =>
    ⟨_, ⟨k, rfl⟩, ?_⟩⟩⟩
  · rw [FileEntry.isHeader, FileEntry.type, JsValue.strField?, htype]
    rfl
  · rw [FileEntry.isHeader, FileEntry.type, JsValue.strField?,
      FileEntry.keepById_get? _ _ (by decide) (by decide), htype]
    rfl
  · rw [JsValue.strField?, FileEntry.keepById_get? _ _ (by decide) (by decide)]
    exact hid _ hobject

theorem migrateV2ToV3_namedBy {d : Draws} {entries es : List FileEntry}
    (h : List.Forall₂ (NamedBy d) entries es) :
    List.Forall₂ (NamedBy d) entries (migrateV2ToV3 es) := by
  induction h with
  | nil => exact .nil
  | @cons e e' entries es h _ ih =>
    refine .cons ?_ ih
    cases he' : e'.isHeader with
    | true =>
      dsimp only
      rw [he', if_pos rfl]
      exact namedBy_of_header (h.1.symm.trans he') ((sameLine_withVersion e' 3).2 he').1
    | false =>
      dsimp only
      rw [he', if_neg Bool.false_ne_true]
      refine ⟨(isHeader_renameHookMessage e').trans h.1, fun he hobject => ?_⟩
      obtain ⟨id, hdraws, hid⟩ := h.2 he hobject
      exact ⟨id, hdraws, by rwa [JsValue.strField?, e'.renameHookMessage_get? (by decide)]⟩

/-- Up to version 1, every entry that is an object gets an id drawn. -/
theorem migrated_namedBy {entries : List FileEntry}
    (hversion : (sessionVersion? entries).any (· < 2) = true) (d : Draws) :
    List.Forall₂ (NamedBy d) entries (migrateToCurrentVersion d.uuids entries).1 := by
  obtain ⟨v, hv, hlt⟩ := (Option.any_eq_true _ _).mp hversion
  rw [decide_eq_true_eq] at hlt
  have hcurrent : ¬(sessionVersion? entries).any ((currentSessionVersion : Int) ≤ ·) = true := by
    rw [hv, Option.any_some, decide_eq_true_eq, currentSessionVersion]
    omega
  have hold : (sessionVersion? entries).any (· < 3) = true := by
    rw [hv, Option.any_some, decide_eq_true_eq]
    omega
  have hmigrated : (migrateToCurrentVersion d.uuids entries).1
      = migrateV2ToV3 (migrateV1ToV2 d.uuids entries) := by
    rw [migrateToCurrentVersion]
    dsimp only
    rw [if_neg hcurrent]
    dsimp only
    rw [if_pos hversion, if_pos hold]
  rw [hmigrated]
  exact migrateV2ToV3_namedBy (migrateV1ToV2_namedBy d entries)

/-- A migrated entry has an id, under any name. -/
theorem NamedBy.renamed_id {e : FileEntry} {rename : JsString → JsString}
    (h : NamedBy d (e.renameIds rename) e) (he : (e.renameIds rename).isHeader = false)
    (hobject : (e.renameIds rename).raw.isObject = true) :
    (e.renameIds rename).raw.strField? (js "id") ≠ none := by
  obtain ⟨id, -, hid⟩ := h.2 he hobject
  rw [FileEntry.renameIds_id?, hid]
  exact Option.some_ne_none _

/-- Where a fork keeps what it copies, migrating leaves the entries as they are. -/
theorem ForkKeeps.migrated {entries : List FileEntry} (h : ForkKeeps entries)
    (uuids : Nat → Nat → Uuid) : (migrateToCurrentVersion uuids entries).1.filter (!·.isHeader)
      = entries.filter (!·.isHeader) := by
  by_cases hversion : (sessionVersion? entries).any (· < 2) = true
  · have hheaders : ∀ e ∈ entries, e.isHeader = true := by
      intro e he
      by_contra hnot
      exact (h.2 e he (by simpa using hnot)).1 hversion
    have hheaders' : ∀ {es es' : List FileEntry}, List.Forall₂ SameLine es es' →
        (∀ e ∈ es, e.isHeader = true) → ∀ e ∈ es', e.isHeader = true := by
      intro es es' hsame
      induction hsame with
      | nil => exact id
      | cons h _ ih =>
        intro hall
        obtain ⟨he, hes⟩ := List.forall_mem_cons.mp hall
        exact List.forall_mem_cons.mpr ⟨(h.2 he).1, ih hes⟩
    have hnone : ∀ {es : List FileEntry}, (∀ e ∈ es, e.isHeader = true) →
        es.filter (!·.isHeader) = [] := by
      intro es hall
      exact List.filter_eq_nil_iff.mpr fun e he => by simp [hall e he]
    rw [hnone hheaders, hnone (hheaders' (migrate_sameLine uuids entries) hheaders)]
  · rw [getEntries_migrated hversion]
    refine (List.map_congr_left fun e he => ?_).trans (List.map_id _)
    obtain ⟨hmem, hheader⟩ := List.mem_filter.mp he
    split
    · rename_i hold
      exact FileEntry.renameHookMessage_eq ((h.2 e hmem (by simpa using hheader)).2 hold)
    · rfl

theorem ForkKeeps.not_throws {entries : List FileEntry} (h : ForkKeeps entries) :
    World.migrationThrows entries = false := by
  rw [World.migrationThrows, h.1, Bool.false_or]
  cases hversion : (sessionVersion? entries).any (· < 2) with
  | false => rfl
  | true =>
    rw [Bool.true_and, List.any_eq_false]
    intro e he hbad
    simp only [Bool.and_eq_true, Bool.not_eq_true'] at hbad
    exact (h.2 e he hbad.1.1).1 hversion

end Migrated

namespace World

variable {disk : Disk} {d d' : Draws} {cwd sessionDir targetCwd dir source : JsString}
  {bytes : List UInt8} {id : Option JsString}

/-- A header of a version, or of none, and two user messages without ids. -/
def oldBytes (version : List (JsString × JsValue)) : List UInt8 :=
  let message : FileEntry := ⟨.object [(js "type", .str (js "message")),
    (js "message", .object [(js "role", .str (js "user"))])]⟩
  encodeLines [⟨.object ((js "type", .str (js "session")) :: (js "id", .str (js "s")) :: version)⟩,
    message, message]

def oldDisk (version : List (JsString × JsValue)) : Disk :=
  JsMap.empty.set (js "/s.jsonl") (oldBytes version)

end World

end PiMono
