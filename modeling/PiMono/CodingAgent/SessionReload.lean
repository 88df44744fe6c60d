import PiMono.CodingAgent.SessionInvariant

/-!
# What a session manager holds is what a reload finds

`Op` lists the operations of a session manager and `World.apply` runs one.
`World.Reachable` are the worlds that runs reach from a new session, with fresh
ids and no failing I/O; an operation that throws leaves the world as it is and
adds nothing to a run. `World.reload_simulation` is the result: the indexes in
memory agree with the entries, and with what a reload of the file builds.
-/

namespace PiMono

/-- The operations of a session manager. -/
inductive Op where
  | newSession (id parentSession : Option JsString)
  | appendMessage (message : JsValue)
  | appendThinkingLevelChange (thinkingLevel : JsString)
  | appendModelChange (provider modelId : JsString)
  | appendCompaction (summary firstKeptEntryId : JsString) (tokensBefore : JsNumber)
    (details : Option JsValue) (fromHook : Option Bool) (usage : Option JsValue)
  | appendMemory (kind : MemoryKind) (content : JsString)
      (sourceEntryIds supersedes : List JsString)
    (projectKind : Option ProjectKind)
  | appendCustomEntry (customType : JsString) (data : Option JsValue)
  | appendSessionInfo (name : JsString)
  | appendCustomMessageEntry (customType : JsString) (content : JsValue) (display : Bool)
    (details : Option JsValue)
  | appendLabelChange (targetId : JsString) (label : Option JsString)
  | branch (branchFromId : JsString)
  | resetLeaf
  | branchWithSummary (branchFromId : Option JsString) (summary : JsString)
    (details : Option JsValue) (fromHook : Option Bool) (usage : Option JsValue)
  | createBranchedSession (leafId : JsString)

namespace Op

/-- The operations that end with `_appendEntry`. -/
def isAppend : Op → Bool
  | newSession .. | branch _ | resetLeaf | createBranchedSession _ => false
  | _ => true

/-- The fields that a plain append method gives its entry. -/
def plainBody? : Op → Option EntryBody
  | .appendMessage message => some (.message message)
  | .appendThinkingLevelChange thinkingLevel => some (.thinkingLevelChange thinkingLevel)
  | .appendModelChange provider modelId => some (.modelChange provider modelId)
  | .appendCompaction summary firstKeptEntryId tokensBefore details fromHook usage =>
    some (.compaction summary firstKeptEntryId tokensBefore details usage fromHook)
  | .appendMemory kind content sourceEntryIds supersedes projectKind =>
    some (.memory kind content projectKind sourceEntryIds supersedes)
  | .appendCustomEntry customType data => some (.custom customType data)
  | .appendSessionInfo name => some (.sessionInfo (some (trim (joinLines false name))))
  | .appendCustomMessageEntry customType content display details =>
    some (.customMessage customType (some content) display details)
  | _ => none

/-- The operations that leave the session the one it is. -/
def staysInSession : Op → Bool
  | newSession .. | createBranchedSession _ => false
  | _ => true

/-- The ids an operation draws. -/
def drawnIds (w : World) (d : Draws) : Op → List JsString
  | newSession .. | branch _ | resetLeaf => []
  | createBranchedSession leafId =>
    d.sessionId.text ::
      w.manager.branchedLabelIds d ((w.manager.getBranch (some leafId)).getD [])
  | _ => [w.nextId d]

/-- The session file an operation names. -/
def newFile? (w : World) (d : Draws) : Op → Option JsString
  | newSession id _ => some (sessionPath w.manager.sessionDir d.now (id.getD d.sessionId.text))
  | createBranchedSession _ => some (sessionPath w.manager.sessionDir d.now d.sessionId.text)
  | _ => none

/-- The ids drawn are new in the session, and no file has the new session's name. -/
structure Fresh (w : World) (d : Draws) (op : Op) : Prop where
  nodup : (op.drawnIds w d).Nodup
  ids : ∀ id ∈ op.drawnIds w d, id ∉ w.manager.fileEntries.map (·.id)
  file : ∀ path, op.newFile? w d = some path → w.disk.has path = false

instance (w : World) (d : Draws) (op : Op) : Decidable (op.Fresh w d) :=
  decidable_of_iff ((op.drawnIds w d).Nodup ∧
      (∀ id ∈ op.drawnIds w d, id ∉ w.manager.fileEntries.map (·.id)) ∧
      ∀ path ∈ op.newFile? w d, w.disk.has path = false)
    ⟨fun ⟨hnodup, hids, hfile⟩ => ⟨hnodup, hids, hfile⟩,
      fun ⟨hnodup, hids, hfile⟩ => ⟨hnodup, hids, hfile⟩⟩

theorem Fresh.nextId {w : World} {d : Draws} {op : Op} (h : op.Fresh w d)
    (hop : op.isAppend = true) : w.nextId d ∉ w.manager.fileEntries.map (·.id) := by
  refine h.ids _ ?_
  cases op with
  | newSession | branch | resetLeaf | createBranchedSession => cases hop
  | _ => exact List.mem_singleton.mpr rfl

end Op

/-- An operation on a session, and what it draws. -/
structure SessionStep where
  draws : Draws
  op : Op
  staysInSession : op.staysInSession = true

namespace World

/-- One operation. -/
def apply (w : World) (d : Draws) : Op → Except SessionError World
  | .newSession id parentSession => w.newSession d id parentSession
  | .appendMessage message => w.appendMessage d message
  | .appendThinkingLevelChange thinkingLevel => w.appendThinkingLevelChange d thinkingLevel
  | .appendModelChange provider modelId => w.appendModelChange d provider modelId
  | .appendCompaction summary firstKeptEntryId tokensBefore details fromHook usage =>
    w.appendCompaction d summary firstKeptEntryId tokensBefore details fromHook usage
  | .appendMemory kind content sourceEntryIds supersedes projectKind =>
    w.appendMemory d kind content sourceEntryIds supersedes projectKind
  | .appendCustomEntry customType data => w.appendCustomEntry d customType data
  | .appendSessionInfo name => w.appendSessionInfo d name
  | .appendCustomMessageEntry customType content display details =>
    w.appendCustomMessageEntry d customType content display details
  | .appendLabelChange targetId label => w.appendLabelChange d targetId label
  | .branch branchFromId => w.branch branchFromId
  | .resetLeaf => .ok w.resetLeaf
  | .branchWithSummary branchFromId summary details fromHook usage =>
    w.branchWithSummary d branchFromId summary details fromHook usage
  | .createBranchedSession leafId => w.createBranchedSession d leafId

/-- The world after an operation; one that fails leaves it as it is. -/
def after (w : World) (d : Draws) (op : Op) : World :=
  match w.apply d op with
  | .ok w' => w'
  | .error _ => w

theorem apply_after {w : World} {d : Draws} {op : Op} (h : (w.apply d op).isOk = true) :
    w.apply d op = .ok (w.after d op) := by
  rw [after]
  cases hw : w.apply d op with
  | ok w' => rfl
  | error e =>
    rw [hw] at h
    cases h

/-- The world after some operations. -/
def afterSteps (w : World) (steps : List SessionStep) : World :=
  steps.foldl (fun w step => w.after step.draws step.op) w

theorem apply_plain {w : World} {d : Draws} {op : Op} {body : EntryBody}
    (h : op.plainBody? = some body) : w.apply d op = w.appendBody d body := by
  cases op <;> cases h <;> rfl

/-- The worlds that runs reach from a new session. -/
inductive Reachable : World → Prop
  | create {disk : Disk} {d : Draws} {cwd sessionDir : JsString}
      {id parentSession : Option JsString}
    {w : World} : World.create disk d cwd sessionDir id parentSession = .ok w →
    disk.has (sessionPath sessionDir d.now (id.getD d.sessionId.text)) = false → Reachable w
  | step {w w' : World} {d : Draws} {op : Op} : Reachable w → op.Fresh w d →
    w.apply d op = .ok w' → Reachable w'

/-! ## The step lemma -/

/-- A new session holds a header and nothing else. -/
theorem inv_newSession {m : SessionManager} {disk : Disk} {d : Draws}
    {id parentSession : Option JsString} {w : World} (hpersist : m.persist = true)
    (hfile : disk.has (sessionPath m.sessionDir d.now (id.getD d.sessionId.text)) = false)
    (h : World.newSession ⟨m, disk⟩ d id parentSession = .ok w) : w.Inv [] := by
  rw [World.newSession, SessionManager.newSession] at h
  split at h
  · cases h
    refine ⟨⟨_, _, rfl⟩, by simp, by simp, parentsEarlier_nil, rfl, rfl, by simp, hpersist, ?_, ?_⟩
    · simp [SessionManager.hasAssistant]
    · refine ⟨sessionPath m.sessionDir d.now (id.getD d.sessionId.text), by simp, ?_⟩
      have hnone : disk.get? (sessionPath m.sessionDir d.now (id.getD d.sessionId.text))
        = none := by
        simpa [JsMap.has] using hfile
      simpa [SessionManager.hasAssistant] using hnone
  · cases h

/-- `createBranchedSession` succeeds on the id of an entry: the branched session
keeps the invariant, and its leaf is its last entry. -/
theorem Inv.createBranchedSession_ok {w : World} {es : List FileEntry} (h : w.Inv es)
    {d : Draws} {e : FileEntry} (he : e ∈ es)
    (hfresh : (Op.createBranchedSession e.id).Fresh w d) :
    ∃ w' path, w.createBranchedSession d e.id = .ok w' ∧
      w.manager.getBranch (some e.id) = some path ∧ path.Sublist es ∧
      w'.Inv (w.manager.branchedEntries d path) ∧
      w'.manager.leafId = (w.manager.branchedEntries d path).getLast?.map (·.id) := by
  obtain ⟨path, hsub, -, hbranch⟩ := h.getBranch_of_mem he
  obtain ⟨hnodup, hids, hnew⟩ := hfresh
  rw [Op.drawnIds, hbranch, Option.getD_some] at hnodup hids
  have hnone : w.disk.get? (sessionPath w.manager.sessionDir d.now d.sessionId.text) = none := by
    simpa [JsMap.has] using hnew _ rfl
  obtain ⟨x, xs, hx⟩ : ∃ x xs, path ++ [e] = x :: xs :=
    List.exists_cons_of_ne_nil (by simp)
  rw [World.createBranchedSession, hbranch, hx]
  rw [hx] at hsub hnodup hids
  simp only [h.persist, Bool.not_true, Bool.false_eq_true, if_false]
  have hbuilt : ∀ e ∈ x :: xs, e.Built := fun e he => h.built e (hsub.subset he)
  have hsession : (w.manager.branched d (x :: xs)).persist = true ∧
      (w.manager.branched d (x :: xs)).sessionFile
        = some (sessionPath w.manager.sessionDir d.now d.sessionId.text) ∧
      (w.manager.branched d (x :: xs)).leafId
        = (w.manager.branchedEntries d (x :: xs)).getLast?.map (·.id) := by
    rw [SessionManager.branched, SessionManager.buildIndex_eq rfl
      (FileEntry.header_isHeader _ _ _ _)
      fun e he => (SessionManager.built_branchedEntries w.manager d hbuilt e he).isHeader]
    exact ⟨h.persist, if_pos h.persist, rfl⟩
  obtain ⟨hpersist, hfile, hleaf⟩ := hsession
  cases hassistant : (w.manager.branched d (x :: xs)).hasAssistant with
  | true =>
    rw [if_pos rfl]
    refine ⟨_, x :: xs, rfl, rfl, hsub, h.branched d hsub hnodup hids _ (w.disk.set
      (sessionPath w.manager.sessionDir d.now d.sessionId.text)
      (encodeLines (w.manager.branched d (x :: xs)).fileEntries)) ?_ ?_, hleaf⟩
    · rw [hassistant]
      simp
    · rw [hassistant, World.rewriteFile]
      simp only [hpersist, hfile]
  | false =>
    rw [if_neg (by simp)]
    refine ⟨_, x :: xs, rfl, rfl, hsub, h.branched d hsub hnodup hids _ w.disk ?_ ?_, hleaf⟩
    · rw [hassistant]
      simpa using hnone
    · rw [hassistant]

/-- Where it succeeds, it was given the id of an entry. -/
theorem Inv.createBranchedSession_mem {w w' : World} {es : List FileEntry} (h : w.Inv es)
    {d : Draws} {leafId : JsString} (hw' : w.createBranchedSession d leafId = .ok w') :
    ∃ e ∈ es, e.id = leafId := by
  rcases h.getBranch_cases leafId with ⟨-, hbranch⟩ | ⟨e, he, hid, -⟩
  · rw [World.createBranchedSession, hbranch] at hw'
    cases hw'
  · exact ⟨e, he, hid⟩

/-- What an operation makes of the entries `es`. -/
inductive Effect (w w' : World) (d : Draws) (es : List FileEntry) (op : Op) :
    List FileEntry → Prop
  | restart : op.isAppend = false → Effect w w' d es op []
  | keep : op.isAppend = false → Effect w w' d es op es
  /-- The new entry is the leaf then. Only a plain append method adds what is no
  label and no branch summary, and it adds it below the leaf. -/
  | append (parentId : Option JsString) (body : EntryBody) :
    op.plainBody? = some body ∧ parentId = w.manager.leafId ∨
      body.type ∈ ["label", "branch_summary"] →
    w'.manager.leafId = some (w.nextId d) →
    Effect w w' d es op (es ++ [.create (w.nextId d) parentId d.now body])
  | branched (leafId : JsString) (path : List FileEntry) : op.isAppend = false →
    w.manager.getBranch (some leafId) = some path → path.Sublist es →
    Effect w w' d es op (w.manager.branchedEntries d path)

/-- **Every operation keeps the invariant**, and has one of four effects. -/
theorem Inv.apply {w w' : World} {es : List FileEntry} (h : w.Inv es) {d : Draws} {op : Op}
    (hfresh : op.Fresh w d) (hw' : w.apply d op = .ok w') :
    ∃ es', w'.Inv es' ∧ Effect w w' d es op es' := by
  cases hplain : op.plainBody? with
  | some body =>
    rw [apply_plain hplain] at hw'
    obtain ⟨v, hv, hinv, hleaf⟩ := h.appendBody_of_not_label d body
      (by cases op <;> cases hplain <;> simp)
      (hfresh.nextId (by cases op <;> cases hplain <;> rfl))
    obtain rfl : v = w' := Except.ok.inj (hv.symm.trans hw')
    exact ⟨_, hinv, .append _ body (Or.inl ⟨hplain, rfl⟩) hleaf⟩
  | none =>
  cases op with
  | newSession id parentSession =>
    exact ⟨[], inv_newSession h.persist (hfresh.file _ rfl) hw', .restart rfl⟩
  | appendLabelChange targetId label =>
    have hhas : w.manager.byId.has targetId = true := by
      by_contra hnot
      have hw' : w.appendLabelChange d targetId label = .ok w' := hw'
      rw [World.appendLabelChange, if_neg hnot] at hw'
      cases hw'
    obtain ⟨v, hv, hinv, hleaf⟩ :=
      h.appendLabelChange d targetId label (hfresh.nextId rfl) hhas
    obtain rfl : v = w' := Except.ok.inj (hv.symm.trans hw')
    exact ⟨_, hinv, .append _ _ (Or.inr List.mem_cons_self) hleaf⟩
  | branch branchFromId =>
    have hw' : w.branch branchFromId = .ok w' := hw'
    rw [World.branch] at hw'
    split at hw'
    · rename_i hhas
      cases hw'
      refine ⟨es, h.moveLeaf ?_, .keep rfl⟩
      rintro l ⟨⟩
      exact h.has_iff.mp hhas
    · cases hw'
  | resetLeaf =>
    have hw' : Except.ok w.resetLeaf = Except.ok w' := hw'
    cases hw'
    exact ⟨es, h.moveLeaf (by simp), .keep rfl⟩
  | branchWithSummary branchFromId summary details fromHook usage =>
    have hw' : w.branchWithSummary d branchFromId summary details fromHook usage = .ok w' := hw'
    rw [World.branchWithSummary] at hw'
    split at hw'
    · rename_i hhas
      have hmove : ∀ l, branchFromId = some l → l ∈ es.map (·.id) := by
        rintro l rfl
        exact h.has_iff.mp (by simpa using hhas)
      obtain ⟨v, hv, hinv, hleaf⟩ := (h.moveLeaf hmove).appendBody_of_not_label d
        (.branchSummary (branchFromId.getD (js "root")) summary details usage fromHook)
        (by simp) (hfresh.nextId rfl)
      obtain rfl : v = w' := Except.ok.inj (hv.symm.trans hw')
      exact ⟨_, hinv, .append branchFromId _ (Or.inr (by simp [EntryBody.type])) hleaf⟩
    · cases hw'
  | createBranchedSession leafId =>
    obtain ⟨e, he, rfl⟩ := h.createBranchedSession_mem hw'
    obtain ⟨v, path, hv, hbranch, hsub, hinv, -⟩ := h.createBranchedSession_ok he hfresh
    obtain rfl : v = w' := Except.ok.inj (hv.symm.trans hw')
    exact ⟨_, hinv, .branched e.id path rfl hbranch hsub⟩
  | _ => cases hplain

/-- After an append the leaf is the last entry. -/
theorem Effect.last {w w' : World} {d : Draws} {es es' : List FileEntry} {op : Op}
    (h : Effect w w' d es op es') (hop : op.isAppend = true) :
    es'.getLast?.map (·.id) = w'.manager.leafId := by
  cases h with
  | append parentId body hbody hleaf => simp [hleaf]
  | restart hop' | keep hop' | branched _ _ hop' =>
    rw [hop] at hop'
    cases hop'

/-- The run lemma: every reachable world has the invariant. -/
theorem Reachable.inv {w : World} (h : w.Reachable) : ∃ es, w.Inv es := by
  induction h with
  | @create disk d cwd sessionDir id parentSession w hcreate hfile =>
    exact ⟨[], inv_newSession (m := .blank cwd sessionDir) rfl hfile hcreate⟩
  | step _ hfresh happly ih =>
    obtain ⟨es, hes⟩ := ih
    obtain ⟨es', hes', -⟩ := hes.apply hfresh happly
    exact ⟨es', hes'⟩

/-! ## Reloading -/

/-- The session file exists. -/
def fileExists (w : World) : Bool := w.manager.sessionFile.any w.disk.has

/-- `loadEntriesFromFile` of the session file, then `_buildIndex`. -/
def reload (w : World) : SessionManager :=
  { w.manager with
    fileEntries := loadEntriesFromFile w.disk (w.manager.sessionFile.getD []) }.buildIndex

theorem Inv.fileExists {w : World} {es : List FileEntry} (h : w.Inv es) :
    w.fileExists = w.manager.hasAssistant := by
  obtain ⟨path, hpath, hfile⟩ := h.file
  rw [World.fileExists, hpath, Option.any_some, JsMap.has, hfile]
  split
  · rename_i hassistant
    rw [hassistant]
    rfl
  · rename_i hassistant
    rw [Bool.not_eq_true] at hassistant
    rw [hassistant]
    rfl

/-- Reloading finds the entries and builds their indexes; the leaf is the last
entry. -/
theorem Inv.reload {w : World} {es : List FileEntry} (h : w.Inv es)
    (hexists : w.fileExists = true) :
    w.reload = { w.manager with leafId := es.getLast?.map (·.id) } := by
  obtain ⟨path, hpath, hfile⟩ := h.file
  obtain ⟨t, p, hentries⟩ := h.fileEntries
  rw [h.fileExists] at hexists
  rw [hexists, if_pos rfl] at hfile
  have hheader : hasSessionHeader w.manager.fileEntries = true := by
    rw [hentries]
    simp [hasSessionHeader, FileEntry.header, FileEntry.isHeader, FileEntry.type,
      JsValue.strField?]
  have hload : loadEntriesFromFile w.disk (w.manager.sessionFile.getD [])
      = w.manager.fileEntries := by
    rw [hpath, Option.getD_some, loadEntriesFromFile, hfile]
    exact loadEntries_encodeLines h.truthy hheader
  rw [World.reload, hload, SessionManager.buildIndex_eq hentries (FileEntry.header_isHeader _ _ _ _)
    fun e he => (h.built e he).isHeader, ← h.byId, ← h.labels]

/-- The indexes of a manager agree with its entries. -/
structure Consistent (m : SessionManager) : Prop where
  /-- The header comes first, and only there. -/
  header : ∃ header, header.isHeader = true ∧ m.fileEntries = header :: m.getEntries
  ids : (m.fileEntries.map (·.id)).Nodup
  /-- A parent is an entry that stands earlier. -/
  parents : ParentsEarlier (·.id) (·.parentId) m.getEntries
  byId : m.byId = JsMap.index (·.id) m.getEntries
  leaf : ∀ leafId, m.leafId = some leafId → m.byId.has leafId = true
  labels : (m.labelsById, m.labelTimestampsById) = labelFold m.getEntries

theorem Inv.consistent {w : World} {es : List FileEntry} (h : w.Inv es) :
    Consistent w.manager := by
  obtain ⟨t, p, hentries⟩ := h.fileEntries
  refine ⟨⟨.header w.manager.sessionId t w.manager.cwd p, FileEntry.header_isHeader _ _ _ _, ?_⟩,
    h.nodup, ?_, ?_, ?_, ?_⟩
  · rw [h.getEntries]
    exact hentries
  · rw [h.getEntries]
    exact h.parents
  · rw [h.getEntries]
    exact h.byId
  · exact fun leafId hleaf => h.has_iff.mpr (h.leaf leafId hleaf)
  · rw [h.getEntries]
    exact h.labels

/-- **Reload simulation**: in every reachable world the indexes agree with the
entries, the file exists exactly when there is an assistant message, and a reload
then finds the same entries and indexes, and after an append also the leaf. -/
theorem reload_simulation {w : World} (h : w.Reachable) :
    Consistent w.manager ∧ w.fileExists = w.manager.hasAssistant ∧
      (w.fileExists = true → w.reload.fileEntries = w.manager.fileEntries ∧
        w.reload.byId = w.manager.byId ∧ w.reload.labelsById = w.manager.labelsById ∧
        w.reload.labelTimestampsById = w.manager.labelTimestampsById) ∧
      ∀ (d : Draws) (op : Op) (w' : World), op.Fresh w d → w.apply d op = .ok w' →
        op.isAppend = true → w'.fileExists = true → w'.reload.leafId = w'.manager.leafId := by
  obtain ⟨es, hes⟩ := h.inv
  refine ⟨hes.consistent, hes.fileExists, fun hexists => ?_, ?_⟩
  · rw [hes.reload hexists]
    exact ⟨rfl, rfl, rfl, rfl⟩
  · intro d op w' hfresh happly happend hexists
    obtain ⟨es', hes', heffect⟩ := hes.apply hfresh happly
    rw [hes'.reload hexists, ← heffect.last happend]

/-! ## Sample runs -/

/-- What a run may draw: as good as any, and easy to tell apart. -/
def sampleDraws (n : Nat) : Draws :=
  let uuid : Uuid := ⟨List.replicate 36 (0x30 + n.toUInt16), List.length_replicate ..⟩
  ⟨js "2025-01-01T00:00:00.000Z", uuid, fun _ _ => uuid⟩

/-- The worlds of a run from a new session; the `n`-th operation draws `n`. -/
def sampleWorld (ops : List Op) : World :=
  let start := match create .empty (sampleDraws 0) (js "/work") (js "/sessions") none none with
    | .ok w => w
    | .error _ => ⟨.blank [] [], .empty⟩
  (ops.zipIdx 1).foldl (fun w (op, n) => w.after (sampleDraws n) op) start

theorem sampleWorld_snoc (ops : List Op) (op : Op) :
    sampleWorld (ops ++ [op]) = (sampleWorld ops).after (sampleDraws (ops.length + 1)) op := by
  simp [sampleWorld, List.zipIdx_append, Nat.add_comm]

theorem reachable_sampleWorld_nil : (sampleWorld []).Reachable := by
  have hcreate : World.create .empty (sampleDraws 0) (js "/work") (js "/sessions") none none
      = .ok (sampleWorld []) := rfl
  exact .create hcreate (by decide)

theorem Reachable.snoc {ops : List Op} (h : (sampleWorld ops).Reachable) (op : Op)
    (hfresh : op.Fresh (sampleWorld ops) (sampleDraws (ops.length + 1)))
    (hok : ((sampleWorld ops).apply (sampleDraws (ops.length + 1)) op).isOk = true) :
    (sampleWorld (ops ++ [op])).Reachable := by
  rw [sampleWorld_snoc]
  exact .step h hfresh (apply_after hok)

/-- A response and a message behind it, a label, and a branch from the response. -/
def branchedRun : List Op :=
  let message (role text : String) : JsValue :=
    .object [(js "role", .str (js role)), (js "content", .str (js text))]
  [.appendMessage (message "assistant" "first"), .appendMessage (message "user" "second"),
    .appendLabelChange (js "11111111") (some (js "here")), .branch (js "11111111")]

/-- What the branch begins with. -/
def branchedName : Op := .appendSessionInfo (js "other")

theorem reachable_branchedRun : (sampleWorld branchedRun).Reachable := by
  have hfirst := reachable_sampleWorld_nil.snoc branchedRun[0] (by decide) (by decide)
  have hsecond := hfirst.snoc branchedRun[1] (by decide) (by decide)
  have hlabel := hsecond.snoc branchedRun[2] (by decide) (by decide)
  exact hlabel.snoc branchedRun[3] (by decide) (by decide)

/-- A reload finds the entries and the label of the run, and behind an append on the branch its
leaf. -/
theorem reload_simulation_assistant :
    (sampleWorld branchedRun).manager.labelsById.get? (js "11111111") = some (js "here") ∧
      (sampleWorld branchedRun).reload.fileEntries
        = (sampleWorld branchedRun).manager.fileEntries ∧
      (sampleWorld branchedRun).reload.labelsById
        = (sampleWorld branchedRun).manager.labelsById ∧
      (sampleWorld (branchedRun ++ [branchedName])).reload.leafId = some (js "55555555") := by
  obtain ⟨-, -, hreload, happend⟩ := reload_simulation reachable_branchedRun
  obtain ⟨hentries, -, hlabels, -⟩ := hreload (by decide)
  refine ⟨by decide, hentries, hlabels, ?_⟩
  have hok : ((sampleWorld branchedRun).apply (sampleDraws 5) branchedName).isOk = true := by decide
  have hleaf := happend (sampleDraws 5) branchedName _ (by decide) (apply_after hok) rfl (by decide)
  rw [sampleWorld_snoc]
  exact hleaf.trans (by decide)

end World

end PiMono
