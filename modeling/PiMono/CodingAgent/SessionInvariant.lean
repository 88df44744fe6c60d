import PiMono.CodingAgent.SessionManager

/-!
# The invariant of a session manager

`World.Inv` is what every operation keeps: the entries form a forest whose
parents stand earlier, the indexes are the indexes of the entries, and the file
holds every line as soon as there is an assistant message, and does not exist
before. Each operation has one lemma here: `appendBody`, `appendLabelChange`,
`moveLeaf` and `branched`; `getBranch_cases` is the walk they share.
-/

namespace PiMono

/-! ## Entries as they are built -/

namespace FileEntry

/-- An entry as the manager holds it: an object that is no header and has an id. -/
structure Built (e : FileEntry) : Prop where
  isObject : e.raw.isObject = true
  isHeader : e.isHeader = false
  id_ne_nil : e.id ≠ []

theorem Built.truthy {e : FileEntry} (h : e.Built) : e.raw.truthy = true := by
  obtain ⟨fields, hf⟩ := JsValue.isObject_iff.mp h.isObject
  simp [JsValue.truthy, hf]

theorem built_create {i : JsString} (hi : i ≠ []) (p : Option JsString) (t : JsString)
    (b : EntryBody) : (create i p t b).Built where
  isObject := by
    unfold create
    exact JsValue.isObject_object _
  isHeader := create_isHeader i p t b
  id_ne_nil := by rwa [create_id]

@[simp] theorem header_isHeader (i t c : JsString) (p : Option JsString) :
    (header i t c p).isHeader = true := by
  simp [header, isHeader, type, JsValue.strField?]

@[simp] theorem header_id (i t c : JsString) (p : Option JsString) : (header i t c p).id = i := by
  simp [header, FileEntry.id, strD, JsValue.strField?]

@[simp] theorem header_body? (i t c : JsString) (p : Option JsString) :
    (header i t c p).body? = none := by
  simp [header, body?, type, JsValue.strField?]

@[simp] theorem header_isAssistant (i t c : JsString) (p : Option JsString) :
    (header i t c p).isAssistant = false := by
  simp [isAssistant, messageRole?]

theorem header_truthy (i t c : JsString) (p : Option JsString) :
    (header i t c p).raw.truthy = true := by
  have h : (header i t c p).raw.isObject = true := JsValue.isObject_object _
  obtain ⟨fields, hf⟩ := JsValue.isObject_iff.mp h
  rw [JsValue.truthy, hf]

section WithParent

variable (e : FileEntry) (p : Option JsString)

/-- A new parent leaves the other fields as they are. -/
theorem withParent_get? {key : String} (h : key ≠ "parentId") :
    (e.withParent p).raw.get? (js key) = e.raw.get? (js key) := by
  cases ho : e.raw.isObject with
  | true => simp [withParent, JsValue.get?_set ho, Ne.symm h]
  | false => rw [withParent, JsValue.set_of_not_isObject ho]

@[simp] theorem withParent_type : (e.withParent p).type = e.type := by
  simp [type, JsValue.strField?, withParent_get?]

@[simp] theorem withParent_id : (e.withParent p).id = e.id := by
  simp [FileEntry.id, strD, JsValue.strField?, withParent_get?]

@[simp] theorem withParent_timestamp : (e.withParent p).timestamp = e.timestamp := by
  simp [timestamp, strD, JsValue.strField?, withParent_get?]

@[simp] theorem withParent_isHeader : (e.withParent p).isHeader = e.isHeader := by
  simp [isHeader]

@[simp] theorem withParent_body? : (e.withParent p).body? = e.body? := by
  simp [body?, strD, strs, JsValue.strField?, withParent_get?]

theorem withParent_parentId (h : e.raw.isObject = true) : (e.withParent p).parentId = p := by
  cases p <;> simp [parentId, JsValue.strField?, withParent, JsValue.get?_set h]

theorem Built.withParent {e : FileEntry} (h : e.Built) (p : Option JsString) :
    (e.withParent p).Built where
  isObject := by rw [FileEntry.withParent, JsValue.isObject_set, h.isObject]
  isHeader := by rw [withParent_isHeader, h.isHeader]
  id_ne_nil := by rw [withParent_id]; exact h.id_ne_nil

end WithParent

end FileEntry

/-! ## Labels -/

/-- What a label entry does to the labels: the label and its time are set, or
both are cleared. -/
def labelStep (maps : JsMap JsString JsString × JsMap JsString JsString) (e : FileEntry) :
    JsMap JsString JsString × JsMap JsString JsString :=
  match e.body? with
  | some (.label targetId label) =>
    match label.filter (· ≠ []) with
    | some label => (maps.1.set targetId label, maps.2.set targetId e.timestamp)
    | none => (maps.1.delete targetId, maps.2.delete targetId)
  | _ => maps

/-- The labels that some entries leave, in file order: the last writer wins. -/
def labelFold (es : List FileEntry) : JsMap JsString JsString × JsMap JsString JsString :=
  es.foldl labelStep (.empty, .empty)

namespace SessionManager

/-! ## Indexing -/

theorem indexEntry_eq (m : SessionManager) {e : FileEntry} (h : e.isHeader = false) :
    m.indexEntry e = { m with
      byId := m.byId.set e.id e
      leafId := some e.id
      labelsById := (labelStep (m.labelsById, m.labelTimestampsById) e).1
      labelTimestampsById := (labelStep (m.labelsById, m.labelTimestampsById) e).2 } := by
  rw [indexEntry, h, labelStep]
  cases hb : e.body? with
  | none => rfl
  | some b =>
    cases b with
    | label targetId label =>
      simp only [setLabel]
      cases label.filter (· ≠ []) <;> rfl
    | _ => rfl

theorem foldl_indexEntry (m : SessionManager) {es : List FileEntry}
    (h : ∀ e ∈ es, e.isHeader = false) :
    es.foldl indexEntry m = { m with
      byId := es.foldl (fun byId e => byId.set e.id e) m.byId
      leafId := (es.getLast?.map (·.id)).or m.leafId
      labelsById := (es.foldl labelStep (m.labelsById, m.labelTimestampsById)).1
      labelTimestampsById := (es.foldl labelStep (m.labelsById, m.labelTimestampsById)).2 } := by
  induction es using List.reverseRecOn with
  | nil => rfl
  | append_singleton es e ih =>
    have hes : ∀ x ∈ es, x.isHeader = false := fun x hx => h x (by simp [hx])
    rw [List.foldl_append, List.foldl_cons, List.foldl_nil, ih hes,
      indexEntry_eq _ (h e (by simp))]
    simp [List.foldl_append]

/-- `_buildIndex` makes the indexes of the entries; the leaf is the last of them. -/
theorem buildIndex_eq {m : SessionManager} {header : FileEntry} {es : List FileEntry}
    (hm : m.fileEntries = header :: es) (hheader : header.isHeader = true)
    (hes : ∀ e ∈ es, e.isHeader = false) :
    m.buildIndex = { m with
      byId := JsMap.index (·.id) es
      leafId := es.getLast?.map (·.id)
      labelsById := (labelFold es).1
      labelTimestampsById := (labelFold es).2 } := by
  have hskip : ∀ m' : SessionManager, m'.indexEntry header = m' := by
    intro m'
    rw [indexEntry, hheader]
    rfl
  rw [buildIndex, hm, List.foldl_cons, hskip, foldl_indexEntry _ hes]
  simp [labelFold, JsMap.index]

end SessionManager

/-! ## Writing an entry -/

namespace World

variable {w : World} {path : JsString}

/-- Once the file is written, a line is appended. -/
theorem persistEntry_flushed (hpersist : w.manager.persist = true)
    (hpath : w.manager.sessionFile = some path) (hflushed : w.manager.flushed = true)
    (e : FileEntry) :
    w.persistEntry e = .ok { w with disk := w.disk.appendFile path e.line } := by
  rw [persistEntry, hpersist, hpath]
  simp only [hflushed]
  cases w.manager.hasAssistant <;> rfl

/-- Before the first assistant message, nothing is written. -/
theorem persistEntry_deferred (hpersist : w.manager.persist = true)
    (hpath : w.manager.sessionFile = some path) (hflushed : w.manager.flushed = false)
    (hassistant : w.manager.hasAssistant = false) (e : FileEntry) : w.persistEntry e = .ok w := by
  have hsame : ({ w.manager with flushed := false } : SessionManager) = w.manager := by
    rw [← hflushed]
  rw [persistEntry, hpersist, hpath]
  simp only [hflushed, hassistant, hsame]
  rfl

/-- The first assistant message creates the file. -/
theorem persistEntry_create (hpersist : w.manager.persist = true)
    (hpath : w.manager.sessionFile = some path) (hflushed : w.manager.flushed = false)
    (hassistant : w.manager.hasAssistant = true) (hnew : w.disk.has path = false)
    (e : FileEntry) :
    w.persistEntry e = .ok ⟨{ w.manager with flushed := true },
      w.disk.set path (encodeLines w.manager.fileEntries)⟩ := by
  rw [persistEntry, hpersist, hpath]
  simp only [hflushed, hassistant, hnew]
  rfl

end World

/-! ## The invariant -/

/-- What every operation keeps; `es` are the entries behind the header. -/
structure World.Inv (w : World) (es : List FileEntry) : Prop where
  fileEntries : ∃ timestamp parentSession, w.manager.fileEntries
    = .header w.manager.sessionId timestamp w.manager.cwd parentSession :: es
  built : ∀ e ∈ es, e.Built
  nodup : (w.manager.fileEntries.map (·.id)).Nodup
  parents : ParentsEarlier (·.id) (·.parentId) es
  byId : w.manager.byId = JsMap.index (·.id) es
  labels : (w.manager.labelsById, w.manager.labelTimestampsById) = labelFold es
  leaf : ∀ leafId, w.manager.leafId = some leafId → leafId ∈ es.map (·.id)
  persist : w.manager.persist = true
  flushed : w.manager.flushed = w.manager.hasAssistant
  file : ∃ path, w.manager.sessionFile = some path ∧ w.disk.get? path =
    if w.manager.hasAssistant then some (encodeLines w.manager.fileEntries) else none

namespace World.Inv

variable {w : World} {es : List FileEntry}

theorem nodup_entries (h : w.Inv es) : (es.map (·.id)).Nodup := by
  obtain ⟨t, p, hfile⟩ := h.fileEntries
  have := h.nodup
  rw [hfile, List.map_cons, List.nodup_cons] at this
  exact this.2

theorem has_iff (h : w.Inv es) {id : JsString} :
    w.manager.byId.has id = true ↔ id ∈ es.map (·.id) := by
  rw [JsMap.has_iff, h.byId, JsMap.keys_index h.nodup_entries]

theorem getEntries (h : w.Inv es) : w.manager.getEntries = es := by
  obtain ⟨t, p, hfile⟩ := h.fileEntries
  rw [SessionManager.getEntries, hfile, List.filter_cons_of_neg (by simp),
    List.filter_eq_self.mpr fun e he => by simp [(h.built e he).isHeader]]

theorem truthy (h : w.Inv es) : ∀ e ∈ w.manager.fileEntries, e.raw.truthy = true := by
  obtain ⟨t, p, hfile⟩ := h.fileEntries
  rw [hfile]
  exact List.forall_mem_cons.mpr ⟨FileEntry.header_truthy _ _ _ _, fun e he =>
    (h.built e he).truthy⟩

/-- Every parent link of an entry is the id of its parent. -/
theorem parentLink (h : w.Inv es) {e : FileEntry} (he : e ∈ es) : e.parentLink = e.parentId := by
  rw [FileEntry.parentLink]
  cases hp : e.parentId with
  | none => rfl
  | some p =>
  rw [Option.filter_some, if_pos]
  obtain ⟨pre, post, hes⟩ := List.append_of_mem he
  obtain ⟨b, hb, rfl⟩ := List.mem_map.mp (h.parents pre e post hes p hp)
  have hbes : b ∈ es := by rw [hes]; simp [hb]
  exact decide_eq_true (h.built b hbes).id_ne_nil

/-! ## Walking up -/

theorem parentLinks (h : w.Inv es) : ParentsEarlier (·.id) FileEntry.parentLink es := by
  intro pre e post hes p hp
  have he : e ∈ es := by rw [hes]; simp
  rw [h.parentLink he] at hp
  exact h.parents pre e post hes p hp

/-- The branch of an entry is its path from the root. -/
theorem getBranch_of_mem (h : w.Inv es) {e : FileEntry} (he : e ∈ es) :
    ∃ path, (path ++ [e]).Sublist es ∧
      IsPath (·.id) FileEntry.parentLink none (path ++ [e]) ∧
      w.manager.getBranch (some e.id) = some (path ++ [e]) := by
  obtain ⟨path, hsub, hpath, hwalk⟩ := walkUp_of_mem h.nodup_entries h.parentLinks he
  refine ⟨path, hsub, hpath, ?_⟩
  have hid : (some e.id).filter (· ≠ ([] : JsString)) = some e.id := by
    simp [(h.built e he).id_ne_nil]
  have hget : (JsMap.index (·.id) es).get? e.id = some e :=
    JsMap.get?_index_of_mem h.nodup_entries he
  have hlen : (JsMap.index (·.id) es).entries.length = es.length := by
    rw [JsMap.entries_index h.nodup_entries, List.length_map]
  rw [SessionManager.getBranch, Option.some_or, hid, Option.bind_some, h.byId, hget, hlen,
    hwalk _ (Nat.le_refl _), Option.map_some, List.reverse_reverse]

theorem getBranch_of_notMem (h : w.Inv es) {id : JsString} (hid : id ∉ es.map (·.id)) :
    w.manager.getBranch (some id) = some [] := by
  have hget : ((some id).filter (· ≠ ([] : JsString))).bind w.manager.byId.get? = none := by
    rw [Option.bind_eq_none_iff]
    intro k hk
    obtain rfl : id = k := Option.some.inj (Option.filter_eq_some_iff.mp hk).1
    rw [h.byId, JsMap.get?_eq_none_iff, JsMap.keys_index h.nodup_entries]
    exact hid
  rw [SessionManager.getBranch, Option.some_or, hget, walkUp]
  rfl

/-- `getBranch` returns, an empty branch only for an unknown id. -/
theorem getBranch_cases (h : w.Inv es) (id : JsString) :
    (id ∉ es.map (·.id) ∧ w.manager.getBranch (some id) = some []) ∨
      ∃ e ∈ es, e.id = id ∧ ∃ path, (path ++ [e]).Sublist es ∧
        IsPath (·.id) FileEntry.parentLink none (path ++ [e]) ∧
        w.manager.getBranch (some id) = some (path ++ [e]) := by
  by_cases hid : id ∈ es.map (·.id)
  · obtain ⟨e, he, rfl⟩ := List.mem_map.mp hid
    exact Or.inr ⟨e, he, rfl, h.getBranch_of_mem he⟩
  · exact Or.inl ⟨hid, h.getBranch_of_notMem hid⟩

/-- The current branch is the path to the leaf. -/
theorem getBranch_leaf (h : w.Inv es) :
    ∃ branch, w.manager.getBranch none = some branch ∧ branch.Sublist es ∧
      IsPath (·.id) FileEntry.parentLink none branch ∧
      branch.getLast?.map (·.id) = w.manager.leafId := by
  cases hleaf : w.manager.leafId with
  | none =>
    refine ⟨[], ?_, List.nil_sublist _, trivial, rfl⟩
    rw [SessionManager.getBranch, hleaf]
    simp [walkUp]
  | some leafId =>
    have hsame : w.manager.getBranch none = w.manager.getBranch (some leafId) := by
      rw [SessionManager.getBranch, SessionManager.getBranch, hleaf]
      rfl
    obtain ⟨e, he, rfl⟩ := List.mem_map.mp (h.leaf leafId hleaf)
    obtain ⟨path, hsub, hpath, hbranch⟩ := h.getBranch_of_mem he
    exact ⟨path ++ [e], hsame.trans hbranch, hsub, hpath, by simp⟩

/-- It is the only such path. -/
theorem getBranch_eq (h : w.Inv es) {path : List FileEntry}
    (hpath : IsPath (·.id) FileEntry.parentLink none path) (hmem : ∀ x ∈ path, x ∈ es)
    (hlast : path.getLast?.map (·.id) = w.manager.leafId) :
    w.manager.getBranch none = some path := by
  obtain ⟨branch, hbranch, hsub, hpath', hlast'⟩ := h.getBranch_leaf
  rcases List.eq_nil_or_concat path with rfl | ⟨init, a, rfl⟩
  · rw [← hlast'] at hlast
    rw [hbranch, List.getLast?_eq_none_iff.mp (Option.map_eq_none_iff.mp hlast.symm)]
  · rcases List.eq_nil_or_concat branch with rfl | ⟨init', b, rfl⟩
    · rw [← hlast'] at hlast
      simp at hlast
    · rw [List.concat_eq_append] at *
      have hid : a.id = b.id := by simpa [← hlast'] using hlast
      obtain rfl : a = b := List.inj_on_of_nodup_map h.nodup_entries (hmem a (by simp))
        (hsub.subset (by simp)) hid
      rw [hbranch, isPath_unique h.nodup_entries hpath hpath' (fun x hx => hmem x (by simp [hx]))
        (fun x hx => hsub.subset (by simp [hx]))]

/-! ## Appending -/

/-- The world after an entry is appended, its labels not yet looked at. -/
theorem appendEntry_ok (h : w.Inv es) (e : FileEntry) : ∃ disk,
    w.appendEntry e = .ok ⟨{ w.manager.pushEntry e with
      flushed := w.manager.hasAssistant || e.isAssistant }, disk⟩ ∧
    ∀ path, w.manager.sessionFile = some path → disk.get? path =
      if w.manager.hasAssistant || e.isAssistant then
        some (encodeLines (w.manager.fileEntries ++ [e])) else none := by
  obtain ⟨path, hpath, hfile⟩ := h.file
  have hassistant : (w.manager.pushEntry e).hasAssistant
      = (w.manager.hasAssistant || e.isAssistant) := by
    simp [SessionManager.hasAssistant, SessionManager.pushEntry]
  cases hold : w.manager.hasAssistant with
  | true =>
    -- the file is there: the line goes behind it
    rw [hold, if_pos rfl] at hfile
    have hflushed : w.manager.flushed = true := h.flushed.trans hold
    refine ⟨w.disk.appendFile path e.line, ?_, ?_⟩
    · rw [World.appendEntry, World.persistEntry_flushed (w := ⟨w.manager.pushEntry e, w.disk⟩)
        h.persist hpath hflushed, Bool.true_or, ← hflushed]
      rfl
    · intro path' hpath'
      obtain rfl : path = path' := Option.some.inj (hpath.symm.trans hpath')
      rw [Disk.appendFile, JsMap.get?_set, if_pos rfl, hfile, encodeLines_append]
      rfl
  | false =>
    rw [hold, if_neg (by simp)] at hfile
    rw [hold, Bool.false_or] at hassistant
    have hflushed : w.manager.flushed = false := h.flushed.trans hold
    cases he : e.isAssistant with
    | true =>
      -- the first assistant message: the file is created, with everything
      have hhas : w.disk.has path = false := by
        rw [JsMap.has, hfile]
        rfl
      refine ⟨w.disk.set path (encodeLines (w.manager.fileEntries ++ [e])), ?_, ?_⟩
      · rw [World.appendEntry, World.persistEntry_create (w := ⟨w.manager.pushEntry e, w.disk⟩)
          h.persist hpath hflushed (hassistant.trans he) hhas]
        rfl
      · intro path' hpath'
        obtain rfl : path = path' := Option.some.inj (hpath.symm.trans hpath')
        simp
    | false =>
      refine ⟨w.disk, ?_, ?_⟩
      · rw [World.appendEntry, World.persistEntry_deferred (w := ⟨w.manager.pushEntry e, w.disk⟩)
          h.persist hpath hflushed (hassistant.trans he), Bool.false_or, ← hflushed]
        rfl
      · intro path' hpath'
        obtain rfl : path = path' := Option.some.inj (hpath.symm.trans hpath')
        exact hfile

/-- The invariant, over a world that differs from `w` by one more entry. -/
theorem append (h : w.Inv es) {e : FileEntry} (hbuilt : e.Built)
    (hid : e.id ∉ w.manager.fileEntries.map (·.id)) (hparent : e.parentId = w.manager.leafId)
    {w' : World} {disk : Disk}
    (hdisk : ∀ path, w.manager.sessionFile = some path → disk.get? path =
      if w.manager.hasAssistant || e.isAssistant then
        some (encodeLines (w.manager.fileEntries ++ [e])) else none)
    (hw' : w' = ⟨{ w.manager.pushEntry e with
      labelsById := (labelStep (w.manager.labelsById, w.manager.labelTimestampsById) e).1
      labelTimestampsById := (labelStep (w.manager.labelsById, w.manager.labelTimestampsById) e).2
      flushed := w.manager.hasAssistant || e.isAssistant }, disk⟩) :
    w'.Inv (es ++ [e]) := by
  subst hw'
  obtain ⟨t, p, hfile⟩ := h.fileEntries
  have hassistant : (w.manager.fileEntries ++ [e]).any (·.isAssistant)
      = (w.manager.hasAssistant || e.isAssistant) := by
    simp [SessionManager.hasAssistant]
  refine ⟨⟨t, p, ?_⟩, ?_, ?_, ?_, ?_, ?_, ?_, h.persist, hassistant.symm, ?_⟩
  · show w.manager.fileEntries ++ [e] = _
    rw [hfile]
    rfl
  · simpa [or_imp, forall_and] using ⟨h.built, hbuilt⟩
  · show ((w.manager.fileEntries ++ [e]).map (·.id)).Nodup
    rw [List.map_append]
    exact List.nodup_append.mpr ⟨h.nodup, List.nodup_singleton _, by
      rintro a ha b hb rfl
      rw [List.map_cons, List.map_nil, List.mem_singleton] at hb
      exact hid (hb ▸ ha)⟩
  · refine parentsEarlier_snoc.mpr ⟨h.parents, fun q hq => ?_⟩
    rw [hparent] at hq
    exact h.leaf q hq
  · show w.manager.byId.set e.id e = _
    rw [JsMap.index_append_singleton, ← h.byId]
  · rw [labelFold, List.foldl_append]
    show _ = labelStep (labelFold es) e
    rw [← h.labels]
  · rintro leafId ⟨⟩
    simp
  · obtain ⟨path, hpath, -⟩ := h.file
    refine ⟨path, hpath, ?_⟩
    show disk.get? path = if (w.manager.fileEntries ++ [e]).any (·.isAssistant) then _ else _
    rw [hassistant]
    exact hdisk path hpath

/-- An append method keeps the invariant; the labels are those of the new entry. -/
theorem appendBody (h : w.Inv es) (d : Draws) (body : EntryBody)
    (hid : w.nextId d ∉ w.manager.fileEntries.map (·.id)) :
    let e := FileEntry.create (w.nextId d) w.manager.leafId d.now body
    let maps := labelStep (w.manager.labelsById, w.manager.labelTimestampsById) e
    ∃ w', w.appendBody d body = .ok w' ∧
      World.Inv ⟨{ w'.manager with labelsById := maps.1, labelTimestampsById := maps.2 }, w'.disk⟩
        (es ++ [e]) ∧
      w'.manager.labelsById = w.manager.labelsById ∧
      w'.manager.labelTimestampsById = w.manager.labelTimestampsById ∧
      w'.manager.leafId = some (w.nextId d) := by
  intro e maps
  obtain ⟨disk, happend, hdisk⟩ := h.appendEntry_ok e
  have hbuilt : e.Built := FileEntry.built_create (generateId_ne_nil _ _) _ _ _
  refine ⟨_, happend, ?_, rfl, rfl, ?_⟩
  · exact h.append hbuilt (by rwa [FileEntry.create_id]) (FileEntry.create_parentId _ _ _ _)
      hdisk rfl
  · show some e.id = _
    rw [FileEntry.create_id]

/-- Only label entries touch the labels. -/
theorem labelStep_create_of_not_label {maps : JsMap JsString JsString × JsMap JsString JsString}
    {i : JsString} {p : Option JsString} {t : JsString} {body : EntryBody}
    (h : ∀ targetId label, body ≠ .label targetId label) :
    labelStep maps (.create i p t body) = maps := by
  rw [labelStep, FileEntry.create_body?]
  cases body with
  | label targetId label => exact absurd rfl (h targetId label)
  | _ => rfl

theorem appendBody_of_not_label (h : w.Inv es) (d : Draws) (body : EntryBody)
    (hbody : ∀ targetId label, body ≠ .label targetId label)
    (hid : w.nextId d ∉ w.manager.fileEntries.map (·.id)) :
    ∃ w', w.appendBody d body = .ok w' ∧
      w'.Inv (es ++ [.create (w.nextId d) w.manager.leafId d.now body]) ∧
      w'.manager.leafId = some (w.nextId d) := by
  obtain ⟨w', happend, hinv, hlabels, htimes, hleaf⟩ := h.appendBody d body hid
  refine ⟨w', happend, ?_, hleaf⟩
  rw [labelStep_create_of_not_label hbody] at hinv
  rw [← hlabels, ← htimes] at hinv
  exact hinv

theorem appendLabelChange (h : w.Inv es) (d : Draws) (targetId : JsString)
    (label : Option JsString) (hid : w.nextId d ∉ w.manager.fileEntries.map (·.id))
    (htarget : w.manager.byId.has targetId = true) :
    ∃ w', w.appendLabelChange d targetId label = .ok w' ∧
      w'.Inv (es ++ [.create (w.nextId d) w.manager.leafId d.now (.label targetId label)]) ∧
      w'.manager.leafId = some (w.nextId d) := by
  obtain ⟨w', happend, hinv, hlabels, htimes, hleaf⟩ := h.appendBody d (.label targetId label) hid
  refine ⟨⟨w'.manager.setLabel targetId label d.now, w'.disk⟩, ?_, ?_, ?_⟩
  · rw [World.appendLabelChange, if_pos htarget, happend]
    rfl
  · have hset : w'.manager.setLabel targetId label d.now = { w'.manager with
        labelsById := (labelStep (w.manager.labelsById, w.manager.labelTimestampsById)
          (.create (w.nextId d) w.manager.leafId d.now (.label targetId label))).1
        labelTimestampsById := (labelStep (w.manager.labelsById, w.manager.labelTimestampsById)
          (.create (w.nextId d) w.manager.leafId d.now (.label targetId label))).2 } := by
      rw [labelStep, FileEntry.create_body?, FileEntry.create_timestamp, SessionManager.setLabel,
        ← hlabels, ← htimes]
      simp only
      cases label.filter (· ≠ []) <;> rfl
    rw [hset]
    exact hinv
  · rw [SessionManager.setLabel]
    split <;> exact hleaf

/-- Moving the leaf keeps the invariant. -/
theorem moveLeaf (h : w.Inv es) {leafId : Option JsString}
    (hleaf : ∀ l, leafId = some l → l ∈ es.map (·.id)) :
    World.Inv { w with manager := { w.manager with leafId := leafId } } es where
  fileEntries := h.fileEntries
  built := h.built
  nodup := h.nodup
  parents := h.parents
  byId := h.byId
  labels := h.labels
  leaf := hleaf
  persist := h.persist
  flushed := h.flushed
  file := h.file

/-! ## The branched session -/

end World.Inv

namespace SessionManager

theorem map_id_rechain : ∀ (p : Option JsString) (path : List FileEntry),
    (rechain p path).map (·.id) = (path.filter (!·.isLabel)).map (·.id)
  | _, [] => rfl
  | p, e :: path => by
    rw [rechain]
    cases hl : e.isLabel with
    | true => simp [hl, map_id_rechain p path]
    | false => simp [hl, map_id_rechain (some e.id) path]

theorem built_rechain : ∀ {p : Option JsString} {path : List FileEntry},
    (∀ e ∈ path, e.Built) → ∀ e ∈ rechain p path, e.Built
  | _, [], _ => by simp [rechain]
  | p, e :: path, h => by
    obtain ⟨he, hpath⟩ := List.forall_mem_cons.mp h
    rw [rechain]
    split
    · exact built_rechain hpath
    · exact List.forall_mem_cons.mpr ⟨he.withParent p, built_rechain hpath⟩

theorem isPath_rechain : ∀ {p : Option JsString} {path : List FileEntry},
    (∀ e ∈ path, e.Built) → IsPath (·.id) (·.parentId) p (rechain p path)
  | _, [], _ => trivial
  | p, e :: path, h => by
    obtain ⟨he, hpath⟩ := List.forall_mem_cons.mp h
    rw [rechain]
    split
    · exact isPath_rechain hpath
    · refine ⟨FileEntry.withParent_parentId e p he.isObject, ?_⟩
      show IsPath _ _ (some (e.withParent p).id) _
      rw [FileEntry.withParent_id]
      exact isPath_rechain hpath

theorem built_labelEntries (uuids : Nat → Nat → Uuid) :
    ∀ (k : Nat) (taken : List JsString) (p : Option JsString)
      (labels : List (JsString × JsString × JsString)),
      ∀ e ∈ labelEntries uuids k taken p labels, e.Built
  | _, _, _, [] => by simp [labelEntries]
  | k, taken, p, (t, l, s) :: rest => by
    rw [labelEntries]
    exact List.forall_mem_cons.mpr ⟨FileEntry.built_create (generateId_ne_nil _ _) _ _ _,
      built_labelEntries uuids _ _ _ rest⟩

theorem isPath_labelEntries (uuids : Nat → Nat → Uuid) :
    ∀ (k : Nat) (taken : List JsString) (p : Option JsString)
      (labels : List (JsString × JsString × JsString)),
      IsPath (·.id) (·.parentId) p (labelEntries uuids k taken p labels)
  | _, _, _, [] => trivial
  | k, taken, p, (t, l, s) :: rest => by
    rw [labelEntries]
    refine ⟨FileEntry.create_parentId _ _ _ _, ?_⟩
    show IsPath _ _ (some (FileEntry.create _ _ _ _).id) _
    rw [FileEntry.create_id]
    exact isPath_labelEntries uuids _ _ _ rest

/-- The branched session is one path. -/
theorem isPath_branchedEntries (m : SessionManager) (d : Draws) {path : List FileEntry}
    (h : ∀ e ∈ path, e.Built) : IsPath (·.id) (·.parentId) none (m.branchedEntries d path) := by
  have hlast : ((rechain none path).map (·.id)).getLast?.filter (· ≠ ([] : JsString))
      = (rechain none path).getLast?.map (·.id) := by
    rw [List.getLast?_map]
    cases hl : (rechain none path).getLast? with
    | none => rfl
    | some e =>
      have he : e.Built := built_rechain h e (List.mem_of_getLast? hl)
      simp [he.id_ne_nil]
  refine isPath_append.mpr ⟨isPath_rechain h, ?_⟩
  rw [Option.or_none, hlast]
  exact isPath_labelEntries _ _ _ _ _

theorem built_branchedEntries (m : SessionManager) (d : Draws) {path : List FileEntry}
    (h : ∀ e ∈ path, e.Built) : ∀ e ∈ m.branchedEntries d path, e.Built :=
  List.forall_mem_append.mpr ⟨built_rechain h, built_labelEntries _ _ _ _ _⟩

/-- The ids that `createBranchedSession` draws for its label entries. -/
def branchedLabelIds (m : SessionManager) (d : Draws) (path : List FileEntry) : List JsString :=
  let pathEntryIds := (rechain none path).map (·.id)
  (labelEntries d.uuids 0 pathEntryIds (pathEntryIds.getLast?.filter (· ≠ []))
    (m.labelsToWrite pathEntryIds)).map (·.id)

end SessionManager

namespace World.Inv

variable {w : World} {es : List FileEntry}

/-- `createBranchedSession`, on a branch: the new session keeps the invariant. -/
theorem branched (h : w.Inv es) (d : Draws) {path : List FileEntry} (hsub : path.Sublist es)
    (hnodup : (d.sessionId.text :: w.manager.branchedLabelIds d path).Nodup)
    (hfresh : ∀ id ∈ d.sessionId.text :: w.manager.branchedLabelIds d path,
      id ∉ w.manager.fileEntries.map (·.id))
    (w' : World) (disk : Disk)
    (hdisk : disk.get? (sessionPath w.manager.sessionDir d.now d.sessionId.text)
      = if (w.manager.branched d path).hasAssistant then
          some (encodeLines (w.manager.branched d path).fileEntries) else none)
    (hw' : w' = ⟨{ w.manager.branched d path with
      flushed := (w.manager.branched d path).hasAssistant }, disk⟩) :
    w'.Inv (w.manager.branchedEntries d path) := by
  have hbuilt : ∀ e ∈ path, e.Built := fun e he => h.built e (hsub.subset he)
  have hnew := SessionManager.built_branchedEntries w.manager d hbuilt
  have hpath := SessionManager.isPath_branchedEntries w.manager d hbuilt
  have hbranched := SessionManager.buildIndex_eq
    (m := { w.manager with
      fileEntries := FileEntry.header d.sessionId.text d.now w.manager.cwd
        (if w.manager.persist then w.manager.sessionFile else none)
          :: w.manager.branchedEntries d path
      sessionId := d.sessionId.text
      sessionFile := if w.manager.persist then
        some (sessionPath w.manager.sessionDir d.now d.sessionId.text) else w.manager.sessionFile })
    rfl (FileEntry.header_isHeader _ _ _ _) (fun e he => (hnew e he).isHeader)
  rw [← SessionManager.branched] at hbranched
  have hids : (w.manager.branchedEntries d path).map (·.id)
      = (path.filter (!·.isLabel)).map (·.id) ++ w.manager.branchedLabelIds d path := by
    rw [SessionManager.branchedEntries, List.map_append, SessionManager.map_id_rechain,
      SessionManager.branchedLabelIds, SessionManager.map_id_rechain]
  have hkept : ∀ id ∈ (path.filter (!·.isLabel)).map (·.id),
      id ∈ w.manager.fileEntries.map (·.id) := by
    obtain ⟨t, p, hfile⟩ := h.fileEntries
    rw [hfile]
    exact fun id hid => List.mem_cons_of_mem _
      (((List.filter_sublist.trans hsub).map _).subset hid)
  subst hw'
  rw [hbranched] at hdisk ⊢
  refine ⟨⟨_, _, rfl⟩, hnew, ?_, hpath.parentsEarlier, rfl, rfl, ?_, h.persist, rfl, ?_⟩
  · show (List.map _ (FileEntry.header _ _ _ _ :: _)).Nodup
    rw [List.map_cons, FileEntry.header_id, hids]
    obtain ⟨hsession, hlabels⟩ := List.nodup_cons.mp hnodup
    refine List.nodup_cons.mpr ⟨?_, List.nodup_append.mpr ⟨?_, hlabels, ?_⟩⟩
    · rw [List.mem_append, not_or]
      exact ⟨fun hmem => hfresh _ List.mem_cons_self (hkept _ hmem), hsession⟩
    · exact h.nodup_entries.sublist ((List.filter_sublist.trans hsub).map _)
    · rintro a ha b hb rfl
      exact hfresh a (List.mem_cons_of_mem _ hb) (hkept a ha)
  · rintro leafId hleaf
    obtain ⟨e, he, rfl⟩ := Option.map_eq_some_iff.mp hleaf
    exact List.mem_map_of_mem (List.mem_of_getLast? he)
  · refine ⟨sessionPath w.manager.sessionDir d.now d.sessionId.text, ?_, hdisk⟩
    show (if w.manager.persist then _ else _) = _
    rw [h.persist, if_pos rfl]

end World.Inv

end PiMono
