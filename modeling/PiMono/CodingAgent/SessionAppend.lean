import PiMono.CodingAgent.SessionReload

/-!
# Operations that stay in a session

Every operation but `newSession` and `createBranchedSession` moves the leaf or
appends one entry (`World.apply_stays`). So entries are only added
(`World.afterSteps_getEntries`), and behind a file that is there
(`World.Behind`) every entry added is a line written.
-/

namespace PiMono

namespace World

variable {w w' : World}

theorem persistEntry_manager {e : FileEntry} (h : w.persistEntry e = .ok w') :
    ∃ flushed, w'.manager = { w.manager with flushed := flushed } := by
  rw [persistEntry] at h
  split at h
  · split at h
    · split at h <;> cases h
      · exact ⟨_, rfl⟩
      · exact ⟨_, rfl⟩
    · split at h
      · split at h <;> cases h
        exact ⟨_, rfl⟩
      · cases h
        exact ⟨_, rfl⟩
  · cases h
    exact ⟨_, rfl⟩

theorem appendBody_fileEntries {d : Draws} {body : EntryBody} (h : w.appendBody d body = .ok w') :
    w'.manager.fileEntries
      = w.manager.fileEntries ++ [.create (w.nextId d) w.manager.leafId d.now body] := by
  obtain ⟨flushed, hmanager⟩ := persistEntry_manager h
  rw [hmanager]
  rfl

theorem appendBody_getEntries {d : Draws} {body : EntryBody} (h : w.appendBody d body = .ok w') :
    w'.manager.getEntries
      = w.manager.getEntries ++ [.create (w.nextId d) w.manager.leafId d.now body] := by
  rw [SessionManager.getEntries, appendBody_fileEntries h, List.filter_append]
  simp [SessionManager.getEntries]

/-- The world with another leaf. -/
def withLeaf (w : World) (leafId : Option JsString) : World :=
  { w with manager := { w.manager with leafId := leafId } }

/-- The world with other labels. -/
def withLabels (w : World) (labelsById labelTimestampsById : JsMap JsString JsString) : World :=
  { w with manager := { w.manager with
    labelsById := labelsById, labelTimestampsById := labelTimestampsById } }

theorem setLabel_eq (w : World) (targetId : JsString) (label : Option JsString)
    (timestamp : JsString) : ∃ labels times,
    ({ w with manager := w.manager.setLabel targetId label timestamp } : World)
      = w.withLabels labels times := by
  rw [SessionManager.setLabel]
  split <;> exact ⟨_, _, rfl⟩

/-- **What an operation on a session does**: it moves the leaf, or moves it and
appends an entry there; nothing else changes but the labels. -/
theorem apply_stays {d : Draws} {op : Op} (hop : op.staysInSession = true)
    (h : w.apply d op = .ok w') :
    (∃ leafId, w' = w.withLeaf leafId) ∨
      ∃ leafId body v labels times, (w.withLeaf leafId).appendBody d body = .ok v ∧
        w' = v.withLabels labels times := by
  cases hplain : op.plainBody? with
  | some body =>
    rw [apply_plain hplain] at h
    exact Or.inr ⟨w.manager.leafId, body, w', w'.manager.labelsById,
      w'.manager.labelTimestampsById, h, rfl⟩
  | none =>
  cases op with
  | newSession | createBranchedSession => cases hop
  | appendLabelChange targetId label =>
    have h : w.appendLabelChange d targetId label = .ok w' := h
    rw [appendLabelChange] at h
    split at h
    · cases hv : w.appendBody d (.label targetId label) with
      | error e =>
        rw [hv] at h
        cases h
      | ok v =>
        rw [hv] at h
        cases h
        obtain ⟨labels, times, hlabels⟩ := v.setLabel_eq targetId label d.now
        exact Or.inr ⟨w.manager.leafId, _, v, labels, times, hv, hlabels⟩
    · cases h
  | branch branchFromId =>
    have h : w.branch branchFromId = .ok w' := h
    rw [branch] at h
    split at h
    · cases h
      exact Or.inl ⟨_, rfl⟩
    · cases h
  | resetLeaf =>
    cases h
    exact Or.inl ⟨none, rfl⟩
  | branchWithSummary branchFromId summary details fromHook usage =>
    have h : w.branchWithSummary d branchFromId summary details fromHook usage = .ok w' := h
    rw [branchWithSummary] at h
    split at h
    · exact Or.inr ⟨branchFromId, _, w', w'.manager.labelsById, w'.manager.labelTimestampsById,
        h, rfl⟩
    · cases h
  | _ => cases hplain

theorem apply_getEntries {d : Draws} {op : Op} (hop : op.staysInSession = true)
    (h : w.apply d op = .ok w') :
    ∃ added, w'.manager.getEntries = w.manager.getEntries ++ added := by
  rcases apply_stays hop h with ⟨leafId, rfl⟩ | ⟨leafId, body, v, labels, times, hv, rfl⟩
  · exact ⟨[], (List.append_nil _).symm⟩
  · have hgrow := appendBody_getEntries hv
    exact ⟨_, hgrow⟩

theorem after_getEntries (w : World) {d : Draws} {op : Op} (hop : op.staysInSession = true) :
    ∃ added, (w.after d op).manager.getEntries = w.manager.getEntries ++ added := by
  rw [after]
  split
  · rename_i w' h
    exact apply_getEntries hop h
  · exact ⟨[], (List.append_nil _).symm⟩

theorem afterSteps_getEntries (w : World) (steps : List SessionStep) :
    ∃ added, (w.afterSteps steps).manager.getEntries = w.manager.getEntries ++ added := by
  induction steps generalizing w with
  | nil => exact ⟨[], (List.append_nil _).symm⟩
  | cons step steps ih =>
    obtain ⟨first, hfirst⟩ := w.after_getEntries step.staysInSession
    obtain ⟨rest, hrest⟩ := ih (w.after step.draws step.op)
    refine ⟨first ++ rest, ?_⟩
    rw [afterSteps, List.foldl_cons, ← afterSteps, hrest, hfirst, List.append_assoc]

/-! ## Behind a file -/

/-- The session has a file that was `bytes` and held `es`; `added` was appended
since, to the entries and to the file. -/
structure Behind (path : JsString) (bytes : List UInt8) (es added : List FileEntry) (w : World) :
    Prop where
  persist : w.manager.persist = true
  file : w.manager.sessionFile = some path
  flushed : w.manager.flushed = true
  entries : w.manager.fileEntries = es ++ added
  disk : w.disk.get? path = some (bytes ++ encodeLines added)
  created : ∀ e ∈ added, ∃ i p t b, e = .create i p t b
  byId : w.manager.byId = JsMap.index (·.id) w.manager.getEntries

variable {path : JsString} {bytes : List UInt8} {es added : List FileEntry}

theorem Behind.withLeaf (h : Behind path bytes es added w) (leafId : Option JsString) :
    Behind path bytes es added (w.withLeaf leafId) where
  persist := h.persist
  file := h.file
  flushed := h.flushed
  entries := h.entries
  disk := h.disk
  created := h.created
  byId := h.byId

theorem Behind.withLabels (h : Behind path bytes es added w)
    (labels times : JsMap JsString JsString) :
    Behind path bytes es added (w.withLabels labels times) where
  persist := h.persist
  file := h.file
  flushed := h.flushed
  entries := h.entries
  disk := h.disk
  created := h.created
  byId := h.byId

/-- An entry appended is a line written. -/
theorem Behind.appendBody (h : Behind path bytes es added w) {d : Draws} {body : EntryBody}
    (hw' : w.appendBody d body = .ok w') :
    Behind path bytes es
      (added ++ [.create (w.nextId d) w.manager.leafId d.now body]) w' := by
  have hgrow := appendBody_getEntries hw'
  have hpersist := persistEntry_flushed
    (w := ⟨w.manager.pushEntry (.create (w.nextId d) w.manager.leafId d.now body), w.disk⟩)
    h.persist h.file h.flushed (.create (w.nextId d) w.manager.leafId d.now body)
  have hw'' : World.persistEntry ⟨w.manager.pushEntry (.create (w.nextId d) w.manager.leafId d.now
      body), w.disk⟩ (.create (w.nextId d) w.manager.leafId d.now body) = .ok w' := hw'
  obtain rfl := Except.ok.inj (hpersist.symm.trans hw'')
  refine ⟨h.persist, h.file, h.flushed, ?_, ?_, ?_, ?_⟩
  · show w.manager.fileEntries ++ _ = _
    rw [h.entries, List.append_assoc]
  · show (w.disk.appendFile path _).get? path = _
    rw [Disk.appendFile, JsMap.get?_set, if_pos rfl, h.disk, encodeLines_append, Option.getD_some,
      List.append_assoc]
  · intro e he
    rcases List.mem_append.mp he with he | he
    · exact h.created e he
    · exact ⟨_, _, _, _, List.mem_singleton.mp he⟩
  · rw [hgrow, JsMap.index_append_singleton, ← h.byId]
    rfl

theorem Behind.after (h : Behind path bytes es added w) {d : Draws} {op : Op}
    (hop : op.staysInSession = true) : ∃ added', Behind path bytes es (added ++ added')
    (w.after d op) := by
  rw [World.after]
  split
  · rename_i w' hw'
    rcases apply_stays hop hw' with ⟨leafId, rfl⟩ | ⟨leafId, body, v, labels, times, hv, rfl⟩
    · exact ⟨[], by rw [List.append_nil]; exact h.withLeaf leafId⟩
    · exact ⟨_, ((h.withLeaf leafId).appendBody hv).withLabels labels times⟩
  · exact ⟨[], by rwa [List.append_nil]⟩

/-- The run lemma: whatever is done in the session, entries and lines are added
together. -/
theorem Behind.afterSteps (h : Behind path bytes es added w) (steps : List SessionStep) :
    ∃ added', Behind path bytes es (added ++ added') (w.afterSteps steps) := by
  induction steps generalizing w added with
  | nil => exact ⟨[], by rwa [List.append_nil]⟩
  | cons step steps ih =>
    obtain ⟨first, hfirst⟩ := h.after (d := step.draws) step.staysInSession
    obtain ⟨rest, hrest⟩ := ih hfirst
    rw [List.append_assoc] at hrest
    exact ⟨first ++ rest, hrest⟩

end World

end PiMono
