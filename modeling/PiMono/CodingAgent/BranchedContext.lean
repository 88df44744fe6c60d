import PiMono.CodingAgent.CompactionCoverage
import PiMono.CodingAgent.SessionReload

/-!
# The context of a branched session

`createBranchedSession` (`session-manager.ts:1529-1629`) leaves out the label
entries of a branch and chains the others again, while a compaction goes on
naming the first entry it keeps by its id. `rechain` changes no message
(`flatMap_rechain`), no setting and no memory; what a compaction keeps changes
only where it names a label, and is gone then (`keptFrom_rechain_of_label`).
`World.createBranchedSession_context` is the result: the context is the one of the
branch exactly when the latest compaction of the branch does not keep from a
label.
-/

namespace PiMono

/-! ## A path that is chained again -/

namespace FileEntry

theorem isLabel_body? {e : FileEntry} (h : e.isLabel = true) :
    e.body? = some (.label (e.strD "targetId") (e.raw.strField? (js "label"))) := by
  rw [isLabel, decide_eq_true_eq] at h
  simp [body?, h]

theorem isCompaction_isLabel {e : FileEntry} (h : e.isCompaction = true) : e.isLabel = false := by
  rw [isCompaction, decide_eq_true_eq] at h
  simp [isLabel, h]

@[simp] theorem withParent_isCompaction (e : FileEntry) (p : Option JsString) :
    (e.withParent p).isCompaction = e.isCompaction := by
  simp [isCompaction]

@[simp] theorem withParent_firstKeptEntryId (e : FileEntry) (p : Option JsString) :
    (e.withParent p).firstKeptEntryId = e.firstKeptEntryId := by
  simp [firstKeptEntryId, strD, JsValue.strField?, withParent_get?]

@[simp] theorem withParent_messages (e : FileEntry) (p : Option JsString) :
    sessionEntryToContextMessages (e.withParent p) = sessionEntryToContextMessages e := by
  simp [sessionEntryToContextMessages]

theorem isLabel_messages {e : FileEntry} (h : e.isLabel = true) :
    sessionEntryToContextMessages e = [] := by
  rw [sessionEntryToContextMessages, isLabel_body? h]

end FileEntry

namespace SessionManager

/-- A fold that neither reads parents nor sees labels. -/
theorem foldl_rechain {β : Type} {f : β → FileEntry → β}
    (hparent : ∀ b e p, f b (e.withParent p) = f b e)
    (hlabel : ∀ b e, e.isLabel = true → f b e = b) :
    ∀ (p : Option JsString) (path : List FileEntry) (b : β),
      (rechain p path).foldl f b = path.foldl f b
  | _, [], _ => rfl
  | p, e :: path, b => by
    rw [rechain, List.foldl_cons]
    split
    · rename_i hl
      rw [hlabel b e hl, foldl_rechain hparent hlabel]
    · rw [List.foldl_cons, hparent, foldl_rechain hparent hlabel]

theorem flatMap_rechain {β : Type} {f : FileEntry → List β}
    (hparent : ∀ e p, f (e.withParent p) = f e) (hlabel : ∀ e, e.isLabel = true → f e = [])
    (p : Option JsString) (path : List FileEntry) :
    (rechain p path).flatMap f = path.flatMap f := by
  rw [List.flatMap_eq_foldl, List.flatMap_eq_foldl]
  exact foldl_rechain (fun b e p => by rw [hparent]) (fun b e he => by rw [hlabel e he]; simp)
    p path []

theorem messages_rechain (p : Option JsString) (path : List FileEntry) :
    (rechain p path).flatMap sessionEntryToContextMessages
      = path.flatMap sessionEntryToContextMessages :=
  flatMap_rechain FileEntry.withParent_messages (fun _ => FileEntry.isLabel_messages) p path

theorem rechain_append : ∀ (p : Option JsString) (xs ys : List FileEntry),
    ∃ q, rechain p (xs ++ ys) = rechain p xs ++ rechain q ys
  | p, [], ys => ⟨p, rfl⟩
  | p, e :: xs, ys => by
    rw [List.cons_append, rechain, rechain]
    split
    · exact rechain_append p xs ys
    · obtain ⟨q, hq⟩ := rechain_append (some e.id) xs ys
      exact ⟨q, by rw [hq, List.cons_append]⟩

/-- An entry of the chain, and what comes before it. -/
theorem rechain_split : ∀ {p : Option JsString} {path as bs : List FileEntry} {a : FileEntry},
    rechain p path = as ++ a :: bs → ∃ pre e post q, path = pre ++ e :: post ∧
      as = rechain p pre ∧ a = e.withParent q
  | p, [], as, bs, a, h => by
    rw [rechain] at h
    simp at h
  | p, e :: path, as, bs, a, h => by
    rw [rechain] at h
    split at h
    · rename_i hl
      obtain ⟨pre, e', post, q, rfl, rfl, rfl⟩ := rechain_split h
      exact ⟨e :: pre, e', post, q, rfl, by rw [rechain, if_pos hl], rfl⟩
    · rename_i hl
      cases as with
      | nil => exact ⟨[], e, path, p, rfl, rfl, (List.cons.inj h).1.symm⟩
      | cons a' as =>
        obtain ⟨rfl, hrest⟩ := List.cons.inj h
        obtain ⟨pre, e', post, q, rfl, rfl, rfl⟩ := rechain_split hrest
        exact ⟨e :: pre, e', post, q, rfl, by rw [rechain, if_neg hl], rfl⟩

/-- What is kept from an entry that is no label. -/
theorem keptFrom_rechain {id : JsString} : ∀ {p : Option JsString} {path : List FileEntry},
    (∀ e ∈ path, e.id = id → e.isLabel = false) →
    (keptFrom id (rechain p path)).flatMap sessionEntryToContextMessages
      = (keptFrom id path).flatMap sessionEntryToContextMessages
  | _, [], _ => rfl
  | p, e :: path, h => by
    obtain ⟨he, hpath⟩ := List.forall_mem_cons.mp h
    by_cases hid : e.id = id
    · have hkept : keptFrom id (e :: path) = e :: path :=
        List.dropWhile_cons_of_neg (by simp [hid])
      have hkept' : keptFrom id (e.withParent p :: rechain (some e.id) path)
          = e.withParent p :: rechain (some e.id) path :=
        List.dropWhile_cons_of_neg (by simp [hid])
      rw [hkept, rechain, he hid, if_neg (by simp), hkept', List.flatMap_cons, List.flatMap_cons,
        FileEntry.withParent_messages, messages_rechain]
    · have hkept : keptFrom id (e :: path) = keptFrom id path :=
        List.dropWhile_cons_of_pos (by simp [hid])
      rw [hkept, rechain]
      split
      · exact keptFrom_rechain hpath
      · have hkept' : keptFrom id (e.withParent p :: rechain (some e.id) path)
            = keptFrom id (rechain (some e.id) path) :=
          List.dropWhile_cons_of_pos (by simp [hid])
        rw [hkept']
        exact keptFrom_rechain hpath

/-- Nothing is kept from a label: it is no longer there. -/
theorem keptFrom_rechain_of_label {path : List FileEntry} (hnd : (path.map (·.id)).Nodup)
    {e : FileEntry} (he : e ∈ path) (hl : e.isLabel = true) (p : Option JsString) :
    keptFrom e.id (rechain p path) = [] := by
  refine keptFrom_of_notMem fun hmem => ?_
  rw [map_id_rechain] at hmem
  obtain ⟨x, hx, hid⟩ := List.mem_map.mp hmem
  obtain ⟨hxpath, hxl⟩ := List.mem_filter.mp hx
  obtain rfl : x = e := List.inj_on_of_nodup_map hnd hxpath he hid
  rw [hl] at hxl
  cases hxl

/-- The label entries behind the branch. -/
theorem isLabel_labelEntries (uuids : Nat → Nat → Uuid) :
    ∀ (k : Nat) (taken : List JsString) (p : Option JsString)
      (labels : List (JsString × JsString × JsString)),
      ∀ e ∈ labelEntries uuids k taken p labels, e.isLabel = true
  | _, _, _, [] => by simp [labelEntries]
  | k, taken, p, (t, l, s) :: rest => by
    rw [labelEntries]
    exact List.forall_mem_cons.mpr ⟨by simp [FileEntry.isLabel, EntryBody.type],
      isLabel_labelEntries uuids _ _ _ rest⟩

theorem branchedEntries_eq (m : SessionManager) (d : Draws) (path : List FileEntry) :
    ∃ labels, m.branchedEntries d path = rechain none path ++ labels ∧
      ∀ e ∈ labels, e.isLabel = true :=
  ⟨_, rfl, isLabel_labelEntries _ _ _ _ _⟩

theorem foldl_labels {β : Type} {f : β → FileEntry → β}
    (hlabel : ∀ b e, e.isLabel = true → f b e = b) {labels : List FileEntry}
    (h : ∀ e ∈ labels, e.isLabel = true) (b : β) : labels.foldl f b = b := by
  induction labels with
  | nil => rfl
  | cons e labels ih =>
    obtain ⟨he, hrest⟩ := List.forall_mem_cons.mp h
    rw [List.foldl_cons, hlabel b e he, ih hrest]

/-- Neither the chain nor the labels add a compaction. -/
theorem no_compaction_rechain (p : Option JsString) {path labels : List FileEntry}
    (hpath : ∀ e ∈ path, e.isCompaction = false) (hlabels : ∀ e ∈ labels, e.isLabel = true) :
    ∀ e ∈ rechain p path ++ labels, e.isCompaction = false := by
  intro e he
  rcases List.mem_append.mp he with he | he
  · obtain ⟨as, bs, hsplit⟩ := List.append_of_mem he
    obtain ⟨pre, e', post, q, rfl, -, rfl⟩ := rechain_split hsplit
    rw [FileEntry.withParent_isCompaction]
    exact hpath e' (by simp)
  · by_contra hcompaction
    have := FileEntry.isCompaction_isLabel (Bool.eq_true_of_not_eq_false hcompaction)
    rw [hlabels e he] at this
    cases this

/-- A branched session sets what the branch sets. -/
theorem settings_branchedEntries (m : SessionManager) (d : Draws) (path : List FileEntry) :
    getSessionContextSettings (m.branchedEntries d path) = getSessionContextSettings path := by
  have hlabel : ∀ s e, FileEntry.isLabel e = true → ContextSettings.step s e = s := by
    intro s e he
    rw [ContextSettings.step, FileEntry.isLabel_body? he]
  obtain ⟨labels, heq, hlabels⟩ := m.branchedEntries_eq d path
  rw [heq, getSessionContextSettings, List.foldl_append, foldl_labels hlabel hlabels,
    foldl_rechain (fun s e p => by simp [ContextSettings.step]) hlabel]
  rfl

/-- A branched session remembers what the branch remembers. -/
theorem memories_branchedEntries (m : SessionManager) (d : Draws) (path : List FileEntry) :
    (m.branchedEntries d path).filterMap FileEntry.memory? = path.filterMap FileEntry.memory? := by
  have hlabel : ∀ e : FileEntry, e.isLabel = true → e.memory? = none := by
    intro e he
    rw [FileEntry.memory?, FileEntry.isLabel_body? he]
  obtain ⟨labels, heq, hlabels⟩ := m.branchedEntries_eq d path
  have hnone : labels.filterMap FileEntry.memory? = [] :=
    List.filterMap_eq_nil_iff.mpr fun e he => hlabel e (hlabels e he)
  rw [heq, List.filterMap_append, hnone, List.append_nil, List.filterMap_eq_flatMap_toList,
    List.filterMap_eq_flatMap_toList]
  exact flatMap_rechain (fun e p => by simp [FileEntry.memory?])
    (fun e he => by rw [hlabel e he]; rfl) none path

end SessionManager

/-! ## The messages -/

/-- The latest compaction of a path names, as the first entry it keeps, a label
that stands before it. -/
def KeepsFromLabel (path : List FileEntry) : Prop :=
  ∃ pre c post, path = pre ++ c :: post ∧ c.isCompaction = true ∧
    (∀ e ∈ post, e.isCompaction = false) ∧
    ∃ e ∈ pre, e.isLabel = true ∧ e.id = c.firstKeptEntryId

/-- Project memory and session memory add at most a message each. -/
theorem length_withMemory (messages : List AgentMessage) (memoryMessage : Option AgentMessage)
    (projectMemoryContext : Option ProjectMemoryContext) :
    (withMemory messages memoryMessage projectMemoryContext).length
      = messages.length + memoryMessage.toList.length + projectMemoryContext.toList.length := by
  have hinsert : ∀ (ms : List AgentMessage) (i : Nat) (m : AgentMessage),
      (insertAt ms i m).length = ms.length + 1 := by
    intro ms i m
    simp only [insertAt, List.length_append, List.length_cons, List.length_take, List.length_drop]
    omega
  cases memoryMessage <;> cases projectMemoryContext <;> simp [withMemory, hinsert]

section Branched

variable {m : SessionManager} {d : Draws} {path : List FileEntry}

/-- Behind a label nothing is added to the context. -/
theorem messages_labels {labels : List FileEntry} (h : ∀ e ∈ labels, e.isLabel = true) :
    labels.flatMap sessionEntryToContextMessages = [] :=
  List.flatMap_eq_nil_iff.mpr fun e he => FileEntry.isLabel_messages (h e he)

/-- The messages of a branched session whose branch has a latest compaction. -/
theorem messages_branched_split {pre post : List FileEntry} {c : FileEntry}
    (hnd : ((m.branchedEntries d (pre ++ c :: post)).map (·.id)).Nodup)
    (hc : c.isCompaction = true) (hpost : ∀ e ∈ post, e.isCompaction = false) :
    (compactPath (m.branchedEntries d (pre ++ c :: post))).flatMap sessionEntryToContextMessages
      = sessionEntryToContextMessages c
        ++ ((keptFrom c.firstKeptEntryId (SessionManager.rechain none pre)).flatMap
            sessionEntryToContextMessages
          ++ post.flatMap sessionEntryToContextMessages) := by
  obtain ⟨labels, heq, hlabels⟩ := m.branchedEntries_eq d (pre ++ c :: post)
  obtain ⟨q, hq⟩ := SessionManager.rechain_append none pre (c :: post)
  rw [hq, SessionManager.rechain, FileEntry.isCompaction_isLabel hc, if_neg (by simp),
    List.append_assoc, List.cons_append] at heq
  rw [heq] at hnd ⊢
  rw [compactPath_split hnd (by rw [FileEntry.withParent_isCompaction, hc])
      (SessionManager.no_compaction_rechain _ hpost hlabels),
    List.flatMap_cons, List.flatMap_append, List.flatMap_append, messages_labels hlabels,
    List.append_nil, SessionManager.messages_rechain, FileEntry.withParent_messages,
    FileEntry.withParent_firstKeptEntryId]

/-- Unless something is kept from a label, the messages are those of the branch. -/
theorem messages_branchedEntries (hnd : (path.map (·.id)).Nodup)
    (hnd' : ((m.branchedEntries d path).map (·.id)).Nodup) (hkeeps : ¬KeepsFromLabel path) :
    (compactPath (m.branchedEntries d path)).flatMap sessionEntryToContextMessages
      = (compactPath path).flatMap sessionEntryToContextMessages := by
  rcases latest_cases path with hnone | ⟨pre, c, post, rfl, hc, hpost⟩
  · obtain ⟨labels, heq, hlabels⟩ := m.branchedEntries_eq d path
    rw [heq, compactPath_of_none (SessionManager.no_compaction_rechain none hnone hlabels),
      compactPath_of_none hnone, List.flatMap_append, messages_labels hlabels, List.append_nil,
      SessionManager.messages_rechain]
  · rw [messages_branched_split hnd' hc hpost, compactPath_split hnd hc hpost,
      SessionManager.keptFrom_rechain fun e he hid => ?_]
    · simp
    · cases hl : e.isLabel with
      | false => rfl
      | true => exact absurd ⟨pre, c, post, rfl, hc, hpost, e, he, hl, hid⟩ hkeeps

/-- If something is kept from a label, fewer messages are left. -/
theorem length_branchedEntries {pre post : List FileEntry} {c e : FileEntry}
    (hnd : ((pre ++ c :: post).map (·.id)).Nodup)
    (hnd' : ((m.branchedEntries d (pre ++ c :: post)).map (·.id)).Nodup)
    (hc : c.isCompaction = true) (hpost : ∀ e ∈ post, e.isCompaction = false) (he : e ∈ pre)
    (hl : e.isLabel = true) (hid : e.id = c.firstKeptEntryId)
    (hvisible : (keptFrom c.firstKeptEntryId pre).flatMap sessionEntryToContextMessages ≠ []) :
    ((compactPath (m.branchedEntries d (pre ++ c :: post))).flatMap
        sessionEntryToContextMessages).length
      < ((compactPath (pre ++ c :: post)).flatMap sessionEntryToContextMessages).length := by
  have hpre : (pre.map (·.id)).Nodup := by
    rw [List.map_append] at hnd
    exact (List.nodup_append.mp hnd).1
  have hpos := List.length_pos_iff.mpr hvisible
  rw [messages_branched_split hnd' hc hpost, compactPath_split hnd hc hpost, ← hid,
    SessionManager.keptFrom_rechain_of_label hpre he hl, hid, List.flatMap_cons,
    List.flatMap_append]
  simp only [List.flatMap_nil, List.nil_append, List.length_append]
  omega

end Branched

/-! ## Compactions as they are prepared -/

/-- The compactions that are appended keep from the entry that
`prepareCompaction` found on the current branch. -/
def Op.Prepared (w : World) : Op → Prop
  | .appendCompaction _ firstKeptEntryId .. => ∃ branch settings p,
    w.manager.getBranch none = some branch ∧ prepareCompaction branch settings = some (some p) ∧
      firstKeptEntryId = p.firstKeptEntryId
  | _ => True

/-- The worlds that runs reach whose compactions are prepared. -/
inductive World.PreparedReachable : World → Prop
  | create {disk : Disk} {d : Draws} {cwd sessionDir : JsString}
      {id parentSession : Option JsString}
    {w : World} : World.create disk d cwd sessionDir id parentSession = .ok w →
    disk.has (sessionPath sessionDir d.now (id.getD d.sessionId.text)) = false →
    PreparedReachable w
  | step {w w' : World} {d : Draws} {op : Op} : PreparedReachable w → op.Fresh w d →
    op.Prepared w → w.apply d op = .ok w' → PreparedReachable w'

/-- Where a compaction names an entry before it, something visible is kept. -/
def KeptVisible (es : List FileEntry) : Prop :=
  ∀ pre c, IsPath (·.id) FileEntry.parentLink none (pre ++ [c]) → (∀ e ∈ pre ++ [c], e ∈ es) →
    c.isCompaction = true → c.firstKeptEntryId ∈ pre.map (·.id) →
    (keptFrom c.firstKeptEntryId pre).flatMap sessionEntryToContextMessages ≠ []

section KeptVisible

variable {es : List FileEntry}

theorem keptVisible_nil : KeptVisible [] := by
  intro pre c _ hmem
  exact absurd (hmem c (by simp)) (by simp)

/-- One more entry makes one more path, the path of that entry. -/
theorem KeptVisible.snoc {e : FileEntry} (h : KeptVisible es)
    (hnd : ((es ++ [e]).map (·.id)).Nodup) (hpe : ParentsEarlier (·.id) FileEntry.parentLink es)
    (he : e.isCompaction = true → ∀ pre,
      IsPath (·.id) FileEntry.parentLink none (pre ++ [e]) → (∀ x ∈ pre, x ∈ es ++ [e]) →
      (keptFrom e.firstKeptEntryId pre).flatMap sessionEntryToContextMessages ≠ []) :
    KeptVisible (es ++ [e]) := by
  intro pre c hpath hmem hc hkept
  have hpre : ∀ x ∈ pre, x ∈ es ++ [e] := fun x hx => hmem x (by simp [hx])
  rcases List.mem_append.mp (hmem c (by simp)) with hces | hce
  · have hnd' : (es.map (·.id)).Nodup := by
      rw [List.map_append] at hnd
      exact (List.nodup_append.mp hnd).1
    obtain ⟨path, hsub, hpath', -⟩ := walkUp_of_mem hnd' hpe hces
    obtain rfl : pre = path := isPath_unique hnd hpath hpath' hpre fun x hx =>
      List.mem_append_left _ (hsub.subset (List.mem_append_left _ hx))
    exact h pre c hpath (fun x hx => hsub.subset hx) hc hkept
  · obtain rfl := List.mem_singleton.mp hce
    exact he hc pre hpath hpre

/-- A prepared compaction keeps something visible. -/
theorem prepared_visible {w : World} (h : w.Inv es) {branch : List FileEntry}
    (hbranch : w.manager.getBranch none = some branch) {settings : CompactionSettings}
    {p : CompactionPreparation} (hp : prepareCompaction branch settings = some (some p))
    {e : FileEntry} (hparent : e.parentLink = w.manager.leafId)
    (hnd : ((es ++ [e]).map (·.id)).Nodup) {pre : List FileEntry}
    (hpre : IsPath (·.id) FileEntry.parentLink none (pre ++ [e]))
    (hmem : ∀ x ∈ pre, x ∈ es ++ [e]) :
    (keptFrom p.firstKeptEntryId pre).flatMap sessionEntryToContextMessages ≠ [] := by
  obtain ⟨firstKept, hlt, -, hid, -, hvisible⟩ := prepareCompaction_spec hp
  obtain ⟨branch', hbranch', hsub, hpath, hlast⟩ := h.getBranch_leaf
  obtain rfl := Option.some.inj (hbranch'.symm.trans hbranch)
  have hext : IsPath (·.id) FileEntry.parentLink none (branch' ++ [e]) :=
    isPath_snoc.mpr ⟨hpath, by rw [hparent, ← hlast, Option.or_none]⟩
  obtain rfl : pre = branch' := isPath_unique hnd hpre hext hmem fun x hx =>
    List.mem_append_left _ (hsub.subset hx)
  rw [hid, keptFrom_getElem (h.nodup_entries.sublist (hsub.map _)) hlt]
  exact hvisible

/-- A branched session keeps what its compactions keep, but for what they keep from
a label: that is not on the path any more. -/
theorem KeptVisible.branched {w w' : World} (h : w.Inv es) (hes : KeptVisible es) {d : Draws}
    {leafId : JsString} {path : List FileEntry}
    (hbranch : w.manager.getBranch (some leafId) = some path)
    (h' : w'.Inv (w.manager.branchedEntries d path)) :
    KeptVisible (w.manager.branchedEntries d path) := by
  intro pre c hpre hmem hc hkept
  obtain ⟨labels, heq, hlabels⟩ := w.manager.branchedEntries_eq d path
  -- the compaction is one of the branch, and the session is one path
  have hchain : c ∈ SessionManager.rechain none path := by
    have hces := hmem c (by simp)
    rw [heq] at hces
    rcases List.mem_append.mp hces with hces | hces
    · exact hces
    · have := FileEntry.isCompaction_isLabel hc
      rw [hlabels c hces] at this
      cases this
  rcases h.getBranch_cases leafId with ⟨-, hnil⟩ | ⟨e, -, -, path', hsub, hpath, hpath'⟩
  · obtain rfl := Option.some.inj (hnil.symm.trans hbranch)
    cases hchain
  obtain rfl := Option.some.inj (hpath'.symm.trans hbranch)
  obtain ⟨as, bs, hsplit⟩ := List.append_of_mem hchain
  have hall : IsPath (·.id) FileEntry.parentLink none
      (w.manager.branchedEntries d (path' ++ [e])) :=
    isPath_congr (fun x hx => (h'.parentLink hx).symm)
      (SessionManager.isPath_branchedEntries w.manager d fun x hx => h.built x (hsub.subset hx))
  have heq' : w.manager.branchedEntries d (path' ++ [e]) = (as ++ [c]) ++ (bs ++ labels) := by
    rw [heq, hsplit]
    simp
  obtain rfl : pre = as := isPath_unique h'.nodup_entries hpre
    (isPath_append.mp (heq' ▸ hall)).1 (fun x hx => hmem x (by simp [hx]))
    (fun x hx => by rw [heq']; simp [hx])
  -- so it has a path in the old session, where something visible is kept
  obtain ⟨before, old, after, q, hold, rfl, rfl⟩ := SessionManager.rechain_split hsplit
  rw [FileEntry.withParent_isCompaction] at hc
  rw [FileEntry.withParent_firstKeptEntryId] at hkept ⊢
  have hcut : path' ++ [e] = (before ++ [old]) ++ after := by
    rw [hold]
    simp
  have hbefore : (before ++ [old]).Sublist es := by
    rw [hcut] at hsub
    exact (List.sublist_append_left _ _).trans hsub
  rw [SessionManager.map_id_rechain] at hkept
  obtain ⟨first, hfirst, hid⟩ := List.mem_map.mp hkept
  obtain ⟨hfirst, hlabel⟩ := List.mem_filter.mp hfirst
  rw [SessionManager.keptFrom_rechain fun x hx hxid => ?_]
  · exact hes before old (isPath_append.mp (hcut ▸ hpath)).1 (fun x hx => hbefore.subset hx) hc
      (hid ▸ List.mem_map_of_mem hfirst)
  · have hnd : (before.map (·.id)).Nodup :=
      h.nodup_entries.sublist (((List.sublist_append_left _ _).trans hbefore).map _)
    obtain rfl : x = first := List.inj_on_of_nodup_map hnd hx hfirst (hxid.trans hid.symm)
    simpa using hlabel

end KeptVisible

namespace World

/-- Every operation whose compaction is prepared keeps `KeptVisible`. -/
theorem Inv.keptVisible {w w' : World} {es : List FileEntry} (h : w.Inv es)
    (hes : KeptVisible es) {d : Draws} {op : Op} (hfresh : op.Fresh w d) (hprep : op.Prepared w)
    (hw' : w.apply d op = .ok w') : ∃ es', w'.Inv es' ∧ KeptVisible es' := by
  obtain ⟨es', h', heffect⟩ := h.apply hfresh hw'
  refine ⟨es', h', ?_⟩
  cases heffect with
  | restart => exact keptVisible_nil
  | keep => exact hes
  | branched leafId path _ hbranch => exact hes.branched h hbranch h'
  | append parentId body hbody =>
    refine hes.snoc h'.nodup_entries h.parentLinks fun hc pre hpre hmem => ?_
    have hlink := h'.parentLink (List.mem_append_right es (List.mem_singleton_self _))
    rw [FileEntry.create_parentId] at hlink
    rcases hbody with ⟨hplain, rfl⟩ | hother
    · cases op with
      | appendCompaction summary firstKeptEntryId =>
        obtain ⟨branch, settings, p, hbranch, hp, rfl⟩ := hprep
        obtain rfl := Option.some.inj hplain
        rw [FileEntry.create_firstKeptEntryId]
        exact prepared_visible h hbranch hp hlink h'.nodup_entries hpre hmem
      | _ =>
        cases hplain
        all_goals simp [EntryBody.type] at hc
    · rw [FileEntry.create_isCompaction, decide_eq_true_eq] at hc
      simp [hc] at hother

theorem PreparedReachable.keptVisible {w : World} (h : w.PreparedReachable) :
    ∃ es, w.Inv es ∧ KeptVisible es := by
  induction h with
  | @create disk d cwd sessionDir id parentSession w hcreate hfile =>
    exact ⟨[], inv_newSession (m := .blank cwd sessionDir) rfl hfile hcreate, keptVisible_nil⟩
  | step _ hfresh hprep happly ih =>
    obtain ⟨es, hes, hkept⟩ := ih
    exact hes.keptVisible hkept hfresh hprep happly

/-! ## The two contexts -/

/-- The path to a leaf that the index knows is a walk from it. -/
theorem buildSessionPath_of_get? {es : List FileEntry} {byId : Option (JsMap JsString FileEntry)}
    {index : JsMap JsString FileEntry} (hindex : byId.getD (JsMap.index (·.id) es) = index)
    {e : FileEntry} (hid : e.id ≠ []) (hget : index.get? e.id = some e) :
    buildSessionPath es (some (some e.id)) byId
      = (walkUp index.get? FileEntry.parentLink (index.entries.length + 1) (some e)).map
          List.reverse := by
  have hfilter : (some e.id).filter (· ≠ ([] : JsString)) = some e.id := by simp [hid]
  simp only [buildSessionPath]
  rw [if_neg (by simp), Option.join_some, hfilter, Option.bind_some, hindex, hget, Option.some_or]

/-- The context of an entry is the context of its branch. -/
theorem Inv.buildSessionContext_of_mem {w : World} {es : List FileEntry} (h : w.Inv es)
    {e : FileEntry} (he : e ∈ es) {path : List FileEntry}
    (hbranch : w.manager.getBranch (some e.id) = some path) (memoryTokenBudget : Nat)
    (projectMemoryContext : Option ProjectMemoryContext) :
    buildSessionContext w.manager.getEntries (some (some e.id)) none memoryTokenBudget
      projectMemoryContext = some (pathContext path memoryTokenBudget projectMemoryContext) := by
  obtain ⟨path', hsub, hpath, hwalk⟩ := walkUp_of_mem h.nodup_entries h.parentLinks he
  obtain ⟨path'', hsub', hpath', hbranch'⟩ := h.getBranch_of_mem he
  obtain rfl : path' = path'' := isPath_unique h.nodup_entries hpath hpath'
    (fun x hx => hsub.subset (List.mem_append_left _ hx))
    (fun x hx => hsub'.subset (List.mem_append_left _ hx))
  obtain rfl := Option.some.inj (hbranch'.symm.trans hbranch)
  have hlen : (JsMap.index (·.id) es).entries.length = es.length := by
    rw [JsMap.entries_index h.nodup_entries, List.length_map]
  rw [buildSessionContext, h.getEntries, buildSessionPath_of_get? (Option.getD_none ..)
      (h.built e he).id_ne_nil (JsMap.get?_index_of_mem h.nodup_entries he),
    hwalk _ (by rw [hlen]; omega), Option.map_some, List.reverse_reverse, Option.map_some]

/-- The context of a session that is one path, with its end as the leaf. -/
theorem Inv.buildSessionContext_path {w : World} {es : List FileEntry} (h : w.Inv es)
    (hpath : IsPath (·.id) (·.parentId) none es)
    (hleaf : w.manager.leafId = es.getLast?.map (·.id)) (memoryTokenBudget : Nat)
    (projectMemoryContext : Option ProjectMemoryContext) :
    w.manager.buildSessionContext memoryTokenBudget projectMemoryContext
      = some (pathContext es memoryTokenBudget projectMemoryContext) := by
  have hlinks : IsPath (·.id) FileEntry.parentLink none es :=
    isPath_congr (fun x hx => (h.parentLink hx).symm) hpath
  have hself := buildSessionPath_self ⟨hlinks, h.nodup_entries⟩
  rcases List.eq_nil_or_concat es with rfl | ⟨init, e, rfl⟩
  · rw [SessionManager.buildSessionContext, hleaf]
    rfl
  · rw [List.concat_eq_append] at *
    have he : e ∈ init ++ [e] := by simp
    rw [List.getLast?_concat] at hleaf
    simp only [buildSessionPath, Option.getD_none, Option.join_none, Option.filter_none,
      Option.bind_none, Option.none_or, List.getLast?_concat] at hself
    rw [if_neg (by simp)] at hself
    rw [SessionManager.buildSessionContext, buildSessionContext, h.getEntries, h.byId, hleaf,
      Option.map_some, buildSessionPath_of_get? (Option.getD_some ..) (h.built e he).id_ne_nil
        (JsMap.get?_index_of_mem h.nodup_entries he), hself, Option.map_some]

/-- **The context of a branched session**: `createBranchedSession` of an entry
gives a session whose context is the context of the entry, exactly when the latest
compaction on the branch does not keep from a label. -/
theorem createBranchedSession_context {w : World} (h : w.PreparedReachable) (d : Draws)
    (leafId : JsString) (hleaf : leafId ∈ w.manager.getEntries.map (·.id))
    (hfresh : (Op.createBranchedSession leafId).Fresh w d) (memoryTokenBudget : Nat)
    (projectMemoryContext : Option ProjectMemoryContext) :
    ∃ w' path, w.createBranchedSession d leafId = .ok w' ∧
      w.manager.getBranch (some leafId) = some path ∧
      (w'.manager.buildSessionContext memoryTokenBudget projectMemoryContext
          = buildSessionContext w.manager.getEntries (some (some leafId)) none memoryTokenBudget
              projectMemoryContext ↔ ¬KeepsFromLabel path) := by
  obtain ⟨es, hes, hkept⟩ := h.keptVisible
  rw [hes.getEntries] at hleaf
  obtain ⟨e, he, rfl⟩ := List.mem_map.mp hleaf
  obtain ⟨w', path, hw', hbranch, hsub, hinv, hlast⟩ := hes.createBranchedSession_ok he hfresh
  refine ⟨w', path, hw', hbranch, ?_⟩
  have hbuilt : ∀ x ∈ path, x.Built := fun x hx => hes.built x (hsub.subset hx)
  have hnd : (path.map (·.id)).Nodup := hes.nodup_entries.sublist (hsub.map _)
  rw [hes.buildSessionContext_of_mem he hbranch, hinv.buildSessionContext_path
    (SessionManager.isPath_branchedEntries _ d hbuilt) hlast]
  constructor
  · rintro hsame ⟨pre, c, post, rfl, hc, hpost, l, hl, hlabel, hid⟩
    have hcut : pre ++ c :: post = (pre ++ [c]) ++ post := by simp
    have hprefix : (pre ++ [c]).Sublist es := by
      rw [hcut] at hsub
      exact (List.sublist_append_left _ _).trans hsub
    have hpath : IsPath (·.id) FileEntry.parentLink none (pre ++ [c]) := by
      obtain ⟨path', -, hpath', hbranch'⟩ := hes.getBranch_of_mem he
      obtain heq := Option.some.inj (hbranch'.symm.trans hbranch)
      rw [heq, hcut] at hpath'
      exact (isPath_append.mp hpath').1
    have hfewer := length_branchedEntries hnd hinv.nodup_entries hc hpost hl hlabel hid
      (hkept pre c hpath (fun x hx => hprefix.subset hx) hc (hid ▸ List.mem_map_of_mem hl))
    have hmessages := congrArg (fun c => c.messages.length) (Option.some.inj hsame)
    simp only [pathContext, length_withMemory, buildMemoryContextMessage,
      SessionManager.memories_branchedEntries] at hmessages
    omega
  · intro hkeeps
    rw [pathContext, pathContext, messages_branchedEntries hnd hinv.nodup_entries hkeeps,
      SessionManager.settings_branchedEntries, buildMemoryContextMessage,
      SessionManager.memories_branchedEntries, buildMemoryContextMessage]

/-- A run: a user message, a label on it, another user message, and a compaction
that keeps the last message only. -/
def labelRun : List Op :=
  let user (text : String) : JsValue :=
    .object [(js "role", .str (js "user")), (js "content", .str (js text))]
  [.appendMessage (user "first"), .appendLabelChange (js "11111111") (some (js "here")),
    .appendMessage (user "second"), .appendCompaction (js "summary") (js "22222222") (.ofNat 4)
      none none none]

theorem PreparedReachable.snoc {ops : List Op} (h : (sampleWorld ops).PreparedReachable) (op : Op)
    (hfresh : op.Fresh (sampleWorld ops) (sampleDraws (ops.length + 1)))
    (hprep : op.Prepared (sampleWorld ops))
    (hok : ((sampleWorld ops).apply (sampleDraws (ops.length + 1)) op).isOk = true) :
    (sampleWorld (ops ++ [op])).PreparedReachable := by
  rw [sampleWorld_snoc]
  exact .step h hfresh hprep (apply_after hok)

theorem preparedReachable_labelRun : (sampleWorld labelRun).PreparedReachable := by
  have hcreate : World.create .empty (sampleDraws 0) (js "/work") (js "/sessions") none none
      = .ok (sampleWorld []) := rfl
  have hnew : (sampleWorld []).PreparedReachable := .create hcreate (by decide)
  have hfirst := hnew.snoc labelRun[0] (by decide) trivial (by decide)
  have hlabel := hfirst.snoc labelRun[1] (by decide) trivial (by decide)
  have hsecond := hlabel.snoc labelRun[2] (by decide) trivial (by decide)
  refine hsecond.snoc labelRun[3] (by decide) ?_ (by decide)
  have hprepared : (((sampleWorld (labelRun.take 3)).manager.getBranch none).bind fun branch =>
      (prepareCompaction branch ⟨true, 0, 1⟩).join.map (·.firstKeptEntryId))
        = some (js "22222222") := by decide
  obtain ⟨branch, hbranch, hprepared⟩ := Option.bind_eq_some_iff.mp hprepared
  obtain ⟨p, hp, hid⟩ := Option.map_eq_some_iff.mp hprepared
  exact ⟨branch, ⟨true, 0, 1⟩, p, hbranch, Option.join_eq_some_iff.mp hp, hid.symm⟩

/-- The message before the label is lost: after the branching the context is the
summary alone. -/
theorem createBranchedSession_loses : (sampleWorld labelRun).PreparedReachable ∧
    js "44444444" ∈ (sampleWorld labelRun).manager.getEntries.map (·.id) ∧
    (Op.createBranchedSession (js "44444444")).Fresh (sampleWorld labelRun) (sampleDraws 5) ∧
    ¬∃ w', (sampleWorld labelRun).createBranchedSession (sampleDraws 5) (js "44444444") = .ok w' ∧
      w'.manager.buildSessionContext memoryContextMaxTokens none
        = buildSessionContext (sampleWorld labelRun).manager.getEntries
            (some (some (js "44444444"))) none memoryContextMaxTokens none := by
  refine ⟨preparedReachable_labelRun, by decide, by decide, ?_⟩
  rintro ⟨w', hw', hsame⟩
  have hafter : w' = (sampleWorld labelRun).after (sampleDraws 5)
      (.createBranchedSession (js "44444444")) := by
    rw [after, apply, hw']
  have hlengths := congrArg (Option.map (·.messages.length)) hsame
  rw [hafter] at hlengths
  exact absurd hlengths (by decide)

/-- Without the compaction on the branch the contexts are the same. -/
theorem createBranchedSession_context_second : ∃ w',
    (sampleWorld labelRun).createBranchedSession (sampleDraws 5) (js "33333333") = .ok w' ∧
      w'.manager.buildSessionContext memoryContextMaxTokens none
        = buildSessionContext (sampleWorld labelRun).manager.getEntries
            (some (some (js "33333333"))) none memoryContextMaxTokens none := by
  obtain ⟨w', path, hw', hbranch, hiff⟩ :=
    createBranchedSession_context preparedReachable_labelRun (sampleDraws 5) (js "33333333")
      (by decide) (by decide) memoryContextMaxTokens none
  have hnone : ((sampleWorld labelRun).manager.getBranch (some (js "33333333"))).all
      (·.all (!·.isCompaction)) = true := by decide
  rw [hbranch, Option.all_some, List.all_eq_true] at hnone
  refine ⟨w', hw', hiff.mpr ?_⟩
  rintro ⟨pre, c, post, rfl, hc, -⟩
  have hnot := hnone c (by simp)
  rw [hc] at hnot
  cases hnot

end World

end PiMono
