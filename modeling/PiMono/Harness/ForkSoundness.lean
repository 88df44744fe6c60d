import PiMono.Harness.StateInvariant

/-!
# Forks are sound

`createForkMutations` numbers the copied entries anew and makes lanes, name and labels
again behind them. `replay_entries`, `replay_lanes`, `replay_name` and `replay_labels`
say what replaying each group does, `replay_forkMutations` puts them together: nothing
throws, whatever the tree and wherever the fork starts. `createForkMutations_sound` is what the
new state has to do with the old one; entries are compared but for their numbers
(`Entry.content`), which is enough for the path from an entry to its root to be the same.
-/

namespace PiMono.Harness

/-- An entry but for its sequence number. -/
def Entry.content (e : Entry) : Entry := e.withSeq 0

@[simp] theorem Entry.content_id (e : Entry) : e.content.id = e.id := rfl

@[simp] theorem Entry.content_parentId (e : Entry) : e.content.parentId = e.parentId := rfl

namespace SessionState

/-! ## Numbering -/

section Numbered

variable {α β : Type} (f : Nat → α → β)

@[simp] theorem numbered_cons (seq : Nat) (a : α) (as : List α) :
    numbered f seq (a :: as) = f seq a :: numbered f (seq + 1) as := by
  simp [numbered, List.mapIdx_cons, Nat.add_assoc, Nat.add_comm 1]

theorem map_numbered {γ : Type} (g : β → γ) (seq : Nat) (as : List α) :
    (numbered f seq as).map g = numbered (fun n a => g (f n a)) seq as := by
  induction as generalizing seq with
  | nil => rfl
  | cons a as ih => rw [numbered_cons, numbered_cons, List.map_cons, ih]

/-- What does not depend on the number is what it was. -/
theorem numbered_const (g : α → β) (seq : Nat) (as : List α) :
    numbered (fun _ => g) seq as = as.map g := by
  induction as generalizing seq with
  | nil => rfl
  | cons a as ih => rw [numbered_cons, List.map_cons, ih]

end Numbered

/-- The copied entries under their new numbers. -/
def renumbered (copied : List Entry) : List Entry :=
  numbered (fun seq e => e.withSeq seq) 1 copied

theorem content_renumbered (copied : List Entry) :
    (renumbered copied).map Entry.content = copied.map Entry.content := by
  rw [renumbered, map_numbered, ← numbered_const Entry.content 1]
  rfl

theorem id_renumbered (copied : List Entry) :
    (renumbered copied).map Entry.id = copied.map Entry.id := by
  rw [renumbered, map_numbered, ← numbered_const Entry.id 1]
  rfl

/-! ## Replaying the mutations of a fork -/

theorem replay_cons {s s' : SessionState} {m : SessionMutation} (h : s.applyMutation m = .ok s')
    (ms : List SessionMutation) : s.replay (m :: ms) = s'.replay ms := by
  rw [replay, List.foldlM_cons, h]
  rfl

theorem replay_append {s s' : SessionState} {ms : List SessionMutation}
    (h : s.replay ms = .ok s') (ms' : List SessionMutation) :
    s.replay (ms ++ ms') = s'.replay ms' := by
  have hms : ms.foldlM applyMutation s = Except.ok s' := h
  rw [replay, List.foldlM_append, hms]
  rfl

/-- A mutation that the checks accept is committed. -/
theorem applyMutation_of_accepts {s : SessionState} {m : SessionMutation}
    (hseq : m.seq = s.nextSequence) (hok : s.Accepts m) : s.applyMutation m = s.commit m := by
  rw [applyMutation, invalid?_eq_none_iff.mpr ⟨hseq, hok⟩]

/-- The entries are appended, each under its number. -/
theorem replay_entries {s : SessionState} (h : s.Consistent) {copied : List Entry} {seq : Nat}
    (hseq : seq = s.nextSequence) (hnd : (s.usedIds ++ copied.map Entry.id).Nodup)
    (hparent : ∀ pre e post, copied = pre ++ e :: post → ∀ parentId, e.parentId = some parentId →
      parentId ∈ s.entries.map Entry.id ++ pre.map Entry.id) :
    ∃ s', s.replay (numbered (fun seq e => .entry none (e.withSeq seq)) seq copied) = .ok s' ∧
      s'.sequence = s.sequence + copied.length ∧
      s'.entries = s.entries ++ numbered (fun seq e => e.withSeq seq) seq copied ∧
      s'.records = s.records ∧ s'.lanes = s.lanes ∧ s'.name = s.name ∧ s'.labels = s.labels := by
  induction copied generalizing s seq with
  | nil => exact ⟨s, rfl, rfl, (List.append_nil _).symm, rfl, rfl, rfl, rfl⟩
  | cons e copied ih =>
    rw [List.map_cons] at hnd
    have hnew : (e.withSeq seq).id ∉ s.usedIds := fun hmem =>
      (List.nodup_append.mp hnd).2.2 _ hmem e.id List.mem_cons_self rfl
    have hhas : ∀ parentId, (e.withSeq seq).parentId = some parentId →
        s.entriesById.has parentId = true := fun parentId hid => by
      have hmem := hparent [] e copied rfl parentId hid
      rw [List.map_nil, List.append_nil] at hmem
      exact h.has_iff.mpr (List.mem_map.mp hmem)
    have happly : s.applyMutation (.entry none (e.withSeq seq))
        = .ok (s.pushEntry none (e.withSeq seq)) :=
      applyMutation_of_accepts hseq ⟨hnew, fun l hl => (nomatch hl), hhas⟩
    have hnd' : ((s.pushEntry none (e.withSeq seq)).usedIds ++ copied.map Entry.id).Nodup := by
      show ((s.usedIds ++ [e.id]) ++ copied.map Entry.id).Nodup
      rwa [List.append_assoc]
    obtain ⟨s', hreplay, hs', hentries, hrest⟩ := ih (h.applyMutation happly)
      (show seq + 1 = _ from rfl) hnd' (by
        intro pre e' post hcopied parentId hid
        have hmem := hparent (e :: pre) e' post (by rw [hcopied]; rfl) parentId hid
        simpa [SessionState.pushEntry, Entry.withSeq] using hmem)
    refine ⟨s', ?_, ?_, ?_, hrest⟩
    · rw [numbered_cons, replay_cons happly, hreplay]
    · rw [hs', List.length_cons, hseq]
      show s.sequence + 1 + copied.length = _
      omega
    · rw [hentries, numbered_cons]
      show (s.entries ++ [e.withSeq seq]) ++ _ = _
      rw [List.append_assoc]
      rfl

/-- The lanes are set one after the other. -/
theorem replay_lanes {s : SessionState} (h : s.Consistent)
    {lanes : List (JsString × Option JsString)} {seq : Nat} (hseq : seq = s.nextSequence)
    (hleaf : ∀ l ∈ lanes, ∀ id, l.2 = some id → ∃ e ∈ s.entries, e.id = id) :
    ∃ s', s.replay (numbered (fun seq l => .lane seq l.1 l.2) seq lanes) = .ok s' ∧
      s'.sequence = s.sequence + lanes.length ∧ s'.entries = s.entries ∧ s'.records = s.records ∧
      s'.lanes = lanes.foldl (fun m l => m.set l.1 l.2) s.lanes ∧ s'.name = s.name ∧
      s'.labels = s.labels := by
  induction lanes generalizing s seq with
  | nil => exact ⟨s, rfl, rfl, rfl, rfl, rfl, rfl, rfl⟩
  | cons l lanes ih =>
    have hok : s.Accepts (.lane seq l.1 l.2) := fun id hid =>
      h.has_iff.mpr (hleaf l List.mem_cons_self id hid)
    have hnext : (SessionMutation.lane seq l.1 l.2).seq = s.nextSequence := hseq
    have happly := applyMutation_of_accepts hnext hok
    obtain ⟨s', hreplay, hs', hentries, hrest⟩ := ih (h.applyMutation happly) rfl
      fun l' hl' => hleaf l' (List.mem_cons_of_mem _ hl')
    refine ⟨s', ?_, ?_, hentries, hrest⟩
    · rw [numbered_cons, replay_cons happly]
      simpa [hseq, nextSequence] using hreplay
    · rw [hs', List.length_cons, hseq]
      show s.sequence + 1 + lanes.length = _
      omega

/-- The name is set, if there is one. -/
theorem replay_name {s : SessionState} {name : Option JsString} {seq : Nat}
    (hseq : seq = s.nextSequence) (hname : s.name = none) :
    ∃ s', s.replay (numbered (fun seq n => .name seq (some n)) seq name.toList) = .ok s' ∧
      s'.sequence = s.sequence + name.toList.length ∧ s'.entries = s.entries ∧
      s'.records = s.records ∧ s'.lanes = s.lanes ∧ s'.name = name ∧ s'.labels = s.labels := by
  cases name with
  | none => exact ⟨s, rfl, rfl, rfl, rfl, rfl, hname, rfl⟩
  | some n =>
    have happly : s.applyMutation (.name seq (some n)) = s.commit (.name seq (some n)) :=
      applyMutation_of_accepts hseq trivial
    have hcommit : s.commit (.name seq (some n)) = .ok { s with
      sequence := seq, name := some n, log := s.log ++ [.name seq (some n)] } := rfl
    rw [Option.toList_some, numbered_cons, replay_cons (happly.trans hcommit)]
    exact ⟨_, rfl, hseq, rfl, rfl, rfl, rfl, rfl⟩

/-- The labels are set one after the other. -/
theorem replay_labels {s : SessionState} (h : s.Consistent)
    {labels : List (JsString × JsString)} {seq : Nat} (hseq : seq = s.nextSequence)
    (htarget : ∀ l ∈ labels, ∃ e ∈ s.entries, e.id = l.1) :
    ∃ s', s.replay (numbered (fun seq l => .label seq l.1 (some l.2)) seq labels) = .ok s' ∧
      s'.entries = s.entries ∧ s'.records = s.records ∧ s'.lanes = s.lanes ∧ s'.name = s.name ∧
      s'.labels = labels.foldl (fun m l => m.set l.1 l.2) s.labels := by
  induction labels generalizing s seq with
  | nil => exact ⟨s, rfl, rfl, rfl, rfl, rfl, rfl⟩
  | cons l labels ih =>
    have hok : s.Accepts (.label seq l.1 (some l.2)) :=
      h.has_iff.mpr (htarget l List.mem_cons_self)
    have hnext : (SessionMutation.label seq l.1 (some l.2)).seq = s.nextSequence := hseq
    have happly := applyMutation_of_accepts hnext hok
    obtain ⟨s', hreplay, hrest⟩ := ih (h.applyMutation happly) rfl
      fun l' hl' => htarget l' (List.mem_cons_of_mem _ hl')
    refine ⟨s', ?_, hrest⟩
    rw [numbered_cons, replay_cons happly]
    simpa [hseq, nextSequence] using hreplay

/-! ## What a fork selects -/

/-- The entries a fork is to copy and the lanes it is to have: all of them, or the path
from a root to the target and a lane that points to it. -/
inductive Selected (s : SessionState) :
    ForkOptions → List Entry → List (JsString × Option JsString) → Prop
  | tree : Selected s .tree s.entries s.getLanes
  | branch {entryId : Option JsString} {position : Option ForkPosition}
      {targetId : Option JsString} {path : List Entry} :
      s.forkTarget entryId position = .ok targetId → path.Sublist s.entries →
      IsPath Entry.id Entry.parentId none path → path.getLast?.map Entry.id = targetId →
      Selected s (.branch entryId position) path [(js "main", targetId)]

theorem findEntries_everything (s : SessionState) : s.findEntries everything = .ok s.entries := by
  have hfilter : s.entries.filter (matchesEntryQuery everything) = s.entries :=
    List.filter_eq_self.mpr fun e _ => rfl
  show Except.ok (limited none ((ordered s.entries (some .oldestFirst)).filter _)) = _
  rw [ordered, if_pos rfl]
  exact congrArg Except.ok hfilter

theorem answerFrom_everything (path : List Entry) :
    answerFrom everything ⟨none, none⟩ path = .ok path := by
  have hstop : BranchBounds.reached ⟨none, none⟩ = fun _ => false := by
    funext e
    simp [BranchBounds.reached]
  have hfilter : path.filter (matchesEntryQuery everything) = path :=
    List.filter_eq_self.mpr fun e _ => rfl
  show Except.ok (limited none ((takeThrough _ path).filter _)) = _
  rw [hstop, takeThrough_of_never]
  exact congrArg Except.ok hfilter

theorem mem_of_messageTarget {s : SessionState} (h : s.Consistent) {selected id : JsString}
    {position : ForkPosition} (ht : s.messageTarget selected position = .ok (some id)) :
    ∃ e ∈ s.entries, e.id = id := by
  unfold messageTarget at ht
  cases he : s.getEntry selected with
  | none =>
    rw [he] at ht
    cases ht
  | some e =>
    have hmem := (h.of_getEntry he).1
    simp only [he] at ht
    by_cases hmessage : e.type = .message
    · rw [if_pos hmessage] at ht
      cases position with
      | «at» => exact ⟨e, hmem, Option.some.inj (Except.ok.inj ht)⟩
      | before =>
        obtain ⟨parent, hparent, hid, -⟩ := h.parents e hmem id (Except.ok.inj ht)
        exact ⟨parent, hparent, hid⟩
    · rw [if_neg hmessage] at ht
      cases ht

/-- The target of a branch fork is an entry of the session, or none. -/
theorem mem_of_forkTarget {s : SessionState} (h : s.Consistent) {entryId : Option JsString}
    {position : Option ForkPosition} {id : JsString}
    (ht : s.forkTarget entryId position = .ok (some id)) : ∃ e ∈ s.entries, e.id = id := by
  unfold forkTarget at ht
  cases entryId with
  | some entryId => exact mem_of_messageTarget h ht
  | none =>
    cases hmain : s.requireLane (js "main") with
    | error error =>
      simp only [hmain] at ht
      cases ht
    | ok leafId =>
      simp only [hmain] at ht
      cases leafId with
      | none => cases ht
      | some leafId => exact mem_of_messageTarget h ht

/-- What a fork of a consistent state selects. -/
theorem selected_of_forkSelection {s : SessionState} (h : s.Consistent) {options : ForkOptions}
    {copied : List Entry} {lanes : List (JsString × Option JsString)}
    (hsel : s.forkSelection options = .ok (copied, lanes)) : s.Selected options copied lanes := by
  cases options with
  | tree =>
    rw [forkSelection, findEntries_everything] at hsel
    cases hsel
    exact .tree
  | branch entryId position =>
    rw [forkSelection] at hsel
    cases htarget : s.forkTarget entryId position with
    | error error =>
      rw [htarget] at hsel
      cases hsel
    | ok targetId =>
      rw [htarget] at hsel
      cases targetId with
      | none =>
        cases hsel
        exact .branch htarget (List.nil_sublist _) trivial rfl
      | some targetId =>
        obtain ⟨e, he, rfl⟩ := mem_of_forkTarget h htarget
        obtain ⟨path, hsub, hpath, hanswer⟩ := h.findEntriesOnBranch he
        have hcopied : s.findEntriesOnBranch e.id everything ⟨none, none⟩
            = .ok (path ++ [e]) := by
          rw [hanswer, answerFrom_everything]
        simp only [bind, Except.bind, hcopied] at hsel
        cases hsel
        exact .branch htarget hsub hpath (by simp)

namespace Selected

variable {s : SessionState} {options : ForkOptions} {copied : List Entry}
  {lanes : List (JsString × Option JsString)}

theorem sublist (h : s.Selected options copied lanes) : copied.Sublist s.entries := by
  cases h with
  | tree => exact List.Sublist.refl _
  | branch _ hsub => exact hsub

theorem parentsEarlier (h : s.Selected options copied lanes) (hs : s.Consistent) :
    ParentsEarlier Entry.id Entry.parentId copied := by
  cases h with
  | tree => exact hs.parentsEarlier
  | branch _ _ hpath => exact hpath.parentsEarlier

/-- The lanes point to copied entries. -/
theorem leaf (h : s.Selected options copied lanes) (hs : s.Consistent) :
    ∀ l ∈ lanes, ∀ id, l.2 = some id → ∃ e ∈ copied, e.id = id := by
  cases h with
  | tree =>
    intro l hl id hid
    have hget : s.lanes.get? l.1 = some l.2 := by
      rw [JsMap.get?, fieldValue?_of_mem s.lanes.nodup hl]
    exact hs.lanes l.1 id (by rw [hget, hid])
  | branch _ _ _ hlast =>
    intro l hl id hid
    obtain rfl := List.mem_singleton.mp hl
    rw [← hlast] at hid
    obtain ⟨e, he, rfl⟩ := Option.map_eq_some_iff.mp hid
    exact ⟨e, List.mem_of_getLast? he, rfl⟩

/-- Setting the lanes of a fork leaves just these. -/
theorem lanes_set (h : s.Selected options copied lanes) (hs : s.Consistent) :
    (lanes.foldl (fun m l => m.set l.1 l.2) fresh.lanes).entries = lanes := by
  cases h with
  | tree =>
    have hset : s.lanes.entries.foldl (fun m l => m.set l.1 l.2) fresh.lanes = s.lanes :=
      JsMap.foldl_set_entries hs.main none
    show (s.lanes.entries.foldl _ fresh.lanes).entries = s.lanes.entries
    rw [hset]
  | branch => rfl

end Selected

/-! ## The fork and its source -/

theorem map_fst_copiedLabels_sublist (s : SessionState) (copied : List Entry) :
    ((s.copiedLabels copied).map Prod.fst).Sublist (copied.map Entry.id) := by
  induction copied with
  | nil => exact List.Sublist.refl _
  | cons e copied ih =>
    rw [copiedLabels, List.filterMap_cons]
    cases s.labels.get? e.id with
    | none => exact ih.cons _
    | some label => exact ih.cons_cons _

/-- The labels of a fork are the labels of the copied entries. -/
theorem get?_copiedLabels (s : SessionState) (copied : List Entry) (id : JsString) :
    fieldValue? (s.copiedLabels copied) id
      = if id ∈ copied.map Entry.id then s.labels.get? id else none := by
  induction copied with
  | nil => rfl
  | cons e copied ih =>
    rw [copiedLabels, List.filterMap_cons, List.map_cons]
    by_cases heq : e.id = id
    · subst heq
      cases hlabel : s.labels.get? e.id with
      | none =>
        show fieldValue? (s.copiedLabels copied) e.id = _
        rw [ih, hlabel]
        simp
      | some label => simp [fieldValue?]
    · have hne : ¬ id = e.id := fun h => heq h.symm
      simp only [List.mem_cons, hne, false_or, ← ih]
      cases s.labels.get? e.id with
      | none => rfl
      | some label =>
        show fieldValue? ((e.id, label) :: s.copiedLabels copied) id = _
        simp [fieldValue?, heq]

/-- Answers are compared but for the numbers of the entries. -/
def contents (answer : Except SessionError (List Entry)) : Except SessionError (List Entry) :=
  answer.map (List.map Entry.content)

/-- A fork has the copied entries, their labels, the name, the lanes it is to have and no
records, and along the branch of a copied entry it answers as its source does. -/
structure IsForkOf (s fork : SessionState) (copied : List Entry)
    (lanes : List (JsString × Option JsString)) : Prop where
  entries : fork.entries.map Entry.content = copied.map Entry.content
  records : fork.records = []
  lanes : fork.getLanes = lanes
  name : fork.name = s.name
  labels : ∀ id, fork.labels.get? id
    = if id ∈ copied.map Entry.id then s.labels.get? id else none
  branches : ∀ e ∈ copied, ∀ query bounds, query.cursor = none →
    contents (fork.findEntriesOnBranch e.id query bounds)
      = contents (s.findEntriesOnBranch e.id query bounds)

/-- Without a cursor, what is answered depends on the contents of the path. -/
theorem contents_answerFrom {query : EntryQuery} (hcursor : query.cursor = none)
    (bounds : BranchBounds) {path path' : List Entry}
    (h : path.map Entry.content = path'.map Entry.content) :
    contents (answerFrom query bounds path) = contents (answerFrom query bounds path') := by
  have horder : ∀ p : List Entry,
      (branchOrder query p).map Entry.content = branchOrder query (p.map Entry.content) := by
    intro p
    unfold branchOrder
    split
    · rfl
    · exact List.map_reverse
  have htake : ∀ p : List Entry, (takeThrough bounds.reached p).map Entry.content
      = takeThrough bounds.reached (p.map Entry.content) := by
    intro p
    induction p with
    | nil => rfl
    | cons e p ih =>
      have hreached : bounds.reached e.content = bounds.reached e := rfl
      rw [List.map_cons, takeThrough, takeThrough, hreached]
      split
      · rfl
      · rw [List.map_cons, ih]
  have hfilter : ∀ p : List Entry, (p.filter (matchesEntryQuery query)).map Entry.content
      = (p.map Entry.content).filter (matchesEntryQuery query) := by
    intro p
    have hsame : matchesEntryQuery query ∘ Entry.content = matchesEntryQuery query := by
      funext e
      simp only [Function.comp_apply, matchesEntryQuery, hcursor, Option.all_none]
      rfl
    rw [List.filter_map, hsame]
  have hlimited : ∀ p : List Entry, (limited query.limit p).map Entry.content
      = limited query.limit (p.map Entry.content) := by
    intro p
    unfold limited
    cases query.limit with
    | none => rfl
    | some n => exact List.map_take
  unfold answerFrom
  cases assertValidLimit query.limit with
  | error error => rfl
  | ok _ =>
    show Except.ok (List.map _ _) = Except.ok (List.map _ _)
    rw [hlimited, hfilter, htake, horder, h, hlimited, hfilter, htake, horder]

/-- Paths to one entry have the same contents where the entries have. -/
theorem content_path {s fork : SessionState} (hs : s.Consistent) {copied : List Entry}
    (hcopied : copied.Sublist s.entries)
    (hentries : fork.entries.map Entry.content = copied.map Entry.content)
    {path path' : List Entry} {e e' : Entry} (he : e.content = e'.content)
    (hpath : IsPath Entry.id Entry.parentId none (path ++ [e]))
    (hpath' : IsPath Entry.id Entry.parentId none (path' ++ [e']))
    (hmem : ∀ b ∈ path, b ∈ fork.entries) (hmem' : ∀ b ∈ path', b ∈ s.entries) :
    path.map Entry.content = path'.map Entry.content := by
  have hmap : ∀ {above : Option JsString} {as : List Entry},
      IsPath Entry.id Entry.parentId above (as.map Entry.content)
        ↔ IsPath Entry.id Entry.parentId above as :=
    isPath_map Entry.content_id Entry.content_parentId
  have hnd : ((s.entries.map Entry.content).map Entry.id).Nodup := by
    rw [List.map_map]
    exact hs.nodup_entryIds
  refine @isPath_unique _ _ Entry.id Entry.parentId (s.entries.map Entry.content) hnd _ _ e'.content
    ?_ ?_ ?_ ?_
  · rw [← he, ← List.map_singleton, ← List.map_append]
    exact hmap.mpr hpath
  · rw [← List.map_singleton, ← List.map_append]
    exact hmap.mpr hpath'
  · intro b hb
    obtain ⟨b, hmemb, rfl⟩ := List.mem_map.mp hb
    have hfork : b.content ∈ fork.entries.map Entry.content := List.mem_map_of_mem (hmem b hmemb)
    rw [hentries] at hfork
    exact (hcopied.map _).subset hfork
  · intro b hb
    obtain ⟨b, hmemb, rfl⟩ := List.mem_map.mp hb
    exact List.mem_map_of_mem (hmem' b hmemb)

/-- Replaying the mutations of a fork throws nothing and makes the fork. -/
theorem replay_forkMutations {s : SessionState} (hs : s.Consistent) {options : ForkOptions}
    {copied : List Entry} {lanes : List (JsString × Option JsString)}
    (hsel : s.Selected options copied lanes) :
    ∃ fork, fresh.replay (s.forkMutations copied lanes) = .ok fork ∧
      s.IsForkOf fork copied lanes := by
  have hnd : (copied.map Entry.id).Nodup := hs.nodup_entryIds.sublist (hsel.sublist.map _)
  -- the entries: each parent has been copied before
  obtain ⟨s₁, h₁, hseq₁, hentries₁, hrecords₁, hlanes₁, hname₁, hlabels₁⟩ :=
    @replay_entries fresh consistent_fresh copied 1 rfl hnd fun pre e post hcopied parentId hid =>
      List.mem_append_right _ (hsel.parentsEarlier hs pre e post hcopied parentId hid)
  have hids : ∀ {id}, (∃ e ∈ copied, e.id = id) → ∃ e ∈ s₁.entries, e.id = id := by
    rintro id ⟨e, he, rfl⟩
    have hmem : e.id ∈ s₁.entries.map Entry.id := by
      rw [hentries₁]
      show e.id ∈ (renumbered copied).map Entry.id
      rw [id_renumbered]
      exact List.mem_map_of_mem he
    exact List.mem_map.mp hmem
  -- the lanes
  have hc₁ := consistent_fresh.replay h₁
  obtain ⟨s₂, h₂, hseq₂, hentries₂, hrecords₂, hlanes₂, hname₂, hlabels₂⟩ :=
    @replay_lanes s₁ hc₁ lanes (1 + copied.length)
      (by rw [nextSequence, hseq₁]; show _ = 0 + _ + 1; omega)
      fun l hl id hid => hids (hsel.leaf hs l hl id hid)
  -- the name
  have hc₂ := hc₁.replay h₂
  obtain ⟨s₃, h₃, hseq₃, hentries₃, hrecords₃, hlanes₃, hname₃, hlabels₃⟩ :=
    @replay_name s₂ s.name (1 + copied.length + lanes.length)
      (by rw [nextSequence, hseq₂, hseq₁]; show _ = 0 + _ + _ + 1; omega)
      (by rw [hname₂, hname₁]; rfl)
  -- the labels
  have hc₃ := hc₂.replay h₃
  obtain ⟨fork, h₄, hentries₄, hrecords₄, hlanes₄, hname₄, hlabels₄⟩ :=
    @replay_labels s₃ hc₃ (s.copiedLabels copied)
      (1 + copied.length + lanes.length + s.name.toList.length)
      (by rw [nextSequence, hseq₃, hseq₂, hseq₁]; show _ = 0 + _ + _ + _ + 1; omega)
      (by
        intro l hl
        have hmem := (map_fst_copiedLabels_sublist s copied).subset (List.mem_map_of_mem hl)
        rw [hentries₃, hentries₂]
        exact hids (List.mem_map.mp hmem))
  have hentries : fork.entries = renumbered copied := by
    rw [hentries₄, hentries₃, hentries₂, hentries₁]
    rfl
  have hcontent : fork.entries.map Entry.content = copied.map Entry.content := by
    rw [hentries, content_renumbered]
  refine ⟨fork, ?_, hcontent, ?_, ?_, ?_, ?_, ?_⟩
  · show fresh.replay (_ ++ _ ++ _ ++ _) = _
    rw [List.append_assoc, List.append_assoc, replay_append h₁, replay_append h₂,
      replay_append h₃, h₄]
  · rw [hrecords₄, hrecords₃, hrecords₂, hrecords₁]
    rfl
  · show fork.lanes.entries = lanes
    rw [hlanes₄, hlanes₃, hlanes₂, hlanes₁, hsel.lanes_set hs]
  · rw [hname₄, hname₃]
  · intro id
    have hset : fork.labels = .ofFields (s.copiedLabels copied) := by
      rw [hlabels₄, hlabels₃, hlabels₂, hlabels₁]
      rfl
    rw [hset, JsMap.get?,
      JsMap.entries_ofFields (hnd.sublist (map_fst_copiedLabels_sublist s copied)),
      get?_copiedLabels]
  · intro e he query bounds hcursor
    have hfork := hc₃.replay h₄
    obtain ⟨e', he', hsame⟩ : ∃ e' ∈ fork.entries, e'.content = e.content := by
      have hmem : e.content ∈ fork.entries.map Entry.content := by
        rw [hcontent]
        exact List.mem_map_of_mem he
      exact List.mem_map.mp hmem
    have hid : e'.id = e.id := congrArg (·.id) hsame
    obtain ⟨path, hsub, hpath, hanswer⟩ := hfork.findEntriesOnBranch he'
    obtain ⟨path', hsub', hpath', hanswer'⟩ := hs.findEntriesOnBranch (hsel.sublist.subset he)
    rw [← hid, hanswer, hid, hanswer']
    refine contents_answerFrom hcursor bounds ?_
    rw [List.map_append, List.map_append, content_path hs hsel.sublist hcontent hsame hpath hpath'
      (fun b hb => hsub.subset (List.mem_append_left _ hb))
      (fun b hb => hsub'.subset (List.mem_append_left _ hb)), List.map_singleton, hsame,
      List.map_singleton]

/-- Whatever calls led to a state and whatever is forked, if the fork selects something
then its mutations replay on a new state, and they make the fork. -/
theorem createForkMutations_sound (history : List SessionMutation) (options : ForkOptions)
    (ms : List SessionMutation) (h : (calledAll history).createForkMutations options = .ok ms) :
    ∃ copied lanes fork, (calledAll history).Selected options copied lanes ∧
      fresh.replay ms = .ok fork ∧ (calledAll history).IsForkOf fork copied lanes := by
  have hs := consistent_calledAll history
  unfold createForkMutations at h
  cases hselect : (calledAll history).forkSelection options with
  | error error =>
    rw [hselect] at h
    cases h
  | ok selection =>
    obtain ⟨copied, lanes⟩ := selection
    rw [hselect] at h
    obtain rfl := Except.ok.inj h
    have hsel := selected_of_forkSelection hs hselect
    obtain ⟨fork, hreplay, hfork⟩ := replay_forkMutations hs hsel
    exact ⟨copied, lanes, fork, hsel, hreplay, hfork⟩

/-- A message without any field of its own. -/
def bareMessage (id : String) (parentId : Option String) (seq : Nat) : Entry :=
  ⟨.message, js id, parentId.map fun p => js p, seq, ⟨0, Nat.zero_le _⟩,
    ⟨.empty, fun _ _ => rfl⟩, rfl⟩

/-- A fork at the end of `main`, of two messages of which the first has a label. -/
theorem createForkMutations_sound_main :
    let history := [.entry (some (js "main")) (bareMessage "a" none 1),
      .entry (some (js "main")) (bareMessage "b" (some "a") 2), .label 3 (js "a") (some (js "x"))]
    ∃ copied lanes fork, (calledAll history).Selected (.branch none none) copied lanes ∧
      fresh.replay [.entry none (bareMessage "a" none 1),
        .entry none (bareMessage "b" (some "a") 2),
        .lane 3 (js "main") (some (js "b")), .label 4 (js "a") (some (js "x"))] = .ok fork ∧
      (calledAll history).IsForkOf fork copied lanes :=
  createForkMutations_sound _ (.branch none none) _ (by decide)

end SessionState

end PiMono.Harness
