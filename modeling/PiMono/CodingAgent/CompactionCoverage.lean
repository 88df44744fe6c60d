import PiMono.CodingAgent.Compaction

/-!
# A compaction loses nothing and repeats nothing

`context_messages` reads the visible messages of a context off the path: those of
the entries from `boundaryStart` on. `findCutPoint_bounds` puts the cut point and
the turn start between `boundaryStart` and the end. The window that
`prepareCompaction` summarizes and the entries it keeps then partition the same
stretch of the path (`prepareCompaction_covers`), and a compaction appended with
the prepared id shows exactly what is kept (`compactPath_append`).
-/

namespace PiMono

/-- A path from a root to a leaf, with distinct ids. -/
structure RootToLeaf (path : List FileEntry) : Prop where
  isPath : IsPath (·.id) FileEntry.parentLink none path
  nodup : (path.map (·.id)).Nodup

/-- The context messages of an entry that is no compaction. -/
def visibleMessages (entry : FileEntry) : List AgentMessage :=
  if entry.isCompaction then [] else sessionEntryToContextMessages entry

/-! ## Paths -/

/-- The path of a path is the path. -/
theorem buildSessionPath_self {path : List FileEntry} (h : RootToLeaf path) :
    buildSessionPath path none none = some path := by
  have hlen : (JsMap.index (·.id) path).entries.length = path.length := by
    rw [JsMap.entries_index h.nodup, List.length_map]
  rcases List.eq_nil_or_concat path with rfl | ⟨init, last, rfl⟩
  · rfl
  · rw [List.concat_eq_append] at h hlen ⊢
    have hwalk := walkUp_path h.isPath
      (fun b hb => JsMap.get?_index_of_mem h.nodup (List.mem_append_left _ hb))
      (n := (JsMap.index (·.id) (init ++ [last])).entries.length) (by rw [hlen]; simp)
    simp only [buildSessionPath, Option.getD_none, Option.join_none, Option.filter_none,
      Option.bind_none, Option.none_or, List.getLast?_concat]
    rw [if_neg (by simp), hwalk]
    simp

theorem find_index_of_mem {pre post : List FileEntry} {e : FileEntry}
    (h : e.id ∉ pre.map (·.id)) : (pre ++ e :: post).findIdx? (·.id = e.id) = some pre.length := by
  have hpre : pre.findIdx? (·.id = e.id) = none := by
    rw [List.findIdx?_eq_none_iff]
    intro x hx
    exact decide_eq_false fun heq => h (heq ▸ List.mem_map_of_mem hx)
  rw [List.findIdx?_append, hpre, List.findIdx?_cons]
  simp

theorem keptFrom_of_notMem {id : JsString} {es : List FileEntry} (h : id ∉ es.map (·.id)) :
    keptFrom id es = [] := by
  rw [keptFrom, List.dropWhile_eq_nil_iff]
  intro e he
  exact decide_eq_true fun heq => h (heq ▸ List.mem_map_of_mem he)

theorem keptFrom_append {pre post : List FileEntry} {e : FileEntry}
    (h : e.id ∉ pre.map (·.id)) : keptFrom e.id (pre ++ e :: post) = e :: post := by
  have hpre : ∀ x ∈ pre, decide (x.id ≠ e.id) = true := by
    intro x hx
    exact decide_eq_true fun heq => h (heq ▸ List.mem_map_of_mem hx)
  rw [keptFrom, List.dropWhile_append_of_pos hpre, List.dropWhile_cons_of_neg (by simp)]

/-- With distinct ids, the entries from the `i`-th on are those kept from its id. -/
theorem keptFrom_getElem {path : List FileEntry} (hnd : (path.map (·.id)).Nodup) {i : Nat}
    (hi : i < path.length) : keptFrom path[i].id path = path.drop i := by
  have hsplit : path = path.take i ++ path[i] :: path.drop (i + 1) := by
    rw [List.getElem_cons_drop, List.take_append_drop]
  have hnot : path[i].id ∉ (path.take i).map (·.id) := by
    have hnd' := hnd
    rw [hsplit, List.map_append, List.map_cons] at hnd'
    exact fun hmem => (List.nodup_append.mp hnd').2.2 _ hmem _ List.mem_cons_self rfl
  have hkept : keptFrom path[i].id (path.take i ++ path[i] :: path.drop (i + 1))
      = path[i] :: path.drop (i + 1) := keptFrom_append hnot
  rw [← hsplit] at hkept
  rw [hkept, List.getElem_cons_drop]

theorem latest_append_compaction (path : List FileEntry) {c : FileEntry}
    (hc : c.isCompaction = true) : getLatestCompactionEntry (path ++ [c]) = some c := by
  simp [getLatestCompactionEntry, hc]

theorem latest_split {pre post : List FileEntry} {c : FileEntry} (hc : c.isCompaction = true)
    (hpost : ∀ e ∈ post, e.isCompaction = false) :
    getLatestCompactionEntry (pre ++ c :: post) = some c := by
  rw [getLatestCompactionEntry, List.reverse_append, List.reverse_cons, List.append_assoc,
    List.find?_append, List.find?_eq_none.mpr (by simpa using hpost)]
  simp [hc]

/-- A path has no compaction, or a latest one. -/
theorem latest_cases (path : List FileEntry) :
    (∀ e ∈ path, e.isCompaction = false) ∨
      ∃ pre c post, path = pre ++ c :: post ∧ c.isCompaction = true ∧
        ∀ e ∈ post, e.isCompaction = false := by
  induction path using List.reverseRecOn with
  | nil => exact Or.inl (by simp)
  | append_singleton path e ih =>
    cases he : e.isCompaction with
    | true => exact Or.inr ⟨path, e, [], rfl, he, by simp⟩
    | false =>
      rcases ih with hnone | ⟨pre, c, post, rfl, hc, hpost⟩
      · exact Or.inl (by simpa [or_imp, forall_and] using ⟨hnone, he⟩)
      · refine Or.inr ⟨pre, c, post ++ [e], by simp, hc, ?_⟩
        simpa [or_imp, forall_and] using ⟨hpost, he⟩

/-- What the context of a path with a latest compaction is. -/
theorem compactPath_split {pre post : List FileEntry} {c : FileEntry}
    (hnd : ((pre ++ c :: post).map (·.id)).Nodup) (hc : c.isCompaction = true)
    (hpost : ∀ e ∈ post, e.isCompaction = false) :
    compactPath (pre ++ c :: post) = c :: (keptFrom c.firstKeptEntryId pre ++ post) := by
  have hnot : c.id ∉ pre.map (·.id) := by
    rw [List.map_append, List.map_cons] at hnd
    exact fun hmem => (List.nodup_append.mp hnd).2.2 _ hmem _ List.mem_cons_self rfl
  simp only [compactPath, latest_split hc hpost, find_index_of_mem hnot]
  rw [List.take_left, List.drop_append]
  simp

theorem compactPath_of_none {path : List FileEntry} (h : ∀ e ∈ path, e.isCompaction = false) :
    compactPath path = path := by
  have hnone : getLatestCompactionEntry path = none := by
    rw [getLatestCompactionEntry, List.find?_eq_none]
    simpa using h
  rw [compactPath, hnone]

/-- **The next context.** A compaction appended behind a path shows itself and
then the path from its first kept entry on. -/
theorem compactPath_append {path : List FileEntry} {c : FileEntry}
    (hnd : ((path ++ [c]).map (·.id)).Nodup) (hc : c.isCompaction = true) :
    compactPath (path ++ [c]) = c :: keptFrom c.firstKeptEntryId path := by
  have h := compactPath_split hnd hc (by simp)
  rwa [List.append_nil] at h

/-! ## The context before -/

theorem prevCompactionIndex?_split {pre post : List FileEntry} {c : FileEntry}
    (hc : c.isCompaction = true) (hpost : ∀ e ∈ post, e.isCompaction = false) :
    prevCompactionIndex? (pre ++ c :: post) = some pre.length := by
  have hnone : post.reverse.findIdx? (·.isCompaction) = none := by
    rw [List.findIdx?_eq_none_iff]
    simpa using hpost
  rw [prevCompactionIndex?, List.reverse_append, List.reverse_cons, List.append_assoc,
    List.findIdx?_append, hnone, List.singleton_append, List.findIdx?_cons, if_pos hc]
  simp only [Option.map_some, Option.none_or, List.length_reverse, List.length_append,
    List.length_cons, Option.some.injEq]
  omega

theorem prevCompactionIndex?_none {path : List FileEntry}
    (h : ∀ e ∈ path, e.isCompaction = false) : prevCompactionIndex? path = none := by
  have hnone : path.reverse.findIdx? (·.isCompaction) = none := by
    rw [List.findIdx?_eq_none_iff]
    simpa using h
  rw [prevCompactionIndex?, hnone]
  rfl

/-- The latest compaction keeps entries that stand before it, or none of the path. -/
def KeepsEarlier (path : List FileEntry) : Prop :=
  ∀ pre c post, path = pre ++ c :: post → c.isCompaction = true →
    (∀ e ∈ post, e.isCompaction = false) → c.firstKeptEntryId ∉ (c :: post).map (·.id)

/-- The visible messages of a context are those of the path from `boundaryStart` on. -/
theorem context_messages {path : List FileEntry} (hnd : (path.map (·.id)).Nodup)
    (hkeeps : KeepsEarlier path) :
    (compactPath path).flatMap visibleMessages
      = (path.drop (boundaryStart path)).flatMap visibleMessages := by
  rcases latest_cases path with hnone | ⟨pre, c, post, rfl, hc, hpost⟩
  · rw [compactPath_of_none hnone, boundaryStart, prevCompactionIndex?_none hnone]
    rfl
  have hvisible : visibleMessages c = [] := if_pos hc
  have hprevious : (pre ++ c :: post)[pre.length]? = some c := by simp
  rw [compactPath_split hnd hc hpost, List.flatMap_cons, hvisible, List.nil_append,
    List.flatMap_append, boundaryStart, prevCompactionIndex?_split hc hpost]
  simp only [hprevious, Option.bind_some]
  have hlater := hkeeps pre c post rfl hc hpost
  by_cases hmem : c.firstKeptEntryId ∈ pre.map (·.id)
  · -- the first kept entry stands before the compaction
    obtain ⟨e, he, hid⟩ := List.mem_map.mp hmem
    obtain ⟨pre₁, pre₂, rfl⟩ := List.append_of_mem he
    have hnot : e.id ∉ pre₁.map (·.id) := by
      rw [List.append_assoc, List.map_append, List.cons_append, List.map_cons] at hnd
      exact fun hmem => (List.nodup_append.mp hnd).2.2 _ hmem _ List.mem_cons_self rfl
    rw [← hid, keptFrom_append hnot, List.append_assoc, List.cons_append,
      find_index_of_mem hnot, Option.getD_some, List.drop_left]
    rw [← List.cons_append, List.flatMap_append, List.flatMap_cons (x := c), hvisible,
      List.nil_append]
  · -- the first kept entry is not on the path
    have hnone : (pre ++ c :: post).findIdx? (·.id = c.firstKeptEntryId) = none := by
      rw [List.findIdx?_eq_none_iff]
      intro x hx
      refine decide_eq_false fun heq => ?_
      rcases List.mem_append.mp hx with hx | hx
      · exact hmem (heq ▸ List.mem_map_of_mem hx)
      · exact hlater (heq ▸ List.mem_map_of_mem hx)
    have hdrop : (pre ++ c :: post).drop (pre.length + 1) = post := by
      rw [← List.singleton_append, ← List.append_assoc]
      exact List.drop_left' (by simp)
    rw [keptFrom_of_notMem hmem, hnone, Option.getD_none, hdrop]
    rfl

/-! ## The cut point -/

theorem findValidCutPoints_bounds {entries : List FileEntry} {startIndex endIndex i : Nat}
    (h : i ∈ findValidCutPoints entries startIndex endIndex) : startIndex ≤ i ∧ i < endIndex := by
  obtain ⟨hrange, -⟩ := List.mem_filter.mp h
  rw [List.mem_range'_1] at hrange
  omega

theorem overMetadata_bounds (entries : List FileEntry) {startIndex : Nat} :
    ∀ {cutIndex : Nat}, startIndex ≤ cutIndex →
      startIndex ≤ overMetadata entries startIndex cutIndex ∧
        overMetadata entries startIndex cutIndex ≤ cutIndex
  | 0, h => by
    rw [overMetadata]
    omega
  | cutIndex + 1, h => by
    rw [overMetadata]
    split
    · rename_i hback
      have hle : startIndex ≤ cutIndex := by omega
      have := overMetadata_bounds entries hle
      omega
    · omega

/-- A valid cut point has a context message. -/
theorem findValidCutPoints_visible {entries : List FileEntry} {startIndex endIndex i : Nat}
    (h : i ∈ findValidCutPoints entries startIndex endIndex) :
    ∃ e, entries[i]? = some e ∧ sessionEntryToContextMessages e ≠ [] := by
  obtain ⟨-, hvalid⟩ := List.mem_filter.mp h
  obtain ⟨e, he, hvalid⟩ := (Option.any_eq_true _ _).mp hvalid
  refine ⟨e, he, fun hnil => ?_⟩
  rw [hnil, List.any_nil, Bool.and_false] at hvalid
  cases hvalid

/-- The cut that the budget gives is a valid one. -/
theorem budgetCut_mem {entries : List FileEntry} {startIndex endIndex first : Nat}
    {others : List Nat}
    (hcuts : findValidCutPoints entries startIndex endIndex = first :: others)
    (keepRecentTokens : Int) :
    (match budgetIndex entries startIndex keepRecentTokens (endIndex - startIndex) 0 with
      | some i => ((first :: others).find? (i ≤ ·)).getD first
      | none => first) ∈ findValidCutPoints entries startIndex endIndex := by
  rw [hcuts]
  split
  · rename_i i _
    cases hfind : (first :: others).find? (i ≤ ·) with
    | none => exact List.mem_cons_self
    | some cut => exact List.mem_of_find?_eq_some hfind
  · exact List.mem_cons_self

/-- The cut is inside the window, at or before a valid cut point where there is
one, and a split turn starts at or before it. -/
theorem findCutPoint_bounds {entries : List FileEntry} {startIndex endIndex : Nat}
    {keepRecentTokens : Int} {result : CutPointResult}
    (h : findCutPoint entries startIndex endIndex keepRecentTokens = result) :
    startIndex ≤ result.firstKeptEntryIndex ∧
      (result.isSplitTurn = true → ∃ turnStart, result.turnStartIndex = some turnStart ∧
        startIndex ≤ turnStart ∧ turnStart ≤ result.firstKeptEntryIndex) ∧
      (result.firstKeptEntryIndex = startIndex ∧ result.isSplitTurn = false ∨
        ∃ cut ∈ findValidCutPoints entries startIndex endIndex,
          result.firstKeptEntryIndex ≤ cut) := by
  subst h
  rw [findCutPoint]
  split
  · exact ⟨Nat.le_refl _, by simp, Or.inl ⟨rfl, rfl⟩⟩
  · rename_i first others hcuts
    have hbudget := budgetCut_mem hcuts keepRecentTokens
    obtain ⟨hlow, hhigh⟩ := overMetadata_bounds entries (findValidCutPoints_bounds hbudget).1
    dsimp only
    refine ⟨hlow, fun hsplit => ?_, Or.inr ⟨_, hbudget, hhigh⟩⟩
    simp only [Bool.and_eq_true, Bool.not_eq_true'] at hsplit
    obtain ⟨hstarts, hsome⟩ := hsplit
    obtain ⟨turnStart, hturn⟩ := Option.isSome_iff_exists.mp hsome
    refine ⟨turnStart, hturn, ?_⟩
    simp only [hstarts, Bool.false_eq_true, if_false] at hturn
    have hrange := List.mem_of_find?_eq_some hturn
    rw [List.mem_reverse, List.mem_range'_1] at hrange
    omega

/-! ## What is summarized -/

/-- An entry has at most one context message. -/
theorem getMessage_toList (entry : FileEntry) :
    (getMessageFromEntryForCompaction entry).toList = visibleMessages entry := by
  rw [getMessageFromEntryForCompaction, visibleMessages]
  split
  · rfl
  · rw [sessionEntryToContextMessages]
    split
    · split <;> rfl
    · rfl
    · split <;> rfl
    · rfl
    · rfl

theorem messagesBetween_eq (entries : List FileEntry) (startIndex endIndex : Nat) :
    messagesBetween entries startIndex endIndex
      = ((entries.take endIndex).drop startIndex).flatMap visibleMessages := by
  rw [messagesBetween, List.filterMap_eq_flatMap_toList]
  exact List.flatMap_congr fun e _ => getMessage_toList e

/-- Two adjacent windows make one. -/
theorem messagesBetween_append (entries : List FileEntry) {i j k : Nat} (hij : i ≤ j)
    (hjk : j ≤ k) : messagesBetween entries i j ++ messagesBetween entries j k
      = messagesBetween entries i k := by
  rw [messagesBetween_eq, messagesBetween_eq, messagesBetween_eq, ← List.flatMap_append]
  congr 1
  have htake : entries.take j = (entries.take k).take j := by
    rw [List.take_take, Nat.min_eq_left hjk]
  rw [htake]
  generalize entries.take k = es
  have hrest : (es.drop j).drop (i - (es.take j).length) = es.drop j := by
    rw [List.length_take]
    rcases Nat.le_total j es.length with hle | hle
    · rw [Nat.min_eq_left hle, Nat.sub_eq_zero_of_le hij, List.drop_zero]
    · rw [List.drop_of_length_le hle, List.drop_nil]
  conv_rhs => rw [← List.take_append_drop j es, List.drop_append, hrest]

/-- From a valid cut point on, something is visible. -/
theorem visible_from_cut {entries : List FileEntry} {startIndex endIndex firstKept cut : Nat}
    (hcut : cut ∈ findValidCutPoints entries startIndex endIndex) (hle : firstKept ≤ cut) :
    (entries.drop firstKept).flatMap sessionEntryToContextMessages ≠ [] := by
  obtain ⟨e, he, hvisible⟩ := findValidCutPoints_visible hcut
  have hmem : e ∈ entries.drop firstKept := by
    refine List.mem_of_getElem? (i := cut - firstKept) ?_
    rw [List.getElem?_drop, Nat.add_sub_cancel' hle, he]
  intro hnil
  exact hvisible (List.flatMap_eq_nil_iff.mp hnil e hmem)

/-- What is summarized is everything between `boundaryStart` and the first kept
entry; from that entry on, something is visible. -/
theorem prepareCompaction_spec {path : List FileEntry} {settings : CompactionSettings}
    {p : CompactionPreparation} (hp : prepareCompaction path settings = some (some p)) :
    ∃ firstKept, ∃ h : firstKept < path.length, boundaryStart path ≤ firstKept ∧
      p.firstKeptEntryId = path[firstKept].id ∧
      p.messagesToSummarize ++ p.turnPrefixMessages
        = messagesBetween path (boundaryStart path) firstKept ∧
      (path.drop firstKept).flatMap sessionEntryToContextMessages ≠ [] := by
  rw [prepareCompaction] at hp
  split at hp
  · cases hp
  obtain ⟨context, -, hp⟩ := Option.map_eq_some_iff.mp hp
  dsimp only at hp
  generalize hcut : findCutPoint path (boundaryStart path) path.length settings.keepRecentTokens
    = cut at hp
  obtain ⟨hstart, hturn, hvalid⟩ := findCutPoint_bounds hcut
  split at hp
  · cases hp
  rename_i id hid
  obtain ⟨entry, hentry, rfl⟩ := Option.map_eq_some_iff.mp (Option.filter_eq_some_iff.mp hid).1
  obtain ⟨hlt, rfl⟩ := List.getElem?_eq_some_iff.mp hentry
  refine ⟨cut.firstKeptEntryIndex, hlt, hstart, ?_⟩
  cases hsplit : cut.isSplitTurn with
  | false =>
    simp only [hsplit, Bool.false_eq_true, if_false] at hp
    split at hp
    · cases hp
    rename_i hsome
    obtain rfl := Option.some.inj hp
    refine ⟨rfl, List.append_nil _, ?_⟩
    rcases hvalid with ⟨hfirst, -⟩ | ⟨cutPoint, hcutPoint, hle⟩
    · -- without a cut point there is nothing to summarize, and no preparation
      refine absurd ⟨?_, trivial⟩ hsome
      rw [hfirst, messagesBetween_eq, List.drop_eq_nil_of_le (by simp)]
      rfl
    · exact visible_from_cut hcutPoint hle
  | true =>
    simp only [hsplit, if_true] at hp
    split at hp
    · cases hp
    obtain rfl := Option.some.inj hp
    obtain ⟨turnStart, hsome, hlow, hhigh⟩ := hturn hsplit
    refine ⟨rfl, ?_, ?_⟩
    · rw [hsome, Option.getD_some]
      exact messagesBetween_append path hlow hhigh
    · rcases hvalid with ⟨-, hno⟩ | ⟨cutPoint, hcutPoint, hle⟩
      · rw [hsplit] at hno
        cases hno
      · exact visible_from_cut hcutPoint hle

/-- **Compaction coverage**: what is summarized, then the visible messages that
are kept, are the visible messages of the context; and with the prepared
compaction appended, the context is that compaction and exactly what is kept. -/
theorem prepareCompaction_covers {path : List FileEntry} (hpath : RootToLeaf path)
    (hkeeps : KeepsEarlier path) {settings : CompactionSettings} {p : CompactionPreparation}
    (hp : prepareCompaction path settings = some (some p)) :
    (∃ context, buildContextEntries path none none = some context ∧
      p.messagesToSummarize ++ p.turnPrefixMessages
        ++ (keptFrom p.firstKeptEntryId path).flatMap visibleMessages
        = context.flatMap visibleMessages) ∧
    ∀ c : FileEntry, c.isCompaction = true → c.firstKeptEntryId = p.firstKeptEntryId →
      RootToLeaf (path ++ [c]) →
      buildContextEntries (path ++ [c]) none none =
        some (c :: keptFrom p.firstKeptEntryId path) := by
  obtain ⟨firstKept, hlt, hstart, hid, hsummarized, -⟩ := prepareCompaction_spec hp
  refine ⟨⟨compactPath path, ?_, ?_⟩, ?_⟩
  · rw [buildContextEntries, buildSessionPath_self hpath, Option.map_some]
  · have hall : messagesBetween path firstKept path.length
        = (path.drop firstKept).flatMap visibleMessages := by
      rw [messagesBetween_eq, List.take_length]
    have htotal : messagesBetween path (boundaryStart path) path.length
        = (path.drop (boundaryStart path)).flatMap visibleMessages := by
      rw [messagesBetween_eq, List.take_length]
    rw [context_messages hpath.nodup hkeeps, hsummarized, hid,
      keptFrom_getElem hpath.nodup hlt, ← hall,
      messagesBetween_append path hstart (Nat.le_of_lt hlt), htotal]
  · intro c hc hkept hext
    rw [buildContextEntries, buildSessionPath_self hext, Option.map_some,
      compactPath_append hext.nodup hc, hkept]

/-- Two user messages, a compaction that keeps the second, and another user message. -/
def compactedPath : List FileEntry :=
  let user (text : String) : EntryBody :=
    .message (.object [(js "role", .str (js "user")), (js "content", .str (js text))])
  [.create (js "a") none (js "t") (user "first"),
    .create (js "b") (some (js "a")) (js "t") (user "second"),
    .create (js "c") (some (js "b")) (js "t")
      (.compaction (js "summary") (js "b") (.ofNat 4) none none none),
    .create (js "d") (some (js "c")) (js "t") (user "third")]

theorem compactedPath_keepsEarlier : KeepsEarlier compactedPath := by
  intro pre c post hsplit hc _
  rcases pre with _ | ⟨first, _ | ⟨second, _ | ⟨third, _ | ⟨fourth, pre⟩⟩⟩⟩
  · cases hsplit
    cases hc
  · cases hsplit
    cases hc
  · cases hsplit
    decide
  · cases hsplit
    cases hc
  · simp [compactedPath] at hsplit

/-- The message that the first compaction keeps is summarized by the next one. -/
theorem prepareCompaction_covers_second : ∃ p,
    prepareCompaction compactedPath ⟨true, 0, 1⟩ = some (some p) ∧ p.firstKeptEntryId = js "d" ∧
      ∃ context, buildContextEntries compactedPath none none = some context ∧
        p.messagesToSummarize ++ p.turnPrefixMessages
          ++ (keptFrom p.firstKeptEntryId compactedPath).flatMap visibleMessages
          = context.flatMap visibleMessages := by
  have hpath : RootToLeaf compactedPath :=
    ⟨by simp [compactedPath, IsPath, FileEntry.parentLink]; decide, by decide⟩
  have hsome : ((prepareCompaction compactedPath ⟨true, 0, 1⟩).join.map (·.firstKeptEntryId))
      = some (js "d") := by decide
  obtain ⟨p, hp, hid⟩ := Option.map_eq_some_iff.mp hsome
  have hp' : prepareCompaction compactedPath ⟨true, 0, 1⟩ = some (some p) :=
    Option.join_eq_some_iff.mp hp
  exact ⟨p, hp', hid, (prepareCompaction_covers hpath compactedPath_keepsEarlier hp').1⟩

end PiMono
