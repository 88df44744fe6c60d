import PiMono.CodingAgent.EditDiff

/-!
# What the edits of a text match

`matchEdits` succeeds with the sorted places of the old texts exactly when every old text
is found, none is counted twice, and the places follow each other (`matchEdits_eq_ok`).
Places that are not empty follow each other when sorted exactly if no two overlap
(`isChain_mergeSort_iff`), which says nothing about the order of the edits.
-/

namespace PiMono.CodingAgent

variable {nfkc : JsString → JsString} {base path : JsString} {edits : List Edit}

/-- One place ends before the other one starts. -/
def Follows (a b : TextReplacement) : Prop := a.stop ≤ b.matchIndex

instance (a b : TextReplacement) : Decidable (Follows a b) :=
  inferInstanceAs (Decidable (a.stop ≤ b.matchIndex))

/-- Two places do not overlap. -/
def Apart (a b : TextReplacement) : Prop := Follows a b ∨ Follows b a

/-- Where the old text of an edit is found, with what replaces it. -/
def foundIn (nfkc : JsString → JsString) (base : JsString) (edit : Edit) : Option TextReplacement :=
  (fuzzyFindText nfkc base edit.oldText).map fun found =>
    ⟨found.index, found.matchLength, edit.newText⟩

/-- An old text that is counted more than once: in normalized form it occurs twice in the normalized
content without overlap, or it is empty and stands between all units. -/
def CountedTwice (nfkc : JsString → JsString) (content oldText : JsString) : Prop :=
  if normalizeForFuzzyMatch nfkc oldText = [] then
    2 < (normalizeForFuzzyMatch nfkc content).length
  else OccursTwice (normalizeForFuzzyMatch nfkc content) (normalizeForFuzzyMatch nfkc oldText)

instance (content oldText : JsString) : Decidable (CountedTwice nfkc content oldText) := by
  unfold CountedTwice
  infer_instance

theorem one_lt_countOccurrences {content oldText : JsString} :
    1 < countOccurrences nfkc content oldText ↔ CountedTwice nfkc content oldText := by
  unfold countOccurrences CountedTwice splitText
  by_cases hempty : normalizeForFuzzyMatch nfkc oldText = []
  · rw [if_pos hempty, if_pos hempty, List.length_map]
    omega
  · rw [if_neg hempty, if_neg hempty, ← two_lt_length_splitBy hempty]
    omega

/-- The old text is found, and not counted more than once. -/
def FoundOnce (nfkc : JsString → JsString) (base : JsString) (edit : Edit) : Prop :=
  (foundIn nfkc base edit).isSome = true ∧ ¬ 1 < countOccurrences nfkc base edit.oldText

theorem matchEdit_eq_ok {total i : Nat} {edit : Edit} {m : MatchedEdit} :
    matchEdit nfkc path base total i edit = .ok m ↔
      FoundOnce nfkc base edit ∧ m.editIndex = i ∧ foundIn nfkc base edit = some m.replacement := by
  unfold FoundOnce foundIn matchEdit
  cases hfound : fuzzyFindText nfkc base edit.oldText with
  | none => simp
  | some found =>
    by_cases hcount : 1 < countOccurrences nfkc base edit.oldText
    · simp [hcount]
    · obtain ⟨editIndex, replacement⟩ := m
      simp [hcount, eq_comm]

/-- The loop over the edits: it finds all of them, or throws. -/
theorem mapM_matchEdit {total : Nat} :
    ∀ {edits : List Edit} {k : Nat} {found : List TextReplacement},
    ((edits.zipIdx k).mapM fun (edit, i) => matchEdit nfkc path base total i edit).map
        (List.map MatchedEdit.replacement) = .ok found ↔
      (∀ e ∈ edits, FoundOnce nfkc base e) ∧ found = edits.filterMap (foundIn nfkc base)
  | [], k, found => by
    rw [List.zipIdx_nil, List.mapM_nil]
    constructor
    · intro h
      cases h
      exact ⟨fun _ hmem => absurd hmem List.not_mem_nil, rfl⟩
    · rintro ⟨-, rfl⟩
      rfl
  | edit :: edits, k, found => by
    rw [List.zipIdx_cons, Except.map_eq_ok]
    constructor
    · rintro ⟨ms, hms, rfl⟩
      obtain ⟨m, rest, hm, hrest, rfl⟩ := Except.mapM_cons_eq_ok.mp hms
      obtain ⟨honce, -, hfound⟩ := matchEdit_eq_ok.mp hm
      obtain ⟨hall, hmap⟩ := mapM_matchEdit.mp (Except.map_eq_ok.mpr ⟨rest, hrest, rfl⟩)
      rw [List.filterMap_cons_some hfound, List.map_cons, hmap]
      exact ⟨List.forall_mem_cons.mpr ⟨honce, hall⟩, rfl⟩
    · rintro ⟨hall, rfl⟩
      obtain ⟨honce, hall⟩ := List.forall_mem_cons.mp hall
      obtain ⟨r, hr⟩ := Option.isSome_iff_exists.mp honce.1
      obtain ⟨rest, hrest, hmap⟩ := Except.map_eq_ok.mp (mapM_matchEdit.mpr ⟨hall, rfl⟩)
      refine ⟨⟨k, r⟩ :: rest,
        Except.mapM_cons_eq_ok.mpr ⟨_, _, matchEdit_eq_ok.mpr ⟨honce, rfl, hr⟩, hrest, rfl⟩, ?_⟩
      rw [List.filterMap_cons_some hr, List.map_cons, hmap]

theorem checkEmpty_eq_ok {u : Unit} :
    checkEmpty path edits = .ok u ↔ ∀ e ∈ edits, e.oldText ≠ [] := by
  unfold checkEmpty
  cases hfind : edits.findIdx? fun edit => edit.oldText = [] with
  | none => simpa using hfind
  | some i =>
    obtain ⟨hlt, hempty, -⟩ := List.findIdx?_eq_some_iff_getElem.mp hfind
    constructor
    · intro h
      cases h
    · intro h
      exact absurd (of_decide_eq_true hempty) (h _ (List.getElem_mem hlt))

/-- The loop over the sorted edits finds no overlap. -/
theorem checkOverlaps_eq_ok : ∀ {ms : List MatchedEdit} {u : Unit},
    checkOverlaps path ms = .ok u ↔ (ms.map MatchedEdit.replacement).IsChain Follows
  | [], u => by simp [checkOverlaps]
  | [m], u => by simp [checkOverlaps]
  | previous :: current :: rest, u => by
    rw [checkOverlaps, List.map_cons, List.map_cons, List.isChain_cons_cons, ← List.map_cons]
    by_cases hlt : current.replacement.matchIndex < previous.replacement.stop
    · rw [if_pos hlt]
      constructor
      · intro h
        cases h
      · intro h
        exact absurd h.1 (Nat.not_le.mpr hlt)
    · rw [if_neg hlt, checkOverlaps_eq_ok]
      exact ⟨fun h => ⟨Nat.not_lt.mp hlt, h⟩, fun h => h.2⟩

/-- What matching the edits succeeds with, and when. -/
theorem matchEdits_eq_ok {content : JsString} {sorted : List TextReplacement} :
    (matchEdits nfkc content edits path).map (List.map MatchedEdit.replacement) = .ok sorted ↔
      (∀ e ∈ edits, e.oldText ≠ []) ∧
      (∀ e ∈ edits, FoundOnce nfkc (replacementBase nfkc content edits) e) ∧
      sorted = (edits.filterMap (foundIn nfkc (replacementBase nfkc content edits))).mergeSort
        matchOrder ∧
      sorted.IsChain Follows := by
  have hmap : ∀ ms : List MatchedEdit, (ms.mergeSort editOrder).map MatchedEdit.replacement
      = (ms.map MatchedEdit.replacement).mergeSort matchOrder := fun ms =>
    List.map_mergeSort fun _ _ _ _ => rfl
  rw [Except.map_eq_ok]
  unfold matchEdits
  constructor
  · rintro ⟨result, h, rfl⟩
    obtain ⟨_, hempty, h⟩ := Except.bind_eq_ok.mp h
    obtain ⟨ms, hms, h⟩ := Except.bind_eq_ok.mp h
    obtain ⟨_, hoverlaps, h⟩ := Except.bind_eq_ok.mp h
    cases h
    obtain ⟨honce, hfound⟩ := mapM_matchEdit.mp (Except.map_eq_ok.mpr ⟨ms, hms, rfl⟩)
    refine ⟨checkEmpty_eq_ok.mp hempty, honce, ?_, checkOverlaps_eq_ok.mp hoverlaps⟩
    rw [hmap, hfound]
  · rintro ⟨hempty, honce, rfl, hchain⟩
    obtain ⟨ms, hms, hfound⟩ := Except.map_eq_ok.mp (mapM_matchEdit.mpr ⟨honce, rfl⟩)
    rw [← hfound, ← hmap] at hchain ⊢
    refine ⟨_, ?_, rfl⟩
    exact Except.bind_eq_ok.mpr ⟨(), checkEmpty_eq_ok.mpr hempty, Except.bind_eq_ok.mpr
      ⟨ms, hms, Except.bind_eq_ok.mpr ⟨(), checkOverlaps_eq_ok.mpr hchain, rfl⟩⟩⟩

/-- What `applyEditsToNormalizedContent` succeeds with, and when. -/
theorem applyEdits_eq_ok {content : JsString} {result : AppliedEditsResult} :
    applyEditsToNormalizedContent nfkc content edits path = .ok result ↔
      ∃ sorted newContent,
        (matchEdits nfkc content (normalizeEdits edits) path).map (List.map MatchedEdit.replacement)
          = .ok sorted ∧
        replacedContent nfkc content (normalizeEdits edits) sorted = .ok newContent ∧
        content ≠ newContent ∧ result = ⟨content, newContent⟩ := by
  unfold applyEditsToNormalizedContent
  constructor
  · intro h
    obtain ⟨ms, hms, h⟩ := Except.bind_eq_ok.mp h
    obtain ⟨newContent, hnew, h⟩ := Except.bind_eq_ok.mp h
    by_cases hsame : content = newContent
    · rw [if_pos hsame] at h
      cases h
    · rw [if_neg hsame] at h
      cases h
      exact ⟨_, newContent, Except.map_eq_ok.mpr ⟨ms, hms, rfl⟩, hnew, hsame, rfl⟩
  · rintro ⟨sorted, newContent, hsorted, hnew, hsame, rfl⟩
    obtain ⟨ms, hms, rfl⟩ := Except.map_eq_ok.mp hsorted
    refine Except.bind_eq_ok.mpr ⟨ms, hms, Except.bind_eq_ok.mpr ⟨newContent, hnew, ?_⟩⟩
    rw [if_neg hsame]
    rfl

theorem applyReplacements_zero (content : JsString) (rs : List TextReplacement) :
    applyReplacements content rs 0 = replaceAll rs content := by
  have hshift : (fun r : TextReplacement => r.shift 0) = id := rfl
  rw [applyReplacements, hshift, List.map_id]

/-! ## Places in order -/

theorem matchOrder_trans (a b c : TextReplacement) (hab : matchOrder a b = true)
    (hbc : matchOrder b c = true) : matchOrder a c = true := by
  unfold matchOrder at hab hbc ⊢
  exact decide_eq_true ((of_decide_eq_true hab).trans (of_decide_eq_true hbc))

theorem matchOrder_total (a b : TextReplacement) : (matchOrder a b || matchOrder b a) = true := by
  unfold matchOrder
  rw [Bool.or_eq_true, decide_eq_true_eq, decide_eq_true_eq]
  exact Nat.le_total _ _

/-- Places that follow each other are in order. -/
theorem inOrder_of_isChain : ∀ {rs : List TextReplacement}, rs.IsChain Follows →
    ∀ start, (∀ r ∈ rs.head?, start ≤ r.matchIndex) → InOrder start rs
  | [], _, _, _ => trivial
  | [r], _, start, hstart => ⟨hstart r rfl, trivial⟩
  | r :: r' :: rs, h, start, hstart => by
    rw [List.isChain_cons_cons] at h
    refine ⟨hstart r rfl, inOrder_of_isChain h.2 r.stop fun r'' hr'' => ?_⟩
    obtain rfl := Option.some.inj hr''
    exact h.1

theorem pairwise_of_inOrder : ∀ {rs : List TextReplacement} {start : Nat}, InOrder start rs →
    rs.Pairwise Follows
  | [], _, _ => List.Pairwise.nil
  | _ :: _, _, h => List.Pairwise.cons h.2.le_matchIndex (pairwise_of_inOrder h.2)

/-- Sorted places follow each other exactly if none of them overlap. -/
theorem isChain_mergeSort_iff {rs : List TextReplacement} (hrs : ∀ r ∈ rs, 0 < r.matchLength) :
    (rs.mergeSort matchOrder).IsChain Follows ↔ rs.Pairwise Apart := by
  have hperm : (rs.mergeSort matchOrder).Perm rs := List.mergeSort_perm rs matchOrder
  have hsorted : (rs.mergeSort matchOrder).Pairwise fun a b => matchOrder a b = true :=
    List.pairwise_mergeSort matchOrder_trans matchOrder_total rs
  rw [← hperm.pairwise_iff fun h => h.symm]
  constructor
  · intro h
    exact (pairwise_of_inOrder (inOrder_of_isChain h 0 fun _ _ => Nat.zero_le _)).imp .inl
  · intro h
    refine List.Pairwise.isChain ?_
    refine (h.and hsorted).imp_of_mem fun {a b} ha hb hab => ?_
    rcases hab.1 with hfollows | hfollows
    · exact hfollows
    · -- a place that is not empty does not end before one that starts no later
      have hle : a.matchIndex ≤ b.matchIndex := of_decide_eq_true hab.2
      have hlt := hrs b (hperm.mem_iff.mp hb)
      unfold Follows at hfollows
      rw [Replacement.stop] at hfollows
      omega

/-- Two parts that start at one position overlap. -/
theorem length_filter_start {rs : List TextReplacement} (hapart : rs.Pairwise Apart)
    (hrs : ∀ r ∈ rs, 0 < r.matchLength) (p : Nat) :
    (rs.filter (·.matchIndex = p)).length ≤ 1 := by
  match hlist : rs.filter (·.matchIndex = p) with
  | [] =>
    rw [hlist]
    exact Nat.zero_le _
  | [_] =>
    rw [hlist]
    exact Nat.le_refl _
  | a :: b :: rest =>
    have hmem : ∀ r ∈ a :: b :: rest, r ∈ rs ∧ r.matchIndex = p := fun r hr => by
      rw [← hlist, List.mem_filter, decide_eq_true_eq] at hr
      exact hr
    have hpairs : (a :: b :: rest).Pairwise Apart := hlist ▸ hapart.filter _
    obtain ⟨ha, hastart⟩ := hmem a List.mem_cons_self
    obtain ⟨hb, hbstart⟩ := hmem b (List.mem_cons_of_mem _ List.mem_cons_self)
    have hapos := hrs a ha
    have hbpos := hrs b hb
    rcases (List.pairwise_cons.mp hpairs).1 b List.mem_cons_self with hab | hab <;>
    · unfold Follows Replacement.stop at hab
      omega

/-- No order of the parts matters where they do not overlap. -/
theorem rendered_perm {rs rs' : List TextReplacement} (hperm : rs.Perm rs')
    (hapart : rs.Pairwise Apart) (hrs : ∀ r ∈ rs, 0 < r.matchLength) (p : Nat) :
    rendered base rs p = rendered base rs' p := by
  have hsame : rs.filter (·.matchIndex = p) = rs'.filter (·.matchIndex = p) := by
    have hle := length_filter_start hapart hrs p
    have hsub := hperm.filter (fun r : TextReplacement => decide (r.matchIndex = p))
    generalize rs.filter (·.matchIndex = p) = as at hle hsub ⊢
    generalize rs'.filter (·.matchIndex = p) = bs at hsub ⊢
    match as with
    | [] => exact (List.nil_perm.mp hsub).symm
    | [a] => exact List.singleton_perm.mp hsub
    | _ :: _ :: _ => simp at hle
  have hany : rs.any (·.covers p) = rs'.any (·.covers p) := by
    rw [Bool.eq_iff_iff, List.any_eq_true, List.any_eq_true]
    exact exists_congr fun r => and_congr_left fun _ => hperm.mem_iff
  rw [rendered, rendered, hsame, hany]

theorem apart_symm {a b : TextReplacement} (h : Apart a b) : Apart b a := h.symm

end PiMono.CodingAgent
