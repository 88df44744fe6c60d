import PiMono.CodingAgent.EditMatches

/-!
# Edits of texts found verbatim

When every old text occurs verbatim, the edits succeed exactly if they are `Accepted`, and
write the content with the first occurrence of each old text replaced
(`applyEdits_verbatim`). Neither depends on the order of the edits. What `Accepted` leaves
open is whether the first occurrence is the only one: `countOccurrences` scans without
overlap, and in a normalized copy. `edits_simultaneous_iff` says which old texts it misses.
-/

namespace PiMono.CodingAgent

variable {nfkc : JsString → JsString} {content path : JsString} {edits edits' : List Edit}

/-! ## Line endings -/

theorem normalizeToLF_of_notMem : ∀ {s : JsString}, carriageReturn ∉ s → normalizeToLF s = s
  | [], _ => rfl
  | [u], h => by
    have hu : u ≠ carriageReturn := fun heq => h (by rw [heq]; exact List.mem_singleton_self _)
    rw [normalizeToLF, if_neg hu]
  | u :: v :: rest, h => by
    have hu : u ≠ carriageReturn := fun heq => h (by rw [heq]; exact List.mem_cons_self)
    have ih : normalizeToLF (v :: rest) = v :: rest :=
      normalizeToLF_of_notMem fun hmem => h (List.mem_cons_of_mem u hmem)
    rw [normalizeToLF, if_neg hu, ih]

/-! ## The first occurrences -/

/-- The first occurrence of the old text of an edit, and what replaces it. -/
def firstOccurrence (content : JsString) (e : Edit) : TextReplacement :=
  ⟨(indexOf? content e.oldText).getD 0, e.oldText.length, normalizeToLF e.newText⟩

/-- The content with the first occurrence of every old text replaced, and nothing else. -/
def substituted (content : JsString) (edits : List Edit) : JsString :=
  (List.range content.length).flatMap
    (rendered content (edits.map (firstOccurrence content)))

/-- What the checks of the edits ask for. -/
structure Accepted (nfkc : JsString → JsString) (content : JsString)
    (edits : List Edit) : Prop where
  nonempty : ∀ e ∈ edits, e.oldText ≠ []
  counted : ∀ e ∈ edits, ¬ 1 < countOccurrences nfkc content e.oldText
  apart : (edits.map (firstOccurrence content)).Pairwise Apart
  changed : substituted content edits ≠ content

theorem mem_occurrences_firstOccurrence {e : Edit} (h : e.oldText <:+: content) :
    (firstOccurrence content e).matchIndex ∈ occurrences content e.oldText := by
  obtain ⟨i, hi⟩ := Option.isSome_iff_exists.mp (indexOf?_isSome.mpr h)
  show (indexOf? content e.oldText).getD 0 ∈ _
  rw [hi]
  exact mem_of_indexOf? hi

/-- An occurrence of a text that is not empty is inside the content. -/
theorem firstOccurrence_inside {e : Edit} (h : e.oldText <:+: content) (hne : e.oldText ≠ []) :
    (firstOccurrence content e).matchIndex < content.length
      ∧ (firstOccurrence content e).stop ≤ content.length := by
  have hle := le_of_mem_occurrences (mem_occurrences_firstOccurrence h)
  have hpos := List.length_pos_iff.mpr hne
  refine ⟨by omega, ?_⟩
  show (firstOccurrence content e).matchIndex + e.oldText.length ≤ content.length
  exact hle

theorem fuzzyFindText_of_infix {s : JsString} (h : s <:+: content) :
    fuzzyFindText nfkc content s = some ⟨(indexOf? content s).getD 0, s.length, false⟩ := by
  obtain ⟨i, hi⟩ := Option.isSome_iff_exists.mp (indexOf?_isSome.mpr h)
  rw [fuzzyFindText, hi]
  rfl

/-- The order of the edits does not matter. -/
theorem Accepted.perm (h : Accepted nfkc content edits) (hperm : edits'.Perm edits) :
    Accepted nfkc content edits' ∧ substituted content edits' = substituted content edits := by
  have hplaces := (hperm.map (firstOccurrence content)).symm
  have hpos : ∀ r ∈ edits.map (firstOccurrence content), 0 < r.matchLength := by
    intro r hr
    obtain ⟨e, he, rfl⟩ := List.mem_map.mp hr
    exact List.length_pos_iff.mpr (h.nonempty e he)
  have hsubst : substituted content edits' = substituted content edits :=
    flatMap_congr fun p _ => (rendered_perm hplaces h.apart hpos p).symm
  refine ⟨⟨fun e he => h.nonempty e (hperm.mem_iff.mp he),
    fun e he => h.counted e (hperm.mem_iff.mp he),
    (hplaces.pairwise_iff apart_symm).mp h.apart, ?_⟩, hsubst⟩
  rw [hsubst]
  exact h.changed

/-! ## When the edits succeed -/

section Verbatim

variable (hlf : carriageReturn ∉ content) (hverbatim : ∀ e ∈ edits, e.oldText <:+: content)

include hlf hverbatim

theorem oldText_normalizeEdits {e : Edit} (he : e ∈ edits) : normalizeToLF e.oldText = e.oldText :=
  normalizeToLF_of_notMem fun hmem => hlf ((hverbatim e he).subset hmem)

theorem foundIn_verbatim {e : Edit} (he : e ∈ edits) :
    foundIn nfkc content ⟨normalizeToLF e.oldText, normalizeToLF e.newText⟩
      = some (firstOccurrence content e) := by
  unfold foundIn
  rw [oldText_normalizeEdits hlf hverbatim he, fuzzyFindText_of_infix (hverbatim e he)]
  rfl

theorem usedFuzzyMatch_verbatim (nfkc : JsString → JsString) :
    usedFuzzyMatch nfkc content (normalizeEdits edits) = false := by
  rw [usedFuzzyMatch, List.any_eq_false]
  intro edit hedit
  obtain ⟨e, he, rfl⟩ := List.mem_map.mp hedit
  rw [oldText_normalizeEdits hlf hverbatim he, fuzzyFindText_of_infix (hverbatim e he)]
  simp

theorem replacementBase_verbatim (nfkc : JsString → JsString) :
    replacementBase nfkc content (normalizeEdits edits) = content := by
  rw [replacementBase, usedFuzzyMatch_verbatim hlf hverbatim nfkc]
  rfl

theorem filterMap_foundIn_verbatim (nfkc : JsString → JsString) :
    (normalizeEdits edits).filterMap (foundIn nfkc content)
      = edits.map (firstOccurrence content) := by
  rw [normalizeEdits, List.filterMap_map, ← List.filterMap_eq_map]
  exact List.filterMap_congr fun e he => foundIn_verbatim hlf hverbatim he

/-- The edits succeed exactly if they are accepted, with their first occurrences replaced. -/
theorem applyEdits_verbatim {result : AppliedEditsResult} :
    applyEditsToNormalizedContent nfkc content edits path = .ok result ↔
      Accepted nfkc content edits ∧ result = ⟨content, substituted content edits⟩ := by
  have hbase := replacementBase_verbatim hlf hverbatim nfkc
  have hfuzzy := usedFuzzyMatch_verbatim hlf hverbatim nfkc
  have hfound := filterMap_foundIn_verbatim hlf hverbatim nfkc
  have hempty : (∀ e ∈ normalizeEdits edits, e.oldText ≠ []) ↔ ∀ e ∈ edits, e.oldText ≠ [] := by
    rw [normalizeEdits, List.forall_mem_map]
    exact forall₂_congr fun e he => by rw [oldText_normalizeEdits hlf hverbatim he]
  have honce : (∀ e ∈ normalizeEdits edits, FoundOnce nfkc content e) ↔
      ∀ e ∈ edits, ¬ 1 < countOccurrences nfkc content e.oldText := by
    rw [normalizeEdits, List.forall_mem_map]
    refine forall₂_congr fun e he => ?_
    rw [FoundOnce, foundIn_verbatim hlf hverbatim he, oldText_normalizeEdits hlf hverbatim he]
    simp
  -- what is written, once the places follow each other
  have hwritten : (∀ e ∈ edits, e.oldText ≠ []) →
      (edits.map (firstOccurrence content)).Pairwise Apart →
      replacedContent nfkc content (normalizeEdits edits)
          ((edits.map (firstOccurrence content)).mergeSort matchOrder)
        = .ok (substituted content edits) := by
    intro hne hapart
    have hperm := List.mergeSort_perm (edits.map (firstOccurrence content)) matchOrder
    have hpos : ∀ r ∈ edits.map (firstOccurrence content), 0 < r.matchLength := by
      intro r hr
      obtain ⟨e, he, rfl⟩ := List.mem_map.mp hr
      exact List.length_pos_iff.mpr (hne e he)
    have hinside : ∀ r ∈ (edits.map (firstOccurrence content)).mergeSort matchOrder,
        r.matchIndex < content.length ∧ r.stop ≤ content.length := by
      intro r hr
      obtain ⟨e, he, rfl⟩ := List.mem_map.mp (hperm.mem_iff.mp hr)
      exact firstOccurrence_inside (hverbatim e he) (hne e he)
    have horder : InOrder 0 ((edits.map (firstOccurrence content)).mergeSort matchOrder) :=
      inOrder_of_isChain ((isChain_mergeSort_iff hpos).mpr hapart) 0 fun _ _ => Nat.zero_le _
    rw [replacedContent, hfuzzy, hbase, applyReplacements_zero, replaceAll_eq horder hinside]
    refine congrArg Except.ok (flatMap_congr fun p _ => ?_)
    exact (rendered_perm hperm.symm hapart hpos p).symm
  rw [applyEdits_eq_ok]
  constructor
  · rintro ⟨sorted, newContent, hsorted, hnew, hchanged, rfl⟩
    rw [matchEdits_eq_ok, hbase, hfound, hempty, honce] at hsorted
    obtain ⟨hne, hcount, rfl, hchain⟩ := hsorted
    have hapart := (isChain_mergeSort_iff fun r hr => by
      obtain ⟨e, he, rfl⟩ := List.mem_map.mp hr
      exact List.length_pos_iff.mpr (hne e he)).mp hchain
    obtain rfl := Except.ok.inj ((hwritten hne hapart).symm.trans hnew)
    exact ⟨⟨hne, hcount, hapart, hchanged.symm⟩, rfl⟩
  · rintro ⟨haccepted, rfl⟩
    refine ⟨_, _, ?_, hwritten haccepted.nonempty haccepted.apart, haccepted.changed.symm, rfl⟩
    rw [matchEdits_eq_ok, hbase, hfound, hempty, honce]
    refine ⟨haccepted.nonempty, haccepted.counted, rfl, (isChain_mergeSort_iff ?_).mpr
      haccepted.apart⟩
    intro r hr
    obtain ⟨e, he, rfl⟩ := List.mem_map.mp hr
    exact List.length_pos_iff.mpr (haccepted.nonempty e he)

end Verbatim

/-! ## Unambiguous edits -/

/-- Every old text occurs at one position, overlapping occurrences counted. -/
def Unambiguous (content : JsString) (edits : List Edit) : Prop :=
  ∀ e ∈ edits, (occurrences content e.oldText).length = 1

/-- Success means that every old text occurs at one position, that no two of these places
overlap, that the places are replaced and nothing else, and that the order of the edits does not
matter. The new texts stand with LF line endings, as the content does. -/
def Simultaneous (nfkc : JsString → JsString) (content : JsString) (edits : List Edit)
    (path : JsString) : Prop :=
  ∀ result, applyEditsToNormalizedContent nfkc content edits path = .ok result →
    Unambiguous content edits ∧
    edits.Pairwise (fun a b => ∀ i ∈ occurrences content a.oldText,
      ∀ j ∈ occurrences content b.oldText,
        i + a.oldText.length ≤ j ∨ j + b.oldText.length ≤ i) ∧
    result.newContent = substituted content edits ∧
    ∀ edits', edits'.Perm edits → ∃ result',
      applyEditsToNormalizedContent nfkc content edits' path = .ok result' ∧
        result'.newContent = result.newContent

/-- Every old text that occurs more than once is counted more than once. -/
def Noticed (nfkc : JsString → JsString) (content : JsString) (edits : List Edit) : Prop :=
  ∀ e ∈ edits, 1 < (occurrences content e.oldText).length → CountedTwice nfkc content e.oldText

/-- One of the checks refuses the edits: a text is empty or counted twice, two places overlap, or
nothing changes. -/
def Refused (nfkc : JsString → JsString) (content : JsString) (edits : List Edit) : Prop :=
  (∃ e ∈ edits, e.oldText = [] ∨ CountedTwice nfkc content e.oldText) ∨
    ¬ (edits.map (firstOccurrence content)).Pairwise Apart ∨ substituted content edits = content

theorem accepted_iff_not_refused : Accepted nfkc content edits ↔ ¬ Refused nfkc content edits := by
  constructor
  · rintro h (⟨e, he, hempty | htwice⟩ | hapart | hsame)
    · exact h.nonempty e he hempty
    · exact h.counted e he (one_lt_countOccurrences.mpr htwice)
    · exact hapart h.apart
    · exact h.changed hsame
  · intro h
    refine ⟨fun e he hempty => h (.inl ⟨e, he, .inl hempty⟩), fun e he hcount => ?_, ?_,
      fun hsame => h (.inr (.inr hsame))⟩
    · exact h (.inl ⟨e, he, .inr (one_lt_countOccurrences.mp hcount)⟩)
    · by_contra hapart
      exact h (.inr (.inl hapart))

/-- The edits are simultaneous exactly if the count notices every old text that occurs more than
once, or another check refuses them. -/
theorem edits_simultaneous_iff (hlf : carriageReturn ∉ content)
    (hverbatim : ∀ e ∈ edits, e.oldText <:+: content) :
    Simultaneous nfkc content edits path ↔
      Noticed nfkc content edits ∨ Refused nfkc content edits := by
  constructor
  · intro hsim
    by_cases hrefused : Refused nfkc content edits
    · exact .inr hrefused
    · have haccepted := accepted_iff_not_refused.mpr hrefused
      have honce := (hsim _ ((applyEdits_verbatim hlf hverbatim).mpr ⟨haccepted, rfl⟩)).1
      refine .inl fun e he hmore => ?_
      rw [honce e he] at hmore
      exact absurd hmore (Nat.lt_irrefl 1)
  · intro h result hok
    obtain ⟨haccepted, rfl⟩ := (applyEdits_verbatim hlf hverbatim).mp hok
    have hnoticed := h.resolve_right (accepted_iff_not_refused.mp haccepted)
    have honce : Unambiguous content edits := fun e he => by
      have hsome := infix_iff_occurrences.mp (hverbatim e he)
      have hpos := List.length_pos_iff.mpr hsome
      by_contra hmore
      exact haccepted.counted e he (one_lt_countOccurrences.mpr (hnoticed e he (by omega)))
    refine ⟨honce, ?_, rfl, fun edits' hperm => ?_⟩
    · have hplace : ∀ e ∈ edits, ∀ i ∈ occurrences content e.oldText,
          i = (firstOccurrence content e).matchIndex := by
        intro e he i hi
        obtain ⟨j, hj⟩ := List.length_eq_one_iff.mp (honce e he)
        have hfirst := mem_occurrences_firstOccurrence (hverbatim e he)
        rw [hj, List.mem_singleton] at hi hfirst
        rw [hi, hfirst]
      refine (List.pairwise_map.mp haccepted.apart).imp_of_mem ?_
      intro a b ha hb hab i hi j hj
      rw [hplace a ha i hi, hplace b hb j hj]
      exact hab
    · obtain ⟨haccepted', hsame⟩ := haccepted.perm hperm
      have hverbatim' : ∀ e ∈ edits', e.oldText <:+: content := fun e he =>
        hverbatim e (hperm.mem_iff.mp he)
      exact ⟨_, (applyEdits_verbatim hlf hverbatim').mpr ⟨haccepted', rfl⟩, hsame⟩

/-- Two texts that occur once, in the other order. -/
theorem edits_simultaneous_iff_once :
    Simultaneous id (js "a b b") [⟨js "b b", js "d"⟩, ⟨js "a", js "c"⟩] (js "a.ts") := by
  refine (edits_simultaneous_iff (by decide) fun e he => ?_).mpr (.inl ?_)
  · rcases List.mem_cons.mp he with rfl | he
    · exact ⟨js "a ", [], by decide⟩
    · obtain rfl := List.mem_singleton.mp he
      exact ⟨[], js " b b", by decide⟩
  · unfold Noticed
    decide

/-- Three closing braces: two of them occur twice, but a scan without overlap finds them once. -/
theorem edits_not_simultaneous : ¬ ∀ (nfkc : JsString → JsString) (content : JsString)
    (edits : List Edit) (path : JsString), carriageReturn ∉ content → edits ≠ [] →
      (∀ e ∈ edits, e.oldText <:+: content) → Simultaneous nfkc content edits path := by
  intro h
  have hsim := h id (js "\x7d\n\x7d\n\x7d\n") [⟨js "\x7d\n\x7d\n", js "\x7d\n"⟩] (js "a.ts")
    (by decide) (by simp) (by
      intro e he
      obtain rfl := List.mem_singleton.mp he
      exact ⟨[], js "\x7d\n", by decide⟩)
  have hok : applyEditsToNormalizedContent id (js "\x7d\n\x7d\n\x7d\n")
      [⟨js "\x7d\n\x7d\n", js "\x7d\n"⟩] (js "a.ts")
      = .ok ⟨js "\x7d\n\x7d\n\x7d\n", js "\x7d\n\x7d\n"⟩ := by decide +kernel
  have hone := (hsim _ hok).1 _ List.mem_cons_self
  revert hone
  decide

end PiMono.CodingAgent
