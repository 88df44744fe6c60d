import PiMono.CodingAgent.EditOverlay

/-!
# Edits of texts found in the normalized content

Once some old text is only found in the normalized content, all of them are matched
there, and the lines around the places found are kept (`applyEdits_fuzzy`). The places
are those of the normalized old texts if an old text found verbatim in the normalized
content is its own normalized form; `fuzzyEdits_faithful_iff` says what else the edits rely
on.
-/

namespace PiMono.CodingAgent

variable {nfkc : JsString → JsString} {content path : JsString} {edits : List Edit}

/-- What the edits rely on of `normalize("NFKC")`: the empty text stays empty, and a text that is
normalized stays so when trailing whitespace is taken off its lines and quotes, dashes and spaces
are replaced by ASCII ones, which do not compose with what is around them. -/
structure NfkcLaws (nfkc : JsString → JsString) : Prop where
  nil : nfkc [] = []
  stable : ∀ s, nfkc (normalizeForFuzzyMatch nfkc s) = normalizeForFuzzyMatch nfkc s

/-! ## The normalized form -/

/-- What becomes of a unit: only whitespace becomes a space, and nothing a newline. -/
theorem normalizeUnit_cases (u : UInt16) : normalizeUnit u = u ∨
    0xA0 ≤ u ∧ (normalizeUnit u = 0x27 ∨ normalizeUnit u = 0x22 ∨ normalizeUnit u = 0x2D ∨
      normalizeUnit u = 0x20 ∧ isTrimmed u = true) := by
  unfold normalizeUnit
  by_cases h₁ : 0x2018 ≤ u ∧ u ≤ 0x201B
  · rw [if_pos h₁]
    exact .inr ⟨by grind, .inl rfl⟩
  rw [if_neg h₁]
  by_cases h₂ : 0x201C ≤ u ∧ u ≤ 0x201F
  · rw [if_pos h₂]
    exact .inr ⟨by grind, .inr (.inl rfl)⟩
  rw [if_neg h₂]
  by_cases h₃ : (0x2010 ≤ u ∧ u ≤ 0x2015) ∨ u = 0x2212
  · rw [if_pos h₃]
    exact .inr ⟨by grind, .inr (.inr (.inl rfl))⟩
  rw [if_neg h₃]
  by_cases h₄ : u = 0xA0 ∨ (0x2002 ≤ u ∧ u ≤ 0x200A) ∨ u = 0x202F ∨ u = 0x205F ∨ u = 0x3000
  · rw [if_pos h₄]
    refine .inr ⟨by grind, .inr (.inr (.inr ⟨rfl, ?_⟩))⟩
    unfold isTrimmed
    simp
    grind
  · rw [if_neg h₄]
    exact .inl rfl

theorem normalizeUnit_idem (u : UInt16) : normalizeUnit (normalizeUnit u) = normalizeUnit u := by
  rcases normalizeUnit_cases u with h | ⟨-, h | h | h | ⟨h, -⟩⟩
  · rw [h, h]
  all_goals
    rw [h]
    rfl

theorem normalizeUnit_eq_newline {u : UInt16} : normalizeUnit u = newline ↔ u = newline := by
  constructor
  · intro hu
    rcases normalizeUnit_cases u with h | ⟨-, h | h | h | ⟨h, -⟩⟩
    · rw [← h, hu]
    all_goals
      rw [h] at hu
      exact absurd hu (by decide)
  · rintro rfl
    rfl

theorem isTrimmed_of_normalizeUnit {u : UInt16} (hu : isTrimmed (normalizeUnit u) = true) :
    isTrimmed u = true := by
  rcases normalizeUnit_cases u with h | ⟨-, h | h | h | ⟨-, h⟩⟩
  · rwa [h] at hu
  · rw [h] at hu
    exact absurd hu (by decide)
  · rw [h] at hu
    exact absurd hu (by decide)
  · rw [h] at hu
    exact absurd hu (by decide)
  · exact h

/-- A line of the normalized text does not end with whitespace. -/
theorem trimEnd_map_normalizeUnit (line : JsString) :
    trimEnd ((trimEnd line).map normalizeUnit) = (trimEnd line).map normalizeUnit := by
  rw [trimEnd, List.rdropWhile_eq_self_iff]
  intro hne hlast
  have hne' : trimEnd line ≠ [] := fun h => hne (by rw [h, List.map_nil])
  rw [List.getLast_map] at hlast
  exact List.rdropWhile_last_not isTrimmed line hne' (isTrimmed_of_normalizeUnit hlast)

theorem map_joinLines (f : UInt16 → UInt16) (hf : f newline = newline) :
    ∀ lines : List JsString, (joinLines lines).map f = joinLines (lines.map (List.map f))
  | [] => rfl
  | [line] => by rw [List.map_singleton, joinLines_singleton, joinLines_singleton]
  | line :: next :: lines => by
    have ih := map_joinLines f hf (next :: lines)
    have hne : (next :: lines).map (List.map f) ≠ [] := List.cons_ne_nil _ _
    rw [joinLines_cons (List.cons_ne_nil next lines), List.map_append, List.map_cons, hf, ih,
      List.map_cons (l := next :: lines), joinLines_cons hne]

/-- The lines of the normalized text. -/
def normalizedLines (nfkc : JsString → JsString) (text : JsString) : List JsString :=
  ((nfkc text).splitOn newline).map fun line => (trimEnd line).map normalizeUnit

theorem normalizeForFuzzyMatch_eq (nfkc : JsString → JsString) (text : JsString) :
    normalizeForFuzzyMatch nfkc text = joinLines (normalizedLines nfkc text) := by
  have hcomp : (fun line : JsString => (trimEnd line).map normalizeUnit)
      = List.map normalizeUnit ∘ trimEnd := rfl
  rw [normalizeForFuzzyMatch, map_joinLines _ (normalizeUnit_eq_newline.mpr rfl), normalizedLines,
    List.map_map, hcomp]

/-- What is normalized already stays as it is. -/
theorem NfkcLaws.idem (hnfkc : NfkcLaws nfkc) (text : JsString) :
    normalizeForFuzzyMatch nfkc (normalizeForFuzzyMatch nfkc text)
      = normalizeForFuzzyMatch nfkc text := by
  have hlines : (normalizeForFuzzyMatch nfkc text).splitOn newline = normalizedLines nfkc text := by
    rw [normalizeForFuzzyMatch_eq, joinLines]
    refine List.splitOn_intercalate newline (fun line hline hmem => ?_) ?_
    · obtain ⟨line', hline', rfl⟩ := List.mem_map.mp hline
      obtain ⟨u, hu, hnewline⟩ := List.mem_map.mp hmem
      rw [normalizeUnit_eq_newline] at hnewline
      exact notMem_of_mem_splitOn hline' (hnewline ▸ (List.rdropWhile_prefix _ _).subset hu)
    · intro hnil
      exact List.splitOn_ne_nil newline (nfkc text) (List.map_eq_nil_iff.mp hnil)
  have hsame : normalizedLines nfkc (normalizeForFuzzyMatch nfkc text) =
    normalizedLines nfkc text := by
    rw [normalizedLines, hnfkc.stable, hlines, normalizedLines, List.map_map]
    refine List.map_congr_left fun line _ => ?_
    show (trimEnd ((trimEnd line).map normalizeUnit)).map normalizeUnit = _
    rw [trimEnd_map_normalizeUnit, List.map_map]
    exact List.map_congr_left fun u _ => normalizeUnit_idem u
  rw [normalizeForFuzzyMatch_eq, hsame, ← normalizeForFuzzyMatch_eq]

/-! ## When the edits succeed -/

/-- The places found in a base, sorted. -/
def places (nfkc : JsString → JsString) (base : JsString) (edits : List Edit) :
    List TextReplacement :=
  ((normalizeEdits edits).filterMap (foundIn nfkc base)).mergeSort matchOrder

/-- The places found follow each other and fit the lines, which are as many as those of the
content. -/
structure Laid (nfkc : JsString → JsString) (content : JsString) (edits : List Edit) : Prop where
  follow : (places nfkc (normalizeForFuzzyMatch nfkc content) edits).IsChain Follows
  aligned : lineCount content = lineCount (normalizeForFuzzyMatch nfkc content)
  inside : ∀ r ∈ places nfkc (normalizeForFuzzyMatch nfkc content) edits,
    Inside (normalizeForFuzzyMatch nfkc content) r

/-- What the checks ask for when the edits are matched in the normalized content. -/
structure Checked (nfkc : JsString → JsString) (content : JsString) (edits : List Edit) : Prop
    extends Laid nfkc content edits where
  nonempty : ∀ e ∈ normalizeEdits edits, e.oldText ≠ []
  once : ∀ e ∈ normalizeEdits edits, FoundOnce nfkc (normalizeForFuzzyMatch nfkc content) e

theorem replacementBase_fuzzy (hfuzzy : usedFuzzyMatch nfkc content (normalizeEdits edits) = true) :
    replacementBase nfkc content (normalizeEdits edits) = normalizeForFuzzyMatch nfkc content := by
  rw [replacementBase, hfuzzy]
  rfl

/-- The edits succeed exactly if they pass the checks and change the content, with the places found
written over its lines. -/
theorem applyEdits_fuzzy (hfuzzy : usedFuzzyMatch nfkc content (normalizeEdits edits) = true)
    {result : AppliedEditsResult} :
    applyEditsToNormalizedContent nfkc content edits path = .ok result ↔
      Checked nfkc content edits ∧
      overlaid content (normalizeForFuzzyMatch nfkc content)
        (places nfkc (normalizeForFuzzyMatch nfkc content) edits) ≠ content ∧
      result = ⟨content, overlaid content (normalizeForFuzzyMatch nfkc content)
        (places nfkc (normalizeForFuzzyMatch nfkc content) edits)⟩ := by
  have hsorted : (places nfkc (normalizeForFuzzyMatch nfkc content) edits).mergeSort matchOrder
      = places nfkc (normalizeForFuzzyMatch nfkc content) edits :=
    List.mergeSort_of_pairwise (List.pairwise_mergeSort matchOrder_trans matchOrder_total _)
  rw [applyEdits_eq_ok]
  constructor
  · rintro ⟨sorted, newContent, hmatch, hnew, hchanged, rfl⟩
    rw [matchEdits_eq_ok, replacementBase_fuzzy hfuzzy] at hmatch
    obtain ⟨hempty, honce, rfl, hchain⟩ := hmatch
    rw [replacedContent, hfuzzy, if_pos rfl, replacementBase_fuzzy hfuzzy] at hnew
    obtain ⟨haligned, hinside, rfl⟩ := (applyReplacementsPreserving_eq_ok hchain hsorted).mp hnew
    exact ⟨⟨⟨hchain, haligned, hinside⟩, hempty, honce⟩, hchanged.symm, rfl⟩
  · rintro ⟨hchecked, hchanged, rfl⟩
    refine ⟨places nfkc (normalizeForFuzzyMatch nfkc content) edits, _, ?_, ?_, hchanged.symm, rfl⟩
    · rw [matchEdits_eq_ok, replacementBase_fuzzy hfuzzy]
      exact ⟨hchecked.nonempty, hchecked.once, rfl, hchecked.follow⟩
    · rw [replacedContent, hfuzzy, if_pos rfl, replacementBase_fuzzy hfuzzy]
      exact (applyReplacementsPreserving_eq_ok hchecked.follow hsorted).mpr
        ⟨hchecked.aligned, hchecked.inside, rfl⟩

/-! ## The places of the normalized old texts -/

/-- The normalized old text of an edit. -/
def normalizedOldText (nfkc : JsString → JsString) (e : Edit) : JsString :=
  normalizeForFuzzyMatch nfkc (normalizeToLF e.oldText)

/-- The first occurrence of the normalized old text, and what replaces it. -/
def fuzzyOccurrence (nfkc : JsString → JsString) (content : JsString) (e : Edit) :
    TextReplacement :=
  ⟨(indexOf? (normalizeForFuzzyMatch nfkc content) (normalizedOldText nfkc e)).getD 0,
    (normalizedOldText nfkc e).length, normalizeToLF e.newText⟩

/-- Every normalized old text is there, and occurs once. -/
def UniqueTexts (nfkc : JsString → JsString) (content : JsString) (edits : List Edit) : Prop :=
  ∀ e ∈ edits, normalizedOldText nfkc e ≠ [] ∧
    (occurrences (normalizeForFuzzyMatch nfkc content) (normalizedOldText nfkc e)).length = 1

/-- No two normalized old texts overlap. -/
def DisjointTexts (nfkc : JsString → JsString) (content : JsString) (edits : List Edit) : Prop :=
  (edits.map (fuzzyOccurrence nfkc content)).Pairwise Apart

/-- The content with the normalized old texts replaced: the lines of no occurrence as they are, the
others normalized. -/
def fuzzySubstituted (nfkc : JsString → JsString) (content : JsString) (edits : List Edit) :
    JsString :=
  overlaid content (normalizeForFuzzyMatch nfkc content) (edits.map (fuzzyOccurrence nfkc content))

/-- Edits with unique and disjoint old texts are applied, unless they change nothing; edits with an
old text that is empty or not unique are refused. -/
structure FuzzyFaithful (nfkc : JsString → JsString) (content : JsString) (edits : List Edit)
    (path : JsString) : Prop where
  applied : UniqueTexts nfkc content edits → DisjointTexts nfkc content edits →
    if fuzzySubstituted nfkc content edits = content then
      ∃ error, applyEditsToNormalizedContent nfkc content edits path = .error error
    else applyEditsToNormalizedContent nfkc content edits path
      = .ok ⟨content, fuzzySubstituted nfkc content edits⟩
  refused : ¬ UniqueTexts nfkc content edits →
    ∃ error, applyEditsToNormalizedContent nfkc content edits path = .error error

/-- Old texts that are unique and disjoint are their own normalized forms where they are found
verbatim in the normalized content: they do not end with whitespace that is found there. -/
def OwnForms (nfkc : JsString → JsString) (content : JsString) (edits : List Edit) : Prop :=
  UniqueTexts nfkc content edits → DisjointTexts nfkc content edits →
    ∀ e ∈ edits, normalizeToLF e.oldText <:+: normalizeForFuzzyMatch nfkc content →
      normalizedOldText nfkc e = normalizeToLF e.oldText

/-- An old text that the checks find out: it is empty, or not there, or counted twice. -/
def FoundOut (nfkc : JsString → JsString) (content : JsString) (e : Edit) : Prop :=
  normalizeToLF e.oldText = [] ∨
    (¬ normalizeToLF e.oldText <:+: normalizeForFuzzyMatch nfkc content ∧
      ¬ normalizedOldText nfkc e <:+: normalizeForFuzzyMatch nfkc content) ∨
    CountedTwice nfkc (normalizeForFuzzyMatch nfkc content) (normalizeToLF e.oldText)

/-- What the edits rely on. Unique and disjoint old texts: the content has as many lines as its
normalized form, unless nothing is to change. Other old texts: one of them is found out, the
places overlap or do not fit the lines, or nothing changes. -/
structure FuzzyReliable (nfkc : JsString → JsString) (content : JsString) (edits : List Edit) :
    Prop where
  aligned : UniqueTexts nfkc content edits → DisjointTexts nfkc content edits →
    fuzzySubstituted nfkc content edits ≠ content →
    lineCount content = lineCount (normalizeForFuzzyMatch nfkc content)
  noticed : ¬ UniqueTexts nfkc content edits →
    (∃ e ∈ edits, FoundOut nfkc content e) ∨ ¬ Laid nfkc content edits ∨
      overlaid content (normalizeForFuzzyMatch nfkc content)
        (places nfkc (normalizeForFuzzyMatch nfkc content) edits) = content

theorem exists_error_of_not_ok {result : Except JsString AppliedEditsResult}
    (h : ∀ value, result ≠ .ok value) : ∃ error, result = .error error := by
  cases result with
  | error error => exact ⟨error, rfl⟩
  | ok value => exact absurd rfl (h value)

section Unique

variable (hnfkc : NfkcLaws nfkc) (hunique : UniqueTexts nfkc content edits)

include hunique

theorem mem_occurrences_fuzzyOccurrence {e : Edit} (he : e ∈ edits) :
    (fuzzyOccurrence nfkc content e).matchIndex
      ∈ occurrences (normalizeForFuzzyMatch nfkc content) (normalizedOldText nfkc e) := by
  obtain ⟨i, hi⟩ := List.length_eq_one_iff.mp (hunique e he).2
  show (indexOf? _ _).getD 0 ∈ _
  rw [indexOf?_of_singleton hi, hi]
  exact List.mem_singleton_self i

theorem fuzzyOccurrence_inside {e : Edit} (he : e ∈ edits) :
    Inside (normalizeForFuzzyMatch nfkc content) (fuzzyOccurrence nfkc content e) := by
  have hle := le_of_mem_occurrences (mem_occurrences_fuzzyOccurrence hunique he)
  have hpos := List.length_pos_iff.mpr (hunique e he).1
  exact ⟨by omega, hle⟩

theorem fuzzyOccurrence_pos :
    ∀ r ∈ edits.map (fuzzyOccurrence nfkc content), 0 < r.matchLength := by
  intro r hr
  obtain ⟨e, he, rfl⟩ := List.mem_map.mp hr
  exact List.length_pos_iff.mpr (hunique e he).1

include hnfkc

/-- A text that is its own normalized form where it is found verbatim is found at its
occurrence. -/
theorem foundIn_fuzzy {e : Edit} (he : e ∈ edits)
    (hown : normalizeToLF e.oldText <:+: normalizeForFuzzyMatch nfkc content →
      normalizedOldText nfkc e = normalizeToLF e.oldText) :
    foundIn nfkc (normalizeForFuzzyMatch nfkc content)
      ⟨normalizeToLF e.oldText, normalizeToLF e.newText⟩ =
        some (fuzzyOccurrence nfkc content e) := by
  obtain ⟨i, hi⟩ := List.length_eq_one_iff.mp (hunique e he).2
  have hindex := indexOf?_of_singleton hi
  unfold foundIn fuzzyFindText fuzzyOccurrence
  by_cases hverbatim : normalizeToLF e.oldText <:+: normalizeForFuzzyMatch nfkc content
  · rw [hown hverbatim] at hindex ⊢
    rw [hindex]
    rfl
  · rw [indexOf?_eq_none.mpr hverbatim, hnfkc.idem]
    show Option.map _ (Option.map _ (indexOf? _ (normalizedOldText nfkc e))) = _
    rw [hindex]
    rfl

/-- A text that occurs once is not counted more than once. -/
theorem countOccurrences_fuzzy {e : Edit} (he : e ∈ edits) :
    ¬ 1 < countOccurrences nfkc (normalizeForFuzzyMatch nfkc content)
      (normalizeToLF e.oldText) := by
  obtain ⟨k, hk⟩ := List.length_eq_one_iff.mp (hunique e he).2
  rw [one_lt_countOccurrences, CountedTwice, hnfkc.idem]
  show ¬ (if normalizedOldText nfkc e = [] then _ else _)
  rw [if_neg (hunique e he).1]
  rintro ⟨i, hi, j, hj, hij⟩
  have hpos := List.length_pos_iff.mpr (hunique e he).1
  change i ∈ occurrences _ (normalizedOldText nfkc e) at hi
  change j ∈ occurrences _ (normalizedOldText nfkc e) at hj
  rw [hk, List.mem_singleton] at hi hj
  change i + (normalizedOldText nfkc e).length ≤ j at hij
  omega

/-- Unique and disjoint old texts pass the checks, at their occurrences. -/
theorem checked_fuzzy (hdisjoint : DisjointTexts nfkc content edits)
    (haligned : lineCount content = lineCount (normalizeForFuzzyMatch nfkc content))
    (hown : ∀ e ∈ edits, normalizeToLF e.oldText <:+: normalizeForFuzzyMatch nfkc content →
      normalizedOldText nfkc e = normalizeToLF e.oldText) :
    places nfkc (normalizeForFuzzyMatch nfkc content) edits
        = (edits.map (fuzzyOccurrence nfkc content)).mergeSort matchOrder ∧
      Checked nfkc content edits := by
  have hplaces : places nfkc (normalizeForFuzzyMatch nfkc content) edits
      = (edits.map (fuzzyOccurrence nfkc content)).mergeSort matchOrder := by
    rw [places, normalizeEdits, List.filterMap_map, ← List.filterMap_eq_map]
    refine congrArg (List.mergeSort · matchOrder) (List.filterMap_congr fun e he => ?_)
    exact foundIn_fuzzy hnfkc hunique he (hown e he)
  refine ⟨hplaces, ⟨⟨?_, haligned, ?_⟩, ?_, ?_⟩⟩
  · rw [hplaces]
    exact (isChain_mergeSort_iff (fuzzyOccurrence_pos hunique)).mpr hdisjoint
  · intro r hr
    rw [hplaces, (List.mergeSort_perm _ _).mem_iff] at hr
    obtain ⟨e, he, rfl⟩ := List.mem_map.mp hr
    exact fuzzyOccurrence_inside hunique he
  · rw [normalizeEdits, List.forall_mem_map]
    intro e he hnil
    have hnil' : normalizeToLF e.oldText = [] := hnil
    have hempty : normalizedOldText nfkc e = [] := by
      rw [normalizedOldText, hnil', normalizeForFuzzyMatch, hnfkc.nil]
      rfl
    exact (hunique e he).1 hempty
  · rw [normalizeEdits, List.forall_mem_map]
    intro e he
    refine ⟨?_, countOccurrences_fuzzy hnfkc hunique he⟩
    rw [foundIn_fuzzy hnfkc hunique he (hown e he)]
    rfl

end Unique

/-- An old text that is not found out is there, and not counted twice. -/
theorem foundOnce_iff (hnfkc : NfkcLaws nfkc) {e : Edit} (hne : normalizeToLF e.oldText ≠ []) :
    FoundOnce nfkc (normalizeForFuzzyMatch nfkc content)
      ⟨normalizeToLF e.oldText, normalizeToLF e.newText⟩ ↔ ¬ FoundOut nfkc content e := by
  have hfound : (foundIn nfkc (normalizeForFuzzyMatch nfkc content)
      ⟨normalizeToLF e.oldText, normalizeToLF e.newText⟩).isSome = true ↔
        normalizeToLF e.oldText <:+: normalizeForFuzzyMatch nfkc content ∨
          normalizedOldText nfkc e <:+: normalizeForFuzzyMatch nfkc content := by
    rw [foundIn, Option.isSome_map, fuzzyFindText, hnfkc.idem]
    cases hindex : indexOf? (normalizeForFuzzyMatch nfkc content) (normalizeToLF e.oldText) with
    | some i =>
      exact iff_of_true rfl (.inl (indexOf?_isSome.mp (by rw [hindex]; rfl)))
    | none =>
      rw [or_iff_right (indexOf?_eq_none.mp hindex), ← indexOf?_isSome]
      show (Option.map _ _).isSome = true ↔ _
      rw [Option.isSome_map]
      rfl
  rw [FoundOnce, hfound, one_lt_countOccurrences, FoundOut, or_iff_right hne, not_or, not_and_or,
    not_not, not_not]

theorem checked_iff (hnfkc : NfkcLaws nfkc) : Checked nfkc content edits ↔
    Laid nfkc content edits ∧ ∀ e ∈ edits, ¬ FoundOut nfkc content e := by
  constructor
  · intro h
    refine ⟨h.toLaid, fun e he => ?_⟩
    have hmem := List.mem_map_of_mem (f := fun e : Edit =>
      (⟨normalizeToLF e.oldText, normalizeToLF e.newText⟩ : Edit)) he
    exact (foundOnce_iff hnfkc (h.nonempty _ hmem)).mp (h.once _ hmem)
  · rintro ⟨hlaid, hfound⟩
    have hne : ∀ e ∈ edits, normalizeToLF e.oldText ≠ [] := fun e he hnil =>
      hfound e he (.inl hnil)
    refine ⟨hlaid, ?_, ?_⟩
    · rw [normalizeEdits, List.forall_mem_map]
      exact hne
    · rw [normalizeEdits, List.forall_mem_map]
      exact fun e he => (foundOnce_iff hnfkc (hne e he)).mpr (hfound e he)

theorem nfkcLaws_id : NfkcLaws id := ⟨rfl, fun _ => rfl⟩

end PiMono.CodingAgent
