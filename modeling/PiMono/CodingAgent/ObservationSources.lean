import PiMono.CodingAgent.MemoryMessage
import PiMono.Lib.GreedyFit

/-!
# The sources of an observation

What `selectObservationSources` (`core/memory.ts:14-34`) selects, against the text that it
then serializes. The loop adds a separator for every text but the first *entry*, the text
for every part but the first *part*: `countedLength` is what the loop counts, two more than
the text where the newest source says nothing.
-/

namespace PiMono

/-! ## The text of the sources -/

/-- The text of a list of sources. -/
def sourceText (sources : List FileEntry) : JsString :=
  serializeConversation (sources.map (·.message))

/-- The parts a source serializes to: none, one or several. -/
def sourceParts (source : FileEntry) : List JsString :=
  ((convertToLlm source.message).map LlmMessage.parts).getD []

theorem sourceText_eq (sources : List FileEntry) :
    sourceText sources = joinWith (js "\n\n") (sources.flatMap sourceParts) := by
  have hparts : ((sources.map (·.message)).filterMap convertToLlm).flatMap LlmMessage.parts
      = sources.flatMap sourceParts := by
    induction sources with
    | nil => rfl
    | cons source sources ih =>
      rw [List.map_cons, List.flatMap_cons, ← ih, sourceParts]
      cases hmessage : convertToLlm source.message <;> simp [hmessage]
  rw [sourceText, serializeConversation, hparts]

/-- No part is empty: each begins with who speaks. -/
theorem parts_ne_nil {message : LlmMessage} {part : JsString} (h : part ∈ message.parts) :
    part ≠ [] := by
  have hlabel (label : String) (text : JsString) (hne : js label ≠ []) :
      js label ++ text ≠ [] := by simp [hne]
  cases message with
  | user content =>
    simp only [LlmMessage.parts] at h
    split at h
    · rw [List.mem_singleton.mp h]
      exact hlabel _ _ (by decide)
    · simp at h
  | assistant content =>
    simp only [LlmMessage.parts, List.mem_append] at h
    rcases h with (h | h) | h <;> split at h <;> simp only [List.mem_singleton,
      List.not_mem_nil] at h
    all_goals
      rw [h]
      exact hlabel _ _ (by decide)
  | toolResult content =>
    simp only [LlmMessage.parts] at h
    split at h
    · rw [List.mem_singleton.mp h]
      exact hlabel _ _ (by decide)
    · simp at h

theorem sourceParts_ne_nil {source : FileEntry} {part : JsString} (h : part ∈ sourceParts source) :
    part ≠ [] := by
  unfold sourceParts at h
  cases hmessage : convertToLlm source.message with
  | none => simp [hmessage] at h
  | some message =>
    rw [hmessage] at h
    exact parts_ne_nil h

theorem joinWith_eq_nil {separator : JsString} {texts : List JsString}
    (h : ∀ text ∈ texts, text ≠ []) : joinWith separator texts = [] ↔ texts = [] := by
  cases texts with
  | nil => simp [joinWith]
  | cons text texts =>
    rw [joinWith_cons]
    simp [h text List.mem_cons_self]

theorem sourceText_eq_nil (sources : List FileEntry) :
    sourceText sources = [] ↔ sources.flatMap sourceParts = [] := by
  rw [sourceText_eq]
  refine joinWith_eq_nil fun part hpart => ?_
  obtain ⟨source, -, hsource⟩ := List.mem_flatMap.mp hpart
  exact sourceParts_ne_nil hsource

theorem length_joinWith_append (separator : JsString) (before behind : List JsString) :
    (joinWith separator (before ++ behind)).length
      = (joinWith separator before).length
        + (if before ≠ [] ∧ behind ≠ [] then separator.length else 0)
        + (joinWith separator behind).length := by
  cases before with
  | nil => simp [joinWith]
  | cons text before =>
    cases behind with
    | nil => simp [joinWith]
    | cons next behind =>
      simp only [length_joinWith, List.map_append, List.sum_append, List.length_append,
        List.length_cons, ne_eq, reduceCtorEq, not_false_eq_true, and_self, if_true]
      have hcount : before.length + 1 + (behind.length + 1) - 1
          = before.length + 1 + behind.length := by omega
      simp only [hcount, Nat.add_sub_cancel]
      ring

/-- The length of the text of one source more. -/
theorem length_sourceText_cons (source : FileEntry) (selected : List FileEntry) :
    (sourceText (source :: selected)).length
      = (sourceText [source]).length
        + (if sourceText selected ≠ [] ∧ sourceText [source] ≠ [] then 2 else 0)
        + (sourceText selected).length := by
  have hbreak : (js "\n\n").length = 2 := by decide
  have h := length_joinWith_append (js "\n\n") ([source].flatMap sourceParts)
    (selected.flatMap sourceParts)
  rw [← List.flatMap_append, List.singleton_append, ← sourceText_eq, ← sourceText_eq,
    ← sourceText_eq, hbreak] at h
  rw [h]
  simp only [ne_eq, sourceText_eq_nil, and_comm]

theorem sourceText_cons_eq_nil (source : FileEntry) (selected : List FileEntry) :
    sourceText (source :: selected) = [] ↔ sourceText [source] = [] ∧ sourceText selected = [] := by
  simp [sourceText_eq_nil]

theorem length_sourceText_mono {short long : List FileEntry} (h : short <:+ long) :
    (sourceText short).length ≤ (sourceText long).length := by
  obtain ⟨older, rfl⟩ := h
  induction older with
  | nil => exact Nat.le_refl _
  | cons source older ih =>
    rw [List.cons_append, length_sourceText_cons]
    omega

/-! ## What the loop counts -/

/-- The newest source serializes to no text. -/
def newestSilent (sources : List FileEntry) : Bool :=
  sources.getLast?.any fun newest => sourceText [newest] = []

/-- The `length` of the loop: a separator too many where only silent sources stand behind
the first text. -/
def countedLength (selected : List FileEntry) : Nat :=
  (sourceText selected).length
    + if newestSilent selected ∧ sourceText selected ≠ [] then 2 else 0

theorem newestSilent_cons {selected : List FileEntry} (source : FileEntry) (h : selected ≠ []) :
    newestSilent (source :: selected) = newestSilent selected := by
  rw [newestSilent, newestSilent, List.getLast?_cons_of_ne_nil h]

theorem newestSilent_suffix {short long : List FileEntry} (h : short <:+ long)
    (hne : short ≠ []) : newestSilent short = newestSilent long := by
  obtain ⟨older, rfl⟩ := h
  rw [newestSilent, newestSilent, List.getLast?_append_of_ne_nil _ hne]

theorem countedLength_singleton (source : FileEntry) :
    countedLength [source] = (sourceText [source]).length := by
  by_cases h : sourceText [source] = [] <;> simp [countedLength, newestSilent, h]

/-- Where nothing is said the newest source says nothing. -/
theorem newestSilent_of_nil {selected : List FileEntry} (h : selected ≠ [])
    (htext : sourceText selected = []) : newestSilent selected = true := by
  rw [newestSilent, List.getLast?_eq_some_getLast h, Option.any_some, decide_eq_true_eq]
  rw [sourceText_eq_nil, List.flatMap_eq_nil_iff] at htext ⊢
  intro source hsource
  rw [List.mem_singleton.mp hsource]
  exact htext _ (List.getLast_mem h)

/-- One turn of the loop, behind the first. -/
theorem countedLength_cons {selected : List FileEntry} (source : FileEntry) (h : selected ≠ []) :
    countedLength (source :: selected)
      = countedLength selected + (if sourceText [source] ≠ [] then 2 else 0)
        + (sourceText [source]).length := by
  rw [countedLength, countedLength, newestSilent_cons source h, length_sourceText_cons]
  by_cases hsource : sourceText [source] = []
  · have hnil : sourceText (source :: selected) = [] ↔ sourceText selected = [] := by
      simp [sourceText_cons_eq_nil, hsource]
    simp [hsource, hnil]
  · have hnil : sourceText (source :: selected) ≠ [] := by
      simp [sourceText_cons_eq_nil, hsource]
    by_cases hselected : sourceText selected = []
    · -- the first text, behind which silent sources stand
      have hsilent := newestSilent_of_nil h hselected
      simp only [hnil, hselected, hsilent, hsource, ne_eq, not_true_eq_false, not_false_eq_true,
        and_self, and_true, true_and, if_true, if_false, List.length_nil]
      omega
    · simp only [hnil, hselected, hsource, ne_eq, not_false_eq_true, and_true, and_self, if_true]
      omega

theorem countedLength_mono {short long : List FileEntry} (h : short <:+ long) (hne : short ≠ []) :
    countedLength short ≤ countedLength long := by
  have hlength := length_sourceText_mono h
  have hsilent := newestSilent_suffix h hne
  have htext : sourceText short ≠ [] → sourceText long ≠ [] := by
    intro hshort hlong
    rw [hlong] at hlength
    exact hshort (List.eq_nil_of_length_eq_zero (Nat.le_zero.mp hlength))
  rw [countedLength, countedLength, hsilent]
  split
  · rename_i hcond
    rw [if_pos ⟨hcond.1, htext hcond.2⟩]
    omega
  · omega

/-! ## What the loop selects -/

/-- The loop keeps these: the newest source, and more while the counted length fits. The
list runs backwards. -/
def SourcesFit (maxChars : Nat) (newestFirst : List FileEntry) : Prop :=
  newestFirst.length ≤ 1 ∨ countedLength newestFirst.reverse ≤ maxChars

instance (maxChars : Nat) : DecidablePred (SourcesFit maxChars) :=
  fun _ => inferInstanceAs (Decidable (_ ∨ _))

theorem SourcesFit.of_prefix {maxChars : Nat} {short long : List FileEntry} (h : short <+: long)
    (hlong : SourcesFit maxChars long) : SourcesFit maxChars short := by
  rcases hlong with hone | hfits
  · exact Or.inl (h.length_le.trans hone)
  · by_cases hne : short = []
    · exact Or.inl (by simp [hne])
    · refine Or.inr ((countedLength_mono (List.reverse_suffix.mpr h) ?_).trans hfits)
      simpa using hne

/-- The loop is the run of the sources, from the newest on, that fit. -/
theorem selectSources_eq_runFit (maxChars : Nat) (rest : List FileEntry) :
    ∀ selected : List FileEntry,
      (selectSources maxChars rest selected (countedLength selected)).reverse
        = runFit (SourcesFit maxChars) selected.reverse rest := by
  induction rest with
  | nil => exact fun _ => rfl
  | cons source rest ih =>
    intro selected
    have hreverse : selected.reverse ++ [source] = (source :: selected).reverse := by simp
    rw [runFit, hreverse, ← ih, selectSources]
    by_cases hne : selected = []
    · have hfits : SourcesFit maxChars (source :: selected).reverse := Or.inl (by simp [hne])
      have hnone : countedLength [] = 0 := rfl
      rw [if_pos hfits, hne, countedLength_singleton, hnone]
      simp [sourceText]
    · have htext : serializeConversation [source.message] = sourceText [source] := rfl
      have hcount := countedLength_cons source hne
      have hfits : SourcesFit maxChars (source :: selected).reverse
          ↔ countedLength (source :: selected) ≤ maxChars := by
        simp [SourcesFit, hne]
      simp only [htext, ne_eq, hne, not_false_eq_true, true_and] at hcount ⊢
      by_cases hmax : countedLength (source :: selected) ≤ maxChars
      · rw [if_pos (hfits.mpr hmax), if_neg (by rw [← hcount]; omega), ← hcount]
      · rw [if_neg (hfits.not.mpr hmax), if_pos (by rw [← hcount]; omega)]

section Selected

variable (sources : List FileEntry) (maxChars : Nat)

/-- The sources that the loop selects. -/
def selectedSources : List FileEntry := selectSources maxChars sources.reverse [] 0

theorem selectedSources_reverse :
    (selectedSources sources maxChars).reverse
      = runFit (SourcesFit maxChars) [] sources.reverse :=
  selectSources_eq_runFit maxChars sources.reverse []

theorem selectedSources_suffix : selectedSources sources maxChars <:+ sources := by
  rw [← List.reverse_prefix, selectedSources_reverse]
  exact runFit_prefix

theorem selectedSources_fits : SourcesFit maxChars (selectedSources sources maxChars).reverse := by
  rw [selectedSources_reverse]
  exact runFit_fits (Or.inl (by simp))

variable {sources maxChars}

theorem suffix_selectedSources {other : List FileEntry} (h : other <:+ sources)
    (hfits : SourcesFit maxChars other.reverse) : other <:+ selectedSources sources maxChars := by
  rw [← List.reverse_prefix, selectedSources_reverse]
  exact prefix_runFit SourcesFit.of_prefix List.nil_prefix (List.reverse_prefix.mpr h) hfits

/-- A single source may be too long. -/
theorem selectedSources_cases :
    countedLength (selectedSources sources maxChars) ≤ maxChars ∨
      ∃ newest, selectedSources sources maxChars = [newest] ∧
        maxChars < (sourceText [newest]).length := by
  rcases selectedSources_fits sources maxChars with hone | hfits
  · rw [List.length_reverse] at hone
    rcases Nat.lt_or_ge maxChars (countedLength (selectedSources sources maxChars)) with hmax | hmax
    · cases hselected : selectedSources sources maxChars with
      | nil =>
        rw [hselected] at hmax
        exact absurd hmax (Nat.not_lt_zero _)
      | cons newest rest =>
        obtain rfl : rest = [] := by
          rw [hselected, List.length_cons] at hone
          exact List.eq_nil_of_length_eq_zero (by omega)
        rw [hselected, countedLength_singleton] at hmax
        exact Or.inr ⟨newest, rfl, hmax⟩
    · exact Or.inl hmax
  · rw [List.reverse_reverse] at hfits
    exact Or.inl hfits

end Selected

/-! ## The selection and its text -/

/-- The ids of the longest suffix whose text fits, or of the newest source where not even
that fits, with the text of the suffix, of which only the end may be left. -/
def SelectsLongest (sources : List FileEntry) (maxTokens : Nat)
    (result : List JsString × JsString) : Prop :=
  ∃ selected, selected <:+ sources ∧ result.1 = selected.map (·.id) ∧
    result.2.length ≤ maxTokens * 4 ∧
    (((sourceText selected).length ≤ maxTokens * 4 ∧ result.2 = sourceText selected ∧
        ∀ other, other <:+ sources → (sourceText other).length ≤ maxTokens * 4 →
          other.length ≤ selected.length) ∨
      ∃ newest, selected = [newest] ∧ maxTokens * 4 < (sourceText [newest]).length ∧
        result.2 <:+ sourceText [newest])

/-- The separator that is counted too much is of no matter: the newest source says
something, or there is room for it behind every text that fits. -/
def SeparatorToSpare (sources : List FileEntry) (maxTokens : Nat) : Prop :=
  newestSilent sources = false ∨
    ∀ other, other <:+ sources → (sourceText other).length ≤ maxTokens * 4 →
      (sourceText other).length + 2 ≤ maxTokens * 4

/-- The text that goes with the selection. -/
theorem selectObservationSources_eq {maxTokens : Nat} (htokens : 0 < maxTokens)
    (sources : List FileEntry) :
    selectObservationSources sources maxTokens
      = ((selectedSources sources (maxTokens * 4)).map (·.id),
        (sourceText (selectedSources sources (maxTokens * 4))).drop
          ((sourceText (selectedSources sources (maxTokens * 4))).length - maxTokens * 4)) := by
  show (_, if _ then _ else _) = _
  split
  · rfl
  · rename_i hfits
    have hle : (sourceText (selectedSources sources (maxTokens * 4))).length ≤ maxTokens * 4 := by
      by_contra hlong
      exact hfits ⟨Nat.lt_of_not_le hlong, by omega⟩
    rw [Nat.sub_eq_zero_of_le hle]
    rfl

/-- **Source selection.** The longest suffix that fits is selected exactly where the
separator behind silent sources can be spared. -/
theorem selectObservationSources_longest_iff {maxTokens : Nat} (htokens : 0 < maxTokens)
    (sources : List FileEntry) :
    SelectsLongest sources maxTokens (selectObservationSources sources maxTokens)
      ↔ SeparatorToSpare sources maxTokens := by
  rw [selectObservationSources_eq htokens]
  constructor
  · rintro ⟨selected, hsuffix, hids, -, hlongest⟩
    -- the ids tell the length of the suffix, and so the suffix
    have hselected : selected = selectedSources sources (maxTokens * 4) := by
      have hlength := congrArg List.length hids
      simp only [List.length_map] at hlength
      exact (List.suffix_of_suffix_length_le hsuffix (selectedSources_suffix _ _)
        hlength.ge).eq_of_length hlength.symm
    by_contra hspare
    obtain ⟨hsilent, other, hother, hfits, hlong⟩ :
        newestSilent sources = true ∧ ∃ other, other <:+ sources ∧
          (sourceText other).length ≤ maxTokens * 4 ∧
          ¬ (sourceText other).length + 2 ≤ maxTokens * 4 := by
      simpa [SeparatorToSpare] using hspare
    have htext : sourceText other ≠ [] := by
      intro hnil
      rw [hnil, List.length_nil] at hlong
      omega
    have hne : other ≠ [] := by
      rintro rfl
      exact htext rfl
    have hcounted : countedLength other = (sourceText other).length + 2 := by
      rw [countedLength, newestSilent_suffix hother hne, hsilent, if_pos ⟨rfl, htext⟩]
    rcases hlongest with ⟨-, -, hlongest⟩ | ⟨newest, rfl, hnewest, -⟩
    · -- the other suffix is no longer than the selected one, which counts too much then
      have hshort : other <:+ selected :=
        List.suffix_of_suffix_length_le hother hsuffix (hlongest other hother hfits)
      have hfitsSelected := selectedSources_fits sources (maxTokens * 4)
      rw [← hselected] at hfitsSelected
      have hotherFits := hfitsSelected.of_prefix (List.reverse_prefix.mpr hshort)
      rcases hotherFits with hone | hcount
      · obtain ⟨source, rfl⟩ : ∃ source, other = [source] := by
          rw [List.length_reverse] at hone
          exact List.length_eq_one_iff.mp (Nat.le_antisymm hone (List.length_pos_of_ne_nil hne))
        rw [countedLength_singleton] at hcounted
        omega
      · rw [List.reverse_reverse] at hcount
        omega
    · have hnil : sourceText [newest] = [] := by
        rw [← newestSilent_suffix hsuffix (by simp)] at hsilent
        simpa [newestSilent] using hsilent
      rw [hnil] at hnewest
      exact absurd hnewest (Nat.not_lt_zero _)
  · intro hspare
    refine ⟨selectedSources sources (maxTokens * 4), selectedSources_suffix _ _, rfl, ?_, ?_⟩
    · show (List.drop _ _).length ≤ _
      rw [List.length_drop]
      omega
    · rcases @selectedSources_cases sources (maxTokens * 4) with hcount | ⟨newest, hone, hlong⟩
      · have hle : (sourceText (selectedSources sources (maxTokens * 4))).length
            ≤ maxTokens * 4 := (Nat.le_add_right _ _).trans hcount
        refine Or.inl ⟨hle, ?_, fun other hother hfits => ?_⟩
        · show List.drop _ _ = _
          rw [Nat.sub_eq_zero_of_le hle]
          rfl
        · by_cases hne : other = []
          · rw [hne]
            exact Nat.zero_le _
          · refine (suffix_selectedSources hother (Or.inr ?_)).length_le
            rw [List.reverse_reverse, countedLength, newestSilent_suffix hother hne]
            split
            · rename_i hsilent
              rcases hspare with hspoken | hroom
              · rw [hspoken] at hsilent
                exact absurd hsilent.1 (by decide)
              · exact hroom other hother hfits
            · exact hfits
      · refine Or.inr ⟨newest, hone, hlong, ?_⟩
        rw [hone]
        exact List.drop_suffix _ _

/-- A user message, and an assistant message without content behind it. -/
def saidThenSilent : List FileEntry :=
  [.create (js "1") none (js "t") (.message (.object [(js "role", .str (js "user")),
      (js "content", .str (js "abcd"))])),
    .create (js "2") (some (js "1")) (js "t") (.message (.object
      [(js "role", .str (js "assistant")), (js "content", .arr [])]))]

/-- Sixteen characters hold the twelve of `[User]: abcd` and two more. -/
theorem longest_of_four_tokens :
    SelectsLongest saidThenSilent 4 (selectObservationSources saidThenSilent 4) := by
  refine (selectObservationSources_longest_iff (by decide) saidThenSilent).mpr (.inr ?_)
  intro other hother
  have htails : ∀ tail ∈ saidThenSilent.tails, (sourceText tail).length ≤ 4 * 4 →
      (sourceText tail).length + 2 ≤ 4 * 4 := by decide
  exact htails other ((List.mem_tails other saidThenSilent).mpr hother)

/-- Twelve characters hold them too, but the loop selects the silent message alone. -/
theorem said_left_out :
    ¬ ∀ (sources : List FileEntry) (maxTokens : Nat), 0 < maxTokens →
      SelectsLongest sources maxTokens (selectObservationSources sources maxTokens) := by
  intro h
  have hresult : selectObservationSources saidThenSilent 3 = ([js "2"], []) := by decide
  obtain ⟨selected, hsuffix, hids, -, hlongest⟩ := h saidThenSilent 3 (by decide)
  rw [hresult] at hids hlongest
  have hlength : selected.length = 1 := by
    simpa using (congrArg List.length hids).symm
  rcases hlongest with ⟨-, -, hlongest⟩ | ⟨newest, rfl, hlong, -⟩
  · have hall := hlongest saidThenSilent List.suffix_rfl (by decide)
    rw [hlength] at hall
    exact absurd hall (by decide)
  · have hnewest : [newest] = saidThenSilent.drop 1 :=
      (List.suffix_of_suffix_length_le hsuffix (List.drop_suffix 1 _) (Nat.le_refl 1)).eq_of_length
        rfl
    rw [hnewest] at hlong
    exact absurd hlong (by decide)

end PiMono
