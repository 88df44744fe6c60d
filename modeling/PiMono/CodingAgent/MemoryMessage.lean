import PiMono.CodingAgent.CurrentRequest
import PiMono.Lib.GreedyFit

/-!
# The memory message

`buildMemoryContextMessage` (`session-manager.ts:425-465`) spends a share of the token
limit on each section. `sectionText` is a section as the message shows it,
`sectionLength` what it takes of the message with the break in front of it, and
`MemorySelection` says which records are listed, without the running counts.
-/

namespace PiMono

/-! ## What a section takes -/

/-- A record among the memories of the session says that it is superseded. -/
def Superseded (memories : List MemoryEntry) (id : JsString) : Prop :=
  ∃ m ∈ memories, m.kind = .supersedes ∧ id ∈ m.supersedes

/-- The records of a section that are not superseded, in the order of the path. -/
def sectionRecords (path : List FileEntry) (sec : MemorySection) : List MemoryEntry :=
  (activeMemories (path.filterMap FileEntry.memory?)).filter (·.kind = sec.kind)

/-- The characters a section may take. -/
def sectionBudget (sec : MemorySection) (maxTokens : Nat) : Nat :=
  maxTokens * sec.tokens * 4 / memoryContextMaxTokens

/-- A section with these records. -/
def sectionText (sec : MemorySection) (records : List MemoryEntry) : JsString :=
  js "## " ++ js sec.heading ++ js "\n" ++ joinWith (js "\n") (records.map memoryLine)

/-- What the records take of the message; `headed` where a section stands before. -/
def sectionLength (sec : MemorySection) (headed : Bool) (records : List MemoryEntry) : Nat :=
  if records = [] then 0 else (if headed then 2 else 0) + (sectionText sec records).length

/-- The records fit the budget of the section. -/
def SectionFits (sec : MemorySection) (headed : Bool) (maxTokens : Nat)
    (records : List MemoryEntry) : Prop :=
  sectionLength sec headed records ≤ sectionBudget sec maxTokens

instance (sec : MemorySection) (headed : Bool) (maxTokens : Nat) :
    DecidablePred (SectionFits sec headed maxTokens) :=
  fun _ => inferInstanceAs (Decidable (_ ≤ _))

variable {sec : MemorySection} {headed : Bool} {maxTokens : Nat}

theorem length_joinWith (separator : JsString) (texts : List JsString) :
    (joinWith separator texts).length
      = (texts.map List.length).sum + (texts.length - 1) * separator.length := by
  cases texts with
  | nil => simp [joinWith]
  | cons text texts =>
    have htail : (texts.flatMap (separator ++ ·)).length
        = (texts.map List.length).sum + texts.length * separator.length := by
      induction texts with
      | nil => simp
      | cons next texts ih =>
        rw [List.flatMap_cons, List.length_append, List.length_append, ih]
        simp only [List.map_cons, List.sum_cons, List.length_cons, Nat.succ_mul]
        omega
    rw [joinWith_cons, List.length_append, htail]
    simp only [List.map_cons, List.sum_cons, List.length_cons, Nat.add_sub_cancel]
    omega

theorem length_sectionText (records : List MemoryEntry) :
    (sectionText sec records).length = (js "## " ++ js sec.heading ++ js "\n").length
      + ((records.map (List.length ∘ memoryLine)).sum + (records.length - 1)) := by
  have hbreak : (js "\n").length = 1 := by decide
  rw [sectionText, List.length_append, length_joinWith, List.map_map, List.length_map, hbreak,
    Nat.mul_one]

/-- The order of the lines is of no matter for what they take. -/
theorem sectionLength_reverse (records : List MemoryEntry) :
    sectionLength sec headed records.reverse = sectionLength sec headed records := by
  simp only [sectionLength, length_sectionText, List.map_reverse, List.sum_reverse,
    List.length_reverse, List.reverse_eq_nil_iff]

/-- What one more line takes. -/
theorem sectionLength_append (records : List MemoryEntry) (m : MemoryEntry) :
    sectionLength sec headed (records ++ [m]) = sectionLength sec headed records
      + ((if records = [] then (if headed then 2 else 0)
            + (js "## " ++ js sec.heading ++ js "\n").length
          else 1) + (memoryLine m).length) := by
  have hsome : records ++ [m] ≠ [] := by simp
  rw [sectionLength, if_neg hsome, length_sectionText, sectionLength]
  by_cases hnone : records = []
  · subst hnone
    simp
    omega
  · have hpos : 0 < records.length := List.length_pos_of_ne_nil hnone
    rw [if_neg hnone, if_neg hnone, length_sectionText]
    simp only [List.map_append, List.sum_append, List.length_append, List.map_cons, List.map_nil,
      List.sum_cons, List.sum_nil, List.length_cons, List.length_nil, Function.comp_apply]
    omega

theorem sectionLength_mono {short long : List MemoryEntry} (h : short <+: long) :
    sectionLength sec headed short ≤ sectionLength sec headed long := by
  obtain ⟨tail, rfl⟩ := h
  induction tail using List.reverseRecOn with
  | nil => rw [List.append_nil]
  | append_singleton tail m ih =>
    rw [← List.append_assoc, sectionLength_append]
    omega

/-! ## The choice within a section -/

theorem sectionFits_nil : SectionFits sec headed maxTokens [] := Nat.zero_le _

/-- The test of the loop is whether the record still fits behind the others. -/
theorem sectionFits_append {chosen : List MemoryEntry} (m : MemoryEntry)
    (hfits : SectionFits sec headed maxTokens chosen) :
    (sectionBudget sec maxTokens - sectionLength sec headed chosen <
        (if chosen = [] then (if headed then 2 else 0)
            + (js "## " ++ js sec.heading ++ js "\n").length
          else 1) + (memoryLine m).length) ↔
      ¬ SectionFits sec headed maxTokens (chosen ++ [m]) := by
  rw [SectionFits] at hfits
  rw [SectionFits, sectionLength_append]
  omega

/-- A section that is not chronological takes every record that still fits. -/
theorem pickMemories_greedy (hsec : sec.chronological = false) :
    ∀ {rest chosen : List MemoryEntry}, SectionFits sec headed maxTokens chosen →
      pickMemories sec headed (sectionBudget sec maxTokens - sectionLength sec headed chosen) chosen
          (chosen.map memoryLine) rest
        = (greedyFit (SectionFits sec headed maxTokens) chosen rest,
          (greedyFit (SectionFits sec headed maxTokens) chosen rest).map memoryLine)
  | [], _, _ => by rw [pickMemories, greedyFit]
  | m :: rest, chosen, hfits => by
    simp only [pickMemories, greedyFit, hsec, List.map_eq_nil_iff, sectionFits_append m hfits]
    by_cases hnext : SectionFits sec headed maxTokens (chosen ++ [m])
    · rw [if_neg (not_not_intro hnext), if_pos hnext, Nat.sub_sub, ← sectionLength_append]
      have hlines : chosen.map memoryLine ++ [memoryLine m] = (chosen ++ [m]).map memoryLine := by
        rw [List.map_append, List.map_singleton]
      rw [if_neg Bool.false_ne_true, hlines]
      exact pickMemories_greedy hsec hnext
    · rw [if_pos hnext, if_neg hnext, if_neg Bool.false_ne_true]
      exact pickMemories_greedy hsec hfits

/-- A chronological section takes records as long as they fit, and writes them in the
order of the path. -/
theorem pickMemories_run (hsec : sec.chronological = true) :
    ∀ {rest chosen : List MemoryEntry}, SectionFits sec headed maxTokens chosen →
      pickMemories sec headed (sectionBudget sec maxTokens - sectionLength sec headed chosen) chosen
          (chosen.reverse.map memoryLine) rest
        = (runFit (SectionFits sec headed maxTokens) chosen rest,
          (runFit (SectionFits sec headed maxTokens) chosen rest).reverse.map memoryLine)
  | [], _, _ => by rw [pickMemories, runFit]
  | m :: rest, chosen, hfits => by
    simp only [pickMemories, runFit, hsec, List.map_eq_nil_iff, List.reverse_eq_nil_iff,
      sectionFits_append m hfits]
    by_cases hnext : SectionFits sec headed maxTokens (chosen ++ [m])
    · rw [if_neg (not_not_intro hnext), if_pos hnext, Nat.sub_sub, ← sectionLength_append]
      have hlines : memoryLine m :: chosen.reverse.map memoryLine
          = (chosen ++ [m]).reverse.map memoryLine := by
        rw [List.reverse_append, List.reverse_singleton, List.singleton_append, List.map_cons]
      rw [if_pos trivial, hlines]
      exact pickMemories_run hsec hnext
    · rw [if_pos hnext, if_neg hnext, if_pos trivial]

/-! ## The sections of the message -/

/-- The latest run of records that fits, in the order of the path. -/
structure IsLatestRun (fits : List MemoryEntry → Prop) (records run : List MemoryEntry) :
    Prop where
  suffix : run <:+ records
  within : fits run
  longest : ∀ other, other <:+ records → fits other → other <:+ run

/-- The records chosen newest first, each where it still fits. -/
def newestFirst (path : List FileEntry) (sec : MemorySection) (headed : Bool) (maxTokens : Nat) :
    List MemoryEntry :=
  greedyFit (SectionFits sec headed maxTokens) [] (sectionRecords path sec).reverse

/-- The latest run of records that fits, as the loop finds it. -/
def latestRun (path : List FileEntry) (sec : MemorySection) (headed : Bool) (maxTokens : Nat) :
    List MemoryEntry :=
  (runFit (SectionFits sec headed maxTokens) [] (sectionRecords path sec).reverse).reverse

theorem latestRun_spec (path : List FileEntry) (sec : MemorySection) (headed : Bool)
    (maxTokens : Nat) : IsLatestRun (SectionFits sec headed maxTokens) (sectionRecords path sec)
      (latestRun path sec headed maxTokens) := by
  have hreverse : ∀ records, SectionFits sec headed maxTokens records →
      SectionFits sec headed maxTokens records.reverse := by
    intro records hfits
    rwa [SectionFits, sectionLength_reverse]
  have hclosed : ∀ {short long : List MemoryEntry}, short <+: long →
      SectionFits sec headed maxTokens long → SectionFits sec headed maxTokens short :=
    fun hshort hlong => (sectionLength_mono hshort).trans hlong
  constructor
  · rw [latestRun, ← List.reverse_prefix, List.reverse_reverse]
    exact runFit_prefix
  · exact hreverse _ (runFit_fits sectionFits_nil)
  · intro other hother hfits
    rw [latestRun, ← List.reverse_prefix, List.reverse_reverse]
    rw [← List.reverse_prefix] at hother
    exact prefix_runFit hclosed List.nil_prefix hother (hreverse other hfits)

theorem newestFirst_sublist (path : List FileEntry) :
    (newestFirst path sec headed maxTokens).reverse.Sublist (sectionRecords path sec) := by
  have h : (newestFirst path sec headed maxTokens).Sublist (sectionRecords path sec).reverse :=
    greedyFit_sublist
  rwa [← List.reverse_sublist, List.reverse_reverse] at h

/-- No record of a section is superseded. -/
theorem not_superseded {path : List FileEntry} {m : MemoryEntry} (h : m ∈ sectionRecords path sec) :
    ¬ Superseded (path.filterMap FileEntry.memory?) m.id := by
  rintro ⟨decision, hdecision, hkind, hid⟩
  obtain ⟨hactive, -⟩ := List.mem_filter.mp h
  rw [activeMemories, List.mem_filter, decide_eq_true_eq] at hactive
  refine hactive.2.2 (List.mem_flatMap.mpr ⟨decision, hdecision, ?_⟩)
  rwa [if_pos hkind]

/-- The texts of the sections that list a record. -/
def shownSections (listed : List (MemorySection × List MemoryEntry)) : List JsString :=
  listed.flatMap fun (sec, records) => if records = [] then [] else [sectionText sec records]

/-- The loop over the records of a section, from its start. -/
theorem pickMemories_newestFirst (hsec : sec.chronological = false) (path : List FileEntry)
    (headed : Bool) (maxTokens : Nat) :
    pickMemories sec headed (sectionBudget sec maxTokens) [] [] (sectionRecords path sec).reverse
      = (newestFirst path sec headed maxTokens,
        (newestFirst path sec headed maxTokens).map memoryLine) :=
  pickMemories_greedy hsec sectionFits_nil

theorem pickMemories_latestRun (hsec : sec.chronological = true) (path : List FileEntry)
    (headed : Bool) (maxTokens : Nat) :
    pickMemories sec headed (sectionBudget sec maxTokens) [] [] (sectionRecords path sec).reverse
      = ((latestRun path sec headed maxTokens).reverse,
        (latestRun path sec headed maxTokens).map memoryLine) := by
  rw [latestRun, List.reverse_reverse]
  exact pickMemories_run hsec sectionFits_nil

/-- What one turn of the loop over the sections adds. -/
theorem memorySections_step {path : List FileEntry} {sections : List JsString}
    {picked records : List MemoryEntry}
    (hheaded : decide (sections ≠ []) = headed)
    (hpick : pickMemories sec headed (sectionBudget sec maxTokens) [] []
      (sectionRecords path sec).reverse = (picked, records.map memoryLine))
    (secs : List MemorySection) (selected : List MemoryEntry) :
    memorySections (activeMemories (path.filterMap FileEntry.memory?)) maxTokens (sec :: secs)
        (selected, sections)
      = memorySections (activeMemories (path.filterMap FileEntry.memory?)) maxTokens secs
          (selected ++ picked, sections ++ shownSections [(sec, records)]) := by
  rw [sectionBudget, sectionRecords] at hpick
  rw [memorySections, hheaded, hpick]
  dsimp only
  by_cases hnone : records = []
  · subst hnone
    simp [shownSections]
  · have hlines : records.map memoryLine ≠ [] := by rwa [ne_eq, List.map_eq_nil_iff]
    rw [if_neg hlines]
    simp [shownSections, hnone, sectionText]

/-! ## The message -/

/-- The sections of the message. -/
def traceSection : MemorySection := ⟨.trace, "Session Trace", 8000, true⟩
def reflectionSection : MemorySection := ⟨.reflection, "Reflections", 4000, false⟩
def observationSection : MemorySection := ⟨.observation, "Observations", 12000, false⟩

theorem memorySectionBudgets_eq :
    memorySectionBudgets = [traceSection, reflectionSection, observationSection] := rfl

/-- The records the message lists, section by section; a section with another in front
of it pays for the break between them. -/
structure MemorySelection (path : List FileEntry) (maxTokens : Nat)
    (traces reflections observations : List MemoryEntry) : Prop where
  latestTraces : IsLatestRun (SectionFits traceSection false maxTokens)
    (sectionRecords path traceSection) traces
  newestReflections : reflections = newestFirst path reflectionSection (traces ≠ []) maxTokens
  newestObservations : observations
    = newestFirst path observationSection (traces ≠ [] ∨ reflections ≠ []) maxTokens
  once : traces.Sublist (sectionRecords path traceSection) ∧
    reflections.reverse.Sublist (sectionRecords path reflectionSection) ∧
    observations.reverse.Sublist (sectionRecords path observationSection)
  current : ∀ m ∈ traces ++ reflections ++ observations,
    ¬ Superseded (path.filterMap FileEntry.memory?) m.id

theorem shownSections_append (listed others : List (MemorySection × List MemoryEntry)) :
    shownSections (listed ++ others) = shownSections listed ++ shownSections others :=
  List.flatMap_append

theorem shownSections_eq_nil (listed : List (MemorySection × List MemoryEntry)) :
    shownSections listed = [] ↔ ∀ shown ∈ listed, shown.2 = [] := by
  rw [shownSections, List.flatMap_eq_nil_iff]
  refine forall₂_congr fun shown _ => ?_
  rw [ite_eq_left_iff]
  constructor
  · intro h
    by_contra hsome
    exact List.cons_ne_nil _ _ (h hsome)
  · exact fun hnone hsome => absurd hnone hsome

/-- The records selected and the sections written by the whole loop. -/
theorem memorySections_eq (path : List FileEntry) (maxTokens : Nat) :
    let traces := latestRun path traceSection false maxTokens
    let reflections := newestFirst path reflectionSection (traces ≠ []) maxTokens
    let observations :=
      newestFirst path observationSection (traces ≠ [] ∨ reflections ≠ []) maxTokens
    memorySections (activeMemories (path.filterMap FileEntry.memory?)) maxTokens
        memorySectionBudgets ([], [])
      = (traces.reverse ++ reflections ++ observations, shownSections [(traceSection, traces),
        (reflectionSection, reflections), (observationSection, observations)]) := by
  intro traces reflections observations
  have hfirst : (decide (([] : List JsString) ≠ [])) = false := rfl
  have hsecond : decide (shownSections [(traceSection, traces)] ≠ []) = decide (traces ≠ []) := by
    simp [shownSections_eq_nil]
  have hthird :
      decide (shownSections [(traceSection, traces), (reflectionSection, reflections)] ≠ []) =
        decide (traces ≠ [] ∨ reflections ≠ []) := by
    rw [decide_eq_decide, ne_eq, shownSections_eq_nil, ← not_and_or]
    simp
  have htraces := memorySections_step hfirst
    (@pickMemories_latestRun traceSection rfl path false maxTokens)
  have hreflections := memorySections_step hsecond
    (@pickMemories_newestFirst reflectionSection rfl path (traces ≠ []) maxTokens)
  have hobservations := memorySections_step hthird
    (@pickMemories_newestFirst observationSection rfl path
      (traces ≠ [] ∨ reflections ≠ []) maxTokens)
  rw [memorySectionBudgets_eq, htraces, List.nil_append, List.nil_append, hreflections,
    ← shownSections_append, List.singleton_append, hobservations, ← shownSections_append]
  rfl

/-- What the sections take together is what the message takes. -/
theorem length_shownSections (traces reflections observations : List MemoryEntry) :
    (joinWith (js "\n\n") (shownSections [(traceSection, traces), (reflectionSection, reflections),
        (observationSection, observations)])).length
      = sectionLength traceSection false traces
        + sectionLength reflectionSection (traces ≠ []) reflections
        + sectionLength observationSection (traces ≠ [] ∨ reflections ≠ []) observations := by
  have hbreak : (js "\n\n").length = 2 := by decide
  rw [length_joinWith, hbreak]
  by_cases htraces : traces = [] <;> by_cases hreflections : reflections = [] <;>
    by_cases hobservations : observations = [] <;>
    simp [shownSections, sectionLength, htraces, hreflections, hobservations]
  all_goals omega

/-- The shares of the sections sum up to the limit. -/
theorem sum_sectionBudget (maxTokens : Nat) : sectionBudget traceSection maxTokens
    + sectionBudget reflectionSection maxTokens + sectionBudget observationSection maxTokens
      ≤ 4 * maxTokens := by
  simp only [sectionBudget, traceSection, reflectionSection, observationSection,
    memoryContextMaxTokens]
  omega

/-- The message lists the latest run of traces, then reflections and observations newest
first, each within its share, and takes at most four characters a token. -/
theorem buildMemoryContextMessage_selects (path : List FileEntry) (maxTokens : Nat) :
    ∃ traces reflections observations timestamp,
      let sections := shownSections [(traceSection, traces), (reflectionSection, reflections),
        (observationSection, observations)]
      let content := joinWith (js "\n\n") sections
      MemorySelection path maxTokens traces reflections observations ∧
      content.length ≤ 4 * maxTokens ∧
      buildMemoryContextMessage path maxTokens
        = if sections = [] then none
          else some (.custom (js "memory") (.str content) false none timestamp) := by
  let traces := latestRun path traceSection false maxTokens
  let reflections := newestFirst path reflectionSection (traces ≠ []) maxTokens
  let observations :=
    newestFirst path observationSection (traces ≠ [] ∨ reflections ≠ []) maxTokens
  let selected := traces.reverse ++ reflections ++ observations
  have htraces := latestRun_spec path traceSection false maxTokens
  refine ⟨traces, reflections, observations,
    (selected.getLast?.map (·.timestamp)).getD [], ?_, ?_, ?_⟩
  · refine ⟨htraces, rfl, rfl, ⟨htraces.suffix.sublist, newestFirst_sublist path,
      newestFirst_sublist path⟩, ?_⟩
    intro m hm
    rw [List.mem_append, List.mem_append] at hm
    obtain (hm | hm) | hm := hm
    · exact not_superseded (htraces.suffix.subset hm)
    · exact not_superseded ((newestFirst_sublist path).subset (List.mem_reverse.mpr hm))
    · exact not_superseded ((newestFirst_sublist path).subset (List.mem_reverse.mpr hm))
  · rw [length_shownSections]
    have h1 : SectionFits traceSection false maxTokens traces := htraces.within
    have h2 : SectionFits reflectionSection (traces ≠ []) maxTokens reflections :=
      greedyFit_fits sectionFits_nil
    have h3 : SectionFits observationSection (traces ≠ [] ∨ reflections ≠ []) maxTokens
      observations := greedyFit_fits sectionFits_nil
    rw [SectionFits] at h1 h2 h3
    have := sum_sectionBudget maxTokens
    omega
  · rw [buildMemoryContextMessage]
    dsimp only
    rw [memorySections_eq]
    change selected.getLast?.map _ = _
    by_cases hnone : selected = []
    · have hempty : traces = [] ∧ reflections = [] ∧ observations = [] := by
        simpa [selected, and_assoc] using hnone
      rw [if_pos ((shownSections_eq_nil _).mpr (by simpa using hempty)), hnone]
      rfl
    · have hshown : shownSections [(traceSection, traces), (reflectionSection, reflections),
          (observationSection, observations)] ≠ [] := by
        intro hempty
        have hall := (shownSections_eq_nil _).mp hempty
        simp only [List.mem_cons, List.not_mem_nil, or_false, forall_eq_or_imp, forall_eq] at hall
        exact hnone (by simp [selected, hall])
      rw [if_neg hshown, List.getLast?_eq_getLast_of_ne_nil hnone]
      rfl

end PiMono
