import PiMono.CodingAgent.EditMatches

/-!
# Replacements that keep the other lines

`applyReplacementsPreservingUnchangedLines` groups the replacements by the lines they
touch. `overlaid` says line by line what that comes to: a touched line of the base is
written with what its positions become, any other line is the original's. The two agree
(`applyReplacementsPreserving_eq_ok`), and the call fails exactly if the line counts
differ or a place is outside of the base.
-/

namespace PiMono.CodingAgent

/-! ## Lines and their places -/

theorem flatten_splitLinesWithEndings : ∀ s : JsString, (splitLinesWithEndings s).flatten = s
  | [] => rfl
  | u :: us => by
    have ih := flatten_splitLinesWithEndings us
    rw [splitLinesWithEndings]
    by_cases hu : u = newline
    · rw [if_pos hu, List.flatten_cons, ih, hu]
      rfl
    · rw [if_neg hu]
      cases hlines : splitLinesWithEndings us with
      | nil =>
        rw [hlines] at ih
        rw [← ih]
        rfl
      | cons line lines =>
        rw [hlines, List.flatten_cons] at ih
        show (u :: line) ++ lines.flatten = u :: us
        rw [List.cons_append, ih]

theorem ne_nil_of_mem_splitLines : ∀ {s line : JsString}, line ∈ splitLinesWithEndings s → line ≠ []
  | [], _, h => by cases h
  | u :: us, line, h => by
    rw [splitLinesWithEndings] at h
    by_cases hu : u = newline
    · rw [if_pos hu] at h
      rcases List.mem_cons.mp h with rfl | h
      · exact List.cons_ne_nil _ _
      · exact ne_nil_of_mem_splitLines h
    · rw [if_neg hu] at h
      cases hlines : splitLinesWithEndings us with
      | nil =>
        rw [hlines] at h
        obtain rfl := List.mem_singleton.mp h
        exact List.cons_ne_nil _ _
      | cons line' lines =>
        rw [hlines] at h
        rcases List.mem_cons.mp h with rfl | h
        · exact List.cons_ne_nil _ _
        · exact ne_nil_of_mem_splitLines (hlines ▸ List.mem_cons_of_mem _ h)

/-- Where a line starts. -/
def lineStart (lines : List JsString) (i : Nat) : Nat := (lines.take i).flatten.length

section Lines

variable {lines : List JsString} {i j : Nat}

theorem lineStart_length (lines : List JsString) :
    lineStart lines lines.length = lines.flatten.length := by
  rw [lineStart, List.take_length]

theorem lineStart_succ (hi : i < lines.length) :
    lineStart lines (i + 1) = lineStart lines i + lines[i].length := by
  rw [lineStart, lineStart, List.take_succ_eq_append_getElem hi, List.flatten_append,
    List.length_append, List.flatten_singleton]

theorem lineStart_le (h : i ≤ j) : lineStart lines i ≤ lineStart lines j := by
  obtain ⟨k, rfl⟩ := Nat.exists_eq_add_of_le h
  rw [lineStart, lineStart, List.take_add, List.flatten_append, List.length_append]
  exact Nat.le_add_right _ _

theorem length_spansFrom : ∀ (offset : Nat) (lines : List JsString),
    (spansFrom offset lines).length = lines.length
  | _, [] => rfl
  | offset, line :: lines => by
    rw [spansFrom, List.length_cons, List.length_cons, length_spansFrom]

theorem getElem?_spansFrom : ∀ (offset : Nat) (lines : List JsString) (i : Nat), i < lines.length →
    (spansFrom offset lines)[i]?
      = some ⟨offset + lineStart lines i, offset + lineStart lines (i + 1)⟩
  | _, [], _, h => absurd h (Nat.not_lt_zero _)
  | offset, line :: lines, 0, _ => by
    simp [spansFrom, lineStart]
  | offset, line :: lines, i + 1, h => by
    rw [spansFrom, List.getElem?_cons_succ,
      getElem?_spansFrom (offset + line.length) lines i (Nat.lt_of_succ_lt_succ h)]
    simp [lineStart, Nat.add_assoc]

end Lines

section Overlay

variable {content base : JsString} {rs : List TextReplacement} {r : TextReplacement} {i p : Nat}

/-- Where a line of the base starts. -/
def baseStart (base : JsString) (i : Nat) : Nat := lineStart (splitLinesWithEndings base) i

/-- How many lines a text has. -/
def lineCount (s : JsString) : Nat := (splitLinesWithEndings s).length

theorem length_getLineSpans (base : JsString) : (getLineSpans base).length = lineCount base :=
  length_spansFrom 0 _

theorem getElem?_getLineSpans (hi : i < lineCount base) :
    (getLineSpans base)[i]? = some ⟨baseStart base i, baseStart base (i + 1)⟩ := by
  rw [getLineSpans, getElem?_spansFrom 0 _ i hi, Nat.zero_add, Nat.zero_add]
  rfl

theorem getElem_getLineSpans (hi : i < (getLineSpans base).length) :
    (getLineSpans base)[i] = ⟨baseStart base i, baseStart base (i + 1)⟩ := by
  have h := getElem?_getLineSpans (length_getLineSpans base ▸ hi)
  rw [List.getElem?_eq_getElem hi] at h
  exact Option.some.inj h

theorem spanAt_getLineSpans (hi : i < lineCount base) :
    spanAt (getLineSpans base) i = ⟨baseStart base i, baseStart base (i + 1)⟩ := by
  rw [spanAt, List.getD_eq_getElem?_getD, getElem?_getLineSpans hi]
  rfl

theorem baseStart_zero (base : JsString) : baseStart base 0 = 0 := rfl

theorem baseStart_lineCount (base : JsString) : baseStart base (lineCount base) = base.length := by
  rw [baseStart, lineCount, lineStart_length, flatten_splitLinesWithEndings]

theorem baseStart_le {j : Nat} (h : i ≤ j) : baseStart base i ≤ baseStart base j := lineStart_le h

/-- A place ahead of the start of a line is not past it. -/
theorem lt_of_baseStart_lt {j : Nat} (h : baseStart base i < baseStart base j) : i < j := by
  by_contra hle
  exact absurd (baseStart_le (Nat.not_lt.mp hle)) (Nat.not_le.mpr h)

theorem baseStart_le_length (h : i ≤ lineCount base) : baseStart base i ≤ base.length := by
  rw [← baseStart_lineCount]
  exact baseStart_le h

/-! ## The lines that a place touches -/

/-- The place touches a line of the base. -/
def touchesLine (base : JsString) (r : TextReplacement) (i : Nat) : Bool :=
  r.touches (baseStart base i) (baseStart base (i + 1))

/-- A place does nothing to the positions of a line that it does not touch. -/
theorem far_of_not_touchesLine (h : touchesLine base r i = false) (hle : baseStart base i ≤ p)
    (hlt : p < baseStart base (i + 1)) : r.matchIndex ≠ p ∧ r.covers p = false := by
  unfold touchesLine Replacement.touches at h
  rw [Bool.and_eq_false_iff, decide_eq_false_iff_not, decide_eq_false_iff_not] at h
  refine ⟨fun heq => by omega, ?_⟩
  rw [Replacement.covers, Bool.and_eq_false_iff, decide_eq_false_iff_not, decide_eq_false_iff_not]
  omega

/-- The place is inside of the base. -/
def Inside (base : JsString) (r : TextReplacement) : Prop :=
  r.matchIndex < base.length ∧ r.stop ≤ base.length

/-- Where the loop over the ends of the lines stops. -/
theorem takeWhile_stop (lines : List LineSpan) (start stop : Nat) :
    let k := start + ((lines.drop start).takeWhile fun line => line.stop < stop).length
    (∀ j, start ≤ j → j < k → ∃ h : j < lines.length, lines[j].stop < stop) ∧
      ∀ h : k < lines.length, stop ≤ lines[k].stop := by
  intro k
  have hk : k = start + (lines.drop start).findIdx fun line => !decide (line.stop < stop) := by
    show start + _ = _
    rw [List.takeWhile_eq_take_findIdx_not, List.length_take,
      Nat.min_eq_left List.findIdx_le_length]
  constructor
  · intro j hle hlt
    have hj : j - start < (lines.drop start).findIdx fun line => !decide (line.stop < stop) := by
      omega
    have hlength : j < lines.length := by
      have := Nat.lt_of_lt_of_le hj List.findIdx_le_length
      rw [List.length_drop] at this
      omega
    have hnot := List.not_of_lt_findIdx hj
    rw [List.getElem_drop] at hnot
    have hindex : start + (j - start) = j := by omega
    simp only [hindex, Bool.not_eq_false', decide_eq_true_eq] at hnot
    exact ⟨hlength, hnot⟩
  · intro h
    have hlt : ((lines.drop start).findIdx fun line => !decide (line.stop < stop))
        < (lines.drop start).length := by
      rw [List.length_drop]
      omega
    have hend := List.findIdx_getElem (w := hlt)
    rw [List.getElem_drop, Bool.not_eq_true', decide_eq_false_iff_not, Nat.not_lt] at hend
    simp only [hk]
    exact hend

/-- The range of lines is found for a place inside of the base only, and it is the lines that the
place touches. -/
theorem getReplacementLineRange_ok {range : LineRange}
    (h : getReplacementLineRange (getLineSpans base) r = .ok range) :
    Inside base r ∧ range.startLine < range.endLine ∧ range.endLine ≤ lineCount base ∧
      baseStart base range.startLine ≤ r.matchIndex ∧ r.stop ≤ baseStart base range.endLine ∧
      ∀ i, i < lineCount base →
        (touchesLine base r i = true ↔ range.startLine ≤ i ∧ i < range.endLine) := by
  unfold getReplacementLineRange at h
  cases hfind : (getLineSpans base).findIdx? fun line =>
      line.start ≤ r.matchIndex ∧ r.matchIndex < line.stop with
  | none =>
    rw [hfind] at h
    cases h
  | some startLine =>
    rw [hfind] at h
    obtain ⟨hlt, hstart, -⟩ := List.findIdx?_eq_some_iff_getElem.mp hfind
    obtain ⟨hbefore, hend⟩ := takeWhile_stop (getLineSpans base) startLine r.stop
    have hspan := of_decide_eq_true hstart
    rw [getElem_getLineSpans] at hspan
    dsimp only at h
    obtain ⟨k, hk⟩ : ∃ k, k =
      startLine + ((getLineSpans base).drop startLine |>.takeWhile fun line =>
        line.stop < r.stop).length := ⟨_, rfl⟩
    rw [← hk] at h hbefore hend
    have hle : startLine ≤ k := hk ▸ Nat.le_add_right _ _
    clear hk
    rw [length_getLineSpans] at h hlt
    by_cases hk : lineCount base ≤ k
    · rw [if_pos hk] at h
      cases h
    · rw [if_neg hk] at h
      cases h
      have hk' : k < (getLineSpans base).length := by
        rw [length_getLineSpans]
        exact Nat.not_le.mp hk
      have hstop := hend hk'
      rw [getElem_getLineSpans] at hstop
      have hlast : baseStart base (k + 1) ≤ base.length := baseStart_le_length (by omega)
      have hfirst : baseStart base (startLine + 1) ≤ baseStart base (k + 1) :=
        baseStart_le (by omega)
      dsimp only at hspan hstop
      refine ⟨⟨by omega, by omega⟩, Nat.lt_succ_of_le hle, Nat.not_le.mp hk, hspan.1, hstop,
        fun i hi => ?_⟩
      show _ ↔ startLine ≤ i ∧ i < k + 1
      unfold touchesLine Replacement.touches
      rw [Bool.and_eq_true, decide_eq_true_eq, decide_eq_true_eq]
      constructor
      · rintro ⟨hbegin, hmax⟩
        constructor
        · by_contra hgt
          have hmono : baseStart base (i + 1) ≤ baseStart base startLine :=
            baseStart_le (Nat.not_le.mp hgt)
          omega
        · by_contra hge
          have hmono : baseStart base (k + 1) ≤ baseStart base i := baseStart_le (Nat.not_lt.mp hge)
          omega
      · rintro ⟨hfrom, hto⟩
        have hmono : baseStart base (startLine + 1) ≤ baseStart base (i + 1) :=
          baseStart_le (by omega)
        refine ⟨by omega, ?_⟩
        rcases Nat.eq_or_lt_of_le hfrom with rfl | hlater
        · omega
        · -- the line before this one ends inside the place
          obtain ⟨hprev, hinside⟩ := hbefore (i - 1) (by omega) (by omega)
          rw [getElem_getLineSpans] at hinside
          have hindex : i - 1 + 1 = i := by omega
          rw [hindex] at hinside
          dsimp only at hinside
          omega

/-- A position of the base is on a line of it. -/
theorem exists_line (hp : p < base.length) :
    ∃ i, i < lineCount base ∧ baseStart base i ≤ p ∧ p < baseStart base (i + 1) := by
  have hall : ∀ n, n ≤ lineCount base → p < baseStart base n →
      ∃ i, i < n ∧ baseStart base i ≤ p ∧ p < baseStart base (i + 1) := by
    intro n
    induction n with
    | zero => exact fun _ h => absurd h (Nat.not_lt_zero _)
    | succ n ih =>
      intro hn hlt
      by_cases hbefore : p < baseStart base n
      · obtain ⟨i, hi, hin⟩ := ih (Nat.le_of_succ_le hn) hbefore
        exact ⟨i, Nat.lt_succ_of_lt hi, hin⟩
      · exact ⟨n, Nat.lt_succ_self n, Nat.not_lt.mp hbefore, hlt⟩
  exact hall (lineCount base) (Nat.le_refl _) (by rwa [baseStart_lineCount])

/-- The range of lines of a place inside of the base is found. -/
theorem exists_getReplacementLineRange (h : Inside base r) :
    ∃ range, getReplacementLineRange (getLineSpans base) r = .ok range := by
  obtain ⟨i, hi, hstart, hstop⟩ := exists_line h.1
  unfold getReplacementLineRange
  cases hfind : (getLineSpans base).findIdx? fun line =>
      line.start ≤ r.matchIndex ∧ r.matchIndex < line.stop with
  | none =>
    have hnone := List.findIdx?_eq_none_iff.mp hfind _
      (List.getElem_mem (length_getLineSpans base ▸ hi))
    rw [getElem_getLineSpans, decide_eq_false_iff_not] at hnone
    exact absurd ⟨hstart, hstop⟩ hnone
  | some startLine =>
    dsimp only
    obtain ⟨hlt, -, -⟩ := List.findIdx?_eq_some_iff_getElem.mp hfind
    obtain ⟨hbefore, -⟩ := takeWhile_stop (getLineSpans base) startLine r.stop
    obtain ⟨k, hk⟩ : ∃ k, k =
      startLine + ((getLineSpans base).drop startLine |>.takeWhile fun line =>
        line.stop < r.stop).length := ⟨_, rfl⟩
    rw [← hk] at hbefore ⊢
    rw [length_getLineSpans] at hlt ⊢
    have hlast : k < lineCount base := by
      by_contra hge
      -- then the last line ends inside the place
      obtain ⟨hprev, hinside⟩ := hbefore (lineCount base - 1) (by omega) (by omega)
      have hindex : lineCount base - 1 + 1 = lineCount base := by omega
      rw [getElem_getLineSpans, hindex, baseStart_lineCount] at hinside
      exact absurd h.2 (Nat.not_le.mpr hinside)
    rw [if_neg (Nat.not_le.mpr hlast)]
    exact ⟨_, rfl⟩

/-! ## What is written -/

/-- A line that a place touches is written from the base, any other line as it is. -/
def overlaidLine (base : JsString) (rs : List TextReplacement) (line : JsString) (i : Nat) :
    JsString :=
  if rs.any fun r => touchesLine base r i then
    (List.range' (baseStart base i) (baseStart base (i + 1) - baseStart base i)).flatMap
      (rendered base rs)
  else line

/-- The content with the places of the base written into it, line by line. -/
def overlaid (content base : JsString) (rs : List TextReplacement) : JsString :=
  (splitLinesWithEndings content).zipIdx.flatMap fun (line, i) => overlaidLine base rs line i

/-- The lines of a block, one after the other. -/
theorem flatMap_lines (base : JsString) {β : Type} (f : Nat → List β) (start : Nat) : ∀ n,
    (List.range' start n).flatMap (fun i =>
        (List.range' (baseStart base i) (baseStart base (i + 1) - baseStart base i)).flatMap f)
      = (List.range' (baseStart base start)
          (baseStart base (start + n) - baseStart base start)).flatMap f
  | 0 => by simp
  | n + 1 => by
    have h₁ : baseStart base start ≤ baseStart base (start + n) := baseStart_le (by omega)
    have h₂ : baseStart base (start + n) ≤ baseStart base (start + n + 1) := baseStart_le (by omega)
    have hsplit : baseStart base (start + n + 1) - baseStart base start
        = (baseStart base (start + n) - baseStart base start)
          + (baseStart base (start + n + 1) - baseStart base (start + n)) := by omega
    have hjoin : baseStart base start + (baseStart base (start + n) - baseStart base start)
        = baseStart base (start + n) := by omega
    rw [List.range'_1_concat, List.flatMap_append, flatMap_lines base f start n,
      List.flatMap_singleton,
      ← Nat.add_assoc, hsplit, ← List.range'_append_1, List.flatMap_append, hjoin]

/-- Some lines, one after the other. -/
theorem flatMap_getD (lines : List JsString) : ∀ n start, start + n ≤ lines.length →
    (List.range' start n).flatMap (fun i => lines.getD i []) = ((lines.drop start).take n).flatten
  | 0, start, _ => by simp
  | n + 1, start, h => by
    have hlt : start < lines.length := by omega
    rw [List.range'_succ, List.flatMap_cons, flatMap_getD lines n (start + 1) (by omega),
      List.drop_eq_getElem_cons hlt, List.take_succ_cons, List.flatten_cons,
      List.getD_eq_getElem?_getD, List.getElem?_eq_getElem hlt, Option.getD_some]

/-- The lines from one on. -/
def overlaidFrom (content base : JsString) (rs : List TextReplacement)
    (start stop : Nat) : JsString :=
  (List.range' start (stop - start)).flatMap fun i =>
    overlaidLine base rs ((splitLinesWithEndings content).getD i []) i

theorem overlaid_eq (content base : JsString) (rs : List TextReplacement) :
    overlaid content base rs = overlaidFrom content base rs 0 (lineCount content) := by
  have hlines : (splitLinesWithEndings content).zipIdx
      = (List.range' 0 (lineCount content)).map fun i =>
          ((splitLinesWithEndings content).getD i [], i) := by
    refine List.ext_getElem (by simp [lineCount]) fun i h₁ h₂ => ?_
    rw [List.length_zipIdx] at h₁
    simp [h₁]
  rw [overlaid, overlaidFrom, hlines, List.flatMap_map, Nat.sub_zero]

theorem overlaidFrom_append {a b c : Nat} (hab : a ≤ b) (hbc : b ≤ c) :
    overlaidFrom content base rs a c
      = overlaidFrom content base rs a b ++ overlaidFrom content base rs b c := by
  have hsplit : c - a = (b - a) + (c - b) := by omega
  have hjoin : a + (b - a) = b := by omega
  rw [overlaidFrom, hsplit, ← List.range'_append_1, List.flatMap_append, hjoin]
  rfl

/-- Lines that no place touches. -/
theorem overlaidFrom_untouched (content base : JsString) (rs : List TextReplacement) {a b : Nat}
    (hab : a ≤ b) (hb : b ≤ lineCount content)
    (h : ∀ i, a ≤ i → i < b → ∀ r ∈ rs, touchesLine base r i = false) :
    overlaidFrom content base rs a b
      = (((splitLinesWithEndings content).drop a).take (b - a)).flatten := by
  have hlength : a + (b - a) ≤ (splitLinesWithEndings content).length := by
    rw [Nat.add_sub_cancel' hab]
    exact hb
  rw [overlaidFrom, ← flatMap_getD _ _ _ hlength]
  refine flatMap_congr fun i hi => ?_
  rw [List.mem_range'_1] at hi
  have hnone : (rs.any fun r => touchesLine base r i) = false := by
    rw [List.any_eq_false]
    intro r hr
    rw [h i hi.1 (by omega) r hr]
    exact Bool.false_ne_true
  rw [overlaidLine, hnone]
  rfl

/-- A block of touched lines, in which no other places have a part. -/
theorem overlaidFrom_touched (content base : JsString) {before rs : List TextReplacement}
    (after : List TextReplacement) {a b : Nat} (hab : a ≤ b)
    (hb : b ≤ lineCount base)
    (htouched : ∀ i, a ≤ i → i < b → ∃ r ∈ rs, touchesLine base r i = true)
    (hbefore : ∀ r ∈ before, ∀ i, a ≤ i → i < b → touchesLine base r i = false)
    (hafter : ∀ r ∈ after, ∀ i, a ≤ i → i < b → touchesLine base r i = false)
    (horder : InOrder (baseStart base a) rs)
    (hinside : ∀ r ∈ rs, r.matchIndex < baseStart base b ∧ r.stop ≤ baseStart base b) :
    overlaidFrom content base (before ++ rs ++ after) a b
      = applyReplacements
        ((base.drop (baseStart base a)).take (baseStart base b - baseStart base a))
          rs (baseStart base a) := by
  have hblock := flatMap_lines base (rendered base rs) a (b - a)
  rw [Nat.add_sub_cancel' hab] at hblock
  rw [applyReplacements, replaceAll_block horder (baseStart_le_length hb) hinside, ← hblock,
    overlaidFrom]
  refine flatMap_congr fun i hi => ?_
  rw [List.mem_range'_1] at hi
  have hlt : i < b := by omega
  have hany : ((before ++ rs ++ after).any fun r => touchesLine base r i) = true := by
    obtain ⟨r, hr, htouch⟩ := htouched i hi.1 hlt
    exact List.any_eq_true.mpr ⟨r, by simp [hr], htouch⟩
  rw [overlaidLine, hany, if_pos rfl]
  refine flatMap_congr fun p hp => ?_
  rw [List.mem_range'_1] at hp
  have hp' : p < baseStart base (i + 1) := by omega
  rw [rendered_append_left _ _ fun r hr => far_of_not_touchesLine (hafter r hr i hi.1 hlt) hp.1 hp',
    rendered_append _ _ fun r hr => far_of_not_touchesLine (hbefore r hr i hi.1 hlt) hp.1 hp']

theorem take_drop_lineStart {lines : List JsString} (hi : i < lines.length) :
    (lines.flatten.drop (lineStart lines i)).take (lineStart lines (i + 1) - lineStart lines i)
      = lines[i] := by
  have hsplit : lines.flatten
      = (lines.take i).flatten ++ (lines[i] ++ (lines.drop (i + 1)).flatten) := by
    rw [← List.flatten_cons, ← List.drop_eq_getElem_cons hi, ← List.flatten_append,
      List.take_append_drop]
  rw [lineStart_succ hi, Nat.add_sub_cancel_left, hsplit, lineStart, List.drop_left, List.take_left]

/-- Written over itself, a text becomes what its positions do. -/
theorem overlaid_self (content : JsString) (rs : List TextReplacement) :
    overlaid content content rs = (List.range content.length).flatMap (rendered content rs) := by
  have hlines := flatMap_lines content (rendered content rs) 0 (lineCount content)
  rw [Nat.zero_add, baseStart_lineCount, baseStart_zero, Nat.sub_zero] at hlines
  rw [overlaid_eq, overlaidFrom, Nat.sub_zero, List.range_eq_range', ← hlines]
  refine flatMap_congr fun i hi => ?_
  have hi' : i < (splitLinesWithEndings content).length := by
    have := (List.mem_range'_1.mp hi).2
    rwa [Nat.zero_add] at this
  rw [overlaidLine]
  by_cases hany : (rs.any fun r => touchesLine content r i) = true
  · rw [if_pos hany]
  · rw [if_neg hany]
    have hline : (content.drop (baseStart content i)).take
        (baseStart content (i + 1) - baseStart content i) = (splitLinesWithEndings content)[i] := by
      have h := take_drop_lineStart hi'
      rw [flatten_splitLinesWithEndings] at h
      exact h
    have hle : baseStart content i ≤ baseStart content (i + 1) := baseStart_le (Nat.le_succ i)
    have hlast : baseStart content (i + 1) ≤ content.length := baseStart_le_length hi'
    rw [List.getD_eq_getElem?_getD, List.getElem?_eq_getElem hi', Option.getD_some, ← hline]
    rw [← flatMap_getElem? content _ _ (by omega)]
    refine (flatMap_congr fun p hp => rendered_of_far fun r hr => ?_).symm
    rw [List.mem_range'_1] at hp
    have hnot : touchesLine content r i = false := by
      rw [Bool.eq_false_iff]
      exact fun htouch => hany (List.any_eq_true.mpr ⟨r, hr, htouch⟩)
    exact far_of_not_touchesLine hnot hp.1 (by omega)

/-- The order of places that do not overlap does not matter. -/
theorem overlaid_perm {rs rs' : List TextReplacement} (hperm : rs.Perm rs')
    (hapart : rs.Pairwise Apart) (hrs : ∀ r ∈ rs, 0 < r.matchLength) :
    overlaid content base rs' = overlaid content base rs := by
  refine flatMap_congr fun line _ => ?_
  have hany : (rs'.any fun r => touchesLine base r line.2) = rs.any fun r =>
    touchesLine base r line.2 := by
    rw [Bool.eq_iff_iff, List.any_eq_true, List.any_eq_true]
    exact exists_congr fun r => and_congr_left fun _ => hperm.mem_iff.symm
  show overlaidLine base rs' line.1 line.2 = overlaidLine base rs line.1 line.2
  rw [overlaidLine, overlaidLine, hany]
  refine ite_congr rfl (fun _ => ?_) fun _ => rfl
  exact flatMap_congr fun p _ => (rendered_perm hperm hapart hrs p).symm

/-! ## The groups -/

theorem not_touchesLine_of_le (h : baseStart base (i + 1) ≤ r.matchIndex) :
    touchesLine base r i = false := by
  unfold touchesLine Replacement.touches
  rw [Bool.and_eq_false_iff, decide_eq_false_iff_not]
  exact .inl (Nat.not_lt.mpr h)

/-- The group that is still open, between the places that are written and those to come. -/
structure OpenGroup (base : JsString) (before : List TextReplacement) (current : LineGroup)
    (rest : List TextReplacement) (written : Nat) : Prop where
  written_le : written ≤ current.startLine
  start_lt : current.startLine < current.endLine
  end_le : current.endLine ≤ lineCount base
  before_far : ∀ r ∈ before, ∀ i, written ≤ i → i < lineCount base → touchesLine base r i = false
  touched : ∀ i, current.startLine ≤ i → i < current.endLine →
    ∃ r ∈ current.replacements, touchesLine base r i = true
  within : ∀ r ∈ current.replacements, ∀ i, i < lineCount base → touchesLine base r i = true →
    current.startLine ≤ i ∧ i < current.endLine
  inside : ∀ r ∈ current.replacements,
    r.matchIndex < baseStart base current.endLine ∧ r.stop ≤ baseStart base current.endLine
  order : InOrder (baseStart base current.startLine) (current.replacements ++ rest)

section Groups

variable {before rest : List TextReplacement} {current : LineGroup} {written : Nat}
  {range : LineRange}

theorem OpenGroup.rest_order (h : OpenGroup base before current rest written) :
    ∀ r ∈ rest, baseStart base current.startLine ≤ r.matchIndex := fun r hr =>
  h.order.le_matchIndex r (List.mem_append_right _ hr)

/-- The group of one place. -/
theorem OpenGroup.single (hrange : getReplacementLineRange (getLineSpans base) r = .ok range)
    (hwritten : written ≤ range.startLine)
    (hbefore : ∀ r ∈ before, ∀ i, written ≤ i → i < lineCount base →
      touchesLine base r i = false)
    (horder : InOrder r.stop rest) :
    OpenGroup base before ⟨range.startLine, range.endLine, [r]⟩ rest written := by
  obtain ⟨hinside, hlt, hle, hstart, hstop, htouches⟩ := getReplacementLineRange_ok hrange
  refine ⟨hwritten, hlt, hle, hbefore, ?_, ?_, ?_, ⟨hstart, horder⟩⟩
  · intro i hfrom hto
    dsimp only at hfrom hto
    exact ⟨r, List.mem_singleton_self _, (htouches i (by omega)).mpr ⟨hfrom, hto⟩⟩
  · intro r' hr' i hi htouch
    obtain rfl := List.mem_singleton.mp hr'
    exact (htouches i hi).mp htouch
  · intro r' hr'
    obtain rfl := List.mem_singleton.mp hr'
    refine ⟨?_, hstop⟩
    have htouch := (htouches range.startLine (by omega)).mpr ⟨Nat.le_refl _, hlt⟩
    unfold touchesLine Replacement.touches at htouch
    rw [Bool.and_eq_true, decide_eq_true_eq] at htouch
    exact Nat.lt_of_lt_of_le htouch.1 (baseStart_le hlt)

/-- A place that starts on a line of the group joins it. -/
theorem OpenGroup.merge (h : OpenGroup base before current (r :: rest) written)
    (hrange : getReplacementLineRange (getLineSpans base) r = .ok range)
    (hjoin : range.startLine < current.endLine) :
    OpenGroup base before
      ⟨current.startLine, max current.endLine range.endLine, current.replacements ++ [r]⟩ rest
      written := by
  obtain ⟨hinside, hlt, hle, hstart, hstop, htouches⟩ := getReplacementLineRange_ok hrange
  have hmax : max current.endLine range.endLine ≤ lineCount base := Nat.max_le.mpr ⟨h.end_le, hle⟩
  have hfirst := (htouches range.startLine (by omega)).mpr ⟨Nat.le_refl _, hlt⟩
  unfold touchesLine Replacement.touches at hfirst
  rw [Bool.and_eq_true, decide_eq_true_eq] at hfirst
  -- the place is not in front of the group
  have hfrom : current.startLine ≤ range.startLine :=
    Nat.le_of_lt_succ (lt_of_baseStart_lt
      (Nat.lt_of_le_of_lt (h.rest_order r List.mem_cons_self) hfirst.1))
  have horder : InOrder (baseStart base current.startLine)
    ((current.replacements ++ [r]) ++ rest) := by
    rw [List.append_assoc]
    exact h.order
  refine ⟨h.written_le, ?_, hmax, h.before_far, ?_, ?_, ?_, horder⟩
  · exact Nat.lt_of_lt_of_le h.start_lt (Nat.le_max_left _ _)
  · intro i hi hlast
    by_cases hold : i < current.endLine
    · obtain ⟨r', hr', htouch⟩ := h.touched i hi hold
      exact ⟨r', List.mem_append_left _ hr', htouch⟩
    · have hin : range.startLine ≤ i ∧ i < range.endLine := by
        dsimp only at hlast
        omega
      exact ⟨r, by simp, (htouches i (by omega)).mpr hin⟩
  · intro r' hr' i hi htouch
    dsimp only
    rcases List.mem_append.mp hr' with hr' | hr'
    · have := h.within r' hr' i hi htouch
      omega
    · obtain rfl := List.mem_singleton.mp hr'
      have := (htouches i hi).mp htouch
      omega
  · intro r' hr'
    dsimp only
    have hold : baseStart base current.endLine ≤
      baseStart base (max current.endLine range.endLine) :=
      baseStart_le (Nat.le_max_left _ _)
    have hnew : baseStart base range.endLine ≤ baseStart base (max current.endLine range.endLine) :=
      baseStart_le (Nat.le_max_right _ _)
    have hsecond : baseStart base (range.startLine + 1) ≤ baseStart base range.endLine :=
      baseStart_le hlt
    rcases List.mem_append.mp hr' with hr' | hr'
    · have := h.inside r' hr'
      omega
    · obtain rfl := List.mem_singleton.mp hr'
      omega

/-- A group is written with the lines in front of it; nothing else has a part in its lines. -/
theorem OpenGroup.write (h : OpenGroup base before current rest written)
    (hcount : lineCount content = lineCount base)
    (hrest : ∀ r ∈ rest, baseStart base current.endLine ≤ r.matchIndex) (groups : List LineGroup) :
    overlayFrom (splitLinesWithEndings content) base (getLineSpans base) written (current :: groups)
      = overlaidFrom content base (before ++ current.replacements ++ rest) written current.endLine
        ++ overlayFrom (splitLinesWithEndings content) base (getLineSpans base) current.endLine
            groups := by
  have hlt := h.start_lt
  have hend := h.end_le
  have hstart : spanAt (getLineSpans base) current.startLine = _ :=
    spanAt_getLineSpans (by omega)
  have hstop : spanAt (getLineSpans base) (current.endLine - 1) = _ :=
    spanAt_getLineSpans (by omega)
  rw [Nat.sub_add_cancel (by omega)] at hstop
  have huntouched := overlaidFrom_untouched content base (before ++ current.replacements ++ rest)
    h.written_le
    (by omega) (by
      intro i hi hlt r hr
      have hmono : baseStart base (i + 1) ≤ baseStart base current.startLine := baseStart_le hlt
      rcases List.mem_append.mp hr with hr | hr
      · rcases List.mem_append.mp hr with hr | hr
        · exact h.before_far r hr i hi (by omega)
        · exact not_touchesLine_of_le (hmono.trans
            (h.order.le_matchIndex r (List.mem_append_left _ hr)))
      · exact not_touchesLine_of_le (hmono.trans (h.rest_order r hr)))
  have htouched := overlaidFrom_touched content base rest hlt.le h.end_le
    h.touched (fun r hr i hi hlt => h.before_far r hr i (h.written_le.trans hi) (by omega))
    (fun r hr i _ hlt => not_touchesLine_of_le ((baseStart_le hlt).trans (hrest r hr)))
    h.order.of_append h.inside
  rw [overlaidFrom_append h.written_le hlt.le, huntouched, htouched, overlayFrom, hstart, hstop]

/-- Places that are all inside of the base can be grouped. -/
theorem exists_groupFrom : ∀ {rest : List TextReplacement} (current : LineGroup),
    (∀ r ∈ rest, Inside base r) → ∃ groups, groupFrom (getLineSpans base) current rest = .ok groups
  | [], current, _ => ⟨[current], rfl⟩
  | r :: rest, current, h => by
    obtain ⟨hr, hrest⟩ := List.forall_mem_cons.mp h
    obtain ⟨range, hrange⟩ := exists_getReplacementLineRange hr
    by_cases hjoin : range.startLine < current.endLine
    · obtain ⟨groups, hgroups⟩ := exists_groupFrom
        ⟨current.startLine, max current.endLine range.endLine, current.replacements ++ [r]⟩ hrest
      refine ⟨groups, Except.bind_eq_ok.mpr ⟨range, hrange, ?_⟩⟩
      rw [if_pos hjoin]
      exact hgroups
    · obtain ⟨groups, hgroups⟩ := exists_groupFrom ⟨range.startLine, range.endLine, [r]⟩ hrest
      refine ⟨current :: groups, Except.bind_eq_ok.mpr ⟨range, hrange, ?_⟩⟩
      rw [if_neg hjoin]
      exact Except.bind_eq_ok.mpr ⟨groups, hgroups, rfl⟩

/-- Once grouped, all places are inside of the base, and the groups are written as the lines
say. -/
theorem overlayFrom_groupFrom (hcount : lineCount content = lineCount base) :
    ∀ {rest before : List TextReplacement} {current : LineGroup} {written : Nat}
      {groups : List LineGroup},
      OpenGroup base before current rest written →
      groupFrom (getLineSpans base) current rest = .ok groups →
      (∀ r ∈ rest, Inside base r) ∧
        overlayFrom (splitLinesWithEndings content) base (getLineSpans base) written groups
          = overlaidFrom content base (before ++ current.replacements ++ rest) written
              (lineCount base)
  | [], before, current, written, groups, h, hgroups => by
    obtain rfl := Except.ok.inj hgroups
    have hle : current.endLine ≤ lineCount content := hcount ▸ h.end_le
    have huntouched := overlaidFrom_untouched content base
      (before ++ current.replacements ++ []) hle (Nat.le_refl _) (by
        intro i hi hlt r hr
        rw [hcount] at hlt
        rw [List.append_nil] at hr
        rcases List.mem_append.mp hr with hr | hr
        · exact h.before_far r hr i (h.written_le.trans (h.start_lt.le.trans hi)) hlt
        · rw [Bool.eq_false_iff]
          intro htouch
          exact absurd (h.within r hr i hlt htouch).2 (Nat.not_lt.mpr hi))
    have htail : ((splitLinesWithEndings content).drop current.endLine).take
        (lineCount content - current.endLine) =
          (splitLinesWithEndings content).drop current.endLine :=
      List.take_of_length_le (by rw [List.length_drop]; exact Nat.le_refl _)
    refine ⟨fun _ hmem => absurd hmem List.not_mem_nil, ?_⟩
    rw [h.write hcount (fun _ hmem => absurd hmem List.not_mem_nil),
      overlaidFrom_append (h.written_le.trans h.start_lt.le) h.end_le, ← hcount, huntouched, htail]
    rfl
  | r :: rest, before, current, written, groups, h, hgroups => by
    obtain ⟨range, hrange, hgroups⟩ := Except.bind_eq_ok.mp hgroups
    obtain ⟨hinside, -, -, hstart, -, -⟩ := getReplacementLineRange_ok hrange
    by_cases hjoin : range.startLine < current.endLine
    · rw [if_pos hjoin] at hgroups
      obtain ⟨hrest, hwritten⟩ := overlayFrom_groupFrom hcount (h.merge hrange hjoin) hgroups
      refine ⟨List.forall_mem_cons.mpr ⟨hinside, hrest⟩, ?_⟩
      rw [hwritten]
      simp only [List.append_assoc, List.singleton_append]
    · rw [if_neg hjoin] at hgroups
      obtain ⟨groups', hgroups', hcons⟩ := Except.bind_eq_ok.mp hgroups
      obtain rfl := Except.ok.inj hcons
      have hfrom : current.endLine ≤ range.startLine := Nat.not_lt.mp hjoin
      have hfar : ∀ r' ∈ r :: rest, baseStart base current.endLine ≤ r'.matchIndex := by
        have hmono : baseStart base current.endLine ≤ baseStart base range.startLine :=
          baseStart_le hfrom
        have hstop : r.matchIndex ≤ r.stop := Nat.le_add_right _ _
        intro r' hr'
        rcases List.mem_cons.mp hr' with rfl | hr'
        · exact hmono.trans hstart
        · have hlater := h.order.of_append_right.2.le_matchIndex r' hr'
          omega
      have hbefore : ∀ r' ∈ before ++ current.replacements, ∀ i, current.endLine ≤ i →
          i < lineCount base → touchesLine base r' i = false := by
        intro r' hr' i hi hlt
        rcases List.mem_append.mp hr' with hr' | hr'
        · exact h.before_far r' hr' i (h.written_le.trans (h.start_lt.le.trans hi)) hlt
        · rw [Bool.eq_false_iff]
          intro htouch
          exact absurd (h.within r' hr' i hlt htouch).2 (Nat.not_lt.mpr hi)
      obtain ⟨hrest, hwritten⟩ := overlayFrom_groupFrom hcount
        (OpenGroup.single hrange hfrom hbefore h.order.of_append_right.2) hgroups'
      refine ⟨List.forall_mem_cons.mpr ⟨hinside, hrest⟩, ?_⟩
      rw [h.write hcount hfar, hwritten, List.append_assoc, List.append_assoc,
        List.singleton_append, ← List.append_assoc,
        ← overlaidFrom_append (h.written_le.trans h.start_lt.le) h.end_le]

/-- What the groups of places in order come to, and when there are any. -/
theorem groupReplacements_overlay (hcount : lineCount content = lineCount base)
    (horder : InOrder 0 rs) {result : JsString} :
    ((groupReplacements (getLineSpans base) rs).map
        (overlayFrom (splitLinesWithEndings content) base (getLineSpans base) 0)) = .ok result ↔
      (∀ r ∈ rs, Inside base r) ∧ result = overlaid content base rs := by
  rw [Except.map_eq_ok, overlaid_eq, hcount]
  match rs with
  | [] =>
    have hnone := overlaidFrom_untouched content base []
      (Nat.zero_le _) (Nat.le_refl _) fun _ _ _ r hr => absurd hr List.not_mem_nil
    have hall : (splitLinesWithEndings content).take (lineCount content)
        = splitLinesWithEndings content := List.take_length
    rw [← hcount, hnone, List.drop_zero, Nat.sub_zero, hall]
    constructor
    · rintro ⟨groups, hgroups, rfl⟩
      obtain rfl := Except.ok.inj hgroups
      exact ⟨fun _ hmem => absurd hmem List.not_mem_nil, rfl⟩
    · rintro ⟨-, rfl⟩
      exact ⟨[], rfl, rfl⟩
  | r :: rest =>
    constructor
    · rintro ⟨groups, hgroups, rfl⟩
      obtain ⟨range, hrange, hgroups⟩ := Except.bind_eq_ok.mp hgroups
      have hopen : OpenGroup base [] ⟨range.startLine, range.endLine, [r]⟩ rest 0 :=
        .single hrange (Nat.zero_le _) (fun _ hmem => absurd hmem List.not_mem_nil) horder.2
      obtain ⟨hrest, hwritten⟩ := overlayFrom_groupFrom hcount hopen hgroups
      exact ⟨List.forall_mem_cons.mpr ⟨(getReplacementLineRange_ok hrange).1, hrest⟩, hwritten⟩
    · rintro ⟨hinside, rfl⟩
      obtain ⟨hr, hrest⟩ := List.forall_mem_cons.mp hinside
      obtain ⟨range, hrange⟩ := exists_getReplacementLineRange hr
      obtain ⟨groups, hgroups⟩ := exists_groupFrom ⟨range.startLine, range.endLine, [r]⟩ hrest
      have hopen : OpenGroup base [] ⟨range.startLine, range.endLine, [r]⟩ rest 0 :=
        .single hrange (Nat.zero_le _) (fun _ hmem => absurd hmem List.not_mem_nil) horder.2
      obtain ⟨-, hwritten⟩ := overlayFrom_groupFrom hcount hopen hgroups
      exact ⟨groups, Except.bind_eq_ok.mpr ⟨range, hrange, hgroups⟩, hwritten⟩

end Groups

/-- What the replacements that keep the other lines come to, and when they succeed. -/
theorem applyReplacementsPreserving_eq_ok (hchain : rs.IsChain Follows)
    (hsorted : rs.mergeSort matchOrder = rs) {result : JsString} :
    applyReplacementsPreservingUnchangedLines content base rs = .ok result ↔
      lineCount content = lineCount base ∧ (∀ r ∈ rs, Inside base r) ∧
        result = overlaid content base rs := by
  have horder : InOrder 0 rs := inOrder_of_isChain hchain 0 fun _ _ => Nat.zero_le _
  have hlength : (splitLinesWithEndings content).length = lineCount content := rfl
  unfold applyReplacementsPreservingUnchangedLines
  dsimp only
  rw [hsorted, length_getLineSpans, hlength]
  by_cases hcount : lineCount content = lineCount base
  · rw [if_neg (not_not.mpr hcount), ← groupReplacements_overlay hcount horder, Except.bind_eq_ok,
      Except.map_eq_ok]
    constructor
    · rintro ⟨groups, hgroups, hresult⟩
      exact ⟨hcount, groups, hgroups, Except.ok.inj hresult⟩
    · rintro ⟨-, groups, hgroups, rfl⟩
      exact ⟨groups, hgroups, rfl⟩
  · rw [if_pos hcount]
    constructor
    · intro h
      cases h
    · intro h
      exact absurd h.1 hcount

end Overlay

end PiMono.CodingAgent
