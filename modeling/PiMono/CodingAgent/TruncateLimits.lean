import PiMono.CodingAgent.Truncate
import PiMono.Lib.GreedyFit
import Mathlib.Algebra.Order.BigOperators.Group.List
import Mathlib.Algebra.Order.Group.Nat

/-!
# What truncation keeps

Both loops of `tools/truncate.ts` are runs of lines under two limits: `collectHead` from the
first line on, `collect` from the last. `collectHead_spec` and `collect_run` say how far they
get and which limit they report; the reports are wrong where all the lines fit and only the
newline behind them does not, and where the only line is cut and one line is the limit.
-/

namespace PiMono.CodingAgent

/-! ## The room of some lines -/

theorem byteLength_joinLines (lines : List JsString) :
    byteLength (joinLines lines) = (lines.map (byteLength · + 1)).sum - 1 := by
  induction lines with
  | nil => rfl
  | cons line lines ih =>
    rw [byteLength_joinLines_cons, ih, List.map_cons, List.sum_cons]
    cases lines with
    | nil => simp
    | cons next lines =>
      simp only [List.length_cons, List.map_cons, List.sum_cons, if_pos (Nat.succ_pos _)]
      omega

/-- What fits is closed under leaving lines out. -/
theorem Fits.of_sublist {maxLines maxBytes : Nat} {short long : List JsString}
    (h : short.Sublist long) (hfits : Fits maxLines maxBytes long) :
    Fits maxLines maxBytes short := by
  have hsum := (h.map (byteLength · + 1)).sum_le_sum fun _ _ => Nat.zero_le _
  have hbytes := hfits.2
  rw [byteLength_joinLines] at hbytes
  refine ⟨h.length_le.trans hfits.1, ?_⟩
  rw [byteLength_joinLines]
  omega

theorem byteLength_joinLines_concat (lines : List JsString) (line : JsString) :
    byteLength (joinLines (lines ++ [line]))
      = byteLength (joinLines lines)
        + (byteLength line + if 0 < lines.length then 1 else 0) := by
  rw [byteLength_joinLines, byteLength_joinLines]
  cases lines with
  | nil => simp
  | cons first lines =>
    simp only [List.map_append, List.sum_append, List.map_cons, List.map_nil, List.sum_cons,
      List.sum_nil, List.length_cons, if_pos (Nat.succ_pos _)]
    omega

section Loops

variable {maxLines maxBytes : Nat}

/-- A run of lines that stops at one of the limits, as its reason says. -/
structure Stopped (maxLines maxBytes : Nat) (all : List JsString) (c : Collected) : Prop where
  bytes : c.outputBytesCount = byteLength (joinLines c.outputLines)
  fits : Fits maxLines maxBytes c.outputLines
  reason : c.truncatedBy = .lines ∧ (c.outputLines.length = all.length ∨
      c.outputLines.length = maxLines) ∨
    c.truncatedBy = .bytes ∧ c.outputLines.length < all.length ∧ c.outputLines.length < maxLines

/-- The loop of `truncateHead` is the run of the lines that fit. -/
theorem collectHead_spec (lines : List JsString) : ∀ {c : Collected},
    c.outputBytesCount = byteLength (joinLines c.outputLines) →
      Fits maxLines maxBytes c.outputLines →
    c.truncatedBy = .lines →
      (collectHead maxLines maxBytes lines c).outputLines
          = runFit (Fits maxLines maxBytes) c.outputLines lines ∧
        Stopped maxLines maxBytes (c.outputLines ++ lines)
          (collectHead maxLines maxBytes lines c) := by
  induction lines with
  | nil =>
    intro c hbytes hfits hreason
    exact ⟨rfl, hbytes, hfits, Or.inl ⟨hreason, Or.inl (by simp [collectHead])⟩⟩
  | cons line lines ih =>
    intro c hbytes hfits hreason
    have hroom := byteLength_joinLines_concat c.outputLines line
    rw [collectHead, runFit]
    by_cases hlines : c.outputLines.length < maxLines
    · rw [if_pos hlines]
      simp only
      by_cases hover : maxBytes < c.outputBytesCount
          + (byteLength line + if 0 < c.outputLines.length then 1 else 0)
      · have hnot : ¬ Fits maxLines maxBytes (c.outputLines ++ [line]) := by
          rintro ⟨-, hle⟩
          omega
        rw [if_pos hover, if_neg hnot]
        refine ⟨rfl, hbytes, hfits, Or.inr ⟨rfl, ?_, hlines⟩⟩
        simp
      · have hnext : Fits maxLines maxBytes (c.outputLines ++ [line]) := by
          refine ⟨?_, by omega⟩
          rw [List.length_append]
          exact hlines
        rw [if_neg hover, if_pos hnext]
        have h := @ih { c with outputLines := c.outputLines ++ [line]
                               outputBytesCount := c.outputBytesCount + (byteLength line
                                 + if 0 < c.outputLines.length then 1 else 0) }
          (by show _ + _ = _; rw [hbytes, hroom]) hnext hreason
        have happ : c.outputLines ++ [line] ++ lines = c.outputLines ++ line :: lines := by simp
        rw [← happ]
        exact h
    · have hnot : ¬ Fits maxLines maxBytes (c.outputLines ++ [line]) := by
        rintro ⟨hle, -⟩
        rw [List.length_append, List.length_singleton] at hle
        omega
      rw [if_neg hlines, if_neg hnot]
      refine ⟨rfl, hbytes, hfits, Or.inl ⟨hreason, Or.inr ?_⟩⟩
      exact Nat.le_antisymm hfits.1 (Nat.le_of_not_lt hlines)

/-- The loop of `truncateTail` is the run of the lines, from the last one on, that fit, as
long as the last one does. -/
theorem collect_run (lines : List JsString) : ∀ {c : Collected},
    c.outputBytesCount = byteLength (joinLines c.outputLines) →
      Fits maxLines maxBytes c.outputLines →
    c.truncatedBy = .lines →
      (c.outputLines = [] → ∀ last ∈ lines.head?, byteLength last ≤ maxBytes) →
      (collect maxLines maxBytes lines c).outputLines.reverse
          = runFit (fun rev => Fits maxLines maxBytes rev.reverse) c.outputLines.reverse lines ∧
        (collect maxLines maxBytes lines c).lastLinePartial = c.lastLinePartial ∧
        Stopped maxLines maxBytes (lines.reverse ++ c.outputLines)
          (collect maxLines maxBytes lines c) := by
  induction lines with
  | nil =>
    intro c hbytes hfits hreason _
    exact ⟨rfl, rfl, hbytes, hfits, Or.inl ⟨hreason, Or.inl rfl⟩⟩
  | cons line lines ih =>
    intro c hbytes hfits hreason hlast
    have hroom := byteLength_joinLines_cons line c.outputLines
    have hreverse : (c.outputLines.reverse ++ [line]).reverse = line :: c.outputLines := by simp
    have happ : (line :: lines).reverse ++ c.outputLines
        = lines.reverse ++ (line :: c.outputLines) := by simp
    rw [collect, runFit, hreverse, happ]
    by_cases hlines : c.outputLines.length < maxLines
    · rw [if_pos hlines]
      simp only
      by_cases hover : maxBytes < c.outputBytesCount
          + (byteLength line + if 0 < c.outputLines.length then 1 else 0)
      · have hnot : ¬ Fits maxLines maxBytes (line :: c.outputLines) := by
          rintro ⟨-, hle⟩
          omega
        -- the line collected first fits, so there is no cut
        have hne : c.outputLines ≠ [] := by
          intro hnil
          have hline : byteLength line ≤ maxBytes := hlast hnil line rfl
          rw [hbytes, hnil] at hover
          simp [joinLines, List.intercalate] at hover
          omega
        rw [if_pos hover, if_neg hnot, if_neg hne]
        refine ⟨rfl, rfl, hbytes, hfits, Or.inr ⟨rfl, ?_, hlines⟩⟩
        simp only [List.length_append, List.length_cons]
        omega
      · have hnext : Fits maxLines maxBytes (line :: c.outputLines) := ⟨hlines, by omega⟩
        rw [if_neg hover, if_pos hnext]
        have h := @ih { c with outputLines := line :: c.outputLines
                               outputBytesCount := c.outputBytesCount + (byteLength line
                                 + if 0 < c.outputLines.length then 1 else 0) }
          (by show _ + _ = _; rw [hbytes, hroom]) hnext hreason
          (fun hnil => absurd hnil (List.cons_ne_nil _ _))
        have hrev : (line :: c.outputLines).reverse = c.outputLines.reverse ++ [line] := by simp
        rw [← hrev]
        exact h
    · have hnot : ¬ Fits maxLines maxBytes (line :: c.outputLines) := by
        rintro ⟨hle, -⟩
        exact hlines hle
      rw [if_neg hlines, if_neg hnot]
      refine ⟨rfl, rfl, hbytes, hfits, Or.inl ⟨hreason, Or.inr ?_⟩⟩
      exact Nat.le_antisymm hfits.1 (Nat.le_of_not_lt hlines)

end Loops

/-! ## What the functions return -/

section Results

variable {maxLines maxBytes : Nat} {content : JsString}

/-- Nothing is to be truncated. -/
def WithinLimits (content : JsString) (maxLines maxBytes : Nat) : Prop :=
  (splitLinesForCounting content).length ≤ maxLines ∧ byteLength content ≤ maxBytes

instance : Decidable (WithinLimits content maxLines maxBytes) :=
  inferInstanceAs (Decidable (_ ∧ _))

/-- A text is the longest run of the first lines that both limits allow. -/
def LongestHead (maxLines maxBytes : Nat) (lines : List JsString) (text : JsString) (n : Nat) :
    Prop :=
  n ≤ lines.length ∧ text = joinLines (lines.take n) ∧ Fits maxLines maxBytes (lines.take n) ∧
    ∀ m, m ≤ lines.length → Fits maxLines maxBytes (lines.take m) → m ≤ n

/-- The same for the last lines. -/
def LongestTail (maxLines maxBytes : Nat) (lines : List JsString) (text : JsString) (n : Nat) :
    Prop :=
  n ≤ lines.length ∧ text = joinLines (lines.drop (lines.length - n)) ∧
    Fits maxLines maxBytes (lines.drop (lines.length - n)) ∧
    ∀ m, m ≤ lines.length → Fits maxLines maxBytes (lines.drop (lines.length - m)) → m ≤ n

/-- The longest end of a line, in characters, that the limit allows. -/
def LongestEnd (maxBytes : Nat) (line kept : JsString) : Prop :=
  scalars kept <:+ scalars line ∧ byteLength kept ≤ maxBytes ∧
    ∀ cs, cs <:+ scalars line → byteLength (cs.flatMap utf16) ≤ maxBytes →
      cs.length ≤ (scalars kept).length

/-- The last line of a text that has lines. -/
def finalLine (content : JsString) : JsString := (splitLinesForCounting content).getLastD []

/-- The text, or the longest run of its first lines. -/
structure KeepsHead (content : JsString) (maxLines maxBytes : Nat) (r : TruncationResult) :
    Prop where
  whole : WithinLimits content maxLines maxBytes →
    r.content = content ∧ r.outputLines = (splitLinesForCounting content).length
  run : ¬ WithinLimits content maxLines maxBytes →
    LongestHead maxLines maxBytes (splitLinesForCounting content) r.content r.outputLines

/-- The text, or the longest run of its last lines, or the end of the last line where that
alone is too long. -/
structure KeepsTail (content : JsString) (maxLines maxBytes : Nat) (r : TruncationResult) :
    Prop where
  whole : WithinLimits content maxLines maxBytes →
    r.content = content ∧ r.outputLines = (splitLinesForCounting content).length
  run : ¬ WithinLimits content maxLines maxBytes → byteLength (finalLine content) ≤ maxBytes →
    LongestTail maxLines maxBytes (splitLinesForCounting content) r.content r.outputLines
  cut : ¬ WithinLimits content maxLines maxBytes → maxBytes < byteLength (finalLine content) →
    r.outputLines = 1 ∧ r.lastLinePartial = true ∧
      LongestEnd maxBytes (finalLine content) r.content

/-- The counters are those of the content, and a reason is given that applies. -/
structure Truthful (content : JsString) (maxLines : Nat) (r : TruncationResult) : Prop where
  bytes : r.outputBytes = byteLength r.content
  reason : r.truncatedBy = some .lines →
    r.outputLines = maxLines ∧ maxLines < (splitLinesForCounting content).length

theorem lines_ne_nil (h : ¬ WithinLimits content maxLines maxBytes) :
    splitLinesForCounting content ≠ [] := by
  refine splitLines_ne_nil fun hnil => h ?_
  rw [hnil]
  exact ⟨Nat.zero_le _, Nat.zero_le _⟩

theorem fits_nil : Fits maxLines maxBytes [] := ⟨Nat.zero_le _, Nat.zero_le _⟩

/-- The run of the first lines that fit is the longest. -/
theorem longestHead_runFit (lines : List JsString) :
    LongestHead maxLines maxBytes lines (joinLines (runFit (Fits maxLines maxBytes) [] lines))
      (runFit (Fits maxLines maxBytes) [] lines).length := by
  have hfront : runFit (Fits maxLines maxBytes) [] lines <+: lines := runFit_prefix
  have hfits : Fits maxLines maxBytes (runFit (Fits maxLines maxBytes) [] lines) :=
    runFit_fits fits_nil
  have htake := List.prefix_iff_eq_take.mp hfront
  refine ⟨hfront.length_le, congrArg joinLines htake, by rwa [← htake], fun n hn hn' => ?_⟩
  have h : lines.take n <+: runFit (Fits maxLines maxBytes) [] lines :=
    prefix_runFit (fun h => Fits.of_sublist h.sublist) List.nil_prefix
      (List.take_prefix n lines) hn'
  have hle := h.length_le
  rwa [List.length_take, Nat.min_eq_left hn] at hle

/-- The run of the last lines that fit is the longest. -/
theorem longestTail_runFit (lines : List JsString) {kept : List JsString}
    (hkept : kept.reverse
      = runFit (fun rev => Fits maxLines maxBytes rev.reverse) [] lines.reverse) :
    LongestTail maxLines maxBytes lines (joinLines kept) kept.length := by
  have hsuffix : kept <:+ lines := by
    rw [← List.reverse_prefix, hkept]
    exact runFit_prefix
  have hfits : Fits maxLines maxBytes kept := by
    have h : Fits maxLines maxBytes
        (runFit (fun rev => Fits maxLines maxBytes rev.reverse) [] lines.reverse).reverse :=
      @runFit_fits _ (fun rev : List JsString => Fits maxLines maxBytes rev.reverse) _
        lines.reverse []
        fits_nil
    rwa [← hkept, List.reverse_reverse] at h
  have hdrop := List.suffix_iff_eq_drop.mp hsuffix
  refine ⟨hsuffix.length_le, congrArg joinLines hdrop, by rwa [← hdrop], fun n hn hn' => ?_⟩
  have h : (lines.drop (lines.length - n)).reverse <+: kept.reverse := by
    rw [hkept]
    refine prefix_runFit (fun h => Fits.of_sublist (List.reverse_sublist.mpr h.sublist))
      List.nil_prefix (List.reverse_prefix.mpr (List.drop_suffix _ lines)) ?_
    rwa [List.reverse_reverse]
  have hle := h.length_le
  rw [List.length_reverse, List.length_reverse, List.length_drop] at hle
  omega

/-- Where the first line is too long there is no run. -/
theorem longestHead_nil {lines : List JsString} (hne : lines ≠ [])
    (hfirst : maxBytes < byteLength (lines.headD [])) :
    LongestHead maxLines maxBytes lines [] 0 := by
  refine ⟨Nat.zero_le _, rfl, fits_nil, fun n hn hfits => ?_⟩
  by_contra hpos
  have hhead : [lines.headD []].Sublist (lines.take n) := by
    obtain ⟨first, rest, rfl⟩ := List.exists_cons_of_ne_nil hne
    obtain ⟨k, rfl⟩ := Nat.exists_eq_succ_of_ne_zero (by omega : n ≠ 0)
    rw [List.take_succ_cons, List.headD_cons]
    exact List.singleton_sublist.mpr List.mem_cons_self
  have hone := (Fits.of_sublist hhead hfits).2
  rw [joinLines_singleton] at hone
  omega

theorem longestEnd_lastBytes {line : JsString} (h : maxBytes < byteLength line) :
    LongestEnd maxBytes line (lastBytes maxBytes line) := by
  rw [lastBytes_scalars h, LongestEnd, scalars_flatMap_utf16, byteLength, encodeUtf8_text]
  refine ⟨lastChars_suffix _ _, length_lastChars_le _ _, fun cs hcs hfits => ?_⟩
  rw [byteLength, encodeUtf8_text] at hfits
  exact length_le_lastChars hcs hfits

theorem keepsHead_truncateHead (content : JsString) (maxLines maxBytes : Nat) :
    KeepsHead content maxLines maxBytes (truncateHead content maxLines maxBytes) := by
  constructor
  · intro hwithin
    rw [truncateHead]
    simp only [if_pos (show _ ∧ _ from hwithin), and_self]
  · intro hover
    have hne := lines_ne_nil hover
    rw [truncateHead]
    simp only [if_neg (show ¬ (_ ∧ _) from hover)]
    split
    · exact longestHead_nil hne (by assumption)
    · have hrun := (@collectHead_spec maxLines maxBytes (splitLinesForCounting content) .none rfl
        fits_nil rfl).1
      show LongestHead _ _ _ (joinLines _) _
      rw [hrun]
      exact longestHead_runFit _

/-- What is collected from the end where the last line fits. -/
theorem collectedLines_run (hlast : byteLength (finalLine content) ≤ maxBytes) :
    (collectedLines maxLines maxBytes content).outputLines.reverse
        = runFit (fun rev => Fits maxLines maxBytes rev.reverse) []
          (splitLinesForCounting content).reverse ∧
      Stopped maxLines maxBytes (splitLinesForCounting content)
        (collectedLines maxLines maxBytes content) := by
  have hhead : Collected.none.outputLines = [] →
      ∀ last ∈ (splitLinesForCounting content).reverse.head?, byteLength last ≤ maxBytes := by
    intro _ last hmem
    rw [List.head?_reverse] at hmem
    have heq : finalLine content = last := by
      rw [finalLine, List.getLastD_eq_getLast?, hmem]
      rfl
    rw [← heq]
    exact hlast
  obtain ⟨hrun, -, hstopped⟩ := @collect_run maxLines maxBytes
    (splitLinesForCounting content).reverse .none rfl fits_nil rfl hhead
  refine ⟨hrun, ?_⟩
  have hall : (splitLinesForCounting content).reverse.reverse ++ Collected.none.outputLines
      = splitLinesForCounting content := by
    rw [List.reverse_reverse]
    exact List.append_nil _
  rwa [hall] at hstopped

/-- And where it does not. -/
theorem collectedLines_cut (hpos : 0 < maxLines) (hne : splitLinesForCounting content ≠ [])
    (hlast : maxBytes < byteLength (finalLine content)) :
    collectedLines maxLines maxBytes content
      = ⟨[lastBytes maxBytes (finalLine content)],
        byteLength (lastBytes maxBytes (finalLine content)), .bytes, true⟩ := by
  have hlines : (splitLinesForCounting content).reverse
      = finalLine content :: (splitLinesForCounting content).dropLast.reverse := by
    have hsplit := List.dropLast_append_getLast hne
    rw [finalLine, List.getLastD_eq_getLast?, List.getLast?_eq_some_getLast hne, Option.getD_some]
    conv_lhs => rw [← hsplit, List.reverse_append, List.reverse_singleton, List.singleton_append]
  rw [collectedLines, hlines, collect_partial hpos hlast]

theorem keepsTail_truncateTail {content : JsString} {maxLines maxBytes : Nat}
    (hpos : 0 < maxLines) :
    KeepsTail content maxLines maxBytes (truncateTail content maxLines maxBytes) := by
  constructor
  · intro hwithin
    rw [truncateTail]
    simp only [if_pos (show _ ∧ _ from hwithin), and_self]
  · intro hover hlast
    obtain ⟨hcontent, -, hlines, -, -⟩ := truncateTail_over (show ¬ (_ ∧ _) from hover)
    rw [hcontent, hlines]
    exact longestTail_runFit _ (collectedLines_run hlast).1
  · intro hover hlast
    obtain ⟨hcontent, -, hlines, hpartial, -⟩ := truncateTail_over (show ¬ (_ ∧ _) from hover)
    rw [hcontent, hlines, hpartial, collectedLines_cut hpos (lines_ne_nil hover) hlast]
    refine ⟨rfl, rfl, ?_⟩
    show LongestEnd _ _ (joinLines [_])
    rw [joinLines_singleton]
    exact longestEnd_lastBytes hlast

/-! ## Which limit is reported -/

/-- All the lines fit, and the newline behind them does not. -/
def NewlineOver (content : JsString) (maxLines maxBytes : Nat) : Prop :=
  (splitLinesForCounting content).length ≤ maxLines ∧
    byteLength (joinLines (splitLinesForCounting content)) ≤ maxBytes ∧
    maxBytes < byteLength content

/-- The text is one line, which is cut, and one line is the limit. -/
def OnlyLineCut (content : JsString) (maxLines maxBytes : Nat) : Prop :=
  maxLines = 1 ∧ (splitLinesForCounting content).length = 1 ∧
    maxBytes < byteLength (finalLine content)

/-- The limit that is reported for what a loop has collected. -/
def reported (maxLines maxBytes : Nat) (c : Collected) : TruncatedBy :=
  if maxLines ≤ c.outputLines.length ∧ c.outputBytesCount ≤ maxBytes then .lines
  else c.truncatedBy

/-- A run that stopped at the line limit has kept that many, and there are more, unless it
has all of them. -/
theorem reported_iff {c : Collected} (hover : ¬ WithinLimits content maxLines maxBytes)
    (hstopped : Stopped maxLines maxBytes (splitLinesForCounting content) c)
    (hall : Fits maxLines maxBytes (splitLinesForCounting content)
      ↔ (splitLinesForCounting content).length ≤ c.outputLines.length)
    (hle : c.outputLines.length ≤ (splitLinesForCounting content).length) :
    (reported maxLines maxBytes c = .lines → c.outputLines.length = maxLines ∧
        maxLines < (splitLinesForCounting content).length)
      ↔ ¬ NewlineOver content maxLines maxBytes := by
  have hbytes : c.outputBytesCount ≤ maxBytes := by
    rw [hstopped.bytes]
    exact hstopped.fits.2
  have hnewline : NewlineOver content maxLines maxBytes
      ↔ Fits maxLines maxBytes (splitLinesForCounting content) := by
    constructor
    · rintro ⟨hlines, hjoin, -⟩
      exact ⟨hlines, hjoin⟩
    · rintro ⟨hlines, hjoin⟩
      exact ⟨hlines, hjoin, Nat.lt_of_not_le fun hfits => hover ⟨hlines, hfits⟩⟩
  have hmax := hstopped.fits.1
  rw [hnewline, hall]
  rcases hstopped.reason with ⟨hreason, hstop⟩ | ⟨hreason, hless, hlimit⟩
  · have hlines : reported maxLines maxBytes c = .lines := by
      rw [reported, hreason, ite_self]
    constructor
    · intro h
      have := (h hlines).2
      omega
    · intro h _
      omega
  · have hreported : reported maxLines maxBytes c = .bytes := by
      rw [reported, if_neg (by omega), hreason]
    rw [hreported]
    exact ⟨fun _ => by omega, fun _ h => absurd h (by decide)⟩

theorem truthful_truncateHead (content : JsString) (maxLines maxBytes : Nat) :
    Truthful content maxLines (truncateHead content maxLines maxBytes)
      ↔ ¬ NewlineOver content maxLines maxBytes := by
  by_cases hover : WithinLimits content maxLines maxBytes
  · rw [truncateHead]
    simp only [if_pos (show _ ∧ _ from hover)]
    exact ⟨fun _ h => absurd hover.2 (Nat.not_le_of_lt h.2.2), fun _ => ⟨rfl, nofun⟩⟩
  · rw [truncateHead]
    simp only [if_neg (show ¬ (_ ∧ _) from hover)]
    split
    · rename_i hfirst
      have hlongest := @longestHead_nil maxLines maxBytes _ (lines_ne_nil hover) hfirst
      refine ⟨fun _ h => ?_, fun _ => ⟨rfl, nofun⟩⟩
      have hzero := hlongest.2.2.2 _ (Nat.le_refl _) (by
        rw [List.take_length]
        exact ⟨h.1, h.2.1⟩)
      exact lines_ne_nil hover (List.eq_nil_of_length_eq_zero (Nat.le_zero.mp hzero))
    · obtain ⟨hrun, hstopped⟩ := @collectHead_spec maxLines maxBytes
        (splitLinesForCounting content) .none rfl fits_nil rfl
      have hlongest := @longestHead_runFit maxLines maxBytes (splitLinesForCounting content)
      rw [show runFit (Fits maxLines maxBytes) [] (splitLinesForCounting content) =
        _ from hrun.symm]
        at hlongest
      have hall : Fits maxLines maxBytes (splitLinesForCounting content)
          ↔ (splitLinesForCounting content).length
            ≤ (collectHead maxLines maxBytes (splitLinesForCounting content)
              .none).outputLines.length := by
        constructor
        · intro hfits
          exact hlongest.2.2.2 _ (Nat.le_refl _) (by rwa [List.take_length])
        · intro hle
          have hfits := hlongest.2.2.1
          rwa [List.take_of_length_le hle] at hfits
      rw [← reported_iff hover hstopped hall hlongest.1]
      exact ⟨fun h hreason => h.reason (congrArg some hreason),
        fun h => ⟨rfl, fun hreason => h (Option.some.inj hreason)⟩⟩

theorem byteLength_finalLine_le (content : JsString) :
    byteLength (finalLine content) ≤ byteLength (joinLines (splitLinesForCounting content)) := by
  by_cases hne : splitLinesForCounting content = []
  · rw [finalLine, hne]
    exact Nat.zero_le _
  · have hmem : finalLine content ∈ splitLinesForCounting content := by
      rw [finalLine, List.getLastD_eq_getLast?, List.getLast?_eq_some_getLast hne]
      exact List.getLast_mem hne
    have hone := (Fits.of_sublist (List.singleton_sublist.mpr hmem)
      ⟨Nat.le_refl (splitLinesForCounting content).length, Nat.le_refl _⟩).2
    rwa [joinLines_singleton] at hone

theorem byteLength_joinLines_split_le (content : JsString) :
    byteLength (joinLines (splitLinesForCounting content)) ≤ byteLength content := by
  by_cases hne : content = []
  · rw [hne]
    exact Nat.zero_le _
  · rcases byteLength_splitLines hne with ⟨-, h⟩ | ⟨-, h⟩ <;> omega

theorem truthful_truncateTail (hpos : 0 < maxLines) :
    Truthful content maxLines (truncateTail content maxLines maxBytes)
      ↔ ¬ NewlineOver content maxLines maxBytes ∧ ¬ OnlyLineCut content maxLines maxBytes := by
  have hfinal := byteLength_finalLine_le content
  have hjoin := byteLength_joinLines_split_le content
  by_cases hover : WithinLimits content maxLines maxBytes
  · rw [truncateTail]
    simp only [if_pos (show _ ∧ _ from hover)]
    have hbytes := hover.2
    refine ⟨fun _ => ⟨fun h => absurd h.2.2 (Nat.not_lt_of_le hbytes), fun h => ?_⟩,
      fun _ => ⟨rfl, nofun⟩⟩
    have := h.2.2
    omega
  · obtain ⟨-, hreason, hlines, -, -⟩ := truncateTail_over (show ¬ (_ ∧ _) from hover)
    have hout : (truncateTail content maxLines maxBytes).outputBytes
        = byteLength (truncateTail content maxLines maxBytes).content := by
      rw [truncateTail]
      simp only [if_neg (show ¬ (_ ∧ _) from hover)]
    have htruthful : Truthful content maxLines (truncateTail content maxLines maxBytes)
        ↔ (reported maxLines maxBytes (collectedLines maxLines maxBytes content) = .lines →
          (collectedLines maxLines maxBytes content).outputLines.length = maxLines ∧
            maxLines < (splitLinesForCounting content).length) := by
      rw [← hlines]
      exact ⟨fun h hr => h.reason (hreason.trans (congrArg some hr)),
        fun h => ⟨hout, fun hr => h (Option.some.inj (hreason.symm.trans hr))⟩⟩
    rw [htruthful]
    rcases Nat.lt_or_ge maxBytes (byteLength (finalLine content)) with hcut | hlast
    · -- the last line is cut: one line is kept, and reported as the limit if it is one
      have hne := lines_ne_nil hover
      have hsome : 0 < (splitLinesForCounting content).length := List.length_pos_of_ne_nil hne
      rw [collectedLines_cut hpos hne hcut, reported]
      have hfits : byteLength (lastBytes maxBytes (finalLine content)) ≤ maxBytes :=
        (longestEnd_lastBytes hcut).2.1
      have hnewline : ¬ NewlineOver content maxLines maxBytes := fun h => by
        have := h.2.1
        omega
      simp only [List.length_singleton, hfits, and_true, OnlyLineCut, hcut, hnewline,
        not_false_eq_true, true_and]
      by_cases hone : maxLines ≤ 1
      · rw [if_pos hone]
        constructor
        · intro h heq
          have := (h rfl).2
          omega
        · intro h _
          omega
      · rw [if_neg hone]
        exact ⟨fun _ => by omega, fun _ h => absurd h (by decide)⟩
    · obtain ⟨hrun, hstopped⟩ := @collectedLines_run maxLines maxBytes content hlast
      have hlongest := longestTail_runFit _ hrun
      have hall : Fits maxLines maxBytes (splitLinesForCounting content)
          ↔ (splitLinesForCounting content).length
            ≤ (collectedLines maxLines maxBytes content).outputLines.length := by
        constructor
        · intro hfits
          exact hlongest.2.2.2 _ (Nat.le_refl _) (by rwa [Nat.sub_self])
        · intro hle
          have hfits := hlongest.2.2.1
          rwa [Nat.sub_eq_zero_of_le hle] at hfits
      rw [reported_iff hover hstopped hall hlongest.1]
      have hnotCut : ¬ OnlyLineCut content maxLines maxBytes := fun h =>
        absurd h.2.2 (Nat.not_lt_of_le hlast)
      simp [hnotCut]

end Results

end PiMono.CodingAgent
