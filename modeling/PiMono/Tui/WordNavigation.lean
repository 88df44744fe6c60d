import PiMono.Lib.Occurrences
import PiMono.Tui.PasteMarkers

/-!
# Word navigation

`segmentWithMarkers` of `tui/src/components/editor.ts:39-93` and `tui/src/word-navigation.ts`:
where a word begins in front of the cursor, and where it ends behind it. The word segmenter of
the runtime is a parameter; the segments it returns make the text up.
-/

namespace PiMono

open Markers

/-- `Intl.SegmentData` -/
structure WordSegment where
  segment : JsString
  isWordLike : Bool
  deriving DecidableEq

/-- The id of a text that `PASTE_MARKER_SINGLE` matches. -/
def markerId? (text : JsString) : Option Nat :=
  let opening := js "[paste #"
  let digits := (text.drop opening.length).takeWhile isDigitUnit
  let size := (text.drop (opening.length + digits.length)).dropLast
  if digits ≠ [] ∧ isMarkerSize size = true ∧ text = opening ++ digits ++ size ++ js "]" then
    some (digitsNat (digits.filterMap unitDigit?))
  else none

/-- `isPasteMarker` -/
def isPasteMarker (segment : JsString) : Bool :=
  10 ≤ segment.length && (markerId? segment).isSome

/-- Where a marker stands in a text. -/
structure MarkerSpan where
  start : Nat
  stop : Nat
  deriving DecidableEq

/-- The spans of the markers among the pieces of a text. -/
def spansFrom (index : Nat) : List (Piece UInt16) → List MarkerSpan
  | [] => []
  | piece :: pieces =>
    let rest := spansFrom (index + piece.text.length) pieces
    if piece.replacement?.isSome then ⟨index, index + piece.text.length⟩ :: rest else rest

/-- The markers of a text whose paste is registered. -/
def markerSpans (validIds : List Nat) (text : JsString) : List MarkerSpan :=
  spansFrom 0 (pieces 0x5D (fun word =>
    if (markerId? word).any validIds.contains then some word else none) text)

/-- The loop of `segmentWithMarkers`: `index` is where the next segment stands. -/
def mergeMarkers (text : JsString) : List MarkerSpan → Nat → List WordSegment → List WordSegment
  | _, _, [] => []
  | markers, index, seg :: segs =>
    let markers := markers.dropWhile (·.stop ≤ index)
    let rest := mergeMarkers text markers (index + seg.segment.length) segs
    match markers.head? with
    | none => seg :: rest
    | some marker =>
      if marker.start ≤ index ∧ index < marker.stop then
        if index = marker.start then
          ⟨(text.take marker.stop).drop marker.start, false⟩ :: rest
        else rest
      else seg :: rest

section Segments

variable (wordSegments : JsString → List WordSegment) (validIds : List Nat)

/-- `segmentWithMarkers` with the segmenter for words. -/
def segmentWithMarkers (text : JsString) : List WordSegment :=
  if validIds = [] ∨ indexOf? text (js "[paste #") = none then wordSegments text
  else
    let markers := markerSpans validIds text
    if markers = [] then wordSegments text
    else mergeMarkers text markers 0 (wordSegments text)

/-- `/\s/.test(char)` -/
def isWhitespaceChar (char : JsString) : Bool := char.any isTrimmed

/-- `PUNCTUATION_REGEX` -/
def isPunctuation (u : UInt16) : Bool :=
  (js "()\x7b\x7d[]<>.,;:'\"!?+-=*/\\|&%^$#@~\x60").contains u

/-- The length of some segments. -/
def segsLength (segs : List WordSegment) : Nat := (segs.map (·.segment.length)).sum

/-- White space that is no marker. -/
def WordSegment.isSpace (seg : WordSegment) : Bool :=
  !isPasteMarker seg.segment && isWhitespaceChar seg.segment

/-- Neither a marker nor a word nor white space. -/
def WordSegment.isOther (seg : WordSegment) : Bool :=
  !isPasteMarker seg.segment && !seg.isWordLike && !isWhitespaceChar seg.segment

/-- How far `findWordBackward` goes: the segments come last first. -/
def backwardLength (segs : List WordSegment) : Nat :=
  segsLength (segs.takeWhile (·.isSpace)) +
    match segs.dropWhile (·.isSpace) with
    | [] => 0
    | last :: segs =>
      if isPasteMarker last.segment then last.segment.length
      else if last.isWordLike then
        -- what stands behind the last punctuation of the word, or the whole word
        (last.segment.reverse.takeWhile (! isPunctuation ·)).length
      else segsLength ((last :: segs).takeWhile (·.isOther))

/-- `findWordBackward` -/
def findWordBackward (text : JsString) (cursor : Nat) : Nat :=
  cursor - backwardLength (segmentWithMarkers wordSegments validIds (text.take cursor)).reverse

/-- How far `findWordForward` goes. -/
def forwardLength (segs : List WordSegment) : Nat :=
  segsLength (segs.takeWhile (·.isSpace)) +
    match segs.dropWhile (·.isSpace) with
    | [] => 0
    | next :: segs =>
      if isPasteMarker next.segment then next.segment.length
      else if next.isWordLike then (next.segment.takeWhile (! isPunctuation ·)).length
      else segsLength ((next :: segs).takeWhile (·.isOther))

/-- `findWordForward` -/
def findWordForward (text : JsString) (cursor : Nat) : Nat :=
  if text.length ≤ cursor then text.length
  else cursor + forwardLength (segmentWithMarkers wordSegments validIds (text.drop cursor))

end Segments

/-! ## A cursor moves within the text -/

/-- What the runtime's segmenter returns. -/
structure IsSegmenter (wordSegments : JsString → List WordSegment) : Prop where
  text_eq : ∀ text, (wordSegments text).flatMap WordSegment.segment = text
  ne_nil : ∀ text, ∀ seg ∈ wordSegments text, seg.segment ≠ []

@[simp] theorem segsLength_nil : segsLength [] = 0 := rfl

@[simp] theorem segsLength_cons (seg : WordSegment) (segs : List WordSegment) :
    segsLength (seg :: segs) = seg.segment.length + segsLength segs := rfl

theorem segsLength_append (segs more : List WordSegment) :
    segsLength (segs ++ more) = segsLength segs + segsLength more := by
  induction segs with
  | nil => exact (Nat.zero_add _).symm
  | cons seg segs ih =>
    rw [List.cons_append, segsLength_cons, segsLength_cons, ih, Nat.add_assoc]

theorem segsLength_reverse (segs : List WordSegment) :
    segsLength segs.reverse = segsLength segs := by
  induction segs with
  | nil => rfl
  | cons seg segs ih => rw [List.reverse_cons, segsLength_append, ih, Nat.add_comm]; rfl

theorem segsLength_eq_length (segs : List WordSegment) :
    segsLength segs = (segs.flatMap WordSegment.segment).length := by
  induction segs with
  | nil => rfl
  | cons seg segs ih => rw [segsLength_cons, ih, List.flatMap_cons, List.length_append]

theorem spansFrom_stop {index : Nat} {ps : List (Piece UInt16)} :
    ∀ m ∈ spansFrom index ps, m.stop ≤ index + (ps.flatMap Piece.text).length := by
  induction ps generalizing index with
  | nil => exact fun m hm => absurd hm List.not_mem_nil
  | cons piece ps ih =>
    intro m hm
    rw [List.flatMap_cons, List.length_append, ← Nat.add_assoc]
    rw [spansFrom] at hm
    split at hm
    · rcases List.mem_cons.mp hm with rfl | hm
      · exact Nat.le_add_right _ _
      · exact ih m hm
    · exact ih m hm

/-- A marker ends within the text. -/
theorem markerSpans_stop {validIds : List Nat} {text : JsString} :
    ∀ m ∈ markerSpans validIds text, m.stop ≤ text.length := by
  intro m hm
  have hstop := spansFrom_stop m hm
  rw [show (pieces 0x5D _ text).flatMap Piece.text = text from piecesFrom_text 0 text,
    Nat.zero_add] at hstop
  exact hstop

/-- What is already passed: the marker that the last segments stand in, to its end. -/
def markersPassed (markers : List MarkerSpan) (index : Nat) : Nat :=
  match (markers.dropWhile (·.stop ≤ index)).head? with
  | none => index
  | some marker => if marker.start < index then marker.stop else index

theorem stop_of_head {markers : List MarkerSpan} {index : Nat} {marker : MarkerSpan}
    (h : (markers.dropWhile (·.stop ≤ index)).head? = some marker) :
    marker ∈ markers ∧ index < marker.stop := by
  have hhead := List.head?_dropWhile_not (fun m : MarkerSpan => decide (m.stop ≤ index)) markers
  rw [h] at hhead
  refine ⟨(List.dropWhile_sublist _).subset (List.mem_of_head? h), ?_⟩
  have hnot : ¬ marker.stop ≤ index := by simpa using hhead
  omega

theorem le_markersPassed (markers : List MarkerSpan) (index : Nat) :
    index ≤ markersPassed markers index := by
  unfold markersPassed
  cases h : (markers.dropWhile (·.stop ≤ index)).head? with
  | none => exact Nat.le_refl index
  | some marker =>
    show index ≤ if marker.start < index then marker.stop else index
    split
    · exact Nat.le_of_lt (stop_of_head h).2
    · exact Nat.le_refl index

/-- Within a marker it is passed to its end. -/
theorem stop_le_markersPassed {marker : MarkerSpan} {markers : List MarkerSpan} {index : Nat}
    (h : marker.start < index) : marker.stop ≤ markersPassed (marker :: markers) index := by
  by_cases hstop : marker.stop ≤ index
  · exact hstop.trans (le_markersPassed _ index)
  · have hhead : (marker :: markers).dropWhile (·.stop ≤ index) = marker :: markers := by
      rw [List.dropWhile_cons_of_neg (by simpa using hstop)]
    unfold markersPassed
    rw [hhead]
    show marker.stop ≤ if marker.start < index then marker.stop else index
    rw [if_pos h]

/-- **Merged segments** are no longer than the text. -/
theorem segsLength_mergeMarkers {text : JsString} (segs : List WordSegment) :
    ∀ (markers : List MarkerSpan) (index : Nat),
      (∀ m ∈ markers, m.stop ≤ text.length) → (∀ seg ∈ segs, seg.segment ≠ []) →
      index + segsLength segs = text.length →
        segsLength (mergeMarkers text markers index segs)
          + min (markersPassed markers index) text.length ≤ text.length := by
  induction segs with
  | nil =>
    intro markers index _ _ _
    exact (Nat.zero_add _).trans_le (Nat.min_le_right _ _)
  | cons seg segs ih =>
    intro markers index hstops hne hlen
    rw [segsLength_cons] at hlen
    have hpos := List.length_pos_of_ne_nil (hne seg List.mem_cons_self)
    have hsub : ∀ m ∈ markers.dropWhile (·.stop ≤ index), m.stop ≤ text.length := fun m hm =>
      hstops m ((List.dropWhile_sublist _).subset hm)
    have hrest := ih (markers.dropWhile (·.stop ≤ index)) (index + seg.segment.length) hsub
      (fun s hs => hne s (List.mem_cons_of_mem seg hs)) (by omega)
    have hle := le_markersPassed (markers.dropWhile (·.stop ≤ index)) (index + seg.segment.length)
    rw [mergeMarkers, markersPassed]
    cases h : (markers.dropWhile (·.stop ≤ index)).head? with
    | none =>
      simp only [segsLength_cons]
      omega
    | some marker =>
      obtain ⟨hmem, hlt⟩ := stop_of_head h
      have hstop := hstops marker hmem
      obtain ⟨rest, heq⟩ : ∃ rest, markers.dropWhile (·.stop ≤ index) = marker :: rest :=
        List.head?_eq_some_iff.mp h
      rw [heq] at hrest hle
      simp only [heq]
      by_cases hin : marker.start ≤ index
      · have hpassed := @stop_le_markersPassed marker rest (index + seg.segment.length) (by omega)
        rw [if_pos ⟨hin, hlt⟩]
        by_cases hstart : index = marker.start
        · rw [if_pos hstart, if_neg (by omega), segsLength_cons, List.length_drop,
            List.length_take]
          omega
        · rw [if_neg hstart, if_pos (by omega)]
          omega
      · rw [if_neg fun hboth => hin hboth.1, if_neg (by omega), segsLength_cons]
        omega

/-- The segments of the editor are no longer than the text. -/
theorem segsLength_segmentWithMarkers {wordSegments : JsString → List WordSegment}
    (h : IsSegmenter wordSegments) (validIds : List Nat) (text : JsString) :
    segsLength (segmentWithMarkers wordSegments validIds text) ≤ text.length := by
  have hplain : segsLength (wordSegments text) = text.length := by
    rw [segsLength_eq_length, h.text_eq]
  unfold segmentWithMarkers
  split
  · exact hplain.le
  · simp only
    split
    · exact hplain.le
    · have hmerged := segsLength_mergeMarkers (wordSegments text) (markerSpans validIds text) 0
        markerSpans_stop (h.ne_nil text) (by rw [hplain, Nat.zero_add])
      omega

theorem segsLength_takeWhile_le (p : WordSegment → Bool) (segs : List WordSegment) :
    segsLength (segs.takeWhile p) ≤ segsLength segs := by
  have hsplit := congrArg segsLength (@List.takeWhile_append_dropWhile _ p segs)
  rw [segsLength_append] at hsplit
  omega

/-- What is skipped, and the segment that decides, are some of the segments. -/
theorem backwardLength_le (segs : List WordSegment) : backwardLength segs ≤ segsLength segs := by
  have hsplit := congrArg segsLength (@List.takeWhile_append_dropWhile _ WordSegment.isSpace segs)
  rw [segsLength_append] at hsplit
  rw [← hsplit]
  refine Nat.add_le_add_left ?_ _
  cases segs.dropWhile WordSegment.isSpace with
  | nil => exact Nat.le_refl 0
  | cons last segs =>
    have hone : last.segment.length ≤ segsLength (last :: segs) := Nat.le_add_right _ _
    simp only
    split
    · exact hone
    · split
      · refine le_trans ((List.takeWhile_sublist _).length_le) ?_
        rw [List.length_reverse]
        exact hone
      · exact segsLength_takeWhile_le _ _

theorem forwardLength_le (segs : List WordSegment) : forwardLength segs ≤ segsLength segs := by
  have hsplit := congrArg segsLength (@List.takeWhile_append_dropWhile _ WordSegment.isSpace segs)
  rw [segsLength_append] at hsplit
  rw [← hsplit]
  refine Nat.add_le_add_left ?_ _
  cases segs.dropWhile WordSegment.isSpace with
  | nil => exact Nat.le_refl 0
  | cons next segs =>
    have hone : next.segment.length ≤ segsLength (next :: segs) := Nat.le_add_right _ _
    simp only
    split
    · exact hone
    · split
      · exact le_trans ((List.takeWhile_sublist _).length_le) hone
      · exact segsLength_takeWhile_le _ _

/-- **Word moves stay in the text**: backward nothing is subtracted below zero, forward the cursor
does not pass the end. -/
theorem wordMoves_within {wordSegments : JsString → List WordSegment}
    (h : IsSegmenter wordSegments) (validIds : List Nat) (text : JsString) (cursor : Nat) :
    backwardLength (segmentWithMarkers wordSegments validIds (text.take cursor)).reverse ≤ cursor ∧
      findWordForward wordSegments validIds text cursor ≤ text.length := by
  constructor
  · refine (backwardLength_le _).trans ?_
    rw [segsLength_reverse]
    exact (segsLength_segmentWithMarkers h validIds _).trans (List.length_take_le _ _)
  · unfold findWordForward
    split
    · exact Nat.le_refl _
    · have hle := (forwardLength_le _).trans
        (segsLength_segmentWithMarkers h validIds (text.drop cursor))
      rw [List.length_drop] at hle
      omega

theorem wordMoves_within_pasted :
    findWordForward (·.map fun u => ⟨[u], true⟩) [1] (js "a [paste #1 +10 lines] b") 1 ≤ 24 :=
  (wordMoves_within ⟨fun _ => by simp [List.flatMap_map], by simp⟩ [1]
    (js "a [paste #1 +10 lines] b") 1).2

end PiMono
