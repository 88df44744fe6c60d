import PiMono.Tui.WordNavigation

/-!
# Word wrap

`wordWrapLine` and `layoutText` of `tui/src/components/editor.ts`. The width of a text, the
grapheme segmenter and the characters between which a line may break are parameters. A chunk is
described by the pieces of the line that it holds (`WrapsTo`).
-/

namespace PiMono.Tui

/-- `TextChunk` -/
structure TextChunk where
  text : JsString
  startIndex : Nat
  endIndex : Nat
  deriving DecidableEq

/-- The variables of the loop of `wordWrapLine`; the wrap opportunity is an index and the width in
front of it. -/
structure WrapState where
  chunks : List TextChunk
  currentWidth : Nat
  chunkStart : Nat
  wrapOpp : Option (Nat × Nat)

/-- `LayoutLine` -/
structure LayoutLine where
  text : JsString
  hasCursor : Bool
  cursorPos : Option Nat
  deriving DecidableEq

section Wrap

variable (visibleWidth : JsString → Nat) (graphemes : JsString → List JsString)
variable (cjkBreak : JsString → Bool) (maxWidth : Nat)

/-- `line.slice(start, stop)` -/
def lineSlice (line : JsString) (start stop : Nat) : JsString := (line.take stop).drop start

namespace WrapState

/-- The chunk ends at an index, where the next one starts. -/
def push (s : WrapState) (line : JsString) (index : Nat) : WrapState :=
  { s with
    chunks := s.chunks ++ [⟨lineSlice line s.chunkStart index, s.chunkStart, index⟩]
    chunkStart := index }

/-- The overflow check in front of a segment. -/
def overflow (s : WrapState) (line : JsString) (charIndex gWidth : Nat) : WrapState :=
  if maxWidth < s.currentWidth + gWidth then
    let forced := if s.chunkStart < charIndex then
        { s.push line charIndex with currentWidth := 0 }
      else s
    let broken := match s.wrapOpp with
      | some (wrapOppIndex, wrapOppWidth) =>
        if s.currentWidth - wrapOppWidth + gWidth ≤ maxWidth then
          { s.push line wrapOppIndex with currentWidth := s.currentWidth - wrapOppWidth }
        else forced
      | none => forced
    { broken with wrapOpp := none }
  else s

/-- The wrap opportunity behind a segment. -/
def opportunity (s : WrapState) (grapheme : JsString) (next : Option JsString) (nextIndex : Nat) :
    WrapState :=
  let isWs := !isPasteMarker grapheme && isWhitespaceChar grapheme
  match next with
  | none => s
  | some next =>
    if isWs && (isPasteMarker next || !isWhitespaceChar next) then
      { s with wrapOpp := some (nextIndex, s.currentWidth) }
    else if !isWs && !isWhitespaceChar next then
      let isCjk := !isPasteMarker grapheme && cjkBreak grapheme
      let nextIsCjk := !isPasteMarker next && cjkBreak next
      if isCjk || nextIsCjk then { s with wrapOpp := some (nextIndex, s.currentWidth) } else s
    else s

/-- The chunks of a segment that is too wide: the last one goes on. -/
def oversize (s : WrapState) (charIndex : Nat) (subChunks : List TextChunk) : WrapState :=
  let last := subChunks.getLastD ⟨[], 0, 0⟩
  { chunks := s.chunks ++ subChunks.dropLast.map fun sc =>
      ⟨sc.text, charIndex + sc.startIndex, charIndex + sc.endIndex⟩
    currentWidth := visibleWidth last.text
    chunkStart := charIndex + last.startIndex
    wrapOpp := none }

end WrapState

/-- The loop of `wordWrapLine`, given how a segment that is too wide is wrapped. -/
def wrapSegments (wrap : JsString → Option (List TextChunk)) (line : JsString) :
    WrapState → Nat → List JsString → Option WrapState
  | s, _, [] => some s
  | s, charIndex, grapheme :: rest =>
    let gWidth := visibleWidth grapheme
    let s := s.overflow maxWidth line charIndex gWidth
    if maxWidth < gWidth then
      (wrap grapheme).bind fun subChunks =>
        wrapSegments wrap line (s.oversize visibleWidth charIndex subChunks)
          (charIndex + grapheme.length) rest
    else
      let advanced := { s with currentWidth := s.currentWidth + gWidth }
      wrapSegments wrap line
        (advanced.opportunity cjkBreak grapheme rest.head? (charIndex + grapheme.length))
        (charIndex + grapheme.length) rest

/-- `wordWrapLine`; `none` where the calls are nested deeper than this. -/
def wordWrapLine : Nat → JsString → Option (List JsString) → Option (List TextChunk)
  | 0, _, _ => none
  | depth + 1, line, preSegmented =>
    if line = [] ∨ maxWidth = 0 then some [⟨[], 0, 0⟩]
    else if visibleWidth line ≤ maxWidth then some [⟨line, 0, line.length⟩]
    else
      (wrapSegments visibleWidth cjkBreak maxWidth (wordWrapLine depth · none) line
        ⟨[], 0, 0, none⟩ 0
        (preSegmented.getD (graphemes line))).map fun s =>
          (s.push line line.length).chunks

variable (segment : JsString → List JsString)

/-- The layout lines of a wrapped line. -/
def layoutChunks (isCurrentLine : Bool) (cursorPos : Nat) : List TextChunk → List LayoutLine
  | [] => []
  | chunk :: rest =>
    let isLastChunk := rest.isEmpty
    let hasCursorInChunk := isCurrentLine && chunk.startIndex ≤ cursorPos &&
      (isLastChunk || cursorPos < chunk.endIndex)
    let adjustedCursorPos :=
      if isLastChunk then cursorPos - chunk.startIndex
      else min (cursorPos - chunk.startIndex) chunk.text.length
    ⟨chunk.text, hasCursorInChunk, if hasCursorInChunk then some adjustedCursorPos else none⟩ ::
      layoutChunks isCurrentLine cursorPos rest

/-- The layout lines of one logical line. -/
def layoutLine (depth : Nat) (line : JsString) (isCurrentLine : Bool) (cursorCol : Nat) :
    Option (List LayoutLine) :=
  if visibleWidth line ≤ maxWidth then
    some [⟨line, isCurrentLine, if isCurrentLine then some cursorCol else none⟩]
  else
    (wordWrapLine visibleWidth graphemes cjkBreak maxWidth depth line (some (segment line))).map
      (layoutChunks isCurrentLine cursorCol)

/-- `layoutText`, with the content width `maxWidth`. -/
def layoutText (depth : Nat) (lines : List JsString) (cursorLine cursorCol : Nat) :
    Option (List LayoutLine) :=
  if lines = [] ∨ lines = [[]] then some [⟨[], true, some 0⟩]
  else
    (lines.zipIdx.mapM fun (line, i) =>
      layoutLine visibleWidth graphemes cjkBreak maxWidth segment depth line (i = cursorLine)
        cursorCol).map List.flatten

end Wrap

/-! ## Chunks and the pieces they hold -/

/-- The chunks that hold these pieces, the first one at `index`. -/
def chunksOf (index : Nat) : List (List JsString) → List TextChunk
  | [] => []
  | part :: parts =>
    ⟨part.flatten, index, index + part.flatten.length⟩ ::
      chunksOf (index + part.flatten.length) parts

theorem chunksOf_append (parts more : List (List JsString)) : ∀ index,
    chunksOf index (parts ++ more) =
      chunksOf index parts ++ chunksOf (index + parts.flatten.flatten.length) more := by
  induction parts with
  | nil => intro index; rfl
  | cons part parts ih =>
    intro index
    rw [List.cons_append, chunksOf, ih, chunksOf, List.flatten_cons, List.flatten_append,
      List.length_append, Nat.add_assoc]
    rfl

theorem chunksOf_shift (parts : List (List JsString)) (offset : Nat) : ∀ index,
    (chunksOf index parts).map (fun sc =>
        (⟨sc.text, offset + sc.startIndex, offset + sc.endIndex⟩ : TextChunk)) =
      chunksOf (offset + index) parts := by
  induction parts with
  | nil => intro index; rfl
  | cons part parts ih =>
    intro index
    rw [chunksOf, List.map_cons, ih, chunksOf, Nat.add_assoc]

theorem chunksOf_ne_nil {index : Nat} {parts : List (List JsString)} (h : parts ≠ []) :
    chunksOf index parts ≠ [] := by
  cases parts with
  | nil => exact absurd rfl h
  | cons part parts => exact List.cons_ne_nil _ _

/-- Each chunk starts where the one before it ends, and holds what stands between its ends. -/
def Consecutive (line : JsString) : Nat → List TextChunk → Prop
  | index, [] => index = line.length
  | index, chunk :: chunks =>
    chunk.startIndex = index ∧ index ≤ chunk.endIndex ∧
      chunk.text = lineSlice line index chunk.endIndex ∧ Consecutive line chunk.endIndex chunks

theorem lineSlice_append (before text after : JsString) :
    lineSlice (before ++ text ++ after) before.length (before.length + text.length) = text := by
  rw [lineSlice, ← List.length_append, List.take_left, List.drop_left]

theorem consecutive_chunksOf (parts : List (List JsString)) : ∀ before : JsString,
    Consecutive (before ++ parts.flatten.flatten) before.length
      (chunksOf before.length parts) := by
  induction parts with
  | nil => intro before; rw [chunksOf, Consecutive, List.flatten_nil, List.flatten_nil,
      List.append_nil]
  | cons part parts ih =>
    intro before
    have hrest := ih (before ++ part.flatten)
    rw [List.length_append] at hrest
    rw [chunksOf, Consecutive, List.flatten_cons, List.flatten_append, ← List.append_assoc]
    exact ⟨rfl, Nat.le_add_right _ _, (lineSlice_append _ _ _).symm, hrest⟩

/-! ## Widths -/

section Widths

variable (visibleWidth : JsString → Nat) (graphemes : JsString → List JsString) (maxWidth : Nat)

/-- The width of some pieces. -/
def piecesWidth (pieces : List JsString) : Nat := (pieces.map visibleWidth).sum

/-- The width of a part of the line is that of its pieces. -/
def Additive (pieces : List JsString) : Prop :=
  ∀ front middle back, pieces = front ++ middle ++ back →
    visibleWidth middle.flatten = piecesWidth visibleWidth middle

/-- The pieces between which a chunk may end: a piece that is too wide comes grapheme by
grapheme. -/
def atoms (pieces : List JsString) : List JsString :=
  pieces.flatMap fun piece => if maxWidth < visibleWidth piece then graphemes piece else [piece]

/-- What the runtime's grapheme segmenter returns. -/
structure IsGraphemeSegmenter : Prop where
  flatten_eq : ∀ text, (graphemes text).flatten = text
  ne_nil : ∀ text, ∀ grapheme ∈ graphemes text, grapheme ≠ []
  alone : ∀ text, ∀ grapheme ∈ graphemes text, graphemes grapheme = [grapheme]

/-- Consecutive pieces of a line, whose widths are additive. -/
structure Segmentation (line : JsString) (pieces : List JsString) : Prop where
  flatten_eq : pieces.flatten = line
  ne_nil : ∀ piece ∈ pieces, piece ≠ []
  additive : Additive visibleWidth (atoms visibleWidth graphemes maxWidth pieces)

/-- No grapheme of a piece that is too wide is too wide. -/
def Breakable (pieces : List JsString) : Prop :=
  ∀ piece ∈ pieces, maxWidth < visibleWidth piece →
    ∀ grapheme ∈ graphemes piece, visibleWidth grapheme ≤ maxWidth

/-- The chunks hold the pieces, as many in each as fit. -/
def WrapsTo (pieces : List JsString) (chunks : List TextChunk) : Prop :=
  ∃ parts : List (List JsString), parts ≠ [] ∧ parts.flatten = pieces ∧ chunks = chunksOf 0 parts ∧
    ∀ part ∈ parts, piecesWidth visibleWidth part ≤ maxWidth

variable {visibleWidth graphemes maxWidth}

theorem piecesWidth_append (pieces more : List JsString) :
    piecesWidth visibleWidth (pieces ++ more) =
      piecesWidth visibleWidth pieces + piecesWidth visibleWidth more := by
  rw [piecesWidth, List.map_append, List.sum_append]
  rfl

theorem atoms_cons (piece : JsString) (pieces : List JsString) :
    atoms visibleWidth graphemes maxWidth (piece :: pieces) =
      (if maxWidth < visibleWidth piece then graphemes piece else [piece]) ++
        atoms visibleWidth graphemes maxWidth pieces :=
  List.flatMap_cons

theorem flatten_atoms (hgraphemes : IsGraphemeSegmenter graphemes) (pieces : List JsString) :
    (atoms visibleWidth graphemes maxWidth pieces).flatten = pieces.flatten := by
  induction pieces with
  | nil => rfl
  | cons piece pieces ih =>
    rw [atoms_cons, List.flatten_append, ih, List.flatten_cons]
    split
    · rw [hgraphemes.flatten_eq]
    · rw [List.flatten_singleton]

/-- A part of additive pieces. -/
theorem Additive.of_append {front middle back : List JsString}
    (h : Additive visibleWidth (front ++ middle ++ back)) : Additive visibleWidth middle := by
  intro first inner last hmiddle
  refine h (front ++ first) inner (last ++ back) ?_
  rw [hmiddle]
  simp only [List.append_assoc]

/-! ## The loop -/

variable (visibleWidth maxWidth)

/-- Behind the pieces `read`: some of them are in chunks, and the others in the chunk to come. -/
def Reading (read : List JsString) (s : WrapState) : Prop :=
  ∃ (parts : List (List JsString)) (current : List JsString), read = parts.flatten ++ current ∧
    s.chunks = chunksOf 0 parts ∧ s.chunkStart = parts.flatten.flatten.length ∧
    s.currentWidth = piecesWidth visibleWidth current ∧ s.currentWidth ≤ maxWidth ∧
    (∀ part ∈ parts, piecesWidth visibleWidth part ≤ maxWidth) ∧
    ∀ index width, s.wrapOpp = some (index, width) → ∃ front back, current = front ++ back ∧
      index = s.chunkStart + front.flatten.length ∧ width = piecesWidth visibleWidth front

variable {visibleWidth maxWidth}

/-- A chunk that ends behind the first of the current pieces. -/
theorem push_chunks {parts : List (List JsString)} {front back rest : List JsString}
    {s : WrapState} (hchunks : s.chunks = chunksOf 0 parts)
    (hstart : s.chunkStart = parts.flatten.flatten.length) {line : JsString}
    (hline : line = (parts.flatten ++ (front ++ back) ++ rest).flatten) :
    (s.push line (s.chunkStart + front.flatten.length)).chunks = chunksOf 0 (parts ++ [front]) ∧
      (s.push line (s.chunkStart + front.flatten.length)).chunkStart =
        (parts ++ [front]).flatten.flatten.length := by
  have hslice : lineSlice line s.chunkStart (s.chunkStart + front.flatten.length) =
    front.flatten := by
    rw [hstart, hline, show (parts.flatten ++ (front ++ back) ++ rest).flatten =
      parts.flatten.flatten ++ front.flatten ++ (back ++ rest).flatten by
        simp only [List.flatten_append, List.append_assoc]]
    exact lineSlice_append _ _ _
  constructor
  · show s.chunks ++ [⟨lineSlice line s.chunkStart _, s.chunkStart, _⟩] = _
    rw [hslice, hchunks, chunksOf_append, Nat.zero_add, ← hstart]
    rfl
  · show s.chunkStart + front.flatten.length = _
    rw [hstart, List.flatten_append, List.flatten_append, List.length_append,
      List.flatten_singleton]

theorem forall_parts_concat {parts : List (List JsString)} {part : List JsString}
    (hparts : ∀ part ∈ parts, piecesWidth visibleWidth part ≤ maxWidth)
    (hpart : piecesWidth visibleWidth part ≤ maxWidth) :
    ∀ other ∈ parts ++ [part], piecesWidth visibleWidth other ≤ maxWidth := by
  intro other hother
  rcases List.mem_append.mp hother with hmem | hmem
  · exact hparts other hmem
  · rw [List.mem_singleton.mp hmem]
    exact hpart

/-- Behind the overflow check the segment fits, or it is too wide and nothing stands in front of
it. -/
theorem Reading.overflow {read rest : List JsString} {s : WrapState}
    (h : Reading visibleWidth maxWidth read s) (hne : ∀ piece ∈ read, piece ≠ []) {line : JsString}
    (hline : line = (read ++ rest).flatten) (gWidth : Nat) :
    Reading visibleWidth maxWidth read (s.overflow maxWidth line read.flatten.length gWidth) ∧
      ((s.overflow maxWidth line read.flatten.length gWidth).currentWidth + gWidth ≤ maxWidth ∨
        maxWidth < gWidth ∧
          (s.overflow maxWidth line read.flatten.length gWidth).chunkStart =
            read.flatten.length) := by
  have hstate := h
  obtain ⟨parts, current, rfl, hchunks, hstart, hwidth, hfits, hparts, hopp⟩ := h
  unfold WrapState.overflow
  split
  · rename_i hover
    dsimp only
    -- the line is broken in front of the segment, unless the chunk is empty
    have hforced : Reading visibleWidth maxWidth (parts.flatten ++ current)
        { (if s.chunkStart < (parts.flatten ++ current).flatten.length then
            { s.push line (parts.flatten ++ current).flatten.length with currentWidth := 0 }
          else s) with wrapOpp := none } ∧
        (({ (if s.chunkStart < (parts.flatten ++ current).flatten.length then
            { s.push line (parts.flatten ++ current).flatten.length with currentWidth := 0 }
          else s) with wrapOpp := none } : WrapState).currentWidth + gWidth ≤ maxWidth ∨
        maxWidth < gWidth ∧ ({ (if s.chunkStart < (parts.flatten ++ current).flatten.length then
            { s.push line (parts.flatten ++ current).flatten.length with currentWidth := 0 }
          else s) with wrapOpp := none } : WrapState).chunkStart =
            (parts.flatten ++ current).flatten.length) := by
      have hlen : (parts.flatten ++ current).flatten.length =
          s.chunkStart + current.flatten.length := by
        rw [hstart, List.flatten_append, List.length_append]
      rw [hlen]
      split
      · obtain ⟨hchunks', hstart'⟩ := @push_chunks parts current [] rest s hchunks hstart line
          (by rw [List.append_nil]; exact hline)
        refine ⟨⟨parts ++ [current], [], by simp, hchunks', hstart', rfl, Nat.zero_le _,
          forall_parts_concat hparts (hwidth ▸ hfits), nofun⟩, ?_⟩
        rcases Nat.lt_or_ge maxWidth gWidth with hwide | hnarrow
        · exact Or.inr ⟨hwide, rfl⟩
        · exact Or.inl (by rw [Nat.zero_add]; exact hnarrow)
      · rename_i hempty
        have hcurrent : current = [] := by
          cases current with
          | nil => rfl
          | cons piece current =>
            have hpos := List.length_pos_of_ne_nil (hne piece (by simp))
            rw [List.flatten_cons, List.length_append] at hempty
            omega
        subst hcurrent
        refine ⟨⟨parts, [], rfl, hchunks, hstart, hwidth, hfits, hparts, nofun⟩, Or.inr ⟨?_, rfl⟩⟩
        have hzero : s.currentWidth = 0 := hwidth
        omega
    cases hwrap : s.wrapOpp with
    | none => exact hforced
    | some opportunity =>
      obtain ⟨wrapOppIndex, wrapOppWidth⟩ := opportunity
      dsimp only
      split
      · rename_i hback
        obtain ⟨front, back, rfl, rfl, rfl⟩ := hopp wrapOppIndex wrapOppWidth hwrap
        obtain ⟨hchunks', hstart'⟩ := @push_chunks parts front back rest s hchunks hstart line hline
        rw [piecesWidth_append] at hwidth
        refine ⟨⟨parts ++ [front], back, by simp, hchunks', hstart', ?_, ?_,
          forall_parts_concat hparts (by omega), nofun⟩, Or.inl hback⟩
        · show s.currentWidth - _ = _
          omega
        · exact (Nat.sub_le _ _).trans hfits
      · exact hforced
  · rename_i hfit
    exact ⟨hstate, Or.inl (Nat.not_lt.mp hfit)⟩

/-- A piece that fits behind the current ones. -/
theorem Reading.advance {read : List JsString} {s : WrapState}
    (h : Reading visibleWidth maxWidth read s) {piece : JsString}
    (hfits : s.currentWidth + visibleWidth piece ≤ maxWidth) (cjkBreak : JsString → Bool)
    (next : Option JsString) :
    Reading visibleWidth maxWidth (read ++ [piece])
      (WrapState.opportunity cjkBreak { s with currentWidth := s.currentWidth + visibleWidth piece }
        piece next (read.flatten.length + piece.length)) := by
  obtain ⟨parts, current, rfl, hchunks, hstart, hwidth, -, hparts, hopp⟩ := h
  have hsum : s.currentWidth + visibleWidth piece = piecesWidth visibleWidth
    (current ++ [piece]) := by
    rw [piecesWidth_append, hwidth, show piecesWidth visibleWidth [piece] = visibleWidth piece from
      Nat.add_zero _]
  -- the opportunity is an earlier one, or the one behind the piece
  have hreading : ∀ wrapOpp, wrapOpp = s.wrapOpp ∨ wrapOpp =
      some ((parts.flatten ++ current).flatten.length + piece.length,
        s.currentWidth + visibleWidth piece) →
      Reading visibleWidth maxWidth (parts.flatten ++ current ++ [piece])
        ⟨s.chunks, s.currentWidth + visibleWidth piece, s.chunkStart, wrapOpp⟩ := by
    intro wrapOpp hwrapOpp
    refine ⟨parts, current ++ [piece], List.append_assoc _ _ _, hchunks, hstart, hsum,
      hfits, hparts,
      fun index width heq => ?_⟩
    rcases hwrapOpp with rfl | rfl
    · obtain ⟨front, back, rfl, hindex, hwidth'⟩ := hopp index width heq
      exact ⟨front, back ++ [piece], List.append_assoc _ _ _, hindex, hwidth'⟩
    · cases heq
      refine ⟨current ++ [piece], [], (List.append_nil _).symm, ?_, hsum⟩
      show _ = s.chunkStart + _
      rw [hstart]
      simp only [List.flatten_append, List.flatten_singleton, List.length_append]
      omega
  unfold WrapState.opportunity
  cases next with
  | none => exact hreading s.wrapOpp (Or.inl rfl)
  | some next =>
    dsimp only
    repeat' split
    all_goals first
      | exact hreading s.wrapOpp (Or.inl rfl)
      | exact hreading _ (Or.inr rfl)

/-- A piece that is too wide, whose graphemes are in chunks. -/
theorem Reading.oversize {read graphemes : List JsString} {s : WrapState}
    (h : Reading visibleWidth maxWidth read s) (hne : ∀ piece ∈ read, piece ≠ [])
    (hstart : s.chunkStart = read.flatten.length) {subChunks : List TextChunk}
    (hsub : WrapsTo visibleWidth maxWidth graphemes subChunks)
    (hadditive : Additive visibleWidth graphemes) :
    Reading visibleWidth maxWidth (read ++ graphemes)
      (s.oversize visibleWidth read.flatten.length subChunks) := by
  obtain ⟨parts, current, rfl, hchunks, hstart', -, -, hparts, -⟩ := h
  have hcurrent : current = [] := by
    cases current with
    | nil => rfl
    | cons piece current =>
      have hpos := List.length_pos_of_ne_nil (hne piece (by simp))
      rw [hstart', List.flatten_append, List.length_append, List.flatten_cons,
        List.length_append] at hstart
      omega
  subst hcurrent
  obtain ⟨subParts, hsome, rfl, rfl, hfits⟩ := hsub
  obtain ⟨front, last, rfl⟩ : ∃ front last, subParts = front ++ [last] :=
    ⟨subParts.dropLast, subParts.getLast hsome, (List.dropLast_append_getLast hsome).symm⟩
  obtain ⟨hfront, hlast⟩ := List.forall_mem_append.mp hfits
  have hlast := hlast last (List.mem_singleton_self last)
  have hflat : (front ++ [last]).flatten = front.flatten ++ last ++ [] := by
    rw [List.flatten_append, List.flatten_singleton, List.append_nil]
  have hwidth : visibleWidth last.flatten = piecesWidth visibleWidth last :=
    hadditive front.flatten last [] hflat
  have hsplit : chunksOf 0 (front ++ [last]) = chunksOf 0 front ++ [⟨last.flatten,
      front.flatten.flatten.length, front.flatten.flatten.length + last.flatten.length⟩] := by
    rw [chunksOf_append, Nat.zero_add]
    rfl
  unfold WrapState.oversize
  rw [hsplit, List.dropLast_concat, List.getLastD_concat, chunksOf_shift, Nat.add_zero]
  rw [List.append_nil] at hstart ⊢
  refine ⟨parts ++ front, last, ?_, ?_, ?_, hwidth, ?_, ?_, nofun⟩
  · rw [hflat, List.flatten_append, List.append_nil, List.append_assoc]
  · rw [chunksOf_append, Nat.zero_add, hchunks]
  · show _ + _ = _
    rw [List.flatten_append, List.flatten_append, List.length_append]
  · exact hwidth.trans_le hlast
  · exact List.forall_mem_append.mpr ⟨hparts, hfront⟩

/-- The loop reads all segments, if those that are too wide can be wrapped. -/
theorem wrapSegments_reading (hgraphemes : IsGraphemeSegmenter graphemes)
    (cjkBreak : JsString → Bool) {wrap : JsString → Option (List TextChunk)} {line : JsString}
    (segments : List JsString) (hne : ∀ segment ∈ segments, segment ≠ [])
    (hwrap : ∀ segment ∈ segments, maxWidth < visibleWidth segment →
      ∃ subChunks, wrap segment = some subChunks ∧
        WrapsTo visibleWidth maxWidth (graphemes segment) subChunks) :
    ∀ {read : List JsString} {s : WrapState}, Reading visibleWidth maxWidth read s →
      (∀ piece ∈ read, piece ≠ []) →
      Additive visibleWidth (read ++ atoms visibleWidth graphemes maxWidth segments) →
      line = (read ++ atoms visibleWidth graphemes maxWidth segments).flatten →
      ∃ t, wrapSegments visibleWidth cjkBreak maxWidth wrap line s read.flatten.length
        segments = some t ∧
        Reading visibleWidth maxWidth
          (read ++ atoms visibleWidth graphemes maxWidth segments) t := by
  induction segments with
  | nil =>
    intro read s h _ _ _
    exact ⟨s, rfl, by rw [show atoms visibleWidth graphemes maxWidth [] = [] from rfl,
      List.append_nil]; exact h⟩
  | cons segment segments ih =>
    intro read s h hread hadditive hline
    obtain ⟨hsegment, hsegments⟩ := List.forall_mem_cons.mp hne
    have hrest := fun other hother => hwrap other (List.mem_cons_of_mem segment hother)
    obtain ⟨hover, hfits⟩ := h.overflow hread hline (visibleWidth segment)
    rw [wrapSegments]
    rw [atoms_cons, ← List.append_assoc] at hadditive hline ⊢
    dsimp only
    split
    · rename_i hwide
      rw [if_pos hwide] at hadditive hline
      obtain ⟨subChunks, hsome, hsub⟩ := hwrap segment List.mem_cons_self hwide
      rw [hsome, Option.bind_some]
      have hstart := (hfits.resolve_left (by omega)).2
      have hnext := hover.oversize hread hstart hsub hadditive.of_append
      have hlen : read.flatten.length + segment.length =
          (read ++ graphemes segment).flatten.length := by
        rw [List.flatten_append, List.length_append, hgraphemes.flatten_eq]
      rw [hlen]
      refine ih hsegments hrest hnext ?_ hadditive hline
      intro piece hpiece
      rcases List.mem_append.mp hpiece with hmem | hmem
      · exact hread piece hmem
      · exact hgraphemes.ne_nil segment piece hmem
    · rename_i hnarrow
      rw [if_neg hnarrow] at hadditive hline
      have hnext := hover.advance (hfits.resolve_right fun hwide => hnarrow hwide.1) cjkBreak
        segments.head?
      have hlen : read.flatten.length + segment.length = (read ++ [segment]).flatten.length := by
        rw [List.flatten_append, List.length_append, List.flatten_singleton]
      rw [hlen] at hnext ⊢
      refine ih hsegments hrest hnext ?_ hadditive hline
      intro piece hpiece
      rcases List.mem_append.mp hpiece with hmem | hmem
      · exact hread piece hmem
      · rw [List.mem_singleton.mp hmem]
        exact hsegment

/-- Behind the loop the rest of the line makes the last chunk. -/
theorem Reading.finish {read : List JsString} {s : WrapState}
    (h : Reading visibleWidth maxWidth read s) {line : JsString} (hline : line = read.flatten) :
    WrapsTo visibleWidth maxWidth read (s.push line line.length).chunks := by
  obtain ⟨parts, current, rfl, hchunks, hstart, hwidth, hfits, hparts, -⟩ := h
  obtain ⟨hchunks', -⟩ := @push_chunks parts current [] [] s hchunks hstart line
    (by rw [List.append_nil, List.append_nil]; exact hline)
  have hlen : line.length = s.chunkStart + current.flatten.length := by
    rw [hline, hstart, List.flatten_append, List.length_append]
  rw [hlen]
  exact ⟨parts ++ [current], by simp, by simp, hchunks',
    forall_parts_concat hparts (hwidth ▸ hfits)⟩

/-! ## The line -/

variable (cjkBreak : JsString → Bool)

/-- A line is wrapped, if its segments that are too wide can be. -/
theorem wordWrapLine_of_wrap (hgraphemes : IsGraphemeSegmenter graphemes) (hmax : 1 ≤ maxWidth)
    {line : JsString} (preSegmented : Option (List JsString)) (depth : Nat)
    (hsegmentation : Segmentation visibleWidth graphemes maxWidth line
      (preSegmented.getD (graphemes line)))
    (hwrap : ∀ segment ∈ preSegmented.getD (graphemes line), maxWidth < visibleWidth segment →
      ∃ subChunks,
        wordWrapLine visibleWidth graphemes cjkBreak maxWidth depth segment none = some subChunks ∧
          WrapsTo visibleWidth maxWidth (graphemes segment) subChunks) :
    ∃ chunks,
      wordWrapLine visibleWidth graphemes cjkBreak maxWidth (depth + 1) line preSegmented
        = some chunks ∧
      WrapsTo visibleWidth maxWidth
        (atoms visibleWidth graphemes maxWidth (preSegmented.getD (graphemes line))) chunks := by
  obtain ⟨hflat, hne, hadditive⟩ := hsegmentation
  rw [wordWrapLine]
  generalize preSegmented.getD (graphemes line) = segments at *
  have hline : (atoms visibleWidth graphemes maxWidth segments).flatten = line :=
    (flatten_atoms hgraphemes segments).trans hflat
  by_cases hempty : line = []
  · rw [if_pos (Or.inl hempty)]
    have hnil : segments = [] := by
      cases segments with
      | nil => rfl
      | cons segment segments =>
        rw [List.flatten_cons, hempty, List.append_eq_nil_iff] at hflat
        exact absurd hflat.1 (hne segment List.mem_cons_self)
    rw [hnil]
    refine ⟨_, rfl, [[]], List.cons_ne_nil _ _, rfl, rfl, fun part hpart => ?_⟩
    rw [List.mem_singleton.mp hpart]
    exact Nat.zero_le _
  rw [if_neg (by rintro (hnil | hzero); exacts [hempty hnil, by omega])]
  by_cases hfits : visibleWidth line ≤ maxWidth
  · rw [if_pos hfits]
    refine ⟨_, rfl, [atoms visibleWidth graphemes maxWidth segments], List.cons_ne_nil _ _,
      List.flatten_singleton, ?_, fun part hpart => ?_⟩
    · rw [chunksOf, hline, Nat.zero_add]
      rfl
    · have hwidth := hadditive [] (atoms visibleWidth graphemes maxWidth segments) [] (by simp)
      rw [hline] at hwidth
      rw [List.mem_singleton.mp hpart, ← hwidth]
      exact hfits
  · rw [if_neg hfits]
    have hinit : Reading visibleWidth maxWidth [] ⟨[], 0, 0, none⟩ :=
      ⟨[], [], rfl, rfl, rfl, rfl, Nat.zero_le _, fun _ hpart =>
        absurd hpart List.not_mem_nil, nofun⟩
    obtain ⟨t, hloop, hreading⟩ := wrapSegments_reading hgraphemes cjkBreak segments hne hwrap hinit
      (fun _ hpiece => absurd hpiece List.not_mem_nil) hadditive hline.symm
    refine ⟨_, ?_, hreading.finish hline.symm⟩
    rw [show wrapSegments visibleWidth cjkBreak maxWidth _ line ⟨[], 0, 0, none⟩ 0 segments = some t
      from hloop, Option.map_some]

/-- A part of a list is a part of a list that it is a part of. -/
theorem additive_of_part {pieces whole : List JsString} (h : Additive visibleWidth whole)
    (hpart : pieces <:+: whole) : Additive visibleWidth pieces := by
  obtain ⟨front, back, rfl⟩ := hpart
  exact h.of_append

theorem atoms_of_narrow {pieces : List JsString}
    (h : ∀ piece ∈ pieces, visibleWidth piece ≤ maxWidth) :
    atoms visibleWidth graphemes maxWidth pieces = pieces := by
  induction pieces with
  | nil => rfl
  | cons piece pieces ih =>
    obtain ⟨hpiece, hrest⟩ := List.forall_mem_cons.mp h
    rw [atoms_cons, if_neg (Nat.not_lt.mpr hpiece), ih hrest]
    rfl

/-- The atoms of a piece are among those of the line. -/
theorem atoms_part {piece : JsString} {pieces : List JsString} (h : piece ∈ pieces)
    (hwide : maxWidth < visibleWidth piece) :
    graphemes piece <:+: atoms visibleWidth graphemes maxWidth pieces := by
  obtain ⟨front, back, rfl⟩ := List.append_of_mem h
  refine ⟨atoms visibleWidth graphemes maxWidth front,
    atoms visibleWidth graphemes maxWidth back, ?_⟩
  rw [atoms, atoms, atoms, List.flatMap_append, List.flatMap_cons, if_pos hwide, List.append_assoc]

/-- **A breakable line is wrapped**, and no call is nested deeper than twice. -/
theorem wordWrapLine_wraps (hgraphemes : IsGraphemeSegmenter graphemes) (hmax : 1 ≤ maxWidth)
    {line : JsString} {pieces : List JsString}
    (hsegmentation : Segmentation visibleWidth graphemes maxWidth line pieces)
    (hbreakable : Breakable visibleWidth graphemes maxWidth pieces) :
    ∃ chunks,
      wordWrapLine visibleWidth graphemes cjkBreak maxWidth 2 line (some pieces) = some chunks ∧
        WrapsTo visibleWidth maxWidth (atoms visibleWidth graphemes maxWidth pieces) chunks := by
  refine wordWrapLine_of_wrap cjkBreak hgraphemes hmax (some pieces) 1 hsegmentation ?_
  intro piece hpiece hwide
  have hnarrow := hbreakable piece hpiece hwide
  have hatoms := @atoms_of_narrow visibleWidth graphemes maxWidth _ hnarrow
  have hwhole : Segmentation visibleWidth graphemes maxWidth piece
      ((none : Option (List JsString)).getD (graphemes piece)) :=
    ⟨hgraphemes.flatten_eq piece, hgraphemes.ne_nil piece, by
      rw [Option.getD_none, hatoms]
      exact additive_of_part hsegmentation.additive (atoms_part hpiece hwide)⟩
  obtain ⟨chunks, hchunks, hwraps⟩ := wordWrapLine_of_wrap cjkBreak hgraphemes hmax none 0 hwhole
    fun segment hsegment hwide' => absurd (hnarrow segment hsegment) (Nat.not_le.mpr hwide')
  rw [Option.getD_none, hatoms] at hwraps
  exact ⟨chunks, hchunks, hwraps⟩

/-! ## A grapheme that is too wide -/

/-- The loop ends at the first segment that cannot be wrapped. -/
theorem wrapSegments_none {wrap : JsString → Option (List TextChunk)} {line segment : JsString}
    (hwide : maxWidth < visibleWidth segment) (hwrap : wrap segment = none) :
    ∀ (segments : List JsString), segment ∈ segments → ∀ (s : WrapState) (charIndex : Nat),
      wrapSegments visibleWidth cjkBreak maxWidth wrap line s charIndex segments = none := by
  intro segments
  induction segments with
  | nil => exact fun hmem => absurd hmem List.not_mem_nil
  | cons other segments ih =>
    intro hmem s charIndex
    rw [wrapSegments]
    dsimp only
    rcases List.mem_cons.mp hmem with rfl | hmem
    · rw [if_pos hwide, hwrap]
      rfl
    · split
      · cases wrap other with
        | none => rfl
        | some subChunks => exact ih hmem _ _
      · exact ih hmem _ _

theorem wordWrapLine_none {line segment : JsString} {preSegmented : Option (List JsString)}
    {depth : Nat} (hmax : 1 ≤ maxWidth) (hne : line ≠ []) (hline : maxWidth < visibleWidth line)
    (hmem : segment ∈ preSegmented.getD (graphemes line)) (hwide : maxWidth < visibleWidth segment)
    (hnone : wordWrapLine visibleWidth graphemes cjkBreak maxWidth depth segment none = none) :
    wordWrapLine visibleWidth graphemes cjkBreak maxWidth (depth + 1) line preSegmented = none := by
  rw [wordWrapLine, if_neg (by rintro (hnil | hzero); exacts [hne hnil, by omega]),
    if_neg (Nat.not_le.mpr hline), wrapSegments_none cjkBreak hwide hnone _ hmem]
  rfl

/-- One grapheme that is too wide calls itself. -/
theorem wordWrapLine_grapheme (hmax : 1 ≤ maxWidth) {grapheme : JsString} (hne : grapheme ≠ [])
    (halone : graphemes grapheme = [grapheme]) (hwide : maxWidth < visibleWidth grapheme)
    (depth : Nat) :
    wordWrapLine visibleWidth graphemes cjkBreak maxWidth depth grapheme none = none := by
  induction depth with
  | zero => rfl
  | succ depth ih =>
    refine wordWrapLine_none cjkBreak hmax hne hwide ?_ hwide ih
    rw [Option.getD_none, halone]
    exact List.mem_singleton_self _

/-- The width of a line is at least that of each of its atoms. -/
theorem width_le_of_mem (hgraphemes : IsGraphemeSegmenter graphemes) {line : JsString}
    {pieces : List JsString}
    (hsegmentation : Segmentation visibleWidth graphemes maxWidth line pieces) {atom : JsString}
    (hatom : atom ∈ atoms visibleWidth graphemes maxWidth pieces) :
    visibleWidth atom ≤ visibleWidth line := by
  have hwidth := hsegmentation.additive [] (atoms visibleWidth graphemes maxWidth pieces)
    [] (by simp)
  rw [flatten_atoms hgraphemes, hsegmentation.flatten_eq] at hwidth
  rw [hwidth, piecesWidth]
  obtain ⟨front, back, heq⟩ := List.append_of_mem (List.mem_map_of_mem (f := visibleWidth) hatom)
  rw [heq, List.sum_append, List.sum_cons]
  omega

theorem wordWrapLine_diverges (hgraphemes : IsGraphemeSegmenter graphemes) (hmax : 1 ≤ maxWidth)
    {line : JsString} {pieces : List JsString}
    (hsegmentation : Segmentation visibleWidth graphemes maxWidth line pieces)
    (hbreakable : ¬ Breakable visibleWidth graphemes maxWidth pieces) (depth : Nat) :
    wordWrapLine visibleWidth graphemes cjkBreak maxWidth depth line (some pieces) = none := by
  simp only [Breakable, not_forall, Nat.not_le] at hbreakable
  obtain ⟨piece, hpiece, hwide, grapheme, hgrapheme, hwide'⟩ := hbreakable
  have hatom : grapheme ∈ atoms visibleWidth graphemes maxWidth pieces :=
    (atoms_part hpiece hwide).subset hgrapheme
  have hline := width_le_of_mem hgraphemes hsegmentation hatom
  have hne : line ≠ [] := by
    rw [← hsegmentation.flatten_eq]
    intro hnil
    exact hsegmentation.ne_nil piece hpiece (List.flatten_eq_nil_iff.mp hnil piece hpiece)
  cases depth with
  | zero => rfl
  | succ depth =>
    refine wordWrapLine_none cjkBreak hmax hne (hwide'.trans_le hline) hpiece hwide ?_
    cases depth with
    | zero => rfl
    | succ depth =>
      exact wordWrapLine_none cjkBreak hmax (hsegmentation.ne_nil piece hpiece) hwide
        hgrapheme hwide'
        (wordWrapLine_grapheme cjkBreak hmax (hgraphemes.ne_nil piece grapheme hgrapheme)
          (hgraphemes.alone piece grapheme hgrapheme) hwide' depth)

end Widths

/-! ## The cursor -/

section Layout

variable {line : JsString} {chunks : List TextChunk}

theorem countP_layoutChunks_other (cursorPos : Nat) (chunks : List TextChunk) :
    (layoutChunks false cursorPos chunks).countP (·.hasCursor) = 0 := by
  induction chunks with
  | nil => rfl
  | cons chunk rest ih =>
    rw [layoutChunks, List.countP_cons_of_neg (by simp), ih]

/-- In front of a chunk there is no cursor of it. -/
theorem countP_layoutChunks_before : ∀ {index cursorPos : Nat}, Consecutive line index chunks →
    cursorPos < index → (layoutChunks true cursorPos chunks).countP (·.hasCursor) = 0 := by
  induction chunks with
  | nil => intro index cursorPos _ _; rfl
  | cons chunk rest ih =>
    intro index cursorPos h hlt
    obtain ⟨rfl, hle, -, hrest⟩ := h
    rw [layoutChunks, List.countP_cons_of_neg (by simp; omega), ih hrest (by omega)]

/-- One chunk has the cursor. -/
theorem countP_layoutChunks : ∀ {index cursorPos : Nat}, Consecutive line index chunks →
    chunks ≠ [] → index ≤ cursorPos →
      (layoutChunks true cursorPos chunks).countP (·.hasCursor) = 1 := by
  induction chunks with
  | nil => intro index cursorPos _ hne _; exact absurd rfl hne
  | cons chunk rest ih =>
    intro index cursorPos h _ hle
    obtain ⟨rfl, hends, -, hrest⟩ := h
    rw [layoutChunks]
    cases rest with
    | nil => rw [List.countP_cons_of_pos (by simp [hle])]; rfl
    | cons next rest =>
      rcases Nat.lt_or_ge cursorPos chunk.endIndex with hlt | hge
      · rw [List.countP_cons_of_pos (by simp [hle, hlt]),
          countP_layoutChunks_before hrest hlt]
      · rw [List.countP_cons_of_neg (by simp; omega), ih hrest (List.cons_ne_nil _ _) hge]

end Layout

section Text

variable {visibleWidth : JsString → Nat} {graphemes : JsString → List JsString} {maxWidth : Nat}
variable (cjkBreak : JsString → Bool)

theorem WrapsTo.consecutive {pieces : List JsString} {chunks : List TextChunk}
    (h : WrapsTo visibleWidth maxWidth pieces chunks) :
    chunks ≠ [] ∧ Consecutive pieces.flatten 0 chunks := by
  obtain ⟨parts, hne, rfl, rfl, -⟩ := h
  exact ⟨chunksOf_ne_nil hne, consecutive_chunksOf parts []⟩

/-- A logical line has the cursor once, if it is the one with the cursor. -/
theorem countP_layoutLine (hgraphemes : IsGraphemeSegmenter graphemes) (hmax : 1 ≤ maxWidth)
    {segment : JsString → List JsString} {line : JsString}
    (hsegmentation : Segmentation visibleWidth graphemes maxWidth line (segment line))
    (hbreakable : Breakable visibleWidth graphemes maxWidth (segment line)) (isCurrentLine : Bool)
    (cursorCol : Nat) :
    ∃ layout, layoutLine visibleWidth graphemes cjkBreak maxWidth segment 2 line
      isCurrentLine cursorCol
        = some layout ∧
      layout.countP (·.hasCursor) = if isCurrentLine then 1 else 0 := by
  rw [layoutLine]
  split
  · refine ⟨_, rfl, ?_⟩
    cases isCurrentLine <;> rfl
  · obtain ⟨chunks, hchunks, hwraps⟩ := wordWrapLine_wraps cjkBreak hgraphemes hmax
      hsegmentation hbreakable
    obtain ⟨hne, hconsecutive⟩ := hwraps.consecutive
    rw [hchunks, Option.map_some]
    refine ⟨_, rfl, ?_⟩
    cases isCurrentLine with
    | false => exact countP_layoutChunks_other cursorCol chunks
    | true => exact countP_layoutChunks hconsecutive hne (Nat.zero_le _)

/-- Of some logical lines, one has the cursor at most. -/
theorem countP_layoutLines (hgraphemes : IsGraphemeSegmenter graphemes) (hmax : 1 ≤ maxWidth)
    {segment : JsString → List JsString} (cursorLine cursorCol : Nat) {lines : List JsString}
    (hsegmentation : ∀ line ∈ lines,
      Segmentation visibleWidth graphemes maxWidth line (segment line))
    (hbreakable : ∀ line ∈ lines, Breakable visibleWidth graphemes maxWidth (segment line)) :
    ∀ index, ∃ layouts, ((lines.zipIdx index).mapM fun (line, i) =>
        layoutLine visibleWidth graphemes cjkBreak maxWidth segment 2 line
          (i = cursorLine) cursorCol)
          = some layouts ∧
      layouts.flatten.countP (·.hasCursor) =
        if index ≤ cursorLine ∧ cursorLine < index + lines.length then 1 else 0 := by
  induction lines with
  | nil =>
    intro index
    refine ⟨[], rfl, ?_⟩
    rw [if_neg (by rw [List.length_nil]; omega)]
    rfl
  | cons line lines ih =>
    intro index
    obtain ⟨hline, hlines⟩ := List.forall_mem_cons.mp hsegmentation
    obtain ⟨hbreak, hbreaks⟩ := List.forall_mem_cons.mp hbreakable
    obtain ⟨layout, hlayout, hcount⟩ := countP_layoutLine cjkBreak hgraphemes hmax hline hbreak
      (decide (index = cursorLine)) cursorCol
    obtain ⟨layouts, hlayouts, hcounts⟩ := ih hlines hbreaks (index + 1)
    refine ⟨layout :: layouts, ?_, ?_⟩
    · rw [List.zipIdx_cons, List.mapM_cons]
      show (layoutLine visibleWidth graphemes cjkBreak maxWidth segment 2 line _
        cursorCol).bind _ = _
      rw [hlayout, Option.bind_some, hlayouts]
      rfl
    · rw [List.flatten_cons, List.countP_append, hcount, hcounts, List.length_cons]
      simp only [decide_eq_true_eq]
      split <;> split <;> split <;> omega

/-- The chunks of a line, as they should be. -/
structure Partitions (visibleWidth : JsString → Nat) (graphemes : JsString → List JsString)
    (maxWidth : Nat) (line : JsString) (chunks : List TextChunk) : Prop where
  ne_nil : chunks ≠ []
  consecutive : Consecutive line 0 chunks
  fits : ∀ chunk ∈ chunks,
    visibleWidth chunk.text ≤ maxWidth ∨ graphemes chunk.text = [chunk.text]

theorem mem_chunksOf {parts : List (List JsString)} {chunk : TextChunk} : ∀ {index : Nat},
    chunk ∈ chunksOf index parts → ∃ part ∈ parts, chunk.text = part.flatten := by
  induction parts with
  | nil => exact fun h => absurd h List.not_mem_nil
  | cons part parts ih =>
    intro index h
    rcases List.mem_cons.mp h with rfl | h
    · exact ⟨part, List.mem_cons_self, rfl⟩
    · obtain ⟨other, hother, heq⟩ := ih h
      exact ⟨other, List.mem_cons_of_mem _ hother, heq⟩

theorem WrapsTo.partitions {pieces : List JsString} {chunks : List TextChunk}
    (h : WrapsTo visibleWidth maxWidth pieces chunks) (hadditive : Additive visibleWidth pieces) :
    Partitions visibleWidth graphemes maxWidth pieces.flatten chunks := by
  obtain ⟨hne, hconsecutive⟩ := h.consecutive
  refine ⟨hne, hconsecutive, fun chunk hchunk => Or.inl ?_⟩
  obtain ⟨parts, -, rfl, rfl, hfits⟩ := h
  obtain ⟨part, hpart, heq⟩ := mem_chunksOf hchunk
  obtain ⟨front, back, rfl⟩ := List.append_of_mem hpart
  have hwidth := hadditive front.flatten part back.flatten
    (by rw [List.flatten_append, List.flatten_cons, List.append_assoc])
  rw [heq, hwidth]
  exact hfits part hpart

/-- **Word wrap partitions every line**, and one layout line has the cursor, if and only if no
grapheme of a segment that is wider than the content is wider itself. -/
theorem layoutText_iff (hgraphemes : IsGraphemeSegmenter graphemes) (hmax : 1 ≤ maxWidth)
    (segment : JsString → List JsString) (lines : List JsString) {cursorLine : Nat}
    (hcursor : cursorLine < lines.length)
    (hsegmentation : ∀ line ∈ lines,
      Segmentation visibleWidth graphemes maxWidth line (segment line)) :
    ((∀ line ∈ lines, ∃ depth chunks,
        wordWrapLine visibleWidth graphemes cjkBreak maxWidth depth line (some (segment line))
          = some chunks ∧
        Partitions visibleWidth graphemes maxWidth line chunks) ∧
      ∀ cursorCol, ∃ depth layout,
        layoutText visibleWidth graphemes cjkBreak maxWidth segment depth lines cursorLine cursorCol
          = some layout ∧
        layout.countP (·.hasCursor) = 1) ↔
      ∀ line ∈ lines, Breakable visibleWidth graphemes maxWidth (segment line) := by
  constructor
  · rintro ⟨hwraps, -⟩ line hline
    by_contra hbreakable
    obtain ⟨depth, chunks, hsome, -⟩ := hwraps line hline
    rw [wordWrapLine_diverges cjkBreak hgraphemes hmax (hsegmentation line hline)
      hbreakable] at hsome
    cases hsome
  · intro hbreakable
    refine ⟨fun line hline => ?_, fun cursorCol => ⟨2, ?_⟩⟩
    · obtain ⟨chunks, hchunks, hwraps⟩ := wordWrapLine_wraps cjkBreak hgraphemes hmax
        (hsegmentation line hline) (hbreakable line hline)
      have hpartitions :=
        @WrapsTo.partitions _ graphemes _ _ _ hwraps (hsegmentation line hline).additive
      rw [flatten_atoms hgraphemes, (hsegmentation line hline).flatten_eq] at hpartitions
      exact ⟨2, chunks, hchunks, hpartitions⟩
    · rw [layoutText]
      split
      · exact ⟨_, rfl, rfl⟩
      · obtain ⟨layouts, hlayouts, hcount⟩ := countP_layoutLines cjkBreak hgraphemes hmax cursorLine
          cursorCol hsegmentation hbreakable 0
        rw [if_pos ⟨Nat.zero_le _, by omega⟩] at hcount
        refine ⟨layouts.flatten, ?_, hcount⟩
        rw [hlayouts]
        rfl

end Text

/-! ## A line of ASCII, and one of a wide character -/

/-- Each unit by itself, as the units of ASCII are. -/
def unitPieces (text : JsString) : List JsString := text.map fun u => [u]

theorem flatten_unitPieces (text : JsString) : (unitPieces text).flatten = text := by
  induction text with
  | nil => rfl
  | cons u us ih => rw [unitPieces, List.map_cons, List.flatten_cons]; exact congrArg (u :: ·) ih

theorem isGraphemeSegmenter_unit : IsGraphemeSegmenter unitPieces := by
  refine ⟨flatten_unitPieces, fun text piece hpiece => ?_, fun text piece hpiece => ?_⟩
  all_goals
    obtain ⟨u, -, rfl⟩ := List.mem_map.mp hpiece
    first | exact List.cons_ne_nil u [] | rfl

/-- Two words with the blanks behind them, and one more. -/
def helloPieces : List JsString := [js "hello ", js "wide ", js "world"]

theorem segmentation_hello :
    Segmentation List.length unitPieces 5 (js "hello wide world") helloPieces :=
  ⟨by decide, by decide, fun _ _ _ _ => List.length_flatten⟩

/-- The first word is too wide with its blank. -/
theorem layoutText_hello :
    ((∀ line ∈ [js "hello wide world"], ∃ depth chunks,
        wordWrapLine List.length unitPieces (fun _ => false) 5 depth line (some helloPieces)
          = some chunks ∧
        Partitions List.length unitPieces 5 line chunks) ∧
      ∀ cursorCol, ∃ depth layout,
        layoutText List.length unitPieces (fun _ => false) 5 (fun _ => helloPieces) depth
          [js "hello wide world"] 0
          cursorCol = some layout ∧
        layout.countP (·.hasCursor) = 1) := by
  refine (layoutText_iff (fun _ => false) isGraphemeSegmenter_unit (by decide)
    (fun _ => helloPieces) [js "hello wide world"] (by decide) fun line hline => ?_).mpr ?_
  · obtain rfl := List.mem_singleton.mp hline
    exact segmentation_hello
  · intro line _ piece _ _ grapheme hgrapheme
    obtain ⟨u, -, rfl⟩ := List.mem_map.mp hgrapheme
    exact show 1 ≤ 5 by decide

/-- A character of two columns never ends in one. -/
theorem wordWrapLine_wide : ¬ ∃ depth,
    (wordWrapLine (fun text => 2 * text.length) unitPieces (fun _ => true) 1 depth [0x597D]
      (some (unitPieces [0x597D]))).isSome = true := by
  rintro ⟨depth, hsome⟩
  have hnone : ∀ depth, wordWrapLine (fun text => 2 * text.length) unitPieces
    (fun _ => true) 1 depth
      [0x597D] none = none :=
    wordWrapLine_grapheme (fun _ => true) (by decide) (by decide) rfl (by decide)
  cases depth with
  | zero => cases hsome
  | succ depth =>
    rw [wordWrapLine_none (fun _ => true) (by decide) (by decide) (by decide)
      (List.mem_singleton_self [0x597D]) (by decide) (hnone depth)] at hsome
    cases hsome

end PiMono.Tui
