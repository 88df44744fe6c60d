import PiMono.Ai.SseDecoder

/-!
# Events and chunks

Reading units one after the other (`Scan`) gives the events of the text
(`sseEvents_eq_scan`). The loop over the chunks does the same, except that it forgets between
two chunks that the last unit was a CR (`foldl_readPiece`, `readPieces_eq_steps`).
-/

namespace PiMono.Ai

/-! ## Consuming lines -/

theorem nextLineBreakIndex_nil : nextLineBreakIndex [] = none := rfl

theorem nextLineBreakIndex_cons (u : UInt16) (text : JsString) :
    nextLineBreakIndex (u :: text)
      = if isLineBreak u then some 0 else (nextLineBreakIndex text).map (· + 1) := by
  unfold nextLineBreakIndex isLineBreak
  rw [List.idxOf?_cons, List.idxOf?_cons]
  by_cases hcr : u = carriageReturn
  · subst hcr
    have hlf : (carriageReturn == lineFeed) = false := by decide
    rw [hlf]
    cases text.idxOf? lineFeed <;> simp
  · by_cases hlf : u = lineFeed
    · subst hlf
      have hcr : (lineFeed == carriageReturn) = false := by decide
      rw [hcr]
      cases text.idxOf? carriageReturn <;> simp
    · have hcr' : (u == carriageReturn) = false := beq_false_of_ne hcr
      have hlf' : (u == lineFeed) = false := beq_false_of_ne hlf
      rw [hcr', hlf']
      cases text.idxOf? carriageReturn <;> cases text.idxOf? lineFeed <;> simp

theorem nextLineBreakIndex_append {buf : JsString} (hbuf : ∀ u ∈ buf, isLineBreak u = false)
    (text : JsString) :
    nextLineBreakIndex (buf ++ text) = (nextLineBreakIndex text).map (· + buf.length) := by
  induction buf with
  | nil => simp
  | cons u buf ih =>
    obtain ⟨hu, hbuf⟩ := List.forall_mem_cons.mp hbuf
    rw [List.cons_append, nextLineBreakIndex_cons, if_neg (by rw [hu]; exact Bool.false_ne_true),
      ih hbuf]
    cases nextLineBreakIndex text <;> simp
    omega

section Consume

variable {buf : JsString} (hbuf : ∀ u ∈ buf, isLineBreak u = false)

include hbuf

theorem consumeLine_none : consumeLine buf = none := by
  have h := nextLineBreakIndex_append hbuf []
  rw [List.append_nil, nextLineBreakIndex_nil] at h
  rw [consumeLine, h]
  rfl

theorem consumeLine_break {u : UInt16} (hu : isLineBreak u = true) (rest : JsString) :
    consumeLine (buf ++ u :: rest)
      = some (buf, if u = carriageReturn ∧ rest.head? = some lineFeed then
        rest.tail else rest) := by
  have hindex : nextLineBreakIndex (buf ++ u :: rest) = some buf.length := by
    rw [nextLineBreakIndex_append hbuf, nextLineBreakIndex_cons, if_pos hu]
    simp
  have hfirst : (buf ++ u :: rest)[buf.length]? = some u := by simp
  have hsecond : (buf ++ u :: rest)[buf.length + 1]? = rest.head? := by
    rw [List.getElem?_append_right (by omega), Nat.add_sub_cancel_left, List.getElem?_cons_succ,
      List.head?_eq_getElem?]
  rw [consumeLine, hindex, Option.map_some, hfirst, hsecond, List.take_left]
  by_cases hcut : u = carriageReturn ∧ rest.head? = some lineFeed
  · obtain ⟨rest', rfl⟩ := List.head?_eq_some_iff.mp hcut.2
    rw [if_pos ⟨congrArg some hcut.1, hcut.2⟩, if_pos hcut]
    simp
  · have hcut' : ¬ (some u = some carriageReturn ∧ rest.head? = some lineFeed) := fun h =>
      hcut ⟨Option.some.inj h.1, h.2⟩
    rw [if_neg hcut', if_neg hcut]
    simp

end Consume

/-! ## Reading units -/

/-- What has been decoded, the line that is being read, and whether the last unit was a CR. -/
structure Scan where
  decoded : Decoded
  buf : JsString
  cr : Bool

namespace Scan

def initial : Scan := ⟨.initial, [], false⟩

/-- A unit is read. -/
def unit (s : Scan) (u : UInt16) : Scan :=
  if isLineBreak u then
    if s.cr ∧ u = lineFeed then { s with cr := false }
    else ⟨s.decoded.line s.buf, [], decide (u = carriageReturn)⟩
  else ⟨s.decoded, s.buf ++ [u], false⟩

/-- Some units are read. -/
def read (s : Scan) (text : JsString) : Scan := text.foldl unit s

/-- The end of a chunk: the last unit is forgotten. -/
def cut (s : Scan) : Scan := { s with cr := false }

/-- The events, once the text is at its end. -/
def events (s : Scan) : List ServerSentEvent := finish (s.decoded, s.buf)

theorem read_append (s : Scan) (a b : JsString) : s.read (a ++ b) = (s.read a).read b :=
  List.foldl_append

end Scan

theorem unit_text {s : Scan} {u : UInt16} (hu : isLineBreak u = false) :
    s.unit u = ⟨s.decoded, s.buf ++ [u], false⟩ := by
  rw [Scan.unit, hu]
  rfl

theorem unit_break {s : Scan} {u : UInt16} (hu : isLineBreak u = true)
    (hcr : ¬ (s.cr = true ∧ u = lineFeed)) :
    s.unit u = ⟨s.decoded.line s.buf, [], decide (u = carriageReturn)⟩ := by
  rw [Scan.unit, if_pos hu, if_neg hcr]

theorem unit_pair {s : Scan} (hcr : s.cr = true) : s.unit lineFeed = s.cut := by
  rw [Scan.unit, if_pos (by decide), if_pos ⟨hcr, rfl⟩]
  rfl

/-- What a chunk forgets only matters for a line feed behind a CR. -/
theorem cut_unit {s : Scan} {u : UInt16} (h : ¬ (s.cr = true ∧ u = lineFeed)) :
    s.cut.unit u = s.unit u := by
  by_cases hu : isLineBreak u = true
  · rw [unit_break hu h, unit_break hu fun hc => by cases hc.1]
    rfl
  · rw [unit_text (Bool.eq_false_iff.mpr hu), unit_text (Bool.eq_false_iff.mpr hu)]
    rfl

/-- The line that is being read has no break in it, and nothing is read of it behind a CR. -/
structure Scan.Open (s : Scan) : Prop where
  text : ∀ u ∈ s.buf, isLineBreak u = false
  empty : s.cr = true → s.buf = []

theorem open_unit {s : Scan} (h : s.Open) (u : UInt16) : (s.unit u).Open := by
  by_cases hu : isLineBreak u = true
  · by_cases hcr : s.cr = true ∧ u = lineFeed
    · rw [hcr.2, unit_pair hcr.1]
      exact ⟨h.text, fun hc => by cases hc⟩
    · rw [unit_break hu hcr]
      exact ⟨fun _ hmem => absurd hmem List.not_mem_nil, fun _ => rfl⟩
  · rw [unit_text (Bool.eq_false_iff.mpr hu)]
    refine ⟨fun v hv => ?_, fun hc => by cases hc⟩
    rcases List.mem_append.mp hv with hv | hv
    · exact h.text v hv
    · rw [List.mem_singleton.mp hv]
      exact Bool.eq_false_iff.mpr hu

theorem open_read (text : JsString) : ∀ {s : Scan}, s.Open → (s.read text).Open := by
  induction text with
  | nil => exact fun h => h
  | cons u text ih => exact fun h => ih (open_unit h u)

/-- The loop that consumes lines reads the units of the buffer. -/
theorem consumeLines_eq_read : ∀ (fuel : Nat) (d : Decoded) (buf text : JsString),
    (∀ u ∈ buf, isLineBreak u = false) → text.length ≤ fuel →
    consumeLines fuel d (buf ++ text)
      = ((Scan.read ⟨d, buf, false⟩ text).decoded, (Scan.read ⟨d, buf, false⟩ text).buf) := by
  intro fuel d buf text
  induction hlength : text.length using Nat.strongRecOn generalizing fuel d buf text with
  | ind n ih =>
    intro hbuf hfuel
    cases text with
    | nil =>
      rw [List.append_nil]
      cases fuel with
      | zero => rfl
      | succ fuel =>
        rw [consumeLines, consumeLine_none hbuf]
        rfl
    | cons u text =>
      rw [List.length_cons] at hlength
      have hread : Scan.read ⟨d, buf, false⟩ (u :: text)
          = (Scan.unit ⟨d, buf, false⟩ u).read text := rfl
      by_cases hu : isLineBreak u = true
      · have hunit : Scan.unit ⟨d, buf, false⟩ u = ⟨d.line buf, [], decide (u = carriageReturn)⟩ :=
          unit_break hu fun h => by cases h.1
        obtain ⟨fuel, rfl⟩ : ∃ k, fuel = k + 1 := ⟨fuel - 1, by omega⟩
        rw [hread, hunit, consumeLines, consumeLine_break hbuf hu]
        by_cases hpair : u = carriageReturn ∧ text.head? = some lineFeed
        · -- CR LF is one break
          obtain ⟨rest, rfl⟩ := List.head?_eq_some_iff.mp hpair.2
          rw [List.length_cons] at hlength
          have hrest := ih rest.length (by omega) fuel (d.line buf) [] rest rfl
            (fun _ hmem => absurd hmem List.not_mem_nil) (by omega)
          rw [if_pos hpair, List.tail_cons]
          have hnext : Scan.read ⟨d.line buf, [], decide (u = carriageReturn)⟩ (lineFeed :: rest)
              = Scan.read ⟨d.line buf, [], false⟩ rest := by
            show (Scan.unit _ lineFeed).read rest = _
            rw [unit_pair (decide_eq_true hpair.1)]
            rfl
          rw [hnext, ← hrest]
          rfl
        · have hrest := ih text.length (by omega) fuel (d.line buf) [] text rfl
            (fun _ hmem => absurd hmem List.not_mem_nil) (by omega)
          rw [if_neg hpair]
          have hnext : (Scan.read ⟨d.line buf, [], decide (u = carriageReturn)⟩ text).decoded
              = (Scan.read ⟨d.line buf, [], false⟩ text).decoded ∧
            (Scan.read ⟨d.line buf, [], decide (u = carriageReturn)⟩ text).buf
              = (Scan.read ⟨d.line buf, [], false⟩ text).buf := by
            cases text with
            | nil => exact ⟨rfl, rfl⟩
            | cons v text =>
              have hcut : Scan.unit ⟨d.line buf, [], false⟩ v
                  = Scan.unit ⟨d.line buf, [], decide (u = carriageReturn)⟩ v :=
                cut_unit (s := ⟨d.line buf, [], decide (u = carriageReturn)⟩) fun h =>
                  hpair ⟨of_decide_eq_true h.1, congrArg some h.2⟩
              rw [Scan.read, Scan.read, List.foldl_cons, List.foldl_cons, hcut]
              exact ⟨rfl, rfl⟩
          rw [hnext.1, hnext.2, ← hrest]
          rfl
      · have hu' := Bool.eq_false_iff.mpr hu
        have hbuf' : ∀ v ∈ buf ++ [u], isLineBreak v = false := by
          intro v hv
          rcases List.mem_append.mp hv with hv | hv
          · exact hbuf v hv
          · rw [List.mem_singleton.mp hv]
            exact hu'
        have hrest := ih text.length (by omega) fuel d (buf ++ [u]) text rfl hbuf' (by omega)
        rw [hread, unit_text hu', ← hrest]
        simp

/-- A chunk is read from a state that has forgotten the last unit. -/
theorem readPiece_eq_read {s : Scan} (h : s.Open) (piece : JsString) :
    readPiece (s.decoded, s.buf) piece
      = ((s.cut.read piece).decoded, (s.cut.read piece).buf) := by
  have hfuel : piece.length ≤ (s.buf ++ piece).length := by
    rw [List.length_append]
    omega
  exact consumeLines_eq_read _ s.decoded s.buf piece h.text hfuel

/-- The loop over the chunks. -/
def readPieces (s : Scan) (pieces : List JsString) : Scan :=
  pieces.foldl (fun s piece => s.cut.read piece) s

theorem foldl_readPiece : ∀ (pieces : List JsString) {s : Scan}, s.Open →
    finish (pieces.foldl readPiece (s.decoded, s.buf)) = (readPieces s pieces).events
  | [], _, _ => rfl
  | piece :: pieces, s, h => by
    have hcut : s.cut.Open := ⟨h.text, fun hc => by cases hc⟩
    rw [List.foldl_cons, readPiece_eq_read h, foldl_readPiece pieces (open_read piece hcut)]
    rfl

/-! ## The whole text -/

theorem splitLines_ne_nil : ∀ text : JsString, splitLines text ≠ []
  | [] => List.cons_ne_nil _ _
  | [u] => by
    rw [splitLines]
    split <;> exact List.cons_ne_nil _ _
  | u :: v :: rest => by
    have ih := splitLines_ne_nil (v :: rest)
    rw [splitLines]
    split
    · exact List.cons_ne_nil _ _
    · split
      · exact List.cons_ne_nil _ _
      · cases hlines : splitLines (v :: rest) with
        | nil => exact absurd hlines ih
        | cons line lines => exact List.cons_ne_nil _ _

theorem modifyHead_nil_append (lines : List JsString) :
    lines.modifyHead (([] : JsString) ++ ·) = lines := by
  cases lines <;> rfl

/-- The lines of a text, behind the line that is being read. -/
theorem foldl_splitLines : ∀ (text : JsString) (d : Decoded) (buf : JsString),
    ((splitLines text).modifyHead (buf ++ ·)).foldl Decoded.line d
      = ((Scan.read ⟨d, buf, false⟩ text).decoded.line (Scan.read ⟨d, buf, false⟩ text).buf) ∧
    ((splitLines text).modifyHead (buf ++ ·)).dropLast.foldl Decoded.line d
      = (Scan.read ⟨d, buf, false⟩ text).decoded
  | [], d, buf => by
    constructor
    · simp [splitLines, Scan.read]
    · rfl
  | [u], d, buf => by
    rw [splitLines]
    by_cases hu : isLineBreak u = true
    · have hunit : Scan.unit ⟨d, buf, false⟩ u = ⟨d.line buf, [], decide (u = carriageReturn)⟩ :=
        unit_break hu fun h => by cases h.1
      rw [if_pos hu, Scan.read, List.foldl_cons, hunit]
      simp
    · rw [if_neg hu, Scan.read, List.foldl_cons, unit_text (Bool.eq_false_iff.mpr hu)]
      simp
  | u :: v :: rest, d, buf => by
    by_cases hpair : u = carriageReturn ∧ v = lineFeed
    · obtain ⟨rfl, rfl⟩ := hpair
      have ih := foldl_splitLines rest (d.line buf) []
      rw [modifyHead_nil_append] at ih
      have hread : Scan.read ⟨d, buf, false⟩ (carriageReturn :: lineFeed :: rest)
          = Scan.read ⟨d.line buf, [], false⟩ rest := rfl
      rw [splitLines, if_pos ⟨rfl, rfl⟩, List.modifyHead_cons, List.append_nil, hread,
        List.dropLast_cons_of_ne_nil (splitLines_ne_nil rest), List.foldl_cons, List.foldl_cons]
      exact ih
    · by_cases hu : isLineBreak u = true
      · have ih := foldl_splitLines (v :: rest) (d.line buf) []
        rw [modifyHead_nil_append] at ih
        have hunit : Scan.unit ⟨d, buf, false⟩ u = ⟨d.line buf, [], decide (u = carriageReturn)⟩ :=
          unit_break hu fun h => by cases h.1
        have hcut : Scan.unit ⟨d.line buf, [], false⟩ v
            = Scan.unit ⟨d.line buf, [], decide (u = carriageReturn)⟩ v :=
          cut_unit (s := ⟨d.line buf, [], decide (u = carriageReturn)⟩) fun h =>
            hpair ⟨of_decide_eq_true h.1, h.2⟩
        have hread : Scan.read ⟨d, buf, false⟩ (u :: v :: rest)
            = Scan.read ⟨d.line buf, [], false⟩ (v :: rest) := by
          rw [Scan.read, Scan.read, List.foldl_cons, List.foldl_cons, List.foldl_cons, hunit, hcut]
        rw [splitLines, if_neg hpair, if_pos hu, List.modifyHead_cons, List.append_nil, hread,
          List.dropLast_cons_of_ne_nil (splitLines_ne_nil (v :: rest)), List.foldl_cons,
          List.foldl_cons]
        exact ih
      · have ih := foldl_splitLines (v :: rest) d (buf ++ [u])
        have hread : Scan.read ⟨d, buf, false⟩ (u :: v :: rest)
            = Scan.read ⟨d, buf ++ [u], false⟩ (v :: rest) := by
          rw [Scan.read, List.foldl_cons, unit_text (Bool.eq_false_iff.mpr hu)]
          rfl
        have hhead : ((splitLines (v :: rest)).modifyHead (u :: ·)).modifyHead (buf ++ ·)
            = (splitLines (v :: rest)).modifyHead ((buf ++ [u]) ++ ·) := by
          cases splitLines (v :: rest) <;> simp
        rw [splitLines, if_neg hpair, if_neg hu, hhead, hread]
        exact ih

/-! ## One line -/

/-- A line ends an event, ends nothing, or is kept. -/
theorem line_cases (d : Decoded) (text : JsString) :
    (text = [] ∧ ∃ e : ServerSentEvent, e.raw = d.state.raw ∧
      d.line text = ⟨.empty, d.events ++ [e]⟩) ∨
    (text = [] ∧ d.state.pending = false ∧ d.line text = d) ∨
    (text ≠ [] ∧ (d.line text).events = d.events ∧
      (d.line text).state.raw = d.state.raw ++ [text]) := by
  by_cases htext : text = []
  · subst htext
    by_cases hpending : d.state.pending = true
    · refine .inl ⟨rfl, ⟨d.state.event, joinData d.state.data, d.state.raw⟩, rfl, ?_⟩
      simp [Decoded.line, decodeSseLine, flushSseEvent, hpending]
    · have hidle := Bool.eq_false_iff.mpr hpending
      refine .inr (.inl ⟨rfl, hidle, ?_⟩)
      simp [Decoded.line, decodeSseLine, flushSseEvent, hidle]
  · refine .inr (.inr ⟨htext, ?_, ?_⟩)
    · unfold Decoded.line decodeSseLine
      simp only [if_neg htext]
      split
      · simp
      · split
        · simp
        · split <;> simp
    · unfold Decoded.line decodeSseLine
      simp only [if_neg htext]
      split
      · rfl
      · split
        · rfl
        · split <;> rfl

/-- An empty line dispatches what the end would dispatch. -/
theorem flush_eq_line (d : Decoded) : d.flush = (d.line []).events := by
  simp [Decoded.flush, Decoded.line, decodeSseLine]

theorem line_nil_idle {d : Decoded} (h : d.state.pending = false) : d.line [] = d := by
  simp [Decoded.line, decodeSseLine, flushSseEvent, h]

theorem line_nil_pending {d : Decoded} (h : d.state.pending = true) :
    ∃ e : ServerSentEvent, e.raw = d.state.raw ∧ d.line [] = ⟨.empty, d.events ++ [e]⟩ := by
  refine ⟨⟨d.state.event, joinData d.state.data, d.state.raw⟩, rfl, ?_⟩
  simp [Decoded.line, decodeSseLine, flushSseEvent, h]

/-- A second empty line ends nothing. -/
theorem line_nil_nil (d : Decoded) : (d.line []).line [] = d.line [] := by
  by_cases hpending : d.state.pending = true
  · obtain ⟨e, -, hline⟩ := line_nil_pending hpending
    rw [hline]
    exact line_nil_idle rfl
  · have hline := line_nil_idle (Bool.eq_false_iff.mpr hpending)
    rw [hline, hline]

theorem flush_line_nil (d : Decoded) : (d.line []).flush = d.flush := by
  rw [flush_eq_line, flush_eq_line, line_nil_nil]

theorem line_events (d : Decoded) (text : JsString) :
    ∃ more, (d.line text).events = d.events ++ more := ⟨_, rfl⟩

/-- The events of a text are those of reading its units. -/
theorem sseEvents_eq_scan (text : JsString) : sseEvents text = (Scan.initial.read text).events := by
  have h := (foldl_splitLines text .initial []).1
  rw [modifyHead_nil_append] at h
  rw [sseEvents, h]
  show _ = finish ((Scan.initial.read text).decoded, (Scan.initial.read text).buf)
  unfold finish
  by_cases hbuf : (Scan.initial.read text).buf = []
  · rw [if_pos hbuf]
    have hbuf' : (Scan.read ⟨.initial, [], false⟩ text).buf = [] := hbuf
    rw [hbuf', flush_line_nil]
    rfl
  · rw [if_neg hbuf]
    rfl

theorem stateBehind_eq_scan (text : JsString) :
    stateBehind text = (Scan.initial.read text).decoded.state := by
  have h := (foldl_splitLines text .initial []).2
  rw [modifyHead_nil_append] at h
  rw [stateBehind, h]
  rfl

/-- The end of a text is read as a line and an empty line. -/
theorem events_eq_line (s : Scan) : s.events = ((s.decoded.line s.buf).line []).events := by
  rw [Scan.events, finish]
  by_cases hbuf : s.buf = []
  · rw [if_pos hbuf, hbuf, line_nil_nil, flush_eq_line]
  · rw [if_neg hbuf, flush_eq_line]

/-! ## Runs that are cut -/

/-- A unit is read, or (`none`) a chunk ends. -/
def Scan.step (s : Scan) : Option UInt16 → Scan
  | none => s.cut
  | some u => s.unit u

/-- A run with the ends of its chunks. -/
def Scan.steps (s : Scan) (run : List (Option UInt16)) : Scan := run.foldl Scan.step s

/-- The text of a run. -/
abbrev textOf (run : List (Option UInt16)) : JsString := run.filterMap id

/-- The run over the chunks. -/
def stepsOf (pieces : List JsString) : List (Option UInt16) :=
  pieces.flatMap fun piece => none :: piece.map some

theorem steps_append (s : Scan) (a b : List (Option UInt16)) :
    s.steps (a ++ b) = (s.steps a).steps b := List.foldl_append

theorem steps_text (text : JsString) : ∀ s : Scan, s.steps (text.map some) = s.read text := by
  induction text with
  | nil => exact fun _ => rfl
  | cons u text ih => exact fun s => ih (s.unit u)

theorem readPieces_eq_steps (pieces : List JsString) :
    ∀ s : Scan, readPieces s pieces = s.steps (stepsOf pieces) := by
  induction pieces with
  | nil => exact fun _ => rfl
  | cons piece pieces ih =>
    intro s
    have hsteps : stepsOf (piece :: pieces) = (none :: piece.map some) ++ stepsOf pieces := rfl
    rw [hsteps, steps_append, ← ih]
    show _ = readPieces (s.cut.steps (piece.map some)) pieces
    rw [steps_text]
    rfl

theorem textOf_stepsOf (pieces : List JsString) : textOf (stepsOf pieces) = pieces.flatten := by
  induction pieces with
  | nil => rfl
  | cons piece pieces ih =>
    have hpiece : ∀ text : JsString, textOf (text.map some) = text := fun text => by
      simp [textOf, List.filterMap_map]
    have hsteps : stepsOf (piece :: pieces) = none :: (piece.map some ++ stepsOf pieces) := rfl
    rw [hsteps, List.flatten_cons, ← ih]
    show textOf (piece.map some ++ stepsOf pieces) = _
    rw [textOf, List.filterMap_append]
    exact congrArg (· ++ _) (hpiece piece)

/-- A chunk ends where one ended. -/
theorem stepsOf_split : ∀ {pieces : List JsString} {a b : List (Option UInt16)},
    stepsOf pieces = a ++ none :: b →
    ∃ front back, pieces = front ++ back ∧ stepsOf front = a ∧ stepsOf back = none :: b
  | [], a, b, h => by simp [stepsOf] at h
  | piece :: pieces, a, b, h => by
    have hsteps : stepsOf (piece :: pieces) = none :: (piece.map some ++ stepsOf pieces) := rfl
    cases a with
    | nil => exact ⟨[], piece :: pieces, rfl, rfl, h⟩
    | cons x a =>
      rw [hsteps, List.cons_append] at h
      obtain ⟨rfl, htail⟩ := List.cons.inj h
      -- no end of a chunk stands within the piece
      obtain ⟨c, rfl, hrest⟩ : ∃ c, a = piece.map some ++ c ∧ stepsOf pieces = c ++ none :: b := by
        rcases List.append_eq_append_iff.mp htail with ⟨c, ha, hc⟩ | ⟨c, hpiece, hc⟩
        · exact ⟨c, ha, hc⟩
        · cases c with
          | nil => exact ⟨[], by simpa using hpiece.symm, by simpa using hc.symm⟩
          | cons y c =>
            obtain ⟨rfl, -⟩ := List.cons.inj hc
            have hmem : none ∈ piece.map some := hpiece ▸ by simp
            simp at hmem
      obtain ⟨front, back, rfl, hfront, hback⟩ := stepsOf_split hrest
      refine ⟨piece :: front, back, rfl, ?_, hback⟩
      show none :: (piece.map some ++ stepsOf front) = _
      rw [hfront]

end PiMono.Ai
