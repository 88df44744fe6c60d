import PiMono.Ai.SseChunks

/-!
# Cuts that show

A run over chunks goes along with the run over the whole text: they agree, or the first has
dispatched an event that the second still holds (`Held`), or they are apart for good (`Apart`).
They come apart where a chunk ends between CR and LF while an event is pending and text
follows (`CutShows`): then, and only then, are the events others
(`iterateSseMessages_eq_iff`).
-/

namespace PiMono.Ai

/-- The first run has dispatched an event with fewer lines than the second will. -/
def Apart (whole : Decoded) (buf : JsString) (chunked : Decoded) : Prop :=
  ∃ shared e more, chunked.events = shared ++ e :: more ∧
    ((whole.events = shared ∧ e.raw.length < whole.state.raw.length + min 1 buf.length) ∨
      ∃ e' more', whole.events = shared ++ e' :: more' ∧ e.raw.length < e'.raw.length)

namespace Apart

variable {whole chunked : Decoded} {buf : JsString}

/-- The first run goes on. -/
theorem line_right (h : Apart whole buf chunked) (text : JsString) :
    Apart whole buf (chunked.line text) := by
  obtain ⟨shared, e, more, hchunked, hwhole⟩ := h
  obtain ⟨next, hnext⟩ := line_events chunked text
  exact ⟨shared, e, more ++ next, by rw [hnext, hchunked]; simp, hwhole⟩

/-- The second run ends a line. -/
theorem line_left (h : Apart whole buf chunked) : Apart (whole.line buf) [] chunked := by
  obtain ⟨shared, e, more, hchunked, hwhole⟩ := h
  refine ⟨shared, e, more, hchunked, ?_⟩
  rcases hwhole with ⟨hevents, hraw⟩ | ⟨e', more', hevents, hraw⟩
  · rcases line_cases whole buf with ⟨rfl, e', he', hline⟩ | ⟨rfl, -, hline⟩
      | ⟨hbuf, hkept, hlonger⟩
    · refine .inr ⟨e', [], ?_, ?_⟩
      · rw [hline, hevents]
      · rw [he']
        exact hraw
    · rw [hline]
      exact .inl ⟨hevents, hraw⟩
    · refine .inl ⟨hkept.trans hevents, ?_⟩
      have hmin : min 1 buf.length ≤ 1 := Nat.min_le_left ..
      rw [hlonger, List.length_append, List.length_singleton]
      omega
  · obtain ⟨next, hnext⟩ := line_events whole buf
    exact .inr ⟨e', more' ++ next, by rw [hnext, hevents]; simp, hraw⟩

/-- The second run reads a unit of a line. -/
theorem text_left (h : Apart whole buf chunked) (u : UInt16) :
    Apart whole (buf ++ [u]) chunked := by
  obtain ⟨shared, e, more, hchunked, hwhole⟩ := h
  refine ⟨shared, e, more, hchunked, hwhole.imp_left fun ⟨hevents, hraw⟩ => ⟨hevents, ?_⟩⟩
  rw [List.length_append, List.length_singleton]
  omega

theorem events_ne (h : Apart whole [] chunked) : chunked.events ≠ whole.events := by
  obtain ⟨shared, e, more, hchunked, ⟨hevents, -⟩ | ⟨e', more', hevents, hraw⟩⟩ := h
  · rw [hchunked, hevents]
    intro heq
    have hlength := congrArg List.length heq
    simp at hlength
  · rw [hchunked, hevents]
    intro heq
    have hhead := (List.cons.inj (List.append_cancel_left heq)).1
    rw [hhead] at hraw
    exact Nat.lt_irrefl _ hraw

end Apart

/-- Both runs read a unit. -/
theorem apart_unit {whole chunked : Scan} (h : Apart whole.decoded whole.buf chunked.decoded)
    (u : UInt16) : Apart (whole.unit u).decoded (whole.unit u).buf (chunked.unit u).decoded := by
  have hright : Apart whole.decoded whole.buf (chunked.unit u).decoded := by
    unfold Scan.unit
    split
    · split
      · exact h
      · exact h.line_right chunked.buf
    · exact h
  by_cases hu : isLineBreak u = true
  · by_cases hcr : whole.cr = true ∧ u = lineFeed
    · rw [Scan.unit, if_pos hu, if_pos hcr]
      exact hright
    · rw [unit_break hu hcr]
      exact hright.line_left
  · rw [unit_text (Bool.eq_false_iff.mpr hu)]
    exact hright.text_left u

theorem apart_steps (run : List (Option UInt16)) : ∀ {whole chunked : Scan},
    Apart whole.decoded whole.buf chunked.decoded →
    Apart (whole.read (textOf run)).decoded (whole.read (textOf run)).buf
      (chunked.steps run).decoded := by
  induction run with
  | nil => exact fun h => h
  | cons step run ih =>
    intro whole chunked h
    cases step with
    | none => exact @ih whole chunked.cut h
    | some u => exact ih (apart_unit h u)

/-- Runs that are apart end with other events. -/
theorem apart_events {whole chunked : Scan} (h : Apart whole.decoded whole.buf chunked.decoded) :
    chunked.events ≠ whole.events := by
  rw [events_eq_line, events_eq_line]
  exact ((h.line_right chunked.buf).line_left.line_right []).line_left.events_ne

/-! ## Runs that go along -/

/-- The runs agree; the first may have forgotten a CR. -/
structure Same (whole chunked : Scan) : Prop where
  decoded : chunked.decoded = whole.decoded
  buf : chunked.buf = whole.buf
  cr : chunked.cr = true → whole.cr = true

/-- The first run has dispatched the event that the second one holds. -/
structure Held (whole chunked : Scan) : Prop where
  pending : whole.decoded.state.pending = true
  decoded : chunked.decoded = whole.decoded.line []
  wholeBuf : whole.buf = []
  chunkedBuf : chunked.buf = []
  wholeCr : whole.cr = false
  chunkedCr : chunked.cr = false

/-- A chunk that ends here shows: an event is pending, and the break is followed by text. -/
def Shows (whole : Scan) (after : JsString) : Prop :=
  whole.cr = true ∧ whole.decoded.state.pending = true ∧
    ∃ u rest, after = lineFeed :: u :: rest ∧ isLineBreak u = false

theorem same_cut {whole chunked : Scan} (h : Same whole chunked) : Same whole chunked.cut :=
  ⟨h.decoded, h.buf, fun hc => by cases hc⟩

/-- A unit is read alike, unless it is a line feed whose CR is forgotten. -/
theorem same_unit {whole chunked : Scan} (h : Same whole chunked) {u : UInt16}
    (hu : ¬ (whole.cr = true ∧ chunked.cr = false ∧ u = lineFeed)) :
    Same (whole.unit u) (chunked.unit u) := by
  by_cases hcr : whole.cr = true ∧ u = lineFeed
  · obtain ⟨hwhole, rfl⟩ := hcr
    have hchunked : chunked.cr = true := by
      cases hc : chunked.cr with
      | true => rfl
      | false => exact absurd ⟨hwhole, hc, rfl⟩ hu
    rw [unit_pair hwhole, unit_pair hchunked]
    exact ⟨h.decoded, h.buf, fun hc => by cases hc⟩
  · have hcr' : ¬ (chunked.cr = true ∧ u = lineFeed) := fun hc => hcr ⟨h.cr hc.1, hc.2⟩
    by_cases hbreak : isLineBreak u = true
    · rw [unit_break hbreak hcr, unit_break hbreak hcr', h.decoded, h.buf]
      exact ⟨rfl, rfl, fun hc => hc⟩
    · have htext := Bool.eq_false_iff.mpr hbreak
      rw [unit_text htext, unit_text htext, h.decoded, h.buf]
      exact ⟨rfl, rfl, fun hc => hc⟩

/-- The line feed whose CR is forgotten ends an empty line. -/
theorem same_lineFeed {whole chunked : Scan} (h : Same whole chunked) (hopen : whole.Open)
    (hwhole : whole.cr = true) (hchunked : chunked.cr = false) :
    chunked.unit lineFeed = ⟨whole.decoded.line [], [], false⟩ ∧
      whole.unit lineFeed = ⟨whole.decoded, [], false⟩ := by
  have hbuf : whole.buf = [] := hopen.empty hwhole
  constructor
  · have hforgot : ¬ (chunked.cr = true ∧ lineFeed = lineFeed) := fun hc => by
      rw [hchunked] at hc
      exact Bool.false_ne_true hc.1
    rw [unit_break (by decide) hforgot, h.decoded, h.buf, hbuf]
    rfl
  · rw [unit_pair hwhole, Scan.cut, hbuf]

theorem held_lineFeed {whole chunked : Scan} (h : Same whole chunked) (hopen : whole.Open)
    (hwhole : whole.cr = true) (hchunked : chunked.cr = false)
    (hpending : whole.decoded.state.pending = true) :
    Held (whole.unit lineFeed) (chunked.unit lineFeed) := by
  obtain ⟨hc, hw⟩ := same_lineFeed h hopen hwhole hchunked
  rw [hc, hw]
  exact ⟨hpending, rfl, rfl, rfl, rfl, rfl⟩

/-- A break dispatches the event that is held. -/
theorem held_break {whole chunked : Scan} (h : Held whole chunked) {u : UInt16}
    (hu : isLineBreak u = true) : Same (whole.unit u) (chunked.unit u) := by
  have hwhole : ¬ (whole.cr = true ∧ u = lineFeed) := fun hc => by
    rw [h.wholeCr] at hc
    cases hc.1
  have hchunked : ¬ (chunked.cr = true ∧ u = lineFeed) := fun hc => by
    rw [h.chunkedCr] at hc
    cases hc.1
  rw [unit_break hu hwhole, unit_break hu hchunked, h.decoded, h.wholeBuf, h.chunkedBuf,
    line_nil_nil]
  exact ⟨rfl, rfl, fun hc => hc⟩

/-- Text that follows belongs to the event that is held, but not to the dispatched one. -/
theorem held_text {whole chunked : Scan} (h : Held whole chunked) {u : UInt16}
    (hu : isLineBreak u = false) :
    Apart (whole.unit u).decoded (whole.unit u).buf (chunked.unit u).decoded := by
  obtain ⟨e, he, hline⟩ := line_nil_pending h.pending
  rw [unit_text hu, unit_text hu, h.decoded, h.wholeBuf, hline]
  exact ⟨whole.decoded.events, e, [], rfl, .inl ⟨rfl, by simp [he]⟩⟩

/-! ## Where a cut shows -/

/-- No chunk of the run ends where it shows. -/
def NoCutShows (whole : Scan) (run : List (Option UInt16)) : Prop :=
  ∀ a b, run = a ++ none :: b → ¬ Shows (whole.read (textOf a)) (textOf b)

/-- The runs are together, and what follows keeps them so. -/
def Together (whole chunked : Scan) (after : JsString) : Prop :=
  (Same whole chunked ∧ (whole.cr = true → chunked.cr = false → ¬ Shows whole after)) ∨
    (Held whole chunked ∧ ∀ u ∈ after.head?, isLineBreak u = true)

/-- A unit that is read says whether it was a CR. -/
theorem unit_cr (s : Scan) (u : UInt16) : (s.unit u).cr = decide (u = carriageReturn) := by
  unfold Scan.unit
  split
  · split
    · rename_i hpair
      rw [hpair.2]
      rfl
    · rfl
  · rename_i htext
    exact (decide_eq_false fun heq => htext (by rw [heq]; rfl)).symm

theorem together_unit {whole chunked : Scan} (hopen : whole.Open) {u : UInt16} {after : JsString}
    (h : Together whole chunked (u :: after)) :
    Together (whole.unit u) (chunked.unit u) after := by
  -- once a unit is read, both runs know whether it was a CR
  have hcr : ∀ {s t : Scan}, Same (s.unit u) (t.unit u) →
      ((s.unit u).cr = true → (t.unit u).cr = true) →
      Together (s.unit u) (t.unit u) after := fun hsame hcr =>
    .inl ⟨hsame, fun hwhole hchunked => by rw [hcr hwhole] at hchunked; cases hchunked⟩
  have hkeep : ∀ s t : Scan, (s.unit u).cr = true → (t.unit u).cr = true := fun s t hs => by
    rw [unit_cr] at hs ⊢
    exact hs
  rcases h with ⟨hsame, hshows⟩ | ⟨hheld, hnext⟩
  · by_cases hforgot : whole.cr = true ∧ chunked.cr = false ∧ u = lineFeed
    · obtain ⟨hwhole, hchunked, rfl⟩ := hforgot
      by_cases hpending : whole.decoded.state.pending = true
      · refine .inr ⟨held_lineFeed hsame hopen hwhole hchunked hpending, fun v hv => ?_⟩
        obtain ⟨rest, rfl⟩ := List.head?_eq_some_iff.mp hv
        exact Bool.not_eq_false _ ▸ fun htext =>
          hshows hwhole hchunked ⟨hwhole, hpending, v, rest, rfl, htext⟩
      · obtain ⟨hc, hw⟩ := same_lineFeed hsame hopen hwhole hchunked
        refine hcr ?_ (hkeep whole chunked)
        rw [hc, hw, line_nil_idle (Bool.eq_false_iff.mpr hpending)]
        exact ⟨rfl, rfl, fun hcr => hcr⟩
    · exact hcr (same_unit hsame hforgot) (hkeep whole chunked)
  · exact hcr (held_break hheld (hnext u rfl)) (hkeep whole chunked)

/-- **No cut shows.** Then the events are those of the whole text. -/
theorem together_events (run : List (Option UInt16)) : ∀ {whole chunked : Scan}, whole.Open →
    Together whole chunked (textOf run) → NoCutShows whole run →
    (chunked.steps run).events = (whole.read (textOf run)).events := by
  induction run with
  | nil =>
    intro whole chunked _ h _
    show chunked.events = whole.events
    rw [events_eq_line, events_eq_line]
    rcases h with ⟨hsame, -⟩ | ⟨hheld, -⟩
    · rw [hsame.decoded, hsame.buf]
    · rw [hheld.decoded, hheld.wholeBuf, hheld.chunkedBuf, line_nil_nil]
  | cons step run ih =>
    intro whole chunked hopen h hclean
    cases step with
    | none =>
      have hnext : NoCutShows whole run := fun a b hab =>
        hclean (none :: a) b (by rw [hab, List.cons_append])
      refine @ih whole chunked.cut hopen ?_ hnext
      rcases h with ⟨hsame, -⟩ | ⟨hheld, hnext⟩
      · exact .inl ⟨same_cut hsame, fun _ _ => hclean [] run rfl⟩
      · exact .inr ⟨⟨hheld.pending, hheld.decoded, hheld.wholeBuf, hheld.chunkedBuf, hheld.wholeCr,
          rfl⟩, hnext⟩
    | some u =>
      have hnext : NoCutShows (whole.unit u) run := fun a b hab =>
        hclean (some u :: a) b (by rw [hab, List.cons_append])
      exact ih (open_unit hopen u) (together_unit hopen h) hnext

/-- Two runs agree, hold an event, or are apart. -/
theorem runs_cases (run : List (Option UInt16)) : ∀ {whole chunked : Scan}, whole.Open →
    (Same whole chunked ∨ Held whole chunked) →
    Same (whole.read (textOf run)) (chunked.steps run) ∨
      Held (whole.read (textOf run)) (chunked.steps run) ∨
      Apart (whole.read (textOf run)).decoded (whole.read (textOf run)).buf
        (chunked.steps run).decoded := by
  induction run with
  | nil => exact fun _ h => h.imp_right .inl
  | cons step run ih =>
    intro whole chunked hopen h
    cases step with
    | none =>
      refine @ih whole chunked.cut hopen ?_
      rcases h with hsame | hheld
      · exact .inl (same_cut hsame)
      · exact .inr ⟨hheld.pending, hheld.decoded, hheld.wholeBuf, hheld.chunkedBuf, hheld.wholeCr,
          rfl⟩
    | some u =>
      rcases h with hsame | hheld
      · refine ih (open_unit hopen u) ?_
        by_cases hforgot : whole.cr = true ∧ chunked.cr = false ∧ u = lineFeed
        · obtain ⟨hwhole, hchunked, rfl⟩ := hforgot
          by_cases hpending : whole.decoded.state.pending = true
          · exact .inr (held_lineFeed hsame hopen hwhole hchunked hpending)
          · obtain ⟨hc, hw⟩ := same_lineFeed hsame hopen hwhole hchunked
            show Same (whole.unit lineFeed) (chunked.unit lineFeed) ∨ _
            rw [hc, hw, line_nil_idle (Bool.eq_false_iff.mpr hpending)]
            exact .inl ⟨rfl, rfl, fun hcr => hcr⟩
        · exact .inl (same_unit hsame hforgot)
      · by_cases hu : isLineBreak u = true
        · exact ih (open_unit hopen u) (.inl (held_break hheld hu))
        · exact .inr (.inr (apart_steps run (held_text hheld (Bool.eq_false_iff.mpr hu))))

/-- Ends of chunks in a row change nothing. -/
theorem steps_cuts : ∀ {cuts : List (Option UInt16)} {s : Scan}, (∀ x ∈ cuts, id x = none) →
    s.cr = false → s.steps cuts = s
  | [], _, _, _ => rfl
  | x :: cuts, s, hcuts, hcr => by
    obtain ⟨hx, hcuts⟩ := List.forall_mem_cons.mp hcuts
    have hcut : s.step x = s := by
      rw [show x = none from hx]
      show s.cut = s
      rw [Scan.cut, ← hcr]
    show (s.step x).steps cuts = s
    rw [hcut, steps_cuts hcuts hcr]

/-- A cut that shows drives the runs apart. -/
theorem apart_of_shows {whole chunked : Scan} (hopen : whole.Open) (hsame : Same whole chunked)
    {run : List (Option UInt16)} (hshows : Shows whole (textOf run)) :
    Apart (whole.read (textOf run)).decoded (whole.read (textOf run)).buf
      (chunked.cut.steps run).decoded := by
  obtain ⟨hcr, hpending, u, rest, hafter, hu⟩ := hshows
  obtain ⟨cuts, x, run', rfl, hcuts, hx, hrun'⟩ := List.filterMap_eq_cons_iff.mp hafter
  obtain ⟨cuts', y, run'', rfl, hcuts', hy, hrun''⟩ := List.filterMap_eq_cons_iff.mp hrun'
  have hheld := held_lineFeed (same_cut hsame) hopen hcr rfl hpending
  have hapart := apart_steps run'' (held_text hheld hu)
  obtain rfl : x = some lineFeed := hx
  obtain rfl : y = some u := hy
  have hchunked : chunked.cut.steps (cuts ++ some lineFeed :: (cuts' ++ some u :: run''))
      = ((chunked.cut.unit lineFeed).unit u).steps run'' := by
    rw [steps_append, steps_cuts hcuts rfl]
    show (chunked.cut.unit lineFeed).steps (cuts' ++ some u :: run'') = _
    rw [steps_append, steps_cuts hcuts' hheld.chunkedCr]
    rfl
  rw [hchunked, hafter, ← hrun'']
  exact hapart

/-- **Chunks.** The events are those of the whole text, unless the end of a chunk shows. -/
theorem steps_events_iff (run : List (Option UInt16)) :
    (Scan.initial.steps run).events = (Scan.initial.read (textOf run)).events ↔
      NoCutShows Scan.initial run := by
  have hopen : Scan.initial.Open :=
    ⟨fun _ hmem => absurd hmem List.not_mem_nil, fun h => by cases h⟩
  have hsame : Same Scan.initial Scan.initial := ⟨rfl, rfl, fun h => h⟩
  constructor
  · intro hevents a b hab hshows
    have hread : Scan.initial.read (textOf run)
        = (Scan.initial.read (textOf a)).read (textOf b) := by
      rw [hab, textOf, List.filterMap_append, Scan.read_append]
      rfl
    have hsteps : Scan.initial.steps run = (Scan.initial.steps a).cut.steps b := by
      rw [hab, steps_append]
      rfl
    rw [hread, hsteps] at hevents
    refine apart_events ?_ hevents
    rcases runs_cases a hopen (.inl hsame) with h | h | h
    · exact apart_of_shows (open_read _ hopen) h hshows
    · rw [Shows, h.wholeCr] at hshows
      cases hshows.1
    · exact @apart_steps b (Scan.initial.read (textOf a)) (Scan.initial.steps a).cut h
  · exact fun hclean => together_events run hopen (.inl ⟨hsame, fun h => by cases h⟩) hclean

/-! ## The chunks of a body -/

/-- A chunk ends between CR and LF while an event is pending, and text follows the LF. -/
def CutShows (before after : JsString) : Prop :=
  before.getLast? = some carriageReturn ∧ (stateBehind before).pending = true ∧
    ∃ u rest, after = lineFeed :: u :: rest ∧ isLineBreak u = false

theorem read_cr_iff (text : JsString) :
    (Scan.initial.read text).cr = true ↔ text.getLast? = some carriageReturn := by
  rcases List.eq_nil_or_concat text with rfl | ⟨before, u, rfl⟩
  · constructor <;> intro h <;> cases h
  · rw [List.concat_eq_append, Scan.read_append]
    show ((Scan.initial.read before).unit u).cr = true ↔ _
    rw [unit_cr]
    simp

theorem shows_iff (before after : JsString) :
    Shows (Scan.initial.read before) after ↔ CutShows before after := by
  unfold Shows CutShows
  rw [read_cr_iff, stateBehind_eq_scan]

theorem noCutShows_iff (pieces : List JsString) :
    NoCutShows Scan.initial (stepsOf pieces) ↔
      ∀ front back, pieces = front ++ back → ¬ CutShows front.flatten back.flatten := by
  constructor
  · rintro h front back rfl hshows
    -- a piece follows, since text does
    cases back with
    | nil =>
      obtain ⟨-, -, u, rest, hnil, -⟩ := hshows
      cases hnil
    | cons piece back =>
      have hsplit : stepsOf (front ++ piece :: back)
          = stepsOf front ++ none :: (piece.map some ++ stepsOf back) := by
        unfold stepsOf
        rw [List.flatMap_append, List.flatMap_cons]
        rfl
      refine h _ _ hsplit ?_
      rw [textOf_stepsOf, shows_iff]
      have hback : textOf (piece.map some ++ stepsOf back) = (piece :: back).flatten :=
        (textOf_stepsOf (piece :: back))
      rw [hback]
      exact hshows
  · intro h a b hab hshows
    obtain ⟨front, back, rfl, rfl, hback⟩ := stepsOf_split hab
    refine h front back rfl ?_
    rw [textOf_stepsOf, shows_iff] at hshows
    have htext : textOf b = back.flatten := by
      rw [← textOf_stepsOf, hback]
      rfl
    rw [← htext]
    exact hshows

/-- **Decoding in chunks.** The events are those of the whole text if and only if no chunk ends
between CR and LF, with an event pending and text behind the LF. -/
theorem iterateSseMessages_eq_iff (chunks : List (List UInt8)) :
    iterateSseMessages chunks = sseEvents (TextDecoder.stripBom (decodeUtf8 chunks.flatten)) ↔
      ∀ front back, TextDecoder.new.decodeChunks chunks = front ++ back →
        ¬ CutShows front.flatten back.flatten := by
  have hopen : Scan.initial.Open :=
    ⟨fun _ hmem => absurd hmem List.not_mem_nil, fun h => by cases h⟩
  have hrun : iterateSseMessages chunks
      = (readPieces Scan.initial (TextDecoder.new.decodeChunks chunks)).events :=
    foldl_readPiece _ hopen
  rw [hrun, readPieces_eq_steps, sseEvents_eq_scan, ← TextDecoder.decodeChunks_text,
    ← textOf_stepsOf, steps_events_iff, noCutShows_iff]

/-- Cut inside its CR LF, an event loses its data. -/
theorem iterateSseMessages_cut :
    iterateSseMessages [(js "event: a\r").map (·.toUInt8), (js "\ndata: x\r\n\r\n").map (·.toUInt8)]
      ≠ sseEvents (TextDecoder.stripBom (decodeUtf8
          [(js "event: a\r").map (·.toUInt8), (js "\ndata: x\r\n\r\n").map (·.toUInt8)].flatten)) :=
            by
  decide

end PiMono.Ai
