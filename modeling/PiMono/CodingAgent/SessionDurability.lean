import PiMono.CodingAgent.SessionOpen

/-!
# What a reload finds behind a torn line

`_setSessionFile` (`session-manager.ts:980-1013`) takes the lines it can read and
leaves the file as it is; `_persist` (`:1100-1134`) writes behind whatever stands
there. `entriesOfText_behind` says what becomes of a text that ends in an open
line, and `World.append_durable` when appends survive a reload: the file is
rewritten on opening, or ends in a newline, up to spaces.
-/

namespace PiMono

/-! ## Writing behind an open line -/

/-- The line of an entry, written behind an open line: it can be read only behind
spaces. -/
theorem parse_behind_line {e : FileEntry} (he : ∃ i p t b, e = .create i p t b) (line : JsString) :
    parseSessionEntryLine (line ++ e.raw.stringify)
      = if line.all isJsonSpace then some e else none := by
  obtain ⟨i, p, t, b, rfl⟩ := he
  obtain ⟨w, rest, hjson⟩ : ∃ w rest, (FileEntry.create i p t b).raw.json
      = .obj ((js "type", w) :: rest) := JsValue.object_cons _ _ _
  have hwf := (FileEntry.create i p t b).raw.wf
  rw [hjson] at hwf
  have hbehind := Json.parse_behind (t := line) (k := js "type") (c := 0x74) rfl (by decide) hwf
  rw [parseSessionEntryLine_eq, JsValue.stringify, hjson]
  split
  · rename_i hspaces
    rw [if_pos hspaces, ← hjson] at hbehind
    rw [← hjson, JsValue.parse_eq_some.mpr hbehind]
    rfl
  · rename_i hspaces
    rw [if_neg hspaces] at hbehind
    rw [JsValue.parse_eq_none.mpr hbehind]
    rfl

theorem entriesOfText_eq (text : JsString) : entriesOfText text
    = entriesOfLines (closedLines 0x0A text) ++ entriesOfLines [lastLine 0x0A text] := by
  rw [entriesOfText, splitOn_eq, entriesOfLines, List.filterMap_append]
  rfl

/-- A line of spaces holds no entry. -/
theorem entriesOfLines_spaces {line : JsString} (h : line.all isJsonSpace = true) :
    entriesOfLines [line] = [] := by
  have hnone : Json.parse line = none := by
    rw [Json.parse, JsonState.run_spaces (List.all_eq_true.mp h)]
    rfl
  rw [entriesOfLines, List.filterMap_cons, parseSessionEntryLine_eq,
    JsValue.parse_eq_none.mpr hnone]
  rfl

variable {e : FileEntry} {es : List FileEntry}

/-- **What stands behind an open line**: the first entry written there is lost with
the line, unless the line is nothing but spaces. -/
theorem entriesOfText_behind (he : ∃ i p t b, e = .create i p t b)
    (hes : ∀ e ∈ es, e.raw.truthy = true) (text : JsString) :
    entriesOfText (text ++ (e :: es).flatMap (·.line))
      = entriesOfLines (closedLines 0x0A text)
        ++ ((if (lastLine 0x0A text).all isJsonSpace then [e] else []) ++ es) := by
  have hline : (0x0A : UInt16) ∉ e.raw.stringify :=
    fun hmem => stringify_no_newline e.raw _ hmem rfl
  have hrest : entriesOfLines ((es.flatMap (·.line)).splitOn 0x0A) = es := by
    have := entriesOfText_lines hes []
    rwa [List.append_nil, entriesOfText_nil, List.append_nil] at this
  have htruthy : e.raw.truthy = true := by
    obtain ⟨i, p, t, b, rfl⟩ := he
    exact truthy_create i p t b
  have hfirst : entriesOfLines [lastLine 0x0A text ++ e.raw.stringify]
      = if (lastLine 0x0A text).all isJsonSpace then [e] else [] := by
    rw [entriesOfLines, List.filterMap_cons, parse_behind_line he]
    by_cases hspaces : (lastLine 0x0A text).all isJsonSpace = true
    · simp only [if_pos hspaces, Option.filter_some, if_pos htruthy]
      rfl
    · simp only [if_neg hspaces]
      rfl
  have happend : ∀ front line rest, entriesOfLines (front ++ line :: rest)
      = entriesOfLines front ++ (entriesOfLines [line] ++ entriesOfLines rest) := by
    intro front line rest
    rw [entriesOfLines, entriesOfLines, entriesOfLines, entriesOfLines, ← List.filterMap_append,
      ← List.filterMap_append]
    rfl
  rw [List.flatMap_cons, FileEntry.line, List.append_assoc, List.singleton_append, entriesOfText,
    splitOn_append_line text hline, happend, hfirst, hrest]

theorem entriesOfText_behind_iff (he : ∃ i p t b, e = .create i p t b)
    (hes : ∀ e ∈ es, e.raw.truthy = true) (text : JsString) :
    entriesOfText (text ++ (e :: es).flatMap (·.line)) = entriesOfText text ++ e :: es ↔
      (lastLine 0x0A text).all isJsonSpace = true := by
  rw [entriesOfText_behind he hes, entriesOfText_eq, List.append_assoc]
  constructor
  · intro h
    by_contra hspaces
    rw [if_neg hspaces] at h
    have hlength := congrArg List.length (List.append_cancel_left h)
    simp only [List.nil_append, List.length_append, List.length_cons] at hlength
    omega
  · intro hspaces
    rw [if_pos hspaces, entriesOfLines_spaces hspaces]
    rfl

/-- The bytes of lines start with a brace. -/
theorem decodeUtf8_append_lines (bytes : List UInt8) (he : ∃ i p t b, e = .create i p t b) :
    decodeUtf8 (bytes ++ encodeLines (e :: es))
      = decodeUtf8 bytes ++ (e :: es).flatMap (·.line) := by
  have hdecode : decodeUtf8 (encodeLines (e :: es)) = (e :: es).flatMap (·.line) :=
    decodeUtf8_encodeUtf8 (wellFormed_lines _)
  obtain ⟨b, bs, hbytes, hb⟩ : ∃ b bs, encodeLines (e :: es) = b :: bs ∧ b.toNat ≤ 0x7F := by
    obtain ⟨i, p, t, body, rfl⟩ := he
    obtain ⟨w, rest, hjson⟩ : ∃ w rest, (FileEntry.create i p t body).raw.json
        = .obj ((js "type", w) :: rest) := JsValue.object_cons _ _ _
    obtain ⟨text, htext⟩ := Json.stringify_obj ((js "type", w) :: rest)
    rw [encodeLines, List.flatMap_cons, FileEntry.line, JsValue.stringify, hjson, htext]
    exact encodeUtf8_ascii_cons (by decide) _
  rw [hbytes, decodeUtf8_append_ascii bytes bs hb, ← hbytes, hdecode]

/-! ## Reading back -/

namespace World

variable {disk : Disk} {d : Draws} {cwd sessionDir path : JsString} {bytes : List UInt8}
  {w : World}

/-- The file of a session can be read back. -/
def Readable (path : JsString) (w : World) : Prop :=
  loadEntriesFromFile w.disk path = w.manager.fileEntries ∧
    ∀ id, w.reload.getBranch (some id) = w.manager.getBranch (some id)

variable {es added : List FileEntry}

/-- Where a reload finds the entries, it finds every branch. -/
theorem Behind.readable_of_load (h : Behind path bytes es added w)
    (hload : loadEntriesFromFile w.disk path = w.manager.fileEntries) : Readable path w := by
  refine ⟨hload, fun id => ?_⟩
  have hbyId : w.reload.byId = w.manager.byId := by
    rw [World.reload, h.file, Option.getD_some, hload, SessionManager.buildIndex_byId, h.byId]
  rw [SessionManager.getBranch, SessionManager.getBranch, hbyId, Option.some_or, Option.some_or]

theorem Behind.readable_iff (h : Behind path bytes es added w) (hload : loadEntries bytes = es)
    (hes : es ≠ []) : Readable path w ↔
      added = [] ∨ (lastLine 0x0A (decodeUtf8 bytes)).all isJsonSpace = true := by
  subst hload
  obtain ⟨hheader, htext, -⟩ := loadEntries_ne_nil hes
  have hfile : loadEntriesFromFile w.disk path = loadEntries (bytes ++ encodeLines added) := by
    rw [loadEntriesFromFile, h.disk]
  cases added with
  | nil =>
    refine ⟨fun _ => Or.inl rfl, fun _ => h.readable_of_load ?_⟩
    rw [hfile, h.entries, List.append_nil]
    exact congrArg loadEntries (List.append_nil _)
  | cons e rest =>
    obtain ⟨he, hrest⟩ := List.forall_mem_cons.mp h.created
    have htruthy : ∀ e ∈ rest, e.raw.truthy = true := by
      intro e he
      obtain ⟨i, p, t, b, rfl⟩ := hrest e he
      exact truthy_create i p t b
    have hiff := entriesOfText_behind_iff he htruthy (decodeUtf8 bytes)
    rw [← decodeUtf8_append_lines bytes he, ← htext] at hiff
    rw [or_iff_right (List.cons_ne_nil e rest), ← hiff]
    constructor
    · rintro ⟨hreload, -⟩
      rw [hfile, h.entries] at hreload
      have hne : loadEntries (bytes ++ encodeLines (e :: rest)) ≠ [] := by
        rw [hreload]
        exact List.append_ne_nil_of_left_ne_nil hes _
      rw [← (loadEntries_ne_nil hne).2.1, hreload]
    · intro hentries
      refine h.readable_of_load ?_
      obtain ⟨header, others, hcons⟩ := List.exists_cons_of_ne_nil hes
      have hheader' : hasSessionHeader (loadEntries bytes ++ e :: rest) = true := by
        rw [hcons] at hheader ⊢
        exact hheader
      rw [hfile, h.entries, loadEntries, hentries, if_pos hheader']

/-- A file that ends with a newline has nothing open. -/
theorem lastLine_encodeLines {es : List FileEntry} (hes : es ≠ []) :
    lastLine 0x0A (decodeUtf8 (encodeLines es)) = [] := by
  obtain ⟨init, e, rfl⟩ := (List.eq_nil_or_concat es).resolve_left hes
  rw [encodeLines, decodeUtf8_encodeUtf8 (wellFormed_lines _), List.concat_eq_append,
    List.flatMap_append, List.flatMap_singleton, FileEntry.line, ← List.append_assoc]
  exact lastLine_concat _

/-- Whether what stands behind the opened file is a line of its own: opening rewrote
the file, or nothing but spaces stands behind its last newline. -/
def ClosedOnOpening (bytes : List UInt8) : Prop :=
  ¬(sessionVersion? (loadEntries bytes)).any ((currentSessionVersion : Int) ≤ ·) = true ∨
    (lastLine 0x0A (decodeUtf8 bytes)).all isJsonSpace = true

instance (bytes : List UInt8) : Decidable (ClosedOnOpening bytes) :=
  inferInstanceAs (Decidable (_ ∨ _))

/-- What is done in an opened session is found by a reload exactly when nothing was
appended or the file was closed. -/
theorem readable_afterSteps_iff (hdisk : disk.get? path = some bytes)
    (hload : loadEntries bytes ≠ []) (hopen : openFile disk d cwd sessionDir path = .ok w)
    (steps : List SessionStep) :
    ∃ added, (w.afterSteps steps).manager.fileEntries
        = (migrateToCurrentVersion d.uuids (loadEntries bytes)).1 ++ added ∧
      (Readable path (w.afterSteps steps) ↔ added = [] ∨ ClosedOnOpening bytes) := by
  obtain ⟨added, hafter⟩ := (openFile_behind hdisk hload hopen).afterSteps steps
  rw [List.nil_append] at hafter
  obtain ⟨hopened, hne⟩ := loadEntries_openedBytes d hload
  refine ⟨added, hafter.entries, ?_⟩
  rw [hafter.readable_iff hopened hne, ClosedOnOpening, ← @migrate_unchanged d.uuids]
  cases hchanged : (migrateToCurrentVersion d.uuids (loadEntries bytes)).2 with
  | true =>
    have hclosed : lastLine 0x0A (decodeUtf8 (openedBytes d bytes)) = [] := by
      rw [openedBytes]
      simp only [hchanged, if_true]
      exact lastLine_encodeLines hne
    simp [hclosed]
  | false =>
    have hsame : openedBytes d bytes = bytes := by
      rw [openedBytes]
      simp only [hchanged, Bool.false_eq_true, if_false]
    simp [hsame]

/-- Something can be appended to every opened session. -/
theorem Behind.exists_append (h : Behind path bytes es [] w) (d : Draws) :
    ∃ step : SessionStep, ∃ e, (w.after step.draws step.op).manager.fileEntries = es ++ [e] := by
  refine ⟨⟨d, .appendThinkingLevelChange [], rfl⟩,
    .create (w.nextId d) w.manager.leafId d.now (.thinkingLevelChange []), ?_⟩
  have hok := persistEntry_flushed
    (w := ⟨w.manager.pushEntry (.create (w.nextId d) w.manager.leafId d.now
      (.thinkingLevelChange [])), w.disk⟩) h.persist h.file h.flushed
    (.create (w.nextId d) w.manager.leafId d.now (.thinkingLevelChange []))
  have happly : w.apply d (.appendThinkingLevelChange []) = .ok _ := hok
  rw [World.after, happly]
  show w.manager.fileEntries ++ _ = _
  rw [h.entries, List.append_nil]

/-- A header line, and behind it what a crash left of a message. -/
def tornBytes : List UInt8 :=
  encodeUtf8 ((FileEntry.header (js "s") (js "2025-01-01") (js "/work") none).line
    ++ js "\x7b\"type\":\"mess")

end World

end PiMono
