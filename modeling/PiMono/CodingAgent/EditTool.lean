import PiMono.CodingAgent.FuzzyEdits
import PiMono.Lib.Utf8

/-!
# The edit tool

`packages/coding-agent/src/core/tools/edit.ts`: the tool reads a file, edits its text with
LF line endings, and writes it back with the one line ending that it detected. The lines
that no matched place touches are written with their text unchanged (`execute_keeps`);
their terminators become the detected one.
-/

namespace PiMono.CodingAgent

/-- `stripBom` -/
def stripBom (content : JsString) : JsString × JsString :=
  if content.head? = some 0xFEFF then ([0xFEFF], content.tail) else ([], content)

/-- What the tool meets: the file operations, and whether the signal is aborted at each check. -/
structure EditEnv where
  access : Except JsString Unit
  readFile : Except JsString (List UInt8)
  writeFile : Except JsString Unit
  aborted : Nat → Bool

/-- What the tool has written, and how it ends. -/
structure EditOutcome where
  written : Option (List UInt8)
  result : Except JsString JsString
  deriving DecidableEq

/-- `validateEditInput` -/
def validateEditInput (edits : List Edit) : Except JsString Unit :=
  if edits = [] then
    .error (js "Edit tool input is invalid. edits must contain at least one replacement.")
  else .ok ()

/-- `throwIfAborted`, at the check of that number. -/
def throwIfAborted (env : EditEnv) (check : Nat) : Except JsString Unit :=
  if env.aborted check then .error (js "Operation aborted") else .ok ()

/-- Whether the file can be read and written; the signal is checked in either case. -/
def checkAccess (env : EditEnv) (path : JsString) : Except JsString Unit := do
  throwIfAborted env 1
  match env.access with
  | .ok () => pure ()
  | .error errorMessage =>
    .error (js "Could not edit file: " ++ path ++ js ". " ++ errorMessage ++ js ".")

/-- What is written for a text that has been read. -/
def finalContent (nfkc : JsString → JsString) (rawContent : JsString) (edits : List Edit)
    (path : JsString) : Except JsString JsString := do
  let (bom, content) := stripBom rawContent
  let originalEnding := detectLineEnding content
  let applied ← applyEditsToNormalizedContent nfkc (normalizeToLF content) edits path
  pure (bom ++ restoreLineEndings applied.newContent originalEnding)

/-- The steps up to the write, and what has been written then. -/
def writeEdits (nfkc : JsString → JsString) (env : EditEnv) (path : JsString) (edits : List Edit) :
    Except JsString (List UInt8) := do
  validateEditInput edits
  throwIfAborted env 0
  checkAccess env path
  let buffer ← env.readFile
  throwIfAborted env 2
  let content ← finalContent nfkc (decodeUtf8 buffer) edits path
  throwIfAborted env 3
  env.writeFile
  pure (encodeUtf8 content)

/-- `execute` -/
def execute (nfkc : JsString → JsString) (env : EditEnv) (path : JsString) (edits : List Edit) :
    EditOutcome :=
  match writeEdits nfkc env path edits with
  | .error error => ⟨none, .error error⟩
  | .ok bytes =>
    ⟨some bytes, do
      throwIfAborted env 4
      pure (js "Successfully replaced " ++ decimal edits.length ++ js " block(s) in " ++ path
        ++ js ".")⟩

/-! ## The lines of a file -/

/-- What ends a line. -/
inductive Terminator where
  | lf
  | crlf
  | cr
  deriving DecidableEq

def Terminator.text : Terminator → JsString
  | .lf => [newline]
  | .crlf => [carriageReturn, newline]
  | .cr => [carriageReturn]

/-- The terminator that a file is written back with. -/
def LineEnding.terminator : LineEnding → Terminator
  | .lf => .lf
  | .crlf => .crlf

/-- A line of a file; the last one may have no terminator. -/
structure RawLine where
  text : JsString
  terminator : Option Terminator
  deriving DecidableEq

/-- A unit in front of the text of the first line. -/
def consText (u : UInt16) : List RawLine → List RawLine
  | [] => [⟨[u], none⟩]
  | line :: lines => ⟨u :: line.text, line.terminator⟩ :: lines

/-- The lines of a text. -/
def rawLines : JsString → List RawLine
  | [] => []
  | [u] =>
    if u = carriageReturn then [⟨[], some .cr⟩]
    else if u = newline then [⟨[], some .lf⟩]
    else [⟨[u], none⟩]
  | u :: v :: rest =>
    if u = carriageReturn then
      if v = newline then ⟨[], some .crlf⟩ :: rawLines rest else
        ⟨[], some .cr⟩ :: rawLines (v :: rest)
    else if u = newline then ⟨[], some .lf⟩ :: rawLines (v :: rest)
    else consText u (rawLines (v :: rest))

namespace RawLine

/-- The line as it stands in the file. -/
def units (line : RawLine) : JsString :=
  line.text ++ (line.terminator.map Terminator.text).getD []

/-- The line with another terminator, where it has one. -/
def withTerminator (line : RawLine) (terminator : Terminator) : RawLine :=
  ⟨line.text, line.terminator.map fun _ => terminator⟩

end RawLine

theorem normalizeToLF_cons {u : UInt16} (hu : u ≠ carriageReturn) (s : JsString) :
    normalizeToLF (u :: s) = u :: normalizeToLF s := by
  cases s with
  | nil => simp [normalizeToLF, hu]
  | cons v rest => rw [normalizeToLF, if_neg hu]

theorem rawLines_cr_lf (rest : JsString) :
    rawLines (carriageReturn :: newline :: rest) = ⟨[], some .crlf⟩ :: rawLines rest := by
  rw [rawLines, if_pos rfl, if_pos rfl]

theorem rawLines_cr {s : JsString} (hs : s.head? ≠ some newline) :
    rawLines (carriageReturn :: s) = ⟨[], some .cr⟩ :: rawLines s := by
  cases s with
  | nil => rfl
  | cons v rest =>
    have hv : v ≠ newline := fun h => hs (by rw [h]; rfl)
    rw [rawLines, if_pos rfl, if_neg hv]

theorem rawLines_lf (s : JsString) :
    rawLines (newline :: s) = ⟨[], some .lf⟩ :: rawLines s := by
  cases s with
  | nil => rfl
  | cons v rest => rw [rawLines, if_neg (by decide), if_pos rfl]

theorem rawLines_text {u : UInt16} (hcr : u ≠ carriageReturn) (hlf : u ≠ newline) (s : JsString) :
    rawLines (u :: s) = consText u (rawLines s) := by
  cases s with
  | nil => simp [rawLines, consText, hcr, hlf]
  | cons v rest => rw [rawLines, if_neg hcr, if_neg hlf]

/-- The lines of a text, one after the other: what ends them, or what stands in them. -/
theorem rawLines_induct {P : JsString → Prop} (nil : P [])
    (crlf : ∀ rest, P rest → P (carriageReturn :: newline :: rest))
    (cr : ∀ s, s.head? ≠ some newline → P s → P (carriageReturn :: s))
    (lf : ∀ s, P s → P (newline :: s))
    (text : ∀ u s, u ≠ carriageReturn → u ≠ newline → P s → P (u :: s)) : ∀ s, P s
  | [] => nil
  | [u] => by
    by_cases hcr : u = carriageReturn
    · rw [hcr]
      exact cr [] (by simp) nil
    · by_cases hlf : u = newline
      · rw [hlf]
        exact lf [] nil
      · exact text u [] hcr hlf nil
  | u :: v :: rest => by
    have ih := rawLines_induct nil crlf cr lf text (v :: rest)
    by_cases hcr : u = carriageReturn
    · rw [hcr]
      by_cases hlf : v = newline
      · rw [hlf]
        exact crlf rest (rawLines_induct nil crlf cr lf text rest)
      · exact cr (v :: rest) (by simpa using hlf) ih
    · by_cases hlf : u = newline
      · rw [hlf]
        exact lf (v :: rest) ih
      · exact text u (v :: rest) hcr hlf ih

theorem flatMap_consText (u : UInt16) (lines : List RawLine) :
    (consText u lines).flatMap RawLine.units = u :: lines.flatMap RawLine.units := by
  cases lines <;> rfl

/-- The lines put together are the text. -/
theorem flatMap_rawLines (s : JsString) : (rawLines s).flatMap RawLine.units = s := by
  induction s using rawLines_induct with
  | nil => rfl
  | crlf rest ih =>
    rw [rawLines_cr_lf, List.flatMap_cons, ih]
    rfl
  | cr s hs ih =>
    rw [rawLines_cr hs, List.flatMap_cons, ih]
    rfl
  | lf s ih =>
    rw [rawLines_lf, List.flatMap_cons, ih]
    rfl
  | text u s hcr hlf ih => rw [rawLines_text hcr hlf, flatMap_consText, ih]

/-- The lines of the normalized text are the lines of the text, with LF endings. -/
theorem splitLines_normalizeToLF (s : JsString) :
    splitLinesWithEndings (normalizeToLF s)
      = (rawLines s).map fun line => (line.withTerminator .lf).units := by
  induction s using rawLines_induct with
  | nil => rfl
  | crlf rest ih =>
    rw [rawLines_cr_lf, normalizeToLF, if_pos rfl, if_pos rfl, splitLinesWithEndings,
      if_pos rfl, ih]
    rfl
  | cr s hs ih =>
    have hnormal : normalizeToLF (carriageReturn :: s) = newline :: normalizeToLF s := by
      cases s with
      | nil => rfl
      | cons v rest =>
        have hv : v ≠ newline := fun h => hs (by rw [h]; rfl)
        rw [normalizeToLF, if_pos rfl, if_neg hv]
    rw [rawLines_cr hs, hnormal, splitLinesWithEndings, if_pos rfl, ih]
    rfl
  | lf s ih =>
    rw [rawLines_lf, normalizeToLF_cons (by decide), splitLinesWithEndings, if_pos rfl, ih]
    rfl
  | text u s hcr hlf ih =>
    rw [rawLines_text hcr hlf, normalizeToLF_cons hcr, splitLinesWithEndings, if_neg hlf, ih]
    cases rawLines s <;> rfl

/-- The text of a line has no terminator in it. -/
theorem text_of_mem_rawLines {s : JsString} :
    ∀ line ∈ rawLines s, ∀ u ∈ line.text, u ≠ carriageReturn ∧ u ≠ newline := by
  induction s using rawLines_induct with
  | nil => exact fun _ h => absurd h List.not_mem_nil
  | crlf rest ih =>
    rw [rawLines_cr_lf]
    exact List.forall_mem_cons.mpr ⟨fun _ h => absurd h List.not_mem_nil, ih⟩
  | cr s hs ih =>
    rw [rawLines_cr hs]
    exact List.forall_mem_cons.mpr ⟨fun _ h => absurd h List.not_mem_nil, ih⟩
  | lf s ih =>
    rw [rawLines_lf]
    exact List.forall_mem_cons.mpr ⟨fun _ h => absurd h List.not_mem_nil, ih⟩
  | text u s hcr hlf ih =>
    rw [rawLines_text hcr hlf]
    cases hlines : rawLines s with
    | nil =>
      intro line hline u' hu'
      obtain rfl := List.mem_singleton.mp hline
      obtain rfl := List.mem_singleton.mp hu'
      exact ⟨hcr, hlf⟩
    | cons line lines =>
      rw [hlines] at ih
      obtain ⟨hline, hlines⟩ := List.forall_mem_cons.mp ih
      exact List.forall_mem_cons.mpr ⟨List.forall_mem_cons.mpr ⟨⟨hcr, hlf⟩, hline⟩, hlines⟩

/-- A text without terminators goes in front of the first line. -/
theorem rawLines_append {t : JsString} (ht : ∀ u ∈ t, u ≠ carriageReturn ∧ u ≠ newline)
    (s : JsString) : rawLines (t ++ s) = t.foldr consText (rawLines s) := by
  induction t with
  | nil => rfl
  | cons u t ih =>
    obtain ⟨⟨hcr, hlf⟩, ht⟩ := List.forall_mem_cons.mp ht
    rw [List.cons_append, rawLines_text hcr hlf, ih ht, List.foldr_cons]

theorem foldr_consText (lines : List RawLine) : ∀ {t : JsString}, t ≠ [] →
    t.foldr consText lines
      = ⟨t ++ (lines.head?.map RawLine.text).getD [], lines.head?.bind RawLine.terminator⟩
        :: lines.tail
  | [], h => absurd rfl h
  | [u], _ => by cases lines <;> rfl
  | u :: v :: t, _ => by
    rw [List.foldr_cons, foldr_consText lines (List.cons_ne_nil v t)]
    rfl

/-- The lines of a text are texts. -/
theorem wellFormed_of_mem_rawLines : ∀ cs : List Char,
    ∀ line ∈ rawLines (cs.flatMap utf16), WellFormed line.text
  | [] => fun _ h => absurd h List.not_mem_nil
  | c :: cs => by
    have ih := wellFormed_of_mem_rawLines cs
    rw [List.flatMap_cons]
    by_cases hcr : carriageReturn ∈ utf16 c
    · rw [utf16_of_mem hcr (by decide) (by decide), List.singleton_append]
      by_cases hhead : (cs.flatMap utf16).head? = some newline
      · obtain ⟨rest, hrest⟩ := List.head?_eq_some_iff.mp hhead
        rw [hrest, rawLines_lf] at ih
        rw [hrest, rawLines_cr_lf]
        exact List.forall_mem_cons.mpr ⟨wellFormed_nil, (List.forall_mem_cons.mp ih).2⟩
      · rw [rawLines_cr hhead]
        exact List.forall_mem_cons.mpr ⟨wellFormed_nil, ih⟩
    · by_cases hlf : newline ∈ utf16 c
      · rw [utf16_of_mem hlf (by decide) (by decide), List.singleton_append, rawLines_lf]
        exact List.forall_mem_cons.mpr ⟨wellFormed_nil, ih⟩
      · -- the character goes in front of the first line
        have htext : ∀ u ∈ utf16 c, u ≠ carriageReturn ∧ u ≠ newline := fun u hu =>
          ⟨fun h => hcr (h ▸ hu), fun h => hlf (h ▸ hu)⟩
        rw [rawLines_append htext, foldr_consText _ (utf16_ne_nil c)]
        refine List.forall_mem_cons.mpr ⟨(wellFormed_utf16 c).append ?_, fun line hline =>
          ih line (List.mem_of_mem_tail hline)⟩
        cases hlines : rawLines (cs.flatMap utf16) with
        | nil => exact wellFormed_nil
        | cons first others => exact ih first (hlines ▸ List.mem_cons_self)

theorem wellFormed_units {line : RawLine} (h : WellFormed line.text) : WellFormed line.units := by
  refine h.append ?_
  cases line.terminator with
  | none => exact wellFormed_nil
  | some terminator =>
    cases terminator
    · exact ⟨['\n'], rfl⟩
    · exact ⟨['\r', '\n'], rfl⟩
    · exact ⟨['\r'], rfl⟩

/-- A line is written back with the detected ending. -/
theorem restoreLineEndings_line {line : RawLine}
    (h : ∀ u ∈ line.text, u ≠ carriageReturn ∧ u ≠ newline) (ending : LineEnding) :
    restoreLineEndings (line.withTerminator .lf).units ending
      = (line.withTerminator ending.terminator).units := by
  cases ending with
  | lf => rfl
  | crlf =>
    have htext : line.text.flatMap (fun u => if u = newline then [carriageReturn, newline] else [u])
        = line.text := by
      have hsame : ∀ u ∈ line.text,
        (if u = newline then [carriageReturn, newline] else [u]) = [u] :=
        fun u hu => if_neg (h u hu).2
      rw [flatMap_congr hsame, List.flatMap_singleton']
    rw [restoreLineEndings, RawLine.units, RawLine.units, List.flatMap_append]
    show line.text.flatMap _ ++ _ = line.text ++ _
    rw [htext]
    unfold RawLine.withTerminator
    cases line.terminator <;> rfl

/-! ## What the edits write -/

section Applied

variable {nfkc : JsString → JsString} {content path : JsString} {edits : List Edit}

/-- A text found without normalization is inside of the content. -/
theorem foundIn_inside {edit : Edit} {r : TextReplacement} (hne : edit.oldText ≠ [])
    (hexact : (fuzzyFindText nfkc content edit.oldText).any (·.usedFuzzyMatch) = false)
    (h : foundIn nfkc content edit = some r) : Inside content r := by
  unfold foundIn at h
  obtain ⟨found, hfound, rfl⟩ := Option.map_eq_some_iff.mp h
  rw [hfound] at hexact
  unfold fuzzyFindText at hfound
  cases hindex : indexOf? content edit.oldText with
  | none =>
    rw [hindex] at hfound
    obtain ⟨index, -, rfl⟩ := Option.map_eq_some_iff.mp hfound
    cases hexact
  | some index =>
    rw [hindex] at hfound
    obtain rfl := Option.some.inj hfound
    have hle := le_of_mem_occurrences (mem_of_indexOf? hindex)
    have hpos := List.length_pos_iff.mpr hne
    refine ⟨?_, hle⟩
    show index < _
    omega

/-- In either path the places found are written over the lines of the content. -/
theorem applyEdits_overlaid {result : AppliedEditsResult}
    (h : applyEditsToNormalizedContent nfkc content edits path = .ok result) :
    result.newContent = overlaid content (replacementBase nfkc content (normalizeEdits edits))
      (places nfkc (replacementBase nfkc content (normalizeEdits edits)) edits) := by
  by_cases hfuzzy : usedFuzzyMatch nfkc content (normalizeEdits edits) = true
  · obtain ⟨-, -, rfl⟩ := (applyEdits_fuzzy hfuzzy).mp h
    rw [replacementBase_fuzzy hfuzzy]
  · obtain ⟨sorted, newContent, hmatch, hnew, -, rfl⟩ := applyEdits_eq_ok.mp h
    obtain ⟨hempty, -, rfl, hchain⟩ := matchEdits_eq_ok.mp hmatch
    have hbase : replacementBase nfkc content (normalizeEdits edits) = content := by
      rw [replacementBase, if_neg hfuzzy]
    rw [replacedContent, if_neg hfuzzy, hbase] at hnew
    rw [hbase] at hchain ⊢
    obtain rfl := Except.ok.inj hnew
    have hinside : ∀ r ∈ places nfkc content edits,
        r.matchIndex < content.length ∧ r.stop ≤ content.length := by
      intro r hr
      rw [places, (List.mergeSort_perm _ _).mem_iff] at hr
      obtain ⟨edit, hedit, hfound⟩ := List.mem_filterMap.mp hr
      have hexact : (fuzzyFindText nfkc content edit.oldText).any (·.usedFuzzyMatch) = false := by
        rw [Bool.not_eq_true, usedFuzzyMatch, List.any_eq_false] at hfuzzy
        simpa using hfuzzy edit hedit
      exact foundIn_inside (hempty edit hedit) hexact hfound
    show applyReplacements content (places nfkc content edits) 0 = _
    rw [overlaid_self, applyReplacements_zero]
    exact replaceAll_eq (inOrder_of_isChain hchain 0 fun _ _ => Nat.zero_le _) hinside

/-- Some matched place touches the line. -/
def Touched (nfkc : JsString → JsString) (content : JsString) (edits : List Edit)
    (i : Nat) : Prop :=
  ∃ r ∈ places nfkc (replacementBase nfkc content (normalizeEdits edits)) edits,
    touchesLine (replacementBase nfkc content (normalizeEdits edits)) r i = true

theorem overlaidLine_of_not_touched {line : JsString} {i : Nat}
    (h : ¬ Touched nfkc content edits i) :
    overlaidLine (replacementBase nfkc content (normalizeEdits edits))
      (places nfkc (replacementBase nfkc content (normalizeEdits edits)) edits) line i = line := by
  rw [overlaidLine, if_neg]
  intro hany
  exact h (List.any_eq_true.mp hany)

end Applied

/-! ## The bytes -/

/-- Pieces of the bytes, one for each line: what is asked of it if it is not touched. -/
def Keeps (bom : JsString) (lines : List RawLine) (touched : Nat → Prop)
    (kept : RawLine → List UInt8 → Prop) (bytes : List UInt8) : Prop :=
  ∃ pieces : List (List UInt8), bytes = encodeUtf8 bom ++ pieces.flatten ∧
    List.Forall₂ (fun line piece => ¬ touched line.2 → kept line.1 piece) lines.zipIdx pieces

/-- Texts between others are encoded by themselves; what stands between two of them is one piece,
and the others of its lines are empty. -/
theorem exists_pieces {β : Type} (text : β → JsString) (kept : β → Prop) :
    ∀ lines : List β, (∀ line ∈ lines, kept line → WellFormed (text line) ∧ text line ≠ []) →
      (∃ pieces : List (List UInt8), encodeUtf8 (lines.flatMap text) = pieces.flatten ∧
        List.Forall₂ (fun line piece => kept line → piece = encodeUtf8 (text line)) lines pieces) ∧
      ∀ front, ∃ first, ∃ pieces : List (List UInt8),
        encodeUtf8 (front ++ lines.flatMap text) = first ++ pieces.flatten ∧
        List.Forall₂ (fun line piece => kept line → piece = encodeUtf8 (text line)) lines pieces
  | [], _ => by
    refine ⟨⟨[], rfl, .nil⟩, fun front => ⟨encodeUtf8 front, [], ?_, .nil⟩⟩
    rw [List.flatMap_nil, List.append_nil, List.flatten_nil, List.append_nil]
  | line :: lines, h => by
    obtain ⟨hline, hlines⟩ := List.forall_mem_cons.mp h
    obtain ⟨⟨pieces, hpieces, hkept⟩, hfront⟩ := exists_pieces text kept lines hlines
    by_cases hk : kept line
    · obtain ⟨htext, hne⟩ := hline hk
      have hsplit : encodeUtf8 (text line ++ lines.flatMap text)
          = encodeUtf8 (text line) ++ pieces.flatten := by
        rw [encodeUtf8_text_append htext, hpieces]
      constructor
      · exact ⟨encodeUtf8 (text line) :: pieces, hsplit, .cons (fun _ => rfl) hkept⟩
      · intro front
        refine ⟨encodeUtf8 front, encodeUtf8 (text line) :: pieces, ?_, .cons (fun _ => rfl) hkept⟩
        rw [List.flatMap_cons, List.flatten_cons, ← hsplit]
        -- the text begins with a whole character
        refine encodeUtf8_append_of_head fun u hu => htext.head u ?_
        rwa [List.head?_append_of_ne_nil _ hne] at hu
    · constructor
      · obtain ⟨first, pieces, hpieces, hkept⟩ := hfront (text line)
        exact ⟨first :: pieces, hpieces, .cons (fun h => absurd h hk) hkept⟩
      · intro front
        obtain ⟨first, pieces, hpieces, hkept⟩ := hfront (front ++ text line)
        refine ⟨first, [] :: pieces, ?_, .cons (fun h => absurd h hk) hkept⟩
        rw [List.flatMap_cons, ← List.append_assoc, hpieces]
        rfl

theorem withTerminator_units_ne_nil {s : JsString} {line : RawLine} (h : line ∈ rawLines s)
    (terminator : Terminator) : (line.withTerminator terminator).units ≠ [] := by
  have hne : (line.withTerminator .lf).units ≠ [] := by
    refine ne_nil_of_mem_splitLines ?_ (s := normalizeToLF s)
    rw [splitLines_normalizeToLF]
    exact List.mem_map_of_mem h
  intro hnil
  obtain ⟨text, ending⟩ := line
  obtain ⟨htext, hending⟩ := List.append_eq_nil_iff.mp hnil
  cases ending with
  | none => exact hne hnil
  | some ending => cases terminator <;> cases hending

theorem restoreLineEndings_flatMap {β : Type} (xs : List β) (f : β → JsString)
    (ending : LineEnding) :
    restoreLineEndings (xs.flatMap f) ending = xs.flatMap fun x =>
      restoreLineEndings (f x) ending := by
  cases ending with
  | lf => rfl
  | crlf => exact List.flatMap_assoc

section StripBom

variable {raw : JsString}

theorem stripBom_append (raw : JsString) : (stripBom raw).1 ++ (stripBom raw).2 = raw := by
  unfold stripBom
  by_cases hbom : raw.head? = some 0xFEFF
  · rw [if_pos hbom]
    obtain ⟨rest, rfl⟩ := List.head?_eq_some_iff.mp hbom
    rfl
  · rw [if_neg hbom]
    rfl

theorem wellFormed_bom (raw : JsString) : WellFormed (stripBom raw).1 := by
  unfold stripBom
  by_cases hbom : raw.head? = some 0xFEFF
  · rw [if_pos hbom]
    exact wellFormed_unit (by decide) (by decide)
  · rw [if_neg hbom]
    exact wellFormed_nil

theorem wellFormed_content (hraw : WellFormed raw) : WellFormed (stripBom raw).2 := by
  have h := TextDecoder.wellFormed_stripBom hraw
  unfold TextDecoder.stripBom at h
  unfold stripBom
  by_cases hbom : raw.head? = some 0xFEFF
  · rw [if_pos hbom] at h ⊢
    exact h
  · rw [if_neg hbom] at h ⊢
    exact h

theorem wellFormed_rawLines {content : JsString} (h : WellFormed content) :
    ∀ line ∈ rawLines content, WellFormed line.text := by
  obtain ⟨cs, rfl⟩ := h
  exact wellFormed_of_mem_rawLines cs

/-- The bytes of the file, line by line. -/
theorem encodeUtf8_rawLines (hraw : WellFormed raw) :
    encodeUtf8 raw = encodeUtf8 (stripBom raw).1
      ++ ((rawLines (stripBom raw).2).map fun line => encodeUtf8 line.units).flatten := by
  have hlines : ∀ lines : List RawLine, (∀ line ∈ lines, WellFormed line.text) →
      encodeUtf8 (lines.flatMap RawLine.units)
        = (lines.map fun line => encodeUtf8 line.units).flatten := by
    intro lines
    induction lines with
    | nil => exact fun _ => rfl
    | cons line lines ih =>
      intro h
      obtain ⟨hline, hlines⟩ := List.forall_mem_cons.mp h
      rw [List.flatMap_cons, encodeUtf8_text_append (wellFormed_units hline), ih hlines]
      rfl
  rw [← hlines _ (wellFormed_rawLines (wellFormed_content hraw)), flatMap_rawLines,
    ← encodeUtf8_text_append (wellFormed_bom raw), stripBom_append]

end StripBom

/-- What is written: the mark, and the lines that are not touched with the detected ending. -/
theorem finalContent_keeps {nfkc : JsString → JsString} {raw written path : JsString}
    {edits : List Edit} (hraw : WellFormed raw)
    (h : finalContent nfkc raw edits path = .ok written) :
    Keeps (stripBom raw).1 (rawLines (stripBom raw).2)
      (Touched nfkc (normalizeToLF (stripBom raw).2) edits)
      (fun line piece => piece = encodeUtf8
        (line.withTerminator (detectLineEnding (stripBom raw).2).terminator).units)
      (encodeUtf8 written) := by
  have hlines := wellFormed_rawLines (wellFormed_content hraw)
  have hbom := wellFormed_bom raw
  unfold finalContent at h
  generalize stripBom raw = stripped at h hlines hbom ⊢
  obtain ⟨bom, content⟩ := stripped
  obtain ⟨applied, happlied, hwritten⟩ := Except.bind_eq_ok.mp h
  obtain rfl := Except.ok.inj hwritten
  have hnew := applyEdits_overlaid happlied
  rw [overlaid, splitLines_normalizeToLF, List.zipIdx_map, List.flatMap_map] at hnew
  have hkept : ∀ line ∈ (rawLines content).zipIdx, ¬ Touched nfkc (normalizeToLF content)
    edits line.2 →
      restoreLineEndings (overlaidLine
        (replacementBase nfkc (normalizeToLF content) (normalizeEdits edits))
        (places nfkc (replacementBase nfkc (normalizeToLF content) (normalizeEdits edits)) edits)
        (line.1.withTerminator .lf).units line.2) (detectLineEnding content)
      = (line.1.withTerminator (detectLineEnding content).terminator).units := by
    intro line hline hnot
    rw [overlaidLine_of_not_touched hnot]
    exact restoreLineEndings_line
      (text_of_mem_rawLines line.1 (List.fst_mem_of_mem_zipIdx hline)) _
  obtain ⟨⟨pieces, hpieces, hsame⟩, -⟩ := exists_pieces
    (fun line : RawLine × Nat => restoreLineEndings (overlaidLine
        (replacementBase nfkc (normalizeToLF content) (normalizeEdits edits))
        (places nfkc (replacementBase nfkc (normalizeToLF content) (normalizeEdits edits)) edits)
        (line.1.withTerminator .lf).units line.2) (detectLineEnding content))
    (fun line => ¬ Touched nfkc (normalizeToLF content) edits line.2)
    (rawLines content).zipIdx (by
      intro line hline hnot
      have hmem := List.fst_mem_of_mem_zipIdx hline
      have htext : WellFormed
          (line.1.withTerminator (detectLineEnding content).terminator).text := hlines line.1 hmem
      rw [hkept line hline hnot]
      exact ⟨wellFormed_units htext, withTerminator_units_ne_nil hmem _⟩)
  refine ⟨pieces, ?_, ?_⟩
  · show encodeUtf8 (bom ++ restoreLineEndings applied.newContent (detectLineEnding content)) = _
    rw [encodeUtf8_text_append hbom, hnew, restoreLineEndings_flatMap, ← hpieces]
    rfl
  · refine List.forall₂_iff_get.mpr ?_
    obtain ⟨hlength, hget⟩ := List.forall₂_iff_get.mp hsame
    refine ⟨hlength, fun i h₁ h₂ hnot => ?_⟩
    rw [hget i h₁ h₂ hnot, hkept _ (List.get_mem _ _) hnot]

theorem writeEdits_eq_ok {nfkc : JsString → JsString} {env : EditEnv} {path : JsString}
    {edits : List Edit} {bytes : List UInt8} (h : writeEdits nfkc env path edits = .ok bytes) :
    ∃ buffer written, env.readFile = .ok buffer ∧
      finalContent nfkc (decodeUtf8 buffer) edits path = .ok written ∧
        bytes = encodeUtf8 written := by
  obtain ⟨_, -, h⟩ := Except.bind_eq_ok.mp h
  obtain ⟨_, -, h⟩ := Except.bind_eq_ok.mp h
  obtain ⟨_, -, h⟩ := Except.bind_eq_ok.mp h
  obtain ⟨buffer, hbuffer, h⟩ := Except.bind_eq_ok.mp h
  obtain ⟨_, -, h⟩ := Except.bind_eq_ok.mp h
  obtain ⟨written, hwritten, h⟩ := Except.bind_eq_ok.mp h
  obtain ⟨_, -, h⟩ := Except.bind_eq_ok.mp h
  obtain ⟨_, -, h⟩ := Except.bind_eq_ok.mp h
  exact ⟨buffer, written, hbuffer, hwritten, (Except.ok.inj h).symm⟩

/-- The lines of a file that no matched place touches are kept. -/
def FileKept (nfkc : JsString → JsString) (raw : JsString) (edits : List Edit)
    (kept : RawLine → List UInt8 → Prop) (bytes : List UInt8) : Prop :=
  encodeUtf8 raw = encodeUtf8 (stripBom raw).1
      ++ ((rawLines (stripBom raw).2).map fun line => encodeUtf8 line.units).flatten ∧
    Keeps (stripBom raw).1 (rawLines (stripBom raw).2)
      (Touched nfkc (normalizeToLF (stripBom raw).2) edits) kept bytes

/-- The text of a line is kept, its terminator is written as another one: a line with that
terminator, or none, is kept byte for byte. -/
def KeptText (terminator : Terminator) (line : RawLine) (piece : List UInt8) : Prop :=
  piece = encodeUtf8 (line.withTerminator terminator).units ∧
    ((∀ t ∈ line.terminator, t = terminator) → piece = encodeUtf8 line.units)

/-- The tool keeps the mark, and the text of every line that no matched place touches; it writes
the terminators as the one that it detected. -/
theorem execute_keeps {nfkc : JsString → JsString} {env : EditEnv} {raw path : JsString}
    {edits : List Edit} {bytes : List UInt8} (hraw : WellFormed raw)
    (hfile : env.readFile = .ok (encodeUtf8 raw))
    (hwritten : (execute nfkc env path edits).written = some bytes) :
    FileKept nfkc raw edits (KeptText (detectLineEnding (stripBom raw).2).terminator) bytes := by
  refine ⟨encodeUtf8_rawLines hraw, ?_⟩
  have hok : writeEdits nfkc env path edits = .ok bytes := by
    unfold execute at hwritten
    cases hsteps : writeEdits nfkc env path edits with
    | error error =>
      rw [hsteps] at hwritten
      cases hwritten
    | ok written =>
      rw [hsteps] at hwritten
      rw [Option.some.inj hwritten]
  obtain ⟨buffer, written, hbuffer, hfinal, rfl⟩ := writeEdits_eq_ok hok
  obtain rfl := Except.ok.inj (hfile.symm.trans hbuffer)
  rw [decodeUtf8_encodeUtf8 hraw] at hfinal
  obtain ⟨pieces, hpieces, hkept⟩ := finalContent_keeps hraw hfinal
  refine ⟨pieces, hpieces, hkept.imp fun line piece h hnot => ⟨h hnot, fun hsame => ?_⟩⟩
  rw [h hnot]
  obtain ⟨⟨text, terminator⟩, i⟩ := line
  cases terminator with
  | none => rfl
  | some t =>
    rw [hsame t rfl]
    rfl

/-- A run without failures. -/
def quietEnv (raw : JsString) : EditEnv := ⟨.ok (), .ok (encodeUtf8 raw), .ok (), fun _ => false⟩

/-- Behind a byte order mark, the second of three lines is edited. -/
theorem execute_keeps_bom : FileKept id (js "\uFEFFa\r\nb\r\nc") [⟨js "b", js "x"⟩]
    (KeptText (detectLineEnding (stripBom (js "\uFEFFa\r\nb\r\nc")).2).terminator)
    (encodeUtf8 (js "\uFEFFa\r\nx\r\nc")) :=
  have hwritten : (execute id (quietEnv (js "\uFEFFa\r\nb\r\nc")) (js "f")
      [⟨js "b", js "x"⟩]).written = some (encodeUtf8 (js "\uFEFFa\r\nx\r\nc")) := by
    decide +kernel
  execute_keeps (wellFormed_js _) rfl hwritten

instance (nfkc : JsString → JsString) (content : JsString) (edits : List Edit) (i : Nat) :
    Decidable (Touched nfkc content edits i) :=
  inferInstanceAs (Decidable (∃ r ∈ _, _))

/-- A file with both endings: the line that ends with LF is written with CRLF. -/
theorem not_execute_keeps_bytes : ¬ ∀ (nfkc : JsString → JsString) (env : EditEnv)
    (raw path : JsString) (edits : List Edit) (bytes : List UInt8), WellFormed raw →
      env.readFile = .ok (encodeUtf8 raw) → (execute nfkc env path edits).written = some bytes →
      FileKept nfkc raw edits (fun line piece => piece = encodeUtf8 line.units) bytes := by
  intro h
  obtain ⟨-, pieces, hbytes, hkept⟩ := h id (quietEnv (js "a\r\nb\nc")) (js "a\r\nb\nc") (js "f")
    [⟨js "a", js "x"⟩] (encodeUtf8 (js "x\r\nb\r\nc")) (wellFormed_js _) rfl (by decide +kernel)
  have hlines : (rawLines (stripBom (js "a\r\nb\nc")).2).zipIdx
      = [(⟨js "a", some .crlf⟩, 0), (⟨js "b", some .lf⟩, 1), (⟨js "c", none⟩, 2)] := by
    decide
  rw [hlines] at hkept
  obtain ⟨first, pieces₁, -, hkept₁, rfl⟩ := List.forall₂_cons_left_iff.mp hkept
  obtain ⟨second, pieces₂, hsecond, hkept₂, rfl⟩ := List.forall₂_cons_left_iff.mp hkept₁
  obtain ⟨third, pieces₃, hthird, hkept₃, rfl⟩ := List.forall₂_cons_left_iff.mp hkept₂
  obtain rfl := List.forall₂_nil_left_iff.mp hkept₃
  have hsuffix : encodeUtf8 (js "b\n") ++ encodeUtf8 (js "c") <:+ encodeUtf8
    (js "x\r\nb\r\nc") := by
    rw [hsecond (by decide +kernel), hthird (by decide +kernel)] at hbytes
    exact ⟨first, hbytes.symm⟩
  revert hsuffix
  decide

end PiMono.CodingAgent
