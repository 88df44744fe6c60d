import PiMono.CodingAgent.SessionEntry
import PiMono.Lib.JsonCut
import PiMono.Lib.Lines
import PiMono.Lib.Utf8

/-!
# Session files

`session-manager.ts:231-311` (ids and migrations), `:587-640` (loading). A file
is bytes. `loadEntries` decodes them, takes every line that `JSON.parse` accepts,
skips the others without a word, and gives up unless the first one is a session
header. Writing appends `JSON.stringify(entry)` and a newline.

`entriesOfText_lines` and `loadEntries_encodeLines` say that what is written line by
line is what is loaded.
-/

namespace PiMono

/-! ## Ids -/

/-- What `randomUUID()` returns: 36 characters. -/
structure Uuid where
  text : JsString
  length_text : text.length = 36

/-- `randomUUID().slice(0, 8)` -/
def Uuid.short (u : Uuid) : JsString := u.text.take 8

/-- The attempts of `generateId` from the `i`-th on. -/
def generateIdFrom (has : JsString → Bool) (uuids : Nat → Uuid) : Nat → Nat → JsString
  | 0, i => (uuids i).text
  | attempts + 1, i =>
    if has (uuids i).short then generateIdFrom has uuids attempts (i + 1) else (uuids i).short

/-- `generateId`: a short id that is not taken; after a hundred attempts a full
UUID. `uuids` are the UUIDs drawn. -/
def generateId (has : JsString → Bool) (uuids : Nat → Uuid) : JsString :=
  generateIdFrom has uuids 100 0

theorem generateId_ne_nil (has : JsString → Bool) (uuids : Nat → Uuid) :
    generateId has uuids ≠ [] := by
  have hfrom : ∀ attempts i, generateIdFrom has uuids attempts i ≠ [] := by
    intro attempts
    induction attempts with
    | zero =>
      intro i h
      have := (uuids i).length_text
      rw [generateIdFrom] at h
      simp [h] at this
    | succ attempts ih =>
      intro i
      rw [generateIdFrom]
      split
      · exact ih (i + 1)
      · intro h
        have := (uuids i).length_text
        rw [Uuid.short, List.take_eq_nil_iff] at h
        rcases h with h | h
        · cases h
        · simp [h] at this
  exact hfrom 100 0

/-! ## Versions -/

/-- A sign in front of a number. -/
def takeSign (text : JsString) : Bool × JsString :=
  (text.head? = some 0x2D,
    if text.head? = some 0x2D ∨ text.head? = some 0x2B then text.tail else text)

/-- The radix that a prefix names. -/
def prefixRadix? (text : JsString) : Option Nat :=
  let start := text.take 2
  if start = js "0x" ∨ start = js "0X" then some 16
  else if start = js "0o" ∨ start = js "0O" then some 8
  else if start = js "0b" ∨ start = js "0B" then some 2
  else none

/-- The digits before and behind a point, one at least. -/
def mantissa? (text : JsString) : Option (List Digit × List Digit) :=
  let digits? (parts : List JsString) : Option (List (List Digit)) :=
    parts.mapM fun part => part.mapM unitDigit?
  match digits? (text.splitOn 0x2E) with
  | some [int] => if int = [] then none else some (int, [])
  | some [int, frac] => if int ++ frac = [] then none else some (int, frac)
  | _ => none

/-- `Number(text)`; `none` is `NaN`, and a number that no double holds stands for an infinity. -/
def textNumber? (text : JsString) : Option JsNumber :=
  let text := trim text
  let (neg, unsigned) := takeSign text
  if text = [] then some (.ofNat 0)
  else if unsigned = js "Infinity" then some (.ofLiteral neg (natDigits 1) [] 400)
  else
    match prefixRadix? text with
    | some radix =>
      if text.length = 2 then none
      else ((text.drop 2).mapM fun unit => (hexValue? unit).filter (· < radix)).map fun values =>
        .ofNat (values.foldl (fun n value => n * radix + value) 0)
    | none =>
      match (unsigned.map fun unit => if unit = 0x45 then 0x65 else unit).splitOn 0x65 with
      | [mantissa] => (mantissa? mantissa).map fun (int, frac) => .ofLiteral neg int frac 0
      | [mantissa, exponent] =>
        let (eneg, exponent) := takeSign exponent
        match mantissa? mantissa, exponent.mapM unitDigit? with
        | some (int, frac), some (e :: es) => some (.ofLiteral neg int frac
            (if eneg then -(digitsNat (e :: es) : Int) else digitsNat (e :: es)))
        | _, _ => none
      | _ => none

namespace JsValue

/-- What a comparison with a number makes of a value that is convertible. -/
def toNumber? (v : JsValue) : Option JsNumber :=
  match v.json with
  | .null => some (.ofNat 0)
  | .bool b => some (.ofNat (if b then 1 else 0))
  | .num x => some x
  | v => textNumber? (v.toText JsNumber.text)

end JsValue

/-- A number as a version: 3 and up, 2 and up, or less. A literal between two doubles is read as
the nearer one. -/
def versionNumber (x : JsNumber) : Int :=
  let scaled := digitsNat x.digits * 2 ^ 53 * 10 ^ (x.point - x.digits.length).toNat
    / 10 ^ (x.digits.length - x.point).toNat
  if x.neg then 1
  else if 3 * 2 ^ 53 - 2 ≤ scaled then 3
  else if 2 * 2 ^ 53 - 1 ≤ scaled then 2
  else 1

/-! ## Migrations -/

namespace FileEntry

/-- `header.version ?? 1`, as far as comparisons with 2 and 3 go; `none` for a value that is no
number to them, with which no comparison holds. -/
def version? (e : FileEntry) : Option Int :=
  match e.raw.get? (js "version") with
  | none => some 1
  | some v => if v = .null then some 1 else v.toNumber?.map versionNumber

/-- `entry.version = n` -/
def withVersion (e : FileEntry) (n : Nat) : FileEntry := ⟨e.raw.set (js "version") (.nat n)⟩

/-- The compaction part of `migrateV1ToV2`: an index into `entries` becomes the
id that the entry there has at this moment. -/
def keepById (e : FileEntry) (entries : List FileEntry) : FileEntry :=
  match (e.raw.get? (js "firstKeptEntryIndex")).bind JsValue.num? with
  | none => e
  | some index =>
    let kept :=
      match index.toNat?.bind (entries[·]?) with
      | some target =>
        if target.isHeader then e.raw
        else match target.raw.get? (js "id") with
          | some id => e.raw.set (js "firstKeptEntryId") id
          | none => e.raw.delete (js "firstKeptEntryId")
      | none => e.raw
    ⟨kept.delete (js "firstKeptEntryIndex")⟩

/-- The message part of `migrateV2ToV3`: the role `hookMessage` is now `custom`. -/
def renameHookMessage (e : FileEntry) : FileEntry :=
  match e.raw.get? (js "message") with
  | some m =>
    if e.type = some (js "message") ∧ m.strField? (js "role") = some (js "hookMessage") then
      ⟨e.raw.set (js "message") (m.set (js "role") (.str (js "custom")))⟩
    else e
  | none => e

end FileEntry

/-- `migrateV1ToV2` with the entries before the current one already migrated.
The set of ids that `generateId` checks against stays empty. -/
def migrateV1ToV2From (uuids : Nat → Nat → Uuid) :
    List FileEntry → List FileEntry → Option JsString → List FileEntry
  | done, [], _ => done
  | done, entry :: rest, prevId =>
    if entry.isHeader then migrateV1ToV2From uuids (done ++ [entry.withVersion 2]) rest prevId
    else
      let id := generateId (fun _ => false) (uuids done.length)
      let linked : FileEntry :=
        ⟨(entry.raw.set (js "id") (.str id)).set (js "parentId") (prevId.elim .null .str)⟩
      let kept :=
        if linked.type = some (js "compaction") then linked.keepById (done ++ linked :: rest)
        else linked
      migrateV1ToV2From uuids (done ++ [kept]) rest (some id)

def migrateV1ToV2 (uuids : Nat → Nat → Uuid) (entries : List FileEntry) : List FileEntry :=
  migrateV1ToV2From uuids [] entries none

def migrateV2ToV3 (entries : List FileEntry) : List FileEntry :=
  entries.map fun entry => if entry.isHeader then entry.withVersion 3 else entry.renameHookMessage

/-- The version a file is migrated from. -/
def sessionVersion? (entries : List FileEntry) : Option Int :=
  match entries.find? (·.isHeader) with
  | some header => header.version?
  | none => some 1

/-- Comparing the version throws. -/
def versionThrows (entries : List FileEntry) : Bool :=
  ((entries.find? (·.isHeader)).bind (·.raw.get? (js "version"))).any (!·.json.convertible)

/-- `migrateToCurrentVersion`: the migrated entries, and whether the file has to
be rewritten. -/
def migrateToCurrentVersion (uuids : Nat → Nat → Uuid) (entries : List FileEntry) :
    List FileEntry × Bool :=
  let version := sessionVersion? entries
  if version.any ((currentSessionVersion : Int) ≤ ·) then (entries, false)
  else
    let entries := if version.any (· < 2) then migrateV1ToV2 uuids entries else entries
    let entries := if version.any (· < 3) then migrateV2ToV3 entries else entries
    (entries, true)

/-! ## Numbers -/

/-- A double holds the number, rounded. -/
def JsNumber.isFinite (x : JsNumber) : Bool :=
  digitsNat (x.digits.take x.point.toNat) * 10 ^ (x.point.toNat - x.digits.length)
    < 2 ^ 1024 - 2 ^ 970

namespace Json

mutual

/-- No number is read as an infinity, for which JSON writes `null`. -/
def isFinite : Json → Bool
  | .num x => x.isFinite
  | .arr items => finiteItems items
  | .obj fields => finiteFields fields
  | .null | .bool _ | .str _ => true

def finiteItems : List Json → Bool
  | [] => true
  | v :: vs => isFinite v && finiteItems vs

def finiteFields : List (JsString × Json) → Bool
  | [] => true
  | (_, v) :: fields => isFinite v && finiteFields fields

end

end Json

/-! ## Loading and writing -/

/-- What is on disk. -/
abbrev Disk := JsMap JsString (List UInt8)

/-- `parseSessionEntryLine` -/
def parseSessionEntryLine (line : JsString) : Option FileEntry :=
  if isBlank line then none else (JsValue.parse line).map .mk

/-- The entries among some lines: `if (entry) entries.push(entry)`. -/
def entriesOfLines (lines : List JsString) : List FileEntry :=
  lines.filterMap fun line => (parseSessionEntryLine line).filter (·.raw.truthy)

/-- The entries of a text: what stands between the newlines, and what stands
behind the last one. -/
def entriesOfText (text : JsString) : List FileEntry := entriesOfLines (text.splitOn 0x0A)

/-- The header check of `loadEntriesFromFile`. -/
def hasSessionHeader (entries : List FileEntry) : Bool :=
  match entries with
  | [] => false
  | header :: _ => header.isHeader && (header.raw.strField? (js "id")).isSome

/-- The entries of a file's bytes. -/
def loadEntries (bytes : List UInt8) : List FileEntry :=
  let entries := entriesOfText (decodeUtf8 bytes)
  if hasSessionHeader entries then entries else []

/-- `loadEntriesFromFile` -/
def loadEntriesFromFile (disk : Disk) (path : JsString) : List FileEntry :=
  match disk.get? path with
  | some bytes => loadEntries bytes
  | none => []

/-- `${JSON.stringify(entry)}\n` -/
def FileEntry.line (e : FileEntry) : JsString := e.raw.stringify ++ [0x0A]

/-- The bytes `_rewriteFile` and the first write of `_persist` leave. -/
def encodeLines (entries : List FileEntry) : List UInt8 := encodeUtf8 (entries.flatMap (·.line))

/-! ## What is written is loaded -/

/-- A text that is nothing but spaces is no JSON text. -/
theorem parse_of_isBlank {s : JsString} (h : isBlank s = true) : JsValue.parse s = none := by
  have hspace : ∀ u : UInt16, isTrimmed u = true → isJsonSpace u = false →
      JsonState.init.step u = none := by
    intro u hu hs
    have hne : ∀ c : UInt16, isTrimmed c = false → u ≠ c := by
      rintro c hc rfl
      rw [hu] at hc
      cases hc
    have hdigit : unitDigit? u = none := by
      cases hd : unitDigit? u with
      | none => rfl
      | some d =>
        exfalso
        unfold unitDigit? at hd
        split at hd
        · rename_i hrange
          have hall : ∀ k : Fin 10, isTrimmed (0x30 + k.val).toUInt16 = false := by decide
          have hval : u = (0x30 + (u.toNat - 0x30)).toUInt16 := by
            rw [← UInt16.toNat_inj, Nat.toUInt16_eq, UInt16.toNat_ofNat']
            have := u.toNat_lt
            omega
          have := hall ⟨u.toNat - 0x30, by omega⟩
          rw [← hval] at this
          rw [hu] at this
          cases this
        · cases hd
    simp [JsonState.init, JsonState.step, JsonState.stepMode, JsonState.startValue, hs,
      NumAcc.first, hdigit, hne 0x22 (by decide), hne 0x5B (by decide), hne 0x7B (by decide),
      hne 0x6E (by decide), hne 0x74 (by decide), hne 0x66 (by decide), hne 0x2D (by decide)]
  have hrun : ∀ us : JsString, isBlank us = true →
      (JsonState.init.run us).bind (·.finish) = none := by
    intro us
    induction us with
    | nil => exact fun _ => rfl
    | cons u us ih =>
      intro hblank
      rw [isBlank, List.all_cons, Bool.and_eq_true] at hblank
      rw [JsonState.run_cons]
      cases hs : isJsonSpace u with
      | true =>
        have hstep : JsonState.init.step u = some .init := by
          simp [JsonState.init, JsonState.step, JsonState.stepMode, hs]
        rw [hstep, Option.bind_some]
        exact ih hblank.2
      | false => rw [hspace u hblank.1 hs]; rfl
  cases hp : JsValue.parse s with
  | none => rfl
  | some v =>
    have := JsValue.parse_eq_some.mp hp
    rw [Json.parse, hrun s h] at this
    cases this

/-- Skipping blank lines first changes nothing. -/
theorem parseSessionEntryLine_eq (line : JsString) :
    parseSessionEntryLine line = (JsValue.parse line).map .mk := by
  rw [parseSessionEntryLine]
  split
  · rename_i h
    rw [parse_of_isBlank h]
    rfl
  · rfl

theorem parseSessionEntryLine_stringify (e : FileEntry) :
    parseSessionEntryLine e.raw.stringify = some e := by
  rw [parseSessionEntryLine_eq, JsValue.parse_stringify]
  rfl

/-- The text of a value stays on its line. -/
theorem stringify_no_newline (v : JsValue) : ∀ u ∈ v.stringify, u ≠ 0x0A := by
  rintro u hu rfl
  exact absurd ((Json.printable_stringify v.json).2 _ hu) (by decide)

theorem wellFormed_line (e : FileEntry) : WellFormed e.line :=
  (Json.printable_stringify e.raw.json).1.append (wellFormed_unit (by decide) (by decide))

theorem wellFormed_lines : ∀ es : List FileEntry, WellFormed (es.flatMap (·.line))
  | [] => wellFormed_nil
  | e :: es => by
    rw [List.flatMap_cons]
    exact (wellFormed_line e).append (wellFormed_lines es)

/-- A written line, in front of a text. -/
theorem entriesOfText_line {e : FileEntry} (h : e.raw.truthy = true) (text : JsString) :
    entriesOfText (e.line ++ text) = e :: entriesOfText text := by
  have hline : (0x0A : UInt16) ∉ e.raw.stringify :=
    fun hmem => stringify_no_newline e.raw _ hmem rfl
  rw [entriesOfText, FileEntry.line, List.append_assoc, List.singleton_append,
    List.splitOn_append_cons_self_of_not_mem hline, entriesOfLines, List.filterMap_cons,
    parseSessionEntryLine_stringify, Option.filter_some, if_pos h]
  rfl

/-- Written lines, in front of a text. -/
theorem entriesOfText_lines : ∀ {es : List FileEntry}, (∀ e ∈ es, e.raw.truthy = true) →
    ∀ text, entriesOfText (es.flatMap (·.line) ++ text) = es ++ entriesOfText text
  | [], _, _ => rfl
  | e :: es, h, text => by
    obtain ⟨he, hes⟩ := List.forall_mem_cons.mp h
    rw [List.flatMap_cons, List.append_assoc, entriesOfText_line he, entriesOfText_lines hes,
      List.cons_append]

@[simp] theorem entriesOfText_nil : entriesOfText [] = [] := by
  have hblank : parseSessionEntryLine [] = none := rfl
  simp [entriesOfText, entriesOfLines, List.splitOn_nil, hblank]

/-- **Loading what was written.** -/
theorem loadEntries_encodeLines {es : List FileEntry} (h : ∀ e ∈ es, e.raw.truthy = true)
    (hheader : hasSessionHeader es = true) : loadEntries (encodeLines es) = es := by
  have htext := entriesOfText_lines h []
  rw [List.append_nil, entriesOfText_nil, List.append_nil] at htext
  rw [loadEntries, encodeLines, decodeUtf8_encodeUtf8 (wellFormed_lines es), htext, if_pos hheader]

/-- Appending a line to a file is writing it behind the others. -/
theorem encodeLines_append (es : List FileEntry) (e : FileEntry) :
    encodeLines (es ++ [e]) = encodeLines es ++ encodeUtf8 e.line := by
  rw [encodeLines, encodeLines, List.flatMap_append, List.flatMap_singleton,
    encodeUtf8_append (wellFormed_lines es) (wellFormed_line e)]

theorem truthy_create (i : JsString) (p : Option JsString) (t : JsString) (b : EntryBody) :
    (FileEntry.create i p t b).raw.truthy = true := by
  have h : (FileEntry.create i p t b).raw.isObject = true := by
    unfold FileEntry.create
    exact JsValue.isObject_object _
  obtain ⟨fields, hf⟩ := JsValue.isObject_iff.mp h
  simp [JsValue.truthy, hf]

end PiMono
