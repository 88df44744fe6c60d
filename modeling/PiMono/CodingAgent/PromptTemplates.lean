import PiMono.Lib.JsNumber

/-!
# The arguments of prompt templates

`parseCommandArgs` and `substituteArgs` of `coding-agent/src/core/prompt-templates.ts`. A template
is read from left to right as pieces: placeholders, each as long as it can be, and the units that
none begins at. Quoted arguments keep their positions exactly if none of them is empty
(`arguments_keep_positions`).
-/

namespace PiMono.CodingAgent

/-! ## Reading arguments -/

/-- The variables of the scanner. -/
structure ArgScan where
  args : List JsString
  current : JsString
  inQuote : Option UInt16
  deriving DecidableEq

namespace ArgScan

/-- `if (current) args.push(current)` -/
def push (s : ArgScan) : ArgScan :=
  if s.current ≠ [] then { s with args := s.args ++ [s.current], current := [] } else s

def step (s : ArgScan) (char : UInt16) : ArgScan :=
  match s.inQuote with
  | some quote =>
    if char = quote then { s with inQuote := none } else { s with current := s.current ++ [char] }
  | none =>
    if char = 0x22 ∨ char = 0x27 then { s with inQuote := some char }
    else if isTrimmed char then s.push
    else { s with current := s.current ++ [char] }

end ArgScan

def parseCommandArgs (argsString : JsString) : List JsString :=
  (argsString.foldl ArgScan.step ⟨[], [], none⟩).push.args

/-! ## Substituting arguments -/

/-- `\d+|ARGUMENTS|@` -/
inductive Target where
  | position (digits : List Digit)
  | word
  | at
  deriving DecidableEq

/-- A match of the pattern of `substituteArgs`. -/
inductive Placeholder where
  -- `${target:-default}`
  | orDefault (target : Target) (default : JsString)
  -- `${@:start}`, `${@:start:length}`
  | slice (start : List Digit) (length : Option (List Digit))
  -- `$target`
  | simple (target : Target)
  deriving DecidableEq

/-- `\d*`, and what is behind. -/
def takeDigits : JsString → List Digit × JsString
  | [] => ([], [])
  | u :: us =>
    match unitDigit? u with
    | some d => (d :: (takeDigits us).1, (takeDigits us).2)
    | none => ([], u :: us)

/-- The rest of a text behind a word. -/
def behind? (word text : JsString) : Option JsString :=
  if word <+: text then some (text.drop word.length) else none

def readTarget? (text : JsString) : Option (Target × JsString) :=
  match takeDigits text with
  | (d :: ds, rest) => some (.position (d :: ds), rest)
  | ([], _) =>
    match behind? (js "ARGUMENTS") text with
    | some rest => some (.word, rest)
    | none => (behind? (js "@") text).map (.at, ·)

/-- `\$\{(\d+|ARGUMENTS|@):-([^}]*)\}` -/
def readDefault? (text : JsString) : Option Placeholder := do
  let text ← behind? (js "$\x7b") text
  let (target, text) ← readTarget? text
  let text ← behind? (js ":-") text
  if 0x7D ∈ text then some (.orDefault target (text.takeWhile (· ≠ 0x7D))) else none

/-- `\$\{@:(\d+)(?::(\d+))?\}` -/
def readSlice? (text : JsString) : Option Placeholder := do
  let text ← behind? (js "$\x7b@:") text
  match takeDigits text with
  | ([], _) => none
  | (d :: ds, text) =>
    match behind? (js "\x7d") text with
    | some _ => some (.slice (d :: ds) none)
    | none =>
      let text ← behind? (js ":") text
      match takeDigits text with
      | ([], _) => none
      | (e :: es, text) => (behind? (js "\x7d") text).map fun _ => .slice (d :: ds) (some (e :: es))

/-- `\$(ARGUMENTS|@|\d+)` -/
def readSimple? (text : JsString) : Option Placeholder := do
  let text ← behind? (js "$") text
  let (target, _) ← readTarget? text
  some (.simple target)

/-- The pattern, at the start of a text. -/
def readPlaceholder? (text : JsString) : Option Placeholder :=
  (readDefault? text).or ((readSlice? text).or (readSimple? text))

namespace Target

def text : Target → JsString
  | .position digits => JsNumber.digitsText digits
  | .word => js "ARGUMENTS"
  | .at => js "@"

end Target

namespace Placeholder

def text : Placeholder → JsString
  | .orDefault target default => js "$\x7b" ++ target.text ++ js ":-" ++ default ++ js "\x7d"
  | .slice start none => js "$\x7b@:" ++ JsNumber.digitsText start ++ js "\x7d"
  | .slice start (some length) =>
    js "$\x7b@:" ++ JsNumber.digitsText start ++ js ":" ++ JsNumber.digitsText length ++ js "\x7d"
  | .simple target => js "$" ++ target.text

end Placeholder

/-- `args.join(" ")` -/
def joinArgs (args : List JsString) : JsString := (js " ").intercalate args

/-- `args[index]` -/
def argAt? (args : List JsString) (index : Int) : Option JsString :=
  if index < 0 then none else args[index.toNat]?

/-- `parseInt(digits, 10)` -/
def parseDigits (digits : List Digit) : Int := digitsNat digits

/-- The function that `content.replace` calls. -/
def replacement (args : List JsString) : Placeholder → JsString
  | .orDefault target default =>
    let value := match target with
      | .position digits => argAt? args (parseDigits digits - 1)
      | .word | .at => some (joinArgs args)
    match value with
    | some (u :: us) => u :: us
    | _ => default
  | .slice sliceStart sliceLength =>
    let start := parseDigits sliceStart - 1
    let start := if start < 0 then 0 else start.toNat
    match sliceLength with
    | some digits => joinArgs ((args.take (start + (parseDigits digits).toNat)).drop start)
    | none => joinArgs (args.drop start)
  | .simple (.position digits) => (argAt? args (parseDigits digits - 1)).getD []
  | .simple .word | .simple .at => joinArgs args

/-- The text behind `skip` units of the match before. -/
def substituteFrom (args : List JsString) : Nat → JsString → JsString
  | _, [] => []
  | skip + 1, _ :: rest => substituteFrom args skip rest
  | 0, u :: rest =>
    match readPlaceholder? (u :: rest) with
    | some p => replacement args p ++ substituteFrom args (p.text.length - 1) rest
    | none => u :: substituteFrom args 0 rest

def substituteArgs (content : JsString) (args : List JsString) : JsString :=
  substituteFrom args 0 content

/-! ## Written arguments -/

/-- An argument between quotes that it does not hold. -/
structure QuotedArg where
  text : JsString
  quote : UInt16
  isQuote : quote = 0x22 ∨ quote = 0x27
  free : quote ∉ text

def QuotedArg.written (arg : QuotedArg) : JsString := arg.quote :: arg.text ++ [arg.quote]

/-- Quoted arguments, each with the space behind it. -/
def writtenArgs (leading : JsString) (args : List (QuotedArg × JsString)) : JsString :=
  leading ++ args.flatMap fun arg => arg.1.written ++ arg.2

/-- Only whitespace is between the arguments, and some between any two. -/
structure Separated (leading : JsString) (args : List (QuotedArg × JsString)) : Prop where
  leading : ∀ u ∈ leading, isTrimmed u = true
  spaces : ∀ arg ∈ args, ∀ u ∈ arg.2, isTrimmed u = true
  apart : ∀ arg ∈ args.dropLast, arg.2 ≠ []

theorem Separated.of_all {leading : JsString} {args : List (QuotedArg × JsString)}
    (h : (leading.all isTrimmed && args.all fun arg => arg.2.all isTrimmed) = true)
    (happart : ∀ arg ∈ args.dropLast, arg.2 ≠ []) : Separated leading args := by
  rw [Bool.and_eq_true, List.all_eq_true, List.all_eq_true] at h
  exact ⟨h.1, fun arg hmem => List.all_eq_true.mp (h.2 arg hmem), happart⟩

namespace ArgScan

theorem not_quote_of_isTrimmed {u : UInt16} (h : isTrimmed u = true) : ¬ (u = 0x22 ∨ u = 0x27) := by
  rintro (rfl | rfl) <;> exact absurd h (by decide)

/-- Whitespace ends an argument. -/
theorem foldl_spaces {spaces : JsString} (h : ∀ u ∈ spaces, isTrimmed u = true)
    (args : List JsString) (current : JsString) :
    spaces.foldl step ⟨args, current, none⟩ =
      if spaces = [] then ⟨args, current, none⟩ else push ⟨args, current, none⟩ := by
  induction spaces generalizing args current with
  | nil => rfl
  | cons u spaces ih =>
    obtain ⟨hu, hspaces⟩ := List.forall_mem_cons.mp h
    have hstep : step ⟨args, current, none⟩ u = push ⟨args, current, none⟩ := by
      simp only [step, if_neg (not_quote_of_isTrimmed hu), hu, if_true]
    rw [List.foldl_cons, hstep, if_neg (List.cons_ne_nil _ _), push]
    split
    · rw [ih hspaces]
      split
      · rfl
      · rw [push, if_neg (by simp)]
    · rename_i hcurrent
      obtain rfl := Decidable.not_not.mp hcurrent
      rw [ih hspaces]
      split
      · rfl
      · rw [push, if_neg (by simp)]

theorem foldl_quoted {quote : UInt16} {text : JsString} (h : quote ∉ text) (args : List JsString)
    (current : JsString) :
    text.foldl step ⟨args, current, some quote⟩ = ⟨args, current ++ text, some quote⟩ := by
  induction text generalizing current with
  | nil => rw [List.append_nil, List.foldl_nil]
  | cons u text ih =>
    rw [List.mem_cons, not_or] at h
    have hstep : step ⟨args, current, some quote⟩ u = ⟨args, current ++ [u], some quote⟩ := by
      simp only [step, if_neg (Ne.symm h.1)]
    rw [List.foldl_cons, hstep, ih h.2, List.append_assoc, List.singleton_append]

theorem foldl_written (arg : QuotedArg) (args : List JsString) :
    arg.written.foldl step ⟨args, [], none⟩ = ⟨args, arg.text, none⟩ := by
  have hopen : step ⟨args, [], none⟩ arg.quote = ⟨args, [], some arg.quote⟩ := by
    simp only [step, if_pos arg.isQuote]
  rw [QuotedArg.written, List.cons_append, List.foldl_cons, hopen, List.foldl_append,
    foldl_quoted arg.free, List.nil_append, List.foldl_cons, List.foldl_nil]
  simp only [step, if_true]

theorem args_push (args : List JsString) (current : JsString) :
    push ⟨args, current, none⟩ = ⟨args ++ [current].filter (· ≠ []), [], none⟩ := by
  rw [push]
  split
  · rename_i h
    rw [List.filter_cons_of_pos (by simpa using h), List.filter_nil]
  · rename_i h
    obtain rfl := Decidable.not_not.mp h
    rw [List.filter_cons_of_neg (by simp), List.filter_nil, List.append_nil]

/-- What is read of written arguments: those that are not empty. -/
theorem foldl_writtenArgs {args : List (QuotedArg × JsString)} (done : List JsString)
    (hspaces : ∀ arg ∈ args, ∀ u ∈ arg.2, isTrimmed u = true)
    (hapart : ∀ arg ∈ args.dropLast, arg.2 ≠ []) :
    ((args.flatMap fun arg => arg.1.written ++ arg.2).foldl step ⟨done, [], none⟩).push.args =
      done ++ (args.map (·.1.text)).filter (· ≠ []) := by
  induction args generalizing done with
  | nil => simp [push]
  | cons arg args ih =>
    obtain ⟨harg, hrest⟩ := List.forall_mem_cons.mp hspaces
    rw [List.flatMap_cons, List.foldl_append, List.foldl_append, foldl_written, foldl_spaces harg,
      List.map_cons, ← List.singleton_append, List.filter_append, ← List.append_assoc]
    by_cases hspace : arg.2 = []
    · cases args with
      | nil =>
        rw [if_pos hspace, List.flatMap_nil, List.foldl_nil, args_push]
        simp
      | cons next args => exact absurd hspace (hapart arg (by simp))
    · rw [if_neg hspace, args_push]
      exact ih _ hrest fun other hother => hapart other (by
        cases args with
        | nil => cases hother
        | cons next args => exact List.mem_cons_of_mem _ hother)

end ArgScan

theorem parseCommandArgs_written {leading : JsString} {args : List (QuotedArg × JsString)}
    (h : Separated leading args) :
    parseCommandArgs (writtenArgs leading args) = (args.map (·.1.text)).filter (· ≠ []) := by
  rw [parseCommandArgs, writtenArgs, List.foldl_append, ArgScan.foldl_spaces h.leading]
  have hempty : (if leading = [] then (⟨[], [], none⟩ : ArgScan) else ArgScan.push ⟨[], [], none⟩)
      = ⟨[], [], none⟩ := by
    split <;> rfl
  rw [hempty, ArgScan.foldl_writtenArgs [] h.spaces h.apart, List.nil_append]

/-! ## Reading a template -/

theorem behind?_eq_some {word text rest : JsString} :
    behind? word text = some rest ↔ text = word ++ rest := by
  rw [behind?]
  constructor
  · intro h
    split at h
    · rename_i hfront
      obtain ⟨behind, rfl⟩ := hfront
      rw [List.drop_left] at h
      rw [Option.some.inj h]
    · cases h
  · rintro rfl
    rw [if_pos (List.prefix_append _ _), List.drop_left]

theorem behind?_append (word rest : JsString) : behind? word (word ++ rest) = some rest :=
  behind?_eq_some.mpr rfl

theorem digitUnit_unitDigit? {u : UInt16} {d : Digit} (h : unitDigit? u = some d) :
    digitUnit d = u := by
  rw [unitDigit?] at h
  split at h
  · rename_i hrange
    obtain rfl := Option.some.inj h
    rw [← UInt16.toNat_inj, digitUnit, Nat.toUInt16_eq, UInt16.toNat_ofNat']
    have hlt := u.toNat_lt
    dsimp only
    omega
  · cases h

theorem takeDigits_text (text : JsString) :
    JsNumber.digitsText (takeDigits text).1 ++ (takeDigits text).2 = text := by
  induction text with
  | nil => rfl
  | cons u us ih =>
    rw [takeDigits]
    split
    · rename_i d hd
      rw [JsNumber.digitsText, List.map_cons, digitUnit_unitDigit? hd, List.cons_append,
        ← JsNumber.digitsText, ih]
    · rfl

theorem takeDigits_append (ds : List Digit) (rest : JsString) :
    takeDigits (JsNumber.digitsText ds ++ rest) =
      (ds ++ (takeDigits rest).1, (takeDigits rest).2) := by
  induction ds with
  | nil => rfl
  | cons d ds ih =>
    rw [JsNumber.digitsText, List.map_cons, ← JsNumber.digitsText, List.cons_append, takeDigits,
      unitDigit?_digitUnit, ih]
    rfl

theorem takeDigits_cons_of_none {u : UInt16} (h : unitDigit? u = none) (rest : JsString) :
    takeDigits (u :: rest) = ([], u :: rest) := by
  rw [takeDigits, h]

/-- Digits are written, and a default ends at the first brace. -/
def Target.WellFormed : Target → Prop
  | .position digits => digits ≠ []
  | .word | .at => True

def Placeholder.WellFormed : Placeholder → Prop
  | .orDefault target default => target.WellFormed ∧ 0x7D ∉ default
  | .slice start length => start ≠ [] ∧ length ≠ some []
  | .simple target => target.WellFormed

theorem readTarget?_text {text rest : JsString} {target : Target}
    (h : readTarget? text = some (target, rest)) :
    target.WellFormed ∧ text = target.text ++ rest := by
  have htext := takeDigits_text text
  rw [readTarget?] at h
  split at h
  · rename_i d ds rest' hdigits
    cases h
    rw [hdigits] at htext
    exact ⟨List.cons_ne_nil _ _, htext.symm⟩
  · split at h
    · rename_i rest' hword
      cases h
      exact ⟨trivial, behind?_eq_some.mp hword⟩
    · obtain ⟨rest', hat, heq⟩ := Option.map_eq_some_iff.mp h
      cases heq
      exact ⟨trivial, behind?_eq_some.mp hat⟩

theorem readTarget?_position {digits : List Digit} (hdigits : digits ≠ []) (rest : JsString) :
    readTarget? (JsNumber.digitsText digits ++ rest) =
      some (.position (digits ++ (takeDigits rest).1), (takeDigits rest).2) := by
  obtain ⟨d, ds, rfl⟩ := List.exists_cons_of_ne_nil hdigits
  rw [readTarget?, takeDigits_append]
  rfl

/-- A target is read back in front of what is no digit. -/
theorem readTarget?_append {target : Target} (htarget : target.WellFormed) {rest : JsString}
    (hrest : (takeDigits rest).1 = []) :
    readTarget? (target.text ++ rest) = some (target, rest) := by
  cases target with
  | position digits =>
    have htext := takeDigits_text rest
    rw [hrest] at htext
    rw [Target.text, readTarget?_position htarget, hrest, List.append_nil]
    exact congrArg (fun rest => some (Target.position digits, rest)) htext
  | word => exact rfl
  | «at» => exact rfl

/-- A default and the brace behind it. -/
theorem takeWhile_brace {text : JsString} (h : 0x7D ∈ text) :
    text.takeWhile (· ≠ 0x7D) ++ js "\x7d" <+: text := by
  induction text with
  | nil => cases h
  | cons u us ih =>
    by_cases hu : u = 0x7D
    · subst hu
      exact ⟨us, rfl⟩
    · rw [List.takeWhile_cons_of_pos (by simpa using hu), List.cons_append, List.cons_prefix_cons]
      exact ⟨rfl, ih ((List.mem_cons.mp h).resolve_left (Ne.symm hu))⟩

theorem readDefault?_text {text : JsString} {p : Placeholder} (h : readDefault? text = some p) :
    p.WellFormed ∧ p.text <+: text := by
  simp only [readDefault?, Option.bind_eq_bind, Option.bind_eq_some_iff] at h
  obtain ⟨rest, hopen, ⟨target, rest'⟩, htarget, rest'', hdash, h⟩ := h
  obtain ⟨hwf, rfl⟩ := readTarget?_text htarget
  rw [behind?_eq_some] at hopen hdash
  subst hopen hdash
  split at h
  · rename_i hbrace
    cases h
    refine ⟨⟨hwf, fun hmem => by simpa using List.mem_takeWhile_imp hmem⟩, ?_⟩
    obtain ⟨behind, hbehind⟩ := takeWhile_brace hbrace
    refine ⟨behind, ?_⟩
    conv_rhs => rw [← hbehind]
    simp only [Placeholder.text, List.append_assoc]
  · cases h

theorem readSlice?_text {text : JsString} {p : Placeholder} (h : readSlice? text = some p) :
    p.WellFormed ∧ p.text <+: text := by
  simp only [readSlice?, Option.bind_eq_bind, Option.bind_eq_some_iff] at h
  obtain ⟨rest, hopen, h⟩ := h
  rw [behind?_eq_some] at hopen
  have hrest := takeDigits_text rest
  split at h
  · cases h
  rename_i d ds rest' hstart
  rw [hstart] at hrest
  subst hopen hrest
  split at h
  · rename_i behind hbrace
    cases h
    rw [behind?_eq_some] at hbrace
    subst hbrace
    exact ⟨⟨List.cons_ne_nil _ _, nofun⟩, behind,
      by simp only [Placeholder.text, List.append_assoc]⟩
  · rw [Option.bind_eq_some_iff] at h
    obtain ⟨rest'', hcolon, h⟩ := h
    rw [behind?_eq_some] at hcolon
    have hrest := takeDigits_text rest''
    split at h
    · cases h
    rename_i e es last hlength
    rw [hlength] at hrest
    obtain ⟨behind, hbrace, hp⟩ := Option.map_eq_some_iff.mp h
    rw [behind?_eq_some] at hbrace
    subst hp hbrace hrest hcolon
    refine ⟨⟨List.cons_ne_nil _ _, by simp⟩, behind, ?_⟩
    simp only [Placeholder.text, List.append_assoc]

theorem readSimple?_text {text : JsString} {p : Placeholder} (h : readSimple? text = some p) :
    p.WellFormed ∧ p.text <+: text := by
  simp only [readSimple?, Option.bind_eq_bind, Option.bind_eq_some_iff] at h
  obtain ⟨rest, hopen, ⟨target, rest'⟩, htarget, h⟩ := h
  obtain ⟨hwf, rfl⟩ := readTarget?_text htarget
  rw [behind?_eq_some] at hopen
  cases h
  exact ⟨hwf, rest', by rw [hopen, Placeholder.text, List.append_assoc]⟩

/-- A placeholder that is read is written where it is read. -/
theorem readPlaceholder?_text {text : JsString} {p : Placeholder}
    (h : readPlaceholder? text = some p) : p.WellFormed ∧ p.text <+: text := by
  rw [readPlaceholder?, Option.or_eq_some_iff, Option.or_eq_some_iff] at h
  obtain h | ⟨-, h | ⟨-, h⟩⟩ := h
  · exact readDefault?_text h
  · exact readSlice?_text h
  · exact readSimple?_text h

theorem behind?_cons_of_ne {u v : UInt16} (h : u ≠ v) (word text : JsString) :
    behind? (u :: word) (v :: text) = none := by
  rw [behind?, if_neg fun hfront => h (List.cons_prefix_cons.mp hfront).1]

theorem behind?_cons_cons (u : UInt16) (word text : JsString) :
    behind? (u :: word) (u :: text) = behind? word text := by
  simp only [behind?, List.cons_prefix_cons, true_and, List.length_cons, List.drop_succ_cons]

/-- No digit begins a word that is none. -/
theorem behind?_digits {u : UInt16} (hu : unitDigit? u = none) (word : JsString)
    {digits : List Digit} (hdigits : digits ≠ []) (rest : JsString) :
    behind? (u :: word) (JsNumber.digitsText digits ++ rest) = none := by
  obtain ⟨d, ds, rfl⟩ := List.exists_cons_of_ne_nil hdigits
  exact behind?_cons_of_ne (digitUnit_ne hu).symm _ _

theorem readDefault?_append {target : Target} (htarget : target.WellFormed) {default : JsString}
    (hfree : 0x7D ∉ default) (rest : JsString) :
    readDefault? ((Placeholder.orDefault target default).text ++ rest) =
      some (.orDefault target default) := by
  have htake : (default ++ 0x7D :: rest).takeWhile (· ≠ 0x7D) = default := by
    rw [List.takeWhile_append_of_pos fun u hu => by
      simpa using fun h : u = 0x7D => hfree (h ▸ hu)]
    simp
  simp only [Placeholder.text, List.append_assoc, readDefault?, Option.bind_eq_bind,
    behind?_append, Option.bind_some]
  rw [readTarget?_append htarget rfl]
  simp only [Option.bind_some, behind?_append]
  rw [show js "\x7d" ++ rest = 0x7D :: rest from rfl, htake,
    if_pos (List.mem_append_right _ List.mem_cons_self)]

/-- A slice is no target with a default: its colon is followed by a digit. -/
theorem readDefault?_slice {start : List Digit} (hstart : start ≠ []) (rest : JsString) :
    readDefault? (js "$\x7b@:" ++ JsNumber.digitsText start ++ rest) = none := by
  have htext : js "$\x7b@:" ++ JsNumber.digitsText start ++ rest =
      js "$\x7b" ++ (Target.at.text ++ 0x3A :: (JsNumber.digitsText start ++ rest)) := by
    rw [List.append_assoc]
    rfl
  rw [htext, readDefault?, behind?_append]
  simp only [Option.bind_eq_bind, Option.bind_some]
  rw [@readTarget?_append .at trivial _ rfl]
  simp only [Option.bind_some]
  rw [show js ":-" = [0x3A, 0x2D] from rfl, behind?_cons_cons, behind?_digits (by decide) _ hstart]
  rfl

/-- All digits are taken in front of what is none. -/
theorem takeDigits_of_none {u : UInt16} (hu : unitDigit? u = none) (ds : List Digit)
    (rest : JsString) :
    takeDigits (JsNumber.digitsText ds ++ u :: rest) = (ds, u :: rest) := by
  rw [takeDigits_append, takeDigits_cons_of_none hu, List.append_nil]

theorem readSlice?_append {start : List Digit} (hstart : start ≠ [])
    {length : Option (List Digit)} (hlength : length ≠ some []) (rest : JsString) :
    readSlice? ((Placeholder.slice start length).text ++ rest) = some (.slice start length) := by
  have hbrace : js "\x7d" ++ rest = 0x7D :: rest := rfl
  have hclosed : behind? (js "\x7d") (0x7D :: rest) = some rest := behind?_append (js "\x7d") rest
  obtain ⟨d, ds, rfl⟩ := List.exists_cons_of_ne_nil hstart
  cases length with
  | none =>
    rw [Placeholder.text, List.append_assoc, List.append_assoc, hbrace, readSlice?, behind?_append]
    simp only [Option.bind_eq_bind, Option.bind_some]
    rw [takeDigits_of_none (by decide)]
    simp only [hclosed]
  | some length =>
    obtain ⟨e, es, rfl⟩ := List.exists_cons_of_ne_nil fun h => hlength (congrArg some h)
    have hcolon : js ":" ++ (JsNumber.digitsText (e :: es) ++ 0x7D :: rest) =
        0x3A :: (JsNumber.digitsText (e :: es) ++ 0x7D :: rest) := rfl
    simp only [Placeholder.text, List.append_assoc, hbrace, hcolon]
    rw [readSlice?, behind?_append]
    simp only [Option.bind_eq_bind, Option.bind_some]
    rw [takeDigits_of_none (by decide)]
    dsimp only
    rw [show js "\x7d" = [0x7D] from rfl, behind?_cons_of_ne (by decide),
      show js ":" = [0x3A] from rfl, behind?_cons_cons]
    dsimp only
    rw [show behind? [] (JsNumber.digitsText (e :: es) ++ 0x7D :: rest) =
      some (JsNumber.digitsText (e :: es) ++ 0x7D :: rest) from rfl, Option.bind_some,
      takeDigits_of_none (by decide)]
    rfl

/-- No brace is behind the dollar of a simple placeholder. -/
theorem not_braced {target : Target} (htarget : target.WellFormed) (rest : JsString) :
    readDefault? ((Placeholder.simple target).text ++ rest) = none ∧
      readSlice? ((Placeholder.simple target).text ++ rest) = none := by
  have hbrace : ∀ word : JsString, behind? (0x24 :: 0x7B :: word)
      ((Placeholder.simple target).text ++ rest) = none := by
    intro word
    rw [Placeholder.text, List.append_assoc, show js "$" = [0x24] from rfl, List.singleton_append,
      behind?_cons_cons]
    cases target with
    | position digits => exact behind?_digits (by decide) word htarget rest
    | word => exact behind?_cons_of_ne (by decide) _ _
    | «at» => exact behind?_cons_of_ne (by decide) _ _
  constructor
  · rw [readDefault?, show js "$\x7b" = 0x24 :: 0x7B :: [] from rfl, hbrace]
    rfl
  · rw [readSlice?, show js "$\x7b@:" = 0x24 :: 0x7B :: js "@:" from rfl, hbrace]
    rfl

/-- A placeholder that is written is read, or one that goes on behind it. -/
theorem readPlaceholder?_of_text {q : Placeholder} (hq : q.WellFormed) (rest : JsString) :
    ∃ p, readPlaceholder? (q.text ++ rest) = some p ∧ (p = q ∨ q.text.length < p.text.length) := by
  cases q with
  | orDefault target default =>
    refine ⟨_, ?_, .inl rfl⟩
    rw [readPlaceholder?, readDefault?_append hq.1 hq.2, Option.some_or]
  | slice start length =>
    refine ⟨_, ?_, .inl rfl⟩
    have hdefault : readDefault? ((Placeholder.slice start length).text ++ rest) = none := by
      cases length with
      | none =>
        rw [Placeholder.text, List.append_assoc]
        exact readDefault?_slice hq.1 _
      | some length =>
        rw [Placeholder.text, List.append_assoc, List.append_assoc, List.append_assoc]
        exact readDefault?_slice hq.1 _
    rw [readPlaceholder?, hdefault, readSlice?_append hq.1 hq.2, Option.none_or, Option.some_or]
  | simple target =>
    obtain ⟨hdefault, hslice⟩ := not_braced hq rest
    rw [readPlaceholder?, hdefault, hslice, Option.none_or, Option.none_or, Placeholder.text,
      List.append_assoc, readSimple?, behind?_append]
    simp only [Option.bind_eq_bind, Option.bind_some]
    cases target with
    | position digits =>
      rw [Target.text, readTarget?_position hq]
      refine ⟨_, rfl, ?_⟩
      cases hmore : (takeDigits rest).1 with
      | nil => exact .inl (by rw [List.append_nil])
      | cons d ds => exact .inr (by simp [Placeholder.text, Target.text, JsNumber.digitsText])
    | word => exact ⟨_, rfl, .inl rfl⟩
    | «at» => exact ⟨_, rfl, .inl rfl⟩

/-! ## The pieces of a template -/

/-- A unit that is kept, or a placeholder. -/
inductive TemplatePiece where
  | unit (u : UInt16)
  | placeholder (p : Placeholder)
  deriving DecidableEq

/-- What a target designates: the argument at a position, counted from one, or all. -/
def Target.value (args : List JsString) : Target → JsString
  | .position digits =>
    if digitsNat digits = 0 then [] else args.getD (digitsNat digits - 1) []
  | .word | .at => joinArgs args

/-- What a placeholder stands for: its target, its default if that is empty, or a slice of the
arguments. -/
def Placeholder.value (args : List JsString) : Placeholder → JsString
  | .simple target => target.value args
  | .orDefault target default => if target.value args = [] then default else target.value args
  | .slice start none => joinArgs (args.drop (digitsNat start - 1))
  | .slice start (some length) =>
    joinArgs ((args.drop (digitsNat start - 1)).take (digitsNat length))

def TemplatePiece.value (args : List JsString) : TemplatePiece → JsString
  | .unit u => [u]
  | .placeholder p => p.value args

/-- A template from left to right: a placeholder where one is written, the longest there, and the
unit itself where none is. -/
inductive Reads : JsString → List TemplatePiece → Prop
  | nil : Reads [] []
  | unit {u : UInt16} {rest : JsString} {pieces : List TemplatePiece}
      (hnone : ∀ p : Placeholder, p.WellFormed → ¬ p.text <+: u :: rest)
      (hrest : Reads rest pieces) :
      Reads (u :: rest) (.unit u :: pieces)
  | placeholder {p : Placeholder} {rest : JsString} {pieces : List TemplatePiece}
      (hwf : p.WellFormed)
      (hlongest : ∀ q : Placeholder, q.WellFormed → q.text <+: p.text ++ rest →
        q.text.length ≤ p.text.length)
      (hrest : Reads rest pieces) :
      Reads (p.text ++ rest) (.placeholder p :: pieces)

theorem argAt?_eq (args : List JsString) (digits : List Digit) :
    (argAt? args (parseDigits digits - 1)).getD [] = (Target.position digits).value args := by
  rw [argAt?, parseDigits, Target.value, List.getD_eq_getElem?_getD]
  split
  · rw [if_pos (by omega)]
    rfl
  · rw [if_neg (by omega),
      show ((digitsNat digits : Int) - 1).toNat = digitsNat digits - 1 by omega]

theorem replacement_eq_value (args : List JsString) (p : Placeholder) :
    replacement args p = p.value args := by
  cases p with
  | orDefault target default =>
    have hvalue : ∀ value : Option JsString,
        (match value with | some (u :: us) => u :: us | _ => default) =
          if value.getD [] = [] then default else value.getD [] := by
      rintro (_ | _ | ⟨u, us⟩) <;> simp
    cases target with
    | position digits =>
      simp only [replacement, hvalue, Placeholder.value, argAt?_eq]
    | word => exact hvalue (some (joinArgs args))
    | «at» => exact hvalue (some (joinArgs args))
  | slice start length =>
    have hstart : (if parseDigits start - 1 < 0 then 0 else (parseDigits start - 1).toNat) =
        digitsNat start - 1 := by
      rw [parseDigits]
      split <;> omega
    cases length with
    | none => simp only [replacement, hstart, Placeholder.value]
    | some length =>
      simp only [replacement, hstart, Placeholder.value, List.drop_take, Nat.add_sub_cancel_left]
      rfl
  | simple target =>
    cases target with
    | position digits => exact argAt?_eq args digits
    | word => rfl
    | «at» => rfl

theorem Placeholder.text_length_pos (p : Placeholder) : 0 < p.text.length := by
  obtain ⟨_, _⟩ | ⟨_, _ | _⟩ | _ := p <;>
    simp [Placeholder.text, js, utf16]

/-- At a place, the placeholders that are written there go on alike. -/
theorem readPlaceholder?_eq_some {text : JsString} {p : Placeholder} :
    readPlaceholder? text = some p ↔
      p.WellFormed ∧ p.text <+: text ∧
        ∀ q : Placeholder, q.WellFormed → q.text <+: text → q.text.length ≤ p.text.length := by
  constructor
  · intro h
    obtain ⟨hwf, hfront⟩ := readPlaceholder?_text h
    refine ⟨hwf, hfront, ?_⟩
    rintro q hq ⟨rest, rfl⟩
    obtain ⟨p', hp', hlonger⟩ := readPlaceholder?_of_text hq rest
    obtain rfl := Option.some.inj (h.symm.trans hp')
    obtain rfl | hlonger := hlonger
    · exact le_rfl
    · exact hlonger.le
  · rintro ⟨hwf, ⟨rest, rfl⟩, hlongest⟩
    obtain ⟨p', hp', rfl | hlonger⟩ := readPlaceholder?_of_text hwf rest
    · exact hp'
    · obtain ⟨hwf', hfront⟩ := readPlaceholder?_text hp'
      exact absurd (hlongest p' hwf' hfront) hlonger.not_ge

theorem readPlaceholder?_eq_none {text : JsString} :
    readPlaceholder? text = none ↔ ∀ p : Placeholder, p.WellFormed → ¬ p.text <+: text := by
  constructor
  · rintro h p hwf ⟨rest, rfl⟩
    obtain ⟨p', hp', -⟩ := readPlaceholder?_of_text hwf rest
    rw [h] at hp'
    cases hp'
  · intro h
    cases hread : readPlaceholder? text with
    | none => rfl
    | some p => exact absurd (readPlaceholder?_text hread).2 (h p (readPlaceholder?_text hread).1)

theorem substituteFrom_drop (args : List JsString) (skip : Nat) (text : JsString) :
    substituteFrom args skip text = substituteFrom args 0 (text.drop skip) := by
  induction text generalizing skip with
  | nil => cases skip <;> rfl
  | cons u rest ih =>
    cases skip with
    | zero => rfl
    | succ skip => rw [substituteFrom, ih, List.drop_succ_cons]

theorem substituteArgs_of_placeholder {p : Placeholder} {rest : JsString}
    (h : readPlaceholder? (p.text ++ rest) = some p) (args : List JsString) :
    substituteArgs (p.text ++ rest) args = p.value args ++ substituteArgs rest args := by
  have hpos := p.text_length_pos
  rw [substituteArgs, substituteArgs]
  cases htext : p.text ++ rest with
  | nil => simp [List.append_eq_nil_iff.mp htext] at hpos
  | cons u us =>
    have hrest : us.drop (p.text.length - 1) = rest := by
      have hdrop := congrArg (List.drop p.text.length) htext
      rw [List.drop_left, show p.text.length = p.text.length - 1 + 1 by omega,
        List.drop_succ_cons] at hdrop
      exact hdrop.symm
    rw [htext] at h
    rw [substituteFrom, h]
    dsimp only
    rw [replacement_eq_value, substituteFrom_drop, hrest]

/-- One pass replaces the pieces of the template. -/
theorem substituteArgs_of_reads {content : JsString} {pieces : List TemplatePiece}
    (h : Reads content pieces) (args : List JsString) :
    substituteArgs content args = pieces.flatMap (·.value args) := by
  induction h with
  | nil => rfl
  | unit hnone hrest ih =>
    rw [substituteArgs, substituteFrom, readPlaceholder?_eq_none.mpr hnone, List.flatMap_cons, ← ih]
    rfl
  | placeholder hwf hlongest hrest ih =>
    rw [substituteArgs_of_placeholder
      (readPlaceholder?_eq_some.mpr ⟨hwf, List.prefix_append _ _, hlongest⟩), List.flatMap_cons, ih]
    rfl

theorem exists_reads (content : JsString) : ∃ pieces, Reads content pieces := by
  induction hn : content.length using Nat.strong_induction_on generalizing content with
  | _ n ih =>
    subst hn
    cases content with
    | nil => exact ⟨[], .nil⟩
    | cons u rest =>
      cases hread : readPlaceholder? (u :: rest) with
      | none =>
        obtain ⟨pieces, hpieces⟩ := ih rest.length (by simp) rest rfl
        exact ⟨_, .unit (readPlaceholder?_eq_none.mp hread) hpieces⟩
      | some p =>
        obtain ⟨hwf, ⟨behind, hbehind⟩, hlongest⟩ := readPlaceholder?_eq_some.mp hread
        have hpos := p.text_length_pos
        obtain ⟨pieces, hpieces⟩ := ih behind.length
          (by rw [← hbehind, List.length_append]; omega) behind rfl
        rw [← hbehind] at hlongest ⊢
        exact ⟨_, .placeholder hwf hlongest hpieces⟩

/-- A template is read in one way only. -/
theorem Reads.unique {content : JsString} {pieces other : List TemplatePiece}
    (h : Reads content pieces) (hother : Reads content other) : other = pieces := by
  induction h generalizing other with
  | nil =>
    generalize hcontent : ([] : JsString) = content at hother
    cases hother with
    | nil => rfl
    | unit => cases hcontent
    | @placeholder p =>
      have hpos := p.text_length_pos
      simp [(List.append_eq_nil_iff.mp hcontent.symm).1] at hpos
  | @unit u rest pieces hnone hrest ih =>
    generalize hcontent : u :: rest = content at hother
    cases hother with
    | nil => cases hcontent
    | unit _ hrest' =>
      cases hcontent
      rw [ih hrest']
    | placeholder hwf _ _ => exact absurd ⟨_, hcontent.symm⟩ (hnone _ hwf)
  | @placeholder p rest pieces hwf hlongest hrest ih =>
    have hread := readPlaceholder?_eq_some.mpr ⟨hwf, List.prefix_append p.text rest, hlongest⟩
    generalize hcontent : p.text ++ rest = content at hother hread
    cases hother with
    | nil =>
      have hpos := p.text_length_pos
      simp [(List.append_eq_nil_iff.mp hcontent).1] at hpos
    | unit hnone _ => exact absurd ⟨_, hcontent⟩ (hnone p hwf)
    | placeholder hwf' hlongest' hrest' =>
      have hread' := readPlaceholder?_eq_some.mpr ⟨hwf', List.prefix_append _ _, hlongest'⟩
      obtain rfl := Option.some.inj (hread.symm.trans hread')
      obtain rfl := List.append_cancel_left hcontent
      rw [ih hrest']

def TemplatePiece.text : TemplatePiece → JsString
  | .unit u => [u]
  | .placeholder p => p.text

/-- The pieces that are read are the template. -/
theorem Reads.text {content : JsString} {pieces : List TemplatePiece} (h : Reads content pieces) :
    content = pieces.flatMap (·.text) := by
  induction h with
  | nil => rfl
  | unit hnone hrest ih => rw [List.flatMap_cons, ← ih]; rfl
  | placeholder hwf hlongest hrest ih => rw [List.flatMap_cons, ← ih]; rfl

/-- A template's substitution is a single pass over it: its pieces do not depend on the
arguments. -/
def SinglePass : Prop :=
  ∀ content : JsString, ∃ pieces, Reads content pieces ∧
    (∀ other, Reads content other → other = pieces) ∧ content = pieces.flatMap (·.text) ∧
      ∀ args, substituteArgs content args = pieces.flatMap (·.value args)

theorem singlePass : SinglePass := by
  intro content
  obtain ⟨pieces, h⟩ := exists_reads content
  exact ⟨pieces, h, fun _ => h.unique, h.text, substituteArgs_of_reads h⟩

/-- Written arguments keep their positions, and substitution is a single pass, exactly if no
argument is empty. -/
theorem arguments_keep_positions (leading : JsString) (args : List (QuotedArg × JsString))
    (h : Separated leading args) :
    parseCommandArgs (writtenArgs leading args) = args.map (·.1.text) ∧ SinglePass ↔
      ∀ arg ∈ args, arg.1.text ≠ [] := by
  rw [parseCommandArgs_written h, and_iff_left singlePass, List.filter_eq_self]
  constructor
  · intro htexts arg harg
    simpa using htexts _ (List.mem_map_of_mem harg)
  · intro htexts text htext
    obtain ⟨arg, harg, rfl⟩ := List.mem_map.mp htext
    simpa using htexts arg harg

/-- `"a" 'b "'` -/
theorem arguments_keep_positions_two :
    parseCommandArgs (js "\"a\" 'b \"'") = [js "a", js "b \""] ∧ SinglePass :=
  (arguments_keep_positions [] [(⟨js "a", 0x22, .inl rfl, by decide⟩, js " "),
    (⟨js "b \"", 0x27, .inr rfl, by decide⟩, [])]
    (.of_all (by decide) (by decide))).mpr (by decide)

/-- An empty argument is dropped, and the next one takes its position. -/
theorem empty_argument_dropped :
    ¬ ∀ (leading : JsString) (args : List (QuotedArg × JsString)), Separated leading args →
      parseCommandArgs (writtenArgs leading args) = args.map (·.1.text) ∧ SinglePass := by
  intro h
  have hread := (h [] [(⟨[], 0x22, .inl rfl, by decide⟩, js " "),
    (⟨js "a", 0x22, .inl rfl, by decide⟩, [])] (.of_all (by decide) (by decide))).1
  exact absurd hread (by decide)

end PiMono.CodingAgent
