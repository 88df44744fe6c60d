import PiMono.Lib.Json

/-!
# JSON text: `JSON.stringify` and `JSON.parse`

`stringify` writes a tree without spaces. `parse` reads a text one code unit at
a time with a pushdown machine (`JsonState.step`): the mode says what may come
next, the stack holds the arrays and objects that are still open. A machine, and
not a recursive-descent function, because the files of this development are cut
in the middle of a value: what a cut text can still become is then a property of
one state.
-/

namespace PiMono

/-! ## Writing -/

def hexUnit (n : Nat) : UInt16 := (if n < 10 then 0x30 + n else 0x61 + (n - 10)).toUInt16

/-- `\uXXXX`, in lower case. -/
def unicodeEscape (u : UInt16) : JsString :=
  [0x5C, 0x75, hexUnit (u.toNat / 0x1000), hexUnit (u.toNat / 0x100 % 0x10),
    hexUnit (u.toNat / 0x10 % 0x10), hexUnit (u.toNat % 0x10)]

/-- A unit that is no surrogate, inside quotes. -/
def quoteUnit (u : UInt16) : JsString :=
  if u = 0x08 then [0x5C, 0x62]
  else if u = 0x09 then [0x5C, 0x74]
  else if u = 0x0A then [0x5C, 0x6E]
  else if u = 0x0C then [0x5C, 0x66]
  else if u = 0x0D then [0x5C, 0x72]
  else if u = 0x22 then [0x5C, 0x22]
  else if u = 0x5C then [0x5C, 0x5C]
  else if u.toNat < 0x20 then unicodeEscape u
  else [u]

/-- `QuoteJSONString` between the quotes: surrogate pairs are kept, a lone
surrogate is escaped. -/
def quoteBody : JsString → JsString
  | [] => []
  | [u] => if isHighSurrogate u || isLowSurrogate u then unicodeEscape u else quoteUnit u
  | u :: v :: rest =>
    if isHighSurrogate u && isLowSurrogate v then u :: v :: quoteBody rest
    else if isHighSurrogate u || isLowSurrogate u then unicodeEscape u ++ quoteBody (v :: rest)
    else quoteUnit u ++ quoteBody (v :: rest)

def quote (s : JsString) : JsString := 0x22 :: (quoteBody s ++ [0x22])

namespace Json

mutual

/-- `JSON.stringify(v)` -/
def stringify : Json → JsString
  | .null => js "null"
  | .bool b => js (if b then "true" else "false")
  | .num x => x.text
  | .str s => quote s
  | .arr [] => [0x5B, 0x5D]
  | .arr (v :: vs) => 0x5B :: (stringify v ++ (stringifyItems vs ++ [0x5D]))
  | .obj [] => [0x7B, 0x7D]
  | .obj (f :: fs) => 0x7B :: (stringifyField f ++ (stringifyFields fs ++ [0x7D]))

/-- The items after the first, each behind its comma. -/
def stringifyItems : List Json → JsString
  | [] => []
  | v :: vs => 0x2C :: (stringify v ++ stringifyItems vs)

def stringifyField : JsString × Json → JsString
  | (k, v) => quote k ++ 0x3A :: stringify v

/-- The fields after the first, each behind its comma. -/
def stringifyFields : List (JsString × Json) → JsString
  | [] => []
  | f :: fs => 0x2C :: (stringifyField f ++ stringifyFields fs)

end

end Json

/-! ## Reading -/

/-- The characters JSON allows between tokens. -/
def isJsonSpace (u : UInt16) : Bool := u == 0x20 || u == 0x09 || u == 0x0A || u == 0x0D

/-- The value of a hexadecimal digit. -/
def hexValue? (u : UInt16) : Option Nat :=
  if 0x30 ≤ u.toNat ∧ u.toNat ≤ 0x39 then some (u.toNat - 0x30)
  else if 0x41 ≤ u.toNat ∧ u.toNat ≤ 0x46 then some (u.toNat - 0x41 + 10)
  else if 0x61 ≤ u.toNat ∧ u.toNat ≤ 0x66 then some (u.toNat - 0x61 + 10)
  else none

/-- What a one-letter escape stands for. -/
def escaped? (u : UInt16) : Option UInt16 :=
  if u = 0x22 then some 0x22
  else if u = 0x5C then some 0x5C
  else if u = 0x2F then some 0x2F
  else if u = 0x62 then some 0x08
  else if u = 0x66 then some 0x0C
  else if u = 0x6E then some 0x0A
  else if u = 0x72 then some 0x0D
  else if u = 0x74 then some 0x09
  else none

/-- An array or an object still open. -/
inductive JsonFrame where
  /-- The items before the one being read. -/
  | item (before : List Json)
  /-- The fields before the one being read, and its key. -/
  | field (before : List (JsString × Json)) (key : JsString)

/-- What a string being read is for. -/
inductive StringRole where
  | value
  /-- The key of the next field of an object. -/
  | key (before : List (JsString × Json))

/-- Where a string being read stands. -/
inductive StringPhase where
  | plain
  /-- Behind a backslash. -/
  | escape
  /-- Behind `\u`: how many digits are missing, and the value of those read. -/
  | hex (missing value : Nat)

/-- What may come next. -/
inductive JsonMode where
  | value
  /-- Behind `[`: an item or `]`. -/
  | firstItem
  | afterItem (items : List Json)
  /-- Behind `{`: a key or `}`. -/
  | firstKey
  | nextKey (fields : List (JsString × Json))
  | colon (fields : List (JsString × Json)) (key : JsString)
  | afterField (fields : List (JsString × Json))
  | string (role : StringRole) (acc : JsString) (phase : StringPhase)
  | number (a : NumAcc)
  /-- Inside `null`, `true` or `false`. -/
  | literal (rest : JsString) (v : Json)
  /-- The whole text is read. -/
  | done (v : Json)

/-- The machine's state. -/
structure JsonState where
  mode : JsonMode
  stack : List JsonFrame

namespace JsonState

def init : JsonState := ⟨.value, []⟩

/-- A value is complete: it goes where the innermost open frame wants it. -/
def deliver (v : Json) : List JsonFrame → JsonState
  | [] => ⟨.done v, []⟩
  | .item before :: stack => ⟨.afterItem (before ++ [v]), stack⟩
  | .field before key :: stack => ⟨.afterField (setField before key v), stack⟩

/-- A string is complete. -/
def closeString (stack : List JsonFrame) (s : JsString) : StringRole → JsonState
  | .value => deliver (.str s) stack
  | .key before => ⟨.colon before s, stack⟩

/-- The first unit of a value. -/
def startValue (stack : List JsonFrame) (u : UInt16) : Option JsonState :=
  if u = 0x22 then some ⟨.string .value [] .plain, stack⟩
  else if u = 0x5B then some ⟨.firstItem, stack⟩
  else if u = 0x7B then some ⟨.firstKey, stack⟩
  else if u = 0x6E then some ⟨.literal (js "ull") .null, stack⟩
  else if u = 0x74 then some ⟨.literal (js "rue") (.bool true), stack⟩
  else if u = 0x66 then some ⟨.literal (js "alse") (.bool false), stack⟩
  else (NumAcc.first u).map fun a => ⟨.number a, stack⟩

/-- One more unit of a string. -/
def stepString (stack : List JsonFrame) (role : StringRole) (acc : JsString) (u : UInt16) :
    StringPhase → Option JsonState
  | .plain =>
    if u = 0x22 then some (closeString stack acc role)
    else if u = 0x5C then some ⟨.string role acc .escape, stack⟩
    else if u.toNat < 0x20 then none
    else some ⟨.string role (acc ++ [u]) .plain, stack⟩
  | .escape =>
    if u = 0x75 then some ⟨.string role acc (.hex 3 0), stack⟩
    else (escaped? u).map fun v => ⟨.string role (acc ++ [v]) .plain, stack⟩
  | .hex missing value =>
    (hexValue? u).map fun d =>
      match missing with
      | 0 => ⟨.string role (acc ++ [(value * 0x10 + d).toUInt16]) .plain, stack⟩
      | missing + 1 => ⟨.string role acc (.hex missing (value * 0x10 + d)), stack⟩

/-- One unit, in every mode but inside a number. -/
def stepMode (s : JsonState) (u : UInt16) : Option JsonState :=
  match s.mode with
  | .string role acc phase => stepString s.stack role acc u phase
  | .literal [] _ => none
  | .literal [c] v => if u = c then some (deliver v s.stack) else none
  | .literal (c :: rest) v => if u = c then some ⟨.literal rest v, s.stack⟩ else none
  | .number _ => none
  | mode =>
    if isJsonSpace u then some s
    else match mode with
    | .value => startValue s.stack u
    | .firstItem =>
      if u = 0x5D then some (deliver (.arr []) s.stack) else startValue (.item [] :: s.stack) u
    | .afterItem items =>
      if u = 0x2C then some ⟨.value, .item items :: s.stack⟩
      else if u = 0x5D then some (deliver (.arr items) s.stack) else none
    | .firstKey =>
      if u = 0x22 then some ⟨.string (.key []) [] .plain, s.stack⟩
      else if u = 0x7D then some (deliver (.obj []) s.stack) else none
    | .nextKey fields =>
      if u = 0x22 then some ⟨.string (.key fields) [] .plain, s.stack⟩ else none
    | .colon fields key =>
      if u = 0x3A then some ⟨.value, .field fields key :: s.stack⟩ else none
    | .afterField fields =>
      if u = 0x2C then some ⟨.nextKey fields, s.stack⟩
      else if u = 0x7D then some (deliver (.obj fields) s.stack) else none
    | _ => none

/-- One unit. A number ends at the first unit that cannot continue it, and that
unit is then read behind it. -/
def step (s : JsonState) (u : UInt16) : Option JsonState :=
  match s.mode with
  | .number a =>
    match a.step u with
    | some a' => some ⟨.number a', s.stack⟩
    | none => if a.complete then stepMode (deliver (.num a.value) s.stack) u else none
  | _ => stepMode s u

/-- A run over some units. -/
def run (s : JsonState) (us : JsString) : Option JsonState := us.foldlM step s

/-- The value, if the text may end here. -/
def finish (s : JsonState) : Option Json :=
  match s.mode, s.stack with
  | .done v, [] => some v
  | .number a, [] => if a.complete then some (.num a.value) else none
  | _, _ => none

@[simp] theorem run_nil (s : JsonState) : s.run [] = some s := rfl

@[simp] theorem run_cons (s : JsonState) (u : UInt16) (us : JsString) :
    s.run (u :: us) = (s.step u).bind (·.run us) := rfl

theorem run_append (s : JsonState) (us vs : JsString) :
    s.run (us ++ vs) = (s.run us).bind (·.run vs) := by
  rw [run, List.foldlM_append]
  rfl

end JsonState

/-- `JSON.parse(text)`; `none` where it throws. -/
def Json.parse (text : JsString) : Option Json := (JsonState.init.run text).bind (·.finish)

/-! ## What a unit can do -/

namespace JsonState

/-- Everything one unit can do to the machine outside a number. -/
inductive Moves (u : UInt16) : JsonState → JsonState → Prop
  | skip {s : JsonState} : isJsonSpace u = true →
    (∀ role acc phase, s.mode ≠ .string role acc phase) →
    (∀ rest v, s.mode ≠ .literal rest v) → Moves u s s
  | quote {stack : List JsonFrame} : u = 0x22 →
    Moves u ⟨.value, stack⟩ ⟨.string .value [] .plain, stack⟩
  | openArr {stack : List JsonFrame} : u = 0x5B → Moves u ⟨.value, stack⟩ ⟨.firstItem, stack⟩
  | openObj {stack : List JsonFrame} : u = 0x7B → Moves u ⟨.value, stack⟩ ⟨.firstKey, stack⟩
  | name {stack : List JsonFrame} (rest : String) (v : Json) :
    0x61 ≤ u.toNat ∧ u.toNat ≤ 0x7A → rest ∈ ["ull", "rue", "alse"] → v.Wf →
    Moves u ⟨.value, stack⟩ ⟨.literal (js rest) v, stack⟩
  | digit {stack : List JsonFrame} {a : NumAcc} : NumAcc.first u = some a →
    Moves u ⟨.value, stack⟩ ⟨.number a, stack⟩
  | firstItem {stack : List JsonFrame} {s : JsonState} : u ≠ 0x5D →
    Moves u ⟨.value, .item [] :: stack⟩ s → isJsonSpace u = false →
    Moves u ⟨.firstItem, stack⟩ s
  | emptyArr {stack : List JsonFrame} : u = 0x5D →
    Moves u ⟨.firstItem, stack⟩ (deliver (.arr []) stack)
  | nextItem {stack : List JsonFrame} {items : List Json} : u = 0x2C →
    Moves u ⟨.afterItem items, stack⟩ ⟨.value, .item items :: stack⟩
  | closeArr {stack : List JsonFrame} {items : List Json} : u = 0x5D →
    Moves u ⟨.afterItem items, stack⟩ (deliver (.arr items) stack)
  | firstKey {stack : List JsonFrame} : u = 0x22 →
    Moves u ⟨.firstKey, stack⟩ ⟨.string (.key []) [] .plain, stack⟩
  | emptyObj {stack : List JsonFrame} : u = 0x7D →
    Moves u ⟨.firstKey, stack⟩ (deliver (.obj []) stack)
  | nextKey {stack : List JsonFrame} {fields : List (JsString × Json)} : u = 0x22 →
    Moves u ⟨.nextKey fields, stack⟩ ⟨.string (.key fields) [] .plain, stack⟩
  | colon {stack : List JsonFrame} {fields : List (JsString × Json)} {key : JsString} :
    u = 0x3A → Moves u ⟨.colon fields key, stack⟩ ⟨.value, .field fields key :: stack⟩
  | nextField {stack : List JsonFrame} {fields : List (JsString × Json)} : u = 0x2C →
    Moves u ⟨.afterField fields, stack⟩ ⟨.nextKey fields, stack⟩
  | closeObj {stack : List JsonFrame} {fields : List (JsString × Json)} : u = 0x7D →
    Moves u ⟨.afterField fields, stack⟩ (deliver (.obj fields) stack)
  | inString {stack : List JsonFrame} {role : StringRole} {acc acc' : JsString}
    {phase phase' : StringPhase} :
    Moves u ⟨.string role acc phase, stack⟩ ⟨.string role acc' phase', stack⟩
  | closeString {stack : List JsonFrame} {role : StringRole} {acc : JsString} : u = 0x22 →
    Moves u ⟨.string role acc .plain, stack⟩ (closeString stack acc role)
  | inName {stack : List JsonFrame} {c : UInt16} {rest : JsString} {v : Json} :
    Moves u ⟨.literal (u :: c :: rest) v, stack⟩ ⟨.literal (c :: rest) v, stack⟩
  | closeName {stack : List JsonFrame} {v : Json} :
    Moves u ⟨.literal [u] v, stack⟩ (deliver v stack)

theorem moves_startValue {stack : List JsonFrame} {u : UInt16} {s : JsonState}
    (hs : startValue stack u = some s) : Moves u ⟨.value, stack⟩ s := by
  simp only [startValue] at hs
  split at hs
  · cases hs; exact .quote ‹_›
  split at hs
  · cases hs; exact .openArr ‹_›
  split at hs
  · cases hs; exact .openObj ‹_›
  split at hs
  · cases hs; subst u; exact .name "ull" _ (by decide) (by simp) .null
  split at hs
  · cases hs; subst u; exact .name "rue" _ (by decide) (by simp) (.bool true)
  split at hs
  · cases hs; subst u; exact .name "alse" _ (by decide) (by simp) (.bool false)
  · obtain ⟨a, ha, rfl⟩ := Option.map_eq_some_iff.mp hs
    exact .digit ha

theorem moves_stepString {stack : List JsonFrame} {role : StringRole} {acc : JsString}
    {u : UInt16} {phase : StringPhase} {s : JsonState}
    (hs : stepString stack role acc u phase = some s) :
    Moves u ⟨.string role acc phase, stack⟩ s := by
  cases phase with
  | plain =>
    simp only [stepString] at hs
    split at hs
    · cases hs; exact .closeString ‹_›
    split at hs
    · cases hs; exact .inString
    split at hs
    · cases hs
    · cases hs; exact .inString
  | escape =>
    simp only [stepString] at hs
    split at hs
    · cases hs; exact .inString
    · obtain ⟨v, -, rfl⟩ := Option.map_eq_some_iff.mp hs
      exact .inString
  | hex missing value =>
    obtain ⟨d, -, hd⟩ := Option.map_eq_some_iff.mp hs
    cases missing <;> (rw [← hd]; exact .inString)

/-- The inversion of `stepMode`. -/
theorem moves_stepMode {s s' : JsonState} {u : UInt16} (hs : s.stepMode u = some s') :
    Moves u s s' := by
  obtain ⟨mode, stack⟩ := s
  cases mode with
  | string role acc phase => exact moves_stepString hs
  | number a => cases hs
  | literal rest v =>
    match rest with
    | [] => cases hs
    | [c] =>
      simp only [stepMode] at hs
      split at hs
      · cases hs; subst u; exact .closeName
      · cases hs
    | c :: d :: rest =>
      simp only [stepMode] at hs
      split at hs
      · cases hs; subst u; exact .inName
      · cases hs
  | value =>
    simp only [stepMode] at hs
    split at hs
    · cases hs; exact .skip ‹_› (by simp) (by simp)
    · exact moves_startValue hs
  | firstItem =>
    simp only [stepMode] at hs
    split at hs
    · cases hs; exact .skip ‹_› (by simp) (by simp)
    split at hs
    · cases hs; exact .emptyArr ‹_›
    · rename_i hspace hclose
      exact .firstItem hclose (moves_startValue hs) (Bool.eq_false_iff.mpr hspace)
  | afterItem items =>
    simp only [stepMode] at hs
    split at hs
    · cases hs; exact .skip ‹_› (by simp) (by simp)
    split at hs
    · cases hs; exact .nextItem ‹_›
    split at hs
    · cases hs; exact .closeArr ‹_›
    · cases hs
  | firstKey =>
    simp only [stepMode] at hs
    split at hs
    · cases hs; exact .skip ‹_› (by simp) (by simp)
    split at hs
    · cases hs; exact .firstKey ‹_›
    split at hs
    · cases hs; exact .emptyObj ‹_›
    · cases hs
  | nextKey fields =>
    simp only [stepMode] at hs
    split at hs
    · cases hs; exact .skip ‹_› (by simp) (by simp)
    split at hs
    · cases hs; exact .nextKey ‹_›
    · cases hs
  | colon fields key =>
    simp only [stepMode] at hs
    split at hs
    · cases hs; exact .skip ‹_› (by simp) (by simp)
    split at hs
    · cases hs; exact .colon ‹_›
    · cases hs
  | afterField fields =>
    simp only [stepMode] at hs
    split at hs
    · cases hs; exact .skip ‹_› (by simp) (by simp)
    split at hs
    · cases hs; exact .nextField ‹_›
    split at hs
    · cases hs; exact .closeObj ‹_›
    · cases hs
  | done v =>
    simp only [stepMode] at hs
    split at hs
    · cases hs; exact .skip ‹_› (by simp) (by simp)
    · cases hs

end JsonState

/-! ## What is read has distinct keys -/

namespace JsonFrame

/-- What a frame holds is well formed. -/
def Wf : JsonFrame → Prop
  | .item before => ∀ v ∈ before, v.Wf
  | .field before _ => (Json.obj before).Wf

end JsonFrame

namespace JsonMode

/-- What a mode holds is well formed. -/
def Wf : JsonMode → Prop
  | .afterItem items => ∀ v ∈ items, v.Wf
  | .nextKey fields | .colon fields _ | .afterField fields => (Json.obj fields).Wf
  | .string (.key before) _ _ => (Json.obj before).Wf
  | .literal _ v | .done v => v.Wf
  | .value | .firstItem | .firstKey | .string .value _ _ | .number _ => True

end JsonMode

namespace JsonState

def Wf (s : JsonState) : Prop := s.mode.Wf ∧ ∀ f ∈ s.stack, f.Wf

theorem wf_deliver {v : Json} {stack : List JsonFrame} (hv : v.Wf) (h : ∀ f ∈ stack, f.Wf) :
    (deliver v stack).Wf := by
  match stack with
  | [] => exact ⟨hv, h⟩
  | .item before :: stack =>
    obtain ⟨hf, hrest⟩ := List.forall_mem_cons.mp h
    refine ⟨fun w hw => ?_, hrest⟩
    rcases List.mem_append.mp hw with hw | hw
    · exact hf w hw
    · rw [List.mem_singleton.mp hw]
      exact hv
  | .field before key :: stack =>
    obtain ⟨hf, hrest⟩ := List.forall_mem_cons.mp h
    have hbefore : (Json.obj before).Wf := hf
    refine ⟨.obj (nodup_setField hbefore.nodup) fun f hf => ?_, hrest⟩
    rcases mem_setField hf with hf | rfl
    · exact hbefore.field f hf
    · exact hv

theorem wf_moves {s s' : JsonState} {u : UInt16} (hs : Moves u s s') (h : s.Wf) : s'.Wf := by
  obtain ⟨hmode, hstack⟩ := h
  have hnil : (Json.obj []).Wf := .obj (by simp) (by simp)
  induction hs with
  | skip => exact ⟨hmode, hstack⟩
  | quote | openArr | openObj | digit => exact ⟨trivial, hstack⟩
  | name rest v _ _ hv => exact ⟨hv, hstack⟩
  | firstItem _ _ _ ih =>
    exact ih trivial (List.forall_mem_cons.mpr ⟨by simp [JsonFrame.Wf], hstack⟩)
  | emptyArr => exact wf_deliver (.arr (by simp)) hstack
  | nextItem => exact ⟨trivial, List.forall_mem_cons.mpr ⟨hmode, hstack⟩⟩
  | closeArr => exact wf_deliver (.arr hmode) hstack
  | firstKey => exact ⟨hnil, hstack⟩
  | emptyObj => exact wf_deliver hnil hstack
  | nextKey | nextField => exact ⟨hmode, hstack⟩
  | colon => exact ⟨trivial, List.forall_mem_cons.mpr ⟨hmode, hstack⟩⟩
  | closeObj => exact wf_deliver hmode hstack
  | @inString _ role => cases role <;> exact ⟨hmode, hstack⟩
  | @closeString _ role acc =>
    cases role with
    | value => exact wf_deliver (.str acc) hstack
    | key before => exact ⟨hmode, hstack⟩
  | inName => exact ⟨hmode, hstack⟩
  | closeName => exact wf_deliver hmode hstack

theorem wf_step {s s' : JsonState} {u : UInt16} (h : s.Wf) (hs : s.step u = some s') : s'.Wf := by
  unfold step at hs
  split at hs
  · split at hs
    · cases hs; exact ⟨trivial, h.2⟩
    split at hs
    · exact wf_moves (moves_stepMode hs) (wf_deliver (.num _) h.2)
    · cases hs
  · exact wf_moves (moves_stepMode hs) h

theorem wf_run {s s' : JsonState} : ∀ {us : JsString}, s.Wf → s.run us = some s' → s'.Wf
  | [], h, hs => by
    cases hs
    exact h
  | u :: us, h, hs => by
    obtain ⟨t, ht, hrest⟩ := Option.bind_eq_some_iff.mp hs
    exact wf_run (wf_step h ht) hrest

end JsonState

/-- What `JSON.parse` returns has no object with two fields of one name. -/
theorem Json.parse_wf {text : JsString} {v : Json} (h : Json.parse text = some v) : v.Wf := by
  obtain ⟨s, hs, hv⟩ := Option.bind_eq_some_iff.mp h
  have hwf : s.Wf := JsonState.wf_run (s := .init) ⟨trivial, by simp [JsonState.init]⟩ hs
  obtain ⟨mode, stack⟩ := s
  unfold JsonState.finish at hv
  split at hv
  · rename_i hmode _
    cases hv
    have hmode : mode = .done v := hmode
    subst hmode
    exact hwf.1
  · split at hv
    · cases hv
      exact .num _
    · cases hv
  · cases hv

namespace JsValue

/-- `JSON.stringify(v)` -/
def stringify (v : JsValue) : JsString := v.json.stringify

/-- `JSON.parse(text)`; `none` where it throws. -/
def parse (text : JsString) : Option JsValue :=
  match h : Json.parse text with
  | some v => some ⟨v, Json.parse_wf h⟩
  | none => none

theorem parse_eq_some {text : JsString} {v : JsValue} :
    parse text = some v ↔ Json.parse text = some v.json := by
  unfold parse
  split
  · rename_i w h
    refine ⟨fun heq => ?_, fun heq => ?_⟩
    · rw [h, ← Option.some.inj heq]
    · have hw : w = v.json := Option.some.inj (h.symm.trans heq)
      exact congrArg some (ext hw)
  · rename_i h
    simp [h]

theorem parse_eq_none {text : JsString} : parse text = none ↔ Json.parse text = none := by
  unfold parse
  split
  · rename_i w h
    simp [h]
  · rename_i h
    simp [h]

end JsValue

end PiMono
