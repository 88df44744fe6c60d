import PiMono.Lib.JsonRoundTrip

/-!
# Texts cut short, and texts run together

What a line of a file holds after a write was cut off, or after a second write
followed a first that was: `Json.parse_cut` (a text that still misses its closing
brace is no JSON text), `Json.parse_replacement` (nor is it with one `U+FFFD`
behind it) and `Json.parse_behind` (an object written behind anything but spaces
is no JSON text). `printable_stringify` says that the text of a value stays on
its line and survives encoding.
-/

namespace PiMono

/-! ## The text of a value stays on its line -/

/-- Well formed, and without control characters. -/
def Printable (s : JsString) : Prop := WellFormed s ∧ ∀ u ∈ s, 0x20 ≤ u.toNat

/-- Printable characters of the ASCII range. -/
def PrintableAscii (s : JsString) : Prop := ∀ u ∈ s, 0x20 ≤ u.toNat ∧ u.toNat < 0x80

theorem Printable.append {s t : JsString} (hs : Printable s) (ht : Printable t) :
    Printable (s ++ t) :=
  ⟨hs.1.append ht.1, List.forall_mem_append.mpr ⟨hs.2, ht.2⟩⟩

theorem PrintableAscii.printable : ∀ {s : JsString}, PrintableAscii s → Printable s
  | [], _ => ⟨wellFormed_nil, by simp⟩
  | u :: us, h => by
    obtain ⟨hu, hus⟩ := List.forall_mem_cons.mp h
    have hhi : isHighSurrogate u = false := by
      simp only [isHighSurrogate, Bool.and_eq_false_iff, decide_eq_false_iff_not]
      omega
    have hlo : isLowSurrogate u = false := by
      simp only [isLowSurrogate, Bool.and_eq_false_iff, decide_eq_false_iff_not]
      omega
    have hunit : Printable [u] := ⟨wellFormed_unit hhi hlo, by simpa using hu.1⟩
    exact hunit.append (PrintableAscii.printable hus)

theorem PrintableAscii.append {s t : JsString} (hs : PrintableAscii s) (ht : PrintableAscii t) :
    PrintableAscii (s ++ t) :=
  List.forall_mem_append.mpr ⟨hs, ht⟩

instance (s : JsString) : Decidable (PrintableAscii s) :=
  decidable_of_iff ((s.all fun u => 0x20 ≤ u.toNat ∧ u.toNat < 0x80) = true)
    (by simp [PrintableAscii])

theorem printableAscii_digitsText (ds : List Digit) : PrintableAscii (JsNumber.digitsText ds) := by
  have hall : ∀ d : Digit, 0x20 ≤ (digitUnit d).toNat ∧ (digitUnit d).toNat < 0x80 := by decide
  intro u hu
  obtain ⟨d, -, rfl⟩ := List.mem_map.mp hu
  exact hall d

theorem printableAscii_text (x : JsNumber) : PrintableAscii x.text := by
  have hsign : PrintableAscii (if x.neg then js "-" else []) := by split <;> decide
  have hdot : PrintableAscii (js ".") := by decide
  refine hsign.append ?_
  rw [JsNumber.absText]
  split
  · decide
  split
  · exact printableAscii_digitsText _
  split
  · exact ((printableAscii_digitsText _).append hdot).append (printableAscii_digitsText _)
  split
  · exact PrintableAscii.append (by decide) (printableAscii_digitsText _)
  · refine PrintableAscii.append (PrintableAscii.append (PrintableAscii.append
      (PrintableAscii.append (printableAscii_digitsText _) ?_) (by decide)) ?_)
      (printableAscii_digitsText _)
    · split
      · exact fun u hu => absurd hu (by simp)
      · exact hdot.append (printableAscii_digitsText _)
    · split <;> decide

theorem printableAscii_unicodeEscape (u : UInt16) : PrintableAscii (unicodeEscape u) := by
  have hlt : u.toNat < 65536 := u.toNat_lt
  have hall : ∀ n : Fin 16, 0x20 ≤ (hexUnit n.val).toNat ∧ (hexUnit n.val).toNat < 0x80 := by
    decide
  have hhex : ∀ n : Nat, n < 16 → 0x20 ≤ (hexUnit n).toNat ∧ (hexUnit n).toNat < 0x80 :=
    fun n hn => hall ⟨n, hn⟩
  have h1 := hhex (u.toNat / 0x1000) (by omega)
  have h2 := hhex (u.toNat / 0x100 % 0x10) (by omega)
  have h3 := hhex (u.toNat / 0x10 % 0x10) (by omega)
  have h4 := hhex (u.toNat % 0x10) (by omega)
  simp only [unicodeEscape, PrintableAscii, List.forall_mem_cons]
  exact ⟨by decide, by decide, h1, h2, h3, h4, by simp⟩

theorem printable_quoteUnit {u : UInt16} (hhi : isHighSurrogate u = false)
    (hlo : isLowSurrogate u = false) : Printable (quoteUnit u) := by
  rw [quoteUnit]
  split
  · exact PrintableAscii.printable (by decide)
  split
  · exact PrintableAscii.printable (by decide)
  split
  · exact PrintableAscii.printable (by decide)
  split
  · exact PrintableAscii.printable (by decide)
  split
  · exact PrintableAscii.printable (by decide)
  split
  · exact PrintableAscii.printable (by decide)
  split
  · exact PrintableAscii.printable (by decide)
  split
  · exact (printableAscii_unicodeEscape u).printable
  · exact ⟨wellFormed_unit hhi hlo, by simp; omega⟩

theorem printable_quoteBody : ∀ s : JsString, Printable (quoteBody s)
  | [] => ⟨wellFormed_nil, by simp [quoteBody]⟩
  | [u] => by
    rw [quoteBody]
    split
    · exact (printableAscii_unicodeEscape u).printable
    · rename_i h
      rw [Bool.or_eq_true, not_or, Bool.not_eq_true, Bool.not_eq_true] at h
      exact printable_quoteUnit h.1 h.2
  | u :: v :: s => by
    rw [quoteBody]
    split
    · rename_i h
      rw [Bool.and_eq_true] at h
      have hpair : Printable [u, v] := by
        refine ⟨wellFormed_pair h.1 h.2, ?_⟩
        simp only [isHighSurrogate, isLowSurrogate, Bool.and_eq_true, decide_eq_true_eq] at h
        simp only [List.forall_mem_cons]
        exact ⟨by omega, by omega, by simp⟩
      exact hpair.append (printable_quoteBody s)
    split
    · exact (printableAscii_unicodeEscape u).printable.append (printable_quoteBody (v :: s))
    · rename_i h
      rw [Bool.or_eq_true, not_or, Bool.not_eq_true, Bool.not_eq_true] at h
      exact (printable_quoteUnit h.1 h.2).append (printable_quoteBody (v :: s))

theorem printable_quote (s : JsString) : Printable (quote s) := by
  have hq : Printable [0x22] := PrintableAscii.printable (by decide)
  exact hq.append ((printable_quoteBody s).append hq)

namespace Json

mutual

/-- The text of a value is well formed and holds no line break. -/
theorem printable_stringify : ∀ v : Json, Printable v.stringify
  | .null => PrintableAscii.printable (by decide)
  | .bool true => PrintableAscii.printable (by decide)
  | .bool false => PrintableAscii.printable (by decide)
  | .num x => (printableAscii_text x).printable
  | .str s => printable_quote s
  | .arr [] => PrintableAscii.printable (by decide)
  | .arr (v :: vs) => by
    have hopen : Printable [0x5B] := PrintableAscii.printable (by decide)
    have hclose : Printable [0x5D] := PrintableAscii.printable (by decide)
    exact hopen.append
      ((printable_stringify v).append ((printable_stringifyItems vs).append hclose))
  | .obj [] => PrintableAscii.printable (by decide)
  | .obj ((k, v) :: fs) => by
    have hopen : Printable [0x7B] := PrintableAscii.printable (by decide)
    have hcolon : Printable [0x3A] := PrintableAscii.printable (by decide)
    have hclose : Printable [0x7D] := PrintableAscii.printable (by decide)
    exact hopen.append (((printable_quote k).append (hcolon.append (printable_stringify v))).append
      ((printable_stringifyFields fs).append hclose))

theorem printable_stringifyItems : ∀ vs : List Json, Printable (stringifyItems vs)
  | [] => ⟨wellFormed_nil, by simp [stringifyItems]⟩
  | v :: vs => by
    have hcomma : Printable [0x2C] := PrintableAscii.printable (by decide)
    exact hcomma.append ((printable_stringify v).append (printable_stringifyItems vs))

theorem printable_stringifyFields : ∀ fs : List (JsString × Json), Printable (stringifyFields fs)
  | [] => ⟨wellFormed_nil, by simp [stringifyFields]⟩
  | (k, v) :: fs => by
    have hcomma : Printable [0x2C] := PrintableAscii.printable (by decide)
    have hcolon : Printable [0x3A] := PrintableAscii.printable (by decide)
    exact hcomma.append (((printable_quote k).append (hcolon.append (printable_stringify v))).append
      (printable_stringifyFields fs))

end

/-- The text of an object is a brace, something, a brace. -/
theorem stringify_obj (fields : List (JsString × Json)) :
    ∃ body, stringify (.obj fields) = 0x7B :: (body ++ [0x7D]) := by
  cases fields with
  | nil => exact ⟨[], rfl⟩
  | cons f fs => exact ⟨stringifyField f ++ stringifyFields fs, by simp [stringify]⟩

end Json

/-! ## A text that is complete -/

namespace JsonState

/-- Nothing is open: the text is read, up to the end of a number. -/
def Final (s : JsonState) : Prop :=
  (∃ v, s = ⟨.done v, []⟩) ∨ ∃ a, s = ⟨.number a, []⟩

theorem final_of_finish {s : JsonState} {v : Json} (h : s.finish = some v) : Final s := by
  obtain ⟨mode, stack⟩ := s
  unfold finish at h
  split at h
  · rename_i w hmode hstack
    exact Or.inl ⟨w, by rw [show mode = _ from hmode, show stack = _ from hstack]⟩
  · rename_i a hmode hstack
    exact Or.inr ⟨a, by rw [show mode = _ from hmode, show stack = _ from hstack]⟩
  · cases h

/-- Behind a complete text only spaces follow, or more of a number. -/
theorem Final.step {s s' : JsonState} (h : Final s) {u : UInt16} (hs : s.step u = some s') :
    Final s' ∧ (isJsonSpace u = true ∨ NumAcc.isNumberUnit u = true) := by
  have hdone : ∀ v, stepMode ⟨.done v, []⟩ u = some s' → Final s' ∧ isJsonSpace u = true := by
    intro v hv
    simp only [stepMode] at hv
    split at hv
    · cases hv
      exact ⟨Or.inl ⟨v, rfl⟩, ‹_›⟩
    · cases hv
  rcases h with ⟨v, rfl⟩ | ⟨a, rfl⟩
  · exact (hdone v hs).imp_right Or.inl
  · cases hstep : a.step u with
    | some a' =>
      simp only [JsonState.step, hstep] at hs
      cases hs
      refine ⟨Or.inr ⟨a', rfl⟩, Or.inr ?_⟩
      cases hu : NumAcc.isNumberUnit u with
      | true => rfl
      | false =>
        rw [NumAcc.step_of_not_numberUnit hu] at hstep
        cases hstep
    | none =>
      simp only [JsonState.step, hstep] at hs
      split at hs
      · exact (hdone _ hs).imp_right Or.inl
      · cases hs

theorem Final.run {s s' : JsonState} : ∀ {us : JsString}, Final s → s.run us = some s' →
    ∀ u ∈ us, isJsonSpace u = true ∨ NumAcc.isNumberUnit u = true
  | [], _, _ => by simp
  | u :: us, h, hs => by
    obtain ⟨t, ht, hrest⟩ := Option.bind_eq_some_iff.mp hs
    obtain ⟨hfinal, hu⟩ := h.step ht
    exact List.forall_mem_cons.mpr ⟨hu, Final.run hfinal hrest⟩

/-- What is left of a literal name is lower-case letters. -/
def LiteralRest (s : JsonState) : Prop :=
  ∀ rest v, s.mode = .literal rest v → ∀ u ∈ rest, 0x61 ≤ u.toNat ∧ u.toNat ≤ 0x7A

theorem literalRest_deliver (v : Json) (stack : List JsonFrame) :
    LiteralRest (deliver v stack) := by
  intro rest w h
  match stack with
  | [] | .item _ :: _ | .field _ _ :: _ => cases h

theorem literalRest_moves {s s' : JsonState} {u : UInt16} (hs : Moves u s s')
    (h : LiteralRest s) : LiteralRest s' := by
  induction hs with
  | skip => exact h
  | name rest v _ hrest =>
    rintro rest' v' ⟨⟩
    have hletters : ∀ rest ∈ ["ull", "rue", "alse"],
        ((js rest).all fun u => 0x61 ≤ u.toNat ∧ u.toNat ≤ 0x7A) = true := by decide
    simpa using hletters rest hrest
  | firstItem _ _ _ ih => exact ih (by rintro rest v ⟨⟩)
  | emptyArr | closeArr | emptyObj | closeObj | closeName => exact literalRest_deliver _ _
  | @closeString _ role =>
    cases role with
    | value => exact literalRest_deliver _ _
    | key => rintro rest v ⟨⟩
  | inName =>
    rintro rest' v' ⟨⟩
    exact fun x hx => h _ _ rfl x (List.mem_cons_of_mem _ hx)
  | _ => rintro rest v ⟨⟩

theorem literalRest_step {s s' : JsonState} {u : UInt16} (h : LiteralRest s)
    (hs : s.step u = some s') : LiteralRest s' := by
  unfold step at hs
  split at hs
  · split at hs
    · cases hs; rintro rest v ⟨⟩
    split at hs
    · exact literalRest_moves (moves_stepMode hs) (literalRest_deliver _ _)
    · cases hs
  · exact literalRest_moves (moves_stepMode hs) h

theorem literalRest_run {s s' : JsonState} : ∀ {us : JsString}, LiteralRest s →
    s.run us = some s' → LiteralRest s'
  | [], h, hs => by
    cases hs
    exact h
  | u :: us, h, hs => by
    obtain ⟨t, ht, hrest⟩ := Option.bind_eq_some_iff.mp hs
    exact literalRest_run (literalRest_step h ht) hrest

theorem literalRest_init : LiteralRest init := by
  rintro rest v ⟨⟩

/-- `U+FFFD` can only be inside a string, which it leaves open. -/
theorem step_replacement {s s' : JsonState} (h : LiteralRest s) (hs : s.step 0xFFFD = some s') :
    ¬ Final s' := by
  have hmoves : ∀ {t t' : JsonState}, Moves 0xFFFD t t' → LiteralRest t → ¬ Final t' := by
    intro t t' hm ht
    cases hm with
    | skip hspace => cases hspace
    | quote h | openArr h | openObj h | emptyArr h | nextItem h | closeArr h | firstKey h
    | emptyObj h | nextKey h | colon h | nextField h | closeObj h | closeString h => cases h
    | name _ _ h => exact absurd h (by decide)
    | digit h => cases h
    | firstItem _ hm =>
      cases hm with
      | skip hspace => cases hspace
      | quote h | openArr h | openObj h => cases h
      | name _ _ h => exact absurd h (by decide)
      | digit h => cases h
    | inString => rintro (⟨v, hv⟩ | ⟨a, ha⟩) <;> simp at *
    | inName => exact absurd (ht _ _ rfl _ List.mem_cons_self) (by decide)
    | closeName => exact absurd (ht _ _ rfl _ List.mem_cons_self) (by decide)
  unfold step at hs
  split at hs
  · rw [NumAcc.step_of_not_numberUnit (by decide)] at hs
    simp only at hs
    split at hs
    · exact hmoves (moves_stepMode hs) (literalRest_deliver _ _)
    · cases hs
  · exact hmoves (moves_stepMode hs) h

/-- A brace that opens an object comes where a value may start, or inside a string. -/
theorem step_brace {s s' : JsonState} (h : LiteralRest s) (hs : s.step 0x7B = some s') :
    (∃ stack, Starts s stack ∧ s' = ⟨.firstKey, stack⟩) ∨
      ∃ role acc, s'.mode = .string role acc .plain := by
  have hdeliver : ∀ {v : Json} {stack : List JsonFrame} {t' : JsonState},
      (deliver v stack).stepMode 0x7B = some t' → False := by
    intro v stack t' ht
    match stack with
    | [] | .item _ :: _ | .field _ _ :: _ => cases ht
  unfold step at hs
  split at hs
  · rw [NumAcc.step_of_not_numberUnit (by decide)] at hs
    simp only at hs
    split at hs
    · exact (hdeliver hs).elim
    · cases hs
  obtain ⟨mode, stack⟩ := s
  cases mode with
  | value =>
    cases hs
    exact Or.inl ⟨stack, Or.inl rfl, rfl⟩
  | firstItem =>
    cases hs
    exact Or.inl ⟨_, Or.inr ⟨stack, rfl, rfl⟩, rfl⟩
  | string role acc phase =>
    cases phase with
    | plain => cases hs; exact Or.inr ⟨role, _, rfl⟩
    | escape => cases hs
    | hex => cases hs
  | literal rest v =>
    match rest with
    | [] => cases hs
    | [c] =>
      simp only [stepMode] at hs
      split at hs
      · subst c
        exact absurd (h _ _ rfl _ List.mem_cons_self) (by decide)
      · cases hs
    | c :: d :: rest =>
      simp only [stepMode] at hs
      split at hs
      · subst c
        exact absurd (h _ _ rfl _ List.mem_cons_self) (by decide)
      · cases hs
  | number | afterItem | firstKey | nextKey | colon | afterField | done => cases hs

/-- An object text whose first key starts with a letter is an object also behind
other units: if the machine reads on into the key, a value was expected. -/
theorem starts_of_run_object {s s' : JsonState} (h : LiteralRest s) {c : UInt16}
    (hc : 0x61 ≤ c.toNat ∧ c.toNat ≤ 0x7A) {rest : JsString}
    (hs : s.run (0x7B :: 0x22 :: c :: rest) = some s') : ∃ stack, Starts s stack := by
  obtain ⟨t, ht, hs⟩ := Option.bind_eq_some_iff.mp hs
  rcases step_brace h ht with ⟨stack, hstarts, -⟩ | ⟨role, acc, hmode⟩
  · exact ⟨stack, hstarts⟩
  · -- the brace was inside a string: the quote closes it, and no letter follows
    exfalso
    obtain ⟨mode, stack⟩ := t
    subst hmode
    have hquote : step ⟨.string role acc .plain, stack⟩ 0x22
        = some (closeString stack acc role) := rfl
    have hs : run ⟨.string role acc .plain, stack⟩ (0x22 :: c :: rest) = some s' := hs
    rw [run_cons, hquote, Option.bind_some] at hs
    obtain ⟨t', ht', -⟩ := Option.bind_eq_some_iff.mp hs
    have hne : ∀ x : UInt16, x.toNat < 0x61 → c ≠ x := by
      rintro x hx rfl
      omega
    have hspace : isJsonSpace c = false := by
      simp [isJsonSpace, hne 0x20 (by decide), hne 0x09 (by decide), hne 0x0A (by decide),
        hne 0x0D (by decide)]
    cases role with
    | key before =>
      simp [closeString, step, stepMode, hspace, hne 0x3A (by decide)] at ht'
    | value =>
      have hclose : c ≠ 0x5D := hne 0x5D (by decide)
      have hbrace : c ≠ 0x7D := by
        rintro rfl
        exact absurd hc (by decide)
      rcases stack with _ | ⟨before | ⟨before, key⟩, stack⟩
      · simp [closeString, deliver, step, stepMode, hspace] at ht'
      · simp [closeString, deliver, step, stepMode, hspace, hclose, hne 0x2C (by decide)] at ht'
      · simp [closeString, deliver, step, stepMode, hspace, hbrace, hne 0x2C (by decide)] at ht'

/-- The machine is back where it began only if it has read nothing but spaces. -/
theorem run_to_init : ∀ {us : JsString} {s : JsonState}, s.run us = some init →
    s = init ∧ ∀ u ∈ us, isJsonSpace u = true
  | [], s, h => by
    cases h
    exact ⟨rfl, by simp⟩
  | u :: us, s, h => by
    obtain ⟨t, ht, hrest⟩ := Option.bind_eq_some_iff.mp h
    obtain ⟨rfl, hus⟩ := run_to_init hrest
    have hmoves : ∀ {r : JsonState}, Moves u r init → r = init ∧ isJsonSpace u = true := by
      intro r hm
      generalize hr : init = r' at hm
      have hdeliver : ∀ (v : Json) (stack : List JsonFrame), init ≠ deliver v stack := by
        intro v stack hd
        match stack with
        | [] | .item _ :: _ | .field _ _ :: _ => cases hd
      cases hm with
      | skip hspace => exact ⟨rfl, hspace⟩
      | firstItem hclose hm hspace =>
        subst hr
        cases hm
      | emptyArr | closeArr | emptyObj | closeObj | closeName => exact absurd hr (hdeliver _ _)
      | @closeString _ role =>
        cases role with
        | value => exact absurd hr (hdeliver _ _)
        | key => cases hr
      | _ => cases hr
    unfold step at ht
    split at ht
    · split at ht
      · cases ht
      split at ht
      · obtain ⟨hd, -⟩ := hmoves (moves_stepMode ht)
        rename_i a _ _ _
        match hstack : s.stack with
        | [] | .item _ :: _ | .field _ _ :: _ =>
          rw [hstack] at hd
          cases hd
      · cases ht
    · obtain ⟨rfl, hu⟩ := hmoves (moves_stepMode ht)
      exact ⟨rfl, List.forall_mem_cons.mpr ⟨hu, hus⟩⟩

theorem run_spaces : ∀ {us : JsString}, (∀ u ∈ us, isJsonSpace u = true) →
    init.run us = some init
  | [], _ => rfl
  | u :: us, h => by
    obtain ⟨hu, hus⟩ := List.forall_mem_cons.mp h
    have hstep : init.step u = some init := by simp [init, step, stepMode, hu]
    rw [run_cons, hstep, Option.bind_some, run_spaces hus]

end JsonState

namespace Json

/-- **A cut text.** If `p ++ r` can be read and `r` holds a closing brace, `p`
alone is no JSON text. -/
theorem parse_cut {p r : JsString} (h : (JsonState.init.run (p ++ r)).isSome)
    (hr : 0x7D ∈ r) : Json.parse p = none := by
  rw [JsonState.run_append] at h
  rw [Json.parse]
  cases hp : JsonState.init.run p with
  | none => rfl
  | some s =>
    rw [hp, Option.bind_some] at h
    rw [Option.bind_some]
    cases hfin : s.finish with
    | none => rfl
    | some v =>
      obtain ⟨s', hs'⟩ := Option.isSome_iff_exists.mp h
      have := (JsonState.final_of_finish hfin).run hs' 0x7D hr
      exact absurd this (by decide)

/-- A text with `U+FFFD` behind it is no JSON text. -/
theorem parse_replacement (p : JsString) : Json.parse (p ++ [0xFFFD]) = none := by
  rw [Json.parse, JsonState.run_append]
  cases hp : JsonState.init.run p with
  | none => rfl
  | some s =>
    have hlit := JsonState.literalRest_run JsonState.literalRest_init hp
    rw [Option.bind_some, JsonState.run_cons]
    cases hs : s.step 0xFFFD with
    | none => rfl
    | some s' =>
      rw [Option.bind_some, JsonState.run_nil, Option.bind_some]
      cases hfin : s'.finish with
      | none => rfl
      | some v =>
        exact absurd (JsonState.final_of_finish hfin) (JsonState.step_replacement hlit hs)

/-- The text of an object whose first key starts with the letter `c`. -/
theorem stringify_key {k : JsString} {c : UInt16} {ks : JsString} (hk : k = c :: ks)
    (hc : 0x61 ≤ c.toNat ∧ c.toNat ≤ 0x7A) (v : Json) (fields : List (JsString × Json)) :
    ∃ rest, stringify (.obj ((k, v) :: fields)) = 0x7B :: 0x22 :: c :: rest := by
  have hunit : ∀ x : UInt16, x.toNat < 0x61 → c ≠ x := by
    rintro x hx rfl
    omega
  have hself : quoteUnit c = [c] := by
    simp [quoteUnit, hunit 0x08 (by decide), hunit 0x09 (by decide), hunit 0x0A (by decide),
      hunit 0x0C (by decide), hunit 0x0D (by decide), hunit 0x22 (by decide),
      hunit 0x5C (by decide)]
    omega
  have hhi : isHighSurrogate c = false := by
    simp only [isHighSurrogate, Bool.and_eq_false_iff, decide_eq_false_iff_not]
    omega
  have hlo : isLowSurrogate c = false := by
    simp only [isLowSurrogate, Bool.and_eq_false_iff, decide_eq_false_iff_not]
    omega
  have hbody : ∃ more, quoteBody k = c :: more := by
    subst hk
    cases ks with
    | nil => exact ⟨[], by simp [quoteBody, hhi, hlo, hself]⟩
    | cons d ds => exact ⟨quoteBody (d :: ds), by simp [quoteBody, hhi, hlo, hself]⟩
  obtain ⟨more, hmore⟩ := hbody
  rw [stringify, stringifyField, PiMono.quote, hmore]
  exact ⟨_, rfl⟩

/-- **A text behind another.** An object whose first key starts with a letter,
written behind `t`, makes a JSON text only if `t` is nothing but spaces, and then
it is the object. -/
theorem parse_behind {t k : JsString} {c : UInt16} {ks : JsString} (hk : k = c :: ks)
    (hc : 0x61 ≤ c.toNat ∧ c.toNat ≤ 0x7A) {v : Json} {fields : List (JsString × Json)}
    (hwf : (Json.obj ((k, v) :: fields)).Wf) :
    Json.parse (t ++ stringify (.obj ((k, v) :: fields)))
      = if t.all isJsonSpace then some (.obj ((k, v) :: fields)) else none := by
  rw [Json.parse, JsonState.run_append]
  split
  · rename_i ht
    rw [JsonState.run_spaces (List.all_eq_true.mp ht), Option.bind_some]
    exact Json.parse_stringify hwf
  · rename_i ht
    cases hrun : JsonState.init.run t with
    | none => rfl
    | some s =>
      rw [Option.bind_some]
      have hlit := JsonState.literalRest_run JsonState.literalRest_init hrun
      cases hobj : s.run (stringify (.obj ((k, v) :: fields))) with
      | none => rfl
      | some s' =>
        obtain ⟨rest, hrest⟩ := stringify_key hk hc v fields
        have hobj' := hobj
        rw [hrest] at hobj'
        obtain ⟨stack, hstarts⟩ := JsonState.starts_of_run_object hlit hc hobj'
        obtain ⟨s'', hs'', hdel⟩ := JsonState.run_stringify _ hwf hstarts
        rw [hobj] at hs''
        obtain rfl := Option.some.inj hs''
        rw [Option.bind_some]
        rcases hdel with rfl | ⟨a, -, -, hnum⟩
        · rcases hstarts with rfl | ⟨below, rfl, rfl⟩
          · rcases stack with _ | ⟨before | ⟨before, key⟩, stack⟩
            · exact absurd (List.all_eq_true.mpr (JsonState.run_to_init hrun).2) ht
            · rfl
            · rfl
          · rfl
        · cases hnum

end Json

end PiMono
