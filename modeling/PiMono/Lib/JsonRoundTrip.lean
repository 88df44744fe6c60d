import PiMono.Lib.JsonText

/-!
# What is written reads back

`run_stringify` follows the machine over the text of a value: from a state that
expects a value it ends with the value delivered to the innermost open frame
(`Delivered`: up to a number, which only ends with the unit behind it).
`JsValue.parse_stringify` is the round trip.
-/

namespace PiMono

/-! ## Strings -/

namespace JsonState

theorem hexValue?_hexUnit {n : Nat} (h : n < 16) : hexValue? (hexUnit n) = some n := by
  have hall : ∀ k : Fin 16, hexValue? (hexUnit k.val) = some k.val := by decide
  exact hall ⟨n, h⟩

/-- An escaped unit reads as the unit. -/
theorem run_unicodeEscape (stack : List JsonFrame) (role : StringRole) (acc : JsString)
    (u : UInt16) (rest : JsString) :
    run ⟨.string role acc .plain, stack⟩ (unicodeEscape u ++ rest)
      = run ⟨.string role (acc ++ [u]) .plain, stack⟩ rest := by
  have hlt : u.toNat < 65536 := u.toNat_lt
  have h1 := hexValue?_hexUnit (n := u.toNat / 0x1000) (by omega)
  have h2 := hexValue?_hexUnit (n := u.toNat / 0x100 % 0x10) (by omega)
  have h3 := hexValue?_hexUnit (n := u.toNat / 0x10 % 0x10) (by omega)
  have h4 := hexValue?_hexUnit (n := u.toNat % 0x10) (by omega)
  have hu : (((u.toNat / 0x1000 * 0x10 + u.toNat / 0x100 % 0x10) * 0x10
      + u.toNat / 0x10 % 0x10) * 0x10 + u.toNat % 0x10).toUInt16 = u := by
    rw [← UInt16.toNat_inj, Nat.toUInt16_eq, UInt16.toNat_ofNat']
    omega
  have hfirst : (0 : Nat) * 0x10 + u.toNat / 0x1000 = u.toNat / 0x1000 := by omega
  simp only [unicodeEscape, List.cons_append, List.nil_append, run_cons, step, stepMode,
    stepString, h1, h2, h3, h4, if_true, Option.map_some, Option.bind_some, hfirst, hu,
    (by decide : ¬ (0x5C : UInt16) = 0x22), if_false]

/-- A quoted unit reads as the unit. -/
theorem run_quoteUnit (stack : List JsonFrame) (role : StringRole) (acc : JsString)
    (u : UInt16) (rest : JsString) :
    run ⟨.string role acc .plain, stack⟩ (quoteUnit u ++ rest)
      = run ⟨.string role (acc ++ [u]) .plain, stack⟩ rest := by
  have hescape : ∀ c : UInt16, c ≠ 0x75 → escaped? c = some u →
      run ⟨.string role acc .plain, stack⟩ ([0x5C, c] ++ rest)
        = run ⟨.string role (acc ++ [u]) .plain, stack⟩ rest := by
    intro c hc hu
    simp [step, stepMode, stepString, hc, hu]
  rw [quoteUnit]
  split
  · subst u; exact hescape 0x62 (by decide) (by decide)
  split
  · subst u; exact hescape 0x74 (by decide) (by decide)
  split
  · subst u; exact hescape 0x6E (by decide) (by decide)
  split
  · subst u; exact hescape 0x66 (by decide) (by decide)
  split
  · subst u; exact hescape 0x72 (by decide) (by decide)
  split
  · subst u; exact hescape 0x22 (by decide) (by decide)
  split
  · subst u; exact hescape 0x5C (by decide) (by decide)
  split
  · exact run_unicodeEscape stack role acc u rest
  · rename_i hquote hback hctrl
    simp [step, stepMode, stepString, hquote, hback, hctrl]

/-- A surrogate stands for itself between quotes. -/
theorem run_surrogate (stack : List JsonFrame) (role : StringRole) (acc : JsString)
    {u : UInt16} (hu : 0xD800 ≤ u.toNat) (rest : JsString) :
    run ⟨.string role acc .plain, stack⟩ (u :: rest)
      = run ⟨.string role (acc ++ [u]) .plain, stack⟩ rest := by
  have hquote : u ≠ 0x22 := by
    rintro rfl
    exact absurd hu (by decide)
  have hback : u ≠ 0x5C := by
    rintro rfl
    exact absurd hu (by decide)
  have hctrl : ¬ u.toNat < 0x20 := by omega
  simp [step, stepMode, stepString, hquote, hback, hctrl]

/-- The quoted form of a string reads as the string. -/
theorem run_quoteBody (stack : List JsonFrame) (role : StringRole) (rest : JsString) :
    ∀ (s acc : JsString), run ⟨.string role acc .plain, stack⟩ (quoteBody s ++ rest)
      = run ⟨.string role (acc ++ s) .plain, stack⟩ rest
  | [], acc => by rw [quoteBody, List.nil_append, List.append_nil]
  | [u], acc => by
    rw [quoteBody]
    split
    · exact run_unicodeEscape stack role acc u rest
    · exact run_quoteUnit stack role acc u rest
  | u :: v :: s, acc => by
    rw [quoteBody]
    split
    · rename_i hpair
      simp only [isHighSurrogate, isLowSurrogate, Bool.and_eq_true, decide_eq_true_eq] at hpair
      rw [List.cons_append, List.cons_append, run_surrogate stack role acc (by omega),
        run_surrogate stack role _ (by omega), run_quoteBody stack role rest s]
      simp
    split
    · rw [List.append_assoc, run_unicodeEscape, run_quoteBody stack role rest (v :: s)]
      simp
    · rw [List.append_assoc, run_quoteUnit, run_quoteBody stack role rest (v :: s)]
      simp

/-- From behind the opening quote, a quoted string is read and closed. -/
theorem run_quote (stack : List JsonFrame) (role : StringRole) (s rest : JsString) :
    run ⟨.string role [] .plain, stack⟩ (quoteBody s ++ 0x22 :: rest)
      = run (closeString stack s role) rest := by
  rw [run_quoteBody, List.nil_append, run_cons]
  simp [step, stepMode, stepString]

/-! ## Values -/

/-- The state in which `v` has just been read: it is delivered, or it is a number
that only the next unit ends. -/
def Delivered (v : Json) (stack : List JsonFrame) (s : JsonState) : Prop :=
  s = deliver v stack ∨
    ∃ a : NumAcc, s = ⟨.number a, stack⟩ ∧ a.complete = true ∧ v = .num a.value

/-- Behind a value, a unit that continues no number is read as behind the
delivered value. -/
theorem Delivered.step {v : Json} {stack : List JsonFrame} {s : JsonState}
    (h : Delivered v stack s) {u : UInt16} (hu : NumAcc.isNumberUnit u = false) :
    s.step u = (deliver v stack).step u := by
  rcases h with rfl | ⟨a, rfl, hcomplete, rfl⟩
  · rfl
  · have hnone := NumAcc.step_of_not_numberUnit hu a
    simp only [JsonState.step, hnone, hcomplete, if_true]
    match stack with
    | [] | .item _ :: _ | .field _ _ :: _ => rfl

theorem Delivered.finish {v : Json} {s : JsonState} (h : Delivered v [] s) :
    s.finish = some v := by
  rcases h with rfl | ⟨a, rfl, hcomplete, rfl⟩
  · rfl
  · simp [JsonState.finish, hcomplete]

/-- The rest of a literal name is read up to its end. -/
theorem run_literal (v : Json) (stack : List JsonFrame) : ∀ {rest : JsString}, rest ≠ [] →
    run ⟨.literal rest v, stack⟩ rest = some (deliver v stack)
  | [c], _ => by simp [JsonState.step, stepMode]
  | c :: d :: rest, _ => by
    have hstep : JsonState.step ⟨.literal (c :: d :: rest) v, stack⟩ c
        = some ⟨.literal (d :: rest) v, stack⟩ := by simp [JsonState.step, stepMode]
    rw [run_cons, hstep, Option.bind_some]
    exact run_literal v stack (List.cons_ne_nil d rest)

/-- A digit or a minus sign starts nothing but a number. -/
theorem startValue_number (stack : List JsonFrame) {u : UInt16} {a : NumAcc}
    (h : NumAcc.first u = some a) : startValue stack u = some ⟨.number a, stack⟩ := by
  have hne : ∀ c : UInt16, NumAcc.first c = none → u ≠ c := by
    rintro c hc rfl
    rw [h] at hc
    cases hc
  simp [startValue, h, hne 0x22 (by decide), hne 0x5B (by decide), hne 0x7B (by decide),
    hne 0x6E (by decide), hne 0x74 (by decide), hne 0x66 (by decide)]

theorem run_number (stack : List JsonFrame) : ∀ {us : JsString} {a b : NumAcc},
    a.run us = some b → run ⟨.number a, stack⟩ us = some ⟨.number b, stack⟩
  | [], a, b, h => by
    cases h
    rfl
  | u :: us, a, b, h => by
    obtain ⟨c, hc, hrest⟩ := Option.bind_eq_some_iff.mp h
    have hstep : step ⟨.number a, stack⟩ u = some ⟨.number c, stack⟩ := by
      simp [step, hc]
    rw [run_cons, hstep, Option.bind_some]
    exact run_number stack hrest

/-- A state in which a value starts with its first unit. -/
def Starts (s : JsonState) (stack : List JsonFrame) : Prop :=
  s = ⟨.value, stack⟩ ∨ ∃ below, s = ⟨.firstItem, below⟩ ∧ stack = .item [] :: below

theorem Starts.step {s : JsonState} {stack : List JsonFrame} (h : Starts s stack) {u : UInt16}
    (hspace : isJsonSpace u = false) (hclose : u ≠ 0x5D) : s.step u = startValue stack u := by
  rcases h with rfl | ⟨below, rfl, rfl⟩
  · simp [JsonState.step, stepMode, hspace]
  · simp [JsonState.step, stepMode, hspace, hclose]

/-- A number literal starts with a digit or a minus sign. -/
theorem first_not_space {u : UInt16} {a : NumAcc} (h : NumAcc.first u = some a) :
    isJsonSpace u = false ∧ u ≠ 0x5D := by
  have hne : ∀ c : UInt16, NumAcc.first c = none → u ≠ c := by
    rintro c hc rfl
    rw [h] at hc
    cases hc
  simp [isJsonSpace, hne 0x20 (by decide), hne 0x09 (by decide), hne 0x0A (by decide),
    hne 0x0D (by decide), hne 0x5D (by decide)]

mutual

/-- **The text of a value** is read as the value. -/
theorem run_stringify : ∀ (v : Json), v.Wf → ∀ {s : JsonState} {stack : List JsonFrame},
    Starts s stack → ∃ s', s.run v.stringify = some s' ∧ Delivered v stack s'
  | .null, _, s, stack, hs => by
    refine ⟨deliver .null stack, ?_, Or.inl rfl⟩
    have htext : Json.stringify .null = 0x6E :: js "ull" := by decide
    rw [htext, run_cons, hs.step (by decide) (by decide)]
    exact run_literal .null stack (by decide)
  | .bool true, _, s, stack, hs => by
    refine ⟨deliver (.bool true) stack, ?_, Or.inl rfl⟩
    have htext : Json.stringify (.bool true) = 0x74 :: js "rue" := by decide
    rw [htext, run_cons, hs.step (by decide) (by decide)]
    exact run_literal (.bool true) stack (by decide)
  | .bool false, _, s, stack, hs => by
    refine ⟨deliver (.bool false) stack, ?_, Or.inl rfl⟩
    have htext : Json.stringify (.bool false) = 0x66 :: js "alse" := by decide
    rw [htext, run_cons, hs.step (by decide) (by decide)]
    exact run_literal (.bool false) stack (by decide)
  | .num x, _, s, stack, hs => by
    obtain ⟨a, hread, hcomplete, hvalue⟩ := NumAcc.read_text x
    rw [Json.stringify]
    cases htext : x.text with
    | nil => rw [htext] at hread; cases hread
    | cons u us =>
      rw [htext] at hread
      obtain ⟨b, hfirst, hrest⟩ := Option.bind_eq_some_iff.mp hread
      obtain ⟨hspace, hclose⟩ := first_not_space hfirst
      refine ⟨⟨.number a, stack⟩, ?_, Or.inr ⟨a, rfl, hcomplete, by rw [hvalue]⟩⟩
      rw [run_cons, hs.step hspace hclose, startValue_number stack hfirst, Option.bind_some]
      exact run_number stack hrest
  | .str t, _, s, stack, hs => by
    refine ⟨deliver (.str t) stack, ?_, Or.inl rfl⟩
    have hquote : startValue stack 0x22 = some ⟨.string .value [] .plain, stack⟩ := rfl
    rw [Json.stringify, PiMono.quote, run_cons, hs.step (by decide) (by decide), hquote,
      Option.bind_some, run_quote, run_nil]
    rfl
  | .arr [], _, s, stack, hs => by
    refine ⟨deliver (.arr []) stack, ?_, Or.inl rfl⟩
    rw [Json.stringify, run_cons, hs.step (by decide) (by decide)]
    rfl
  | .arr (v :: vs), hwf, s, stack, hs => by
    refine ⟨deliver (.arr (v :: vs)) stack, ?_, Or.inl rfl⟩
    have hopen : startValue stack 0x5B = some ⟨.firstItem, stack⟩ := rfl
    obtain ⟨t, ht, hdel⟩ := run_stringify v (hwf.item v List.mem_cons_self)
      (Or.inr ⟨stack, rfl, rfl⟩ : Starts ⟨.firstItem, stack⟩ (.item [] :: stack))
    rw [Json.stringify, run_cons, hs.step (by decide) (by decide), hopen, Option.bind_some,
      run_append, ht, Option.bind_some]
    exact run_stringifyItems vs (fun w hw => hwf.item w (List.mem_cons_of_mem _ hw)) [v] hdel rfl
  | .obj [], _, s, stack, hs => by
    refine ⟨deliver (.obj []) stack, ?_, Or.inl rfl⟩
    rw [Json.stringify, run_cons, hs.step (by decide) (by decide)]
    rfl
  | .obj ((k, v) :: fs), hwf, s, stack, hs => by
    refine ⟨deliver (.obj ((k, v) :: fs)) stack, ?_, Or.inl rfl⟩
    have hopen : startValue stack 0x7B = some ⟨.firstKey, stack⟩ := rfl
    have hkey : step ⟨.firstKey, stack⟩ 0x22 = some ⟨.string (.key []) [] .plain, stack⟩ := rfl
    have hcolon : step (closeString stack k (.key [])) 0x3A
        = some ⟨.value, .field [] k :: stack⟩ := rfl
    obtain ⟨t, ht, hdel⟩ := run_stringify v (hwf.field (k, v) List.mem_cons_self)
      (Or.inl rfl : Starts ⟨.value, .field [] k :: stack⟩ (.field [] k :: stack))
    rw [Json.stringify, run_cons, hs.step (by decide) (by decide), hopen, Option.bind_some,
      Json.stringifyField, PiMono.quote, List.cons_append, List.cons_append, run_cons, hkey,
      Option.bind_some, List.append_assoc, List.append_assoc, List.singleton_append,
      run_quote, List.cons_append, run_cons, hcolon, Option.bind_some, run_append, ht,
      Option.bind_some]
    exact run_stringifyFields fs [(k, v)] hwf hdel rfl

theorem run_stringifyItems : ∀ (vs : List Json), (∀ v ∈ vs, v.Wf) → ∀ (before : List Json)
    {s : JsonState} {v : Json} {stack : List JsonFrame} {items : List Json},
    Delivered v (.item items :: stack) s → before = items ++ [v] →
    s.run (Json.stringifyItems vs ++ [0x5D]) = some (deliver (.arr (before ++ vs)) stack)
  | [], _, before, s, v, stack, items, hdel, hbefore => by
    rw [Json.stringifyItems, List.nil_append, run_cons, hdel.step (by decide), hbefore,
      List.append_nil]
    rfl
  | w :: ws, hwf, before, s, v, stack, items, hdel, hbefore => by
    obtain ⟨t, ht, hdel'⟩ := run_stringify w (hwf w List.mem_cons_self)
      (Or.inl rfl : Starts ⟨.value, .item before :: stack⟩ (.item before :: stack))
    have hcomma : step (deliver v (.item items :: stack)) 0x2C
        = some ⟨.value, .item before :: stack⟩ := by rw [hbefore]; rfl
    rw [Json.stringifyItems, List.cons_append, run_cons, hdel.step (by decide), hcomma,
      Option.bind_some, List.append_assoc, run_append, ht, Option.bind_some]
    have hrest := run_stringifyItems ws (fun x hx => hwf x (List.mem_cons_of_mem _ hx))
      (before ++ [w]) hdel' rfl
    rw [hrest, List.append_assoc, List.singleton_append]

theorem run_stringifyFields : ∀ (fs : List (JsString × Json)) (before : List (JsString × Json)),
    (Json.obj (before ++ fs)).Wf → ∀ {s : JsonState} {v : Json} {k : JsString}
    {stack : List JsonFrame} {fields : List (JsString × Json)},
    Delivered v (.field fields k :: stack) s → setField fields k v = before →
    s.run (Json.stringifyFields fs ++ [0x7D]) = some (deliver (.obj (before ++ fs)) stack)
  | [], before, _, s, v, k, stack, fields, hdel, hbefore => by
    rw [Json.stringifyFields, List.nil_append, run_cons, hdel.step (by decide), ← hbefore,
      List.append_nil]
    rfl
  | (j, w) :: fs, before, hwf, s, v, k, stack, fields, hdel, hbefore => by
    have hcomma : step (deliver v (.field fields k :: stack)) 0x2C
        = some ⟨.nextKey before, stack⟩ := by rw [← hbefore]; rfl
    have hkey : step ⟨.nextKey before, stack⟩ 0x22
        = some ⟨.string (.key before) [] .plain, stack⟩ := rfl
    have hcolon : step (closeString stack j (.key before)) 0x3A
        = some ⟨.value, .field before j :: stack⟩ := rfl
    have hnew : j ∉ before.map Prod.fst := by
      intro hmem
      have hnodup := hwf.nodup
      rw [List.map_append, List.map_cons] at hnodup
      exact (List.nodup_append.mp hnodup).2.2 j hmem j List.mem_cons_self rfl
    obtain ⟨t, ht, hdel'⟩ := run_stringify w (hwf.field (j, w) (by simp))
      (Or.inl rfl : Starts ⟨.value, .field before j :: stack⟩ (.field before j :: stack))
    have hrest := run_stringifyFields fs (before ++ [(j, w)])
      (by rwa [List.append_assoc, List.singleton_append]) hdel' (setField_of_notMem w hnew)
    rw [Json.stringifyFields, List.cons_append, run_cons, hdel.step (by decide), hcomma,
      Option.bind_some, Json.stringifyField, PiMono.quote, List.cons_append, List.cons_append,
      List.cons_append, run_cons, hkey, Option.bind_some, List.append_assoc, List.append_assoc,
      List.append_assoc, List.singleton_append, run_quote, List.cons_append, run_cons, hcolon,
      Option.bind_some, run_append, ht, Option.bind_some, hrest, List.append_assoc,
      List.singleton_append]

end

end JsonState

/-- **JSON round trip**: parsing the text of a value gives the value. -/
theorem Json.parse_stringify {v : Json} (h : v.Wf) : Json.parse v.stringify = some v := by
  obtain ⟨s, hs, hdel⟩ := JsonState.run_stringify v h (Or.inl rfl : JsonState.Starts .init [])
  rw [Json.parse, hs, Option.bind_some, hdel.finish]

@[simp] theorem JsValue.parse_stringify (v : JsValue) : JsValue.parse v.stringify = some v :=
  JsValue.parse_eq_some.mpr (Json.parse_stringify v.wf)

end PiMono
