import PiMono.Ai.JsonRepair

/-!
# Texts that repair makes JSON

Valid JSON and the scanner agree on where strings begin and end (`Follows`), so a valid text is
left as it is, and a text that only has control characters and stray backslashes too many is read.
-/

namespace PiMono.Ai

/-! ## The scanner and the grammar -/

/-- The scanner knows whether a string is open. -/
def Follows (inString : Bool) (s : JsonState) : Prop :=
  match inString with
  | true => ∃ role acc stack, s = ⟨.string role acc .plain, stack⟩
  | false => s.LiteralRest ∧ ∀ role acc phase, s.mode ≠ .string role acc phase

theorem follows_init : Follows false .init :=
  ⟨JsonState.literalRest_init, fun _ _ _ h => nomatch h⟩

theorem follows_deliver (v : Json) (stack : List JsonFrame) :
    Follows false (.deliver v stack) := by
  refine ⟨JsonState.literalRest_deliver v stack, fun role acc phase h => ?_⟩
  match stack with
  | [] | .item _ :: _ | .field _ _ :: _ => cases h

theorem follows_closeString (stack : List JsonFrame) (s : JsString) (role : StringRole) :
    Follows false (.closeString stack s role) := by
  cases role with
  | value => exact follows_deliver _ _
  | key before => exact ⟨nofun, nofun⟩

/-- Outside of strings only a quote opens one. -/
theorem mode_moves {u : UInt16} {s s' : JsonState} (hs : JsonState.Moves u s s')
    (h : ∀ role acc phase, s.mode ≠ .string role acc phase) (hquote : u ≠ quotationMark) :
    ∀ role acc phase, s'.mode ≠ .string role acc phase := by
  induction hs with
  | skip => exact h
  | quote hu | firstKey hu | nextKey hu => exact absurd hu hquote
  | firstItem _ _ _ ih => exact ih nofun
  | emptyArr | closeArr | emptyObj | closeObj | closeName => exact (follows_deliver _ _).2
  | inString => exact absurd rfl (h _ _ _)
  | closeString => exact absurd rfl (h _ _ _)
  | _ => exact fun _ _ _ h => nomatch h

/-- Outside of strings a quote opens one. -/
theorem quote_moves {u : UInt16} {s s' : JsonState} (hs : JsonState.Moves u s s')
    (h : Follows false s) (hquote : u = quotationMark) : Follows true s' := by
  obtain ⟨hletters, hmode⟩ := h
  have hletter : ∀ {c : UInt16}, 0x61 ≤ c.toNat ∧ c.toNat ≤ 0x7A → c ≠ quotationMark := by
    rintro c hc rfl
    exact absurd hc (by decide)
  induction hs with
  | skip hspace => rw [hquote] at hspace; exact absurd hspace (by decide)
  | quote | firstKey | nextKey => exact ⟨_, _, _, rfl⟩
  | firstItem _ _ _ ih => exact ih nofun nofun
  | name _ _ hu => exact absurd hquote (hletter hu)
  | digit hu => rw [hquote] at hu; cases hu
  | inString => exact absurd rfl (hmode _ _ _)
  | closeString => exact absurd rfl (hmode _ _ _)
  | inName | closeName => exact absurd hquote (hletter (hletters _ _ rfl _ List.mem_cons_self))
  | openArr hu | openObj hu | emptyArr hu | nextItem hu | closeArr hu | emptyObj hu | colon hu
  | nextField hu | closeObj hu => rw [hquote] at hu; exact absurd hu (by decide)

/-- A unit outside of strings. -/
theorem Follows.step {s s' : JsonState} {u : UInt16} (h : Follows false s)
    (hs : s.step u = some s') : Follows (u == quotationMark) s' := by
  have hmoves : ∀ {t : JsonState}, Follows false t → t.stepMode u = some s' →
      Follows (u == quotationMark) s' := by
    intro t ht hstep
    have hmove := JsonState.moves_stepMode hstep
    cases hu : u == quotationMark with
    | true => exact quote_moves hmove ht (by simpa using hu)
    | false =>
      exact ⟨JsonState.literalRest_moves hmove ht.1,
        mode_moves hmove ht.2 (by simpa using hu)⟩
  unfold JsonState.step at hs
  split at hs
  · rename_i a hmode
    split at hs
    · rename_i a' ha
      cases hs
      have hu : (u == quotationMark) = false := by
        rw [beq_eq_false_iff_ne]
        rintro rfl
        rw [NumAcc.step_of_not_numberUnit (by decide)] at ha
        cases ha
      rw [hu]
      exact ⟨nofun, nofun⟩
    split at hs
    · exact hmoves (follows_deliver _ _) hs
    · cases hs
  · exact hmoves h hs

/-- The text of an open escape never ends a text. -/
theorem not_accepts_string {role : StringRole} {acc : JsString} {phase : StringPhase}
    {stack : List JsonFrame} : ¬ JsonState.Accepts ⟨.string role acc phase, stack⟩ [] := by
  rintro ⟨t, v, hrun, hfinish⟩
  cases hrun
  cases hfinish

theorem accepts_cons {s : JsonState} {u : UInt16} {us : JsString} :
    s.Accepts (u :: us) ↔ ∃ t, s.step u = some t ∧ t.Accepts us := by
  rw [← List.singleton_append, JsonState.accepts_append]
  simp only [JsonState.run_cons, JsonState.run_nil, Option.bind_eq_some_iff, Option.some.injEq,
    exists_eq_right]

/-- Behind `\u` four digits follow. -/
theorem hexDigits_of_accepts {role : StringRole} {acc : JsString} {stack : List JsonFrame}
    (n : Nat) : ∀ {value : Nat} {text : JsString},
      JsonState.Accepts ⟨.string role acc (.hex n value), stack⟩ text →
      hexDigits (n + 1) text = true := by
  induction n with
  | zero =>
    intro value text h
    cases text with
    | nil => exact absurd h not_accepts_string
    | cons u us =>
      obtain ⟨t, ht, -⟩ := accepts_cons.mp h
      obtain ⟨d, hd, -⟩ := Option.map_eq_some_iff.mp ht
      simp [hexDigits, isHexDigit, hd]
  | succ n ih =>
    intro value text h
    cases text with
    | nil => exact absurd h not_accepts_string
    | cons u us =>
      obtain ⟨t, ht, haccepts⟩ := accepts_cons.mp h
      obtain ⟨d, hd, rfl⟩ := Option.map_eq_some_iff.mp ht
      rw [hexDigits, ih haccepts]
      simp [isHexDigit, hd]

theorem escaped?_isSome (u : UInt16) : (escaped? u).isSome = true ↔ u ∈ js "\"\\/bfnrt" := by
  have hlist : js "\"\\/bfnrt" = [0x22, 0x5C, 0x2F, 0x62, 0x66, 0x6E, 0x72, 0x74] := by decide
  rw [hlist]
  simp only [escaped?, List.mem_cons, List.not_mem_nil, or_false]
  repeat' split
  all_goals simp_all

theorem mem_validJsonEscapes (u : UInt16) :
    u ∈ validJsonEscapes ↔ u ∈ js "\"\\/bfnrt" ∨ u = 0x75 := by
  have hlist : validJsonEscapes = js "\"\\/bfnrt" ++ [0x75] := by decide
  rw [hlist, List.mem_append, List.mem_singleton]

/-- One piece of a valid text: it is valid, and is read in one go. -/
theorem Follows.piece {inString : Bool} {piece : JsonPiece} {rest : JsString} {s : JsonState}
    (h : Follows inString s) (hfits : piece.Fits inString rest)
    (haccepts : s.Accepts (piece.text ++ rest)) :
    piece.isValid = true ∧
      ∃ t, s.run piece.text = some t ∧ Follows piece.inside t ∧ t.Accepts rest := by
  obtain ⟨t, hrun, hrest⟩ := JsonState.accepts_append.mp haccepts
  have hne : backslash ≠ 0x22 := by decide
  have hescape : ∀ (role : StringRole) (acc : JsString) (stack : List JsonFrame) (us : JsString),
      JsonState.run ⟨.string role acc .plain, stack⟩ (backslash :: us) =
        JsonState.run ⟨.string role acc .escape, stack⟩ us := fun role acc stack us => rfl
  have hu : ∀ (role : StringRole) (acc : JsString) (stack : List JsonFrame) (us : JsString),
      JsonState.run ⟨.string role acc .escape, stack⟩ (0x75 :: us) =
        JsonState.run ⟨.string role acc (.hex 3 0), stack⟩ us := fun role acc stack us => rfl
  cases piece with
  | outside char =>
    obtain ⟨rfl, hquote⟩ := hfits
    have hstep : s.step char = some t := by simpa [JsonPiece.text] using hrun
    have hfollows := h.step hstep
    rw [beq_eq_false_iff_ne.mpr hquote] at hfollows
    exact ⟨rfl, t, hrun, hfollows, hrest⟩
  | opening =>
    obtain rfl : inString = false := hfits
    have hstep : s.step quotationMark = some t := by simpa [JsonPiece.text] using hrun
    have hfollows := h.step hstep
    rw [beq_self_eq_true] at hfollows
    exact ⟨rfl, t, hrun, hfollows, hrest⟩
  | closing =>
    obtain rfl : inString = true := hfits
    obtain ⟨role, acc, stack, rfl⟩ := h
    cases hrun
    exact ⟨rfl, _, rfl, follows_closeString _ _ _, hrest⟩
  | plain char =>
    obtain ⟨rfl, hquote, hback⟩ := hfits
    obtain ⟨role, acc, stack, rfl⟩ := h
    have hstep : JsonState.step ⟨.string role acc .plain, stack⟩ char = some t := by
      simpa [JsonPiece.text] using hrun
    simp only [JsonState.step, JsonState.stepMode, JsonState.stepString] at hstep
    rw [if_neg (show ¬ char = 0x22 from hquote), if_neg (show ¬ char = 0x5C from hback)] at hstep
    split at hstep
    · cases hstep
    · rename_i hcontrol
      refine ⟨?_, t, hrun, ?_, hrest⟩
      · have hle : ¬ char ≤ 0x1F := fun hle => hcontrol (by
          have := UInt16.le_iff_toNat_le.mp hle
          exact Nat.lt_succ_of_le this)
        simp [JsonPiece.isValid, isControlCharacter, hle]
      · cases hstep
        exact ⟨_, _, _, rfl⟩
  | escape char =>
    obtain ⟨rfl, -, hother⟩ := hfits
    obtain ⟨role, acc, stack, rfl⟩ := h
    refine ⟨rfl, t, hrun, ?_, hrest⟩
    rw [JsonPiece.text, hescape] at hrun
    have hstep : JsonState.step ⟨.string role acc .escape, stack⟩ char = some t := by
      simpa using hrun
    simp only [JsonState.step, JsonState.stepMode, JsonState.stepString] at hstep
    rw [if_neg hother] at hstep
    obtain ⟨v, -, rfl⟩ := Option.map_eq_some_iff.mp hstep
    exact ⟨_, _, _, rfl⟩
  | unicode d₁ d₂ d₃ d₄ =>
    obtain ⟨rfl, hdigits⟩ := hfits
    obtain ⟨role, acc, stack, rfl⟩ := h
    refine ⟨rfl, t, hrun, ?_, hrest⟩
    rw [JsonPiece.text, hescape, hu] at hrun
    simp only [hexDigits, isHexDigit, Bool.and_eq_true, and_true, Option.isSome_iff_exists]
      at hdigits
    obtain ⟨⟨v₁, h₁⟩, ⟨v₂, h₂⟩, ⟨v₃, h₃⟩, v₄, h₄⟩ := hdigits
    simp only [JsonState.run_cons, JsonState.run_nil, JsonState.step, JsonState.stepMode,
      JsonState.stepString, h₁, h₂, h₃, h₄, Option.map_some, Option.bind_some] at hrun
    cases hrun
    exact ⟨_, _, _, rfl⟩
  | openUnicode =>
    obtain ⟨rfl, hdigits⟩ := hfits
    obtain ⟨role, acc, stack, rfl⟩ := h
    rw [JsonPiece.text, hescape, hu] at hrun
    cases hrun
    rw [hexDigits_of_accepts 3 hrest] at hdigits
    cases hdigits
  | stray =>
    obtain ⟨rfl, hvalid⟩ := hfits
    obtain ⟨role, acc, stack, rfl⟩ := h
    rw [JsonPiece.text, hescape] at hrun
    cases hrun
    cases rest with
    | nil => exact absurd hrest not_accepts_string
    | cons u us =>
      obtain ⟨t, ht, -⟩ := accepts_cons.mp hrest
      have hno := (mem_validJsonEscapes u).not.mp (hvalid u rfl)
      rw [not_or] at hno
      simp only [JsonState.step, JsonState.stepMode, JsonState.stepString] at ht
      rw [if_neg hno.2] at ht
      obtain ⟨v, hv, -⟩ := Option.map_eq_some_iff.mp ht
      exact absurd ((escaped?_isSome u).mp (by rw [hv]; rfl)) hno.1

/-- A valid text has valid pieces only. -/
theorem Follows.pieces_valid {inString : Bool} {text : JsString} {s : JsonState}
    (h : Follows inString s) (haccepts : s.Accepts text) :
    ∀ piece ∈ pieces inString text, piece.isValid = true := by
  refine pieces_induction (P := fun inString text => ∀ s, Follows inString s → s.Accepts text →
    ∀ piece ∈ pieces inString text, piece.isValid = true) ?_ ?_ inString text s h haccepts
  · intro inString s h haccepts piece hpiece
    rw [pieces] at hpiece
    exact absurd hpiece List.not_mem_nil
  · intro inString piece rest hfits ih s h haccepts
    obtain ⟨hvalid, t, -, hfollows, hrest⟩ := h.piece hfits haccepts
    rw [pieces_append hfits, List.forall_mem_cons]
    exact ⟨hvalid, ih t hfollows hrest⟩

theorem repaired_of_isValid {piece : JsonPiece} (h : piece.isValid = true) :
    piece.repaired = piece.text := by
  cases piece with
  | plain char =>
    have hcontrol : isControlCharacter char = false := by simpa [JsonPiece.isValid] using h
    simp [JsonPiece.repaired, hcontrol, JsonPiece.text]
  | stray => cases h
  | _ => rfl

theorem flatMap_text (inString : Bool) (text : JsString) :
    (pieces inString text).flatMap JsonPiece.text = text := by
  refine pieces_induction (P := fun inString text =>
    (pieces inString text).flatMap JsonPiece.text = text) ?_ ?_ _ _
  · intro inString
    rw [pieces]
    rfl
  · intro inString piece rest hfits ih
    rw [pieces_append hfits, List.flatMap_cons, ih]

/-- Valid JSON is not changed. -/
theorem repairJson_of_valid {json : JsString} (h : JsonState.init.Accepts json) :
    repairJson json = json := by
  have hvalid := follows_init.pieces_valid h
  rw [repairJson, repairFrom_eq]
  calc (pieces false json).flatMap JsonPiece.repaired
      = (pieces false json).flatMap JsonPiece.text :=
        List.flatMap_congr fun piece hpiece => repaired_of_isValid (hvalid piece hpiece)
    _ = json := flatMap_text false json

/-! ## Damaged texts -/

/-- The text begins with what makes a valid escape behind a backslash. -/
def formsEscape : JsString → Bool
  | [] => false
  | char :: rest => char ∈ js "\"\\/bfnrt" || char == 0x75 && hexDigits 4 rest

/-- A text, and the same with more control characters and stray backslashes inside of strings. -/
inductive Damaged : Bool → JsString → JsString → Prop
  | nil (inString : Bool) : Damaged inString [] []
  | piece {inString : Bool} {piece : JsonPiece} {text damaged : JsString} :
    piece.Fits inString text → Damaged piece.inside text damaged →
    Damaged inString (piece.text ++ text) (piece.text ++ damaged)
  | control {char : UInt16} {text damaged : JsString} : isControlCharacter char = true →
    Damaged true text damaged → Damaged true text (char :: damaged)
  | stray {text damaged : JsString} : formsEscape damaged = false →
    Damaged true text damaged → Damaged true text (backslash :: damaged)

/-- A valid piece is read in front of any text. -/
theorem fits_of_isValid {inString : Bool} {piece : JsonPiece} {rest rest' : JsString}
    (hvalid : piece.isValid = true) (h : piece.Fits inString rest) : piece.Fits inString rest' := by
  cases piece with
  | openUnicode | stray => cases hvalid
  | _ => exact h

theorem fits_control {char : UInt16} (h : isControlCharacter char = true) (rest : JsString) :
    (JsonPiece.plain char).Fits true rest := by
  refine ⟨rfl, ?_, ?_⟩ <;> (rintro rfl; exact absurd h (by decide))

/-- A backslash that is too much is a stray one, or stands in front of `u` without its digits. -/
theorem scan_backslash {rest : JsString} (h : formsEscape rest = false) :
    JsonPiece.stray.Fits true rest ∨
      ∃ behind, rest = 0x75 :: behind ∧ JsonPiece.openUnicode.Fits true behind := by
  cases rest with
  | nil => exact Or.inl ⟨rfl, nofun⟩
  | cons char behind =>
    obtain ⟨hno, hdigits⟩ := Bool.or_eq_false_iff.mp h
    by_cases hu : char = 0x75
    · subst hu
      exact Or.inr ⟨behind, rfl, rfl, hdigits⟩
    · refine Or.inl ⟨rfl, ?_⟩
      rintro _ ⟨⟩
      rw [mem_validJsonEscapes, not_or]
      exact ⟨of_decide_eq_false hno, hu⟩

theorem escapeControlCharacter_eq {char : UInt16} (h : isControlCharacter char = true) :
    escapeControlCharacter char = quoteUnit char := by
  have hlt : char.toNat < 0x20 :=
    Nat.lt_succ_of_le (UInt16.le_iff_toNat_le.mp (of_decide_eq_true h))
  have hquote : char ≠ 0x22 := by rintro rfl; exact absurd hlt (by decide)
  have hback : char ≠ 0x5C := by rintro rfl; exact absurd hlt (by decide)
  unfold escapeControlCharacter quoteUnit
  rw [if_neg hquote, if_neg hback, if_pos hlt]
  repeat' split
  all_goals first | rfl | simp_all

theorem follows_alike {s t : JsonState} (h : Follows true s) (halike : s.Alike t) :
    ∃ role acc stack, t = ⟨.string role acc .plain, stack⟩ := by
  obtain ⟨role, acc, stack, rfl⟩ := h
  obtain ⟨mode, stack'⟩ := t
  have hmode : JsonMode.shape (.string role acc .plain) = mode.shape :=
    congrArg JsonState.mode halike
  match mode, hmode with
  | .string role' acc' phase, hmode =>
    have hphase : StringPhase.shape .plain = phase.shape := (JsonMode.string.inj hmode).2.2
    match phase, hphase with
    | .plain, _ => exact ⟨role', acc', stack', rfl⟩

/-- One more unit in a string changes nothing of the shape. -/
theorem alike_push {s : JsonState} {role : StringRole} {acc : JsString} (acc' : JsString)
    {stack : List JsonFrame} (h : s.Alike ⟨.string role acc .plain, stack⟩) :
    s.Alike ⟨.string role acc' .plain, stack⟩ := h

/-- Behind a valid text the scanner is outside of strings, also where the text is damaged. -/
theorem Damaged.ends {inString : Bool} {text damaged : JsString}
    (h : Damaged inString text damaged) : ∀ {s : JsonState}, Follows inString s → s.Accepts text →
      (pieces inString damaged).foldl (fun _ piece => piece.inside) inString = false := by
  induction h with
  | nil inString =>
    intro s hfollows haccepts
    rw [pieces]
    cases inString with
    | false => rfl
    | true =>
      obtain ⟨role, acc, stack, rfl⟩ := hfollows
      exact absurd haccepts not_accepts_string
  | piece hfits _ ih =>
    intro s hfollows haccepts
    obtain ⟨hvalid, t, -, hnext, hrest⟩ := hfollows.piece hfits haccepts
    rw [pieces_append (fits_of_isValid hvalid hfits), List.foldl_cons]
    exact ih hnext hrest
  | @control char text damaged hcontrol _ ih =>
    intro s hfollows haccepts
    have hpieces := pieces_append (fits_control hcontrol damaged)
    rw [show char :: damaged = (JsonPiece.plain char).text ++ damaged from rfl, hpieces,
      List.foldl_cons]
    exact ih hfollows haccepts
  | @stray text damaged hforms _ ih =>
    intro s hfollows haccepts
    rcases scan_backslash hforms with hstray | ⟨behind, rfl, hopen⟩
    · rw [show backslash :: damaged = JsonPiece.stray.text ++ damaged from rfl,
        pieces_append hstray, List.foldl_cons]
      exact ih hfollows haccepts
    · have hplain : (JsonPiece.plain 0x75).Fits true behind := ⟨rfl, by decide, by decide⟩
      have hends := ih hfollows haccepts
      rw [show (0x75 : UInt16) :: behind = (JsonPiece.plain 0x75).text ++ behind from rfl,
        pieces_append hplain, List.foldl_cons] at hends
      rw [show backslash :: 0x75 :: behind = JsonPiece.openUnicode.text ++ behind from rfl,
        pieces_append hopen, List.foldl_cons]
      exact hends

/-- The repair takes the damage away again, unless it is `\u` without its digits. -/
theorem Damaged.accepts {inString : Bool} {text damaged : JsString}
    (h : Damaged inString text damaged) (hno : .openUnicode ∉ pieces inString damaged) :
    ∀ {s t : JsonState}, Follows inString s → s.Alike t → s.Accepts text →
      t.Accepts (repairFrom inString damaged) := by
  induction h with
  | nil inString =>
    intro s t _ halike haccepts
    rw [repairFrom_eq, pieces]
    exact haccepts.alike halike
  | @piece inString piece text damaged hfits _ ih =>
    intro s t hfollows halike haccepts
    obtain ⟨hvalid, s', hrun, hnext, hrest⟩ := hfollows.piece hfits haccepts
    have hfits' : piece.Fits inString damaged := fits_of_isValid hvalid hfits
    rw [pieces_append hfits', List.mem_cons, not_or] at hno
    have hshape := JsonState.shape_run piece.text halike
    rw [hrun, Option.map_some, eq_comm, Option.map_eq_some_iff] at hshape
    obtain ⟨t', ht, halike'⟩ := hshape
    rw [repairFrom_append hfits', repaired_of_isValid hvalid, JsonState.accepts_append]
    exact ⟨t', ht, ih hno.2 hnext halike'.symm hrest⟩
  | @control char text damaged hcontrol _ ih =>
    intro s t hfollows halike haccepts
    have hfits := fits_control hcontrol damaged
    have htext : char :: damaged = (JsonPiece.plain char).text ++ damaged := rfl
    rw [htext, pieces_append hfits, List.mem_cons, not_or] at hno
    obtain ⟨role, acc, stack, rfl⟩ := follows_alike hfollows halike
    obtain ⟨t', v, hrun, hfinish⟩ := ih hno.2 hfollows
      (alike_push (acc ++ [char]) halike) haccepts
    rw [htext, repairFrom_append hfits, JsonPiece.repaired, if_pos hcontrol,
      escapeControlCharacter_eq hcontrol]
    exact ⟨t', v, (JsonState.run_quoteUnit stack role acc char _).trans hrun, hfinish⟩
  | @stray text damaged hforms _ ih =>
    intro s t hfollows halike haccepts
    rcases scan_backslash hforms with hstray | ⟨behind, rfl, hopen⟩
    · have htext : backslash :: damaged = JsonPiece.stray.text ++ damaged := rfl
      rw [htext, pieces_append hstray, List.mem_cons, not_or] at hno
      obtain ⟨role, acc, stack, rfl⟩ := follows_alike hfollows halike
      obtain ⟨t', v, hrun, hfinish⟩ := ih hno.2 hfollows
        (alike_push (acc ++ [backslash]) halike) haccepts
      rw [htext, repairFrom_append hstray]
      exact ⟨t', v, hrun, hfinish⟩
    · rw [show backslash :: 0x75 :: behind = JsonPiece.openUnicode.text ++ behind from rfl,
        pieces_append hopen] at hno
      exact absurd List.mem_cons_self hno

/-! ## Every literal of such a text is closed -/

/-- In a string that is open now, or in a closed literal further on. -/
theorem closedLiteral_of_ends (inString : Bool) (text : JsString) :
    (pieces inString text).foldl (fun _ piece => piece.inside) inString = false →
      (inString = true → ∃ body behind, .closing ∉ body ∧
        pieces inString text = body ++ .closing :: behind) ∧
      (.openUnicode ∈ pieces inString text →
        (inString = true ∧ ∃ body behind, .closing ∉ body ∧ .openUnicode ∈ body ∧
          pieces inString text = body ++ .closing :: behind) ∨
        ∃ body, ClosedLiteral (pieces inString text) body ∧ .openUnicode ∈ body) := by
  refine pieces_induction (P := fun inString text =>
    (pieces inString text).foldl (fun _ piece => piece.inside) inString = false →
      (inString = true → ∃ body behind, .closing ∉ body ∧
        pieces inString text = body ++ .closing :: behind) ∧
      (.openUnicode ∈ pieces inString text →
        (inString = true ∧ ∃ body behind, .closing ∉ body ∧ .openUnicode ∈ body ∧
          pieces inString text = body ++ .closing :: behind) ∨
        ∃ body, ClosedLiteral (pieces inString text) body ∧ .openUnicode ∈ body)) ?_ ?_
          inString text
  · intro inString hends
    rw [pieces] at hends ⊢
    refine ⟨fun htrue => ?_, fun hmem => absurd hmem List.not_mem_nil⟩
    rw [htrue] at hends
    cases hends
  · intro inString piece rest hfits ih hends
    rw [pieces_append hfits, List.foldl_cons] at hends
    obtain ⟨hclosed, hopen⟩ := ih hends
    rw [pieces_append hfits]
    -- a literal further on
    have hfurther : ∀ {body : List JsonPiece}, ClosedLiteral (pieces piece.inside rest) body →
        ClosedLiteral (piece :: pieces piece.inside rest) body := by
      rintro body ⟨hbody, front, behind, heq⟩
      exact ⟨hbody, piece :: front, behind, by rw [heq]; rfl⟩
    by_cases hclosing : piece = .closing
    · subst hclosing
      refine ⟨fun _ => ⟨[], _, List.not_mem_nil, rfl⟩, fun hmem => ?_⟩
      rcases List.mem_cons.mp hmem with heq | hmem
      · cases heq
      rcases hopen hmem with ⟨hfalse, -⟩ | ⟨body, hbody, hin⟩
      · cases hfalse
      · exact Or.inr ⟨body, hfurther hbody, hin⟩
    by_cases hopening : piece = .opening
    · subst hopening
      refine ⟨fun htrue => absurd hfits (by rw [htrue]; exact fun h => by cases h), fun hmem => ?_⟩
      rcases List.mem_cons.mp hmem with heq | hmem
      · cases heq
      rcases hopen hmem with ⟨-, body, behind, hbody, hin, heq⟩ | ⟨body, hbody, hin⟩
      · refine Or.inr ⟨body, ⟨hbody, [], behind, ?_⟩, hin⟩
        rw [heq]
        rfl
      · exact Or.inr ⟨body, hfurther hbody, hin⟩
    cases hinside : piece.inside with
    | false =>
      have hfalse : inString = false := by
        cases piece with
        | outside char => exact hfits.1
        | closing => exact absurd rfl hclosing
        | _ => cases hinside
      rw [hinside] at hopen hfurther
      refine ⟨fun htrue => absurd (hfalse.symm.trans htrue) Bool.false_ne_true, fun hmem => ?_⟩
      rcases List.mem_cons.mp hmem with rfl | hmem
      · cases hinside
      rcases hopen hmem with ⟨hfalse, -⟩ | ⟨body, hbody, hin⟩
      · cases hfalse
      · exact Or.inr ⟨body, hfurther hbody, hin⟩
    | true =>
      have htrue : inString = true := by
        cases piece with
        | opening => exact absurd rfl hopening
        | outside char | closing => cases hinside
        | escape char | unicode | openUnicode | stray | plain char => exact hfits.1
      rw [hinside] at hclosed hopen hfurther
      obtain ⟨body, behind, hbody, heq⟩ := hclosed rfl
      have hcons : ∀ {body : List JsonPiece}, .closing ∉ body → .closing ∉ piece :: body :=
        fun hbody hmem => (List.mem_cons.mp hmem).elim (fun h => hclosing h.symm) hbody
      refine ⟨fun _ => ⟨piece :: body, behind, hcons hbody, by rw [heq]; rfl⟩, fun hmem => ?_⟩
      rcases List.mem_cons.mp hmem with hpiece | hmem
      · exact Or.inl ⟨htrue, piece :: body, behind, hcons hbody, by rw [hpiece]; exact
          List.mem_cons_self, by rw [heq]; rfl⟩
      rcases hopen hmem with ⟨-, body, behind, hbody, hin, heq⟩ | ⟨body, hbody, hin⟩
      · exact Or.inl ⟨htrue, piece :: body, behind, hcons hbody, List.mem_cons_of_mem _ hin,
          by rw [heq]; rfl⟩
      · exact Or.inr ⟨body, hfurther hbody, hin⟩

/-! ## What repair is for -/

/-- The parser of cut JSON gives an object or an array for a text that begins as one, and for no
other. -/
def ReadsKind (partialParse : JsString → Option JsValue) : Prop :=
  ∀ text value, partialParse text = some value → value.json.isObject = opensObject text

/-- What the repair of a text promises. -/
structure Repairs (partialParse : JsString → Option JsValue) (json : JsString) : Prop where
  unchanged : ∀ value, JsValue.parse json = some value → repairJson json = json
  clean : ∀ body, ClosedLiteral (pieces false (repairJson json)) body →
    ∀ piece ∈ body, piece.isValid = true
  complete : ∀ valid value, JsValue.parse valid = some value → Damaged false valid json →
    ∃ repaired, parseJsonWithRepair json = some repaired
  idempotent : repairJson (repairJson json) = repairJson json
  object : (parseStreamingJson partialParse json).json.isObject = true

/-- The text is blank, or begins with a brace or a bracket, or nobody reads more than `null` of
it. -/
def ReadAsObject (partialParse : JsString → Option JsValue) (json : JsString) : Prop :=
  isBlank json = true ∨ opensObject json = true ∨
    JsValue.parse json = none ∧ JsValue.parse (repairJson json) = none ∧
      (partialParse json = some .null ∨ partialParse json = none ∧
        ∀ value, partialParse (repairJson json) = some value → value = .null)

theorem parse_iff_accepts {text : JsString} :
    (∃ value, JsValue.parse text = some value) ↔ JsonState.init.Accepts text := by
  rw [← Json.parse_eq_some_iff]
  constructor
  · rintro ⟨value, h⟩
    exact ⟨value.json, JsValue.parse_eq_some.mp h⟩
  · rintro ⟨json, h⟩
    exact ⟨⟨json, Json.parse_wf h⟩, JsValue.parse_eq_some.mpr h⟩

theorem repairJson_of_parse {json : JsString} {value : JsValue}
    (h : JsValue.parse json = some value) : repairJson json = json :=
  repairJson_of_valid (parse_iff_accepts.mp ⟨value, h⟩)

theorem readsKind_parse : ReadsKind JsValue.parse :=
  fun _ _ h => Json.isObject_of_parse (JsValue.parse_eq_some.mp h)

/-- White space and the first character behind it stay. -/
theorem opensObject_repairJson (json : JsString) :
    opensObject (repairJson json) = opensObject json := by
  induction json with
  | nil => rw [repairJson, repairFrom]
  | cons char rest ih =>
    rw [repairJson, repairFrom]
    cases htrimmed : isTrimmed char with
    | false =>
      rw [opensObject, opensObject, List.dropWhile_cons, List.dropWhile_cons, htrimmed]
      rfl
    | true =>
      have hquote : char ≠ quotationMark := by
        rintro rfl
        exact absurd htrimmed (by decide)
      rw [beq_eq_false_iff_ne.mpr hquote, opensObject, opensObject, List.dropWhile_cons,
        List.dropWhile_cons, htrimmed]
      exact ih

theorem parseJsonWithRepair_eq (json : JsString) :
    parseJsonWithRepair json =
      (JsValue.parse json).or (JsValue.parse (repairJson json)) := by
  rw [parseJsonWithRepair]
  cases hparse : JsValue.parse json with
  | some value => rfl
  | none =>
    show (if repairJson json ≠ json then _ else _) = JsValue.parse (repairJson json)
    split
    · rfl
    · rename_i hsame
      rw [not_ne_iff.mp hsame, hparse]

theorem parseStreamingJson_isObject_iff {partialParse : JsString → Option JsValue}
    (hkind : ReadsKind partialParse) (json : JsString) :
    (parseStreamingJson partialParse json).json.isObject = true ↔
      ReadAsObject partialParse json := by
  rw [parseStreamingJson, parseJsonWithRepair_eq, ReadAsObject]
  cases hblank : isBlank json with
  | true => exact iff_of_true rfl (Or.inl rfl)
  | false =>
    rw [if_neg Bool.false_ne_true]
    cases hparse : JsValue.parse json with
    | some value =>
      have hvalue := readsKind_parse json value hparse
      simp [hvalue]
    | none =>
    cases hrepair : JsValue.parse (repairJson json) with
    | some value =>
      have hvalue := readsKind_parse _ value hrepair
      rw [opensObject_repairJson] at hvalue
      simp [hvalue]
    | none =>
    cases hpartial : partialParse json with
    | some value =>
      have hvalue := hkind json value hpartial
      by_cases hnull : value = .null
      · simp [hnull, JsValue.empty, Json.isObject]
      · simp [hnull, hvalue]
    | none =>
    cases hlast : partialParse (repairJson json) with
    | none => simp [JsValue.empty, Json.isObject]
    | some value =>
      have hvalue := hkind _ value hlast
      rw [opensObject_repairJson] at hvalue
      by_cases hnull : value = .null
      · simp [hnull, JsValue.empty, Json.isObject]
      · simp [hnull, hvalue]

/-- **A text is repaired as documented** if and only if none of its closed literals holds `\u`
without its digits, and it is read as an object or not at all. -/
theorem repairs_iff {partialParse : JsString → Option JsValue} (hkind : ReadsKind partialParse)
    (json : JsString) :
    Repairs partialParse json ↔
      (∀ body, ClosedLiteral (pieces false json) body → .openUnicode ∉ body) ∧
        ReadAsObject partialParse json := by
  constructor
  · intro h
    exact ⟨(clean_repairJson_iff json).mp h.clean,
      (parseStreamingJson_isObject_iff hkind json).mp h.object⟩
  · rintro ⟨hno, hobject⟩
    refine ⟨fun value => repairJson_of_parse, (clean_repairJson_iff json).mpr hno, ?_,
      repairJson_repairJson json, (parseStreamingJson_isObject_iff hkind json).mpr hobject⟩
    intro valid value hvalid hdamaged
    have haccepts : JsonState.init.Accepts valid :=
      parse_iff_accepts.mp ⟨value, hvalid⟩
    have hmem : .openUnicode ∉ pieces false json := by
      intro hmem
      have hends := hdamaged.ends follows_init haccepts
      rcases (closedLiteral_of_ends false json hends).2 hmem with ⟨hfalse, -⟩ | ⟨body, hbody, hin⟩
      · cases hfalse
      · exact hno body hbody hin
    obtain ⟨repaired, hrepaired⟩ := parse_iff_accepts.mpr
      (hdamaged.accepts hmem follows_init rfl haccepts)
    rw [parseJsonWithRepair_eq]
    cases hparse : JsValue.parse json with
    | some direct => exact ⟨direct, rfl⟩
    | none => exact ⟨repaired, hrepaired⟩

/-- `{"path":"C:\dir"}` is repaired. -/
theorem repairs_path : Repairs JsValue.parse (js "\x7b\"path\":\"C:\\dir\"\x7d") := by
  refine (repairs_iff readsKind_parse _).mpr ⟨fun body hbody hmem => ?_, Or.inr (Or.inl ?_)⟩
  · obtain ⟨-, front, behind, heq⟩ := hbody
    have hopen : .openUnicode ∈ pieces false (js "\x7b\"path\":\"C:\\dir\"\x7d") := by
      rw [heq]
      simp [hmem]
    exact absurd hopen (by decide +kernel)
  · decide

/-- `"\u12"` stays as it is. -/
theorem not_repairs_openUnicode : ¬ Repairs JsValue.parse (js "\"\\u12\"") := by
  intro h
  have hbody : ClosedLiteral (pieces false (repairJson (js "\"\\u12\"")))
      [.openUnicode, .plain 0x31, .plain 0x32] := by
    exact ⟨by decide, [], [], by decide +kernel⟩
  exact absurd (h.clean _ hbody .openUnicode List.mem_cons_self) (by decide)

end PiMono.Ai
