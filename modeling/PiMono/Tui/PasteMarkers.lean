import PiMono.Lib.JsMap
import PiMono.Lib.JsNumber
import PiMono.Lib.Markers

/-!
# Paste markers

`tui/src/components/editor.ts:997-1012`: a large paste stands in the text as a marker such as
`[paste #1 +20 lines]`, and `expandPasteMarkers` puts the contents back, one global replace
for each registered paste. No part of the pattern but its end matches a `]`, so a match ends
at the first one behind its beginning.
-/

namespace PiMono

open Markers

/-- `\d` -/
def isDigitUnit (u : UInt16) : Bool := 0x30 ≤ u && u ≤ 0x39

/-- `${pasteId}` -/
def pasteIdText (pasteId : Nat) : JsString := JsNumber.digitsText (natDigits pasteId)

/-- A number between two texts, as `\+\d+ lines` and `\d+ chars`. -/
def isCounted (before behind text : JsString) : Bool :=
  let digits := (text.drop before.length).take (text.length - before.length - behind.length)
  digits ≠ [] && digits.all isDigitUnit && text = before ++ digits ++ behind

/-- `( (\+\d+ lines|\d+ chars))?` -/
def isMarkerSize (text : JsString) : Bool :=
  text = [] || isCounted (js " +") (js " lines") text || isCounted (js " ") (js " chars") text

/-- `\[paste #${pasteId}( (\+\d+ lines|\d+ chars))?\]` -/
def isMarkerOf (pasteId : Nat) (text : JsString) : Bool :=
  let opening := js "[paste #" ++ pasteIdText pasteId
  let size := (text.drop opening.length).dropLast
  isMarkerSize size && text = opening ++ size ++ js "]"

/-- What stands for a marker of the paste. -/
def pasteSubst (paste : Nat × JsString) (text : JsString) : Option JsString :=
  if isMarkerOf paste.1 text then some paste.2 else none

/-- `expandPasteMarkers`, the pastes in the order of the registry. -/
def expandPasteMarkers (pastes : JsMap Nat JsString) (text : JsString) : JsString :=
  pastes.entries.foldl (fun result paste => replaced 0x5D (pasteSubst paste) result) text

/-! ## Markers -/

/-- The units a marker can have. -/
def markerUnits : JsString := js "[paste #+0123456789 lines chars]"

/-- What can stand between the brackets. -/
def innerUnits : JsString := js "paste #+0123456789 lines chars"

theorem isDigitUnit_digitUnit (d : Digit) : isDigitUnit (digitUnit d) = true := by
  revert d
  decide

theorem digitUnit_mem (d : Digit) : digitUnit d ∈ innerUnits := by
  revert d
  decide

theorem mem_innerUnits_of_digit {u : UInt16} (h : isDigitUnit u = true) : u ∈ innerUnits := by
  have hd : u = digitUnit ⟨u.toNat - 0x30, by
      simp only [isDigitUnit, Bool.and_eq_true, decide_eq_true_eq, UInt16.le_iff_toNat_le] at h
      have := h.2
      have h9 : (0x39 : UInt16).toNat = 0x39 := rfl
      omega⟩ := by
    simp only [isDigitUnit, Bool.and_eq_true, decide_eq_true_eq, UInt16.le_iff_toNat_le] at h
    have h0 : (0x30 : UInt16).toNat = 0x30 := rfl
    have h9 : (0x39 : UInt16).toNat = 0x39 := rfl
    rw [← UInt16.toNat_inj, digitUnit]
    simp only [Nat.toUInt16_eq, UInt16.toNat_ofNat']
    omega
  rw [hd]
  exact digitUnit_mem _

theorem pasteIdText_inj {m n : Nat} (h : pasteIdText m = pasteIdText n) : m = n := by
  have hdigits : natDigits m = natDigits n := by
    refine List.map_injective_iff.mpr (fun d e hde => ?_) h
    have h := congrArg unitDigit? hde
    simpa [unitDigit?_digitUnit] using h
  rw [← digitsNat_natDigits m, hdigits, digitsNat_natDigits]

theorem pasteIdText_units {pasteId : Nat} {u : UInt16} (h : u ∈ pasteIdText pasteId) :
    isDigitUnit u = true ∧ u ∈ innerUnits := by
  obtain ⟨d, -, rfl⟩ := List.mem_map.mp h
  exact ⟨isDigitUnit_digitUnit d, digitUnit_mem d⟩

/-- The size of a marker is empty, or begins with a blank. -/
theorem isMarkerSize_units {text : JsString} (h : isMarkerSize text = true) :
    (∀ u ∈ text, u ∈ innerUnits) ∧ (text = [] ∨ ∃ rest, text = 0x20 :: rest) := by
  have hcounted (before behind : JsString) (hbefore : ∀ u ∈ before, u ∈ innerUnits)
      (hbehind : ∀ u ∈ behind, u ∈ innerUnits) (hblank : ∃ rest, before = 0x20 :: rest)
      (h : isCounted before behind text = true) :
      (∀ u ∈ text, u ∈ innerUnits) ∧ (text = [] ∨ ∃ rest, text = 0x20 :: rest) := by
    simp only [isCounted, Bool.and_eq_true, decide_eq_true_eq, List.all_eq_true] at h
    obtain ⟨⟨-, hdigits⟩, heq⟩ := h
    obtain ⟨rest, rfl⟩ := hblank
    constructor
    · intro u hu
      rw [heq, List.mem_append, List.mem_append] at hu
      rcases hu with (hu | hu) | hu
      · exact hbefore u hu
      · exact mem_innerUnits_of_digit (hdigits u hu)
      · exact hbehind u hu
    · rw [heq]
      exact Or.inr ⟨_, rfl⟩
  simp only [isMarkerSize, Bool.or_eq_true, decide_eq_true_eq] at h
  rcases h with (rfl | h) | h
  · exact ⟨by simp, Or.inl rfl⟩
  · exact hcounted _ _ (forall_units (by decide)) (forall_units (by decide)) ⟨js "+", by decide⟩ h
  · exact hcounted _ _ (forall_units (by decide)) (forall_units (by decide)) ⟨[], by decide⟩ h

/-- What a marker is made of. -/
theorem isMarkerOf_shape {pasteId : Nat} {text : JsString} (h : isMarkerOf pasteId text = true) :
    ∃ size, text = 0x5B :: (js "paste #" ++ pasteIdText pasteId ++ size) ++ [0x5D] ∧
      (∀ u ∈ size, u ∈ innerUnits) ∧ (size = [] ∨ ∃ rest, size = 0x20 :: rest) := by
  simp only [isMarkerOf, Bool.and_eq_true, decide_eq_true_eq] at h
  generalize (text.drop (js "[paste #" ++ pasteIdText pasteId).length).dropLast = size at h
  obtain ⟨hsize, rfl⟩ := h
  have hopen : js "[paste #" = 0x5B :: js "paste #" := by decide
  have hclose : js "]" = [0x5D] := by decide
  refine ⟨size, ?_, isMarkerSize_units hsize⟩
  rw [hopen, hclose]
  simp

theorem bracketed_pasteSubst (paste : Nat × JsString) :
    Bracketed 0x5B 0x5D (pasteSubst paste) := by
  intro text h
  have hmarker : isMarkerOf paste.1 text = true := by
    by_contra hnot
    exact h (if_neg hnot)
  obtain ⟨size, rfl, hsize, -⟩ := isMarkerOf_shape hmarker
  have hinner : ∀ u ∈ js "paste #" ++ pasteIdText paste.1 ++ size, u ∈ innerUnits := by
    intro u hu
    rw [List.mem_append, List.mem_append] at hu
    rcases hu with (hu | hu) | hu
    · exact forall_units (P := (· ∈ innerUnits)) (s := js "paste #") (by decide) u hu
    · exact (pasteIdText_units hu).2
    · exact hsize u hu
  have hopening : (0x5B : UInt16) ∉ innerUnits := by decide
  have hclosing : (0x5D : UInt16) ∉ innerUnits := by decide
  refine ⟨_, rfl, fun hmem => hopening (hinner _ hmem), fun hmem => ?_⟩
  rcases List.mem_cons.mp hmem with heq | hmem
  · exact absurd heq (by decide)
  · exact hclosing (hinner _ hmem)

/-- The id is what the digits behind `#` say. -/
theorem isMarkerOf_id {pasteId : Nat} {text : JsString} (h : isMarkerOf pasteId text = true) :
    pasteIdText pasteId = (text.drop 8).takeWhile isDigitUnit := by
  obtain ⟨size, rfl, -, hsize⟩ := isMarkerOf_shape h
  have hdrop : (0x5B :: (js "paste #" ++ pasteIdText pasteId ++ size) ++ [0x5D]).drop 8
      = pasteIdText pasteId ++ (size ++ [0x5D]) := by
    have hlen : (js "paste #").length = 7 := by decide
    rw [List.cons_append, List.drop_succ_cons, List.append_assoc, List.append_assoc,
      ← hlen, List.drop_left]
  have hbehind : (size ++ [0x5D]).takeWhile isDigitUnit = [] := by
    rcases hsize with rfl | ⟨rest, rfl⟩
    · rfl
    · rfl
  rw [hdrop, List.takeWhile_append_of_pos fun u hu => (pasteIdText_units hu).1, hbehind,
    List.append_nil]

/-- The passes of a registry. -/
def pasteKinds (pastes : JsMap Nat JsString) : List (JsString → Option JsString) :=
  pastes.entries.map pasteSubst

/-- No marker belongs to two pastes. -/
theorem kinds_pasteKinds (pastes : JsMap Nat JsString) : Kinds 0x5B 0x5D (pasteKinds pastes) := by
  constructor
  · intro subst hsubst
    obtain ⟨paste, -, rfl⟩ := List.mem_map.mp hsubst
    exact bracketed_pasteSubst paste
  · have hkeys : pastes.entries.Pairwise fun a b => a.1 ≠ b.1 :=
      List.pairwise_map.mp pastes.nodup
    refine List.pairwise_map.mpr (hkeys.imp fun {a b} hne text hfirst => ?_)
    have ha : isMarkerOf a.1 text = true := by
      by_contra hnot
      exact hfirst (if_neg hnot)
    refine if_neg fun hb => hne ?_
    exact pasteIdText_inj ((isMarkerOf_id ha).trans (isMarkerOf_id hb).symm)

theorem expandPasteMarkers_eq (pastes : JsMap Nat JsString) (text : JsString) :
    expandPasteMarkers pastes text = passes 0x5D (pasteKinds pastes) text := by
  rw [expandPasteMarkers, passes, pasteKinds, List.foldl_map]

/-! ## Expansion at once -/

/-- The text with every marker of a registered paste replaced, once, by the content. -/
def expandAtOnce (pastes : JsMap Nat JsString) (text : JsString) : JsString :=
  replaced 0x5D (fun word => pastes.entries.findSome? (pasteSubst · word)) text

/-- Where the pastes registered before it are expanded at once, a paste has no more markers
than in the text itself. -/
def NoForeignMarkers (pastes : JsMap Nat JsString) (text : JsString) : Prop :=
  ∀ before paste behind, pastes.entries = before ++ paste :: behind →
    wordCount 0x5D (pasteSubst paste)
        (replaced 0x5D (fun word => before.findSome? (pasteSubst · word)) text)
      = wordCount 0x5D (pasteSubst paste) text

theorem anyOf_map (pastes : List (Nat × JsString)) :
    anyOf (pastes.map pasteSubst) = fun word => pastes.findSome? (pasteSubst · word) := by
  funext word
  rw [anyOf, List.findSome?_map]
  rfl

theorem noForeignMarkers_iff {pastes : JsMap Nat JsString} {text : JsString} :
    NoForeignMarkers pastes text ↔ OnlyOwnWords 0x5D (pasteKinds pastes) text := by
  constructor
  · intro h before subst behind heq
    obtain ⟨front, back, hentries, rfl, hback⟩ := List.map_eq_append_iff.mp heq
    obtain ⟨paste, rest, rfl, rfl, rfl⟩ := List.map_eq_cons_iff.mp hback
    rw [anyOf_map]
    exact h front paste rest hentries
  · intro h before paste behind heq
    rw [← anyOf_map]
    exact h (before.map pasteSubst) (pasteSubst paste) (behind.map pasteSubst) (by
      rw [pasteKinds, heq, List.map_append, List.map_cons])

/-- Units that no marker has weigh one. -/
def foreignWeight (u : UInt16) : Nat := if u ∈ markerUnits then 0 else 1

theorem weighty_pasteKinds {pastes : JsMap Nat JsString}
    (h : ∀ paste ∈ pastes.entries, ∃ u ∈ paste.2, u ∉ markerUnits) :
    Weighty foreignWeight (pasteKinds pastes) := by
  intro subst hsubst
  obtain ⟨paste, hpaste, rfl⟩ := List.mem_map.mp hsubst
  refine ⟨paste.2, ?_, fun word replacement hword => ?_⟩
  · obtain ⟨u, hu, hforeign⟩ := h paste hpaste
    have hone : 0 < foreignWeight u := by
      rw [foreignWeight, if_neg hforeign]
      exact Nat.one_pos
    exact List.sum_pos_iff_exists_pos_nat.mpr ⟨_, List.mem_map_of_mem hu, hone⟩
  · rw [pasteSubst, Option.ite_none_right_eq_some] at hword
    obtain ⟨hmarker, heq⟩ := hword
    refine ⟨(Option.some.inj heq).symm, ?_⟩
    obtain ⟨size, rfl, hsize, -⟩ := isMarkerOf_shape hmarker
    rw [weigh, List.sum_eq_zero_iff_forall_eq_nat]
    intro w hw
    obtain ⟨u, hu, rfl⟩ := List.mem_map.mp hw
    have hinner : ∀ u ∈ innerUnits, u ∈ markerUnits := forall_units (by decide)
    refine if_pos ?_
    simp only [List.cons_append, List.mem_cons, List.mem_append, List.not_mem_nil, or_false] at hu
    rcases hu with rfl | ((hu | hu) | hu) | rfl
    · decide
    · exact hinner u (forall_units (P := (· ∈ innerUnits)) (s := js "paste #") (by decide) u hu)
    · exact hinner u (pasteIdText_units hu).2
    · exact hinner u (hsize u hu)
    · decide

/-- **Expansion.** The contents go in at once where they make no marker of a paste that is
still to come; and only there, as soon as each content has a unit that no marker has. -/
theorem expandPasteMarkers_at_once (pastes : JsMap Nat JsString) (text : JsString) :
    (NoForeignMarkers pastes text → expandPasteMarkers pastes text = expandAtOnce pastes text) ∧
      ((∀ paste ∈ pastes.entries, ∃ u ∈ paste.2, u ∉ markerUnits) →
        expandPasteMarkers pastes text = expandAtOnce pastes text →
          NoForeignMarkers pastes text) := by
  have hkinds := kinds_pasteKinds pastes
  have honce : expandAtOnce pastes text = replaced 0x5D (anyOf (pasteKinds pastes)) text := by
    rw [pasteKinds, anyOf_map]
    rfl
  rw [expandPasteMarkers_eq, honce, noForeignMarkers_iff]
  constructor
  · exact passes_eq hkinds
  · intro hforeign heq
    exact (weigh_passes hkinds (weighty_pasteKinds hforeign) text).2 (congrArg _ heq)

/-- Two pastes of eleven lines, the first of which begins like a marker of the second. -/
def quotingPastes : JsMap Nat JsString :=
  (JsMap.empty.set 1 (js "[paste #2]" ++ List.replicate 10 0x0A)).set 2
    (js "x" ++ List.replicate 10 0x0A)

/-- The second pass replaces what the first has just put in. -/
theorem expand_quoting_pastes :
    ¬ ∀ (pastes : JsMap Nat JsString) (text : JsString),
      expandPasteMarkers pastes text = expandAtOnce pastes text := by
  intro h
  exact absurd (h quotingPastes (js "[paste #1 +11 lines][paste #2 +11 lines]"))
    (by decide +kernel)

end PiMono
