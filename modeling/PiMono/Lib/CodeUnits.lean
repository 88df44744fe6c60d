import Mathlib.Data.List.Basic
import Mathlib.Data.List.DropRight
import Mathlib.Tactic.Common

/-!
# Strings as UTF-16 code units

A JavaScript string is a finite sequence of 16-bit code units, lone surrogates
included: `length`, `slice` and `===` count and compare code units, so this is
the representation every string of the model has. `js` writes a literal, and
`scalars` reads a string as Unicode text, which is what an encoder writes.
-/

namespace PiMono

/-- A JavaScript string: its code units. -/
abbrev JsString := List UInt16

-- one instance by name for every `∈` between strings
instance : LawfulBEq JsString := List.instLawfulBEq

/-- The code units of one Unicode scalar value (a pair above `U+FFFF`). -/
def utf16 (c : Char) : JsString :=
  if c.toNat < 0x10000 then [c.toNat.toUInt16]
  else [(0xD800 + (c.toNat - 0x10000) / 0x400).toUInt16,
    (0xDC00 + (c.toNat - 0x10000) % 0x400).toUInt16]

/-- The JavaScript string of a Lean literal. -/
def js (s : String) : JsString := s.toList.flatMap utf16

/-- `u` is a high (leading) surrogate. -/
def isHighSurrogate (u : UInt16) : Bool := 0xD800 ≤ u.toNat && u.toNat ≤ 0xDBFF

/-- `u` is a low (trailing) surrogate. -/
def isLowSurrogate (u : UInt16) : Bool := 0xDC00 ≤ u.toNat && u.toNat ≤ 0xDFFF

/-- `U+FFFD`, which stands in for what cannot be encoded or decoded. -/
def replacementChar : Char := Char.ofNat 0xFFFD

/-- The scalar value of a surrogate pair. -/
def pairScalar (hi lo : UInt16) : Char :=
  Char.ofNat (0x10000 + (hi.toNat - 0xD800) * 0x400 + (lo.toNat - 0xDC00))

/-- A string as Unicode text (`toWellFormed`): pairs are joined, and a lone
surrogate reads as `U+FFFD`. -/
def scalars : JsString → List Char
  | [] => []
  | [u] =>
    if isHighSurrogate u || isLowSurrogate u then [replacementChar] else [Char.ofNat u.toNat]
  | u :: v :: rest =>
    if isHighSurrogate u && isLowSurrogate v then pairScalar u v :: scalars rest
    else if isHighSurrogate u || isLowSurrogate u then replacementChar :: scalars (v :: rest)
    else Char.ofNat u.toNat :: scalars (v :: rest)

/-- Every surrogate is half of a pair: the string is the UTF-16 form of some text. -/
def WellFormed (s : JsString) : Prop := ∃ cs : List Char, cs.flatMap utf16 = s

/-- The characters `String.prototype.trim` removes (ECMAScript WhiteSpace and
LineTerminator). -/
def isTrimmed (u : UInt16) : Bool :=
  (0x09 ≤ u && u ≤ 0x0D) || u == 0x20 || u == 0xA0 || u == 0x1680 ||
    (0x2000 ≤ u && u ≤ 0x200A) || u == 0x2028 || u == 0x2029 || u == 0x202F ||
    u == 0x205F || u == 0x3000 || u == 0xFEFF

/-- `!s.trim()`: nothing is left once both ends are trimmed. -/
def isBlank (s : JsString) : Bool := s.all isTrimmed

/-- `s.trim()` -/
def trim (s : JsString) : JsString := (s.dropWhile isTrimmed).rdropWhile isTrimmed

/-! ## Literals are told apart -/

theorem utf16_ne_nil (c : Char) : utf16 c ≠ [] := by
  unfold utf16
  split <;> simp

/-- A scalar value is no surrogate, and below `0x110000`. -/
theorem toNat_scalar (c : Char) :
    (c.toNat < 0xD800 ∨ 0xDFFF < c.toNat) ∧ c.toNat < 0x110000 := by
  have h := c.valid
  simp only [UInt32.isValidChar, Nat.isValidChar] at h
  show (c.val.toNat < _ ∨ _ < c.val.toNat) ∧ c.val.toNat < _
  omega

theorem toNat_ofNat {n : Nat} (h : n.isValidChar) : (Char.ofNat n).toNat = n := by
  rw [Char.ofNat, dif_pos h]
  rfl

/-- `utf16` is a prefix code: the first unit tells how many follow. -/
theorem utf16_append_inj {c d : Char} {s t : JsString}
    (h : utf16 c ++ s = utf16 d ++ t) : c = d ∧ s = t := by
  have hc := toNat_scalar c
  have hd := toNat_scalar d
  unfold utf16 at h
  split at h <;> split at h <;>
    simp only [List.cons_append, List.nil_append, List.cons.injEq,
      ← UInt16.toNat_inj, Nat.toUInt16_eq, UInt16.toNat_ofNat'] at h
  · exact ⟨Char.toNat_inj.mp (by omega), h.2⟩
  · omega
  · omega
  · exact ⟨Char.toNat_inj.mp (by omega), h.2.2⟩

theorem flatMap_utf16_inj : ∀ {cs ds : List Char},
    cs.flatMap utf16 = ds.flatMap utf16 → cs = ds
  | [], [], _ => rfl
  | [], d :: ds, h => by
    rw [List.flatMap_nil, List.flatMap_cons] at h
    exact absurd (List.append_eq_nil_iff.mp h.symm).1 (utf16_ne_nil d)
  | c :: cs, [], h => by
    rw [List.flatMap_nil, List.flatMap_cons] at h
    exact absurd (List.append_eq_nil_iff.mp h).1 (utf16_ne_nil c)
  | c :: cs, d :: ds, h => by
    rw [List.flatMap_cons, List.flatMap_cons] at h
    obtain ⟨rfl, h'⟩ := utf16_append_inj h
    rw [flatMap_utf16_inj h']

/-- A literal by its characters: the kernel reads these much faster. -/
theorem js_ofList (cs : List Char) : js (String.ofList cs) = cs.flatMap utf16 := by
  rw [js, String.toList_ofList]

/-- Comparing two literals is comparing the Lean strings, which `simp` decides. -/
@[simp] theorem js_inj {s t : String} : js s = js t ↔ s = t :=
  ⟨fun h => String.toList_inj.mp (flatMap_utf16_inj h), fun h => by rw [h]⟩

/-! ## Well-formed strings -/

/-- The units of a text one by one, and not all units there are. -/
theorem forall_units {P : UInt16 → Prop} [DecidablePred P] {s : JsString}
    (h : s.all (fun u => decide (P u)) = true) : ∀ u ∈ s, P u :=
  fun u hu => of_decide_eq_true (List.all_eq_true.mp h u hu)

@[simp] theorem wellFormed_nil : WellFormed [] := ⟨[], rfl⟩

theorem wellFormed_js (s : String) : WellFormed (js s) := ⟨s.toList, rfl⟩

theorem WellFormed.append {s t : JsString} (hs : WellFormed s) (ht : WellFormed t) :
    WellFormed (s ++ t) := by
  obtain ⟨cs, rfl⟩ := hs
  obtain ⟨ds, rfl⟩ := ht
  exact ⟨cs ++ ds, List.flatMap_append⟩

/-- A unit that is no surrogate is a character by itself. -/
theorem utf16_ofNat {u : UInt16} (hhi : isHighSurrogate u = false)
    (hlo : isLowSurrogate u = false) : utf16 (Char.ofNat u.toNat) = [u] := by
  have hlt : u.toNat < 65536 := u.toNat_lt
  have hval : (Char.ofNat u.toNat).toNat = u.toNat := by
    refine toNat_ofNat ?_
    simp only [isHighSurrogate, isLowSurrogate, Bool.and_eq_false_iff,
      decide_eq_false_iff_not] at hhi hlo
    simp only [Nat.isValidChar]
    omega
  rw [utf16, hval, if_pos hlt]
  simp

/-- A surrogate pair is one character. -/
theorem utf16_pairScalar {u v : UInt16} (hu : isHighSurrogate u = true)
    (hv : isLowSurrogate v = true) : utf16 (pairScalar u v) = [u, v] := by
  simp only [isHighSurrogate, isLowSurrogate, Bool.and_eq_true, decide_eq_true_iff] at hu hv
  have hval : (pairScalar u v).toNat
      = 0x10000 + (u.toNat - 0xD800) * 0x400 + (v.toNat - 0xDC00) := by
    refine toNat_ofNat ?_
    simp only [Nat.isValidChar]
    omega
  rw [utf16, hval, if_neg (by omega)]
  simp only [List.cons.injEq, ← UInt16.toNat_inj, Nat.toUInt16_eq, UInt16.toNat_ofNat', and_true]
  omega

theorem wellFormed_unit {u : UInt16} (hhi : isHighSurrogate u = false)
    (hlo : isLowSurrogate u = false) : WellFormed [u] :=
  ⟨[Char.ofNat u.toNat], by simp [utf16_ofNat hhi hlo]⟩

theorem wellFormed_pair {u v : UInt16} (hu : isHighSurrogate u = true)
    (hv : isLowSurrogate v = true) : WellFormed [u, v] :=
  ⟨[pairScalar u v], by simp [utf16_pairScalar hu hv]⟩

/-- The text of a well-formed string is the text it was made of, whatever stands behind it. -/
theorem scalars_append_units (t : JsString) :
    ∀ cs : List Char, scalars (cs.flatMap utf16 ++ t) = cs ++ scalars t
  | [] => rfl
  | c :: cs => by
    have hc := toNat_scalar c
    rw [List.flatMap_cons, List.append_assoc]
    by_cases hbmp : c.toNat < 0x10000
    · -- one unit, no surrogate
      have hu : (c.toNat.toUInt16).toNat = c.toNat := by
        rw [Nat.toUInt16_eq, UInt16.toNat_ofNat']
        exact Nat.mod_eq_of_lt hbmp
      have hhi : isHighSurrogate c.toNat.toUInt16 = false := by
        simp only [isHighSurrogate, hu, Bool.and_eq_false_iff, decide_eq_false_iff_not]
        omega
      have hlo : isLowSurrogate c.toNat.toUInt16 = false := by
        simp only [isLowSurrogate, hu, Bool.and_eq_false_iff, decide_eq_false_iff_not]
        omega
      have hrest := scalars_append_units t cs
      rw [utf16, if_pos hbmp]
      cases htail : cs.flatMap utf16 ++ t with
      | nil =>
        rw [htail] at hrest
        simp [scalars, hhi, hlo, hu, ← hrest]
      | cons v rest =>
        rw [htail] at hrest
        simp [scalars, hhi, hlo, hu, hrest]
    · -- a pair
      have hu : ((0xD800 + (c.toNat - 0x10000) / 0x400).toUInt16).toNat
          = 0xD800 + (c.toNat - 0x10000) / 0x400 := by
        rw [Nat.toUInt16_eq, UInt16.toNat_ofNat']
        omega
      have hv : ((0xDC00 + (c.toNat - 0x10000) % 0x400).toUInt16).toNat
          = 0xDC00 + (c.toNat - 0x10000) % 0x400 := by
        rw [Nat.toUInt16_eq, UInt16.toNat_ofNat']
        omega
      have hhi : isHighSurrogate (0xD800 + (c.toNat - 0x10000) / 0x400).toUInt16 = true := by
        simp only [isHighSurrogate, hu, Bool.and_eq_true, decide_eq_true_iff]
        omega
      have hlo : isLowSurrogate (0xDC00 + (c.toNat - 0x10000) % 0x400).toUInt16 = true := by
        simp only [isLowSurrogate, hv, Bool.and_eq_true, decide_eq_true_iff]
        omega
      have hpair : pairScalar (0xD800 + (c.toNat - 0x10000) / 0x400).toUInt16
          (0xDC00 + (c.toNat - 0x10000) % 0x400).toUInt16 = c := by
        have hnat : 0x10000 + (0xD800 + (c.toNat - 0x10000) / 0x400 - 0xD800) * 0x400
            + (0xDC00 + (c.toNat - 0x10000) % 0x400 - 0xDC00) = c.toNat := by omega
        rw [pairScalar, hu, hv, hnat, Char.ofNat_toNat]
      rw [utf16, if_neg hbmp, List.cons_append, List.cons_append, List.nil_append, scalars,
        hhi, hlo, Bool.and_self, if_pos rfl, hpair, scalars_append_units t cs,
        List.cons_append]

theorem scalars_flatMap_utf16 (cs : List Char) : scalars (cs.flatMap utf16) = cs := by
  have h := scalars_append_units [] cs
  rw [List.append_nil] at h
  rw [h]
  exact List.append_nil cs

/-- A unit that is no surrogate is a character by itself. -/
theorem utf16_of_mem {u : UInt16} {c : Char} (h : u ∈ utf16 c) (hhi : isHighSurrogate u = false)
    (hlo : isLowSurrogate u = false) : utf16 c = [u] := by
  have hc := toNat_scalar c
  by_cases hbmp : c.toNat < 0x10000
  · rw [utf16, if_pos hbmp] at h ⊢
    rw [List.mem_singleton.mp h]
  · rw [utf16, if_neg hbmp] at h
    simp only [isHighSurrogate, isLowSurrogate, Bool.and_eq_false_iff, decide_eq_false_iff_not]
      at hhi hlo
    rcases List.mem_cons.mp h with rfl | h
    · simp only [Nat.toUInt16_eq, UInt16.toNat_ofNat'] at hhi hlo
      omega
    · obtain rfl := List.mem_singleton.mp h
      simp only [Nat.toUInt16_eq, UInt16.toNat_ofNat'] at hhi hlo
      omega

/-- A text can be cut at a unit that is no surrogate. -/
theorem WellFormed.of_append_cons {u : UInt16} (hhi : isHighSurrogate u = false)
    (hlo : isLowSurrogate u = false) {s t : JsString} (h : WellFormed (s ++ u :: t)) :
    WellFormed s ∧ WellFormed t := by
  obtain ⟨cs, hcs⟩ := h
  induction cs generalizing s with
  | nil => cases s <;> cases hcs
  | cons c cs ih =>
    rw [List.flatMap_cons] at hcs
    rcases List.append_eq_append_iff.mp hcs with ⟨s', rfl, hrest⟩ | ⟨c', hc, hrest⟩
    · obtain ⟨hs, ht⟩ := ih hrest
      exact ⟨(WellFormed.append ⟨[c], by simp⟩ hs), ht⟩
    · cases c' with
      | nil =>
        rw [List.append_nil] at hc
        obtain ⟨-, ht⟩ := ih (s := []) hrest.symm
        exact ⟨⟨[c], by rw [← hc]; simp⟩, ht⟩
      | cons u' c' =>
        rw [List.cons_append, List.cons.injEq] at hrest
        obtain ⟨rfl, rfl⟩ := hrest
        have hone := utf16_of_mem (c := c) (u := u) (by rw [hc]; simp) hhi hlo
        rw [hone] at hc
        cases s with
        | nil =>
          obtain rfl : c' = [] := by simpa using hc.symm
          exact ⟨wellFormed_nil, cs, rfl⟩
        | cons v s => simp at hc


end PiMono
