import PiMono.Lib.CodeUnits
import Mathlib.Tactic.Ring

/-!
# Numbers, as JSON writes and reads them

A number is the exact decimal its shortest literal denotes: `digits` without
leading or trailing zeros, and the place of the decimal point before them
(`0.d₁d₂…dₖ · 10^point`), the `k` and `n` of ECMAScript's `Number::toString`.
`JsNumber.text` is that algorithm, `NumAcc` reads a JSON number literal unit by
unit. A double is carried exactly by its shortest literal (at most 17 digits);
longer literals, which reading would round, keep their digits here.
-/

namespace PiMono

/-- A decimal digit. -/
abbrev Digit := Fin 10

def digitUnit (d : Digit) : UInt16 := (0x30 + d.val).toUInt16

/-- The digit a code unit stands for. -/
def unitDigit? (u : UInt16) : Option Digit :=
  if h : 0x30 ≤ u.toNat ∧ u.toNat ≤ 0x39 then some ⟨u.toNat - 0x30, by omega⟩ else none

/-- The decimal digits of a natural number. -/
def natDigits (n : Nat) : List Digit :=
  (Nat.toDigits 10 n).map fun c => Fin.ofNat 10 (c.toNat - '0'.toNat)

/-- The natural number some decimal digits spell. -/
def digitsNat (ds : List Digit) : Nat := ds.foldl (fun acc d => 10 * acc + d.val) 0

/-- A number: sign, significant digits, place of the decimal point. -/
structure JsNumber where
  neg : Bool
  digits : List Digit
  point : Int
  /-- The first and the last digit are significant, and zero is written one way. -/
  canonical : digits.head? ≠ some 0 ∧ digits.getLast? ≠ some 0 ∧
    (digits = [] → neg = false ∧ point = 0)
  deriving DecidableEq

namespace JsNumber

/-- The digits that count. -/
def significant (ds : List Digit) : List Digit := (ds.dropWhile (· == 0)).rdropWhile (· == 0)

theorem significant_head (ds : List Digit) : (significant ds).head? ≠ some 0 := by
  intro h
  obtain ⟨t, ht⟩ : significant ds <+: ds.dropWhile (· == 0) := by
    rw [significant]
    exact List.rdropWhile_prefix ..
  have hhead : (ds.dropWhile (· == 0)).head? = some 0 := by
    rw [← ht, List.head?_append, h]
    rfl
  have hne : ds.dropWhile (· == 0) ≠ [] := by
    intro hnil
    rw [hnil] at hhead
    cases hhead
  have := List.head_dropWhile_not (· == (0 : Digit)) hne
  rw [List.head?_eq_some_head hne] at hhead
  rw [Option.some.inj hhead] at this
  simp at this

theorem significant_last (ds : List Digit) : (significant ds).getLast? ≠ some 0 := by
  intro h
  have hne : significant ds ≠ [] := by
    intro hnil
    rw [hnil] at h
    cases h
  have hnot := List.rdropWhile_last_not (· == (0 : Digit)) (ds.dropWhile (· == 0)) hne
  rw [List.getLast?_eq_some_getLast hne] at h
  have hlast : (significant ds).getLast hne = 0 := Option.some.inj h
  exact hnot (by rw [beq_iff_eq]; exact hlast)

/-- The number a literal denotes. -/
def ofLiteral (neg : Bool) (int frac : List Digit) (exponent : Int) : JsNumber where
  neg := !(significant (int ++ frac)).isEmpty && neg
  digits := significant (int ++ frac)
  point :=
    if (significant (int ++ frac)).isEmpty then 0
    else int.length + exponent - ((int ++ frac).takeWhile (· == 0)).length
  canonical := by
    refine ⟨significant_head _, significant_last _, fun h => ?_⟩
    simp [h]

/-- A count, as a number. -/
def ofNat (n : Nat) : JsNumber := ofLiteral false (natDigits n) [] 0

/-- The count a number is, if it is one (`Number.isInteger` and not negative). -/
def toNat? (x : JsNumber) : Option Nat :=
  if x.neg = false ∧ (x.digits.length : Int) ≤ x.point then
    some (digitsNat x.digits * 10 ^ (x.point.toNat - x.digits.length))
  else none

/-- The greatest integer not above a number. -/
def floor (x : JsNumber) : Int :=
  let whole : Int :=
    digitsNat (x.digits.take x.point.toNat) * 10 ^ (x.point.toNat - x.digits.length)
  if x.neg then (if (x.digits.length : Int) ≤ x.point then -whole else -whole - 1) else whole

/-- The digits of a literal, as text. -/
def digitsText (ds : List Digit) : JsString := ds.map digitUnit

/-- `Number::toString` without the sign: plain digits up to `10^21`, a decimal
point down to `10^-6`, an exponent beyond. -/
def absText (digits : List Digit) (point : Int) : JsString :=
  let k : Int := digits.length
  if digits = [] then js "0"
  else if k ≤ point ∧ point ≤ 21 then
    digitsText (digits ++ List.replicate (point - k).toNat 0)
  else if 0 < point ∧ point ≤ 21 then
    digitsText (digits.take point.toNat) ++ js "." ++ digitsText (digits.drop point.toNat)
  else if -6 < point ∧ point ≤ 0 then
    js "0." ++ digitsText (List.replicate (-point).toNat 0 ++ digits)
  else
    digitsText (digits.take 1)
      ++ (if digits.length = 1 then [] else js "." ++ digitsText (digits.drop 1))
      ++ js "e" ++ js (if 0 ≤ point - 1 then "+" else "-")
      ++ digitsText (natDigits (point - 1).natAbs)

/-- The text JSON writes for a number. -/
def text (x : JsNumber) : JsString := (if x.neg then js "-" else []) ++ absText x.digits x.point

end JsNumber

/-! ## Reading a literal -/

/-- The part of a number literal being read. -/
inductive NumPhase where
  | minus
  | zero
  | int
  | dot
  | frac
  | e
  | esign
  | exp
  deriving DecidableEq, Repr

/-- What has been read of a number literal. -/
structure NumAcc where
  phase : NumPhase
  neg : Bool
  int : List Digit
  frac : List Digit
  eneg : Bool
  exp : List Digit
  deriving DecidableEq

namespace NumAcc

/-- The first unit of a number literal. -/
def first (u : UInt16) : Option NumAcc :=
  if u = 0x2D then some ⟨.minus, true, [], [], false, []⟩
  else (unitDigit? u).map fun d => ⟨if d = 0 then .zero else .int, false, [d], [], false, []⟩

/-- One more unit, if the literal can go on with it. -/
def step (a : NumAcc) (u : UInt16) : Option NumAcc :=
  match a.phase with
  | .minus =>
    (unitDigit? u).map fun d => { a with phase := if d = 0 then .zero else .int, int := [d] }
  | .zero =>
    if u = 0x2E then some { a with phase := .dot }
    else if u = 0x65 ∨ u = 0x45 then some { a with phase := .e } else none
  | .int =>
    if u = 0x2E then some { a with phase := .dot }
    else if u = 0x65 ∨ u = 0x45 then some { a with phase := .e }
    else (unitDigit? u).map fun d => { a with int := a.int ++ [d] }
  | .dot => (unitDigit? u).map fun d => { a with phase := .frac, frac := [d] }
  | .frac =>
    if u = 0x65 ∨ u = 0x45 then some { a with phase := .e }
    else (unitDigit? u).map fun d => { a with frac := a.frac ++ [d] }
  | .e =>
    if u = 0x2B then some { a with phase := .esign }
    else if u = 0x2D then some { a with phase := .esign, eneg := true }
    else (unitDigit? u).map fun d => { a with phase := .exp, exp := [d] }
  | .esign => (unitDigit? u).map fun d => { a with phase := .exp, exp := [d] }
  | .exp => (unitDigit? u).map fun d => { a with exp := a.exp ++ [d] }

/-- The literal may end here. -/
def complete (a : NumAcc) : Bool :=
  match a.phase with
  | .zero | .int | .frac | .exp => true
  | .minus | .dot | .e | .esign => false

/-- The number the literal read so far denotes. -/
def value (a : NumAcc) : JsNumber :=
  JsNumber.ofLiteral a.neg a.int a.frac
    (if a.eneg then -(digitsNat a.exp : Int) else digitsNat a.exp)

/-- The units a literal can be made of: a digit, a sign, the point, an `e`. -/
def isNumberUnit (u : UInt16) : Bool :=
  (unitDigit? u).isSome || u == 0x2B || u == 0x2D || u == 0x2E || u == 0x65 || u == 0x45

theorem step_of_not_numberUnit {u : UInt16} (h : isNumberUnit u = false) (a : NumAcc) :
    a.step u = none := by
  simp only [isNumberUnit, Bool.or_eq_false_iff, beq_eq_false_iff_ne, Option.isSome_eq_false_iff,
    Option.isNone_iff_eq_none] at h
  obtain ⟨⟨⟨⟨⟨hd, hplus⟩, hminus⟩, hdot⟩, he⟩, hE⟩ := h
  unfold step
  cases a.phase <;> simp [hd, hplus, hminus, hdot, he, hE]

/-- A run of units, all of the literal. -/
def run (a : NumAcc) (us : JsString) : Option NumAcc := us.foldlM step a

@[simp] theorem run_nil (a : NumAcc) : a.run [] = some a := rfl

@[simp] theorem run_cons (a : NumAcc) (u : UInt16) (us : JsString) :
    a.run (u :: us) = (a.step u).bind (·.run us) := rfl

theorem run_append (a : NumAcc) (us vs : JsString) :
    a.run (us ++ vs) = (a.run us).bind (·.run vs) := by
  rw [run, List.foldlM_append]
  rfl

/-- A whole literal: its first unit, then the others. -/
def read : JsString → Option NumAcc
  | [] => none
  | u :: us => (first u).bind (·.run us)

end NumAcc

/-! ## A number's text reads back as the number -/

theorem unitDigit?_digitUnit (d : Digit) : unitDigit? (digitUnit d) = some d := by
  have hd := d.isLt
  have hval : (digitUnit d).toNat = 0x30 + d.val := by
    rw [digitUnit, Nat.toUInt16_eq, UInt16.toNat_ofNat']
    exact Nat.mod_eq_of_lt (by omega)
  rw [unitDigit?, dif_pos ⟨by omega, by omega⟩]
  have hback : (digitUnit d).toNat - 0x30 = d.val := by omega
  exact congrArg some (Fin.ext hback)

theorem digitUnit_ne {d : Digit} {u : UInt16} (h : unitDigit? u = none) : digitUnit d ≠ u := by
  rintro rfl
  rw [unitDigit?_digitUnit] at h
  cases h

theorem digitsNat_natDigits (n : Nat) : digitsNat (natDigits n) = n := by
  have hdigit : ∀ c ∈ Nat.toDigits 10 n, c.isDigit :=
    fun c hc => Nat.isDigit_of_mem_toDigits (by decide) (by decide) hc
  have hfold : ∀ (cs : List Char) (acc : Nat), (∀ c ∈ cs, c.isDigit) →
      (cs.map fun c => Fin.ofNat 10 (c.toNat - '0'.toNat)).foldl
        (fun acc (d : Digit) => 10 * acc + d.val) acc = Nat.ofDigitChars 10 cs acc := by
    intro cs
    induction cs with
    | nil => intro acc _; rfl
    | cons c cs ih =>
      intro acc hcs
      have hc : '0'.toNat ≤ c.toNat ∧ c.toNat ≤ '9'.toNat := by
        have := hcs c List.mem_cons_self
        simp only [Char.isDigit, Bool.and_eq_true, decide_eq_true_eq, ge_iff_le,
          UInt32.le_iff_toNat_le] at this
        exact this
      have hlt : c.toNat - '0'.toNat < 10 := by
        have h9 : '9'.toNat = '0'.toNat + 9 := by decide
        omega
      rw [List.map_cons, List.foldl_cons, ih _ fun d hd => hcs d (List.mem_cons_of_mem _ hd),
        Nat.ofDigitChars_cons]
      congr 2
      exact Nat.mod_eq_of_lt hlt
  rw [digitsNat, natDigits, hfold _ _ hdigit]
  exact Nat.ofDigitChars_ten_toDigits

theorem natDigits_ne_nil (n : Nat) : natDigits n ≠ [] := by
  rw [natDigits, Ne, List.map_eq_nil_iff]
  exact Nat.toDigits_ne_nil

namespace NumAcc

theorem run_int (a : NumAcc) (h : a.phase = .int) : ∀ ds : List Digit,
    a.run (JsNumber.digitsText ds) = some { a with int := a.int ++ ds }
  | [] => by simp [JsNumber.digitsText]
  | d :: ds => by
    have hstep : a.step (digitUnit d) = some { a with int := a.int ++ [d] } := by
      unfold step
      rw [h]
      simp [digitUnit_ne, unitDigit?_digitUnit, (by decide : unitDigit? 0x2E = none),
        (by decide : unitDigit? 0x65 = none), (by decide : unitDigit? 0x45 = none)]
    have hrest := run_int { a with int := a.int ++ [d] } h ds
    rw [JsNumber.digitsText] at hrest ⊢
    rw [List.map_cons, run_cons, hstep, Option.bind_some, hrest]
    simp

theorem run_frac (a : NumAcc) (h : a.phase = .frac) : ∀ ds : List Digit,
    a.run (JsNumber.digitsText ds) = some { a with frac := a.frac ++ ds }
  | [] => by simp [JsNumber.digitsText]
  | d :: ds => by
    have hstep : a.step (digitUnit d) = some { a with frac := a.frac ++ [d] } := by
      unfold step
      rw [h]
      simp [digitUnit_ne, unitDigit?_digitUnit,
        (by decide : unitDigit? 0x65 = none), (by decide : unitDigit? 0x45 = none)]
    have hrest := run_frac { a with frac := a.frac ++ [d] } h ds
    rw [JsNumber.digitsText] at hrest ⊢
    rw [List.map_cons, run_cons, hstep, Option.bind_some, hrest]
    simp

theorem run_exp (a : NumAcc) (h : a.phase = .exp) : ∀ ds : List Digit,
    a.run (JsNumber.digitsText ds) = some { a with exp := a.exp ++ ds }
  | [] => by simp [JsNumber.digitsText]
  | d :: ds => by
    have hstep : a.step (digitUnit d) = some { a with exp := a.exp ++ [d] } := by
      unfold step
      rw [h]
      simp [unitDigit?_digitUnit]
    have hrest := run_exp { a with exp := a.exp ++ [d] } h ds
    rw [JsNumber.digitsText] at hrest ⊢
    rw [List.map_cons, run_cons, hstep, Option.bind_some, hrest]
    simp

/-- The integer part, read up to its first digit. -/
def begun (neg : Bool) (d : Digit) : NumAcc :=
  ⟨if d = 0 then .zero else .int, neg, [d], [], false, []⟩

theorem read_sign (neg : Bool) (d : Digit) (rest : JsString) :
    read ((if neg then js "-" else []) ++ digitUnit d :: rest) = (begun neg d).run rest := by
  have hminus : js "-" = [0x2D] := by decide
  have hne : digitUnit d ≠ 0x2D := digitUnit_ne (by decide)
  cases neg with
  | false =>
    simp [read, first, hne, unitDigit?_digitUnit, begun]
  | true =>
    simp [hminus, read, first, step, unitDigit?_digitUnit, begun]

/-- After the integer part, a point and a digit start the fraction. -/
theorem run_point {a : NumAcc} (h : a.phase = .zero ∨ a.phase = .int) (d : Digit)
    (ds : List Digit) :
    a.run (js "." ++ JsNumber.digitsText (d :: ds))
      = some { a with phase := .frac, frac := d :: ds } := by
  have hdot : js "." = [0x2E] := by decide
  have h1 : a.step 0x2E = some { a with phase := .dot } := by
    unfold step
    rcases h with h | h <;> rw [h] <;> simp
  have h2 : ({ a with phase := .dot } : NumAcc).step (digitUnit d)
      = some { a with phase := .frac, frac := [d] } := by
    simp [step, unitDigit?_digitUnit]
  rw [hdot, List.singleton_append, run_cons, h1, Option.bind_some, JsNumber.digitsText,
    List.map_cons, run_cons, h2, Option.bind_some]
  have h3 := run_frac { a with phase := .frac, frac := [d] } rfl ds
  rw [JsNumber.digitsText] at h3
  rw [h3]
  simp

/-- An exponent, with its sign. -/
theorem run_exponent {a : NumAcc} (h : a.phase = .int ∨ a.phase = .frac) (he : a.eneg = false)
    (neg : Bool) {ds : List Digit} (hds : ds ≠ []) :
    a.run (js "e" ++ js (if neg then "-" else "+") ++ JsNumber.digitsText ds)
      = some { a with phase := .exp, eneg := neg, exp := ds } := by
  have hE : js "e" = [0x65] := by decide
  have hplus : js "+" = [0x2B] := by decide
  have hminus : js "-" = [0x2D] := by decide
  obtain ⟨d, ds, rfl⟩ := List.exists_cons_of_ne_nil hds
  have h1 : a.step 0x65 = some { a with phase := .e } := by
    unfold step
    rcases h with h | h <;> rw [h] <;> simp
  have h2 : ({ a with phase := .e } : NumAcc).step (if neg then 0x2D else 0x2B)
      = some { a with phase := .esign, eneg := neg } := by
    cases neg <;> simp [step, he]
  have h3 : ({ a with phase := .esign, eneg := neg } : NumAcc).step (digitUnit d)
      = some { a with phase := .exp, eneg := neg, exp := [d] } := by
    simp [step, unitDigit?_digitUnit]
  have h4 := run_exp { a with phase := .exp, eneg := neg, exp := [d] } rfl ds
  have hsign : js (if neg then "-" else "+") = [if neg then 0x2D else 0x2B] := by
    cases neg <;> simp [hplus, hminus]
  rw [hE, hsign, JsNumber.digitsText, List.map_cons, List.append_assoc, List.singleton_append,
    List.singleton_append, run_cons, h1, Option.bind_some, run_cons, h2, Option.bind_some,
    run_cons, h3, Option.bind_some]
  rw [JsNumber.digitsText] at h4
  rw [h4]
  simp

end NumAcc

namespace JsNumber

/-- Zeros around significant digits are all that `significant` drops. -/
theorem significant_pad {ds : List Digit} (hhead : ds.head? ≠ some 0)
    (hlast : ds.getLast? ≠ some 0) (hne : ds ≠ []) (i j : Nat) :
    significant (List.replicate i 0 ++ ds ++ List.replicate j 0) = ds ∧
      ((List.replicate i 0 ++ ds ++ List.replicate j 0).takeWhile (· == (0 : Digit))).length
        = i := by
  obtain ⟨d, ds', rfl⟩ := List.exists_cons_of_ne_nil hne
  have hd : (d == 0) = false := by simpa using hhead
  have hrep : ∀ n, ∀ x ∈ List.replicate n (0 : Digit), (x == 0) = true := by
    intro n x hx
    rw [List.eq_of_mem_replicate hx]
    rfl
  constructor
  · rw [significant, List.append_assoc, List.dropWhile_append_of_pos (hrep i), List.cons_append,
      List.dropWhile_cons_of_neg (by simp [hd]), ← List.cons_append, List.rdropWhile,
      List.reverse_append, List.reverse_replicate, List.dropWhile_append_of_pos (hrep j)]
    have hnot : ¬ ((d :: ds').getLast hne == 0) = true := by
      rw [beq_iff_eq]
      intro h
      exact hlast (by rw [List.getLast?_eq_some_getLast hne, h])
    exact List.rdropWhile_eq_self_iff.mpr fun _ => hnot
  · rw [List.append_assoc, List.takeWhile_append_of_pos (hrep i), List.cons_append,
      List.takeWhile_cons_of_neg (by simp [hd]), List.append_nil, List.length_replicate]

/-- A literal that pads the digits of `x` denotes `x` when the point agrees. -/
theorem ofLiteral_eq {x : JsNumber} {int frac : List Digit} {exponent : Int} (hne : x.digits ≠ [])
    {i j : Nat} (hds : int ++ frac = List.replicate i 0 ++ x.digits ++ List.replicate j 0)
    (hpoint : (int.length : Int) + exponent - i = x.point) :
    ofLiteral x.neg int frac exponent = x := by
  obtain ⟨hsig, hlead⟩ := significant_pad x.canonical.1 x.canonical.2.1 hne i j
  rw [← hds] at hsig hlead
  have hemp : (significant (int ++ frac)).isEmpty = false := by
    rw [hsig]
    exact List.isEmpty_eq_false_iff.mpr hne
  cases x with
  | mk neg digits point canonical =>
    simp only [ofLiteral, mk.injEq]
    refine ⟨?_, hsig, ?_⟩
    · rw [hemp]
      simp
    · rw [hemp, hlead]
      simpa using hpoint

end JsNumber

/-- The text is read as the number. -/
def NumAcc.Reads (x : JsNumber) (text : JsString) : Prop :=
  ∃ a, NumAcc.read text = some a ∧ a.complete = true ∧ a.value = x

namespace NumAcc

variable {x : JsNumber}

theorem reads_zero (hne : x.digits = []) : Reads x x.text := by
  obtain ⟨-, -, hzero⟩ := x.canonical
  obtain ⟨hneg, hpoint⟩ := hzero hne
  have htext : x.text = [digitUnit 0] := by
    rw [JsNumber.text, hneg, JsNumber.absText, if_pos hne]
    decide
  refine ⟨begun false 0, ?_, rfl, ?_⟩
  · rw [htext]
    exact read_sign false 0 []
  · cases x with
    | mk neg digits point canonical =>
      obtain rfl : digits = [] := hne
      obtain rfl : neg = false := hneg
      obtain rfl : point = 0 := hpoint
      rfl

section Digits

variable {d : Digit} {ds : List Digit} (hds : x.digits = d :: ds) (hd0 : d ≠ 0)
include hds

theorem digits_ne_nil : x.digits ≠ [] := by
  rw [hds]
  exact List.cons_ne_nil d ds

theorem digits_length : (x.digits.length : Int) = ds.length + 1 := by
  rw [hds, List.length_cons]
  push_cast
  rfl

include hd0

/-- An integer, with zeros behind the digits. -/
theorem reads_integer (h1 : (x.digits.length : Int) ≤ x.point ∧ x.point ≤ 21) :
    Reads x x.text := by
  have hne := digits_ne_nil hds
  have hk := digits_length hds
  have hbegun : (begun x.neg d).phase = .int := if_neg hd0
  rw [JsNumber.text, JsNumber.absText, if_neg hne]
  rw [if_pos h1, hds]
  refine ⟨{ begun x.neg d with
    int := [d] ++ (ds ++ List.replicate (x.point - (d :: ds).length).toNat 0) }, ?_, ?_, ?_⟩
  · rw [List.cons_append, JsNumber.digitsText, List.map_cons, read_sign]
    exact run_int (begun x.neg d) hbegun _
  · simp only [complete, hbegun]
  · refine JsNumber.ofLiteral_eq (i := 0) (j := (x.point - (d :: ds).length).toNat) hne ?_ ?_
    · simp [hds, begun]
    · simp only [begun, List.length_append, List.length_cons, List.length_replicate,
        List.length_nil, digitsNat, List.foldl_nil, Bool.false_eq_true, if_false]
      push_cast
      omega

/-- The point inside the digits. -/
theorem reads_inside (h1 : ¬ ((x.digits.length : Int) ≤ x.point ∧ x.point ≤ 21))
    (h2 : 0 < x.point ∧ x.point ≤ 21) : Reads x x.text := by
  have hne := digits_ne_nil hds
  have hk := digits_length hds
  have hbegun : (begun x.neg d).phase = .int := if_neg hd0
  rw [JsNumber.text, JsNumber.absText, if_neg hne, if_neg h1]
  obtain ⟨n, hn⟩ : ∃ n : Nat, x.point = n + 1 := ⟨(x.point - 1).toNat, by omega⟩
  have hn' : x.point.toNat = n + 1 := by omega
  have hlt : n < ds.length := by omega
  obtain ⟨f, fs, hfs⟩ := List.exists_cons_of_ne_nil
    (List.ne_nil_of_length_pos (by rw [List.length_drop]; omega) : ds.drop n ≠ [])
  rw [if_pos h2, hn', hds, List.take_succ_cons, List.drop_succ_cons, hfs]
  refine ⟨{ begun x.neg d with phase := .frac, int := [d] ++ ds.take n, frac := f :: fs },
    ?_, rfl, ?_⟩
  · have hint := run_int (begun x.neg d) hbegun (ds.take n)
    have hpt := run_point (a := { begun x.neg d with int := [d] ++ ds.take n })
      (Or.inr hbegun) f fs
    rw [List.append_assoc, ← List.append_assoc, JsNumber.digitsText, List.map_cons,
      List.append_assoc, List.cons_append, read_sign, run_append]
    rw [JsNumber.digitsText] at hint
    rw [hint]
    exact hpt
  · refine JsNumber.ofLiteral_eq (i := 0) (j := 0) hne ?_ ?_
    · simp [hds, ← hfs]
    · simp only [List.length_append, List.length_cons, List.length_nil, List.length_take,
        begun, digitsNat, List.foldl_nil, Bool.false_eq_true, if_false]
      push_cast
      omega

omit hd0 in
/-- Zeros between the point and the digits. -/
theorem reads_behind (h1 : ¬ ((x.digits.length : Int) ≤ x.point ∧ x.point ≤ 21))
    (h2 : ¬ (0 < x.point ∧ x.point ≤ 21)) (h3 : -6 < x.point ∧ x.point ≤ 0) :
    Reads x x.text := by
  have hne := digits_ne_nil hds
  rw [JsNumber.text, JsNumber.absText, if_neg hne, if_neg h1, if_neg h2]
  have hzeros : List.replicate (-x.point).toNat (0 : Digit) ++ x.digits ≠ [] := by
    simp [hne]
  obtain ⟨f, fs, hfs⟩ := List.exists_cons_of_ne_nil hzeros
  rw [if_pos h3, hfs]
  refine ⟨{ begun x.neg 0 with phase := .frac, frac := f :: fs }, ?_, rfl, ?_⟩
  · have hpre : js "0." = digitUnit 0 :: js "." := by decide
    rw [hpre, List.cons_append, read_sign]
    exact run_point (Or.inl rfl) f fs
  · refine JsNumber.ofLiteral_eq (i := (-x.point).toNat + 1) (j := 0) hne ?_ ?_
    · rw [← hfs]
      simp [begun, List.replicate_succ]
    · simp only [begun, List.length_cons, List.length_nil, digitsNat, List.foldl_nil,
        Bool.false_eq_true, if_false]
      push_cast
      omega

/-- An exponent. -/
theorem reads_exponent (h1 : ¬ ((x.digits.length : Int) ≤ x.point ∧ x.point ≤ 21))
    (h2 : ¬ (0 < x.point ∧ x.point ≤ 21)) (h3 : ¬ (-6 < x.point ∧ x.point ≤ 0)) :
    Reads x x.text := by
  have hne := digits_ne_nil hds
  have hk := digits_length hds
  have hbegun : (begun x.neg d).phase = .int := if_neg hd0
  rw [JsNumber.text, JsNumber.absText, if_neg hne, if_neg h1, if_neg h2, if_neg h3]
  have hexp := natDigits_ne_nil (x.point - 1).natAbs
  have hsign : (if 0 ≤ x.point - 1 then "+" else "-")
      = if (decide (x.point - 1 < 0)) then "-" else "+" := by
    by_cases h : 0 ≤ x.point - 1
    · rw [if_pos h, if_neg (by rw [decide_eq_true_eq]; omega)]
    · rw [if_neg h, if_pos (by rw [decide_eq_true_eq]; omega)]
  rw [hsign, hds]
  have hval : ∀ a : NumAcc, a.neg = x.neg → a.int = [d] → a.frac = ds →
      a.eneg = decide (x.point - 1 < 0) → a.exp = natDigits (x.point - 1).natAbs →
      a.value = x := by
    intro a hneg hint hfrac heneg haexp
    rw [value, hneg, hint, hfrac, heneg, haexp, digitsNat_natDigits]
    refine JsNumber.ofLiteral_eq (i := 0) (j := 0) hne ?_ ?_
    · simp [hds]
    · simp only [List.length_cons, List.length_nil, decide_eq_true_eq]
      split <;> omega
  cases ds with
  | nil =>
    refine ⟨{ begun x.neg d with
      phase := .exp, eneg := decide (x.point - 1 < 0), exp := natDigits (x.point - 1).natAbs },
      ?_, rfl, hval _ rfl rfl rfl rfl rfl⟩
    have hrun := run_exponent (a := begun x.neg d) (Or.inl hbegun) rfl
      (decide (x.point - 1 < 0)) hexp
    simp only [List.take_succ_cons, List.take_nil, List.length_cons, List.length_nil,
      if_true, List.append_nil, JsNumber.digitsText, List.map_cons, List.map_nil,
      List.cons_append, List.nil_append, List.append_assoc] at hrun ⊢
    rw [read_sign]
    exact hrun
  | cons f fs =>
    refine ⟨{ begun x.neg d with
      phase := .exp, frac := f :: fs, eneg := decide (x.point - 1 < 0),
      exp := natDigits (x.point - 1).natAbs }, ?_, rfl, hval _ rfl rfl rfl rfl rfl⟩
    have hpt := run_point (a := begun x.neg d) (Or.inr hbegun) f fs
    have hrun := run_exponent (a := { begun x.neg d with phase := .frac, frac := f :: fs })
      (Or.inr rfl) rfl (decide (x.point - 1 < 0)) hexp
    have hlen : ¬ (d :: f :: fs).length = 1 := by simp
    rw [if_neg hlen, List.take_succ_cons, List.take_zero, List.drop_succ_cons, List.drop_zero]
    have hsplit : ∀ (e s n : JsString),
        JsNumber.digitsText [d] ++ (js "." ++ JsNumber.digitsText (f :: fs)) ++ e ++ s ++ n
          = digitUnit d :: ((js "." ++ JsNumber.digitsText (f :: fs)) ++ (e ++ s ++ n)) := by
      intro e s n
      simp [JsNumber.digitsText]
    rw [hsplit, read_sign, run_append, hpt, Option.bind_some]
    exact hrun

end Digits

end NumAcc

/-- **Number round trip**: the text of a number is a complete literal, and it
denotes the number. -/
theorem NumAcc.read_text (x : JsNumber) :
    ∃ a, NumAcc.read x.text = some a ∧ a.complete = true ∧ a.value = x := by
  by_cases hne : x.digits = []
  · exact reads_zero hne
  obtain ⟨d, ds, hds⟩ := List.exists_cons_of_ne_nil hne
  have hd0 : d ≠ 0 := by
    rintro rfl
    exact x.canonical.1 (by rw [hds]; rfl)
  by_cases h1 : (x.digits.length : Int) ≤ x.point ∧ x.point ≤ 21
  · exact reads_integer hds hd0 h1
  by_cases h2 : 0 < x.point ∧ x.point ≤ 21
  · exact reads_inside hds hd0 h1 h2
  by_cases h3 : -6 < x.point ∧ x.point ≤ 0
  · exact reads_behind hds h1 h2 h3
  exact reads_exponent hds hd0 h1 h2 h3

/-! ## Counts -/

theorem digitsNat_append (as bs : List Digit) :
    digitsNat (as ++ bs) = digitsNat as * 10 ^ bs.length + digitsNat bs := by
  induction bs using List.reverseRecOn with
  | nil => simp [digitsNat]
  | append_singleton bs b ih =>
    have hlast : ∀ ds : List Digit, digitsNat (ds ++ [b]) = 10 * digitsNat ds + b.val := by
      intro ds
      simp [digitsNat]
    rw [← List.append_assoc, hlast, hlast, ih, List.length_append, List.length_singleton,
      Nat.pow_succ]
    ring

theorem digitsNat_zeros : ∀ {ds : List Digit}, (∀ d ∈ ds, d = 0) → digitsNat ds = 0
  | [], _ => rfl
  | d :: ds, h => by
    have hd : d = 0 := h d List.mem_cons_self
    have hds := digitsNat_zeros fun e he => h e (List.mem_cons_of_mem d he)
    rw [← List.singleton_append, digitsNat_append, hds, hd]
    simp [digitsNat]

namespace JsNumber

/-- What `significant` drops: leading zeros and trailing ones. -/
theorem significant_split (ds : List Digit) : ∃ zs : List Digit, (∀ d ∈ zs, d = 0) ∧
    ds = ds.takeWhile (· == 0) ++ (significant ds ++ zs) := by
  refine ⟨(ds.dropWhile (· == 0)).rtakeWhile (· == 0), ?_, ?_⟩
  · intro d hd
    have := List.mem_rtakeWhile_imp hd
    simpa using this
  · rw [significant, List.rdropWhile_append_rtakeWhile, List.takeWhile_append_dropWhile]

/-- The count some digits spell is read back from the number they denote. -/
theorem toNat?_ofLiteral (ds : List Digit) :
    toNat? (ofLiteral false ds [] 0) = some (digitsNat ds) := by
  obtain ⟨zs, hzs, hds⟩ := significant_split ds
  have hlead : digitsNat (ds.takeWhile (· == 0)) = 0 := by
    refine digitsNat_zeros fun d hd => ?_
    have := List.mem_takeWhile_imp hd
    simpa using this
  have hnat : digitsNat ds = digitsNat (significant ds) * 10 ^ zs.length := by
    conv_lhs => rw [hds]
    rw [digitsNat_append, digitsNat_append, hlead, digitsNat_zeros hzs]
    simp
  have hlen : ds.length = (ds.takeWhile (· == 0)).length + (significant ds).length + zs.length := by
    conv_lhs => rw [hds]
    rw [List.length_append, List.length_append]
    omega
  by_cases hsig : significant ds = []
  · rw [hnat, hsig]
    simp [toNat?, ofLiteral, hsig, digitsNat]
  · have hemp : (significant ds).isEmpty = false := List.isEmpty_eq_false_iff.mpr hsig
    have hpoint : (ofLiteral false ds [] 0).point = (significant ds).length + zs.length := by
      simp only [ofLiteral, List.append_nil, hemp, Bool.false_eq_true, if_false]
      omega
    have hdigits : (ofLiteral false ds [] 0).digits = significant ds := by
      simp only [ofLiteral, List.append_nil]
    have hneg : (ofLiteral false ds [] 0).neg = false := by simp [ofLiteral]
    rw [toNat?, hneg, hpoint, hdigits, if_pos ⟨rfl, by omega⟩, hnat]
    congr 3
    omega

/-- A count reads back as itself. -/
@[simp] theorem toNat?_ofNat (n : Nat) : toNat? (ofNat n) = some n := by
  rw [ofNat, toNat?_ofLiteral, digitsNat_natDigits]

/-- Counts are told apart. -/
@[simp] theorem ofNat_inj {m n : Nat} : ofNat m = ofNat n ↔ m = n := by
  refine ⟨fun h => ?_, fun h => by rw [h]⟩
  have := toNat?_ofNat m
  rw [h, toNat?_ofNat] at this
  exact (Option.some.inj this).symm

end JsNumber

end PiMono
