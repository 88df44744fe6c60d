import Mathlib.Data.Nat.Log
import Mathlib.Tactic.Ring

/-!
# Numbers as binary64 carries them

`Float64` is a number of the language: an IEEE 754 binary64, with one `NaN`. A
finite one is its three fields, so no two of them are the same bits. `toBits` and
`ofBits` are `setFloat64` and `getFloat64`, `toInt?` is the integer a number is,
and `ofSafe` the number a safe integer is. `toInt?_ofSafe` and `ofSafe_toInt?` say
that safe integers other than `-0` and numbers are one thing.
-/

namespace PiMono

/-- A binary64. The exponent `2047` is that of the infinities and of `NaN`. -/
inductive Float64 where
  | nan
  | infinity (neg : Bool)
  | finite (neg : Bool) (exponent : Fin 2047) (fraction : Fin (2 ^ 52))
  deriving DecidableEq

/-- A safe integer: `Number.isSafeInteger`. -/
abbrev SafeInt := { n : Int // n.natAbs < 2 ^ 53 }

namespace Float64

/-- `-0` -/
def negZero : Float64 := .finite true 0 0

/-- `Number.isFinite` -/
def isFinite : Float64 → Bool
  | .finite .. => true
  | .nan | .infinity _ => false

/-! ## Bits -/

def signBit (neg : Bool) : Nat := if neg then 2 ^ 63 else 0

/-- The 64 bits of a number. -/
def toBits : Float64 → Nat
  | .nan => 2047 * 2 ^ 52 + 2 ^ 51
  | .infinity neg => signBit neg + 2047 * 2 ^ 52
  | .finite neg exponent fraction => signBit neg + exponent.val * 2 ^ 52 + fraction.val

/-- The number that 64 bits are. -/
def ofBits (n : Nat) : Float64 :=
  if h : n / 2 ^ 52 % 2048 < 2047 then
    .finite (2 ^ 63 ≤ n) ⟨n / 2 ^ 52 % 2048, h⟩ ⟨n % 2 ^ 52, Nat.mod_lt _ (by decide)⟩
  else if n % 2 ^ 52 = 0 then .infinity (2 ^ 63 ≤ n)
  else .nan

theorem toBits_lt (x : Float64) : x.toBits < 2 ^ 64 := by
  cases x with
  | nan => decide
  | infinity neg => cases neg <;> decide
  | finite neg e f =>
    have he := e.isLt
    have hf := f.isLt
    have hsign : signBit neg ≤ 2 ^ 63 := by cases neg <;> decide
    rw [toBits]
    omega

theorem ofBits_finite (neg : Bool) (e : Fin 2047) (f : Fin (2 ^ 52)) :
    ofBits (signBit neg + e.val * 2 ^ 52 + f.val) = .finite neg e f := by
  have he := e.isLt
  have hf := f.isLt
  have hexp : (signBit neg + e.val * 2 ^ 52 + f.val) / 2 ^ 52 % 2048 = e.val := by
    cases neg <;> simp only [signBit, Bool.false_eq_true, if_false, if_true] <;> omega
  have hfrac : (signBit neg + e.val * 2 ^ 52 + f.val) % 2 ^ 52 = f.val := by
    cases neg <;> simp only [signBit, Bool.false_eq_true, if_false, if_true] <;> omega
  have hneg : decide (2 ^ 63 ≤ signBit neg + e.val * 2 ^ 52 + f.val) = neg := by
    cases neg <;> simp only [signBit, Bool.false_eq_true, if_false, if_true,
      decide_eq_true_eq, decide_eq_false_iff_not] <;> omega
  rw [ofBits, dif_pos (by omega)]
  simp only [hexp, hfrac, hneg]

/-- A finite number is read back from its bits. -/
theorem ofBits_toBits {x : Float64} (h : x.isFinite = true) : ofBits x.toBits = x := by
  cases x with
  | nan => cases h
  | infinity neg => cases h
  | finite neg e f => exact ofBits_finite neg e f

/-! ## Integers -/

/-- The bits of a finite number behind its point: `significand / 2 ^ places`, times
`2 ^ shift`; one of `places` and `shift` is zero. -/
def significand (exponent : Fin 2047) (fraction : Fin (2 ^ 52)) : Nat :=
  if exponent.val = 0 then fraction.val else 2 ^ 52 + fraction.val

def places (exponent : Fin 2047) : Nat := 1075 - max exponent.val 1

def shift (exponent : Fin 2047) : Nat := exponent.val - 1075

/-- The integer with a sign. -/
def signed (neg : Bool) (n : Nat) : Int := if neg then -n else n

/-- Whether a finite number is at least the natural number; `-0` is as large as `0`. -/
def atLeast (n : Nat) : Float64 → Bool
  | .nan | .infinity _ => false
  | .finite neg e f =>
    if neg then significand e f = 0 ∧ n = 0
    else n * 2 ^ places e ≤ significand e f * 2 ^ shift e

/-- The integer a number is (`Number.isInteger`); that of `-0` is `0`. -/
def toInt? : Float64 → Option Int
  | .nan | .infinity _ => none
  | .finite neg e f =>
    if 2 ^ places e ∣ significand e f then
      some (signed neg (significand e f / 2 ^ places e * 2 ^ shift e))
    else none

/-- `Number.isInteger` -/
def isInteger (x : Float64) : Bool := x.toInt?.isSome

/-- The integer a number is, if it is a safe one (`Number.isSafeInteger`). -/
def toSafe? (x : Float64) : Option SafeInt :=
  match x.toInt? with
  | some n => if h : n.natAbs < 2 ^ 53 then some ⟨n, h⟩ else none
  | none => none

theorem toSafe?_eq_some {x : Float64} {n : SafeInt} :
    x.toSafe? = some n ↔ x.toInt? = some n.val := by
  unfold toSafe?
  cases x.toInt? with
  | none => simp
  | some m =>
    simp only [Option.some.injEq]
    constructor
    · intro h
      split at h
      · rw [← Option.some.inj h]
      · cases h
    · rintro rfl
      rw [dif_pos n.property]

theorem isInteger_of_toSafe? {x : Float64} {n : SafeInt} (h : x.toSafe? = some n) :
    x.isInteger = true := by
  rw [isInteger, toSafe?_eq_some.mp h]
  rfl

private theorem fraction_lt {a : Nat} (ha : a ≠ 0) (hlt : a < 2 ^ 53) :
    a.log2 ≤ 52 ∧ 2 ^ 52 ≤ a * 2 ^ (52 - a.log2) ∧
      a * 2 ^ (52 - a.log2) - 2 ^ 52 < 2 ^ 52 := by
  have hk : a.log2 < 53 := (Nat.log2_lt ha).mpr hlt
  have hlo : 2 ^ a.log2 ≤ a := Nat.log2_self_le ha
  have hhi : a < 2 ^ (a.log2 + 1) := Nat.lt_log2_self
  have hsplit : 2 ^ a.log2 * 2 ^ (52 - a.log2) = 2 ^ 52 := by
    rw [← Nat.pow_add]
    congr 1
    omega
  have hmul := Nat.mul_le_mul_right (2 ^ (52 - a.log2)) hlo
  have hmul' := Nat.mul_lt_mul_of_pos_right hhi (Nat.two_pow_pos (52 - a.log2))
  rw [Nat.pow_succ, Nat.mul_right_comm, hsplit] at hmul'
  rw [hsplit] at hmul
  refine ⟨by omega, hmul, by omega⟩

/-- The number a safe integer is. -/
def ofSafe (n : SafeInt) : Float64 :=
  if h : n.val.natAbs = 0 then .finite false 0 0
  else .finite (n.val < 0)
    ⟨1023 + n.val.natAbs.log2, by have := (fraction_lt h n.property).1; omega⟩
    ⟨n.val.natAbs * 2 ^ (52 - n.val.natAbs.log2) - 2 ^ 52, (fraction_lt h n.property).2.2⟩

theorem signed_natAbs (n : Int) : signed (n < 0) n.natAbs = n := by
  unfold signed
  split
  · rename_i hneg
    have hneg' := of_decide_eq_true hneg
    omega
  · rename_i hneg
    have hpos : ¬ n < 0 := by simpa using hneg
    omega

theorem isFinite_ofSafe (n : SafeInt) : (ofSafe n).isFinite = true := by
  unfold ofSafe
  split <;> rfl

theorem ofSafe_ne_negZero (n : SafeInt) : ofSafe n ≠ negZero := by
  unfold ofSafe negZero
  split
  · simp
  · rename_i hne
    intro h
    have hexp := congrArg Fin.val (Float64.finite.inj h).2.1
    simp at hexp

theorem toInt?_finite {neg : Bool} {e : Fin 2047} {f : Fin (2 ^ 52)}
    (h : 2 ^ places e ∣ significand e f) :
    toInt? (.finite neg e f)
      = some (signed neg (significand e f / 2 ^ places e * 2 ^ shift e)) := by
  rw [toInt?, if_pos h]

theorem toInt?_zero : toInt? (.finite false 0 0) = some 0 := by decide +kernel

/-- A safe integer is the integer of its number. -/
theorem toInt?_ofSafe (n : SafeInt) : (ofSafe n).toInt? = some n.val := by
  unfold ofSafe
  split
  · rename_i hzero
    rw [toInt?_zero, Int.natAbs_eq_zero.mp hzero]
  · rename_i hzero
    obtain ⟨hk, hge, hlt⟩ := fraction_lt hzero n.property
    generalize he : (⟨1023 + n.val.natAbs.log2, _⟩ : Fin 2047) = e
    generalize hf : (⟨n.val.natAbs * 2 ^ (52 - n.val.natAbs.log2) - 2 ^ 52, _⟩ :
      Fin (2 ^ 52)) = f
    have he' : e.val = 1023 + n.val.natAbs.log2 := by rw [← he]
    have hf' : f.val = n.val.natAbs * 2 ^ (52 - n.val.natAbs.log2) - 2 ^ 52 := by rw [← hf]
    have hplaces : places e = 52 - n.val.natAbs.log2 := by
      unfold places
      omega
    have hshift : shift e = 0 := by
      unfold shift
      omega
    have hsig : significand e f = n.val.natAbs * 2 ^ (52 - n.val.natAbs.log2) := by
      rw [significand, if_neg (by omega), hf', Nat.add_sub_cancel' hge]
    rw [toInt?_finite (by rw [hplaces, hsig]; exact Nat.dvd_mul_left ..), hplaces, hshift, hsig,
      Nat.mul_div_cancel _ (Nat.two_pow_pos _), Nat.pow_zero, Nat.mul_one, signed_natAbs]

theorem natAbs_signed (neg : Bool) (n : Nat) : (signed neg n).natAbs = n := by
  cases neg <;> simp [signed]

private theorem log2_eq {a k : Nat} (hlo : 2 ^ k ≤ a) (hhi : a < 2 ^ (k + 1)) : a.log2 = k := by
  have hne : a ≠ 0 := by
    have := Nat.two_pow_pos k
    omega
  have h1 : a.log2 < k + 1 := (Nat.log2_lt hne).mpr hhi
  have h2 : ¬ a.log2 < k := fun h => by
    have := (Nat.log2_lt hne).mp h
    omega
  omega

/-- A significand that is a whole number of `2 ^ d` is a whole number with a bit fewer. -/
private theorem log2_div {m d : Nat} (hm : 2 ^ 52 ≤ m) (hlt : m < 2 ^ 53) (hd : d ≤ 52) :
    (m / 2 ^ d).log2 = 52 - d := by
  apply log2_eq
  · rw [Nat.le_div_iff_mul_le (Nat.two_pow_pos d), ← Nat.pow_add]
    have : 52 - d + d = 52 := by omega
    rwa [this]
  · rw [Nat.div_lt_iff_lt_mul (Nat.two_pow_pos d), ← Nat.pow_add]
    have : 52 - d + 1 + d = 53 := by omega
    rwa [this]

private theorem finite_congr {neg neg' : Bool} {e e' : Fin 2047} {f f' : Fin (2 ^ 52)}
    (hneg : neg = neg') (he : e.val = e'.val) (hf : f.val = f'.val) :
    Float64.finite neg e f = .finite neg' e' f' := by
  rw [hneg, Fin.ext he, Fin.ext hf]

private theorem shift_of_safe {e : Fin 2047} {m : Nat} (hlo : 2 ^ 52 ≤ m)
    (hn : m / 2 ^ places e * 2 ^ shift e < 2 ^ 53) : shift e = 0 := by
  by_contra hshift
  have hplaces : places e = 0 := by
    unfold shift at hshift
    unfold places
    omega
  rw [hplaces, Nat.pow_zero, Nat.div_one] at hn
  have htwo : 2 ^ 1 ≤ 2 ^ shift e := Nat.pow_le_pow_right (by decide) (by omega)
  have := Nat.mul_le_mul hlo htwo
  omega

private theorem ofSafe_signed {neg : Bool} {e : Fin 2047} {f : Fin (2 ^ 52)} {a : Nat}
    (hpos : a ≠ 0) (hd : places e ≤ 52) (hshift : shift e = 0)
    (hsig : significand e f = 2 ^ 52 + f.val) (hback : a * 2 ^ places e = significand e f)
    (hlog : a.log2 = 52 - places e) (hn : (signed neg a).natAbs < 2 ^ 53) :
    ofSafe ⟨signed neg a, hn⟩ = .finite neg e f := by
  have habs : (signed neg a).natAbs = a := natAbs_signed neg a
  unfold ofSafe
  rw [dif_neg (by rwa [habs])]
  refine finite_congr ?_ ?_ ?_
  · cases neg
    · simp [signed]
    · simpa [signed] using Nat.pos_of_ne_zero hpos
  · show 1023 + (signed neg a).natAbs.log2 = e.val
    rw [habs, hlog]
    unfold shift at hshift
    unfold places at hd ⊢
    omega
  · show (signed neg a).natAbs * 2 ^ (52 - (signed neg a).natAbs.log2) - 2 ^ 52 = f.val
    have hplaces : 52 - (52 - places e) = places e := by omega
    rw [habs, hlog, hplaces, hback, hsig, Nat.add_sub_cancel_left]

/-- A number other than `-0` is the number of its integer, if that is safe. -/
theorem ofSafe_toInt? {x : Float64} {n : Int} (h : x.toInt? = some n) (hx : x ≠ negZero)
    (hn : n.natAbs < 2 ^ 53) : ofSafe ⟨n, hn⟩ = x := by
  cases x with
  | nan => cases h
  | infinity neg => cases h
  | finite neg e f =>
    have hf := f.isLt
    rw [toInt?] at h
    split at h
    · rename_i hdvd
      have hsafe := Option.some.inj h
      subst hsafe
      rw [natAbs_signed] at hn
      by_cases he : e.val = 0
      · -- a subnormal number is no integer but zero
        have hsig : significand e f = f.val := by simp [significand, he]
        have hplaces : places e = 1074 := by
          rw [places, he]
          rfl
        rw [hsig] at hdvd
        have hzero : f.val = 0 := Nat.eq_zero_of_dvd_of_lt hdvd
          (lt_of_lt_of_le hf (Nat.pow_le_pow_right (by decide) (by omega)))
        have hneg : neg = false := by
          cases neg with
          | false => rfl
          | true =>
            exact absurd (finite_congr rfl he hzero) hx
        subst hneg
        unfold ofSafe
        rw [dif_pos (by simp [hsig, hzero, signed])]
        exact finite_congr rfl he.symm hzero.symm
      · have hsig : significand e f = 2 ^ 52 + f.val := by rw [significand, if_neg he]
        have hlo : 2 ^ 52 ≤ significand e f := by omega
        have hhi : significand e f < 2 ^ 53 := by omega
        have hd : places e ≤ 52 := by
          by_contra hd
          have h53 : 2 ^ 53 ∣ significand e f :=
            dvd_trans (Nat.pow_dvd_pow 2 (by omega)) hdvd
          have := Nat.eq_zero_of_dvd_of_lt h53 hhi
          omega
        have hback : significand e f / 2 ^ places e * 2 ^ places e = significand e f :=
          Nat.div_mul_cancel hdvd
        have hpos : significand e f / 2 ^ places e ≠ 0 := by
          intro hzero
          rw [hzero, Nat.zero_mul] at hback
          omega
        have hshift : shift e = 0 := shift_of_safe hlo hn
        have hwhole : significand e f / 2 ^ places e * 2 ^ shift e
            = significand e f / 2 ^ places e := by
          rw [hshift, Nat.pow_zero, Nat.mul_one]
        have hlt : (signed neg (significand e f / 2 ^ places e)).natAbs < 2 ^ 53 := by
          rw [natAbs_signed, ← hwhole]
          exact hn
        have hone := ofSafe_signed hpos hd hshift hsig hback (log2_div hlo hhi hd) hlt
        refine (congrArg ofSafe (Subtype.ext ?_)).trans hone
        exact congrArg (signed neg) hwhole
    · cases h

theorem ofSafe_toSafe? {x : Float64} {n : SafeInt} (h : x.toSafe? = some n) (hx : x ≠ negZero) :
    ofSafe n = x := ofSafe_toInt? (toSafe?_eq_some.mp h) hx n.property

theorem toSafe?_negZero : negZero.toSafe? = some ⟨0, by decide⟩ := by decide +kernel

end Float64

end PiMono
