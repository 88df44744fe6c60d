import Mathlib.Data.List.Basic
import Mathlib.Tactic.Ring

/-!
# Reading a value off the front of some bytes

`ByteReader ε α` takes a value off the front of the bytes it is given, or fails.
`Reads r bs a` says that `bs` is one spelling of `a`: in front of any other bytes `r`
takes exactly `bs` and returns `a`. Its rules follow the reader's own structure
(`Reads.pure`, `Reads.bind`, `Reads.repeated`), and `bind_eq_ok` inverts a successful
run the same way. `bigEndian` and `ofBigEndian` are the fixed-width numbers that such
formats are made of.
-/

namespace PiMono

/-- A reader: what it takes off the front, and what it leaves. -/
abbrev ByteReader (ε α : Type) := StateT (List UInt8) (Except ε) α

namespace ByteReader

variable {ε α β : Type}

/-- Taking `n` bytes off the front, if there are that many. -/
def take (n : Nat) (short : ε) : ByteReader ε (List UInt8) := fun bytes =>
  if n ≤ bytes.length then .ok (bytes.take n, bytes.drop n) else .error short

/-- Reading the same thing `n` times. -/
def repeated (r : ByteReader ε α) : Nat → ByteReader ε (List α)
  | 0 => pure []
  | n + 1 => do
    let a ← r
    let as ← repeated r n
    pure (a :: as)

/-! ## What a reader makes of a spelling -/

/-- `r` reads `bs` as `a`, whatever stands behind. -/
def Reads (r : ByteReader ε α) (bs : List UInt8) (a : α) : Prop :=
  ∀ rest, r (bs ++ rest) = .ok (a, rest)

theorem Reads.pure (a : α) : Reads (Pure.pure a : ByteReader ε α) [] a := fun _ => rfl

theorem Reads.bind {r : ByteReader ε α} {f : α → ByteReader ε β} {bs cs : List UInt8} {a : α}
    {b : β} (hr : Reads r bs a) (hf : Reads (f a) cs b) : Reads (r >>= f) (bs ++ cs) b := by
  intro rest
  show (r (bs ++ cs ++ rest) >>= fun p => f p.1 p.2) = _
  rw [List.append_assoc, hr (cs ++ rest)]
  exact hf rest

/-- A reader that goes on without reading anything more. -/
theorem Reads.map {r : ByteReader ε α} {f : α → ByteReader ε β} {bs : List UInt8} {a : α} {b : β}
    (hr : Reads r bs a) (hf : Reads (f a) [] b) : Reads (r >>= f) bs b := by
  have := hr.bind hf
  rwa [List.append_nil] at this

theorem Reads.take {n : Nat} {bs : List UInt8} (h : bs.length = n) (short : ε) :
    Reads (take n short) bs bs := by
  intro rest
  subst h
  show (if _ then Except.ok _ else _) = _
  rw [if_pos (by simp), List.take_left, List.drop_left]

theorem Reads.repeated {r : ByteReader ε α} :
    ∀ {spellings : List (List UInt8)} {as : List α},
      List.Forall₂ (Reads r) spellings as → Reads (repeated r as.length) spellings.flatten as
  | _, _, .nil => Reads.pure []
  | _, _, .cons ha has => by
    rw [List.flatten_cons, List.length_cons]
    exact ha.bind ((Reads.repeated has).map (Reads.pure _))

/-! ## What a successful run was made of -/

theorem pure_eq_ok {a b : α} {bytes rest : List UInt8} :
    (pure a : ByteReader ε α) bytes = .ok (b, rest) ↔ a = b ∧ bytes = rest := by
  show Except.ok (a, bytes) = _ ↔ _
  simp

theorem throw_ne_ok {e : ε} {b : α} {bytes rest : List UInt8} :
    (throw e : ByteReader ε α) bytes ≠ .ok (b, rest) := by
  intro h
  cases h

theorem bind_eq_ok {r : ByteReader ε α} {f : α → ByteReader ε β} {b : β}
    {bytes rest : List UInt8} :
    (r >>= f) bytes = .ok (b, rest) ↔
      ∃ a mid, r bytes = .ok (a, mid) ∧ f a mid = .ok (b, rest) := by
  show (r bytes >>= fun p => f p.1 p.2) = _ ↔ _
  cases hr : r bytes with
  | error e =>
    constructor
    · intro h
      cases h
    · rintro ⟨a, mid, h, -⟩
      cases h
  | ok p =>
    constructor
    · intro h
      exact ⟨p.1, p.2, rfl, h⟩
    · rintro ⟨a, mid, h, hf⟩
      cases h
      exact hf

theorem take_eq_ok {n : Nat} {short : ε} {bs bytes rest : List UInt8}
    (h : take n short bytes = .ok (bs, rest)) : bs.length = n ∧ bytes = bs ++ rest := by
  unfold take at h
  split at h
  · rename_i hn
    cases h
    exact ⟨List.length_take_of_le hn, (List.take_append_drop ..).symm⟩
  · cases h

/-- A successful repetition took one spelling after the other. -/
theorem repeated_eq_ok {r : ByteReader ε α} {P : List UInt8 → α → Prop}
    (hr : ∀ bytes a rest, r bytes = .ok (a, rest) → ∃ used, bytes = used ++ rest ∧ P used a) :
    ∀ {n : Nat} {bytes rest : List UInt8} {as : List α},
      repeated r n bytes = .ok (as, rest) →
        as.length = n ∧ ∃ used, bytes = used.flatten ++ rest ∧ List.Forall₂ P used as
  | 0, bytes, rest, as, h => by
    obtain ⟨rfl, rfl⟩ := pure_eq_ok.mp h
    exact ⟨rfl, [], rfl, .nil⟩
  | n + 1, bytes, rest, as, h => by
    obtain ⟨a, mid, ha, hrest⟩ := bind_eq_ok.mp h
    obtain ⟨as', mid', has, hpure⟩ := bind_eq_ok.mp hrest
    obtain ⟨rfl, rfl⟩ := pure_eq_ok.mp hpure
    obtain ⟨used, rfl, hP⟩ := hr _ _ _ ha
    obtain ⟨hlen, useds, rfl, hPs⟩ := repeated_eq_ok hr has
    refine ⟨by rw [List.length_cons, hlen], used :: useds, ?_, .cons hP hPs⟩
    rw [List.flatten_cons, List.append_assoc]

end ByteReader

/-! ## Numbers of a fixed width -/

/-- The last `width` bytes of a number, the most significant first. -/
def bigEndian : Nat → Nat → List UInt8
  | 0, _ => []
  | width + 1, n => UInt8.ofNat (n / 256 ^ width) :: bigEndian width n

/-- The number some bytes spell. -/
def ofBigEndian (bs : List UInt8) : Nat := bs.foldl (fun acc b => acc * 256 + b.toNat) 0

@[simp] theorem length_bigEndian : ∀ width n : Nat, (bigEndian width n).length = width
  | 0, _ => rfl
  | width + 1, n => by rw [bigEndian, List.length_cons, length_bigEndian width n]

private theorem foldl_bigEndian : ∀ (width n acc : Nat),
    (bigEndian width n).foldl (fun acc b => acc * 256 + b.toNat) acc
      = acc * 256 ^ width + n % 256 ^ width
  | 0, n, acc => by simp [bigEndian, Nat.mod_one]
  | width + 1, n, acc => by
    rw [bigEndian, List.foldl_cons, foldl_bigEndian width n, UInt8.toNat_ofNat']
    have hmod : n % 256 ^ (width + 1)
        = 256 ^ width * (n / 256 ^ width % 256) + n % 256 ^ width := by
      rw [Nat.pow_succ, Nat.mod_mul, Nat.add_comm]
    rw [hmod]
    show (acc * 256 + n / 256 ^ width % 256) * 256 ^ width + n % 256 ^ width = _
    ring

/-- A number of the width is read back from its bytes. -/
theorem ofBigEndian_bigEndian {width n : Nat} (h : n < 256 ^ width) :
    ofBigEndian (bigEndian width n) = n := by
  rw [ofBigEndian, foldl_bigEndian, Nat.zero_mul, Nat.zero_add, Nat.mod_eq_of_lt h]

private theorem foldl_lt : ∀ (bs : List UInt8) (acc : Nat),
    bs.foldl (fun acc b => acc * 256 + b.toNat) acc < (acc + 1) * 256 ^ bs.length
  | [], acc => by simp
  | b :: bs, acc => by
    have hb : b.toNat < 256 := b.toNat_lt
    refine lt_of_lt_of_le (foldl_lt bs _) ?_
    rw [List.length_cons, Nat.pow_succ]
    have hstep : acc * 256 + b.toNat + 1 ≤ (acc + 1) * 256 := by omega
    calc (acc * 256 + b.toNat + 1) * 256 ^ bs.length
        ≤ (acc + 1) * 256 * 256 ^ bs.length := Nat.mul_le_mul_right _ hstep
      _ = (acc + 1) * (256 ^ bs.length * 256) := by ring

private theorem foldl_eq : ∀ (bs : List UInt8) (acc : Nat),
    bs.foldl (fun acc b => acc * 256 + b.toNat) acc = acc * 256 ^ bs.length + ofBigEndian bs
  | [], acc => by simp [ofBigEndian]
  | b :: bs, acc => by
    rw [ofBigEndian, List.foldl_cons, List.foldl_cons, foldl_eq bs (acc * 256 + b.toNat),
      foldl_eq bs (0 * 256 + b.toNat), List.length_cons, Nat.pow_succ]
    ring

/-- What a number has above the width is left out. -/
theorem bigEndian_add_mul : ∀ (width a n : Nat),
    bigEndian width (a * 256 ^ width + n) = bigEndian width n
  | 0, _, _ => rfl
  | width + 1, a, n => by
    have hpow : a * 256 ^ (width + 1) = a * 256 * 256 ^ width := by ring
    rw [bigEndian, bigEndian, hpow, bigEndian_add_mul width (a * 256) n]
    congr 1
    refine UInt8.toNat_inj.mp ?_
    rw [UInt8.toNat_ofNat', UInt8.toNat_ofNat', Nat.mul_comm (a * 256),
      Nat.mul_add_div (Nat.pow_pos (by decide))]
    omega

/-- Bytes are spelled back from their number. -/
theorem bigEndian_ofBigEndian : ∀ bs : List UInt8, bigEndian bs.length (ofBigEndian bs) = bs
  | [] => rfl
  | b :: bs => by
    have hb : b.toNat < 256 := b.toNat_lt
    have hnum : ofBigEndian (b :: bs) = b.toNat * 256 ^ bs.length + ofBigEndian bs := by
      rw [ofBigEndian, List.foldl_cons, foldl_eq]
      ring
    rw [hnum, List.length_cons, bigEndian, bigEndian_add_mul, bigEndian_ofBigEndian bs]
    congr 1
    refine UInt8.toNat_inj.mp ?_
    have hlt : ofBigEndian bs < 256 ^ bs.length := by
      have := foldl_lt bs 0
      rwa [Nat.zero_add, Nat.one_mul] at this
    rw [UInt8.toNat_ofNat', Nat.mul_comm, Nat.mul_add_div (Nat.pow_pos (by decide)),
      Nat.div_eq_of_lt hlt, Nat.add_zero, Nat.mod_eq_of_lt hb]

theorem ofBigEndian_lt (bs : List UInt8) : ofBigEndian bs < 256 ^ bs.length := by
  have h := foldl_lt bs 0
  rwa [Nat.zero_add, Nat.one_mul] at h

namespace ByteReader

variable {ε : Type}

/-- Reading a number of the width. -/
def uint (width : Nat) (short : ε) : ByteReader ε { n : Nat // n < 256 ^ width } := fun bytes =>
  if h : width ≤ bytes.length then
    .ok (⟨ofBigEndian (bytes.take width), by
      have := ofBigEndian_lt (bytes.take width)
      rwa [List.length_take_of_le h] at this⟩, bytes.drop width)
  else .error short

theorem Reads.uint {width : Nat} (n : { n : Nat // n < 256 ^ width }) (short : ε) :
    Reads (uint width short) (bigEndian width n.val) n := by
  intro rest
  unfold ByteReader.uint
  have hlen : width ≤ (bigEndian width n.val ++ rest).length := by simp
  rw [dif_pos hlen]
  congr 2
  · refine Subtype.ext ?_
    show ofBigEndian ((bigEndian width n.val ++ rest).take width) = n.val
    rw [List.take_left' (length_bigEndian ..), ofBigEndian_bigEndian n.property]
  · exact List.drop_left' (length_bigEndian ..)

theorem uint_eq_ok {width : Nat} {short : ε} {n : { n : Nat // n < 256 ^ width }}
    {bytes rest : List UInt8} (h : uint width short bytes = .ok (n, rest)) :
    ∃ bs, bs.length = width ∧ bytes = bs ++ rest := by
  unfold uint at h
  split at h
  · rename_i hlen
    cases h
    exact ⟨_, List.length_take_of_le hlen, (List.take_append_drop ..).symm⟩
  · cases h

end ByteReader

end PiMono
