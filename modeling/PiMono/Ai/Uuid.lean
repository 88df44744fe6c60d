import PiMono.Lib.JsonText

/-!
# Ids that grow with time

`uuidv7` (`packages/ai/src/utils/uuid.ts`): the time and a counter in front of random bits. The
clock may stand still or go back; `uuids_increase` says that the ids grow all the same.
-/

namespace PiMono.Ai.Uuid

/-- `lastTimestamp` (`none` is `-Infinity`) and `sequence`. -/
structure Clock where
  lastTimestamp : Option Nat
  sequence : Nat

/-- What a call reads: `Date.now()` and the random bytes. -/
structure Draw where
  timestamp : Nat
  random : Nat → UInt8

def Clock.initial : Clock := ⟨none, 0⟩

/-- The time and the counter of the next id. -/
def Clock.next (c : Clock) (d : Draw) : Nat × Nat :=
  let fresh := (d.timestamp, (d.random 6).toNat * 0x1000000 + (d.random 7).toNat * 0x10000 +
    (d.random 8).toNat * 0x100 + (d.random 9).toNat)
  match c.lastTimestamp with
  | none => fresh
  | some last =>
    if last < d.timestamp then fresh
    else
      let sequence := (c.sequence + 1) % 0x100000000
      (if sequence = 0 then last + 1 else last, sequence)

/-- The bytes: `& 0xff` is what a byte of the array keeps anyway. -/
def idBytes (key : Nat × Nat) (random : Nat → UInt8) : List UInt8 :=
  let (timestamp, sequence) := key
  [(timestamp / 0x10000000000).toUInt8, (timestamp / 0x100000000).toUInt8,
    (timestamp / 0x1000000).toUInt8, (timestamp / 0x10000).toUInt8, (timestamp / 0x100).toUInt8,
    timestamp.toUInt8, (0x70 ||| (sequence >>> 28 &&& 0x0F)).toUInt8, (sequence >>> 20).toUInt8,
    (0x80 ||| (sequence >>> 14 &&& 0x3F)).toUInt8, (sequence >>> 6).toUInt8,
    ((sequence &&& 0x3F) <<< 2 ||| ((random 10).toNat &&& 0x03)).toUInt8, random 11, random 12,
    random 13, random 14, random 15]

def hexByte (byte : UInt8) : JsString := [hexUnit (byte.toNat / 16), hexUnit (byte.toNat % 16)]

def idText (bytes : List UInt8) : JsString :=
  let hex (start stop : Nat) := ((bytes.drop start).take (stop - start)).flatMap hexByte
  hex 0 4 ++ 0x2D :: hex 4 6 ++ 0x2D :: hex 6 8 ++ 0x2D :: hex 8 10 ++ 0x2D :: hex 10 16

/-- The ids that calls give one after the other. -/
def uuids : Clock → List Draw → List JsString
  | _, [] => []
  | c, d :: draws =>
    let key := c.next d
    idText (idBytes key d.random) :: uuids ⟨some key.1, key.2⟩ draws

/-! ## The order of the texts -/

theorem hexByte_lt {a b : UInt8} (h : a < b) (x y : JsString) :
    hexByte a ++ x < hexByte b ++ y := by
  have hunit : ∀ i < 16, ∀ j < 16, i < j → hexUnit i < hexUnit j := by decide
  have hlt := UInt8.lt_iff_toNat_lt.mp h
  have hb := b.toNat_lt
  simp only [hexByte, List.cons_append, List.nil_append, List.cons_lt_cons_iff]
  rcases Nat.lt_or_eq_of_le (Nat.div_le_div_right (c := 16) hlt.le) with hdiv | hdiv
  · exact .inl (hunit _ (by omega) _ (by omega) hdiv)
  · rw [hdiv]
    exact .inr ⟨rfl, .inl (hunit _ (by omega) _ (by omega) (by omega))⟩

/-- The text byte by byte, from the `i`-th on. -/
def pieces (i : Nat) : List UInt8 → JsString
  | [] => []
  | byte :: bytes =>
    (if i ∈ [4, 6, 8, 10] then [0x2D] else []) ++ (hexByte byte ++ pieces (i + 1) bytes)

theorem pieces_lt {as bs : List UInt8} (h : as < bs) (hlength : as.length = bs.length) (i : Nat) :
    pieces i as < pieces i bs := by
  induction as generalizing bs i with
  | nil => cases bs with
    | nil => cases h
    | cons => cases hlength
  | cons a as ih => cases bs with
    | nil => cases hlength
    | cons b bs =>
      rw [pieces, pieces]
      refine List.append_left_lt ?_
      rcases List.cons_lt_cons_iff.mp h with hlt | ⟨rfl, hlt⟩
      · exact hexByte_lt hlt _ _
      · exact List.append_left_lt (ih hlt (Nat.succ.inj hlength) _)

/-- The order of keys: by time, then by counter. -/
def Later (key key' : Nat × Nat) : Prop := key.1 < key'.1 ∨ key.1 = key'.1 ∧ key.2 < key'.2

/-- **The order of the bytes** is that of time and counter. -/
theorem idBytes_lt {key key' : Nat × Nat} (random random' : Nat → UInt8) (ht : key'.1 < 2 ^ 48)
    (hs : key.2 < 2 ^ 32) (hs' : key'.2 < 2 ^ 32)
    (h : Later key key') : idBytes key random < idBytes key' random' := by
  obtain ⟨t, s⟩ := key
  obtain ⟨t', s'⟩ := key'
  have h7 : ∀ x < 16, (0x70 ||| x) % 2 ^ 8 = 0x70 + x := by decide
  have h8 : ∀ x < 64, (0x80 ||| x) % 2 ^ 8 = 0x80 + x := by decide
  have h4 : ∀ x < 64, ∀ y < 4, (x <<< 2 ||| y) % 2 ^ 8 = x * 4 + y := by decide
  have hand : ∀ x k, x &&& (2 ^ k - 1) = x % 2 ^ k := Nat.and_two_pow_sub_one_eq_mod
  have h3F : ∀ x : Nat, x &&& 0x3F = x % 64 := fun x => hand x 6
  have hF : ∀ x : Nat, x &&& 0x0F = x % 16 := fun x => hand x 4
  have h3 : ∀ x : Nat, x &&& 0x03 = x % 4 := fun x => hand x 2
  simp only [idBytes, List.cons_lt_cons_iff, UInt8.lt_iff_toNat_lt, ← UInt8.toNat_inj,
    Nat.toUInt8_eq, UInt8.toNat_ofNat', h3F, hF, h3, Nat.shiftRight_eq_div_pow,
    h7 _ (Nat.mod_lt _ (by decide : 0 < 16)), h8 _ (Nat.mod_lt _ (by decide : 0 < 64)),
    h4 _ (Nat.mod_lt _ (by decide : 0 < 64)) _ (Nat.mod_lt _ (by decide : 0 < 4))]
  -- each digit is of the quotient before it
  have hdiv : ∀ x d e : Nat, x / (d * e) = x / d / e :=
    fun x d e => (Nat.div_div_eq_div_mul x d e).symm
  rw [show 0x10000000000 = 0x100 * 0x100 * 0x100 * 0x100 * 0x100 from rfl,
    show 0x100000000 = 0x100 * 0x100 * 0x100 * 0x100 from rfl,
    show 0x1000000 = 0x100 * 0x100 * 0x100 from rfl, show 0x10000 = 0x100 * 0x100 from rfl,
    show 2 ^ 28 = 2 ^ 6 * 2 ^ 8 * 2 ^ 6 * 2 ^ 8 from rfl,
    show 2 ^ 20 = 2 ^ 6 * 2 ^ 8 * 2 ^ 6 from rfl, show 2 ^ 14 = 2 ^ 6 * 2 ^ 8 from rfl]
  simp only [hdiv]
  simp only [Later, Nat.reducePow] at h ht hs hs' ⊢
  rcases h with h | ⟨rfl, h⟩ <;> omega

/-! ## The order of the ids -/

theorem Later.trans {a b c : Nat × Nat} (h : Later a b) (h' : Later b c) : Later a c := by
  unfold Later at *
  omega

theorem Clock.next_lt (c : Clock) (d : Draw) : (c.next d).2 < 2 ^ 32 := by
  have h6 := (d.random 6).toNat_lt
  have h7 := (d.random 7).toNat_lt
  have h8 := (d.random 8).toNat_lt
  have h9 := (d.random 9).toNat_lt
  unfold Clock.next
  dsimp only
  split
  · dsimp only; omega
  · split
    · dsimp only; omega
    · exact Nat.mod_lt _ (by decide)

/-- The counter goes on while the clock does not, and the time with it when the counter wraps. -/
theorem Clock.next_later {t s : Nat} (hs : s < 2 ^ 32) (d : Draw) :
    Later (t, s) ((Clock.mk (some t) s).next d) ∧
      ((Clock.mk (some t) s).next d).1 ≤ max (t + 1) d.timestamp := by
  unfold Later Clock.next
  dsimp only
  split
  · dsimp only; omega
  · split <;> dsimp only <;> omega

/-- **What comes after a key**: every further id is of a later one. -/
theorem mem_uuids {draws : List Draw} {t s n : Nat} (hs : s < 2 ^ 32) (hn : draws.length ≤ n)
    (ht : t + draws.length < 2 ^ 48) (hclock : ∀ d ∈ draws, d.timestamp + n ≤ 2 ^ 48) :
    ∀ id ∈ uuids ⟨some t, s⟩ draws, ∃ key random, id = idText (idBytes key random) ∧
      Later (t, s) key ∧ key.1 < 2 ^ 48 ∧ key.2 < 2 ^ 32 := by
  induction draws generalizing t s with
  | nil => intro id hid; cases hid
  | cons d draws ih =>
    have hnext := Clock.next_later hs (t := t) d
    have hlt := Clock.next_lt ⟨some t, s⟩ d
    obtain ⟨hd, hclock⟩ := List.forall_mem_cons.mp hclock
    rw [List.length_cons] at hn ht
    intro id hid
    rcases List.mem_cons.mp hid with rfl | hid
    · exact ⟨_, d.random, rfl, hnext.1, by omega, hlt⟩
    · obtain ⟨key, random, rfl, hlater, hkey⟩ := ih hlt (by omega) (by omega) hclock id hid
      exact ⟨key, random, rfl, hnext.1.trans hlater, hkey⟩

theorem uuids_pairwise {draws : List Draw} {c : Clock} {n : Nat} (hn : draws.length ≤ n)
    (hc : ∀ t, c.lastTimestamp = some t → c.sequence < 2 ^ 32 ∧ t + draws.length < 2 ^ 48)
    (hclock : ∀ d ∈ draws, d.timestamp + n ≤ 2 ^ 48) : (uuids c draws).Pairwise (· < ·) := by
  induction draws generalizing c with
  | nil => exact .nil
  | cons d draws ih =>
    have hlt := Clock.next_lt c d
    obtain ⟨hd, hclock⟩ := List.forall_mem_cons.mp hclock
    rw [List.length_cons] at hn hc
    have ht : (c.next d).1 + draws.length < 2 ^ 48 := by
      obtain ⟨_ | t, s⟩ := c
      · simp only [Clock.next]
        omega
      · obtain ⟨hs, ht⟩ := hc t rfl
        have hnext := (Clock.next_later (t := t) hs d).2
        dsimp only at hnext
        omega
    refine List.pairwise_cons.mpr ⟨fun id hid => ?_, ih (by omega) ?_ hclock⟩
    · obtain ⟨key, random, rfl, hlater, hkey⟩ := mem_uuids hlt (by omega) ht hclock id hid
      show pieces 0 (idBytes _ d.random) < pieces 0 (idBytes key random)
      exact pieces_lt (idBytes_lt d.random random hkey.1 hlt hkey.2 hlater) rfl 0
    · rintro t ⟨⟩
      exact ⟨hlt, ht⟩

/-- **Ids grow**: whatever the clock and the random bytes do, each id is greater than all before. -/
theorem uuids_increase (draws : List Draw)
    (hclock : ∀ d ∈ draws, d.timestamp + draws.length ≤ 2 ^ 48) :
    (uuids Clock.initial draws).Pairwise (· < ·) :=
  uuids_pairwise le_rfl (fun _ ht => by cases ht) hclock

/-- A clock that goes back, and a counter that wraps. -/
theorem uuids_increase_back :
    (uuids Clock.initial [⟨1000, fun _ => 255⟩, ⟨999, fun _ => 0⟩, ⟨1000, fun _ => 7⟩]).Pairwise
      (· < ·) :=
  uuids_increase _ (by simp)

end PiMono.Ai.Uuid
