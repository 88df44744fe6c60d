import PiMono.Lib.CodeUnits
import Mathlib.Data.List.Infix

/-!
# UTF-8: what a file's bytes read as

`encodeUtf8` is what writing a string puts on disk, and `decodeUtf8` is what
reading the bytes as `"utf8"` gives back. Reading never fails: the decoder is
the WHATWG one, which replaces every maximal malformed piece by `U+FFFD`. It
works byte by byte (`decodeStep`), so decoding a file in chunks, as an
incremental decoder does, and decoding it whole are the same run.

Two facts carry the file-level proofs: `decodeUtf8_prefix` (cutting the encoding
of a text anywhere leaves a prefix of the text, plus one `U+FFFD` when the cut
is inside a character) and `decodeUtf8_append_ascii` (a line that starts with an
ASCII byte decodes on its own, whatever stands before it).
-/

namespace PiMono

/-- The bytes a string is written as; a lone surrogate is written as `U+FFFD`. -/
def encodeUtf8 (s : JsString) : List UInt8 := (scalars s).flatMap String.utf8EncodeChar

/-- Where the decoder stands between two bytes. -/
inductive DecodeState where
  /-- Between characters. -/
  | start
  /-- `needed + 1` continuation bytes to come, the next one in `[lower, upper]`;
  `acc` holds the bits read so far. -/
  | inside (needed : Nat) (acc : Nat) (lower upper : Nat)
  deriving DecidableEq, Repr

/-- One byte from between characters. -/
def decodeFirst (b : UInt8) : JsString × DecodeState :=
  let n := b.toNat
  if n ≤ 0x7F then (utf16 (Char.ofNat n), .start)
  else if 0xC2 ≤ n ∧ n ≤ 0xDF then ([], .inside 0 (n % 0x20) 0x80 0xBF)
  else if 0xE0 ≤ n ∧ n ≤ 0xEF then
    ([], .inside 1 (n % 0x10) (if n = 0xE0 then 0xA0 else 0x80) (if n = 0xED then 0x9F else 0xBF))
  else if 0xF0 ≤ n ∧ n ≤ 0xF4 then
    ([], .inside 2 (n % 0x08) (if n = 0xF0 then 0x90 else 0x80) (if n = 0xF4 then 0x8F else 0xBF))
  else (utf16 replacementChar, .start)

/-- A continuation byte in range: the last one completes the character. -/
def decodeNext (acc n : Nat) : Nat → JsString × DecodeState
  | 0 => (utf16 (Char.ofNat (acc * 0x40 + n % 0x40)), .start)
  | k + 1 => ([], .inside k (acc * 0x40 + n % 0x40) 0x80 0xBF)

/-- One byte: what it makes the decoder emit, and where it leaves it. A byte that
cannot continue the character begun ends it with `U+FFFD` and is read afresh. -/
def decodeStep : DecodeState → UInt8 → JsString × DecodeState
  | .start, b => decodeFirst b
  | .inside needed acc lower upper, b =>
    if lower ≤ b.toNat ∧ b.toNat ≤ upper then decodeNext acc b.toNat needed
    else (utf16 replacementChar ++ (decodeFirst b).1, (decodeFirst b).2)

/-- What the end of the input emits: `U+FFFD` for a character cut short. -/
def decodeEnd : DecodeState → JsString
  | .start => []
  | .inside .. => utf16 replacementChar

/-- The rest of the text, from the state the decoder is in. -/
def decodeFrom : DecodeState → List UInt8 → JsString
  | q, [] => decodeEnd q
  | q, b :: bs => (decodeStep q b).1 ++ decodeFrom (decodeStep q b).2 bs

/-- The text of a file's bytes. -/
def decodeUtf8 (bs : List UInt8) : JsString := decodeFrom .start bs

/-- What a decoder that throws on malformed bytes reads: bytes are malformed when they
are not what their text is written as. -/
def decodeUtf8Fatal (bs : List UInt8) : Option JsString :=
  if encodeUtf8 (decodeUtf8 bs) = bs then some (decodeUtf8 bs) else none

/-! ## Decoding one encoded character -/

/-- The decoder's run over some bytes, with the state it leaves. -/
def decodeRun : DecodeState → List UInt8 → JsString × DecodeState
  | q, [] => ([], q)
  | q, b :: bs =>
    ((decodeStep q b).1 ++ (decodeRun (decodeStep q b).2 bs).1,
      (decodeRun (decodeStep q b).2 bs).2)

theorem decodeFrom_append : ∀ (q : DecodeState) (as bs : List UInt8),
    decodeFrom q (as ++ bs) = (decodeRun q as).1 ++ decodeFrom (decodeRun q as).2 bs
  | _, [], _ => rfl
  | q, a :: as, bs => by
    rw [List.cons_append, decodeFrom, decodeFrom_append _ as bs, decodeRun, List.append_assoc]

theorem decodeFrom_eq (q : DecodeState) (bs : List UInt8) :
    decodeFrom q bs = (decodeRun q bs).1 ++ decodeEnd (decodeRun q bs).2 := by
  have h := decodeFrom_append q bs []
  rwa [List.append_nil] at h

private theorem toNat_byte {n : Nat} (h : n < 256) : (UInt8.ofNat n).toNat = n := by
  rw [UInt8.toNat_ofNat']
  exact Nat.mod_eq_of_lt h

/-- A first byte below `0x80` is a character. -/
theorem decodeFirst_ascii {b : UInt8} (h : b.toNat ≤ 0x7F) :
    decodeFirst b = (utf16 (Char.ofNat b.toNat), .start) := by
  simp [decodeFirst, h]

/-- A continuation byte in range moves on. -/
theorem decodeStep_inside {needed acc lower upper n : Nat} (hn : n < 256)
    (hlo : lower ≤ n) (hhi : n ≤ upper) :
    decodeStep (.inside needed acc lower upper) (UInt8.ofNat n) = decodeNext acc n needed := by
  rw [decodeStep, toNat_byte hn, if_pos ⟨hlo, hhi⟩]

/-- The encoding of a character: one byte that is the character, or a lead byte
and one to three continuation bytes that spell it. -/
inductive Encoded (c : Char) : List UInt8 → Prop where
  | one {b : UInt8} : decodeStep .start b = (utf16 c, .start) → Encoded c [b]
  | two {b₁ b₂ : UInt8} {q : DecodeState} :
    decodeStep .start b₁ = ([], q) → q ≠ .start → decodeStep q b₂ = (utf16 c, .start) →
    Encoded c [b₁, b₂]
  | three {b₁ b₂ b₃ : UInt8} {q r : DecodeState} :
    decodeStep .start b₁ = ([], q) → q ≠ .start → decodeStep q b₂ = ([], r) → r ≠ .start →
    decodeStep r b₃ = (utf16 c, .start) → Encoded c [b₁, b₂, b₃]
  | four {b₁ b₂ b₃ b₄ : UInt8} {q r t : DecodeState} :
    decodeStep .start b₁ = ([], q) → q ≠ .start → decodeStep q b₂ = ([], r) → r ≠ .start →
    decodeStep r b₃ = ([], t) → t ≠ .start → decodeStep t b₄ = (utf16 c, .start) →
    Encoded c [b₁, b₂, b₃, b₄]

theorem encoded_utf8EncodeChar (c : Char) : Encoded c (String.utf8EncodeChar c) := by
  have hc := toNat_scalar c
  have hval : c.val.toNat = c.toNat := rfl
  rw [String.utf8EncodeChar]
  simp only [hval]
  generalize hn : c.toNat = n at hc
  have hcn : c = Char.ofNat n := by rw [← hn, Char.ofNat_toNat]
  subst hcn
  by_cases h1 : n ≤ 0x7F
  · rw [if_pos h1]
    refine .one ?_
    rw [decodeStep, decodeFirst_ascii (by rw [toNat_byte (by omega)]; exact h1),
      toNat_byte (by omega)]
  rw [if_neg h1]
  by_cases h2 : n ≤ 0x7FF
  · rw [if_pos h2]
    refine .two (q := .inside 0 ((n / 64 % 0x20 + 0xC0) % 0x20) 0x80 0xBF) ?_ (by simp) ?_
    · rw [decodeStep, decodeFirst, toNat_byte (by omega), if_neg (by omega), if_pos (by omega)]
    · rw [decodeStep_inside (by omega) (by omega) (by omega)]
      show (utf16 (Char.ofNat _), DecodeState.start) = _
      congr 3
      omega
  rw [if_neg h2]
  by_cases h3 : n ≤ 0xFFFF
  · rw [if_pos h3]
    refine .three
      (q := .inside 1 ((n / 4096 % 0x10 + 0xE0) % 0x10)
        (if n / 4096 % 0x10 + 0xE0 = 0xE0 then 0xA0 else 0x80)
        (if n / 4096 % 0x10 + 0xE0 = 0xED then 0x9F else 0xBF))
      (r := .inside 0 ((n / 4096 % 0x10 + 0xE0) % 0x10 * 0x40 + (n / 64 % 0x40 + 0x80) % 0x40)
        0x80 0xBF) ?_ (by simp) ?_ (by simp) ?_
    · rw [decodeStep, decodeFirst, toNat_byte (by omega), if_neg (by omega), if_neg (by omega),
        if_pos (by omega)]
    · rw [decodeStep_inside (by omega) (by split <;> omega) (by split <;> omega)]
      rfl
    · rw [decodeStep_inside (by omega) (by omega) (by omega)]
      show (utf16 (Char.ofNat _), DecodeState.start) = _
      congr 3
      omega
  rw [if_neg h3]
  refine .four
    (q := .inside 2 ((n / 262144 % 0x08 + 0xF0) % 0x08)
      (if n / 262144 % 0x08 + 0xF0 = 0xF0 then 0x90 else 0x80)
      (if n / 262144 % 0x08 + 0xF0 = 0xF4 then 0x8F else 0xBF))
    (r := .inside 1 ((n / 262144 % 0x08 + 0xF0) % 0x08 * 0x40 + (n / 4096 % 0x40 + 0x80) % 0x40)
      0x80 0xBF)
    (t := .inside 0 (((n / 262144 % 0x08 + 0xF0) % 0x08 * 0x40
      + (n / 4096 % 0x40 + 0x80) % 0x40) * 0x40 + (n / 64 % 0x40 + 0x80) % 0x40) 0x80 0xBF)
    ?_ (by simp) ?_ (by simp) ?_ (by simp) ?_
  · rw [decodeStep, decodeFirst, toNat_byte (by omega), if_neg (by omega), if_neg (by omega),
      if_neg (by omega), if_pos (by omega)]
  · rw [decodeStep_inside (by omega) (by split <;> omega) (by split <;> omega)]
    rfl
  · rw [decodeStep_inside (by omega) (by omega) (by omega)]
    rfl
  · rw [decodeStep_inside (by omega) (by omega) (by omega)]
    show (utf16 (Char.ofNat _), DecodeState.start) = _
    congr 3
    omega

/-- The encoding of a character decodes to it. -/
theorem decodeRun_char (c : Char) :
    decodeRun .start (String.utf8EncodeChar c) = (utf16 c, .start) := by
  have henc := encoded_utf8EncodeChar c
  generalize String.utf8EncodeChar c = bs at henc
  cases henc with
  | one h => simp [decodeRun, h]
  | two h₁ _ h₂ => simp [decodeRun, h₁, h₂]
  | three h₁ _ h₂ _ h₃ => simp [decodeRun, h₁, h₂, h₃]
  | four h₁ _ h₂ _ h₃ _ h₄ => simp [decodeRun, h₁, h₂, h₃, h₄]

/-- A proper prefix of a character's encoding emits nothing and leaves the
decoder inside the character. -/
theorem decodeRun_char_prefix {c : Char} {p t : List UInt8}
    (h : p ++ t = String.utf8EncodeChar c) (hp : p ≠ []) (ht : t ≠ []) :
    (decodeRun .start p).1 = [] ∧ (decodeRun .start p).2 ≠ .start := by
  have henc := encoded_utf8EncodeChar c
  rw [← h] at henc
  generalize hbs : p ++ t = bs at henc
  cases henc with
  | one h₁ =>
    -- a single byte has no proper non-empty prefix
    match p, hp, t, ht with
    | _ :: _, _, _ :: _, _ => simp at hbs
  | two h₁ hq h₂ =>
    match p, hp, t, ht with
    | [_], _, _ :: _, _ =>
      obtain ⟨rfl, -⟩ := List.cons.inj hbs
      simpa [decodeRun, h₁] using hq
    | _ :: _ :: _, _, _ :: _, _ => simp at hbs
  | three h₁ hq h₂ hr h₃ =>
    match p, hp, t, ht with
    | [_], _, _ :: _, _ =>
      obtain ⟨rfl, -⟩ := List.cons.inj hbs
      simpa [decodeRun, h₁] using hq
    | [_, _], _, _ :: _, _ =>
      obtain ⟨rfl, h2⟩ := List.cons.inj hbs
      obtain ⟨rfl, -⟩ := List.cons.inj h2
      simpa [decodeRun, h₁, h₂] using hr
    | _ :: _ :: _ :: _, _, _ :: _, _ => simp at hbs
  | four h₁ hq h₂ hr h₃ ht' h₄ =>
    match p, hp, t, ht with
    | [_], _, _ :: _, _ =>
      obtain ⟨rfl, -⟩ := List.cons.inj hbs
      simpa [decodeRun, h₁] using hq
    | [_, _], _, _ :: _, _ =>
      obtain ⟨rfl, h2⟩ := List.cons.inj hbs
      obtain ⟨rfl, -⟩ := List.cons.inj h2
      simpa [decodeRun, h₁, h₂] using hr
    | [_, _, _], _, _ :: _, _ =>
      obtain ⟨rfl, h2⟩ := List.cons.inj hbs
      obtain ⟨rfl, h3⟩ := List.cons.inj h2
      obtain ⟨rfl, -⟩ := List.cons.inj h3
      simpa [decodeRun, h₁, h₂, h₃] using ht'
    | _ :: _ :: _ :: _ :: _, _, _ :: _, _ => simp at hbs

/-! ## Decoding a text, or the part of it a cut left -/

theorem decodeRun_append : ∀ (q : DecodeState) (as bs : List UInt8),
    decodeRun q (as ++ bs) = ((decodeRun q as).1 ++ (decodeRun (decodeRun q as).2 bs).1,
      (decodeRun (decodeRun q as).2 bs).2)
  | _, [], _ => rfl
  | q, a :: as, bs => by
    rw [List.cons_append, decodeRun, decodeRun_append _ as bs, decodeRun, List.append_assoc]

theorem decodeRun_text : ∀ cs : List Char,
    decodeRun .start (cs.flatMap String.utf8EncodeChar) = (cs.flatMap utf16, .start)
  | [] => rfl
  | c :: cs => by
    rw [List.flatMap_cons, decodeRun_append, decodeRun_char, decodeRun_text cs, List.flatMap_cons]

/-- Writing a well-formed string and reading it back gives the string. -/
theorem decodeUtf8_encodeUtf8 {s : JsString} (h : WellFormed s) :
    decodeUtf8 (encodeUtf8 s) = s := by
  obtain ⟨cs, rfl⟩ := h
  rw [encodeUtf8, scalars_flatMap_utf16, decodeUtf8, decodeFrom_eq, decodeRun_text]
  exact List.append_nil _

/-- A text is encoded by itself, whatever stands behind it. -/
theorem encodeUtf8_text_append {s : JsString} (hs : WellFormed s) (t : JsString) :
    encodeUtf8 (s ++ t) = encodeUtf8 s ++ encodeUtf8 t := by
  obtain ⟨cs, rfl⟩ := hs
  rw [encodeUtf8, encodeUtf8, encodeUtf8, scalars_append_units, scalars_flatMap_utf16,
    List.flatMap_append]

theorem encodeUtf8_append {s t : JsString} (hs : WellFormed s) (ht : WellFormed t) :
    encodeUtf8 (s ++ t) = encodeUtf8 s ++ encodeUtf8 t := by
  obtain ⟨cs, rfl⟩ := hs
  obtain ⟨ds, rfl⟩ := ht
  rw [← List.flatMap_append, encodeUtf8, encodeUtf8, encodeUtf8, scalars_flatMap_utf16,
    scalars_flatMap_utf16, scalars_flatMap_utf16, List.flatMap_append]

/-- A cut of an encoded text decodes to a prefix of the text, followed by one
`U+FFFD` exactly when the cut is inside a character. -/
theorem decodeRun_cut : ∀ (cs : List Char) (p t : List UInt8),
    p ++ t = cs.flatMap String.utf8EncodeChar →
    ∃ ds es : List Char, cs = ds ++ es ∧ (decodeRun .start p).1 = ds.flatMap utf16 ∧
      ((decodeRun .start p).2 = .start ∧ t = es.flatMap String.utf8EncodeChar ∨
        (decodeRun .start p).2 ≠ .start ∧ es ≠ [])
  | [], p, t, h => by
    obtain ⟨rfl, rfl⟩ := List.append_eq_nil_iff.mp h
    exact ⟨[], [], rfl, rfl, Or.inl ⟨rfl, rfl⟩⟩
  | c :: cs, p, t, h => by
    rw [List.flatMap_cons] at h
    rcases List.append_eq_append_iff.mp h with ⟨m, hm, ht⟩ | ⟨m, hp, hm⟩
    · -- the cut falls inside the first character, or right at one of its ends
      by_cases hp : p = []
      · subst hp
        refine ⟨[], c :: cs, rfl, rfl, Or.inl ⟨rfl, ?_⟩⟩
        rw [List.flatMap_cons, hm]
        exact ht
      by_cases hm' : m = []
      · subst hm'
        rw [List.append_nil] at hm
        refine ⟨[c], cs, rfl, ?_, Or.inl ⟨?_, ht⟩⟩
        · rw [← hm, decodeRun_char]
          simp
        · rw [← hm, decodeRun_char]
      · obtain ⟨h1, h2⟩ := decodeRun_char_prefix hm.symm hp hm'
        exact ⟨[], c :: cs, rfl, h1, Or.inr ⟨h2, List.cons_ne_nil _ _⟩⟩
    · -- the cut falls later
      obtain ⟨ds, es, rfl, h1, h2⟩ := decodeRun_cut cs m t hm.symm
      refine ⟨c :: ds, es, rfl, ?_, ?_⟩
      · rw [hp, decodeRun_append, decodeRun_char, List.flatMap_cons, h1]
      · rw [hp, decodeRun_append, decodeRun_char]
        exact h2

theorem utf8EncodeChar_ne_nil (c : Char) : String.utf8EncodeChar c ≠ [] :=
  String.utf8EncodeChar_ne_nil

/-- **Cutting a file.** A byte prefix of the encoding of `s` decodes to a prefix
`q` of `s`, with one `U+FFFD` behind it if the cut is inside a character (and
then something of `s` is missing). -/
theorem decodeUtf8_prefix {s : JsString} (hs : WellFormed s) {p t : List UInt8}
    (h : p ++ t = encodeUtf8 s) :
    ∃ q r : JsString, s = q ++ r ∧
      (decodeUtf8 p = q ∧ t = encodeUtf8 r ∨
        decodeUtf8 p = q ++ utf16 replacementChar ∧ r ≠ []) := by
  obtain ⟨cs, rfl⟩ := hs
  rw [encodeUtf8, scalars_flatMap_utf16] at h
  obtain ⟨ds, es, rfl, h1, h2⟩ := decodeRun_cut cs p t h
  refine ⟨ds.flatMap utf16, es.flatMap utf16, List.flatMap_append, ?_⟩
  rcases h2 with ⟨hq, ht⟩ | ⟨hq, hes⟩
  · refine Or.inl ⟨?_, ?_⟩
    · rw [decodeUtf8, decodeFrom_eq, h1, hq]
      exact List.append_nil _
    · rw [encodeUtf8, scalars_flatMap_utf16]
      exact ht
  · refine Or.inr ⟨?_, ?_⟩
    · rw [decodeUtf8, decodeFrom_eq, h1]
      cases hstate : (decodeRun .start p).2 with
      | start => exact absurd hstate hq
      | inside => rfl
    · intro hnil
      cases es with
      | nil => exact hes rfl
      | cons e es =>
        rw [List.flatMap_cons] at hnil
        exact utf16_ne_nil e (List.append_eq_nil_iff.mp hnil).1

/-- An ASCII byte ends whatever character was begun, exactly as the end of the
input does. -/
theorem decodeStep_ascii {b : UInt8} (h : b.toNat ≤ 0x7F) (q : DecodeState)
    (hq : q = .start ∨ ∃ n a lo hi, q = .inside n a lo hi ∧ 0x80 ≤ lo) :
    decodeStep q b = (decodeEnd q ++ utf16 (Char.ofNat b.toNat), .start) := by
  rcases hq with rfl | ⟨n, a, lo, hi, rfl, hlo⟩
  · rw [decodeStep, decodeFirst_ascii h]
    rfl
  · rw [decodeStep, if_neg (by omega), decodeFirst_ascii h]
    rfl

/-- The lower bound of a continuation byte is always at least `0x80`. -/
theorem decodeRun_state : ∀ (q : DecodeState) (bs : List UInt8),
    (q = .start ∨ ∃ n a lo hi, q = .inside n a lo hi ∧ 0x80 ≤ lo) →
    ((decodeRun q bs).2 = .start ∨ ∃ n a lo hi, (decodeRun q bs).2 = .inside n a lo hi ∧ 0x80 ≤ lo)
  | _, [], h => h
  | q, b :: bs, h => by
    refine decodeRun_state (decodeStep q b).2 bs ?_
    have hfirst : (decodeFirst b).2 = .start ∨
        ∃ n a lo hi, (decodeFirst b).2 = .inside n a lo hi ∧ 0x80 ≤ lo := by
      simp only [decodeFirst]
      split
      · exact Or.inl rfl
      split
      · exact Or.inr ⟨_, _, _, _, rfl, Nat.le_refl _⟩
      split
      · exact Or.inr ⟨_, _, _, _, rfl, by split <;> omega⟩
      split
      · exact Or.inr ⟨_, _, _, _, rfl, by split <;> omega⟩
      · exact Or.inl rfl
    rcases h with rfl | ⟨n, a, lo, hi, rfl, hlo⟩
    · exact hfirst
    · rw [decodeStep]
      split
      · cases n with
        | zero => exact Or.inl rfl
        | succ k => exact Or.inr ⟨k, a * 0x40 + b.toNat % 0x40, 0x80, 0xBF, rfl, Nat.le_refl _⟩
      · exact hfirst

/-- **Appending a line.** Bytes that start with an ASCII byte decode on their
own, whatever stands before them: a character cut short there reads as `U+FFFD`
just as it does at the end of the file. -/
theorem decodeUtf8_append_ascii (as : List UInt8) {b : UInt8} (bs : List UInt8)
    (h : b.toNat ≤ 0x7F) :
    decodeUtf8 (as ++ b :: bs) = decodeUtf8 as ++ decodeUtf8 (b :: bs) := by
  have hst := decodeRun_state .start as (Or.inl rfl)
  rw [decodeUtf8, decodeFrom_append, decodeFrom, decodeStep_ascii h _ hst, decodeUtf8,
    decodeFrom_eq .start as, decodeUtf8, decodeFrom, decodeStep_ascii h _ (Or.inl rfl)]
  simp [decodeEnd]

/-- A string that starts with an ASCII character is encoded as one. -/
theorem encodeUtf8_ascii_cons {u : UInt16} (hu : u.toNat ≤ 0x7F) (s : JsString) :
    ∃ b bs, encodeUtf8 (u :: s) = b :: bs ∧ b.toNat ≤ 0x7F := by
  have hhi : isHighSurrogate u = false := by
    simp only [isHighSurrogate, Bool.and_eq_false_iff, decide_eq_false_iff_not]
    omega
  have hlo : isLowSurrogate u = false := by
    simp only [isLowSurrogate, Bool.and_eq_false_iff, decide_eq_false_iff_not]
    omega
  have hfirst : ∃ cs, scalars (u :: s) = Char.ofNat u.toNat :: cs := by
    cases s with
    | nil => exact ⟨[], by simp [scalars, hhi, hlo]⟩
    | cons v vs => exact ⟨scalars (v :: vs), by simp [scalars, hhi, hlo]⟩
  obtain ⟨cs, hcs⟩ := hfirst
  have hval : (Char.ofNat u.toNat).val.toNat = u.toNat :=
    toNat_ofNat (Or.inl (by omega))
  refine ⟨UInt8.ofNat u.toNat, cs.flatMap String.utf8EncodeChar, ?_, ?_⟩
  · rw [encodeUtf8, hcs, List.flatMap_cons, String.utf8EncodeChar]
    simp only [hval, if_pos hu]
    rfl
  · rw [toNat_byte (by omega)]
    exact hu

/-! ## Decoding bytes that may be malformed -/

theorem wellFormed_utf16 (c : Char) : WellFormed (utf16 c) := ⟨[c], by simp⟩

theorem wellFormed_decodeFirst (b : UInt8) : WellFormed (decodeFirst b).1 := by
  unfold decodeFirst
  simp only
  split
  · exact wellFormed_utf16 _
  split
  · exact wellFormed_nil
  split
  · exact wellFormed_nil
  split
  · exact wellFormed_nil
  · exact wellFormed_utf16 replacementChar

theorem wellFormed_decodeStep (q : DecodeState) (b : UInt8) : WellFormed (decodeStep q b).1 := by
  cases q with
  | start => exact wellFormed_decodeFirst b
  | inside needed acc lower upper =>
    rw [decodeStep]
    split
    · cases needed
      · exact wellFormed_utf16 _
      · exact wellFormed_nil
    · exact (wellFormed_utf16 replacementChar).append (wellFormed_decodeFirst b)

/-- What is read is a text, whatever the bytes. -/
theorem wellFormed_decodeFrom : ∀ (q : DecodeState) (bs : List UInt8),
    WellFormed (decodeFrom q bs)
  | .start, [] => wellFormed_nil
  | .inside .., [] => wellFormed_utf16 replacementChar
  | q, b :: bs => (wellFormed_decodeStep q b).append (wellFormed_decodeFrom _ bs)

/-- A text is read back from what it is written as. -/
theorem decodeUtf8Fatal_encodeUtf8 {s : JsString} (h : WellFormed s) :
    decodeUtf8Fatal (encodeUtf8 s) = some s := by
  rw [decodeUtf8Fatal, decodeUtf8_encodeUtf8 h, if_pos rfl]

theorem decodeUtf8Fatal_eq_some {bs : List UInt8} {s : JsString}
    (h : decodeUtf8Fatal bs = some s) : WellFormed s ∧ encodeUtf8 s = bs := by
  rw [decodeUtf8Fatal] at h
  split at h
  · rename_i hback
    cases h
    exact ⟨wellFormed_decodeFrom _ _, hback⟩
  · cases h

/-- Reading back what a string is written as gives the string exactly when it is a
text. -/
theorem decodeUtf8Fatal_iff (s : JsString) :
    decodeUtf8Fatal (encodeUtf8 s) = some s ↔ WellFormed s :=
  ⟨fun h => (decodeUtf8Fatal_eq_some h).1, decodeUtf8Fatal_encodeUtf8⟩

end PiMono
