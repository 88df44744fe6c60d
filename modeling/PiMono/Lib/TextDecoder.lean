import PiMono.Lib.Utf8

/-!
# Decoding in pieces, and the end of a text in bytes

`TextDecoder` is the decoder of a stream: the pieces it returns, put together, are the
text of all the bytes, without the byte order mark in front (`decodeChunks_text`).

`lastBytes n` is the end of a text that `n` bytes hold, cut between two characters: the
bytes in front are dropped, and then those that continue a character. It is the longest
such end (`lastBytes_split`), so what stands further in front does not matter
(`lastBytes_append`).
-/

namespace PiMono

/-! ## Streams -/

/-- `new TextDecoder()`: the state of the decoder, and whether some text has come out. -/
structure TextDecoder where
  state : DecodeState
  started : Bool

namespace TextDecoder

def new : TextDecoder := ⟨.start, false⟩

/-- The text without the byte order mark. -/
def stripBom (s : JsString) : JsString := if s.head? = some 0xFEFF then s.tail else s

/-- `decode(data, { stream: true })` -/
def decode (d : TextDecoder) (data : List UInt8) : JsString × TextDecoder :=
  let (text, state) := decodeRun d.state data
  if d.started ∨ text = [] then (text, ⟨state, d.started⟩) else (stripBom text, ⟨state, true⟩)

/-- `decode()`; what the end of the input emits is no byte order mark. -/
def flush (d : TextDecoder) : JsString := decodeEnd d.state

/-- The pieces that chunks are decoded to, with the last one from `flush`. -/
def decodeChunks (d : TextDecoder) : List (List UInt8) → List JsString
  | [] => [d.flush]
  | data :: chunks => (d.decode data).1 :: decodeChunks (d.decode data).2 chunks

theorem flatten_decodeChunks : ∀ (chunks : List (List UInt8)) (d : TextDecoder),
    (d.decodeChunks chunks).flatten = if d.started then decodeFrom d.state chunks.flatten
      else stripBom (decodeFrom d.state chunks.flatten)
  | [], ⟨state, started⟩ => by
    have hend : stripBom (decodeEnd state) = decodeEnd state := by
      cases state with
      | start => rfl
      | inside =>
        show stripBom (utf16 replacementChar) = utf16 replacementChar
        decide
    cases started <;> simp [decodeChunks, flush, decodeFrom, hend]
  | data :: chunks, ⟨state, started⟩ => by
    rw [decodeChunks, List.flatten_cons, flatten_decodeChunks chunks, List.flatten_cons,
      decodeFrom_append]
    cases started with
    | true => simp [decode]
    | false =>
      by_cases hnil : (decodeRun state data).1 = []
      · simp [decode, hnil]
      · obtain ⟨u, us, hu⟩ := List.exists_cons_of_ne_nil hnil
        by_cases hbom : u = 0xFEFF <;> simp [decode, hu, stripBom, hbom]

/-- **Decoding in pieces.** However the bytes are cut, the text is that of all of them. -/
theorem decodeChunks_text (chunks : List (List UInt8)) :
    (new.decodeChunks chunks).flatten = stripBom (decodeUtf8 chunks.flatten) :=
  flatten_decodeChunks chunks new

theorem wellFormed_decodeRun : ∀ (q : DecodeState) (bs : List UInt8),
    WellFormed (decodeRun q bs).1
  | _, [] => wellFormed_nil
  | q, b :: bs => (wellFormed_decodeStep q b).append (wellFormed_decodeRun _ bs)

theorem wellFormed_stripBom {s : JsString} (h : WellFormed s) : WellFormed (stripBom s) := by
  unfold stripBom
  split
  · rename_i hbom
    obtain ⟨cs, rfl⟩ := h
    cases cs with
    | nil => exact wellFormed_nil
    | cons c cs =>
      -- the mark is a character of one unit
      refine ⟨cs, ?_⟩
      rw [List.flatMap_cons] at hbom ⊢
      unfold utf16 at hbom ⊢
      split
      · rfl
      · rename_i hlarge
        rw [if_neg hlarge] at hbom
        have hunit := Option.some.inj hbom
        have hc := toNat_scalar c
        have hval := congrArg UInt16.toNat hunit
        simp only [Nat.toUInt16_eq, UInt16.toNat_ofNat'] at hval
        have hmark : (0xFEFF : UInt16).toNat = 0xFEFF := rfl
        omega
  · exact h

theorem wellFormed_decode (d : TextDecoder) (data : List UInt8) :
    WellFormed (d.decode data).1 := by
  have hrun := wellFormed_decodeRun d.state data
  simp only [decode]
  split
  · exact hrun
  · exact wellFormed_stripBom hrun

theorem wellFormed_flush (d : TextDecoder) : WellFormed d.flush :=
  wellFormed_decodeFrom d.state []

end TextDecoder

/-! ## The end of a text -/

/-- `Buffer.byteLength(s, "utf-8")` -/
def byteLength (s : JsString) : Nat := (encodeUtf8 s).length

/-- `(b & 0xc0) === 0x80`: the byte continues a character. -/
def isContinuation (b : UInt8) : Bool := b &&& 0xC0 == 0x80

/-- The bytes from the first character on that starts at `start` or behind it. -/
def bytesFrom (start : Nat) (bs : List UInt8) : List UInt8 :=
  (bs.drop start).dropWhile isContinuation

/-- The end of a text that `n` bytes hold. -/
def lastBytes (n : Nat) (s : JsString) : JsString :=
  if byteLength s ≤ n then s
  else decodeUtf8 (bytesFrom (byteLength s - n) (encodeUtf8 s))

@[simp] theorem byteLength_nil : byteLength [] = 0 := rfl

/-- A string is read on its own in front of one that does not begin within a pair. -/
theorem scalars_append {t : JsString} (ht : ∀ u ∈ t.head?, isLowSurrogate u = false) :
    ∀ s : JsString, scalars (s ++ t) = scalars s ++ scalars t
  | [] => rfl
  | [u] => by
    cases t with
    | nil => simp [scalars]
    | cons v vs =>
      have hv : isLowSurrogate v = false := ht v rfl
      by_cases hu : (isHighSurrogate u || isLowSurrogate u) = true <;> simp [scalars, hv, hu]
  | u :: v :: rest => by
    have ih := scalars_append ht rest
    have ih' := scalars_append ht (v :: rest)
    rw [List.cons_append] at ih'
    rw [List.cons_append, List.cons_append, scalars, scalars, ih, ih']
    split
    · rfl
    split
    · rfl
    · rfl

theorem encodeUtf8_append_of_head {s t : JsString} (ht : ∀ u ∈ t.head?, isLowSurrogate u = false) :
    encodeUtf8 (s ++ t) = encodeUtf8 s ++ encodeUtf8 t := by
  rw [encodeUtf8, scalars_append ht, List.flatMap_append]
  rfl

/-- A text does not begin within a pair. -/
theorem WellFormed.head {t : JsString} (h : WellFormed t) :
    ∀ u ∈ t.head?, isLowSurrogate u = false := by
  obtain ⟨cs, rfl⟩ := h
  intro u hu
  cases cs with
  | nil => cases hu
  | cons c cs =>
    have hc := toNat_scalar c
    rw [List.flatMap_cons] at hu
    unfold utf16 at hu
    simp only [isLowSurrogate, Bool.and_eq_false_iff, decide_eq_false_iff_not]
    split at hu
    · obtain rfl := Option.some.inj hu
      simp only [Nat.toUInt16_eq, UInt16.toNat_ofNat']
      omega
    · obtain rfl := Option.some.inj hu
      simp only [Nat.toUInt16_eq, UInt16.toNat_ofNat']
      omega

theorem encodeUtf8_append_text (s : JsString) {t : JsString} (ht : WellFormed t) :
    encodeUtf8 (s ++ t) = encodeUtf8 s ++ encodeUtf8 t :=
  encodeUtf8_append_of_head ht.head

theorem byteLength_append (s : JsString) {t : JsString} (ht : WellFormed t) :
    byteLength (s ++ t) = byteLength s + byteLength t := by
  rw [byteLength, encodeUtf8_append_text s ht, List.length_append]
  rfl

/-- A newline is a byte, whatever stands around it. -/
theorem byteLength_append_newline (s t : JsString) :
    byteLength (s ++ 0x0A :: t) = byteLength s + 1 + byteLength t := by
  have hline : encodeUtf8 (0x0A :: t) = 0x0A :: encodeUtf8 t := by
    cases t with
    | nil => decide
    | cons u us =>
      have hscalars : scalars (0x0A :: u :: us) = '\n' :: scalars (u :: us) := rfl
      rw [encodeUtf8, hscalars, List.flatMap_cons]
      rfl
  rw [byteLength, encodeUtf8_append_of_head (by simp [isLowSurrogate]), hline, List.length_append,
    List.length_cons]
  show byteLength s + (byteLength t + 1) = _
  omega

theorem encodeUtf8_text (cs : List Char) :
    encodeUtf8 (cs.flatMap utf16) = cs.flatMap String.utf8EncodeChar := by
  rw [encodeUtf8, scalars_flatMap_utf16]

theorem encodeUtf8_utf16 (c : Char) : encodeUtf8 (utf16 c) = String.utf8EncodeChar c := by
  have h := encodeUtf8_text [c]
  simpa only [List.flatMap_singleton] using h

theorem encodeUtf8_utf16_ne_nil (c : Char) : encodeUtf8 (utf16 c) ≠ [] := by
  rw [encodeUtf8_utf16]
  exact utf8EncodeChar_ne_nil c

theorem isContinuation_iff (b : UInt8) : isContinuation b = true ↔ b.toNat / 64 = 2 := by
  have hall : ∀ n : Fin 256, ((UInt8.ofNat n.val) &&& 0xC0 == 0x80) = true ↔ n.val / 64 = 2 := by
    decide +kernel
  have h := hall ⟨b.toNat, b.toNat_lt⟩
  rwa [UInt8.ofNat_toNat] at h

/-- A character starts with a byte that continues none, and the others continue it. -/
theorem utf8EncodeChar_continuation (c : Char) :
    ∃ b bs, String.utf8EncodeChar c = b :: bs ∧ isContinuation b = false ∧
      (∀ b' ∈ bs, isContinuation b' = true) ∧ bs.length ≤ 3 := by
  have hc := (toNat_scalar c).2
  have hval : c.val.toNat = c.toNat := rfl
  have hlead : ∀ n : Nat, n < 256 → n / 64 ≠ 2 → isContinuation (UInt8.ofNat n) = false := by
    intro n hn hne
    rw [← Bool.not_eq_true, isContinuation_iff, UInt8.toNat_ofNat', Nat.mod_eq_of_lt hn]
    exact hne
  have hnext : ∀ n : Nat, isContinuation (UInt8.ofNat (n % 0x40 + 0x80)) = true := by
    intro n
    rw [isContinuation_iff, UInt8.toNat_ofNat']
    omega
  rw [String.utf8EncodeChar]
  simp only [hval]
  generalize c.toNat = n at hc
  split
  · exact ⟨_, [], rfl, hlead _ (by omega) (by omega), by simp, by simp⟩
  split
  · exact ⟨_, _, rfl, hlead _ (by omega) (by omega), List.forall_mem_singleton.mpr
      (hnext _), by simp⟩
  split
  · exact ⟨_, _, rfl, hlead _ (by omega) (by omega), List.forall_mem_cons.mpr
      ⟨hnext _, List.forall_mem_singleton.mpr (hnext _)⟩, by simp⟩
  · exact ⟨_, _, rfl, hlead _ (by omega) (by omega), List.forall_mem_cons.mpr
      ⟨hnext _, List.forall_mem_cons.mpr ⟨hnext _, List.forall_mem_singleton.mpr (hnext _)⟩⟩,
        by simp⟩

/-- The longest end of some characters that `n` bytes hold. -/
def lastChars (n : Nat) : List Char → List Char
  | [] => []
  | c :: cs =>
    if ((c :: cs).flatMap String.utf8EncodeChar).length ≤ n then c :: cs else lastChars n cs

theorem bytesFrom_text (n : Nat) : ∀ cs : List Char,
    n < (cs.flatMap String.utf8EncodeChar).length →
      bytesFrom ((cs.flatMap String.utf8EncodeChar).length - n) (cs.flatMap String.utf8EncodeChar)
        = (lastChars n cs).flatMap String.utf8EncodeChar
  | [], h => absurd h (Nat.not_lt_zero n)
  | c :: cs, h => by
    have hkeep : lastChars n (c :: cs) = lastChars n cs := if_neg (by omega)
    rw [hkeep, List.flatMap_cons] at *
    obtain ⟨b, bs, henc, hb, hbs, -⟩ := utf8EncodeChar_continuation c
    rw [List.length_append] at h ⊢
    by_cases hrest : n < (cs.flatMap String.utf8EncodeChar).length
    · rw [← bytesFrom_text n cs hrest, bytesFrom, bytesFrom, List.drop_append]
      have hzero : (String.utf8EncodeChar c).drop ((String.utf8EncodeChar c).length
          + (cs.flatMap String.utf8EncodeChar).length - n) = [] :=
        List.drop_of_length_le (by omega)
      rw [hzero, List.nil_append]
      congr 2
      omega
    · -- the cut is in the first character, or right behind it
      have hall : lastChars n cs = cs := by
        cases cs with
        | nil => rfl
        | cons d ds => exact if_pos (by omega)
      have hpos : 0 < (String.utf8EncodeChar c).length
          + (cs.flatMap String.utf8EncodeChar).length - n := by omega
      rw [hall, bytesFrom, List.drop_append]
      have hzero : (String.utf8EncodeChar c).length
          + (cs.flatMap String.utf8EncodeChar).length - n -
            (String.utf8EncodeChar c).length = 0 := by
        omega
      rw [hzero, List.drop_zero, List.dropWhile_append_of_pos ?_]
      · cases cs with
        | nil => rfl
        | cons d ds =>
          obtain ⟨b', bs', henc', hb', -, -⟩ := utf8EncodeChar_continuation d
          rw [List.flatMap_cons, henc', List.cons_append,
            List.dropWhile_cons_of_neg (by simp [hb'])]
      · intro x hx
        obtain ⟨k, hk⟩ : ∃ k, (String.utf8EncodeChar c).length
            + (cs.flatMap String.utf8EncodeChar).length - n = k + 1 :=
              ⟨_, (Nat.succ_pred_eq_of_pos hpos).symm⟩
        rw [hk, henc, List.drop_succ_cons] at hx
        exact hbs x (List.mem_of_mem_drop hx)

theorem lastBytes_text (n : Nat) (cs : List Char) :
    lastBytes n (cs.flatMap utf16) = (lastChars n cs).flatMap utf16 := by
  unfold lastBytes
  rw [byteLength, encodeUtf8_text]
  split
  · rename_i h
    cases cs with
    | nil => rfl
    | cons c cs => rw [lastChars, if_pos h]
  · rename_i h
    rw [bytesFrom_text n cs (by omega), ← encodeUtf8_text,
      decodeUtf8_encodeUtf8 ⟨_, rfl⟩]

/-- The end of a text, and what stands in front: the last character there would not fit. -/
theorem lastBytes_split {n : Nat} {s : JsString} (hs : WellFormed s) (hn : n < byteLength s) :
    ∃ (p : JsString) (c : Char), s = p ++ utf16 c ++ lastBytes n s ∧ WellFormed p ∧
      WellFormed (lastBytes n s) ∧ byteLength (lastBytes n s) ≤ n ∧
      n < byteLength (utf16 c ++ lastBytes n s) := by
  obtain ⟨cs, rfl⟩ := hs
  rw [byteLength, encodeUtf8_text] at hn
  rw [lastBytes_text]
  suffices hsplit : ∃ (ds : List Char) (c : Char), cs = ds ++ c :: lastChars n cs ∧
      ((lastChars n cs).flatMap String.utf8EncodeChar).length ≤ n ∧
      n < ((c :: lastChars n cs).flatMap String.utf8EncodeChar).length by
    obtain ⟨ds, c, hcs, hle, hlt⟩ := hsplit
    refine ⟨ds.flatMap utf16, c, ?_, ⟨ds, rfl⟩, ⟨_, rfl⟩, ?_, ?_⟩
    · rw [List.append_assoc, ← List.flatMap_cons, ← List.flatMap_append, ← hcs]
    · rw [byteLength, encodeUtf8_text]
      exact hle
    · rw [← List.flatMap_cons, byteLength, encodeUtf8_text]
      exact hlt
  induction cs with
  | nil => exact absurd hn (Nat.not_lt_zero n)
  | cons c cs ih =>
    have hkeep : lastChars n (c :: cs) = lastChars n cs := if_neg (by omega)
    rw [hkeep]
    by_cases hrest : n < (cs.flatMap String.utf8EncodeChar).length
    · obtain ⟨ds, d, hcs, hle, hlt⟩ := ih hrest
      exact ⟨c :: ds, d, by rw [List.cons_append, ← hcs], hle, hlt⟩
    · have hall : lastChars n cs = cs := by
        cases cs with
        | nil => rfl
        | cons d ds => exact if_pos (by omega)
      rw [hall]
      exact ⟨[], c, rfl, by omega, hn⟩

/-- The bytes that are kept are those of the end of the text. -/
theorem bytesFrom_eq {n : Nat} {s : JsString} (hs : WellFormed s) (hn : n < byteLength s) :
    bytesFrom (byteLength s - n) (encodeUtf8 s) = encodeUtf8 (lastBytes n s) := by
  obtain ⟨cs, rfl⟩ := hs
  rw [byteLength, encodeUtf8_text] at hn
  rw [lastBytes_text, byteLength, encodeUtf8_text, encodeUtf8_text, bytesFrom_text n cs hn]

/-- No character takes more than four bytes. -/
theorem byteLength_utf16_le (c : Char) : byteLength (utf16 c) ≤ 4 := by
  obtain ⟨b, bs, henc, -, -, hlen⟩ := utf8EncodeChar_continuation c
  rw [byteLength, encodeUtf8_utf16, henc, List.length_cons]
  omega

/-- No character but a newline has the unit of one in it. -/
theorem newline_mem_utf16 {c : Char} : (0x0A : UInt16) ∈ utf16 c ↔ c = '\n' := by
  constructor
  · intro h
    have hc := toNat_scalar c
    have hunit : (0x0A : UInt16).toNat = 10 := rfl
    unfold utf16 at h
    split at h
    · have hval := congrArg UInt16.toNat (List.mem_singleton.mp h)
      simp only [Nat.toUInt16_eq, UInt16.toNat_ofNat'] at hval
      refine Char.toNat_inj.mp ?_
      show c.toNat = 10
      omega
    · rcases List.mem_cons.mp h with h | h
      · have hval := congrArg UInt16.toNat h
        simp only [Nat.toUInt16_eq, UInt16.toNat_ofNat'] at hval
        omega
      · have hval := congrArg UInt16.toNat (List.mem_singleton.mp h)
        simp only [Nat.toUInt16_eq, UInt16.toNat_ofNat'] at hval
        omega
  · rintro rfl
    decide

/-- A byte that is a newline ends a newline. -/
theorem getLast?_encodeUtf8_utf16 (c : Char) :
    (encodeUtf8 (utf16 c)).getLast? = some 0x0A ↔ c = '\n' := by
  rw [encodeUtf8_utf16]
  constructor
  · intro h
    obtain ⟨b, bs, henc, hb, hbs, -⟩ := utf8EncodeChar_continuation c
    cases bs with
    | cons b' bs =>
      rw [henc] at h
      have hmem : (0x0A : UInt8) ∈ b' :: bs := by
        rw [List.getLast?_cons_cons] at h
        exact List.mem_of_getLast? h
      have hcont := hbs _ hmem
      rw [isContinuation_iff] at hcont
      exact absurd hcont (by decide)
    | nil =>
      -- a single byte is the character
      rw [henc] at h
      obtain rfl := Option.some.inj h
      have hrun := decodeRun_char c
      rw [henc] at hrun
      have hnl : decodeRun .start [0x0A] = (utf16 '\n', .start) := by decide
      have heq := congrArg Prod.fst (hrun.symm.trans hnl)
      refine (utf16_append_inj (s := []) (t := []) ?_).1
      rw [List.append_nil, List.append_nil]
      exact heq
  · rintro rfl
    decide

/-- What stands further in front does not matter. -/
theorem lastBytes_append {n : Nat} (s : JsString) {t : JsString} (ht : WellFormed t)
    (hn : n < byteLength t) : lastBytes n (s ++ t) = lastBytes n t := by
  have hlen := byteLength_append s ht
  have hs : (encodeUtf8 s).length = byteLength s := rfl
  rw [lastBytes, lastBytes, if_neg (by omega), if_neg (by omega), hlen,
    encodeUtf8_append_text s ht, bytesFrom, bytesFrom, List.drop_append]
  have hzero : (encodeUtf8 s).drop (byteLength s + byteLength t - n) = [] :=
    List.drop_of_length_le (by omega)
  rw [hzero, List.nil_append]
  congr 3
  omega

/-! ## The end of any string -/

theorem lastChars_suffix (n : Nat) (cs : List Char) : lastChars n cs <:+ cs := by
  induction cs with
  | nil => exact List.suffix_rfl
  | cons c cs ih =>
    rw [lastChars]
    split
    · exact List.suffix_rfl
    · exact ih.trans (List.suffix_cons c cs)

theorem length_lastChars_le (n : Nat) (cs : List Char) :
    ((lastChars n cs).flatMap String.utf8EncodeChar).length ≤ n := by
  induction cs with
  | nil => exact Nat.zero_le n
  | cons c cs ih =>
    rw [lastChars]
    split
    · assumption
    · exact ih

/-- The characters that are kept are the end that fits, where one more does not. -/
theorem lastChars_append {n : Nat} {c : Char} {kept : List Char}
    (hfits : (kept.flatMap String.utf8EncodeChar).length ≤ n)
    (hover : n < ((c :: kept).flatMap String.utf8EncodeChar).length) (front : List Char) :
    lastChars n (front ++ c :: kept) = kept := by
  induction front with
  | nil =>
    rw [List.nil_append, lastChars, if_neg (by omega)]
    cases kept with
    | nil => rfl
    | cons d kept => rw [lastChars, if_pos hfits]
  | cons d front ih =>
    have hmore : n < ((d :: (front ++ c :: kept)).flatMap String.utf8EncodeChar).length := by
      rw [List.flatMap_cons, List.flatMap_append, List.length_append, List.length_append]
      omega
    rw [List.cons_append, lastChars, if_neg (by omega), ih]

/-- No longer end fits. -/
theorem length_le_lastChars {n : Nat} {kept cs : List Char} (h : kept <:+ cs)
    (hfits : (kept.flatMap String.utf8EncodeChar).length ≤ n) :
    kept.length ≤ (lastChars n cs).length := by
  induction cs with
  | nil =>
    rw [List.suffix_nil.mp h]
    exact Nat.zero_le _
  | cons c cs ih =>
    rw [lastChars]
    rcases List.suffix_cons_iff.mp h with rfl | hcs
    · rw [if_pos hfits]
    · split
      · exact h.length_le
      · exact ih hcs

/-- Lone surrogates are replaced where a string is cut. -/
theorem lastBytes_scalars {n : Nat} {s : JsString} (hn : n < byteLength s) :
    lastBytes n s = (lastChars n (scalars s)).flatMap utf16 := by
  have hsame : encodeUtf8 s = encodeUtf8 ((scalars s).flatMap utf16) := by
    rw [encodeUtf8_text]
    rfl
  have h := lastBytes_text n (scalars s)
  have hn' : n < byteLength ((scalars s).flatMap utf16) := by
    rw [byteLength, ← hsame]
    exact hn
  rw [lastBytes, if_neg (by omega)] at h
  rw [lastBytes, if_neg (by omega), ← h, byteLength, byteLength, hsame]

end PiMono
