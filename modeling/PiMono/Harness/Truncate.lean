import PiMono.CodingAgent.TruncateLimits

/-!
# The other copy of truncation

`agent/src/harness/utils/truncate.ts` runs without `Buffer` too: it counts the bytes of a
string unit by unit, and cuts a line by walking its units back from the end, where
`tools/truncate.ts` cuts an encoded buffer. `truncateHead_eq` and `truncateTail_eq` say that
both return the same, lone surrogates included.
-/

namespace PiMono.Harness

open CodingAgent (TruncationResult TruncatedBy Collected splitLinesForCounting)

/-! ## Bytes -/

/-- The loop of `utf8ByteLength`. -/
def unitBytes : JsString → Nat
  | [] => 0
  | [code] => if code ≤ 0x7F then 1 else if code ≤ 0x7FF then 2 else 3
  | code :: next :: rest =>
    if code ≤ 0x7F then 1 + unitBytes (next :: rest)
    else if code ≤ 0x7FF then 2 + unitBytes (next :: rest)
    else if isHighSurrogate code then
      if isLowSurrogate next then 4 + unitBytes rest else 3 + unitBytes (next :: rest)
    else 3 + unitBytes (next :: rest)

/-- `utf8ByteLength`, with or without a `Buffer`. -/
def utf8ByteLength (runtimeBuffer : Bool) (content : JsString) : Nat :=
  if runtimeBuffer then byteLength content
  else
    match content.findIdx? (0x7F < ·) with
    | none => content.length
    | some firstNonAscii => firstNonAscii + unitBytes (content.drop firstNonAscii)

/-! ## The end of a line -/

/-- `replaceUnpairedSurrogates` -/
def replaceUnpairedSurrogates : JsString → JsString
  | [] => []
  | [code] => if isHighSurrogate code || isLowSurrogate code then [0xFFFD] else [code]
  | code :: next :: rest =>
    if isHighSurrogate code then
      if isLowSurrogate next then code :: next :: replaceUnpairedSurrogates rest
      else 0xFFFD :: replaceUnpairedSurrogates (next :: rest)
    else if isLowSurrogate code then 0xFFFD :: replaceUnpairedSurrogates (next :: rest)
    else code :: replaceUnpairedSurrogates (next :: rest)

/-- The loop of `truncateStringToBytesFromEnd`: the units in front of `output` from the last
one on, and whether a lone surrogate is in it. -/
def walkBack (maxBytes : Nat) : JsString → JsString → Nat → Bool → JsString × Bool
  | [], output, _, needsReplacement => (output, needsReplacement)
  | [code], output, outputBytes, needsReplacement =>
    let lone := isHighSurrogate code || isLowSurrogate code
    let characterBytes := if lone then 3 else if code ≤ 0x7F then 1 else
      if code ≤ 0x7FF then 2 else 3
    if maxBytes < outputBytes + characterBytes then (output, needsReplacement)
    else (code :: output, needsReplacement || lone)
  | code :: previous :: before, output, outputBytes, needsReplacement =>
    if isLowSurrogate code && isHighSurrogate previous then
      if maxBytes < outputBytes + 4 then (output, needsReplacement)
      else walkBack maxBytes before (previous :: code :: output) (outputBytes + 4) needsReplacement
    else
      let lone := isHighSurrogate code || isLowSurrogate code
      let characterBytes := if lone then 3 else if code ≤ 0x7F then 1 else
        if code ≤ 0x7FF then 2 else 3
      if maxBytes < outputBytes + characterBytes then (output, needsReplacement)
      else walkBack maxBytes (previous :: before) (code :: output) (outputBytes + characterBytes)
        (needsReplacement || lone)

/-- `truncateStringToBytesFromEnd` -/
def truncateStringToBytesFromEnd (str : JsString) (maxBytes : Nat) : JsString :=
  if maxBytes = 0 then []
  else
    let (output, needsReplacement) := walkBack maxBytes str.reverse [] 0 false
    if needsReplacement then replaceUnpairedSurrogates output else output

/-! ## Truncation -/

section Truncate

variable (runtimeBuffer : Bool) (maxLines maxBytes : Nat)

/-- The loop of `truncateTail`, over the lines from the last one on. -/
def collect : List JsString → Collected → Collected
  | [], c => c
  | line :: lines, c =>
    if c.outputLines.length < maxLines then
      let lineBytes := utf8ByteLength runtimeBuffer line + if 0 < c.outputLines.length then 1 else 0
      if maxBytes < c.outputBytesCount + lineBytes then
        if c.outputLines = [] then
          let truncatedLine := truncateStringToBytesFromEnd line maxBytes
          ⟨[truncatedLine], utf8ByteLength runtimeBuffer truncatedLine, .bytes, true⟩
        else { c with truncatedBy := .bytes }
      else collect lines
        { c with
          outputLines := line :: c.outputLines
          outputBytesCount := c.outputBytesCount + lineBytes }
    else c

/-- `truncateTail` -/
def truncateTail (content : JsString) : TruncationResult :=
  let totalBytes := utf8ByteLength runtimeBuffer content
  let lines := splitLinesForCounting content
  let totalLines := lines.length
  if totalLines ≤ maxLines ∧ totalBytes ≤ maxBytes then
    ⟨content, false, none, totalLines, totalBytes, totalLines, totalBytes, false, false, maxLines,
      maxBytes⟩
  else
    let c := collect runtimeBuffer maxLines maxBytes lines.reverse .none
    let truncatedBy :=
      if maxLines ≤ c.outputLines.length ∧ c.outputBytesCount ≤ maxBytes then .lines
      else c.truncatedBy
    let outputContent := CodingAgent.joinLines c.outputLines
    ⟨outputContent, true, some truncatedBy, totalLines, totalBytes, c.outputLines.length,
      utf8ByteLength runtimeBuffer outputContent, c.lastLinePartial, false, maxLines, maxBytes⟩

/-- The loop of `truncateHead`. -/
def collectHead : List JsString → Collected → Collected
  | [], c => c
  | line :: lines, c =>
    if c.outputLines.length < maxLines then
      let lineBytes := utf8ByteLength runtimeBuffer line + if 0 < c.outputLines.length then 1 else 0
      if maxBytes < c.outputBytesCount + lineBytes then { c with truncatedBy := .bytes }
      else collectHead lines
        { c with
          outputLines := c.outputLines ++ [line]
          outputBytesCount := c.outputBytesCount + lineBytes }
    else c

/-- `truncateHead` -/
def truncateHead (content : JsString) : TruncationResult :=
  let totalBytes := utf8ByteLength runtimeBuffer content
  let lines := splitLinesForCounting content
  let totalLines := lines.length
  if totalLines ≤ maxLines ∧ totalBytes ≤ maxBytes then
    ⟨content, false, none, totalLines, totalBytes, totalLines, totalBytes, false, false, maxLines,
      maxBytes⟩
  else if maxBytes < utf8ByteLength runtimeBuffer (lines.headD []) then
    ⟨[], true, some .bytes, totalLines, totalBytes, 0, 0, false, true, maxLines, maxBytes⟩
  else
    let c := collectHead runtimeBuffer maxLines maxBytes lines .none
    let truncatedBy :=
      if maxLines ≤ c.outputLines.length ∧ c.outputBytesCount ≤ maxBytes then .lines
      else c.truncatedBy
    let outputContent := CodingAgent.joinLines c.outputLines
    ⟨outputContent, true, some truncatedBy, totalLines, totalBytes, c.outputLines.length,
      utf8ByteLength runtimeBuffer outputContent, false, false, maxLines, maxBytes⟩

end Truncate

/-! ## Counting unit by unit -/

theorem not_high_of_low {u : UInt16} (h : isLowSurrogate u = true) : isHighSurrogate u = false := by
  simp only [isLowSurrogate, isHighSurrogate, Bool.and_eq_true, Bool.and_eq_false_iff,
    decide_eq_true_eq, decide_eq_false_iff_not] at h ⊢
  omega

/-- No pair is cut between the two strings. -/
def Boundary (front back : JsString) : Prop :=
  ∀ u ∈ front.getLast?, ∀ v ∈ back.head?, isHighSurrogate u = true → isLowSurrogate v = false

theorem scalars_append_boundary {back : JsString} : ∀ {front : JsString},
    Boundary front back → scalars (front ++ back) = scalars front ++ scalars back
  | [], _ => rfl
  | [u], h => by
    cases back with
    | nil => rw [List.append_nil]; simp [scalars]
    | cons v vs =>
      have hpair : (isHighSurrogate u && isLowSurrogate v) = false := by
        rw [Bool.and_eq_false_iff]
        cases hu : isHighSurrogate u with
        | false => exact Or.inl rfl
        | true => exact Or.inr (h u rfl v rfl hu)
      by_cases hu : (isHighSurrogate u || isLowSurrogate u) = true <;>
        simp only [List.singleton_append, scalars, hpair, hu, if_true, Bool.false_eq_true,
          if_false]
  | u :: v :: rest, h => by
    have hrest : Boundary rest back := by
      intro x hx
      refine h x ?_
      cases rest with
      | nil => cases hx
      | cons w rest => rw [List.getLast?_cons_cons, List.getLast?_cons_cons]; exact hx
    have htail : Boundary (v :: rest) back := by
      intro x hx
      exact h x (by rw [List.getLast?_cons_cons]; exact hx)
    have ih := scalars_append_boundary hrest
    have ih' := scalars_append_boundary htail
    rw [List.cons_append] at ih'
    rw [List.cons_append, List.cons_append, scalars, scalars, ih, ih']
    split
    · rfl
    split
    · rfl
    · rfl

theorem byteLength_boundary {front back : JsString} (h : Boundary front back) :
    byteLength (front ++ back) = byteLength front + byteLength back := by
  rw [byteLength, encodeUtf8, scalars_append_boundary h, List.flatMap_append, List.length_append]
  rfl

/-- The bytes of one unit that is half of no pair. -/
theorem byteLength_unit {u : UInt16} (hhi : isHighSurrogate u = false)
    (hlo : isLowSurrogate u = false) :
    byteLength [u] = if u ≤ 0x7F then 1 else if u ≤ 0x7FF then 2 else 3 := by
  have hscalars : scalars [u] = [Char.ofNat u.toNat] := by simp [scalars, hhi, hlo]
  have hlt : u.toNat < 65536 := u.toNat_lt
  have hval : (Char.ofNat u.toNat).val.toNat = u.toNat := by
    refine toNat_ofNat ?_
    simp only [isHighSurrogate, isLowSurrogate, Bool.and_eq_false_iff, decide_eq_false_iff_not]
      at hhi hlo
    simp only [Nat.isValidChar]
    omega
  have hlength : byteLength [u] = (Char.ofNat u.toNat).utf8Size := by
    rw [byteLength, encodeUtf8, hscalars, List.flatMap_cons, List.flatMap_nil, List.append_nil,
      String.length_utf8EncodeChar]
  have h7 : (0x7F : UInt16).toNat = 0x7F := rfl
  have h11 : (0x7FF : UInt16).toNat = 0x7FF := rfl
  rw [hlength]
  by_cases h1 : u ≤ 0x7F
  · rw [if_pos h1, Char.utf8Size_eq_one_iff, UInt32.le_iff_toNat_le, hval]
    rw [UInt16.le_iff_toNat_le] at h1
    exact h1
  · rw [if_neg h1]
    rw [UInt16.le_iff_toNat_le] at h1
    by_cases h2 : u ≤ 0x7FF
    · rw [if_pos h2, Char.utf8Size_eq_two_iff, UInt32.le_iff_toNat_le, UInt32.lt_iff_toNat_lt, hval]
      rw [UInt16.le_iff_toNat_le] at h2
      exact ⟨by show 127 < _; omega, by show _ ≤ 2047; omega⟩
    · rw [if_neg h2, Char.utf8Size_eq_three_iff, UInt32.le_iff_toNat_le,
        UInt32.lt_iff_toNat_lt, hval]
      rw [UInt16.le_iff_toNat_le] at h2
      exact ⟨by show 2047 < _; omega, by show _ ≤ 65535; omega⟩

theorem byteLength_lone {u : UInt16} (h : (isHighSurrogate u || isLowSurrogate u) = true) :
    byteLength [u] = 3 := by
  have hscalars : scalars [u] = [replacementChar] := by simp [scalars, h]
  rw [byteLength, encodeUtf8, hscalars]
  decide

theorem byteLength_pair {u v : UInt16} (hu : isHighSurrogate u = true)
    (hv : isLowSurrogate v = true) : byteLength [u, v] = 4 := by
  have hscalars : scalars [u, v] = [pairScalar u v] := by simp [scalars, hu, hv]
  have hval : (pairScalar u v).val.toNat
      = 0x10000 + (u.toNat - 0xD800) * 0x400 + (v.toNat - 0xDC00) := by
    simp only [isHighSurrogate, isLowSurrogate, Bool.and_eq_true, decide_eq_true_eq] at hu hv
    refine toNat_ofNat ?_
    simp only [Nat.isValidChar]
    omega
  rw [byteLength, encodeUtf8, hscalars, List.flatMap_cons, List.flatMap_nil, List.append_nil,
    String.length_utf8EncodeChar, Char.utf8Size_eq_four_iff, UInt32.lt_iff_toNat_lt, hval]
  show 65535 < _
  omega

/-- A unit is in front of a string that does not complete a pair with it. -/
theorem boundary_unit {u : UInt16} {back : JsString}
    (h : ∀ v ∈ back.head?, (isHighSurrogate u && isLowSurrogate v) = false) :
    Boundary [u] back := by
  intro x hx v hv hhigh
  obtain rfl : u = x := Option.some.inj hx
  have := h v hv
  rwa [hhigh, Bool.true_and] at this

theorem boundary_pair {u v : UInt16} (hv : isLowSurrogate v = true) (back : JsString) :
    Boundary [u, v] back := by
  intro x hx w _ hhigh
  obtain rfl : v = x := Option.some.inj hx
  rw [not_high_of_low hv] at hhigh
  cases hhigh

/-- The width the loops give a unit that is half of no pair. -/
theorem byteLength_single (u : UInt16) : byteLength [u]
    = if isHighSurrogate u || isLowSurrogate u then 3
      else if u ≤ 0x7F then 1 else if u ≤ 0x7FF then 2 else 3 := by
  split
  · exact byteLength_lone (by assumption)
  · rename_i h
    rw [Bool.not_eq_true, Bool.or_eq_false_iff] at h
    exact byteLength_unit h.1 h.2

/-- Surrogates are above the units of one and two bytes, so the width needs no such case. -/
theorem byteLength_width (u : UInt16) : byteLength [u]
    = if u ≤ 0x7F then 1 else if u ≤ 0x7FF then 2 else 3 := by
  rw [byteLength_single]
  split
  · rename_i h
    simp only [isHighSurrogate, isLowSurrogate, Bool.or_eq_true, Bool.and_eq_true,
      decide_eq_true_eq] at h
    have h7 : (0x7F : UInt16).toNat = 0x7F := rfl
    have h11 : (0x7FF : UInt16).toNat = 0x7FF := rfl
    rw [if_neg (by rw [UInt16.le_iff_toNat_le]; omega),
      if_neg (by rw [UInt16.le_iff_toNat_le]; omega)]
  · rfl

theorem unitBytes_eq : ∀ s : JsString, unitBytes s = byteLength s
  | [] => rfl
  | [u] => by rw [unitBytes, byteLength_width]
  | u :: v :: rest => by
    have ih := unitBytes_eq rest
    have ih' := unitBytes_eq (v :: rest)
    by_cases hpair : (isHighSurrogate u && isLowSurrogate v) = true
    · obtain ⟨hu, hv⟩ := Bool.and_eq_true_iff.mp hpair
      have h7 : ¬ u ≤ 0x7F := by
        simp only [isHighSurrogate, Bool.and_eq_true, decide_eq_true_eq] at hu
        rw [UInt16.le_iff_toNat_le]
        have : (0x7F : UInt16).toNat = 0x7F := rfl
        omega
      have h11 : ¬ u ≤ 0x7FF := by
        simp only [isHighSurrogate, Bool.and_eq_true, decide_eq_true_eq] at hu
        rw [UInt16.le_iff_toNat_le]
        have : (0x7FF : UInt16).toNat = 0x7FF := rfl
        omega
      have hsplit := byteLength_boundary (@boundary_pair u v hv rest)
      rw [byteLength_pair hu hv] at hsplit
      rw [unitBytes, if_neg h7, if_neg h11, if_pos hu, if_pos hv, ih]
      exact hsplit.symm
    · rw [Bool.not_eq_true] at hpair
      have hsplit : byteLength (u :: v :: rest) = byteLength [u] + byteLength (v :: rest) :=
        byteLength_boundary (boundary_unit fun w hw => by
          obtain rfl : v = w := Option.some.inj hw
          exact hpair)
      rw [hsplit, byteLength_width, unitBytes, ih']
      split
      · rfl
      split
      · rfl
      split
      · rename_i hu
        rw [hu, Bool.true_and] at hpair
        rw [hpair]
        rfl
      · rfl

theorem unitBytes_ascii {front : JsString} (h : ∀ u ∈ front, u ≤ 0x7F) (rest : JsString) :
    unitBytes (front ++ rest) = front.length + unitBytes rest := by
  induction front with
  | nil => simp
  | cons u front ih =>
    have hu := h u List.mem_cons_self
    have hfront := ih fun v hv => h v (List.mem_cons_of_mem _ hv)
    have hone : unitBytes (u :: (front ++ rest)) = 1 + unitBytes (front ++ rest) := by
      cases hbehind : front ++ rest with
      | nil => simp [unitBytes, hu]
      | cons v vs => rw [unitBytes, if_pos hu]
    rw [List.cons_append, hone, hfront, List.length_cons]
    omega

/-- Counting without a `Buffer` gives the same. -/
theorem utf8ByteLength_eq (runtimeBuffer : Bool) (content : JsString) :
    utf8ByteLength runtimeBuffer content = byteLength content := by
  unfold utf8ByteLength
  split
  · rfl
  rw [← unitBytes_eq content]
  cases h : content.findIdx? (0x7F < ·) with
  | none =>
    rw [List.findIdx?_eq_none_iff] at h
    have hascii : ∀ u ∈ content, u ≤ 0x7F := by
      intro u hu
      exact UInt16.not_lt.mp (of_decide_eq_false (h u hu))
    have hall := unitBytes_ascii hascii []
    rw [List.append_nil] at hall
    rw [hall]
    rfl
  | some first =>
    obtain ⟨hlt, -, hbefore⟩ := List.findIdx?_eq_some_iff_getElem.mp h
    have hascii : ∀ u ∈ content.take first, u ≤ 0x7F := by
      intro u hu
      obtain ⟨i, hi, rfl⟩ := List.mem_iff_getElem.mp hu
      rw [List.length_take] at hi
      have hnot := hbefore i (by omega)
      rw [List.getElem_take]
      exact UInt16.not_lt.mp (by simpa using hnot)
    have hall := unitBytes_ascii hascii (content.drop first)
    rw [List.take_append_drop, List.length_take, Nat.min_eq_left (Nat.le_of_lt hlt)] at hall
    exact hall.symm

/-! ## Walking back -/

theorem replaceUnpairedSurrogates_eq : ∀ s : JsString,
    replaceUnpairedSurrogates s = (scalars s).flatMap utf16
  | [] => rfl
  | [u] => by
    have hreplacement : utf16 replacementChar = [0xFFFD] := by decide
    by_cases h : (isHighSurrogate u || isLowSurrogate u) = true
    · simp [replaceUnpairedSurrogates, scalars, h, hreplacement]
    · have h' := h
      rw [Bool.not_eq_true, Bool.or_eq_false_iff] at h'
      simp [replaceUnpairedSurrogates, scalars, h, utf16_ofNat h'.1 h'.2]
  | u :: v :: rest => by
    have hreplacement : utf16 replacementChar = [0xFFFD] := by decide
    have ih := replaceUnpairedSurrogates_eq rest
    have ih' := replaceUnpairedSurrogates_eq (v :: rest)
    rw [replaceUnpairedSurrogates, scalars]
    by_cases hu : isHighSurrogate u = true
    · by_cases hv : isLowSurrogate v = true
      · simp [hu, hv, ih, utf16_pairScalar hu hv]
      · simp [hu, hv, ih', hreplacement]
    · by_cases hlo : isLowSurrogate u = true
      · simp [hu, hlo, ih', hreplacement]
      · rw [Bool.not_eq_true] at hu hlo
        simp [hu, hlo, ih', utf16_ofNat hu hlo]

/-- What the walk has behind it: characters that fit, and whether all of them are whole. -/
structure Walked (maxBytes : Nat) (output : JsString) (outputBytes : Nat)
    (needsReplacement : Bool) : Prop where
  bytes : outputBytes = byteLength output
  fits : outputBytes ≤ maxBytes
  whole : needsReplacement = false → WellFormed output

/-- What the walk returns: the longest end that fits. -/
structure WalkedTo (maxBytes : Nat) (str : JsString) (result : JsString × Bool) : Prop where
  longest : scalars result.1 = lastChars maxBytes (scalars str)
  whole : result.2 = false → WellFormed result.1

section WalkBack

variable {maxBytes : Nat} {front unit output : JsString} {outputBytes : Nat}
  {needsReplacement : Bool}

/-- A character too many: what is behind it is the longest end. -/
theorem Walked.stop (h : Walked maxBytes output outputBytes needsReplacement) {c : Char}
    (hunit : scalars unit = [c]) (hfront : Boundary front (unit ++ output))
    (hbehind : Boundary unit output) (hover : maxBytes < outputBytes + byteLength unit) :
    WalkedTo maxBytes (front ++ (unit ++ output)) (output, needsReplacement) := by
  have hcount : byteLength unit = (String.utf8EncodeChar c).length := by
    rw [byteLength, encodeUtf8, hunit]
    simp
  have houtput : byteLength output = ((scalars output).flatMap String.utf8EncodeChar).length := rfl
  have hbytes := h.bytes
  have hfits := h.fits
  refine ⟨?_, h.whole⟩
  show scalars output = _
  rw [scalars_append_boundary hfront, scalars_append_boundary hbehind, hunit]
  refine (lastChars_append (by omega) ?_ _).symm
  rw [List.flatMap_cons, List.length_append]
  omega

/-- A character that fits joins what is behind it. -/
theorem Walked.push (h : Walked maxBytes output outputBytes needsReplacement)
    (hbehind : Boundary unit output) {broken : Bool} (hwhole : broken = false → WellFormed unit)
    (hfits : ¬ maxBytes < outputBytes + byteLength unit) :
    Walked maxBytes (unit ++ output) (outputBytes + byteLength unit)
      (needsReplacement || broken) := by
  refine ⟨?_, Nat.le_of_not_lt hfits, fun hnone => ?_⟩
  · rw [byteLength_boundary hbehind, h.bytes, Nat.add_comm]
  · obtain ⟨hneeds, hbroken⟩ := Bool.or_eq_false_iff.mp hnone
    exact (hwhole hbroken).append (h.whole hneeds)

/-- Nothing is left in front. -/
theorem Walked.all (h : Walked maxBytes output outputBytes needsReplacement) :
    WalkedTo maxBytes output (output, needsReplacement) := by
  refine ⟨?_, h.whole⟩
  have hfits : ((scalars output).flatMap String.utf8EncodeChar).length ≤ maxBytes := by
    have hbytes := h.bytes
    have hle := h.fits
    rw [byteLength, encodeUtf8] at hbytes
    omega
  cases hchars : scalars output with
  | nil => rfl
  | cons c cs =>
    rw [hchars] at hfits
    rw [lastChars, if_pos hfits]

theorem scalars_single (u : UInt16) : ∃ c, scalars [u] = [c] := by
  by_cases h : (isHighSurrogate u || isLowSurrogate u) = true
  · exact ⟨replacementChar, by simp [scalars, h]⟩
  · exact ⟨Char.ofNat u.toNat, by simp [scalars, h]⟩

theorem wellFormed_single {u : UInt16} (h : (isHighSurrogate u || isLowSurrogate u) = false) :
    WellFormed [u] := by
  rw [Bool.or_eq_false_iff] at h
  exact wellFormed_unit h.1 h.2

theorem walkBack_spec : ∀ {before output : JsString} {outputBytes : Nat} {needsReplacement : Bool},
    Walked maxBytes output outputBytes needsReplacement → Boundary before.reverse output →
      WalkedTo maxBytes (before.reverse ++ output)
        (walkBack maxBytes before output outputBytes needsReplacement)
  | [], output, outputBytes, needsReplacement, h, _ => h.all
  | [u], output, outputBytes, needsReplacement, h, hcut => by
    obtain ⟨c, hc⟩ := scalars_single u
    have hwidth := byteLength_single u
    rw [walkBack]
    simp only [← hwidth]
    split
    · exact @Walked.stop maxBytes [] [u] output outputBytes needsReplacement h c hc
        (fun _ hx => by cases hx) hcut (by assumption)
    · exact (h.push hcut wellFormed_single (by assumption)).all
  | u :: v :: before, output, outputBytes, needsReplacement, h, hcut => by
    have hreverse : (u :: v :: before).reverse = before.reverse ++ [v, u] := by simp
    have hreverse' : (u :: v :: before).reverse = (v :: before).reverse ++ [u] := by simp
    have hlast : Boundary [u] output := by
      intro x hx
      refine hcut x ?_
      rw [hreverse', List.getLast?_append]
      rw [hx]
      rfl
    rw [walkBack]
    by_cases hpair : (isLowSurrogate u && isHighSurrogate v) = true
    · -- both units are one character
      obtain ⟨hu, hv⟩ := Bool.and_eq_true_iff.mp hpair
      have hc : scalars [v, u] = [pairScalar v u] := by simp [scalars, hu, hv]
      have hwidth := byteLength_pair hv hu
      have hfront : Boundary before.reverse ([v, u] ++ output) := by
        intro x _ w hw _
        obtain rfl : v = w := Option.some.inj hw
        cases hlow : isLowSurrogate v with
        | false => rfl
        | true =>
          rw [not_high_of_low hlow] at hv
          cases hv
      have hbehind : Boundary [v, u] output := boundary_pair hu output
      rw [if_pos hpair, hreverse, List.append_assoc]
      split
      · exact h.stop hc hfront hbehind (by rw [hwidth]; assumption)
      · have hnext := @Walked.push maxBytes [v, u] output outputBytes needsReplacement h hbehind
          false (fun _ => wellFormed_pair hv hu) (by rw [hwidth]; assumption)
        rw [Bool.or_false, hwidth] at hnext
        exact walkBack_spec hnext hfront
    · obtain ⟨c, hc⟩ := scalars_single u
      have hwidth := byteLength_single u
      have hfront : Boundary (v :: before).reverse ([u] ++ output) := by
        intro x hx w hw hhigh
        obtain rfl : u = w := Option.some.inj hw
        have hx' : v = x := by
          rw [List.getLast?_reverse] at hx
          exact Option.some.inj hx
        rw [← hx'] at hhigh
        cases hlow : isLowSurrogate u with
        | false => rfl
        | true => exact absurd (by rw [hlow, hhigh]; rfl) hpair
      rw [if_neg hpair, hreverse', List.append_assoc]
      simp only [← hwidth]
      split
      · exact h.stop hc hfront hlast (by assumption)
      · exact walkBack_spec (h.push hlast wellFormed_single (by assumption)) hfront

end WalkBack

/-- Both ways to cut a line that is too long agree. -/
theorem truncateStringToBytesFromEnd_eq {maxBytes : Nat} (hpos : 0 < maxBytes) {line : JsString}
    (hover : maxBytes < byteLength line) :
    truncateStringToBytesFromEnd line maxBytes = lastBytes maxBytes line := by
  have hstart : Walked maxBytes [] 0 false :=
    ⟨rfl, Nat.zero_le _, fun _ => wellFormed_nil⟩
  have hwalk := @walkBack_spec maxBytes line.reverse [] 0 false hstart fun _ _ _ hv => by cases hv
  rw [List.reverse_reverse, List.append_nil] at hwalk
  rw [lastBytes_scalars hover, ← hwalk.longest, truncateStringToBytesFromEnd,
    if_neg (Nat.ne_of_gt hpos)]
  simp only
  split
  · exact replaceUnpairedSurrogates_eq _
  · rename_i hwhole
    obtain ⟨cs, hcs⟩ := hwalk.whole (Bool.not_eq_true _ ▸ hwhole)
    rw [← hcs, scalars_flatMap_utf16]

/-! ## Both copies return the same -/

section Copies

variable (runtimeBuffer : Bool) {maxLines maxBytes : Nat}

theorem collect_eq (hpos : 0 < maxBytes) (lines : List JsString) : ∀ {c : Collected},
    (c.outputLines = [] → c.outputBytesCount = 0) →
      collect runtimeBuffer maxLines maxBytes lines c
        = CodingAgent.collect maxLines maxBytes lines c := by
  induction lines with
  | nil => exact fun _ => rfl
  | cons line lines ih =>
    intro c hempty
    rw [collect, CodingAgent.collect]
    simp only [utf8ByteLength_eq]
    by_cases hlines : c.outputLines.length < maxLines
    · rw [if_pos hlines, if_pos hlines]
      by_cases hover : maxBytes < c.outputBytesCount
          + (byteLength line + if 0 < c.outputLines.length then 1 else 0)
      · rw [if_pos hover, if_pos hover]
        by_cases hnil : c.outputLines = []
        · -- the line alone is too long
          rw [hempty hnil, hnil, List.length_nil, if_neg (Nat.lt_irrefl 0)] at hover
          rw [if_pos hnil, if_pos hnil, truncateStringToBytesFromEnd_eq hpos (by omega)]
        · rw [if_neg hnil, if_neg hnil]
      · rw [if_neg hover, if_neg hover]
        exact ih fun hnil => absurd hnil (List.cons_ne_nil _ _)
    · rw [if_neg hlines, if_neg hlines]

theorem collectHead_eq (lines : List JsString) : ∀ c : Collected,
    collectHead runtimeBuffer maxLines maxBytes lines c
      = CodingAgent.collectHead maxLines maxBytes lines c := by
  induction lines with
  | nil => exact fun _ => rfl
  | cons line lines ih =>
    intro c
    rw [collectHead, CodingAgent.collectHead]
    simp only [utf8ByteLength_eq, ih]

theorem truncateHead_eq (content : JsString) :
    truncateHead runtimeBuffer maxLines maxBytes content
      = CodingAgent.truncateHead content maxLines maxBytes := by
  rw [truncateHead, CodingAgent.truncateHead]
  simp only [utf8ByteLength_eq, collectHead_eq]

theorem truncateTail_eq (hpos : 0 < maxBytes) (content : JsString) :
    truncateTail runtimeBuffer maxLines maxBytes content
      = CodingAgent.truncateTail content maxLines maxBytes := by
  have hcollect := @collect_eq runtimeBuffer maxLines maxBytes hpos
    (splitLinesForCounting content).reverse .none fun _ => rfl
  rw [truncateTail, CodingAgent.truncateTail, CodingAgent.collectedLines, hcollect]
  simp only [utf8ByteLength_eq]

end Copies

/-! ## What truncation promises -/

open CodingAgent (KeepsHead KeepsTail Truthful NewlineOver OnlyLineCut) in
/-- Both functions keep as much as the limits allow and say truly what they keep and which
limit stopped them, and the copy returns the same. -/
structure TruncatesWell (content : JsString) (maxLines maxBytes : Nat) : Prop where
  head : KeepsHead content maxLines maxBytes (CodingAgent.truncateHead content maxLines maxBytes)
  tail : KeepsTail content maxLines maxBytes (CodingAgent.truncateTail content maxLines maxBytes)
  truthfulHead : Truthful content maxLines (CodingAgent.truncateHead content maxLines maxBytes)
  truthfulTail : Truthful content maxLines (CodingAgent.truncateTail content maxLines maxBytes)
  sameHead : ∀ runtimeBuffer, truncateHead runtimeBuffer maxLines maxBytes content
    = CodingAgent.truncateHead content maxLines maxBytes
  sameTail : ∀ runtimeBuffer, truncateTail runtimeBuffer maxLines maxBytes content
    = CodingAgent.truncateTail content maxLines maxBytes

open CodingAgent (NewlineOver OnlyLineCut) in
/-- **Truncation.** All of it holds, but for the reported limit where nothing but the last
newline is over, and where the only line is cut and one line is the limit. -/
theorem truncatesWell_iff {maxLines maxBytes : Nat} (hlines : 0 < maxLines) (hbytes : 0 < maxBytes)
    (content : JsString) : TruncatesWell content maxLines maxBytes
      ↔ ¬ NewlineOver content maxLines maxBytes ∧ ¬ OnlyLineCut content maxLines maxBytes := by
  constructor
  · exact fun h => (CodingAgent.truthful_truncateTail hlines).mp h.truthfulTail
  · intro h
    exact {
      head := CodingAgent.keepsHead_truncateHead content maxLines maxBytes
      tail := CodingAgent.keepsTail_truncateTail hlines
      truthfulHead := (CodingAgent.truthful_truncateHead content maxLines maxBytes).mpr h.1
      truthfulTail := (CodingAgent.truthful_truncateTail hlines).mpr h
      sameHead := fun runtimeBuffer => truncateHead_eq runtimeBuffer content
      sameTail := fun runtimeBuffer => truncateTail_eq runtimeBuffer hbytes content }

/-- Two lines, of which one fits. -/
theorem truncatesWell_of_two_lines : TruncatesWell (js "ab\ncd\n") 1 3 :=
  (truncatesWell_iff (by decide) (by decide) _).mpr
    ⟨fun h => absurd h.1 (by decide), fun h => absurd h.2.1 (by decide)⟩

/-- One line of three bytes and a newline, with room for ten lines and three bytes: the line
limit is reported. -/
theorem newline_over_reported :
    ¬ ∀ (content : JsString) (maxLines maxBytes : Nat), 0 < maxLines → 0 < maxBytes →
      TruncatesWell content maxLines maxBytes := by
  intro h
  have hreason : (CodingAgent.truncateHead (js "abc\n") 10 3).truncatedBy = some .lines := by
    decide
  exact absurd ((h (js "abc\n") 10 3 (by decide) (by decide)).truthfulHead.reason hreason).1
    (by decide)

end PiMono.Harness
