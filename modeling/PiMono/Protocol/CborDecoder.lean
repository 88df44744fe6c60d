import PiMono.Protocol.CborEncoder

/-!
# The CBOR decoder

`readItem` is `CborReader.readItem`; its argument is the number of nesting levels that
are left, `maxDepth + 1 - depth`, so that the check of the depth is the case `0`. A
reader works on the bytes behind `offset`. `readItem_ok` says what a successful run was
made of: it returns a value that the encoder accepts at its depth, spelled at least as
long as the encoder spells it.
-/

namespace PiMono.Protocol

/-- A reader of `CborReader`. -/
abbrev CborReader (α : Type) := ByteReader CborFailure α

/-- What `readArgument` returns: a count that is a safe integer. -/
abbrev SafeCount := { n : Nat // n < 2 ^ 53 }

def SafeCount.toSafe (n : SafeCount) : SafeInt := ⟨n.val, by simpa using n.property⟩

namespace CborReader

def truncated : CborFailure := .cborError "Truncated CBOR payload"

def readByte : CborReader { n : Nat // n < 256 ^ 1 } := ByteReader.uint 1 truncated

def readBytes (length : Nat) : CborReader (List UInt8) := ByteReader.take length truncated

/-- `readArgument` -/
def readArgument (additionalInformation : Nat) : CborReader SafeCount :=
  if h : additionalInformation < 24 then
    pure ⟨additionalInformation, lt_trans h (by decide)⟩
  else if additionalInformation = 24 then do
    let value ← readByte
    pure ⟨value.val, lt_trans value.property (by decide)⟩
  else if additionalInformation = 25 then do
    let value ← ByteReader.uint 2 truncated
    pure ⟨value.val, lt_trans value.property (by decide)⟩
  else if additionalInformation = 26 then do
    let value ← ByteReader.uint 4 truncated
    pure ⟨value.val, lt_trans value.property (by decide)⟩
  else if additionalInformation = 27 then do
    let high ← ByteReader.uint 4 truncated
    let low ← ByteReader.uint 4 truncated
    if hhigh : high.val > 0x1fffff then
      throw (.cborError "Decoded CBOR integer or length is outside the safe range")
    else pure ⟨high.val * UINT32_BASE + low.val, by
      have := low.property
      unfold UINT32_BASE
      omega⟩
  else if additionalInformation = 31 then
    throw (.cborError "Indefinite-length CBOR items are not supported")
  else throw (.cborError "Malformed CBOR additional information")

/-- `readLength` -/
def readLength (additionalInformation : Nat) (kind : String) (limit : Nat) : CborReader Nat :=
  if additionalInformation = 31 then
    throw (.cborError ("Indefinite-length CBOR " ++ kind ++ "s are not supported"))
  else do
    let length ← readArgument additionalInformation
    if length.val > limit then
      throw (.cborError
        ("CBOR " ++ kind ++ " length exceeds configured limit of " ++ toString limit))
    else pure length.val

/-- `readSimple` -/
def readSimple (additionalInformation : Nat) : CborReader CborValue :=
  if additionalInformation = 20 then pure (.bool false)
  else if additionalInformation = 21 then pure (.bool true)
  else if additionalInformation = 22 then pure .null
  else if additionalInformation = 27 then do
    let bits ← ByteReader.uint 8 truncated
    let value := Float64.ofBits bits.val
    if value.isFinite = false then throw (.cborError "Decoded CBOR number must be finite")
    else if value.isInteger = true ∧ value.toSafe? = none then
      throw (.cborError "Decoded CBOR integer is outside the safe range")
    else pure (.number value)
  else if additionalInformation = 31 then
    throw (.cborError "CBOR break marker is not supported")
  else throw (.cborError "Unsupported CBOR simple value or floating-point width")

/-- The case of `readItem` for a text string. -/
def readText (options : ResolvedCborOptions) (additionalInformation : Nat) :
    CborReader CborValue := do
  let length ← readLength additionalInformation "text string" options.maxByteLength.val
  let bytes ← readBytes length
  match decodeUtf8Fatal bytes with
  | some s => pure (.string s)
  | none => throw (.cborError "CBOR text string contains invalid UTF-8")

/-- The loop of `readItem` over the entries of a map. The keys of `keys` are those of
`result`. -/
def readEntries (readItem : CborReader CborValue) :
    Nat → List (JsString × CborValue) → CborReader (List (JsString × CborValue))
  | 0, result => pure result
  | n + 1, result => do
    match ← readItem with
    | .string key =>
      if key ∈ result.map Prod.fst then
        throw (.cborError "CBOR map contains a duplicate key")
      else
        let value ← readItem
        readEntries readItem n (addField result key value)
    | _ => throw (.cborError "CBOR map keys must be strings")

/-- The `switch` of `readItem`; `readItem` is the reader of what is nested inside. -/
def readMajor (options : ResolvedCborOptions) (readItem : CborReader CborValue)
    (majorType additionalInformation : Nat) : CborReader CborValue :=
  if majorType = 0 then do
    let value ← readArgument additionalInformation
    pure (.number (.ofSafe value.toSafe))
  else if majorType = 1 then do
    let value ← readArgument additionalInformation
    if h : (-1 - (value.val : Int)).natAbs < 2 ^ 53 then
      pure (.number (.ofSafe ⟨-1 - (value.val : Int), h⟩))
    else throw (.cborError "Decoded CBOR integer is outside the safe range")
  else if majorType = 2 then do
    let length ← readLength additionalInformation "byte string" options.maxByteLength.val
    let bytes ← readBytes length
    pure (.bytes bytes)
  else if majorType = 3 then readText options additionalInformation
  else if majorType = 4 then do
    let length ← readLength additionalInformation "array" options.maxContainerLength.val
    let result ← ByteReader.repeated readItem length
    pure (.array result)
  else if majorType = 5 then do
    let length ← readLength additionalInformation "map" options.maxContainerLength.val
    let result ← readEntries readItem length []
    pure (.object false result)
  else if majorType = 6 then throw (.cborError "CBOR tags are not supported")
  else readSimple additionalInformation

/-- `readItem`, with `maxDepth + 1 - depth` levels left. -/
def readItem (options : ResolvedCborOptions) : Nat → CborReader CborValue
  | 0 => throw (.cborError ("CBOR nesting depth exceeds configured limit of "
      ++ toString options.maxDepth.val))
  | levels + 1 => do
    let initial ← readByte
    readMajor options (readItem options levels) (initial.val / 32) (initial.val % 32)

end CborReader

/-- `decodeCbor` -/
def decodeCbor (bytes : List UInt8) (options : CborOptions) : Except CborFailure CborValue := do
  let resolved ← resolveOptions options
  if bytes.length > resolved.maxByteLength.val then
    .error (.cborError ("CBOR byte length exceeds configured limit of "
      ++ toString resolved.maxByteLength.val))
  else
    let (value, rest) ← CborReader.readItem resolved (resolved.maxDepth.val + 1) bytes
    if rest ≠ [] then .error (.cborError "CBOR payload contains trailing data")
    else .ok value

/-! ## What is read -/

/-- The lengths of the forms of an argument. -/
theorem length_argumentBytes (majorType value : Nat) :
    (argumentBytes majorType value).length =
      if value < 24 then 1 else if value ≤ 0xff then 2 else if value ≤ 0xffff then 3
      else if value ≤ MAX_UINT32 then 5 else 9 := by
  unfold argumentBytes
  split
  · rfl
  split
  · rfl
  split
  · rfl
  split
  · rfl
  · rfl

namespace CborReader

variable {options : ResolvedCborOptions}

/-- An argument is spelled at least as long as the encoder spells it. -/
theorem readArgument_ok {info : Nat} {bytes rest : List UInt8} {value : SafeCount}
    (h : readArgument info bytes = .ok (value, rest)) (majorType : Nat) :
    ∃ used, bytes = used ++ rest ∧
      (argumentBytes majorType value.val).length ≤ used.length + 1 := by
  rw [length_argumentBytes]
  unfold readArgument at h
  split at h
  · rename_i hinfo
    obtain ⟨rfl, rfl⟩ := ByteReader.pure_eq_ok.mp h
    exact ⟨[], rfl, by rw [if_pos hinfo]; rfl⟩
  split at h
  · obtain ⟨n, mid, hn, hv⟩ := ByteReader.bind_eq_ok.mp h
    obtain ⟨rfl, rfl⟩ := ByteReader.pure_eq_ok.mp hv
    obtain ⟨used, hlen, rfl⟩ := ByteReader.uint_eq_ok hn
    have := n.property
    exact ⟨used, rfl, by rw [hlen]; simp only; split_ifs <;> omega⟩
  split at h
  · obtain ⟨n, mid, hn, hv⟩ := ByteReader.bind_eq_ok.mp h
    obtain ⟨rfl, rfl⟩ := ByteReader.pure_eq_ok.mp hv
    obtain ⟨used, hlen, rfl⟩ := ByteReader.uint_eq_ok hn
    have := n.property
    exact ⟨used, rfl, by rw [hlen]; simp only; split_ifs <;> omega⟩
  split at h
  · obtain ⟨n, mid, hn, hv⟩ := ByteReader.bind_eq_ok.mp h
    obtain ⟨rfl, rfl⟩ := ByteReader.pure_eq_ok.mp hv
    obtain ⟨used, hlen, rfl⟩ := ByteReader.uint_eq_ok hn
    have := n.property
    have hmax : n.val ≤ MAX_UINT32 := by
      unfold MAX_UINT32
      omega
    exact ⟨used, rfl, by rw [hlen]; simp only; split_ifs <;> omega⟩
  split at h
  · obtain ⟨high, mid, hhigh, h⟩ := ByteReader.bind_eq_ok.mp h
    obtain ⟨low, mid', hlow, h⟩ := ByteReader.bind_eq_ok.mp h
    split at h
    · exact absurd h ByteReader.throw_ne_ok
    · obtain ⟨rfl, rfl⟩ := ByteReader.pure_eq_ok.mp h
      obtain ⟨used, hlen, rfl⟩ := ByteReader.uint_eq_ok hhigh
      obtain ⟨used', hlen', rfl⟩ := ByteReader.uint_eq_ok hlow
      refine ⟨used ++ used', (List.append_assoc ..).symm, ?_⟩
      rw [List.length_append, hlen, hlen']
      split_ifs <;> omega
  split at h
  · exact absurd h ByteReader.throw_ne_ok
  · exact absurd h ByteReader.throw_ne_ok

theorem readLength_ok {info limit length : Nat} {kind : String} {bytes rest : List UInt8}
    (h : readLength info kind limit bytes = .ok (length, rest)) (majorType : Nat) :
    length ≤ limit ∧ ∃ used, bytes = used ++ rest ∧
      (argumentBytes majorType length).length ≤ used.length + 1 := by
  unfold readLength at h
  split at h
  · exact absurd h ByteReader.throw_ne_ok
  · obtain ⟨value, mid, hvalue, h⟩ := ByteReader.bind_eq_ok.mp h
    split at h
    · exact absurd h ByteReader.throw_ne_ok
    · rename_i hlimit
      obtain ⟨rfl, rfl⟩ := ByteReader.pure_eq_ok.mp h
      exact ⟨Nat.not_lt.mp hlimit, readArgument_ok hvalue majorType⟩

/-- What a successful run returns at a depth: a value the encoder accepts, with nothing
to drop, that the bytes used spell at least as long as the encoder does. -/
structure Returned (options : ResolvedCborOptions) (depth : Nat) (used : List UInt8)
    (v : CborValue) : Prop where
  encodable : Encodable options depth v
  wf : v.Wf
  dropUndefined : v.dropUndefined = v
  length : (encoding v).length ≤ used.length

theorem length_numberBytes {x : Float64} : (numberBytes x).length ≤ 9 := by
  have hbound : ∀ m n, (argumentBytes m n).length ≤ 9 := by
    intro m n
    rw [length_argumentBytes]
    split_ifs <;> decide
  unfold numberBytes
  split
  · split
    · simp
    split
    · exact hbound ..
    · exact hbound ..
  · simp

theorem readSimple_ok {depth info : Nat} {bytes rest : List UInt8} {v : CborValue}
    (hdepth : depth ≤ options.maxDepth.val) (h : readSimple info bytes = .ok (v, rest)) :
    ∃ used, bytes = used ++ rest ∧ ∀ b : UInt8, Returned options depth (b :: used) v := by
  unfold readSimple at h
  split at h
  · obtain ⟨rfl, rfl⟩ := ByteReader.pure_eq_ok.mp h
    exact ⟨[], rfl, fun _ => ⟨.bool hdepth _, .bool _, rfl, le_refl 1⟩⟩
  split at h
  · obtain ⟨rfl, rfl⟩ := ByteReader.pure_eq_ok.mp h
    exact ⟨[], rfl, fun _ => ⟨.bool hdepth _, .bool _, rfl, le_refl 1⟩⟩
  split at h
  · obtain ⟨rfl, rfl⟩ := ByteReader.pure_eq_ok.mp h
    exact ⟨[], rfl, fun _ => ⟨.null hdepth, .null, rfl, le_refl 1⟩⟩
  split at h
  · obtain ⟨bits, mid, hbits, h⟩ := ByteReader.bind_eq_ok.mp h
    split at h
    · exact absurd h ByteReader.throw_ne_ok
    rename_i hfinite
    split at h
    · exact absurd h ByteReader.throw_ne_ok
    rename_i hsafe
    obtain ⟨rfl, rfl⟩ := ByteReader.pure_eq_ok.mp h
    obtain ⟨used, hlen, rfl⟩ := ByteReader.uint_eq_ok hbits
    have hx : EncodableNumber (Float64.ofBits bits.val) := by
      refine ⟨Bool.eq_true_of_not_eq_false hfinite, fun hint _ => ?_⟩
      rw [Option.isSome_iff_ne_none]
      exact fun hnone => hsafe ⟨hint, hnone⟩
    refine ⟨used, rfl, fun _ => ⟨.number hdepth hx, .number _, rfl, ?_⟩⟩
    rw [List.length_cons, hlen]
    exact length_numberBytes
  split at h
  · exact absurd h ByteReader.throw_ne_ok
  · exact absurd h ByteReader.throw_ne_ok

theorem readText_ok {depth info : Nat} {bytes rest : List UInt8} {v : CborValue}
    (hdepth : depth ≤ options.maxDepth.val) (h : readText options info bytes = .ok (v, rest)) :
    ∃ used, bytes = used ++ rest ∧ ∀ b : UInt8, Returned options depth (b :: used) v := by
  obtain ⟨length, mid, hlength, hbytes⟩ := ByteReader.bind_eq_ok.mp h
  obtain ⟨text, mid', htext, hs⟩ := ByteReader.bind_eq_ok.mp hbytes
  obtain ⟨hle, used, rfl, hused⟩ := readLength_ok hlength 3
  obtain ⟨hlen, rfl⟩ := ByteReader.take_eq_ok htext
  cases hread : decodeUtf8Fatal text with
  | some s =>
    rw [hread] at hs
    obtain ⟨rfl, rfl⟩ := ByteReader.pure_eq_ok.mp hs
    obtain ⟨hwf, rfl⟩ := decodeUtf8Fatal_eq_some hread
    refine ⟨used ++ encodeUtf8 s, (List.append_assoc ..).symm, fun b =>
      ⟨.string hdepth ⟨hwf, by rwa [hlen]⟩, .string _, rfl, ?_⟩⟩
    show (textBytes s).length ≤ _
    rw [textBytes, hlen, List.length_append, List.length_cons, List.length_append]
    omega
  | none =>
    rw [hread] at hs
    exact absurd hs ByteReader.throw_ne_ok

/-- An integer is a number to encode, and written by its argument. -/
theorem returned_integer {depth : Nat} (hdepth : depth ≤ options.maxDepth.val) (n : SafeInt)
    {used : List UInt8} (h : (if 0 ≤ n.val then argumentBytes 0 n.val.toNat
      else argumentBytes 1 (-1 - n.val).toNat).length ≤ used.length) :
    Returned options depth used (.number (.ofSafe n)) := by
  have hsafe := Float64.toSafe?_eq_some.mpr (Float64.toInt?_ofSafe n)
  refine ⟨.number hdepth ⟨Float64.isFinite_ofSafe n, fun _ _ => by rw [hsafe]; rfl⟩, .number _,
    rfl, ?_⟩
  show (numberBytes _).length ≤ _
  unfold numberBytes
  simp only [hsafe]
  rwa [if_neg (Float64.ofSafe_ne_negZero n)]

/-- Fields as `readEntries` collects them. -/
structure Collected (options : ResolvedCborOptions) (depth : Nat)
    (fields : List (JsString × CborValue)) : Prop where
  order : OwnOrder (fields.map Prod.fst)
  keys : ∀ f ∈ fields, EncodableText options f.1
  encodable : ∀ f ∈ fields, Encodable options depth f.2
  wf : ∀ f ∈ fields, f.2.Wf
  dropUndefined : ∀ f ∈ fields, f.2.dropUndefined = f.2

theorem collected_nil (options : ResolvedCborOptions) (depth : Nat) :
    Collected options depth [] := by
  refine ⟨List.Pairwise.nil, ?_, ?_, ?_, ?_⟩ <;> exact fun f hf => absurd hf List.not_mem_nil

theorem Collected.entries {depth : Nat} {fields : List (JsString × CborValue)}
    (h : Collected options depth fields) : CborValue.entries fields = fields := by
  rw [CborValue.entries, List.filter_eq_self]
  intro f hf
  rw [(h.encodable f hf).isUndefined]
  rfl

/-- A field more, of a new name. -/
theorem Collected.extend {depth : Nat} {fields : List (JsString × CborValue)}
    (h : Collected options depth fields) {key : JsString} {v : CborValue} {used : List UInt8}
    (hkey : EncodableText options key) (hnew : key ∉ fields.map Prod.fst)
    (hv : Returned options depth used v) : Collected options depth (addField fields key v) := by
  have hmem : ∀ f, f ∈ addField fields key v ↔ f = (key, v) ∨ f ∈ fields := fun f => by
    rw [(addField_perm fields key v).mem_iff, List.mem_cons]
  refine ⟨ownOrder_addField v h.order hnew, ?_, ?_, ?_, ?_⟩
  all_goals
    intro f hf
    rcases (hmem f).mp hf with rfl | hf
  · exact hkey
  · exact h.keys f hf
  · exact hv.encodable
  · exact h.encodable f hf
  · exact hv.wf
  · exact h.wf f hf
  · exact hv.dropUndefined
  · exact h.dropUndefined f hf

theorem length_entryBytes_addField (fields : List (JsString × CborValue)) (key : JsString)
    (v : CborValue) : ((addField fields key v).map entryBytes).flatten.length
      = (textBytes key).length + (encoding v).length + (fields.map entryBytes).flatten.length := by
  have hperm := ((addField_perm fields key v).map entryBytes).flatten.length_eq
  rw [hperm, List.map_cons, List.flatten_cons, List.length_append, entryBytes, List.length_append]

/-- What the loop over the entries of a map collects. -/
theorem readEntries_ok {depth : Nat} {inner : CborReader CborValue}
    (hinner : ∀ bytes v rest, inner bytes = .ok (v, rest) →
      ∃ used, bytes = used ++ rest ∧ Returned options depth used v) :
    ∀ {n : Nat} {result fields : List (JsString × CborValue)} {bytes rest : List UInt8},
      Collected options depth result →
      readEntries inner n result bytes = .ok (fields, rest) →
        Collected options depth fields ∧ fields.length = result.length + n ∧
          ∃ used, bytes = used ++ rest ∧ (fields.map entryBytes).flatten.length
            ≤ (result.map entryBytes).flatten.length + used.length
  | 0, result, fields, bytes, rest, hresult, h => by
    obtain ⟨rfl, rfl⟩ := ByteReader.pure_eq_ok.mp h
    exact ⟨hresult, rfl, [], rfl, Nat.le_refl _⟩
  | n + 1, result, fields, bytes, rest, hresult, h => by
    obtain ⟨keyValue, mid, hkey, hentry⟩ := ByteReader.bind_eq_ok.mp h
    obtain ⟨used, rfl, hkeyValue⟩ := hinner _ _ _ hkey
    cases keyValue with
    | string key =>
      simp only at hentry
      split at hentry
      · exact absurd hentry ByteReader.throw_ne_ok
      rename_i hnew
      obtain ⟨v, mid', hv, hrest⟩ := ByteReader.bind_eq_ok.mp hentry
      obtain ⟨used', rfl, hreturned⟩ := hinner _ _ _ hv
      have htext : EncodableText options key := by
        cases hkeyValue.encodable
        assumption
      obtain ⟨hfields, hlen, used'', rfl, hused⟩ :=
        readEntries_ok hinner (hresult.extend htext hnew hreturned) hrest
      refine ⟨hfields, ?_, used ++ (used' ++ used''), by simp only [List.append_assoc], ?_⟩
      · rw [hlen, (addField_perm result key v).length_eq, List.length_cons]
        omega
      · have hkeyLength : (textBytes key).length ≤ used.length := hkeyValue.length
        have hvLength := hreturned.length
        rw [length_entryBytes_addField] at hused
        simp only [List.length_append]
        omega
    | _ => exact absurd hentry ByteReader.throw_ne_ok

theorem map_dropUndefined {items : List CborValue} (h : ∀ v ∈ items, v.dropUndefined = v) :
    items.map CborValue.dropUndefined = items := by
  rw [List.map_congr_left h, List.map_id']

theorem returned_items {depth : Nat} : ∀ {useds : List (List UInt8)} {items : List CborValue},
    List.Forall₂ (Returned options depth) useds items →
      (∀ v ∈ items, Encodable options depth v ∧ v.Wf ∧ v.dropUndefined = v) ∧
        (items.map encoding).flatten.length ≤ useds.flatten.length
  | _, _, .nil => ⟨nofun, Nat.le_refl 0⟩
  | _, _, .cons hv hvs => by
    obtain ⟨hall, hlen⟩ := returned_items hvs
    refine ⟨List.forall_mem_cons.mpr ⟨⟨hv.encodable, hv.wf, hv.dropUndefined⟩, hall⟩, ?_⟩
    have := hv.length
    simp only [List.map_cons, List.flatten_cons, List.length_append]
    omega

/-- What is nested inside returns values to encode at `depth + 1`: the item itself does at
`depth`. -/
theorem readMajor_ok {depth : Nat} (hdepth : depth ≤ options.maxDepth.val)
    {inner : CborReader CborValue}
    (hinner : ∀ bytes v rest, inner bytes = .ok (v, rest) →
      ∃ used, bytes = used ++ rest ∧ Returned options (depth + 1) used v)
    {majorType info : Nat} {bytes rest : List UInt8} {v : CborValue}
    (h : readMajor options inner majorType info bytes = .ok (v, rest)) :
    ∃ used, bytes = used ++ rest ∧ ∀ b : UInt8, Returned options depth (b :: used) v := by
  unfold readMajor at h
  split at h
  · obtain ⟨value, mid, hvalue, h⟩ := ByteReader.bind_eq_ok.mp h
    obtain ⟨rfl, rfl⟩ := ByteReader.pure_eq_ok.mp h
    obtain ⟨used, rfl, hused⟩ := readArgument_ok hvalue 0
    refine ⟨used, rfl, fun b => returned_integer hdepth _ ?_⟩
    have hpos : 0 ≤ value.toSafe.val := Int.natCast_nonneg value.val
    rw [if_pos hpos]
    exact hused
  split at h
  · obtain ⟨value, mid, hvalue, h⟩ := ByteReader.bind_eq_ok.mp h
    split at h
    · obtain ⟨rfl, rfl⟩ := ByteReader.pure_eq_ok.mp h
      obtain ⟨used, rfl, hused⟩ := readArgument_ok hvalue 1
      refine ⟨used, rfl, fun b => returned_integer hdepth _ ?_⟩
      have hneg : ¬ (0 : Int) ≤ -1 - (value.val : Int) := by omega
      have hback : (-1 - (-1 - (value.val : Int))).toNat = value.val := by omega
      rw [if_neg hneg, hback]
      exact hused
    · exact absurd h ByteReader.throw_ne_ok
  split at h
  · obtain ⟨length, mid, hlength, hbytes⟩ := ByteReader.bind_eq_ok.mp h
    obtain ⟨bs, mid', hbs, hv⟩ := ByteReader.bind_eq_ok.mp hbytes
    obtain ⟨rfl, rfl⟩ := ByteReader.pure_eq_ok.mp hv
    obtain ⟨hle, used, rfl, hused⟩ := readLength_ok hlength 2
    obtain ⟨rfl, rfl⟩ := ByteReader.take_eq_ok hbs
    refine ⟨used ++ bs, (List.append_assoc ..).symm, fun b =>
      ⟨.bytes hdepth hle, .bytes _, rfl, ?_⟩⟩
    show (argumentBytes 2 bs.length ++ bs).length ≤ _
    rw [List.length_append, List.length_cons, List.length_append]
    omega
  split at h
  · exact readText_ok hdepth h
  split at h
  · obtain ⟨length, mid, hlength, hitems⟩ := ByteReader.bind_eq_ok.mp h
    obtain ⟨items, mid', hread, hv⟩ := ByteReader.bind_eq_ok.mp hitems
    obtain ⟨rfl, rfl⟩ := ByteReader.pure_eq_ok.mp hv
    obtain ⟨hle, used, rfl, hused⟩ := readLength_ok hlength 4
    obtain ⟨rfl, useds, rfl, hreturned⟩ := ByteReader.repeated_eq_ok hinner hread
    obtain ⟨hall, hlen⟩ := returned_items hreturned
    refine ⟨used ++ useds.flatten, (List.append_assoc ..).symm, fun b =>
      ⟨.array hdepth hle fun v hv => (hall v hv).1, .array fun v hv => (hall v hv).2.1, ?_, ?_⟩⟩
    · rw [CborValue.dropUndefined, CborValue.dropUndefinedItems_eq,
        map_dropUndefined fun v hv => (hall v hv).2.2]
    · rw [encoding, encodingItems_eq, List.length_append, List.length_cons, List.length_append]
      omega
  split at h
  · obtain ⟨length, mid, hlength, hfields⟩ := ByteReader.bind_eq_ok.mp h
    obtain ⟨fields, mid', hread, hv⟩ := ByteReader.bind_eq_ok.mp hfields
    obtain ⟨rfl, rfl⟩ := ByteReader.pure_eq_ok.mp hv
    obtain ⟨hle, used, rfl, hused⟩ := readLength_ok hlength 5
    obtain ⟨hcollected, hlen, used', rfl, hlength'⟩ :=
      readEntries_ok hinner (collected_nil options _) hread
    rw [List.length_nil, Nat.zero_add] at hlen
    have hentries := hcollected.entries
    refine ⟨used ++ used', (List.append_assoc ..).symm, fun b => ⟨?_, ?_, ?_, ?_⟩⟩
    · exact .object hdepth (by rwa [hentries, hlen]) (by rw [hentries]; exact hcollected.keys)
        (by rw [hentries]; exact hcollected.encodable)
    · exact .object hcollected.order hcollected.wf
    · rw [CborValue.dropUndefined, CborValue.dropUndefinedFields_eq, hentries]
      congr 1
      have hsame : ∀ f ∈ fields, (f.1, f.2.dropUndefined) = f := fun f hf =>
        Prod.ext rfl (hcollected.dropUndefined f hf)
      rw [List.map_congr_left hsame, List.map_id']
    · rw [encoding, encodingEntries_eq, hentries, hlen, List.length_append, List.length_cons,
        List.length_append]
      simp only [List.map_nil, List.flatten_nil, List.length_nil] at hlength'
      omega
  split at h
  · exact absurd h ByteReader.throw_ne_ok
  · exact readSimple_ok hdepth h

/-- What `readItem` returns with the levels of a depth left. -/
theorem readItem_ok : ∀ {levels : Nat}, levels ≤ options.maxDepth.val + 1 →
    ∀ (bytes : List UInt8) (v : CborValue) (rest : List UInt8),
      readItem options levels bytes = .ok (v, rest) →
        ∃ used, bytes = used ++ rest ∧ Returned options (options.maxDepth.val + 1 - levels) used v
  | 0, _, bytes, v, rest, h => absurd h ByteReader.throw_ne_ok
  | levels + 1, hlevels, bytes, v, rest, h => by
    obtain ⟨initial, mid, hinitial, hmajor⟩ := ByteReader.bind_eq_ok.mp h
    obtain ⟨used, hlen, rfl⟩ := ByteReader.uint_eq_ok hinitial
    obtain ⟨b, rfl⟩ := List.length_eq_one_iff.mp hlen
    have hdepth : options.maxDepth.val + 1 - (levels + 1) + 1
        = options.maxDepth.val + 1 - levels := by omega
    have hinner := @readItem_ok levels (by omega)
    rw [← hdepth] at hinner
    obtain ⟨used', rfl, hreturned⟩ := readMajor_ok (by omega) hinner hmajor
    exact ⟨b :: used', rfl, hreturned b⟩

end CborReader

end PiMono.Protocol
