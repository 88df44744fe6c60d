import PiMono.Protocol.CborOptions
import PiMono.Lib.ByteReader
import PiMono.Lib.Except
import PiMono.Lib.Utf8

/-!
# The CBOR encoder

`CborWriter` holds the bytes written so far, never more than its limit; the growing of
its buffer is left out. `encodeValue` is the encoder's walk. `Encodable` says which values
it accepts at a depth and `encoding` what it writes for them; `writes_encodeValue` says that
this is all the walk does.
-/

namespace PiMono.Protocol

/-! ## Writer -/

/-- `CborWriter` -/
structure CborWriter where
  maxByteLength : Nat
  bytes : List UInt8
  within : bytes.length ≤ maxByteLength

namespace CborWriter

def create (maxByteLength : Nat) : CborWriter := ⟨maxByteLength, [], Nat.zero_le _⟩

/-- `ensureCapacity`, then the bytes go behind those already written. -/
def writeBytes (w : CborWriter) (bs : List UInt8) : Except CborFailure CborWriter :=
  if h : w.bytes.length + bs.length ≤ w.maxByteLength then
    .ok ⟨w.maxByteLength, w.bytes ++ bs, by rwa [List.length_append]⟩
  else
    .error (.cborError
      ("CBOR byte length exceeds configured limit of " ++ toString w.maxByteLength))

def writeByte (w : CborWriter) (value : Nat) : Except CborFailure CborWriter :=
  w.writeBytes [UInt8.ofNat value]

def writeUint16 (w : CborWriter) (value : Nat) : Except CborFailure CborWriter :=
  w.writeBytes (bigEndian 2 value)

def writeUint32 (w : CborWriter) (value : Nat) : Except CborFailure CborWriter :=
  w.writeBytes (bigEndian 4 value)

def writeUint64 (w : CborWriter) (value : Nat) : Except CborFailure CborWriter := do
  let high := value / UINT32_BASE
  let low := value - high * UINT32_BASE
  let w ← w.writeUint32 high
  w.writeUint32 low

/-- The byte `0xfb` and the bits of a number. -/
def writeFloat64 (w : CborWriter) (value : Float64) : Except CborFailure CborWriter :=
  w.writeBytes (0xfb :: bigEndian 8 value.toBits)

end CborWriter

/-! ## Encoder -/

/-- `writeArgument`; `prefix | value` is a sum, as `value` fits the five low bits. -/
def writeArgument (w : CborWriter) (majorType value : Nat) : Except CborFailure CborWriter := do
  if value < 24 then w.writeByte (majorType * 32 + value)
  else if value ≤ 0xff then
    let w ← w.writeByte (majorType * 32 + 24)
    w.writeByte value
  else if value ≤ 0xffff then
    let w ← w.writeByte (majorType * 32 + 25)
    w.writeUint16 value
  else if value ≤ MAX_UINT32 then
    let w ← w.writeByte (majorType * 32 + 26)
    w.writeUint32 value
  else
    let w ← w.writeByte (majorType * 32 + 27)
    w.writeUint64 value

/-- `encodeText` -/
def encodeText (options : ResolvedCborOptions) (w : CborWriter) (value : JsString) :
    Except CborFailure CborWriter := do
  let bytes := encodeUtf8 value
  if bytes.length > options.maxByteLength.val then
    throw (.cborError ("CBOR text string length exceeds configured limit of "
      ++ toString options.maxByteLength.val))
  if decodeUtf8Fatal bytes ≠ some value then
    throw (.cborError "CBOR text strings must contain valid Unicode scalar values")
  let w ← writeArgument w 3 bytes.length
  w.writeBytes bytes

/-- The case of `encodeValue` for a number. -/
def encodeNumber (w : CborWriter) (value : Float64) : Except CborFailure CborWriter :=
  if value.isFinite then
    if value.isInteger ∧ value ≠ .negZero then
      match value.toSafe? with
      | some n =>
        if 0 ≤ n.val then writeArgument w 0 n.val.toNat
        else writeArgument w 1 (-1 - n.val).toNat
      | none => .error (.cborError "CBOR integers must be safe JavaScript integers")
    else w.writeFloat64 value
  else .error (.cborError "CBOR numbers must be finite")

mutual

/-- `encodeValue`. The set `ancestors` is the leaf `enclosing`. -/
def encodeValue (options : ResolvedCborOptions) (w : CborWriter) (depth : Nat)
    (value : CborValue) : Except CborFailure CborWriter :=
  if depth > options.maxDepth.val then
    .error (.cborError ("CBOR nesting depth exceeds configured limit of "
      ++ toString options.maxDepth.val))
  else
    match value with
    | .null => w.writeByte 0xf6
    | .bool b => w.writeByte (if b then 0xf5 else 0xf4)
    | .number x => encodeNumber w x
    | .string s => encodeText options w s
    | .bytes bs =>
      if bs.length > options.maxByteLength.val then
        .error (.cborError ("CBOR byte string length exceeds configured limit of "
          ++ toString options.maxByteLength.val))
      else do
        let w ← writeArgument w 2 bs.length
        w.writeBytes bs
    | .enclosing => .error (.cborError "CBOR values must not contain cycles")
    | .array items =>
      if items.length > options.maxContainerLength.val then
        .error (.cborError ("CBOR array length exceeds configured limit of "
          ++ toString options.maxContainerLength.val))
      else do
        let w ← writeArgument w 4 items.length
        encodeItems options w depth items
    | .object symbols fields =>
      if symbols then .error (.cborError "CBOR map keys must be strings")
      else if (CborValue.entries fields).length > options.maxContainerLength.val then
        .error (.cborError ("CBOR map length exceeds configured limit of "
          ++ toString options.maxContainerLength.val))
      else do
        let w ← writeArgument w 5 (CborValue.entries fields).length
        encodeEntries options w depth fields
    | .undefined => .error (.cborError "Unsupported CBOR value type: undefined")
    | .other type => .error (.cborError ("Unsupported CBOR value type: " ++ type.text))

/-- The loop over the items of an array at `depth`. -/
def encodeItems (options : ResolvedCborOptions) (w : CborWriter) (depth : Nat) :
    List CborValue → Except CborFailure CborWriter
  | [] => .ok w
  | v :: vs =>
    if v.isUndefined then
      .error (.cborError "CBOR arrays must not contain holes or undefined values")
    else do
      let w ← encodeValue options w (depth + 1) v
      encodeItems options w depth vs

/-- The loop over the entries of an object at `depth`; a field that is no entry is
passed over. -/
def encodeEntries (options : ResolvedCborOptions) (w : CborWriter) (depth : Nat) :
    List (JsString × CborValue) → Except CborFailure CborWriter
  | [] => .ok w
  | (key, v) :: fields =>
    if v.isUndefined then encodeEntries options w depth fields
    else do
      let w ← encodeText options w key
      let w ← encodeValue options w (depth + 1) v
      encodeEntries options w depth fields

end

/-- `encodeCbor` -/
def encodeCbor (value : CborValue) (options : CborOptions) :
    Except CborFailure (List UInt8) := do
  let resolved ← resolveOptions options
  let w ← encodeValue resolved (.create resolved.maxByteLength.val) 0 value
  pure w.bytes

/-! ## What is written -/

/-- `w'` is `w` after writing `bs`. -/
structure CborWriter.Wrote (w : CborWriter) (bs : List UInt8) (w' : CborWriter) : Prop where
  limit : w'.maxByteLength = w.maxByteLength
  bytes : w'.bytes = w.bytes ++ bs

/-- A step of the writer that writes `bs` if `P` holds and there is room for them, and
fails otherwise. -/
def Writes (P : Prop) (f : CborWriter → Except CborFailure CborWriter) (bs : List UInt8) : Prop :=
  ∀ w w', f w = .ok w' ↔ P ∧ w.Wrote bs w'

theorem CborWriter.Wrote.trans {w w' w'' : CborWriter} {bs cs : List UInt8}
    (h : w.Wrote bs w') (h' : w'.Wrote cs w'') : w.Wrote (bs ++ cs) w'' :=
  ⟨h'.limit.trans h.limit, by rw [h'.bytes, h.bytes, List.append_assoc]⟩

/-- What was written in one piece can be written in two. -/
theorem CborWriter.Wrote.split {w w'' : CborWriter} {bs cs : List UInt8}
    (h : w.Wrote (bs ++ cs) w'') : ∃ w', w.Wrote bs w' ∧ w'.Wrote cs w'' := by
  have hroom : (w.bytes ++ bs).length ≤ w.maxByteLength := by
    have hlen := congrArg List.length h.bytes
    have := w''.within
    rw [h.limit] at this
    simp only [List.length_append] at hlen ⊢
    omega
  refine ⟨⟨w.maxByteLength, w.bytes ++ bs, hroom⟩, ⟨rfl, rfl⟩, h.limit, ?_⟩
  rw [h.bytes, List.append_assoc]

theorem CborWriter.Wrote.nil_iff {w w' : CborWriter} : w.Wrote [] w' ↔ w = w' := by
  constructor
  · rintro ⟨hlimit, hbytes⟩
    rw [List.append_nil] at hbytes
    cases w
    cases w'
    simp only at hlimit hbytes
    subst hlimit hbytes
    rfl
  · rintro rfl
    exact ⟨rfl, (List.append_nil _).symm⟩

namespace Writes

variable {P Q : Prop} {f g : CborWriter → Except CborFailure CborWriter} {bs cs : List UInt8}

theorem bind (hf : Writes P f bs) (hg : Writes Q g cs) :
    Writes (P ∧ Q) (fun w => f w >>= g) (bs ++ cs) := by
  intro w w''
  rw [Except.bind_eq_ok]
  constructor
  · rintro ⟨w', h, h'⟩
    obtain ⟨hP, h⟩ := (hf _ _).mp h
    obtain ⟨hQ, h'⟩ := (hg _ _).mp h'
    exact ⟨⟨hP, hQ⟩, h.trans h'⟩
  · rintro ⟨⟨hP, hQ⟩, h⟩
    obtain ⟨w', h, h'⟩ := h.split
    exact ⟨w', (hf _ _).mpr ⟨hP, h⟩, (hg _ _).mpr ⟨hQ, h'⟩⟩

theorem congr (hf : Writes P f bs) (h : P ↔ Q) : Writes Q f bs := fun w w' => by
  rw [hf w w', h]

/-- A step behind one that always writes. -/
theorem andThen (hf : Writes True f bs) (hg : Writes P g cs) :
    Writes P (fun w => f w >>= g) (bs ++ cs) := (hf.bind hg).congr (iff_of_eq (true_and P))

/-- A check in front of a step. -/
theorem check {C : Prop} [Decidable C] {e : CborFailure} (hP : P → ¬C)
    (hf : ¬C → Writes P f bs) : Writes P (fun w => if C then .error e else f w) bs := by
  intro w w'
  by_cases h : C
  · simp only [if_pos h]
    constructor
    · intro hcon
      cases hcon
    · rintro ⟨hp, -⟩
      exact absurd h (hP hp)
  · simp only [if_neg h]
    exact hf h w w'

/-- A step that always fails. -/
theorem error {e : CborFailure} (hP : ¬P) : Writes P (fun _ => .error e) bs := by
  intro w w'
  constructor
  · intro hcon
    cases hcon
  · rintro ⟨hp, -⟩
    exact absurd hp hP

theorem nil : Writes True .ok [] := by
  intro w w'
  rw [true_and, CborWriter.Wrote.nil_iff, Except.ok.injEq]

theorem writeBytes (bs : List UInt8) : Writes True (·.writeBytes bs) bs := by
  intro w w'
  show w.writeBytes bs = .ok w' ↔ True ∧ _
  rw [true_and]
  unfold CborWriter.writeBytes
  constructor
  · intro h
    split at h
    · cases h
      exact ⟨rfl, rfl⟩
    · cases h
  · rintro ⟨hlimit, hbytes⟩
    have hroom : w.bytes.length + bs.length ≤ w.maxByteLength := by
      rw [← List.length_append, ← hbytes, ← hlimit]
      exact w'.within
    rw [dif_pos hroom]
    cases w'
    simp only at hlimit hbytes
    subst hlimit hbytes
    rfl

end Writes

/-- The bytes of an argument: the shortest form that holds the value. -/
def argumentBytes (majorType value : Nat) : List UInt8 :=
  if value < 24 then [UInt8.ofNat (majorType * 32 + value)]
  else if value ≤ 0xff then [UInt8.ofNat (majorType * 32 + 24)] ++ [UInt8.ofNat value]
  else if value ≤ 0xffff then [UInt8.ofNat (majorType * 32 + 25)] ++ bigEndian 2 value
  else if value ≤ MAX_UINT32 then [UInt8.ofNat (majorType * 32 + 26)] ++ bigEndian 4 value
  else [UInt8.ofNat (majorType * 32 + 27)] ++ (bigEndian 4 (value / UINT32_BASE)
    ++ bigEndian 4 (value - value / UINT32_BASE * UINT32_BASE))

theorem writes_writeArgument (majorType value : Nat) :
    Writes True (writeArgument · majorType value) (argumentBytes majorType value) := by
  unfold writeArgument argumentBytes
  split
  · exact .writeBytes _
  split
  · exact (Writes.writeBytes _).andThen (.writeBytes _)
  split
  · exact (Writes.writeBytes _).andThen (.writeBytes _)
  split
  · exact (Writes.writeBytes _).andThen (.writeBytes _)
  · exact (Writes.writeBytes _).andThen ((Writes.writeBytes _).andThen (.writeBytes _))

/-- A text the encoder accepts. -/
def EncodableText (options : ResolvedCborOptions) (s : JsString) : Prop :=
  WellFormed s ∧ (encodeUtf8 s).length ≤ options.maxByteLength.val

def textBytes (s : JsString) : List UInt8 :=
  argumentBytes 3 (encodeUtf8 s).length ++ encodeUtf8 s

theorem writes_encodeText (options : ResolvedCborOptions) (s : JsString) :
    Writes (EncodableText options s) (encodeText options · s) (textBytes s) := by
  refine .check (fun h => Nat.not_lt.mpr h.2) fun hlen => ?_
  refine .check (fun h => ?_) fun htext => ?_
  · rw [decodeUtf8Fatal_encodeUtf8 h.1]
    exact fun hne => hne rfl
  · have hs : EncodableText options s :=
      ⟨(decodeUtf8Fatal_iff s).mp (not_not.mp htext), Nat.not_lt.mp hlen⟩
    exact ((writes_writeArgument _ _).andThen (.writeBytes _)).congr (iff_of_true trivial hs)

/-- A number the encoder accepts. -/
def EncodableNumber (x : Float64) : Prop :=
  x.isFinite = true ∧ (x.isInteger = true → x ≠ .negZero → x.toSafe?.isSome = true)

/-- An integer is written as one, except for `-0`; any other number by its bits. -/
def numberBytes (x : Float64) : List UInt8 :=
  match x.toSafe? with
  | some n =>
    if x = .negZero then 0xfb :: bigEndian 8 x.toBits
    else if 0 ≤ n.val then argumentBytes 0 n.val.toNat
    else argumentBytes 1 (-1 - n.val).toNat
  | none => 0xfb :: bigEndian 8 x.toBits

theorem writes_encodeNumber (x : Float64) :
    Writes (EncodableNumber x) (encodeNumber · x) (numberBytes x) := by
  unfold encodeNumber
  by_cases hfinite : x.isFinite = true
  · simp only [if_pos hfinite]
    by_cases hint : x.isInteger = true ∧ x ≠ .negZero
    · simp only [if_pos hint]
      unfold numberBytes
      cases hsafe : x.toSafe? with
      | none =>
        refine .error fun h => ?_
        have := h.2 hint.1 hint.2
        rw [hsafe] at this
        cases this
      | some n =>
        have hx : EncodableNumber x := ⟨hfinite, fun _ _ => by rw [hsafe]; rfl⟩
        simp only [if_neg hint.2]
        split
        · exact (writes_writeArgument _ _).congr (iff_of_true trivial hx)
        · exact (writes_writeArgument _ _).congr (iff_of_true trivial hx)
    · simp only [if_neg hint]
      have hx : EncodableNumber x := ⟨hfinite, fun hi hz => absurd ⟨hi, hz⟩ hint⟩
      have hbytes : numberBytes x = 0xfb :: bigEndian 8 x.toBits := by
        unfold numberBytes
        split
        · rename_i n hsafe
          -- the only integer that is no integer to the encoder
          have hzero : x = .negZero := by
            by_contra hne
            exact hint ⟨Float64.isInteger_of_toSafe? hsafe, hne⟩
          rw [if_pos hzero]
        · rfl
      rw [hbytes]
      exact (Writes.writeBytes _).congr (iff_of_true trivial hx)
  · simp only [if_neg hfinite]
    exact .error fun h => hfinite h.1

/-- The values the encoder accepts at a depth. -/
inductive Encodable (options : ResolvedCborOptions) : Nat → CborValue → Prop
  | null {depth : Nat} (hdepth : depth ≤ options.maxDepth.val) : Encodable options depth .null
  | bool {depth : Nat} (hdepth : depth ≤ options.maxDepth.val) (b : Bool) :
    Encodable options depth (.bool b)
  | number {depth : Nat} {x : Float64} (hdepth : depth ≤ options.maxDepth.val)
    (hx : EncodableNumber x) : Encodable options depth (.number x)
  | string {depth : Nat} {s : JsString} (hdepth : depth ≤ options.maxDepth.val)
    (hs : EncodableText options s) : Encodable options depth (.string s)
  | bytes {depth : Nat} {bs : List UInt8} (hdepth : depth ≤ options.maxDepth.val)
    (hbs : bs.length ≤ options.maxByteLength.val) : Encodable options depth (.bytes bs)
  | array {depth : Nat} {items : List CborValue} (hdepth : depth ≤ options.maxDepth.val)
    (hlen : items.length ≤ options.maxContainerLength.val)
    (hitems : ∀ v ∈ items, Encodable options (depth + 1) v) : Encodable options depth (.array items)
  | object {depth : Nat} {fields : List (JsString × CborValue)}
    (hdepth : depth ≤ options.maxDepth.val)
    (hlen : (CborValue.entries fields).length ≤ options.maxContainerLength.val)
    (hkeys : ∀ f ∈ CborValue.entries fields, EncodableText options f.1)
    (hvalues : ∀ f ∈ CborValue.entries fields, Encodable options (depth + 1) f.2) :
    Encodable options depth (.object false fields)

mutual

/-- What the encoder writes for a value it accepts. -/
def encoding : CborValue → List UInt8
  | .null => [0xf6]
  | .bool b => [if b then 0xf5 else 0xf4]
  | .number x => numberBytes x
  | .string s => textBytes s
  | .bytes bs => argumentBytes 2 bs.length ++ bs
  | .array items => argumentBytes 4 items.length ++ encodingItems items
  | .object _ fields =>
    argumentBytes 5 (CborValue.entries fields).length ++ encodingEntries fields
  | .undefined | .enclosing | .other _ => []

def encodingItems : List CborValue → List UInt8
  | [] => []
  | v :: vs => encoding v ++ encodingItems vs

def encodingEntries : List (JsString × CborValue) → List UInt8
  | [] => []
  | (key, v) :: fields =>
    if v.isUndefined then encodingEntries fields
    else textBytes key ++ (encoding v ++ encodingEntries fields)

end

/-- The bytes of one entry. -/
def entryBytes (f : JsString × CborValue) : List UInt8 := textBytes f.1 ++ encoding f.2

theorem encodingItems_eq : ∀ items : List CborValue,
    encodingItems items = (items.map encoding).flatten
  | [] => rfl
  | v :: vs => by rw [encodingItems, encodingItems_eq vs, List.map_cons, List.flatten_cons]

theorem encodingEntries_eq : ∀ fields : List (JsString × CborValue),
    encodingEntries fields = ((CborValue.entries fields).map entryBytes).flatten
  | [] => rfl
  | (key, v) :: fields => by
    rw [encodingEntries, encodingEntries_eq fields, CborValue.entries, CborValue.entries,
      List.filter_cons]
    cases v.isUndefined
    · simp [entryBytes]
    · rfl

theorem Encodable.depth_le {options : ResolvedCborOptions} {depth : Nat} {v : CborValue}
    (h : Encodable options depth v) : depth ≤ options.maxDepth.val := by
  cases h <;> assumption

theorem Encodable.isUndefined {options : ResolvedCborOptions} {depth : Nat} {v : CborValue}
    (h : Encodable options depth v) : v.isUndefined = false := by
  cases h <;> rfl

variable {options : ResolvedCborOptions}

theorem encodable_array_iff {depth : Nat} (hdepth : depth ≤ options.maxDepth.val)
    {items : List CborValue} : Encodable options depth (.array items) ↔
      items.length ≤ options.maxContainerLength.val ∧
        ∀ v ∈ items, Encodable options (depth + 1) v := by
  constructor
  · intro h
    cases h with
    | array _ hlen hitems => exact ⟨hlen, hitems⟩
  · rintro ⟨hlen, hitems⟩
    exact .array hdepth hlen hitems

/-- The entries of an object that can be encoded. -/
def EncodableEntries (options : ResolvedCborOptions) (depth : Nat)
    (fields : List (JsString × CborValue)) : Prop :=
  ∀ f ∈ CborValue.entries fields, EncodableText options f.1 ∧ Encodable options depth f.2

theorem encodable_object_iff {depth : Nat} (hdepth : depth ≤ options.maxDepth.val)
    {symbols : Bool} {fields : List (JsString × CborValue)} :
    Encodable options depth (.object symbols fields) ↔
      symbols = false ∧ (CborValue.entries fields).length ≤ options.maxContainerLength.val ∧
        EncodableEntries options (depth + 1) fields := by
  constructor
  · intro h
    cases h with
    | object _ hlen hkeys hvalues => exact ⟨rfl, hlen, fun f hf => ⟨hkeys f hf, hvalues f hf⟩⟩
  · rintro ⟨rfl, hlen, hentries⟩
    exact .object hdepth hlen (fun f hf => (hentries f hf).1) fun f hf => (hentries f hf).2

/-- The depth check in front of every case of the walk. -/
theorem writes_withinDepth {depth : Nat} {v : CborValue} {e : CborFailure}
    {f : CborWriter → Except CborFailure CborWriter} {bs : List UInt8}
    (hf : depth ≤ options.maxDepth.val → Writes (Encodable options depth v) f bs) :
    Writes (Encodable options depth v)
      (fun w => if depth > options.maxDepth.val then .error e else f w) bs :=
  .check (fun h => Nat.not_lt.mpr h.depth_le) fun h => hf (Nat.not_lt.mp h)

mutual

/-- The walk writes the encoding of a value, if the value is one to encode and there is
room. -/
theorem writes_encodeValue (depth : Nat) : ∀ v : CborValue,
    Writes (Encodable options depth v) (encodeValue options · depth v) (encoding v)
  | .null => by
    unfold encodeValue
    refine writes_withinDepth fun hd => ?_
    exact (Writes.writeBytes _).congr (iff_of_true trivial (Encodable.null hd))
  | .bool b => by
    unfold encodeValue
    refine writes_withinDepth fun hd => ?_
    have := (Writes.writeBytes [if b then 0xf5 else 0xf4]).congr
      (iff_of_true trivial (Encodable.bool hd b))
    cases b <;> exact this
  | .number x => by
    unfold encodeValue
    refine writes_withinDepth fun hd => ?_
    exact (writes_encodeNumber x).congr ⟨.number hd, fun h => by cases h; assumption⟩
  | .string s => by
    unfold encodeValue
    refine writes_withinDepth fun hd => ?_
    exact (writes_encodeText options s).congr ⟨.string hd, fun h => by cases h; assumption⟩
  | .bytes bs => by
    unfold encodeValue
    refine writes_withinDepth fun hd => .check (fun h => ?_) fun hlen => ?_
    · cases h with
      | bytes _ hbs => exact Nat.not_lt.mpr hbs
    · exact ((writes_writeArgument _ _).andThen (.writeBytes _)).congr
        (iff_of_true trivial (.bytes hd (Nat.not_lt.mp hlen)))
  | .array items => by
    unfold encodeValue
    refine writes_withinDepth fun hd => ?_
    refine .check (fun h => Nat.not_lt.mpr ((encodable_array_iff hd).mp h).1) fun hlen => ?_
    refine ((writes_writeArgument _ _).andThen (writes_encodeItems depth items)).congr ?_
    rw [encodable_array_iff hd, and_iff_right (Nat.not_lt.mp hlen)]
  | .object symbols fields => by
    unfold encodeValue
    refine writes_withinDepth fun hd => .check (fun h => ?_) fun hsymbols => ?_
    · rw [((encodable_object_iff hd).mp h).1]
      exact Bool.false_ne_true
    refine .check (fun h => Nat.not_lt.mpr ((encodable_object_iff hd).mp h).2.1) fun hlen => ?_
    refine ((writes_writeArgument _ _).andThen (writes_encodeEntries depth fields)).congr ?_
    rw [encodable_object_iff hd, and_iff_right (Bool.eq_false_iff.mpr hsymbols),
      and_iff_right (Nat.not_lt.mp hlen)]
  | .undefined => by
    unfold encodeValue
    exact writes_withinDepth fun _ => .error nofun
  | .enclosing => by
    unfold encodeValue
    exact writes_withinDepth fun _ => .error nofun
  | .other type => by
    unfold encodeValue
    exact writes_withinDepth fun _ => .error nofun

theorem writes_encodeItems (depth : Nat) : ∀ items : List CborValue,
    Writes (∀ v ∈ items, Encodable options (depth + 1) v) (encodeItems options · depth items)
      (encodingItems items)
  | [] => by
    unfold encodeItems
    exact Writes.nil.congr (by simp)
  | v :: vs => by
    unfold encodeItems
    refine .check (fun h => ?_) fun _ => ?_
    · rw [(h v List.mem_cons_self).isUndefined]
      exact Bool.false_ne_true
    · refine ((writes_encodeValue (depth + 1) v).bind (writes_encodeItems depth vs)).congr ?_
      rw [List.forall_mem_cons]

theorem writes_encodeEntries (depth : Nat) : ∀ fields : List (JsString × CborValue),
    Writes (EncodableEntries options (depth + 1) fields) (encodeEntries options · depth fields)
      (encodingEntries fields)
  | [] => by
    unfold encodeEntries
    exact Writes.nil.congr (iff_of_true trivial fun f hf => nomatch hf)
  | (key, v) :: fields => by
    unfold encodeEntries encodingEntries
    have hrest := writes_encodeEntries depth fields
    by_cases hv : v.isUndefined = true
    · simp only [if_pos hv]
      refine hrest.congr ?_
      rw [EncodableEntries, EncodableEntries, CborValue.entries, CborValue.entries,
        List.filter_cons, if_neg (by simp [hv])]
    · simp only [if_neg hv]
      refine ((writes_encodeText options key).bind
        ((writes_encodeValue (depth + 1) v).bind hrest)).congr ?_
      rw [EncodableEntries, EncodableEntries, CborValue.entries, CborValue.entries,
        List.filter_cons, if_pos (by simp [hv]), List.forall_mem_cons, and_assoc]

end

/-- What `encodeCbor` returns: the encoding of a value to encode that fits. -/
theorem encodeCbor_ok_iff {v : CborValue} {options : CborOptions} {bs : List UInt8} :
    encodeCbor v options = .ok bs ↔ ∃ resolved, resolveOptions options = .ok resolved ∧
      Encodable resolved 0 v ∧ (encoding v).length ≤ resolved.maxByteLength.val ∧
        bs = encoding v := by
  unfold encodeCbor
  rw [Except.bind_eq_ok]
  refine exists_congr fun resolved => and_congr_right fun _ => ?_
  rw [Except.bind_eq_ok]
  constructor
  · rintro ⟨w, hw, hbs⟩
    obtain ⟨hv, hlimit, hbytes⟩ := (writes_encodeValue 0 v _ _).mp hw
    have hwithin := w.within
    rw [hbytes, hlimit] at hwithin
    refine ⟨hv, hwithin, ?_⟩
    rw [← Except.ok.inj hbs, hbytes]
    rfl
  · rintro ⟨hv, hlen, rfl⟩
    exact ⟨⟨resolved.maxByteLength.val, encoding v, hlen⟩,
      (writes_encodeValue 0 v _ _).mpr ⟨hv, rfl, rfl⟩, rfl⟩

end PiMono.Protocol
