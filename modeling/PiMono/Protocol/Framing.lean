import PiMono.Lib.ByteReader
import PiMono.Protocol.CborOptions

/-!
# Frames

`packages/protocol/src/framing.ts`: a payload is prefixed with its length, and the
decoder splits chunks of any size into payloads again. It keeps a header that is partly
filled, or a payload that is partly filled, block by block.

Every stream is complete frames and then a rest that has no complete frame in front
(`Stuck`), in one way only (`Splits.unique`). `FrameDecoder.Holds` says that an open
decoder holds just that rest; a chunk keeps it so, or ends in a length over the limit
(`push_spec`). So what is decoded depends on the stream and not on its chunks.
-/

namespace PiMono.Protocol

def FRAME_HEADER_LENGTH : Nat := 4

def PAYLOAD_BLOCK_SIZE : Nat := 64 * 1024

def DEFAULT_MAX_FRAME_LENGTH : Nat := 16 * 1024 * 1024

/-- What framing throws. -/
inductive FrameFailure where
  /-- `FrameError` -/
  | frameError (message : String)
  | rangeError (message : String)
  deriving DecidableEq, Repr

/-- `resolveMaxFrameLength` -/
def resolveMaxFrameLength (maxFrameLength : Option Float64) :
    Except FrameFailure (Limit MAX_UINT32) :=
  match resolveLimit "maxFrameLength" maxFrameLength MAX_UINT32
      ⟨DEFAULT_MAX_FRAME_LENGTH, by decide⟩ with
  | .ok limit => .ok limit
  | .error (.cborError message) | .error (.rangeError message) => .error (.rangeError message)

/-- The length of a payload, and the payload. -/
def frameBytes (payload : List UInt8) : List UInt8 :=
  bigEndian FRAME_HEADER_LENGTH payload.length ++ payload

/-- `encodeFrame` -/
def encodeFrame (payload : List UInt8) : Except FrameFailure (List UInt8) :=
  if MAX_UINT32 < payload.length then
    .error (.rangeError "Frame payload exceeds the unsigned 32-bit length limit")
  else .ok (frameBytes payload)

/-- The error of a length over the limit. -/
def frameTooLong (length : Nat) (limit : Limit MAX_UINT32) : FrameFailure :=
  .frameError ("Frame length " ++ toString length ++ " exceeds configured limit of "
    ++ toString limit.val)

/-- `assertCompleteFrame` -/
def assertCompleteFrame (frame : List UInt8) (maxFrameLength : Option Float64) :
    Except FrameFailure Unit := do
  if frame.length < FRAME_HEADER_LENGTH then
    throw (.frameError "Frame does not contain a complete length prefix")
  let length := ofBigEndian (frame.take FRAME_HEADER_LENGTH)
  let limit ← resolveMaxFrameLength maxFrameLength
  if limit.val < length then throw (frameTooLong length limit)
  if frame.length ≠ FRAME_HEADER_LENGTH + length then
    throw (.frameError "Frame must contain exactly one complete payload")

/-! ## The decoder -/

/-- `DecoderState` -/
inductive DecoderState where
  | «open»
  | ended
  | failed
  deriving DecidableEq, Repr

/-- A block of a payload: its size, and the bytes that have been set in it. -/
structure PayloadBlock where
  byteLength : Nat
  bytes : List UInt8
  fits : bytes.length ≤ byteLength

/-- `new Uint8Array(byteLength)` -/
def PayloadBlock.new (byteLength : Nat) : PayloadBlock := ⟨byteLength, [], Nat.zero_le _⟩

/-- What the array of a block has in it. -/
def PayloadBlock.content (b : PayloadBlock) : List UInt8 :=
  b.bytes ++ List.replicate (b.byteLength - b.bytes.length) 0

/-- `FrameDecoder`. `header` is the part of the header that is filled. The block that is
filled is the last of `payloadBlocks`. -/
structure FrameDecoder where
  maxFrameLength : Limit MAX_UINT32
  header : List UInt8
  payloadBlocks : List PayloadBlock
  expectedPayloadLength : Option Nat
  payloadLength : Nat
  state : DecoderState

namespace FrameDecoder

/-- A decoder with the limit. -/
def new (limit : Limit MAX_UINT32) : FrameDecoder := ⟨limit, [], [], none, 0, .open⟩

/-- The constructor. -/
def create (maxFrameLength : Option Float64) : Except FrameFailure FrameDecoder := do
  return new (← resolveMaxFrameLength maxFrameLength)

/-- What `fail` leaves. -/
def fail (d : FrameDecoder) : FrameDecoder := ⟨d.maxFrameLength, [], [], none, 0, .failed⟩

/-- The block to fill next, behind the full ones: the last one, or a new one if there is
none or it is full. -/
def nextBlock (remaining : Nat) (blocks : List PayloadBlock) : List PayloadBlock × PayloadBlock :=
  match blocks.getLast? with
  | some block =>
    if block.bytes.length = block.byteLength then
      (blocks, .new (min PAYLOAD_BLOCK_SIZE remaining))
    else (blocks.dropLast, block)
  | none => (blocks, .new (min PAYLOAD_BLOCK_SIZE remaining))

/-- `block.set(...)` of as many bytes of the chunk as the block takes. -/
def fill (b : PayloadBlock) (chunk : List UInt8) : PayloadBlock where
  byteLength := b.byteLength
  bytes := b.bytes ++ chunk.take (b.byteLength - b.bytes.length)
  fits := by
    have := b.fits
    rw [List.length_append, List.length_take]
    omega

/-- The inner loop of `push`: blocks are filled until the payload is complete or the chunk
is used up. It returns what is left of the chunk, too. Every pass uses up a byte, so the
fuel is the length of the chunk. -/
def fillPayload (expected : Nat) :
    Nat → List PayloadBlock → Nat → List UInt8 → List PayloadBlock × Nat × List UInt8
  | 0, blocks, payloadLength, chunk => (blocks, payloadLength, chunk)
  | fuel + 1, blocks, payloadLength, chunk =>
    if chunk ≠ [] ∧ payloadLength < expected then
      let (full, block) := nextBlock (expected - payloadLength) blocks
      let payloadBytes := min (block.byteLength - block.bytes.length) chunk.length
      fillPayload expected fuel (full ++ [fill block chunk]) (payloadLength + payloadBytes)
        (chunk.drop payloadBytes)
    else (blocks, payloadLength, chunk)

/-- The part of a pass of `push` that is about a payload: fill it, and take it out once it
is complete. A single block is handed out as it is, several are copied into one array. -/
def pushPayload (d : FrameDecoder) (expected : Nat) (chunk : List UInt8) :
    FrameDecoder × List (List UInt8) × List UInt8 :=
  let (blocks, payloadLength, rest) :=
    fillPayload expected chunk.length d.payloadBlocks d.payloadLength chunk
  if payloadLength = expected then
    ({ d with payloadBlocks := [], expectedPayloadLength := none, payloadLength := 0 },
      [blocks.flatMap PayloadBlock.content], rest)
  else ({ d with payloadBlocks := blocks, payloadLength := payloadLength }, [], rest)

/-- The loop of `push` over what is left of the chunk. Every pass uses up a byte here, too. -/
def pushLoop : Nat → FrameDecoder → List (List UInt8) → List UInt8 →
    Except FrameFailure (FrameDecoder × List (List UInt8))
  | 0, d, frames, _ => .ok (d, frames)
  | fuel + 1, d, frames, chunk =>
    if chunk = [] then .ok (d, frames)
    else
      match d.expectedPayloadLength with
      | some expected =>
        let (d, done, rest) := d.pushPayload expected chunk
        pushLoop fuel d (frames ++ done) rest
      | none =>
        let headerBytes := min (FRAME_HEADER_LENGTH - d.header.length) chunk.length
        let header := d.header ++ chunk.take headerBytes
        let rest := chunk.drop headerBytes
        if header.length < FRAME_HEADER_LENGTH then pushLoop fuel
          { d with header := header } frames rest
        else
          let frameLength := ofBigEndian header
          let d := { d with header := [] }
          if d.maxFrameLength.val < frameLength then .error
            (frameTooLong frameLength d.maxFrameLength)
          else if frameLength = 0 then pushLoop fuel d (frames ++ [[]]) rest
          else
            let (d, done, rest) := pushPayload { d with
              expectedPayloadLength := some frameLength
              payloadBlocks := []
              payloadLength := 0 } frameLength rest
            pushLoop fuel d (frames ++ done) rest

/-- What a call throws once the decoder is not open. -/
def closed? (d : FrameDecoder) : Option FrameFailure :=
  match d.state with
  | .open => none
  | .ended => some (.frameError "Frame decoder has ended")
  | .failed => some (.frameError "Frame decoder has failed")

/-- `push` -/
def push (d : FrameDecoder) (chunk : List UInt8) :
    Except FrameFailure (List (List UInt8)) × FrameDecoder :=
  match d.closed? with
  | some error => (.error error, d)
  | none =>
    match pushLoop chunk.length d [] chunk with
    | .ok (d, frames) => (.ok frames, d)
    | .error error => (.error error, d.fail)

/-- `end` -/
def «end» (d : FrameDecoder) : Except FrameFailure Unit × FrameDecoder :=
  match d.closed? with
  | some error => (.error error, d)
  | none =>
    if d.header ≠ [] ∨ d.expectedPayloadLength ≠ none then
      (.error (.frameError "Truncated frame at end of stream"), d.fail)
    else (.ok (), { d with state := .ended })

end FrameDecoder

/-- A call of a decoder. -/
inductive FrameCall where
  | push (chunk : List UInt8)
  | «end»

namespace FrameDecoder

/-- What a call returns, and the decoder it leaves. `end` returns no frames. -/
def call (d : FrameDecoder) : FrameCall → Except FrameFailure (List (List UInt8)) × FrameDecoder
  | .push chunk => d.push chunk
  | .end => (d.end.1.map fun _ => [], d.end.2)

/-- Calls one after the other: what each returns, and the decoder they leave. -/
def run (d : FrameDecoder) :
    List FrameCall → List (Except FrameFailure (List (List UInt8))) × FrameDecoder
  | [] => ([], d)
  | c :: calls => ((d.call c).1 :: (run (d.call c).2 calls).1, (run (d.call c).2 calls).2)

end FrameDecoder

/-! ## Streams of frames -/

/-- The encodings of payloads, one behind the other. -/
def frames (payloads : List (List UInt8)) : List UInt8 := payloads.flatMap frameBytes

/-- The length a stream begins with. -/
def announced (stream : List UInt8) : Nat := ofBigEndian (stream.take FRAME_HEADER_LENGTH)

/-- The stream begins with a length over the limit. -/
def Oversized (limit : Nat) (stream : List UInt8) : Prop :=
  FRAME_HEADER_LENGTH ≤ stream.length ∧ limit < announced stream

/-- The stream does not begin with a complete frame. -/
def Incomplete (stream : List UInt8) : Prop :=
  stream.length < FRAME_HEADER_LENGTH ∨ stream.length < FRAME_HEADER_LENGTH + announced stream

/-- The stream is the frames of these payloads, none over the limit, and then a rest. -/
def Splits (limit : Nat) (stream : List UInt8) (payloads : List (List UInt8))
    (rest : List UInt8) : Prop :=
  stream = frames payloads ++ rest ∧ ∀ payload ∈ payloads, payload.length ≤ limit

theorem length_frameBytes (payload : List UInt8) :
    (frameBytes payload).length = FRAME_HEADER_LENGTH + payload.length := by
  simp [frameBytes]

theorem announced_header {n : Nat} (h : n ≤ MAX_UINT32) (rest : List UInt8) :
    announced (bigEndian FRAME_HEADER_LENGTH n ++ rest) = n := by
  rw [announced, List.take_left' (length_bigEndian ..)]
  refine ofBigEndian_bigEndian ?_
  have hmax : MAX_UINT32 < 256 ^ FRAME_HEADER_LENGTH := by decide
  exact Nat.lt_of_le_of_lt h hmax

theorem announced_frameBytes {payload : List UInt8} (h : payload.length ≤ MAX_UINT32)
    (rest : List UInt8) : announced (frameBytes payload ++ rest) = payload.length := by
  rw [frameBytes, List.append_assoc, announced_header h]

/-- Behind a complete frame there is nothing to stop at. -/
theorem not_stuck {limit : Limit MAX_UINT32} {payload rest : List UInt8}
    (h : payload.length ≤ limit.val)
    (hstuck : Incomplete (frameBytes payload ++ rest) ∨
      Oversized limit.val (frameBytes payload ++ rest)) : False := by
  have hann := announced_frameBytes (Nat.le_trans h limit.property) rest
  have hlen := length_frameBytes payload
  rcases hstuck with (hshort | hshort) | ⟨-, hover⟩
  · rw [List.length_append] at hshort
    omega
  · rw [hann, List.length_append] at hshort
    omega
  · rw [hann] at hover
    omega

/-- A stream is complete frames and a rest in one way only. -/
theorem Splits.unique {limit : Limit MAX_UINT32} {stream : List UInt8} :
    ∀ {ps qs : List (List UInt8)} {rest rest' : List UInt8},
      Splits limit.val stream ps rest → Incomplete rest ∨ Oversized limit.val rest →
      Splits limit.val stream qs rest' → Incomplete rest' ∨ Oversized limit.val rest' →
      ps = qs ∧ rest = rest' := by
  intro ps
  induction ps generalizing stream with
  | nil =>
    intro qs rest rest' hp hrest hq hrest'
    obtain rfl : stream = rest := hp.1
    cases qs with
    | nil => exact ⟨rfl, hq.1⟩
    | cons q qs =>
      have hstream : stream = frameBytes q ++ (frames qs ++ rest') := by
        rw [hq.1, frames, List.flatMap_cons, List.append_assoc, frames]
      rw [hstream] at hrest
      exact (not_stuck (hq.2 q List.mem_cons_self) hrest).elim
  | cons p ps ih =>
    intro qs rest rest' hp hrest hq hrest'
    have hpstream : stream = frameBytes p ++ (frames ps ++ rest) := by
      rw [hp.1, frames, List.flatMap_cons, List.append_assoc, frames]
    have hple := hp.2 p List.mem_cons_self
    cases qs with
    | nil =>
      obtain rfl : stream = rest' := hq.1
      rw [hpstream] at hrest'
      exact (not_stuck hple hrest').elim
    | cons q qs =>
      have hqstream : stream = frameBytes q ++ (frames qs ++ rest') := by
        rw [hq.1, frames, List.flatMap_cons, List.append_assoc, frames]
      have hqle := hq.2 q List.mem_cons_self
      -- both frames begin with their length
      have hlen : p.length = q.length := by
        rw [← announced_frameBytes (Nat.le_trans hple limit.property) (frames ps ++ rest),
          ← hpstream, hqstream, announced_frameBytes (Nat.le_trans hqle limit.property)]
      obtain ⟨hframe, htail⟩ := List.append_inj (hpstream.symm.trans hqstream)
        (by rw [length_frameBytes, length_frameBytes, hlen])
      have hpq : p = q := (List.append_inj hframe (by simp)).2
      obtain ⟨hps, hr⟩ := @ih (frames ps ++ rest) qs rest rest'
        ⟨rfl, fun payload hmem => hp.2 payload (List.mem_cons_of_mem _ hmem)⟩ hrest
        ⟨htail, fun payload hmem => hq.2 payload (List.mem_cons_of_mem _ hmem)⟩ hrest'
      exact ⟨by rw [hpq, hps], hr⟩

theorem Splits.append {limit : Nat} {stream chunk rest rest' : List UInt8}
    {ps qs : List (List UInt8)} (hp : Splits limit stream ps rest)
    (hq : Splits limit (rest ++ chunk) qs rest') : Splits limit (stream ++ chunk)
    (ps ++ qs) rest' := by
  refine ⟨?_, ?_⟩
  · rw [hp.1, List.append_assoc, hq.1, frames, frames, frames, List.flatMap_append,
      List.append_assoc]
  · intro payload hmem
    rcases List.mem_append.mp hmem with hmem | hmem
    · exact hp.2 payload hmem
    · exact hq.2 payload hmem

/-! ## What a decoder holds -/

/-- The blocks hold this part of a payload: all but the last are full, and no more is
allocated than the payload needs. -/
structure Filled (expected : Nat) (blocks : List PayloadBlock) (payload : List UInt8) : Prop where
  bytes : blocks.flatMap PayloadBlock.bytes = payload
  full : ∀ block ∈ blocks.dropLast, block.bytes.length = block.byteLength
  allocated : (blocks.map PayloadBlock.byteLength).sum ≤ expected

/-- The part of a frame that an open decoder holds. -/
inductive Pending (d : FrameDecoder) : List UInt8 → Prop
  | header : d.expectedPayloadLength = none → d.header.length < FRAME_HEADER_LENGTH →
      d.payloadBlocks = [] → Pending d d.header
  | payload {expected : Nat} {payload : List UInt8} : d.expectedPayloadLength = some expected →
      d.header = [] → expected ≤ d.maxFrameLength.val → payload.length < expected →
      d.payloadLength = payload.length → Filled expected d.payloadBlocks payload →
      Pending d (bigEndian FRAME_HEADER_LENGTH expected ++ payload)

/-- Between two frames a decoder holds nothing. -/
theorem pending_nil {d : FrameDecoder} (hexpected : d.expectedPayloadLength = none)
    (hheader : d.header = []) (hblocks : d.payloadBlocks = []) : Pending d [] := by
  rw [← hheader]
  refine .header hexpected ?_ hblocks
  rw [hheader]
  decide

theorem Pending.incomplete {d : FrameDecoder} {rest : List UInt8} (h : Pending d rest) :
    Incomplete rest := by
  cases h with
  | header _ hlt _ => exact Or.inl hlt
  | payload _ _ hle hlt _ _ =>
    refine Or.inr ?_
    rw [announced_header (Nat.le_trans hle d.maxFrameLength.property), List.length_append,
      length_bigEndian]
    omega

/-! ### Blocks -/

theorem filled_nil (expected : Nat) : Filled expected [] [] :=
  ⟨rfl, by simp, Nat.zero_le _⟩

theorem sum_bytes_le : ∀ blocks : List PayloadBlock,
    (blocks.flatMap PayloadBlock.bytes).length ≤ (blocks.map PayloadBlock.byteLength).sum
  | [] => Nat.zero_le _
  | b :: blocks => by
    have := b.fits
    have := sum_bytes_le blocks
    rw [List.flatMap_cons, List.length_append, List.map_cons, List.sum_cons]
    omega

/-- Blocks that are full have nothing in them but the bytes set. -/
theorem flatMap_content : ∀ {blocks : List PayloadBlock},
    (blocks.map PayloadBlock.byteLength).sum ≤ (blocks.flatMap PayloadBlock.bytes).length →
      blocks.flatMap PayloadBlock.content = blocks.flatMap PayloadBlock.bytes
  | [], _ => rfl
  | b :: blocks, h => by
    rw [List.flatMap_cons, List.length_append, List.map_cons, List.sum_cons] at h
    have hfits := b.fits
    have hsum := sum_bytes_le blocks
    have hzero : b.byteLength - b.bytes.length = 0 := by omega
    rw [List.flatMap_cons, List.flatMap_cons, PayloadBlock.content, hzero, List.replicate_zero,
      List.append_nil, flatMap_content (by omega)]

/-- The block to fill next has room, and it stands behind full ones. -/
theorem nextBlock_spec {expected : Nat} {blocks : List PayloadBlock} {payload : List UInt8}
    (h : Filled expected blocks payload) (hlt : payload.length < expected) :
    ∀ full block, FrameDecoder.nextBlock (expected - payload.length) blocks = (full, block) →
      (full ++ [block]).flatMap PayloadBlock.bytes = payload ∧
      (∀ b ∈ full, b.bytes.length = b.byteLength) ∧
      ((full ++ [block]).map PayloadBlock.byteLength).sum ≤ expected ∧
      block.bytes.length < block.byteLength := by
  intro full block hnext
  have hroom : 0 < min PAYLOAD_BLOCK_SIZE (expected - payload.length) :=
    Nat.lt_min.mpr ⟨by decide, by omega⟩
  have hnew : ∀ {bs : List PayloadBlock}, bs = blocks →
      (∀ b ∈ bs, b.bytes.length = b.byteLength) →
      (bs.map PayloadBlock.byteLength).sum = payload.length := by
    rintro bs rfl hfull
    rw [← h.bytes]
    clear h hlt hnext hroom
    induction bs with
    | nil => rfl
    | cons b bs ih =>
      rw [List.map_cons, List.sum_cons, List.flatMap_cons, List.length_append,
        ih fun b' hb' => hfull b' (List.mem_cons_of_mem _ hb'), hfull b List.mem_cons_self]
  unfold FrameDecoder.nextBlock at hnext
  cases hlast : blocks.getLast? with
  | none =>
    obtain rfl := List.getLast?_eq_none_iff.mp hlast
    obtain ⟨rfl, rfl⟩ := Prod.mk.inj hnext
    have hsum := hnew rfl (by simp)
    refine ⟨by rw [← h.bytes]; rfl, by simp, ?_, hroom⟩
    show min _ _ + 0 ≤ expected
    omega
  | some last =>
    obtain ⟨front, rfl⟩ := List.getLast?_eq_some_iff.mp hlast
    have hfront : ∀ b ∈ front, b.bytes.length = b.byteLength := by
      simpa using h.full
    rw [hlast] at hnext
    dsimp only at hnext
    split at hnext
    · rename_i hfull
      obtain ⟨rfl, rfl⟩ := Prod.mk.inj hnext
      have hall : ∀ b ∈ front ++ [last], b.bytes.length = b.byteLength := by
        intro b hb
        rcases List.mem_append.mp hb with hb | hb
        · exact hfront b hb
        · rw [List.mem_singleton.mp hb, hfull]
      have hsum := hnew rfl hall
      refine ⟨?_, hall, ?_, hroom⟩
      · rw [List.flatMap_append, h.bytes]
        exact List.append_nil _
      · rw [List.map_append, List.sum_append, hsum]
        show payload.length + (min _ _ + 0) ≤ expected
        omega
    · rename_i hnot
      rw [List.dropLast_concat] at hnext
      obtain ⟨rfl, rfl⟩ := Prod.mk.inj hnext
      refine ⟨h.bytes, hfront, h.allocated, ?_⟩
      have := last.fits
      omega

/-- Filling takes as many bytes as the payload lacks, or as there are. -/
theorem fillPayload_spec {expected : Nat} : ∀ {fuel : Nat} {blocks : List PayloadBlock}
    {payload chunk : List UInt8}, chunk.length ≤ fuel → payload.length ≤ expected →
      Filled expected blocks payload →
      ∃ blocks', FrameDecoder.fillPayload expected fuel blocks payload.length chunk
          = (blocks', (payload ++ chunk.take (expected - payload.length)).length,
            chunk.drop (expected - payload.length)) ∧
        Filled expected blocks' (payload ++ chunk.take (expected - payload.length)) := by
  intro fuel
  induction fuel with
  | zero =>
    intro blocks payload chunk hfuel _ hfilled
    obtain rfl := List.length_eq_zero_iff.mp (Nat.le_zero.mp hfuel)
    exact ⟨blocks, by simp [FrameDecoder.fillPayload], by simpa using hfilled⟩
  | succ fuel ih =>
    intro blocks payload chunk hfuel hle hfilled
    rw [FrameDecoder.fillPayload]
    by_cases hgo : chunk ≠ [] ∧ payload.length < expected
    · rw [if_pos hgo]
      obtain ⟨hne, hlt⟩ := hgo
      have hpos := List.length_pos_iff.mpr hne
      cases hnext : FrameDecoder.nextBlock (expected - payload.length) blocks with
      | mk full block =>
        obtain ⟨hbytes, hfull, hsum, hroom⟩ := nextBlock_spec hfilled hlt full block hnext
        -- what the block takes is the front of what the payload lacks
        obtain ⟨room, hroomeq⟩ : ∃ room, room = block.byteLength - block.bytes.length := ⟨_, rfl⟩
        have hflat : (full ++ [block]).flatMap PayloadBlock.bytes
            = full.flatMap PayloadBlock.bytes ++ block.bytes := by simp
        rw [hflat] at hbytes
        have hallocated : room ≤ expected - payload.length := by
          have hsumfull := sum_bytes_le full
          rw [List.map_append, List.sum_append] at hsum
          have hsum' : (full.map PayloadBlock.byteLength).sum + block.byteLength ≤ expected := by
            simpa using hsum
          rw [← hbytes, List.length_append]
          omega
        have hfilled' : Filled expected (full ++ [FrameDecoder.fill block chunk])
            (payload ++ chunk.take room) := by
          refine ⟨?_, ?_, ?_⟩
          · rw [List.flatMap_append, ← hbytes, List.append_assoc, hroomeq]
            simp [FrameDecoder.fill]
          · rw [List.dropLast_concat]
            exact hfull
          · rw [List.map_append, List.sum_append] at hsum ⊢
            exact hsum
        have hlen : payload.length + min room chunk.length =
          (payload ++ chunk.take room).length := by
          rw [List.length_append, List.length_take]
        obtain ⟨blocks', hrun, hdone⟩ := @ih _ (payload ++ chunk.take room)
          (chunk.drop (min room chunk.length)) (by rw [List.length_drop]; omega)
          (by rw [← hlen]; omega) hfilled'
        have hdrop : chunk.drop (min room chunk.length) = chunk.drop room := by
          rcases Nat.le_total room chunk.length with hmin | hmin
          · rw [Nat.min_eq_left hmin]
          · rw [Nat.min_eq_right hmin, List.drop_of_length_le (Nat.le_refl _),
              List.drop_of_length_le hmin]
        have hlack : expected - (payload ++ chunk.take room).length
            = expected - payload.length - min room chunk.length := by
          rw [← hlen]
          omega
        have htake : chunk.take room ++ (chunk.drop room).take
            (expected - payload.length - min room chunk.length)
              = chunk.take (expected - payload.length) := by
          rcases Nat.le_total room chunk.length with hmin | hmin
          · rw [Nat.min_eq_left hmin, ← List.take_add]
            congr 1
            omega
          · rw [List.drop_of_length_le hmin, List.take_nil, List.append_nil,
              List.take_of_length_le hmin, List.take_of_length_le (by omega)]
        have hrest : (chunk.drop room).drop (expected - payload.length - min room chunk.length)
            = chunk.drop (expected - payload.length) := by
          rcases Nat.le_total room chunk.length with hmin | hmin
          · rw [Nat.min_eq_left hmin, List.drop_drop]
            congr 1
            omega
          · rw [List.drop_of_length_le hmin, List.drop_nil,
              List.drop_of_length_le (by omega)]
        rw [hlack, hdrop, List.append_assoc, htake, hrest] at hrun
        rw [hlack, hdrop, List.append_assoc, htake] at hdone
        refine ⟨blocks', ?_, hdone⟩
        show FrameDecoder.fillPayload expected fuel (full ++ [FrameDecoder.fill block chunk])
          (payload.length + min (block.byteLength - block.bytes.length) chunk.length)
          (chunk.drop (min (block.byteLength - block.bytes.length) chunk.length)) = _
        rw [← hroomeq, hlen, hdrop]
        exact hrun
    · rw [if_neg hgo]
      have hnone : chunk = [] ∨ expected - payload.length = 0 := by
        by_cases hchunk : chunk = []
        · exact Or.inl hchunk
        · exact Or.inr (by
            have : ¬ payload.length < expected := fun hlt => hgo ⟨hchunk, hlt⟩
            omega)
      refine ⟨blocks, ?_, ?_⟩
      · rcases hnone with rfl | hzero
        · simp
        · simp [hzero]
      · rcases hnone with rfl | hzero
        · simpa using hfilled
        · simpa [hzero] using hfilled

/-! ### A chunk -/

/-- A payload takes what it lacks of a chunk, and is taken out once it is complete. -/
theorem pushPayload_spec {d : FrameDecoder} {expected : Nat} {payload : List UInt8}
    (hexpected : d.expectedPayloadLength = some expected) (hheader : d.header = [])
    (hle : expected ≤ d.maxFrameLength.val) (hlt : payload.length < expected)
    (hlength : d.payloadLength = payload.length) (hfilled : Filled expected d.payloadBlocks payload)
    (chunk : List UInt8) :
    ∃ d' ps rest, d.pushPayload expected chunk = (d', ps, chunk.drop (expected - payload.length)) ∧
      Splits d.maxFrameLength.val (bigEndian FRAME_HEADER_LENGTH expected ++ payload
        ++ chunk.take (expected - payload.length)) ps rest ∧
      Pending d' rest ∧ d'.maxFrameLength = d.maxFrameLength ∧ d'.state = d.state := by
  obtain ⟨blocks, hrun, hdone⟩ :=
    fillPayload_spec (Nat.le_refl chunk.length) (Nat.le_of_lt hlt) hfilled
  unfold FrameDecoder.pushPayload
  rw [hlength, hrun]
  obtain ⟨all, hall⟩ : ∃ all, all = payload ++ chunk.take (expected - payload.length) := ⟨_, rfl⟩
  rw [← hall] at hdone ⊢
  rw [List.append_assoc, ← hall]
  by_cases hcomplete : all.length = expected
  · refine ⟨_, [blocks.flatMap PayloadBlock.content], [], if_pos hcomplete, ?_,
      pending_nil rfl hheader rfl, rfl, rfl⟩
    · have hcontent : blocks.flatMap PayloadBlock.content = all := by
        rw [flatMap_content, hdone.bytes]
        rw [hdone.bytes, hcomplete]
        exact hdone.allocated
      rw [hcontent]
      refine ⟨?_, ?_⟩
      · rw [frames, List.flatMap_singleton, List.append_nil, frameBytes, hcomplete]
      · intro p hp
        rw [List.mem_singleton.mp hp, hcomplete]
        exact hle
  · have hshort : all.length < expected := by
      rw [hall, List.length_append, List.length_take] at hcomplete ⊢
      omega
    exact ⟨_, [], _, if_neg hcomplete, ⟨rfl, by simp⟩,
      .payload hexpected hheader hle hshort rfl hdone, rfl, rfl⟩

/-- What a chunk makes of a decoder that holds `rest`: it holds the new rest, and has
returned the payloads before it, or the rest begins with a length over the limit. -/
def Pushed (d : FrameDecoder) (rest chunk : List UInt8) (before : List (List UInt8))
    (outcome : Except FrameFailure (FrameDecoder × List (List UInt8))) : Prop :=
  ∃ ps rest', Splits d.maxFrameLength.val (rest ++ chunk) ps rest' ∧
    ((∃ d', outcome = .ok (d', before ++ ps) ∧ Pending d' rest' ∧
        d'.maxFrameLength = d.maxFrameLength ∧ d'.state = d.state) ∨
      (∃ error, outcome = .error error) ∧ Oversized d.maxFrameLength.val rest')

/-- A pass and the passes behind it. -/
theorem Pushed.pass {d d' : FrameDecoder} {rest chunk rest₁ used chunk₁ : List UInt8}
    {before before₁ ps : List (List UInt8)}
    {outcome : Except FrameFailure (FrameDecoder × List (List UInt8))}
    (hchunk : chunk = used ++ chunk₁) (hbefore : before₁ = before ++ ps)
    (hsplit : Splits d.maxFrameLength.val (rest ++ used) ps rest₁)
    (hmax : d'.maxFrameLength = d.maxFrameLength) (hstate : d'.state = d.state)
    (h : Pushed d' rest₁ chunk₁ before₁ outcome) : Pushed d rest chunk before outcome := by
  subst hbefore
  obtain ⟨qs, rest', hqs, hout⟩ := h
  rw [hmax] at hqs hout
  refine ⟨ps ++ qs, rest', ?_, ?_⟩
  · rw [hchunk, ← List.append_assoc]
    exact hsplit.append hqs
  · rw [hstate] at hout
    rwa [← List.append_assoc]

/-- The step: one pass of the loop after the other. -/
theorem pushLoop_spec : ∀ {fuel : Nat} {d : FrameDecoder} {before : List (List UInt8)}
    {rest chunk : List UInt8}, chunk.length ≤ fuel → Pending d rest →
      Pushed d rest chunk before (FrameDecoder.pushLoop fuel d before chunk) := by
  have hnone : ∀ {d : FrameDecoder} {before : List (List UInt8)} {rest : List UInt8},
      Pending d rest → Pushed d rest [] before (.ok (d, before)) := by
    intro d before rest h
    refine ⟨[], rest, ⟨by simp [frames], by simp⟩, Or.inl ⟨d, by simp, h, rfl, rfl⟩⟩
  intro fuel
  induction fuel with
  | zero =>
    intro d before rest chunk hfuel h
    obtain rfl := List.length_eq_zero_iff.mp (Nat.le_zero.mp hfuel)
    exact hnone h
  | succ fuel ih =>
    intro d before rest chunk hfuel h
    rw [FrameDecoder.pushLoop]
    by_cases hchunk : chunk = []
    · rw [if_pos hchunk, hchunk]
      exact hnone h
    · rw [if_neg hchunk]
      have hpos := List.length_pos_iff.mpr hchunk
      cases h with
      | @payload expected payload hexpected hheader hle hlt hlength hfilled =>
        obtain ⟨d', ps, rest₁, hrun, hsplit, hpending, hmax, hstate⟩ :=
          pushPayload_spec hexpected hheader hle hlt hlength hfilled chunk
        rw [hexpected]
        dsimp only
        rw [hrun]
        refine Pushed.pass (List.take_append_drop _ chunk).symm rfl hsplit hmax hstate
          (ih ?_ hpending)
        rw [List.length_drop]
        omega
      | header hexpected hlt hblocks =>
        rw [hexpected]
        dsimp only
        obtain ⟨k, hk⟩ : ∃ k, k = min (FRAME_HEADER_LENGTH - d.header.length)
          chunk.length := ⟨_, rfl⟩
        rw [← hk]
        have hused : (d.header ++ chunk.take k).length = d.header.length + k := by
          rw [List.length_append, List.length_take]
          omega
        have hrest : (chunk.drop k).length ≤ fuel := by
          rw [List.length_drop]
          omega
        by_cases hshort : (d.header ++ chunk.take k).length < FRAME_HEADER_LENGTH
        · rw [if_pos hshort]
          have hpending : Pending { d with
              header := d.header ++ chunk.take k, expectedPayloadLength := none }
              (d.header ++ chunk.take k) := .header rfl hshort hblocks
          have hnothing : Splits d.maxFrameLength.val (d.header ++ chunk.take k) []
              (d.header ++ chunk.take k) := ⟨rfl, by simp⟩
          refine Pushed.pass (List.take_append_drop k chunk).symm (List.append_nil _).symm hnothing
            ?_ ?_ (ih hrest hpending)
          · exact rfl
          · exact rfl
        · rw [if_neg hshort]
          -- the header is complete
          have hfull : (d.header ++ chunk.take k).length = FRAME_HEADER_LENGTH := by omega
          obtain ⟨n, hn⟩ : ∃ n, n = ofBigEndian (d.header ++ chunk.take k) := ⟨_, rfl⟩
          have hspelled : d.header ++ chunk.take k = bigEndian FRAME_HEADER_LENGTH n := by
            rw [hn, ← hfull, bigEndian_ofBigEndian]
          rw [← hn]
          by_cases hover : d.maxFrameLength.val < n
          · rw [if_pos hover]
            refine ⟨[], d.header ++ chunk, ⟨rfl, by simp⟩, Or.inr ⟨⟨_, rfl⟩, ?_, ?_⟩⟩
            · rw [List.length_append]
              omega
            · have htake : (d.header ++ chunk).take FRAME_HEADER_LENGTH = d.header ++
                chunk.take k := by
                rw [← List.take_append_drop k chunk, ← List.append_assoc,
                  List.take_left' hfull, List.take_append_drop]
              rw [announced, htake, ← hn]
              exact hover
          · rw [if_neg hover]
            by_cases hzero : n = 0
            · rw [if_pos hzero]
              have hempty : Splits d.maxFrameLength.val (d.header ++ chunk.take k) [[]] [] := by
                refine ⟨?_, ?_⟩
                · rw [hspelled, hzero]
                  rfl
                · intro p hp
                  rw [List.mem_singleton.mp hp]
                  exact Nat.zero_le _
              have hpending : Pending { d with header := [], expectedPayloadLength := none } [] :=
                pending_nil rfl rfl hblocks
              refine Pushed.pass (List.take_append_drop k chunk).symm rfl hempty ?_ ?_
                (ih hrest hpending)
              · exact rfl
              · exact rfl
            · rw [if_neg hzero]
              obtain ⟨d', ps, rest₁, hrun, hsplit, hpending, hmax, hstate⟩ :=
                @pushPayload_spec { d with
                  header := []
                  expectedPayloadLength := some n
                  payloadBlocks := []
                  payloadLength := 0 } n [] rfl rfl (by simpa using hover)
                    (Nat.pos_of_ne_zero hzero)
                  rfl (filled_nil n) (chunk.drop k)
              rw [hrun]
              dsimp only
              obtain ⟨j, hj⟩ : ∃ j, j = n - ([] : List UInt8).length := ⟨_, rfl⟩
              rw [← hj] at hsplit ⊢
              have hparts : chunk = chunk.take k ++ (chunk.drop k).take j ++
                (chunk.drop k).drop j := by
                rw [List.append_assoc, List.take_append_drop, List.take_append_drop]
              refine Pushed.pass hparts rfl ?_ hmax hstate (ih ?_ hpending)
              · rw [← List.append_assoc, hspelled]
                rwa [List.append_nil] at hsplit
              · rw [List.length_drop]
                omega

/-! ## Every call -/

/-- What holds between two calls: no more is allocated than the limit, and an open decoder
holds part of a frame. -/
structure Sound (d : FrameDecoder) : Prop where
  within : (d.payloadBlocks.map PayloadBlock.byteLength).sum ≤ d.maxFrameLength.val
  pending : d.state = .open → ∃ rest, Pending d rest

theorem Pending.within {d : FrameDecoder} {rest : List UInt8} (h : Pending d rest) :
    (d.payloadBlocks.map PayloadBlock.byteLength).sum ≤ d.maxFrameLength.val := by
  cases h with
  | header _ _ hblocks => simp [hblocks]
  | payload _ _ hle _ _ hfilled => exact Nat.le_trans hfilled.allocated hle

theorem Pending.sound {d : FrameDecoder} {rest : List UInt8} (h : Pending d rest) : Sound d :=
  ⟨h.within, fun _ => ⟨rest, h⟩⟩

theorem sound_fail (d : FrameDecoder) : Sound d.fail := ⟨Nat.zero_le _, fun h => by cases h⟩

theorem closed?_eq_none_iff {d : FrameDecoder} : d.closed? = none ↔ d.state = .open := by
  unfold FrameDecoder.closed?
  cases d.state <;> simp

/-- A push to an open decoder. -/
theorem push_spec {d : FrameDecoder} (hopen : d.state = .open) {rest : List UInt8}
    (h : Pending d rest) (chunk : List UInt8) :
    ∃ ps rest', Splits d.maxFrameLength.val (rest ++ chunk) ps rest' ∧
      ((∃ d', d.push chunk = (.ok ps, d') ∧ Pending d' rest' ∧
          d'.maxFrameLength = d.maxFrameLength ∧ d'.state = .open) ∨
        (∃ error, d.push chunk = (.error error, d.fail)) ∧
          Oversized d.maxFrameLength.val rest') := by
  obtain ⟨ps, rest', hsplit, hout⟩ := @pushLoop_spec _ _ [] _ _ (Nat.le_refl chunk.length) h
  refine ⟨ps, rest', hsplit, ?_⟩
  unfold FrameDecoder.push
  rw [closed?_eq_none_iff.mpr hopen]
  rcases hout with ⟨d', hrun, hpending, hmax, hstate⟩ | ⟨⟨error, hrun⟩, hover⟩
  · rw [hrun]
    exact Or.inl ⟨d', rfl, hpending, hmax, by rw [hstate, hopen]⟩
  · rw [hrun]
    exact Or.inr ⟨⟨error, rfl⟩, hover⟩

/-- `end` of an open decoder: it fails where part of a frame is held. -/
theorem end_spec {d : FrameDecoder} (hopen : d.state = .open) {rest : List UInt8}
    (h : Pending d rest) :
    rest = [] ∧ d.end = (.ok (), { d with state := .ended }) ∨
      rest ≠ [] ∧ ∃ error, d.end = (.error error, d.fail) := by
  unfold FrameDecoder.end
  rw [closed?_eq_none_iff.mpr hopen]
  cases h with
  | header hexpected _ _ =>
    by_cases hheader : d.header = []
    · exact Or.inl ⟨hheader, by simp [hheader, hexpected]⟩
    · exact Or.inr ⟨hheader, _, if_pos (Or.inl hheader)⟩
  | @payload expected payload hexpected _ _ _ _ _ =>
    refine Or.inr ⟨?_, _, if_pos (Or.inr (by simp [hexpected]))⟩
    intro hnil
    have hlen := congrArg List.length hnil
    rw [List.length_append, length_bigEndian, List.length_nil, FRAME_HEADER_LENGTH] at hlen
    omega

/-- A decoder that is not open fails every call, and stays as it is. -/
theorem call_closed {d : FrameDecoder} (h : d.state ≠ .open) (c : FrameCall) :
    ∃ error, d.call c = (.error error, d) := by
  obtain ⟨error, herror⟩ : ∃ error, d.closed? = some error := by
    cases hclosed : d.closed? with
    | none => exact absurd (closed?_eq_none_iff.mp hclosed) h
    | some error => exact ⟨error, rfl⟩
  refine ⟨error, ?_⟩
  cases c with
  | push chunk => simp [FrameDecoder.call, FrameDecoder.push, herror]
  | «end» => simp [FrameDecoder.call, FrameDecoder.end, herror, Except.map]

/-- The step: a call keeps a decoder sound, keeps its limit, and closes it if it fails. -/
theorem Sound.call {d : FrameDecoder} (h : Sound d) (c : FrameCall) :
    Sound (d.call c).2 ∧ (d.call c).2.maxFrameLength = d.maxFrameLength ∧
      ((∃ error, (d.call c).1 = .error error) → (d.call c).2.state ≠ .open) := by
  by_cases hopen : d.state = .open
  · obtain ⟨rest, hpending⟩ := h.pending hopen
    cases c with
    | push chunk =>
      obtain ⟨ps, rest', -, ⟨d', hrun, hpending', hmax, hstate⟩ | ⟨⟨error, hrun⟩, -⟩⟩ :=
        push_spec hopen hpending chunk
      · rw [FrameDecoder.call, hrun]
        refine ⟨hpending'.sound, hmax, ?_⟩
        rintro ⟨error, herror⟩
        cases herror
      · rw [FrameDecoder.call, hrun]
        exact ⟨sound_fail d, rfl, fun _ => by simp [FrameDecoder.fail]⟩
    | «end» =>
      rcases end_spec hopen hpending with ⟨-, hrun⟩ | ⟨-, error, hrun⟩
      · rw [FrameDecoder.call, hrun]
        exact ⟨⟨h.within, fun hstate => by cases hstate⟩, rfl, fun _ => by simp⟩
      · rw [FrameDecoder.call, hrun]
        exact ⟨sound_fail d, rfl, fun _ => by simp [FrameDecoder.fail]⟩
  · obtain ⟨error, hrun⟩ := call_closed hopen c
    rw [hrun]
    exact ⟨h, rfl, fun _ => hopen⟩

/-- The run: whatever calls were made. -/
theorem Sound.run {d : FrameDecoder} (h : Sound d) (calls : List FrameCall) :
    Sound (d.run calls).2 ∧ (d.run calls).2.maxFrameLength = d.maxFrameLength := by
  induction calls generalizing d with
  | nil => exact ⟨h, rfl⟩
  | cons c calls ih =>
    obtain ⟨hsound, hmax, -⟩ := h.call c
    obtain ⟨hrun, hmax'⟩ := ih hsound
    exact ⟨hrun, hmax'.trans hmax⟩

theorem run_closed {d : FrameDecoder} (h : d.state ≠ .open) (calls : List FrameCall) :
    (d.run calls).2 = d := by
  induction calls with
  | nil => rfl
  | cons c calls ih =>
    obtain ⟨error, hrun⟩ := call_closed h c
    rw [FrameDecoder.run, hrun]
    exact ih

theorem run_append (d : FrameDecoder) (calls calls' : List FrameCall) :
    (d.run (calls ++ calls')).2 = ((d.run calls).2.run calls').2 := by
  induction calls generalizing d with
  | nil => rfl
  | cons c calls ih => exact ih _

theorem pending_new (limit : Limit MAX_UINT32) : Pending (.new limit) [] :=
  pending_nil rfl rfl rfl

/-! ## Every stream -/

/-- What the pushes of a stream lead to: a decoder that holds the rest behind the payloads
it has returned, or one that has failed at a length over the limit. -/
def Decoded (limit : Limit MAX_UINT32) (stream : List UInt8)
    (outcome : List (Except FrameFailure (List (List UInt8))) × FrameDecoder) : Prop :=
  ∃ ps rest, Splits limit.val stream ps rest ∧
    ((∃ returned : List (List (List UInt8)), outcome.1 = returned.map .ok ∧ returned.flatten = ps ∧
        outcome.2.state = .open ∧ Pending outcome.2 rest) ∨
      outcome.2.state = .failed ∧ Oversized limit.val rest)

theorem Oversized.append {limit : Nat} {rest : List UInt8} (h : Oversized limit rest)
    (more : List UInt8) : Oversized limit (rest ++ more) := by
  refine ⟨?_, ?_⟩
  · rw [List.length_append]
    exact Nat.le_trans h.1 (Nat.le_add_right _ _)
  · rw [announced, List.take_append_of_le_length h.1]
    exact h.2

theorem decoded_run {limit : Limit MAX_UINT32} : ∀ {chunks : List (List UInt8)} {d : FrameDecoder}
    {rest : List UInt8}, d.state = .open → d.maxFrameLength = limit → Pending d rest →
      Decoded limit (rest ++ chunks.flatten) (d.run (chunks.map .push)) := by
  intro chunks
  induction chunks with
  | nil =>
    intro d rest hopen _ h
    exact ⟨[], rest, ⟨by simp [frames], by simp⟩, Or.inl ⟨[], rfl, rfl, hopen, h⟩⟩
  | cons chunk chunks ih =>
    intro d rest hopen hlimit h
    subst hlimit
    rw [List.flatten_cons, ← List.append_assoc]
    obtain ⟨ps, rest', hsplit, ⟨d', hrun, hpending, hmax, hstate⟩ | ⟨⟨error, hrun⟩, hover⟩⟩ :=
      push_spec hopen h chunk
    · have hcall : d.call (.push chunk) = (.ok ps, d') := hrun
      obtain ⟨qs, rest'', hsplit', hout⟩ := ih hstate hmax hpending
      refine ⟨ps ++ qs, rest'', hsplit.append hsplit', ?_⟩
      rw [List.map_cons, FrameDecoder.run, hcall]
      rcases hout with ⟨returned, hreturned, hqs, hrest⟩ | hfailed
      · refine Or.inl ⟨ps :: returned, ?_, ?_, hrest⟩
        · rw [List.map_cons, hreturned]
        · rw [List.flatten_cons, hqs]
      · exact Or.inr hfailed
    · have hcall : d.call (.push chunk) = (.error error, d.fail) := hrun
      refine ⟨ps, rest' ++ chunks.flatten, ⟨?_, hsplit.2⟩, Or.inr ⟨?_, hover.append _⟩⟩
      · rw [hsplit.1, List.append_assoc]
      · rw [List.map_cons, FrameDecoder.run, hcall]
        exact congrArg FrameDecoder.state (run_closed (by simp [FrameDecoder.fail]) _)

/-- The encodings of payloads within the limit. -/
theorem mapM_encodeFrame {limit : Limit MAX_UINT32} {payloads : List (List UInt8)}
    (h : ∀ payload ∈ payloads, payload.length ≤ limit.val) :
    payloads.mapM encodeFrame = .ok (payloads.map frameBytes) := by
  induction payloads with
  | nil => rfl
  | cons p payloads ih =>
    have hp : ¬ MAX_UINT32 < p.length := by
      have := h p List.mem_cons_self
      have := limit.property
      omega
    rw [List.mapM_cons, encodeFrame, if_neg hp, ih fun q hq => h q (List.mem_cons_of_mem _ hq)]
    rfl

namespace FrameDecoder

/-- However a stream is cut into chunks: the frames of payloads come out as these payloads,
`end` succeeds exactly behind complete frames, no more than the limit is ever allocated,
and after a call that fails every call fails. -/
theorem chunking_independent (limit : Limit MAX_UINT32) :
    (∀ payloads : List (List UInt8), (∀ payload ∈ payloads, payload.length ≤ limit.val) →
      ∃ encoded, payloads.mapM encodeFrame = .ok encoded ∧
        ∀ chunks : List (List UInt8), chunks.flatten = encoded.flatten →
          ∃ returned : List (List (List UInt8)), ((new limit).run (chunks.map .push)).1 =
            returned.map .ok ∧
            returned.flatten = payloads) ∧
    (∀ chunks : List (List UInt8), ((new limit).run (chunks.map .push)).2.end.1 = .ok () ↔
      ∃ payloads : List (List UInt8), (∀ payload ∈ payloads, payload.length ≤ limit.val) ∧
        chunks.flatten = payloads.flatMap frameBytes) ∧
    (∀ calls, (((new limit).run calls).2.payloadBlocks.map PayloadBlock.byteLength).sum
      ≤ limit.val) ∧
    ∀ calls c later c', (∃ error, (((new limit).run calls).2.call c).1 = .error error) →
      ∃ error, (((new limit).run (calls ++ c :: later)).2.call c').1 = .error error := by
  have hdecoded : ∀ chunks : List (List UInt8),
      Decoded limit chunks.flatten ((new limit).run (chunks.map .push)) :=
    fun chunks => decoded_run rfl rfl (pending_new limit)
  have hnil : Incomplete [] := Or.inl (by decide)
  refine ⟨fun payloads hle => ⟨_, mapM_encodeFrame hle, fun chunks hchunks => ?_⟩, fun chunks => ?_,
    fun calls => ?_, fun calls c later c' hfails => ?_⟩
  · have hsplit : Splits limit.val chunks.flatten payloads [] := by
      refine ⟨?_, hle⟩
      rw [hchunks, List.append_nil, frames, List.flatMap]
    obtain ⟨ps, rest, hps, ⟨returned, hreturned, hflat, -, hpending⟩ | ⟨-, hover⟩⟩ :=
      hdecoded chunks
    · obtain ⟨rfl, -⟩ := hps.unique (Or.inl hpending.incomplete) hsplit (Or.inl hnil)
      exact ⟨returned, hreturned, hflat⟩
    · obtain ⟨-, rfl⟩ := hps.unique (Or.inr hover) hsplit (Or.inl hnil)
      exact absurd hover.1 (by decide)
  · obtain ⟨ps, rest, hps, ⟨returned, -, -, hopen, hpending⟩ | ⟨hfailed, hover⟩⟩ := hdecoded chunks
    · constructor
      · intro hend
        rcases end_spec hopen hpending with ⟨rfl, -⟩ | ⟨-, error, herror⟩
        · exact ⟨ps, hps.2, by rw [hps.1, List.append_nil, frames]⟩
        · rw [herror] at hend
          cases hend
      · rintro ⟨payloads, hle, hstream⟩
        have hsplit : Splits limit.val chunks.flatten payloads [] :=
          ⟨by rw [hstream, List.append_nil, frames], hle⟩
        obtain ⟨-, hrest⟩ := hps.unique (Or.inl hpending.incomplete) hsplit (Or.inl hnil)
        rcases end_spec hopen hpending with ⟨-, hend⟩ | ⟨hne, -⟩
        · rw [hend]
        · exact absurd hrest hne
    · constructor
      · intro hend
        obtain ⟨error, hcall⟩ :=
          @call_closed ((new limit).run (chunks.map .push)).2 (by simp [hfailed]) .end
        have hmap := congrArg Prod.fst hcall
        rw [call, hend] at hmap
        cases hmap
      · rintro ⟨payloads, hle, hstream⟩
        have hsplit : Splits limit.val chunks.flatten payloads [] :=
          ⟨by rw [hstream, List.append_nil, frames], hle⟩
        obtain ⟨-, rfl⟩ := hps.unique (Or.inr hover) hsplit (Or.inl hnil)
        exact absurd hover.1 (by decide)
  · obtain ⟨hsound, hmax⟩ := (pending_new limit).sound.run calls
    have hwithin := hsound.within
    rwa [hmax] at hwithin
  · obtain ⟨hsound, -⟩ := (pending_new limit).sound.run calls
    obtain ⟨-, -, hclosed⟩ := hsound.call c
    have hrun : ((new limit).run (calls ++ c :: later)).2 =
      (((new limit).run calls).2.call c).2 := by
      rw [run_append]
      exact run_closed (hclosed hfails) later
    obtain ⟨error, hcall⟩ := call_closed (hclosed hfails) c'
    exact ⟨error, by rw [hrun, hcall]⟩

/-- Three payloads, one of them empty, cut within both kinds of parts. -/
theorem chunking_independent_cut :
    ∃ returned : List (List (List UInt8)), ((new ⟨2, by decide⟩).run
        ([[0, 0], [], [0, 1, 7, 0, 0], [0, 0, 0, 0, 0, 2, 8], [9]].map .push)).1 =
          returned.map .ok ∧
      returned.flatten = [[7], [], [8, 9]] := by
  obtain ⟨encoded, hencoded, hall⟩ :=
    (chunking_independent ⟨2, by decide⟩).1 [[7], [], [8, 9]] (by decide)
  refine hall [[0, 0], [], [0, 1, 7, 0, 0], [0, 0, 0, 0, 0, 2, 8], [9]] ?_
  rw [← Except.ok.inj hencoded]
  decide

end FrameDecoder

end PiMono.Protocol
