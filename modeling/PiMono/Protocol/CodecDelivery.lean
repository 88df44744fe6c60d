import PiMono.Lib.Except
import PiMono.Protocol.Codec

/-!
# Messages are delivered

The codec puts frames around CBOR and a check behind it, so its laws are those of
`Framing` and `CborRoundTrip` composed. What a decoder has delivered is always the
messages of the first frames of the stream (`run_spec`): the first frame that it does not
take is one that is malformed, and from then on it throws.
-/

namespace PiMono.Protocol

variable {Check : Schema → CborValue → Bool} {kind : MessageKind} {maxFrameLength : Option Float64}
  {limit : Limit MAX_UINT32}

/-! ## One message -/

theorem parseMessage_eq_ok {value message : CborValue} :
    parseMessage Check kind value = .ok message ↔
      value.isProtocolValue false = true ∧ Check kind.schema value = true ∧ value = message := by
  unfold parseMessage
  by_cases hvalid : ¬ value.isProtocolValue false = true ∨ ¬ Check kind.schema value = true
  · rw [if_pos hvalid]
    constructor
    · intro h
      cases h
    · rintro ⟨hprotocol, hcheck, -⟩
      exact absurd hvalid (not_or.mpr ⟨not_not.mpr hprotocol, not_not.mpr hcheck⟩)
  · rw [if_neg hvalid]
    obtain ⟨hprotocol, hcheck⟩ := not_or.mp hvalid
    constructor
    · intro h
      exact ⟨not_not.mp hprotocol, not_not.mp hcheck, Except.ok.inj h⟩
    · rintro ⟨-, -, rfl⟩
      rfl

/-- Without a limit it is the default. -/
theorem resolveMaxFrameLength_default (maxFrameLength : Option Float64) :
    resolveMaxFrameLength (some (maxFrameLengthOf maxFrameLength))
      = resolveMaxFrameLength maxFrameLength := by
  cases maxFrameLength with
  | some x => rfl
  | none => rfl

theorem assertCompleteFrame_frameBytes {payload : List UInt8} {maxFrameLength : Option Float64}
    (hmax : payload.length ≤ MAX_UINT32)
    (hlimit : resolveMaxFrameLength maxFrameLength = .ok limit) :
    assertCompleteFrame (frameBytes payload) maxFrameLength = .ok () ↔
      payload.length ≤ limit.val := by
  have hlength : ofBigEndian ((frameBytes payload).take FRAME_HEADER_LENGTH) = payload.length := by
    have hannounced := announced_frameBytes hmax []
    rwa [List.append_nil] at hannounced
  have hframe := length_frameBytes payload
  have hshort : ¬ (frameBytes payload).length < FRAME_HEADER_LENGTH := by omega
  unfold assertCompleteFrame
  rw [hlength, hlimit, if_neg hshort]
  show (if limit.val < payload.length then _ else _) = _ ↔ _
  by_cases hover : limit.val < payload.length
  · rw [if_pos hover]
    exact iff_of_false nofun (Nat.not_le.mpr hover)
  · rw [if_neg hover]
    refine iff_of_true ?_ (Nat.not_lt.mp hover)
    show (if (frameBytes payload).length ≠ _ then _ else _) = _
    rw [if_neg (not_not.mpr hframe)]
    rfl

theorem default_container_le : DEFAULT_MAX_CBOR_CONTAINER_LENGTH ≤ MAX_UINT32 := by decide

theorem default_depth_le : DEFAULT_MAX_CBOR_DEPTH ≤ MAX_CONFIGURED_DEPTH := by decide

/-- The limits of the encoder for a message in a frame of at most so many bytes. -/
def messageOptions (limit : Limit MAX_UINT32) : ResolvedCborOptions :=
  ⟨limit, ⟨DEFAULT_MAX_CBOR_CONTAINER_LENGTH, default_container_le⟩,
    ⟨DEFAULT_MAX_CBOR_DEPTH, default_depth_le⟩⟩

theorem resolveOptions_message (h : resolveMaxFrameLength maxFrameLength = .ok limit) :
    resolveOptions { maxByteLength := some (maxFrameLengthOf maxFrameLength) } =
      .ok (messageOptions limit) := by
  rw [← resolveMaxFrameLength_default] at h
  unfold resolveMaxFrameLength resolveLimit at h
  unfold resolveOptions resolveLimit
  dsimp only at h ⊢
  cases hsafe : (maxFrameLengthOf maxFrameLength).toSafe? with
  | none => rw [hsafe] at h; cases h
  | some n =>
    rw [hsafe] at h
    dsimp only at h ⊢
    split at h
    · rename_i value hvalue
      split at hvalue
      · rename_i hrange
        rw [dif_pos hrange]
        obtain rfl := Except.ok.inj hvalue
        obtain rfl := Except.ok.inj h
        rfl
      · cases hvalue
    · cases h
    · cases h

/-- A message that the encoder takes, in a frame that fits: its texts have no lone surrogates,
its numbers are finite, its integers safe, and its depth and sizes within the limits. -/
def Sendable (limit : Limit MAX_UINT32) (message : CborValue) : Prop :=
  Encodable (messageOptions limit) 0 message ∧ (encoding message).length ≤ limit.val

/-- What the encoder returns for a message: the frame of its payload. -/
theorem encodeProtocolMessage_eq_ok (hcheck : Decides Check) {value : CborValue} (hwf : value.Wf)
    {frame : List UInt8} (hlimit : resolveMaxFrameLength maxFrameLength = .ok limit) :
    encodeProtocolMessage Check kind maxFrameLength value = .ok frame ↔
      kind.schema.accepts value = true ∧ Sendable limit value ∧
        frame = frameBytes (encoding value) := by
  have hcomplete : (encoding value).length ≤ limit.val →
      assertCompleteFrame (frameBytes (encoding value)) (some (maxFrameLengthOf maxFrameLength))
        = .ok () := fun hlen =>
    (assertCompleteFrame_frameBytes (hlen.trans limit.property)
      ((resolveMaxFrameLength_default _).trans hlimit)).mpr hlen
  constructor
  · intro h
    obtain ⟨validated, hparse, h⟩ := Except.bind_eq_ok.mp h
    obtain ⟨-, hvalid, rfl⟩ := parseMessage_eq_ok.mp hparse
    obtain ⟨payload, hpayload, h⟩ := Except.bind_eq_ok.mp (Except.mapError_eq_ok.mp h)
    obtain ⟨resolved, hoptions, hv, hlen, rfl⟩ :=
      encodeCbor_ok_iff.mp (Except.mapError_eq_ok.mp hpayload)
    rw [resolveOptions_message hlimit] at hoptions
    obtain rfl := Except.ok.inj hoptions
    obtain ⟨frame', hframe, h⟩ := Except.bind_eq_ok.mp h
    obtain ⟨-, -, h⟩ := Except.bind_eq_ok.mp h
    obtain rfl : frame' = frame := Except.ok.inj h
    have hencode := Except.mapError_eq_ok.mp hframe
    rw [encodeFrame, if_neg (Nat.not_lt.mpr (hlen.trans limit.property))] at hencode
    rw [hcheck] at hvalid
    exact ⟨hvalid, ⟨hv, hlen⟩, (Except.ok.inj hencode).symm⟩
  · rintro ⟨hvalid, ⟨hv, hlen⟩, rfl⟩
    have hparse : parseMessage Check kind value = .ok value := parseMessage_eq_ok.mpr
      ⟨kind.schema.isProtocolValue_of_accepts hwf hvalid, by rw [hcheck]; exact hvalid, rfl⟩
    have hpayload := encodeCbor_ok_iff.mpr
      ⟨_, resolveOptions_message hlimit, hv, hlen, rfl⟩
    have hframe : encodeFrame (encoding value) = .ok (frameBytes (encoding value)) := by
      rw [encodeFrame, if_neg (Nat.not_lt.mpr (hlen.trans limit.property))]
    refine Except.bind_eq_ok.mpr ⟨value, hparse, Except.mapError_eq_ok.mpr ?_⟩
    refine Except.bind_eq_ok.mpr ⟨_, Except.mapError_eq_ok.mpr hpayload, ?_⟩
    refine Except.bind_eq_ok.mpr ⟨_, Except.mapError_eq_ok.mpr hframe, ?_⟩
    exact Except.bind_eq_ok.mpr ⟨(), Except.mapError_eq_ok.mpr (hcomplete hlen), rfl⟩

/-! ## The frames of a stream -/

/-- Every stream is frames and a rest that has none in front. -/
theorem exists_splits (limit : Limit MAX_UINT32) (stream : List UInt8) :
    ∃ payloads rest, Splits limit.val stream payloads rest ∧
      (Incomplete rest ∨ Oversized limit.val rest) := by
  obtain ⟨payloads, rest, hsplit, ⟨_, -, hpending, -, -⟩ | ⟨-, hover⟩⟩ :=
    push_spec (d := .new limit) rfl (pending_new limit) stream
  · exact ⟨payloads, rest, hsplit, .inl hpending.incomplete⟩
  · exact ⟨payloads, rest, hsplit, .inr hover⟩

/-- The frames of a stream, and frames that it begins with. -/
theorem Splits.prefix_of_stuck {stream rest rest' : List UInt8} {all some : List (List UInt8)}
    (hall : Splits limit.val stream all rest) (hstuck : Incomplete rest ∨ Oversized limit.val rest)
    (hsome : Splits limit.val stream some rest') : some <+: all := by
  obtain ⟨more, end', hmore, hend⟩ := exists_splits limit rest'
  have hboth : Splits limit.val stream (some ++ more) end' := by
    have happend := @Splits.append limit.val stream [] rest' end' some more hsome
      (by rw [List.append_nil]; exact hmore)
    rwa [List.append_nil] at happend
  obtain ⟨rfl, -⟩ := hall.unique hstuck hboth hend
  exact List.prefix_append _ _

namespace ValidatedMessageDecoder

variable {d : ValidatedMessageDecoder} {rest : List UInt8}

/-- The frame of a message is decoded to the message, without its undefined properties. -/
theorem decodeFrame_encoding (hcheck : Decides Check) {value : CborValue} (hwf : value.Wf)
    (hvalid : d.kind.schema.accepts value = true)
    (hlimit : resolveMaxFrameLength maxFrameLength = .ok limit)
    (hd : d.maxFrameLength = maxFrameLengthOf maxFrameLength) (hsend : Sendable limit value) :
    d.decodeFrame Check (encoding value) = .ok value.dropUndefined := by
  have hencode := encodeCbor_ok_iff.mpr ⟨_, resolveOptions_message hlimit, hsend.1, hsend.2, rfl⟩
  unfold decodeFrame
  rw [hd, decode_encode hwf hencode]
  have hprotocol := d.kind.schema.isProtocolValue_of_accepts hwf hvalid
  refine parseMessage_eq_ok.mpr ⟨value.isProtocolValue_dropUndefined hprotocol, ?_, rfl⟩
  rw [hcheck]
  exact Schema.accepts_dropUndefined _ hwf hvalid

/-- What is decoded has passed the check. -/
theorem decodeFrame_ok {payload : List UInt8} {message : CborValue}
    (h : d.decodeFrame Check payload = .ok message) :
    message.isProtocolValue false = true ∧ Check d.kind.schema message = true := by
  unfold decodeFrame at h
  split at h
  · obtain ⟨hprotocol, hvalid, rfl⟩ := parseMessage_eq_ok.mp h
    exact ⟨hprotocol, hvalid⟩
  · cases h

/-- The frames of messages. -/
theorem mapM_decodeFrame (hcheck : Decides Check)
    (hlimit : resolveMaxFrameLength maxFrameLength = .ok limit)
    (hd : d.maxFrameLength = maxFrameLengthOf maxFrameLength) {messages : List CborValue}
    (hmessages : ∀ m ∈ messages, m.Wf ∧ d.kind.schema.accepts m = true ∧ Sendable limit m) :
    messages.mapM (encodeProtocolMessage Check d.kind maxFrameLength) =
        .ok (messages.map fun m => frameBytes (encoding m)) ∧
      (messages.map encoding).mapM (d.decodeFrame Check) =
        .ok (messages.map CborValue.dropUndefined) := by
  induction messages with
  | nil => exact ⟨rfl, rfl⟩
  | cons value messages ih =>
    obtain ⟨⟨hwf, hvalid, hsend⟩, hrest⟩ := List.forall_mem_cons.mp hmessages
    obtain ⟨hencoded, hdecoded⟩ := ih hrest
    have hframe := (encodeProtocolMessage_eq_ok hcheck hwf hlimit).mpr ⟨hvalid, hsend, rfl⟩
    exact ⟨Except.mapM_cons_eq_ok.mpr ⟨_, _, hframe, hencoded, rfl⟩,
      Except.mapM_cons_eq_ok.mpr
        ⟨_, _, decodeFrame_encoding hcheck hwf hvalid hlimit hd hsend, hdecoded, rfl⟩⟩

/-! ## One push -/

/-- The decoder is open, and holds the beginning of a frame. -/
structure Open (limit : Limit MAX_UINT32) (d : ValidatedMessageDecoder) (rest : List UInt8) :
    Prop where
  notFailed : d.failed = false
  state : d.frames.state = .open
  limit : d.frames.maxFrameLength = limit
  pending : Pending d.frames rest

variable (Check) in
/-- A decoder that has failed throws. -/
theorem call_failed (h : d.failed = true) (c : FrameCall) :
    ∃ error, d.call Check c = (.error error, d) := by
  cases c with
  | push chunk => exact ⟨_, if_pos h⟩
  | «end» =>
    have hend : d.end = (.error ⟨d.kind.text ++ " message decoder has failed"⟩, d) := if_pos h
    exact ⟨⟨d.kind.text ++ " message decoder has failed"⟩, by rw [call, hend]; rfl⟩

variable (Check) in
/-- A chunk brings more frames; either all of them are messages, or the decoder fails at
one that is not, or at a length over the limit. -/
theorem push_spec (h : Open limit d rest) (chunk : List UInt8) :
    ∃ payloads rest', Splits limit.val (rest ++ chunk) payloads rest' ∧
      ((∃ messages d', d.push Check chunk = (.ok messages, d') ∧
          payloads.mapM (d.decodeFrame Check) = .ok messages ∧ Open limit d' rest' ∧
          d'.kind = d.kind ∧ d'.maxFrameLength = d.maxFrameLength) ∨
        (∃ error d', d.push Check chunk = (.error error, d') ∧ d'.failed = true) ∧
          ((∃ p ∈ payloads, ∃ error, d.decodeFrame Check p = .error error) ∨
            Oversized limit.val rest')) := by
  obtain ⟨hfailed, hopen, hlimit, hpending⟩ := h
  obtain ⟨payloads, rest', hsplit, hout⟩ := PiMono.Protocol.push_spec hopen hpending chunk
  rw [hlimit] at hsplit
  refine ⟨payloads, rest', hsplit, ?_⟩
  unfold push
  rw [hfailed, if_neg (by simp)]
  rcases hout with ⟨frames', hpush, hpending', hlimit', hopen'⟩ | ⟨⟨error, hpush⟩, hover⟩
  · rw [hpush]
    cases hdecoded : payloads.mapM (d.decodeFrame Check) with
    | ok messages =>
      refine .inl ⟨messages, { d with frames := frames' }, ?_, rfl,
        ⟨?_, hopen', hlimit'.trans hlimit, hpending'⟩, rfl, rfl⟩
      · dsimp only
        rw [hdecoded, hfailed]
      · exact hfailed
    | error error =>
      refine .inr ⟨⟨error, { d with frames := frames', failed := true }, ?_, rfl⟩, .inl ?_⟩
      · dsimp only
        rw [hdecoded]
      · obtain ⟨p, hp, herror⟩ := Except.mapM_error hdecoded
        exact ⟨p, hp, error, herror⟩
  · rw [hpush]
    rw [hlimit] at hover
    exact .inr ⟨⟨_, _, rfl, rfl⟩, .inr hover⟩

/-! ## Runs -/

/-- The messages that calls have returned. -/
def delivered (results : List (Except ProtocolValidationError (List CborValue))) :
    List CborValue :=
  results.flatMap fun result => result.toOption.getD []

theorem delivered_ok (returned : List (List CborValue)) :
    delivered (returned.map .ok) = returned.flatten := by
  rw [delivered, List.flatMap_map, List.flatten_eq_flatMap]
  rfl

theorem not_error_of_mapM {payloads : List (List UInt8)} {messages : List CborValue}
    (h : payloads.mapM (d.decodeFrame Check) = .ok messages) {p : List UInt8} (hp : p ∈ payloads)
    {error : ProtocolValidationError} : ¬ d.decodeFrame Check p = .error error := by
  intro herror
  obtain ⟨message, hmessage⟩ := Except.mapM_ok_of_mem h p hp
  rw [hmessage] at herror
  cases herror

theorem run_failed (h : d.failed = true) (calls : List FrameCall) :
    (∀ result ∈ (d.run Check calls).1, ∃ error, result = .error error) ∧
      (d.run Check calls).2 = d := by
  induction calls with
  | nil => exact ⟨fun _ hmem => absurd hmem List.not_mem_nil, rfl⟩
  | cons c calls ih =>
    obtain ⟨error, hcall⟩ := call_failed Check h c
    rw [run, hcall]
    exact ⟨List.forall_mem_cons.mpr ⟨⟨error, rfl⟩, ih.1⟩, ih.2⟩

theorem delivered_failed (h : d.failed = true) (calls : List FrameCall) :
    delivered (d.run Check calls).1 = [] := by
  refine List.flatMap_eq_nil_iff.mpr ?_
  intro result hresult
  obtain ⟨error, rfl⟩ := (run_failed h calls).1 result hresult
  rfl

variable (Check) in
/-- Whatever the chunks: the messages of the first frames of the stream have been delivered.
Either these are all frames, and no call has failed; or the decoder has failed, and behind
them is a frame that is no message, or a length over the limit. -/
theorem run_spec (chunks : List (List UInt8)) (h : Open limit d rest) :
    ∃ payloads later rest', Splits limit.val (rest ++ chunks.flatten) (payloads ++ later) rest' ∧
      payloads.mapM (d.decodeFrame Check)
        = .ok (delivered (d.run Check (chunks.map .push)).1) ∧
      ((later = [] ∧ Incomplete rest' ∧ ∃ returned : List (List CborValue),
          (d.run Check (chunks.map .push)).1 = returned.map .ok) ∨
        (∃ p ∈ later, ∃ error, d.decodeFrame Check p = .error error) ∨
          Oversized limit.val rest') := by
  induction chunks generalizing d rest with
  | nil =>
    exact ⟨[], [], rest, ⟨by simp [Protocol.frames], by simp⟩, rfl,
      .inl ⟨rfl, h.pending.incomplete, [], rfl⟩⟩
  | cons chunk chunks ih =>
    rw [List.flatten_cons, ← List.append_assoc rest]
    obtain ⟨ps, rest₁, hsplit, ⟨messages, d', hpush, hdecoded, hopen, hkind, hmax⟩ |
      ⟨⟨error, d', hpush, hfailed⟩, hbad⟩⟩ := push_spec Check h chunk
    · have hcall : d.call Check (.push chunk) = (.ok messages, d') := hpush
      obtain ⟨payloads, later, rest', hsplit', hrun, hout⟩ := ih hopen
      have hsame : d'.decodeFrame Check = d.decodeFrame Check := by
        funext frame
        rw [decodeFrame, decodeFrame, hkind, hmax]
      rw [hsame] at hrun hout
      refine ⟨ps ++ payloads, later, rest', ?_, ?_, ?_⟩
      · rw [List.append_assoc ps]
        exact hsplit.append hsplit'
      · rw [List.map_cons, run, hcall]
        exact Except.mapM_append_ok hdecoded hrun
      · refine hout.imp_left ?_
        rintro ⟨hlater, hincomplete, returned, hreturned⟩
        refine ⟨hlater, hincomplete, messages :: returned, ?_⟩
        rw [List.map_cons, run, hcall, List.map_cons, hreturned]
    · have hcall : d.call Check (.push chunk) = (.error error, d') := hpush
      refine ⟨[], ps, rest₁ ++ chunks.flatten, ⟨?_, hsplit.2⟩, ?_, .inr ?_⟩
      · rw [hsplit.1, List.append_assoc, List.nil_append]
      · rw [List.map_cons, run, hcall, delivered, List.flatMap_cons, ← delivered,
          delivered_failed hfailed]
        rfl
      · exact hbad.imp_right fun hover => hover.append _

/-! ## Main result -/

/-- What follows begins with a malformed frame: its length is over the limit, or it is not
that of a message. -/
def Malformed (Check : Schema → CborValue → Bool) (d : ValidatedMessageDecoder)
    (limit : Nat) (stream : List UInt8) : Prop :=
  Oversized limit stream ∨ ∃ payload more, Splits limit stream [payload] more ∧
    ∃ error, d.decodeFrame Check payload = .error error

theorem create_ok (h : create kind maxFrameLength = .ok d) :
    ∃ limit, resolveMaxFrameLength maxFrameLength = .ok limit ∧ Open limit d [] ∧ d.kind = kind ∧
      d.maxFrameLength = maxFrameLengthOf maxFrameLength := by
  obtain ⟨frames, hframes, h⟩ := Except.bind_eq_ok.mp h
  obtain ⟨limit, hlimit, hframes⟩ := Except.bind_eq_ok.mp hframes
  obtain rfl := Except.ok.inj h
  obtain rfl := Except.ok.inj hframes
  exact ⟨limit, hlimit, ⟨rfl, rfl, rfl, pending_new limit⟩, rfl, rfl⟩

/-- A call that fails leaves a decoder that has failed. -/
theorem failed_of_error {c : FrameCall} (h : ∃ error, (d.call Check c).1 = .error error) :
    (d.call Check c).2.failed = true := by
  obtain ⟨error, herror⟩ := h
  cases c with
  | push chunk =>
    dsimp only [call] at herror ⊢
    unfold push at herror ⊢
    split
    · assumption
    · rename_i hopen
      rw [if_neg hopen] at herror
      split
      · rfl
      · rename_i payloads frames hpush
        rw [hpush] at herror
        split
        · rename_i messages hmessages
          dsimp only at herror
          rw [hmessages] at herror
          cases herror
        · rfl
  | «end» =>
    dsimp only [call] at herror ⊢
    unfold ValidatedMessageDecoder.end at herror ⊢
    split
    · assumption
    · rename_i hopen
      rw [if_neg hopen] at herror
      split
      · rfl
      · rename_i frames hend
        rw [hend] at herror
        cases herror

theorem call_kind (c : FrameCall) : (d.call Check c).2.kind = d.kind := by
  cases c with
  | push chunk =>
    dsimp only [call]
    unfold push
    split
    · rfl
    · split
      · rfl
      · split
        · rfl
        · rfl
  | «end» =>
    dsimp only [call]
    unfold ValidatedMessageDecoder.end
    split
    · rfl
    · split
      · rfl
      · rfl

/-- What a call delivers has passed the check. -/
theorem call_valid {c : FrameCall} {messages : List CborValue}
    (h : (d.call Check c).1 = .ok messages) :
    ∀ m ∈ messages, m.isProtocolValue false = true ∧ Check d.kind.schema m = true := by
  cases c with
  | push chunk =>
    dsimp only [call] at h
    unfold push at h
    split at h
    · cases h
    · split at h
      · cases h
      · split at h
        · rename_i hdecoded
          obtain rfl := Except.ok.inj h
          intro m hm
          obtain ⟨payload, -, hpayload⟩ := Except.mem_of_mapM_ok hdecoded m hm
          exact decodeFrame_ok hpayload
        · cases h
  | «end» =>
    obtain ⟨_, -, rfl⟩ := Except.map_eq_ok.mp h
    exact fun _ hm => absurd hm List.not_mem_nil

theorem run_valid (calls : List FrameCall) : ∀ m ∈ delivered (d.run Check calls).1,
    m.isProtocolValue false = true ∧ Check d.kind.schema m = true := by
  induction calls generalizing d with
  | nil => exact fun _ hm => absurd hm List.not_mem_nil
  | cons c calls ih =>
    intro m hm
    rw [run, delivered, List.flatMap_cons, List.mem_append] at hm
    rcases hm with hm | hm
    · cases hcall : (d.call Check c).1 with
      | ok messages =>
        rw [hcall] at hm
        exact call_valid hcall m hm
      | error error =>
        rw [hcall] at hm
        cases hm
    · have hrest := ih m hm
      rwa [call_kind] at hrest

theorem run_append_snd (calls calls' : List FrameCall) :
    (d.run Check (calls ++ calls')).2 = ((d.run Check calls).2.run Check calls').2 := by
  induction calls generalizing d with
  | nil => rfl
  | cons c calls ih => exact ih

end ValidatedMessageDecoder

open ValidatedMessageDecoder

/-- The frames of messages, cut in any way, yield the messages. -/
theorem delivered_of_frames (hopen : Open limit d []) {messages : List CborValue}
    (hmessages : ∀ m ∈ messages, m.Wf ∧ d.kind.schema.accepts m = true ∧ Sendable limit m)
    (hdecoded : (messages.map encoding).mapM (d.decodeFrame Check)
      = .ok (messages.map CborValue.dropUndefined))
    {chunks : List (List UInt8)}
    (hchunks : chunks.flatten = (messages.map fun m => frameBytes (encoding m)).flatten) :
    delivered (d.run Check (chunks.map .push)).1 = messages.map CborValue.dropUndefined ∧
      ∃ returned : List (List CborValue),
        (d.run Check (chunks.map .push)).1 = returned.map .ok := by
  have hall : Splits limit.val chunks.flatten (messages.map encoding) [] := by
    refine ⟨?_, fun payload hpayload => ?_⟩
    · rw [hchunks, List.append_nil, Protocol.frames, List.flatMap_map, List.flatMap_def]
    · obtain ⟨m, hm, rfl⟩ := List.mem_map.mp hpayload
      exact (hmessages m hm).2.2.2
  have hstuck : Incomplete [] ∨ Oversized limit.val [] := .inl (.inl (by decide))
  obtain ⟨payloads, later, rest', hsplit, hrun, hout⟩ := run_spec Check chunks hopen
  rw [List.nil_append] at hsplit
  rcases hout with ⟨rfl, hincomplete, hreturned⟩ | ⟨p, hp, error, hbad⟩ | hover
  · rw [List.append_nil] at hsplit
    obtain ⟨rfl, -⟩ := hsplit.unique (.inl hincomplete) hall hstuck
    exact ⟨Except.ok.inj (hrun.symm.trans hdecoded), hreturned⟩
  · -- all frames are messages
    have hmem := (hall.prefix_of_stuck hstuck hsplit).subset (List.mem_append_right _ hp)
    exact absurd hbad (not_error_of_mapM hdecoded hmem)
  · obtain ⟨-, rfl⟩ := hsplit.unique (.inr hover) hall hstuck
    exact absurd hover.1 (by decide)

/-- Nothing is yielded behind the first malformed frame. -/
theorem delivered_prefix_good (hopen : Open limit d []) {chunks good : List (List UInt8)}
    {bad : List UInt8} (hgood : Splits limit.val chunks.flatten good bad)
    (hbad : Malformed Check d limit.val bad) :
    ∃ payloads, payloads <+: good ∧ payloads.mapM (d.decodeFrame Check)
      = .ok (delivered (d.run Check (chunks.map .push)).1) := by
  obtain ⟨payloads, later, rest', hsplit, hrun, -⟩ := run_spec Check chunks hopen
  rw [List.nil_append] at hsplit
  refine ⟨payloads, ?_, hrun⟩
  have hpayloads : payloads <+: payloads ++ later := List.prefix_append _ _
  rcases hbad with hover | ⟨p, more, hp, error, hbad⟩
  · exact hpayloads.trans (hgood.prefix_of_stuck (.inr hover) hsplit)
  · have hlonger : Splits limit.val chunks.flatten (good ++ [p]) more := by
      have happend := @Splits.append limit.val chunks.flatten [] bad more good [p] hgood
        (by rw [List.append_nil]; exact hp)
      rwa [List.append_nil] at happend
    obtain ⟨all, stuck, hall, hstuck⟩ := exists_splits limit chunks.flatten
    rcases List.prefix_or_prefix_of_prefix
        (hpayloads.trans (hall.prefix_of_stuck hstuck hsplit))
        (hall.prefix_of_stuck hstuck hlonger) with hprefix | hprefix
    · rcases List.prefix_concat_iff.mp hprefix with rfl | hprefix
      · exact absurd hbad (not_error_of_mapM hrun (List.mem_append_right _ List.mem_cons_self))
      · exact hprefix
    · have hmem := hprefix.subset (List.mem_append_right good List.mem_cons_self)
      exact absurd hbad (not_error_of_mapM hrun hmem)

/-- The messages of a schema that the encoder takes are those it has the limits and the texts
for. However the frames of such messages are cut into chunks, the decoder returns the
messages, in order and without their undefined properties. Whatever a decoder is given: what
it returns is accepted by the schema, nothing comes from the first malformed frame on, and
after a call that fails every call fails. -/
theorem codec_delivers {d : ValidatedMessageDecoder} (hcheck : Decides Check)
    (hd : create kind maxFrameLength = .ok d) :
    (∀ m : CborValue, m.Wf →
      ((∃ frame, encodeProtocolMessage Check kind maxFrameLength m = .ok frame) ↔
        kind.schema.accepts m = true ∧ Sendable d.frames.maxFrameLength m)) ∧
    (∀ messages : List CborValue, (∀ m ∈ messages, m.Wf ∧ kind.schema.accepts m = true ∧
        Sendable d.frames.maxFrameLength m) →
      ∃ encoded, messages.mapM (encodeProtocolMessage Check kind maxFrameLength) = .ok encoded ∧
        ∀ chunks : List (List UInt8), chunks.flatten = encoded.flatten →
          ∃ returned : List (List CborValue),
            (d.run Check (chunks.map .push)).1 = returned.map .ok ∧
            returned.flatten = messages.map CborValue.dropUndefined) ∧
    (∀ calls, ∀ m ∈ delivered (d.run Check calls).1, kind.schema.accepts m = true) ∧
    (∀ (chunks good : List (List UInt8)) (bad : List UInt8),
      Splits d.frames.maxFrameLength.val chunks.flatten good bad →
      Malformed Check d d.frames.maxFrameLength.val bad →
      ∃ payloads, payloads <+: good ∧ payloads.mapM (d.decodeFrame Check)
        = .ok (delivered (d.run Check (chunks.map .push)).1)) ∧
    ∀ calls c later c', (∃ error, ((d.run Check calls).2.call Check c).1 = .error error) →
      ∃ error, ((d.run Check (calls ++ c :: later)).2.call Check c').1 = .error error := by
  obtain ⟨limit, hlimit, hopen, rfl, hmax⟩ := create_ok hd
  rw [hopen.limit]
  refine ⟨fun m hwf => ?_, ?_, ?_, ?_, ?_⟩
  · constructor
    · rintro ⟨frame, hframe⟩
      obtain ⟨hvalid, hsend, -⟩ := (encodeProtocolMessage_eq_ok hcheck hwf hlimit).mp hframe
      exact ⟨hvalid, hsend⟩
    · rintro ⟨hvalid, hsend⟩
      exact ⟨_, (encodeProtocolMessage_eq_ok hcheck hwf hlimit).mpr ⟨hvalid, hsend, rfl⟩⟩
  · intro messages hmessages
    obtain ⟨hencoded, hdecoded⟩ := mapM_decodeFrame hcheck hlimit hmax hmessages
    refine ⟨_, hencoded, fun chunks hchunks => ?_⟩
    have hdelivered := delivered_of_frames hopen hmessages hdecoded hchunks
    obtain ⟨hmessages, returned, hreturned⟩ := hdelivered
    refine ⟨returned, hreturned, ?_⟩
    rw [← hmessages, hreturned, delivered_ok]
  · intro calls m hm
    rw [← hcheck]
    exact (run_valid calls m hm).2
  · intro chunks good bad hgood hbad
    exact delivered_prefix_good hopen hgood hbad
  · intro calls c later c' hfails
    have hfailed := failed_of_error hfails
    have hrun : (d.run Check (calls ++ c :: later)).2 = ((d.run Check calls).2.call Check c).2 := by
      rw [run_append_snd]
      exact (run_failed hfailed later).2
    obtain ⟨error, hcall⟩ := call_failed Check hfailed c'
    exact ⟨error, by rw [hrun, hcall]⟩

def helloMessage : CborValue :=
  .object false [(js "type", .string (js "hello")),
    (js "version", .number (.ofSafe PROTOCOL_VERSION))]

/-- A request with an optional property that is `undefined`. -/
def createMessage : CborValue :=
  .object false [(js "type", .string (js "request")), (js "id", .string (js "request-1")),
    (js "request", .object false [(js "command", .string (js "create")), (js "cwd", .undefined),
      (js "name", .string (js "n"))])]

theorem wf_helloMessage : helloMessage.Wf := by
  refine .object (by decide +kernel) ?_
  simp only [List.forall_mem_cons]
  exact ⟨.string _, .number _, nofun⟩

theorem wf_createMessage : createMessage.Wf := by
  have hrequest : (CborValue.object false [(js "command", .string (js "create")),
      (js "cwd", .undefined), (js "name", .string (js "n"))]).Wf := by
    refine .object (by decide +kernel) ?_
    simp only [List.forall_mem_cons]
    exact ⟨.string _, .undefined, .string _, nofun⟩
  refine .object (by decide +kernel) ?_
  simp only [List.forall_mem_cons]
  exact ⟨.string _, .string _, hrequest, nofun⟩

theorem exists_of_isOk {ε α : Type} {x : Except ε α} (h : x.isOk = true) : ∃ a, x = .ok a := by
  cases x with
  | ok a => exact ⟨a, rfl⟩
  | error e => cases h

/-- Two messages, sent byte by byte. -/
theorem codec_delivers_bytes : ∃ (d : ValidatedMessageDecoder) (stream : List UInt8)
    (returned : List (List CborValue)), 0 < stream.length ∧
      (d.run Schema.accepts ((stream.map fun byte => [byte]).map .push)).1 = returned.map .ok ∧
      returned.flatten = [helloMessage, createMessage].map CborValue.dropUndefined := by
  have hencodes : ∀ m ∈ [helloMessage, createMessage],
      ∃ frame, encodeProtocolMessage Schema.accepts .client none m = .ok frame := by
    simp only [List.forall_mem_cons]
    exact ⟨exists_of_isOk (by decide +kernel), exists_of_isOk (by decide +kernel), nofun⟩
  have hwf : ∀ m ∈ [helloMessage, createMessage], m.Wf := by
    simp only [List.forall_mem_cons]
    exact ⟨wf_helloMessage, wf_createMessage, nofun⟩
  have hcreate : create .client none = .ok
      ⟨false, .new ⟨DEFAULT_MAX_FRAME_LENGTH, by decide⟩, .client, maxFrameLengthOf none⟩ := rfl
  have hcheck : Decides Schema.accepts := fun _ _ => rfl
  obtain ⟨htaken, hdelivers, -⟩ := codec_delivers hcheck hcreate
  obtain ⟨encoded, hencoded, hchunks⟩ := hdelivers [helloMessage, createMessage]
    fun m hm => ⟨hwf m hm, (htaken m (hwf m hm)).mp (hencodes m hm)⟩
  obtain ⟨returned, hreturned⟩ := hchunks (encoded.flatten.map fun byte => [byte])
    (by rw [← List.flatMap_def, List.flatMap_singleton'])
  have hlen : (([helloMessage, createMessage].mapM
      (encodeProtocolMessage Schema.accepts .client none)).toOption.any fun encoded =>
        0 < encoded.flatten.length) = true := by
    decide +kernel
  rw [show _ = _ from hencoded] at hlen
  exact ⟨_, encoded.flatten, returned, of_decide_eq_true hlen, hreturned⟩

/-- A request whose id is half a surrogate pair. -/
def surrogateMessage : CborValue :=
  .object false [(js "type", .string (js "request")), (js "id", .string [0xD800]),
    (js "request", .object false [(js "command", .string (js "list"))])]

theorem wf_surrogateMessage : surrogateMessage.Wf := by
  have hrequest : (CborValue.object false [(js "command", .string (js "list"))]).Wf := by
    refine .object (by decide +kernel) ?_
    simp only [List.forall_mem_cons]
    exact ⟨.string _, nofun⟩
  refine .object (by decide +kernel) ?_
  simp only [List.forall_mem_cons]
  exact ⟨.string _, .string _, hrequest, nofun⟩

/-- Not every message of the schema is encoded. -/
theorem not_every_message_encoded : ¬ ∀ messages : List CborValue,
    (∀ m ∈ messages, m.Wf ∧ MessageKind.client.schema.accepts m = true ∧
      (encoding m).length ≤ DEFAULT_MAX_FRAME_LENGTH) →
    ∃ encoded, messages.mapM (encodeProtocolMessage Schema.accepts .client none)
      = .ok encoded := by
  intro h
  obtain ⟨encoded, hencoded⟩ := h [surrogateMessage] (by
    simp only [List.forall_mem_cons]
    exact ⟨⟨wf_surrogateMessage, by decide +kernel, by decide +kernel⟩, nofun⟩)
  have hrefused : (encodeProtocolMessage Schema.accepts .client none surrogateMessage).isOk =
      false := by
    decide +kernel
  obtain ⟨frame, -, hframe, -⟩ := Except.mapM_cons_eq_ok.mp hencoded
  rw [hframe] at hrefused
  cases hrefused

end PiMono.Protocol
