import PiMono.Protocol.CborDecoder
import Mathlib.Data.List.Forall2

/-!
# Encoding and decoding are inverse

`reads_encoding` says that the decoder reads what the encoder writes for a value as that
value without its undefined properties. With `encodeCbor_ok_iff` and `readItem_ok` it
gives the two laws: what is encoded is decoded again, and what is decoded can be encoded,
in no more bytes.
-/

namespace PiMono.Protocol

open CborReader

variable {options : ResolvedCborOptions}

/-- The high and the low word of a safe integer. -/
theorem words_lt {value : Nat} (h : value < 2 ^ 53) :
    value / UINT32_BASE < 256 ^ 4 ∧ value - value / UINT32_BASE * UINT32_BASE < 256 ^ 4 ∧
      ¬ value / UINT32_BASE > 0x1fffff ∧ value / UINT32_BASE * UINT32_BASE
        + (value - value / UINT32_BASE * UINT32_BASE) = value := by
  unfold UINT32_BASE
  refine ⟨?_, ?_, ?_, ?_⟩ <;> omega

/-- The argument as the byte of its item begins it: five bits and what follows. -/
theorem reads_argument (majorType value : Nat) (h : value < 2 ^ 53) :
    ∃ info bs, info < 32 ∧ info ≠ 31 ∧
      argumentBytes majorType value = UInt8.ofNat (majorType * 32 + info) :: bs ∧
        ByteReader.Reads (readArgument info) bs ⟨value, h⟩ := by
  unfold argumentBytes
  split
  · rename_i hsmall
    refine ⟨value, [], by omega, by omega, rfl, ?_⟩
    unfold readArgument
    rw [dif_pos hsmall]
    exact .pure _
  split
  · refine ⟨24, [UInt8.ofNat value], by decide, by decide, rfl, ?_⟩
    have hwidth : value < 256 ^ 1 := by omega
    have hbyte : bigEndian 1 value = [UInt8.ofNat value] := by simp [bigEndian]
    rw [← hbyte]
    exact (ByteReader.Reads.uint ⟨value, hwidth⟩ truncated).map (.pure _)
  split
  · refine ⟨25, bigEndian 2 value, by decide, by decide, rfl, ?_⟩
    have hwidth : value < 256 ^ 2 := by omega
    exact (ByteReader.Reads.uint ⟨value, hwidth⟩ truncated).map (.pure _)
  split
  · refine ⟨26, bigEndian 4 value, by decide, by decide, rfl, ?_⟩
    have hwidth : value < 256 ^ 4 := by
      rename_i hlong
      unfold MAX_UINT32 at hlong
      omega
    exact (ByteReader.Reads.uint ⟨value, hwidth⟩ truncated).map (.pure _)
  · obtain ⟨hhigh, hlow, hsafe, hback⟩ := words_lt h
    refine ⟨27, bigEndian 4 (value / UINT32_BASE)
      ++ bigEndian 4 (value - value / UINT32_BASE * UINT32_BASE), by decide, by decide, rfl, ?_⟩
    refine (ByteReader.Reads.uint ⟨value / UINT32_BASE, hhigh⟩ truncated).bind
      ((ByteReader.Reads.uint ⟨_, hlow⟩ truncated).map ?_)
    split
    · rename_i hlarge
      exact absurd hlarge hsafe
    · intro rest
      exact congrArg (fun n : SafeCount => Except.ok (n, rest)) (Subtype.ext hback)

/-- A length within its limit. -/
theorem reads_length {limit : Nat} (hlimit : limit ≤ MAX_UINT32) (majorType length : Nat)
    (kind : String) (h : length ≤ limit) :
    ∃ info bs, info < 32 ∧
      argumentBytes majorType length = UInt8.ofNat (majorType * 32 + info) :: bs ∧
        ByteReader.Reads (readLength info kind limit) bs length := by
  have hsafe : length < 2 ^ 53 := by
    unfold MAX_UINT32 at hlimit
    omega
  obtain ⟨info, bs, hinfo, hdefinite, hbytes, hreads⟩ := reads_argument majorType length hsafe
  refine ⟨info, bs, hinfo, hbytes, ?_⟩
  unfold readLength
  rw [if_neg hdefinite]
  refine hreads.map ?_
  rw [if_neg (Nat.not_lt.mpr h)]
  exact .pure _

/-- An item is the byte that begins it and what its `switch` reads. -/
theorem reads_item {levels majorType info : Nat} (hmajor : majorType < 8) (hinfo : info < 32)
    {bs : List UInt8} {v : CborValue}
    (h : ByteReader.Reads (readMajor options (readItem options levels) majorType info) bs v) :
    ByteReader.Reads (readItem options (levels + 1)) (UInt8.ofNat (majorType * 32 + info) :: bs)
      v := by
  have hlt : majorType * 32 + info < 256 ^ 1 := by omega
  have hbyte : bigEndian 1 (majorType * 32 + info) = [UInt8.ofNat (majorType * 32 + info)] := by
    simp [bigEndian]
  have hinitial := ByteReader.Reads.uint ⟨majorType * 32 + info, hlt⟩ truncated
  rw [hbyte] at hinitial
  refine ByteReader.Reads.bind hinitial ?_
  have hdiv : (majorType * 32 + info) / 32 = majorType := by omega
  have hmod : (majorType * 32 + info) % 32 = info := by omega
  simp only [hdiv, hmod]
  exact h

theorem reads_text {levels : Nat} {s : JsString} (hs : EncodableText options s) :
    ByteReader.Reads (readItem options (levels + 1)) (textBytes s) (.string s) := by
  obtain ⟨info, bs, hinfo, hbytes, hlength⟩ :=
    reads_length options.maxByteLength.property 3 _ "text string" hs.2
  rw [textBytes, hbytes, List.cons_append]
  refine reads_item (by decide) hinfo ?_
  unfold readMajor
  simp only [OfNat.ofNat_ne_zero, OfNat.ofNat_ne_one, if_false, if_true]
  refine hlength.bind ((ByteReader.Reads.take rfl _).map ?_)
  rw [decodeUtf8Fatal_encodeUtf8 hs.1]
  exact .pure _

theorem reads_number {levels : Nat} {x : Float64} (hx : EncodableNumber x) :
    ByteReader.Reads (readItem options (levels + 1)) (numberBytes x) (.number x) := by
  -- the nine bytes of a number that is not written as an integer
  have hfloat : (x.isInteger = true → x.toSafe? ≠ none) →
      ByteReader.Reads (readItem options (levels + 1)) (0xfb :: bigEndian 8 x.toBits)
        (.number x) := by
    intro hsafe
    have hwidth : x.toBits < 256 ^ 8 := lt_of_lt_of_eq x.toBits_lt (by decide)
    refine @reads_item options levels 7 27 (by decide) (by decide) _ _ ?_
    refine (ByteReader.Reads.uint ⟨x.toBits, hwidth⟩ truncated).map ?_
    simp only [Float64.ofBits_toBits hx.1]
    rw [if_neg (by simp [hx.1]), if_neg fun hcon => hsafe hcon.1 hcon.2]
    exact .pure _
  unfold numberBytes
  cases hsafe : x.toSafe? with
  | none =>
    refine hfloat fun hint _ => ?_
    have hne : x ≠ .negZero := by
      rintro rfl
      rw [Float64.toSafe?_negZero] at hsafe
      cases hsafe
    have hsome := hx.2 hint hne
    rw [hsafe] at hsome
    cases hsome
  | some n =>
    simp only
    split
    · exact hfloat fun _ => by simp [hsafe]
    rename_i hne
    have hnumber : Float64.ofSafe n = x := Float64.ofSafe_toSafe? hsafe hne
    have hn := n.property
    split
    · obtain ⟨info, bs, hinfo, -, hbytes, hreads⟩ :=
        reads_argument 0 n.val.toNat (by omega)
      rw [hbytes]
      refine reads_item (by decide) hinfo (hreads.map ?_)
      have hback : SafeCount.toSafe ⟨n.val.toNat, by omega⟩ = n :=
        Subtype.ext (Int.toNat_of_nonneg ‹_›)
      rw [hback, hnumber]
      exact .pure _
    · obtain ⟨info, bs, hinfo, -, hbytes, hreads⟩ :=
        reads_argument 1 (-1 - n.val).toNat (by omega)
      rw [hbytes]
      refine reads_item (by decide) hinfo (hreads.map ?_)
      have hback : -1 - (((-1 - n.val).toNat : Nat) : Int) = n.val := by omega
      simp only [hback]
      rw [dif_pos hn, hnumber]
      exact .pure _

theorem reads_simple {levels info : Nat} (hinfo : info < 32) {v : CborValue}
    (h : readSimple info = pure v) :
    ByteReader.Reads (readItem options (levels + 1)) [UInt8.ofNat (7 * 32 + info)] v := by
  refine reads_item (by decide) hinfo ?_
  show ByteReader.Reads (readSimple info) [] v
  rw [h]
  exact .pure v

/-- The entries of a map, read behind those of `result`. -/
theorem reads_entries {inner : CborReader CborValue} :
    ∀ {fields result : List (JsString × CborValue)},
      OwnOrder (result.map Prod.fst ++ fields.map Prod.fst) →
      (∀ f ∈ fields, ByteReader.Reads inner (textBytes f.1) (.string f.1)) →
      (∀ f ∈ fields, ByteReader.Reads inner (encoding f.2) f.2.dropUndefined) →
        ByteReader.Reads (readEntries inner fields.length result)
          (fields.map entryBytes).flatten
          (result ++ fields.map fun f => (f.1, f.2.dropUndefined))
  | [], result, _, _, _ => by
    show ByteReader.Reads (pure result) [] (result ++ [])
    rw [List.append_nil]
    exact .pure result
  | (key, v) :: fields, result, horder, hkeys, hvalues => by
    have hprefix : OwnOrder (result.map Prod.fst ++ [key]) := by
      refine List.Pairwise.sublist ?_ horder
      exact (List.Sublist.refl _).append (List.singleton_sublist.mpr List.mem_cons_self)
    have hnew : key ∉ result.map Prod.fst := fun hmem =>
      ((List.pairwise_append.mp hprefix).2.2 key hmem key (List.mem_singleton.mpr rfl)).1 rfl
    have hrest := @reads_entries inner fields (result ++ [(key, v.dropUndefined)])
      (by simpa using horder) (fun f hf => hkeys f (List.mem_cons_of_mem _ hf))
      (fun f hf => hvalues f (List.mem_cons_of_mem _ hf))
    rw [List.append_assoc, List.singleton_append] at hrest
    rw [List.map_cons, List.flatten_cons, entryBytes, List.append_assoc]
    refine (hkeys _ List.mem_cons_self).bind ?_
    simp only
    rw [if_neg hnew]
    refine (hvalues _ List.mem_cons_self).bind ?_
    rw [addField_concat _ hprefix]
    exact hrest

theorem reads_items {inner : CborReader CborValue} {items : List CborValue}
    (h : ∀ v ∈ items, ByteReader.Reads inner (encoding v) v.dropUndefined) :
    ByteReader.Reads (ByteReader.repeated inner items.length) (items.map encoding).flatten
      (items.map CborValue.dropUndefined) := by
  have hall : List.Forall₂ (ByteReader.Reads inner) (items.map encoding)
      (items.map CborValue.dropUndefined) := by
    rw [List.forall₂_map_left_iff, List.forall₂_map_right_iff, List.forall₂_same]
    exact h
  have := ByteReader.Reads.repeated hall
  rwa [List.length_map] at this

/-- The decoder reads what the encoder writes. -/
theorem reads_encoding {depth : Nat} {v : CborValue} (h : Encodable options depth v)
    (hwf : v.Wf) : ByteReader.Reads (readItem options (options.maxDepth.val + 1 - depth))
      (encoding v) v.dropUndefined := by
  induction h with
  | null hdepth =>
    rw [Nat.succ_sub hdepth]
    exact @reads_simple options _ 22 (by decide) .null rfl
  | bool hdepth b =>
    rw [Nat.succ_sub hdepth]
    cases b
    · exact @reads_simple options _ 20 (by decide) (.bool false) rfl
    · exact @reads_simple options _ 21 (by decide) (.bool true) rfl
  | number hdepth hx =>
    rw [Nat.succ_sub hdepth]
    exact reads_number hx
  | string hdepth hs =>
    rw [Nat.succ_sub hdepth]
    exact reads_text hs
  | bytes hdepth hbs =>
    rw [Nat.succ_sub hdepth]
    obtain ⟨info, bs', hinfo, hbytes, hlength⟩ :=
      reads_length options.maxByteLength.property 2 _ "byte string" hbs
    rw [encoding, hbytes, List.cons_append]
    exact reads_item (by decide) hinfo
      (hlength.bind ((ByteReader.Reads.take rfl _).map (.pure _)))
  | array hdepth hlen hitems ih =>
    rw [Nat.succ_sub hdepth]
    obtain ⟨info, bs', hinfo, hbytes, hlength⟩ :=
      reads_length options.maxContainerLength.property 4 _ "array" hlen
    rw [encoding, hbytes, List.cons_append, encodingItems_eq, CborValue.dropUndefined,
      CborValue.dropUndefinedItems_eq]
    refine reads_item (by decide) hinfo (hlength.bind ((reads_items fun v hv => ?_).map (.pure _)))
    have := ih v hv (hwf.item v hv)
    rwa [Nat.add_sub_add_right] at this
  | @object depth fields hdepth hlen hkeys hvalues ih =>
    rw [Nat.succ_sub hdepth]
    obtain ⟨info, bs', hinfo, hbytes, hlength⟩ :=
      reads_length options.maxContainerLength.property 5 _ "map" hlen
    rw [encoding, hbytes, List.cons_append, encodingEntries_eq, CborValue.dropUndefined,
      CborValue.dropUndefinedFields_eq]
    have hentries : ∀ f ∈ CborValue.entries fields, f ∈ fields := fun f hf =>
      (List.mem_filter.mp hf).1
    have horder : OwnOrder ((CborValue.entries fields).map Prod.fst) :=
      hwf.ownOrder.sublist (List.filter_sublist.map Prod.fst)
    refine reads_item (by decide) hinfo (hlength.bind
      ((@reads_entries _ _ [] horder (fun f hf => ?_) fun f hf => ?_).map (.pure _)))
    · -- there is a value at the depth below, so there is a level left for the key
      have hlevel := (hvalues f hf).depth_le
      obtain ⟨levels, hlevels⟩ : ∃ levels, options.maxDepth.val - depth = levels + 1 :=
        ⟨options.maxDepth.val - depth - 1, by omega⟩
      rw [hlevels]
      exact reads_text (hkeys f hf)
    · have := ih f hf (hwf.field f (hentries f hf))
      rwa [Nat.add_sub_add_right] at this

/-! ## The two laws -/

theorem decode_encode {v : CborValue} (hwf : v.Wf) {options : CborOptions}
    {bs : List UInt8} (h : encodeCbor v options = .ok bs) :
    decodeCbor bs options = .ok v.dropUndefined := by
  obtain ⟨resolved, hoptions, hv, hlen, rfl⟩ := encodeCbor_ok_iff.mp h
  have hreads := reads_encoding hv hwf []
  rw [List.append_nil, Nat.sub_zero] at hreads
  unfold decodeCbor
  rw [hoptions]
  show (if _ then _ else _) = _
  rw [if_neg (Nat.not_lt.mpr hlen), hreads]
  rfl

/-- What is encoded is decoded to the value without its undefined properties. -/
theorem decodeCbor_encodeCbor {v : CborValue} (hwf : v.Wf) {options : CborOptions}
    {bs : List UInt8} (h : encodeCbor v options = .ok bs) :
    decodeCbor bs options = .ok v.dropUndefined :=
  decode_encode hwf h

/-- A value whose keys, number and text are none of the simple ones, with a property that
is not sent. -/
def sampleValue : CborValue :=
  .object false [(js "7", .number .negZero), (js "omitted", .undefined),
    (js "__proto__", .array [.bytes [1, 2], .string (js "\uFEFF"),
      .number (.ofBits 0x3ff199999999999a), .number (.ofSafe ⟨-1000, by decide⟩)])]

theorem wf_sampleValue : sampleValue.Wf := by
  have hitems : ∀ v ∈ [CborValue.bytes [1, 2], .string (js "\uFEFF"),
      .number (.ofBits 0x3ff199999999999a), .number (.ofSafe ⟨-1000, by decide⟩)], v.Wf := by
    simp only [List.forall_mem_cons]
    exact ⟨.bytes _, .string _, .number _, .number _, nofun⟩
  refine .object (by decide) ?_
  simp only [List.forall_mem_cons]
  exact ⟨.number _, .undefined, .array hitems, nofun⟩

theorem decodeCbor_encodeCbor_sample :
    decodeCbor [0xa2, 0x61, 0x37, 0xfb, 0x80, 0, 0, 0, 0, 0, 0, 0, 0x69, 0x5f, 0x5f, 0x70, 0x72,
      0x6f, 0x74, 0x6f, 0x5f, 0x5f, 0x84, 0x42, 1, 2, 0x63, 0xef, 0xbb, 0xbf, 0xfb, 0x3f, 0xf1,
      0x99, 0x99, 0x99, 0x99, 0x99, 0x9a, 0x39, 3, 0xe7] {} = .ok sampleValue.dropUndefined :=
  decodeCbor_encodeCbor wf_sampleValue (by decide +kernel)

/-- What was read off is a value to encode, in no more bytes. -/
theorem decodeCbor_ok {v : CborValue} {options : CborOptions} {bs : List UInt8}
    (h : decodeCbor bs options = .ok v) : ∃ resolved, resolveOptions options = .ok resolved ∧
      bs.length ≤ resolved.maxByteLength.val ∧ Returned resolved 0 bs v := by
  obtain ⟨resolved, hoptions, h⟩ := Except.bind_eq_ok.mp h
  split at h
  · cases h
  · rename_i hlen
    obtain ⟨⟨value, rest⟩, hread, hrest⟩ := Except.bind_eq_ok.mp h
    simp only at hrest
    split at hrest
    · cases hrest
    · rename_i hnil
      obtain rfl : value = v := Except.ok.inj hrest
      obtain rfl : rest = [] := not_not.mp hnil
      obtain ⟨used, rfl, hreturned⟩ := readItem_ok (Nat.le_refl _) _ _ _ hread
      rw [Nat.sub_self] at hreturned
      rw [List.append_nil]
      rw [List.append_nil] at hlen
      exact ⟨resolved, hoptions, Nat.not_lt.mp hlen, hreturned⟩

/-- What is decoded can be encoded, in no more bytes, and is decoded again. -/
theorem encodeCbor_decodeCbor {v : CborValue} {options : CborOptions} {bs : List UInt8}
    (h : decodeCbor bs options = .ok v) : ∃ bs', encodeCbor v options = .ok bs' ∧
      bs'.length ≤ bs.length ∧ decodeCbor bs' options = .ok v := by
  obtain ⟨resolved, hoptions, hlen, hv⟩ := decodeCbor_ok h
  have hencode : encodeCbor v options = .ok (encoding v) := encodeCbor_ok_iff.mpr
    ⟨resolved, hoptions, hv.encodable, hv.length.trans hlen, rfl⟩
  have hdecode := decode_encode hv.wf hencode
  rw [hv.dropUndefined] at hdecode
  exact ⟨encoding v, hencode, hv.length, hdecode⟩

/-- An array with a length, an integer and a float that the encoder writes shorter. -/
theorem encodeCbor_decodeCbor_wide :
    ∃ v bs', encodeCbor v {} = .ok bs' ∧ bs'.length ≤ 16 ∧ decodeCbor bs' {} = .ok v := by
  have hok : (decodeCbor [0x9a, 0, 0, 0, 2, 0xfb, 0x3f, 0xf0, 0, 0, 0, 0, 0, 0, 0x18, 1]
      {}).isOk = true := by decide
  match hv : decodeCbor [0x9a, 0, 0, 0, 2, 0xfb, 0x3f, 0xf0, 0, 0, 0, 0, 0, 0, 0x18, 1] {} with
  | .ok v => exact ⟨v, encodeCbor_decodeCbor hv⟩
  | .error e =>
    rw [hv] at hok
    cases hok

end PiMono.Protocol
