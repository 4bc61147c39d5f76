import NixStrixHalo.LlamaRdma.Endpoint

/-!
# The frame header as a codec

The header's round trip in both directions, for every chunk size that a connection can have: what
was written is read back exactly, and a header that is accepted is the encoding of the values that
it is read as (`frameCodec`).

## Reading only the header

Reading looks at the first 24 bytes and at nothing else (`rdmaReadFrameHeader_take`), so the second
round trip is about these bytes: what stands behind them is payload, or whatever the buffer held.

## Data and acknowledgements

The length word tells data frames and acknowledgements apart, because no payload of a connection is
as long as the sentinel: `RdmaConfig` bounds the chunk size, and a payload is shorter than a chunk.
The checks of a receiver come in a fixed order, so a frame is never both (`not_isAck_classify`,
`not_isData_classify`).
-/

namespace LlamaRdma

open BigEndian

/-! ### Reading depends on the header only -/

/-- Four bytes are enough for the load. -/
theorem rdmaLoadU32Be_take {src : List UInt8} {n : ℕ} (h : 4 ≤ n) :
    rdmaLoadU32Be (src.take n) = rdmaLoadU32Be src := by
  simp [rdmaLoadU32Be, List.getD_eq_getElem?_getD, show 0 < n by omega,
    show 1 < n by omega, show 2 < n by omega, show 3 < n by omega]

/-- Eight bytes are enough for the load. -/
theorem rdmaLoadU64Be_take {src : List UInt8} {n : ℕ} (h : 8 ≤ n) :
    rdmaLoadU64Be (src.take n) = rdmaLoadU64Be src := by
  rw [rdmaLoadU64Be, rdmaLoadU64Be, List.take_take, Nat.min_eq_left h]

/-- Only the bytes of the header are read. -/
theorem rdmaReadFrameHeader_take (buf : List UInt8) :
    rdmaReadFrameHeader (buf.take rdmaFrameHeader) = rdmaReadFrameHeader buf := by
  have hmagic : rdmaLoadU32Be (buf.take rdmaFrameHeader) = rdmaLoadU32Be buf :=
    rdmaLoadU32Be_take (by decide)
  have hlength :
      rdmaLoadU32Be ((buf.take rdmaFrameHeader).drop 4) = rdmaLoadU32Be (buf.drop 4) := by
    rw [List.drop_take]
    exact rdmaLoadU32Be_take (by decide)
  have hseq : rdmaLoadU64Be ((buf.take rdmaFrameHeader).drop 8) = rdmaLoadU64Be (buf.drop 8) := by
    rw [List.drop_take]
    exact rdmaLoadU64Be_take (by decide)
  have hcookie :
      rdmaLoadU64Be ((buf.take rdmaFrameHeader).drop 16) = rdmaLoadU64Be (buf.drop 16) := by
    rw [List.drop_take]
    exact rdmaLoadU64Be_take (by decide)
  rw [rdmaReadFrameHeader, rdmaReadFrameHeader, hmagic, hlength, hseq, hcookie]

/-- The header's bytes are in the buffer. -/
def HasHeader (buf : List UInt8) (payloadSize seq cookie : ℕ) : Prop :=
  ∃ dst, buf.take rdmaFrameHeader =
    (rdmaWriteFrameHeader dst payloadSize seq cookie).take rdmaFrameHeader

/-- A header that is there is read. -/
theorem rdmaReadFrameHeader_of_hasHeader {buf : List UInt8} {payloadSize seq cookie : ℕ}
    (h : HasHeader buf payloadSize seq cookie) :
    rdmaReadFrameHeader buf = some
      { payloadSize := payloadSize % 2 ^ 32
        seq := seq % 2 ^ 64
        cookie := cookie % 2 ^ 64 } := by
  obtain ⟨dst, hdst⟩ := h
  rw [← rdmaReadFrameHeader_take, hdst, rdmaReadFrameHeader_take, rdmaReadFrameHeader_write]

/-! ### A header that is accepted -/

/-- A loaded number is stored as it was. -/
theorem rdmaStoreU32Be_load {src : List UInt8} (h : 4 ≤ src.length) :
    rdmaStoreU32Be (rdmaLoadU32Be src) = src.take 4 := by
  have hdecode := encode_decode (src.take 4)
  rw [List.length_take, Nat.min_eq_left h] at hdecode
  rw [rdmaStoreU32Be_eq_encode, rdmaLoadU32Be_eq_decode h, hdecode]

/-- A loaded number is stored as it was. -/
theorem rdmaStoreU64Be_load {src : List UInt8} (h : 8 ≤ src.length) :
    rdmaStoreU64Be (rdmaLoadU64Be src) = src.take 8 := by
  have hdecode := encode_decode (src.take 8)
  rw [List.length_take, Nat.min_eq_left h] at hdecode
  rw [rdmaStoreU64Be_eq_encode, rdmaLoadU64Be_eq_decode, hdecode]

/-- The header is four fields one after the other. -/
theorem take_rdmaWriteFrameHeader (dst : List UInt8) (payloadSize seq cookie : ℕ) :
    (rdmaWriteFrameHeader dst payloadSize seq cookie).take rdmaFrameHeader =
      rdmaStoreU32Be rdmaFrameMagic ++ (rdmaStoreU32Be payloadSize ++ (rdmaStoreU64Be seq ++
        rdmaStoreU64Be cookie)) := by
  rw [rdmaWriteFrameHeader, List.take_left' (by simp [rdmaFrameHeader])]
  simp only [List.append_assoc]

/-- The four words of a header, one after the other. -/
theorem take_rdmaFrameHeader (buf : List UInt8) : buf.take rdmaFrameHeader =
    buf.take 4 ++ ((buf.drop 4).take 4 ++ ((buf.drop 8).take 8 ++ (buf.drop 16).take 8)) := by
  rw [show rdmaFrameHeader = 4 + (4 + (8 + 8)) from rfl, List.take_add, List.take_add,
    List.take_add, List.drop_drop, List.drop_drop]

/-- **A header that is accepted** is the encoding of the values that it is read as. -/
theorem hasHeader_of_rdmaReadFrameHeader {buf : List UInt8} {header : FrameHeader}
    (hlen : rdmaFrameHeader ≤ buf.length) (h : rdmaReadFrameHeader buf = some header) :
    HasHeader buf header.payloadSize header.seq header.cookie := by
  rw [rdmaFrameHeader] at hlen
  rw [rdmaReadFrameHeader] at h
  split at h
  · cases h
  next hmagic =>
    obtain rfl := Option.some.inj h
    -- the magic word was compared, and each of the other words was loaded from its bytes
    refine ⟨[], ?_⟩
    rw [take_rdmaWriteFrameHeader, take_rdmaFrameHeader, ← not_not.1 hmagic,
      rdmaStoreU32Be_load (by omega), rdmaStoreU32Be_load (by rw [List.length_drop]; omega),
      rdmaStoreU64Be_load (by rw [List.length_drop]; omega),
      rdmaStoreU64Be_load (by rw [List.length_drop]; omega)]

/-! ### Data frames and acknowledgements -/

/-- The frame is taken for a data frame. -/
def RxFrame.IsData : RxFrame → Prop
  | .duplicate _ | .outOfOrder _ | .inOrder _ _ => True
  | _ => False

/-- The frame is taken for an acknowledgement. -/
def RxFrame.IsAck : RxFrame → Prop
  | .ack _ => True
  | _ => False

variable {cfg : RdmaConfig} {buf : List UInt8} {header : FrameHeader}

/-- The length word decides what a frame is taken for. -/
theorem not_isAck_classify (h : rdmaReadFrameHeader buf = some header)
    (hack : ¬ rdmaFrameIsAck header.payloadSize) (rxSeq byteLen : ℕ) :
    ¬ (classify cfg rxSeq buf byteLen).IsAck := by
  simp only [classify, h, if_neg hack]
  repeat' split
  all_goals exact not_false

/-- The frame of an acknowledgement is never taken for data. -/
theorem not_isData_classify (h : rdmaReadFrameHeader buf = some header)
    (hack : rdmaFrameIsAck header.payloadSize) (rxSeq byteLen : ℕ) :
    ¬ (classify cfg rxSeq buf byteLen).IsData := by
  simp only [classify, h, if_pos hack]
  repeat' split
  all_goals exact not_false

/-- A payload that fits a frame is not mistaken for the mark of an acknowledgement. -/
theorem not_rdmaFrameIsAck_of_le {payloadSize : ℕ} (h : payloadSize ≤ cfg.framePayloadSize) :
    ¬ rdmaFrameIsAck payloadSize :=
  (h.trans_lt cfg.framePayloadSize_lt_ack).ne

/-! ### The codec -/

/-- **The frame header codec**, for every chunk size that a fixed-frame connection can have: both
directions of the round trip, the two kinds of frames told apart, and a send loop that advances
whenever bytes remain. -/
theorem frameCodec (cfg : RdmaConfig) :
    (∀ buf payloadSize seq cookie, payloadSize ≤ cfg.framePayloadSize → seq < 2 ^ 64 →
      cookie < 2 ^ 64 → HasHeader buf payloadSize seq cookie →
        rdmaReadFrameHeader buf = some { payloadSize, seq, cookie } ∧
          ¬ rdmaFrameIsAck payloadSize ∧
          ∀ rxSeq byteLen, ¬ (classify cfg rxSeq buf byteLen).IsAck) ∧
    (∀ buf seq cookie, seq < 2 ^ 64 → cookie < 2 ^ 64 → HasHeader buf rdmaFrameAck seq cookie →
        rdmaReadFrameHeader buf = some { payloadSize := rdmaFrameAck, seq, cookie } ∧
          rdmaFrameIsAck rdmaFrameAck ∧ cfg.framePayloadSize < rdmaFrameAck ∧
          ∀ rxSeq byteLen, ¬ (classify cfg rxSeq buf byteLen).IsData) ∧
    (∀ buf header, rdmaFrameHeader ≤ buf.length → rdmaReadFrameHeader buf = some header →
      HasHeader buf header.payloadSize header.seq header.cookie) ∧
    1 ≤ cfg.framePayloadSize ∧
    ∀ (e : Endpoint) (w : SendCall), w.src ≠ [] → ∃ rest, rest.length < w.src.length ∧
      (e.sendNext cfg w).pc = .sendLoop rest := by
  refine ⟨?_, ?_, fun _ _ ↦ hasHeader_of_rdmaReadFrameHeader, cfg.framePayloadSize_pos, ?_⟩
  · intro buf payloadSize seq cookie hpayload hseq hcookie hheader
    have hack := not_rdmaFrameIsAck_of_le hpayload
    have hread := rdmaReadFrameHeader_of_hasHeader hheader
    have hlt : payloadSize < 2 ^ 32 :=
      (hpayload.trans_lt cfg.framePayloadSize_lt_ack).trans (by decide)
    rw [Nat.mod_eq_of_lt hlt, Nat.mod_eq_of_lt hseq, Nat.mod_eq_of_lt hcookie] at hread
    exact ⟨hread, hack, not_isAck_classify hread hack⟩
  · intro buf seq cookie hseq hcookie hheader
    have hread := rdmaReadFrameHeader_of_hasHeader hheader
    rw [Nat.mod_eq_of_lt (show rdmaFrameAck < 2 ^ 32 by decide), Nat.mod_eq_of_lt hseq,
      Nat.mod_eq_of_lt hcookie] at hread
    exact ⟨hread, rfl, cfg.framePayloadSize_lt_ack, not_isData_classify hread rfl⟩
  · intro e w hsrc
    refine ⟨w.src.drop (Endpoint.chunkLen cfg w.src), ?_, rfl⟩
    have hpos : 0 < Endpoint.chunkLen cfg w.src :=
      lt_min (List.length_pos_iff.2 hsrc) cfg.framePayloadSize_pos
    rw [List.length_drop]
    exact Nat.sub_lt (List.length_pos_iff.2 hsrc) hpos

/-- A frame of one byte. -/
theorem frameCodec_small :
    rdmaReadFrameHeader (dataFrame smallConfig 3 [0x41]) =
      some { payloadSize := 1, seq := 3, cookie := 7 } :=
  ((frameCodec smallConfig).1 _ 1 3 7 (by decide) (by decide) (by decide) ⟨_, rfl⟩).1

end LlamaRdma
