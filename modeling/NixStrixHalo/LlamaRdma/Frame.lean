import NixStrixHalo.Library.BigEndian

/-!
# Fixed frames and their header

The header of a fixed frame as `rdma_write_frame_header` lays it out and `rdma_read_frame_header`
reads it back: a magic number, the payload length, a sequence number and the connection's cookie,
all big-endian, in the first `RDMA_FRAME_HEADER` = 24 bytes of the frame. An acknowledgement is a
frame whose length word is `0xffffffff`.

## Bytes and words

Lengths and sequence numbers are natural numbers; storing one keeps its low 32 or 64 bits, as the
C++ conversions do. The stores and loads are written with the shifts of the source, and each is
the big-endian encoding of its width (`rdmaStoreU32Be_eq_encode`, `rdmaLoadU64Be_eq_decode`), so
that nothing behind this point looks at a shift.

## The round trip

`rdmaReadFrameHeader_write` reads a header back from the frame that it was written to, whatever
follows it there. The receiver compares neither the length nor the cookie at this point: a frame of
another connection is read as well, and told apart by `classify`.
-/

namespace LlamaRdma

open BigEndian

/-- `RDMA_FRAME_HEADER`: magic, payload length, sequence and cookie. -/
def rdmaFrameHeader : ℕ := 24

/-- `RDMA_FRAME_MAGIC`, the bytes `RDMA`. -/
def rdmaFrameMagic : ℕ := 0x52444d41

/-- `RDMA_FRAME_ACK`, the length word of an acknowledgement. -/
def rdmaFrameAck : ℕ := 0xffffffff

/-- `rdma_store_u32_be`: the four bytes written. -/
def rdmaStoreU32Be (value : ℕ) : List UInt8 :=
  [UInt8.ofNat (value >>> 24), UInt8.ofNat (value >>> 16), UInt8.ofNat (value >>> 8),
    UInt8.ofNat value]

/-- `rdma_load_u32_be`. -/
def rdmaLoadU32Be (src : List UInt8) : ℕ :=
  (src.getD 0 0).toNat <<< 24 ||| (src.getD 1 0).toNat <<< 16 ||| (src.getD 2 0).toNat <<< 8 |||
    (src.getD 3 0).toNat

/-- `rdma_store_u64_be`: the eight bytes written, from `i = 7` down to `i = 0`. -/
def rdmaStoreU64Be (value : ℕ) : List UInt8 :=
  [7, 6, 5, 4, 3, 2, 1, 0].map fun i ↦ UInt8.ofNat (value >>> (i * 8))

/-- `rdma_load_u64_be`: the accumulator is shifted left by a byte and the next byte or-ed in. -/
def rdmaLoadU64Be (src : List UInt8) : ℕ :=
  (src.take 8).foldl (fun value b ↦ value <<< 8 ||| b.toNat) 0

/-- `rdma_write_frame_header` on a buffer `dst`. -/
def rdmaWriteFrameHeader (dst : List UInt8) (payloadSize seq cookie : ℕ) : List UInt8 :=
  rdmaStoreU32Be rdmaFrameMagic ++ rdmaStoreU32Be payloadSize ++ rdmaStoreU64Be seq ++
    rdmaStoreU64Be cookie ++ dst.drop rdmaFrameHeader

/-- What `rdma_read_frame_header` returns through its pointers. -/
structure FrameHeader where
  payloadSize : ℕ
  seq : ℕ
  cookie : ℕ
  deriving DecidableEq, Repr

/-- `rdma_read_frame_header`; `none` is its `false`, a wrong magic. -/
def rdmaReadFrameHeader (src : List UInt8) : Option FrameHeader :=
  if rdmaLoadU32Be src ≠ rdmaFrameMagic then none
  else some
    { payloadSize := rdmaLoadU32Be (src.drop 4)
      seq := rdmaLoadU64Be (src.drop 8)
      cookie := rdmaLoadU64Be (src.drop 16) }

/-- `rdma_frame_is_ack`. -/
def rdmaFrameIsAck (payloadSize : ℕ) : Prop := payloadSize = rdmaFrameAck

instance (n : ℕ) : Decidable (rdmaFrameIsAck n) := inferInstanceAs (Decidable (n = rdmaFrameAck))

/-! ### Stores and loads are big-endian -/

/-- The four stores are the big-endian encoding. -/
theorem rdmaStoreU32Be_eq_encode (value : ℕ) : rdmaStoreU32Be value = encode 4 value := by
  simp [rdmaStoreU32Be, encode, Nat.shiftRight_eq_div_pow]

/-- The eight stores are the big-endian encoding. -/
theorem rdmaStoreU64Be_eq_encode (value : ℕ) : rdmaStoreU64Be value = encode 8 value := by
  simp [rdmaStoreU64Be, encode, Nat.shiftRight_eq_div_pow]

@[simp] theorem length_rdmaStoreU32Be (value : ℕ) : (rdmaStoreU32Be value).length = 4 := rfl

@[simp] theorem length_rdmaStoreU64Be (value : ℕ) : (rdmaStoreU64Be value).length = 8 := rfl

/-- Or-ing a byte into a freshly shifted accumulator adds it. -/
theorem shiftLeft_or_toNat (a : ℕ) (b : UInt8) : a <<< 8 ||| b.toNat = a * 256 + b.toNat := by
  rw [← Nat.shiftLeft_add_eq_or_of_lt (i := 8) b.toNat_lt, Nat.shiftLeft_eq]

/-- Eight bytes are loaded in big-endian order. -/
theorem rdmaLoadU64Be_eq_decode (src : List UInt8) : rdmaLoadU64Be src = decode (src.take 8) := by
  simp only [rdmaLoadU64Be, decode, shiftLeft_or_toNat]

/-- Four bytes are loaded in big-endian order. -/
theorem rdmaLoadU32Be_eq_decode {src : List UInt8} (h : 4 ≤ src.length) :
    rdmaLoadU32Be src = decode (src.take 4) := by
  match src, h with
  | b₀ :: b₁ :: b₂ :: b₃ :: rest, _ =>
    have hfold : rdmaLoadU32Be (b₀ :: b₁ :: b₂ :: b₃ :: rest) =
        ((b₀.toNat <<< 8 ||| b₁.toNat) <<< 8 ||| b₂.toNat) <<< 8 ||| b₃.toNat := by
      simp [rdmaLoadU32Be, Nat.shiftLeft_or_distrib, ← Nat.shiftLeft_add]
    rw [hfold]
    simp [shiftLeft_or_toNat, decode]

/-- A stored number is loaded again, up to its word size. -/
theorem rdmaLoadU32Be_store (value : ℕ) (rest : List UInt8) :
    rdmaLoadU32Be (rdmaStoreU32Be value ++ rest) = value % 2 ^ 32 := by
  rw [rdmaLoadU32Be_eq_decode (by simp), List.take_left' (length_rdmaStoreU32Be value),
    rdmaStoreU32Be_eq_encode, decode_encode]
  rfl

/-- A stored number is loaded again, up to its word size. -/
theorem rdmaLoadU64Be_store (value : ℕ) (rest : List UInt8) :
    rdmaLoadU64Be (rdmaStoreU64Be value ++ rest) = value % 2 ^ 64 := by
  rw [rdmaLoadU64Be_eq_decode, List.take_left' (length_rdmaStoreU64Be value),
    rdmaStoreU64Be_eq_encode, decode_encode]
  rfl

/-! ### The header codec -/

/-- The header is written over the buffer, which keeps its length if it has room. -/
@[simp] theorem length_rdmaWriteFrameHeader (dst : List UInt8) (payloadSize seq cookie : ℕ) :
    (rdmaWriteFrameHeader dst payloadSize seq cookie).length =
      rdmaFrameHeader + (dst.length - rdmaFrameHeader) := by
  simp [rdmaWriteFrameHeader, rdmaFrameHeader]
  omega

/-- The bytes after the header are the buffer's own. -/
@[simp] theorem drop_rdmaWriteFrameHeader (dst : List UInt8) (payloadSize seq cookie : ℕ) :
    (rdmaWriteFrameHeader dst payloadSize seq cookie).drop rdmaFrameHeader =
      dst.drop rdmaFrameHeader := by
  rw [rdmaWriteFrameHeader]
  exact List.drop_left' rfl

/-- **Round trip**: a header that was written is read back, up to the width of its fields. -/
theorem rdmaReadFrameHeader_write (dst : List UInt8) (payloadSize seq cookie : ℕ) :
    rdmaReadFrameHeader (rdmaWriteFrameHeader dst payloadSize seq cookie) =
      some
        { payloadSize := payloadSize % 2 ^ 32
          seq := seq % 2 ^ 64
          cookie := cookie % 2 ^ 64 } := by
  have hmagic : rdmaLoadU32Be (rdmaWriteFrameHeader dst payloadSize seq cookie) =
      rdmaFrameMagic := by
    simp only [rdmaWriteFrameHeader, List.append_assoc]
    exact rdmaLoadU32Be_store _ _
  have h4 : (rdmaWriteFrameHeader dst payloadSize seq cookie).drop 4 =
      rdmaStoreU32Be payloadSize ++ (rdmaStoreU64Be seq ++
        (rdmaStoreU64Be cookie ++ dst.drop rdmaFrameHeader)) := by
    simp only [rdmaWriteFrameHeader, List.append_assoc]
    exact List.drop_left' rfl
  have h8 : (rdmaWriteFrameHeader dst payloadSize seq cookie).drop 8 =
      rdmaStoreU64Be seq ++ (rdmaStoreU64Be cookie ++ dst.drop rdmaFrameHeader) := by
    rw [show (8 : ℕ) = 4 + 4 from rfl, ← List.drop_drop, h4]
    exact List.drop_left' rfl
  have h16 : (rdmaWriteFrameHeader dst payloadSize seq cookie).drop 16 =
      rdmaStoreU64Be cookie ++ dst.drop rdmaFrameHeader := by
    rw [show (16 : ℕ) = 8 + 8 from rfl, ← List.drop_drop, h8]
    exact List.drop_left' rfl
  simp only [rdmaReadFrameHeader, hmagic, h4, h8, h16, rdmaLoadU32Be_store, rdmaLoadU64Be_store,
    ne_eq, not_true_eq_false, if_false]

end LlamaRdma
