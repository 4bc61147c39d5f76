import Mathlib.Data.List.Basic
import NixStrixHalo.LlamaRdma.Frame

/-!
# The settings of a fixed-frame connection

`rdma_probe` reads its settings from the environment through a family of parsers that differ only in
the variable, the admitted range and the default; they are instances of `envBounded` here, each
under the name it has in the source.

## What a setting may be

The result is an `RdmaConfig`, which carries the ranges the parsers and the probe guarantee as
fields, so that the rest of the development quantifies over `RdmaConfig` and over nothing else:
`rdmaProbe` is the only place where a setting is checked or clamped. Two of the fields come from the
probe and not from a parser: the ACK period is at most the window, and a chunk has room for a header
and a byte of payload (`framePayloadSize_pos`).

Nothing relates the window to the number of posted receives, here as in the source.

## Connections for the examples

The configurations at the end are the ones that the runs below use. They are small, so that a run
can be evaluated, and each of them is within the ranges of the parsers.
-/

namespace LlamaRdma

/-! ### Parsing an environment variable -/

/-- The characters `isspace` accepts in the C locale. -/
def isSpace (c : Char) : Bool := c == ' ' || ('\t' ≤ c && c ≤ '\r')

/-- `strtoul(env, &end, 10)` on the whole of `env`: `some` of the value when `errno` stays `0`, at
least one digit is read and `*end` is the terminator. Leading blanks and a sign are accepted, and a
minus negates modulo `2 ^ 64`. -/
def strtoul (env : List Char) : Option ℕ :=
  let s := env.dropWhile isSpace
  let (neg, digits) := match s with
    | '-' :: t => (true, t)
    | '+' :: t => (false, t)
    | t => (false, t)
  if digits = [] ∨ ¬ digits.all Char.isDigit then none
  else
    let n := digits.foldl (fun acc c ↦ acc * 10 + (c.toNat - '0'.toNat)) 0
    if 2 ^ 64 ≤ n then none else some (if neg then (2 ^ 64 - n) % 2 ^ 64 else n)

/-- The shape shared by the numeric parsers: an unset or empty variable, or one whose value is
rejected, gives the default. -/
def envBounded (env : Option (List Char)) (fallback lo hi : ℕ) : ℕ :=
  match env with
  | none => fallback
  | some [] => fallback
  | some s =>
    match strtoul s with
    | none => fallback
    | some parsed => if parsed < lo ∨ hi < parsed then fallback else parsed

/-- A flag that is on unless it is set to `0`. -/
def envOnUnlessZero (env : Option (List Char)) : Bool := decide (env ≠ some ['0'])

/-- A flag that is off unless it is set, and not to `0`. -/
def envOffUnlessSet (env : Option (List Char)) : Bool :=
  decide (env ≠ none) && decide (env ≠ some ['0'])

/-- Every parser stays in its range when its default does. -/
theorem envBounded_mem {env : Option (List Char)} {fallback lo hi : ℕ} (hlo : lo ≤ fallback)
    (hhi : fallback ≤ hi) :
    lo ≤ envBounded env fallback lo hi ∧ envBounded env fallback lo hi ≤ hi := by
  unfold envBounded
  split
  · exact ⟨hlo, hhi⟩
  · exact ⟨hlo, hhi⟩
  · split
    · exact ⟨hlo, hhi⟩
    · split <;> omega

/-- The environment `rdma_probe` reads, one field for each variable. -/
structure RdmaEnv where
  chunkSize : Option (List Char) := none
  rxDepth : Option (List Char) := none
  txDepth : Option (List Char) := none
  ackRetries : Option (List Char) := none
  ackEvery : Option (List Char) := none
  ackWindow : Option (List Char) := none
  frameAck : Option (List Char) := none
  sendFrameAck : Option (List Char) := none
  waitFrameAck : Option (List Char) := none
  sharedCq : Option (List Char) := none

/-- `MAX_CHUNK_SIZE`, 1 GiB. -/
def maxChunkSize : ℕ := 1024 * 1024 * 1024

/-- `rdma_chunk_size`. -/
def rdmaChunkSize (env : RdmaEnv) : ℕ := envBounded env.chunkSize (4 * 1024) 1 maxChunkSize

/-- `rdma_rx_depth`. -/
def rdmaRxDepth (env : RdmaEnv) : ℕ := envBounded env.rxDepth 1020 1 65535

/-- `rdma_tx_depth`. -/
def rdmaTxDepth (env : RdmaEnv) (fallback : ℕ) : ℕ := envBounded env.txDepth fallback 1 65535

/-- `rdma_ack_retries`. -/
def rdmaAckRetries (env : RdmaEnv) : ℕ := envBounded env.ackRetries 10 0 1000000

/-- `rdma_ack_every`. -/
def rdmaAckEvery (env : RdmaEnv) : ℕ := envBounded env.ackEvery 1 1 65535

/-- `rdma_ack_window`. -/
def rdmaAckWindow (env : RdmaEnv) : ℕ := envBounded env.ackWindow 1 1 65535

/-- `rdma_frame_ack_enabled`. -/
def rdmaFrameAckEnabled (env : RdmaEnv) : Bool := envOnUnlessZero env.frameAck

/-- `rdma_send_frame_ack_enabled`. -/
def rdmaSendFrameAckEnabled (env : RdmaEnv) : Bool := envOnUnlessZero env.sendFrameAck

/-- `rdma_wait_frame_ack_enabled`. -/
def rdmaWaitFrameAckEnabled (env : RdmaEnv) : Bool := envOnUnlessZero env.waitFrameAck

/-- `rdma_shared_cq`. -/
def rdmaSharedCq (env : RdmaEnv) : Bool := envOffUnlessSet env.sharedCq

/-! ### The probed connection -/

/-- The settings of one endpoint of a fixed-frame connection after `rdma_probe` and `update_caps`,
with the ranges they are in. -/
structure RdmaConfig where
  chunkSize : ℕ
  rxDepth : ℕ
  txDepth : ℕ
  ackRetries : ℕ
  ackEvery : ℕ
  ackWindow : ℕ
  sendFrameAck : Bool
  waitFrameAck : Bool
  sharedCq : Bool
  txCookie : ℕ
  rxCookie : ℕ
  header_lt_chunkSize : rdmaFrameHeader < chunkSize
  chunkSize_le : chunkSize ≤ maxChunkSize
  rxDepth_pos : 1 ≤ rxDepth
  rxDepth_le : rxDepth ≤ 65535
  txDepth_pos : 1 ≤ txDepth
  txDepth_le : txDepth ≤ 65535
  ackRetries_le : ackRetries ≤ 1000000
  ackEvery_pos : 1 ≤ ackEvery
  ackEvery_le : ackEvery ≤ ackWindow
  ackWindow_le : ackWindow ≤ 65535
  txCookie_lt : txCookie < 2 ^ 64
  rxCookie_lt : rxCookie < 2 ^ 64

namespace RdmaConfig

variable (cfg : RdmaConfig)

/-- `frame_payload_size`. -/
def framePayloadSize : ℕ := cfg.chunkSize - rdmaFrameHeader

/-- A frame carries at least one byte, so the send loop advances. -/
theorem framePayloadSize_pos : 0 < cfg.framePayloadSize :=
  Nat.sub_pos_of_lt cfg.header_lt_chunkSize

/-- A chunk is a header and a payload. -/
theorem header_add_framePayloadSize : rdmaFrameHeader + cfg.framePayloadSize = cfg.chunkSize :=
  Nat.add_sub_of_le (Nat.le_of_lt cfg.header_lt_chunkSize)

/-- No data frame's length word is the acknowledgement's. -/
theorem framePayloadSize_lt_ack : cfg.framePayloadSize < rdmaFrameAck := by
  have h := cfg.chunkSize_le
  simp only [framePayloadSize, maxChunkSize, rdmaFrameHeader, rdmaFrameAck] at *
  omega

/-- The window admits at least one frame. -/
theorem ackWindow_pos : 1 ≤ cfg.ackWindow := cfg.ackEvery_pos.trans cfg.ackEvery_le

end RdmaConfig

/-- The part of `rdma_probe` that fixes the settings of a fixed-frame connection: the ACK period is
clamped to the window, and a chunk that cannot hold a header fails the probe. The cookies are the
endpoint's own and the one `update_caps` takes from the peer. -/
def rdmaProbe (env : RdmaEnv) (txCookie rxCookie : ℕ) : Option RdmaConfig :=
  let chunkSize := rdmaChunkSize env
  let rxDepth := rdmaRxDepth env
  let defaultTxDepth := if rxDepth < 8192 then 8192 else rxDepth
  let frameAck := rdmaFrameAckEnabled env
  let ackWindow := rdmaAckWindow env
  let ackEvery := if ackWindow < rdmaAckEvery env then ackWindow else rdmaAckEvery env
  if h : rdmaFrameHeader < chunkSize ∧ txCookie < 2 ^ 64 ∧ rxCookie < 2 ^ 64 then
    have hrx : 1 ≤ rxDepth ∧ rxDepth ≤ 65535 := envBounded_mem (by omega) (by omega)
    have hfall : 1 ≤ defaultTxDepth ∧ defaultTxDepth ≤ 65535 := by
      simp only [defaultTxDepth]
      split <;> omega
    have htx := @envBounded_mem env.txDepth _ _ _ hfall.1 hfall.2
    have hwin : 1 ≤ ackWindow ∧ ackWindow ≤ 65535 := envBounded_mem (by omega) (by omega)
    have hevery : 1 ≤ rdmaAckEvery env ∧ rdmaAckEvery env ≤ 65535 :=
      envBounded_mem (by omega) (by omega)
    some
      { chunkSize, rxDepth, ackWindow, ackEvery, txCookie, rxCookie
        txDepth := rdmaTxDepth env defaultTxDepth
        ackRetries := rdmaAckRetries env
        sendFrameAck := frameAck && rdmaSendFrameAckEnabled env
        waitFrameAck := frameAck && rdmaWaitFrameAckEnabled env
        sharedCq := rdmaSharedCq env
        header_lt_chunkSize := h.1
        chunkSize_le := (envBounded_mem (by omega) (by simp [maxChunkSize])).2
        rxDepth_pos := hrx.1
        rxDepth_le := hrx.2
        txDepth_pos := htx.1
        txDepth_le := htx.2
        ackRetries_le := (envBounded_mem (by omega) (by omega)).2
        ackEvery_pos := by
          simp only [ackEvery]
          split <;> omega
        ackEvery_le := by
          simp only [ackEvery]
          split <;> omega
        ackWindow_le := hwin.2
        txCookie_lt := h.2.1
        rxCookie_lt := h.2.2 }
  else none

/-! ### Settings small enough to run by evaluation -/

/-- One byte to a frame. -/
def smallConfig : RdmaConfig where
  chunkSize := 25
  rxDepth := 4
  txDepth := 4
  ackRetries := 2
  ackEvery := 1
  ackWindow := 1
  sendFrameAck := true
  waitFrameAck := true
  sharedCq := false
  txCookie := 7
  rxCookie := 7
  header_lt_chunkSize := by decide
  chunkSize_le := by decide
  rxDepth_pos := by decide
  rxDepth_le := by decide
  txDepth_pos := by decide
  txDepth_le := by decide
  ackRetries_le := by decide
  ackEvery_pos := by decide
  ackEvery_le := by decide
  ackWindow_le := by decide
  txCookie_lt := by decide
  rxCookie_lt := by decide

/-- Two frames to a window. -/
def windowConfig : RdmaConfig :=
  { smallConfig with
    ackWindow := 2
    ackEvery_le := by decide
    ackWindow_le := by decide }

/-- An ACK for every second frame. -/
def pairedConfig : RdmaConfig :=
  { smallConfig with
    ackEvery := 2
    ackWindow := 2
    ackEvery_pos := by decide
    ackEvery_le := by decide
    ackWindow_le := by decide }

/-- Room for what both directions have under way. -/
def roomyConfig : RdmaConfig :=
  { smallConfig with
    rxDepth := 10
    rxDepth_pos := by decide
    rxDepth_le := by decide }

/-- A window of two over a single receive. -/
def shallowConfig : RdmaConfig :=
  { smallConfig with
    rxDepth := 1
    ackWindow := 2
    rxDepth_pos := by decide
    rxDepth_le := by decide
    ackEvery_le := by decide
    ackWindow_le := by decide }

/-- A transmit ring of one slot. -/
def singleConfig : RdmaConfig :=
  { smallConfig with
    txDepth := 1
    txDepth_pos := by decide
    txDepth_le := by decide }

/-- One queue, and two frames to a window. -/
def sharedConfig : RdmaConfig :=
  { smallConfig with
    sharedCq := true
    ackWindow := 2
    ackEvery_le := by decide
    ackWindow_le := by decide }

end LlamaRdma
