import Mathlib.Data.List.Basic
import Mathlib.Logic.Function.Basic
import NixStrixHalo.LlamaRdma.Config

/-!
# One endpoint of a fixed-frame connection

`rdma_send`, `rdma_recv`, `rdma_wait_fixed_ack` and `rdma_send_fixed_ack` over the verbs they call.

## Where a step ends

The code blocks only while it polls a completion queue, so it is cut at its polls and at the heads
of its two loops: a `Pc` says where a call stands and which locals it holds, and each definition
below is the code from one such point to the next. What happens at the network card between two
points is a step of its own (`arrive`, `sendDone`), so arrivals interleave with the code at every
point where it can wait.

## Failures

A function of the source that returns `false` leaves the endpoint `failed`, with the branch that
returned; such an endpoint takes no further step of its own. A failing verb, a completion with an
error status and a closed control socket are the one action `fail`, enabled at every point of a
call.

## History

The fields under `hist` record what was done: the bytes handed over and delivered, the frames sent
and accepted, and what was done with each receive slot. No branch reads them.
-/

namespace LlamaRdma

/-- Why a frame was put on the wire. History of the frame: a receiver sees only its bytes. -/
inductive PostKind
  | data (seq : ℕ)
  | retransmit (seq : ℕ)
  | ack (seq : ℕ)
  | stale
  deriving DecidableEq, Repr

/-- A frame in flight. -/
structure Packet where
  bytes : List UInt8
  kind : PostKind
  deriving DecidableEq, Repr

/-- The opcode of a work completion, which the code never looks at. -/
inductive WcOpcode
  | send
  | recv
  deriving DecidableEq, Repr

/-- `ibv_wc`. A send is posted with its length as `wr_id`, a receive with its slot. -/
structure Wc where
  opcode : WcOpcode
  wrId : ℕ
  byteLen : ℕ
  deriving DecidableEq, Repr

/-- What the code does with the receive ring, in the order it does it. -/
inductive RingOp
  /-- A poll made for a send returned this completion. -/
  | pollSend (wc : Wc)
  /-- A poll made for a receive returned this completion; its `wr_id` goes to `rx_slot`. -/
  | pollRecv (wc : Wc)
  /-- The checks accept the frame in a slot, as one that carries `len` bytes. -/
  | accept (slot len : ℕ)
  /-- `memcpy` of the payload bytes `lo ..< hi` out of a slot. -/
  | copy (slot lo hi : ℕ)
  /-- `post_rx`. -/
  | post (slot : ℕ)
  deriving DecidableEq, Repr

/-- Which branch of a call returned `false`. -/
inductive RdmaError
  | ackTimeout
  | byteCount
  | invalidHeader
  | outOfOrder
  | pendingData
  | verbs
  deriving DecidableEq, Repr

/-- The locals of `rdma_send`, and of `rdma_wait_fixed_ack` under it: the bytes from `src` on, the
current chunk included, and the frame posted for it. -/
structure SendCall where
  src : List UInt8
  seq : ℕ
  slot : ℕ
  retries : ℕ
  deriving DecidableEq, Repr

/-- The locals of `rdma_recv`: the bytes copied to the caller, `rem` and `recv_last_seq`. -/
structure RecvCall where
  dst : List UInt8
  rem : ℕ
  lastSeq : ℕ
  deriving DecidableEq, Repr

/-- The locals of `rdma_recv` after it accepted a data frame. -/
def RecvCall.accept (r : RecvCall) (seq : ℕ) (payload : List UInt8) : RecvCall :=
  let copy := min payload.length r.rem
  ⟨r.dst ++ payload.take copy, r.rem - copy, seq⟩

/-- Where a call stands. -/
inductive Pc
  /-- No call in progress. -/
  | idle
  /-- `rdma_send`, at the head of its loop. -/
  | sendLoop (src : List UInt8)
  /-- `rdma_send`, in `rdma_poll(c->scq)` after posting a data frame. -/
  | sendPoll (w : SendCall)
  /-- `rdma_wait_fixed_ack`, in `rdma_poll_timeout(c->rcq)`. -/
  | waitPoll (w : SendCall)
  /-- `rdma_wait_fixed_ack`, in the `rdma_poll(c->scq)` of a retransmission (`none`) or an ACK. -/
  | waitPost (w : SendCall) (ack : Option ℕ)
  /-- `rdma_recv`, at the head of its loop. -/
  | recvLoop (r : RecvCall)
  /-- `rdma_recv`, in `rdma_poll(c->rcq)`. -/
  | recvPoll (r : RecvCall)
  /-- `rdma_recv`, in the `rdma_poll(c->scq)` of an ACK sent from its loop. -/
  | recvPost (r : RecvCall) (ack : ℕ)
  /-- `rdma_recv`, in the `rdma_poll(c->scq)` of the ACK sent after its loop. -/
  | recvFinal (r : RecvCall) (ack : ℕ)
  /-- The call returned `false`. -/
  | failed (err : RdmaError)
  deriving DecidableEq, Repr

/-- What has happened at an endpoint. -/
structure History where
  /-- The payloads of the data frames posted, in order; the `k`-th has sequence `k + 1`. -/
  sent : List (List UInt8) := []
  /-- The payloads of the data frames accepted, in order. -/
  accepted : List (List UInt8) := []
  /-- The bytes handed to `rdma_send`. -/
  handed : List UInt8 := []
  /-- The bytes delivered by `rdma_recv` calls that returned `true`. -/
  delivered : List UInt8 := []
  /-- How many calls were made. -/
  calls : ℕ := 0
  /-- The value of `rx_seq` when `rdma_send` was last called. -/
  callRx : ℕ := 1
  ops : List RingOp := []

/-- `rdma_conn`, the queues of its queue pair, and the call in progress. -/
structure Endpoint where
  txHead : ℕ
  txSeq : ℕ
  txLastAcked : ℕ
  rxSeq : ℕ
  rxLastAcked : ℕ
  rxPending : List UInt8
  rxPendingOff : ℕ
  rxPendingLen : ℕ
  /-- The bytes at `tx_slot(i)`. -/
  txBuf : ℕ → List UInt8
  /-- The frame at `rx_slot(i)`. -/
  rxBuf : ℕ → Packet
  /-- The receive slots that are posted, oldest first. -/
  recvq : List ℕ
  /-- The sends that have not completed, oldest first. -/
  sendq : List Wc
  scq : List Wc
  rcq : List Wc
  /-- The frames posted and not yet at the peer, oldest first. -/
  wire : List Packet
  pc : Pc
  hist : History

/-- A `uint64_t` increment. -/
def u64Succ (n : ℕ) : ℕ := (n + 1) % 2 ^ 64

/-! ### Frames as they are posted -/

section Frames

variable (cfg : RdmaConfig)

/-- A data frame: the header, the chunk, and zeros up to the chunk size. -/
def dataFrame (seq : ℕ) (chunk : List UInt8) : List UInt8 :=
  rdmaWriteFrameHeader
    (List.replicate rdmaFrameHeader 0 ++ chunk ++
      List.replicate (cfg.framePayloadSize - chunk.length) 0)
    chunk.length seq cfg.txCookie

/-- An ACK frame: the header and zeros. -/
def ackFrame (seq : ℕ) : List UInt8 :=
  rdmaWriteFrameHeader (List.replicate cfg.chunkSize 0) rdmaFrameAck seq cfg.txCookie

/-- The outcome of the checks that `rdma_recv` and `rdma_wait_fixed_ack` make on a completed frame,
in the order both make them. -/
inductive RxFrame
  | badLength
  | badHeader
  | staleCookie
  | ack (seq : ℕ)
  | duplicate (seq : ℕ)
  | outOfOrder (seq : ℕ)
  | inOrder (seq : ℕ) (payload : List UInt8)
  deriving DecidableEq, Repr

/-- The checks on a frame of `byteLen` bytes when `rxSeq` is expected. -/
def classify (rxSeq : ℕ) (frame : List UInt8) (byteLen : ℕ) : RxFrame :=
  if byteLen ≠ cfg.chunkSize then .badLength
  else match rdmaReadFrameHeader frame with
    | none => .badHeader
    | some h =>
      if ¬ rdmaFrameIsAck h.payloadSize ∧ cfg.framePayloadSize < h.payloadSize then .badHeader
      else if h.cookie ≠ cfg.rxCookie then .staleCookie
      else if rdmaFrameIsAck h.payloadSize then .ack h.seq
      else if h.seq < rxSeq then .duplicate h.seq
      else if rxSeq < h.seq then .outOfOrder h.seq
      else .inOrder h.seq ((frame.drop rdmaFrameHeader).take h.payloadSize)

end Frames

namespace Endpoint

variable (cfg : RdmaConfig) (e : Endpoint)

/-! ### Verbs -/

/-- The call goes on from another point. -/
def goto (pc : Pc) : Endpoint := { e with pc := pc }

/-- A call returns `false`. -/
def fail (err : RdmaError) : Endpoint := e.goto (.failed err)

/-- Record what was done with the receive ring. -/
def log (op : RingOp) : Endpoint := { e with hist := { e.hist with ops := e.hist.ops ++ [op] } }

/-- A data frame passes the checks: it is the next in sequence. -/
def acceptFrame (slot : ℕ) (payload : List UInt8) : Endpoint :=
  { e.log (.accept slot payload.length) with
    rxSeq := u64Succ e.rxSeq
    hist := { (e.log (.accept slot payload.length)).hist with
      accepted := e.hist.accepted ++ [payload] } }

/-- `post_rx`: the slot joins the receive queue. -/
def postRx (slot : ℕ) : Endpoint := { e.log (.post slot) with recvq := e.recvq ++ [slot] }

/-- `ibv_post_send` of a whole frame, as `rdma_send` and `rdma_post_fixed_frame` make it. -/
def postSend (kind : PostKind) (frame : List UInt8) : Endpoint :=
  { e with
    wire := e.wire ++ [⟨frame, kind⟩]
    sendq := e.sendq ++ [⟨.send, cfg.chunkSize, 0⟩] }

/-- The network card completes the oldest send. With a shared queue, `scq` is `rcq`. -/
def sendDone : Option Endpoint :=
  match e.sendq with
  | [] => none
  | wc :: q =>
    if cfg.sharedCq then some { e with sendq := q, rcq := e.rcq ++ [wc] }
    else some { e with sendq := q, scq := e.scq ++ [wc] }

/-- A frame arrives at the network card: it takes the oldest posted slot, or is dropped when none
is posted. -/
def arrive (p : Packet) : Endpoint :=
  match e.recvq with
  | [] => e
  | slot :: q =>
    { e with
      recvq := q
      rxBuf := Function.update e.rxBuf slot p
      rcq := e.rcq ++ [⟨.recv, slot, p.bytes.length⟩] }

/-- `rdma_poll(c->scq)` returns the oldest completion of that queue. -/
def popScq : Option (Wc × Endpoint) :=
  if cfg.sharedCq then
    match e.rcq with
    | [] => none
    | wc :: q => some (wc, { e.log (.pollSend wc) with rcq := q })
  else
    match e.scq with
    | [] => none
    | wc :: q => some (wc, { e.log (.pollSend wc) with scq := q })

/-- `rdma_poll(c->rcq)` returns the oldest completion of that queue. -/
def popRcq : Option (Wc × Endpoint) :=
  match e.rcq with
  | [] => none
  | wc :: q => some (wc, { e.log (.pollRecv wc) with rcq := q })

/-! ### Acknowledgements -/

/-- `rdma_send_fixed_ack`, up to the poll in `rdma_post_fixed_frame`. -/
def rdmaSendFixedAck (seq : ℕ) : Endpoint :=
  { e with
    txBuf := Function.update e.txBuf e.txHead (ackFrame cfg seq)
    txHead := (e.txHead + 1) % cfg.txDepth }.postSend cfg (.ack seq) (ackFrame cfg seq)

/-- `rdma_send_fixed_ack`, after that poll. -/
def ackPosted (seq : ℕ) : Endpoint :=
  { e with rxLastAcked := if e.rxLastAcked < seq then seq else e.rxLastAcked }

/-- An ACK that was polled. -/
def absorbAck (seq : ℕ) : Endpoint :=
  { e with txLastAcked := if e.txLastAcked < seq then seq else e.txLastAcked }

/-! ### `rdma_send` -/

/-- `std::min(rem, max_payload)`, the bytes of the next chunk. -/
def chunkLen (src : List UInt8) : ℕ := min src.length cfg.framePayloadSize

/-- The loop of `rdma_send` from its head: it returns when nothing remains, and otherwise posts the
next data frame. -/
def rdmaSendLoop (src : List UInt8) : Endpoint :=
  if src.length = 0 then e.goto .idle
  else
    let chunk := src.take (chunkLen cfg src)
    let frame := dataFrame cfg e.txSeq chunk
    { e with
      txBuf := Function.update e.txBuf e.txHead frame
      txHead := (e.txHead + 1) % cfg.txDepth
      txSeq := u64Succ e.txSeq
      hist := { e.hist with sent := e.hist.sent ++ [chunk] }
      pc := .sendPoll ⟨src, e.txSeq, e.txHead, 0⟩ }.postSend cfg (.data e.txSeq) frame

/-- The pass that posts a frame. -/
theorem rdmaSendLoop_of_ne_nil {src : List UInt8} (hsrc : src ≠ []) :
    e.rdmaSendLoop cfg src =
      { e with
        txBuf := Function.update e.txBuf e.txHead
          (dataFrame cfg e.txSeq (src.take (chunkLen cfg src)))
        txHead := (e.txHead + 1) % cfg.txDepth
        txSeq := u64Succ e.txSeq
        hist := { e.hist with sent := e.hist.sent ++ [src.take (chunkLen cfg src)] }
        pc := .sendPoll ⟨src, e.txSeq, e.txHead, 0⟩ }.postSend cfg (.data e.txSeq)
          (dataFrame cfg e.txSeq (src.take (chunkLen cfg src))) := by
  have hne : src.length ≠ 0 := by simpa using hsrc
  rw [rdmaSendLoop, if_neg hne]

/-- `wait_for_window`. -/
def waitForWindow (w : SendCall) : Prop :=
  cfg.waitFrameAck ∧ e.txLastAcked < w.seq ∧ cfg.ackWindow ≤ w.seq - e.txLastAcked

/-- `wait_for_final`. -/
def waitForFinal (w : SendCall) : Prop :=
  cfg.waitFrameAck ∧ w.src.length = chunkLen cfg w.src

instance (w : SendCall) : Decidable (e.waitForWindow cfg w) := by
  unfold waitForWindow; infer_instance

instance (w : SendCall) : Decidable (waitForFinal cfg w) := by
  unfold waitForFinal; infer_instance

/-- The current chunk is done with: `src += chunk; rem -= chunk`. -/
def sendNext (w : SendCall) : Endpoint := e.goto (.sendLoop (w.src.drop (chunkLen cfg w.src)))

/-- `rdma_wait_fixed_ack` on entry. -/
def rdmaWaitFixedAck (w : SendCall) : Endpoint :=
  if w.seq ≤ e.txLastAcked then e.sendNext cfg w else e.goto (.waitPoll w)

/-- `rdma_send` after the poll for its data frame. -/
def rdmaSendPosted (w : SendCall) : Endpoint :=
  if e.waitForWindow cfg w ∨ waitForFinal cfg w then e.rdmaWaitFixedAck cfg w
  else e.sendNext cfg w

/-- `rdma_wait_fixed_ack` when its poll times out: the frame's slot is posted once more. -/
def rdmaWaitTimedOut (w : SendCall) : Endpoint :=
  if cfg.ackRetries ≤ w.retries then e.fail .ackTimeout
  else
    (e.goto (.waitPost { w with retries := w.retries + 1 } none)).postSend cfg
      (.retransmit w.seq) (e.txBuf w.slot)

/-- `rdma_wait_fixed_ack` accepts a data frame: the payload goes to `rx_pending` and the slot is
posted again. -/
def bufferPayload (slot : ℕ) (payload : List UInt8) : Endpoint :=
  { (e.acceptFrame slot payload).log (.copy slot 0 payload.length) with
    rxPending := payload ++ e.rxPending.drop payload.length
    rxPendingOff := 0
    rxPendingLen := payload.length }.postRx slot

/-- `rdma_wait_fixed_ack` when its poll returns a completion. -/
def rdmaWaitPolled (w : SendCall) (wc : Wc) : Endpoint :=
  match classify cfg e.rxSeq (e.rxBuf wc.wrId).bytes wc.byteLen with
  | .badLength => e.fail .byteCount
  | .badHeader => e.fail .invalidHeader
  | .staleCookie => (e.postRx wc.wrId).goto (.waitPoll w)
  | .ack seq =>
    let e := (e.postRx wc.wrId).absorbAck seq
    if w.seq ≤ e.txLastAcked then e.sendNext cfg w else e.goto (.waitPoll w)
  | .duplicate seq =>
    let e := e.postRx wc.wrId
    if cfg.sendFrameAck then (e.rdmaSendFixedAck cfg seq).goto (.waitPost w (some seq))
    else e.goto (.waitPoll w)
  | .outOfOrder _ => e.fail .outOfOrder
  | .inOrder seq payload =>
    if e.rxPendingLen ≠ 0 then e.fail .pendingData
    else
      let e := e.bufferPayload wc.wrId payload
      if cfg.sendFrameAck then (e.rdmaSendFixedAck cfg seq).goto (.waitPost w (some seq))
      else e.goto (.waitPoll w)

/-! ### `rdma_recv` -/

/-- One pass of `rdma_recv`'s loop through its pending branch. -/
def rdmaRecvPending (r : RecvCall) : Endpoint × RecvCall :=
  if 0 < r.rem ∧ e.rxPendingOff < e.rxPendingLen then
    let copy := min (e.rxPendingLen - e.rxPendingOff) r.rem
    let off := e.rxPendingOff + copy
    ({ e with
        rxPendingOff := if off = e.rxPendingLen then 0 else off
        rxPendingLen := if off = e.rxPendingLen then 0 else e.rxPendingLen },
      { r with
        dst := r.dst ++ (e.rxPending.drop e.rxPendingOff).take copy
        rem := r.rem - copy })
  else (e, r)

/-- A pass through the pending branch leaves it nothing to do. -/
theorem rdmaRecvPending_twice (e : Endpoint) (r : RecvCall) :
    (e.rdmaRecvPending r).1.rdmaRecvPending (e.rdmaRecvPending r).2 = e.rdmaRecvPending r := by
  rcases hpass : e.rdmaRecvPending r with ⟨e₁, r₁⟩
  rw [rdmaRecvPending, if_neg]
  rw [rdmaRecvPending] at hpass
  split at hpass
  next hcond =>
    obtain ⟨rfl, rfl⟩ := Prod.mk.inj hpass
    generalize hcopy : min (e.rxPendingLen - e.rxPendingOff) r.rem = copy
    -- either the caller has enough or the buffer is empty
    show ¬ (0 < r.rem - copy ∧
      (if e.rxPendingOff + copy = e.rxPendingLen then 0 else e.rxPendingOff + copy) <
        if e.rxPendingOff + copy = e.rxPendingLen then 0 else e.rxPendingLen)
    split <;> omega
  next hcond =>
    obtain ⟨rfl, rfl⟩ := Prod.mk.inj hpass
    exact hcond

/-- `rdma_recv` returns `true`. -/
def rdmaRecvReturn (r : RecvCall) : Endpoint :=
  { e with pc := .idle, hist := { e.hist with delivered := e.hist.delivered ++ r.dst } }

/-- The loop of `rdma_recv` from its head, and the code after it: an ACK for the last frame accepted
when none was sent. The pending branch is taken at most once in a row (`rdmaRecvPending_twice`). -/
def rdmaRecvLoop (r : RecvCall) : Endpoint :=
  let (e, r) := e.rdmaRecvPending r
  if r.rem = 0 then
    if cfg.sendFrameAck ∧ r.lastSeq ≠ 0 ∧ e.rxLastAcked < r.lastSeq then
      (e.rdmaSendFixedAck cfg r.lastSeq).goto (.recvFinal r r.lastSeq)
    else e.rdmaRecvReturn r
  else e.goto (.recvPoll r)

/-- `rdma_recv` accepts a data frame: the caller gets what it still wants of the payload, the rest
goes to `rx_pending`, and the slot is posted again. -/
def copyOut (r : RecvCall) (slot : ℕ) (payload : List UInt8) : Endpoint :=
  let copy := min payload.length r.rem
  let e := (e.acceptFrame slot payload).log (.copy slot 0 copy)
  let e := if copy < payload.length then
      { e.log (.copy slot copy payload.length) with
        rxPending := payload.drop copy ++ e.rxPending.drop (payload.length - copy)
        rxPendingOff := 0
        rxPendingLen := payload.length - copy }
    else e
  e.postRx slot

/-- `rdma_recv` when its poll returns a completion. -/
def rdmaRecvPolled (r : RecvCall) (wc : Wc) : Endpoint :=
  match classify cfg e.rxSeq (e.rxBuf wc.wrId).bytes wc.byteLen with
  | .badLength => e.fail .byteCount
  | .badHeader => e.fail .invalidHeader
  | .staleCookie => (e.postRx wc.wrId).goto (.recvLoop r)
  | .ack seq => ((e.postRx wc.wrId).absorbAck seq).goto (.recvLoop r)
  | .duplicate seq =>
    let e := e.postRx wc.wrId
    if cfg.sendFrameAck then (e.rdmaSendFixedAck cfg seq).goto (.recvPost r seq)
    else e.goto (.recvLoop r)
  | .outOfOrder _ => e.fail .outOfOrder
  | .inOrder seq payload =>
    let e := e.copyOut r wc.wrId payload
    -- `dst` and `rem` advance after the ACK in the source; nothing reads them in between
    let r := r.accept seq payload
    if cfg.sendFrameAck ∧ seq % cfg.ackEvery = 0 then
      (e.rdmaSendFixedAck cfg seq).goto (.recvPost r seq)
    else e.goto (.recvLoop r)

/-! ### The step function -/

/-- The code after a poll for a send. -/
def sendPolled : Option Endpoint :=
  match e.pc with
  | .sendPoll w => some (e.rdmaSendPosted cfg w)
  | .waitPost w none => some (e.goto (.waitPoll w))
  | .waitPost w (some seq) => some ((e.ackPosted seq).goto (.waitPoll w))
  | .recvPost r seq => some ((e.ackPosted seq).goto (.recvLoop r))
  | .recvFinal r seq => some ((e.ackPosted seq).rdmaRecvReturn r)
  | _ => none

/-- The code after a poll for a receive. -/
def recvPolled (wc : Wc) : Option Endpoint :=
  match e.pc with
  | .waitPoll w => some (e.rdmaWaitPolled cfg w wc)
  | .recvPoll r => some (e.rdmaRecvPolled cfg r wc)
  | _ => none

/-- What can happen at an endpoint by itself. -/
inductive Act
  /-- The caller calls `rdma_send`. -/
  | callSend (data : List UInt8)
  /-- The caller calls `rdma_recv`. -/
  | callRecv (size : ℕ)
  /-- The code runs from a loop head. -/
  | run
  /-- The poll for a send returns. -/
  | pollSend
  /-- The poll for a receive returns. -/
  | pollRecv
  /-- The poll for a receive gives up. -/
  | timeout
  /-- A verb fails or the peer's control socket is closed, and the call returns `false`. -/
  | fail
  /-- The network card completes a send. -/
  | sendDone
  deriving DecidableEq, Repr

/-- A step of an endpoint by itself. -/
def step : Act → Option Endpoint
  | .callSend data =>
    match e.pc with
    | .idle => some { e with
        pc := .sendLoop data
        hist := { e.hist with
          handed := e.hist.handed ++ data
          calls := e.hist.calls + 1
          callRx := e.rxSeq } }
    | _ => none
  | .callRecv size =>
    match e.pc with
    | .idle => some { e with
        pc := .recvLoop ⟨[], size, 0⟩
        hist := { e.hist with calls := e.hist.calls + 1 } }
    | _ => none
  | .run =>
    match e.pc with
    | .sendLoop src => some (e.rdmaSendLoop cfg src)
    | .recvLoop r => some (e.rdmaRecvLoop cfg r)
    | _ => none
  | .pollSend => (e.popScq cfg).bind fun p ↦ p.2.sendPolled cfg
  | .pollRecv => e.popRcq.bind fun p ↦ p.2.recvPolled cfg p.1
  | .timeout =>
    match e.pc with
    | .waitPoll w => some (e.rdmaWaitTimedOut cfg w)
    | _ => none
  | .fail =>
    match e.pc with
    | .idle | .failed _ => none
    | _ => some (e.fail .verbs)
  | .sendDone => e.sendDone cfg

/-- `rdma_activate`: every receive slot is posted, over buffers that hold anything. -/
def rdmaActivate (txMem : ℕ → List UInt8) (rxMem : ℕ → Packet) : Endpoint where
  txHead := 0
  txSeq := 1
  txLastAcked := 0
  rxSeq := 1
  rxLastAcked := 0
  rxPending := List.replicate cfg.framePayloadSize 0
  rxPendingOff := 0
  rxPendingLen := 0
  txBuf := txMem
  rxBuf := rxMem
  recvq := List.range cfg.rxDepth
  sendq := []
  scq := []
  rcq := []
  wire := []
  pc := .idle
  hist := { ops := (List.range cfg.rxDepth).map .post }

end Endpoint

end LlamaRdma
