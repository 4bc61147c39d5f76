import NixStrixHalo.LlamaRdma.Endpoint

/-!
# What one step of an endpoint can do

`Move cfg e a e'` lists the outcomes of `Endpoint.step`, one constructor for each path through the
code between two polls, with the guards of that path. `move_of_step` is the inversion every
invariant below is derived from.

## The two loops

The two receive loops, `rdma_wait_fixed_ack`'s and `rdma_recv`'s, share their checks on a frame and
differ in where a `continue` goes and in how a frame is accepted; `Loop` names the loop, so that the
shared branches are one constructor each. They differ in one more place: `rdma_recv` answers an
accepted frame when an ACK is due, and the wait answers it at once, as both do with a duplicate
(`recvReply`, `dupReply`).

## What a move leaves alone

The small functions of an endpoint touch few of its fields, and a frame lemma for each says which
(`popScq_frame`, `arrive_frame`, `copyOut_frame`). What a move adds to the history is told apart by
`Noted`: the bytes of a call, a frame sent, a frame accepted, or none of these (`Move.noted`). The
invariants that are about the history alone follow from it with four cases in place of the
constructors of `Move`.
-/

namespace LlamaRdma

/-- Which of the two receive loops polled. -/
inductive Loop
  | wait (w : SendCall)
  | recv (r : RecvCall)

namespace Loop

/-- The loop's poll. -/
@[simp] def poll : Loop → Pc
  | wait w => .waitPoll w
  | recv r => .recvPoll r

/-- Where `continue` goes. -/
@[simp] def head : Loop → Pc
  | wait w => .waitPoll w
  | recv r => .recvLoop r

/-- The poll for an ACK posted from the loop. -/
@[simp] def post : Loop → ℕ → Pc
  | wait w, seq => .waitPost w (some seq)
  | recv r, seq => .recvPost r seq

end Loop

namespace Endpoint

variable (cfg : RdmaConfig)

/-- Go on with the loop, after an ACK if one is due. -/
def resume (e : Endpoint) (l : Loop) : Option ℕ → Endpoint
  | none => e.goto l.head
  | some seq => (e.rdmaSendFixedAck cfg seq).goto (l.post seq)

/-- The ACK that answers a duplicate. -/
def dupReply (seq : ℕ) : Option ℕ := if cfg.sendFrameAck then some seq else none

/-- The ACK that `rdma_recv` sends from its loop for an accepted frame. -/
def recvReply (seq : ℕ) : Option ℕ :=
  if cfg.sendFrameAck ∧ seq % cfg.ackEvery = 0 then some seq else none

/-- A frame that was accepted before is answered with its own number, if at all. -/
theorem dupReply_cases (cfg : RdmaConfig) (seq : ℕ) :
    dupReply cfg seq = none ∨ dupReply cfg seq = some seq := by
  unfold dupReply
  split
  · exact Or.inr rfl
  · exact Or.inl rfl

/-- A frame that `rdma_recv` polls is answered with its own number, if at all. -/
theorem recvReply_cases (cfg : RdmaConfig) (seq : ℕ) :
    recvReply cfg seq = none ∨ recvReply cfg seq = some seq := by
  unfold recvReply
  split
  · exact Or.inr rfl
  · exact Or.inl rfl

/-- The checks on the frame of a completion. -/
def rxFrame (e : Endpoint) (wc : Wc) : RxFrame :=
  classify cfg e.rxSeq (e.rxBuf wc.wrId).bytes wc.byteLen

/-- Which branch rejects a completion that `l` polled. -/
def Rejects (e : Endpoint) (l : Loop) (wc : Wc) : RdmaError → Prop
  | .byteCount => e.rxFrame cfg wc = .badLength
  | .invalidHeader => e.rxFrame cfg wc = .badHeader
  | .outOfOrder => ∃ seq, e.rxFrame cfg wc = .outOfOrder seq
  | .pendingData => (∃ w, l = .wait w) ∧ (∃ seq payload, e.rxFrame cfg wc = .inOrder seq payload) ∧
      e.rxPendingLen ≠ 0
  | _ => False

/-- The outcomes of one step. -/
inductive Move (e : Endpoint) : Act → Endpoint → Prop
  | callSend (data : List UInt8) (hpc : e.pc = .idle) :
      Move e (.callSend data) { e with
        pc := .sendLoop data
        hist := { e.hist with
          handed := e.hist.handed ++ data
          calls := e.hist.calls + 1
          callRx := e.rxSeq } }
  | callRecv (size : ℕ) (hpc : e.pc = .idle) :
      Move e (.callRecv size) { e with
        pc := .recvLoop ⟨[], size, 0⟩
        hist := { e.hist with calls := e.hist.calls + 1 } }
  | sendReturn (hpc : e.pc = .sendLoop []) : Move e .run (e.goto .idle)
  | sendData (src : List UInt8) (hpc : e.pc = .sendLoop src) (hsrc : src ≠ []) :
      Move e .run (e.rdmaSendLoop cfg src)
  | sendWait (w : SendCall) (wc : Wc) (e₁ : Endpoint) (hpc : e.pc = .sendPoll w)
      (hpop : e.popScq cfg = some (wc, e₁)) (hwait : e.waitForWindow cfg w ∨ waitForFinal cfg w)
      (hack : e.txLastAcked < w.seq) :
      Move e .pollSend (e₁.goto (.waitPoll w))
  | sendNext (w : SendCall) (wc : Wc) (e₁ : Endpoint) (hpc : e.pc = .sendPoll w)
      (hpop : e.popScq cfg = some (wc, e₁))
      (hnext : ¬ (e.waitForWindow cfg w ∨ waitForFinal cfg w) ∨ w.seq ≤ e.txLastAcked) :
      Move e .pollSend (e₁.sendNext cfg w)
  | retransmitted (w : SendCall) (wc : Wc) (e₁ : Endpoint) (hpc : e.pc = .waitPost w none)
      (hpop : e.popScq cfg = some (wc, e₁)) :
      Move e .pollSend (e₁.goto (.waitPoll w))
  | waitAcked (w : SendCall) (seq : ℕ) (wc : Wc) (e₁ : Endpoint)
      (hpc : e.pc = .waitPost w (some seq)) (hpop : e.popScq cfg = some (wc, e₁)) :
      Move e .pollSend ((e₁.ackPosted seq).goto (.waitPoll w))
  | recvAcked (r : RecvCall) (seq : ℕ) (wc : Wc) (e₁ : Endpoint) (hpc : e.pc = .recvPost r seq)
      (hpop : e.popScq cfg = some (wc, e₁)) :
      Move e .pollSend ((e₁.ackPosted seq).goto (.recvLoop r))
  | recvFinished (r : RecvCall) (seq : ℕ) (wc : Wc) (e₁ : Endpoint)
      (hpc : e.pc = .recvFinal r seq) (hpop : e.popScq cfg = some (wc, e₁)) :
      Move e .pollSend ((e₁.ackPosted seq).rdmaRecvReturn r)
  | waitExhausted (w : SendCall) (hpc : e.pc = .waitPoll w)
      (hretries : cfg.ackRetries ≤ w.retries) :
      Move e .timeout (e.fail .ackTimeout)
  | retransmit (w : SendCall) (hpc : e.pc = .waitPoll w) (hretries : w.retries < cfg.ackRetries) :
      Move e .timeout ((e.goto (.waitPost { w with retries := w.retries + 1 } none)).postSend
        cfg (.retransmit w.seq) (e.txBuf w.slot))
  | pollFail (l : Loop) (wc : Wc) (e₁ : Endpoint) (err : RdmaError) (hpc : e.pc = l.poll)
      (hpop : e.popRcq = some (wc, e₁)) (herr : e.Rejects cfg l wc err) :
      Move e .pollRecv (e₁.fail err)
  | pollStale (l : Loop) (wc : Wc) (e₁ : Endpoint) (hpc : e.pc = l.poll)
      (hpop : e.popRcq = some (wc, e₁)) (hframe : e.rxFrame cfg wc = .staleCookie) :
      Move e .pollRecv ((e₁.postRx wc.wrId).goto l.head)
  | pollAck (l : Loop) (wc : Wc) (e₁ : Endpoint) (seq : ℕ) (hpc : e.pc = l.poll)
      (hpop : e.popRcq = some (wc, e₁)) (hframe : e.rxFrame cfg wc = .ack seq)
      (hmore : ∀ w, l = .wait w → e.txLastAcked < w.seq ∧ seq < w.seq) :
      Move e .pollRecv (((e₁.postRx wc.wrId).absorbAck seq).goto l.head)
  | pollAckDone (w : SendCall) (wc : Wc) (e₁ : Endpoint) (seq : ℕ) (hpc : e.pc = .waitPoll w)
      (hpop : e.popRcq = some (wc, e₁)) (hframe : e.rxFrame cfg wc = .ack seq)
      (hdone : w.seq ≤ e.txLastAcked ∨ w.seq ≤ seq) :
      Move e .pollRecv (((e₁.postRx wc.wrId).absorbAck seq).sendNext cfg w)
  | pollDuplicate (l : Loop) (wc : Wc) (e₁ : Endpoint) (seq : ℕ) (hpc : e.pc = l.poll)
      (hpop : e.popRcq = some (wc, e₁)) (hframe : e.rxFrame cfg wc = .duplicate seq) :
      Move e .pollRecv ((e₁.postRx wc.wrId).resume cfg l (dupReply cfg seq))
  | waitAccept (w : SendCall) (wc : Wc) (e₁ : Endpoint) (seq : ℕ) (payload : List UInt8)
      (hpc : e.pc = .waitPoll w) (hpop : e.popRcq = some (wc, e₁))
      (hframe : e.rxFrame cfg wc = .inOrder seq payload) (hpending : e.rxPendingLen = 0) :
      Move e .pollRecv
        ((e₁.bufferPayload wc.wrId payload).resume cfg (.wait w) (dupReply cfg seq))
  | recvAccept (r : RecvCall) (wc : Wc) (e₁ : Endpoint) (seq : ℕ) (payload : List UInt8)
      (hpc : e.pc = .recvPoll r) (hpop : e.popRcq = some (wc, e₁))
      (hframe : e.rxFrame cfg wc = .inOrder seq payload) :
      Move e .pollRecv
        ((e₁.copyOut r wc.wrId payload).resume cfg (.recv (r.accept seq payload))
          (recvReply cfg seq))
  | recvBlock (r r₁ : RecvCall) (e₁ : Endpoint) (hpc : e.pc = .recvLoop r)
      (hpass : e.rdmaRecvPending r = (e₁, r₁)) (hrem : r₁.rem ≠ 0) :
      Move e .run (e₁.goto (.recvPoll r₁))
  | recvAckLast (r r₁ : RecvCall) (e₁ : Endpoint) (hpc : e.pc = .recvLoop r)
      (hpass : e.rdmaRecvPending r = (e₁, r₁)) (hrem : r₁.rem = 0)
      (howed : cfg.sendFrameAck ∧ r₁.lastSeq ≠ 0 ∧ e₁.rxLastAcked < r₁.lastSeq) :
      Move e .run ((e₁.rdmaSendFixedAck cfg r₁.lastSeq).goto (.recvFinal r₁ r₁.lastSeq))
  | recvReturn (r r₁ : RecvCall) (e₁ : Endpoint) (hpc : e.pc = .recvLoop r)
      (hpass : e.rdmaRecvPending r = (e₁, r₁)) (hrem : r₁.rem = 0)
      (howed : ¬ (cfg.sendFrameAck ∧ r₁.lastSeq ≠ 0 ∧ e₁.rxLastAcked < r₁.lastSeq)) :
      Move e .run (e₁.rdmaRecvReturn r₁)
  | fail (hidle : e.pc ≠ .idle) (hfailed : ∀ err, e.pc ≠ .failed err) :
      Move e .fail (e.fail .verbs)
  | sendDone (e₁ : Endpoint) (hdone : e.sendDone cfg = some e₁) : Move e .sendDone e₁

/-! ### Polling a queue leaves the rest alone -/

variable {cfg} {e e₁ : Endpoint} {wc : Wc}

/-- A poll takes the first completion. -/
theorem popRcq_eq_some_iff : e.popRcq = some (wc, e₁) ↔
    e.rcq = wc :: e.rcq.tail ∧ e₁ = { e.log (.pollRecv wc) with rcq := e.rcq.tail } := by
  unfold popRcq
  rcases e.rcq with - | ⟨wc', q⟩
  · simp
  · simp only [Option.some.injEq, Prod.mk.injEq, List.tail_cons, List.cons.injEq, and_true]
    exact and_congr_right fun h ↦ by rw [h, eq_comm]

/-- A poll of the receive queue changes the queue and the log only. -/
theorem popRcq_frame (h : e.popRcq = some (wc, e₁)) :
    ∃ q ops, e₁ = { e with rcq := q, hist := { e.hist with ops := ops } } :=
  ⟨_, _, (popRcq_eq_some_iff.1 h).2⟩

/-- A poll of the send queue changes the queues and the log only. -/
theorem popScq_frame (h : e.popScq cfg = some (wc, e₁)) :
    ∃ scq rcq ops, e₁ = { e with scq := scq, rcq := rcq, hist := { e.hist with ops := ops } } := by
  unfold popScq at h
  split at h
  all_goals
    split at h
    · cases h
    · obtain ⟨-, rfl⟩ := Prod.mk.inj (Option.some.inj h)
      exact ⟨_, _, _, rfl⟩

/-- A poll does not move the call on. -/
theorem popScq_pc (h : e.popScq cfg = some (wc, e₁)) : e₁.pc = e.pc := by
  obtain ⟨-, -, -, rfl⟩ := popScq_frame h
  rfl

/-- A poll of the send queue learns nothing about acknowledgements. -/
theorem popScq_txLastAcked (h : e.popScq cfg = some (wc, e₁)) :
    e₁.txLastAcked = e.txLastAcked := by
  obtain ⟨-, -, -, rfl⟩ := popScq_frame h
  rfl

/-- With a queue of their own, send completions are polled from it. -/
theorem popScq_of_separate (hcq : cfg.sharedCq = false) (h : e.popScq cfg = some (wc, e₁)) :
    e.scq = wc :: e.scq.tail ∧ e₁ = { e.log (.pollSend wc) with scq := e.scq.tail } := by
  rcases hscq : e.scq with - | ⟨wc', q⟩
  · simp [popScq, hcq, hscq] at h
  · obtain ⟨rfl, rfl⟩ : wc' = wc ∧ _ = e₁ := by simpa [popScq, hcq, hscq] using h
    exact ⟨rfl, rfl⟩

/-- With a queue of their own, completed sends go there. -/
theorem sendDone_of_separate (hcq : cfg.sharedCq = false) (h : e.sendDone cfg = some e₁) :
    ∃ wc, e.sendq = wc :: e.sendq.tail ∧
      e₁ = { e with sendq := e.sendq.tail, scq := e.scq ++ [wc] } := by
  rcases hsendq : e.sendq with - | ⟨wc, q⟩
  · simp [sendDone, hsendq] at h
  · obtain rfl : _ = e₁ := by simpa [sendDone, hcq, hsendq] using h
    exact ⟨wc, rfl, rfl⟩

/-- A completed send changes the queues only. -/
theorem sendDone_frame (h : e.sendDone cfg = some e₁) :
    ∃ sendq scq rcq, e₁ = { e with sendq := sendq, scq := scq, rcq := rcq } := by
  unfold sendDone at h
  split at h
  · cases h
  · split at h
    all_goals
      obtain rfl := Option.some.inj h
      exact ⟨_, _, _, rfl⟩

/-- A frame that arrives takes a receive slot and changes nothing else. -/
theorem arrive_frame (e : Endpoint) (w : Packet) :
    ∃ recvq rxBuf rcq, e.arrive w = { e with recvq := recvq, rxBuf := rxBuf, rcq := rcq } := by
  unfold arrive
  split <;> exact ⟨_, _, _, rfl⟩

/-- The pending branch touches only the pending buffer. -/
theorem rdmaRecvPending_frame {r r₁ : RecvCall} (h : e.rdmaRecvPending r = (e₁, r₁)) :
    e₁ = { e with rxPendingOff := e₁.rxPendingOff, rxPendingLen := e₁.rxPendingLen } ∧
      r₁.lastSeq = r.lastSeq := by
  unfold rdmaRecvPending at h
  split at h
  all_goals
    obtain ⟨rfl, rfl⟩ := Prod.mk.inj h
    exact ⟨rfl, rfl⟩

/-- An accepted frame touches the pending buffer, the log and the receive queue, and advances
`rx_seq`. -/
theorem copyOut_frame (r : RecvCall) (slot : ℕ) (payload : List UInt8) :
    e.copyOut r slot payload =
      { e.acceptFrame slot payload with
        rxPending := (e.copyOut r slot payload).rxPending
        rxPendingOff := (e.copyOut r slot payload).rxPendingOff
        rxPendingLen := (e.copyOut r slot payload).rxPendingLen
        recvq := e.recvq ++ [slot]
        hist := { (e.acceptFrame slot payload).hist with
          ops := (e.copyOut r slot payload).hist.ops } } := by
  unfold copyOut
  dsimp only
  split <;> rfl

/-! ### The inversion -/

section Inversion

variable {e' : Endpoint}

/-- What `rdma_send` does with a completed send. -/
theorem move_of_sendPolled (hpop : e.popScq cfg = some (wc, e₁))
    (h : e₁.sendPolled cfg = some e') : Move cfg e .pollSend e' := by
  have hpc := popScq_pc hpop
  have hacked := popScq_txLastAcked hpop
  unfold sendPolled at h
  split at h
  next w hw =>
    obtain rfl := Option.some.inj h
    have hw' : e.pc = .sendPoll w := hpc ▸ hw
    have hwin : e₁.waitForWindow cfg w ↔ e.waitForWindow cfg w := by
      simp only [waitForWindow, hacked]
    unfold rdmaSendPosted rdmaWaitFixedAck
    split
    next hwait =>
      rw [hwin] at hwait
      split
      next hle => exact .sendNext w wc e₁ hw' hpop (Or.inr (hacked ▸ hle))
      next hlt => exact .sendWait w wc e₁ hw' hpop hwait (by omega)
    next hnext =>
      rw [hwin] at hnext
      exact .sendNext w wc e₁ hw' hpop (Or.inl hnext)
  next w hw =>
    obtain rfl := Option.some.inj h
    exact .retransmitted w wc e₁ (hpc ▸ hw) hpop
  next w seq hw =>
    obtain rfl := Option.some.inj h
    exact .waitAcked w seq wc e₁ (hpc ▸ hw) hpop
  next r seq hr =>
    obtain rfl := Option.some.inj h
    exact .recvAcked r seq wc e₁ (hpc ▸ hr) hpop
  next r seq hr =>
    obtain rfl := Option.some.inj h
    exact .recvFinished r seq wc e₁ (hpc ▸ hr) hpop
  next => cases h

/-- What the wait for an acknowledgement does with a completion. -/
theorem move_of_rdmaWaitPolled {w : SendCall} (hpc : e.pc = .waitPoll w)
    (hpop : e.popRcq = some (wc, e₁)) : Move cfg e .pollRecv (e₁.rdmaWaitPolled cfg w wc) := by
  obtain ⟨-, he₁⟩ := popRcq_eq_some_iff.1 hpop
  have hframe : classify cfg e₁.rxSeq (e₁.rxBuf wc.wrId).bytes wc.byteLen = e.rxFrame cfg wc := by
    rw [he₁]; rfl
  have hpending : e₁.rxPendingLen = e.rxPendingLen := by rw [he₁]; rfl
  have hacked : e₁.txLastAcked = e.txLastAcked := by rw [he₁]; rfl
  unfold rdmaWaitPolled
  rw [hframe]
  split
  next hf => exact .pollFail (.wait w) wc e₁ _ hpc hpop hf
  next hf => exact .pollFail (.wait w) wc e₁ _ hpc hpop hf
  next hf => exact .pollStale (.wait w) wc e₁ hpc hpop hf
  next seq hf =>
    -- `tx_last_acked` never goes back
    have hmax : ((e₁.postRx wc.wrId).absorbAck seq).txLastAcked =
        if e.txLastAcked < seq then seq else e.txLastAcked := by
      simp only [absorbAck, postRx, log, hacked]
    dsimp only
    split
    next hdone =>
      refine .pollAckDone w wc e₁ seq hpc hpop hf ?_
      rw [hmax] at hdone
      split at hdone <;> omega
    next hmore =>
      refine .pollAck (.wait w) wc e₁ seq hpc hpop hf ?_
      rintro w' ⟨⟩
      rw [hmax] at hmore
      split at hmore <;> omega
  next seq hf =>
    have hmove := Move.pollDuplicate (.wait w) wc e₁ seq hpc hpop hf
    by_cases hsend : cfg.sendFrameAck <;> simpa [hsend, resume, dupReply] using hmove
  next seq hf => exact .pollFail (.wait w) wc e₁ .outOfOrder hpc hpop ⟨seq, hf⟩
  next seq payload hf =>
    split
    next hne =>
      exact .pollFail (.wait w) wc e₁ .pendingData hpc hpop ⟨⟨w, rfl⟩, ⟨seq, payload, hf⟩,
        hpending ▸ hne⟩
    next heq =>
      have hmove := Move.waitAccept w wc e₁ seq payload hpc hpop hf (by omega)
      by_cases hsend : cfg.sendFrameAck <;> simpa [hsend, resume, dupReply] using hmove

/-- What `rdma_recv` does with a completion. -/
theorem move_of_rdmaRecvPolled {r : RecvCall} (hpc : e.pc = .recvPoll r)
    (hpop : e.popRcq = some (wc, e₁)) : Move cfg e .pollRecv (e₁.rdmaRecvPolled cfg r wc) := by
  obtain ⟨-, he₁⟩ := popRcq_eq_some_iff.1 hpop
  have hframe : classify cfg e₁.rxSeq (e₁.rxBuf wc.wrId).bytes wc.byteLen = e.rxFrame cfg wc := by
    rw [he₁]; rfl
  unfold rdmaRecvPolled
  rw [hframe]
  split
  next hf => exact .pollFail (.recv r) wc e₁ _ hpc hpop hf
  next hf => exact .pollFail (.recv r) wc e₁ _ hpc hpop hf
  next hf => exact .pollStale (.recv r) wc e₁ hpc hpop hf
  next seq hf => exact .pollAck (.recv r) wc e₁ seq hpc hpop hf (by rintro w ⟨⟩)
  next seq hf =>
    have hmove := Move.pollDuplicate (.recv r) wc e₁ seq hpc hpop hf
    by_cases hsend : cfg.sendFrameAck <;> simpa [hsend, resume, dupReply] using hmove
  next seq hf => exact .pollFail (.recv r) wc e₁ .outOfOrder hpc hpop ⟨seq, hf⟩
  next seq payload hf =>
    have hmove := Move.recvAccept r wc e₁ seq payload hpc hpop hf
    by_cases hsend : cfg.sendFrameAck = true ∧ seq % cfg.ackEvery = 0
    · simpa [hsend, resume, recvReply] using hmove
    · simpa [hsend, resume, recvReply] using hmove

/-- What `rdma_recv` does between two polls. -/
theorem move_of_rdmaRecvLoop {r : RecvCall} (hpc : e.pc = .recvLoop r) :
    Move cfg e .run (e.rdmaRecvLoop cfg r) := by
  rcases hpass : e.rdmaRecvPending r with ⟨e₁, r₁⟩
  unfold rdmaRecvLoop
  simp only [hpass]
  split
  next hrem =>
    split
    next howed => exact .recvAckLast r r₁ e₁ hpc hpass hrem howed
    next howed => exact .recvReturn r r₁ e₁ hpc hpass hrem howed
  next hrem => exact .recvBlock r r₁ e₁ hpc hpass hrem

/-- **Every step is a move.** -/
theorem move_of_step {a : Act} (h : e.step cfg a = some e') : Move cfg e a e' := by
  cases a with
  | callSend data =>
    simp only [step] at h
    split at h
    next hpc => obtain rfl := Option.some.inj h; exact .callSend data hpc
    next => cases h
  | callRecv size =>
    simp only [step] at h
    split at h
    next hpc => obtain rfl := Option.some.inj h; exact .callRecv size hpc
    next => cases h
  | run =>
    simp only [step] at h
    split at h
    next src hpc =>
      obtain rfl := Option.some.inj h
      rcases src with - | ⟨b, src⟩
      · exact .sendReturn hpc
      · exact .sendData (b :: src) hpc (by simp)
    next r hpc => obtain rfl := Option.some.inj h; exact move_of_rdmaRecvLoop hpc
    next => cases h
  | pollSend =>
    obtain ⟨⟨wc, e₁⟩, hpop, h⟩ := Option.bind_eq_some_iff.1 h
    exact move_of_sendPolled hpop h
  | pollRecv =>
    obtain ⟨⟨wc, e₁⟩, hpop, h⟩ := Option.bind_eq_some_iff.1 h
    obtain ⟨-, he₁⟩ := popRcq_eq_some_iff.1 hpop
    have hpc : e₁.pc = e.pc := by rw [he₁]; rfl
    simp only [recvPolled] at h
    split at h
    next w hw => obtain rfl := Option.some.inj h; exact move_of_rdmaWaitPolled (hpc ▸ hw) hpop
    next r hr => obtain rfl := Option.some.inj h; exact move_of_rdmaRecvPolled (hpc ▸ hr) hpop
    next => cases h
  | timeout =>
    simp only [step] at h
    split at h
    next w hpc =>
      obtain rfl := Option.some.inj h
      unfold rdmaWaitTimedOut
      split
      next hle => exact .waitExhausted w hpc hle
      next hlt => exact .retransmit w hpc (by omega)
    next => cases h
  | fail =>
    simp only [step] at h
    split at h
    next => cases h
    next => cases h
    next hidle hfailed =>
      obtain rfl := Option.some.inj h
      exact .fail hidle hfailed
  | sendDone => exact .sendDone e' h

end Inversion

/-! ### What a move adds to the history -/

/-- A loop that goes on leaves the history alone. -/
@[simp] theorem resume_hist (l : Loop) (reply : Option ℕ) :
    (e.resume cfg l reply).hist = e.hist := by
  cases reply <;> rfl

/-- What a move adds to the history: the bytes of a call, a frame sent, a frame accepted, or none
of these. -/
inductive Noted (cfg : RdmaConfig) (e : Endpoint) (a : Act) (e' : Endpoint) : Prop
  | call (data : List UInt8) (ha : a = .callSend data) (hpc : e.pc = .idle)
      (hhist : e'.hist = { e.hist with
        handed := e.hist.handed ++ data
        calls := e.hist.calls + 1
        callRx := e.rxSeq })
  | send (src : List UInt8) (hpc : e.pc = .sendLoop src) (hsrc : src ≠ [])
      (hhist : e'.hist = { e.hist with sent := e.hist.sent ++ [src.take (chunkLen cfg src)] })
  | accept (wc : Wc) (e₁ : Endpoint) (seq : ℕ) (payload : List UInt8) (ops : List RingOp)
      (ha : a = .pollRecv) (hpop : e.popRcq = some (wc, e₁))
      (hframe : e.rxFrame cfg wc = .inOrder seq payload)
      (hcases : (∃ w, e.pc = .waitPoll w ∧
          e' = (e₁.bufferPayload wc.wrId payload).resume cfg (.wait w) (dupReply cfg seq)) ∨
        ∃ r, e.pc = .recvPoll r ∧ e' = (e₁.copyOut r wc.wrId payload).resume cfg
          (.recv (r.accept seq payload)) (recvReply cfg seq))
      (hhist : e'.hist = { e.hist with accepted := e.hist.accepted ++ [payload], ops := ops })
  | keep (delivered : List UInt8) (calls : ℕ) (ops : List RingOp)
      (hhist : e'.hist = { e.hist with delivered := delivered, calls := calls, ops := ops })

/-- **Every move is in the log.** -/
theorem Move.noted {a : Act} {e' : Endpoint} (hmove : Move cfg e a e') : Noted cfg e a e' := by
  cases hmove with
  | callSend data hpc => exact .call data rfl hpc rfl
  | sendData src hpc hsrc =>
    refine .send src hpc hsrc ?_
    rw [rdmaSendLoop_of_ne_nil cfg e hsrc]
    rfl
  | sendWait _ _ _ _ hpop | sendNext _ _ _ _ hpop | retransmitted _ _ _ _ hpop
  | waitAcked _ _ _ _ _ hpop | recvAcked _ _ _ _ _ hpop | recvFinished _ _ _ _ _ hpop =>
    obtain ⟨scq, rcq, ops, rfl⟩ := popScq_frame hpop
    exact .keep _ _ _ rfl
  | pollFail _ _ _ _ _ hpop | pollStale _ _ _ _ hpop | pollAck _ _ _ _ _ hpop
  | pollAckDone _ _ _ _ _ hpop =>
    obtain ⟨q, ops, rfl⟩ := popRcq_frame hpop
    exact .keep _ _ _ rfl
  | pollDuplicate _ _ _ _ _ hpop =>
    obtain ⟨q, ops, rfl⟩ := popRcq_frame hpop
    exact .keep _ _ _ (resume_hist _ _)
  | waitAccept w wc e₁ seq payload hpc hpop hframe =>
    refine .accept wc e₁ seq payload (e₁.bufferPayload wc.wrId payload).hist.ops rfl hpop hframe
      (Or.inl ⟨w, hpc, rfl⟩) ?_
    obtain ⟨q, ops, rfl⟩ := popRcq_frame hpop
    exact resume_hist _ _
  | recvAccept r wc e₁ seq payload hpc hpop hframe =>
    refine .accept wc e₁ seq payload (e₁.copyOut r wc.wrId payload).hist.ops rfl hpop hframe
      (Or.inr ⟨r, hpc, rfl⟩) ?_
    obtain ⟨q, ops, rfl⟩ := popRcq_frame hpop
    rw [resume_hist, copyOut_frame]
    rfl
  | recvBlock _ _ _ _ hpass | recvAckLast _ _ _ _ hpass | recvReturn _ _ _ _ hpass =>
    rw [(rdmaRecvPending_frame hpass).1]
    exact .keep _ _ _ rfl
  | sendDone e₁ hdone =>
    obtain ⟨sendq, scq, rcq, rfl⟩ := sendDone_frame hdone
    exact .keep _ _ _ rfl
  | _ => exact .keep _ _ _ rfl

end Endpoint

end LlamaRdma
