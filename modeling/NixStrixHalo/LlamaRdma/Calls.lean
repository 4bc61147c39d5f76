import NixStrixHalo.LlamaRdma.Moves

/-!
# What a call knows

The bookkeeping of one endpoint that needs no assumption on what arrives: `tx_seq` and `rx_seq`
count the frames sent and accepted, the bytes handed to `rdma_send` are the payloads sent and what
the call has left, and the payloads accepted are the bytes delivered, what the call has copied and
what is in `rx_pending`.

`Booked` says so, and every move and every arrival keeps it.

## What a call holds

A call in progress is seen through a few functions of its `Pc`: the frame that it posted last
(`sending`), the bytes that it has not posted (`unsent`), and those that it has copied (`copied`).
At every point where the code waits, at most one of a send and a receive is in progress.

## How it is kept

Each definition of `Endpoint` has a lemma of its own name that says how it changes the bookkeeping,
and `Booked.move` goes through the moves and cites them. Where a frame is accepted, the two loops
do it differently: `rdma_recv` copies to its caller first and buffers the rest (`Booked.copyOut`),
the wait buffers all of it (`Booked.bufferPayload`).
-/

namespace LlamaRdma

namespace Pc

variable (cfg : RdmaConfig)

/-- The frame that a call in progress posted last, once it has posted one. -/
def sending : Pc → Option SendCall
  | sendPoll w | waitPoll w | waitPost w _ => some w
  | _ => none

/-- The `rdma_recv` in progress. -/
def receiving : Pc → Option RecvCall
  | recvLoop r | recvPoll r | recvPost r _ | recvFinal r _ => some r
  | _ => none

/-- The bytes handed to `rdma_send` and not posted yet. -/
def unsent : Pc → List UInt8
  | sendLoop src => src
  | sendPoll w | waitPoll w | waitPost w _ => w.src.drop (Endpoint.chunkLen cfg w.src)
  | _ => []

/-- The bytes that the `rdma_recv` in progress has copied. -/
def copied (pc : Pc) : List UInt8 := (pc.receiving.map RecvCall.dst).getD []

/-- No call has returned `false`. -/
def live : Pc → Bool
  | failed _ => false
  | _ => true

/-- A side is alive as long as it has not failed. -/
theorem live_iff {pc : Pc} : pc.live = true ↔ ∀ err, pc ≠ .failed err := by
  cases pc <;> simp [live]

/-- In `rdma_send`, what is not yet sent is behind the chunk at hand. -/
theorem of_sending {pc : Pc} {w : SendCall} (h : pc.sending = some w) :
    pc.live = true ∧ pc.unsent cfg = w.src.drop (Endpoint.chunkLen cfg w.src) ∧
      pc.copied = [] := by
  cases pc with
  | sendPoll w' => obtain rfl := Option.some.inj h; exact ⟨rfl, rfl, rfl⟩
  | waitPoll w' => obtain rfl := Option.some.inj h; exact ⟨rfl, rfl, rfl⟩
  | waitPost w' ack => obtain rfl := Option.some.inj h; exact ⟨rfl, rfl, rfl⟩
  | _ => cases h

/-- In `rdma_recv`, nothing is to be sent. -/
theorem of_receiving {pc : Pc} {r : RecvCall} (h : pc.receiving = some r) :
    pc.live = true ∧ pc.unsent cfg = [] := by
  cases pc with
  | recvLoop | recvPoll | recvPost | recvFinal => exact ⟨rfl, rfl⟩
  | _ => cases h

end Pc

namespace Endpoint

variable {cfg : RdmaConfig} {e e' e₁ : Endpoint}

/-- The unread bytes of `rx_pending`. -/
def pending (e : Endpoint) : List UInt8 :=
  (e.rxPending.drop e.rxPendingOff).take (e.rxPendingLen - e.rxPendingOff)

/-- The bookkeeping of an endpoint. -/
structure Booked (cfg : RdmaConfig) (e : Endpoint) : Prop where
  txSeq : e.txSeq = (e.hist.sent.length + 1) % 2 ^ 64
  rxSeq : e.rxSeq = (e.hist.accepted.length + 1) % 2 ^ 64
  seq : ∀ w, e.pc.sending = some w → w.seq = e.hist.sent.length % 2 ^ 64
  chunks : ∀ chunk ∈ e.hist.sent, chunk ≠ [] ∧ chunk.length ≤ cfg.framePayloadSize
  handed : e.pc.live = true → e.hist.handed = e.hist.sent.flatten ++ e.pc.unsent cfg
  sent : e.hist.sent.flatten <+: e.hist.handed
  accepted : e.pc.live = true →
    e.hist.accepted.flatten = e.hist.delivered ++ (e.pc.copied ++ e.pending)
  delivered : e.hist.delivered <+: e.hist.accepted.flatten
  room : e.rxPendingLen ≤ e.rxPending.length
  /-- `rdma_recv` polls only when nothing is pending. -/
  drained : ∀ r, e.pc = .recvPoll r → r.rem ≠ 0 ∧ e.pending = []

namespace Booked

/-- A call that fails keeps what was sent and delivered. -/
theorem fail (h : Booked cfg e) (err : RdmaError) : Booked cfg (e.fail err) where
  txSeq := h.txSeq
  rxSeq := h.rxSeq
  seq := nofun
  chunks := h.chunks
  handed := nofun
  sent := h.sent
  accepted := nofun
  delivered := h.delivered
  room := h.room
  drained := nofun

/-- A call goes on with the same bytes at hand. -/
theorem goto {pc : Pc} (h : Booked cfg e) (hlive : e.pc.live = true)
    (hseq : ∀ w, pc.sending = some w → w.seq = e.hist.sent.length % 2 ^ 64)
    (hunsent : pc.unsent cfg = e.pc.unsent cfg) (hcopied : pc.copied = e.pc.copied)
    (hdrained : ∀ r, pc = .recvPoll r → r.rem ≠ 0 ∧ e.pending = []) : Booked cfg (e.goto pc) where
  txSeq := h.txSeq
  rxSeq := h.rxSeq
  seq := hseq
  chunks := h.chunks
  handed _ := by
    show e.hist.handed = e.hist.sent.flatten ++ pc.unsent cfg
    rw [hunsent]
    exact h.handed hlive
  sent := h.sent
  accepted _ := by
    show e.hist.accepted.flatten = e.hist.delivered ++ (pc.copied ++ e.pending)
    rw [hcopied]
    exact h.accepted hlive
  delivered := h.delivered
  room := h.room
  drained := hdrained

/-- The queues, the slots, the acknowledgements and the log are not part of it. -/
theorem frame (h : Booked cfg e) (txHead txLastAcked rxLastAcked : ℕ) (txBuf : ℕ → List UInt8)
    (rxBuf : ℕ → Packet) (recvq : List ℕ) (sendq scq rcq : List Wc) (wire : List Packet)
    (calls callRx : ℕ) (ops : List RingOp) :
    Booked cfg { e with
      txHead, txLastAcked, rxLastAcked, txBuf, rxBuf, recvq, sendq, scq, rcq, wire
      hist := { e.hist with calls, callRx, ops } } :=
  ⟨h.txSeq, h.rxSeq, h.seq, h.chunks, h.handed, h.sent, h.accepted, h.delivered, h.room,
    h.drained⟩

/-- Posting a receive slot changes nothing in the books. -/
theorem postRx (h : Booked cfg e) (slot : ℕ) : Booked cfg (e.postRx slot) :=
  h.frame ..

/-- An acknowledgement that is kept for later changes nothing in the books. -/
theorem absorbAck (h : Booked cfg e) (seq : ℕ) : Booked cfg (e.absorbAck seq) :=
  h.frame ..

/-- An acknowledgement is booked as posted. -/
theorem ackPosted (h : Booked cfg e) (seq : ℕ) : Booked cfg (e.ackPosted seq) :=
  h.frame ..

/-- A frame that is posted is booked. -/
theorem postSend (h : Booked cfg e) (kind : PostKind) (frame : List UInt8) :
    Booked cfg (e.postSend cfg kind frame) :=
  h.frame ..

/-- Sending an acknowledgement keeps the books. -/
theorem rdmaSendFixedAck (h : Booked cfg e) (seq : ℕ) : Booked cfg (e.rdmaSendFixedAck cfg seq) :=
  h.frame ..

/-- Taking a completion from the send queue keeps the books. -/
theorem popScq {wc : Wc} (h : Booked cfg e) (hpop : e.popScq cfg = some (wc, e₁)) :
    Booked cfg e₁ := by
  obtain ⟨scq, rcq, ops, rfl⟩ := popScq_frame hpop
  exact h.frame ..

/-- Taking a completion from the receive queue keeps the books. -/
theorem popRcq {wc : Wc} (h : Booked cfg e) (hpop : e.popRcq = some (wc, e₁)) :
    Booked cfg e₁ := by
  obtain ⟨rcq, ops, rfl⟩ := popRcq_frame hpop
  exact h.frame ..

/-- A completed send keeps the books. -/
theorem sendDone (h : Booked cfg e) (hdone : e.sendDone cfg = some e₁) : Booked cfg e₁ := by
  obtain ⟨sendq, scq, rcq, rfl⟩ := sendDone_frame hdone
  exact h.frame ..

/-- A frame that arrives keeps the books. -/
theorem arrive (h : Booked cfg e) (p : Packet) : Booked cfg (e.arrive p) := by
  unfold Endpoint.arrive
  split
  next => exact h
  next => exact h.frame ..

/-- The loop goes on, with an ACK or without. -/
theorem resume {l : Loop} {pc : Pc} (h : Booked cfg e) (hpc : e.pc = pc)
    (hlive : pc.live = true) (hsending : pc.sending = l.head.sending)
    (hunsent : pc.unsent cfg = l.head.unsent cfg) (hcopied : pc.copied = l.head.copied)
    (reply : Option ℕ) : Booked cfg (e.resume cfg l reply) := by
  subst hpc
  cases reply with
  | none =>
    refine h.goto hlive (fun w hw ↦ h.seq w (hsending ▸ hw)) hunsent.symm hcopied.symm ?_
    cases l <;> exact nofun
  | some seq =>
    have hpost : (l.post seq).sending = l.head.sending ∧
        (l.post seq).unsent cfg = l.head.unsent cfg ∧ (l.post seq).copied = l.head.copied := by
      cases l <;> exact ⟨rfl, rfl, rfl⟩
    refine (h.rdmaSendFixedAck seq).goto hlive
      (fun w hw ↦ h.seq w (hsending.trans hpost.1.symm ▸ hw)) (hpost.2.1.trans hunsent.symm)
      (hpost.2.2.trans hcopied.symm) ?_
    cases l <;> exact nofun

/-- The loop that polled goes on. -/
theorem resumePoll {l : Loop} (h : Booked cfg e) (hpc : e.pc = l.poll) (reply : Option ℕ) :
    Booked cfg (e.resume cfg l reply) := by
  cases l with
  | wait w => exact h.resume hpc rfl rfl rfl rfl reply
  | recv r => exact h.resume hpc rfl rfl rfl rfl reply

end Booked

/-! ### Moves -/

/-- The counters count modulo the word size. -/
theorem u64Succ_mod (n : ℕ) : u64Succ (n % 2 ^ 64) = (n + 1) % 2 ^ 64 := by
  simp [u64Succ, Nat.add_mod]

/-- One pass through the pending branch hands bytes from `rx_pending` to the caller, and leaves
none unless the caller wants no more. -/
theorem rdmaRecvPending_bytes {r r₁ : RecvCall} (hroom : e.rxPendingLen ≤ e.rxPending.length)
    (h : e.rdmaRecvPending r = (e₁, r₁)) :
    r.dst ++ e.pending = r₁.dst ++ e₁.pending ∧ (r₁.rem ≠ 0 → e₁.pending = []) ∧
      r₁.dst.length + r₁.rem = r.dst.length + r.rem ∧ e₁.rxPendingLen ≤ e₁.rxPending.length := by
  unfold rdmaRecvPending at h
  split at h
  next hpass =>
    obtain ⟨hrem, hoff⟩ := hpass
    obtain ⟨rfl, rfl⟩ := Prod.mk.inj h
    generalize hcopy : min (e.rxPendingLen - e.rxPendingOff) r.rem = copy
    have hle : copy ≤ e.rxPendingLen - e.rxPendingOff := by omega
    have hsplit : e.pending = (e.rxPending.drop e.rxPendingOff).take copy ++
        (e.rxPending.drop (e.rxPendingOff + copy)).take
          (e.rxPendingLen - (e.rxPendingOff + copy)) := by
      have hlen : e.rxPendingLen - e.rxPendingOff =
          copy + (e.rxPendingLen - (e.rxPendingOff + copy)) := by omega
      rw [pending, hlen, List.take_add, List.drop_drop]
    -- the buffer is reset when it is empty, and otherwise the caller has all it wants
    refine ⟨?_, fun hne ↦ ?_, ?_, ?_⟩
    · rw [hsplit, ← List.append_assoc]
      by_cases hall : e.rxPendingOff + copy = e.rxPendingLen <;> simp [pending, hall]
    · have hall : e.rxPendingOff + copy = e.rxPendingLen := by
        replace hne : r.rem - copy ≠ 0 := hne
        omega
      simp [pending, hall]
    · simp only [List.length_append, List.length_take, List.length_drop]
      omega
    · show (if e.rxPendingOff + copy = e.rxPendingLen then 0 else e.rxPendingLen) ≤
        e.rxPending.length
      split <;> omega
  next hpass =>
    obtain ⟨rfl, rfl⟩ := Prod.mk.inj h
    refine ⟨rfl, fun hne ↦ ?_, rfl, hroom⟩
    rw [pending, Nat.sub_eq_zero_of_le (by omega), List.take_zero]

/-- What `copyOut` leaves in `rx_pending` is what the caller did not want of the payload. -/
theorem copyOut_pending (hpending : e.pending = []) (r : RecvCall) (slot seq : ℕ)
    (payload : List UInt8) :
    (r.accept seq payload).dst ++ (e.copyOut r slot payload).pending = r.dst ++ payload := by
  unfold copyOut
  dsimp only
  split
  next hlt =>
    show (r.dst ++ payload.take _) ++ ((payload.drop (min payload.length r.rem) ++ _).drop 0).take
      (payload.length - min payload.length r.rem - 0) = _
    rw [List.drop_zero, Nat.sub_zero, List.take_left' (by simp), List.append_assoc,
      List.take_append_drop]
  next hge =>
    have hall : payload.length ≤ min payload.length r.rem := by omega
    show (r.dst ++ payload.take _) ++ e.pending = _
    rw [hpending, List.append_nil, List.take_of_length_le hall]

/-- What is left of a payload fits its buffer. -/
theorem copyOut_room (hroom : e.rxPendingLen ≤ e.rxPending.length) (r : RecvCall) (slot : ℕ)
    (payload : List UInt8) :
    (e.copyOut r slot payload).rxPendingLen ≤ (e.copyOut r slot payload).rxPending.length := by
  unfold copyOut
  dsimp only
  split
  next hlt =>
    show payload.length - _ ≤ (payload.drop _ ++ _).length
    simp
  next hge => exact hroom

namespace Booked

/-- A data frame is accepted while `rdma_send` waits. -/
theorem bufferPayload {w : SendCall} (h : Booked cfg e) (hpc : e.pc = .waitPoll w)
    (hpending : e.rxPendingLen = 0) (slot : ℕ) (payload : List UInt8) :
    Booked cfg (e.bufferPayload slot payload) where
  txSeq := h.txSeq
  rxSeq := by
    show u64Succ e.rxSeq = ((e.hist.accepted ++ [payload]).length + 1) % 2 ^ 64
    rw [h.rxSeq, u64Succ_mod, List.length_append, List.length_singleton]
  seq := h.seq
  chunks := h.chunks
  handed := h.handed
  sent := h.sent
  accepted hlive := by
    have hold := h.accepted hlive
    -- `rx_pending` was empty, so all of it is the new payload
    have hnone : e.pending = [] := by simp [pending, hpending]
    have hnew : (e.bufferPayload slot payload).pending = payload := by
      show ((payload ++ _).drop 0).take (payload.length - 0) = payload
      rw [List.drop_zero, Nat.sub_zero, List.take_left' rfl]
    show (e.hist.accepted ++ [payload]).flatten = e.hist.delivered ++ (e.pc.copied ++ _)
    rw [hnone, List.append_nil] at hold
    rw [hnew, List.flatten_append, List.flatten_singleton, hold, List.append_assoc]
  delivered := by
    show e.hist.delivered <+: (e.hist.accepted ++ [payload]).flatten
    rw [List.flatten_append]
    exact h.delivered.trans (List.prefix_append _ _)
  room := by
    show payload.length ≤ (payload ++ _).length
    simp
  drained r hr := by
    have hpc' : (e.bufferPayload slot payload).pc = .waitPoll w := hpc
    rw [hpc'] at hr
    cases hr

/-- A data frame is accepted by `rdma_recv`. -/
theorem copyOut {r : RecvCall} (h : Booked cfg e) (hpc : e.pc = .recvPoll r) (slot seq : ℕ)
    (payload : List UInt8) :
    Booked cfg ((e.copyOut r slot payload).goto (.recvLoop (r.accept seq payload))) := by
  have hframe := e.copyOut_frame r slot payload
  have hbytes := copyOut_pending (h.drained r hpc).2 r slot seq payload
  have hroom := copyOut_room h.room r slot payload
  have hlive : e.pc.live = true := by rw [hpc]; rfl
  have haccepted : e.hist.accepted.flatten = e.hist.delivered ++ r.dst := by
    simpa [hpc, Pc.copied, Pc.receiving, (h.drained r hpc).2] using h.accepted hlive
  have hhanded : e.hist.handed = e.hist.sent.flatten ++ [] := by
    simpa [hpc, Pc.unsent] using h.handed hlive
  have hhist : (e.copyOut r slot payload).hist.accepted = e.hist.accepted ++ [payload] := by
    rw [hframe]
    rfl
  have hdelivered : (e.copyOut r slot payload).hist.delivered = e.hist.delivered := by
    rw [hframe]
    rfl
  refine ⟨?_, ?_, nofun, ?_, fun _ ↦ ?_, ?_, fun _ ↦ ?_, ?_, hroom, nofun⟩
  · rw [hframe]
    exact h.txSeq
  · show (e.copyOut r slot payload).rxSeq =
      ((e.copyOut r slot payload).hist.accepted.length + 1) % 2 ^ 64
    rw [hhist, hframe]
    show u64Succ e.rxSeq = _
    rw [h.rxSeq, u64Succ_mod, List.length_append, List.length_singleton]
  · rw [hframe]
    exact h.chunks
  · rw [hframe]
    exact hhanded
  · rw [hframe]
    exact h.sent
  · show (e.copyOut r slot payload).hist.accepted.flatten =
      (e.copyOut r slot payload).hist.delivered ++
        ((r.accept seq payload).dst ++ (e.copyOut r slot payload).pending)
    rw [hhist, hdelivered, hbytes, List.flatten_append, List.flatten_singleton, haccepted,
      List.append_assoc]
  · show (e.copyOut r slot payload).hist.delivered <+:
      (e.copyOut r slot payload).hist.accepted.flatten
    rw [hhist, hdelivered, List.flatten_append]
    exact h.delivered.trans (List.prefix_append _ _)

/-- The next data frame is posted. -/
theorem rdmaSendLoop {src : List UInt8} (h : Booked cfg e) (hpc : e.pc = .sendLoop src)
    (hsrc : src ≠ []) : Booked cfg (e.rdmaSendLoop cfg src) := by
  have hlive : e.pc.live = true := by rw [hpc]; rfl
  have hhanded : e.hist.handed = e.hist.sent.flatten ++ src := by
    simpa [hpc, Pc.unsent] using h.handed hlive
  have haccepted : e.hist.accepted.flatten = e.hist.delivered ++ e.pending := by
    simpa [hpc, Pc.copied, Pc.receiving] using h.accepted hlive
  have hbytes : (e.hist.sent ++ [src.take (chunkLen cfg src)]).flatten ++
      src.drop (chunkLen cfg src) = e.hist.handed := by
    rw [hhanded, List.flatten_append, List.flatten_singleton, List.append_assoc,
      List.take_append_drop]
  rw [rdmaSendLoop_of_ne_nil cfg e hsrc]
  refine ⟨?_, h.rxSeq, ?_, ?_, fun _ ↦ hbytes.symm, ?_, fun _ ↦ haccepted, h.delivered, h.room,
    nofun⟩
  · show u64Succ e.txSeq = ((e.hist.sent ++ [_]).length + 1) % 2 ^ 64
    rw [h.txSeq, u64Succ_mod, List.length_append, List.length_singleton]
  · rintro w ⟨⟩
    show e.txSeq = (e.hist.sent ++ [_]).length % 2 ^ 64
    rw [h.txSeq, List.length_append, List.length_singleton]
  · intro chunk hchunk
    rcases List.mem_append.1 hchunk with hmem | hmem
    · exact h.chunks chunk hmem
    · obtain rfl := List.mem_singleton.1 hmem
      have hpos := cfg.framePayloadSize_pos
      have hsrc := List.length_pos_of_ne_nil hsrc
      have hlen : (src.take (chunkLen cfg src)).length = chunkLen cfg src := by
        rw [List.length_take]
        exact Nat.min_eq_left (Nat.min_le_left _ _)
      refine ⟨fun hnil ↦ ?_, hlen.trans_le (Nat.min_le_right _ _)⟩
      rw [hnil, List.length_nil, chunkLen] at hlen
      omega
  · show (e.hist.sent ++ [_]).flatten <+: e.hist.handed
    rw [← hbytes]
    exact List.prefix_append _ _

/-- `rdma_send` goes on with the next chunk. -/
theorem sendNext {w : SendCall} (h : Booked cfg e) (hw : e.pc.sending = some w) :
    Booked cfg (e.sendNext cfg w) := by
  obtain ⟨hlive, hunsent, hcopied⟩ := Pc.of_sending cfg hw
  exact h.goto hlive nofun hunsent.symm hcopied.symm nofun

/-- `rdma_recv` returns. -/
theorem rdmaRecvReturn {r : RecvCall} (h : Booked cfg e) (hr : e.pc.receiving = some r) :
    Booked cfg (e.rdmaRecvReturn r) := by
  obtain ⟨hlive, hunsent⟩ := Pc.of_receiving cfg hr
  have haccepted : e.hist.accepted.flatten = e.hist.delivered ++ (r.dst ++ e.pending) := by
    simpa [Pc.copied, hr] using h.accepted hlive
  refine ⟨h.txSeq, h.rxSeq, nofun, h.chunks, fun _ ↦ ?_, h.sent, fun _ ↦ ?_, ?_, h.room, nofun⟩
  · show e.hist.handed = e.hist.sent.flatten ++ []
    rw [← hunsent]
    exact h.handed hlive
  · show e.hist.accepted.flatten = (e.hist.delivered ++ r.dst) ++ ([] ++ e.pending)
    rw [haccepted, List.nil_append, List.append_assoc]
  · show e.hist.delivered ++ r.dst <+: e.hist.accepted.flatten
    rw [haccepted, ← List.append_assoc]
    exact List.prefix_append _ _

/-- The head of `rdma_recv`'s loop, up to the point it goes on from. -/
theorem rdmaRecvPending {r r₁ : RecvCall} (h : Booked cfg e) (hpc : e.pc = .recvLoop r)
    (hpass : e.rdmaRecvPending r = (e₁, r₁)) : Booked cfg (e₁.goto (.recvLoop r₁)) := by
  obtain ⟨hbytes, -, -, hroom⟩ := rdmaRecvPending_bytes h.room hpass
  have hlive : e.pc.live = true := by rw [hpc]; rfl
  have haccepted : e.hist.accepted.flatten = e.hist.delivered ++ (r.dst ++ e.pending) := by
    simpa [hpc, Pc.copied, Pc.receiving] using h.accepted hlive
  have hhanded : e.hist.handed = e.hist.sent.flatten ++ [] := by
    simpa [hpc, Pc.unsent] using h.handed hlive
  rw [hbytes] at haccepted
  have hframe := (rdmaRecvPending_frame hpass).1
  generalize e₁.rxPendingOff = off at hframe
  generalize e₁.rxPendingLen = len at hframe
  subst hframe
  exact ⟨h.txSeq, h.rxSeq, nofun, h.chunks, fun _ ↦ hhanded, h.sent, fun _ ↦ haccepted,
    h.delivered, hroom, nofun⟩

/-- **Every move keeps the books.** -/
theorem move {a : Act} (h : Booked cfg e) (hmove : Move cfg e a e') : Booked cfg e' := by
  have hpoll : ∀ {l : Loop} {wc : Wc} {e₁ : Endpoint}, e.pc = l.poll →
      e.popRcq = some (wc, e₁) → Booked cfg e₁ ∧ e₁.pc = l.poll := by
    intro l wc e₁ hpc hpop
    refine ⟨h.popRcq hpop, ?_⟩
    obtain ⟨q, ops, rfl⟩ := popRcq_frame hpop
    exact hpc
  cases hmove with
  | callSend data hpc =>
    have hhanded : e.hist.handed = e.hist.sent.flatten ++ [] := by
      simpa [hpc, Pc.unsent, Pc.live] using h.handed
    have haccepted : e.hist.accepted.flatten = e.hist.delivered ++ ([] ++ e.pending) := by
      simpa [hpc, Pc.copied, Pc.receiving, Pc.live] using h.accepted
    refine ⟨h.txSeq, h.rxSeq, nofun, h.chunks, fun _ ↦ ?_, ?_, fun _ ↦ haccepted, h.delivered,
      h.room, nofun⟩
    · show e.hist.handed ++ data = e.hist.sent.flatten ++ data
      rw [hhanded, List.append_nil]
    · exact h.sent.trans (List.prefix_append _ _)
  | callRecv size hpc =>
    have hhanded : e.hist.handed = e.hist.sent.flatten ++ [] := by
      simpa [hpc, Pc.unsent, Pc.live] using h.handed
    have haccepted : e.hist.accepted.flatten = e.hist.delivered ++ ([] ++ e.pending) := by
      simpa [hpc, Pc.copied, Pc.receiving, Pc.live] using h.accepted
    exact ⟨h.txSeq, h.rxSeq, nofun, h.chunks, fun _ ↦ hhanded, h.sent, fun _ ↦ haccepted,
      h.delivered, h.room, nofun⟩
  | sendReturn hpc =>
    exact h.goto (by rw [hpc]; rfl) nofun (by rw [hpc]; rfl) (by rw [hpc]; rfl) nofun
  | sendData src hpc hsrc => exact h.rdmaSendLoop hpc hsrc
  | sendWait w wc e₁ hpc hpop hwait hack =>
    rw [← popScq_pc hpop] at hpc
    exact (h.popScq hpop).goto (by rw [hpc]; rfl)
      (fun w' hw' ↦ (h.popScq hpop).seq w' (by rw [hpc]; exact hw')) (by rw [hpc]; rfl)
      (by rw [hpc]; rfl) nofun
  | sendNext w wc e₁ hpc hpop hnext =>
    rw [← popScq_pc hpop] at hpc
    exact (h.popScq hpop).sendNext (by rw [hpc]; rfl)
  | retransmitted w wc e₁ hpc hpop =>
    rw [← popScq_pc hpop] at hpc
    exact (h.popScq hpop).goto (by rw [hpc]; rfl)
      (fun w' hw' ↦ (h.popScq hpop).seq w' (by rw [hpc]; exact hw')) (by rw [hpc]; rfl)
      (by rw [hpc]; rfl) nofun
  | waitAcked w seq wc e₁ hpc hpop =>
    rw [← popScq_pc hpop] at hpc
    have h₁ := (h.popScq hpop).ackPosted seq
    have hpc₁ : (e₁.ackPosted seq).pc = .waitPost w (some seq) := hpc
    exact h₁.goto (by rw [hpc₁]; rfl) (fun w' hw' ↦ h₁.seq w' (by rw [hpc₁]; exact hw'))
      (by rw [hpc₁]; rfl) (by rw [hpc₁]; rfl) nofun
  | recvAcked r seq wc e₁ hpc hpop =>
    rw [← popScq_pc hpop] at hpc
    have hpc₁ : (e₁.ackPosted seq).pc = .recvPost r seq := hpc
    exact ((h.popScq hpop).ackPosted seq).goto (by rw [hpc₁]; rfl) nofun (by rw [hpc₁]; rfl)
      (by rw [hpc₁]; rfl) nofun
  | recvFinished r seq wc e₁ hpc hpop =>
    rw [← popScq_pc hpop] at hpc
    have hpc₁ : (e₁.ackPosted seq).pc = .recvFinal r seq := hpc
    exact ((h.popScq hpop).ackPosted seq).rdmaRecvReturn (by rw [hpc₁]; rfl)
  | waitExhausted w hpc hretries => exact h.fail _
  | retransmit w hpc hretries =>
    -- the same frame is posted again, so nothing is counted
    have hdrained : ∀ r, Pc.waitPost { w with retries := w.retries + 1 } none = .recvPoll r →
        r.rem ≠ 0 ∧ e.pending = [] := by
      intro r hr
      cases hr
    refine Booked.postSend (h.goto (by rw [hpc]; rfl) ?_ (by rw [hpc]; rfl) (by rw [hpc]; rfl)
      hdrained) _ _
    rintro w' ⟨⟩
    exact h.seq w (by rw [hpc]; rfl)
  | pollFail l wc e₁ err hpc hpop herr => exact (h.popRcq hpop).fail err
  | pollStale l wc e₁ hpc hpop hframe =>
    obtain ⟨h₁, hpc₁⟩ := hpoll hpc hpop
    exact (h₁.postRx wc.wrId).resumePoll hpc₁ none
  | pollAck l wc e₁ seq hpc hpop hframe hmore =>
    obtain ⟨h₁, hpc₁⟩ := hpoll hpc hpop
    exact ((h₁.postRx wc.wrId).absorbAck seq).resumePoll hpc₁ none
  | pollAckDone w wc e₁ seq hpc hpop hframe hdone =>
    obtain ⟨h₁, hpc₁⟩ := hpoll (l := .wait w) hpc hpop
    refine ((h₁.postRx wc.wrId).absorbAck seq).sendNext ?_
    show e₁.pc.sending = some w
    rw [hpc₁]
    rfl
  | pollDuplicate l wc e₁ seq hpc hpop hframe =>
    obtain ⟨h₁, hpc₁⟩ := hpoll hpc hpop
    exact (h₁.postRx wc.wrId).resumePoll hpc₁ _
  | waitAccept w wc e₁ seq payload hpc hpop hframe hpending =>
    obtain ⟨h₁, hpc₁⟩ := hpoll (l := .wait w) hpc hpop
    have hpending₁ : e₁.rxPendingLen = 0 := by
      obtain ⟨q, ops, rfl⟩ := popRcq_frame hpop
      exact hpending
    exact (h₁.bufferPayload hpc₁ hpending₁ wc.wrId payload).resume hpc₁ rfl rfl rfl rfl _
  | recvAccept r wc e₁ seq payload hpc hpop hframe =>
    obtain ⟨h₁, hpc₁⟩ := hpoll (l := .recv r) hpc hpop
    have h₂ := (h₁.copyOut hpc₁ wc.wrId seq payload).resume
      (l := .recv (r.accept seq payload)) rfl rfl rfl rfl rfl (recvReply cfg seq)
    cases hreply : recvReply cfg seq <;> rwa [hreply] at h₂
  | recvBlock r r₁ e₁ hpc hpass hrem =>
    -- the call still wants bytes, so its pass has emptied `rx_pending`
    have hpending := (rdmaRecvPending_bytes h.room hpass).2.1 hrem
    refine Booked.goto (e := e₁.goto (.recvLoop r₁)) (h.rdmaRecvPending hpc hpass) rfl nofun rfl
      rfl ?_
    rintro r' ⟨⟩
    exact ⟨hrem, hpending⟩
  | recvAckLast r r₁ e₁ hpc hpass hrem howed =>
    exact ((h.rdmaRecvPending hpc hpass).rdmaSendFixedAck r₁.lastSeq).goto rfl nofun rfl rfl nofun
  | recvReturn r r₁ e₁ hpc hpass hrem howed =>
    exact (h.rdmaRecvPending hpc hpass).rdmaRecvReturn rfl
  | fail hidle hfailed => exact h.fail _
  | sendDone e₁ hdone => exact h.sendDone hdone

/-- At the start, the books are empty. -/
theorem activate (cfg : RdmaConfig) (txMem : ℕ → List UInt8) (rxMem : ℕ → Packet) :
    Booked cfg (rdmaActivate cfg txMem rxMem) where
  txSeq := rfl
  rxSeq := rfl
  seq := nofun
  chunks := nofun
  handed _ := rfl
  sent := List.prefix_refl _
  accepted _ := rfl
  delivered := List.prefix_refl _
  room := Nat.zero_le _
  drained := nofun

end Booked

end Endpoint

end LlamaRdma
