import NixStrixHalo.Library.Arq
import NixStrixHalo.LlamaRdma.Calls
import NixStrixHalo.LlamaRdma.Ring

/-!
# An endpoint as a party of the acknowledgement protocol

`Endpoint.party` reads an endpoint as a party of the abstract protocol of `Arq`: frames by what
their receiver reads in them (`readFrame`), `tx_last_acked` as what is acknowledged, the frame
`rdma_send` is blocked on as the held frame, and the ACK `rdma_recv` has put off as the one owed.
Every move of an endpoint is then a move of its party or escapes it (`Endpoint.Ready.simulates`),
as long as the sequence numbers do not wrap.

## What the protocol does not see

An endpoint expects a number, and the abstract protocol does not. `readFrame` is the part of the
checks that does not depend on it, and `RxFrame.Reads` says what a check has read in a frame. A poll
for a send, a return and the arrival of a frame leave the party as it is; they are stutters.

## The proof

`Ready` is what `Calls` and `Ring` keep, with the numbers still below `2 ^ 64`. The
moves that post a frame have a lemma each, because they differ in what they put behind the frames
already on their way, and `Ready.simulates` goes through the constructors of `Move`. A frame that
is held for retransmission may be overwritten in its slot, in which case what goes out is the
acknowledgement that was written there.
-/

namespace LlamaRdma

open Arq (Side)

/-! ### Reading frames -/

/-- A frame as an endpoint reads it, whatever it expects next. -/
def readFrame (cfg : RdmaConfig) (bytes : List UInt8) : Arq.Frame (List UInt8) :=
  if bytes.length ≠ cfg.chunkSize then .noise
  else match rdmaReadFrameHeader bytes with
    | none => .noise
    | some h =>
      if ¬ rdmaFrameIsAck h.payloadSize ∧ cfg.framePayloadSize < h.payloadSize then .noise
      else if h.cookie ≠ cfg.rxCookie then .noise
      else if rdmaFrameIsAck h.payloadSize then .ack h.seq
      else .data h.seq ((bytes.drop rdmaFrameHeader).take h.payloadSize)

/-- What the outcome of the checks says about the frame, when `rxSeq` is expected. -/
def RxFrame.Reads (rxSeq : ℕ) (f : Arq.Frame (List UInt8)) : RxFrame → Prop
  | .badLength | .badHeader | .staleCookie => f = .noise
  | .ack seq => f = .ack seq
  | .duplicate seq => seq < rxSeq ∧ ∃ payload, f = .data seq payload
  | .outOfOrder seq => rxSeq < seq ∧ ∃ payload, f = .data seq payload
  | .inOrder seq payload => seq = rxSeq ∧ f = .data seq payload

/-- The classification of a frame says what it holds. -/
theorem reads_classify (cfg : RdmaConfig) (rxSeq : ℕ) (bytes : List UInt8) :
    (classify cfg rxSeq bytes bytes.length).Reads rxSeq (readFrame cfg bytes) := by
  unfold classify readFrame
  split
  · rfl
  rcases rdmaReadFrameHeader bytes with - | h
  · rfl
  dsimp only
  split
  · rfl
  split
  · rfl
  split
  · rfl
  split
  next hlt => exact ⟨hlt, _, rfl⟩
  split
  next hgt => exact ⟨hgt, _, rfl⟩
  next => exact ⟨by omega, rfl⟩

section Posted

variable {cfg peer : RdmaConfig}

/-- A data frame fills its chunk. -/
theorem length_dataFrame {chunk : List UInt8} (seq : ℕ) (h : chunk.length ≤ cfg.framePayloadSize) :
    (dataFrame cfg seq chunk).length = cfg.chunkSize := by
  have := cfg.header_add_framePayloadSize
  simp only [dataFrame, length_rdmaWriteFrameHeader, List.length_append, List.length_replicate]
  omega

/-- An acknowledgement fills a chunk, too. -/
theorem length_ackFrame (seq : ℕ) : (ackFrame cfg seq).length = cfg.chunkSize := by
  have := cfg.header_lt_chunkSize
  simp only [ackFrame, length_rdmaWriteFrameHeader, List.length_replicate]
  omega

/-- The peer reads a data frame as it was posted. -/
theorem readFrame_dataFrame (hsize : peer.chunkSize = cfg.chunkSize)
    (hcookie : peer.rxCookie = cfg.txCookie) {seq : ℕ} (hseq : seq < 2 ^ 64) {chunk : List UInt8}
    (hchunk : chunk.length ≤ cfg.framePayloadSize) :
    readFrame peer (dataFrame cfg seq chunk) = .data seq chunk := by
  have hfps : peer.framePayloadSize = cfg.framePayloadSize := by
    simp only [RdmaConfig.framePayloadSize, hsize]
  have hack := cfg.framePayloadSize_lt_ack
  have hlen : chunk.length % 2 ^ 32 = chunk.length :=
    Nat.mod_eq_of_lt (by simp only [rdmaFrameAck] at hack; omega)
  have hdrop : (dataFrame cfg seq chunk).drop rdmaFrameHeader =
      chunk ++ List.replicate (cfg.framePayloadSize - chunk.length) 0 := by
    rw [dataFrame, drop_rdmaWriteFrameHeader, List.append_assoc]
    exact List.drop_left' (by simp)
  have hnack : ¬ rdmaFrameIsAck chunk.length := by
    simp only [rdmaFrameIsAck]
    omega
  unfold readFrame
  rw [if_neg (by simp [length_dataFrame seq hchunk, hsize]), hdrop, dataFrame,
    rdmaReadFrameHeader_write, hlen, Nat.mod_eq_of_lt hseq, Nat.mod_eq_of_lt cfg.txCookie_lt]
  simp only [hcookie, hfps, hnack, not_true_eq_false, ne_eq, not_false_eq_true, true_and, if_false,
    if_neg (Nat.not_lt.2 hchunk), List.take_left' rfl]

/-- The peer reads an ACK as it was posted. -/
theorem readFrame_ackFrame (hsize : peer.chunkSize = cfg.chunkSize)
    (hcookie : peer.rxCookie = cfg.txCookie) {seq : ℕ} (hseq : seq < 2 ^ 64) :
    readFrame peer (ackFrame cfg seq) = .ack seq := by
  have hword : rdmaFrameAck % 2 ^ 32 = rdmaFrameAck := rfl
  have hack : rdmaFrameIsAck rdmaFrameAck := rfl
  unfold readFrame
  rw [if_neg (by simp [length_ackFrame, hsize]), ackFrame, rdmaReadFrameHeader_write, hword,
    Nat.mod_eq_of_lt hseq, Nat.mod_eq_of_lt cfg.txCookie_lt]
  simp only [hcookie, hack, not_true_eq_false, ne_eq, false_and, if_false, if_true]

end Posted

/-- The message a frame was transmitted for. -/
def PostKind.own : PostKind → Option ℕ
  | data seq | retransmit seq => some seq
  | ack _ | stale => none

/-- A frame in flight to an endpoint. -/
def Packet.view (cfg : RdmaConfig) (w : Packet) : Arq.Packet (List UInt8) :=
  ⟨readFrame cfg w.bytes, w.kind.own⟩

/-! ### An endpoint as a party -/

namespace Endpoint

variable (cfg peer : RdmaConfig) (e : Endpoint)

/-- The frame that `rdma_send` is blocked on: it was posted and has to be acknowledged before the
call goes on. -/
def blockedOn : Option SendCall :=
  match e.pc with
  | .sendPoll w => if e.waitForWindow cfg w ∨ waitForFinal cfg w then some w else none
  | .waitPoll w | .waitPost w _ => some w
  | _ => none

/-- The ACK that `rdma_recv` sends after its loop if it sends none before. -/
def lastDue (rxLastAcked lastSeq : ℕ) : Option ℕ :=
  if cfg.sendFrameAck ∧ lastSeq ≠ 0 ∧ rxLastAcked < lastSeq then some lastSeq else none

/-- The ACK that `rdma_recv` has put off. -/
def owed : Option ℕ :=
  match e.pc with
  | .recvLoop r | .recvPoll r => lastDue cfg e.rxLastAcked r.lastSeq
  | .recvPost r ack => lastDue cfg (max e.rxLastAcked ack) r.lastSeq
  | _ => none

/-- The frames that have arrived and are not polled, oldest first. -/
def arrived : List Packet := e.rcq.map fun wc ↦ e.rxBuf wc.wrId

/-- An endpoint as a party, with `out` on its way to the peer. -/
def party (out : List (Arq.Packet (List UInt8))) : Arq.Party (List UInt8) where
  sent := e.hist.sent
  acked := e.txLastAcked
  accepted := e.hist.accepted
  owed := e.owed cfg
  held := (e.blockedOn cfg).map fun w ↦ ⟨readFrame peer (e.txBuf w.slot), w.retries⟩
  out := out
  live := e.pc.live

/-- The limits an endpoint keeps to. -/
def limits : Arq.Params :=
  ⟨if cfg.waitFrameAck then some cfg.ackWindow else none, cfg.ackRetries⟩

/-- A step of an endpoint, seen as a move of its party: what it posts goes behind `out`, and what is
on its way to it is what has arrived and then `rest`. -/
def Simulated (e' : Endpoint) : Prop :=
  ∃ posted : List Packet, e'.wire = e.wire ++ posted ∧
    ∀ out rest, Arq.Move (limits cfg) (e.party cfg peer out)
        (e.arrived.map (Packet.view cfg) ++ rest)
        (e'.party cfg peer (out ++ posted.map (Packet.view peer)))
        (e'.arrived.map (Packet.view cfg) ++ rest) ∨
      posted = [] ∧ e'.arrived = e.arrived ∧ e'.party cfg peer out = e.party cfg peer out

/-- What the simulation needs of an endpoint: its invariants, and what soundness of the protocol
gives for its party. -/
structure Ready : Prop where
  separate : cfg.sharedCq = false
  size : peer.chunkSize = cfg.chunkSize
  cookie : peer.rxCookie = cfg.txCookie
  ring : RingInv cfg.rxDepth e
  booked : Booked cfg e
  sentBelow : e.hist.sent.length + 1 < 2 ^ 64
  acceptedBelow : e.hist.accepted.length + 1 < 2 ^ 64
  blocked : ∀ w, e.blockedOn cfg = some w → e.txLastAcked < e.hist.sent.length
  due : ∀ seq, e.owed cfg = some seq → seq ≤ e.hist.accepted.length

variable {cfg peer e} {e' e₁ : Endpoint}

/-- What remains to be acknowledged after another acknowledgement. -/
theorem lastDue_max (a b last : ℕ) :
    lastDue cfg (max a b) last = (lastDue cfg a last).filter (b < ·) := by
  unfold lastDue
  by_cases h : cfg.sendFrameAck = true ∧ last ≠ 0 ∧ a < last
  · by_cases hb : b < last
    · simp [h, hb, Option.filter]
    · simp [h, hb, Option.filter]
  · have h' : ¬ (cfg.sendFrameAck = true ∧ last ≠ 0 ∧ max a b < last) := by
      rintro ⟨h₁, h₂, h₃⟩
      exact h ⟨h₁, h₂, by omega⟩
    rw [if_neg h, if_neg h']
    rfl

/-- What is to be acknowledged is the last frame, or nothing. -/
theorem lastDue_cases (a last : ℕ) :
    lastDue cfg a last = none ∨ lastDue cfg a last = some last := by
  unfold lastDue
  split
  · exact Or.inr rfl
  · exact Or.inl rfl

namespace Ready

variable (h : Ready cfg peer e)
include h

/-- The send counter is one ahead of the frames that have been sent. -/
theorem txSeq : e.txSeq = e.hist.sent.length + 1 := by
  rw [h.booked.txSeq, Nat.mod_eq_of_lt h.sentBelow]

/-- The receive counter is one ahead of the frames that have been accepted. -/
theorem rxSeq : e.rxSeq = e.hist.accepted.length + 1 := by
  rw [h.booked.rxSeq, Nat.mod_eq_of_lt h.acceptedBelow]

/-- The call works on the last frame that has been sent. -/
theorem seq {w : SendCall} (hw : e.pc.sending = some w) : w.seq = e.hist.sent.length := by
  have hlt := h.sentBelow
  rw [h.booked.seq w hw, Nat.mod_eq_of_lt (by omega)]

/-- What the poll of a completion finds. -/
theorem polled {wc : Wc} (hpop : e.popRcq = some (wc, e₁)) :
    e.arrived = e.rxBuf wc.wrId :: e₁.arrived ∧
      (e.rxFrame cfg wc).Reads e.rxSeq (readFrame cfg (e.rxBuf wc.wrId).bytes) := by
  obtain ⟨hq, rfl⟩ := popRcq_eq_some_iff.1 hpop
  refine ⟨?_, ?_⟩
  · show e.rcq.map _ = _
    rw [hq]
    rfl
  · have hmem : wc ∈ e.rcq := hq ▸ List.mem_cons_self
    rw [rxFrame, (h.ring.recvs wc hmem).2]
    exact reads_classify cfg e.rxSeq _

/-- A polled acknowledgement is what the slot holds. -/
theorem polled_ack {wc : Wc} {seq : ℕ} (hpop : e.popRcq = some (wc, e₁))
    (hframe : e.rxFrame cfg wc = .ack seq) :
    readFrame cfg (e.rxBuf wc.wrId).bytes = .ack seq := by
  have hreads := (h.polled hpop).2
  rwa [hframe] at hreads

/-- A polled duplicate is a data frame that was accepted before. -/
theorem polled_duplicate {wc : Wc} {seq : ℕ} (hpop : e.popRcq = some (wc, e₁))
    (hframe : e.rxFrame cfg wc = .duplicate seq) :
    seq < e.rxSeq ∧ ∃ payload, readFrame cfg (e.rxBuf wc.wrId).bytes = .data seq payload := by
  have hreads := (h.polled hpop).2
  rwa [hframe] at hreads

/-- A polled frame in order is the data frame that is expected. -/
theorem polled_inOrder {wc : Wc} {seq : ℕ} {payload : List UInt8}
    (hpop : e.popRcq = some (wc, e₁)) (hframe : e.rxFrame cfg wc = .inOrder seq payload) :
    seq = e.rxSeq ∧ readFrame cfg (e.rxBuf wc.wrId).bytes = .data seq payload := by
  have hreads := (h.polled hpop).2
  rwa [hframe] at hreads

end Ready

/-! ### The simulation -/

/-- A step that changes nothing the party sees. -/
theorem Simulated.stutter (hwire : e'.wire = e.wire) (harrived : e'.arrived = e.arrived)
    (hparty : ∀ out, e'.party cfg peer out = e.party cfg peer out) : Simulated cfg peer e e' :=
  ⟨[], by simpa using hwire, fun out _ ↦ Or.inr ⟨rfl, harrived, hparty out⟩⟩

/-- The frames posted by an ACK that goes out or does not. -/
def replied (cfg : RdmaConfig) : Option ℕ → List Packet
  | none => []
  | some seq => [⟨ackFrame cfg seq, .ack seq⟩]

/-- Going back to the loop sends the answer, and nothing else. -/
theorem resume_wire (l : Loop) (reply : Option ℕ) :
    (e.resume cfg l reply).wire = e.wire ++ replied cfg reply := by
  cases reply with
  | none => exact (List.append_nil _).symm
  | some seq => rfl

/-- Going back to the loop takes no frame from the queue. -/
theorem resume_arrived (l : Loop) (reply : Option ℕ) :
    (e.resume cfg l reply).arrived = e.arrived := by
  cases reply <;> rfl

/-- Going on with a loop answers as the party does. -/
theorem resume_party (hsize : peer.chunkSize = cfg.chunkSize)
    (hcookie : peer.rxCookie = cfg.txCookie) (e : Endpoint) (l : Loop) {reply : Option ℕ} {seq : ℕ}
    (hreply : reply = none ∨ reply = some seq) (hseq : seq < 2 ^ 64) :
    ∃ r : Option Bool, ∀ out,
      (e.resume cfg l reply).party cfg peer (out ++ (replied cfg reply).map (Packet.view peer)) =
        ((e.goto l.head).party cfg peer out).answer seq r := by
  rcases hreply with rfl | rfl
  · refine ⟨none, fun out ↦ ?_⟩
    rw [replied, List.map_nil, List.append_nil]
    rfl
  · have hframe := readFrame_ackFrame hsize hcookie hseq
    have hview : (replied cfg (some seq)).map (Packet.view peer) = [⟨.ack seq, none⟩] := by
      simp [replied, Packet.view, hframe, PostKind.own]
    cases l with
    | wait w =>
      -- the ACK overwrites the held frame if the ring has come round to its slot
      refine ⟨some (decide (w.slot = e.txHead)), fun out ↦ ?_⟩
      rw [hview]
      refine Arq.Party.ext rfl rfl rfl rfl ?_ rfl rfl
      show some (Arq.Held.mk (readFrame peer (Function.update e.txBuf e.txHead _ w.slot)) w.retries)
        = if decide (w.slot = e.txHead) = true then _ else _
      by_cases hslot : w.slot = e.txHead
      · rw [hslot, Function.update_self, hframe, decide_eq_true rfl, if_pos rfl]
        rfl
      · rw [Function.update_of_ne hslot, decide_eq_false hslot, if_neg (by simp)]
        rfl
    | recv r =>
      refine ⟨some false, fun out ↦ ?_⟩
      rw [hview]
      exact Arq.Party.ext rfl rfl rfl (lastDue_max _ _ _) rfl rfl rfl

/-- A poll that goes on with a loop is a move of the party that takes the polled frame. -/
theorem Simulated.resume {wc : Wc} {l : Loop} {reply : Option ℕ} {seq : ℕ}
    (h : Ready cfg peer e) (hpop : e.popRcq = some (wc, e₁)) (hwire : e'.wire = e.wire)
    (harrived : e'.arrived = e₁.arrived) (hreply : reply = none ∨ reply = some seq)
    (hseq : seq < 2 ^ 64)
    (hmove : ∀ out i r, Arq.Move (limits cfg) (e.party cfg peer out)
      ((e.rxBuf wc.wrId).view cfg :: i) (((e'.goto l.head).party cfg peer out).answer seq r) i) :
    Simulated cfg peer e (e'.resume cfg l reply) := by
  obtain ⟨r, hr⟩ := resume_party h.size h.cookie e' l hreply hseq
  refine ⟨replied cfg reply, by rw [resume_wire, hwire], fun out rest ↦ Or.inl ?_⟩
  rw [hr out, resume_arrived, harrived, (h.polled hpop).1, List.map_cons, List.cons_append]
  exact hmove out _ r

/-- A poll that a party sees as taking the polled frame, and that posts nothing. -/
theorem Simulated.take {wc : Wc} (h : Ready cfg peer e) (hpop : e.popRcq = some (wc, e₁))
    (hwire : e'.wire = e.wire) (harrived : e'.arrived = e₁.arrived)
    (hmove : ∀ out i, Arq.Move (limits cfg) (e.party cfg peer out)
      ((e.rxBuf wc.wrId).view cfg :: i) (e'.party cfg peer out) i) :
    Simulated cfg peer e e' := by
  refine ⟨[], by simpa using hwire, fun out rest ↦ Or.inl ?_⟩
  rw [List.map_nil, List.append_nil, harrived, (h.polled hpop).1, List.map_cons, List.cons_append]
  exact hmove out _

/-- The party depends on these fields only. -/
theorem party_congr {out : List (Arq.Packet (List UInt8))} (hsent : e'.hist.sent = e.hist.sent)
    (hacked : e'.txLastAcked = e.txLastAcked) (haccepted : e'.hist.accepted = e.hist.accepted)
    (howed : e'.owed cfg = e.owed cfg) (hblocked : e'.blockedOn cfg = e.blockedOn cfg)
    (hbuf : e'.txBuf = e.txBuf) (hlive : e'.pc.live = e.pc.live) :
    e'.party cfg peer out = e.party cfg peer out := by
  unfold party
  rw [hsent, hacked, haccepted, howed, hblocked, hbuf, hlive]

/-- An acknowledgement raises the number that is known to have arrived. -/
theorem absorbAck_txLastAcked (e : Endpoint) (seq : ℕ) :
    (e.absorbAck seq).txLastAcked = max e.txLastAcked seq := by
  show (if e.txLastAcked < seq then seq else e.txLastAcked) = _
  split <;> omega

/-- A posted acknowledgement raises the number that is known to be acknowledged. -/
theorem ackPosted_rxLastAcked (e : Endpoint) (seq : ℕ) :
    (e.ackPosted seq).rxLastAcked = max e.rxLastAcked seq := by
  show (if e.rxLastAcked < seq then seq else e.rxLastAcked) = _
  split <;> omega

/-! #### From the poll of a loop to its head -/

/-- The head of the loop owes what its poll owed. -/
theorem owed_head {l : Loop} (hpc : e.pc = l.poll) (h : e'.rxLastAcked = e.rxLastAcked) :
    (e'.goto l.head).owed cfg = e.owed cfg := by
  cases l with
  | wait w => simp only [owed, goto, hpc, Loop.head, Loop.poll]
  | recv r => simp only [owed, goto, hpc, Loop.head, Loop.poll, h]

/-- The head of the loop waits for what its poll waited for. -/
theorem blockedOn_head {l : Loop} (hpc : e.pc = l.poll) :
    (e'.goto l.head).blockedOn cfg = e.blockedOn cfg := by
  cases l <;> simp only [blockedOn, goto, hpc, Loop.head, Loop.poll]

/-- The head of the loop is alive if its poll is. -/
theorem live_head {l : Loop} (hpc : e.pc = l.poll) : (e'.goto l.head).pc.live = e.pc.live := by
  cases l <;> simp only [goto, hpc, Loop.head, Loop.poll, Pc.live]

/-- The party does not tell the head of the loop from its poll. -/
theorem party_head {l : Loop} {out : List (Arq.Packet (List UInt8))} (hpc : e.pc = l.poll)
    (hsent : e'.hist.sent = e.hist.sent) (hacked : e'.txLastAcked = e.txLastAcked)
    (haccepted : e'.hist.accepted = e.hist.accepted) (hrx : e'.rxLastAcked = e.rxLastAcked)
    (hbuf : e'.txBuf = e.txBuf) :
    (e'.goto l.head).party cfg peer out = e.party cfg peer out :=
  party_congr hsent hacked haccepted (owed_head hpc hrx) (blockedOn_head hpc) hbuf (live_head hpc)

/-- What a party is blocked on when it polls. -/
theorem blockedOn_poll {l : Loop} (hpc : e.pc = l.poll) {w : SendCall}
    (hw : e.blockedOn cfg = some w) : l = .wait w := by
  cases l with
  | wait w' =>
    simp only [blockedOn, hpc, Loop.poll] at hw
    obtain rfl := Option.some.inj hw
    rfl
  | recv r => simp [blockedOn, hpc] at hw

/-- The next data frame goes out. -/
theorem Ready.simulates_sendData {src : List UInt8} (h : Ready cfg peer e)
    (hpc : e.pc = .sendLoop src) (hsrc : src ≠ []) :
    Simulated cfg peer e (e.rdmaSendLoop cfg src) := by
  have hlt := h.sentBelow
  have hchunk : (src.take (chunkLen cfg src)).length ≤ cfg.framePayloadSize := by
    rw [List.length_take, chunkLen]
    omega
  -- the numbers do not wrap, so the peer reads what was written
  have hframe : readFrame peer (dataFrame cfg e.txSeq (src.take (chunkLen cfg src))) =
      .data (e.hist.sent.length + 1) (src.take (chunkLen cfg src)) := by
    rw [readFrame_dataFrame h.size h.cookie (by rw [h.txSeq]; exact hlt) hchunk, h.txSeq]
  set e' := e.rdmaSendLoop cfg src with he'
  rw [rdmaSendLoop_of_ne_nil cfg e hsrc] at he'
  have hpc' : e'.pc = .sendPoll ⟨src, e.txSeq, e.txHead, 0⟩ := by rw [he']; rfl
  have hacked' : e'.txLastAcked = e.txLastAcked := by rw [he']; rfl
  have hslot : e'.txBuf e.txHead = dataFrame cfg e.txSeq (src.take (chunkLen cfg src)) := by
    rw [he']
    exact Function.update_self ..
  refine ⟨[⟨dataFrame cfg e.txSeq (src.take (chunkLen cfg src)), .data e.txSeq⟩], by rw [he']; rfl,
    fun out rest ↦ Or.inl ?_⟩
  have hview : (⟨dataFrame cfg e.txSeq (src.take (chunkLen cfg src)), .data e.txSeq⟩ : Packet).view
      peer = ⟨.data (e.hist.sent.length + 1) (src.take (chunkLen cfg src)),
        some (e.hist.sent.length + 1)⟩ := by
    rw [Packet.view, hframe, h.txSeq]
    rfl
  have hparty : e'.party cfg peer (out ++ [(⟨dataFrame cfg e.txSeq (src.take (chunkLen cfg src)),
      .data e.txSeq⟩ : Packet).view peer]) = (e.party cfg peer out).send
        (src.take (chunkLen cfg src))
        ((e'.blockedOn cfg).map fun w ↦ ⟨readFrame peer (e'.txBuf w.slot), w.retries⟩) := by
    rw [hview]
    refine Arq.Party.ext (by rw [he']; rfl) (by rw [he']; rfl) (by rw [he']; rfl) ?_ rfl rfl ?_
    · simp only [party, owed, hpc', Arq.Party.send, hpc]
    · simp only [party, hpc', Arq.Party.send, hpc, Pc.live]
  have harrived : e'.arrived = e.arrived := by rw [he']; rfl
  rw [List.map_singleton, hparty, harrived]
  refine .send _ _ _ ?_ ?_ ?_
  · simp only [party, blockedOn, hpc, Option.map_none]
  · simp only [blockedOn, hpc']
    split
    · refine Or.inr ?_
      show some (Arq.Held.mk (readFrame peer (e'.txBuf e.txHead)) 0) = _
      rw [hslot, hframe]
      rfl
    · exact Or.inl rfl
  · -- not blocked on the frame, the call found room in the window
    intro hfree w hw
    have hwait : ¬ e'.waitForWindow cfg ⟨src, e.txSeq, e.txHead, 0⟩ := by
      intro hwait
      simp [blockedOn, hpc', hwait] at hfree
    have hflag : cfg.waitFrameAck = true := by
      by_contra hoff
      simp [limits, hoff] at hw
    obtain rfl : cfg.ackWindow = w := by simpa [limits, hflag] using hw
    have hpos := cfg.ackWindow_pos
    show e.hist.sent.length + 1 < e.txLastAcked + cfg.ackWindow
    simp only [waitForWindow, hflag, hacked', h.txSeq, true_and, not_and, Nat.not_le] at hwait
    omega

/-- The frame that a call waits for goes out again. -/
theorem Ready.simulates_retransmit {w : SendCall} (h : Ready cfg peer e) (hpc : e.pc = .waitPoll w)
    (hretries : w.retries < cfg.ackRetries) :
    Simulated cfg peer e ((e.goto (.waitPost { w with retries := w.retries + 1 } none)).postSend
      cfg (.retransmit w.seq) (e.txBuf w.slot)) := by
  refine ⟨[⟨e.txBuf w.slot, .retransmit w.seq⟩], rfl, fun out rest ↦ Or.inl ?_⟩
  -- what goes out is what the slot holds, the frame or an ACK
  have hheld : (e.party cfg peer out).held =
      some ⟨readFrame peer (e.txBuf w.slot), w.retries⟩ := by
    simp only [party, blockedOn, hpc, Option.map_some]
  have hseq := h.seq (w := w) (by rw [hpc]; rfl)
  have hview : (⟨e.txBuf w.slot, .retransmit w.seq⟩ : Packet).view peer =
      ⟨readFrame peer (e.txBuf w.slot), some e.hist.sent.length⟩ := by
    rw [Packet.view, PostKind.own, hseq]
  rw [List.map_singleton, hview]
  have hres := Arq.Move.resend (m := limits cfg) (e.arrived.map (Packet.view cfg) ++ rest) _ hheld
    hretries
  have hparty : (e.party cfg peer out).resend
      ⟨readFrame peer (e.txBuf w.slot), w.retries⟩ = party cfg peer
        ((e.goto (.waitPost { w with retries := w.retries + 1 } none)).postSend cfg
          (.retransmit w.seq) (e.txBuf w.slot))
        (out ++ [⟨readFrame peer (e.txBuf w.slot), some e.hist.sent.length⟩]) :=
    Arq.Party.ext rfl rfl rfl (by simp only [party, owed, hpc, Arq.Party.resend]; rfl) rfl rfl
      (by simp only [party, hpc, Arq.Party.resend]; rfl)
  rw [hparty] at hres
  exact hres

/-- An ACK that leaves a call waiting. -/
theorem Ready.simulates_ack {l : Loop} {wc : Wc} {seq : ℕ} (h : Ready cfg peer e)
    (hpc : e.pc = l.poll) (hpop : e.popRcq = some (wc, e₁)) (hframe : e.rxFrame cfg wc = .ack seq)
    (hmore : ∀ w, l = .wait w → e.txLastAcked < w.seq ∧ seq < w.seq) :
    Simulated cfg peer e (((e₁.postRx wc.wrId).absorbAck seq).goto l.head) := by
  have hread := h.polled_ack hpop hframe
  obtain ⟨q, ops, rfl⟩ := popRcq_frame hpop
  refine .take h hpop rfl rfl fun out i ↦ ?_
  rw [Packet.view, hread]
  convert Arq.Move.ack i seq _ using 1
  refine Arq.Party.ext rfl (absorbAck_txLastAcked _ _) rfl (owed_head hpc rfl) ?_ rfl
    (live_head hpc)
  -- the loop goes on only while its frame is not acknowledged
  show Option.map _ ((goto _ l.head).blockedOn cfg) = if _ then none else Option.map _ _
  rw [blockedOn_head hpc]
  rcases hw : e.blockedOn cfg with - | w
  · simp
  · obtain rfl := blockedOn_poll hpc hw
    have hseq := h.seq (w := w) (by rw [hpc]; rfl)
    have hlt := hmore w rfl
    rw [if_neg]
    · rfl
    · show ¬ e.hist.sent.length ≤ max e.txLastAcked seq
      omega

/-- The ACK that a call waits for. -/
theorem Ready.simulates_ackDone {w : SendCall} {wc : Wc} {seq : ℕ} (h : Ready cfg peer e)
    (hpc : e.pc = .waitPoll w) (hpop : e.popRcq = some (wc, e₁))
    (hframe : e.rxFrame cfg wc = .ack seq) (hdone : w.seq ≤ e.txLastAcked ∨ w.seq ≤ seq) :
    Simulated cfg peer e (((e₁.postRx wc.wrId).absorbAck seq).sendNext cfg w) := by
  have hread := h.polled_ack hpop hframe
  have hseq := h.seq (w := w) (by rw [hpc]; rfl)
  obtain ⟨q, ops, rfl⟩ := popRcq_frame hpop
  refine .take h hpop rfl rfl fun out i ↦ ?_
  rw [Packet.view, hread]
  convert Arq.Move.ack i seq _ using 1
  refine Arq.Party.ext rfl (absorbAck_txLastAcked _ _) rfl
    (by simp only [party, owed, sendNext, goto, hpc, Arq.Party.absorb]) ?_ rfl
    (by simp only [party, sendNext, goto, hpc, Arq.Party.absorb, Pc.live])
  show none = if e.hist.sent.length ≤ max e.txLastAcked seq then none else _
  rw [if_pos (by omega)]

/-- The ACK for the last frame that a call accepted goes out. -/
theorem Ready.simulates_recvAckLast {r r₁ : RecvCall} (h : Ready cfg peer e)
    (hpc : e.pc = .recvLoop r) (hpass : e.rdmaRecvPending r = (e₁, r₁))
    (howed : cfg.sendFrameAck ∧ r₁.lastSeq ≠ 0 ∧ e₁.rxLastAcked < r₁.lastSeq) :
    Simulated cfg peer e
      ((e₁.rdmaSendFixedAck cfg r₁.lastSeq).goto (.recvFinal r₁ r₁.lastSeq)) := by
  obtain ⟨hframe, hlast⟩ := rdmaRecvPending_frame hpass
  have hacked : e₁.rxLastAcked = e.rxLastAcked := by rw [hframe]
  rw [hlast, hacked] at howed
  have hdue : e.owed cfg = some r.lastSeq := by
    simp only [Endpoint.owed, hpc]
    exact if_pos howed
  have hbelow := h.acceptedBelow
  have hread : readFrame peer (ackFrame cfg r.lastSeq) = .ack r.lastSeq :=
    readFrame_ackFrame h.size h.cookie (by have := h.due _ hdue; omega)
  rw [hlast, hframe]
  refine ⟨[⟨ackFrame cfg r.lastSeq, .ack r.lastSeq⟩], rfl, fun out rest ↦ Or.inl ?_⟩
  have hview : (⟨ackFrame cfg r.lastSeq, .ack r.lastSeq⟩ : Packet).view peer =
      ⟨.ack r.lastSeq, none⟩ := by
    rw [Packet.view, hread]
    rfl
  rw [List.map_singleton, hview]
  convert Arq.Move.pay (p := e.party cfg peer out) _ r.lastSeq false hdue using 1
  · refine Arq.Party.ext rfl rfl rfl ?_ ?_ rfl ?_
    · show none = (e.owed cfg).filter (r.lastSeq < ·)
      simp [hdue, Option.filter]
    · simp only [party, blockedOn, goto, hpc, Arq.Party.postAck, Option.map_none]
      rfl
    · simp only [party, goto, hpc, Arq.Party.postAck, Pc.live]
  · rfl

/-- **Every move of an endpoint is a move of its party, or the party does not see it.** -/
theorem Ready.simulates {a : Act} (h : Ready cfg peer e) (hmove : Move cfg e a e') :
    Simulated cfg peer e e' := by
  have hcq := h.separate
  cases hmove with
  | callSend data hpc =>
    exact .stutter rfl rfl fun out ↦ party_congr rfl rfl rfl (by simp only [owed, hpc])
      (by simp only [blockedOn, hpc]) rfl (by simp only [hpc, Pc.live])
  | callRecv size hpc =>
    exact .stutter rfl rfl fun out ↦ party_congr rfl rfl rfl
      (by simp [owed, hpc, lastDue]) (by simp only [blockedOn, hpc]) rfl
      (by simp only [hpc, Pc.live])
  | sendReturn hpc =>
    exact .stutter rfl rfl fun out ↦ party_congr rfl rfl rfl (by simp only [owed, goto, hpc])
      (by simp only [blockedOn, goto, hpc]) rfl (by simp only [goto, hpc, Pc.live])
  | sendData src hpc hsrc => exact h.simulates_sendData hpc hsrc
  | sendWait w wc e₁ hpc hpop hwait hack =>
    obtain ⟨-, rfl⟩ := popScq_of_separate hcq hpop
    exact .stutter rfl rfl fun out ↦ party_congr rfl rfl rfl (by simp only [owed, goto, hpc])
      (by simp only [blockedOn, goto, hpc, if_pos hwait]) rfl (by simp only [goto, hpc, Pc.live])
  | sendNext w wc e₁ hpc hpop hnext =>
    obtain ⟨-, rfl⟩ := popScq_of_separate hcq hpop
    -- a call that is to wait for its frame has not seen it acknowledged yet
    have hfree : ¬ (e.waitForWindow cfg w ∨ waitForFinal cfg w) := by
      rcases hnext with hnext | hle
      · exact hnext
      · intro hwait
        have hlt := h.blocked w (by simp only [blockedOn, hpc, if_pos hwait])
        have hseq := h.seq (w := w) (by rw [hpc]; rfl)
        omega
    exact .stutter rfl rfl fun out ↦ party_congr rfl rfl rfl
      (by simp only [owed, sendNext, goto, hpc])
      (by simp only [blockedOn, sendNext, goto, hpc, if_neg hfree]) rfl
      (by simp only [sendNext, goto, hpc, Pc.live])
  | retransmitted w wc e₁ hpc hpop =>
    obtain ⟨-, rfl⟩ := popScq_of_separate hcq hpop
    exact .stutter rfl rfl fun out ↦ party_congr rfl rfl rfl (by simp only [owed, goto, hpc])
      (by simp only [blockedOn, goto, hpc]) rfl (by simp only [goto, hpc, Pc.live])
  | waitAcked w seq wc e₁ hpc hpop =>
    obtain ⟨-, rfl⟩ := popScq_of_separate hcq hpop
    exact .stutter rfl rfl fun out ↦ party_congr rfl rfl rfl (by simp only [owed, goto, hpc])
      (by simp only [blockedOn, goto, hpc]) rfl (by simp only [goto, hpc, Pc.live])
  | recvAcked r seq wc e₁ hpc hpop =>
    obtain ⟨-, rfl⟩ := popScq_of_separate hcq hpop
    refine .stutter rfl rfl fun out ↦ party_congr rfl rfl rfl ?_
      (by simp only [blockedOn, goto, hpc]) rfl (by simp only [goto, hpc, Pc.live])
    simp only [owed, goto, hpc, ackPosted_rxLastAcked]
    rfl
  | recvFinished r seq wc e₁ hpc hpop =>
    obtain ⟨-, rfl⟩ := popScq_of_separate hcq hpop
    exact .stutter rfl rfl fun out ↦ party_congr rfl rfl rfl
      (by simp only [owed, rdmaRecvReturn, hpc]) (by simp only [blockedOn, rdmaRecvReturn, hpc]) rfl
      (by simp only [rdmaRecvReturn, hpc, Pc.live])
  | waitExhausted w hpc hretries =>
    exact ⟨[], (List.append_nil _).symm, fun out rest ↦ Or.inl (by simpa using .halt _)⟩
  | retransmit w hpc hretries => exact h.simulates_retransmit hpc hretries
  | pollFail l wc e₁ err hpc hpop herr =>
    refine .take h hpop ?_ rfl fun out i ↦ ?_
    · obtain ⟨q, ops, rfl⟩ := popRcq_frame hpop
      rfl
    · obtain ⟨q, ops, rfl⟩ := popRcq_frame hpop
      exact .reject _ _
  | pollStale l wc e₁ hpc hpop hframe =>
    have hreads := (h.polled hpop).2
    rw [hframe] at hreads
    obtain ⟨q, ops, rfl⟩ := popRcq_frame hpop
    refine .take h hpop rfl rfl fun out i ↦ ?_
    rw [Packet.view, show readFrame cfg _ = _ from hreads]
    convert Arq.Move.noise (p := e.party cfg peer out) i _ using 1
    exact party_head hpc rfl rfl rfl rfl rfl
  | pollAck l wc e₁ seq hpc hpop hframe hmore => exact h.simulates_ack hpc hpop hframe hmore
  | pollAckDone w wc e₁ seq hpc hpop hframe hdone =>
    exact h.simulates_ackDone hpc hpop hframe hdone
  | pollDuplicate l wc e₁ seq hpc hpop hframe =>
    obtain ⟨hlt, payload, hread⟩ := h.polled_duplicate hpop hframe
    rw [h.rxSeq] at hlt
    have hbelow := h.acceptedBelow
    obtain ⟨q, ops, rfl⟩ := popRcq_frame hpop
    refine .resume h hpop rfl rfl (dupReply_cases cfg seq) (by omega) fun out i r ↦ ?_
    rw [Packet.view, hread]
    convert Arq.Move.duplicate (p := e.party cfg peer out) i seq payload _ r
      (Nat.le_of_lt_succ hlt) using 2
    exact party_head hpc rfl rfl rfl rfl rfl
  | waitAccept w wc e₁ seq payload hpc hpop hframe hpending =>
    obtain ⟨hseq, hread⟩ := h.polled_inOrder hpop hframe
    rw [h.rxSeq] at hseq
    have hbelow := h.acceptedBelow
    obtain ⟨q, ops, rfl⟩ := popRcq_frame hpop
    refine .resume h hpop rfl rfl (dupReply_cases cfg seq) (by omega) fun out i r ↦ ?_
    rw [Packet.view, hread]
    convert Arq.Move.accept (p := e.party cfg peer out) i seq payload _ none r hseq (Or.inl rfl)
      using 2
    refine Arq.Party.ext rfl rfl rfl rfl ?_ rfl ?_
    · simp only [party, blockedOn, goto, hpc, Loop.head, Arq.Party.accept]
      rfl
    · simp only [party, goto, hpc, Loop.head, Arq.Party.accept, Pc.live]
  | recvAccept r wc e₁ seq payload hpc hpop hframe =>
    obtain ⟨hseq, hread⟩ := h.polled_inOrder hpop hframe
    rw [h.rxSeq] at hseq
    have hbelow := h.acceptedBelow
    obtain ⟨q, ops, rfl⟩ := popRcq_frame hpop
    rw [copyOut_frame]
    refine .resume h hpop rfl rfl (recvReply_cases cfg seq) (by omega) fun out i a ↦ ?_
    rw [Packet.view, hread]
    convert Arq.Move.accept (p := e.party cfg peer out) i seq payload _
      (lastDue cfg e.rxLastAcked seq) a hseq (lastDue_cases _ _) using 2
    refine Arq.Party.ext rfl rfl rfl rfl ?_ rfl ?_
    · simp only [party, blockedOn, goto, hpc, Loop.head, Arq.Party.accept, Option.map_none]
    · simp only [party, goto, hpc, Loop.head, Arq.Party.accept, Pc.live]
  | recvBlock r r₁ e₁ hpc hpass hrem =>
    obtain ⟨hframe, hlast⟩ := rdmaRecvPending_frame hpass
    rw [hframe]
    exact .stutter rfl rfl fun out ↦ party_congr rfl rfl rfl
      (by simp only [Endpoint.owed, goto, hpc, hlast]) (by simp only [blockedOn, goto, hpc]) rfl
      (by simp only [goto, hpc, Pc.live])
  | recvAckLast r r₁ e₁ hpc hpass hrem howed => exact h.simulates_recvAckLast hpc hpass howed
  | recvReturn r r₁ e₁ hpc hpass hrem howed =>
    obtain ⟨hframe, hlast⟩ := rdmaRecvPending_frame hpass
    rw [hlast] at howed
    -- without an ACK to send, the party owes none
    have hnone : lastDue cfg e₁.rxLastAcked r.lastSeq = none := if_neg howed
    rw [hframe] at hnone ⊢
    exact .stutter rfl rfl fun out ↦ party_congr rfl rfl rfl
      (by simpa only [Endpoint.owed, rdmaRecvReturn, hpc] using hnone.symm)
      (by simp only [blockedOn, rdmaRecvReturn, hpc]) rfl
      (by simp only [rdmaRecvReturn, hpc, Pc.live])
  | fail hidle hfailed =>
    exact ⟨[], (List.append_nil _).symm, fun out rest ↦ Or.inl (by simpa using .halt _)⟩
  | sendDone e₁ hdone =>
    obtain ⟨wc, -, rfl⟩ := sendDone_of_separate hcq hdone
    exact .stutter rfl rfl fun out ↦ rfl

/-- Only a data frame that goes out adds to what was sent. -/
theorem Move.sent_prefix {a : Act} (hmove : Move cfg e a e') :
    e.hist.sent <+: e'.hist.sent := by
  cases hmove.noted with
  | send src hpc hsrc hhist =>
    rw [hhist]
    exact List.prefix_append _ _
  | call _ _ _ hhist | accept _ _ _ _ _ _ _ _ _ hhist | keep _ _ _ hhist =>
    have hsent : e'.hist.sent = e.hist.sent := by rw [hhist]
    exact hsent ▸ List.prefix_refl _

/-- A call that returned `false` takes no further step. -/
theorem Move.live_or_sendDone {a : Act} (hmove : Move cfg e a e') :
    e.pc.live = true ∨ a = .sendDone := by
  cases hmove with
  | sendDone => exact Or.inr rfl
  | fail hidle hfailed => exact Or.inl (Pc.live_iff.2 hfailed)
  | pollFail l _ _ _ hpc | pollStale l _ _ hpc | pollAck l _ _ _ hpc | pollDuplicate l _ _ _ hpc =>
    exact Or.inl (Pc.live_iff.2 (not_failed_of_poll hpc))
  | callSend _ hpc | callRecv _ hpc | sendReturn hpc | sendData _ hpc | sendWait _ _ _ hpc
  | sendNext _ _ _ hpc | retransmitted _ _ _ hpc | waitAcked _ _ _ _ hpc | recvAcked _ _ _ _ hpc
  | recvFinished _ _ _ _ hpc | waitExhausted _ hpc | retransmit _ hpc | pollAckDone _ _ _ _ hpc
  | waitAccept _ _ _ _ _ hpc | recvAccept _ _ _ _ _ hpc | recvBlock _ _ _ hpc
  | recvAckLast _ _ _ hpc | recvReturn _ _ _ hpc =>
    rw [hpc]
    exact Or.inl rfl

end Endpoint

end LlamaRdma
