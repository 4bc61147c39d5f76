import NixStrixHalo.Library.ArqPipeline
import NixStrixHalo.LlamaRdma.Loss

/-!
# Requests and responses over a link that loses frames

The default mode acknowledges every frame before the next is sent, and the endpoints take turns: one
sends its message, the other receives it and answers. When the ACK of the last frame of a message is
lost, the answer finds its receiver still in `rdma_wait_fixed_ack`, where there is room for one
frame of it; the second frame kills the connection (`Peering.not_tolerant`). Otherwise, whatever is
lost, no call returns `false` with a protocol error (`Peering.tolerant_of_timely`).

## Usage and timing

`conversation` is what the callers keep to: neither starts to send before everything handed over so
far has been received. `timely` is the condition on the order of frames at a receiver: the second
frame of an answer comes behind the ACK of what it answers, or after it. No lost frame is excluded
by it as such.

## Whose turn it is

`Conversing` says who may be ahead: at most one endpoint has sent what the other has not received,
and what an endpoint buffers while it waits was accepted during that very call (`Buffered`). So when
a data frame comes in order and `rx_pending` is taken, this is the second frame of the answer, which
the timely link has put behind the ACK that would have ended the wait (`Conversing.room`).

A frame is never out of order here, because a window of one is enough for `Loss`, and never unknown
to the protocol (`Runs.not_noise`); these are the other branches that could end a call.
-/

namespace LlamaRdma

open Arq (Side)

/-- An `rdma_send` in progress. -/
def Pc.inSend : Pc → Bool
  | .sendLoop _ | .sendPoll _ | .waitPoll _ | .waitPost _ _ => true
  | _ => false

namespace Endpoint

variable {cfg peer : RdmaConfig} {e e' e₁ : Endpoint}

/-! ### What `rx_pending` holds during `rdma_send` -/

/-- What is in `rx_pending` during `rdma_send` was accepted during that call. -/
structure Buffered (e : Endpoint) : Prop where
  offset : e.rxPendingOff < e.rxPendingLen ∨ e.rxPendingOff = 0 ∧ e.rxPendingLen = 0
  callRx_le : e.hist.callRx ≤ e.hist.accepted.length + 1
  fresh : e.pc.inSend = true → e.rxPendingLen ≠ 0 → e.hist.callRx ≤ e.hist.accepted.length

/-- An empty buffer has no length. -/
theorem rxPendingLen_eq_zero (h : Buffered e) (hroom : e.rxPendingLen ≤ e.rxPending.length)
    (hpending : e.pending = []) : e.rxPendingLen = 0 := by
  have hlen : e.pending.length = 0 := by rw [hpending]; rfl
  rw [pending, List.length_take, List.length_drop] at hlen
  rcases h.offset with hlt | ⟨-, hzero⟩
  · omega
  · exact hzero

/-- A step that touches neither the buffer nor what has been accepted keeps it right. -/
theorem Buffered.frame (h : Buffered e) (hoff : e'.rxPendingOff = e.rxPendingOff)
    (hlen : e'.rxPendingLen = e.rxPendingLen) (hcall : e'.hist.callRx = e.hist.callRx)
    (haccepted : e'.hist.accepted = e.hist.accepted)
    (hpc : e'.pc.inSend = true → e.pc.inSend = true) : Buffered e' := by
  refine ⟨?_, ?_, ?_⟩
  · rw [hoff, hlen]
    exact h.offset
  · rw [hcall, haccepted]
    exact h.callRx_le
  · rw [hlen, hcall, haccepted]
    exact fun hsend ↦ h.fresh (hpc hsend)

/-- Returning from the wait for an acknowledgement keeps the buffer right. -/
theorem Buffered.resume (h : Buffered e) (l : Loop) (reply : Option ℕ)
    (hpc : l.head.inSend = true → e.pc.inSend = true) : Buffered (e.resume cfg l reply) := by
  cases reply with
  | none => exact h.frame rfl rfl rfl rfl hpc
  | some seq => exact h.frame rfl rfl rfl rfl (by cases l <;> exact hpc)

/-- A wait that is entered from `rdma_send` goes on in it. -/
theorem inSend_head {l : Loop} (hpc : e.pc = l.poll) :
    l.head.inSend = true → e.pc.inSend = true := by
  cases l <;> simp only [hpc, Loop.head, Loop.poll, Pc.inSend, imp_self]

/-- After the copy, the buffer has either more to give or nothing. -/
theorem rdmaRecvPending_offset {r r₁ : RecvCall} (h : Buffered e)
    (hpass : e.rdmaRecvPending r = (e₁, r₁)) :
    e₁.rxPendingOff < e₁.rxPendingLen ∨ e₁.rxPendingOff = 0 ∧ e₁.rxPendingLen = 0 := by
  unfold rdmaRecvPending at hpass
  split at hpass
  next hlt =>
    obtain ⟨rfl, -⟩ := Prod.mk.inj hpass
    generalize hcopy : min (e.rxPendingLen - e.rxPendingOff) r.rem = copy
    have hle : copy ≤ e.rxPendingLen - e.rxPendingOff := by omega
    show (if e.rxPendingOff + copy = e.rxPendingLen then 0 else e.rxPendingOff + copy) <
        (if e.rxPendingOff + copy = e.rxPendingLen then 0 else e.rxPendingLen) ∨
      (if e.rxPendingOff + copy = e.rxPendingLen then 0 else e.rxPendingOff + copy) = 0 ∧
        (if e.rxPendingOff + copy = e.rxPendingLen then 0 else e.rxPendingLen) = 0
    split <;> omega
  next =>
    obtain ⟨rfl, -⟩ := Prod.mk.inj hpass
    exact h.offset

/-- A frame accepted by `rdma_recv` leaves what the caller did not want of it. -/
theorem Buffered.copyOut (h : Buffered e) (r : RecvCall) (slot : ℕ) (payload : List UInt8)
    (hpc : e.pc.inSend = false) : Buffered (e.copyOut r slot payload) := by
  have hframe := e.copyOut_frame r slot payload
  have hcall : (e.copyOut r slot payload).hist.callRx = e.hist.callRx := by
    rw [hframe]
    rfl
  have haccepted : (e.copyOut r slot payload).hist.accepted = e.hist.accepted ++ [payload] := by
    rw [hframe]
    rfl
  have hpc' : (e.copyOut r slot payload).pc = e.pc := by
    rw [hframe]
    rfl
  refine ⟨?_, ?_, fun hsend ↦ ?_⟩
  · unfold Endpoint.copyOut
    dsimp only
    split
    next hlt =>
      refine Or.inl ?_
      show 0 < payload.length - min payload.length r.rem
      omega
    next => exact h.offset
  · rw [hcall, haccepted, List.length_append]
    exact h.callRx_le.trans (Nat.le_succ _)
  · rw [hpc', hpc] at hsend
    cases hsend

/-- Every move keeps it so, provided that `rdma_send` is called with nothing pending. -/
theorem Move.buffered {a : Act} (h : Ready cfg peer e) (hb : Buffered e)
    (hcall : ∀ data, a = .callSend data → e.rxPendingLen = 0) (hmove : Move cfg e a e') :
    Buffered e' := by
  cases hmove with
  | callSend data hpc =>
    have hrx : e.rxSeq = e.hist.accepted.length + 1 := h.rxSeq
    exact ⟨hb.offset, hrx.le, fun _ hne ↦ absurd (hcall data rfl) hne⟩
  | callRecv size hpc => exact hb.frame rfl rfl rfl rfl nofun
  | sendReturn hpc => exact hb.frame rfl rfl rfl rfl nofun
  | sendData src hpc hsrc =>
    rw [rdmaSendLoop_of_ne_nil cfg e hsrc]
    exact hb.frame rfl rfl rfl rfl fun _ ↦ by rw [hpc]; rfl
  | sendWait _ _ _ hpc hpop | sendNext _ _ _ hpc hpop | retransmitted _ _ _ hpc hpop
  | waitAcked _ _ _ _ hpc hpop =>
    obtain ⟨scq, rcq, ops, rfl⟩ := popScq_frame hpop
    exact hb.frame rfl rfl rfl rfl fun _ ↦ by rw [hpc]; rfl
  | recvAcked _ _ _ _ _ hpop | recvFinished _ _ _ _ _ hpop =>
    obtain ⟨scq, rcq, ops, rfl⟩ := popScq_frame hpop
    exact hb.frame rfl rfl rfl rfl nofun
  | waitExhausted w hpc hretries => exact hb.frame rfl rfl rfl rfl nofun
  | retransmit w hpc hretries => exact hb.frame rfl rfl rfl rfl fun _ ↦ by rw [hpc]; rfl
  | pollFail l wc e₁ err hpc hpop herr =>
    obtain ⟨q, ops, rfl⟩ := popRcq_frame hpop
    exact hb.frame rfl rfl rfl rfl nofun
  | pollStale _ _ _ hpc hpop | pollAck _ _ _ _ hpc hpop =>
    obtain ⟨q, ops, rfl⟩ := popRcq_frame hpop
    exact hb.frame rfl rfl rfl rfl (inSend_head hpc)
  | pollAckDone w wc e₁ seq hpc hpop hframe hdone =>
    obtain ⟨q, ops, rfl⟩ := popRcq_frame hpop
    exact hb.frame rfl rfl rfl rfl fun _ ↦ by rw [hpc]; rfl
  | pollDuplicate l wc e₁ seq hpc hpop hframe =>
    obtain ⟨q, ops, rfl⟩ := popRcq_frame hpop
    refine Buffered.resume ?_ l _ (inSend_head hpc)
    exact hb.frame rfl rfl rfl rfl id
  | waitAccept w wc e₁ seq payload hpc hpop hframe hpending =>
    obtain ⟨q, ops, rfl⟩ := popRcq_frame hpop
    -- the frame is accepted during the call, so it is no older than its beginning
    have hlen : ∀ e : Endpoint, (e.bufferPayload wc.wrId payload).hist.accepted.length =
        e.hist.accepted.length + 1 := fun e ↦ List.length_append
    refine Buffered.resume ⟨?_, ?_, fun _ _ ↦ ?_⟩ (.wait w) _ fun _ ↦ by
      show e.pc.inSend = true
      rw [hpc]
      rfl
    · show 0 < payload.length ∨ 0 = 0 ∧ payload.length = 0
      omega
    · rw [hlen]
      exact hb.callRx_le.trans (Nat.le_succ _)
    · rw [hlen]
      exact hb.callRx_le
  | recvAccept r wc e₁ seq payload hpc hpop hframe =>
    obtain ⟨q, ops, rfl⟩ := popRcq_frame hpop
    refine Buffered.resume (Buffered.copyOut ?_ r wc.wrId payload ?_) (.recv _) _ nofun
    · exact hb.frame rfl rfl rfl rfl id
    · show e.pc.inSend = false
      rw [hpc]
      rfl
  | recvBlock r r₁ e₁ hpc hpass | recvReturn r r₁ e₁ hpc hpass | recvAckLast r r₁ e₁ hpc hpass =>
    have hoff := rdmaRecvPending_offset hb hpass
    refine ⟨hoff, ?_, nofun⟩
    rw [(rdmaRecvPending_frame hpass).1]
    exact hb.callRx_le
  | fail hidle hfailed => exact hb.frame rfl rfl rfl rfl nofun
  | sendDone e₁ hdone =>
    obtain ⟨sendq, scq, rcq, rfl⟩ := sendDone_frame hdone
    exact hb.frame rfl rfl rfl rfl id

/-! ### What the other moves leave alone -/

/-- Bytes are left to send only in a call that had them, or that was just made. -/
theorem Move.unsent_cases {a : Act} (hmove : Move cfg e a e') : e'.pc.unsent cfg = [] ∨
    e'.hist.delivered = e.hist.delivered ∧
      ((∃ data, a = .callSend data) ∨ e.pc.unsent cfg ≠ []) := by
  cases hmove with
  | callSend data hpc => exact Or.inr ⟨rfl, Or.inl ⟨data, rfl⟩⟩
  | sendData src hpc hsrc =>
    rw [rdmaSendLoop_of_ne_nil cfg e hsrc]
    exact Or.inr ⟨rfl, Or.inr (by rw [hpc]; exact hsrc)⟩
  | sendWait w wc e₁ hpc hpop | sendNext w wc e₁ hpc hpop | retransmitted w wc e₁ hpc hpop
  | waitAcked w _ wc e₁ hpc hpop =>
    obtain ⟨scq, rcq, ops, rfl⟩ := popScq_frame hpop
    rw [hpc]
    exact or_iff_not_imp_left.2 fun hne ↦ ⟨rfl, Or.inr hne⟩
  | retransmit w hpc hretries =>
    rw [hpc]
    exact or_iff_not_imp_left.2 fun hne ↦ ⟨rfl, Or.inr hne⟩
  | pollStale l wc e₁ hpc hpop | pollAck l wc e₁ _ hpc hpop =>
    obtain ⟨q, ops, rfl⟩ := popRcq_frame hpop
    rw [hpc]
    cases l with
    | wait w => exact or_iff_not_imp_left.2 fun hne ↦ ⟨rfl, Or.inr hne⟩
    | recv r => exact Or.inl rfl
  | pollAckDone w wc e₁ seq hpc hpop =>
    obtain ⟨q, ops, rfl⟩ := popRcq_frame hpop
    rw [hpc]
    exact or_iff_not_imp_left.2 fun hne ↦ ⟨rfl, Or.inr hne⟩
  | pollDuplicate l wc e₁ seq hpc hpop =>
    obtain ⟨q, ops, rfl⟩ := popRcq_frame hpop
    rw [hpc]
    cases l with
    | wait w =>
      cases dupReply cfg seq <;> exact or_iff_not_imp_left.2 fun hne ↦ ⟨rfl, Or.inr hne⟩
    | recv r => cases dupReply cfg seq <;> exact Or.inl rfl
  | waitAccept w wc e₁ seq payload hpc hpop =>
    obtain ⟨q, ops, rfl⟩ := popRcq_frame hpop
    rw [hpc]
    cases dupReply cfg seq <;> exact or_iff_not_imp_left.2 fun hne ↦ ⟨rfl, Or.inr hne⟩
  | recvAccept r wc e₁ seq payload hpc hpop =>
    cases recvReply cfg seq <;> exact Or.inl rfl
  | sendDone e₁ hdone =>
    obtain ⟨sendq, scq, rcq, rfl⟩ := sendDone_frame hdone
    exact or_iff_not_imp_left.2 fun hne ↦ ⟨rfl, Or.inr hne⟩
  | _ => exact Or.inl rfl

/-- Only a call of `rdma_send` hands over bytes, and only it notes `rx_seq`. -/
theorem Move.handed_cases {a : Act} (hmove : Move cfg e a e') :
    e'.hist.handed = e.hist.handed ∧ e'.hist.callRx = e.hist.callRx ∨
      (∃ data, a = .callSend data) ∧ e.pc = .idle ∧ e'.hist.callRx = e.rxSeq := by
  cases hmove.noted with
  | call data ha hpc hhist => exact Or.inr ⟨⟨data, ha⟩, hpc, by rw [hhist]⟩
  | send _ _ _ hhist | accept _ _ _ _ _ _ _ _ _ hhist | keep _ _ _ hhist =>
    rw [hhist]
    exact Or.inl ⟨rfl, rfl⟩

/-- Only bytes left to send are sent. -/
theorem Move.sent_cases {a : Act} (hmove : Move cfg e a e') :
    e'.hist.sent = e.hist.sent ∨ e.pc.unsent cfg ≠ [] := by
  cases hmove.noted with
  | send src hpc hsrc => exact Or.inr (by rw [hpc]; exact hsrc)
  | call _ _ _ hhist | accept _ _ _ _ _ _ _ _ _ hhist | keep _ _ _ hhist =>
    rw [hhist]
    exact Or.inl rfl

end Endpoint

namespace Peering

variable (p : Peering)

/-! ### Usage and losses -/

/-- Everything handed to `rdma_send` so far, by either endpoint, has been received. -/
def AllReceived (s : System) : Prop :=
  ∀ x : Side, (s x).hist.delivered.length = (s x.other).hist.handed.length

instance (s : System) : Decidable (AllReceived s) :=
  decidable_of_iff ((s .left).hist.delivered.length = (s .right).hist.handed.length ∧
      (s .right).hist.delivered.length = (s .left).hist.handed.length)
    ⟨fun h x ↦ by cases x; exacts [h.1, h.2], fun h ↦ ⟨h .left, h .right⟩⟩

/-- A first-in first-out link that may lose any frame, between endpoints of which neither starts to
send before the messages so far have been received. -/
def conversation (s : System) (a : NetAct) : Prop :=
  lossy s a ∧
    match a with
    | .ep _ (.callSend _) => AllReceived s
    | _ => True

/-- If `w` is a data frame that `x` does not have, and not the first of the message, then behind
`ahead` it finds every frame of `x` acknowledged, or the ACK of the last one ahead of it. -/
def AckAhead (s : System) (x : Side) (ahead : List Packet) (w : Packet) : Prop :=
  match readFrame (p.cfg x) w.bytes with
  | .data seq _ => (s x).rxSeq ≤ seq → (s x).hist.callRx < seq →
      (s x).hist.sent.length ≤ (s x).txLastAcked ∨
        ∃ w' ∈ ahead, readFrame (p.cfg x) w'.bytes = .ack (s x).hist.sent.length
  | _ => True

/-- As `conversation`, when no second frame of an answer reaches an endpoint ahead of the ACK of
what it answers. -/
def timely (s : System) (a : NetAct) : Prop :=
  conversation s a ∧
    match a with
    | .deliver x => (s x.other).recvq ≠ [] → ∀ w ∈ (s x).wire.head?,
        p.AckAhead s x.other (s x.other).arrived w
    | _ => True

instance (s : System) (a : NetAct) : Decidable (conversation s a) := by
  unfold conversation
  split <;> infer_instance

instance (s : System) (x : Side) (ahead : List Packet) (w : Packet) :
    Decidable (p.AckAhead s x ahead w) := by
  unfold AckAhead
  split <;> infer_instance

instance (s : System) : ∀ a, Decidable (p.timely s a)
  | .deliver x => inferInstanceAs (Decidable (conversation s (.deliver x) ∧
      ((s x.other).recvq ≠ [] → ∀ w ∈ (s x).wire.head?,
        p.AckAhead s x.other (s x.other).arrived w)))
  | .ep x a => inferInstanceAs (Decidable (conversation s (.ep x a) ∧ True))
  | .lose x i => inferInstanceAs (Decidable (conversation s (.lose x i) ∧ True))
  | .relay x ws => inferInstanceAs (Decidable (conversation s (.relay x ws) ∧ True))

variable {p} {s s' : System}

/-- A timely link is a link. -/
theorem chaotic_of_timely (s : System) (a : NetAct) (h : p.timely s a) : p.chaotic s a :=
  p.chaotic_of_lossy h.1.1

/-- An acknowledgement that is ahead on the link is ahead in the abstract queue. -/
theorem AckAhead.abs {x : Side} {ahead : List Packet} {w : Packet}
    (hready : Endpoint.Ready (p.cfg x) (p.cfg x.other) (s x)) (h : p.AckAhead s x ahead w) :
    (p.abs s x).AckAhead (s x).hist.callRx (ahead.map (Packet.view (p.cfg x)))
      (w.view (p.cfg x)) := by
  intro seq payload hframe hseq hcall
  replace hframe : readFrame (p.cfg x) w.bytes = .data seq payload := hframe
  replace hseq : (s x).hist.accepted.length < seq := hseq
  rw [AckAhead, hframe] at h
  refine (h (by rw [hready.rxSeq]; exact hseq) hcall).imp_right ?_
  rintro ⟨w', hw', hack⟩
  exact ⟨w'.view (p.cfg x), List.mem_map_of_mem hw', hack⟩

/-! ### Whose turn it is -/

/-- An endpoint that has received everything handed over has accepted every frame, and its callers
have all the bytes. -/
theorem caught_up (hbooked : ∀ x, Endpoint.Booked (p.cfg x) (s x)) (hsound : Arq.Sound (p.abs s))
    {x : Side} (h : (s x).hist.delivered.length = (s x.other).hist.handed.length) :
    (s x).hist.accepted = (s x.other).hist.sent ∧
      (s x).hist.accepted.flatten = (s x).hist.delivered ∧
        (s x.other).hist.sent.flatten = (s x.other).hist.handed := by
  have haccepted : (s x).hist.accepted <+: (s x.other).hist.sent := by
    have hprefix := hsound.accepted x.other
    rwa [Side.other_other] at hprefix
  obtain ⟨rest, hrest⟩ := haccepted
  have hflatten : (s x.other).hist.sent.flatten = (s x).hist.accepted.flatten ++ rest.flatten := by
    rw [← hrest, List.flatten_append]
  have hle₁ := (hbooked x).delivered.length_le
  have hle₂ := (hbooked x.other).sent.length_le
  rw [hflatten, List.length_append] at hle₂
  have hnone : rest = [] := by
    rcases rest with - | ⟨chunk, rest⟩
    · rfl
    · -- every frame carries at least one byte
      have hchunk := (hbooked x.other).chunks chunk (by rw [← hrest]; simp)
      have hpos := List.length_pos_of_ne_nil hchunk.1
      rw [List.flatten_cons, List.length_append] at hle₂
      omega
  subst hnone
  rw [List.append_nil] at hrest
  rw [List.flatten_nil, List.append_nil] at hflatten
  refine ⟨hrest, ((hbooked x).delivered.eq_of_length_le (by omega)).symm, ?_⟩
  exact (hbooked x.other).sent.eq_of_length_le (by rw [hflatten]; omega)

/-- What holds while the endpoints take turns. -/
structure Conversing (p : Peering) (s : System) : Prop where
  buffered : ∀ x, (s x).Buffered
  /-- An endpoint with bytes left to send has received everything. -/
  turn : ∀ x, (s x).pc.unsent (p.cfg x) ≠ [] →
    (s x).hist.delivered.length = (s x.other).hist.handed.length
  timely : ∀ x, (s x).pc.live = true →
    (p.abs s x).Timely (s x).hist.callRx ((s x).arrived.map (Packet.view (p.cfg x)))

/-- An endpoint with bytes left to send is no endpoint that everything was received from. -/
theorem unsent_eq_nil (hbooked : ∀ x, Endpoint.Booked (p.cfg x) (s x))
    (hsound : Arq.Sound (p.abs s)) (h : AllReceived s) (x : Side) :
    (s x).pc.unsent (p.cfg x) = [] := by
  have hall := (caught_up hbooked hsound (h x.other)).2.2
  rw [Side.other_other] at hall
  rcases hlive : (s x).pc.live with - | -
  · obtain ⟨err, herr⟩ : ∃ err, (s x).pc = .failed err := by
      by_contra hnone
      rw [Pc.live_iff.2 (not_exists.1 hnone)] at hlive
      cases hlive
    rw [herr]
    rfl
  · have hhanded := (hbooked x).handed hlive
    rw [← hall] at hhanded
    simpa using hhanded

/-- The own steps of an endpoint keep what has arrived timely. -/
theorem Conversing.timely_act (h : Conversing p s) (hbooked : ∀ x, Endpoint.Booked (p.cfg x) (s x))
    (hready : ∀ x, Endpoint.Ready (p.cfg x) (p.cfg x.other) (s x)) (hsound : Arq.Sound (p.abs s))
    {x : Side} {b : Endpoint.Act} {e' : Endpoint}
    (hmove : Endpoint.Move (p.cfg x) (s x) b e') (hlive : e'.pc.live = true)
    (out : List (Arq.Packet (List UInt8))) :
    (e'.party (p.cfg x) (p.cfg x.other) out).Timely e'.hist.callRx
      (e'.arrived.map (Packet.view (p.cfg x))) := by
  have hlive₀ : (s x).pc.live = true := by
    rcases hmove.live_or_sendDone with hlive₀ | rfl
    · exact hlive₀
    · cases hmove with
      | sendDone e₁ hdone =>
        obtain ⟨sendq, scq, rcq, rfl⟩ := Endpoint.sendDone_frame hdone
        exact hlive
  have hold : ((s x).party (p.cfg x) (p.cfg x.other) []).Timely (s x).hist.callRx
      ((s x).arrived.map (Packet.view (p.cfg x))) := h.timely x hlive₀
  have hcall : (s x).hist.callRx ≤ e'.hist.callRx := by
    rcases hmove.handed_cases with ⟨-, heq⟩ | ⟨-, -, heq⟩
    · exact heq.ge
    · rw [heq, (hready x).rxSeq]
      exact (h.buffered x).callRx_le
  obtain ⟨posted, -, hsim⟩ := (hready x).simulates hmove
  rcases hsim [] [] with hmoved | ⟨-, harrived, hparty⟩
  · rw [List.append_nil, List.append_nil] at hmoved
    refine Arq.Party.Timely.mono (hmoved.timely hold hlive ?_) hcall le_rfl rfl le_rfl
    -- it sends only when it has accepted every frame sent to it
    intro hsent pk hpk q payload hframe
    rcases hmove.sent_cases with heq | hunsent
    · exact absurd heq hsent
    have hall := (caught_up hbooked hsound (h.turn x hunsent)).1
    have hout : pk ∈ (p.abs s x.other).out := by
      rw [abs_other]
      obtain ⟨w, hw, rfl⟩ := List.mem_map.1 hpk
      exact List.mem_map_of_mem (List.mem_append_left _ hw)
    have hsends := (hsound.ok x.other).out pk hout
    rw [hframe] at hsends
    have hle : q ≤ (s x.other).hist.sent.length := hsends.le_length
    rw [← hall] at hle
    exact hle
  · have hnew : (e'.party (p.cfg x) (p.cfg x.other) []).Timely e'.hist.callRx
        (e'.arrived.map (Packet.view (p.cfg x))) := by
      rw [harrived, hparty]
      exact hold.mono hcall le_rfl rfl le_rfl
    exact hnew.mono le_rfl le_rfl rfl le_rfl

/-- A step of an endpoint keeps the turns. -/
theorem Conversing.act (h : Conversing p s) (hbooked : ∀ x, Endpoint.Booked (p.cfg x) (s x))
    (hready : ∀ x, Endpoint.Ready (p.cfg x) (p.cfg x.other) (s x)) (hsound : Arq.Sound (p.abs s))
    {x : Side} {b : Endpoint.Act} {e' : Endpoint} (hg : conversation s (.ep x b))
    (hmove : Endpoint.Move (p.cfg x) (s x) b e') :
    Conversing p (Function.update s x e') := by
  have hcall : ∀ data, b = .callSend data → AllReceived s := by
    rintro data rfl
    exact hg.2
  refine ⟨fun z ↦ ?_, fun z ↦ ?_, fun z ↦ ?_⟩
  all_goals obtain rfl | rfl := Side.eq_or_eq_other x z
  · rw [Function.update_self]
    refine hmove.buffered (hready z) (h.buffered z) ?_
    rintro data rfl
    -- nothing is pending when `rdma_send` is called
    cases hmove with
    | callSend _ hpc =>
      have hflatten := (caught_up hbooked hsound (hcall data rfl z)).2.1
      have haccepted := (hbooked z).accepted (by rw [hpc]; rfl)
      rw [hflatten, hpc] at haccepted
      have hpending : (s z).pending = [] := by
        simpa [Pc.copied, Pc.receiving] using haccepted
      exact Endpoint.rxPendingLen_eq_zero (h.buffered z) (hbooked z).room hpending
  · rw [Function.update_of_ne (Side.other_ne x)]
    exact h.buffered x.other
  · rw [Function.update_self, Function.update_of_ne (Side.other_ne z)]
    intro hunsent
    rcases hmove.unsent_cases with hnone | ⟨hdelivered, ⟨data, hb⟩ | hold⟩
    · exact absurd hnone hunsent
    · rw [hdelivered]
      exact hcall data hb z
    · rw [hdelivered]
      exact h.turn z hold
  · rw [Function.update_of_ne (Side.other_ne x), Side.other_other, Function.update_self]
    intro hunsent
    rcases hmove.handed_cases with ⟨heq, -⟩ | ⟨⟨data, hb⟩, -⟩
    · have hturn := h.turn x.other hunsent
      rw [Side.other_other] at hturn
      rw [heq]
      exact hturn
    · exact absurd (unsent_eq_nil hbooked hsound (hcall data hb) x.other) hunsent
  · rw [abs_apply, Function.update_self]
    exact fun hlive ↦ h.timely_act hbooked hready hsound hmove hlive _
  · rw [abs_other, Function.update_of_ne (Side.other_ne x)]
    intro hlive
    exact (h.timely x.other hlive).mono le_rfl le_rfl rfl le_rfl

/-- What a step of the link adds to what has arrived. -/
theorem arrived_cases {a : NetAct} (hstep : p.step s a = some s') (hlink : ∀ x b, a ≠ .ep x b)
    {x : Side} (hring : Endpoint.RingInv (p.cfg x).rxDepth (s x)) :
    (s' x).arrived = (s x).arrived ∨
      ∃ w, a = .deliver x.other ∧ (s x).recvq ≠ [] ∧ w ∈ (s x.other).wire.head? ∧
        (s' x).arrived = (s x).arrived ++ [w] := by
  cases p.netMove_of_step hstep with
  | ep y b e' hb => exact absurd rfl (hlink y b)
  | deliver y w ws hwire =>
    obtain rfl | rfl := Side.eq_or_eq_other y x
    · rw [Function.update_of_ne (Side.ne_other x), Function.update_self]
      exact Or.inl rfl
    · rw [Function.update_self]
      rcases hrecvq : (s y.other).recvq with - | ⟨slot, q⟩
      · refine Or.inl ?_
        simp only [Endpoint.arrive, hrecvq]
      · refine Or.inr ⟨w, by rw [Side.other_other], List.cons_ne_nil _ _, ?_,
          arrived_arrive hring hrecvq w⟩
        rw [Side.other_other, hwire]
        rfl
  | lose y i hi =>
    obtain rfl | rfl := Side.eq_or_eq_other y x
    · rw [Function.update_self]
      exact Or.inl rfl
    · rw [Function.update_of_ne (Side.other_ne y)]
      exact Or.inl rfl
  | relay y ws =>
    obtain rfl | rfl := Side.eq_or_eq_other y x
    · rw [Function.update_self]
      exact Or.inl rfl
    · rw [Function.update_of_ne (Side.other_ne y)]
      exact Or.inl rfl

/-- A step of the link keeps them. -/
theorem Conversing.link (h : Conversing p s)
    (hready : ∀ x, Endpoint.Ready (p.cfg x) (p.cfg x.other) (s x)) {a : NetAct}
    (hg : p.timely s a) (hlink : ∀ x b, a ≠ .ep x b) (hstep : p.step s a = some s') :
    Conversing p s' := by
  refine ⟨fun x ↦ ?_, fun x ↦ ?_, fun x ↦ ?_⟩
  · obtain ⟨wire, recvq, rxBuf, rcq, hx⟩ := p.link_frame hstep hlink x
    rw [hx]
    exact (h.buffered x).frame rfl rfl rfl rfl id
  · obtain ⟨wire, recvq, rxBuf, rcq, hx⟩ := p.link_frame hstep hlink x
    obtain ⟨wire', recvq', rxBuf', rcq', hy⟩ := p.link_frame hstep hlink x.other
    rw [hx, hy]
    exact h.turn x
  · obtain ⟨wire, recvq, rxBuf, rcq, hx⟩ := p.link_frame hstep hlink x
    intro hlive
    have hhist : (s' x).hist = (s x).hist := by rw [hx]
    have hacked : (s' x).txLastAcked = (s x).txLastAcked := by rw [hx]
    have hpc : (s' x).pc = (s x).pc := by rw [hx]
    have hold := h.timely x (hpc ▸ hlive)
    have hnew : (p.abs s x).Timely (s x).hist.callRx
        ((s' x).arrived.map (Packet.view (p.cfg x))) := by
      rcases arrived_cases hstep hlink (hready x).ring with heq | ⟨w, rfl, hrecvq, hhead, heq⟩
      · rwa [heq]
      · have hack := hg.2 (by rwa [Side.other_other]) w hhead
        rw [Side.other_other] at hack
        rw [heq, List.map_append]
        exact hold.concat (hack.abs (hready x))
    rw [abs_apply, hhist]
    exact hnew.mono le_rfl (by rw [Endpoint.party, hhist]; rfl) (by rw [Endpoint.party, hhist]; rfl)
      (by rw [Endpoint.party, hacked]; rfl)

/-- At the start, the two sides are in conversation. -/
theorem Conversing.activate (p : Peering) : Conversing p p.activate where
  buffered _ := ⟨Or.inr ⟨rfl, rfl⟩, le_rfl, nofun⟩
  turn _ hunsent := absurd rfl hunsent
  timely _ _ ahead _ _ hi := by cases ahead <;> cases hi

/-- They are kept in every run. -/
theorem Runs.conversing (hcq : p.SeparateCqs) (h : p.Runs p.timely s) (hseq : SeqBelow s) :
    Conversing p s := by
  refine Transition.Reach.invariant_of_bound (I := Conversing p) h (Conversing.activate p)
    (fun s a s' hstep ↦ seqBelow_of_step hstep) ?_ hseq
  intro s a s' hr hs hg hstep hs'
  have hseq := seqBelow_of_step hstep hs'
  have hready := Runs.ready hcq chaotic_of_timely hr hseq
  have hlink : (∀ x b, a ≠ .ep x b) → Conversing p s' := fun hlink ↦
    hs.link hready hg hlink hstep
  cases p.netMove_of_step hstep with
  | ep x b e' hb =>
    exact hs.act (Runs.booked p hr) hready (Runs.sound hcq chaotic_of_timely hr hseq) hg.1
      (Endpoint.move_of_step hb)
  | deliver | lose | relay => exact hlink nofun

/-! ### No protocol error -/

/-- In the default mode whatever a link loses can be made good. -/
theorem Runs.inOrder_of_stopAndWait {guard : System → NetAct → Prop} (hcq : p.SeparateCqs)
    (hwait : ∀ x, (p.cfg x).waitFrameAck = true) (hone : ∀ x, (p.cfg x).ackWindow = 1)
    (hguard : ∀ s a, guard s a → lossy s a) (h : p.Runs guard s) (hseq : SeqBelow s) :
    Arq.InOrder (p.abs s) := by
  have hchaotic : ∀ t x l, p.absLink guard t x l → Arq.chaotic t x l :=
    absLink_chaotic fun s a ha ↦ p.chaotic_of_lossy (hguard s a ha)
  refine Arq.InOrder.of_run hchaotic ?_
    (Runs.abs hcq (fun s a ha ↦ p.chaotic_of_lossy (hguard s a ha)) h hseq)
  rintro t x l hrun ⟨s, a, ws, rfl, hr, hs, hg, hdrops, rfl⟩
  obtain ⟨ahead, w, behind, hwire, rfl⟩ := hdrops.split (hguard s a hg)
  obtain ⟨hout, hrelayed⟩ := p.out_split hwire
  have hlimit : ∀ x, (p.limits x).window = some 1 := fun x ↦ by
    rw [limits, Endpoint.limits, if_pos (hwait x), hone x]
  have hwindowed := Arq.Windowed.of_run (fun x w hw ↦ by
    obtain rfl : 1 = w := by simpa [hlimit x] using hw
    exact Nat.one_pos) hrun
  refine ⟨_, _, _, hout, hrelayed, ?_⟩
  exact Arq.spared_of_stopAndWait (Arq.Sound.of_run hchaotic hrun) (hwindowed x) (hlimit x) _
    (by rw [hout]; simp)

/-- Nothing on its way is noise when the link only loses frames. -/
theorem Runs.not_noise {guard : System → NetAct → Prop} (hcq : p.SeparateCqs)
    (hguard : ∀ s a, guard s a → lossy s a) (h : p.Runs guard s) (hseq : SeqBelow s) (x : Side) :
    ∀ pk ∈ (p.abs s x).out, pk.frame ≠ .noise := by
  refine (Arq.tagged_of_run (m := p.limits) ?_
    (Runs.abs hcq (fun s a ha ↦ p.chaotic_of_lossy (hguard s a ha)) h hseq) x).quiet
  rintro t x l ⟨s, a, ws, rfl, -, -, hg, hdrops, rfl⟩
  obtain ⟨ahead, w, behind, hwire, rfl⟩ := hdrops.split (hguard s a hg)
  obtain ⟨hout, hrelayed⟩ := p.out_split hwire
  rw [hout, hrelayed]
  exact (List.Sublist.refl _).append (List.sublist_cons_self _ _)

/-- A frame that an endpoint polls while it waits for an ACK finds room. -/
theorem Conversing.room (h : Conversing p s)
    (hready : ∀ x, Endpoint.Ready (p.cfg x) (p.cfg x.other) (s x)) {x : Side} {w : SendCall}
    {wc : Wc} {e₁ : Endpoint} {seq : ℕ} {payload : List UInt8} (hpc : (s x).pc = .waitPoll w)
    (hpop : (s x).popRcq = some (wc, e₁))
    (hframe : (s x).rxFrame (p.cfg x) wc = .inOrder seq payload) : (s x).rxPendingLen = 0 := by
  by_contra hpending
  obtain ⟨harrived, hreads⟩ := (hready x).polled hpop
  rw [hframe] at hreads
  obtain ⟨hseq, hread⟩ := hreads
  have hrx := (hready x).rxSeq
  have hfresh := (h.buffered x).fresh (by rw [hpc]; rfl) hpending
  have htimely := h.timely x (by rw [hpc]; rfl) [] _ _ (by rw [harrived]; rfl) seq payload hread
    (show (s x).hist.accepted.length < seq by omega) (by omega)
  have hblocked := (hready x).blocked w (by rw [Endpoint.blockedOn, hpc])
  rcases htimely with hle | ⟨pk, hpk, -⟩
  · exact absurd hblocked (Nat.not_lt.2 hle)
  · cases hpk

/-- **Loss tolerance.** In the default mode, over a link that may lose any frame, in every
conversation in which no second frame of an answer arrives ahead of the ACK of what it answers, a
call returns `false` only when it has used up its retries or a verb fails. -/
theorem tolerant_of_timely (hcq : p.SeparateCqs) (hwait : ∀ x, (p.cfg x).waitFrameAck = true)
    (hone : ∀ x, (p.cfg x).ackWindow = 1) (h : p.Runs p.timely s) (hseq : SeqBelow s) (x : Side)
    (err : RdmaError) : (s x).pc = .failed err → err = .ackTimeout ∨ err = .verbs := by
  refine Transition.Reach.invariant_of_bound
    (I := fun s ↦ (s x).pc = .failed err → err = .ackTimeout ∨ err = .verbs) h nofun
    (fun s a s' hstep ↦ seqBelow_of_step hstep) ?_ hseq
  intro s a s' hr hs hg hstep hs' herr
  have hseq := seqBelow_of_step hstep hs'
  have hready := Runs.ready hcq chaotic_of_timely hr hseq
  have hlossy : ∀ s a, p.timely s a → lossy s a := fun s a h ↦ h.1.1
  have hmove := p.sideMove_of_step hstep x
  generalize he' : s' x = e' at hmove herr
  cases hmove with
  | act b e' hmove =>
    rcases hmove.failed_cases herr with hold | hack | hverbs | ⟨l, wc, e₁, hpc, hpop, hrejects⟩
    · exact hs hold
    · exact Or.inl hack
    · exact Or.inr hverbs
    · have hlive := Pc.live_iff.2 (Endpoint.not_failed_of_poll hpc)
      obtain ⟨harrived, hreads⟩ := (hready x).polled hpop
      -- the link forges nothing, so a frame that is polled is one that the protocol knows
      have hquiet : readFrame (p.cfg x) ((s x).rxBuf wc.wrId).bytes ≠ .noise := by
        refine Runs.not_noise hcq hlossy hr hseq x.other
          (Packet.view (p.cfg x) ((s x).rxBuf wc.wrId)) ?_
        rw [abs_other]
        refine List.mem_map_of_mem (List.mem_append_left _ ?_)
        rw [harrived]
        exact List.mem_cons_self
      cases err with
      | ackTimeout => exact Or.inl rfl
      | verbs => exact Or.inr rfl
      | byteCount =>
        rw [show (s x).rxFrame (p.cfg x) wc = .badLength from hrejects] at hreads
        exact absurd hreads hquiet
      | invalidHeader =>
        rw [show (s x).rxFrame (p.cfg x) wc = .badHeader from hrejects] at hreads
        exact absurd hreads hquiet
      | outOfOrder =>
        obtain ⟨seq, hframe⟩ := hrejects
        exact absurd hframe (not_outOfOrder hready
          (Runs.inOrder_of_stopAndWait hcq hwait hone hlossy hr hseq) hlive hpop seq)
      | pendingData =>
        -- the one branch that the condition on the order of frames is for
        obtain ⟨⟨w, rfl⟩, ⟨seq, payload, hframe⟩, hpending⟩ := hrejects
        exact absurd ((Runs.conversing hcq hr hseq).room hready hpc hpop hframe) hpending
  | wire ws => exact hs herr
  | arrive w =>
    obtain ⟨recvq, rxBuf, rcq, hframe⟩ := (s x).arrive_frame w
    rw [hframe] at herr
    exact hs herr

/-- A message of two bytes in both directions. -/
theorem tolerant_of_timely_small : ∃ s : System, (s .left).hist.delivered = [6, 7] ∧
    ∀ err, (s .left).pc = .failed err → err = .ackTimeout ∨ err = .verbs := by
  -- the request is lost once, and the answer has two frames
  obtain ⟨s, hrun, hs⟩ := Transition.exists_reach_of_guardedRun
    (f := fun s : System ↦ ((s .left).hist.delivered, (s .left).hist.sent.length,
      (s .right).hist.sent.length))
    (show (Transition.guardedRun (twin smallConfig rfl).step (twin smallConfig rfl).timely
      (twin smallConfig rfl).activate
      [.ep .left (.callSend [5]), .ep .left .run, .ep .left .sendDone, .ep .left .pollSend,
        .lose .left 0, .ep .left .timeout, .ep .left .sendDone, .ep .left .pollSend,
        .ep .right (.callRecv 1), .ep .right .run, .deliver .left, .ep .right .pollRecv,
        .ep .right .sendDone, .ep .right .pollSend, .ep .right .run, .deliver .right,
        .ep .left .pollRecv, .ep .left .run, .ep .right (.callSend [6, 7]), .ep .right .run,
        .ep .right .sendDone, .ep .right .pollSend, .ep .left (.callRecv 2), .ep .left .run,
        .deliver .right, .ep .left .pollRecv, .ep .left .sendDone, .ep .left .pollSend,
        .ep .left .run, .deliver .left, .ep .right .pollRecv, .ep .right .run,
        .ep .right .sendDone, .ep .right .pollSend, .deliver .right, .ep .left .pollRecv,
        .ep .left .sendDone, .ep .left .pollSend, .ep .left .run]).map _ =
      some ([6, 7], 1, 2) from rfl)
  simp only [Prod.mk.injEq] at hs
  have hseq : SeqBelow s := by
    intro x
    cases x <;> omega
  exact ⟨s, hs.1, tolerant_of_timely (p := twin smallConfig rfl) (fun _ ↦ rfl) (fun _ ↦ rfl)
    (fun _ ↦ rfl) hrun hseq .left⟩

/-- The frames a step loses. -/
def lost (s : System) : NetAct → List Packet
  | .deliver x => if (s x.other).recvq = [] then (s x).wire.head?.toList else []
  | .lose x i => (s x).wire[i]?.toList
  | _ => []

/-- A step, with the bytes of the frames lost so far. -/
def lossStep (p : Peering) (t : System × List (List UInt8)) (a : NetAct) :
    Option (System × List (List UInt8)) :=
  (p.step t.1 a).map fun s' ↦ (s', t.2 ++ (lost t.1 a).map Packet.bytes)

/-- **One lost ACK kills the connection**: the ACK of a request of one frame is lost, and the second
frame of the answer finds the first still in `rx_pending`. -/
theorem not_tolerant : ¬ ∀ (p : Peering) (s : System) (losses : List (List UInt8)), p.SeparateCqs →
    (∀ x, (p.cfg x).ackWindow = 1 ∧ (p.cfg x).ackEvery = 1 ∧ (p.cfg x).sendFrameAck = true ∧
      (p.cfg x).waitFrameAck = true) →
    Transition.Reach p.lossStep (fun t a ↦ conversation t.1 a) (p.activate, []) (s, losses) →
    (∀ x, ∀ frame ∈ losses, losses.count frame ≤ (p.cfg x).ackRetries) → SeqBelow s →
    ∀ x, (s x).pc ≠ .failed .pendingData := by
  intro h
  obtain ⟨⟨s, losses⟩, hrun, hs⟩ := Transition.exists_reach_of_guardedRun
    (f := fun t : System × List (List UInt8) ↦ ((t.1 .left).pc, t.2, (t.1 .left).hist.sent.length,
      (t.1 .right).hist.sent.length))
    (show (Transition.guardedRun (twin smallConfig rfl).lossStep (fun t a ↦ conversation t.1 a)
      ((twin smallConfig rfl).activate, [])
      -- `left` sends one byte, `right` answers with two, and the ACK of the first frame is lost
      [.ep .left (.callSend [5]), .ep .left .run, .ep .left .sendDone, .ep .left .pollSend,
        .ep .right (.callRecv 1), .ep .right .run, .deliver .left, .ep .right .pollRecv,
        .ep .right .sendDone, .ep .right .pollSend, .ep .right .run, .lose .right 0,
        .ep .right (.callSend [6, 7]), .ep .right .run, .ep .right .sendDone, .ep .right .pollSend,
        .deliver .right, .ep .left .pollRecv, .ep .left .sendDone, .ep .left .pollSend,
        .deliver .left, .ep .right .pollRecv, .ep .right .run, .deliver .right,
        .ep .left .pollRecv]).map _ =
      some (.failed .pendingData, [ackFrame smallConfig 1], 1, 2) from rfl)
  simp only [Prod.mk.injEq] at hs
  obtain ⟨hfailed, rfl, hsent, hsent'⟩ := hs
  have hseq : SeqBelow s := by
    intro x
    cases x <;> omega
  refine h (twin smallConfig rfl) s _ (fun _ ↦ rfl) (fun _ ↦ ⟨rfl, rfl, rfl, rfl⟩) hrun ?_ hseq
    .left hfailed
  intro x frame hframe
  obtain rfl := List.mem_singleton.1 hframe
  rw [List.count_singleton_self]
  show 1 ≤ smallConfig.ackRetries
  decide

end Peering

end LlamaRdma
