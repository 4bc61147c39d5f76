import NixStrixHalo.LlamaRdma.Ring

/-!
# What a retransmission carries

`rdma_wait_fixed_ack` keeps a pointer to the slot of the frame it may have to repeat, and the ACKs
it sends meanwhile come out of the same ring. The `tx_depth`-th of them lands in that slot: from
then on a retransmission repeats an ACK in place of the frame
(`Endpoint.not_retransmission_faithful`), and until then it repeats the frame
(`Endpoint.retransmission_faithful_iff`).

## Counting what is answered

An ACK is sent for each data frame that is polled during the wait, new or repeated, and for nothing
else. `countingStep` is the step of an endpoint with a counter of these frames, so the condition is
one on what has arrived: fewer of them than the ring has slots. A run stays with one frame as long
as the call waits for it (`Waiting`); a timeout starts the poll again and changes neither the slot
nor the count.

## The invariant

`Holds` ties the head of the transmit ring to the count: the ACKs of the wait have gone to the slots
behind that of the frame, one after the other, and the slot of the frame holds the frame until they
have come round. An ACK frame is no data frame of this connection (`dataFrame_ne_ackFrame`), so what
is repeated afterwards really differs.
-/

namespace LlamaRdma

namespace Endpoint

variable {cfg : RdmaConfig} {e e' : Endpoint}

/-- The call that posted the frame of `w` has not gone on from it. -/
def Waiting (w : SendCall) (e : Endpoint) : Prop :=
  match e.pc with
  | .sendPoll v | .waitPoll v | .waitPost v _ => { v with retries := w.retries } = w
  | _ => False

instance (w : SendCall) (e : Endpoint) : Decidable (e.Waiting w) := by
  unfold Waiting
  split <;> infer_instance

/-- The step polls a data frame of the connection that is not ahead of the one expected. -/
def PollsData (cfg : RdmaConfig) (e : Endpoint) : RingAct → Prop
  | .act .pollRecv =>
    match e.popRcq with
    | some (wc, _) =>
      match e.rxFrame cfg wc with
      | .duplicate _ | .inOrder _ _ => True
      | _ => False
    | none => False
  | _ => False

instance (a : RingAct) : Decidable (e.PollsData cfg a) := by
  unfold PollsData
  split
  · split
    · split <;> infer_instance
    · infer_instance
  · infer_instance

/-- A step of the endpoint and what arrives at it, counting the data frames polled. -/
def countingStep (cfg : RdmaConfig) (s : ℕ × Endpoint) (a : RingAct) : Option (ℕ × Endpoint) :=
  (ringStep cfg s.2 a).map fun e' ↦ (if s.2.PollsData cfg a then s.1 + 1 else s.1, e')

/-- The runs that stay with the frame of `w` up to their last step. -/
abbrev WaitRun (cfg : RdmaConfig) (w : SendCall) : ℕ × Endpoint → ℕ × Endpoint → Prop :=
  Transition.Reach (countingStep cfg) fun s _ ↦ s.2.Waiting w

/-! ### The transmit ring -/

/-- A duplicate or a frame in order is polled data. -/
theorem pollsData_of_frame {wc : Wc} {e₁ : Endpoint} (hpop : e.popRcq = some (wc, e₁))
    (hframe : (∃ seq, e.rxFrame cfg wc = .duplicate seq) ∨
      ∃ seq payload, e.rxFrame cfg wc = .inOrder seq payload) :
    e.PollsData cfg (.act .pollRecv) := by
  rcases hframe with ⟨seq, hframe⟩ | ⟨seq, payload, hframe⟩ <;>
    simp only [PollsData, hpop, hframe]

/-- A stale frame or an acknowledgement is no polled data. -/
theorem not_pollsData_of_frame {wc : Wc} {e₁ : Endpoint} (hpop : e.popRcq = some (wc, e₁))
    (hframe : e.rxFrame cfg wc = .staleCookie ∨ ∃ seq, e.rxFrame cfg wc = .ack seq) :
    ¬ e.PollsData cfg (.act .pollRecv) := by
  rcases hframe with hframe | ⟨seq, hframe⟩ <;>
    simp only [PollsData, hpop, hframe, not_false_eq_true]

/-- What a step does to the transmit ring: an ACK is written at its head, or nothing is. -/
inductive TxMove (cfg : RdmaConfig) (e e' : Endpoint) (acks : Prop) : Prop
  | keep (hnone : ¬ acks) (hbuf : e'.txBuf = e.txBuf) (hhead : e'.txHead = e.txHead)
  | ack (hacks : acks) (seq : ℕ)
      (hbuf : e'.txBuf = Function.update e.txBuf e.txHead (ackFrame cfg seq))
      (hhead : e'.txHead = (e.txHead + 1) % cfg.txDepth)

/-- Going back to the wait writes an acknowledgement into the ring, if one is due. -/
theorem TxMove.resume {acks : Prop} {e₁ : Endpoint} (w : SendCall) (seq : ℕ)
    (hacks : acks ↔ cfg.sendFrameAck = true) (hbuf : e₁.txBuf = e.txBuf)
    (hhead : e₁.txHead = e.txHead) :
    TxMove cfg e (e₁.resume cfg (.wait w) (dupReply cfg seq)) acks := by
  unfold dupReply
  split
  next hon =>
    refine .ack (hacks.2 hon) seq ?_ ?_
    · show Function.update e₁.txBuf e₁.txHead _ = _
      rw [hbuf, hhead]
    · show (e₁.txHead + 1) % cfg.txDepth = _
      rw [hhead]
  next hoff => exact .keep (fun h ↦ hoff (hacks.1 h)) hbuf hhead

/-- **While a frame is waited for, one ACK is written for every data frame polled.** -/
theorem Move.txMove {a : Act} {w : SendCall} (hwait : e.Waiting w) (hwait' : e'.Waiting w)
    (hmove : Move cfg e a e') :
    TxMove cfg e e' (e.PollsData cfg (.act a) ∧ cfg.sendFrameAck = true) := by
  unfold Waiting at hwait
  cases hmove with
  | sendWait _ _ _ _ hpop | retransmitted _ _ _ _ hpop | waitAcked _ _ _ _ _ hpop =>
    obtain ⟨scq, rcq, ops, rfl⟩ := popScq_frame hpop
    exact .keep (fun h ↦ h.1) rfl rfl
  | retransmit v hpc hretries => exact .keep (fun h ↦ h.1) rfl rfl
  | pollStale l wc e₁ hpc hpop hframe =>
    -- a stale frame is posted again and not answered
    have hnone := not_pollsData_of_frame hpop (Or.inl hframe)
    obtain ⟨q, ops, rfl⟩ := popRcq_frame hpop
    exact .keep (fun h ↦ hnone h.1) rfl rfl
  | pollAck l wc e₁ seq hpc hpop hframe hmore =>
    have hnone := not_pollsData_of_frame hpop (Or.inr ⟨seq, hframe⟩)
    obtain ⟨q, ops, rfl⟩ := popRcq_frame hpop
    exact .keep (fun h ↦ hnone h.1) rfl rfl
  | pollDuplicate l wc e₁ seq hpc hpop hframe =>
    have hdata := pollsData_of_frame hpop (Or.inl ⟨seq, hframe⟩)
    obtain ⟨q, ops, rfl⟩ := popRcq_frame hpop
    cases l with
    | wait v => exact .resume v seq (and_iff_right hdata) rfl rfl
    | recv r => rw [hpc] at hwait; cases hwait
  | waitAccept v wc e₁ seq payload hpc hpop hframe =>
    have hdata := pollsData_of_frame hpop (Or.inr ⟨seq, payload, hframe⟩)
    obtain ⟨q, ops, rfl⟩ := popRcq_frame hpop
    exact .resume v seq (and_iff_right hdata) rfl rfl
  | sendDone e₁ hdone =>
    obtain ⟨sendq, scq, rcq, rfl⟩ := sendDone_frame hdone
    exact .keep (fun h ↦ h.1) rfl rfl
  | sendNext | pollAckDone | waitExhausted | pollFail | fail => cases hwait'
  | callSend _ hpc | callRecv _ hpc | sendReturn hpc | sendData _ hpc | recvAcked _ _ _ _ hpc
  | recvFinished _ _ _ _ hpc | recvAccept _ _ _ _ _ hpc | recvBlock _ _ _ hpc
  | recvAckLast _ _ _ hpc | recvReturn _ _ _ hpc =>
    rw [hpc] at hwait
    cases hwait

/-- The transmit ring's head is one of its slots. -/
theorem Move.txHead_lt {a : Act} (hmove : Move cfg e a e') (h : e.txHead < cfg.txDepth) :
    e'.txHead < cfg.txDepth := by
  have hwrap : (e.txHead + 1) % cfg.txDepth < cfg.txDepth := Nat.mod_lt _ cfg.txDepth_pos
  cases hmove with
  | sendData src hpc hsrc =>
    rw [rdmaSendLoop_of_ne_nil cfg e hsrc]
    exact hwrap
  | sendWait _ _ _ _ hpop | sendNext _ _ _ _ hpop | retransmitted _ _ _ _ hpop
  | waitAcked _ _ _ _ _ hpop | recvAcked _ _ _ _ _ hpop | recvFinished _ _ _ _ _ hpop =>
    obtain ⟨scq, rcq, ops, rfl⟩ := popScq_frame hpop
    exact h
  | pollFail _ _ _ _ _ hpop | pollStale _ _ _ _ hpop | pollAck _ _ _ _ _ hpop
  | pollAckDone _ _ _ _ _ hpop =>
    obtain ⟨q, ops, rfl⟩ := popRcq_frame hpop
    exact h
  | pollDuplicate l wc e₁ seq hpc hpop hframe =>
    obtain ⟨q, ops, rfl⟩ := popRcq_frame hpop
    rcases dupReply_cases cfg seq with hreply | hreply <;> rw [hreply]
    · exact h
    · exact hwrap
  | waitAccept w wc e₁ seq payload hpc hpop hframe =>
    obtain ⟨q, ops, rfl⟩ := popRcq_frame hpop
    rcases dupReply_cases cfg seq with hreply | hreply <;> rw [hreply]
    · exact h
    · exact hwrap
  | recvAccept r wc e₁ seq payload hpc hpop hframe =>
    obtain ⟨q, ops, rfl⟩ := popRcq_frame hpop
    rw [copyOut_frame]
    rcases recvReply_cases cfg seq with hreply | hreply <;> rw [hreply]
    · exact h
    · exact hwrap
  | recvBlock _ _ _ _ hpass | recvReturn _ _ _ _ hpass =>
    rw [(rdmaRecvPending_frame hpass).1]
    exact h
  | recvAckLast _ _ _ _ hpass =>
    rw [(rdmaRecvPending_frame hpass).1]
    exact hwrap
  | sendDone e₁ hdone =>
    obtain ⟨sendq, scq, rcq, rfl⟩ := sendDone_frame hdone
    exact h
  | _ => exact h

/-! ### The held slot -/

/-- The slot of `w` after `n` data frames were polled: it holds the frame as posted, or, after as
many ACKs as the ring has slots, one of these. -/
structure Holds (cfg : RdmaConfig) (w : SendCall) (frame : List UInt8) (n : ℕ) (e : Endpoint) :
    Prop where
  head : cfg.sendFrameAck = true → e.txHead = (w.slot + 1 + n) % cfg.txDepth
  kept : cfg.sendFrameAck = false ∨ n < cfg.txDepth → e.txBuf w.slot = frame
  lost : cfg.sendFrameAck = true → cfg.txDepth ≤ n → ∃ seq, e.txBuf w.slot = ackFrame cfg seq

/-- No data frame is an ACK. -/
theorem dataFrame_ne_ackFrame {chunk : List UInt8} (h : chunk.length ≤ cfg.framePayloadSize)
    (seq ack : ℕ) : dataFrame cfg seq chunk ≠ ackFrame cfg ack := by
  intro heq
  have hread := congrArg rdmaReadFrameHeader heq
  rw [dataFrame, ackFrame, rdmaReadFrameHeader_write, rdmaReadFrameHeader_write] at hread
  have hlen : chunk.length % 2 ^ 32 = rdmaFrameAck % 2 ^ 32 :=
    congrArg FrameHeader.payloadSize (Option.some.inj hread)
  have hlt := cfg.framePayloadSize_lt_ack
  simp only [rdmaFrameAck] at hlen hlt
  omega

/-- **The held slot keeps its frame** exactly when no acknowledgements are sent or fewer data frames
have been polled than the ring has slots. -/
theorem Holds.kept_iff {w : SendCall} {frame : List UInt8} {n : ℕ} (h : Holds cfg w frame n e)
    (hframe : ∀ seq, frame ≠ ackFrame cfg seq) :
    e.txBuf w.slot = frame ↔ cfg.sendFrameAck = false ∨ n < cfg.txDepth := by
  refine ⟨fun heq ↦ ?_, h.kept⟩
  by_contra hnot
  push Not at hnot
  obtain ⟨seq, hseq⟩ := h.lost (by simpa using hnot.1) hnot.2
  exact hframe seq (heq ▸ hseq)

/-- One step of the wait. -/
theorem Holds.step {w : SendCall} {frame : List UInt8} {n : ℕ} {polled : Prop} [Decidable polled]
    (hslot : w.slot < cfg.txDepth) (h : Holds cfg w frame n e)
    (hmove : TxMove cfg e e' (polled ∧ cfg.sendFrameAck = true)) :
    Holds cfg w frame (if polled then n + 1 else n) e' := by
  cases hmove with
  | keep hnone hbuf hhead =>
    by_cases hpolled : polled
    · have hoff : cfg.sendFrameAck = false := by simpa using fun hon ↦ hnone ⟨hpolled, hon⟩
      exact ⟨fun hon ↦ by simp [hoff] at hon, fun _ ↦ hbuf ▸ h.kept (Or.inl hoff),
        fun hon ↦ by simp [hoff] at hon⟩
    · rw [if_neg hpolled]
      exact ⟨hhead ▸ h.head, hbuf ▸ h.kept, hbuf ▸ h.lost⟩
  | ack hyes seq hbuf hhead =>
    obtain ⟨hpolled, hon⟩ := hyes
    have hold := h.head hon
    rw [if_pos hpolled]
    refine ⟨fun _ ↦ ?_, fun hroom ↦ ?_, fun _ hfull ↦ ?_⟩
    · rw [hhead, hold, Nat.mod_add_mod, Nat.add_assoc]
    · -- the head has not come round to the slot
      have hlt : n + 1 < cfg.txDepth := hroom.resolve_left (by simp [hon])
      have hne : w.slot ≠ e.txHead := by
        rw [hold]
        rcases Nat.lt_or_ge (w.slot + 1 + n) cfg.txDepth with hlt' | hge
        · rw [Nat.mod_eq_of_lt hlt']
          omega
        · rw [Nat.mod_eq_sub_mod hge, Nat.mod_eq_of_lt (by omega)]
          omega
      rw [hbuf, Function.update_of_ne hne]
      exact h.kept (Or.inr (by omega))
    · rcases eq_or_ne w.slot e.txHead with heq | hne
      · exact ⟨seq, by rw [hbuf, heq, Function.update_self]⟩
      · rw [hbuf, Function.update_of_ne hne]
        refine h.lost hon (Nat.le_of_lt_succ (lt_of_le_of_ne hfull fun hlast ↦ hne ?_))
        -- after as many ACKs as the ring has slots the head is back at the slot
        rw [hold, show w.slot + 1 + n = w.slot + cfg.txDepth by omega, Nat.add_mod_right,
          Nat.mod_eq_of_lt hslot]

/-- The whole wait. -/
theorem WaitRun.holds {w : SendCall} {frame : List UInt8} {e₀ : Endpoint} {s : ℕ × Endpoint}
    (hslot : w.slot < cfg.txDepth) (h₀ : Holds cfg w frame 0 e₀)
    (h : WaitRun cfg w (0, e₀) s) (hwait : s.2.Waiting w) :
    Holds cfg w frame s.1 s.2 := by
  refine Transition.Reach.invariant (I := fun s ↦ s.2.Waiting w → Holds cfg w frame s.1 s.2) h
    (fun _ ↦ h₀) ?_ hwait
  rintro ⟨n, e⟩ a s' - hs hg hstep hwait'
  obtain ⟨e', he', rfl⟩ := Option.map_eq_some_iff.1 hstep
  cases a with
  | act b => exact (hs hg).step hslot ((move_of_step he').txMove hg hwait')
  | arrive p =>
    obtain rfl := Option.some.inj he'
    obtain ⟨recvq, rxBuf, rcq, harrive⟩ := arrive_frame e p
    refine (hs hg).step hslot (.keep (fun h ↦ h.1) ?_ ?_) <;> rw [harrive]

/-- **What a retransmission carries.** At every point of every call that waits for a frame, a
timeout repeats the frame's slot, and this holds the frame as it was first posted if and only if no
ACKs are sent or fewer data frames were polled in the wait than the transmit ring has slots. -/
theorem retransmission_faithful_iff {txMem : ℕ → List UInt8} {rxMem : ℕ → Packet}
    {src : List UInt8} {n : ℕ} {e₀ e'' : Endpoint}
    (hrun : Transition.Reach (ringStep cfg) (fun _ _ ↦ True) (rdmaActivate cfg txMem rxMem) e)
    (hpc : e.pc = .sendLoop src) (hsrc : src ≠ []) (hsend : e.step cfg .run = some e₀)
    (hwait : WaitRun cfg ⟨src, e.txSeq, e.txHead, 0⟩ (0, e₀) (n, e'))
    (hwaiting : e'.Waiting ⟨src, e.txSeq, e.txHead, 0⟩)
    (htimeout : e'.step cfg .timeout = some e'') (hlive : e''.pc ≠ .failed .ackTimeout) :
    ∃ first again, e₀.wire = e.wire ++ [⟨first, .data e.txSeq⟩] ∧
      e''.wire = e'.wire ++ [⟨again, .retransmit e.txSeq⟩] ∧
        (again = first ↔ cfg.sendFrameAck = false ∨ n < cfg.txDepth) := by
  obtain rfl : e.rdmaSendLoop cfg src = e₀ := by
    simpa [step, hpc] using hsend
  have hslot : e.txHead < cfg.txDepth := by
    refine hrun.invariant (I := fun e ↦ e.txHead < cfg.txDepth) cfg.txDepth_pos ?_
    intro e a e' _ he _ hstep
    cases a with
    | act b => exact (move_of_step hstep).txHead_lt he
    | arrive p =>
      obtain rfl := Option.some.inj hstep
      obtain ⟨recvq, rxBuf, rcq, harrive⟩ := arrive_frame e p
      rw [harrive]
      exact he
  have h₀ : Holds cfg ⟨src, e.txSeq, e.txHead, 0⟩
      (dataFrame cfg e.txSeq (src.take (chunkLen cfg src))) 0 (e.rdmaSendLoop cfg src) := by
    rw [rdmaSendLoop_of_ne_nil cfg e hsrc]
    exact ⟨fun _ ↦ rfl, fun _ ↦ Function.update_self .., fun _ hle ↦
      absurd cfg.txDepth_pos (by omega)⟩
  have hholds := hwait.holds hslot h₀ hwaiting
  have hchunk : (src.take (chunkLen cfg src)).length ≤ cfg.framePayloadSize := by
    rw [List.length_take, chunkLen]
    omega
  have hiff := hholds.kept_iff (dataFrame_ne_ackFrame hchunk e.txSeq)
  refine ⟨_, _, by rw [rdmaSendLoop_of_ne_nil cfg e hsrc]; rfl, ?_, hiff⟩
  cases move_of_step htimeout with
  | waitExhausted w hpc' hretries => exact absurd rfl hlive
  | retransmit w hpc' hretries =>
    rw [Waiting, hpc'] at hwaiting
    have hseq : w.seq = e.txSeq := congrArg SendCall.seq hwaiting
    have hw : w.slot = e.txHead := congrArg SendCall.slot hwaiting
    rw [← hseq, ← hw]
    rfl

/-- An endpoint that was called to send one byte. -/
def smallSender (cfg : RdmaConfig) : Endpoint :=
  { rdmaActivate cfg (fun _ ↦ []) fun _ ↦ ⟨[], .stale⟩ with
    pc := .sendLoop [5]
    hist := { ops := (List.range cfg.rxDepth).map .post, handed := [5], calls := 1 } }

/-- A data frame of the peer is accepted and acknowledged while `rdma_send` waits. -/
def smallWait (cfg : RdmaConfig) : List RingAct :=
  [.act .sendDone, .act .pollSend, .arrive ⟨dataFrame cfg 1 [9], .data 1⟩, .act .pollRecv,
    .act .sendDone, .act .pollSend]

/-- A frame that is sent again without anything in between is the same frame. -/
theorem retransmission_faithful_iff_small : ∃ e₀ e' e'' : Endpoint, ∃ first again,
    (smallSender smallConfig).step smallConfig .run = some e₀ ∧ e'.txLastAcked = 0 ∧
      e₀.wire = [⟨first, .data 1⟩] ∧ e''.wire = e'.wire ++ [⟨again, .retransmit 1⟩] ∧
        again = first := by
  have hcall : Transition.Reach (ringStep smallConfig) (fun _ _ ↦ True)
      (rdmaActivate smallConfig (fun _ ↦ []) fun _ ↦ ⟨[], .stale⟩) (smallSender smallConfig) :=
    Transition.Reach.refl.tail (a := .act (.callSend [5])) trivial rfl
  obtain ⟨e₀, hsend⟩ : ∃ e₀, (smallSender smallConfig).step smallConfig .run = some e₀ := ⟨_, rfl⟩
  have hstart : e₀ = (smallSender smallConfig).rdmaSendLoop smallConfig [5] :=
    (Option.some.inj hsend).symm
  obtain ⟨⟨n, e'⟩, hwait, hs⟩ := Transition.exists_reach_of_guardedRun
    (f := fun s : ℕ × Endpoint ↦ (s.1, s.2.pc, s.2.txLastAcked))
    (show (Transition.guardedRun (countingStep smallConfig)
      (fun s _ ↦ s.2.Waiting ⟨[5], 1, 0, 0⟩)
      (0, (smallSender smallConfig).rdmaSendLoop smallConfig [5]) (smallWait smallConfig)).map _ =
        some (1, .waitPoll ⟨[5], 1, 0, 0⟩, 0) from rfl)
  simp only [Prod.mk.injEq] at hs
  obtain ⟨rfl, hpc, hacked⟩ := hs
  obtain ⟨e'', htimeout, hlive⟩ : ∃ e'', e'.step smallConfig .timeout = some e'' ∧
      e''.pc ≠ .failed .ackTimeout := by
    refine ⟨e'.rdmaWaitTimedOut smallConfig ⟨[5], 1, 0, 0⟩, by simp only [step, hpc], ?_⟩
    rw [rdmaWaitTimedOut, if_neg (by decide)]
    exact Pc.noConfusion
  obtain ⟨first, again, hfirst, hagain, hiff⟩ := retransmission_faithful_iff hcall rfl (by decide)
    hsend (hstart ▸ hwait) (by rw [Waiting, hpc]; rfl) htimeout hlive
  exact ⟨e₀, e', e'', first, again, hsend, hacked, hfirst, hagain, hiff.2 (Or.inr (by decide))⟩

/-- **A retransmission of the wrong frame**: with one transmit slot, the ACK of the peer's frame
overwrites the frame that is waited for. -/
theorem not_retransmission_faithful : ¬ ∀ (cfg : RdmaConfig) (txMem : ℕ → List UInt8)
    (rxMem : ℕ → Packet) (e e₀ e' e'' : Endpoint) (src first again : List UInt8) (n : ℕ),
    Transition.Reach (ringStep cfg) (fun _ _ ↦ True) (rdmaActivate cfg txMem rxMem) e →
    e.pc = .sendLoop src → src ≠ [] → e.step cfg .run = some e₀ →
    WaitRun cfg ⟨src, e.txSeq, e.txHead, 0⟩ (0, e₀) (n, e') →
    e'.step cfg .timeout = some e'' → e₀.wire = e.wire ++ [⟨first, .data e.txSeq⟩] →
    e''.wire = e'.wire ++ [⟨again, .retransmit e.txSeq⟩] → again = first := by
  intro h
  have hcall : Transition.Reach (ringStep singleConfig) (fun _ _ ↦ True)
      (rdmaActivate singleConfig (fun _ ↦ []) fun _ ↦ ⟨[], .stale⟩) (smallSender singleConfig) :=
    Transition.Reach.refl.tail (a := .act (.callSend [5])) trivial rfl
  obtain ⟨⟨n, e'⟩, hwait, hs⟩ := Transition.exists_reach_of_guardedRun
    (f := fun s : ℕ × Endpoint ↦ (s.2.pc, s.2.txBuf 0))
    (show (Transition.guardedRun (countingStep singleConfig)
      (fun s _ ↦ s.2.Waiting ⟨[5], 1, 0, 0⟩)
      (0, (smallSender singleConfig).rdmaSendLoop singleConfig [5]) (smallWait singleConfig)).map _
        = some (.waitPoll ⟨[5], 1, 0, 0⟩, ackFrame singleConfig 1) from rfl)
  simp only [Prod.mk.injEq] at hs
  have htimeout : e'.step singleConfig .timeout =
      some (e'.rdmaWaitTimedOut singleConfig ⟨[5], 1, 0, 0⟩) := by
    simp only [step, hs.1]
  have hagain : (e'.rdmaWaitTimedOut singleConfig ⟨[5], 1, 0, 0⟩).wire =
      e'.wire ++ [⟨ackFrame singleConfig 1, .retransmit 1⟩] := by
    rw [rdmaWaitTimedOut, if_neg (by decide), ← hs.2]
    rfl
  have heq := h singleConfig _ _ (smallSender singleConfig) _ e' _ [5]
    (dataFrame singleConfig 1 [5]) (ackFrame singleConfig 1) n hcall rfl (by decide) rfl hwait
    htimeout rfl hagain
  exact dataFrame_ne_ackFrame (by decide) 1 1 heq.symm

end Endpoint

end LlamaRdma
