import NixStrixHalo.LlamaRdma.Refinement

/-!
# The byte stream and its acknowledgements

What the two endpoints promise their callers over a link that may do anything but corrupt: in each
direction the bytes delivered are a prefix of the bytes handed over
(`Peering.delivered_prefix_handed`), and what is acknowledged was accepted
(`Peering.acked_accepted`).

## Where the two come from

Between the payloads, both are `Arq.Sound` by way of the refinement. The bytes are those of the
payloads by the bookkeeping of each endpoint, so a boundary between calls may fall inside a frame:
what a receiver has not asked for yet waits in `rx_pending`.

## When `rdma_send` returns

With ACK waiting on, `rdma_send` returns only when everything that it has sent is acknowledged
(`Endpoint.Settled`), and then the peer has accepted all of it: what was handed over was delivered,
was copied by the call in progress, or is in `rx_pending`. Without ACK waiting, it may return while
its frames are still on their way.
-/

namespace LlamaRdma

open Arq (Side)

/-- A point of the code at which no frame of a finished `rdma_send` is outstanding. -/
def Pc.settled : Pc → Bool
  | .idle | .sendLoop [] | .recvLoop _ | .recvPoll _ | .recvPost _ _ | .recvFinal _ _ => true
  | _ => false

namespace Endpoint

variable {cfg peer : RdmaConfig} {e e' : Endpoint}

/-- With ACK waiting on, `rdma_send` returns only when everything sent is acknowledged. -/
def Settled (cfg : RdmaConfig) (e : Endpoint) : Prop :=
  cfg.waitFrameAck = true → e.pc.settled = true → e.hist.sent.length ≤ e.txLastAcked

/-- What is left after a chunk that the call does not wait for is not nothing. -/
theorem sendLoop_drop_not_settled {w : SendCall} (hflag : cfg.waitFrameAck = true)
    (hfinal : ¬ waitForFinal cfg w) :
    (Pc.sendLoop (w.src.drop (chunkLen cfg w.src))).settled = false := by
  have hne : w.src.length ≠ chunkLen cfg w.src := fun heq ↦ hfinal ⟨hflag, heq⟩
  have hle : chunkLen cfg w.src ≤ w.src.length := Nat.min_le_left _ _
  rcases hdrop : w.src.drop (chunkLen cfg w.src) with - | ⟨b, src⟩
  · have := List.drop_eq_nil_iff.1 hdrop
    omega
  · rfl

/-- A move keeps what is between two calls settled. -/
theorem Move.settled {a : Act} (h : Ready cfg peer e) (hs : Settled cfg e)
    (hmove : Move cfg e a e') : Settled cfg e' := by
  intro hflag hpc'
  cases hmove with
  | callSend _ hpc | callRecv _ hpc | sendReturn hpc => exact hs hflag (by rw [hpc]; rfl)
  | sendData src hpc hsrc =>
    rw [rdmaSendLoop_of_ne_nil cfg e hsrc] at hpc'
    cases hpc'
  | sendNext w wc e₁ hpc hpop hnext =>
    obtain ⟨scq, rcq, ops, rfl⟩ := popScq_frame hpop
    have hseq := h.seq (w := w) (by rw [hpc]; rfl)
    rcases hnext with hfree | hle
    · -- a frame that is not waited for is not the last one of its call
      have hdrop := sendLoop_drop_not_settled hflag fun hfinal ↦ hfree (Or.inr hfinal)
      replace hpc' : (Pc.sendLoop (w.src.drop (chunkLen cfg w.src))).settled = true := hpc'
      rw [hdrop] at hpc'
      cases hpc'
    · exact hseq ▸ hle
  | recvAcked _ _ _ _ hpc hpop | recvFinished _ _ _ _ hpc hpop =>
    obtain ⟨scq, rcq, ops, rfl⟩ := popScq_frame hpop
    exact hs hflag (by rw [hpc]; rfl)
  | sendWait | retransmitted | waitAcked | waitExhausted | retransmit | pollFail => cases hpc'
  | pollStale l wc e₁ hpc hpop hframe =>
    obtain ⟨q, ops, rfl⟩ := popRcq_frame hpop
    cases l with
    | wait w => cases hpc'
    | recv r => exact hs hflag (by rw [hpc]; rfl)
  | pollAck l wc e₁ seq hpc hpop hframe hmore =>
    obtain ⟨q, ops, rfl⟩ := popRcq_frame hpop
    cases l with
    | wait w => cases hpc'
    | recv r =>
      have hle := hs hflag (by rw [hpc]; rfl)
      show e.hist.sent.length ≤ if e.txLastAcked < seq then seq else e.txLastAcked
      split <;> omega
  | pollAckDone w wc e₁ seq hpc hpop hframe hdone =>
    obtain ⟨q, ops, rfl⟩ := popRcq_frame hpop
    have hseq := h.seq (w := w) (by rw [hpc]; rfl)
    show e.hist.sent.length ≤ if e.txLastAcked < seq then seq else e.txLastAcked
    split <;> omega
  | pollDuplicate l wc e₁ seq hpc hpop hframe =>
    obtain ⟨q, ops, rfl⟩ := popRcq_frame hpop
    cases l with
    | wait w => cases hreply : dupReply cfg seq <;> rw [hreply] at hpc' <;> cases hpc'
    | recv r =>
      have hle := hs hflag (by rw [hpc]; rfl)
      cases hreply : dupReply cfg seq <;> exact hle
  | waitAccept w wc e₁ seq payload hpc hpop hframe hpending =>
    cases hreply : dupReply cfg seq <;> rw [hreply] at hpc' <;> cases hpc'
  | recvAccept r wc e₁ seq payload hpc hpop hframe =>
    obtain ⟨q, ops, rfl⟩ := popRcq_frame hpop
    have hle := hs hflag (by rw [hpc]; rfl)
    rw [copyOut_frame]
    cases hreply : recvReply cfg seq <;> exact hle
  | recvBlock _ _ _ hpc hpass | recvAckLast _ _ _ hpc hpass | recvReturn _ _ _ hpc hpass =>
    have hle := hs hflag (by rw [hpc]; rfl)
    rw [(rdmaRecvPending_frame hpass).1]
    exact hle
  | fail hidle hfailed => cases hpc'
  | sendDone e₁ hdone =>
    obtain ⟨sendq, scq, rcq, rfl⟩ := sendDone_frame hdone
    exact hs hflag hpc'

end Endpoint

namespace Peering

variable {p : Peering} {s : System}

/-- In a run, what is between two calls is settled. -/
theorem Runs.settled {guard : System → NetAct → Prop} (hcq : p.SeparateCqs)
    (hguard : ∀ s a, guard s a → p.chaotic s a) (h : p.Runs guard s) (hseq : SeqBelow s) :
    ∀ x, Endpoint.Settled (p.cfg x) (s x) := by
  refine Runs.side_invariant_of_ready hcq hguard h hseq (fun x _ _ ↦ Nat.le_refl 0) ?_
  intro x e e' hready hs hmove
  cases hmove with
  | act a e' hmove => exact hmove.settled hready hs
  | wire ws => exact hs
  | arrive w =>
    unfold Endpoint.arrive
    split <;> exact hs

/-- Two frames of one byte each, every one acknowledged, from `rdma_send` to its return. -/
def smallTransfer : List NetAct :=
  [.ep .left (.callSend [5, 6]), .ep .left .run, .ep .left .sendDone, .ep .left .pollSend,
    .ep .right (.callRecv 2), .ep .right .run, .deliver .left, .ep .right .pollRecv,
    .ep .right .sendDone, .ep .right .pollSend, .ep .right .run, .deliver .right,
    .ep .left .pollRecv, .ep .left .run, .ep .left .sendDone, .ep .left .pollSend,
    .deliver .left, .ep .right .pollRecv, .ep .right .sendDone, .ep .right .pollSend,
    .ep .right .run, .deliver .right, .ep .left .pollRecv]

/-- **Stream integrity.** In each direction the bytes delivered by successful `rdma_recv` calls are
a prefix of the bytes handed to `rdma_send` on the other side. -/
theorem delivered_prefix_handed (hcq : p.SeparateCqs) (h : p.Runs p.chaotic s) (hseq : SeqBelow s)
    (x : Side) : (s x.other).hist.delivered <+: (s x).hist.handed := by
  have hbooked := Runs.booked p h
  have hsound := Runs.sound hcq (fun _ _ ↦ id) h hseq
  have haccepted : (s x.other).hist.accepted <+: (s x).hist.sent := hsound.accepted x
  have hflatten : (s x.other).hist.accepted.flatten <+: (s x).hist.sent.flatten := by
    obtain ⟨t, ht⟩ := haccepted
    rw [← ht, List.flatten_append]
    exact List.prefix_append _ _
  exact (hbooked x.other).delivered.trans (hflatten.trans (hbooked x).sent)

/-- A message of two bytes in two frames. -/
theorem delivered_prefix_handed_small : ∃ s : System,
    (s .right).hist.delivered = [5, 6] ∧ (s .right).hist.delivered <+: (s .left).hist.handed := by
  obtain ⟨s, hrun, hs⟩ := Transition.exists_reach_of_guardedRun
    (f := fun s : System ↦ ((s .right).hist.delivered, (s .left).hist.sent.length,
      (s .right).hist.sent.length))
    (show (Transition.guardedRun (twin smallConfig rfl).step lossy (twin smallConfig rfl).activate
      smallTransfer).map _ = some ([5, 6], 2, 0) from rfl)
  simp only [Prod.mk.injEq] at hs
  have hseq : SeqBelow s := by
    intro x
    cases x <;> omega
  exact ⟨s, hs.1, delivered_prefix_handed (p := twin smallConfig rfl) (fun _ ↦ rfl)
    (hrun.mono fun _ _ ↦ (twin smallConfig rfl).chaotic_of_lossy) hseq .left⟩

/-- **Acknowledgements are sound.** What is acknowledged was accepted, what was accepted was sent,
and when `rdma_send` is about to return `true` after waiting for its ACK, its message was sent whole
and every frame of it has been accepted in order: the peer's callers have its bytes, or `rx_pending`
holds them. -/
theorem acked_accepted (hcq : p.SeparateCqs) (h : p.Runs p.chaotic s) (hseq : SeqBelow s)
    (x : Side) :
    (s x).txLastAcked < (s x.other).rxSeq ∧ (s x.other).rxSeq ≤ (s x).txSeq ∧
      ((p.cfg x).waitFrameAck = true → (s x).pc = .sendLoop [] →
        (s x).hist.handed = (s x).hist.sent.flatten ∧
          (s x.other).hist.accepted = (s x).hist.sent ∧
          ((s x.other).pc.live = true → (s x).hist.sent.flatten =
            (s x.other).hist.delivered ++ ((s x.other).pc.copied ++ (s x.other).pending))) := by
  have hsound := Runs.sound hcq (fun _ _ ↦ id) h hseq
  have hready := Runs.ready hcq (fun _ _ ↦ id) h hseq
  have hacked : (s x).txLastAcked ≤ (s x.other).hist.accepted.length := hsound.acked x
  have haccepted : (s x.other).hist.accepted <+: (s x).hist.sent := hsound.accepted x
  rw [(hready x.other).rxSeq, (hready x).txSeq]
  refine ⟨Nat.lt_succ_of_le hacked, Nat.succ_le_succ haccepted.length_le, fun hflag hpc ↦ ?_⟩
  have hle := Runs.settled hcq (fun _ _ ↦ id) h hseq x hflag (by rw [hpc]; rfl)
  have hall : (s x.other).hist.accepted = (s x).hist.sent :=
    haccepted.eq_of_length_le (hle.trans hacked)
  -- at this point of the loop nothing of the message is left to post
  have hhanded : (s x).hist.handed = (s x).hist.sent.flatten ++ (s x).pc.unsent (p.cfg x) :=
    (Runs.booked p h x).handed (by rw [hpc]; rfl)
  rw [hpc, Pc.unsent, List.append_nil] at hhanded
  exact ⟨hhanded, hall, fun hlive ↦ hall ▸ (hready x.other).booked.accepted hlive⟩

/-- A message that is sent, received and acknowledged. -/
theorem acked_accepted_small : ∃ s : System, (s .left).pc = .sendLoop [] ∧
    (s .left).txLastAcked < (s .right).rxSeq ∧ (s .right).rxSeq ≤ (s .left).txSeq ∧
      (s .left).hist.handed = (s .left).hist.sent.flatten ∧
      (s .right).hist.accepted = (s .left).hist.sent := by
  obtain ⟨s, hrun, hs⟩ := Transition.exists_reach_of_guardedRun
    (f := fun s : System ↦ ((s .left).pc, (s .left).hist.sent.length, (s .right).hist.sent.length))
    (show (Transition.guardedRun (twin smallConfig rfl).step lossy (twin smallConfig rfl).activate
      smallTransfer).map _ = some (.sendLoop [], 2, 0) from rfl)
  simp only [Prod.mk.injEq] at hs
  have hseq : SeqBelow s := by
    intro x
    cases x <;> omega
  have hsound := acked_accepted (p := twin smallConfig rfl) (fun _ ↦ rfl)
    (hrun.mono fun _ _ ↦ (twin smallConfig rfl).chaotic_of_lossy) hseq .left
  obtain ⟨hhanded, haccepted, -⟩ := hsound.2.2 rfl hs.1
  exact ⟨s, hs.1, hsound.1, hsound.2.1, hhanded, haccepted⟩

end Peering

end LlamaRdma
