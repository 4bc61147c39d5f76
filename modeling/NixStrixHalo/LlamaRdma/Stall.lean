import NixStrixHalo.LlamaRdma.Refinement

/-!
# Stalls on a link that loses nothing

`rdma_send` blocks on the last frame of a call and on the frame that fills the window. `rdma_recv`
acknowledges the frames whose number is a multiple of `ack_every`, and the last one before it
returns. When the frame a sender is blocked on is neither, both wait, until the sender's ACK timeout
repeats the frame (`Peering.not_stall_free`). When it is always one of the two there is no stall,
and nothing ever waits for a timeout (`Peering.stall_free_of_prompt`).

## What a receiver is going to acknowledge

`ackDue` is the highest number that an endpoint has acknowledged or acknowledges without polling for
another frame. No move lowers it (`Move.ackDue_le`), and a receiver that accepts the frame its peer
is blocked on raises it to this frame if the frame is a multiple of `ack_every` or completes the
call. This is what `Prompt` asks of the step that accepts it.

## The invariant

`Unstalled` says that a sender that is blocked on a frame which was accepted has its acknowledgement
due. A link that loses nothing keeps it, and so do the sender's own moves, because a sender is only
ever blocked on the last frame that it has sent.
-/

namespace LlamaRdma

open Arq (Side)

/-- The frame that `rdma_recv` acknowledges on return when it has everything it was called for. -/
def RecvCall.due (r : RecvCall) : ℕ := if r.rem = 0 then r.lastSeq else 0

namespace Endpoint

variable {cfg peer : RdmaConfig} {e e' e₁ : Endpoint}

/-- The highest number that an endpoint has acknowledged, or acknowledges without polling for
another frame. -/
def ackDue (e : Endpoint) : ℕ :=
  match e.pc with
  | .recvLoop r => max e.rxLastAcked r.due
  | .recvPost r ack => max (max e.rxLastAcked ack) r.due
  | .recvFinal _ ack | .waitPost _ (some ack) => max e.rxLastAcked ack
  | _ => e.rxLastAcked

/-- What is acknowledged is due. -/
theorem rxLastAcked_le_ackDue (e : Endpoint) : e.rxLastAcked ≤ e.ackDue := by
  unfold ackDue
  split <;> omega

/-- What has been acknowledged stays due. -/
theorem le_ackDue (h : e'.rxLastAcked = e.rxLastAcked) : e.rxLastAcked ≤ e'.ackDue :=
  h ▸ rxLastAcked_le_ackDue e'

/-- Going on with a loop takes nothing back. -/
theorem le_ackDue_resume (h : e'.rxLastAcked = e.rxLastAcked) (l : Loop) (reply : Option ℕ) :
    e.rxLastAcked ≤ (e'.resume cfg l reply).ackDue := by
  cases reply <;> exact le_ackDue h

/-- An ACK that goes out is due. -/
theorem le_ackDue_resume_some (e : Endpoint) (l : Loop) (ack : ℕ) :
    ack ≤ (e.resume cfg l (some ack)).ackDue := by
  cases l with
  | wait w => exact le_max_right e.rxLastAcked ack
  | recv r => exact (le_max_right e.rxLastAcked ack).trans (le_max_left _ _)

/-- While it polls, a side owes no more than it has acknowledged. -/
theorem ackDue_of_poll {l : Loop} (hpc : e.pc = l.poll) : e.ackDue = e.rxLastAcked := by
  cases l <;> simp only [ackDue, hpc, Loop.poll]

/-- What a call is bound to acknowledge it acknowledges, unless it fails. -/
theorem Move.ackDue_le {a : Act} (hack : cfg.sendFrameAck = true) (hmove : Move cfg e a e')
    (hlive : e'.pc.live = true) : e.ackDue ≤ e'.ackDue := by
  cases hmove with
  | callSend data hpc => simp only [ackDue, hpc, le_refl]
  | callRecv size hpc =>
    simp only [ackDue, hpc]
    exact le_max_left _ _
  | sendReturn hpc => simp only [ackDue, goto, hpc, le_refl]
  | sendData src hpc hsrc =>
    rw [rdmaSendLoop_of_ne_nil cfg e hsrc]
    simp only [ackDue, hpc, postSend, le_refl]
  | sendWait w wc e₁ hpc hpop =>
    obtain ⟨scq, rcq, ops, rfl⟩ := popScq_frame hpop
    simp only [ackDue, goto, hpc, le_refl]
  | sendNext w wc e₁ hpc hpop =>
    obtain ⟨scq, rcq, ops, rfl⟩ := popScq_frame hpop
    simp only [ackDue, Endpoint.sendNext, goto, hpc, le_refl]
  | retransmitted w wc e₁ hpc hpop =>
    obtain ⟨scq, rcq, ops, rfl⟩ := popScq_frame hpop
    simp only [ackDue, goto, hpc, le_refl]
  | waitAcked w seq wc e₁ hpc hpop =>
    obtain ⟨scq, rcq, ops, rfl⟩ := popScq_frame hpop
    simp only [ackDue, goto, hpc, ackPosted_rxLastAcked, le_refl]
  | recvAcked r seq wc e₁ hpc hpop =>
    obtain ⟨scq, rcq, ops, rfl⟩ := popScq_frame hpop
    simp only [ackDue, goto, hpc, ackPosted_rxLastAcked, le_refl]
  | recvFinished r seq wc e₁ hpc hpop =>
    obtain ⟨scq, rcq, ops, rfl⟩ := popScq_frame hpop
    simp only [ackDue, rdmaRecvReturn, hpc, ackPosted_rxLastAcked, le_refl]
  | retransmit w hpc hretries => simp only [ackDue, goto, postSend, hpc, le_refl]
  | waitExhausted | pollFail | fail => cases hlive
  | pollStale _ _ _ hpc hpop | pollAck _ _ _ _ hpc hpop =>
    obtain ⟨q, ops, rfl⟩ := popRcq_frame hpop
    rw [ackDue_of_poll hpc]
    exact le_ackDue rfl
  | pollAckDone w wc e₁ seq hpc hpop hframe hdone =>
    obtain ⟨q, ops, rfl⟩ := popRcq_frame hpop
    rw [ackDue_of_poll (l := .wait w) hpc]
    exact le_ackDue rfl
  | pollDuplicate l wc e₁ seq hpc hpop hframe =>
    obtain ⟨q, ops, rfl⟩ := popRcq_frame hpop
    rw [ackDue_of_poll hpc]
    exact le_ackDue_resume (by rfl) l _
  | waitAccept w wc e₁ seq payload hpc hpop hframe hpending =>
    obtain ⟨q, ops, rfl⟩ := popRcq_frame hpop
    rw [ackDue_of_poll (l := .wait w) hpc]
    exact le_ackDue_resume (by rfl) (.wait w) _
  | recvAccept r wc e₁ seq payload hpc hpop hframe =>
    obtain ⟨q, ops, rfl⟩ := popRcq_frame hpop
    rw [ackDue_of_poll (l := .recv r) hpc, copyOut_frame]
    exact le_ackDue_resume (by rfl) (.recv _) _
  | recvBlock r r₁ e₁ hpc hpass hrem =>
    have hrem₀ : r.rem ≠ 0 := fun h₀ ↦ hrem (by
      rw [rdmaRecvPending, if_neg (by omega)] at hpass
      rw [← (Prod.mk.inj hpass).2, h₀])
    rw [(rdmaRecvPending_frame hpass).1]
    simp only [ackDue, goto, hpc, RecvCall.due, if_neg hrem₀, Nat.max_zero, le_refl]
  | recvAckLast r r₁ e₁ hpc hpass hrem howed =>
    obtain ⟨hframe, hlast⟩ := rdmaRecvPending_frame hpass
    rw [hframe]
    have hdue : r.due ≤ r₁.lastSeq := by
      rw [hlast, RecvCall.due]
      split <;> omega
    simp only [ackDue, hpc]
    exact max_le_max_left _ hdue
  | recvReturn r r₁ e₁ hpc hpass hrem howed =>
    obtain ⟨hframe, hlast⟩ := rdmaRecvPending_frame hpass
    have hacked : e₁.rxLastAcked = e.rxLastAcked := by rw [hframe]
    have hdue : r.due ≤ e.rxLastAcked := by
      rw [hlast, hacked] at howed
      rw [RecvCall.due]
      split
      · -- returning without an ACK, the call has acknowledged the last frame before
        by_contra hlt
        exact howed ⟨hack, by omega, by omega⟩
      · omega
    rw [hframe]
    simp only [ackDue, hpc, rdmaRecvReturn]
    exact max_le le_rfl hdue
  | sendDone e₁ hdone =>
    obtain ⟨sendq, scq, rcq, rfl⟩ := sendDone_frame hdone
    exact le_rfl

/-- The reply to an accepted frame settles it, when it is a multiple of `ack_every` or the call has
what it wants. -/
theorem le_ackDue_recvAccept {r : RecvCall} {seq : ℕ} {payload : List UInt8}
    (hack : cfg.sendFrameAck = true) (e : Endpoint)
    (hprompt : seq % cfg.ackEvery = 0 ∨ r.rem ≤ payload.length) :
    seq ≤ (e.resume cfg (.recv (r.accept seq payload)) (recvReply cfg seq)).ackDue := by
  rcases Nat.eq_zero_or_pos (seq % cfg.ackEvery) with hzero | hpos
  · rw [recvReply, if_pos ⟨hack, hzero⟩]
    exact le_ackDue_resume_some e _ seq
  · have hall : r.rem ≤ payload.length := hprompt.resolve_left hpos.ne'
    have hrem : (r.accept seq payload).rem = 0 := by
      show r.rem - min payload.length r.rem = 0
      omega
    have hdue : (r.accept seq payload).due = seq := if_pos hrem
    rw [recvReply, if_neg (fun h ↦ hpos.ne' h.2)]
    show seq ≤ max e.rxLastAcked (r.accept seq payload).due
    rw [hdue]
    exact le_max_right _ _

/-- An endpoint comes to be blocked only by sending. -/
theorem Ready.blockedOn_cases {a : Act} (h : Ready cfg peer e) (hmove : Move cfg e a e')
    (hblocked : (e'.blockedOn cfg).isSome = true) :
    (e.blockedOn cfg).isSome = true ∧ e'.hist.sent = e.hist.sent ∨
      e'.hist.sent.length = e.hist.sent.length + 1 := by
  obtain ⟨posted, -, hsim⟩ := h.simulates hmove
  rcases hsim [] [] with hmoved | ⟨-, -, hparty⟩
  · refine (hmoved.held_cases ?_).imp_left fun h ↦ ⟨?_, h.2⟩
    · simpa [party] using hblocked
    · simpa [party] using h.1
  · have hheld := congrArg Arq.Party.held hparty
    have hsent : e'.hist.sent = e.hist.sent := congrArg Arq.Party.sent hparty
    refine Or.inl ⟨?_, hsent⟩
    have hsome := congrArg Option.isSome hheld
    simpa [party, hblocked] using hsome.symm

end Endpoint

namespace Peering

variable (p : Peering)

/-- Nothing is on its way, `x` is blocked in `rdma_wait_fixed_ack`, and the other endpoint polls in
`rdma_recv` for a further frame, having accepted the frame `x` waits for and not acknowledged it. -/
def Stalled (s : System) (x : Side) : Prop :=
  ∃ w r, (s x).pc = .waitPoll w ∧ (s x.other).pc = .recvPoll r ∧ transit s x = [] ∧
    transit s x.other = [] ∧ w.seq < (s x.other).rxSeq ∧ (s x.other).rxLastAcked < w.seq

/-- If `rdma_recv` is about to accept the frame its sender is blocked on, then its ACK is due: its
number is a multiple of `ack_every`, or the call ends with it. -/
def Prompt (s : System) (y : Side) : Prop :=
  match (s y).pc, (s y).popRcq with
  | .recvPoll r, some (wc, _) =>
    match (s y).rxFrame (p.cfg y) wc with
    | .inOrder seq payload =>
      ((s y.other).blockedOn (p.cfg y.other)).isSome = true → seq = (s y.other).hist.sent.length →
        seq % (p.cfg y).ackEvery = 0 ∨ r.rem ≤ payload.length
    | _ => True
  | _, _ => True

/-- A first-in first-out link that loses nothing, under callers whose receives end where the senders
wait or where an ACK goes out anyway. -/
def prompt (s : System) (a : NetAct) : Prop :=
  lossless s a ∧
    match a with
    | .ep y .pollRecv => p.Prompt s y
    | _ => True

instance (s : System) (y : Side) : Decidable (p.Prompt s y) := by
  unfold Prompt
  split
  · split <;> infer_instance
  · infer_instance

instance (s : System) (a : NetAct) : Decidable (p.prompt s a) := by
  unfold prompt
  split <;> infer_instance

/-- If the other endpoint has accepted what `x` is blocked on, it has acknowledged it or is about
to. -/
def Unstalled (s : System) (x : Side) : Prop :=
  (s x.other).pc.live = true → ((s x).blockedOn (p.cfg x)).isSome = true →
    (s x).hist.sent.length ≤ (s x.other).hist.accepted.length →
      (s x).hist.sent.length ≤ (s x.other).ackDue

variable {p} {s s' : System}

/-- A prompt link is a link. -/
theorem chaotic_of_prompt (s : System) (a : NetAct) (h : p.prompt s a) : p.chaotic s a :=
  p.chaotic_of_lossy (lossy_of_unreliable (unreliable_of_lossless h.1))

/-- What the guard says of the step that accepts a frame. -/
theorem Prompt.due {y : Side} (h : p.Prompt s y) {r : RecvCall} {wc : Wc} {e₁ : Endpoint} {seq : ℕ}
    {payload : List UInt8} (hpc : (s y).pc = .recvPoll r) (hpop : (s y).popRcq = some (wc, e₁))
    (hframe : (s y).rxFrame (p.cfg y) wc = .inOrder seq payload)
    (hblocked : ((s y.other).blockedOn (p.cfg y.other)).isSome = true)
    (hseq : seq = (s y.other).hist.sent.length) :
    seq % (p.cfg y).ackEvery = 0 ∨ r.rem ≤ payload.length := by
  rw [Prompt, hpc, hpop] at h
  dsimp only at h
  rw [hframe] at h
  exact h hblocked hseq

/-- The receiver's moves keep a sender from stalling. -/
theorem Unstalled.receiver (hready : ∀ x, Endpoint.Ready (p.cfg x) (p.cfg x.other) (s x))
    (hsound : Arq.Sound (p.abs s)) {y : Side} (hack : (p.cfg y).sendFrameAck = true)
    {a : Endpoint.Act} {e' : Endpoint} (hmove : Endpoint.Move (p.cfg y) (s y) a e')
    (hprompt : a = .pollRecv → p.Prompt s y) (hlive : e'.pc.live = true)
    (hblocked : ((s y.other).blockedOn (p.cfg y.other)).isSome = true)
    (hle : (s y.other).hist.sent.length ≤ e'.hist.accepted.length)
    (hold : (s y.other).hist.sent.length ≤ (s y).hist.accepted.length →
      (s y.other).hist.sent.length ≤ (s y).ackDue) :
    (s y.other).hist.sent.length ≤ e'.ackDue := by
  have hkeep : e'.hist.accepted = (s y).hist.accepted →
      (s y.other).hist.sent.length ≤ e'.ackDue := by
    intro hsame
    rw [hsame] at hle
    exact (hold hle).trans (hmove.ackDue_le hack hlive)
  cases hmove.noted with
  | call data ha hpc hhist => exact hkeep (by rw [hhist])
  | send src hpc hsrc hhist => exact hkeep (by rw [hhist])
  | keep delivered calls ops hhist => exact hkeep (by rw [hhist])
  | accept wc e₁ seq payload ops ha hpop hframe hcases hhist =>
    have hsent : (s y).hist.accepted.length ≤ (s y.other).hist.sent.length := by
      have hprefix := hsound.accepted y.other
      rw [Side.other_other] at hprefix
      exact hprefix.length_le
    have hread := ((hready y).polled hpop).2
    rw [hframe] at hread
    have hseq : seq = (s y).hist.accepted.length + 1 := hread.1.trans (hready y).rxSeq
    rw [hhist] at hle
    replace hle : _ ≤ ((s y).hist.accepted ++ [payload]).length := hle
    rw [List.length_append, List.length_singleton] at hle
    rcases Nat.lt_or_ge (s y).hist.accepted.length (s y.other).hist.sent.length with hlt | hge
    · -- the frame accepted is the one the sender is blocked on
      have hlast : seq = (s y.other).hist.sent.length := by omega
      rcases hcases with ⟨w, hpc, rfl⟩ | ⟨r, hpc, rfl⟩
      · rw [Endpoint.dupReply, if_pos hack, ← hlast]
        exact Endpoint.le_ackDue_resume_some _ _ _
      · rw [← hlast]
        exact Endpoint.le_ackDue_recvAccept hack _
          ((hprompt ha).due hpc hpop hframe hblocked hlast)
    · exact (hold hge).trans (hmove.ackDue_le hack hlive)

/-- No sender ever stalls. -/
theorem Runs.unstalled (hcq : p.SeparateCqs) (hack : ∀ x, (p.cfg x).sendFrameAck = true)
    (h : p.Runs p.prompt s) (hseq : SeqBelow s) : ∀ x, p.Unstalled s x := by
  refine Transition.Reach.invariant_of_bound (I := fun s ↦ ∀ x, p.Unstalled s x) h ?_
    (fun s a s' hstep ↦ seqBelow_of_step hstep) ?_ hseq
  · intro x _ hblocked
    cases hblocked
  intro s a s' hr hs hg hstep hs' x hlive hblocked hle
  have hseq := seqBelow_of_step hstep hs'
  have hready := Runs.ready hcq chaotic_of_prompt hr hseq
  have hsound := Runs.sound hcq chaotic_of_prompt hr hseq
  have hlink : (∀ y b, a ≠ .ep y b) → (s' x).hist.sent.length ≤ (s' x.other).ackDue := by
    intro hlink
    obtain ⟨wire, recvq, rxBuf, rcq, hx⟩ := p.link_frame hstep hlink x
    obtain ⟨wire', recvq', rxBuf', rcq', hy⟩ := p.link_frame hstep hlink x.other
    rw [hx] at hblocked hle ⊢
    rw [hy] at hlive hle ⊢
    exact hs x hlive hblocked hle
  cases p.netMove_of_step hstep with
  | ep y b e' hb =>
    have hmove := Endpoint.move_of_step hb
    obtain rfl | rfl := Side.eq_or_eq_other x y
    · -- the sender moves
      rw [Function.update_self] at hblocked hle ⊢
      rw [Function.update_of_ne (Side.other_ne y)] at hlive hle ⊢
      have hsent : (s y.other).hist.accepted.length ≤ (s y).hist.sent.length :=
        (hsound.accepted y).length_le
      -- it was blocked on the same frame before, or has just sent a new one
      rcases (hready y).blockedOn_cases hmove hblocked with ⟨hold, hsame⟩ | hgrew
      · rw [hsame] at hle ⊢
        exact hs y hlive hold hle
      · omega
    · -- the receiver moves
      rw [Function.update_of_ne (Side.ne_other x)] at hblocked hle ⊢
      rw [Function.update_self] at hlive hle ⊢
      have hrecv := Unstalled.receiver hready hsound (hack x.other) hmove
        (fun hb ↦ by rw [hb] at hg; exact hg.2) hlive
      rw [Side.other_other] at hrecv
      refine hrecv hblocked hle fun hle₀ ↦ hs x ?_ hblocked hle₀
      rcases hmove.live_or_sendDone with hlive₀ | rfl
      · exact hlive₀
      · obtain ⟨sendq, scq, rcq, rfl⟩ := Endpoint.sendDone_frame hb
        exact hlive
  | deliver | lose | relay => exact hlink nofun

/-- **No stall without loss.** On a link that loses nothing, with every receive that ends a sender's
wait prompt about its ACK, no sender waits for an ACK that only a timeout would bring. -/
theorem stall_free_of_prompt (hcq : p.SeparateCqs) (hack : ∀ x, (p.cfg x).sendFrameAck = true)
    (h : p.Runs p.prompt s) (hseq : SeqBelow s) (x : Side) : ¬ Stalled s x := by
  rintro ⟨w, r, hpc, hpc', -, -, haccepted, hacked⟩
  have hready := Runs.ready hcq chaotic_of_prompt h hseq
  have hw : w.seq = (s x).hist.sent.length := (hready x).seq (by rw [hpc]; rfl)
  rw [(hready x.other).rxSeq] at haccepted
  have hdue : (s x).hist.sent.length ≤ (s x.other).ackDue := by
    refine Runs.unstalled hcq hack h hseq x (by rw [hpc']; rfl) ?_ (by omega)
    rw [Endpoint.blockedOn, hpc]
    rfl
  rw [Endpoint.ackDue_of_poll (l := .recv r) hpc'] at hdue
  omega

/-- A sender that waits for the acknowledgement of a pair is not stalled. -/
theorem stall_free_of_prompt_paired : ∃ s : System,
    (s .left).pc = .waitPoll ⟨[6], 2, 1, 0⟩ ∧ ¬ Stalled s .left := by
  -- a receive that wants more than the two frames its sender has to send
  obtain ⟨s, hrun, hs⟩ := Transition.exists_reach_of_guardedRun
    (f := fun s : System ↦ ((s .left).pc, (s .right).pc, (s .left).hist.sent.length,
      (s .right).hist.sent.length))
    (show (Transition.guardedRun (twin pairedConfig rfl).step (twin pairedConfig rfl).prompt
      (twin pairedConfig rfl).activate
      [.ep .left (.callSend [5, 6]), .ep .left .run, .ep .left .sendDone, .ep .left .pollSend,
        .ep .left .run, .ep .left .sendDone, .ep .left .pollSend, .deliver .left, .deliver .left,
        .ep .right (.callRecv 3), .ep .right .run, .ep .right .pollRecv, .ep .right .run,
        .ep .right .pollRecv, .ep .right .sendDone, .ep .right .pollSend,
        .ep .right .run]).map _ = some (.waitPoll ⟨[6], 2, 1, 0⟩, .recvPoll ⟨[5, 6], 1, 2⟩, 2, 0)
      from rfl)
  simp only [Prod.mk.injEq] at hs
  have hseq : SeqBelow s := by
    intro x
    cases x <;> omega
  exact ⟨s, hs.1, stall_free_of_prompt (p := twin pairedConfig rfl) (fun _ ↦ rfl) (fun _ ↦ rfl)
    hrun hseq .left⟩

/-- **A stall without loss**: `rdma_recv` wants more than the one frame that `rdma_send` has to
send, and an odd frame is not acknowledged before it returns. -/
theorem not_stall_free : ¬ ∀ (p : Peering) (s : System), p.SeparateCqs →
    p.cfg .left = p.cfg .right →
    (∀ x, (p.cfg x).sendFrameAck = true ∧ (p.cfg x).waitFrameAck = true) →
    p.Runs lossless s → SeqBelow s → ∀ x, ¬ Stalled s x := by
  intro h
  obtain ⟨s, hrun, hs⟩ := Transition.exists_reach_of_guardedRun
    (f := fun s : System ↦ ((s .left).pc, (s .right).pc, transit s .left, transit s .right,
      (s .right).rxSeq, (s .right).rxLastAcked, (s .left).hist.sent.length,
      (s .right).hist.sent.length))
    (show (Transition.guardedRun (twin pairedConfig rfl).step lossless
      (twin pairedConfig rfl).activate
      -- one byte is sent, two are wanted, and every second frame is acknowledged
      [.ep .left (.callSend [5]), .ep .left .run, .ep .left .sendDone, .ep .left .pollSend,
        .deliver .left, .ep .right (.callRecv 2), .ep .right .run, .ep .right .pollRecv,
        .ep .right .run]).map _ =
      some (.waitPoll ⟨[5], 1, 0, 0⟩, .recvPoll ⟨[5], 1, 1⟩, [], [], 2, 0, 1, 0) from rfl)
  simp only [Prod.mk.injEq] at hs
  obtain ⟨hleft, hright, hto, hfrom, hrx, hacked, hsent, hsent'⟩ := hs
  have hseq : SeqBelow s := by
    intro x
    cases x <;> omega
  refine h (twin pairedConfig rfl) s (fun _ ↦ rfl) rfl (fun _ ↦ ⟨rfl, rfl⟩) hrun hseq .left
    ⟨_, _, hleft, hright, hto, hfrom, ?_, ?_⟩
  · show 1 < (s .right).rxSeq
    omega
  · show (s .right).rxLastAcked < 1
    omega

end Peering

end LlamaRdma
