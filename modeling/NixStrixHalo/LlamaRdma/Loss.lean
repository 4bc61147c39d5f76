import NixStrixHalo.Library.ArqInOrder
import NixStrixHalo.LlamaRdma.Refinement

/-!
# Which losses a connection survives

`rdma_wait_fixed_ack` keeps one frame for retransmission, the one it was called for. With a window
of more than one frame the others are sent and forgotten: a frame that is lost while its sender is
not blocked on it is never sent again, and the next one kills the connection
(`Peering.not_inOrder_of_lossy`). When no such frame is lost, no frame ever arrives out of order
(`Peering.inOrder_of_sparing`).

## What may be lost

`Spared` says that the loss of a frame does no harm: its receiver has accepted it before, or another
copy of it is still ahead, or its sender is blocked on this frame and on no other. Acknowledgements
may always be lost, since they are cumulative.

**An arrival can be a loss.** A frame that finds no posted receive is dropped, so the guard asks of
a delivery what it asks of the link.
-/

namespace LlamaRdma

open Arq (Side)

namespace Endpoint

variable {cfg peer : RdmaConfig} {e e' : Endpoint}

/-- Which branch makes a call return `false`. -/
theorem Move.failed_cases {a : Act} {err : RdmaError} (hmove : Move cfg e a e')
    (herr : e'.pc = .failed err) : e.pc = .failed err ∨ err = .ackTimeout ∨ err = .verbs ∨
      ∃ l wc e₁, e.pc = Loop.poll l ∧ e.popRcq = some (wc, e₁) ∧ e.Rejects cfg l wc err := by
  cases hmove with
  | waitExhausted => cases herr; exact Or.inr (Or.inl rfl)
  | fail => cases herr; exact Or.inr (Or.inr (Or.inl rfl))
  | pollFail l wc e₁ err' hpc hpop hrej =>
    cases herr
    exact Or.inr (Or.inr (Or.inr ⟨l, wc, e₁, hpc, hpop, hrej⟩))
  | sendDone e₁ hdone =>
    obtain ⟨sendq, scq, rcq, rfl⟩ := sendDone_frame hdone
    exact Or.inl herr
  | sendData src hpc hsrc =>
    rw [rdmaSendLoop_of_ne_nil cfg e hsrc] at herr
    cases herr
  | pollStale l | pollAck l => cases l <;> cases herr
  | pollDuplicate l wc e₁ seq =>
    cases hreply : dupReply cfg seq <;> rw [hreply] at herr <;> cases l <;> cases herr
  | waitAccept w wc e₁ seq =>
    cases hreply : dupReply cfg seq <;> rw [hreply] at herr <;> cases herr
  | recvAccept r wc e₁ seq =>
    cases hreply : recvReply cfg seq <;> rw [hreply] at herr <;> cases herr
  | _ => cases herr

end Endpoint

namespace Peering

variable (p : Peering)

/-- The sequence numbers of the data frames among some on their way from `x`, oldest first. -/
def dataSeqs (x : Side) (ws : List Packet) : List ℕ :=
  Arq.dataSeqs (ws.map (Packet.view (p.cfg x.other)))

/-- The loss of `w`, on its way from `x` behind `ahead`, can be made good if `w` is a data frame: it
repeats one that the receiver has or gets from the frames ahead, or it is the frame its sender is
blocked on. When an endpoint has failed, the last frame of the one and every frame to the other are
no loss. -/
def Spared (s : System) (x : Side) (ahead : List Packet) (w : Packet) : Prop :=
  match readFrame (p.cfg x.other) w.bytes with
  | .data seq _ =>
    (s x.other).pc.live = false ∨
      seq < Arq.advance (s x.other).rxSeq (p.dataSeqs x ahead) ∨
      seq = (s x).hist.sent.length ∧
        (((s x).blockedOn (p.cfg x)).isSome = true ∨ (s x).pc.live = false)
  | _ => True

/-- A first-in first-out link that loses only frames that are spared, where they arrive or on the
way. -/
def sparing (s : System) : NetAct → Prop
  | .ep _ _ => True
  | .deliver x => (s x.other).recvq = [] → ∀ w ∈ (s x).wire.head?,
      p.Spared s x (s x.other).arrived w
  | .lose x i => ∀ w ∈ (s x).wire[i]?, p.Spared s x ((s x.other).arrived ++ (s x).wire.take i) w
  | .relay _ _ => False

instance (s : System) (x : Side) (ahead : List Packet) (w : Packet) :
    Decidable (p.Spared s x ahead w) := by
  unfold Spared
  split <;> infer_instance

instance (s : System) : ∀ a, Decidable (p.sparing s a)
  | .ep _ _ => inferInstanceAs (Decidable True)
  | .deliver x => inferInstanceAs (Decidable ((s x.other).recvq = [] → ∀ w ∈ (s x).wire.head?,
      p.Spared s x (s x.other).arrived w))
  | .lose x i => inferInstanceAs (Decidable (∀ w ∈ (s x).wire[i]?,
      p.Spared s x ((s x.other).arrived ++ (s x).wire.take i) w))
  | .relay _ _ => inferInstanceAs (Decidable False)

variable {p} {s : System}

/-- A sparing link is a link. -/
theorem chaotic_of_sparing {a : NetAct} (h : p.sparing s a) : p.chaotic s a := by
  cases a with
  | relay x ws => exact h.elim
  | _ => trivial

/-- What the guard spares, the protocol spares. -/
theorem Spared.abs (hready : ∀ x, Endpoint.Ready (p.cfg x) (p.cfg x.other) (s x)) {x : Side}
    {ahead : List Packet} {w : Packet} (h : p.Spared s x ahead w) :
    Arq.Spared (p.abs s x) (p.abs s x.other) (ahead.map (Packet.view (p.cfg x.other)))
      (w.view (p.cfg x.other)) := by
  intro seq payload hframe
  replace hframe : readFrame (p.cfg x.other) w.bytes = .data seq payload := hframe
  rw [Spared, hframe] at h
  rcases h with hdead | hlt | ⟨heq, hlast⟩
  · exact Or.inl hdead
  · rw [(hready x.other).rxSeq] at hlt
    exact Or.inr (Or.inl hlt)
  · refine Or.inr (Or.inr ⟨heq, hlast.imp_left fun hblocked ↦ ?_⟩)
    rwa [abs_apply, Endpoint.party, Option.isSome_map]

/-- Losing a frame behind `ahead` from the frames on their way. -/
theorem sparing_of_spared (hready : ∀ x, Endpoint.Ready (p.cfg x) (p.cfg x.other) (s x)) {x : Side}
    {ahead behind : List Packet} {w : Packet} (hwire : (s x).wire = ahead ++ w :: behind)
    (h : p.Spared s x ((s x.other).arrived ++ ahead) w) :
    Arq.sparing (p.abs s) x (p.relayedOut s x (ahead ++ behind)) := by
  obtain ⟨hout, hrelayed⟩ := p.out_split hwire
  exact ⟨_, _, _, hout, hrelayed, h.abs hready⟩

/-- A sparing link is one for the abstract parties. -/
theorem absLink_sparing {t : Side → Arq.Party (List UInt8)} {x : Side}
    {l : List (Arq.Packet (List UInt8))} (hcq : p.SeparateCqs) (h : p.absLink p.sparing t x l) :
    Arq.sparing t x l := by
  obtain ⟨s, a, ws, rfl, hr, hseq, hg, hdrops, rfl⟩ := h
  have hready := Runs.ready hcq (fun _ _ ↦ chaotic_of_sparing) hr hseq
  cases hdrops with
  | deliver w hwire hfull =>
    have hspared := hg hfull w (by rw [hwire]; rfl)
    have hsplit : (s x).wire = [] ++ w :: ws := hwire
    refine sparing_of_spared hready hsplit ?_
    rwa [List.append_nil]
  | lose i hi hws =>
    obtain ⟨hsplit, herase⟩ := wire_split hi
    rw [hws, herase]
    exact sparing_of_spared hready hsplit (hg _ (List.getElem?_eq_getElem hi))
  | relay => exact hg.elim

/-- The next frame that an endpoint polls is not ahead of the one it expects. -/
theorem not_outOfOrder (hready : ∀ x, Endpoint.Ready (p.cfg x) (p.cfg x.other) (s x))
    (h : Arq.InOrder (p.abs s)) {x : Side} (hlive : (s x).pc.live = true) {wc : Wc}
    {e₁ : Endpoint} (hpop : (s x).popRcq = some (wc, e₁)) (seq : ℕ) :
    (s x).rxFrame (p.cfg x) wc ≠ .outOfOrder seq := by
  intro hframe
  obtain ⟨harrived, hreads⟩ := (hready x).polled hpop
  rw [hframe] at hreads
  obtain ⟨hgt, payload, hread⟩ := hreads
  have hout : (p.abs s x.other).out = ⟨.data seq payload, ((s x).rxBuf wc.wrId).kind.own⟩ ::
      (e₁.arrived ++ (s x.other).wire).map (Packet.view (p.cfg x)) := by
    rw [abs_other]
    show ((s x).arrived ++ _).map _ = _
    rw [harrived, List.cons_append, List.map_cons, Packet.view, hread]
  have hle : seq ≤ (s x).hist.accepted.length + 1 := h.head_le hlive hout
  rw [(hready x).rxSeq] at hgt
  omega

/-- An endpoint of a run that is in order at every state does not fail out of order. -/
theorem Runs.ne_outOfOrder {guard : System → NetAct → Prop} (hcq : p.SeparateCqs)
    (hguard : ∀ s a, guard s a → p.chaotic s a) (h : p.Runs guard s) (hseq : SeqBelow s)
    (hinOrder : ∀ s, p.Runs guard s → SeqBelow s → Arq.InOrder (p.abs s)) (x : Side) :
    (s x).pc ≠ .failed .outOfOrder := by
  refine Transition.Reach.invariant_of_bound (I := fun s ↦ (s x).pc ≠ .failed .outOfOrder) h nofun
    (fun s a s' hstep ↦ seqBelow_of_step hstep) ?_ hseq
  intro s a s' hr hs hg hstep hs' herr
  have hseq := seqBelow_of_step hstep hs'
  have hready := Runs.ready hcq hguard hr hseq
  have hmove := p.sideMove_of_step hstep x
  generalize he' : s' x = e' at hmove herr
  cases hmove with
  | act b e' hmove =>
    rcases hmove.failed_cases herr with hold | hack | hverbs | ⟨l, wc, e₁, hpc, hpop, seq, hframe⟩
    · exact hs hold
    · cases hack
    · cases hverbs
    · exact not_outOfOrder hready (hinOrder s hr hseq)
        (Pc.live_iff.2 (Endpoint.not_failed_of_poll hpc)) hpop seq hframe
  | wire ws => exact hs herr
  | arrive w =>
    refine hs (Eq.trans ?_ herr)
    unfold Endpoint.arrive
    split <;> rfl

/-- **Retransmission suffices for the losses it can make good.** On a first-in first-out link that
loses only such frames, for every window and ACK schedule, every data frame an endpoint comes to
poll is one it expects or has, and no call fails out of order. -/
theorem inOrder_of_sparing (hcq : p.SeparateCqs) (h : p.Runs p.sparing s) (hseq : SeqBelow s)
    (x : Side) :
    (s x).pc ≠ .failed .outOfOrder ∧ ∀ wc e₁, (s x).pc.live = true →
      (s x).popRcq = some (wc, e₁) → ∀ seq, (s x).rxFrame (p.cfg x) wc ≠ .outOfOrder seq := by
  have hguard : ∀ s a, p.sparing s a → p.chaotic s a := fun _ _ ↦ chaotic_of_sparing
  have hinOrder : ∀ s, p.Runs p.sparing s → SeqBelow s → Arq.InOrder (p.abs s) :=
    fun s hr hs ↦ Arq.InOrder.of_run (absLink_chaotic hguard)
      (fun _ _ _ _ hl ↦ absLink_sparing hcq hl) (Runs.abs hcq hguard hr hs)
  have hready := Runs.ready hcq hguard h hseq
  exact ⟨Runs.ne_outOfOrder hcq hguard h hseq hinOrder x, fun wc e₁ hlive hpop seq ↦
    not_outOfOrder hready (hinOrder s h hseq) hlive hpop seq⟩

/-- Two frames under way, the second of which is lost and sent again. -/
theorem inOrder_of_sparing_window : ∃ s : System, (s .left).pc = .sendLoop [] ∧
    (s .right).pc ≠ .failed .outOfOrder := by
  -- the second frame is lost while `rdma_send` is blocked on it, and sent again
  obtain ⟨s, hrun, hs⟩ := Transition.exists_reach_of_guardedRun
    (f := fun s : System ↦ ((s .left).pc, (s .left).hist.sent.length, (s .right).hist.sent.length))
    (show (Transition.guardedRun (twin windowConfig rfl).step (twin windowConfig rfl).sparing
      (twin windowConfig rfl).activate
      [.ep .left (.callSend [5, 6]), .ep .left .run, .ep .left .sendDone, .ep .left .pollSend,
        .ep .left .run, .ep .left .sendDone, .ep .left .pollSend, .lose .left 1,
        .ep .right (.callRecv 2), .ep .right .run, .deliver .left, .ep .right .pollRecv,
        .ep .right .sendDone, .ep .right .pollSend, .ep .right .run, .deliver .right,
        .ep .left .pollRecv, .ep .left .timeout, .ep .left .sendDone, .ep .left .pollSend,
        .deliver .left, .ep .right .pollRecv, .ep .right .sendDone, .ep .right .pollSend,
        .deliver .right, .ep .left .pollRecv]).map _ = some (.sendLoop [], 2, 0) from rfl)
  simp only [Prod.mk.injEq] at hs
  have hseq : SeqBelow s := by
    intro x
    cases x <;> omega
  exact ⟨s, hs.1, (inOrder_of_sparing (p := twin windowConfig rfl) (fun _ ↦ rfl) hrun hseq
    .right).1⟩

/-- **A loss that retransmission cannot make good**: with a window of two, the first frame of a
message is lost before its sender blocks on the second, and the receiver gives up. -/
theorem not_inOrder_of_lossy : ¬ ∀ (p : Peering) (s : System), p.SeparateCqs →
    (∀ x, (p.cfg x).sendFrameAck = true ∧ (p.cfg x).waitFrameAck = true) →
    p.Runs lossy s → SeqBelow s → ∀ x, (s x).pc ≠ .failed .outOfOrder := by
  intro h
  obtain ⟨s, hrun, hs⟩ := Transition.exists_reach_of_guardedRun
    (f := fun s : System ↦ ((s .right).pc, (s .left).hist.sent.length, (s .right).hist.sent.length))
    (show (Transition.guardedRun (twin windowConfig rfl).step lossy (twin windowConfig rfl).activate
      [.ep .left (.callSend [5, 6]), .ep .left .run, .ep .left .sendDone, .ep .left .pollSend,
        .ep .left .run, .lose .left 0, .ep .right (.callRecv 2), .ep .right .run, .deliver .left,
        .ep .right .pollRecv]).map _ = some (.failed .outOfOrder, 2, 0) from rfl)
  simp only [Prod.mk.injEq] at hs
  have hseq : SeqBelow s := by
    intro x
    cases x <;> omega
  exact h (twin windowConfig rfl) s (fun _ ↦ rfl) (fun _ ↦ ⟨rfl, rfl⟩) hrun hseq .right hs.1

end Peering

end LlamaRdma
