import NixStrixHalo.Library.ArqPipeline
import NixStrixHalo.LlamaRdma.Refinement

/-!
# The window and the receive ring

Nothing checks the ACK window against the number of posted receives, and a window larger than the
ring overruns it (`Peering.not_unpolled_le_rxDepth`). What the window and the retry limit do bound
is the number of frames under way, `window + 2 * retries` data frames in each direction, so a ring
with room for what both directions have under way never drops a frame, however slowly its endpoint
polls (`Peering.flow_control`).

## Why both directions count

An acknowledgement takes a receive as a data frame does, and there is at most one of them for each
data frame of the other direction that is under way. So the room that an endpoint needs is made of
the windows and retries of both sides.

## The proof

The bound is that of the pipe of `ArqPipeline`, which needs a link that drops nothing a live party
would get, while a ring that is full does drop a frame. The two are shown together, by induction on
the run: as long as the bounds have held, every slot that is not taken is posted (`Ring`), so there
is one for the next frame (`recvq_ne_nil`).
-/

namespace LlamaRdma

open Arq (Side)

/-- The most data frames that an endpoint has under way. -/
def RdmaConfig.underWay (cfg : RdmaConfig) : ℕ := cfg.ackWindow + 2 * cfg.ackRetries

namespace Peering

variable {p : Peering} {s : System}

/-- The data frames that `x` has sent, first and repeated transmissions, and that the other endpoint
has not polled. -/
def unpolled (s : System) (x : Side) : List Packet :=
  (transit s x).filter fun w ↦ w.kind.own.isSome

/-- The completions to be polled are the own frames in the abstract queue. -/
theorem length_unpolled (s : System) (x : Side) :
    (unpolled s x).length = (Arq.owns (p.abs s x).out).length := by
  have hout : (p.abs s x).out = (transit s x).map (Packet.view (p.cfg x.other)) := rfl
  rw [hout, Arq.owns, List.filterMap_map, unpolled]
  induction transit s x with
  | nil => rfl
  | cons w ws ih =>
    rcases hown : w.kind.own with - | q
    · simpa [Packet.view, hown] using ih
    · simpa [Packet.view, hown] using ih

/-- The window is the limit of the abstract party. -/
theorem limits_window (hwait : ∀ x, (p.cfg x).waitFrameAck = true) (x : Side) :
    (p.limits x).window = some (p.cfg x).ackWindow := by
  rw [limits, Endpoint.limits, hwait, if_pos rfl]

/-- A frame on the link to a live endpoint finds a posted receive. -/
theorem recvq_ne_nil (hring : ∀ x, Endpoint.RingInv (p.cfg x).rxDepth (s x))
    {x : Side} (hlen : (transit s x).length ≤ (p.cfg x.other).rxDepth)
    (hlive : (s x.other).pc.live = true) {w : Packet} {ws : List Packet}
    (hwire : (s x).wire = w :: ws) : (s x.other).recvq ≠ [] := by
  intro hnone
  obtain ⟨lost, hperm, hlost⟩ := (hring x.other).slots
  have hcount := hperm.length_eq
  rw [hlost (Pc.live_iff.1 hlive), hnone, List.append_nil, List.nil_append, List.length_map,
    List.length_range] at hcount
  rw [transit, hwire, List.length_append, Endpoint.arrived, List.length_map, List.length_cons]
    at hlen
  omega

/-- An unreliable link is a link. -/
theorem chaotic_of_unreliable (s : System) (a : NetAct) (h : unreliable s a) : p.chaotic s a :=
  p.chaotic_of_lossy (lossy_of_unreliable h)

/-- With the wait for acknowledgements, no party is further ahead than its window. -/
theorem windowed_of_run (hwait : ∀ x, (p.cfg x).waitFrameAck = true) {L : Arq.Link (List UInt8)}
    {t : Side → Arq.Party (List UInt8)} (hrun : Arq.Run p.limits L t) :
    Arq.Windowed p.limits t := by
  refine Arq.Windowed.of_run (fun x w hw ↦ ?_) hrun
  obtain rfl : (p.cfg x).ackWindow = w := by simpa [limits_window hwait] using hw
  exact (p.cfg x).ackWindow_pos

/-- All frames under way fit into the ring they are on their way to. -/
theorem length_transit_le (hwait : ∀ x, (p.cfg x).waitFrameAck = true)
    (hroom : ∀ x, (p.cfg x).underWay + (p.cfg x.other).underWay ≤ (p.cfg x.other).rxDepth)
    (hreliable : Arq.Reliable p.limits (p.abs s)) (hsound : Arq.Sound (p.abs s))
    (hwindowed : Arq.Windowed p.limits (p.abs s)) (x : Side) :
    (transit s x).length ≤ (p.cfg x.other).rxDepth := by
  have hle := hreliable.length_out_le hsound hwindowed (limits_window hwait x)
    (limits_window hwait x.other)
  have hout : (p.abs s x).out.length = (transit s x).length := List.length_map _
  rw [hout] at hle
  exact hle.trans (hroom x)

/-- A run over an unreliable connection is a run over a reliable one when the rings have room for
what both directions have under way. -/
theorem Runs.reliable (hcq : p.SeparateCqs) (hwait : ∀ x, (p.cfg x).waitFrameAck = true)
    (hroom : ∀ x, (p.cfg x).underWay + (p.cfg x.other).underWay ≤ (p.cfg x.other).rxDepth)
    (h : p.Runs unreliable s) (hseq : SeqBelow s) : Arq.Reliable p.limits (p.abs s) := by
  have hchaotic : ∀ t x l, p.absLink unreliable t x l → Arq.chaotic t x l :=
    absLink_chaotic chaotic_of_unreliable
  refine Arq.Reliable.of_run hchaotic ?_ (Runs.abs hcq chaotic_of_unreliable h hseq)
  rintro t x l hrun hreliable ⟨s, a, ws, rfl, hr, hs, hg, hdrops, rfl⟩
  cases hdrops with
  | deliver w hwire hfull =>
    have hlen := length_transit_le hwait hroom hreliable (Arq.Sound.of_run hchaotic hrun)
      (windowed_of_run hwait hrun) x
    refine ⟨?_, ?_⟩
    · -- a drop would mean that more frames are under way than the ring has slots
      by_contra hlive
      exact recvq_ne_nil (Runs.ring p hcq hr) hlen (Bool.not_eq_false _ ▸ hlive) hwire hfull
    · show (((s x.other).arrived ++ ws).map _).Sublist (((s x.other).arrived ++ (s x).wire).map _)
      rw [hwire]
      exact (((List.Sublist.refl _).append (List.sublist_cons_self w ws))).map _
  | lose => exact hg.elim
  | relay => exact hg.elim

/-- **Flow control.** With ACK waiting on and receive rings that have room for what both directions
have under way, the data frames sent and not polled never exceed the window and twice the retries,
and no frame ever arrives at a live endpoint without a posted receive, however slowly it polls. -/
theorem flow_control (hcq : p.SeparateCqs) (hwait : ∀ x, (p.cfg x).waitFrameAck = true)
    (hroom : ∀ x, (p.cfg x).underWay + (p.cfg x.other).underWay ≤ (p.cfg x.other).rxDepth)
    (h : p.Runs unreliable s) (hseq : SeqBelow s) (x : Side) :
    (unpolled s x).length ≤ (p.cfg x).underWay ∧
      (unpolled s x).length ≤ (p.cfg x.other).rxDepth ∧
      ((s x.other).pc.live = true → (s x).wire ≠ [] → (s x.other).recvq ≠ []) := by
  have hrun := Runs.abs hcq chaotic_of_unreliable h hseq
  have hsound := Runs.sound hcq chaotic_of_unreliable h hseq
  have hreliable := Runs.reliable hcq hwait hroom h hseq
  have hwindowed := windowed_of_run hwait hrun
  have hlen := length_transit_le hwait hroom hreliable hsound hwindowed x
  have hbound : (unpolled s x).length ≤ (p.cfg x).underWay := by
    rw [length_unpolled]
    exact hreliable.length_owns_le hsound hwindowed (limits_window hwait x)
  refine ⟨hbound, (List.length_filter_le _ _).trans hlen, fun hlive hwire ↦ ?_⟩
  obtain ⟨w, ws, hws⟩ := List.exists_cons_of_ne_nil hwire
  exact recvq_ne_nil (Runs.ring p hcq h) hlen hlive hws

/-- Two frames are under way where there is room for more. -/
theorem flow_control_roomy : ∃ s : System, (unpolled s .left).length = 2 ∧
    (unpolled s .left).length ≤ roomyConfig.underWay := by
  -- `right` has not polled the frame when its sender repeats it
  obtain ⟨s, hrun, hs⟩ := Transition.exists_reach_of_guardedRun
    (f := fun s : System ↦ ((unpolled s .left).length, (s .left).hist.sent.length,
      (s .right).hist.sent.length))
    (show (Transition.guardedRun (twin roomyConfig rfl).step unreliable
      (twin roomyConfig rfl).activate
      [.ep .left (.callSend [5]), .ep .left .run, .ep .left .sendDone, .ep .left .pollSend,
        .deliver .left, .ep .left .timeout]).map _ = some (2, 1, 0) from rfl)
  simp only [Prod.mk.injEq] at hs
  have hseq : SeqBelow s := by
    intro x
    cases x <;> omega
  exact ⟨s, hs.1, (flow_control (p := twin roomyConfig rfl) (fun _ ↦ rfl) (fun _ ↦ rfl)
    (fun _ ↦ show roomyConfig.underWay + roomyConfig.underWay ≤ roomyConfig.rxDepth by decide)
    hrun hseq .left).1⟩

/-- **The window alone does not protect the ring**: a window of two overruns a ring of one. -/
theorem not_unpolled_le_rxDepth : ¬ ∀ (p : Peering) (s : System), p.SeparateCqs →
    p.cfg .left = p.cfg .right →
    (∀ x, (p.cfg x).sendFrameAck = true ∧ (p.cfg x).waitFrameAck = true) →
    p.Runs unreliable s → SeqBelow s → ∀ x, (unpolled s x).length ≤ (p.cfg x.other).rxDepth := by
  intro h
  obtain ⟨s, hrun, hs⟩ := Transition.exists_reach_of_guardedRun
    (f := fun s : System ↦ ((unpolled s .left).length, (s .left).hist.sent.length,
      (s .right).hist.sent.length))
    (show (Transition.guardedRun (twin shallowConfig rfl).step unreliable
      (twin shallowConfig rfl).activate
      [.ep .left (.callSend [5, 6]), .ep .left .run, .ep .left .sendDone, .ep .left .pollSend,
        .ep .left .run]).map _ = some (2, 2, 0) from rfl)
  simp only [Prod.mk.injEq] at hs
  have hseq : SeqBelow s := by
    intro x
    cases x <;> omega
  have hle := h (twin shallowConfig rfl) s (fun _ ↦ rfl) rfl (fun _ ↦ ⟨rfl, rfl⟩) hrun hseq
    .left
  rw [hs.1] at hle
  exact absurd hle (by decide)

end Peering

end LlamaRdma
