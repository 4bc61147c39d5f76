import NixStrixHalo.LlamaRdma.Link

/-!
# One completion queue for sends and receives

With `GGML_RDMA_SHARED_CQ` set, sends and receives complete in one queue and a poll returns the
oldest completion whatever it was made for. A receive that is in the queue when a send has not yet
completed is taken for that send: its frame is discarded, its slot is never posted again, and the
send's own completion is then taken for a receive, with the length of a frame as its slot
(`Peering.not_attributed`). As long as no receive is in the queue while a send is under way, every
poll gets what it was made for (`Peering.attributed_of_unmixed`).

## What a poll gets

`RingOp.Attributed` says of an entry of the log that the poll for a send got a send, and the poll
for a receive a receive, whose slot is one of the ring. The code never looks at the opcode of a
completion, so nothing of this is checked when it runs.

## The invariant

In `CqInv` at most one send is under way or completed, and only while the code is at the poll for it
(`Posts`); everything else in the queue is a receive. So the next poll gets what it is made for if
and only if no receive is in the queue while that send is under way
(`CqInv.attributed_iff_unmixed`).
-/

namespace LlamaRdma

open Arq (Side)

/-- The poll got a completion of the kind it was made for; for a receive, of a slot of the ring. -/
def RingOp.Attributed (depth : ℕ) : RingOp → Prop
  | .pollSend wc => wc.opcode = .send
  | .pollRecv wc => wc.opcode = .recv ∧ wc.wrId < depth
  | _ => True

/-- A point of the code where it polls for a send. -/
def Pc.posting : Pc → Bool
  | .sendPoll _ | .waitPost _ _ | .recvPost _ _ | .recvFinal _ _ => true
  | _ => false

namespace Endpoint

variable {cfg : RdmaConfig} {e e' : Endpoint}

/-- No receive is in the queue while a send is under way. -/
def Unmixed (e : Endpoint) : Prop := e.sendq ≠ [] → e.rcq = []

instance (e : Endpoint) : Decidable e.Unmixed := by
  unfold Unmixed
  infer_instance

/-! ### What a move does to the queue -/

/-- A send is posted and then polled for, or none is. -/
def Posts (posted : List Wc) (pc : Pc) : Prop :=
  posted = [] ∧ pc.posting = false ∨ ∃ len, posted = [⟨.send, len, 0⟩] ∧ pc.posting = true

/-- What a move does to the completions, the receive queue and the log. -/
inductive CqMove (e e' : Endpoint) : Prop
  /-- The code runs between two polls. -/
  | run (posted : List Wc) (hlive : e.pc.live = true) (hpc : e.pc.posting = false)
      (hposted : Posts posted e'.pc) (hsendq : e'.sendq = e.sendq ++ posted)
      (hrcq : e'.rcq = e.rcq) (hrecvq : e'.recvq = e.recvq) (hlog : e'.hist.ops = e.hist.ops)
  /-- A poll for a send. -/
  | pollSend (wc : Wc) (hpc : e.pc.posting = true) (hpc' : e'.pc.posting = false)
      (hsendq : e'.sendq = e.sendq) (hrcq : e.rcq = wc :: e'.rcq) (hrecvq : e'.recvq = e.recvq)
      (hlog : e'.hist.ops = e.hist.ops ++ [.pollSend wc])
  /-- A poll for a receive, whose slot is posted again. -/
  | pollRecv (wc : Wc) (posted : List Wc) (ops : List RingOp) (hlive : e.pc.live = true)
      (hpc : e.pc.posting = false) (hposted : Posts posted e'.pc)
      (hsendq : e'.sendq = e.sendq ++ posted) (hrcq : e.rcq = wc :: e'.rcq)
      (hrecvq : e'.recvq = e.recvq ++ [wc.wrId])
      (hlog : e'.hist.ops = e.hist.ops ++ .pollRecv wc :: ops)
      (hops : ∀ op ∈ ops, ∀ depth, op.Attributed depth)
  /-- The call fails, perhaps on a receive that it polled. -/
  | fail (err : RdmaError) (polled : List Wc)
      (hpolled : ∀ wc ∈ polled, e.pc.live = true ∧ e.pc.posting = false ∧ wc ∈ e.rcq)
      (hpc' : e'.pc = .failed err) (hrecvq : e'.recvq = e.recvq)
      (hlog : e'.hist.ops = e.hist.ops ++ polled.map .pollRecv)
  /-- A send completes. -/
  | done (wc : Wc) (hpc : e'.pc = e.pc) (hsendq : e.sendq = wc :: e'.sendq)
      (hrcq : e'.rcq = e.rcq ++ [wc]) (hrecvq : e'.recvq = e.recvq)
      (hlog : e'.hist.ops = e.hist.ops)

/-- With a shared queue, any completion is taken for a send. -/
theorem popScq_of_shared (hcq : cfg.sharedCq = true) {wc : Wc} {e₁ : Endpoint}
    (h : e.popScq cfg = some (wc, e₁)) :
    e.rcq = wc :: e.rcq.tail ∧ e₁ = { e.log (.pollSend wc) with rcq := e.rcq.tail } := by
  rcases hrcq : e.rcq with - | ⟨wc', q⟩
  · simp [popScq, hcq, hrcq] at h
  · obtain ⟨rfl, rfl⟩ : wc' = wc ∧ _ = e₁ := by simpa [popScq, hcq, hrcq] using h
    exact ⟨rfl, rfl⟩

/-- With a shared queue, completed sends go behind the receives. -/
theorem sendDone_of_shared (hcq : cfg.sharedCq = true) (h : e.sendDone cfg = some e') :
    ∃ wc, e.sendq = wc :: e.sendq.tail ∧
      e' = { e with sendq := e.sendq.tail, rcq := e.rcq ++ [wc] } := by
  rcases hsendq : e.sendq with - | ⟨wc, q⟩
  · simp [sendDone, hsendq] at h
  · obtain rfl : _ = e' := by simpa [sendDone, hcq, hsendq] using h
    exact ⟨wc, rfl, rfl⟩

/-- Code between two polls that posts no send. -/
theorem CqMove.of_quiet {pc : Pc} (hpc : e.pc = pc) (hlive : pc.live = true)
    (hposting : pc.posting = false) (hpc' : e'.pc.posting = false) (hsendq : e'.sendq = e.sendq)
    (hrcq : e'.rcq = e.rcq) (hrecvq : e'.recvq = e.recvq) (hlog : e'.hist.ops = e.hist.ops) :
    CqMove e e' := by
  subst hpc
  exact .run [] hlive hposting (Or.inl ⟨rfl, hpc'⟩) (hsendq.trans (List.append_nil _).symm) hrcq
    hrecvq hlog

/-- Code between two polls that posts a send. -/
theorem CqMove.of_post {pc : Pc} {len : ℕ} (hpc : e.pc = pc) (hlive : pc.live = true)
    (hposting : pc.posting = false) (hpc' : e'.pc.posting = true)
    (hsendq : e'.sendq = e.sendq ++ [⟨.send, len, 0⟩]) (hrcq : e'.rcq = e.rcq)
    (hrecvq : e'.recvq = e.recvq) (hlog : e'.hist.ops = e.hist.ops) : CqMove e e' := by
  subst hpc
  exact .run _ hlive hposting (Or.inr ⟨len, rfl, hpc'⟩) hsendq hrcq hrecvq hlog

/-- A poll for a send, whatever the code goes on with. -/
theorem CqMove.of_popScq (hcq : cfg.sharedCq = true) {wc : Wc} {e₁ : Endpoint}
    (hpop : e.popScq cfg = some (wc, e₁)) (hpc : e.pc.posting = true)
    (hpc' : e'.pc.posting = false) (hsendq : e'.sendq = e₁.sendq) (hrcq : e'.rcq = e₁.rcq)
    (hrecvq : e'.recvq = e₁.recvq) (hlog : e'.hist.ops = e₁.hist.ops) : CqMove e e' := by
  obtain ⟨hq, rfl⟩ := popScq_of_shared hcq hpop
  exact .pollSend wc hpc hpc' hsendq (hrcq ▸ hq) hrecvq hlog

/-- A poll for a receive, whatever the code goes on with. -/
theorem CqMove.of_popRcq {wc : Wc} {e₁ : Endpoint} {l : Loop} {posted : List Wc}
    {ops : List RingOp} (hpop : e.popRcq = some (wc, e₁)) (hpc : e.pc = l.poll)
    (hposted : Posts posted e'.pc) (hsendq : e'.sendq = e₁.sendq ++ posted)
    (hrcq : e'.rcq = e₁.rcq) (hrecvq : e'.recvq = e₁.recvq ++ [wc.wrId])
    (hlog : e'.hist.ops = e₁.hist.ops ++ ops)
    (hops : ∀ op ∈ ops, ∀ depth, op.Attributed depth) : CqMove e e' := by
  obtain ⟨hq, rfl⟩ := popRcq_eq_some_iff.1 hpop
  refine .pollRecv wc posted ops (by cases l <;> rw [hpc] <;> rfl) (by cases l <;> rw [hpc] <;> rfl)
    hposted hsendq (hrcq ▸ hq) hrecvq ?_ hops
  rw [hlog]
  show e.hist.ops ++ [.pollRecv wc] ++ ops = _
  rw [List.append_assoc]
  rfl

/-- A loop that goes on with or without a reply. -/
theorem resume_posts (cfg : RdmaConfig) (e : Endpoint) (l : Loop) (reply : Option ℕ) :
    ∃ posted, Posts posted (e.resume cfg l reply).pc ∧
      (e.resume cfg l reply).sendq = e.sendq ++ posted := by
  cases reply with
  | none => exact ⟨[], Or.inl ⟨rfl, by cases l <;> rfl⟩, (List.append_nil _).symm⟩
  | some seq => exact ⟨_, Or.inr ⟨_, rfl, by cases l <;> rfl⟩, rfl⟩

/-- Going back to the loop reposts the slot that was polled. -/
theorem CqMove.of_resume {wc : Wc} {e₁ e₂ : Endpoint} {l l' : Loop} {ops : List RingOp}
    (reply : Option ℕ) (hpop : e.popRcq = some (wc, e₁)) (hpc : e.pc = l.poll)
    (hsendq : e₂.sendq = e₁.sendq) (hrcq : e₂.rcq = e₁.rcq)
    (hrecvq : e₂.recvq = e₁.recvq ++ [wc.wrId]) (hlog : e₂.hist.ops = e₁.hist.ops ++ ops)
    (hops : ∀ op ∈ ops, ∀ depth, op.Attributed depth) : CqMove e (e₂.resume cfg l' reply) := by
  obtain ⟨posted, hposted, hsendq'⟩ := resume_posts cfg e₂ l' reply
  rw [hsendq] at hsendq'
  exact .of_popRcq hpop hpc hposted hsendq' (by rw [resume_rcq, hrcq])
    (by rw [resume_recvq, hrecvq]) (by rw [resume_hist, hlog]) hops

/-- Copies poll nothing, so that they mix nothing up. -/
theorem Copied.attributed {slot len : ℕ} {ops : List RingOp} (h : Copied slot len ops) :
    ∀ op ∈ ops, ∀ depth, op.Attributed depth := by
  cases h <;> simp [RingOp.Attributed]

/-- **Every move polls for what its point of the code polls for.** -/
theorem Move.cq {a : Act} (hcq : cfg.sharedCq = true) (hmove : Move cfg e a e') : CqMove e e' := by
  have hpost : ∀ slot, ∀ op ∈ [RingOp.post slot], ∀ depth, op.Attributed depth := by
    simp [RingOp.Attributed]
  cases hmove with
  | callSend data hpc => exact .of_quiet hpc rfl rfl rfl rfl rfl rfl rfl
  | callRecv size hpc => exact .of_quiet hpc rfl rfl rfl rfl rfl rfl rfl
  | sendReturn hpc => exact .of_quiet hpc rfl rfl rfl rfl rfl rfl rfl
  | sendData src hpc hsrc =>
    rw [rdmaSendLoop_of_ne_nil cfg e hsrc]
    exact .of_post hpc rfl rfl rfl rfl rfl rfl rfl
  | sendWait _ _ _ hpc hpop | sendNext _ _ _ hpc hpop | retransmitted _ _ _ hpc hpop
  | waitAcked _ _ _ _ hpc hpop | recvAcked _ _ _ _ hpc hpop | recvFinished _ _ _ _ hpc hpop =>
    exact .of_popScq hcq hpop (by rw [hpc]; rfl) rfl rfl rfl rfl rfl
  | waitExhausted w hpc hretries => exact .fail _ [] nofun rfl rfl (List.append_nil _).symm
  | retransmit w hpc hretries =>
    exact .of_post hpc rfl rfl rfl rfl rfl rfl rfl
  | pollFail l wc e₁ err hpc hpop herr =>
    obtain ⟨hq, rfl⟩ := popRcq_eq_some_iff.1 hpop
    refine .fail err [wc] ?_ rfl rfl rfl
    intro wc' hwc'
    obtain rfl := List.mem_singleton.1 hwc'
    refine ⟨by cases l <;> rw [hpc] <;> rfl, by cases l <;> rw [hpc] <;> rfl, ?_⟩
    rw [hq]
    exact List.mem_cons_self
  | pollStale l wc e₁ hpc hpop hframe =>
    exact .of_popRcq hpop hpc (Or.inl ⟨rfl, by cases l <;> rfl⟩) (List.append_nil _).symm rfl rfl
      rfl (hpost wc.wrId)
  | pollAck l wc e₁ seq hpc hpop hframe hmore =>
    exact .of_popRcq hpop hpc (Or.inl ⟨rfl, by cases l <;> rfl⟩) (List.append_nil _).symm rfl rfl
      rfl (hpost wc.wrId)
  | pollAckDone w wc e₁ seq hpc hpop hframe hdone =>
    exact .of_popRcq (l := .wait w) hpop hpc (Or.inl ⟨rfl, rfl⟩) (List.append_nil _).symm rfl rfl
      rfl (hpost wc.wrId)
  | pollDuplicate l wc e₁ seq hpc hpop hframe =>
    exact .of_resume _ hpop hpc rfl rfl rfl rfl (hpost wc.wrId)
  | waitAccept w wc e₁ seq payload hpc hpop hframe hpending =>
    have hlog : (e₁.bufferPayload wc.wrId payload).hist.ops = e₁.hist.ops ++
        [.accept wc.wrId payload.length, .copy wc.wrId 0 payload.length, .post wc.wrId] := by
      simp [bufferPayload, acceptFrame, postRx, log]
    exact .of_resume (l := .wait w) _ hpop hpc rfl rfl rfl hlog Copied.whole.attributed
  | recvAccept r wc e₁ seq payload hpc hpop hframe =>
    obtain ⟨hrecvq, hrcq, -, ops, hcopied, hlog⟩ := copyOut_ring (e := e₁) r wc.wrId payload
    refine .of_resume (l := .recv r) _ hpop hpc ?_ hrcq hrecvq hlog hcopied.attributed
    rw [copyOut_frame]
    rfl
  | recvBlock r r₁ e₁ hpc hpass hrem =>
    rw [(rdmaRecvPending_frame hpass).1]
    exact .of_quiet hpc rfl rfl rfl rfl rfl rfl rfl
  | recvAckLast r r₁ e₁ hpc hpass hrem howed =>
    rw [(rdmaRecvPending_frame hpass).1]
    exact .of_post hpc rfl rfl rfl rfl rfl rfl rfl
  | recvReturn r r₁ e₁ hpc hpass hrem howed =>
    rw [(rdmaRecvPending_frame hpass).1]
    exact .of_quiet hpc rfl rfl rfl rfl rfl rfl rfl
  | fail hidle hfailed => exact .fail _ [] nofun rfl rfl (List.append_nil _).symm
  | sendDone e₁ hdone =>
    obtain ⟨wc, hq, rfl⟩ := sendDone_of_shared hcq hdone
    exact .done wc rfl hq rfl rfl rfl

/-! ### Attribution -/

/-- Receives that completed, of slots of the ring. -/
def Receives (depth : ℕ) (wcs : List Wc) : Prop := ∀ wc ∈ wcs, wc.opcode = .recv ∧ wc.wrId < depth

/-- What the queue holds of an endpoint that has not failed: receives, and, while it polls for a
send, the completion of that send, behind them until it completes and ahead of them after. -/
def Queued (depth : ℕ) (e : Endpoint) : Prop :=
  if e.pc.posting then
    ∃ wc, wc.opcode = .send ∧ (e.sendq = [wc] ∧ Receives depth e.rcq ∨
      e.sendq = [] ∧ ∃ q, e.rcq = wc :: q ∧ Receives depth q)
  else e.sendq = [] ∧ Receives depth e.rcq

/-- The polls so far got what they were made for, and so will the next. -/
structure CqInv (depth : ℕ) (e : Endpoint) : Prop where
  polled : ∀ op ∈ e.hist.ops, op.Attributed depth
  slots : ∀ slot ∈ e.recvq, slot < depth
  queued : e.pc.live = true → Queued depth e

/-- What a call has posted is what is queued. -/
theorem Posts.queued {depth : ℕ} {posted : List Wc} (h : Posts posted e'.pc)
    (hsendq : e'.sendq = [] ++ posted) (hrcq : Receives depth e'.rcq) : Queued depth e' := by
  unfold Queued
  rcases h with ⟨rfl, hpc⟩ | ⟨len, rfl, hpc⟩
  · rw [if_neg (by simp [hpc])]
    exact ⟨hsendq, hrcq⟩
  · rw [if_pos hpc]
    exact ⟨_, rfl, Or.inl ⟨hsendq, hrcq⟩⟩

/-- Where no call posts, there are only receives. -/
theorem Queued.of_not_posting {depth : ℕ} (h : Queued depth e) (hpc : e.pc.posting = false) :
    e.sendq = [] ∧ Receives depth e.rcq := by
  rwa [Queued, if_neg (by simp [hpc])] at h

/-- A call that posts has not failed. -/
theorem Pc.live_of_posting {pc : Pc} (h : pc.posting = true) : pc.live = true := by
  cases pc <;> first | rfl | cases h

/-- **A move of an unmixed endpoint keeps to what it polls for.** -/
theorem CqInv.move {depth : ℕ} (h : CqInv depth e) (hunmixed : e.Unmixed) (hmove : CqMove e e') :
    CqInv depth e' := by
  cases hmove with
  | run posted hlive hpc hposted hsendq hrcq hrecvq hlog =>
    obtain ⟨hnone, hrecvs⟩ := (h.queued hlive).of_not_posting hpc
    exact ⟨hlog ▸ h.polled, hrecvq ▸ h.slots, fun _ ↦
      hposted.queued (hnone ▸ hsendq) (hrcq ▸ hrecvs)⟩
  | pollSend wc hpc hpc' hsendq hrcq hrecvq hlog =>
    have hqueued := h.queued (Pc.live_of_posting hpc)
    rw [Queued, if_pos hpc] at hqueued
    obtain ⟨wc₀, hsend, ⟨hsendq₀, -⟩ | ⟨hnone, q, hrcq₀, hrecvs⟩⟩ := hqueued
    · -- a send that has not completed leaves nothing to poll
      have hempty := hunmixed (by simp [hsendq₀])
      rw [hrcq] at hempty
      cases hempty
    · obtain ⟨rfl, rfl⟩ := List.cons.inj (hrcq₀.symm.trans hrcq)
      refine ⟨?_, hrecvq ▸ h.slots, fun _ ↦ ?_⟩
      · rw [hlog]
        intro op hop
        rcases List.mem_append.1 hop with hop | hop
        · exact h.polled op hop
        · obtain rfl := List.mem_singleton.1 hop
          exact hsend
      · rw [Queued, if_neg (by simp [hpc'])]
        exact ⟨hsendq.trans hnone, hrecvs⟩
  | pollRecv wc posted ops hlive hpc hposted hsendq hrcq hrecvq hlog hops =>
    obtain ⟨hnone, hrecvs⟩ := (h.queued hlive).of_not_posting hpc
    rw [hrcq] at hrecvs
    have hwc := hrecvs wc List.mem_cons_self
    refine ⟨?_, ?_, fun _ ↦ hposted.queued (hnone ▸ hsendq) fun wc' hwc' ↦
      hrecvs wc' (List.mem_cons_of_mem _ hwc')⟩
    · rw [hlog]
      intro op hop
      rcases List.mem_append.1 hop with hop | hop
      · exact h.polled op hop
      · rcases List.mem_cons.1 hop with rfl | hop
        · exact hwc
        · exact hops op hop depth
    · rw [hrecvq]
      intro slot hslot
      rcases List.mem_append.1 hslot with hslot | hslot
      · exact h.slots slot hslot
      · obtain rfl := List.mem_singleton.1 hslot
        exact hwc.2
  | fail err polled hpolled hpc' hrecvq hlog =>
    refine ⟨?_, hrecvq ▸ h.slots, fun hlive ↦ ?_⟩
    · rw [hlog]
      intro op hop
      rcases List.mem_append.1 hop with hop | hop
      · exact h.polled op hop
      · obtain ⟨wc, hwc, rfl⟩ := List.mem_map.1 hop
        obtain ⟨hlive, hpc, hmem⟩ := hpolled wc hwc
        exact ((h.queued hlive).of_not_posting hpc).2 wc hmem
    · rw [hpc'] at hlive
      cases hlive
  | done wc hpc hsendq hrcq hrecvq hlog =>
    refine ⟨hlog ▸ h.polled, hrecvq ▸ h.slots, fun hlive ↦ ?_⟩
    have hqueued := h.queued (hpc ▸ hlive)
    -- the send completes into an empty queue, so its poll gets it
    have hempty : e.rcq = [] := hunmixed (by simp [hsendq])
    unfold Queued at hqueued ⊢
    rw [hpc]
    split at hqueued
    next hposting =>
      rw [if_pos hposting]
      obtain ⟨wc₀, hsend, ⟨hsendq₀, -⟩ | ⟨hnone, -⟩⟩ := hqueued
      · obtain ⟨rfl, hrest⟩ := List.cons.inj (hsendq.symm.trans hsendq₀)
        exact ⟨wc, hsend, Or.inr ⟨hrest, [], by rw [hrcq, hempty]; rfl, nofun⟩⟩
      · rw [hsendq] at hnone
        cases hnone
    next hidle =>
      have hnone := hqueued.1
      rw [hsendq] at hnone
      cases hnone

/-- An arriving frame goes behind what is in the queue. -/
theorem CqInv.arrive {depth : ℕ} (h : CqInv depth e) (w : Packet) : CqInv depth (e.arrive w) := by
  unfold Endpoint.arrive
  split
  next => exact h
  next slot q hrecvq =>
    have hslots := h.slots
    rw [hrecvq] at hslots
    have hnew : ∀ {wcs : List Wc}, Receives depth wcs →
        Receives depth (wcs ++ [⟨.recv, slot, w.bytes.length⟩]) := by
      intro wcs hwcs wc hwc
      rcases List.mem_append.1 hwc with hwc | hwc
      · exact hwcs wc hwc
      · obtain rfl := List.mem_singleton.1 hwc
        exact ⟨rfl, hslots slot List.mem_cons_self⟩
    refine ⟨h.polled, fun s hs ↦ hslots s (List.mem_cons_of_mem _ hs), fun hlive ↦ ?_⟩
    have hqueued := h.queued hlive
    unfold Queued at hqueued ⊢
    show if e.pc.posting = true then _ else _
    split at hqueued
    next hposting =>
      rw [if_pos hposting]
      obtain ⟨wc, hsend, ⟨hsendq, hrecvs⟩ | ⟨hnone, q', hrcq, hrecvs⟩⟩ := hqueued
      · exact ⟨wc, hsend, Or.inl ⟨hsendq, hnew hrecvs⟩⟩
      · exact ⟨wc, hsend, Or.inr ⟨hnone, q' ++ [_], by rw [hrcq]; rfl, hnew hrecvs⟩⟩
    next hidle =>
      rw [if_neg hidle]
      exact ⟨hqueued.1, hnew hqueued.2⟩

/-- At the start, nothing has been polled. -/
theorem CqInv.activate (cfg : RdmaConfig) (txMem : ℕ → List UInt8) (rxMem : ℕ → Packet) :
    CqInv cfg.rxDepth (rdmaActivate cfg txMem rxMem) where
  polled op hop := by
    obtain ⟨slot, -, rfl⟩ := List.mem_map.1 hop
    trivial
  slots slot hslot := List.mem_range.1 hslot
  queued _ := ⟨rfl, nofun⟩

/-- The next poll for a send gets it exactly when no receive is in the queue while the send is under
way. -/
theorem CqInv.attributed_iff_unmixed {depth : ℕ} (h : CqInv depth e) (hcq : cfg.sharedCq = true)
    (hstep : e.step cfg .pollSend = some e') :
    (∀ op ∈ e'.hist.ops, op.Attributed depth) ↔ e.Unmixed := by
  have hmove := move_of_step hstep
  refine ⟨fun hpolled hsendq ↦ ?_, fun hunmixed ↦ (h.move hunmixed (hmove.cq hcq)).polled⟩
  -- the completion polled is a receive, as the send has not completed
  have hrecv : ∀ wc, e.rcq = wc :: e.rcq.tail → e.pc.posting = true →
      .pollSend wc ∈ e'.hist.ops → e.rcq = [] := by
    intro wc hq hpc hop
    have hqueued := h.queued (Pc.live_of_posting hpc)
    rw [Queued, if_pos hpc] at hqueued
    obtain ⟨-, -, ⟨-, hrecvs⟩ | ⟨hnone, -⟩⟩ := hqueued
    · have hrecv := (hrecvs wc (hq ▸ List.mem_cons_self)).1
      have hsend : wc.opcode = .send := hpolled _ hop
      rw [hrecv] at hsend
      cases hsend
    · exact absurd hnone hsendq
  cases hmove with
  | sendWait w wc e₁ hpc hpop | sendNext w wc e₁ hpc hpop | retransmitted w wc e₁ hpc hpop
  | waitAcked w seq wc e₁ hpc hpop | recvAcked r seq wc e₁ hpc hpop
  | recvFinished r seq wc e₁ hpc hpop =>
    obtain ⟨hq, rfl⟩ := popScq_of_shared hcq hpop
    exact hrecv wc hq (by rw [hpc]; rfl) (List.mem_append_right _ List.mem_cons_self)

end Endpoint

namespace Peering

variable (p : Peering) {s : System}

/-- Any link, over endpoints that have no receive in their queue while a send is under way. -/
def unmixed (s : System) (a : NetAct) : Prop := p.chaotic s a ∧ ∀ x, (s x).Unmixed

/-- A first-in first-out link that loses nothing, over such endpoints. -/
def losslessUnmixed (s : System) (a : NetAct) : Prop :=
  lossless s a ∧ (s .left).Unmixed ∧ (s .right).Unmixed

instance (s : System) (a : NetAct) : Decidable (losslessUnmixed s a) := by
  unfold losslessUnmixed
  infer_instance

variable {p}

/-- **In unmixed runs, completions are told apart.** -/
theorem Runs.cqInv (hcq : ∀ x, (p.cfg x).sharedCq = true) (h : p.Runs p.unmixed s) :
    ∀ x, Endpoint.CqInv (p.cfg x).rxDepth (s x) := by
  refine Transition.Reach.invariant
    (I := fun s ↦ ∀ x, Endpoint.CqInv (p.cfg x).rxDepth (s x)) h
    (fun x ↦ Endpoint.CqInv.activate _ _ _) ?_
  intro s a s' _ hs hg hstep x
  have hunmixed := hg.2 x
  have hold := hs x
  have hmove := p.sideMove_of_step hstep x
  generalize s x = e, s' x = e' at hunmixed hold hmove
  cases hmove with
  | act b e' hmove => exact hold.move hunmixed (hmove.cq (hcq x))
  | wire ws => exact ⟨hold.polled, hold.slots, hold.queued⟩
  | arrive w => exact hold.arrive w

/-- **Attribution in a shared queue.** In every run in which no receive is in an endpoint's queue
while a send of it is under way, every poll for a send has got a send and every poll for a receive a
receive, of a slot of the ring; and the next poll for a send does so only if the state it is made in
is such a state. -/
theorem attributed_of_unmixed (hcq : ∀ x, (p.cfg x).sharedCq = true) (h : p.Runs p.unmixed s)
    (x : Side) : (∀ op ∈ (s x).hist.ops, op.Attributed (p.cfg x).rxDepth) ∧
      ∀ e', (s x).step (p.cfg x) .pollSend = some e' →
        ((∀ op ∈ e'.hist.ops, op.Attributed (p.cfg x).rxDepth) ↔ (s x).Unmixed) := by
  have hinv := Runs.cqInv hcq h x
  exact ⟨hinv.polled, fun e' hstep ↦ hinv.attributed_iff_unmixed (hcq x) hstep⟩

/-- A frame that is received over a shared queue. -/
theorem attributed_of_unmixed_shared : ∃ s : System, (s .right).hist.delivered = [5] ∧
    ∀ op ∈ (s .right).hist.ops, op.Attributed 4 := by
  obtain ⟨s, hrun, hs⟩ := Transition.exists_reach_of_guardedRun
    (f := fun s : System ↦ (s .right).hist.delivered)
    (show (Transition.guardedRun (twin sharedConfig rfl).step losslessUnmixed
      (twin sharedConfig rfl).activate
      [.ep .left (.callSend [5]), .ep .left .run, .ep .left .sendDone, .ep .left .pollSend,
        .deliver .left, .ep .right (.callRecv 1), .ep .right .run, .ep .right .pollRecv,
        .ep .right .sendDone, .ep .right .pollSend, .ep .right .run]).map _ = some [5] from rfl)
  refine ⟨s, hs, (attributed_of_unmixed (p := twin sharedConfig rfl) (fun _ ↦ rfl)
    (hrun.mono fun s a h ↦ ⟨?_, ?_⟩) .right).1⟩
  · exact (twin sharedConfig rfl).chaotic_of_lossy
      (lossy_of_unreliable (unreliable_of_lossless h.1))
  · intro x
    cases x
    · exact h.2.1
    · exact h.2.2

/-- **A poll that gets the wrong completion**: two frames arrive together, and the poll for the ACK
of the first takes the second, which is lost. -/
theorem not_attributed : ¬ ∀ (p : Peering) (s : System), (∀ x, (p.cfg x).sharedCq = true) →
    p.Runs lossless s → SeqBelow s →
    ∀ x, ∀ op ∈ (s x).hist.ops, op.Attributed (p.cfg x).rxDepth := by
  intro h
  obtain ⟨s, hrun, hs⟩ := Transition.exists_reach_of_guardedRun
    (f := fun s : System ↦ ((s .right).hist.ops.getLast?, (s .left).hist.sent.length,
      (s .right).hist.sent.length))
    (show (Transition.guardedRun (twin sharedConfig rfl).step lossless
      (twin sharedConfig rfl).activate
      [.ep .left (.callSend [5, 6]), .ep .left .run, .ep .left .sendDone, .ep .left .pollSend,
        .ep .left .run, .deliver .left, .deliver .left, .ep .right (.callRecv 2), .ep .right .run,
        .ep .right .pollRecv, .ep .right .pollSend]).map _ =
      some (some (.pollSend ⟨.recv, 1, 25⟩), 2, 0) from rfl)
  simp only [Prod.mk.injEq] at hs
  have hseq : SeqBelow s := by
    intro x
    cases x <;> omega
  have hop := h (twin sharedConfig rfl) s (fun _ ↦ rfl) hrun hseq .right _
    (List.mem_of_getLast? hs.1)
  cases hop

end Peering

end LlamaRdma
