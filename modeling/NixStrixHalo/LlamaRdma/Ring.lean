import Mathlib.Data.List.Perm.Basic
import NixStrixHalo.Library.Transition
import NixStrixHalo.LlamaRdma.Moves

/-!
# The receive ring

With separate completion queues every receive slot is posted or completed and not yet polled, never
both and never twice, whatever arrives.

## The invariant and the discipline

`RingInv` is the invariant on the slots, and `Serviced` is the discipline of what is done with a
polled slot, in the order it is done: a slot is polled, its payload is copied, in one piece or in
two, and then it is posted again. Both are kept by every move of the endpoint and by every arrival.
A slot is lost only by the poll of a call that returns `false`.

What a move does to the receive queue, to the completed receives and to the log is one of the three
cases of `RingMove`: no receive is polled, one is polled and posted again, or one is polled and the
call fails.

## The setting

The setting is one endpoint against a network that may deliver any bytes at any time (`RingAct`), so
`ring_conserved` assumes nothing of the peer. With a shared completion queue it is false, because a
poll for a send may then take a receive (`SharedCq`).
-/

namespace LlamaRdma

namespace Endpoint

variable {cfg : RdmaConfig} {e e' e₁ : Endpoint}

/-! ### What a move does to the ring -/

/-- The log of a frame that was accepted: the whole payload is copied, in one piece or two, and then
the slot is posted. -/
inductive Copied (slot len : ℕ) : List RingOp → Prop
  | whole : Copied slot len [.accept slot len, .copy slot 0 len, .post slot]
  | split (c : ℕ) (hc : c < len) :
      Copied slot len [.accept slot len, .copy slot 0 c, .copy slot c len, .post slot]

/-- What a move does to the receive queue, the completed receives and the log. -/
inductive RingMove (e e' : Endpoint) : Prop
  /-- No receive is polled. -/
  | idle (ops : List RingOp) (hops : ∀ op ∈ ops, ∃ wc, op = .pollSend wc)
      (hrecvq : e'.recvq = e.recvq) (hrcq : e'.rcq = e.rcq) (hbuf : e'.rxBuf = e.rxBuf)
      (hlog : e'.hist.ops = e.hist.ops ++ ops)
      (hfailed : ∀ err, e.pc = .failed err → e'.pc = .failed err)
  /-- A receive is polled and its slot posted again. -/
  | repost (wc : Wc) (ops : List RingOp) (hrcq : e.rcq = wc :: e'.rcq)
      (hops : ops = [.post wc.wrId] ∨ ∃ len, Copied wc.wrId len ops)
      (hrecvq : e'.recvq = e.recvq ++ [wc.wrId]) (hbuf : e'.rxBuf = e.rxBuf)
      (hlog : e'.hist.ops = e.hist.ops ++ .pollRecv wc :: ops)
      (hlive : ∀ err, e.pc ≠ .failed err)
  /-- A receive is polled and the call fails. -/
  | reject (wc : Wc) (hrcq : e.rcq = wc :: e'.rcq) (hrecvq : e'.recvq = e.recvq)
      (hbuf : e'.rxBuf = e.rxBuf)
      (hlog : e'.hist.ops = e.hist.ops ++ [.pollRecv wc]) (hlive : ∀ err, e.pc ≠ .failed err)
      (hfailed : ∃ err, e'.pc = .failed err)

/-- Going back to the loop posts no receive slot. -/
@[simp] theorem resume_recvq (l : Loop) (reply : Option ℕ) :
    (e.resume cfg l reply).recvq = e.recvq := by
  cases reply <;> rfl

/-- Going back to the loop polls nothing. -/
@[simp] theorem resume_rcq (l : Loop) (reply : Option ℕ) :
    (e.resume cfg l reply).rcq = e.rcq := by
  cases reply <;> rfl

/-- Going back to the loop leaves the receive buffers alone. -/
@[simp] theorem resume_rxBuf (l : Loop) (reply : Option ℕ) :
    (e.resume cfg l reply).rxBuf = e.rxBuf := by
  cases reply <;> rfl

/-- A call that polls has not failed. -/
theorem not_failed_of_poll {l : Loop} (h : e.pc = l.poll) : ∀ err, e.pc ≠ .failed err := by
  intro err herr
  rw [h] at herr
  cases l <;> cases herr

/-- `copyOut` touches the ring and the log only as an accepted frame does. -/
theorem copyOut_ring (r : RecvCall) (slot : ℕ) (payload : List UInt8) :
    (e.copyOut r slot payload).recvq = e.recvq ++ [slot] ∧
      (e.copyOut r slot payload).rcq = e.rcq ∧ (e.copyOut r slot payload).rxBuf = e.rxBuf ∧
      ∃ ops, Copied slot payload.length ops ∧
        (e.copyOut r slot payload).hist.ops = e.hist.ops ++ ops := by
  unfold copyOut
  dsimp only
  split
  next hlt => exact ⟨rfl, rfl, rfl, _, .split _ hlt, by simp [postRx, log, acceptFrame]⟩
  next hge =>
    have hall : min payload.length r.rem = payload.length := by omega
    exact ⟨rfl, rfl, rfl, _, .whole, by simp [postRx, log, acceptFrame, hall]⟩

/-- **Every move keeps to the ring's discipline.** -/
theorem Move.ring {a : Act} (hcq : cfg.sharedCq = false) (h : Move cfg e a e') :
    RingMove e e' := by
  have hsend : ∀ {wc e₁ e'}, e.popScq cfg = some (wc, e₁) → e'.recvq = e₁.recvq →
      e'.rcq = e₁.rcq → e'.rxBuf = e₁.rxBuf → e'.hist.ops = e₁.hist.ops →
      (∀ err, e.pc ≠ .failed err) → RingMove e e' := by
    intro wc e₁ e' hpop hrecvq hrcq hbuf hlog hlive
    obtain ⟨-, rfl⟩ := popScq_of_separate hcq hpop
    exact .idle [.pollSend wc] (by simp) hrecvq hrcq hbuf hlog
      fun err herr ↦ absurd herr (hlive err)
  have hpoll : ∀ {wc e₁ e'} {ops : List RingOp} {l : Loop}, e.pc = l.poll →
      e.popRcq = some (wc, e₁) →
      ops = [.post wc.wrId] ∨ (∃ len, Copied wc.wrId len ops) →
      e'.recvq = e₁.recvq ++ [wc.wrId] → e'.rcq = e₁.rcq → e'.rxBuf = e₁.rxBuf →
      e'.hist.ops = e₁.hist.ops ++ ops → RingMove e e' := by
    intro wc e₁ e' ops l hpc hpop hops hrecvq hrcq hbuf hlog
    obtain ⟨hq, rfl⟩ := popRcq_eq_some_iff.1 hpop
    refine .repost wc ops ?_ hops hrecvq hbuf ?_ (not_failed_of_poll hpc)
    · rw [hrcq]
      exact hq
    · rw [hlog]
      simp [log]
  cases h with
  | callSend data hpc => exact .idle [] (by simp) rfl rfl rfl (by simp) (by simp [hpc])
  | callRecv size hpc => exact .idle [] (by simp) rfl rfl rfl (by simp) (by simp [hpc])
  | sendReturn hpc => exact .idle [] (by simp) rfl rfl rfl (by simp [goto]) (by simp [hpc])
  | sendData src hpc hsrc =>
    have hloop : (e.rdmaSendLoop cfg src).recvq = e.recvq ∧
        (e.rdmaSendLoop cfg src).rcq = e.rcq ∧ (e.rdmaSendLoop cfg src).rxBuf = e.rxBuf ∧
        (e.rdmaSendLoop cfg src).hist.ops = e.hist.ops := by
      rw [rdmaSendLoop_of_ne_nil cfg e hsrc]
      exact ⟨rfl, rfl, rfl, rfl⟩
    exact .idle [] (by simp) hloop.1 hloop.2.1 hloop.2.2.1 (by simp [hloop.2.2.2]) (by simp [hpc])
  | sendWait _ _ _ hpc hpop | sendNext _ _ _ hpc hpop | retransmitted _ _ _ hpc hpop
  | waitAcked _ _ _ _ hpc hpop | recvAcked _ _ _ _ hpc hpop | recvFinished _ _ _ _ hpc hpop =>
    exact hsend hpop rfl rfl rfl rfl (by simp [hpc])
  | waitExhausted w hpc hretries =>
    exact .idle [] (by simp) rfl rfl rfl (by simp [Endpoint.fail, goto]) (by simp [hpc])
  | retransmit w hpc hretries =>
    exact .idle [] (by simp) rfl rfl rfl (by simp [goto, postSend]) (by simp [hpc])
  | pollFail l wc e₁ err hpc hpop herr =>
    obtain ⟨hq, rfl⟩ := popRcq_eq_some_iff.1 hpop
    exact .reject wc hq rfl rfl rfl (not_failed_of_poll hpc) ⟨err, rfl⟩
  | pollStale _ _ _ hpc hpop | pollAck _ _ _ _ hpc hpop =>
    exact hpoll hpc hpop (Or.inl rfl) rfl rfl rfl rfl
  | pollAckDone w wc e₁ seq hpc hpop hframe hdone =>
    have hpc' : e.pc = (Loop.wait w).poll := hpc
    exact hpoll hpc' hpop (Or.inl rfl) rfl rfl rfl rfl
  | pollDuplicate l wc e₁ seq hpc hpop hframe =>
    exact hpoll hpc hpop (Or.inl rfl) (by simp [postRx, log]) (by simp [postRx, log])
      (by simp [postRx, log]) (by simp [postRx, log])
  | waitAccept w wc e₁ seq payload hpc hpop hframe hpending =>
    have hpc' : e.pc = (Loop.wait w).poll := hpc
    exact hpoll hpc' hpop (Or.inr ⟨payload.length, .whole⟩)
      (by simp [bufferPayload, postRx, log, acceptFrame])
      (by simp [bufferPayload, postRx, log, acceptFrame])
      (by simp [bufferPayload, postRx, log, acceptFrame])
      (by simp [bufferPayload, postRx, log, acceptFrame])
  | recvAccept r wc e₁ seq payload hpc hpop hframe =>
    have hpc' : e.pc = (Loop.recv r).poll := hpc
    obtain ⟨hrecvq, hrcq, hbuf, ops, hops, hlog⟩ := e₁.copyOut_ring r wc.wrId payload
    exact hpoll hpc' hpop (Or.inr ⟨payload.length, hops⟩) (by simpa using hrecvq)
      (by simpa using hrcq) (by simpa using hbuf) (by simpa using hlog)
  | recvBlock r r₁ e₁ hpc hpass hrem =>
    rw [(rdmaRecvPending_frame hpass).1]
    exact .idle [] (by simp) rfl rfl rfl (by simp [goto]) (by simp [hpc])
  | recvAckLast r r₁ e₁ hpc hpass hrem howed =>
    rw [(rdmaRecvPending_frame hpass).1]
    exact .idle [] (by simp) rfl rfl rfl (by simp [goto, rdmaSendFixedAck, postSend])
      (by simp [hpc])
  | recvReturn r r₁ e₁ hpc hpass hrem howed =>
    rw [(rdmaRecvPending_frame hpass).1]
    exact .idle [] (by simp) rfl rfl rfl (by simp [rdmaRecvReturn]) (by simp [hpc])
  | fail hidle hfailed =>
    exact .idle [] (by simp) rfl rfl rfl (by simp [Endpoint.fail, goto]) fun err herr ↦
      absurd herr (hfailed err)
  | sendDone e₁ hdone =>
    obtain ⟨wc, -, rfl⟩ := sendDone_of_separate hcq hdone
    exact .idle [] (by simp) rfl rfl rfl (by simp) fun err herr ↦ herr

/-! ### The log -/

/-- What is done with the ring, from `rdma_activate` on: every slot that is polled was posted, and
is posted again after its payload was copied, unless the call fails. -/
inductive Serviced (depth : ℕ) : List RingOp → Prop
  | activate : Serviced depth ((List.range depth).map .post)
  | pollSend {ops : List RingOp} (h : Serviced depth ops) (wc : Wc) :
      Serviced depth (ops ++ [.pollSend wc])
  | reject {ops : List RingOp} (h : Serviced depth ops) (wc : Wc) (hslot : wc.wrId < depth) :
      Serviced depth (ops ++ [.pollRecv wc])
  | discard {ops : List RingOp} (h : Serviced depth ops) (wc : Wc) (hslot : wc.wrId < depth) :
      Serviced depth (ops ++ [.pollRecv wc, .post wc.wrId])
  | accept {ops ops' : List RingOp} (h : Serviced depth ops) (wc : Wc) (hslot : wc.wrId < depth)
      (len : ℕ) (hops : Copied wc.wrId len ops') :
      Serviced depth (ops ++ .pollRecv wc :: ops')

/-- Every payload byte of an accepted frame is copied before its slot is posted again. -/
def CopiedOut (ops : List RingOp) : Prop :=
  ∀ before after slot len, ops = before ++ .accept slot len :: after →
    ∀ k < len, ∃ lo hi, .copy slot lo hi ∈ after.takeWhile (· ≠ .post slot) ∧ lo ≤ k ∧ k < hi

/-- What happens before a slot is posted happens before it in a longer log, too. -/
theorem takeWhile_mem_append {op : RingOp} {slot : ℕ} {l l' : List RingOp}
    (h : op ∈ l.takeWhile (· ≠ .post slot)) : op ∈ (l ++ l').takeWhile (· ≠ .post slot) := by
  rw [List.takeWhile_append]
  split
  · exact List.mem_append_left _ ((List.takeWhile_subset _) h)
  · exact h

/-- Logs in which every payload is copied out can be put together. -/
theorem CopiedOut.append {ops ops' : List RingOp} (h : CopiedOut ops) (h' : CopiedOut ops') :
    CopiedOut (ops ++ ops') := by
  intro before after slot len heq k hk
  rcases List.append_eq_append_iff.1 heq with ⟨mid, rfl, hops'⟩ | ⟨mid, hops, hafter⟩
  · exact h' mid after slot len hops' k hk
  · rcases mid with - | ⟨op, mid⟩
    · exact h' [] after slot len hafter.symm k hk
    · obtain ⟨rfl, rfl⟩ := List.cons.inj hafter
      obtain ⟨lo, hi, hmem, hlo, hhi⟩ := h before mid slot len hops k hk
      exact ⟨lo, hi, takeWhile_mem_append hmem, hlo, hhi⟩

/-- A log that accepts nothing has nothing to copy out. -/
theorem copiedOut_of_not_mem {ops : List RingOp} (h : ∀ slot len, .accept slot len ∉ ops) :
    CopiedOut ops := by
  rintro before after slot len rfl
  exact absurd (by simp) (h slot len)

/-- A payload that is copied in pieces is copied out. -/
theorem Copied.copiedOut {slot len : ℕ} {ops : List RingOp} (h : Copied slot len ops) :
    CopiedOut ops := by
  intro before after slot' len' heq k hk
  cases h with
  | whole =>
    rcases before with - | ⟨op, before⟩
    · simp only [List.nil_append, List.cons.injEq, RingOp.accept.injEq] at heq
      obtain ⟨⟨rfl, rfl⟩, rfl⟩ := heq
      exact ⟨0, len, by simp, Nat.zero_le k, hk⟩
    · have hmem : RingOp.accept slot' len' ∈ [.copy slot 0 len, .post slot] := by
        rw [(List.cons.inj heq).2]
        simp
      simp at hmem
  | split c hc =>
    rcases before with - | ⟨op, before⟩
    · simp only [List.nil_append, List.cons.injEq, RingOp.accept.injEq] at heq
      obtain ⟨⟨rfl, rfl⟩, rfl⟩ := heq
      -- the byte is copied out by this call or kept for the next
      rcases Nat.lt_or_ge k c with hlt | hge
      · exact ⟨0, c, by simp, Nat.zero_le k, hlt⟩
      · exact ⟨c, len, by simp, hge, hk⟩
    · have hmem : RingOp.accept slot' len' ∈
          [.copy slot 0 c, .copy slot c len, .post slot] := by
        rw [(List.cons.inj heq).2]
        simp
      simp at hmem

/-- Where every slot is serviced, every payload is copied out. -/
theorem Serviced.copiedOut {depth : ℕ} {ops : List RingOp} (h : Serviced depth ops) :
    CopiedOut ops := by
  induction h with
  | activate => exact copiedOut_of_not_mem (by simp)
  | pollSend _ wc ih => exact ih.append (copiedOut_of_not_mem (by simp))
  | reject _ wc hslot ih => exact ih.append (copiedOut_of_not_mem (by simp))
  | discard _ wc hslot ih => exact ih.append (copiedOut_of_not_mem (by simp))
  | @accept ops ops' _ wc hslot len hops ih =>
    have hpoll : CopiedOut [.pollRecv wc] := copiedOut_of_not_mem (by simp)
    exact ih.append (hpoll.append hops.copiedOut)

/-- Polls of the send queue service no slot and need none. -/
theorem Serviced.pollSends {depth : ℕ} {ops ops' : List RingOp} (h : Serviced depth ops)
    (hops' : ∀ op ∈ ops', ∃ wc, op = .pollSend wc) : Serviced depth (ops ++ ops') := by
  induction ops' generalizing ops with
  | nil => simpa using h
  | cons op ops' ih =>
    obtain ⟨wc, rfl⟩ := hops' op List.mem_cons_self
    have hrest := ih (h.pollSend wc) fun op hop ↦ hops' op (List.mem_cons_of_mem _ hop)
    simpa using hrest

/-- Only slots of the ring are polled. -/
theorem Serviced.wrId_lt {depth : ℕ} {ops : List RingOp} (h : Serviced depth ops) {wc : Wc}
    (hwc : .pollRecv wc ∈ ops) : wc.wrId < depth := by
  induction h with
  | activate => simp at hwc
  | pollSend _ wc' ih => exact ih (by simpa using hwc)
  | reject _ wc' hslot ih =>
    rcases List.mem_append.1 hwc with hwc | hwc
    · exact ih hwc
    · obtain rfl : wc = wc' := by simpa using hwc
      exact hslot
  | discard _ wc' hslot ih =>
    rcases List.mem_append.1 hwc with hwc | hwc
    · exact ih hwc
    · obtain rfl : wc = wc' := by simpa using hwc
      exact hslot
  | accept _ wc' hslot len hops ih =>
    rcases List.mem_append.1 hwc with hwc | hwc
    · exact ih hwc
    · obtain rfl : wc = wc' := by cases hops <;> simpa using hwc
      exact hslot

/-! ### Conservation -/

/-- The invariant of the receive ring. A slot is `lost` only by the poll of a call that failed. -/
structure RingInv (depth : ℕ) (e : Endpoint) : Prop where
  slots : ∃ lost, (e.recvq ++ e.rcq.map Wc.wrId ++ lost).Perm (List.range depth) ∧
    ((∀ err, e.pc ≠ .failed err) → lost = [])
  recvs : ∀ wc ∈ e.rcq, wc.opcode = .recv ∧ wc.byteLen = (e.rxBuf wc.wrId).bytes.length
  serviced : Serviced depth e.hist.ops

namespace RingInv

variable {depth : ℕ}

/-- Completions name slots of the ring. -/
theorem wrId_lt (h : RingInv depth e) {wc : Wc} (hwc : wc ∈ e.rcq) : wc.wrId < depth := by
  obtain ⟨lost, hperm, -⟩ := h.slots
  refine List.mem_range.1 (hperm.subset ?_)
  simp only [List.mem_append, List.mem_map]
  exact Or.inl (Or.inr ⟨wc, hwc, rfl⟩)

/-- No slot is posted and completed at the same time. -/
theorem nodup (h : RingInv depth e) : (e.recvq ++ e.rcq.map Wc.wrId).Nodup := by
  obtain ⟨lost, hperm, -⟩ := h.slots
  exact (List.nodup_append.1 (hperm.nodup_iff.2 List.nodup_range)).1

/-- **A move keeps the ring**: no slot is lost and none is posted twice. -/
theorem move (h : RingInv depth e) (hmove : RingMove e e') : RingInv depth e' := by
  obtain ⟨lost, hperm, hlost⟩ := h.slots
  cases hmove with
  | idle ops hops hrecvq hrcq hbuf hlog hfailed =>
    refine ⟨⟨lost, by rwa [hrecvq, hrcq], fun hlive ↦ hlost fun err herr ↦
      hlive err (hfailed err herr)⟩, by rw [hrcq, hbuf]; exact h.recvs, ?_⟩
    rw [hlog]
    exact h.serviced.pollSends hops
  | repost wc ops hrcq hops hrecvq hbuf hlog hlive =>
    obtain rfl := hlost hlive
    have hslot := h.wrId_lt (hrcq ▸ List.mem_cons_self)
    refine ⟨⟨[], ?_, fun _ ↦ rfl⟩, fun wc' hwc' ↦ ?_, ?_⟩
    · -- the slot moves from the completed ones to the end of the posted ones
      rw [hrecvq]
      rw [hrcq] at hperm
      refine List.Perm.trans ?_ hperm
      simp only [List.map_cons, List.append_nil, List.append_assoc, List.singleton_append]
      exact List.Perm.refl _
    · rw [hbuf]
      exact h.recvs wc' (hrcq ▸ List.mem_cons_of_mem wc hwc')
    · rw [hlog]
      rcases hops with rfl | ⟨len, hcopied⟩
      · exact h.serviced.discard wc hslot
      · exact h.serviced.accept wc hslot len hcopied
  | reject wc hrcq hrecvq hbuf hlog hlive hfailed =>
    obtain rfl := hlost hlive
    have hslot := h.wrId_lt (hrcq ▸ List.mem_cons_self)
    refine ⟨⟨[wc.wrId], ?_, fun hlive' ↦ ?_⟩, fun wc' hwc' ↦ ?_, ?_⟩
    · rw [hrecvq]
      rw [hrcq] at hperm
      refine List.Perm.trans ?_ hperm
      simp only [List.map_cons, List.append_nil, List.append_assoc]
      exact List.Perm.append_left _ (List.perm_append_singleton _ _)
    · obtain ⟨err, herr⟩ := hfailed
      exact absurd herr (hlive' err)
    · rw [hbuf]
      exact h.recvs wc' (hrcq ▸ List.mem_cons_of_mem wc hwc')
    · rw [hlog]
      exact h.serviced.reject wc hslot

/-- An arriving frame moves a slot from posted to completed, or is dropped. -/
theorem arrive (h : RingInv depth e) (p : Packet) : RingInv depth (e.arrive p) := by
  have hnodup := h.nodup
  obtain ⟨⟨lost, hperm, hlost⟩, hrecvs, hserviced⟩ := h
  unfold Endpoint.arrive
  split
  next => exact ⟨⟨lost, hperm, hlost⟩, hrecvs, hserviced⟩
  next slot q hrecvq =>
    rw [hrecvq] at hnodup hperm
    have hfresh : slot ∉ e.rcq.map Wc.wrId := by
      have hnot := (List.nodup_cons.1 hnodup).1
      exact fun hmem ↦ hnot (List.mem_append_right _ hmem)
    refine ⟨⟨lost, List.Perm.trans ?_ hperm, hlost⟩, fun wc hwc ↦ ?_, hserviced⟩
    · simp only [List.map_append, List.map_cons, List.map_nil, ← List.append_assoc,
        List.cons_append]
      exact (List.perm_append_singleton _ _).append_right lost
    · rcases List.mem_append.1 hwc with hwc | hwc
      · -- the slots of older completions are left alone
        have hne : wc.wrId ≠ slot := fun heq ↦ hfresh (List.mem_map.2 ⟨wc, hwc, heq⟩)
        show wc.opcode = .recv ∧ wc.byteLen = (Function.update e.rxBuf slot p wc.wrId).bytes.length
        rw [Function.update_of_ne hne]
        exact hrecvs wc hwc
      · obtain rfl := List.mem_singleton.1 hwc
        show _ ∧ _ = (Function.update e.rxBuf slot p slot).bytes.length
        rw [Function.update_self]
        exact ⟨rfl, rfl⟩

/-- At the start, all the slots are posted. -/
theorem activate (cfg : RdmaConfig) (txMem : ℕ → List UInt8) (rxMem : ℕ → Packet) :
    RingInv cfg.rxDepth (rdmaActivate cfg txMem rxMem) where
  slots := ⟨[], by simp [rdmaActivate], fun _ ↦ rfl⟩
  recvs := by simp [rdmaActivate]
  serviced := .activate

end RingInv

/-! ### An endpoint against any network -/

/-- A step of an endpoint, or the arrival of any frame. -/
inductive RingAct
  | act (a : Act)
  | arrive (w : Packet)
  deriving DecidableEq

/-- One endpoint on a network that may deliver anything at any time. -/
def ringStep (cfg : RdmaConfig) (e : Endpoint) : RingAct → Option Endpoint
  | .act a => e.step cfg a
  | .arrive w => some (e.arrive w)

/-- **Receive-ring conservation.** Until a call fails, every slot is posted or completed and not yet
polled, once; every slot the code reads is a slot of the ring; and a payload is copied out whole
before its slot is posted again. -/
theorem ring_conserved {cfg : RdmaConfig} (hcq : cfg.sharedCq = false)
    {txMem : ℕ → List UInt8} {rxMem : ℕ → Packet} {e : Endpoint}
    (h : Transition.Reach (ringStep cfg) (fun _ _ ↦ True) (rdmaActivate cfg txMem rxMem) e) :
    ((∀ err, e.pc ≠ .failed err) →
        (e.recvq ++ e.rcq.map Wc.wrId).Perm (List.range cfg.rxDepth)) ∧
      (∀ wc, .pollRecv wc ∈ e.hist.ops → wc.wrId < cfg.rxDepth) ∧ CopiedOut e.hist.ops := by
  have hinv : RingInv cfg.rxDepth e := by
    refine h.invariant (RingInv.activate cfg txMem rxMem) ?_
    intro e a e' _ he _ hstep
    cases a with
    | act a => exact he.move ((move_of_step hstep).ring hcq)
    | arrive w =>
      obtain rfl := Option.some.inj hstep
      exact he.arrive w
  refine ⟨fun hlive ↦ ?_, fun wc hwc ↦ hinv.serviced.wrId_lt hwc, hinv.serviced.copiedOut⟩
  obtain ⟨lost, hperm, hlost⟩ := hinv.slots
  rwa [hlost hlive, List.append_nil] at hperm

/-- A ring of four slots. -/
theorem ring_conserved_small : ∃ e : Endpoint, e.pc = .idle ∧
    (e.recvq ++ e.rcq.map Wc.wrId).Perm (List.range 4) ∧
      (∀ wc, .pollRecv wc ∈ e.hist.ops → wc.wrId < 4) ∧ CopiedOut e.hist.ops := by
  -- a frame of an earlier connection and then a data frame, read by one `rdma_recv`
  obtain ⟨e, hrun, hpc⟩ := Transition.exists_reach_of_guardedRun (f := Endpoint.pc)
    (show (Transition.guardedRun (ringStep smallConfig) (fun _ _ ↦ True)
      (rdmaActivate smallConfig (fun _ ↦ []) fun _ ↦ ⟨[], .stale⟩)
      [.arrive
          ⟨dataFrame { smallConfig with txCookie := 8, txCookie_lt := by decide } 1 [9], .stale⟩,
        .arrive ⟨dataFrame smallConfig 1 [9], .data 1⟩, .act (.callRecv 1), .act .run,
        .act .pollRecv, .act .run, .act .pollRecv, .act .sendDone, .act .pollSend,
        .act .run]).map _ = some .idle from rfl)
  obtain ⟨hslots, hread, hcopied⟩ :=
    ring_conserved (show smallConfig.sharedCq = false from rfl) hrun
  exact ⟨e, hpc, hslots (by simp [hpc]), hread, hcopied⟩

end Endpoint

end LlamaRdma
