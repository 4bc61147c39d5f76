import NixStrixHalo.LlamaRdma.Link
import NixStrixHalo.LlamaRdma.Party

/-!
# The system refines the acknowledgement protocol

`Peering.abs` reads a state of the two endpoints as a state of the abstract protocol of `Arq`, with
the frames that have arrived and are not polled still on their way. Every step of the system is a
step of the protocol or escapes it (`Peering.abs_step`), so every run of the system is a run of the
protocol over the link that the guard describes (`Peering.Runs.abs`), and what the protocol keeps,
the endpoints keep.

## Arrival and polling

A frame that arrives takes the oldest posted receive, and without one it is dropped. So an arrival
is nothing to the protocol, or it is a loss: what the link does to the frames on their way is the
same in both readings, up to those that have arrived and stay in front (`Drops.split`).

## The link of a guard

`absLink` is the abstract link that a guard of the system describes: whatever a step of the link
under this guard does to the frames on their way. A module that has its own guard shows which link
of `Arq` this is, and has the invariants of that link from then on. Frames of an earlier connection
are unreadable to the receiver (`readFrame_stale`), so the chaotic link forges nothing.
-/

namespace LlamaRdma

open Arq (Side)

namespace Peering

variable (p : Peering)

/-- The frames on their way from an endpoint: arrived and not polled, and then those on the link. -/
def transit (s : System) (x : Side) : List Packet := (s x.other).arrived ++ (s x).wire

/-- The two endpoints as two parties. -/
def abs (s : System) : Side → Arq.Party (List UInt8) := fun x ↦
  (s x).party (p.cfg x) (p.cfg x.other) ((transit s x).map (Packet.view (p.cfg x.other)))

/-- The limits of the two parties. -/
def limits : Side → Arq.Params := fun x ↦ Endpoint.limits (p.cfg x)

/-- The step takes frames of `x` off the link, or puts some on it, and leaves `ws`: a frame arrives
where no receive is posted, one is lost, or the link did what it likes. -/
inductive Drops (s : System) (x : Side) (ws : List Packet) : NetAct → Prop
  | deliver (w : Packet) (hwire : (s x).wire = w :: ws) (hfull : (s x.other).recvq = []) :
      Drops s x ws (.deliver x)
  | lose (i : ℕ) (hi : i < (s x).wire.length) (hws : ws = (s x).wire.eraseIdx i) :
      Drops s x ws (.lose x i)
  | relay : Drops s x ws (.relay x ws)

/-- The frames on their way from `x` when `ws` are left on the link, as the other side sees them. -/
def relayedOut (s : System) (x : Side) (ws : List Packet) : List (Arq.Packet (List UInt8)) :=
  ((s x.other).arrived ++ ws).map (Packet.view (p.cfg x.other))

variable {p} {s s' : System}

theorem abs_apply (x : Side) : p.abs s x = (s x).party (p.cfg x) (p.cfg x.other)
    ((transit s x).map (Packet.view (p.cfg x.other))) := rfl

/-- The abstract party of the other side. -/
theorem abs_other (x : Side) : p.abs s x.other =
    (s x.other).party (p.cfg x.other) (p.cfg x)
      (((s x).arrived ++ (s x.other).wire).map (Packet.view (p.cfg x))) := by
  rw [abs_apply, transit, Side.other_other]

/-- The frames on their way, cut at one that is on the link. -/
theorem out_split {x : Side} {ahead behind : List Packet} {w : Packet}
    (hwire : (s x).wire = ahead ++ w :: behind) :
    (p.abs s x).out = ((s x.other).arrived ++ ahead).map (Packet.view (p.cfg x.other)) ++
        w.view (p.cfg x.other) :: behind.map (Packet.view (p.cfg x.other)) ∧
      p.relayedOut s x (ahead ++ behind) =
        ((s x.other).arrived ++ ahead).map (Packet.view (p.cfg x.other)) ++
          behind.map (Packet.view (p.cfg x.other)) := by
  refine ⟨?_, by simp [relayedOut]⟩
  show ((s x.other).arrived ++ (s x).wire).map _ = _
  rw [hwire]
  simp

/-- A frame on the link, what is ahead of it and what is behind. -/
theorem wire_split {ws : List Packet} {i : ℕ} (hi : i < ws.length) :
    ws = ws.take i ++ ws[i] :: ws.drop (i + 1) ∧
      ws.eraseIdx i = ws.take i ++ ws.drop (i + 1) := by
  rw [List.getElem_cons_drop, List.take_append_drop]
  exact ⟨rfl, List.eraseIdx_eq_take_drop_succ ..⟩

/-- On a first-in first-out link a frame that is dropped is missing, and no other. -/
theorem Drops.split {x : Side} {ws : List Packet} {a : NetAct} (h : Drops s x ws a)
    (hlossy : lossy s a) : ∃ ahead w behind, (s x).wire = ahead ++ w :: behind ∧
      ws = ahead ++ behind := by
  cases h with
  | deliver w hwire hfull => exact ⟨[], w, ws, hwire, rfl⟩
  | lose i hi hws =>
    obtain ⟨hwire, herase⟩ := wire_split hi
    exact ⟨_, _, _, hwire, hws.trans herase⟩
  | relay => exact hlossy.elim

/-- An arriving frame is no news to the party. -/
theorem party_arrive {cfg peer : RdmaConfig} (e : Endpoint) (w : Packet)
    (out : List (Arq.Packet (List UInt8))) :
    (e.arrive w).party cfg peer out = e.party cfg peer out := by
  unfold Endpoint.arrive
  split <;> rfl

/-- A frame that arrives is the last one to be polled. -/
theorem arrived_arrive {depth : ℕ} {e : Endpoint} (h : Endpoint.RingInv depth e) {slot : ℕ}
    {q : List ℕ} (hrecvq : e.recvq = slot :: q) (w : Packet) :
    (e.arrive w).arrived = e.arrived ++ [w] := by
  have hfresh : slot ∉ e.rcq.map Wc.wrId := by
    have hnodup := h.nodup
    rw [hrecvq] at hnodup
    exact fun hmem ↦ (List.nodup_cons.1 hnodup).1 (List.mem_append_right _ hmem)
  have hold : e.rcq.map (fun wc ↦ Function.update e.rxBuf slot w wc.wrId) =
      e.rcq.map fun wc ↦ e.rxBuf wc.wrId := by
    refine List.map_congr_left fun wc hwc ↦ Function.update_of_ne ?_ _ _
    rintro rfl
    exact hfresh (List.mem_map_of_mem hwc)
  simp only [Endpoint.arrive, hrecvq, Endpoint.arrived, List.map_append, hold, List.map_cons,
    List.map_nil, Function.update_self]

/-- What the simulation needs holds of both endpoints when the protocol's state is sound. -/
theorem ready_of_sound (hcq : p.SeparateCqs)
    (hbooked : ∀ x, Endpoint.Booked (p.cfg x) (s x))
    (hring : ∀ x, Endpoint.RingInv (p.cfg x).rxDepth (s x)) (hsound : Arq.Sound (p.abs s))
    (hseq : SeqBelow s) (x : Side) : Endpoint.Ready (p.cfg x) (p.cfg x.other) (s x) where
  separate := hcq x
  size := p.chunkSize_eq x
  cookie := by rw [p.cookie_eq, Side.other_other]
  ring := hring x
  booked := hbooked x
  sentBelow := hseq x
  acceptedBelow := by
    have hle := (hsound.accepted x.other).length_le
    rw [Side.other_other] at hle
    exact Nat.lt_of_le_of_lt (Nat.succ_le_succ hle) (hseq x.other)
  blocked w hw := by
    have hheld : (p.abs s x).held = some ⟨readFrame (p.cfg x.other) ((s x).txBuf w.slot),
        w.retries⟩ := by
      simp only [abs_apply, Endpoint.party, hw, Option.map_some]
    exact hsound.held x _ hheld
  due seq hdue := (hsound.ok x).owed seq hdue

/-- Frames that leave the link, or come onto it, change what is on its way. -/
theorem abs_setWire (p : Peering) (s : System) (x : Side) (ws : List Packet) :
    p.abs (Function.update s x { s x with wire := ws }) =
      Arq.relayed (p.abs s) x (p.relayedOut s x ws) := by
  funext z
  obtain rfl | rfl := Side.eq_or_eq_other x z
  · rw [Arq.relayed_self, abs_apply, transit, Function.update_self,
      Function.update_of_ne (Side.other_ne z)]
    rfl
  · rw [Arq.relayed_other, abs_other, abs_other, Function.update_self,
      Function.update_of_ne (Side.other_ne x)]
    rfl

/-- A frame that arrives at a posted receive is still on its way, as it is not polled. -/
theorem abs_deliver {depth : ℕ} {x : Side} {w : Packet} {ws : List Packet} {slot : ℕ} {q : List ℕ}
    (hring : Endpoint.RingInv depth (s x.other)) (hws : (s x).wire = w :: ws)
    (hrecvq : (s x.other).recvq = slot :: q) :
    p.abs (Function.update (Function.update s x { s x with wire := ws }) x.other
      ((s x.other).arrive w)) = p.abs s := by
  have harrived := arrived_arrive hring hrecvq w
  funext z
  obtain rfl | rfl := Side.eq_or_eq_other x z
  · rw [abs_apply, abs_apply, transit, transit, Function.update_self,
      Function.update_of_ne (Side.ne_other z), Function.update_self, harrived, hws,
      List.append_assoc, List.singleton_append]
    rfl
  · have hsame : ((s x.other).arrive w).wire = (s x.other).wire := by
      simp only [Endpoint.arrive, hrecvq]
    rw [abs_other, abs_other, Function.update_self, Function.update_of_ne (Side.ne_other x),
      Function.update_self, party_arrive, hsame]
    rfl

/-- A frame that arrives where no receive is posted is off the link. -/
theorem arrive_eq_self {e : Endpoint} (hrecvq : e.recvq = []) (w : Packet) : e.arrive w = e := by
  simp only [Endpoint.arrive, hrecvq]

/-- A step of an endpoint that its party makes, or does not see, the two parties make or do not
see. -/
theorem abs_ep {x : Side} {e' : Endpoint} {posted : List Packet}
    (hposted : e'.wire = (s x).wire ++ posted) :
    (Arq.Move (p.limits x) (p.abs s x)
        ((s x).arrived.map (Packet.view (p.cfg x)) ++
          (s x.other).wire.map (Packet.view (p.cfg x)))
        (e'.party (p.cfg x) (p.cfg x.other)
          ((transit s x).map (Packet.view (p.cfg x.other)) ++
            posted.map (Packet.view (p.cfg x.other))))
        (e'.arrived.map (Packet.view (p.cfg x)) ++
          (s x.other).wire.map (Packet.view (p.cfg x))) →
      ∃ q i, Arq.Move (p.limits x) (p.abs s x) (p.abs s x.other).out q i ∧
        p.abs (Function.update s x e') = Arq.moved (p.abs s) x q i) ∧
    (posted = [] → e'.arrived = (s x).arrived →
      e'.party (p.cfg x) (p.cfg x.other)
          ((transit s x).map (Packet.view (p.cfg x.other))) = p.abs s x →
      p.abs (Function.update s x e') = p.abs s) := by
  -- the frames it posts are behind its own, the ones it polls are taken from the other side
  have hself : p.abs (Function.update s x e') x = e'.party (p.cfg x) (p.cfg x.other)
      ((transit s x).map (Packet.view (p.cfg x.other)) ++
        posted.map (Packet.view (p.cfg x.other))) := by
    rw [abs_apply, transit, Function.update_self, Function.update_of_ne (Side.other_ne x),
      hposted, transit]
    simp only [List.map_append, List.append_assoc]
  have hother : p.abs (Function.update s x e') x.other = { p.abs s x.other with
      out := (e'.arrived ++ (s x.other).wire).map (Packet.view (p.cfg x)) } := by
    rw [abs_other, abs_other, Function.update_self, Function.update_of_ne (Side.other_ne x)]
    rfl
  have hin : (p.abs s x.other).out =
      ((s x).arrived ++ (s x.other).wire).map (Packet.view (p.cfg x)) := by
    rw [abs_other]
    rfl
  constructor
  · intro hmove
    refine ⟨p.abs (Function.update s x e') x,
      (e'.arrived ++ (s x.other).wire).map (Packet.view (p.cfg x)), ?_, ?_⟩
    · rw [hself, hin, List.map_append, List.map_append]
      exact hmove
    · funext z
      obtain rfl | rfl := Side.eq_or_eq_other x z
      · rw [Arq.moved_self]
      · rw [Arq.moved_other, hother]
  · rintro rfl harrived hparty
    funext z
    obtain rfl | rfl := Side.eq_or_eq_other x z
    · rw [hself, List.map_nil, List.append_nil, hparty]
    · rw [hother, harrived, ← hin]

/-- **Every step of the system is a step of the protocol, or the protocol does not see it.** -/
theorem abs_step {a : NetAct} (hcq : p.SeparateCqs)
    (hbooked : ∀ x, Endpoint.Booked (p.cfg x) (s x))
    (hring : ∀ x, Endpoint.RingInv (p.cfg x).rxDepth (s x)) (hsound : Arq.Sound (p.abs s))
    (hseq : SeqBelow s) (h : p.step s a = some s') :
    p.abs s' = p.abs s ∨
      (∃ x q i, (p.abs s x).live = true ∧
        Arq.Move (p.limits x) (p.abs s x) (p.abs s x.other).out q i ∧
        p.abs s' = Arq.moved (p.abs s) x q i) ∨
      ∃ x ws, Drops s x ws a ∧ p.abs s' = Arq.relayed (p.abs s) x (p.relayedOut s x ws) := by
  cases p.netMove_of_step h with
  | ep x b e' hstep =>
    have hmove := Endpoint.move_of_step hstep
    obtain ⟨posted, hposted, hsim⟩ := (ready_of_sound hcq hbooked hring hsound hseq x).simulates
      hmove
    obtain ⟨hmoved, hsame⟩ := abs_ep (p := p) hposted
    rcases hmove.live_or_sendDone with hlive | rfl
    · rcases hsim ((transit s x).map (Packet.view (p.cfg x.other)))
        ((s x.other).wire.map (Packet.view (p.cfg x))) with hmove | ⟨hnone, harrived, hparty⟩
      · obtain ⟨q, i, hparties, hafter⟩ := hmoved hmove
        exact Or.inr (Or.inl ⟨x, q, i, hlive, hparties, hafter⟩)
      · exact Or.inl (hsame hnone harrived hparty)
    · -- the completion of a send concerns nobody but the endpoint
      have hdone : (s x).sendDone (p.cfg x) = some e' := hstep
      obtain ⟨wc, -, rfl⟩ := Endpoint.sendDone_of_separate (hcq x) hdone
      have hnone : posted = [] := by simpa using hposted
      exact Or.inl (hsame hnone rfl rfl)
  | deliver x w ws hws =>
    rcases hrecvq : (s x.other).recvq with - | ⟨slot, q⟩
    · -- no receive is posted, and the frame is lost
      refine Or.inr (Or.inr ⟨x, ws, .deliver w hws hrecvq, ?_⟩)
      rw [← abs_setWire, arrive_eq_self hrecvq]
      congr 1
      exact Function.update_eq_self_iff.2 (Function.update_of_ne (Side.other_ne x) _ _).symm
    · exact Or.inl (abs_deliver (hring x.other) hws hrecvq)
  | lose x i hi => exact Or.inr (Or.inr ⟨x, _, .lose i hi rfl, abs_setWire p s x _⟩)
  | relay x ws => exact Or.inr (Or.inr ⟨x, ws, .relay, abs_setWire p s x ws⟩)

/-- What a link does to the frames on their way under a guard, as the protocol sees it. -/
def absLink (p : Peering) (guard : System → NetAct → Prop) : Arq.Link (List UInt8) :=
  fun t x l ↦ ∃ s a ws, p.abs s = t ∧ p.Runs guard s ∧ SeqBelow s ∧ guard s a ∧
    Drops s x ws a ∧ l = p.relayedOut s x ws

/-- Sequence numbers only grow, so that they were below the bound before. -/
theorem seqBelow_of_step {a : NetAct} (h : p.step s a = some s') (hs' : SeqBelow s') :
    SeqBelow s := by
  intro x
  refine Nat.lt_of_le_of_lt (Nat.succ_le_succ ?_) (hs' x)
  have hmove := p.sideMove_of_step h x
  generalize s x = e, s' x = e' at hmove
  cases hmove with
  | act b e' hmove => exact hmove.sent_prefix.length_le
  | wire ws => exact Nat.le_refl _
  | arrive w =>
    unfold Endpoint.arrive
    split <;> exact Nat.le_refl _

/-- At the start, the abstract parties have sent nothing. -/
theorem abs_activate (p : Peering) : p.abs p.activate = fun _ ↦ Arq.Party.init := by
  funext x
  exact Arq.Party.ext rfl rfl rfl rfl rfl rfl rfl

/-- A frame of an earlier connection is noise. -/
theorem readFrame_stale {x : Side} {w : Packet} (h : p.Stale x w) :
    readFrame (p.cfg x.other) w.bytes = .noise := by
  unfold readFrame
  split
  · rfl
  split
  next => rfl
  next hd hread =>
    split
    · rfl
    · rw [if_pos (h.2 hd hread)]

/-- A guarded link is a link for the abstract parties. -/
theorem absLink_chaotic {guard : System → NetAct → Prop} (hguard : ∀ s a, guard s a → p.chaotic s a)
    (t : Side → Arq.Party (List UInt8)) (x : Side) (l : List (Arq.Packet (List UInt8)))
    (h : p.absLink guard t x l) : Arq.chaotic t x l := by
  obtain ⟨s, a, ws, rfl, -, -, hg, hdrops, rfl⟩ := h
  have hws : ∀ w ∈ ws, w ∈ (s x).wire ∨ p.Stale x w := by
    cases hdrops with
    | deliver w hwire hfull => exact fun w' hw' ↦ Or.inl (hwire ▸ List.mem_cons_of_mem w hw')
    | lose i hi hws =>
      rw [hws]
      exact fun w' hw' ↦ Or.inl ((List.eraseIdx_sublist _ _).subset hw')
    | relay => exact hguard s _ hg
  intro pk hpk
  obtain ⟨w, hw, rfl⟩ := List.mem_map.1 hpk
  have hold : w ∈ transit s x → w.view (p.cfg x.other) ∈ (p.abs s x).out :=
    fun hmem ↦ List.mem_map_of_mem hmem
  rcases List.mem_append.1 hw with hw | hw
  · exact Or.inl (hold (List.mem_append_left _ hw))
  · rcases hws w hw with hwire | hstale
    · exact Or.inl (hold (List.mem_append_right _ hwire))
    · exact Or.inr (readFrame_stale hstale)

/-- **Every run of the system is a run of the protocol.** -/
theorem Runs.abs {guard : System → NetAct → Prop} (hcq : p.SeparateCqs)
    (hguard : ∀ s a, guard s a → p.chaotic s a) (h : p.Runs guard s) (hseq : SeqBelow s) :
    Arq.Run p.limits (p.absLink guard) (p.abs s) := by
  refine Transition.Reach.invariant_of_bound
    (I := fun s ↦ Arq.Run p.limits (p.absLink guard) (p.abs s)) h ?_
    (fun s a s' hstep ↦ seqBelow_of_step hstep) ?_ hseq
  · show Arq.Run _ _ (p.abs p.activate)
    rw [abs_activate]
  · intro s a s' hr hrun hg hstep hs'
    have hs := seqBelow_of_step hstep hs'
    have hsound := Arq.Sound.of_run (absLink_chaotic hguard) hrun
    rcases abs_step hcq (Runs.booked p hr) (Runs.ring p hcq hr) hsound hs hstep with
      heq | ⟨x, q, i, hlive, hmove, heq⟩ | ⟨x, ws, hdrops, heq⟩
    · rwa [heq]
    · rw [heq]
      exact hrun.tail (.act x q i hlive hmove)
    · rw [heq]
      exact hrun.tail (.link x _ ⟨s, a, ws, rfl, hr, hs, hg, hdrops, rfl⟩)

/-- The protocol's state is sound in every run. -/
theorem Runs.sound {guard : System → NetAct → Prop} (hcq : p.SeparateCqs)
    (hguard : ∀ s a, guard s a → p.chaotic s a) (h : p.Runs guard s) (hseq : SeqBelow s) :
    Arq.Sound (p.abs s) :=
  Arq.Sound.of_run (absLink_chaotic hguard) (Runs.abs hcq hguard h hseq)

/-- What the simulation needs holds of both endpoints in every run. -/
theorem Runs.ready {guard : System → NetAct → Prop} (hcq : p.SeparateCqs)
    (hguard : ∀ s a, guard s a → p.chaotic s a) (h : p.Runs guard s) (hseq : SeqBelow s)
    (x : Side) : Endpoint.Ready (p.cfg x) (p.cfg x.other) (s x) :=
  ready_of_sound hcq (Runs.booked p h) (Runs.ring p hcq h) (Runs.sound hcq hguard h hseq) hseq x

/-- As `Runs.side_invariant`, for a property that what the simulation needs helps to keep. -/
theorem Runs.side_invariant_of_ready {guard : System → NetAct → Prop}
    {I : Side → Endpoint → Prop} (hcq : p.SeparateCqs) (hguard : ∀ s a, guard s a → p.chaotic s a)
    (h : p.Runs guard s) (hseq : SeqBelow s) (h₀ : ∀ x, I x (p.activate x))
    (hmove : ∀ x e e', Endpoint.Ready (p.cfg x) (p.cfg x.other) e → I x e →
      SideMove (p.cfg x) e e' → I x e') : ∀ x, I x (s x) := by
  refine Transition.Reach.invariant_of_bound (I := fun s ↦ ∀ x, I x (s x)) h h₀
    (fun s a s' hstep ↦ seqBelow_of_step hstep) ?_ hseq
  intro s a s' hr hs hg hstep hs' x
  have hready := Runs.ready hcq hguard hr (seqBelow_of_step hstep hs') x
  exact hmove x _ _ hready (hs x) (p.sideMove_of_step hstep x)

end Peering

end LlamaRdma
