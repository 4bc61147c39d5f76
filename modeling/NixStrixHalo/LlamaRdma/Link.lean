import NixStrixHalo.Library.Arq
import NixStrixHalo.LlamaRdma.Calls
import NixStrixHalo.LlamaRdma.Ring

/-!
# Two endpoints and the link between them

The system every property of the protocol is about: two activated endpoints whose steps interleave
in any order with those of the link. A `Peering` is what the handshake fixes: the settings of both
sides, with one chunk size, and the cookies that they exchanged.

## What the link may do

This is a guard on its steps, and the guards form a chain, each of them one kind of link:

* `chaotic` may lose, repeat, delay and reorder frames and deliver frames of earlier connections;
* `lossy` keeps the order and may lose any frame;
* `unreliable` keeps the order and loses a frame only where no receive is posted, as an unreliable
  connection does;
* `lossless` delivers in order and never to an endpoint without a posted receive.

No link corrupts a frame. A frame of an earlier connection has another cookie (`Stale`).

## Runs

A run starts when both endpoints are activated, and its steps meet the guard. Whatever is an
invariant of one endpoint under its own steps and under arrivals is an invariant of both in every
run (`Runs.side_invariant`); so the bookkeeping and the ring hold over any link (`Runs.booked`,
`Runs.ring`).
-/

namespace LlamaRdma

open Arq (Side)
open Transition

/-- Two endpoints that completed the handshake: the same chunk size, and each with the other's
cookie. The buffers hold anything. -/
structure Peering where
  cfg : Side → RdmaConfig
  txMem : Side → ℕ → List UInt8
  rxMem : Side → ℕ → Packet
  chunkSize_eq (x : Side) : (cfg x.other).chunkSize = (cfg x).chunkSize
  cookie_eq (x : Side) : (cfg x).rxCookie = (cfg x.other).txCookie

/-- Two endpoints with the same settings and one cookie, over empty buffers. -/
def Peering.twin (cfg : RdmaConfig) (hcookie : cfg.rxCookie = cfg.txCookie) : Peering where
  cfg _ := cfg
  txMem _ _ := []
  rxMem _ _ := ⟨[], .stale⟩
  chunkSize_eq _ := rfl
  cookie_eq _ := hcookie

/-- Both endpoints; the frames on their way to one are in the `wire` of the other. -/
abbrev System := Side → Endpoint

/-- A step of the system. -/
inductive NetAct
  /-- An endpoint takes a step. -/
  | ep (x : Side) (a : Endpoint.Act)
  /-- The oldest frame of `x` arrives. -/
  | deliver (x : Side)
  /-- A frame of `x` is lost. -/
  | lose (x : Side) (i : ℕ)
  /-- The link turns the frames of `x` into `ws`. -/
  | relay (x : Side) (ws : List Packet)
  deriving DecidableEq

namespace Peering

variable (p : Peering)

/-- A step of the system; the guards say which the link may take. -/
def step (s : System) : NetAct → Option System
  | .ep x a => ((s x).step (p.cfg x) a).map (Function.update s x)
  | .deliver x =>
    match (s x).wire with
    | [] => none
    | w :: ws => some (Function.update (Function.update s x { s x with wire := ws }) x.other
        ((s x.other).arrive w))
  | .lose x i =>
    if i < (s x).wire.length then
      some (Function.update s x { s x with wire := (s x).wire.eraseIdx i })
    else none
  | .relay x ws => some (Function.update s x { s x with wire := ws })

/-- Both endpoints after `rdma_activate`. -/
def activate : System := fun x ↦ Endpoint.rdmaActivate (p.cfg x) (p.txMem x) (p.rxMem x)

/-- The default mode of the completion queues. -/
def SeparateCqs : Prop := ∀ x, (p.cfg x).sharedCq = false

/-! ### Links -/

/-- A frame of an earlier connection on its way from `x`: its cookie, if it has one, is not the one
the receiver expects. -/
def Stale (x : Side) (w : Packet) : Prop :=
  w.kind = .stale ∧ ∀ h ∈ rdmaReadFrameHeader w.bytes, h.cookie ≠ (p.cfg x.other).rxCookie

/-- A link that may lose, repeat, delay and reorder frames and deliver frames of earlier
connections, but corrupts nothing. -/
def chaotic (s : System) : NetAct → Prop
  | .relay x ws => ∀ w ∈ ws, w ∈ (s x).wire ∨ p.Stale x w
  | _ => True

/-- A first-in first-out link that may lose any frame. -/
def lossy (_ : System) : NetAct → Prop
  | .relay _ _ => False
  | _ => True

/-- A first-in first-out link that loses a frame only when no receive is posted where it arrives, as
an unreliable connection does. -/
def unreliable (_ : System) : NetAct → Prop
  | .ep _ _ | .deliver _ => True
  | _ => False

/-- A first-in first-out link that loses nothing. -/
def lossless (s : System) : NetAct → Prop
  | .ep _ _ => True
  | .deliver x => (s x.other).recvq ≠ []
  | _ => False

instance (s : System) (a : NetAct) : Decidable (lossy s a) := by
  cases a <;> unfold lossy <;> infer_instance

instance (s : System) (a : NetAct) : Decidable (unreliable s a) := by
  cases a <;> unfold unreliable <;> infer_instance

instance (s : System) (a : NetAct) : Decidable (lossless s a) := by
  cases a <;> unfold lossless <;> infer_instance

/-- A lossy link is a link. -/
theorem chaotic_of_lossy {s : System} {a : NetAct} (h : lossy s a) : p.chaotic s a := by
  cases a with
  | relay x ws => exact h.elim
  | _ => trivial

/-- A link that only loses frames is a lossy one. -/
theorem lossy_of_unreliable {s : System} {a : NetAct} (h : unreliable s a) : lossy s a := by
  cases a with
  | relay x ws => exact h
  | _ => trivial

/-- A link that loses nothing is an unreliable one, too. -/
theorem unreliable_of_lossless {s : System} {a : NetAct} (h : lossless s a) : unreliable s a := by
  cases a with
  | lose | relay => exact h
  | _ => trivial

/-! ### Reachable states -/

/-- The states reached from activation when every step meets `guard`. -/
abbrev Runs (guard : System → NetAct → Prop) (s : System) : Prop := Reach p.step guard p.activate s

/-- Sequence numbers stay below `2 ^ 64`. -/
def SeqBelow (s : System) : Prop := ∀ x, (s x).hist.sent.length + 1 < 2 ^ 64

/-! ### What one step can do -/

/-- The outcomes of a step of the system. -/
inductive NetMove (s : System) : NetAct → System → Prop
  | ep (x : Side) (a : Endpoint.Act) (e' : Endpoint) (hstep : (s x).step (p.cfg x) a = some e') :
      NetMove s (.ep x a) (Function.update s x e')
  | deliver (x : Side) (w : Packet) (ws : List Packet) (hwire : (s x).wire = w :: ws) :
      NetMove s (.deliver x) (Function.update (Function.update s x { s x with wire := ws }) x.other
        ((s x.other).arrive w))
  | lose (x : Side) (i : ℕ) (hi : i < (s x).wire.length) :
      NetMove s (.lose x i) (Function.update s x { s x with wire := (s x).wire.eraseIdx i })
  | relay (x : Side) (ws : List Packet) :
      NetMove s (.relay x ws) (Function.update s x { s x with wire := ws })

/-- What a step of the link does. -/
theorem netMove_of_step {s s' : System} {a : NetAct} (h : p.step s a = some s') :
    p.NetMove s a s' := by
  cases a with
  | ep x b =>
    obtain ⟨e', he', rfl⟩ := Option.map_eq_some_iff.1 h
    exact .ep x b e' he'
  | deliver x =>
    simp only [step] at h
    split at h
    next => cases h
    next w ws hwire =>
      obtain rfl := Option.some.inj h
      exact .deliver x w ws hwire
  | lose x i =>
    simp only [step] at h
    split at h
    next hi =>
      obtain rfl := Option.some.inj h
      exact .lose x i hi
    next => cases h
  | relay x ws =>
    obtain rfl := Option.some.inj h
    exact .relay x ws

/-- A step of the link changes queues, receive buffers and what is on the link, and nothing else. -/
theorem link_frame {s s' : System} {a : NetAct} (h : p.step s a = some s')
    (hlink : ∀ x b, a ≠ .ep x b) (z : Side) : ∃ wire recvq rxBuf rcq,
      s' z = { s z with wire := wire, recvq := recvq, rxBuf := rxBuf, rcq := rcq } := by
  cases p.netMove_of_step h with
  | ep x b e' hstep => exact absurd rfl (hlink x b)
  -- one side loses the frame from its wire, the other takes it in
  | deliver x w ws hwire =>
    obtain rfl | rfl := Side.eq_or_eq_other x z
    · rw [Function.update_of_ne (Side.ne_other z), Function.update_self]
      exact ⟨_, _, _, _, rfl⟩
    · rw [Function.update_self]
      obtain ⟨recvq, rxBuf, rcq, heq⟩ := (s x.other).arrive_frame w
      exact ⟨_, recvq, rxBuf, rcq, heq⟩
  | lose x i =>
    obtain rfl | rfl := Side.eq_or_eq_other x z
    · rw [Function.update_self]
      exact ⟨_, _, _, _, rfl⟩
    · rw [Function.update_of_ne (Side.other_ne x)]
      exact ⟨_, _, _, _, rfl⟩
  | relay x ws =>
    obtain rfl | rfl := Side.eq_or_eq_other x z
    · rw [Function.update_self]
      exact ⟨_, _, _, _, rfl⟩
    · rw [Function.update_of_ne (Side.other_ne x)]
      exact ⟨_, _, _, _, rfl⟩

/-- What an endpoint can become in one step of the system: it takes a step, its frames on the link
change, or a frame arrives. -/
inductive SideMove (cfg : RdmaConfig) (e : Endpoint) : Endpoint → Prop
  | act (a : Endpoint.Act) (e' : Endpoint) (hmove : Endpoint.Move cfg e a e') : SideMove cfg e e'
  | wire (ws : List Packet) : SideMove cfg e { e with wire := ws }
  | arrive (w : Packet) : SideMove cfg e (e.arrive w)

/-- What a step does to each side. -/
theorem sideMove_of_step {s s' : System} {a : NetAct} (h : p.step s a = some s') (z : Side) :
    SideMove (p.cfg z) (s z) (s' z) := by
  have hsame : SideMove (p.cfg z) (s z) (s z) := .wire (s z).wire
  cases p.netMove_of_step h with
  | ep x b e' hstep =>
    obtain rfl | rfl := Side.eq_or_eq_other x z
    · rw [Function.update_self]
      exact .act b e' (Endpoint.move_of_step hstep)
    · rwa [Function.update_of_ne (Side.other_ne x)]
  | deliver x w ws hwire =>
    obtain rfl | rfl := Side.eq_or_eq_other x z
    · rw [Function.update_of_ne (Side.ne_other z), Function.update_self]
      exact .wire ws
    · rw [Function.update_self]
      exact .arrive w
  | lose x i hi =>
    obtain rfl | rfl := Side.eq_or_eq_other x z
    · rw [Function.update_self]
      exact .wire _
    · rwa [Function.update_of_ne (Side.other_ne x)]
  | relay x ws =>
    obtain rfl | rfl := Side.eq_or_eq_other x z
    · rw [Function.update_self]
      exact .wire ws
    · rwa [Function.update_of_ne (Side.other_ne x)]

/-- A property of one endpoint that its moves, changes of its frames on the link and arrivals keep
holds of both endpoints in every run. -/
theorem Runs.side_invariant {guard : System → NetAct → Prop} {I : Side → Endpoint → Prop}
    {s : System} (h : p.Runs guard s) (h₀ : ∀ x, I x (p.activate x))
    (hmove : ∀ x e e', I x e → SideMove (p.cfg x) e e' → I x e') : ∀ x, I x (s x) :=
  Reach.invariant (I := fun s ↦ ∀ x, I x (s x)) h h₀ fun _ _ _ _ hs _ hstep x ↦
    hmove x _ _ (hs x) (p.sideMove_of_step hstep x)

/-- Both endpoints keep their books. -/
theorem Runs.booked {guard : System → NetAct → Prop} {s : System} (h : p.Runs guard s) :
    ∀ x, Endpoint.Booked (p.cfg x) (s x) := by
  refine Runs.side_invariant p h (fun x ↦ Endpoint.Booked.activate _ _ _) ?_
  intro x e e' he hmove
  cases hmove with
  | act a e' hmove => exact he.move hmove
  | wire ws => exact he.frame ..
  | arrive w => exact he.arrive w

/-- Both receive rings are intact. -/
theorem Runs.ring {guard : System → NetAct → Prop} {s : System} (hcq : p.SeparateCqs)
    (h : p.Runs guard s) : ∀ x, Endpoint.RingInv (p.cfg x).rxDepth (s x) := by
  refine Runs.side_invariant p h (fun x ↦ Endpoint.RingInv.activate _ _ _) ?_
  intro x e e' he hmove
  cases hmove with
  | act a e' hmove => exact he.move (hmove.ring (hcq x))
  | wire ws => exact ⟨he.slots, he.recvs, he.serviced⟩
  | arrive w => exact he.arrive w

end Peering

end LlamaRdma
