import Mathlib.Data.List.Basic
import Mathlib.Logic.Function.Basic
import Mathlib.Logic.Relation
import Mathlib.Order.MinMax

/-!
# Cumulative acknowledgement between two parties

Two parties send each other numbered messages over a link and acknowledge cumulatively: `ack r` says
that everything up to `r` was accepted. A party accepts in sequence only, may block on the message
it sent last and retransmit it, and may put off an acknowledgement it owes. The frame a blocked
party holds for retransmission may be overwritten by an acknowledgement it posts meanwhile, as
happens when both come out of one small ring of buffers.

## Parties and steps

A `Party` has what it has sent and accepted, what is acknowledged, what it holds and what it owes,
and the frames of its own that are on their way. `Move` lists what a party can do with the next
frame that comes in, giving up included, which it may do at any time. Numbers are unbounded.

## The link

What the link does is a parameter `L`: `L s x l` says that in state `s` it may turn the frames on
their way from `x` into `l`. `Sound` is what holds over every link that does not forge frames; the
modules that import this one assume more of the link and prove more.

## Main results

* `Sound.step`: every step keeps what was accepted a prefix of what was sent, and every number
  acknowledged behind what was accepted.
* `Windowed.step`: no party gets further than its window ahead of what is acknowledged.
-/

namespace Arq

/-- The two ends of a connection. -/
inductive Side
  | left
  | right
  deriving DecidableEq, Repr

namespace Side

/-- The other end. -/
def other : Side → Side
  | left => right
  | right => left

@[simp] theorem other_other (x : Side) : x.other.other = x := by cases x <;> rfl

@[simp] theorem other_ne (x : Side) : x.other ≠ x := by cases x <;> decide

@[simp] theorem ne_other (x : Side) : x ≠ x.other := by cases x <;> decide

theorem eq_or_eq_other (x y : Side) : y = x ∨ y = x.other := by cases x <;> cases y <;> decide

end Side

/-- A frame as its receiver reads it. -/
inductive Frame (β : Type*)
  | data (seq : ℕ) (body : β)
  | ack (seq : ℕ)
  /-- A frame the receiver discards. -/
  | noise
  deriving DecidableEq

/-- A frame on its way. -/
structure Packet (β : Type*) where
  frame : Frame β
  /-- The message it was transmitted for, `none` for an acknowledgement. History of the packet. -/
  own : Option ℕ

/-- What a blocked party holds. -/
structure Held (β : Type*) where
  frame : Frame β
  retries : ℕ

/-- One party. Message number `k + 1` is `sent[k]`. -/
@[ext] structure Party (β : Type*) where
  sent : List β
  /-- The highest number acknowledged by the other party. -/
  acked : ℕ
  accepted : List β
  /-- An acknowledgement put off. -/
  owed : Option ℕ
  /-- The frame of the last message, while the party is blocked on it. -/
  held : Option (Held β)
  /-- The frames on their way to the other party, oldest first. -/
  out : List (Packet β)
  live : Bool

/-- The limits of a party: it sends without blocking while fewer than `window` messages are
unacknowledged, and retransmits each at most `retries` times. -/
structure Params where
  window : Option ℕ
  retries : ℕ

variable {β : Type*}

namespace Party

variable (p : Party β)

/-- A party that has sent and received nothing. -/
def init : Party β := ⟨[], 0, [], none, none, [], true⟩

/-- The party gives up. -/
def halt : Party β := { p with live := false, owed := none, held := none }

/-- An acknowledgement comes in. A party blocked on a message it covers goes on. -/
def absorb (r : ℕ) : Party β :=
  { p with
    acked := max p.acked r
    held := if p.sent.length ≤ max p.acked r then none else p.held }

/-- An acknowledgement goes out, and overwrites the held frame if `clobber` says so. -/
def postAck (r : ℕ) (clobber : Bool) : Party β :=
  { p with
    owed := p.owed.filter (r < ·)
    held := if clobber then p.held.map fun h ↦ { h with frame := .ack r } else p.held
    out := p.out ++ [⟨.ack r, none⟩] }

/-- An acknowledgement goes out or does not. -/
def answer (r : ℕ) : Option Bool → Party β
  | none => p
  | some clobber => p.postAck r clobber

/-- The next message goes out. -/
def send (b : β) (held : Option (Held β)) : Party β :=
  { p with
    sent := p.sent ++ [b]
    held := held
    out := p.out ++ [⟨.data (p.sent.length + 1) b, some (p.sent.length + 1)⟩] }

/-- The held frame goes out once more. -/
def resend (h : Held β) : Party β :=
  { p with
    held := some { h with retries := h.retries + 1 }
    out := p.out ++ [⟨h.frame, some p.sent.length⟩] }

/-- The next message of the other party is accepted. -/
def accept (b : β) (owed : Option ℕ) : Party β :=
  { p with accepted := p.accepted ++ [b], owed := owed }

end Party

/-- What a party can do. `Move m p i p' i'` takes the party from `p` to `p'` and the frames on
their way to it from `i` to `i'`. -/
inductive Move (m : Params) (p : Party β) : List (Packet β) → Party β → List (Packet β) → Prop
  | send (i : List (Packet β)) (b : β) (held : Option (Held β)) (hfree : p.held = none)
      (hheld : held = none ∨ held = some ⟨.data (p.sent.length + 1) b, 0⟩)
      (hwin : held = none → ∀ w ∈ m.window, p.sent.length + 1 < p.acked + w) :
      Move m p i (p.send b held) i
  | resend (i : List (Packet β)) (h : Held β) (hheld : p.held = some h)
      (hretries : h.retries < m.retries) : Move m p i (p.resend h) i
  | pay (i : List (Packet β)) (r : ℕ) (clobber : Bool) (howed : p.owed = some r) :
      Move m p i (p.postAck r clobber) i
  | noise (i : List (Packet β)) (o : Option ℕ) : Move m p (⟨.noise, o⟩ :: i) p i
  | ack (i : List (Packet β)) (r : ℕ) (o : Option ℕ) : Move m p (⟨.ack r, o⟩ :: i) (p.absorb r) i
  | duplicate (i : List (Packet β)) (q : ℕ) (b : β) (o : Option ℕ) (reply : Option Bool)
      (hq : q ≤ p.accepted.length) : Move m p (⟨.data q b, o⟩ :: i) (p.answer q reply) i
  | accept (i : List (Packet β)) (q : ℕ) (b : β) (o : Option ℕ) (owed : Option ℕ)
      (reply : Option Bool) (hq : q = p.accepted.length + 1) (howed : owed = none ∨ owed = some q) :
      Move m p (⟨.data q b, o⟩ :: i) ((p.accept b owed).answer q reply) i
  | reject (i : List (Packet β)) (pk : Packet β) : Move m p (pk :: i) p.halt i
  | halt (i : List (Packet β)) : Move m p i p.halt i

/-- What a link may do in a state to the frames on their way from one party. -/
abbrev Link (β : Type*) := (Side → Party β) → Side → List (Packet β) → Prop

/-- Both parties after `x` moved to `p`, leaving `i` of the frames on their way to it. -/
def moved (s : Side → Party β) (x : Side) (p : Party β) (i : List (Packet β)) : Side → Party β :=
  Function.update (Function.update s x p) x.other { s x.other with out := i }

/-- Both parties after the link turned the frames on their way from `x` into `l`. -/
def relayed (s : Side → Party β) (x : Side) (l : List (Packet β)) : Side → Party β :=
  Function.update s x { s x with out := l }

/-- One step of the two parties and the link between them. -/
inductive Step (m : Side → Params) (L : Link β) (s : Side → Party β) : (Side → Party β) → Prop
  | act (x : Side) (p : Party β) (i : List (Packet β)) (hlive : (s x).live = true)
      (hmove : Move (m x) (s x) (s x.other).out p i) : Step m L s (moved s x p i)
  | link (x : Side) (l : List (Packet β)) (hlink : L s x l) : Step m L s (relayed s x l)

/-- The states reached from two parties that have sent and received nothing. -/
abbrev Run (m : Side → Params) (L : Link β) : (Side → Party β) → Prop :=
  Relation.ReflTransGen (Step m L) fun _ ↦ Party.init

section Updates

variable (s : Side → Party β) (x : Side) (p : Party β) (i l : List (Packet β))

@[simp] theorem moved_self : moved s x p i x = p := by simp [moved]

@[simp] theorem moved_other : moved s x p i x.other = { s x.other with out := i } := by
  simp [moved]

@[simp] theorem relayed_self : relayed s x l x = { s x with out := l } := by simp [relayed]

@[simp] theorem relayed_other : relayed s x l x.other = s x.other := by simp [relayed]

end Updates

/-! ### Soundness -/

/-- The frames a party may have put on the link: its own messages, and acknowledgements of what it
accepted. -/
def Party.Sends (p : Party β) : Frame β → Prop
  | .data q b => ∃ k, q = k + 1 ∧ p.sent[k]? = some b
  | .ack r => r ≤ p.accepted.length
  | .noise => True

/-- A frame that is sent has the number of a message that has been sent. -/
theorem Party.Sends.le_length {p : Party β} {q : ℕ} {b : β} (h : p.Sends (.data q b)) :
    q ≤ p.sent.length := by
  obtain ⟨k, rfl, hk⟩ := h
  exact (List.getElem?_eq_some_iff.1 hk).1

/-- Sending and accepting more keeps a frame legitimate. -/
theorem Party.Sends.mono {p p' : Party β} {f : Frame β} (h : p.Sends f)
    (hsent : p.sent <+: p'.sent) (haccepted : p.accepted <+: p'.accepted) : p'.Sends f := by
  cases f with
  | data q b =>
    obtain ⟨k, rfl, hk⟩ := h
    obtain ⟨hlt, rfl⟩ := List.getElem?_eq_some_iff.1 hk
    exact ⟨k, rfl, List.prefix_iff_getElem?.1 hsent k hlt⟩
  | ack r => exact Nat.le_trans h haccepted.length_le
  | noise => trivial

/-- What holds of a party by itself. -/
structure Party.Ok (p : Party β) : Prop where
  out : ∀ pk ∈ p.out, p.Sends pk.frame
  held : ∀ h, p.held = some h → p.Sends h.frame
  owed : ∀ r, p.owed = some r → r ≤ p.accepted.length

/-- What holds of both parties over a link that forges nothing. -/
structure Sound (s : Side → Party β) : Prop where
  ok : ∀ x, (s x).Ok
  accepted : ∀ x, (s x.other).accepted <+: (s x).sent
  acked : ∀ x, (s x).acked ≤ (s x.other).accepted.length
  held : ∀ x h, (s x).held = some h → (s x).acked < (s x).sent.length

/-! #### What one move does -/

section Move

variable {m : Params} {p p' : Party β} {i i' : List (Packet β)}

/-- An answer is no message of its own. -/
@[simp] theorem Party.answer_sent (r : ℕ) (reply : Option Bool) :
    (p.answer r reply).sent = p.sent := by
  cases reply <;> rfl

/-- An answer accepts nothing. -/
@[simp] theorem Party.answer_accepted (r : ℕ) (reply : Option Bool) :
    (p.answer r reply).accepted = p.accepted := by
  cases reply <;> rfl

/-- An answer does not change what is known to have arrived. -/
@[simp] theorem Party.answer_acked (r : ℕ) (reply : Option Bool) :
    (p.answer r reply).acked = p.acked := by
  cases reply <;> rfl

@[simp] theorem Party.answer_live (r : ℕ) (reply : Option Bool) :
    (p.answer r reply).live = p.live := by
  cases reply <;> rfl

/-- An answer takes nothing into the hold of a party that holds nothing. -/
theorem Party.answer_held_eq_none {r : ℕ} {reply : Option Bool} (h : p.held = none) :
    (p.answer r reply).held = none := by
  rcases reply with - | - | - <;> simp [answer, postAck, h]

/-- Acknowledging what has been accepted keeps a party right. -/
theorem Party.Ok.postAck {r : ℕ} {clobber : Bool} (h : p.Ok) (hr : r ≤ p.accepted.length) :
    (p.postAck r clobber).Ok where
  out pk hpk := by
    rcases List.mem_append.1 hpk with hpk | hpk
    · exact (h.out pk hpk).mono (List.prefix_refl _) (List.prefix_refl _)
    · obtain rfl := List.mem_singleton.1 hpk
      exact hr
  held g hg := by
    cases clobber with
    | false => exact (h.held g hg).mono (List.prefix_refl _) (List.prefix_refl _)
    | true =>
      obtain ⟨g', -, rfl⟩ := Option.map_eq_some_iff.1 hg
      exact hr
  owed o ho := h.owed o (Option.eq_some_of_filter_eq_some ho)

/-- An answer that acknowledges what has been accepted keeps a party right. -/
theorem Party.Ok.answer {r : ℕ} {reply : Option Bool} (h : p.Ok) (hr : r ≤ p.accepted.length) :
    (p.answer r reply).Ok := by
  cases reply with
  | none => exact h
  | some clobber => exact h.postAck hr

/-- Accepting a message keeps a party right: what it owes is then the acknowledgement of this
message. -/
theorem Party.Ok.accept {b : β} {owed : Option ℕ} (h : p.Ok)
    (howed : owed = none ∨ owed = some (p.accepted.length + 1)) : (p.accept b owed).Ok where
  out pk hpk := (h.out pk hpk).mono (List.prefix_refl _) (List.prefix_append _ _)
  held g hg := (h.held g hg).mono (List.prefix_refl _) (List.prefix_append _ _)
  owed o ho := by
    have hlen : (p.accept b owed).accepted.length = p.accepted.length + 1 := by simp [Party.accept]
    rcases howed with rfl | rfl
    · cases ho
    · obtain rfl := Option.some.inj ho
      exact hlen.ge

/-- A party that stops stays right. -/
theorem Party.Ok.halt (h : p.Ok) : p.halt.Ok where
  out pk hpk := (h.out pk hpk).mono (List.prefix_refl _) (List.prefix_refl _)
  held _ hg := by cases hg
  owed _ ho := by cases ho

/-- What a party has sent only grows. -/
theorem Move.sent_prefix (h : Move m p i p' i') : p.sent <+: p'.sent := by
  cases h <;> simp [Party.send, Party.resend, Party.postAck, Party.absorb, Party.accept, Party.halt]

/-- What a party has accepted only grows. -/
theorem Move.accepted_prefix (h : Move m p i p' i') : p.accepted <+: p'.accepted := by
  cases h <;> simp [Party.send, Party.resend, Party.postAck, Party.absorb, Party.accept, Party.halt]

/-- A move takes at most one frame, the oldest. -/
theorem Move.suffix (h : Move m p i p' i') : i' <:+ i := by
  cases h <;> simp

/-- Only the next message is accepted. -/
theorem Move.accepted_cases (h : Move m p i p' i') : p'.accepted = p.accepted ∨
    ∃ b, (∃ pk ∈ i, pk.frame = .data (p.accepted.length + 1) b) ∧
      p'.accepted = p.accepted ++ [b] := by
  cases h with
  | accept i q b o owed reply hq howed =>
    subst hq
    exact Or.inr ⟨b, ⟨_, List.mem_cons_self, rfl⟩, by simp [Party.accept]⟩
  | duplicate i q b o reply hq => exact Or.inl (by simp)
  | _ => exact Or.inl rfl

/-- Only an acknowledgement that came in raises `acked`. -/
theorem Move.acked_cases (h : Move m p i p' i') : p'.acked = p.acked ∨
    ∃ r, (∃ pk ∈ i, pk.frame = .ack r) ∧ p'.acked = max p.acked r := by
  cases h with
  | ack i r o => exact Or.inr ⟨r, ⟨_, List.mem_cons_self, rfl⟩, rfl⟩
  | duplicate i q b o reply hq => exact Or.inl (by simp)
  | accept i q b o owed reply hq howed => exact Or.inl (by simp [Party.accept])
  | _ => exact Or.inl rfl

/-- A party comes to hold a frame only by sending it. -/
theorem Move.held_cases (h : Move m p i p' i') (hheld : p'.held.isSome = true) :
    p.held.isSome = true ∧ p'.sent = p.sent ∨ p'.sent.length = p.sent.length + 1 := by
  cases h with
  | send _ b held hfree hheld' hwin => exact Or.inr (by simp [Party.send])
  | resend _ g hg hretries => exact Or.inl ⟨by rw [hg]; rfl, rfl⟩
  | pay _ r clobber howed =>
    refine Or.inl ⟨?_, rfl⟩
    cases clobber <;> simpa [Party.postAck] using hheld
  | noise => exact Or.inl ⟨hheld, rfl⟩
  | ack _ r o =>
    refine Or.inl ⟨?_, rfl⟩
    simp only [Party.absorb] at hheld
    split at hheld
    · cases hheld
    · exact hheld
  | duplicate _ q b o reply hq =>
    refine Or.inl ⟨?_, by simp⟩
    rcases reply with - | - | - <;> simpa [Party.answer, Party.postAck] using hheld
  | accept _ q b o owed reply hq howed =>
    refine Or.inl ⟨?_, by simp [Party.accept]⟩
    rcases reply with - | - | - <;> simpa [Party.answer, Party.postAck, Party.accept] using hheld
  | reject => cases hheld
  | halt => cases hheld

/-- A party stays legitimate. -/
theorem Move.ok (h : Move m p i p' i') (hp : p.Ok) : p'.Ok := by
  cases h with
  | send _ b held hfree hheld hwin =>
    have hnext : (p.send b held).Sends (.data (p.sent.length + 1) b) :=
      ⟨p.sent.length, rfl, by simp [Party.send]⟩
    refine ⟨fun pk hpk ↦ ?_, fun g hg ↦ ?_, hp.owed⟩
    · rcases List.mem_append.1 hpk with hpk | hpk
      · exact (hp.out pk hpk).mono (List.prefix_append _ _) (List.prefix_refl _)
      · obtain rfl := List.mem_singleton.1 hpk
        exact hnext
    · rcases hheld with rfl | rfl
      · cases hg
      · obtain rfl := Option.some.inj hg
        exact hnext
  | resend _ g hheld hretries =>
    -- what is resent is what was held, which the party may send already
    have hframe : (p.resend g).Sends g.frame :=
      (hp.held g hheld).mono (List.prefix_refl _) (List.prefix_refl _)
    refine ⟨fun pk hpk ↦ ?_, fun g' hg' ↦ ?_, hp.owed⟩
    · rcases List.mem_append.1 hpk with hpk | hpk
      · exact (hp.out pk hpk).mono (List.prefix_refl _) (List.prefix_refl _)
      · obtain rfl := List.mem_singleton.1 hpk
        exact hframe
    · obtain rfl := Option.some.inj hg'
      exact hframe
  | pay _ r clobber howed => exact hp.postAck (hp.owed r howed)
  | noise => exact hp
  | ack _ r o =>
    refine ⟨fun pk hpk ↦ (hp.out pk hpk).mono (List.prefix_refl _) (List.prefix_refl _),
      fun g hg ↦ ?_, hp.owed⟩
    simp only [Party.absorb] at hg
    split at hg
    · cases hg
    · exact (hp.held g hg).mono (List.prefix_refl _) (List.prefix_refl _)
  | duplicate _ q b o reply hq => exact hp.answer hq
  | accept _ q b o owed reply hq howed =>
    subst hq
    exact (hp.accept howed).answer (by simp [Party.accept])
  | reject => exact hp.halt
  | halt => exact hp.halt

/-- A party is blocked only on a message that is not acknowledged. -/
theorem Move.acked_lt_of_held (h : Move m p i p' i') (hacked : p.acked ≤ p.sent.length)
    (hp : ∀ g, p.held = some g → p.acked < p.sent.length) :
    ∀ g, p'.held = some g → p'.acked < p'.sent.length := by
  intro g hg
  cases h with
  | send _ b held hfree hheld hwin => simpa [Party.send] using Nat.lt_succ_of_le hacked
  | resend _ g' hheld hretries => exact hp g' hheld
  | pay _ r clobber howed =>
    cases clobber with
    | false => exact hp g hg
    | true =>
      obtain ⟨g', hg', -⟩ := Option.map_eq_some_iff.1 hg
      exact hp g' hg'
  | noise => exact hp g hg
  | ack _ r o =>
    -- a party stays blocked only if the acknowledgement is below the message it sent last
    simp only [Party.absorb] at hg ⊢
    split at hg
    · cases hg
    · omega
  | duplicate _ q b o reply hq =>
    rcases hfree : p.held with - | g'
    · rw [p.answer_held_eq_none hfree] at hg
      cases hg
    · simpa using hp g' hfree
  | accept _ q b o owed reply hq howed =>
    rcases hfree : p.held with - | g'
    · rw [(p.accept b owed).answer_held_eq_none hfree] at hg
      cases hg
    · simpa [Party.accept] using hp g' hfree
  | reject => cases hg
  | halt => cases hg

end Move

/-- A link that may lose, repeat, delay and reorder frames and make noise, but forges nothing. -/
def chaotic : Link β := fun s x l ↦ ∀ pk ∈ l, pk ∈ (s x).out ∨ pk.frame = .noise

/-- Two parties that have sent nothing are sound. -/
theorem Sound.init : Sound fun _ : Side ↦ (Party.init : Party β) where
  ok _ := ⟨by simp [Party.init], by simp [Party.init], by simp [Party.init]⟩
  accepted _ := by simp [Party.init]
  acked _ := by simp [Party.init]
  held _ := by simp [Party.init]

section Step

variable {m : Side → Params} {L : Link β} {s s' : Side → Party β}

/-- What is acknowledged was sent. -/
theorem Sound.acked_le_length (h : Sound s) (x : Side) : (s x).acked ≤ (s x).sent.length :=
  (h.acked x).trans (h.accepted x).length_le

/-- **A move keeps soundness**: the party that moves stays right, and the other side still sees a
prefix of what it has sent. -/
theorem Sound.act {x : Side} {p : Party β} {i : List (Packet β)} (h : Sound s)
    (hmove : Move (m x) (s x) (s x.other).out p i) : Sound (moved s x p i) := by
  have hin : ∀ pk ∈ i, pk ∈ (s x.other).out := fun pk hpk ↦ hmove.suffix.subset hpk
  -- what `x` accepts is the next message of the other party
  have haccepted : p.accepted <+: (s x.other).sent := by
    have hpre := h.accepted x.other
    rw [Side.other_other] at hpre
    rcases hmove.accepted_cases with heq | ⟨b, ⟨pk, hpk, hframe⟩, heq⟩
    · rwa [heq]
    · have hsends := (h.ok x.other).out pk hpk
      rw [hframe] at hsends
      obtain ⟨k, hk, hget⟩ := hsends
      obtain rfl : k = (s x).accepted.length := by omega
      rw [heq]
      obtain ⟨t, ht⟩ := hpre
      rw [← ht, List.getElem?_append_right le_rfl, Nat.sub_self] at hget
      obtain ⟨t', rfl⟩ : ∃ t', t = b :: t' := by
        cases t with
        | nil => cases hget
        | cons c t' => exact ⟨t', by simp_all⟩
      exact ⟨t', by simpa using ht⟩
  -- an acknowledgement counts messages that the other party has accepted
  have hacked : p.acked ≤ (s x.other).accepted.length := by
    rcases hmove.acked_cases with heq | ⟨r, ⟨pk, hpk, hframe⟩, heq⟩
    · exact heq ▸ h.acked x
    · have hsends := (h.ok x.other).out pk hpk
      rw [hframe] at hsends
      exact heq ▸ max_le (h.acked x) hsends
  have hother := h.ok x.other
  refine ⟨fun z ↦ ?_, fun z ↦ ?_, fun z ↦ ?_, fun z ↦ ?_⟩
  all_goals obtain rfl | rfl := Side.eq_or_eq_other x z
  · simpa using hmove.ok (h.ok z)
  · simpa using ⟨fun pk hpk ↦ (hother.out pk (hin pk hpk)).mono (List.prefix_refl _)
      (List.prefix_refl _), fun g hg ↦ (hother.held g hg).mono (List.prefix_refl _)
      (List.prefix_refl _), hother.owed⟩
  · simpa using (h.accepted z).trans hmove.sent_prefix
  · simpa using haccepted
  · simpa using hacked
  · have hle := h.acked x.other
    rw [Side.other_other] at hle
    simpa using hle.trans hmove.accepted_prefix.length_le
  · simpa using hmove.acked_lt_of_held (h.acked_le_length z) (h.held z)
  · simpa using h.held x.other

/-- The link keeps soundness, whatever it loses, repeats or reorders. -/
theorem Sound.link {x : Side} {l : List (Packet β)} (h : Sound s) (hl : chaotic s x l) :
    Sound (relayed s x l) := by
  have hsame : ∀ z, (relayed s x l z).sent = (s z).sent ∧
      (relayed s x l z).accepted = (s z).accepted ∧ (relayed s x l z).acked = (s z).acked ∧
      (relayed s x l z).held = (s z).held ∧ (relayed s x l z).owed = (s z).owed := by
    intro z
    obtain rfl | rfl := Side.eq_or_eq_other x z <;> simp
  refine ⟨fun z ↦ ⟨fun pk hpk ↦ ?_, fun g hg ↦ ?_, fun r hr ↦ ?_⟩, fun z ↦ ?_, fun z ↦ ?_,
    fun z g hg ↦ ?_⟩
  · have hsends : (s z).Sends pk.frame := by
      obtain rfl | rfl := Side.eq_or_eq_other x z
      · rw [relayed_self] at hpk
        -- what the link delivers was on its way or is noise
        rcases hl pk hpk with hmem | hnoise
        · exact (h.ok z).out pk hmem
        · rw [hnoise]
          trivial
      · rw [relayed_other] at hpk
        exact (h.ok x.other).out pk hpk
    exact hsends.mono ((hsame z).1 ▸ List.prefix_refl _) ((hsame z).2.1 ▸ List.prefix_refl _)
  · rw [(hsame z).2.2.2.1] at hg
    exact ((h.ok z).held g hg).mono ((hsame z).1 ▸ List.prefix_refl _)
      ((hsame z).2.1 ▸ List.prefix_refl _)
  · rw [(hsame z).2.2.2.2] at hr
    rw [(hsame z).2.1]
    exact (h.ok z).owed r hr
  · rw [(hsame z.other).2.1, (hsame z).1]
    exact h.accepted z
  · rw [(hsame z).2.2.1, (hsame z.other).2.1]
    exact h.acked z
  · rw [(hsame z).2.2.2.1] at hg
    rw [(hsame z).2.2.1, (hsame z).1]
    exact h.held z g hg

/-- **Soundness is kept** over a link that forges nothing. -/
theorem Sound.step (hL : ∀ s x l, L s x l → chaotic s x l) (h : Sound s) (hs : Step m L s s') :
    Sound s' := by
  cases hs with
  | act x p i hlive hmove => exact h.act hmove
  | link x l hlink => exact h.link (hL s x l hlink)

/-- **Soundness of every run** over a link that forges nothing. -/
theorem Sound.of_run (hL : ∀ s x l, L s x l → chaotic s x l) (h : Run m L s) : Sound s := by
  induction h with
  | refl => exact Sound.init
  | tail _ hs ih => exact ih.step hL hs

end Step

/-! ### The window -/

/-- A party keeps to its window, and is short of it unless it is blocked. -/
def Party.Windowed (m : Params) (p : Party β) : Prop :=
  ∀ w ∈ m.window, p.sent.length ≤ p.acked + w ∧
    (p.live = true → p.held = none → p.sent.length < p.acked + w)

section Window

variable {m : Params} {p p' : Party β} {i i' : List (Packet β)}

/-- An answer neither fills nor empties the hold. -/
theorem Party.answer_held_eq_none_iff {r : ℕ} {reply : Option Bool} :
    (p.answer r reply).held = none ↔ p.held = none := by
  rcases reply with - | - | - <;> simp [answer, postAck]

/-- An answer does not change how far a party is ahead. -/
theorem Party.Windowed.answer {r : ℕ} {reply : Option Bool} (h : p.Windowed m) :
    (p.answer r reply).Windowed m := by
  intro w hw
  obtain ⟨hle, hlt⟩ := h w hw
  cases reply with
  | none => exact ⟨hle, hlt⟩
  | some clobber => exact ⟨hle, fun hlive hheld ↦ hlt hlive (p.answer_held_eq_none_iff.1 hheld)⟩

/-- A move never takes a party further ahead than its window. -/
theorem Move.windowed (h : Move m p i p' i') (hpos : ∀ w ∈ m.window, 0 < w)
    (hlive : p.live = true) (hp : p.Windowed m) : p'.Windowed m := by
  cases h with
  | send _ b held hfree hheld hwin =>
    intro w hw
    have hlt := (hp w hw).2 hlive hfree
    have hlen : (p.send b held).sent.length = p.sent.length + 1 := by simp [Party.send]
    rw [hlen]
    exact ⟨hlt, fun _ hnone ↦ hwin hnone w hw⟩
  | resend _ g hheld hretries => exact fun w hw ↦ ⟨(hp w hw).1, fun _ hnone ↦ by cases hnone⟩
  | pay _ r clobber howed => exact (hp.answer : (p.answer r (some clobber)).Windowed m)
  | noise => exact hp
  | ack _ r o =>
    intro w hw
    obtain ⟨hle, hlt⟩ := hp w hw
    have hw₀ := hpos w hw
    -- a party that is released has everything acknowledged
    refine ⟨?_, fun _ hnone ↦ ?_⟩
    · show p.sent.length ≤ max p.acked r + w
      omega
    · show p.sent.length < max p.acked r + w
      simp only [Party.absorb] at hnone
      split at hnone
      · omega
      · have := hlt hlive hnone
        omega
  | duplicate _ q b o reply hq => exact hp.answer
  | accept _ q b o owed reply hq howed =>
    exact Party.Windowed.answer fun w hw ↦ hp w hw
  | reject => exact fun w hw ↦ ⟨(hp w hw).1, fun h ↦ by cases h⟩
  | halt => exact fun w hw ↦ ⟨(hp w hw).1, fun h ↦ by cases h⟩

end Window

/-- Both parties keep to their windows. -/
def Windowed (m : Side → Params) (s : Side → Party β) : Prop := ∀ x, (s x).Windowed (m x)

/-- At the start, nobody is ahead. -/
theorem Windowed.init {m : Side → Params} (hpos : ∀ x, ∀ w ∈ (m x).window, 0 < w) :
    Windowed m fun _ : Side ↦ (Party.init : Party β) := by
  intro x w hw
  have := hpos x w hw
  simp only [Party.init, List.length_nil]
  omega

/-- **The window is kept** whatever the link does. -/
theorem Windowed.step {m : Side → Params} {L : Link β} {s s' : Side → Party β}
    (hpos : ∀ x, ∀ w ∈ (m x).window, 0 < w) (h : Windowed m s) (hs : Step m L s s') :
    Windowed m s' := by
  intro z
  cases hs with
  | act x p i hlive hmove =>
    obtain rfl | rfl := Side.eq_or_eq_other x z
    · rw [moved_self]
      exact hmove.windowed (hpos z) hlive (h z)
    · rw [moved_other]
      exact h x.other
  | link x l hlink =>
    obtain rfl | rfl := Side.eq_or_eq_other x z
    · rw [relayed_self]
      exact h z
    · rw [relayed_other]
      exact h x.other

/-- Every run keeps to the windows. -/
theorem Windowed.of_run {m : Side → Params} {L : Link β} {s : Side → Party β}
    (hpos : ∀ x, ∀ w ∈ (m x).window, 0 < w) (h : Run m L s) : Windowed m s := by
  induction h with
  | refl => exact Windowed.init hpos
  | tail _ hs ih => exact ih.step hpos hs

end Arq
