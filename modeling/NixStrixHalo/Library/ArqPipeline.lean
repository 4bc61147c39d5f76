import NixStrixHalo.Library.Arq

/-!
# How many transmissions are under way

Every transmission of a message is, until it is done with, in one of three places: on its way as a
frame, owed as an acknowledgement, or on its way back as one. Read from the acknowledgement that
comes in next to the frame sent last, these places form one sequence of message numbers, the
`pipe`. Over a link that keeps the order and loses nothing that a live party would get, the pipe is
always a part of

  `acked, …, acked, acked + 1, …, n, n, …, n`

with at most `retries` copies at either end, so it is never longer than `window + 2 * retries`.

A retransmission whose frame an acknowledgement has overwritten arrives as that acknowledgement. It
is no part of the other direction's pipe, and it says nothing new when it is read, because the
acknowledgement it repeats was posted before it (`Covered`).

## Main results

* `Reliable.step`: the shape of the pipe is kept in both directions.
* `Reliable.length_owns_le`, `Reliable.length_out_le`: the bounds.
-/

namespace Arq

variable {β : Type*}

/-! ### What is under way -/

/-- The acknowledgements among frames on their way, without the retransmissions that carry one. -/
def acks (l : List (Packet β)) : List ℕ :=
  l.filterMap fun pk ↦
    match pk.own, pk.frame with
    | none, .ack r => some r
    | _, _ => none

/-- The messages that frames on their way were transmitted for. -/
def owns (l : List (Packet β)) : List ℕ := l.filterMap Packet.own

/-- The transmissions of `p` under way to `r`, the ones furthest on first. -/
def pipe (p r : Party β) : List ℕ := acks r.out ++ (r.owed.toList ++ owns p.out)

/-- Retransmissions of the last message, while the party is blocked on it. -/
def Party.retries (p : Party β) : ℕ := (p.held.map Held.retries).getD 0

/-- The longest pipe when `acked` is acknowledged, `n` was sent, and sent again `k` times. -/
def fullPipe (retries acked n k : ℕ) : List ℕ :=
  List.replicate retries acked ++ (List.range' (acked + 1) (n - acked) ++ List.replicate k n)

/-- What is acknowledged once a frame is read. -/
def Packet.raise (pk : Packet β) (a : ℕ) : ℕ :=
  match pk.own, pk.frame with
  | none, .ack r => max a r
  | _, _ => a

/-- What is acknowledged once `l` is read, going by genuine acknowledgements only. -/
def level : ℕ → List (Packet β) → ℕ
  | a, [] => a
  | a, pk :: l => level (pk.raise a) l

/-- No retransmission that carries an acknowledgement says more than what is read before it. -/
def Covered : ℕ → List (Packet β) → Prop
  | _, [] => True
  | a, pk :: l => (∀ r, pk.own ≠ none → pk.frame = .ack r → r ≤ a) ∧ Covered (pk.raise a) l

section Lists

variable {l l' : List (Packet β)}

/-- The acknowledgements of two parts of a queue. -/
@[simp] theorem acks_append : acks (l ++ l') = acks l ++ acks l' := List.filterMap_append

@[simp] theorem acks_nil : acks ([] : List (Packet β)) = [] := rfl

@[simp] theorem acks_cons_own (f : Frame β) (q : ℕ) : acks (⟨f, some q⟩ :: l) = acks l := rfl

@[simp] theorem acks_cons_ack (r : ℕ) : acks (⟨.ack r, none⟩ :: l) = r :: acks l := rfl

@[simp] theorem acks_cons_noise (o : Option ℕ) : acks (⟨.noise, o⟩ :: l) = acks l := by
  cases o <;> rfl

/-- The own frames of two parts of a queue. -/
@[simp] theorem owns_append : owns (l ++ l') = owns l ++ owns l' := List.filterMap_append

@[simp] theorem owns_nil : owns ([] : List (Packet β)) = [] := rfl

@[simp] theorem owns_cons_some (f : Frame β) (q : ℕ) : owns (⟨f, some q⟩ :: l) = q :: owns l := rfl

@[simp] theorem owns_cons_none (f : Frame β) : owns (⟨f, none⟩ :: l) = owns l := rfl

/-- A frame in front does not take own frames away. -/
theorem owns_sublist_cons (pk : Packet β) : (owns l).Sublist (owns (pk :: l)) :=
  (List.sublist_cons_self pk l).filterMap Packet.own

/-- A frame in front does not take acknowledgements away. -/
theorem acks_sublist_cons (pk : Packet β) : (acks l).Sublist (acks (pk :: l)) :=
  (List.sublist_cons_self pk l).filterMap _

/-- The level that is reached in two parts is reached part after part. -/
theorem level_append (a : ℕ) : level a (l ++ l') = level (level a l) l' := by
  induction l generalizing a with
  | nil => rfl
  | cons pk l ih => exact ih _

/-- A queue is covered if its second part is covered from the level that the first one leaves. -/
theorem covered_append {a : ℕ} : Covered a (l ++ l') ↔ Covered a l ∧ Covered (level a l) l' := by
  induction l generalizing a with
  | nil => simp [Covered, level]
  | cons pk l ih => simp only [List.cons_append, Covered, level, ih, and_assoc]

end Lists

/-! ### The full pipe -/

section FullPipe

variable {R a n k r : ℕ} {t : List ℕ}

/-- A full pipe has a frame for each message that is not acknowledged and one for each repetition.
-/
theorem length_fullPipe (R k : ℕ) (h : a ≤ n) : (fullPipe R a n k).length + a = R + n + k := by
  simp only [fullPipe, List.length_append, List.length_replicate, List.length_range']
  omega

/-- The frames of a full pipe number messages from the acknowledged one to the last one. -/
theorem mem_fullPipe (h : a ≤ n) (hr : r ∈ fullPipe R a n k) : a ≤ r ∧ r ≤ n := by
  simp only [fullPipe, List.mem_append, List.mem_replicate, List.mem_range'_1] at hr
  omega

/-- The numbers of a full pipe do not go down. -/
theorem pairwise_fullPipe (R k : ℕ) (h : a ≤ n) : (fullPipe R a n k).Pairwise (· ≤ ·) := by
  refine List.pairwise_append.2 ⟨?_, List.pairwise_append.2 ⟨?_, ?_, ?_⟩, ?_⟩
  · exact List.pairwise_replicate.2 (Or.inr le_rfl)
  · exact List.pairwise_le_range' 1
  · exact List.pairwise_replicate.2 (Or.inr le_rfl)
  · intro x hx y hy
    have := List.mem_range'_1.1 hx
    obtain rfl := List.eq_of_mem_replicate hy
    omega
  · intro x hx y hy
    obtain rfl := List.eq_of_mem_replicate hx
    rcases List.mem_append.1 hy with hy | hy
    · have := List.mem_range'_1.1 hy
      omega
    · obtain rfl := List.eq_of_mem_replicate hy
      exact h

/-- A message is sent. -/
theorem fullPipe_concat (R : ℕ) (h : a ≤ n) :
    fullPipe R a n 0 ++ [n + 1] = fullPipe R a (n + 1) 0 := by
  have hlast : a + 1 + (n - a) = n + 1 := by omega
  have hlen : n + 1 - a = n - a + 1 := by omega
  simp [fullPipe, hlen, List.range'_1_concat, hlast]

/-- The last message is sent once more. -/
theorem fullPipe_concat_last (R a n k : ℕ) : fullPipe R a n k ++ [n] = fullPipe R a n (k + 1) := by
  simp only [fullPipe, List.append_assoc, List.replicate_succ' (n := k)]

/-- From a number on, a range is that number and the range behind it. -/
theorem filter_le_range' (hlt : a < r) (hrn : r ≤ n) :
    (List.range' (a + 1) (n - a)).filter (r ≤ ·) = r :: List.range' (r + 1) (n - r) := by
  obtain ⟨d, rfl⟩ : ∃ d, r = a + 1 + d := ⟨r - (a + 1), by omega⟩
  have hlen : n - a = d + (n - (a + 1 + d) + 1) := by omega
  rw [hlen, ← List.range'_append_1, List.filter_append, List.filter_eq_nil_iff.2,
    List.filter_eq_self.2, List.nil_append, List.range'_succ]
  · intro x hx
    simpa using (List.mem_range'_1.1 hx).1
  · intro x hx
    simpa using (List.mem_range'_1.1 hx).2

/-- The oldest acknowledgement comes in: what is behind it fits the pipe as it is then. -/
theorem sublist_fullPipe_of_cons (hn : a ≤ n) (hk : k ≤ R) (hlast : n ≤ a → k = 0)
    (h : (r :: t).Sublist (fullPipe R a n k)) :
    t.Sublist (fullPipe R (max a r) n (if n ≤ max a r then 0 else k)) := by
  obtain ⟨har, hrn⟩ := mem_fullPipe hn (h.subset List.mem_cons_self)
  have hmax : max a r = r := Nat.max_eq_right har
  rw [hmax]
  -- the pipe is sorted, so nothing in it is older than its head
  have hge : ∀ x ∈ r :: t, r ≤ x := by
    have hpair := (pairwise_fullPipe R k hn).sublist h
    intro x hx
    rcases List.mem_cons.1 hx with rfl | hx
    · exact le_rfl
    · exact (List.pairwise_cons.1 hpair).1 x hx
  rcases Nat.eq_or_lt_of_le har with rfl | hlt
  · -- a repeated acknowledgement
    have htail := (List.sublist_cons_self a t).trans h
    split
    next hle => rwa [hlast hle] at htail
    next => exact htail
  · -- a new one: nothing behind it is older
    have hfilter := h.filter (r ≤ ·)
    rw [List.filter_eq_self.2 (by simpa using hge)] at hfilter
    have hfull : (fullPipe R a n k).filter (r ≤ ·) =
        r :: (List.range' (r + 1) (n - r) ++ List.replicate k n) := by
      rw [fullPipe, List.filter_append, List.filter_append, filter_le_range' hlt hrn,
        List.filter_eq_nil_iff.2,
        List.filter_eq_self.2]
      · rfl
      · intro x hx
        obtain rfl := List.eq_of_mem_replicate hx
        simpa using hrn
      · intro x hx
        obtain rfl := List.eq_of_mem_replicate hx
        simpa using hlt
    rw [hfull, List.cons_sublist_cons] at hfilter
    refine hfilter.trans ?_
    split
    next hle =>
      obtain rfl : r = n := Nat.le_antisymm hrn hle
      simpa [fullPipe] using hk
    next => exact List.sublist_append_right _ _

end FullPipe

/-! ### One direction of a connection -/

/-- Every frame that carries a message is tagged with it, a party holds only the message it sent
last, and there is no noise. -/
structure Party.Tagged (p : Party β) : Prop where
  out : ∀ pk ∈ p.out, ∀ q b, pk.frame = .data q b → pk.own = some q
  held : ∀ h, p.held = some h → ∀ q b, h.frame = .data q b → q = p.sent.length
  quiet : ∀ pk ∈ p.out, pk.frame ≠ .noise
  heldQuiet : ∀ h, p.held = some h → h.frame ≠ .noise

/-- What is under way from `p` to `r`. A retransmission that carries an acknowledgement of `r`
matters only while `p` is live to read it. -/
structure Pipelined (m : Params) (p r : Party β) : Prop where
  covered : p.live = true → Covered p.acked r.out
  held : p.live = true → ∀ h, r.held = some h → ∀ a, h.frame = .ack a → a ≤ level p.acked r.out
  part : ∃ k ≤ m.retries, (p.live = true → k = p.retries) ∧
    (pipe p r).Sublist (fullPipe m.retries p.acked p.sent.length k)

section Move

variable {m : Params} {p p' r r' : Party β} {i i' : List (Packet β)}

/-- Every frame of a party is either an acknowledgement or one of its own. -/
theorem Party.Tagged.length_out (h : p.Tagged) :
    p.out.length = (acks p.out).length + (owns p.out).length := by
  obtain ⟨hout, -, hquiet, -⟩ := h
  generalize p.out = l at hout hquiet
  induction l with
  | nil => rfl
  | cons pk l ih =>
    replace ih := ih (fun pk' hpk' ↦ hout pk' (List.mem_cons_of_mem pk hpk'))
      (fun pk' hpk' ↦ hquiet pk' (List.mem_cons_of_mem pk hpk'))
    rcases pk with ⟨f, - | q⟩
    · cases f with
      | data q b => cases hout _ List.mem_cons_self q b rfl
      | ack a =>
        rw [acks_cons_ack, owns_cons_none, List.length_cons, List.length_cons, ih]
        omega
      | noise => exact absurd rfl (hquiet _ List.mem_cons_self)
    · rw [acks_cons_own, owns_cons_some, List.length_cons, List.length_cons, ih]
      omega

/-- An acknowledgement keeps the frames tagged. -/
theorem Party.Tagged.concat_ack (h : p.Tagged) (a : ℕ) (clobber : Bool) :
    (p.postAck a clobber).Tagged where
  out pk hpk q b hf := by
    rcases List.mem_append.1 hpk with hpk | hpk
    · exact h.out pk hpk q b hf
    · obtain rfl := List.mem_singleton.1 hpk
      cases hf
  held g hg q b hf := by
    cases clobber with
    | false => exact h.held g hg q b hf
    | true =>
      obtain ⟨g', -, rfl⟩ := Option.map_eq_some_iff.1 hg
      cases hf
  quiet pk hpk := by
    rcases List.mem_append.1 hpk with hpk | hpk
    · exact h.quiet pk hpk
    · obtain rfl := List.mem_singleton.1 hpk
      exact nofun
  heldQuiet g hg := by
    cases clobber with
    | false => exact h.heldQuiet g hg
    | true =>
      obtain ⟨g', -, rfl⟩ := Option.map_eq_some_iff.1 hg
      exact nofun

/-- An answer keeps the frames tagged. -/
theorem Party.Tagged.answer (h : p.Tagged) (a : ℕ) (reply : Option Bool) :
    (p.answer a reply).Tagged := by
  cases reply with
  | none => exact h
  | some clobber => exact h.concat_ack a clobber

/-- A party that stops keeps its frames tagged. -/
theorem Party.Tagged.halt (h : p.Tagged) : p.halt.Tagged :=
  ⟨h.out, nofun, h.quiet, nofun⟩

/-- Frames that get lost do no harm. -/
theorem Party.Tagged.shrink {l : List (Packet β)} (h : p.Tagged) (hsub : ∀ pk ∈ l, pk ∈ p.out) :
    { p with out := l }.Tagged :=
  ⟨fun pk hpk ↦ h.out pk (hsub pk hpk), h.held, fun pk hpk ↦ h.quiet pk (hsub pk hpk), h.heldQuiet⟩

/-- A party goes on tagging what it sends. -/
theorem Move.tagged (h : Move m p i p' i') (hp : p.Tagged) : p'.Tagged := by
  cases h with
  | send _ b held hfree hheld hwin =>
    have hlast : ∀ g, held = some g → g.frame = .data (p.sent.length + 1) b := by
      intro g hg
      rcases hheld with rfl | rfl
      · cases hg
      · obtain rfl := Option.some.inj hg
        rfl
    refine ⟨fun pk hpk q c hf ↦ ?_, fun g hg q c hf ↦ ?_, fun pk hpk ↦ ?_, fun g hg ↦ ?_⟩
    · rcases List.mem_append.1 hpk with hpk | hpk
      · exact hp.out pk hpk q c hf
      · obtain rfl := List.mem_singleton.1 hpk
        cases hf
        rfl
    · rw [hlast g hg] at hf
      cases hf
      simp [Party.send]
    · rcases List.mem_append.1 hpk with hpk | hpk
      · exact hp.quiet pk hpk
      · obtain rfl := List.mem_singleton.1 hpk
        exact fun hframe ↦ by cases hframe
    · rw [hlast g hg]
      exact fun hframe ↦ by cases hframe
  | resend _ g hheld hretries =>
    refine ⟨fun pk hpk q c hf ↦ ?_, fun g' hg' q c hf ↦ ?_, fun pk hpk ↦ ?_, fun g' hg' ↦ ?_⟩
    · rcases List.mem_append.1 hpk with hpk | hpk
      · exact hp.out pk hpk q c hf
      · obtain rfl := List.mem_singleton.1 hpk
        exact congrArg some (hp.held g hheld q c hf).symm
    · obtain rfl := Option.some.inj hg'
      exact hp.held g hheld q c hf
    · rcases List.mem_append.1 hpk with hpk | hpk
      · exact hp.quiet pk hpk
      · obtain rfl := List.mem_singleton.1 hpk
        exact hp.heldQuiet g hheld
    · obtain rfl := Option.some.inj hg'
      exact hp.heldQuiet g hheld
  | pay _ a clobber howed => exact hp.concat_ack a clobber
  | noise => exact hp
  | ack _ a o =>
    have hheld : ∀ g, (p.absorb a).held = some g → p.held = some g := by
      intro g hg
      simp only [Party.absorb] at hg
      split at hg
      · cases hg
      · exact hg
    exact ⟨hp.out, fun g hg ↦ hp.held g (hheld g hg), hp.quiet,
      fun g hg ↦ hp.heldQuiet g (hheld g hg)⟩
  | duplicate _ q b o reply hq => exact hp.answer q reply
  | accept _ q b o owed reply hq howed =>
    have hp' : (p.accept b owed).Tagged := ⟨hp.out, hp.held, hp.quiet, hp.heldQuiet⟩
    exact hp'.answer q reply
  | reject => exact hp.halt
  | halt => exact hp.halt

/-- A retransmission adds nothing to the level, and says nothing new where the level is high
enough. -/
theorem level_concat_own (a q : ℕ) (f : Frame β) (l : List (Packet β)) :
    level a (l ++ [⟨f, some q⟩]) = level a l := by
  rw [level_append]
  rfl

/-- An own frame behind a covered queue is covered, if it acknowledges no more than has been
reached. -/
theorem covered_concat_own {a q : ℕ} {f : Frame β} {l : List (Packet β)} (h : Covered a l)
    (hf : ∀ r, f = .ack r → r ≤ level a l) : Covered a (l ++ [⟨f, some q⟩]) :=
  covered_append.2 ⟨h, fun r _ hr ↦ hf r hr, trivial⟩

/-- An acknowledgement at the end raises the level to its number. -/
theorem level_concat_ack (a r : ℕ) (l : List (Packet β)) :
    level a (l ++ [⟨.ack r, none⟩]) = max (level a l) r := by
  rw [level_append]
  rfl

/-- An acknowledgement keeps a queue covered. -/
theorem covered_concat_ack {a : ℕ} {l : List (Packet β)} (h : Covered a l) (r : ℕ) :
    Covered a (l ++ [⟨.ack r, none⟩]) :=
  covered_append.2 ⟨h, fun _ hne _ ↦ absurd rfl hne, trivial⟩

/-- An answer takes no attempt away. -/
theorem Party.answer_retries (p : Party β) (a : ℕ) (reply : Option Bool) :
    (p.answer a reply).retries = p.retries := by
  rcases reply with - | - | -
  · rfl
  · rfl
  · rcases hheld : p.held with - | g <;> simp [answer, postAck, retries, hheld]

/-- An answer puts no own frame on the link. -/
theorem Party.owns_answer_out (p : Party β) (a : ℕ) (reply : Option Bool) :
    owns (p.answer a reply).out = owns p.out := by
  cases reply with
  | none => rfl
  | some clobber => simp [answer, postAck]

/-- The pipe depends on the sender through a few of its fields. -/
theorem Pipelined.congr_sender (h : Pipelined m p r) (hacked : p'.acked = p.acked)
    (hsent : p'.sent.length = p.sent.length) (hlive : p'.live = p.live)
    (hretries : p'.retries = p.retries) (howns : owns p'.out = owns p.out) :
    Pipelined m p' r where
  covered hl := hacked ▸ h.covered (hlive ▸ hl)
  held hl := hacked ▸ h.held (hlive ▸ hl)
  part := by
    obtain ⟨k, hk, hkr, hsub⟩ := h.part
    refine ⟨k, hk, fun hl ↦ hretries ▸ hkr (hlive ▸ hl), ?_⟩
    rw [hacked, hsent]
    simpa only [pipe, howns] using hsub

/-- The sender takes a frame that is no acknowledgement. -/
theorem Pipelined.take {pk : Packet β} (h : Pipelined m p r) (hout : r.out = pk :: i)
    (hraise : pk.raise p.acked = p.acked) : Pipelined m p { r with out := i } where
  covered hl := by
    have hcovered := (hout ▸ h.covered hl).2
    rwa [hraise] at hcovered
  held hl g hg a ha := by
    have hle := h.held hl g hg a ha
    rw [hout, level, hraise] at hle
    exact hle
  part := by
    obtain ⟨k, hk, hkr, hsub⟩ := h.part
    refine ⟨k, hk, hkr, List.Sublist.trans ?_ hsub⟩
    rw [pipe, pipe, hout]
    exact (acks_sublist_cons pk).append (List.Sublist.refl _)

/-- A move of the sender. -/
theorem Pipelined.sender (h : Pipelined m p r) (hmove : Move m p r.out p' i')
    (hlive : p.live = true)
    (hacked : p.acked ≤ p.sent.length) (hheld : ∀ g, p.held = some g → p.acked < p.sent.length)
    (hr : r.Tagged) : Pipelined m p' { r with out := i' } := by
  obtain ⟨k, hk, hkr, hsub⟩ := h.part
  replace hkr := hkr hlive
  generalize hout : r.out = l at hmove
  cases hmove with
  | send _ b held hfree hheld' hwin =>
    -- a party that sends is not blocked, so its last message was not repeated
    have hk₀ : k = 0 := by simp [hkr, Party.retries, hfree]
    have hretries : (p.send b held).retries = 0 := by
      rcases hheld' with rfl | rfl <;> rfl
    refine ⟨fun _ ↦ hout ▸ h.covered hlive, fun _ ↦ hout ▸ h.held hlive,
      0, Nat.zero_le _, fun _ ↦ hretries.symm, ?_⟩
    have hlen : (p.send b held).sent.length = p.sent.length + 1 := by simp [Party.send]
    show List.Sublist _ (fullPipe m.retries p.acked (p.send b held).sent.length 0)
    rw [hlen, ← fullPipe_concat m.retries hacked, ← hout]
    subst hk₀
    simpa [pipe, Party.send] using hsub.append (List.Sublist.refl [p.sent.length + 1])
  | resend _ g hg hretries =>
    have hkg : k = g.retries := by simp [hkr, Party.retries, hg]
    refine ⟨fun _ ↦ hout ▸ h.covered hlive, fun _ ↦ hout ▸ h.held hlive,
      k + 1, by omega, fun _ ↦ by simp [Party.retries, Party.resend, hkg], ?_⟩
    show List.Sublist _ (fullPipe m.retries p.acked p.sent.length (k + 1))
    rw [← fullPipe_concat_last, ← hout]
    simpa [pipe, Party.resend] using hsub.append (List.Sublist.refl [p.sent.length])
  | pay _ a clobber howed =>
    exact hout ▸ h.congr_sender rfl rfl rfl (p.answer_retries a (some clobber))
      (p.owns_answer_out a (some clobber))
  | noise _ o => exact h.take hout (by cases o <;> rfl)
  | ack _ a o =>
    have hcovered := hout ▸ h.covered hlive
    rcases o with - | q
    · -- a genuine acknowledgement is the head of the pipe
      have hlast : p.sent.length ≤ p.acked → k = 0 := by
        intro hle
        rcases hg : p.held with - | g
        · simp [hkr, Party.retries, hg]
        · have := hheld g hg
          omega
      have hretries : (p.absorb a).retries =
          if p.sent.length ≤ max p.acked a then 0 else k := by
        simp only [Party.retries, Party.absorb] at hkr ⊢
        split
        next => rfl
        next => exact hkr.symm
      refine ⟨fun _ ↦ hcovered.2, fun _ g hg b hb ↦ ?_, _, ?_, fun _ ↦ hretries.symm, ?_⟩
      · have hle := h.held hlive g hg b hb
        rw [hout] at hle
        exact hle
      · split <;> omega
      · refine sublist_fullPipe_of_cons hacked hk hlast ?_
        rw [pipe, hout, acks_cons_ack] at hsub
        exact hsub
    · -- a retransmission that carries one repeats what was read before
      have hle := hcovered.1 a (Option.some_ne_none q) rfl
      have hmax : max p.acked a = p.acked := Nat.max_eq_left hle
      have hsame : (p.absorb a).held = p.held := by
        simp only [Party.absorb, hmax]
        split
        next hdone =>
          rcases hg : p.held with - | g
          · rfl
          · have := hheld g hg
            omega
        next => rfl
      exact (h.take hout rfl).congr_sender hmax rfl rfl (by simp only [Party.retries, hsame]) rfl
  | duplicate _ q b o reply hq =>
    obtain rfl : o = some q := hr.out ⟨.data q b, o⟩ (hout ▸ List.mem_cons_self) q b rfl
    exact (h.take hout rfl).congr_sender (by simp) (by simp) (by simp)
      (p.answer_retries q reply) (p.owns_answer_out q reply)
  | accept _ q b o owed reply hq howed =>
    obtain rfl : o = some q := hr.out ⟨.data q b, o⟩ (hout ▸ List.mem_cons_self) q b rfl
    exact (h.take hout rfl).congr_sender (by simp [Party.accept]) (by simp [Party.accept])
      (by simp [Party.accept]) ((p.accept b owed).answer_retries q reply)
      ((p.accept b owed).owns_answer_out q reply)
  | reject _ pk =>
    have hdead : ¬ p.halt.live = true := Bool.false_ne_true
    refine ⟨fun hl ↦ absurd hl hdead, fun hl ↦ absurd hl hdead, k, hk, fun hl ↦ absurd hl hdead,
      List.Sublist.trans ?_ hsub⟩
    rw [pipe, pipe, hout]
    exact (acks_sublist_cons pk).append (List.Sublist.refl _)
  | halt =>
    have hdead : ¬ p.halt.live = true := Bool.false_ne_true
    exact hout ▸ ⟨fun hl ↦ absurd hl hdead, fun hl ↦ absurd hl hdead, k, hk,
      fun hl ↦ absurd hl hdead, hsub⟩

/-- What is on its way from the receiver grows by an acknowledgement, and the pipe shrinks. -/
theorem Pipelined.postAck {a : ℕ} {clobber : Bool} (h : Pipelined m p r)
    (hpipe : (pipe { p with out := i' } (r'.postAck a clobber)).Sublist (pipe p r))
    (hout : r'.out = r.out) (hheld : r'.held = r.held) :
    Pipelined m { p with out := i' } (r'.postAck a clobber) where
  covered hl := by
    show Covered p.acked (r'.out ++ _)
    rw [hout]
    exact covered_concat_ack (h.covered hl) a
  held hl g hg b hb := by
    show b ≤ level p.acked (r'.out ++ _)
    rw [hout, level_concat_ack]
    cases clobber with
    | false => exact (h.held hl g (hheld ▸ hg) b hb).trans (Nat.le_max_left _ _)
    | true =>
      obtain ⟨g', -, rfl⟩ := Option.map_eq_some_iff.1 hg
      cases hb
      exact Nat.le_max_right _ _
  part := by
    obtain ⟨k, hk, hkr, hsub⟩ := h.part
    exact ⟨k, hk, hkr, hpipe.trans hsub⟩

/-- The receiver posts nothing, and the pipe shrinks. -/
theorem Pipelined.shrink (h : Pipelined m p r)
    (hpipe : (pipe { p with out := i' } r').Sublist (pipe p r)) (hout : r'.out = r.out)
    (hheld : ∀ g, r'.held = some g → r.held = some g) : Pipelined m { p with out := i' } r' where
  covered hl := hout ▸ h.covered hl
  held hl g hg := hout ▸ h.held hl g (hheld g hg)
  part := by
    obtain ⟨k, hk, hkr, hsub⟩ := h.part
    exact ⟨k, hk, hkr, hpipe.trans hsub⟩

/-- A move of the receiver. -/
theorem Pipelined.receiver {m' : Params} (h : Pipelined m p r) (hmove : Move m' r p.out r' i')
    (hacked : p.acked ≤ p.sent.length) (hp : p.Tagged) : Pipelined m { p with out := i' } r' := by
  -- used where an acknowledgement overtakes the one that is owed
  have hsorted : (pipe p r).Pairwise (· ≤ ·) := by
    obtain ⟨k, -, -, hsub⟩ := h.part
    exact (pairwise_fullPipe m.retries k hacked).sublist hsub
  generalize hout : p.out = l at hmove
  have hpipe : pipe p r = acks r.out ++ (r.owed.toList ++ owns l) := by rw [pipe, hout]
  cases hmove with
  | send _ b held hfree hheld hwin =>
    obtain ⟨k, hk, hkr, hsub⟩ := h.part
    refine ⟨fun hl ↦ covered_concat_own (h.covered hl) fun a hframe ↦ (by cases hframe),
      fun _ g hg b' hb' ↦ ?_, k, hk, hkr, ?_⟩
    · rcases hheld with rfl | rfl
      · cases hg
      · obtain rfl := Option.some.inj hg
        cases hb'
    · simpa [pipe, Party.send, hout] using hsub
  | resend _ g hheld hretries =>
    obtain ⟨k, hk, hkr, hsub⟩ := h.part
    refine ⟨fun hl ↦ covered_concat_own (h.covered hl) (h.held hl g hheld),
      fun hl g' hg' b' hb' ↦ ?_, k, hk, hkr, ?_⟩
    · obtain rfl := Option.some.inj hg'
      show b' ≤ level p.acked (r.out ++ _)
      rw [level_concat_own]
      exact h.held hl g hheld b' hb'
    · simpa [pipe, Party.resend, hout] using hsub
  | pay _ a clobber howed =>
    refine h.postAck ?_ rfl rfl
    rw [hpipe]
    simp [pipe, Party.postAck, howed]
  | noise _ o =>
    refine h.shrink ?_ rfl fun _ ↦ id
    rw [hpipe]
    exact (List.Sublist.refl _).append ((List.Sublist.refl _).append (owns_sublist_cons _))
  | ack _ a o =>
    refine h.shrink ?_ rfl fun g hg ↦ ?_
    · rw [hpipe]
      exact (List.Sublist.refl _).append ((List.Sublist.refl _).append (owns_sublist_cons _))
    · simp only [Party.absorb] at hg
      split at hg
      · cases hg
      · exact hg
  | duplicate _ q b o reply hq =>
    obtain rfl : o = some q := hp.out ⟨.data q b, o⟩ (hout ▸ List.mem_cons_self) q b rfl
    rw [owns_cons_some] at hpipe
    rcases reply with - | clobber
    · refine h.shrink ?_ rfl fun _ ↦ id
      rw [hpipe]
      exact (List.Sublist.refl _).append
        ((List.Sublist.refl _).append (List.sublist_cons_self q _))
    · -- whatever was owed is older than the copy that is answered
      have howed : r.owed.filter (q < ·) = none := by
        rcases ho : r.owed with - | o
        · rfl
        · rw [hpipe, ho] at hsorted
          have hle := (List.pairwise_append.1 (List.pairwise_append.1 hsorted).2.1).2.2 o (by simp)
            q List.mem_cons_self
          simpa using hle
      refine h.postAck ?_ rfl rfl
      rw [hpipe]
      simp only [pipe, Party.postAck, howed, acks_append, acks_cons_ack, acks_nil,
        Option.toList_none, List.nil_append, List.append_assoc, List.singleton_append]
      exact (List.Sublist.refl _).append (List.sublist_append_right _ _)
  | accept _ q b o owed reply hq howed =>
    obtain rfl : o = some q := hp.out ⟨.data q b, o⟩ (hout ▸ List.mem_cons_self) q b rfl
    rw [owns_cons_some] at hpipe
    rcases reply with - | clobber
    · -- the message leaves the pipe, and what is owed for it takes its place
      show Pipelined m _ (r.accept b owed)
      refine h.shrink ?_ rfl fun _ ↦ id
      rw [hpipe]
      refine (List.Sublist.refl _).append (List.Sublist.trans ?_ (List.sublist_append_right _ _))
      rcases howed with rfl | rfl
      · exact List.sublist_cons_self q _
      · exact List.Sublist.refl _
    · -- its acknowledgement takes its place
      have hnone : (r.accept b owed).owed.filter (q < ·) = none := by
        rcases howed with rfl | rfl <;> simp [Party.accept]
      show Pipelined m _ ((r.accept b owed).postAck q clobber)
      refine h.postAck ?_ rfl rfl
      rw [hpipe]
      simp only [pipe, Party.postAck, hnone, acks_append, acks_cons_ack, acks_nil,
        Option.toList_none, List.nil_append, List.append_assoc, List.singleton_append]
      exact (List.Sublist.refl _).append (List.sublist_append_right _ _)
  | reject _ pk =>
    refine h.shrink ?_ rfl fun g hg ↦ by cases hg
    rw [hpipe]
    exact (List.Sublist.refl _).append
      ((owns_sublist_cons pk).trans (List.sublist_append_right _ _))
  | halt =>
    refine h.shrink ?_ rfl fun g hg ↦ by cases hg
    rw [hpipe]
    exact (List.Sublist.refl _).append (List.sublist_append_right _ _)

end Move

/-! ### Both directions -/

/-- Both directions of a connection over a link that keeps order and loses nothing that a live
party would get. -/
structure Reliable (m : Side → Params) (s : Side → Party β) : Prop where
  tagged : ∀ x, (s x).Tagged
  pipelined : ∀ x, Pipelined (m x) (s x) (s x.other)

/-- A first-in first-out link that loses frames only when their receiver has given up. -/
def reliable : Link β := fun s x l ↦ (s x.other).live = false ∧ l.Sublist (s x).out

/-- At the start, the pipes are empty. -/
theorem Reliable.init (m : Side → Params) :
    Reliable m fun _ : Side ↦ (Party.init : Party β) where
  tagged _ := ⟨nofun, nofun, nofun, nofun⟩
  pipelined _ := ⟨fun _ ↦ trivial, nofun, 0, Nat.zero_le _, fun _ ↦ rfl, List.nil_sublist _⟩

section Step

variable {m : Side → Params} {L : Link β} {s s' : Side → Party β} {x : Side}

/-- A move keeps the frames of both sides tagged. -/
theorem tagged_moved {p : Party β} {i : List (Packet β)} (h : ∀ z, (s z).Tagged)
    (hmove : Move (m x) (s x) (s x.other).out p i) (z : Side) : (moved s x p i z).Tagged := by
  obtain rfl | rfl := Side.eq_or_eq_other x z
  · rw [moved_self]
    exact hmove.tagged (h z)
  · rw [moved_other]
    exact (h x.other).shrink fun pk hpk ↦ hmove.suffix.subset hpk

/-- A link that only loses frames keeps those of both sides tagged. -/
theorem tagged_relayed {l : List (Packet β)} (h : ∀ z, (s z).Tagged) (hl : l.Sublist (s x).out)
    (z : Side) : (relayed s x l z).Tagged := by
  obtain rfl | rfl := Side.eq_or_eq_other x z
  · rw [relayed_self]
    exact (h z).shrink fun pk hpk ↦ hl.subset hpk
  · rw [relayed_other]
    exact h x.other

/-- **A move keeps the pipeline**: what one side has put into it, the other one takes out. -/
theorem Reliable.act {p : Party β} {i : List (Packet β)} (h : Reliable m s) (hsound : Sound s)
    (hlive : (s x).live = true) (hmove : Move (m x) (s x) (s x.other).out p i) :
    Reliable m (moved s x p i) := by
  refine ⟨tagged_moved h.tagged hmove, fun z ↦ ?_⟩
  obtain rfl | rfl := Side.eq_or_eq_other x z
  · rw [moved_self, moved_other]
    exact (h.pipelined z).sender hmove hlive (hsound.acked_le_length z) (hsound.held z)
      (h.tagged z.other)
  · have hpipelined := h.pipelined x.other
    rw [Side.other_other] at hpipelined
    rw [moved_other, Side.other_other, moved_self]
    exact hpipelined.receiver hmove (hsound.acked_le_length x.other) (h.tagged x.other)

/-- A reliable link hands frames on and changes nothing else. -/
theorem Reliable.link {l : List (Packet β)} (h : Reliable m s) (hl : reliable s x l) :
    Reliable m (relayed s x l) := by
  obtain ⟨hdead, hsub⟩ := hl
  refine ⟨tagged_relayed h.tagged hsub, fun z ↦ ?_⟩
  obtain rfl | rfl := Side.eq_or_eq_other x z
  · obtain ⟨hcovered, hheld, k, hk, hkr, hpart⟩ := h.pipelined z
    rw [relayed_self, relayed_other]
    exact ⟨hcovered, hheld, k, hk, hkr, List.Sublist.trans ((List.Sublist.refl _).append
      ((List.Sublist.refl _).append (hsub.filterMap _))) hpart⟩
  · -- the sender of this direction is the receiver that has given up
    obtain ⟨-, -, k, hk, hkr, hpart⟩ := h.pipelined x.other
    rw [Side.other_other] at hpart
    rw [relayed_other, Side.other_other, relayed_self]
    refine ⟨fun hl ↦ absurd hl (by simp [hdead]), fun hl ↦ absurd hl (by simp [hdead]),
      k, hk, hkr, List.Sublist.trans ?_ hpart⟩
    exact (hsub.filterMap _).append (List.Sublist.refl _)

/-- Every frame of a run over a link that only loses frames is tagged. -/
theorem tagged_of_run (hL : ∀ s x l, L s x l → l.Sublist (s x).out) (h : Run m L s) :
    ∀ x, (s x).Tagged := by
  induction h with
  | refl => exact fun _ ↦ ⟨nofun, nofun, nofun, nofun⟩
  | tail _ hs ih =>
    cases hs with
    | act x p i hlive hmove => exact tagged_moved ih hmove
    | link x l hlink => exact tagged_relayed ih (hL _ x l hlink)

/-- **The shape of both pipes is kept** over a reliable link. -/
theorem Reliable.step (hL : ∀ x l, L s x l → reliable s x l) (hsound : Sound s)
    (h : Reliable m s) (hs : Step m L s s') : Reliable m s' := by
  cases hs with
  | act x p i hlive hmove => exact h.act hsound hlive hmove
  | link x l hlink => exact h.link (hL x l hlink)

/-- Every run over a link that is reliable as long as the pipes have their shape. -/
theorem Reliable.of_run (hchaotic : ∀ s x l, L s x l → chaotic s x l)
    (hL : ∀ s x l, Run m L s → Reliable m s → L s x l → reliable s x l) (h : Run m L s) :
    Reliable m s := by
  induction h with
  | refl => exact Reliable.init m
  | tail hr hs ih => exact ih.step (fun x l ↦ hL _ x l hr ih) (Sound.of_run hchaotic hr) hs

/-- **No more is under way than the window and the retries allow.** -/
theorem Reliable.length_pipe_le (h : Reliable m s) (hsound : Sound s) (hwin : Windowed m s)
    {w : ℕ} (hw : (m x).window = some w) :
    (pipe (s x) (s x.other)).length ≤ w + 2 * (m x).retries := by
  obtain ⟨k, hk, -, hsub⟩ := (h.pipelined x).part
  have hlen := length_fullPipe (m x).retries k (hsound.acked_le_length x)
  have hle := hsub.length_le
  have := (hwin x w (hw ▸ rfl)).1
  omega

/-- The messages on their way are part of what is under way. -/
theorem Reliable.length_owns_le (h : Reliable m s) (hsound : Sound s) (hwin : Windowed m s)
    {w : ℕ} (hw : (m x).window = some w) :
    (owns (s x).out).length ≤ w + 2 * (m x).retries := by
  have hle := h.length_pipe_le hsound hwin hw
  simp only [pipe, List.length_append] at hle
  omega

/-- All frames on their way are messages under way in one direction and acknowledgements under way
in the other. -/
theorem Reliable.length_out_le (h : Reliable m s) (hsound : Sound s) (hwin : Windowed m s)
    {w w' : ℕ} (hw : (m x).window = some w) (hw' : (m x.other).window = some w') :
    (s x).out.length ≤ w + 2 * (m x).retries + (w' + 2 * (m x.other).retries) := by
  have hle := h.length_pipe_le hsound hwin hw
  have hle' := h.length_pipe_le hsound hwin hw'
  have hlen := (h.tagged x).length_out
  rw [Side.other_other] at hle'
  simp only [pipe, List.length_append] at hle hle'
  omega

end Step

end Arq
