import NixStrixHalo.Library.Arq

/-!
# Which losses stop-and-wait retransmission survives

A party retransmits only the message it is blocked on. Over a first-in first-out link it therefore
survives the loss of a frame exactly when the frame is a repeated copy or carries the message its
sender is blocked on. `sparing` is the link that loses no other frame, and over it a live receiver
is never handed a message ahead of the one it expects (`InOrder`).

## Usable sequences

The messages on their way to a receiver are a list of numbers, in which copies of one message may be
repeated. Such a list is usable from `e` on if each number is at most the one that is expected when
it comes (`Usable`), and `advance` is what is expected at its end. Both go through concatenation, so
a frame is taken out of the middle, or put at the end, by an equation about its two parts.

## Main results

* `InOrder.step`: every step over a sparing link keeps the messages on their way usable.
* `spared_of_stopAndWait`: with a window of one, every loss is one that is survived.
* `Move.timely`: a party that sends only when it has everything sent to it finds new data behind the
  acknowledgement of what it has sent.
-/

namespace Arq

/-! ### Sequences of message numbers -/

/-- The message expected next after `D` when `e` was expected before. -/
def advance : ℕ → List ℕ → ℕ
  | e, [] => e
  | e, q :: D => advance (if q = e then e + 1 else e) D

/-- Every message of `D` is at most the one expected when it comes. -/
def Usable : ℕ → List ℕ → Prop
  | _, [] => True
  | e, q :: D => q ≤ e ∧ Usable (if q = e then e + 1 else e) D

/-- What is delivered in two parts is delivered part after part. -/
theorem advance_append (e : ℕ) (D D' : List ℕ) :
    advance e (D ++ D') = advance (advance e D) D' := by
  induction D generalizing e with
  | nil => rfl
  | cons q D ih => exact ih _

/-- A sequence can be used if its second part can be used after its first. -/
theorem usable_append {e : ℕ} {D D' : List ℕ} :
    Usable e (D ++ D') ↔ Usable e D ∧ Usable (advance e D) D' := by
  induction D generalizing e with
  | nil => simp [Usable, advance]
  | cons q D ih => simp only [List.cons_append, Usable, advance, ih, and_assoc]

/-- Deliveries do not take the expected number back. -/
theorem le_advance (e : ℕ) (D : List ℕ) : e ≤ advance e D := by
  induction D generalizing e with
  | nil => exact Nat.le_refl e
  | cons q D ih =>
    refine Nat.le_trans ?_ (ih _)
    split <;> omega

/-- Numbers that are not ahead of the expected one can be used. -/
theorem usable_of_le {e : ℕ} {D : List ℕ} (h : ∀ q ∈ D, q ≤ e) : Usable e D := by
  induction D generalizing e with
  | nil => trivial
  | cons q D ih =>
    refine ⟨h q List.mem_cons_self, ih fun r hr ↦ ?_⟩
    have := h r (List.mem_cons_of_mem q hr)
    split <;> omega

/-- Deliveries do not take the expected number beyond the ones that were sent. -/
theorem advance_le {e n : ℕ} {D : List ℕ} (h : ∀ q ∈ D, q ≤ n) (he : e ≤ n + 1) :
    advance e D ≤ n + 1 := by
  induction D generalizing e with
  | nil => exact he
  | cons q D ih =>
    refine ih (fun r hr ↦ h r (List.mem_cons_of_mem q hr)) ?_
    have := h q List.mem_cons_self
    split <;> omega

/-- A repeated copy does not move what is expected. -/
theorem advance_of_lt {e q : ℕ} {D D' : List ℕ} (h : q < advance e D) :
    advance e (D ++ q :: D') = advance e (D ++ D') := by
  rw [advance_append, advance_append, advance, if_neg (by omega)]

variable {β : Type*}

/-- The messages carried by frames on their way, oldest first. -/
def dataSeqs (l : List (Packet β)) : List ℕ :=
  l.filterMap fun pk ↦
    match pk.frame with
    | .data q _ => some q
    | _ => none

/-- The numbers of the data frames of two parts of the link. -/
@[simp] theorem dataSeqs_append (l l' : List (Packet β)) :
    dataSeqs (l ++ l') = dataSeqs l ++ dataSeqs l' :=
  List.filterMap_append

@[simp] theorem dataSeqs_nil : dataSeqs ([] : List (Packet β)) = [] := rfl

@[simp] theorem dataSeqs_cons_data (q : ℕ) (b : β) (o : Option ℕ) (l : List (Packet β)) :
    dataSeqs (⟨.data q b, o⟩ :: l) = q :: dataSeqs l := rfl

@[simp] theorem dataSeqs_cons_ack (r : ℕ) (o : Option ℕ) (l : List (Packet β)) :
    dataSeqs (⟨.ack r, o⟩ :: l) = dataSeqs l := rfl

@[simp] theorem dataSeqs_cons_noise (o : Option ℕ) (l : List (Packet β)) :
    dataSeqs (⟨.noise, o⟩ :: l) = dataSeqs l := rfl

/-- An answer puts no data frame on the link. -/
@[simp] theorem Party.dataSeqs_answer_out (p : Party β) (r : ℕ) (reply : Option Bool) :
    dataSeqs (p.answer r reply).out = dataSeqs p.out := by
  cases reply with
  | none => rfl
  | some clobber => simp [answer, postAck]

@[simp] theorem Party.answer_held_isSome (p : Party β) (r : ℕ) (reply : Option Bool) :
    (p.answer r reply).held.isSome = p.held.isSome := by
  rcases reply with - | - | - <;> simp [answer, postAck]

/-- The data frames on the link are numbered by messages that have been sent. -/
theorem Party.Ok.le_length_of_mem_dataSeqs {p : Party β} (h : p.Ok) :
    ∀ q ∈ dataSeqs p.out, q ≤ p.sent.length := by
  intro q hq
  obtain ⟨⟨f, o⟩, hpk, hf⟩ := List.mem_filterMap.1 hq
  cases f with
  | data q' b =>
    obtain rfl := Option.some.inj hf
    exact (h.out _ hpk).le_length
  | ack r => cases hf
  | noise => cases hf

/-! ### One direction of a connection -/

/-- What the messages on their way from `p` are to a live receiver `r`: usable, and up to the last
one sent unless that is the one `p` is blocked on. -/
def Flow (p r : Party β) : Prop :=
  r.live = true → Usable (r.accepted.length + 1) (dataSeqs p.out) ∧
    (p.live = true →
      advance (r.accepted.length + 1) (dataSeqs p.out) = p.sent.length + 1 ∨
        p.held.isSome = true ∧
          advance (r.accepted.length + 1) (dataSeqs p.out) = p.sent.length)

/-- Nothing but what the parties are blocked on is missing, in either direction. -/
def InOrder (s : Side → Party β) : Prop := ∀ x, Flow (s x) (s x.other)

/-- A frame from `p` whose loss its receiver `r` survives, when the frames of `ahead` are ahead of
it. -/
def Spared (p r : Party β) (ahead : List (Packet β)) (pk : Packet β) : Prop :=
  ∀ q b, pk.frame = .data q b →
    r.live = false ∨ q < advance (r.accepted.length + 1) (dataSeqs ahead) ∨
      q = p.sent.length ∧ (p.held.isSome = true ∨ p.live = false)

/-- A first-in first-out link that loses only frames that are spared. -/
def sparing : Link β := fun s x l ↦
  ∃ ahead pk behind, (s x).out = ahead ++ pk :: behind ∧ l = ahead ++ behind ∧
    Spared (s x) (s x.other) ahead pk

section Move

variable {m : Params} {p p' r r' : Party β} {i i' : List (Packet β)}

/-- The flow depends on the receiver only through what it accepted and whether it is live. -/
theorem Flow.congr_receiver (h : Flow p r) (haccepted : r'.accepted = r.accepted)
    (hlive : r'.live = r.live) : Flow p r' := by
  simpa only [Flow, haccepted, hlive] using h

/-- A move of the sender. -/
theorem Flow.sender (h : Flow p r) (hmove : Move m p i p' i') (hp : p.Ok)
    (hlive : p.live = true) (hle : r.accepted.length ≤ p.sent.length)
    (hacked : p'.acked ≤ r.accepted.length) : Flow p' r := by
  intro hr
  obtain ⟨husable, hadv⟩ := h hr
  replace hadv := hadv hlive
  have hbound := hp.le_length_of_mem_dataSeqs
  cases hmove with
  | send _ b held hfree hheld hwin =>
    replace hadv : advance (r.accepted.length + 1) (dataSeqs p.out) = p.sent.length + 1 := by
      simpa [hfree] using hadv
    simp only [Party.send, dataSeqs_append, dataSeqs_cons_data, dataSeqs_nil, usable_append,
      advance_append, hadv]
    exact ⟨⟨husable, Nat.le_refl _, trivial⟩, fun _ ↦ Or.inl (by simp [advance])⟩
  | resend _ g hheld hretries =>
    have hsends := hp.held g hheld
    rcases g with ⟨f, k⟩
    cases f with
    | data q b =>
      have hq : q ≤ p.sent.length := hsends.le_length
      simp only [Party.resend, dataSeqs_append, dataSeqs_cons_data, dataSeqs_nil, usable_append,
        advance_append, Option.isSome_some, true_and]
      -- the copy is of a message that was sent, so it opens no gap
      refine ⟨⟨husable, by omega, trivial⟩, fun _ ↦ ?_⟩
      simp only [advance]
      split <;> omega
    | ack _ => simpa [Party.resend] using ⟨husable, fun _ ↦ hadv.imp_right And.right⟩
    | noise => simpa [Party.resend] using ⟨husable, fun _ ↦ hadv.imp_right And.right⟩
  | pay _ a clobber howed =>
    show _ ∧ ((p.answer a (some clobber)).live = true → _)
    have hout := p.dataSeqs_answer_out a (some clobber)
    have hheld := p.answer_held_isSome a (some clobber)
    simp only [Party.answer] at hout hheld ⊢
    rw [hout, hheld]
    exact ⟨husable, fun _ ↦ hadv⟩
  | noise => exact ⟨husable, fun _ ↦ hadv⟩
  | ack _ a o =>
    refine ⟨husable, fun _ ↦ ?_⟩
    simp only [Party.absorb] at hacked ⊢
    split
    · -- what is released was accepted, so the receiver is past it
      have h₁ := le_advance (r.accepted.length + 1) (dataSeqs p.out)
      have h₂ := advance_le hbound (Nat.succ_le_succ hle)
      exact Or.inl (by omega)
    · exact hadv
  | duplicate _ q b o reply hq => simpa using ⟨husable, fun _ ↦ hadv⟩
  | accept _ q b o owed reply hq howed => simpa [Party.accept] using ⟨husable, fun _ ↦ hadv⟩
  | reject => exact ⟨husable, fun h ↦ absurd h (by simp [Party.halt])⟩
  | halt => exact ⟨husable, fun h ↦ absurd h (by simp [Party.halt])⟩

/-- A move of the receiver. -/
theorem Flow.receiver (h : Flow p r) (hmove : Move m r p.out r' i') (hlive : r.live = true) :
    Flow { p with out := i' } r' := by
  intro hr'
  obtain ⟨husable, hadv⟩ := h hlive
  generalize hi : p.out = i at hmove husable hadv
  cases hmove with
  | send => exact ⟨husable, hadv⟩
  | resend => exact ⟨husable, hadv⟩
  | pay => exact ⟨husable, hadv⟩
  | noise => exact ⟨husable, hadv⟩
  | ack => exact ⟨husable, hadv⟩
  | duplicate _ q b o reply hq =>
    have hne : q ≠ r.accepted.length + 1 := by omega
    simp only [dataSeqs_cons_data, Usable, advance, if_neg hne] at husable hadv
    simpa using ⟨husable.2, hadv⟩
  | accept _ q b o owed reply hq howed =>
    simp only [dataSeqs_cons_data, Usable, advance, if_pos hq] at husable hadv
    simpa [Party.accept] using ⟨husable.2, hadv⟩
  | reject => exact absurd hr' (by simp [Party.halt])
  | halt => exact absurd hr' (by simp [Party.halt])

/-- The loss of a spared frame. -/
theorem Flow.lose {ahead behind : List (Packet β)} {pk : Packet β} (h : Flow p r) (hp : p.Ok)
    (hout : p.out = ahead ++ pk :: behind) (hspared : Spared p r ahead pk) :
    Flow { p with out := ahead ++ behind } r := by
  intro hr
  obtain ⟨husable, hadv⟩ := h hr
  have hbound := hp.le_length_of_mem_dataSeqs
  rcases pk with ⟨f, o⟩
  cases f with
  | ack a => simpa [hout] using And.intro husable hadv
  | noise => simpa [hout] using And.intro husable hadv
  | data q b =>
    simp only [hout, dataSeqs_append, dataSeqs_cons_data] at husable hadv hbound ⊢
    have hahead := (usable_append.1 husable).1
    have hbehind := (usable_append.1 husable).2.2
    have hq := (usable_append.1 husable).2.1
    -- a message that is expected no more behind `ahead` is no loss
    have hold : q < advance (r.accepted.length + 1) (dataSeqs ahead) →
        Usable (r.accepted.length + 1) (dataSeqs ahead ++ dataSeqs behind) ∧
          (p.live = true → advance (r.accepted.length + 1) (dataSeqs ahead ++ dataSeqs behind) =
            p.sent.length + 1 ∨ p.held.isSome = true ∧
              advance (r.accepted.length + 1) (dataSeqs ahead ++ dataSeqs behind) =
                p.sent.length) := by
      intro hlt
      rw [← advance_of_lt hlt]
      rw [if_neg (by omega)] at hbehind
      exact ⟨usable_append.2 ⟨hahead, hbehind⟩, hadv⟩
    rcases hspared q b rfl with hdead | hlt | ⟨rfl, hfree⟩
    · rw [hr] at hdead
      cases hdead
    · exact hold hlt
    · rcases Nat.lt_or_ge p.sent.length (advance (r.accepted.length + 1) (dataSeqs ahead)) with
        hlt | hge
      · exact hold hlt
      · -- the last message itself: everything behind it is a copy of it or older
        have hlast : ∀ q ∈ dataSeqs behind,
            q ≤ advance (r.accepted.length + 1) (dataSeqs ahead) := fun q hmem ↦
          (hbound q (List.mem_append_right _ (List.mem_cons_of_mem _ hmem))).trans hq
        have heq : advance (r.accepted.length + 1) (dataSeqs ahead) = p.sent.length :=
          Nat.le_antisymm hge hq
        refine ⟨usable_append.2 ⟨hahead, usable_of_le hlast⟩, fun hlive ↦ ?_⟩
        have hlo := le_advance p.sent.length (dataSeqs behind)
        have hhi : advance p.sent.length (dataSeqs behind) ≤ p.sent.length + 1 :=
          advance_le (fun q hmem ↦ heq ▸ hlast q hmem) (Nat.le_succ p.sent.length)
        rw [advance_append, heq]
        rcases hfree with hheld | hdead
        · rcases Nat.eq_or_lt_of_le hlo with hlo | hlo
          · exact Or.inr ⟨hheld, hlo.symm⟩
          · exact Or.inl (by omega)
        · rw [hlive] at hdead
          cases hdead

end Move

/-- At the start, there is nothing out of order. -/
theorem InOrder.init : InOrder fun _ : Side ↦ (Party.init : Party β) := by
  intro x _
  exact ⟨trivial, fun _ ↦ Or.inl rfl⟩

section Step

variable {m : Side → Params} {L : Link β} {s s' : Side → Party β}

/-- **What is on its way stays usable** over a link that spares what cannot be recovered. -/
theorem InOrder.step (hL : ∀ x l, L s x l → sparing s x l) (hsound : Sound s)
    (h : InOrder s) (hs : Step m L s s') : InOrder s' := by
  cases hs with
  | act x p i hlive hmove =>
    have hacked := (hsound.act hmove).acked x
    rw [moved_self, moved_other] at hacked
    intro z
    -- a move of `x` is one of the sender in its own direction and one of the receiver in the other
    obtain rfl | rfl := Side.eq_or_eq_other x z
    · rw [moved_self, moved_other]
      exact ((h z).sender hmove (hsound.ok z) hlive (hsound.accepted z).length_le hacked
        ).congr_receiver rfl rfl
    · have hflow := h x.other
      rw [Side.other_other] at hflow
      rw [moved_other, Side.other_other, moved_self]
      exact hflow.receiver hmove hlive
  | link x l hlink =>
    obtain ⟨ahead, pk, behind, hout, rfl, hspared⟩ := hL x l hlink
    intro z
    obtain rfl | rfl := Side.eq_or_eq_other x z
    · rw [relayed_self, relayed_other]
      exact (h z).lose (hsound.ok z) hout hspared
    · have hflow := h x.other
      rw [Side.other_other] at hflow
      rw [relayed_other, Side.other_other, relayed_self]
      exact hflow.congr_receiver rfl rfl

/-- **Every run over a sparing link is in order.** -/
theorem InOrder.of_run (hchaotic : ∀ s x l, L s x l → chaotic s x l)
    (hL : ∀ s x l, Run m L s → L s x l → sparing s x l) (h : Run m L s) : InOrder s := by
  induction h with
  | refl => exact InOrder.init
  | tail hr hs ih => exact ih.step (fun x l ↦ hL _ x l hr) (Sound.of_run hchaotic hr) hs

/-- The oldest message on its way to a live party is one it accepts or already has. -/
theorem InOrder.head_le (h : InOrder s) {x : Side} {q : ℕ} {b : β} {o : Option ℕ}
    {l : List (Packet β)} (hlive : (s x).live = true)
    (hout : (s x.other).out = ⟨.data q b, o⟩ :: l) : q ≤ (s x).accepted.length + 1 := by
  have hflow := h x.other
  rw [Side.other_other] at hflow
  have husable := (hflow hlive).1
  rw [hout] at husable
  exact husable.1

/-- With a window of one message every frame is spared: its sender is blocked on it, or it was
accepted. -/
theorem spared_of_stopAndWait (hsound : Sound s) {x : Side} (hwin : (s x).Windowed (m x))
    (hone : (m x).window = some 1) (ahead : List (Packet β)) {pk : Packet β}
    (hpk : pk ∈ (s x).out) : Spared (s x) (s x.other) ahead pk := by
  intro q b hframe
  obtain ⟨hle, hlt⟩ := hwin 1 (hone ▸ rfl)
  have hsends := (hsound.ok x).out pk hpk
  rw [hframe] at hsends
  have hq := hsends.le_length
  have hacked := hsound.acked x
  have hadv := le_advance ((s x.other).accepted.length + 1) (dataSeqs ahead)
  -- all but the last message were accepted, as the window leaves one open
  by_cases hlast : q = (s x).sent.length
  · rcases hlive : (s x).live with - | -
    · exact Or.inr (Or.inr ⟨hlast, Or.inr rfl⟩)
    · rcases hheld : (s x).held with - | g
      · have := hlt hlive hheld
        exact Or.inr (Or.inl (by omega))
      · exact Or.inr (Or.inr ⟨hlast, Or.inl rfl⟩)
  · exact Or.inr (Or.inl (by omega))

end Step

/-! ### Acknowledgements ahead of data -/

/-- New data above `c`, behind `ahead`, finds everything acknowledged, or the acknowledgement of the
last message ahead of it. -/
def Party.AckAhead (p : Party β) (c : ℕ) (ahead : List (Packet β)) (pk : Packet β) : Prop :=
  ∀ q b, pk.frame = .data q b → p.accepted.length < q → c < q →
    p.sent.length ≤ p.acked ∨ ∃ pk' ∈ ahead, pk'.frame = .ack p.sent.length

/-- So does all data on its way to the party. -/
def Party.Timely (p : Party β) (c : ℕ) (i : List (Packet β)) : Prop :=
  ∀ ahead pk behind, i = ahead ++ pk :: behind → p.AckAhead c ahead pk

section Timely

variable {m : Params} {p p' : Party β} {i i' : List (Packet β)} {c c' : ℕ}

/-- What has caught up with more, and sent no more, is as timely. -/
theorem Party.Timely.mono (h : p.Timely c i) (hc : c ≤ c')
    (haccepted : p.accepted.length ≤ p'.accepted.length) (hsent : p'.sent = p.sent)
    (hacked : p.acked ≤ p'.acked) : p'.Timely c' i := by
  intro ahead pk behind hi q b hframe hq hqc
  rw [hsent]
  exact (h ahead pk behind hi q b hframe (by omega) (by omega)).imp_left fun hle ↦ hle.trans hacked

/-- A frame that is taken, and absorbed if it is the acknowledgement, leaves the rest timely. -/
theorem Party.Timely.tail {pk : Packet β} (h : p.Timely c (pk :: i))
    (haccepted : p.accepted.length ≤ p'.accepted.length) (hsent : p'.sent = p.sent)
    (hacked : p.acked ≤ p'.acked)
    (habsorb : pk.frame = .ack p.sent.length → p.sent.length ≤ p'.acked) : p'.Timely c i := by
  intro ahead pk' behind hi q b hframe hq hqc
  rw [hsent]
  rcases h (pk :: ahead) pk' behind (by rw [hi]; rfl) q b hframe (by omega) hqc with hle | hack
  · exact Or.inl (hle.trans hacked)
  · obtain ⟨pk'', hmem, hpk''⟩ := hack
    rcases List.mem_cons.1 hmem with rfl | hmem
    · exact Or.inl (habsorb hpk'')
    · exact Or.inr ⟨pk'', hmem, hpk''⟩

/-- A frame that comes in behind the others. -/
theorem Party.Timely.concat {pk : Packet β} (h : p.Timely c i) (hpk : p.AckAhead c i pk) :
    p.Timely c (i ++ [pk]) := by
  intro ahead pk' behind hi
  rcases List.append_eq_append_iff.1 hi with ⟨t, ht, hcons⟩ | ⟨t, ht, hcons⟩
  · cases t with
    | nil =>
      obtain ⟨rfl, -⟩ := List.cons.inj hcons
      rw [ht, List.append_nil]
      exact hpk
    | cons a t =>
      obtain ⟨-, hnil⟩ := List.cons.inj hcons
      cases t <;> cases hnil
  · cases t with
    | nil =>
      obtain ⟨rfl, -⟩ := List.cons.inj hcons
      rw [List.append_nil] at ht
      exact ht ▸ hpk
    | cons a t =>
      obtain ⟨rfl, -⟩ := List.cons.inj hcons
      exact h ahead pk' t ht

/-- **A party that sends only when it has everything sent to it stays timely.** -/
theorem Move.timely (hmove : Move m p i p' i') (h : p.Timely c i) (hlive : p'.live = true)
    (hturn : p'.sent ≠ p.sent → ∀ pk ∈ i, ∀ q b, pk.frame = .data q b → q ≤ p.accepted.length) :
    p'.Timely c i' := by
  cases hmove with
  | send _ b held hfree hheld hwin =>
    intro ahead pk behind hi q b' hframe hq hqc
    have hle := hturn (by simp [Party.send]) pk (by rw [hi]; simp) q b' hframe
    exact absurd hle (Nat.not_le.2 hq)
  | resend | pay | halt => exact h.mono le_rfl le_rfl rfl le_rfl
  | noise i o => exact h.tail le_rfl rfl le_rfl fun hframe ↦ by cases hframe
  | ack i r o =>
    refine h.tail le_rfl rfl (le_max_left _ _) ?_
    rintro hframe
    obtain rfl : r = p.sent.length := Frame.ack.inj hframe
    exact le_max_right _ _
  | duplicate i q b o reply hq =>
    exact h.tail (by simp) (by simp) (by simp) fun hframe ↦ by cases hframe
  | accept i q b o owed reply hq howed =>
    exact h.tail (by simp [Party.accept]) (by simp [Party.accept]) (by simp [Party.accept])
      fun hframe ↦ by cases hframe
  | reject => cases hlive

end Timely

end Arq
