import Mathlib.Algebra.Ring.Nat
import Mathlib.Data.List.Nodup
import Mathlib.Data.List.Range
import NixStrixHalo.Library.Transition
import NixStrixHalo.LlamaRdma.FrameCodec

/-!
# Connection cookies

`rdma_frame_cookie` numbers the connections of a process: the first call seeds a counter, and every
call adds an odd constant to it. Two calls may run at once, so the compare-exchange and the
fetch-add of a call are separate steps here.

## Counting

An odd constant has an inverse modulo `2 ^ 64`, so counting by it repeats nothing in `2 ^ 64` calls
(`counted_injective`). `CountedFrom` says that the counter has counted from a seed, once for each
cookie that was returned.

## The second seed

The counter is seeded whenever it is found at zero, and it comes back to zero while it counts. Which
call meets this depends on the seed, and on a reused queue pair with a fixed PSN the new seed may be
the old one, so that the same cookies are returned again. Until a step finds a counter at zero that
has counted, the cookies are distinct (`cookies_distinct`).

Distinct cookies are what keeps a frame of one connection from being taken for data of another
(`not_isData_of_cookie_ne`).
-/

namespace LlamaRdma

/-- The odd constant that a call adds, `0x9e3779b97f4a7c15`. -/
def cookieStep : UInt64 := 0x9e3779b97f4a7c15

/-- `seed`. -/
def cookieSeed (time : UInt64) (qpn psn : UInt32) : UInt64 :=
  let seed := (time <<< 32) ^^^ (qpn.toUInt64 <<< 16) ^^^ psn.toUInt64 ^^^ cookieStep
  if seed = 0 then 1 else seed

/-- `next_cookie`, with the calls of `rdma_frame_cookie` in progress and the cookies that they have
returned, in order. -/
structure CookieCounter where
  nextCookie : UInt64 := 0
  /-- The calls past their compare-exchange. -/
  begun : ℕ := 0
  issued : List UInt64 := []

namespace CookieCounter

/-- The two atomic steps of a call. -/
inductive Act
  | compareExchange (time : UInt64) (qpn psn : UInt32)
  | fetchAdd

/-- `rdma_frame_cookie`, one atomic step at a time. -/
def rdmaFrameCookie (s : CookieCounter) : Act → Option CookieCounter
  | .compareExchange time qpn psn =>
    some { s with
      nextCookie := if s.nextCookie = 0 then cookieSeed time qpn psn else s.nextCookie
      begun := s.begun + 1 }
  | .fetchAdd =>
    if s.begun = 0 then none
    else some
      { nextCookie := s.nextCookie + cookieStep
        begun := s.begun - 1
        issued := s.issued ++ [if s.nextCookie = 0 then 1 else s.nextCookie] }

/-- The counter is at zero only before it has counted. -/
def ZeroIsUnseeded (s : CookieCounter) (_ : Act) : Prop := s.nextCookie = 0 → s.issued = []

instance (s : CookieCounter) (a : Act) : Decidable (s.ZeroIsUnseeded a) :=
  inferInstanceAs (Decidable (s.nextCookie = 0 → s.issued = []))

/-! ### Counting -/

/-- Where a counter that starts at `seed` is after `n` calls. -/
def counted (seed : UInt64) (n : ℕ) : UInt64 := seed + UInt64.ofNat n * cookieStep

@[simp] theorem counted_zero (seed : UInt64) : counted seed 0 = seed := by
  simp [counted]

/-- The next cookie is a step away. -/
theorem counted_succ (seed : UInt64) (n : ℕ) :
    counted seed (n + 1) = counted seed n + cookieStep := by
  rw [counted, counted, UInt64.ofNat_add, UInt64.add_mul, UInt64.add_assoc]
  rfl

/-- Counting by an odd constant repeats nothing in `2 ^ 64` calls. -/
theorem counted_injective {seed : UInt64} {i j : ℕ} (hi : i < 2 ^ 64) (hj : j < 2 ^ 64)
    (h : counted seed i = counted seed j) : i = j := by
  have hmul : UInt64.ofNat i * cookieStep = UInt64.ofNat j * cookieStep :=
    (UInt64.add_right_inj seed).1 h
  -- the inverse of the constant modulo `2 ^ 64`
  have hinverse : cookieStep * 0xf1de83e19937733d = 1 := by decide
  have heq : UInt64.ofNat i = UInt64.ofNat j := by
    calc UInt64.ofNat i = UInt64.ofNat i * cookieStep * 0xf1de83e19937733d := by
          rw [UInt64.mul_assoc, hinverse, UInt64.mul_one]
      _ = UInt64.ofNat j * cookieStep * 0xf1de83e19937733d := by rw [hmul]
      _ = UInt64.ofNat j := by rw [UInt64.mul_assoc, hinverse, UInt64.mul_one]
  have hnat := congrArg UInt64.toNat heq
  rwa [UInt64.toNat_ofNat_of_lt' hi, UInt64.toNat_ofNat_of_lt' hj] at hnat

/-- The seed is never zero. -/
theorem cookieSeed_ne_zero (time : UInt64) (qpn psn : UInt32) : cookieSeed time qpn psn ≠ 0 := by
  rw [cookieSeed]
  split
  · decide
  next h => exact h

/-- The counter has counted from a seed, once for each cookie returned. -/
structure CountedFrom (seed : UInt64) (s : CookieCounter) : Prop where
  nextCookie : s.nextCookie = counted seed s.issued.length
  issued : s.issued = (List.range s.issued.length).map (counted seed)
  ne_zero : ∀ c ∈ s.issued, c ≠ 0
  seeded : 0 < s.begun → s.issued = [] → seed ≠ 0

variable {s s' : CookieCounter}

/-- A new server has issued nothing. -/
theorem countedFrom_init : CountedFrom 0 {} where
  nextCookie := (counted_zero 0).symm
  issued := rfl
  ne_zero := nofun
  seeded h := absurd h (Nat.lt_irrefl 0)

/-- A step that finds the counter at zero only before it has counted goes on counting from a
seed. -/
theorem exists_countedFrom_step {a : Act} (h : ∃ seed, CountedFrom seed s)
    (hguard : s.ZeroIsUnseeded a) (hstep : s.rdmaFrameCookie a = some s') :
    ∃ seed, CountedFrom seed s' := by
  obtain ⟨seed, h⟩ := h
  have hstart : s.issued = [] → s.nextCookie = seed := fun hnil ↦ by
    rw [h.nextCookie, hnil, List.length_nil, counted_zero]
  cases a with
  | compareExchange time qpn psn =>
    obtain rfl := Option.some.inj hstep
    by_cases hzero : s.nextCookie = 0
    · -- nothing has been counted, so the new seed is where the count starts
      have hnil := hguard hzero
      exact ⟨cookieSeed time qpn psn,
        { nextCookie := by simp [hzero, hnil]
          issued := by simp [hnil]
          ne_zero := by simp [hnil]
          seeded := fun _ _ ↦ cookieSeed_ne_zero time qpn psn }⟩
    · exact ⟨seed,
        { nextCookie := (if_neg hzero).trans h.nextCookie
          issued := h.issued
          ne_zero := h.ne_zero
          seeded := fun _ hnil ↦ hstart hnil ▸ hzero }⟩
  | fetchAdd =>
    rw [rdmaFrameCookie] at hstep
    split at hstep
    · cases hstep
    next hbegun =>
      obtain rfl := Option.some.inj hstep
      -- a call has begun, so the counter is seeded when it is read
      have hne : s.nextCookie ≠ 0 := fun hzero ↦
        h.seeded (Nat.pos_of_ne_zero hbegun) (hguard hzero) (hstart (hguard hzero) ▸ hzero)
      rw [if_neg hne]
      refine ⟨seed, ?_, ?_, ?_, fun _ hnil ↦ by simp at hnil⟩
      · rw [h.nextCookie, List.length_append, List.length_singleton, counted_succ]
      · rw [List.length_append, List.length_singleton, List.range_succ, List.map_append,
          ← h.issued, List.map_singleton, ← h.nextCookie]
      · intro c hc
        rcases List.mem_append.1 hc with hc | hc
        · exact h.ne_zero c hc
        · rw [List.mem_singleton.1 hc]
          exact hne

/-- **Cookies that are counted up do not repeat** before the counter has gone round. -/
theorem CountedFrom.nodup {seed : UInt64} (h : CountedFrom seed s)
    (hcalls : s.issued.length < 2 ^ 64) : s.issued.Nodup := by
  rw [h.issued]
  refine List.Nodup.map_on (fun i hi j hj heq ↦ ?_) List.nodup_range
  have hi : i < s.issued.length := List.mem_range.1 hi
  have hj : j < s.issued.length := List.mem_range.1 hj
  exact counted_injective (hi.trans hcalls) (hj.trans hcalls) heq

end CookieCounter

/-! ### Frames of earlier connections -/

open CookieCounter

/-- A frame with another cookie is taken for neither data nor an acknowledgement. -/
theorem not_isData_of_cookie_ne {cfg : RdmaConfig} {buf : List UInt8} {header : FrameHeader}
    (h : rdmaReadFrameHeader buf = some header) (hne : header.cookie ≠ cfg.rxCookie)
    (rxSeq byteLen : ℕ) :
    ¬ (classify cfg rxSeq buf byteLen).IsData ∧ ¬ (classify cfg rxSeq buf byteLen).IsAck := by
  simp only [classify, h, if_pos hne]
  repeat' split
  all_goals exact ⟨not_false, not_false⟩

/-- **Cookies are distinct** as long as no step finds the counter back at zero: in every run of
fewer than `2 ^ 64` calls the cookies returned are nonzero and pairwise distinct, and a frame with
one of them is not accepted on a connection that expects another. -/
theorem cookies_distinct {s : CookieCounter}
    (h : Transition.Reach rdmaFrameCookie ZeroIsUnseeded {} s)
    (hcalls : s.begun + s.issued.length < 2 ^ 64) :
    (∀ c ∈ s.issued, c ≠ 0) ∧ s.issued.Nodup ∧
      ∀ (i j : ℕ) (earlier current : UInt64), i < j → s.issued[i]? = some earlier →
        s.issued[j]? = some current → ∀ (cfg : RdmaConfig) (buf : List UInt8)
          (header : FrameHeader), cfg.rxCookie = current.toNat →
            rdmaReadFrameHeader buf = some header → header.cookie = earlier.toNat →
              ∀ rxSeq byteLen, ¬ (classify cfg rxSeq buf byteLen).IsData ∧
                ¬ (classify cfg rxSeq buf byteLen).IsAck := by
  obtain ⟨seed, hcounted⟩ : ∃ seed, CountedFrom seed s :=
    h.invariant ⟨0, countedFrom_init⟩ fun _ _ _ _ hi hguard hstep ↦
      exists_countedFrom_step hi hguard hstep
  have hnodup := hcounted.nodup (by omega)
  refine ⟨hcounted.ne_zero, hnodup, ?_⟩
  intro i j earlier current hij hi hj cfg buf header hcfg hread hcookie
  refine not_isData_of_cookie_ne hread ?_
  rw [hcookie, hcfg]
  intro heq
  -- the two connections would have one cookie
  obtain ⟨hilt, hi⟩ := List.getElem?_eq_some_iff.1 hi
  obtain ⟨hjlt, hj⟩ := List.getElem?_eq_some_iff.1 hj
  have hsame : s.issued[i] = s.issued[j] := by
    rw [hi, hj, UInt64.toNat_inj.1 heq]
  exact hij.ne ((hnodup.getElem_inj_iff).1 hsame)

/-- Two calls whose steps alternate. -/
theorem cookies_distinct_interleaved : ∃ s : CookieCounter,
    s.issued = [0xf72ed1948937b2ef, 0x95664b4e08822f04] ∧
      (∀ c ∈ s.issued, c ≠ 0) ∧ s.issued.Nodup := by
  have hrun : (Transition.guardedRun rdmaFrameCookie ZeroIsUnseeded {}
      [.compareExchange 0x6919a82d 0xf67d 0xcefa, .compareExchange 0x6919a82e 0xf67e 0xcefb,
        .fetchAdd, .fetchAdd]).map (fun s ↦ (s.begun, s.issued)) =
          some (0, [0xf72ed1948937b2ef, 0x95664b4e08822f04]) := by decide
  obtain ⟨s, hreach, heval⟩ := Transition.exists_reach_of_guardedRun hrun
  obtain ⟨hbegun, hissued⟩ := Prod.mk.inj heval
  have hcalls : s.begun + s.issued.length < 2 ^ 64 := by rw [hbegun, hissued]; decide
  have hdistinct := cookies_distinct hreach hcalls
  exact ⟨s, hissued, hdistinct.1, hdistinct.2.1⟩

/-- A connection that is probed at a fixed PSN and on a reused queue pair. -/
def reusedQueuePair : List CookieCounter.Act :=
  [.compareExchange 0x6919a82d 0xf67d 0xcefa, .fetchAdd]

/-- After thirteen calls the counter is at zero, so the fourteenth seeds it again, and within the
same second it returns the first cookie. -/
theorem not_cookies_distinct : ¬ ∀ s,
    Transition.Reach rdmaFrameCookie (fun _ _ ↦ True) {} s →
      s.begun + s.issued.length < 2 ^ 64 → (∀ c ∈ s.issued, c ≠ 0) ∧ s.issued.Nodup := by
  intro h
  have hrun : (Transition.guardedRun rdmaFrameCookie (fun _ _ ↦ True) {}
      (List.replicate 14 reusedQueuePair).flatten).map
        (fun s ↦ (s.begun + s.issued.length, decide s.issued.Nodup)) = some (14, false) := by
    decide +kernel
  obtain ⟨s, hreach, heval⟩ := Transition.exists_reach_of_guardedRun hrun
  obtain ⟨hcalls, hnodup⟩ := Prod.mk.inj heval
  have hdistinct := h s hreach (by rw [hcalls]; decide)
  exact absurd hdistinct.2 (of_decide_eq_false hnodup)

end LlamaRdma
