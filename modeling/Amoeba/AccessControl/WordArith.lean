import Amoeba.AccessControl.Limiter

/-!
# The limiter in machine words

The rate is multiplied by the idle time before the division, and the excess goes through
a signed word. Both can wrap.

The results below are about words of any width `w`, at least 32 bits. With `2 ^ w = 2 * H`
a signed word holds the numbers from `-H` up to `H`.

* `exactAt_iff` — for which rates, bursts, nodes and idle times the machine computes and
  decides what unbounded integers would.
* `fits_word64_iff` — with words of 64 bits, as long as the product fits.
-/

namespace AccessControl

namespace Arith

variable {w H m x now last : Nat}

/-! ### Signed words -/

/-- A sum at most one word too large is read back. -/
theorem signed_eq_ite (hH : 2 ^ w = 2 * H) (hpos : 0 < H) {y : Int} (hlo : -H ≤ y)
    (hhi : y < 3 * H) : (word w).signed y = if y < H then y else y - 2 * H := by
  show y.bmod (2 ^ w) = _
  rw [hH, Int.bmod_eq_iff (by omega)]
  split
  next hlt => exact ⟨by omega, by omega, by simp⟩
  next hge =>
    refine ⟨by omega, by omega, ⟨-1, ?_⟩⟩
    push_cast
    ring

theorem signed_of_lt (hH : 2 ^ w = 2 * H) {y : Int} (hlo : -H ≤ y) (hhi : y < H) :
    (word w).signed y = y := by
  rw [signed_eq_ite hH (by omega) hlo (by omega), if_pos hhi]

/-- A clock reading that has been cut to a word is as good as the whole one. -/
theorem signed_sub_clock : (word w).signed (now - (word w).clock last) =
    (word w).signed ((now : Int) - last) := by
  have hclock : (((word w).clock last : Nat) : Int) = (last : Int) % ((2 ^ w : Nat) : Int) := by
    show (((last : Int) % 2 ^ w).toNat : Int) = _
    rw [Int.toNat_of_nonneg (Int.emod_nonneg _ (by positivity))]
    push_cast
    rfl
  rw [hclock]
  exact Int.sub_emod_bmod _ _

/-! ### The idle time -/

/-- The idle time in unbounded integers. -/
theorem exact_elapsed_eq_natAbs (now last : Nat) :
    exact.elapsed now last = ((now : Int) - last).natAbs := by
  unfold elapsed abs
  rw [exact_signed, exact_signed]
  by_cases hle : 0 ≤ (now : Int) - last
  · rw [if_pos hle]
    omega
  · rw [if_neg hle]
    omega

/-- An idle time of less than half a word is measured. -/
theorem word_elapsed (hH : 2 ^ w = 2 * H) (hidle : ((now : Int) - last).natAbs < H) :
    (word w).elapsed now ((word w).clock last) = ((now : Int) - last).natAbs := by
  unfold elapsed abs
  rw [signed_sub_clock, signed_of_lt hH (by omega) (by omega)]
  split
  next => omega
  next =>
    rw [signed_of_lt hH (by omega) (by omega)]
    omega

/-! ### What has been paid off -/

theorem exact_decay (m d : Nat) : exact.decay m d = (m * d / 1000 : Nat) := by
  simp [decay]

theorem word_decay (w m d : Nat) : (word w).decay m d = (m * d % 2 ^ w / 1000 : Nat) := by
  simp [decay, unsigned]

/-- Whatever the idle time, no more than a thousandth of a word is paid off. -/
theorem word_decay_bounds (hH : 2 ^ w = 2 * H) (hpos : 0 < H) (m : Nat) (ms : Int) :
    0 ≤ (word w).decay m ms ∧ (word w).decay m ms ≤ 2 * H / 1000 := by
  have hcast : (2 ^ w : Int) = 2 * H := by exact_mod_cast hH
  show 0 ≤ (m * ms) % 2 ^ w / 1000 ∧ (m * ms) % 2 ^ w / 1000 ≤ 2 * H / 1000
  rw [hcast]
  have hlo := Int.emod_nonneg (m * ms) (b := 2 * (H : Int)) (by omega)
  have hhi := Int.emod_lt_of_pos (m * ms) (b := 2 * (H : Int)) (by omega)
  omega

theorem exact_remaining (x m d : Nat) :
    exact.remaining x m d = (x : Int) - (m * d / 1000 : Nat) := by
  rw [remaining, exact_signed, exact_decay]

/-- The excess after a charge, as a word that may have wrapped. -/
theorem word_charged (hH : 2 ^ w = 2 * H) (h31 : 2 ^ 31 ≤ H) (hx : x < 2 * H) (m : Nat) (ms : Int) :
    (word w).charged x m ms =
      (if (x : Int) - (word w).decay m ms + 1000 < H then (x : Int) - (word w).decay m ms + 1000
        else (x : Int) - (word w).decay m ms + 1000 - 2 * H).toNat := by
  obtain ⟨hlo, hhi⟩ := word_decay_bounds hH (by omega) m ms
  rw [charged, signed_eq_ite hH (by omega) (by omega) (by omega)]

theorem word_remaining (hH : 2 ^ w = 2 * H) (h31 : 2 ^ 31 ≤ H) (hx : x < 2 * H) (m : Nat)
    (ms : Int) :
    (word w).remaining x m ms =
      if (x : Int) - (word w).decay m ms < H then (x : Int) - (word w).decay m ms
      else (x : Int) - (word w).decay m ms - 2 * H := by
  obtain ⟨hlo, hhi⟩ := word_decay_bounds hH (by omega) m ms
  rw [remaining, signed_eq_ite hH (by omega) (by omega) (by omega)]

end Arith

/-! ### Quotients of a product that wraps -/

section

variable {M P : Nat}

/-- The quotient of a wrapped product is right only if the product has not wrapped. -/
theorem wrapped_quotient_eq_iff (hM : 1000 ≤ M) : P % M / 1000 = P / 1000 ↔ P < M := by
  constructor
  · intro h
    have hdecomp := Nat.div_add_mod P M
    rcases Nat.eq_zero_or_pos (P / M) with hzero | hpos
    · exact (Nat.div_eq_zero_iff.mp hzero).resolve_left (by omega)
    · have hle : M ≤ M * (P / M) := Nat.le_mul_of_pos_right M hpos
      omega
  · intro h
    rw [Nat.mod_eq_of_lt h]

/-- It is a whole word too small if the product has lost a thousand words. -/
theorem wrapped_quotient_add_iff (hM : 1000 ≤ M) :
    P % M / 1000 + M = P / 1000 ↔ 1000 * M ≤ P ∧ P < 1001 * M := by
  have hdecomp := Nat.div_add_mod P M
  have hmod := Nat.mod_lt P (show 0 < M by omega)
  constructor
  · intro h
    rcases Nat.lt_trichotomy (P / M) 1000 with hlt | heq | hgt
    · have hle : M * (P / M) ≤ M * 999 := Nat.mul_le_mul_left M (by omega)
      omega
    · rw [heq] at hdecomp
      omega
    · have hle : M * 1001 ≤ M * (P / M) := Nat.mul_le_mul_left M hgt
      omega
  · rintro ⟨hlo, hhi⟩
    have hquotient : P / M = 1000 := Nat.div_eq_of_lt_le hlo hhi
    rw [hquotient] at hdecomp
    omega

end

/-! ### Nodes in machine words -/

/-- The node as the machine stores it: a clock reading is cut to a word. -/
def Node.stored (w : Nat) (lr : Node) : Node := { lr with last := (Arith.word w).clock lr.last }

/-- The idle time of a node. The clock may have gone back. -/
def Node.idle (now : Nat) (lr : Node) : Nat := ((now : Int) - lr.last).natAbs

/-- **What exactness means**, for a node with the rate `m` in a zone with the burst `b`: the
charged excess of a lookup or an accounting, the remaining one that the expiry compares
when the node has been idle for a minute, and the burst in thousandths of requests are
what they are in unbounded integers, and so are the decisions to refuse a request and to
drop the node. -/
structure ExactAt (w m b now : Nat) (lr : Node) : Prop where
  charged : (Arith.word w).charged lr.excess m ((Arith.word w).elapsed now (lr.stored w).last) =
    Arith.exact.charged lr.excess m (Arith.exact.elapsed now lr.last)
  remaining : 60000 ≤ Arith.exact.elapsed now lr.last →
    (Arith.word w).remaining lr.excess m ((Arith.word w).elapsed now (lr.stored w).last) =
      Arith.exact.remaining lr.excess m (Arith.exact.elapsed now lr.last)
  burst : (Arith.word w).unsigned (b * m) = b * m
  refused : (Arith.word w).unsigned (b * m) <
      (Arith.word w).charged lr.excess m ((Arith.word w).elapsed now (lr.stored w).last) ↔
    Arith.exact.unsigned (b * m) <
      Arith.exact.charged lr.excess m (Arith.exact.elapsed now lr.last)
  dropped : (lr.stored w).Stale (Arith.word w) now m = lr.Stale .exact now m

/-- The product of the rate `m` and the idle time `d` does not wrap, and the excess `x` with
the cost of a request is a signed word after the payment. -/
def FitsWord (w m x d : Nat) : Prop :=
  m * d < 2 ^ w ∧ x + 1000 < 2 ^ (w - 1) + m * d / 1000

/-- The product has lost a thousand words, so that the quotient has lost one, and the
excess is large enough for the signed word to lose one too. -/
def LosesWord (w m x d : Nat) : Prop :=
  60000 ≤ d ∧ 1000 * 2 ^ w ≤ m * d ∧ m * d < 1001 * 2 ^ w ∧ 2 ^ (w - 1) + m * d / 1000 ≤ x + 2 ^ w

/-- The expiry does not look, everything is paid off, and what is left of the product pays
for everything too, or for so little that the signed word is negative. -/
def PaidEitherWay (w m x d : Nat) : Prop :=
  d < 60000 ∧ x + 1000 ≤ m * d / 1000 ∧
    (x + 1000 ≤ m * d % 2 ^ w / 1000 ∨
      2 ^ (w - 1) + m * d % 2 ^ w / 1000 ≤ x + 1000 ∧ x + 1000 ≤ 2 ^ w + m * d % 2 ^ w / 1000)

/-- The rates, bursts, excesses and idle times that words of `w` bits are wide enough for. -/
def Fits (w m b x d : Nat) : Prop :=
  b * m < 2 ^ w ∧ (FitsWord w m x d ∨ LosesWord w m x d ∨ PaidEitherWay w m x d)

section

variable {w H m b x d now : Nat} {lr : Node}

/-- An excess of half a word needs a rate of half a hundredth of a word. -/
theorem rate_of_excess (hb : b ≤ 100) (hx : x ≤ b * m) : x ≤ 100 * m :=
  hx.trans (Nat.mul_le_mul_right m hb)

/-- A node that fits has been idle for less than half a word. -/
theorem Fits.idle_lt (hH : 2 ^ w = 2 * H) (hhalf : 2 ^ (w - 1) = H) (h31 : 2 ^ 31 ≤ H)
    (hm : 1000 ≤ m) (hb : b ≤ 100) (hx : x ≤ b * m) (h : Fits w m b x d) : d < H := by
  have hslow : 1000 * d ≤ m * d := Nat.mul_le_mul_right d hm
  rcases h.2 with ⟨hfits, -⟩ | ⟨-, hlo, hhi, hread⟩ | ⟨hd, -⟩
  · omega
  · -- the excess is half a word, and such a rate is paid off soon
    have hrate := rate_of_excess hb hx
    rw [hhalf, hH] at hread
    rw [hH] at hlo hhi
    have hfast : m * d < m * 200200 :=
      calc m * d < 1001 * (2 * H) := hhi
        _ ≤ 2002 * (100 * m) := by omega
        _ = m * 200200 := by ring
    have hsoon := Nat.lt_of_mul_lt_mul_left hfast
    omega
  · omega

/-- **What fits is exact.** -/
theorem ExactAt.of_fits (hH : 2 ^ w = 2 * H) (hhalf : 2 ^ (w - 1) = H) (h31 : 2 ^ 31 ≤ H)
    (hm : 1000 ≤ m) (hb : b ≤ 100) (hx : lr.excess ≤ b * m)
    (h : Fits w m b lr.excess (lr.idle now)) : ExactAt w m b now lr := by
  have hidle : lr.idle now < H := h.idle_lt hH hhalf h31 hm hb hx
  have helapsed : (Arith.word w).elapsed now (lr.stored w).last = lr.idle now :=
    Arith.word_elapsed hH hidle
  have hexact : Arith.exact.elapsed now lr.last = lr.idle now := Arith.exact_elapsed_eq_natAbs _ _
  obtain ⟨hburst, hcases⟩ := h
  have hword : lr.excess < 2 * H := by omega
  have hM : 1000 ≤ 2 ^ w := by omega
  -- the two quotients agree, or differ by a word
  have hcharged : (Arith.word w).charged lr.excess m (lr.idle now) =
      Arith.exact.charged lr.excess m (lr.idle now) := by
    rw [Arith.word_charged hH h31 hword, Arith.word_decay, Arith.exact_charged]
    rcases hcases with ⟨hfits, hsum⟩ | ⟨-, hlo, hhi, hread⟩ | ⟨-, hpaid, hwrapped⟩
    · rw [(wrapped_quotient_eq_iff hM).mpr hfits]
      split <;> omega
    · have hlost := (wrapped_quotient_add_iff hM).mpr ⟨hlo, hhi⟩
      split <;> omega
    · split <;> omega
  have hremaining : 60000 ≤ lr.idle now →
      (Arith.word w).remaining lr.excess m (lr.idle now) =
        Arith.exact.remaining lr.excess m (lr.idle now) := by
    intro hlong
    rw [Arith.word_remaining hH h31 hword, Arith.word_decay, Arith.exact_remaining]
    rcases hcases with ⟨hfits, hsum⟩ | ⟨-, hlo, hhi, hread⟩ | ⟨hshort, -⟩
    · rw [(wrapped_quotient_eq_iff hM).mpr hfits]
      split <;> omega
    · have hlost := (wrapped_quotient_add_iff hM).mpr ⟨hlo, hhi⟩
      split <;> omega
    · omega
  have hunsigned : (Arith.word w).unsigned (b * m) = b * m := by
    show ((b : Int) * m) % 2 ^ w = b * m
    exact Int.emod_eq_of_lt (by positivity) (by exact_mod_cast hburst)
  refine ⟨?_, fun hlong => ?_, hunsigned, ?_, ?_⟩
  · rw [helapsed, hexact, hcharged]
  · rw [helapsed, hexact, hremaining (by omega)]
  · rw [helapsed, hexact, hcharged, hunsigned, Arith.exact_unsigned]
  · unfold Node.Stale
    rw [helapsed, hexact]
    by_cases hlong : 60000 ≤ lr.idle now
    · rw [show (lr.stored w).excess = lr.excess from rfl, hremaining hlong]
    · have hshort : ((lr.idle now : Nat) : Int) < 60000 := by omega
      simp [hshort]

/-- A product of less than a minute does not lose a thousand words of an excess that is
not paid off. -/
theorem not_lost_of_unpaid (h31 : 2 ^ 31 ≤ H) (hburst : b * m < 2 * H) (hx : x ≤ b * m)
    (hd : d < 60000) (hunpaid : m * d / 1000 < x + 1000) : m * d < 1000 * (2 * H) := by
  refine Nat.lt_of_not_le fun hlo => ?_
  -- the rate is high, and the idle time is longer than the burst is worth
  have hfast : 1000000 ≤ m := by
    have hle : m * d ≤ m * 60000 := Nat.mul_le_mul_left m hd.le
    omega
  have hlonger : m * (1000 * b) < m * d :=
    calc m * (1000 * b) = 1000 * (b * m) := by ring
      _ < 1000 * (2 * H) := by omega
      _ ≤ m * d := hlo
  have hnext : m * (1000 * b + 1) ≤ m * d :=
    Nat.mul_le_mul_left m (Nat.lt_of_mul_lt_mul_left hlonger)
  rw [show m * (1000 * b + 1) = 1000 * (b * m) + m by ring] at hnext
  omega

/-- An idle time of more than a minute that is paid for exactly. -/
theorem Fits.of_remaining (hH : 2 ^ w = 2 * H) (hhalf : 2 ^ (w - 1) = H) (h31 : 2 ^ 31 ≤ H)
    (hm : 1000 ≤ m) (hb : b ≤ 100) (hx : lr.excess ≤ b * m) (hburst : b * m < 2 ^ w)
    (hlong : 60000 ≤ lr.idle now) (h : ExactAt w m b now lr) :
    Fits w m b lr.excess (lr.idle now) := by
  have hM : 1000 ≤ 2 ^ w := by omega
  have hword : lr.excess < 2 * H := by omega
  have hexact : Arith.exact.elapsed now lr.last = lr.idle now := Arith.exact_elapsed_eq_natAbs _ _
  have hremaining := h.remaining (by omega)
  have hcharged := h.charged
  rw [hexact] at hremaining hcharged
  rw [Arith.word_remaining hH h31 hword, Arith.exact_remaining] at hremaining
  rw [Arith.word_charged hH h31 hword, Arith.exact_charged] at hcharged
  obtain ⟨hlo, hhi⟩ := Arith.word_decay_bounds (m := m) hH (by omega)
    ((Arith.word w).elapsed now (lr.stored w).last)
  have hslow : 1000 * lr.idle now ≤ m * lr.idle now := Nat.mul_le_mul_right _ hm
  -- the signed word is one of two numbers, so the quotient is right or a word too small
  have hidle : lr.idle now < H := by
    split at hremaining
    next => omega
    next hlarge =>
      have hrate := rate_of_excess hb hx
      have hfast : m * lr.idle now < m * 300001 := by omega
      have hsoon := Nat.lt_of_mul_lt_mul_left hfast
      omega
  have helapsed : (Arith.word w).elapsed now (lr.stored w).last = lr.idle now :=
    Arith.word_elapsed hH hidle
  rw [helapsed, Arith.word_decay] at hremaining hcharged
  refine ⟨hburst, ?_⟩
  split at hremaining
  next hsmall =>
    have hquotient : m * lr.idle now % 2 ^ w / 1000 = m * lr.idle now / 1000 := by omega
    rw [hquotient] at hcharged
    refine .inl ⟨(wrapped_quotient_eq_iff hM).mp hquotient, ?_⟩
    rw [hhalf]
    split at hcharged <;> omega
  next hlarge =>
    have hquotient : m * lr.idle now % 2 ^ w / 1000 + 2 ^ w = m * lr.idle now / 1000 := by omega
    obtain ⟨hlo, hhi⟩ := (wrapped_quotient_add_iff hM).mp hquotient
    exact .inr (.inl ⟨hlong, hlo, hhi, by omega⟩)

/-- An idle time of less than a minute that is charged exactly. -/
theorem Fits.of_charged (hH : 2 ^ w = 2 * H) (hhalf : 2 ^ (w - 1) = H) (h31 : 2 ^ 31 ≤ H)
    (hx : lr.excess ≤ b * m) (hburst : b * m < 2 ^ w) (hshort : lr.idle now < 60000)
    (h : ExactAt w m b now lr) : Fits w m b lr.excess (lr.idle now) := by
  have hM : 1000 ≤ 2 ^ w := by omega
  have hword : lr.excess < 2 * H := by omega
  have hexact : Arith.exact.elapsed now lr.last = lr.idle now := Arith.exact_elapsed_eq_natAbs _ _
  have helapsed : (Arith.word w).elapsed now (lr.stored w).last = lr.idle now :=
    Arith.word_elapsed hH (show lr.idle now < H by omega)
  have hcharged := h.charged
  rw [hexact, helapsed, Arith.word_charged hH h31 hword, Arith.word_decay,
    Arith.exact_charged] at hcharged
  have hquotient := wrapped_quotient_eq_iff (P := m * lr.idle now) hM
  refine ⟨hburst, ?_⟩
  by_cases hfits : m * lr.idle now < 2 ^ w
  · rw [hquotient.mpr hfits] at hcharged
    refine .inl ⟨hfits, ?_⟩
    rw [hhalf]
    split at hcharged <;> omega
  · -- the quotient is wrong, so everything must be paid off
    have hwrong := mt hquotient.mp hfits
    have hpaid : lr.excess + 1000 ≤ m * lr.idle now / 1000 := by
      refine Nat.le_of_not_lt fun hunpaid => ?_
      have hlost := not_lost_of_unpaid h31 (hH ▸ hburst) hx hshort hunpaid
      have hword' := mt (wrapped_quotient_add_iff (P := m * lr.idle now) hM).mp (by omega)
      split at hcharged <;> omega
    refine .inr (.inr ⟨hshort, hpaid, ?_⟩)
    split at hcharged <;> omega

/-- **Where the limiter's machine arithmetic is exact.** For words of at least 32 bits, every
rate that the handler computes, every burst, every excess within it and all clock
readings: a node is charged, compared and dropped as with unbounded integers if and only
if the burst in thousandths fits a word and, of the rate times the idle time, either
nothing is lost and the sum is a signed word; or a thousand words are lost and the
signed word makes up for it; or, within the first minute, everything is paid off with
the product and with what is left of it. -/
theorem exactAt_iff (hw : 32 ≤ w) (hm : 1000 ≤ m) (hb : b ≤ 100) (hx : lr.excess ≤ b * m) :
    ExactAt w m b now lr ↔ Fits w m b lr.excess (lr.idle now) := by
  obtain ⟨v, rfl⟩ := Nat.exists_eq_add_of_le' (show 1 ≤ w by omega)
  have hH : 2 ^ (v + 1) = 2 * 2 ^ v := by
    rw [Nat.pow_succ, Nat.mul_comm]
  have hhalf : 2 ^ (v + 1 - 1) = 2 ^ v := by
    rw [Nat.add_sub_cancel]
  have h31 : 2 ^ 31 ≤ 2 ^ v := Nat.pow_le_pow_right (by decide) (by omega)
  constructor
  · intro h
    have hburst : b * m < 2 ^ (v + 1) := by
      have hmod : ((b : Int) * m) % 2 ^ (v + 1) = b * m := h.burst
      have hlt := Int.emod_lt_of_pos ((b : Int) * m) (b := 2 ^ (v + 1)) (by positivity)
      rw [hmod] at hlt
      exact_mod_cast hlt
    rcases Nat.lt_or_ge (lr.idle now) 60000 with hshort | hlong
    · exact .of_charged hH hhalf h31 hx hburst hshort h
    · exact .of_remaining hH hhalf h31 hm hb hx hburst hlong h
  · exact .of_fits hH hhalf h31 hm hb hx

/-- **Words of 64 bits** are wide enough as long as the product is. -/
theorem fits_word64_iff (hm : m ≤ 100000000) (hb : b ≤ 100) (hx : x ≤ b * m) :
    Fits 64 m b x d ↔ m * d < 2 ^ 64 := by
  have hburst : b * m ≤ 100 * 100000000 := Nat.mul_le_mul hb hm
  constructor
  · rintro ⟨-, ⟨hfits, -⟩ | ⟨-, hlo, -, hread⟩ | ⟨hd, -⟩⟩
    · exact hfits
    · -- such an excess is beyond the burst
      omega
    · calc m * d ≤ 100000000 * 60000 := Nat.mul_le_mul hm hd.le
        _ < 2 ^ 64 := by decide
  · intro hfits
    exact ⟨by omega, .inl ⟨hfits, by omega⟩⟩

end

/-- A node of a key, charged with one request. -/
def chargedNode (excess last : Nat) : Node where
  id := 0
  hash := 7
  data := [0x6b]
  len := 1
  excess := excess
  last := last
  count := 0

/-- Two seconds at one request per second, in words of 32 bits. -/
theorem exactAt_two_seconds : ExactAt 32 1000 1 7000 (chargedNode 1000 5000) :=
  (exactAt_iff (by decide) (by decide) (by decide) (by decide)).mpr
    ⟨by decide, .inl ⟨by decide, by decide⟩⟩

/-- **An hour without credit.** With words of 32 bits a key that has been idle for 4294968
milliseconds, about 72 minutes, at one request per second has its product wrapped to 704,
pays nothing off and is refused. With words of 64 bits the product wraps for a node that has been pinned
and given back, whose idle time is the time since 1970, at the highest rate. -/
theorem product_wraps :
    let q : Query :=
      { hash := 7, data := [0x6b], account := true, maxtps := 1000, burst := 1, now := 4299968
        meets := 0, alloc := true, realloc := true }
    let z : Zone := { queue := [chargedNode 1000 5000], nextId := 1 }
    (lookup .exact z q).rc = .ok ∧ (lookup (.word 32) z q).rc = .busy ∧
      ¬ ExactAt 32 1000 1 4299968 (chargedNode 1000 5000) ∧
      ¬ ExactAt 64 100000000 100 1700000000000 (chargedNode 0 0) := by
  intro q z
  refine ⟨by decide, by decide, fun h => ?_, fun h => ?_⟩
  · exact absurd h.charged (by decide)
  · exact absurd (h.remaining (by decide)) (by decide)

end AccessControl
