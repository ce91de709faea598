import Mathlib

/-!
# Token buckets

A meter that stores an excess and the time of the last admission. Each arrival
drains the excess by what the elapsed time is worth and adds the cost of one
arrival; it is admitted when the sum does not exceed the capacity, and only an
admission is stored. What time is worth is an arbitrary `drain`; a drain that
rounds down, such as `rate * ms / 1000`, is superadditive, which is all that
the bound on the admissions needs.

* `Meter.cost_mul_admittedUpTo_le` — the admissions up to a time `t` cost no more than
  the capacity and what the time since the last admission is worth.
* `Meter.serve_eq_true` — arrivals that are far enough apart are all admitted.
-/

namespace TokenBucket

/-- The parameters of a token bucket. -/
structure Config where
  /-- What one arrival costs. -/
  cost : Nat
  /-- The largest excess that is admitted. -/
  capacity : Nat
  /-- What an interval of time pays for. -/
  drain : Nat → Nat
  /-- Splitting an interval pays for no more than the whole of it. -/
  drain_add_le : ∀ a b, drain a + drain b ≤ drain (a + b)

theorem Config.drain_mono (c : Config) {a b : Nat} (h : a ≤ b) : c.drain a ≤ c.drain b := by
  obtain ⟨d, rfl⟩ := Nat.exists_eq_add_of_le h
  exact (Nat.le_add_right _ _).trans (c.drain_add_le a d)

/-- The stored state of a bucket. -/
structure Meter where
  excess : Nat
  last : Nat
  deriving DecidableEq, Repr

variable (c : Config)

/-- The excess an arrival would lead to. -/
def Meter.offer (k : Meter) (now : Nat) : Nat := k.excess + c.cost - c.drain (now - k.last)

/-- The state after an arrival: an arrival that is not admitted leaves no trace. -/
def Meter.arrive (k : Meter) (now : Nat) : Meter :=
  if k.offer c now ≤ c.capacity then { excess := k.offer c now, last := now } else k

/-- The arrivals with the decision on each of them. -/
def Meter.serve (k : Meter) : List Nat → List (Nat × Bool)
  | [] => []
  | now :: ts => (now, decide (k.offer c now ≤ c.capacity)) :: (k.arrive c now).serve ts

/-- The admissions among decided arrivals, up to a time. -/
def admittedUpTo (t : Nat) (as : List (Nat × Bool)) : Nat :=
  as.countP fun a => a.2 && decide (a.1 ≤ t)

variable {c}

theorem Meter.offer_le (k : Meter) (now : Nat) :
    k.excess + c.cost ≤ k.offer c now + c.drain (now - k.last) := by
  unfold Meter.offer
  omega

/-- The meter's time stays behind the clock, admitted or not. -/
theorem Meter.arrive_last_le {k : Meter} {now : Nat} (h : k.last ≤ now) :
    (k.arrive c now).last ≤ now := by
  unfold Meter.arrive
  split
  · exact le_rfl
  · exact h

/-- No arrival after `t` counts up to `t`. -/
theorem admittedUpTo_eq_zero {k : Meter} {t now : Nat} {ts : List Nat} (hnow : t < now)
    (hts : (now :: ts).IsChain (· ≤ ·)) : admittedUpTo t (k.serve c (now :: ts)) = 0 := by
  -- on the arrivals, which come after `now`
  induction ts generalizing k now with
  | nil => simp [Meter.serve, admittedUpTo, hnow]
  | cons now' ts ih =>
    obtain ⟨hle, hts'⟩ := List.isChain_cons_cons.mp hts
    rw [Meter.serve, admittedUpTo, List.countP_cons_of_neg (by simp [hnow])]
    exact ih (hnow.trans_le hle) hts'

/-- **The bound behind the guarantee.** When anything is admitted up to `t`, the
cost of these admissions on top of the stored excess is covered by the capacity
and the time that has passed. -/
theorem Meter.excess_add_le {k : Meter} {t : Nat} {ts : List Nat}
    (hts : (k.last :: ts).IsChain (· ≤ ·)) :
    admittedUpTo t (k.serve c ts) = 0 ∨
      k.excess + c.cost * admittedUpTo t (k.serve c ts) ≤ c.capacity + c.drain (t - k.last) := by
  -- on the arrivals, with the meter they find
  induction ts generalizing k with
  | nil => exact Or.inl rfl
  | cons now ts ih =>
    obtain ⟨hlast, hts'⟩ := List.isChain_cons_cons.mp hts
    rcases lt_or_ge t now with hlate | hnow
    · -- everything comes after `t`
      exact Or.inl (admittedUpTo_eq_zero hlate hts')
    rw [Meter.serve, Meter.arrive]
    by_cases hadm : k.offer c now ≤ c.capacity
    · -- the new excess is what the old one leaves after the elapsed time, plus the cost
      rw [if_pos hadm]
      have hone : admittedUpTo t ((now, decide (k.offer c now ≤ c.capacity)) ::
          Meter.serve c ⟨k.offer c now, now⟩ ts) =
          admittedUpTo t (Meter.serve c ⟨k.offer c now, now⟩ ts) + 1 := by
        rw [admittedUpTo, List.countP_cons_of_pos (by simp [hadm, hnow]), ← admittedUpTo]
      have hoffer := k.offer_le (c := c) now
      -- the time up to this arrival and the time from it on
      have hadd := c.drain_add_le (now - k.last) (t - now)
      rw [show now - k.last + (t - now) = t - k.last by omega] at hadd
      right
      rw [hone, Nat.mul_succ]
      rcases ih (k := ⟨k.offer c now, now⟩) hts' with hzero | hrest
      · rw [hzero, mul_zero]
        omega
      · dsimp only at hrest
        omega
    · -- a refused arrival counts for nothing and leaves the meter as it was
      rw [if_neg hadm]
      have hzero : admittedUpTo t ((now, decide (k.offer c now ≤ c.capacity)) :: k.serve c ts) =
          admittedUpTo t (k.serve c ts) := by
        rw [admittedUpTo, List.countP_cons_of_neg (by simp [hadm]), ← admittedUpTo]
      rw [hzero]
      refine ih ?_
      cases ts with
      | nil => simp
      | cons now' ts =>
        obtain ⟨hle, hts''⟩ := List.isChain_cons_cons.mp hts'
        exact List.isChain_cons_cons.mpr ⟨hlast.trans hle, hts''⟩

/-- **At most the capacity and the elapsed time are spent.** -/
theorem Meter.cost_mul_admittedUpTo_le {k : Meter} {t : Nat} (ts : List Nat)
    (hts : (k.last :: ts).IsChain (· ≤ ·)) :
    c.cost * admittedUpTo t (k.serve c ts) ≤ c.capacity + c.drain (t - k.last) := by
  rcases k.excess_add_le (c := c) (t := t) hts with h | h
  · simp [h]
  · omega

/-- **Patient clients are never refused**: when every gap pays for one arrival,
the excess does not grow. -/
theorem Meter.serve_eq_true {k : Meter} {d : Nat} (ts : List Nat) (hd : c.cost ≤ c.drain d)
    (hk : k.excess ≤ c.capacity) (hts : (k.last :: ts).IsChain fun a b => a + d ≤ b) :
    ∀ a ∈ k.serve c ts, a.2 = true := by
  induction ts generalizing k with
  | nil => simp [Meter.serve]
  | cons now ts ih =>
    obtain ⟨hgap, hts'⟩ := List.isChain_cons_cons.mp hts
    -- the gap before this arrival pays for it
    have hpaid := hd.trans (c.drain_mono (show d ≤ now - k.last by omega))
    have hadm : k.offer c now ≤ c.capacity := by
      unfold Meter.offer
      omega
    intro a ha
    rw [Meter.serve, Meter.arrive, if_pos hadm, List.mem_cons] at ha
    rcases ha with rfl | ha
    · simpa using hadm
    · exact ih (k := ⟨k.offer c now, now⟩) hadm hts' a ha

end TokenBucket
