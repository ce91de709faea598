import Amoeba.TokenBucket.Basic

/-!
# Delaying what is admitted

A bucket whose drain is at most a rate of `m / u` per unit of time can also delay what it
admits: the excess that an arrival leaves, divided by the rate and rounded down, is the
time until its release. The drain rounds down too, so the delays make up for no more
than has been drained, and releases keep the order of the arrivals and the distance of
the rate, up to one unit of time.

* `Meter.releases_isChain` — the order and the distance of the releases.
* `Meter.delay_le_of_mem_releases` — no delay is longer than the capacity is worth.
-/

namespace TokenBucket

variable {c : Config} {m u : Nat}

/-- The delay that belongs to the stored excess. -/
def Meter.delay (m u : Nat) (k : Meter) : Nat := k.excess * u / m

/-- The admissions among some arrivals, each with its delay. -/
def Meter.releases (c : Config) (m u : Nat) (k : Meter) : List Nat → List (Nat × Nat)
  | [] => []
  | now :: ts =>
    if k.offer c now ≤ c.capacity then
      (now, (k.arrive c now).delay m u) :: (k.arrive c now).releases c m u ts
    else k.releases c m u ts

/-- Two releases are in order, and the second is more than what an arrival costs behind
the first, up to one unit of time. -/
def Spaced (c : Config) (m u : Nat) (x y : Nat × Nat) : Prop :=
  x.1 + x.2 ≤ y.1 + y.2 ∧ m * (x.1 + x.2) + c.cost * u < m * (y.1 + y.2 + 1)

/-- **Two admissions in a row.** Both divisions round down, the one of the first delay and
that of the drain to the one side, and that of the second delay to the other. -/
theorem Meter.spaced (hm : 0 < m) (hdrain : ∀ ms, c.drain ms * u ≤ m * ms) {k : Meter} {now : Nat}
    (hnow : k.last ≤ now) :
    Spaced c m u (k.last, k.delay m u) (now, k.offer c now * u / m) := by
  obtain ⟨ms, rfl⟩ := Nat.exists_eq_add_of_le hnow
  have hoffer := k.offer_le (c := c) (k.last + ms)
  rw [Nat.add_sub_cancel_left] at hoffer
  have hfirst : m * (k.excess * u / m) ≤ k.excess * u := Nat.mul_div_le _ _
  have hsecond : k.offer c (k.last + ms) * u < m * (k.offer c (k.last + ms) * u / m + 1) :=
    Nat.lt_mul_div_succ _ hm
  have hdistance : m * (k.excess * u / m) + c.cost * u <
      m * (ms + k.offer c (k.last + ms) * u / m + 1) :=
    calc m * (k.excess * u / m) + c.cost * u
        ≤ (k.excess + c.cost) * u := by
          rw [Nat.add_mul]
          exact Nat.add_le_add_right hfirst _
      _ ≤ (k.offer c (k.last + ms) + c.drain ms) * u := Nat.mul_le_mul_right u hoffer
      _ ≤ k.offer c (k.last + ms) * u + m * ms := by
          rw [Nat.add_mul]
          exact Nat.add_le_add_left (hdrain ms) _
      _ < m * (k.offer c (k.last + ms) * u / m + 1) + m * ms := Nat.add_lt_add_right hsecond _
      _ = m * (ms + k.offer c (k.last + ms) * u / m + 1) := by ring
  have horder : k.excess * u / m < ms + k.offer c (k.last + ms) * u / m + 1 :=
    Nat.lt_of_mul_lt_mul_left (Nat.lt_of_le_of_lt (Nat.le_add_right _ _) hdistance)
  refine ⟨?_, ?_⟩
  · dsimp only [Meter.delay]
    omega
  · dsimp only [Meter.delay]
    calc m * (k.last + k.excess * u / m) + c.cost * u
        = m * k.last + (m * (k.excess * u / m) + c.cost * u) := by ring
      _ < m * k.last + m * (ms + k.offer c (k.last + ms) * u / m + 1) :=
          Nat.add_lt_add_left hdistance _
      _ = m * (k.last + ms + k.offer c (k.last + ms) * u / m + 1) := by ring

/-- **Releases in order and at a distance**, along any arrivals. -/
theorem Meter.releases_isChain (hm : 0 < m) (hdrain : ∀ ms, c.drain ms * u ≤ m * ms) {k : Meter}
    {ts : List Nat} (hts : (k.last :: ts).IsChain (· ≤ ·)) :
    ((k.last, k.delay m u) :: k.releases c m u ts).IsChain (Spaced c m u) := by
  -- on the arrivals, with the meter they find
  induction ts generalizing k with
  | nil => exact List.isChain_singleton _
  | cons now ts ih =>
    obtain ⟨hlast, hts'⟩ := List.isChain_cons_cons.mp hts
    rw [Meter.releases]
    by_cases hadm : k.offer c now ≤ c.capacity
    · have harrive : k.arrive c now = ⟨k.offer c now, now⟩ := if_pos hadm
      rw [if_pos hadm, harrive]
      exact List.isChain_cons_cons.mpr
        ⟨Meter.spaced hm hdrain hlast, ih (k := ⟨k.offer c now, now⟩) hts'⟩
    · -- a refused arrival leaves the meter as it was
      rw [if_neg hadm]
      refine ih ?_
      cases ts with
      | nil => exact List.isChain_singleton _
      | cons now' ts =>
        obtain ⟨hle, hts''⟩ := List.isChain_cons_cons.mp hts'
        exact List.isChain_cons_cons.mpr ⟨hlast.trans hle, hts''⟩

/-- **No delay is longer** than what the capacity is worth. -/
theorem Meter.delay_le_of_mem_releases {k : Meter} {ts : List Nat} {r : Nat × Nat}
    (hr : r ∈ k.releases c m u ts) : r.2 ≤ c.capacity * u / m := by
  induction ts generalizing k with
  | nil => simp [Meter.releases] at hr
  | cons now ts ih =>
    rw [Meter.releases] at hr
    by_cases hadm : k.offer c now ≤ c.capacity
    · rw [if_pos hadm, List.mem_cons] at hr
      rcases hr with rfl | hr
      · rw [Meter.arrive, if_pos hadm]
        exact Nat.div_le_div_right (Nat.mul_le_mul_right u hadm)
      · exact ih hr
    · rw [if_neg hadm] at hr
      exact ih hr

end TokenBucket
