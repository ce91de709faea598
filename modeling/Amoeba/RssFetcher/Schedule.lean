import Amoeba.RssFetcher.Fetch
import Mathlib.Algebra.Group.Int.Defs
import Mathlib.Algebra.Group.Nat.Defs

/-!
# The time of the next fetch

An execution computes the time of the next one from its own start and the update rate,
or, if the feed has a time to live and a date, from these two. The time to live is in
minutes and a number of 32 bits, and so is its product with the milliseconds of a
minute, which is widened to 64 bits only when it becomes the update rate.

* `refreshes_iff` — the next time and the next rate are right if and only if the time to
  live is at most 35791 minutes and the clock does not leave its 64 bits.
-/

namespace RssFetcher

open Java

/-! ### Sums and products of machine integers -/

theorem toInt_add_of_lt {a b : Int64} (hlo : -2 ^ 63 ≤ a.toInt + b.toInt)
    (hhi : a.toInt + b.toInt < 2 ^ 63) : (a + b).toInt = a.toInt + b.toInt := by
  rw [Int64.toInt_add]
  exact Int.bmod_eq_of_le (by omega) (by omega)

/-- A sum that leaves the range is negative. -/
theorem toInt_add_of_le {a b : Int64} (h : 2 ^ 63 ≤ a.toInt + b.toInt) :
    (a + b).toInt = a.toInt + b.toInt - 2 ^ 64 := by
  have hsub : (a.toInt + b.toInt - 2 ^ 64).bmod (2 ^ 64) = (a.toInt + b.toInt).bmod (2 ^ 64) :=
    Int.sub_bmod_right _ _
  have ha := a.toInt_lt
  have hb := b.toInt_lt
  -- one turn of the clock brings the sum back into the range
  rw [Int64.toInt_add, ← hsub]
  exact Int.bmod_eq_of_le (by omega) (by omega)

theorem lt_add_iff {a b : Int64} (hb : 0 < b.toInt) : a < a + b ↔ a.toInt + b.toInt < 2 ^ 63 := by
  have ha := a.le_toInt
  have hlt := b.toInt_lt
  rw [Int64.lt_iff_toInt_lt]
  constructor
  · intro h
    apply Int.not_le.mp
    intro hle
    -- the sum has become negative
    rw [toInt_add_of_le hle] at h
    omega
  · intro h
    rw [toInt_add_of_lt (by omega) h]
    omega

/-- The time to live in milliseconds, as it is computed. -/
theorem millis_of_ttl (ttl : Int32) :
    (ttl * 60 * 1000).toInt64.toInt = (ttl.toInt * 60000).bmod (2 ^ 32) := by
  have h60 : (60 : Int32).toInt = 60 := rfl
  have h1000 : (1000 : Int32).toInt = 1000 := rfl
  -- the two reductions of the product are one
  rw [Int32.toInt_toInt64, Int32.toInt_mul, Int32.toInt_mul, Int.bmod_mul_bmod, h60, h1000,
    Int.mul_assoc]
  rfl

/-- **The product is exact** up to 24 days, 20 hours and 31 minutes. -/
theorem millis_of_ttl_eq_iff {ttl : Int32} (h : 0 < ttl.toInt) :
    (ttl * 60 * 1000).toInt64.toInt = ttl.toInt * 60000 ↔ ttl.toInt ≤ 35791 := by
  constructor
  · intro heq
    rw [Int32.toInt_toInt64] at heq
    -- 35791 is the last number of minutes whose milliseconds fit in 31 bits
    have hlt := (ttl * 60 * 1000).toInt_lt
    omega
  · intro hle
    rw [millis_of_ttl]
    exact Int.bmod_eq_of_le (by omega) (by omega)

/-! ### An execution -/

/-- The update rate at the start of an execution. -/
def startRate (env : FetchEnv) (job : FeedData) : Int64 :=
  if job.updateRate < 1000 then env.defaultRate.toInt64 else job.updateRate

theorem startRate_pos {env : FetchEnv} (hdefault : 0 < env.defaultRate.toInt) (job : FeedData) :
    0 < (startRate env job).toInt := by
  unfold startRate
  split
  · rwa [Int32.toInt_toInt64]
  -- a rate of the job is only used from a second on
  next h =>
    rw [Int64.lt_iff_toInt_lt] at h
    have h1000 : (1000 : Int64).toInt = 1000 := rfl
    omega

/-- The update rate and the next time of an execution. -/
def refresh (env : FetchEnv) (fetched : Option SyndFeed) (job : FeedData) : Int64 × Int64 :=
  match fetched with
  | none => (startRate env job, env.started + startRate env job)
  | some feed => adjust env feed (startRate env job) (env.started + startRate env job)

/-- An execution that comes to its end schedules what it has computed. -/
theorem scheduled_eq_refresh {env : FetchEnv} {fetched : Option SyndFeed} {job job' : FeedData}
    {db : FeedDb} {time : Int64}
    (h : (RssFetchJob.execute env fetched job db).scheduled = some (job', time)) :
    refresh env fetched job = (job'.updateRate, time) := by
  -- the call at the end of each branch schedules the two numbers it is given
  have hresult : ∀ {db lastDate rate t}, (reschedule env job db lastDate rate t).scheduled =
      some (job', time) → (rate, t) = (job'.updateRate, time) := by
    intro db lastDate rate t h
    obtain ⟨rfl, rfl⟩ := Prod.mk.inj (Option.some.inj h)
    rfl
  unfold RssFetchJob.execute at h
  unfold refresh
  cases fetched with
  | none => exact hresult h
  | some feed =>
    dsimp only at h ⊢
    split at h
    -- with a date to compare, an insert that throws ends the execution before that
    · split at h
      · simp at h
      · split at h
        · simp at h
        · exact hresult h
    · exact hresult h

/-- **What an execution computes**: the next time lies behind its start and not before the
end of the time to live, which is the next update rate. -/
structure Refreshes (env : FetchEnv) (fetched : Option SyndFeed) (updateRate time : Int64) :
    Prop where
  later : env.started < time
  notBefore : ∀ feed ttl d, fetched = some feed → feed.ttl = some ttl → 0 < ttl.toInt →
    feed.publishedDate = some d → d + ttl.toInt * 60000 ≤ time.toInt
  rate : ∀ feed ttl, fetched = some feed → feed.ttl = some ttl → 0 < ttl.toInt →
    updateRate.toInt = ttl.toInt * 60000

/-- **The condition**: the time to live is small enough, and so is the reading of the clock
that the next time is computed from. -/
structure Representable (env : FetchEnv) (fetched : Option SyndFeed) (job : FeedData) : Prop where
  ttl : ∀ feed ttl, fetched = some feed → feed.ttl = some ttl → ttl.toInt ≤ 35791
  started : (∀ feed ttl d, fetched = some feed → feed.ttl = some ttl → feed.publishedDate = some d →
      ttl.toInt ≤ 0) →
    env.started.toInt + (startRate env job).toInt < 2 ^ 63
  late : ∀ feed ttl d, fetched = some feed → feed.ttl = some ttl → 0 < ttl.toInt →
    feed.publishedDate = some d → d + ttl.toInt * 60000 ≤ env.compared.toInt →
      env.late.toInt + 60000 < 2 ^ 63

section

variable {env : FetchEnv} {job : FeedData} {feed : SyndFeed}

/-- Without a date or a time to live, the next time is a rate after the start. -/
theorem refreshes_plain {fetched : Option SyndFeed} {rate : Int64}
    (hdefault : 0 < env.defaultRate.toInt)
    (hplain : ∀ feed ttl d, fetched = some feed → feed.ttl = some ttl →
      feed.publishedDate = some d → ttl.toInt ≤ 0)
    (hrate : ∀ feed ttl, fetched = some feed → feed.ttl = some ttl → 0 < ttl.toInt →
      rate = (ttl * 60 * 1000).toInt64) :
    Refreshes env fetched rate (env.started + startRate env job) ↔ Representable env fetched job := by
  have hlater := lt_add_iff (a := env.started) (startRate_pos hdefault job)
  constructor
  -- the rate is the product, and exact only for a short time to live
  · rintro ⟨h, -, hr⟩
    refine ⟨fun feed ttl hf ht => ?_, fun _ => hlater.mp h, fun feed ttl d hf ht hpos hd => ?_⟩
    · apply Int.not_lt.mp
      intro hgt
      have hpos : 0 < ttl.toInt := by omega
      have hexact := hr feed ttl hf ht hpos
      rw [hrate feed ttl hf ht hpos, millis_of_ttl_eq_iff hpos] at hexact
      omega
    -- there is no date together with a positive time to live
    · exact absurd (hplain feed ttl d hf ht hd) (Int.not_le.mpr hpos)
  · rintro ⟨hfits, hstarted, -⟩
    refine ⟨hlater.mpr (hstarted hplain), fun feed ttl d hf ht hpos hd => ?_,
      fun feed ttl hf ht hpos => ?_⟩
    · exact absurd (hplain feed ttl d hf ht hd) (Int.not_le.mpr hpos)
    · rw [hrate feed ttl hf ht hpos]
      exact (millis_of_ttl_eq_iff hpos).mpr (hfits feed ttl hf ht)

section

variable {ttl : Int32} {d : Int}

/-- The time to live and the date of this feed are the only ones. -/
theorem refreshes_of_ttl_iff (httl : feed.ttl = some ttl) (hpos : 0 < ttl.toInt)
    (hd : feed.publishedDate = some d) {rate time : Int64} :
    Refreshes env (some feed) rate time ↔ env.started < time ∧
      d + ttl.toInt * 60000 ≤ time.toInt ∧ rate.toInt = ttl.toInt * 60000 := by
  constructor
  · rintro ⟨hlater, hbefore, hrate⟩
    exact ⟨hlater, hbefore feed ttl d rfl httl hpos hd, hrate feed ttl rfl httl hpos⟩
  · rintro ⟨hlater, hbefore, hrate⟩
    refine ⟨hlater, ?_, ?_⟩
    · intro feed' ttl' d' hf ht _ hd'
      obtain rfl := Option.some.inj hf
      obtain rfl := Option.some.inj (httl.symm.trans ht)
      obtain rfl := Option.some.inj (hd.symm.trans hd')
      exact hbefore
    · intro feed' ttl' hf ht _
      obtain rfl := Option.some.inj hf
      obtain rfl := Option.some.inj (httl.symm.trans ht)
      exact hrate

@[inherit_doc refreshes_of_ttl_iff]
theorem representable_of_ttl_iff (httl : feed.ttl = some ttl) (hpos : 0 < ttl.toInt)
    (hd : feed.publishedDate = some d) :
    Representable env (some feed) job ↔ ttl.toInt ≤ 35791 ∧
      (d + ttl.toInt * 60000 ≤ env.compared.toInt → env.late.toInt + 60000 < 2 ^ 63) := by
  constructor
  · rintro ⟨hfits, -, hlate⟩
    exact ⟨hfits feed ttl rfl httl, hlate feed ttl d rfl httl hpos hd⟩
  · rintro ⟨hfits, hlate⟩
    refine ⟨?_, ?_, ?_⟩
    · intro feed' ttl' hf ht
      obtain rfl := Option.some.inj hf
      obtain rfl := Option.some.inj (httl.symm.trans ht)
      exact hfits
    · intro h
      exact absurd (h feed ttl d rfl httl hd) (Int.not_le.mpr hpos)
    · intro feed' ttl' d' hf ht _ hd'
      obtain rfl := Option.some.inj hf
      obtain rfl := Option.some.inj (httl.symm.trans ht)
      obtain rfl := Option.some.inj (hd.symm.trans hd')
      exact hlate

/-- The end of the time to live, once the product is exact. -/
theorem toInt_end (hpos : 0 < ttl.toInt) (hle : ttl.toInt ≤ 35791) (hd₀ : 0 ≤ d)
    (hd₁ : d < 253402300800000) :
    (Int64.ofInt d + (ttl * 60 * 1000).toInt64).toInt = d + ttl.toInt * 60000 := by
  have hdate : (Int64.ofInt d).toInt = d := Int64.toInt_ofInt_of_le (by omega) (by omega)
  have hexact := (millis_of_ttl_eq_iff hpos).mpr hle
  rw [toInt_add_of_lt (by rw [hdate, hexact]; omega) (by rw [hdate, hexact]; omega), hdate, hexact]

/-- A minute later. -/
theorem toInt_add_minute {t : Int64} (ht : 0 ≤ t.toInt) :
    (t + 60000).toInt =
      if t.toInt + 60000 < 2 ^ 63 then t.toInt + 60000 else t.toInt + 60000 - 2 ^ 64 := by
  have hminute : (60000 : Int64).toInt = 60000 := rfl
  split
  next hlt => rw [toInt_add_of_lt (by rw [hminute]; omega) (by rwa [hminute]), hminute]
  next hge => rw [toInt_add_of_le (by rw [hminute]; omega), hminute]

/-- With them, the next time follows the date. -/
theorem refreshes_synchronized (httl : feed.ttl = some ttl)
    (hpos : 0 < ttl.toInt) (hd : feed.publishedDate = some d) (hd₀ : 0 ≤ d)
    (hd₁ : d < 253402300800000) (hclock : env.started ≤ env.compared)
    (hclock' : env.compared ≤ env.late) :
    Refreshes env (some feed) (ttl * 60 * 1000).toInt64
        (if env.compared < Int64.ofInt d + (ttl * 60 * 1000).toInt64 then
          Int64.ofInt d + (ttl * 60 * 1000).toInt64 + 60000
        else env.late + 60000) ↔
      Representable env (some feed) job := by
  rw [refreshes_of_ttl_iff httl hpos hd, representable_of_ttl_iff httl hpos hd]
  rw [Int64.le_iff_toInt_le] at hclock hclock'
  -- with an exact product, the test of the code is the test of the numbers
  have hcompared : ttl.toInt ≤ 35791 → (env.compared < Int64.ofInt d + (ttl * 60 * 1000).toInt64 ↔
      env.compared.toInt < d + ttl.toInt * 60000) := by
    intro hle
    rw [Int64.lt_iff_toInt_lt, toInt_end hpos hle hd₀ hd₁]
  constructor
  · rintro ⟨-, hbefore, hrate⟩
    -- the rate alone bounds the time to live
    have hle := (millis_of_ttl_eq_iff hpos).mp hrate
    refine ⟨hle, ?_⟩
    intro hlate
    rw [if_neg fun h => Int.not_lt.mpr hlate ((hcompared hle).mp h)] at hbefore
    -- a clock that wraps would be before the end of the time to live
    by_contra hwrap
    rw [toInt_add_minute (by omega), if_neg hwrap] at hbefore
    have hlt := env.late.toInt_lt
    omega
  · rintro ⟨hle, hlate⟩
    refine and_assoc.mp ⟨?_, (millis_of_ttl_eq_iff hpos).mpr hle⟩
    rw [Int64.lt_iff_toInt_lt]
    have hend := toInt_end hpos hle hd₀ hd₁
    split
    -- the time to live has not passed: a minute behind its end, which fits in the range
    next hlt =>
      rw [hcompared hle] at hlt
      rw [toInt_add_minute (by omega), if_pos (by omega), hend]
      omega
    -- it has passed: a minute behind the present time
    next hge =>
      rw [hcompared hle] at hge
      have hend' := Int.not_lt.mp hge
      rw [toInt_add_minute (by omega), if_pos (hlate hend')]
      omega

end

end

/-- The next time is computed from the start. -/
structure Plain (env : FetchEnv) (fetched : Option SyndFeed) (job : FeedData) (rate : Int64) :
    Prop where
  refresh : refresh env fetched job = (rate, env.started + startRate env job)
  plain : ∀ feed ttl d, fetched = some feed → feed.ttl = some ttl → feed.publishedDate = some d →
    ttl.toInt ≤ 0
  rate : ∀ feed ttl, fetched = some feed → feed.ttl = some ttl → 0 < ttl.toInt →
    rate = (ttl * 60 * 1000).toInt64

/-- **Where the next time comes from**: the start, or the date and the time to live. -/
theorem refresh_cases (env : FetchEnv) (fetched : Option SyndFeed) (job : FeedData) :
    (∃ rate, Plain env fetched job rate) ∨
      ∃ feed ttl d, fetched = some feed ∧ feed.ttl = some ttl ∧ 0 < ttl.toInt ∧
        feed.publishedDate = some d ∧
        refresh env fetched job =
          ((ttl * 60 * 1000).toInt64,
            if env.compared < Int64.ofInt d + (ttl * 60 * 1000).toInt64 then
              Int64.ofInt d + (ttl * 60 * 1000).toInt64 + 60000
            else env.late + 60000) := by
  -- the cases in which `adjust` has nothing to do, and last the one in which it has
  cases fetched with
  | none => exact .inl ⟨_, rfl, by simp, by simp⟩
  | some feed =>
    cases httl : feed.ttl with
    | none =>
      refine .inl ⟨startRate env job, ?_, ?_, ?_⟩
      · rw [refresh, adjust, httl]
      · rintro feed' ttl d hf ht -
        obtain rfl := Option.some.inj hf
        simp [httl] at ht
      · rintro feed' ttl hf ht -
        obtain rfl := Option.some.inj hf
        simp [httl] at ht
    | some ttl =>
      by_cases hpos : 0 < ttl.toInt
      · have hlt : (0 : Int32) < ttl := Int32.lt_iff_toInt_lt.mpr hpos
        cases hd : feed.publishedDate with
        | none =>
          -- the rate becomes the time to live, but the next time needs the date
          refine .inl ⟨(ttl * 60 * 1000).toInt64, ?_, ?_, ?_⟩
          · rw [refresh, adjust, httl, hd]
            dsimp only
            rw [if_pos hlt]
          · rintro feed' ttl' d hf - hd'
            obtain rfl := Option.some.inj hf
            simp [hd] at hd'
          · rintro feed' ttl' hf ht -
            obtain rfl := Option.some.inj hf
            obtain rfl := Option.some.inj (httl.symm.trans ht)
            rfl
        | some d =>
          refine .inr ⟨feed, ttl, d, rfl, httl, hpos, hd, ?_⟩
          rw [refresh, adjust, httl, hd]
          dsimp only
          rw [if_pos hlt]
          split <;> rfl
      · have hnlt : ¬ (0 : Int32) < ttl := fun h => hpos (Int32.lt_iff_toInt_lt.mp h)
        refine .inl ⟨startRate env job, ?_, ?_, ?_⟩
        · rw [refresh, adjust, httl]
          dsimp only
          rw [if_neg hnlt]
        · rintro feed' ttl' d hf ht -
          obtain rfl := Option.some.inj hf
          obtain rfl := Option.some.inj (httl.symm.trans ht)
          exact Int.not_lt.mp hpos
        · rintro feed' ttl' hf ht hgt
          obtain rfl := Option.some.inj hf
          obtain rfl := Option.some.inj (httl.symm.trans ht)
          exact absurd hgt hpos

/-- **When the next fetch comes at the right time.** For all data of the job, every default
rate that is positive, every answer of the fetch with any time to live and a date that
is absent or from the years 1970 to 9999, and all readings of a clock that does not go
back: the next time is later than the start of the execution and not before the end of
the time to live, and the next update rate is the time to live, if and only if the time
to live is at most 35791 minutes and the clock is not at the end of its range. -/
theorem refreshes_iff {env : FetchEnv} {fetched : Option SyndFeed} {job job' : FeedData}
    {db : FeedDb} {time : Int64} (hdefault : 0 < env.defaultRate)
    (hdate : ∀ feed d, fetched = some feed → feed.publishedDate = some d →
      0 ≤ d ∧ d < 253402300800000)
    (hclock : env.started ≤ env.compared ∧ env.compared ≤ env.late)
    (hscheduled : (RssFetchJob.execute env fetched job db).scheduled = some (job', time)) :
    Refreshes env fetched job'.updateRate time ↔ Representable env fetched job := by
  have hrefresh := scheduled_eq_refresh hscheduled
  rcases refresh_cases env fetched job with
    ⟨rate, heq, hplain, hrate⟩ | ⟨feed, ttl, d, rfl, httl, hpos, hd, heq⟩
  · obtain ⟨rfl, rfl⟩ := Prod.mk.inj (heq.symm.trans hrefresh)
    exact refreshes_plain (Int32.lt_iff_toInt_lt.mp hdefault) hplain hrate
  · obtain ⟨hrate, rfl⟩ := Prod.mk.inj (heq.symm.trans hrefresh)
    obtain ⟨hd₀, hd₁⟩ := hdate feed d rfl hd
    rw [← hrate]
    exact refreshes_synchronized httl hpos hd hd₀ hd₁ hclock.1 hclock.2

/-- A feed without entries. -/
def emptyFeed (publishedDate : Option Date) (ttl : Int32) : SyndFeed := ⟨publishedDate, [], some ttl⟩

/-- A time to live of an hour. -/
theorem refreshes_hour :
    Refreshes calmEnv (some (emptyFeed (some 0) 60)) 3600000 3660000 := by
  have hscheduled : (RssFetchJob.execute calmEnv (some (emptyFeed (some 0) 60))
      ⟨lit "f", lit "u", some [], 0⟩ ⟨[], none⟩).scheduled =
        some (⟨lit "f", lit "u", some (lit "1/1/70 12:00 AM"), 3600000⟩, 3660000) := by
    decide +kernel
  refine (refreshes_iff (by decide) ?_ (by decide) hscheduled).mpr ⟨?_, ?_, ?_⟩
  · intro feed d hf hd
    obtain rfl := Option.some.inj hf
    obtain rfl := Option.some.inj hd
    decide
  · intro feed ttl hf httl
    obtain rfl := Option.some.inj hf
    obtain rfl := Option.some.inj httl
    decide
  · intro _
    decide
  · intro _ _ _ _ _ _ _ _
    decide

/-- **A time to live of 25 days.** The product is negative: it is the next update rate, and
the job is executed again in a minute. -/
theorem ttl_overflows :
    (RssFetchJob.execute calmEnv (some (emptyFeed (some 0) 36000))
        ⟨lit "f", lit "u", some [], 0⟩ ⟨[], none⟩).scheduled =
          some (⟨lit "f", lit "u", some (lit "1/1/70 12:00 AM"), -2134967296⟩, 60000) ∧
      ¬ Refreshes calmEnv (some (emptyFeed (some 0) 36000)) (-2134967296) 60000 := by
  refine ⟨by decide +kernel, fun h => ?_⟩
  exact absurd (h.rate _ 36000 rfl rfl (by decide)) (by decide)

end RssFetcher
