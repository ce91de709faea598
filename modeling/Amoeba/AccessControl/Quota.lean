import Amoeba.AccessControl.Bucket

/-!
# Hourly quotas

The table stores a number of requests per hour, and the limiter works with thousandths
of requests per second. In between the handler divides by 3600 and adds one, which is
rounding up except for the multiples of 3600; only the first of these, one request per
second, is a case of its own.

* `hourlyQuota_iff` — the rate is the quota rounded up to whole requests per second, and
  what is admitted in an hour keeps to it, if and only if the quota is no other multiple
  of 3600, or is so large that the rate is capped.
-/

namespace AccessControl

/-! ### From the quota to the rate -/

/-- The least whole number of requests per second that is enough for `h` in an hour. -/
def perSecond (h : Nat) : Nat := (h + 3599) / 3600

theorem maxtpsOf_natCast (h : Nat) :
    maxtpsOf h =
      if h ≤ 3600 then 1000
      else min ((h / 3600 + 1) * 1000) ngxMaxTpsMs := by
  have hdiv : ((h : Int) / 3600).toNat = h / 3600 := by omega
  have hle : (h : Int) ≤ 3600 ↔ h ≤ 3600 := by omega
  unfold maxtpsOf
  rw [hdiv]
  by_cases hsmall : h ≤ 3600
  · rw [if_pos (hle.mpr hsmall), if_pos hsmall]
  · rw [if_neg (mt hle.mp hsmall), if_neg hsmall]
    dsimp only
    split
    next hlt => exact (Nat.min_eq_left hlt.le).symm
    next hge => exact (Nat.min_eq_right (Nat.le_of_not_lt hge)).symm

/-- The quotas that become the right rate. -/
def Rounds (h : Nat) : Prop := ¬ 3600 ∣ h ∨ h = 3600 ∨ 360000000 ≤ h

/-- **The rate is rounded up**, and capped. -/
theorem maxtpsOf_eq_iff {h : Nat} (hh : 1 ≤ h) :
    maxtpsOf h = min (1000 * perSecond h) ngxMaxTpsMs ↔ Rounds h := by
  rw [maxtpsOf_natCast, perSecond, Rounds, ngxMaxTpsMs]
  have hdecomp := Nat.div_add_mod h 3600
  have hdvd : 3600 ∣ h ↔ h % 3600 = 0 := Nat.dvd_iff_mod_eq_zero
  rw [hdvd]
  split <;> omega

/-! ### An hour of requests -/

variable {W : Type} [Fintype W] [DecidableEq W]

/-- **What a quota promises**: the rate is the quota rounded up to whole requests per
second, as long as it is not capped, and in the hour after an admission the key spends
no more than this rate and its burst allow, in every run in which its node stays. -/
structure HourlyQuota (W : Type) [Fintype W] [DecidableEq W] (h b : Nat) : Prop where
  rate : maxtpsOf h = min (1000 * perSecond h) ngxMaxTpsMs
  hour : ∀ (s : Shared W) (w : W) (q : Query) (i : Nat) (run : List (W × Event)),
    Reachable .exact s → q.account = true → q.burst = b → q.maxtps = maxtpsOf h →
    (lookup .exact s.zone q).rc = .ok →
    (lookup .exact s.zone q).zone.queue.head?.map Node.id = some i →
    (∀ w, s.node w ≠ some i) →
    Served q.hash q.data b (maxtpsOf h) i .exact (s.exec .exact w (.lookup q)) q.now run →
    (arrivals q.hash q.data .exact (s.exec .exact w (.lookup q)) run).countP
      (fun a => a.2 = .ok ∧ a.1 ≤ q.now + 3600000) ≤ (3600 + b) * perSecond h

/-- A rate of `r` requests per second allows `3600 * r` in an hour, and the burst. -/
theorem hour_le {m b r n : Nat} (hm : m ≤ 1000 * r) (hn : 1000 * n ≤ b * m + m * 3600000 / 1000) :
    n ≤ (3600 + b) * r := by
  -- an hour has 3600000 milliseconds, and the rate is in thousandths
  have hhour : m * 3600000 / 1000 = 3600 * m := by omega
  have htotal : 1000 * n ≤ 1000 * ((3600 + b) * r) :=
    calc 1000 * n ≤ b * m + 3600 * m := hhour ▸ hn
      _ = (3600 + b) * m := by ring
      _ ≤ (3600 + b) * (1000 * r) := Nat.mul_le_mul_left _ hm
      _ = 1000 * ((3600 + b) * r) := by ring
  exact Nat.le_of_mul_le_mul_left htotal (by decide)

/-- **When a quota is kept.** For every positive hourly quota, every burst and every run:
if and only if the quota is not a multiple of 3600, or is 3600, or is at least the
100000 requests per second at which the rate is capped. -/
theorem hourlyQuota_iff {h b : Nat} (hh : 1 ≤ h) : HourlyQuota W h b ↔ Rounds h := by
  constructor
  · intro hquota
    exact (maxtpsOf_eq_iff hh).mp hquota.rate
  · intro hrounds
    have hrate := (maxtpsOf_eq_iff hh).mpr hrounds
    refine ⟨hrate, fun s w q i run hs hacc hb hm hok hi hfree hrun => ?_⟩
    rw [← hb, ← hm] at hrun
    -- what an admitted key can spend in the hour, from the bucket
    have hle := further_le hs hacc hok hi hfree hrun 3600000
    rw [hb, hm] at hle
    exact hour_le (hrate ▸ Nat.min_le_left _ _) hle

/-! ### A key on its own -/

/-- A lookup of a key that the zone charges. -/
def keyQuery (hash : Nat) (data : List UInt8) (b m now : Nat) : Query where
  hash := hash
  data := data
  account := true
  maxtps := m
  burst := b
  now := now
  meets := 0
  alloc := true
  realloc := true

/-- Lookups of the key at these times. -/
def keyRun (w : W) (hash : Nat) (data : List UInt8) (b m : Nat) (times : List Nat) :
    List (W × Event) :=
  times.map fun now => (w, .lookup (keyQuery hash data b m now))

section

variable {w : W} {hash b m i : Nat} {data : List UInt8} {s : Shared W} {lr : Node}

omit [Fintype W] in
/-- In a zone with one node, a lookup of its key leaves one node, of this key. -/
theorem exec_keyQuery (hqueue : s.zone.queue = [lr]) (hid : lr.id = i)
    (hm : lr.Matches hash data) (now : Nat) :
    ((keyQuery hash data b m now).search s.zone.queue).map Node.id = some i ∧
      ∃ lr', (s.exec .exact w (.lookup (keyQuery hash data b m now))).zone.queue = [lr'] ∧
        lr'.id = i ∧ lr'.Matches hash data := by
  -- the only node of the queue is that of the key
  have hsearch : (keyQuery hash data b m now).search s.zone.queue = some lr := by
    simp [Query.search, keyQuery, hqueue, hm]
  refine ⟨by rw [hsearch, Option.map_some, hid], ?_⟩
  rcases lookup_cases .exact s.zone (keyQuery hash data b m now) with
    ⟨x, hx, -, heq⟩ | ⟨x, hx, -, heq⟩ | ⟨hnone, -, -⟩ | ⟨hnone, -, -⟩
  · obtain rfl := Option.some.inj (hsearch.symm.trans hx)
    exact ⟨lr, by simp [Shared.exec, heq, hqueue], hid, hm⟩
  · obtain rfl := Option.some.inj (hsearch.symm.trans hx)
    refine ⟨(keyQuery hash data b m now).touch .exact lr, by simp [Shared.exec, heq, hqueue], ?_, ?_⟩
    · rw [Query.touch_id, hid]
    · -- charging a node does not change its key
      exact hm
  · simp [hsearch] at hnone
  · simp [hsearch] at hnone

omit [Fintype W] in
/-- Such lookups, at times that do not go back, all meet the node. -/
theorem served_keyRun (hqueue : s.zone.queue = [lr]) (hid : lr.id = i) (hm : lr.Matches hash data)
    {t : Nat} {times : List Nat} (hchain : (t :: times).IsChain (· ≤ ·)) :
    Served hash data b m i .exact s t (keyRun w hash data b m times) ∧
      (arrivals hash data .exact s (keyRun w hash data b m times)).map Prod.fst = times := by
  induction times generalizing s t lr with
  | nil => exact ⟨trivial, rfl⟩
  | cons now times ih =>
    obtain ⟨hle, hrest⟩ := List.isChain_cons_cons.mp hchain
    -- the node stays the only one, so the next lookup meets it too
    obtain ⟨hmeets, lr', hqueue', hid', hm'⟩ :=
      exec_keyQuery (b := b) (m := m) (w := w) hqueue hid hm now
    obtain ⟨hserved, htimes⟩ := ih hqueue' hid' hm' hrest
    have hkey : (keyQuery hash data b m now).hash = hash ∧ (keyQuery hash data b m now).data = data :=
      ⟨rfl, rfl⟩
    rw [keyRun, List.map_cons, Served, arrivals, if_pos hkey, if_pos hkey]
    refine ⟨⟨rfl, rfl, rfl, hle, hmeets, hserved⟩, ?_⟩
    rw [List.singleton_append, List.map_cons]
    exact congrArg (now :: ·) htimes

end

/-- `n` times, each `D` behind the one before. -/
def everyD (t D n : Nat) : List Nat := (List.range n).map fun j => t + D * (j + 1)

theorem length_everyD (t D n : Nat) : (everyD t D n).length = n := by
  rw [everyD, List.length_map, List.length_range]

theorem everyD_isChain (t D n : Nat) : (t :: everyD t D n).IsChain (fun x y => x + D ≤ y) := by
  have hlist : t :: everyD t D n = (List.range (n + 1)).map fun j => t + D * j := by
    simp [everyD, List.range_succ_eq_map, Function.comp_def]
  rw [hlist, List.isChain_map]
  refine List.isChain_range _ _ |>.mpr fun j _ => ?_
  rw [Nat.mul_succ, Nat.add_assoc]

/-- **A steady client**: a new key with one request every `D` milliseconds, which pay for
it, is admitted each time. -/
theorem steady_admitted {hash b m t D n T : Nat} {data : List UInt8}
    (hm : ((keyQuery hash data b m t).fresh .exact 0).Matches hash data) (hD : 1000000 ≤ m * D)
    (hT : D * n ≤ T) :
    (arrivals hash data .exact
      ((Shared.initial : Shared Unit).exec .exact () (.lookup (keyQuery hash data b m t)))
      (keyRun () hash data b m (everyD t D n))).countP
        (fun a => a.2 = .ok ∧ a.1 ≤ t + T) = n := by
  have hchain := everyD_isChain t D n
  have hmono : (t :: everyD t D n).IsChain (· ≤ ·) :=
    hchain.imp fun _ _ h => (Nat.le_add_right _ _).trans h
  have hqueue : ((Shared.initial : Shared Unit).exec .exact ()
      (.lookup (keyQuery hash data b m t))).zone.queue =
        [(keyQuery hash data b m t).fresh .exact 0] := rfl
  obtain ⟨hserved, htimes⟩ := served_keyRun (w := ()) (b := b) (m := m) hqueue rfl hm hmono
  have hok := further_ok (s := (Shared.initial : Shared Unit)) (w := ())
    (q := keyQuery hash data b m t) .refl rfl rfl rfl (by simp [Shared.initial]) hserved hD
    (htimes.symm ▸ hchain)
  have hlength := congrArg List.length htimes
  rw [List.length_map, length_everyD] at hlength
  refine (List.countP_eq_length.mpr fun a ha => ?_).trans hlength
  refine decide_eq_true ⟨hok a ha, ?_⟩
  -- no time is behind the last one
  obtain ⟨j, hj, hja⟩ := List.mem_map.mp (htimes ▸ List.mem_map_of_mem ha : a.1 ∈ everyD t D n)
  rw [← hja]
  exact Nat.add_le_add_left ((Nat.mul_le_mul_left D (List.mem_range.mp hj)).trans hT) t

/-- A quota of 5000 in an hour is two requests per second. -/
theorem hourlyQuota_5000 : HourlyQuota Unit 5000 10 :=
  (hourlyQuota_iff (by decide)).mpr (.inl (by decide))

/-- **A quota of 7200 in an hour** becomes three requests per second instead of two: a key
that sends one every 334 milliseconds is admitted 10778 times in the hour. -/
theorem quota_exceeded :
    maxtpsOf 7200 = 3000 ∧ (3600 + 0) * perSecond 7200 = 7200 ∧
      (arrivals 7 [0x6b] .exact
        ((Shared.initial : Shared Unit).exec .exact () (.lookup (keyQuery 7 [0x6b] 0 3000 5000)))
        (keyRun () 7 [0x6b] 0 3000 (everyD 5000 334 10778))).countP
          (fun a => a.2 = .ok ∧ a.1 ≤ 5000 + 3600000) = 10778 ∧
      ¬ HourlyQuota Unit 7200 0 := by
  refine ⟨by decide, by decide, ?_, fun h => ?_⟩
  · exact steady_admitted (by decide) (by decide) (by decide)
  · exact absurd h.rate (by decide)

end AccessControl
