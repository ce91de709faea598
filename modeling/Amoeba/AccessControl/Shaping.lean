import Mathlib.Data.Rat.Cast.Order
import Mathlib.Algebra.Order.Field.Basic
import Mathlib.Tactic.Linarith
import Amoeba.TokenBucket.Shaping
import Amoeba.AccessControl.Bucket
import Amoeba.AccessControl.Release

/-!
# Delays

A zone without `nodelay` lets the requests within the burst wait: the handler divides the
charged excess by the rate and starts a timer of so many milliseconds. Both the excess
and the delay come from divisions that round down.

* `handler_single` — what the handler makes of the answer of a location's only zone.
* `releases_eq` — the admitted lookups of a key and their delays are those of the
  bucket.
* `delay_shaping` — no delay is longer than the burst is worth, and the requests of a key
  are let go in order and at the distance of the rate, up to one millisecond.
-/

namespace AccessControl

open Nginx TokenBucket

/-- The delay of a request that the last zone has charged. -/
def releaseDelay (A : Arith) (excess maxtps : Nat) : Nat :=
  if excess = 0 then 0 else A.delay excess maxtps

theorem releaseDelay_exact (excess maxtps : Nat) :
    releaseDelay .exact excess maxtps = excess * 1000 / maxtps := by
  unfold releaseDelay
  split
  next h => rw [h, Nat.zero_mul, Nat.zero_div]
  next => rfl

/-- What the handler returns for the answer of the last zone. -/
def Answer.outcome (a : Answer) (A : Arith) (statusCode : Nat) (readEventOk : Bool)
    (maxtps : Nat) : Outcome :=
  if a.rc = .ok then
    if releaseDelay A a.excess maxtps = 0 then .declined
    else if readEventOk then .delayed (releaseDelay A a.excess maxtps) else .status 500
  else .status statusCode

/-- **A location with a single zone**, and without `nodelay`: the zone is asked to account,
and its answer decides. -/
theorem handler_single {A : Arith} {r : Request} {slot : Slot} {g : Grant}
    (hr : r.accessControlSet = false) (hg : (check slot.limit.table r).verdict = .grant g)
    (hnodelay : slot.limit.nodelay = false) (statusCode : Nat) (readEventOk : Bool) :
    (handler A statusCode readEventOk r [slot]).outcome =
        (lookup A slot.zone (slot.query g true)).outcome A statusCode readEventOk g.maxtps ∧
      (handler A statusCode readEventOk r [slot]).slots.map Slot.zone =
        [(lookup A slot.zone (slot.query g true)).zone] := by
  obtain ⟨hrc, hbefore, hafter, hstop⟩ := zoneLoop_end (A := A)
    (fun _ => (rfl : ([] : List Slot) = [])) hg []
  change (lookup A slot.zone (slot.query g true)).rc ≠ .again at hrc
  unfold handler
  dsimp only
  rw [hr, if_neg (by decide), hstop, hbefore, hafter, hnodelay]
  unfold Answer.outcome releaseDelay
  dsimp only [List.isEmpty_nil]
  cases hcode : (lookup A slot.zone (slot.query g true)).rc with
  | again => exact absurd hcode hrc
  | ok => simp [account, Slot.answered]
  | busy => simp [Slot.answered]
  | error => simp [Slot.answered]

/-! ### The releases of a key -/

variable {W : Type} [Fintype W] [DecidableEq W]

section

variable (hash : Nat) (data : List UInt8)

/-- The admitted lookups of the key along a run: the clock and the delay of each. -/
def releases (A : Arith) (s : Shared W) : List (W × Event) → List (Nat × Nat)
  | [] => []
  | (w, .lookup q) :: rest =>
    (if (q.hash = hash ∧ q.data = data) ∧ (lookup A s.zone q).rc = .ok then
      [(q.now, releaseDelay A (lookup A s.zone q).excess q.maxtps)]
    else []) ++ releases A (s.exec A w (.lookup q)) rest
  | (w, e) :: rest => releases A (s.exec A w e) rest

end

variable {hash : Nat} {data : List UInt8} {i : Nat} {k : Meter} {s : Shared W}

/-- **The delays refine the bucket's**: along every run in which the node of the key is
not removed, the releases of the key are those of its arrivals at the bucket. -/
theorem releases_eq {b m t : Nat} {run : List (W × Event)} (h : Follows hash data i k s)
    (hrun : Served hash data b m i .exact s t run) (ht : k.last ≤ t) :
    releases hash data .exact s run =
      k.releases (bucket b m) m 1000 ((arrivals hash data .exact s run).map Prod.fst) := by
  -- on the run, with the meter and the time of the last lookup of the key
  induction run generalizing s k t with
  | nil => rfl
  | cons e run ih =>
    obtain ⟨w, e⟩ := e
    cases e with
    | lookup q =>
      rw [releases, arrivals]
      rw [Served] at hrun
      by_cases hq : q.hash = hash ∧ q.data = data
      · rw [if_pos hq] at hrun ⊢
        obtain ⟨hacc, rfl, rfl, hnow, hmeets, hrest⟩ := hrun
        obtain ⟨hrc, hexcess, hnext⟩ := h.arrive w hacc hmeets (ht.trans hnow)
        have hlast := Meter.arrive_last_le (c := bucket q.burst q.maxtps) (ht.trans hnow)
        rw [List.singleton_append, List.map_cons, Meter.releases, ih hnext hrest hlast]
        by_cases hle : k.offer (bucket q.burst q.maxtps) q.now ≤
            (bucket q.burst q.maxtps).capacity
        · have hok : (lookup .exact s.zone q).rc = .ok := by rw [hrc, if_pos hle]
          have harrive : (k.arrive (bucket q.burst q.maxtps) q.now).excess =
              (lookup .exact s.zone q).excess := by
            rw [Meter.arrive, if_pos hle, hexcess]
          rw [if_pos ⟨hq, hok⟩, if_pos hle, Meter.delay, harrive, releaseDelay_exact]
          rfl
        · have hbusy : (lookup .exact s.zone q).rc ≠ .ok := by simp [hrc, hle]
          rw [if_neg fun hboth => hbusy hboth.2, if_neg hle, Meter.arrive, if_neg hle]
          rfl
      · rw [if_neg hq] at hrun ⊢
        rw [if_neg fun hboth => hq hboth.1, List.nil_append, List.nil_append]
        exact ih (h.other .exact w hq) hrun ht
    | account now maxtps => exact ih (h.giveUp .exact (by simp)) hrun ht
    | rollback => exact ih (h.giveUp .exact (by simp)) hrun ht

omit [Fintype W] in
/-- Where no lookup of the key is left, nothing is let go. -/
theorem releases_eq_nil {A : Arith} {run : List (W × Event)}
    (h : arrivals hash data A s run = []) : releases hash data A s run = [] := by
  induction run generalizing s with
  | nil => rfl
  | cons e run ih =>
    obtain ⟨w, e⟩ := e
    cases e with
    | lookup q =>
      rw [arrivals] at h
      obtain ⟨hq, hrest⟩ := List.append_eq_nil_iff.mp h
      rw [releases, ih hrest]
      have hother : ¬ (q.hash = hash ∧ q.data = data) := by simpa using hq
      rw [if_neg fun hboth => hother hboth.1, List.nil_append]
    | account now maxtps => exact ih h
    | rollback => exact ih h

/-! ### Order and distance -/

/-- The distance of two releases of a key, in milliseconds. -/
theorem spaced_bucket {b m : Nat} (hm : 0 < m) {x y : Nat × Nat}
    (h : Spaced (bucket b m) m 1000 x y) :
    x.1 + x.2 ≤ y.1 + y.2 ∧
      ((x.1 + x.2 : Nat) : Rat) + 1000000 / m - 1 < ((y.1 + y.2 : Nat) : Rat) := by
  refine ⟨h.1, ?_⟩
  have hm' : (0 : Rat) < m := by exact_mod_cast hm
  have hnat : m * (x.1 + x.2) + 1000 * 1000 < m * (y.1 + y.2 + 1) := h.2
  have hrat : (m : Rat) * ((x.1 + x.2 : Nat) : Rat) + 1000 * 1000 <
      m * (((y.1 + y.2 : Nat) : Rat) + 1) := by
    exact_mod_cast hnat
  have hgap : (1000000 : Rat) / m < ((y.1 + y.2 : Nat) : Rat) + 1 - ((x.1 + x.2 : Nat) : Rat) := by
    rw [div_lt_iff₀ hm']
    linarith
  linarith

/-- What is let through is within the burst. -/
theorem excess_le_of_ok {z : Zone} {q : Query} (h : (lookup .exact z q).rc = .ok) :
    (lookup .exact z q).excess ≤ q.burst * q.maxtps := by
  rcases lookup_cases .exact z q with ⟨x, -, -, heq⟩ | ⟨x, -, hunder, heq⟩ | ⟨-, -, heq⟩ | ⟨-, -, heq⟩
  · exact absurd h (by simp [heq])
  · rw [heq]
    rw [Arith.exact_unsigned] at hunder
    exact_mod_cast not_lt.mp hunder
  · rw [heq]
    exact Nat.zero_le _
  · exact absurd h (by simp [heq])

/-- **Delay shaping.** Let an accounting lookup be admitted at `q.now` in a reachable
state, and let `run` be any run from there in which each further lookup of the key meets
the same node. No admitted lookup of the key is delayed by more than the burst is worth,
and of two in a row the second is let go no earlier than the first, and more than the
distance of the rate less a millisecond behind it. The delays are those of the handler
in a location whose only zone this is. -/
theorem delay_shaping {w : W} {q : Query} {b m : Nat} {run : List (W × Event)}
    (hs : Reachable .exact s) (hacc : q.account = true) (hb : q.burst = b) (hm : q.maxtps = m)
    (hpos : 0 < m) (hok : (lookup .exact s.zone q).rc = .ok)
    (hi : (lookup .exact s.zone q).zone.queue.head?.map Node.id = some i)
    (hfree : ∀ w, s.node w ≠ some i)
    (hrun : Served q.hash q.data b m i .exact (s.exec .exact w (.lookup q)) q.now run) :
    let released := (q.now, releaseDelay .exact (lookup .exact s.zone q).excess m) ::
      releases q.hash q.data .exact (s.exec .exact w (.lookup q)) run
    (∀ x ∈ released, x.2 ≤ 1000 * b) ∧
    released.IsChain (fun x y => x.1 + x.2 ≤ y.1 + y.2 ∧
      ((x.1 + x.2 : Nat) : Rat) + 1000000 / m - 1 < ((y.1 + y.2 : Nat) : Rat)) ∧
    ∀ (statusCode : Nat) (readEventOk : Bool) (r : Request) (slot : Slot) (g : Grant),
      r.accessControlSet = false → (check slot.limit.table r).verdict = .grant g →
      slot.limit.nodelay = false →
      (handler .exact statusCode readEventOk r [slot]).outcome =
          (lookup .exact slot.zone (slot.query g true)).outcome .exact statusCode readEventOk
            g.maxtps ∧
        (handler .exact statusCode readEventOk r [slot]).slots.map Slot.zone =
          [(lookup .exact slot.zone (slot.query g true)).zone] := by
  subst hb hm
  intro released
  -- the burst, as milliseconds at the rate
  have hworth : q.burst * q.maxtps * 1000 / q.maxtps = 1000 * q.burst := by
    rw [show q.burst * q.maxtps * 1000 = 1000 * q.burst * q.maxtps by ring]
    exact Nat.mul_div_cancel _ hpos
  have hfirst : releaseDelay .exact (lookup .exact s.zone q).excess q.maxtps ≤ 1000 * q.burst := by
    rw [releaseDelay_exact, ← hworth]
    exact Nat.div_le_div_right (Nat.mul_le_mul_right 1000 (excess_le_of_ok hok))
  have hbucket : (∀ x ∈ releases q.hash q.data .exact (s.exec .exact w (.lookup q)) run,
        x.2 ≤ 1000 * q.burst) ∧
      released.IsChain (Spaced (bucket q.burst q.maxtps) q.maxtps 1000) := by
    rcases follows_of_admitted (w := w) hs hacc hok hi hfree with
      ⟨k, hlast, -, hexcess, hf⟩ | hunmet
    · -- the node is followed: the first release is the meter's own
      obtain ⟨-, hchain⟩ := hf.arrivals hrun hlast.le
      rw [show released = (k.last, k.delay q.maxtps 1000) :: _ by
        rw [hlast, Meter.delay, hexcess, ← releaseDelay_exact], releases_eq hf hrun hlast.le]
      refine ⟨fun x hx => ?_, ?_⟩
      · rw [← hworth]
        exact Meter.delay_le_of_mem_releases hx
      · refine Meter.releases_isChain hpos (fun ms => ?_) (hlast.symm ▸ hchain)
        exact Nat.div_mul_le_self _ _
    · -- the node cannot be met again, and nothing else is let go
      have hnone := releases_eq_nil (hunmet.arrivals hrun)
      refine ⟨by simp [hnone], ?_⟩
      show List.IsChain _ (_ :: releases _ _ _ _ _)
      rw [hnone]
      exact List.isChain_singleton _
  refine ⟨List.forall_mem_cons.mpr ⟨hfirst, hbucket.1⟩,
    hbucket.2.imp fun _ _ => spaced_bucket hpos, ?_⟩
  exact fun statusCode readEventOk r slot g hr hg hnodelay =>
    handler_single hr hg hnodelay statusCode readEventOk

/-- A key with one request per second and a burst of one second: of three requests at
once the second waits for a second and the third is refused, and one more two seconds
later is let go at once. -/
theorem delay_shaping_burst :
    let q (now : Nat) : Query :=
      { hash := 7, data := [0x6b], account := true, maxtps := 1000, burst := 1, now := now
        meets := 0, alloc := true, realloc := true }
    let run : List (Unit × Event) := [((), .lookup (q 5000)), ((), .lookup (q 5000)),
      ((), .lookup (q 7000))]
    let released := (5000, 0) :: releases 7 [0x6b] .exact
      ((Shared.initial : Shared Unit).exec .exact () (.lookup (q 5000))) run
    released = [(5000, 0), (5000, 1000), (7000, 0)] ∧ (∀ x ∈ released, x.2 ≤ 1000 * 1) ∧
      released.IsChain (fun x y => x.1 + x.2 ≤ y.1 + y.2 ∧
        ((x.1 + x.2 : Nat) : Rat) + 1000000 / (1000 : Nat) - 1 < ((y.1 + y.2 : Nat) : Rat)) := by
  intro q run released
  have hserved : Served 7 [0x6b] 1 1000 0 .exact
      ((Shared.initial : Shared Unit).exec .exact () (.lookup (q 5000))) 5000 run := by decide
  obtain ⟨hdelay, hchain, -⟩ := delay_shaping (w := ()) (q := q 5000) (b := 1) (m := 1000) (i := 0)
    (s := Shared.initial) .refl rfl rfl rfl (by decide) (by decide) (by decide)
    (by simp [Shared.initial]) hserved
  exact ⟨by decide, hdelay, hchain⟩

end AccessControl
