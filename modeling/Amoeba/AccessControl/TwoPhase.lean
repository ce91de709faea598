import Amoeba.AccessControl.Decision
import Amoeba.AccessControl.Release

/-!
# Charging in two phases

A zone that is not the last one of the list is charged in two phases: its
lookup pins the node and charges nothing, and `ngx_http_access_control_account`
charges the node once every zone has admitted the request. The last zone
charges at once. Both ways are meant to leave the same node behind.

The account is made with one `maxtps` for all zones, the one that the last
round of the loop found in the last zone's table, where the original code took
the rate from the zone's context. With several tables the rates can differ.

* `Slot.front_account_hit`, `Slot.front_account_miss` — the request's node
  after the two phases.
* `charged_directly_iff` — for every request and every list of limits that
  grant it, exactly when the two phases charge as a direct lookup would, in
  every state of the zones.
-/

namespace AccessControl

open CString Nginx

/-! ### What the two phases have to agree with -/

/-- The rate that the zone's own table gives the request. -/
def Limit.rate (r : Request) (l : Limit) : Nat :=
  match (check l.table r).verdict with
  | .grant g => g.maxtps
  | _ => 0

/-- The length of the hash key under which the request is counted. -/
def Limit.hashkeyLen (r : Request) (l : Limit) : Nat :=
  match (check l.table r).verdict with
  | .grant g => g.hashkey.length
  | _ => 0

/-- The zone after a lookup that charges at once. -/
def Slot.direct (r : Request) (s : Slot) : Slot :=
  match (check s.limit.table r).verdict with
  | .grant g => s.answered (lookup .exact s.zone (s.query g true))
  | _ => s

/-- `excess`, `last` and `count` of the node at the front of the queue, where a
lookup leaves the node of its request. -/
def Zone.front (z : Zone) : Option (Nat × Nat × Int) :=
  z.queue.head?.map fun lr => (lr.excess, lr.last, lr.count)

/-- The delay that a zone asks for after a direct charge. -/
def Slot.ownDelay (r : Request) (s : Slot) : Nat :=
  if s.limit.nodelay then 0
  else ((s.direct r).zone.front.elim 0 (·.1)) * 1000 / s.limit.rate r

/-- How the handler returns with a delay. -/
def admittedOutcome (readEventOk : Bool) (delay : Nat) : Outcome :=
  if delay = 0 then .declined else if readEventOk then .delayed delay else .status 500

/-- The request is admitted by every zone, and the clock reads `now` all along
the call. -/
structure AdmittedAt (now : Nat) (r : Request) (slots : List Slot) : Prop where
  late : 1000 ≤ now
  distinct : ∀ s ∈ slots, s.zone.Distinct
  /-- The length of a node is a `u_char`. -/
  len_lt : ∀ s ∈ slots, ∀ lr ∈ s.zone.queue, lr.len < 256
  passes : ∀ s ∈ slots, s.passes .exact r
  clock : ∀ s ∈ slots, s.now = now ∧ s.later = now

/-- **Two phases charge as one**: the request's node is in every zone what a
direct lookup with the zone's own rate makes of it, and the delay is the
largest one that a zone asks for. -/
structure ChargedDirectly (statusCode : Nat) (readEventOk : Bool) (r : Request)
    (slots : List Slot) : Prop where
  nodes : List.Forall₂ (fun s s' => s'.zone.front = (s.direct r).zone.front) slots
    (handler .exact statusCode readEventOk r slots).slots
  delay : (handler .exact statusCode readEventOk r slots).outcome =
    admittedOutcome readEventOk ((slots.map (Slot.ownDelay r)).foldr max 0)

/-- The condition on a zone in front of the last zone `l`: the rate of `l` is its
own, or it admits paid-off nodes only and `l` decays them at least as fast, or
the request's hash key is too long to be found again. -/
def Limit.Agrees (r : Request) (l x : Limit) : Prop :=
  x.rate r = l.rate r ∨ x.burst = 0 ∧ x.rate r ≤ l.rate r ∨ 256 ≤ x.hashkeyLen r

/-! ### Arithmetic -/

theorem Arith.exact_elapsed_eq (now last : Nat) : ∃ ms : Nat, exact.elapsed now last = ms := by
  refine ⟨((now : Int) - last).natAbs, ?_⟩
  rw [elapsed, abs, exact_signed, exact_signed]
  by_cases h : 0 ≤ (now : Int) - last
  · rw [if_pos h]
    omega
  · rw [if_neg h]
    omega

theorem Arith.exact_delay (excess maxtps : Nat) :
    exact.delay excess maxtps = excess * 1000 / maxtps := by
  simp only [delay, exact_signed, exact_unsigned]
  norm_cast

/-- What is paid off at a rate is paid off at a higher one. -/
theorem Arith.exact_charged_mono {excess maxtps maxtps' : Nat} (h : maxtps ≤ maxtps')
    {now last : Nat} (hzero : exact.charged excess maxtps (exact.elapsed now last) = 0) :
    exact.charged excess maxtps' (exact.elapsed now last) = 0 := by
  obtain ⟨ms, hms⟩ := exact_elapsed_eq now last
  rw [hms, exact_charged] at hzero ⊢
  -- a higher rate decays at least as much
  have hle : maxtps * ms / 1000 ≤ maxtps' * ms / 1000 :=
    Nat.div_le_div_right (Nat.mul_le_mul_right _ h)
  omega

/-- A node created with `last = 0` is paid off, from the first second on. -/
theorem Arith.exact_charged_new {now maxtps : Nat} (hnow : 1000 ≤ now) (hrate : 1000 ≤ maxtps) :
    exact.charged 0 maxtps (exact.elapsed now 0) = 0 := by
  rw [exact_elapsed (Nat.zero_le _), exact_charged]
  -- a second at the smallest rate pays for one request
  have hprod : 1000 * 1000 ≤ maxtps * now := Nat.mul_le_mul hrate hnow
  have hdiv : 1000 * 1000 / 1000 ≤ maxtps * now / 1000 := Nat.div_le_div_right hprod
  simp only [Nat.sub_zero]
  omega

theorem le_maxtpsOf (fm : Int) : 1000 ≤ maxtpsOf fm := by
  unfold maxtpsOf ngxMaxTpsMs
  split
  · exact le_rfl
  · dsimp only
    split <;> omega

theorem le_maxtps_of_grant {t : Table} {r : Request} {g : Grant}
    (h : (check t r).verdict = .grant g) : 1000 ≤ g.maxtps := by
  obtain ⟨e, -, -, hrate⟩ := exists_quota_of_grant h
  rw [hrate]
  exact le_maxtpsOf e.value

/-! ### One zone -/

theorem lookup_hit {A : Arith} {z : Zone} {q : Query} {lr : Node}
    (hs : q.search z.queue = some lr)
    (hb : ¬ A.unsigned (q.burst * q.maxtps) <
      A.charged lr.excess q.maxtps (A.elapsed q.now lr.last)) :
    lookup A z q =
      { rc := if q.account then .ok else .again
        excess := A.charged lr.excess q.maxtps (A.elapsed q.now lr.last)
        zone := { z with queue := q.touch A lr :: z.queue.erase lr }
        pinned := if q.account then none else some lr.id } := by
  rw [lookup, hs]
  exact if_neg hb

theorem lookup_miss {A : Arith} {z : Zone} {q : Query} (hs : q.search z.queue = none)
    (ha : q.alloc ∨ q.realloc) :
    lookup A z q =
      { rc := if q.account then .ok else .again
        excess := 0
        zone := { queue := q.fresh A z.nextId :: q.room A z.queue, nextId := z.nextId + 1 }
        pinned := if q.account then none else some z.nextId } := by
  rw [lookup, hs]
  exact if_pos ha

/-- A zone admits a request with a node that has room for it, or with a new one. -/
theorem Slot.admits_cases {A : Arith} {s : Slot} {g : Grant} (h : s.admits A g) :
    (∃ lr, (∀ account, (s.query g account).search s.zone.queue = some lr) ∧
      ¬ A.unsigned (s.limit.burst * g.maxtps) <
        A.charged lr.excess g.maxtps (A.elapsed s.now lr.last)) ∨
    (∀ account, (s.query g account).search s.zone.queue = none) ∧ (s.alloc ∨ s.realloc) := by
  unfold Slot.admits at h
  cases hs : (s.query g false).search s.zone.queue with
  | some lr =>
    rw [hs] at h
    exact Or.inl ⟨lr, fun _ => hs, of_decide_eq_true h⟩
  | none =>
    rw [hs] at h
    exact Or.inr ⟨fun _ => hs, of_decide_eq_true h⟩

section Zone

variable {r : Request} {s : Slot} {g : Grant} (hg : (check s.limit.table r).verdict = .grant g)

include hg

theorem Limit.rate_eq : s.limit.rate r = g.maxtps := by
  rw [Limit.rate, hg]

theorem Slot.front_direct_hit {lr : Node}
    (hs : ∀ account, (s.query g account).search s.zone.queue = some lr)
    (hb : ¬ Arith.exact.unsigned (s.limit.burst * g.maxtps) <
      Arith.exact.charged lr.excess g.maxtps (Arith.exact.elapsed s.now lr.last)) :
    (s.direct r).zone.front =
      some (Arith.exact.charged lr.excess g.maxtps (Arith.exact.elapsed s.now lr.last), s.now,
        lr.count) := by
  rw [Slot.direct, hg]
  dsimp only
  rw [lookup_hit (hs true) hb]
  rfl

theorem Slot.front_direct_miss (hs : ∀ account, (s.query g account).search s.zone.queue = none)
    (ha : s.alloc ∨ s.realloc) : (s.direct r).zone.front = some (0, s.now, 0) := by
  rw [Slot.direct, hg]
  dsimp only
  rw [lookup_miss (hs true) ha]
  rfl

/-- **A known node after the two phases**, charged at the rate `maxtps`. -/
theorem Slot.front_account_hit {lr : Node}
    (hs : ∀ account, (s.query g account).search s.zone.queue = some lr)
    (hb : ¬ Arith.exact.unsigned (s.limit.burst * g.maxtps) <
      Arith.exact.charged lr.excess g.maxtps (Arith.exact.elapsed s.now lr.last)) (maxtps : Nat) :
    let excess := Arith.exact.charged lr.excess maxtps (Arith.exact.elapsed s.later lr.last)
    ((s.pin .exact r).account .exact maxtps).1.zone.front = some (excess, s.later, lr.count) ∧
      ((s.pin .exact r).account .exact maxtps).2 =
        if s.limit.nodelay then 0 else Arith.exact.delay excess maxtps := by
  intro excess
  rw [Slot.pin, hg]
  dsimp only
  rw [lookup_hit (hs false) hb]
  simp [Slot.answered, Slot.account, Slot.query, Zone.modify, Zone.front, Query.touch,
    Node.settle, excess]

/-- **A new node after the two phases**: it was created with `last = 0`. -/
theorem Slot.front_account_miss (hs : ∀ account, (s.query g account).search s.zone.queue = none)
    (ha : s.alloc ∨ s.realloc) (maxtps : Nat) :
    let excess := Arith.exact.charged 0 maxtps (Arith.exact.elapsed s.later 0)
    ((s.pin .exact r).account .exact maxtps).1.zone.front = some (excess, s.later, 0) ∧
      ((s.pin .exact r).account .exact maxtps).2 =
        if s.limit.nodelay then 0 else Arith.exact.delay excess maxtps := by
  intro excess
  rw [Slot.pin, hg]
  dsimp only
  rw [lookup_miss (hs false) ha]
  simp [Slot.answered, Slot.account, Slot.query, Zone.modify, Zone.front, Query.fresh,
    Node.settle, excess]

theorem Slot.hashkeyLen_eq : s.limit.hashkeyLen r = g.hashkey.length := by
  rw [Limit.hashkeyLen, hg]

/-- **A zone where the two phases charge as one.** -/
theorem Slot.account_eq_direct (hnow : 1000 ≤ s.now) (hlater : s.later = s.now)
    (hlen : ∀ lr ∈ s.zone.queue, lr.len < 256) (hadmits : s.admits .exact g) {l : Limit}
    (hl : 1000 ≤ l.rate r) (hagrees : l.Agrees r s.limit) :
    ((s.pin .exact r).account .exact (l.rate r)).1.zone.front = (s.direct r).zone.front ∧
      ((s.pin .exact r).account .exact (l.rate r)).2 = s.ownDelay r := by
  unfold Limit.Agrees at hagrees
  rw [Limit.rate_eq hg, Slot.hashkeyLen_eq hg] at hagrees
  rw [Slot.ownDelay, Limit.rate_eq hg]
  rcases Slot.admits_cases hadmits with ⟨lr, hs, hb⟩ | ⟨hs, ha⟩
  · obtain ⟨hfront, hdelay⟩ := Slot.front_account_hit hg hs hb (l.rate r)
    rw [hfront, hdelay, Slot.front_direct_hit hg hs hb, hlater, Arith.exact_delay]
    rcases hagrees with heq | ⟨hburst, hle⟩ | hlong
    · -- the same rate charges the same
      rw [heq]
      exact ⟨rfl, rfl⟩
    · -- without a burst only a node that is paid off is admitted
      have hzero : Arith.exact.charged lr.excess g.maxtps (Arith.exact.elapsed s.now lr.last) = 0 := by
        rw [hburst, Arith.exact_unsigned] at hb
        omega
      rw [hzero, Arith.exact_charged_mono hle hzero]
      simp
    · -- the length of a node is too small to match
      obtain ⟨hmem, hmatch⟩ := Query.mem_of_search (hs false)
      have hcmp := (of_decide_eq_true hmatch).2
      rw [ngxMemn2cmp_eq_zero] at hcmp
      have hlt := hlen lr hmem
      have heq : g.hashkey.length = lr.len := hcmp.1
      omega
  · -- a new node is paid off in both ways, at any rate
    obtain ⟨hfront, hdelay⟩ := Slot.front_account_miss hg hs ha (l.rate r)
    rw [hfront, hdelay, Slot.front_direct_miss hg hs ha, hlater, Arith.exact_charged_new hnow hl,
      Arith.exact_delay]
    simp

end Zone

/-! ### The list of zones -/

/-- The charging loop asks for the largest delay. -/
theorem account_snd (A : Arith) (maxtps delay : Nat) (before : List Slot) :
    (account A maxtps delay before).2 =
      (before.map fun s => (s.account A maxtps).2).foldl max delay := by
  -- on the zones, with the delay asked for so far
  induction before generalizing delay with
  | nil => rfl
  | cons s before ih => simp [account, ih]

/-- **A call that every zone admits**: the zones in front of the last one are
charged with the last zone's rate, the last one directly. -/
theorem handler_admitted {r : Request} (hset : ¬ r.accessControlSet) (statusCode : Nat)
    (readEventOk : Bool) {pre : List Slot} (hpre : ∀ x ∈ pre, x.passes .exact r) {s : Slot}
    (hs : s.passes .exact r) :
    let h := handler .exact statusCode readEventOk r (pre ++ [s])
    let settled := fun x : Slot => (x.pin .exact r).account .exact (s.limit.rate r)
    h.slots = pre.map (fun x => (settled x).1) ++ [s.direct r] ∧
      h.outcome = admittedOutcome readEventOk
        ((pre.map fun x => (settled x).2).foldr max (s.ownDelay r)) := by
  intro h settled
  obtain ⟨g, hg, hadmits⟩ := Slot.passes_iff.mp hs
  obtain ⟨hbefore, hafter, hstop⟩ := zoneLoop_append hpre [] [s] (by simp)
  obtain ⟨-, hb, ha, hst⟩ := zoneLoop_end
    (fun _ => rfl : s.passes .exact r → ([] : List Slot) = []) hg
    ((pre.map (Slot.pin .exact r)).reverse ++ [])
  have hdirect : s.direct r = s.answered (lookup .exact s.zone (s.query g true)) := by
    rw [Slot.direct, hg]
  -- the last lookup charges, and its excess is that of the node it leaves in front
  have hlast : (lookup .exact s.zone (s.query g true)).rc = .ok ∧
      (s.direct r).zone.front.elim 0 (·.1) = (lookup .exact s.zone (s.query g true)).excess := by
    rcases Slot.admits_cases hadmits with ⟨lr, hs, hb⟩ | ⟨hs, ha⟩
    · rw [Slot.front_direct_hit hg hs hb, lookup_hit (hs true) hb]
      exact ⟨rfl, rfl⟩
    · rw [Slot.front_direct_miss hg hs ha, lookup_miss (hs true) ha]
      exact ⟨rfl, rfl⟩
  -- a zone whose excess is `0` asks for no delay in either formula
  have hfirst : (if (lookup .exact s.zone (s.query g true)).excess = 0 ∨ s.limit.nodelay then 0
      else Arith.exact.delay (lookup .exact s.zone (s.query g true)).excess g.maxtps) =
      s.ownDelay r := by
    rw [Slot.ownDelay, hlast.2, Limit.rate_eq hg, Arith.exact_delay]
    by_cases hex : (lookup .exact s.zone (s.query g true)).excess = 0
    · simp [hex]
    · simp [hex]
  have hrate : s.limit.rate r = g.maxtps := Limit.rate_eq hg
  simp only [h, settled, handler, if_neg hset, hbefore.trans hb, hafter.trans ha, hstop.trans hst,
    List.isEmpty_nil, hlast.1, hfirst, account_fst, account_snd, hrate, hdirect]
  -- the zones are charged latest first, which does not change the maximum
  have hmax : (fun x y : Nat => max y x) = max := funext₂ fun x y => max_comm y x
  rw [if_neg (by decide), List.append_nil, List.map_reverse, List.map_map, List.foldl_reverse, hmax]
  refine ⟨?_, rfl⟩
  simp [List.map_reverse, Function.comp_def]

theorem AdmittedAt.agrees_direct {now : Nat} {r : Request} {pre : List Slot} {s : Slot}
    (h : AdmittedAt now r (pre ++ [s])) (hagrees : ∀ x ∈ pre, s.limit.Agrees r x.limit) :
    ∀ x ∈ pre,
      ((x.pin .exact r).account .exact (s.limit.rate r)).1.zone.front = (x.direct r).zone.front ∧
        ((x.pin .exact r).account .exact (s.limit.rate r)).2 = x.ownDelay r := by
  intro x hx
  have hmem : x ∈ pre ++ [s] := by simp [hx]
  obtain ⟨g, hg, hadmits⟩ := Slot.passes_iff.mp (h.passes x hmem)
  obtain ⟨G, hG, -⟩ := Slot.passes_iff.mp (h.passes s (by simp))
  obtain ⟨hnow, hlater⟩ := h.clock x hmem
  refine Slot.account_eq_direct hg (hnow ▸ h.late) (hlater.trans hnow.symm) (h.len_lt x hmem)
    hadmits ?_ (hagrees x hx)
  rw [Limit.rate_eq hG]
  exact le_maxtps_of_grant hG

/-- When every zone in front of the last one agrees with it, the two phases
charge as one. -/
theorem chargedDirectly_of_agrees {now : Nat} {r : Request} (hset : ¬ r.accessControlSet)
    {pre : List Slot} {s : Slot} (h : AdmittedAt now r (pre ++ [s]))
    (hagrees : ∀ x ∈ pre, s.limit.Agrees r x.limit) (statusCode : Nat) (readEventOk : Bool) :
    ChargedDirectly statusCode readEventOk r (pre ++ [s]) := by
  obtain ⟨hslots, houtcome⟩ := handler_admitted hset statusCode readEventOk
    (fun x (hx : x ∈ pre) => h.passes x (by simp [hx])) (h.passes s (by simp))
  have hzones := h.agrees_direct hagrees
  refine ⟨?_, ?_⟩
  · rw [hslots, forall₂_map_append_iff]
    exact ⟨fun x hx => (hzones x hx).1, .cons rfl .nil⟩
  · rw [houtcome, List.map_congr_left fun x hx => (hzones x hx).2]
    simp

/-! ### States that tell the rates apart -/

/-- A zone without nodes. -/
def idleSlot (now : Nat) (l : Limit) : Slot where
  limit := l
  zone := Zone.initial
  node := none
  now := now
  later := now
  meets := 0
  alloc := true
  realloc := true

/-- A zone whose only node is that of the grant `g`, with `excess` since `last`. -/
def owingSlot (now : Nat) (g : Grant) (excess last : Nat) (l : Limit) : Slot :=
  { idleSlot now l with
    zone :=
      { queue := [⟨0, g.hash, g.hashkey, g.hashkey.length % 256, excess, last, 0⟩], nextId := 1 } }

theorem idleSlot_passes {now : Nat} {r : Request} {l : Limit}
    (h : ∃ g, (check l.table r).verdict = .grant g) : (idleSlot now l).passes .exact r := by
  obtain ⟨g, hg⟩ := h
  exact Slot.passes_iff.mpr ⟨g, hg, rfl⟩

theorem owingSlot_search {now excess last : Nat} {g : Grant} {l : Limit}
    (hlen : g.hashkey.length < 256) (account : Bool) :
    ((owingSlot now g excess last l).query g account).search
        (owingSlot now g excess last l).zone.queue =
      some ⟨0, g.hash, g.hashkey, g.hashkey.length % 256, excess, last, 0⟩ := by
  -- the node's own key compares equal, its length being below `256`
  have hmatch : Node.Matches g.hash g.hashkey
      ⟨0, g.hash, g.hashkey, g.hashkey.length % 256, excess, last, 0⟩ = true := by
    refine decide_eq_true ⟨rfl, ngxMemn2cmp_eq_zero.mpr ⟨(Nat.mod_eq_of_lt hlen).symm, ?_⟩⟩
    exact (memcmp_eq_zero le_rfl le_rfl).mpr rfl
  simp [Query.search, owingSlot, idleSlot, Slot.query, hmatch]

/-- The charge after a second. -/
theorem Arith.exact_charged_second (excess maxtps : Nat) :
    exact.charged excess maxtps (exact.elapsed 2000 1000) = excess + 1000 - maxtps := by
  rw [exact_elapsed (by decide), exact_charged, Nat.mul_div_cancel _ (by decide)]

/-- **A zone that does not agree has a state that shows it**: the node of the
request is admitted, and a second after its last charge the two rates leave
different excesses. -/
theorem exists_excess_of_not_agrees {m M burst : Nat} (hm : 1000 ≤ m) (hne : m ≠ M)
    (hburst : ¬ (burst = 0 ∧ m ≤ M)) :
    ∃ excess, excess + 1000 - m ≤ burst * m ∧ excess + 1000 - m ≠ excess + 1000 - M := by
  by_cases hlt : m < M
  · -- the last zone's rate forgives too much
    refine ⟨m, ?_, by omega⟩
    have hpos : 1 ≤ burst := by omega
    have hmul : 1 * m ≤ burst * m := Nat.mul_le_mul_right _ hpos
    omega
  · -- the last zone's rate forgives too little
    exact ⟨m - 1000, by omega, by omega⟩

/-- Zones without nodes, among them one with a node of the request. -/
def probeSlots (pre post : List Limit) (x : Limit) (g : Grant) (excess : Nat) : List Slot :=
  pre.map (idleSlot 2000) ++ owingSlot 2000 g excess 1000 x :: post.map (idleSlot 2000)

section Probe

variable {r : Request} {pre post : List Limit} {x l : Limit} {g : Grant} {excess : Nat}

theorem probeSlots_limit :
    (probeSlots pre post x g excess ++ [idleSlot 2000 l]).map Slot.limit =
      pre ++ x :: post ++ [l] := by
  simp [probeSlots, Function.comp_def, idleSlot, owingSlot]

variable (hg : (check x.table r).verdict = .grant g) (hlen : g.hashkey.length < 256)
  (hburst : excess + 1000 - g.maxtps ≤ x.burst * g.maxtps)

include hburst in
theorem owingSlot_admits :
    ¬ Arith.exact.unsigned ((owingSlot 2000 g excess 1000 x).limit.burst * g.maxtps) <
      Arith.exact.charged excess g.maxtps (Arith.exact.elapsed 2000 1000) := by
  rw [Arith.exact_charged_second, Arith.exact_unsigned]
  have hle : ((excess + 1000 - g.maxtps : Nat) : Int) ≤ (x.burst * g.maxtps : Nat) :=
    Int.ofNat_le.mpr hburst
  rw [Nat.cast_mul] at hle
  exact not_lt.mpr hle

include hg hlen hburst in
theorem admittedAt_probeSlots
    (hgrant : ∀ y ∈ pre ++ x :: post ++ [l], ∃ g, (check y.table r).verdict = .grant g) :
    AdmittedAt 2000 r (probeSlots pre post x g excess ++ [idleSlot 2000 l]) := by
  -- the probed zone owes, all others are idle
  have hcases : ∀ s ∈ probeSlots pre post x g excess ++ [idleSlot 2000 l],
      s = owingSlot 2000 g excess 1000 x ∨
        ∃ y ∈ pre ++ x :: post ++ [l], s = idleSlot 2000 y := by
    intro s hs
    simp only [probeSlots, List.mem_append, List.mem_cons, List.mem_map, List.not_mem_nil,
      or_false] at hs
    rcases hs with (⟨y, hy, rfl⟩ | rfl | ⟨y, hy, rfl⟩) | rfl
    · exact Or.inr ⟨y, by simp [hy], rfl⟩
    · exact Or.inl rfl
    · exact Or.inr ⟨y, by simp [hy], rfl⟩
    · exact Or.inr ⟨l, by simp, rfl⟩
  refine ⟨by decide, fun s hs => ?_, fun s hs => ?_, fun s hs => ?_, fun s hs => ?_⟩
  · rcases hcases s hs with rfl | ⟨y, -, rfl⟩
    · exact ⟨by simp [owingSlot], by simp [owingSlot]⟩
    · exact Zone.distinct_initial
  · rcases hcases s hs with rfl | ⟨y, -, rfl⟩
    · simpa [owingSlot] using Nat.mod_lt _ (by decide)
    · simp [idleSlot, Zone.initial]
  · rcases hcases s hs with rfl | ⟨y, hy, rfl⟩
    · refine Slot.passes_iff.mpr ⟨g, hg, ?_⟩
      rw [Slot.admits, owingSlot_search hlen false]
      exact decide_eq_true (owingSlot_admits hburst)
    · exact idleSlot_passes (hgrant y hy)
  · rcases hcases s hs with rfl | ⟨y, -, rfl⟩ <;> exact ⟨rfl, rfl⟩

include hg hlen hburst in
/-- The two phases leave the probed node as the last zone's rate charges it. -/
theorem probeSlots_agrees (hset : ¬ r.accessControlSet)
    (hgrant : ∀ y ∈ pre ++ x :: post ++ [l], ∃ g, (check y.table r).verdict = .grant g)
    (h : ChargedDirectly 503 true r (probeSlots pre post x g excess ++ [idleSlot 2000 l])) :
    excess + 1000 - l.rate r = excess + 1000 - g.maxtps := by
  have hadmitted := admittedAt_probeSlots hg hlen hburst hgrant
  obtain ⟨hslots, -⟩ := handler_admitted hset 503 true
    (fun s (hs : s ∈ probeSlots pre post x g excess) => hadmitted.passes s (by simp [hs]))
    (hadmitted.passes (idleSlot 2000 l) (by simp))
  have hnodes := h.nodes
  rw [hslots, forall₂_map_append_iff] at hnodes
  -- `h` at the probed zone, computed on both sides
  have hfront := hnodes.1 (owingSlot 2000 g excess 1000 x) (by simp [probeSlots])
  have hb := owingSlot_admits hburst
  rw [(Slot.front_account_hit hg (owingSlot_search hlen) hb _).1,
    Slot.front_direct_hit hg (owingSlot_search hlen) hb] at hfront
  simp only [Option.some.injEq, Prod.mk.injEq] at hfront
  have hcharged := hfront.1
  change Arith.exact.charged excess (l.rate r) (Arith.exact.elapsed 2000 1000) =
    Arith.exact.charged excess g.maxtps (Arith.exact.elapsed 2000 1000) at hcharged
  rwa [Arith.exact_charged_second, Arith.exact_charged_second] at hcharged

end Probe

/-- **When two phases charge as one.** For a request and a list of limits that
all grant it, the two phases leave in every state of the zones what direct
lookups with the zones' own rates leave, and the delay is the largest one
asked for, exactly when every zone in front of the last one agrees with it. -/
theorem charged_directly_iff {r : Request} (hset : ¬ r.accessControlSet) {limits : List Limit}
    {l : Limit} (hgrant : ∀ x ∈ limits ++ [l], ∃ g, (check x.table r).verdict = .grant g) :
    (∀ statusCode readEventOk now slots, slots.map Slot.limit = limits ++ [l] →
      AdmittedAt now r slots → ChargedDirectly statusCode readEventOk r slots) ↔
    ∀ x ∈ limits, l.Agrees r x := by
  constructor
  · intro hall x hx
    obtain ⟨pre, post, rfl⟩ := List.append_of_mem hx
    obtain ⟨g, hg⟩ := hgrant x (by simp)
    -- a zone that does not agree is probed with a node that tells the rates apart
    by_contra hno
    have hrate : x.rate r = g.maxtps := by rw [Limit.rate, hg]
    have hkey : x.hashkeyLen r = g.hashkey.length := by rw [Limit.hashkeyLen, hg]
    simp only [Limit.Agrees, not_or, not_le, hrate, hkey] at hno
    obtain ⟨hne, hburst, hlen⟩ := hno
    obtain ⟨excess, hadmits, hdiff⟩ :=
      exists_excess_of_not_agrees (le_maxtps_of_grant hg) hne hburst
    refine hdiff (probeSlots_agrees hg hlen hadmits hset hgrant ?_).symm
    exact hall 503 true 2000 _ probeSlots_limit (admittedAt_probeSlots hg hlen hadmits hgrant)
  · intro hagrees statusCode readEventOk now slots hlimits hadmitted
    -- the zones in front and the last one
    obtain ⟨pre, s, rfl, hpre, hs⟩ := List.map_eq_append_iff.mp hlimits
    obtain ⟨s, rfl, rfl⟩ : ∃ t, s = [t] ∧ t.limit = l := by
      simpa [List.map_eq_singleton_iff] using hs
    refine chargedDirectly_of_agrees hset hadmitted (fun x hx => ?_) statusCode readEventOk
    exact hagrees x.limit (hpre ▸ List.mem_map_of_mem hx)

/-- Two zones that give the request the same rate. -/
theorem charged_directly_same_rates :
    let l : Limit := { table := initKeypool rowsOfFirst, burst := 1, nodelay := false }
    l.rate firstZoneGet = 1000 ∧
      ∀ statusCode readEventOk now slots, slots.map Slot.limit = [l, l] →
        AdmittedAt now firstZoneGet slots →
        ChargedDirectly statusCode readEventOk firstZoneGet slots := by
  intro l
  have hgrant : ∃ g, (check l.table firstZoneGet).verdict = .grant g := by
    have hpass : (freshSlot (initKeypool rowsOfFirst) 1).passes .exact firstZoneGet := by
      decide +kernel
    obtain ⟨g, hg, -⟩ := Slot.passes_iff.mp hpass
    exact ⟨g, hg⟩
  have hall : ∀ x ∈ [l] ++ [l], ∃ g, (check x.table firstZoneGet).verdict = .grant g := by
    intro x hx
    obtain rfl : x = l := by simpa using hx
    exact hgrant
  have hiff := charged_directly_iff (by decide) hall
  refine ⟨by decide +kernel, hiff.mpr fun x hx => ?_⟩
  obtain rfl : x = l := by simpa using hx
  exact Or.inl rfl

/-- The first zone's rows with a higher quota. -/
def rowsOfFaster : List Row := [⟨ascii "k", ascii "/a", 3601, ascii "1"⟩]

/-- **Charged at another zone's rate.** The node of the first zone owes `1000`
since a second. A direct lookup at its rate `1000` leaves `1000` and asks for a
delay of a second; the account is made at the second zone's rate `2000`, which
leaves nothing, and the request is not delayed. -/
theorem two_phase_charges_last_rate :
    let lr : Node := ⟨0, ngxHashKeyLc (ascii "k1") % 2 ^ 32, ascii "k1", 2, 1000, 1000, 0⟩
    let owing : Slot :=
      { idleSlot 2000 { table := initKeypool rowsOfFirst, burst := 1, nodelay := false } with
        zone := { queue := [lr], nextId := 1 } }
    let last := idleSlot 2000 { table := initKeypool rowsOfFaster, burst := 1, nodelay := false }
    let h := handler .exact 503 true firstZoneGet [owing, last]
    AdmittedAt 2000 firstZoneGet [owing, last] ∧
      (owing.direct firstZoneGet).zone.front = some (1000, 2000, 0) ∧
      h.slots.map (·.zone.front) = [some (0, 2000, 0), some (0, 2000, 0)] ∧
      owing.ownDelay firstZoneGet = 1000 ∧ h.outcome = .declined ∧
      ¬ ChargedDirectly 503 true firstZoneGet [owing, last] := by
  intro lr owing last h
  have hdirect : (owing.direct firstZoneGet).zone.front = some (1000, 2000, 0) := by
    decide +kernel
  have hslots : h.slots.map (·.zone.front) = [some (0, 2000, 0), some (0, 2000, 0)] := by
    decide +kernel
  refine ⟨⟨by decide, ?_, ?_, ?_, ?_⟩, hdirect, hslots, by decide +kernel, by decide +kernel, ?_⟩
  · simpa [owing, last] using ⟨⟨by simp, by simp [lr]⟩, Zone.distinct_initial⟩
  · simp [owing, last, lr, idleSlot, Zone.initial]
  · have hpass : ∀ s ∈ [owing, last], s.passes .exact firstZoneGet := by
      simpa using ⟨by decide +kernel, by decide +kernel⟩
    exact hpass
  · simp [owing, last, idleSlot]
  · intro hcharged
    obtain ⟨s', rest, hfront, -, heq⟩ := List.forall₂_cons_left_iff.mp hcharged.nodes
    change h.slots = s' :: rest at heq
    rw [heq, List.map_cons, hfront, hdirect] at hslots
    simp at hslots

end AccessControl
