import Amoeba.TokenBucket.Basic
import Amoeba.AccessControl.Expiry

/-!
# The limiter as a token bucket

In exact arithmetic the node of a key is the meter of a token bucket: an
arrival costs `1000`, the capacity is `burst * maxtps`, and `ms` milliseconds
pay for `maxtps * ms / 1000`. `Follows.arrivals` is the refinement: along any
run of a zone, whatever the other keys and workers do in between, the
decisions on the lookups of one key are those of the bucket.

The run is one during which the node of the key is not removed, that is, each
lookup of the key meets the same node.
-/

namespace AccessControl

open Nginx TokenBucket

variable {W : Type} [Fintype W] [DecidableEq W]

/-- The bucket of a key with the rate `m` in a zone with burst `b`. -/
def bucket (b m : Nat) : Config where
  cost := 1000
  capacity := b * m
  drain ms := m * ms / 1000
  drain_add_le x y := by
    rw [mul_add]
    exact Nat.div_add_div_le_add_div

/-- The stored state of a node, as a meter. -/
def Node.meter (lr : Node) : Meter := { excess := lr.excess, last := lr.last }

/-- What the limiter compares with the burst is what the bucket offers. -/
theorem exact_charged_eq_offer {lr : Node} {b m now : Nat} (h : lr.last ≤ now) :
    Arith.exact.charged lr.excess m (Arith.exact.elapsed now lr.last) =
      lr.meter.offer (bucket b m) now := by
  -- the clock has not gone back, so `ngx_abs` does nothing
  rw [Arith.exact_elapsed h, Arith.exact_charged]
  rfl

/-- A node has one key. -/
theorem Node.matches_unique {lr : Node} {hash hash' : Nat} {data data' : List UInt8}
    (h : lr.Matches hash data) (h' : lr.Matches hash' data') : hash = hash' ∧ data = data' := by
  unfold Node.Matches at h h'
  obtain ⟨hh, hd⟩ := of_decide_eq_true h
  obtain ⟨hh', hd'⟩ := of_decide_eq_true h'
  rw [ngxMemn2cmp_eq_zero] at hd hd'
  exact ⟨hh.symm.trans hh', eq_of_memcmp_eq_zero (hd.1.trans hd'.1.symm) hd.2 hd'.2⟩

/-! ### The lookups of one key along a run -/

section

variable (hash : Nat) (data : List UInt8)

/-- The lookups of the key along a run: the clock and the return code of each. -/
def arrivals (A : Arith) (s : Shared W) : List (W × Event) → List (Nat × Rc)
  | [] => []
  | (w, .lookup q) :: rest =>
    (if q.hash = hash ∧ q.data = data then [(q.now, (lookup A s.zone q).rc)] else []) ++
      arrivals A (s.exec A w (.lookup q)) rest
  | (w, e) :: rest => arrivals A (s.exec A w e) rest

/-- A run in which the zone is the accounting limit of the key, with burst `b`
and rate `m`, in which the clock does not go back between two lookups of the
key, the first of them not before `t`, and in which each of them meets the
node `i`. -/
def Served (b m i : Nat) (A : Arith) (s : Shared W) (t : Nat) : List (W × Event) → Prop
  | [] => True
  | (w, .lookup q) :: rest =>
    if q.hash = hash ∧ q.data = data then
      q.account = true ∧ q.burst = b ∧ q.maxtps = m ∧ t ≤ q.now ∧
        (q.search s.zone.queue).map Node.id = some i ∧
        Served b m i A (s.exec A w (.lookup q)) q.now rest
    else Served b m i A (s.exec A w (.lookup q)) t rest
  | (w, e) :: rest => Served b m i A (s.exec A w e) t rest

instance decidableServed (b m i : Nat) (A : Arith) :
    ∀ (run : List (W × Event)) (s : Shared W) (t : Nat),
      Decidable (Served hash data b m i A s t run)
  | [], _, _ => .isTrue trivial
  | (w, .lookup q) :: rest, s, _ =>
    have := decidableServed b m i A rest (s.exec A w (.lookup q))
    inferInstanceAs (Decidable (if q.hash = hash ∧ q.data = data then _ ∧ _ else _))
  | (w, .account now maxtps) :: rest, s, t =>
    decidableServed b m i A rest (s.exec A w (.account now maxtps)) t
  | (w, .rollback) :: rest, s, t => decidableServed b m i A rest (s.exec A w .rollback) t

/-- The node `i` of the key is not pinned and has the state `k`, unless it has
been removed. -/
structure Follows (i : Nat) (k : Meter) (s : Shared W) : Prop where
  pinned : Pinned s
  id_lt : i < s.zone.nextId
  unpinned : ∀ w, s.node w ≠ some i
  node : ∀ lr ∈ s.zone.queue, lr.id = i → lr.Matches hash data ∧ lr.meter = k

end

variable {hash : Nat} {data : List UInt8} {i : Nat} {k : Meter} {s : Shared W}

/-- A lookup of another key leaves the node alone. -/
theorem Follows.other (h : Follows hash data i k s) (A : Arith) (w : W) {q : Query}
    (hq : ¬ (q.hash = hash ∧ q.data = data)) : Follows hash data i k (s.exec A w (.lookup q)) := by
  have hroom := q.room_subset A s.zone.queue
  -- a node that the lookup meets is not the node of the key
  have hmet : ∀ {x : Node}, q.search s.zone.queue = some x → x.id ≠ i := by
    intro x hx hid
    obtain ⟨hmem, hm⟩ := Query.mem_of_search hx
    exact hq (Node.matches_unique hm (h.node x hmem hid).1)
  have hpinned := h.pinned.lookup (A := A) w q
  rcases lookup_cases A s.zone q with ⟨x, hs, -, heq⟩ | ⟨x, hs, -, heq⟩ | ⟨-, -, heq⟩ | ⟨-, -, heq⟩
  · refine ⟨hpinned, ?_, ?_, ?_⟩
    · simpa [Shared.exec, heq] using h.id_lt
    · simpa [Shared.exec, heq] using h.unpinned
    · simp only [Shared.exec, heq, List.mem_cons]
      rintro lr (rfl | hlr) hid
      · exact absurd hid (hmet hs)
      · exact h.node lr (List.mem_of_mem_erase hlr) hid
  · -- charged or pinned: the worker's new pointer is to the node it met
    refine ⟨hpinned, ?_, ?_, ?_⟩
    · simpa [Shared.exec, heq] using h.id_lt
    · intro w'
      by_cases hw : w' = w
      · subst hw
        cases hacc : q.account <;> simp [Shared.exec, heq, hacc, h.unpinned, hmet hs]
      · simpa [Shared.exec, hw] using h.unpinned w'
    · simp only [Shared.exec, heq, List.mem_cons]
      rintro lr (rfl | hlr) hid
      · rw [Query.touch_id] at hid
        exact absurd hid (hmet hs)
      · exact h.node lr (List.mem_of_mem_erase hlr) hid
  · refine ⟨hpinned, ?_, ?_, ?_⟩
    · -- a miss: the identity of the fresh node is new
      simpa [Shared.exec, heq] using h.id_lt.trans (Nat.lt_succ_self _)
    · intro w'
      by_cases hw : w' = w
      · subst hw
        cases hacc : q.account <;> simp [Shared.exec, heq, hacc, h.unpinned, h.id_lt.ne']
      · simpa [Shared.exec, hw] using h.unpinned w'
    · simp only [Shared.exec, heq, List.mem_cons]
      rintro lr (rfl | hlr) hid
      · exact absurd hid h.id_lt.ne'
      · exact h.node lr (hroom lr hlr) hid
  · refine ⟨hpinned, ?_, ?_, ?_⟩
    · simpa [Shared.exec, heq] using h.id_lt
    · simpa [Shared.exec, heq] using h.unpinned
    · simp only [Shared.exec, heq]
      exact fun lr hlr hid => h.node lr (hroom lr hlr) hid

/-- A charge or a release through a worker's pointer leaves the node alone,
since no worker points to it. -/
theorem Follows.giveUp (h : Follows hash data i k s) (A : Arith) {w : W} {e : Event}
    (he : ∀ q, e ≠ .lookup q) : Follows hash data i k (s.exec A w e) := by
  have hother : ∀ {id : Nat} {f : Node → Node}, s.node w = some id →
      (∀ lr, (f lr).id = lr.id) → (∀ lr, (f lr).count = lr.count - 1) →
      Follows hash data i k
        { zone := s.zone.modify id f, node := Function.update s.node w none } := by
    intro id f hnode hfid hf
    -- the pointer that is given up is to another node
    have hne : id ≠ i := fun hid => h.unpinned w (hid ▸ hnode)
    refine ⟨h.pinned.giveUp hnode hfid hf, h.id_lt, fun w' hw' => ?_, fun lr hlr hid => ?_⟩
    · exact h.unpinned w' (eq_some_of_update_none hw').2
    · obtain ⟨x, hx, rfl⟩ := List.mem_map.mp hlr
      by_cases hxid : x.id = id
      · rw [if_pos hxid, hfid] at hid
        exact absurd (hxid.symm.trans hid) hne
      · rw [if_neg hxid] at hid ⊢
        exact h.node x hx hid
  cases e with
  | lookup q => exact absurd rfl (he q)
  | account now maxtps =>
    unfold Shared.exec
    cases hnode : s.node w with
    | none => exact h
    | some id => exact hother hnode (fun _ => rfl) fun _ => rfl
  | rollback =>
    unfold Shared.exec
    cases hnode : s.node w with
    | none => exact h
    | some id => exact hother hnode (fun _ => rfl) fun _ => rfl

/-- **A lookup of the key is an arrival at the bucket.** -/
theorem Follows.arrive (h : Follows hash data i k s) (w : W) {q : Query} (hacc : q.account = true)
    (hmeets : (q.search s.zone.queue).map Node.id = some i) (hclock : k.last ≤ q.now) :
    (lookup .exact s.zone q).rc =
        (if k.offer (bucket q.burst q.maxtps) q.now ≤ (bucket q.burst q.maxtps).capacity then .ok
          else .busy) ∧
      (lookup .exact s.zone q).excess = k.offer (bucket q.burst q.maxtps) q.now ∧
      Follows hash data i (k.arrive (bucket q.burst q.maxtps) q.now)
        (s.exec .exact w (.lookup q)) := by
  obtain ⟨lr, hs, hid⟩ := Option.map_eq_some_iff.mp hmeets
  have hmem := (Query.mem_of_search hs).1
  obtain ⟨hm, hk⟩ := h.node lr hmem hid
  have hlast : lr.last ≤ q.now := by
    rw [← hk] at hclock
    exact hclock
  -- the node's charged excess, as the bucket computes it
  have hoffer := exact_charged_eq_offer (b := q.burst) (m := q.maxtps) hlast
  rw [hk] at hoffer
  have hpinned := h.pinned.lookup (A := .exact) w q
  rcases lookup_cases .exact s.zone q with
    ⟨x, hx, hover, heq⟩ | ⟨x, hx, hunder, heq⟩ | ⟨hnone, -, -⟩ | ⟨hnone, -, -⟩
  · obtain rfl : lr = x := Option.some.inj (hs.symm.trans hx)
    rw [Arith.exact_unsigned, hoffer] at hover
    -- refused: neither the node nor the meter changes
    have hbusy : ¬ k.offer (bucket q.burst q.maxtps) q.now ≤ (bucket q.burst q.maxtps).capacity :=
      not_le.mpr (by exact_mod_cast hover)
    refine ⟨by rw [heq, if_neg hbusy], by rw [heq, hoffer], hpinned, ?_, ?_, ?_⟩
    · simpa [Shared.exec, heq] using h.id_lt
    · simpa [Shared.exec, heq] using h.unpinned
    · rw [Meter.arrive, if_neg hbusy]
      simp only [Shared.exec, heq, List.mem_cons]
      rintro y (rfl | hy) hyid
      · exact h.node y hmem hyid
      · exact h.node y (List.mem_of_mem_erase hy) hyid
  · obtain rfl : lr = x := Option.some.inj (hs.symm.trans hx)
    rw [Arith.exact_unsigned, hoffer] at hunder
    -- admitted: both store the offer and the time
    have hok : k.offer (bucket q.burst q.maxtps) q.now ≤ (bucket q.burst q.maxtps).capacity := by
      exact_mod_cast not_lt.mp hunder
    refine ⟨by rw [heq, if_pos hok, hacc]; rfl, by rw [heq, hoffer], hpinned, ?_, ?_, ?_⟩
    · simpa [Shared.exec, heq] using h.id_lt
    · simpa [Shared.exec, heq, hacc] using h.unpinned
    · rw [Meter.arrive, if_pos hok]
      simp only [Shared.exec, heq, List.mem_cons, Query.touch, hacc, if_true]
      rintro y (rfl | hy) hyid
      · refine ⟨hm, ?_⟩
        rw [← hoffer]
        rfl
      · -- the identity occurs once in the queue
        have hnodup : ((lr :: s.zone.queue.erase lr).map Node.id).Nodup :=
          ((List.perm_cons_erase hmem).map _).nodup_iff.mp h.pinned.ids_nodup
        exact absurd (hyid.trans hid.symm) (Node.id_ne_of_nodup hnodup hy)
  · exact absurd (hs.symm.trans hnone) (by simp)
  · exact absurd (hs.symm.trans hnone) (by simp)

/-- **The limiter refines the bucket.** Along every run in which the node of the
key is not removed, the decisions on the key's lookups are those of the bucket,
whatever else happens in between. -/
theorem Follows.arrivals {b m t : Nat} {run : List (W × Event)} (h : Follows hash data i k s)
    (hrun : Served hash data b m i .exact s t run) (ht : k.last ≤ t) :
    (arrivals hash data .exact s run).map (fun a => (a.1, decide (a.2 = .ok))) =
        k.serve (bucket b m) ((arrivals hash data .exact s run).map Prod.fst) ∧
      (t :: (AccessControl.arrivals hash data .exact s run).map Prod.fst).IsChain (· ≤ ·) := by
  -- on the run, with the meter and the time of the last lookup of the key
  induction run generalizing s k t with
  | nil => simp [AccessControl.arrivals, Meter.serve]
  | cons e run ih =>
    obtain ⟨w, e⟩ := e
    cases e with
    | lookup q =>
      rw [AccessControl.arrivals]
      rw [Served] at hrun
      by_cases hq : q.hash = hash ∧ q.data = data
      · rw [if_pos hq] at hrun ⊢
        obtain ⟨hacc, rfl, rfl, hnow, hmeets, hrest⟩ := hrun
        obtain ⟨hrc, -, hnext⟩ := h.arrive w hacc hmeets (ht.trans hnow)
        have hlast := Meter.arrive_last_le (c := bucket q.burst q.maxtps) (ht.trans hnow)
        obtain ⟨hserve, hchain⟩ := ih hnext hrest hlast
        refine ⟨?_, ?_⟩
        · rw [List.singleton_append, List.map_cons, List.map_cons, hserve, Meter.serve, hrc]
          congr 2
          by_cases hle : k.offer (bucket q.burst q.maxtps) q.now ≤
              (bucket q.burst q.maxtps).capacity <;>
            simp [hle]
        · simpa using ⟨hnow, hchain⟩
      · rw [if_neg hq] at hrun ⊢
        rw [List.nil_append]
        exact ih (h.other .exact w hq) hrun ht
    | account now maxtps => exact ih (h.giveUp .exact (by simp)) hrun ht
    | rollback => exact ih (h.giveUp .exact (by simp)) hrun ht

/-! ### A node never changes its key -/

omit [Fintype W] in
/-- After a step, a node of the queue is new or has the key it had before. -/
theorem Shared.exec_key (A : Arith) (s : Shared W) (w : W) (e : Event) :
    s.zone.nextId ≤ (s.exec A w e).zone.nextId ∧
      ∀ lr' ∈ (s.exec A w e).zone.queue, lr'.id = s.zone.nextId ∨
        ∃ lr ∈ s.zone.queue, lr.id = lr'.id ∧
          ∀ hash data, lr.Matches hash data = lr'.Matches hash data := by
  -- a write through a pointer keeps the key of every node
  have hmodify : ∀ (id : Nat) (f : Node → Node),
      (∀ lr, (f lr).id = lr.id ∧ ∀ hash data, lr.Matches hash data = (f lr).Matches hash data) →
      ∀ lr' ∈ (s.zone.modify id f).queue, ∃ lr ∈ s.zone.queue,
        lr.id = lr'.id ∧ ∀ hash data, lr.Matches hash data = lr'.Matches hash data := by
    intro id f hf lr' hlr'
    obtain ⟨lr, hlr, rfl⟩ := List.mem_map.mp hlr'
    refine ⟨lr, hlr, ?_⟩
    split
    · exact ⟨(hf lr).1.symm, (hf lr).2⟩
    · exact ⟨rfl, fun _ _ => rfl⟩
  cases e with
  | lookup q =>
    have hroom := q.room_subset A s.zone.queue
    rcases lookup_cases A s.zone q with
      ⟨x, hs, -, heq⟩ | ⟨x, hs, -, heq⟩ | ⟨-, -, heq⟩ | ⟨-, -, heq⟩
    · simp only [Shared.exec, heq, List.mem_cons]
      refine ⟨le_rfl, ?_⟩
      rintro lr (rfl | hlr)
      · exact Or.inr ⟨lr, (Query.mem_of_search hs).1, rfl, fun _ _ => rfl⟩
      · exact Or.inr ⟨lr, List.mem_of_mem_erase hlr, rfl, fun _ _ => rfl⟩
    · simp only [Shared.exec, heq, List.mem_cons]
      refine ⟨le_rfl, ?_⟩
      rintro lr (rfl | hlr)
      · refine Or.inr ⟨x, (Query.mem_of_search hs).1, (q.touch_id A x).symm, fun _ _ => ?_⟩
        unfold Query.touch
        split <;> rfl
      · exact Or.inr ⟨lr, List.mem_of_mem_erase hlr, rfl, fun _ _ => rfl⟩
    · simp only [Shared.exec, heq, List.mem_cons]
      refine ⟨Nat.le_succ _, ?_⟩
      rintro lr (rfl | hlr)
      · exact Or.inl rfl
      · exact Or.inr ⟨lr, hroom lr hlr, rfl, fun _ _ => rfl⟩
    · simp only [Shared.exec, heq]
      exact ⟨le_rfl, fun lr hlr =>
        Or.inr ⟨lr, hroom lr hlr, rfl, fun _ _ => rfl⟩⟩
  | account now maxtps =>
    unfold Shared.exec
    cases s.node w with
    | none => exact ⟨le_rfl, fun lr hlr => Or.inr ⟨lr, hlr, rfl, fun _ _ => rfl⟩⟩
    | some id =>
      refine ⟨le_rfl, fun lr hlr => Or.inr ?_⟩
      exact hmodify id (Node.settle A now maxtps) (fun _ => ⟨rfl, fun _ _ => rfl⟩) lr hlr
  | rollback =>
    unfold Shared.exec
    cases s.node w with
    | none => exact ⟨le_rfl, fun lr hlr => Or.inr ⟨lr, hlr, rfl, fun _ _ => rfl⟩⟩
    | some id =>
      refine ⟨le_rfl, fun lr hlr => Or.inr ?_⟩
      exact hmodify id Node.release (fun _ => ⟨rfl, fun _ _ => rfl⟩) lr hlr

/-- The node `i` is not one that a lookup of the key can meet. -/
def Unmet (hash : Nat) (data : List UInt8) (i : Nat) (s : Shared W) : Prop :=
  i < s.zone.nextId ∧ ∀ lr ∈ s.zone.queue, lr.id = i → ¬ lr.Matches hash data

omit [Fintype W] in
theorem Unmet.exec (h : Unmet hash data i s) (A : Arith) (w : W) (e : Event) :
    Unmet hash data i (s.exec A w e) := by
  obtain ⟨hle, hkey⟩ := s.exec_key A w e
  refine ⟨h.1.trans_le hle, fun lr' hlr' hid => ?_⟩
  rcases hkey lr' hlr' with hnew | ⟨lr, hlr, hlrid, hm⟩
  · -- a new node has another identity
    exact absurd (hid.symm.trans hnew) h.1.ne
  · rw [← hm]
    exact h.2 lr hlr (hlrid.trans hid)

omit [Fintype W] in
/-- Along a run whose lookups of the key all meet a node that cannot be met,
there are no lookups of the key. -/
theorem Unmet.arrivals {A : Arith} {b m t : Nat} {run : List (W × Event)}
    (h : Unmet hash data i s) (hrun : Served hash data b m i A s t run) :
    arrivals hash data A s run = [] := by
  induction run generalizing s t with
  | nil => rfl
  | cons e run ih =>
    obtain ⟨w, e⟩ := e
    cases e with
    | lookup q =>
      rw [AccessControl.arrivals]
      rw [Served] at hrun
      by_cases hq : q.hash = hash ∧ q.data = data
      · rw [if_pos hq] at hrun
        -- the lookup would have met the node, which does not match
        obtain ⟨lr, hs, hid⟩ := Option.map_eq_some_iff.mp hrun.2.2.2.2.1
        obtain ⟨hmem, hm⟩ := Query.mem_of_search hs
        rw [hq.1, hq.2] at hm
        exact absurd hm (h.2 lr hmem hid)
      · rw [if_neg hq] at hrun ⊢
        exact ih (h.exec A w _) hrun
    | account now maxtps => exact ih (h.exec A w _) hrun
    | rollback => exact ih (h.exec A w _) hrun

/-! ### The guarantee -/

/-- The node that an admitted accounting lookup charged is followed from then
on, or is one that cannot be met again (its key is longer than the length byte
can say). -/
theorem follows_of_admitted {w : W} {q : Query} (hs : Reachable .exact s) (hacc : q.account = true)
    (hok : (lookup .exact s.zone q).rc = .ok)
    (hi : (lookup .exact s.zone q).zone.queue.head?.map Node.id = some i)
    (hfree : ∀ w, s.node w ≠ some i) :
    (∃ k, k.last = q.now ∧ k.excess ≤ q.burst * q.maxtps ∧
      k.excess = (lookup .exact s.zone q).excess ∧
      Follows q.hash q.data i k (s.exec .exact w (.lookup q))) ∨
    Unmet q.hash q.data i (s.exec .exact w (.lookup q)) := by
  have hp := pinned_of_reachable hs
  have hpinned := hp.lookup (A := .exact) w q
  -- the charged node is at the front, and its identity occurs once
  have hunique : ∀ y ∈ (lookup .exact s.zone q).zone.queue.tail, y.id ≠ i := by
    have hnodup := hpinned.ids_nodup
    cases hqueue : (lookup .exact s.zone q).zone.queue with
    | nil => simp
    | cons lr rest =>
      rw [hqueue] at hi
      simp only [hqueue] at hnodup
      obtain rfl : lr.id = i := by simpa using hi
      exact fun y hy => Node.id_ne_of_nodup hnodup hy
  rcases lookup_cases .exact s.zone q with
    ⟨x, -, -, heq⟩ | ⟨x, hx, hunder, heq⟩ | ⟨-, -, heq⟩ | ⟨-, -, heq⟩
  · exact absurd hok (by simp [heq])
  · have hid : x.id = i := by simpa [heq] using hi
    obtain ⟨hmem, hm⟩ := Query.mem_of_search hx
    rw [heq] at hunique
    rw [Arith.exact_unsigned] at hunder
    refine Or.inl ⟨⟨Arith.exact.charged x.excess q.maxtps (Arith.exact.elapsed q.now x.last),
      q.now⟩, rfl, by exact_mod_cast not_lt.mp hunder, by rw [heq], hpinned, ?_, ?_, ?_⟩
    · simpa [Shared.exec, heq, hid] using hp.id_lt x hmem
    · simpa [Shared.exec, heq, hacc] using hfree
    · simp only [Shared.exec, heq, List.mem_cons, Query.touch, hacc, if_true]
      rintro y (rfl | hy) hyid
      · exact ⟨hm, rfl⟩
      · exact absurd hyid (hunique y hy)
  · have hid : s.zone.nextId = i := by simpa [heq, Query.fresh] using hi
    rw [heq] at hunique
    -- a fresh node matches its own key unless the length byte has wrapped
    by_cases hm : (q.fresh .exact s.zone.nextId).Matches q.hash q.data
    · refine Or.inl ⟨⟨0, q.now⟩, rfl, Nat.zero_le _, by rw [heq], hpinned, ?_, ?_, ?_⟩
      · simp [Shared.exec, heq, hid]
      · simpa [Shared.exec, heq, hacc] using hfree
      · simp only [Shared.exec, heq, List.mem_cons]
        rintro y (rfl | hy) hyid
        · refine ⟨hm, ?_⟩
          simp [Node.meter, Query.fresh, hacc]
        · exact absurd hyid (hunique y hy)
    · refine Or.inr ⟨by simp [Shared.exec, heq, hid], ?_⟩
      simp only [Shared.exec, heq, List.mem_cons]
      rintro y (rfl | hy) hyid
      · exact hm
      · exact absurd hyid (hunique y hy)
  · exact absurd hok (by simp [heq])

section

variable {w : W} {q : Query} {run : List (W × Event)}

/-- **At most the burst and the elapsed time** are spent after an admission. -/
theorem further_le (hs : Reachable .exact s) (hacc : q.account = true)
    (hok : (lookup .exact s.zone q).rc = .ok)
    (hi : (lookup .exact s.zone q).zone.queue.head?.map Node.id = some i)
    (hfree : ∀ w, s.node w ≠ some i)
    (hrun : Served q.hash q.data q.burst q.maxtps i .exact (s.exec .exact w (.lookup q)) q.now run)
    (T : Nat) :
    1000 * (arrivals q.hash q.data .exact (s.exec .exact w (.lookup q)) run).countP
        (fun a => a.2 = .ok ∧ a.1 ≤ q.now + T) ≤ q.burst * q.maxtps + q.maxtps * T / 1000 := by
  rcases follows_of_admitted (w := w) hs hacc hok hi hfree with ⟨k, hlast, -, -, hf⟩ | hunmet
  · obtain ⟨hserve, hchain⟩ := hf.arrivals hrun hlast.le
    have hle := k.cost_mul_admittedUpTo_le (c := bucket q.burst q.maxtps) (t := q.now + T)
      ((arrivals q.hash q.data .exact (s.exec .exact w (.lookup q)) run).map Prod.fst)
      (hlast.symm ▸ hchain)
    rw [← hserve, admittedUpTo, List.countP_map, hlast, Nat.add_sub_cancel_left] at hle
    -- the two ways to count the admissions agree
    refine le_trans (le_of_eq ?_) hle
    congr 1
    exact List.countP_congr fun a _ => by simp
  · rw [hunmet.arrivals hrun]
    simp

/-- **Patient clients are never refused** after an admission. -/
theorem further_ok (hs : Reachable .exact s) (hacc : q.account = true)
    (hok : (lookup .exact s.zone q).rc = .ok)
    (hi : (lookup .exact s.zone q).zone.queue.head?.map Node.id = some i)
    (hfree : ∀ w, s.node w ≠ some i)
    (hrun : Served q.hash q.data q.burst q.maxtps i .exact (s.exec .exact w (.lookup q)) q.now run)
    {D : Nat} (hD : 1000000 ≤ q.maxtps * D)
    (hgaps : (q.now :: (arrivals q.hash q.data .exact (s.exec .exact w (.lookup q)) run).map
      Prod.fst).IsChain (fun x y => x + D ≤ y)) :
    ∀ a ∈ arrivals q.hash q.data .exact (s.exec .exact w (.lookup q)) run, a.2 = .ok := by
  intro a ha
  rcases follows_of_admitted (w := w) hs hacc hok hi hfree with ⟨k, hlast, hk, -, hf⟩ | hunmet
  · obtain ⟨hserve, -⟩ := hf.arrivals hrun hlast.le
    have hall := k.serve_eq_true (c := bucket q.burst q.maxtps) (d := D)
      ((arrivals q.hash q.data .exact (s.exec .exact w (.lookup q)) run).map Prod.fst) ?_ hk
      (hlast.symm ▸ hgaps)
    · rw [← hserve] at hall
      simpa using hall _ (List.mem_map_of_mem ha)
    · -- `D` milliseconds pay for one request
      change 1000 ≤ q.maxtps * D / 1000
      rw [Nat.le_div_iff_mul_le (by norm_num)]
      exact hD
  · simp [hunmet.arrivals hrun] at ha

end

/-- **The token-bucket guarantee.** Let an accounting lookup be admitted at
`q.now` in a reachable state, and let `run` be any run from there in which each
further lookup of the key meets the same node. Then up to `T` milliseconds
later at most `b * m + m * T / 1000` is spent on further admissions; when the
lookups of the key are at least `D` milliseconds apart and `D` milliseconds pay
for one request, all of them are admitted; and a refused lookup, of any key in
any state, moves the node it met to the front and changes nothing else. -/
theorem token_bucket_guarantee {w : W} {q : Query} {b m : Nat} {run : List (W × Event)}
    (hs : Reachable .exact s) (hacc : q.account = true) (hb : q.burst = b) (hm : q.maxtps = m)
    (hok : (lookup .exact s.zone q).rc = .ok)
    (hi : (lookup .exact s.zone q).zone.queue.head?.map Node.id = some i)
    (hfree : ∀ w, s.node w ≠ some i)
    (hrun : Served q.hash q.data b m i .exact (s.exec .exact w (.lookup q)) q.now run) :
    let further := arrivals q.hash q.data .exact (s.exec .exact w (.lookup q)) run
    (∀ T, 1000 * further.countP (fun a => a.2 = .ok ∧ a.1 ≤ q.now + T) ≤ b * m + m * T / 1000) ∧
    (∀ (z : Zone) (q' : Query), (lookup .exact z q').rc = .busy →
      ∃ lr, q'.search z.queue = some lr ∧
        (lookup .exact z q').zone = { z with queue := lr :: z.queue.erase lr }) ∧
    ∀ D, 1000000 ≤ m * D → (q.now :: further.map Prod.fst).IsChain (fun x y => x + D ≤ y) →
      ∀ a ∈ further, a.2 = .ok := by
  subst hb hm
  exact ⟨further_le hs hacc hok hi hfree hrun, fun z q' => lookup_of_busy,
    fun D hD hgaps => further_ok hs hacc hok hi hfree hrun hD hgaps⟩

/-- A key with one request per second and a burst of one second: two requests
at once, a third that is refused, and one more two seconds later. -/
theorem token_bucket_guarantee_burst :
    let q (now : Nat) : Query :=
      { hash := 7, data := [0x6b], account := true, maxtps := 1000, burst := 1, now := now
        meets := 0, alloc := true, realloc := true }
    let run : List (Unit × Event) := [((), .lookup (q 5000)), ((), .lookup (q 5000)),
      ((), .lookup (q 7000))]
    let further := arrivals 7 [0x6b] .exact
      ((Shared.initial : Shared Unit).exec .exact () (.lookup (q 5000))) run
    further = [(5000, .ok), (5000, .busy), (7000, .ok)] ∧
      ∀ T, 1000 * further.countP (fun a => a.2 = .ok ∧ a.1 ≤ 5000 + T) ≤
        1 * 1000 + 1000 * T / 1000 := by
  intro q run further
  have hserved : Served 7 [0x6b] 1 1000 0 .exact
      ((Shared.initial : Shared Unit).exec .exact () (.lookup (q 5000))) 5000 run := by decide
  refine ⟨by decide, ?_⟩
  exact (token_bucket_guarantee (w := ()) (q := q 5000) (b := 1) (m := 1000) (i := 0)
    (s := Shared.initial) .refl rfl rfl rfl (by decide) (by decide) (by simp [Shared.initial])
    hserved).1

end AccessControl
