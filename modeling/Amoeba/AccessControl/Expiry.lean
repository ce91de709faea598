import Amoeba.AccessControl.Pinning

/-!
# Opportunistic expiry

A lookup that misses drops up to two entries from the end of the queue before
it allocates. `ngx_http_access_control_expire` decides whether such an entry is
paid off at the rate it is passed, and the lookup passes the rate of the key
that is being looked up, not that of the entry. An entry of a slower key can
therefore go while it is still in debt at its own rate.

`Call.Paid` is what the expiry is for: what it drops is unpinned, idle and paid
off at its own key's rate. `Call.Spares` is the state of the queue's end in
which the two rates do not disagree. `paid_iff` says that for one call these
are the same, and `run_paid_iff` carries it along every run of a zone.
-/

namespace AccessControl

variable {W : Type} [DecidableEq W]

/-! ### Runs of a zone -/

/-- A locked step, by what the worker does. -/
inductive Event where
  | lookup (q : Query)
  | account (now maxtps : Nat)
  | rollback

/-- The state after a worker's step. A charge and a release do nothing when the
worker points to no node. -/
def Shared.exec (A : Arith) (s : Shared W) (w : W) : Event → Shared W
  | .lookup q =>
    { zone := (AccessControl.lookup A s.zone q).zone
      node := Function.update s.node w ((AccessControl.lookup A s.zone q).pinned.or (s.node w)) }
  | .account now maxtps =>
    match s.node w with
    | none => s
    | some id =>
      { zone := s.zone.modify id (Node.settle A now maxtps), node := Function.update s.node w none }
  | .rollback =>
    match s.node w with
    | none => s
    | some id =>
      { zone := s.zone.modify id Node.release, node := Function.update s.node w none }

/-- The state a run leads to. -/
def Shared.run (A : Arith) (s : Shared W) (run : List (W × Event)) : Shared W :=
  run.foldl (fun s e => s.exec A e.1 e.2) s

/-- A call of the opportunistic expiry: the queue it finds, and the lookup that
makes it. -/
structure Call where
  queue : List Node
  query : Query

/-- The calls of the opportunistic expiry along a run: one for each lookup that
misses. -/
def calls (A : Arith) (s : Shared W) : List (W × Event) → List Call
  | [] => []
  | (w, .lookup q) :: rest =>
    -- only a miss calls the expiry, before it allocates
    (if q.search s.zone.queue = none then [⟨s.zone.queue, q⟩] else []) ++
      calls A (s.exec A w (.lookup q)) rest
  | (w, e) :: rest => calls A (s.exec A w e) rest

/-- Every lookup of the run is made at the rate of its key. -/
def Keyed (rate : Nat → List UInt8 → Nat) (run : List (W × Event)) : Prop :=
  ∀ w q, (w, .lookup q) ∈ run → q.maxtps = rate q.hash q.data

/-- A step of a run is a locked step, unless it does nothing. -/
theorem Shared.exec_step (A : Arith) (s : Shared W) (w : W) (e : Event) :
    s.exec A w e = s ∨ Step A s (s.exec A w e) := by
  cases e with
  | lookup q => exact Or.inr (Step.lookup s w q)
  | account now maxtps =>
    cases hw : s.node w with
    | none => simp [Shared.exec, hw]
    | some id =>
      simp only [Shared.exec, hw]
      exact Or.inr (Step.account s w id now maxtps hw)
  | rollback =>
    cases hw : s.node w with
    | none => simp [Shared.exec, hw]
    | some id =>
      simp only [Shared.exec, hw]
      exact Or.inr (Step.rollback s w id hw)

/-- **A run is an interleaving of locked steps**, so what holds of every
reachable state holds along every run. -/
theorem reachable_run (A : Arith) (run : List (W × Event)) :
    Reachable A ((Shared.initial : Shared W).run A run) := by
  -- from the end, as `Reachable` adds its steps there
  induction run using List.reverseRecOn with
  | nil => exact .refl
  | append_singleton run e ih =>
    rw [Shared.run, List.foldl_append]
    rcases Shared.exec_step A (Shared.run A Shared.initial run) e.1 e.2 with heq | hstep
    · rw [List.foldl_cons, List.foldl_nil]
      exact heq.symm ▸ ih
    · exact ih.tail hstep

/-! ### What an expiry may drop -/

section

variable (A : Arith) (rate : Nat → List UInt8 → Nat)

/-- What is left of an entry's debt at the rate of its own key. -/
def Node.debt (now : Nat) (lr : Node) : Int :=
  A.remaining lr.excess (rate lr.hash lr.data) (A.elapsed now lr.last)

/-- **The expiry forgives no debt**: at most two entries go, from the end of the
queue, each unpinned, idle for a minute and paid off at its own rate; an entry
that is in debt stays. -/
def Call.Paid (c : Call) : Prop :=
  ∃ gone, c.queue = expire A c.query.now 1 c.query.maxtps c.queue ++ gone ∧ gone.length ≤ 2 ∧
    (∀ lr ∈ gone, lr.count = 0 ∧ 60000 ≤ A.elapsed c.query.now lr.last ∧
      lr.debt A rate c.query.now ≤ 0) ∧
    ∀ lr ∈ c.queue, 0 < lr.debt A rate c.query.now →
      lr ∈ expire A c.query.now 1 c.query.maxtps c.queue

/-- The entry passes the test of the expiry at the caller's rate. -/
def Call.Drops (c : Call) (lr : Node) : Prop :=
  lr.count = 0 ∧ lr.Stale A c.query.now c.query.maxtps

/-- The entry passes the test at the caller's rate and is in debt at its own. -/
def Call.Forgives (c : Call) (lr : Node) : Prop :=
  c.Drops A lr ∧ 0 < lr.debt A rate c.query.now

/-- Neither the last entry, nor the one before it when the last one goes, is
one whose debt the call would forgive. -/
def Call.Spares (c : Call) : Prop :=
  match c.queue.reverse with
  | [] => True
  | [lr] => ¬ c.Forgives A rate lr
  | lr :: lr' :: _ => ¬ c.Forgives A rate lr ∧ (c.Drops A lr → ¬ c.Forgives A rate lr')

instance (c : Call) (lr : Node) : Decidable (c.Drops A lr) :=
  inferInstanceAs (Decidable (_ ∧ _))

instance (c : Call) (lr : Node) : Decidable (c.Forgives A rate lr) :=
  inferInstanceAs (Decidable (_ ∧ _))

instance (c : Call) : Decidable (c.Spares A rate) := by
  unfold Call.Spares
  split <;> infer_instance

end

variable {A : Arith} {rate : Nat → List UInt8 → Nat}

/-- One round of the loop that is not by force. -/
theorem expireLoop_concat (c : Call) (k : Nat) (hk : k + 1 ≠ 3) (queue : List Node) (lr : Node) :
    expireLoop A c.query.now c.query.maxtps (k + 1) (queue ++ [lr]) =
      if c.Drops A lr then expireLoop A c.query.now c.query.maxtps k queue else queue ++ [lr] := by
  rw [expireLoop, List.getLast?_concat]
  dsimp only
  rw [List.dropLast_concat]
  unfold Call.Drops
  -- a pinned entry stops the loop, and so does one that fails the test
  by_cases hcount : lr.count = 0
  · simp [hcount, hk]
  · simp [hcount]

/-- Dropping `gone` is sound exactly when nothing in it is in debt, since what
the expiry drops is unpinned and idle in any case. -/
theorem Call.paid_iff_of_split {c : Call} (gone : List Node)
    (hsplit : c.queue = expire A c.query.now 1 c.query.maxtps c.queue ++ gone)
    (hdrops : ∀ lr ∈ gone, c.Drops A lr) (hlen : gone.length ≤ 2) :
    c.Paid A rate ↔ ∀ lr ∈ gone, ¬ 0 < lr.debt A rate c.query.now := by
  constructor
  · rintro ⟨gone', hsplit', -, hgone', -⟩
    -- the dropped part is what is left of the queue behind the kept one
    obtain rfl : gone = gone' := List.append_cancel_left (hsplit.symm.trans hsplit')
    exact fun lr hlr => not_lt.mpr (hgone' lr hlr).2.2
  · intro hpaid
    refine ⟨gone, hsplit, hlen, fun lr hlr => ?_, fun lr hlr hdebt => ?_⟩
    · obtain ⟨hcount, hstale⟩ := hdrops lr hlr
      unfold Node.Stale at hstale
      have hidle := of_decide_eq_true hstale
      exact ⟨hcount, not_lt.mp hidle.1, not_lt.mp (hpaid lr hlr)⟩
    · have hmem : lr ∈ expire A c.query.now 1 c.query.maxtps c.queue ∨ lr ∈ gone := by
        rw [hsplit, List.mem_append] at hlr
        exact hlr
      exact hmem.resolve_right fun hlr' => hpaid lr hlr' hdebt

/-- **One call**: it forgives no debt exactly when the end of the queue holds
no entry on which the caller's rate and the entry's own rate disagree. -/
theorem Call.paid_iff (c : Call) : c.Paid A rate ↔ c.Spares A rate := by
  have hforgives : ∀ lr, c.Drops A lr → (¬ c.Forgives A rate lr ↔
      ¬ 0 < lr.debt A rate c.query.now) := fun lr hlr => by simp [Call.Forgives, hlr]
  have hkept : ∀ lr, ¬ c.Drops A lr → ¬ c.Forgives A rate lr := fun lr hlr hf => hlr hf.1
  -- the calls are told apart by how many of the two last entries go
  rcases List.eq_nil_or_concat' c.queue with hq | ⟨queue, lr, hq⟩
  · have hexp : expire A c.query.now 1 c.query.maxtps c.queue = [] := by
      simp [hq, expire, expireLoop]
    rw [Call.paid_iff_of_split [] (by rw [hexp, hq]; rfl) (by simp) (by simp)]
    simp [Call.Spares, hq]
  -- the last entry stays, or it is the only one, or a second one is looked at
  by_cases hlr : c.Drops A lr
  swap
  · have hexp : expire A c.query.now 1 c.query.maxtps c.queue = c.queue := by
      rw [hq, expire, expireLoop_concat c 1 (by omega), if_neg hlr]
    rw [Call.paid_iff_of_split [] (by simp [hexp]) (by simp) (by simp)]
    unfold Call.Spares
    rw [hq, List.reverse_append]
    cases queue.reverse <;> simp [hlr, hkept lr hlr]
  rcases List.eq_nil_or_concat' queue with rfl | ⟨queue, lr', rfl⟩
  · have hexp : expire A c.query.now 1 c.query.maxtps c.queue = [] := by
      rw [hq, expire, expireLoop_concat c 1 (by omega), if_pos hlr]
      simp [expireLoop]
    rw [Call.paid_iff_of_split [lr] (by rw [hexp, hq]) (by simpa using hlr) (by simp)]
    simp [Call.Spares, hq, hforgives lr hlr]
  have hspares : c.Spares A rate ↔ ¬ c.Forgives A rate lr ∧ ¬ c.Forgives A rate lr' := by
    simp [Call.Spares, hq, hlr]
  rw [hspares, hforgives lr hlr]
  by_cases hlr' : c.Drops A lr'
  · have hexp : expire A c.query.now 1 c.query.maxtps c.queue = queue := by
      rw [hq, expire, expireLoop_concat c 1 (by omega), if_pos hlr,
        expireLoop_concat c 0 (by omega), if_pos hlr', expireLoop]
    rw [Call.paid_iff_of_split [lr', lr] (by rw [hexp, hq]; simp) (by simp [hlr, hlr'])
      (by simp), hforgives lr' hlr']
    simp [and_comm]
  · have hexp : expire A c.query.now 1 c.query.maxtps c.queue = queue ++ [lr'] := by
      rw [hq, expire, expireLoop_concat c 1 (by omega), if_pos hlr,
        expireLoop_concat c 0 (by omega), if_neg hlr']
    rw [Call.paid_iff_of_split [lr] (by rw [hexp, hq]) (by simpa using hlr) (by simp)]
    simp [hkept lr' hlr']

/-- **Along every run**: no expiry of the run forgives a debt exactly when every
expiry of the run finds the end of the queue as `Call.Spares` says. -/
theorem run_paid_iff (A : Arith) (rate : Nat → List UInt8 → Nat) (run : List (W × Event)) :
    (∀ c ∈ calls A (Shared.initial : Shared W) run, c.Paid A rate) ↔
      ∀ c ∈ calls A (Shared.initial : Shared W) run, c.Spares A rate :=
  forall₂_congr fun c _ => c.paid_iff

/-! ### Debts along a run -/

/-- The event is a lookup of another key than the entry's, which finds memory
at once, at a time between the entry's last charge and `t`. -/
def Event.Passes (lr : Node) (t : Nat) : Event → Prop
  | .lookup q =>
    ¬ lr.Matches q.hash q.data ∧ q.alloc = true ∧ lr.last ≤ q.now ∧ q.now ≤ t
  | _ => False

/-- In exact arithmetic a debt only shrinks while the clock advances. -/
theorem Node.debt_antitone {lr : Node} {now t : Nat} (hlast : lr.last ≤ now) (ht : now ≤ t) :
    lr.debt .exact rate t ≤ lr.debt .exact rate now := by
  simp only [Node.debt, Arith.remaining, Arith.decay, Arith.exact_signed, Arith.exact_unsigned,
    Arith.exact_elapsed hlast, Arith.exact_elapsed (hlast.trans ht)]
  -- the decay grows with the elapsed time
  refine sub_le_sub_left (Int.ediv_le_ediv (by norm_num) ?_) _
  exact mul_le_mul_of_nonneg_left (by omega) (Int.natCast_nonneg _)

/-- One lookup of another key keeps the entry, or drops it paid off. -/
theorem Call.keeps_of_spares {z : Zone} {q : Query} {lr : Node} {t : Nat} (hlr : lr ∈ z.queue)
    (hpass : (Event.lookup q).Passes lr t)
    (hspares : q.search z.queue = none → Call.Spares .exact rate ⟨z.queue, q⟩) :
    lr ∈ (lookup .exact z q).zone.queue ∨ lr.debt .exact rate t ≤ 0 := by
  obtain ⟨hother, halloc, hlast, ht⟩ := hpass
  -- a hit moves the entry of another key
  have hmoved : ∀ {x : Node}, q.search z.queue = some x → lr ∈ z.queue.erase x := by
    intro x hx
    refine (List.mem_erase_of_ne ?_).mpr hlr
    rintro rfl
    exact hother (Query.mem_of_search hx).2
  rcases lookup_cases .exact z q with ⟨x, hs, -, heq⟩ | ⟨x, hs, -, heq⟩ | ⟨hs, -, heq⟩ | ⟨-, hno, -⟩
  · exact Or.inl (heq ▸ List.mem_cons_of_mem _ (hmoved hs))
  · exact Or.inl (heq ▸ List.mem_cons_of_mem _ (hmoved hs))
  · obtain ⟨gone, -, -, -, hkeeps⟩ := (Call.paid_iff ⟨z.queue, q⟩).mpr (hspares hs)
    -- in debt now it stays; paid off now it is paid off at `t`
    by_cases hdebt : 0 < lr.debt .exact rate q.now
    · refine Or.inl (heq ▸ List.mem_cons_of_mem _ ?_)
      have hkept := hkeeps lr hlr hdebt
      simpa only [Query.room, halloc, if_true] using hkept
    · exact Or.inr ((Node.debt_antitone hlast ht).trans (not_lt.mp hdebt))
  · exact absurd (Or.inl halloc) hno

/-- **Requests of other keys never reset an entry's debt**, in a run whose
expiries all find the end of the queue as `Call.Spares` says: whatever lookups
of other keys come until `t`, the entry is still there as it was, or it has
been paid off by then. -/
theorem debt_survives_run (s : Shared W) (run : List (W × Event)) {lr : Node} {t : Nat}
    (hlr : lr ∈ s.zone.queue) (hpass : ∀ e ∈ run, e.2.Passes lr t)
    (hspares : ∀ c ∈ calls .exact s run, c.Spares .exact rate) :
    lr ∈ (s.run .exact run).zone.queue ∨ lr.debt .exact rate t ≤ 0 := by
  -- on the run, from its start
  induction run generalizing s with
  | nil => exact Or.inl hlr
  | cons e run ih =>
    obtain ⟨w, e⟩ := e
    have he : e.Passes lr t := hpass (w, e) (by simp)
    cases e with
    | lookup q =>
      have hstep := Call.keeps_of_spares hlr he fun hnone => hspares _ (by simp [calls, hnone])
      refine hstep.elim (fun hkept => ?_) Or.inr
      exact ih (s.exec .exact w (.lookup q)) hkept (fun e' he' => hpass e' (by simp [he']))
        fun c hc => hspares c (by simp [calls, hc])
    | account now maxtps => exact he.elim
    | rollback => exact he.elim

/-! ### A run that forgives a debt -/

/-- One worker, two keys: the first is used `63` times within a millisecond at
a rate of one request per second, then the second misses a minute later at
twice the rate. -/
def forgivingRun : List (Unit × Event) :=
  let request (hash maxtps now : Nat) : Unit × Event :=
    ((), .lookup
      { hash := hash, data := [0x6b, UInt8.ofNat hash], account := true, maxtps := maxtps
        burst := 100, now := now, meets := 0, alloc := true, realloc := true })
  List.replicate 63 (request 1 1000 1000) ++ [request 2 2000 61000]

/-- **The debt of one key is forgiven by a request of another.** Both keys are
looked up at their own rates, and the expiry drops the first key's entry with
an excess of two requests left. -/
theorem forgivingRun_not_paid :
    let rate : Nat → List UInt8 → Nat := fun hash _ => if hash = 1 then 1000 else 2000
    Keyed rate forgivingRun ∧
      ∃ c ∈ calls (.word 64) Shared.initial forgivingRun, ¬ c.Paid (.word 64) rate := by
  intro rate
  refine ⟨?_, ?_⟩
  · intro w q hq
    simp only [forgivingRun, List.mem_append, List.mem_replicate, List.mem_singleton,
      Prod.mk.injEq, Event.lookup.injEq] at hq
    rcases hq with ⟨-, -, rfl⟩ | ⟨-, rfl⟩ <;> rfl
  · simp only [Call.paid_iff]
    -- the run is evaluated, and the one miss that finds an entry is looked at
    have hcalls : ∃ c ∈ calls (.word 64) Shared.initial forgivingRun,
        ¬ c.Spares (.word 64) fun hash _ => if hash = 1 then 1000 else 2000 := by
      decide +kernel
    exact hcalls

end AccessControl
