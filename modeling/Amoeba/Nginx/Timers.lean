import Amoeba.Nginx.RbTreeRuns

/-!
# The timers of a worker

`ngx_event_add_timer`, `ngx_event_del_timer`, `ngx_event_find_timer` and
`ngx_event_expire_timers` on the red-black tree of the timers, and the cycle of
`ngx_process_events_and_timers` that calls them, with the lock of the processes that
accept connections. A timer's key is the clock at which it ends in a word of `w` bits,
and keys are compared by the sign of their difference.

* `Sched` — what the timers are for: a queue in the order of the deadlines.
* `timers_run` — every run of cycles goes to the end, does what the queue does, and
  leaves no timer overdue, as long as the timers and the waits together are shorter than
  half the range of a word.
-/

namespace Nginx

open RedBlack
open RedBlack.ColorTree hiding node

/-! ### The code of the timers -/

/-- The difference of two words as a signed number. -/
def msecDiff (w a b : Nat) : Int := ((a : Int) - b).bmod (2 ^ w)

/-- `ngx_event_timer_rbtree` and the `timer_set` of the events. The timer of an event is
found under the address of the event. -/
structure Timers where
  rbtree : RbTree
  timerSet : Nat → Bool

/-- What a handler does with a timer. -/
inductive TimerAct where
  /-- `ngx_add_timer` -/
  | add (ev timer : Nat)
  /-- `ngx_del_timer` behind the test of `ev->timer_set` that stands before its calls. -/
  | del (ev : Nat)

namespace Timers

/-- `ngx_event_del_timer` -/
def delTimer (fuel : Nat) (s : Timers) (ev : Nat) : Option Timers :=
  (ngxRbtreeDelete fuel s.rbtree ev).map fun rbtree =>
    { rbtree := rbtree, timerSet := Function.update s.timerSet ev false }

/-- The end of `ngx_event_add_timer`. -/
def insertTimer (w fuel : Nat) (s : Timers) (ev key : Nat) : Option Timers :=
  let rbtree := s.rbtree.setKey ev key
  (ngxRbtreeInsert (ngxRbtreeInsertTimerValue w fuel) fuel rbtree ev).map fun rbtree =>
    { rbtree := rbtree, timerSet := Function.update s.timerSet ev true }

/-- `ngx_event_add_timer`; `now` is the clock, of which `ngx_current_msec` is a word. -/
def addTimer (w fuel now : Nat) (s : Timers) (ev timer : Nat) : Option Timers :=
  let key := (now + timer) % 2 ^ w
  if s.timerSet ev then
    let diff := msecDiff w key (s.rbtree.key ev)
    -- `NGX_TIMER_LAZY_DELAY`: a timer that would hardly move stays where it is
    if (if 0 ≤ diff then diff else (-diff).bmod (2 ^ w)) < 300 then some s
    else (s.delTimer fuel ev).bind fun s => s.insertTimer w fuel ev key
  else s.insertTimer w fuel ev key

def act (w fuel now : Nat) (s : Timers) : TimerAct → Option Timers
  | .add ev timer => s.addTimer w fuel now ev timer
  | .del ev => if s.timerSet ev then s.delTimer fuel ev else some s

def acts (w fuel now : Nat) (s : Timers) (as : List TimerAct) : Option Timers :=
  as.foldlM (act w fuel now) s

/-- `ngx_event_find_timer` -/
def findTimer (w fuel now : Nat) (s : Timers) : Option Nat :=
  -- `NGX_TIMER_INFINITE`
  if s.rbtree.root = s.rbtree.sentinel then some (2 ^ w - 1)
  else
    (ngxRbtreeMin s.rbtree fuel s.rbtree.root).map fun node =>
      (msecDiff w (s.rbtree.key node) (now % 2 ^ w)).toNat

/-- `ngx_event_expire_timers`, with the events whose handlers were called, in order. -/
def expireTimers (w fuel now : Nat) (handler : Nat → List TimerAct) :
    Nat → Timers → Option (List Nat × Timers)
  | 0, _ => none
  | rounds + 1, s =>
    if s.rbtree.root = s.rbtree.sentinel then some ([], s)
    else
      (ngxRbtreeMin s.rbtree fuel s.rbtree.root).bind fun node =>
        if msecDiff w (s.rbtree.key node) (now % 2 ^ w) ≤ 0 then
          (s.delTimer fuel node).bind fun s =>
            (s.acts w fuel now (handler node)).bind fun s =>
              (expireTimers w fuel now handler rounds s).map fun r => (node :: r.1, r.2)
        else some ([], s)

end Timers

/-- What `ngx_process_events_and_timers` reads of the configuration. -/
structure EventConf where
  /-- `ngx_timer_resolution` is not zero. -/
  timerResolution : Bool
  useAcceptMutex : Bool
  acceptMutexDelay : Nat

/-- `ngx_accept_disabled` and `ngx_accept_mutex_held` -/
structure AcceptState where
  disabled : Int
  held : Bool

/-- What `ngx_trylock_accept_mutex` meets. -/
structure AcceptLock where
  /-- `ngx_shmtx_trylock` gets the lock. -/
  trylock : Bool
  /-- `ngx_accept_events` is zero, and the events are no real-time signals. -/
  enabled : Bool
  /-- `ngx_enable_accept_events` succeeds. -/
  enable : Bool
  /-- `ngx_disable_accept_events` succeeds. -/
  disable : Bool

/-- `ngx_trylock_accept_mutex`: whether it returns `NGX_OK`, and `ngx_accept_mutex_held`. -/
def ngxTrylockAcceptMutex (lock : AcceptLock) (held : Bool) : Bool × Bool :=
  if lock.trylock then
    if held && lock.enabled then (true, held)
    else if lock.enable then (true, true)
    else (false, held)
  else if held then
    if lock.disable then (true, false) else (false, held)
  else (true, held)

/-- What a cycle makes of the lock of the processes that accept connections. -/
inductive AcceptMutex where
  | unused
  | held
  | notHeld
  | error
  deriving DecidableEq

/-- The part of `ngx_process_events_and_timers` about the lock. -/
def acceptMutex (conf : EventConf) (lock : AcceptLock) (a : AcceptState) :
    AcceptMutex × AcceptState :=
  if conf.useAcceptMutex then
    if 0 < a.disabled then (.unused, { a with disabled := a.disabled - 1 })
    else
      let r := ngxTrylockAcceptMutex lock a.held
      (if !r.1 then .error else if r.2 then .held else .notHeld, { a with held := r.2 })
  else (.unused, a)

/-- A cycle of the worker. -/
structure TimerCycle where
  lock : AcceptLock
  /-- How far the clock has gone on after `ngx_process_events`. -/
  wait : Nat
  /-- What the handlers of the events do that it calls, and those of the posted events of
  listening sockets. -/
  acts : List TimerAct
  /-- What these make of the variables of the lock. -/
  accept : AcceptState → AcceptState
  /-- What the handler of an event does when its timer ends. -/
  handler : Nat → List TimerAct
  /-- What the handlers of the other posted events do. -/
  posted : List TimerAct

/-- `ngx_process_events_and_timers`, built without threads: the time it asks to wait and the
events whose timers ended, unless it returns with the lock in error. -/
def Timers.cycle (w fuel rounds : Nat) (conf : EventConf) (now : Nat) (s : Timers)
    (a : AcceptState) (c : TimerCycle) : Option (Option (Nat × List Nat) × Timers × AcceptState) :=
  (if conf.timerResolution then some (2 ^ w - 1) else s.findTimer w fuel now).bind fun timer =>
    let mutex := acceptMutex conf c.lock a
    if mutex.1 = .error then some (none, s, mutex.2)
    else
      let timer :=
        if mutex.1 = .notHeld then
          if timer = 2 ^ w - 1 ∨ conf.acceptMutexDelay < timer then conf.acceptMutexDelay else timer
        else timer
      (s.acts w fuel (now + c.wait) c.acts).bind fun s =>
        -- `delta`
        (if c.wait % 2 ^ w ≠ 0 then s.expireTimers w fuel (now + c.wait) c.handler rounds
          else some ([], s)).bind fun r =>
          (r.2.acts w fuel (now + c.wait) c.posted).map fun s =>
            (some (timer, r.1), s, c.accept mutex.2)

/-- The cycles of a worker, from the clock `now` on. The clock stands still in a cycle that
returns early. -/
def Timers.run (w fuel rounds : Nat) (conf : EventConf) : Nat → Timers → AcceptState →
    List TimerCycle → Option (List (Option (Nat × List Nat)) × Timers)
  | _, s, _, [] => some ([], s)
  | now, s, a, c :: cs =>
    (s.cycle w fuel rounds conf now a c).bind fun r =>
      (Timers.run w fuel rounds conf (if r.1.isSome then now + c.wait else now) r.2.1 r.2.2 cs).map
        fun rs => (r.1 :: rs.1, rs.2)

/-! ### What the timers are for -/

/-- Events in the order of their deadlines, equal ones in the order in which they were
set. -/
structure Sched where
  queue : List Nat
  deadline : Nat → Nat

namespace Sched

/-- A deadline is set, unless there is one already that is less than `300` away. -/
def add (now : Nat) (q : Sched) (ev timer : Nat) : Sched :=
  if ev ∈ q.queue ∧ |((now + timer : Nat) : Int) - q.deadline ev| < 300 then q
  else
    let deadline := Function.update q.deadline ev (now + timer)
    { queue := SearchTree.place deadline ev (q.queue.erase ev), deadline := deadline }

def del (q : Sched) (ev : Nat) : Sched := { q with queue := q.queue.erase ev }

def act (now : Nat) (q : Sched) : TimerAct → Sched
  | .add ev timer => q.add now ev timer
  | .del ev => q.del ev

def acts (now : Nat) (q : Sched) (as : List TimerAct) : Sched := as.foldl (act now) q

/-- The time until the first deadline. -/
def next (w now : Nat) (q : Sched) : Nat :=
  match q.queue with
  | [] => 2 ^ w - 1
  | ev :: _ => q.deadline ev - now

/-- The first event is taken out as long as its deadline is over. -/
def expire (now : Nat) (handler : Nat → List TimerAct) : Nat → Sched → List Nat × Sched
  | 0, q => ([], q)
  | rounds + 1, q =>
    match q.queue with
    | [] => ([], q)
    | ev :: _ =>
      if q.deadline ev ≤ now then
        let r := expire now handler rounds ((q.del ev).acts now (handler ev))
        (ev :: r.1, r.2)
      else ([], q)

/-- The time to wait: until the first deadline, or without end when a signal renews the
clock, and for a process that is to try the lock again no longer than its delay. -/
def timeout (w : Nat) (conf : EventConf) (now : Nat) (mutex : AcceptMutex) (q : Sched) : Nat :=
  let next := if conf.timerResolution then 2 ^ w - 1 else q.next w now
  if mutex = .notHeld then min next conf.acceptMutexDelay else next

/-- A cycle; without the lock in error the queue is handled, and the time goes on. -/
def cycle (w rounds : Nat) (conf : EventConf) (now : Nat) (q : Sched) (mutex : AcceptMutex)
    (c : TimerCycle) : Option (Nat × List Nat) × Sched :=
  if mutex = .error then (none, q)
  else
    let r :=
      if c.wait ≠ 0 then (q.acts (now + c.wait) c.acts).expire (now + c.wait) c.handler rounds
      else ([], q.acts (now + c.wait) c.acts)
    (some (q.timeout w conf now mutex, r.1), r.2.acts (now + c.wait) c.posted)

/-- The clock after a cycle. -/
def clock (now : Nat) (mutex : AcceptMutex) (c : TimerCycle) : Nat :=
  if mutex = .error then now else now + c.wait

/-- A run, for what the cycles make of the lock. -/
def run (w rounds : Nat) (conf : EventConf) : Nat → Sched → List (AcceptMutex × TimerCycle) →
    List (Option (Nat × List Nat)) × Sched
  | _, q, [] => ([], q)
  | now, q, (mutex, c) :: cs =>
    let r := q.cycle w rounds conf now mutex c
    let rs := run w rounds conf (clock now mutex c) r.2 cs
    (r.1 :: rs.1, rs.2)

end Sched

/-- What each cycle makes of the lock. -/
def withMutex (conf : EventConf) : AcceptState → List TimerCycle → List (AcceptMutex × TimerCycle)
  | _, [] => []
  | a, c :: cs =>
    let r := acceptMutex conf c.lock a
    (r.1, c) :: withMutex conf (if r.1 = .error then r.2 else c.accept r.2) cs

/-! ### Words -/

/-- Two clock values that are closer than half the range of a word are told apart. -/
theorem msecDiff_eq {w lo hi a b : Nat} (hwin : 2 * (hi - lo) < 2 ^ w) (ha : lo ≤ a ∧ a ≤ hi)
    (hb : lo ≤ b ∧ b ≤ hi) : msecDiff w (a % 2 ^ w) (b % 2 ^ w) = (a : Int) - b := by
  have hmod : msecDiff w (a % 2 ^ w) (b % 2 ^ w) = ((a : Int) - b).bmod (2 ^ w) := by
    rw [msecDiff, Int.natCast_mod, Int.natCast_mod, Int.emod_sub_bmod, Int.sub_emod_bmod]
  rw [hmod]
  exact Int.bmod_eq_of_le_mul_two (by omega) (by omega)

theorem timerLess_eq (w : Nat) (s : RbTree) (node temp : Nat) :
    timerLess w s node temp = decide (msecDiff w (s.key node) (s.key temp) < 0) := by
  rw [timerLess, BitVec.msb_eq_toInt, BitVec.toInt_sub, BitVec.toInt_ofNat', BitVec.toInt_ofNat',
    Int.bmod_sub_bmod, Int.sub_bmod_bmod]
  rfl

/-! ### The operations -/

/-- **The timers in memory are the queue**, of events of `evs` and with deadlines between
`lo` and `hi`. -/
structure Timers.Refines (w : Nat) (evs : List Nat) (lo hi : Nat) (s : Timers) (t : ColorTree Nat)
    (q : Sched) : Prop where
  tree : HoldsSorted q.deadline s.rbtree t
  inorder_eq : t.inorder = q.queue
  key_eq : ∀ a ∈ q.queue, s.rbtree.key a = q.deadline a % 2 ^ w
  set_iff : ∀ a, s.timerSet a = true ↔ a ∈ q.queue
  subset : ∀ a ∈ q.queue, a ∈ evs
  sentinel_notMem : s.rbtree.sentinel ∉ evs
  within : ∀ a ∈ q.queue, lo ≤ q.deadline a ∧ q.deadline a ≤ hi

/-- What a handler does is within the bounds. -/
def TimerAct.Ok (evs : List Nat) (least most : Nat) : TimerAct → Prop
  | .add ev timer => ev ∈ evs ∧ least ≤ timer ∧ timer ≤ most
  | .del _ => True

namespace Timers.Refines

variable {w lo hi fuel : Nat} {evs : List Nat} {s : Timers} {t : ColorTree Nat} {q : Sched}

theorem nodup (h : s.Refines w evs lo hi t q) : q.queue.Nodup :=
  h.inorder_eq ▸ h.tree.represents.nodup

theorem length_le (h : s.Refines w evs lo hi t q) : t.inorder.length ≤ evs.length := by
  have hsub : t.inorder ⊆ evs := fun a ha => h.subset a (h.inorder_eq ▸ ha)
  exact (List.subperm_of_subset h.tree.represents.nodup hsub).length_le

/-- Other bounds. -/
theorem bounds (h : s.Refines w evs lo hi t q) {lo' hi' : Nat}
    (hb : ∀ a ∈ q.queue, lo' ≤ q.deadline a ∧ q.deadline a ≤ hi') : s.Refines w evs lo' hi' t q :=
  { h with within := hb }

/-- An event whose timer is not set. -/
theorem insertTimer (h : s.Refines w evs lo hi t q) (hwin : 2 * (hi - lo) < 2 ^ w)
    (hfuel : 2 * Nat.log 2 (evs.length + 1) < fuel) {ev d : Nat} (hev : ev ∉ q.queue)
    (hmem : ev ∈ evs) (hd : lo ≤ d ∧ d ≤ hi) :
    ∃ s' t', s.insertTimer w fuel ev (d % 2 ^ w) = some s' ∧
      s'.Refines w evs lo hi t'
        { queue := SearchTree.place (Function.update q.deadline ev d) ev q.queue
          deadline := Function.update q.deadline ev d } := by
  let deadline := Function.update q.deadline ev d
  let rbtree := s.rbtree.setKey ev (d % 2 ^ w)
  have hne : ∀ a ∈ q.queue, a ≠ ev := by
    rintro a ha rfl
    exact hev ha
  have hself : deadline ev = d := Function.update_self ..
  have hother : ∀ a ∈ q.queue, deadline a = q.deadline a := fun a ha =>
    Function.update_of_ne (hne a ha) ..
  have hin : ∀ a ∈ t.inorder, a ∈ q.queue := fun a ha => h.inorder_eq ▸ ha
  have hkeys : ∀ a ∈ q.queue, rbtree.key a = deadline a % 2 ^ w := fun a ha => by
    rw [hother a ha, ← h.key_eq a ha]
    exact Function.update_of_ne (hne a ha) ..
  have htree : HoldsSorted deadline rbtree t :=
    h.tree.setKey (fun a ha => hother a (hin a ha)) ev _
  -- the callback compares the deadlines
  have hless : ∀ a ∈ t.inorder, timerLess w rbtree ev a ↔ deadline ev < deadline a := by
    intro a ha
    have hev' : rbtree.key ev = d % 2 ^ w := Function.update_self ..
    have hwa := h.within a (hin a ha)
    rw [← hother a (hin a ha)] at hwa
    rw [timerLess_eq, hev', hkeys a (hin a ha), msecDiff_eq hwin hd hwa, hself, decide_eq_true_iff]
    omega
  have hsent : ev ≠ rbtree.sentinel := by
    intro heq
    rw [heq] at hmem
    exact h.sentinel_notMem hmem
  obtain ⟨rbtree', t', hcode, htree', hinorder, hsent', hkey'⟩ :=
    htree.insert rfl h.length_le hfuel hless (fun ha => hev (hin ev ha)) hsent
  have hplace : ∀ a, a ∈ SearchTree.place deadline ev q.queue ↔ a = ev ∨ a ∈ q.queue := fun a => by
    rw [(SearchTree.perm_place deadline ev q.queue).mem_iff, List.mem_cons]
  refine ⟨⟨rbtree', Function.update s.timerSet ev true⟩, t', congrArg (Option.map _) hcode, htree',
    ?_, fun a ha => ?_, fun a => ?_, fun a ha => ?_, ?_, fun a ha => ?_⟩
  · rw [hinorder, h.inorder_eq]
  · change rbtree'.key a = deadline a % 2 ^ w
    rw [hkey']
    rcases (hplace a).mp ha with rfl | ha
    · rw [hself]
      exact Function.update_self ..
    · exact hkeys a ha
  · rw [hplace]
    by_cases hae : a = ev
    · subst hae
      simp
    · rw [← h.set_iff]
      simp [hae]
  · rcases (hplace a).mp ha with rfl | ha
    · exact hmem
    · exact h.subset a ha
  · change rbtree'.sentinel ∉ evs
    rw [hsent']
    exact h.sentinel_notMem
  · change lo ≤ deadline a ∧ deadline a ≤ hi
    rcases (hplace a).mp ha with rfl | ha
    · rw [hself]
      exact hd
    · rw [hother a ha]
      exact h.within a ha

/-- An event whose timer is set. -/
theorem delTimer (h : s.Refines w evs lo hi t q) (hfuel : 2 * Nat.log 2 (evs.length + 1) < fuel)
    {ev : Nat} (hev : ev ∈ q.queue) :
    ∃ s' t', s.delTimer fuel ev = some s' ∧ s'.Refines w evs lo hi t' (q.del ev) := by
  obtain ⟨rbtree, t', hcode, htree, hinorder, hsent, hkey⟩ :=
    h.tree.delete h.length_le hfuel (h.inorder_eq.symm ▸ hev)
  have hmem : ∀ a, a ∈ (q.del ev).queue ↔ a ≠ ev ∧ a ∈ q.queue := fun a => h.nodup.mem_erase_iff
  refine ⟨⟨rbtree, Function.update s.timerSet ev false⟩, t', congrArg (Option.map _) hcode, htree,
    ?_, fun a ha => ?_, fun a => ?_, fun a ha => h.subset a ((hmem a).mp ha).2, ?_,
    fun a ha => h.within a ((hmem a).mp ha).2⟩
  · rw [hinorder, h.inorder_eq]
    rfl
  · exact (hkey a ((hmem a).mp ha).1).trans (h.key_eq a ((hmem a).mp ha).2)
  · rw [hmem, ← h.set_iff]
    by_cases hae : a = ev
    · subst hae
      simp
    · simp [hae]
  · change rbtree.sentinel ∉ evs
    rw [hsent]
    exact h.sentinel_notMem

/-- **`ngx_event_add_timer` sets the deadline in the queue.** -/
theorem addTimer (h : s.Refines w evs lo hi t q) (hwin : 2 * (hi - lo) < 2 ^ w)
    (hfuel : 2 * Nat.log 2 (evs.length + 1) < fuel) {now ev timer : Nat} (hmem : ev ∈ evs)
    (hd : lo ≤ now + timer ∧ now + timer ≤ hi) :
    ∃ s' t', s.addTimer w fuel now ev timer = some s' ∧
      s'.Refines w evs lo hi t' (q.add now ev timer) := by
  rw [Timers.addTimer, Sched.add]
  by_cases hset : ev ∈ q.queue
  · have hdiff : msecDiff w ((now + timer) % 2 ^ w) (s.rbtree.key ev) =
        ((now + timer : Nat) : Int) - q.deadline ev := by
      rw [h.key_eq ev hset, msecDiff_eq hwin hd (h.within ev hset)]
    have habs : (if 0 ≤ ((now + timer : Nat) : Int) - q.deadline ev
        then ((now + timer : Nat) : Int) - q.deadline ev
        else (-(((now + timer : Nat) : Int) - q.deadline ev)).bmod (2 ^ w)) =
          |((now + timer : Nat) : Int) - q.deadline ev| := by
      have hw := h.within ev hset
      split
      · next hpos => rw [abs_of_nonneg hpos]
      · next hneg =>
        rw [abs_of_neg (not_le.mp hneg)]
        exact Int.bmod_eq_of_le_mul_two (by omega) (by omega)
    rw [if_pos ((h.set_iff ev).mpr hset), hdiff]
    dsimp only
    rw [habs]
    by_cases hlazy : |((now + timer : Nat) : Int) - q.deadline ev| < 300
    · rw [if_pos hlazy, if_pos ⟨hset, hlazy⟩]
      exact ⟨s, t, rfl, h⟩
    · rw [if_neg hlazy, if_neg fun hand => hlazy hand.2]
      obtain ⟨s₁, t₁, hdel, h₁⟩ := h.delTimer hfuel hset
      have hout : ev ∉ (q.del ev).queue := fun hmem => (h.nodup.mem_erase_iff.mp hmem).1 rfl
      obtain ⟨s', t', hins, h'⟩ := h₁.insertTimer hwin hfuel hout hmem hd
      exact ⟨s', t', by rw [hdel, Option.bind_some, hins], h'⟩
  · have hfalse : ¬ s.timerSet ev = true := fun htrue => hset ((h.set_iff ev).mp htrue)
    rw [if_neg hfalse, if_neg fun hand => hset hand.1, List.erase_of_not_mem hset]
    exact h.insertTimer hwin hfuel hset hmem hd

theorem act (h : s.Refines w evs lo hi t q) (hwin : 2 * (hi - lo) < 2 ^ w)
    (hfuel : 2 * Nat.log 2 (evs.length + 1) < fuel) {now least most : Nat} {a : TimerAct}
    (ha : a.Ok evs least most) (hlo : lo ≤ now + least) (hhi : now + most ≤ hi) :
    ∃ s' t', s.act w fuel now a = some s' ∧ s'.Refines w evs lo hi t' (q.act now a) := by
  cases a with
  | add ev timer =>
    obtain ⟨hmem, hleast, hmost⟩ := ha
    exact h.addTimer hwin hfuel hmem ⟨by omega, by omega⟩
  | del ev =>
    rw [Timers.act, Sched.act]
    by_cases hset : ev ∈ q.queue
    · rw [if_pos ((h.set_iff ev).mpr hset)]
      exact h.delTimer hfuel hset
    · have hfalse : ¬ s.timerSet ev = true := fun htrue => hset ((h.set_iff ev).mp htrue)
      rw [if_neg hfalse, Sched.del, List.erase_of_not_mem hset]
      exact ⟨s, t, rfl, h⟩

theorem acts (h : s.Refines w evs lo hi t q) (hwin : 2 * (hi - lo) < 2 ^ w)
    (hfuel : 2 * Nat.log 2 (evs.length + 1) < fuel) {now least most : Nat} {as : List TimerAct}
    (has : ∀ a ∈ as, a.Ok evs least most) (hlo : lo ≤ now + least) (hhi : now + most ≤ hi) :
    ∃ s' t', s.acts w fuel now as = some s' ∧ s'.Refines w evs lo hi t' (q.acts now as) := by
  induction as generalizing s t q with
  | nil => exact ⟨s, t, rfl, h⟩
  | cons a as ih =>
    obtain ⟨s₁, t₁, hact, h₁⟩ := h.act hwin hfuel (has a List.mem_cons_self) hlo hhi
    obtain ⟨s', t', hacts, h'⟩ := ih h₁ fun b hb => has b (List.mem_cons_of_mem a hb)
    refine ⟨s', t', ?_, h'⟩
    rw [Timers.acts, List.foldlM_cons]
    exact (congrArg (Option.bind · _) hact).trans hacts

end Timers.Refines

/-! ### The expiry -/

/-- **The leftmost node is the first of the sequence**, and is found at the root. -/
theorem HoldsSorted.min_eq {κ : Type*} [LinearOrder κ] {key : Nat → κ} {s : RbTree}
    {t : ColorTree Nat} (h : HoldsSorted key s t) {n fuel : Nat} (hn : t.inorder.length ≤ n)
    (hfuel : 2 * Nat.log 2 (n + 1) < fuel) :
    s.root = s.sentinel ∧ t.inorder = [] ∨
      ∃ node rest, s.root ≠ s.sentinel ∧ t.inorder = node :: rest ∧
        ngxRbtreeMin s fuel s.root = some node := by
  cases t with
  | nil => exact Or.inl ⟨h.represents.root_eq, rfl⟩
  | node c l a r =>
    have hloc : Represents s (plug [] (.node c l a r)) := h.represents
    have hroot : s.root = a := h.represents.root_eq
    obtain ⟨path', c', m, r', heq, hplug, hbefore⟩ := descendMin_spec [] c l a r
    have hmin := ngxRbtreeMin_eq hloc (h.depth_lt hn hfuel).le []
    rw [heq] at hmin
    have hinorder : (ColorTree.node c l a r).inorder = m :: (r'.inorder ++ after path') := by
      rw [← hplug, inorder_plug, hbefore]
      simp
    refine Or.inr ⟨m, r'.inorder ++ after path', ?_, hinorder, ?_⟩
    · rw [hroot]
      rintro rfl
      exact h.represents.sentinel_notMem (by simp)
    · rw [hroot]
      exact hmin

namespace Sched

/-- How many timers have ended. -/
def due (now : Nat) (q : Sched) : Nat := (q.queue.filter fun a => q.deadline a ≤ now).length

theorem due_del_le (now : Nat) (q : Sched) (ev : Nat) : (q.del ev).due now ≤ q.due now :=
  (List.erase_sublist.filter _).length_le

/-- A timer that is set for later is not due. -/
theorem due_add_le {now timer : Nat} (htimer : 1 ≤ timer) (q : Sched) (ev : Nat)
    (hnodup : q.queue.Nodup) : (q.add now ev timer).due now ≤ q.due now := by
  rw [Sched.add]
  split
  · exact Nat.le_refl _
  · have hperm := SearchTree.perm_place (Function.update q.deadline ev (now + timer)) ev
      (q.queue.erase ev)
    have hnot : ¬ Function.update q.deadline ev (now + timer) ev ≤ now := by
      rw [Function.update_self]
      omega
    have hrest : (q.queue.erase ev).filter
          (fun a => decide (Function.update q.deadline ev (now + timer) a ≤ now)) =
        (q.queue.erase ev).filter fun a => decide (q.deadline a ≤ now) := by
      refine List.filter_congr fun a ha => ?_
      rw [Function.update_of_ne (hnodup.mem_erase_iff.mp ha).1]
    have hlen := (hperm.filter fun a =>
      decide (Function.update q.deadline ev (now + timer) a ≤ now)).length_eq
    rw [List.filter_cons_of_neg (by simpa using hnot), hrest] at hlen
    exact hlen.le.trans (due_del_le now q ev)

end Sched

namespace Timers.Refines

variable {w lo hi fuel : Nat} {evs : List Nat} {s : Timers} {t : ColorTree Nat} {q : Sched}

/-- Handlers do not make timers due. -/
theorem due_acts_le (h : s.Refines w evs lo hi t q) (hwin : 2 * (hi - lo) < 2 ^ w)
    (hfuel : 2 * Nat.log 2 (evs.length + 1) < fuel) {now most : Nat} {as : List TimerAct}
    (has : ∀ a ∈ as, a.Ok evs 1 most) (hlo : lo ≤ now + 1) (hhi : now + most ≤ hi) :
    (q.acts now as).due now ≤ q.due now := by
  induction as generalizing s t q with
  | nil => exact Nat.le_refl _
  | cons a as ih =>
    have ha := has a List.mem_cons_self
    obtain ⟨s₁, t₁, -, h₁⟩ := h.act hwin hfuel ha hlo hhi
    have hone : (q.act now a).due now ≤ q.due now := by
      cases a with
      | add ev timer => exact Sched.due_add_le ha.2.1 q ev h.nodup
      | del ev => exact Sched.due_del_le now q ev
    exact (ih h₁ fun b hb => has b (List.mem_cons_of_mem a hb)).trans hone

/-- The tree is empty, or its leftmost node is the first event of the queue. -/
theorem first (h : s.Refines w evs lo hi t q) (hfuel : 2 * Nat.log 2 (evs.length + 1) < fuel) :
    s.rbtree.root = s.rbtree.sentinel ∧ q.queue = [] ∨
      ∃ ev rest, s.rbtree.root ≠ s.rbtree.sentinel ∧ q.queue = ev :: rest ∧
        ngxRbtreeMin s.rbtree fuel s.rbtree.root = some ev := by
  have hmin := h.tree.min_eq h.length_le hfuel
  rwa [h.inorder_eq] at hmin

theorem findTimer (h : s.Refines w evs lo hi t q) (hwin : 2 * (hi - lo) < 2 ^ w)
    (hfuel : 2 * Nat.log 2 (evs.length + 1) < fuel) {now : Nat} (hnow : lo ≤ now ∧ now ≤ hi) :
    s.findTimer w fuel now = some (q.next w now) := by
  rw [Timers.findTimer, Sched.next]
  obtain ⟨hroot, hq⟩ | ⟨ev, rest, hroot, hq, hmin⟩ := h.first hfuel
  · rw [if_pos hroot, hq]
  · have hev : ev ∈ q.queue := hq ▸ List.mem_cons_self
    -- the deadline is near enough to be told apart from the clock
    have hdiff := msecDiff_eq hwin (h.within ev hev) hnow
    rw [if_neg hroot, hmin, Option.map_some, h.key_eq ev hev, hdiff, hq, Int.toNat_sub]

/-- **`ngx_event_expire_timers` empties the queue of what is due**, in rounds that the number
of due timers bounds, when the handlers set their timers for later. -/
theorem expireTimers (hwin : 2 * (hi - lo) < 2 ^ w) (hfuel : 2 * Nat.log 2 (evs.length + 1) < fuel)
    {now most : Nat} (hnow : lo ≤ now) (hhi : now + most ≤ hi) {handler : Nat → List TimerAct}
    (hhandler : ∀ ev, ∀ a ∈ handler ev, a.Ok evs 1 most) {rounds : Nat} {s : Timers}
    {t : ColorTree Nat} {q : Sched} (h : s.Refines w evs lo hi t q) (hrounds : q.due now < rounds) :
    ∃ s' t', s.expireTimers w fuel now handler rounds = some ((q.expire now handler rounds).1, s') ∧
      s'.Refines w evs lo hi t' (q.expire now handler rounds).2 ∧
      ∀ a ∈ (q.expire now handler rounds).2.queue,
        now < (q.expire now handler rounds).2.deadline a := by
  -- on the rounds; each one takes out a timer that is due
  induction rounds generalizing s t q with
  | zero => exact absurd hrounds (Nat.not_lt_zero _)
  | succ rounds ih =>
    rw [Timers.expireTimers, Sched.expire]
    obtain ⟨hroot, hq⟩ | ⟨ev, rest, hroot, hq, hmin⟩ := h.first hfuel
    · rw [if_pos hroot, hq]
      exact ⟨s, t, rfl, h, fun a ha => absurd (hq ▸ ha) List.not_mem_nil⟩
    have hev : ev ∈ q.queue := hq ▸ List.mem_cons_self
    have hdiff : msecDiff w (s.rbtree.key ev) (now % 2 ^ w) = (q.deadline ev : Int) - now := by
      rw [h.key_eq ev hev, msecDiff_eq hwin (h.within ev hev) ⟨hnow, by omega⟩]
    rw [if_neg hroot, hmin, Option.bind_some, hdiff, hq]
    dsimp only
    by_cases hdue : q.deadline ev ≤ now
    · rw [if_pos (by omega : (q.deadline ev : Int) - now ≤ 0), if_pos hdue]
      obtain ⟨s₁, t₁, hdel, h₁⟩ := h.delTimer hfuel hev
      have hlo : lo ≤ now + 1 := by omega
      obtain ⟨s₂, t₂, hacts, h₂⟩ := h₁.acts hwin hfuel (hhandler ev) hlo hhi
      have hless : (q.del ev).due now < q.due now := by
        have hnot : ev ∉ rest := by
          have hnodup := h.nodup
          rw [hq] at hnodup
          exact (List.nodup_cons.mp hnodup).1
        rw [Sched.due, Sched.due, Sched.del, hq, List.erase_cons_head]
        rw [List.filter_cons_of_pos (by simpa using hdue), List.length_cons]
        exact Nat.lt_succ_self _
      have hbound := h₁.due_acts_le hwin hfuel (hhandler ev) hlo hhi
      obtain ⟨s', t', hrun, h', hafter⟩ := ih h₂ (by omega)
      refine ⟨s', t', ?_, h', hafter⟩
      rw [hdel, Option.bind_some, hacts, Option.bind_some, hrun]
      rfl
    · rw [if_neg (by omega : ¬ (q.deadline ev : Int) - now ≤ 0), if_neg hdue]
      refine ⟨s, t, rfl, h, fun a ha => ?_⟩
      -- the first deadline is the least
      have hsorted := h.tree.sorted
      rw [h.inorder_eq, hq] at hsorted
      rw [hq] at ha
      rcases List.mem_cons.mp ha with rfl | ha
      · exact not_le.mp hdue
      · exact (not_le.mp hdue).trans_le ((List.pairwise_cons.mp hsorted).1 a ha)

end Timers.Refines

/-! ### The cycles -/

/-- The bounds of a cycle: it takes at most `longest`, timers are set for at most `most`, and
in handlers of timers for at least a millisecond. -/
structure TimerCycle.Ok (evs : List Nat) (longest most : Nat) (c : TimerCycle) : Prop where
  wait : c.wait ≤ longest
  acts : ∀ a ∈ c.acts, a.Ok evs 0 most
  handler : ∀ ev, ∀ a ∈ c.handler ev, a.Ok evs 1 most
  posted : ∀ a ∈ c.posted, a.Ok evs 0 most

/-- The time that the code asks to wait. -/
theorem timer_eq {w : Nat} {conf : EventConf} (hdelay : conf.acceptMutexDelay < 2 ^ w)
    (mutex : AcceptMutex) (timer : Nat) :
    (if mutex = .notHeld then
      if timer = 2 ^ w - 1 ∨ conf.acceptMutexDelay < timer then conf.acceptMutexDelay else timer
      else timer) = if mutex = .notHeld then min timer conf.acceptMutexDelay else timer := by
  by_cases hnot : mutex = .notHeld
  · rw [if_pos hnot, if_pos hnot]
    -- the longest time is the end of the range, which no delay exceeds
    split
    next hcap =>
      have hle : conf.acceptMutexDelay ≤ timer := by omega
      exact (min_eq_right hle).symm
    next hcap =>
      have hle : timer ≤ conf.acceptMutexDelay := by omega
      exact (min_eq_left hle).symm
  · rw [if_neg hnot, if_neg hnot]

/-- **The work of a cycle** leaves no timer overdue. -/
theorem Timers.Refines.work {w fuel rounds now longest most : Nat} {evs : List Nat} {s : Timers}
    {t : ColorTree Nat} {q : Sched} (h : s.Refines w evs now (now + most) t q)
    (hwin : 2 * (longest + most) < 2 ^ w) (hfuel : 2 * Nat.log 2 (evs.length + 1) < fuel)
    (hrounds : evs.length < rounds) {c : TimerCycle} (hc : c.Ok evs longest most) :
    ∃ s₁ s₂ s' t', s.acts w fuel (now + c.wait) c.acts = some s₁ ∧
      (if c.wait % 2 ^ w ≠ 0 then s₁.expireTimers w fuel (now + c.wait) c.handler rounds
        else some ([], s₁)) = some ((if c.wait ≠ 0 then
          (q.acts (now + c.wait) c.acts).expire (now + c.wait) c.handler rounds
        else ([], q.acts (now + c.wait) c.acts)).1, s₂) ∧
      s₂.acts w fuel (now + c.wait) c.posted = some s' ∧
      s'.Refines w evs (now + c.wait) (now + c.wait + most) t'
        ((if c.wait ≠ 0 then
          (q.acts (now + c.wait) c.acts).expire (now + c.wait) c.handler rounds
        else ([], q.acts (now + c.wait) c.acts)).2.acts (now + c.wait) c.posted) := by
  have hwait := hc.wait
  have hwin' : 2 * (now + c.wait + most - now) < 2 ^ w := by omega
  have h₀ : s.Refines w evs now (now + c.wait + most) t q :=
    h.bounds fun a ha => ⟨(h.within a ha).1, (h.within a ha).2.trans (by omega)⟩
  have hlo : now ≤ now + c.wait + 0 := by omega
  obtain ⟨s₁, t₁, hacts, h₁⟩ := h₀.acts hwin' hfuel hc.acts hlo (Nat.le_refl _)
  -- what the expiry leaves is not overdue
  have hexpire : ∃ s₂ t₂,
      (if c.wait % 2 ^ w ≠ 0 then s₁.expireTimers w fuel (now + c.wait) c.handler rounds
        else some ([], s₁)) = some ((if c.wait ≠ 0 then
          (q.acts (now + c.wait) c.acts).expire (now + c.wait) c.handler rounds
        else ([], q.acts (now + c.wait) c.acts)).1, s₂) ∧
      s₂.Refines w evs (now + c.wait) (now + c.wait + most) t₂ (if c.wait ≠ 0 then
          (q.acts (now + c.wait) c.acts).expire (now + c.wait) c.handler rounds
        else ([], q.acts (now + c.wait) c.acts)).2 := by
    -- no wait goes once round the word, so `delta` is zero only for none
    have hword : c.wait % 2 ^ w = c.wait := Nat.mod_eq_of_lt (by omega)
    rw [hword]
    by_cases hzero : c.wait ≠ 0
    · rw [if_pos hzero, if_pos hzero]
      have hdue : (q.acts (now + c.wait) c.acts).due (now + c.wait) < rounds := by
        refine lt_of_le_of_lt (List.length_filter_le _ _) (lt_of_le_of_lt ?_ hrounds)
        rw [← h₁.inorder_eq]
        exact h₁.length_le
      obtain ⟨s₂, t₂, hrun, h₂, hafter⟩ :=
        Timers.Refines.expireTimers hwin' hfuel (Nat.le_add_right now c.wait) (Nat.le_refl _)
          hc.handler h₁ hdue
      exact ⟨s₂, t₂, hrun, h₂.bounds fun a ha => ⟨(hafter a ha).le, (h₂.within a ha).2⟩⟩
    · rw [if_neg hzero, if_neg hzero]
      have hwait0 : c.wait = 0 := not_ne_iff.mp hzero
      have hbounds : ∀ a ∈ (q.acts (now + c.wait) c.acts).queue,
          now + c.wait ≤ (q.acts (now + c.wait) c.acts).deadline a ∧
            (q.acts (now + c.wait) c.acts).deadline a ≤ now + c.wait + most := by
        intro a ha
        have hwithin := h₁.within a ha
        omega
      exact ⟨s₁, t₁, rfl, h₁.bounds hbounds⟩
  obtain ⟨s₂, t₂, hrun, h₂⟩ := hexpire
  have hwin₂ : 2 * (now + c.wait + most - (now + c.wait)) < 2 ^ w := by omega
  obtain ⟨s', t', hposted, h'⟩ :=
    h₂.acts hwin₂ hfuel hc.posted (Nat.le_refl (now + c.wait + 0)) (Nat.le_refl _)
  exact ⟨s₁, s₂, s', t', hacts, hrun, hposted, h'⟩

/-- **A cycle** does what the queue does, for what it makes of the lock, and leaves no timer
overdue. -/
theorem Timers.Refines.cycle {w fuel rounds now longest most : Nat} {evs : List Nat} {s : Timers}
    {t : ColorTree Nat} {q : Sched} (h : s.Refines w evs now (now + most) t q)
    (hwin : 2 * (longest + most) < 2 ^ w) (hfuel : 2 * Nat.log 2 (evs.length + 1) < fuel)
    (hrounds : evs.length < rounds) {conf : EventConf} (hdelay : conf.acceptMutexDelay < 2 ^ w)
    (a : AcceptState) {c : TimerCycle} (hc : c.Ok evs longest most) :
    let mutex := acceptMutex conf c.lock a
    ∃ s' t', s.cycle w fuel rounds conf now a c =
        some ((q.cycle w rounds conf now mutex.1 c).1, s',
          if mutex.1 = .error then mutex.2 else c.accept mutex.2) ∧
      s'.Refines w evs (Sched.clock now mutex.1 c) (Sched.clock now mutex.1 c + most) t'
        (q.cycle w rounds conf now mutex.1 c).2 := by
  have hwin' : 2 * (now + most - now) < 2 ^ w := by omega
  have hfind : (if conf.timerResolution then some (2 ^ w - 1) else s.findTimer w fuel now) =
      some (if conf.timerResolution then 2 ^ w - 1 else q.next w now) := by
    rw [h.findTimer hwin' hfuel ⟨Nat.le_refl _, Nat.le_add_right now most⟩]
    split <;> rfl
  rw [Timers.cycle, hfind, Option.bind_some]
  dsimp only
  generalize acceptMutex conf c.lock a = mutex
  by_cases herror : mutex.1 = .error
  · -- nothing happens, and the clock stands still
    simp only [Sched.cycle, Sched.clock, if_pos herror]
    exact ⟨s, t, rfl, h⟩
  · obtain ⟨s₁, s₂, s', t', hacts, hrun, hposted, h'⟩ := h.work hwin hfuel hrounds hc
    simp only [Sched.cycle, Sched.clock, if_neg herror, timer_eq hdelay]
    refine ⟨s', t', ?_, h'⟩
    rw [hacts, Option.bind_some, hrun, Option.bind_some, hposted, Option.map_some]
    rfl

/-- The clock after some cycles. -/
def clockAfter (now : Nat) (cycles : List (AcceptMutex × TimerCycle)) : Nat :=
  cycles.foldl (fun now c => Sched.clock now c.1 c.2) now

/-- **The timers of a worker.** In every run of cycles of `ngx_process_events_and_timers`,
from any clock on, with or without a lock for accepting connections and whatever becomes of
it, the code goes to the end; the times that it asks to wait and the events whose timers
end, in their order, are those of the queue in the order of the deadlines; and after the
run the tree holds the queue, with no timer overdue. For this a cycle and the longest timer
together have to be shorter than half the range of a word. -/
theorem timers_run {w longest most : Nat} (hwin : 2 * (longest + most) < 2 ^ w)
    {conf : EventConf} (hdelay : conf.acceptMutexDelay < 2 ^ w) {evs : List Nat}
    {s : Timers} (hroot : s.rbtree.root = s.rbtree.sentinel)
    (hblack : s.rbtree.color s.rbtree.sentinel = .black) (hset : ∀ ev, s.timerSet ev = false)
    (hsent : s.rbtree.sentinel ∉ evs) {cycles : List TimerCycle}
    (hcycles : ∀ c ∈ cycles, c.Ok evs longest most) {fuel rounds : Nat}
    (hfuel : 2 * Nat.log 2 (evs.length + 1) < fuel) (hrounds : evs.length < rounds)
    (now : Nat) (a : AcceptState) (deadline : Nat → Nat) :
    let cs := withMutex conf a cycles
    ∃ s' t, Timers.run w fuel rounds conf now s a cycles =
        some ((Sched.run w rounds conf now ⟨[], deadline⟩ cs).1, s') ∧
      s'.Refines w evs (clockAfter now cs) (clockAfter now cs + most) t
        (Sched.run w rounds conf now ⟨[], deadline⟩ cs).2 := by
  -- on the cycles, from any clock, any lock and any queue that is not overdue
  have hrun : ∀ (cs : List TimerCycle) (now : Nat) (a : AcceptState) (s : Timers)
      (t : ColorTree Nat) (q : Sched), (∀ c ∈ cs, c.Ok evs longest most) →
      s.Refines w evs now (now + most) t q →
      ∃ s' t', Timers.run w fuel rounds conf now s a cs =
          some ((Sched.run w rounds conf now q (withMutex conf a cs)).1, s') ∧
        s'.Refines w evs (clockAfter now (withMutex conf a cs))
          (clockAfter now (withMutex conf a cs) + most) t'
          (Sched.run w rounds conf now q (withMutex conf a cs)).2 := by
    intro cs
    induction cs with
    | nil => exact fun now a s t q _ h => ⟨s, t, rfl, h⟩
    | cons c cs ih =>
      intro now a s t q hok h
      obtain ⟨s₁, t₁, hcycle, h₁⟩ :=
        h.cycle hwin hfuel hrounds hdelay a (hok c List.mem_cons_self)
      obtain ⟨s', t', hcode, h'⟩ :=
        ih _ _ s₁ t₁ _ (fun c' hc' => hok c' (List.mem_cons_of_mem c hc')) h₁
      -- the clock stands still where the cycle has no result
      have hclock : (if (q.cycle w rounds conf now (acceptMutex conf c.lock a).1 c).1.isSome then
          now + c.wait else now) = Sched.clock now (acceptMutex conf c.lock a).1 c := by
        rw [Sched.cycle, Sched.clock]
        split <;> rfl
      refine ⟨s', t', ?_, h'⟩
      rw [Timers.run, hcycle, Option.bind_some, hclock, hcode]
      rfl
  have hstart : HoldsSorted deadline s.rbtree .nil := .empty hroot hblack
  refine hrun cycles now a s .nil ⟨[], deadline⟩ hcycles
    ⟨hstart, rfl, ?_, fun ev => ?_, ?_, hsent, ?_⟩
  · exact fun a ha => absurd ha List.not_mem_nil
  · rw [hset]
    simp
  · exact fun a ha => absurd ha List.not_mem_nil
  · exact fun a ha => absurd ha List.not_mem_nil

/-- Two timers on words of eight bits, across the end of their range: the second one that was
set ends first, and its handler sets the first one anew. Another process has the lock in the
second cycle, and in the fourth one it cannot be used. -/
theorem timers_run_wrap :
    let s : Timers :=
      ⟨⟨fun _ _ => 0, fun _ => 0, fun _ => .black, fun _ => 0, 9, 9⟩, fun _ => false⟩
    let conf : EventConf := ⟨false, true, 4⟩
    let idle : Nat → List TimerAct := fun _ => []
    let cycles : List TimerCycle :=
      [⟨⟨true, false, true, true⟩, 0, [.add 1 60, .add 2 10], id, idle, []⟩,
        ⟨⟨false, false, true, true⟩, 10, [], id, fun _ => [.add 1 20], []⟩,
        ⟨⟨true, false, true, true⟩, 50, [], id, idle, []⟩,
        ⟨⟨true, false, false, true⟩, 50, [], id, idle, []⟩]
    let cs := withMutex conf ⟨0, false⟩ cycles
    ∃ s' t, Timers.run 8 4 3 conf 250 s ⟨0, false⟩ cycles =
        some ((Sched.run 8 3 conf 250 ⟨[], fun _ => 0⟩ cs).1, s') ∧
      s'.Refines 8 [1, 2] (clockAfter 250 cs) (clockAfter 250 cs + 60) t
        (Sched.run 8 3 conf 250 ⟨[], fun _ => 0⟩ cs).2 := by
  intro s conf idle cycles cs
  have hwin : 2 * (50 + 60) < 2 ^ 8 := by decide
  refine timers_run hwin (by decide) rfl rfl (fun _ => rfl) (by decide) (fun c hc => ?_) (by decide)
    (by decide) 250 ⟨0, false⟩ fun _ => 0
  simp only [cycles, List.mem_cons, List.not_mem_nil, or_false] at hc
  rcases hc with rfl | rfl | rfl | rfl
  · exact ⟨by decide, by simp [TimerAct.Ok], by simp [idle], by simp⟩
  · exact ⟨by decide, by simp, by simp [TimerAct.Ok], by simp⟩
  · exact ⟨by decide, by simp, by simp [idle], by simp⟩
  · exact ⟨by decide, by simp, by simp [idle], by simp⟩

end Nginx
