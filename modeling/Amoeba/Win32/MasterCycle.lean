import Mathlib.Logic.Function.Basic
import Mathlib.Data.List.Basic

/-!
# The master process on Windows

The loop of `ngx_master_process_cycle` in `src/os/win32`, as far as it touches
the current cycle. A reload sets `dbconn` of the current cycle, so that the
configuration is parsed without a connection, replaces the variable `cycle` by
the result of `ngx_init_cycle`, clears `dbconn` through it, and then tests the
result for null.

A cycle is a pointer into the memory of the cycles. `ngx_init_cycle` either
allocates a cycle, which inherits `dbconn`, or fails; which of the two is an
input of the event.

* `Master.step_cases` — what an event can do.
* `master_survives_iff` — for every sequence of events, exactly when the master
  goes on as a reload is meant to: no reload that it gets to fails.
-/

namespace Win32

/-- What the master uses of `ngx_cycle_t`. -/
structure Cycle where
  dbconn : Nat
  deriving DecidableEq, Repr

/-- The state of the loop. -/
structure Master where
  /-- The memory of the cycles, and the next one to be allocated. -/
  cycles : Nat → Cycle
  next : Nat
  /-- The local variable `cycle`. -/
  cycle : Option Nat
  /-- The global variable `ngx_cycle`. -/
  ngxCycle : Nat
  timer : Nat
  terminate : Bool
  quit : Bool

/-- What `WaitForMultipleObjects` reports. -/
inductive Event where
  | stop (now : Nat)
  | quit
  | reopen
  /-- `ngx_init_cycle` returns a cycle, or null. -/
  | reload (ok : Bool)
  /-- A worker has ended; some other process is alive. -/
  | reap (live : Bool)
  | timeout
  | failed
  deriving DecidableEq, Repr

/-- How a round of the loop ends. -/
inductive Outcome where
  | running (m : Master)
  /-- `ngx_master_process_exit` -/
  | exited
  /-- A null pointer is dereferenced. -/
  | fault

/-- A write to `dbconn`. -/
def Master.setDbconn (m : Master) (c dbconn : Nat) : Master :=
  { m with cycles := Function.update m.cycles c { dbconn := dbconn } }

/-- `ngx_init_cycle(old)`: the new cycle inherits `dbconn`. -/
def Master.initCycle (m : Master) (ok : Bool) (old : Nat) : Master × Option Nat :=
  if ok then
    ({ m with
        cycles := Function.update m.cycles m.next { dbconn := (m.cycles old).dbconn }
        next := m.next + 1 },
      some m.next)
  else (m, none)

/-- The branch of the reload event. -/
def Master.reload (m : Master) (ok : Bool) (c : Nat) : Outcome :=
  -- `cycle->dbconn = 1`, so that reading the configuration opens no pool
  let m := m.setDbconn c 1
  let (m, new) := m.initCycle ok c
  let m := { m with cycle := new }
  match m.cycle with
  | none => .fault -- `cycle->dbconn = 0`
  | some n =>
    let m := m.setDbconn n 0
    -- `if (cycle == NULL)`, with what was meant to follow it
    match m.cycle with
    | none => .running { m with cycle := some m.ngxCycle }
    | some n => .running { m with ngxCycle := n }

/-- One round of the loop. -/
def Master.step (m : Master) (e : Event) : Outcome :=
  match m.cycle with
  | none => .fault -- `cycle->log`
  | some c =>
    match e with
    | .stop now =>
      .running { m with timer := if m.timer = 0 then now + 5000 else m.timer, terminate := true }
    | .quit => .running { m with quit := true }
    | .reopen => .running m
    | .reload ok => m.reload ok c
    | .reap live => if ¬ live ∧ (m.terminate ∨ m.quit) then .exited else .running m
    | .timeout => .exited
    | .failed => .running m

/-- The loop over a sequence of events. -/
def Master.run (m : Master) : List Event → Outcome
  | [] => .running m
  | e :: es =>
    match m.step e with
    | .running m => m.run es
    | o => o

/-! ### What a reload is meant to do -/

/-- The state after an event, as it is meant to be: after a failed reload the
cycle in force and its `dbconn` are what they were, after a successful one a
new cycle is in force whose `dbconn` is `0`. -/
def Kept (m : Master) (e : Event) (m' : Master) : Prop :=
  match e with
  | .reload false =>
    m'.cycle = m.cycle ∧ m'.ngxCycle = m.ngxCycle ∧
      (m'.cycles m.ngxCycle).dbconn = (m.cycles m.ngxCycle).dbconn
  | .reload true =>
    m'.cycle = some m.next ∧ m'.ngxCycle = m.next ∧ (m'.cycles m.next).dbconn = 0
  | _ => m'.cycle = m.cycle ∧ m'.ngxCycle = m.ngxCycle ∧ m'.cycles = m.cycles

/-- Along the sequence of events no null pointer is dereferenced and every state
is as it is meant to be. -/
def Survives (m : Master) : List Event → Prop
  | [] => True
  | e :: es =>
    match m.step e with
    | .running m' => Kept m e m' ∧ Survives m' es
    | .exited => True
    | .fault => False

/-- The master gets to a reload that fails. -/
def ReloadFails (m : Master) (es : List Event) : Prop :=
  ∃ before after m', es = before ++ .reload false :: after ∧ m.run before = .running m'

/-! ### The loop -/

/-- **What an event can do** while a cycle is in force: end the loop, leave the
state as it is meant to be, with a cycle in force, or, for a reload that fails,
run into the null pointer. -/
theorem Master.step_cases {m : Master} (hm : m.cycle = some m.ngxCycle) (e : Event) :
    (e ≠ .reload false ∧ m.step e = .exited) ∨
    (e ≠ .reload false ∧
      ∃ m', m.step e = .running m' ∧ Kept m e m' ∧ m'.cycle = some m'.ngxCycle) ∨
    (e = .reload false ∧ m.step e = .fault) := by
  obtain ⟨cycles, next, cycle, ngxCycle, timer, terminate, quit⟩ := m
  obtain rfl : cycle = some ngxCycle := hm
  unfold Master.step
  cases e with
  | stop now => exact Or.inr (Or.inl ⟨by simp, _, rfl, ⟨rfl, rfl, rfl⟩, rfl⟩)
  | quit => exact Or.inr (Or.inl ⟨by simp, _, rfl, ⟨rfl, rfl, rfl⟩, rfl⟩)
  | reopen => exact Or.inr (Or.inl ⟨by simp, _, rfl, ⟨rfl, rfl, rfl⟩, rfl⟩)
  | reload ok =>
    cases ok with
    | false => exact Or.inr (Or.inr ⟨rfl, rfl⟩)
    | true =>
      -- the inherited `1` has been overwritten
      refine Or.inr (Or.inl ⟨by simp, _, rfl, ⟨rfl, rfl, ?_⟩, rfl⟩)
      simp [Master.setDbconn]
  | reap live =>
    dsimp only
    split
    · exact Or.inl ⟨by simp, rfl⟩
    · exact Or.inr (Or.inl ⟨by simp, _, rfl, ⟨rfl, rfl, rfl⟩, rfl⟩)
  | timeout => exact Or.inl ⟨by simp, rfl⟩
  | failed => exact Or.inr (Or.inl ⟨by simp, _, rfl, ⟨rfl, rfl, rfl⟩, rfl⟩)

theorem reloadFails_cons {m m' : Master} {e : Event} (he : e ≠ .reload false)
    (hstep : m.step e = .running m') (es : List Event) :
    ReloadFails m (e :: es) ↔ ReloadFails m' es := by
  -- the reload that fails is not the first event, so it comes in the rest
  constructor
  · rintro ⟨before, after, last, hes, hrun⟩
    cases before with
    | nil =>
      obtain rfl : e = .reload false := (List.cons.inj hes).1
      exact absurd rfl he
    | cons x before =>
      obtain ⟨rfl, htail⟩ := List.cons.inj hes
      rw [Master.run, hstep] at hrun
      exact ⟨before, after, last, htail, hrun⟩
  · rintro ⟨before, after, last, rfl, hrun⟩
    exact ⟨e :: before, after, last, rfl, by rw [Master.run, hstep]; exact hrun⟩

/-- **When the master survives its reloads.** From a state with a cycle in force,
along every sequence of events: no null cycle is dereferenced, a failed reload
leaves the old cycle and its `dbconn`, and a successful one puts a cycle with
`dbconn = 0` in force, exactly when no reload that the loop gets to fails. -/
theorem master_survives_iff {m : Master} (hm : m.cycle = some m.ngxCycle) (es : List Event) :
    Survives m es ↔ ¬ ReloadFails m es := by
  -- on the events; a cycle is in force as long as the loop runs
  induction es generalizing m with
  | nil =>
    refine iff_of_true trivial ?_
    rintro ⟨before, after, last, hes, -⟩
    simp at hes
  | cons e es ih =>
    rw [Survives]
    rcases m.step_cases hm e with ⟨he, hstep⟩ | ⟨he, m', hstep, hkept, hm'⟩ | ⟨rfl, hstep⟩
    · -- the loop is over, so that nothing behind this event is reached
      rw [hstep]
      refine iff_of_true trivial ?_
      rintro ⟨before, after, last, hes, hrun⟩
      cases before with
      | nil => exact he (List.cons.inj hes).1
      | cons x before =>
        obtain ⟨rfl, -⟩ := List.cons.inj hes
        rw [Master.run, hstep] at hrun
        cases hrun
    · rw [hstep, reloadFails_cons he hstep, ← ih hm']
      exact and_iff_right hkept
    · rw [hstep]
      exact iff_of_false id (not_not.mpr ⟨[], es, m, rfl, rfl⟩)

/-- The master as it enters the loop, with the first cycle in force. -/
def started : Master where
  cycles := fun _ => { dbconn := 0 }
  next := 1
  cycle := some 0
  ngxCycle := 0
  timer := 0
  terminate := false
  quit := false

/-- Two good reloads. -/
theorem master_survives_two_reloads :
    started.cycle = some started.ngxCycle ∧
      Survives started [.reload true, .reopen, .reload true] := by
  refine ⟨rfl, (master_survives_iff rfl _).mpr ?_⟩
  rintro ⟨before, after, last, hes, -⟩
  have hmem : Event.reload false ∈ [Event.reload true, .reopen, .reload true] := by
    rw [hes]
    simp
  exact absurd hmem (by decide)

/-- **One bad reload.** `ngx_init_cycle` returns null, `dbconn` is written through
it before the test, and the master is gone. -/
theorem master_falls_at_failed_reload :
    ¬ Survives started [.reload true, .reload false] := by
  intro h
  exact h.2

end Win32
