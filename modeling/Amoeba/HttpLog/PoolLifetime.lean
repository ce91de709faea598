import Amoeba.HttpLog.Session

/-!
# The lifetime of session pools

`ngx_http_log_set_dblog` creates an OCI environment and a session pool for each
`access_dblog` that names a database, and `cleanOCIEnv` destroys what the cycle
points to when the process exits. It does so only for a cycle whose `dbconn`
counts a connection, and nothing counts one.

The calls of the OCI are recorded here next to the configuration. The objects
are told apart by the number of the `OCIEnvCreate` call that they came with.

* `pools_destroyed_iff` — for every accepted configuration of a process that
  may connect, exactly when everything created is destroyed once.
-/

namespace HttpLog

open CString Nginx

/-! ### The calls -/

/-- The handles that are allocated and freed. -/
inductive HandleType where
  | env
  | error
  | spool
  | authinfo
  deriving DecidableEq, Repr

/-- The calls that create and destroy. A pointer that is passed can be null. -/
inductive OciCall where
  | envCreate (n : Nat)
  | handleAlloc (type : HandleType) (n : Nat)
  | sessionPoolCreate (n : Nat)
  | sessionPoolDestroy (poolhp : Option Nat)
  | handleFree (type : HandleType) (hndlp : Option Nat)
  deriving DecidableEq, Repr

/-- The fields of `ngx_cycle_t` for the database. -/
structure OciCycle where
  dbconn : Nat
  poolhp : Option Nat
  envhp : Option Nat
  errhp : Option Nat
  authp : Option Nat
  deriving DecidableEq, Repr

/-- A process: its cycle and the calls it has made. -/
structure Process where
  cycle : OciCycle
  calls : List OciCall
  deriving DecidableEq, Repr

/-- `ngx_init_cycle` -/
def Process.initial (dbconn : Nat) : Process := ⟨⟨dbconn, none, none, none, none⟩, []⟩

/-- The number of the next environment. -/
def Process.envs (p : Process) : Nat :=
  p.calls.countP fun
    | .envCreate _ => true
    | _ => false

/-- The session pool of an `access_dblog`, when the calls succeed. The count of
connections is read and not changed. -/
def Process.openSessionPool (p : Process) : Process :=
  if p.cycle.dbconn = 0 then
    let n := p.envs
    { cycle :=
        { dbconn := p.cycle.dbconn
          poolhp := some n
          envhp := some n
          errhp := some n
          authp := some n }
      calls := p.calls ++ [.envCreate n, .handleAlloc .error n, .handleAlloc .spool n,
        .sessionPoolCreate n, .handleAlloc .authinfo n] }
  else p

/-- `cleanOCIEnv`. The pointers to the error handle and to the authentication
handle stay. -/
def Process.cleanOCIEnv (p : Process) : Process :=
  if p.cycle.dbconn ≠ 0 ∧ p.cycle.envhp.isSome ∧ p.cycle.poolhp.isSome then
    { cycle := { p.cycle with dbconn := p.cycle.dbconn - 1, poolhp := none, envhp := none }
      calls := p.calls ++ [.sessionPoolDestroy p.cycle.poolhp, .handleFree .spool p.cycle.poolhp,
        .handleFree .env p.cycle.envhp, .handleFree .authinfo p.cycle.authp,
        .handleFree .error p.cycle.errhp] }
  else p

/-- What a directive does, once it is accepted. -/
def Process.directive (p : Process) (d : LogDirective) : Process :=
  if d.source.isSome then p.openSessionPool else p

section

variable (index : List UInt8 → Option Nat) (script : List UInt8 → Option (List Nat))

/-- The handler of a directive, with its calls. -/
def setOci (x : Shared × Process) (k : LocConf) (d : LogDirective) :
    Except LogError ((Shared × Process) × LocConf) :=
  match set index script x.1 k d with
  | .error e => .error e
  | .ok (s, k) => .ok ((s, x.2.directive d), k)

/-- Read the `http` block. Merging and `ngx_http_log_init` make no calls. -/
def loadOci (dbconn : Nat) (old : Statics) (http : Body LogDirective) :
    Except LogError (Shared × Process) :=
  match http.parse (setOci index script) .create (.create dbconn old, .initial dbconn) .create with
  | .error e => .error e
  | .ok (x, _, _) => .ok x

end

/-! ### The handles of the cycle -/

section

variable {index : List UInt8 → Option Nat} {script : List UInt8 → Option (List Nat)}

theorem setOci_ok {x x' : Shared × Process} {k k' : LocConf} {d : LogDirective}
    (h : setOci index script x k d = .ok (x', k')) :
    set index script x.1 k d = .ok (x'.1, k') ∧ x'.2 = x.2.directive d := by
  unfold setOci at h
  split at h
  · simp at h
  next s k₁ hset =>
    obtain ⟨rfl, rfl⟩ : (s, x.2.directive d) = x' ∧ k₁ = k' := by simpa using h
    exact ⟨hset, rfl⟩

theorem loadOci_parse {dbconn : Nat} {old : Statics} {http : Body LogDirective}
    {x : Shared × Process} (h : loadOci index script dbconn old http = .ok x) :
    ∃ k cs, http.parse (setOci index script) .create (.create dbconn old, .initial dbconn) .create =
      .ok (x, k, cs) := by
  unfold loadOci at h
  split at h
  · simp at h
  next k cs hparse =>
    obtain rfl := Except.ok.inj h
    exact ⟨k, cs, hparse⟩

/-- **The process after a configuration.** -/
theorem loadOci_process {dbconn : Nat} {old : Statics} {http : Body LogDirective} {s : Shared}
    {p : Process} (h : loadOci index script dbconn old http = .ok (s, p)) :
    p = http.directives.foldl Process.directive (.initial dbconn) := by
  obtain ⟨k, cs, hparse⟩ := loadOci_parse h
  exact parse_shared (q := Prod.snd) (fun x k d x' k' hset => (setOci_ok hset).2) hparse

/-- The calls do not depend on the configuration, nor the configuration on the
calls. -/
theorem loadOci_shared {dbconn : Nat} {old : Statics} {http : Body LogDirective} {s : Shared}
    {p : Process} (h : loadOci index script dbconn old http = .ok (s, p)) :
    ∃ k cs, http.parse (set index script) .create (.create dbconn old) .create = .ok (s, k, cs) := by
  obtain ⟨k, cs, hparse⟩ := loadOci_parse h
  -- the calls are written next to the configuration and never read
  have hset : ∀ x k d x' k', setOci index script x k d = .ok (x', k') →
      set index script (Prod.fst x) (id k) d = .ok (Prod.fst x', id k') :=
    fun x k d x' k' h => (setOci_ok h).1
  exact ⟨k, _, parse_map hset hparse⟩

/-- The databases that the directives name, in the order of the text. -/
def sources (ds : List LogDirective) : List Credentials := ds.filterMap LogDirective.source

/-- **A process that may connect** counts no connection, and its cycle points to the
last pool only. -/
theorem foldl_directive_zero (ds : List LogDirective) :
    let p := ds.foldl Process.directive (.initial 0)
    p.envs = (sources ds).length ∧ p.cycle = if sources ds = [] then ⟨0, none, none, none, none⟩
      else
        let n := some ((sources ds).length - 1)
        ⟨0, n, n, n, n⟩ := by
  induction ds using List.reverseRecOn with
  | nil => exact ⟨rfl, rfl⟩
  | append_singleton ds d ih =>
    obtain ⟨henvs, hcycle⟩ := ih
    have hdbconn : (ds.foldl Process.directive (.initial 0)).cycle.dbconn = 0 := by
      rw [hcycle]
      split <;> rfl
    rw [List.foldl_append, List.foldl_cons, List.foldl_nil, Process.directive]
    cases hd : d.source with
    | none => simpa [sources, hd] using And.intro henvs hcycle
    | some creds =>
      -- the count is still zero, so the pointers are written over
      rw [if_pos (by simp), Process.openSessionPool, if_pos hdbconn]
      have hsources : sources (ds ++ [d]) = sources ds ++ [creds] := by simp [sources, hd]
      refine ⟨?_, ?_⟩
      · rw [hsources, List.length_append, List.length_singleton, ← henvs]
        simp [Process.envs, List.countP_append]
      · simp [hsources, henvs, hdbconn]

/-- A process that may not connect makes no calls. -/
theorem foldl_directive_pos {dbconn : Nat} (hdbconn : dbconn ≠ 0) (ds : List LogDirective) :
    ds.foldl Process.directive (.initial dbconn) = .initial dbconn := by
  induction ds with
  | nil => rfl
  | cons d ds ih =>
    have hd : (Process.initial dbconn).directive d = .initial dbconn := by
      unfold Process.directive Process.openSessionPool
      rw [if_neg (show (Process.initial dbconn).cycle.dbconn ≠ 0 from hdbconn), ite_self]
    rw [List.foldl_cons, hd, ih]

/-- The pool that a number stands for. -/
def poolOf (ds : List LogDirective) (n : Nat) : Option Pool := ((sources ds)[n]?).map .created

/-- **The handles of the cycle** are those of the model with credentials. -/
theorem loadOci_handles {dbconn : Nat} {old : Statics} {http : Body LogDirective} {s : Shared}
    {p : Process} (h : loadOci index script dbconn old http = .ok (s, p)) :
    s.db.dbconn = p.cycle.dbconn ∧ s.db.cycle =
      { poolhp := p.cycle.poolhp.bind (poolOf http.directives)
        envhp := p.cycle.envhp.bind (poolOf http.directives)
        errhp := p.cycle.errhp.bind (poolOf http.directives)
        authp := p.cycle.authp.bind (poolOf http.directives) } := by
  obtain ⟨k, cs, hparse⟩ := loadOci_shared h
  obtain ⟨hcount, hhandles⟩ := handles_parse hparse
  obtain rfl := loadOci_process h
  have hcycle : s.db.cycle = _ :=
    congrArg (fun x : Handles × Handles × Option Pool => x.1) hhandles
  by_cases hdbconn : dbconn = 0
  · subst hdbconn
    -- both sides are determined by the last database of the text
    obtain ⟨-, hp⟩ := foldl_directive_zero http.directives
    rw [foldl_stepHandles_zero] at hcycle
    rw [hcycle, hcount, hp]
    rcases List.eq_nil_or_concat' (sources http.directives) with hnil | ⟨before, creds, hlast⟩
    · have hnone : lastSource http.directives = none := by
        rw [lastSource, ← sources, hnil]
        rfl
      rw [hnone, if_pos hnil]
      exact ⟨rfl, rfl⟩
    · -- the last number stands for the last database
      have hsome : lastSource http.directives = some creds := by
        rw [lastSource, ← sources, hlast, List.getLast?_concat]
      have hpool : poolOf http.directives ((sources http.directives).length - 1) =
          some (.created creds) := by
        rw [poolOf, hlast]
        simp
      rw [hsome, if_neg (by simp [hlast])]
      simp [hpool, Handles.of]
  · rw [foldl_directive_pos hdbconn, hcount, hcycle, foldl_stepHandles_pos hdbconn]
    refine ⟨rfl, ?_⟩
    split <;> rfl

/-! ### What is destroyed -/

/-- Each environment and each session pool has been destroyed exactly once. -/
def Process.AllDestroyed (p : Process) : Prop :=
  (∀ n, .envCreate n ∈ p.calls → p.calls.count (.handleFree .env (some n)) = 1) ∧
    ∀ n, .sessionPoolCreate n ∈ p.calls → p.calls.count (.sessionPoolDestroy (some n)) = 1

/-- Nothing has been destroyed twice. -/
def Process.NoneTwice (p : Process) : Prop :=
  ∀ n, p.calls.count (.handleFree .env (some n)) ≤ 1 ∧
    p.calls.count (.sessionPoolDestroy (some n)) ≤ 1

/-- No call so far destroys anything. -/
def Process.Untouched (p : Process) : Prop :=
  ∀ h, (∀ type, .handleFree type h ∉ p.calls) ∧ .sessionPoolDestroy h ∉ p.calls

/-- Reading a directive destroys nothing. -/
theorem Process.Untouched.directive {p : Process} (h : p.Untouched) (d : LogDirective) :
    (p.directive d).Untouched := by
  unfold Process.directive Process.openSessionPool
  split
  · split
    · intro hndlp
      obtain ⟨hfree, hdestroy⟩ := h hndlp
      simp [hfree, hdestroy]
    · exact h
  · exact h

theorem untouched_foldl (ds : List LogDirective) {p : Process} (h : p.Untouched) :
    (ds.foldl Process.directive p).Untouched := by
  induction ds generalizing p with
  | nil => exact h
  | cons d ds ih => exact ih (h.directive d)

/-- Without a database no calls are made. -/
theorem foldl_directive_of_none {ds : List LogDirective} (h : ∀ d ∈ ds, d.source = none)
    (p : Process) : ds.foldl Process.directive p = p := by
  induction ds with
  | nil => rfl
  | cons d ds ih =>
    obtain ⟨hd, hds⟩ := List.forall_mem_cons.mp h
    rw [List.foldl_cons, Process.directive, hd, if_neg (by simp)]
    exact ih hds

/-- **Nothing is cleaned** in a process that may connect. -/
theorem cleanOCIEnv_eq_self {p : Process} (h : p.cycle.dbconn = 0) : p.cleanOCIEnv = p :=
  if_neg fun hclean => hclean.1 h

/-- **When session pools are not leaked.** For every accepted configuration of a
process that starts with a `dbconn` of zero: after `cleanOCIEnv` every
environment and every session pool that was created has been destroyed exactly
once, and however often it is called none has been destroyed twice, if and only
if no directive of the text names a database. -/
theorem pools_destroyed_iff {old : Statics} {http : Body LogDirective} {s : Shared} {p : Process}
    (h : loadOci index script 0 old http = .ok (s, p)) :
    (p.cleanOCIEnv.AllDestroyed ∧ ∀ k, (Process.cleanOCIEnv^[k] p).NoneTwice) ↔
      ∀ d ∈ http.directives, d.source = none := by
  obtain ⟨henvs, hcycle⟩ := foldl_directive_zero http.directives
  rw [← loadOci_process h] at henvs hcycle
  have hdbconn : p.cycle.dbconn = 0 := by
    rw [hcycle]
    split <;> rfl
  -- reading the text destroys nothing, and neither does `cleanOCIEnv`
  have huntouched : p.Untouched := by
    rw [loadOci_process h]
    exact untouched_foldl _ (by simp [Process.Untouched, Process.initial])
  rw [cleanOCIEnv_eq_self hdbconn]
  constructor
  · rintro ⟨⟨hall, -⟩, -⟩
    -- an environment that was created has not been freed
    have hnone : p.envs = 0 := by
      rw [Process.envs, List.countP_eq_zero]
      intro call hcall hcreate
      cases call with
      | envCreate n =>
        have hcount := hall n hcall
        rw [List.count_eq_zero_of_not_mem ((huntouched (some n)).1 .env)] at hcount
        exact absurd hcount (by decide)
      | _ => simp at hcreate
    rw [henvs] at hnone
    exact List.filterMap_eq_nil_iff.mp (List.length_eq_zero_iff.mp hnone)
  · intro hnone
    -- without a database there is nothing to destroy
    have hcalls : p.calls = [] := by
      rw [loadOci_process h, foldl_directive_of_none hnone]
      rfl
    refine ⟨⟨by simp [hcalls], by simp [hcalls]⟩, fun k => ?_⟩
    rw [Function.iterate_fixed (cleanOCIEnv_eq_self hdbconn)]
    simp [Process.NoneTwice, hcalls]

/-- A server with `access_dblog off`. -/
theorem pools_destroyed_off :
    ∃ s p, loadOci nameIndex noScript 0 .initial
        (.block (.directive (.accessDblog (ascii "off") [] ⟨true, true⟩) .nil) .nil) = .ok (s, p) ∧
      p.cleanOCIEnv.AllDestroyed ∧ ∀ k, (Process.cleanOCIEnv^[k] p).NoneTwice := by
  obtain ⟨⟨s, p⟩, h⟩ := exists_of_isOk (x := loadOci nameIndex noScript 0 .initial
    (.block (.directive (.accessDblog (ascii "off") [] ⟨true, true⟩) .nil) .nil)) (by decide +kernel)
  exact ⟨s, p, h, (pools_destroyed_iff h).mpr (by decide)⟩

/-- **Two pools that stay.** Two servers, each with a database: both session pools
and both environments are still there after `cleanOCIEnv`, which does nothing. -/
theorem pools_leaked :
    ∃ s p, loadOci nameIndex noScript 0 .initial (twoServers "a" "b") = .ok (s, p) ∧
      .sessionPoolCreate 0 ∈ p.calls ∧ .sessionPoolCreate 1 ∈ p.calls ∧ p.cleanOCIEnv = p ∧
      ¬ (p.cleanOCIEnv.AllDestroyed ∧ ∀ k, (Process.cleanOCIEnv^[k] p).NoneTwice) := by
  obtain ⟨⟨s, p⟩, h⟩ := exists_of_isOk (x := loadOci nameIndex noScript 0 .initial
    (twoServers "a" "b")) (by decide +kernel)
  obtain rfl := loadOci_process h
  refine ⟨s, _, h, by decide +kernel, by decide +kernel, by decide +kernel, fun hall => ?_⟩
  have hcount := hall.1.2 0 (by decide +kernel)
  exact absurd hcount (by decide +kernel)

end

end HttpLog
