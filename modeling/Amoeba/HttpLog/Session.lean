import Amoeba.HttpLog.Handler

/-!
# Session pools and locations

`ngx_write_dblog` takes its session from static variables, which each
`access_dblog` overwrites when it is read. Whether a location writes, and for
which directive, is settled later, when the blocks are merged; a location
without any `access_dblog` around it gets a default entry.

* `dblog_pooled_iff` — for every accepted configuration, exactly when all
  writes find a session pool of this configuration.
* `dblog_session_iff` — for every accepted configuration, every location and
  every request, exactly when a statement is executed in a session of the pool
  of the directive in effect.
-/

namespace HttpLog

open CString Nginx

/-! ### The static variables after the text -/

/-- What the directive creates a session pool with. -/
def LogDirective.source : LogDirective → Option Credentials
  | .accessDblog value (username :: password :: _) _ =>
    if cut value = ascii "off" then none else some ⟨value, username, password⟩
  | _ => none

/-- The directive is an `access_dblog off`. -/
def LogDirective.isOff : LogDirective → Bool
  | .accessDblog value _ _ => cut value = ascii "off"
  | _ => false

/-- The credentials of the last `access_dblog` of a text that has some. -/
def lastSource (ds : List LogDirective) : Option Credentials :=
  (ds.filterMap LogDirective.source).getLast?

/-- What a directive does to the handles. -/
def stepHandles (dbconn : Nat) (h : Handles × Handles × Option Pool) (d : LogDirective) :
    Handles × Handles × Option Pool :=
  match d.source with
  | none => h
  | some creds =>
    if dbconn = 0 then (.of (.created creds), .of (.created creds), some (.created creds))
    else (h.1, h.1, h.2.2)

/-- The handles of the cycle, the static handles and the name of the pool. -/
def DblogShared.handles (s : DblogShared) : Handles × Handles × Option Pool :=
  (s.cycle, s.static, s.poolName)

section

variable {index : List UInt8 → Option Nat} {script : List UInt8 → Option (List Nat)}

/-- **The effect of a directive on the handles and on the flags of its block.** -/
theorem setDb_effect {s s' : DblogShared} {k k' : DblogConf} {d : LogDirective}
    (h : setDb index s k d = .ok (s', k')) :
    s'.dbconn = s.dbconn ∧ s'.handles = stepHandles s.dbconn s.handles d ∧
      k'.dblogs.isSome = (k.dblogs.isSome || d.source.isSome) ∧
      k'.dblogoff = (k.dblogoff || d.isOff) := by
  cases d with
  | dblogFormat name args =>
    rw [setDb, setDblogFormat] at h
    split at h
    · simp [Except.map] at h
    · split at h
      · simp [Except.map] at h
      · obtain ⟨rfl, rfl⟩ : _ = s' ∧ k = k' := by simpa [Except.map] using h
        simp [LogDirective.source, LogDirective.isOff, stepHandles, DblogShared.handles]
  | accessDblog value more oci =>
    rcases setDblog_cases h with
      ⟨hoff, rfl, rfl⟩ | ⟨hoff, username, password, rest, format, used, rfl, -, hopen, rfl⟩
    · have hsource : (LogDirective.accessDblog value more oci).source = none := by
        unfold LogDirective.source
        split <;> simp_all
      simp [hsource, LogDirective.isOff, hoff, stepHandles]
    · have hsource : (LogDirective.accessDblog value (username :: password :: rest) oci).source =
          some ⟨value, username, password⟩ := by simp [LogDirective.source, hoff]
      simp only [stepHandles, hsource, LogDirective.isOff, hoff, decide_false, Bool.or_false,
        Option.isSome_some, Bool.or_true, and_true]
      -- a pool is created, or the handles of the cycle are copied
      rcases openSessionPool_cases hopen with ⟨hdbconn, rfl⟩ | ⟨hdbconn, rfl⟩
      · exact ⟨rfl, (if_pos hdbconn).symm⟩
      · exact ⟨rfl, (if_neg hdbconn).symm⟩
  | _ =>
    obtain ⟨rfl, rfl⟩ : s = s' ∧ k = k' := by simpa [setDb] using h
    simp [LogDirective.source, LogDirective.isOff, stepHandles]

/-- **The last pool remains.** -/
theorem foldl_stepHandles_zero (ds : List LogDirective) (h : Handles × Handles × Option Pool) :
    ds.foldl (stepHandles 0) h =
      (lastSource ds).elim h fun creds =>
        (.of (.created creds), .of (.created creds), some (.created creds)) := by
  -- from the end of the text, since the last source decides
  induction ds using List.reverseRecOn with
  | nil => rfl
  | append_singleton ds d ih =>
    rw [List.foldl_append, List.foldl_cons, List.foldl_nil, ih, stepHandles]
    cases hd : d.source with
    | none => simp [lastSource, hd]
    | some creds => simp [lastSource, hd]

/-- Without a connection, the handles of the new cycle are null and stay so. -/
theorem foldl_stepHandles_pos {dbconn : Nat} (hdbconn : dbconn ≠ 0) (ds : List LogDirective)
    (h : Handles × Handles × Option Pool) :
    ds.foldl (stepHandles dbconn) h =
      if (lastSource ds).isSome then (h.1, h.1, h.2.2) else h := by
  induction ds using List.reverseRecOn with
  | nil => rfl
  | append_singleton ds d ih =>
    rw [List.foldl_append, List.foldl_cons, List.foldl_nil, ih, stepHandles]
    cases hd : d.source with
    | none => simp [lastSource, hd]
    | some creds =>
      simp only [hdbconn, if_false]
      split <;> simp [lastSource, hd]

/-- **The handles after the text.** -/
theorem handles_parse {dbconn : Nat} {old : Statics} {s : Shared} {k : LocConf} {cs : Confs LocConf}
    {http : Body LogDirective}
    (h : http.parse (set index script) .create (.create dbconn old) .create = .ok (s, k, cs)) :
    s.db.dbconn = dbconn ∧ s.db.handles =
      http.directives.foldl (stepHandles dbconn) (Shared.create dbconn old).db.handles := by
  have hset : ∀ s k d s' k', set index script s k d = .ok (s', k') →
      (s'.db.dbconn, s'.db.handles) = (s.db.dbconn, stepHandles s.db.dbconn s.db.handles d) := by
    intro s k d s' k' hset
    obtain ⟨hdbconn, hhandles, -⟩ := setDb_effect (set_ok hset).1
    rw [hdbconn, hhandles]
  have hshared := parse_shared (q := fun s : Shared => (s.db.dbconn, s.db.handles))
    (g := fun x d => (x.1, stepHandles x.1 x.2 d)) hset h
  -- the number of connections is the same all along
  have hfold : ∀ (ds : List LogDirective) h, ds.foldl (fun x d => (x.1, stepHandles x.1 x.2 d))
      (dbconn, h) = (dbconn, ds.foldl (stepHandles dbconn) h) := by
    intro ds
    induction ds with
    | nil => exact fun h => rfl
    | cons d ds ih => exact fun h => ih _
  have hcreate : (Shared.create dbconn old).db.dbconn = dbconn := rfl
  rw [hcreate, hfold] at hshared
  exact Prod.ext_iff.mp hshared

/-- **The handles after a configuration.** -/
theorem handles_readConf {dbconn : Nat} {old : Statics} {s : Shared} {http : Body LogDirective}
    {locs : List LocConf} (h : readConf index script (.create dbconn old) http = .ok (s, locs)) :
    s.db.handles =
      http.directives.foldl (stepHandles dbconn) (Shared.create dbconn old).db.handles := by
  obtain ⟨s₁, k, cs, hparse, -, hinit⟩ := readConf_stages h
  have hdb : s.db.handles = s₁.db.handles := by
    unfold logInit at hinit
    split at hinit
    · simp at hinit
    · simp at hinit
    · obtain rfl := Except.ok.inj hinit
      rfl
  rw [hdb]
  exact (handles_parse hparse).2

end

/-! ### Which locations write -/

/-- A block is switched off: by a directive of its own, or, when it has none, by
the block around it. -/
def offHere (outer : Bool) (own : List LogDirective) : Bool :=
  if own.any fun d => d.source.isSome || d.isOff then own.any (·.isOff) else outer

/-- All blocks of a text are switched off. -/
def quiet (outer : Bool) : Body LogDirective → Bool
  | .nil => true
  | .directive _ rest => quiet outer rest
  | .block inner rest =>
    offHere outer inner.own && quiet (offHere outer inner.own) inner && quiet outer rest

/-- There is an entry in the block, and the block is switched off. -/
def DblogConf.flags (k : DblogConf) : Bool × Bool := (k.dblogs.isSome, k.dblogoff)

/-- What a directive does to the flags of its block. -/
def stepFlags (x : Bool × Bool) (d : LogDirective) : Bool × Bool :=
  (x.1 || d.source.isSome, x.2 || d.isOff)

/-- Merging, on the flags. -/
def mergeFlags (prev conf : Bool × Bool) : Bool × Bool :=
  if conf.1 || conf.2 then conf else if prev.1 || prev.2 then prev else (true, false)

theorem flags_mergeDblog (prev conf : DblogConf) :
    (mergeDblog prev conf).flags = mergeFlags prev.flags conf.flags := by
  unfold mergeDblog mergeFlags DblogConf.flags
  dsimp only
  split_ifs <;> rfl

theorem foldl_stepFlags (ds : List LogDirective) (x : Bool × Bool) :
    ds.foldl stepFlags x = (x.1 || ds.any (·.source.isSome), x.2 || ds.any (·.isOff)) := by
  induction ds generalizing x with
  | nil => simp
  | cons d ds ih => simp [ih, stepFlags, Bool.or_assoc]

/-- A merged block is switched off. -/
theorem mergeFlags_foldl (outer : Bool × Bool) (own : List LogDirective) :
    (mergeFlags outer (own.foldl stepFlags (false, false))).2 = offHere outer.2 own := by
  have hany : (own.any fun d => d.source.isSome || d.isOff) =
      (own.any (·.source.isSome) || own.any (·.isOff)) := by
    induction own with
    | nil => rfl
    | cons d own ih =>
      simp only [List.any_cons, ih]
      ac_rfl
  rw [foldl_stepFlags, offHere, hany, mergeFlags]
  simp only [Bool.false_or]
  split
  · rfl
  · split
    · rfl
    next houter =>
      -- the default entry of a block around without flags
      have hfalse : outer.2 = false := by simp_all
      exact hfalse.symm

/-- The outermost block is switched off by its own directives only. -/
theorem offHere_false (own : List LogDirective) : offHere false own = own.any (·.isOff) := by
  unfold offHere
  split
  · rfl
  next hnone =>
    refine (List.any_eq_false.mpr fun d hd hoff => hnone ?_).symm
    exact List.any_eq_true.mpr ⟨d, hd, by simp [hoff]⟩

/-- **All merged blocks are switched off** if and only if the text is quiet. -/
theorem quiet_iff (body : Body LogDirective) (outer : Bool × Bool) :
    (∀ x ∈ ((body.confs stepFlags (false, false)).merge mergeFlags outer).toList, x.2 = true) ↔
      quiet outer.2 body = true := by
  induction body generalizing outer with
  | nil => simp [Body.confs, Confs.merge, Confs.toList, quiet]
  | directive d rest ih => exact ih outer
  | block inner rest ihi ihr =>
    rw [Body.confs, Confs.merge, Confs.toList, List.forall_mem_cons, List.forall_mem_append, ihi,
      ihr, mergeFlags_foldl, quiet, Bool.and_eq_true, Bool.and_eq_true, and_assoc]

section

variable {index : List UInt8 → Option Nat} {script : List UInt8 → Option (List Nat)}

/-- **All locations are switched off** if and only if the text is quiet. -/
theorem forall_dblogoff_iff {s s' : Shared} {http : Body LogDirective} {locs : List LocConf}
    (h : readConf index script s http = .ok (s', locs)) :
    (∀ lcf ∈ locs, lcf.db.dblogoff = true) ↔ quiet (offHere false http.own) http = true := by
  obtain ⟨s₁, k, cs, hparse, rfl, -⟩ := readConf_stages h
  have hset : ∀ s k d s' k', set index script s k d = .ok (s', k') →
      k'.db.flags = stepFlags k.db.flags d := by
    intro s k d s' k' hset
    obtain ⟨-, -, hsome, hoff⟩ := setDb_effect (set_ok hset).1
    rw [DblogConf.flags, hsome, hoff]
    rfl
  obtain ⟨hk, hcs⟩ := parse_own (p := fun k : LocConf => k.db.flags) hset hparse
  have hf : ∀ prev conf : LocConf,
      (mergeLocConf prev conf).db.flags = mergeFlags prev.db.flags conf.db.flags :=
    fun prev conf => flags_mergeDblog prev.db conf.db
  have hmerge : ((cs.merge mergeLocConf k).toList.map fun lcf => lcf.db.flags) =
      ((http.confs stepFlags (false, false)).merge mergeFlags k.db.flags).toList := by
    rw [← Confs.toList_map, Confs.map_merge (p := fun lcf : LocConf => lcf.db.flags) hf, hcs]
    rfl
  have hhttp : k.db.flags.2 = offHere false http.own := by
    rw [hk, foldl_stepFlags, offHere_false]
    exact Bool.false_or _
  rw [← hhttp, ← quiet_iff, ← hmerge]
  simp [DblogConf.flags]

/-- The handler calls `ngx_write_dblog` unless the location is switched off. -/
theorem effective_ne_nil_iff {s : Shared} {lcf : LocConf} (h : MergedOk s lcf) :
    lcf.effective ≠ [] ↔ lcf.db.dblogoff = false := by
  obtain ⟨⟨-, hdblogs⟩, -, hnone⟩ := h
  unfold LocConf.effective
  cases hoff : lcf.db.dblogoff with
  | true => simp
  | false =>
    cases hdb : lcf.db.dblogs with
    | none => simp [hnone hdb] at hoff
    | some dblogs =>
      have hne := hdblogs.1
      simpa [hdb] using hne

/-! ### Pools in time -/

/-- What `ngx_write_dblog` uses belongs to pools of this configuration. -/
def DblogShared.Pooled (s : DblogShared) : Prop :=
  ∀ h ∈ [s.poolName, s.static.envhp, s.static.errhp, s.static.authp],
    ∃ creds, h = some (.created creds)

instance (s : DblogShared) : Decidable s.Pooled :=
  decidable_of_iff (∀ h ∈ [s.poolName, s.static.envhp, s.static.errhp, s.static.authp],
    (match h with | some (.created _) => true | _ => false) = true) <| by
    refine forall₂_congr fun h _ => ?_
    rcases h with _ | ⟨_ | _⟩ <;> simp

/-- A configuration that creates no pool leaves the name of the earlier one. -/
theorem poolName_of_not_created {dbconn : Nat} {old : Statics} {s : Shared}
    {http : Body LogDirective} {locs : List LocConf}
    (h : readConf index script (.create dbconn old) http = .ok (s, locs))
    (hnot : ¬ (dbconn = 0 ∧ (lastSource http.directives).isSome)) :
    s.db.poolName = old.poolName.map .earlier := by
  have hhandles := handles_readConf h
  by_cases hdbconn : dbconn = 0
  · subst hdbconn
    have hlast : lastSource http.directives = none := by simpa using hnot
    rw [foldl_stepHandles_zero, hlast, Option.elim_none] at hhandles
    exact congrArg (fun x : Handles × Handles × Option Pool => x.2.2) hhandles
  · -- without a connection the directives copy the null handles only
    rw [foldl_stepHandles_pos hdbconn] at hhandles
    split at hhandles <;>
      exact congrArg (fun x : Handles × Handles × Option Pool => x.2.2) hhandles

/-- A configuration that creates a pool leaves the handles of the last one. -/
theorem handles_of_created {old : Statics} {s : Shared} {http : Body LogDirective}
    {locs : List LocConf} (h : readConf index script (.create 0 old) http = .ok (s, locs))
    {creds : Credentials} (hlast : lastSource http.directives = some creds) :
    s.db.static = .of (.created creds) ∧ s.db.poolName = some (.created creds) := by
  have hhandles := handles_readConf h
  rw [foldl_stepHandles_zero, hlast, Option.elim_some] at hhandles
  obtain ⟨-, hstatic, hname⟩ : _ ∧ s.db.static = .of (.created creds) ∧
      s.db.poolName = some (.created creds) := by
    simpa [DblogShared.handles] using hhandles
  exact ⟨hstatic, hname⟩

/-- **Pooled after a configuration**: a directive has created a pool. -/
theorem pooled_iff {dbconn : Nat} {old : Statics} {s : Shared} {http : Body LogDirective}
    {locs : List LocConf} (h : readConf index script (.create dbconn old) http = .ok (s, locs)) :
    s.db.Pooled ↔ dbconn = 0 ∧ (lastSource http.directives).isSome := by
  constructor
  · intro hpooled
    by_contra hnot
    obtain ⟨creds, hname⟩ := hpooled _ List.mem_cons_self
    simp [poolName_of_not_created h hnot] at hname
  · rintro ⟨rfl, hsome⟩
    obtain ⟨creds, hlast⟩ := Option.isSome_iff_exists.mp hsome
    obtain ⟨hstatic, hname⟩ := handles_of_created h hlast
    simp [DblogShared.Pooled, hname, hstatic, Handles.of]

/-- A request and a location without variables. -/
def plainEnv : LogEnv Unit where
  now := epoch
  r := unanswered [] []
  vars := noTable
  rootTested := true
  aliasOk := true
  root := none
  symlinksFrom := []
  isDir := fun _ _ => true

/-- A location with entries in effect makes the handler write. -/
theorem calls_ne_nil {ρ : Type} {e : LogEnv ρ} {s : Shared} (hs : SharedOk s) {lcf : LocConf}
    (hlcf : MergedOk s lcf) {full : Nat → Bool} {c : Vars ρ} {calls : List (Dblog × List UInt8)}
    (hcalls : logHandler e s lcf full c = some calls) (h : lcf.effective ≠ []) : calls ≠ [] := by
  obtain ⟨calls', hcalls', hentries⟩ := logHandler_entries e hs hlcf full c
  obtain rfl : calls' = calls := Option.some.inj (hcalls'.symm.trans hcalls)
  rintro rfl
  exact h hentries.symm

/-- **When database logging has a session pool.** For every accepted configuration
and all static variables that earlier ones have left: in every location and for
every request, the handler comes to its end, and whenever it calls
`ngx_write_dblog`, the name of the pool and the handles belong to pools that
directives of this configuration have created, if and only if

* the process may connect, and some `access_dblog` of the text names a database, or
* every server and location is switched off: by an `access_dblog off` of its
  own, or, when it has no `access_dblog`, by the block around it. -/
theorem dblog_pooled_iff {dbconn : Nat} {old : Statics} {s : Shared} {http : Body LogDirective}
    {locs : List LocConf} (h : readConf index script (.create dbconn old) http = .ok (s, locs)) :
    (∀ lcf ∈ locs, ∀ {ρ : Type} (e : LogEnv ρ) full c, ∃ calls,
      logHandler e s lcf full c = some calls ∧ (calls ≠ [] → s.db.Pooled)) ↔
      (dbconn = 0 ∧ (lastSource http.directives).isSome) ∨
        quiet (offHere false http.own) http = true := by
  obtain ⟨hs, hlocs⟩ := readConf_ok h
  rw [← pooled_iff h, ← forall_dblogoff_iff h]
  constructor
  · intro hall
    by_cases hpooled : s.db.Pooled
    · exact .inl hpooled
    · refine .inr fun lcf hlcf => ?_
      obtain ⟨calls, hcalls, hpool⟩ := hall lcf hlcf plainEnv (fun _ => false) noVars
      -- a location that writes would use a pool
      by_contra hoff
      have hne := (effective_ne_nil_iff (hlocs lcf hlcf)).mpr (by simpa using hoff)
      exact hpooled (hpool (calls_ne_nil hs (hlocs lcf hlcf) hcalls hne))
  · intro hcond lcf hlcf ρ e full c
    obtain ⟨calls, hcalls, hentries⟩ := logHandler_entries e hs (hlocs lcf hlcf) full c
    refine ⟨calls, hcalls, fun hne => ?_⟩
    rcases hcond with hpooled | hquiet
    · exact hpooled
    · have hnil : lcf.effective ≠ [] := by
        rw [← hentries]
        simpa using hne
      rw [effective_ne_nil_iff (hlocs lcf hlcf), hquiet lcf hlcf] at hnil
      simp at hnil

/-- An index for each name, for the examples. -/
def nameIndex (var : List UInt8) : Option Nat :=
  some (var.foldl (fun n c => n * 256 + c.toNat) 0)

/-- `access_dblog` with this database, `scott` and `tiger`; the pool is created. -/
def dblogTo (database : String) : LogDirective :=
  .accessDblog (ascii database) [ascii "scott", ascii "tiger"] ⟨true, true⟩

/-- Two servers, the second with an `access_dblog` of its own. -/
def twoServers (first second : String) : Body LogDirective :=
  .directive (dblogTo first) (.block .nil (.block (.directive (dblogTo second) .nil) .nil))

/-- No path of these examples has variables. -/
def noScript (_ : List UInt8) : Option (List Nat) := none

theorem exists_of_isOk {ε α : Type} {x : Except ε α} (h : x.isOk = true) : ∃ a, x = .ok a := by
  cases x with
  | error e => simp [Except.isOk, Except.toBool] at h
  | ok a => exact ⟨a, rfl⟩

/-- A configuration that names a database. -/
theorem dblog_pooled_two_servers :
    ∃ s locs, readConf nameIndex noScript (.create 0 .initial) (twoServers "orcl" "orcl") =
        .ok (s, locs) ∧
      ∀ lcf ∈ locs, ∀ {ρ : Type} (e : LogEnv ρ) full c, ∃ calls,
        logHandler e s lcf full c = some calls ∧ (calls ≠ [] → s.db.Pooled) := by
  obtain ⟨⟨s, locs⟩, h⟩ := exists_of_isOk (x := readConf nameIndex noScript (.create 0 .initial)
    (twoServers "orcl" "orcl")) (by decide +kernel)
  exact ⟨s, locs, h, (dblog_pooled_iff h).mpr (.inl ⟨rfl, by decide +kernel⟩)⟩

/-- **A write without a pool.** A server without any `access_dblog`: its default
entry makes the handler call `ngx_write_dblog`, with a null name and null
handles. -/
theorem dblog_unpooled :
    ∃ s locs, readConf nameIndex noScript (.create 0 .initial) (.block .nil .nil) =
        .ok (s, locs) ∧
      (s.db.static = ⟨none, none, none, none⟩ ∧ s.db.poolName = none) ∧
      ¬ ∀ lcf ∈ locs, ∀ {ρ : Type} (e : LogEnv ρ) full c, ∃ calls,
        logHandler e s lcf full c = some calls ∧ (calls ≠ [] → s.db.Pooled) := by
  obtain ⟨⟨s, locs⟩, h⟩ := exists_of_isOk (x := readConf nameIndex noScript (.create 0 .initial)
    (.block .nil .nil)) (by decide +kernel)
  have hhandles := handles_readConf h
  obtain ⟨-, hstatic, hname⟩ : _ ∧ s.db.static = ⟨none, none, none, none⟩ ∧
      s.db.poolName = none := by
    simpa [DblogShared.handles, Shared.create, Statics.initial, Body.directives] using hhandles
  refine ⟨s, locs, h, ⟨hstatic, hname⟩, fun hall => ?_⟩
  obtain ⟨hs, hlocs⟩ := readConf_ok h
  -- the only server is not switched off
  have hwrites : ¬ ∀ lcf ∈ locs, lcf.db.dblogoff = true := by
    rw [forall_dblogoff_iff h]
    decide
  simp only [not_forall] at hwrites
  obtain ⟨lcf, hlcf, hoff⟩ := hwrites
  obtain ⟨calls, hcalls, hpooled⟩ := hall lcf hlcf plainEnv (fun _ => false) noVars
  have hne := (effective_ne_nil_iff (hlocs lcf hlcf)).mpr (by simpa using hoff)
  have hpool := hpooled (calls_ne_nil hs (hlocs lcf hlcf) hcalls hne)
  simp [DblogShared.Pooled, hname] at hpool

/-! ### The pool of a location -/

/-- `ngx_write_dblog`: the pool whose session executes the statement.
`OCISessionGet` looks for the name of the pool in the environment; a null
pointer, or a handle of another environment, gives no session. -/
def DblogShared.session (s : DblogShared) : Option Pool :=
  match s.poolName with
  | none => none
  | some pool =>
    if s.static.envhp = some pool ∧ s.static.errhp = some pool ∧ s.static.authp = some pool then
      some pool
    else none

/-- A session comes from the pool of this name. -/
theorem poolName_of_session {s : DblogShared} {pool : Pool} (h : s.session = some pool) :
    s.poolName = some pool := by
  unfold DblogShared.session at h
  split at h
  · simp at h
  next hname =>
    split at h
    · rw [hname, h]
    · simp at h

/-- **The session after a configuration.** -/
theorem session_iff {dbconn : Nat} {old : Statics} {s : Shared} {http : Body LogDirective}
    {locs : List LocConf} (h : readConf index script (.create dbconn old) http = .ok (s, locs))
    (creds : Credentials) :
    s.db.session = some (.created creds) ↔
      dbconn = 0 ∧ lastSource http.directives = some creds := by
  constructor
  · intro hsession
    have hname := poolName_of_session hsession
    by_cases hcreated : dbconn = 0 ∧ (lastSource http.directives).isSome
    · obtain ⟨rfl, hsome⟩ := hcreated
      obtain ⟨last, hlast⟩ := Option.isSome_iff_exists.mp hsome
      have hpool := (handles_of_created h hlast).2
      rw [hname, Option.some.injEq, Pool.created.injEq] at hpool
      exact ⟨rfl, by rw [hlast, hpool]⟩
    · -- the name of an earlier pool is not one of this configuration
      simp [poolName_of_not_created h hcreated] at hname
  · rintro ⟨rfl, hlast⟩
    obtain ⟨hstatic, hname⟩ := handles_of_created h hlast
    simp [DblogShared.session, hname, hstatic, Handles.of]

/-- **Whose database a request is logged to.** For every accepted configuration,
every location and every request, the handler passes one statement for each
entry in effect. One that comes from a directive is executed in a session of
the pool created with this directive's database, user and password if and only
if the process may connect and the last `access_dblog` of the whole text that
names a database names this one, with this user and password. -/
theorem dblog_session_iff {dbconn : Nat} {old : Statics} {s : Shared} {http : Body LogDirective}
    {locs : List LocConf} (h : readConf index script (.create dbconn old) http = .ok (s, locs))
    {lcf : LocConf} (hlcf : lcf ∈ locs) {ρ : Type} (e : LogEnv ρ) (full : Nat → Bool) (c : Vars ρ) :
    ∃ calls, logHandler e s lcf full c = some calls ∧ calls.map Prod.fst = lcf.effective ∧
      ∀ call ∈ calls, ∀ creds, call.1.source = some creds →
        (s.db.session = some (.created creds) ↔
          dbconn = 0 ∧ lastSource http.directives = some creds) := by
  obtain ⟨hs, hlocs⟩ := readConf_ok h
  obtain ⟨calls, hcalls, hentries⟩ := logHandler_entries e hs (hlocs lcf hlcf) full c
  exact ⟨calls, hcalls, hentries, fun _ _ creds _ => session_iff h creds⟩

/-- The credentials of `dblogTo`. -/
def scott (database : String) : Credentials := ⟨ascii database, ascii "scott", ascii "tiger"⟩

/-- Both servers log to one database. -/
theorem dblog_session_two_servers :
    ∃ s locs, readConf nameIndex noScript (.create 0 .initial) (twoServers "orcl" "orcl") =
        .ok (s, locs) ∧
      ∀ lcf ∈ locs, ∀ {ρ : Type} (e : LogEnv ρ) full c, ∃ calls,
        logHandler e s lcf full c = some calls ∧ ∀ call ∈ calls, call.1.source = some (scott "orcl") →
          s.db.session = some (.created (scott "orcl")) := by
  obtain ⟨⟨s, locs⟩, h⟩ := exists_of_isOk (x := readConf nameIndex noScript (.create 0 .initial)
    (twoServers "orcl" "orcl")) (by decide +kernel)
  refine ⟨s, locs, h, fun lcf hlcf ρ e full c => ?_⟩
  obtain ⟨calls, hcalls, -, hsession⟩ := dblog_session_iff h hlcf e full c
  exact ⟨calls, hcalls, fun call hcall hsource =>
    (hsession call hcall _ hsource).mpr ⟨rfl, by decide +kernel⟩⟩

/-- **Another server's database.** The first server logs for the `access_dblog` at
the `http` level, which names `a`; its statement is executed in a session of
the pool that the second server's directive has created, for `b`. -/
theorem dblog_session_overwritten :
    ∃ s locs, readConf nameIndex noScript (.create 0 .initial) (twoServers "a" "b") =
        .ok (s, locs) ∧
      ∃ lcf ∈ locs, ∃ calls, logHandler plainEnv s lcf (fun _ => false) noVars =
          some calls ∧
        ∃ call ∈ calls, call.1.source = some (scott "a") ∧
          s.db.session = some (.created (scott "b")) := by
  have heval : (readConf nameIndex noScript (.create 0 .initial) (twoServers "a" "b")).toOption.map
      (fun x => (x.2.map LocConf.effective, x.1.db.session)) =
      some ([[⟨0, some (scott "a")⟩], [⟨0, some (scott "b")⟩]], some (.created (scott "b"))) := by
    decide +kernel
  obtain ⟨⟨s, locs⟩, h⟩ := exists_of_isOk (x := readConf nameIndex noScript (.create 0 .initial)
    (twoServers "a" "b")) (by decide +kernel)
  rw [h] at heval
  obtain ⟨heff, hsession⟩ : locs.map LocConf.effective =
      [[⟨0, some (scott "a")⟩], [⟨0, some (scott "b")⟩]] ∧
        s.db.session = some (.created (scott "b")) := Prod.ext_iff.mp (Option.some.inj heval)
  obtain ⟨hs, hlocs⟩ := readConf_ok h
  have hmem : [⟨0, some (scott "a")⟩] ∈ locs.map LocConf.effective := by
    rw [heff]
    exact List.mem_cons_self
  obtain ⟨lcf, hlcf, heffective⟩ := List.mem_map.mp hmem
  obtain ⟨calls, hcalls, hentries⟩ :=
    logHandler_entries plainEnv hs (hlocs lcf hlcf) (fun _ => false) noVars
  have hmem : (⟨0, some (scott "a")⟩ : Dblog) ∈ calls.map Prod.fst := by
    rw [hentries, heffective]
    exact List.mem_cons_self
  obtain ⟨call, hcall, hfst⟩ := List.mem_map.mp hmem
  exact ⟨s, locs, h, lcf, hlcf, calls, hcalls, call, hcall, by rw [hfst], hsession⟩

end

end HttpLog
