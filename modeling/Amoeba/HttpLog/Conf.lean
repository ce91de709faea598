import Amoeba.HttpLog.Line
import Amoeba.Nginx.Conf

/-!
# The configuration of the log module

The directives of `ngx_http_log_module`, the merging of the blocks and
`ngx_http_log_init`. File logging and database logging have the same shape:
a table of formats that all blocks share, a list of logs and a flag in each
block. Database logging has besides a session pool. Its handles stand in the
cycle and, a second time, in static variables of the module: these outlive the
configuration.

Memory allocations and `OCIHandleAlloc` succeed. `OCIEnvCreate` and
`OCISessionPoolCreate` succeed or fail with each directive.
-/

namespace HttpLog

open CString Nginx

/-! ### Formats -/

/-- `ngx_http_log_fmt_t`. The built-in formats have no `flushes`. -/
structure Fmt where
  name : List UInt8
  flushes : Option (List Nat)
  ops : List Op
  deriving DecidableEq, Repr

/-- The loops over the formats in the handlers of `access_log` and
`access_dblog`: the names have one length, and `ngx_strcasecmp` finds no
difference up to the first NUL. -/
def findFmt (formats : List Fmt) (name : List UInt8) : Option Nat :=
  formats.findIdx? fun fmt =>
    fmt.name.length = name.length ∧ (cut fmt.name).map tolower = (cut name).map tolower

/-- The loops over the formats in the handlers of `log_format` and
`dblog_format`. -/
def isDuplicate (formats : List Fmt) (name : List UInt8) : Bool :=
  formats.any fun fmt => fmt.name.length = name.length ∧ cut fmt.name = cut name

/-- Why a configuration is refused. -/
inductive LogError where
  /-- `invalid parameter "…"`, with the first argument behind an `off`. -/
  | invalidParameter (value : List UInt8)
  /-- `parameter is missing ,count of parameter must greater than or equal 4` -/
  | missingParameter
  /-- `unknown log format "…"` -/
  | unknownFormat (name : List UInt8)
  /-- `unknown dblog format "…"` -/
  | unknownDblogFormat (name : List UInt8)
  /-- `duplicate "log_format" name "…"` -/
  | duplicateFormat (name : List UInt8)
  /-- `duplicate "dblog_format" name "…"` -/
  | duplicateDblogFormat (name : List UInt8)
  /-- `Create OCIEnv Failed!` -/
  | envFailed
  /-- `Create OCISessionPool Failed!` -/
  | sessionPoolFailed
  /-- `ngx_http_script_compile` has failed for this path. -/
  | scriptFailed (path : List UInt8)
  /-- An argument of `access_log` behind the format is refused. -/
  | invalidOption
  | compile (e : CompileError)
  deriving DecidableEq, Repr

/-- A new format at the end of the table. -/
def pushFmt (index : List UInt8 → Option Nat) (formats : List Fmt) (name : List UInt8)
    (args : List (List UInt8)) : Except LogError (List Fmt) :=
  match compileFormat index args with
  | .error e => .error (.compile e)
  | .ok ops => .ok (formats ++ [⟨name, some (indices ops), ops⟩])

/-- `ngx_http_log_init`, for one of the two tables: the first format is compiled
when it is used. -/
def initFmt (index : List UInt8 → Option Nat) (used : Bool) (text : List UInt8) :
    List Fmt → Except LogError (List Fmt)
  | [] => .ok []
  | fmt :: formats =>
    -- `if (lmcf->combined_used)`: nothing else fills in the first format
    if used then
      match compileFormat index [text] with
      | .error e => .error (.compile e)
      | .ok ops => .ok ({ fmt with ops := fmt.ops ++ ops } :: formats)
    else .ok (fmt :: formats)

/-! ### Database logging -/

/-- What a session pool is created with. -/
structure Credentials where
  database : List UInt8
  username : List UInt8
  password : List UInt8
  deriving DecidableEq, Repr

/-- The session pool a handle belongs to. -/
inductive Pool where
  /-- A pool that an earlier configuration of the process has created. -/
  | earlier (id : Nat)
  /-- A pool that a directive of this configuration has created. -/
  | created (creds : Credentials)
  deriving DecidableEq, Repr

/-- The handles of a pool. -/
structure Handles where
  poolhp : Option Pool
  envhp : Option Pool
  errhp : Option Pool
  authp : Option Pool
  deriving DecidableEq, Repr

/-- The handles of one pool. -/
def Handles.of (pool : Pool) : Handles := ⟨some pool, some pool, some pool, some pool⟩

/-- `ngx_http_dblog_t`. The directive that the entry comes from is not stored;
the default entry comes from none. -/
structure Dblog where
  format : Nat
  source : Option Credentials
  deriving DecidableEq, Repr

/-- The part of `ngx_http_log_loc_conf_t` for database logging. -/
structure DblogConf where
  dblogs : Option (List Dblog)
  dblogoff : Bool
  deriving DecidableEq, Repr

/-- What all blocks share, for database logging: a part of
`ngx_http_log_main_conf_t`, of the cycle, and the static variables. -/
structure DblogShared where
  dblogFormats : List Fmt
  dblogCombinedUsed : Bool
  dbconn : Nat
  cycle : Handles
  static : Handles
  poolName : Option Pool
  deriving DecidableEq, Repr

/-- The name of the built-in format. -/
def dblogCombined : List UInt8 := ascii "dblog_combined"

/-- What `OCIEnvCreate` and `OCISessionPoolCreate` answer. -/
structure OciAnswer where
  envOk : Bool
  poolOk : Bool
  deriving DecidableEq, Repr

/-- The last part of `ngx_http_log_set_dblog`: the session pool. With a `dbconn`
other than zero nothing is created, and the handles of the cycle are taken
over. -/
def openSessionPool (s : DblogShared) (creds : Credentials) (oci : OciAnswer) :
    Except LogError DblogShared :=
  if s.dbconn = 0 then
    if !oci.envOk then .error .envFailed
    else if !oci.poolOk then .error .sessionPoolFailed
    else
      -- the handles go to the cycle and to the static variables
      let pool := Pool.created creds
      .ok { s with cycle := .of pool, static := .of pool, poolName := some pool }
  else .ok { s with static := s.cycle }

/-- `ngx_http_log_set_dblog`; the first argument of the directive is `value`. -/
def setDblog (s : DblogShared) (k : DblogConf) (value : List UInt8) (more : List (List UInt8))
    (oci : OciAnswer) : Except LogError (DblogShared × DblogConf) :=
  -- `ngx_strcmp(value[1].data, "off")`
  if cut value = ascii "off" then
    match more with
    -- no session pool is created, and the logs of the block stay in the list
    | [] => .ok (s, { k with dblogoff := true })
    | v :: _ => .error (.invalidParameter v)
  else
    match more with
    | username :: password :: rest =>
      let name := rest.headD dblogCombined
      match findFmt s.dblogFormats name with
      | none => .error (.unknownDblogFormat name)
      | some format =>
        let creds : Credentials := ⟨value, username, password⟩
        -- a name in other letter case finds the built-in format and does not mark it
        let used := s.dblogCombinedUsed || cut name = dblogCombined
        match openSessionPool { s with dblogCombinedUsed := used } creds oci with
        | .error e => .error e
        | .ok s => .ok (s, { k with dblogs := some (k.dblogs.getD [] ++ [⟨format, some creds⟩]) })
    | _ => .error .missingParameter

/-- `ngx_http_log_set_dblog_format` -/
def setDblogFormat (index : List UInt8 → Option Nat) (s : DblogShared) (name : List UInt8)
    (args : List (List UInt8)) : Except LogError DblogShared :=
  if isDuplicate s.dblogFormats name then .error (.duplicateDblogFormat name)
  else
    match pushFmt index s.dblogFormats name args with
    | .error e => .error e
    | .ok formats => .ok { s with dblogFormats := formats }

/-- `ngx_http_log_merge_loc_conf`, from the label `mergedblog` on. -/
def mergeDblog (prev conf : DblogConf) : DblogConf :=
  if conf.dblogs.isSome || conf.dblogoff then conf
  else if prev.dblogs.isSome || prev.dblogoff then prev
  -- nothing anywhere: the built-in format, and no connection to go with it
  else { dblogs := some [⟨0, none⟩], dblogoff := false }

/-! ### File logging -/

/-- `ngx_http_log_t`: the path, which the default entry takes from
`NGX_HTTP_LOG_PATH`, and for a path with variables their indices. -/
structure Log where
  path : Option (List UInt8)
  script : Option (List Nat)
  format : Nat
  deriving DecidableEq, Repr

/-- The part of `ngx_http_log_loc_conf_t` for file logging. -/
structure LogConf where
  logs : Option (List Log)
  off : Bool
  deriving DecidableEq, Repr

/-- What all blocks share, for file logging. -/
structure LogShared where
  formats : List Fmt
  combinedUsed : Bool
  deriving DecidableEq, Repr

/-- The name of the built-in format. -/
def combined : List UInt8 := ascii "combined"

/-- `ngx_http_log_set_log`. The variables of a path come from
`ngx_http_script_compile`; the arguments behind the format, for the buffer, are
accepted or refused. -/
def setLog (script : List UInt8 → Option (List Nat)) (s : LogShared) (k : LogConf)
    (value : List UInt8) (more : List (List UInt8)) (optionsOk : Bool) :
    Except LogError (LogShared × LogConf) :=
  if cut value = ascii "off" then
    match more with
    | [] => .ok (s, { k with off := true })
    | v :: _ => .error (.invalidParameter v)
  else
    -- a path with variables is compiled, any other one is opened once
    let vars := if dollar ∈ value then (script value).map some else some none
    match vars with
    | none => .error (.scriptFailed value)
    | some vars =>
      let name := more.headD combined
      match findFmt s.formats name with
      | none => .error (.unknownFormat name)
      | some format =>
        if optionsOk then
          .ok ({ s with combinedUsed := s.combinedUsed || cut name = combined },
            { k with logs := some (k.logs.getD [] ++ [⟨some value, vars, format⟩]) })
        else .error .invalidOption

/-- `ngx_http_log_set_format` -/
def setFormat (index : List UInt8 → Option Nat) (s : LogShared) (name : List UInt8)
    (args : List (List UInt8)) : Except LogError LogShared :=
  if isDuplicate s.formats name then .error (.duplicateFormat name)
  else
    match pushFmt index s.formats name args with
    | .error e => .error e
    | .ok formats => .ok { s with formats := formats }

/-- `ngx_http_log_merge_loc_conf`, up to the label `mergedblog`. -/
def mergeLog (prev conf : LogConf) : LogConf :=
  if conf.logs.isSome || conf.off then conf
  else if prev.logs.isSome || prev.off then prev
  -- the default log file
  else { logs := some [⟨none, none, 0⟩], off := false }

/-! ### The whole module -/

/-- The directives of the module. -/
inductive LogDirective where
  | dblogFormat (name : List UInt8) (args : List (List UInt8))
  | accessDblog (value : List UInt8) (more : List (List UInt8)) (oci : OciAnswer)
  | logFormat (name : List UInt8) (args : List (List UInt8))
  | accessLog (value : List UInt8) (more : List (List UInt8)) (optionsOk : Bool)
  deriving DecidableEq, Repr

/-- `ngx_http_log_loc_conf_t` -/
structure LocConf where
  file : LogConf
  db : DblogConf
  deriving DecidableEq, Repr

/-- `ngx_http_log_create_loc_conf` -/
def LocConf.create : LocConf := ⟨⟨none, false⟩, ⟨none, false⟩⟩

/-- What all blocks share. -/
structure Shared where
  file : LogShared
  db : DblogShared
  deriving DecidableEq, Repr

/-- The static variables of the module when a configuration is read: the handles
of pools of earlier configurations, or null. -/
structure Statics where
  poolhp : Option Nat
  envhp : Option Nat
  errhp : Option Nat
  authp : Option Nat
  poolName : Option Nat
  deriving DecidableEq, Repr

/-- The static variables of a process that has read no configuration. -/
def Statics.initial : Statics := ⟨none, none, none, none, none⟩

/-- `ngx_http_log_create_main_conf`, in a new cycle. -/
def Shared.create (dbconn : Nat) (old : Statics) : Shared where
  file := { formats := [⟨combined, none, []⟩], combinedUsed := false }
  db :=
    { dblogFormats := [⟨dblogCombined, none, []⟩]
      dblogCombinedUsed := false
      dbconn := dbconn
      cycle := ⟨none, none, none, none⟩
      static := ⟨old.poolhp.map .earlier, old.envhp.map .earlier, old.errhp.map .earlier,
        old.authp.map .earlier⟩
      poolName := old.poolName.map .earlier }

section

variable (index : List UInt8 → Option Nat) (script : List UInt8 → Option (List Nat))

/-- The handler of a directive, for database logging. -/
def setDb (s : DblogShared) (k : DblogConf) :
    LogDirective → Except LogError (DblogShared × DblogConf)
  | .dblogFormat name args => (setDblogFormat index s name args).map (·, k)
  | .accessDblog value more oci => setDblog s k value more oci
  | _ => .ok (s, k)

/-- The handler of a directive, for file logging. -/
def setFile (s : LogShared) (k : LogConf) : LogDirective → Except LogError (LogShared × LogConf)
  | .logFormat name args => (setFormat index s name args).map (·, k)
  | .accessLog value more optionsOk => setLog script s k value more optionsOk
  | _ => .ok (s, k)

/-- The handler of a directive. Each directive concerns one of the two parts. -/
def set (s : Shared) (k : LocConf) (d : LogDirective) : Except LogError (Shared × LocConf) :=
  match setDb index s.db k.db d, setFile index script s.file k.file d with
  | .error e, _ => .error e
  | .ok _, .error e => .error e
  | .ok (db, kdb), .ok (file, kfile) => .ok (⟨file, db⟩, ⟨kfile, kdb⟩)

/-- `ngx_http_log_merge_loc_conf` -/
def mergeLocConf (prev conf : LocConf) : LocConf :=
  ⟨mergeLog prev.file conf.file, mergeDblog prev.db conf.db⟩

/-- `ngx_http_combined_fmt` -/
def combinedFmt : List UInt8 :=
  ascii "$remote_addr - $remote_user [$time_local] \"$request\" $status $body_bytes_sent " ++
  ascii "\"$http_referer\" \"$http_user_agent\" \"$http_x_forwarded_for\""

/-- A block has the default entry for database logging. -/
def LocConf.defaultDblog (lcf : LocConf) : Bool :=
  (lcf.db.dblogs.getD []).any (·.source.isNone)

/-- A block has the default entry for file logging. -/
def LocConf.defaultLog (lcf : LocConf) : Bool :=
  (lcf.file.logs.getD []).any (·.path.isNone)

/-- `ngx_http_log_init`. Merging marks a built-in format as used when it creates
a default entry. -/
def logInit (s : Shared) (locs : List LocConf) : Except LogError Shared :=
  -- the formats are completed after all blocks have been merged
  match initFmt index (s.file.combinedUsed || locs.any (·.defaultLog)) combinedFmt s.file.formats,
    initFmt index (s.db.dblogCombinedUsed || locs.any (·.defaultDblog)) combinedSql
      s.db.dblogFormats with
  | .error e, _ => .error e
  | .ok _, .error e => .error e
  | .ok formats, .ok dblogFormats =>
    .ok ⟨{ s.file with formats := formats }, { s.db with dblogFormats := dblogFormats }⟩

/-- Read the `http` block: what is shared, and the configurations of the servers
and locations, in the order of the text. -/
def readConf (s : Shared) (http : Body LogDirective) : Except LogError (Shared × List LocConf) :=
  match http.parse (set index script) .create s .create with
  | .error e => .error e
  | .ok (s, k, cs) =>
    let locs := (cs.merge mergeLocConf k).toList
    match logInit index s locs with
    | .error e => .error e
    | .ok s => .ok (s, locs)

end

/-! ### What a directive does -/

/-- **What the session pool step does**: a new pool, or the handles of the cycle. -/
theorem openSessionPool_cases {s s' : DblogShared} {creds : Credentials} {oci : OciAnswer}
    (h : openSessionPool s creds oci = .ok s') :
    (s.dbconn = 0 ∧ s' = { s with
        cycle := .of (.created creds), static := .of (.created creds)
        poolName := some (.created creds) }) ∨
      (s.dbconn ≠ 0 ∧ s' = { s with static := s.cycle }) := by
  unfold openSessionPool at h
  split at h
  -- the process may connect
  next hdbconn =>
    refine .inl ⟨hdbconn, ?_⟩
    split at h
    · simp at h
    · split at h
      · simp at h
      · exact (Except.ok.inj h).symm
  next hdbconn => exact .inr ⟨hdbconn, (Except.ok.inj h).symm⟩

/-- **What an `access_dblog` does**: `off`, or one more log and the session pool. -/
theorem setDblog_cases {s s' : DblogShared} {k k' : DblogConf} {value : List UInt8}
    {more : List (List UInt8)} {oci : OciAnswer}
    (h : setDblog s k value more oci = .ok (s', k')) :
    (cut value = ascii "off" ∧ s' = s ∧ k' = { k with dblogoff := true }) ∨
      (cut value ≠ ascii "off" ∧ ∃ username password rest format used,
        more = username :: password :: rest ∧
        findFmt s.dblogFormats (rest.headD dblogCombined) = some format ∧
        openSessionPool { s with dblogCombinedUsed := used } ⟨value, username, password⟩ oci =
          .ok s' ∧
        k' = { k with
          dblogs := some (k.dblogs.getD [] ++ [⟨format, some ⟨value, username, password⟩⟩]) }) := by
  unfold setDblog at h
  split at h
  next hoff =>
    split at h
    · obtain ⟨rfl, rfl⟩ : s = s' ∧ _ = k' := by simpa using h
      exact .inl ⟨hoff, rfl, rfl⟩
    · simp at h
  next hoff =>
    refine .inr ⟨hoff, ?_⟩
    split at h
    -- at least three arguments: the format is found before the pool is created
    next username password rest =>
      dsimp only at h
      split at h
      · simp at h
      next format hformat =>
        split at h
        · simp at h
        next s₁ hopen =>
          obtain ⟨rfl, rfl⟩ : s₁ = s' ∧ _ = k' := by simpa using h
          exact ⟨username, password, rest, format, _, rfl, hformat, hopen, rfl⟩
    · simp at h

/-- **What an `access_log` does**: `off`, or one more log. -/
theorem setLog_cases {script : List UInt8 → Option (List Nat)} {s s' : LogShared} {k k' : LogConf}
    {value : List UInt8} {more : List (List UInt8)} {optionsOk : Bool}
    (h : setLog script s k value more optionsOk = .ok (s', k')) :
    (cut value = ascii "off" ∧ s' = s ∧ k' = { k with off := true }) ∨
      (cut value ≠ ascii "off" ∧ ∃ vars format used,
        (if dollar ∈ value then (script value).map some else some none) = some vars ∧
        findFmt s.formats (more.headD combined) = some format ∧
        s' = { s with combinedUsed := used } ∧
        k' = { k with logs := some (k.logs.getD [] ++ [⟨some value, vars, format⟩]) }) := by
  unfold setLog at h
  split at h
  next hoff =>
    split at h
    · obtain ⟨rfl, rfl⟩ : s = s' ∧ _ = k' := by simpa using h
      exact .inl ⟨hoff, rfl, rfl⟩
    · simp at h
  next hoff =>
    refine .inr ⟨hoff, ?_⟩
    dsimp only at h
    split at h
    · simp at h
    next vars hvars =>
      split at h
      · simp at h
      next format hformat =>
        split at h
        · obtain ⟨rfl, rfl⟩ : _ = s' ∧ _ = k' := by simpa using h
          exact ⟨vars, format, _, hvars, hformat, rfl, rfl⟩
        · simp at h

/-- **What a directive does to the two parts.** -/
theorem set_ok {index : List UInt8 → Option Nat} {script : List UInt8 → Option (List Nat)}
    {s s' : Shared} {k k' : LocConf} {d : LogDirective} (h : set index script s k d = .ok (s', k')) :
    setDb index s.db k.db d = .ok (s'.db, k'.db) ∧
      setFile index script s.file k.file d = .ok (s'.file, k'.file) := by
  unfold set at h
  split at h
  · simp at h
  · simp at h
  next hdb hfile =>
    obtain ⟨rfl, rfl⟩ : _ = s' ∧ _ = k' := by simpa using h
    exact ⟨hdb, hfile⟩

end HttpLog
