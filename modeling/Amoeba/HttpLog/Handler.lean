import Amoeba.HttpLog.Conf

/-!
# Logging a request

`ngx_http_log_handler` first goes through the logs of the location, then
through its database logs, and looks up the variables of each format. In front
of each log of a file the values of its variables that are not to be cached are
dropped, and a path with variables drops such values as well. In front of a
database log none is dropped.

* `logHandler_eq` — what the handler passes to `ngx_write_dblog`, for every
  accepted configuration, every location and every request: one line for each
  database log, from the variables that file logging has left.
-/

namespace HttpLog

open CString Nginx

/-! ### The handler -/

/-- What the handler reads of a request, the handlers of variables and the location. -/
structure LogEnv (ρ : Type) where
  now : LogClock
  r : LogRequest
  vars : VarTable ρ
  /-- `r->root_tested` -/
  rootTested : Bool
  /-- The location has no `alias`, or the URI has not been rewritten. -/
  aliasOk : Bool
  /-- The variables of the root directory, when it has some. -/
  root : Option (List Nat)
  /-- The variables of `disable_symlinks_from`. -/
  symlinksFrom : List Nat
  /-- `ngx_open_cached_file` finds a directory, for what the variables of the root and of
  `disable_symlinks_from` are. -/
  isDir : List VarSlot → List VarSlot → Bool

section

variable {ρ : Type}

/-- `ngx_http_set_disable_symlinks` -/
def setDisableSymlinks (e : LogEnv ρ) (c : Vars ρ) : List VarSlot × Vars ρ :=
  complexValue e.vars e.symlinksFrom c

/-- The test of the root directory in `ngx_http_log_script_write`. -/
def testRoot (e : LogEnv ρ) (c : Vars ρ) : Bool × Vars ρ :=
  if e.rootTested then (true, c)
  -- `ngx_http_map_uri_to_path` returns a null pointer
  else if !e.aliasOk then (false, c)
  else
    let path := e.root.elim ([], c) fun vars => scriptRun e.vars vars c
    let symlinks := setDisableSymlinks e path.2
    (e.isDir path.1 symlinks.1, symlinks.2)

/-- `ngx_http_log_script_write`, for a path with these variables: what it leaves of the
variables of the request. -/
def logScriptWrite (e : LogEnv ρ) (vars : List Nat) (c : Vars ρ) : Vars ρ :=
  let root := testRoot e c
  if root.1 then (setDisableSymlinks e (scriptRun e.vars vars root.2).2).2 else root.2

/-- Both passes over the operations of a format: the line, and the variables afterwards. -/
def logEntry (e : LogEnv ρ) (ops : List Op) (c : Vars ρ) : Option (List UInt8 × Vars ρ) :=
  (logLine e.vars e.now e.r c ops).map Prod.snd

/-- One round of the loop over the logs. A log whose disk is full is skipped. -/
def logFile (e : LogEnv ρ) (formats : List Fmt) (c : Vars ρ) (log : Log) (full : Bool) :
    Option (Vars ρ) :=
  if full then some c
  else do
    let fmt ← formats[log.format]?
    let (_, c) ← logEntry e fmt.ops (c.flush (· ∈ fmt.flushes.getD []))
    return log.script.elim c (logScriptWrite e · c)

/-- The loop over the logs; `full l` says that the disk of log `l` is full. -/
def logFiles (e : LogEnv ρ) (formats : List Fmt) (full : Nat → Bool) :
    Nat → List Log → Vars ρ → Option (Vars ρ)
  | _, [], c => some c
  | l, log :: logs, c => do
    let c ← logFile e formats c log (full l)
    logFiles e formats full (l + 1) logs c

/-- The loop over the database logs: the calls of `ngx_write_dblog`, each with its
entry and the text. -/
def dblogCalls (e : LogEnv ρ) (formats : List Fmt) :
    List Dblog → Vars ρ → Option (List (Dblog × List UInt8))
  | [], _ => some []
  | dblog :: dblogs, c => do
    let fmt ← formats[dblog.format]?
    let (line, c) ← logEntry e fmt.ops c
    let calls ← dblogCalls e formats dblogs c
    return (dblog, line) :: calls

/-- `ngx_http_log_handler`: the calls of `ngx_write_dblog`, or `none` when it
follows a null pointer. -/
def logHandler (e : LogEnv ρ) (s : Shared) (lcf : LocConf) (full : Nat → Bool)
    (c : Vars ρ) : Option (List (Dblog × List UInt8)) :=
  if lcf.file.off && lcf.db.dblogoff then some []
  else do
    let c ← if lcf.file.off then some c
      else lcf.file.logs.bind fun logs => logFiles e s.file.formats full 0 logs c
    if lcf.db.dblogoff then some []
    else lcf.db.dblogs.bind fun dblogs => dblogCalls e s.db.dblogFormats dblogs c

end

/-! ### Well-formed configurations -/

/-- The table has its built-in format, and all formats are compiled. -/
def FmtsOk (formats : List Fmt) : Prop :=
  formats ≠ [] ∧ ∀ fmt ∈ formats, ∀ op ∈ fmt.ops, op.Sized

/-- A list of logs, by their formats: none yet, or some in the table. -/
def LogsOk (formats : List Fmt) (logs : Option (List Nat)) : Prop :=
  logs ≠ some [] ∧ ∀ l ∈ logs.getD [], l < formats.length

/-- What holds of the shared state all along the text. -/
def SharedOk (s : Shared) : Prop := FmtsOk s.file.formats ∧ FmtsOk s.db.dblogFormats

/-- What holds of the configuration of a block all along the text. -/
def LocOk (s : Shared) (k : LocConf) : Prop :=
  LogsOk s.file.formats (k.file.logs.map (·.map Log.format)) ∧
    LogsOk s.db.dblogFormats (k.db.dblogs.map (·.map Dblog.format))

theorem LogsOk.mono {formats formats' : List Fmt} {logs : Option (List Nat)}
    (h : LogsOk formats logs) (hle : formats.length ≤ formats'.length) : LogsOk formats' logs :=
  ⟨h.1, fun l hl => (h.2 l hl).trans_le hle⟩

theorem findFmt_lt {formats : List Fmt} {name : List UInt8} {i : Nat}
    (h : findFmt formats name = some i) : i < formats.length :=
  (List.findIdx?_eq_some_iff_getElem.mp h).1

/-- A log at the end of the list. -/
theorem LogsOk.push {formats : List Fmt} {logs : Option (List Nat)} (h : LogsOk formats logs)
    {i : Nat} (hi : i < formats.length) : LogsOk formats (some (logs.getD [] ++ [i])) := by
  refine ⟨by simp, fun l hl => ?_⟩
  rcases List.mem_append.mp hl with hl | hl
  · exact h.2 l hl
  · rw [List.mem_singleton.mp hl]
    exact hi

theorem FmtsOk.push {index : List UInt8 → Option Nat} {formats formats' : List Fmt}
    {name : List UInt8} {args : List (List UInt8)} (h : FmtsOk formats)
    (hpush : pushFmt index formats name args = .ok formats') :
    FmtsOk formats' ∧ formats.length ≤ formats'.length := by
  unfold pushFmt at hpush
  split at hpush
  · simp at hpush
  next ops hops =>
    obtain rfl := Except.ok.inj hpush
    refine ⟨⟨by simp, fun fmt hfmt => ?_⟩, by simp⟩
    rcases List.mem_append.mp hfmt with hfmt | hfmt
    · exact h.2 fmt hfmt
    · rw [List.mem_singleton.mp hfmt]
      exact compileFormat_sized hops

theorem FmtsOk.init {index : List UInt8 → Option Nat} {formats formats' : List Fmt} {used : Bool}
    {text : List UInt8} (h : FmtsOk formats) (hinit : initFmt index used text formats = .ok formats') :
    FmtsOk formats' ∧ formats.length ≤ formats'.length := by
  cases formats with
  | nil => exact absurd rfl h.1
  | cons fmt formats =>
    rw [initFmt] at hinit
    split at hinit
    · split at hinit
      · simp at hinit
      next ops hops =>
        obtain rfl := Except.ok.inj hinit
        obtain ⟨hfirst, hrest⟩ := List.forall_mem_cons.mp h.2
        refine ⟨⟨by simp, List.forall_mem_cons.mpr ⟨fun op hop => ?_, hrest⟩⟩, by simp⟩
        -- the built-in format gets its operations behind those it had
        rcases List.mem_append.mp hop with hop | hop
        · exact hfirst op hop
        · exact compileFormat_sized hops op hop
    · obtain rfl := Except.ok.inj hinit
      exact ⟨h, le_rfl⟩

/-- **A directive for database logging** keeps the table and the logs. -/
theorem setDb_ok {index : List UInt8 → Option Nat} {s s' : DblogShared} {k k' : DblogConf}
    {d : LogDirective} (h : setDb index s k d = .ok (s', k')) (hs : FmtsOk s.dblogFormats)
    (hk : LogsOk s.dblogFormats (k.dblogs.map (·.map Dblog.format))) :
    FmtsOk s'.dblogFormats ∧ LogsOk s'.dblogFormats (k'.dblogs.map (·.map Dblog.format)) ∧
      s.dblogFormats.length ≤ s'.dblogFormats.length := by
  cases d with
  | dblogFormat name args =>
    rw [setDb, setDblogFormat] at h
    split at h
    · simp [Except.map] at h
    · split at h
      · simp [Except.map] at h
      next formats hpush =>
        obtain ⟨rfl, rfl⟩ : { s with dblogFormats := formats } = s' ∧ k = k' := by
          simpa [Except.map] using h
        obtain ⟨hok, hle⟩ := hs.push hpush
        exact ⟨hok, hk.mono hle, hle⟩
  | accessDblog value more oci =>
    -- the format of a new entry was found in the table
    rcases setDblog_cases h with ⟨-, rfl, rfl⟩ | ⟨-, _, _, rest, format, used, -, hformat, hopen, rfl⟩
    · exact ⟨hs, hk, le_rfl⟩
    · have hformats : s'.dblogFormats = s.dblogFormats := by
        rcases openSessionPool_cases hopen with ⟨-, rfl⟩ | ⟨-, rfl⟩ <;> rfl
      rw [hformats]
      refine ⟨hs, ?_, le_rfl⟩
      have hpush := hk.push (findFmt_lt hformat)
      cases hdb : k.dblogs <;> simpa [hdb] using hpush
  | _ =>
    obtain ⟨rfl, rfl⟩ : s = s' ∧ k = k' := by simpa [setDb] using h
    exact ⟨hs, hk, le_rfl⟩

/-- **A directive for file logging** keeps the table and the logs. -/
theorem setFile_ok {index : List UInt8 → Option Nat} {script : List UInt8 → Option (List Nat)}
    {s s' : LogShared} {k k' : LogConf} {d : LogDirective}
    (h : setFile index script s k d = .ok (s', k')) (hs : FmtsOk s.formats)
    (hk : LogsOk s.formats (k.logs.map (·.map Log.format))) :
    FmtsOk s'.formats ∧ LogsOk s'.formats (k'.logs.map (·.map Log.format)) ∧
      s.formats.length ≤ s'.formats.length := by
  cases d with
  | logFormat name args =>
    rw [setFile, setFormat] at h
    split at h
    · simp [Except.map] at h
    · split at h
      · simp [Except.map] at h
      next formats hpush =>
        obtain ⟨rfl, rfl⟩ : { s with formats := formats } = s' ∧ k = k' := by
          simpa [Except.map] using h
        obtain ⟨hok, hle⟩ := hs.push hpush
        exact ⟨hok, hk.mono hle, hle⟩
  | accessLog value more optionsOk =>
    rcases setLog_cases h with ⟨-, rfl, rfl⟩ | ⟨-, vars, format, used, -, hformat, rfl, rfl⟩
    · exact ⟨hs, hk, le_rfl⟩
    -- as for the database, the format of a new log was found in the table
    · refine ⟨hs, ?_, le_rfl⟩
      have hpush := hk.push (findFmt_lt hformat)
      cases hlogs : k.logs <;> simpa [hlogs] using hpush
  | _ =>
    obtain ⟨rfl, rfl⟩ : s = s' ∧ k = k' := by simpa [setFile] using h
    exact ⟨hs, hk, le_rfl⟩

theorem LogsOk.none (formats : List Fmt) : LogsOk formats none := ⟨by simp, by simp⟩

theorem LogsOk.default {formats : List Fmt} (h : FmtsOk formats) : LogsOk formats (some [0]) :=
  ⟨by simp, by simpa [List.length_pos_iff] using h.1⟩

/-- The logs of a merged configuration, which has logs unless it is switched off. -/
def MergedOk (s : Shared) (lcf : LocConf) : Prop :=
  LocOk s lcf ∧ (lcf.file.logs = .none → lcf.file.off) ∧ (lcf.db.dblogs = .none → lcf.db.dblogoff)

theorem LocOk.merge {s : Shared} (hs : SharedOk s) {prev conf : LocConf} (hprev : LocOk s prev)
    (hconf : LocOk s conf) : MergedOk s (mergeLocConf prev conf) := by
  obtain ⟨hlogs, hdblogs⟩ := hprev
  obtain ⟨hlogs', hdblogs'⟩ := hconf
  -- each setting is the block's own, the one from outside, or the default
  refine ⟨⟨?_, ?_⟩, ?_, ?_⟩
  · unfold mergeLocConf mergeLog
    dsimp only
    split
    · exact hlogs'
    · split
      · exact hlogs
      · exact .default hs.1
  · unfold mergeLocConf mergeDblog
    dsimp only
    split
    · exact hdblogs'
    · split
      · exact hdblogs
      · exact .default hs.2
  · unfold mergeLocConf mergeLog
    dsimp only
    -- logs that are still missing come from the default entry
    split_ifs with h h' <;> intro hnone <;> simp_all
  · unfold mergeLocConf mergeDblog
    dsimp only
    split_ifs with h h' <;> intro hnone <;> simp_all

section

variable {index : List UInt8 → Option Nat} {script : List UInt8 → Option (List Nat)}

theorem logInit_ok {s s' : Shared} {locs : List LocConf} (h : logInit index s locs = .ok s')
    (hs : SharedOk s) :
    SharedOk s' ∧ s.file.formats.length ≤ s'.file.formats.length ∧
      s.db.dblogFormats.length ≤ s'.db.dblogFormats.length := by
  unfold logInit at h
  split at h
  · simp at h
  · simp at h
  next formats dblogFormats hformats hdblogFormats =>
    obtain rfl := Except.ok.inj h
    obtain ⟨hok, hle⟩ := hs.1.init hformats
    obtain ⟨hok', hle'⟩ := hs.2.init hdblogFormats
    exact ⟨⟨hok, hok'⟩, hle, hle'⟩

/-- The stages of reading a configuration. -/
theorem readConf_stages {s s' : Shared} {http : Body LogDirective} {locs : List LocConf}
    (h : readConf index script s http = .ok (s', locs)) :
    ∃ s₁ k cs, http.parse (set index script) .create s .create = .ok (s₁, k, cs) ∧
      locs = (cs.merge mergeLocConf k).toList ∧ logInit index s₁ locs = .ok s' := by
  unfold readConf at h
  split at h
  · simp at h
  next s₁ k cs hparse =>
    dsimp only at h
    split at h
    · simp at h
    next s₂ hinit =>
      obtain ⟨rfl, rfl⟩ : s₂ = s' ∧ _ = locs := by simpa using h
      exact ⟨s₁, k, cs, hparse, rfl, hinit⟩

/-- **Accepted configurations are well-formed**: all formats are compiled, and all
logs of all locations have one of them. -/
theorem readConf_ok {dbconn : Nat} {old : Statics} {s : Shared} {http : Body LogDirective}
    {locs : List LocConf} (h : readConf index script (.create dbconn old) http = .ok (s, locs)) :
    SharedOk s ∧ ∀ lcf ∈ locs, MergedOk s lcf := by
  obtain ⟨s₁, k, cs, hparse, rfl, hinit⟩ := readConf_stages h
  have hcreate : SharedOk (.create dbconn old) := by simp [SharedOk, FmtsOk, Shared.create]
  have hnone : ∀ s, SharedOk s → LocOk s .create := fun s _ => ⟨.none _, .none _⟩
  -- a directive keeps all blocks that are open well-formed, as the tables only grow
  have hset : ∀ s k d s' k', set index script s k d = .ok (s', k') → SharedOk s → LocOk s k →
      SharedOk s' ∧ LocOk s' k' ∧ ∀ c, LocOk s c → LocOk s' c := by
    intro s k d s' k' hset hs hk
    obtain ⟨hdb, hfile⟩ := set_ok hset
    obtain ⟨hfmts, hlogs, hle⟩ := setFile_ok hfile hs.1 hk.1
    obtain ⟨hfmts', hlogs', hle'⟩ := setDb_ok hdb hs.2 hk.2
    exact ⟨⟨hfmts, hfmts'⟩, ⟨hlogs, hlogs'⟩, fun c hc => ⟨hc.1.mono hle, hc.2.mono hle'⟩⟩
  obtain ⟨hs₁, hk, hcs, -⟩ := parse_invariant hnone hset hparse hcreate (hnone _ hcreate)
  have hmerge : ∀ parent c, LocOk s₁ parent → LocOk s₁ c → MergedOk s₁ (mergeLocConf parent c) :=
    fun parent c hparent hc => hparent.merge hs₁ hc
  obtain ⟨hs, hle, hle'⟩ := logInit_ok hinit hs₁
  refine ⟨hs, fun lcf hlcf => ?_⟩
  -- formats that `ngx_http_log_init` compiles do not make the tables shorter
  obtain ⟨⟨hlogs, hdblogs⟩, hoff⟩ := Confs.forall_merge (fun c hc => hc.1) hmerge hk hcs lcf hlcf
  exact ⟨⟨hlogs.mono hle, hdblogs.mono hle'⟩, hoff⟩

end

/-! ### What the handler writes -/

/-- The entries whose texts the handler passes on. -/
def LocConf.effective (lcf : LocConf) : List Dblog :=
  if lcf.db.dblogoff then [] else lcf.db.dblogs.getD []

section

variable {ρ : Type}

/-- The line of a format, and the variables that it leaves. -/
def entryLine (e : LogEnv ρ) (ops : List Op) (c : Vars ρ) : List UInt8 × Vars ρ :=
  let c := (measured e.vars c (indices ops)).2
  ((writes e.vars e.now e.r c ops).flatMap Prod.snd ++ [0x0a], (readVars e.vars c (indices ops)).2)

theorem logEntry_eq (e : LogEnv ρ) {ops : List Op} (h : ∀ op ∈ ops, op.Sized) (c : Vars ρ) :
    logEntry e ops c = some (entryLine e ops c) := by
  rw [logEntry, logLine_eq h]
  rfl

/-- **One log**: the variables of the format are dropped and looked up, and its path may
drop and look up more. -/
theorem logFile_eq (e : LogEnv ρ) {formats : List Fmt} (hformats : FmtsOk formats) {log : Log}
    {fmt : Fmt} (hfmt : formats[log.format]? = some fmt) (c : Vars ρ) :
    logFile e formats c log false =
      let c := (entryLine e fmt.ops (c.flush (· ∈ fmt.flushes.getD []))).2
      some (log.script.elim c (logScriptWrite e · c)) := by
  have hsized := hformats.2 fmt (List.mem_of_getElem? hfmt)
  rw [logFile, if_neg Bool.false_ne_true, hfmt]
  simp only [Option.bind_eq_bind, Option.bind_some, logEntry_eq e hsized]
  rfl

/-- **The loop over the logs** ends. -/
theorem logFiles_isSome (e : LogEnv ρ) {formats : List Fmt} (hformats : FmtsOk formats)
    (full : Nat → Bool) {logs : List Log} (hlogs : ∀ log ∈ logs, log.format < formats.length)
    (l : Nat) (c : Vars ρ) : ∃ c', logFiles e formats full l logs c = some c' := by
  induction logs generalizing l c with
  | nil => exact ⟨c, rfl⟩
  | cons log logs ih =>
    obtain ⟨hlog, hlogs⟩ := List.forall_mem_cons.mp hlogs
    obtain ⟨c₁, hfile⟩ : ∃ c₁, logFile e formats c log (full l) = some c₁ := by
      cases full l with
      | true => exact ⟨c, rfl⟩
      | false => exact ⟨_, logFile_eq e hformats (List.getElem?_eq_getElem hlog) c⟩
    obtain ⟨c', hfiles⟩ := ih hlogs (l + 1) c₁
    refine ⟨c', ?_⟩
    rw [logFiles, hfile]
    exact hfiles

/-- What file logging leaves of the variables. -/
def fileVars (e : LogEnv ρ) (s : Shared) (lcf : LocConf) (full : Nat → Bool) (c : Vars ρ) : Vars ρ :=
  if lcf.file.off then c
  else (logFiles e s.file.formats full 0 (lcf.file.logs.getD []) c).getD c

/-- The operations of the entry's format. -/
def Dblog.ops (formats : List Fmt) (dblog : Dblog) : List Op :=
  formats[dblog.format]?.elim [] Fmt.ops

/-- The lines of some database logs, from these variables on. -/
def dblogLines (e : LogEnv ρ) (formats : List Fmt) : Vars ρ → List Dblog → List (List UInt8)
  | _, [] => []
  | c, dblog :: dblogs =>
    let line := entryLine e (dblog.ops formats) c
    line.1 :: dblogLines e formats line.2 dblogs

theorem length_dblogLines (e : LogEnv ρ) (formats : List Fmt) (c : Vars ρ) (dblogs : List Dblog) :
    (dblogLines e formats c dblogs).length = dblogs.length := by
  induction dblogs generalizing c with
  | nil => rfl
  | cons dblog dblogs ih => rw [dblogLines, List.length_cons, List.length_cons, ih]

/-- **The loop over the database logs.** -/
theorem dblogCalls_eq (e : LogEnv ρ) {formats : List Fmt} (hformats : FmtsOk formats)
    {dblogs : List Dblog} (hdblogs : ∀ dblog ∈ dblogs, dblog.format < formats.length)
    (c : Vars ρ) :
    dblogCalls e formats dblogs c = some (dblogs.zip (dblogLines e formats c dblogs)) := by
  induction dblogs generalizing c with
  | nil => rfl
  | cons dblog dblogs ih =>
    obtain ⟨hdblog, hdblogs⟩ := List.forall_mem_cons.mp hdblogs
    have hget := List.getElem?_eq_getElem hdblog
    have hops : dblog.ops formats = formats[dblog.format].ops := by
      rw [Dblog.ops, hget]
      rfl
    have hentry := logEntry_eq e (hformats.2 _ (List.getElem_mem hdblog)) c
    rw [← hops] at hentry
    rw [dblogLines, List.zip_cons_cons]
    simp only [dblogCalls, hget, Option.bind_eq_bind, Option.bind_some, ← hops, hentry, ih hdblogs]
    rfl

/-- **What the handler passes to `ngx_write_dblog`**: for each entry of the location the
line of its format, from the variables that file logging has left. -/
theorem logHandler_eq (e : LogEnv ρ) {s : Shared} (hs : SharedOk s) {lcf : LocConf}
    (hlcf : MergedOk s lcf) (full : Nat → Bool) (c : Vars ρ) :
    logHandler e s lcf full c = some (lcf.effective.zip
      (dblogLines e s.db.dblogFormats (fileVars e s lcf full c) lcf.effective)) := by
  obtain ⟨⟨hlogs, hdblogs⟩, hlogs', hdblogs'⟩ := hlcf
  -- the second loop, whatever the first has left
  have hdb : ∀ c', (if lcf.db.dblogoff then some []
      else lcf.db.dblogs.bind fun dblogs => dblogCalls e s.db.dblogFormats dblogs c') =
      some (lcf.effective.zip (dblogLines e s.db.dblogFormats c' lcf.effective)) := by
    intro c'
    unfold LocConf.effective
    split
    · rfl
    next hoff =>
      obtain ⟨dblogs, hsome⟩ := Option.ne_none_iff_exists'.mp fun hnone => hoff (hdblogs' hnone)
      have hlt : ∀ dblog ∈ dblogs, dblog.format < s.db.dblogFormats.length := by
        simpa [hsome] using hdblogs.2
      rw [hsome, Option.bind_some, dblogCalls_eq e hs.2 hlt]
      rfl
  unfold logHandler
  by_cases hoff : lcf.file.off
  · have hvars : fileVars e s lcf full c = c := by rw [fileVars, if_pos hoff]
    rw [hvars]
    by_cases hdboff : lcf.db.dblogoff
    · simp [hoff, hdboff, LocConf.effective]
    · rw [if_neg (by simp [hdboff]), if_pos hoff, ← hdb c]
      rfl
  · obtain ⟨logs, hsome⟩ := Option.ne_none_iff_exists'.mp fun hnone => hoff (hlogs' hnone)
    have hlt : ∀ log ∈ logs, log.format < s.file.formats.length := by
      simpa [hsome] using hlogs.2
    obtain ⟨c', hfiles⟩ := logFiles_isSome e hs.1 full hlt 0 c
    have hvars : fileVars e s lcf full c = c' := by
      rw [fileVars, if_neg hoff, hsome, Option.getD_some, hfiles, Option.getD_some]
    rw [if_neg (by simp [hoff]), if_neg hoff, hsome, Option.bind_some, hfiles, hvars, ← hdb c']
    rfl

/-- The entries that the handler passes on are those in effect. -/
theorem logHandler_entries (e : LogEnv ρ) {s : Shared} (hs : SharedOk s) {lcf : LocConf}
    (hlcf : MergedOk s lcf) (full : Nat → Bool) (c : Vars ρ) :
    ∃ calls, logHandler e s lcf full c = some calls ∧ calls.map Prod.fst = lcf.effective :=
  ⟨_, logHandler_eq e hs hlcf full c,
    List.map_fst_zip (length_dblogLines e s.db.dblogFormats _ lcf.effective).ge⟩

end

end HttpLog
