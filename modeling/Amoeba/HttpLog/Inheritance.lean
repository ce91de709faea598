import Amoeba.HttpLog.Independence

/-!
# Inherited log settings

The merging function of the log module handles file logging first, jumps over what is
left of it when a block has a setting of its own or from outside, and goes on with
database logging. Each of the two settings is a list of logs together with a flag, and
both are taken from one block.

* `settings_inherited` — for all accepted configurations: the settings of each block are
  those of the nearest levels with a directive, an `off` among them silences its kind,
  and neither depends on the directives for the other.
-/

namespace HttpLog

open CString Nginx

/-! ### The settings of a level -/

/-- The directive is an `access_log`. -/
def LogDirective.isAccessLog : LogDirective → Bool
  | .accessLog _ _ _ => true
  | _ => false

/-- The directive is an `access_dblog`. -/
def LogDirective.isAccessDblog : LogDirective → Bool
  | .accessDblog _ _ _ => true
  | _ => false

/-- The directive is an `access_log off`. -/
def LogDirective.isLogOff : LogDirective → Bool
  | .accessLog value _ _ => cut value = ascii "off"
  | _ => false

/-- The log that the directive adds, with the formats of the whole text. -/
def LogDirective.log (script : List UInt8 → Option (List Nat)) (formats : List Fmt) :
    LogDirective → Option Log
  | .accessLog value more _ =>
    if cut value = ascii "off" then none
    else
      (if dollar ∈ value then (script value).map some else some none).bind fun vars =>
        (findFmt formats (more.headD combined)).map fun format => ⟨some value, vars, format⟩
  | _ => none

/-- The database log that the directive adds. -/
def LogDirective.dblog (formats : List Fmt) : LogDirective → Option Dblog
  | .accessDblog value (username :: password :: rest) _ =>
    if cut value = ascii "off" then none
    else (findFmt formats (rest.headD dblogCombined)).map (⟨·, some ⟨value, username, password⟩⟩)
  | _ => none

/-- What a directive adds to the setting of its level. -/
def stepLog (script : List UInt8 → Option (List Nat)) (formats : List Fmt) (k : LogConf)
    (d : LogDirective) : LogConf :=
  if d.isLogOff then { k with off := true }
  else if d.isAccessLog then
    { k with logs := some (k.logs.getD [] ++ (d.log script formats).toList) }
  else k

/-- What a directive adds to the setting of its level, for database logging. -/
def stepDblog (formats : List Fmt) (k : DblogConf) (d : LogDirective) : DblogConf :=
  if d.isOff then { k with dblogoff := true }
  else if d.isAccessDblog then
    { k with dblogs := some (k.dblogs.getD [] ++ (d.dblog formats).toList) }
  else k

/-- The default: one log in the built-in format. -/
def LogConf.default : LogConf := { logs := some [⟨none, none, 0⟩], off := false }

def DblogConf.default : DblogConf := { dblogs := some [⟨0, none⟩], dblogoff := false }

/-- The block has a setting for file logging. -/
def LogConf.given (k : LogConf) : Bool := k.logs.isSome || k.off

def DblogConf.given (k : DblogConf) : Bool := k.dblogs.isSome || k.dblogoff

/-- The setting of the nearest of these levels with an `access_log`. -/
def fileSetting (script : List UInt8 → Option (List Nat)) (formats : List Fmt) :
    List (List LogDirective) → LogConf :=
  setting LogDirective.isAccessLog (stepLog script formats) ⟨none, false⟩ .default

/-- The setting of the nearest of these levels with an `access_dblog`. -/
def dbSetting (formats : List Fmt) : List (List LogDirective) → DblogConf :=
  setting LogDirective.isAccessDblog (stepDblog formats) ⟨none, false⟩ .default

theorem mergeLog_eq : mergeLog = inherit LogConf.given .default := rfl

theorem mergeDblog_eq : mergeDblog = inherit DblogConf.given .default := rfl

section

variable {script : List UInt8 → Option (List Nat)} {formats : List Fmt}

theorem given_stepLog (k : LogConf) (d : LogDirective) :
    (stepLog script formats k d).given = (k.given || d.isAccessLog) := by
  cases d with
  | accessLog value more optionsOk =>
    unfold stepLog LogConf.given
    split
    · simp [LogDirective.isAccessLog]
    · simp [LogDirective.isAccessLog]
  | _ => simp [stepLog, LogDirective.isLogOff, LogDirective.isAccessLog]

theorem given_stepDblog (k : DblogConf) (d : LogDirective) :
    (stepDblog formats k d).given = (k.given || d.isAccessDblog) := by
  cases d with
  | accessDblog value more oci =>
    unfold stepDblog DblogConf.given
    split
    · simp [LogDirective.isAccessDblog]
    · simp [LogDirective.isAccessDblog]
  | _ => simp [stepDblog, LogDirective.isOff, LogDirective.isAccessDblog]

theorem off_foldl_stepLog (ds : List LogDirective) (k : LogConf) :
    (ds.foldl (stepLog script formats) k).off = (k.off || ds.any (·.isLogOff)) := by
  induction ds generalizing k with
  | nil => simp
  | cons d ds ih =>
    -- no directive takes an `off` back
    have hstep : (stepLog script formats k d).off = (k.off || d.isLogOff) := by
      unfold stepLog
      split_ifs <;> simp_all
    rw [List.foldl_cons, ih, hstep, List.any_cons, Bool.or_assoc]

theorem off_foldl_stepDblog (ds : List LogDirective) (k : DblogConf) :
    (ds.foldl (stepDblog formats) k).dblogoff = (k.dblogoff || ds.any (·.isOff)) := by
  induction ds generalizing k with
  | nil => simp
  | cons d ds ih =>
    have hstep : (stepDblog formats k d).dblogoff = (k.dblogoff || d.isOff) := by
      unfold stepDblog
      split_ifs <;> simp_all
    rw [List.foldl_cons, ih, hstep, List.any_cons, Bool.or_assoc]

end

/-! ### Formats that stay where they are -/

/-- A format is found by its name. -/
theorem findFmt_eq (formats : List Fmt) (name : List UInt8) :
    findFmt formats name = (formats.map Fmt.name).findIdx? fun x =>
      x.length = name.length ∧ (cut x).map tolower = (cut name).map tolower := by
  rw [List.findIdx?_map]
  rfl

/-- A format that is found in a table stays the first of its name when others follow. -/
theorem findFmt_of_prefix {formats formats' : List Fmt} {name : List UInt8} {i : Nat}
    (h : formats.map Fmt.name <+: formats'.map Fmt.name) (hi : findFmt formats name = some i) :
    findFmt formats' name = some i := by
  rw [findFmt_eq] at hi ⊢
  obtain ⟨rest, hrest⟩ := h
  -- the search stops before it reaches the formats that were added
  rw [← hrest, List.findIdx?_append, hi]
  rfl

theorem names_pushFmt {index : List UInt8 → Option Nat} {formats formats' : List Fmt}
    {name : List UInt8} {args : List (List UInt8)}
    (h : pushFmt index formats name args = .ok formats') :
    formats.map Fmt.name <+: formats'.map Fmt.name := by
  unfold pushFmt at h
  split at h
  · simp at h
  -- a new format goes to the end
  · obtain rfl := Except.ok.inj h
    rw [List.map_append]
    exact List.prefix_append _ _

theorem names_initFmt {index : List UInt8 → Option Nat} {used : Bool} {text : List UInt8}
    {formats formats' : List Fmt} (h : initFmt index used text formats = .ok formats') :
    formats'.map Fmt.name = formats.map Fmt.name := by
  -- only the operations of the first format are compiled, its name stays
  cases formats with
  | nil =>
    obtain rfl := Except.ok.inj h
    rfl
  | cons fmt formats =>
    rw [initFmt] at h
    split at h
    · split at h
      · simp at h
      · obtain rfl := Except.ok.inj h
        rfl
    · obtain rfl := Except.ok.inj h
      rfl

/-! ### What the text sets -/

section

variable {index : List UInt8 → Option Nat} {script : List UInt8 → Option (List Nat)}
  {formats : List Fmt}

/-- **The effect of a directive on its level**, given the formats of the whole text. -/
theorem setFile_step {s s' : LogShared} {k k' : LogConf} {d : LogDirective}
    (h : setFile index script s k d = .ok (s', k'))
    (hformats : s'.formats.map Fmt.name <+: formats.map Fmt.name) :
    s.formats.map Fmt.name <+: formats.map Fmt.name ∧ k' = stepLog script formats k d := by
  cases d with
  | logFormat name args =>
    rw [setFile, setFormat] at h
    split at h
    · simp [Except.map] at h
    · split at h
      · simp [Except.map] at h
      -- a `log_format` changes the table, and no setting
      next formats₁ hpush =>
        obtain ⟨rfl, rfl⟩ : { s with formats := formats₁ } = s' ∧ k = k' := by
          simpa [Except.map] using h
        exact ⟨(names_pushFmt hpush).trans hformats, rfl⟩
  | accessLog value more optionsOk =>
    rcases setLog_cases h with
      ⟨hoff, rfl, rfl⟩ | ⟨hoff, vars, format, used, hvars, hformat, rfl, rfl⟩
    · refine ⟨hformats, ?_⟩
      simp [stepLog, LogDirective.isLogOff, hoff]
    · refine ⟨hformats, ?_⟩
      -- the format that was found is still the first of its name
      have hlog : (LogDirective.accessLog value more optionsOk).log script formats =
          some ⟨some value, vars, format⟩ := by
        simp only [LogDirective.log, if_neg hoff, hvars, findFmt_of_prefix hformats hformat]
        rfl
      simp [stepLog, LogDirective.isLogOff, LogDirective.isAccessLog, hoff, hlog]
  | _ =>
    obtain ⟨rfl, rfl⟩ : s = s' ∧ k = k' := by simpa [setFile] using h
    exact ⟨hformats, rfl⟩

/-- The same for database logging. -/
theorem setDb_step {s s' : DblogShared} {k k' : DblogConf} {d : LogDirective}
    (h : setDb index s k d = .ok (s', k'))
    (hformats : s'.dblogFormats.map Fmt.name <+: formats.map Fmt.name) :
    s.dblogFormats.map Fmt.name <+: formats.map Fmt.name ∧ k' = stepDblog formats k d := by
  cases d with
  | dblogFormat name args =>
    rw [setDb, setDblogFormat] at h
    split at h
    · simp [Except.map] at h
    · split at h
      · simp [Except.map] at h
      next formats₁ hpush =>
        obtain ⟨rfl, rfl⟩ : { s with dblogFormats := formats₁ } = s' ∧ k = k' := by
          simpa [Except.map] using h
        exact ⟨(names_pushFmt hpush).trans hformats, rfl⟩
  | accessDblog value more oci =>
    rcases setDblog_cases h with
      ⟨hoff, rfl, rfl⟩ | ⟨hoff, username, password, rest, format, used, rfl, hformat, hopen, rfl⟩
    · refine ⟨hformats, ?_⟩
      simp [stepDblog, LogDirective.isOff, hoff]
    -- opening the session pool leaves the formats alone
    · have hsame : s'.dblogFormats = s.dblogFormats := by
        rcases openSessionPool_cases hopen with ⟨-, rfl⟩ | ⟨-, rfl⟩ <;> rfl
      rw [hsame] at hformats
      refine ⟨hformats, ?_⟩
      -- as for `access_log`, the format that was found stays the first
      have hdblog : (LogDirective.accessDblog value (username :: password :: rest) oci).dblog
          formats = some ⟨format, some ⟨value, username, password⟩⟩ := by
        simp only [LogDirective.dblog, if_neg hoff, findFmt_of_prefix hformats hformat]
        rfl
      simp [stepDblog, LogDirective.isOff, LogDirective.isAccessDblog, hoff, hdblog]
  | _ =>
    obtain ⟨rfl, rfl⟩ : s = s' ∧ k = k' := by simpa [setDb] using h
    exact ⟨hformats, rfl⟩

/-- The names of the formats after `ngx_http_log_init`. -/
theorem names_logInit {s s' : Shared} {locs : List LocConf} (h : logInit index s locs = .ok s') :
    s'.file.formats.map Fmt.name = s.file.formats.map Fmt.name ∧
      s'.db.dblogFormats.map Fmt.name = s.db.dblogFormats.map Fmt.name := by
  unfold logInit at h
  split at h
  · simp at h
  · simp at h
  next hfile hdb =>
    obtain rfl := Except.ok.inj h
    exact ⟨names_initFmt hfile, names_initFmt hdb⟩

variable {dbconn : Nat} {old : Statics} {s s' : Shared} {http http' : Body LogDirective}
  {locs locs' : List LocConf}

/-- **File logging is inherited** from the nearest level with an `access_log`. -/
theorem file_inherited {s₀ : Shared} (h : readConf index script s₀ http = .ok (s, locs)) :
    s₀.file.formats.map Fmt.name <+: s.file.formats.map Fmt.name ∧
      locs.map LocConf.file =
        (http.levels [http.own]).map (fileSetting script s.file.formats) := by
  obtain ⟨s₁, k, cs, hparse, rfl, hinit⟩ := readConf_stages h
  -- the formats of a step are a prefix of those at the end, so each step can be stated with
  -- the latter
  have hstep : ∀ s₂ k d s₃ k', set index script s₂ k d = .ok (s₃, k') →
      s₃.file.formats.map Fmt.name <+: s.file.formats.map Fmt.name →
      s₂.file.formats.map Fmt.name <+: s.file.formats.map Fmt.name ∧
        k'.file = stepLog script s.file.formats k.file d :=
    fun s₂ k d s₃ k' hset => setFile_step (set_ok hset).2
  obtain ⟨hnames, hk, hcs⟩ := parse_own_of (p := LocConf.file) hstep hparse
    ((names_logInit hinit).1 ▸ List.prefix_rfl)
  -- the file part of a merge does not look at the database part
  have hmerge : ∀ prev conf, (mergeLocConf prev conf).file = mergeLog prev.file conf.file :=
    fun _ _ => rfl
  refine ⟨hnames, ?_⟩
  -- what is left is the merge of one kind of setting
  rw [← Confs.toList_map, Confs.map_merge hmerge, hcs, hk, mergeLog_eq]
  exact merge_inherit_outermost rfl (given_foldl given_stepLog · ⟨none, false⟩) http

/-- **Database logging is inherited** from the nearest level with an `access_dblog`. -/
theorem db_inherited {s₀ : Shared} (h : readConf index script s₀ http = .ok (s, locs)) :
    s₀.db.dblogFormats.map Fmt.name <+: s.db.dblogFormats.map Fmt.name ∧
      locs.map LocConf.db = (http.levels [http.own]).map (dbSetting s.db.dblogFormats) := by
  obtain ⟨s₁, k, cs, hparse, rfl, hinit⟩ := readConf_stages h
  have hstep : ∀ s₂ k d s₃ k', set index script s₂ k d = .ok (s₃, k') →
      s₃.db.dblogFormats.map Fmt.name <+: s.db.dblogFormats.map Fmt.name →
      s₂.db.dblogFormats.map Fmt.name <+: s.db.dblogFormats.map Fmt.name ∧
        k'.db = stepDblog s.db.dblogFormats k.db d :=
    fun s₂ k d s₃ k' hset => setDb_step (set_ok hset).1
  obtain ⟨hnames, hk, hcs⟩ := parse_own_of (p := LocConf.db) hstep hparse
    ((names_logInit hinit).2 ▸ List.prefix_rfl)
  have hmerge : ∀ prev conf, (mergeLocConf prev conf).db = mergeDblog prev.db conf.db :=
    fun _ _ => rfl
  refine ⟨hnames, ?_⟩
  rw [← Confs.toList_map, Confs.map_merge hmerge, hcs, hk, mergeDblog_eq]
  exact merge_inherit_outermost rfl (given_foldl given_stepDblog · ⟨none, false⟩) http

/-- **The file part of a configuration** comes from its own directives only. -/
theorem parse_file {k k' : LocConf} {cs : Confs LocConf}
    (h : http.parse (set index script) .create s k = .ok (s', k', cs)) :
    (http.filter (!·.isDb)).parse (setFile index script) LocConf.create.file s.file k.file =
      .ok (s'.file, k'.file, cs.map LocConf.file) := by
  -- each step projects to the file part
  have hset : ∀ s k d s' k', set index script s k d = .ok (s', k') →
      setFile index script s.file k.file d = .ok (s'.file, k'.file) :=
    fun s k d s' k' hset => (set_ok hset).2
  -- and a directive for the database is no step there
  have hkeep : ∀ s k d, (!LogDirective.isDb d) = false →
      setFile index script s k d = .ok (s, k) := by
    intro s k d hd
    cases d with
    | logFormat => simp [LogDirective.isDb] at hd
    | accessLog => simp [LogDirective.isDb] at hd
    | dblogFormat => rfl
    | accessDblog => rfl
  rw [parse_filter hkeep]
  exact parse_map hset h

/-- **The same logs** in all locations. -/
theorem same_file (hhttp : http.filter (!·.isDb) = http'.filter (!·.isDb))
    (h : readConf index script (.create dbconn old) http = .ok (s, locs))
    (h' : readConf index script (.create dbconn old) http' = .ok (s', locs')) :
    locs.map LocConf.file = locs'.map LocConf.file := by
  obtain ⟨s₁, k, cs, hparse, rfl, -⟩ := readConf_stages h
  obtain ⟨s₁', k', cs', hparse', rfl, -⟩ := readConf_stages h'
  have hfile := parse_file hparse
  -- both texts are read alike once the other directives are left out
  rw [hhttp, parse_file hparse'] at hfile
  obtain ⟨-, hk, hcs⟩ : s₁'.file = s₁.file ∧ k'.file = k.file ∧
      cs'.map LocConf.file = cs.map LocConf.file := by
    simpa using hfile
  have hmerge : ∀ prev conf, (mergeLocConf prev conf).file = mergeLog prev.file conf.file :=
    fun _ _ => rfl
  rw [← Confs.toList_map, ← Confs.toList_map, Confs.map_merge hmerge, Confs.map_merge hmerge, hk,
    hcs]

end

/-! ### What is logged -/

/-- The line that a round of the loop over the logs makes, for the buffer or the file of
the log. -/
def fileLine {ρ : Type} (e : LogEnv ρ) (formats : List Fmt) (c : Vars ρ) (log : Log) (full : Bool) :
    Option (Option (List UInt8)) :=
  if full then some none
  else do
    let fmt ← formats[log.format]?
    let (line, _) ← logEntry e fmt.ops (c.flush (· ∈ fmt.flushes.getD []))
    return some line

/-- The loop over the logs, with the lines that it makes. -/
def fileLines {ρ : Type} (e : LogEnv ρ) (formats : List Fmt) (full : Nat → Bool) :
    Nat → List Log → Vars ρ → Option (List (Log × List UInt8))
  | _, [], _ => some []
  | l, log :: logs, c => do
    let line ← fileLine e formats c log (full l)
    let c ← logFile e formats c log (full l)
    let lines ← fileLines e formats full (l + 1) logs c
    return line.toList.map (log, ·) ++ lines

/-- The lines of `ngx_http_log_handler` for the logs of the location. -/
def handlerLines {ρ : Type} (e : LogEnv ρ) (s : Shared) (lcf : LocConf) (full : Nat → Bool)
    (c : Vars ρ) : Option (List (Log × List UInt8)) :=
  if lcf.file.off then some []
  else lcf.file.logs.bind fun logs => fileLines e s.file.formats full 0 logs c

section

variable {index : List UInt8 → Option Nat} {script : List UInt8 → Option (List Nat)}
  {dbconn : Nat} {old : Statics} {s : Shared} {http : Body LogDirective} {locs : List LocConf}

/-- **An `off` silences file logging** wherever its level is the nearest one. -/
theorem handlerLines_of_off (h : readConf index script (.create dbconn old) http = .ok (s, locs))
    {n : Nat} {lcf : LocConf} {levels : List (List LogDirective)} (hn : locs[n]? = some lcf)
    (hlevels : (http.levels [http.own])[n]? = some levels) {ds : List LogDirective}
    (hnearest : nearest LogDirective.isAccessLog levels = some ds)
    (hoff : ds.any (·.isLogOff) = true) {ρ : Type} (e : LogEnv ρ) (full : Nat → Bool) (c : Vars ρ) :
    handlerLines e s lcf full c = some [] := by
  have hfile := congrArg (·[n]?) (file_inherited h).2
  simp only [List.getElem?_map, hn, hlevels, Option.map_some, Option.some.injEq] at hfile
  -- the flag of the block is set by any `off` of its nearest level
  have hflag : lcf.file.off = true := by
    rw [hfile, fileSetting, setting, hnearest, Option.elim_some, off_foldl_stepLog, hoff]
    rfl
  exact if_pos hflag

/-- **An `off` silences database logging.** -/
theorem logHandler_of_off (h : readConf index script (.create dbconn old) http = .ok (s, locs))
    {n : Nat} {lcf : LocConf} {levels : List (List LogDirective)} (hn : locs[n]? = some lcf)
    (hlevels : (http.levels [http.own])[n]? = some levels) {ds : List LogDirective}
    (hnearest : nearest LogDirective.isAccessDblog levels = some ds)
    (hoff : ds.any (·.isOff) = true) {ρ : Type} (e : LogEnv ρ) (full : Nat → Bool) (c : Vars ρ) :
    logHandler e s lcf full c = some [] := by
  have hdb := congrArg (·[n]?) (db_inherited h).2
  simp only [List.getElem?_map, hn, hlevels, Option.map_some, Option.some.injEq] at hdb
  have hflag : lcf.db.dblogoff = true := by
    rw [hdb, dbSetting, setting, hnearest, Option.elim_some, off_foldl_stepDblog, hoff]
    rfl
  obtain ⟨hs, hlocs⟩ := readConf_ok h
  rw [logHandler_eq e hs (hlocs lcf (List.mem_of_getElem? hn)), LocConf.effective, if_pos hflag]
  rfl

/-- **Log settings are inherited independently.** For every accepted text, with blocks nested
to any depth and any directives in each: the logs and the flag of a block are those that
the nearest level with an `access_log` sets, from the inside outwards and itself
included, and one log in the format `combined` if there is none; the same holds for the
database logs with the nearest `access_dblog` and the format `dblog_combined`; an `off`
at the nearest level leaves nothing to log of its kind; and two texts that differ in
directives for one kind only have the same settings of the other. -/
theorem settings_inherited
    (h : readConf index script (.create dbconn old) http = .ok (s, locs)) :
    (locs.map LocConf.file = (http.levels [http.own]).map (fileSetting script s.file.formats) ∧
      (s.file.formats.map Fmt.name)[0]? = some combined) ∧
    (locs.map LocConf.db = (http.levels [http.own]).map (dbSetting s.db.dblogFormats) ∧
      (s.db.dblogFormats.map Fmt.name)[0]? = some dblogCombined) ∧
    (∀ (n : Nat) lcf levels ds, locs[n]? = some lcf →
      (http.levels [http.own])[n]? = some levels → ∀ {ρ : Type} (e : LogEnv ρ) full c,
      (nearest LogDirective.isAccessLog levels = some ds → ds.any (·.isLogOff) = true →
        handlerLines e s lcf full c = some []) ∧
      (nearest LogDirective.isAccessDblog levels = some ds → ds.any (·.isOff) = true →
        logHandler e s lcf full c = some [])) ∧
    ∀ http' s' locs', readConf index script (.create dbconn old) http' = .ok (s', locs') →
      (http.filter (!·.isDb) = http'.filter (!·.isDb) →
        locs.map LocConf.file = locs'.map LocConf.file) ∧
      (http.filter (·.isDb) = http'.filter (·.isDb) →
        locs.map LocConf.db = locs'.map LocConf.db) := by
  obtain ⟨hnames, hfile⟩ := file_inherited h
  obtain ⟨hnames', hdb⟩ := db_inherited h
  obtain ⟨rest, hrest⟩ := hnames
  obtain ⟨rest', hrest'⟩ := hnames'
  refine ⟨⟨hfile, ?_⟩, ⟨hdb, ?_⟩, ?_, ?_⟩
  -- the built-in format is the first in the table before anything is read
  · rw [← hrest]
    rfl
  · rw [← hrest']
    rfl
  · intro n lcf levels ds hn hlevels ρ e full c
    exact ⟨fun hnearest hoff => handlerLines_of_off h hn hlevels hnearest hoff e full c,
      fun hnearest hoff => logHandler_of_off h hn hlevels hnearest hoff e full c⟩
  · intro http' s' locs' h'
    exact ⟨fun hhttp => same_file hhttp h h', fun hhttp => (same_db hhttp h h').1⟩

/-- A server with an `access_dblog` and, in it, a location with its file logs switched off. -/
def quietLocation : Body LogDirective :=
  .directive (.accessLog (ascii "a.log") [] true) <|
    .block (.directive (dblogTo "orcl") <|
      .block (.directive (.accessLog (ascii "off") [] true) <|
        .directive (.accessLog (ascii "b.log") [] true) .nil) .nil) .nil

/-- The server has the log of the `http` level, the location makes no lines, and both have
the database log of the server. -/
theorem settings_inherited_quiet_location :
    ∃ s locs, readConf nameIndex noScript (.create 0 .initial) quietLocation = .ok (s, locs) ∧
      locs.map LocConf.file = (quietLocation.levels [quietLocation.own]).map
        (fileSetting noScript s.file.formats) ∧
      (∃ lcf, locs[1]? = some lcf ∧
        ∀ {ρ : Type} (e : LogEnv ρ) full c, handlerLines e s lcf full c = some []) ∧
      locs.map LocConf.db = [dbSetting s.db.dblogFormats [[dblogTo "orcl"]],
        dbSetting s.db.dblogFormats [[dblogTo "orcl"]]] := by
  obtain ⟨⟨s, locs⟩, h⟩ := exists_of_isOk (x := readConf nameIndex noScript (.create 0 .initial)
    quietLocation) (by decide +kernel)
  obtain ⟨⟨hfile, -⟩, ⟨hdb, -⟩, hoff, -⟩ := settings_inherited h
  have hlength : locs.length = 2 := by
    rw [← List.length_map (f := LocConf.file), hfile, List.length_map]
    rfl
  obtain ⟨lcf, hlcf⟩ : ∃ lcf, locs[1]? = some lcf :=
    ⟨_, List.getElem?_eq_getElem (by omega)⟩
  refine ⟨s, locs, h, hfile, ⟨lcf, hlcf, fun {ρ} e full c => ?_⟩, hdb⟩
  exact (hoff 1 lcf _ _ hlcf rfl e full c).1 rfl (by decide)

end

end HttpLog
