import Amoeba.CString.Basic
import Amoeba.Nginx.Conf

/-!
# Where the key table is loaded from

`accesscontrol_dbconf` stores the database, the user, the password and the
query in static variables, and each `access_control` directive loads its key
table from what these variables hold when it is read. The variables outlive the
configuration: what an earlier configuration of the process has stored is there
when the next one is read, and a query that is not given is not reset.

A setting is a pointer and a length. `ngx_http_limit_init_keypool` passes the
password's pointer with the user's length to `OCIAttrSet`.

* `keypool_source_iff` — for every configuration with one `accesscontrol_dbconf`
  and every state of the static variables, exactly when all loads use the
  configured source.
-/

namespace AccessControl

open CString Nginx

/-- `ngx_str_t` of a setting: the memory from its pointer on, and its length. A
token of the configuration and a string constant are followed by a NUL. -/
structure Setting where
  mem : List UInt8
  len : Nat
  len_lt : len < mem.length

/-- The bytes of a setting. -/
def Setting.bytes (s : Setting) : List UInt8 := s.mem.take s.len

/-- A string, as the parser or the compiler stores it. -/
def Setting.ofBytes (data : List UInt8) : Setting := ⟨data ++ [0], data.length, by simp⟩

theorem Setting.length_bytes (s : Setting) : s.bytes.length = s.len := by
  rw [Setting.bytes, List.length_take]
  have := s.len_lt
  omega

/-- The static variables `ngx_http_access_control_db`, `_un`, `_pw` and `_sql`. -/
structure DbSettings where
  db : Setting
  un : Setting
  pw : Setting
  sql : Setting

/-- The initial value of `ngx_http_access_control_sql`. -/
def builtInSql : List UInt8 :=
  ascii ("SELECT A.KEY,S.URI,A.MAXTPH,A.SID FROM FMAP_ACCESSCONTROL_T A,FMAP_SERVICE_T S " ++
    "WHERE  A.ISAPPROVED =1 AND A.SID = S.SID")

/-- The static variables of a process that has read no configuration. -/
def DbSettings.initial : DbSettings where
  db := .ofBytes (ascii "orcl")
  un := .ofBytes (ascii "sde")
  pw := .ofBytes (ascii "sde")
  sql := .ofBytes builtInSql

/-- The directives of a configuration that concern the key table. -/
inductive TableDirective where
  /-- `accesscontrol_dbconf`, with its arguments. -/
  | dbconf (args : List Setting)
  /-- `access_control`; `OCIEnvCreate` succeeds or fails. -/
  | accessControl (envOk : Bool)

/-- `ngx_http_access_control_dbconf`: three or four arguments. -/
def dbconf (s : DbSettings) : List Setting → Option DbSettings
  -- without a query the static one stays, whoever has set it
  | [db, un, pw] => some { s with db := db, un := un, pw := pw }
  | [db, un, pw, sql] => some { db := db, un := un, pw := pw, sql := sql }
  | _ => none

/-- What `ngx_http_limit_init_keypool` hands to `OCIServerAttach`, `OCIAttrSet`
and `OCIStmtPrepare`. -/
structure KeypoolLoad where
  database : List UInt8
  username : List UInt8
  password : List UInt8
  statement : List UInt8
  deriving DecidableEq, Repr

/-- `ngx_http_limit_init_keypool`, up to the preparation of the statement: the
length of the password is that of the user name. -/
def DbSettings.load (s : DbSettings) : KeypoolLoad where
  database := s.db.bytes
  username := s.un.bytes
  password := s.pw.mem.take s.un.len
  statement := s.sql.bytes

/-- The directives of a configuration, read in order up to the first error: the
static variables afterwards, and the loads. -/
def readDirectives : DbSettings → List TableDirective → DbSettings × List KeypoolLoad
  | s, [] => (s, [])
  | s, .dbconf args :: ds =>
    match dbconf s args with
    | none => (s, [])
    | some s => readDirectives s ds
  | s, .accessControl envOk :: ds =>
    if envOk then
      let (s', loads) := readDirectives s ds
      (s', s.load :: loads)
    -- the directive fails and the configuration is not read on
    else (s, [])

/-- The static variables of a process that has read these configurations. -/
def settingsAfter (confs : List (Body TableDirective)) : DbSettings :=
  confs.foldl (fun s conf => (readDirectives s conf.directives).1) .initial

/-- The load that a directive with these arguments asks for. -/
def wanted (db un pw : Setting) (sql : Option Setting) : KeypoolLoad where
  database := db.bytes
  username := un.bytes
  password := pw.bytes
  statement := sql.elim builtInSql Setting.bytes

/-! ### Loads before and after the directive -/

/-- The directive is an `access_control`. -/
def TableDirective.isAccessControl : TableDirective → Bool
  | .accessControl _ => true
  | _ => false

/-- The directive loads a table. -/
def TableDirective.loads : TableDirective → Bool
  | .accessControl envOk => envOk
  | _ => false

/-- `access_control` directives leave the static variables. Each loads from them,
up to the first that fails. -/
theorem readDirectives_accessControl {ds : List TableDirective}
    (hds : ∀ d ∈ ds, d.isAccessControl) (s : DbSettings) (P : KeypoolLoad → Prop) :
    (∀ l ∈ (readDirectives s ds).2, P l) ↔ ((ds.head?.elim false (·.loads)) → P s.load) := by
  -- on the directives; all loads are equal, so the first one decides
  induction ds with
  | nil => simp [readDirectives]
  | cons d ds ih =>
    have ih := ih fun x hx => hds x (List.mem_cons_of_mem _ hx)
    cases d with
    | dbconf args => simpa [TableDirective.isAccessControl] using hds _ List.mem_cons_self
    | accessControl envOk =>
      cases envOk with
      | false => simp [readDirectives, TableDirective.loads]
      | true =>
        simp only [readDirectives, if_true, List.forall_mem_cons, List.head?_cons, Option.elim_some,
          TableDirective.loads, forall_const, ih]
        exact and_iff_left_of_imp fun h _ => h

/-- The loads of a text that starts with `access_control` directives. -/
theorem readDirectives_append {pre : List TableDirective} (hpre : ∀ d ∈ pre, d.isAccessControl)
    (post : List TableDirective) (s : DbSettings) (P : KeypoolLoad → Prop) :
    (∀ l ∈ (readDirectives s (pre ++ post)).2, P l) ↔
      (∀ l ∈ (readDirectives s pre).2, P l) ∧
        ((∀ d ∈ pre, d.loads) → ∀ l ∈ (readDirectives s post).2, P l) := by
  -- on the directives in front, which leave the static variables
  induction pre with
  | nil => simp [readDirectives]
  | cons d pre ih =>
    have ih := ih fun x hx => hpre x (List.mem_cons_of_mem _ hx)
    cases d with
    | dbconf args => simpa [TableDirective.isAccessControl] using hpre _ List.mem_cons_self
    | accessControl envOk =>
      cases envOk with
      | false => simp [readDirectives, TableDirective.loads]
      | true =>
        simp only [List.cons_append, readDirectives, if_true, List.forall_mem_cons, ih,
          TableDirective.loads, true_and]
        exact and_assoc.symm

theorem dbconf_toList (s : DbSettings) (db un pw : Setting) (sql : Option Setting) :
    dbconf s ([db, un, pw] ++ sql.toList) =
      some { db := db, un := un, pw := pw, sql := sql.getD s.sql } := by
  cases sql <;> rfl

/-- A load after the directive asks for what is wanted, when the lengths of user
and password agree and the query is given or was never changed. -/
theorem load_eq_wanted_iff (s : DbSettings) (db un pw : Setting) (sql : Option Setting) :
    DbSettings.load { db := db, un := un, pw := pw, sql := sql.getD s.sql } =
        wanted db un pw sql ↔
      un.len = pw.len ∧ (sql.isSome ∨ s.sql.bytes = builtInSql) := by
  have hpw : pw.mem.take un.len = pw.bytes ↔ un.len = pw.len := by
    refine ⟨fun h => ?_, fun h => by rw [Setting.bytes, h]⟩
    -- the password is followed by a NUL, so that a longer piece is longer
    have hlen := congrArg List.length h
    rw [List.length_take, Setting.length_bytes] at hlen
    have := pw.len_lt
    omega
  rw [DbSettings.load, wanted, KeypoolLoad.mk.injEq]
  simp only [true_and, hpw]
  cases sql <;> simp

/-- **Where the tables come from.** For every configuration with exactly one
`accesscontrol_dbconf` and every state of the static variables: all loads use
the configured database, user, password and query exactly when

* a load in front of the directive finds just these in the static variables, and
* a load behind it finds a user and a password of one length, and a query that
  the directive gives or that is still the built-in one. -/
theorem keypool_source_iff (s : DbSettings) {conf : Body TableDirective}
    {pre post : List TableDirective} {db un pw : Setting} {sql : Option Setting}
    (hconf : conf.directives = pre ++ .dbconf ([db, un, pw] ++ sql.toList) :: post)
    (hpre : ∀ d ∈ pre, d.isAccessControl) (hpost : ∀ d ∈ post, d.isAccessControl) :
    (∀ l ∈ (readDirectives s conf.directives).2, l = wanted db un pw sql) ↔
      (pre.head?.elim false (·.loads) → s.load = wanted db un pw sql) ∧
      ((∀ d ∈ pre, d.loads) → post.head?.elim false (·.loads) →
        un.len = pw.len ∧ (sql.isSome ∨ s.sql.bytes = builtInSql)) := by
  rw [hconf, readDirectives_append hpre, readDirectives_accessControl hpre, readDirectives,
    dbconf_toList]
  dsimp only
  rw [readDirectives_accessControl hpost, load_eq_wanted_iff]

/-- A server behind the directive, with a user and a password of one length. -/
theorem keypool_source_behind :
    let db := Setting.ofBytes (ascii "orcl")
    let un := Setting.ofBytes (ascii "scott")
    let pw := Setting.ofBytes (ascii "tiger")
    let conf : Body TableDirective :=
      .directive (.dbconf [db, un, pw]) (.block (.directive (.accessControl true) .nil) .nil)
    ∀ l ∈ (readDirectives .initial conf.directives).2, l = wanted db un pw none := by
  intro db un pw conf
  have hconf : conf.directives =
      [] ++ .dbconf ([db, un, pw] ++ (none : Option Setting).toList) :: [.accessControl true] := rfl
  refine (keypool_source_iff .initial hconf (by simp)
    (by simp [TableDirective.isAccessControl])).mpr ⟨by simp, fun _ _ => ⟨rfl, Or.inr ?_⟩⟩
  simp [DbSettings.initial, Setting.bytes, Setting.ofBytes]

/-- **Three ways to another source.** A password longer than the user name is cut
to its length; a server in front of the directive loads from the built-in
settings; and after a reload without a query the query of the configuration
before is still there. -/
theorem keypool_source_missed :
    let db := Setting.ofBytes (ascii "prod")
    let un := Setting.ofBytes (ascii "sde")
    let pw := Setting.ofBytes (ascii "secret")
    let server : Body TableDirective → Body TableDirective :=
      .block (.directive (.accessControl true) .nil)
    let behind : Body TableDirective := .directive (.dbconf [db, un, pw]) (server .nil)
    let inFront : Body TableDirective := server (.directive (.dbconf [db, un, un]) .nil)
    let before : Body TableDirective :=
      .directive (.dbconf [db, un, un, .ofBytes (ascii "SELECT 1")]) .nil
    let reloaded : Body TableDirective := .directive (.dbconf [db, un, un]) (server .nil)
    (readDirectives .initial behind.directives).2 =
        [⟨ascii "prod", ascii "sde", ascii "sec", builtInSql⟩] ∧
      (readDirectives .initial inFront.directives).2 =
        [⟨ascii "orcl", ascii "sde", ascii "sde", builtInSql⟩] ∧
      (readDirectives (settingsAfter [before]) reloaded.directives).2 =
        [⟨ascii "prod", ascii "sde", ascii "sde", ascii "SELECT 1"⟩] ∧
      ¬ ∀ l ∈ (readDirectives .initial behind.directives).2, l = wanted db un pw none := by
  intro db un pw server behind inFront before reloaded
  have hload : (readDirectives .initial behind.directives).2 =
      [⟨ascii "prod", ascii "sde", ascii "sec", builtInSql⟩] := by decide +kernel
  refine ⟨hload, by decide +kernel, by decide +kernel, fun hall => ?_⟩
  -- `secret` is cut to the three bytes of `sde`
  have heq := congrArg KeypoolLoad.password (hall _ (hload ▸ List.mem_cons_self))
  exact absurd heq (by decide)

end AccessControl
