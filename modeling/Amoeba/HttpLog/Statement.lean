import Amoeba.HttpLog.Line
import Amoeba.SqlLiteral.Basic

/-!
# The logged SQL statement

For a `dblog` the line is an SQL statement that `ngx_write_dblog` prepares and
executes. The format puts the values of the request between single quotes.
`ngx_http_log_escape` was made for log files: its table has the double quote
and the backslash, but not the single quote, and the two parameters of the
request are not escaped at all.

`statement_structure_iff` says for which requests the statement has the literal
structure of its format. What is logged of a variable is what the second pass finds; a
handler may have changed it since the first pass, and the flag for escaping with it.
-/

namespace HttpLog

open CString Nginx SqlLiteral

/-- `'\''` -/
def singleQuote : UInt8 := 0x27

/-- Static text. -/
def Op.static : Op → Bool
  | .copyShort _ _ => true
  | .copyLong _ => true
  | _ => false

/-- The operation writes data of the request that is not a number or a time. -/
def Op.textual : Op → Bool
  | .log .requestSid => true
  | .log .requestKey => true
  | .indexed _ => true
  | _ => false

/-- The text of a static operation. -/
def Op.source : Op → List UInt8
  | .copyShort len data => logCopyShort len data
  | .copyLong text => text
  | _ => []

/-- **The static text encloses each textual operation in single quotes**: there the
lexer is inside a literal, and static text follows. -/
def enclosedFormat : State → List Op → Bool
  | _, [] => true
  | s, op :: ops =>
    if op.textual then s = .inside && ops.head?.any Op.static && enclosedFormat s ops
    else if op.static then enclosedFormat (run singleQuote s op.source) ops
    -- a number or a time: some text without quotes
    else enclosedFormat s.plain ops

/-- What an operation is in the template of the statement, for the bytes that it writes. -/
def Op.piece (op : Op) (text : List UInt8) : Piece UInt8 :=
  if op.textual then .hole text else .text text

/-- The statement of a format, with the linefeed, from these variables on. -/
def statement {ρ : Type} (v : VarTable ρ) (now : LogClock) (r : LogRequest) (c : Vars ρ)
    (ops : List Op) : List (Piece UInt8) :=
  (writes v now r c ops).map (fun p => p.1.piece p.2) ++ [.text [0x0a]]

/-! ### Operations that write no quotes -/

/-- At least one byte, and no single quote. -/
def Plain (l : List UInt8) : Prop := l ≠ [] ∧ singleQuote ∉ l

instance (l : List UInt8) : Decidable (Plain l) := inferInstanceAs (Decidable (_ ∧ _))

theorem plain_sprintfNum (width n : Nat) : Plain (sprintfNum width n) := by
  -- decimal digits are not the quote
  have hdigit : ∀ c ∈ Nat.toDigits 10 n, UInt8.ofNat c.toNat ≠ singleQuote := by
    intro c hc heq
    have hc : 48 ≤ c.toNat ∧ c.toNat ≤ 57 :=
      Char.isDigit_iff_toNat.mp (Nat.isDigit_of_mem_toDigits (by norm_num) (by norm_num) hc)
    have heq := congrArg UInt8.toNat heq
    rw [UInt8.toNat_ofNat', Nat.mod_eq_of_lt (by omega), show singleQuote.toNat = 39 from rfl] at heq
    omega
  refine ⟨?_, ?_⟩
  · simp [sprintfNum, Nat.toDigits_ne_nil]
  · simp only [sprintfNum, List.mem_append, List.mem_replicate, List.mem_map, not_or]
    refine ⟨fun h => absurd h.2 (by decide), ?_⟩
    rintro ⟨c, hc, heq⟩
    exact hdigit c hc heq

theorem plain_sprintfInt (width : Nat) (i : Int) : Plain (sprintfInt width i) := by
  have hnum := plain_sprintfNum width i.natAbs
  unfold sprintfInt
  split
  · exact ⟨by simp, by simpa [singleQuote] using hnum.2⟩
  · exact hnum

theorem Plain.append {a b : List UInt8} (ha : Plain a) (hb : Plain b) : Plain (a ++ b) :=
  ⟨by simp [ha.1], by simp [ha.2, hb.2]⟩

/-- The numbers and times of a log line contain no quotes. -/
theorem LogVar.plain_run (now : LogClock) (r : LogRequest) {v : LogVar}
    (h : (Op.log v).textual = false) : Plain (v.run now r) := by
  -- the cached times have fixed lengths and no quotes
  have htime : ∀ {l : List UInt8} {n : Nat}, l.length = n + 1 → singleQuote ∉ l → Plain l :=
    fun hl hq => ⟨List.ne_nil_of_length_eq_add_one hl, hq⟩
  have hdot : Plain [0x2e] := by decide
  cases v with
  | pipe =>
    simp only [LogVar.run]
    split <;> decide
  | timeLocal => exact htime now.logTime_length now.quote_notMem.1
  | timeIso8601 => exact htime now.logIso8601_length now.quote_notMem.2
  | msec => exact ((plain_sprintfInt _ _).append hdot).append (plain_sprintfNum _ _)
  | requestTime => exact ((plain_sprintfInt _ _).append hdot).append (plain_sprintfInt _ _)
  | status => exact plain_sprintfNum _ _
  | bytesSent => exact plain_sprintfInt _ _
  | bodyBytesSent =>
    simp only [LogVar.run, logBodyBytesSent]
    split
    · exact plain_sprintfInt _ _
    · decide
  | requestLength => exact plain_sprintfInt _ _
  | requestSid => exact absurd h (by decide)
  | requestKey => exact absurd h (by decide)

/-- Escaping touches no quote and adds none. -/
theorem paired_logEscape (src : List UInt8) :
    paired singleQuote (logEscape src) ↔ paired singleQuote src := by
  refine paired_flatMap (by decide) (fun c hc => ?_) src
  -- the escapes are hexadecimal digits, and the quote is not escaped
  have hall : ∀ c : UInt8, c ≠ singleQuote → escapeByte c ≠ [] ∧ singleQuote ∉ escapeByte c := by
    decide +kernel
  exact hall c hc

/-! ### Statements -/

/-- A variable is logged as its value, escaped or not, or as a dash. -/
theorem paired_slotText (s : VarSlot) :
    paired singleQuote (slotText s) ↔ (s.notFound = false → paired singleQuote s.data) := by
  rw [slotText]
  cases hnf : s.notFound with
  | true => simp [paired, singleQuote]
  | false =>
    rw [if_neg Bool.false_ne_true]
    split
    · simpa using paired_logEscape s.data
    · simp

theorem source_eq_text (now : LogClock) (r : LogRequest) {op : Op} (h : op.static = true) :
    op.source = op.text now r ∧ op.index = none := by
  match op, h with
  | .copyShort _ _, _ => exact ⟨rfl, rfl⟩
  | .copyLong _, _ => exact ⟨rfl, rfl⟩

/-- Static text is not empty. -/
theorem static_text (now : LogClock) (r : LogRequest) {op : Op} (h : op.static = true)
    (hsized : op.Sized) : op.textual = false ∧ op.text now r ≠ [] := by
  -- an operation without a length would be a variable
  have hlen : op.len ≠ 0 := by
    intro hlen
    obtain ⟨i, rfl⟩ := hsized hlen
    exact absurd h (by simp [Op.static])
  match op, h with
  | .copyShort len data, _ =>
    refine ⟨rfl, fun hnil => hlen ?_⟩
    rw [Op.len, ← length_logCopyShort len data]
    exact congrArg List.length hnil
  | .copyLong text, _ => exact ⟨rfl, fun hnil => hlen (congrArg List.length hnil)⟩

section

variable {ρ : Type} {v : VarTable ρ} {now : LogClock} {r : LogRequest} {c : Vars ρ} {ops : List Op}

theorem statement_cons (op : Op) :
    statement v now r c (op :: ops) =
      op.piece (op.run v now r c).1 :: statement v now r (op.run v now r c).2 ops := rfl

/-- **The format's quoting carries over to its statements.** -/
theorem enclosed_statement (hsized : ∀ op ∈ ops, op.Sized) {s : State}
    (h : enclosedFormat s ops = true) :
    Enclosed singleQuote s (statement v now r c ops) := by
  -- on the operations, with the state of the lexer in the format
  induction ops generalizing s c with
  | nil => exact trivial
  | cons op ops ih =>
    obtain ⟨hop, hops⟩ := List.forall_mem_cons.mp hsized
    rw [enclosedFormat] at h
    rw [statement_cons, Op.piece]
    by_cases htext : op.textual = true
    · rw [if_pos htext, Bool.and_eq_true, Bool.and_eq_true] at h
      obtain ⟨⟨hs, hnext⟩, h⟩ := h
      rw [if_pos htext]
      refine ⟨of_decide_eq_true hs, ?_, ih hops h⟩
      cases ops with
      | nil => exact absurd hnext (by simp)
      | cons next ops =>
        -- the static text behind the hole is not empty
        have hnext : next.static = true := by simpa using hnext
        obtain ⟨htext', hne⟩ := static_text now r hnext (hops next (by simp))
        obtain ⟨c', l, hcl⟩ := List.exists_cons_of_ne_nil hne
        refine ⟨c', l, statement v now r (op.run v now r c).2 ops, ?_⟩
        rw [statement_cons, Op.run_of_none (source_eq_text now r hnext).2, Op.piece, htext', hcl]
        rfl
    · rw [if_neg htext] at h ⊢
      refine ih hops ?_
      by_cases hstatic : op.static = true
      · obtain ⟨hsource, hnone⟩ := source_eq_text now r hstatic
        rw [if_pos hstatic] at h
        rwa [Op.run_of_none hnone, ← hsource]
      · rw [if_neg hstatic] at h
        cases op with
        | copyShort len data => exact absurd rfl hstatic
        | copyLong text => exact absurd rfl hstatic
        | log var =>
          -- what is neither textual nor static leads to the state the format foresees
          have hplain := LogVar.plain_run now r (by simpa using htext)
          rwa [show ((Op.log var).run v now r c).1 = var.run now r from rfl,
            run_plain hplain.1 hplain.2]
        | indexed i => exact absurd rfl htext

/-- The line is the statement. -/
theorem statement_bytes (v : VarTable ρ) (now : LogClock) (r : LogRequest) (c : Vars ρ)
    (ops : List Op) :
    (statement v now r c ops).flatMap Piece.bytes =
      (writes v now r c ops).flatMap Prod.snd ++ [0x0a] := by
  have hpiece : ∀ p : Op × List UInt8, (p.1.piece p.2).bytes = p.2 := by
    intro p
    unfold Op.piece
    split <;> rfl
  rw [statement, List.flatMap_append, List.flatMap_map]
  simp only [hpiece]
  rfl

/-- **The holes of a statement**: the variables as they are found, and the two parameters. -/
theorem hole_mem_statement {text : List UInt8} :
    .hole text ∈ statement v now r c ops ↔
      (∃ s ∈ (readVars v c (indices ops)).1, slotText s = text) ∨
        (.log .requestSid ∈ ops ∧ r.requestSid = text) ∨
        (.log .requestKey ∈ ops ∧ r.requestKey = text) := by
  induction ops generalizing c with
  | nil => simp [statement, writes, indices, readVars]
  | cons op ops ih =>
    rw [statement_cons, List.mem_cons, ih]
    by_cases hnone : op.index = none
    · rw [Op.run_of_none hnone, indices_cons_of_none hnone]
      cases op with
      | copyShort len data => simp [Op.piece, Op.textual]
      | copyLong text => simp [Op.piece, Op.textual]
      | log var =>
        -- only the two parameters are holes
        cases var <;> simp [Op.piece, Op.textual, Op.text, LogVar.run]
        · grind
        · grind
      | indexed i => exact absurd hnone (by simp [Op.index])
    · obtain ⟨i, rfl⟩ := Op.eq_indexed_of_ne_none hnone
      rw [indices_indexed, readVars, Op.run, logVariable_eq]
      simp [Op.piece, Op.textual, or_assoc, eq_comm]

end

/-- **When a logged request leaves the SQL statement as it is.** For every format
that compiles and encloses its textual operations in single quotes, for every
request, all handlers of variables and all cached values: the line handed to the database
has the literal structure of the format if and only if the single quotes come in pairs in
each value that the second pass finds for a variable, and in each of the two parameters
that the format logs. -/
theorem statement_structure_iff {index : List UInt8 → Option Nat} {args : List (List UInt8)}
    {ops : List Op} (h : compileFormat index args = .ok ops)
    (henc : enclosedFormat .outside ops = true) {ρ : Type} (v : VarTable ρ) (now : LogClock)
    (r : LogRequest) (c : Vars ρ) :
    ∃ sql, (∃ len c', logLine v now r c ops = some (len, sql.flatMap Piece.bytes, c')) ∧
      sql = statement v now r (measured v c (indices ops)).2 ops ∧
      (SameStructure singleQuote .outside .outside sql ↔
        (∀ s ∈ secondPass v c (indices ops), s.notFound = false → paired singleQuote s.data) ∧
          (.log .requestSid ∈ ops → paired singleQuote r.requestSid) ∧
          (.log .requestKey ∈ ops → paired singleQuote r.requestKey)) := by
  have hsized := compileFormat_sized h
  have hline := logLine_eq hsized v now r c
  rw [← statement_bytes] at hline
  refine ⟨_, ⟨_, _, hline⟩, rfl, ?_⟩
  rw [sameStructure_iff (enclosed_statement hsized henc)]
  simp only [hole_mem_statement, ← paired_slotText]
  constructor
  · intro hholes
    exact ⟨fun s hs => hholes _ (.inl ⟨s, hs, rfl⟩), fun hsid => hholes _ (.inr (.inl ⟨hsid, rfl⟩)),
      fun hkey => hholes _ (.inr (.inr ⟨hkey, rfl⟩))⟩
  · rintro ⟨hvars, hsid, hkey⟩ text (⟨s, hs, rfl⟩ | ⟨hmem, rfl⟩ | ⟨hmem, rfl⟩)
    · exact hvars s hs
    · exact hsid hmem
    · exact hkey hmem

/-- The indices of the two variables of the default format. -/
def combinedIndex (var : List UInt8) : Option Nat :=
  if var = ascii "remote_addr" then some 0 else if var = ascii "uri" then some 1 else none

/-- The operations of the default format. -/
@[irreducible]
def combinedOps : List Op :=
  [copyOp (ascii "INSERT INTO fmap_accesslog_t(remoteaddr, timestamp, uri, sid, httpstatus, key," ++
      ascii "costtime) VALUES('"),
    .indexed 0, copyOp (ascii "',TO_TIMESTAMP_TZ('"), .log .timeLocal,
    copyOp (ascii "', 'dd/mon/yyyy:hh24:mi:ss tzhtzm', 'NLS_DATE_LANGUAGE = AMERICAN'), '"),
    .indexed 1, copyOp (ascii "', '"), .log .requestSid, copyOp (ascii "', "), .log .status,
    copyOp (ascii " , '"), .log .requestKey, copyOp (ascii "','"), .log .requestTime,
    copyOp (ascii "')")]

theorem compileFormat_combinedSql :
    compileFormat combinedIndex [combinedSql] = .ok combinedOps := by decide +kernel

theorem enclosedFormat_combinedOps : enclosedFormat .outside combinedOps = true := by
  decide +kernel

/-- The values of the two variables, for this path. -/
def combinedTable (uri : List UInt8) : VarTable Unit :=
  .request (fun i => if i = 0 then some (ascii "127.0.0.1") else if i = 1 then some uri else none)
    (· = 1)

/-- An ordinary request in the default format. -/
theorem statement_structure_combined :
    ∃ sql, (∃ len c', logLine (combinedTable (ascii "/a")) epoch (unanswered (ascii "1") (ascii "k"))
        noVars combinedOps = some (len, sql.flatMap Piece.bytes, c')) ∧
      SameStructure singleQuote .outside .outside sql := by
  have hpaired : (∀ s ∈ secondPass (combinedTable (ascii "/a")) noVars (indices combinedOps),
        s.notFound = false → paired singleQuote s.data) ∧
      (.log .requestSid ∈ combinedOps → paired singleQuote (ascii "1")) ∧
      (.log .requestKey ∈ combinedOps → paired singleQuote (ascii "k")) := by
    decide +kernel
  obtain ⟨sql, hline, -, hiff⟩ := statement_structure_iff compileFormat_combinedSql
    enclosedFormat_combinedOps (combinedTable (ascii "/a")) epoch
    (unanswered (ascii "1") (ascii "k")) noVars
  exact ⟨sql, hline, hiff.mpr hpaired⟩

/-- **A request that changes the statement.** The path of the request ends the
literal of the `uri` column and goes on with SQL of its own. -/
theorem statement_structure_broken :
    let r := unanswered (ascii "1") (ascii "k")
    let v := combinedTable (ascii "/a', 'x', 200, 'k', 0)--")
    let sql := statement v epoch r (measured v noVars (indices combinedOps)).2 combinedOps
    compileFormat combinedIndex [combinedSql] = .ok combinedOps ∧
      enclosedFormat .outside combinedOps = true ∧
      (logLine v epoch r noVars combinedOps).map (·.2.1) = some (sql.flatMap Piece.bytes) ∧
      sql.flatMap Piece.bytes =
        ascii "INSERT INTO fmap_accesslog_t(remoteaddr, timestamp, uri, sid, httpstatus, key," ++
        ascii "costtime) VALUES('127.0.0.1',TO_TIMESTAMP_TZ('01/Jan/1970:00:00:00 +0000'," ++
        ascii " 'dd/mon/yyyy:hh24:mi:ss tzhtzm', 'NLS_DATE_LANGUAGE = AMERICAN')," ++
        ascii " '/a', 'x', 200, 'k', 0)--', '1', 000 , 'k','0.000')\n" ∧
      ¬ SameStructure singleQuote .outside .outside sql := by
  intro r v sql
  refine ⟨compileFormat_combinedSql, enclosedFormat_combinedOps, by decide +kernel,
    by decide +kernel, fun h => ?_⟩
  have henclosed : Enclosed singleQuote .outside sql := enclosed_statement
    (compileFormat_sized compileFormat_combinedSql) enclosedFormat_combinedOps
  -- the path is one of the holes, and its quotes do not come in pairs
  have hholes := (sameStructure_iff henclosed).mp h
  have huri : ∃ s ∈ secondPass v noVars (indices combinedOps),
      slotText s = ascii "/a', 'x', 200, 'k', 0)--" := by decide +kernel
  have hpaired := hholes _ (hole_mem_statement.mpr (.inl huri))
  exact absurd hpaired (by decide +kernel)

end HttpLog
