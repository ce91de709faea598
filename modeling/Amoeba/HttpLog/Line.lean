import Amoeba.HttpLog.Format
import Amoeba.Nginx.Variables
import Amoeba.AccessControl.Extraction

/-!
# The log line and its buffer

`ngx_http_log_handler` runs over the operations of a format twice: the first
pass adds up the lengths and the buffer is allocated, the second pass writes.
Both look the variables up. The first pass leaves their values in the cache of the
request, together with the flag that says whether they need escaping, but the
handler of a later variable may drop and evaluate an earlier one in between.

* `logLine_eq` — the two passes together: the lengths of what the first pass finds,
  and the line of what the second pass finds.
* `secondPass_of_keeps` — with handlers that leave evaluated variables alone both
  find the same.
* `line_length_le_iff` — for every compiled format and every request, exactly
  when the line fits: the declared widths of `request_sid` and `request_key` can be
  exceeded, and variables that change between the passes.
-/

namespace HttpLog

open CString Nginx

/-! ### Numbers -/

/-- `ngx_sprintf_num`: decimal, with leading zeros up to the width. -/
def sprintfNum (width n : Nat) : List UInt8 :=
  let digits := (Nat.toDigits 10 n).map fun c => UInt8.ofNat c.toNat
  List.replicate (width - digits.length) 0x30 ++ digits

/-- A signed number; the sign is not part of the width. -/
def sprintfInt (width : Nat) (i : Int) : List UInt8 :=
  if i < 0 then 0x2d :: sprintfNum width i.natAbs else sprintfNum width i.natAbs

/-! ### What is logged -/

/-- What the operations read of `ngx_http_request_t`. -/
structure LogRequest where
  pipeline : Bool
  errStatus : UInt64
  /-- `r->headers_out.status` -/
  headersOutStatus : UInt64
  /-- `r->http_version == NGX_HTTP_VERSION_9` -/
  version9 : Bool
  /-- `r->connection->sent` -/
  sent : Int64
  headerSize : UInt64
  requestLength : Int64
  startSec : Int64
  startMsec : UInt64
  requestSid : List UInt8
  requestKey : List UInt8

/-- The cached time. The two strings have a constant length and no quotes. -/
structure LogClock where
  sec : Int64
  msec : UInt64
  logTime : List UInt8
  logIso8601 : List UInt8
  msec_lt : msec.toNat < 1000
  logTime_length : logTime.length = 26
  logIso8601_length : logIso8601.length = 25
  quote_notMem : 0x27 ∉ logTime ∧ 0x27 ∉ logIso8601

/-- `ngx_http_log_msec` -/
def logMsec (now : LogClock) : List UInt8 :=
  sprintfInt 0 now.sec.toInt ++ [0x2e] ++ sprintfNum 3 now.msec.toNat

/-- The milliseconds since the start of the request, at least zero. -/
def elapsedMs (now : LogClock) (r : LogRequest) : Int64 :=
  let ms := (now.sec - r.startSec) * 1000 + (now.msec - r.startMsec).toInt64
  if ms < 0 then 0 else ms

/-- `ngx_http_log_request_time`: the format is `"%d.%03d"`, which takes an `int`
of each argument. -/
def logRequestTime (now : LogClock) (r : LogRequest) : List UInt8 :=
  sprintfInt 0 (elapsedMs now r / 1000).toInt32.toInt ++ [0x2e] ++
    sprintfInt 3 (elapsedMs now r % 1000).toInt32.toInt

/-- `ngx_http_log_status` -/
def logStatus (r : LogRequest) : List UInt8 :=
  let status : UInt64 :=
    if r.errStatus ≠ 0 then r.errStatus
    else if r.headersOutStatus ≠ 0 then r.headersOutStatus
    -- a request line without a version is logged as `009`
    else if r.version9 then 9
    else 0
  sprintfNum 3 status.toNat

/-- `ngx_http_log_body_bytes_sent` -/
def logBodyBytesSent (r : LogRequest) : List UInt8 :=
  let length := r.sent - r.headerSize.toInt64
  if 0 < length then sprintfInt 0 length.toInt else [0x30]

/-- The `run` functions of `ngx_http_log_vars`. -/
def LogVar.run (now : LogClock) (r : LogRequest) : LogVar → List UInt8
  | .pipe => if r.pipeline then [0x70] else [0x2e]
  | .timeLocal => now.logTime
  | .timeIso8601 => now.logIso8601
  | .msec => logMsec now
  | .requestTime => logRequestTime now r
  | .status => logStatus r
  | .bytesSent => sprintfInt 0 r.sent.toInt
  | .bodyBytesSent => logBodyBytesSent r
  | .requestLength => sprintfInt 0 r.requestLength.toInt
  | .requestSid => r.requestSid
  | .requestKey => r.requestKey

/-- `ngx_http_log_copy_short`: the lowest byte first. -/
def logCopyShort : Nat → Nat → List UInt8
  | 0, _ => []
  | len + 1, data => UInt8.ofNat (data % 256) :: logCopyShort len (data / 256)

/-- The table of `ngx_http_log_escape`. -/
def escapeTable : List Nat :=
  [0xffffffff, 0x00000004, 0x10000000, 0x80000000, 0xffffffff, 0xffffffff, 0xffffffff, 0xffffffff]

/-- The byte is escaped. -/
def escaped (c : UInt8) : Bool := (escapeTable.getD (c.toNat / 32) 0).testBit (c.toNat % 32)

/-- A digit of the static `hex` table. -/
def hexDigit (n : Nat) : UInt8 := UInt8.ofNat (if n < 10 then 0x30 + n else 0x41 + (n - 10))

/-- One byte of the second loop of `ngx_http_log_escape`. -/
def escapeByte (c : UInt8) : List UInt8 :=
  if escaped c then [0x5c, 0x78, hexDigit (c.toNat / 16), hexDigit (c.toNat % 16)] else [c]

/-- `ngx_http_log_escape` without a destination: the number of bytes to escape. -/
def escapeCount (src : List UInt8) : Nat := src.countP escaped

/-- `ngx_http_log_escape` -/
def logEscape (src : List UInt8) : List UInt8 := src.flatMap escapeByte

/-! ### Variables -/

section

variable {ρ : Type}

/-- `ngx_http_log_variable_getlen` -/
def variableGetlen (v : VarTable ρ) (c : Vars ρ) (i : Nat) : Nat × Vars ρ :=
  let c := getIndexed v c i
  let s := c.slot i
  if s.notFound then (1, c)
  else
    -- the flag is kept in the slot for the second pass
    let len := escapeCount s.data
    (s.data.length + len * 3, c.set i { s with escape := len ≠ 0 })

/-- `ngx_http_log_variable` -/
def logVariable (v : VarTable ρ) (c : Vars ρ) (i : Nat) : List UInt8 × Vars ρ :=
  let c := getIndexed v c i
  let s := c.slot i
  if s.notFound then ([0x2d], c)
  else if s.escape then (logEscape s.data, c)
  else (s.data, c)

/-! ### The two passes -/

/-- `op->getlen`, which is null for all operations but the variables. -/
def Op.getlen (v : VarTable ρ) (c : Vars ρ) : Op → Option (Nat × Vars ρ)
  | .indexed i => some (variableGetlen v c i)
  | _ => none

/-- `op->run` -/
def Op.run (v : VarTable ρ) (now : LogClock) (r : LogRequest) (c : Vars ρ) :
    Op → List UInt8 × Vars ρ
  | .copyShort len data => (logCopyShort len data, c)
  | .copyLong text => (text, c)
  | .log var => (var.run now r, c)
  | .indexed i => logVariable v c i

/-- The first pass of `ngx_http_log_handler`: the length with the linefeed, or
`none` when a null `getlen` is called. -/
def planLength (v : VarTable ρ) (c : Vars ρ) : List Op → Option (Nat × Vars ρ)
  | [] => some (1, c)
  | op :: ops =>
    -- `if (op[i].len == 0) len += op[i].getlen(r, op[i].data)`
    if op.len = 0 then do
      let (n, c) ← op.getlen v c
      let (len, c) ← planLength v c ops
      return (n + len, c)
    else do
      let (len, c) ← planLength v c ops
      return (op.len + len, c)

/-- The second pass, with the linefeed. -/
def writeLine (v : VarTable ρ) (now : LogClock) (r : LogRequest) (c : Vars ρ) :
    List Op → List UInt8 × Vars ρ
  | [] => ([0x0a], c)
  | op :: ops =>
    let (text, c) := op.run v now r c
    let (line, c) := writeLine v now r c ops
    (text ++ line, c)

/-- Both passes: the length of the buffer, the line written into it, and the variables
afterwards. -/
def logLine (v : VarTable ρ) (now : LogClock) (r : LogRequest) (c : Vars ρ) (ops : List Op) :
    Option (Nat × List UInt8 × Vars ρ) := do
  let (len, c) ← planLength v c ops
  return (len, writeLine v now r c ops)

/-! ### What the two passes find -/

/-- What the first pass adds for a slot. -/
def slotLength (s : VarSlot) : Nat :=
  if s.notFound then 1 else s.data.length + escapeCount s.data * 3

/-- What the second pass writes for a slot. -/
def slotText (s : VarSlot) : List UInt8 :=
  if s.notFound then [0x2d] else if s.escape then logEscape s.data else s.data

/-- The slot as the first pass leaves it. -/
def markSlot (s : VarSlot) : VarSlot :=
  if s.notFound then s else { s with escape := escapeCount s.data ≠ 0 }

/-- The slots that the first pass finds. The second pass is `readVars`. -/
def measured (v : VarTable ρ) : Vars ρ → List Nat → List VarSlot × Vars ρ
  | c, [] => ([], c)
  | c, i :: vars =>
    let c := getIndexed v c i
    let r := measured v (c.set i (markSlot (c.slot i))) vars
    (c.slot i :: r.1, r.2)

/-- The length of the variables, as the first pass finds them. -/
def plannedLength (v : VarTable ρ) (c : Vars ρ) (vars : List Nat) : Nat :=
  ((measured v c vars).1.map slotLength).sum

/-- What the second pass finds, from the variables that the first one has left. -/
def secondPass (v : VarTable ρ) (c : Vars ρ) (vars : List Nat) : List VarSlot :=
  (readVars v (measured v c vars).2 vars).1

/-- The length of the variables, as the second pass writes them. -/
def writtenLength (v : VarTable ρ) (c : Vars ρ) (vars : List Nat) : Nat :=
  ((secondPass v c vars).map fun s => (slotText s).length).sum

/-- What an operation other than a variable writes. -/
def Op.text (now : LogClock) (r : LogRequest) : Op → List UInt8
  | .copyShort len data => logCopyShort len data
  | .copyLong text => text
  | .log v => v.run now r
  | .indexed _ => []

/-- The operations with what each of them writes in the second pass. -/
def writes (v : VarTable ρ) (now : LogClock) (r : LogRequest) :
    Vars ρ → List Op → List (Op × List UInt8)
  | _, [] => []
  | c, op :: ops => (op, (op.run v now r c).1) :: writes v now r (op.run v now r c).2 ops

variable {v : VarTable ρ} {c : Vars ρ}

/-- **The first pass at a variable.** -/
theorem variableGetlen_eq (v : VarTable ρ) (c : Vars ρ) (i : Nat) :
    variableGetlen v c i = (slotLength ((getIndexed v c i).slot i),
      (getIndexed v c i).set i (markSlot ((getIndexed v c i).slot i))) := by
  rw [variableGetlen, slotLength, markSlot]
  split
  · -- a slot without a value stays
    rw [Vars.set, Function.update_eq_self]
  · rfl

/-- **The second pass at a variable.** -/
theorem logVariable_eq (v : VarTable ρ) (c : Vars ρ) (i : Nat) :
    logVariable v c i = (slotText ((getIndexed v c i).slot i), getIndexed v c i) := by
  rw [logVariable, slotText]
  split
  · rfl
  · split <;> rfl

theorem indices_indexed (i : Nat) (ops : List Op) :
    indices (.indexed i :: ops) = i :: indices ops := rfl

theorem indices_cons_of_none {op : Op} (h : op.index = none) (ops : List Op) :
    indices (op :: ops) = indices ops := List.filterMap_cons_none h

/-- What is not a variable writes its text and leaves the variables. -/
theorem Op.run_of_none {op : Op} (h : op.index = none) (v : VarTable ρ) (now : LogClock)
    (r : LogRequest) (c : Vars ρ) : op.run v now r c = (op.text now r, c) := by
  cases op with
  | indexed i => exact absurd h (by simp [Op.index])
  | _ => rfl

theorem Op.eq_indexed_of_ne_none {op : Op} (h : op.index ≠ none) : ∃ i, op = .indexed i := by
  cases op with
  | indexed i => exact ⟨i, rfl⟩
  | _ => exact absurd rfl h

/-- **The first pass**: the declared lengths, and the variables at what it finds. -/
theorem planLength_eq {ops : List Op} (h : ∀ op ∈ ops, op.Sized) (c : Vars ρ) :
    planLength v c ops =
      some ((ops.map Op.len).sum + plannedLength v c (indices ops) + 1,
        (measured v c (indices ops)).2) := by
  -- on the operations, with the variables that the ones before have left
  induction ops generalizing c with
  | nil => rfl
  | cons op ops ih =>
    obtain ⟨hop, hops⟩ := List.forall_mem_cons.mp h
    rw [planLength]
    by_cases hlen : op.len = 0
    · -- a length of zero is that of a variable, whose `getlen` is not null
      obtain ⟨i, rfl⟩ := hop hlen
      rw [if_pos hlen, Op.getlen, variableGetlen_eq, indices_indexed]
      simp only [Option.bind_eq_bind, Option.bind_some, ih hops, plannedLength, measured,
        List.map_cons, List.sum_cons, hlen]
      simp only [Option.pure_def, Option.some.injEq, Prod.mk.injEq, and_true]
      omega
    · have hnone : op.index = none := by
        by_contra hne
        obtain ⟨i, rfl⟩ := Op.eq_indexed_of_ne_none hne
        exact hlen rfl
      rw [if_neg hlen, indices_cons_of_none hnone]
      simp only [Option.bind_eq_bind, Option.bind_some, ih hops, List.map_cons, List.sum_cons]
      simp only [Option.pure_def, Option.some.injEq, Prod.mk.injEq, and_true]
      omega

/-- **The second pass**: what the operations write, one behind the other. -/
theorem writeLine_eq (v : VarTable ρ) (now : LogClock) (r : LogRequest) (c : Vars ρ)
    (ops : List Op) :
    writeLine v now r c ops = ((writes v now r c ops).flatMap Prod.snd ++ [0x0a],
      (readVars v c (indices ops)).2) := by
  induction ops generalizing c with
  | nil => rfl
  | cons op ops ih =>
    rw [writeLine, writes, List.flatMap_cons, List.append_assoc]
    dsimp only
    rw [ih]
    by_cases hnone : op.index = none
    · rw [Op.run_of_none hnone, indices_cons_of_none hnone]
    · obtain ⟨i, rfl⟩ := Op.eq_indexed_of_ne_none hnone
      rw [Op.run, logVariable_eq, indices_indexed, readVars]

/-- **Both passes**, for a compiled format. -/
theorem logLine_eq {ops : List Op} (h : ∀ op ∈ ops, op.Sized) (v : VarTable ρ) (now : LogClock)
    (r : LogRequest) (c : Vars ρ) :
    logLine v now r c ops =
      some ((ops.map Op.len).sum + plannedLength v c (indices ops) + 1,
        (writes v now r (measured v c (indices ops)).2 ops).flatMap Prod.snd ++ [0x0a],
        (readVars v (measured v c (indices ops)).2 (indices ops)).2) := by
  rw [logLine, planLength_eq h]
  simp only [Option.bind_eq_bind, Option.bind_some, writeLine_eq]
  rfl

/-! ### Escaping -/

theorem length_logEscape (src : List UInt8) :
    (logEscape src).length = src.length + escapeCount src * 3 := by
  -- on the bytes; an escaped one takes three more
  induction src with
  | nil => rfl
  | cons c src ih =>
    have hcons : logEscape (c :: src) = escapeByte c ++ logEscape src := List.flatMap_cons
    rw [hcons, List.length_append, ih, escapeByte, escapeCount, escapeCount, List.countP_cons]
    split <;> simp <;> omega

theorem logEscape_of_count_eq_zero {src : List UInt8} (h : escapeCount src = 0) :
    logEscape src = src := by
  induction src with
  | nil => rfl
  | cons c src ih =>
    rw [escapeCount, List.countP_cons] at h
    have hc : escaped c = false := by
      by_contra hc
      simp [hc] at h
    have hcons : logEscape (c :: src) = escapeByte c ++ logEscape src := List.flatMap_cons
    rw [hcons, ih (by unfold escapeCount; omega), escapeByte, hc]
    rfl

/-- A slot that the second pass finds as the first one has left it is written escaped. -/
theorem slotText_markSlot (s : VarSlot) :
    slotText (markSlot s) = if s.notFound then [0x2d] else logEscape s.data := by
  cases hnf : s.notFound with
  | true => simp [slotText, markSlot, hnf]
  | false =>
    -- without the flag the bytes are copied, and there is nothing to escape
    by_cases hn : escapeCount s.data = 0
    · simp [slotText, markSlot, hnf, hn, logEscape_of_count_eq_zero hn]
    · simp [slotText, markSlot, hnf, hn]

/-- It takes what the first pass has added for it. -/
theorem length_slotText_markSlot (s : VarSlot) : (slotText (markSlot s)).length = slotLength s := by
  rw [slotText_markSlot, slotLength]
  split
  · rfl
  · exact length_logEscape s.data

/-! ### Variables that stay -/

theorem filled_markSlot (s : VarSlot) : (markSlot s).filled = s.filled := by
  rw [markSlot]
  split <;> rfl

theorem markSlot_markSlot (s : VarSlot) : markSlot (markSlot s) = markSlot s := by
  cases hnf : s.notFound <;> simp [markSlot, hnf]

/-- **The first pass leaves the variables that it has seen**, when the handlers do. -/
theorem slot_measured (hv : v.Keeps) {j : Nat} (hj : (c.slot j).filled = true)
    (hmark : markSlot (c.slot j) = c.slot j) (vars : List Nat) :
    (measured v c vars).2.slot j = c.slot j := by
  induction vars generalizing c with
  | nil => rfl
  | cons i vars ih =>
    have hslot := hv.slot_getIndexed i hj
    -- marking the slot once more changes nothing
    have hset : ((getIndexed v c i).set i (markSlot ((getIndexed v c i).slot i))).slot j =
        c.slot j := by
      by_cases hji : j = i
      · subst hji
        rw [Vars.set_slot_self, hslot, hmark]
      · rw [Vars.set_slot_of_ne _ _ hji, hslot]
    rw [measured]
    dsimp only
    rw [ih (hset ▸ hj) (by rw [hset, hmark]), hset]

/-- The first pass evaluates its variables. -/
theorem filled_measured (hv : v.Keeps) (c : Vars ρ) (vars : List Nat) :
    (measured v c vars).1.map markSlot = vars.map (measured v c vars).2.slot ∧
      ∀ i ∈ vars, ((measured v c vars).2.slot i).filled = true := by
  induction vars generalizing c with
  | nil => exact ⟨rfl, fun i hi => absurd hi List.not_mem_nil⟩
  | cons i vars ih =>
    have hfilled := hv.filled_getIndexed c i
    let c' := (getIndexed v c i).set i (markSlot ((getIndexed v c i).slot i))
    have hself : c'.slot i = markSlot ((getIndexed v c i).slot i) := Vars.set_slot_self ..
    have hfilled' : (c'.slot i).filled = true := by
      rw [hself, filled_markSlot]
      exact hfilled
    have hstays : (measured v c' vars).2.slot i = c'.slot i :=
      slot_measured hv hfilled' (by rw [hself, markSlot_markSlot]) vars
    obtain ⟨hmap, hall⟩ := ih c'
    refine ⟨?_, List.forall_mem_cons.mpr ⟨?_, hall⟩⟩
    · change markSlot _ :: (measured v c' vars).1.map markSlot =
        (measured v c' vars).2.slot i :: vars.map (measured v c' vars).2.slot
      rw [hmap, hstays, hself]
    · change ((measured v c' vars).2.slot i).filled = true
      rw [hstays]
      exact hfilled'

/-- **With handlers that leave evaluated variables alone** the second pass finds what the
first one has left. -/
theorem secondPass_of_keeps (hv : v.Keeps) (c : Vars ρ) (vars : List Nat) :
    secondPass v c vars = (measured v c vars).1.map markSlot ∧
      (readVars v (measured v c vars).2 vars).2 = (measured v c vars).2 := by
  obtain ⟨hmap, hfilled⟩ := filled_measured hv c vars
  rw [secondPass, readVars_of_filled hfilled, hmap]
  exact ⟨rfl, rfl⟩

/-- Such variables take the length that has been planned for them. -/
theorem writtenLength_of_keeps (hv : v.Keeps) (c : Vars ρ) (vars : List Nat) :
    writtenLength v c vars = plannedLength v c vars := by
  rw [writtenLength, (secondPass_of_keeps hv c vars).1, plannedLength, List.map_map]
  congr 1
  exact List.map_congr_left fun s _ => length_slotText_markSlot s

end

/-! ### Declared widths -/

theorem length_logCopyShort (len data : Nat) : (logCopyShort len data).length = len := by
  induction len generalizing data with
  | zero => rfl
  | succ len ih => rw [logCopyShort, List.length_cons, ih]

/-- A request that has not been answered, with these parameters. -/
def unanswered (sid key : List UInt8) : LogRequest where
  pipeline := false
  errStatus := 0
  headersOutStatus := 0
  version9 := false
  sent := 0
  headerSize := 0
  requestLength := 0
  startSec := 0
  startMsec := 0
  requestSid := sid
  requestKey := key

/-- The start of the clock. -/
def epoch : LogClock where
  sec := 0
  msec := 0
  logTime := ascii "01/Jan/1970:00:00:00 +0000"
  logIso8601 := ascii "1970-01-01T00:00:00+00:00"
  msec_lt := by decide
  logTime_length := by decide
  logIso8601_length := by decide
  quote_notMem := by decide

/-- A request without variables. -/
def noVars : Vars Unit := ⟨fun _ => .unset, ()⟩

/-- No variable is found. -/
def noTable : VarTable Unit := .request (fun _ => none) fun _ => false

/-- `$uri` with this value, and a `map` of it to a constant. -/
def mapTable (uri : List UInt8) : VarTable Unit where
  getHandler i :=
    let request : VarTable Unit := .request (fun _ => some uri) (· = 0)
    if i = 1 then mapVariable request ⟨[0], fun _ => .inl ⟨ascii "x", true, false, false, false⟩⟩ 1
    else request.getHandler i
  noCacheable := (· = 0)

-- the path was cached before it has been changed, and the `map` evaluates it between the passes
example : (logLine (mapTable (ascii "/a/b")) epoch (unanswered [] [])
      ⟨fun i => if i = 0 then ⟨ascii "/a", true, true, false, false⟩ else .unset, ()⟩
      [.indexed 0, .indexed 1]).map (fun line => (line.1, line.2.1)) =
    some (4, ascii "/a/bx\n") := by decide +kernel

end HttpLog
