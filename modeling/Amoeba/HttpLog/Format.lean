import Amoeba.CString.Basic

/-!
# Log formats

`ngx_http_log_compile_format` turns the arguments of `log_format` and
`dblog_format` into an array of operations. Static text becomes a copy
operation, packed into a machine word when it has at most eight bytes; the
names of `ngx_http_log_vars` become operations with a declared length; every
other name becomes a variable, whose length is asked for at run time.
-/

namespace HttpLog

open CString

/-! ### Operations -/

/-- The entries of `ngx_http_log_vars`. -/
inductive LogVar where
  | pipe
  | timeLocal
  | timeIso8601
  | msec
  | requestTime
  | status
  | bytesSent
  | bodyBytesSent
  | requestLength
  | requestSid
  | requestKey
  deriving DecidableEq, Repr

/-- The entry's `name`. -/
def LogVar.name : LogVar → List UInt8
  | .pipe => ascii "pipe"
  | .timeLocal => ascii "time_local"
  | .timeIso8601 => ascii "time_iso8601"
  | .msec => ascii "msec"
  | .requestTime => ascii "request_time"
  | .status => ascii "status"
  | .bytesSent => ascii "bytes_sent"
  | .bodyBytesSent => ascii "body_bytes_sent"
  | .requestLength => ascii "request_length"
  | .requestSid => ascii "request_sid"
  | .requestKey => ascii "request_key"

/-- The entry's `len`, for 64-bit types. -/
def LogVar.len : LogVar → Nat
  | .pipe => 1
  | .timeLocal => 26
  | .timeIso8601 => 25
  | .msec => 20 + 4
  | .requestTime => 20 + 4
  | .status => 20
  | .bytesSent => 20
  | .bodyBytesSent => 20
  | .requestLength => 20
  | .requestSid => 6
  | .requestKey => 32

/-- `ngx_http_log_vars` -/
def logVars : List LogVar :=
  [.pipe, .timeLocal, .timeIso8601, .msec, .requestTime, .status, .bytesSent, .bodyBytesSent,
    .requestLength, .requestSid, .requestKey]

/-- `ngx_http_log_op_t`, by its `run` function. -/
inductive Op where
  /-- `ngx_http_log_copy_short`: `len` bytes packed into `data`. -/
  | copyShort (len data : Nat)
  /-- `ngx_http_log_copy_long` -/
  | copyLong (text : List UInt8)
  /-- An entry of `ngx_http_log_vars`. -/
  | log (v : LogVar)
  /-- `ngx_http_log_variable`, with the index of the variable. -/
  | indexed (index : Nat)
  deriving DecidableEq, Repr

/-- `op->len` -/
def Op.len : Op → Nat
  | .copyShort len _ => len
  | .copyLong text => text.length
  | .log v => v.len
  | .indexed _ => 0

/-- The variable of an operation. -/
def Op.index : Op → Option Nat
  | .indexed i => some i
  | _ => none

/-- The indices of the variables among the operations, in order. -/
def indices (ops : List Op) : List Nat := ops.filterMap Op.index

/-! ### Compiling a format -/

/-- Why `ngx_http_log_compile_format` fails. -/
inductive CompileError where
  /-- `invalid parameter "…"`, with the argument from the `'$'` on. -/
  | invalidParameter (data : List UInt8)
  /-- `the closing bracket in "…" variable is missing`, with the name. -/
  | closingBracket (var : List UInt8)
  /-- `ngx_http_get_variable_index` has failed for this name. -/
  | unknownVariable (var : List UInt8)
  deriving DecidableEq, Repr

/-- `'$'` -/
def dollar : UInt8 := 0x24

/-- The bytes of a variable name. -/
def isNameChar (c : UInt8) : Bool :=
  (0x41 ≤ c ∧ c ≤ 0x5a) ∨ (0x61 ≤ c ∧ c ≤ 0x7a) ∨ (0x30 ≤ c ∧ c ≤ 0x39) ∨ c = 0x5f

/-- The name behind a `'$'`, possibly in braces, and what follows it. The
argument from the `'$'` on is `data`, and `rest` stands behind the `'$'`. -/
def variableName (data : List UInt8) : List UInt8 → Except CompileError (List UInt8 × List UInt8)
  | [] => .error (.invalidParameter data)
  | c :: rest =>
    -- `'{'`: the name ends at the brace, and one that is missing is an error of its own
    if c = 0x7b then
      if rest = [] then .error (.invalidParameter data)
      else
        let var := rest.takeWhile isNameChar
        match rest.dropWhile isNameChar with
        | [] => .error (.closingBracket var)
        | c :: rest =>
          if c = 0x7d then
            if var = [] then .error (.invalidParameter data) else .ok (var, rest)
          else .error (.closingBracket var)
    else
      -- without braces the name ends at the first other byte
      let var := (c :: rest).takeWhile isNameChar
      if var = [] then .error (.invalidParameter data)
      else .ok (var, (c :: rest).dropWhile isNameChar)

/-- The bytes of a short text in one word, the first byte lowest. -/
def packShort (text : List UInt8) : Nat := text.foldr (fun c data => data * 256 + c.toNat) 0

/-- The operation for static text. -/
def copyOp (text : List UInt8) : Op :=
  if text.length ≤ 8 then .copyShort text.length (packShort text) else .copyLong text

/-- The operation for a name: the first entry of `ngx_http_log_vars` with this
name, or else the indexed variable. -/
def variableOp (index : List UInt8 → Option Nat) (var : List UInt8) : Except CompileError Op :=
  match logVars.find? (·.name = var) with
  | some v => .ok (.log v)
  | none =>
    match index var with
    | some i => .ok (.indexed i)
    | none => .error (.unknownVariable var)

/-- The inner loop of `ngx_http_log_compile_format`, over one argument. Every
round consumes a byte, so that the length of the argument is enough fuel. -/
def compileValue (index : List UInt8 → Option Nat) :
    Nat → List UInt8 → Except CompileError (List Op)
  | 0, _ => .ok []
  | _ + 1, [] => .ok []
  | fuel + 1, c :: rest =>
    if c = dollar then do
      let (var, rest') ← variableName (c :: rest) rest
      let op ← variableOp index var
      let ops ← compileValue index fuel rest'
      return op :: ops
    else do
      -- static text runs up to the next `'$'`
      let ops ← compileValue index fuel (rest.dropWhile (· ≠ dollar))
      return copyOp (c :: rest.takeWhile (· ≠ dollar)) :: ops

/-- `ngx_http_log_compile_format`: the operations of all arguments. The indices
of variables come from `ngx_http_get_variable_index`. -/
def compileFormat (index : List UInt8 → Option Nat) :
    List (List UInt8) → Except CompileError (List Op)
  | [] => .ok []
  | value :: args => do
    let ops ← compileValue index value.length value
    let more ← compileFormat index args
    return ops ++ more

/-- `ngx_http_combined_sql`, the default of `dblog_format`. -/
def combinedSql : List UInt8 :=
  ascii "INSERT INTO fmap_accesslog_t(remoteaddr, timestamp, uri, sid, httpstatus, key,costtime)" ++
  ascii " VALUES('$remote_addr',TO_TIMESTAMP_TZ('$time_local', 'dd/mon/yyyy:hh24:mi:ss tzhtzm'," ++
  ascii " 'NLS_DATE_LANGUAGE = AMERICAN'), '$uri', '$request_sid', $status , '$request_key'," ++
  ascii "'$request_time')"

/-! ### Compiled formats -/

theorem bind_eq_ok {ε α β : Type} {x : Except ε α} {f : α → Except ε β} {b : β} :
    x >>= f = .ok b ↔ ∃ a, x = .ok a ∧ f a = .ok b := by
  cases x with
  | error e => simp [bind, Except.bind]
  | ok a => simp [bind, Except.bind]

/-- Only variables have no declared length. -/
def Op.Sized (op : Op) : Prop := op.len = 0 → ∃ i, op = .indexed i

theorem LogVar.len_pos (v : LogVar) : 0 < v.len := by
  cases v <;> decide

theorem copyOp_sized {text : List UInt8} (h : text ≠ []) : (copyOp text).Sized := by
  intro hlen
  have hpos := List.length_pos_of_ne_nil h
  unfold copyOp at hlen
  split at hlen <;> simp only [Op.len] at hlen <;> omega

theorem variableOp_sized {index : List UInt8 → Option Nat} {var : List UInt8} {op : Op}
    (h : variableOp index var = .ok op) : op.Sized := by
  intro hlen
  unfold variableOp at h
  split at h
  · next v _ =>
    obtain rfl : Op.log v = op := Except.ok.inj h
    -- the entries of the table all declare a length
    exact absurd hlen v.len_pos.ne'
  · split at h
    · next i _ => exact ⟨i, (Except.ok.inj h).symm⟩
    · exact absurd h (by simp)

/-- What follows a name is part of what it was found in. -/
theorem variableName_length {data rest var rest' : List UInt8}
    (h : variableName data rest = .ok (var, rest')) : rest'.length ≤ rest.length := by
  unfold variableName at h
  split at h
  · exact absurd h (by simp)
  next c rest =>
    split at h
    · split at h
      · exact absurd h (by simp)
      · dsimp only at h
        split at h
        · exact absurd h (by simp)
        next d tail htail =>
          -- the braces and the name stand in front of what is left
          have hlen := (List.dropWhile_suffix (l := rest) isNameChar).length_le
          rw [htail, List.length_cons] at hlen
          split at h
          · split at h
            · exact absurd h (by simp)
            · obtain ⟨-, rfl⟩ := Prod.mk.inj (Except.ok.inj h)
              rw [List.length_cons]
              omega
          · exact absurd h (by simp)
    · dsimp only at h
      split at h
      · exact absurd h (by simp)
      · obtain ⟨-, rfl⟩ := Prod.mk.inj (Except.ok.inj h)
        exact (List.dropWhile_suffix _).length_le

/-- **The fuel is enough**: any two amounts from the length of the argument on
compile it alike. -/
theorem compileValue_fuel {index : List UInt8 → Option Nat} {fuel fuel' : Nat} {value : List UInt8}
    (h : value.length ≤ fuel) (h' : value.length ≤ fuel') :
    compileValue index fuel value = compileValue index fuel' value := by
  -- on the first amount; each round leaves a shorter argument
  induction fuel generalizing fuel' value with
  | zero =>
    obtain rfl : value = [] := List.length_eq_zero_iff.mp (Nat.le_zero.mp h)
    cases fuel' <;> rfl
  | succ fuel ih =>
    cases value with
    | nil => cases fuel' <;> rfl
    | cons c rest =>
      cases fuel' with
      | zero => exact absurd h' (by simp)
      | succ fuel' =>
        rw [List.length_cons] at h h'
        rw [compileValue, compileValue]
        split
        · cases hname : variableName (c :: rest) rest with
          | error e => rfl
          | ok p =>
            obtain ⟨var, rest'⟩ := p
            have hle := variableName_length hname
            simp only [bind, Except.bind, ih (show rest'.length ≤ fuel by omega)
              (show rest'.length ≤ fuel' by omega)]
        · have hle := (List.dropWhile_suffix (l := rest) (· ≠ dollar)).length_le
          rw [ih (hle.trans (Nat.le_of_succ_le_succ h)) (hle.trans (Nat.le_of_succ_le_succ h'))]

/-- **Every operation of a compiled argument is sized.** -/
theorem compileValue_sized {index : List UInt8 → Option Nat} {fuel : Nat} {value : List UInt8}
    {ops : List Op} (h : compileValue index fuel value = .ok ops) : ∀ op ∈ ops, op.Sized := by
  -- on the rounds; the operation of this one comes first
  induction fuel generalizing value ops with
  | zero =>
    obtain rfl : [] = ops := Except.ok.inj h
    simp
  | succ fuel ih =>
    cases value with
    | nil =>
      obtain rfl : [] = ops := Except.ok.inj h
      simp
    | cons c rest =>
      rw [compileValue] at h
      split at h
      · obtain ⟨⟨var, rest'⟩, -, h⟩ := bind_eq_ok.mp h
        obtain ⟨op, hop, h⟩ := bind_eq_ok.mp h
        obtain ⟨more, hmore, h⟩ := bind_eq_ok.mp h
        obtain rfl : op :: more = ops := Except.ok.inj h
        exact List.forall_mem_cons.mpr ⟨variableOp_sized hop, ih hmore⟩
      · obtain ⟨more, hmore, h⟩ := bind_eq_ok.mp h
        obtain rfl : copyOp _ :: more = ops := Except.ok.inj h
        exact List.forall_mem_cons.mpr ⟨copyOp_sized (by simp), ih hmore⟩

/-- **Every operation of a compiled format is sized**, so that the handler never
calls a null `getlen`. -/
theorem compileFormat_sized {index : List UInt8 → Option Nat} {args : List (List UInt8)}
    {ops : List Op} (h : compileFormat index args = .ok ops) : ∀ op ∈ ops, op.Sized := by
  induction args generalizing ops with
  | nil =>
    obtain rfl : [] = ops := Except.ok.inj h
    simp
  | cons value args ih =>
    obtain ⟨first, hfirst, h⟩ := bind_eq_ok.mp h
    obtain ⟨more, hmore, h⟩ := bind_eq_ok.mp h
    obtain rfl : first ++ more = ops := Except.ok.inj h
    exact List.forall_mem_append.mpr ⟨compileValue_sized hfirst, ih hmore⟩

end HttpLog
