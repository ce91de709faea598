import Amoeba.AccessControl.KeyTable

/-!
# The authorization checks of the handler

One round of the zone loop of `ngx_http_access_control_handler`, up to the
call of the limiter: the path, the `sid` and the `key` are cut out of the
request, each is compared with one of the zone's three arrays, and the quota
of the matching `KEY ++ SID` becomes the rate handed to the limiter.

A request is the memory it lives in. The handler holds pointers into that
memory, it searches for the parameter names up to the next NUL, and it
computes lengths by pointer subtraction in a `size_t`; all three are kept as
they are. Bytes that the code reads past a buffer it allocated itself are the
field `spill`.

GET and POST run the same statements on different data: a GET request is
searched from `r->uri.data` to `r->uri_end`, a POST request in the first
buffer of its body. `checkWindow` is that common part.
-/

namespace AccessControl

open CString Nginx

/-! ### Requests -/

/-- `r->method`, as far as the handler distinguishes it. -/
inductive Method where
  | get
  | post
  | other
  deriving DecidableEq, Repr

/-- `ngx_str_t`: a pointer and a length. -/
structure NgxStr where
  data : Nat
  len : Nat
  deriving DecidableEq, Repr

/-- What `ngx_http_read_client_request_body` leaves for the handler. -/
inductive Body where
  /-- The call returned a status of `300` or more. -/
  | special (rc : Nat)
  /-- `r->request_body` is null. -/
  | absent
  /-- `r->request_body->bufs` or its buffer is null. -/
  | empty
  /-- The first buffer of the chain is a file buffer, whose `pos` is null. -/
  | file
  /-- The first buffer of the chain is a memory buffer. -/
  | buffer (pos last : Nat)
  deriving DecidableEq, Repr

/-- A request as the handler finds it. -/
structure Request where
  /-- `r->main->access_control_set`. -/
  accessControlSet : Bool
  method : Method
  /-- The memory that holds the request; a pointer is an index into it. -/
  mem : List UInt8
  /-- `r->uri`: the decoded path. -/
  uriData : Nat
  uriLen : Nat
  /-- The undecoded request target is `[r->uri_start, r->uri_end)`. -/
  uriStart : Nat
  uriEnd : Nat
  body : Body
  /-- The bytes behind the block allocated for the hash key. -/
  spill : List UInt8
  mem_lt : mem.length < 2 ^ 63
  uri_le : uriStart ≤ uriEnd
  uriEnd_le : uriEnd ≤ mem.length
  uriData_le : uriData + (uriEnd - uriStart) ≤ mem.length
  uriLen_le : uriData + uriLen ≤ mem.length
  body_le : ∀ pos last, body = .buffer pos last → pos ≤ last ∧ last ≤ mem.length

/-- The bytes of a string of the request. -/
def Request.bytes (r : Request) (s : NgxStr) : List UInt8 := (r.mem.drop s.data).take s.len

/-- A string that points at these bytes. -/
theorem Request.bytes_of_prefix {r : Request} {s : NgxStr} {W : List UInt8}
    (h : W <+: r.mem.drop s.data) (hlen : s.len = W.length) : r.bytes s = W := by
  rw [Request.bytes, hlen]
  exact (List.prefix_iff_eq_take.mp h).symm

/-- A plain request target is not copied: `r->uri.data` is `r->uri_start`. -/
def Request.Plain (r : Request) : Prop := r.uriData = r.uriStart

/-! ### Cutting out the parameters -/

/-- The `'&'` that ends a parameter. -/
def amp : UInt8 := 0x26

/-- The `'?'` that ends the path. -/
def question : UInt8 := 0x3f

/-- `"sid="` -/
def sidName : List UInt8 := [0x73, 0x69, 0x64, 0x3d]

/-- `"&sid="` -/
def ampSidName : List UInt8 := [0x26, 0x73, 0x69, 0x64, 0x3d]

/-- `"key="` -/
def keyName : List UInt8 := [0x6b, 0x65, 0x79, 0x3d]

/-- `"&key="` -/
def ampKeyName : List UInt8 := [0x26, 0x6b, 0x65, 0x79, 0x3d]

/-- The common shape of the extraction branches: find the name from `start` on,
take the value from `skip` bytes after it, and end it at the first `'&'` found
from `off` bytes after it, or at `last`. -/
def cutParam (name : List UInt8) (n skip off : Nat) (mem : List UInt8) (start last : Nat) :
    Option NgxStr :=
  (ngxStrcasestrn (mem.drop start) name n).map fun k =>
    { data := start + k + skip
      len := sizeSub ((ngxStrlchr mem (start + k + off) last amp).getD last) (start + k + skip) }

/-- The `sid` parameter: `"sid="`, or else `"&sid="`. -/
def sidParam (mem : List UInt8) (start last : Nat) : Option NgxStr :=
  (cutParam sidName 3 4 0 mem start last).or (cutParam ampSidName 4 5 1 mem start last)

/-- The `key` parameter: `"&key="`, or else `"key="`. -/
def keyParam (mem : List UInt8) (start last : Nat) : Option NgxStr :=
  (cutParam ampKeyName 4 5 1 mem start last).or (cutParam keyName 3 4 0 mem start last)

/-! ### Comparing with the arrays -/

/-- Some stored `URI ++ SID` starts with the path and then the sid. -/
def urisidKnown (t : Table) (mem : List UInt8) (uri sid : NgxStr) : Bool :=
  t.urisidarray.any fun e =>
    strncmp e (mem.drop uri.data) uri.len = 0 ∧
      strncmp (e.drop uri.len) (mem.drop sid.data) sid.len = 0

/-- A stored string compares equal over its own length and over the other's. -/
def bothWays (e other : List UInt8) (len : Nat) : Bool :=
  strncmp e other e.length = 0 ∧ strncmp e other len = 0

/-- Some stored key compares equal both ways. -/
def keyKnown (t : Table) (mem : List UInt8) (key : NgxStr) : Bool :=
  t.keyarray.any fun e => bothWays e (mem.drop key.data) key.len

/-- `NGX_MAX_TPS_MS` -/
def ngxMaxTpsMs : Nat := 100000 * 1000

/-- `maxtps` for a positive hourly quota `fm`, in thousandths of a request per
second. -/
def maxtpsOf (fm : Int) : Nat :=
  if fm ≤ 3600 then 1000
  else
    -- the hourly quota is rounded up to whole requests per second
    let maxtps := ((fm / 3600).toNat + 1) * 1000
    if maxtps < ngxMaxTpsMs then maxtps else ngxMaxTpsMs

/-- The arguments of the call of the limiter. -/
structure Grant where
  uri : NgxStr
  sid : NgxStr
  key : NgxStr
  hashkey : List UInt8
  hash : Nat
  maxtps : Nat
  deriving DecidableEq, Repr

/-- How a round of the checks ends. -/
inductive Verdict where
  /-- The handler returns this status. -/
  | status (code : Nat)
  /-- The worker accesses memory it does not own. -/
  | fault
  /-- The checks pass and the limiter is called. -/
  | grant (g : Grant)
  deriving DecidableEq, Repr

/-- The hash key is assembled and looked up in `hashkeyarray`. A length that
wrapped makes the copy run out of the address space. -/
def charge (t : Table) (r : Request) (uri sid key : NgxStr) : Verdict :=
  if 2 ^ 63 ≤ key.len ∨ 2 ^ 63 ≤ sid.len then .fault
  else
    -- the key first, then the `sid`, as the load joins the columns
    let hashkey := r.bytes key ++ r.bytes sid
    match t.hashkeyarray.find? fun h => bothWays h.key (hashkey ++ r.spill) hashkey.length with
    | none => .status 403
    | some h =>
      if h.value ≤ 0 then .status 403
      else .grant
        { uri := uri, sid := sid, key := key, hashkey := hashkey
          hash := h.keyHash % 2 ^ 32, maxtps := maxtpsOf h.value }

/-- A round of the checks: what it stored in `r->request_sid` and
`r->request_key`, and how it ended. -/
structure Checked where
  requestSid : Option NgxStr
  requestKey : Option NgxStr
  verdict : Verdict
  deriving DecidableEq, Repr

/-- The checks on the data from `start` to `last`, for the path `uri`. -/
def checkWindow (t : Table) (r : Request) (uri : NgxStr) (start last : Nat) : Checked :=
  match sidParam r.mem start last with
  -- no `sid`: `NGX_HTTP_BAD_REQUEST` before anything is stored
  | none => ⟨none, none, .status 400⟩
  | some sid =>
    -- `r->request_sid` is set before the comparison, `r->request_key` only after it
    if urisidKnown t r.mem uri sid then
      match keyParam r.mem start last with
      | none => ⟨some sid, none, .status 401⟩
      | some key =>
        if keyKnown t r.mem key then ⟨some sid, some key, charge t r uri sid key⟩
        else ⟨some sid, some key, .status 401⟩
    else ⟨some sid, none, .status 400⟩

/-- The path of a POST request: the undecoded length when the target has a
`'?'`, the decoded one otherwise. -/
def postUri (r : Request) : NgxStr :=
  match ngxStrlchr r.mem r.uriStart r.uriEnd question with
  | some e => ⟨r.uriData, e - r.uriStart⟩
  | none => ⟨r.uriData, r.uriLen⟩

/-- One round of the zone loop of `ngx_http_access_control_handler`, up to the
call of the limiter. -/
def check (t : Table) (r : Request) : Checked :=
  -- the root path is refused before the method is looked at
  if r.uriLen ≤ 1 then ⟨none, none, .status 400⟩
  else
    match r.method with
    | .post =>
      match r.body with
      | .special rc => ⟨none, none, .status rc⟩
      | .absent => ⟨none, none, .status 500⟩
      | .empty => ⟨none, none, .status 400⟩
      -- the search starts at the null `pos`
      | .file => ⟨none, none, .fault⟩
      | .buffer pos last => checkWindow t r (postUri r) pos last
    | .get =>
      match ngxStrlchr r.mem r.uriStart r.uriEnd question with
      -- a GET request without arguments is `NGX_HTTP_NOT_FOUND`
      | none => ⟨none, none, .status 404⟩
      | some e => checkWindow t r ⟨r.uriData, e - r.uriStart⟩ r.uriData r.uriEnd
    | .other => ⟨none, none, .status 405⟩

end AccessControl
