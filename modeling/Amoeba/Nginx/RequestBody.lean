import Mathlib

/-!
# Reading the request body

`ngx_http_read_client_request_body` and `ngx_http_do_read_client_request_body`,
as far as a caller can see them that goes on synchronously: what the first
buffer of `r->request_body->bufs` holds when the call returns. Allocations and
writes to the temporary file succeed.

Only lengths decide about that: how much of the body stands in the header
buffer already (`preread`), how much room that buffer has, the configured
buffer size, and what successive calls of `recv` answer. `View` is the part of
the body in the first buffer. A body that was not fully available is not an
error: the function returns `NGX_AGAIN` and goes on later, on an event.
-/

namespace Nginx

/-- The settings of the location that decide how a body is stored. -/
structure BodyConf where
  /-- `clcf->client_body_buffer_size` -/
  clientBodyBufferSize : Nat
  /-- `r->request_body_in_file_only` -/
  inFileOnly : Bool
  /-- `r->request_body_in_single_buf` -/
  inSingleBuf : Bool
  deriving DecidableEq, Repr

/-- An answer of `c->recv`. -/
inductive Recv where
  /-- `NGX_AGAIN`: nothing is available yet. -/
  | again
  /-- `0` or `NGX_ERROR`: the connection is closed or broken. -/
  | closed
  /-- `n + 1` bytes are available, or as many as were asked for; `ready` is
  `c->read->ready` afterwards. -/
  | data (n : Nat) (ready : Bool)
  deriving DecidableEq, Repr

/-- How a body reaches the server. -/
structure Delivery where
  /-- `r->header_in->last - r->header_in->pos` -/
  preread : Nat
  /-- The answers of `c->recv`; when they run out nothing more is available. -/
  recvs : List Recv
  deriving DecidableEq, Repr

/-- What `ngx_http_read_client_request_body` leaves behind. -/
inductive View where
  /-- It has returned `NGX_HTTP_BAD_REQUEST`. -/
  | refused
  /-- There is no buffer in `r->request_body->bufs`. -/
  | absent
  /-- The first buffer is a file buffer. -/
  | file
  /-- The first buffer holds `len` bytes of the body from the offset `off` on. -/
  | chunk (off len : Nat)
  deriving DecidableEq, Repr

/-- The buffer `rb->buf` while it is being filled. -/
structure Reader where
  /-- The offset in the body of the first byte in the buffer. -/
  off : Nat
  /-- `rb->buf->last - rb->buf->start` -/
  len : Nat
  /-- `rb->buf->end - rb->buf->start` -/
  cap : Nat
  /-- `rb->rest` -/
  rest : Nat
  /-- `rb->temp_file` is set. -/
  tempFile : Bool
  deriving DecidableEq, Repr

/-- How `ngx_http_do_read_client_request_body` returns. -/
inductive ReadEnd where
  | again
  | badRequest
  | ok
  deriving DecidableEq, Repr

/-- A full buffer is written to the temporary file and used again. -/
def Reader.flush (s : Reader) : Reader :=
  if s.len = s.cap then { s with off := s.off + s.len, len := 0, tempFile := true } else s

/-- `n` more bytes stand in the buffer. -/
def Reader.fill (s : Reader) (n : Nat) : Reader :=
  { s with len := s.len + n, rest := s.rest - n }

/-- The loops of `ngx_http_do_read_client_request_body`: how it returns, and the
buffer then. -/
def Reader.read (s : Reader) : List Recv → ReadEnd × Reader
  | [] => (.again, s.flush)
  | .again :: _ => (.again, s.flush)
  | .closed :: _ => (.badRequest, s.flush)
  | .data n ready :: more =>
    let n := min (n + 1) (min (s.flush.cap - s.flush.len) s.flush.rest)
    -- asked for no bytes, `recv` answers like a closed connection
    if n = 0 then (.badRequest, s.flush)
    else
      let s := s.flush.fill n
      if s.rest = 0 then (.ok, s)
      else if s.len < s.cap ∧ ¬ ready then (.again, s)
      else s.read more

/-- What stands in `rb->buf` when reading has ended so. -/
def Reader.view (s : Reader) (inFileOnly : Bool) : ReadEnd → View
  | .badRequest => .refused
  | .again => .chunk s.off s.len
  -- a body that went through the file is handed over as a file buffer
  | .ok => if s.tempFile ∨ inFileOnly then .file else .chunk s.off s.len

/-- The preread part is copied into the new buffer. -/
def BodyConf.copies (c : BodyConf) (rest preread : Nat) : Prop :=
  0 < preread ∧ rest < c.clientBodyBufferSize + c.clientBodyBufferSize / 4 ∧ c.inSingleBuf

instance (c : BodyConf) (rest preread : Nat) : Decidable (c.copies rest preread) :=
  inferInstanceAs (Decidable (_ ∧ _))

/-- The buffer that `ngx_create_temp_buf` allocates for the rest of a body. -/
def BodyConf.newBuffer (c : BodyConf) (rest preread : Nat) : Reader :=
  let cap :=
    -- a body up to a quarter larger than the buffer gets a buffer of its own size
    if rest < c.clientBodyBufferSize + c.clientBodyBufferSize / 4 then
      rest + if c.inSingleBuf then preread else 0
    else c.clientBodyBufferSize
  if c.copies rest preread then
    { off := 0, len := preread, cap := cap, rest := rest, tempFile := false }
  else { off := preread, len := 0, cap := cap, rest := rest, tempFile := false }

/-- The body does not fit behind the headers: it is read into a buffer of its
own, which follows the preread part in the chain unless that part is copied or
empty. -/
def readIntoNewBuffer (c : BodyConf) (contentLength : Nat) (d : Delivery) : View :=
  let rest := contentLength - d.preread
  let (stop, s) := (c.newBuffer rest d.preread).read d.recvs
  if stop = .badRequest ∨ c.copies rest d.preread ∨ d.preread = 0 ∨
      (stop = .ok ∧ (c.inFileOnly ∨ c.inSingleBuf)) then
    s.view c.inFileOnly stop
  else .chunk 0 d.preread

/-- `ngx_http_read_client_request_body`: the first buffer when it returns, for a
header buffer with `space` bytes behind the headers. -/
def readClientRequestBody (c : BodyConf) (space contentLength : Nat) (d : Delivery) : View :=
  if contentLength = 0 then .absent
  else if 0 < d.preread then
    -- all of it came with the headers
    if contentLength ≤ d.preread then .chunk 0 contentLength
    else if contentLength - d.preread ≤ space - d.preread then
      -- the rest fits behind what came with the headers
      let start : Reader :=
        { off := 0, len := d.preread, cap := space, rest := contentLength - d.preread
          tempFile := false }
      let (stop, s) := start.read d.recvs
      s.view c.inFileOnly stop
    else readIntoNewBuffer c contentLength d
  else readIntoNewBuffer c contentLength d

/-! ### The buffer holds a part of the body -/

/-- The end of the buffered part: what precedes it has been received. -/
def Reader.total (s : Reader) : Nat := s.off + s.len + s.rest

theorem Reader.flush_total (s : Reader) : s.flush.total = s.total := by
  unfold Reader.flush Reader.total
  split
  · dsimp only
    omega
  · rfl

theorem Reader.fill_total {s : Reader} {n : Nat} (h : n ≤ s.rest) :
    (s.fill n).total = s.total := by
  unfold Reader.fill Reader.total
  dsimp only
  omega

/-- **Every round of the loops keeps the total** of what has been received and
what is still missing. -/
theorem Reader.read_total (s : Reader) (recvs : List Recv) : (s.read recvs).2.total = s.total := by
  -- on the answers of `recv`
  induction recvs generalizing s with
  | nil => exact s.flush_total
  | cons e more ih =>
    cases e with
    | again => exact s.flush_total
    | closed => exact s.flush_total
    | data n ready =>
      -- at most the missing bytes are taken, whatever was flushed before
      have hfill : (s.flush.fill
          (min (n + 1) (min (s.flush.cap - s.flush.len) s.flush.rest))).total = s.total := by
        rw [Reader.fill_total (by omega), Reader.flush_total]
      rw [Reader.read]
      dsimp only
      split
      · exact s.flush_total
      · split
        · exact hfill
        · split
          · exact hfill
          · rw [ih, hfill]

/-- A buffer that makes up the body together with the rest shows a part of it. -/
theorem Reader.view_le {s : Reader} {inFileOnly : Bool} {stop : ReadEnd} {off len : Nat}
    (h : s.view inFileOnly stop = .chunk off len) : off + len ≤ s.total := by
  -- the rest only adds to the total
  have hchunk : View.chunk s.off s.len = .chunk off len → off + len ≤ s.total := by
    rintro ⟨⟩
    exact Nat.le_add_right _ _
  cases stop with
  | badRequest => exact absurd h (by simp [Reader.view])
  | again => exact hchunk h
  | ok =>
    rw [Reader.view] at h
    split at h
    · exact absurd h (by simp)
    · exact hchunk h

theorem BodyConf.newBuffer_total {c : BodyConf} {rest preread : Nat} :
    (c.newBuffer rest preread).total = preread + rest := by
  unfold BodyConf.newBuffer Reader.total
  dsimp only
  split
  · dsimp only
    omega
  · rfl

theorem readIntoNewBuffer_le {c : BodyConf} {n : Nat} {d : Delivery} {off len : Nat}
    (hle : d.preread ≤ n) (h : readIntoNewBuffer c n d = .chunk off len) : off + len ≤ n := by
  unfold readIntoNewBuffer at h
  dsimp only at h
  split at h
  · refine (Reader.view_le h).trans ?_
    rw [Reader.read_total, BodyConf.newBuffer_total]
    omega
  · cases h
    omega

/-- **What the first buffer holds lies inside the body.** -/
theorem readClientRequestBody_le {c : BodyConf} {space n : Nat} {d : Delivery} {off len : Nat}
    (h : readClientRequestBody c space n d = .chunk off len) : off + len ≤ n := by
  unfold readClientRequestBody at h
  split at h
  · exact absurd h (by simp)
  split at h
  · split at h
    · cases h
      omega
    · split at h
      · refine (Reader.view_le h).trans ?_
        rw [Reader.read_total]
        unfold Reader.total
        dsimp only
        omega
      · exact readIntoNewBuffer_le (by omega) h
  · exact readIntoNewBuffer_le (by omega) h

end Nginx
