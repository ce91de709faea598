import Amoeba.AccessControl.Authorize

/-!
# The rate limiter of a zone

`ngx_http_access_control_lookup`, `ngx_http_access_control_account` and
`ngx_http_access_control_expire` on the shared state of one zone. The state is
the queue of the zone's nodes, most recently used first. The search tree holds
the same nodes, and a search in it ends at a node with the searched key; which
one, when several nodes have that key, depends on the shape of the tree and is
an input of the call (`Query.meets`).

The arithmetic of the three functions mixes signed and unsigned machine words.
It is a parameter: `Arith.exact` computes with unbounded integers,
`Arith.word w` as the code does on a machine with `w`-bit words.

A node is identified by the order in which it was allocated, so that a pointer
to a node that has been freed points to nothing. What the slab allocator
answers and what the clock reads are inputs of the call.
-/

namespace AccessControl

open Nginx

/-! ### Arithmetic -/

/-- The integers the limiter computes with. -/
inductive Arith where
  /-- Unbounded integers. -/
  | exact
  /-- Machine words of `w` bits: `ngx_uint_t`, `size_t` and `ngx_msec_t`. -/
  | word (w : Nat)
  deriving DecidableEq, Repr

namespace Arith

/-- The value of an unsigned expression. -/
def unsigned : Arith → Int → Int
  | exact, x => x
  | word w, x => x % 2 ^ w

/-- The value of an expression stored in a signed word. -/
def signed : Arith → Int → Int
  | exact, x => x
  | word w, x => x.bmod (2 ^ w)

/-- `ngx_abs`: negation can wrap. -/
def abs (A : Arith) (x : Int) : Int := if 0 ≤ x then x else A.signed (-x)

/-- A clock reading stored in an `ngx_msec_t`. -/
def clock (A : Arith) (now : Nat) : Nat := (A.unsigned now).toNat

/-- `ngx_abs((ngx_msec_int_t) (now - last))` -/
def elapsed (A : Arith) (now last : Nat) : Int := A.abs (A.signed (now - last))

/-- `maxtps * ms / 1000` -/
def decay (A : Arith) (maxtps : Nat) (ms : Int) : Int := A.unsigned (maxtps * ms) / 1000

/-- `excess - maxtps * ms / 1000`, stored in an `ngx_int_t`. -/
def remaining (A : Arith) (excess maxtps : Nat) (ms : Int) : Int :=
  A.signed (excess - A.decay maxtps ms)

/-- `excess - maxtps * ms / 1000 + 1000`, stored in an `ngx_int_t` and replaced
by `0` when it is negative. -/
def charged (A : Arith) (excess maxtps : Nat) (ms : Int) : Nat :=
  (A.signed (excess - A.decay maxtps ms + 1000)).toNat

/-- `excess * 1000 / maxtps` -/
def delay (A : Arith) (excess maxtps : Nat) : Nat :=
  (A.unsigned (A.signed (excess * 1000)) / maxtps).toNat

@[simp] theorem exact_unsigned (x : Int) : exact.unsigned x = x := rfl

@[simp] theorem exact_signed (x : Int) : exact.signed x = x := rfl

@[simp] theorem exact_clock (now : Nat) : exact.clock now = now := rfl

theorem exact_elapsed {now last : Nat} (h : last ≤ now) :
    exact.elapsed now last = (now - last : Nat) := by
  have hnonneg : 0 ≤ exact.signed ((now : Int) - last) := by
    rw [exact_signed]
    omega
  rw [elapsed, abs, if_pos hnonneg, exact_signed]
  omega

theorem exact_charged (excess maxtps ms : Nat) :
    exact.charged excess maxtps ms = excess + 1000 - maxtps * ms / 1000 := by
  have hdecay : exact.decay maxtps ms = (maxtps * ms / 1000 : Nat) := by
    simp [decay]
  rw [charged, exact_signed, hdecay]
  omega

end Arith

/-! ### Nodes and zones -/

/-- `ngx_http_access_control_node_t`, with its tree key and its identity. -/
structure Node where
  id : Nat
  hash : Nat
  data : List UInt8
  /-- `lr->len`, set from a `u_char`. -/
  len : Nat
  excess : Nat
  last : Nat
  count : Int
  deriving DecidableEq, Repr

/-- The shared state of a zone. -/
structure Zone where
  /-- The nodes, most recently used first. -/
  queue : List Node
  /-- The identity of the next node to be allocated. -/
  nextId : Nat
  deriving DecidableEq, Repr

/-- The zone as `ngx_http_access_control_init_zone` leaves it. -/
def Zone.initial : Zone := { queue := [], nextId := 0 }

/-- The test of the tree search: equal hash, and equal bytes over equal lengths. -/
def Node.Matches (hash : Nat) (data : List UInt8) (lr : Node) : Bool :=
  lr.hash = hash ∧ ngxMemn2cmp data lr.data data.length lr.len = 0

/-! ### Expiry -/

/-- The test of `ngx_http_access_control_expire` that an entry is idle and
paid off at the rate `maxtps`. -/
def Node.Stale (A : Arith) (now maxtps : Nat) (lr : Node) : Bool :=
  ¬ A.elapsed now lr.last < 60000 ∧ ¬ 0 < A.remaining lr.excess maxtps (A.elapsed now lr.last)

/-- The loop of `ngx_http_access_control_expire` with `k` rounds to go. The
round with three to go is the one that removes the oldest entry by force. -/
def expireLoop (A : Arith) (now maxtps : Nat) : Nat → List Node → List Node
  | 0, queue => queue
  | k + 1, queue =>
    match queue.getLast? with
    -- an empty queue ends the expiry
    | none => queue
    | some lr =>
      -- a request holds a pointer to the oldest entry: the code gives up for the whole zone
      if lr.count ≠ 0 then queue
      else if k + 1 = 3 ∨ lr.Stale A now maxtps then expireLoop A now maxtps k queue.dropLast
      else queue

/-- `ngx_http_access_control_expire(ctx, n, maxtps)` -/
def expire (A : Arith) (now n maxtps : Nat) (queue : List Node) : List Node :=
  expireLoop A now maxtps (3 - n) queue

/-! ### Lookup -/

/-- The return codes of the limiter. -/
inductive Rc where
  | ok
  | busy
  | error
  | again
  deriving DecidableEq, Repr

/-- The arguments of a call of `ngx_http_access_control_lookup`, with what the
clock and the allocator answer during the call. -/
structure Query where
  hash : Nat
  data : List UInt8
  account : Bool
  maxtps : Nat
  burst : Nat
  now : Nat
  /-- Which of several nodes with the searched key stands highest in the tree. -/
  meets : Nat
  /-- The first allocation succeeds. -/
  alloc : Bool
  /-- The allocation after a forced expiry succeeds. -/
  realloc : Bool
  deriving DecidableEq, Repr

/-- What a call of `ngx_http_access_control_lookup` returns and leaves behind. -/
structure Answer where
  rc : Rc
  /-- `*ep` -/
  excess : Nat
  zone : Zone
  /-- The value assigned to `ctx->node`, if any. -/
  pinned : Option Nat
  deriving DecidableEq, Repr

/-- The node a miss allocates. -/
def Query.fresh (A : Arith) (q : Query) (id : Nat) : Node where
  id := id
  hash := q.hash
  data := q.data
  -- `lr->len = (u_char) len`
  len := q.data.length % 256
  excess := 0
  -- a charged node starts now, a pinned one at `0` and is charged later
  last := if q.account then A.clock q.now else 0
  count := if q.account then 0 else 1

/-- The queue a miss inserts into, unless both allocations fail: the opportunistic
expiry always runs, the forced one when the first allocation fails. -/
def Query.room (A : Arith) (q : Query) (queue : List Node) : List Node :=
  let queue := expire A q.now 1 q.maxtps queue
  if q.alloc then queue else expire A q.now 0 q.maxtps queue

/-- The node after a hit: charged when the call accounts, pinned otherwise. -/
def Query.touch (A : Arith) (q : Query) (lr : Node) : Node :=
  if q.account then
    { lr with
      excess := A.charged lr.excess q.maxtps (A.elapsed q.now lr.last)
      last := A.clock q.now }
  else { lr with count := lr.count + 1 }

@[simp] theorem Query.touch_id (A : Arith) (q : Query) (lr : Node) :
    (q.touch A lr).id = lr.id := by
  unfold Query.touch
  split <;> rfl

/-- The tree search of the lookup. -/
def Query.search (q : Query) (queue : List Node) : Option Node :=
  let hits := queue.filter (Node.Matches q.hash q.data)
  hits[q.meets % hits.length]?

/-- `ngx_http_access_control_lookup` -/
def lookup (A : Arith) (z : Zone) (q : Query) : Answer :=
  match q.search z.queue with
  | some lr =>
    -- a hit moves to the front whether it is let through or not
    let rest := z.queue.erase lr
    let excess := A.charged lr.excess q.maxtps (A.elapsed q.now lr.last)
    if A.unsigned (q.burst * q.maxtps) < excess then
      { rc := .busy, excess := excess, zone := { z with queue := lr :: rest }, pinned := none }
    else
      { rc := if q.account then .ok else .again
        excess := excess
        zone := { z with queue := q.touch A lr :: rest }
        pinned := if q.account then none else some lr.id }
  | none =>
    let queue := q.room A z.queue
    if q.alloc ∨ q.realloc then
      { rc := if q.account then .ok else .again
        excess := 0
        zone := { queue := q.fresh A z.nextId :: queue, nextId := z.nextId + 1 }
        pinned := if q.account then none else some z.nextId }
    -- both allocations failed, and the room made for the node stays empty
    else { rc := .error, excess := 0, zone := { z with queue := queue }, pinned := none }

/-! ### Accounting and roll-back -/

/-- A write through a pointer to the node `id`. -/
def Zone.modify (z : Zone) (id : Nat) (f : Node → Node) : Zone :=
  { z with queue := z.queue.map fun lr => if lr.id = id then f lr else lr }

/-- The write of `ngx_http_access_control_account` to the pinned node. -/
def Node.settle (A : Arith) (now maxtps : Nat) (lr : Node) : Node :=
  { lr with
    excess := A.charged lr.excess maxtps (A.elapsed now lr.last)
    last := A.clock now
    count := lr.count - 1 }

/-- The write of the roll-back loop to the pinned node. -/
def Node.release (lr : Node) : Node := { lr with count := lr.count - 1 }

/-! ### What a step can do -/

/-- **What the expiry removes.** The queue loses a tail of at most `k` entries;
each of them was unpinned, and idle and paid off unless one round was by force. -/
theorem expireLoop_spec (A : Arith) (now maxtps : Nat) (k : Nat) (queue : List Node) :
    ∃ gone, queue = expireLoop A now maxtps k queue ++ gone ∧ gone.length ≤ k ∧
      ∀ lr ∈ gone, lr.count = 0 ∧ (k < 3 → lr.Stale A now maxtps) := by
  -- on the rounds to go; each one looks at the last entry of what the rounds before left
  induction k generalizing queue with
  | zero => exact ⟨[], by simp [expireLoop], by simp, by simp⟩
  | succ k ih =>
    rw [expireLoop]
    rcases List.eq_nil_or_concat' queue with rfl | ⟨queue, lr, rfl⟩
    · exact ⟨[], by simp, by simp, by simp⟩
    rw [List.getLast?_concat]
    dsimp only
    by_cases hcount : lr.count ≠ 0
    · rw [if_pos hcount]
      exact ⟨[], by simp, by simp, by simp⟩
    rw [if_neg hcount]
    by_cases hgo : k + 1 = 3 ∨ lr.Stale A now maxtps
    · -- the oldest entry goes, and the rounds below `3` are not by force
      rw [if_pos hgo, List.dropLast_concat]
      obtain ⟨gone, hsplit, hlen, hgone⟩ := ih queue
      refine ⟨gone ++ [lr], by rw [← List.append_assoc, ← hsplit], by simpa using hlen, ?_⟩
      intro x hx
      rcases List.mem_append.mp hx with hx | hx
      · exact ⟨(hgone x hx).1, fun hk => (hgone x hx).2 (by omega)⟩
      · obtain rfl : x = lr := by simpa using hx
        exact ⟨not_ne_iff.mp hcount, fun hk => hgo.resolve_left (by omega)⟩
    · rw [if_neg hgo]
      exact ⟨[], by simp, by simp, by simp⟩

/-- A miss makes room by dropping unpinned entries from the end of the queue. -/
theorem Query.room_spec (A : Arith) (q : Query) (queue : List Node) :
    ∃ gone, queue = q.room A queue ++ gone ∧ ∀ lr ∈ gone, lr.count = 0 := by
  obtain ⟨gone₁, h₁, -, hcount₁⟩ := expireLoop_spec A q.now q.maxtps (3 - 1) queue
  unfold Query.room
  dsimp only
  split
  · exact ⟨gone₁, h₁, fun lr hlr => (hcount₁ lr hlr).1⟩
  · -- the forced expiry works on what the opportunistic one left
    obtain ⟨gone₂, h₂, -, hcount₂⟩ :=
      expireLoop_spec A q.now q.maxtps (3 - 0) (expire A q.now 1 q.maxtps queue)
    refine ⟨gone₂ ++ gone₁, ?_, fun lr hlr => ?_⟩
    · rw [← List.append_assoc]
      exact h₁.trans (congrArg (· ++ gone₁) h₂)
    · rcases List.mem_append.mp hlr with h | h
      · exact (hcount₂ lr h).1
      · exact (hcount₁ lr h).1

theorem Query.room_subset (A : Arith) (q : Query) (queue : List Node) :
    ∀ lr ∈ q.room A queue, lr ∈ queue := by
  obtain ⟨gone, hsplit, -⟩ := q.room_spec A queue
  intro lr hlr
  rw [hsplit]
  exact List.mem_append_left _ hlr

theorem Query.mem_of_search {q : Query} {queue : List Node} {lr : Node}
    (h : q.search queue = some lr) : lr ∈ queue ∧ lr.Matches q.hash q.data := by
  have hmem := List.mem_of_getElem? h
  exact List.mem_filter.mp hmem

theorem Query.search_eq_none {q : Query} {queue : List Node} :
    q.search queue = none ↔ ∀ lr ∈ queue, ¬ lr.Matches q.hash q.data := by
  unfold Query.search
  rw [List.getElem?_eq_none_iff]
  constructor
  · intro hle lr hlr hm
    -- a hit makes the list of hits nonempty, so the remainder is an index into it
    have hpos : 0 < (queue.filter (Node.Matches q.hash q.data)).length :=
      List.length_pos_of_mem (List.mem_filter.mpr ⟨hlr, hm⟩)
    have := Nat.mod_lt q.meets hpos
    omega
  · intro hno
    rw [List.filter_eq_nil_iff.mpr hno]
    simp

/-- **What a lookup can do**: refuse a node it found, charge or pin it, insert
a fresh node, or fail to allocate one. -/
theorem lookup_cases (A : Arith) (z : Zone) (q : Query) :
    (∃ lr, q.search z.queue = some lr ∧
      A.unsigned (q.burst * q.maxtps) < A.charged lr.excess q.maxtps (A.elapsed q.now lr.last) ∧
      lookup A z q =
        { rc := .busy
          excess := A.charged lr.excess q.maxtps (A.elapsed q.now lr.last)
          zone := { z with queue := lr :: z.queue.erase lr }, pinned := none }) ∨
    (∃ lr, q.search z.queue = some lr ∧
      ¬ A.unsigned (q.burst * q.maxtps) < A.charged lr.excess q.maxtps (A.elapsed q.now lr.last) ∧
      lookup A z q =
        { rc := if q.account then .ok else .again
          excess := A.charged lr.excess q.maxtps (A.elapsed q.now lr.last)
          zone := { z with queue := q.touch A lr :: z.queue.erase lr }
          pinned := if q.account then none else some lr.id }) ∨
    (q.search z.queue = none ∧ (q.alloc ∨ q.realloc) ∧
      lookup A z q =
        { rc := if q.account then .ok else .again
          excess := 0
          zone := { queue := q.fresh A z.nextId :: q.room A z.queue, nextId := z.nextId + 1 }
          pinned := if q.account then none else some z.nextId }) ∨
    (q.search z.queue = none ∧ ¬ (q.alloc ∨ q.realloc) ∧
      lookup A z q =
        { rc := .error, excess := 0, zone := { z with queue := q.room A z.queue }
          pinned := none }) := by
  -- found and refused, found and let through, allocated, not allocated
  unfold lookup
  cases hs : q.search z.queue with
  | some lr =>
    by_cases hb : A.unsigned (q.burst * q.maxtps) <
        A.charged lr.excess q.maxtps (A.elapsed q.now lr.last)
    · exact Or.inl ⟨lr, rfl, hb, if_pos hb⟩
    · exact Or.inr (Or.inl ⟨lr, rfl, hb, if_neg hb⟩)
  | none =>
    by_cases ha : q.alloc ∨ q.realloc
    · exact Or.inr (Or.inr (Or.inl ⟨rfl, ha, if_pos ha⟩))
    · exact Or.inr (Or.inr (Or.inr ⟨rfl, ha, if_neg ha⟩))

/-- A refused lookup moves the node it met to the front and changes nothing else. -/
theorem lookup_of_busy {A : Arith} {z : Zone} {q : Query} (h : (lookup A z q).rc = .busy) :
    ∃ lr, q.search z.queue = some lr ∧
      (lookup A z q).zone = { z with queue := lr :: z.queue.erase lr } := by
  rcases lookup_cases A z q with ⟨x, hx, -, heq⟩ | ⟨x, -, -, heq⟩ | ⟨-, -, heq⟩ | ⟨-, -, heq⟩
  · exact ⟨x, hx, by rw [heq]⟩
  · cases hq : q.account <;> simp [heq, hq] at h
  · cases hq : q.account <;> simp [heq, hq] at h
  · simp [heq] at h

end AccessControl
