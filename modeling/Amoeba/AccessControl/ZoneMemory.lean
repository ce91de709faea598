import Amoeba.Nginx.RbTreeInsert
import Amoeba.Nginx.RbTreeDelete
import Amoeba.Nginx.Queue
import Amoeba.AccessControl.ZoneTree
import Amoeba.AccessControl.Pinning

/-!
# A zone in shared memory

`ngx_http_access_control_lookup` and `ngx_http_access_control_expire` on the memory
that the workers share: the red-black tree and the queue with their pointers, the
members of the nodes, and the slab pool, of which only the chunks in use are kept.
A node is an address here, and an address is used again after its node was freed.

A call answers nothing when a loop runs out of fuel, when a chunk is freed that is
not in use, and when a worker writes through a pointer to a chunk that is not in use.

* `ZoneMem.Holds` — the tree is red-black and ordered, the queue is a ring, both have
  the same nodes, and the chunks in use are those of the nodes.
* `ZoneMem.Refines` — moreover, the queue is that of the model of the limiter.
* `SharedMem.run_refines` — in every interleaving of the workers no call fails, and
  the memory refines a reachable state of the limiter.
* `pinned_chunks_survive` — a chunk that a worker points to is in the tree and in the queue.
-/

namespace AccessControl

open Nginx RedBlack

/-! ### The memory -/

/-- The members of `ngx_http_access_control_node_t` that neither the tree nor the queue
uses. -/
structure Entry where
  data : List UInt8
  len : Nat
  excess : Nat
  last : Nat
  count : Int
  deriving DecidableEq, Repr

/-- The memory of a zone. The members of one node are found under one address. -/
structure ZoneMem where
  /-- `sh->rbtree` -/
  rbtree : RbTree
  queue : QueueMem
  /-- `&sh->queue` -/
  head : Nat
  entry : Nat → Entry
  /-- The chunks of the pool that are in use. -/
  used : List Nat

/-- The node at an address. -/
def ZoneMem.lr (s : ZoneMem) (p : Nat) : Node where
  id := p
  hash := s.rbtree.key p
  data := (s.entry p).data
  len := (s.entry p).len
  excess := (s.entry p).excess
  last := (s.entry p).last
  count := (s.entry p).count

/-- The node at an address, with another identity. -/
def ZoneMem.view (s : ZoneMem) (ids : Nat → Nat) (p : Nat) : Node := { s.lr p with id := ids p }

def ZoneMem.setEntry (s : ZoneMem) (p : Nat) (e : Entry) : ZoneMem :=
  { s with entry := Function.update s.entry p e }

/-- What the slab pool answers to one call of `ngx_slab_alloc_locked`. -/
structure Alloc where
  chunk : List Nat → Option Nat
  /-- A chunk that is in use is not given out. -/
  notMem : ∀ used p, chunk used = some p → p ∉ used

/-- The arguments of a lookup, with what the clock and the pool answer. -/
structure MemQuery where
  hash : Nat
  data : List UInt8
  account : Bool
  maxtps : Nat
  burst : Nat
  now : Nat
  /-- The answer to the first allocation. -/
  alloc : Alloc
  /-- The answer after a forced expiry. -/
  realloc : Alloc

/-- What a lookup returns and leaves behind. -/
structure MemAnswer where
  rc : Rc
  /-- `*ep` -/
  excess : Nat
  mem : ZoneMem
  /-- The value assigned to `ctx->node`, if any. -/
  pinned : Option Nat

namespace ZoneMem

/-- `ngx_http_access_control_init_zone` of a new segment, on memory with any contents:
`ngx_rbtree_init` and `ngx_queue_init`. -/
def init (m : ZoneMem) (sentinel head : Nat) : ZoneMem :=
  { m with
    rbtree := { m.rbtree.setColor sentinel .black with root := sentinel, sentinel := sentinel }
    queue := ngxQueueInit m.queue head
    head := head
    used := [sentinel, head] }

/-- `ngx_queue_remove`, `ngx_rbtree_delete` and `ngx_slab_free_locked`. -/
def remove (fuel : Nat) (s : ZoneMem) (q : Nat) : Option ZoneMem :=
  (ngxRbtreeDelete fuel s.rbtree q).bind fun rbtree =>
    if q ∈ s.used then
      some { s with
        rbtree := rbtree
        queue := ngxQueueRemove s.queue q
        used := s.used.erase q }
    else none

/-- The loop of `ngx_http_access_control_expire` with `k` rounds to go. -/
def expireLoop (A : Arith) (fuel now maxtps : Nat) : Nat → ZoneMem → Option ZoneMem
  | 0, s => some s
  | k + 1, s =>
    if ngxQueueEmpty s.queue s.head then some s
    else
      let q := ngxQueueLast s.queue s.head
      if (s.lr q).count ≠ 0 then some s
      else if k + 1 = 3 ∨ (s.lr q).Stale A now maxtps then
        (s.remove fuel q).bind (expireLoop A fuel now maxtps k)
      else some s

/-- `ngx_http_access_control_expire(ctx, n, maxtps)` -/
def expire (A : Arith) (fuel now n maxtps : Nat) (s : ZoneMem) : Option ZoneMem :=
  s.expireLoop A fuel now maxtps (3 - n)

/-- The search loop of the lookup; it ends at a node or at the sentinel. -/
def search (s : ZoneMem) (hash : Nat) (data : List UInt8) : Nat → Nat → Option (Option Nat)
  | 0, _ => none
  | fuel + 1, node =>
    if node = s.rbtree.sentinel then some none
    else
      match (s.lr node).side hash data with
      | .lt => search s hash data fuel (s.rbtree.child .left node)
      | .gt => search s hash data fuel (s.rbtree.child .right node)
      | .eq => some (some node)

/-- The pool gives out a chunk, if it has one. -/
def take (s : ZoneMem) (chunk : Option Nat) : ZoneMem := { s with used := chunk.toList ++ s.used }

/-- The expiries and the allocations of a miss. -/
def room (A : Arith) (fuel : Nat) (q : MemQuery) (s : ZoneMem) : Option (Option Nat × ZoneMem) :=
  (s.expire A fuel q.now 1 q.maxtps).bind fun s =>
    match q.alloc.chunk s.used with
    | some p => some (some p, s.take (some p))
    | none =>
      (s.expire A fuel q.now 0 q.maxtps).map fun s =>
        (q.realloc.chunk s.used, s.take (q.realloc.chunk s.used))

/-- The key and the bytes of a new node. -/
def fill (q : MemQuery) (s : ZoneMem) (p : Nat) : ZoneMem :=
  { s with
    rbtree := s.rbtree.setKey p q.hash
    -- `lr->len = (u_char) len`
    entry := Function.update s.entry p
      { s.entry p with len := q.data.length % 256, excess := 0, data := q.data } }

/-- A new node goes to the front of the queue, charged or pinned. -/
def link (A : Arith) (q : MemQuery) (s : ZoneMem) (p : Nat) : ZoneMem :=
  let s := { s with queue := ngxQueueInsertHead s.queue s.head p }
  s.setEntry p
    { s.entry p with
      last := if q.account then A.clock q.now else 0
      count := if q.account then 0 else 1 }

/-- `ngx_http_access_control_rbtree_insert_value`, which reads the entries of the nodes. -/
def rbtreeInsertValue (fuel : Nat) (s : ZoneMem) : RbTree → Nat → Nat → Option RbTree :=
  insertValue (fun node temp => (s.lr node).left (s.lr temp)) fuel

/-- A new node is filled in, inserted into the tree and put at the front of the queue. -/
def create (A : Arith) (fuel : Nat) (q : MemQuery) (s : ZoneMem) (p : Nat) : Option ZoneMem :=
  let s := s.fill q p
  (ngxRbtreeInsert (s.rbtreeInsertValue fuel) fuel s.rbtree p).map
    fun rbtree => link A q { s with rbtree := rbtree } p

/-- `ngx_queue_remove` and `ngx_queue_insert_head` of a node that was found. -/
def toFront (s : ZoneMem) (p : Nat) : ZoneMem :=
  { s with queue := ngxQueueInsertHead (ngxQueueRemove s.queue p) s.head p }

/-- A lookup that found its node. -/
def hit (A : Arith) (q : MemQuery) (s : ZoneMem) (p : Nat) : MemAnswer :=
  let s := s.toFront p
  let lr := s.entry p
  let excess := A.charged lr.excess q.maxtps (A.elapsed q.now lr.last)
  if A.unsigned (q.burst * q.maxtps) < excess then
    { rc := .busy, excess := excess, mem := s, pinned := none }
  else if q.account then
    { rc := .ok
      excess := excess
      mem := s.setEntry p { lr with excess := excess, last := A.clock q.now }
      pinned := none }
  else
    { rc := .again
      excess := excess
      mem := s.setEntry p { lr with count := lr.count + 1 }
      pinned := some p }

/-- A lookup that found no node. -/
def miss (A : Arith) (fuel : Nat) (q : MemQuery) (s : ZoneMem) : Option MemAnswer :=
  (s.room A fuel q).bind fun ps =>
    match ps.1 with
    | none => some { rc := .error, excess := 0, mem := ps.2, pinned := none }
    | some p =>
      (ps.2.create A fuel q p).map fun s =>
        { rc := if q.account then .ok else .again
          excess := 0
          mem := s
          pinned := if q.account then none else some p }

/-- `ngx_http_access_control_lookup` -/
def lookup (A : Arith) (fuel : Nat) (s : ZoneMem) (q : MemQuery) : Option MemAnswer :=
  (s.search q.hash q.data fuel s.rbtree.root).bind fun found =>
    match found with
    | some p => some (s.hit A q p)
    | none => s.miss A fuel q

end ZoneMem

/-! ### What the memory holds -/

/-- **The tree and the queue agree**: a red-black tree ordered by the keys and a ring with
the same nodes, which are the only ones that use chunks of the pool. -/
structure ZoneMem.Holds (s : ZoneMem) (t : ColorTree Nat) (l : List Nat) : Prop where
  represents : Represents s.rbtree t
  redBlack : t.IsRedBlack
  sorted : SearchTree.Sorted (fun p => (s.lr p).key) t.forget
  ring : Ring s.queue s.head l
  perm : l.Perm t.inorder
  /-- The first two chunks are those of the sentinel and of the queue. -/
  used : s.used.Perm (l ++ [s.rbtree.sentinel, s.head])
  len_eq : ∀ p ∈ l, (s.lr p).len = (s.lr p).data.length

/-- **The memory refines the queue model**, with `ids` as the identities of the nodes. -/
structure ZoneMem.Refines (s : ZoneMem) (t : ColorTree Nat) (l : List Nat) (ids : Nat → Nat)
    (z : Zone) : Prop extends s.Holds t l where
  queue_eq : z.queue = l.map (s.view ids)
  ids_inj : ∀ p ∈ l, ∀ p' ∈ l, ids p = ids p' → p = p'
  ids_lt : ∀ p ∈ l, ids p < z.nextId

/-- The lookup in the model of the limiter, for the answers of the pool. -/
def MemQuery.query (q : MemQuery) (alloc realloc : Bool) : Query where
  hash := q.hash
  data := q.data
  account := q.account
  maxtps := q.maxtps
  burst := q.burst
  now := q.now
  meets := 0
  alloc := alloc
  realloc := realloc

theorem ZoneMem.refines_init (m : ZoneMem) {sentinel head : Nat} :
    (m.init sentinel head).Refines .nil [] id Zone.initial where
  represents :=
    { root_eq := rfl
      children := trivial
      parents := trivial
      colors := trivial
      nodup := List.nodup_nil
      sentinel_notMem := List.not_mem_nil
      sentinel_black := Function.update_self .. }
  redBlack := ColorTree.isRedBlack_nil
  sorted := SearchTree.sorted_nil
  ring := ring_init m.queue head
  perm := .nil
  used := .refl _
  len_eq := nofun
  queue_eq := rfl
  ids_inj := nofun
  ids_lt := nofun

/-! ### The search -/

/-- **The search in memory is that in the tree**, in as many steps as the tree is deep. -/
theorem ZoneMem.search_eq {s : ZoneMem} {path : Path Nat} {t : ColorTree Nat} {fuel : Nat}
    (h : Represents s.rbtree (plug path t)) (hfuel : t.depth < fuel) (hash : Nat)
    (data : List UInt8) :
    s.search hash data fuel (addr s.rbtree.sentinel t) =
      some (SearchTree.find (fun p => (s.lr p).side hash data) t.forget) := by
  induction t generalizing path fuel with
  | nil =>
    obtain ⟨fuel, rfl⟩ := Nat.exists_eq_succ_of_ne_zero (Nat.ne_zero_of_lt hfuel)
    rw [ZoneMem.search, addr, if_pos rfl]
    rfl
  | node c l a r ihl ihr =>
    obtain ⟨fuel, rfl⟩ := Nat.exists_eq_succ_of_ne_zero (Nat.ne_zero_of_lt hfuel)
    have hdepth : max l.depth r.depth < fuel := Nat.lt_of_succ_lt_succ hfuel
    obtain ⟨-, hl, hr⟩ := h.node_eq (d := .left)
    rw [Side.other] at hr
    have hlloc : Represents s.rbtree (plug (⟨.left, c, a, r⟩ :: path) l) := h
    have hrloc : Represents s.rbtree (plug (⟨.right, c, a, l⟩ :: path) r) := h
    have hne : a ≠ s.rbtree.sentinel := fun heq =>
      absurd (h.addr_eq_sentinel_iff.mp heq) (by simp)
    rw [ZoneMem.search, addr, if_neg hne, hl, hr,
      ihl hlloc ((le_max_left _ _).trans_lt hdepth), ihr hrloc ((le_max_right _ _).trans_lt hdepth)]
    dsimp only [ColorTree.forget, SearchTree.find]
    cases (s.lr a).side hash data <;> rfl

namespace ZoneMem.Holds

variable {s : ZoneMem} {t : ColorTree Nat} {l : List Nat} (h : s.Holds t l)

include h

theorem nodup : l.Nodup := (List.nodup_cons.mp h.ring.nodup).2

theorem depth_lt {fuel : Nat} (hfuel : 2 * Nat.log 2 (l.length + 1) < fuel) : t.depth < fuel := by
  refine lt_of_le_of_lt h.redBlack.depth_le ?_
  rwa [← h.perm.length_eq]

/-- The lookup searches for the node of the key. -/
theorem search_root {fuel : Nat} (hfuel : 2 * Nat.log 2 (l.length + 1) < fuel) (hash : Nat)
    (data : List UInt8) : ∃ found, s.search hash data fuel s.rbtree.root = some found ∧
      ∀ p, found = some p ↔ p ∈ l ∧ (s.lr p).hash = hash ∧ (s.lr p).data = data := by
  have hloc : Represents s.rbtree (plug [] t) := h.represents
  refine ⟨SearchTree.find (fun p => (s.lr p).side hash data) t.forget, ?_, fun p => ?_⟩
  · rw [h.represents.root_eq]
    exact search_eq hloc (h.depth_lt hfuel) hash data
  · -- the nodes of the tree are those of the queue, whose lengths are right
    have hmem : ∀ x, x ∈ SearchTree.inorder t.forget ↔ x ∈ l := fun x => h.perm.mem_iff.symm
    rw [SearchTree.find_eq_some_iff h.sorted fun a ha =>
      Node.side_eq (h.len_eq a ((hmem a).mp ha)) hash data, hmem, Node.key_eq_iff]

/-- The node of a key is the only one. -/
theorem eq_of_key {p p' : Nat} (hp : p ∈ l) (hp' : p' ∈ l) (hhash : (s.lr p).hash = (s.lr p').hash)
    (hdata : (s.lr p).data = (s.lr p').data) : p = p' := by
  refine h.sorted.eq_of_key (h.perm.mem_iff.mp hp) (h.perm.mem_iff.mp hp') ?_
  rw [Node.key, Node.key, hhash, hdata]

end ZoneMem.Holds

/-! ### One step at a time -/

theorem Query.search_eq_some {q : Query} {queue : List Node} {lr : Node} (hlr : lr ∈ queue)
    (hm : lr.Matches q.hash q.data)
    (hone : ∀ lr' ∈ queue, lr'.Matches q.hash q.data → lr' = lr) : q.search queue = some lr := by
  cases hq : q.search queue with
  | none => exact absurd hm (Query.search_eq_none.mp hq lr hlr)
  | some lr' =>
    obtain ⟨hlr', hm'⟩ := Query.mem_of_search hq
    rw [hone lr' hlr' hm']

namespace ZoneMem.Refines

variable {s : ZoneMem} {t : ColorTree Nat} {l : List Nat} {ids : Nat → Nat} {z : Zone}
  (h : s.Refines t l ids z)

include h

theorem view_inj {p : Nat} (hp : p ∈ l) :
    ∀ x ∈ l, s.view ids x = s.view ids p → x = p :=
  fun x hx heq => h.ids_inj x hx p hp (congrArg Node.id heq)

theorem mem_queue {p : Nat} (hp : p ∈ l) : s.view ids p ∈ z.queue := by
  rw [h.queue_eq]
  exact List.mem_map_of_mem (f := s.view ids) hp

/-- What the search in memory finds is what the queue model finds. -/
theorem search_queue {fuel : Nat} (hfuel : 2 * Nat.log 2 (l.length + 1) < fuel) (q : MemQuery)
    (alloc realloc : Bool) : ∃ found, s.search q.hash q.data fuel s.rbtree.root = some found ∧
      (∀ p, found = some p → p ∈ l) ∧
      (q.query alloc realloc).search z.queue = found.map (s.view ids) := by
  obtain ⟨found, hfound, hspec⟩ := h.search_root hfuel q.hash q.data
  have hmatch : ∀ p ∈ l, (s.view ids p).Matches q.hash q.data ↔
      (s.lr p).hash = q.hash ∧ (s.lr p).data = q.data :=
    fun p hp => @Node.matches_iff (s.view ids p) (h.len_eq p hp) _ _
  refine ⟨found, hfound, fun p hp => ((hspec p).mp hp).1, ?_⟩
  cases found with
  | none =>
    rw [Option.map_none, Query.search_eq_none, h.queue_eq]
    intro lr hlr hm
    obtain ⟨p, hp, rfl⟩ := List.mem_map.mp hlr
    exact nomatch (hspec p).mpr ⟨hp, (hmatch p hp).mp hm⟩
  | some p =>
    obtain ⟨hp, hkey⟩ := (hspec p).mp rfl
    refine Query.search_eq_some (h.mem_queue hp) ((hmatch p hp).mpr hkey) fun lr hlr hm => ?_
    rw [h.queue_eq] at hlr
    obtain ⟨p', hp', rfl⟩ := List.mem_map.mp hlr
    -- both have the key, and there is one node for it
    have hkey' := (hmatch p' hp').mp hm
    rw [h.eq_of_key hp' hp (hkey'.1.trans hkey.1.symm) (hkey'.2.trans hkey.2.symm)]

/-- A node moves to the front. -/
theorem toFront {p : Nat} (hp : p ∈ l) :
    (s.toFront p).Refines t (p :: l.erase p) ids
      { z with queue := s.view ids p ::
        z.queue.erase (s.view ids p) } := by
  have hperm : l.Perm (p :: l.erase p) := List.perm_cons_erase hp
  have hmem : ∀ x, x ∈ p :: l.erase p → x ∈ l := fun x hx => hperm.mem_iff.mpr hx
  -- without the node, the ring can take it at its front
  have hhead : p ∉ s.head :: l.erase p := by
    rw [List.mem_cons, not_or]
    refine ⟨?_, fun hx => (h.nodup.mem_erase_iff.mp hx).1 rfl⟩
    rintro rfl
    exact (List.nodup_cons.mp h.ring.nodup).1 hp
  exact
    { represents := h.represents
      redBlack := h.redBlack
      sorted := h.sorted
      ring := (h.ring.remove_erase hp).insertHead hhead
      perm := hperm.symm.trans h.perm
      used := h.used.trans (hperm.append_right _)
      len_eq := fun x hx => h.len_eq x (hmem x hx)
      queue_eq := by
        rw [h.queue_eq, ← map_erase_of_inj (h.view_inj hp)]
        rfl
      ids_inj := fun x hx x' hx' => h.ids_inj x (hmem x hx) x' (hmem x' hx')
      ids_lt := fun x hx => h.ids_lt x (hmem x hx) }

/-- A write that leaves the key of a node. -/
theorem setEntry {p : Nat} {e : Entry} (hdata : e.data = (s.entry p).data)
    (hlen : e.len = (s.entry p).len) :
    (s.setEntry p e).Refines t l ids
      { z with queue := l.map ((s.setEntry p e).view ids) } := by
  -- the key of a node is made of the bytes that stay
  have hsame : ∀ x, ((s.setEntry p e).lr x).data = (s.lr x).data ∧
      ((s.setEntry p e).lr x).len = (s.lr x).len := by
    intro x
    by_cases hx : x = p
    · subst hx
      simp [ZoneMem.lr, ZoneMem.setEntry, hdata, hlen]
    · simp [ZoneMem.lr, ZoneMem.setEntry, Function.update_of_ne hx]
  exact
    { represents := h.represents
      redBlack := h.redBlack
      sorted := h.sorted.congr fun x _ => by
        rw [Node.key, Node.key, (hsame x).1]
        rfl
      ring := h.ring
      perm := h.perm
      used := h.used
      len_eq := fun x hx => by
        rw [(hsame x).1, (hsame x).2]
        exact h.len_eq x hx
      queue_eq := rfl
      ids_inj := h.ids_inj
      ids_lt := h.ids_lt }

/-- A node is taken out of both structures and its chunk is freed. -/
theorem remove {p fuel : Nat} (hp : p ∈ l) (hfuel : 2 * Nat.log 2 (l.length + 1) < fuel) :
    ∃ s' t', s.remove fuel p = some s' ∧
      s'.Refines t' (l.erase p) ids
        { z with queue := z.queue.erase (s.view ids p) } := by
  obtain ⟨path, c, left, right, rfl⟩ := exists_location (h.perm.mem_iff.mp hp)
  obtain ⟨rbtree, hcode, hrep, hsent, hkey, -⟩ :=
    ngxRbtreeDelete_represents h.represents h.redBlack (h.depth_lt hfuel)
  have hused : p ∈ s.used := h.used.mem_iff.mpr (List.mem_append_left _ hp)
  have hinorder : (deleteAt path c left right).inorder =
      (plug path (.node c left p right)).inorder.erase p :=
    inorder_deleteAt_erase h.represents.nodup
  have hmem : ∀ x ∈ l.erase p, x ≠ p ∧ x ∈ l := fun x hx => h.nodup.mem_erase_iff.mp hx
  let s' : ZoneMem :=
    { s with rbtree := rbtree, queue := ngxQueueRemove s.queue p, used := s.used.erase p }
  -- the other nodes keep their keys
  have hsame : ∀ x, x ≠ p → s'.lr x = s.lr x := fun x hx => by
    rw [ZoneMem.lr, ZoneMem.lr, hkey x hx]
  refine ⟨s', deleteAt path c left right, ?_, ?_⟩
  · rw [ZoneMem.remove, hcode, Option.bind_some, if_pos hused]
  exact
    { represents := hrep
      redBlack := isRedBlack_deleteAt h.redBlack
      sorted := by
        refine SearchTree.Sorted.congr (h.sorted.of_sublist ?_) fun x hx => ?_
        · change (deleteAt path c left right).inorder.Sublist _
          rw [hinorder]
          exact List.erase_sublist
        · change x ∈ (deleteAt path c left right).inorder at hx
          rw [hinorder] at hx
          rw [hsame x (h.represents.nodup.mem_erase_iff.mp hx).1]
      ring := h.ring.remove_erase hp
      perm := hinorder ▸ h.perm.erase p
      used := by
        have hperm := h.used.erase p
        rw [List.erase_append_left _ hp] at hperm
        change (s.used.erase p).Perm (l.erase p ++ [rbtree.sentinel, s.head])
        rwa [hsent]
      len_eq := fun x hx => by
        rw [hsame x (hmem x hx).1]
        exact h.len_eq x (hmem x hx).2
      queue_eq := by
        rw [h.queue_eq, ← map_erase_of_inj (h.view_inj hp)]
        exact List.map_congr_left fun x hx => by
          rw [ZoneMem.view, ZoneMem.view, hsame x (hmem x hx).1]
      ids_inj := fun x hx x' hx' => h.ids_inj x (hmem x hx).2 x' (hmem x' hx').2
      ids_lt := fun x hx => h.ids_lt x (hmem x hx).2 }

theorem erase_last {p : Nat} (hp : l.getLast? = some p) :
    z.queue.erase (s.view ids p) = z.queue.dropLast := by
  rw [h.queue_eq, ← map_erase_of_inj (h.view_inj (List.mem_of_getLast? hp)),
    erase_getLast h.nodup hp, List.map_dropLast]

/-- **The expiry in memory is that of the queue model.** -/
theorem expireLoop (A : Arith) (now maxtps : Nat) {fuel n : Nat} (hn : l.length ≤ n)
    (hfuel : 2 * Nat.log 2 (n + 1) < fuel) (k : Nat) :
    ∃ (s' : ZoneMem) (t' : ColorTree Nat) (l' : List Nat),
      s.expireLoop A fuel now maxtps k = some s' ∧
      s'.Refines t' l' ids
        { z with queue := AccessControl.expireLoop A now maxtps k z.queue } ∧ l'.Sublist l := by
  -- on the rounds, both loops side by side
  induction k generalizing s t l z with
  | zero => exact ⟨s, t, l, rfl, h, .refl l⟩
  | succ k ih =>
    have hlast : z.queue.getLast? = l.getLast?.map (s.view ids) := by
      rw [h.queue_eq, List.getLast?_map]
    rw [ZoneMem.expireLoop, AccessControl.expireLoop, hlast]
    obtain rfl | ⟨l₀, p, rfl⟩ := List.eq_nil_or_concat' l
    · rw [if_pos (h.ring.empty_iff.mpr rfl)]
      exact ⟨s, t, [], rfl, h, .refl _⟩
    · have hne : ¬ ngxQueueEmpty s.queue s.head = true := fun hempty =>
        List.concat_ne_nil p l₀ (by simpa using h.ring.empty_iff.mp hempty)
      rw [if_neg hne, List.getLast?_concat, Option.map_some]
      have hq : ngxQueueLast s.queue s.head = p := by
        rw [h.ring.last_eq, List.getLastD_concat]
      dsimp only
      rw [hq]
      have hview : (s.view ids p).count = (s.lr p).count := rfl
      rw [hview]
      by_cases hcount : (s.lr p).count ≠ 0
      · rw [if_pos hcount, if_pos hcount]
        exact ⟨s, t, l₀ ++ [p], rfl, h, .refl _⟩
      rw [if_neg hcount, if_neg hcount]
      by_cases hgo : k + 1 = 3 ∨ (s.lr p).Stale A now maxtps
      · have hgo' : k + 1 = 3 ∨ (s.view ids p).Stale A now maxtps := hgo
        rw [if_pos hgo, if_pos hgo']
        have hlog : Nat.log 2 ((l₀ ++ [p]).length + 1) ≤ Nat.log 2 (n + 1) :=
          Nat.log_mono_right (Nat.succ_le_succ hn)
        have hmem : p ∈ l₀ ++ [p] := List.mem_concat_self
        obtain ⟨s₁, t₁, hcode, hs₁⟩ :=
          h.remove hmem (lt_of_le_of_lt (Nat.mul_le_mul_left 2 hlog) hfuel)
        rw [h.erase_last List.getLast?_concat] at hs₁
        have hsub : ((l₀ ++ [p]).erase p).Sublist (l₀ ++ [p]) := List.erase_sublist
        obtain ⟨s', t', l', hrun, hs', hsub'⟩ := ih hs₁ (hsub.length_le.trans hn)
        rw [hcode, Option.bind_some]
        exact ⟨s', t', l', hrun, hs', hsub'.trans hsub⟩
      · have hgo' : ¬ (k + 1 = 3 ∨ (s.view ids p).Stale A now maxtps) := hgo
        rw [if_neg hgo, if_neg hgo']
        exact ⟨s, t, l₀ ++ [p], rfl, h, .refl _⟩

/-- **Room is made as in the queue model**, for what the pool answers. -/
theorem room (A : Arith) (q : MemQuery) {fuel n : Nat} (hn : l.length ≤ n)
    (hfuel : 2 * Nat.log 2 (n + 1) < fuel) :
    ∃ (s' : ZoneMem) (t' : ColorTree Nat) (l' : List Nat) (found : Option Nat)
      (alloc realloc : Bool), s.room A fuel q = some (found, s'.take found) ∧
      s'.Refines t' l' ids { z with queue := (q.query alloc realloc).room A z.queue } ∧
      l'.Sublist l ∧ (found.isSome ↔ alloc ∨ realloc) ∧ ∀ p, found = some p → p ∉ s'.used := by
  obtain ⟨s₁, t₁, l₁, hrun₁, hs₁, hsub₁⟩ := h.expireLoop A q.now q.maxtps hn hfuel (3 - 1)
  rw [ZoneMem.room, ZoneMem.expire, hrun₁, Option.bind_some]
  -- the pool has a chunk at once, or after the forced expiry, or not at all
  cases hfirst : q.alloc.chunk s₁.used with
  | some p =>
    refine ⟨s₁, t₁, l₁, some p, true, false, rfl, hs₁, hsub₁, by simp, fun p' hp' => ?_⟩
    rw [← Option.some.inj hp']
    exact q.alloc.notMem _ _ hfirst
  | none =>
    obtain ⟨s₂, t₂, l₂, hrun₂, hs₂, hsub₂⟩ :=
      hs₁.expireLoop A q.now q.maxtps (hsub₁.length_le.trans hn) hfuel (3 - 0)
    rw [ZoneMem.expire, hrun₂, Option.map_some]
    dsimp only
    cases hsecond : q.realloc.chunk s₂.used with
    | some p =>
      refine ⟨s₂, t₂, l₂, some p, false, true, rfl, hs₂, hsub₂.trans hsub₁, by simp,
        fun p' hp' => ?_⟩
      rw [← Option.some.inj hp']
      exact q.realloc.notMem _ _ hsecond
    | none =>
      exact ⟨s₂, t₂, l₂, none, false, false, rfl, hs₂, hsub₂.trans hsub₁, by simp, nofun⟩

omit h in
/-- The memory that the insertion of a new node compares in. -/
theorem fill_lr {q : MemQuery} (hlen : q.data.length ≤ 255) (s : ZoneMem) (p : Nat) :
    let s₁ := (s.take (some p)).fill q p
    (∀ x, x ≠ p → s₁.lr x = s.lr x) ∧ (s₁.lr p).hash = q.hash ∧ (s₁.lr p).data = q.data ∧
      (s₁.lr p).len = (s₁.lr p).data.length := by
  have hlen' : q.data.length % 256 = q.data.length := Nat.mod_eq_of_lt (Nat.lt_succ_of_le hlen)
  refine ⟨fun x hx => ?_, ?_⟩
  · simp [ZoneMem.lr, ZoneMem.fill, RbTree.setKey, ZoneMem.take, hx]
  · simp [ZoneMem.lr, ZoneMem.fill, RbTree.setKey, hlen']

omit h in
/-- The memory after it: the other nodes stay as they are, and the new one is that of the
queue model. -/
theorem link_lr (A : Arith) (q : MemQuery) (s : ZoneMem) (p : Nat) {rbtree : RbTree}
    (hkey : rbtree.key = ((s.take (some p)).fill q p).rbtree.key) (alloc realloc : Bool) :
    let s' := link A q { (s.take (some p)).fill q p with rbtree := rbtree } p
    (∀ x, x ≠ p → s'.lr x = s.lr x) ∧
      s'.lr p = { (q.query alloc realloc).fresh A p with id := p } := by
  refine ⟨fun x hx => ?_, ?_⟩
  · simp [ZoneMem.lr, ZoneMem.link, ZoneMem.fill, ZoneMem.setEntry, hkey, RbTree.setKey,
      ZoneMem.take, hx]
  · simp [ZoneMem.lr, ZoneMem.link, ZoneMem.fill, ZoneMem.setEntry, hkey, RbTree.setKey,
      Query.fresh, MemQuery.query]
    exact ⟨rfl, rfl⟩

/-- A new node in the tree and in the queue. -/
theorem create_holds (A : Arith) {q : MemQuery} {p fuel : Nat} (hlen : q.data.length ≤ 255)
    (hp : p ∉ s.used) (hnew : ∀ x ∈ l, ¬ ((s.lr x).hash = q.hash ∧ (s.lr x).data = q.data))
    (hfuel : 2 * Nat.log 2 (l.length + 1) < fuel) (alloc realloc : Bool) :
    ∃ s' t', (s.take (some p)).create A fuel q p = some s' ∧ s'.Holds t' (p :: l) ∧
      (∀ x ∈ l, x ≠ p ∧ s'.lr x = s.lr x) ∧
      s'.lr p = { (q.query alloc realloc).fresh A p with id := p } := by
  -- the chunk is none of the others
  have hout : p ∉ l ++ [s.rbtree.sentinel, s.head] := fun hmem => hp (h.used.mem_iff.mpr hmem)
  simp only [List.mem_append, List.mem_cons, List.not_mem_nil, or_false, not_or] at hout
  obtain ⟨hpl, hps, hph⟩ := hout
  have hne : ∀ x ∈ l, x ≠ p := by
    rintro x hx rfl
    exact hpl hx
  let s₁ : ZoneMem := (s.take (some p)).fill q p
  have hpt : p ∉ t.inorder := fun hmem => hpl (h.perm.mem_iff.mpr hmem)
  obtain ⟨rbtree, hcode, hrep, hsent, hkey, -⟩ :=
    ngxRbtreeInsert_represents (h.represents.setKey p q.hash) h.redBlack
      (fun node temp => (s₁.lr node).left (s₁.lr temp)) rfl hpt hps (h.depth_lt hfuel)
  let s' : ZoneMem := link A q { s₁ with rbtree := rbtree } p
  obtain ⟨hold₁, hhash₁, hdata₁, hlen₁⟩ := fill_lr hlen s p
  obtain ⟨hold, hself⟩ := link_lr A q s p hkey alloc realloc
  have hkeyp : (s'.lr p).hash = q.hash ∧ (s'.lr p).data = q.data ∧
      (s'.lr p).len = (s'.lr p).data.length := by
    have hlen' : q.data.length % 256 = q.data.length := Nat.mod_eq_of_lt (Nat.lt_succ_of_le hlen)
    rw [hself]
    exact ⟨rfl, rfl, hlen'⟩
  -- the callback compares the keys
  have hless : ∀ x ∈ l, (s₁.lr p).left (s₁.lr x) ↔ (s'.lr p).key < (s'.lr x).key := by
    intro x hx
    have hpp : (s₁.lr p).key = (s'.lr p).key := by
      rw [Node.key, Node.key, hhash₁, hdata₁, hkeyp.1, hkeyp.2.1]
    rw [hold₁ x (hne x hx), Node.left_eq hlen₁ (h.len_eq x hx), hpp, hold x (hne x hx)]
  have hsorted : SearchTree.Sorted (fun x => (s'.lr x).key)
      (SearchTree.insert (fun x => (s₁.lr p).left (s₁.lr x)) p t.forget) := by
    refine SearchTree.Sorted.insert (h.sorted.congr fun x hx => ?_) (fun x hx => ?_) fun x hx =>
      hless x (h.perm.mem_iff.mpr hx)
    · rw [hold x (hne x (h.perm.mem_iff.mpr hx))]
    · have hxl : x ∈ l := h.perm.mem_iff.mpr hx
      rw [hold x (hne x hxl)]
      intro heq
      refine hnew x hxl (Node.key_eq_iff.mp ?_)
      rw [heq, Node.key, hkeyp.1, hkeyp.2.1]
  refine ⟨s', RedBlack.insert (fun x => (s₁.lr p).left (s₁.lr x)) p t,
    congrArg (Option.map _) hcode, ?_, fun x hx => ⟨hne x hx, hold x (hne x hx)⟩, hself⟩
  exact
    { represents := hrep
      redBlack := isRedBlack_insert h.redBlack _ _
      sorted := by
        change (RedBlack.insert _ p t).inorder.Pairwise _
        rw [inorder_insert]
        exact hsorted
      ring := h.ring.insertHead (by
        rw [List.mem_cons, not_or]
        exact ⟨hph, hpl⟩)
      perm := by
        rw [inorder_insert]
        exact (h.perm.cons p).trans (SearchTree.perm_inorder_insert _ _ _).symm
      used := by
        change (p :: s.used).Perm (p :: (l ++ [rbtree.sentinel, s.head]))
        rw [hsent]
        exact h.used.cons p
      len_eq := fun x hx => by
        rcases List.mem_cons.mp hx with rfl | hx
        · exact hkeyp.2.2
        · rw [hold x (hne x hx)]
          exact h.len_eq x hx }

/-- **A new node** for a key that has none. -/
theorem create (A : Arith) {q : MemQuery} {p fuel : Nat} (hlen : q.data.length ≤ 255)
    (hp : p ∉ s.used) (hnew : ∀ x ∈ l, ¬ ((s.lr x).hash = q.hash ∧ (s.lr x).data = q.data))
    (hfuel : 2 * Nat.log 2 (l.length + 1) < fuel) (alloc realloc : Bool) :
    ∃ s' t', (s.take (some p)).create A fuel q p = some s' ∧
      s'.Refines t' (p :: l) (Function.update ids p z.nextId)
        { queue := (q.query alloc realloc).fresh A z.nextId :: z.queue,
          nextId := z.nextId + 1 } := by
  obtain ⟨s', t', hcode, hholds, hold, hself⟩ :=
    h.create_holds A hlen hp hnew hfuel alloc realloc
  -- the new identity is none of the others
  have hids : ∀ x ∈ l, Function.update ids p z.nextId x = ids x := fun x hx =>
    Function.update_of_ne (hold x hx).1 ..
  refine ⟨s', t', hcode, hholds, ?_, fun x hx x' hx' heq => ?_, fun x hx => ?_⟩
  · rw [List.map_cons, h.queue_eq]
    refine congrArg₂ List.cons ?_ (List.map_congr_left fun x hx => ?_)
    · rw [ZoneMem.view, hself, Function.update_self]
      rfl
    · rw [ZoneMem.view, ZoneMem.view, hids x hx, (hold x hx).2]
  · rcases List.mem_cons.mp hx with rfl | hxl <;> rcases List.mem_cons.mp hx' with rfl | hxl'
    · rfl
    · rw [Function.update_self, hids x' hxl'] at heq
      exact absurd heq (h.ids_lt x' hxl').ne'
    · rw [Function.update_self, hids x hxl] at heq
      exact absurd heq (h.ids_lt x hxl).ne
    · rw [hids x hxl, hids x' hxl'] at heq
      exact h.ids_inj x hxl x' hxl' heq
  · rcases List.mem_cons.mp hx with rfl | hx
    · rw [Function.update_self]
      exact Nat.lt_succ_self _
    · rw [hids x hx]
      exact (h.ids_lt x hx).trans (Nat.lt_succ_self _)

/-- A write through a pointer to a node. -/
theorem modify {p : Nat} (hp : p ∈ l) {e : Entry} {f : Node → Node}
    (hdata : e.data = (s.entry p).data) (hlen : e.len = (s.entry p).len)
    (hf : (s.setEntry p e).view ids p = f (s.view ids p)) :
    (s.setEntry p e).Refines t l ids (z.modify (ids p) f) := by
  have hset := h.setEntry hdata hlen
  have hqueue : (z.modify (ids p) f).queue =
      l.map ((s.setEntry p e).view ids) := by
    rw [Zone.modify, h.queue_eq, List.map_map]
    refine List.map_congr_left fun x hx => ?_
    by_cases hxp : x = p
    · subst hxp
      exact (if_pos rfl).trans hf.symm
    · -- another address is another identity
      have hid : ids x ≠ ids p := fun heq => hxp (h.ids_inj x hx p hp heq)
      refine (if_neg hid).trans ?_
      simp [ZoneMem.view, ZoneMem.lr, ZoneMem.setEntry, Function.update_of_ne hxp]
  exact { hset with queue_eq := hqueue }

end ZoneMem.Refines

/-- A write to the node at the front. -/
theorem ZoneMem.Refines.setEntry_front {s : ZoneMem} {t : ColorTree Nat} {p : Nat} {l : List Nat}
    {ids : Nat → Nat} {z : Zone} (h : s.Refines t (p :: l) ids z) {e : Entry}
    (hdata : e.data = (s.entry p).data) (hlen : e.len = (s.entry p).len) :
    (s.setEntry p e).Refines t (p :: l) ids
      { z with queue := (s.setEntry p e).view ids p :: z.queue.tail } := by
  have hset := h.setEntry hdata hlen
  refine { hset with queue_eq := ?_ }
  rw [h.queue_eq, List.map_cons, List.map_cons, List.tail_cons]
  refine congrArg₂ List.cons rfl (List.map_congr_left fun x hx => ?_)
  have hxp : x ≠ p := by
    rintro rfl
    exact (List.nodup_cons.mp h.nodup).1 hx
  simp [ZoneMem.view, ZoneMem.lr, ZoneMem.setEntry, Function.update_of_ne hxp]

/-! ### The lookup -/

/-- What a lookup in memory has in common with that of the queue model. -/
structure MemAnswer.Refines (a : MemAnswer) (l : List Nat) (ids : Nat → Nat) (z : Zone) (b : Answer)
    (t' : ColorTree Nat) (l' : List Nat) (ids' : Nat → Nat) : Prop where
  rc_eq : a.rc = b.rc
  excess_eq : a.excess = b.excess
  mem : a.mem.Refines t' l' ids' b.zone
  pinned_eq : b.pinned = a.pinned.map ids'
  pinned_mem : ∀ p, a.pinned = some p → p ∈ l'
  /-- The nodes are old ones, with their identities, and the one of the key. -/
  old : ∀ x ∈ l', x ∈ l ∧ ids' x = ids x ∨ ids' x = z.nextId
  length_le : l'.length ≤ l.length + 1

namespace ZoneMem.Refines

variable {s : ZoneMem} {t : ColorTree Nat} {l : List Nat} {ids : Nat → Nat} {z : Zone}
  (h : s.Refines t l ids z)

include h

/-- A lookup that finds its node. -/
theorem hit (A : Arith) (q : MemQuery) {p : Nat} (hp : p ∈ l) (alloc realloc : Bool)
    (hs : (q.query alloc realloc).search z.queue = some (s.view ids p)) :
    (s.hit A q p).Refines l ids z (AccessControl.lookup A z (q.query alloc realloc)) t
      (p :: l.erase p) ids := by
  have hfront := h.toFront hp
  have hmem : ∀ x, x ∈ p :: l.erase p → x ∈ l :=
    fun x hx => (List.perm_cons_erase hp).mem_iff.mpr hx
  have hlength : (p :: l.erase p).length ≤ l.length + 1 := by
    rw [← (List.perm_cons_erase hp).length_eq]
    exact Nat.le_succ _
  have hold : ∀ x, x ∈ p :: l.erase p → x ∈ l ∧ ids x = ids x ∨ ids x = z.nextId :=
    fun x hx => Or.inl ⟨hmem x hx, rfl⟩
  let excess := A.charged (s.entry p).excess q.maxtps (A.elapsed q.now (s.entry p).last)
  -- refused, charged at once, or pinned for the charging loop
  by_cases hbusy : A.unsigned ((q.burst : Int) * q.maxtps) < excess
  · have hcode : s.hit A q p =
        { rc := .busy, excess := excess, mem := s.toFront p, pinned := none } := if_pos hbusy
    have habs : AccessControl.lookup A z (q.query alloc realloc) =
        { rc := .busy
          excess := excess
          zone := { z with queue := s.view ids p :: z.queue.erase (s.view ids p) }
          pinned := none } := by
      rw [AccessControl.lookup, hs]
      exact if_pos hbusy
    rw [hcode, habs]
    exact ⟨rfl, rfl, hfront, rfl, fun _ hnone => absurd hnone (by simp), hold, hlength⟩
  have habs : AccessControl.lookup A z (q.query alloc realloc) =
      { rc := if q.account then .ok else .again
        excess := excess
        zone :=
          { z with queue := (q.query alloc realloc).touch A (s.view ids p) ::
              z.queue.erase (s.view ids p) }
        pinned := if q.account then none else some (ids p) } := by
    rw [AccessControl.lookup, hs]
    exact if_neg hbusy
  rw [habs]
  cases hq : q.account with
  | true =>
    let e : Entry := { s.entry p with excess := excess, last := A.clock q.now }
    have hcode : s.hit A q p =
        { rc := .ok, excess := excess, mem := (s.toFront p).setEntry p e, pinned := none } :=
      (if_neg hbusy).trans (if_pos hq)
    have htouch : (q.query alloc realloc).touch A (s.view ids p) =
        ((s.toFront p).setEntry p e).view ids p := by
      rw [Query.touch, show (q.query alloc realloc).account = true from hq]
      simp [ZoneMem.view, ZoneMem.lr, ZoneMem.setEntry, e, ZoneMem.toFront]
      exact ⟨rfl, rfl⟩
    rw [hcode, htouch]
    exact ⟨rfl, rfl, hfront.setEntry_front rfl rfl, rfl, fun _ hnone => absurd hnone (by simp),
      hold, hlength⟩
  | false =>
    let e : Entry := { s.entry p with count := (s.entry p).count + 1 }
    have hcode : s.hit A q p =
        { rc := .again
          excess := excess
          mem := (s.toFront p).setEntry p e
          pinned := some p } :=
      (if_neg hbusy).trans (if_neg (by simp [hq]))
    have htouch : (q.query alloc realloc).touch A (s.view ids p) =
        ((s.toFront p).setEntry p e).view ids p := by
      rw [Query.touch, show (q.query alloc realloc).account = false from hq]
      simp [ZoneMem.view, ZoneMem.lr, ZoneMem.setEntry, e, ZoneMem.toFront]
    rw [hcode, htouch]
    refine ⟨rfl, rfl, hfront.setEntry_front rfl rfl, rfl, fun p' hp' => ?_, hold, hlength⟩
    rw [← Option.some.inj hp']
    exact List.mem_cons_self

/-- A lookup that finds no node. -/
theorem miss (A : Arith) {q : MemQuery} (hlen : q.data.length ≤ 255) {fuel n : Nat}
    (hn : l.length ≤ n) (hfuel : 2 * Nat.log 2 (n + 1) < fuel)
    (hs : ∀ alloc realloc, (q.query alloc realloc).search z.queue = none) :
    ∃ (a : MemAnswer) (t' : ColorTree Nat) (l' : List Nat) (ids' : Nat → Nat)
      (alloc realloc : Bool),
      s.miss A fuel q = some a ∧
      a.Refines l ids z (AccessControl.lookup A z (q.query alloc realloc)) t' l' ids' := by
  obtain ⟨s₁, t₁, l₁, found, alloc, realloc, hroom, hs₁, hsub, hfound, hfree⟩ := h.room A q hn hfuel
  rw [ZoneMem.miss, hroom, Option.bind_some]
  have hlength : l₁.length ≤ l.length := hsub.length_le
  cases found with
  | none =>
    -- both allocations failed
    have hno : ¬ (alloc = true ∨ realloc = true) := fun hor => nomatch hfound.mpr hor
    have habs : AccessControl.lookup A z (q.query alloc realloc) =
        { rc := .error
          excess := 0
          zone := { z with queue := (q.query alloc realloc).room A z.queue }
          pinned := none } := by
      rw [AccessControl.lookup, hs]
      exact if_neg hno
    refine ⟨_, t₁, l₁, ids, alloc, realloc, rfl, ?_⟩
    rw [habs]
    exact ⟨rfl, rfl, hs₁, rfl, nofun, fun x hx => Or.inl ⟨hsub.subset hx, rfl⟩, by omega⟩
  | some p =>
    have hyes : alloc = true ∨ realloc = true := hfound.mp rfl
    have habs : AccessControl.lookup A z (q.query alloc realloc) =
        { rc := if q.account then .ok else .again
          excess := 0
          zone :=
            { queue := (q.query alloc realloc).fresh A z.nextId ::
                (q.query alloc realloc).room A z.queue
              nextId := z.nextId + 1 }
          pinned := if q.account then none else some z.nextId } := by
      rw [AccessControl.lookup, hs]
      exact if_pos hyes
    -- the key still has no node after the expiry
    have hnew : ∀ x ∈ l₁, ¬ ((s₁.lr x).hash = q.hash ∧ (s₁.lr x).data = q.data) := by
      intro x hx hkey
      have hold : s₁.view ids x ∈ z.queue :=
        (q.query alloc realloc).room_subset A z.queue _ (hs₁.mem_queue hx)
      refine Query.search_eq_none.mp (hs alloc realloc) _ hold ?_
      exact (@Node.matches_iff (s₁.view ids x) (hs₁.len_eq x hx) _ _).mpr hkey
    have hlog : Nat.log 2 (l₁.length + 1) ≤ Nat.log 2 (n + 1) :=
      Nat.log_mono_right (by omega)
    obtain ⟨s', t', hcode, hs'⟩ :=
      hs₁.create A hlen (hfree p rfl) hnew (lt_of_le_of_lt (Nat.mul_le_mul_left 2 hlog) hfuel)
        alloc realloc
    have hpl : ∀ x ∈ l₁, x ≠ p := by
      rintro x hx rfl
      exact hfree x rfl (hs₁.used.mem_iff.mpr (List.mem_append_left _ hx))
    refine ⟨_, t', p :: l₁, Function.update ids p z.nextId, alloc, realloc,
      congrArg (Option.map _) hcode, ?_⟩
    rw [habs]
    refine ⟨rfl, rfl, hs', ?_, fun p' hp' => ?_, fun x hx => ?_, Nat.succ_le_succ hlength⟩
    · change (if q.account then none else some z.nextId) =
        (if q.account then none else some p).map (Function.update ids p z.nextId)
      split <;> simp
    · -- a charged node is not pinned
      have hpinned : (if q.account then none else some p) = some p' := hp'
      obtain ⟨-, hpp⟩ := Option.ite_none_left_eq_some.mp hpinned
      rw [← Option.some.inj hpp]
      exact List.mem_cons_self
    · rcases List.mem_cons.mp hx with rfl | hx
      · exact Or.inr (Function.update_self ..)
      · exact Or.inl ⟨hsub.subset hx, Function.update_of_ne (hpl x hx) ..⟩

/-- **The lookup in memory is that of the queue model.** -/
theorem lookup (A : Arith) {q : MemQuery} (hlen : q.data.length ≤ 255) {fuel n : Nat}
    (hn : l.length ≤ n) (hfuel : 2 * Nat.log 2 (n + 1) < fuel) :
    ∃ (a : MemAnswer) (t' : ColorTree Nat) (l' : List Nat) (ids' : Nat → Nat)
      (alloc realloc : Bool),
      s.lookup A fuel q = some a ∧
      a.Refines l ids z (AccessControl.lookup A z (q.query alloc realloc)) t' l' ids' := by
  have hlog : Nat.log 2 (l.length + 1) ≤ Nat.log 2 (n + 1) := Nat.log_mono_right (by omega)
  obtain ⟨found, hfound, hmem, -⟩ :=
    h.search_queue (lt_of_le_of_lt (Nat.mul_le_mul_left 2 hlog) hfuel) q false false
  -- the search does not look at what the pool will answer
  have hsearch : ∀ alloc realloc, (q.query alloc realloc).search z.queue =
      found.map (s.view ids) := by
    intro alloc realloc
    obtain ⟨found', hfound', -, hs⟩ :=
      h.search_queue (lt_of_le_of_lt (Nat.mul_le_mul_left 2 hlog) hfuel) q alloc realloc
    rw [hs, Option.some.inj (hfound'.symm.trans hfound)]
  rw [ZoneMem.lookup, hfound, Option.bind_some]
  cases found with
  | none => exact h.miss A hlen hn hfuel hsearch
  | some p =>
    exact ⟨_, t, p :: l.erase p, ids, false, false, rfl,
      h.hit A q (hmem p rfl) false false (hsearch false false)⟩

end ZoneMem.Refines

/-! ### The workers -/

/-- The memory of a zone, and the `ctx->node` of every worker. -/
structure SharedMem (W : Type) where
  mem : ZoneMem
  node : W → Option Nat

/-- A locked step of a worker. -/
inductive MemStep (W : Type) where
  | lookup (w : W) (q : MemQuery)
  /-- A round of `ngx_http_access_control_account`. -/
  | account (w : W) (now maxtps : Nat)
  /-- A round of the roll-back loop of the handler. -/
  | rollback (w : W)

/-- The key of a lookup has at most 255 bytes. -/
def MemStep.Short {W : Type} : MemStep W → Prop
  | .lookup _ q => q.data.length ≤ 255
  | _ => True

/-- The write of the charging loop. -/
def Entry.settle (A : Arith) (now maxtps : Nat) (e : Entry) : Entry :=
  { e with
    excess := A.charged e.excess maxtps (A.elapsed now e.last)
    last := A.clock now
    count := e.count - 1 }

/-- The write of the roll-back loop. -/
def Entry.release (e : Entry) : Entry := { e with count := e.count - 1 }

namespace SharedMem

variable {W : Type} [DecidableEq W]

/-- The memory at the start, pinned by no worker. -/
def init (m : ZoneMem) (sentinel head : Nat) : SharedMem W :=
  { mem := m.init sentinel head, node := fun _ => none }

/-- A write through `ctx->node`, which is then null. Nothing happens when it is null
already. -/
def giveUp (s : SharedMem W) (w : W) (f : Entry → Entry) : Option (SharedMem W) :=
  match s.node w with
  | none => some s
  | some p =>
    if p ∈ s.mem.used then
      some
        { mem := s.mem.setEntry p (f (s.mem.entry p))
          node := Function.update s.node w none }
    else none

def step (A : Arith) (fuel : Nat) (s : SharedMem W) : MemStep W → Option (SharedMem W)
  | .lookup w q =>
    (s.mem.lookup A fuel q).map fun a =>
      { mem := a.mem, node := Function.update s.node w (a.pinned.or (s.node w)) }
  | .account w now maxtps => s.giveUp w (Entry.settle A now maxtps)
  | .rollback w => s.giveUp w Entry.release

/-- The memory after the steps of the workers, in the order in which they got the lock. -/
def run (A : Arith) (fuel : Nat) (s : SharedMem W) (steps : List (MemStep W)) :
    Option (SharedMem W) :=
  steps.foldlM (step A fuel) s

/-- **The shared memory refines a state of the limiter**, and no worker points to a node
that was freed. -/
structure Refines (s : SharedMem W) (t : ColorTree Nat) (l : List Nat) (ids : Nat → Nat)
    (z : Shared W) : Prop where
  mem : s.mem.Refines t l ids z.zone
  node_eq : ∀ w, z.node w = (s.node w).map ids
  node_mem : ∀ w p, s.node w = some p → p ∈ l

variable {s : SharedMem W} {t : ColorTree Nat} {l : List Nat} {ids : Nat → Nat} {z : Shared W}

/-- A worker that gives up its node. -/
theorem Refines.giveUp (h : s.Refines t l ids z) {w : W} {p : Nat} (hw : s.node w = some p)
    {e : Entry → Entry} {f : Node → Node} (hdata : ∀ x, (e x).data = x.data)
    (hlen : ∀ x, (e x).len = x.len)
    (hf : (s.mem.setEntry p (e (s.mem.entry p))).view ids p = f (s.mem.view ids p)) :
    ∃ s', s.giveUp w e = some s' ∧
      s'.Refines t l ids
        { zone := z.zone.modify (ids p) f, node := Function.update z.node w none } := by
  have hp : p ∈ l := h.node_mem w p hw
  have hused : p ∈ s.mem.used := h.mem.used.mem_iff.mpr (List.mem_append_left _ hp)
  refine ⟨⟨s.mem.setEntry p (e (s.mem.entry p)), Function.update s.node w none⟩, ?_,
    h.mem.modify hp (hdata _) (hlen _) hf, fun w' => ?_, fun w' p' hp' => ?_⟩
  · rw [SharedMem.giveUp, hw]
    exact if_pos hused
  · dsimp only
    by_cases hww : w' = w
    · subst hww
      rw [Function.update_self, Function.update_self, Option.map_none]
    · rw [Function.update_of_ne hww, Function.update_of_ne hww, h.node_eq]
  · exact h.node_mem w' p' (eq_some_of_update_none hp').2

/-- A worker that looks a key up. The nodes that others point to are still there, also when
the address of a node that was expired is used again. -/
theorem Refines.lookup [Fintype W] (h : s.Refines t l ids z) (w : W) {a : MemAnswer} {b : Answer}
    {t' : ColorTree Nat} {l' : List Nat} {ids' : Nat → Nat}
    (hans : a.Refines l ids z.zone b t' l' ids')
    (hpin : Pinned ⟨b.zone, Function.update z.node w (b.pinned.or (z.node w))⟩) :
    Refines ⟨a.mem, Function.update s.node w (a.pinned.or (s.node w))⟩ t' l' ids'
      ⟨b.zone, Function.update z.node w (b.pinned.or (z.node w))⟩ := by
  -- a pointer that the worker has just got, or one that was there before
  have hcases : ∀ w', (∃ p, a.pinned = some p ∧ w' = w) ∨
      Function.update s.node w (a.pinned.or (s.node w)) w' = s.node w' ∧
        Function.update z.node w (b.pinned.or (z.node w)) w' = z.node w' := by
    intro w'
    by_cases hww : w' = w
    · subst hww
      rw [Function.update_self, Function.update_self, hans.pinned_eq]
      cases hp : a.pinned with
      | none => exact Or.inr ⟨rfl, rfl⟩
      | some p => exact Or.inl ⟨p, rfl, rfl⟩
    · rw [Function.update_of_ne hww, Function.update_of_ne hww]
      exact Or.inr ⟨rfl, rfl⟩
  have hkeep : ∀ w' p, s.node w' = some p →
      Function.update z.node w (b.pinned.or (z.node w)) w' = some (ids p) →
      p ∈ l' ∧ ids' p = ids p := by
    intro w' p hp hz
    have hpl : p ∈ l := h.node_mem w' p hp
    obtain ⟨lr, hlr, hid⟩ := hpin.present w' (ids p) hz
    change lr ∈ b.zone.queue at hlr
    rw [hans.mem.queue_eq] at hlr
    obtain ⟨x, hx, rfl⟩ := List.mem_map.mp hlr
    change ids' x = ids p at hid
    rcases hans.old x hx with ⟨hxl, hxid⟩ | hnew
    · obtain rfl : x = p := h.mem.ids_inj x hxl p hpl (hxid.symm.trans hid)
      exact ⟨hx, hxid⟩
    · -- a new identity is not that of an old node
      exact absurd (hid.symm.trans hnew) (h.mem.ids_lt p hpl).ne
  refine ⟨hans.mem, fun w' => ?_, fun w' p hp => ?_⟩
  · rcases hcases w' with ⟨p, hp, rfl⟩ | ⟨hs, hz⟩
    · change Function.update z.node w' (b.pinned.or (z.node w')) w' =
        (Function.update s.node w' (a.pinned.or (s.node w')) w').map ids'
      rw [Function.update_self, Function.update_self, hans.pinned_eq, hp]
      rfl
    · refine hz.trans (((h.node_eq w').trans ?_).trans (congrArg (Option.map ids') hs).symm)
      cases hp : s.node w' with
      | none => rfl
      | some p =>
        have hzp : z.node w' = some (ids p) := by rw [h.node_eq, hp, Option.map_some]
        rw [Option.map_some, Option.map_some, (hkeep w' p hp (hz.trans hzp)).2]
  · rcases hcases w' with ⟨p', hp', rfl⟩ | ⟨hs, hz⟩
    · change Function.update s.node w' (a.pinned.or (s.node w')) w' = some p at hp
      rw [Function.update_self, hp', Option.some_or] at hp
      exact hans.pinned_mem p (hp'.trans hp)
    · have hsp : s.node w' = some p := hs.symm.trans hp
      have hzp : z.node w' = some (ids p) := by rw [h.node_eq, hsp, Option.map_some]
      exact (hkeep w' p hsp (hz.trans hzp)).1

omit [DecidableEq W] in
/-- **A node that a worker points to** is in the tree and in the queue, and its count is at
least the number of these workers. -/
theorem Refines.pinned [Fintype W] (h : s.Refines t l ids z) (hpin : Pinned z) {w : W} {p : Nat}
    (hw : s.node w = some p) :
    p ∈ t.inorder ∧ p ∈ l ∧ (refs s.node p : Int) ≤ (s.mem.entry p).count := by
  have hp : p ∈ l := h.node_mem w p hw
  -- the workers that point to the chunk point to its node in the model
  have hrefs : refs s.node p ≤ refs z.node (ids p) := by
    refine Finset.card_le_card fun w' hw' => ?_
    rw [Finset.mem_filter] at hw' ⊢
    rw [h.node_eq, hw'.2]
    exact ⟨hw'.1, rfl⟩
  have hview : s.mem.view ids p ∈ z.zone.queue := by
    rw [h.mem.queue_eq]
    exact List.mem_map_of_mem hp
  exact ⟨h.mem.perm.mem_iff.mp hp, hp,
    (Int.ofNat_le.mpr hrefs).trans (hpin.refs_le (s.mem.view ids p) hview)⟩

/-- **Every locked step of a worker runs to the end** and refines a step of the limiter. -/
theorem Refines.step [Fintype W] (h : s.Refines t l ids z) (hpin : Pinned z) (A : Arith)
    {a : MemStep W} (ha : a.Short) {fuel n : Nat} (hn : l.length ≤ n)
    (hfuel : 2 * Nat.log 2 (n + 1) < fuel) :
    ∃ (s' : SharedMem W) (t' : ColorTree Nat) (l' : List Nat) (ids' : Nat → Nat) (z' : Shared W),
      s.step A fuel a = some s' ∧ Relation.ReflGen (Step A) z z' ∧ s'.Refines t' l' ids' z' ∧
      l'.length ≤ l.length + 1 := by
  cases a with
  | lookup w q =>
    obtain ⟨b, t', l', ids', alloc, realloc, hcode, hans⟩ := h.mem.lookup A ha hn hfuel
    have hstep := Step.lookup (A := A) z w (q.query alloc realloc)
    refine ⟨_, t', l', ids', _, congrArg (Option.map _) hcode, .single hstep,
      h.lookup w hans (hpin.step hstep), hans.length_le⟩
  | account w now maxtps =>
    cases hw : s.node w with
    | none =>
      exact ⟨s, t, l, ids, z, by rw [SharedMem.step, SharedMem.giveUp, hw], .refl, h,
        Nat.le_succ _⟩
    | some p =>
      obtain ⟨s', hs', href⟩ := h.giveUp hw (e := Entry.settle A now maxtps)
        (f := Node.settle A now maxtps) (fun _ => rfl) (fun _ => rfl)
        (by simp [ZoneMem.view, ZoneMem.lr, ZoneMem.setEntry, Entry.settle, Node.settle])
      have hz : z.node w = some (ids p) := by rw [h.node_eq, hw, Option.map_some]
      exact ⟨s', t, l, ids, _, hs', .single (Step.account z w (ids p) now maxtps hz), href,
        Nat.le_succ _⟩
  | rollback w =>
    cases hw : s.node w with
    | none =>
      exact ⟨s, t, l, ids, z, by rw [SharedMem.step, SharedMem.giveUp, hw], .refl, h,
        Nat.le_succ _⟩
    | some p =>
      obtain ⟨s', hs', href⟩ := h.giveUp hw (e := Entry.release)
        (f := Node.release) (fun _ => rfl) (fun _ => rfl)
        (by simp [ZoneMem.view, ZoneMem.lr, ZoneMem.setEntry, Entry.release, Node.release])
      have hz : z.node w = some (ids p) := by rw [h.node_eq, hw, Option.map_some]
      exact ⟨s', t, l, ids, _, hs', .single (Step.rollback z w (ids p) hz), href, Nat.le_succ _⟩

omit [DecidableEq W] in
/-- The initial memory refines the initial state of the limiter. -/
theorem refines_init (m : ZoneMem) (sentinel head : Nat) :
    (init m sentinel head : SharedMem W).Refines .nil [] id Shared.initial :=
  ⟨m.refines_init, fun _ => rfl, nofun⟩

/-- **Every run of the workers goes to the end** and refines a reachable state. -/
theorem run_refines [Fintype W] (A : Arith) (m : ZoneMem) (sentinel head : Nat)
    {steps : List (MemStep W)} (hshort : ∀ a ∈ steps, a.Short) {fuel n : Nat}
    (hn : steps.length ≤ n) (hfuel : 2 * Nat.log 2 (n + 1) < fuel) :
    ∃ (s : SharedMem W) (t : ColorTree Nat) (l : List Nat) (ids : Nat → Nat) (z : Shared W),
      run A fuel (init m sentinel head) steps = some s ∧ Reachable A z ∧ s.Refines t l ids z ∧
      l.length ≤ steps.length := by
  -- on the steps, the last one last; each adds at most one node
  induction steps using List.reverseRecOn with
  | nil =>
    exact ⟨init m sentinel head, .nil, [], id, Shared.initial, rfl, .refl,
      refines_init m sentinel head, Nat.le_refl _⟩
  | append_singleton steps a ih =>
    rw [List.length_append, List.length_singleton] at hn
    obtain ⟨s, t, l, ids, z, hrun, hz, href, hl⟩ :=
      ih (fun a' ha' => hshort a' (List.mem_append_left _ ha')) (by omega)
    obtain ⟨s', t', l', ids', z', hstep, hzz, href', hl'⟩ :=
      href.step (pinned_of_reachable hz) A (hshort a List.mem_concat_self) (by omega) hfuel
    refine ⟨s', t', l', ids', z', ?_, hz.trans hzz.to_reflTransGen, href', ?_⟩
    · rw [run, List.foldlM_append]
      change (run A fuel (init m sentinel head) steps).bind _ = _
      rw [hrun, Option.bind_some, List.foldlM_cons, hstep]
      rfl
    · rw [List.length_append, List.length_singleton]
      omega

end SharedMem

/-- **Pinned chunks survive in the tree and in the queue.** In the memory that any
interleaving of the workers leaves, a chunk that some worker's `ctx->node` points to is a
node of both, and its count is at least the number of workers that point to it. -/
theorem pinned_chunks_survive {W : Type} [Fintype W] [DecidableEq W] (A : Arith) (m : ZoneMem)
    (sentinel head : Nat) {steps : List (MemStep W)} (hshort : ∀ a ∈ steps, a.Short) {fuel : Nat}
    (hfuel : 2 * Nat.log 2 (steps.length + 1) < fuel) :
    ∃ (s : SharedMem W) (t : ColorTree Nat) (l : List Nat),
      SharedMem.run A fuel (SharedMem.init m sentinel head) steps = some s ∧ s.mem.Holds t l ∧
      ∀ w p, s.node w = some p →
        p ∈ t.inorder ∧ p ∈ l ∧ (refs s.node p : Int) ≤ (s.mem.entry p).count := by
  obtain ⟨s, t, l, ids, z, hrun, hz, href, -⟩ :=
    SharedMem.run_refines A m sentinel head hshort (Nat.le_refl _) hfuel
  exact ⟨s, t, l, hrun, href.mem.toHolds, fun w p hw => href.pinned (pinned_of_reachable hz) hw⟩

/-- **The zone in shared memory is safe and is the limiter.** However the workers are
interleaved, and whatever chunks the pool gives out, no loop takes more than
`2 * log₂ (n + 1)` rounds after `n` steps, no chunk is freed twice, and no worker writes to
a node that was freed. The tree and the queue stay whole and agree, and what they hold
and what the next lookup answers is what a reachable state of the queue model holds and
answers. -/
theorem zone_memory_refines {W : Type} [Fintype W] [DecidableEq W] (A : Arith) (m : ZoneMem)
    (sentinel head : Nat) {steps : List (MemStep W)} (hshort : ∀ a ∈ steps, a.Short) {fuel : Nat}
    (hfuel : 2 * Nat.log 2 (steps.length + 1) < fuel) :
    ∃ (s : SharedMem W) (t : ColorTree Nat) (l : List Nat) (ids : Nat → Nat) (z : Shared W),
      SharedMem.run A fuel (SharedMem.init m sentinel head) steps = some s ∧
      Reachable A z ∧ s.Refines t l ids z ∧
      ∀ q : MemQuery, q.data.length ≤ 255 → ∃ a alloc realloc, s.mem.lookup A fuel q = some a ∧
        a.rc = (lookup A z.zone (q.query alloc realloc)).rc ∧
        a.excess = (lookup A z.zone (q.query alloc realloc)).excess := by
  obtain ⟨s, t, l, ids, z, hrun, hz, href, hl⟩ :=
    SharedMem.run_refines A m sentinel head hshort (Nat.le_refl _) hfuel
  refine ⟨s, t, l, ids, z, hrun, hz, href, fun q hq => ?_⟩
  obtain ⟨a, _, _, _, alloc, realloc, hcode, hans⟩ := href.mem.lookup A hq hl hfuel
  exact ⟨a, alloc, realloc, hcode, hans.rc_eq, hans.excess_eq⟩

/-- A pool of one chunk, at the address `p`. -/
def Alloc.only (p : Nat) : Alloc where
  chunk used := if p ∈ used then none else some p
  notMem used p' h := by
    obtain ⟨hp, heq⟩ := Option.ite_none_left_eq_some.mp h
    rwa [← Option.some.inj heq]

/-- One worker pins a node, another one fails to get a chunk, and the first one charges
its node. -/
theorem zone_memory_refines_full_pool :
    let m : ZoneMem :=
      { rbtree := ⟨fun _ _ => 0, fun _ => 0, fun _ => .red, fun _ => 0, 0, 0⟩
        queue := ⟨fun _ => 0, fun _ => 0⟩
        head := 0
        entry := fun _ => ⟨[], 0, 0, 0, 0⟩
        used := [] }
    let ask : List UInt8 → MemQuery := fun data =>
      { hash := 7, data := data, account := false, maxtps := 1000, burst := 5, now := 60000
        alloc := Alloc.only 3, realloc := Alloc.only 3 }
    let steps : List (MemStep (Fin 2)) :=
      [.lookup 0 (ask [0x6b]), .lookup 1 (ask [0x61]), .account 0 60001 1000]
    ∃ (s : SharedMem (Fin 2)) (t : ColorTree Nat) (l : List Nat) (ids : Nat → Nat)
      (z : Shared (Fin 2)),
      SharedMem.run .exact 5 (SharedMem.init m 1 2) steps = some s ∧
      Reachable .exact z ∧ s.Refines t l ids z ∧
      ∀ q : MemQuery, q.data.length ≤ 255 → ∃ a alloc realloc, s.mem.lookup .exact 5 q = some a ∧
        a.rc = (lookup .exact z.zone (q.query alloc realloc)).rc ∧
        a.excess = (lookup .exact z.zone (q.query alloc realloc)).excess := by
  intro m ask steps
  refine zone_memory_refines .exact m 1 2 (fun a ha => ?_) (by decide)
  simp only [steps, List.mem_cons, List.not_mem_nil, or_false] at ha
  rcases ha with rfl | rfl | rfl
  · exact (by decide : [(0x6b : UInt8)].length ≤ 255)
  · exact (by decide : [(0x61 : UInt8)].length ≤ 255)
  · trivial

end AccessControl
