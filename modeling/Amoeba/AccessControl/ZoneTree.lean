import Mathlib.Data.Prod.Lex
import Mathlib.Data.List.Lex
import Amoeba.AccessControl.Limiter
import Amoeba.SearchTree.Basic

/-!
# The two structures of a zone

A zone keeps its nodes in two linked structures at once: a red-black tree
ordered by hash and bytes, which `ngx_http_access_control_lookup` searches and
`ngx_http_access_control_rbtree_insert_value` grows, and a queue, most recently
used first, from whose end `ngx_http_access_control_expire` removes. The model
of the limiter has the queue alone; here both are kept, as pointers into the
memory of the nodes.

The rebalancing of `ngx_rbtree_insert` and `ngx_rbtree_delete` is any change of
the tree that keeps its in-order sequence. The descent of the insertion and the
unlinking of a node are modelled.

* `Node.side_eq`, `Node.left_eq` — the comparisons of the search and of the
  insertion, written separately, follow one linear order.
* `Shm.Sound` — the invariant that links the tree, the queue and the history.
* `Shm.lookup_refines`, `Shm.expire_refines` — on sound states both calls do
  what the queue model does.
* `zone_is_keyed_map` — a zone is a keyed map with its entries in the order of
  their last lookup, in every state that calls reach.
-/

namespace AccessControl

open Nginx SearchTree

/-! ### The order of the tree -/

/-- The key of a node: its hash, then its bytes. -/
def Node.key (lr : Node) : Nat ×ₗ List Nat := toLex (lr.hash, lr.data.map UInt8.toNat)

/-- The comparison of the search loop: on which side of `lr` the searched key is. -/
def Node.side (hash : Nat) (data : List UInt8) (lr : Node) : Ordering :=
  if hash < lr.hash then .lt
  else if hash > lr.hash then .gt
  else
    let rc := ngxMemn2cmp data lr.data data.length lr.len
    if rc = 0 then .eq else if rc < 0 then .lt else .gt

/-- The comparison of `ngx_http_access_control_rbtree_insert_value`: the new node
`lrn` goes to the left of `lrnt`. -/
def Node.left (lrn lrnt : Node) : Bool :=
  if lrn.hash < lrnt.hash then true
  else if lrn.hash > lrnt.hash then false
  else ngxMemn2cmp lrn.data lrnt.data lrn.len lrnt.len < 0

theorem map_toNat_inj {a b : List UInt8} : a.map UInt8.toNat = b.map UInt8.toNat ↔ a = b :=
  (List.map_injective_iff.mpr fun _ _ h => UInt8.toNat_inj.mp h).eq_iff

theorem Node.key_eq_iff {lr : Node} {hash : Nat} {data : List UInt8} :
    lr.key = toLex (hash, data.map UInt8.toNat) ↔ lr.hash = hash ∧ lr.data = data := by
  rw [Node.key, toLex_inj, Prod.mk.injEq, map_toNat_inj]

/-- **The search follows the order of the keys.** -/
theorem Node.side_eq {lr : Node} (hlen : lr.len = lr.data.length) (hash : Nat)
    (data : List UInt8) :
    lr.side hash data = cmp (toLex (hash, data.map UInt8.toNat)) lr.key := by
  rw [Node.side, Node.key, hlen]
  rcases lt_trichotomy hash lr.hash with hlt | rfl | hgt
  · rw [if_pos hlt, eq_comm, cmp_eq_lt_iff, Prod.Lex.toLex_lt_toLex]
    exact Or.inl hlt
  · -- equal hashes: the bytes decide, and then the lengths
    rw [if_neg (lt_irrefl _), if_neg (lt_irrefl _)]
    dsimp only
    by_cases heq : data = lr.data
    · rw [if_pos (ngxMemn2cmp_self_iff.mpr heq), eq_comm, cmp_eq_eq_iff, heq]
    rw [if_neg (fun h => heq (ngxMemn2cmp_self_iff.mp h))]
    by_cases hlt : data.map UInt8.toNat < lr.data.map UInt8.toNat
    · rw [if_pos (ngxMemn2cmp_lt_zero.mpr hlt), eq_comm, cmp_eq_lt_iff,
        Prod.Lex.toLex_lt_toLex]
      exact Or.inr ⟨rfl, hlt⟩
    · rw [if_neg (fun h => hlt (ngxMemn2cmp_lt_zero.mp h)), eq_comm, cmp_eq_gt_iff,
        Prod.Lex.toLex_lt_toLex]
      have hne : lr.data.map UInt8.toNat ≠ data.map UInt8.toNat :=
        fun h => heq (map_toNat_inj.mp h.symm)
      exact Or.inr ⟨rfl, lt_of_le_of_ne (not_lt.mp hlt) hne⟩
  · rw [if_neg hgt.asymm, if_pos hgt, eq_comm, cmp_eq_gt_iff, Prod.Lex.toLex_lt_toLex]
    exact Or.inl hgt

/-- **The insertion follows the same order.** -/
theorem Node.left_eq {lrn lrnt : Node} (hlen : lrn.len = lrn.data.length)
    (hlent : lrnt.len = lrnt.data.length) : lrn.left lrnt ↔ lrn.key < lrnt.key := by
  rw [Node.left, Node.key, Node.key, Prod.Lex.toLex_lt_toLex, hlen, hlent]
  -- the same three cases as in the search loop, written the other way round
  rcases lt_trichotomy lrn.hash lrnt.hash with hlt | heq | hgt
  · simp [hlt]
  · simp [heq, ngxMemn2cmp_lt_zero]
  · simp [hgt, hgt.asymm, hgt.ne']

/-! ### The shared memory of a zone -/

/-- What a call did; the code keeps no such record. -/
inductive ShmEvent where
  /-- A lookup was answered with the node `p`. -/
  | looked (p : Nat)
  /-- The node `p` was allocated for the key. -/
  | created (p hash : Nat) (data : List UInt8)
  /-- The node `p` was removed from both structures and freed. -/
  | removed (p : Nat)
  deriving DecidableEq, Repr

/-- The shared memory of a zone: the nodes, and the two structures that point to
them. -/
structure Shm where
  node : Nat → Node
  tree : BinaryTree Nat
  /-- The queue, most recently used first. -/
  queue : List Nat
  nextId : Nat
  /-- The history, latest event first. -/
  log : List ShmEvent

/-- The zone as `ngx_http_access_control_init_zone` leaves it. -/
def Shm.initial : Shm where
  node := fun p => ⟨p, 0, [], 0, 0, 0, 0⟩
  tree := .nil
  queue := []
  nextId := 0
  log := []

/-- The zone without its tree. -/
def Shm.zone (s : Shm) : Zone := { queue := s.queue.map s.node, nextId := s.nextId }

/-- `ngx_queue_remove`, `ngx_rbtree_delete` and `ngx_slab_free_locked`. -/
def Shm.remove (rot : Rotation Nat) (s : Shm) (p : Nat) : Shm :=
  { s with
    tree := rot.fix (unlink p s.tree)
    queue := s.queue.erase p
    log := .removed p :: s.log }

/-- The loop of `ngx_http_access_control_expire` with `k` rounds to go. -/
def Shm.expireLoop (A : Arith) (rot : Rotation Nat) (now maxtps : Nat) : Nat → Shm → Shm
  | 0, s => s
  | k + 1, s =>
    match s.queue.getLast? with
    | none => s
    | some p =>
      if (s.node p).count ≠ 0 then s
      else if k + 1 = 3 ∨ (s.node p).Stale A now maxtps then
        Shm.expireLoop A rot now maxtps k (s.remove rot p)
      else s

/-- `ngx_http_access_control_expire(ctx, n, maxtps)` -/
def Shm.expire (A : Arith) (rot : Rotation Nat) (now n maxtps : Nat) (s : Shm) : Shm :=
  s.expireLoop A rot now maxtps (3 - n)

/-- The search loop of the lookup. -/
def Shm.search (s : Shm) (hash : Nat) (data : List UInt8) : Option Nat :=
  find (fun p => (s.node p).side hash data) s.tree

/-- `ngx_queue_remove` and `ngx_queue_insert_head` of a node that was found. -/
def Shm.toFront (s : Shm) (p : Nat) : Shm :=
  { s with queue := p :: s.queue.erase p, log := .looked p :: s.log }

/-- A write to a node. -/
def Shm.write (s : Shm) (p : Nat) (lr : Node) : Shm :=
  { s with node := Function.update s.node p lr }

/-- A new node is filled in, inserted into the tree and put at the front of the
queue. -/
def Shm.insert (rot : Rotation Nat) (s : Shm) (lr : Node) : Shm where
  node := Function.update s.node s.nextId lr
  tree := rot.fix (SearchTree.insert (fun p => lr.left (s.node p)) s.nextId s.tree)
  queue := s.nextId :: s.queue
  nextId := s.nextId + 1
  log := .looked s.nextId :: .created s.nextId lr.hash lr.data :: s.log

/-- The memory in which a miss looks for room: after the opportunistic expiry, and
after the forced one when the first allocation fails. -/
def Shm.room (A : Arith) (rot : Rotation Nat) (q : Query) (s : Shm) : Shm :=
  let s := s.expire A rot q.now 1 q.maxtps
  if q.alloc then s else s.expire A rot q.now 0 q.maxtps

/-- What a call of `ngx_http_access_control_lookup` returns and leaves behind. -/
structure ShmAnswer where
  rc : Rc
  /-- `*ep` -/
  excess : Nat
  shm : Shm
  /-- The value assigned to `ctx->node`, if any. -/
  pinned : Option Nat

/-- `ngx_http_access_control_lookup` -/
def Shm.lookup (A : Arith) (rot : Rotation Nat) (s : Shm) (q : Query) : ShmAnswer :=
  match s.search q.hash q.data with
  | some p =>
    let lr := s.node p
    let excess := A.charged lr.excess q.maxtps (A.elapsed q.now lr.last)
    if A.unsigned (q.burst * q.maxtps) < excess then
      { rc := .busy, excess := excess, shm := s.toFront p, pinned := none }
    else
      { rc := if q.account then .ok else .again
        excess := excess
        -- the write goes through the pointer, the structures stay
        shm := (s.toFront p).write p (q.touch A lr)
        pinned := if q.account then none else some p }
  | none =>
    let s := s.room A rot q
    if q.alloc ∨ q.realloc then
      { rc := if q.account then .ok else .again
        excess := 0
        shm := s.insert rot (q.fresh A s.nextId)
        pinned := if q.account then none else some s.nextId }
    else { rc := .error, excess := 0, shm := s, pinned := none }

/-! ### The invariant -/

/-- **The tree, the queue and the history agree.** -/
structure Shm.Sound (s : Shm) : Prop where
  /-- The tree is ordered, without two nodes for one key. -/
  sorted : Sorted (fun p => (s.node p).key) s.tree
  /-- Both structures point to the same nodes. -/
  perm : s.queue.Perm (inorder s.tree)
  id_eq : ∀ p ∈ s.queue, (s.node p).id = p
  id_lt : ∀ p ∈ s.queue, p < s.nextId
  len_eq : ∀ p ∈ s.queue, (s.node p).len = (s.node p).data.length
  /-- The nodes are those that were created and not removed since. -/
  live : ∀ p hash data, .created p hash data ∈ s.log ∧ .removed p ∉ s.log ↔
    p ∈ s.queue ∧ (s.node p).hash = hash ∧ (s.node p).data = data
  created_lt : ∀ p hash data, .created p hash data ∈ s.log → p < s.nextId
  removed_lt : ∀ p, .removed p ∈ s.log → p < s.nextId
  /-- The queue is in the order of the last lookups. -/
  recent : s.queue.Pairwise fun p p' =>
    s.log.idxOf (.looked p) < s.log.idxOf (.looked p')

theorem Shm.sound_initial : Shm.initial.Sound where
  sorted := sorted_nil
  perm := .nil
  id_eq := by simp [Shm.initial]
  id_lt := by simp [Shm.initial]
  len_eq := by simp [Shm.initial]
  live := by simp [Shm.initial]
  created_lt := by simp [Shm.initial]
  removed_lt := by simp [Shm.initial]
  recent := .nil

namespace Shm.Sound

variable {s : Shm} (h : s.Sound)

include h

theorem mem_tree {p : Nat} : p ∈ inorder s.tree ↔ p ∈ s.queue := h.perm.mem_iff.symm

theorem nodup : s.queue.Nodup := h.perm.nodup_iff.mpr h.sorted.nodup

/-- The node of a key is the only one. -/
theorem eq_of_key {p p' : Nat} (hp : p ∈ s.queue) (hp' : p' ∈ s.queue)
    (hhash : (s.node p).hash = (s.node p').hash) (hdata : (s.node p).data = (s.node p').data) :
    p = p' := by
  refine h.sorted.eq_of_key (h.mem_tree.mpr hp) (h.mem_tree.mpr hp') ?_
  rw [Node.key, Node.key, hhash, hdata]

/-- **The search reaches the node of the key, exactly when there is one.** -/
theorem search_eq_some_iff {hash : Nat} {data : List UInt8} {p : Nat} :
    s.search hash data = some p ↔
      p ∈ s.queue ∧ (s.node p).hash = hash ∧ (s.node p).data = data := by
  rw [Shm.search, find_eq_some_iff h.sorted fun a ha =>
    Node.side_eq (h.len_eq a (h.mem_tree.mp ha)) hash data, h.mem_tree, Node.key_eq_iff]

theorem search_eq_none_iff {hash : Nat} {data : List UInt8} :
    s.search hash data = none ↔
      ∀ p ∈ s.queue, ¬ ((s.node p).hash = hash ∧ (s.node p).data = data) := by
  rw [Option.eq_none_iff_forall_ne_some]
  constructor
  · intro hno p hp hkey
    exact hno p (h.search_eq_some_iff.mpr ⟨hp, hkey⟩)
  · intro hno p hp
    obtain ⟨hmem, hkey⟩ := h.search_eq_some_iff.mp hp
    exact hno p hmem hkey

/-- Removing a node keeps the invariant. -/
theorem remove (rot : Rotation Nat) {p : Nat} (hp : p ∈ s.queue) : (s.remove rot p).Sound := by
  -- the tree loses the node and keeps the order of the others
  have hinorder : inorder (rot.fix (unlink p s.tree)) = (inorder s.tree).erase p := by
    rw [rot.inorder_fix, inorder_unlink h.sorted.nodup]
  have hmem : ∀ {x}, x ∈ s.queue.erase p ↔ x ≠ p ∧ x ∈ s.queue := fun {x} =>
    h.nodup.mem_erase_iff
  refine ⟨?_, ?_, fun x hx => h.id_eq x (hmem.mp hx).2, fun x hx => h.id_lt x (hmem.mp hx).2,
    fun x hx => h.len_eq x (hmem.mp hx).2, fun x hash data => ?_, fun x hash data hx => ?_,
    fun x hx => ?_, ?_⟩
  · refine h.sorted.of_sublist ?_
    change (inorder (rot.fix (unlink p s.tree))).Sublist (inorder s.tree)
    rw [hinorder]
    exact List.erase_sublist
  · change (s.queue.erase p).Perm (inorder (rot.fix (unlink p s.tree)))
    rw [hinorder]
    exact h.perm.erase p
  · -- the removed node leaves the queue and the set of live nodes at once
    have hlive := h.live x hash data
    change _ ↔ x ∈ s.queue.erase p ∧ (s.node x).hash = hash ∧ (s.node x).data = data
    rw [hmem, and_assoc, ← hlive]
    simp only [Shm.remove, List.mem_cons, reduceCtorEq, false_or, ShmEvent.removed.injEq]
    tauto
  · exact h.created_lt x hash data (by simpa [Shm.remove] using hx)
  · rcases List.mem_cons.mp hx with hx | hx
    · obtain rfl : x = p := by simpa using hx
      exact h.id_lt x hp
    · exact h.removed_lt x hx
  · -- a removal is not a lookup
    refine (h.recent.sublist List.erase_sublist).imp fun hlt => ?_
    simpa [Shm.remove, List.idxOf_cons] using hlt

/-- Moving a node to the front keeps the invariant: it is the last one looked up. -/
theorem toFront {p : Nat} (hp : p ∈ s.queue) : (s.toFront p).Sound := by
  have hperm : s.queue.Perm (p :: s.queue.erase p) := List.perm_cons_erase hp
  have hmem : ∀ x ∈ (s.toFront p).queue, x ∈ s.queue := fun x hx => hperm.mem_iff.mpr hx
  refine ⟨h.sorted, hperm.symm.trans h.perm, fun x hx => h.id_eq x (hmem x hx),
    fun x hx => h.id_lt x (hmem x hx), fun x hx => h.len_eq x (hmem x hx), fun x hash data => ?_,
    fun x hash data hx => ?_, fun x hx => ?_, ?_⟩
  · have hlive := h.live x hash data
    change _ ↔ x ∈ p :: s.queue.erase p ∧ (s.node x).hash = hash ∧ (s.node x).data = data
    rw [← hperm.mem_iff, ← hlive]
    simp [Shm.toFront]
  · exact h.created_lt x hash data (by simpa [Shm.toFront] using hx)
  · exact h.removed_lt x (by simpa [Shm.toFront] using hx)
  · -- the new entry of the history is the one of `p`; the others keep their distances
    refine List.pairwise_cons.mpr ⟨fun x hx => ?_, ?_⟩
    · have hne : x ≠ p := (h.nodup.mem_erase_iff.mp hx).1
      simp [Shm.toFront, hne.symm]
    · have hrest : (s.queue.erase p).Pairwise fun a b =>
          s.log.idxOf (.looked a) < s.log.idxOf (.looked b) :=
        h.recent.sublist List.erase_sublist
      refine List.Pairwise.imp_of_mem (fun {a b} ha hb hlt => ?_) hrest
      have hap : p ≠ a := (h.nodup.mem_erase_iff.mp ha).1.symm
      have hbp : p ≠ b := (h.nodup.mem_erase_iff.mp hb).1.symm
      simpa [Shm.toFront, List.idxOf_cons, hap, hbp] using hlt

/-- A write that leaves the key of a node keeps the invariant. -/
theorem write {p : Nat} {lr : Node} (hid : lr.id = (s.node p).id)
    (hhash : lr.hash = (s.node p).hash) (hdata : lr.data = (s.node p).data)
    (hlen : lr.len = (s.node p).len) : (s.write p lr).Sound := by
  -- the fields that the structures depend on are not written
  have hsame : ∀ x, ((s.write p lr).node x).id = (s.node x).id ∧
      ((s.write p lr).node x).hash = (s.node x).hash ∧
      ((s.write p lr).node x).data = (s.node x).data ∧
      ((s.write p lr).node x).len = (s.node x).len := by
    intro x
    by_cases hx : x = p
    · subst hx
      simp [Shm.write, hid, hhash, hdata, hlen]
    · simp [Shm.write, Function.update_of_ne hx]
  refine ⟨?_, h.perm, fun x hx => ?_, h.id_lt, fun x hx => ?_, fun x hash data => ?_, h.created_lt,
    h.removed_lt, h.recent⟩
  · refine h.sorted.congr fun x _ => ?_
    rw [Node.key, Node.key, (hsame x).2.1, (hsame x).2.2.1]
  · rw [(hsame x).1]
    exact h.id_eq x hx
  · rw [(hsame x).2.2.2, (hsame x).2.2.1]
    exact h.len_eq x hx
  · rw [(hsame x).2.1, (hsame x).2.2.1]
    exact h.live x hash data

/-- Inserting a node for a key that has none keeps the invariant. -/
theorem insert (rot : Rotation Nat) {lr : Node} (hid : lr.id = s.nextId)
    (hlen : lr.len = lr.data.length)
    (hnew : ∀ p ∈ s.queue, ¬ ((s.node p).hash = lr.hash ∧ (s.node p).data = lr.data)) :
    (s.insert rot lr).Sound := by
  -- the memory of the new node belongs to no other
  have hfresh : ∀ {x}, x ∈ s.queue → x ≠ s.nextId := fun {x} hx => (h.id_lt x hx).ne
  have hnode : ∀ x, x ≠ s.nextId → (s.insert rot lr).node x = s.node x := fun x hx =>
    Function.update_of_ne hx _ _
  have hself : (s.insert rot lr).node s.nextId = lr := Function.update_self _ _ _
  refine ⟨?_, ?_, fun x hx => ?_, fun x hx => ?_, fun x hx => ?_, fun x hash data => ?_,
    fun x hash data hx => ?_, fun x hx => ?_, ?_⟩
  · -- the descent compares the new node with the nodes as they are
    refine Sorted.fix (Sorted.insert ?_ (fun x hx => ?_) fun x hx => ?_) rot
    · refine h.sorted.congr fun x hx => ?_
      rw [hnode x (hfresh (h.mem_tree.mp hx))]
    · rw [hnode x (hfresh (h.mem_tree.mp hx)), hself]
      intro hkey
      exact hnew x (h.mem_tree.mp hx) (Node.key_eq_iff.mp hkey)
    · rw [hnode x (hfresh (h.mem_tree.mp hx)), hself]
      exact Node.left_eq hlen (h.len_eq x (h.mem_tree.mp hx))
  · change (s.nextId :: s.queue).Perm (inorder (rot.fix _))
    rw [rot.inorder_fix]
    exact (h.perm.cons _).trans (perm_inorder_insert _ _ _).symm
  · rcases List.mem_cons.mp hx with rfl | hx
    · rw [hself, hid]
    · rw [hnode x (hfresh hx)]
      exact h.id_eq x hx
  · rcases List.mem_cons.mp hx with rfl | hx
    · exact Nat.lt_succ_self _
    · exact (h.id_lt x hx).trans (Nat.lt_succ_self _)
  · rcases List.mem_cons.mp hx with rfl | hx
    · rw [hself, hlen]
    · rw [hnode x (hfresh hx)]
      exact h.len_eq x hx
  · by_cases hx : x = s.nextId
    · -- the new node has no history
      subst hx
      have hnone : ShmEvent.removed s.nextId ∉ s.log := fun hmem =>
        absurd (h.removed_lt _ hmem) (lt_irrefl _)
      have hnot : ShmEvent.created s.nextId hash data ∉ s.log := fun hmem =>
        absurd (h.created_lt _ _ _ hmem) (lt_irrefl _)
      rw [hself]
      simp [Shm.insert, hnone, hnot, eq_comm]
    · have hlive := h.live x hash data
      rw [hnode x hx]
      simpa [Shm.insert, hx] using hlive
  · by_cases hxn : x = s.nextId
    · rw [hxn]
      exact Nat.lt_succ_self _
    · exact (h.created_lt x hash data (by simpa [Shm.insert, hxn] using hx)).trans
        (Nat.lt_succ_self _)
  · exact (h.removed_lt x (by simpa [Shm.insert] using hx)).trans (Nat.lt_succ_self _)
  · refine List.pairwise_cons.mpr ⟨fun x hx => ?_, ?_⟩
    · simp [Shm.insert, (hfresh hx).symm]
    · refine List.Pairwise.imp_of_mem (fun {a b} ha hb hlt => ?_) h.recent
      simpa [Shm.insert, List.idxOf_cons, (hfresh ha).symm, (hfresh hb).symm] using hlt

end Shm.Sound

/-! ### Expiry and lookup on sound states -/

theorem erase_getLast {l : List Nat} (hl : l.Nodup) {p : Nat} (hp : l.getLast? = some p) :
    l.erase p = l.dropLast := by
  obtain ⟨l, rfl⟩ := List.getLast?_eq_some_iff.mp hp
  have hnot : p ∉ l := fun hmem => (List.nodup_append.mp hl).2.2 p hmem p (by simp) rfl
  rw [List.erase_append_right _ hnot, List.dropLast_concat]
  simp

theorem map_erase_of_inj {f : Nat → Node} {l : List Nat} {p : Nat}
    (hinj : ∀ x ∈ l, f x = f p → x = p) : (l.erase p).map f = (l.map f).erase (f p) := by
  -- on the list, up to the element itself
  induction l with
  | nil => rfl
  | cons x l ih =>
    rw [List.map_cons]
    by_cases hx : x = p
    · rw [hx, List.erase_cons_head, List.erase_cons_head]
    · have hfx : f x ≠ f p := fun heq => hx (hinj x (by simp) heq)
      rw [List.erase_cons_tail (by simpa using hx), List.erase_cons_tail (by simpa using hfx),
        List.map_cons, ih fun y hy => hinj y (by simp [hy])]

/-- **The expiry on a sound state** keeps it sound, leaves the nodes' memory and
removes from the queue what the queue model removes. -/
theorem Shm.Sound.expireLoop {s : Shm} (h : s.Sound) (A : Arith) (rot : Rotation Nat)
    (now maxtps k : Nat) :
    (s.expireLoop A rot now maxtps k).Sound ∧
      (s.expireLoop A rot now maxtps k).node = s.node ∧
      (s.expireLoop A rot now maxtps k).queue.Sublist s.queue ∧
      (s.expireLoop A rot now maxtps k).zone =
        { s.zone with queue := AccessControl.expireLoop A now maxtps k s.zone.queue } := by
  -- on the rounds, both loops side by side
  induction k generalizing s with
  | zero => exact ⟨h, rfl, .refl _, rfl⟩
  | succ k ih =>
    rw [Shm.expireLoop, AccessControl.expireLoop]
    have hlast : s.zone.queue.getLast? = s.queue.getLast?.map s.node := List.getLast?_map
    rw [hlast]
    cases hp : s.queue.getLast? with
    | none => exact ⟨h, rfl, .refl _, rfl⟩
    | some p =>
      rw [Option.map_some]
      dsimp only
      by_cases hcount : (s.node p).count ≠ 0
      · rw [if_pos hcount, if_pos hcount]
        exact ⟨h, rfl, .refl _, rfl⟩
      rw [if_neg hcount, if_neg hcount]
      by_cases hgo : k + 1 = 3 ∨ (s.node p).Stale A now maxtps
      · rw [if_pos hgo, if_pos hgo]
        have hmem : p ∈ s.queue := List.mem_of_getLast? hp
        obtain ⟨hsound, hnode, hsub, hzone⟩ := ih (h.remove rot hmem)
        refine ⟨hsound, hnode, hsub.trans List.erase_sublist, ?_⟩
        rw [hzone]
        -- the removed node is the last one of the queue
        have hqueue : (s.remove rot p).zone.queue = s.zone.queue.dropLast := by
          change (s.queue.erase p).map s.node = (s.queue.map s.node).dropLast
          rw [erase_getLast h.nodup hp, List.map_dropLast]
        rw [hqueue]
        rfl
      · rw [if_neg hgo, if_neg hgo]
        exact ⟨h, rfl, .refl _, rfl⟩

theorem Shm.Sound.expire {s : Shm} (h : s.Sound) (A : Arith) (rot : Rotation Nat)
    (now n maxtps : Nat) : (s.expire A rot now n maxtps).Sound :=
  (h.expireLoop A rot now maxtps (3 - n)).1

/-- **The expiry refines that of the queue model.** -/
theorem Shm.expire_refines {s : Shm} (h : s.Sound) (A : Arith) (rot : Rotation Nat)
    (now n maxtps : Nat) :
    (s.expire A rot now n maxtps).zone =
      { s.zone with queue := AccessControl.expire A now n maxtps s.zone.queue } :=
  (h.expireLoop A rot now maxtps (3 - n)).2.2.2

theorem Shm.Sound.room {s : Shm} (h : s.Sound) (A : Arith) (rot : Rotation Nat) (q : Query) :
    (s.room A rot q).Sound ∧ (s.room A rot q).node = s.node ∧
      (s.room A rot q).queue.Sublist s.queue ∧
      (s.room A rot q).zone = { s.zone with queue := q.room A s.zone.queue } := by
  have h₁ := h.expireLoop A rot q.now q.maxtps (3 - 1)
  unfold Shm.room Query.room
  dsimp only
  by_cases ha : q.alloc
  · rw [if_pos ha, if_pos ha]
    exact h₁
  · rw [if_neg ha, if_neg ha]
    have h₂ := h₁.1.expireLoop A rot q.now q.maxtps (3 - 0)
    refine ⟨h₂.1, h₂.2.1.trans h₁.2.1, h₂.2.2.1.trans h₁.2.2.1, h₂.2.2.2.trans ?_⟩
    rw [h₁.2.2.2]
    rfl

/-- The test of the queue model on a node of a sound state. -/
theorem Node.matches_iff {lr : Node} (hlen : lr.len = lr.data.length) {hash : Nat}
    {data : List UInt8} : lr.Matches hash data ↔ lr.hash = hash ∧ lr.data = data := by
  rw [Node.Matches, hlen, decide_eq_true_eq, ngxMemn2cmp_self_iff, eq_comm (a := data)]

/-- The tree search and the search of the queue model find the same node. -/
theorem Shm.Sound.search_zone {s : Shm} (h : s.Sound) (q : Query) :
    q.search s.zone.queue = (s.search q.hash q.data).map s.node := by
  have hmatch : ∀ p ∈ s.queue,
      ((s.node p).Matches q.hash q.data ↔ (s.node p).hash = q.hash ∧ (s.node p).data = q.data) :=
    fun p hp => Node.matches_iff (h.len_eq p hp)
  cases hs : s.search q.hash q.data with
  | none =>
    rw [Option.map_none, Query.search_eq_none]
    intro lr hlr hm
    obtain ⟨p, hp, rfl⟩ := List.mem_map.mp hlr
    exact h.search_eq_none_iff.mp hs p hp ((hmatch p hp).mp hm)
  | some p =>
    obtain ⟨hp, hkey⟩ := h.search_eq_some_iff.mp hs
    cases hq : q.search s.zone.queue with
    | none =>
      exact absurd ((hmatch p hp).mpr hkey)
        (Query.search_eq_none.mp hq (s.node p) (List.mem_map_of_mem hp))
    | some lr =>
      obtain ⟨hlr, hm⟩ := Query.mem_of_search hq
      obtain ⟨p', hp', rfl⟩ := List.mem_map.mp hlr
      -- both have the key, and there is one node for it
      have hkey' := (hmatch p' hp').mp hm
      rw [h.eq_of_key hp' hp (hkey'.1.trans hkey.1.symm) (hkey'.2.trans hkey.2.symm), Option.map_some]

/-- **What a lookup can do to a sound memory**: refuse the node of the key, write
to it, insert one, or make room in vain. -/
theorem Shm.lookup_cases (A : Arith) (rot : Rotation Nat) (s : Shm) (q : Query) :
    (∃ p, s.search q.hash q.data = some p ∧ (s.lookup A rot q).shm = s.toFront p) ∨
    (∃ p, s.search q.hash q.data = some p ∧
      (s.lookup A rot q).shm = (s.toFront p).write p (q.touch A (s.node p))) ∨
    (s.search q.hash q.data = none ∧
      (s.lookup A rot q).shm =
        (s.room A rot q).insert rot (q.fresh A (s.room A rot q).nextId)) ∨
    s.search q.hash q.data = none ∧ (s.lookup A rot q).shm = s.room A rot q := by
  unfold Shm.lookup
  cases hs : s.search q.hash q.data with
  | some p =>
    dsimp only
    split
    · exact Or.inl ⟨p, rfl, rfl⟩
    · exact Or.inr (Or.inl ⟨p, rfl, rfl⟩)
  | none =>
    dsimp only
    split
    · exact Or.inr (Or.inr (Or.inl ⟨rfl, rfl⟩))
    · exact Or.inr (Or.inr (Or.inr ⟨rfl, rfl⟩))

theorem Query.touch_key (A : Arith) (q : Query) (lr : Node) :
    (q.touch A lr).hash = lr.hash ∧ (q.touch A lr).data = lr.data ∧
      (q.touch A lr).len = lr.len := by
  unfold Query.touch
  split <;> exact ⟨rfl, rfl, rfl⟩

/-- A lookup of a key of at most 255 bytes keeps the invariant. -/
theorem Shm.Sound.lookup {s : Shm} (h : s.Sound) (A : Arith) (rot : Rotation Nat) {q : Query}
    (hlen : q.data.length ≤ 255) : (s.lookup A rot q).shm.Sound := by
  rcases Shm.lookup_cases A rot s q with ⟨p, hs, heq⟩ | ⟨p, hs, heq⟩ | ⟨hs, heq⟩ | ⟨-, heq⟩
  · rw [heq]
    exact h.toFront (h.search_eq_some_iff.mp hs).1
  · rw [heq]
    obtain ⟨hhash, hdata, hlen⟩ := q.touch_key A (s.node p)
    exact (h.toFront (h.search_eq_some_iff.mp hs).1).write (q.touch_id A _) hhash hdata hlen
  · rw [heq]
    obtain ⟨hsound, hnode, hsub, -⟩ := h.room A rot q
    -- at most 255 bytes: the length byte is the length
    refine hsound.insert rot rfl (Nat.mod_eq_of_lt (by omega)) fun p hp => ?_
    rw [hnode]
    exact h.search_eq_none_iff.mp hs p (hsub.subset hp)
  · rw [heq]
    exact (h.room A rot q).1

/-- The queue behind a node that was moved to its front. -/
theorem Shm.Sound.zone_rest {s : Shm} (h : s.Sound) {p : Nat} (hp : p ∈ s.queue) :
    (s.queue.erase p).map s.node = s.zone.queue.erase (s.node p) :=
  map_erase_of_inj fun x hx heq => by rw [← h.id_eq x hx, heq, h.id_eq p hp]

theorem Shm.Sound.zone_toFront {s : Shm} (h : s.Sound) {p : Nat} (hp : p ∈ s.queue) :
    (s.toFront p).zone = { s.zone with queue := s.node p :: s.zone.queue.erase (s.node p) } := by
  rw [← h.zone_rest hp]
  rfl

theorem Shm.Sound.zone_write {s : Shm} (h : s.Sound) {p : Nat} (hp : p ∈ s.queue) (lr : Node) :
    ((s.toFront p).write p lr).zone =
      { s.zone with queue := lr :: s.zone.queue.erase (s.node p) } := by
  -- the node behind the pointer is not one of the others
  have hne : ∀ x ∈ s.queue.erase p, x ≠ p := fun x hx => (h.nodup.mem_erase_iff.mp hx).1
  have hothers : (s.queue.erase p).map (Function.update s.node p lr) =
      (s.queue.erase p).map s.node :=
    List.map_congr_left fun x hx => Function.update_of_ne (hne x hx) _ _
  have hfront : (p :: s.queue.erase p).map (Function.update s.node p lr) =
      lr :: s.zone.queue.erase (s.node p) := by
    rw [List.map_cons, Function.update_self, hothers, h.zone_rest hp]
  exact congrArg (fun queue => ({ queue := queue, nextId := s.nextId } : Zone)) hfront

theorem Shm.Sound.zone_insert {s : Shm} (h : s.Sound) (rot : Rotation Nat) (lr : Node) :
    (s.insert rot lr).zone = { queue := lr :: s.zone.queue, nextId := s.nextId + 1 } := by
  have hothers : s.queue.map (Function.update s.node s.nextId lr) = s.zone.queue :=
    List.map_congr_left fun x hx => Function.update_of_ne (h.id_lt x hx).ne _ _
  have hfront : (s.nextId :: s.queue).map (Function.update s.node s.nextId lr) =
      lr :: s.zone.queue := by
    rw [List.map_cons, Function.update_self, hothers]
  exact congrArg (fun queue => ({ queue := queue, nextId := s.nextId + 1 } : Zone)) hfront

/-- **The lookup refines that of the queue model**: the same answer, and the same
queue afterwards. -/
theorem Shm.lookup_refines {s : Shm} (h : s.Sound) (A : Arith) (rot : Rotation Nat) (q : Query) :
    (s.lookup A rot q).rc = (AccessControl.lookup A s.zone q).rc ∧
      (s.lookup A rot q).excess = (AccessControl.lookup A s.zone q).excess ∧
      (s.lookup A rot q).shm.zone = (AccessControl.lookup A s.zone q).zone ∧
      (s.lookup A rot q).pinned = (AccessControl.lookup A s.zone q).pinned := by
  -- the search agrees, so both take the same branch
  have hsearch := h.search_zone q
  unfold Shm.lookup AccessControl.lookup
  rw [hsearch]
  cases hs : s.search q.hash q.data with
  | some p =>
    have hp : p ∈ s.queue := (h.search_eq_some_iff.mp hs).1
    rw [Option.map_some]
    dsimp only
    split
    · exact ⟨rfl, rfl, h.zone_toFront hp, rfl⟩
    · exact ⟨rfl, rfl, h.zone_write hp _, by rw [h.id_eq p hp]⟩
  | none =>
    obtain ⟨hsound, -, -, hzone⟩ := h.room A rot q
    have hnext : (s.room A rot q).nextId = s.zone.nextId := congrArg Zone.nextId hzone
    rw [Option.map_none]
    dsimp only
    split
    · refine ⟨rfl, rfl, ?_, by rw [hnext]⟩
      have hinsert := hsound.zone_insert rot (q.fresh A (s.room A rot q).nextId)
      rw [hzone] at hinsert
      dsimp only at hinsert ⊢
      rw [hinsert, hnext]
    · exact ⟨rfl, rfl, hzone, rfl⟩

/-! ### Every run of calls -/

/-- A call on a zone, or a write of the charging or the roll-back loop through the
pointer `p`. -/
inductive ShmCall where
  | lookup (rot : Rotation Nat) (q : Query)
  | expire (rot : Rotation Nat) (now n maxtps : Nat)
  | settle (p now maxtps : Nat)
  | release (p : Nat)

/-- The memory after a call. -/
def Shm.call (A : Arith) (s : Shm) : ShmCall → Shm
  | .lookup rot q => (s.lookup A rot q).shm
  | .expire rot now n maxtps => s.expire A rot now n maxtps
  | .settle p now maxtps => s.write p ((s.node p).settle A now maxtps)
  | .release p => s.write p (s.node p).release

/-- The memory after a sequence of calls on an empty zone. -/
def Shm.run (A : Arith) (calls : List ShmCall) : Shm := calls.foldl (Shm.call A) Shm.initial

/-- The key of a lookup has at most 255 bytes. -/
def ShmCall.Short : ShmCall → Prop
  | .lookup _ q => q.data.length ≤ 255
  | _ => True

/-- **Every call keeps the invariant.** -/
theorem Shm.Sound.call {s : Shm} (h : s.Sound) (A : Arith) {c : ShmCall} (hc : c.Short) :
    (s.call A c).Sound := by
  cases c with
  | lookup rot q => exact h.lookup A rot hc
  | expire rot now n maxtps => exact h.expire A rot now n maxtps
  | settle p now maxtps => exact h.write rfl rfl rfl rfl
  | release p => exact h.write rfl rfl rfl rfl

theorem Shm.sound_run (A : Arith) {calls : List ShmCall} (hcalls : ∀ c ∈ calls, c.Short) :
    (Shm.run A calls).Sound := by
  unfold Shm.run
  -- on the calls, the last one last
  induction calls using List.reverseRecOn with
  | nil => exact Shm.sound_initial
  | append_singleton calls c ih =>
    rw [List.foldl_append, List.foldl_cons, List.foldl_nil]
    exact (ih fun c' hc' => hcalls c' (by simp [hc'])).call A (hcalls c (by simp))

/-- **A keyed map with its entries in the order of their last lookup.** -/
structure KeyedMap (A : Arith) (s : Shm) : Prop where
  /-- The tree holds the nodes that were created and not removed since, each under
  the key it was created for. -/
  nodes : ∀ p hash data, p ∈ inorder s.tree ∧ (s.node p).hash = hash ∧ (s.node p).data = data ↔
    .created p hash data ∈ s.log ∧ .removed p ∉ s.log
  /-- Each of them once, and no two for one key. -/
  nodup : (inorder s.tree).Nodup
  one : ∀ p ∈ inorder s.tree, ∀ p' ∈ inorder s.tree, (s.node p).hash = (s.node p').hash →
    (s.node p).data = (s.node p').data → p = p'
  /-- The search reaches the node of a key, exactly when there is one. -/
  search : ∀ hash data p, s.search hash data = some p ↔
    p ∈ inorder s.tree ∧ (s.node p).hash = hash ∧ (s.node p).data = data
  /-- A lookup does not write to the node of another key. -/
  write : ∀ rot q, ∀ p ∈ inorder s.tree, ¬ ((s.node p).hash = q.hash ∧ (s.node p).data = q.data) →
    (s.lookup A rot q).shm.node p = s.node p
  /-- Its answer does not depend on what the nodes of other keys hold. -/
  read : ∀ rot q m, (∀ p, (m p).hash = (s.node p).hash ∧ (m p).data = (s.node p).data ∧
      (m p).len = (s.node p).len) →
    (∀ p, (s.node p).hash = q.hash → (s.node p).data = q.data → m p = s.node p) →
    (Shm.lookup A rot { s with node := m } q).rc = (s.lookup A rot q).rc ∧
      (Shm.lookup A rot { s with node := m } q).excess = (s.lookup A rot q).excess
  /-- The queue holds the nodes of the tree, last looked up first. -/
  perm : s.queue.Perm (inorder s.tree)
  recent : s.queue.Pairwise fun p p' =>
    s.log.idxOf (.looked p) < s.log.idxOf (.looked p')

/-- A lookup writes only to the node of its key and to a new one. -/
theorem Shm.Sound.lookup_node {s : Shm} (h : s.Sound) (A : Arith) (rot : Rotation Nat) (q : Query)
    {p : Nat} (hp : p ∈ s.queue) (hkey : ¬ ((s.node p).hash = q.hash ∧ (s.node p).data = q.data)) :
    (s.lookup A rot q).shm.node p = s.node p := by
  obtain ⟨-, hnode, -, hzone⟩ := h.room A rot q
  have hnext : (s.room A rot q).nextId = s.nextId := congrArg Zone.nextId hzone
  rcases Shm.lookup_cases A rot s q with ⟨p', hs, heq⟩ | ⟨p', hs, heq⟩ | ⟨hs, heq⟩ | ⟨-, heq⟩
  · rw [heq]
    rfl
  · -- the node of the key is another one
    have hne : p ≠ p' := fun hpp => hkey (hpp ▸ (h.search_eq_some_iff.mp hs).2)
    rw [heq]
    exact Function.update_of_ne hne _ _
  · -- so is the new one
    have hne : p ≠ (s.room A rot q).nextId := by
      rw [hnext]
      exact (h.id_lt p hp).ne
    rw [heq, ← hnode]
    exact Function.update_of_ne hne _ _
  · rw [heq, hnode]

/-- The answer of a lookup is read off the node of its key. -/
theorem Shm.lookup_answer_congr {s : Shm} (A : Arith) (rot : Rotation Nat) (q : Query)
    {m : Nat → Node} (hsearch : Shm.search { s with node := m } q.hash q.data =
      s.search q.hash q.data) (hnode : ∀ p, s.search q.hash q.data = some p → m p = s.node p) :
    (Shm.lookup A rot { s with node := m } q).rc = (s.lookup A rot q).rc ∧
      (Shm.lookup A rot { s with node := m } q).excess = (s.lookup A rot q).excess := by
  unfold Shm.lookup
  rw [hsearch]
  cases hs : s.search q.hash q.data with
  | some p =>
    dsimp only
    rw [hnode p hs]
    split <;> exact ⟨rfl, rfl⟩
  | none =>
    dsimp only
    split <;> exact ⟨rfl, rfl⟩

/-- **The zone is a keyed map with LRU order**, in every state that a sequence of
lookups and expiries, and of the writes of charges and roll-backs between them,
reaches from the empty zone, for keys of at most 255 bytes, whatever their
hashes and however the tree is rebalanced. -/
theorem zone_is_keyed_map (A : Arith) {calls : List ShmCall} (hcalls : ∀ c ∈ calls, c.Short) :
    KeyedMap A (Shm.run A calls) := by
  have h := Shm.sound_run A hcalls
  refine ⟨fun p hash data => ?_, h.sorted.nodup, fun p hp p' hp' => ?_, fun hash data p => ?_,
    fun rot q p hp hkey => ?_, fun rot q m hsame hq => ?_, h.perm, h.recent⟩
  · rw [h.mem_tree, h.live]
  · exact h.eq_of_key (h.mem_tree.mp hp) (h.mem_tree.mp hp')
  · rw [h.mem_tree, h.search_eq_some_iff]
  · exact h.lookup_node A rot q (h.mem_tree.mp hp) hkey
  · refine Shm.lookup_answer_congr A rot q ?_ fun p hp => ?_
    · -- the search reads hashes, bytes and lengths only
      have hside : ∀ p, (m p).side q.hash q.data = ((Shm.run A calls).node p).side q.hash q.data := by
        intro p
        rw [Node.side, Node.side, (hsame p).1, (hsame p).2.1, (hsame p).2.2]
      exact congrArg (find · (Shm.run A calls).tree) (funext hside)
    · obtain ⟨-, hhash, hdata⟩ := h.search_eq_some_iff.mp hp
      exact hq p hhash hdata

/-- Three keys with one hash: the second key is looked up again at the end. -/
theorem zone_is_keyed_map_collision :
    let ask := fun data : List UInt8 => ShmCall.lookup Rotation.none
      { hash := 7, data := data, account := true, maxtps := 1000, burst := 5, now := 60000
        meets := 0, alloc := true, realloc := true }
    let s := Shm.run .exact [ask [0x6b], ask [0x6b, 0x31], ask [0x61], ask [0x6b, 0x31]]
    inorder s.tree = [2, 0, 1] ∧ s.queue = [1, 2, 0] ∧
      s.queue.map (fun p => (s.node p).excess) = [1000, 0, 0] ∧ KeyedMap .exact s := by
  intro ask s
  refine ⟨by decide, by decide, by decide, zone_is_keyed_map .exact fun c hc => ?_⟩
  have hshort : ∀ data : List UInt8, data.length ≤ 255 → (ask data).Short := fun _ h => h
  simp only [List.mem_cons, List.not_mem_nil, or_false] at hc
  rcases hc with rfl | rfl | rfl | rfl <;> exact hshort _ (by decide)

end AccessControl
