import Amoeba.Nginx.RbTreeInsert
import Amoeba.Nginx.RbTreeDelete

/-!
# Changes of a red-black tree

Insertions and removals by `ngx_rbtree_insert` and `ngx_rbtree_delete` in any
order. The caller sets the key of a node before it inserts it, and a removed node
may come back with another key.

* `HoldsSorted` — a memory that holds a red-black tree in the order of a key, and
  what one change does to it.
* `rbtree_runs` — under any changes the tree in memory is a sorted list, with equal
  keys in the order of their insertion.
-/

namespace Nginx

open RedBlack
open RedBlack.ColorTree hiding node

/-! ### The changes -/

/-- A change of the tree. -/
inductive RbOp where
  /-- The caller sets `node->key` and inserts the node. -/
  | insert (node key : Nat)
  | delete (node : Nat)

/-- The code of a change. -/
def RbOp.run (callback : RbTree → Nat → Nat → Option RbTree) (fuel : Nat) (s : RbTree) :
    RbOp → Option RbTree
  | .insert node key => ngxRbtreeInsert callback fuel (s.setKey node key) node
  | .delete node => ngxRbtreeDelete fuel s node

/-- What the tree is: a sequence of nodes, and the keys with which they were inserted. -/
structure KeySeq where
  nodes : List Nat
  keys : Nat → Nat

section

universe v

variable {κ : Type v} [LinearOrder κ] (ord : Nat → Nat → κ)

/-- The place of a node in the order. -/
def KeySeq.rank (q : KeySeq) (node : Nat) : κ := ord node (q.keys node)

/-- What a change does to the sequence. -/
def RbOp.seq (q : KeySeq) : RbOp → KeySeq
  | .insert node key =>
    let q := { q with keys := Function.update q.keys node key }
    { q with nodes := SearchTree.place (q.rank ord) node q.nodes }
  | .delete node => { q with nodes := q.nodes.erase node }

/-- A node that is inserted is not in the tree, and a node that is removed is. -/
def RbOp.Allowed (sentinel : Nat) (l : List Nat) : RbOp → Prop
  | .insert node _ => node ∉ l ∧ node ≠ sentinel
  | .delete node => node ∈ l

/-- Every change is allowed when it happens. -/
def AllowedRun (sentinel : Nat) : KeySeq → List RbOp → Prop
  | _, [] => True
  | q, op :: ops => op.Allowed sentinel q.nodes ∧ AllowedRun sentinel (op.seq ord q) ops

end

/-! ### One change -/

/-- A memory that holds a red-black tree in the order of a key. -/
structure HoldsSorted {κ : Type*} [LinearOrder κ] (key : Nat → κ) (s : RbTree) (t : ColorTree Nat) :
    Prop where
  represents : Represents s t
  redBlack : t.IsRedBlack
  sorted : t.inorder.Pairwise fun a b => key a ≤ key b

namespace HoldsSorted

variable {κ : Type*} [LinearOrder κ] {key : Nat → κ} {s : RbTree} {t : ColorTree Nat}

/-- The tree that `ngx_rbtree_init` leaves. -/
theorem empty (hroot : s.root = s.sentinel) (hblack : s.color s.sentinel = .black) :
    HoldsSorted key s .nil where
  represents := ⟨hroot, trivial, trivial, trivial, List.nodup_nil, List.not_mem_nil, hblack⟩
  redBlack := isRedBlack_nil
  sorted := .nil

variable (h : HoldsSorted key s t)

include h

theorem depth_lt {n fuel : Nat} (hn : t.inorder.length ≤ n) (hfuel : 2 * Nat.log 2 (n + 1) < fuel) :
    t.depth < fuel := by
  have hlog : Nat.log 2 (t.inorder.length + 1) ≤ Nat.log 2 (n + 1) :=
    Nat.log_mono_right (Nat.succ_le_succ hn)
  have hdepth := h.redBlack.depth_le
  omega

/-- A key that is written elsewhere, and another order that agrees on the nodes. -/
theorem setKey {key' : Nat → κ} (hkey : ∀ a ∈ t.inorder, key' a = key a) (node k : Nat) :
    HoldsSorted key' (s.setKey node k) t where
  represents := h.represents.setKey node k
  redBlack := h.redBlack
  sorted := h.sorted.imp_of_mem fun {a b} ha hb hle => by
    rw [hkey a ha, hkey b hb]
    exact hle

/-- **An insertion** puts the node behind those with its key. -/
theorem insert {less : Nat → Nat → Bool} {node n fuel : Nat}
    {insert : RbTree → Nat → Nat → Option RbTree}
    (hinsert : insert s s.root node = insertValue less fuel s s.root node)
    (hn : t.inorder.length ≤ n) (hfuel : 2 * Nat.log 2 (n + 1) < fuel)
    (hless : ∀ a ∈ t.inorder, less node a ↔ key node < key a) (hnode : node ∉ t.inorder)
    (hsent : node ≠ s.sentinel) :
    ∃ s' t', ngxRbtreeInsert insert fuel s node = some s' ∧ HoldsSorted key s' t' ∧
      t'.inorder = SearchTree.place key node t.inorder ∧ s'.sentinel = s.sentinel ∧
      s'.key = s.key := by
  obtain ⟨s', hcode, hrep, hs, hk, -⟩ :=
    ngxRbtreeInsert_represents h.represents h.redBlack less hinsert hnode hsent
      (h.depth_lt hn hfuel)
  -- the callback goes down to the place that the order asks for
  have hinorder : (RedBlack.insert (less node) node t).inorder =
      SearchTree.place key node t.inorder := by
    rw [inorder_insert]
    exact SearchTree.inorder_insert_eq_place h.sorted hless
  refine ⟨s', _, hcode, ⟨hrep, isRedBlack_insert h.redBlack _ _, ?_⟩, hinorder, hs, hk⟩
  rw [hinorder]
  exact SearchTree.pairwise_place h.sorted node

/-- **A removal** takes the node out. -/
theorem delete {node n fuel : Nat} (hn : t.inorder.length ≤ n)
    (hfuel : 2 * Nat.log 2 (n + 1) < fuel) (hnode : node ∈ t.inorder) :
    ∃ s' t', ngxRbtreeDelete fuel s node = some s' ∧ HoldsSorted key s' t' ∧
      t'.inorder = t.inorder.erase node ∧ s'.sentinel = s.sentinel ∧
      ∀ x, x ≠ node → s'.key x = s.key x := by
  -- the code is given the node, the proof its place in the tree
  obtain ⟨path, c, l, r, rfl⟩ := exists_location hnode
  obtain ⟨s', hcode, hrep, hs, hk, -⟩ :=
    ngxRbtreeDelete_represents h.represents h.redBlack (h.depth_lt hn hfuel)
  have hinorder := inorder_deleteAt_erase h.represents.nodup
  refine ⟨s', deleteAt path c l r, hcode, ⟨hrep, isRedBlack_deleteAt h.redBlack, ?_⟩, hinorder,
    hs, hk⟩
  rw [hinorder]
  -- what is left of a sorted list is sorted
  exact h.sorted.sublist List.erase_sublist

end HoldsSorted

/-! ### Runs of changes -/

/-- **The tree in memory is the sequence**, with the keys of its nodes. -/
structure KeySeq.HeldBy {κ : Type*} [LinearOrder κ] (ord : Nat → Nat → κ) (q : KeySeq) (s : RbTree)
    (t : ColorTree Nat) : Prop where
  tree : HoldsSorted (q.rank ord) s t
  inorder_eq : t.inorder = q.nodes
  key_eq : ∀ a ∈ q.nodes, s.key a = q.keys a

namespace KeySeq.HeldBy

variable {κ : Type*} [LinearOrder κ] {ord : Nat → Nat → κ} {q : KeySeq} {s : RbTree}
  {t : ColorTree Nat} {less : RbTree → Nat → Nat → Bool} {n fuel : Nat}
  {callback : RbTree → Nat → Nat → Option RbTree}

/-- **An insertion with a key**, for a callback that compares the keys in memory. -/
theorem insert (h : q.HeldBy ord s t)
    (hless : ∀ s a b, less s a b ↔ ord a (s.key a) < ord b (s.key b))
    (hcallback : ∀ s temp node, callback s temp node = insertValue (less s) fuel s temp node)
    (hn : q.nodes.length ≤ n) (hfuel : 2 * Nat.log 2 (n + 1) < fuel) {node key : Nat}
    (hnode : node ∉ q.nodes) (hsent : node ≠ s.sentinel) :
    ∃ s' t', (RbOp.insert node key).run callback fuel s = some s' ∧
      ((RbOp.insert node key).seq ord q).HeldBy ord s' t' ∧ s'.sentinel = s.sentinel := by
  let q₁ : KeySeq := { q with keys := Function.update q.keys node key }
  let s₁ := s.setKey node key
  have hne : ∀ a ∈ q.nodes, a ≠ node := by
    rintro a ha rfl
    exact hnode ha
  have hself : s₁.key node = q₁.keys node := by
    change Function.update s.key node key node = Function.update q.keys node key node
    rw [Function.update_self, Function.update_self]
  have hkeys : ∀ a ∈ q.nodes, s₁.key a = q₁.keys a := fun a ha => by
    change Function.update s.key node key a = Function.update q.keys node key a
    rw [Function.update_of_ne (hne a ha), Function.update_of_ne (hne a ha), h.key_eq a ha]
  have hrank : ∀ a ∈ t.inorder, q₁.rank ord a = q.rank ord a := by
    intro a ha
    rw [h.inorder_eq] at ha
    change ord a (Function.update q.keys node key a) = ord a (q.keys a)
    rw [Function.update_of_ne (hne a ha)]
  have htree : HoldsSorted (q₁.rank ord) s₁ t := h.tree.setKey hrank node key
  have hcompare : ∀ a ∈ t.inorder, less s₁ node a ↔ q₁.rank ord node < q₁.rank ord a := by
    intro a ha
    rw [h.inorder_eq] at ha
    rw [hless, hself, hkeys a ha]
    rfl
  rw [← h.inorder_eq] at hn hnode
  obtain ⟨s', t', hcode, htree', hinorder, hsent', hkey'⟩ :=
    htree.insert (hcallback s₁ s₁.root node) hn hfuel hcompare hnode hsent
  refine ⟨s', t', hcode, ⟨htree', hinorder.trans (congrArg _ h.inorder_eq), fun a ha => ?_⟩, hsent'⟩
  rw [hkey']
  rcases List.mem_cons.mp ((SearchTree.perm_place _ _ _).mem_iff.mp ha) with rfl | ha
  · exact hself
  · exact hkeys a ha

/-- **A removal** leaves the keys of the others. -/
theorem delete (h : q.HeldBy ord s t) (hn : q.nodes.length ≤ n)
    (hfuel : 2 * Nat.log 2 (n + 1) < fuel) {node : Nat} (hnode : node ∈ q.nodes) :
    ∃ s' t', (RbOp.delete node).run callback fuel s = some s' ∧
      ((RbOp.delete node).seq ord q).HeldBy ord s' t' ∧ s'.sentinel = s.sentinel := by
  have hnodup : q.nodes.Nodup := h.inorder_eq ▸ h.tree.represents.nodup
  rw [← h.inorder_eq] at hn hnode
  obtain ⟨s', t', hcode, htree', hinorder, hsent', hkey'⟩ := h.tree.delete hn hfuel hnode
  refine ⟨s', t', hcode, ⟨htree', hinorder.trans (congrArg (List.erase · node) h.inorder_eq),
    fun a ha => ?_⟩, hsent'⟩
  obtain ⟨hne, hmem⟩ := hnodup.mem_erase_iff.mp ha
  rw [hkey' a hne]
  exact h.key_eq a hmem

/-- **One change** does to the tree in memory what it does to the sequence, which grows by
one node at most. -/
theorem step (h : q.HeldBy ord s t)
    (hless : ∀ s a b, less s a b ↔ ord a (s.key a) < ord b (s.key b))
    (hcallback : ∀ s temp node, callback s temp node = insertValue (less s) fuel s temp node)
    (hn : q.nodes.length ≤ n) (hfuel : 2 * Nat.log 2 (n + 1) < fuel) {op : RbOp}
    (hop : op.Allowed s.sentinel q.nodes) :
    ∃ s' t', op.run callback fuel s = some s' ∧ (op.seq ord q).HeldBy ord s' t' ∧
      (op.seq ord q).nodes.length ≤ q.nodes.length + 1 ∧ s'.sentinel = s.sentinel := by
  cases op with
  | insert node key =>
    obtain ⟨s', t', hcode, h', hsent⟩ := h.insert hless hcallback hn hfuel hop.1 hop.2
    refine ⟨s', t', hcode, h', ?_, hsent⟩
    -- only an insertion makes the sequence longer
    rw [RbOp.seq, (SearchTree.perm_place _ node _).length_eq, List.length_cons]
  | delete node =>
    obtain ⟨s', t', hcode, h', hsent⟩ := h.delete hn hfuel hop
    exact ⟨s', t', hcode, h', List.erase_sublist.length_le.trans (Nat.le_succ _), hsent⟩

/-- **A run of changes**, by induction on those still to come; the tree leaves room for
them. -/
theorem run (h : q.HeldBy ord s t)
    (hless : ∀ s a b, less s a b ↔ ord a (s.key a) < ord b (s.key b))
    (hcallback : ∀ s temp node, callback s temp node = insertValue (less s) fuel s temp node)
    (hfuel : 2 * Nat.log 2 (n + 1) < fuel) {ops : List RbOp}
    (hn : q.nodes.length + ops.length ≤ n) (hops : AllowedRun ord s.sentinel q ops) :
    ∃ s' t', ops.foldlM (RbOp.run callback fuel) s = some s' ∧
      (ops.foldl (RbOp.seq ord) q).HeldBy ord s' t' := by
  induction ops generalizing s t q with
  | nil => exact ⟨s, t, rfl, h⟩
  | cons op ops ih =>
    obtain ⟨hop, hrest⟩ := hops
    rw [List.length_cons] at hn
    -- the length grows with the changes that are made, as those to come get fewer
    obtain ⟨s₁, t₁, hcode, h₁, hlen, hsent⟩ := h.step hless hcallback (by omega) hfuel hop
    obtain ⟨s', t', hrun, h'⟩ := ih h₁ (by omega) (hsent ▸ hrest)
    refine ⟨s', t', ?_, h'⟩
    rw [List.foldlM_cons]
    exact (congrArg (Option.bind · _) hcode).trans hrun

end KeySeq.HeldBy

/-- **`ngx_rbtree_t` is a sorted list under any insertions and removals**, with equal keys
in the order of their insertion. The callback compares nodes by their keys in memory, and
perhaps by what else is known of a node; a node may come back with another key. No loop
takes more than `2 * log₂ (n + 1)` rounds for `n` changes. -/
theorem rbtree_runs {κ : Type*} [LinearOrder κ] (ord : Nat → Nat → κ)
    {less : RbTree → Nat → Nat → Bool}
    (hless : ∀ s a b, less s a b ↔ ord a (s.key a) < ord b (s.key b)) {fuel : Nat}
    {callback : RbTree → Nat → Nat → Option RbTree}
    (hcallback : ∀ s temp node, callback s temp node = insertValue (less s) fuel s temp node)
    {s : RbTree} (hroot : s.root = s.sentinel) (hblack : s.color s.sentinel = .black)
    {ops : List RbOp} (hops : AllowedRun ord s.sentinel ⟨[], s.key⟩ ops)
    (hfuel : 2 * Nat.log 2 (ops.length + 1) < fuel) :
    ∃ s' t, ops.foldlM (RbOp.run callback fuel) s = some s' ∧ Represents s' t ∧ t.IsRedBlack ∧
      t.inorder = (ops.foldl (RbOp.seq ord) ⟨[], s.key⟩).nodes ∧
      (∀ a ∈ t.inorder, s'.key a = (ops.foldl (RbOp.seq ord) ⟨[], s.key⟩).keys a) ∧
      (t.inorder.Pairwise fun a b => ord a (s'.key a) ≤ ord b (s'.key b)) ∧
      t.depth ≤ 2 * Nat.log 2 (t.inorder.length + 1) := by
  have hempty : (⟨[], s.key⟩ : KeySeq).HeldBy ord s .nil :=
    ⟨.empty hroot hblack, rfl, fun a ha => absurd ha List.not_mem_nil⟩
  obtain ⟨s', t, hcode, h⟩ := hempty.run hless hcallback hfuel (by simp) hops
  have hkeys := h.key_eq
  rw [← h.inorder_eq] at hkeys
  refine ⟨s', t, hcode, h.tree.represents, h.tree.redBlack, h.inorder_eq, hkeys, ?_,
    h.tree.redBlack.depth_le⟩
  -- the keys in memory are those of the sequence
  refine h.tree.sorted.imp_of_mem fun {a b} ha hb hle => ?_
  rw [hkeys a ha, hkeys b hb]
  exact hle

/-- Two nodes with one key, the first of which is removed and comes back with another. -/
theorem rbtree_runs_tie :
    let s : RbTree := ⟨fun _ _ => 0, fun _ => 0, fun _ => .black, fun _ => 0, 9, 9⟩
    let ord : Nat → Nat → Nat := fun _ key => key
    let ops : List RbOp := [.insert 4 2, .insert 2 1, .insert 5 2, .delete 4, .insert 4 1]
    ∃ s' t, ops.foldlM (RbOp.run (ngxRbtreeInsertValue 6) 6) s = some s' ∧ Represents s' t ∧
      t.IsRedBlack ∧ t.inorder = (ops.foldl (RbOp.seq ord) ⟨[], s.key⟩).nodes ∧
      (∀ a ∈ t.inorder, s'.key a = (ops.foldl (RbOp.seq ord) ⟨[], s.key⟩).keys a) ∧
      (t.inorder.Pairwise fun a b => s'.key a ≤ s'.key b) ∧
      t.depth ≤ 2 * Nat.log 2 (t.inorder.length + 1) := by
  intro s ord ops
  refine rbtree_runs ord (fun _ _ _ => decide_eq_true_iff) (fun _ _ _ => rfl) rfl rfl ?_ (by decide)
  exact ⟨⟨by decide, by decide⟩, ⟨by decide, by decide⟩, ⟨by decide, by decide⟩,
    (by decide : 4 ∈ [2, 4, 5]), ⟨by decide, by decide⟩, trivial⟩

end Nginx
