import Amoeba.Nginx.RbTree

/-!
# `ngx_rbtree_insert`

The descent of the insertion callbacks and the rebalancing of `ngx_rbtree_insert`
in memory.

* `ngxRbtreeInsert_represents` — on a red-black tree the code runs to the end, on
  fuel of the order of the logarithm of the number of nodes, and leaves the tree of
  the abstract insertion, without a write to any other node.
-/

namespace Nginx

open RedBlack
open RedBlack.ColorTree hiding node

/-! ### The code -/

/-- The loop of the insertion callbacks: the node under which the new one is put, and
on which side. -/
def insertDescend (less : Nat → Nat → Bool) (s : RbTree) (node : Nat) :
    Nat → Nat → Option (Nat × Side)
  | 0, _ => none
  | fuel + 1, temp =>
    let p : Side := if less node temp then .left else .right
    if s.child p temp = s.sentinel then some (temp, p)
    else insertDescend less s node fuel (s.child p temp)

/-- The end of the insertion callbacks. -/
def insertLink (s : RbTree) (temp : Nat) (p : Side) (node : Nat) : RbTree :=
  let s := s.setChild p temp node
  let s := s.setParent node temp
  let s := s.setChild .left node s.sentinel
  let s := s.setChild .right node s.sentinel
  s.setColor node .red

/-- An insertion callback that compares nodes with `less`. -/
def insertValue (less : Nat → Nat → Bool) (fuel : Nat) (s : RbTree) (temp node : Nat) :
    Option RbTree :=
  (insertDescend less s node fuel temp).map fun p => insertLink s p.1 p.2 node

/-- `ngx_rbtree_insert_value` -/
def ngxRbtreeInsertValue (fuel : Nat) (s : RbTree) (temp node : Nat) : Option RbTree :=
  insertValue (fun node temp => s.key node < s.key temp) fuel s temp node

/-- The comparison of `ngx_rbtree_insert_timer_value`, on keys of `w` bits: the difference
is negative as a signed number. -/
def timerLess (w : Nat) (s : RbTree) (node temp : Nat) : Bool :=
  (BitVec.ofNat w (s.key node) - BitVec.ofNat w (s.key temp)).msb

/-- `ngx_rbtree_insert_timer_value` -/
def ngxRbtreeInsertTimerValue (w fuel : Nat) (s : RbTree) (temp node : Nat) : Option RbTree :=
  insertValue (timerLess w s) fuel s temp node

/-- The body of the rebalancing loop for a parent on the side `d` of its own one. -/
def insertRound (d : Side) (s : RbTree) (node : Nat) : RbTree × Nat :=
  let temp := s.child d.other (s.parent (s.parent node))
  if s.color temp = .red then
    let s := s.setColor (s.parent node) .black
    let s := s.setColor temp .black
    let s := s.setColor (s.parent (s.parent node)) .red
    (s, s.parent (s.parent node))
  else
    let sn :=
      if node = s.child d.other (s.parent node) then (s.rotate d (s.parent node), s.parent node)
      else (s, node)
    let s := sn.1.setColor (sn.1.parent sn.2) .black
    let s := s.setColor (s.parent (s.parent sn.2)) .red
    (s.rotate d.other (s.parent (s.parent sn.2)), sn.2)

/-- The rebalancing loop. -/
def insertRebalance : Nat → RbTree → Nat → Option RbTree
  | 0, _, _ => none
  | fuel + 1, s, node =>
    if node ≠ s.root ∧ s.color (s.parent node) = .red then
      let sn :=
        if s.parent node = s.child .left (s.parent (s.parent node)) then insertRound .left s node
        else insertRound .right s node
      insertRebalance fuel sn.1 sn.2
    else some s

/-- `ngx_rbtree_insert`, with the callback `tree->insert`. -/
def ngxRbtreeInsert (insert : RbTree → Nat → Nat → Option RbTree) (fuel : Nat) (s : RbTree)
    (node : Nat) : Option RbTree :=
  if s.root = s.sentinel then
    let s := s.setParent node 0
    let s := s.setChild .left node s.sentinel
    let s := s.setChild .right node s.sentinel
    let s := s.setColor node .black
    some (s.setRoot node)
  else
    (insert s s.root node).bind fun s =>
      (insertRebalance fuel s node).map fun s => s.setColor s.root .black

/-! ### The descent -/

/-- **The descent in memory is that in the tree.** -/
theorem insertDescend_eq (less : Nat → Nat → Bool) {s : RbTree} (node : Nat) {path : Path Nat}
    {t : ColorTree Nat} {fuel : Nat} (h : Represents s (plug path t)) (ht : t ≠ .nil)
    (hfuel : t.depth ≤ fuel) :
    ∃ f rest, descend (less node) path t = f :: rest ∧ plug (f :: rest) .nil = plug path t ∧
      insertDescend less s node fuel (addr s.sentinel t) = some (f.elem, f.side) := by
  -- down the tree, with the way so far as the path
  induction t generalizing path fuel with
  | nil => exact absurd rfl ht
  | node c l a r ihl ihr =>
    obtain ⟨-, hl, hr⟩ := h.node_eq (d := .left)
    cases fuel with
    | zero => exact absurd hfuel (Nat.not_succ_le_zero _)
    | succ fuel =>
      have hdepth : max l.depth r.depth ≤ fuel := Nat.le_of_succ_le_succ hfuel
      rw [addr, descend, insertDescend]
      by_cases hless : less node a
      · rw [if_pos hless, if_pos hless, hl]
        have hloc : Represents s (plug (⟨.left, c, a, r⟩ :: path) l) := h
        by_cases hnil : l = .nil
        · subst hnil
          exact ⟨_, _, rfl, rfl, by rw [addr, if_pos rfl]⟩
        · rw [if_neg fun heq => hnil (hloc.addr_eq_sentinel_iff.mp heq)]
          exact ihl hloc hnil ((le_max_left _ _).trans hdepth)
      · rw [if_neg hless, if_neg hless]
        rw [Side.other] at hr
        rw [hr]
        have hloc : Represents s (plug (⟨.right, c, a, l⟩ :: path) r) := h
        by_cases hnil : r = .nil
        · subst hnil
          exact ⟨_, _, rfl, rfl, by rw [addr, if_pos rfl]⟩
        · rw [if_neg fun heq => hnil (hloc.addr_eq_sentinel_iff.mp heq)]
          exact ihr hloc hnil ((le_max_right _ _).trans hdepth)

/-- A new node under an empty location. -/
theorem insertLink_represents {s : RbTree} {f : Frame Nat} {path : Path Nat} {node : Nat}
    (h : Represents s (plug (f :: path) .nil)) (hnode : node ∉ pathElems (f :: path))
    (hsent : node ≠ s.sentinel) :
    Represents (insertLink s f.elem f.side node)
      (plug (f :: path) (.node .red .nil node .nil)) := by
  have hfn : f.elem ≠ node := by
    rintro rfl
    exact hnode (mem_pathElems_cons.mpr (Or.inl rfl))
  have hne : ∀ x ∈ pathElems (f :: path), x ≠ node := fun x hx heq => hnode (heq ▸ hx)
  refine h.replace rfl (List.nodup_singleton node) (fun x hx => ?_) (if_neg nofun).symm
    (fun e x hhole => ?_) (fun e x hx hhole => ?_) (fun x hx => ?_) (fun x hx => ?_) ?_
    ⟨⟨?_, ?_⟩, trivial, trivial⟩ ⟨fun p hp => ?_, trivial, trivial⟩ ⟨?_, trivial, trivial⟩
  · obtain rfl : x = node := by simpa using hx
    exact ⟨hnode, hsent⟩
  · obtain ⟨rfl, rfl⟩ := hhole
    simp [insertLink, RbTree.setChild, RbTree.setParent, RbTree.setColor, addr, hfn]
  · have hhole' : ¬ (e = f.side ∧ x = f.elem) := hhole
    simp [insertLink, RbTree.setChild, RbTree.setParent, RbTree.setColor, hne x hx, hhole']
  · exact Function.update_of_ne (hne x hx) _ _
  · exact Function.update_of_ne (hne x hx) _ _
  · exact (Function.update_of_ne hsent.symm _ _).trans h.sentinel_black
  · simp [insertLink, RbTree.setChild, RbTree.setParent, RbTree.setColor, addr]
  · simp [insertLink, RbTree.setChild, RbTree.setParent, RbTree.setColor, addr]
  · exact (Function.update_self ..).trans (Option.some.inj hp)
  · exact Function.update_self ..

/-! ### A round of the rebalancing -/

section

variable {s : RbTree} {d e : Side} {p g : Nat} {c c' : Color} {t u v : ColorTree Nat}
  {path : Path Nat}

/-- The pointers that a round reads, below two nodes. -/
theorem insertRound_reads (h : Represents s (plug (⟨d, c, p, v⟩ :: ⟨e, c', g, u⟩ :: path) t))
    (ht : t ≠ .nil) :
    s.parent (addr s.sentinel t) = p ∧ s.parent p = g ∧ s.child e.other g = addr s.sentinel u ∧
      (addr s.sentinel t = s.child e.other p ↔ d = e.other) ∧
      (p = s.child .left g ↔ e = .left) := by
  have hp : Represents s (plug (⟨e, c', g, u⟩ :: path) (on d c t p v)) := h
  have hg : Represents s (plug path (on e c' (on d c t p v) g u)) := h
  have hside := hp.side_eq_iff (Or.inl on_ne_nil) .left
  rw [addr_on] at hside
  exact ⟨h.parent_addr ht, hp.parent_eq, hg.node_eq.2.2, h.side_eq_iff (Or.inl ht) e.other, hside⟩

/-- A round that recolours. -/
theorem insertRound_recolor {b : Nat} {w : ColorTree Nat}
    (h : Represents s (plug (⟨d, .red, p, v⟩ :: ⟨e, .black, g, on e .red u b w⟩ :: path) t))
    (ht : t ≠ .nil) :
    Rewrites s (plug (⟨d, .red, p, v⟩ :: ⟨e, .black, g, on e .red u b w⟩ :: path) t)
      (insertRound e s (addr s.sentinel t)).1
      (plug path (on e .red (on d .black t p v) g (on e .black u b w))) ∧
    (insertRound e s (addr s.sentinel t)).2 = g := by
  obtain ⟨hpt, hgp, hb, -, -⟩ := insertRound_reads h ht
  rw [addr_on] at hb
  -- the sibling of the parent, and its colour
  have hbloc : Represents s (plug (⟨e.other, .black, g, on d .red t p v⟩ :: path)
      (on e .red u b w)) := by
    rw [plug_cons_other]
    exact h
  have hred : s.color b = .red := hbloc.node_eq.1
  have hround : insertRound e s (addr s.sentinel t) =
      (((s.setColor p .black).setColor b .black).setColor g .red, g) := by
    unfold insertRound
    simp only [hpt, hgp, hb, if_pos hred, RbTree.setColor]
  have hploc : Represents s (plug (⟨e, .black, g, on e .red u b w⟩ :: path) (on d .red t p v)) := h
  have h₁ := hploc.setColor .black fun _ => rfl
  rw [addr_on, paint_on] at h₁
  have hb₁ : Represents (s.setColor p .black)
      (plug (⟨e.other, .black, g, on d .black t p v⟩ :: path) (on e .red u b w)) := by
    rw [plug_cons_other]
    exact h₁.represents
  have h₂ := hb₁.setColor .black fun _ => rfl
  rw [addr_on, paint_on, plug_cons_other, plug_cons_other] at h₂
  have hgloc : Represents ((s.setColor p .black).setColor b .black)
      (plug path (on e .black (on d .black t p v) g (on e .black u b w))) := h₂.represents
  have h₃ := hgloc.setColor .red fun hnil => absurd hnil on_ne_nil
  rw [addr_on, paint_on] at h₃
  rw [hround]
  exact ⟨h₁.trans (h₂.trans h₃), rfl⟩

/-- The end of a round that rotates: the parent black, the one above red, and a rotation
there. -/
theorem insertRound_last
    (h : Represents s (plug (⟨e, .red, p, v⟩ :: ⟨e, .black, g, u⟩ :: path) t)) (ht : t ≠ .nil) :
    Rewrites s (plug (⟨e, .red, p, v⟩ :: ⟨e, .black, g, u⟩ :: path) t)
      (((s.setColor (s.parent (addr s.sentinel t)) .black).setColor
        (s.parent (s.parent (addr s.sentinel t))) .red).rotate e.other
          (s.parent (s.parent (addr s.sentinel t))))
      (plug path (on e .black t p (on e .red v g u))) := by
  obtain ⟨hpt, hgp, -, -, -⟩ := insertRound_reads h ht
  rw [hpt, hgp]
  have hploc : Represents s (plug (⟨e, .black, g, u⟩ :: path) (on e .red t p v)) := h
  have h₁ := hploc.setColor .black fun _ => rfl
  rw [addr_on, paint_on] at h₁
  have hgloc : Represents (s.setColor p .black) (plug path (on e .black (on e .black t p v) g u)) :=
    h₁.represents
  have h₂ := hgloc.setColor .red fun hnil => absurd hnil on_ne_nil
  rw [addr_on, paint_on] at h₂
  exact h₁.trans (h₂.trans (rotate_other_represents h₂.represents))

/-- A round that rotates once. -/
theorem insertRound_outer
    (h : Represents s (plug (⟨e, .red, p, v⟩ :: ⟨e, .black, g, u⟩ :: path) t)) (ht : t ≠ .nil)
    (hu : u.color = .black) :
    Rewrites s (plug (⟨e, .red, p, v⟩ :: ⟨e, .black, g, u⟩ :: path) t)
      (insertRound e s (addr s.sentinel t)).1 (plug path (on e .black t p (on e .red v g u))) ∧
    (insertRound e s (addr s.sentinel t)).2 = addr s.sentinel t := by
  obtain ⟨hpt, hgp, hb, hside, -⟩ := insertRound_reads h ht
  have huloc : Represents s (plug (⟨e.other, .black, g, on e .red t p v⟩ :: path) u) := by
    rw [plug_cons_other]
    exact h
  have hblack : s.color (addr s.sentinel u) ≠ .red := by
    rw [huloc.color_addr, hu]
    nofun
  have hne : ¬ addr s.sentinel t = s.child e.other p := fun heq => e.ne_other (hside.mp heq)
  have hlast := insertRound_last h ht
  have hround : insertRound e s (addr s.sentinel t) =
      (((s.setColor (s.parent (addr s.sentinel t)) .black).setColor
        (s.parent (s.parent (addr s.sentinel t))) .red).rotate e.other
          (s.parent (s.parent (addr s.sentinel t))), addr s.sentinel t) := by
    unfold insertRound
    simp only [hpt, hgp, hb, if_neg hblack, if_neg hne, RbTree.setColor]
  rw [hround]
  exact ⟨hlast, rfl⟩

/-- A round that rotates twice. -/
theorem insertRound_inner {a : Nat} {w x : ColorTree Nat}
    (h : Represents s (plug (⟨e.other, .red, p, v⟩ :: ⟨e, .black, g, u⟩ :: path) (on e .red w a x)))
    (hu : u.color = .black) :
    Rewrites s (plug (⟨e.other, .red, p, v⟩ :: ⟨e, .black, g, u⟩ :: path) (on e .red w a x))
      (insertRound e s a).1 (plug path (on e .black (on e .red v p w) a (on e .red x g u))) ∧
    (insertRound e s a).2 = p := by
  obtain ⟨hpt, hgp, hb, hside, -⟩ := insertRound_reads h on_ne_nil
  rw [addr_on] at hpt hside
  have huloc : Represents s
      (plug (⟨e.other, .black, g, on e.other .red (on e .red w a x) p v⟩ :: path) u) := by
    rw [plug_cons_other]
    exact h
  have hblack : s.color (addr s.sentinel u) ≠ .red := by
    rw [huloc.color_addr, hu]
    nofun
  -- the first rotation makes the outer case of it
  have hploc : Represents s
      (plug (⟨e, .black, g, u⟩ :: path) (on e .red v p (on e .red w a x))) := by
    rw [plug_cons_other] at h
    exact h
  have h₁ := rotate_represents hploc
  have hout : Represents (s.rotate e p)
      (plug (⟨e, .red, a, x⟩ :: ⟨e, .black, g, u⟩ :: path) (on e .red v p w)) := h₁.represents
  have h₂ := insertRound_last hout on_ne_nil
  rw [addr_on] at h₂
  have hround : insertRound e s a =
      ((((s.rotate e p).setColor ((s.rotate e p).parent p) .black).setColor
        ((s.rotate e p).parent ((s.rotate e p).parent p)) .red).rotate e.other
          ((s.rotate e p).parent ((s.rotate e p).parent p)), p) := by
    unfold insertRound
    simp only [hpt, hgp, hb, if_neg hblack, if_pos (hside.mpr rfl), RbTree.setColor]
  rw [hround, plug_cons_other]
  exact ⟨h₁.trans h₂, rfl⟩

/-! ### The loop -/

/-- The test of the loop for the side of the parent. -/
theorem insertRound_side (h : Represents s (plug (⟨d, c, p, v⟩ :: ⟨e, c', g, u⟩ :: path) t))
    (ht : t ≠ .nil) :
    (if s.parent (addr s.sentinel t) = s.child .left (s.parent (s.parent (addr s.sentinel t))) then
      insertRound .left s (addr s.sentinel t) else insertRound .right s (addr s.sentinel t)) =
      insertRound e s (addr s.sentinel t) := by
  obtain ⟨hpt, hgp, -, -, hleft⟩ := insertRound_reads h ht
  rw [hpt, hgp]
  cases e with
  | left => rw [if_pos (hleft.mpr rfl)]
  | right => rw [if_neg fun heq => absurd (hleft.mp heq) nofun]

/-- Under a black parent the loop stops. -/
theorem insertRebalance_black {fuel : Nat}
    (h : Represents s (plug (⟨d, .black, p, v⟩ :: path) t)) (ht : t ≠ .nil) :
    insertRebalance (fuel + 1) s (addr s.sentinel t) = some s := by
  have hp : Represents s (plug path (on d .black t p v)) := h
  have hparent : s.parent (addr s.sentinel t) = p := h.parent_addr ht
  rw [insertRebalance, hparent, hp.node_eq.1, if_neg fun hred => absurd hred.2 nofun]

/-- Under a red parent it makes a round. -/
theorem insertRebalance_red {fuel : Nat}
    (h : Represents s (plug (⟨d, .red, p, v⟩ :: ⟨e, c', g, u⟩ :: path) t)) (ht : t ≠ .nil) :
    insertRebalance (fuel + 1) s (addr s.sentinel t) =
      insertRebalance fuel (insertRound e s (addr s.sentinel t)).1
        (insertRound e s (addr s.sentinel t)).2 := by
  have hp : Represents s (plug (⟨e, c', g, u⟩ :: path) (on d .red t p v)) := h
  have hcond : addr s.sentinel t ≠ s.root ∧ s.color (s.parent (addr s.sentinel t)) = .red := by
    rw [(insertRound_reads h ht).1]
    exact ⟨h.ne_root, hp.node_eq.1⟩
  rw [insertRebalance, if_pos hcond]
  dsimp only
  rw [insertRound_side h ht]

/-- **The rebalancing in memory is that of the tree.** -/
theorem insertRebalance_represents {n fuel : Nat} (h : Represents s (plug path t))
    (hp : PathBalanced path n) (hc : t.color = .red) (hfuel : path.length < fuel) :
    ∃ s', insertRebalance fuel s (addr s.sentinel t) = some s' ∧
      Rewrites s (plug path t) s' (insertLoop path t) := by
  have ht : t ≠ .nil := by
    rintro rfl
    exact absurd hc nofun
  -- on the length of the path, with the rounds of the tree
  induction hlen : path.length using Nat.strong_induction_on generalizing s path t n fuel with
  | _ k ih =>
    cases fuel with
    | zero => exact absurd hfuel (Nat.not_lt_zero _)
    | succ fuel =>
      cases hp.insertCase hc with
      | root =>
        refine ⟨s, ?_, Rewrites.refl h⟩
        rw [insertRebalance, if_neg fun hcond => hcond.1 h.root_eq.symm]
      | black d p v path =>
        rw [insertLoop_black]
        exact ⟨s, insertRebalance_black h ht, Rewrites.refl h⟩
      | recolor d e p v g u b w path =>
        obtain ⟨hround, hnode⟩ := insertRound_recolor h ht
        have hshorter : path.length < k := by
          rw [← hlen, List.length_cons, List.length_cons]
          omega
        have hfuel' : path.length < fuel := by
          rw [List.length_cons, List.length_cons] at hfuel
          omega
        obtain ⟨s', hloop, hrest⟩ := ih path.length hshorter hround.represents hp.2.2.2.2
          (color_on ..) hfuel' on_ne_nil rfl
        rw [addr_on] at hloop
        rw [insertRebalance_red h ht, insertLoop_recolor, hnode]
        exact ⟨s', hloop, hround.trans hrest⟩
      | outer e p v g u path _ hu =>
        -- the rotation puts a black node above, so the next test ends the loop
        obtain ⟨fuel, rfl⟩ : ∃ m, fuel = m + 1 := ⟨fuel - 1, by
          rw [List.length_cons, List.length_cons] at hfuel
          omega⟩
        obtain ⟨hround, hnode⟩ := insertRound_outer h ht hu
        have hend : Represents (insertRound e s (addr s.sentinel t)).1
            (plug (⟨e, .black, p, on e .red v g u⟩ :: path) t) := hround.represents
        have hstop : insertRebalance (fuel + 1) _ _ = _ := insertRebalance_black hend ht
        rw [hround.sentinel_eq] at hstop
        rw [insertRebalance_red h ht, insertLoop_outer e p v g path t hu, hnode]
        exact ⟨_, hstop, hround⟩
      | inner e p v g u path w a x hu =>
        obtain ⟨fuel, rfl⟩ : ∃ m, fuel = m + 1 := ⟨fuel - 1, by
          rw [List.length_cons, List.length_cons] at hfuel
          omega⟩
        obtain ⟨hround, hnode⟩ := insertRound_inner h hu
        have hend : Represents (insertRound e s a).1
            (plug (⟨e, .black, a, on e .red x g u⟩ :: path) (on e .red v p w)) := hround.represents
        have hstop : insertRebalance (fuel + 1) _ _ = _ := insertRebalance_black hend on_ne_nil
        rw [addr_on] at hstop
        rw [insertRebalance_red h ht, insertLoop_inner e p v g path w a x hu, addr_on, hnode]
        exact ⟨_, hstop, hround⟩

end

/-! ### The insertion -/

/-- **`ngx_rbtree_insert` is the insertion into the tree.** It ends, and it writes only
to the new node and to nodes of the tree. -/
theorem ngxRbtreeInsert_represents {s : RbTree} {t : ColorTree Nat} (h : Represents s t)
    (hrb : t.IsRedBlack) (less : Nat → Nat → Bool) {node fuel : Nat}
    {insert : RbTree → Nat → Nat → Option RbTree}
    (hinsert : insert s s.root node = insertValue less fuel s s.root node) (hnode : node ∉ t.inorder)
    (hsent : node ≠ s.sentinel) (hfuel : t.depth < fuel) :
    ∃ s', ngxRbtreeInsert insert fuel s node = some s' ∧
      Represents s' (RedBlack.insert (less node) node t) ∧
      s'.sentinel = s.sentinel ∧ s'.key = s.key ∧
      ∀ x, x ∉ t.inorder → x ≠ node → SameAt s s' x := by
  by_cases hnil : t = .nil
  · -- the first node becomes the root
    subst hnil
    have hroot : s.root = s.sentinel := h.root_eq
    rw [ngxRbtreeInsert, if_pos hroot]
    refine ⟨_, rfl, ⟨rfl, ⟨⟨?_, ?_⟩, trivial, trivial⟩, ⟨nofun, trivial, trivial⟩,
      ⟨Function.update_self .., trivial, trivial⟩, List.nodup_singleton node,
      fun hmem => hsent (List.mem_singleton.mp hmem).symm, ?_⟩, rfl, rfl, fun x _ hx => ?_⟩
    · simp [RbTree.setChild, RbTree.setParent, RbTree.setColor, RbTree.setRoot, addr]
    · simp [RbTree.setChild, RbTree.setParent, RbTree.setColor, RbTree.setRoot, addr]
    · exact (Function.update_of_ne hsent.symm _ _).trans h.sentinel_black
    · simp [SameAt, RbTree.setChild, RbTree.setParent, RbTree.setColor, RbTree.setRoot, hx]
  · have htop : Represents s (plug [] t) := h
    have hroot : s.root ≠ s.sentinel := fun heq =>
      hnil (htop.addr_eq_sentinel_iff.mp (h.root_eq.symm.trans heq))
    obtain ⟨hc, n, hn⟩ := hrb
    -- the callback puts the node under the last node of the descent
    obtain ⟨f, rest, hdesc, hplug, hcode⟩ := insertDescend_eq less node htop hnil hfuel.le
    rw [← h.root_eq] at hcode
    have hmem : ∀ x, x ∈ pathElems (f :: rest) ↔ x ∈ t.inorder := by
      intro x
      have hx : x ∈ (plug (f :: rest) .nil).inorder ↔ _ := Represents.mem_plug
      rw [hplug, plug] at hx
      simpa using hx.symm
    have hloc : Represents s (plug (f :: rest) .nil) := by rwa [hplug]
    have hlink := insertLink_represents hloc (fun hx => hnode ((hmem node).mp hx)) hsent
    -- the rebalancing starts at the new node
    have hpath : PathBalanced (f :: rest) 0 := by
      rw [← hdesc]
      have hstart : PathBalanced ([] : Path Nat) n := trivial
      exact hstart.descend hn fun _ => hc
    have hlen : (f :: rest).length < fuel := by
      have hle := length_descend_le (less node) [] t
      rw [hdesc, List.length_nil, Nat.zero_add] at hle
      exact hle.trans_lt hfuel
    obtain ⟨s₁, hloop, hreb⟩ := insertRebalance_represents hlink hpath rfl hlen
    have hend : Represents s₁ (plug [] (insertLoop (f :: rest) (.node .red .nil node .nil))) :=
      hreb.represents
    have hpaint := hend.setColor .black fun _ => rfl
    rw [addr] at hloop
    rw [plug, plug, ← hreb.represents.root_eq] at hpaint
    refine ⟨s₁.setColor s₁.root .black, ?_, ?_, hreb.sentinel_eq, hreb.key_eq,
      fun x hx hxn => ?_⟩
    · rw [ngxRbtreeInsert, if_neg hroot, hinsert, insertValue, hcode]
      simp [hloop]
    · rw [RedBlack.insert, hdesc]
      exact hpaint.represents
    · -- the new node is the only one that was not in the tree
      have hout : x ∉ (plug (f :: rest) (.node .red .nil node .nil)).inorder := by
        rw [Represents.mem_plug, not_or, hmem]
        exact ⟨hx, by simpa using hxn⟩
      have hfx : x ≠ f.elem := by
        rintro rfl
        exact hx ((hmem _).mp (mem_pathElems_cons.mpr (Or.inl rfl)))
      have hfirst : SameAt s (insertLink s f.elem f.side node) x := by
        simp [SameAt, insertLink, RbTree.setChild, RbTree.setParent, RbTree.setColor, hxn, hfx]
      exact hfirst.trans ((hreb.trans hpaint).outside x hout)

end Nginx
