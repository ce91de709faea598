import Amoeba.RedBlack.Basic

/-!
# Insertion into a red-black tree

A new element descends to a leaf, is put there as a red node, and the rebalancing
walks back up: it recolours as long as the sibling of the parent is red, and ends
with one or two rotations or at a black parent.

* `InsertCase` — where the rebalancing can be.
* `isRedBlack_insert`, `inorder_insert` — the result is red-black again and has the
  sequence of a plain insertion.
-/

namespace RedBlack

open RedBlack.ColorTree

universe u

variable {α : Type u}

/-! ### The algorithm -/

/-- The way down: to the left of the elements with `left`. -/
def descend (left : α → Bool) : Path α → ColorTree α → Path α
  | path, .nil => path
  | path, .node c l a r =>
    if left a then descend left (⟨.left, c, a, r⟩ :: path) l
    else descend left (⟨.right, c, a, l⟩ :: path) r

/-- The way back up, from a red subtree. -/
def insertLoop : Path α → ColorTree α → ColorTree α
  | [], t => t
  -- the parent is the root, which is black
  | [f], t => f.fill t
  | f :: g :: path, t =>
    if f.color = .red then
      if g.sibling.color = .red then
        insertLoop path (on g.side .red (on f.side .black t f.elem f.sibling) g.elem
          (g.sibling.paint .black))
      else if f.side = g.side then
        plug path (on g.side .black t f.elem (on g.side .red f.sibling g.elem g.sibling))
      else
        match t with
        | .nil => plug (f :: g :: path) .nil
        | .node c l a r =>
          -- the subtree is taken apart, its root goes to the top
          plug path (on g.side .black
            (on g.side .red f.sibling f.elem ((node c l a r).child g.side)) a
            (on g.side .red ((node c l a r).child g.side.other) g.elem g.sibling))
    else plug (f :: g :: path) t

/-- A red leaf at the end of the way down, and the tree rebalanced from there. -/
def insert (left : α → Bool) (x : α) (t : ColorTree α) : ColorTree α :=
  (insertLoop (descend left [] t) (.node .red .nil x .nil)).paint .black

example : (insert (· > 3) 3 (insert (· > 2) 2 (insert (· > 1) 1 .nil))) =
    .node .black (.node .red .nil 1 .nil) 2 (.node .red .nil 3 .nil) := by decide

/-! ### The cases of a round -/

/-- Where a round can start: at the root, under a black parent, under a red parent
with a red sibling, or under a red parent with a black one, on the same side as the
parent or on the other. -/
inductive InsertCase : Path α → ColorTree α → Prop
  | root (t : ColorTree α) : InsertCase [] t
  | black (d : Side) (p : α) (s : ColorTree α) (path : Path α) (t : ColorTree α) :
      InsertCase (⟨d, .black, p, s⟩ :: path) t
  | recolor (d e : Side) (p : α) (s : ColorTree α) (g : α) (v : ColorTree α) (b : α)
      (w : ColorTree α) (path : Path α) (t : ColorTree α) :
      InsertCase (⟨d, .red, p, s⟩ :: ⟨e, .black, g, on e .red v b w⟩ :: path) t
  | outer (e : Side) (p : α) (s : ColorTree α) (g : α) (u : ColorTree α) (path : Path α)
      (t : ColorTree α) (hu : u.color = .black) :
      InsertCase (⟨e, .red, p, s⟩ :: ⟨e, .black, g, u⟩ :: path) t
  | inner (e : Side) (p : α) (s : ColorTree α) (g : α) (u : ColorTree α) (path : Path α)
      (v : ColorTree α) (a : α) (w : ColorTree α) (hu : u.color = .black) :
      InsertCase (⟨e.other, .red, p, s⟩ :: ⟨e, .black, g, u⟩ :: path) (on e .red v a w)

/-- Under a red node there is a black one. -/
theorem PathBalanced.exists_black {d : Side} {p : α} {s : ColorTree α} {path : Path α} {n : Nat}
    (h : PathBalanced (⟨d, .red, p, s⟩ :: path) n) :
    ∃ e g u path', path = ⟨e, .black, g, u⟩ :: path' := by
  cases path with
  | nil => exact absurd h.2.2.1 nofun
  | cons f path' =>
    obtain ⟨e, c, g, u⟩ := f
    obtain rfl : c = .black := h.2.2.1
    exact ⟨e, g, u, path', rfl⟩

/-- **The cases are all there are.** -/
theorem PathBalanced.insertCase {path : Path α} {t : ColorTree α} {n : Nat}
    (hp : PathBalanced path n) (hc : t.color = .red) : InsertCase path t := by
  cases path with
  | nil => exact .root t
  | cons f path =>
    obtain ⟨d, c, p, s⟩ := f
    cases c with
    | black => exact .black d p s path t
    | red =>
      obtain ⟨e, g, u, path, rfl⟩ := hp.exists_black
      cases hu : u.color with
      | red =>
        obtain rfl | ⟨c, v, b, w, rfl⟩ := eq_nil_or_on e u
        · exact absurd hu nofun
        · obtain rfl : c = .red := (color_on e c v b w).symm.trans hu
          exact .recolor d e p s g v b w path t
      | black =>
        rcases e.eq_or_eq_other d with rfl | rfl
        · exact .outer d p s g u path t hu
        · obtain rfl | ⟨c, v, a, w, rfl⟩ := eq_nil_or_on e t
          · exact absurd hc nofun
          · obtain rfl : c = .red := (color_on e c v a w).symm.trans hc
            exact .inner e p s g u path v a w hu

theorem insertLoop_black (d : Side) (p : α) (s : ColorTree α) (path : Path α) (t : ColorTree α) :
    insertLoop (⟨d, .black, p, s⟩ :: path) t = plug (⟨d, .black, p, s⟩ :: path) t := by
  cases path with
  | nil => rfl
  | cons g path => simp [insertLoop]

theorem insertLoop_recolor (d e : Side) (p : α) (s : ColorTree α) (g : α) (v : ColorTree α) (b : α)
    (w : ColorTree α) (path : Path α) (t : ColorTree α) :
    insertLoop (⟨d, .red, p, s⟩ :: ⟨e, .black, g, on e .red v b w⟩ :: path) t =
      insertLoop path (on e .red (on d .black t p s) g (on e .black v b w)) := by
  simp [insertLoop]

theorem insertLoop_outer (e : Side) (p : α) (s : ColorTree α) (g : α) {u : ColorTree α}
    (path : Path α)
    (t : ColorTree α) (hu : u.color = .black) :
    insertLoop (⟨e, .red, p, s⟩ :: ⟨e, .black, g, u⟩ :: path) t =
      plug path (on e .black t p (on e .red s g u)) := by
  simp [insertLoop, hu]

theorem insertLoop_inner (e : Side) (p : α) (s : ColorTree α) (g : α) {u : ColorTree α}
    (path : Path α)
    (v : ColorTree α) (a : α) (w : ColorTree α) (hu : u.color = .black) :
    insertLoop (⟨e.other, .red, p, s⟩ :: ⟨e, .black, g, u⟩ :: path) (on e .red v a w) =
      plug path (on e .black (on e .red s p v) a (on e .red w g u)) := by
  cases e <;> simp [insertLoop, hu, on, child, Side.other]

/-! ### The result -/

/-- **The rebalancing restores the rules.** -/
theorem isRedBlack_insertLoop {path : Path α} {t : ColorTree α} {n : Nat} (hp : PathBalanced path n)
    (ht : t.Balanced n) (hc : t.color = .red) :
    ((insertLoop path t).paint .black).IsRedBlack := by
  -- on the length of the path: a round of recolouring goes up two nodes
  induction hlen : path.length using Nat.strong_induction_on generalizing path t n with
  | _ k ih =>
    cases hp.insertCase hc with
    -- the root is painted black, which adds one to every way down
    | root =>
      obtain ⟨s, a, u, rfl, -, hs⟩ := ht.exists_on_red .left hc
      exact ⟨by simp [insertLoop], n + 1, by simpa [insertLoop] using balanced_on_black.mpr hs⟩
    | black d p s path =>
      have hplug : (plug (⟨d, .black, p, s⟩ :: path) t).IsRedBlack :=
        isRedBlack_plug.mpr ⟨n, hp, ht, nofun⟩
      rw [insertLoop_black, paint_color hplug.1]
      exact hplug
    | recolor d e p s g v b w path =>
      obtain ⟨hs, hsc, -, hu, hp⟩ := hp
      obtain ⟨-, hv, hw⟩ := balanced_on_red.mp hu
      rw [insertLoop_recolor]
      -- the violation has moved to the grandparent
      have hnode : (on e .red (on d .black t p s) g (on e .black v b w)).Balanced (n + 1) :=
        balanced_on_red.mpr ⟨by simp, balanced_on_black.mpr ⟨ht, hs⟩,
          balanced_on_black.mpr ⟨hv, hw⟩⟩
      have hshorter : path.length < k := by
        rw [← hlen, List.length_cons, List.length_cons]
        omega
      exact ih path.length hshorter hp hnode (by simp) rfl
    | outer e p s g u path _ hucolor =>
      obtain ⟨hs, hsc, -, hu, hp⟩ := hp
      have hnode : (on e .black t p (on e .red s g u)).Balanced (n + 1) :=
        balanced_on_black.mpr ⟨ht, balanced_on_red.mpr ⟨⟨hsc, hucolor⟩, hs, hu⟩⟩
      have hplug : (plug path (on e .black t p (on e .red s g u))).IsRedBlack :=
        isRedBlack_plug.mpr ⟨n + 1, hp, hnode, by simp⟩
      rw [insertLoop_outer e p s g path t hucolor, paint_color hplug.1]
      exact hplug
    | inner e p s g u path v a w hucolor =>
      obtain ⟨hs, hsc, -, hu, hp⟩ := hp
      obtain ⟨⟨hvc, hwc⟩, hv, hw⟩ := balanced_on_red.mp ht
      have hnode : (on e .black (on e .red s p v) a (on e .red w g u)).Balanced (n + 1) :=
        balanced_on_black.mpr ⟨balanced_on_red.mpr ⟨⟨hsc, hvc⟩, hs, hv⟩,
          balanced_on_red.mpr ⟨⟨hwc, hucolor⟩, hw, hu⟩⟩
      have hplug : (plug path (on e .black (on e .red s p v) a (on e .red w g u))).IsRedBlack :=
        isRedBlack_plug.mpr ⟨n + 1, hp, hnode, by simp⟩
      rw [insertLoop_inner e p s g path v a w hucolor, paint_color hplug.1]
      exact hplug

/-- **The rebalancing keeps the sequence**, whatever the colours are. -/
theorem inorder_insertLoop (path : Path α) (t : ColorTree α) :
    (insertLoop path t).inorder = (plug path t).inorder := by
  fun_induction insertLoop path t with
  | case1 t => rfl
  | case2 f t => rfl
  | case3 f g path t hf hg ih =>
    -- recolouring moves no node
    rw [ih, plug, plug]
    refine inorder_plug_congr (inorder_on_congr (inorder_on_congr rfl rfl) ?_)
    rw [inorder_paint]
  | case4 f g path t hf hg hd =>
    refine inorder_plug_congr ?_
    rw [Frame.fill, Frame.fill, hd, inorder_rotate]
  | case5 => rfl
  | case6 f g path hf hg hd c l a r =>
    have hside : f.side = g.side.other := (g.side.eq_or_eq_other f.side).resolve_left hd
    refine inorder_plug_congr ?_
    rw [Frame.fill, Frame.fill, hside]
    cases g.side <;> simp [on, child, Side.other]
  | case7 => rfl

/-- The way down ends where the plain descent puts the element. -/
theorem forget_plug_descend (left : α → Bool) (x : α) (c : Color) (path : Path α)
    (t : ColorTree α) :
    ∃ t', (plug (descend left path t) (.node c .nil x .nil)) = plug path t' ∧
      t'.forget = SearchTree.insert left x t.forget := by
  induction t generalizing path with
  | nil => exact ⟨_, rfl, rfl⟩
  | node c' l a r ihl ihr =>
    rw [descend, forget, SearchTree.insert]
    split
    · obtain ⟨t', hplug, hforget⟩ := ihl (⟨.left, c', a, r⟩ :: path)
      exact ⟨_, hplug, by simp [Frame.fill, on, forget, hforget]⟩
    · obtain ⟨t', hplug, hforget⟩ := ihr (⟨.right, c', a, l⟩ :: path)
      exact ⟨_, hplug, by simp [Frame.fill, on, forget, hforget]⟩

/-- **The insertion into the sequence is that of the plain descent.** -/
theorem inorder_insert (left : α → Bool) (x : α) (t : ColorTree α) :
    (insert left x t).inorder = SearchTree.inorder (SearchTree.insert left x t.forget) := by
  obtain ⟨t', hplug, hforget⟩ := forget_plug_descend left x .red [] t
  rw [insert, inorder_paint, inorder_insertLoop, hplug, plug, inorder, hforget]

theorem length_descend_le (left : α → Bool) (path : Path α) (t : ColorTree α) :
    (descend left path t).length ≤ path.length + t.depth := by
  induction t generalizing path with
  | nil => exact Nat.le_refl _
  | node c l a r ihl ihr =>
    rw [descend, depth]
    have hl := ihl (⟨.left, c, a, r⟩ :: path)
    have hr := ihr (⟨.right, c, a, l⟩ :: path)
    rw [List.length_cons] at hl hr
    split <;> omega

/-- The way down keeps the rules: it ends at an empty subtree. -/
theorem PathBalanced.descend {left : α → Bool} {path : Path α} {t : ColorTree α} {n : Nat}
    (hp : PathBalanced path n) (ht : t.Balanced n)
    (hc : parentColor path = .red → t.color = .black) :
    PathBalanced (RedBlack.descend left path t) 0 := by
  induction t generalizing path n with
  | nil =>
    obtain rfl : n = 0 := ht
    exact hp
  | node c l a r ihl ihr =>
    rw [RedBlack.descend]
    cases c with
    | red =>
      obtain ⟨⟨hlc, hrc⟩, hl, hr⟩ := ht
      have hpc : parentColor path = .black := by
        cases hpar : parentColor path with
        | red => exact absurd (hc hpar) nofun
        | black => rfl
      split
      · exact ihl ⟨hr, hrc, hpc, hp⟩ hl fun _ => hlc
      · exact ihr ⟨hl, hlc, hpc, hp⟩ hr fun _ => hrc
    | black =>
      cases n with
      | zero => exact ht.elim
      | succ n =>
        split
        · exact ihl ⟨ht.2, hp⟩ ht.1 nofun
        · exact ihr ⟨ht.1, hp⟩ ht.2 nofun

/-- **Insertion keeps a red-black tree red-black.** -/
theorem isRedBlack_insert {t : ColorTree α} (ht : t.IsRedBlack) (left : α → Bool) (x : α) :
    (insert left x t).IsRedBlack := by
  obtain ⟨hc, n, hn⟩ := ht
  have hstart : PathBalanced ([] : Path α) n := trivial
  have hpath : PathBalanced (RedBlack.descend left [] t) 0 := hstart.descend hn fun _ => hc
  exact isRedBlack_insertLoop hpath ⟨⟨rfl, rfl⟩, rfl, rfl⟩ rfl

end RedBlack
