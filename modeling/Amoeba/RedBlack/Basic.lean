import Mathlib.Data.Nat.Log
import Mathlib.Tactic.Ring
import Amoeba.SearchTree.Basic

/-!
# Red-black trees and locations in them

Coloured binary trees, the two rules that make one red-black, and zippers: a
location in a tree is the subtree there and the path up to the root. Code that
walks a tree through parent pointers keeps exactly this, so the rules are stated
for the two halves of a location as well.

Left and right occur as a parameter (`Side`), so that an operation and its mirror
image are one definition.

* `isRedBlack_plug` — a tree is red-black exactly when the path above a location
  and the subtree there are, for one black height.
* `inorder_plug` — the sequence of a tree is that of the subtree between what the
  path has on its two sides.
* `IsRedBlack.depth_le` — a red-black tree with `n` elements has depth at most
  `2 * log₂ (n + 1)`.
-/

namespace RedBlack

universe u

variable {α : Type u}

/-! ### Coloured trees -/

inductive Color where
  | red
  | black
  deriving DecidableEq, Repr

inductive Side where
  | left
  | right
  deriving DecidableEq, Repr

/-- The mirror image of a side. -/
def Side.other : Side → Side
  | .left => .right
  | .right => .left

@[simp] theorem Side.other_other (d : Side) : d.other.other = d := by cases d <;> rfl

@[simp] theorem Side.other_ne (d : Side) : d.other ≠ d := by cases d <;> nofun

@[simp] theorem Side.ne_other (d : Side) : d ≠ d.other := by cases d <;> nofun

theorem Side.eq_or_eq_other (d e : Side) : e = d ∨ e = d.other := by
  cases d <;> cases e <;> simp [other]

inductive ColorTree (α : Type u) where
  | nil
  | node (c : Color) (l : ColorTree α) (a : α) (r : ColorTree α)
  deriving DecidableEq, Repr

namespace ColorTree

/-- A node whose subtree on the side `d` is `s`, and whose other one is `t`. -/
def on (d : Side) (c : Color) (s : ColorTree α) (a : α) (t : ColorTree α) : ColorTree α :=
  match d with
  | .left => node c s a t
  | .right => node c t a s

/-- The colour of the root; an empty tree counts as black. -/
def color : ColorTree α → Color
  | nil => .black
  | node c _ _ _ => c

/-- The subtree on the side `d`. -/
def child (d : Side) : ColorTree α → ColorTree α
  | nil => nil
  | node _ l _ r =>
    match d with
    | .left => l
    | .right => r

/-- The tree with its root painted. -/
def paint (c : Color) : ColorTree α → ColorTree α
  | nil => nil
  | node _ l a r => node c l a r

/-- The tree without its colours. -/
def forget : ColorTree α → BinaryTree α
  | nil => .nil
  | node _ l a r => .node a l.forget r.forget

/-- The elements from left to right. -/
def inorder (t : ColorTree α) : List α := SearchTree.inorder t.forget

def depth : ColorTree α → Nat
  | nil => 0
  | node _ l _ r => max l.depth r.depth + 1

@[simp] theorem inorder_nil : (nil : ColorTree α).inorder = [] := rfl

@[simp] theorem inorder_node (c : Color) (l : ColorTree α) (a : α) (r : ColorTree α) :
    (node c l a r).inorder = l.inorder ++ a :: r.inorder := rfl

@[simp] theorem color_nil : (nil : ColorTree α).color = .black := rfl

@[simp] theorem color_node (c : Color) (l : ColorTree α) (a : α) (r : ColorTree α) :
    (node c l a r).color = c := rfl

@[simp] theorem color_on (d : Side) (c : Color) (s : ColorTree α) (a : α) (t : ColorTree α) :
    (on d c s a t).color = c := by cases d <;> rfl

@[simp] theorem paint_on (d : Side) (c c' : Color) (s : ColorTree α) (a : α) (t : ColorTree α) :
    (on d c s a t).paint c' = on d c' s a t := by cases d <;> rfl

@[simp] theorem inorder_paint (c : Color) (t : ColorTree α) : (t.paint c).inorder = t.inorder := by
  cases t <;> rfl

theorem on_other (d : Side) (c : Color) (s : ColorTree α) (a : α) (t : ColorTree α) :
    on d.other c s a t = on d c t a s := by cases d <;> rfl

theorem paint_color {t : ColorTree α} {c : Color} (h : t.color = c) : t.paint c = t := by
  cases t with
  | nil => rfl
  | node c' l a r => rw [paint, ← h, color]

/-- A tree seen from the side `d`. -/
theorem eq_nil_or_on (d : Side) (t : ColorTree α) :
    t = nil ∨ ∃ c s a u, t = on d c s a u := by
  cases t with
  | nil => exact Or.inl rfl
  | node c l a r =>
    refine Or.inr ?_
    cases d with
    | left => exact ⟨c, l, a, r, rfl⟩
    | right => exact ⟨c, r, a, l, rfl⟩

/-- Both sides of the node are looked at alike. -/
theorem mem_inorder_on {d : Side} {c : Color} {s : ColorTree α} {a : α} {t : ColorTree α} {x : α} :
    x ∈ (on d c s a t).inorder ↔ x = a ∨ x ∈ s.inorder ∨ x ∈ t.inorder := by
  cases d <;> simp [on] <;> tauto

/-- **A rotation keeps the sequence.** -/
theorem inorder_rotate (d : Side) (c c' e e' : Color) (s : ColorTree α) (a : α)
    (t : ColorTree α) (b : α) (u : ColorTree α) :
    (on d c (on d c' s a t) b u).inorder = (on d e s a (on d e' t b u)).inorder := by
  cases d <;> simp [on]

theorem inorder_on_congr {d : Side} {c c' : Color} {s s' : ColorTree α} {a : α} {t t' : ColorTree α}
    (hs : s.inorder = s'.inorder) (ht : t.inorder = t'.inorder) :
    (on d c s a t).inorder = (on d c' s' a t').inorder := by
  cases d <;> simp [on, hs, ht]

/-! ### The two rules -/

/-- No red node has a red child, and every way down has `n` black nodes. -/
def Balanced : ColorTree α → Nat → Prop
  | nil, n => n = 0
  | node .red l _ r, n => (l.color = .black ∧ r.color = .black) ∧ l.Balanced n ∧ r.Balanced n
  | node .black _ _ _, 0 => False
  | node .black l _ r, n + 1 => l.Balanced n ∧ r.Balanced n

theorem balanced_on_red {d : Side} {s : ColorTree α} {a : α} {t : ColorTree α} {n : Nat} :
    (on d .red s a t).Balanced n ↔
      (s.color = .black ∧ t.color = .black) ∧ s.Balanced n ∧ t.Balanced n := by
  cases d with
  | left => rfl
  | right => rw [and_comm (a := s.color = .black), and_comm (a := s.Balanced n)]; rfl

theorem balanced_on_black {d : Side} {s : ColorTree α} {a : α} {t : ColorTree α} {n : Nat} :
    (on d .black s a t).Balanced (n + 1) ↔ s.Balanced n ∧ t.Balanced n := by
  cases d with
  | left => rfl
  | right => rw [and_comm]; rfl

/-- Where a black node is expected, a black tree has one. -/
theorem Balanced.exists_on (d : Side) {t : ColorTree α} {n : Nat} (h : t.Balanced (n + 1))
    (hc : t.color = .black) :
    ∃ s a u, t = on d .black s a u ∧ s.Balanced n ∧ u.Balanced n := by
  obtain rfl | ⟨c, s, a, u, rfl⟩ := eq_nil_or_on d t
  · exact absurd h (Nat.succ_ne_zero n)
  · rw [color_on] at hc
    subst hc
    exact ⟨s, a, u, rfl, balanced_on_black.mp h⟩

/-- A red tree has a red root, over black subtrees. -/
theorem Balanced.exists_on_red (d : Side) {t : ColorTree α} {n : Nat} (h : t.Balanced n)
    (hc : t.color = .red) :
    ∃ s a u, t = on d .red s a u ∧ (s.color = .black ∧ u.color = .black) ∧
      s.Balanced n ∧ u.Balanced n := by
  obtain rfl | ⟨c, s, a, u, rfl⟩ := eq_nil_or_on d t
  · exact absurd hc nofun
  · rw [color_on] at hc
    subst hc
    exact ⟨s, a, u, rfl, balanced_on_red.mp h⟩

/-- A red-black tree: balanced, and black at the root. -/
def IsRedBlack (t : ColorTree α) : Prop := t.color = .black ∧ ∃ n, t.Balanced n

theorem isRedBlack_nil : (nil : ColorTree α).IsRedBlack := ⟨rfl, 0, rfl⟩

/-! ### The depth -/

/-- The elements are at least as many as the black nodes of a full tree, and the
depth is at most twice the black height, and one more when the root is red. -/
theorem Balanced.bounds {t : ColorTree α} {n : Nat} (h : t.Balanced n) :
    2 ^ n ≤ t.inorder.length + 1 ∧
      t.depth ≤ 2 * n + 1 ∧ (t.color = .black → t.depth ≤ 2 * n) := by
  -- on the tree; a red node adds to the depth alone, under it the subtrees are black
  induction t generalizing n with
  | nil =>
    obtain rfl : n = 0 := h
    simp [depth]
  | node c l a r ihl ihr =>
    cases c with
    | red =>
      obtain ⟨⟨hlc, hrc⟩, hl, hr⟩ := h
      obtain ⟨hsize, -, hld⟩ := ihl hl
      have hrd : r.depth ≤ 2 * n := (ihr hr).2.2 hrc
      have hdepth : max l.depth r.depth ≤ 2 * n := max_le (hld hlc) hrd
      refine ⟨?_, Nat.succ_le_succ hdepth, nofun⟩
      rw [inorder_node, List.length_append, List.length_cons]
      omega
    | black =>
      cases n with
      | zero => exact h.elim
      | succ n =>
        obtain ⟨hl, hr⟩ := h
        obtain ⟨hlsize, hld, -⟩ := ihl hl
        obtain ⟨hrsize, hrd, -⟩ := ihr hr
        have hdepth : (node .black l a r).depth ≤ 2 * (n + 1) := by
          have hmax : max l.depth r.depth ≤ 2 * n + 1 := max_le hld hrd
          rw [depth]
          omega
        refine ⟨?_, by omega, fun _ => hdepth⟩
        rw [inorder_node, List.length_append, List.length_cons, pow_succ]
        omega

/-- **The depth of a red-black tree is logarithmic.** -/
theorem IsRedBlack.depth_le {t : ColorTree α} (h : t.IsRedBlack) :
    t.depth ≤ 2 * Nat.log 2 (t.inorder.length + 1) := by
  obtain ⟨hc, n, hn⟩ := h
  -- the black height is at most the logarithm of the size
  obtain ⟨hsize, -, hdepth⟩ := hn.bounds
  calc t.depth ≤ 2 * n := hdepth hc
    _ ≤ 2 * Nat.log 2 (t.inorder.length + 1) :=
      Nat.mul_le_mul_left 2 (Nat.le_log_of_pow_le (by norm_num) hsize)

end ColorTree

open RedBlack.ColorTree

/-! ### Locations -/

/-- One step up from a location: the node above, its colour, the side on which the
location is, and the subtree on the other side. -/
structure Frame (α : Type u) where
  side : Side
  color : Color
  elem : α
  sibling : ColorTree α
  deriving DecidableEq, Repr

/-- The way from a location up to the root. -/
abbrev Path (α : Type u) := List (Frame α)

def Frame.fill (f : Frame α) (t : ColorTree α) : ColorTree α := on f.side f.color t f.elem f.sibling

/-- The tree with the subtree `t` at the location. -/
def plug : Path α → ColorTree α → ColorTree α
  | [], t => t
  | f :: path, t => plug path (f.fill t)

theorem plug_append (path path' : Path α) (t : ColorTree α) :
    plug (path ++ path') t = plug path' (plug path t) := by
  induction path generalizing t with
  | nil => rfl
  | cons f path ih => exact ih (f.fill t)

theorem depth_plug_le (path : Path α) (t : ColorTree α) :
    path.length + t.depth ≤ (plug path t).depth := by
  induction path generalizing t with
  | nil => exact (Nat.zero_add _).le
  | cons f path ih =>
    -- a frame adds a level, whatever its other subtree is
    have hfill : t.depth + 1 ≤ (f.fill t).depth := by
      rw [Frame.fill]
      cases f.side with
      | left => exact Nat.succ_le_succ (le_max_left _ _)
      | right => exact Nat.succ_le_succ (le_max_right _ _)
    have hrest := ih (f.fill t)
    rw [plug, List.length_cons]
    omega

/-- What stands to the left of the location. -/
def before : Path α → List α
  | [] => []
  | f :: path =>
    match f.side with
    | .left => before path
    | .right => before path ++ (f.sibling.inorder ++ [f.elem])

/-- What stands to its right. -/
def after : Path α → List α
  | [] => []
  | f :: path =>
    match f.side with
    | .left => f.elem :: f.sibling.inorder ++ after path
    | .right => after path

/-- **The sequence around a location.** -/
theorem inorder_plug (path : Path α) (t : ColorTree α) :
    (plug path t).inorder = before path ++ t.inorder ++ after path := by
  -- on the path; each frame puts its part on one side
  induction path generalizing t with
  | nil => simp [plug, before, after]
  | cons f path ih =>
    rw [plug, ih, before, after, Frame.fill]
    cases f.side <;> simp [on]

theorem inorder_plug_congr {path : Path α} {t t' : ColorTree α} (h : t.inorder = t'.inorder) :
    (plug path t).inorder = (plug path t').inorder := by rw [inorder_plug, inorder_plug, h]

theorem before_append (path path' : Path α) :
    before (path ++ path') = before path' ++ before path := by
  induction path with
  | nil => exact (List.append_nil _).symm
  | cons f path ih =>
    rw [List.cons_append, before, before, ih]
    cases f.side <;> simp

theorem after_append (path path' : Path α) :
    after (path ++ path') = after path ++ after path' := by
  induction path with
  | nil => rfl
  | cons f path ih =>
    rw [List.cons_append, after, after, ih]
    cases f.side <;> simp

/-- The elements of the path, in any order. -/
def pathElems (path : Path α) : List α := before path ++ after path

theorem perm_inorder_plug (path : Path α) (t : ColorTree α) :
    (plug path t).inorder.Perm (pathElems path ++ t.inorder) := by
  rw [inorder_plug, pathElems, List.append_assoc, List.append_assoc]
  exact List.perm_append_comm.append_left _

/-- The elements of a path, frame by frame. -/
theorem perm_pathElems_cons (f : Frame α) (path : Path α) :
    (pathElems (f :: path)).Perm (f.elem :: (f.sibling.inorder ++ pathElems path)) := by
  classical
  refine List.perm_iff_count.mpr fun x => ?_
  rw [pathElems, pathElems, before, after]
  -- on which side the frame stands does not matter for the count
  cases f.side <;> simp only [List.count_append, List.count_cons, List.count_nil] <;> omega

theorem mem_pathElems_cons {f : Frame α} {path : Path α} {x : α} :
    x ∈ pathElems (f :: path) ↔ x = f.elem ∨ x ∈ f.sibling.inorder ∨ x ∈ pathElems path := by
  rw [(perm_pathElems_cons f path).mem_iff, List.mem_cons, List.mem_append]

theorem mem_pathElems_append {path path' : Path α} {x : α} :
    x ∈ pathElems (path ++ path') ↔ x ∈ pathElems path ∨ x ∈ pathElems path' := by
  rw [pathElems, pathElems, pathElems, before_append, after_append]
  simp only [List.mem_append]
  tauto

/-- Every element has a location. -/
theorem exists_location {t : ColorTree α} {x : α} (h : x ∈ t.inorder) :
    ∃ path c l r, t = plug path (.node c l x r) := by
  induction t with
  | nil => exact absurd h List.not_mem_nil
  | node c l a r ihl ihr =>
    rw [inorder_node, List.mem_append, List.mem_cons] at h
    rcases h with hl | rfl | hr
    -- the location in the subtree, under one more frame
    · obtain ⟨path, c', l', r', rfl⟩ := ihl hl
      refine ⟨path ++ [⟨.left, c, a, r⟩], c', l', r', ?_⟩
      rw [plug_append]
      rfl
    · exact ⟨[], c, l, r, rfl⟩
    · obtain ⟨path, c', l', r', rfl⟩ := ihr hr
      refine ⟨path ++ [⟨.right, c, a, l⟩], c', l', r', ?_⟩
      rw [plug_append]
      rfl

/-! ### The rules around a location -/

/-- The colour of the node above. Above the root it counts as red, as the root
must be black. -/
def parentColor : Path α → Color
  | [] => .red
  | f :: _ => f.color

/-- The path is balanced around a subtree of black height `n`. -/
def PathBalanced : Path α → Nat → Prop
  | [], _ => True
  | ⟨_, .red, _, s⟩ :: path, n =>
    s.Balanced n ∧ s.color = .black ∧ parentColor path = .black ∧ PathBalanced path n
  | ⟨_, .black, _, s⟩ :: path, n => s.Balanced n ∧ PathBalanced path (n + 1)

theorem PathBalanced.sibling {f : Frame α} {path : Path α} {n : Nat}
    (h : PathBalanced (f :: path) n) : f.sibling.Balanced n := by
  obtain ⟨d, c, a, s⟩ := f
  cases c with
  | red => exact h.1
  | black => exact h.1

/-- **The two halves of the rules.** -/
theorem isRedBlack_plug {path : Path α} {t : ColorTree α} :
    (plug path t).IsRedBlack ↔
      ∃ n, PathBalanced path n ∧ t.Balanced n ∧ (parentColor path = .red → t.color = .black) := by
  -- on the path: a frame passes from the subtree to the path
  induction path generalizing t with
  | nil => simp [plug, IsRedBlack, PathBalanced, parentColor, and_comm]
  | cons f path ih =>
    obtain ⟨d, c, a, s⟩ := f
    rw [plug, ih, Frame.fill]
    cases c with
    | red =>
      simp only [balanced_on_red, color_on, PathBalanced, parentColor]
      constructor
      · rintro ⟨n, hp, ⟨⟨htc, hsc⟩, ht, hs⟩, hblack⟩
        have hpc : parentColor path = .black := by
          cases hc : parentColor path with
          | red => exact absurd (hblack hc) (by simp)
          | black => rfl
        exact ⟨n, ⟨hs, hsc, hpc, hp⟩, ht, fun _ => htc⟩
      · rintro ⟨n, ⟨hs, hsc, hpc, hp⟩, ht, htc⟩
        exact ⟨n, hp, ⟨⟨htc trivial, hsc⟩, ht, hs⟩, fun h => absurd (hpc.symm.trans h) (by simp)⟩
    | black =>
      simp only [color_on, PathBalanced, parentColor]
      constructor
      · rintro ⟨n, hp, ht, -⟩
        cases n with
        | zero => cases d <;> exact ht.elim
        | succ n =>
          obtain ⟨ht, hs⟩ := balanced_on_black.mp ht
          exact ⟨n, ⟨hs, hp⟩, ht, nofun⟩
      · rintro ⟨n, ⟨hs, hp⟩, ht, -⟩
        exact ⟨n + 1, hp, balanced_on_black.mpr ⟨ht, hs⟩, fun _ => trivial⟩

end RedBlack
