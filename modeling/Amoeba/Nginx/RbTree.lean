import Mathlib.Data.List.Perm.Basic
import Amoeba.RedBlack.Insert
import Amoeba.RedBlack.Delete

/-!
# Red-black trees in memory

The nodes of `ngx_rbtree_t` link their children and their parent, and empty
subtrees are one sentinel node that all of them share. The fields of all nodes are
functions of the address here; the loops run on fuel, and run out of it when there
is none left.

* `Represents` — the memory holds a given tree. Nothing is said about the parent
  of the root, which a deletion can leave pointing to a freed node.
* `Represents.subtree` — what a change under one location has to keep.
* `rotate_represents` — a rotation in memory is a rotation of the tree.
-/

namespace Nginx

open RedBlack RedBlack.ColorTree

/-! ### The memory -/

/-- `ngx_rbtree_t` together with the fields of all nodes. -/
structure RbTree where
  /-- `left` and `right` -/
  child : Side → Nat → Nat
  parent : Nat → Nat
  color : Nat → Color
  key : Nat → Nat
  root : Nat
  sentinel : Nat

namespace RbTree

def setChild (s : RbTree) (d : Side) (p q : Nat) : RbTree :=
  { s with child := fun e x => if e = d ∧ x = p then q else s.child e x }

def setParent (s : RbTree) (p q : Nat) : RbTree :=
  { s with parent := Function.update s.parent p q }

def setColor (s : RbTree) (p : Nat) (c : Color) : RbTree :=
  { s with color := Function.update s.color p c }

def setKey (s : RbTree) (p k : Nat) : RbTree :=
  { s with key := Function.update s.key p k }

def setRoot (s : RbTree) (p : Nat) : RbTree := { s with root := p }

/-- Hang `temp` where `node` hangs under its parent, with the side `d` tried first. -/
def rehang (d : Side) (s : RbTree) (node temp : Nat) : RbTree :=
  if node = s.child d (s.parent node) then s.setChild d (s.parent node) temp
  else s.setChild d.other (s.parent node) temp

/-- The rotation to the side `d`. -/
def rotate (d : Side) (s : RbTree) (node : Nat) : RbTree :=
  let temp := s.child d.other node
  let s := s.setChild d.other node (s.child d temp)
  let s := if s.child d temp ≠ s.sentinel then s.setParent (s.child d temp) node else s
  let s := s.setParent temp (s.parent node)
  let s := if node = s.root then s.setRoot temp else s.rehang d node temp
  let s := s.setChild d temp node
  s.setParent node temp

end RbTree

/-- `ngx_rbtree_left_rotate` -/
def ngxRbtreeLeftRotate (s : RbTree) (node : Nat) : RbTree := s.rotate .left node

/-- `ngx_rbtree_right_rotate` -/
def ngxRbtreeRightRotate (s : RbTree) (node : Nat) : RbTree := s.rotate .right node

/-! ### The tree in memory -/

/-- The address of the root of a tree, with the sentinel for an empty one. -/
def addr (sentinel : Nat) : ColorTree Nat → Nat
  | .nil => sentinel
  | .node _ _ a _ => a

@[simp] theorem addr_on (sentinel : Nat) (d : Side) (c : Color) (l : ColorTree Nat) (a : Nat)
    (r : ColorTree Nat) : addr sentinel (on d c l a r) = a := by cases d <;> rfl

@[simp] theorem addr_paint (sentinel : Nat) (c : Color) (t : ColorTree Nat) :
    addr sentinel (t.paint c) = addr sentinel t := by cases t <;> rfl

theorem ne_addr {sentinel x : Nat} {t : ColorTree Nat} (hs : x ≠ sentinel) (hx : x ∉ t.inorder) :
    x ≠ addr sentinel t := by
  rintro rfl
  cases t with
  | nil => exact hs rfl
  | node c l a r => exact hx (by simp [addr])

/-- The child pointers are those of the tree. -/
def Children (child : Side → Nat → Nat) (sentinel : Nat) : ColorTree Nat → Prop
  | .nil => True
  | .node _ l a r =>
    (child .left a = addr sentinel l ∧ child .right a = addr sentinel r) ∧
      Children child sentinel l ∧ Children child sentinel r

/-- The parent pointers are those of the tree; that of the root is `up`, if given. -/
def Parents (parent : Nat → Nat) : Option Nat → ColorTree Nat → Prop
  | _, .nil => True
  | up, .node _ l a r =>
    (∀ p, up = some p → parent a = p) ∧ Parents parent (some a) l ∧ Parents parent (some a) r

/-- The colours are those of the tree. -/
def Colors (color : Nat → Color) : ColorTree Nat → Prop
  | .nil => True
  | .node c l a r => color a = c ∧ Colors color l ∧ Colors color r

/-- **The memory holds the tree.** -/
structure Represents (s : RbTree) (t : ColorTree Nat) : Prop where
  root_eq : s.root = addr s.sentinel t
  children : Children s.child s.sentinel t
  parents : Parents s.parent none t
  colors : Colors s.color t
  nodup : t.inorder.Nodup
  sentinel_notMem : s.sentinel ∉ t.inorder
  sentinel_black : s.color s.sentinel = .black

/-! ### Seen from a side -/

section

variable {child child' : Side → Nat → Nat} {sentinel : Nat} {parent parent' : Nat → Nat}
  {color color' : Nat → Color} {d : Side} {c : Color} {l r t : ColorTree Nat} {a : Nat}
  {up : Option Nat}

theorem children_on : Children child sentinel (on d c l a r) ↔
    (child d a = addr sentinel l ∧ child d.other a = addr sentinel r) ∧
      Children child sentinel l ∧ Children child sentinel r := by
  cases d with
  | left => rfl
  | right =>
    rw [and_comm (a := child .right a = _), and_comm (a := Children child sentinel l)]
    rfl

theorem parents_on : Parents parent up (on d c l a r) ↔
    (∀ p, up = some p → parent a = p) ∧ Parents parent (some a) l ∧ Parents parent (some a) r := by
  cases d with
  | left => rfl
  | right =>
    rw [and_comm (a := Parents parent (some a) l)]
    rfl

theorem colors_on : Colors color (on d c l a r) ↔
    color a = c ∧ Colors color l ∧ Colors color r := by
  cases d with
  | left => rfl
  | right =>
    rw [and_comm (a := Colors color l)]
    rfl

/-! What is true of a tree is true as long as its own nodes are not written. -/

theorem Children.congr (h : Children child sentinel t)
    (heq : ∀ e, ∀ x ∈ t.inorder, child' e x = child e x) : Children child' sentinel t := by
  induction t with
  | nil => trivial
  | node c l a r ihl ihr =>
    obtain ⟨⟨hleft, hright⟩, hl, hr⟩ := h
    refine ⟨⟨?_, ?_⟩, ihl hl fun e x hx => heq e x (by simp [hx]),
      ihr hr fun e x hx => heq e x (by simp [hx])⟩
    · rw [heq .left a (by simp), hleft]
    · rw [heq .right a (by simp), hright]

theorem Parents.congr (h : Parents parent up t) (heq : ∀ x ∈ t.inorder, parent' x = parent x) :
    Parents parent' up t := by
  induction t generalizing up with
  | nil => trivial
  | node c l a r ihl ihr =>
    obtain ⟨hup, hl, hr⟩ := h
    refine ⟨fun p hp => ?_, ihl hl fun x hx => heq x (by simp [hx]),
      ihr hr fun x hx => heq x (by simp [hx])⟩
    rw [heq a (by simp), hup p hp]

theorem Colors.congr (h : Colors color t) (heq : ∀ x ∈ t.inorder, color' x = color x) :
    Colors color' t := by
  induction t with
  | nil => trivial
  | node c l a r ihl ihr =>
    obtain ⟨hc, hl, hr⟩ := h
    refine ⟨?_, ihl hl fun x hx => heq x (by simp [hx]), ihr hr fun x hx => heq x (by simp [hx])⟩
    rw [heq a (by simp), hc]

variable (sentinel) in
/-- A tree that hangs somewhere can be hung elsewhere by writing the parent of its
root. -/
theorem Parents.rehang (h : Parents parent up t) {q : Nat}
    (hroot : ∀ c l a r, t = .node c l a r → parent' a = q)
    (heq : ∀ x ∈ t.inorder, x ≠ addr sentinel t → parent' x = parent x) (hnodup : t.inorder.Nodup) :
    Parents parent' (some q) t := by
  cases t with
  | nil => trivial
  | node c l a r =>
    obtain ⟨-, hl, hr⟩ := h
    rw [inorder_node, List.nodup_append, List.nodup_cons] at hnodup
    -- the root is in neither of its subtrees, so only its own parent was written
    obtain ⟨-, ⟨har, -⟩, hdisj⟩ := hnodup
    refine ⟨fun p hp => ?_, hl.congr fun x hx => heq x (by simp [hx]) ?_,
      hr.congr fun x hx => heq x (by simp [hx]) ?_⟩
    · rw [hroot c l a r rfl]
      exact Option.some.inj hp
    · exact hdisj x hx a List.mem_cons_self
    · rintro rfl
      exact har hx

/-- The parent above is not looked at unless it is given. -/
theorem Parents.weaken (h : Parents parent up t) : Parents parent none t := by
  cases t with
  | nil => trivial
  | node c l a r => exact ⟨nofun, h.2⟩

end

/-! ### Around a location -/

/-- The child pointers above a location, at which the subtree with the address `hole`
hangs. -/
def PathChildren (child : Side → Nat → Nat) (sentinel : Nat) : Path Nat → Nat → Prop
  | [], _ => True
  | f :: path, hole =>
    (child f.side f.elem = hole ∧ child f.side.other f.elem = addr sentinel f.sibling) ∧
      Children child sentinel f.sibling ∧ PathChildren child sentinel path f.elem

/-- The node above a location. -/
def up : Path Nat → Option Nat
  | [] => none
  | f :: _ => some f.elem

def PathParents (parent : Nat → Nat) : Path Nat → Prop
  | [] => True
  | f :: path =>
    (∀ p, up path = some p → parent f.elem = p) ∧ Parents parent (some f.elem) f.sibling ∧
      PathParents parent path

def PathColors (color : Nat → Color) : Path Nat → Prop
  | [] => True
  | f :: path => color f.elem = f.color ∧ Colors color f.sibling ∧ PathColors color path

section

variable {child child' : Side → Nat → Nat} {sentinel : Nat} {parent parent' : Nat → Nat}
  {color color' : Nat → Color} {path : Path Nat} {t : ColorTree Nat}

theorem children_plug : Children child sentinel (plug path t) ↔
    PathChildren child sentinel path (addr sentinel t) ∧ Children child sentinel t := by
  induction path generalizing t with
  | nil => exact (iff_of_eq (true_and _)).symm
  | cons f path ih =>
    rw [plug, ih, Frame.fill, children_on, addr_on, PathChildren]
    tauto

theorem parents_plug : Parents parent none (plug path t) ↔
    PathParents parent path ∧ Parents parent (up path) t := by
  induction path generalizing t with
  | nil => exact (iff_of_eq (true_and _)).symm
  | cons f path ih =>
    rw [plug, ih, Frame.fill, parents_on, PathParents, up]
    tauto

theorem colors_plug : Colors color (plug path t) ↔ PathColors color path ∧ Colors color t := by
  induction path generalizing t with
  | nil => exact (iff_of_eq (true_and _)).symm
  | cons f path ih =>
    rw [plug, ih, Frame.fill, colors_on, PathColors]
    tauto

/-- The pointer from above to the location. -/
def IsHole : Path Nat → Side → Nat → Prop
  | [], _, _ => False
  | f :: _, e, x => e = f.side ∧ x = f.elem

instance (path : Path Nat) (e : Side) (x : Nat) : Decidable (IsHole path e x) :=
  match path with
  | [] => isFalse id
  | f :: _ => inferInstanceAs (Decidable (e = f.side ∧ x = f.elem))

theorem IsHole.mem {e : Side} {x : Nat} (h : IsHole path e x) : x ∈ pathElems path := by
  cases path with
  | nil => exact h.elim
  | cons f path => exact mem_pathElems_cons.mpr (Or.inl h.2)

theorem PathChildren.congr {hole hole' : Nat} (h : PathChildren child sentinel path hole)
    (hnodup : (pathElems path).Nodup) (hhole : ∀ e x, IsHole path e x → child' e x = hole')
    (heq : ∀ e, ∀ x ∈ pathElems path, ¬ IsHole path e x → child' e x = child e x) :
    PathChildren child' sentinel path hole' := by
  induction path generalizing hole hole' with
  | nil => trivial
  | cons f path ih =>
    obtain ⟨⟨hhere, hother⟩, hsib, hpath⟩ := h
    -- the nodes of the frame, of the sibling and of the rest are different
    rw [(perm_pathElems_cons f path).nodup_iff, List.nodup_cons, List.mem_append,
      not_or, List.nodup_append] at hnodup
    obtain ⟨⟨hfs, hfp⟩, -, hpn, -⟩ := hnodup
    have hkeep : ∀ e x, x ∈ f.sibling.inorder ∨ x ∈ pathElems path → child' e x = child e x := by
      intro e x hx
      refine heq e x (mem_pathElems_cons.mpr (Or.inr hx)) fun hhole => ?_
      obtain rfl : x = f.elem := hhole.2
      exact hx.elim hfs hfp
    refine ⟨⟨hhole f.side f.elem ⟨rfl, rfl⟩, ?_⟩, hsib.congr fun e x hx => hkeep e x (Or.inl hx),
      ih hpath hpn (fun e x hhole => ?_) fun e x hx _ => hkeep e x (Or.inr hx)⟩
    · rw [heq _ _ (mem_pathElems_cons.mpr (Or.inl rfl)) fun h => f.side.other_ne h.1, hother]
    · cases path with
      | nil => exact hhole.elim
      | cons g path =>
        obtain ⟨rfl, rfl⟩ := hhole
        rw [hkeep _ _ (Or.inr (mem_pathElems_cons.mpr (Or.inl rfl)))]
        exact hpath.1.1

theorem PathParents.congr (h : PathParents parent path)
    (heq : ∀ x ∈ pathElems path, parent' x = parent x) : PathParents parent' path := by
  induction path with
  | nil => trivial
  | cons f path ih =>
    obtain ⟨hup, hsib, hpath⟩ := h
    have hmem : ∀ x, x = f.elem ∨ x ∈ f.sibling.inorder ∨ x ∈ pathElems path →
        parent' x = parent x := fun x hx => heq x (mem_pathElems_cons.mpr hx)
    refine ⟨fun p hp => ?_, hsib.congr fun x hx => hmem x (Or.inr (Or.inl hx)),
      ih hpath fun x hx => hmem x (Or.inr (Or.inr hx))⟩
    rw [hmem _ (Or.inl rfl), hup p hp]

theorem PathColors.congr (h : PathColors color path)
    (heq : ∀ x ∈ pathElems path, color' x = color x) : PathColors color' path := by
  induction path with
  | nil => trivial
  | cons f path ih =>
    obtain ⟨hf, hsib, hpath⟩ := h
    have hmem : ∀ x, x = f.elem ∨ x ∈ f.sibling.inorder ∨ x ∈ pathElems path →
        color' x = color x := fun x hx => heq x (mem_pathElems_cons.mpr hx)
    refine ⟨?_, hsib.congr fun x hx => hmem x (Or.inr (Or.inl hx)),
      ih hpath fun x hx => hmem x (Or.inr (Or.inr hx))⟩
    rw [hmem _ (Or.inl rfl), hf]

/-- The root of the tree is above every location. -/
theorem addr_plug_mem (f : Frame Nat) (path : Path Nat) (t : ColorTree Nat) :
    addr sentinel (plug (f :: path) t) ∈ pathElems (f :: path) := by
  induction path generalizing f t with
  | nil =>
    rw [plug, plug, Frame.fill, addr_on]
    exact mem_pathElems_cons.mpr (Or.inl rfl)
  | cons g path ih => exact mem_pathElems_cons.mpr (Or.inr (Or.inr (ih g (f.fill t))))

end

/-! ### The other side of a node -/

theorem plug_cons_other (d : Side) (c : Color) (a : Nat) (l r : ColorTree Nat) (path : Path Nat) :
    plug (⟨d.other, c, a, l⟩ :: path) r = plug (⟨d, c, a, r⟩ :: path) l := by
  rw [plug, plug, Frame.fill, Frame.fill, on_other]

theorem on_ne_nil {d : Side} {c : Color} {l : ColorTree Nat} {a : Nat} {r : ColorTree Nat} :
    on d c l a r ≠ .nil := by cases d <;> nofun

/-- The keys are no part of the tree. -/
theorem Represents.setKey {s : RbTree} {t : ColorTree Nat} (h : Represents s t) (p k : Nat) :
    Represents (s.setKey p k) t :=
  ⟨h.root_eq, h.children, h.parents, h.colors, h.nodup, h.sentinel_notMem, h.sentinel_black⟩

/-! ### What the memory says about a location -/

namespace Represents

variable {s s' : RbTree} {path : Path Nat} {f : Frame Nat} {t : ColorTree Nat} {d : Side}
  {c : Color} {l r : ColorTree Nat} {a : Nat}

theorem mem_plug {x : Nat} :
    x ∈ (plug path t).inorder ↔ x ∈ pathElems path ∨ x ∈ t.inorder := by
  rw [(perm_inorder_plug path t).mem_iff, List.mem_append]

theorem nodup_plug (h : Represents s (plug path t)) :
    (pathElems path).Nodup ∧ t.inorder.Nodup ∧ ∀ x ∈ pathElems path, x ∉ t.inorder := by
  have hnodup := (perm_inorder_plug path t).nodup_iff.mp h.nodup
  rw [List.nodup_append] at hnodup
  exact ⟨hnodup.1, hnodup.2.1, fun x hx hx' => hnodup.2.2 x hx x hx' rfl⟩

theorem sentinel_notMem_plug (h : Represents s (plug path t)) :
    s.sentinel ∉ pathElems path ∧ s.sentinel ∉ t.inorder := by
  have hnot := h.sentinel_notMem
  rw [mem_plug, not_or] at hnot
  exact hnot

/-- The subtree at a location has its own address, or that of the sentinel. -/
theorem addr_eq_sentinel_iff (h : Represents s (plug path t)) :
    addr s.sentinel t = s.sentinel ↔ t = .nil := by
  cases t with
  | nil => exact iff_of_true rfl rfl
  | node c l a r =>
    refine iff_of_false (fun heq => h.sentinel_notMem_plug.2 ?_) nofun
    rw [← heq]
    simp [addr]

/-- A node above a location is not in the subtree there. -/
theorem addr_ne_of_mem (h : Represents s (plug path t)) {x : Nat} (hx : x ∈ pathElems path) :
    addr s.sentinel t ≠ x := by
  rintro rfl
  cases t with
  | nil => exact h.sentinel_notMem_plug.1 hx
  | node c l a r => exact h.nodup_plug.2.2 a hx (by simp)

/-- The pointers and the colour of a node. -/
theorem node_eq (h : Represents s (plug path (on d c l a r))) :
    s.color a = c ∧ s.child d a = addr s.sentinel l ∧ s.child d.other a = addr s.sentinel r := by
  obtain ⟨hc, hc'⟩ := colors_plug.mp h.colors
  obtain ⟨hs, hs'⟩ := children_plug.mp h.children
  exact ⟨(colors_on.mp hc').1, (children_on.mp hs').1⟩

theorem color_addr (h : Represents s (plug path t)) : s.color (addr s.sentinel t) = t.color := by
  cases t with
  | nil => exact h.sentinel_black
  | node c l a r => exact (colors_plug.mp h.colors).2.1

/-- The parent of a node under a frame. -/
theorem parent_eq (h : Represents s (plug (f :: path) (on d c l a r))) : s.parent a = f.elem :=
  (parents_on.mp (parents_plug.mp h.parents).2).1 f.elem rfl

theorem parent_addr (h : Represents s (plug (f :: path) t)) (ht : t ≠ .nil) :
    s.parent (addr s.sentinel t) = f.elem := by
  obtain rfl | ⟨c, l, a, r, rfl⟩ := eq_nil_or_on .left t
  · exact absurd rfl ht
  · rw [addr_on]
    exact h.parent_eq

/-- Under a frame there is no root. -/
theorem ne_root (h : Represents s (plug (f :: path) t)) : addr s.sentinel t ≠ s.root := by
  have hmem : s.root ∈ pathElems (f :: path) := by
    rw [h.root_eq]
    exact addr_plug_mem f path t
  exact h.addr_ne_of_mem hmem

/-- The two subtrees of a node are at different addresses, when one is not empty. -/
theorem addr_ne (h : Represents s (plug path (on d c l a r))) (hne : l ≠ .nil ∨ r ≠ .nil) :
    addr s.sentinel l ≠ addr s.sentinel r := by
  obtain ⟨-, hnodup, -⟩ := h.nodup_plug
  have hsent := h.sentinel_notMem_plug.2
  intro heq
  cases l with
  -- both empty is excluded, and one of them is at the sentinel
  | nil =>
    cases r with
    | nil => exact hne.elim (fun h => h rfl) fun h => h rfl
    | node c₂ l₂ b r₂ =>
      refine hsent (mem_inorder_on.mpr (Or.inr (Or.inr ?_)))
      rw [addr] at heq
      simp [heq, addr]
  | node c₁ l₁ b₁ r₁ =>
    cases r with
    | nil =>
      refine hsent (mem_inorder_on.mpr (Or.inr (Or.inl ?_)))
      rw [addr, addr] at heq
      simp [← heq]
    | node c₂ l₂ b r₂ =>
      obtain rfl : b₁ = b := heq
      cases d <;> simp [on, List.nodup_append] at hnodup

/-- The test on which side of its parent a subtree hangs. -/
theorem side_eq_iff (h : Represents s (plug (f :: path) t)) (hne : t ≠ .nil ∨ f.sibling ≠ .nil)
    (e : Side) : addr s.sentinel t = s.child e f.elem ↔ f.side = e := by
  have hup : Represents s (plug path (on f.side f.color t f.elem f.sibling)) := h
  obtain ⟨-, hhere, hother⟩ := hup.node_eq
  rcases f.side.eq_or_eq_other e with rfl | rfl
  · exact iff_of_true hhere.symm rfl
  · rw [hother]
    exact iff_of_false (hup.addr_ne hne) (Side.ne_other _)

end Represents

/-! ### Changes under a location -/

/-- The node is as it was. -/
def SameAt (s s' : RbTree) (x : Nat) : Prop :=
  (∀ e, s'.child e x = s.child e x) ∧ s'.parent x = s.parent x ∧ s'.color x = s.color x

theorem SameAt.refl (s : RbTree) (x : Nat) : SameAt s s x := ⟨fun _ => rfl, rfl, rfl⟩

theorem SameAt.trans {s s' s'' : RbTree} {x : Nat} (h : SameAt s s' x) (h' : SameAt s' s'' x) :
    SameAt s s'' x :=
  ⟨fun e => (h'.1 e).trans (h.1 e), h'.2.1.trans h.2.1, h'.2.2.trans h.2.2⟩

/-- **One tree is made into another**: the same nodes, linked anew, and no other node
written. -/
structure Rewrites (s : RbTree) (t : ColorTree Nat) (s' : RbTree) (t' : ColorTree Nat) : Prop where
  represents : Represents s' t'
  sentinel_eq : s'.sentinel = s.sentinel
  key_eq : s'.key = s.key
  mem_iff : ∀ x, x ∈ t'.inorder ↔ x ∈ t.inorder
  outside : ∀ x, x ∉ t.inorder → SameAt s s' x

theorem Rewrites.refl {s : RbTree} {t : ColorTree Nat} (h : Represents s t) : Rewrites s t s t :=
  ⟨h, rfl, rfl, fun _ => Iff.rfl, fun x _ => SameAt.refl s x⟩

theorem Rewrites.trans {s s' s'' : RbTree} {t t' t'' : ColorTree Nat} (h : Rewrites s t s' t')
    (h' : Rewrites s' t' s'' t'') : Rewrites s t s'' t'' where
  represents := h'.represents
  sentinel_eq := h'.sentinel_eq.trans h.sentinel_eq
  key_eq := h'.key_eq.trans h.key_eq
  mem_iff := fun x => (h'.mem_iff x).trans (h.mem_iff x)
  outside := fun x hx =>
    (h.outside x hx).trans (h'.outside x fun hx' => hx ((h.mem_iff x).mp hx'))

/-- The root of the tree does not depend on what is under a frame. -/
theorem addr_plug_cons (sentinel : Nat) (f : Frame Nat) (path : Path Nat) (t t' : ColorTree Nat) :
    addr sentinel (plug (f :: path) t) = addr sentinel (plug (f :: path) t') := by
  induction path generalizing f t t' with
  | nil => rw [plug, plug, plug, plug, Frame.fill, Frame.fill, addr_on, addr_on]
  | cons g path ih => exact ih g (f.fill t) (f.fill t')

/-- **Another subtree at a location**: it is in memory under the same parent, the
pointer to the location is to its root, and the nodes around it are as they were. -/
theorem Represents.replace {s s' : RbTree} {path : Path Nat} {t t' : ColorTree Nat}
    (h : Represents s (plug path t)) (hsent : s'.sentinel = s.sentinel)
    (hnodup : t'.inorder.Nodup) (hnew : ∀ x ∈ t'.inorder, x ∉ pathElems path ∧ x ≠ s.sentinel)
    (hroot : s'.root = if path = [] then addr s.sentinel t' else s.root)
    (hhole : ∀ e x, IsHole path e x → s'.child e x = addr s.sentinel t')
    (hchild : ∀ e, ∀ x ∈ pathElems path, ¬ IsHole path e x → s'.child e x = s.child e x)
    (hparent : ∀ x ∈ pathElems path, s'.parent x = s.parent x)
    (hcolor : ∀ x ∈ pathElems path, s'.color x = s.color x) (hblack : s'.color s.sentinel = .black)
    (hc : Children s'.child s.sentinel t') (hp : Parents s'.parent (up path) t')
    (hcol : Colors s'.color t') : Represents s' (plug path t') := by
  obtain ⟨hpath, -, -⟩ := h.nodup_plug
  refine ⟨?_, ?_, ?_, ?_, ?_, ?_, ?_⟩
  · rw [hroot, hsent]
    -- the root is written when the location is that of the whole tree
    cases path with
    | nil => rfl
    | cons f path =>
      rw [if_neg nofun, h.root_eq]
      exact addr_plug_cons s.sentinel f path t t'
  · rw [hsent]
    exact children_plug.mpr ⟨(children_plug.mp h.children).1.congr hpath hhole hchild, hc⟩
  · exact parents_plug.mpr ⟨(parents_plug.mp h.parents).1.congr hparent, hp⟩
  · exact colors_plug.mpr ⟨(colors_plug.mp h.colors).1.congr hcolor, hcol⟩
  · refine (perm_inorder_plug path t').nodup_iff.mpr (List.nodup_append.mpr ⟨hpath, hnodup, ?_⟩)
    rintro x hx y hy rfl
    exact (hnew x hy).1 hx
  · rw [hsent, mem_plug, not_or]
    exact ⟨h.sentinel_notMem_plug.1, fun hmem => (hnew _ hmem).2 rfl⟩
  · rw [hsent]
    exact hblack

/-- **What a change under a location has to keep**, when it links the same nodes anew:
only nodes of the old subtree and the pointer to it were written. -/
theorem Represents.subtree {s s' : RbTree} {path : Path Nat} {t t' : ColorTree Nat}
    (h : Represents s (plug path t)) (hsent : s'.sentinel = s.sentinel) (hkey : s'.key = s.key)
    (hperm : t'.inorder.Perm t.inorder)
    (hroot : s'.root = if path = [] then addr s.sentinel t' else s.root)
    (hhole : ∀ e x, IsHole path e x → s'.child e x = addr s.sentinel t')
    (hchild : ∀ e x, x ∉ t.inorder → ¬ IsHole path e x → s'.child e x = s.child e x)
    (hparent : ∀ x, x ∉ t.inorder → s'.parent x = s.parent x)
    (hcolor : ∀ x, x ∉ t.inorder → s'.color x = s.color x)
    (hc : Children s'.child s.sentinel t') (hp : Parents s'.parent (up path) t')
    (hcol : Colors s'.color t') : Rewrites s (plug path t) s' (plug path t') := by
  obtain ⟨-, hnodup, hdisj⟩ := h.nodup_plug
  obtain ⟨-, hst⟩ := h.sentinel_notMem_plug
  refine ⟨?_, hsent, hkey, fun x => ?_, fun x hx => ?_⟩
  · refine h.replace hsent (hperm.nodup_iff.mpr hnodup) (fun x hx => ?_) hroot hhole
      (fun e x hx => hchild e x (hdisj x hx)) (fun x hx => hparent x (hdisj x hx))
      (fun x hx => hcolor x (hdisj x hx)) ?_ hc hp hcol
    -- the nodes of the new subtree are those of the old one
    · have hxt : x ∈ t.inorder := hperm.mem_iff.mp hx
      exact ⟨fun hxp => hdisj x hxp hxt, fun heq => hst (heq ▸ hxt)⟩
    · rw [hcolor _ hst]
      exact h.sentinel_black
  · rw [Represents.mem_plug, Represents.mem_plug, hperm.mem_iff]
  · rw [Represents.mem_plug, not_or] at hx
    refine ⟨fun e => hchild e x hx.2 fun hhole' => hx.1 hhole'.mem, hparent x hx.2,
      hcolor x hx.2⟩

/-- The parent pointer of a subtree, also that of the sentinel for an empty one, is kept
when the subtree keeps its parent. -/
theorem Rewrites.parent_addr {s s' : RbTree} {u t : ColorTree Nat} {f : Frame Nat} {path : Path Nat}
    (h : Rewrites s u s' (plug (f :: path) t)) (hparent : s.parent (addr s.sentinel t) = f.elem) :
    s'.parent (addr s'.sentinel t) = f.elem := by
  by_cases ht : t = .nil
  · subst ht
    -- nobody wrote the parent of the sentinel
    have hout : s.sentinel ∉ u.inorder := by
      rw [← h.mem_iff, ← h.sentinel_eq]
      exact h.represents.sentinel_notMem
    rw [addr, h.sentinel_eq, (h.outside _ hout).2.1]
    exact hparent
  · exact h.represents.parent_addr ht

/-- Painting the subtree at a location; to paint an empty one black does nothing. -/
theorem Represents.setColor {s : RbTree} {path : Path Nat} {t : ColorTree Nat}
    (h : Represents s (plug path t)) (c : Color) (hc : t = .nil → c = .black) :
    Rewrites s (plug path t) (s.setColor (addr s.sentinel t) c) (plug path (t.paint c)) := by
  cases t with
  | nil =>
    obtain rfl := hc rfl
    -- the sentinel is black as it is
    have hsame : s.setColor s.sentinel .black = s := by
      rw [RbTree.setColor, ← h.sentinel_black, Function.update_eq_self]
    rw [addr, hsame]
    exact Rewrites.refl h
  | node c' l a r =>
    obtain ⟨-, hnodup, -⟩ := h.nodup_plug
    rw [inorder_node, List.nodup_append, List.nodup_cons] at hnodup
    obtain ⟨-, ⟨har, -⟩, hdisj⟩ := hnodup
    have hal : a ∉ l.inorder := fun hx => hdisj a hx a List.mem_cons_self rfl
    obtain ⟨-, hl, hr⟩ := (colors_plug.mp h.colors).2
    have hother : ∀ x, x ≠ a → (s.setColor a c).color x = s.color x := fun x hx =>
      Function.update_of_ne hx _ _
    refine h.subtree rfl rfl (.refl _) ?_ (fun e x hhole => ?_) (fun _ _ _ _ => rfl)
      (fun _ _ => rfl) (fun x hx => hother x ?_) (children_plug.mp h.children).2
      (parents_plug.mp h.parents).2 ⟨Function.update_self _ _ _, hl.congr fun x hx => hother x ?_,
        hr.congr fun x hx => hother x ?_⟩
    · split
      · next hnil =>
        subst hnil
        exact h.root_eq
      · rfl
    · cases path with
      | nil => exact hhole.elim
      | cons f path =>
        obtain ⟨rfl, rfl⟩ := hhole
        exact (children_plug.mp h.children).1.1.1
    · rintro rfl
      exact hx (by simp)
    · rintro rfl
      exact hal hx
    · rintro rfl
      exact har hx

/-! ### Rotations -/

section

variable {s : RbTree} {path : Path Nat} {d : Side} {c c' : Color} {l : ColorTree Nat} {x : Nat}
  {b : ColorTree Nat} {y : Nat} {r : ColorTree Nat}

/-- Hanging a node in the place of another writes the pointer from above. -/
theorem RbTree.rehang_eq {f : Frame Nat} {node temp : Nat} (hparent : s.parent node = f.elem)
    (hside : node = s.child d f.elem ↔ f.side = d) :
    s.rehang d node temp = s.setChild f.side f.elem temp := by
  rw [rehang, hparent]
  split
  · next heq => rw [hside.mp heq]
  · next hne => rw [(d.eq_or_eq_other f.side).resolve_left fun heq => hne (hside.mpr heq)]

/-- A rotation up to the pointer from above, and what it writes from there on. -/
theorem RbTree.rotate_eq {z : Nat} (hxy : s.child d.other x = y) (hyz : s.child d y = z)
    (hzx : z ≠ x) :
    ∃ s₁ : RbTree, s.rotate d x =
        ((if x = s.root then (s₁.setParent y (s₁.parent x)).setRoot y
          else (s₁.setParent y (s₁.parent x)).rehang d x y).setChild d y x).setParent x y ∧
      s₁.child = (s.setChild d.other x z).child ∧
      s₁.parent = (if z ≠ s.sentinel then Function.update s.parent z x else s.parent) ∧
      s₁.parent x = s.parent x ∧ s₁.color = s.color ∧ s₁.key = s.key ∧
      s₁.sentinel = s.sentinel ∧ s₁.root = s.root := by
  obtain ⟨s₁, hs₁⟩ : ∃ s₁, s₁ = (if z ≠ s.sentinel then
      (s.setChild d.other x z).setParent z x else s.setChild d.other x z) := ⟨_, rfl⟩
  have hchild : s₁.child = (s.setChild d.other x z).child := by
    rw [hs₁]
    split <;> rfl
  have hrest : s₁.color = s.color ∧ s₁.key = s.key ∧ s₁.sentinel = s.sentinel ∧
      s₁.root = s.root := by
    rw [hs₁]
    split <;> exact ⟨rfl, rfl, rfl, rfl⟩
  have hparent : s₁.parent =
      if z ≠ s.sentinel then Function.update s.parent z x else s.parent := by
    rw [hs₁]
    split <;> rfl
  have hrot : s.rotate d x =
      ((if x = s.root then (s₁.setParent y (s₁.parent x)).setRoot y
        else (s₁.setParent y (s₁.parent x)).rehang d x y).setChild d y x).setParent x y := by
    -- the first write is not at the node that is read next
    have hkeep : (s.setChild d.other x z).child d y = z := by
      simp [RbTree.setChild, hyz]
    have hroot : (s₁.setParent y (s₁.parent x)).root = s.root := hrest.2.2.2
    unfold RbTree.rotate
    simp only [hxy, hyz, hkeep]
    rw [← hroot, hs₁]
    rfl
  have hpx : s₁.parent x = s.parent x := by
    rw [hparent]
    split
    · exact Function.update_of_ne hzx.symm _ _
    · rfl
  exact ⟨s₁, hrot, hchild, hparent, hpx, hrest⟩

/-- **The fields after a rotation.** -/
theorem rotate_fields (h : Represents s (plug path (on d c l x (on d c' b y r)))) :
    (∀ e q, (s.rotate d x).child e q =
      if e = d ∧ q = y then x else if IsHole path e q then y
      else if e = d.other ∧ q = x then addr s.sentinel b else s.child e q) ∧
    (s.rotate d x).parent =
      Function.update (Function.update
        (if addr s.sentinel b ≠ s.sentinel then Function.update s.parent (addr s.sentinel b) x
          else s.parent) y (s.parent x)) x y ∧
    (s.rotate d x).color = s.color ∧ (s.rotate d x).key = s.key ∧
    (s.rotate d x).sentinel = s.sentinel ∧
    (s.rotate d x).root = if path = [] then y else s.root := by
  -- the pointers that the rotation reads
  obtain ⟨-, -, hxy⟩ := h.node_eq
  rw [addr_on] at hxy
  have h' : Represents s (plug (⟨d.other, c, x, l⟩ :: path) (on d c' b y r)) := by
    rw [plug, Frame.fill, on_other]
    exact h
  obtain ⟨-, hyb, -⟩ := h'.node_eq
  -- the nodes that it writes are different
  have hxmem : x ∈ pathElems (⟨d.other, c, x, l⟩ :: path) := mem_pathElems_cons.mpr (Or.inl rfl)
  have hyx : y ≠ x := by
    have hne := h'.addr_ne_of_mem hxmem
    rwa [addr_on] at hne
  have hb : Represents s (plug (⟨d, c', y, r⟩ :: ⟨d.other, c, x, l⟩ :: path) b) := h'
  have hbx : addr s.sentinel b ≠ x :=
    hb.addr_ne_of_mem (mem_pathElems_cons.mpr (Or.inr (Or.inr hxmem)))
  obtain ⟨s₁, hrot, hchild, hparent, hpx, hcolor, hkey, hsent, hroot⟩ :=
    RbTree.rotate_eq hxy hyb hbx
  rw [hrot, hpx]
  -- either the root pointer or a child pointer of the parent is moved
  cases path with
  | nil =>
    have hx : x = s.root := by
      have hroot := h.root_eq
      rw [plug, addr_on] at hroot
      exact hroot.symm
    rw [if_pos hx]
    refine ⟨fun e q => ?_, ?_, hcolor, hkey, hsent, rfl⟩
    · simp [RbTree.setChild, RbTree.setParent, RbTree.setRoot, hchild, IsHole]
    · simp [RbTree.setChild, RbTree.setParent, RbTree.setRoot, hparent]
  | cons f path =>
    have hx : x ≠ s.root := by
      have hne := h.ne_root
      rwa [addr_on] at hne
    have hup : s.parent x = f.elem := h.parent_eq
    have hfx : f.elem ≠ x := by
      have hne := h.addr_ne_of_mem (mem_pathElems_cons.mpr (Or.inl rfl))
      rw [addr_on] at hne
      exact hne.symm
    -- the code tells the side by comparing the node with a child of its parent
    have hside : x = s.child d f.elem ↔ f.side = d := by
      have hiff := h.side_eq_iff (Or.inl ?_) d
      · rwa [addr_on] at hiff
      · exact on_ne_nil
    rw [if_neg hx, RbTree.rehang_eq (f := f)]
    · refine ⟨fun e q => ?_, ?_, hcolor, hkey, hsent, ?_⟩
      · change _ = if e = d ∧ q = y then x else if e = f.side ∧ q = f.elem then y
          else if e = d.other ∧ q = x then addr s.sentinel b else s.child e q
        simp [RbTree.setChild, RbTree.setParent, hchild]
      · simp [RbTree.setChild, RbTree.setParent, hparent]
      · rw [if_neg (List.cons_ne_nil f path)]
        exact hroot
    · rw [← hup]
      exact (Function.update_of_ne hyx.symm _ _).trans hpx
    · rw [← hside]
      simp [RbTree.setParent, hchild, RbTree.setChild, hfx]

/-- The nodes that a rotation is about. -/
theorem mem_inorder_on_on {q : Nat} : q ∈ (on d c l x (on d c' b y r)).inorder ↔
    q = x ∨ q = y ∨ q ∈ l.inorder ∨ q ∈ b.inorder ∨ q ∈ r.inorder := by
  rw [mem_inorder_on, mem_inorder_on]
  tauto

/-- The two nodes and the three subtrees have no node in common. -/
theorem nodup_on_on (h : (on d c l x (on d c' b y r)).inorder.Nodup) :
    x ≠ y ∧ (∀ q, q ∈ l.inorder ∨ q ∈ b.inorder ∨ q ∈ r.inorder → q ≠ x ∧ q ≠ y) ∧
      b.inorder.Nodup ∧ ∀ q, q ∈ l.inorder ∨ q ∈ r.inorder → q ∉ b.inorder := by
  -- in which order the two nodes and the subtrees come does not matter
  have hperm : (on d c l x (on d c' b y r)).inorder.Perm
      (x :: y :: (l.inorder ++ (b.inorder ++ r.inorder))) := by
    refine List.perm_iff_count.mpr fun q => ?_
    cases d <;> simp only [on, inorder_node, List.count_append, List.count_cons] <;> omega
  have hn := hperm.nodup_iff.mp h
  simp only [List.nodup_cons, List.mem_cons, List.mem_append, not_or, List.nodup_append] at hn
  obtain ⟨⟨hxy, hxl, hxb, hxr⟩, ⟨hyl, hyb, hyr⟩, -, ⟨hbn, -, hbr⟩, hlbr⟩ := hn
  refine ⟨hxy, fun q hq => ⟨?_, ?_⟩, hbn, fun q hq hqb => ?_⟩
  · rintro rfl
    exact hq.elim hxl fun hq => hq.elim hxb hxr
  · rintro rfl
    exact hq.elim hyl fun hq => hq.elim hyb hyr
  · exact hq.elim (fun hq => hlbr q hq q (Or.inl hqb) rfl) fun hq => hbr q hqb q hq rfl

/-- Every other node keeps its child pointers. -/
theorem rotate_child_eq (h : Represents s (plug path (on d c l x (on d c' b y r)))) {e : Side}
    {q : Nat} (hqx : q ≠ x) (hqy : q ≠ y) (hhole : ¬ IsHole path e q) :
    (s.rotate d x).child e q = s.child e q := by
  rw [(rotate_fields h).1, if_neg fun hq => hqy hq.2, if_neg hhole, if_neg fun hq => hqx hq.2]

/-- Every other node keeps its parent, the root of the middle subtree apart. -/
theorem rotate_parent_eq (h : Represents s (plug path (on d c l x (on d c' b y r)))) {q : Nat}
    (hqx : q ≠ x) (hqy : q ≠ y) (hqb : q = addr s.sentinel b → b = .nil) :
    (s.rotate d x).parent q = s.parent q := by
  rw [(rotate_fields h).2.1, Function.update_of_ne hqx, Function.update_of_ne hqy]
  split
  · next hne =>
    refine Function.update_of_ne (fun heq => hne ?_) _ _
    rw [hqb heq, addr]
  · rfl

/-- The child pointers after a rotation. -/
theorem rotate_children (h : Represents s (plug path (on d c l x (on d c' b y r)))) :
    Children (s.rotate d x).child s.sentinel (on d c' (on d c l x b) y r) := by
  obtain ⟨-, hnodup, hdisj⟩ := h.nodup_plug
  obtain ⟨hxy, hsub, -, -⟩ := nodup_on_on hnodup
  have hchild := (rotate_fields h).1
  have hnothole : ∀ {e q}, q ∈ (on d c l x (on d c' b y r)).inorder → ¬ IsHole path e q :=
    fun hq hhole => hdisj _ hhole.mem hq
  have hkeep : ∀ e q, q ∈ l.inorder ∨ q ∈ b.inorder ∨ q ∈ r.inorder →
      (s.rotate d x).child e q = s.child e q := fun e q hq =>
    rotate_child_eq h (hsub q hq).1 (hsub q hq).2
      (hnothole (mem_inorder_on_on.mpr (Or.inr (Or.inr hq))))
  obtain ⟨⟨hcl, -⟩, hl, hu⟩ := children_on.mp (children_plug.mp h.children).2
  obtain ⟨⟨-, hcr⟩, hb, hr⟩ := children_on.mp hu
  have hdx : (s.rotate d x).child d x = addr s.sentinel l := by
    rw [hchild, if_neg fun hq => hxy hq.2, if_neg (hnothole (mem_inorder_on_on.mpr (Or.inl rfl))),
      if_neg fun hq => d.ne_other hq.1, hcl]
  have hox : (s.rotate d x).child d.other x = addr s.sentinel b := by
    rw [hchild, if_neg fun hq => hxy hq.2, if_neg (hnothole (mem_inorder_on_on.mpr (Or.inl rfl))),
      if_pos ⟨rfl, rfl⟩]
  have hdy : (s.rotate d x).child d y = x := by rw [hchild, if_pos ⟨rfl, rfl⟩]
  have hoy : (s.rotate d x).child d.other y = addr s.sentinel r := by
    rw [hchild, if_neg fun hq => d.other_ne hq.1,
      if_neg (hnothole (mem_inorder_on_on.mpr (Or.inr (Or.inl rfl)))),
      if_neg fun hq => hxy hq.2.symm, hcr]
  refine children_on.mpr ⟨⟨hdy.trans (addr_on ..).symm, hoy⟩,
    children_on.mpr ⟨⟨hdx, hox⟩, ?_, ?_⟩, ?_⟩
  · exact hl.congr fun e q hq => hkeep e q (Or.inl hq)
  · exact hb.congr fun e q hq => hkeep e q (Or.inr (Or.inl hq))
  · exact hr.congr fun e q hq => hkeep e q (Or.inr (Or.inr hq))

/-- The parent pointers after a rotation: the upper node has that of the lower one, and the
middle subtree a new one. -/
theorem rotate_parents (h : Represents s (plug path (on d c l x (on d c' b y r)))) :
    Parents (s.rotate d x).parent (up path) (on d c' (on d c l x b) y r) := by
  obtain ⟨hxy, hsub, hbn, hlbr⟩ := nodup_on_on h.nodup_plug.2.1
  have hparent := (rotate_fields h).2.1
  -- the root of `b` is in none of the other two
  have haddr : ∀ q, q ∈ l.inorder ∨ q ∈ r.inorder → q ≠ addr s.sentinel b := by
    rintro q hq rfl
    cases b with
    | nil =>
      refine h.sentinel_notMem_plug.2 (mem_inorder_on_on.mpr ?_)
      exact hq.elim (fun hq => Or.inr (Or.inr (Or.inl hq)))
        fun hq => Or.inr (Or.inr (Or.inr (Or.inr hq)))
    | node e b₁ z b₂ => exact hlbr z hq (by simp)
  have hkeep : ∀ q, q ∈ l.inorder ∨ q ∈ r.inorder → (s.rotate d x).parent q = s.parent q := by
    intro q hq
    obtain ⟨hqx, hqy⟩ := hsub q (hq.imp_right Or.inr)
    exact rotate_parent_eq h hqx hqy fun heq => absurd heq (haddr q hq)
  obtain ⟨hup, hpl, hpu⟩ := parents_on.mp (parents_plug.mp h.parents).2
  obtain ⟨-, hpb, hpr⟩ := parents_on.mp hpu
  have hpy : (s.rotate d x).parent y = s.parent x := by
    rw [hparent, Function.update_of_ne (Ne.symm hxy), Function.update_self]
  have hpx : (s.rotate d x).parent x = y := by rw [hparent, Function.update_self]
  refine parents_on.mpr ⟨fun p hp => ?_, parents_on.mpr ⟨fun p hp => ?_, ?_, ?_⟩, ?_⟩
  · rw [hpy, hup p hp]
  · rw [hpx]
    exact Option.some.inj hp
  · exact hpl.congr fun q hq => hkeep q (Or.inl hq)
  · refine hpb.rehang s.sentinel ?_ (fun q hq hqb => ?_) hbn
    · rintro e b₁ z b₂ rfl
      have hz : z ≠ s.sentinel := by
        rintro rfl
        exact h.sentinel_notMem_plug.2
          (mem_inorder_on_on.mpr (Or.inr (Or.inr (Or.inr (Or.inl (by simp))))))
      obtain ⟨hzx, hzy⟩ := hsub z (Or.inr (Or.inl (by simp)))
      rw [hparent, Function.update_of_ne hzx, Function.update_of_ne hzy, addr, if_pos hz,
        Function.update_self]
    · obtain ⟨hqx, hqy⟩ := hsub q (Or.inr (Or.inl hq))
      exact rotate_parent_eq h hqx hqy fun heq => absurd heq hqb
  · exact hpr.congr fun q hq => hkeep q (Or.inr hq)

/-- **A rotation in memory is a rotation of the tree.** -/
theorem rotate_represents (h : Represents s (plug path (on d c l x (on d c' b y r)))) :
    Rewrites s (plug path (on d c l x (on d c' b y r))) (s.rotate d x)
      (plug path (on d c' (on d c l x b) y r)) := by
  obtain ⟨hchild, -, hcolor, hkey, hsent, hroot⟩ := rotate_fields h
  obtain ⟨-, -, hdisj⟩ := h.nodup_plug
  obtain ⟨hx, hcoll, hcolu⟩ := colors_on.mp (colors_plug.mp h.colors).2
  obtain ⟨hy, hcolb, hcolr⟩ := colors_on.mp hcolu
  refine h.subtree hsent hkey ?_ ?_ (fun e q hhole => ?_) (fun e q hq hhole => ?_)
    (fun q hq => ?_) (fun q _ => by rw [hcolor]) (rotate_children h) (rotate_parents h) ?_
  · rw [inorder_rotate]
  · rw [hroot, addr_on]
  · -- the pointer from above is none of the two nodes
    have hqy : q ≠ y := fun heq =>
      hdisj _ hhole.mem (mem_inorder_on_on.mpr (Or.inr (Or.inl heq)))
    rw [hchild, if_neg fun hq => hqy hq.2, if_pos hhole, addr_on]
  · rw [mem_inorder_on_on, not_or, not_or] at hq
    exact rotate_child_eq h hq.1 hq.2.1 hhole
  · rw [mem_inorder_on_on, not_or, not_or, not_or, not_or] at hq
    refine rotate_parent_eq h hq.1 hq.2.1 ?_
    rintro rfl
    cases b with
    | nil => rfl
    | node e b₁ z b₂ => exact absurd (by simp [addr]) hq.2.2.2.1
  · rw [hcolor]
    exact colors_on.mpr ⟨hy, colors_on.mpr ⟨hx, hcoll, hcolb⟩, hcolr⟩

/-- The rotation to the other side undoes it. -/
theorem rotate_other_represents
    (h : Represents s (plug path (on d c (on d c' l x b) y r))) :
    Rewrites s (plug path (on d c (on d c' l x b) y r)) (s.rotate d.other y)
      (plug path (on d c' l x (on d c b y r))) := by
  have h' : Represents s (plug path (on d.other c r y (on d.other c' b x l))) := by
    rw [on_other, on_other]
    exact h
  have hrot := rotate_represents h'
  rwa [on_other, on_other, on_other, on_other] at hrot

end

end Nginx
