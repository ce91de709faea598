import Mathlib.Data.Tree.Basic
import Mathlib.Data.List.Nodup
import Mathlib.Data.List.Pairwise
import Mathlib.Order.Basic
import Mathlib.Order.Compare
import Mathlib.Order.Lattice

/-!
# Search trees by descent

Binary trees that are searched and grown by descending from the root. The
caller gives the direction to take at each node, as code does that compares
the fields of a node in its own way; a key function into a linear order says
what the directions stand for.

Rebalancing is not modelled: a tree may be replaced by any tree with the same
in-order sequence (`Rotation`), and everything here is stated about that
sequence.

* `find_eq_some_iff` — a search that follows the order finds the element with
  the key, and finds it whenever it is there.
* `inorder_insert`, `Sorted.insert` — a descent puts the new element at its
  place in the sequence.
* `inorder_insert_eq_place` — among equal keys it comes last, when the descent goes right
  at them.
* `inorder_unlink` — unlinking a node takes it out of the sequence.
-/

namespace SearchTree

universe u v

variable {α : Type u} {κ : Type v}

/-! ### Trees and their sequences -/

/-- The elements of a tree from left to right. -/
def inorder : BinaryTree α → List α
  | .nil => []
  | .node a l r => inorder l ++ a :: inorder r

@[simp] theorem inorder_nil : inorder (.nil : BinaryTree α) = [] := rfl

@[simp] theorem inorder_node (a : α) (l r : BinaryTree α) :
    inorder (.node a l r) = inorder l ++ a :: inorder r := rfl

/-- A rebalancing step: any change of the tree that keeps its sequence. -/
structure Rotation (α : Type u) where
  fix : BinaryTree α → BinaryTree α
  inorder_fix : ∀ t, inorder (fix t) = inorder t

attribute [simp] Rotation.inorder_fix

/-- No rebalancing at all. -/
def Rotation.none : Rotation α := ⟨id, fun _ => rfl⟩

/-- The keys increase from left to right. -/
def Sorted [LinearOrder κ] (key : α → κ) (t : BinaryTree α) : Prop :=
  (inorder t).Pairwise fun a b => key a < key b

section Order

variable [LinearOrder κ] {key : α → κ}

theorem sorted_nil : Sorted key (.nil : BinaryTree α) := List.Pairwise.nil

theorem sorted_node {a : α} {l r : BinaryTree α} :
    Sorted key (.node a l r) ↔ Sorted key l ∧ Sorted key r ∧ (∀ x ∈ inorder l, key x < key a) ∧
      ∀ x ∈ inorder r, key a < key x := by
  unfold Sorted
  rw [inorder_node, List.pairwise_append, List.pairwise_cons]
  constructor
  · rintro ⟨hl, ⟨har, hr⟩, hlr⟩
    exact ⟨hl, hr, fun x hx => hlr x hx a List.mem_cons_self, har⟩
  · rintro ⟨hl, hr, hla, har⟩
    refine ⟨hl, ⟨har, hr⟩, fun x hx y hy => ?_⟩
    rcases List.mem_cons.mp hy with rfl | hy
    · exact hla x hx
    · exact (hla x hx).trans (har y hy)

/-- The key of an element of a sorted tree is its own. -/
theorem Sorted.eq_of_key {t : BinaryTree α} (h : Sorted key t) {a b : α} (ha : a ∈ inorder t)
    (hb : b ∈ inorder t) (hkey : key a = key b) : a = b := by
  have hnodup : ((inorder t).map key).Nodup :=
    List.pairwise_map.mpr (List.Pairwise.imp (fun hlt => ne_of_lt hlt) h)
  exact List.inj_on_of_nodup_map hnodup ha hb hkey

theorem Sorted.nodup {t : BinaryTree α} (h : Sorted key t) : (inorder t).Nodup :=
  List.Pairwise.imp (fun hlt heq => absurd (congrArg key heq) hlt.ne) h

/-- A tree whose elements are read through another key stays sorted when the
key is the same on them. -/
theorem Sorted.congr {key' : α → κ} {t : BinaryTree α} (h : Sorted key t)
    (heq : ∀ a ∈ inorder t, key' a = key a) : Sorted key' t :=
  List.Pairwise.imp_of_mem (fun {a b} ha hb hlt => by rwa [heq a ha, heq b hb]) h

theorem Sorted.of_sublist {t t' : BinaryTree α} (h : Sorted key t)
    (hsub : (inorder t').Sublist (inorder t)) : Sorted key t' :=
  List.Pairwise.sublist hsub h

theorem Sorted.fix {t : BinaryTree α} (h : Sorted key t) (rot : Rotation α) :
    Sorted key (rot.fix t) := by
  unfold Sorted
  rw [rot.inorder_fix]
  exact h

end Order

/-! ### Search -/

/-- The search loop: `side a` tells on which side of `a` to go on, or to stop. -/
def find (side : α → Ordering) : BinaryTree α → Option α
  | .nil => none
  | .node a l r =>
    match side a with
    | .lt => find side l
    | .gt => find side r
    | .eq => some a

/-- **A search finds what is there and nothing else**, when the directions
follow the order of the keys. -/
theorem find_eq_some_iff [LinearOrder κ] {key : α → κ} {k : κ} {side : α → Ordering}
    {t : BinaryTree α} (ht : Sorted key t) (hside : ∀ a ∈ inorder t, side a = cmp k (key a))
    {a : α} : find side t = some a ↔ a ∈ inorder t ∧ key a = k := by
  -- on the tree; the search goes on in one subtree and the order rules out the other
  induction t with
  | nil => simp [find]
  | node b l r ihl ihr =>
    obtain ⟨hl, hr, hlb, hbr⟩ := sorted_node.mp ht
    have ihl := ihl hl fun x hx => hside x (by simp [hx])
    have ihr := ihr hr fun x hx => hside x (by simp [hx])
    rw [find, hside b (by simp), inorder_node, List.mem_append, List.mem_cons]
    rcases lt_trichotomy k (key b) with hlt | heq | hgt
    · -- the element can only be on the left
      rw [(cmp_eq_lt_iff _ _).mpr hlt]
      dsimp only
      rw [ihl]
      refine ⟨fun h => ⟨Or.inl h.1, h.2⟩, ?_⟩
      rintro ⟨ha | rfl | ha, hk⟩
      · exact ⟨ha, hk⟩
      · exact absurd hk hlt.ne'
      · exact absurd (hbr a ha) (by rw [hk]; exact hlt.asymm)
    · rw [(cmp_eq_eq_iff _ _).mpr heq]
      simp only [Option.some.injEq]
      refine ⟨fun h => h ▸ ⟨Or.inr (Or.inl rfl), heq.symm⟩, ?_⟩
      rintro ⟨ha | rfl | ha, hk⟩
      · exact absurd (hlb a ha) (by rw [hk, heq]; exact lt_irrefl _)
      · rfl
      · exact absurd (hbr a ha) (by rw [hk, heq]; exact lt_irrefl _)
    · rw [(cmp_eq_gt_iff _ _).mpr hgt]
      dsimp only
      rw [ihr]
      refine ⟨fun h => ⟨Or.inr (Or.inr h.1), h.2⟩, ?_⟩
      rintro ⟨ha | rfl | ha, hk⟩
      · exact absurd (hlb a ha) (by rw [hk]; exact hgt.asymm)
      · exact absurd hk hgt.ne
      · exact ⟨ha, hk⟩

/-! ### Insertion -/

/-- The insertion loop: the new element `x` becomes a leaf, on the left of the
nodes with `left`. -/
def insert (left : α → Bool) (x : α) : BinaryTree α → BinaryTree α
  | .nil => .node x .nil .nil
  | .node a l r => if left a then .node a (insert left x l) r else .node a l (insert left x r)

theorem mem_inorder_insert {left : α → Bool} {x : α} {t : BinaryTree α} {y : α} :
    y ∈ inorder (insert left x t) ↔ y = x ∨ y ∈ inorder t := by
  induction t with
  | nil => simp [insert]
  | node a l r ihl ihr =>
    rw [insert]
    split
    · simp [ihl, or_assoc]
    · simp [ihr, or_left_comm]

theorem perm_inorder_insert (left : α → Bool) (x : α) (t : BinaryTree α) :
    (inorder (insert left x t)).Perm (x :: inorder t) := by
  induction t with
  | nil => exact .refl _
  | node a l r ihl ihr =>
    rw [insert]
    split
    · exact ihl.append_right _
    · rw [inorder_node, inorder_node]
      -- the new element is carried to the front past the node and the left subtree
      refine ((ihr.cons a).append_left _).trans ?_
      refine ((List.Perm.swap x a _).append_left _).trans ?_
      exact List.perm_middle

/-- **A descent that follows the order puts the element at its place.** -/
theorem Sorted.insert [LinearOrder κ] {key : α → κ} {left : α → Bool} {x : α} {t : BinaryTree α}
    (ht : Sorted key t) (hnew : ∀ a ∈ inorder t, key a ≠ key x)
    (hleft : ∀ a ∈ inorder t, left a ↔ key x < key a) :
    Sorted key (SearchTree.insert left x t) := by
  induction t with
  | nil =>
    unfold Sorted SearchTree.insert
    simp
  | node a l r ihl ihr =>
    obtain ⟨hl, hr, hla, har⟩ := sorted_node.mp ht
    have hla' := hleft a (by simp)
    rw [SearchTree.insert]
    -- the direction is that of the keys, so the new element lands on the right side of `a`
    by_cases hlt : key x < key a
    · rw [if_pos (hla'.mpr hlt)]
      have hins := ihl hl (fun y hy => hnew y (by simp [hy])) fun y hy => hleft y (by simp [hy])
      refine sorted_node.mpr ⟨hins, hr, fun y hy => ?_, har⟩
      rcases mem_inorder_insert.mp hy with rfl | hy
      · exact hlt
      · exact hla y hy
    · rw [if_neg fun h => hlt (hla'.mp h)]
      have hins := ihr hr (fun y hy => hnew y (by simp [hy])) fun y hy => hleft y (by simp [hy])
      refine sorted_node.mpr ⟨hl, hins, hla, fun y hy => ?_⟩
      rcases mem_inorder_insert.mp hy with rfl | hy
      · exact lt_of_le_of_ne (not_lt.mp hlt) (hnew a (by simp))
      · exact har y hy

/-! ### Ties -/

/-- `x` behind the elements whose keys are not greater. -/
def place [LinearOrder κ] (key : α → κ) (x : α) (l : List α) : List α :=
  l.takeWhile (fun a => key a ≤ key x) ++ x :: l.dropWhile fun a => key a ≤ key x

section

variable [LinearOrder κ] {key : α → κ} {x : α} {l : List α}

theorem perm_place (key : α → κ) (x : α) (l : List α) : (place key x l).Perm (x :: l) := by
  refine List.perm_middle.trans (.cons x ?_)
  rw [List.takeWhile_append_dropWhile]

/-- What is placed among parts that are already on their sides. -/
theorem place_append {l₁ l₂ : List α} (h₁ : ∀ a ∈ l₁, key a ≤ key x)
    (h₂ : ∀ a ∈ l₂, key x < key a) : place key x (l₁ ++ l₂) = l₁ ++ x :: l₂ := by
  have hle : ∀ a ∈ l₁, decide (key a ≤ key x) = true := fun a ha => decide_eq_true (h₁ a ha)
  have hgt : l₂.takeWhile (fun a => decide (key a ≤ key x)) = [] ∧
      l₂.dropWhile (fun a => decide (key a ≤ key x)) = l₂ := by
    cases l₂ with
    | nil => exact ⟨rfl, rfl⟩
    | cons a l₂ =>
      have hnot : ¬ key a ≤ key x := not_le.mpr (h₂ a List.mem_cons_self)
      simp [hnot]
  rw [place, List.takeWhile_append_of_pos hle, List.dropWhile_append_of_pos hle, hgt.1, hgt.2,
    List.append_nil]

/-- A sorted list falls into the part that is not greater and the part that is. -/
theorem exists_split (h : l.Pairwise fun a b => key a ≤ key b) (x : α) :
    ∃ l₁ l₂, l = l₁ ++ l₂ ∧ (∀ a ∈ l₁, key a ≤ key x) ∧ ∀ a ∈ l₂, key x < key a := by
  induction l with
  | nil =>
    exact ⟨[], [], rfl, fun a ha => absurd ha List.not_mem_nil,
      fun a ha => absurd ha List.not_mem_nil⟩
  | cons b l ih =>
    obtain ⟨hb, hl⟩ := List.pairwise_cons.mp h
    by_cases hbx : key b ≤ key x
    · obtain ⟨l₁, l₂, rfl, h₁, h₂⟩ := ih hl
      refine ⟨b :: l₁, l₂, rfl, fun a ha => ?_, h₂⟩
      rcases List.mem_cons.mp ha with rfl | ha
      · exact hbx
      · exact h₁ a ha
    · -- the first one that is greater, and so are those behind it
      refine ⟨[], b :: l, rfl, fun a ha => absurd ha List.not_mem_nil, fun a ha => ?_⟩
      rcases List.mem_cons.mp ha with rfl | ha
      · exact not_le.mp hbx
      · exact (not_le.mp hbx).trans_le (hb a ha)

theorem pairwise_place (h : l.Pairwise fun a b => key a ≤ key b) (x : α) :
    (place key x l).Pairwise fun a b => key a ≤ key b := by
  obtain ⟨l₁, l₂, rfl, h₁, h₂⟩ := exists_split h x
  obtain ⟨hl₁, hl₂, hcross⟩ := List.pairwise_append.mp h
  rw [place_append h₁ h₂]
  refine List.pairwise_append.mpr ⟨hl₁, List.pairwise_cons.mpr ⟨fun a ha => (h₂ a ha).le, hl₂⟩,
    fun a ha b hb => ?_⟩
  rcases List.mem_cons.mp hb with rfl | hb
  · exact h₁ a ha
  · exact hcross a ha b hb

/-- **A descent that goes right at ties puts the element behind those with its key.** -/
theorem inorder_insert_eq_place {left : α → Bool} {t : BinaryTree α}
    (h : (inorder t).Pairwise fun a b => key a ≤ key b)
    (hleft : ∀ a ∈ inorder t, left a ↔ key x < key a) :
    inorder (insert left x t) = place key x (inorder t) := by
  -- on the tree; the node tells in which part the element is placed
  induction t with
  | nil => rfl
  | node a l r ihl ihr =>
    rw [inorder_node] at h
    obtain ⟨hl, hr, hlr⟩ := List.pairwise_append.mp h
    obtain ⟨har, hr⟩ := List.pairwise_cons.mp hr
    have ihl := ihl hl fun y hy => hleft y (by simp [hy])
    have ihr := ihr hr fun y hy => hleft y (by simp [hy])
    rw [insert]
    by_cases hlt : key x < key a
    · rw [if_pos ((hleft a (by simp)).mpr hlt), inorder_node, inorder_node, ihl]
      obtain ⟨l₁, l₂, heq, h₁, h₂⟩ := exists_split hl x
      rw [heq, place_append h₁ h₂, List.append_assoc, List.append_assoc, place_append h₁ ?_]
      · rfl
      · intro b hb
        rcases List.mem_append.mp hb with hb | hb
        · exact h₂ b hb
        · rcases List.mem_cons.mp hb with rfl | hb
          · exact hlt
          · exact hlt.trans_le (har b hb)
    · rw [if_neg fun hl => hlt ((hleft a (by simp)).mp hl), inorder_node, inorder_node, ihr]
      obtain ⟨r₁, r₂, heq, h₁, h₂⟩ := exists_split hr x
      have hfront : ∀ b ∈ inorder l ++ a :: r₁, key b ≤ key x := by
        intro b hb
        rcases List.mem_append.mp hb with hb | hb
        · exact (hlr b hb a List.mem_cons_self).trans (not_lt.mp hlt)
        · rcases List.mem_cons.mp hb with rfl | hb
          · exact not_lt.mp hlt
          · exact h₁ b hb
      have hjoin : inorder l ++ a :: (r₁ ++ r₂) = (inorder l ++ a :: r₁) ++ r₂ := by simp
      rw [heq, place_append h₁ h₂, hjoin, place_append hfront h₂]
      simp

end

/-! ### Removal -/

/-- The leftmost element below `a`, and the rest. -/
def popMin (a : α) (r : BinaryTree α) : BinaryTree α → α × BinaryTree α
  | .nil => (a, r)
  | .node b l r' => ((popMin b r' l).1, .node a (popMin b r' l).2 r)

/-- What takes the place of a node with the subtrees `l` and `r`: the subtree
that is not empty, or else the leftmost element on the right. -/
def join : BinaryTree α → BinaryTree α → BinaryTree α
  | .nil, r => r
  | l, .nil => l
  | l, .node a l' r' => .node (popMin a r' l').1 l (popMin a r' l').2

/-- Unlink the node with the element `x`. -/
def unlink [DecidableEq α] (x : α) : BinaryTree α → BinaryTree α
  | .nil => .nil
  | .node a l r => if a = x then join l r else .node a (unlink x l) (unlink x r)

theorem inorder_popMin (a : α) (r l : BinaryTree α) :
    (popMin a r l).1 :: inorder (popMin a r l).2 = inorder l ++ a :: inorder r := by
  -- down the left spine
  induction l generalizing a r with
  | nil => rfl
  | node b l r' ihl _ =>
    rw [popMin, inorder_node, inorder_node, ← List.cons_append, ihl]

theorem inorder_join (l r : BinaryTree α) : inorder (join l r) = inorder l ++ inorder r := by
  cases l with
  | nil => rfl
  | node a l₁ l₂ =>
    cases r with
    | nil => simp [join]
    | node b r₁ r₂ => simp [join, inorder_popMin]

/-- **Unlinking takes the element out of the sequence.** -/
theorem inorder_unlink [DecidableEq α] {x : α} {t : BinaryTree α} (h : (inorder t).Nodup) :
    inorder (unlink x t) = (inorder t).erase x := by
  -- a filter distributes over the three parts of the sequence
  rw [h.erase_eq_filter]
  induction t with
  | nil => rfl
  | node a l r ihl ihr =>
    rw [inorder_node, List.nodup_append, List.nodup_cons] at h
    obtain ⟨hl, ⟨har, hr⟩, hdisj⟩ := h
    rw [unlink, inorder_node, List.filter_append, List.filter_cons]
    by_cases hax : a = x
    · -- the rest of the sequence does not contain it
      subst hax
      have hkeep : ∀ s : List α, a ∉ s → s.filter (· != a) = s := fun s hs =>
        List.filter_eq_self.mpr fun y hy => bne_iff_ne.mpr fun hya => hs (hya ▸ hy)
      have hal : a ∉ inorder l := fun hmem => hdisj a hmem a List.mem_cons_self rfl
      rw [if_pos rfl, inorder_join, hkeep _ hal, hkeep _ har]
      simp
    · rw [if_neg hax, inorder_node, ihl hl, ihr hr]
      simp [hax]

end SearchTree
