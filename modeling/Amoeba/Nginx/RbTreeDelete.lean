import Amoeba.Nginx.RbTree

/-!
# `ngx_rbtree_delete`

The removal of a node and the rebalancing of `ngx_rbtree_delete` in memory. The
subtree that moves up can be empty; the code then follows the parent pointer of the
sentinel, which it has set before.

* `deleteRebalance_represents` — the rebalancing in memory is that of the tree, as
  long as the parent pointer of the subtree is right, also that of the sentinel.
* `ngxRbtreeDelete_represents` — on a red-black tree the code runs to the end and
  leaves the tree of the abstract deletion, without a write to any node outside it
  except to the sentinel.
-/

namespace Nginx

open RedBlack
open RedBlack.ColorTree hiding node

/-! ### The code -/

/-- `ngx_rbtree_min` -/
def ngxRbtreeMin (s : RbTree) : Nat → Nat → Option Nat
  | 0, _ => none
  | fuel + 1, node =>
    if s.child .left node ≠ s.sentinel then ngxRbtreeMin s fuel (s.child .left node) else some node

/-- A red sibling is rotated away, for a subtree on the side `d`. -/
def deleteRedSibling (d : Side) (s : RbTree) (temp w : Nat) : RbTree × Nat :=
  if s.color w = .red then
    let s := s.setColor w .black
    let s := s.setColor (s.parent temp) .red
    let s := s.rotate d (s.parent temp)
    (s, s.child d.other (s.parent temp))
  else (s, w)

/-- The end of the walk: the sibling, whose far child is red, goes to the top. -/
def deleteLast (d : Side) (s : RbTree) (temp w : Nat) : RbTree × Nat :=
  let s := s.setColor w (s.color (s.parent temp))
  let s := s.setColor (s.parent temp) .black
  let s := s.setColor (s.child d.other w) .black
  let s := s.rotate d (s.parent temp)
  (s, s.root)

/-- The rest of the round, with a black sibling. -/
def deleteBlackSibling (d : Side) (s : RbTree) (temp w : Nat) : RbTree × Nat :=
  if s.color (s.child .left w) = .black ∧ s.color (s.child .right w) = .black then
    (s.setColor w .red, s.parent temp)
  else
    let sw :=
      if s.color (s.child d.other w) = .black then
        let s := s.setColor (s.child d w) .black
        let s := s.setColor w .red
        let s := s.rotate d.other w
        (s, s.child d.other (s.parent temp))
      else (s, w)
    deleteLast d sw.1 temp sw.2

/-- The body of the rebalancing loop. -/
def deleteRound (d : Side) (s : RbTree) (temp : Nat) : RbTree × Nat :=
  let sw := deleteRedSibling d s temp (s.child d.other (s.parent temp))
  deleteBlackSibling d sw.1 temp sw.2

/-- The rebalancing loop and the last assignment. -/
def deleteRebalance : Nat → RbTree → Nat → Option RbTree
  | 0, _, _ => none
  | fuel + 1, s, temp =>
    if temp ≠ s.root ∧ s.color temp = .black then
      let st :=
        if temp = s.child .left (s.parent temp) then deleteRound .left s temp
        else deleteRound .right s temp
      deleteRebalance fuel st.1 st.2
    else some (s.setColor temp .black)

/-- The fields of the removed node are cleared. -/
def deleteClear (s : RbTree) (node : Nat) : RbTree :=
  let s := s.setChild .left node 0
  let s := s.setChild .right node 0
  let s := s.setParent node 0
  s.setKey node 0

/-- `temp` gets its parent, and `subst` the pointers and the colour of `node`. -/
def substFields (s : RbTree) (node subst temp : Nat) : RbTree :=
  let s := if s.parent subst = node then s.setParent temp subst
    else s.setParent temp (s.parent subst)
  let s := s.setChild .left subst (s.child .left node)
  let s := s.setChild .right subst (s.child .right node)
  let s := s.setParent subst (s.parent node)
  s.setColor subst (s.color node)

/-- The children of `subst` get it as their parent. -/
def substChildren (s : RbTree) (subst : Nat) : RbTree :=
  let s := if s.child .left subst ≠ s.sentinel then s.setParent (s.child .left subst) subst else s
  if s.child .right subst ≠ s.sentinel then s.setParent (s.child .right subst) subst else s

/-- `subst` takes the place of `node`, after it was unlinked from its own. -/
def deleteSubst (s : RbTree) (node subst temp : Nat) : RbTree :=
  let s := substFields s node subst temp
  substChildren (if node = s.root then s.setRoot subst else s.rehang .left node subst) subst

/-- `ngx_rbtree_delete` once `temp` and `subst` are known. -/
def deleteSplice (fuel : Nat) (s : RbTree) (node subst temp : Nat) : Option RbTree :=
  if subst = s.root then
    some (deleteClear ((s.setRoot temp).setColor temp .black) node)
  else
    let color := s.color subst
    let s := s.rehang .left subst temp
    let s :=
      if subst = node then s.setParent temp (s.parent subst)
      else deleteSubst s node subst temp
    let s := deleteClear s node
    if color = .red then some s else deleteRebalance fuel s temp

/-- `ngx_rbtree_delete` -/
def ngxRbtreeDelete (fuel : Nat) (s : RbTree) (node : Nat) : Option RbTree :=
  if s.child .left node = s.sentinel then deleteSplice fuel s node node (s.child .right node)
  else if s.child .right node = s.sentinel then deleteSplice fuel s node node (s.child .left node)
  else
    (ngxRbtreeMin s fuel (s.child .right node)).bind fun subst =>
      deleteSplice fuel s node subst
        (if s.child .left subst ≠ s.sentinel then s.child .left subst else s.child .right subst)

/-! ### A round with a black sibling -/

section

variable {s : RbTree} {d : Side} {p b x : Nat} {c c' : Color} {t near far u v w : ColorTree Nat}
  {path : Path Nat}

/-- What a round reads of the sibling. -/
theorem deleteRound_reads
    (h : Represents s (plug (⟨d, c, p, on d c' near b far⟩ :: path) t)) :
    s.color p = c ∧ s.child d.other p = b ∧ s.color b = c' ∧
      s.child d b = addr s.sentinel near ∧ s.child d.other b = addr s.sentinel far ∧
      s.color (addr s.sentinel near) = near.color ∧ s.color (addr s.sentinel far) = far.color := by
  have hp : Represents s (plug path (on d c t p (on d c' near b far))) := h
  have hb : Represents s (plug (⟨d.other, c, p, t⟩ :: path) (on d c' near b far)) := by
    rw [plug_cons_other]
    exact h
  have hn : Represents s (plug (⟨d, c', b, far⟩ :: ⟨d.other, c, p, t⟩ :: path) near) := hb
  have hf : Represents s (plug (⟨d.other, c', b, near⟩ :: ⟨d.other, c, p, t⟩ :: path) far) := by
    rw [plug_cons_other]
    exact hn
  obtain ⟨hc', hnb, hfb⟩ := hb.node_eq
  obtain ⟨hc, -, hpb⟩ := hp.node_eq
  rw [addr_on] at hpb
  exact ⟨hc, hpb, hc', hnb, hfb, hn.color_addr, hf.color_addr⟩

/-- Both children are looked at, in whatever order. -/
theorem both_black (d : Side) (q : Side → Nat) (color : Nat → Color) :
    (color (q .left) = .black ∧ color (q .right) = .black) ↔
      color (q d) = .black ∧ color (q d.other) = .black := by
  cases d with
  | left => rfl
  | right => exact and_comm

/-- The sibling is painted red. -/
theorem deleteBlackSibling_recolor
    (h : Represents s (plug (⟨d, c, p, on d .black near b far⟩ :: path) t))
    (hparent : s.parent (addr s.sentinel t) = p) (hnear : near.color = .black)
    (hfar : far.color = .black) :
    (deleteBlackSibling d s (addr s.sentinel t) b).2 = p ∧
      Rewrites s (plug (⟨d, c, p, on d .black near b far⟩ :: path) t)
        (deleteBlackSibling d s (addr s.sentinel t) b).1
        (plug path (on d c t p (on d .red near b far))) := by
  obtain ⟨-, -, -, hnb, hfb, hcn, hcf⟩ := deleteRound_reads h
  have hboth : s.color (s.child .left b) = .black ∧ s.color (s.child .right b) = .black := by
    rw [both_black d (fun e => s.child e b) s.color, hnb, hfb, hcn, hcf]
    exact ⟨hnear, hfar⟩
  rw [deleteBlackSibling, if_pos hboth]
  have hb : Represents s (plug (⟨d.other, c, p, t⟩ :: path) (on d .black near b far)) := by
    rw [plug_cons_other]
    exact h
  have h₁ := hb.setColor .red fun hnil => absurd hnil on_ne_nil
  rw [addr_on, paint_on, plug_cons_other, plug_cons_other] at h₁
  exact ⟨hparent, h₁⟩

/-- The last rotation, around a sibling whose far child is red. -/
theorem deleteLast_represents
    (h : Represents s (plug (⟨d, c, p, on d c' near b (on d .red u x v)⟩ :: path) t))
    (hparent : s.parent (addr s.sentinel t) = p) :
    (deleteLast d s (addr s.sentinel t) b).2 = (deleteLast d s (addr s.sentinel t) b).1.root ∧
      Rewrites s (plug (⟨d, c, p, on d c' near b (on d .red u x v)⟩ :: path) t)
        (deleteLast d s (addr s.sentinel t) b).1
        (plug path (on d c (on d .black t p near) b (on d .black u x v))) := by
  obtain ⟨hc, hpb, -, hnb, hfb, -, -⟩ := deleteRound_reads h
  rw [addr_on] at hfb
  have hlast : (deleteLast d s (addr s.sentinel t) b).1 =
      (((s.setColor b c).setColor p .black).setColor x .black).rotate d p := by
    simp only [deleteLast, RbTree.setColor, hparent, hc, hfb]
  refine ⟨rfl, ?_⟩
  rw [hlast]
  -- the sibling takes the colour of the parent
  have hb : Represents s
      (plug (⟨d.other, c, p, t⟩ :: path) (on d c' near b (on d .red u x v))) := by
    rw [plug_cons_other]
    exact h
  have h₁ := hb.setColor c fun hnil => absurd hnil on_ne_nil
  rw [addr_on, paint_on, plug_cons_other, plug_cons_other] at h₁
  -- the parent is painted black
  have hp : Represents (s.setColor b c)
      (plug path (on d c t p (on d c near b (on d .red u x v)))) :=
    h₁.represents
  have h₂ := hp.setColor .black fun _ => rfl
  rw [addr_on, paint_on] at h₂
  -- and so is the far child
  have hloc : ∀ y, plug (⟨d.other, c, b, near⟩ :: ⟨d.other, .black, p, t⟩ :: path) y =
      plug path (on d .black t p (on d c near b y)) := by
    intro y
    rw [plug, plug, Frame.fill, Frame.fill, on_other, on_other]
  have hx : Represents ((s.setColor b c).setColor p .black)
      (plug (⟨d.other, c, b, near⟩ :: ⟨d.other, .black, p, t⟩ :: path) (on d .red u x v)) := by
    rw [hloc]
    exact h₂.represents
  have h₃ := hx.setColor .black fun _ => rfl
  rw [addr_on, paint_on, hloc, hloc] at h₃
  exact h₁.trans (h₂.trans (h₃.trans (rotate_represents h₃.represents)))

/-- The far child of the sibling is red. -/
theorem deleteBlackSibling_far
    (h : Represents s (plug (⟨d, c, p, on d .black near b (on d .red u x v)⟩ :: path) t))
    (hparent : s.parent (addr s.sentinel t) = p) :
    (deleteBlackSibling d s (addr s.sentinel t) b).2 =
        (deleteBlackSibling d s (addr s.sentinel t) b).1.root ∧
      Rewrites s (plug (⟨d, c, p, on d .black near b (on d .red u x v)⟩ :: path) t)
        (deleteBlackSibling d s (addr s.sentinel t) b).1
        (plug path (on d c (on d .black t p near) b (on d .black u x v))) := by
  obtain ⟨-, -, -, hnb, hfb, hcn, hcf⟩ := deleteRound_reads h
  have hred : ¬ s.color (s.child d.other b) = .black := by
    rw [hfb, hcf, color_on]
    nofun
  have hboth : ¬ (s.color (s.child .left b) = .black ∧ s.color (s.child .right b) = .black) := by
    rw [both_black d (fun e => s.child e b) s.color]
    exact fun hcond => hred hcond.2
  rw [deleteBlackSibling, if_neg hboth]
  dsimp only
  rw [if_neg hred]
  exact deleteLast_represents h hparent

/-- The near child alone is red. -/
theorem deleteBlackSibling_near
    (h : Represents s (plug (⟨d, c, p, on d .black (on d .red u x v) b far⟩ :: path) t))
    (hparent : s.parent (addr s.sentinel t) = p) (hfar : far.color = .black) :
    (deleteBlackSibling d s (addr s.sentinel t) b).2 =
        (deleteBlackSibling d s (addr s.sentinel t) b).1.root ∧
      Rewrites s (plug (⟨d, c, p, on d .black (on d .red u x v) b far⟩ :: path) t)
        (deleteBlackSibling d s (addr s.sentinel t) b).1
        (plug path (on d c (on d .black t p u) x (on d .black v b far))) := by
  obtain ⟨-, -, -, hnb, hfb, hcn, hcf⟩ := deleteRound_reads h
  have hblack : s.color (s.child d.other b) = .black := by rw [hfb, hcf, hfar]
  have hboth : ¬ (s.color (s.child .left b) = .black ∧ s.color (s.child .right b) = .black) := by
    rw [both_black d (fun e => s.child e b) s.color, hnb, hcn, color_on]
    exact fun hcond => absurd hcond.1 nofun
  rw [addr_on] at hnb
  -- the near child is painted black and the sibling red, and they are rotated
  have hloc : ∀ c' y, plug (⟨d, c', b, far⟩ :: ⟨d.other, c, p, t⟩ :: path) y =
      plug (⟨d, c, p, on d c' y b far⟩ :: path) t := by
    intro c' y
    rw [plug, Frame.fill, plug_cons_other]
  have hx : Represents s (plug (⟨d, .black, b, far⟩ :: ⟨d.other, c, p, t⟩ :: path)
      (on d .red u x v)) := by
    rw [hloc]
    exact h
  have h₁ := hx.setColor .black fun _ => rfl
  rw [addr_on, paint_on, hloc, hloc] at h₁
  have hb : Represents (s.setColor x .black) (plug (⟨d.other, c, p, t⟩ :: path)
      (on d .black (on d .black u x v) b far)) := by
    rw [plug_cons_other]
    exact h₁.represents
  have h₂ := hb.setColor .red fun hnil => absurd hnil on_ne_nil
  rw [addr_on, paint_on] at h₂
  have h₃ := rotate_other_represents h₂.represents
  have hto := h₂.trans h₃
  rw [plug_cons_other, plug_cons_other] at hto
  -- the near child is the sibling now, and its far child is red
  have h₄ := h₁.trans hto
  have hparent' := h₄.parent_addr hparent
  have hx' : (((s.setColor x .black).setColor b .red).rotate d.other b).child d.other p = x :=
    (deleteRound_reads h₄.represents).2.1
  have hlast := deleteLast_represents h₄.represents hparent'
  rw [h₄.sentinel_eq] at hlast hparent'
  dsimp only at hparent'
  rw [deleteBlackSibling, if_neg hboth]
  dsimp only
  rw [if_pos hblack, hnb]
  dsimp only
  rw [hparent', hx']
  exact ⟨hlast.1, h₄.trans hlast.2⟩

/-- **A round with a black sibling**, as in the tree. -/
theorem deleteBlackSibling_represents
    (h : Represents s (plug (⟨d, c, p, on d .black near b far⟩ :: path) t))
    (hparent : s.parent (addr s.sentinel t) = p) :
    (∃ t', blackRound ⟨d, c, p, on d .black near b far⟩ t = .inl t' ∧
      t' ≠ .nil ∧ (deleteBlackSibling d s (addr s.sentinel t) b).2 = addr s.sentinel t' ∧
      Rewrites s (plug (⟨d, c, p, on d .black near b far⟩ :: path) t)
        (deleteBlackSibling d s (addr s.sentinel t) b).1 (plug path t')) ∨
    ∃ t', blackRound ⟨d, c, p, on d .black near b far⟩ t = .inr t' ∧
      (deleteBlackSibling d s (addr s.sentinel t) b).2 =
        (deleteBlackSibling d s (addr s.sentinel t) b).1.root ∧
      Rewrites s (plug (⟨d, c, p, on d .black near b far⟩ :: path) t)
        (deleteBlackSibling d s (addr s.sentinel t) b).1 (plug path t') := by
  cases siblingCase d near far with
  | recolor _ _ hnear hfar =>
    obtain ⟨hup, hrew⟩ := deleteBlackSibling_recolor h hparent hnear hfar
    exact Or.inl ⟨_, blackRound_recolor d c .black p b t hnear hfar, on_ne_nil,
      hup.trans (addr_on ..).symm, hrew⟩
  | near v x w _ hfar =>
    exact Or.inr ⟨_, blackRound_near d c .black p v x w b t hfar,
      deleteBlackSibling_near h hparent hfar⟩
  | far _ v x w =>
    exact Or.inr ⟨_, blackRound_far d c .black p near b v x w t, deleteBlackSibling_far h hparent⟩

/-- A red sibling is rotated above the parent. -/
theorem deleteRedSibling_represents
    (h : Represents s (plug (⟨d, c, p, on d .red near b far⟩ :: path) t))
    (hparent : s.parent (addr s.sentinel t) = p) :
    (deleteRedSibling d s (addr s.sentinel t) b).2 = addr s.sentinel near ∧
      Rewrites s (plug (⟨d, c, p, on d .red near b far⟩ :: path) t)
        (deleteRedSibling d s (addr s.sentinel t) b).1
        (plug (⟨d, .red, p, near⟩ :: ⟨d, .black, b, far⟩ :: path) t) := by
  obtain ⟨-, -, hred, -, -, -, -⟩ := deleteRound_reads h
  have hb : Represents s (plug (⟨d.other, c, p, t⟩ :: path) (on d .red near b far)) := by
    rw [plug_cons_other]
    exact h
  have h₁ := hb.setColor .black fun _ => rfl
  rw [addr_on, paint_on, plug_cons_other, plug_cons_other] at h₁
  have hp : Represents (s.setColor b .black) (plug path (on d c t p (on d .black near b far))) :=
    h₁.represents
  have h₂ := hp.setColor .red fun hnil => absurd hnil on_ne_nil
  rw [addr_on, paint_on] at h₂
  have h₃ := rotate_represents h₂.represents
  have hall : Rewrites s (plug (⟨d, c, p, on d .red near b far⟩ :: path) t)
      (((s.setColor b .black).setColor p .red).rotate d p)
      (plug (⟨d, .red, p, near⟩ :: ⟨d, .black, b, far⟩ :: path) t) := h₁.trans (h₂.trans h₃)
  have hnear : (((s.setColor b .black).setColor p .red).rotate d p).child d.other p =
      addr s.sentinel near := by
    have hloc : Represents (((s.setColor b .black).setColor p .red).rotate d p)
        (plug (⟨d, .black, b, far⟩ :: path) (on d .red t p near)) := h₃.represents
    rw [← hall.sentinel_eq]
    exact hloc.node_eq.2.2
  have hparent' := hall.parent_addr hparent
  rw [hall.sentinel_eq] at hparent'
  have hround : deleteRedSibling d s (addr s.sentinel t) b =
      (((s.setColor b .black).setColor p .red).rotate d p, addr s.sentinel near) := by
    have hp₁ : (s.setColor b .black).parent (addr s.sentinel t) = p := hparent
    have hp₂ : ((s.setColor b .black).setColor p .red).parent (addr s.sentinel t) = p := hparent
    rw [deleteRedSibling, if_pos hred]
    dsimp only at hparent' ⊢
    rw [hp₁, hp₂, hparent', hnear]
  rw [hround]
  exact ⟨rfl, hall⟩

/-! ### The loop -/

/-- The test of the loop for the side of the subtree. -/
theorem deleteRound_side
    (h : Represents s (plug (⟨d, c, p, on d c' near b far⟩ :: path) t))
    (hparent : s.parent (addr s.sentinel t) = p) :
    (if addr s.sentinel t = s.child .left (s.parent (addr s.sentinel t)) then
      deleteRound .left s (addr s.sentinel t) else deleteRound .right s (addr s.sentinel t)) =
      deleteRound d s (addr s.sentinel t) := by
  have hside := h.side_eq_iff (Or.inr on_ne_nil) .left
  rw [hparent]
  cases d with
  | left => rw [if_pos (hside.mpr rfl)]
  | right => rw [if_neg fun heq => absurd (hside.mp heq) nofun]

theorem deleteRound_black_sibling
    (h : Represents s (plug (⟨d, c, p, on d .black near b far⟩ :: path) t))
    (hparent : s.parent (addr s.sentinel t) = p) :
    deleteRound d s (addr s.sentinel t) = deleteBlackSibling d s (addr s.sentinel t) b := by
  obtain ⟨-, hpb, hb, -⟩ := deleteRound_reads h
  have hred : s.color b ≠ .red := by
    rw [hb]
    nofun
  rw [deleteRound, hparent, hpb, deleteRedSibling, if_neg hred]

theorem deleteRound_red_sibling
    (h : Represents s (plug (⟨d, c, p, on d .red near b far⟩ :: path) t))
    (hparent : s.parent (addr s.sentinel t) = p) :
    deleteRound d s (addr s.sentinel t) =
      deleteBlackSibling d (deleteRedSibling d s (addr s.sentinel t) b).1 (addr s.sentinel t)
        (addr s.sentinel near) := by
  obtain ⟨-, hpb, -⟩ := deleteRound_reads h
  rw [deleteRound, hparent, hpb, (deleteRedSibling_represents h hparent).1]

/-- The loop ends when the root is reached. -/
theorem deleteRebalance_root (h : Represents s t) (fuel : Nat) :
    ∃ s', deleteRebalance (fuel + 1) s s.root = some s' ∧ Rewrites s t s' (t.paint .black) := by
  have htop : Represents s (plug [] t) := h
  have hpaint := htop.setColor .black fun _ => rfl
  rw [plug, plug, ← h.root_eq] at hpaint
  refine ⟨_, ?_, hpaint⟩
  rw [deleteRebalance, if_neg fun hcond => hcond.1 rfl]

/-- The loop ends at a red subtree. -/
theorem deleteRebalance_red (h : Represents s (plug path t)) (ht : t.color = .red) (fuel : Nat) :
    ∃ s', deleteRebalance (fuel + 1) s (addr s.sentinel t) = some s' ∧
      Rewrites s (plug path t) s' (plug path (t.paint .black)) := by
  have hcond : ¬ (addr s.sentinel t ≠ s.root ∧ s.color (addr s.sentinel t) = .black) := by
    rw [h.color_addr, ht]
    exact fun hcond => absurd hcond.2 (by decide)
  rw [deleteRebalance, if_neg hcond]
  exact ⟨_, rfl, h.setColor .black fun _ => rfl⟩

/-- At a black subtree under a frame there is another round. -/
theorem deleteRebalance_black {f : Frame Nat} (h : Represents s (plug (f :: path) t))
    (ht : t.color = .black) (fuel : Nat) :
    deleteRebalance (fuel + 1) s (addr s.sentinel t) =
      let st := if addr s.sentinel t = s.child .left (s.parent (addr s.sentinel t)) then
          deleteRound .left s (addr s.sentinel t)
        else deleteRound .right s (addr s.sentinel t)
      deleteRebalance fuel st.1 st.2 := by
  rw [deleteRebalance, if_pos ⟨h.ne_root, h.color_addr.trans ht⟩]

/-- **A red sibling**: two rounds at most, since the parent is red after the first one. -/
theorem deleteRebalance_red_sibling {n fuel : Nat}
    (h : Represents s (plug (⟨d, c, p, on d .red near b far⟩ :: path) t))
    (hp : PathBalanced (⟨d, c, p, on d .red near b far⟩ :: path) (n + 1)) (hc : t.color = .black)
    (ht : t.Balanced n) (hparent : s.parent (addr s.sentinel t) = p) :
    ∃ s', deleteRebalance (fuel + 2) s (addr s.sentinel t) = some s' ∧
      Rewrites s (plug (⟨d, c, p, on d .red near b far⟩ :: path) t) s'
        (deleteLoop (⟨d, c, p, on d .red near b far⟩ :: path) t) := by
  obtain rfl : c = .black := by
    cases c with
    | red => exact absurd ((color_on d .red near b far).symm.trans hp.2.1) (by decide)
    | black => rfl
  obtain ⟨⟨hnc, hfc⟩, hnear, hfar⟩ := balanced_on_red.mp hp.sibling
  obtain ⟨v, x, w, rfl, -, -⟩ := hnear.exists_on d hnc
  have hp' : PathBalanced (⟨d, .red, p, on d .black v x w⟩ :: ⟨d, .black, b, far⟩ :: path)
      (n + 1) := ⟨hnear, color_on .., rfl, hfar, hp.2⟩
  rw [deleteRebalance_black h hc, deleteRound_side h hparent, deleteRound_red_sibling h hparent,
    deleteLoop_red_sibling d .black p (on d .black v x w) b far path hc]
  -- the second round has the new sibling
  obtain ⟨-, hred⟩ := deleteRedSibling_represents h hparent
  have hround := deleteBlackSibling_represents hred.represents (hred.parent_addr hparent)
  rw [hred.sentinel_eq] at hround
  rw [addr_on]
  obtain ⟨t', heq, -, haddr, hrew⟩ | ⟨t', heq, hroot, hrew⟩ := hround
  · obtain ⟨t₂, n', heq₂, hcolor, -, -⟩ | ⟨t₂, heq₂, -⟩ := blackRound_spec hp' ht
    · obtain rfl := Sum.inl.inj (heq.symm.trans heq₂)
      have hall := hred.trans hrew
      obtain ⟨s', hloop, hrest⟩ := deleteRebalance_red hall.represents hcolor fuel
      rw [hall.sentinel_eq] at hloop
      rw [heq]
      dsimp only
      rw [haddr]
      exact ⟨s', hloop, hall.trans hrest⟩
    · exact absurd (heq.symm.trans heq₂) (by simp)
  · obtain ⟨s', hloop, hrest⟩ := deleteRebalance_root hrew.represents fuel
    rw [heq]
    dsimp only
    rw [hroot]
    exact ⟨s', hloop, hred.trans (hrew.trans hrest)⟩

/-- **The rebalancing in memory is that of the tree.** -/
theorem deleteRebalance_represents {n fuel : Nat} (h : Represents s (plug path t))
    (hp : PathBalanced path (n + 1)) (ht : Short t n)
    (hparent : ∀ f path', path = f :: path' → s.parent (addr s.sentinel t) = f.elem)
    (hfuel : path.length < fuel) :
    ∃ s', deleteRebalance fuel s (addr s.sentinel t) = some s' ∧
      Rewrites s (plug path t) s' (deleteLoop path t) := by
  -- on the path, with the rounds of the tree
  induction path generalizing s t n fuel with
  | nil =>
    obtain ⟨fuel, rfl⟩ := Nat.exists_eq_succ_of_ne_zero (Nat.ne_zero_of_lt hfuel)
    have hroot : addr s.sentinel t = s.root := h.root_eq.symm
    rw [hroot]
    exact deleteRebalance_root h fuel
  | cons f path ih =>
    obtain ⟨fuel, rfl⟩ := Nat.exists_eq_succ_of_ne_zero (Nat.ne_zero_of_lt hfuel)
    have hfuel' : path.length < fuel := Nat.lt_of_succ_lt_succ hfuel
    obtain ⟨fuel₁, rfl⟩ := Nat.exists_eq_succ_of_ne_zero (Nat.ne_zero_of_lt hfuel')
    obtain ⟨d, c, p, s₁⟩ := f
    have hpar := hparent _ path rfl
    dsimp only at hpar
    rcases ht with ⟨hc, ht⟩ | ⟨hc, ht⟩
    · cases hs : s₁.color with
      | black =>
        obtain ⟨near, b, far, rfl, -, -⟩ := hp.sibling.exists_on d hs
        rw [deleteRebalance_black h hc, deleteRound_side h hpar,
          deleteRound_black_sibling h hpar, deleteLoop_black_sibling d c p near b far path hc]
        obtain ⟨t', heq, ht', haddr, hrew⟩ | ⟨t', heq, hroot, hrew⟩ :=
          deleteBlackSibling_represents h hpar
        · -- the subtree under the parent is short now
          obtain ⟨t₂, n', heq₂, -, hp', hshort⟩ | ⟨t₂, heq₂, -⟩ := blackRound_spec hp ht
          · obtain rfl := Sum.inl.inj (heq.symm.trans heq₂)
            obtain ⟨s', hloop, hrest⟩ := ih hrew.represents hp' hshort (fun f path' hpath => by
              subst hpath
              exact hrew.represents.parent_addr ht') hfuel'
            rw [hrew.sentinel_eq] at hloop
            rw [heq]
            dsimp only
            rw [haddr]
            exact ⟨s', hloop, hrew.trans hrest⟩
          · exact absurd (heq.symm.trans heq₂) (by simp)
        · obtain ⟨s', hloop, hrest⟩ := deleteRebalance_root hrew.represents fuel₁
          rw [heq]
          dsimp only
          rw [hroot]
          exact ⟨s', hloop, hrew.trans hrest⟩
      | red =>
        obtain ⟨near, b, far, rfl, -, -, -⟩ := hp.sibling.exists_on_red d hs
        exact deleteRebalance_red_sibling h hp hc ht hpar
    · rw [deleteLoop_red _ _ hc]
      exact deleteRebalance_red h hc _

end

/-! ### The removal -/

theorem Represents.congr {s s' : RbTree} {t : ColorTree Nat} (h : Represents s t)
    (hroot : s'.root = s.root) (hsent : s'.sentinel = s.sentinel)
    (hblack : s'.color s.sentinel = .black) (heq : ∀ x ∈ t.inorder, SameAt s s' x) :
    Represents s' t where
  root_eq := by rw [hroot, hsent, h.root_eq]
  children := by
    rw [hsent]
    exact h.children.congr fun e x hx => (heq x hx).1 e
  parents := h.parents.congr fun x hx => (heq x hx).2.1
  colors := h.colors.congr fun x hx => (heq x hx).2.2
  nodup := h.nodup
  sentinel_notMem := by
    rw [hsent]
    exact h.sentinel_notMem
  sentinel_black := by
    rw [hsent]
    exact hblack

theorem deleteClear_same (s : RbTree) {node x : Nat} (hx : x ≠ node) :
    SameAt s (deleteClear s node) x := by
  simp [SameAt, deleteClear, RbTree.setChild, RbTree.setParent, RbTree.setKey, hx]

theorem Represents.deleteClear {s : RbTree} {t : ColorTree Nat} {node : Nat} (h : Represents s t)
    (hnode : node ∉ t.inorder) : Represents (deleteClear s node) t :=
  h.congr rfl rfl h.sentinel_black fun _ hx => deleteClear_same s fun heq => hnode (heq ▸ hx)

section

variable {s s' : RbTree} {d : Side} {c : Color} {l r t : ColorTree Nat} {a m : Nat}
  {f : Frame Nat} {path : Path Nat}

/-- A node with at most one child is unlinked. -/
theorem unlink_represents (h : Represents s (plug (f :: path) (on d c .nil a r))) :
    s.rehang .left a (addr s.sentinel r) = s.setChild f.side f.elem (addr s.sentinel r) ∧
      Represents ((s.rehang .left a (addr s.sentinel r)).setParent (addr s.sentinel r) f.elem)
        (plug (f :: path) r) := by
  obtain ⟨hpath, hnodup, hdisj⟩ := h.nodup_plug
  obtain ⟨hsp, hst⟩ := h.sentinel_notMem_plug
  have hside := h.side_eq_iff (Or.inl on_ne_nil) .left
  rw [addr_on] at hside
  have hrehang : s.rehang .left a (addr s.sentinel r) = _ := RbTree.rehang_eq h.parent_eq hside
  refine ⟨hrehang, ?_⟩
  rw [hrehang]
  have hrt : ∀ x, x ∈ r.inorder → x ∈ (on d c .nil a r).inorder := fun x hx =>
    mem_inorder_on.mpr (Or.inr (Or.inr hx))
  have hperm : (on d c .nil a r).inorder.Perm (a :: r.inorder) := by
    refine List.perm_iff_count.mpr fun q => ?_
    cases d <;> simp only [on, inorder_node, inorder_nil, List.count_append, List.count_cons,
      List.count_nil] <;> omega
  have hrn : r.inorder.Nodup := (List.nodup_cons.mp (hperm.nodup_iff.mp hnodup)).2
  have haddr : ∀ x ∈ pathElems (f :: path), x ≠ addr s.sentinel r := fun x hx =>
    ne_addr (fun heq => hsp (heq ▸ hx)) fun hmem => hdisj x hx (hrt x hmem)
  have hfr : f.elem ∉ r.inorder := fun hmem =>
    hdisj _ (mem_pathElems_cons.mpr (Or.inl rfl)) (hrt _ hmem)
  obtain ⟨-, -, hcr⟩ := children_on.mp (children_plug.mp h.children).2
  obtain ⟨-, -, hpr⟩ := parents_on.mp (parents_plug.mp h.parents).2
  obtain ⟨-, -, hcolr⟩ := colors_on.mp (colors_plug.mp h.colors).2
  refine h.replace rfl hrn (fun x hx => ⟨fun hxp => hdisj x hxp (hrt x hx), ?_⟩) ?_
    (fun e x hhole => ?_) (fun e x hx hhole => ?_) (fun x hx => ?_) (fun _ _ => rfl)
    h.sentinel_black ?_ ?_ hcolr
  · rintro rfl
    exact hst (hrt _ hx)
  · rw [if_neg (List.cons_ne_nil _ _)]
    rfl
  · obtain ⟨rfl, rfl⟩ := hhole
    simp [RbTree.setParent, RbTree.setChild]
  · have hhole' : ¬ (e = f.side ∧ x = f.elem) := hhole
    simp [RbTree.setParent, RbTree.setChild, hhole']
  · exact Function.update_of_ne (haddr x hx) _ _
  · refine hcr.congr fun e x hx => ?_
    have hxf : x ≠ f.elem := by
      rintro rfl
      exact hfr hx
    simp [RbTree.setParent, RbTree.setChild, hxf]
  · refine hpr.rehang s.sentinel ?_ (fun x hx hxr => ?_) hrn
    · rintro c₁ l₁ b r₁ rfl
      exact Function.update_self ..
    · exact Function.update_of_ne hxr _ _

/-- Another node at the root, which is in neither subtree. -/
theorem nodup_relabel {l r : ColorTree Nat} {a m : Nat} {c : Color}
    (h : (ColorTree.node c l a r).inorder.Nodup) (hml : m ∉ l.inorder) (hmr : m ∉ r.inorder) :
    (ColorTree.node c l m r).inorder.Nodup := by
  rw [inorder_node, List.nodup_append, List.nodup_cons] at h ⊢
  obtain ⟨hln, ⟨-, hrn⟩, hlr⟩ := h
  refine ⟨hln, ⟨hmr, hrn⟩, fun x hx y hy => ?_⟩
  rcases List.mem_cons.mp hy with rfl | hy
  · rintro rfl
    exact hml hx
  · exact hlr x hx y (List.mem_cons_of_mem _ hy)

/-- **A node with another address in the same place**, with the same subtrees. -/
theorem Represents.relabel (h : Represents s (plug path (.node c l a r)))
    (hm : m ∉ (plug path (.node c l a r)).inorder) (hms : m ≠ s.sentinel)
    (hsent : s'.sentinel = s.sentinel) (hroot : s'.root = if path = [] then m else s.root)
    (hhole : ∀ e x, IsHole path e x → s'.child e x = m)
    (hleft : s'.child .left m = addr s.sentinel l) (hright : s'.child .right m = addr s.sentinel r)
    (hchild : ∀ e x, x ≠ a → x ≠ m → ¬ IsHole path e x → s'.child e x = s.child e x)
    (hparentm : ∀ p, up path = some p → s'.parent m = p)
    (hparentl : l ≠ .nil → s'.parent (addr s.sentinel l) = m)
    (hparentr : r ≠ .nil → s'.parent (addr s.sentinel r) = m)
    (hparent : ∀ x, x ≠ a → x ≠ m → x ≠ addr s.sentinel l → x ≠ addr s.sentinel r →
      s'.parent x = s.parent x)
    (hcolorm : s'.color m = c) (hcolor : ∀ x, x ≠ a → x ≠ m → s'.color x = s.color x) :
    Represents s' (plug path (.node c l m r)) := by
  obtain ⟨hpath, hnodup, hdisj⟩ := h.nodup_plug
  obtain ⟨hsp, hst⟩ := h.sentinel_notMem_plug
  rw [mem_plug, not_or] at hm
  obtain ⟨hmp, hmt⟩ := hm
  rw [inorder_node, List.mem_append, List.mem_cons, not_or, not_or] at hmt
  obtain ⟨hml, hma, hmr⟩ := hmt
  have hnodup' := hnodup
  rw [inorder_node, List.nodup_append, List.nodup_cons] at hnodup
  obtain ⟨hln, ⟨har, hrn⟩, hlr⟩ := hnodup
  have hal : a ∉ l.inorder := fun hx => hlr a hx a List.mem_cons_self rfl
  have hst' : ∀ x, x ∈ l.inorder ∨ x ∈ r.inorder → x ≠ s.sentinel := by
    rintro x hx rfl
    refine hst ?_
    rw [inorder_node, List.mem_append, List.mem_cons]
    exact hx.imp_right Or.inr
  have hsub : ∀ x, x ∈ l.inorder ∨ x ∈ r.inorder → x ≠ a ∧ x ≠ m ∧ ∀ e, ¬ IsHole path e x := by
    intro x hx
    refine ⟨?_, ?_, fun e hhole => hdisj x hhole.mem ?_⟩
    · rintro rfl
      exact hx.elim hal har
    · rintro rfl
      exact hx.elim hml hmr
    · rw [inorder_node, List.mem_append, List.mem_cons]
      exact hx.imp_right Or.inr
  have habove : ∀ x ∈ pathElems path, x ≠ a ∧ x ≠ m ∧ x ≠ s.sentinel ∧ x ∉ l.inorder ∧
      x ∉ r.inorder := by
    intro x hx
    have hxt := hdisj x hx
    rw [inorder_node, List.mem_append, List.mem_cons, not_or, not_or] at hxt
    exact ⟨hxt.2.1, fun heq => hmp (heq ▸ hx), fun heq => hsp (heq ▸ hx), hxt.1, hxt.2.2⟩
  obtain ⟨-, hcl, hcr⟩ := (children_plug.mp h.children).2
  obtain ⟨-, hpl, hpr⟩ := (parents_plug.mp h.parents).2
  obtain ⟨-, hcoll, hcolr⟩ := (colors_plug.mp h.colors).2
  have hlm : ∀ x ∈ l.inorder, x ≠ addr s.sentinel r := fun x hx =>
    ne_addr (hst' x (Or.inl hx)) fun hxr => hlr x hx x (List.mem_cons_of_mem _ hxr) rfl
  have hrm : ∀ x ∈ r.inorder, x ≠ addr s.sentinel l := fun x hx =>
    ne_addr (hst' x (Or.inr hx)) fun hxl => hlr x hxl x (List.mem_cons_of_mem _ hx) rfl
  refine h.replace hsent ?_ (fun x hx => ?_) ?_ (fun e x hx => ?_) (fun e x hx hnot => ?_)
    (fun x hx => ?_) (fun x hx => ?_) ?_ ⟨⟨hleft, hright⟩, hcl.congr fun e x hx => ?_,
      hcr.congr fun e x hx => ?_⟩ ⟨hparentm, hpl.rehang s.sentinel ?_ (fun x hx hxl => ?_) hln,
      hpr.rehang s.sentinel ?_ (fun x hx hxr => ?_) hrn⟩ ⟨hcolorm, hcoll.congr fun x hx => ?_,
      hcolr.congr fun x hx => ?_⟩
  · exact nodup_relabel hnodup' hml hmr
  · rw [inorder_node, List.mem_append, List.mem_cons] at hx
    rcases hx with hx | rfl | hx
    · exact ⟨fun hxp => (habove x hxp).2.2.2.1 hx, hst' x (Or.inl hx)⟩
    · exact ⟨hmp, hms⟩
    · exact ⟨fun hxp => (habove x hxp).2.2.2.2 hx, hst' x (Or.inr hx)⟩
  · rw [hroot, addr]
  · rw [hhole e x hx, addr]
  · obtain ⟨hxa, hxm, -⟩ := habove x hx
    exact hchild e x hxa hxm hnot
  · obtain ⟨hxa, hxm, hxs, hxl, hxr⟩ := habove x hx
    exact hparent x hxa hxm (ne_addr hxs hxl) (ne_addr hxs hxr)
  · obtain ⟨hxa, hxm, -⟩ := habove x hx
    exact hcolor x hxa hxm
  · rw [hcolor _ (fun heq => ?_) hms.symm, h.sentinel_black]
    refine hst ?_
    rw [heq]
    simp
  · obtain ⟨hxa, hxm, hhole⟩ := hsub x (Or.inl hx)
    exact hchild e x hxa hxm (hhole e)
  · obtain ⟨hxa, hxm, hhole⟩ := hsub x (Or.inr hx)
    exact hchild e x hxa hxm (hhole e)
  · rintro c₁ l₁ b r₁ rfl
    exact hparentl (by simp)
  · obtain ⟨hxa, hxm, -⟩ := hsub x (Or.inl hx)
    exact hparent x hxa hxm hxl (hlm x hx)
  · rintro c₁ l₁ b r₁ rfl
    exact hparentr (by simp)
  · obtain ⟨hxa, hxm, -⟩ := hsub x (Or.inr hx)
    exact hparent x hxa hxm (hrm x hx) hxr
  · obtain ⟨hxa, hxm, -⟩ := hsub x (Or.inl hx)
    exact hcolor x hxa hxm
  · obtain ⟨hxa, hxm, -⟩ := hsub x (Or.inr hx)
    exact hcolor x hxa hxm

variable {p temp : Nat}

theorem substChildren_fields (s : RbTree) (subst : Nat) :
    (substChildren s subst).child = s.child ∧
    (∀ x, (substChildren s subst).parent x =
      if s.child .right subst ≠ s.sentinel ∧ x = s.child .right subst then subst
      else if s.child .left subst ≠ s.sentinel ∧ x = s.child .left subst then subst
      else s.parent x) ∧
    (substChildren s subst).color = s.color ∧ (substChildren s subst).key = s.key ∧
    (substChildren s subst).sentinel = s.sentinel ∧ (substChildren s subst).root = s.root := by
  by_cases hl : s.child .left subst = s.sentinel <;>
    by_cases hr : s.child .right subst = s.sentinel <;>
    simp [substChildren, RbTree.setParent, hl, hr, Function.update_apply]

/-- The node that takes the place of another one gets the pointers and the color of this. -/
theorem substFields_eq {s : RbTree} {a m : Nat} {c : Color} {left right : Nat} (hma : m ≠ a)
    (hta : temp ≠ a) (hp : s.parent m = p) (hcolor : s.color a = c)
    (hleft : s.child .left a = left) (hright : s.child .right a = right) :
    substFields s a m temp =
      ((((s.setParent temp (if p = a then m else p)).setChild .left m left).setChild
        .right m right).setParent m (s.parent a)).setColor m c := by
  have hfirst : (if s.parent m = a then s.setParent temp m else s.setParent temp (s.parent m)) =
      s.setParent temp (if p = a then m else p) := by
    rw [hp]
    split <;> rfl
  unfold substFields
  rw [hfirst]
  simp [RbTree.setParent, RbTree.setChild, RbTree.setColor, hleft, hright, hcolor, hma.symm,
    hta.symm]

/-- **The fields after the leftmost node took the place of the removed one.** -/
theorem deleteSubst_fields (h : Represents (s.setParent temp p) (plug path (.node c l a r)))
    (hm : m ∉ (plug path (.node c l a r)).inorder) (hp : s.parent m = p) (hta : temp ≠ a) :
    (∀ e x, (deleteSubst s a m temp).child e x =
      if IsHole path e x then m else if e = .right ∧ x = m then addr s.sentinel r
      else if e = .left ∧ x = m then addr s.sentinel l else s.child e x) ∧
    (∀ x, (deleteSubst s a m temp).parent x =
      if addr s.sentinel r ≠ s.sentinel ∧ x = addr s.sentinel r then m
      else if addr s.sentinel l ≠ s.sentinel ∧ x = addr s.sentinel l then m
      else if x = m then s.parent a else if x = temp then if p = a then m else p
      else s.parent x) ∧
    (deleteSubst s a m temp).color = Function.update s.color m c ∧
    (deleteSubst s a m temp).key = s.key ∧
    (deleteSubst s a m temp).sentinel = s.sentinel ∧
    (deleteSubst s a m temp).root = if path = [] then m else s.root := by
  have hmem : a ∈ (plug path (.node c l a r)).inorder := Represents.mem_plug.mpr (Or.inr (by simp))
  have hma : m ≠ a := fun heq => hm (heq ▸ hmem)
  obtain ⟨hca, hleft, hright⟩ : s.color a = c ∧ s.child .left a = addr s.sentinel l ∧
      s.child .right a = addr s.sentinel r :=
    Represents.node_eq (s := s.setParent temp p) (d := .left) h
  -- the node with the pointers of the other one
  have hfields := substFields_eq hma hta hp hca hleft hright
  obtain ⟨s₁, hs₁⟩ : ∃ s₁, s₁ = substFields s a m temp := ⟨_, rfl⟩
  have hchild₁ : ∀ e x, s₁.child e x = if e = .right ∧ x = m then addr s.sentinel r
      else if e = .left ∧ x = m then addr s.sentinel l else s.child e x := by
    rw [hs₁, hfields]
    exact fun _ _ => rfl
  have hparent₁ : s₁.parent =
      Function.update (Function.update s.parent temp (if p = a then m else p)) m (s.parent a) := by
    rw [hs₁, hfields]
    rfl
  have hrest₁ : s₁.color = Function.update s.color m c ∧ s₁.key = s.key ∧
      s₁.sentinel = s.sentinel ∧ s₁.root = s.root := by
    rw [hs₁, hfields]
    exact ⟨rfl, rfl, rfl, rfl⟩
  obtain ⟨hcolor₁, hkey₁, hsent₁, hroot₁⟩ := hrest₁
  -- and the pointer from above to it
  obtain ⟨s₂, hs₂⟩ : ∃ s₂, s₂ = if a = s₁.root then s₁.setRoot m else s₁.rehang .left a m :=
    ⟨_, rfl⟩
  have hhang : (∀ e x, s₂.child e x =
      if IsHole path e x then m else if e = .right ∧ x = m then addr s.sentinel r
      else if e = .left ∧ x = m then addr s.sentinel l else s.child e x) ∧
      s₂.parent = s₁.parent ∧ s₂.color = s₁.color ∧ s₂.key = s₁.key ∧
      s₂.sentinel = s₁.sentinel ∧ s₂.root = if path = [] then m else s.root := by
    rw [hs₂, hroot₁]
    cases path with
    | nil =>
      have hroot : a = s.root := h.root_eq.symm
      rw [if_pos hroot]
      exact ⟨fun e x => hchild₁ e x, rfl, rfl, rfl, rfl, rfl⟩
    | cons f path =>
      have hloc : Represents (s.setParent temp p) (plug (f :: path) (on .left c l a r)) := h
      have hne : a ≠ s.root := h.ne_root
      have hfm : f.elem ≠ m := by
        rintro rfl
        exact hm (Represents.mem_plug.mpr (Or.inl (mem_pathElems_cons.mpr (Or.inl rfl))))
      have hpa : s₁.parent a = f.elem := by
        have hpf := hloc.parent_eq
        dsimp only [RbTree.setParent] at hpf
        rw [Function.update_of_ne hta.symm] at hpf
        rw [hparent₁, Function.update_of_ne hma.symm, Function.update_of_ne hta.symm, hpf]
      have hside : a = s₁.child .left f.elem ↔ f.side = .left := by
        have hiff := hloc.side_eq_iff (Or.inl on_ne_nil) .left
        rw [addr_on] at hiff
        rw [← hiff, hchild₁, if_neg fun hx => hfm hx.2, if_neg fun hx => hfm hx.2]
        rfl
      rw [if_neg hne, RbTree.rehang_eq hpa hside]
      refine ⟨fun e x => ?_, rfl, rfl, rfl, rfl, hroot₁⟩
      change (if e = f.side ∧ x = f.elem then m else s₁.child e x) = _
      rw [hchild₁]
      rfl
  have hchildm : s₂.child .left m = addr s.sentinel l ∧ s₂.child .right m = addr s.sentinel r := by
    have hhole : ∀ e, ¬ IsHole path e m := fun e hhole =>
      hm (Represents.mem_plug.mpr (Or.inl hhole.mem))
    rw [hhang.1, hhang.1, if_neg (hhole _), if_neg (hhole _)]
    simp
  obtain ⟨hchild, hparent, hcolor, hkey, hsent, hroot⟩ := substChildren_fields s₂ m
  have hsubst : deleteSubst s a m temp = substChildren s₂ m := by rw [hs₂, hs₁, deleteSubst]
  obtain ⟨hchild₂, hparent₂, hcolor₂, hkey₂, hsent₂, hroot₂⟩ := hhang
  rw [hsubst, hchild, hcolor, hkey, hsent, hroot]
  refine ⟨hchild₂, fun x => ?_, hcolor₂.trans hcolor₁, hkey₂.trans hkey₁, hsent₂.trans hsent₁,
    hroot₂⟩
  rw [hparent, hchildm.1, hchildm.2, hsent₂, hsent₁, hparent₂, hparent₁, Function.update_apply,
    Function.update_apply]

/-- **The leftmost node takes the place of the removed one.** -/
theorem deleteSubst_represents (h : Represents (s.setParent temp p) (plug path (.node c l a r)))
    (hm : m ∉ (plug path (.node c l a r)).inorder) (hms : m ≠ s.sentinel) (hp : s.parent m = p)
    (htemp : temp = s.sentinel ∨ temp ∈ r.inorder) (hpa : p = a ↔ temp = addr s.sentinel r) :
    Represents (deleteSubst s a m temp) (plug path (.node c l m r)) ∧
      (deleteSubst s a m temp).parent temp = (if p = a then m else p) ∧
      (deleteSubst s a m temp).key = s.key ∧ (deleteSubst s a m temp).sentinel = s.sentinel ∧
      ∀ x, x ∉ (plug path (.node c l a r)).inorder → x ≠ m → x ≠ s.sentinel →
        SameAt s (deleteSubst s a m temp) x := by
  obtain ⟨hst, hnodup⟩ : s.sentinel ∉ (plug path (.node c l a r)).inorder ∧
    (ColorTree.node c l a r).inorder.Nodup := ⟨h.sentinel_notMem, h.nodup_plug.2.1⟩
  rw [inorder_node, List.nodup_append, List.nodup_cons] at hnodup
  obtain ⟨-, ⟨har, -⟩, hlr⟩ := hnodup
  -- where the nodes are
  have hmem : ∀ x, x ∈ (plug path (.node c l a r)).inorder ↔
      x ∈ pathElems path ∨ x ∈ l.inorder ∨ x = a ∨ x ∈ r.inorder := by
    intro x
    rw [Represents.mem_plug, inorder_node, List.mem_append, List.mem_cons]
  have hm' := hm
  rw [hmem, not_or, not_or, not_or] at hm'
  obtain ⟨hmp, hml, hma, hmr⟩ := hm'
  have hta : temp ≠ a := by
    rintro rfl
    exact htemp.elim (fun heq => hst ((hmem _).mpr (Or.inr (Or.inr (Or.inl heq.symm))))) har
  have htm : temp ≠ m := by
    rintro rfl
    exact htemp.elim hms hmr
  have hhole : ∀ e, ¬ IsHole path e m := fun e hhole => hmp hhole.mem
  obtain ⟨hchild, hparent, hcolor, hkey, hsent, hroot⟩ := deleteSubst_fields h hm hp hta
  refine ⟨h.relabel hm hms hsent hroot (fun e x hx => ?_) ?_ ?_ (fun e x hxa hxm hx => ?_)
    (fun q hq => ?_) (fun hl => ?_) (fun hr => ?_) (fun x hxa hxm hxl hxr => ?_) ?_
    (fun x hxa hxm => ?_), ?_, hkey, hsent, fun x hx hxm hxs => ?_⟩
  · rw [hchild, if_pos hx]
  · rw [hchild, if_neg (hhole _)]
    simp [RbTree.setParent]
  · rw [hchild, if_neg (hhole _)]
    simp [RbTree.setParent]
  · rw [hchild, if_neg hx, if_neg fun hcond => hxm hcond.2, if_neg fun hcond => hxm hcond.2]
    rfl
  · rw [hparent, if_neg fun hcond => ne_addr hms hmr hcond.2,
      if_neg fun hcond => ne_addr hms hml hcond.2, if_pos rfl]
    have hkeep : (s.setParent temp p).parent a = s.parent a := Function.update_of_ne hta.symm _ _
    exact hkeep.symm.trans ((parents_plug.mp h.parents).2.1 q hq)
  · have hne : addr s.sentinel l ≠ s.sentinel := fun heq =>
      hl ((Represents.addr_eq_sentinel_iff (s := s.setParent temp p)
        (show Represents _ (plug (⟨.left, c, a, r⟩ :: path) l) from h)).mp heq)
    change (deleteSubst s a m temp).parent (addr s.sentinel l) = m
    rw [hparent]
    split
    · rfl
    · rw [if_pos ⟨hne, rfl⟩]
  · have hne : addr s.sentinel r ≠ s.sentinel := fun heq =>
      hr ((Represents.addr_eq_sentinel_iff (s := s.setParent temp p)
        (show Represents _ (plug (⟨.right, c, a, l⟩ :: path) r) from h)).mp heq)
    change (deleteSubst s a m temp).parent (addr s.sentinel r) = m
    rw [hparent, if_pos ⟨hne, rfl⟩]
  · rw [hparent, if_neg fun hcond => hxr hcond.2, if_neg fun hcond => hxl hcond.2, if_neg hxm]
    by_cases hxt : x = temp
    · subst hxt
      rw [if_pos rfl, if_neg fun heq => hxr (hpa.mp heq)]
      exact (Function.update_self x p s.parent).symm
    · rw [if_neg hxt]
      exact (Function.update_of_ne hxt _ _).symm
  · rw [hcolor, Function.update_self]
  · rw [hcolor, Function.update_of_ne hxm]
    rfl
  · -- the subtree that moved up has the right parent, also when it is empty
    rw [hparent]
    by_cases hcond : addr s.sentinel r ≠ s.sentinel ∧ temp = addr s.sentinel r
    · rw [if_pos hcond, if_pos (hpa.mpr hcond.2)]
    · have hnl : ¬ (addr s.sentinel l ≠ s.sentinel ∧ temp = addr s.sentinel l) := by
        rintro ⟨hls, rfl⟩
        have hmeml : addr s.sentinel l ∉ l.inorder := fun hx =>
          hlr _ hx _ (List.mem_cons_of_mem _ (htemp.resolve_left hls)) rfl
        exact ne_addr hls hmeml rfl
      rw [if_neg hcond, if_neg hnl, if_neg htm, if_pos rfl]
  · rw [hmem, not_or, not_or, not_or] at hx
    obtain ⟨hxp, hxl, hxa, hxr⟩ := hx
    have hxt : x ≠ temp := by
      rintro rfl
      exact htemp.elim hxs hxr
    refine ⟨fun e => ?_, ?_, ?_⟩
    · rw [hchild, if_neg fun hhole => hxp hhole.mem, if_neg fun hcond => hxm hcond.2,
        if_neg fun hcond => hxm hcond.2]
    · rw [hparent, if_neg fun hcond => ne_addr hxs hxr hcond.2,
        if_neg fun hcond => ne_addr hxs hxl hcond.2, if_neg hxm, if_neg hxt]
    · rw [hcolor, Function.update_of_ne hxm]

/-- The end of a deletion, from the unlinked node on. -/
theorem splice_represents {n fuel : Nat} (h : Represents s (plug path t))
    (hparent : ∀ f path', path = f :: path' → s.parent (addr s.sentinel t) = f.elem)
    (hp : PathBalanced path n) (ht : (on d c .nil a t).Balanced n) (hfuel : path.length < fuel) :
    ∃ s', (if c = .red then some s else deleteRebalance fuel s (addr s.sentinel t)) = some s' ∧
      Rewrites s (plug path t) s' (splice path c t) := by
  rw [splice]
  cases c with
  | red => exact ⟨s, rfl, Rewrites.refl h⟩
  | black =>
    cases n with
    | zero => cases d <;> exact ht.elim
    | succ n =>
      rw [if_neg (by decide), if_neg (by simp)]
      exact deleteRebalance_represents h hp (Balanced.short (balanced_on_black.mp ht).2) hparent
        hfuel

/-- A node with at most one child. -/
theorem deleteSplice_self {fuel : Nat} (h : Represents s (plug path (on d c .nil a r)))
    (hrb : (plug path (on d c .nil a r)).IsRedBlack) (hfuel : path.length < fuel) :
    ∃ s', deleteSplice fuel s a a (addr s.sentinel r) = some s' ∧
      Represents s' (splice path c r) ∧ s'.sentinel = s.sentinel ∧
      (∀ x, x ≠ a → s'.key x = s.key x) ∧
      ∀ x, x ∉ (plug path (on d c .nil a r)).inorder → x ≠ s.sentinel → SameAt s s' x := by
  obtain ⟨n, hp, ht, hc⟩ := isRedBlack_plug.mp hrb
  rw [color_on] at hc
  obtain ⟨-, hnodup, hdisj⟩ := h.nodup_plug
  have hrt : ∀ x, x ∈ r.inorder → x ∈ (on d c .nil a r).inorder := fun x hx =>
    mem_inorder_on.mpr (Or.inr (Or.inr hx))
  have har : a ∉ r.inorder := by cases d <;> simp [on, List.nodup_append] at hnodup <;> tauto
  cases path with
  | nil =>
    -- the root is replaced by its subtree, painted black
    obtain rfl : c = .black := hc rfl
    have hroot : a = s.root := by
      have hroot := h.root_eq
      rw [plug, addr_on] at hroot
      exact hroot.symm
    have hup : Represents (s.setRoot (addr s.sentinel r)) (plug [] r) := by
      refine ⟨rfl, ?_, ?_, ?_, ?_, fun hmem => h.sentinel_notMem (hrt _ hmem), h.sentinel_black⟩
      · exact (children_on.mp h.children).2.2
      · exact (parents_on.mp h.parents).2.2.weaken
      · exact (colors_on.mp h.colors).2.2
      · cases d <;> simp [on, List.nodup_append] at hnodup <;> tauto
    have hpaint := hup.setColor .black fun _ => rfl
    have hmem : a ∉ (r.paint .black).inorder := by rwa [inorder_paint]
    refine ⟨_, if_pos hroot, ?_, rfl, fun x hx => Function.update_of_ne hx _ _, fun x hx hxs => ?_⟩
    · exact hpaint.represents.deleteClear hmem
    · have hxr : x ∉ r.inorder := fun hmem => hx (hrt x hmem)
      have hxa : x ≠ a := by
        rintro rfl
        exact hx (mem_inorder_on.mpr (Or.inl rfl))
      exact (hpaint.outside x hxr).trans (deleteClear_same _ hxa)
  | cons f path =>
    have hne : a ≠ s.root := by
      have hne := h.ne_root
      rwa [addr_on] at hne
    obtain ⟨hrehang, hunlink⟩ := unlink_represents h
    rw [hrehang] at hunlink
    have hmem : a ∉ (plug (f :: path) r).inorder := by
      rw [Represents.mem_plug, not_or]
      exact ⟨fun hx => hdisj a hx (mem_inorder_on.mpr (Or.inl rfl)), har⟩
    have has : a ≠ s.sentinel := by
      rintro rfl
      exact h.sentinel_notMem_plug.2 (mem_inorder_on.mpr (Or.inl rfl))
    have hstart := hunlink.deleteClear hmem
    obtain ⟨s', hcode, hrew⟩ := splice_represents hstart (fun f' path' hpath => by
      obtain ⟨rfl, rfl⟩ := List.cons.inj hpath
      refine (Function.update_of_ne (ne_addr has har).symm _ _).trans ?_
      exact Function.update_self ..) hp ht hfuel
    refine ⟨s', ?_, hrew.represents, hrew.sentinel_eq, fun x hx => ?_, fun x hx hxs => ?_⟩
    · rw [deleteSplice, if_neg hne]
      dsimp only
      rw [if_pos rfl, hrehang, h.node_eq.1]
      have hpa : (s.setChild f.side f.elem (addr s.sentinel r)).parent a = f.elem := h.parent_eq
      rw [hpa]
      exact hcode
    · rw [hrew.key_eq]
      exact Function.update_of_ne hx _ _
    · rw [Represents.mem_plug, mem_inorder_on, not_or, not_or, not_or] at hx
      obtain ⟨hxp, hxa, -, hxr⟩ := hx
      have hout : x ∉ (plug (f :: path) r).inorder := by
        rw [Represents.mem_plug, not_or]
        exact ⟨hxp, hxr⟩
      have hxf : x ≠ f.elem := by
        rintro rfl
        exact hxp (mem_pathElems_cons.mpr (Or.inl rfl))
      have hfirst : SameAt s ((s.setChild f.side f.elem (addr s.sentinel r)).setParent
          (addr s.sentinel r) f.elem) x := by
        simp [SameAt, RbTree.setChild, RbTree.setParent, hxf, ne_addr hxs hxr]
      exact hfirst.trans ((deleteClear_same _ hxa).trans (hrew.outside x hout))

/-- The place of the leftmost node on the right of a node. -/
theorem plug_right (path path' : Path Nat) (c : Color) (l : ColorTree Nat) (a : Nat)
    (t : ColorTree Nat) : plug path (.node c l a (plug path' t)) =
      plug (path' ++ ⟨.right, c, a, l⟩ :: path) t := by
  rw [plug_append]
  rfl

/-- Whether the removed node is right above the leftmost one. -/
theorem min_parent_iff {path' rest : Path Nat}
    (h : Represents s (plug (path' ++ ⟨.right, c, a, l⟩ :: path) r))
    (hpath : path' ++ ⟨.right, c, a, l⟩ :: path = f :: rest) :
    f.elem = a ↔ addr s.sentinel r = addr s.sentinel (plug path' r) := by
  cases path' with
  | nil =>
    obtain ⟨rfl, -⟩ := List.cons.inj hpath
    exact iff_of_true rfl rfl
  | cons g path' =>
    obtain ⟨rfl, -⟩ := List.cons.inj hpath
    refine iff_of_false (fun heq => ?_) (h.addr_ne_of_mem ?_)
    · -- the removed node is further up
      have hcons := (perm_pathElems_cons g (path' ++ ⟨.right, c, a, l⟩ :: path)).nodup_iff.mp
        h.nodup_plug.1
      refine (List.nodup_cons.mp hcons).1 (List.mem_append.mpr (Or.inr ?_))
      rw [heq]
      exact mem_pathElems_append.mpr (Or.inr (mem_pathElems_cons.mpr (Or.inl rfl)))
    · exact mem_pathElems_append.mpr (Or.inl (addr_plug_mem g path' r))

/-- The node that is above the leftmost one once this has taken its new place. -/
theorem min_parent_eq {path' path'' rest : Path Nat} {g : Frame Nat}
    (h : Represents s (plug (path' ++ ⟨.right, c, a, l⟩ :: path) r))
    (hpath : path' ++ ⟨.right, c, a, l⟩ :: path = f :: rest)
    (hg : path' ++ ⟨.right, c, m, l⟩ :: path = g :: path'') :
    (if f.elem = a then m else f.elem) = g.elem := by
  have hiff := min_parent_iff h hpath
  cases path' with
  | nil =>
    obtain ⟨rfl, -⟩ := List.cons.inj hpath
    obtain ⟨rfl, -⟩ := List.cons.inj hg
    exact if_pos rfl
  | cons g' path' =>
    obtain ⟨rfl, -⟩ := List.cons.inj hpath
    obtain ⟨rfl, -⟩ := List.cons.inj hg
    rw [if_neg fun heq => ?_]
    exact h.addr_ne_of_mem (mem_pathElems_append.mpr (Or.inl (addr_plug_mem g' path' r)))
      (hiff.mp heq)

/-- The leftmost node is not the root, and none of those that stay. -/
theorem min_notMem {path' : Path Nat} {c' : Color}
    (h : Represents s (plug (path' ++ ⟨.right, c, a, l⟩ :: path) (on .left c' .nil m r))) :
    m ∉ (plug (path' ++ ⟨.right, c, a, l⟩ :: path) r).inorder ∧ m ≠ a ∧ m ≠ s.sentinel ∧
      m ≠ s.root := by
  obtain ⟨-, hnodup, hdisj⟩ := h.nodup_plug
  have hmr : m ∉ r.inorder := (List.nodup_cons.mp hnodup).1
  have hmp : m ∉ pathElems (path' ++ ⟨.right, c, a, l⟩ :: path) := fun hx =>
    hdisj m hx (mem_inorder_on.mpr (Or.inl rfl))
  have hap : a ∈ pathElems (path' ++ ⟨.right, c, a, l⟩ :: path) :=
    mem_pathElems_append.mpr (Or.inr (mem_pathElems_cons.mpr (Or.inl rfl)))
  refine ⟨?_, fun heq => hmp (heq ▸ hap),
    fun heq => h.sentinel_notMem_plug.2 (heq ▸ mem_inorder_on.mpr (Or.inl rfl)), ?_⟩
  · rw [Represents.mem_plug, not_or]
    exact ⟨hmp, hmr⟩
  · obtain ⟨f, rest, hpath⟩ := List.exists_cons_of_ne_nil
      (List.append_ne_nil_of_right_ne_nil path' (List.cons_ne_nil ⟨.right, c, a, l⟩ path))
    rw [hpath] at h
    have hne := h.ne_root
    rwa [addr_on] at hne

/-- The removed node is not in the tree once the leftmost one has its place. -/
theorem removed_notMem {path' : Path Nat} {c' : Color}
    (h : Represents s (plug path (.node c l a (plug path' (.node c' .nil m r))))) (hma : m ≠ a) :
    a ∉ (plug path (.node c l m (plug path' r))).inorder := by
  obtain ⟨-, hnodup, hdisj⟩ := h.nodup_plug
  rw [inorder_node, List.nodup_append, List.nodup_cons, Represents.mem_plug, not_or] at hnodup
  obtain ⟨-, ⟨⟨hap, har⟩, -⟩, hlr⟩ := hnodup
  rw [Represents.mem_plug, inorder_node, List.mem_append, List.mem_cons, Represents.mem_plug]
  rintro (hx | hx | hx | hx | hx)
  · exact hdisj a hx (by simp)
  · exact hlr a hx a List.mem_cons_self rfl
  · exact hma hx.symm
  · exact hap hx
  · exact har (by simp [hx])

/-- **The leftmost node on the right is unlinked** and takes the place of the removed one. -/
theorem deleteSubst_min {c' : Color} {path' : Path Nat}
    (h : Represents s (plug path (.node c l a (plug path' (.node c' .nil m r))))) :
    ∃ s₁, s₁ = deleteClear (deleteSubst (s.rehang .left m (addr s.sentinel r)) a m
        (addr s.sentinel r)) a ∧
      Represents s₁ (plug (path' ++ ⟨.right, c, m, l⟩ :: path) r) ∧
      s₁.sentinel = s.sentinel ∧ (∀ x, x ≠ a → s₁.key x = s.key x) ∧
      (∀ g path'', path' ++ ⟨.right, c, m, l⟩ :: path = g :: path'' →
        s₁.parent (addr s.sentinel r) = g.elem) ∧
      ∀ x, x ∉ (plug path (.node c l a (plug path' (.node c' .nil m r)))).inorder →
        x ≠ s.sentinel → SameAt s s₁ x := by
  have hloc : Represents s (plug (path' ++ ⟨.right, c, a, l⟩ :: path) (on .left c' .nil m r)) := by
    rw [← plug_right]
    exact h
  obtain ⟨hm, hma, hms, -⟩ := min_notMem hloc
  obtain ⟨f, rest, hpath⟩ := List.exists_cons_of_ne_nil
    (List.append_ne_nil_of_right_ne_nil path' (List.cons_ne_nil ⟨.right, c, a, l⟩ path))
  -- the leftmost node is unlinked
  rw [hpath] at hloc
  obtain ⟨hrehang, hunlink⟩ := unlink_represents hloc
  rw [hrehang, ← hpath] at hunlink
  have hap : a ∈ pathElems (path' ++ ⟨.right, c, a, l⟩ :: path) :=
    mem_pathElems_append.mpr (Or.inr (mem_pathElems_cons.mpr (Or.inl rfl)))
  have hra : addr s.sentinel r ≠ a := hunlink.addr_ne_of_mem hap
  have hpar' : ∀ g path'', path' ++ ⟨.right, c, m, l⟩ :: path = g :: path'' →
      (if f.elem = a then m else f.elem) = g.elem := fun _ _ => min_parent_eq hunlink hpath
  have hfa := min_parent_iff hunlink hpath
  change f.elem = a ↔ addr s.sentinel r = addr s.sentinel (plug path' r) at hfa
  have htemp : addr s.sentinel r = s.sentinel ∨ addr s.sentinel r ∈ (plug path' r).inorder := by
    cases r with
    | nil => exact Or.inl rfl
    | node c₁ l₁ b r₁ => exact Or.inr (Represents.mem_plug.mpr (Or.inr (by simp [addr])))
  -- and takes the place of the removed one
  rw [← plug_right] at hunlink hm
  obtain ⟨hsub, hpar, hkey, hsent, hout⟩ :=
    deleteSubst_represents hunlink hm hms hloc.parent_eq htemp hfa
  have hclear := hsub.deleteClear (removed_notMem h hma)
  rw [plug_right] at hclear
  rw [hrehang]
  refine ⟨_, rfl, hclear, hsent, fun x hx => ?_, fun g path'' hg => ?_, fun x hx hxs => ?_⟩
  · exact (Function.update_of_ne hx _ _).trans (congrFun hkey x)
  · exact (Function.update_of_ne hra _ _).trans (hpar.trans (hpar' g path'' hg))
  · rw [plug_right, Represents.mem_plug, not_or] at hx
    obtain ⟨hxp, hxm⟩ := hx
    have hxm' : x ≠ m := by
      rintro rfl
      exact hxm (by simp)
    have hxa : x ≠ a := fun heq => hxp (heq ▸ hap)
    have hxf : x ≠ f.elem := by
      rintro rfl
      rw [hpath] at hxp
      exact hxp (mem_pathElems_cons.mpr (Or.inl rfl))
    have hfirst : SameAt s (s.setChild f.side f.elem (addr s.sentinel r)) x := by
      simp [SameAt, RbTree.setChild, hxf]
    have hsecond := hout x (by
      rw [plug_right, Represents.mem_plug, not_or]
      exact ⟨hxp, fun hx => hxm (by simp [hx])⟩) hxm' hxs
    exact hfirst.trans (hsecond.trans (deleteClear_same _ hxa))

/-- A node with two children, and the leftmost one on its right. -/
theorem deleteSplice_min {c' : Color} {path' : Path Nat} {fuel : Nat}
    (h : Represents s (plug path (.node c l a (plug path' (.node c' .nil m r)))))
    (hrb : (plug path (.node c l a (plug path' (.node c' .nil m r)))).IsRedBlack)
    (hfuel : (path' ++ ⟨.right, c, m, l⟩ :: path).length < fuel) :
    ∃ s', deleteSplice fuel s a m (addr s.sentinel r) = some s' ∧
      Represents s' (splice (path' ++ ⟨.right, c, m, l⟩ :: path) c' r) ∧
      s'.sentinel = s.sentinel ∧ (∀ x, x ≠ a → s'.key x = s.key x) ∧
      ∀ x, x ∉ (plug path (.node c l a (plug path' (.node c' .nil m r)))).inorder →
        x ≠ s.sentinel → SameAt s s' x := by
  have hloc : Represents s (plug (path' ++ ⟨.right, c, a, l⟩ :: path) (on .left c' .nil m r)) := by
    rw [← plug_right]
    exact h
  obtain ⟨-, hma, -, hne⟩ := min_notMem hloc
  obtain ⟨s₁, hs₁, hstart, hsent, hkey, hpar, hout⟩ := deleteSubst_min h
  rw [plug_right] at hrb
  obtain ⟨n, hp, ht, -⟩ := isRedBlack_plug.mp hrb
  obtain ⟨hp', -⟩ := pathBalanced_relabel m hp
  obtain ⟨s', hcode, hrew⟩ := splice_represents (d := .left) hstart (fun g path'' hg => by
    rw [hsent]
    exact hpar g path'' hg) hp' ht hfuel
  refine ⟨s', ?_, hrew.represents, hrew.sentinel_eq.trans hsent, fun x hx => ?_, fun x hx hxs => ?_⟩
  · rw [deleteSplice, if_neg hne]
    dsimp only
    rw [if_neg hma, hloc.node_eq.1, ← hs₁]
    rwa [hsent] at hcode
  · rw [hrew.key_eq]
    exact hkey x hx
  · have hsame := hout x hx hxs
    rw [plug_right, Represents.mem_plug, not_or] at hx
    obtain ⟨hxp, hxm⟩ := hx
    refine hsame.trans (hrew.outside x ?_)
    rw [Represents.mem_plug, mem_pathElems_append, mem_pathElems_cons]
    rw [mem_pathElems_append, mem_pathElems_cons] at hxp
    simp only [inorder_node, inorder_nil, List.nil_append, List.mem_cons] at hxm
    tauto

/-- The search for the leftmost node is that of the tree. -/
theorem ngxRbtreeMin_eq {fuel : Nat} (h : Represents s (plug path (.node c l a r)))
    (hfuel : (ColorTree.node c l a r).depth ≤ fuel) (path' : Path Nat) :
    ngxRbtreeMin s fuel a = some (descendMin path' c l a r).2.2.1 := by
  induction l generalizing path c a r fuel path' with
  | nil =>
    obtain ⟨-, hleft, -⟩ := h.node_eq (d := .left)
    cases fuel with
    | zero => exact absurd hfuel (Nat.not_succ_le_zero _)
    | succ fuel =>
      rw [ngxRbtreeMin, if_neg fun hne => hne hleft]
      rfl
  | node c₁ l₁ b r₁ ihl _ =>
    obtain ⟨-, hleft, -⟩ := h.node_eq (d := .left)
    have hloc : Represents s (plug (⟨.left, c, a, r⟩ :: path) (.node c₁ l₁ b r₁)) := h
    cases fuel with
    | zero => exact absurd hfuel (Nat.not_succ_le_zero _)
    | succ fuel =>
      have hdepth : (ColorTree.node c₁ l₁ b r₁).depth ≤ fuel :=
        (le_max_left _ _).trans (Nat.le_of_succ_le_succ hfuel)
      have hne : s.child .left a ≠ s.sentinel := by
        rw [hleft]
        exact fun heq => absurd (hloc.addr_eq_sentinel_iff.mp heq) nofun
      rw [ngxRbtreeMin, if_pos hne, hleft]
      exact ihl hloc hdepth _

end

/-- **`ngx_rbtree_delete` is the deletion from the tree.** It ends, and it writes only to
nodes of the tree and to the sentinel. -/
theorem ngxRbtreeDelete_represents {s : RbTree} {path : Path Nat} {c : Color} {l : ColorTree Nat}
    {a : Nat} {r : ColorTree Nat} {fuel : Nat} (h : Represents s (plug path (.node c l a r)))
    (hrb : (plug path (.node c l a r)).IsRedBlack)
    (hfuel : (plug path (.node c l a r)).depth < fuel) :
    ∃ s', ngxRbtreeDelete fuel s a = some s' ∧ Represents s' (deleteAt path c l r) ∧
      s'.sentinel = s.sentinel ∧ (∀ x, x ≠ a → s'.key x = s.key x) ∧
      ∀ x, x ∉ (plug path (.node c l a r)).inorder → x ≠ s.sentinel → SameAt s s' x := by
  obtain ⟨-, hleft, hright⟩ := h.node_eq (d := .left)
  rw [Side.other] at hright
  have hlen : path.length < fuel := by
    have hle := depth_plug_le path (ColorTree.node c l a r)
    omega
  have hlloc : Represents s (plug (⟨.left, c, a, r⟩ :: path) l) := h
  have hrloc : Represents s (plug (⟨.right, c, a, l⟩ :: path) r) := h
  rw [ngxRbtreeDelete, hleft, hright]
  cases l with
  | nil =>
    -- nothing on the left
    rw [addr, if_pos rfl]
    exact deleteSplice_self (d := .left) h hrb hlen
  | node c₁ l₁ b₁ r₁ =>
    rw [if_neg fun heq => absurd (hlloc.addr_eq_sentinel_iff.mp heq) (by simp)]
    cases r with
    | nil =>
      -- nothing on the right
      rw [addr, if_pos rfl]
      exact deleteSplice_self (d := .right) h hrb hlen
    | node c₂ l₂ b₂ r₂ =>
      rw [if_neg fun heq => absurd (hrloc.addr_eq_sentinel_iff.mp heq) (by simp)]
      -- both subtrees: the leftmost node on the right takes the place
      obtain ⟨path', c', m, r', heq, hplug, -⟩ := descendMin_spec [] c₂ l₂ b₂ r₂
      rw [List.append_nil] at heq
      have hdepth : path.length + 1 + (ColorTree.node c₂ l₂ b₂ r₂).depth ≤
          (plug path (.node c (.node c₁ l₁ b₁ r₁) a (.node c₂ l₂ b₂ r₂))).depth :=
        depth_plug_le (⟨.right, c, a, .node c₁ l₁ b₁ r₁⟩ :: path) (.node c₂ l₂ b₂ r₂)
      have hmindepth : (ColorTree.node c₂ l₂ b₂ r₂).depth ≤ fuel := by omega
      have hmin := ngxRbtreeMin_eq hrloc hmindepth []
      rw [heq] at hmin
      rw [← hplug] at h hrb
      have hmloc : Represents s
          (plug (path' ++ ⟨.right, c, a, .node c₁ l₁ b₁ r₁⟩ :: path) (on .left c' .nil m r')) := by
        rw [plug_append]
        exact h
      obtain ⟨-, hml, hmr⟩ := hmloc.node_eq
      rw [addr] at hml
      rw [Side.other] at hmr
      have hlen' : (path' ++ ⟨.right, c, m, .node c₁ l₁ b₁ r₁⟩ :: path).length < fuel := by
        have hle := depth_plug_le path' (ColorTree.node c' .nil m r')
        rw [hplug] at hle
        rw [List.length_append, List.length_cons]
        have hone : 1 ≤ (ColorTree.node c' .nil m r').depth := Nat.succ_le_succ (Nat.zero_le _)
        omega
      have hdel : deleteAt path c (.node c₁ l₁ b₁ r₁) (.node c₂ l₂ b₂ r₂) =
          splice (path' ++ ⟨.right, c, m, .node c₁ l₁ b₁ r₁⟩ :: path) c' r' := by
        rw [deleteAt, heq]
        simp
      rw [addr, hmin, Option.bind_some, hml, hmr, if_neg fun hne => hne rfl, hdel, ← hplug]
      exact deleteSplice_min h hrb hlen'

end Nginx
