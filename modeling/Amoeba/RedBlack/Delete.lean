import Amoeba.RedBlack.Basic

/-!
# Deletion from a red-black tree

A node with two children gives its place to the leftmost node on its right; so a
node with at most one child is spliced out. When that one was black, the subtree
which moved up is one black node short, and the rebalancing walks up from there:
a red sibling is rotated away, a black sibling with black children is painted red,
and a red child of the sibling ends the walk with one or two rotations.

* `blackRound` — a round whose sibling is black.
* `isRedBlack_deleteAt`, `inorder_deleteAt` — the result is red-black again and has
  the sequence without the element.
-/

namespace RedBlack

open RedBlack.ColorTree

universe u

variable {α : Type u}

/-! ### The algorithm -/

/-- A round under `f`, whose sibling is black: the subtree that goes on up, one black
node short, or the one that ends the walk. -/
def blackRound (f : Frame α) (t : ColorTree α) : ColorTree α ⊕ ColorTree α :=
  match f.sibling with
  | .nil => .inl (f.fill t)
  | .node c l b r =>
    let near := (node c l b r).child f.side
    let far := (node c l b r).child f.side.other
    if near.color = .black ∧ far.color = .black then
      .inl (on f.side f.color t f.elem (node .red l b r))
    else if far.color = .black then
      match near with
      | .nil => .inl (f.fill t)
      | .node c' l' x r' =>
        .inr (on f.side f.color
          (on f.side .black t f.elem ((node c' l' x r').child f.side)) x
          (on f.side .black ((node c' l' x r').child f.side.other) b far))
    else .inr (on f.side f.color (on f.side .black t f.elem near) b (far.paint .black))

/-- The way up from a subtree that is one black node short. -/
def deleteLoop : Path α → ColorTree α → ColorTree α
  | [], t => t.paint .black
  | f :: path, t =>
    if t.color = .red then plug (f :: path) (t.paint .black)
    else
      match f.sibling with
      | .node .red l w r =>
        -- the sibling is rotated above the parent, and one of its children is the next sibling
        let outer : Frame α := ⟨f.side, .black, w, (node .red l w r).child f.side.other⟩
        match blackRound ⟨f.side, .red, f.elem, (node .red l w r).child f.side⟩ t with
        -- the parent is red now, so the walk ends there
        | .inl t' => plug (outer :: path) (t'.paint .black)
        | .inr t' => (plug (outer :: path) t').paint .black
      | _ =>
        match blackRound f t with
        | .inl t' => deleteLoop path t'
        | .inr t' => (plug path t').paint .black

/-- A node of the colour `c` is replaced by its only subtree. -/
def splice (path : Path α) (c : Color) (t : ColorTree α) : ColorTree α :=
  if c = .red then plug path t else deleteLoop path t

/-- The way from a node down to the leftmost one below it, and that node. -/
def descendMin : Path α → Color → ColorTree α → α → ColorTree α → Path α × Color × α × ColorTree α
  | path, c, .nil, a, r => (path, c, a, r)
  | path, c, .node c' l' a' r', a, r => descendMin (⟨.left, c, a, r⟩ :: path) c' l' a' r'

/-- The tree without the node of the colour `c` with the subtrees `l` and `r`. -/
def deleteAt (path : Path α) (c : Color) : ColorTree α → ColorTree α → ColorTree α
  | .nil, r => splice path c r
  | l, .nil => splice path c l
  | l, .node c' l' b r' =>
    match descendMin [] c' l' b r' with
    | (path', c'', m, r'') => splice (path' ++ ⟨.right, c, m, l⟩ :: path) c'' r''

/-! ### The cases of a round -/

/-- What the children of a black sibling can be, the near one first. -/
inductive SiblingCase (d : Side) : ColorTree α → ColorTree α → Prop
  | recolor (near far : ColorTree α) (hnear : near.color = .black) (hfar : far.color = .black) :
      SiblingCase d near far
  | near (v : ColorTree α) (x : α) (w far : ColorTree α) (hfar : far.color = .black) :
      SiblingCase d (on d .red v x w) far
  | far (near v : ColorTree α) (x : α) (w : ColorTree α) : SiblingCase d near (on d .red v x w)

theorem siblingCase (d : Side) (near far : ColorTree α) : SiblingCase d near far := by
  cases hfar : far.color with
  | red =>
    obtain rfl | ⟨c, v, x, w, rfl⟩ := eq_nil_or_on d far
    · exact absurd hfar nofun
    · obtain rfl : c = .red := (color_on d c v x w).symm.trans hfar
      exact .far near v x w
  | black =>
    cases hnear : near.color with
    | red =>
      obtain rfl | ⟨c, v, x, w, rfl⟩ := eq_nil_or_on d near
      · exact absurd hnear nofun
      · obtain rfl : c = .red := (color_on d c v x w).symm.trans hnear
        exact .near v x w far hfar
    | black => exact .recolor near far hnear hfar

theorem blackRound_recolor (d : Side) (c c' : Color) (p : α) {near : ColorTree α} (b : α)
    {far : ColorTree α} (t : ColorTree α) (hnear : near.color = .black)
    (hfar : far.color = .black) :
    blackRound ⟨d, c, p, on d c' near b far⟩ t =
      .inl (on d c t p (on d .red near b far)) := by
  cases d <;> simp [blackRound, on, child, Side.other, hnear, hfar]

theorem blackRound_near (d : Side) (c c' : Color) (p : α) (v : ColorTree α) (x : α)
    (w : ColorTree α) (b : α) {far : ColorTree α} (t : ColorTree α) (hfar : far.color = .black) :
    blackRound ⟨d, c, p, on d c' (on d .red v x w) b far⟩ t =
      .inr (on d c (on d .black t p v) x (on d .black w b far)) := by
  cases d <;> simp [blackRound, on, child, Side.other, hfar]

theorem blackRound_far (d : Side) (c c' : Color) (p : α) (near : ColorTree α) (b : α)
    (v : ColorTree α) (x : α) (w : ColorTree α) (t : ColorTree α) :
    blackRound ⟨d, c, p, on d c' near b (on d .red v x w)⟩ t =
      .inr (on d c (on d .black t p near) b (on d .black v x w)) := by
  cases d <;> simp [blackRound, on, child, Side.other, paint]

theorem deleteLoop_red (f : Frame α) (path : Path α) {t : ColorTree α} (hc : t.color = .red) :
    deleteLoop (f :: path) t = plug (f :: path) (t.paint .black) := by
  rw [deleteLoop, if_pos hc]

theorem deleteLoop_black_sibling (d : Side) (c : Color) (p : α) (near : ColorTree α) (b : α)
    (far : ColorTree α) (path : Path α) {t : ColorTree α} (hc : t.color = .black) :
    deleteLoop (⟨d, c, p, on d .black near b far⟩ :: path) t =
      match blackRound ⟨d, c, p, on d .black near b far⟩ t with
      | .inl t' => deleteLoop path t'
      | .inr t' => (plug path t').paint .black := by
  cases d <;> simp [deleteLoop, hc, on]

theorem deleteLoop_red_sibling (d : Side) (c : Color) (p : α) (near : ColorTree α) (b : α)
    (far : ColorTree α) (path : Path α) {t : ColorTree α} (hc : t.color = .black) :
    deleteLoop (⟨d, c, p, on d .red near b far⟩ :: path) t =
      match blackRound ⟨d, .red, p, near⟩ t with
      | .inl t' => plug (⟨d, .black, b, far⟩ :: path) (t'.paint .black)
      | .inr t' => (plug (⟨d, .black, b, far⟩ :: path) t').paint .black := by
  cases d <;> simp [deleteLoop, hc, on, child, Side.other]

/-! ### The sequence -/

/-- A round keeps the sequence of the subtree of the parent. -/
theorem inorder_blackRound {f : Frame α} {t t' : ColorTree α}
    (h : blackRound f t = .inl t' ∨ blackRound f t = .inr t') :
    t'.inorder = (f.fill t).inorder := by
  obtain ⟨d, c, p, s⟩ := f
  obtain rfl | ⟨c', near, b, far, rfl⟩ := eq_nil_or_on d s
  · simp only [blackRound, Sum.inl.injEq, reduceCtorEq, or_false] at h
    rw [← h]
  · cases siblingCase d near far with
    | recolor _ _ hnear hfar =>
      rw [blackRound_recolor d c c' p b t hnear hfar] at h
      obtain rfl := Sum.inl.inj (h.resolve_right Sum.inl_ne_inr)
      exact inorder_on_congr rfl (inorder_on_congr rfl rfl)
    | near v x w _ hfar =>
      rw [blackRound_near d c c' p v x w b t hfar] at h
      obtain rfl := Sum.inr.inj (h.resolve_left Sum.inr_ne_inl)
      cases d <;> simp [Frame.fill, on]
    | far _ v x w =>
      rw [blackRound_far d c c' p near b v x w t] at h
      obtain rfl := Sum.inr.inj (h.resolve_left Sum.inr_ne_inl)
      cases d <;> simp [Frame.fill, on]

theorem inorder_deleteLoop (path : Path α) (t : ColorTree α) :
    (deleteLoop path t).inorder = (plug path t).inorder := by
  fun_induction deleteLoop path t with
  | case1 t => exact inorder_paint .black t
  | case2 f path t hc =>
    rw [plug, plug]
    exact inorder_plug_congr (inorder_on_congr (inorder_paint _ _) rfl)
  | case3 f path t hc l w r hs outer t' ht' =>
    -- the rotation in front of the round keeps the sequence as well
    have hround := inorder_blackRound (Or.inl ht')
    rw [plug, plug]
    refine inorder_plug_congr ?_
    have hsub := (inorder_paint .black t').trans hround
    rw [Frame.fill, @inorder_on_congr _ _ _ .black _ _ _ _ _ hsub rfl, Frame.fill, Frame.fill, hs]
    cases hd : f.side <;> simp [on, child, Side.other, outer, hd]
  | case4 f path t hc l w r hs outer t' ht' =>
    have hround := inorder_blackRound (Or.inr ht')
    rw [inorder_paint, plug, plug]
    refine inorder_plug_congr ?_
    rw [Frame.fill, @inorder_on_congr _ _ _ .black _ _ _ _ _ hround rfl, Frame.fill, Frame.fill, hs]
    cases hd : f.side <;> simp [on, child, Side.other, outer, hd]
  | case5 f path t hc t' ht' _ ih =>
    rw [ih, plug]
    exact inorder_plug_congr (inorder_blackRound (Or.inl ht'))
  | case6 f path t hc t' ht' _ =>
    rw [inorder_paint, plug]
    exact inorder_plug_congr (inorder_blackRound (Or.inr ht'))

theorem inorder_splice (path : Path α) (c : Color) (t : ColorTree α) :
    (splice path c t).inorder = before path ++ t.inorder ++ after path := by
  rw [← inorder_plug, splice]
  split
  · rfl
  · exact inorder_deleteLoop path t

/-- **The leftmost node**: nothing stands before its path. -/
theorem descendMin_spec (path : Path α) (c : Color) (l : ColorTree α) (a : α) (r : ColorTree α) :
    ∃ path' c' m r', descendMin path c l a r = (path' ++ path, c', m, r') ∧
      plug path' (.node c' .nil m r') = .node c l a r ∧ before path' = [] := by
  induction l generalizing path c a r with
  | nil => exact ⟨[], c, a, r, rfl, rfl, rfl⟩
  | node c₁ l₁ a₁ r₁ ihl _ =>
    obtain ⟨path', c', m, r', heq, hplug, hbefore⟩ := ihl (⟨.left, c, a, r⟩ :: path) c₁ a₁ r₁
    refine ⟨path' ++ [⟨.left, c, a, r⟩], c', m, r', ?_, ?_, ?_⟩
    · rw [descendMin, heq, List.append_assoc]
      rfl
    · rw [plug_append, hplug]
      rfl
    · rw [before_append, hbefore]
      rfl

/-- **What a deletion splices out**: the node itself, or the leftmost one on its
right, whose element then stands at the place of the node. -/
theorem deleteAt_cases (path : Path α) (c : Color) (l r : ColorTree α) :
    (l = .nil ∧ deleteAt path c l r = splice path c r) ∨
    (r = .nil ∧ deleteAt path c l r = splice path c l) ∨
    ∃ path' c' m r', r = plug path' (.node c' .nil m r') ∧ before path' = [] ∧
      deleteAt path c l r = splice (path' ++ ⟨.right, c, m, l⟩ :: path) c' r' := by
  cases l with
  | nil => exact Or.inl ⟨rfl, rfl⟩
  | node c₁ l₁ a₁ r₁ =>
    cases r with
    | nil => exact Or.inr (Or.inl ⟨rfl, rfl⟩)
    | node c₂ l₂ b r₂ =>
      obtain ⟨path', c', m, r', heq, hplug, hbefore⟩ := descendMin_spec [] c₂ l₂ b r₂
      rw [List.append_nil] at heq
      refine Or.inr (Or.inr ⟨path', c', m, r', hplug.symm, hbefore, ?_⟩)
      rw [deleteAt, heq]
      nofun

/-- **A deletion takes the element out of the sequence.** -/
theorem inorder_deleteAt (path : Path α) (c : Color) (l r : ColorTree α) :
    (deleteAt path c l r).inorder = before path ++ (l.inorder ++ r.inorder) ++ after path := by
  obtain ⟨rfl, heq⟩ | ⟨rfl, heq⟩ | ⟨path', c', m, r', rfl, hbefore, heq⟩ :=
    deleteAt_cases path c l r
  · rw [heq, inorder_splice]
    rfl
  · rw [heq, inorder_splice, inorder_nil, List.append_nil]
  · rw [heq, inorder_splice, before_append, after_append, inorder_plug, hbefore]
    simp [before, after]

theorem inorder_deleteAt_erase [DecidableEq α] {path : Path α} {c : Color} {l : ColorTree α} {a : α}
    {r : ColorTree α} (h : (plug path (.node c l a r)).inorder.Nodup) :
    (deleteAt path c l r).inorder = (plug path (.node c l a r)).inorder.erase a := by
  -- nothing in front of the element is equal to it
  have hsplit : (plug path (.node c l a r)).inorder =
      (before path ++ l.inorder) ++ a :: (r.inorder ++ after path) := by
    rw [inorder_plug, inorder_node]
    simp only [List.append_assoc, List.cons_append]
  rw [hsplit] at h ⊢
  have hnot : a ∉ before path ++ l.inorder := fun hmem =>
    (List.nodup_append.mp h).2.2 a hmem a List.mem_cons_self rfl
  rw [inorder_deleteAt, List.erase_append_right _ hnot, List.erase_cons_head]
  simp only [List.append_assoc]

/-! ### The rules -/

/-- A subtree that is one black node short of `n + 1`, or that becomes right when its
root is painted black. -/
def Short (t : ColorTree α) (n : Nat) : Prop :=
  t.color = .black ∧ t.Balanced n ∨ t.color = .red ∧ (t.paint .black).Balanced (n + 1)

theorem Balanced.short {t : ColorTree α} {n : Nat} (h : t.Balanced n) : Short t n := by
  cases hc : t.color with
  | black => exact Or.inl ⟨hc, h⟩
  | red =>
    obtain ⟨s, b, u, rfl, -, hs, hu⟩ := h.exists_on_red .left hc
    refine Or.inr ⟨hc, ?_⟩
    rw [paint_on]
    exact balanced_on_black.mpr ⟨hs, hu⟩

/-- **A round**, around a sibling of the right black height: it passes the shortage
on to the parent, or it repairs it. -/
theorem blackRound_spec {d : Side} {c : Color} {p : α} {near : ColorTree α} {b : α}
    {far : ColorTree α} {path : Path α} {t : ColorTree α} {n : Nat}
    (hp : PathBalanced (⟨d, c, p, on d .black near b far⟩ :: path) (n + 1))
    (ht : t.Balanced n) :
    (∃ t' n', blackRound ⟨d, c, p, on d .black near b far⟩ t = .inl t' ∧ t'.color = c ∧
      PathBalanced path (n' + 1) ∧ Short t' n') ∨
    ∃ t', blackRound ⟨d, c, p, on d .black near b far⟩ t = .inr t' ∧ (plug path t').IsRedBlack := by
  obtain ⟨hnear, hfar⟩ := balanced_on_black.mp hp.sibling
  -- what replaces the parent has its colour, over two black nodes
  have hrepair : ∀ s y u, s.Balanced (n + 1) → u.Balanced (n + 1) → s.color = .black →
      u.color = .black → (plug path (on d c s y u)).IsRedBlack := by
    intro s y u hs hu hsc huc
    cases c with
    | red =>
      obtain ⟨-, -, hpc, hp⟩ := hp
      exact isRedBlack_plug.mpr ⟨n + 1, hp, balanced_on_red.mpr ⟨⟨hsc, huc⟩, hs, hu⟩,
        fun h => absurd (hpc.symm.trans h) nofun⟩
    | black =>
      exact isRedBlack_plug.mpr ⟨n + 2, hp.2, balanced_on_black.mpr ⟨hs, hu⟩, by simp⟩
  cases siblingCase d near far with
  | recolor _ _ hnc hfc =>
    have hred : (on d .red near b far).Balanced n := balanced_on_red.mpr ⟨⟨hnc, hfc⟩, hnear, hfar⟩
    have hnode : (on d .black t p (on d .red near b far)).Balanced (n + 1) :=
      balanced_on_black.mpr ⟨ht, hred⟩
    refine Or.inl ⟨on d c t p (on d .red near b far), ?_⟩
    rw [blackRound_recolor d c .black p b t hnc hfc]
    cases c with
    | red =>
      obtain ⟨-, -, -, hp⟩ := hp
      exact ⟨n, rfl, color_on .., hp, Or.inr ⟨color_on .., by rwa [paint_on]⟩⟩
    | black => exact ⟨n + 1, rfl, color_on .., hp.2, Or.inl ⟨color_on .., hnode⟩⟩
  | near v x w _ hfc =>
    obtain ⟨-, hv, hw⟩ := balanced_on_red.mp hnear
    refine Or.inr ⟨_, blackRound_near d c .black p v x w b t hfc, ?_⟩
    exact hrepair _ _ _ (balanced_on_black.mpr ⟨ht, hv⟩) (balanced_on_black.mpr ⟨hw, hfar⟩)
      (color_on ..) (color_on ..)
  | far _ v x w =>
    obtain ⟨-, hv, hw⟩ := balanced_on_red.mp hfar
    refine Or.inr ⟨_, blackRound_far d c .black p near b v x w t, ?_⟩
    exact hrepair _ _ _ (balanced_on_black.mpr ⟨ht, hnear⟩) (balanced_on_black.mpr ⟨hv, hw⟩)
      (color_on ..) (color_on ..)

/-- **The rebalancing restores the rules.** -/
theorem isRedBlack_deleteLoop {path : Path α} {t : ColorTree α} {n : Nat}
    (hp : PathBalanced path (n + 1)) (ht : Short t n) : (deleteLoop path t).IsRedBlack := by
  -- on the path; a round either ends the walk or leaves the parent short
  induction path generalizing t n with
  | nil =>
    rw [deleteLoop]
    rcases ht with ⟨hc, ht⟩ | ⟨hc, ht⟩
    · rw [paint_color hc]
      exact ⟨hc, n, ht⟩
    · obtain rfl | ⟨c, s, a, u, rfl⟩ := eq_nil_or_on .left t
      · exact absurd hc nofun
      · exact ⟨by simp, n + 1, ht⟩
  | cons f path ih =>
    obtain ⟨d, c, p, s⟩ := f
    rcases ht with ⟨hc, ht⟩ | ⟨hc, ht⟩
    · cases hs : s.color with
      | black =>
        obtain ⟨near, b, far, rfl, -, -⟩ := hp.sibling.exists_on d hs
        rw [deleteLoop_black_sibling d c p near b far path hc]
        obtain ⟨t', n', heq, -, hp', ht'⟩ | ⟨t', heq, hplug⟩ := blackRound_spec hp ht
        · rw [heq]
          exact ih hp' ht'
        · rw [heq]
          dsimp only
          rw [paint_color hplug.1]
          exact hplug
      | red =>
        -- under the rotated sibling the parent is red, and its new sibling black
        obtain ⟨near, b, far, rfl, ⟨hnc, hfc⟩, hnear, hfar⟩ := hp.sibling.exists_on_red d hs
        cases c with
        | red => exact absurd (hs.symm.trans hp.2.1) nofun
        | black =>
          obtain ⟨v, x, w, rfl, -, -⟩ := hnear.exists_on d hnc
          have hp' : PathBalanced (⟨d, .red, p, on d .black v x w⟩ :: ⟨d, .black, b, far⟩ :: path)
              (n + 1) := ⟨hnear, color_on .., rfl, hfar, hp.2⟩
          rw [deleteLoop_red_sibling d .black p (on d .black v x w) b far path hc]
          obtain ⟨t', n', heq, htc', hp', ht'⟩ | ⟨t', heq, hplug⟩ := blackRound_spec hp' ht
          · rw [heq]
            have ht' : (t'.paint .black).Balanced (n' + 1) :=
              (ht'.resolve_left fun h => absurd (htc'.symm.trans h.1) nofun).2
            exact isRedBlack_plug.mpr ⟨n' + 1, hp', ht', nofun⟩
          · rw [heq]
            dsimp only
            rw [paint_color hplug.1]
            exact hplug
    · -- a red subtree is painted black, which makes it right
      rw [deleteLoop_red _ _ hc]
      obtain rfl | ⟨c', s', a, u, rfl⟩ := eq_nil_or_on .left t
      · exact absurd hc nofun
      · exact isRedBlack_plug.mpr ⟨n + 1, hp, ht, by simp⟩

theorem isRedBlack_splice {path : Path α} {d : Side} {c : Color} {a : α} {t : ColorTree α} {n : Nat}
    (hp : PathBalanced path n) (ht : (on d c .nil a t).Balanced n)
    (hc : parentColor path = .red → c = .black) : (splice path c t).IsRedBlack := by
  cases c with
  | red =>
    obtain ⟨⟨-, htc⟩, -, ht⟩ := balanced_on_red.mp ht
    exact isRedBlack_plug.mpr ⟨n, hp, ht, fun _ => htc⟩
  | black =>
    cases n with
    | zero => cases d <;> exact ht.elim
    | succ n =>
      obtain ⟨-, ht⟩ := balanced_on_black.mp ht
      exact isRedBlack_deleteLoop hp (Balanced.short ht)

/-- The rules do not look at the elements. -/
theorem pathBalanced_relabel {path' : Path α} {d : Side} {c : Color} {a : α} (a' : α)
    {s : ColorTree α} {path : Path α} {n : Nat}
    (h : PathBalanced (path' ++ ⟨d, c, a, s⟩ :: path) n) :
    PathBalanced (path' ++ ⟨d, c, a', s⟩ :: path) n ∧
      parentColor (path' ++ ⟨d, c, a', s⟩ :: path) =
        parentColor (path' ++ ⟨d, c, a, s⟩ :: path) := by
  induction path' generalizing n with
  | nil => cases c <;> exact ⟨h, rfl⟩
  | cons f path' ih =>
    obtain ⟨e, c', b, u⟩ := f
    cases c' with
    | red =>
      obtain ⟨hu, huc, hpc, hp⟩ := h
      obtain ⟨hp', hpc'⟩ := ih hp
      exact ⟨⟨hu, huc, hpc'.trans hpc, hp'⟩, rfl⟩
    | black => exact ⟨⟨h.1, (ih h.2).1⟩, rfl⟩

/-- **Deletion keeps a red-black tree red-black.** -/
theorem isRedBlack_deleteAt {path : Path α} {c : Color} {l : ColorTree α} {a : α} {r : ColorTree α}
    (h : (plug path (.node c l a r)).IsRedBlack) : (deleteAt path c l r).IsRedBlack := by
  obtain ⟨rfl, heq⟩ | ⟨rfl, heq⟩ | ⟨path', c', m, r', rfl, -, heq⟩ := deleteAt_cases path c l r
  · obtain ⟨n, hp, ht, hc⟩ := isRedBlack_plug.mp h
    rw [heq]
    exact isRedBlack_splice (d := .left) hp ht hc
  · obtain ⟨n, hp, ht, hc⟩ := isRedBlack_plug.mp h
    rw [heq]
    exact isRedBlack_splice (d := .right) hp ht hc
  · -- the location of the leftmost node in the same tree
    have hloc : plug path (.node c l a (plug path' (.node c' .nil m r'))) =
        plug (path' ++ ⟨.right, c, a, l⟩ :: path) (.node c' .nil m r') := by
      rw [plug_append]
      rfl
    rw [hloc] at h
    obtain ⟨n, hp, ht, hc⟩ := isRedBlack_plug.mp h
    obtain ⟨hp', hpc'⟩ := pathBalanced_relabel m hp
    rw [heq]
    exact isRedBlack_splice (d := .left) hp' ht fun h => hc (hpc'.symm.trans h)

end RedBlack
