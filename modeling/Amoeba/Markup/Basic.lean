import Mathlib.Data.List.Basic

/-!
# Removing tags in one pass

A tag is a left bracket, a content without brackets, and a right bracket. Tags cannot
overlap, so one pass from left to right removes each tag of the text and keeps
everything else (`Removes`).

Two brackets that are kept can close around a content that did not stand in one piece
before. `Reassembles` says for which texts this happens: a left bracket, text and at
least one tag, and a right bracket, where the text alone is the content of a tag.

* `hasTag_iff` — the result of the pass has a tag exactly when the text reassembles one.
* `removes_self_iff` — a pass changes nothing exactly when there is no tag.
-/

namespace Markup

/-- Two brackets, and what can stand between them in a tag. -/
structure Brackets (α : Type*) where
  left : α
  right : α
  ne : left ≠ right
  content : List α → Prop

namespace Brackets

variable {α : Type*} (B : Brackets α)

/-- A text without brackets. -/
structure Plain (w : List α) : Prop where
  left_notMem : B.left ∉ w
  right_notMem : B.right ∉ w

/-- A tag. -/
def Tag (τ : List α) : Prop := ∃ w, τ = B.left :: w ++ [B.right] ∧ B.Plain w ∧ B.content w

/-- The text begins with a tag. -/
def Heads (s : List α) : Prop := ∃ τ r, s = τ ++ r ∧ B.Tag τ

/-- There is a tag in the text. -/
def HasTag (s : List α) : Prop := ∃ a τ b, s = a ++ τ ++ b ∧ B.Tag τ

/-- **One pass from left to right**: a tag is left out as a whole, and a character
where no tag begins is kept. -/
inductive Removes : List α → List α → Prop
  | nil : Removes [] []
  | tag {τ s t : List α} : B.Tag τ → Removes s t → Removes (τ ++ s) t
  | keep {c : α} {s t : List α} : ¬ B.Heads (c :: s) → Removes s t → Removes (c :: s) (c :: t)

/-- The first text is the second one, which has no brackets, with tags put into it. -/
inductive Interspersed : List α → List α → Prop
  | nil : Interspersed [] []
  | char {c : α} {x w : List α} : c ≠ B.left → c ≠ B.right → Interspersed x w →
      Interspersed (c :: x) (c :: w)
  | tag {τ x w : List α} : B.Tag τ → Interspersed x w → Interspersed (τ ++ x) w

/-- Somewhere two brackets stand around the content of a tag and at least one tag that
is put into it. -/
def Reassembles (s : List α) : Prop :=
  ∃ a x b w, s = a ++ B.left :: (x ++ B.right :: b) ∧ B.Interspersed x w ∧ B.content w ∧ x ≠ w

variable {B}

/-! ### Brackets and tags -/

theorem plain_nil : B.Plain [] := ⟨List.not_mem_nil, List.not_mem_nil⟩

theorem plain_cons {c : α} {w : List α} :
    B.Plain (c :: w) ↔ c ≠ B.left ∧ c ≠ B.right ∧ B.Plain w := by
  constructor
  · rintro ⟨hleft, hright⟩
    rw [List.mem_cons, not_or] at hleft hright
    exact ⟨Ne.symm hleft.1, Ne.symm hright.1, hleft.2, hright.2⟩
  · rintro ⟨hleft, hright, hw⟩
    constructor
    · rw [List.mem_cons, not_or]
      exact ⟨hleft.symm, hw.left_notMem⟩
    · rw [List.mem_cons, not_or]
      exact ⟨hright.symm, hw.right_notMem⟩

/-- The first bracket of a text. -/
theorem Plain.append_inj {u w r r' : List α} {c d : α} (hu : B.Plain u) (hw : B.Plain w)
    (hc : c = B.left ∨ c = B.right) (hd : d = B.left ∨ d = B.right)
    (h : u ++ c :: r = w ++ d :: r') : u = w ∧ c = d ∧ r = r' := by
  -- neither bracket stands in the other plain text
  have hcw : c ∉ w := by
    obtain rfl | rfl := hc
    · exact hw.left_notMem
    · exact hw.right_notMem
  have hdu : d ∉ u := by
    obtain rfl | rfl := hd
    · exact hu.left_notMem
    · exact hu.right_notMem
  obtain ⟨t, rfl, ht⟩ | ⟨t, rfl, ht⟩ := List.append_eq_append_iff.mp h
  · cases t with
    | nil =>
      obtain ⟨rfl, rfl⟩ := List.cons.inj ht
      exact ⟨(List.append_nil u).symm, rfl, rfl⟩
    | cons e t =>
      obtain ⟨rfl, -⟩ := List.cons.inj ht
      exact absurd (by simp) hcw
  · cases t with
    | nil =>
      obtain ⟨rfl, rfl⟩ := List.cons.inj ht
      exact ⟨List.append_nil w, rfl, rfl⟩
    | cons e t =>
      obtain ⟨rfl, -⟩ := List.cons.inj ht
      exact absurd (by simp) hdu

/-- Only a left bracket begins a tag, and the rest of the tag has none. -/
theorem Tag.eq_cons {τ : List α} (h : B.Tag τ) : ∃ τ', τ = B.left :: τ' ∧ B.left ∉ τ' := by
  obtain ⟨w, rfl, hw, -⟩ := h
  refine ⟨w ++ [B.right], rfl, ?_⟩
  rw [List.mem_append, List.mem_singleton]
  exact not_or.mpr ⟨hw.left_notMem, B.ne⟩

/-- The tag at the beginning of a text. -/
theorem Tag.append_inj {τ τ' r r' : List α} (h : B.Tag τ) (h' : B.Tag τ')
    (heq : τ ++ r = τ' ++ r') : τ = τ' ∧ r = r' := by
  obtain ⟨w, rfl, hw, -⟩ := h
  obtain ⟨w', rfl, hw', -⟩ := h'
  rw [List.cons_append, List.cons_append, List.cons_append, List.cons_append,
    List.append_assoc, List.append_assoc] at heq
  obtain ⟨rfl, -, rfl⟩ := hw.append_inj hw' (.inr rfl) (.inr rfl) (List.cons.inj heq).2
  exact ⟨rfl, rfl⟩

theorem not_heads_cons {c : α} {s : List α} (hc : c ≠ B.left) : ¬ B.Heads (c :: s) := by
  rintro ⟨τ, r, heq, hτ⟩
  obtain ⟨τ', rfl, -⟩ := hτ.eq_cons
  exact hc (List.cons.inj heq).1

/-! ### One pass -/

/-- At a tag the pass goes on behind it. -/
theorem Removes.of_tag {τ s t : List α} (hτ : B.Tag τ) (h : B.Removes (τ ++ s) t) :
    B.Removes s t := by
  generalize hs₀ : τ ++ s = s₀ at h
  cases h with
  | nil =>
    obtain ⟨τ', rfl, -⟩ := hτ.eq_cons
    exact absurd hs₀ (by simp)
  | tag hτ' h =>
    obtain ⟨-, rfl⟩ := hτ.append_inj hτ' hs₀
    exact h
  | keep hno h => exact absurd ⟨τ, s, hs₀.symm, hτ⟩ hno

/-- Where no tag begins the character is kept. -/
theorem Removes.of_not_heads {c : α} {s t : List α} (hno : ¬ B.Heads (c :: s))
    (h : B.Removes (c :: s) t) : ∃ t', t = c :: t' ∧ B.Removes s t' := by
  generalize hs₀ : c :: s = s₀ at h
  cases h with
  | nil => exact absurd hs₀ (by simp)
  | tag hτ h => exact absurd ⟨_, _, hs₀, hτ⟩ hno
  | keep hno' h =>
    obtain ⟨rfl, rfl⟩ := List.cons.inj hs₀
    exact ⟨_, rfl, h⟩

theorem Removes.eq_nil {t : List α} (h : B.Removes [] t) : t = [] := by
  generalize hs₀ : ([] : List α) = s₀ at h
  cases h with
  | nil => rfl
  | tag hτ h =>
    obtain ⟨τ', rfl, -⟩ := hτ.eq_cons
    exact absurd hs₀ (by simp)
  | keep hno h => exact absurd hs₀ (by simp)

/-- The pass has one result. -/
theorem Removes.unique {s t t' : List α} (h : B.Removes s t) (h' : B.Removes s t') : t = t' := by
  induction h generalizing t' with
  | nil => exact h'.eq_nil.symm
  | tag hτ _ ih => exact ih (h'.of_tag hτ)
  | keep hno _ ih =>
    obtain ⟨u, rfl, hu⟩ := h'.of_not_heads hno
    rw [ih hu]

theorem Removes.length_le {s t : List α} (h : B.Removes s t) : t.length ≤ s.length := by
  induction h with
  | nil => exact Nat.le_refl _
  | tag _ _ ih =>
    rw [List.length_append]
    omega
  | keep _ _ ih =>
    rw [List.length_cons, List.length_cons]
    omega

/-- A character of the result is one of the text where no tag begins, and what was
removed in front of it are tags. -/
theorem Removes.split {s t₁ t₂ : List α} {c : α} (h : B.Removes s (t₁ ++ c :: t₂)) :
    ∃ s₁ s₂, s = s₁ ++ c :: s₂ ∧ B.Removes s₂ t₂ ∧ ¬ B.Heads (c :: s₂) ∧
      (B.Plain t₁ → B.Interspersed s₁ t₁) := by
  generalize ht₀ : t₁ ++ c :: t₂ = t₀ at h
  induction h generalizing t₁ with
  | nil => exact absurd ht₀ (by simp)
  | tag hτ _ ih =>
    obtain ⟨s₁, s₂, rfl, hrest, hno, hbefore⟩ := ih ht₀
    exact ⟨_ ++ s₁, s₂, (List.append_assoc _ _ _).symm, hrest, hno,
      fun hplain => .tag hτ (hbefore hplain)⟩
  | keep hno h ih =>
    cases t₁ with
    | nil =>
      obtain ⟨rfl, rfl⟩ := List.cons.inj ht₀
      exact ⟨[], _, rfl, h, hno, fun _ => .nil⟩
    | cons d t₁ =>
      obtain ⟨rfl, ht⟩ := List.cons.inj ht₀
      obtain ⟨s₁, s₂, rfl, hrest, hno', hbefore⟩ := ih ht
      refine ⟨d :: s₁, s₂, rfl, hrest, hno', ?_⟩
      intro hplain
      obtain ⟨hleft, hright, hw⟩ := plain_cons.mp hplain
      exact .char hleft hright (hbefore hw)

/-- A tag cannot begin in front of a left bracket and end behind it, so the pass
comes to each left bracket that it does not begin with. -/
theorem Removes.append_left {a y t : List α} (h : B.Removes (a ++ B.left :: y) t) :
    ∃ t₁ t₂, t = t₁ ++ t₂ ∧ B.Removes (B.left :: y) t₂ ∧ t₁.length ≤ a.length := by
  generalize hs₀ : a ++ B.left :: y = s₀ at h
  induction h generalizing a with
  | nil => exact absurd hs₀ (by simp)
  | @tag τ s t hτ h ih =>
    cases a with
    | nil =>
      refine ⟨[], t, rfl, ?_, Nat.le_refl _⟩
      rw [show B.left :: y = τ ++ s from hs₀]
      exact .tag hτ h
    | cons e a =>
      obtain ⟨τ', rfl, hno⟩ := hτ.eq_cons
      -- the bracket is behind the tag, which has no other left bracket
      obtain ⟨d, rfl, hs⟩ : ∃ d, a = τ' ++ d ∧ d ++ B.left :: y = s := by
        obtain ⟨d, rfl, hd⟩ | ⟨d, rfl, hd⟩ := List.append_eq_append_iff.mp (List.cons.inj hs₀).2
        · cases d with
          | nil => exact ⟨[], by rw [List.append_nil, List.append_nil], hd⟩
          | cons f d =>
            obtain ⟨rfl, -⟩ := List.cons.inj hd
            exact absurd (by simp) hno
        · exact ⟨d, rfl, hd.symm⟩
      obtain ⟨t₁, t₂, rfl, hrest, hlen⟩ := ih hs
      refine ⟨t₁, t₂, rfl, hrest, ?_⟩
      rw [List.length_cons, List.length_append]
      omega
  | @keep c s t hno h ih =>
    cases a with
    | nil =>
      refine ⟨[], c :: t, rfl, ?_, Nat.le_refl _⟩
      rw [show B.left :: y = c :: s from hs₀]
      exact .keep hno h
    | cons e a =>
      obtain ⟨rfl, hs⟩ := List.cons.inj hs₀
      obtain ⟨t₁, t₂, rfl, hrest, hlen⟩ := ih hs
      exact ⟨e :: t₁, t₂, rfl, hrest, Nat.succ_le_succ hlen⟩

/-! ### Tags put into a text -/

theorem Interspersed.plain {x w : List α} (h : B.Interspersed x w) : B.Plain w := by
  induction h with
  | nil => exact plain_nil
  | char hleft hright _ ih => exact plain_cons.mpr ⟨hleft, hright, ih⟩
  | tag _ _ ih => exact ih

/-- The pass takes the tags out again. -/
theorem Interspersed.of_removes {x w z t : List α} (hx : B.Interspersed x w)
    (h : B.Removes (x ++ B.right :: z) t) :
    ∃ t', t = w ++ B.right :: t' ∧ B.Removes z t' := by
  induction hx generalizing t with
  | nil => exact h.of_not_heads (not_heads_cons B.ne.symm)
  | char hleft _ _ ih =>
    obtain ⟨t₁, rfl, h₁⟩ := h.of_not_heads (not_heads_cons hleft)
    obtain ⟨t', rfl, h'⟩ := ih h₁
    exact ⟨t', rfl, h'⟩
  | tag hτ _ ih =>
    rw [List.append_assoc] at h
    exact ih (h.of_tag hτ)

/-- If there is a tag, a left bracket is the first of the brackets. -/
theorem Interspersed.exists_left {x w : List α} (hx : B.Interspersed x w) (hne : x ≠ w) :
    ∃ u r, x = u ++ B.left :: r ∧ B.Plain u := by
  induction hx with
  | nil => exact absurd rfl hne
  | @char c x w hleft hright _ ih =>
    obtain ⟨u, r, rfl, hu⟩ := ih fun h => hne (congrArg (c :: ·) h)
    exact ⟨c :: u, r, rfl, plain_cons.mpr ⟨hleft, hright, hu⟩⟩
  | tag hτ _ _ =>
    obtain ⟨τ', rfl, -⟩ := hτ.eq_cons
    exact ⟨[], _, rfl, plain_nil⟩

/-- Two brackets around a tag are not themselves those of a tag. -/
theorem Interspersed.not_heads {x w z : List α} (hx : B.Interspersed x w) (hne : x ≠ w) :
    ¬ B.Heads (B.left :: (x ++ B.right :: z)) := by
  rintro ⟨τ, r, heq, w', rfl, hw', -⟩
  obtain ⟨u, r', rfl, hu⟩ := hx.exists_left hne
  -- the first bracket would be a left one and a right one
  have htail : u ++ B.left :: (r' ++ B.right :: z) = w' ++ B.right :: r := by
    simpa using heq
  exact B.ne (hu.append_inj hw' (.inl rfl) (.inr rfl) htail).2.1

/-! ### What the pass leaves -/

/-- **When the result has a tag.** -/
theorem hasTag_iff {s t : List α} (h : B.Removes s t) : B.HasTag t ↔ B.Reassembles s := by
  constructor
  · rintro ⟨a, τ, b, rfl, w, rfl, hw, hcontent⟩
    have h' : B.Removes s (a ++ B.left :: (w ++ B.right :: b)) := by simpa using h
    obtain ⟨a', s', rfl, hs', hno, -⟩ := h'.split
    obtain ⟨x, b', rfl, -, -, hbetween⟩ := hs'.split
    refine ⟨a', x, b', w, rfl, hbetween hw, hcontent, ?_⟩
    -- without a tag in between the brackets would not have been kept
    rintro rfl
    exact hno ⟨B.left :: x ++ [B.right], b', by simp, x, rfl, hw, hcontent⟩
  · rintro ⟨a, x, b, w, rfl, hx, hcontent, hne⟩
    obtain ⟨t₁, t₂, rfl, hrest, -⟩ := h.append_left
    obtain ⟨t₃, rfl, hbehind⟩ := hrest.of_not_heads (hx.not_heads hne)
    obtain ⟨t', rfl, -⟩ := hx.of_removes hbehind
    exact ⟨t₁, B.left :: w ++ [B.right], t', by simp, w, rfl, hx.plain, hcontent⟩

/-- **When the pass changes nothing.** -/
theorem removes_self_iff {s : List α} : B.Removes s s ↔ ¬ B.HasTag s := by
  constructor
  · rintro h ⟨a, τ, b, rfl, hτ⟩
    -- what stands in front of the tag and what stands behind it does not grow
    obtain ⟨τ', rfl, -⟩ := hτ.eq_cons
    rw [List.append_assoc, List.cons_append] at h
    obtain ⟨t₁, t₂, heq, hrest, hlen⟩ := h.append_left
    have hlen₂ := (hrest.of_tag hτ).length_le
    have hlength := congrArg List.length heq
    rw [List.length_append, List.length_append, List.length_cons, List.length_append] at hlength
    omega
  · intro hno
    induction s with
    | nil => exact .nil
    | cons c s ih =>
      refine .keep ?_ (ih ?_)
      · rintro ⟨τ, r, heq, hτ⟩
        exact hno ⟨[], τ, r, heq, hτ⟩
      · rintro ⟨a, τ, b, rfl, hτ⟩
        exact hno ⟨c :: a, τ, b, rfl, hτ⟩

/-- A piece of a text without tags has none. -/
theorem HasTag.of_infix {s t : List α} (h : B.HasTag s) (hs : s <:+: t) : B.HasTag t := by
  obtain ⟨a, τ, b, rfl, hτ⟩ := h
  obtain ⟨c, d, rfl⟩ := hs
  exact ⟨c ++ a, τ, b ++ d, by simp, hτ⟩

end Brackets

end Markup
