import Mathlib

/-!
# C strings in memory

Byte sequences read the way C reads them. A value of `List UInt8` is the
memory from some address on; every byte past the end of the list is NUL, so
that a list is at once a stored string and its terminator.

* `compareBy` — `strncmp` after a byte transformation: `strncmp` itself is
  `compareBy id`, the case-insensitive comparisons are `compareBy` of a case
  folding.
* `CiMatch` — a pattern stands at the head of memory up to the letter case.
* `cut` — the bytes before the first NUL.

The comparison lemmas all say which list prefixes a zero result amounts to.
The callers compare a stored string, which carries no NUL, with raw memory,
which may; the two sides are therefore never interchangeable.
-/

namespace CString

/-! ### Bounded comparison -/

/-- The C library's `strncmp`, after mapping both bytes by `f`: the difference
at the first of the `n` positions where the mapped bytes differ, and `0` when
there is none or both sides end in NUL before it. -/
def compareBy (f : UInt8 → UInt8) : List UInt8 → List UInt8 → Nat → Int
  | _, _, 0 => 0
  -- past the end of the list every byte is NUL
  | [], b, _ + 1 => (f 0).toNat - (f (b.headD 0)).toNat
  | x :: a, b, n + 1 =>
    if f x = f (b.headD 0) then
      -- both sides end here
      if f x = 0 then 0 else compareBy f a b.tail n
    else (f x).toNat - (f (b.headD 0)).toNat

/-- The C library's `strncmp`. -/
def strncmp : List UInt8 → List UInt8 → Nat → Int := compareBy id

/-- ASCII lower case, as the `ngx_tolower` macro and its inlined copies do it. -/
def tolower (c : UInt8) : UInt8 := if 0x41 ≤ c ∧ c ≤ 0x5a then c ||| 0x20 else c

theorem tolower_eq_zero {c : UInt8} : tolower c = 0 ↔ c = 0 := by
  unfold tolower
  grind

/-- A letter-free byte is folded to only by itself. -/
theorem tolower_eq_amp {c : UInt8} : tolower c = 0x26 ↔ c = 0x26 := by
  revert c
  decide +kernel

theorem tolower_eq_equals {c : UInt8} : tolower c = 0x3d ↔ c = 0x3d := by
  revert c
  decide +kernel

theorem sub_toNat_eq_zero {x y : UInt8} : (x.toNat : Int) - y.toNat = 0 ↔ x = y := by
  rw [sub_eq_zero, Nat.cast_inj, UInt8.toNat_inj]

@[simp] theorem compareBy_zero (f : UInt8 → UInt8) (a b : List UInt8) :
    compareBy f a b 0 = 0 := by
  cases a <;> rfl

/-- Only the first `n` bytes are compared. -/
theorem compareBy_take (f : UInt8 → UInt8) (a b : List UInt8) (n : Nat) :
    compareBy f a (b.take n) n = compareBy f a b n := by
  induction n generalizing a b with
  | zero => rw [compareBy_zero, compareBy_zero]
  | succ n ih =>
    have hhead : (b.take (n + 1)).headD 0 = b.headD 0 := by cases b <;> rfl
    have htail : (b.take (n + 1)).tail = b.tail.take n := by cases b <;> simp
    cases a with
    | nil => rw [compareBy, compareBy, hhead]
    | cons x a => rw [compareBy, compareBy, hhead, htail, ih]

/-- **Comparing memory with a literal.** With `n` no larger than the NUL-free
right-hand side, a zero result means that the mapped heads agree; memory that
ends early cannot agree, since the literal has no NUL there. -/
theorem compareBy_literal {f : UInt8 → UInt8} (hf : ∀ c, f c = 0 ↔ c = 0) :
    ∀ {a b : List UInt8} {n : Nat}, 0 ∉ b → n ≤ b.length →
      (compareBy f a b n = 0 ↔ (b.take n).map f <+: a.map f) := by
  -- induction on the memory; the literal is what is compared against, so it
  -- varies with it
  intro a
  induction a with
  | nil =>
    intro b n hb hn
    cases n with
    | zero => simp
    | succ n =>
      obtain ⟨y, b, rfl⟩ := List.exists_cons_of_length_pos (by omega : 0 < b.length)
      have hy : y ≠ 0 := fun h => hb (by simp [h])
      have hfy : f y ≠ 0 := fun h => hy ((hf y).mp h)
      have h0 : f 0 = 0 := (hf 0).mpr rfl
      -- memory has ended: its NUL differs from the literal's byte
      rw [compareBy, List.headD_cons, sub_toNat_eq_zero, h0]
      simp [Ne.symm hfy]
  | cons x a ih =>
    intro b n hb hn
    cases n with
    | zero => simp
    | succ n =>
      obtain ⟨y, b, rfl⟩ := List.exists_cons_of_length_pos (by omega : 0 < b.length)
      have hy : y ≠ 0 := fun h => hb (by simp [h])
      have hfy : f y ≠ 0 := fun h => hy ((hf y).mp h)
      have hb' : 0 ∉ b := fun h => hb (List.mem_cons_of_mem _ h)
      rw [List.take_succ_cons, List.map_cons, List.map_cons, List.cons_prefix_cons, compareBy,
        List.headD_cons, List.tail_cons]
      -- one byte of each side; the rest is the induction hypothesis
      by_cases hxy : f x = f y
      · rw [if_pos hxy, if_neg (hxy ▸ hfy), ih hb' (by simpa using hn)]
        simp [hxy]
      · rw [if_neg hxy, sub_toNat_eq_zero]
        simp [hxy, Ne.symm hxy]

/-- **Comparing a stored string with memory.** A stored NUL-free string `a`
agrees with memory `b` over `n` bytes when the first `n` bytes of `a` head
`b`, or when all of `a` heads `b` and `b` has its NUL where `a` has its own. -/
theorem strncmp_eq_zero_iff :
    ∀ {a b : List UInt8} {n : Nat}, 0 ∉ a →
      (strncmp a b n = 0 ↔
        (n ≤ a.length ∧ a.take n <+: b) ∨ (a.length < n ∧ a <+: b ∧ b.getD a.length 0 = 0)) := by
  -- induction on the stored string, whose end is the only NUL it has
  intro a
  induction a with
  | nil =>
    intro b n _
    cases n with
    | zero => simp [strncmp]
    | succ n =>
      -- the stored string has ended, so memory must end here too
      rw [strncmp, compareBy, sub_toNat_eq_zero]
      cases b <;> simp [eq_comm]
  | cons x a ih =>
    intro b n ha
    have hx : x ≠ 0 := fun h => ha (by simp [h])
    have ha' : 0 ∉ a := fun h => ha (List.mem_cons_of_mem _ h)
    cases n with
    | zero => simp [strncmp]
    | succ n =>
      cases b with
      | nil =>
        rw [strncmp, compareBy, List.headD_nil, id, id, if_neg hx, sub_toNat_eq_zero]
        simp [hx]
      | cons y b =>
        rw [strncmp, compareBy, List.headD_cons, List.tail_cons, id, id]
        by_cases hxy : x = y
        · subst hxy
          rw [if_pos rfl, if_neg hx, ← strncmp, ih ha']
          simp [List.cons_prefix_cons]
        · rw [if_neg hxy, sub_toNat_eq_zero]
          simp [hxy, List.cons_prefix_cons]

/-- Comparing over the stored string's own length asks for it at the head. -/
theorem strncmp_length {a b : List UInt8} (ha : 0 ∉ a) :
    strncmp a b a.length = 0 ↔ a <+: b := by
  simp [strncmp_eq_zero_iff ha]

/-- Comparing over a NUL-free stretch `s` of memory asks for `s` at the head
of the stored string. -/
theorem strncmp_stretch {a b s : List UInt8} (ha : 0 ∉ a) (hs : 0 ∉ s) (hsb : s <+: b) :
    strncmp a b s.length = 0 ↔ s <+: a := by
  obtain ⟨t, rfl⟩ := hsb
  rw [strncmp_eq_zero_iff ha]
  constructor
  · rintro (⟨hle, hpre⟩ | ⟨hlt, hpre, hnul⟩)
    · -- both head `b` over the same length, so they are the same bytes
      have h := List.prefix_of_prefix_length_le hpre (List.prefix_append s t) (by simp)
      have heq : a.take s.length = s := h.eq_of_length (by simp [hle])
      exact heq ▸ List.take_prefix _ _
    · -- the NUL at the end of `a` would lie inside `s`
      rw [List.getD_append _ _ _ _ hlt, List.getD_eq_getElem _ _ hlt] at hnul
      exact absurd (hnul ▸ List.getElem_mem hlt) hs
  · rintro ⟨u, rfl⟩
    exact Or.inl ⟨by simp, by simp⟩

/-! ### The bytes before the first NUL -/

/-- The string C reads at the head of `l`: everything before the first NUL. -/
def cut (l : List UInt8) : List UInt8 := l.takeWhile (· ≠ 0)

theorem zero_notMem_cut (l : List UInt8) : 0 ∉ cut l := by
  intro h
  simpa using List.mem_takeWhile_imp h

theorem cut_eq_self {l : List UInt8} (h : 0 ∉ l) : cut l = l := by
  unfold cut
  rw [List.takeWhile_eq_self_iff]
  intro c hc
  exact decide_eq_true fun h0 => h (h0 ▸ hc)

/-- `a` is the string at the head of `l` when it heads `l` and is followed
there by a NUL or by the end of `l`. -/
theorem cut_eq_iff {a l : List UInt8} (ha : 0 ∉ a) :
    cut l = a ↔ a <+: l ∧ l.getD a.length 0 = 0 := by
  induction a generalizing l with
  | nil => cases l <;> simp [cut, List.takeWhile_cons]
  | cons x a ih =>
    have hx : x ≠ 0 := fun h => ha (by simp [h])
    have ha' : 0 ∉ a := fun h => ha (List.mem_cons_of_mem _ h)
    cases l with
    | nil => simp [cut]
    | cons y l =>
      -- `cut` at one byte of memory
      have hcut : cut (y :: l) = if y = 0 then [] else y :: cut l := by
        by_cases hy : y = 0 <;> simp [cut, hy]
      rw [hcut, List.cons_prefix_cons]
      by_cases hy : y = 0
      · simp [hy, hx]
      · rw [if_neg hy, List.cons.injEq, ih ha', and_assoc, eq_comm (a := y)]
        simp

theorem cut_append_of_mem {a b : List UInt8} (h : 0 ∈ a) : cut (a ++ b) = cut a := by
  unfold cut
  rw [List.takeWhile_append, if_neg]
  -- otherwise `cut a` would be all of `a`, and hold the NUL
  intro hlen
  have hself : cut a = a := (List.takeWhile_prefix _).eq_of_length hlen
  rw [← hself] at h
  exact zero_notMem_cut a h

theorem cut_append_of_notMem {a b : List UInt8} (h : 0 ∉ a) : cut (a ++ b) = a ++ cut b := by
  unfold cut
  rw [List.takeWhile_append_of_pos]
  intro c hc
  exact decide_eq_true fun h0 => h (h0 ▸ hc)

theorem cut_isPrefix (l : List UInt8) : cut l <+: l := List.takeWhile_prefix _

/-- A NUL-free string at the head of memory that holds a NUL lies before it. -/
theorem prefix_cut {a l : List UInt8} (ha : 0 ∉ a) (h : a <+: l) : a <+: cut l := by
  obtain ⟨t, rfl⟩ := h
  rw [cut_append_of_notMem ha]
  exact List.prefix_append _ _

/-- Comparing a stored string with memory over a stretch `s`: up to its first
NUL, `s` heads the stored string. -/
theorem cut_prefix_of_strncmp {a b s : List UInt8} (ha : 0 ∉ a) (hsb : s <+: b)
    (h : strncmp a b s.length = 0) : cut s <+: a := by
  rcases (strncmp_eq_zero_iff ha).mp h with ⟨hle, hpre⟩ | ⟨hlt, hpre, hnul⟩
  · -- the stored string is at least as long as the stretch
    have heq : a.take s.length = s :=
      (List.prefix_of_prefix_length_le hpre hsb (by simp)).eq_of_length (by simp [hle])
    exact (cut_isPrefix s).trans (heq ▸ List.take_prefix _ _)
  · -- the stored string ends inside the stretch, and so does `cut s`
    have hpre' := List.prefix_of_prefix_length_le hpre hsb hlt.le
    have hnul' : s.getD a.length 0 = 0 := by
      obtain ⟨t, rfl⟩ := hsb
      rwa [List.getD_append _ _ _ _ hlt] at hnul
    rw [(cut_eq_iff ha).mpr ⟨hpre', hnul'⟩]

/-- A stored string that agrees with memory over its own length and over a
stretch `s` is the string that C reads at the head of `s`, unless it goes on
with the bytes behind `s`. -/
theorem strncmp_both {a s t : List UInt8} (ha : 0 ∉ a) (ht : t.headD 0 ∉ a) :
    (strncmp a (s ++ t) a.length = 0 ∧ strncmp a (s ++ t) s.length = 0) ↔ a = cut s := by
  constructor
  · rintro ⟨hself, hs⟩
    have hpre := (strncmp_length ha).mp hself
    have hcut := cut_prefix_of_strncmp ha (List.prefix_append s t) hs
    by_cases h0 : 0 ∈ s
    · -- with a NUL in `s` both comparisons see the same string
      have := prefix_cut ha hpre
      rw [cut_append_of_mem h0] at this
      exact this.eq_of_length_le hcut.length_le
    · -- `s` is all of it: the byte behind it is not one of `a`
      rw [cut_eq_self h0] at hcut ⊢
      obtain ⟨u, rfl⟩ := hcut
      -- `a = s ++ u`, and a first byte of `u` would be the byte behind `s`
      cases u with
      | nil => simp
      | cons c u =>
        have hcu := (List.prefix_append_right_inj s).mp hpre
        cases t with
        | nil => simp at hcu
        | cons d t =>
          obtain rfl := (List.cons_prefix_cons.mp hcu).1
          exact absurd (by simp) ht
  · rintro rfl
    refine ⟨(strncmp_length ha).mpr ((cut_isPrefix s).trans (List.prefix_append s t)), ?_⟩
    rw [strncmp_eq_zero_iff ha]
    by_cases h0 : 0 ∈ s
    · -- `cut s` ends at a NUL of `s`
      have hlt : (cut s).length < s.length := by
        refine lt_of_le_of_ne (cut_isPrefix s).length_le fun hlen => ?_
        exact zero_notMem_cut s (((cut_isPrefix s).eq_of_length hlen).symm ▸ h0)
      refine Or.inr ⟨hlt, (cut_isPrefix s).trans (List.prefix_append s t), ?_⟩
      rw [List.getD_append _ _ _ _ hlt]
      exact ((cut_eq_iff ha).mp rfl).2
    · rw [cut_eq_self h0]
      exact Or.inl ⟨le_rfl, by simp⟩

/-! ### Matching up to letter case -/

/-- The pattern `p` stands at the head of `l`, up to the letter case. -/
def CiMatch (p l : List UInt8) : Prop := p.map tolower <+: l.map tolower

instance (p l : List UInt8) : Decidable (CiMatch p l) :=
  inferInstanceAs (Decidable (_ <+: _))

theorem CiMatch.length_le {p l : List UInt8} (h : CiMatch p l) : p.length ≤ l.length := by
  simpa using List.IsPrefix.length_le h

theorem ciMatch_cons {c d : UInt8} {p l : List UInt8} :
    CiMatch (c :: p) (d :: l) ↔ tolower c = tolower d ∧ CiMatch p l := by
  unfold CiMatch
  rw [List.map_cons, List.map_cons, List.cons_prefix_cons]

theorem not_ciMatch_nil {c : UInt8} {p : List UInt8} : ¬ CiMatch (c :: p) [] := by
  simp [CiMatch]

theorem ciMatch_append (p l : List UInt8) : CiMatch p (p ++ l) := by
  unfold CiMatch
  rw [List.map_append]
  exact List.prefix_append _ _

/-- A pattern matches across no byte that is not in it, up to the letter case. -/
theorem CiMatch.of_append_cons {p a b : List UInt8} {c : UInt8}
    (hc : tolower c ∉ p.map tolower) (h : CiMatch p (a ++ c :: b)) : CiMatch p a := by
  unfold CiMatch at h ⊢
  rw [List.map_append, List.map_cons, ← List.singleton_append, ← List.append_assoc] at h
  rcases le_or_gt p.length a.length with hle | hlt
  · -- the match is over before `c`
    refine List.prefix_of_prefix_length_le h ?_ (by simpa using hle)
    rw [List.append_assoc]
    exact List.prefix_append _ _
  · -- the match reaches `c`, which would then be in the pattern
    have hpre := List.prefix_of_prefix_length_le (List.prefix_append _ (b.map tolower)) h
      (by simp; omega)
    exact absurd (hpre.mem (by simp)) hc

/-- Bytes behind a literal do not change its match. -/
theorem ciMatch_append_iff {p a b : List UInt8} (h : p.length ≤ a.length) :
    CiMatch p (a ++ b) ↔ CiMatch p a := by
  unfold CiMatch
  rw [List.map_append]
  refine ⟨fun hm => ?_, fun hm => hm.trans (List.prefix_append _ _)⟩
  exact List.prefix_of_prefix_length_le hm (List.prefix_append _ _) (by simpa using h)

/-! ### Literals -/

/-- The bytes of an ASCII literal. -/
def ascii (s : String) : List UInt8 := s.toByteArray.data.toList

end CString
