import Mathlib.Data.List.TakeWhile
import Mathlib.Order.Defs.LinearOrder

/-!
# Query strings

A query string is a list of components between separators, and a component is a
name and a value around its first assignment sign. A parameter is looked up by
its name: the value is that of the first component that has the name, up to a
folding of the letters. A component without an assignment sign has no value and
is passed over.

A program that searches such a string sees positions and not components.
`lookup_eq_some_iff` and `lookup_eq_none_iff` say what the parameter is in terms
of positions: the first one where a component begins and the name and the sign
stand, and the bytes from there to the next separator.
-/

namespace QueryString

/-- The signs of a query string, and the folding of names. The signs are folded
to by nothing else. -/
structure Dialect (α : Type*) where
  sep : α
  assign : α
  fold : α → α
  fold_sep : ∀ {c}, fold c = fold sep → c = sep
  fold_assign : ∀ {c}, fold c = fold assign → c = assign
  sep_ne : sep ≠ assign

namespace Dialect

variable {α : Type*} (D : Dialect α)

/-- The value of a component, if it has this name. -/
def valueOf [DecidableEq α] (name c : List α) : Option (List α) :=
  if D.assign ∈ c ∧ (c.takeWhile (· ≠ D.assign)).map D.fold = name.map D.fold then
    some (c.dropWhile (· ≠ D.assign)).tail
  else none

/-- The value of the first component that has this name. -/
def lookup [DecidableEq α] (name q : List α) : Option (List α) :=
  (q.splitOn D.sep).findSome? (D.valueOf name)

/-- A name holds neither sign. -/
structure Name (name : List α) : Prop where
  sep_notMem : D.sep ∉ name
  assign_notMem : D.assign ∉ name

/-- The name and the assignment sign head a list, up to the folding. -/
def Heads (name l : List α) : Prop := (name ++ [D.assign]).map D.fold <+: l.map D.fold

/-- A component with this name begins at `p`. -/
structure NamedAt (name q : List α) (p : Nat) : Prop where
  boundary : ∀ k, p = k + 1 → q[k]? = some D.sep
  heads : D.Heads name (q.drop p)

/-- The first component with this name begins at `p`. -/
structure FirstNamedAt (name q : List α) (p : Nat) : Prop extends D.NamedAt name q p where
  first : ∀ j < p, ¬ D.NamedAt name q j

variable {D} {name : List α}

/-! ### One component -/

/-- Behind a sign. -/
theorem drop_behind (a b : List α) (c : α) (k : Nat) :
    (a ++ c :: b).drop (a.length + 1 + k) = b.drop k := by
  rw [← List.drop_drop, ← List.drop_drop, List.drop_left, List.drop_succ_cons, List.drop_zero]

/-- The name and the sign, as they stand in a list. -/
theorem heads_iff {l : List α} :
    D.Heads name l ↔ ∃ a b, l = a ++ D.assign :: b ∧ a.map D.fold = name.map D.fold := by
  unfold Heads
  constructor
  · rintro ⟨t, ht⟩
    rw [List.map_append, List.map_singleton, List.append_assoc, List.singleton_append] at ht
    obtain ⟨a, l', rfl, ha, hl'⟩ := List.map_eq_append_iff.mp ht.symm
    obtain ⟨c, b, rfl, hc, -⟩ := List.map_eq_cons_iff.mp hl'
    exact ⟨a, b, by rw [D.fold_assign hc], ha⟩
  · rintro ⟨a, b, rfl, ha⟩
    refine ⟨b.map D.fold, ?_⟩
    rw [List.map_append, List.map_append, List.map_singleton, List.map_cons, ha,
      List.append_assoc, List.singleton_append]

/-- The name and the sign by their positions. -/
theorem heads_iff_getElem? {l : List α} :
    D.Heads name l ↔ name.map D.fold <+: l.map D.fold ∧ l[name.length]? = some D.assign := by
  rw [heads_iff]
  constructor
  · rintro ⟨a, b, rfl, ha⟩
    have hlen : a.length = name.length := by simpa using congrArg List.length ha
    refine ⟨?_, ?_⟩
    · rw [List.map_append, ha]
      exact List.prefix_append _ _
    · rw [← hlen, List.getElem?_append_right (Nat.le_refl _), Nat.sub_self, List.getElem?_cons_zero]
  · rintro ⟨hpre, hsign⟩
    obtain ⟨hlt, hat⟩ := List.getElem?_eq_some_iff.mp hsign
    refine ⟨l.take name.length, l.drop (name.length + 1), ?_, ?_⟩
    · rw [← hat, List.getElem_cons_drop, List.take_append_drop]
    · rw [List.map_take, show name.length = (name.map D.fold).length from (List.length_map _).symm]
      exact (List.prefix_iff_eq_take.mp hpre).symm

/-- What is folded like a name does not hold the assignment sign either. -/
theorem Name.assign_notMem_of_fold (hname : D.Name name) {a : List α}
    (ha : a.map D.fold = name.map D.fold) : D.assign ∉ a := by
  intro hmem
  have hfold : D.fold D.assign ∈ name.map D.fold := ha ▸ List.mem_map_of_mem hmem
  obtain ⟨c, hc, hcf⟩ := List.mem_map.mp hfold
  exact hname.assign_notMem (D.fold_assign hcf ▸ hc)

theorem Name.sep_notMem_of_fold (hname : D.Name name) {a : List α}
    (ha : a.map D.fold = name.map D.fold) : D.sep ∉ a := by
  intro hmem
  have hfold : D.fold D.sep ∈ name.map D.fold := ha ▸ List.mem_map_of_mem hmem
  obtain ⟨c, hc, hcf⟩ := List.mem_map.mp hfold
  exact hname.sep_notMem (D.fold_sep hcf ▸ hc)

/-- **The value of a component**: its name and the sign head it, and the value
is the rest. -/
theorem valueOf_eq_some_iff [DecidableEq α] (hname : D.Name name) {c v : List α} :
    D.valueOf name c = some v ↔ D.Heads name c ∧ v = c.drop (name.length + 1) := by
  have hsplit : D.Heads name c ↔
      D.assign ∈ c ∧ (c.takeWhile (· ≠ D.assign)).map D.fold = name.map D.fold := by
    rw [heads_iff]
    constructor
    · rintro ⟨a, b, rfl, ha⟩
      have hno := hname.assign_notMem_of_fold ha
      refine ⟨by simp, ?_⟩
      rw [List.takeWhile_append_of_pos fun x hx => decide_eq_true (ne_of_mem_of_not_mem hx hno),
        List.takeWhile_cons_of_neg (by simp), List.append_nil, ha]
    · rintro ⟨hmem, htw⟩
      obtain ⟨a, b, rfl, hno⟩ := List.eq_append_cons_of_mem hmem
      rw [List.takeWhile_append_of_pos fun x hx => decide_eq_true (ne_of_mem_of_not_mem hx hno),
        List.takeWhile_cons_of_neg (by simp), List.append_nil] at htw
      exact ⟨a, b, rfl, htw⟩
  unfold valueOf
  by_cases h : D.Heads name c
  · rw [if_pos (hsplit.mp h), Option.some.injEq]
    obtain ⟨a, b, rfl, ha⟩ := heads_iff.mp h
    have hno := hname.assign_notMem_of_fold ha
    have hlen : a.length = name.length := by simpa using congrArg List.length ha
    -- the part before the sign is the name, so both sides are the part behind it
    have hdrop : (a ++ D.assign :: b).drop (name.length + 1) = b := by
      rw [← hlen]
      exact drop_behind a b D.assign 0
    rw [List.dropWhile_append_of_pos fun x hx => decide_eq_true (ne_of_mem_of_not_mem hx hno),
      List.dropWhile_cons_of_neg (by simp), List.tail_cons, hdrop]
    exact ⟨fun hb => ⟨h, hb.symm⟩, fun hv => hv.2.symm⟩
  · rw [if_neg fun hc => h (hsplit.mpr hc)]
    exact ⟨fun hn => absurd hn (by simp), fun hv => absurd hv.1 h⟩

theorem valueOf_eq_none_iff [DecidableEq α] (hname : D.Name name) {c : List α} :
    D.valueOf name c = none ↔ ¬ D.Heads name c := by
  constructor
  · intro hnone h
    rw [(valueOf_eq_some_iff hname).mpr ⟨h, rfl⟩] at hnone
    exact absurd hnone (by simp)
  · intro h
    cases hv : D.valueOf name c with
    | none => rfl
    | some v => exact absurd ((valueOf_eq_some_iff hname).mp hv).1 h

/-! ### The components one after the other -/

theorem lookup_of_notMem [DecidableEq α] {q : List α} (h : D.sep ∉ q) :
    D.lookup name q = D.valueOf name q := by
  unfold lookup
  rw [List.splitOn_eq_singleton h, List.findSome?_singleton]

theorem lookup_append [DecidableEq α] {a b : List α} (h : D.sep ∉ a) :
    D.lookup name (a ++ D.sep :: b) = (D.valueOf name a).or (D.lookup name b) := by
  unfold lookup
  rw [List.splitOn_append_cons_self_of_not_mem h, List.findSome?_cons]
  cases D.valueOf name a <;> rfl

/-- A name that heads a list does not reach beyond the first separator. -/
theorem heads_append (hname : D.Name name) {a b : List α} :
    D.Heads name (a ++ D.sep :: b) ↔ D.Heads name a := by
  constructor
  · intro h
    obtain ⟨x, y, hxy, hx⟩ := heads_iff.mp h
    -- the sign stands in front of the separator, as the name does not hold the latter
    rcases List.append_eq_append_iff.mp hxy with ⟨t, rfl, ht⟩ | ⟨t, rfl, ht⟩
    · cases t with
      | nil => exact absurd (List.cons.inj ht).1 D.sep_ne
      | cons d t =>
        have hd : D.sep ∈ a ++ d :: t := by
          rw [(List.cons.inj ht).1]
          simp
        exact absurd hd (hname.sep_notMem_of_fold hx)
    · cases t with
      | nil => exact absurd (List.cons.inj ht).1.symm D.sep_ne
      | cons d t =>
        rw [← (List.cons.inj ht).1]
        exact heads_iff.mpr ⟨x, t, rfl, hx⟩
  · intro h
    have hmap : (a ++ D.sep :: b).map D.fold = a.map D.fold ++ (D.sep :: b).map D.fold :=
      List.map_append
    unfold Heads at h ⊢
    rw [hmap]
    exact h.trans (List.prefix_append _ _)

/-- In a single component the only place for the name is its beginning. -/
theorem namedAt_of_notMem {q : List α} (h : D.sep ∉ q) {p : Nat} :
    D.NamedAt name q p ↔ p = 0 ∧ D.Heads name q := by
  constructor
  · rintro ⟨hp, hheads⟩
    cases p with
    | zero => exact ⟨rfl, hheads⟩
    | succ k => exact absurd (List.mem_of_getElem? (hp k rfl)) h
  · rintro ⟨rfl, hheads⟩
    exact ⟨fun k hk => absurd hk (by omega), hheads⟩

/-- Behind the first component the places are those of the rest. -/
theorem namedAt_append (hname : D.Name name) {a b : List α} (h : D.sep ∉ a) {p : Nat} :
    D.NamedAt name (a ++ D.sep :: b) p ↔
      p = 0 ∧ D.Heads name a ∨ ∃ p', p = a.length + 1 + p' ∧ D.NamedAt name b p' := by
  have hget : ∀ k, (a ++ D.sep :: b)[a.length + 1 + k]? = b[k]? := by
    intro k
    rw [List.getElem?_append_right (by omega), show a.length + 1 + k - a.length = k + 1 by omega,
      List.getElem?_cons_succ]
  constructor
  · rintro ⟨hp, hheads⟩
    cases p with
    | zero => exact .inl ⟨rfl, (heads_append hname).mp hheads⟩
    | succ k =>
      -- the separator in front is not one of the first component
      have hk : a.length ≤ k := by
        by_contra hlt
        have hk := hp k rfl
        rw [List.getElem?_append_left (by omega)] at hk
        exact h (List.mem_of_getElem? hk)
      obtain ⟨p', rfl⟩ := Nat.exists_eq_add_of_le hk
      rw [show a.length + p' + 1 = a.length + 1 + p' by omega, drop_behind] at hheads
      refine .inr ⟨p', by omega, ?_, hheads⟩
      intro k' hk'
      rw [← hget]
      exact hp _ (by omega)
  · rintro (⟨rfl, hheads⟩ | ⟨p', rfl, hb, hheads⟩)
    · exact ⟨fun k hk => absurd hk (by omega), (heads_append hname).mpr hheads⟩
    · refine ⟨?_, by rwa [drop_behind]⟩
      intro k hk
      cases p' with
      | zero =>
        obtain rfl : k = a.length := by omega
        rw [List.getElem?_append_right le_rfl, Nat.sub_self, List.getElem?_cons_zero]
      | succ k' =>
        obtain rfl : k = a.length + 1 + k' := by omega
        rw [hget]
        exact hb k' rfl

/-! ### The parameter by its position -/

/-- Only one component is the first. -/
theorem FirstNamedAt.unique {q : List α} {i j : Nat} (hi : D.FirstNamedAt name q i)
    (hj : D.FirstNamedAt name q j) : i = j := by
  rcases lt_trichotomy i j with h | h | h
  · exact absurd hi.toNamedAt (hj.first i h)
  · exact h
  · exact absurd hj.toNamedAt (hi.first j h)

section Lookup

variable [DecidableEq α]

/-- The value of the first component ends at its separator. -/
theorem takeWhile_drop_append {a b : List α} (h : D.sep ∉ a) (hheads : D.Heads name a) :
    ((a ++ D.sep :: b).drop (name.length + 1)).takeWhile (· ≠ D.sep) =
      a.drop (name.length + 1) := by
  have hlen : name.length + 1 ≤ a.length := by simpa using hheads.length_le
  have hrest : D.sep ∉ a.drop (name.length + 1) := fun hmem => h (List.mem_of_mem_drop hmem)
  rw [List.drop_append_of_le_length hlen,
    List.takeWhile_append_of_pos fun x hx => decide_eq_true (ne_of_mem_of_not_mem hx hrest),
    List.takeWhile_cons_of_neg (by simp), List.append_nil]

/-- What a lookup finds, in terms of positions. -/
private theorem lookup_spec (hname : D.Name name) (q : List α) :
    (∃ p, D.FirstNamedAt name q p ∧ D.lookup name q =
      some ((q.drop (p + name.length + 1)).takeWhile (· ≠ D.sep))) ∨
      (∀ p, ¬ D.NamedAt name q p) ∧ D.lookup name q = none := by
  -- along the components
  induction hn : q.length using Nat.strongRecOn generalizing q with
  | ind n ih =>
    by_cases hsep : D.sep ∈ q
    · obtain ⟨a, b, rfl, ha⟩ := List.eq_append_cons_of_mem hsep
      rw [lookup_append ha]
      by_cases hheads : D.Heads name a
      · -- the first component is the one
        refine .inl ⟨0, ⟨(namedAt_append hname ha).mpr (.inl ⟨rfl, hheads⟩), ?_⟩, ?_⟩
        · intro j hj
          exact absurd hj (Nat.not_lt_zero j)
        · rw [(valueOf_eq_some_iff hname).mpr ⟨hheads, rfl⟩, Option.some_or, Nat.zero_add,
            takeWhile_drop_append ha hheads]
      · rw [(valueOf_eq_none_iff hname).mpr hheads, Option.none_or]
        rcases ih b.length (by rw [← hn]; simp; omega) b rfl with ⟨p, hp, hv⟩ | ⟨hno, hv⟩
        · refine .inl ⟨a.length + 1 + p, ⟨(namedAt_append hname ha).mpr
            (.inr ⟨p, rfl, hp.toNamedAt⟩), ?_⟩, ?_⟩
          · intro j hj hnamed
            rcases (namedAt_append hname ha).mp hnamed with ⟨-, h⟩ | ⟨p', rfl, h⟩
            · exact hheads h
            · exact hp.first p' (by omega) h
          · rw [hv, show a.length + 1 + p + name.length + 1 =
              a.length + 1 + (p + name.length + 1) by omega, drop_behind]
        · refine .inr ⟨?_, hv⟩
          intro p hnamed
          rcases (namedAt_append hname ha).mp hnamed with ⟨-, h⟩ | ⟨p', -, h⟩
          · exact hheads h
          · exact hno p' h
    · rw [lookup_of_notMem hsep]
      by_cases hheads : D.Heads name q
      · refine .inl ⟨0, ⟨(namedAt_of_notMem hsep).mpr ⟨rfl, hheads⟩, ?_⟩, ?_⟩
        · intro j hj
          exact absurd hj (Nat.not_lt_zero j)
        · have hrest : D.sep ∉ q.drop (name.length + 1) := fun h => hsep (List.mem_of_mem_drop h)
          rw [(valueOf_eq_some_iff hname).mpr ⟨hheads, rfl⟩, Nat.zero_add,
            List.takeWhile_eq_self_iff.mpr fun x hx =>
              decide_eq_true (ne_of_mem_of_not_mem hx hrest)]
      · refine .inr ⟨?_, (valueOf_eq_none_iff hname).mpr hheads⟩
        intro p hnamed
        exact hheads ((namedAt_of_notMem hsep).mp hnamed).2

/-- **The parameter by its position**: the value begins behind the first place
where a component has the name. -/
theorem lookup_eq_some_iff (hname : D.Name name) {q v : List α} :
    D.lookup name q = some v ↔ ∃ p, D.FirstNamedAt name q p ∧
      v = (q.drop (p + name.length + 1)).takeWhile (· ≠ D.sep) := by
  rcases lookup_spec hname q with ⟨p, hp, hv⟩ | ⟨hno, hv⟩
  · rw [hv, Option.some.injEq]
    constructor
    · rintro rfl
      exact ⟨p, hp, rfl⟩
    · rintro ⟨p', hp', rfl⟩
      rw [hp.unique hp']
  · rw [hv]
    refine iff_of_false (by simp) ?_
    rintro ⟨p, hp, -⟩
    exact hno p hp.toNamedAt

/-- There is no such parameter exactly when no component has the name. -/
theorem lookup_eq_none_iff (hname : D.Name name) {q : List α} :
    D.lookup name q = none ↔ ∀ p, ¬ D.NamedAt name q p := by
  rcases lookup_spec hname q with ⟨p, hp, hv⟩ | ⟨hno, hv⟩
  · rw [hv]
    exact iff_of_false (by simp) fun hno => hno p hp.toNamedAt
  · exact iff_of_true hv hno

end Lookup

end Dialect

end QueryString
