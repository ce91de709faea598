import Amoeba.CString.Basic

/-!
# The string functions of nginx

The functions of `ngx_string.c`, `ngx_string.h` and `ngx_hash.c` that the
access-control module calls. Memory is a list of bytes and a pointer is an
index into it. A NUL-terminated scan takes the memory from its start on
(`mem.drop p`), a scan that stops at a `last` pointer takes the whole memory
and both pointers.
-/

namespace Nginx

open CString

/-- `size_t` and `ngx_uint_t` have `64` bits. -/
def wordSize : Nat := 2 ^ 64

/-- Pointer subtraction stored in a `size_t`: a negative difference wraps. -/
def sizeSub (a b : Nat) : Nat := (((a : Int) - b) % wordSize).toNat

theorem sizeSub_of_le {a b : Nat} (h : b ≤ a) (ha : a < wordSize) : sizeSub a b = a - b := by
  unfold sizeSub
  have : ((a : Int) - b) % wordSize = (a : Int) - b :=
    Int.emod_eq_of_lt (by omega) (by omega)
  omega

theorem sizeSub_of_lt {a b : Nat} (h : a < b) (hb : b ≤ wordSize) :
    sizeSub a b = wordSize - (b - a) := by
  unfold sizeSub
  -- a negative difference is congruent to one in range
  have h1 : ((a : Int) - b) % wordSize = ((a : Int) - b + wordSize) % wordSize := by
    rw [Int.add_emod_right]
  have h2 : ((a : Int) - b + wordSize) % wordSize = (a : Int) - b + wordSize :=
    Int.emod_eq_of_lt (by omega) (by omega)
  omega

/-! ### Searching -/

/-- `ngx_strlchr`: the first `c` in `[p, last)`. -/
def ngxStrlchr (mem : List UInt8) (p last : Nat) (c : UInt8) : Option Nat :=
  (((mem.drop p).take (last - p)).findIdx? (· == c)).map (p + ·)

/-- `ngx_strncasecmp`: `strncmp` up to the letter case. -/
def ngxStrncasecmp : List UInt8 → List UInt8 → Nat → Int := compareBy tolower

/-- `ngx_strcasestrn`: the first case-insensitive match of the literal `s2` in
the NUL-terminated string `s1`, as an offset into `s1`. The argument `n` is the
length of `s2` less one. -/
def ngxStrcasestrn (s1 s2 : List UInt8) (n : Nat) : Option Nat :=
  match s1 with
  | [] => none
  | c :: s1 =>
    -- the scan reads up to the terminating NUL and not beyond
    if c = 0 then none
    else if tolower c = tolower (s2.headD 0) ∧ ngxStrncasecmp s1 s2.tail n = 0 then some 0
    else (ngxStrcasestrn s1 s2 n).map (· + 1)

/-- The test `ngxStrcasestrn` makes at one position is a match of the literal. -/
theorem ciMatch_iff_test {p s : List UInt8} {c d : UInt8} (hp : 0 ∉ d :: p) :
    (tolower c = tolower ((d :: p).headD 0) ∧ ngxStrncasecmp s (d :: p).tail p.length = 0) ↔
      CiMatch (d :: p) (c :: s) := by
  have hp' : 0 ∉ p := fun h => hp (List.mem_cons_of_mem _ h)
  rw [List.headD_cons, List.tail_cons, ngxStrncasecmp,
    compareBy_literal (fun _ => tolower_eq_zero) hp' le_rfl, List.take_length, ciMatch_cons,
    eq_comm, CiMatch]

/-- **What `ngx_strcasestrn` finds.** Offset `k` is returned exactly when the
literal stands there, stands nowhere before, and no NUL comes before. -/
theorem ngxStrcasestrn_eq_some {d : UInt8} {p : List UInt8} (hp : 0 ∉ d :: p) :
    ∀ {s : List UInt8} {k : Nat}, ngxStrcasestrn s (d :: p) p.length = some k ↔
      CiMatch (d :: p) (s.drop k) ∧ (∀ j < k, ¬ CiMatch (d :: p) (s.drop j)) ∧ 0 ∉ s.take k := by
  have hd : tolower d ≠ 0 := fun h => hp (by simp [tolower_eq_zero.mp h])
  -- induction along the scan; the offset is shifted by one in each round
  intro s
  induction s with
  | nil =>
    intro k
    simp [ngxStrcasestrn, not_ciMatch_nil]
  | cons c s ih =>
    intro k
    have htest := ciMatch_iff_test (s := s) (c := c) hp
    rw [ngxStrcasestrn]
    by_cases hc : c = 0
    · -- the scan stops at a NUL, where the literal cannot stand either
      subst hc
      rw [if_pos rfl]
      cases k with
      | zero =>
        rw [List.drop_zero, ciMatch_cons]
        simp [hd, show tolower 0 = 0 from rfl]
      | succ k => simp
    · rw [if_neg hc]
      by_cases hm : CiMatch (d :: p) (c :: s)
      · -- found at this position: the offset is `0`, and no later one is the first
        rw [if_pos (htest.mpr hm)]
        cases k with
        | zero => simp [hm]
        | succ k =>
          simp only [Option.some.injEq, List.drop_succ_cons]
          refine ⟨fun h => absurd h (by omega), fun h => absurd hm ?_⟩
          simpa using h.2.1 0 (by omega)
      · -- not here, so the rest of the scan decides
        rw [if_neg fun h => hm (htest.mp h)]
        cases k with
        | zero => simp [hm]
        | succ k =>
          rw [Option.map_eq_some_iff]
          constructor
          · rintro ⟨k', hk', hkk⟩
            obtain rfl : k' = k := by omega
            obtain ⟨h1, h2, h3⟩ := ih.mp hk'
            refine ⟨by simpa using h1, fun j hj => ?_, by simp [Ne.symm hc, h3]⟩
            cases j with
            | zero => simpa using hm
            | succ j => simpa using h2 j (by omega)
          · rintro ⟨h1, h2, h3⟩
            refine ⟨k, ih.mpr ⟨by simpa using h1, fun j hj => ?_, ?_⟩, rfl⟩
            · simpa using h2 (j + 1) (by omega)
            · intro h0
              exact h3 (by simp [h0])

/-- `ngx_strcasestrn` finds nothing exactly when every occurrence of the
literal lies beyond a NUL. -/
theorem ngxStrcasestrn_eq_none {d : UInt8} {p s : List UInt8} (hp : 0 ∉ d :: p) :
    ngxStrcasestrn s (d :: p) p.length = none ↔
      ∀ k, CiMatch (d :: p) (s.drop k) → 0 ∈ s.take k := by
  constructor
  · intro hnone k hk
    by_contra h0
    -- the least match at or before `k` would have been returned
    classical
    have hex : ∃ j, CiMatch (d :: p) (s.drop j) := ⟨k, hk⟩
    have hle : Nat.find hex ≤ k := Nat.find_min' hex hk
    have hfound : ngxStrcasestrn s (d :: p) p.length = some (Nat.find hex) := by
      refine (ngxStrcasestrn_eq_some hp).mpr
        ⟨Nat.find_spec hex, fun j hj => Nat.find_min hex hj, fun hmem => h0 ?_⟩
      exact (List.take_prefix_take_left hle).mem hmem
    rw [hnone] at hfound
    exact absurd hfound (by simp)
  · intro hall
    cases hs : ngxStrcasestrn s (d :: p) p.length with
    | none => rfl
    | some k =>
      obtain ⟨h1, -, h3⟩ := (ngxStrcasestrn_eq_some hp).mp hs
      exact absurd (hall k h1) h3

/-- A search that starts behind some bytes where the literal does not begin. -/
theorem ngxStrcasestrn_append_left {d : UInt8} {p pre s : List UInt8} (hp : 0 ∉ d :: p)
    (h0 : 0 ∉ pre) (hno : ∀ j < pre.length, ¬ CiMatch (d :: p) ((pre ++ s).drop j)) :
    ngxStrcasestrn (pre ++ s) (d :: p) p.length =
      (ngxStrcasestrn s (d :: p) p.length).map (pre.length + ·) := by
  induction pre with
  | nil => simp
  | cons c pre ih =>
    have hfirst := hno 0 (by simp)
    rw [List.drop_zero, List.cons_append] at hfirst
    have hrest := ih (fun h => h0 (List.mem_cons_of_mem _ h)) fun j hj => by
      simpa using hno (j + 1) (by simpa using hj)
    rw [List.cons_append, ngxStrcasestrn, if_neg fun hc => h0 (by simp [hc]),
      if_neg fun h => hfirst ((ciMatch_iff_test hp).mp h), hrest, Option.map_map]
    congr 1
    funext k
    simp
    omega

/-- A search that finds nothing reaching behind the bytes. -/
theorem ngxStrcasestrn_append_right {d : UInt8} {p a b : List UInt8} (hp : 0 ∉ d :: p)
    (h : ∀ k, ngxStrcasestrn (a ++ b) (d :: p) p.length = some k → k + (d :: p).length ≤ a.length) :
    ngxStrcasestrn (a ++ b) (d :: p) p.length = ngxStrcasestrn a (d :: p) p.length := by
  have hmatch : ∀ k, k + (d :: p).length ≤ a.length →
      (CiMatch (d :: p) ((a ++ b).drop k) ↔ CiMatch (d :: p) (a.drop k)) := by
    intro k hk
    rw [List.drop_append_of_le_length (by omega)]
    exact ciMatch_append_iff (by rw [List.length_drop]; omega)
  cases ha : ngxStrcasestrn a (d :: p) p.length with
  | some k =>
    obtain ⟨hm, hno, h0⟩ := (ngxStrcasestrn_eq_some hp).mp ha
    have hle := hm.length_le
    rw [List.length_drop] at hle
    have hk : k + (d :: p).length ≤ a.length := by
      simp only [List.length_cons] at hle ⊢
      omega
    refine (ngxStrcasestrn_eq_some hp).mpr ⟨(hmatch k hk).mpr hm, fun j hj hmj => ?_, ?_⟩
    · exact hno j hj ((hmatch j (by omega)).mp hmj)
    · rwa [List.take_append_of_le_length (by omega)]
  | none =>
    cases hab : ngxStrcasestrn (a ++ b) (d :: p) p.length with
    | none => rfl
    | some k =>
      have hk := h k hab
      obtain ⟨hm, hno, h0⟩ := (ngxStrcasestrn_eq_some hp).mp hab
      rw [List.take_append_of_le_length (by omega)] at h0
      exact absurd ((ngxStrcasestrn_eq_none hp).mp ha k ((hmatch k hk).mp hm)) h0

/-- `ngx_strlchr` returns the first position of `c` in `[p, last)`. -/
theorem ngxStrlchr_eq_some {mem : List UInt8} {p last : Nat} {c : UInt8} {q : Nat}
    (h : ngxStrlchr mem p last c = some q) :
    p ≤ q ∧ q < last ∧ q < mem.length ∧ mem.getD q 0 = c ∧
      ∀ i, p ≤ i → i < q → mem.getD i 0 ≠ c := by
  unfold ngxStrlchr at h
  obtain ⟨k, hk, rfl⟩ := Option.map_eq_some_iff.mp h
  obtain ⟨hlt, hat, hbefore⟩ := List.findIdx?_eq_some_iff_getElem.mp hk
  have hlen := hlt
  rw [List.length_take, List.length_drop] at hlen
  -- positions in the searched stretch are positions in memory, less `p`
  have hget : mem.getD (p + k) 0 = c := by
    rw [List.getElem_take, List.getElem_drop] at hat
    rw [List.getD_eq_getElem _ _ (by omega)]
    simpa using hat
  refine ⟨by omega, by omega, by omega, hget, fun i hpi hiq hi => ?_⟩
  obtain ⟨j, rfl⟩ := Nat.exists_eq_add_of_le hpi
  have hj := hbefore j (by omega)
  rw [List.getElem_take, List.getElem_drop] at hj
  rw [List.getD_eq_getElem _ _ (by omega)] at hi
  simp [hi] at hj

/-- `ngx_strlchr` fails only when `c` is not in `[p, last)`. -/
theorem ngxStrlchr_eq_none {mem : List UInt8} {p last : Nat} {c : UInt8} :
    ngxStrlchr mem p last c = none ↔ c ∉ (mem.drop p).take (last - p) := by
  unfold ngxStrlchr
  rw [Option.map_eq_none_iff, List.findIdx?_eq_none_iff]
  constructor
  · intro h hc
    simpa using h c hc
  · intro h x hx
    exact beq_eq_false_iff_ne.mpr fun hxc => h (hxc ▸ hx)

/-- `ngx_strlchr` with the end of the range for a failure: the bytes before the
searched one. -/
theorem ngxStrlchr_getD {mem : List UInt8} {p last : Nat} {c : UInt8} (hp : p ≤ last)
    (hlast : last ≤ mem.length) :
    (ngxStrlchr mem p last c).getD last =
      p + (((mem.drop p).take (last - p)).takeWhile (· ≠ c)).length := by
  -- the index of the byte, or the length, counts the bytes before it
  have hfind : ∀ l : List UInt8,
      (l.findIdx? (· == c)).getD l.length = (l.takeWhile (· ≠ c)).length := by
    intro l
    induction l with
    | nil => rfl
    | cons x l ih =>
      rw [List.findIdx?_cons, List.takeWhile_cons]
      by_cases hx : x = c
      · simp [hx]
      · cases hl : l.findIdx? (· == c) with
        | none => simpa [hx, hl] using ih
        | some k => simpa [hx, hl] using ih
  have hlen : ((mem.drop p).take (last - p)).length = last - p := by
    rw [List.length_take, List.length_drop]
    omega
  have hrange := hfind ((mem.drop p).take (last - p))
  unfold ngxStrlchr
  cases hs : ((mem.drop p).take (last - p)).findIdx? (· == c) with
  | none =>
    rw [hs] at hrange
    simp only [Option.map_none, Option.getD_none] at hrange ⊢
    omega
  | some k =>
    rw [hs] at hrange
    simpa using hrange

/-! ### Ordering and hashing -/

/-- The C library's `memcmp`. -/
def memcmp : List UInt8 → List UInt8 → Nat → Int
  | _, _, 0 => 0
  | a, b, n + 1 =>
    if a.headD 0 = b.headD 0 then memcmp a.tail b.tail n
    else (a.headD 0).toNat - (b.headD 0).toNat

/-- `ngx_memn2cmp`: `memcmp` over the shorter length, then the lengths. -/
def ngxMemn2cmp (s1 s2 : List UInt8) (n1 n2 : Nat) : Int :=
  let m := memcmp s1 s2 (min n1 n2)
  -- equal as far as both reach: the shorter one is the smaller one
  if m ≠ 0 ∨ n1 = n2 then m else if n1 ≤ n2 then -1 else 1

theorem memcmp_eq_zero {a b : List UInt8} {n : Nat} (ha : n ≤ a.length) (hb : n ≤ b.length) :
    memcmp a b n = 0 ↔ a.take n = b.take n := by
  induction n generalizing a b with
  | zero => simp [memcmp]
  | succ n ih =>
    obtain ⟨x, a, rfl⟩ := List.exists_cons_of_length_pos (by omega : 0 < a.length)
    obtain ⟨y, b, rfl⟩ := List.exists_cons_of_length_pos (by omega : 0 < b.length)
    rw [memcmp, List.headD_cons, List.headD_cons, List.tail_cons, List.tail_cons,
      List.take_succ_cons, List.take_succ_cons, List.cons.injEq]
    by_cases hxy : x = y
    · rw [if_pos hxy, ih (by simpa using ha) (by simpa using hb)]
      simp [hxy]
    · rw [if_neg hxy, sub_toNat_eq_zero]
      simp [hxy]

/-- Two strings that `memcmp` finds equal to the same memory are the same. -/
theorem eq_of_memcmp_eq_zero {a a' b : List UInt8} (hlen : a.length = a'.length)
    (h : memcmp a b a.length = 0) (h' : memcmp a' b a'.length = 0) : a = a' := by
  induction a generalizing a' b with
  | nil => exact (List.length_eq_zero_iff.mp hlen.symm).symm
  | cons x a ih =>
    obtain ⟨x', a', rfl⟩ := List.exists_cons_of_length_pos (by simp [← hlen] : 0 < a'.length)
    -- one byte of each comparison against the same memory
    have hhead : ∀ {y : UInt8} {l : List UInt8}, memcmp (y :: l) b (y :: l).length = 0 →
        y = b.headD 0 ∧ memcmp l b.tail l.length = 0 := by
      intro y l hl
      rw [List.length_cons, memcmp, List.headD_cons, List.tail_cons] at hl
      by_cases hy : y = b.headD 0
      · exact ⟨hy, by simpa [hy] using hl⟩
      · rw [if_neg hy, sub_toNat_eq_zero] at hl
        exact absurd hl hy
    obtain ⟨hx, ha⟩ := hhead h
    obtain ⟨hx', ha'⟩ := hhead h'
    rw [hx, hx', ih (by simpa using hlen) ha ha']

/-- `ngx_memn2cmp` finds two strings equal when they have the same length and
`memcmp` finds them equal. -/
theorem ngxMemn2cmp_eq_zero {s1 s2 : List UInt8} {n1 n2 : Nat} :
    ngxMemn2cmp s1 s2 n1 n2 = 0 ↔ n1 = n2 ∧ memcmp s1 s2 n1 = 0 := by
  unfold ngxMemn2cmp
  dsimp only
  by_cases hn : n1 = n2
  · subst hn
    rw [if_pos (Or.inr rfl), Nat.min_self]
    simp
  · -- different lengths are never equal, whatever `memcmp` says
    by_cases hm : memcmp s1 s2 (min n1 n2) = 0
    · rw [if_neg (by simp [hm, hn])]
      split <;> simp [hn]
    · rw [if_pos (Or.inl hm)]
      simp [hm, hn]

theorem ngxMemn2cmp_cons (x y : UInt8) (a b : List UInt8) :
    ngxMemn2cmp (x :: a) (y :: b) (x :: a).length (y :: b).length =
      if x = y then ngxMemn2cmp a b a.length b.length else (x.toNat : Int) - y.toNat := by
  unfold ngxMemn2cmp
  dsimp only
  rw [List.length_cons, List.length_cons, Nat.add_min_add_right, memcmp, List.headD_cons,
    List.headD_cons, List.tail_cons, List.tail_cons]
  by_cases hxy : x = y
  · simp [hxy]
  · have hne : (x.toNat : Int) - y.toNat ≠ 0 := fun h => hxy (sub_toNat_eq_zero.mp h)
    simp only [if_neg hxy]
    rw [if_pos (Or.inl hne)]

/-- **`ngx_memn2cmp` is the lexicographic order** on strings with their lengths. -/
theorem ngxMemn2cmp_lt_zero {a b : List UInt8} :
    ngxMemn2cmp a b a.length b.length < 0 ↔ a.map UInt8.toNat < b.map UInt8.toNat := by
  induction a generalizing b with
  | nil =>
    cases b with
    | nil => simp [ngxMemn2cmp, memcmp]
    | cons y b => simp [ngxMemn2cmp, memcmp]
  | cons x a ih =>
    cases b with
    | nil => simp [ngxMemn2cmp, memcmp]
    | cons y b =>
      rw [ngxMemn2cmp_cons, List.map_cons, List.map_cons, List.cons_lt_cons_iff, ← ih]
      by_cases hxy : x = y
      · simp [hxy]
      · have hne : x.toNat ≠ y.toNat := fun h => hxy (UInt8.toNat_inj.mp h)
        rw [if_neg hxy]
        omega

theorem ngxMemn2cmp_self_iff {a b : List UInt8} :
    ngxMemn2cmp a b a.length b.length = 0 ↔ a = b := by
  rw [ngxMemn2cmp_eq_zero]
  constructor
  · rintro ⟨hlen, hcmp⟩
    have htake := (memcmp_eq_zero le_rfl (le_of_eq hlen)).mp hcmp
    rwa [List.take_length, hlen, List.take_length] at htake
  · rintro rfl
    exact ⟨rfl, (memcmp_eq_zero le_rfl le_rfl).mpr rfl⟩

/-- `ngx_hash_key_lc`: the multiplicative hash of the lower-cased bytes. -/
def ngxHashKeyLc (data : List UInt8) : Nat :=
  data.foldl (fun key c => (key * 31 + (tolower c).toNat) % wordSize) 0

end Nginx
