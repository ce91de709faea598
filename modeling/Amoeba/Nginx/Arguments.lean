import Amoeba.Nginx.String
import Amoeba.QueryString.Basic

/-!
# The arguments of a request

`ngx_http_arg`, the server's own lookup of an argument by its name. It looks for
the name with `ngx_strlcasestrn` and goes on from the next byte until the name
stands at the beginning of a component and in front of a `'='`.

`ngxHttpArg_eq` says that this is the lookup of a parameter in the query string.
-/

namespace Nginx

open CString QueryString

/-- The arguments of a request: `'&'` between them, `'='` behind the name, and
names compared without regard to the letter case. -/
def arguments : Dialect UInt8 where
  sep := 0x26
  assign := 0x3d
  fold := tolower
  fold_sep := tolower_eq_amp.mp
  fold_assign := tolower_eq_equals.mp
  sep_ne := by decide

/-- `ngx_strlcasestrn`: the first case-insensitive match of `s2` in the bytes `s1`.
The argument `n` is the length of `s2` less one. -/
def ngxStrlcasestrn (s1 s2 : List UInt8) (n : Nat) : Option Nat :=
  match s1 with
  | [] => none
  | c :: s1 =>
    -- no match begins in the last `n` bytes
    if s1.length < n then none
    else if tolower c = tolower (s2.headD 0) ∧ ngxStrncasecmp s1 s2.tail n = 0 then some 0
    else (ngxStrlcasestrn s1 s2 n).map (· + 1)

/-- `ngx_http_arg` from the position `p` on: where the value of an argument begins,
and its length. -/
def ngxHttpArg (args name : List UInt8) (p : Nat) : Option (Nat × Nat) :=
  if p < args.length then
    -- a `'='` is needed behind the name, so the last byte is left out
    match ngxStrlcasestrn ((args.drop p).take (args.length - 1 - p)) name (name.length - 1) with
    | none => none
    | some k =>
      if (p + k = 0 ∨ args.getD (p + k - 1) 0 = 0x26) ∧
          args.getD (p + k + name.length) 0 = 0x3d then
        some (p + k + name.length + 1,
          sizeSub ((ngxStrlchr args (p + k) args.length 0x26).getD args.length)
            (p + k + name.length + 1))
      else ngxHttpArg args name (p + k + 1)
  else none
termination_by args.length - p

/-- **What `ngx_strlcasestrn` finds**: the first match, or that there is none. -/
theorem ngxStrlcasestrn_spec {d : UInt8} {p : List UInt8} (hp : 0 ∉ d :: p) (s : List UInt8) :
    (∃ k, ngxStrlcasestrn s (d :: p) p.length = some k ∧ CiMatch (d :: p) (s.drop k) ∧
      ∀ j < k, ¬ CiMatch (d :: p) (s.drop j)) ∨
      ngxStrlcasestrn s (d :: p) p.length = none ∧ ∀ k, ¬ CiMatch (d :: p) (s.drop k) := by
  -- induction along the scan
  induction s with
  | nil =>
    refine .inr ⟨rfl, ?_⟩
    intro k
    rw [List.drop_nil]
    exact not_ciMatch_nil
  | cons c s ih =>
    rw [ngxStrlcasestrn]
    by_cases hshort : s.length < p.length
    · rw [if_pos hshort]
      refine .inr ⟨rfl, ?_⟩
      intro k hk
      have hle := hk.length_le
      rw [List.length_cons, List.length_drop, List.length_cons] at hle
      omega
    · rw [if_neg hshort]
      by_cases hm : CiMatch (d :: p) (c :: s)
      · rw [if_pos ((ciMatch_iff_test hp).mpr hm)]
        refine .inl ⟨0, rfl, hm, ?_⟩
        intro j hj
        exact absurd hj (Nat.not_lt_zero j)
      · rw [if_neg fun h => hm ((ciMatch_iff_test hp).mp h)]
        rcases ih with ⟨k, hk, hat, hfirst⟩ | ⟨hnone, hno⟩
        · refine .inl ⟨k + 1, by rw [hk]; rfl, hat, ?_⟩
          intro j hj
          cases j with
          | zero => exact hm
          | succ j => exact hfirst j (by omega)
        · refine .inr ⟨by rw [hnone]; rfl, ?_⟩
          intro k
          cases k with
          | zero => exact hm
          | succ k => exact hno k

/-! ### The lookup -/

section

variable {name args : List UInt8}

/-- A component with the name, as `ngx_http_arg` recognizes it. -/
theorem namedAt_iff {i : Nat} : arguments.NamedAt name args i ↔
    (i = 0 ∨ args.getD (i - 1) 0 = 0x26) ∧ CiMatch name (args.drop i) ∧
      args.getD (i + name.length) 0 = 0x3d := by
  -- a byte read past the end is neither of the two signs
  have hget : ∀ (k : Nat) (c : UInt8), c ≠ 0 → (args.getD k 0 = c ↔ args[k]? = some c) := by
    intro k c hc
    rw [List.getD_eq_getElem?_getD]
    cases args[k]? with
    | none => simpa using hc.symm
    | some x => simp
  rw [hget _ _ (by decide), hget _ _ (by decide)]
  constructor
  · rintro ⟨hb, hheads⟩
    obtain ⟨hm, hsign⟩ := Dialect.heads_iff_getElem?.mp hheads
    rw [List.getElem?_drop] at hsign
    refine ⟨?_, hm, hsign⟩
    cases i with
    | zero => exact .inl rfl
    | succ k => exact .inr (hb k rfl)
  · rintro ⟨hb, hm, hsign⟩
    refine ⟨?_, Dialect.heads_iff_getElem?.mpr ⟨hm, by rwa [List.getElem?_drop]⟩⟩
    rintro k rfl
    exact hb.resolve_left (by omega)

theorem length_lt_of_namedAt {i : Nat} (h : arguments.NamedAt name args i) :
    i + name.length < args.length := by
  have hle := h.heads.length_le
  rw [List.length_map, List.length_map, List.length_append, List.length_singleton,
    List.length_drop] at hle
  omega

/-- The part that is searched from `p` on leaves out no component. -/
theorem ciMatch_searched {p k : Nat} (hname : name ≠ []) :
    CiMatch name (((args.drop p).take (args.length - 1 - p)).drop k) ↔
      CiMatch name (args.drop (p + k)) ∧ p + k + name.length < args.length := by
  have hpos := List.length_pos_of_ne_nil hname
  rw [List.drop_take, List.drop_drop]
  unfold CiMatch
  rw [List.map_take, List.prefix_take_iff, List.length_map]
  constructor
  · rintro ⟨hm, hle⟩
    exact ⟨hm, by omega⟩
  · rintro ⟨hm, hlt⟩
    exact ⟨hm, by omega⟩

/-- The end of the value, which is searched from the name on. -/
theorem sizeSub_strlchr (hname : arguments.Name name) (hargs : args.length < wordSize) {i : Nat}
    (h : arguments.NamedAt name args i) :
    sizeSub ((ngxStrlchr args i args.length 0x26).getD args.length) (i + name.length + 1) =
      ((args.drop (i + name.length + 1)).takeWhile (· ≠ 0x26)).length := by
  have hlt := length_lt_of_namedAt h
  obtain ⟨a, b, hab, ha⟩ := Dialect.heads_iff.mp h.heads
  have hlen : a.length = name.length := by simpa using congrArg List.length ha
  have hno : (0x26 : UInt8) ∉ a := hname.sep_notMem_of_fold ha
  have hrest : args.drop (i + name.length + 1) = b := by
    rw [Nat.add_assoc, ← List.drop_drop, hab, ← hlen]
    exact Dialect.drop_behind a b arguments.assign 0
  have hb : i + name.length + 1 + b.length = args.length := by
    rw [← hrest, List.length_drop]
    omega
  have htw := (List.takeWhile_prefix (l := b) (· ≠ (0x26 : UInt8))).length_le
  -- neither the name nor the sign behind it is the separator
  rw [ngxStrlchr_getD (by omega) le_rfl, List.take_of_length_le (by simp), hab, hrest,
    List.takeWhile_append_of_pos fun x hx => decide_eq_true (ne_of_mem_of_not_mem hx hno),
    List.takeWhile_cons_of_pos (by decide), List.length_append, List.length_cons, hlen,
    sizeSub_of_le (by omega) (by omega)]
  omega

/-- From any position on: the first component with the name, when none begins before. -/
private theorem ngxHttpArg_spec (hname : arguments.Name name) (hne : name ≠ []) (h0 : 0 ∉ name)
    (hargs : args.length < wordSize) (p : Nat)
    (hbefore : ∀ j < p, ¬ arguments.NamedAt name args j) :
    (∃ i, arguments.FirstNamedAt name args i ∧ ngxHttpArg args name p = some (i + name.length + 1,
      ((args.drop (i + name.length + 1)).takeWhile (· ≠ 0x26)).length)) ∨
      (∀ i, ¬ arguments.NamedAt name args i) ∧ ngxHttpArg args name p = none := by
  -- along the rounds of the loop
  induction hn : args.length - p using Nat.strongRecOn generalizing p with
  | ind n ih =>
    rw [ngxHttpArg]
    by_cases hp : p < args.length
    · rw [if_pos hp]
      have hsearch := ngxStrlcasestrn_spec (d := name.head hne) (p := name.tail)
        (by rwa [List.cons_head_tail]) ((args.drop p).take (args.length - 1 - p))
      rw [List.cons_head_tail, List.length_tail] at hsearch
      rcases hsearch with ⟨k, hk, hm, hfirst⟩ | ⟨hnone, hno⟩
      · rw [hk]
        dsimp only
        rw [ciMatch_searched hne] at hm
        -- between two matches no component with the name begins
        have hbetween : ∀ j < p + k, ¬ arguments.NamedAt name args j := by
          intro j hj hnamed
          rcases lt_or_ge j p with hjp | hjp
          · exact hbefore j hjp hnamed
          · obtain ⟨j', rfl⟩ := Nat.exists_eq_add_of_le hjp
            refine hfirst j' (by omega) ((ciMatch_searched hne).mpr ?_)
            exact ⟨(namedAt_iff.mp hnamed).2.1, length_lt_of_namedAt hnamed⟩
        by_cases hcond : (p + k = 0 ∨ args.getD (p + k - 1) 0 = 0x26) ∧
            args.getD (p + k + name.length) 0 = 0x3d
        · have hnamed := namedAt_iff.mpr ⟨hcond.1, hm.1, hcond.2⟩
          rw [if_pos hcond, sizeSub_strlchr hname hargs hnamed]
          exact .inl ⟨p + k, ⟨hnamed, hbetween⟩, rfl⟩
        · rw [if_neg hcond]
          refine ih (args.length - (p + k + 1)) (by omega) (p + k + 1) ?_ rfl
          intro j hj hnamed
          rcases Nat.lt_succ_iff_lt_or_eq.mp hj with hlt | rfl
          · exact hbetween j hlt hnamed
          · obtain ⟨hb, -, hsign⟩ := namedAt_iff.mp hnamed
            exact hcond ⟨hb, hsign⟩
      · rw [hnone]
        refine .inr ⟨?_, rfl⟩
        intro i hnamed
        rcases lt_or_ge i p with hip | hip
        · exact hbefore i hip hnamed
        · obtain ⟨k, rfl⟩ := Nat.exists_eq_add_of_le hip
          refine hno k ((ciMatch_searched hne).mpr ?_)
          exact ⟨(namedAt_iff.mp hnamed).2.1, length_lt_of_namedAt hnamed⟩
    · rw [if_neg hp]
      refine .inr ⟨?_, rfl⟩
      intro i hnamed
      have hlt := length_lt_of_namedAt hnamed
      exact hbefore i (by omega) hnamed

/-- **The server's own lookup of an argument** is the lookup of a parameter. -/
theorem ngxHttpArg_eq (hname : arguments.Name name) (hne : name ≠ []) (h0 : 0 ∉ name)
    (hargs : args.length < wordSize) :
    (ngxHttpArg args name 0).map (fun v => (args.drop v.1).take v.2) =
      arguments.lookup name args := by
  rcases ngxHttpArg_spec hname hne h0 hargs 0 (fun j hj => absurd hj (Nat.not_lt_zero j)) with
    ⟨i, hi, harg⟩ | ⟨hno, harg⟩
  · rw [harg, (Dialect.lookup_eq_some_iff hname).mpr ⟨i, hi, rfl⟩, Option.map_some]
    exact congrArg some (List.prefix_iff_eq_take.mp (List.takeWhile_prefix _)).symm
  · rw [harg, (Dialect.lookup_eq_none_iff hname).mpr hno]
    rfl

end

end Nginx
