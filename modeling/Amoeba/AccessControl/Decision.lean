import Amoeba.AccessControl.Extraction

/-!
# What the checks decide

The three comparisons of a round, read against the rows the arrays were loaded
from. The comparisons stop at a NUL and cannot see where one column ends and
the next begins, so the rows alone determine which triples of path, `sid` and
`key` a request can be let through with: `Reach`. They need not be triples of
any row.

* `reach_of_grant` — a request that is let through is let through with a
  reachable triple, up to the first NUL of its parameters.
* `grant_of_reach` — every reachable triple is that of some POST request which
  is let through.
-/

namespace AccessControl

open CString Nginx

/-- The `'/'` every path starts with. -/
def slash : UInt8 := 0x2f

/-- The first row with this `KEY ++ SID`, the one whose quota counts. -/
def firstRow (rows : List Row) (hashkey : List UInt8) : Option Row :=
  rows.find? (·.hashkey = hashkey)

/-- **The triples a request can be let through with.** The path and the `sid`
head the columns of some row, the `key` is a stored one up to its first `'&'`,
and the first row with the concatenation of `key` and `sid` has a quota. -/
structure Reach (rows : List Row) (U S K : List UInt8) : Prop where
  path_len : 2 ≤ U.length
  path_slash : U.head? = some slash
  urisid : ∃ a ∈ rows, U ++ S <+: a.urisid
  amp_notMem : amp ∉ S
  key : ∃ k, KeyLoaded rows k ∧ K = k.takeWhile (· ≠ amp)
  quota : ∃ b, firstRow rows (K ++ S) = some b ∧ 0 < b.maxtph

/-- A reachable triple consists of bytes of rows, which are not NUL. -/
theorem Reach.zero_notMem {rows : List Row} {U S K : List UInt8} (h : Reach rows U S K)
    (hrows : ∀ a ∈ rows, a.Valid) : 0 ∉ S ∧ 0 ∉ K := by
  obtain ⟨a, ha, hpre⟩ := h.urisid
  obtain ⟨k, hk, rfl⟩ := h.key
  obtain ⟨a', ha', rfl⟩ := hk.exists_row
  refine ⟨fun h0 => ?_, fun h0 => ?_⟩
  · exact (hrows a ha).zero_notMem_urisid (hpre.mem (List.mem_append_right _ h0))
  · exact (hrows a' ha').key.2.2.1 ((List.takeWhile_prefix _).mem h0)

/-- A request whose comparisons are decided by its own data: the path is one
that the request parser produces, the parameter names stand inside the data,
and the bytes that follow the data and the assembled hash key do not continue
a stored string. -/
structure Clean (rows : List Row) (r : Request) : Prop where
  path : ∀ uri start last, r.window = some (uri, start, last) →
    0 ∉ r.bytes uri ∧ 2 ≤ uri.len ∧ (r.bytes uri).head? = some slash
  names : NamesInside (initKeypool rows) r
  past : ∀ uri start last, r.window = some (uri, start, last) →
    ∀ a ∈ rows, r.mem.getD last 0 ∉ a.key
  spill : ∀ a ∈ rows, r.spill.headD 0 ∉ a.hashkey

/-! ### The three comparisons -/

section

variable {rows : List Row} {t : Table}

/-- The path and the `sid`, up to its first NUL, head the columns of a row. -/
theorem exists_row_of_urisidKnown (hl : Loaded rows t) (hrows : ∀ r ∈ rows, r.Valid)
    {mem : List UInt8} {uri sid : NgxStr} (hU : 0 ∉ (mem.drop uri.data).take uri.len)
    (huri : uri.data + uri.len ≤ mem.length) (hsid : sid.data + sid.len ≤ mem.length)
    (h : urisidKnown t mem uri sid) :
    ∃ a ∈ rows, (mem.drop uri.data).take uri.len ++ cut ((mem.drop sid.data).take sid.len) <+:
      a.urisid := by
  simp only [urisidKnown, List.any_eq_true, decide_eq_true_eq] at h
  obtain ⟨e, he, h1, h2⟩ := h
  obtain ⟨a, ha, rfl⟩ := hl.urisid_row e he
  have h0 := hl.zero_notMem_urisid hrows _ he
  have hUlen : ((mem.drop uri.data).take uri.len).length = uri.len := by
    rw [List.length_take, List.length_drop]
    omega
  have hSlen : ((mem.drop sid.data).take sid.len).length = sid.len := by
    rw [List.length_take, List.length_drop]
    omega
  -- the first comparison runs over the path, which holds no NUL
  have hpath : (mem.drop uri.data).take uri.len <+: a.urisid := by
    rw [← strncmp_stretch h0 hU (List.take_prefix _ _), hUlen]
    exact h1
  obtain ⟨e', he'⟩ := hpath
  refine ⟨a, ha, ?_⟩
  -- the second one starts behind it in the stored string
  have hdrop : a.urisid.drop uri.len = e' := by
    rw [← he', List.drop_left' hUlen]
  rw [hdrop] at h2
  have h0' : 0 ∉ e' := fun h => h0 (he' ▸ List.mem_append_right _ h)
  rw [← he']
  refine (List.prefix_append_right_inj _).mpr (cut_prefix_of_strncmp h0' (List.take_prefix _ _) ?_)
  rw [hSlen]
  exact h2

/-- A path and a `sid` that head the columns of a row pass the check. -/
theorem urisidKnown_of_row (hl : Loaded rows t) (hrows : ∀ r ∈ rows, r.Valid) {mem : List UInt8}
    {uri sid : NgxStr} {U S : List UInt8} (hU : U <+: mem.drop uri.data) (hUlen : uri.len = U.length)
    (hS : S <+: mem.drop sid.data) (hSlen : sid.len = S.length) {a : Row} (ha : a ∈ rows)
    (h : U ++ S <+: a.urisid) : urisidKnown t mem uri sid := by
  obtain ⟨e, he, hpre⟩ := hl.urisid_covered a ha
  have h0 := (hrows a ha).zero_notMem_urisid
  simp only [urisidKnown, List.any_eq_true, decide_eq_true_eq]
  refine ⟨e, he, ?_⟩
  rw [hUlen, hSlen]
  refine (strncmp_pair (hl.zero_notMem_urisid hrows e he) ?_ ?_ hU hS).mpr (h.trans hpre)
  · exact fun h' => h0 (h.mem (List.mem_append_left _ h'))
  · exact fun h' => h0 (h.mem (List.mem_append_right _ h'))

/-- The `key`, up to its first NUL, is a stored key up to its first `'&'`. -/
theorem exists_key_of_keyKnown (hl : Loaded rows t) (hrows : ∀ r ∈ rows, r.Valid)
    {mem : List UInt8} {key : NgxStr} {last : Nat} (hkey : key.data ≤ last)
    (hpast : ∀ a ∈ rows, mem.getD last 0 ∉ a.key)
    (hK : (mem.drop key.data).take key.len = (slice mem key.data last).takeWhile (· ≠ amp))
    (hlen : key.len = ((slice mem key.data last).takeWhile (· ≠ amp)).length)
    (h : keyKnown t mem key) :
    ∃ k, KeyLoaded rows k ∧ cut ((mem.drop key.data).take key.len) = k.takeWhile (· ≠ amp) := by
  simp only [keyKnown, bothWays, List.any_eq_true, decide_eq_true_eq] at h
  obtain ⟨e, he, h1, h2⟩ := h
  refine ⟨e, (hl.key_iff e).mp he, ?_⟩
  obtain ⟨a, ha, hae⟩ := ((hl.key_iff e).mp he).exists_row
  have h0 := hl.zero_notMem_key hrows e he
  have hpre := (strncmp_length h0).mp h1
  rw [hK]
  -- the value, what follows it up to `last`, and what follows that
  have hsplit : mem.drop key.data = (slice mem key.data last).takeWhile (· ≠ amp) ++
      ((slice mem key.data last).dropWhile (· ≠ amp) ++ mem.drop last) := by
    rw [← List.append_assoc, List.takeWhile_append_dropWhile, slice,
      show last = key.data + (last - key.data) by omega, ← List.drop_drop, Nat.add_sub_cancel_left,
      List.take_append_drop]
  generalize hKv : (slice mem key.data last).takeWhile (· ≠ amp) = K at *
  have hKamp : ∀ c ∈ K, c ≠ amp := by
    intro c hc
    rw [← hKv] at hc
    simpa using List.mem_takeWhile_imp hc
  -- over the value's own length the stored key goes on from the value
  have hcut : cut K <+: e := by
    refine cut_prefix_of_strncmp h0 (b := mem.drop key.data) (by rw [hsplit]; simp) ?_
    rw [← hlen]
    exact h2
  rw [hsplit] at hpre
  by_cases hnul : 0 ∈ K
  · -- a NUL in the value ends both comparisons
    have hle := prefix_cut h0 hpre
    rw [cut_append_of_mem hnul] at hle
    obtain rfl : e = cut K := hle.eq_of_length_le hcut.length_le
    refine (List.takeWhile_eq_self_iff.mpr fun c hc => ?_).symm
    simpa using hKamp c ((cut_isPrefix K).mem hc)
  · -- the stored key goes on behind the value only with the `'&'` that ended it
    rw [cut_eq_self hnul] at hcut ⊢
    obtain ⟨u, rfl⟩ := hcut
    rw [List.takeWhile_append_of_pos (by simpa using hKamp)]
    suffices hu : u.takeWhile (· ≠ amp) = [] by rw [hu, List.append_nil]
    have hu := (List.prefix_append_right_inj K).mp hpre
    cases u with
    | nil => rfl
    | cons c u =>
      cases hd : (slice mem key.data last).dropWhile (· ≠ amp) with
      | nil =>
        rw [hd, List.nil_append] at hu
        -- the value reaches to `last`, and the byte there is in no key
        refine absurd ?_ (hpast a ha)
        have hc : mem.getD last 0 = c := by
          obtain ⟨v, hv⟩ := hu
          rw [List.getD_eq_getElem?_getD, ← List.head?_drop, ← hv]
          rfl
        rw [hc, hae]
        simp
      | cons d rest =>
        rw [hd, List.cons_append, List.cons_prefix_cons] at hu
        have hdamp := List.head?_dropWhile_not (fun x => decide (x ≠ amp)) (slice mem key.data last)
        rw [hd] at hdamp
        have hcamp : c = amp := hu.1.trans (by simpa using hdamp)
        simp [hcamp]

/-- **The quota**: with a clean byte behind the hash key, the matching entry is
that of the first row with this `KEY ++ SID`, read up to its first NUL. -/
theorem charge_eq (hl : Loaded rows t) (hrows : ∀ r ∈ rows, r.Valid) {r : Request}
    (hspill : ∀ a ∈ rows, r.spill.headD 0 ∉ a.hashkey) {uri sid key : NgxStr}
    (hsid : sid.len < 2 ^ 63) (hkey : key.len < 2 ^ 63) :
    charge t r uri sid key =
      match firstRow rows (cut (r.bytes key ++ r.bytes sid)) with
      | none => .status 403
      | some b =>
        if b.maxtph ≤ 0 then .status 403
        else .grant
          { uri := uri, sid := sid, key := key, hashkey := r.bytes key ++ r.bytes sid
            hash := ngxHashKeyLc b.hashkey % 2 ^ 32, maxtps := maxtpsOf b.maxtph } := by
  have hfind : rows.find? ((fun h : HashKey => bothWays h.key
        (r.bytes key ++ r.bytes sid ++ r.spill) (r.bytes key ++ r.bytes sid).length) ∘ Row.entry) =
      firstRow rows (cut (r.bytes key ++ r.bytes sid)) := by
    refine List.find?_congr fun b hb => ?_
    have := strncmp_both (s := r.bytes key ++ r.bytes sid) (hrows b hb).zero_notMem_hashkey
      (hspill b hb)
    simp only [Function.comp, bothWays, Row.entry]
    exact decide_eq_decide.mpr this
  unfold charge
  rw [if_neg (by omega)]
  dsimp only
  rw [hl.hashkey_eq, List.find?_map, hfind]
  cases firstRow rows (cut (r.bytes key ++ r.bytes sid)) <;> rfl

/-- A quota that lets the request through is that of a row. -/
theorem charge_grant (hl : Loaded rows t) (hrows : ∀ r ∈ rows, r.Valid) {r : Request}
    (hspill : ∀ a ∈ rows, r.spill.headD 0 ∉ a.hashkey) {uri sid key : NgxStr}
    (hsid : sid.len < 2 ^ 63) (hkey : key.len < 2 ^ 63) {g : Grant}
    (h : charge t r uri sid key = .grant g) :
    ∃ b, firstRow rows (cut (r.bytes key ++ r.bytes sid)) = some b ∧ 0 < b.maxtph ∧
      b.hashkey = cut (r.bytes key ++ r.bytes sid) ∧
      g = { uri := uri, sid := sid, key := key, hashkey := r.bytes key ++ r.bytes sid
            hash := ngxHashKeyLc b.hashkey % 2 ^ 32, maxtps := maxtpsOf b.maxtph } := by
  rw [charge_eq hl hrows hspill hsid hkey] at h
  cases hb : firstRow rows (cut (r.bytes key ++ r.bytes sid)) with
  | none => simp [hb] at h
  | some b =>
    simp only [hb] at h
    have hpos : 0 < b.maxtph := by
      by_contra hle
      rw [if_pos (not_lt.mp hle)] at h
      exact absurd h (by simp)
    rw [if_neg (not_le.mpr hpos), Verdict.grant.injEq] at h
    exact ⟨b, rfl, hpos, by simpa using List.find?_some hb, h.symm⟩

end

/-! ### What a request is let through with -/

/-- The steps of a round that ends at the limiter. -/
theorem check_grant {t : Table} {r : Request} {uri : NgxStr} {start last : Nat} {g : Grant}
    (hw : r.window = some (uri, start, last)) (h : (check t r).verdict = .grant g) :
    ∃ sid key, sidParam r.mem start last = some sid ∧ urisidKnown t r.mem uri sid ∧
      keyParam r.mem start last = some key ∧ keyKnown t r.mem key ∧
      charge t r uri sid key = .grant g := by
  rw [check_of_window hw] at h
  unfold checkWindow at h
  cases hsid : sidParam r.mem start last with
  | none => simp [hsid] at h
  | some sid =>
    by_cases hknown : urisidKnown t r.mem uri sid
    · cases hkey : keyParam r.mem start last with
      | none => simp [hsid, hknown, hkey] at h
      | some key =>
        by_cases hkk : keyKnown t r.mem key
        · simp only [hsid, hknown, hkey, hkk, if_true] at h
          exact ⟨sid, key, rfl, hknown, rfl, hkk, h⟩
        · simp [hsid, hknown, hkey, hkk] at h
    · simp [hsid, hknown] at h

/-- A round that passes the two membership checks ends as its quota says. -/
theorem check_eq_charge {t : Table} {r : Request} {uri sid key : NgxStr} {start last : Nat}
    (hw : r.window = some (uri, start, last)) (hsid : sidParam r.mem start last = some sid)
    (hknown : urisidKnown t r.mem uri sid) (hkey : keyParam r.mem start last = some key)
    (hkk : keyKnown t r.mem key) : (check t r).verdict = charge t r uri sid key := by
  rw [check_of_window hw]
  unfold checkWindow
  simp [hsid, hknown, hkey, hkk]

/-- A round that ends at the limiter has the rate of a positive quota. -/
theorem exists_quota_of_grant {t : Table} {r : Request} {g : Grant}
    (h : (check t r).verdict = .grant g) :
    ∃ e ∈ t.hashkeyarray, 0 < e.value ∧ g.maxtps = maxtpsOf e.value := by
  cases hw : r.window with
  | none => exact absurd h ((check_of_window_none hw).2 g)
  | some w =>
    obtain ⟨uri, start, last⟩ := w
    obtain ⟨sid, key, -, -, -, -, hc⟩ := check_grant hw h
    unfold charge at hc
    split at hc
    · simp at hc
    dsimp only at hc
    split at hc
    · simp at hc
    next e he =>
      split at hc
      · simp at hc
      next hpos =>
        obtain rfl := Verdict.grant.inj hc
        exact ⟨e, List.mem_of_find?_eq_some he, not_le.mp hpos, rfl⟩

/-- An empty result set leaves a single entry without a quota, which lets
nothing through. -/
theorem not_grant_of_nil (r : Request) (g : Grant) :
    (check (initKeypool []) r).verdict ≠ .grant g := by
  intro h
  obtain ⟨e, he, hpos, -⟩ := exists_quota_of_grant h
  -- the entry of the zeroed buffer has the value `0`
  obtain rfl : e = _ := List.mem_singleton.mp he
  exact absurd hpos (lt_irrefl 0)

/-- **A request is let through with a reachable triple**, up to the first NUL
of its parameters: a NUL in the `key` hides the whole `sid`. -/
theorem reach_of_grant {rows : List Row} (hrows : ∀ a ∈ rows, a.Valid) {r : Request}
    (hr : Clean rows r) {g : Grant} (h : (check (initKeypool rows) r).verdict = .grant g) :
    Reach rows (r.bytes g.uri) (if 0 ∈ r.bytes g.key then [] else cut (r.bytes g.sid))
        (cut (r.bytes g.key)) ∧
      g.hashkey = r.bytes g.key ++ r.bytes g.sid ∧
      ∃ b, firstRow rows (cut g.hashkey) = some b ∧
        g.hash = ngxHashKeyLc (cut g.hashkey) % 2 ^ 32 ∧ g.maxtps = maxtpsOf b.maxtph := by
  cases hw : r.window with
  | none => exact absurd h ((check_of_window_none hw).2 g)
  | some w =>
  obtain ⟨uri, start, last⟩ := w
  have hne : rows ≠ [] := by
    rintro rfl
    exact not_grant_of_nil r g h
  have hl := loaded_initKeypool hne hrows
  obtain ⟨hlast, huri⟩ := r.window_le hw
  obtain ⟨sid, key, hsid, hknown, hkey, hkk, hcharge⟩ := check_grant hw h
  -- both names stand inside the data, so both values are bytes of it
  obtain ⟨hsidEnd, hkeyEnd⟩ := hr.names uri start last hw
  have hsidle := hsidEnd _ (sidParam_inside r.mem_lt hlast hsid).1
  have hkeyle := hkeyEnd (by simp [sidPasses, hsid, hknown]) _
    (keyParam_inside r.mem_lt hlast hkey).1
  obtain ⟨hS, hSlen⟩ := sidParam_value r.mem_lt hlast hsid hsidle
  obtain ⟨hK, hKlen⟩ := keyParam_value r.mem_lt hlast hkey hkeyle
  have hsidIn := (sidParam_inside r.mem_lt hlast hsid).2.mpr hsidle
  have hkeyIn := (keyParam_inside r.mem_lt hlast hkey).2.mpr hkeyle
  have hmem := r.mem_lt
  obtain ⟨b, hb, hpos, hbkey, rfl⟩ := charge_grant hl hrows hr.spill
    (by have := hsidIn.2; omega) (by have := hkeyIn.2; omega) hcharge
  obtain ⟨hU0, hUlen, hUslash⟩ := hr.path uri start last hw
  obtain ⟨a, ha, hpre⟩ := exists_row_of_urisidKnown hl hrows hU0 huri
    (hsidIn.2.trans hlast) hknown
  obtain ⟨k, hk, hKk⟩ := exists_key_of_keyKnown hl hrows hkeyle (hr.past uri start last hw)
    hK hKlen hkk
  refine ⟨⟨?_, hUslash, ⟨a, ha, ?_⟩, ?_, ⟨k, hk, hKk⟩, ⟨b, ?_, hpos⟩⟩, rfl, b, hb, ?_, rfl⟩
  · dsimp only
    rw [Request.bytes, List.length_take, List.length_drop]
    omega
  · refine List.IsPrefix.trans ((List.prefix_append_right_inj _).mpr ?_) hpre
    split
    · exact List.nil_prefix
    · exact List.prefix_rfl
  · -- the value was cut at its first `'&'`
    split
    · simp
    · intro hmemS
      have hin : amp ∈ r.bytes sid := (cut_isPrefix _).mem hmemS
      rw [Request.bytes, hS] at hin
      simpa using List.mem_takeWhile_imp hin
  · -- a NUL in the key cuts the hash key there
    rw [← hb]
    congr 1
    by_cases h0 : 0 ∈ r.bytes key
    · rw [if_pos h0, List.append_nil, cut_append_of_mem h0]
    · rw [if_neg h0, cut_append_of_notMem h0, cut_eq_self h0]
  · rw [← hbkey]

/-! ### Requests with a given triple -/

theorem slice_of_drop {mem a b c : List UInt8} {start : Nat} (h : mem.drop start = a ++ b ++ c) :
    slice mem (start + a.length) (start + a.length + b.length) = b := by
  rw [slice, ← List.drop_drop, h, Nat.add_sub_cancel_left]
  simp

/-- The end of a match that has none before it. -/
theorem matchEnd_of_first {name : List UInt8} (mem : List UInt8) {off : Nat} (start k : Nat)
    (hname : ParamName name off)
    (hm : CiMatch name ((mem.drop start).drop k))
    (hno : ∀ j < k, ¬ CiMatch name ((mem.drop start).drop j)) (h0 : 0 ∉ (mem.drop start).take k) :
    matchEnd name mem start = some (start + k + name.length) := by
  obtain ⟨d, p, rfl⟩ := List.exists_cons_of_ne_nil hname.ne_nil
  have hfound := (ngxStrcasestrn_eq_some hname.zero_notMem).mpr ⟨hm, hno, h0⟩
  rw [matchEnd, List.length_cons, Nat.add_sub_cancel, hfound]
  rfl

section

variable {mem pre S k rest : List UInt8} {start : Nat}
  (hmem : mem.drop start = pre ++ sidName ++ S ++ ampKeyName ++ k ++ rest)

include hmem

/-- The query string lies inside of the memory. -/
theorem query_le_length :
    start + (pre ++ sidName ++ S ++ ampKeyName ++ k).length ≤ mem.length := by
  have hdrop := congrArg List.length hmem
  simp only [List.length_drop, List.length_append] at hdrop
  simp only [List.length_append, sidName, ampKeyName, List.length_cons] at hdrop ⊢
  omega

/-- The `sid` of a query string ends at the `'&'` of the next name. -/
theorem sidParam_of_query (hlen : mem.length < 2 ^ 63) (h0 : 0 ∉ pre ++ sidName ++ S)
    (hamp : amp ∉ pre ++ sidName ++ S)
    (hsid : ∀ j < pre.length, ¬ CiMatch sidName ((mem.drop start).drop j)) :
    sidParam mem start (start + (pre ++ sidName ++ S ++ ampKeyName ++ k).length) =
      some ⟨start + (pre ++ sidName).length, S.length⟩ := by
  have hend : matchEnd sidName mem start = some (start + (pre ++ sidName).length) := by
    have h := matchEnd_of_first mem start pre.length paramName_sid ?_ hsid ?_
    · rw [h, List.length_append, Nat.add_assoc]
    · rw [hmem]
      simp only [List.append_assoc, List.drop_left]
      exact ciMatch_append _ _
    · rw [hmem]
      simp only [List.append_assoc, List.take_left]
      exact fun h => h0 (by simp [h])
  rw [sidParam_eq]
  have hcut := cutParam_of_le paramName_sid hlen (query_le_length hmem) hend (by simp)
  refine hcut.trans ?_
  have hslice : slice mem (start + (pre ++ sidName).length)
      (start + (pre ++ sidName ++ S ++ ampKeyName ++ k).length) = S ++ ampKeyName ++ k := by
    have h := slice_of_drop (show mem.drop start =
      (pre ++ sidName) ++ (S ++ ampKeyName ++ k) ++ rest by rw [hmem]; simp)
    rw [Nat.add_assoc, ← List.length_append] at h
    simpa only [List.append_assoc] using h
  have hSamp : ∀ c ∈ S, decide (c ≠ amp) = true := fun c hc =>
    decide_eq_true fun h => hamp (by simp [← h, hc])
  rw [hslice, List.append_assoc, List.takeWhile_append_of_pos hSamp]
  simp [ampKeyName, amp]

/-- The first match of `&key=` in a query string without an earlier `'&'`. -/
theorem matchEnd_ampKey_of_query (h0 : 0 ∉ pre ++ sidName ++ S) (hamp : amp ∉ pre ++ sidName ++ S) :
    matchEnd ampKeyName mem start =
      some (start + (pre ++ sidName ++ S ++ ampKeyName).length) := by
  have hmem' : mem.drop start = (pre ++ sidName ++ S) ++ (ampKeyName ++ (k ++ rest)) := by
    rw [hmem]
    simp
  have h := matchEnd_of_first mem start (pre ++ sidName ++ S).length paramName_ampKey ?_ ?_ ?_
  · rw [h, show (pre ++ sidName ++ S ++ ampKeyName).length =
      (pre ++ sidName ++ S).length + ampKeyName.length from List.length_append, Nat.add_assoc]
  · rw [hmem', List.drop_left]
    exact ciMatch_append _ _
  · -- an earlier match would begin with an earlier ampersand
    intro j hj hm
    rw [hmem', List.drop_append_of_le_length hj.le] at hm
    cases hd : (pre ++ sidName ++ S).drop j with
    | nil => exact absurd (List.drop_eq_nil_iff.mp hd) (not_le.mpr hj)
    | cons c l =>
      rw [hd, List.cons_append, ampKeyName, ciMatch_cons] at hm
      have hc : c = amp := tolower_eq_amp.mp (hm.1.symm.trans (by decide))
      have hmemc : c ∈ pre ++ sidName ++ S :=
        List.mem_of_mem_drop (i := j) (by rw [hd]; exact List.mem_cons_self)
      exact hamp (hc ▸ hmemc)
  · rw [hmem', List.take_left]
    exact h0

/-- The `key` of a query string ends at its first `'&'`. -/
theorem keyParam_of_query (hlen : mem.length < 2 ^ 63) (h0 : 0 ∉ pre ++ sidName ++ S)
    (hamp : amp ∉ pre ++ sidName ++ S) :
    keyParam mem start (start + (pre ++ sidName ++ S ++ ampKeyName ++ k).length) =
      some ⟨start + (pre ++ sidName ++ S ++ ampKeyName).length,
        (k.takeWhile (· ≠ amp)).length⟩ := by
  unfold keyParam
  have hcut := cutParam_of_le paramName_ampKey hlen (query_le_length hmem)
    (matchEnd_ampKey_of_query hmem h0 hamp) (by simp)
  rw [show cutParam ampKeyName 4 5 1 mem start _ = _ from hcut, Option.some_or]
  have hslice : slice mem (start + (pre ++ sidName ++ S ++ ampKeyName).length)
      (start + (pre ++ sidName ++ S ++ ampKeyName ++ k).length) = k := by
    have h := slice_of_drop hmem
    rwa [Nat.add_assoc, ← List.length_append] at h
  rw [hslice]

end

/-- **The parameters of a query string** `…sid=S&key=k` that starts behind some
bytes without a `'&'` and without the `sid` name. -/
theorem params_of_query {mem pre S k rest : List UInt8} {start : Nat}
    (hmem : mem.drop start = pre ++ sidName ++ S ++ ampKeyName ++ k ++ rest)
    (hlen : mem.length < 2 ^ 63) (h0 : 0 ∉ pre ++ sidName ++ S) (hamp : amp ∉ pre ++ sidName ++ S)
    (hsid : ∀ j < pre.length, ¬ CiMatch sidName ((mem.drop start).drop j)) :
    let last := start + (pre ++ sidName ++ S ++ ampKeyName ++ k).length
    sidParam mem start last = some ⟨start + (pre ++ sidName).length, S.length⟩ ∧
      keyParam mem start last =
        some ⟨start + (pre ++ sidName ++ S ++ ampKeyName).length, (k.takeWhile (· ≠ amp)).length⟩ :=
  ⟨sidParam_of_query hmem hlen h0 hamp hsid, keyParam_of_query hmem hlen h0 hamp⟩

/-- **A request with a query string** whose path and `sid` head the columns of
a row and whose `key` is a stored one passes the two membership checks, and
both names stand inside its data. -/
theorem check_query {rows : List Row} {t : Table} (hl : Loaded rows t)
    (hrows : ∀ a ∈ rows, a.Valid) {r : Request} {uri : NgxStr} {start : Nat}
    (pre : List UInt8) {U S k rest : List UInt8}
    (hw : r.window =
      some (uri, start, start + (pre ++ sidName ++ S ++ ampKeyName ++ k).length))
    (hmem : r.mem.drop start = pre ++ sidName ++ S ++ ampKeyName ++ k ++ rest) (h0 : 0 ∉ pre)
    (hamp : amp ∉ pre ++ sidName ++ S)
    (hsid : ∀ j < pre.length, ¬ CiMatch sidName ((r.mem.drop start).drop j))
    (hU : U <+: r.mem.drop uri.data) (hUlen : uri.len = U.length) {a : Row} (ha : a ∈ rows)
    (hpre : U ++ S <+: a.urisid) (hk : KeyLoaded rows k) :
    ∃ sid key, r.bytes sid = S ∧ sid.len = S.length ∧
      r.bytes key = k.takeWhile (· ≠ amp) ∧ key.len = (k.takeWhile (· ≠ amp)).length ∧
      (check t r).verdict = charge t r uri sid key ∧ NamesInside t r := by
  have hS0 : 0 ∉ S := fun h => (hrows a ha).zero_notMem_urisid
    (hpre.mem (List.mem_append_right _ h))
  have hk0 : 0 ∉ k := hl.zero_notMem_key hrows k ((hl.key_iff k).mpr hk)
  have hKpre : k.takeWhile (· ≠ amp) <+: k := List.takeWhile_prefix _
  have hlast := (r.window_le hw).1
  obtain ⟨hs, hkey⟩ := params_of_query hmem r.mem_lt (by simpa [sidName] using ⟨h0, hS0⟩) hamp hsid
  have hdropS : S <+: r.mem.drop (start + (pre ++ sidName).length) := by
    rw [← List.drop_drop, hmem]
    simp only [List.append_assoc]
    rw [← List.append_assoc pre, List.drop_left]
    exact List.prefix_append _ _
  have hdropK : k <+: r.mem.drop (start + (pre ++ sidName ++ S ++ ampKeyName).length) := by
    rw [← List.drop_drop, hmem, List.append_assoc _ k, List.drop_left]
    exact List.prefix_append _ _
  have hknown : urisidKnown t r.mem uri ⟨start + (pre ++ sidName).length, S.length⟩ :=
    urisidKnown_of_row hl hrows hU hUlen hdropS rfl ha hpre
  have hkk : keyKnown t r.mem ⟨start + (pre ++ sidName ++ S ++ ampKeyName).length,
      (k.takeWhile (· ≠ amp)).length⟩ := by
    simp only [keyKnown, bothWays, List.any_eq_true, decide_eq_true_eq]
    exact ⟨k, (hl.key_iff k).mpr hk, (strncmp_length hk0).mpr hdropK,
      (strncmp_stretch hk0 (fun h => hk0 (hKpre.mem h)) (hKpre.trans hdropK)).mpr hKpre⟩
  refine ⟨⟨_, S.length⟩, ⟨_, (k.takeWhile (· ≠ amp)).length⟩,
    Request.bytes_of_prefix hdropS rfl, rfl,
    Request.bytes_of_prefix (hKpre.trans hdropK) rfl, rfl,
    check_eq_charge hw hs hknown hkey hkk, ?_⟩
  intro uri' start' last' hw'
  rw [hw, Option.some.injEq, Prod.mk.injEq, Prod.mk.injEq] at hw'
  obtain ⟨rfl, rfl, rfl⟩ := hw'
  refine ⟨fun e he => ?_, fun _ e he => ?_⟩
  · rw [(sidParam_inside r.mem_lt hlast hs).1, Option.some.injEq] at he
    rw [← he]
    simp
  · rw [(keyParam_inside r.mem_lt hlast hkey).1, Option.some.injEq] at he
    rw [← he]
    simp

/-- A hexadecimal digit. -/
def hexDigit (n : Nat) : UInt8 := UInt8.ofNat (if n < 10 then 0x30 + n else 0x57 + n)

/-- A path as a request target: every byte behind the `'/'` percent-encoded. -/
def encodePath (U : List UInt8) : List UInt8 :=
  slash :: U.tail.flatMap fun c => [0x25, hexDigit (c.toNat / 16), hexDigit (c.toNat % 16)]

theorem question_notMem_encodePath (U : List UInt8) : question ∉ encodePath U := by
  have hdigit : ∀ n < 16, hexDigit n ≠ question := by decide
  intro h
  rcases List.mem_cons.mp h with h | h
  · exact absurd h (by decide)
  · obtain ⟨c, -, hc⟩ := List.mem_flatMap.mp h
    have hlt := c.toNat_lt
    simp only [List.mem_cons, List.not_mem_nil, or_false] at hc
    rcases hc with hc | hc | hc
    · exact absurd hc (by decide)
    · exact hdigit _ (by omega) hc.symm
    · exact hdigit _ (by omega) hc.symm

theorem length_encodePath {U : List UInt8} (h : U ≠ []) :
    (encodePath U).length = 3 * U.length - 2 := by
  obtain ⟨c, U, rfl⟩ := List.exists_cons_of_ne_nil h
  simp [encodePath]
  omega

/-- A POST request for the path `U` with a body in one buffer: the request
target is percent-encoded, and the decoded path stands in a block of its own. -/
def postRequest (U body spill : List UInt8) (hU : U ≠ []) (hlen : U.length ≤ 2 ^ 60)
    (hbody : body.length ≤ 2 ^ 60) : Request where
  accessControlSet := false
  method := .post
  mem := encodePath U ++ (U ++ List.replicate (2 * U.length) 0) ++ body
  uriData := (encodePath U).length
  uriLen := U.length
  uriStart := 0
  uriEnd := (encodePath U).length
  body := .buffer ((encodePath U).length + (U ++ List.replicate (2 * U.length) 0).length)
    ((encodePath U).length + (U ++ List.replicate (2 * U.length) 0).length + body.length)
  spill := spill
  mem_lt := by simp [length_encodePath hU]; omega
  uri_le := by omega
  uriEnd_le := by simp
  uriData_le := by simp [length_encodePath hU]; omega
  uriLen_le := by simp
  body_le := by
    rintro pos last ⟨⟩
    simp
    omega

theorem postRequest_window {U body spill : List UInt8} {hU : U ≠ []} {hlen : U.length ≤ 2 ^ 60}
    {hbody : body.length ≤ 2 ^ 60} (h2 : 2 ≤ U.length) :
    (postRequest U body spill hU hlen hbody).window =
      some (⟨(encodePath U).length, U.length⟩,
        (encodePath U).length + (U ++ List.replicate (2 * U.length) 0).length,
        (encodePath U).length + (U ++ List.replicate (2 * U.length) 0).length + body.length) := by
  have hnone : ngxStrlchr (postRequest U body spill hU hlen hbody).mem 0 (encodePath U).length
      question = none := by
    rw [ngxStrlchr_eq_none]
    simpa [postRequest] using question_notMem_encodePath U
  unfold Request.window
  rw [if_neg (by simp [postRequest]; omega)]
  simp only [postRequest, postUri] at hnone ⊢
  rw [hnone]

theorem postRequest_path {U body spill : List UInt8} {hU : U ≠ []} {hlen : U.length ≤ 2 ^ 60}
    {hbody : body.length ≤ 2 ^ 60} :
    U <+: (postRequest U body spill hU hlen hbody).mem.drop (encodePath U).length := by
  simp only [postRequest, List.append_assoc, List.drop_left]
  exact List.prefix_append _ _

/-- The body is the end of memory. -/
theorem postRequest_body {U body spill : List UInt8} {hU : U ≠ []} {hlen : U.length ≤ 2 ^ 60}
    {hbody : body.length ≤ 2 ^ 60} :
    (postRequest U body spill hU hlen hbody).mem.drop
        ((encodePath U).length + (U ++ List.replicate (2 * U.length) 0).length) = body ∧
      (encodePath U).length + (U ++ List.replicate (2 * U.length) 0).length + body.length =
        (postRequest U body spill hU hlen hbody).mem.length := by
  refine ⟨?_, by simp only [postRequest, List.length_append]⟩
  rw [← List.length_append]
  simp only [postRequest]
  rw [List.drop_left]

/-- **Every reachable triple is let through**: the POST request for the path
with the body `sid=S&key=k` reaches the limiter with exactly this triple. -/
theorem grant_of_reach {rows : List Row} (hrows : ∀ a ∈ rows, a.Valid) {U S K : List UInt8}
    (h : Reach rows U S K) :
    ∃ r g, Clean rows r ∧ (check (initKeypool rows) r).verdict = .grant g ∧
      r.bytes g.uri = U ∧ r.bytes g.sid = S ∧ r.bytes g.key = K := by
  obtain ⟨a, ha, hpre⟩ := h.urisid
  obtain ⟨k, hk, rfl⟩ := h.key
  obtain ⟨b, hb, hpos⟩ := h.quota
  obtain ⟨a', ha', hak⟩ := hk.exists_row
  have hl := loaded_initKeypool (List.ne_nil_of_mem ha) hrows
  have hU : U ≠ [] := by
    rintro rfl
    exact absurd h.path_len (by simp)
  have hlen : U.length + S.length ≤ 70 := by
    have h1 := hpre.length_le
    have h2 := (hrows a ha).uri.2.1
    have h3 := (hrows a ha).sid.2.1
    rw [List.length_append, Row.urisid, List.length_append] at h1
    omega
  have hklen : k.length ≤ 32 := hak ▸ (hrows a' ha').key.2.1
  have hK0 : 0 ∉ k.takeWhile (· ≠ amp) := fun h0 =>
    (hrows a' ha').key.2.2.1 (hak ▸ (List.takeWhile_prefix _).mem h0)
  have h0 : 0 ∉ U ++ S := fun h0 => (hrows a ha).zero_notMem_urisid (hpre.mem h0)
  -- the body is exactly the parameters, and the spilled bytes are absent
  let r := postRequest U (sidName ++ S ++ ampKeyName ++ k) [] hU (by omega)
    (by simp [sidName, ampKeyName]; omega)
  have hw : r.window = _ := postRequest_window h.path_len
  have hpath : U <+: r.mem.drop (encodePath U).length := postRequest_path
  obtain ⟨hdrop, hlast⟩ : r.mem.drop _ = _ ∧ _ = r.mem.length := postRequest_body
  generalize (encodePath U).length + (U ++ List.replicate (2 * U.length) 0).length = start
    at hw hdrop hlast
  have hmem : r.mem.drop start = [] ++ sidName ++ S ++ ampKeyName ++ k ++ [] := by
    rw [hdrop]
    simp
  obtain ⟨sid, key, hS, hSlen, hK, hKlen, hverdict, hnames⟩ := check_query hl hrows
    [] hw hmem (by simp) (by simpa [sidName, amp] using h.amp_notMem) (by simp) hpath rfl
    ha hpre hk
  -- no hash key goes on with a NUL
  have hspill : ∀ a ∈ rows, r.spill.headD 0 ∉ a.hashkey := fun a ha =>
    (hrows a ha).zero_notMem_hashkey
  have hKle := (List.takeWhile_prefix (l := k) (· ≠ amp)).length_le
  rw [charge_eq hl hrows hspill (by omega) (by omega), hK, hS, cut_eq_self (by
    simp only [List.mem_append, not_or] at h0 ⊢
    exact ⟨hK0, h0.2⟩), hb] at hverdict
  dsimp only at hverdict
  rw [if_neg (not_le.mpr hpos)] at hverdict
  have hbytes : r.bytes ⟨(encodePath U).length, U.length⟩ = U :=
    Request.bytes_of_prefix hpath rfl
  refine ⟨r, _, ⟨?_, hnames, ?_, hspill⟩, hverdict, hbytes, hS, hK⟩
  · intro uri start' last' hw'
    rw [hw, Option.some.injEq, Prod.mk.injEq] at hw'
    obtain ⟨rfl, -⟩ := hw'
    rw [hbytes]
    exact ⟨fun hU0 => h0 (List.mem_append_left _ hU0), h.path_len, h.path_slash⟩
  · intro uri start' last' hw' a ha
    rw [hw, Option.some.injEq, Prod.mk.injEq, Prod.mk.injEq] at hw'
    obtain ⟨-, -, rfl⟩ := hw'
    rw [hlast, List.getD_eq_default _ _ le_rfl]
    exact (hrows a ha).key.2.2.1

end AccessControl
