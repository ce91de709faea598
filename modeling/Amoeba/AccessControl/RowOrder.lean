import Amoeba.AccessControl.Methods

/-!
# The order of the rows

The authorization query has no `ORDER BY`. The load compares each row with the
ones before it, and the quota is that of the first row that matches, so the
order in which the database happens to deliver the rows can show in a decision.

* `order_free_iff` — for every result set, exactly when no reordering of its
  rows changes the decision on any request.
-/

namespace AccessControl

open CString Nginx

/-- A request as the parser produces it: its path starts with a `'/'`. -/
def SlashPath (r : Request) : Prop :=
  ∀ uri start last, r.window = some (uri, start, last) →
    r.mem.getD uri.data 0 = slash ∧ 0 < uri.len

/-- **Result sets whose order does not matter**: among the rows with a path that
requests can have, no `URI ++ SID` goes on from another one; no key goes on
from another one; and where a `KEY ++ SID` goes on from another one or is
equal to it, both rows grant the same rate. -/
structure OrderFree (rows : List Row) : Prop where
  urisid : ∀ a ∈ rows, ∀ b ∈ rows, b.uri.head? = some slash → b.urisid <+: a.urisid →
    b.urisid = a.urisid
  key : ∀ x ∈ rows, ∀ y ∈ rows, x.key <+: y.key → x.key = y.key
  hashkey : ∀ b ∈ rows, ∀ b' ∈ rows, b.hashkey <+: b'.hashkey → b.rate = b'.rate

theorem OrderFree.perm {rows rows' : List Row} (h : OrderFree rows) (hp : rows'.Perm rows) :
    OrderFree rows' where
  urisid a ha b hb := h.urisid a (hp.subset ha) b (hp.subset hb)
  key x hx y hy := h.key x (hp.subset hx) y (hp.subset hy)
  hashkey b hb b' hb' := h.hashkey b (hp.subset hb) b' (hp.subset hb')

/-! ### The order does not show -/

section

variable {rows : List Row} {t : Table}

/-- With no key that goes on from another one, all keys are loaded. -/
theorem keyLoaded_iff_of_orderFree (h : OrderFree rows) (k : List UInt8) :
    KeyLoaded rows k ↔ ∃ r ∈ rows, r.key = k := by
  refine ⟨KeyLoaded.exists_row, ?_⟩
  rintro ⟨r, hr, rfl⟩
  obtain ⟨k, hk, hpre⟩ := exists_keyLoaded_of_mem hr
  obtain ⟨x, hx, rfl⟩ := hk.exists_row
  rwa [← h.key x hx r hr hpre]

/-- The `'/'` of a `URI ++ SID` is that of its path. -/
theorem Row.Valid.head?_urisid {a : Row} (ha : a.Valid) : a.urisid.head? = a.uri.head? := by
  obtain ⟨c, l, hcl⟩ := List.exists_cons_of_ne_nil ha.uri.1
  rw [Row.urisid, hcl]
  rfl

/-- A row that matches a path with a `'/'` at its start has such a path itself. -/
theorem Row.Valid.head?_of_match {a : Row} (ha : a.Valid) {mem : List UInt8} {uri : NgxStr}
    (hslash : mem.getD uri.data 0 = slash) (hlen : 0 < uri.len)
    (h : strncmp a.urisid (mem.drop uri.data) uri.len = 0) : a.uri.head? = some slash := by
  have hhead : (mem.drop uri.data).headD 0 = slash := by
    rw [← hslash, List.headD_eq_head?_getD, List.head?_drop, List.getD_eq_getElem?_getD]
  obtain ⟨n, hn⟩ := Nat.exists_eq_succ_of_ne_zero hlen.ne'
  rw [← ha.head?_urisid]
  -- an empty string would have to match the slash with its NUL
  cases hu : a.urisid with
  | nil =>
    rw [hu, hn, strncmp, compareBy, hhead, sub_toNat_eq_zero] at h
    exact absurd h (by decide)
  | cons c e =>
    rw [hu, hn, strncmp, compareBy, hhead, id, id] at h
    split at h
    next hc => rw [List.head?_cons, hc]
    next hc => exact absurd (sub_toNat_eq_zero.mp h) hc

/-- **The first comparison** is with all rows of the result set that have a path
with a `'/'`. -/
theorem urisidKnown_iff_of_orderFree (hl : Loaded rows t) (hrows : ∀ a ∈ rows, a.Valid)
    (h : (∃ a ∈ rows, a.uri.head? = some slash) → OrderFree rows) {mem : List UInt8}
    {uri sid : NgxStr} (hslash : mem.getD uri.data 0 = slash) (hlen : 0 < uri.len) :
    urisidKnown t mem uri sid = true ↔ ∃ a ∈ rows,
      strncmp a.urisid (mem.drop uri.data) uri.len = 0 ∧
        strncmp (a.urisid.drop uri.len) (mem.drop sid.data) sid.len = 0 := by
  simp only [urisidKnown, List.any_eq_true, decide_eq_true_eq]
  constructor
  · rintro ⟨e, he, h1⟩
    obtain ⟨a, ha, rfl⟩ := hl.urisid_row e he
    exact ⟨a, ha, h1⟩
  · rintro ⟨a, ha, h1⟩
    refine ⟨a.urisid, ?_, h1⟩
    have hurisid := (hrows a ha).head?_of_match hslash hlen h1.1
    -- the stored string that covers the row's is the row's own
    obtain ⟨e, he, hpre⟩ := hl.urisid_covered a ha
    obtain ⟨x, hx, rfl⟩ := hl.urisid_row e he
    rwa [(h ⟨a, ha, hurisid⟩).urisid x hx a ha hurisid hpre]

/-- **The second comparison** is with all keys of the result set. -/
theorem keyKnown_iff_of_orderFree (hl : Loaded rows t) (h : OrderFree rows) (mem : List UInt8)
    (key : NgxStr) :
    keyKnown t mem key = true ↔ ∃ a ∈ rows, bothWays a.key (mem.drop key.data) key.len = true := by
  simp only [keyKnown, List.any_eq_true]
  constructor
  · rintro ⟨e, he, h1⟩
    obtain ⟨a, ha, rfl⟩ := ((hl.key_iff e).mp he).exists_row
    exact ⟨a, ha, h1⟩
  · rintro ⟨a, ha, h1⟩
    exact ⟨a.key, (hl.key_iff _).mpr ((keyLoaded_iff_of_orderFree h _).mpr ⟨a, ha, rfl⟩), h1⟩

end

/-- The first of several that agree, in any order. -/
theorem find?_bind_perm {α β : Type} {l l' : List α} (hp : l'.Perm l) {p : α → Bool}
    {g : α → Option β} (h : ∀ a ∈ l, ∀ b ∈ l, p a → p b → g a = g b) :
    (l'.find? p).bind g = (l.find? p).bind g := by
  cases hl : l.find? p with
  | none =>
    have hnone : l'.find? p = none := by
      rw [List.find?_eq_none] at hl ⊢
      exact fun x hx => hl x (hp.subset hx)
    rw [hnone]
  | some a =>
    -- the search finds something in either order, and what it finds agrees
    obtain ⟨b, hb⟩ : ∃ b, l'.find? p = some b := by
      rw [← Option.isSome_iff_exists, List.find?_isSome]
      exact ⟨a, hp.symm.subset (List.mem_of_find?_eq_some hl), List.find?_some hl⟩
    rw [hb]
    exact h b (hp.subset (List.mem_of_find?_eq_some hb)) a (List.mem_of_find?_eq_some hl)
      (List.find?_some hb) (List.find?_some hl)

/-- Two rows that match one hash key grant the same rate. -/
theorem OrderFree.rate_eq {rows : List Row} (h : OrderFree rows) (hrows : ∀ a ∈ rows, a.Valid)
    {other : List UInt8} {n : Nat} {b b' : Row} (hb : b ∈ rows) (hb' : b' ∈ rows)
    (hm : bothWays b.hashkey other n = true) (hm' : bothWays b'.hashkey other n = true) :
    b.rate = b'.rate := by
  -- both hash keys stand at the head of the same bytes, so one starts with the other
  have hpre : ∀ {x : Row}, x ∈ rows → bothWays x.hashkey other n = true → x.hashkey <+: other := by
    intro x hx hm
    exact (strncmp_length (hrows x hx).zero_notMem_hashkey).mp (decide_eq_true_eq.mp hm).1
  rcases List.prefix_or_prefix_of_prefix (hpre hb hm) (hpre hb' hm') with hle | hle
  · exact h.hashkey b hb b' hb' hle
  · exact (h.hashkey b' hb' b hb hle).symm

/-- **The order does not show** in a result set that is free of it. -/
theorem check_of_orderFree {rows rows' : List Row} (hrows : ∀ a ∈ rows, a.Valid)
    (h : (∃ a ∈ rows, a.uri.head? = some slash) → OrderFree rows) (hp : rows'.Perm rows)
    {r : Request} (hr : SlashPath r) :
    r.decisionOf (check (initKeypool rows') r).verdict =
      r.decisionOf (check (initKeypool rows) r).verdict := by
  rcases eq_or_ne rows [] with rfl | hne
  · rw [List.perm_nil.mp hp]
  have hne' : rows' ≠ [] := fun h => hne (List.nil_perm.mp (h ▸ hp))
  have hrows' : ∀ a ∈ rows', a.Valid := fun a ha => hrows a (hp.subset ha)
  have h' : (∃ a ∈ rows', a.uri.head? = some slash) → OrderFree rows' := by
    rintro ⟨a, ha, hslash⟩
    exact (h ⟨a, hp.subset ha, hslash⟩).perm hp
  have hl := loaded_initKeypool hne hrows
  have hl' := loaded_initKeypool hne' hrows'
  cases hw : r.window with
  | none =>
    -- a request without data is decided without the table
    obtain ⟨v, -, hcheck⟩ := exists_check_of_window_none hw
    rw [hcheck, hcheck]
  | some w =>
    obtain ⟨uri, start, last⟩ := w
    obtain ⟨hslash, hlen⟩ := hr uri start last hw
    rw [check_of_window hw, check_of_window hw]
    unfold checkWindow
    cases hsid : sidParam r.mem start last with
    | none => rfl
    | some sid =>
      dsimp only
      -- the first comparison is with the same rows in either order
      have hknown : urisidKnown (initKeypool rows') r.mem uri sid =
          urisidKnown (initKeypool rows) r.mem uri sid := by
        rw [Bool.eq_iff_iff, urisidKnown_iff_of_orderFree hl' hrows' h' hslash hlen,
          urisidKnown_iff_of_orderFree hl hrows h hslash hlen]
        simp only [hp.mem_iff]
      rw [hknown]
      by_cases hk : urisidKnown (initKeypool rows) r.mem uri sid
      · rw [if_pos hk, if_pos hk]
        -- some row has a path that the request can have
        have hfree : OrderFree rows := by
          obtain ⟨a, ha, h1, -⟩ :=
            (urisidKnown_iff_of_orderFree hl hrows h hslash hlen).mp hk
          exact h ⟨a, ha, (hrows a ha).head?_of_match hslash hlen h1⟩
        cases hkey : keyParam r.mem start last with
        | none => rfl
        | some key =>
          dsimp only
          have hkk : keyKnown (initKeypool rows') r.mem key =
              keyKnown (initKeypool rows) r.mem key := by
            rw [Bool.eq_iff_iff, keyKnown_iff_of_orderFree hl' (hfree.perm hp),
              keyKnown_iff_of_orderFree hl hfree]
            simp only [hp.mem_iff]
          rw [hkk]
          split
          · dsimp only
            rw [decisionOf_charge_find hl', decisionOf_charge_find hl,
              find?_bind_perm hp fun b hb b' hb' hm hm' =>
                hfree.rate_eq hrows hb hb' (by simpa using hm) (by simpa using hm')]
          · rfl
      · rw [if_neg hk, if_neg hk]

/-! ### Requests that show the order -/

/-- A POST request for the path `U` with a body in one buffer, and these bytes
behind the buffer. -/
def strayPost (U body behind spill : List UInt8) (hU : U ≠ []) (hlen : U.length ≤ 2 ^ 60)
    (hbody : (body ++ behind).length ≤ 2 ^ 60) : Request :=
  { postRequest U (body ++ behind) spill hU hlen hbody with
    body := .buffer ((encodePath U).length + (U ++ List.replicate (2 * U.length) 0).length)
      ((encodePath U).length + (U ++ List.replicate (2 * U.length) 0).length + body.length)
    body_le := by
      rintro pos last ⟨⟩
      have hend := (@postRequest_body U (body ++ behind) spill hU hlen hbody).2
      simp only [List.length_append] at hend ⊢
      omega }

/-- The data of such a request. -/
theorem strayPost_window {U body behind spill : List UInt8} {hU : U ≠ []} {hlen : U.length ≤ 2 ^ 60}
    {hbody : (body ++ behind).length ≤ 2 ^ 60} (h2 : 2 ≤ U.length) :
    ∃ start, (strayPost U body behind spill hU hlen hbody).window =
        some (⟨(encodePath U).length, U.length⟩, start, start + body.length) ∧
      (strayPost U body behind spill hU hlen hbody).mem.drop start = body ++ behind ∧
      start + body.length ≤ (strayPost U body behind spill hU hlen hbody).mem.length ∧
      U <+: (strayPost U body behind spill hU hlen hbody).mem.drop (encodePath U).length := by
  obtain ⟨hdrop, hend⟩ := @postRequest_body U (body ++ behind) spill hU hlen hbody
  have hw := @postRequest_window U (body ++ behind) spill hU hlen hbody h2
  refine ⟨_, ?_, hdrop, ?_, @postRequest_path U (body ++ behind) spill hU hlen hbody⟩
  · -- the two requests differ in the end of the buffer only
    have huri : postUri (strayPost U body behind spill hU hlen hbody) =
        ⟨(encodePath U).length, U.length⟩ := by
      rw [window_of_buffer rfl rfl (Nat.lt_of_succ_le h2)] at hw
      exact (Prod.mk.inj (Option.some.inj hw)).1
    rw [← huri]
    exact window_of_buffer rfl rfl (Nat.lt_of_succ_le h2)
  · have hmem : (strayPost U body behind spill hU hlen hbody).mem.length =
        (postRequest U (body ++ behind) spill hU hlen hbody).mem.length := rfl
    rw [hmem, ← hend]
    simp only [List.length_append]
    omega

/-- The path of such a request starts with a `'/'`. -/
theorem slashPath_strayPost {U body behind spill : List UInt8} {hU : U ≠ []}
    {hlen : U.length ≤ 2 ^ 60} {hbody : (body ++ behind).length ≤ 2 ^ 60} (h2 : 2 ≤ U.length)
    (hslash : U.head? = some slash) : SlashPath (strayPost U body behind spill hU hlen hbody) := by
  obtain ⟨start, hw, -, -, hpath⟩ := @strayPost_window U body behind spill hU hlen hbody h2
  intro uri start' last' hw'
  rw [hw, Option.some.injEq, Prod.mk.injEq] at hw'
  obtain ⟨rfl, -⟩ := hw'
  -- the path of the request is `U` itself
  refine ⟨?_, by dsimp only; omega⟩
  obtain ⟨rest, hrest⟩ := hpath
  rw [List.getD_eq_getElem?_getD, ← List.head?_drop, ← hrest, List.head?_append, hslash]
  rfl

/-- The value of a `sid` whose name stands at the start. -/
theorem sidParam_of_start {mem rest : List UInt8} {start n : Nat} (hmem : mem.length < 2 ^ 63)
    (hdrop : mem.drop start = sidName ++ rest) (hn : start + (4 + n) ≤ mem.length) :
    sidParam mem start (start + (4 + n)) =
      some ⟨start + 4, ((rest.take n).takeWhile (· ≠ amp)).length⟩ := by
  -- nothing is in front of the name, so it is the first one
  have hend : matchEnd sidName mem start = some (start + 4) := by
    have hm : CiMatch sidName ((mem.drop start).drop 0) := hdrop ▸ ciMatch_append _ _
    have hfirst := matchEnd_of_first mem start 0 paramName_sid hm (by simp) (by simp)
    simpa [sidName] using hfirst
  have hslice : slice mem (start + 4) (start + (4 + n)) = rest.take n := by
    rw [slice, ← List.drop_drop, hdrop, show start + (4 + n) - (start + 4) = n by omega]
    rfl
  rw [sidParam_eq, ← hslice]
  exact cutParam_of_le paramName_sid hmem hn hend (by omega)

/-- Memory that holds one string and its NUL compares equal with that string only,
over any length that reaches the NUL. -/
theorem bothWays_terminated {e k : List UInt8} {n : Nat} (he : 0 ∉ e) (hk : 0 ∉ k)
    (hn : k.length < n) : bothWays e (k ++ [0]) n = true ↔ e = k := by
  rw [bothWays, decide_eq_true_eq, strncmp_length he, strncmp_eq_zero_iff he]
  constructor
  · rintro ⟨hpre, h⟩
    -- up to the NUL the memory is the string, so the stored one is in front of it
    have hek : e <+: k := by
      have := prefix_cut he hpre
      rwa [cut_append_of_notMem hk, show cut [0] = [] by decide, List.append_nil] at this
    rcases h with ⟨hle, -⟩ | ⟨-, -, h0⟩
    · exact absurd hek.length_le (by omega)
    · refine hek.eq_of_length_le (not_lt.mp fun hlt => hk ?_)
      rw [List.getD_append _ _ _ _ hlt, List.getD_eq_getElem _ _ hlt] at h0
      exact h0 ▸ List.getElem_mem hlt
  · rintro rfl
    refine ⟨List.prefix_append _ _, .inr ⟨hn, List.prefix_append _ _, by simp⟩⟩

section

variable {rows : List Row}

/-- The stored strings that a path meets whose `sid` is a NUL: the path itself. -/
theorem urisidKnown_nul (hne : rows ≠ []) (hrows : ∀ a ∈ rows, a.Valid) {U mem : List UInt8}
    {path sid : Nat} (hU0 : 0 ∉ U) (hpath : U <+: mem.drop path) (hnul : mem.drop sid = [0]) :
    urisidKnown (initKeypool rows) mem ⟨path, U.length⟩ ⟨sid, 1⟩ = true ↔ UrisidLoaded rows U := by
  have hl := loaded_initKeypool hne hrows
  have hstored : U ∈ (initKeypool rows).urisidarray ↔ UrisidLoaded rows U := by
    obtain ⟨a, rows, rfl⟩ := List.exists_cons_of_ne_nil hne
    exact urisid_iff_foldl hrows U
  rw [← hstored]
  simp only [urisidKnown, List.any_eq_true, decide_eq_true_eq, hnul]
  constructor
  · rintro ⟨e, he, h1, h2⟩
    have h0 := hl.zero_notMem_urisid hrows e he
    obtain ⟨z, rfl⟩ := (strncmp_stretch h0 hU0 hpath).mp h1
    rw [List.drop_left, strncmp_eq_zero_iff fun hz => h0 (List.mem_append_right _ hz)] at h2
    cases z with
    | nil => rwa [List.append_nil] at he
    | cons c z =>
      -- a stored byte would have to be the NUL
      have hc : c = 0 := by simpa using h2
      exact absurd (by simp [hc]) h0
  · intro hU
    refine ⟨U, hU, (strncmp_stretch (hl.zero_notMem_urisid hrows U hU) hU0 hpath).mpr
      List.prefix_rfl, ?_⟩
    rw [List.drop_length]
    decide

/-- **A `sid` that starts with a NUL** asks for the path itself among the stored
strings. -/
theorem check_nul_sid (hne : rows ≠ []) (hrows : ∀ a ∈ rows, a.Valid) {U : List UInt8} (hU : U ≠ [])
    (hlen : U.length ≤ 2 ^ 60) (h2 : 2 ≤ U.length) (hU0 : 0 ∉ U) :
    let r := strayPost U (sidName ++ [0]) [] [] hU hlen (by decide)
    (UrisidLoaded rows U → (check (initKeypool rows) r).verdict = .status 401) ∧
      (¬ UrisidLoaded rows U → (check (initKeypool rows) r).verdict = .status 400) := by
  intro r
  obtain ⟨start, hw, hdrop, hend, hpath⟩ : ∃ start, r.window = some (⟨(encodePath U).length,
      U.length⟩, start, start + (sidName ++ [0]).length) ∧ r.mem.drop start = sidName ++ [0] ++ [] ∧
      start + (sidName ++ [0]).length ≤ r.mem.length ∧ U <+: r.mem.drop (encodePath U).length :=
    strayPost_window h2
  -- the name is followed by the NUL only, and no key is found
  have hsid : sidParam r.mem start (start + (sidName ++ [0]).length) = some ⟨start + 4, 1⟩ :=
    @sidParam_of_start r.mem [0] start 1 r.mem_lt (by rw [hdrop]; rfl) hend
  have hkey : keyParam r.mem start (start + (sidName ++ [0]).length) = none := by
    have hamp : matchEnd ampKeyName r.mem start = none := by
      rw [matchEnd, hdrop, show ngxStrcasestrn _ ampKeyName _ = none by decide, Option.map_none]
    have hkey : matchEnd keyName r.mem start = none := by
      rw [matchEnd, hdrop, show ngxStrcasestrn _ keyName _ = none by decide, Option.map_none]
    exact keyParam_eq_none.mpr (Option.or_eq_none_iff.mpr ⟨hamp, hkey⟩)
  have hknown : urisidKnown (initKeypool rows) r.mem ⟨(encodePath U).length, U.length⟩
      ⟨start + 4, 1⟩ = true ↔ UrisidLoaded rows U := by
    have hnul : r.mem.drop (start + 4) = [0] := by
      rw [← List.drop_drop, hdrop]
      rfl
    exact urisidKnown_nul hne hrows hU0 hpath hnul
  have hcheck : (check (initKeypool rows) r).verdict =
      if urisidKnown (initKeypool rows) r.mem ⟨(encodePath U).length, U.length⟩ ⟨start + 4, 1⟩ then
        .status 401 else .status 400 := by
    rw [check_of_window hw, checkWindow, hsid]
    dsimp only
    split
    · rw [hkey]
    · rfl
  rw [hcheck]
  exact ⟨fun h => if_pos (hknown.mpr h), fun h => if_neg fun hk => h (hknown.mp hk)⟩

/-- The `key` whose name begins at the end of the data: its length has wrapped. -/
theorem keyParam_wrapped {mem rest : List UInt8} {start : Nat} (hmem : mem.length < 2 ^ 63)
    (hdrop : mem.drop start = sidName ++ (ampKeyName ++ rest)) :
    ∃ n, 2 ^ 63 ≤ n ∧ keyParam mem start (start + sidName.length) = some ⟨start + 9, n⟩ := by
  have hfirst : matchEnd ampKeyName mem start = some (start + 4 + ampKeyName.length) := by
    -- no earlier place has the ampersand
    refine matchEnd_of_first mem start 4 paramName_ampKey ?_ ?_ ?_
    · rw [hdrop]
      exact ciMatch_append _ _
    · intro j hj hm
      rw [hdrop] at hm
      interval_cases j <;> exact absurd (ciMatch_cons.mp hm).1 (by decide)
    · rw [hdrop, show (4 : Nat) = sidName.length from rfl, List.take_left]
      decide
  have hlt : start + sidName.length < start + 4 + ampKeyName.length := by
    simp [sidName, ampKeyName]
  obtain ⟨q, hq, hcut⟩ := cutParam_of_lt paramName_ampKey hmem hfirst hlt
  refine ⟨wordSize - (start + 4 + ampKeyName.length - q), ?_, ?_⟩
  · have hle := matchEnd_le paramName_ampKey hfirst
    rw [wordSize]
    omega
  · rw [keyParam, show cutParam ampKeyName 4 5 1 mem start _ = _ from hcut, Option.some_or]
    rfl

/-- The keys that a terminated string meets under a length that reaches behind it: the
string itself. -/
theorem keyKnown_terminated (hne : rows ≠ []) (hrows : ∀ a ∈ rows, a.Valid) {mem k : List UInt8}
    {p n : Nat} (hk : 0 ∉ k) (hbehind : mem.drop p = k ++ [0]) (hkn : k.length < n) :
    keyKnown (initKeypool rows) mem ⟨p, n⟩ = true ↔ KeyLoaded rows k := by
  have hl := loaded_initKeypool hne hrows
  simp only [keyKnown, List.any_eq_true, hbehind]
  constructor
  · rintro ⟨e, he, hm⟩
    rw [← (bothWays_terminated (hl.zero_notMem_key hrows e he) hk hkn).mp hm]
    exact (hl.key_iff e).mp he
  · intro h
    exact ⟨k, (hl.key_iff k).mpr h, (bothWays_terminated hk hk hkn).mpr rfl⟩

/-- **A `key` whose name is cut off by the end of the body** asks for the bytes
behind it among the loaded keys: its length has wrapped, so the comparison runs up
to the NUL, and a key that is found makes the copy fault. -/
theorem check_stray_key (hne : rows ≠ []) (hrows : ∀ a ∈ rows, a.Valid) {U k : List UInt8}
    (hU : U ≠ []) (hlen : U.length ≤ 2 ^ 60) (h2 : 2 ≤ U.length) (hU0 : 0 ∉ U)
    (hpre : PathKnown rows U []) (hk : 0 ∉ k)
    (hbody : (sidName ++ (ampKeyName ++ (k ++ [0]))).length ≤ 2 ^ 60) :
    let r := strayPost U sidName (ampKeyName ++ (k ++ [0])) [] hU hlen hbody
    (KeyLoaded rows k → (check (initKeypool rows) r).verdict = .fault) ∧
      (¬ KeyLoaded rows k → (check (initKeypool rows) r).verdict = .status 401) := by
  intro r
  obtain ⟨start, hw, hdrop, hend, hpath⟩ : ∃ start, r.window = some (⟨(encodePath U).length,
      U.length⟩, start, start + sidName.length) ∧
      r.mem.drop start = sidName ++ (ampKeyName ++ (k ++ [0])) ∧
      start + sidName.length ≤ r.mem.length ∧ U <+: r.mem.drop (encodePath U).length :=
    strayPost_window h2
  have hl := loaded_initKeypool hne hrows
  have hsid : sidParam r.mem start (start + sidName.length) = some ⟨start + 4, 0⟩ :=
    sidParam_of_start (n := 0) r.mem_lt hdrop hend
  have hknown : urisidKnown (initKeypool rows) r.mem ⟨(encodePath U).length, U.length⟩
      ⟨start + 4, 0⟩ = true :=
    (urisidKnown_iff hl hrows hpath rfl List.nil_prefix rfl hU0 (by simp)).mpr hpre
  obtain ⟨n, hn, hkey⟩ := keyParam_wrapped r.mem_lt hdrop
  have hkk : keyKnown (initKeypool rows) r.mem ⟨start + 9, n⟩ = true ↔ KeyLoaded rows k := by
    -- what the comparison reads is the string behind the body
    have hbehind : r.mem.drop (start + 9) = k ++ [0] := by
      rw [← List.drop_drop, hdrop]
      rfl
    have hkn : k.length < n := by
      simp only [List.length_append] at hbody
      omega
    exact keyKnown_terminated hne hrows hk hbehind hkn
  have hcheck : (check (initKeypool rows) r).verdict =
      if keyKnown (initKeypool rows) r.mem ⟨start + 9, n⟩ then .fault else .status 401 := by
    rw [check_of_window hw, checkWindow, hsid]
    dsimp only
    rw [if_pos hknown, hkey]
    dsimp only
    split
    · exact if_pos (.inl hn)
    · rfl
  rw [hcheck]
  exact ⟨fun h => if_pos (hkk.mpr h), fun h => if_neg fun hk => h (hkk.mp hk)⟩

/-- **An empty `sid` and an empty `key`** pass for a key that stands behind the
body, and then the bytes behind the block of the hash key choose the row. -/
theorem decisionOf_empty_params (hrows : ∀ a ∈ rows, a.Valid) {U spill : List UInt8} (hU : U ≠ [])
    (hlen : U.length ≤ 2 ^ 60) (h2 : 2 ≤ U.length) (hU0 : 0 ∉ U) (hpre : PathKnown rows U [])
    {a : Row} (ha : a ∈ rows) (hbody : (sidName ++ ampKeyName ++ a.key).length ≤ 2 ^ 60) :
    let r := strayPost U (sidName ++ ampKeyName) a.key spill hU hlen hbody
    r.decisionOf (check (initKeypool rows) r).verdict =
      match quota rows [] spill with
      | none => .status 403
      | some maxtps => .limiter U [] [] [] maxtps := by
  intro r
  obtain ⟨start, hw, hdrop, hend, hpath⟩ : ∃ start, r.window = some (⟨(encodePath U).length,
      U.length⟩, start, start + (sidName ++ ampKeyName).length) ∧
      r.mem.drop start = sidName ++ ampKeyName ++ a.key ∧
      start + (sidName ++ ampKeyName).length ≤ r.mem.length ∧
      U <+: r.mem.drop (encodePath U).length :=
    strayPost_window h2
  have hl := loaded_initKeypool (List.ne_nil_of_mem ha) hrows
  obtain ⟨hsid, hkey⟩ : sidParam r.mem start (start + (sidName ++ ampKeyName).length) =
      some ⟨start + 4, 0⟩ ∧ keyParam r.mem start (start + (sidName ++ ampKeyName).length) =
      some ⟨start + 9, 0⟩ :=
    @params_of_query r.mem [] [] [] a.key start hdrop r.mem_lt (by decide) (by decide) (by simp)
  have hknown : urisidKnown (initKeypool rows) r.mem ⟨(encodePath U).length, U.length⟩
      ⟨start + 4, 0⟩ = true :=
    (urisidKnown_iff hl hrows hpath rfl List.nil_prefix rfl hU0 (by simp)).mpr hpre
  have hkk : keyKnown (initKeypool rows) r.mem ⟨start + 9, 0⟩ = true := by
    -- an empty value matches at the head of every key
    have hbehind : r.mem.drop (start + 9) = [] ++ a.key := by
      rw [← List.drop_drop, hdrop]
      rfl
    obtain ⟨k, hk, hka⟩ := exists_keyLoaded_of_mem ha
    have hm : KeyMatches rows [] a.key := ⟨k, hk, List.nil_prefix, hka⟩
    exact (keyKnown_iff hl hrows hbehind rfl (by simp)).mpr hm
  have hbytes : r.bytes ⟨(encodePath U).length, U.length⟩ = U :=
    Request.bytes_of_prefix hpath rfl
  have hcharge : r.decisionOf (charge (initKeypool rows) r ⟨(encodePath U).length, U.length⟩
      ⟨start + 4, 0⟩ ⟨start + 9, 0⟩) = _ :=
    decisionOf_charge hl hrows (by simp) (by simp) (by simp [Request.bytes])
  rw [check_of_window hw, checkWindow, hsid]
  dsimp only
  rw [if_pos hknown, hkey]
  dsimp only
  rw [if_pos hkk, hcharge, hbytes]
  rfl

end

/-! ### The order shows -/

/-- **Every order of the rows** leads to the same decision on every request. -/
def SameInAnyOrder (rows : List Row) : Prop :=
  ∀ rows', rows'.Perm rows → ∀ r : Request, SlashPath r →
    r.decisionOf (check (initKeypool rows') r).verdict =
      r.decisionOf (check (initKeypool rows) r).verdict

section

variable {rows : List Row}

/-- The rows with any two of them in front. -/
theorem SameInAnyOrder.check_front (h : SameInAnyOrder rows) {x y : Row} (hx : x ∈ rows)
    (hy : y ∈ rows) {r : Request} (hr : SlashPath r) :
    r.decisionOf (check (initKeypool (x :: rows.erase x)) r).verdict =
      r.decisionOf (check (initKeypool (y :: rows.erase y)) r).verdict :=
  (h _ (List.perm_cons_erase hx).symm r hr).trans (h _ (List.perm_cons_erase hy).symm r hr).symm

theorem Row.Valid.front {x : Row} (hx : x ∈ rows) (hrows : ∀ a ∈ rows, a.Valid) :
    ∀ a ∈ x :: rows.erase x, a.Valid :=
  fun a ha => hrows a ((List.perm_cons_erase hx).symm.subset ha)

/-- A first row that blocks what it does not have itself. -/
theorem not_exists_split_cons {x : Row} {P Q : Row → Prop} (hP : ¬ P x) (hQ : ¬ Q x) :
    ¬ ∃ l₁ r l₂, x :: rows = l₁ ++ r :: l₂ ∧ P r ∧ ∀ y ∈ l₁, Q y := by
  rintro ⟨l₁, r, l₂, heq, hr, hno⟩
  -- the first row is the one, or it is in front of the one
  cases l₁ with
  | nil =>
    obtain ⟨rfl, -⟩ := List.cons.inj heq
    exact hP hr
  | cons y l₁ =>
    obtain ⟨rfl, -⟩ := List.cons.inj heq
    exact hQ (hno x List.mem_cons_self)

/-- The `URI ++ SID` of a row as the path of a request. -/
theorem Row.Valid.length_urisid {a : Row} (ha : a.Valid) :
    a.urisid ≠ [] ∧ 2 ≤ a.urisid.length ∧ a.urisid.length ≤ 2 ^ 60 := by
  have huri := List.length_pos_iff.mpr ha.uri.1
  have hsid := List.length_pos_iff.mpr ha.sid.1
  have huri64 := ha.uri.2.1
  have hsid6 := ha.sid.2.1
  have hlen : a.urisid.length = a.uri.length + a.sid.length := List.length_append
  refine ⟨?_, by omega, by omega⟩
  rw [← List.length_pos_iff]
  omega

/-- **A path that goes on from another one**: with the longer one in front the
shorter one is not stored. -/
theorem SameInAnyOrder.urisid (h : SameInAnyOrder rows) (hrows : ∀ a ∈ rows, a.Valid) {a b : Row}
    (ha : a ∈ rows) (hb : b ∈ rows) (hslash : b.uri.head? = some slash)
    (hpre : b.urisid <+: a.urisid) : b.urisid = a.urisid := by
  by_contra hne
  have hbv := hrows b hb
  obtain ⟨hU, h2, hlen⟩ := hbv.length_urisid
  have hr := @slashPath_strayPost b.urisid (sidName ++ [0]) [] [] hU hlen (by decide) h2
    (hbv.head?_urisid.trans hslash)
  have hstored := (check_nul_sid (List.cons_ne_nil b _) (Row.Valid.front hb hrows) hU hlen h2
    hbv.zero_notMem_urisid).1 ⟨[], b, _, rfl, rfl, by simp⟩
  have hblocked := (check_nul_sid (List.cons_ne_nil a _) (Row.Valid.front ha hrows) hU hlen h2
    hbv.zero_notMem_urisid).2 (not_exists_split_cons (Ne.symm hne) (not_not.mpr hpre))
  have heq := h.check_front hb ha hr
  rw [hstored, hblocked] at heq
  exact absurd heq (by simp [Request.decisionOf])

/-- The path of a row is known in every order. -/
theorem pathKnown_front {a x : Row} (ha : a ∈ rows) (hx : x ∈ rows) :
    PathKnown (x :: rows.erase x) a.urisid [] :=
  ⟨a, (List.perm_cons_erase hx).subset ha, by rw [List.append_nil]⟩

/-- **A key that goes on from another one**: with the shorter one in front the
longer one is not loaded. -/
theorem SameInAnyOrder.key (h : SameInAnyOrder rows) (hrows : ∀ a ∈ rows, a.Valid) {a x y : Row}
    (ha : a ∈ rows) (hslash : a.uri.head? = some slash) (hx : x ∈ rows) (hy : y ∈ rows)
    (hpre : x.key <+: y.key) : x.key = y.key := by
  by_contra hne
  have hav := hrows a ha
  obtain ⟨hU, h2, hlen⟩ := hav.length_urisid
  have hbody : (sidName ++ (ampKeyName ++ (y.key ++ [0]))).length ≤ 2 ^ 60 := by
    have := (hrows y hy).key.2.1
    simp [sidName, ampKeyName]
    omega
  have hr := @slashPath_strayPost a.urisid sidName (ampKeyName ++ (y.key ++ [0])) [] hU hlen hbody h2
    (hav.head?_urisid.trans hslash)
  have hloaded := (check_stray_key (List.cons_ne_nil y _) (Row.Valid.front hy hrows) hU hlen h2
    hav.zero_notMem_urisid (pathKnown_front ha hy) (hrows y hy).key.2.2.1 hbody).1
    ⟨[], y, _, rfl, rfl, by simp⟩
  have hblocked := (check_stray_key (List.cons_ne_nil x _) (Row.Valid.front hx hrows) hU hlen h2
    hav.zero_notMem_urisid (pathKnown_front ha hx) (hrows y hy).key.2.2.1 hbody).2
    (not_exists_split_cons hne (not_not.mpr hpre))
  have heq := h.check_front hy hx hr
  rw [hloaded, hblocked] at heq
  exact absurd heq (by simp [Request.decisionOf])

/-- The quota that the bytes behind an empty hash key choose is that of the first row,
if they start with its `KEY ++ SID`. -/
theorem quota_cons {x : Row} {spill : List UInt8} (hx : x.hashkey <+: spill) :
    quota (x :: rows) [] spill = x.rate := by
  rw [quota, List.find?_cons_of_pos (by simpa using hx)]
  rfl

/-- **A `KEY ++ SID` that goes on from another one, or is equal to it**: the row in
front grants its rate. -/
theorem SameInAnyOrder.hashkey (h : SameInAnyOrder rows) (hrows : ∀ a ∈ rows, a.Valid) {a b b' : Row}
    (ha : a ∈ rows) (hslash : a.uri.head? = some slash) (hb : b ∈ rows) (hb' : b' ∈ rows)
    (hpre : b.hashkey <+: b'.hashkey) : b.rate = b'.rate := by
  have hav := hrows a ha
  obtain ⟨hU, h2, hlen⟩ := hav.length_urisid
  have hbody : (sidName ++ ampKeyName ++ a.key).length ≤ 2 ^ 60 := by
    have := hav.key.2.1
    simp [sidName, ampKeyName]
    omega
  have hr := @slashPath_strayPost a.urisid (sidName ++ ampKeyName) a.key b'.hashkey hU hlen hbody h2
    (hav.head?_urisid.trans hslash)
  have hdecision : ∀ {x : Row}, x ∈ rows → _ := fun {x} hx =>
    @decisionOf_empty_params (x :: rows.erase x) (Row.Valid.front hx hrows) a.urisid b'.hashkey hU
      hlen h2 hav.zero_notMem_urisid (pathKnown_front ha hx) a
      ((List.perm_cons_erase hx).subset ha) hbody
  have heq := h.check_front hb hb' hr
  rw [hdecision hb, hdecision hb', quota_cons hpre, quota_cons List.prefix_rfl] at heq
  exact limiter_inj.mp heq

end

/-- **When the order of the rows does not matter.** For every result set of valid
rows: every order of them leads to the same status, or the same arguments of the
limiter, on every request, if and only if no row has a path that requests can
have, or

* among such paths no `URI ++ SID` is a proper beginning of another row's,
* no key is a proper beginning of another row's, and
* rows of which one `KEY ++ SID` is a beginning of the other, or equal to it,
  grant the same rate. -/
theorem order_free_iff {rows : List Row} (hrows : ∀ a ∈ rows, a.Valid) :
    SameInAnyOrder rows ↔ ((∃ a ∈ rows, a.uri.head? = some slash) → OrderFree rows) := by
  constructor
  · rintro h ⟨a, ha, hslash⟩
    exact ⟨fun x hx b hb => h.urisid hrows hx hb, fun x hx y hy => h.key hrows ha hslash hx hy,
      fun b hb b' hb' => h.hashkey hrows ha hslash hb hb'⟩
  · intro h rows' hp r hr
    exact check_of_orderFree hrows h hp hr

/-- Two keys that differ in their first byte. -/
theorem order_free_two_keys :
    SameInAnyOrder [⟨ascii "k1", ascii "/a", 1, ascii "1"⟩,
      ⟨ascii "m", ascii "/b", 7200, ascii "2"⟩] := by
  refine (order_free_iff ?_).mpr fun _ => ⟨?_, ?_, ?_⟩
  · simp only [List.forall_mem_cons, List.not_mem_nil, false_implies, implies_true, and_true]
    exact ⟨⟨by decide, by decide, by decide⟩, ⟨by decide, by decide, by decide⟩⟩
  all_goals decide

/-- **A key behind a shorter one.** With the row of the key `k` in front, the key
`k1` is not loaded, and `GET /a?sid=1&key=k1` is answered with `401`; with the
rows the other way round it reaches the limiter. -/
theorem order_shows :
    let k : Row := ⟨ascii "k", ascii "/a", 1, ascii "1"⟩
    let k1 : Row := ⟨ascii "k1", ascii "/a", 1, ascii "1"⟩
    let r := plainGet (ascii "GET ") (ascii "/a") (ascii "sid=1&key=k1") (ascii " HTTP/1.1\r\n") []
      (by decide)
    [k1, k].Perm [k, k1] ∧ (∀ a ∈ [k, k1], a.Valid) ∧
      (∀ a ∈ [k, k1], ∀ b ∈ [k, k1], a.key = b.key → a.sid = b.sid → a.maxtph = b.maxtph) ∧
      SlashPath r ∧ r.decisionOf (check (initKeypool [k, k1]) r).verdict = .status 401 ∧
      r.decisionOf (check (initKeypool [k1, k]) r).verdict =
        .limiter (ascii "/a") (ascii "1") (ascii "k1") (ascii "k11") 1000 := by
  intro k k1 r
  refine ⟨List.Perm.swap k k1 [], ?_, by decide, ?_, by decide +kernel, by decide +kernel⟩
  · simp only [List.forall_mem_cons, List.not_mem_nil, false_implies, implies_true, and_true]
    exact ⟨⟨by decide, by decide, by decide⟩, ⟨by decide, by decide, by decide⟩⟩
  · intro uri start last hw
    have hwindow : r.window = some (⟨4, 2⟩, 4, 19) := by decide +kernel
    rw [hwindow, Option.some.injEq, Prod.mk.injEq] at hw
    obtain ⟨rfl, -⟩ := hw
    decide +kernel

end AccessControl
