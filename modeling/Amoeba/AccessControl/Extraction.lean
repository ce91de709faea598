import Amoeba.AccessControl.Handler

/-!
# Extracted parameters and the end of the request

A parameter name is searched up to the next NUL in memory, while its value is
ended at `last`, the end of the request's own data. The two disagree when the
first match lies behind `last`: the pointer subtraction then wraps and the
stored string runs over the rest of the address space.

* `cutParam_of_le` — a match that ends by `last` yields the bytes from there to
  the next `'&'`, or to `last`.
* `cutParam_of_lt` — a match that ends behind `last` yields a wrapped length.
* `handler_stores_inside_iff` — for the whole handler, over any list of zones:
  everything it stores lies inside the request's own data exactly when the
  first match of the `sid` name, and that of the `key` name if the first zone
  gets as far as looking for it, end by `last`.
-/

namespace AccessControl

open CString Nginx

/-- The bytes of `[a, b)`. -/
def slice (mem : List UInt8) (a b : Nat) : List UInt8 := (mem.drop a).take (b - a)

theorem slice_append (mem : List UInt8) {a b c : Nat} (hab : a ≤ b) (hbc : b ≤ c) :
    slice mem a c = slice mem a b ++ slice mem b c := by
  unfold slice
  rw [show c - a = (b - a) + (c - b) by omega, List.take_add, List.drop_drop,
    show a + (b - a) = b by omega]

theorem length_slice_le (mem : List UInt8) (a b : Nat) : (slice mem a b).length ≤ mem.length :=
  ((List.take_sublist _ _).trans (List.drop_sublist _ _)).length_le

theorem length_slice {mem : List UInt8} {a b : Nat} (hb : b ≤ mem.length) :
    (slice mem a b).length = b - a := by
  unfold slice
  rw [List.length_take, List.length_drop]
  omega

/-! ### One parameter -/

/-- The end of the first match of a name from `start` on. -/
def matchEnd (name mem : List UInt8) (start : Nat) : Option Nat :=
  (ngxStrcasestrn (mem.drop start) name (name.length - 1)).map (start + · + name.length)

/-- The extraction of a parameter with this name, whose value is searched from
`off` bytes behind the start of the match. -/
structure ParamName (name : List UInt8) (off : Nat) : Prop where
  ne_nil : name ≠ []
  zero_notMem : 0 ∉ name
  off_le : off ≤ name.length
  amp_notMem : amp ∉ name.drop off

theorem paramName_sid : ParamName sidName 0 := ⟨by decide, by decide, by decide, by decide⟩
theorem paramName_key : ParamName keyName 0 := ⟨by decide, by decide, by decide, by decide⟩
theorem paramName_ampKey : ParamName ampKeyName 1 := ⟨by decide, by decide, by decide, by decide⟩

/-- A first match: where it begins, and that it lies inside the memory. -/
theorem matchEnd_eq_some {name mem : List UInt8} {off start e : Nat} (hname : ParamName name off)
    (h : matchEnd name mem start = some e) :
    ∃ k, ngxStrcasestrn (mem.drop start) name (name.length - 1) = some k ∧
      e = start + k + name.length ∧ CiMatch name (mem.drop (start + k)) ∧ e ≤ mem.length := by
  obtain ⟨k, hk, rfl⟩ := Option.map_eq_some_iff.mp h
  refine ⟨k, hk, rfl, ?_⟩
  obtain ⟨d, p, rfl⟩ := List.exists_cons_of_ne_nil hname.ne_nil
  rw [List.length_cons, Nat.add_sub_cancel] at hk
  have hm := ((ngxStrcasestrn_eq_some hname.zero_notMem).mp hk).1
  rw [List.drop_drop] at hm
  have hlen := hm.length_le
  rw [List.length_cons, List.length_drop] at hlen
  refine ⟨hm, ?_⟩
  rw [List.length_cons]
  omega

theorem matchEnd_le {name mem : List UInt8} {off start e : Nat} (hname : ParamName name off)
    (h : matchEnd name mem start = some e) : e ≤ mem.length := by
  obtain ⟨-, -, -, -, hle⟩ := matchEnd_eq_some hname h
  exact hle

/-- The bytes under a match are those of the name, up to the letter case. -/
theorem slice_of_ciMatch {name mem : List UInt8} {i off : Nat} (hm : CiMatch name (mem.drop i)) :
    (slice mem (i + off) (i + name.length)).map tolower = (name.drop off).map tolower := by
  -- letter case does not change lengths, so the match can be read off the memory
  have htake : ((mem.drop i).take name.length).map tolower = name.map tolower := by
    rw [List.map_take, show name.length = (name.map tolower).length from (List.length_map _).symm]
    exact (List.prefix_iff_eq_take.mp hm).symm
  rw [List.map_drop, ← htake, ← List.map_drop, List.drop_take, List.drop_drop, slice,
    show i + name.length - (i + off) = name.length - off by omega]

/-- The matched bytes behind the `'&'` contain no further `'&'`. -/
theorem amp_notMem_match {name mem : List UInt8} {off i : Nat} (hname : ParamName name off)
    (hm : CiMatch name (mem.drop i)) : amp ∉ slice mem (i + off) (i + name.length) := by
  intro hmem
  have hlow := List.mem_map_of_mem (f := tolower) hmem
  rw [slice_of_ciMatch hm] at hlow
  obtain ⟨c, hc, hca⟩ := List.mem_map.mp hlow
  have hcamp : c = amp := tolower_eq_amp.mp hca
  exact hname.amp_notMem (hcamp ▸ hc)

section

variable {name mem : List UInt8} {off start last e : Nat}

/-- **A match that ends by `last`** yields the bytes up to the next `'&'`. -/
theorem cutParam_of_le (hname : ParamName name off) (hmem : mem.length < 2 ^ 63)
    (hlast : last ≤ mem.length) (h : matchEnd name mem start = some e) (he : e ≤ last) :
    cutParam name (name.length - 1) name.length off mem start last =
      some ⟨e, ((slice mem e last).takeWhile (· ≠ amp)).length⟩ := by
  obtain ⟨k, hk, rfl, hm, -⟩ := matchEnd_eq_some hname h
  have hoff := hname.off_le
  have hsplit := slice_append mem (show start + k + off ≤ start + k + name.length by omega) he
  -- the name itself holds no `'&'`, so the search may start at its end
  have htw : (slice mem (start + k + off) last).takeWhile (· ≠ amp) =
      slice mem (start + k + off) (start + k + name.length) ++
        (slice mem (start + k + name.length) last).takeWhile (· ≠ amp) := by
    rw [hsplit, List.takeWhile_append_of_pos]
    intro c hc
    exact decide_eq_true fun hca => amp_notMem_match hname hm (hca ▸ hc)
  have hlen : ((slice mem (start + k + name.length) last).takeWhile (· ≠ amp)).length ≤
      last - (start + k + name.length) := by
    rw [← length_slice (a := start + k + name.length) hlast]
    exact (List.takeWhile_prefix _).length_le
  rw [cutParam, hk, Option.map_some, ngxStrlchr_getD (by omega) hlast, ← slice, htw, List.length_append,
    length_slice (by omega), sizeSub_of_le (by omega) (by unfold wordSize; omega)]
  congr 2
  omega

/-- **A match that ends behind `last`** yields a length that has wrapped. -/
theorem cutParam_of_lt (hname : ParamName name off) (hmem : mem.length < 2 ^ 63)
    (h : matchEnd name mem start = some e) (he : last < e) :
    ∃ q ≤ last, cutParam name (name.length - 1) name.length off mem start last =
      some ⟨e, wordSize - (e - q)⟩ := by
  obtain ⟨k, hk, rfl, -, hlen⟩ := matchEnd_eq_some hname h
  -- the end of the value is at most `last`, in front of its start
  have hq : (ngxStrlchr mem (start + k + off) last amp).getD last ≤ last := by
    cases hq : ngxStrlchr mem (start + k + off) last amp with
    | none => exact le_rfl
    | some q => exact (ngxStrlchr_eq_some hq).2.1.le
  refine ⟨(ngxStrlchr mem (start + k + off) last amp).getD last, hq, ?_⟩
  rw [cutParam, hk, Option.map_some, sizeSub_of_lt (by omega) (by unfold wordSize; omega)]

/-- The string lies in `[start, last)`. -/
def NgxStr.Inside (s : NgxStr) (start last : Nat) : Prop := start ≤ s.data ∧ s.data + s.len ≤ last

instance (s : NgxStr) (start last : Nat) : Decidable (s.Inside start last) :=
  inferInstanceAs (Decidable (_ ∧ _))

/-- **A value lies inside the data exactly when its name does.** -/
theorem cutParam_inside (hname : ParamName name off) (hmem : mem.length < 2 ^ 63)
    (hlast : last ≤ mem.length) {s : NgxStr}
    (h : cutParam name (name.length - 1) name.length off mem start last = some s) :
    matchEnd name mem start = some s.data ∧ (s.Inside start last ↔ s.data ≤ last) := by
  have hend : matchEnd name mem start = some s.data := by
    obtain ⟨k, hk, rfl⟩ := Option.map_eq_some_iff.mp h
    rw [matchEnd, hk]
    rfl
  refine ⟨hend, ?_⟩
  obtain ⟨k, -, hdata, -, hle⟩ := matchEnd_eq_some hname hend
  rcases le_or_gt s.data last with he | he
  · rw [cutParam_of_le hname hmem hlast hend he, Option.some.injEq] at h
    have hlen := (List.takeWhile_prefix (l := slice mem s.data last) (· ≠ amp)).length_le
    rw [length_slice hlast] at hlen
    refine iff_of_true ⟨by omega, ?_⟩ he
    rw [← h]
    dsimp only
    omega
  · -- the wrapped length reaches around the address space
    obtain ⟨q, -, hcut⟩ := cutParam_of_lt hname hmem hend he
    rw [hcut, Option.some.injEq] at h
    refine iff_of_false (fun hin => ?_) (by omega)
    have hlen : s.len = wordSize - (s.data - q) := by rw [← h]
    have h2 := hin.2
    unfold wordSize at hlen
    omega

/-- The bytes of a value whose name ends by `last`. -/
theorem cutParam_value (hname : ParamName name off) (hmem : mem.length < 2 ^ 63)
    (hlast : last ≤ mem.length) {s : NgxStr}
    (h : cutParam name (name.length - 1) name.length off mem start last = some s)
    (hs : s.data ≤ last) :
    (mem.drop s.data).take s.len = (slice mem s.data last).takeWhile (· ≠ amp) ∧
      s.len = ((slice mem s.data last).takeWhile (· ≠ amp)).length := by
  have hend := (cutParam_inside hname hmem hlast h).1
  rw [cutParam_of_le hname hmem hlast hend hs, Option.some.injEq] at h
  have hlen : s.len = ((slice mem s.data last).takeWhile (· ≠ amp)).length := by rw [← h]
  -- the value is the beginning of what stands behind the name
  have hpre : (slice mem s.data last).takeWhile (· ≠ amp) <+: mem.drop s.data :=
    (List.takeWhile_prefix _).trans (List.take_prefix _ _)
  refine ⟨?_, hlen⟩
  rw [hlen]
  exact (List.prefix_iff_eq_take.mp hpre).symm

end

theorem cutParam_eq_none (name : List UInt8) (off : Nat) {mem : List UInt8} {start last : Nat} :
    cutParam name (name.length - 1) name.length off mem start last = none ↔
      matchEnd name mem start = none := by
  unfold cutParam matchEnd
  rw [Option.map_eq_none_iff, Option.map_eq_none_iff]

/-! ### The two parameters -/

/-- Wherever `"&sid="` stands, `"sid="` stands one byte later, so the second
search for the `sid` never finds anything. -/
theorem sidParam_eq (mem : List UInt8) (start last : Nat) :
    sidParam mem start last = cutParam sidName 3 4 0 mem start last := by
  unfold sidParam
  cases hs : cutParam sidName 3 4 0 mem start last with
  | some s => rfl
  | none =>
    rw [Option.none_or]
    have hnone : ngxStrcasestrn (mem.drop start) sidName 3 = none := by
      simpa [cutParam] using hs
    have hamp : ngxStrcasestrn (mem.drop start) ampSidName 4 = none := by
      refine (ngxStrcasestrn_eq_none (p := sidName) (by decide)).mpr fun k hk => ?_
      -- the match of the longer name begins with a byte that is not NUL
      obtain ⟨c, rest, hrest⟩ : ∃ c rest, (mem.drop start).drop k = c :: rest := by
        cases hd : (mem.drop start).drop k with
        | nil =>
          rw [hd] at hk
          exact absurd hk not_ciMatch_nil
        | cons c rest => exact ⟨c, rest, rfl⟩
      rw [hrest, ciMatch_cons] at hk
      have hc : c ≠ 0 := by
        rintro rfl
        exact absurd hk.1 (by decide)
      have hnext : (mem.drop start).drop (k + 1) = rest := by
        rw [← List.drop_drop, hrest]
        rfl
      -- the match one byte later is hidden by a NUL, which then hides this one too
      have hzero := (ngxStrcasestrn_eq_none (p := sidName.tail) (by decide)).mp hnone (k + 1)
        (hnext ▸ hk.2)
      have htake : (mem.drop start).take (k + 1) = (mem.drop start).take k ++ [c] := by
        rw [List.take_add, hrest]
        rfl
      rw [htake, List.mem_append, List.mem_singleton] at hzero
      exact hzero.resolve_right hc.symm
    simp [cutParam, hamp]

/-- The end of the name by which the `key` is found. -/
def keyEnd (mem : List UInt8) (start : Nat) : Option Nat :=
  (matchEnd ampKeyName mem start).or (matchEnd keyName mem start)

section

variable {mem : List UInt8} {start last : Nat}

theorem sidParam_inside (hmem : mem.length < 2 ^ 63) (hlast : last ≤ mem.length) {s : NgxStr}
    (h : sidParam mem start last = some s) :
    matchEnd sidName mem start = some s.data ∧ (s.Inside start last ↔ s.data ≤ last) := by
  rw [sidParam_eq] at h
  exact cutParam_inside paramName_sid hmem hlast h

theorem sidParam_value (hmem : mem.length < 2 ^ 63) (hlast : last ≤ mem.length) {s : NgxStr}
    (h : sidParam mem start last = some s) (hs : s.data ≤ last) :
    (mem.drop s.data).take s.len = (slice mem s.data last).takeWhile (· ≠ amp) ∧
      s.len = ((slice mem s.data last).takeWhile (· ≠ amp)).length := by
  rw [sidParam_eq] at h
  exact cutParam_value paramName_sid hmem hlast h hs

theorem exists_sidParam (hmem : mem.length < 2 ^ 63) (hlast : last ≤ mem.length) {e : Nat}
    (h : matchEnd sidName mem start = some e) : ∃ s, sidParam mem start last = some s ∧ s.data = e := by
  cases hs : sidParam mem start last with
  | none =>
    rw [sidParam_eq] at hs
    rw [(cutParam_eq_none sidName 0).mp hs] at h
    exact absurd h (by simp)
  | some s =>
    rw [(sidParam_inside hmem hlast hs).1, Option.some.injEq] at h
    exact ⟨s, rfl, h⟩

/-- No `key` is found where neither name stands. -/
theorem keyParam_eq_none : keyParam mem start last = none ↔ keyEnd mem start = none := by
  unfold keyParam keyEnd
  rw [Option.or_eq_none_iff, Option.or_eq_none_iff]
  exact and_congr (cutParam_eq_none ampKeyName 1) (cutParam_eq_none keyName 0)

/-- Whichever of the two names it is, it ends inside the memory. -/
theorem keyEnd_le {e : Nat} (h : keyEnd mem start = some e) : e ≤ mem.length := by
  rcases Option.or_eq_some_iff.mp h with hamp | ⟨-, hkey⟩
  · exact matchEnd_le paramName_ampKey hamp
  · exact matchEnd_le paramName_key hkey

/-- By which name a `key` was found. -/
theorem keyParam_cases {s : NgxStr} (h : keyParam mem start last = some s) :
    cutParam ampKeyName 4 5 1 mem start last = some s ∨
      matchEnd ampKeyName mem start = none ∧ cutParam keyName 3 4 0 mem start last = some s := by
  rcases Option.or_eq_some_iff.mp h with hamp | ⟨hnone, hkey⟩
  · exact .inl hamp
  · exact .inr ⟨(cutParam_eq_none ampKeyName 1).mp hnone, hkey⟩

theorem keyParam_inside (hmem : mem.length < 2 ^ 63) (hlast : last ≤ mem.length) {s : NgxStr}
    (h : keyParam mem start last = some s) :
    keyEnd mem start = some s.data ∧ (s.Inside start last ↔ s.data ≤ last) := by
  rcases keyParam_cases h with hamp | ⟨hnone, hkey⟩
  · obtain ⟨hend, hin⟩ := cutParam_inside paramName_ampKey hmem hlast hamp
    exact ⟨by rw [keyEnd, hend]; rfl, hin⟩
  · rw [keyEnd, hnone, Option.none_or]
    exact cutParam_inside paramName_key hmem hlast hkey

theorem keyParam_value (hmem : mem.length < 2 ^ 63) (hlast : last ≤ mem.length) {s : NgxStr}
    (h : keyParam mem start last = some s) (hs : s.data ≤ last) :
    (mem.drop s.data).take s.len = (slice mem s.data last).takeWhile (· ≠ amp) ∧
      s.len = ((slice mem s.data last).takeWhile (· ≠ amp)).length := by
  rcases keyParam_cases h with hamp | ⟨-, hkey⟩
  · exact cutParam_value paramName_ampKey hmem hlast hamp hs
  · exact cutParam_value paramName_key hmem hlast hkey hs

theorem exists_keyParam (hmem : mem.length < 2 ^ 63) (hlast : last ≤ mem.length) {e : Nat}
    (h : keyEnd mem start = some e) : ∃ s, keyParam mem start last = some s ∧ s.data = e := by
  cases hs : keyParam mem start last with
  | none =>
    rw [keyParam_eq_none.mp hs] at h
    exact absurd h (by simp)
  | some s =>
    rw [(keyParam_inside hmem hlast hs).1, Option.some.injEq] at h
    exact ⟨s, rfl, h⟩

end

/-! ### One round of the checks -/

/-- The path, and the data that is searched for the parameters, when the checks
get as far as searching. -/
def Request.window (r : Request) : Option (NgxStr × Nat × Nat) :=
  if r.uriLen ≤ 1 then none
  else
    match r.method, r.body with
    | .post, .buffer pos last => some (postUri r, pos, last)
    | .get, _ =>
      (ngxStrlchr r.mem r.uriStart r.uriEnd question).map fun e =>
        (⟨r.uriData, e - r.uriStart⟩, r.uriData, r.uriEnd)
    | _, _ => none

/-- **What a request with data is**: a POST request with its body in memory, or a
GET request with a `'?'`. -/
theorem Request.window_cases {r : Request} {uri : NgxStr} {start last : Nat}
    (h : r.window = some (uri, start, last)) :
    ¬ r.uriLen ≤ 1 ∧
      (r.method = .post ∧ r.body = .buffer start last ∧ uri = postUri r ∨
        r.method = .get ∧ ∃ e, ngxStrlchr r.mem r.uriStart r.uriEnd question = some e ∧
          uri = ⟨r.uriData, e - r.uriStart⟩ ∧ start = r.uriData ∧ last = r.uriEnd) := by
  unfold Request.window at h
  by_cases hlen : r.uriLen ≤ 1
  · simp [hlen] at h
  rw [if_neg hlen] at h
  refine ⟨hlen, ?_⟩
  cases hm : r.method with
  | post =>
    cases hb : r.body with
    | buffer pos last' =>
      simp only [hm, hb, Option.some.injEq, Prod.mk.injEq] at h
      obtain ⟨rfl, rfl, rfl⟩ := h
      exact .inl ⟨rfl, rfl, rfl⟩
    | _ => simp [hm, hb] at h
  | get =>
    simp only [hm] at h
    obtain ⟨e, he, heq⟩ := Option.map_eq_some_iff.mp h
    simp only [Prod.mk.injEq] at heq
    obtain ⟨rfl, rfl, rfl⟩ := heq
    exact .inr ⟨rfl, e, he, rfl, rfl, rfl⟩
  | other => simp [hm] at h

/-- A round of the checks on a request with data is the common part. -/
theorem check_of_window {t : Table} {r : Request} {uri : NgxStr} {start last : Nat}
    (h : r.window = some (uri, start, last)) : check t r = checkWindow t r uri start last := by
  obtain ⟨hlen, ⟨hm, hb, rfl⟩ | ⟨hm, e, he, rfl, rfl, rfl⟩⟩ := r.window_cases h
  · rw [check, if_neg hlen, hm, hb]
  · rw [check, if_neg hlen, hm, he]

theorem window_of_buffer {r : Request} {pos last : Nat} (hpost : r.method = .post)
    (hbody : r.body = .buffer pos last) (h2 : 1 < r.uriLen) :
    r.window = some (postUri r, pos, last) := by
  unfold Request.window
  rw [if_neg (by omega), hpost, hbody]

/-- Without data a round of the checks ends in the same way for every table: it
stores nothing and does not reach the limiter. -/
theorem exists_check_of_window_none {r : Request} (h : r.window = none) :
    ∃ v, (∀ g, v ≠ .grant g) ∧ ∀ t, check t r = ⟨none, none, v⟩ := by
  unfold Request.window at h
  unfold check
  by_cases hlen : r.uriLen ≤ 1
  · exact ⟨.status 400, by simp, by simp [hlen]⟩
  simp only [if_neg hlen] at h ⊢
  cases hm : r.method with
  | post =>
    cases hb : r.body with
    | buffer pos last => simp [hm, hb] at h
    | special rc => exact ⟨.status rc, by simp, fun _ => rfl⟩
    | absent => exact ⟨.status 500, by simp, fun _ => rfl⟩
    | empty => exact ⟨.status 400, by simp, fun _ => rfl⟩
    | file => exact ⟨.fault, by simp, fun _ => rfl⟩
  | get =>
    simp only [hm, Option.map_eq_none_iff] at h
    exact ⟨.status 404, by simp, by simp [h]⟩
  | other => exact ⟨.status 405, by simp, fun _ => rfl⟩

theorem check_of_window_none {t : Table} {r : Request} (h : r.window = none) :
    (check t r).stores = [] ∧ ∀ g, (check t r).verdict ≠ .grant g := by
  obtain ⟨v, hv, hcheck⟩ := exists_check_of_window_none h
  rw [hcheck t]
  exact ⟨rfl, hv⟩

/-- The length of the undecoded path, read at the decoded one, stays in memory. -/
theorem Request.path_le {r : Request} {e : Nat}
    (he : ngxStrlchr r.mem r.uriStart r.uriEnd question = some e) :
    r.uriData + (e - r.uriStart) ≤ r.mem.length := by
  obtain ⟨h1, h2, -⟩ := ngxStrlchr_eq_some he
  have := r.uriData_le
  omega

/-- The path and the searched data lie in memory. -/
theorem Request.window_le {r : Request} {uri : NgxStr} {start last : Nat}
    (h : r.window = some (uri, start, last)) :
    last ≤ r.mem.length ∧ uri.data + uri.len ≤ r.mem.length := by
  obtain ⟨-, ⟨-, hb, rfl⟩ | ⟨-, e, he, rfl, rfl, rfl⟩⟩ := r.window_cases h
  · refine ⟨(r.body_le start last hb).2, ?_⟩
    unfold postUri
    split
    next e he => exact r.path_le he
    next => exact r.uriLen_le
  · exact ⟨r.uriEnd_le, r.path_le he⟩

/-- The `sid` is found and passes its check, so that the `key` is searched. -/
def sidPasses (t : Table) (r : Request) (uri : NgxStr) (start last : Nat) : Bool :=
  (sidParam r.mem start last).any (urisidKnown t r.mem uri)

/-- The names that a round of the checks finds end by the end of the data. -/
def NamesInside (t : Table) (r : Request) : Prop :=
  ∀ uri start last, r.window = some (uri, start, last) →
    (∀ e, matchEnd sidName r.mem start = some e → e ≤ last) ∧
      (sidPasses t r uri start last → ∀ e, keyEnd r.mem start = some e → e ≤ last)

/-- What a round stores: the `sid` when it is found, and the `key` when it is
found after the `sid` has passed. -/
theorem mem_checkWindow_stores {t : Table} {r : Request} {uri : NgxStr} {start last : Nat}
    {s : NgxStr} :
    s ∈ (checkWindow t r uri start last).stores ↔ sidParam r.mem start last = some s ∨
      (sidPasses t r uri start last ∧ keyParam r.mem start last = some s) := by
  unfold checkWindow sidPasses
  cases hsid : sidParam r.mem start last with
  | none => simp [Checked.stores]
  | some sid =>
    dsimp only
    by_cases hknown : urisidKnown t r.mem uri sid
    · rw [if_pos hknown]
      cases hkey : keyParam r.mem start last with
      | none => simp [Checked.stores, hknown, eq_comm]
      | some key =>
        dsimp only
        split <;> simp [Checked.stores, hknown, eq_comm]
    · rw [if_neg hknown]
      simp [Checked.stores, hknown, eq_comm]

/-- **One round**: what it stores lies inside the data exactly when the names
it finds do. -/
theorem check_stores_inside_iff {t : Table} {r : Request} {uri : NgxStr} {start last : Nat}
    (h : r.window = some (uri, start, last)) :
    (∀ s ∈ (check t r).stores, s.Inside start last) ↔ NamesInside t r := by
  have hlast := (r.window_le h).1
  -- the window is fixed, so the quantifiers of `NamesInside` go
  have hnames : NamesInside t r ↔ (∀ e, matchEnd sidName r.mem start = some e → e ≤ last) ∧
      (sidPasses t r uri start last → ∀ e, keyEnd r.mem start = some e → e ≤ last) := by
    constructor
    · exact fun hn => hn uri start last h
    · intro hn uri' start' last' h'
      rw [h, Option.some.injEq, Prod.mk.injEq, Prod.mk.injEq] at h'
      obtain ⟨rfl, rfl, rfl⟩ := h'
      exact hn
  rw [check_of_window h, hnames]
  simp only [mem_checkWindow_stores]
  constructor
  · intro hall
    refine ⟨fun e he => ?_, fun hpass e he => ?_⟩
    · obtain ⟨s, hs, rfl⟩ := exists_sidParam r.mem_lt hlast he
      exact (sidParam_inside r.mem_lt hlast hs).2.mp (hall s (Or.inl hs))
    · obtain ⟨s, hs, rfl⟩ := exists_keyParam r.mem_lt hlast he
      exact (keyParam_inside r.mem_lt hlast hs).2.mp (hall s (Or.inr ⟨hpass, hs⟩))
  · rintro ⟨hsid, hkey⟩ s (hs | ⟨hpass, hs⟩)
    · obtain ⟨hend, hin⟩ := sidParam_inside r.mem_lt hlast hs
      exact hin.mpr (hsid _ hend)
    · obtain ⟨hend, hin⟩ := keyParam_inside r.mem_lt hlast hs
      exact hin.mpr (hkey hpass _ hend)

/-! ### The whole handler -/

/-- A zone that lets the request through has stored both parameters, so that a
later zone stores nothing else. -/
theorem check_stores_of_grant {t t' : Table} {r : Request} {g : Grant}
    (h : (check t r).verdict = .grant g) : ∀ s ∈ (check t' r).stores, s ∈ (check t r).stores := by
  cases hw : r.window with
  | none => exact absurd h ((check_of_window_none hw).2 g)
  | some w =>
    obtain ⟨uri, start, last⟩ := w
    -- a grant has passed the path check, and `sidPasses` is all the key search waits for
    have hpass : sidPasses t r uri start last := by
      rw [check_of_window hw] at h
      unfold checkWindow at h
      unfold sidPasses
      cases hsid : sidParam r.mem start last with
      | none => simp [hsid] at h
      | some sid =>
        by_contra hno
        simp only [Option.any_some, Bool.not_eq_true] at hno
        simp [hsid, hno] at h
    intro s
    rw [check_of_window hw, check_of_window hw, mem_checkWindow_stores, mem_checkWindow_stores]
    exact Or.imp_right fun hs => ⟨hpass, hs.2⟩

/-- The loop over the zones stores what its first round stores. -/
theorem mem_zoneLoop_stores (A : Arith) (r : Request) (before : List Slot) (s : Slot)
    (rest : List Slot) (v : NgxStr) :
    v ∈ (zoneLoop A r before (s :: rest)).stores ↔ v ∈ (check s.limit.table r).stores := by
  -- on the zones; a later zone runs only after this one granted the request
  induction rest generalizing before s with
  | nil =>
    rw [zoneLoop]
    dsimp only
    cases hv : (check s.limit.table r).verdict with
    | grant g =>
      dsimp only
      cases (lookup A s.zone (s.query g ([] : List Slot).isEmpty)).rc <;> rfl
    | _ => rfl
  | cons s' rest ih =>
    rw [zoneLoop]
    dsimp only
    cases hv : (check s.limit.table r).verdict with
    | grant g =>
      dsimp only
      cases (lookup A s.zone (s.query g (s' :: rest).isEmpty)).rc with
      | again =>
        dsimp only
        rw [List.mem_append, ih]
        exact ⟨fun h => h.elim id (check_stores_of_grant hv v), Or.inl⟩
      | _ => rfl
    | _ => rfl

/-- Neither the roll-back nor the accounting writes to the request. -/
theorem handler_stores_eq (A : Arith) (statusCode : Nat) (readEventOk : Bool) (r : Request)
    (slots : List Slot) :
    (handler A statusCode readEventOk r slots).stores =
      if r.accessControlSet then [] else (zoneLoop A r [] slots).stores := by
  unfold handler
  split
  · rfl
  · dsimp only
    cases (zoneLoop A r [] slots).stop with
    | left rc excess maxtps nodelay =>
      dsimp only
      split <;> rfl
    | _ => rfl

/-- The request's own data: the request target of a GET request, the first
buffer of the body of a POST request. -/
def Request.own (r : Request) : Nat × Nat :=
  match r.method, r.body with
  | .post, .buffer pos last => (pos, last)
  | _, _ => (r.uriStart, r.uriEnd)

theorem Request.own_of_window {r : Request} (hplain : r.method = .get → r.Plain) {uri : NgxStr}
    {start last : Nat} (h : r.window = some (uri, start, last)) : r.own = (start, last) := by
  obtain ⟨-, ⟨hm, hb, -⟩ | ⟨hm, e, -, -, rfl, rfl⟩⟩ := r.window_cases h
  · rw [own, hm, hb]
  · rw [own, hm, hplain hm]

/-- **What the handler stores lies inside the request's own data exactly when
the names it finds do.** The request is a POST request or a GET request with a
plain target; the zones, their states and the memory behind the data are
arbitrary. The key name matters only where the `sid` passes the first zone. -/
theorem handler_stores_inside_iff (A : Arith) (statusCode : Nat) (readEventOk : Bool)
    (r : Request) (slots : List Slot) (hplain : r.method = .get → r.Plain) :
    (∀ v ∈ (handler A statusCode readEventOk r slots).stores, v.Inside r.own.1 r.own.2) ↔
      (r.accessControlSet = true ∨ ∀ s ∈ slots.head?, NamesInside s.limit.table r) := by
  rw [handler_stores_eq]
  cases hset : r.accessControlSet with
  | true => simp
  | false =>
    cases slots with
    | nil => simp [zoneLoop]
    | cons s rest =>
      simp only [Bool.false_eq_true, if_false, false_or, mem_zoneLoop_stores, List.head?_cons,
        Option.mem_some_iff, forall_eq']
      cases hw : r.window with
      | none => simp [(check_of_window_none hw).1, NamesInside, hw]
      | some w =>
        obtain ⟨uri, start, last⟩ := w
        rw [r.own_of_window hplain hw]
        exact check_stores_inside_iff hw

/-! ### Two requests -/

/-- A GET request with a plain target `path?args`, between other bytes of its
buffer. -/
def plainGet (before path args rest spill : List UInt8)
    (h : (before ++ path ++ [question] ++ args ++ rest).length < 2 ^ 63) : Request where
  accessControlSet := false
  method := .get
  mem := before ++ path ++ [question] ++ args ++ rest
  uriData := before.length
  uriLen := path.length
  uriStart := before.length
  uriEnd := before.length + path.length + 1 + args.length
  body := .absent
  spill := spill
  mem_lt := h
  uri_le := by omega
  uriEnd_le := by simp; omega
  uriData_le := by simp; omega
  uriLen_le := by simp
  body_le := by simp

/-- A zone in its initial state, for a request at time `0`. -/
def freshSlot (t : Table) (burst : Nat) : Slot where
  limit := { table := t, burst := burst, nodelay := false }
  zone := Zone.initial
  node := none
  now := 0
  later := 0
  meets := 0
  alloc := true
  realloc := true

/-- The usual request: both names stand in the target. -/
theorem handler_stores_inside_usual :
    let r := plainGet (ascii "GET ") (ascii "/a") (ascii "sid=1&key=k") (ascii " HTTP/1.1\r\n") []
      (by decide)
    let t := initKeypool [⟨ascii "k", ascii "/a", 1, ascii "1"⟩]
    (handler (.word 64) 503 true r [freshSlot t 1]).stores = [⟨11, 1⟩, ⟨17, 1⟩] ∧
      ∀ s ∈ [freshSlot t 1].head?, NamesInside s.limit.table r := by
  intro r t
  have hstores : (handler (.word 64) 503 true r [freshSlot t 1]).stores = [⟨11, 1⟩, ⟨17, 1⟩] := by
    decide +kernel
  refine ⟨hstores, ?_⟩
  have hiff := handler_stores_inside_iff (.word 64) 503 true r [freshSlot t 1] fun _ => rfl
  refine (hiff.mp ?_).resolve_left (by decide)
  rw [hstores]
  decide

/-- **A match behind the request line.** The target has no `sid`; the first one
in the buffer is the name of a header line that the header parser skipped as
invalid and left as it is. The handler stores a string that starts behind the
target and whose length has wrapped. -/
theorem handler_stores_outside_stray_header :
    let r := plainGet (ascii "GET ") (ascii "/a") (ascii "x=1")
      (ascii " HTTP/1.1\r\nsid=1: y\r\nHost: h\r\n\r\n") [] (by decide)
    let t := initKeypool [⟨ascii "k", ascii "/a", 1, ascii "1"⟩]
    r.Plain ∧ r.own = (4, 10) ∧
      (handler (.word 64) 503 true r [freshSlot t 1]).stores = [⟨25, 2 ^ 64 - 15⟩] ∧
      ¬ ∀ v ∈ (handler (.word 64) 503 true r [freshSlot t 1]).stores, v.Inside r.own.1 r.own.2 := by
  intro r t
  have hstores : (handler (.word 64) 503 true r [freshSlot t 1]).stores =
      [⟨25, 2 ^ 64 - 15⟩] := by
    decide +kernel
  refine ⟨rfl, rfl, hstores, ?_⟩
  rw [hstores]
  decide

end AccessControl
