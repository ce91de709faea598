import Amoeba.AccessControl.Extraction
import Amoeba.Nginx.Arguments

/-!
# The parameters of the query string

The handler searches for `"sid="`, `"&key="` and `"key="` from `r->uri.data`, or
from the beginning of the body, up to the next NUL. It does not look at where a
component of the query string begins: the path, other parameters, what stands
behind the request line, and for a complex target the bytes behind the decoded
path are all searched alike.

* `ParsesQuery` — the handler takes the `sid` and the `key` from the first
  components with these names, and refuses the request when there are none.
  These are the parameters that the server's own `ngx_http_arg` would yield.
* `NamesMeet` — the searches come upon these components, or upon other bytes
  with the same value behind them.
* `parses_query_iff` — the former holds exactly when the latter does.
-/

namespace AccessControl

open CString Nginx QueryString

/-! ### The query string of a request -/

/-- `"sid"` -/
def sidWord : List UInt8 := [0x73, 0x69, 0x64]

/-- `"key"` -/
def keyWord : List UInt8 := [0x6b, 0x65, 0x79]

theorem name_sidWord : arguments.Name sidWord := ⟨by decide, by decide⟩
theorem name_keyWord : arguments.Name keyWord := ⟨by decide, by decide⟩

/-- The query string: what stands behind the first `'?'` of the target of a GET
request, the body of a POST request that is in memory. -/
def Request.query (r : Request) : Option (List UInt8) :=
  match r.method, r.body with
  | .post, .buffer pos last => some (slice r.mem pos last)
  | .post, .empty => some []
  | .get, _ =>
    (ngxStrlchr r.mem r.uriStart r.uriEnd question).map fun e => slice r.mem (e + 1) r.uriEnd
  | _, _ => none

/-- Where the query string begins, when the request is searched at all. -/
def Request.queryStart (r : Request) : Nat :=
  match r.method, r.body with
  | .post, .buffer pos _ => pos
  | _, _ => (ngxStrlchr r.mem r.uriStart r.uriEnd question).elim r.uriEnd (· + 1)

/-- These bytes are what the string of the request points at. -/
def Request.Holds (r : Request) (s : NgxStr) (v : List UInt8) : Prop :=
  s.len = v.length ∧ r.bytes s = v

instance (r : Request) (s : NgxStr) (v : List UInt8) : Decidable (r.Holds s v) :=
  inferInstanceAs (Decidable (_ ∧ _))

/-- The zone knows the path of the request with this `sid`, so that its `key` is
looked for. -/
def Admits (t : Table) (r : Request) (v : List UInt8) : Prop :=
  1 < r.uriLen ∧ t.urisidarray.any fun e =>
    strncmp e (r.mem.drop (postUri r).data) (postUri r).len = 0 ∧
      strncmp (e.drop (postUri r).len) v v.length = 0

instance (t : Table) (r : Request) (v : List UInt8) : Decidable (Admits t r v) :=
  inferInstanceAs (Decidable (_ ∧ _))

/-- **Extraction is parsing of the query string** `q`, for a call of the handler
whose first zone has the arrays `t`. A request for the root path is refused before
anything is extracted, and a `key` is extracted only behind a `sid` that has passed. -/
structure ParsesQuery (t : Table) (r : Request) (q : List UInt8) (h : Handled) : Prop where
  sid : ∀ v, arguments.lookup sidWord q = some v → 1 < r.uriLen →
    ∃ a more, h.stores = a :: more ∧ r.Holds a v
  noSid : arguments.lookup sidWord q = none → h.outcome = .status 400 ∧ h.stores = []
  key : ∀ v w, arguments.lookup sidWord q = some v → Admits t r v →
    arguments.lookup keyWord q = some w → ∃ a b more, h.stores = a :: b :: more ∧ r.Holds b w
  noKey : ∀ v, arguments.lookup sidWord q = some v → Admits t r v →
    arguments.lookup keyWord q = none → h.outcome = .status 401 ∧ ∃ a, h.stores = [a]

/-- The query string stands in the memory of the request. -/
theorem Request.query_eq_slice {r : Request} {q : List UInt8} (hq : r.query = some q) :
    ∃ a b, q = slice r.mem a b := by
  unfold Request.query at hq
  cases hm : r.method with
  | post =>
    cases hb : r.body with
    | buffer pos last =>
      simp only [hm, hb, Option.some.injEq] at hq
      exact ⟨pos, last, hq.symm⟩
    | empty =>
      simp only [hm, hb, Option.some.injEq] at hq
      -- an empty body is an empty slice
      refine ⟨0, 0, hq.symm.trans ?_⟩
      rw [slice, Nat.sub_self, List.take_zero]
    | _ => simp [hm, hb] at hq
  | get =>
    simp only [hm] at hq
    obtain ⟨e, -, rfl⟩ := Option.map_eq_some_iff.mp hq
    exact ⟨e + 1, r.uriEnd, rfl⟩
  | other => simp [hm] at hq

/-- The parameters are what the server's own `ngx_http_arg` yields for the query
string. -/
theorem ngxHttpArg_query {r : Request} {q : List UInt8} (hq : r.query = some q)
    {word : List UInt8} (hword : word = sidWord ∨ word = keyWord) :
    (ngxHttpArg q word 0).map (fun v => (q.drop v.1).take v.2) = arguments.lookup word q := by
  -- no query string is long enough for the arithmetic of `ngx_http_arg` to wrap
  have hlen : q.length < wordSize := by
    obtain ⟨a, b, rfl⟩ := r.query_eq_slice hq
    calc (slice r.mem a b).length
        _ ≤ r.mem.length := length_slice_le r.mem a b
        _ < 2 ^ 63 := r.mem_lt
        _ < wordSize := by decide
  rcases hword with rfl | rfl
  · exact ngxHttpArg_eq name_sidWord (by decide) (by decide) hlen
  · exact ngxHttpArg_eq name_keyWord (by decide) (by decide) hlen

/-! ### The places of the names -/

/-- The first place from `start` on where a name stands, with no NUL before it. -/
structure FirstAt (name mem : List UInt8) (start i : Nat) : Prop where
  le : start ≤ i
  stands : CiMatch name (mem.drop i)
  first : ∀ j, start ≤ j → j < i → ¬ CiMatch name (mem.drop j)
  zero_notMem : 0 ∉ slice mem start i

/-- The place of the `key` name: behind the first `'&'` in front of one, else the
first one at all. -/
def KeyAt (mem : List UInt8) (start k : Nat) : Prop :=
  (∃ i, FirstAt ampKeyName mem start i ∧ k = i + 1) ∨
    (∀ i, ¬ FirstAt ampKeyName mem start i) ∧ FirstAt keyName mem start k

/-- The bytes from `e` to the next `'&'`, or to `last`. -/
def valueAt (mem : List UInt8) (e last : Nat) : List UInt8 :=
  (slice mem e last).takeWhile (· ≠ amp)

/-- A search comes upon the component that begins at `c`: the place it finds is
the component's own, or is followed by the same value. -/
def ComesUpon (found : Nat → Prop) (mem : List UInt8) (last c : Nat) : Prop :=
  ∃ i, found i ∧ (i = c ∨ i + 4 ≤ last ∧ valueAt mem (i + 4) last = valueAt mem (c + 4) last)

/-- A search in `[qs, last)` comes upon the first component with a name, and finds
nothing when there is no such component. -/
structure Meets (found : Nat → Prop) (word mem : List UInt8) (qs last : Nat) : Prop where
  comesUpon : ∀ p, arguments.FirstNamedAt word (slice mem qs last) p →
    ComesUpon found mem last (qs + p)
  nothing : (∀ p, ¬ arguments.NamedAt word (slice mem qs last) p) → ∀ i, ¬ found i

/-- **Where the names stand**: both searches come upon their components. The one
for the `key` matters where the zone admits the `sid`. -/
structure NamesMeet (t : Table) (r : Request) (start last : Nat) : Prop where
  sid : Meets (FirstAt sidName r.mem start) sidWord r.mem r.queryStart last
  key : ∀ v, arguments.lookup sidWord (slice r.mem r.queryStart last) = some v → Admits t r v →
    Meets (KeyAt r.mem start) keyWord r.mem r.queryStart last

/-! ### From places to values -/

theorem matchEnd_eq_some_iff {name mem : List UInt8} {off start e : Nat}
    (hname : ParamName name off) :
    matchEnd name mem start = some e ↔ ∃ i, FirstAt name mem start i ∧ e = i + name.length := by
  obtain ⟨d, p, rfl⟩ := List.exists_cons_of_ne_nil hname.ne_nil
  unfold matchEnd
  rw [List.length_cons, Nat.add_sub_cancel, Option.map_eq_some_iff]
  constructor
  · rintro ⟨k, hk, rfl⟩
    -- what the search guarantees, moved from the rest of the memory to all of it
    obtain ⟨hm, hfirst, hzero⟩ := (ngxStrcasestrn_eq_some hname.zero_notMem).mp hk
    rw [List.drop_drop] at hm
    refine ⟨start + k, ⟨by omega, hm, ?_, ?_⟩, rfl⟩
    · intro j hj hjk
      obtain ⟨j', rfl⟩ := Nat.exists_eq_add_of_le hj
      have hno := hfirst j' (by omega)
      rwa [List.drop_drop] at hno
    · rwa [slice, Nat.add_sub_cancel_left]
  · rintro ⟨i, hi, rfl⟩
    obtain ⟨k, rfl⟩ := Nat.exists_eq_add_of_le hi.le
    refine ⟨k, (ngxStrcasestrn_eq_some hname.zero_notMem).mpr ⟨?_, ?_, ?_⟩, rfl⟩
    · rw [List.drop_drop]
      exact hi.stands
    · intro j hj
      rw [List.drop_drop]
      exact hi.first (start + j) (by omega) (by omega)
    · have hzero := hi.zero_notMem
      rwa [slice, Nat.add_sub_cancel_left] at hzero

theorem matchEnd_eq_none_iff {name mem : List UInt8} {off start : Nat}
    (hname : ParamName name off) :
    matchEnd name mem start = none ↔ ∀ i, ¬ FirstAt name mem start i := by
  rw [Option.eq_none_iff_forall_ne_some]
  constructor
  · intro hnone i hi
    exact hnone _ ((matchEnd_eq_some_iff hname).mpr ⟨i, hi, rfl⟩)
  · intro hno e he
    obtain ⟨i, hi, -⟩ := (matchEnd_eq_some_iff hname).mp he
    exact hno i hi

theorem keyEnd_eq_some_iff {mem : List UInt8} {start e : Nat} :
    keyEnd mem start = some e ↔ ∃ k, KeyAt mem start k ∧ e = k + 4 := by
  unfold keyEnd KeyAt
  rw [Option.or_eq_some_iff, matchEnd_eq_some_iff paramName_ampKey,
    matchEnd_eq_none_iff paramName_ampKey, matchEnd_eq_some_iff paramName_key]
  constructor
  · rintro (⟨i, hi, rfl⟩ | ⟨hno, i, hi, rfl⟩)
    · exact ⟨i + 1, .inl ⟨i, hi, rfl⟩, rfl⟩
    · exact ⟨i, .inr ⟨hno, hi⟩, rfl⟩
  · rintro ⟨k, ⟨i, hi, rfl⟩ | ⟨hno, hi⟩, rfl⟩
    · exact .inl ⟨i, hi, rfl⟩
    · exact .inr ⟨hno, k, hi, rfl⟩

/-! ### One search -/

/-- What a search leaves: a string behind the place of the name, with the value
that stands there, or with a wrapped length when that place is too far behind. -/
structure Finds (r : Request) (last : Nat) (param : Option NgxStr) (found : Nat → Prop) : Prop where
  place : ∀ s, param = some s → ∃ i, found i ∧ s.data = i + 4
  exists_of_found : ∀ i, found i → ∃ s, param = some s ∧ s.data = i + 4
  value : ∀ s, param = some s → s.data ≤ last → r.Holds s (valueAt r.mem s.data last)
  wraps : ∀ s, param = some s → last < s.data → 2 ^ 63 ≤ s.len

theorem cutParam_wraps {name mem : List UInt8} {off start last : Nat} (hname : ParamName name off)
    (hmem : mem.length < 2 ^ 63) (hlast : last ≤ mem.length) {s : NgxStr}
    (h : cutParam name (name.length - 1) name.length off mem start last = some s)
    (hs : last < s.data) : 2 ^ 63 ≤ s.len := by
  have hend := (cutParam_inside hname hmem hlast h).1
  have hle := matchEnd_le hname hend
  -- the length is the distance to the value, taken the wrong way round
  obtain ⟨q, -, hcut⟩ := cutParam_of_lt hname hmem hend hs
  rw [hcut, Option.some.injEq] at h
  have hlen : s.len = wordSize - (s.data - q) := by rw [← h]
  unfold wordSize at hlen
  omega

section

variable {r : Request} {last : Nat}

theorem finds_sid (start : Nat) (hlast : last ≤ r.mem.length) :
    Finds r last (sidParam r.mem start last) (FirstAt sidName r.mem start) where
  place s hs := by
    exact (matchEnd_eq_some_iff paramName_sid).mp (sidParam_inside r.mem_lt hlast hs).1
  exists_of_found i hi := by
    exact exists_sidParam r.mem_lt hlast ((matchEnd_eq_some_iff paramName_sid).mpr ⟨i, hi, rfl⟩)
  value s hs hle := (sidParam_value r.mem_lt hlast hs hle).symm
  wraps s hs hlt := by
    rw [sidParam_eq] at hs
    exact cutParam_wraps paramName_sid r.mem_lt hlast hs hlt

theorem finds_key (start : Nat) (hlast : last ≤ r.mem.length) :
    Finds r last (keyParam r.mem start last) (KeyAt r.mem start) where
  place s hs := keyEnd_eq_some_iff.mp (keyParam_inside r.mem_lt hlast hs).1
  exists_of_found i hi := exists_keyParam r.mem_lt hlast (keyEnd_eq_some_iff.mpr ⟨i, hi, rfl⟩)
  value s hs hle := (keyParam_value r.mem_lt hlast hs hle).symm
  wraps s hs hlt := by
    rcases keyParam_cases hs with hamp | ⟨-, hkey⟩
    · exact cutParam_wraps paramName_ampKey r.mem_lt hlast hamp hlt
    · exact cutParam_wraps paramName_key r.mem_lt hlast hkey hlt

variable {param : Option NgxStr} {found : Nat → Prop}

/-- A string has a value exactly when the value stands behind the place found. -/
theorem Finds.exists_holds_iff (h : Finds r last param found) {v : List UInt8}
    (hv : v.length < 2 ^ 63) :
    (∃ s, param = some s ∧ r.Holds s v) ↔
      ∃ i, found i ∧ i + 4 ≤ last ∧ valueAt r.mem (i + 4) last = v := by
  constructor
  · rintro ⟨s, hs, hlen, hbytes⟩
    obtain ⟨i, hi, hdata⟩ := h.place s hs
    -- a wrapped length is the length of no value
    have hle : s.data ≤ last := by
      by_contra hlt
      have hwrap := h.wraps s hs (by omega)
      omega
    refine ⟨i, hi, by omega, ?_⟩
    rw [← hdata, ← hbytes]
    exact (h.value s hs hle).2.symm
  · rintro ⟨i, hi, hle, rfl⟩
    obtain ⟨s, hs, hdata⟩ := h.exists_of_found i hi
    refine ⟨s, hs, ?_⟩
    rw [← hdata]
    exact h.value s hs (by omega)

theorem Finds.eq_none_iff (h : Finds r last param found) : param = none ↔ ∀ i, ¬ found i := by
  rw [Option.eq_none_iff_forall_ne_some]
  constructor
  · intro hnone i hi
    obtain ⟨s, hs, -⟩ := h.exists_of_found i hi
    exact hnone s hs
  · intro hno s hs
    obtain ⟨i, hi, -⟩ := h.place s hs
    exact hno i hi

end

section

variable {word mem : List UInt8} {qs last : Nat}

theorem length_valueAt_le (mem : List UInt8) (e last : Nat) :
    (valueAt mem e last).length ≤ mem.length := by
  calc (valueAt mem e last).length
      _ ≤ (slice mem e last).length := (List.takeWhile_prefix _).length_le
      _ ≤ mem.length := length_slice_le mem e last

/-- A parameter of the bytes `[qs, last)` by its position in memory. -/
theorem lookup_slice_iff (hname : arguments.Name word) (hlen : word.length = 3) {v : List UInt8} :
    arguments.lookup word (slice mem qs last) = some v ↔
      ∃ p, arguments.FirstNamedAt word (slice mem qs last) p ∧
        v = valueAt mem (qs + p + 4) last := by
  -- a name has three letters, and its sign is the fourth byte
  have hdrop : ∀ p, (slice mem qs last).drop (p + word.length + 1) =
      slice mem (qs + p + 4) last := by
    intro p
    rw [slice, slice, List.drop_take, List.drop_drop, hlen, Nat.sub_sub]
    congr 2
  rw [Dialect.lookup_eq_some_iff hname]
  constructor
  · rintro ⟨p, hp, rfl⟩
    exact ⟨p, hp, by rw [hdrop]; rfl⟩
  · rintro ⟨p, hp, rfl⟩
    exact ⟨p, hp, by rw [hdrop]; rfl⟩

/-- A component with a name has room for the name and the sign. -/
theorem namedAt_slice_le (hlen : word.length = 3) {p : Nat}
    (h : arguments.NamedAt word (slice mem qs last) p) : qs + p + 4 ≤ last := by
  have hle := h.heads.length_le
  rw [List.length_map, List.length_map, List.length_append, List.length_singleton, hlen,
    List.length_drop, slice, List.length_take] at hle
  omega

/-- **One search**: it yields the parameter exactly when it comes upon it. -/
theorem Finds.meets_iff {r : Request} {param : Option NgxStr} {found : Nat → Prop}
    (h : Finds r last param found) (qs : Nat) (hname : arguments.Name word)
    (hlen : word.length = 3) :
    Meets found word r.mem qs last ↔
      (∀ v, arguments.lookup word (slice r.mem qs last) = some v →
        ∃ s, param = some s ∧ r.Holds s v) ∧
      (arguments.lookup word (slice r.mem qs last) = none → param = none) := by
  have hshort : ∀ e, (valueAt r.mem e last).length < 2 ^ 63 := by
    intro e
    exact (length_valueAt_le r.mem e last).trans_lt r.mem_lt
  constructor
  · rintro ⟨hcomes, hnothing⟩
    constructor
    · intro v hv
      obtain ⟨p, hp, rfl⟩ := (lookup_slice_iff hname hlen).mp hv
      refine (h.exists_holds_iff (hshort _)).mpr ?_
      -- the component itself, or other bytes with its value behind them
      obtain ⟨i, hi, rfl | ⟨hle, heq⟩⟩ := hcomes p hp
      · exact ⟨qs + p, hi, namedAt_slice_le hlen hp.toNamedAt, rfl⟩
      · exact ⟨i, hi, hle, heq⟩
    · intro hnone
      exact h.eq_none_iff.mpr (hnothing ((Dialect.lookup_eq_none_iff hname).mp hnone))
  · rintro ⟨hsome, hnone⟩
    constructor
    · intro p hp
      -- the parameter is the value of its first component
      have hv := hsome _ ((lookup_slice_iff hname hlen).mpr ⟨p, hp, rfl⟩)
      obtain ⟨i, hi, hle, heq⟩ := (h.exists_holds_iff (hshort _)).mp hv
      exact ⟨i, hi, .inr ⟨hle, heq⟩⟩
    · intro hno
      exact h.eq_none_iff.mp (hnone ((Dialect.lookup_eq_none_iff hname).mpr hno))

end

/-! ### The first round of the handler -/

/-- What is searched, and where its query string begins. -/
theorem Request.query_of_window {r : Request} {uri : NgxStr} {start last : Nat}
    (h : r.window = some (uri, start, last)) :
    1 < r.uriLen ∧ uri = postUri r ∧ r.query = some (slice r.mem r.queryStart last) := by
  -- a POST request with a buffer, or a GET request with a question mark
  obtain ⟨hlen, ⟨hm, hb, rfl⟩ | ⟨hm, e, he, rfl, rfl, rfl⟩⟩ := r.window_cases h
  · refine ⟨by omega, rfl, ?_⟩
    rw [Request.query, Request.queryStart, hm, hb]
  · refine ⟨by omega, ?_, ?_⟩
    · rw [postUri, he]
    · rw [Request.query, Request.queryStart, hm, he]
      rfl

/-- A request with a query string that is not searched: its path is the root, or
its body is empty. -/
theorem Request.query_of_window_none {r : Request} {q : List UInt8} (h : r.window = none)
    (hq : r.query = some q) :
    (r.uriLen ≤ 1 ∨ q = []) ∧ ∀ t, check t r = ⟨none, none, .status 400⟩ := by
  by_cases hlen : r.uriLen ≤ 1
  · refine ⟨.inl hlen, ?_⟩
    intro t
    rw [check, if_pos hlen]
  unfold Request.window at h
  unfold Request.query at hq
  rw [if_neg hlen] at h
  cases hm : r.method with
  | post =>
    cases hb : r.body with
    | buffer pos last => simp [hm, hb] at h
    | empty =>
      simp only [hm, hb, Option.some.injEq] at hq
      refine ⟨.inr hq.symm, ?_⟩
      intro t
      rw [check, if_neg hlen, hm, hb]
    | _ => simp [hm, hb] at hq
  -- a GET request without a question mark has no query string
  | get =>
    simp only [hm, Option.map_eq_none_iff] at h
    simp [hm, h] at hq
  | other => simp [hm] at hq

/-- The path check compares the bytes of the `sid` and nothing behind them. -/
theorem admits_iff {t : Table} {r : Request} {a : NgxStr} {v : List UInt8} (hlen : 1 < r.uriLen)
    (h : r.Holds a v) : Admits t r v ↔ urisidKnown t r.mem (postUri r) a = true := by
  obtain ⟨hl, hb⟩ := h
  -- the bytes of the string are the value, and the comparison takes no more of them
  have hcmp : ∀ e, strncmp e v v.length = strncmp e (r.mem.drop a.data) a.len := by
    intro e
    rw [← hl, ← hb]
    exact compareBy_take id e (r.mem.drop a.data) a.len
  unfold Admits urisidKnown
  simp only [hcmp]
  exact and_iff_right hlen

section

variable {A : Arith} {statusCode : Nat} {readEventOk : Bool} {r : Request} {s : Slot}
  {rest : List Slot}

/-- The handler stores what its first round stores, and then what later rounds do. -/
theorem exists_handler_stores (hset : r.accessControlSet = false) :
    ∃ more, (handler A statusCode readEventOk r (s :: rest)).stores =
      (check s.limit.table r).stores ++ more := by
  rw [handler_stores_eq, hset, if_neg Bool.false_ne_true, zoneLoop]
  -- the loop goes on when the limiter asks for another round, and stops otherwise
  dsimp only
  cases (check s.limit.table r).verdict with
  | grant g =>
    dsimp only
    cases (lookup A s.zone (s.query g rest.isEmpty)).rc with
    | again =>
      cases rest with
      | nil => exact ⟨[], (List.append_nil _).symm⟩
      | cons s' rest => exact ⟨_, rfl⟩
    | _ => exact ⟨[], (List.append_nil _).symm⟩
  | _ => exact ⟨[], (List.append_nil _).symm⟩

/-- A status of the first round is what the handler returns. -/
theorem handler_of_status (hset : r.accessControlSet = false) {c : Checked} {code : Nat}
    (hc : check s.limit.table r = c) (hv : c.verdict = .status code) :
    (handler A statusCode readEventOk r (s :: rest)).outcome = .status code ∧
      (handler A statusCode readEventOk r (s :: rest)).stores = c.stores := by
  subst hc
  -- the loop ends in its first round
  have hloop : zoneLoop A r [] (s :: rest) =
      { before := [], after := s :: rest, stores := (check s.limit.table r).stores
        stop := .returned code } := by
    rw [zoneLoop]
    dsimp only
    rw [hv]
  unfold handler
  rw [hset, if_neg Bool.false_ne_true, hloop]
  exact ⟨rfl, rfl⟩

end

/-! ### The whole handler -/

section

variable {A : Arith} {statusCode : Nat} {readEventOk : Bool} {r : Request} {s : Slot}
  {rest : List Slot} {start last : Nat}

theorem handler_of_no_sid (hset : r.accessControlSet = false)
    (hw : r.window = some (postUri r, start, last)) (hsid : sidParam r.mem start last = none) :
    (handler A statusCode readEventOk r (s :: rest)).outcome = .status 400 ∧
      (handler A statusCode readEventOk r (s :: rest)).stores = [] := by
  have hcheck := check_of_window (t := s.limit.table) hw
  rw [checkWindow, hsid] at hcheck
  exact handler_of_status hset hcheck rfl

theorem handler_of_sid (hset : r.accessControlSet = false)
    (hw : r.window = some (postUri r, start, last)) {a : NgxStr}
    (hsid : sidParam r.mem start last = some a) :
    ∃ more, (handler A statusCode readEventOk r (s :: rest)).stores = a :: more := by
  obtain ⟨more, hmore⟩ := exists_handler_stores (A := A) hset
  -- the `sid` is stored before it is compared with anything
  have hfirst : (checkWindow s.limit.table r (postUri r) start last).requestSid = some a := by
    unfold checkWindow
    rw [hsid]
    dsimp only
    split
    · cases keyParam r.mem start last with
      | none => rfl
      | some b =>
        dsimp only
        split <;> rfl
    · rfl
  rw [check_of_window hw, Checked.stores, hfirst] at hmore
  exact ⟨_, hmore⟩

theorem handler_of_no_key (hset : r.accessControlSet = false)
    (hw : r.window = some (postUri r, start, last)) {a : NgxStr}
    (hsid : sidParam r.mem start last = some a)
    (hknown : urisidKnown s.limit.table r.mem (postUri r) a = true)
    (hkey : keyParam r.mem start last = none) :
    (handler A statusCode readEventOk r (s :: rest)).outcome = .status 401 ∧
      (handler A statusCode readEventOk r (s :: rest)).stores = [a] := by
  have hcheck := check_of_window (t := s.limit.table) hw
  rw [checkWindow, hsid] at hcheck
  dsimp only at hcheck
  rw [if_pos hknown, hkey] at hcheck
  exact handler_of_status hset hcheck rfl

theorem handler_of_key (hset : r.accessControlSet = false)
    (hw : r.window = some (postUri r, start, last)) {a b : NgxStr}
    (hsid : sidParam r.mem start last = some a)
    (hknown : urisidKnown s.limit.table r.mem (postUri r) a = true)
    (hkey : keyParam r.mem start last = some b) :
    ∃ more, (handler A statusCode readEventOk r (s :: rest)).stores = a :: b :: more := by
  obtain ⟨more, hmore⟩ := exists_handler_stores (A := A) hset
  -- the `key` is stored before it is compared, whatever comes of it
  have hboth : (checkWindow s.limit.table r (postUri r) start last).stores = [a, b] := by
    unfold checkWindow
    rw [hsid]
    dsimp only
    rw [if_pos hknown, hkey]
    dsimp only
    split <;> rfl
  rw [check_of_window hw, hboth] at hmore
  exact ⟨more, hmore⟩

/-- The first value that is stored is the one the search for the `sid` yields. -/
theorem sid_stored_iff (hset : r.accessControlSet = false)
    (hw : r.window = some (postUri r, start, last)) {v : List UInt8} :
    (∃ a more, (handler A statusCode readEventOk r (s :: rest)).stores = a :: more ∧
      r.Holds a v) ↔ ∃ a, sidParam r.mem start last = some a ∧ r.Holds a v := by
  constructor
  · rintro ⟨a, more, hstores, hholds⟩
    cases hp : sidParam r.mem start last with
    | none =>
      -- without a `sid` nothing is stored
      rw [(handler_of_no_sid hset hw hp).2] at hstores
      exact absurd hstores (by simp)
    | some a' =>
      obtain ⟨more', hmore⟩ := handler_of_sid hset hw hp
      rw [hmore] at hstores
      rw [(List.cons.inj hstores).1]
      exact ⟨a, rfl, hholds⟩
  · rintro ⟨a, ha, hholds⟩
    obtain ⟨more, hmore⟩ := handler_of_sid hset hw ha
    exact ⟨a, more, hmore, hholds⟩

theorem sid_refused_iff (hset : r.accessControlSet = false)
    (hw : r.window = some (postUri r, start, last)) :
    ((handler A statusCode readEventOk r (s :: rest)).outcome = .status 400 ∧
      (handler A statusCode readEventOk r (s :: rest)).stores = []) ↔
      sidParam r.mem start last = none := by
  constructor
  · rintro ⟨-, hstores⟩
    cases hp : sidParam r.mem start last with
    | none => rfl
    | some a =>
      obtain ⟨more, hmore⟩ := handler_of_sid hset hw hp
      rw [hstores] at hmore
      exact absurd hmore (by simp)
  · exact handler_of_no_sid hset hw

/-- Behind a `sid` that has passed, the second value is the one the search for the `key`
yields. -/
theorem key_stored_iff (hset : r.accessControlSet = false)
    (hw : r.window = some (postUri r, start, last)) {a : NgxStr}
    (ha : sidParam r.mem start last = some a)
    (hknown : urisidKnown s.limit.table r.mem (postUri r) a = true) {w : List UInt8} :
    (∃ a' b more, (handler A statusCode readEventOk r (s :: rest)).stores = a' :: b :: more ∧
      r.Holds b w) ↔ ∃ b, keyParam r.mem start last = some b ∧ r.Holds b w := by
  constructor
  · rintro ⟨a', b, more, hstores, hholds⟩
    cases hp : keyParam r.mem start last with
    | none =>
      -- without a `key` the `sid` is all that is stored
      rw [(handler_of_no_key hset hw ha hknown hp).2] at hstores
      exact absurd hstores (by simp)
    | some b' =>
      obtain ⟨more', hmore⟩ := handler_of_key hset hw ha hknown hp
      rw [hmore] at hstores
      rw [(List.cons.inj (List.cons.inj hstores).2).1]
      exact ⟨b, rfl, hholds⟩
  · rintro ⟨b, hb, hholds⟩
    obtain ⟨more, hmore⟩ := handler_of_key hset hw ha hknown hb
    exact ⟨a, b, more, hmore, hholds⟩

theorem key_refused_iff (hset : r.accessControlSet = false)
    (hw : r.window = some (postUri r, start, last)) {a : NgxStr}
    (ha : sidParam r.mem start last = some a)
    (hknown : urisidKnown s.limit.table r.mem (postUri r) a = true) :
    ((handler A statusCode readEventOk r (s :: rest)).outcome = .status 401 ∧
      ∃ a', (handler A statusCode readEventOk r (s :: rest)).stores = [a']) ↔
      keyParam r.mem start last = none := by
  constructor
  · rintro ⟨-, a', hstores⟩
    cases hp : keyParam r.mem start last with
    | none => rfl
    | some b =>
      obtain ⟨more, hmore⟩ := handler_of_key hset hw ha hknown hp
      rw [hstores] at hmore
      exact absurd hmore (by simp)
  · intro hp
    obtain ⟨h401, hstores⟩ := handler_of_no_key hset hw ha hknown hp
    exact ⟨h401, a, hstores⟩

/-- **The handler and its two searches.** It parses the query string exactly when
both searches yield the parameters. -/
theorem parsesQuery_iff_params (hset : r.accessControlSet = false)
    (hw : r.window = some (postUri r, start, last)) {q : List UInt8} :
    ParsesQuery s.limit.table r q (handler A statusCode readEventOk r (s :: rest)) ↔
      ((∀ v, arguments.lookup sidWord q = some v →
          ∃ a, sidParam r.mem start last = some a ∧ r.Holds a v) ∧
        (arguments.lookup sidWord q = none → sidParam r.mem start last = none)) ∧
      ∀ v, arguments.lookup sidWord q = some v → Admits s.limit.table r v →
        (∀ w, arguments.lookup keyWord q = some w →
          ∃ b, keyParam r.mem start last = some b ∧ r.Holds b w) ∧
        (arguments.lookup keyWord q = none → keyParam r.mem start last = none) := by
  have hlen := (Request.query_of_window hw).1
  constructor
  · intro h
    -- the `sid` first, as the path check depends on it
    have hsid : ∀ v, arguments.lookup sidWord q = some v →
        ∃ a, sidParam r.mem start last = some a ∧ r.Holds a v :=
      fun v hv => (sid_stored_iff hset hw).mp (h.sid v hv hlen)
    refine ⟨⟨hsid, fun hnone => (sid_refused_iff hset hw).mp (h.noSid hnone)⟩, ?_⟩
    intro v hv hadmits
    obtain ⟨a, ha, hholds⟩ := hsid v hv
    -- the check of the path has the bytes of the `sid`, so it admits both or neither
    have hknown := (admits_iff hlen hholds).mp hadmits
    constructor
    · intro w hkw
      exact (key_stored_iff hset hw ha hknown).mp (h.key v w hv hadmits hkw)
    · intro hnone
      exact (key_refused_iff hset hw ha hknown).mp (h.noKey v hv hadmits hnone)
  · rintro ⟨⟨hsid, hno⟩, hkey⟩
    refine ⟨?_, ?_, ?_, ?_⟩
    · intro v hv _
      exact (sid_stored_iff hset hw).mpr (hsid v hv)
    · intro hnone
      exact (sid_refused_iff hset hw).mpr (hno hnone)
    · intro v w hv hadmits hkw
      obtain ⟨a, ha, hholds⟩ := hsid v hv
      have hknown := (admits_iff hlen hholds).mp hadmits
      exact (key_stored_iff hset hw ha hknown).mpr ((hkey v hv hadmits).1 w hkw)
    · intro v hv hadmits hnone
      obtain ⟨a, ha, hholds⟩ := hsid v hv
      have hknown := (admits_iff hlen hholds).mp hadmits
      exact (key_refused_iff hset hw ha hknown).mpr ((hkey v hv hadmits).2 hnone)

/-- A request that is not searched is refused as one without a `sid`. -/
theorem parsesQuery_of_window_none (hset : r.accessControlSet = false) (hw : r.window = none)
    {q : List UInt8} (hq : r.query = some q) :
    ParsesQuery s.limit.table r q (handler A statusCode readEventOk r (s :: rest)) := by
  obtain ⟨hwhy, hcheck⟩ := r.query_of_window_none hw hq
  -- so there is no `sid`, or the path is the root
  have hno : ∀ v, arguments.lookup sidWord q = some v → ¬ 1 < r.uriLen := by
    intro v hv hlen
    obtain rfl := hwhy.resolve_left (by omega)
    have hnone : arguments.lookup sidWord [] = none := by decide
    rw [hnone] at hv
    exact absurd hv (by simp)
  refine ⟨?_, ?_, ?_, ?_⟩
  · intro v hv hlen
    exact absurd hlen (hno v hv)
  · intro _
    exact handler_of_status hset (hcheck s.limit.table) rfl
  · intro v w hv hadmits _
    exact absurd hadmits.1 (hno v hv)
  · intro v hv hadmits _
    exact absurd hadmits.1 (hno v hv)

end

/-- **When extraction is parsing of the query string.** For every call of the
handler that gets to its first zone, and every request with a query string: the
arrays, the zones and their states, the target and the bytes around the request
are arbitrary. -/
theorem parses_query_iff (A : Arith) (statusCode : Nat) (readEventOk : Bool) (r : Request)
    (s : Slot) (rest : List Slot) (q : List UInt8) (hset : r.accessControlSet = false)
    (hq : r.query = some q) :
    ParsesQuery s.limit.table r q (handler A statusCode readEventOk r (s :: rest)) ↔
      ∀ uri start last, r.window = some (uri, start, last) →
        NamesMeet s.limit.table r start last := by
  cases hw : r.window with
  | none =>
    refine iff_of_true (parsesQuery_of_window_none hset hw hq) ?_
    intro uri start last h
    exact absurd h (by simp)
  | some w =>
    obtain ⟨uri, start, last⟩ := w
    obtain ⟨-, rfl, hquery⟩ := Request.query_of_window hw
    -- the query string is what is searched, up to its end
    obtain rfl : slice r.mem r.queryStart last = q := by
      rwa [hquery, Option.some.injEq] at hq
    have hlast := (r.window_le hw).1
    have hsid := (finds_sid start hlast).meets_iff r.queryStart name_sidWord rfl
    have hkey := (finds_key start hlast).meets_iff r.queryStart name_keyWord rfl
    rw [parsesQuery_iff_params hset hw, ← hsid, ← hkey]
    constructor
    · rintro ⟨hs, hk⟩ uri' start' last' h
      rw [Option.some.injEq, Prod.mk.injEq, Prod.mk.injEq] at h
      obtain ⟨-, rfl, rfl⟩ := h
      exact ⟨hs, hk⟩
    · intro h
      obtain ⟨hs, hk⟩ := h _ _ _ rfl
      exact ⟨hs, hk⟩

/-! ### Four requests -/

/-- The usual request: the names stand nowhere but in their components. -/
theorem names_meet_usual :
    let r := plainGet (ascii "GET ") (ascii "/a") (ascii "SID=1&x=2&key=k") (ascii " HTTP/1.1\r\n")
      [] (by decide)
    let t := initKeypool [⟨ascii "k", ascii "/a", 1, ascii "1"⟩]
    (handler (.word 64) 503 true r [freshSlot t 1]).stores = [⟨11, 1⟩, ⟨21, 1⟩] ∧
      ∀ uri start last, r.window = some (uri, start, last) → NamesMeet t r start last := by
  intro r t
  have hq : r.query = some (ascii "SID=1&x=2&key=k") := by decide +kernel
  have hstores : (handler (.word 64) 503 true r [freshSlot t 1]).stores = [⟨11, 1⟩, ⟨21, 1⟩] := by
    decide +kernel
  refine ⟨hstores, ?_⟩
  refine (parses_query_iff (.word 64) 503 true r (freshSlot t 1) [] _ rfl hq).mp ?_
  have hsid : arguments.lookup sidWord (ascii "SID=1&x=2&key=k") = some (ascii "1") := by decide
  have hkey : arguments.lookup keyWord (ascii "SID=1&x=2&key=k") = some (ascii "k") := by decide
  refine ⟨?_, by simp [hsid], ?_, by simp [hkey]⟩
  · intro v hv _
    obtain rfl := Option.some.inj (hsid.symm.trans hv)
    exact ⟨_, _, hstores, by decide⟩
  · intro v w _ _ hw
    obtain rfl := Option.some.inj (hkey.symm.trans hw)
    exact ⟨_, _, _, hstores, by decide⟩

/-- A GET request whose target has a quoted path: the decoded path stands in a block
of its own, which ends in bytes that nobody wrote. -/
def quotedGet : Request where
  accessControlSet := false
  method := .get
  mem := ascii "GET /%61?sid=1&key=k HTTP/1.1\r\n" ++ ascii "/a" ++ List.replicate 14 0
  uriData := 31
  uriLen := 2
  uriStart := 4
  uriEnd := 20
  body := .absent
  spill := []
  mem_lt := by decide
  uri_le := by decide
  uriEnd_le := by decide
  uriData_le := by decide
  uriLen_le := by decide
  body_le := by simp

/-- A GET request where another parameter's name ends in `sid`. -/
def prefixedGet : Request :=
  plainGet (ascii "GET ") (ascii "/a") (ascii "xsid=1&sid=2&key=k") (ascii " HTTP/1.1\r\n") []
    (by decide)

/-- A GET request with two keys, of which the first one begins the query string. -/
def twoKeysGet : Request :=
  plainGet (ascii "GET ") (ascii "/a") (ascii "key=k&sid=2&key=j") (ascii " HTTP/1.1\r\n") []
    (by decide)

/-- **Extraction is not parsing.** The value of `xsid` is taken for the `sid`; the
`key` is the one behind the first `'&'` and not the first one; and a request with
a quoted path is refused for want of a `sid` it has. -/
theorem not_parses_query :
    let t := initKeypool [⟨ascii "k", ascii "/a", 1, ascii "2"⟩]
    let h := fun r => handler (.word 64) 503 true r [freshSlot t 1]
    (arguments.lookup sidWord (ascii "xsid=1&sid=2&key=k") = some (ascii "2") ∧
      (h prefixedGet).stores.map prefixedGet.bytes = [ascii "1"] ∧
      ¬ ParsesQuery t prefixedGet (ascii "xsid=1&sid=2&key=k") (h prefixedGet)) ∧
    (arguments.lookup keyWord (ascii "key=k&sid=2&key=j") = some (ascii "k") ∧
      (h twoKeysGet).stores.map twoKeysGet.bytes = [ascii "2", ascii "j"] ∧
      ¬ ParsesQuery t twoKeysGet (ascii "key=k&sid=2&key=j") (h twoKeysGet)) ∧
    (arguments.lookup sidWord (ascii "sid=1&key=k") = some (ascii "1") ∧
      (h quotedGet).outcome = .status 400 ∧ (h quotedGet).stores = [] ∧
      ¬ ParsesQuery t quotedGet (ascii "sid=1&key=k") (h quotedGet)) ∧
    prefixedGet.query = some (ascii "xsid=1&sid=2&key=k") ∧
    twoKeysGet.query = some (ascii "key=k&sid=2&key=j") ∧
    quotedGet.query = some (ascii "sid=1&key=k") := by
  intro t h
  refine ⟨?_, ?_, ?_, by decide +kernel, by decide +kernel, by decide +kernel⟩
  · have hsid : arguments.lookup sidWord (ascii "xsid=1&sid=2&key=k") = some (ascii "2") := by
      decide
    have hstores : (h prefixedGet).stores = [⟨12, 1⟩] := by decide +kernel
    refine ⟨hsid, by rw [hstores]; decide, ?_⟩
    intro hp
    obtain ⟨a, more, ha, hholds⟩ := hp.sid _ hsid (by decide)
    rw [hstores] at ha
    rw [← (List.cons.inj ha).1] at hholds
    exact absurd hholds (by decide)
  · have hsid : arguments.lookup sidWord (ascii "key=k&sid=2&key=j") = some (ascii "2") := by
      decide
    have hkey : arguments.lookup keyWord (ascii "key=k&sid=2&key=j") = some (ascii "k") := by
      decide
    have hstores : (h twoKeysGet).stores = [⟨17, 1⟩, ⟨23, 1⟩] := by decide +kernel
    refine ⟨hkey, by rw [hstores]; decide, ?_⟩
    intro hp
    obtain ⟨a, b, more, hab, hholds⟩ := hp.key _ _ hsid (by decide +kernel) hkey
    rw [hstores] at hab
    rw [← (List.cons.inj (List.cons.inj hab).2).1] at hholds
    exact absurd hholds (by decide)
  · have hsid : arguments.lookup sidWord (ascii "sid=1&key=k") = some (ascii "1") := by decide
    have hstores : (h quotedGet).stores = [] := by decide +kernel
    refine ⟨hsid, by decide +kernel, hstores, ?_⟩
    intro hp
    obtain ⟨a, more, ha, -⟩ := hp.sid _ hsid (by decide)
    rw [hstores] at ha
    exact absurd ha (by simp)

end AccessControl
