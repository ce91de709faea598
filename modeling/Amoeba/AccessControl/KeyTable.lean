import Amoeba.Nginx.String

/-!
# The key tables of the access-control module

`ngx_http_limit_init_keypool` runs one query when an `access_control`
directive is parsed and turns its rows `(KEY, URI, MAXTPH, SID)` into three
arrays of the zone's context:

* `keyarray` — the keys, de-duplicated;
* `urisidarray` — the concatenations `URI ++ SID`, de-duplicated;
* `hashkeyarray` — the concatenations `KEY ++ SID` with their hash and quota,
  one for each row.

De-duplication is by one-sided prefix comparison, so what an array holds
depends on the order of the rows. `Loaded` states what survives the load, and
`loaded_initKeypool` proves it of every non-empty result set; the third array
is the row list itself.

The database driver is outside the repository. What the load relies on is the
form in which a fetched row arrives: a character column is padded with blanks
to the size of its buffer (`define`).
-/

namespace AccessControl

open CString Nginx

/-- The byte that pads a fetched character column. -/
def blank : UInt8 := 0x20

/-- One row of the authorization query. -/
structure Row where
  key : List UInt8
  uri : List UInt8
  maxtph : Int
  sid : List UInt8
  deriving DecidableEq, Repr

/-- A column value as the load can represent it: present, and free of the NUL
and the blank that end it in the buffers. -/
def Row.FieldOk (width : Nat) (s : List UInt8) : Prop :=
  s ≠ [] ∧ s.length ≤ width ∧ 0 ∉ s ∧ blank ∉ s

instance (width : Nat) (s : List UInt8) : Decidable (Row.FieldOk width s) :=
  inferInstanceAs (Decidable (_ ∧ _ ∧ _ ∧ _))

/-- The columns of a row respect the table's column types. -/
structure Row.Valid (r : Row) : Prop where
  key : Row.FieldOk 32 r.key
  uri : Row.FieldOk 64 r.uri
  sid : Row.FieldOk 6 r.sid

/-- The string of a row in `hashkeyarray`. -/
def Row.hashkey (r : Row) : List UInt8 := r.key ++ r.sid

/-- The string of a row in `urisidarray`. -/
def Row.urisid (r : Row) : List UInt8 := r.uri ++ r.sid

/-! ### Loading -/

/-- `ngx_hash_keylimit_t`: the fetch buffers, and a row cut out of them. -/
structure KeyLimit where
  key : List UInt8
  uri : List UInt8
  sid : List UInt8
  maxtps : Int

/-- `ngx_hash_key_t` as the module fills it. -/
structure HashKey where
  key : List UInt8
  keyHash : Nat
  value : Int

/-- The three arrays of `ngx_http_access_control_ctx_t`. -/
structure Table where
  keyarray : List (List UInt8)
  urisidarray : List (List UInt8)
  hashkeyarray : List HashKey

/-- A character column as the driver writes it into a buffer of `n` bytes. -/
def padBlank (n : Nat) (s : List UInt8) : List UInt8 := s ++ List.replicate (n - s.length) blank

/-- The fetch buffers after a row has been fetched. -/
def define (r : Row) : KeyLimit where
  key := padBlank 33 r.key
  uri := padBlank 65 r.uri
  sid := padBlank 7 r.sid
  maxtps := r.maxtph

/-- The fetch buffers as `ngx_pcalloc` leaves them when no row was fetched. -/
def zeroed : KeyLimit where
  key := List.replicate 33 0
  uri := List.replicate 65 0
  sid := List.replicate 7 0
  maxtps := 0

/-- The first `n` bytes of a buffer up to the first blank. -/
def upToBlank (n : Nat) (buf : List UInt8) : List UInt8 := (buf.take n).takeWhile (· ≠ blank)

/-- `keylimit`: the three columns cut out of the fetch buffers. -/
def cutOut (temp : KeyLimit) : KeyLimit where
  key := upToBlank 33 temp.key
  uri := upToBlank 65 temp.uri
  sid := upToBlank 7 temp.sid
  maxtps := temp.maxtps

/-- The key is skipped when some stored key compares equal over its own length. -/
def keySeen (keys : List (List UInt8)) (key : List UInt8) : Bool :=
  keys.any fun e => strncmp e key e.length = 0

/-- The pair is skipped when some stored string starts with URI and then SID. -/
def urisidSeen (urisids : List (List UInt8)) (uri sid : List UInt8) : Bool :=
  urisids.any fun e =>
    strncmp e uri uri.length = 0 ∧ strncmp (e.drop uri.length) sid sid.length = 0

/-- One round of the row loop: append to each array what it does not have. -/
def loadRow (t : Table) (temp : KeyLimit) : Table :=
  let k := cutOut temp
  { keyarray := if keySeen t.keyarray k.key then t.keyarray else t.keyarray ++ [k.key]
    -- the second comparison starts where the URI ends, on a byte boundary that
    -- the stored string does not record
    urisidarray :=
      if urisidSeen t.urisidarray k.uri k.sid then t.urisidarray
      else t.urisidarray ++ [k.uri ++ k.sid]
    hashkeyarray := t.hashkeyarray ++
      [{ key := k.key ++ k.sid, keyHash := ngxHashKeyLc (k.key ++ k.sid), value := k.maxtps }] }

/-- The contents of the fetch buffers in successive rounds of the loop. The
first round runs before any fetch has been checked, so an empty result set
still loads one row of zeroed buffers. -/
def fetches : List Row → List KeyLimit
  | [] => [zeroed]
  | r :: rows => (r :: rows).map define

/-- `ngx_http_limit_init_keypool`, from the first fetch on. -/
def initKeypool (rows : List Row) : Table :=
  (fetches rows).foldl loadRow { keyarray := [], urisidarray := [], hashkeyarray := [] }

/-! ### What one round does to a valid row -/

theorem upToBlank_padBlank {n : Nat} {s : List UInt8} (hs : blank ∉ s) (hn : s.length < n) :
    upToBlank n (padBlank n s) = s := by
  have hlen : (padBlank n s).length = n := by simp [padBlank]; omega
  -- the padding begins with a blank, where the cut stops
  have hpad : List.replicate (n - s.length) blank
      = blank :: List.replicate (n - s.length - 1) blank := by
    rw [← List.replicate_succ]
    congr 1
    omega
  unfold upToBlank
  rw [List.take_of_length_le (by omega), padBlank, hpad, List.takeWhile_append_of_pos,
    List.takeWhile_cons_of_neg (by simp), List.append_nil]
  intro c hc
  exact decide_eq_true fun h => hs (h ▸ hc)

/-- The columns of a valid row are cut out as they were stored. -/
theorem cutOut_define {r : Row} (hr : r.Valid) :
    cutOut (define r) = ⟨r.key, r.uri, r.sid, r.maxtph⟩ := by
  unfold cutOut define
  rw [upToBlank_padBlank hr.key.2.2.2 (by have := hr.key.2.1; omega),
    upToBlank_padBlank hr.uri.2.2.2 (by have := hr.uri.2.1; omega),
    upToBlank_padBlank hr.sid.2.2.2 (by have := hr.sid.2.1; omega)]

/-- The entry a row leaves in `hashkeyarray`. -/
def Row.entry (r : Row) : HashKey where
  key := r.hashkey
  keyHash := ngxHashKeyLc r.hashkey
  value := r.maxtph

/-- Two consecutive bounded comparisons ask for the concatenation at the head. -/
theorem strncmp_pair {e u v U S : List UInt8} (he : 0 ∉ e) (hU : 0 ∉ U) (hS : 0 ∉ S)
    (hu : U <+: u) (hv : S <+: v) :
    (strncmp e u U.length = 0 ∧ strncmp (e.drop U.length) v S.length = 0) ↔ U ++ S <+: e := by
  rw [strncmp_stretch he hU hu,
    strncmp_stretch (fun h => he (List.mem_of_mem_drop h)) hS hv]
  constructor
  · rintro ⟨⟨t, rfl⟩, hS'⟩
    rw [List.drop_left] at hS'
    exact List.prefix_append_right_inj U |>.mpr hS'
  · rintro ⟨t, rfl⟩
    exact ⟨⟨S ++ t, by simp⟩, ⟨t, by simp⟩⟩

theorem keySeen_iff {keys : List (List UInt8)} {key : List UInt8} (hk : ∀ e ∈ keys, 0 ∉ e) :
    keySeen keys key = true ↔ ∃ e ∈ keys, e <+: key := by
  simp only [keySeen, List.any_eq_true, decide_eq_true_eq]
  refine exists_congr fun e => and_congr_right fun he => ?_
  exact strncmp_length (hk e he)

theorem urisidSeen_iff {us : List (List UInt8)} {uri sid : List UInt8} (hus : ∀ e ∈ us, 0 ∉ e)
    (huri : 0 ∉ uri) (hsid : 0 ∉ sid) :
    urisidSeen us uri sid = true ↔ ∃ e ∈ us, uri ++ sid <+: e := by
  simp only [urisidSeen, List.any_eq_true, decide_eq_true_eq]
  refine exists_congr fun e => and_congr_right fun he => ?_
  exact strncmp_pair (hus e he) huri hsid List.prefix_rfl List.prefix_rfl

/-! ### What the whole load leaves in the arrays -/

/-- `k` survives the load: its first row comes before every row whose key is a
proper beginning of `k`. -/
def KeyLoaded (rows : List Row) (k : List UInt8) : Prop :=
  ∃ l₁ r l₂, rows = l₁ ++ r :: l₂ ∧ r.key = k ∧ ∀ x ∈ l₁, ¬ x.key <+: k

/-- A row that none before it blocks, in a list with one more row at its end. -/
theorem exists_split_append {rows : List Row} {r : Row} {P Q : Row → Prop} :
    (∃ l₁ x l₂, rows ++ [r] = l₁ ++ x :: l₂ ∧ P x ∧ ∀ y ∈ l₁, Q y) ↔
      (∃ l₁ x l₂, rows = l₁ ++ x :: l₂ ∧ P x ∧ ∀ y ∈ l₁, Q y) ∨ (P r ∧ ∀ y ∈ rows, Q y) := by
  constructor
  · -- the row is the last one, or stands before it
    rintro ⟨l₁, x, l₂, heq, hx, hno⟩
    rcases List.eq_nil_or_concat' l₂ with rfl | ⟨l₂, z, rfl⟩
    · obtain ⟨rfl, hr⟩ := List.append_inj' heq rfl
      obtain rfl : r = x := by simpa using hr
      exact Or.inr ⟨hx, hno⟩
    · have heq' : rows ++ [r] = (l₁ ++ x :: l₂) ++ [z] := by simpa using heq
      exact Or.inl ⟨l₁, x, l₂, (List.append_inj' heq' rfl).1, hx, hno⟩
  · rintro (⟨l₁, x, l₂, rfl, hx, hno⟩ | ⟨hr, hno⟩)
    · exact ⟨l₁, x, l₂ ++ [r], by simp, hx, hno⟩
    · exact ⟨rows, r, [], rfl, hr, hno⟩

/-- Appending a row loads its key exactly when no earlier row's key heads it. -/
theorem keyLoaded_append {rows : List Row} {r : Row} {k : List UInt8} :
    KeyLoaded (rows ++ [r]) k ↔
      KeyLoaded rows k ∨ (r.key = k ∧ ∀ x ∈ rows, ¬ x.key <+: k) :=
  exists_split_append

/-- A loaded key is the key of some row. -/
theorem KeyLoaded.exists_row {rows : List Row} {k : List UInt8} (h : KeyLoaded rows k) :
    ∃ r ∈ rows, r.key = k := by
  obtain ⟨l₁, r, l₂, rfl, hk, -⟩ := h
  exact ⟨r, by simp, hk⟩

/-- Below every row's key there is a loaded one: the first row whose key heads
it is loaded. -/
theorem exists_keyLoaded_of_mem {rows : List Row} {r : Row} (hr : r ∈ rows) :
    ∃ k, KeyLoaded rows k ∧ k <+: r.key := by
  -- rows are loaded in order, so the induction appends at the end
  induction rows using List.reverseRecOn with
  | nil => simp at hr
  | append_singleton rows x ih =>
    rcases List.mem_append.mp hr with hmem | hmem
    · obtain ⟨k, hk, hpre⟩ := ih hmem
      exact ⟨k, keyLoaded_append.mpr (Or.inl hk), hpre⟩
    · obtain rfl : r = x := by simpa using hmem
      by_cases hex : ∃ y ∈ rows, y.key <+: r.key
      · -- an earlier row's key heads it; the first such key is loaded and heads it too
        classical
        obtain ⟨l₁, y, l₂, hsplit, hy, hfirst⟩ : ∃ l₁ y l₂, rows = l₁ ++ y :: l₂ ∧
            y.key <+: r.key ∧ ∀ x ∈ l₁, ¬ x.key <+: r.key := by
          obtain ⟨y₀, hy₀, hpre₀⟩ := hex
          have hfind : (rows.find? fun y => decide (y.key <+: r.key)).isSome := by
            rw [List.find?_isSome]
            exact ⟨y₀, hy₀, by simpa using hpre₀⟩
          obtain ⟨y, hy⟩ := Option.isSome_iff_exists.mp hfind
          obtain ⟨hpy, l₁, l₂, hsplit, hfirst⟩ := List.find?_eq_some_iff_append.mp hy
          exact ⟨l₁, y, l₂, hsplit, by simpa using hpy, fun x hx => by simpa using hfirst x hx⟩
        refine ⟨y.key, keyLoaded_append.mpr (Or.inl ⟨l₁, y, l₂, hsplit, rfl, ?_⟩), hy⟩
        exact fun x hx hxy => hfirst x hx (hxy.trans hy)
      · push Not at hex
        exact ⟨r.key, keyLoaded_append.mpr (Or.inr ⟨rfl, hex⟩), List.prefix_rfl⟩

/-- What the three arrays hold after the rows have been loaded. -/
structure Loaded (rows : List Row) (t : Table) : Prop where
  /-- A key is stored when it survives the prefix de-duplication. -/
  key_iff : ∀ k, k ∈ t.keyarray ↔ KeyLoaded rows k
  /-- Every stored `URI ++ SID` is that of a row. -/
  urisid_row : ∀ e ∈ t.urisidarray, ∃ r ∈ rows, e = r.urisid
  /-- Every row's `URI ++ SID` is stored or heads a stored one. -/
  urisid_covered : ∀ r ∈ rows, ∃ e ∈ t.urisidarray, r.urisid <+: e
  /-- The quota array is the row list. -/
  hashkey_eq : t.hashkeyarray = rows.map Row.entry

theorem Row.Valid.zero_notMem_urisid {r : Row} (hr : r.Valid) : 0 ∉ r.urisid := by
  simp [Row.urisid, hr.uri.2.2.1, hr.sid.2.2.1]

theorem Row.Valid.zero_notMem_hashkey {r : Row} (hr : r.Valid) : 0 ∉ r.hashkey := by
  simp [Row.hashkey, hr.key.2.2.1, hr.sid.2.2.1]

/-- What an array gets that is extended only by what no row blocks. -/
theorem mem_append_unless {l : List (List UInt8)} {x : List UInt8} {seen : Bool}
    {rows : List Row} (Blocks : Row → List UInt8 → Prop)
    (hseen : seen = true ↔ ∃ r ∈ rows, Blocks r x) (e : List UInt8) :
    e ∈ (if seen then l else l ++ [x]) ↔ e ∈ l ∨ (x = e ∧ ∀ r ∈ rows, ¬ Blocks r e) := by
  by_cases hs : seen = true
  · rw [if_pos hs]
    refine ⟨Or.inl, fun hor => hor.resolve_right ?_⟩
    rintro ⟨rfl, hno⟩
    obtain ⟨r, hr, hblocks⟩ := hseen.mp hs
    exact hno r hr hblocks
  · rw [if_neg hs, List.mem_append, List.mem_singleton]
    refine or_congr_right ⟨?_, fun h => h.1.symm⟩
    rintro rfl
    exact ⟨rfl, fun r hr hblocks => hs (hseen.mpr ⟨r, hr, hblocks⟩)⟩

section

variable {rows : List Row} {t : Table}

theorem Loaded.zero_notMem_urisid (hl : Loaded rows t) (hrows : ∀ r ∈ rows, r.Valid) :
    ∀ e ∈ t.urisidarray, 0 ∉ e := by
  intro e he
  obtain ⟨a, ha, rfl⟩ := hl.urisid_row e he
  exact (hrows a ha).zero_notMem_urisid

theorem Loaded.zero_notMem_key (hl : Loaded rows t) (hrows : ∀ r ∈ rows, r.Valid) :
    ∀ e ∈ t.keyarray, 0 ∉ e := by
  intro e he
  obtain ⟨a, ha, rfl⟩ := ((hl.key_iff e).mp he).exists_row
  exact (hrows a ha).key.2.2.1

/-- A stored key heads the new one exactly when some earlier row's key does. -/
theorem Loaded.keySeen_iff_row (hl : Loaded rows t) (hrows : ∀ r ∈ rows, r.Valid)
    (key : List UInt8) : keySeen t.keyarray key = true ↔ ∃ x ∈ rows, x.key <+: key := by
  rw [keySeen_iff (hl.zero_notMem_key hrows)]
  constructor
  · rintro ⟨e, he, hpre⟩
    obtain ⟨x, hx, rfl⟩ := ((hl.key_iff e).mp he).exists_row
    exact ⟨x, hx, hpre⟩
  · rintro ⟨x, hx, hpre⟩
    obtain ⟨k, hk, hkx⟩ := exists_keyLoaded_of_mem hx
    exact ⟨k, (hl.key_iff k).mpr hk, hkx.trans hpre⟩

/-- A stored string goes on from the new one exactly when some earlier row's does. -/
theorem Loaded.urisidSeen_iff_row (hl : Loaded rows t) (hrows : ∀ r ∈ rows, r.Valid) {r : Row}
    (hr : r.Valid) :
    urisidSeen t.urisidarray r.uri r.sid = true ↔ ∃ x ∈ rows, r.urisid <+: x.urisid := by
  rw [urisidSeen_iff (hl.zero_notMem_urisid hrows) hr.uri.2.2.1 hr.sid.2.2.1]
  constructor
  · rintro ⟨e, he, hpre⟩
    obtain ⟨x, hx, rfl⟩ := hl.urisid_row e he
    exact ⟨x, hx, hpre⟩
  · rintro ⟨x, hx, hpre⟩
    obtain ⟨e, he, hxe⟩ := hl.urisid_covered x hx
    exact ⟨e, he, hpre.trans hxe⟩

/-- What one round does to the paths. -/
theorem Loaded.mem_urisidarray_loadRow (hl : Loaded rows t) (hrows : ∀ r ∈ rows, r.Valid)
    {r : Row} (hr : r.Valid) (e : List UInt8) :
    e ∈ (AccessControl.loadRow t (define r)).urisidarray ↔
      e ∈ t.urisidarray ∨ (r.urisid = e ∧ ∀ x ∈ rows, ¬ e <+: x.urisid) := by
  unfold AccessControl.loadRow
  simp only [cutOut_define hr]
  exact mem_append_unless (fun x e => e <+: x.urisid) (hl.urisidSeen_iff_row hrows hr) e

/-- **One round keeps the table in step with the rows.** -/
theorem Loaded.loadRow {r : Row} (h : Loaded rows t) (hrows : ∀ x ∈ rows, x.Valid)
    (hr : r.Valid) : Loaded (rows ++ [r]) (loadRow t (define r)) := by
  have hurisid := h.mem_urisidarray_loadRow hrows hr
  refine ⟨fun k => ?_, fun e he => ?_, fun x hx => ?_, ?_⟩
  · -- the key array grows by the row's key unless an earlier key heads it
    rw [keyLoaded_append, ← h.key_iff]
    unfold AccessControl.loadRow
    simp only [cutOut_define hr]
    exact mem_append_unless (fun x k => x.key <+: k) (h.keySeen_iff_row hrows r.key) k
  · -- what the second array gains is the row's own string
    obtain hmem | ⟨rfl, -⟩ := (hurisid e).mp he
    · obtain ⟨x, hx, rfl⟩ := h.urisid_row e hmem
      exact ⟨x, List.mem_append_left _ hx, rfl⟩
    · exact ⟨r, List.mem_append_right _ (List.mem_singleton_self r), rfl⟩
  · -- a row that is not stored heads the string that made it superfluous
    have hstored : ∀ y ∈ rows, x.urisid <+: y.urisid →
        ∃ e ∈ (AccessControl.loadRow t (define r)).urisidarray, x.urisid <+: e := by
      intro y hy hpre
      obtain ⟨e, he, hye⟩ := h.urisid_covered y hy
      exact ⟨e, (hurisid e).mpr (Or.inl he), hpre.trans hye⟩
    obtain hmem | hmem := List.mem_append.mp hx
    · exact hstored x hmem List.prefix_rfl
    · obtain rfl := List.mem_singleton.mp hmem
      by_cases hex : ∃ y ∈ rows, x.urisid <+: y.urisid
      · obtain ⟨y, hy, hpre⟩ := hex
        exact hstored y hy hpre
      · refine ⟨x.urisid, (hurisid _).mpr (Or.inr ⟨rfl, ?_⟩), List.prefix_rfl⟩
        intro y hy hpre
        exact hex ⟨y, hy, hpre⟩
  · show (AccessControl.loadRow t (define r)).hashkeyarray = _
    unfold AccessControl.loadRow
    simp only [cutOut_define hr]
    rw [h.hashkey_eq, List.map_append]
    rfl

end

/-- **The load, for every row list.** -/
theorem loaded_foldl {rows : List Row} (hrows : ∀ r ∈ rows, r.Valid) :
    Loaded rows ((rows.map define).foldl AccessControl.loadRow
      { keyarray := [], urisidarray := [], hashkeyarray := [] }) := by
  induction rows using List.reverseRecOn with
  | nil => exact ⟨by simp [KeyLoaded], by simp, by simp, rfl⟩
  | append_singleton rows r ih =>
    rw [List.map_append, List.foldl_append]
    exact (ih fun x hx => hrows x (by simp [hx])).loadRow (fun x hx => hrows x (by simp [hx]))
      (hrows r (by simp))

/-- `e` is stored among the `URI ++ SID`: its first row comes before every row
whose `URI ++ SID` goes on from `e`. -/
def UrisidLoaded (rows : List Row) (e : List UInt8) : Prop :=
  ∃ l₁ r l₂, rows = l₁ ++ r :: l₂ ∧ r.urisid = e ∧ ∀ x ∈ l₁, ¬ e <+: x.urisid

/-- **What the load stores of the paths**, for every row list. -/
theorem urisid_iff_foldl {rows : List Row} (hrows : ∀ r ∈ rows, r.Valid) (e : List UInt8) :
    e ∈ ((rows.map define).foldl AccessControl.loadRow
      { keyarray := [], urisidarray := [], hashkeyarray := [] }).urisidarray ↔
      UrisidLoaded rows e := by
  induction rows using List.reverseRecOn with
  | nil => simp [UrisidLoaded]
  | append_singleton rows r ih =>
    have hrows' : ∀ x ∈ rows, x.Valid := fun x hx => hrows x (by simp [hx])
    have hr : r.Valid := hrows r (by simp)
    have hl := loaded_foldl hrows'
    have ih := ih hrows'
    rw [List.map_append, List.foldl_append, List.map_singleton, List.foldl_cons, List.foldl_nil,
      hl.mem_urisidarray_loadRow hrows' hr, ih, UrisidLoaded, UrisidLoaded, exists_split_append]

theorem loaded_initKeypool {rows : List Row} (hne : rows ≠ []) (hrows : ∀ r ∈ rows, r.Valid) :
    Loaded rows (initKeypool rows) := by
  -- with a row the first round of the loop has fetched it
  obtain ⟨r, rows, rfl⟩ := List.exists_cons_of_ne_nil hne
  exact loaded_foldl hrows

end AccessControl
