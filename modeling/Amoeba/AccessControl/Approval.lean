import Amoeba.AccessControl.Decision

/-!
# Approved requests

The rows of the authorization query are the purpose of the checks: a request
for the path `U` with the parameters `S` and `K` is meant to be let through
when, and only when, `(K, U, S)` is a row with a quota.

The comparisons do not see the borders between the columns, so neither
direction holds for every result set. `authorization_sound_iff` names the
result sets for which what is let through is approved; `approved_row_granted`
names the rows whose plain GET request is let through.
-/

namespace AccessControl

open CString Nginx

/-- A result set of the authorization query. The query joins the keys with the
paths on the SID, so that its rows are closed under that join. -/
structure ResultSet where
  rows : List Row
  valid : ∀ a ∈ rows, a.Valid
  join : ∀ a ∈ rows, ∀ b ∈ rows, a.sid = b.sid →
    ∃ c ∈ rows, c.key = a.key ∧ c.uri = b.uri ∧ c.sid = a.sid ∧ c.maxtph = a.maxtph

/-- `(K, U, S)` is a row with a quota. -/
def Approves (rows : List Row) (U S K : List UInt8) : Prop :=
  ∃ c ∈ rows, c.key = K ∧ c.uri = U ∧ c.sid = S ∧ 0 < c.maxtph

instance (rows : List Row) (U S K : List UInt8) : Decidable (Approves rows U S K) :=
  inferInstanceAs (Decidable (∃ c ∈ rows, _))

/-- No other way to cut the strings of the rows passes the comparisons. -/
def Unambiguous (rows : List Row) : Prop :=
  ∀ U S K, Reach rows U S K → Approves rows U S K

/-! ### Soundness -/

/-- **When only approved requests are let through.** For every result set, the
clean requests without a NUL in their parameters are let through only for a row
with a quota exactly when the result set is unambiguous; and then a request
with a NUL breaks the rule exactly when the NUL is in its `sid`. -/
theorem authorization_sound_iff (R : ResultSet) :
    ((∀ r g, Clean R.rows r → (check (initKeypool R.rows) r).verdict = .grant g →
        0 ∉ r.bytes g.sid → 0 ∉ r.bytes g.key →
        Approves R.rows (r.bytes g.uri) (r.bytes g.sid) (r.bytes g.key)) ↔
      Unambiguous R.rows) ∧
    (Unambiguous R.rows →
      ∀ r g, Clean R.rows r → (check (initKeypool R.rows) r).verdict = .grant g →
        (Approves R.rows (r.bytes g.uri) (r.bytes g.sid) (r.bytes g.key) ↔ 0 ∉ r.bytes g.sid)) := by
  refine ⟨⟨fun h U S K hreach => ?_, fun hun r g hr hg hS hK => ?_⟩, fun hun r g hr hg => ?_⟩
  · -- every reachable triple has a request, so the rule covers all of them
    obtain ⟨r, g, hr, hg, rfl, rfl, rfl⟩ := grant_of_reach R.valid hreach
    obtain ⟨hS, hK⟩ := hreach.zero_notMem R.valid
    exact h r g hr hg hS hK
  · -- and every request that is let through has a reachable triple
    have hreach := (reach_of_grant R.valid hr hg).1
    rw [if_neg hK, cut_eq_self hS, cut_eq_self hK] at hreach
    exact hun _ _ _ hreach
  · obtain ⟨c, hc, hck, hcu, hcs, hpos⟩ := hun _ _ _ (reach_of_grant R.valid hr hg).1
    constructor
    · -- the SID of a row has no NUL
      rintro ⟨c', hc', -, -, hcs', -⟩
      rw [← hcs']
      exact (R.valid c' hc').sid.2.2.1
    · intro hS
      -- a NUL in the key would leave an empty SID, which no row has
      have hK : 0 ∉ r.bytes g.key := by
        intro h0
        rw [if_pos h0] at hcs
        exact (R.valid c hc).sid.1 hcs
      rw [if_neg hK, cut_eq_self hS] at hcs
      rw [cut_eq_self hK] at hck
      exact ⟨c, hc, hck, hcu, hcs, hpos⟩

/-- **A request that no row approves.** The only row is for the path `/ab` with
the SID `b`; its `URI ++ SID` also starts with the path `/a` and then `b`. -/
theorem unapproved_request_granted :
    let rows : List Row := [⟨ascii "k", ascii "/ab", 1, ascii "b"⟩]
    let r := plainGet (ascii "GET ") (ascii "/a") (ascii "sid=b&key=k") (ascii " HTTP/1.1\r\n") []
      (by decide)
    (∀ a ∈ rows, a.Valid) ∧
      (check (initKeypool rows) r).verdict = .grant
        { uri := ⟨4, 2⟩, sid := ⟨11, 1⟩, key := ⟨17, 1⟩, hashkey := ascii "kb"
          hash := 3415, maxtps := 1000 } ∧
      r.bytes ⟨4, 2⟩ = ascii "/a" ∧ r.bytes ⟨11, 1⟩ = ascii "b" ∧ r.bytes ⟨17, 1⟩ = ascii "k" ∧
      ¬ Approves rows (ascii "/a") (ascii "b") (ascii "k") := by
  intro rows r
  refine ⟨?_, by decide +kernel, by decide, by decide, by decide, by decide⟩
  intro a ha
  obtain rfl : a = _ := List.mem_singleton.mp ha
  exact ⟨by decide, by decide, by decide⟩

/-! ### Completeness -/

/-- The column values of a row do not contain the bytes that structure a
request target. -/
structure Row.Unreserved (a : Row) : Prop where
  key : amp ∉ a.key ∧ question ∉ a.key
  uri : amp ∉ a.uri ∧ question ∉ a.uri
  sid : amp ∉ a.sid ∧ question ∉ a.sid

/-- The request `U?sid=S&key=K` of a row, as a plain GET request whose target
is followed by a blank. -/
def rowRequest (a : Row) (before rest spill : List UInt8)
    (h : (before ++ a.uri ++ [question] ++ (sidName ++ a.sid ++ ampKeyName ++ a.key) ++
      (blank :: rest)).length < 2 ^ 63) : Request :=
  plainGet before a.uri (sidName ++ a.sid ++ ampKeyName ++ a.key) (blank :: rest) spill h

theorem plainGet_window {before path args rest spill : List UInt8}
    {h : (before ++ path ++ [question] ++ args ++ rest).length < 2 ^ 63}
    (hq : question ∉ path) (hlen : 2 ≤ path.length) :
    (plainGet before path args rest spill h).window =
      some (⟨before.length, path.length⟩, before.length,
        before.length + (path ++ [question] ++ args).length) := by
  have hfound : ngxStrlchr (plainGet before path args rest spill h).mem before.length
      (before.length + path.length + 1 + args.length) question =
      some (before.length + path.length) := by
    -- the target is the path, the `'?'` and the arguments
    have hslice : slice (plainGet before path args rest spill h).mem before.length
        (before.length + path.length + 1 + args.length) = path ++ question :: args := by
      have := slice_of_drop (show (plainGet before path args rest spill h).mem.drop 0 =
        before ++ (path ++ question :: args) ++ rest by simp [plainGet])
      rw [← this]
      congr 1 <;> simp
      omega
    unfold ngxStrlchr
    rw [← slice, hslice, List.findIdx?_append]
    have hnone : path.findIdx? (· == question) = none := by
      rw [List.findIdx?_eq_none_iff]
      exact fun c hc => beq_eq_false_iff_ne.mpr fun hcq => hq (hcq ▸ hc)
    simp [hnone, List.findIdx?_cons]
  unfold Request.window
  rw [if_neg (by simp [plainGet]; omega)]
  simp only [plainGet] at hfound ⊢
  rw [hfound]
  simp
  omega

/-- The hash key of a row with a quota passes the last check, whatever bytes
follow it, when every row has a quota. -/
theorem charge_of_row {rows : List Row} {t : Table} (hl : Loaded rows t)
    (hrows : ∀ a ∈ rows, a.Valid) (hpos : ∀ a ∈ rows, 0 < a.maxtph) {a : Row} (ha : a ∈ rows)
    {r : Request} {uri sid key : NgxStr} (hS : r.bytes sid = a.sid) (hK : r.bytes key = a.key)
    (hsid : sid.len < 2 ^ 63) (hkey : key.len < 2 ^ 63) :
    ∃ g, charge t r uri sid key = .grant g := by
  have h0 := (hrows a ha).zero_notMem_hashkey
  -- the row's own entry compares equal both ways
  have hsome : (t.hashkeyarray.find? fun h => bothWays h.key (r.bytes key ++ r.bytes sid ++ r.spill)
      (r.bytes key ++ r.bytes sid).length).isSome := by
    rw [List.find?_isSome, hl.hashkey_eq, hK, hS]
    refine ⟨a.entry, List.mem_map_of_mem ha, decide_eq_true ?_⟩
    change strncmp a.hashkey (a.hashkey ++ r.spill) a.hashkey.length = 0 ∧
      strncmp a.hashkey (a.hashkey ++ r.spill) a.hashkey.length = 0
    have := (strncmp_length h0).mpr (List.prefix_append a.hashkey r.spill)
    exact ⟨this, this⟩
  obtain ⟨h, hh⟩ := Option.isSome_iff_exists.mp hsome
  have hmem := List.mem_of_find?_eq_some hh
  rw [hl.hashkey_eq] at hmem
  obtain ⟨c, hc, rfl⟩ := List.mem_map.mp hmem
  unfold charge
  rw [if_neg (by omega)]
  dsimp only
  rw [hh]
  dsimp only
  -- the first entry that does need not be this row's, but it has a quota
  have hvalue : ¬ c.entry.value ≤ 0 := not_le.mpr (hpos c hc)
  rw [if_neg hvalue]
  exact ⟨_, rfl⟩

/-- The row's own request passes every check of a zone loaded from the rows. -/
theorem check_rowRequest {rows : List Row} (hrows : ∀ a ∈ rows, a.Valid)
    (hres : ∀ a ∈ rows, a.Unreserved) (hpos : ∀ a ∈ rows, 0 < a.maxtph) {a : Row} (ha : a ∈ rows)
    (hlen : 2 ≤ a.uri.length) (hsid : ∀ j, ¬ CiMatch sidName (a.uri.drop j))
    (hkey : KeyLoaded rows a.key) {before rest spill : List UInt8}
    (h : (before ++ a.uri ++ [question] ++ (sidName ++ a.sid ++ ampKeyName ++ a.key) ++
      (blank :: rest)).length < 2 ^ 63) :
    ∃ g, (check (initKeypool rows) (rowRequest a before rest spill h)).verdict = .grant g := by
  have hl := loaded_initKeypool (List.ne_nil_of_mem ha) hrows
  have hva := hrows a ha
  have hra := hres a ha
  have hw : (rowRequest a before rest spill h).window =
      some (⟨before.length, a.uri.length⟩, before.length, before.length +
        ((a.uri ++ [question]) ++ sidName ++ a.sid ++ ampKeyName ++ a.key).length) := by
    rw [rowRequest, plainGet_window hra.uri.2 hlen]
    simp
  have hmem : (rowRequest a before rest spill h).mem.drop before.length =
      (a.uri ++ [question]) ++ sidName ++ a.sid ++ ampKeyName ++ a.key ++ (blank :: rest) := by
    simp [rowRequest, plainGet]
  -- without a `'&'` the value of the `key` is the whole key
  have htw : a.key.takeWhile (· ≠ amp) = a.key := by
    rw [List.takeWhile_eq_self_iff]
    exact fun c hc => decide_eq_true fun hca => hra.key.1 (hca ▸ hc)
  have h0 : 0 ∉ a.uri ++ [question] := by simpa using ⟨hva.uri.2.2.1, by decide⟩
  have hamp : amp ∉ (a.uri ++ [question]) ++ sidName ++ a.sid := by
    simpa [sidName, amp, question] using ⟨hra.uri.1, hra.sid.1⟩
  -- the name does not stand in the path, and it does not match across the `'?'`
  have hfirst : ∀ j < (a.uri ++ [question]).length,
      ¬ CiMatch sidName (((rowRequest a before rest spill h).mem.drop before.length).drop j) := by
    intro j hj hm
    rw [hmem] at hm
    simp only [List.append_assoc, List.singleton_append] at hm
    rw [List.drop_append_of_le_length (by simpa [Nat.lt_succ_iff] using hj)] at hm
    exact hsid j (hm.of_append_cons (by decide))
  have hpath : a.uri <+: (rowRequest a before rest spill h).mem.drop before.length := by
    simp only [rowRequest, plainGet, List.append_assoc, List.drop_left]
    exact List.prefix_append _ _
  obtain ⟨sid, key, hS, hSlen, hK, hKlen, hverdict, -⟩ := check_query (a := a) hl hrows _ hw hmem h0
    hamp hfirst hpath rfl ha List.prefix_rfl hkey
  rw [htw] at hK hKlen
  have hs := hva.sid.2.1
  have hk := hva.key.2.1
  rw [hverdict]
  exact charge_of_row hl hrows hpos ha hS hK (by omega) (by omega)

/-- When every zone of a non-empty list lets the request through its checks,
the loop is left by a lookup. -/
theorem zoneLoop_left (A : Arith) {r : Request} {slots : List Slot} (hne : slots ≠ [])
    (h : ∀ s ∈ slots, ∃ g, (check s.limit.table r).verdict = .grant g) (before : List Slot) :
    ∃ rc excess maxtps nodelay,
      (zoneLoop A r before slots).stop = .left rc excess maxtps nodelay := by
  -- on the zones; a lookup that pins goes on to the next zone
  induction slots generalizing before with
  | nil => exact absurd rfl hne
  | cons s rest ih =>
    obtain ⟨g, hg⟩ := h s (by simp)
    rw [zoneLoop]
    simp only [hg]
    cases hrc : (lookup A s.zone (s.query g rest.isEmpty)).rc with
    | again =>
      cases rest with
      | nil => exact ⟨_, _, _, _, rfl⟩
      | cons s' rest =>
        exact ih (by simp) (fun x hx => h x (List.mem_cons_of_mem _ hx)) _
    | ok => exact ⟨_, _, _, _, rfl⟩
    | busy => exact ⟨_, _, _, _, rfl⟩
    | error => exact ⟨_, _, _, _, rfl⟩

/-- **The request of an approved row reaches the limiter**, in every zone loaded
from the result set, when its path has at least two bytes and does not contain
the `sid` name in any letter case, and its key is one that the load keeps: no
row before the first row with this key has a key that heads it. -/
theorem approved_row_granted {rows : List Row} (hrows : ∀ a ∈ rows, a.Valid)
    (hres : ∀ a ∈ rows, a.Unreserved) (hpos : ∀ a ∈ rows, 0 < a.maxtph) {a : Row} (ha : a ∈ rows)
    (hlen : 2 ≤ a.uri.length) (hsid : ∀ j, ¬ CiMatch sidName (a.uri.drop j))
    (hkey : KeyLoaded rows a.key) {before rest spill : List UInt8}
    (h : (before ++ a.uri ++ [question] ++ (sidName ++ a.sid ++ ampKeyName ++ a.key) ++
      (blank :: rest)).length < 2 ^ 63)
    (A : Arith) {slots : List Slot} (hne : slots ≠ [])
    (hslots : ∀ s ∈ slots, s.limit.table = initKeypool rows) :
    ∃ rc excess maxtps nodelay,
      (zoneLoop A (rowRequest a before rest spill h) [] slots).stop =
        .left rc excess maxtps nodelay := by
  refine zoneLoop_left A hne (fun s hs => ?_) []
  rw [hslots s hs]
  exact check_rowRequest hrows hres hpos ha hlen hsid hkey h

/-- Two keys of which the first does not head the second. -/
theorem approved_row_granted_two_keys :
    let a : Row := ⟨ascii "k1", ascii "/a", 1, ascii "1"⟩
    let rows : List Row := [a, ⟨ascii "k", ascii "/a", 1, ascii "1"⟩]
    ∃ rc excess maxtps nodelay,
      (zoneLoop .exact (rowRequest a (ascii "GET ") (ascii "HTTP/1.1\r\n") [] (by decide)) []
        [freshSlot (initKeypool rows) 1]).stop = .left rc excess maxtps nodelay := by
  intro a rows
  have hall : ∀ {P : Row → Prop}, P a → P ⟨ascii "k", ascii "/a", 1, ascii "1"⟩ → ∀ x ∈ rows, P x := by
    intro P h1 h2 x hx
    rcases List.mem_cons.mp hx with rfl | hx
    · exact h1
    · obtain rfl : x = _ := List.mem_singleton.mp hx
      exact h2
  refine approved_row_granted (hall ⟨by decide, by decide, by decide⟩
    ⟨by decide, by decide, by decide⟩) (hall ⟨by decide, by decide, by decide⟩
    ⟨by decide, by decide, by decide⟩) (hall (by decide) (by decide)) (a := a) (by simp [rows])
    (by decide) (fun j => ?_) ⟨[], a, _, rfl, rfl, by simp⟩ (by decide) .exact (by simp)
    (by simp [freshSlot])
  match j with
  | 0 => decide
  | 1 => decide
  | j + 2 =>
    rw [List.drop_eq_nil_of_le (show a.uri.length ≤ j + 2 from Nat.le_add_left _ _)]
    exact not_ciMatch_nil

/-- **Approved rows whose request is turned down**: a path of one byte is
refused as such; a key whose row comes after that of a shorter key with which
it begins is not loaded; and the search for the `sid` name finds it in the
path, whatever the letter case. -/
theorem approved_row_refused :
    let a : Row := ⟨ascii "k", ascii "/", 1, ascii "1"⟩
    let b : Row := ⟨ascii "k1", ascii "/a", 1, ascii "1"⟩
    let c : Row := ⟨ascii "k", ascii "/SID=a", 1, ascii "1"⟩
    (check (initKeypool [a])
        (rowRequest a (ascii "GET ") (ascii "HTTP/1.1\r\n") [] (by decide))).verdict =
      .status 400 ∧
    (check (initKeypool [⟨ascii "k", ascii "/a", 1, ascii "1"⟩, b])
        (rowRequest b (ascii "GET ") (ascii "HTTP/1.1\r\n") [] (by decide))).verdict =
      .status 401 ∧
    (check (initKeypool [c])
        (rowRequest c (ascii "GET ") (ascii "HTTP/1.1\r\n") [] (by decide))).verdict =
      .status 400 :=
  ⟨by decide +kernel, by decide +kernel, by decide +kernel⟩

end AccessControl
