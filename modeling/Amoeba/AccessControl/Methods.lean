import Amoeba.AccessControl.Approval

/-!
# GET and POST

A GET request for `p?q` and a POST request for `p` with the body `q` carry the
same parameters. The two branches of the handler search different memory: the
request target from the path on, and the first buffer of the body. They cut the
same values out of it when no name reaches behind `q`.

The comparison of the key with a stored key runs over the length of the stored
one, and so over the bytes behind `q` when the stored key is longer than the
rest of `q`. These bytes are those of the request line for a GET request and
whatever follows the buffer for a POST request.

* `get_post_agree_iff` — for every table, path and parameters, exactly when the
  two requests are decided alike.
-/

namespace AccessControl

open CString Nginx

/-! ### The two requests -/

/-- The name does not occur in `[start, …)` in a way that the search finds it and
it reaches behind `last`. -/
def NameBy (name mem : List UInt8) (start last : Nat) : Prop :=
  ∀ e, matchEnd name mem start = some e → e ≤ last

/-- No parameter name that the handler finds reaches behind the data. -/
structure NamesBy (mem : List UInt8) (start last : Nat) : Prop where
  sid : NameBy sidName mem start last
  ampKey : NameBy ampKeyName mem start last
  key : NameBy keyName mem start last

/-- A plain path: at least two bytes, none of which ends the path or the string,
and no parameter name in it. -/
structure PlainPath (p : List UInt8) : Prop where
  two_le : 2 ≤ p.length
  zero_notMem : 0 ∉ p
  question_notMem : question ∉ p
  sid : ∀ j, ¬ CiMatch sidName (p.drop j)
  key : ∀ j, ¬ CiMatch keyName (p.drop j)

/-- A request for this plain path, with these bytes as its target. -/
structure TargetIs (p target : List UInt8) (r : Request) : Prop where
  plain : r.Plain
  uriLen : r.uriLen = p.length
  slice_eq : slice r.mem r.uriStart r.uriEnd = target

/-- The request is `GET p?q`, with these bytes behind the target. -/
structure IsGet (p q behind : List UInt8) (r : Request) : Prop where
  method : r.method = .get
  target : TargetIs p (p ++ question :: q) r
  names : NamesBy r.mem r.uriStart r.uriEnd
  behind_eq : r.mem.drop r.uriEnd = behind

/-- The request has `q` in the buffer `[pos, last)` of its body. -/
structure Buffered (q behind : List UInt8) (pos last : Nat) (r : Request) : Prop where
  body : r.body = .buffer pos last
  slice_eq : slice r.mem pos last = q
  names : NamesBy r.mem pos last
  behind_eq : r.mem.drop last = behind

/-- The request is `POST p` with the body `q` in one buffer, with these bytes
behind it. There is no buffer for an empty body. -/
structure IsPost (p q behind : List UInt8) (r : Request) : Prop where
  method : r.method = .post
  target : TargetIs p p r
  body : (∃ pos last, Buffered q behind pos last r) ∨ (q = [] ∧ r.body = .empty)

/-! ### The same parameters -/

/-- The search in a stretch of memory. -/
theorem matchEnd_slice {name mem : List UInt8} {off start last : Nat} (hname : ParamName name off)
    (hlast : last ≤ mem.length) (hle : start ≤ last) (h : NameBy name mem start last) :
    matchEnd name mem start = (matchEnd name (slice mem start last) 0).map (start + ·) := by
  obtain ⟨d, p, rfl⟩ := List.exists_cons_of_ne_nil hname.ne_nil
  have hsplit : mem.drop start = slice mem start last ++ mem.drop last := by
    rw [slice, show mem.drop last = (mem.drop start).drop (last - start) by
      rw [List.drop_drop]; congr 1; omega, List.take_append_drop]
  -- a match that ends by `last` does not need the bytes behind the slice
  have hright := ngxStrcasestrn_append_right (a := slice mem start last) (b := mem.drop last)
    hname.zero_notMem fun k hk => by
      have hend := h (start + k + (d :: p).length) (by rw [matchEnd, hsplit]; simp [hk])
      rw [length_slice hlast]
      omega
  rw [matchEnd, hsplit, List.length_cons, Nat.add_sub_cancel, hright, matchEnd, List.drop_zero,
    Option.map_map]
  congr 1
  funext k
  simp
  omega

/-- The search from a path on, in which the name does not begin. -/
theorem matchEnd_path {name p q : List UInt8} {off : Nat} (hname : ParamName name off)
    (h0 : 0 ∉ p) (hq : tolower question ∉ name.map tolower)
    (hno : ∀ j, ¬ CiMatch name (p.drop j)) :
    matchEnd name (p ++ question :: q) 0 = (matchEnd name q 0).map (p.length + 1 + ·) := by
  obtain ⟨d, n, rfl⟩ := List.exists_cons_of_ne_nil hname.ne_nil
  -- a match in the path would go on over the question mark, which is in no name
  have hnoq : ∀ j < (p ++ [question]).length,
      ¬ CiMatch (d :: n) ((p ++ [question] ++ q).drop j) := by
    intro j hj hm
    rw [List.append_assoc, List.singleton_append,
      List.drop_append_of_le_length (by simpa [Nat.lt_succ_iff] using hj)] at hm
    exact hno j (hm.of_append_cons hq)
  have hleft := ngxStrcasestrn_append_left hname.zero_notMem (by simpa using ⟨h0, by decide⟩) hnoq
  rw [List.append_assoc, List.singleton_append] at hleft
  rw [matchEnd, matchEnd, List.drop_zero, List.drop_zero, List.length_cons, Nat.add_sub_cancel,
    hleft, Option.map_map, Option.map_map]
  congr 1
  funext k
  simp
  omega

/-- The parameters `q` stand at `[base, last)`, and the searches from `start` find
the names where they stand in `q`. -/
structure Carries (q mem : List UInt8) (start base last : Nat) : Prop where
  base_le : base ≤ last
  last_le : last ≤ mem.length
  slice_eq : slice mem base last = q
  sid : matchEnd sidName mem start = (matchEnd sidName q 0).map (base + ·)
  key : keyEnd mem start = (keyEnd q 0).map (base + ·)

theorem Buffered.carries {q behind : List UInt8} {pos last : Nat} {r : Request}
    (h : Buffered q behind pos last r) : Carries q r.mem pos pos last := by
  obtain ⟨hle, hlast⟩ := r.body_le pos last h.body
  have hsid := matchEnd_slice paramName_sid hlast hle h.names.sid
  have hamp := matchEnd_slice paramName_ampKey hlast hle h.names.ampKey
  have hkey := matchEnd_slice paramName_key hlast hle h.names.key
  rw [h.slice_eq] at hsid hamp hkey
  refine ⟨hle, hlast, h.slice_eq, hsid, ?_⟩
  rw [keyEnd, hamp, hkey, ← Option.map_or, keyEnd]

/-- A path without the shorter name does not contain the longer one. -/
theorem PlainPath.ampKey {p : List UInt8} (h : PlainPath p) (j : Nat) :
    ¬ CiMatch ampKeyName (p.drop j) := by
  intro hm
  cases hd : p.drop j with
  | nil => exact not_ciMatch_nil (hd ▸ hm)
  | cons c rest =>
    rw [hd, ampKeyName, ciMatch_cons] at hm
    -- behind its first byte, the longer name is the shorter one
    refine h.key (j + 1) ?_
    rw [← List.drop_drop, hd]
    exact hm.2

theorem IsGet.carries {p q behind : List UInt8} {r : Request} (h : IsGet p q behind r)
    (hp : PlainPath p) :
    Carries q r.mem r.uriStart (r.uriStart + (p.length + 1)) r.uriEnd := by
  have hlen := congrArg List.length h.target.slice_eq
  rw [length_slice r.uriEnd_le, List.length_append, List.length_cons] at hlen
  have hsid := matchEnd_slice paramName_sid r.uriEnd_le r.uri_le h.names.sid
  have hamp := matchEnd_slice paramName_ampKey r.uriEnd_le r.uri_le h.names.ampKey
  have hkey := matchEnd_slice paramName_key r.uriEnd_le r.uri_le h.names.key
  -- no name is found in the path, so the searches of the target are those of `q`
  rw [h.target.slice_eq, matchEnd_path paramName_sid hp.zero_notMem (by decide) hp.sid,
    Option.map_map] at hsid
  rw [h.target.slice_eq, matchEnd_path paramName_ampKey hp.zero_notMem (by decide) hp.ampKey,
    Option.map_map] at hamp
  rw [h.target.slice_eq, matchEnd_path paramName_key hp.zero_notMem (by decide) hp.key,
    Option.map_map] at hkey
  have hadd : (r.uriStart + ·) ∘ (p.length + 1 + ·) = (r.uriStart + (p.length + 1) + ·) := by
    funext e
    exact (Nat.add_assoc _ _ _).symm
  rw [hadd] at hsid hamp hkey
  refine ⟨by omega, r.uriEnd_le, ?_, hsid, ?_⟩
  -- `q` is what is left of the target behind the path and the question mark
  · have hsplit := slice_append r.mem (show r.uriStart ≤ r.uriStart + (p.length + 1) by omega)
      (show r.uriStart + (p.length + 1) ≤ r.uriEnd by omega)
    rw [h.target.slice_eq, ← List.singleton_append, ← List.append_assoc] at hsplit
    refine (List.append_inj hsplit ?_).2.symm
    rw [length_slice (by have := r.uriEnd_le; omega)]
    simp
  · rw [keyEnd, hamp, hkey, ← Option.map_or, keyEnd]

/-- The bytes behind a name that stands in `q`. -/
theorem Carries.drop_eq {q mem : List UInt8} {start base last : Nat}
    (h : Carries q mem start base last) {e : Nat} (he : e ≤ q.length) :
    slice mem (base + e) last = q.drop e ∧ mem.drop (base + e) = q.drop e ++ mem.drop last := by
  have hlen := congrArg List.length h.slice_eq
  rw [length_slice h.last_le] at hlen
  have hslice : slice mem (base + e) last = q.drop e := by
    rw [← h.slice_eq, slice, slice, List.drop_take, List.drop_drop]
    congr 1
    omega
  refine ⟨hslice, ?_⟩
  rw [← hslice, slice, show mem.drop last = (mem.drop (base + e)).drop (last - (base + e)) by
    rw [List.drop_drop]; congr 1; have := h.base_le; omega, List.take_append_drop]

/-- The value at the head of these bytes. -/
def valueOf (W : List UInt8) : List UInt8 := W.takeWhile (· ≠ amp)

/-- What is behind the name of the `sid`. -/
def sidTail (q : List UInt8) : Option (List UInt8) := (matchEnd sidName q 0).map q.drop

/-- What is behind the name of the `key`. -/
def keyTail (q : List UInt8) : Option (List UInt8) := (keyEnd q 0).map q.drop

/-- The value behind a name that ends at `e` in `q`. -/
theorem Carries.value {q mem : List UInt8} {start base last e : Nat}
    (h : Carries q mem start base last) (hle : e ≤ q.length) {s : NgxStr} (hdata : s.data = base + e)
    (hlen : s.data ≤ last → s.len = ((slice mem s.data last).takeWhile (· ≠ amp)).length) :
    mem.drop s.data = q.drop e ++ mem.drop last ∧ s.len = (valueOf (q.drop e)).length := by
  obtain ⟨hslice, hdrop⟩ := h.drop_eq hle
  -- the name ends inside of `q`, so its value begins in the data
  have hlast : s.data ≤ last := by
    have hqlen := congrArg List.length h.slice_eq
    rw [length_slice h.last_le] at hqlen
    have := h.base_le
    omega
  have hvalue := hlen hlast
  rw [hdata, hslice] at hvalue
  exact ⟨by rw [hdata, hdrop], hvalue⟩

/-- **The same parameters**: where a name stands in `q`, the handler takes the
value that stands behind it in `q`. -/
theorem Carries.params {q mem : List UInt8} {start base last : Nat}
    (h : Carries q mem start base last) (hmem : mem.length < 2 ^ 63) :
    (sidParam mem start last = none ∧ sidTail q = none ∨
      ∃ sid W, sidParam mem start last = some sid ∧ sidTail q = some W ∧
        mem.drop sid.data = W ++ mem.drop last ∧ sid.len = (valueOf W).length) ∧
    (keyParam mem start last = none ∧ keyTail q = none ∨
      ∃ key W, keyParam mem start last = some key ∧ keyTail q = some W ∧
        mem.drop key.data = W ++ mem.drop last ∧ key.len = (valueOf W).length) := by
  constructor
  · cases hend : matchEnd sidName q 0 with
    | none =>
      refine .inl ⟨?_, by rw [sidTail, hend]; rfl⟩
      rw [sidParam_eq]
      exact (cutParam_eq_none sidName 0).mpr (by rw [h.sid, hend]; rfl)
    | some e =>
      obtain ⟨sid, hsid, hdata⟩ := exists_sidParam hmem h.last_le (e := base + e)
        (by rw [h.sid, hend]; rfl)
      exact .inr ⟨sid, q.drop e, hsid, by rw [sidTail, hend]; rfl,
        h.value (matchEnd_le paramName_sid hend) hdata fun hlast =>
          (sidParam_value hmem h.last_le hsid hlast).2⟩
  · cases hend : keyEnd q 0 with
    | none =>
      refine .inl ⟨?_, by rw [keyTail, hend]; rfl⟩
      exact keyParam_eq_none.mpr (by rw [h.key, hend]; rfl)
    | some e =>
      obtain ⟨key, hkey, hdata⟩ := exists_keyParam hmem h.last_le (e := base + e)
        (by rw [h.key, hend]; rfl)
      exact .inr ⟨key, q.drop e, hkey, by rw [keyTail, hend]; rfl,
        h.value (keyEnd_le hend) hdata fun hlast => (keyParam_value hmem h.last_le hkey hlast).2⟩

/-! ### The decision -/

/-- The decision of a round of the checks: a status, or what the limiter is called
with. -/
inductive Decision where
  | status (code : Nat)
  | fault
  | limiter (path sid key hashkey : List UInt8) (maxtps : Nat)
  deriving DecidableEq, Repr

/-- The decision that a verdict on this request stands for. -/
def Request.decisionOf (r : Request) : Verdict → Decision
  | .status code => .status code
  | .fault => .fault
  | .grant g => .limiter (r.bytes g.uri) (r.bytes g.sid) (r.bytes g.key) g.hashkey g.maxtps

/-- Some row's `URI ++ SID` starts with this path and this `sid`. -/
def PathKnown (rows : List Row) (p S : List UInt8) : Prop := ∃ a ∈ rows, p ++ S <+: a.urisid

/-- A loaded key stands at the head of `W` and of the bytes behind it, and starts
with the value at the head of `W`. -/
def KeyMatches (rows : List Row) (W behind : List UInt8) : Prop :=
  ∃ k, KeyLoaded rows k ∧ valueOf W <+: k ∧ k <+: W ++ behind

/-- The rate that a row grants. -/
def Row.rate (b : Row) : Option Nat := if b.maxtph ≤ 0 then none else some (maxtpsOf b.maxtph)

/-- The rate of the first row whose `KEY ++ SID` starts with `hashkey` and goes on
with the bytes behind it. -/
def quota (rows : List Row) (hashkey behind : List UInt8) : Option Nat :=
  (rows.find? fun b => hashkey <+: b.hashkey ∧ b.hashkey <+: hashkey ++ behind).bind Row.rate

open Classical in
/-- What the checks decide for the path `p` and the parameters `q`, followed by the
bytes `behind`, when the block of the hash key is followed by `spill`. -/
noncomputable def decided (rows : List Row) (p q behind spill : List UInt8) : Decision :=
  match sidTail q, keyTail q with
  | none, _ => .status 400
  | some S, key =>
    if PathKnown rows p (valueOf S) then
      match key with
      | none => .status 401
      | some W =>
        if KeyMatches rows W behind then
          match quota rows (valueOf W ++ valueOf S) spill with
          | none => .status 403
          | some maxtps =>
            .limiter p (valueOf S) (valueOf W) (valueOf W ++ valueOf S) maxtps
        else .status 401
    else .status 400

/-- Comparing both ways with memory that starts with a value. -/
theorem bothWays_iff {e other v : List UInt8} (he : 0 ∉ e) (hv : 0 ∉ v) (h : v <+: other) :
    bothWays e other v.length = true ↔ v <+: e ∧ e <+: other := by
  rw [bothWays, decide_eq_true_eq, strncmp_length he, strncmp_stretch he hv h, and_comm]

section

variable {rows : List Row} {t : Table}

/-- **The first comparison.** -/
theorem urisidKnown_iff (hl : Loaded rows t) (hrows : ∀ a ∈ rows, a.Valid) {mem p S : List UInt8}
    {uri sid : NgxStr} (hp : p <+: mem.drop uri.data) (hplen : uri.len = p.length)
    (hS : S <+: mem.drop sid.data) (hSlen : sid.len = S.length) (hp0 : 0 ∉ p) (hS0 : 0 ∉ S) :
    urisidKnown t mem uri sid = true ↔ PathKnown rows p S := by
  constructor
  · intro h
    simp only [urisidKnown, List.any_eq_true, decide_eq_true_eq] at h
    obtain ⟨e, he, h1⟩ := h
    obtain ⟨a, ha, rfl⟩ := hl.urisid_row e he
    rw [hplen, hSlen] at h1
    exact ⟨a, ha, (strncmp_pair (hrows a ha).zero_notMem_urisid hp0 hS0 hp hS).mp h1⟩
  -- a row whose string starts with both values passes this comparison
  · rintro ⟨a, ha, hpre⟩
    exact urisidKnown_of_row hl hrows hp hplen hS hSlen ha hpre

/-- **The second comparison.** -/
theorem keyKnown_iff (hl : Loaded rows t) (hrows : ∀ a ∈ rows, a.Valid) {mem W behind : List UInt8}
    {key : NgxStr} (hmem : mem.drop key.data = W ++ behind) (hlen : key.len = (valueOf W).length)
    (hW0 : 0 ∉ W) : keyKnown t mem key = true ↔ KeyMatches rows W behind := by
  have hpre : valueOf W <+: W ++ behind :=
    (List.takeWhile_prefix _).trans (List.prefix_append _ _)
  have hv0 : 0 ∉ valueOf W := fun h => hW0 ((List.takeWhile_prefix _).mem h)
  simp only [keyKnown, List.any_eq_true, hmem, hlen]
  refine exists_congr fun k => ?_
  rw [hl.key_iff]
  refine and_congr_right fun hk => ?_
  exact bothWays_iff (hl.zero_notMem_key hrows k ((hl.key_iff k).mpr hk)) hv0 hpre

/-- **The third comparison**: the first row that compares equal both ways. -/
theorem decisionOf_charge_find (hl : Loaded rows t) (r : Request) (uri sid key : NgxStr) :
    r.decisionOf (charge t r uri sid key) =
      if 2 ^ 63 ≤ key.len ∨ 2 ^ 63 ≤ sid.len then .fault
      else
        match (rows.find? fun b => bothWays b.hashkey (r.bytes key ++ r.bytes sid ++ r.spill)
            (r.bytes key ++ r.bytes sid).length).bind Row.rate with
        | none => .status 403
        | some maxtps => .limiter (r.bytes uri) (r.bytes sid) (r.bytes key)
            (r.bytes key ++ r.bytes sid) maxtps := by
  unfold charge
  split
  · rfl
  · dsimp only
    rw [hl.hashkey_eq, List.find?_map]
    -- the entries of the hash table stand for the rows, in their order
    have hcomp : ((fun h : HashKey => bothWays h.key (r.bytes key ++ r.bytes sid ++ r.spill)
        (r.bytes key ++ r.bytes sid).length) ∘ Row.entry) = fun b : Row => bothWays b.hashkey
        (r.bytes key ++ r.bytes sid ++ r.spill) (r.bytes key ++ r.bytes sid).length := rfl
    rw [hcomp]
    cases rows.find? _ with
    | none => rfl
    | some b =>
      simp only [Option.map_some, Option.bind_some, Row.entry, Row.rate]
      split <;> rfl

/-- For parameters without a NUL it is the quota. -/
theorem decisionOf_charge (hl : Loaded rows t) (hrows : ∀ a ∈ rows, a.Valid) {r : Request}
    {uri sid key : NgxStr} (hsid : sid.len < 2 ^ 63) (hkey : key.len < 2 ^ 63)
    (h0 : 0 ∉ r.bytes key ++ r.bytes sid) :
    r.decisionOf (charge t r uri sid key) =
      match quota rows (r.bytes key ++ r.bytes sid) r.spill with
      | none => .status 403
      | some maxtps => .limiter (r.bytes uri) (r.bytes sid) (r.bytes key)
          (r.bytes key ++ r.bytes sid) maxtps := by
  have hfind : (rows.find? fun b => bothWays b.hashkey (r.bytes key ++ r.bytes sid ++ r.spill)
        (r.bytes key ++ r.bytes sid).length) =
      rows.find? fun b => r.bytes key ++ r.bytes sid <+: b.hashkey ∧
        b.hashkey <+: r.bytes key ++ r.bytes sid ++ r.spill := by
    -- without a NUL in the parameters, the two comparisons are the two prefixes
    refine List.find?_congr fun b hb => ?_
    rw [Bool.eq_iff_iff, decide_eq_true_eq]
    exact bothWays_iff (hrows b hb).zero_notMem_hashkey h0 (List.prefix_append _ r.spill)
  rw [decisionOf_charge_find hl, if_neg (by omega), hfind, quota]

end

/-- The strings that an empty result set leaves start with a NUL, and no path
does. -/
theorem urisidKnown_nil {mem p : List UInt8} {uri sid : NgxStr} (hp : p <+: mem.drop uri.data)
    (hplen : uri.len = p.length) (hne : p ≠ []) (hp0 : 0 ∉ p) :
    urisidKnown (initKeypool []) mem uri sid = false := by
  obtain ⟨c, p, rfl⟩ := List.exists_cons_of_ne_nil hne
  have hc : c ≠ 0 := fun h => hp0 (by simp [h])
  obtain ⟨rest, hrest⟩ := hp
  obtain ⟨tail, harray⟩ : ∃ tail, (initKeypool []).urisidarray = [0 :: tail] := ⟨_, rfl⟩
  -- the comparison ends at the first byte of the path
  have hcmp : strncmp (0 :: tail) (mem.drop uri.data) uri.len ≠ 0 := by
    rw [hplen, ← hrest, List.cons_append, List.length_cons, strncmp, compareBy, List.headD_cons, id,
      id, if_neg hc.symm, ne_eq, sub_toNat_eq_zero]
    exact hc.symm
  simp [urisidKnown, harray, hcmp]

/-- **What the checks decide**, for every table and every request that carries the
parameters `q`. -/
theorem decisionOf_checkWindow {rows : List Row} (hrows : ∀ a ∈ rows, a.Valid) {r : Request}
    {p q : List UInt8} {uri : NgxStr} {start base last : Nat}
    (h : Carries q r.mem start base last) (hp : p <+: r.mem.drop uri.data)
    (hplen : uri.len = p.length) (hne : p ≠ []) (hp0 : 0 ∉ p) (hq0 : 0 ∉ q) :
    r.decisionOf (checkWindow (initKeypool rows) r uri start last).verdict =
      decided rows p q (r.mem.drop last) r.spill := by
  -- a parameter that starts at `W` has the value at the head of `W`
  have hbytes : ∀ {s : NgxStr} {W : List UInt8}, r.mem.drop s.data = W ++ r.mem.drop last →
      s.len = (valueOf W).length → r.bytes s = valueOf W ∧ valueOf W <+: r.mem.drop s.data := by
    intro s W hdrop hlen
    have hpre : valueOf W <+: r.mem.drop s.data :=
      hdrop ▸ (List.takeWhile_prefix _).trans (List.prefix_append _ _)
    exact ⟨Request.bytes_of_prefix hpre hlen, hpre⟩
  have htail0 : ∀ {W : List UInt8}, (∃ e, q.drop e = W) → 0 ∉ W := by
    rintro W ⟨e, rfl⟩ h0
    exact hq0 (List.mem_of_mem_drop h0)
  -- a value in memory is too short for the length of the hash key to wrap
  have hlt : ∀ {s : NgxStr} {W : List UInt8}, valueOf W <+: r.mem.drop s.data →
      s.len = (valueOf W).length → s.len < 2 ^ 63 := by
    intro s W hpre hlen
    have hle := hpre.length_le
    rw [List.length_drop] at hle
    have := r.mem_lt
    omega
  obtain ⟨hsid, hkey⟩ := h.params r.mem_lt
  unfold checkWindow decided
  -- the cases follow the code: the `sid`, the path, the key, then the quota
  rcases hsid with ⟨hsid, htail⟩ | ⟨sid, S, hsid, htail, hdrop, hlen⟩
  · rw [hsid, htail]
    rfl
  rw [hsid, htail]
  dsimp only
  obtain ⟨hSbytes, hSpre⟩ := hbytes hdrop hlen
  have hS0 : 0 ∉ valueOf S := by
    obtain ⟨e, -, he⟩ := Option.map_eq_some_iff.mp htail
    exact fun h0 => htail0 ⟨e, he⟩ ((List.takeWhile_prefix _).mem h0)
  -- without rows the array has one string, which no path passes
  rcases eq_or_ne rows [] with rfl | hrowsne
  · rw [urisidKnown_nil hp hplen hne hp0, if_neg (by simp), if_neg (by simp [PathKnown])]
    rfl
  have hl := loaded_initKeypool hrowsne hrows
  have hknown := urisidKnown_iff hl hrows hp hplen hSpre hlen hp0 hS0
  by_cases hpath : PathKnown rows p (valueOf S)
  · rw [if_pos (hknown.mpr hpath), if_pos hpath]
    rcases hkey with ⟨hkey, hktail⟩ | ⟨key, W, hkey, hktail, hkdrop, hklen⟩
    · rw [hkey, hktail]
      rfl
    rw [hkey, hktail]
    dsimp only
    obtain ⟨hKbytes, hKpre⟩ := hbytes hkdrop hklen
    have hW0 : 0 ∉ W := by
      obtain ⟨e, -, he⟩ := Option.map_eq_some_iff.mp hktail
      exact htail0 ⟨e, he⟩
    have hkk := keyKnown_iff hl hrows hkdrop hklen hW0
    by_cases hmatch : KeyMatches rows W (r.mem.drop last)
    · rw [if_pos (hkk.mpr hmatch), if_pos hmatch]
      have h0 : 0 ∉ r.bytes key ++ r.bytes sid := by
        rw [hKbytes, hSbytes]
        simpa using ⟨fun h0 => hW0 ((List.takeWhile_prefix _).mem h0), hS0⟩
      have hpbytes : r.bytes uri = p := Request.bytes_of_prefix hp hplen
      have hcharge : r.decisionOf (charge (initKeypool rows) r uri sid key) = _ :=
        decisionOf_charge hl hrows (hlt hSpre hlen) (hlt hKpre hklen) h0
      rw [hKbytes, hSbytes, hpbytes] at hcharge
      exact hcharge
    · rw [if_neg (fun h => hmatch (hkk.mp h)), if_neg hmatch]
      rfl
  · rw [if_neg (fun h => hpath (hknown.mp h)), if_neg hpath]
    rfl

/-- The path of either request. -/
theorem TargetIs.path {p target : List UInt8} {r : Request} (h : TargetIs p target r)
    (hp : p <+: target) : p <+: r.mem.drop r.uriData := by
  have hplain : r.uriData = r.uriStart := h.plain
  rw [hplain]
  exact (h.slice_eq ▸ hp).trans (List.take_prefix _ _)

/-- The data of the GET request. -/
theorem IsGet.window_eq {p q behind : List UInt8} {r : Request} (h : IsGet p q behind r)
    (hp : PlainPath p) :
    r.window = some (⟨r.uriData, p.length⟩, r.uriStart, r.uriEnd) := by
  -- the first question mark of the target is the one behind the path
  have hfound : ngxStrlchr r.mem r.uriStart r.uriEnd question = some (r.uriStart + p.length) := by
    have hnone : p.findIdx? (· == question) = none := by
      rw [List.findIdx?_eq_none_iff]
      exact fun c hc => beq_eq_false_iff_ne.mpr fun hcq => hp.question_notMem (hcq ▸ hc)
    unfold ngxStrlchr
    rw [← slice, h.target.slice_eq, List.findIdx?_append]
    simp [hnone, List.findIdx?_cons]
  have hplain : r.uriData = r.uriStart := h.target.plain
  unfold Request.window
  rw [if_neg (by have := hp.two_le; have := h.target.uriLen; omega), h.method]
  simp [hfound, hplain]

/-- The path of the POST request. -/
theorem IsPost.postUri_eq {p q behind : List UInt8} {r : Request} (h : IsPost p q behind r)
    (hp : PlainPath p) : postUri r = ⟨r.uriData, p.length⟩ := by
  have hnone : ngxStrlchr r.mem r.uriStart r.uriEnd question = none := by
    rw [ngxStrlchr_eq_none, ← slice, h.target.slice_eq]
    exact hp.question_notMem
  rw [postUri, hnone, h.target.uriLen]

/-- **The GET request** is decided by its path and parameters. -/
theorem IsGet.decisionOf_check {rows : List Row} (hrows : ∀ a ∈ rows, a.Valid)
    {p q behind : List UInt8} (hp : PlainPath p) (hq : 0 ∉ q) {r : Request}
    (h : IsGet p q behind r) :
    r.decisionOf (check (initKeypool rows) r).verdict = decided rows p q behind r.spill := by
  have hne : p ≠ [] := fun h => by simpa [h] using hp.two_le
  rw [check_of_window (h.window_eq hp), ← h.behind_eq]
  exact decisionOf_checkWindow hrows (h.carries hp) (h.target.path (List.prefix_append _ _)) rfl hne
    hp.zero_notMem hq

/-- **The POST request** is decided by its path and parameters. -/
theorem IsPost.decisionOf_check {rows : List Row} (hrows : ∀ a ∈ rows, a.Valid)
    {p q behind : List UInt8} (hp : PlainPath p) (hq : 0 ∉ q) {r : Request}
    (h : IsPost p q behind r) :
    r.decisionOf (check (initKeypool rows) r).verdict = decided rows p q behind r.spill := by
  have hlen : ¬ r.uriLen ≤ 1 := by
    have := hp.two_le
    have := h.target.uriLen
    omega
  rcases h.body with ⟨pos, last, hbuf⟩ | ⟨rfl, hempty⟩
  · have hne : p ≠ [] := fun h => by simpa [h] using hp.two_le
    have hw := window_of_buffer h.method hbuf.body (not_le.mp hlen)
    rw [check_of_window hw, h.postUri_eq hp, ← hbuf.behind_eq]
    exact decisionOf_checkWindow hrows hbuf.carries (h.target.path List.prefix_rfl) rfl hne
      hp.zero_notMem hq
  -- no buffer is made for an empty body, and the answer is `400`
  · unfold check
    rw [if_neg hlen, h.method, hempty]
    rfl

/-! ### Agreement -/

/-- A loaded key consists of all of `W` and at least one byte behind it. -/
def Continued (rows : List Row) (W behind : List UInt8) : Prop :=
  ∃ k, KeyLoaded rows k ∧ ∃ z, z ≠ [] ∧ k = W ++ z ∧ z <+: behind

/-- A key matches inside the parameters or with the bytes behind them. -/
theorem keyMatches_iff {rows : List Row} {W behind : List UInt8} :
    KeyMatches rows W behind ↔ KeyMatches rows W [] ∨ Continued rows W behind := by
  constructor
  · rintro ⟨k, hk, hv, hpre⟩
    by_cases hkW : k <+: W
    · exact .inl ⟨k, hk, hv, by rwa [List.append_nil]⟩
    -- the key is longer than `W`, so it goes on in the bytes behind
    · obtain ⟨z, rfl⟩ :=
        (List.prefix_or_prefix_of_prefix hpre (List.prefix_append W behind)).resolve_left hkW
      refine .inr ⟨W ++ z, hk, z, ?_, rfl, (List.prefix_append_right_inj W).mp hpre⟩
      rintro rfl
      exact hkW (by rw [List.append_nil])
  · rintro (⟨k, hk, hv, hpre⟩ | ⟨k, hk, z, -, rfl, hz⟩)
    · rw [List.append_nil] at hpre
      exact ⟨k, hk, hv, hpre.trans (List.prefix_append _ _)⟩
    · refine ⟨W ++ z, hk, (List.takeWhile_prefix _).trans (List.prefix_append _ _), ?_⟩
      exact (List.prefix_append_right_inj W).mpr hz

/-- The decision from the quota on. -/
theorem limiter_inj {p S K hk : List UInt8} {x y : Option Nat} :
    ((match x with
      | none => Decision.status 403
      | some maxtps => .limiter p S K hk maxtps) =
      match y with
      | none => Decision.status 403
      | some maxtps => .limiter p S K hk maxtps) ↔ x = y := by
  cases x <;> cases y <;> simp

/-- **When two memories decide alike**, for the same path and parameters. -/
theorem decided_eq_iff {rows : List Row} {p q b b' sp sp' : List UInt8} :
    decided rows p q b sp = decided rows p q b' sp' ↔
      ∀ S W, sidTail q = some S → keyTail q = some W → PathKnown rows p (valueOf S) →
        (KeyMatches rows W [] ∨ (Continued rows W b ↔ Continued rows W b')) ∧
        (KeyMatches rows W b → quota rows (valueOf W ++ valueOf S) sp =
          quota rows (valueOf W ++ valueOf S) sp') := by
  unfold decided
  cases hS : sidTail q with
  | none => simp
  | some S =>
    by_cases hpath : PathKnown rows p (valueOf S)
    · cases hW : keyTail q with
      | none => simp
      | some W =>
        -- `q` has one `sid` and one key, so the condition is about these two
        have hcond : ∀ X : List UInt8 → List UInt8 → Prop,
            (∀ S' W', some S = some S' → some W = some W' → PathKnown rows p (valueOf S') →
              X S' W') ↔ X S W := by
          intro X
          refine ⟨fun h => h S W rfl rfl hpath, ?_⟩
          rintro h _ _ ⟨⟩ ⟨⟩ -
          exact h
        rw [hcond]
        simp only [hpath, if_true]
        -- a key that matches inside of `q` does so in both requests
        have hmatch : (KeyMatches rows W [] ∨ (Continued rows W b ↔ Continued rows W b')) ↔
            (KeyMatches rows W b ↔ KeyMatches rows W b') := by
          rw [show KeyMatches rows W b ↔ _ from keyMatches_iff,
            show KeyMatches rows W b' ↔ _ from keyMatches_iff]
          tauto
        rw [hmatch]
        -- `401` is the answer of this check only
        by_cases hb : KeyMatches rows W b <;> by_cases hb' : KeyMatches rows W b'
        · simp only [hb, hb', if_true, iff_self, true_and, forall_const]
          exact limiter_inj
        · simp only [hb, hb', if_true, if_false, iff_false, not_true, false_and, iff_false]
          split <;> simp
        · simp only [hb, hb', if_true, if_false, false_iff, not_true, false_and, iff_false]
          split <;> simp
        · simp [hb, hb']
    · simp only [hpath, if_false, Option.some.injEq, true_iff]
      rintro S' W rfl - hpath'
      exact absurd hpath' hpath

/-- **When GET and POST agree.** For every table loaded from valid rows, every
plain path `p`, all parameters `q` without a NUL, and every two requests
`GET p?q` and `POST p` with the body `q` in which no name that the searches
find reaches behind `q`: both get the same status, or the same path, `sid`,
`key`, hash key and rate are handed to the limiter, if and only if, should they
get as far as the key,

* a loaded key matches inside of `q`, or the bytes behind `q` complete a loaded
  key in both requests or in neither, and
* should the key pass, the bytes behind the block of the hash key lead to rows
  of the same rate. -/
theorem get_post_agree_iff {rows : List Row} (hrows : ∀ a ∈ rows, a.Valid) {p q : List UInt8}
    (hp : PlainPath p) (hq : 0 ∉ q) {r r' : Request} {behind behind' : List UInt8}
    (hget : IsGet p q behind r) (hpost : IsPost p q behind' r') :
    r.decisionOf (check (initKeypool rows) r).verdict =
        r'.decisionOf (check (initKeypool rows) r').verdict ↔
      ∀ S W, sidTail q = some S → keyTail q = some W → PathKnown rows p (valueOf S) →
        (KeyMatches rows W [] ∨ (Continued rows W behind ↔ Continued rows W behind')) ∧
        (KeyMatches rows W behind → quota rows (valueOf W ++ valueOf S) r.spill =
          quota rows (valueOf W ++ valueOf S) r'.spill) := by
  rw [hget.decisionOf_check hrows hp hq, hpost.decisionOf_check hrows hp hq, decided_eq_iff]

/-- A POST request with a plain target and a body in one buffer, between other
bytes of its buffer. -/
def plainPost (before path gap body rest spill : List UInt8)
    (h : (before ++ path ++ gap ++ body ++ rest).length < 2 ^ 63) : Request where
  accessControlSet := false
  method := .post
  mem := before ++ path ++ gap ++ body ++ rest
  uriData := before.length
  uriLen := path.length
  uriStart := before.length
  uriEnd := before.length + path.length
  body := .buffer (before ++ path ++ gap).length ((before ++ path ++ gap).length + body.length)
  spill := spill
  mem_lt := h
  uri_le := by omega
  uriEnd_le := by simp
  uriData_le := by simp
  uriLen_le := by simp
  body_le := by
    rintro pos last ⟨⟩
    simp
    omega

theorem nameBy_of_eq {name mem : List UInt8} {start last e : Nat}
    (h : matchEnd name mem start = some e) (he : e ≤ last) : NameBy name mem start last := by
  intro e' he'
  rw [h, Option.some.injEq] at he'
  omega

theorem plainPath_a : PlainPath (ascii "/a") := by
  have hshort : ∀ (name : List UInt8), name.length = 4 → ∀ j, ¬ CiMatch name ((ascii "/a").drop j) := by
    intro name hname j hm
    have hle := hm.length_le
    rw [List.length_drop, hname, show (ascii "/a").length = 2 by decide] at hle
    omega
  exact ⟨by decide, by decide, by decide, hshort _ rfl, hshort _ rfl⟩

/-- `GET /a?sid=1&key=k` -/
def exampleGet : Request :=
  plainGet (ascii "GET ") (ascii "/a") (ascii "sid=1&key=k") (ascii " HTTP/1.1\r\n") [] (by decide)

/-- `POST /a` with the body `sid=1&key=k`, and one byte behind it. -/
def examplePost (stray : UInt8) : Request :=
  plainPost (ascii "POST ") (ascii "/a") (ascii " HTTP/1.1\r\n\r\n") (ascii "sid=1&key=k") [stray] []
    (by simp; decide)

theorem isGet_example : IsGet (ascii "/a") (ascii "sid=1&key=k") (ascii " HTTP/1.1\r\n") exampleGet := by
  have hsid : matchEnd sidName exampleGet.mem 4 = some 11 := by decide +kernel
  have hamp : matchEnd ampKeyName exampleGet.mem 4 = some 17 := by decide +kernel
  have hkey : matchEnd keyName exampleGet.mem 4 = some 17 := by decide +kernel
  exact ⟨rfl, ⟨rfl, rfl, by decide +kernel⟩,
    ⟨nameBy_of_eq hsid (by decide), nameBy_of_eq hamp (by decide), nameBy_of_eq hkey (by decide)⟩,
    by decide +kernel⟩

theorem isPost_example (stray : UInt8) (h : stray = 0 ∨ stray = 0x31) :
    IsPost (ascii "/a") (ascii "sid=1&key=k") [stray] (examplePost stray) := by
  have hsid : matchEnd sidName (examplePost stray).mem 20 = some 24 := by
    rcases h with rfl | rfl <;> decide +kernel
  have hamp : matchEnd ampKeyName (examplePost stray).mem 20 = some 30 := by
    rcases h with rfl | rfl <;> decide +kernel
  have hkey : matchEnd keyName (examplePost stray).mem 20 = some 30 := by
    rcases h with rfl | rfl <;> decide +kernel
  refine ⟨rfl, ⟨rfl, rfl, ?_⟩, .inl ⟨20, 31, by rfl, ?_, ?_, ?_⟩⟩
  · rcases h with rfl | rfl <;> decide +kernel
  · rcases h with rfl | rfl <;> decide +kernel
  · exact ⟨nameBy_of_eq hsid (by decide), nameBy_of_eq hamp (by decide),
      nameBy_of_eq hkey (by decide)⟩
  · rcases h with rfl | rfl <;> decide +kernel

/-- A key that stands in the parameters. -/
theorem get_post_agree_usual :
    let rows : List Row := [⟨ascii "k", ascii "/a", 1, ascii "1"⟩]
    exampleGet.decisionOf (check (initKeypool rows) exampleGet).verdict =
      (examplePost 0).decisionOf (check (initKeypool rows) (examplePost 0)).verdict := by
  intro rows
  have hrows : ∀ a ∈ rows, a.Valid := by
    intro a ha
    obtain rfl : a = _ := List.mem_singleton.mp ha
    exact ⟨by decide, by decide, by decide⟩
  refine (get_post_agree_iff hrows plainPath_a (by decide) isGet_example
    (isPost_example 0 (.inl rfl))).mpr fun S W _ hW _ => ⟨.inl ?_, fun _ => rfl⟩
  have htail : keyTail (ascii "sid=1&key=k") = some (ascii "k") := by decide +kernel
  obtain rfl : ascii "k" = W := Option.some.inj (htail.symm.trans hW)
  exact ⟨ascii "k", ⟨[], _, [], rfl, rfl, by simp⟩, by decide, by decide⟩

/-- **A byte behind the body.** The only key is `k1`. The GET request with the key
`k` is answered with `401`; so would be the POST request, but for the `1` that
follows its body in memory: the key passes as `k1`, and the answer is `403`. -/
theorem get_post_disagree :
    let rows : List Row := [⟨ascii "k1", ascii "/a", 1, ascii "1"⟩]
    (∀ a ∈ rows, a.Valid) ∧ PlainPath (ascii "/a") ∧
      IsGet (ascii "/a") (ascii "sid=1&key=k") (ascii " HTTP/1.1\r\n") exampleGet ∧
      IsPost (ascii "/a") (ascii "sid=1&key=k") [0x31] (examplePost 0x31) ∧
      exampleGet.decisionOf (check (initKeypool rows) exampleGet).verdict = .status 401 ∧
      (examplePost 0x31).decisionOf (check (initKeypool rows) (examplePost 0x31)).verdict =
        .status 403 := by
  intro rows
  refine ⟨fun a ha => ?_, plainPath_a, isGet_example, isPost_example 0x31 (.inr rfl),
    by decide +kernel, by decide +kernel⟩
  obtain rfl : a = _ := List.mem_singleton.mp ha
  exact ⟨by decide, by decide, by decide⟩

end AccessControl
