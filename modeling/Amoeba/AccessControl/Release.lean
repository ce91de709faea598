import Amoeba.AccessControl.Extraction
import Amoeba.AccessControl.Pinning

/-!
# What a call of the handler leaves pinned

A call pins a node in each zone that admits the request, except in the last
one. The charging loop and the roll-back loop give these pins back. A status
returned from inside the loop over the zones skips both.

* `zoneLoop_append` — the zones that admit the request are pinned one after
  the other, and the loop goes on behind them.
* `lookup_count` — what a lookup does to the count of a node that stays.
* `handler_releases_iff` — for every list of zones and every request, exactly
  when a call leaves nothing pinned and no count changed.
-/

namespace AccessControl

open CString

/-! ### Zones that admit a request -/

/-- A lookup that does not charge admits the request: the node it finds has
room for it, or a node can be allocated. -/
def Slot.admits (A : Arith) (s : Slot) (g : Grant) : Bool :=
  match (s.query g false).search s.zone.queue with
  | some lr =>
    ¬ A.unsigned (s.limit.burst * g.maxtps) <
      A.charged lr.excess g.maxtps (A.elapsed s.now lr.last)
  | none => s.alloc ∨ s.realloc

/-- The zone's checks let the request through and its limiter admits it. -/
def Slot.passes (A : Arith) (r : Request) (s : Slot) : Bool :=
  match (check s.limit.table r).verdict with
  | .grant g => s.admits A g
  | _ => false

/-- The zone after the lookup of a request that it admits and that it is not
the last one for. -/
def Slot.pin (A : Arith) (r : Request) (s : Slot) : Slot :=
  match (check s.limit.table r).verdict with
  | .grant g => s.answered (lookup A s.zone (s.query g false))
  | _ => s

/-- The zones from the one on that ends the loop: the first one that does not
pass the request, or the last one. -/
def endZones (A : Arith) (r : Request) : List Slot → List Slot
  | [] => []
  | s :: rest => if s.passes A r ∧ ¬ rest.isEmpty then endZones A r rest else s :: rest

theorem lookup_again_iff {A : Arith} {s : Slot} {g : Grant} {account : Bool} :
    (lookup A s.zone (s.query g account)).rc = .again ↔ account = false ∧ s.admits A g := by
  -- whether a node is found does not depend on `account`
  have hsearch : (s.query g account).search s.zone.queue =
      (s.query g false).search s.zone.queue := rfl
  have hburst : A.unsigned ((s.query g account).burst * (s.query g account).maxtps) =
      A.unsigned (s.limit.burst * g.maxtps) := rfl
  unfold Slot.admits
  rcases lookup_cases A s.zone (s.query g account) with
    ⟨lr, hs, hb, heq⟩ | ⟨lr, hs, hb, heq⟩ | ⟨hs, ha, heq⟩ | ⟨hs, ha, heq⟩
  · rw [heq, ← hsearch, hs]
    simp only [decide_eq_true_eq, reduceCtorEq, false_iff, not_and, not_not]
    exact fun _ => hb
  · rw [heq, ← hsearch, hs]
    cases account
    · simpa [Slot.query] using hb
    · simp [Slot.query]
  · rw [heq, ← hsearch, hs]
    cases account
    · simpa [Slot.query] using ha
    · simp [Slot.query]
  · rw [heq, ← hsearch, hs]
    simp only [decide_eq_true_eq, reduceCtorEq, false_iff, not_and]
    exact fun _ => ha

theorem Slot.passes_iff {A : Arith} {r : Request} {s : Slot} :
    s.passes A r ↔ ∃ g, (check s.limit.table r).verdict = .grant g ∧ s.admits A g := by
  unfold Slot.passes
  cases (check s.limit.table r).verdict <;> simp

/-- **One step of the loop**: a zone that admits the request and is not the
last one is pinned, and the loop goes on. -/
theorem zoneLoop_cons_of_passes {A : Arith} {r : Request} {s : Slot} (h : s.passes A r)
    (before : List Slot) {rest : List Slot} (hrest : rest ≠ []) :
    zoneLoop A r before (s :: rest) =
      { zoneLoop A r (s.pin A r :: before) rest with
        stores := (check s.limit.table r).stores ++
          (zoneLoop A r (s.pin A r :: before) rest).stores } := by
  obtain ⟨g, hg, hadmits⟩ := Slot.passes_iff.mp h
  obtain ⟨s', rest, rfl⟩ := List.exists_cons_of_ne_nil hrest
  have hrc : (lookup A s.zone (s.query g false)).rc = .again :=
    lookup_again_iff.mpr ⟨rfl, hadmits⟩
  rw [zoneLoop]
  simp only [hg, List.isEmpty_cons, hrc, Slot.pin]

/-- **The loop over zones that admit the request.** -/
theorem zoneLoop_append {A : Arith} {r : Request} {pre : List Slot}
    (hpre : ∀ s ∈ pre, s.passes A r) (before rest : List Slot) (hrest : rest ≠ []) :
    let l := zoneLoop A r ((pre.map (Slot.pin A r)).reverse ++ before) rest
    (zoneLoop A r before (pre ++ rest)).before = l.before ∧
      (zoneLoop A r before (pre ++ rest)).after = l.after ∧
      (zoneLoop A r before (pre ++ rest)).stop = l.stop := by
  -- on the zones that admit the request, each of which is added to `before`
  induction pre generalizing before with
  | nil => exact ⟨rfl, rfl, rfl⟩
  | cons s pre ih =>
    have hih := ih (fun x hx => hpre x (List.mem_cons_of_mem _ hx)) (s.pin A r :: before)
    rw [List.cons_append, zoneLoop_cons_of_passes (hpre s List.mem_cons_self) before (by simp [hrest])]
    simpa using hih

/-- The zones in front of the one that ends the loop all admit the request. -/
theorem endZones_spec (A : Arith) (r : Request) {slots : List Slot} (hne : slots ≠ []) :
    ∃ pre s post, slots = pre ++ s :: post ∧ endZones A r slots = s :: post ∧
      (∀ x ∈ pre, x.passes A r) ∧ (s.passes A r → post = []) := by
  induction slots with
  | nil => exact absurd rfl hne
  | cons s rest ih =>
    rw [endZones]
    -- the loop goes on past this zone, or this zone ends it
    by_cases hgo : s.passes A r ∧ ¬ rest.isEmpty
    · rw [if_pos hgo]
      obtain ⟨pre, t, post, hsplit, hend, hpre, hpost⟩ := ih (by simpa using hgo.2)
      refine ⟨s :: pre, t, post, by rw [hsplit, List.cons_append], hend, ?_, hpost⟩
      exact List.forall_mem_cons.mpr ⟨hgo.1, hpre⟩
    · rw [if_neg hgo]
      refine ⟨[], s, rest, rfl, rfl, by simp, fun hpass => ?_⟩
      simpa [hpass] using hgo

/-! ### Counts -/

/-- The nodes of a zone are different allocations, and the next one is new. -/
structure Zone.Distinct (z : Zone) : Prop where
  ids_nodup : (z.queue.map Node.id).Nodup
  id_lt : ∀ lr ∈ z.queue, lr.id < z.nextId

theorem Zone.distinct_initial : Zone.initial.Distinct := ⟨by simp [Zone.initial], by simp [Zone.initial]⟩

theorem Zone.Distinct.eq_of_id {z : Zone} (h : z.Distinct) {lr lr' : Node} (hlr : lr ∈ z.queue)
    (hlr' : lr' ∈ z.queue) (hid : lr'.id = lr.id) : lr' = lr :=
  List.inj_on_of_nodup_map h.ids_nodup hlr' hlr hid

/-- No node that was there before and still is has another count. -/
def Zone.CountsKept (z z' : Zone) : Prop :=
  ∀ lr ∈ z.queue, ∀ lr' ∈ z'.queue, lr'.id = lr.id → lr'.count = lr.count

theorem Zone.Distinct.countsKept_self {z : Zone} (h : z.Distinct) : z.CountsKept z :=
  fun _ hlr _ hlr' hid => by rw [h.eq_of_id hlr hlr' hid]

/-- **What a lookup does to a count**: the node that it pins has one more, every
other node that stays has what it had. -/
theorem lookup_count {A : Arith} {z : Zone} (hz : z.Distinct) (q : Query) {lr lr' : Node}
    (hlr : lr ∈ z.queue) (hlr' : lr' ∈ (lookup A z q).zone.queue) (hid : lr'.id = lr.id) :
    lr'.count = lr.count + if (lookup A z q).pinned = some lr.id then 1 else 0 := by
  have hqueue : z.queue.Nodup := hz.ids_nodup.of_map
  rcases lookup_cases A z q with ⟨x, hs, -, heq⟩ | ⟨x, hs, -, heq⟩ | ⟨-, -, heq⟩ | ⟨-, -, heq⟩
  · -- refused: the node only moves to the front
    rw [heq] at hlr' ⊢
    have hmem : lr' ∈ z.queue := (List.perm_cons_erase (Query.mem_of_search hs).1).mem_iff.mpr hlr'
    simp [hz.eq_of_id hlr hmem hid]
  · -- let through: only the node in front has been written to
    rw [heq] at hlr' ⊢
    have hx := (Query.mem_of_search hs).1
    rcases List.mem_cons.mp hlr' with rfl | hlr'
    · rw [Query.touch_id] at hid
      obtain rfl : x = lr := hz.eq_of_id hlr hx hid
      cases hq : q.account <;> simp [Query.touch, hq]
    · -- a node behind the front one is not the one that was touched
      obtain ⟨hne, hmem⟩ := (List.Nodup.mem_erase_iff hqueue).mp hlr'
      obtain rfl : lr' = lr := hz.eq_of_id hlr hmem hid
      have hxid : x.id ≠ lr'.id := fun h => hne (hz.eq_of_id hx hmem h.symm)
      cases hq : q.account <;> simp [hxid]
  · rw [heq] at hlr' ⊢
    have hlt := hz.id_lt lr hlr
    rcases List.mem_cons.mp hlr' with rfl | hlr'
    · -- the fresh node was not there before
      exact absurd hid hlt.ne'
    · have hmem := q.room_subset A z.queue lr' hlr'
      obtain rfl : lr' = lr := hz.eq_of_id hlr hmem hid
      cases hq : q.account <;> simp [hlt.ne']
  · rw [heq] at hlr' ⊢
    have hmem := q.room_subset A z.queue lr' hlr'
    simp [hz.eq_of_id hlr hmem hid]

theorem lookup_pinned_isSome {A : Arith} {z : Zone} {q : Query} :
    (lookup A z q).pinned.isSome ↔ (lookup A z q).rc = .again := by
  rcases lookup_cases A z q with ⟨_, _, _, heq⟩ | ⟨_, _, _, heq⟩ | ⟨_, _, heq⟩ | ⟨_, _, heq⟩ <;>
    rw [heq] <;> cases q.account <;> simp

/-- What a call has to leave in a zone: `ctx->node` is null, and every node that
is still there has the count it had. -/
def Slot.Released (s s' : Slot) : Prop := s'.node = none ∧ s.zone.CountsKept s'.zone

/-- A zone whose lookup pins nothing is released exactly when the worker held no
pointer there. -/
theorem Slot.released_answered {A : Arith} {s : Slot} (hz : s.zone.Distinct) {q : Query}
    (hrc : (lookup A s.zone q).rc ≠ .again) :
    s.Released (s.answered (lookup A s.zone q)) ↔ s.node = none := by
  have hnone : (lookup A s.zone q).pinned = none := by
    rw [← Option.not_isSome_iff_eq_none, lookup_pinned_isSome]
    exact hrc
  -- without a pin no count moves
  have hkept : s.zone.CountsKept (lookup A s.zone q).zone := by
    intro lr hlr lr' hlr' hid
    simpa [hnone] using lookup_count hz q hlr hlr' hid
  simp [Slot.Released, Slot.answered, hnone, hkept]

theorem Slot.released_self {s : Slot} (hz : s.zone.Distinct) : s.Released s ↔ s.node = none :=
  and_iff_left hz.countsKept_self

/-- A zone that admitted the request holds a pin. -/
theorem Slot.pin_spec {A : Arith} {r : Request} {s : Slot} (h : s.passes A r) :
    ∃ q id, s.pin A r = { s with zone := (lookup A s.zone q).zone, node := some id } ∧
      (lookup A s.zone q).pinned = some id := by
  obtain ⟨g, hg, hadmits⟩ := Slot.passes_iff.mp h
  have hsome := lookup_pinned_isSome.mpr (lookup_again_iff.mpr ⟨rfl, hadmits⟩)
  obtain ⟨id, hid⟩ := Option.isSome_iff_exists.mp hsome
  refine ⟨s.query g false, id, ?_, hid⟩
  simp only [Slot.pin, hg, Slot.answered, hid, Option.some_or]

/-- **A pin that is given back leaves no trace in the counts**, whatever else is
written to the node. -/
theorem Zone.CountsKept.giveBack {A : Arith} {z : Zone} (hz : z.Distinct) {q : Query} {id : Nat}
    (hpin : (lookup A z q).pinned = some id) {f : Node → Node} (hfid : ∀ lr, (f lr).id = lr.id)
    (hf : ∀ lr, (f lr).count = lr.count - 1) :
    z.CountsKept ((lookup A z q).zone.modify id f) := by
  intro lr hlr lr' hlr' hid
  obtain ⟨x, hx, rfl⟩ := List.mem_map.mp hlr'
  by_cases hxid : x.id = id
  · rw [if_pos hxid] at hid ⊢
    rw [hfid] at hid
    -- the lookup added one to this count, the write takes it off
    have hcount := lookup_count hz q hlr hx hid
    rw [if_pos (by rw [hpin, ← hid, hxid])] at hcount
    rw [hf, hcount]
    omega
  · rw [if_neg hxid] at hid ⊢
    have hcount := lookup_count hz q hlr hx hid
    rwa [if_neg (by rw [hpin, ← hid]; simpa using Ne.symm hxid), add_zero] at hcount

theorem Slot.released_rollback {A : Arith} {r : Request} {s : Slot} (hz : s.zone.Distinct)
    (h : s.passes A r) : s.Released (s.pin A r).rollback := by
  obtain ⟨q, id, heq, hpin⟩ := Slot.pin_spec h
  rw [heq]
  exact ⟨rfl, Zone.CountsKept.giveBack hz hpin (fun _ => rfl) fun _ => rfl⟩

theorem Slot.released_account {A : Arith} {r : Request} {s : Slot} (hz : s.zone.Distinct)
    (h : s.passes A r) (maxtps : Nat) : s.Released ((s.pin A r).account A maxtps).1 := by
  obtain ⟨q, id, heq, hpin⟩ := Slot.pin_spec h
  rw [heq]
  exact ⟨rfl, Zone.CountsKept.giveBack hz hpin (fun _ => rfl) fun _ => rfl⟩

/-! ### The handler -/

/-- **The end of the loop**: the zone that ends it is the last one or does not
admit the request, so that its lookup pins nothing. -/
theorem zoneLoop_end {A : Arith} {r : Request} {s : Slot} {post : List Slot} {g : Grant}
    (hend : s.passes A r → post = []) (hg : (check s.limit.table r).verdict = .grant g)
    (before : List Slot) :
    let a := lookup A s.zone (s.query g post.isEmpty)
    a.rc ≠ .again ∧ (zoneLoop A r before (s :: post)).before = before ∧
      (zoneLoop A r before (s :: post)).after = s.answered a :: post ∧
      (zoneLoop A r before (s :: post)).stop = .left a.rc a.excess g.maxtps s.limit.nodelay := by
  intro a
  -- `NGX_AGAIN` means that the zone passes and is not the last one
  have hrc : a.rc ≠ .again := by
    intro hagain
    obtain ⟨hlast, hadmits⟩ := lookup_again_iff.mp hagain
    have hnil := hend (Slot.passes_iff.mpr ⟨g, hg, hadmits⟩)
    simp [hnil] at hlast
  refine ⟨hrc, ?_⟩
  rw [zoneLoop]
  simp only [hg]
  change a.rc ≠ .again at hrc
  cases hcode : a.rc with
  | again => exact absurd hcode hrc
  | ok => exact ⟨rfl, rfl, rfl⟩
  | busy => exact ⟨rfl, rfl, rfl⟩
  | error => exact ⟨rfl, rfl, rfl⟩

/-- The zones whose `ctx->node` a call does not write. -/
def leftZones (A : Arith) (r : Request) (slots : List Slot) : List Slot :=
  if r.accessControlSet then slots else endZones A r slots

/-- The condition for a call to leave nothing pinned: the worker held no pointer
in the zones that the call does not pin, and the zone that ends the loop is the
first one or is not refused by a status. -/
structure HandsBack (A : Arith) (r : Request) (slots : List Slot) : Prop where
  idle : ∀ s ∈ leftZones A r slots, s.node = none
  first : leftZones A r slots = slots ∨
    ∀ s ∈ (leftZones A r slots).head?, ∀ code, (check s.limit.table r).verdict ≠ .status code

/-- A pass over the front of a list, related to it element by element. -/
theorem forall₂_map_append_iff {α : Type} {R : α → α → Prop} {f : α → α} {pre post post' : List α} :
    List.Forall₂ R (pre ++ post) (pre.map f ++ post') ↔
      (∀ x ∈ pre, R x (f x)) ∧ List.Forall₂ R post post' := by
  induction pre with
  | nil => simp
  | cons x pre ih => simp [ih, and_assoc]

/-- The zones after a call: a pass over the zones in front of the one that ended
the loop, that zone, and the others as they were. -/
theorem released_iff {pre post : List Slot} {s s' : Slot} {f : Slot → Slot}
    (hpost : ∀ x ∈ post, x.zone.Distinct) :
    List.Forall₂ Slot.Released (pre ++ s :: post) (pre.map f ++ s' :: post) ↔
      (∀ x ∈ pre, x.Released (f x)) ∧ s.Released s' ∧ ∀ x ∈ post, x.node = none := by
  rw [forall₂_map_append_iff, List.forall₂_cons, List.forall₂_same,
    forall₂_congr fun x hx => Slot.released_self (hpost x hx)]

section Slots

variable (A : Arith) (statusCode : Nat) (readEventOk : Bool) {r : Request} {pre post : List Slot}
  {s : Slot}

/-- A status from inside the loop leaves the pins of the earlier zones behind. -/
theorem handler_slots_of_status (hset : ¬ r.accessControlSet) (hpre : ∀ x ∈ pre, x.passes A r)
    {code : Nat} (hv : (check s.limit.table r).verdict = .status code) :
    (handler A statusCode readEventOk r (pre ++ s :: post)).slots =
      pre.map (Slot.pin A r) ++ s :: post := by
  obtain ⟨hbefore, hafter, hstop⟩ := zoneLoop_append hpre [] (s :: post) (by simp)
  rw [zoneLoop, hv] at hbefore hafter hstop
  -- `return` in the loop: the visited zones are left as their lookups left them
  rw [handler, if_neg hset]
  dsimp only
  rw [hstop, hbefore, hafter]
  simp

/-- A lookup that ends the loop is followed by one pass over the earlier zones,
which charges or releases what they pinned. -/
theorem handler_slots_of_grant (hset : ¬ r.accessControlSet) (hpre : ∀ x ∈ pre, x.passes A r)
    (hlast : s.passes A r → post = []) {g : Grant}
    (hv : (check s.limit.table r).verdict = .grant g) :
    ∃ f, (f = Slot.rollback ∨ f = fun x => (x.account A g.maxtps).1) ∧
      (handler A statusCode readEventOk r (pre ++ s :: post)).slots =
        pre.map (fun x => f (x.pin A r)) ++
          s.answered (lookup A s.zone (s.query g post.isEmpty)) :: post := by
  obtain ⟨hbefore, hafter, hstop⟩ := zoneLoop_append hpre [] (s :: post) (by simp)
  obtain ⟨-, hb, ha, hs⟩ := zoneLoop_end hlast hv ((pre.map (Slot.pin A r)).reverse ++ [])
  rw [handler, if_neg hset]
  dsimp only
  rw [hstop.trans hs, hbefore.trans hb, hafter.trans ha]
  dsimp only
  -- busy or failed: roll-back; else the accounting loop
  split
  · exact ⟨Slot.rollback, Or.inl rfl, by simp [List.map_reverse]⟩
  · exact ⟨_, Or.inr rfl, by simp [account_fst, List.map_reverse]⟩

end Slots

/-- **Every exit that hands back its pins.** For every list of zones and every
request, a call that returns leaves every `ctx->node` null and every count of a
node that stays as it was, exactly when no zone refuses the request with a
status after an earlier zone has pinned a node for it, and the worker held no
pointer in the zones that the call does not pin. -/
theorem handler_releases_iff (A : Arith) (statusCode : Nat) (readEventOk : Bool) (r : Request)
    (slots : List Slot) (hz : ∀ s ∈ slots, s.zone.Distinct)
    (hret : (handler A statusCode readEventOk r slots).outcome ≠ .fault) :
    List.Forall₂ Slot.Released slots (handler A statusCode readEventOk r slots).slots ↔
      HandsBack A r slots := by
  by_cases hset : r.accessControlSet
  · -- a request that has been counted already is let through
    have hleft : leftZones A r slots = slots := if_pos hset
    rw [handler, if_pos hset, List.forall₂_same]
    rw [forall₂_congr fun x hx => Slot.released_self (hz x hx)]
    exact ⟨fun h => ⟨by rwa [hleft], Or.inl hleft⟩, fun h => by simpa [hleft] using h.idle⟩
  have hleft : leftZones A r slots = endZones A r slots := if_neg hset
  rcases eq_or_ne slots [] with rfl | hne
  · rw [handler, if_neg hset]
    exact ⟨fun _ => ⟨by simp [hleft, endZones], Or.inl hleft⟩, fun _ => .nil⟩
  -- the zones in front are pinned, `s` ends the loop, those behind are not visited
  obtain ⟨pre, s, post, rfl, hend, hpre, hlast⟩ := endZones_spec A r hne
  rw [hend] at hleft
  have hzpre : ∀ x ∈ pre, x.zone.Distinct := fun x hx => hz x (by simp [hx])
  have hzs : s.zone.Distinct := hz s (by simp)
  have hzpost : ∀ x ∈ post, x.zone.Distinct := fun x hx => hz x (by simp [hx])
  have hidle : (∀ x ∈ leftZones A r (pre ++ s :: post), x.node = none) ↔
      s.node = none ∧ ∀ x ∈ post, x.node = none := by
    rw [hleft, List.forall_mem_cons]
  have hfirst : leftZones A r (pre ++ s :: post) = pre ++ s :: post ↔ pre = [] := by
    rw [hleft]
    simp
  cases hv : (check s.limit.table r).verdict with
  | status code =>
    -- nothing is rolled back, so that no zone may stand in front of this one
    rw [handler_slots_of_status A _ _ hset hpre hv, released_iff hzpost, Slot.released_self hzs]
    have hpinned : (∀ x ∈ pre, x.Released (x.pin A r)) ↔ pre = [] := by
      refine ⟨fun h => List.eq_nil_iff_forall_not_mem.mpr fun x hx => ?_, fun h => by simp [h]⟩
      obtain ⟨q, id, heq, -⟩ := Slot.pin_spec (hpre x hx)
      have hnull := (h x hx).1
      simp [heq] at hnull
    rw [hpinned]
    constructor
    · rintro ⟨hnil, hrest⟩
      exact ⟨hidle.mpr hrest, Or.inl (hfirst.mpr hnil)⟩
    · intro h
      refine ⟨h.first.elim hfirst.mp fun hno => ?_, hidle.mp h.idle⟩
      exact absurd hv (hno s (by simp [hleft]) code)
  | fault =>
    -- the call would not return
    obtain ⟨-, -, hstop⟩ := zoneLoop_append hpre [] (s :: post) (by simp)
    rw [zoneLoop, hv] at hstop
    simp [handler, hset, hstop] at hret
  | grant g =>
    obtain ⟨f, hf, hslots⟩ :=
      handler_slots_of_grant A statusCode readEventOk hset hpre hlast hv
    obtain ⟨hrc, -⟩ := zoneLoop_end hlast hv []
    -- whichever pass follows, it gives back what the zones in front have pinned
    have hpass : ∀ x ∈ pre, x.Released (f (x.pin A r)) := by
      intro x hx
      rcases hf with rfl | rfl
      · exact Slot.released_rollback (hzpre x hx) (hpre x hx)
      · exact Slot.released_account (hzpre x hx) (hpre x hx) g.maxtps
    have hno : ∀ x ∈ (leftZones A r (pre ++ s :: post)).head?, ∀ code,
        (check x.limit.table r).verdict ≠ .status code := by
      rw [hleft, List.head?_cons]
      intro x hx code
      obtain rfl : s = x := by simpa using hx
      simp [hv]
    rw [hslots, released_iff hzpost, Slot.released_answered hzs hrc]
    exact ⟨fun h => ⟨hidle.mpr h.2, Or.inr hno⟩, fun h => ⟨hpass, hidle.mp h.idle⟩⟩

/-- The rows of two zones, each loaded by its own query. -/
def rowsOfFirst : List Row := [⟨ascii "k", ascii "/a", 1, ascii "1"⟩]

@[inherit_doc rowsOfFirst]
def rowsOfSecond : List Row := [⟨ascii "k", ascii "/b", 1, ascii "1"⟩]

theorem firstZoneGet_lt : (ascii "GET " ++ ascii "/a" ++ [question] ++ ascii "sid=1&key=k" ++
    ascii " HTTP/1.1\r\n").length < 2 ^ 63 := by
  decide

/-- A request that the first zone admits. -/
def firstZoneGet : Request :=
  plainGet (ascii "GET ") (ascii "/a") (ascii "sid=1&key=k") (ascii " HTTP/1.1\r\n") []
    firstZoneGet_lt

theorem distinct_freshSlot {tables : List Table} :
    ∀ s ∈ tables.map (freshSlot · 1), s.zone.Distinct := by
  intro s hs
  obtain ⟨t, -, rfl⟩ := List.mem_map.mp hs
  exact Zone.distinct_initial

/-- Two zones with the same table: the pin of the first one is handed back. -/
theorem handler_releases_same_tables :
    let slots := [initKeypool rowsOfFirst, initKeypool rowsOfFirst].map (freshSlot · 1)
    HandsBack .exact firstZoneGet slots ∧
      List.Forall₂ Slot.Released slots (handler .exact 503 true firstZoneGet slots).slots := by
  intro slots
  have hpass : (freshSlot (initKeypool rowsOfFirst) 1).passes .exact firstZoneGet := by
    decide +kernel
  obtain ⟨g, hg, -⟩ := Slot.passes_iff.mp hpass
  have hleft : leftZones .exact firstZoneGet slots = [freshSlot (initKeypool rowsOfFirst) 1] := by
    simp [leftZones, slots, endZones, hpass, show firstZoneGet.accessControlSet = false from rfl]
  have hback : HandsBack .exact firstZoneGet slots := by
    refine ⟨by simp [hleft, freshSlot], Or.inr ?_⟩
    rw [hleft, List.head?_cons]
    intro s hs code
    obtain rfl : freshSlot (initKeypool rowsOfFirst) 1 = s := by simpa using hs
    simp [hg]
  have hiff := handler_releases_iff .exact 503 true firstZoneGet slots distinct_freshSlot
    (by decide +kernel)
  exact ⟨hback, hiff.mpr hback⟩

/-- **A pin that stays behind.** The first zone admits the request and pins its
node; the second zone does not know the path, and the status is returned with
the first zone's `ctx->node` still set and the count of its node still raised. -/
theorem handler_leaks_first_pin :
    let slots := [initKeypool rowsOfFirst, initKeypool rowsOfSecond].map (freshSlot · 1)
    let h := handler .exact 503 true firstZoneGet slots
    (∀ s ∈ slots, s.zone.Distinct ∧ s.node = none) ∧ h.outcome = .status 400 ∧
      h.slots.map Slot.node = [some 0, none] ∧
      h.slots.map (·.zone.queue.map Node.count) = [[1], []] ∧
      ¬ List.Forall₂ Slot.Released slots h.slots := by
  intro slots h
  have hnode : h.slots.map Slot.node = [some 0, none] := by decide +kernel
  refine ⟨fun s hs => ⟨distinct_freshSlot s hs, ?_⟩, by decide +kernel, hnode, by decide +kernel,
    fun hall => ?_⟩
  · obtain ⟨t, -, rfl⟩ := List.mem_map.mp hs
    rfl
  · obtain ⟨x, xs, ⟨hx, -⟩, -, hslots⟩ := List.forall₂_cons_left_iff.mp hall
    rw [hslots, List.map_cons, hx] at hnode
    simp at hnode

end AccessControl
