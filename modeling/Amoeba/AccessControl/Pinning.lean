import Amoeba.AccessControl.Handler

/-!
# Pinned nodes under interleaving

A request that passes a zone which is not the last one pins its node there:
the lookup increments the node's count and stores the pointer in the worker's
own `ctx->node`. The lock is released before the node is charged or released,
so that the locked steps of other workers come in between: lookups of any key,
which expire entries, and charges and releases of the same node.

`Shared` is the state of one zone together with the `ctx->node` of every
worker, `Step` is one locked step of one worker. The assignment of null that
follows the critical section of a charge or a release is private to the
worker and part of its step.

`Pinned` is the invariant that carries the argument: the count of a node is at
least the number of workers that point to it. It is an inequality because a
worker may overwrite a pointer it never gave back, which leaves the count too
high but never too low.
-/

namespace AccessControl

variable {W : Type} [Fintype W]

/-- A zone shared by the workers `W`, and the `ctx->node` of each of them. -/
structure Shared (W : Type) where
  zone : Zone
  node : W → Option Nat

/-- The zone after its initialisation, pinned by no worker. -/
def Shared.initial : Shared W := { zone := Zone.initial, node := fun _ => none }

/-! ### Counting references -/

/-- How many workers point to the node `id`. -/
def refs (node : W → Option Nat) (id : Nat) : Nat :=
  (Finset.univ.filter fun w => node w = some id).card

theorem refs_pos_iff {node : W → Option Nat} {id : Nat} :
    0 < refs node id ↔ ∃ w, node w = some id := by
  rw [refs, Finset.card_pos]
  simp [Finset.Nonempty]

/-- A node that no further worker points to has no more references than before. -/
theorem refs_mono {node node' : W → Option Nat} {id : Nat}
    (h : ∀ w, node' w = some id → node w = some id) : refs node' id ≤ refs node id := by
  refine Finset.card_le_card fun w hw => ?_
  rw [Finset.mem_filter] at hw ⊢
  exact ⟨hw.1, h w hw.2⟩

/-! ### The invariant -/

/-- **The counts cover the references.** -/
structure Pinned (s : Shared W) : Prop where
  /-- No two nodes of the queue are the same allocation. -/
  ids_nodup : (s.zone.queue.map Node.id).Nodup
  /-- The next allocation is new. -/
  id_lt : ∀ lr ∈ s.zone.queue, lr.id < s.zone.nextId
  /-- A node that a worker points to is in the queue. -/
  present : ∀ w id, s.node w = some id → ∃ lr ∈ s.zone.queue, lr.id = id
  /-- Its count is at least the number of these workers. -/
  refs_le : ∀ lr ∈ s.zone.queue, (refs s.node lr.id : Int) ≤ lr.count

theorem pinned_initial : Pinned (Shared.initial : Shared W) where
  ids_nodup := by simp [Shared.initial, Zone.initial]
  id_lt := by simp [Shared.initial, Zone.initial]
  present := by simp [Shared.initial]
  refs_le := by simp [Shared.initial, Zone.initial]

/-- Two nodes of the queue with one identity are the same node. -/
theorem Pinned.eq_of_id {s : Shared W} (h : Pinned s) {lr lr' : Node} (hlr : lr ∈ s.zone.queue)
    (hlr' : lr' ∈ s.zone.queue) (hid : lr.id = lr'.id) : lr = lr' :=
  List.inj_on_of_nodup_map h.ids_nodup hlr hlr' hid

/-- Behind the first of several distinct allocations there are others only. -/
theorem Node.id_ne_of_nodup {lr : Node} {rest : List Node}
    (h : ((lr :: rest).map Node.id).Nodup) {x : Node} (hx : x ∈ rest) : x.id ≠ lr.id := by
  rw [List.map_cons, List.nodup_cons] at h
  exact fun heq => h.1 (heq ▸ List.mem_map_of_mem hx)

/-- A step that moves one node to the front, rewriting it, keeps the invariant
when the node's new count covers its new references. -/
theorem Pinned.replace {z : Zone} {node node' : W → Option Nat} {lr lr' : Node}
    (h : Pinned ⟨z, node⟩) (hlr : lr ∈ z.queue) (hid : lr'.id = lr.id)
    (hcount : (refs node' lr.id : Int) ≤ lr'.count)
    (hother : ∀ w id, id ≠ lr.id → node' w = some id → node w = some id) :
    Pinned ⟨{ z with queue := lr' :: z.queue.erase lr }, node'⟩ := by
  -- the identities of the queue are only permuted
  have hperm : (z.queue.map Node.id).Perm ((lr' :: z.queue.erase lr).map Node.id) := by
    rw [List.map_cons, hid, ← List.map_cons]
    exact (List.perm_cons_erase hlr).map _
  have hnodup := hperm.nodup_iff.mp h.ids_nodup
  refine ⟨hnodup, fun x hx => ?_, fun w id hw => ?_, fun x hx => ?_⟩
  · rcases List.mem_cons.mp hx with rfl | hx
    · rw [hid]
      exact h.id_lt lr hlr
    · exact h.id_lt x (List.mem_of_mem_erase hx)
  · by_cases hne : id = lr.id
    · exact ⟨lr', List.mem_cons_self, hid.trans hne.symm⟩
    · -- a pointer to another node was there before
      obtain ⟨x, hx, rfl⟩ := h.present w id (hother w id hne hw)
      have hxlr : x ≠ lr := fun hxl => hne (congrArg Node.id hxl)
      exact ⟨x, List.mem_cons_of_mem _ ((List.mem_erase_of_ne hxlr).mpr hx), rfl⟩
  · rcases List.mem_cons.mp hx with rfl | hx
    · rw [hid]
      exact hcount
    · -- another node: no worker began to point to it
      have hne : x.id ≠ lr.id := hid ▸ Node.id_ne_of_nodup hnodup hx
      have hle := refs_mono fun w hw => hother w x.id hne hw
      exact (Int.ofNat_le.mpr hle).trans (h.refs_le x (List.mem_of_mem_erase hx))

/-- Dropping unpinned entries from the end of the queue keeps the invariant. -/
theorem Pinned.drop {z : Zone} {node : W → Option Nat} {queue gone : List Node}
    (h : Pinned ⟨z, node⟩) (hsplit : z.queue = queue ++ gone) (hgone : ∀ lr ∈ gone, lr.count = 0) :
    Pinned ⟨{ z with queue := queue }, node⟩ := by
  have hmem : ∀ lr ∈ queue, lr ∈ z.queue := fun lr hlr => by simp [hsplit, hlr]
  refine ⟨?_, fun x hx => h.id_lt x (hmem x hx), fun w id hw => ?_,
    fun x hx => h.refs_le x (hmem x hx)⟩
  · have hnodup : (z.queue.map Node.id).Nodup := h.ids_nodup
    rw [hsplit, List.map_append] at hnodup
    exact hnodup.of_append_left
  · obtain ⟨lr, hlr, rfl⟩ : ∃ lr ∈ z.queue, lr.id = id := h.present w id hw
    have hkept : lr ∈ queue ∨ lr ∈ gone := by simpa [hsplit] using hlr
    refine ⟨lr, hkept.resolve_right fun hlr' => ?_, rfl⟩
    -- an entry that is dropped has count zero, so nobody points to it
    have hle : (refs node lr.id : Int) ≤ lr.count := h.refs_le lr hlr
    have hpos : 0 < refs node lr.id := refs_pos_iff.mpr ⟨w, hw⟩
    have hzero := hgone lr hlr'
    omega

/-- Inserting a fresh node keeps the invariant, whether it starts pinned by the
worker that inserts it or not. -/
theorem Pinned.insert {z : Zone} {node node' : W → Option Nat} {lr : Node}
    (h : Pinned ⟨z, node⟩) (hid : lr.id = z.nextId)
    (hcount : (refs node' z.nextId : Int) ≤ lr.count)
    (hother : ∀ w id, id ≠ z.nextId → node' w = some id → node w = some id) :
    Pinned ⟨{ queue := lr :: z.queue, nextId := z.nextId + 1 }, node'⟩ := by
  have hlt : ∀ x ∈ z.queue, x.id < z.nextId := h.id_lt
  refine ⟨?_, fun x hx => ?_, fun w id hw => ?_, fun x hx => ?_⟩
  · rw [List.map_cons, List.nodup_cons]
    refine ⟨fun hmem => ?_, h.ids_nodup⟩
    -- no node of the queue has the next identity
    obtain ⟨x, hx, hxid⟩ := List.mem_map.mp hmem
    have := hlt x hx
    omega
  · rcases List.mem_cons.mp hx with rfl | hx
    · simp [hid]
    · exact (hlt x hx).trans (Nat.lt_succ_self _)
  · by_cases hne : id = z.nextId
    · exact ⟨lr, List.mem_cons_self, hid.trans hne.symm⟩
    · obtain ⟨x, hx, hxid⟩ := h.present w id (hother w id hne hw)
      exact ⟨x, List.mem_cons_of_mem _ hx, hxid⟩
  · rcases List.mem_cons.mp hx with rfl | hx
    · rw [hid]
      exact hcount
    · have hle := refs_mono fun w hw => hother w x.id (hlt x hx).ne hw
      exact (Int.ofNat_le.mpr hle).trans (h.refs_le x hx)

/-- The identity of the next allocation has no references. -/
theorem Pinned.refs_nextId {z : Zone} {node : W → Option Nat} (h : Pinned ⟨z, node⟩) :
    refs node z.nextId = 0 := by
  by_contra hne
  obtain ⟨w, hw⟩ := refs_pos_iff.mp (Nat.pos_of_ne_zero hne)
  obtain ⟨lr, hlr, hid⟩ := h.present w _ hw
  exact absurd (h.id_lt lr hlr) (by simp [hid])

/-! ### One locked step of a worker -/

variable [DecidableEq W]

/-- A locked step of one worker. -/
inductive Step (A : Arith) : Shared W → Shared W → Prop
  /-- `ngx_http_access_control_lookup`, with its calls of the expiry; `ctx->node`
  is written only when a node is pinned. -/
  | lookup (s : Shared W) (w : W) (q : Query) :
      Step A s
        { zone := (lookup A s.zone q).zone
          node := Function.update s.node w ((AccessControl.lookup A s.zone q).pinned.or (s.node w)) }
  /-- A round of `ngx_http_access_control_account`. -/
  | account (s : Shared W) (w : W) (id now maxtps : Nat) (hnode : s.node w = some id) :
      Step A s
        { zone := s.zone.modify id (Node.settle A now maxtps)
          node := Function.update s.node w none }
  /-- A round of the roll-back loop of the handler. -/
  | rollback (s : Shared W) (w : W) (id : Nat) (hnode : s.node w = some id) :
      Step A s
        { zone := s.zone.modify id Node.release
          node := Function.update s.node w none }

/-- Some interleaving of the workers' steps leads from the initial state to `s`. -/
def Reachable (A : Arith) (s : Shared W) : Prop :=
  Relation.ReflTransGen (Step A) Shared.initial s

/-- A worker that points elsewhere adds at most one reference, and only there. -/
theorem refs_update_le (node : W → Option Nat) (w : W) (id : Nat) :
    refs (Function.update node w (some id)) id ≤ refs node id + 1 := by
  -- only `w` can have come to point to `id`
  have hsub : (Finset.univ.filter fun w' => Function.update node w (some id) w' = some id) ⊆
      insert w (Finset.univ.filter fun w' => node w' = some id) := by
    intro w' hw'
    rw [Finset.mem_filter] at hw'
    by_cases hw : w' = w
    · simp [hw]
    · rw [Function.update_of_ne hw] at hw'
      simp [hw']
  exact (Finset.card_le_card hsub).trans (Finset.card_insert_le _ _)

omit [Fintype W] in
theorem eq_some_of_update_some {node : W → Option Nat} {w w' : W} {id id' : Nat} (hne : id' ≠ id)
    (h : Function.update node w (some id) w' = some id') : node w' = some id' := by
  by_cases hw : w' = w
  · subst hw
    rw [Function.update_self, Option.some.injEq] at h
    exact absurd h.symm hne
  · rwa [Function.update_of_ne hw] at h

omit [Fintype W] in
theorem eq_some_of_update_none {node : W → Option Nat} {w w' : W} {id : Nat}
    (h : Function.update node w none w' = some id) : w' ≠ w ∧ node w' = some id := by
  by_cases hw : w' = w
  · subst hw
    rw [Function.update_self] at h
    exact absurd h (by simp)
  · exact ⟨hw, by rwa [Function.update_of_ne hw] at h⟩

/-- A worker that gives up its pointer is one reference less. -/
theorem refs_update_none {node : W → Option Nat} {w : W} {id : Nat} (h : node w = some id) :
    refs (Function.update node w none) id + 1 ≤ refs node id := by
  -- `w` itself is the reference that goes
  have hnot : w ∉ Finset.univ.filter fun w' => Function.update node w none w' = some id := by
    simp
  rw [refs, ← Finset.card_insert_of_notMem hnot]
  refine Finset.card_le_card fun w' hw' => ?_
  rcases Finset.mem_insert.mp hw' with rfl | hw'
  · simp [h]
  · rw [Finset.mem_filter] at hw' ⊢
    exact ⟨hw'.1, (eq_some_of_update_none hw'.2).2⟩

/-- A lookup keeps the invariant. -/
theorem Pinned.lookup {A : Arith} {s : Shared W} (h : Pinned s) (w : W) (q : Query) :
    Pinned
      { zone := (AccessControl.lookup A s.zone q).zone
        node := Function.update s.node w
          ((AccessControl.lookup A s.zone q).pinned.or (s.node w)) } := by
  obtain ⟨z, node⟩ := s
  rcases lookup_cases A z q with ⟨lr, hs, -, heq⟩ | ⟨lr, hs, -, heq⟩ | ⟨-, -, heq⟩ | ⟨-, -, heq⟩
  · -- busy: the node moves to the front and nothing else changes
    rw [heq, Option.none_or, Function.update_eq_self]
    have hlr := (Query.mem_of_search hs).1
    exact h.replace hlr rfl (h.refs_le lr hlr) fun _ _ _ hw => hw
  · rw [heq]
    have hlr := (Query.mem_of_search hs).1
    have hle : (refs node lr.id : Int) ≤ lr.count := h.refs_le lr hlr
    cases hq : q.account with
    | true =>
      simp only [if_true, Option.none_or, Function.update_eq_self, Query.touch, hq]
      exact h.replace hlr rfl hle fun _ _ _ hw => hw
    | false =>
      -- the new reference is paid for by the increment of the count
      simp only [Bool.false_eq_true, if_false, Option.some_or, Query.touch, hq]
      refine h.replace hlr rfl ?_ fun w' id hne hw => eq_some_of_update_some hne hw
      have hnew := refs_update_le node w lr.id
      dsimp only
      omega
  · -- a miss: first room is made, then the fresh node is inserted
    rw [heq]
    obtain ⟨gone, hsplit, hgone⟩ := q.room_spec A z.queue
    have hroom := h.drop hsplit hgone
    cases hq : q.account with
    | true =>
      simp only [if_true, Option.none_or, Function.update_eq_self]
      refine hroom.insert rfl ?_ fun _ _ _ hw => hw
      rw [hroom.refs_nextId]
      simp [Query.fresh, hq]
    | false =>
      simp only [Bool.false_eq_true, if_false, Option.some_or]
      refine hroom.insert rfl ?_ fun w' id hne hw => eq_some_of_update_some hne hw
      have hnew := refs_update_le node w z.nextId
      have hzero : refs node z.nextId = 0 := h.refs_nextId
      simp only [Query.fresh, hq, Bool.false_eq_true, if_false]
      omega
  · rw [heq, Option.none_or, Function.update_eq_self]
    obtain ⟨gone, hsplit, hgone⟩ := q.room_spec A z.queue
    exact h.drop hsplit hgone

/-- A write through a worker's pointer that takes one off the count, together
with giving up the pointer, keeps the invariant. -/
theorem Pinned.giveUp {s : Shared W} (h : Pinned s) {w : W} {id : Nat} (hnode : s.node w = some id)
    {f : Node → Node} (hfid : ∀ lr, (f lr).id = lr.id) (hf : ∀ lr, (f lr).count = lr.count - 1) :
    Pinned { zone := s.zone.modify id f, node := Function.update s.node w none } := by
  -- the write keeps the identities
  have hid : ∀ lr : Node, (if lr.id = id then f lr else lr).id = lr.id := by
    intro lr
    split
    · exact hfid lr
    · rfl
  refine ⟨?_, fun x hx => ?_, fun w' id' hw' => ?_, fun x hx => ?_⟩
  · rw [Zone.modify, List.map_map]
    exact (List.map_congr_left fun lr _ => hid lr) ▸ h.ids_nodup
  · obtain ⟨lr, hlr, rfl⟩ := List.mem_map.mp hx
    rw [hid]
    exact h.id_lt lr hlr
  · obtain ⟨lr, hlr, rfl⟩ := h.present w' id' (eq_some_of_update_none hw').2
    exact ⟨_, List.mem_map_of_mem hlr, hid lr⟩
  · obtain ⟨lr, hlr, rfl⟩ := List.mem_map.mp hx
    have hle := h.refs_le lr hlr
    by_cases hlrid : lr.id = id
    · -- the count and the references of this node both lose one
      rw [if_pos hlrid, hfid, hf, hlrid]
      have hless := refs_update_none hnode
      rw [hlrid] at hle
      dsimp only
      omega
    · rw [if_neg hlrid]
      have hless : refs (Function.update s.node w none) lr.id ≤ refs s.node lr.id :=
        refs_mono fun w' hw' => (eq_some_of_update_none hw').2
      exact (Int.ofNat_le.mpr hless).trans hle

/-- **Every locked step keeps the invariant.** -/
theorem Pinned.step {A : Arith} {s s' : Shared W} (h : Pinned s) (hs : Step A s s') : Pinned s' := by
  cases hs with
  | lookup w q => exact h.lookup w q
  | account w id now maxtps hnode => exact h.giveUp hnode (fun _ => rfl) fun _ => rfl
  | rollback w id hnode => exact h.giveUp hnode (fun _ => rfl) fun _ => rfl

/-- **Every reachable state satisfies the invariant.** -/
theorem pinned_of_reachable {A : Arith} {s : Shared W} (h : Reachable A s) : Pinned s := by
  -- on the interleaving
  induction h with
  | refl => exact pinned_initial
  | tail _ hstep ih => exact ih.step hstep

/-- **Pinned nodes survive.** In every state that any interleaving of the
workers' locked steps reaches, a node that some worker's `ctx->node` points to
is in the zone, once, its count is at least the number of workers that point
to it, and no count is negative. -/
theorem pinned_nodes_survive {A : Arith} {s : Shared W} (h : Reachable A s) :
    (∀ w id, s.node w = some id →
      ∃! lr, lr ∈ s.zone.queue ∧ lr.id = id ∧ (refs s.node id : Int) ≤ lr.count) ∧
    ∀ lr ∈ s.zone.queue, 0 ≤ lr.count := by
  have hp := pinned_of_reachable h
  refine ⟨fun w id hw => ?_, fun lr hlr => ?_⟩
  · obtain ⟨lr, hlr, rfl⟩ := hp.present w id hw
    refine ⟨lr, ⟨hlr, rfl, hp.refs_le lr hlr⟩, ?_⟩
    rintro lr' ⟨hlr', hid, -⟩
    exact hp.eq_of_id hlr' hlr hid
  · exact (Int.natCast_nonneg _).trans (hp.refs_le lr hlr)

/-- Two workers, one of which has pinned the node of its request. -/
theorem pinned_nodes_survive_one_pin :
    let q : Query :=
      { hash := 7, data := [0x6b], account := false, maxtps := 1000, burst := 1, now := 60000
        meets := 0, alloc := true, realloc := true }
    let s : Shared (Fin 2) :=
      { zone := (lookup .exact Zone.initial q).zone
        node := Function.update (fun _ => none) 0 (some 0) }
    Reachable .exact s ∧ refs s.node 0 = 1 ∧
      (∀ w id, s.node w = some id →
        ∃! lr, lr ∈ s.zone.queue ∧ lr.id = id ∧ (refs s.node id : Int) ≤ lr.count) ∧
      ∀ lr ∈ s.zone.queue, 0 ≤ lr.count := by
  intro q s
  have hreach : Reachable .exact s := .single (Step.lookup Shared.initial 0 q)
  exact ⟨hreach, by decide, pinned_nodes_survive hreach⟩

/-! ### The handler's steps -/

/-- A configured zone, seen by its worker alone. -/
def Slot.shared (s : Slot) : Shared Unit := { zone := s.zone, node := fun _ => s.node }

/-- The zone `s` becomes `s'` by locked steps of the worker. -/
def Slot.Steps (A : Arith) (s s' : Slot) : Prop :=
  Relation.ReflTransGen (Step A) s.shared s'.shared

theorem Slot.steps_answered (A : Arith) (s : Slot) (q : Query) :
    s.Steps A (s.answered (lookup A s.zone q)) := by
  have hstep := Step.lookup (A := A) s.shared () q
  -- with one worker the update of its pointer is the field `node`
  have heq : (s.answered (lookup A s.zone q)).shared =
      { zone := (lookup A s.shared.zone q).zone
        node := Function.update s.shared.node ()
          ((lookup A s.shared.zone q).pinned.or (s.shared.node ())) } := by
    unfold Slot.shared Slot.answered
    congr 1
  rw [Slot.Steps, heq]
  exact .single hstep

theorem update_unit (node : Unit → Option Nat) (v : Option Nat) :
    Function.update node () v = fun _ => v :=
  funext fun _ => Function.update_self ..

theorem Slot.steps_rollback (A : Arith) (s : Slot) : s.Steps A s.rollback := by
  unfold Slot.rollback
  cases hnode : s.node with
  | none => exact .refl
  | some id =>
    have hstep := Step.rollback (A := A) s.shared () id hnode
    rw [update_unit] at hstep
    exact .single hstep

theorem Slot.steps_account (A : Arith) (maxtps : Nat) (s : Slot) :
    s.Steps A (s.account A maxtps).1 := by
  unfold Slot.account
  cases hnode : s.node with
  | none => exact .refl
  | some id =>
    have hstep := Step.account (A := A) s.shared () id s.later maxtps hnode
    rw [update_unit] at hstep
    exact .single hstep

/-- The charging loop visits every zone before the current one. -/
theorem account_fst (A : Arith) (maxtps delay : Nat) (before : List Slot) :
    (account A maxtps delay before).1 = before.map fun s => (s.account A maxtps).1 := by
  induction before generalizing delay with
  | nil => rfl
  | cons s before ih => simp [account, ih]

/-- The zone loop leaves each zone as it was or as its lookup left it. -/
theorem zoneLoop_steps (A : Arith) (r : Request) (before slots : List Slot) :
    ∃ visited, (zoneLoop A r before slots).before = visited.reverse ++ before ∧
      List.Forall₂ (Slot.Steps A) slots (visited ++ (zoneLoop A r before slots).after) := by
  have hrefl : ∀ rest : List Slot, List.Forall₂ (Slot.Steps A) rest rest :=
    fun rest => List.forall₂_same.mpr fun _ _ => .refl
  -- on the zones; a round that ends the loop leaves the others untouched
  induction slots generalizing before with
  | nil => exact ⟨[], by simp [zoneLoop], by simp [zoneLoop]⟩
  | cons s rest ih =>
    rw [zoneLoop]
    dsimp only
    cases hv : (check s.limit.table r).verdict with
    | status code => exact ⟨[], by simp, hrefl _⟩
    | fault => exact ⟨[], by simp, hrefl _⟩
    | grant g =>
      have hs := s.steps_answered A (s.query g rest.isEmpty)
      dsimp only
      cases hrc : (lookup A s.zone (s.query g rest.isEmpty)).rc with
      | again =>
        cases rest with
        | nil => exact ⟨[_], rfl, .cons hs .nil⟩
        | cons s' rest =>
          obtain ⟨visited, hbefore, hsteps⟩ :=
            ih (s.answered (lookup A s.zone (s.query g (s' :: rest).isEmpty)) :: before)
          exact ⟨_ :: visited, by rw [hbefore]; simp, .cons hs hsteps⟩
      | ok => exact ⟨[], by simp, .cons hs (hrefl _)⟩
      | busy => exact ⟨[], by simp, .cons hs (hrefl _)⟩
      | error => exact ⟨[], by simp, .cons hs (hrefl _)⟩

/-- A pass over the visited zones adds its step to each of them. -/
theorem steps_visited {A : Arith} {f : Slot → Slot} (hf : ∀ s : Slot, s.Steps A (f s))
    {slots visited after : List Slot}
    (h : List.Forall₂ (Slot.Steps A) slots (visited ++ after)) :
    List.Forall₂ (Slot.Steps A) slots (visited.map f ++ after) := by
  induction visited generalizing slots with
  | nil => exact h
  | cons s' visited ih =>
    obtain ⟨s, rest, hs, hrest, rfl⟩ := List.forall₂_cons_right_iff.mp h
    exact .cons (hs.trans (hf s')) (ih hrest)

/-- **A call of the handler takes locked steps only**: what it does to a zone
and to the worker's pointer there is a sequence of the steps above. -/
theorem handler_steps (A : Arith) (statusCode : Nat) (readEventOk : Bool) (r : Request)
    (slots : List Slot) :
    List.Forall₂ (Slot.Steps A) slots (handler A statusCode readEventOk r slots).slots := by
  -- the visited zones are held latest first, and returned in their order
  obtain ⟨visited, hbefore, hsteps⟩ := zoneLoop_steps A r [] slots
  rw [List.append_nil] at hbefore
  unfold handler
  split
  · exact List.forall₂_same.mpr fun _ _ => .refl
  dsimp only
  cases hstop : (zoneLoop A r [] slots).stop with
  | returned code => simpa [hbefore] using hsteps
  | fault => simpa [hbefore] using hsteps
  | declined => simpa [hbefore] using hsteps
  | left rc excess maxtps nodelay =>
    dsimp only
    split
    · simpa [hbefore, List.map_reverse] using steps_visited (Slot.steps_rollback A) hsteps
    · simpa [hbefore, account_fst, List.map_reverse] using
        steps_visited (Slot.steps_account A maxtps) hsteps

end AccessControl
