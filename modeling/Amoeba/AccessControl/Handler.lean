import Amoeba.AccessControl.Limiter

/-!
# The access-control handler

`ngx_http_access_control_handler` over the list of zones configured for a
location. The zones are visited in order. A zone that fails the checks ends
the call with a status; a zone that admits the request pins its node
(`ctx->node`), except the last one, which charges it at once. When the last
zone is reached the pinned nodes are charged from the last to the first; when
a zone is busy they are released in the same order.

Each visit and each charge is one locked step. The zones' shared states, the
worker's own `ctx->node` of each zone and what the clock and the allocator
answer are inputs of the call; the new states are part of its result.
-/

namespace AccessControl

open Nginx

/-- `ngx_http_access_control_limit_t`, with the arrays of its zone's context. -/
structure Limit where
  table : Table
  burst : Nat
  nodelay : Bool

/-- A configured zone as one worker sees it, with the readings of the clock and
the answers of the allocator for the current call. -/
structure Slot where
  limit : Limit
  zone : Zone
  /-- `ctx->node` -/
  node : Option Nat
  /-- The clock during the lookup, and during the charge. -/
  now : Nat
  later : Nat
  /-- The node the tree search meets, and the answers of the allocator. -/
  meets : Nat
  alloc : Bool
  realloc : Bool

/-- How the handler's loop over the zones ends. -/
inductive LoopEnd where
  /-- A `return` inside the loop. -/
  | returned (code : Nat)
  | fault
  /-- A `break`, or the end of the list after a lookup that pinned a node. -/
  | left (rc : Rc) (excess maxtps : Nat) (nodelay : Bool)
  /-- No zone is configured. -/
  | declined
  deriving DecidableEq, Repr

/-- The state of the handler behind its loop: the zones before the current one,
latest first, and the others. -/
structure Loop where
  before : List Slot
  after : List Slot
  /-- The values stored in `r->request_sid` and `r->request_key`, in order. -/
  stores : List NgxStr
  stop : LoopEnd

/-- The lookup of a granted request in a zone. -/
def Slot.query (s : Slot) (g : Grant) (account : Bool) : Query where
  hash := g.hash
  data := g.hashkey
  account := account
  maxtps := g.maxtps
  burst := s.limit.burst
  now := s.now
  meets := s.meets
  alloc := s.alloc
  realloc := s.realloc

/-- The zone after a lookup; `ctx->node` is written only when a node is pinned. -/
def Slot.answered (s : Slot) (a : Answer) : Slot :=
  { s with zone := a.zone, node := a.pinned.or s.node }

/-- What a round of the checks stores in the request. -/
def Checked.stores (c : Checked) : List NgxStr := c.requestSid.toList ++ c.requestKey.toList

/-- The loop over the zones. `before` holds the visited zones, latest first. -/
def zoneLoop (A : Arith) (r : Request) (before : List Slot) : List Slot → Loop
  | [] => { before := before, after := [], stores := [], stop := .declined }
  | s :: rest =>
    let c := check s.limit.table r
    match c.verdict with
    -- `return` inside the loop: the zones before this one keep what they pinned
    | .status code =>
      { before := before, after := s :: rest, stores := c.stores, stop := .returned code }
    | .fault => { before := before, after := s :: rest, stores := c.stores, stop := .fault }
    | .grant g =>
      -- only the last zone charges at once (`account = 1`)
      let a := lookup A s.zone (s.query g rest.isEmpty)
      let s' := s.answered a
      match a.rc, rest with
      | .again, _ :: _ =>
        let l := zoneLoop A r (s' :: before) rest
        { l with stores := c.stores ++ l.stores }
      -- the end of the list with `n` past the last zone, which is then charged too
      | .again, [] =>
        { before := s' :: before, after := [], stores := c.stores
          stop := .left .again 0 g.maxtps s.limit.nodelay }
      | rc, _ =>
        { before := before, after := s' :: rest, stores := c.stores
          stop := .left rc a.excess g.maxtps s.limit.nodelay }

/-- One round of the roll-back loop. -/
def Slot.rollback (s : Slot) : Slot :=
  match s.node with
  | none => s
  | some id => { s with zone := s.zone.modify id Node.release, node := none }

/-- One round of the loop of `ngx_http_access_control_account`: the zone
afterwards, and the delay it asks for. -/
def Slot.account (A : Arith) (maxtps : Nat) (s : Slot) : Slot × Nat :=
  match s.node with
  | none => (s, 0)
  | some id =>
    let excess := (s.zone.queue.find? (·.id = id)).elim 0
      fun lr => A.charged lr.excess maxtps (A.elapsed s.later lr.last)
    ({ s with zone := s.zone.modify id (Node.settle A s.later maxtps), node := none },
      -- a zone with `nodelay` is charged but asks for no delay
      if s.limit.nodelay then 0 else A.delay excess maxtps)

/-- `ngx_http_access_control_account`: the zones before the current one are
charged, latest first; the delay is the largest one asked for. -/
def account (A : Arith) (maxtps delay : Nat) : List Slot → List Slot × Nat
  | [] => ([], delay)
  | s :: before =>
    let (s', d) := s.account A maxtps
    let (before', delay') := account A maxtps (max delay d) before
    (s' :: before', delay')

/-- How the handler returns. -/
inductive Outcome where
  /-- `NGX_DECLINED`: the request goes on. -/
  | declined
  /-- A status, among them the configured status of a limited request. -/
  | status (code : Nat)
  /-- `NGX_AGAIN`: the request is delayed by so many milliseconds. -/
  | delayed (ms : Nat)
  | fault
  deriving DecidableEq, Repr

/-- What a call of the handler returns and leaves behind. -/
structure Handled where
  outcome : Outcome
  slots : List Slot
  stores : List NgxStr

/-- `ngx_http_access_control_handler`. The configured status of a limited
request and the result of `ngx_handle_read_event` are parameters. -/
def handler (A : Arith) (statusCode : Nat) (readEventOk : Bool) (r : Request)
    (slots : List Slot) : Handled :=
  if r.accessControlSet then { outcome := .declined, slots := slots, stores := [] }
  else
    let l := zoneLoop A r [] slots
    match l.stop with
    | .returned code =>
      { outcome := .status code, slots := l.before.reverse ++ l.after, stores := l.stores }
    | .fault => { outcome := .fault, slots := l.before.reverse ++ l.after, stores := l.stores }
    | .declined =>
      { outcome := .declined, slots := l.before.reverse ++ l.after, stores := l.stores }
    | .left rc excess maxtps nodelay =>
      -- the roll-back runs over the zones before the current one
      if rc = .busy ∨ rc = .error then
        { outcome := .status statusCode
          slots := (l.before.map Slot.rollback).reverse ++ l.after
          stores := l.stores }
      else
        -- the delay of the zone that ended the loop
        let first := if excess = 0 ∨ nodelay then 0 else A.delay excess maxtps
        let (before, delay) := account A maxtps first l.before
        { outcome :=
            if delay = 0 then .declined
            else if readEventOk then .delayed delay else .status 500
          slots := before.reverse ++ l.after
          stores := l.stores }

end AccessControl
