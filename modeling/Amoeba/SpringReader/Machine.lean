import Amoeba.SpringReader.Keywords
import Amoeba.Interleaving.Basic

/-!
# Requests and jobs side by side

The handlers `createsubscribe` and `deletesubscribe` and the jobs
`FirstPushSendEmailJob` and `SendEmailJob`, cut into the steps between which other
threads can run: one call of the repository, one query, one email, one reading of
the clock. A thread is what is left to do, with the data it has read.

Next to the records the shared state keeps what the results are about: the
queries made so far, with the time range of each and whether its result has been
mailed, and the ids that requests have deleted. No step depends on them.
-/

namespace SpringReader

open Java DocStore Interleaving

/-! ### States -/

/-- A query of a subscription for articles with a timestamp from `lower` to `upper`. -/
structure Query where
  sub : Subscription
  lower : Option Date
  upper : Date
  /-- The email with its result has been sent. -/
  sent : Bool
  deriving DecidableEq, Repr

/-- What the threads share. -/
structure Shared where
  keywords : Store
  /-- The last reading of the clock. -/
  clock : Date
  queries : List Query
  removed : List JString

/-- The loop of `SendEmailJob` over the emails of a user. The numbers are those of the
job's own queries for this user, next to the email that their results go to. -/
structure Mailing where
  user : JString
  /-- The users behind this one. -/
  users : List JString
  /-- The emails that are left, in the order of the map. -/
  emails : List JString
  own : List (JString × Nat)
  deriving DecidableEq, Repr

/-- What a thread has still to do. -/
inductive Thread where
  /-- `createsubscribe`, in front of `findByUsername`. -/
  | createFind (sub : Subscription)
  /-- `UserKeywordsService.create`, in front of the lookup. -/
  | createLookup (sub : Subscription)
  | createSave (sub : Subscription)
  /-- `deletesubscribe`, in front of the next id. -/
  | deleteIds (ids : List JString)
  /-- `FirstPushSendEmailJob.execute` -/
  | firstQuery (sub : Subscription)
  | firstSend (sub : Subscription) (n : Nat)
  /-- In front of the `new Date()` for `updateLastpushdate`. -/
  | firstStamp (sub : Subscription) (n : Nat)
  /-- `updateLastpushdate`, in front of the lookup. -/
  | firstFind (sub : Subscription) (n : Nat) (lastpushdate : Date)
  /-- `SendEmailJob.execute`, in front of the next user. -/
  | daily (users : List JString)
  | dailyQuery (user : JString) (users : List JString) (todo : List UserKeyword)
      (own : List (JString × Nat))
  | dailySend (m : Mailing)
  /-- In front of the `new Date()` for `updateLastpushdateAllKeyword`. -/
  | dailyStamp (email : JString) (m : Mailing)
  /-- `updateLastpushdateAllKeyword`, in front of `findByUsernameAndEmail`. -/
  | dailyFind (email : JString) (m : Mailing) (lastpushdate : Date)
  /-- Either update, in front of the next record. -/
  | rewriting (lastpushdate : Date) (todo : List UserKeyword) (rest : Option Mailing)
  /-- Either update, between deleting a record and saving its copy. -/
  | saving (lastpushdate : Date) (r : UserKeyword) (todo : List UserKeyword) (rest : Option Mailing)
  | done
  deriving DecidableEq, Repr

/-- What a step reads from outside: the clock, whether a query or an email goes
through, the id that the driver generates, and the order of a `HashMap`. -/
structure Input where
  now : Date
  ok : Bool
  newId : JString
  order : List JString
  deriving DecidableEq, Repr

/-- A step, or the end of a push job at this point. -/
inductive Label where
  | go (x : Input)
  | crash
  deriving DecidableEq, Repr

/-! ### Steps -/

/-- The queries with these numbers have been mailed. -/
def markSent (ns : List Nat) (queries : List Query) : List Query :=
  queries.mapIdx fun n q => if n ∈ ns then { q with sent := true } else q

/-- The numbers of the queries whose results go to this email. -/
def numbersOf (own : List (JString × Nat)) (email : JString) : List Nat :=
  (own.filter (·.1 = email)).map Prod.snd

/-- Where a job goes on after an update. -/
def resume : Option Mailing → Thread
  | none => .done
  | some m => .dailySend m

/-- The thread belongs to a push job. -/
def Thread.isJob : Thread → Bool
  | .createFind _ | .createLookup _ | .createSave _ | .deleteIds _ | .done => false
  | _ => true

/-- The thread belongs to `createsubscribe`. -/
def Thread.isCreate : Thread → Bool
  | .createFind _ | .createLookup _ | .createSave _ => true
  | _ => false

/-- One step of a thread, at a time that is not before the last one. -/
def go (t : Thread) (s : Shared) (x : Input) : Option (Thread × Shared) :=
  match t with
  | .createFind sub =>
    if (findByUsername s.keywords sub.username).any fun r => r.name = sub.name ∧ r.email = sub.email
    then some (.done, s)
    else some (.createLookup sub, s)
  | .createLookup sub =>
    -- the first two arguments are exchanged
    if (findByUsernameAndNameAndEmail s.keywords sub.name sub.username sub.email).isNone
    then some (.createSave sub, s)
    else some (.done, s)
  | .createSave sub =>
    -- the driver generates an id that no record has
    if objectId x.newId ∈ s.keywords.docs.map UserKeyword.key then none
    else
      let r := newKeyword sub.name sub.username sub.email x.now x.newId
      some (.done, { s with keywords := s.keywords.save r })
  | .deleteIds [] => some (.done, s)
  | .deleteIds (id :: ids) =>
    some (.deleteIds ids,
      { s with keywords := deleteById id s.keywords, removed := objectId id :: s.removed })
  | .firstQuery sub =>
    if x.ok then
      some (.firstSend sub s.queries.length,
        { s with queries := s.queries ++ [⟨sub, none, x.now, false⟩] })
    else some (.done, s)
  | .firstSend sub n =>
    if x.ok then some (.firstStamp sub n, { s with queries := markSent [n] s.queries })
    else some (.done, s)
  | .firstStamp sub n => some (.firstFind sub n x.now, s)
  | .firstFind sub _ lastpushdate =>
    match findByUsernameAndNameAndEmail s.keywords sub.username sub.name sub.email with
    | none => some (.done, s)
    | some r => some (.rewriting lastpushdate [r] none, s)
  | .daily [] => some (.done, s)
  | .daily (user :: users) => some (.dailyQuery user users (findByUsername s.keywords user) [], s)
  | .dailyQuery user users (r :: todo) own =>
    if x.ok then
      some (.dailyQuery user users todo (own ++ [(r.email, s.queries.length)]),
        { s with queries := s.queries ++ [⟨r.sub, r.lastpushdate, x.now, false⟩] })
    -- the query stands outside of the `try`, and its exception ends the job
    else some (.done, s)
  | .dailyQuery user users [] own =>
    if x.order.Perm (own.map Prod.fst).dedup then some (.dailySend ⟨user, users, x.order, own⟩, s)
    else none
  | .dailySend ⟨_, users, [], _⟩ => some (.daily users, s)
  | .dailySend ⟨user, users, email :: emails, own⟩ =>
    if x.ok then
      some (.dailyStamp email ⟨user, users, emails, own⟩,
        { s with queries := markSent (numbersOf own email) s.queries })
    -- the exception ends the loop over the emails of this user
    else some (.daily users, s)
  | .dailyStamp email m => some (.dailyFind email m x.now, s)
  | .dailyFind email m lastpushdate =>
    some (.rewriting lastpushdate (findByUsernameAndEmail s.keywords m.user email) (some m), s)
  | .rewriting _ [] rest => some (resume rest, s)
  | .rewriting lastpushdate (r :: todo) rest =>
    some (.saving lastpushdate r todo rest, { s with keywords := s.keywords.delete r.key })
  | .saving lastpushdate r todo rest =>
    some (.rewriting lastpushdate todo rest,
      { s with keywords := s.keywords.save (r.setLastpushdate lastpushdate) })
  | .done => none

/-- The transitions of a thread, one for each way through `go`. -/
inductive Goes (s : Shared) (x : Input) : Thread → Thread → Shared → Prop
  | createKnown {sub : Subscription}
      (h : ((findByUsername s.keywords sub.username).any fun r =>
        r.name = sub.name ∧ r.email = sub.email) = true) : Goes s x (.createFind sub) .done s
  | createNew {sub : Subscription}
      (h : ¬ ((findByUsername s.keywords sub.username).any fun r =>
        r.name = sub.name ∧ r.email = sub.email) = true) :
      Goes s x (.createFind sub) (.createLookup sub) s
  | lookupMissed {sub : Subscription} : Goes s x (.createLookup sub) (.createSave sub) s
  | lookupHit {sub : Subscription} : Goes s x (.createLookup sub) .done s
  | createSaved {sub : Subscription}
      (h : objectId x.newId ∉ s.keywords.docs.map UserKeyword.key) :
      Goes s x (.createSave sub) .done
        { s with
          keywords := s.keywords.save
            (newKeyword sub.name sub.username sub.email x.now x.newId) }
  | deleteEnd : Goes s x (.deleteIds []) .done s
  | deleteNext {id : JString} {ids : List JString} :
      Goes s x (.deleteIds (id :: ids)) (.deleteIds ids)
        { s with keywords := deleteById id s.keywords, removed := objectId id :: s.removed }
  | firstQueried {sub : Subscription} :
      Goes s x (.firstQuery sub) (.firstSend sub s.queries.length)
        { s with queries := s.queries ++ [⟨sub, none, x.now, false⟩] }
  | firstQueryFailed {sub : Subscription} : Goes s x (.firstQuery sub) .done s
  | firstSent {sub : Subscription} {n : Nat} :
      Goes s x (.firstSend sub n) (.firstStamp sub n)
        { s with queries := markSent [n] s.queries }
  | firstSendFailed {sub : Subscription} {n : Nat} : Goes s x (.firstSend sub n) .done s
  | firstStamped {sub : Subscription} {n : Nat} :
      Goes s x (.firstStamp sub n) (.firstFind sub n x.now) s
  | firstMissing {sub : Subscription} {n : Nat} {d : Date} : Goes s x (.firstFind sub n d) .done s
  | firstFound {sub : Subscription} {n : Nat} {d : Date} {r : UserKeyword}
      (h : findByUsernameAndNameAndEmail s.keywords sub.username sub.name sub.email = some r) :
      Goes s x (.firstFind sub n d) (.rewriting d [r] none) s
  | dailyEnd : Goes s x (.daily []) .done s
  | dailyUser {user : JString} {users : List JString} :
      Goes s x (.daily (user :: users))
        (.dailyQuery user users (findByUsername s.keywords user) []) s
  | dailyQueried {user : JString} {users : List JString} {r : UserKeyword}
      {todo : List UserKeyword} {own : List (JString × Nat)} :
      Goes s x (.dailyQuery user users (r :: todo) own)
        (.dailyQuery user users todo (own ++ [(r.email, s.queries.length)]))
        { s with queries := s.queries ++ [⟨r.sub, r.lastpushdate, x.now, false⟩] }
  | dailyQueryFailed {user : JString} {users : List JString} {r : UserKeyword}
      {todo : List UserKeyword} {own : List (JString × Nat)} :
      Goes s x (.dailyQuery user users (r :: todo) own) .done s
  | dailyCollected {user : JString} {users : List JString} {own : List (JString × Nat)} :
      Goes s x (.dailyQuery user users [] own) (.dailySend ⟨user, users, x.order, own⟩) s
  | dailyMailed {user : JString} {users : List JString} {own : List (JString × Nat)} :
      Goes s x (.dailySend ⟨user, users, [], own⟩) (.daily users) s
  | dailySent {user email : JString} {users emails : List JString} {own : List (JString × Nat)} :
      Goes s x (.dailySend ⟨user, users, email :: emails, own⟩)
        (.dailyStamp email ⟨user, users, emails, own⟩)
        { s with queries := markSent (numbersOf own email) s.queries }
  | dailySendFailed {user email : JString} {users emails : List JString}
      {own : List (JString × Nat)} :
      Goes s x (.dailySend ⟨user, users, email :: emails, own⟩) (.daily users) s
  | dailyStamped {email : JString} {m : Mailing} :
      Goes s x (.dailyStamp email m) (.dailyFind email m x.now) s
  | dailyFound {email : JString} {m : Mailing} {d : Date} :
      Goes s x (.dailyFind email m d)
        (.rewriting d (findByUsernameAndEmail s.keywords m.user email) (some m)) s
  | rewritten {d : Date} {rest : Option Mailing} :
      Goes s x (.rewriting d [] rest) (resume rest) s
  | rewriteDelete {d : Date} {r : UserKeyword} {todo : List UserKeyword}
      {rest : Option Mailing} :
      Goes s x (.rewriting d (r :: todo) rest) (.saving d r todo rest)
        { s with keywords := s.keywords.delete r.key }
  | rewriteSave {d : Date} {r : UserKeyword} {todo : List UserKeyword} {rest : Option Mailing} :
      Goes s x (.saving d r todo rest) (.rewriting d todo rest)
        { s with keywords := s.keywords.save (r.setLastpushdate d) }

/-- **What a step does**: one of the transitions. -/
theorem goes_of_go {t t' : Thread} {s s' : Shared} {x : Input} (h : go t s x = some (t', s')) :
    Goes s x t t' s' := by
  unfold go at h
  split at h
  all_goals try split at h
  -- what is left is to find the constructor, whose premise is the condition of the branch
  all_goals first
    | (simp at h; done)
    | (obtain ⟨rfl, rfl⟩ := Prod.mk.inj (Option.some.inj h)
       constructor <;> assumption)

/-- One step under a label. -/
def next (t : Thread) (s : Shared) : Label → Option (Thread × Shared)
  | .crash => if t.isJob then some (.done, s) else none
  | .go x => if s.clock ≤ x.now then go t { s with clock := x.now } x else none

theorem next_go {t t' : Thread} {s s' : Shared} {x : Input} :
    next t s (.go x) = some (t', s') ↔
      s.clock ≤ x.now ∧ go t { s with clock := x.now } x = some (t', s') := by
  rw [next]
  split
  next h => exact ⟨fun hgo => ⟨h, hgo⟩, And.right⟩
  next h => exact iff_of_false (by simp) fun hgo => h hgo.1

theorem next_crash {t t' : Thread} {s s' : Shared} :
    next t s .crash = some (t', s') ↔ t.isJob = true ∧ t' = .done ∧ s' = s := by
  rw [next]
  split
  next h =>
    rw [Option.some.injEq, Prod.mk.injEq]
    exact ⟨fun ⟨ht, hs⟩ => ⟨h, ht.symm, hs.symm⟩, fun ⟨_, ht, hs⟩ => ⟨ht.symm, hs.symm⟩⟩
  next h => exact iff_of_false (by simp) fun hcrash => h hcrash.1

end SpringReader
