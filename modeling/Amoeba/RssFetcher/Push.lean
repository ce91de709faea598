import Amoeba.Java.DateFormat
import Mathlib.Data.List.Perm.Basic
import Mathlib.Data.List.Chain

/-!
# Pushing articles

`SendEmailJob` and `SendEmailScheduler`: the job of a user searches for articles with
a timestamp from the date of the last push up to the present time, sends an email
for each of them, and puts the present time into the database and, as text, into its
own data. The scheduler makes the data of the job from the database when the program
starts.

The text has no seconds, so the next search starts at the minute of the last one.
The articles of this minute are found again, whether they have been sent or not, and
those before it are not, whether they have been sent or not.

* `exactly_once_iff` — each article is sent once, and retried after a failure, if and
  only if in each execution but the last exactly those articles fail that are found
  again.
-/

namespace RssFetcher

open Java

/-! ### The job and its data -/

/-- An indexed article. A field can be missing. -/
structure Article where
  id : JString
  title : Option JString
  feedname : Option JString
  description : Option JString
  link : Option JString
  timestamp : Date
  deriving DecidableEq, Repr

/-- `UserBean`, as it is stored. -/
structure UserBean where
  name : JString
  email : JString
  keyword : JString
  lastPushDate : Option Date
  deriving DecidableEq, Repr

/-- The data of the job of a user. -/
structure PushData where
  email : JString
  keyword : JString
  lastpushdate : JString
  deriving DecidableEq, Repr

/-- What an execution meets outside of it: the time, the emails that can be sent, and
the order in which the search gives what it has found. -/
structure Execution where
  now : Date
  send : Article → Bool
  order : List Article → List Article
  order_perm : ∀ articles, (order articles).Perm articles

/-- A call of `SendEmail.Send`. -/
structure SendCall where
  article : Article
  recipientEmail : JString
  title : JString
  message : JString
  ok : Bool
  deriving DecidableEq, Repr

/-- An execution: the range that it searched, and its emails. -/
structure Push where
  lower : Option Date
  upper : Date
  calls : List SendCall

/-- The email for an article. -/
def sendCall (data : PushData) (x : Execution) (hit : Article) : SendCall where
  article := hit
  recipientEmail := data.email
  title := concat hit.title ++ lit "[ " ++ concat hit.feedname ++ lit " ] " ++ lit "@订阅(" ++
    data.keyword ++ lit ")"
  message := lit "<html> <body>" ++ concat hit.description ++ lit "<br><a href =\"" ++
    concat hit.link ++ lit "\" target=\"_blank\">点击查看原文</a></body></html>"
  ok := x.send hit

/-- The article lies in the range of a search. Both ends belong to it. -/
def InRange (lower : Option Date) (upper : Date) (a : Article) : Prop :=
  (∀ l ∈ lower, l ≤ a.timestamp) ∧ a.timestamp ≤ upper

instance (lower : Option Date) (upper : Date) (a : Article) : Decidable (InRange lower upper a) :=
  inferInstanceAs (Decidable (_ ∧ _))

/-- What the search finds: at most ten of the articles that match. -/
def searchHits (articles : List Article) (x : Execution) (lower : Option Date) : List Article :=
  (x.order (articles.filter (InRange lower x.now ·))).take 10

/-- `updateLastPushdate` -/
def updateLastPushdate (user : UserBean) (date : Date) : UserBean :=
  { user with lastPushDate := some date }

/-- `SendEmailJob.execute`. The exception of an email is caught and logged. -/
def SendEmailJob.execute (fmt : DateFormat) (articles : List Article) (x : Execution)
    (data : PushData) (user : UserBean) : PushData × UserBean × Push :=
  let lastpushdate := fmt.read (some data.lastpushdate)
  ({ data with lastpushdate := fmt.write (some x.now) }, updateLastPushdate user x.now,
    ⟨lastpushdate, x.now, (searchHits articles x lastpushdate).map (sendCall data x)⟩)

/-- `SendEmailScheduler.run`, for one user. -/
def SendEmailScheduler.run (fmt : DateFormat) (user : UserBean) : PushData :=
  ⟨user.email, user.keyword, fmt.write user.lastPushDate⟩

/-! ### Runs -/

/-- What happens to the job of a user. -/
inductive Event where
  | execute (x : Execution)
  | restart

/-- The executions among the events. -/
def executions : List Event → List Execution
  | [] => []
  | .execute x :: events => x :: executions events
  | .restart :: events => executions events

/-- The emails of a run. -/
def run (fmt : DateFormat) (articles : List Article) : List Event → PushData → UserBean → List Push
  | [], _, _ => []
  | .execute x :: events, data, user =>
    let (data, user, push) := SendEmailJob.execute fmt articles x data user
    push :: run fmt articles events data user
  | .restart :: events, _, user => run fmt articles events (SendEmailScheduler.run fmt user) user

/-- The ranges of executions that follow each other. -/
def windows : Option Date → List Execution → List (Option Date × Execution)
  | _, [] => []
  | lower, x :: xs => (lower, x) :: windows (some (truncMinute x.now)) xs

/-- What an execution shows: its range and, if no more than ten articles lie in it, one
email for each of them. -/
structure Faithful (articles : List Article) (lower : Option Date) (x : Execution) (p : Push) :
    Prop where
  lower_eq : p.lower = lower
  upper_eq : p.upper = x.now
  calls : (articles.filter (InRange lower x.now ·)).length ≤ 10 →
    (p.calls.map fun c => (c.article, c.ok)).Perm
      ((articles.filter (InRange lower x.now ·)).map fun a => (a, x.send a))

theorem execute_faithful {fmt : DateFormat} {articles : List Article} {x : Execution}
    {data : PushData} (user : UserBean) {lower : Option Date}
    (hread : fmt.read (some data.lastpushdate) = lower) :
    Faithful articles lower x (SendEmailJob.execute fmt articles x data user).2.2 := by
  subst hread
  refine ⟨rfl, rfl, fun hlength => ?_⟩
  set lower := fmt.read (some data.lastpushdate)
  have hperm := x.order_perm (articles.filter (InRange lower x.now ·))
  -- ten hits are all hits
  have htake : searchHits articles x lower = x.order (articles.filter (InRange lower x.now ·)) :=
    List.take_of_length_le (hperm.length_eq.trans_le hlength)
  have hcalls : (SendEmailJob.execute fmt articles x data user).2.2.calls =
      (searchHits articles x lower).map (sendCall data x) := rfl
  rw [hcalls, htake, List.map_map]
  exact hperm.map _

/-- **The ranges of a run**: with or without restarts in between, each search starts
at the minute of the one before it. -/
theorem run_faithful {fmt : DateFormat} {articles : List Article} {events : List Event}
    (hfmt : ∀ x ∈ executions events, fmt.KeepsMinute x.now) {data : PushData} {user : UserBean}
    {lower : Option Date} (hdata : fmt.read (some data.lastpushdate) = lower)
    (huser : fmt.read (some (fmt.write user.lastPushDate)) = lower) :
    List.Forall₂ (fun w p => Faithful articles w.1 w.2 p) (windows lower (executions events))
      (run fmt articles events data user) := by
  induction events generalizing data user lower with
  | nil => exact .nil
  | cons event events ih =>
    cases event with
    | execute x =>
      obtain ⟨hx, hfmt⟩ := List.forall_mem_cons.mp hfmt
      -- the text in the data and the date in the database lead to the same minute, so a
      -- restart changes nothing
      have hround := DateFormat.read_write_some hx
      exact .cons (execute_faithful user hdata) (ih hfmt hround hround)
    | restart => exact ih hfmt huser huser

/-! ### The emails for one article -/

/-- Whether the emails for an article went out, in one execution. -/
def attempts (a : Article) (p : Push) : List Bool := (p.calls.filter (·.article = a)).map SendCall.ok

/-- An execution in its range: one attempt for what lies in it, and none for the rest. -/
def attemptIn (articles : List Article) (a : Article) (w : Option Date × Execution) : List Bool :=
  if a ∈ articles ∧ InRange w.1 w.2.now a then [w.2.send a] else []

theorem filter_pair {articles : List Article} (hnodup : articles.Nodup) (f : Article → Bool)
    (a : Article) :
    ((articles.map fun b => (b, f b)).filter (·.1 = a)).map Prod.snd =
      if a ∈ articles then [f a] else [] := by
  have hcomp : ((articles.map fun b => (b, f b)).filter (·.1 = a)) =
      (articles.filter (· = a)).map fun b => (b, f b) := by
    rw [List.filter_map]
    rfl
  -- without duplicates there is one pair for the article, or none
  rw [hcomp, List.filter_eq, List.map_map, List.map_replicate, hnodup.count]
  split <;> rfl

theorem Faithful.attempts_eq {articles : List Article} (hnodup : articles.Nodup)
    {lower : Option Date} {x : Execution} {p : Push} (h : Faithful articles lower x p)
    (hlength : (articles.filter (InRange p.lower p.upper ·)).length ≤ 10) (a : Article) :
    attempts a p = attemptIn articles a (lower, x) := by
  rw [h.lower_eq, h.upper_eq] at hlength
  have hperm := ((h.calls hlength).filter (·.1 = a)).map Prod.snd
  rw [filter_pair (hnodup.filter _)] at hperm
  have hattempts : attempts a p =
      ((p.calls.map fun c => (c.article, c.ok)).filter (·.1 = a)).map Prod.snd := by
    rw [List.filter_map, List.map_map]
    rfl
  rw [hattempts, attemptIn]
  simp only [List.mem_filter, decide_eq_true_eq] at hperm
  split at hperm
  next hmem =>
    rw [if_pos hmem]
    exact List.perm_singleton.mp hperm
  next hmem =>
    rw [if_neg hmem]
    exact hperm.eq_nil

/-- **The law of one delivery**: an article up to the end of the last range has been
sent once, unless all its emails failed; it is not sent again afterwards; and after
a failure the next execution tries again. -/
structure ExactlyOnce (articles : List Article) (log : List Push) : Prop where
  once : ∀ a ∈ articles, ∀ last, log.getLast? = some last → a.timestamp ≤ last.upper →
    (log.flatMap (attempts a)).count true = 1 ∨
      log.flatMap (attempts a) ≠ [] ∧ ∀ ok ∈ log.flatMap (attempts a), ok = false
  never_again : log.Pairwise fun p q => ∀ a, true ∈ attempts a p → attempts a q = []
  retried : log.IsChain fun p q => ∀ a, false ∈ attempts a p → attempts a q ≠ []

/-- **The condition**: in each execution but the last, of the articles in its range
exactly those fail that have a timestamp in the minute of the execution. -/
def Settled (articles : List Article) : Option Date → List Execution → Prop
  | lower, x :: y :: xs =>
    (∀ a ∈ articles, InRange lower x.now a →
      (x.send a = false ↔ truncMinute x.now ≤ a.timestamp)) ∧
    Settled articles (some (truncMinute x.now)) (y :: xs)
  | _, _ => True

section

variable {articles : List Article} {a : Article} {lower : Option Date} {x : Execution}

theorem mem_attemptIn {ok : Bool} :
    ok ∈ attemptIn articles a (lower, x) ↔
      a ∈ articles ∧ InRange lower x.now a ∧ x.send a = ok := by
  unfold attemptIn
  split
  next h =>
    rw [List.mem_singleton]
    exact ⟨fun heq => ⟨h.1, h.2, heq.symm⟩, fun ⟨_, _, heq⟩ => heq.symm⟩
  next h => exact iff_of_false (by simp) fun ⟨hmem, hrange, _⟩ => h ⟨hmem, hrange⟩

theorem attemptIn_eq_nil :
    attemptIn articles a (lower, x) = [] ↔ ¬ (a ∈ articles ∧ InRange lower x.now a) := by
  unfold attemptIn
  split
  next h => exact iff_of_false (by simp) (not_not.mpr h)
  next h => exact iff_of_true rfl h

/-- The next execution finds an article again if and only if its timestamp is not
before the minute of this one. -/
theorem attemptIn_next {y : Execution} (hle : x.now ≤ y.now) (ha : a ∈ articles)
    (hrange : InRange lower x.now a) :
    attemptIn articles a (some (truncMinute x.now), y) ≠ [] ↔ truncMinute x.now ≤ a.timestamp := by
  rw [Ne, attemptIn_eq_nil, not_not]
  constructor
  · rintro ⟨-, hlower, -⟩
    exact hlower _ rfl
  -- the range goes on to a later time, so only its lower end counts
  · intro hminute
    refine ⟨ha, fun l hl => ?_, hrange.2.trans hle⟩
    obtain rfl := Option.some.inj hl
    exact hminute

/-- What is before the minute of an execution is not found any more. -/
theorem attemptIn_later {d : Date} {xs : List Execution}
    (hsorted : (d :: xs.map Execution.now).Pairwise (· ≤ ·)) (ha : a.timestamp < truncMinute d) :
    ∀ w ∈ windows (some (truncMinute d)) xs, attemptIn articles a w = [] := by
  induction xs generalizing d with
  | nil => simp [windows]
  | cons y xs ih =>
    obtain ⟨hd, hsorted⟩ := List.pairwise_cons.mp hsorted
    -- the lower ends of the ranges do not decrease
    have hle : truncMinute d ≤ truncMinute y.now := truncMinute_mono (hd y.now List.mem_cons_self)
    refine List.forall_mem_cons.mpr ⟨?_, ih hsorted (ha.trans_le hle)⟩
    rw [attemptIn_eq_nil]
    rintro ⟨-, hlower, -⟩
    exact absurd (hlower _ rfl) (not_le.mpr ha)

/-- A log that shows the attempts of executions in their ranges. -/
def Shows (articles : List Article) (ws : List (Option Date × Execution)) (log : List Push) : Prop :=
  List.Forall₂ (fun w p => p.upper = w.2.now ∧ ∀ a, attempts a p = attemptIn articles a w) ws log

theorem Shows.flatMap_eq {ws : List (Option Date × Execution)} {log : List Push}
    (h : Shows articles ws log) (a : Article) :
    log.flatMap (attempts a) = ws.flatMap (attemptIn articles a) := by
  induction h with
  | nil => rfl
  | cons hw _ ih => rw [List.flatMap_cons, List.flatMap_cons, hw.2 a, ih]

theorem Shows.nil_of_mem {ws : List (Option Date × Execution)} {log : List Push}
    (h : Shows articles ws log) (hnil : ∀ w ∈ ws, attemptIn articles a w = []) :
    ∀ p ∈ log, attempts a p = [] := by
  induction h with
  | nil => simp
  | cons hw _ ih =>
    obtain ⟨hhead, htail⟩ := List.forall_mem_cons.mp hnil
    exact List.forall_mem_cons.mpr ⟨(hw.2 a).trans hhead, ih htail⟩

variable {xs : List Execution} {log : List Push}

/-- **The condition is needed**: an article that is found again is sent again, and one
that is not found again is not retried. -/
theorem settled_of_retried (hsorted : (xs.map Execution.now).Pairwise (· ≤ ·))
    (hshows : Shows articles (windows lower xs) log)
    (hnever : log.Pairwise fun p q => ∀ a, true ∈ attempts a p → attempts a q = [])
    (hretried : log.IsChain fun p q => ∀ a, false ∈ attempts a p → attempts a q ≠ []) :
    Settled articles lower xs := by
  induction xs generalizing lower log with
  | nil => trivial
  | cons x xs ih =>
    cases xs with
    | nil => trivial
    | cons y xs =>
      obtain ⟨hx, hsorted⟩ := List.pairwise_cons.mp hsorted
      cases hshows with
      | cons hp hrest =>
        cases hrest with
        | cons hq hrest =>
          obtain ⟨hhead, hretried⟩ := List.isChain_cons_cons.mp hretried
          obtain ⟨hfirst, hnever⟩ := List.pairwise_cons.mp hnever
          refine ⟨fun a ha hrange => ?_, ih hsorted (.cons hq hrest) hnever hretried⟩
          -- to be found again is to fail: retried on one side, never again on the other
          rw [← attemptIn_next (hx y.now List.mem_cons_self) ha hrange, ← hq.2 a]
          constructor
          · intro hfail
            refine hhead a ?_
            rw [hp.2 a]
            exact mem_attemptIn.mpr ⟨ha, hrange, hfail⟩
          · intro hagain
            by_contra hsent
            refine hagain (hfirst _ List.mem_cons_self a ?_)
            rw [hp.2 a]
            exact mem_attemptIn.mpr ⟨ha, hrange, Bool.not_eq_false _ ▸ hsent⟩

/-- Under the condition, what is sent in an execution but the last is before its
minute. -/
theorem Settled.before {y : Execution} (h : Settled articles lower (x :: y :: xs)) (ha : a ∈ articles)
    (hrange : InRange lower x.now a) (hsent : x.send a = true) : a.timestamp < truncMinute x.now := by
  rw [← not_le, ← h.1 a ha hrange, hsent]
  decide

/-- Under the condition a failure is retried, -/
theorem Settled.retried (h : Settled articles lower xs)
    (hsorted : (xs.map Execution.now).Pairwise (· ≤ ·))
    (hshows : Shows articles (windows lower xs) log) :
    log.IsChain fun p q => ∀ a, false ∈ attempts a p → attempts a q ≠ [] := by
  induction xs generalizing lower log with
  | nil =>
    cases hshows
    exact List.isChain_nil
  | cons x xs ih =>
    cases xs with
    | nil =>
      cases hshows with
      | cons hp hrest =>
        cases hrest
        exact List.isChain_singleton _
    | cons y xs =>
      obtain ⟨hx, hsorted⟩ := List.pairwise_cons.mp hsorted
      obtain ⟨hhead, h⟩ := h
      cases hshows with
      | cons hp hrest =>
        have hchain := ih h hsorted hrest
        cases hrest with
        | cons hq hrest =>
          refine List.isChain_cons_cons.mpr ⟨fun a hfail => ?_, hchain⟩
          -- what fails is in the minute of the execution, and that is in the next range
          rw [hp.2 a] at hfail
          obtain ⟨ha, hrange, hfail⟩ := mem_attemptIn.mp hfail
          rw [hq.2 a, attemptIn_next (hx y.now List.mem_cons_self) ha hrange]
          exact (hhead a ha hrange).mp hfail

/-- and what has been sent is not found again, -/
theorem Settled.never_again (h : Settled articles lower xs)
    (hsorted : (xs.map Execution.now).Pairwise (· ≤ ·))
    (hshows : Shows articles (windows lower xs) log) :
    log.Pairwise fun p q => ∀ a, true ∈ attempts a p → attempts a q = [] := by
  induction xs generalizing lower log with
  | nil =>
    cases hshows
    exact .nil
  | cons x xs ih =>
    cases hshows with
    | cons hp hrest =>
      cases xs with
      | nil =>
        cases hrest
        exact List.pairwise_singleton _ _
      | cons y xs =>
        have hlater := (List.pairwise_cons.mp hsorted).2
        refine List.pairwise_cons.mpr ⟨fun q hq a hsent => ?_, ih h.2 hlater hrest⟩
        -- what is sent is before the minute, and the later ranges begin there
        rw [hp.2 a] at hsent
        obtain ⟨ha, hrange, hsent⟩ := mem_attemptIn.mp hsent
        exact Shows.nil_of_mem hrest (attemptIn_later hsorted (h.before ha hrange hsent)) q hq

/-- and an article that the ranges have not passed is sent once or fails in all of
them. -/
theorem Settled.once (h : Settled articles lower xs)
    (hsorted : (xs.map Execution.now).Pairwise (· ≤ ·)) (ha : a ∈ articles)
    (hlower : ∀ l ∈ lower, l ≤ a.timestamp) {last : Execution} (hlast : xs.getLast? = some last)
    (hupper : a.timestamp ≤ last.now) :
    ((windows lower xs).flatMap (attemptIn articles a)).count true = 1 ∨
      (windows lower xs).flatMap (attemptIn articles a) ≠ [] ∧
        ∀ ok ∈ (windows lower xs).flatMap (attemptIn articles a), ok = false := by
  induction xs generalizing lower with
  | nil => simp at hlast
  | cons x xs ih =>
    have hsorted' := (List.pairwise_cons.mp hsorted).2
    rw [windows, List.flatMap_cons]
    -- the first execution whose range reaches the article is the one that finds it
    by_cases hx : a.timestamp ≤ x.now
    · have hattempt : attemptIn articles a (lower, x) = [x.send a] := if_pos ⟨ha, hlower, hx⟩
      rw [hattempt]
      cases xs with
      | nil => cases hsend : x.send a <;> simp [windows]
      | cons y xs =>
        cases hsend : x.send a with
        | true =>
          -- the article is not found any more
          have hbefore := h.before ha ⟨hlower, hx⟩ hsend
          have hnil : (windows (some (truncMinute x.now)) (y :: xs)).flatMap
              (attemptIn articles a) = [] :=
            List.flatMap_eq_nil_iff.mpr (attemptIn_later hsorted hbefore)
          rw [hnil]
          exact .inl (by decide)
        | false =>
          -- the article fails in its minute, so it is in the next range again
          have hlower' : ∀ l ∈ some (truncMinute x.now), l ≤ a.timestamp := fun l hl =>
            Option.some.inj hl ▸ (h.1 a ha ⟨hlower, hx⟩).mp hsend
          rw [List.getLast?_cons_cons] at hlast
          rcases ih h.2 hsorted' hlower' hlast with hcount | ⟨-, hall⟩
          · exact .inl (by simpa using hcount)
          · exact .inr ⟨by simp, by simpa using hall⟩
    · -- the article is newer than this execution
      have hattempt : attemptIn articles a (lower, x) = [] :=
        if_neg fun hrange => hx hrange.2.2
      rw [hattempt, List.nil_append]
      cases xs with
      | nil =>
        obtain rfl : x = last := by simpa using hlast
        exact absurd hupper hx
      | cons y xs =>
        have hlower' : ∀ l ∈ some (truncMinute x.now), l ≤ a.timestamp := fun l hl =>
          Option.some.inj hl ▸ (truncMinute_le x.now).trans (not_le.mp hx).le
        rw [List.getLast?_cons_cons] at hlast
        exact ih h.2 hsorted' hlower' hlast

theorem Shows.getLast (hshows : Shows articles (windows lower xs) log) {p : Push}
    (hp : log.getLast? = some p) : ∃ x, xs.getLast? = some x ∧ p.upper = x.now := by
  induction xs generalizing lower log with
  | nil =>
    cases hshows
    simp at hp
  | cons x xs ih =>
    cases hshows with
    | cons hx hrest =>
      cases xs with
      | nil =>
        cases hrest
        obtain rfl := Option.some.inj hp
        exact ⟨x, rfl, hx.1⟩
      | cons y xs =>
        cases hrest with
        | cons hy hrest =>
          rw [List.getLast?_cons_cons] at hp ⊢
          exact ih (.cons hy hrest) hp

theorem shows_of_faithful (hnodup : articles.Nodup) {ws : List (Option Date × Execution)}
    (hlog : List.Forall₂ (fun w p => Faithful articles w.1 w.2 p) ws log)
    (hten : ∀ p ∈ log, (articles.filter (InRange p.lower p.upper ·)).length ≤ 10) :
    Shows articles ws log := by
  induction hlog with
  | nil => exact .nil
  | cons hp _ ih =>
    obtain ⟨hten, hrest⟩ := List.forall_mem_cons.mp hten
    exact .cons ⟨hp.upper_eq, hp.attempts_eq hnodup hten⟩ (ih hrest)

end

/-- **When each article is sent exactly once.** For the job of every user and all
articles from its last push on, all executions at times that do not decrease,
restarts in between and all emails that fail, if no range holds more than ten
articles: the law of one delivery holds if and only if in each execution but the
last, of the articles in its range, those and only those fail that have a timestamp
in its minute. -/
theorem exactly_once_iff {fmt : DateFormat} {articles : List Article} (hnodup : articles.Nodup)
    {user : UserBean} (hdate : ∀ d ∈ user.lastPushDate, fmt.KeepsMinute d)
    (hfirst : ∀ a ∈ articles, ∀ d ∈ user.lastPushDate, truncMinute d ≤ a.timestamp)
    {events : List Event} (hsorted : ((executions events).map Execution.now).Pairwise (· ≤ ·))
    (hfmt : ∀ x ∈ executions events, fmt.KeepsMinute x.now)
    (hten : ∀ p ∈ run fmt articles events (SendEmailScheduler.run fmt user) user,
      (articles.filter (InRange p.lower p.upper ·)).length ≤ 10) :
    ExactlyOnce articles (run fmt articles events (SendEmailScheduler.run fmt user) user) ↔
      Settled articles (user.lastPushDate.map truncMinute) (executions events) := by
  -- the first range starts at the minute that the database has
  have hread : fmt.read (some (fmt.write user.lastPushDate)) =
      user.lastPushDate.map truncMinute := by
    cases hstored : user.lastPushDate with
    | none => exact fmt.read_write_none
    | some d => exact DateFormat.read_write_some (hdate d hstored)
  have hshows := shows_of_faithful hnodup (run_faithful hfmt hread hread) hten
  constructor
  · exact fun h => settled_of_retried hsorted hshows h.never_again h.retried
  · intro h
    refine ⟨fun a ha p hp hupper => ?_, h.never_again hsorted hshows, h.retried hsorted hshows⟩
    obtain ⟨x, hlast, heq⟩ := hshows.getLast hp
    have hlower : ∀ l ∈ user.lastPushDate.map truncMinute, l ≤ a.timestamp := by
      intro l hl
      obtain ⟨d, hd, rfl⟩ := Option.map_eq_some_iff.mp hl
      exact hfirst a ha d hd
    rw [hshows.flatMap_eq a]
    exact h.once hsorted ha hlower hlast (heq ▸ hupper)

/-- The short form of the dates of the examples, which lie in the first ten minutes. -/
def shortFormat : DateFormat where
  format d := lit "1/1/70 12:0" ++ [48 + (d / 60000).toNat.toUInt16] ++ lit " AM"
  parse text :=
    if text.take 11 = lit "1/1/70 12:0" then
      (text.drop 11).head?.map fun c => ((c - 48).toNat * 60000 : Int)
    else none
  parse_nil := by decide

/-- A user who has not had a push. -/
def newUser : UserBean := ⟨lit "u", lit "e", lit "k", none⟩

/-- An article of the examples. -/
def articleAt (timestamp : Date) : Article :=
  ⟨lit "1", some (lit "t"), some (lit "f"), some (lit "d"), some (lit "l"), timestamp⟩

/-- An execution of the examples, at which the emails for one timestamp fail. -/
def executionAt (now : Date) (failing : Option Date) : Execution :=
  ⟨now, fun a => some a.timestamp ≠ failing, id, fun articles => .refl articles⟩

/-- The article of the minute of the first execution fails there, and is sent in the
second one. -/
theorem exactly_once_retry :
    ExactlyOnce [articleAt 30000, articleAt 65000]
      (run shortFormat [articleAt 30000, articleAt 65000]
        [.execute (executionAt 70000 (some 65000)), .restart, .execute (executionAt 100000 none)]
        (SendEmailScheduler.run shortFormat newUser) newUser) := by
  refine (exactly_once_iff (by decide) (by simp [newUser]) (by simp [newUser]) (by decide +kernel)
    ?_ ?_).mpr ?_
  · intro x hx
    rcases List.mem_cons.mp hx with rfl | hx
    · exact (by decide +kernel : shortFormat.parse (shortFormat.format 70000) = some 60000)
    · obtain rfl := List.mem_singleton.mp hx
      exact (by decide +kernel : shortFormat.parse (shortFormat.format 100000) = some 60000)
  · exact fun p _ => (List.length_filter_le _ _).trans (by decide)
  · refine ⟨?_, trivial⟩
    decide +kernel

/-- **An article that is sent twice, and one that is lost.** The first is in the minute
of the execution that sends it; the second is in the minute before the execution in
which its email fails. -/
theorem not_exactly_once :
    ¬ ExactlyOnce [articleAt 30000] (run shortFormat [articleAt 30000]
        [.execute (executionAt 40000 none), .execute (executionAt 100000 none)]
        (SendEmailScheduler.run shortFormat newUser) newUser) ∧
      ¬ ExactlyOnce [articleAt 30000] (run shortFormat [articleAt 30000]
        [.execute (executionAt 70000 (some 30000)), .restart, .execute (executionAt 100000 none)]
        (SendEmailScheduler.run shortFormat newUser) newUser) := by
  constructor
  · intro h
    have hattempts : (run shortFormat [articleAt 30000]
        [.execute (executionAt 40000 none), .execute (executionAt 100000 none)]
        (SendEmailScheduler.run shortFormat newUser) newUser).flatMap (attempts (articleAt 30000)) =
        [true, true] := by decide +kernel
    have honce := h.once (articleAt 30000) (by decide) _ rfl (by decide +kernel)
    rw [hattempts] at honce
    exact absurd honce (by decide)
  · intro h
    have hagain := (List.isChain_cons_cons.mp h.retried).1 (articleAt 30000) (by decide +kernel)
    exact hagain (by decide +kernel)

end RssFetcher
