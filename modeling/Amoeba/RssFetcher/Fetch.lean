import Amoeba.Java.DateFormat
import Mathlib.Data.List.Basic

/-!
# Fetching a feed

`RssFetchJob.execute` with what it uses of `MongoDao` and `EntryDBObject`: the job reads
the feed, stores the entries that are not yet in the database, computes the time of
its next execution, and schedules itself again. It does the latter at its end, and no
other part of the program does it, so an exception before that point drops the feed
from the schedule.

Of the exceptions of the database only those of class `MongoException` are caught, and
only around some of the calls. An entry without a description has no document, and
inserting none throws an exception of another class.

* `rearmed_iff` — the job is scheduled again if and only if no entry that is looked at
  makes it throw.
-/

namespace RssFetcher

open Java

/-! ### Feeds and documents -/

/-- An entry of a feed. -/
structure SyndEntry where
  link : Option JString
  title : Option JString
  /-- The content, whose value can be missing on its own. -/
  description : Option (Option JString)
  author : Option JString
  publishedDate : Option Date
  deriving DecidableEq, Repr

/-- A feed that has been read. -/
structure SyndFeed where
  publishedDate : Option Date
  entries : List SyndEntry
  /-- The time to live of the original feed, if that is a channel. -/
  ttl : Option Int32
  deriving DecidableEq, Repr

/-- A document of the data collection. -/
structure RssData where
  uuid : JString
  feedname : JString
  timestamp : Date
  link : JString
  title : JString
  description : Option JString
  author : Option JString
  publisheddate : Option Date
  deriving DecidableEq, Repr

/-- The data of the job of a feed. -/
structure FeedData where
  feedname : JString
  url : JString
  lastupdate : Option JString
  updateRate : Int64
  deriving DecidableEq, Repr

/-- What the database holds for a feed: the articles of all feeds, and the date in the
feed's own document. -/
structure FeedDb where
  data : List RssData
  lastupdate : Option Date
  deriving DecidableEq, Repr

/-- How the database calls for an entry end, `true` for those that go through, and the
time at which its document is made. -/
structure Calls where
  find : Bool
  hasNext : Bool
  insert : Bool
  now : Date
  deriving DecidableEq, Repr

/-- What an execution meets outside of it. -/
structure FetchEnv where
  fmt : DateFormat
  getBytes : JString → List UInt8
  nameUUIDFromBytes : List UInt8 → JString
  /-- The property `updaterate`. -/
  defaultRate : Int32
  /-- The database could be opened. -/
  opened : Bool
  /-- The calls for the entry with this number. -/
  calls : Nat → Calls
  /-- The update of the feed's document goes through. -/
  update : Bool
  /-- The clock at the start of the execution, and at its two later readings. -/
  started : Int64
  compared : Int64
  late : Int64

/-! ### The database -/

/-- `EntryDBObject.getInstance` -/
def EntryDBObject.getInstance (entry : SyndEntry) (uuid feedname : JString) (now : Date) :
    Option RssData :=
  match entry.description, entry.title, entry.link with
  | some description, some title, some link =>
    some ⟨uuid, feedname, now, link, title, description, entry.author, entry.publishedDate⟩
  | _, _, _ => none

/-- `IsUuidExist`; `none` stands for an exception. The call of `find` is not in the
`try`, and without a database there is no collection to call it on. -/
def isUuidExist (env : FetchEnv) (calls : Calls) (data : List RssData) (uuid : JString) :
    Option Bool :=
  if !env.opened then none
  else if !calls.find then none
  else if !calls.hasNext then some false
  else some (data.any (·.uuid = uuid))

/-- `MongoDao.insert`; `none` stands for an exception that is not caught. -/
def insert (calls : Calls) (data : List RssData) (doc : Option RssData) : Option (List RssData) :=
  doc.map fun doc => if calls.insert then data ++ [doc] else data

/-- `updateLastUpdate` -/
def updateLastUpdate (env : FetchEnv) (date stored : Option Date) : Option (Option Date) :=
  if !env.opened then none else some (if env.update then date else stored)

/-! ### The job -/

/-- The identifier of an article. -/
def uuidOf (env : FetchEnv) (link title : JString) : JString :=
  env.nameUUIDFromBytes (env.getBytes (link ++ title))

/-- The body of the loop over the entries; `none` stands for an exception. -/
def fetchEntry (env : FetchEnv) (feedname : JString) (calls : Calls) (entry : SyndEntry)
    (data : List RssData) : Option (List RssData) :=
  match entry.link, entry.title with
  | some link, some title =>
    let uuid := uuidOf env link title
    (isUuidExist env calls data uuid).bind fun exists_ =>
      if exists_ then some data
      else insert calls data (EntryDBObject.getInstance entry uuid feedname calls.now)
  | _, _ => some data

/-- The loop over the entries, from the entry with number `n` on: the documents, and
whether the loop comes to its end. -/
def fetchEntries (env : FetchEnv) (feedname : JString) :
    Nat → List SyndEntry → List RssData → List RssData × Bool
  | _, [], data => (data, true)
  | n, entry :: entries, data =>
    match fetchEntry env feedname (env.calls n) entry data with
    | none => (data, false)
    | some data => fetchEntries env feedname (n + 1) entries data

/-- The entries of the feed are looked at. -/
def isUpdated (lastDate feedDate : Option Date) : Bool :=
  match lastDate, feedDate with
  | none, _ => true
  | some _, none => false
  | some last, some date => last < date

/-- The update rate and the next time, adjusted by the time to live. -/
def adjust (env : FetchEnv) (feed : SyndFeed) (updateRate nextTriggerTime : Int64) : Int64 × Int64 :=
  match feed.ttl with
  | none => (updateRate, nextTriggerTime)
  | some ttl =>
    if 0 < ttl then
      -- the product is one of 32 bits
      let updateRate := (ttl * 60 * 1000).toInt64
      match feed.publishedDate with
      | none => (updateRate, nextTriggerTime)
      | some feedDate =>
        if env.compared < Int64.ofInt feedDate + updateRate then
          (updateRate, Int64.ofInt feedDate + updateRate + 60000)
        else (updateRate, env.late + 60000)
    else (updateRate, nextTriggerTime)

/-- What an execution leaves: the database, and the data and the time with which the
job has been scheduled again, if it came to that. -/
structure FetchResult where
  db : FeedDb
  scheduled : Option (FeedData × Int64)
  deriving DecidableEq, Repr

/-- The end of an execution, where the job schedules itself again. -/
def reschedule (env : FetchEnv) (job : FeedData) (db : FeedDb) (lastDate : Option Date)
    (updateRate nextTriggerTime : Int64) : FetchResult :=
  let job := { job with lastupdate := some (env.fmt.write lastDate), updateRate := updateRate }
  ⟨db, some (job, nextTriggerTime)⟩

/-- `RssFetchJob.execute`, on the answer of `getFeed`. -/
def RssFetchJob.execute (env : FetchEnv) (fetched : Option SyndFeed) (job : FeedData)
    (db : FeedDb) : FetchResult :=
  let lastDate := env.fmt.read job.lastupdate
  let updateRate := if job.updateRate < 1000 then env.defaultRate.toInt64 else job.updateRate
  let nextTriggerTime := env.started + updateRate
  match fetched with
  | none => reschedule env job db lastDate updateRate nextTriggerTime
  | some feed =>
    let (rate, time) := adjust env feed updateRate nextTriggerTime
    if isUpdated lastDate feed.publishedDate then
      match fetchEntries env job.feedname 0 feed.entries db.data with
      | (data, false) => ⟨{ db with data := data }, none⟩
      | (data, true) =>
        match updateLastUpdate env feed.publishedDate db.lastupdate with
        | none => ⟨{ db with data := data }, none⟩
        | some lastupdate => reschedule env job ⟨data, lastupdate⟩ feed.publishedDate rate time
    else reschedule env job db lastDate rate time

/-! ### Entries that throw -/

/-- The entry has a document, and this is its identifier. -/
def Stores (env : FetchEnv) (entry : SyndEntry) (uuid : JString) : Prop :=
  ∃ link title description, entry.link = some link ∧ entry.title = some title ∧
    entry.description = some description ∧ uuidOf env link title = uuid

/-- The identifier has a document. -/
def Known (data : List RssData) (uuid : JString) : Prop := ∃ doc ∈ data, doc.uuid = uuid

/-- The entry does not make the job throw, where `known` are the identifiers that have a
document already. -/
structure Passes (env : FetchEnv) (calls : Calls) (known : JString → Prop) (entry : SyndEntry) :
    Prop where
  find : ∀ link title, entry.link = some link → entry.title = some title → calls.find = true
  described : ∀ link title, entry.link = some link → entry.title = some title →
    entry.description = none → calls.hasNext = true ∧ known (uuidOf env link title)

section

variable {env : FetchEnv} {feedname : JString} {calls : Calls} {entry : SyndEntry}
  {data data' : List RssData}

theorem isUuidExist_eq_some (hopened : env.opened = true) (hfind : calls.find = true)
    (uuid : JString) :
    ∃ found, isUuidExist env calls data uuid = some found ∧
      (found = true ↔ calls.hasNext = true ∧ Known data uuid) := by
  unfold isUuidExist
  rw [hopened, hfind]
  -- a query that fails is taken for one that finds nothing
  cases hnext : calls.hasNext with
  | false => exact ⟨false, rfl, by simp⟩
  | true =>
    refine ⟨data.any (·.uuid = uuid), rfl, ?_⟩
    simp [Known]

/-- Identifiers after a document has been added. -/
theorem known_append {doc : RssData} {uuid : JString} :
    Known (data ++ [doc]) uuid ↔ Known data uuid ∨ doc.uuid = uuid := by
  simp [Known, or_and_right, exists_or]

/-- An entry with a link and a title, as far as it has been looked up. -/
theorem fetchEntry_found {link title : JString} (hlink : entry.link = some link)
    (htitle : entry.title = some title) {found : Bool}
    (hfound : isUuidExist env calls data (uuidOf env link title) = some found) :
    fetchEntry env feedname calls entry data =
      if found then some data
      else insert calls data
        (EntryDBObject.getInstance entry (uuidOf env link title) feedname calls.now) := by
  unfold fetchEntry
  rw [hlink, htitle]
  dsimp only
  rw [hfound, Option.bind_some]

theorem stores_iff {link title uuid : JString} (hlink : entry.link = some link)
    (htitle : entry.title = some title) :
    Stores env entry uuid ↔ entry.description ≠ none ∧ uuidOf env link title = uuid := by
  simp [Stores, hlink, htitle, Option.ne_none_iff_exists']

theorem passes_iff {known : JString → Prop} {link title : JString} (hlink : entry.link = some link)
    (htitle : entry.title = some title) :
    Passes env calls known entry ↔ calls.find = true ∧
      (entry.description = none → calls.hasNext = true ∧ known (uuidOf env link title)) := by
  constructor
  · exact fun h => ⟨h.find link title hlink htitle, h.described link title hlink htitle⟩
  · rintro ⟨hfind, hdescribed⟩
    refine ⟨fun _ _ _ _ => hfind, fun link' title' hlink' htitle' => ?_⟩
    obtain rfl := Option.some.inj (hlink.symm.trans hlink')
    obtain rfl := Option.some.inj (htitle.symm.trans htitle')
    exact hdescribed

theorem getInstance_eq_some {link title : JString} {description : Option JString}
    (hlink : entry.link = some link) (htitle : entry.title = some title)
    (hdescription : entry.description = some description) (uuid feedname : JString) (now : Date) :
    ∃ doc, EntryDBObject.getInstance entry uuid feedname now = some doc ∧ doc.uuid = uuid := by
  unfold EntryDBObject.getInstance
  rw [hlink, htitle, hdescription]
  exact ⟨_, rfl, rfl⟩

theorem getInstance_uuid {uuid feedname : JString} {now : Date} {doc : RssData}
    (h : EntryDBObject.getInstance entry uuid feedname now = some doc) : doc.uuid = uuid := by
  unfold EntryDBObject.getInstance at h
  split at h
  · obtain rfl := Option.some.inj h
    rfl
  · simp at h

/-- What the body of the loop does to an entry. -/
def EntryStep (env : FetchEnv) (feedname : JString) (calls : Calls) (entry : SyndEntry)
    (data : List RssData) : Prop :=
  (fetchEntry env feedname calls entry data = none ∧ ¬ Passes env calls (Known data) entry) ∨
    ∃ data', fetchEntry env feedname calls entry data = some data' ∧
      Passes env calls (Known data) entry ∧
      ∀ uuid, Known data' uuid ↔ Known data uuid ∨ Stores env entry uuid ∧ calls.insert = true

/-- An entry with a link and a title whose lookup goes through. -/
theorem entryStep_found {link title : JString} (hopened : env.opened = true)
    (hfind : calls.find = true) (hlink : entry.link = some link)
    (htitle : entry.title = some title) : EntryStep env feedname calls entry data := by
  obtain ⟨found, hexist, hfound⟩ : ∃ found,
      isUuidExist env calls data (uuidOf env link title) = some found ∧
        (found = true ↔ calls.hasNext = true ∧ Known data (uuidOf env link title)) :=
    isUuidExist_eq_some hopened hfind _
  unfold EntryStep
  rw [fetchEntry_found hlink htitle hexist, passes_iff hlink htitle]
  simp only [stores_iff hlink htitle]
  cases found with
  | true =>
    -- the article is known, and nothing is inserted
    have hknown := hfound.mp rfl
    refine .inr ⟨data, rfl, ⟨hfind, fun _ => hknown⟩, fun uuid => ⟨.inl, ?_⟩⟩
    rintro (h | ⟨⟨-, rfl⟩, -⟩)
    · exact h
    · exact hknown.2
  | false =>
    cases hdescription : entry.description with
    -- without a description there is no document, and inserting none throws
    | none =>
      refine .inl ⟨by simp [insert, EntryDBObject.getInstance, hdescription], ?_⟩
      rintro ⟨-, hknown⟩
      simpa using hfound.mpr (hknown rfl)
    | some description =>
      obtain ⟨doc, hdoc, huuid⟩ := getInstance_eq_some hlink htitle hdescription
        (uuidOf env link title) feedname calls.now
      refine .inr ⟨if calls.insert then data ++ [doc] else data, by simp [insert, hdoc],
        ⟨hfind, by simp⟩, fun uuid => ?_⟩
      -- an insert that fails is logged and passed over
      cases hinsert : calls.insert with
      | false => simp
      | true => simp [known_append, huuid]

/-- **One entry**: it throws, or its document is there afterwards if it is stored. -/
theorem fetchEntry_cases (feedname : JString) (calls : Calls) (entry : SyndEntry)
    (data : List RssData) (hopened : env.opened = true) :
    EntryStep env feedname calls entry data := by
  cases hlink : entry.link with
  -- an entry without a link is passed over
  | none =>
    refine .inr ⟨data, by simp [fetchEntry, hlink], ⟨by simp [hlink], by simp [hlink]⟩,
      fun uuid => ?_⟩
    simp [Stores, hlink]
  | some link =>
    cases htitle : entry.title with
    | none =>
      refine .inr ⟨data, by simp [fetchEntry, htitle], ⟨by simp [htitle], by simp [htitle]⟩,
        fun uuid => ?_⟩
      simp [Stores, htitle]
    | some title =>
      cases hfind : calls.find with
      | false =>
        refine .inl ⟨by simp [fetchEntry, hlink, htitle, isUuidExist, hopened, hfind], fun h => ?_⟩
        simp [h.find link title hlink htitle] at hfind
      | true => exact entryStep_found hopened hfind hlink htitle

theorem Passes.congr {known known' : JString → Prop} (h : Passes env calls known entry)
    (hknown : ∀ uuid, known uuid ↔ known' uuid) : Passes env calls known' entry :=
  ⟨h.find, fun link title hlink htitle hdescription =>
    (h.described link title hlink htitle hdescription).imp_right (hknown _).mp⟩

/-- The identifiers that have a document when the loop, which is at the entry with
number `n`, comes to the entry `i` places behind. -/
def KnownAt (env : FetchEnv) (data : List RssData) (n : Nat) (entries : List SyndEntry) (i : Nat)
    (uuid : JString) : Prop :=
  Known data uuid ∨ ∃ j e, j < i ∧ entries[j]? = some e ∧ Stores env e uuid ∧
    (env.calls (n + j)).insert = true

theorem knownAt_zero {n : Nat} {entries : List SyndEntry} {uuid : JString} :
    KnownAt env data n entries 0 uuid ↔ Known data uuid := by
  simp [KnownAt]

/-- The loop goes one entry on. -/
theorem knownAt_cons {n i : Nat} {entries : List SyndEntry}
    (hdata : ∀ uuid, Known data' uuid ↔
      Known data uuid ∨ Stores env entry uuid ∧ (env.calls n).insert = true) (uuid : JString) :
    KnownAt env data' (n + 1) entries i uuid ↔
      KnownAt env data n (entry :: entries) (i + 1) uuid := by
  unfold KnownAt
  rw [hdata uuid, or_assoc]
  refine or_congr_right ⟨?_, ?_⟩
  · rintro (hfirst | ⟨j, e, hj, hget, hstores⟩)
    · exact ⟨0, entry, Nat.succ_pos i, rfl, hfirst⟩
    · refine ⟨j + 1, e, Nat.succ_lt_succ hj, hget, ?_⟩
      rwa [Nat.add_right_comm, Nat.add_assoc] at hstores
  · rintro ⟨j, e, hj, hget, hstores⟩
    cases j with
    | zero =>
      obtain rfl := Option.some.inj hget
      exact .inl hstores
    | succ j =>
      refine .inr ⟨j, e, Nat.lt_of_succ_lt_succ hj, hget, ?_⟩
      rwa [Nat.add_right_comm, Nat.add_assoc]

/-- **The loop comes to its end** if and only if all entries pass. -/
theorem fetchEntries_completes (hopened : env.opened = true) {n : Nat} {entries : List SyndEntry} :
    (fetchEntries env feedname n entries data).2 = true ↔
      ∀ i e, entries[i]? = some e →
        Passes env (env.calls (n + i)) (KnownAt env data n entries i) e := by
  induction entries generalizing n data with
  | nil => simp [fetchEntries]
  | cons entry entries ih =>
    rw [fetchEntries]
    rcases fetchEntry_cases feedname (env.calls n) entry data hopened with
      ⟨hthrows, hpasses⟩ | ⟨data', hdata, hpasses, hknown⟩
    · rw [hthrows]
      refine iff_of_false (by simp) fun h => hpasses ?_
      exact (h 0 entry rfl).congr fun uuid => knownAt_zero
    · rw [hdata]
      dsimp only
      rw [ih]
      constructor
      · intro h i e hget
        cases i with
        | zero =>
          obtain rfl := Option.some.inj hget
          exact hpasses.congr fun uuid => knownAt_zero.symm
        | succ i =>
          rw [← Nat.add_assoc, Nat.add_right_comm]
          exact (h i e hget).congr (knownAt_cons hknown)
      · intro h i e hget
        have hnext := h (i + 1) e hget
        rw [← Nat.add_assoc, Nat.add_right_comm] at hnext
        exact hnext.congr fun uuid => (knownAt_cons hknown uuid).symm

end

/-- **The condition**: the database is open, and each entry with a link and a title is
looked up without an exception, and has a description or is found, because it was in
the database or a complete entry in front of it with this identifier was inserted. -/
structure Harmless (env : FetchEnv) (data : List RssData) (entries : List SyndEntry) : Prop where
  opened : env.opened = true
  passes : ∀ i e, entries[i]? = some e →
    Passes env (env.calls i) (KnownAt env data 0 entries i) e

/-- **When an execution schedules its feed again.** For every answer of the fetch, all
data of the job and of the database, and all failures of calls to the database: the
job is scheduled again if and only if there is no feed, or the feed is not new, or
its entries are harmless. -/
theorem rearmed_iff (env : FetchEnv) (fetched : Option SyndFeed) (job : FeedData) (db : FeedDb) :
    (RssFetchJob.execute env fetched job db).scheduled.isSome = true ↔
      ∀ feed, fetched = some feed →
        isUpdated (env.fmt.read job.lastupdate) feed.publishedDate = true →
        Harmless env db.data feed.entries := by
  unfold RssFetchJob.execute
  cases fetched with
  | none => simp [reschedule]
  | some feed =>
    dsimp only
    cases hupdated : isUpdated (env.fmt.read job.lastupdate) feed.publishedDate with
    | false => simp [reschedule, hupdated]
    | true =>
      simp only [if_true, Option.some.injEq, forall_eq', hupdated, forall_const]
      cases hopened : env.opened with
      | false =>
        -- if no entry throws, the update of the feed's document does
        refine iff_of_false ?_ fun h => by simp [h.opened] at hopened
        split
        · simp
        · simp [updateLastUpdate, hopened]
      | true =>
        have hloop : (fetchEntries env job.feedname 0 feed.entries db.data).2 = true ↔
            Harmless env db.data feed.entries := by
          rw [fetchEntries_completes hopened]
          simp only [Nat.zero_add]
          exact ⟨fun h => ⟨hopened, h⟩, Harmless.passes⟩
        rw [← hloop]
        split
        next heq => simp [heq]
        next heq => simp [heq, updateLastUpdate, hopened, reschedule]

/-- An execution in which all calls to the database go through, at the start of time. -/
def calmEnv : FetchEnv where
  fmt :=
    { format := fun _ => lit "1/1/70 12:00 AM"
      parse := fun text => if text = lit "1/1/70 12:00 AM" then some 0 else none
      parse_nil := by decide }
  getBytes s := s.map (·.toNat.toUInt8)
  -- the identifier for the entry below
  nameUUIDFromBytes _ := lit "d91af695-8918-3f87-96a0-57c1cdf5b225"
  defaultRate := 600000
  opened := true
  calls _ := ⟨true, true, true, 0⟩
  update := true
  started := 0
  compared := 0
  late := 0

/-- **A feed that is dropped.** Its only entry has no description. With one it is
scheduled again. -/
theorem feed_dropped :
    (RssFetchJob.execute calmEnv
        (some ⟨none, [⟨some (lit "l"), some (lit "t"), none, none, none⟩], none⟩)
        ⟨lit "f", lit "u", some [], 0⟩ ⟨[], none⟩).scheduled = none ∧
      (RssFetchJob.execute calmEnv
        (some ⟨none, [⟨some (lit "l"), some (lit "t"), some (some (lit "d")), none, none⟩], none⟩)
        ⟨lit "f", lit "u", some [], 0⟩ ⟨[], none⟩).scheduled =
          some (⟨lit "f", lit "u", some [], 600000⟩, 600000) := by
  decide +kernel

end RssFetcher
