import Amoeba.RssFetcher.StoreOnce
import Mathlib.Logic.Function.Iterate

/-!
# Inserts that fail

The exception of an insert is caught for each entry on its own, and nothing remembers
it: the execution goes on, and at its end the date of the feed becomes the date of the
job. The entry is looked at again only if the next feed is newer than this date.

The job keeps its date as text, and each execution reads it and writes it again
(`reread`). The text has minutes, so a feed that has not changed counts as newer when
its date is not at the start of a minute.

* `kept_iff` — after the second of two fetches an article has a document if and only if
  it had one before, or its insert went through in the first, or the second looks at its
  entries again.
-/

namespace RssFetcher

open Java

/-! ### Sequences of executions -/

/-- The executions of the job of a feed, one after the other: the data of the job, as long
as it is scheduled, and the database. -/
def fetchAll : List (FetchEnv × Option SyndFeed) → FeedData → FeedDb → Option FeedData × FeedDb
  | [], job, db => (some job, db)
  | (env, fetched) :: rest, job, db =>
    match RssFetchJob.execute env fetched job db with
    | ⟨db, none⟩ => (none, db)
    | ⟨db, some (job, _)⟩ => fetchAll rest job db

theorem fetchAll_append {xs ys : List (FetchEnv × Option SyndFeed)} {job job' : FeedData}
    {db db' : FeedDb} (h : fetchAll xs job db = (some job', db')) :
    fetchAll (xs ++ ys) job db = fetchAll ys job' db' := by
  induction xs generalizing job db with
  | nil =>
    obtain ⟨hjob, rfl⟩ := Prod.mk.inj h
    obtain rfl := Option.some.inj hjob
    rfl
  | cons x xs ih =>
    obtain ⟨env, fetched⟩ := x
    rw [List.cons_append, fetchAll]
    rw [fetchAll] at h
    split
    next heq =>
      rw [heq] at h
      exact absurd (Prod.mk.inj h).1 (by simp)
    next heq =>
      rw [heq] at h
      exact ih h

/-- Two executions of one program: they name and write alike. -/
structure FetchEnv.Like (env env' : FetchEnv) : Prop where
  fmt : env'.fmt = env.fmt
  getBytes : env'.getBytes = env.getBytes
  nameUUIDFromBytes : env'.nameUUIDFromBytes = env.nameUUIDFromBytes

theorem FetchEnv.Like.uuidOf {env env' : FetchEnv} (h : env.Like env') :
    RssFetcher.uuidOf env' = RssFetcher.uuidOf env := by
  funext link title
  rw [RssFetcher.uuidOf, RssFetcher.uuidOf, h.getBytes, h.nameUUIDFromBytes]

theorem FetchEnv.Like.stores {env env' : FetchEnv} (h : env.Like env') :
    Stores env' = Stores env := by
  funext entry uuid
  rw [Stores, Stores, h.uuidOf]

/-! ### The date of the job -/

/-- A date that has been written and read. -/
def reread (fmt : DateFormat) (date : Option Date) : Option Date := fmt.read (some (fmt.write date))

/-- Fetches that give no feed. -/
theorem fetchAll_failed {env : FetchEnv} {failed : List (FetchEnv × Option SyndFeed)}
    (hlike : ∀ x ∈ failed, env.Like x.1) (hfailed : ∀ x ∈ failed, x.2 = none) (job : FeedData)
    (db : FeedDb) :
    ∃ job', fetchAll failed job db = (some job', db) ∧
      env.fmt.read job'.lastupdate =
        (reread env.fmt)^[failed.length] (env.fmt.read job.lastupdate) := by
  induction failed generalizing job with
  | nil => exact ⟨job, rfl, rfl⟩
  | cons x failed ih =>
    obtain ⟨env', fetched⟩ := x
    obtain rfl : fetched = none := hfailed _ List.mem_cons_self
    have hfmt : env'.fmt = env.fmt := (hlike _ List.mem_cons_self).fmt
    obtain ⟨job', hrest, hdate⟩ := ih (fun x hx => hlike x (List.mem_cons_of_mem _ hx))
      (fun x hx => hfailed x (List.mem_cons_of_mem _ hx))
      { job with
        lastupdate := some (env'.fmt.write (env'.fmt.read job.lastupdate))
        updateRate := if job.updateRate < 1000 then env'.defaultRate.toInt64 else job.updateRate }
    refine ⟨job', hrest, hdate.trans ?_⟩
    rw [List.length_cons, Function.iterate_succ_apply, hfmt]
    rfl

/-- **The date that the job compares with** is the start of the minute, however often it
has been written. -/
theorem reread_iterate {fmt : DateFormat} {d : Date} (h : fmt.KeepsMinute d)
    (htrunc : fmt.KeepsMinute (truncMinute d)) (n : Nat) :
    (reread fmt)^[n + 1] (some d) = some (truncMinute d) := by
  rw [Function.iterate_succ_apply, reread, DateFormat.read_write_some h]
  -- from the second reading on the seconds are gone already
  induction n with
  | zero => rfl
  | succ n ih =>
    rw [Function.iterate_succ_apply, reread, DateFormat.read_write_some htrunc,
      truncMinute_truncMinute, ih]

theorem reread_iterate_none (fmt : DateFormat) (n : Nat) : (reread fmt)^[n] none = none :=
  Function.iterate_fixed (DateFormat.read_write_none fmt) n

/-- **When the entries are looked at again**: the first feed had no date, or the second is
newer than the minute of the first. -/
theorem looks_again_iff {fmt : DateFormat} {first second : Option Date}
    (hkeeps : ∀ d ∈ first, fmt.KeepsMinute d ∧ fmt.KeepsMinute (truncMinute d)) (n : Nat) :
    isUpdated ((reread fmt)^[n + 1] first) second = true ↔
      ∀ d ∈ first, ∃ d' ∈ second, truncMinute d < d' := by
  cases first with
  | none =>
    rw [reread_iterate_none]
    simp [isUpdated]
  | some d =>
    obtain ⟨hd, htrunc⟩ := hkeeps d rfl
    rw [reread_iterate hd htrunc]
    cases second with
    | none => simp [isUpdated]
    | some d' => simp [isUpdated]

/-! ### What a loop stores -/

section

variable {env : FetchEnv} {feedname : JString} {data : List RssData} {uuid : JString}

/-- **The documents after the loop**, wherever it stops: an entry is stored if its insert
goes through and no entry up to it throws. -/
theorem known_fetchEntries (hopened : env.opened = true) {n : Nat} {entries : List SyndEntry} :
    Known (fetchEntries env feedname n entries data).1 uuid ↔
      Known data uuid ∨ ∃ i e, entries[i]? = some e ∧ Stores env e uuid ∧
        (env.calls (n + i)).insert = true ∧ ∀ j ≤ i, ∀ e', entries[j]? = some e' →
          Passes env (env.calls (n + j)) (KnownAt env data n entries j) e' := by
  induction entries generalizing n data with
  | nil => simp [fetchEntries]
  | cons entry entries ih =>
    rw [fetchEntries]
    rcases fetchEntry_cases feedname (env.calls n) entry data hopened with
      ⟨hthrows, hpasses⟩ | ⟨data', hdata, hpasses, hknown⟩
    -- the loop stops here: nothing of this entry or of a later one is stored
    · rw [hthrows]
      refine ⟨.inl, ?_⟩
      rintro (h | ⟨i, e, -, -, -, hall⟩)
      · exact h
      · refine absurd ?_ hpasses
        exact (hall 0 (Nat.zero_le i) entry rfl).congr fun uuid => knownAt_zero
    · rw [hdata]
      dsimp only
      rw [ih, hknown uuid, or_assoc]
      have hshift : ∀ i, n + 1 + i = n + (i + 1) := fun i => by
        rw [Nat.add_right_comm, Nat.add_assoc]
      -- the entries behind this one, with the numbers they have from its point of view
      have hnext : ∀ j e', Passes env (env.calls (n + 1 + j)) (KnownAt env data' (n + 1) entries j) e' ↔
          Passes env (env.calls (n + (j + 1))) (KnownAt env data n (entry :: entries) (j + 1)) e' := by
        intro j e'
        rw [hshift]
        exact ⟨fun h => h.congr (knownAt_cons hknown), fun h => h.congr fun uuid =>
          (knownAt_cons hknown uuid).symm⟩
      have hhead : Passes env (env.calls (n + 0)) (KnownAt env data n (entry :: entries) 0) entry :=
        hpasses.congr fun uuid => knownAt_zero.symm
      refine or_congr_right ⟨?_, ?_⟩
      · rintro (⟨hstores, hinsert⟩ | ⟨i, e, hget, hstores, hinsert, hall⟩)
        · refine ⟨0, entry, rfl, hstores, hinsert, fun j hj e' hget' => ?_⟩
          obtain rfl := Nat.le_zero.mp hj
          obtain rfl := Option.some.inj hget'
          exact hhead
        · refine ⟨i + 1, e, hget, hstores, by rwa [← hshift], fun j hj e' hget' => ?_⟩
          cases j with
          | zero =>
            obtain rfl := Option.some.inj hget'
            exact hhead
          | succ j => exact (hnext j e').mp (hall j (Nat.le_of_succ_le_succ hj) e' hget')
      · rintro ⟨i, e, hget, hstores, hinsert, hall⟩
        cases i with
        | zero =>
          obtain rfl := Option.some.inj hget
          exact .inl ⟨hstores, hinsert⟩
        | succ i =>
          refine .inr ⟨i, e, hget, hstores, by rwa [hshift], fun j hj e' hget' => ?_⟩
          exact (hnext j e').mpr (hall (j + 1) (Nat.succ_le_succ hj) e' hget')

/-- The identifiers that have a document after a loop that comes to its end. -/
def KnownAfter (env : FetchEnv) (data : List RssData) (entries : List SyndEntry)
    (uuid : JString) : Prop :=
  Known data uuid ∨ ∃ i e, entries[i]? = some e ∧ Stores env e uuid ∧ (env.calls i).insert = true

theorem known_of_completes (hopened : env.opened = true) {entries : List SyndEntry}
    (h : (fetchEntries env feedname 0 entries data).2 = true) :
    Known (fetchEntries env feedname 0 entries data).1 uuid ↔ KnownAfter env data entries uuid := by
  rw [known_fetchEntries hopened, KnownAfter]
  simp only [Nat.zero_add]
  refine or_congr_right ⟨?_, ?_⟩
  · rintro ⟨i, e, hget, hstores, hinsert, -⟩
    exact ⟨i, e, hget, hstores, hinsert⟩
  · rintro ⟨i, e, hget, hstores, hinsert⟩
    refine ⟨i, e, hget, hstores, hinsert, fun j _ e' hget' => ?_⟩
    simpa using (fetchEntries_completes hopened).mp h j e' hget'

/-- A loop in which no call fails comes to an entry with this identifier: each entry
without a description in front of it is found. -/
def Reached (env : FetchEnv) (known : JString → Prop) (entries : List SyndEntry)
    (uuid : JString) : Prop :=
  ∃ i e, entries[i]? = some e ∧ Stores env e uuid ∧
    ∀ j < i, ∀ e' : SyndEntry, entries[j]? = some e' → e'.description = none →
      ∀ link title, e'.Carries link title → known (uuidOf env link title) ∨
        ∃ (k : Nat) (e'' : SyndEntry), k < j ∧ entries[k]? = some e'' ∧
          Stores env e'' (uuidOf env link title)

theorem known_of_calm (hcalm : env.Calm) {entries : List SyndEntry} :
    Known (fetchEntries env feedname 0 entries data).1 uuid ↔
      Known data uuid ∨ Reached env (Known data) entries uuid := by
  have hpasses : ∀ j e', Passes env (env.calls (0 + j)) (KnownAt env data 0 entries j) e' ↔
      (e'.description = none → ∀ link title, e'.Carries link title →
        Known data (uuidOf env link title) ∨
          ∃ (k : Nat) (e'' : SyndEntry), k < j ∧ entries[k]? = some e'' ∧
            Stores env e'' (uuidOf env link title)) := by
    intro j e'
    -- without failures every entry before is stored
    have hknown : ∀ uuid, KnownAt env data 0 entries j uuid ↔ Known data uuid ∨
        ∃ k e'', k < j ∧ entries[k]? = some e'' ∧ Stores env e'' uuid := by
      simp [KnownAt, hcalm.insert]
    constructor
    · intro h hnone link title hcarries
      exact (hknown _).mp (h.described link title hcarries.1 hcarries.2 hnone).2
    · intro h
      refine ⟨fun _ _ _ _ => hcalm.find _, fun link title hlink htitle hnone => ⟨hcalm.hasNext _, ?_⟩⟩
      exact (hknown _).mpr (h hnone link title ⟨hlink, htitle⟩)
  rw [known_fetchEntries hcalm.opened]
  simp only [hpasses]
  refine or_congr_right ⟨?_, ?_⟩
  · rintro ⟨i, e, hget, hstores, -, hall⟩
    exact ⟨i, e, hget, hstores, fun j hj => hall j (Nat.le_of_lt hj)⟩
  · rintro ⟨i, e, hget, hstores, hall⟩
    refine ⟨i, e, hget, hstores, hcalm.insert _, fun j hj e' hget' hnone => ?_⟩
    rcases Nat.lt_or_eq_of_le hj with hlt | rfl
    · exact hall j hlt e' hget' hnone
    · -- an entry that is stored has a description
      obtain rfl := Option.some.inj (hget.symm.trans hget')
      obtain ⟨_, _, description, -, -, hdescription, -⟩ := hstores
      simp [hdescription] at hnone

end

/-- An execution that looks at the entries and is scheduled again. -/
theorem execute_rearmed {env : FetchEnv} {feed : SyndFeed} {job job' : FeedData} {db : FeedDb}
    {time : Int64} (hnew : isUpdated (env.fmt.read job.lastupdate) feed.publishedDate = true)
    (h : (RssFetchJob.execute env (some feed) job db).scheduled = some (job', time)) :
    env.opened = true ∧ (fetchEntries env job.feedname 0 feed.entries db.data).2 = true ∧
      (RssFetchJob.execute env (some feed) job db).db.data =
        (fetchEntries env job.feedname 0 feed.entries db.data).1 ∧
      job'.lastupdate = some (env.fmt.write feed.publishedDate) := by
  unfold RssFetchJob.execute at h ⊢
  dsimp only at h ⊢
  rw [if_pos hnew] at h ⊢
  -- both the loop and the update of the date have come to their end
  cases hloop : fetchEntries env job.feedname 0 feed.entries db.data with
  | mk data done =>
    rw [hloop] at h
    cases done with
    | false => simp at h
    | true =>
      cases hopened : env.opened with
      | false => simp [updateLastUpdate, hopened] at h
      | true =>
        simp only [updateLastUpdate, hopened, Bool.not_true, Bool.false_eq_true, if_false,
          reschedule, Option.some.injEq, Prod.mk.injEq] at h
        obtain ⟨rfl, -⟩ := h
        simp [updateLastUpdate, hopened, reschedule]

/-- An execution without failing calls takes in the entries of a feed that is newer. -/
theorem data_execute {env : FetchEnv} (hcalm : env.Calm) (feed : SyndFeed) (job : FeedData)
    (db : FeedDb) :
    (RssFetchJob.execute env (some feed) job db).db.data =
      if isUpdated (env.fmt.read job.lastupdate) feed.publishedDate = true then
        (fetchEntries env job.feedname 0 feed.entries db.data).1
      else db.data := by
  unfold RssFetchJob.execute
  dsimp only
  split
  · cases hdone : fetchEntries env job.feedname 0 feed.entries db.data with
    | mk data done => cases done <;> simp [updateLastUpdate, hcalm.opened, reschedule]
  · rfl

/-- **When an article survives a failed insert.** In every sequence of executions of a
feed's job, with every pattern of failed calls: between two fetches with a feed there
are any number of fetches without one, the first of the two looks at its entries, and
in the second no call of the database fails. Then an article has a document after the
second if and only if it had one before the first, or one of its inserts in the first
went through, or the second looks at its entries, because its feed is newer than the
date of the first as it has been written and read, and comes to one of the article. -/
theorem kept_iff {pre failed : List (FetchEnv × Option SyndFeed)} {env₁ env₂ : FetchEnv}
    {feed₁ feed₂ : SyndFeed} {job₀ job₁ : FeedData} {db₀ db₁ : FeedDb} {uuid : JString}
    (hlike : ∀ x ∈ failed ++ [(env₂, some feed₂)], env₁.Like x.1)
    (hpre : fetchAll pre job₀ db₀ = (some job₁, db₁))
    (hran : isUpdated (env₁.fmt.read job₁.lastupdate) feed₁.publishedDate = true)
    (hfailed : ∀ x ∈ failed, x.2 = none)
    (hsecond : (fetchAll (pre ++ (env₁, some feed₁) :: failed) job₀ db₀).1 ≠ none)
    (hcalm : env₂.Calm) :
    Known (fetchAll (pre ++ (env₁, some feed₁) :: (failed ++ [(env₂, some feed₂)])) job₀ db₀).2.data
        uuid ↔
      KnownAfter env₁ db₁.data feed₁.entries uuid ∨
        isUpdated ((reread env₁.fmt)^[failed.length + 1] feed₁.publishedDate) feed₂.publishedDate =
            true ∧
          Reached env₁ (KnownAfter env₁ db₁.data feed₁.entries) feed₂.entries uuid := by
  rw [fetchAll_append hpre, fetchAll] at hsecond ⊢
  cases hfirst : RssFetchJob.execute env₁ (some feed₁) job₁ db₁ with
  | mk db scheduled =>
    rw [hfirst] at hsecond
    cases scheduled with
    | none => exact absurd rfl hsecond
    | some next =>
      obtain ⟨job, time⟩ := next
      dsimp only
      obtain ⟨hopened, hdone, hdata, hdate⟩ :=
        execute_rearmed hran (congrArg FetchResult.scheduled hfirst)
      rw [hfirst] at hdata
      have hafter : ∀ uuid, Known db.data uuid ↔ KnownAfter env₁ db₁.data feed₁.entries uuid :=
        fun uuid => by
          rw [show db.data = _ from hdata]
          exact known_of_completes hopened hdone
      -- the fetches in between
      obtain ⟨job₂, hbetween, hlast⟩ :=
        fetchAll_failed (fun x hx => hlike x (List.mem_append_left _ hx)) hfailed job db
      have hlike₂ : env₁.Like env₂ := hlike (env₂, some feed₂) (by simp)
      have hlast₂ : env₂.fmt.read job₂.lastupdate =
          (reread env₁.fmt)^[failed.length + 1] feed₁.publishedDate := by
        rw [hlike₂.fmt, hlast, hdate, Function.iterate_succ_apply]
        rfl
      have hreached : Reached env₂ (Known db.data) feed₂.entries uuid ↔
          Reached env₁ (KnownAfter env₁ db₁.data feed₁.entries) feed₂.entries uuid := by
        simp only [Reached, hlike₂.uuidOf, hlike₂.stores, hafter]
      rw [fetchAll_append hbetween, ← hafter, ← hreached, ← hlast₂]
      -- the second fetch
      have hlastData : (fetchAll [(env₂, some feed₂)] job₂ db).2 =
          (RssFetchJob.execute env₂ (some feed₂) job₂ db).db := by
        rw [fetchAll]
        split
        next heq => rw [heq]
        next heq => rw [heq]; rfl
      rw [hlastData, data_execute hcalm]
      cases hnew : isUpdated (env₂.fmt.read job₂.lastupdate) feed₂.publishedDate with
      | false => simp
      | true =>
        rw [if_pos rfl, known_of_calm hcalm]
        simp

/-- An execution in which no insert goes through. -/
def insertsFail : FetchEnv := { calmEnv with calls := fun _ => ⟨true, true, false, 0⟩ }

/-- A feed with one entry. -/
def oneEntry (publishedDate : Date) : SyndFeed := ⟨some publishedDate, [someEntry "l" "t"], none⟩

theorem calmEnv_calm : calmEnv.Calm := ⟨rfl, fun _ => rfl, fun _ => rfl, fun _ => rfl, rfl⟩

theorem insertsFail_like : insertsFail.Like calmEnv := ⟨rfl, rfl, rfl⟩

/-- Half a minute past the minute: the feed counts as newer, and the entry is stored. -/
theorem kept_half_past :
    Known (fetchAll ([] ++ (insertsFail, some (oneEntry 30000)) ::
        ([(calmEnv, none)] ++ [(calmEnv, some (oneEntry 30000))]))
      ⟨lit "f", lit "u", some [], 0⟩ ⟨[], none⟩).2.data
      (lit "d91af695-8918-3f87-96a0-57c1cdf5b225") := by
  refine (kept_iff ?_ rfl rfl (by simp) (by decide +kernel) calmEnv_calm).mpr (.inr ⟨?_, ?_⟩)
  · intro x hx
    obtain h | h : x = (calmEnv, none) ∨ x = (calmEnv, some (oneEntry 30000)) := by simpa using hx
    · rw [h]
      exact insertsFail_like
    · rw [h]
      exact insertsFail_like
  · decide +kernel
  · refine ⟨0, someEntry "l" "t", rfl, ?_, fun j hj => absurd hj (Nat.not_lt_zero j)⟩
    exact ⟨lit "l", lit "t", some (lit "d"), rfl, rfl, rfl, rfl⟩

/-- **An article that is lost.** The only insert of the first execution fails, and the
feed has the date of a full minute: the second execution, in which no call fails, does
not look at the entry. -/
theorem article_not_retried :
    isUpdated (insertsFail.fmt.read (some [])) (oneEntry 0).publishedDate = true ∧
      (fetchAll [(insertsFail, some (oneEntry 0))] ⟨lit "f", lit "u", some [], 0⟩
        ⟨[], none⟩).1 ≠ none ∧
      calmEnv.Calm ∧ (∀ e ∈ (oneEntry 0).entries, e.Complete) ∧
      (fetchAll [(insertsFail, some (oneEntry 0)), (calmEnv, some (oneEntry 0))]
        ⟨lit "f", lit "u", some [], 0⟩ ⟨[], none⟩).2.data = [] := by
  refine ⟨rfl, by decide +kernel, calmEnv_calm, ?_, by decide +kernel⟩
  intro e he
  obtain rfl : e = someEntry "l" "t" := by simpa [oneEntry] using he
  exact someEntry_complete _ _

end RssFetcher
