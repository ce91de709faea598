import Amoeba.RssFetcher.Fetch
import Amoeba.DocStore.AppendNew

/-!
# Articles that are stored once

An article is its link and its title, and its document is found by a hash of the two
texts written one behind the other. Where one of them ends cannot be seen from this:
two articles with one text have one identifier, and the second of them is taken for
the first.

Without failures the loop over the entries appends the documents whose identifiers are
new (`fetchEntries_eq_appendAll`), so what it leaves is given by the first document
under each identifier.

* `stores_once_iff` — each article of a feed has exactly one document afterwards if and
  only if exactly one stored document carries it where its identifier is taken by a
  stored document or by another article in front of it, and none carries it where not.
-/

namespace RssFetcher

open Java DocStore

/-! ### Executions without failures -/

/-- No call of the database fails. -/
structure FetchEnv.Calm (env : FetchEnv) : Prop where
  opened : env.opened = true
  find : ∀ n, (env.calls n).find = true
  hasNext : ∀ n, (env.calls n).hasNext = true
  insert : ∀ n, (env.calls n).insert = true
  update : env.update = true

/-- The entry has a link, a title and a description. -/
structure SyndEntry.Complete (entry : SyndEntry) : Prop where
  link : entry.link ≠ none
  title : entry.title ≠ none
  description : entry.description ≠ none

/-- The entry is one of this article. -/
def SyndEntry.Carries (entry : SyndEntry) (link title : JString) : Prop :=
  entry.link = some link ∧ entry.title = some title

/-- The document is one of this article. -/
def RssData.Carries (doc : RssData) (link title : JString) : Prop :=
  doc.link = link ∧ doc.title = title

instance (entry : SyndEntry) (link title : JString) : Decidable (entry.Carries link title) :=
  inferInstanceAs (Decidable (_ ∧ _))

instance (doc : RssData) (link title : JString) : Decidable (doc.Carries link title) :=
  inferInstanceAs (Decidable (_ ∧ _))

theorem SyndEntry.Complete.exists_carries {entry : SyndEntry} (h : entry.Complete) :
    ∃ link title, entry.Carries link title := by
  obtain ⟨link, hlink⟩ := Option.ne_none_iff_exists'.mp h.link
  obtain ⟨title, htitle⟩ := Option.ne_none_iff_exists'.mp h.title
  exact ⟨link, title, hlink, htitle⟩

/-- The document of an entry, if that has one. -/
def entryDoc (env : FetchEnv) (feedname : JString) (now : Date) (entry : SyndEntry) :
    Option RssData :=
  match entry.link, entry.title with
  | some link, some title => EntryDBObject.getInstance entry (uuidOf env link title) feedname now
  | _, _ => none

/-- The documents of the entries from the one with number `n` on. -/
def entryDocs (env : FetchEnv) (feedname : JString) : Nat → List SyndEntry → List RssData
  | _, [] => []
  | n, entry :: entries =>
    (entryDoc env feedname (env.calls n).now entry).toList ++ entryDocs env feedname (n + 1) entries

section

variable {env : FetchEnv} {feedname : JString} {entry : SyndEntry} {data : List RssData}
  {link title : JString}

theorem entryDoc_of_carries {now : Date} (h : entry.Carries link title) :
    entryDoc env feedname now entry =
      EntryDBObject.getInstance entry (uuidOf env link title) feedname now := by
  unfold entryDoc
  rw [h.1, h.2]

/-- **The document of a complete entry** carries its article. -/
theorem entryDoc_eq_some (env : FetchEnv) (feedname : JString) (now : Date)
    (h : entry.Carries link title)
    (hdescription : entry.description ≠ none) :
    ∃ doc, entryDoc env feedname now entry = some doc ∧ doc.uuid = uuidOf env link title ∧
      doc.Carries link title := by
  obtain ⟨description, hd⟩ := Option.ne_none_iff_exists'.mp hdescription
  rw [entryDoc_of_carries h, EntryDBObject.getInstance, hd, h.1, h.2]
  exact ⟨_, rfl, rfl, rfl, rfl⟩

/-- An entry in an execution without failures. -/
theorem fetchEntry_calm {calls : Calls} (hopened : env.opened = true) (hfind : calls.find = true)
    (hnext : calls.hasNext = true) (hinsert : calls.insert = true)
    (hdescription : entry.description ≠ none) :
    fetchEntry env feedname calls entry data =
      some (appendAll RssData.uuid data (entryDoc env feedname calls.now entry).toList) := by
  cases hlink : entry.link with
  | none => simp [fetchEntry, entryDoc, hlink]
  | some link =>
    cases htitle : entry.title with
    | none => simp [fetchEntry, entryDoc, htitle]
    | some title =>
      obtain ⟨doc, hdoc, huuid, -⟩ := entryDoc_eq_some env feedname calls.now
        ⟨hlink, htitle⟩ hdescription
      have hexist : isUuidExist env calls data (uuidOf env link title) =
          some (data.any (·.uuid = uuidOf env link title)) := by
        simp [isUuidExist, hopened, hfind, hnext]
      rw [fetchEntry_found hlink htitle hexist, ← entryDoc_of_carries ⟨hlink, htitle⟩, hdoc, ← huuid]
      simp only [insert, hinsert, Option.map_some, Option.toList_some, appendAll_cons,
        appendAll_nil, appendNew, if_true]
      split <;> rfl

/-- **The loop without failures.** -/
theorem fetchEntries_eq_appendAll (hcalm : env.Calm) {n : Nat} {entries : List SyndEntry}
    (hdescription : ∀ e ∈ entries, e.description ≠ none) :
    fetchEntries env feedname n entries data =
      (appendAll RssData.uuid data (entryDocs env feedname n entries), true) := by
  induction entries generalizing n data with
  | nil => rfl
  | cons entry entries ih =>
    rw [fetchEntries, fetchEntry_calm hcalm.opened (hcalm.find n) (hcalm.hasNext n)
      (hcalm.insert n) (hdescription entry List.mem_cons_self)]
    dsimp only
    rw [ih fun e he => hdescription e (List.mem_cons_of_mem entry he)]
    simp only [appendAll, entryDocs, List.foldl_append]

theorem mem_entryDocs {n : Nat} {entries : List SyndEntry} {doc : RssData} :
    doc ∈ entryDocs env feedname n entries ↔
      ∃ i e, entries[i]? = some e ∧ entryDoc env feedname (env.calls (n + i)).now e = some doc := by
  induction entries generalizing n with
  | nil => simp [entryDocs]
  | cons entry entries ih =>
    rw [entryDocs, List.mem_append, Option.mem_toList, ih]
    constructor
    · rintro (hfirst | ⟨i, e, hget, hdoc⟩)
      · exact ⟨0, entry, rfl, hfirst⟩
      · refine ⟨i + 1, e, hget, ?_⟩
        rwa [Nat.add_right_comm, Nat.add_assoc] at hdoc
    · rintro ⟨i, e, hget, hdoc⟩
      cases i with
      | zero =>
        obtain rfl := Option.some.inj hget
        exact .inl hdoc
      | succ i =>
        refine .inr ⟨i, e, hget, ?_⟩
        rwa [Nat.add_right_comm, Nat.add_assoc]

/-- The first document under an identifier is that of the first entry with it. -/
theorem find?_entryDocs {n : Nat} {entries : List SyndEntry}
    (hdescription : ∀ e ∈ entries, e.description ≠ none) {uuid : JString} {doc : RssData}
    (h : (entryDocs env feedname n entries).find? (·.uuid = uuid) = some doc) :
    ∃ i e, entries[i]? = some e ∧ entryDoc env feedname (env.calls (n + i)).now e = some doc ∧
      ∀ j < i, ∀ e', entries[j]? = some e' → ∀ link title, e'.Carries link title →
        uuidOf env link title ≠ uuid := by
  induction entries generalizing n with
  | nil => simp [entryDocs] at h
  | cons entry entries ih =>
    rw [entryDocs, List.find?_append, Option.or_eq_some_iff] at h
    rcases h with hfirst | ⟨hnone, hrest⟩
    · have hmem := List.mem_of_find?_eq_some hfirst
      exact ⟨0, entry, rfl, by simpa using hmem, fun j hj => absurd hj (Nat.not_lt_zero j)⟩
    · obtain ⟨i, e, hget, hdoc, hbefore⟩ :=
        ih (fun e he => hdescription e (List.mem_cons_of_mem entry he)) hrest
      rw [Nat.add_right_comm, Nat.add_assoc] at hdoc
      refine ⟨i + 1, e, hget, hdoc, fun j hj e' hget' link title hcarries huuid => ?_⟩
      cases j with
      | zero =>
        obtain rfl := Option.some.inj hget'
        obtain ⟨d, hd, hduuid, -⟩ := entryDoc_eq_some env feedname (env.calls n).now
          hcarries (hdescription entry List.mem_cons_self)
        rw [hd] at hnone
        simp [hduuid, huuid] at hnone
      | succ j => exact hbefore j (Nat.lt_of_succ_lt_succ hj) e' hget' link title hcarries huuid

end

/-- The documents after an execution without failures. -/
theorem execute_calm {env : FetchEnv} (hcalm : env.Calm) {feed : SyndFeed} {job : FeedData}
    {db : FeedDb} (hdescription : ∀ e ∈ feed.entries, e.description ≠ none) :
    (RssFetchJob.execute env (some feed) job db).db.data =
      if isUpdated (env.fmt.read job.lastupdate) feed.publishedDate then
        appendAll RssData.uuid db.data (entryDocs env job.feedname 0 feed.entries)
      else db.data := by
  unfold RssFetchJob.execute
  dsimp only
  split
  · rw [fetchEntries_eq_appendAll hcalm hdescription]
    simp [updateLastUpdate, hcalm.opened, reschedule]
  · rfl

/-! ### Articles and their documents -/

/-- The document is made from the first entry of the article. -/
def FirstDoc (env : FetchEnv) (feedname : JString) (entries : List SyndEntry)
    (link title : JString) (doc : RssData) : Prop :=
  ∃ i e, entries[i]? = some e ∧ e.Carries link title ∧
    (∀ j < i, ∀ e', entries[j]? = some e' → ¬ e'.Carries link title) ∧
    EntryDBObject.getInstance e (uuidOf env link title) feedname (env.calls i).now = some doc

/-- **What an execution is for**: each article of the feed has exactly one document, an
old one or else that of its first entry, all others stay, and a second execution adds
nothing. -/
structure StoresOnce (env : FetchEnv) (feed : SyndFeed) (job : FeedData) (db : FeedDb) : Prop where
  kept : db.data <+: (RssFetchJob.execute env (some feed) job db).db.data
  nodup : ((RssFetchJob.execute env (some feed) job db).db.data.map (·.uuid)).Nodup
  once : ∀ e ∈ feed.entries, ∀ link title, e.Carries link title →
    ∃ doc, (RssFetchJob.execute env (some feed) job db).db.data.filter (·.Carries link title) =
        [doc] ∧
      (doc ∈ db.data ∨ (∀ d ∈ db.data, ¬ d.Carries link title) ∧
        FirstDoc env job.feedname feed.entries link title doc)
  again : ∀ env' job', env'.Calm → env'.getBytes = env.getBytes →
    env'.nameUUIDFromBytes = env.nameUUIDFromBytes →
    (RssFetchJob.execute env' (some feed) job'
      (RssFetchJob.execute env (some feed) job db).db).db.data =
        (RssFetchJob.execute env (some feed) job db).db.data

/-- The identifier of an article is taken: by a stored document, or by an entry of
another article, with the same text, in front of all entries of this one. -/
def Taken (env : FetchEnv) (data : List RssData) (entries : List SyndEntry)
    (link title : JString) : Prop :=
  Known data (uuidOf env link title) ∨
    ∃ (i : Nat) (e : SyndEntry) (link' title' : JString), entries[i]? = some e ∧
      e.Carries link' title' ∧
      (link', title') ≠ (link, title) ∧
      env.getBytes (link' ++ title') = env.getBytes (link ++ title) ∧
      ∀ j < i, ∀ e' : SyndEntry, entries[j]? = some e' → ¬ e'.Carries link title

/-- **The condition**: an article whose identifier is taken has exactly one stored
document, and the others have none. -/
def StoredWhereTaken (env : FetchEnv) (data : List RssData) (entries : List SyndEntry) : Prop :=
  ∀ e ∈ entries, ∀ link title, e.Carries link title →
    (Taken env data entries link title → (data.filter (·.Carries link title)).length = 1) ∧
    (¬ Taken env data entries link title → ∀ d ∈ data, ¬ d.Carries link title)

section

variable {env : FetchEnv} {feedname : JString} {entries : List SyndEntry} {data : List RssData}
  {link title : JString}

theorem SyndEntry.Carries.eq {e : SyndEntry} {link' title' : JString} (h : e.Carries link title)
    (h' : e.Carries link' title') : (link', title') = (link, title) :=
  Prod.ext (Option.some.inj (h'.1.symm.trans h.1)) (Option.some.inj (h'.2.symm.trans h.2))

theorem description_ne_none {entries : List SyndEntry} (h : ∀ e ∈ entries, e.Complete) :
    ∀ e ∈ entries, e.description ≠ none :=
  fun e he => (h e he).description

/-- **The first document under the identifier of an article** belongs to another article
if the identifier is taken by one. -/
theorem first_doc (feedname : JString) (data : List RssData)
    (hinj : Function.Injective env.nameUUIDFromBytes)
    (hcomplete : ∀ e ∈ entries, e.Complete) {e : SyndEntry} (he : e ∈ entries)
    (hcarries : e.Carries link title) :
    ∃ x, (entryDocs env feedname 0 entries).find? (·.uuid = uuidOf env link title) = some x ∧
      (Taken env data entries link title ↔
        Known data (uuidOf env link title) ∨ ¬ x.Carries link title) ∧
      (x.Carries link title → FirstDoc env feedname entries link title x) := by
  -- there is such a document, as the article itself makes one
  obtain ⟨x, hx⟩ : ∃ x, (entryDocs env feedname 0 entries).find?
      (·.uuid = uuidOf env link title) = some x := by
    obtain ⟨i, hi⟩ := List.mem_iff_getElem?.mp he
    obtain ⟨doc, hdoc, huuid, -⟩ := entryDoc_eq_some env feedname
      (env.calls (0 + i)).now hcarries (hcomplete e he).description
    refine Option.isSome_iff_exists.mp (List.find?_isSome.mpr ⟨doc, ?_, by simpa using huuid⟩)
    exact mem_entryDocs.mpr ⟨i, e, hi, hdoc⟩
  obtain ⟨i, f, hget, hdoc, hbefore⟩ := find?_entryDocs (description_ne_none hcomplete) hx
  have hf := hcomplete f (List.mem_of_getElem? hget)
  obtain ⟨link', title', hf'⟩ := hf.exists_carries
  obtain ⟨x', hx', huuid, hxcarries⟩ := entryDoc_eq_some env feedname
    (env.calls (0 + i)).now hf' hf.description
  obtain rfl := Option.some.inj (hdoc.symm.trans hx')
  -- two texts with one identifier are one text of bytes
  have hsame : uuidOf env link' title' = uuidOf env link title := by
    rw [← huuid]
    simpa using List.find?_some hx
  -- no entry in front of the first one is of the article
  have hfront : ∀ j < i, ∀ e', entries[j]? = some e' → ¬ e'.Carries link title :=
    fun j hj e' hget' hcarries' => hbefore j hj e' hget' link title hcarries' rfl
  refine ⟨x, hx, or_congr_right ⟨?_, ?_⟩, ?_⟩
  · rintro ⟨i', e', link₂, title₂, hget', hcarries', hne, hbytes, hfront'⟩ hxc
    have hpair : (link', title') = (link, title) :=
      Prod.ext (hxcarries.1.symm.trans hxc.1) (hxcarries.2.symm.trans hxc.2)
    obtain ⟨rfl, rfl⟩ := Prod.mk.inj hpair
    -- two entries that are each first of their kind
    rcases Nat.lt_trichotomy i i' with hlt | rfl | hgt
    · exact hfront' i hlt f hget hf'
    · obtain rfl := Option.some.inj (hget.symm.trans hget')
      exact hne (hf'.eq hcarries')
    · exact hbefore i' hgt e' hget' link₂ title₂ hcarries' (congrArg env.nameUUIDFromBytes hbytes)
  · intro hxc
    refine ⟨i, f, link', title', hget, hf', fun hpair => hxc ?_, hinj hsame, hfront⟩
    obtain ⟨rfl, rfl⟩ := Prod.mk.inj hpair
    exact hxcarries
  · intro hxc
    have hlink : link' = link := hxcarries.1.symm.trans hxc.1
    have htitle : title' = title := hxcarries.2.symm.trans hxc.2
    subst hlink htitle
    refine ⟨i, f, hget, hf', hfront, ?_⟩
    rw [← entryDoc_of_carries hf', ← Nat.zero_add i]
    exact hdoc

/-- **The documents of an article**: if its identifier is taken they stay as they are, and
else the document of its first entry comes to them. -/
theorem filter_carries (feedname : JString) (data : List RssData)
    (hinj : Function.Injective env.nameUUIDFromBytes)
    (hcomplete : ∀ e ∈ entries, e.Complete) {e : SyndEntry} (he : e ∈ entries)
    (hcarries : e.Carries link title) :
    (Taken env data entries link title ∧
      (appendAll RssData.uuid data (entryDocs env feedname 0 entries)).filter
        (·.Carries link title) = data.filter (·.Carries link title)) ∨
    (¬ Taken env data entries link title ∧
      ∃ x, FirstDoc env feedname entries link title x ∧
        (appendAll RssData.uuid data (entryDocs env feedname 0 entries)).filter
          (·.Carries link title) = data.filter (·.Carries link title) ++ [x]) := by
  obtain ⟨x, hx, htaken, hfirst⟩ := first_doc feedname data hinj hcomplete
    he hcarries
  -- a document of the article has its identifier
  have hkey : ∀ d ∈ entryDocs env feedname 0 entries, decide (d.Carries link title) = true →
      d.uuid = uuidOf env link title := by
    intro d hd hdc
    obtain ⟨i, f, hget, hdoc⟩ := mem_entryDocs.mp hd
    have hf := hcomplete f (List.mem_of_getElem? hget)
    obtain ⟨link', title', hf'⟩ := hf.exists_carries
    obtain ⟨d', hd', huuid, hdcarries⟩ := entryDoc_eq_some env feedname
      (env.calls (0 + i)).now hf' hf.description
    obtain rfl := Option.some.inj (hdoc.symm.trans hd')
    obtain ⟨hlink, htitle⟩ := of_decide_eq_true hdc
    rw [huuid, ← hdcarries.1, ← hdcarries.2, hlink, htitle]
  have hknown : data.any (·.uuid = uuidOf env link title) = true ↔
      Known data (uuidOf env link title) := by
    simp [Known]
  -- so only the first document under it counts
  rw [filter_appendAll hkey, hx]
  by_cases hk : Known data (uuidOf env link title)
  · rw [if_pos (hknown.mpr hk), List.append_nil]
    exact .inl ⟨htaken.mpr (.inl hk), rfl⟩
  · rw [if_neg (mt hknown.mp hk)]
    by_cases hxc : x.Carries link title
    · refine .inr ⟨fun h => (htaken.mp h).elim hk (fun h => h hxc), x, hfirst hxc, ?_⟩
      simp [hxc]
    · refine .inl ⟨htaken.mpr (.inr hxc), ?_⟩
      simp [hxc]

end

/-- The documents of a second execution have the identifiers of the first. -/
theorem exists_mem_of_entryDocs {env env' : FetchEnv} {entries : List SyndEntry}
    (hcomplete : ∀ e ∈ entries, e.Complete) (hbytes : env'.getBytes = env.getBytes)
    (hname : env'.nameUUIDFromBytes = env.nameUUIDFromBytes) (feedname feedname' : JString)
    (docs : List RssData) {d : RssData} (hd : d ∈ entryDocs env' feedname' 0 entries) :
    ∃ x ∈ appendAll RssData.uuid docs (entryDocs env feedname 0 entries), x.uuid = d.uuid := by
  obtain ⟨i, f, hget, hdoc⟩ := mem_entryDocs.mp hd
  have hf := hcomplete f (List.mem_of_getElem? hget)
  obtain ⟨link, title, hcarries⟩ := hf.exists_carries
  obtain ⟨d', hd', huuid', -⟩ := entryDoc_eq_some env' feedname' (env'.calls (0 + i)).now
    hcarries hf.description
  obtain rfl := Option.some.inj (hdoc.symm.trans hd')
  obtain ⟨d₁, hd₁, huuid₁, -⟩ := entryDoc_eq_some env feedname (env.calls (0 + i)).now
    hcarries hf.description
  have hmem : d₁ ∈ docs ++ entryDocs env feedname 0 entries :=
    List.mem_append_right _ (mem_entryDocs.mpr ⟨i, f, hget, hd₁⟩)
  obtain ⟨x, hx, hxuuid⟩ := exists_mem_appendAll RssData.uuid hmem
  refine ⟨x, hx, ?_⟩
  rw [hxuuid, huuid₁, huuid', uuidOf, uuidOf, hbytes, hname]

/-- **When a fetch stores each article exactly once.** For every data collection without
double identifiers, every feed that is new and whose entries all have a link, a title
and a description, in any order and with repetitions, and every execution without
failures: each article of the feed has exactly one document afterwards if and only if
exactly one stored document carries it where its identifier is taken, and none where
it is not. That nothing is changed or removed, and that a second execution adds
nothing, holds in any case. -/
theorem stores_once_iff {env : FetchEnv} {feed : SyndFeed} {job : FeedData} {db : FeedDb}
    (hinj : Function.Injective env.nameUUIDFromBytes) (hcalm : env.Calm)
    (hnodup : (db.data.map (·.uuid)).Nodup)
    (hnew : isUpdated (env.fmt.read job.lastupdate) feed.publishedDate = true)
    (hcomplete : ∀ e ∈ feed.entries, e.Complete) :
    StoresOnce env feed job db ↔ StoredWhereTaken env db.data feed.entries := by
  have hafter : (RssFetchJob.execute env (some feed) job db).db.data =
      appendAll RssData.uuid db.data (entryDocs env job.feedname 0 feed.entries) := by
    rw [execute_calm hcalm (description_ne_none hcomplete), if_pos hnew]
  constructor
  · intro h e he link title hcarries
    obtain ⟨doc, hone, -⟩ := h.once e he link title hcarries
    rw [hafter] at hone
    rcases filter_carries job.feedname db.data hinj hcomplete he hcarries
      with ⟨htaken, hsame⟩ | ⟨hfree, x, -, hadded⟩
    · refine ⟨fun _ => ?_, fun hfree => absurd htaken hfree⟩
      rw [← hsame, hone, List.length_singleton]
    · refine ⟨fun htaken => absurd htaken hfree, fun _ d hd hdc => ?_⟩
      rw [hadded] at hone
      -- what is added is the one document, so there was none
      have hnil : db.data.filter (·.Carries link title) = [] :=
        (List.append_eq_singleton_iff.mp hone).elim (fun h => h.1) (fun h => by simp at h)
      exact absurd hdc (by simpa using List.filter_eq_nil_iff.mp hnil d hd)
  · intro h
    refine ⟨?_, ?_, fun e he link title hcarries => ?_, fun env' job' hcalm' hbytes hname => ?_⟩
    · rw [hafter]
      exact prefix_appendAll
    · rw [hafter]
      exact nodup_appendAll hnodup
    · obtain ⟨htakenOne, hfreeNone⟩ := h e he link title hcarries
      rw [hafter]
      rcases filter_carries job.feedname db.data hinj hcomplete he hcarries
        with ⟨htaken, hsame⟩ | ⟨hfree, x, hfirst, hadded⟩
      · obtain ⟨doc, hdoc⟩ := List.length_eq_one_iff.mp (htakenOne htaken)
        have hmem : doc ∈ db.data.filter (·.Carries link title) := by simp [hdoc]
        exact ⟨doc, hsame.trans hdoc, .inl (List.mem_filter.mp hmem).1⟩
      · have hnone := hfreeNone hfree
        have hnil : db.data.filter (·.Carries link title) = [] :=
          List.filter_eq_nil_iff.mpr (by simpa using hnone)
        exact ⟨x, by rw [hadded, hnil, List.nil_append], .inr ⟨hnone, hfirst⟩⟩
    · rw [execute_calm hcalm' (description_ne_none hcomplete)]
      split
      · -- the documents of the second execution have the identifiers of the first
        rw [hafter]
        exact appendAll_of_known fun d hd =>
          exists_mem_of_entryDocs hcomplete hbytes hname _ _ _ hd
      · rfl

/-- An execution without failures, where no two texts have one identifier. -/
def namedEnv : FetchEnv :=
  { calmEnv with
    nameUUIDFromBytes := fun bytes =>
      if bytes = calmEnv.getBytes (lit "http://a/12 b") then
        lit "46bc5009-ad34-3a44-91ec-c875e1b3a313"
      else 0x78 :: bytes.map (·.toUInt16) }

theorem namedEnv_injective : Function.Injective namedEnv.nameUUIDFromBytes := by
  have hmap : Function.Injective (List.map UInt8.toUInt16) :=
    List.map_injective_iff.mpr fun a b h => UInt8.toUInt16_inj.mp h
  intro a b h
  simp only [namedEnv] at h
  -- no hexadecimal number starts like the other identifiers
  have hhead : ∀ bytes : List UInt16,
      lit "46bc5009-ad34-3a44-91ec-c875e1b3a313" ≠ 0x78 :: bytes := by
    intro bytes hcons
    have hdigit : (lit "46bc5009-ad34-3a44-91ec-c875e1b3a313").head? = some 0x34 := rfl
    rw [hcons, List.head?_cons] at hdigit
    exact absurd (Option.some.inj hdigit) (by decide)
  split at h <;> split at h
  · simp_all
  · exact absurd h (hhead _)
  · exact absurd h.symm (hhead _)
  · exact hmap (List.cons.inj h).2

theorem namedEnv_calm : namedEnv.Calm :=
  ⟨rfl, fun _ => rfl, fun _ => rfl, fun _ => rfl, rfl⟩

/-- An entry with a description. -/
def someEntry (link title : String) : SyndEntry :=
  ⟨some (lit link), some (lit title), some (some (lit "d")), none, none⟩

theorem someEntry_complete (link title : String) : (someEntry link title).Complete :=
  ⟨by simp [someEntry], by simp [someEntry], by simp [someEntry]⟩

/-- A feed with one article twice. -/
theorem stores_once_repeated :
    StoresOnce namedEnv ⟨none, [someEntry "http://a/1" "2 b", someEntry "http://a/1" "2 b"], none⟩
      ⟨lit "f", lit "u", some [], 0⟩ ⟨[], none⟩ := by
  refine (stores_once_iff namedEnv_injective namedEnv_calm (by simp) rfl ?_).mpr ?_
  · intro e he
    obtain rfl : e = someEntry "http://a/1" "2 b" := by simpa using he
    exact someEntry_complete _ _
  · have hentry : ∀ e ∈ [someEntry "http://a/1" "2 b", someEntry "http://a/1" "2 b"],
        e = someEntry "http://a/1" "2 b" := by simp
    intro e he link title hcarries
    obtain rfl := hentry e he
    refine ⟨?_, fun _ d hd => absurd hd List.not_mem_nil⟩
    rintro (⟨d, hd, -⟩ | ⟨i, e', link', title', hget, hcarries', hne, -⟩)
    · exact absurd hd List.not_mem_nil
    · obtain rfl := hentry e' (List.mem_of_getElem? hget)
      exact absurd (hcarries.eq hcarries') hne

/-- **Two articles with one text.** Only the first is stored. -/
theorem article_lost :
    Function.Injective namedEnv.nameUUIDFromBytes ∧ namedEnv.Calm ∧
      (∀ e ∈ [someEntry "http://a/1" "2 b", someEntry "http://a/12" " b"], e.Complete) ∧
      isUpdated (namedEnv.fmt.read (some [])) none = true ∧
      (RssFetchJob.execute namedEnv
        (some ⟨none, [someEntry "http://a/1" "2 b", someEntry "http://a/12" " b"], none⟩)
        ⟨lit "f", lit "u", some [], 0⟩ ⟨[], none⟩).db.data =
          [⟨lit "46bc5009-ad34-3a44-91ec-c875e1b3a313", lit "f", 0, lit "http://a/1", lit "2 b",
            some (lit "d"), none, none⟩] ∧
      ¬ StoresOnce namedEnv
        ⟨none, [someEntry "http://a/1" "2 b", someEntry "http://a/12" " b"], none⟩
        ⟨lit "f", lit "u", some [], 0⟩ ⟨[], none⟩ := by
  have hdata : (RssFetchJob.execute namedEnv
      (some ⟨none, [someEntry "http://a/1" "2 b", someEntry "http://a/12" " b"], none⟩)
      ⟨lit "f", lit "u", some [], 0⟩ ⟨[], none⟩).db.data =
        [⟨lit "46bc5009-ad34-3a44-91ec-c875e1b3a313", lit "f", 0, lit "http://a/1", lit "2 b",
          some (lit "d"), none, none⟩] := by
    decide +kernel
  refine ⟨namedEnv_injective, namedEnv_calm, ?_, rfl, hdata, fun h => ?_⟩
  · intro e he
    rcases List.mem_pair.mp he with rfl | rfl
    · exact someEntry_complete _ _
    · exact someEntry_complete _ _
  · obtain ⟨doc, hdoc, -⟩ := h.once (someEntry "http://a/12" " b") (by simp) (lit "http://a/12")
      (lit " b") ⟨rfl, rfl⟩
    have hnone : ¬ RssData.Carries ⟨lit "46bc5009-ad34-3a44-91ec-c875e1b3a313", lit "f", 0,
        lit "http://a/1", lit "2 b", some (lit "d"), none, none⟩ (lit "http://a/12") (lit " b") := by
      decide
    rw [hdata, List.filter_cons_of_neg (by simpa using hnone)] at hdoc
    simp at hdoc

end RssFetcher
