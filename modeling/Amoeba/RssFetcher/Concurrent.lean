import Amoeba.RssFetcher.Fetch
import Amoeba.Interleaving.Basic
import Mathlib.Logic.Relation
import Mathlib.Data.List.Nodup

/-!
# Fetches at the same time

The scheduler executes the jobs of several feeds at once, and feeds can share articles.
For each entry a job asks whether there is a document and inserts one in a second call,
and nothing in the database keeps two documents from having one identifier. A query
that fails counts as the answer that there is none.

* `no_duplicate_documents` — in every run of any number of jobs in which no job asks for
  an identifier while another one is between its own question and its insert, and no
  query fails for an identifier that has a document, no identifier ever has two.
* `alone_fetchEntries` — a job that is not interrupted does what `fetchEntries` does.
-/

namespace RssFetcher

open Java Interleaving

/-- What is left to do of the loop of a job. -/
inductive Fetching where
  /-- The first of these entries is looked at next. -/
  | checking (feedname : JString) (entries : List SyndEntry)
  /-- The entry has been found to be new and is inserted next. -/
  | inserting (feedname : JString) (entry : SyndEntry) (uuid : JString) (rest : List SyndEntry)
  /-- The loop is over, or has thrown. -/
  | done
  deriving DecidableEq, Repr

/-- One call of the database, with what goes before it. -/
def next (env : FetchEnv) : Fetching → List RssData → Calls → Option (Fetching × List RssData)
  | .checking _ [], data, _ => some (.done, data)
  | .checking feedname (entry :: rest), data, calls =>
    match entry.link, entry.title with
    | some link, some title =>
      let uuid := uuidOf env link title
      match isUuidExist env calls data uuid with
      | none => some (.done, data)
      | some true => some (.checking feedname rest, data)
      | some false => some (.inserting feedname entry uuid rest, data)
    | _, _ => some (.checking feedname rest, data)
  | .inserting feedname entry uuid rest, data, calls =>
    match insert calls data (EntryDBObject.getInstance entry uuid feedname calls.now) with
    | none => some (.done, data)
    | some data => some (.checking feedname rest, data)
  | .done, _, _ => none

/-! ### Without duplicates -/

/-- The identifier that a job has found to be new and has not inserted yet. -/
def Fetching.claims : Fetching → Option JString
  | .inserting _ _ uuid _ => some uuid
  | _ => none

/-- The identifier that a job asks for next. -/
def Fetching.asks (env : FetchEnv) : Fetching → Option JString
  | .checking _ (entry :: _) => entry.link.bind fun link => entry.title.map (uuidOf env link)
  | _ => none

/-- **The condition on a step**: a job that asks for an identifier is the only one, and the
query does not fail if there is a document. -/
def Undisturbed (env : FetchEnv) (c : Config Fetching (List RssData)) (i : Nat) (calls : Calls) :
    Prop :=
  ∀ t uuid, c.threads[i]? = some t → t.asks env = some uuid →
    (calls.hasNext = false → ¬ Known c.shared uuid) ∧
      ∀ j t', j ≠ i → c.threads[j]? = some t' → t'.claims ≠ some uuid

/-- What holds between the jobs and the documents. -/
structure NoDuplicates (c : Config Fetching (List RssData)) : Prop where
  nodup : (c.shared.map (·.uuid)).Nodup
  /-- What is claimed has no document. -/
  absent : ∀ t ∈ c.threads, ∀ uuid, t.claims = some uuid → ¬ Known c.shared uuid
  exclusive : Exclusive Fetching.claims c.threads

/-- **What a step of a job does**: it goes on without a claim, or it claims what it has
asked for, or it inserts what it has claimed. -/
theorem next_cases {env : FetchEnv} {t t' : Fetching} {data data' : List RssData} {calls : Calls}
    (h : next env t data calls = some (t', data')) :
    (t'.claims = none ∧ data' = data) ∨
      (∃ uuid, t.asks env = some uuid ∧ t'.claims = some uuid ∧ data' = data ∧
        (calls.hasNext = true → ¬ Known data uuid)) ∨
      ∃ doc, t.claims = some doc.uuid ∧ t'.claims = none ∧ data' = data ++ [doc] := by
  cases t with
  | done => simp [next] at h
  | checking feedname entries =>
    cases entries with
    | nil =>
      obtain ⟨rfl, rfl⟩ := Prod.mk.inj (Option.some.inj h)
      exact .inl ⟨rfl, rfl⟩
    | cons entry rest =>
      simp only [next] at h
      split at h
      next link title hlink htitle =>
        split at h
        · obtain ⟨rfl, rfl⟩ := Prod.mk.inj (Option.some.inj h)
          exact .inl ⟨rfl, rfl⟩
        · obtain ⟨rfl, rfl⟩ := Prod.mk.inj (Option.some.inj h)
          exact .inl ⟨rfl, rfl⟩
        next hnew =>
          obtain ⟨rfl, rfl⟩ := Prod.mk.inj (Option.some.inj h)
          refine .inr (.inl ⟨uuidOf env link title, ?_, rfl, rfl, fun hnext hknown => ?_⟩)
          · simp [Fetching.asks, hlink, htitle]
          · -- the query has gone through and has found nothing
            obtain ⟨doc, hdoc, huuid⟩ := hknown
            unfold isUuidExist at hnew
            split at hnew
            · simp at hnew
            · split at hnew
              · simp at hnew
              · simp only [hnext, Bool.not_true, Bool.false_eq_true, if_false, Option.some.injEq,
                  List.any_eq_false, decide_eq_true_eq] at hnew
                exact hnew doc hdoc huuid
      next =>
        obtain ⟨rfl, rfl⟩ := Prod.mk.inj (Option.some.inj h)
        exact .inl ⟨rfl, rfl⟩
  | inserting feedname entry uuid rest =>
    simp only [next] at h
    split at h
    · obtain ⟨rfl, rfl⟩ := Prod.mk.inj (Option.some.inj h)
      exact .inl ⟨rfl, rfl⟩
    next hinsert =>
      obtain ⟨rfl, rfl⟩ := Prod.mk.inj (Option.some.inj h)
      obtain ⟨doc, hdoc, hdata⟩ := Option.map_eq_some_iff.mp hinsert
      split at hdata
      -- an insert that goes through adds the document
      · refine .inr (.inr ⟨doc, ?_, rfl, hdata.symm⟩)
        exact congrArg some (getInstance_uuid hdoc).symm
      -- one that fails adds nothing, and the job goes on
      · exact .inl ⟨rfl, hdata.symm⟩

/-- **The step lemma**: a step that meets the condition keeps the invariant. -/
theorem NoDuplicates.step {env : FetchEnv} {c : Config Fetching (List RssData)}
    (h : NoDuplicates c) {i : Nat} {calls : Calls} (hok : Undisturbed env c i calls)
    {t t' : Fetching} {data' : List RssData} (ht : c.threads[i]? = some t)
    (hnext : next env t c.shared calls = some (t', data')) :
    NoDuplicates ⟨c.threads.set i t', data'⟩ := by
  have hmem := List.mem_of_getElem? ht
  rcases next_cases hnext with
    ⟨hnone, rfl⟩ | ⟨uuid, hasks, hclaims, rfl, hnew⟩ | ⟨doc, hclaims, hnone, rfl⟩
  · refine ⟨h.nodup, forall_mem_set ?_ h.absent, h.exclusive.keep ht ?_⟩
    · simp [hnone]
    · simp [hnone]
  · -- the question: the condition is needed here
    obtain ⟨hfails, hfree⟩ := hok t uuid ht hasks
    -- a failing query is not allowed for a known identifier, and one that goes through
    -- would have found it
    have habsent : ¬ Known c.shared uuid := by
      cases hquery : calls.hasNext with
      | false => exact hfails hquery
      | true => exact hnew hquery
    refine ⟨h.nodup, forall_mem_set (fun uuid' hclaims' => ?_) h.absent, h.exclusive.set ?_⟩
    · obtain rfl := Option.some.inj (hclaims.symm.trans hclaims')
      exact habsent
    · intro uuid' hclaims'
      obtain rfl := Option.some.inj (hclaims.symm.trans hclaims')
      exact hfree
  · -- the insert: nobody else claims this identifier
    have habsent : ¬ Known c.shared doc.uuid := h.absent t hmem doc.uuid hclaims
    refine ⟨?_, fun u hu uuid hu' => ?_, h.exclusive.keep ht (by simp [hnone])⟩
    · show ((c.shared ++ [doc]).map (·.uuid)).Nodup
      rw [List.map_append, List.nodup_append]
      refine ⟨h.nodup, List.nodup_singleton _, fun uuid huuid uuid' huuid' heq => ?_⟩
      obtain rfl : uuid' = doc.uuid := by simpa using huuid'
      obtain ⟨d, hd, hduuid⟩ := List.mem_map.mp huuid
      exact habsent ⟨d, hd, hduuid.trans heq⟩
    · obtain ⟨j, hj⟩ := List.mem_iff_getElem?.mp hu
      rcases getElem?_set_cases hj with ⟨-, rfl⟩ | ⟨hij, hj⟩
      · simp [hnone] at hu'
      · rw [known_append]
        rintro (hknown | rfl)
        · exact h.absent u (List.mem_of_getElem? hj) uuid hu' hknown
        · exact hij (h.exclusive i j t u doc.uuid ht hj hclaims hu')

/-- **When an article has at most one document.** For any number of jobs with any
entries, and every pattern of failed calls: in every run in which no job asks for an
identifier while another one has asked for it and not yet inserted its document, and no
query fails for an identifier that has a document, no identifier has two documents in
any collection that is reached, if none has two at the start. -/
theorem no_duplicate_documents {env : FetchEnv} {c₀ c : Config Fetching (List RssData)}
    (hnodup : (c₀.shared.map (·.uuid)).Nodup)
    (hstart : ∀ t ∈ c₀.threads, ∃ feedname entries, t = .checking feedname entries)
    (h : Run (next env) (Undisturbed env) c₀ c) : (c.shared.map (·.uuid)).Nodup := by
  -- a job that has not started claims nothing
  have hclaims : ∀ t ∈ c₀.threads, t.claims = none := by
    intro t ht
    obtain ⟨feedname, entries, rfl⟩ := hstart t ht
    rfl
  have hinit : NoDuplicates c₀ := by
    refine ⟨hnodup, fun t ht uuid h => ?_, fun i j t t' uuid hi _ h => ?_⟩
    · simp [hclaims t ht] at h
    · simp [hclaims t (List.mem_of_getElem? hi)] at h
  have hinv : NoDuplicates c :=
    h.invariant hinit fun c i calls t t' data' hc hok ht hnext => hc.step hok ht hnext
  exact hinv.nodup

/-- A test for the condition. -/
def undisturbed (env : FetchEnv) (c : Config Fetching (List RssData)) (i : Nat) (calls : Calls) :
    Bool :=
  match (c.threads[i]?).bind (Fetching.asks env) with
  | none => true
  | some uuid => (calls.hasNext || c.shared.all (·.uuid ≠ uuid)) &&
      c.threads.zipIdx.all fun (t, j) => j = i || t.claims ≠ some uuid

theorem undisturbed_sound {env : FetchEnv} (c : Config Fetching (List RssData)) (i : Nat)
    (calls : Calls) (h : undisturbed env c i calls = true) : Undisturbed env c i calls := by
  intro t uuid ht hasks
  rw [undisturbed, ht, Option.bind_some, hasks] at h
  obtain ⟨hquery, hothers⟩ := Bool.and_eq_true_iff.mp h
  refine ⟨?_, fun j t' hj ht' hclaims => ?_⟩
  · rintro hfails ⟨doc, hdoc, rfl⟩
    rw [hfails, Bool.false_or] at hquery
    simpa using List.all_eq_true.mp hquery doc hdoc
  · have hall := List.all_eq_true.mp hothers (t', j) (List.mem_zipIdx_iff_getElem?.mpr ht')
    simp [hj, hclaims] at hall

/-! ### Two feeds with one article -/

/-- All calls go through. -/
def allCalls : Calls := ⟨true, true, true, 0⟩

/-- The jobs of two feeds that have an article in common. -/
def sharedArticle : Config Fetching (List RssData) :=
  ⟨[.checking (lit "f") [⟨some (lit "l"), some (lit "t"), some (some (lit "d")), none, none⟩],
    .checking (lit "g") [⟨some (lit "l"), some (lit "t"), some (some (lit "d")), none, none⟩]], []⟩

/-- The document that one of them makes. -/
def sharedDocument (feedname : String) : RssData :=
  ⟨lit "d91af695-8918-3f87-96a0-57c1cdf5b225", lit feedname, 0, lit "l", lit "t", some (lit "d"),
    none, none⟩

/-- One job after the other. -/
theorem one_document_in_turn :
    ∃ c, Run (next calmEnv) (Undisturbed calmEnv) sharedArticle c ∧
      c.shared = [sharedDocument "f"] ∧ (c.shared.map (·.uuid)).Nodup := by
  have heval : (exec (next calmEnv) (undisturbed calmEnv) sharedArticle [(0, allCalls), (0, allCalls),
      (1, allCalls)]).map Config.shared = some [sharedDocument "f"] := by decide +kernel
  obtain ⟨c, hrun, hdata⟩ := exists_run undisturbed_sound heval
  refine ⟨c, hrun, hdata, no_duplicate_documents (by simp [sharedArticle]) (fun t ht => ?_) hrun⟩
  rcases List.mem_pair.mp ht with rfl | rfl
  · exact ⟨_, _, rfl⟩
  · exact ⟨_, _, rfl⟩

/-- **Two documents of one article.** Both jobs ask before either inserts; or they take
turns, and the query of the second fails. -/
theorem duplicate_documents :
    (sharedArticle.shared.map (·.uuid)).Nodup ∧
      (∃ c, Run (next calmEnv) (fun _ _ _ => True) sharedArticle c ∧
        c.shared = [sharedDocument "f", sharedDocument "g"] ∧ ¬ (c.shared.map (·.uuid)).Nodup) ∧
      ∃ c, Run (next calmEnv) (fun _ _ _ => True) sharedArticle c ∧
        c.shared = [sharedDocument "f", sharedDocument "g"] ∧ ¬ (c.shared.map (·.uuid)).Nodup := by
  have htwo : ¬ ([sharedDocument "f", sharedDocument "g"].map (·.uuid)).Nodup := by
    simp [sharedDocument]
  have hoverlap : (exec (next calmEnv) (fun _ _ _ => true) sharedArticle [(0, allCalls),
      (1, allCalls), (0, allCalls), (1, allCalls)]).map Config.shared =
      some [sharedDocument "f", sharedDocument "g"] := by decide +kernel
  have hfails : (exec (next calmEnv) (fun _ _ _ => true) sharedArticle [(0, allCalls),
      (0, allCalls), (1, { allCalls with hasNext := false }), (1, allCalls)]).map Config.shared =
      some [sharedDocument "f", sharedDocument "g"] := by decide +kernel
  refine ⟨List.nodup_nil, ?_, ?_⟩
  · obtain ⟨c, hrun, hdata⟩ := exists_run (fun _ _ _ _ => trivial) hoverlap
    exact ⟨c, hrun, hdata, by rwa [hdata]⟩
  · obtain ⟨c, hrun, hdata⟩ := exists_run (fun _ _ _ _ => trivial) hfails
    exact ⟨c, hrun, hdata, by rwa [hdata]⟩

/-! ### A job on its own -/

/-- One job takes some steps on its own. -/
def Alone (env : FetchEnv) : Fetching × List RssData → Fetching × List RssData → Prop :=
  Relation.ReflTransGen fun p q => ∃ calls, next env p.1 p.2 calls = some q

/-- An entry, in one step or in two. -/
theorem alone_fetchEntry (env : FetchEnv) (feedname : JString) (calls : Calls) (entry : SyndEntry)
    (rest : List SyndEntry) (data : List RssData) :
    Alone env (.checking feedname (entry :: rest), data)
      (match fetchEntry env feedname calls entry data with
        | none => (.done, data)
        | some data => (.checking feedname rest, data)) := by
  cases hlink : entry.link with
  | none => exact .single ⟨calls, by simp [next, fetchEntry, hlink]⟩
  | some link =>
    cases htitle : entry.title with
    | none => exact .single ⟨calls, by simp [next, fetchEntry, hlink, htitle]⟩
    | some title =>
      cases hexist : isUuidExist env calls data (uuidOf env link title) with
      | none => exact .single ⟨calls, by simp [next, fetchEntry, hlink, htitle, hexist]⟩
      | some found =>
        rw [fetchEntry_found hlink htitle hexist]
        cases found with
        | true => exact .single ⟨calls, by simp [next, hlink, htitle, hexist]⟩
        | false =>
          refine .head (b := (.inserting feedname entry (uuidOf env link title) rest, data))
            ⟨calls, by simp [next, hlink, htitle, hexist]⟩ (.single ⟨calls, ?_⟩)
          simp only [next, Bool.false_eq_true, if_false]
          split <;> rfl

/-- **A job that is not interrupted** leaves the documents that `fetchEntries` computes. -/
theorem alone_fetchEntries (env : FetchEnv) (feedname : JString) (n : Nat)
    (entries : List SyndEntry) (data : List RssData) :
    Alone env (.checking feedname entries, data)
      (.done, (fetchEntries env feedname n entries data).1) := by
  induction entries generalizing n data with
  | nil => exact .single ⟨env.calls n, rfl⟩
  | cons entry entries ih =>
    have hfirst := alone_fetchEntry env feedname (env.calls n) entry entries data
    rw [fetchEntries]
    cases hentry : fetchEntry env feedname (env.calls n) entry data with
    | none =>
      rw [hentry] at hfirst
      exact hfirst
    | some data' =>
      rw [hentry] at hfirst
      exact hfirst.trans (ih (n + 1) data')

end RssFetcher
