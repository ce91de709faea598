import Amoeba.SpringReader.Html
import Mathlib.Data.List.TakeWhile
import Mathlib.Data.List.Flatten

/-!
# The daily push

`SendEmailJob.execute`: for each user, one query for each record, whose results are
collected by email, and then one email for each of them. Only the loop over the
emails stands in a `try`, and the `try` is around the whole loop. So a query that
throws ends the job for all users that are left, and an email that cannot be sent
ends the loop for all emails of the user that are left.

* `execute_sent` and `mem_execute` — the emails of a run and the records afterwards,
  for every pattern of failures.
* `recipients_served_iff` — everyone whose own queries and own email go through is
  served if and only if no failure stands in front of one of them.
-/

namespace SpringReader

open Java DocStore

/-! ### The job -/

/-- What a run of the job meets outside of it. -/
structure Outside where
  /-- The answer of the search for a record; `none` stands for an exception. -/
  search : UserKeyword → Option SearchHits
  reformat : JString → Option JString
  /-- The email to this user at this address can be sent. -/
  send : JString → JString → Bool
  /-- The time at which the date for a user and an address is taken. -/
  now : JString → JString → Date
  /-- The day of the run, as text. -/
  dateString : JString
  /-- The order in which the map of a user gives its keys. -/
  order : JString → List JString → List JString
  order_perm : ∀ user keys, (order user keys).Perm keys

/-- An email that has been sent, with the user for whom it was. -/
structure Mail where
  user : JString
  recipientEmail : JString
  title : JString
  message : JString
  deriving DecidableEq, Repr

/-- The records, and the emails sent so far. -/
structure PushState where
  keywords : Store
  sent : List Mail

/-- The result of the query for a record. -/
def queryRecord (w : Outside) (r : UserKeyword) : Option JString :=
  querySingleKeywordHtmlResult w.reformat r.name 10 (w.search r)

/-- A `HashMap` from addresses to texts, in the order in which the keys were put. -/
abbrev HtmlResultMap := List (JString × JString)

/-- The texts so far with one more for an address. -/
def putHtml (map : HtmlResultMap) (email html : JString) : HtmlResultMap :=
  match map with
  | [] => [(email, html)]
  | (key, value) :: rest =>
    if key = email then (key, value ++ html) :: rest else (key, value) :: putHtml rest email html

/-- The text for an address of the map. -/
def getHtml (map : HtmlResultMap) (email : JString) : JString :=
  match map with
  | [] => []
  | (key, value) :: rest => if key = email then value else getHtml rest email

/-- The loop over the records of a user; `none` stands for an exception. -/
def collectHtml (w : Outside) : List UserKeyword → HtmlResultMap → Option HtmlResultMap
  | [], map => some map
  | r :: rs, map => (queryRecord w r).bind fun html => collectHtml w rs (putHtml map r.email html)

/-- The email for an entry of the map. -/
def dailyMail (w : Outside) (user email html : JString) : Mail where
  user := user
  recipientEmail := email
  title := lit "每日推送!---SPRING为您打造修身阅读"
  message := wrapKeywordsHtmlReasult (w.dateString ++ lit "最新资讯") html

/-- The loop over the entries of the map. -/
def sendAll (w : Outside) (user : JString) (map : HtmlResultMap) :
    List JString → PushState → PushState
  | [], st => st
  | email :: emails, st =>
    if w.send user email then
      sendAll w user map emails
        { keywords := updateLastpushdateAllKeyword user email (w.now user email) st.keywords
          sent := st.sent ++ [dailyMail w user email (getHtml map email)] }
    -- the handler of the exception is behind the loop
    else st

/-- `SendEmailJob.execute` -/
def SendEmailJob.execute (w : Outside) : List JString → PushState → PushState
  | [], st => st
  | user :: users, st =>
    match collectHtml w (findByUsername st.keywords user) [] with
    -- nothing catches the exception of a query
    | none => st
    | some map =>
      SendEmailJob.execute w users (sendAll w user map (w.order user (map.map Prod.fst)) st)

/-! ### The texts -/

/-- The addresses of records, each at its first place. -/
def emailsOf : List UserKeyword → List JString → List JString
  | [], keys => keys
  | r :: rs, keys => emailsOf rs (if r.email ∈ keys then keys else keys ++ [r.email])

/-- The results for an address, one behind the other. -/
def resultsOf (w : Outside) (rs : List UserKeyword) (email : JString) : JString :=
  (rs.filter (·.email = email)).flatMap fun r => (queryRecord w r).getD []

theorem putHtml_keys (map : HtmlResultMap) (email html : JString) :
    (putHtml map email html).map Prod.fst =
      if email ∈ map.map Prod.fst then map.map Prod.fst else map.map Prod.fst ++ [email] := by
  induction map with
  | nil => simp [putHtml]
  | cons entry rest ih =>
    obtain ⟨key, value⟩ := entry
    rw [putHtml]
    by_cases hkey : key = email
    · simp [hkey]
    · rw [if_neg hkey, List.map_cons, ih]
      simp only [List.map_cons, List.mem_cons, Ne.symm hkey, false_or]
      split <;> rfl

theorem getHtml_putHtml (map : HtmlResultMap) (email html key : JString) :
    getHtml (putHtml map email html) key = getHtml map key ++ if key = email then html else [] := by
  induction map with
  | nil => simp [putHtml, getHtml, eq_comm]
  | cons entry rest ih =>
    obtain ⟨key', value⟩ := entry
    rw [putHtml]
    by_cases hput : key' = email
    · rw [if_pos hput, getHtml, getHtml, hput]
      by_cases hkey : email = key
      · simp [hkey]
      · simp [hkey, Ne.symm hkey]
    · rw [if_neg hput, getHtml, getHtml, ih]
      by_cases hkey : key' = key
      · simp [hkey, hkey ▸ hput]
      · simp [hkey]

/-- **What the loop over the records collects**: the addresses in their order, and for
each of them the results of its records. -/
theorem collectHtml_spec (w : Outside) {rs : List UserKeyword} {map map' : HtmlResultMap}
    (h : collectHtml w rs map = some map') :
    map'.map Prod.fst = emailsOf rs (map.map Prod.fst) ∧
      ∀ email, getHtml map' email = getHtml map email ++ resultsOf w rs email := by
  induction rs generalizing map with
  | nil =>
    obtain rfl := Option.some.inj h
    exact ⟨rfl, fun email => by simp [resultsOf]⟩
  | cons r rs ih =>
    obtain ⟨html, hquery, hrest⟩ := Option.bind_eq_some_iff.mp h
    obtain ⟨hkeys, hget⟩ := ih hrest
    refine ⟨by rw [hkeys, putHtml_keys, emailsOf], fun email => ?_⟩
    -- the results of this record come in front of those of the rest
    rw [hget, getHtml_putHtml, List.append_assoc]
    by_cases hemail : r.email = email
    · simp [resultsOf, hemail, hquery]
    · simp [resultsOf, hemail, Ne.symm hemail]

/-- It throws if and only if one of the queries does. -/
theorem collectHtml_eq_none (w : Outside) {rs : List UserKeyword} {map : HtmlResultMap} :
    collectHtml w rs map = none ↔ ∃ r ∈ rs, queryRecord w r = none := by
  induction rs generalizing map with
  | nil => simp [collectHtml]
  | cons r rs ih =>
    rw [collectHtml, List.exists_mem_cons_iff]
    cases hquery : queryRecord w r with
    | none => simp
    | some html => simp [ih]

/-! ### The emails and the records -/

/-- The records of some pairs of a user and an address have got their new dates, and
the others are as they were. -/
def Stamps (w : Outside) (P : JString → JString → Prop) (s s' : Store) : Prop :=
  ∀ x, x ∈ s' ↔
    (∃ r ∈ s, P r.username r.email ∧ x = r.setLastpushdate (w.now r.username r.email)) ∨
      x ∈ s ∧ ¬ P x.username x.email

theorem Stamps.refl (w : Outside) (s : Store) : Stamps w (fun _ _ => False) s s := by
  simp [Stamps]

theorem Stamps.trans {w : Outside} {P Q : JString → JString → Prop} {s s' s'' : Store}
    (h : Stamps w P s s') (h' : Stamps w Q s' s'') :
    Stamps w (fun user email => P user email ∨ Q user email) s s'' := by
  intro x
  rw [h' x]
  constructor
  · rintro (⟨r, hr, hQ, rfl⟩ | ⟨hx, hQ⟩)
    · rcases (h r).mp hr with ⟨r₀, hr₀, hP, rfl⟩ | ⟨hr, -⟩
      · -- the second date is the first one
        exact .inl ⟨r₀, hr₀, .inl hP, rfl⟩
      · exact .inl ⟨r, hr, .inr hQ, rfl⟩
    · rcases (h x).mp hx with ⟨r₀, hr₀, hP, rfl⟩ | ⟨hx, hP⟩
      · exact .inl ⟨r₀, hr₀, .inl hP, rfl⟩
      · exact .inr ⟨hx, not_or.mpr ⟨hP, hQ⟩⟩
  · rintro (⟨r, hr, hPQ, rfl⟩ | ⟨hx, hPQ⟩)
    · by_cases hP : P r.username r.email
      · have hstamped := (h (r.setLastpushdate (w.now r.username r.email))).mpr
          (.inl ⟨r, hr, hP, rfl⟩)
        by_cases hQ : Q r.username r.email
        · exact .inl ⟨_, hstamped, hQ, rfl⟩
        · exact .inr ⟨hstamped, hQ⟩
      · exact .inl ⟨r, (h r).mpr (.inr ⟨hr, hP⟩), hPQ.resolve_left hP, rfl⟩
    · obtain ⟨hP, hQ⟩ := not_or.mp hPQ
      exact .inr ⟨(h x).mpr (.inr ⟨hx, hP⟩), hQ⟩

theorem Stamps.congr {w : Outside} {P Q : JString → JString → Prop} {s s' : Store}
    (h : Stamps w P s s') (hPQ : ∀ user email, P user email ↔ Q user email) : Stamps w Q s s' := by
  obtain rfl : P = Q := funext fun user => funext fun email => propext (hPQ user email)
  exact h

theorem stamps_update (w : Outside) (user email : JString) (s : Store) :
    Stamps w (fun u e => u = user ∧ e = email) s
      (updateLastpushdateAllKeyword user email (w.now user email) s) := by
  intro x
  rw [mem_updateLastpushdateAllKeyword]
  refine or_congr_left (exists_congr fun r => and_congr_right fun _ => ?_)
  constructor
  · rintro ⟨rfl, rfl, rfl⟩
    exact ⟨⟨rfl, rfl⟩, rfl⟩
  · rintro ⟨⟨rfl, rfl⟩, rfl⟩
    exact ⟨rfl, rfl, rfl⟩

/-- **What the loop over the addresses does**: the addresses in front of the first
failure get their emails and dates. -/
theorem sendAll_spec (w : Outside) (user : JString) (map : HtmlResultMap) (emails : List JString)
    (st : PushState) :
    (sendAll w user map emails st).sent =
        st.sent ++ (emails.takeWhile (w.send user)).map
          (fun email => dailyMail w user email (getHtml map email)) ∧
      Stamps w (fun u e => u = user ∧ e ∈ emails.takeWhile (w.send user)) st.keywords
        (sendAll w user map emails st).keywords ∧
      ∀ other, other ≠ user →
        findByUsername (sendAll w user map emails st).keywords other =
          findByUsername st.keywords other := by
  induction emails generalizing st with
  | nil =>
    refine ⟨by simp [sendAll], (Stamps.refl w _).congr (by simp), fun _ _ => rfl⟩
  | cons email emails ih =>
    rw [sendAll]
    by_cases hsend : w.send user email = true
    · rw [if_pos hsend, List.takeWhile_cons_of_pos hsend]
      -- the email goes out, so the date is written and the loop goes on
      obtain ⟨hsent, hstamps, hothers⟩ := ih
        { keywords := updateLastpushdateAllKeyword user email (w.now user email) st.keywords
          sent := st.sent ++ [dailyMail w user email (getHtml map email)] }
      refine ⟨by rw [hsent, List.map_cons, List.append_assoc, List.singleton_append], ?_,
        fun other hne => ?_⟩
      · refine ((stamps_update w user email st.keywords).trans hstamps).congr fun u e => ?_
        rw [List.mem_cons, ← and_or_left]
      · rw [hothers other hne, findByUsername_updateLastpushdateAllKeyword hne]
    · -- the exception ends the loop, and leaves the others without email and date
      rw [if_neg hsend, List.takeWhile_cons_of_neg hsend]
      exact ⟨by simp, (Stamps.refl w _).congr (by simp), fun _ _ => rfl⟩

/-- All queries of a user go through. -/
def answered (w : Outside) (s : Store) (user : JString) : Bool :=
  (findByUsername s user).all fun r => (queryRecord w r).isSome

/-- The queries of a user go through if the searches do and all that they find has a
description. -/
theorem answered_iff {w : Outside} {s : Store} {user : JString} :
    answered w s user = true ↔ ∀ r ∈ s, r.username = user →
      ∃ shs, w.search r = some shs ∧ ∀ hit ∈ shs.hits, hit.description ≠ none := by
  have hquery : ∀ r, (queryRecord w r).isSome = true ↔
      ∃ shs, w.search r = some shs ∧ ∀ hit ∈ shs.hits, hit.description ≠ none := by
    intro r
    rw [Option.isSome_iff_ne_none, queryRecord, Ne, querySingleKeywordHtmlResult_eq_none]
    push Not
    rfl
  rw [answered, List.all_eq_true]
  simp only [mem_findByUsername, hquery, and_imp]

/-- The addresses of a user, in the order of the map. -/
def addresses (w : Outside) (s : Store) (user : JString) : List JString :=
  w.order user (emailsOf (findByUsername s user) [])

/-- The email for a user at an address, with the results of all records of the two. -/
def expectedMail (w : Outside) (s : Store) (user email : JString) : Mail :=
  dailyMail w user email (resultsOf w (findByUsername s user) email)

/-- The job comes to this user and this address, and the email goes out. -/
def Served (w : Outside) (s : Store) (users : List JString) (user email : JString) : Prop :=
  user ∈ users.takeWhile (answered w s) ∧ email ∈ (addresses w s user).takeWhile (w.send user)

/-- One user: the query of one of the records throws, or the loop over the addresses
runs on the results. -/
theorem collectHtml_cases (w : Outside) (s : Store) (user : JString) :
    (answered w s user = false ∧ collectHtml w (findByUsername s user) [] = none) ∨
      answered w s user = true ∧ ∃ map, collectHtml w (findByUsername s user) [] = some map ∧
        w.order user (map.map Prod.fst) = addresses w s user ∧
        ∀ email, getHtml map email = resultsOf w (findByUsername s user) email := by
  cases hcollect : collectHtml w (findByUsername s user) [] with
  | none =>
    obtain ⟨r, hr, hquery⟩ := (collectHtml_eq_none w).mp hcollect
    refine .inl ⟨?_, rfl⟩
    rw [answered, List.all_eq_false]
    exact ⟨r, hr, by simp [hquery]⟩
  | some map =>
    obtain ⟨hkeys, hget⟩ := collectHtml_spec w hcollect
    refine .inr ⟨?_, map, rfl, by rw [hkeys]; rfl, hget⟩
    rw [answered, List.all_eq_true]
    intro r hr
    rw [Option.isSome_iff_ne_none]
    intro hquery
    simp [(collectHtml_eq_none w).mpr ⟨r, hr, hquery⟩] at hcollect

/-- **The run of the job.** The users in front of the first query that throws are gone
through, each with the addresses in front of the first email that cannot be sent. -/
theorem execute_spec (w : Outside) (s : Store) {users : List JString} (hnodup : users.Nodup)
    {st : PushState}
    (hsame : ∀ user ∈ users, findByUsername st.keywords user = findByUsername s user) :
    (SendEmailJob.execute w users st).sent =
        st.sent ++ (users.takeWhile (answered w s)).flatMap (fun user =>
          ((addresses w s user).takeWhile (w.send user)).map (expectedMail w s user)) ∧
      Stamps w (Served w s users) st.keywords (SendEmailJob.execute w users st).keywords := by
  induction users generalizing st with
  | nil => exact ⟨by simp [SendEmailJob.execute], (Stamps.refl w _).congr (by simp [Served])⟩
  | cons user users ih =>
    obtain ⟨hnotin, hnodup⟩ := List.nodup_cons.mp hnodup
    obtain ⟨hfind, hsame⟩ := List.forall_mem_cons.mp hsame
    rw [SendEmailJob.execute, hfind]
    rcases collectHtml_cases w s user with ⟨hanswered, hcollect⟩ |
      ⟨hanswered, map, hcollect, horder, hget⟩
    · rw [hcollect]
      -- a query that throws ends the job for all users that are left
      refine ⟨by simp [hanswered], (Stamps.refl w _).congr ?_⟩
      simp [Served, hanswered]
    · rw [hcollect]
      dsimp only
      obtain ⟨hsent, hstamps, hothers⟩ :=
        sendAll_spec w user map (w.order user (map.map Prod.fst)) st
      rw [horder] at hsent hstamps hothers ⊢
      -- the records of the users that are left have not been touched
      have hsame' : ∀ u ∈ users, findByUsername
          (sendAll w user map (addresses w s user) st).keywords u = findByUsername s u := by
        intro u hu
        rw [hothers u fun heq => hnotin (heq ▸ hu), hsame u hu]
      obtain ⟨hsent', hstamps'⟩ := ih hnodup hsame'
      rw [List.takeWhile_cons_of_pos hanswered]
      refine ⟨?_, (hstamps.trans hstamps').congr fun u e => ?_⟩
      · rw [hsent', hsent, List.append_assoc, List.flatMap_cons]
        simp only [hget]
        rfl
      · rw [Served, Served, List.takeWhile_cons_of_pos hanswered, List.mem_cons, or_and_right]
        refine or_congr_left (and_congr_right ?_)
        rintro rfl
        rfl

/-- The emails of a run. -/
theorem execute_sent (w : Outside) (s : Store) {users : List JString} (hnodup : users.Nodup) :
    (SendEmailJob.execute w users ⟨s, []⟩).sent =
      (users.takeWhile (answered w s)).flatMap fun user =>
        ((addresses w s user).takeWhile (w.send user)).map (expectedMail w s user) := by
  have hsame : ∀ user ∈ users,
      findByUsername (PushState.mk s []).keywords user = findByUsername s user := fun _ _ => rfl
  rw [(execute_spec w s hnodup hsame).1, List.nil_append]

/-- The records after a run. -/
theorem mem_execute (w : Outside) (s : Store) {users : List JString} (hnodup : users.Nodup) :
    Stamps w (Served w s users) s (SendEmailJob.execute w users ⟨s, []⟩).keywords := by
  have hsame : ∀ user ∈ users,
      findByUsername (PushState.mk s []).keywords user = findByUsername s user := fun _ _ => rfl
  exact (execute_spec w s hnodup hsame).2

/-! ### Who is served -/

theorem mem_emailsOf {rs : List UserKeyword} {keys : List JString} {email : JString} :
    email ∈ emailsOf rs keys ↔ email ∈ keys ∨ ∃ r ∈ rs, r.email = email := by
  induction rs generalizing keys with
  | nil => simp [emailsOf]
  | cons r rs ih =>
    rw [emailsOf, ih, List.exists_mem_cons_iff, ← or_assoc]
    refine or_congr_left ?_
    split
    next hmem => exact ⟨.inl, fun h => h.elim id fun heq => heq ▸ hmem⟩
    · rw [List.mem_append, List.mem_singleton, eq_comm]

theorem nodup_emailsOf {rs : List UserKeyword} {keys : List JString} (h : keys.Nodup) :
    (emailsOf rs keys).Nodup := by
  induction rs generalizing keys with
  | nil => exact h
  | cons r rs ih =>
    rw [emailsOf]
    split
    · exact ih h
    next hmem => exact ih (List.concat_eq_append ▸ List.Nodup.concat hmem h)

theorem mem_addresses {w : Outside} {s : Store} {user email : JString} :
    email ∈ addresses w s user ↔ ∃ r ∈ s, r.username = user ∧ r.email = email := by
  rw [addresses, (w.order_perm _ _).mem_iff, mem_emailsOf]
  simp [and_assoc]

theorem nodup_addresses (w : Outside) (s : Store) (user : JString) : (addresses w s user).Nodup :=
  (w.order_perm _ _).nodup_iff.mpr (nodup_emailsOf List.nodup_nil)

/-- An element is in front of the first failure if it is none and none is in front of
it. -/
theorem mem_takeWhile_iff {α : Type*} [DecidableEq α] {p : α → Bool} {l : List α} {a : α} :
    a ∈ l.takeWhile p ↔ a ∈ l ∧ p a = true ∧ ∀ b ∈ l.takeWhile (· ≠ a), p b = true := by
  induction l with
  | nil => simp
  | cons x l ih =>
    by_cases hx : x = a
    · subst hx
      by_cases hp : p x = true <;> simp [hp]
    · have hax : a ≠ x := Ne.symm hx
      by_cases hp : p x = true
      · simp [hp, hx, hax, ih]
      · simp [hp, hx]

theorem mem_sent (w : Outside) (s : Store) {users : List JString} (hnodup : users.Nodup) (m : Mail) :
    m ∈ (SendEmailJob.execute w users ⟨s, []⟩).sent ↔
      ∃ u e, Served w s users u e ∧ m = expectedMail w s u e := by
  rw [execute_sent w s hnodup]
  simp only [List.mem_flatMap, List.mem_map, Served]
  constructor
  · rintro ⟨u, hu, e, he, rfl⟩
    exact ⟨u, e, ⟨hu, he⟩, rfl⟩
  · rintro ⟨u, e, ⟨hu, he⟩, rfl⟩
    exact ⟨u, hu, e, he, rfl⟩

/-- No email is sent twice. -/
theorem nodup_sent (w : Outside) (s : Store) {users : List JString} (hnodup : users.Nodup) :
    (SendEmailJob.execute w users ⟨s, []⟩).sent.Nodup := by
  rw [execute_sent w s hnodup, List.nodup_flatMap]
  constructor
  -- the emails of one user differ in their addresses
  · intro u _
    refine List.Nodup.map (fun e e' heq => congrArg Mail.recipientEmail heq) ?_
    exact (nodup_addresses w s u).sublist (List.takeWhile_sublist _)
  -- those of two users in the user
  · refine (hnodup.sublist (List.takeWhile_sublist _)).imp fun hne => ?_
    intro m hm hm'
    obtain ⟨e, -, rfl⟩ := List.mem_map.mp hm
    obtain ⟨e', -, heq⟩ := List.mem_map.mp hm'
    exact hne (congrArg Mail.user heq).symm

/-- The emails of a run, for one user and one address. -/
def mailsTo (w : Outside) (s : Store) (users : List JString) (user email : JString) : List Mail :=
  (SendEmailJob.execute w users ⟨s, []⟩).sent.filter
    fun m => m.user = user ∧ m.recipientEmail = email

theorem mem_mailsTo (w : Outside) (s : Store) {users : List JString} (hnodup : users.Nodup)
    {user email : JString} {m : Mail} :
    m ∈ mailsTo w s users user email ↔
      Served w s users user email ∧ m = expectedMail w s user email := by
  rw [mailsTo, List.mem_filter, mem_sent w s hnodup, decide_eq_true_eq]
  constructor
  · rintro ⟨⟨u, e, hserved, rfl⟩, rfl, rfl⟩
    exact ⟨hserved, rfl⟩
  · rintro ⟨hserved, rfl⟩
    exact ⟨⟨user, email, hserved, rfl⟩, rfl, rfl⟩

theorem mailsTo_of_served (w : Outside) (s : Store) {users : List JString} (hnodup : users.Nodup)
    {user email : JString} (hserved : Served w s users user email) :
    mailsTo w s users user email = [expectedMail w s user email] := by
  have hdistinct : (mailsTo w s users user email).Nodup := (nodup_sent w s hnodup).filter _
  refine List.perm_singleton.mp ?_
  refine (List.perm_ext_iff_of_nodup hdistinct (List.nodup_singleton _)).mpr fun m => ?_
  rw [mem_mailsTo w s hnodup, List.mem_singleton]
  exact and_iff_right hserved

/-- The user and the address have records, and their own queries and email go
through. -/
structure Succeeds (w : Outside) (s : Store) (users : List JString) (user email : JString) :
    Prop where
  mem : user ∈ users
  record : ∃ r ∈ s, r.username = user ∧ r.email = email
  queries : ∀ r ∈ s, r.username = user → r.email = email → (queryRecord w r).isSome = true
  send : w.send user email = true

/-- **The rule for failures**: whoever succeeds has been sent one email with all the
results, and the records have the new date; and where the email could not be sent,
the records are as they were. -/
def RecipientsServed (w : Outside) (s : Store) (users : List JString) : Prop :=
  (∀ user email, Succeeds w s users user email →
    mailsTo w s users user email = [expectedMail w s user email] ∧
      ∀ r ∈ s, r.username = user → r.email = email →
        r.setLastpushdate (w.now user email) ∈ (SendEmailJob.execute w users ⟨s, []⟩).keywords) ∧
  ∀ user email, w.send user email = false → ∀ r ∈ s, r.username = user → r.email = email →
    r ∈ (SendEmailJob.execute w users ⟨s, []⟩).keywords

/-- **The condition**: no query of the user or of a user in front throws, and every
email to an address in front of this one can be sent. -/
structure Unhindered (w : Outside) (s : Store) (users : List JString) (user email : JString) :
    Prop where
  before : ∀ other ∈ users.takeWhile (· ≠ user), answered w s other = true
  own : answered w s user = true
  emails : ∀ email' ∈ (addresses w s user).takeWhile (· ≠ email), w.send user email' = true

theorem Succeeds.served_iff {w : Outside} {s : Store} {users : List JString} {user email : JString}
    (h : Succeeds w s users user email) :
    Served w s users user email ↔ Unhindered w s users user email := by
  rw [Served, mem_takeWhile_iff, mem_takeWhile_iff]
  constructor
  · rintro ⟨⟨-, hown, hbefore⟩, -, -, hemails⟩
    exact ⟨hbefore, hown, hemails⟩
  · rintro ⟨hbefore, hown, hemails⟩
    exact ⟨⟨h.mem, hown, hbefore⟩, mem_addresses.mpr h.record, h.send, hemails⟩

/-- **When one failure does not stop other recipients.** For all users, records and
orders of the maps, and all searches and emails that fail: the rule for failures
holds if and only if nobody who succeeds stands behind a failure. -/
theorem recipients_served_iff (w : Outside) (s : Store) {users : List JString}
    (hnodup : users.Nodup) :
    RecipientsServed w s users ↔
      ∀ user email, Succeeds w s users user email → Unhindered w s users user email := by
  have hstamps := mem_execute w s hnodup
  constructor
  · rintro ⟨hrule, -⟩ user email hsucceeds
    rw [← hsucceeds.served_iff]
    have hmail : expectedMail w s user email ∈ mailsTo w s users user email := by
      rw [(hrule user email hsucceeds).1]
      exact List.mem_singleton_self _
    exact ((mem_mailsTo w s hnodup).mp hmail).1
  · intro hcondition
    refine ⟨fun user email hsucceeds => ?_, fun user email hsend r hr huser hemail => ?_⟩
    · have hserved := hsucceeds.served_iff.mpr (hcondition user email hsucceeds)
      refine ⟨mailsTo_of_served w s hnodup hserved, ?_⟩
      rintro r hr rfl rfl
      exact (hstamps _).mpr (.inl ⟨r, hr, hserved, rfl⟩)
    · -- the loop over the addresses has not gone past this one
      refine (hstamps r).mpr (.inr ⟨hr, fun hserved => ?_⟩)
      have hsent := (mem_takeWhile_iff.mp hserved.2).2.1
      rw [huser, hemail, hsend] at hsent
      simp at hsent

/-- One record for each of two users. -/
def twoRecipients : Store :=
  ⟨[⟨lit "1", lit "k", [], 0, lit "a", none, lit "e"⟩,
    ⟨lit "2", lit "k", [], 0, lit "b", none, lit "f"⟩], by decide⟩

/-- Searches that find nothing, except that those for one user fail. -/
def failsFor (user : String) : Outside where
  search r := if r.username = lit user then none else some ⟨[], 0⟩
  reformat _ := none
  send _ _ := true
  now _ _ := 1
  dateString := []
  order _ keys := keys
  order_perm _ keys := .refl keys

/-- Two addresses of one user, of which the first cannot be reached. -/
def twoAddresses : Store :=
  ⟨[⟨lit "1", lit "k", [], 0, lit "a", none, lit "e"⟩,
    ⟨lit "2", lit "k", [], 0, lit "a", none, lit "f"⟩], by decide⟩

/-- All searches go through, and the emails to one address fail. -/
def failsTo (email : String) : Outside :=
  { failsFor "" with send := fun _ recipientEmail => recipientEmail ≠ lit email }

/-- Only the last user has a query that fails. -/
theorem recipients_served_last :
    Succeeds (failsFor "b") twoRecipients [lit "a", lit "b"] (lit "a") (lit "e") ∧
      RecipientsServed (failsFor "b") twoRecipients [lit "a", lit "b"] := by
  refine ⟨⟨by decide, by decide +kernel, by decide +kernel, rfl⟩,
    (recipients_served_iff (failsFor "b") twoRecipients (by decide)).mpr
      fun user email hsucceeds => ?_⟩
  obtain ⟨r, hr, rfl, rfl⟩ := hsucceeds.record
  have hquery := hsucceeds.queries r hr rfl rfl
  rcases List.mem_cons.mp hr with rfl | hr
  · exact ⟨by decide +kernel, by decide +kernel, by decide +kernel⟩
  · obtain rfl := List.mem_singleton.mp hr
    exact absurd hquery (by decide +kernel)

/-- **Recipients that are dropped.** The second user gets no email because a query of
the first one fails; the second address gets none because the first cannot be
reached. -/
theorem recipients_dropped :
    ¬ RecipientsServed (failsFor "a") twoRecipients [lit "a", lit "b"] ∧
      ¬ RecipientsServed (failsTo "e") twoAddresses [lit "a"] := by
  constructor
  · rintro ⟨hrule, -⟩
    have hsucceeds : Succeeds (failsFor "a") twoRecipients [lit "a", lit "b"] (lit "b") (lit "f") :=
      ⟨by decide, by decide +kernel, by decide +kernel, rfl⟩
    have hsent :
        (SendEmailJob.execute (failsFor "a") [lit "a", lit "b"] ⟨twoRecipients, []⟩).sent = [] := by
      decide +kernel
    have hmail := (hrule _ _ hsucceeds).1
    rw [mailsTo, hsent] at hmail
    simp at hmail
  · rintro ⟨hrule, -⟩
    have hsucceeds : Succeeds (failsTo "e") twoAddresses [lit "a"] (lit "a") (lit "f") :=
      ⟨by decide, by decide +kernel, by decide +kernel, by decide⟩
    have hsent : (SendEmailJob.execute (failsTo "e") [lit "a"] ⟨twoAddresses, []⟩).sent = [] := by
      decide +kernel
    have hmail := (hrule _ _ hsucceeds).1
    rw [mailsTo, hsent] at hmail
    simp at hmail

end SpringReader
