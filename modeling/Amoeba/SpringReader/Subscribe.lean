import Amoeba.SpringReader.Scheduler

/-!
# Subscribing and unsubscribing

`HomeController.createsubscribe` and `HomeController.deletesubscribe`, one request
at a time. The first takes the user from the security context; it looks for the
subscription among the user's records, and the service looks for it again. The
second deletes whatever ids the client sends.

* `createsubscribe_exact_iff` — exactly when the answer and the effect of
  `createsubscribe` are right.
* `own_records_only_iff` — exactly when a sequence of requests of one user leaves
  the records of the others alone.
* `first_push_registered_iff` — exactly when each new subscription gets the job
  of its first push, in every order and whatever jobs have been removed.
-/

namespace SpringReader

open Java DocStore

/-! ### The handlers -/

/-- What the handlers work on. -/
structure World where
  /-- The names of the accounts. -/
  accounts : List JString
  keywords : Store
  quartz : Quartz

/-- What `createsubscribe` answers. -/
inductive Answer where
  /-- 关键词或邮箱不能为空 -/
  | emptyParameter
  /-- 该订阅内容已经存在 -/
  | alreadyExists
  /-- 订阅成功 -/
  | subscribed
  /-- A `NullPointerException`: the user has no account. -/
  | noAccount
  deriving DecidableEq, Repr

/-- The field `success` of the answer. -/
def Answer.success : Answer → Bool
  | .subscribed => true
  | _ => false

/-- A request for `createsubscribe`, the clock reading and the id that the driver
generates. -/
structure SubscribeRequest where
  user : JString
  keyword : JString
  email : JString
  now : Date
  newId : JString
  deriving DecidableEq, Repr

/-- The subscription that is asked for. -/
def SubscribeRequest.sub (decode : JString → JString) (q : SubscribeRequest) : Subscription :=
  ⟨q.user, decode q.keyword, q.email⟩

section

variable (decode : JString → JString)

/-- `createsubscribe`; `decode` is what it does to the keyword first. -/
def createsubscribe (w : World) (q : SubscribeRequest) : Answer × World :=
  if q.keyword.isEmpty || q.email.isEmpty then (.emptyParameter, w)
  else
    let keyword := decode q.keyword
    if (findByUsername w.keywords q.user).any fun r => r.name = keyword ∧ r.email = q.email then
      (.alreadyExists, w)
    else
      let w := { w with keywords := create keyword q.user q.email q.now q.newId w.keywords }
      -- the account is looked up first, and its name is read only here
      if q.user ∈ w.accounts then
        (.subscribed, { w with quartz := (createFirstPushTask q.user q.email keyword w.quartz).2 })
      else (.noAccount, w)

end

/-- The ids of a request for `deletesubscribe`: they stand between commas. -/
def requestIds (ids : JString) : List JString := if ids.isEmpty then [] else split 0x2c ids

/-- `deletesubscribe` -/
def deletesubscribe (w : World) (ids : JString) : World :=
  { w with keywords := (requestIds ids).foldl (fun s id => deleteById id s) w.keywords }

/-! ### Exactness -/

section

variable {decode : JString → JString} {w : World} {q : SubscribeRequest}

/-- The user has this subscription. -/
theorem any_findByUsername {s : Store} {u k e : JString} :
    ((findByUsername s u).any fun r => r.name = k ∧ r.email = e) = true ↔
      ∃ r ∈ s, r.sub = ⟨u, k, e⟩ := by
  simp only [List.any_eq_true, mem_findByUsername, decide_eq_true_eq, UserKeyword.sub,
    Subscription.mk.injEq]
  constructor
  · rintro ⟨r, ⟨hr, hu⟩, hk, he⟩
    exact ⟨r, hr, hu, hk, he⟩
  · rintro ⟨r, hr, hu, hk, he⟩
    exact ⟨r, ⟨hr, hu⟩, hk, he⟩

/-- **What `createsubscribe` does** with a keyword and an email. -/
theorem createsubscribe_cases (decode : JString → JString) (w : World)
    (hkeyword : q.keyword ≠ []) (hemail : q.email ≠ []) :
    ((∃ r ∈ w.keywords, r.sub = q.sub decode) ∧
        createsubscribe decode w q = (.alreadyExists, w)) ∨
      (∀ r ∈ w.keywords, r.sub ≠ q.sub decode) ∧
        (createsubscribe decode w q).2.accounts = w.accounts ∧
        (createsubscribe decode w q).2.keywords =
          create (decode q.keyword) q.user q.email q.now q.newId w.keywords ∧
        (q.user ∈ w.accounts → (createsubscribe decode w q).1 = .subscribed ∧
          (createsubscribe decode w q).2.quartz =
            (createFirstPushTask q.user q.email (decode q.keyword) w.quartz).2) := by
  have hempty : ¬ (q.keyword.isEmpty || q.email.isEmpty) := by simp [hkeyword, hemail]
  unfold createsubscribe
  rw [if_neg hempty]
  dsimp only
  by_cases hany : (findByUsername w.keywords q.user).any
      fun r => r.name = decode q.keyword ∧ r.email = q.email
  · rw [if_pos hany]
    exact .inl ⟨any_findByUsername.mp hany, rfl⟩
  · rw [if_neg hany]
    refine .inr ⟨fun r hr hsub => hany (any_findByUsername.mpr ⟨r, hr, hsub⟩), ?_⟩
    by_cases hu : q.user ∈ w.accounts
    · rw [if_pos hu]
      exact ⟨rfl, rfl, fun _ => ⟨rfl, rfl⟩⟩
    · rw [if_neg hu]
      exact ⟨rfl, rfl, fun h => absurd h hu⟩

/-- What `create` leaves, for an id that no record has. -/
theorem mem_create {k u e newId : JString} {now : Date} {s : Store} {x : UserKeyword}
    (hid : ∀ r ∈ s, r.key ≠ objectId newId) :
    x ∈ create k u e now newId s ↔
      x ∈ s ∨ (x = newKeyword k u e now newId ∧ ∀ r ∈ s, r.sub ≠ ⟨k, u, e⟩) := by
  have hfind : (findByUsernameAndNameAndEmail s k u e).isNone = true ↔
      ∀ r ∈ s, r.sub ≠ ⟨k, u, e⟩ := by
    rw [Option.isNone_iff_eq_none, find_eq_none]
  unfold create
  split
  next hnone =>
    rw [hfind] at hnone
    rw [Coll.mem_save_of_fresh hid]
    constructor
    · rintro (rfl | hx)
      · exact .inr ⟨rfl, hnone⟩
      · exact .inl hx
    · rintro (hx | ⟨rfl, -⟩)
      · exact .inr hx
      · exact .inl rfl
  next hsome =>
    rw [hfind] at hsome
    exact ⟨.inl, fun h => h.elim id fun h => absurd h.2 hsome⟩

/-- What is expected of the answer and of the store after a request. -/
structure Exact (decode : JString → JString) (w : World) (q : SubscribeRequest) : Prop where
  success_iff : (createsubscribe decode w q).1.success = true ↔
    ∀ r ∈ w.keywords, r.sub ≠ q.sub decode
  exists_one : ∃! r, r ∈ (createsubscribe decode w q).2.keywords ∧ r.sub = q.sub decode
  others : ∀ r, r.sub ≠ q.sub decode →
    (r ∈ (createsubscribe decode w q).2.keywords ↔ r ∈ w.keywords)
  unchanged : (createsubscribe decode w q).1.success = false →
    (createsubscribe decode w q).2.keywords = w.keywords

/-- **When subscribing is exact.** For every store in which no subscription has two
records, every user with an account, and every keyword and email that are not
empty: the answer is success exactly when there was no such record, afterwards
there is exactly one, all others are as before, and a failure changes nothing, if
and only if there was such a record already, or there is none with the name of
the user and the keyword exchanged. -/
theorem createsubscribe_exact_iff (hunique : Unique w.keywords) (huser : q.user ∈ w.accounts)
    (hkeyword : q.keyword ≠ []) (hemail : q.email ≠ [])
    (hid : ∀ r ∈ w.keywords, r.key ≠ objectId q.newId) :
    Exact decode w q ↔ (∃ r ∈ w.keywords, r.sub = q.sub decode) ∨
      ∀ r ∈ w.keywords, r.sub ≠ ⟨decode q.keyword, q.user, q.email⟩ := by
  rcases createsubscribe_cases decode w hkeyword hemail with
    ⟨⟨r, hr, hsub⟩, hcreate⟩ | ⟨hnew, -, hkeywords, hsuccess⟩
  · -- the subscription was there: nothing happens
    refine iff_of_true ?_ (.inl ⟨r, hr, hsub⟩)
    constructor
    · rw [hcreate]
      exact iff_of_false (by simp [Answer.success]) fun hall => hall r hr hsub
    · rw [hcreate]
      exact ⟨r, ⟨hr, hsub⟩, fun r' h' => hunique r' h'.1 r hr (h'.2.trans hsub.symm)⟩
    · exact fun r _ => by rw [hcreate]
    · exact fun _ => by rw [hcreate]
  · -- the subscription is new: the answer is success, whatever is stored
    obtain ⟨hanswer, -⟩ := hsuccess huser
    -- the lookup is by the exchanged arguments
    have hmem : ∀ x, x ∈ (createsubscribe decode w q).2.keywords ↔ x ∈ w.keywords ∨
        (x = newKeyword (decode q.keyword) q.user q.email q.now q.newId ∧
          ∀ r ∈ w.keywords, r.sub ≠ ⟨decode q.keyword, q.user, q.email⟩) := fun x => by
      rw [hkeywords, mem_create hid]
    constructor
    · intro hexact
      obtain ⟨r, ⟨hr, hsub⟩, -⟩ := hexact.exists_one
      rcases (hmem r).mp hr with hr | ⟨-, hnone⟩
      · exact absurd hsub (hnew r hr)
      · exact .inr hnone
    · rintro (⟨r, hr, hsub⟩ | hnone)
      · exact absurd hsub (hnew r hr)
      · constructor
        · rw [hanswer]
          exact iff_of_true rfl hnew
        · refine ⟨_, ⟨(hmem _).mpr (.inr ⟨rfl, hnone⟩), rfl⟩, fun r hr => ?_⟩
          rcases (hmem r).mp hr.1 with h | ⟨h, -⟩
          · exact absurd hr.2 (hnew r h)
          · exact h
        · intro r hsub
          rw [hmem]
          refine ⟨fun h => h.elim id fun h => absurd ?_ hsub, .inl⟩
          rw [h.1]
          rfl
        · intro hfail
          rw [hanswer] at hfail
          exact absurd hfail (by simp [Answer.success])

/-- A record with a short id. -/
def record (id username name email : String) : UserKeyword :=
  ⟨lit id, lit name, [], 0, lit username, none, lit email⟩

/-- The requests of the examples ask for the keyword `k`. -/
def askForK : SubscribeRequest := ⟨lit "u", lit "k", lit "e", 0, lit "2"⟩

/-- Another subscription of the same user. -/
theorem createsubscribe_exact_second :
    Exact id ⟨[lit "u"], ⟨[record "1" "u" "l" "e"], by decide⟩, .empty⟩ askForK := by
  refine (createsubscribe_exact_iff ?_ (by decide) (by decide) (by decide) ?_).mpr (.inr ?_)
  all_goals
    simp only [Unique, Coll.mem_def, List.mem_singleton]
  · rintro r rfl r' rfl -
    rfl
  · rintro r rfl
    decide
  · rintro r rfl
    decide

/-- **A subscription that is not made.** The user `k` has subscribed to `u` with the
same email. The user `u` who subscribes to `k` is told of success, and there is no
record. -/
theorem createsubscribe_lost :
    let s : Store := ⟨[record "1" "k" "u" "e"], by decide⟩
    let w : World := ⟨[lit "u", lit "k"], s, .empty⟩
    Unique s ∧ (createsubscribe id w askForK).1 = .subscribed ∧
      (createsubscribe id w askForK).2.keywords.docs = s.docs ∧ ¬ Exact id w askForK := by
  intro s w
  have hdocs : (createsubscribe id w askForK).2.keywords.docs = s.docs := by decide +kernel
  refine ⟨?_, by decide +kernel, hdocs, fun hexact => ?_⟩
  · simp only [Unique, Coll.mem_def, s, List.mem_singleton]
    rintro r rfl r' rfl -
    rfl
  · obtain ⟨r, ⟨hr, hsub⟩, -⟩ := hexact.exists_one
    rw [Coll.mem_def, hdocs] at hr
    obtain rfl := List.mem_singleton.mp hr
    exact absurd hsub (by decide)

end

/-! ### The records of other users -/

/-- The requests of a user. -/
inductive UserRequest where
  | subscribe (keyword email : JString) (now : Date) (newId : JString)
  | unsubscribe (ids : JString)
  deriving DecidableEq, Repr

/-- A request of the user `u`. -/
def handle (decode : JString → JString) (u : JString) (w : World) : UserRequest → World
  | .subscribe keyword email now newId =>
    (createsubscribe decode w ⟨u, keyword, email, now, newId⟩).2
  | .unsubscribe ids => deletesubscribe w ids

section

variable {decode : JString → JString} {u : JString}

theorem mem_foldl_deleteById {ids : List JString} {s : Store} {x : UserKeyword} :
    x ∈ ids.foldl (fun s id => deleteById id s) s ↔ x ∈ s ∧ ∀ id ∈ ids, x.key ≠ objectId id := by
  induction ids generalizing s with
  | nil => simp
  | cons id ids ih =>
    rw [List.foldl_cons, ih, deleteById, Coll.mem_delete, List.forall_mem_cons, and_assoc]

/-- The ids that a request deletes. -/
def UserRequest.ids : UserRequest → List JString
  | .subscribe _ _ _ _ => []
  | .unsubscribe ids => requestIds ids

/-- The id that the driver generates for a request. -/
def UserRequest.newId? : UserRequest → Option JString
  | .subscribe _ _ _ newId => some newId
  | .unsubscribe _ => none

/-- **One request** takes from the other users what its ids name. -/
theorem mem_handle (decode : JString → JString) (w : World) {q : UserRequest} {x : UserKeyword}
    (hx : x.username ≠ u)
    (hid : x ∈ w.keywords → ∀ newId ∈ q.newId?, x.key ≠ objectId newId) :
    x ∈ (handle decode u w q).keywords ↔ x ∈ w.keywords ∧ ∀ id ∈ q.ids, x.key ≠ objectId id := by
  cases q with
  | unsubscribe ids => exact mem_foldl_deleteById
  | subscribe keyword email now newId =>
    -- a record that is made belongs to the user of the request
    have hnew : ∀ k, x ≠ newKeyword k u email now newId := by
      rintro k rfl
      exact hx rfl
    have hcreate : ∀ k, x ∈ create k u email now newId w.keywords ↔ x ∈ w.keywords := by
      intro k
      unfold create
      split
      · rw [Coll.mem_save]
        constructor
        · rintro (h | ⟨h, -⟩)
          · exact absurd h (hnew k)
          · exact h
        · exact fun h => .inr ⟨h, hid h newId rfl⟩
      · exact Iff.rfl
    simp only [UserRequest.ids, List.not_mem_nil, false_implies, implies_true, and_true]
    unfold handle createsubscribe
    dsimp only
    split
    · exact Iff.rfl
    · split
      · exact Iff.rfl
      · split
        · exact hcreate _
        · exact hcreate _

/-- **A sequence of requests** takes from the other users what its ids name. -/
theorem mem_foldl_handle {reqs : List UserRequest} {w : World} {x : UserKeyword}
    (hx : x.username ≠ u)
    (hid : x ∈ w.keywords → ∀ q ∈ reqs, ∀ newId ∈ q.newId?, x.key ≠ objectId newId) :
    x ∈ (reqs.foldl (handle decode u) w).keywords ↔
      x ∈ w.keywords ∧ ∀ q ∈ reqs, ∀ id ∈ q.ids, x.key ≠ objectId id := by
  induction reqs generalizing w with
  | nil => simp
  | cons q reqs ih =>
    have hq := mem_handle decode w hx fun h => hid h q List.mem_cons_self
    have hrest : x ∈ (handle decode u w q).keywords → ∀ q ∈ reqs, ∀ newId ∈ q.newId?,
        x.key ≠ objectId newId :=
      fun h q' hq' => hid (hq.mp h).1 q' (List.mem_cons_of_mem _ hq')
    rw [List.foldl_cons, ih hrest, hq, List.forall_mem_cons, and_assoc]

/-- **When users touch only their own subscriptions.** For every store, every user and
every sequence of the user's requests, where the driver generates ids that are not
in the store: the records of all other users are the same before and after if and
only if no id of an unsubscribe request is the id of such a record. -/
theorem own_records_only_iff {reqs : List UserRequest} {w : World}
    (hid : ∀ q ∈ reqs, ∀ newId ∈ q.newId?, ∀ r ∈ w.keywords, r.key ≠ objectId newId) :
    (∀ r, r.username ≠ u → (r ∈ (reqs.foldl (handle decode u) w).keywords ↔ r ∈ w.keywords)) ↔
      ∀ ids, .unsubscribe ids ∈ reqs → ∀ id ∈ requestIds ids, ∀ r ∈ w.keywords, r.username ≠ u →
        r.key ≠ objectId id := by
  have hmem : ∀ r, r.username ≠ u → (r ∈ (reqs.foldl (handle decode u) w).keywords ↔
      r ∈ w.keywords ∧ ∀ q ∈ reqs, ∀ id ∈ q.ids, r.key ≠ objectId id) := fun r hr =>
    mem_foldl_handle hr fun h q hq newId hnew => hid q hq newId hnew r h
  constructor
  · intro hsame ids hids id hid' r hr hne
    -- a record that stays is named by no id
    obtain ⟨-, hall⟩ := (hmem r hne).mp ((hsame r hne).mpr hr)
    exact hall (.unsubscribe ids) hids id hid'
  · intro hall r hne
    rw [hmem r hne]
    refine ⟨And.left, fun hr => ⟨hr, fun q hq id hq' => ?_⟩⟩
    cases q with
    | subscribe => simp [UserRequest.ids] at hq'
    | unsubscribe ids => exact hall ids hq id hq' r hr hne

/-- A user who unsubscribes from a subscription of their own. -/
theorem own_records_only_own :
    let w : World := ⟨[lit "u"], ⟨[record "1" "u" "k" "e", record "2" "v" "k" "e"], by decide⟩, .empty⟩
    record "2" "v" "k" "e" ∈ w.keywords ∧ ∀ r, r.username ≠ lit "u" →
      (r ∈ ([.unsubscribe (lit "1,3")].foldl (handle id (lit "u")) w).keywords ↔ r ∈ w.keywords) := by
  refine ⟨List.mem_cons_of_mem _ List.mem_cons_self, ?_⟩
  refine (own_records_only_iff (by simp [UserRequest.newId?])).mpr ?_
  simp only [List.mem_singleton, Coll.mem_def]
  rintro ids ⟨⟩
  decide

/-- **Another user's record is deleted.** The user `u` sends the id of a record of the
user `v`. -/
theorem own_records_only_foreign :
    let w : World := ⟨[lit "u"], ⟨[record "1" "u" "k" "e", record "2" "v" "k" "e"], by decide⟩, .empty⟩
    let w' := [.unsubscribe (lit "2")].foldl (handle id (lit "u")) w
    w'.keywords.docs = [record "1" "u" "k" "e"] ∧
      ¬ ∀ r, r.username ≠ lit "u" → (r ∈ w'.keywords ↔ r ∈ w.keywords) := by
  intro w w'
  have hdocs : w'.keywords.docs = [record "1" "u" "k" "e"] := by decide +kernel
  refine ⟨hdocs, fun hall => ?_⟩
  have hv := (hall (record "2" "v" "k" "e") (by decide)).mpr
    (List.mem_cons_of_mem _ List.mem_cons_self)
  rw [Coll.mem_def, hdocs] at hv
  exact absurd (List.mem_singleton.mp hv) (by decide)

end

/-! ### First pushes -/

/-- What happens to the scheduler: requests, and first pushes that have run. -/
inductive PushEvent where
  | subscribe (q : SubscribeRequest)
  | ran (key : JobKey)
  deriving DecidableEq, Repr

/-- The requests among the events. -/
def requests (events : List PushEvent) : List SubscribeRequest :=
  events.filterMap fun
    | .subscribe q => some q
    | .ran _ => none

section

variable (decode : JString → JString)

/-- The identity of the job of a request. -/
def SubscribeRequest.jobKey (q : SubscribeRequest) : JobKey := firstPushKey q.user (decode q.keyword)

/-- Each request of the events registers a job of its own. -/
def AllRegistered : World → List PushEvent → Prop
  | _, [] => True
  | w, .subscribe q :: events =>
    (createFirstPushTask q.user q.email (decode q.keyword) w.quartz).1 = true ∧
      firstPushJob q.user q.email (decode q.keyword) ∈ (createsubscribe decode w q).2.quartz ∧
      AllRegistered (createsubscribe decode w q).2 events
  | w, .ran key :: events => AllRegistered { w with quartz := finished key w.quartz } events

/-- Requests for new subscriptions, from users with an account. -/
structure NewRequests (w : World) (qs : List SubscribeRequest) : Prop where
  distinct : (qs.map (SubscribeRequest.sub decode)).Nodup
  fresh : ∀ q ∈ qs, ∀ r ∈ w.keywords, r.sub ≠ q.sub decode
  account : ∀ q ∈ qs, q.user ∈ w.accounts
  email : ∀ q ∈ qs, q.email ≠ []
  keyword : ∀ q ∈ qs, q.keyword ≠ [] ∧ decode q.keyword ≠ []

end

section

variable {decode : JString → JString} {w : World}

/-- Only the subscription that is asked for can be new in the store. -/
theorem sub_of_mem_create {k u e newId : JString} {now : Date} {s : Store} {x : UserKeyword}
    (h : x ∈ create k u e now newId s) : x ∈ s ∨ x.sub = ⟨u, k, e⟩ := by
  unfold create at h
  split at h
  · rcases Coll.mem_save.mp h with rfl | ⟨hx, -⟩
    · exact .inr rfl
    · exact .inl hx
  · exact .inl h

/-- **What a new request does**: it comes to `createFirstPushTask`, and the later
requests are still new. -/
theorem NewRequests.step {q : SubscribeRequest} {qs : List SubscribeRequest}
    (h : NewRequests decode w (q :: qs)) :
    (createsubscribe decode w q).2.quartz =
        (createFirstPushTask q.user q.email (decode q.keyword) w.quartz).2 ∧
      NewRequests decode (createsubscribe decode w q).2 qs := by
  have hfresh := h.fresh q List.mem_cons_self
  obtain ⟨hdistinct, hnodup⟩ := List.nodup_cons.mp (List.map_cons ▸ h.distinct)
  rcases createsubscribe_cases decode w (h.keyword q List.mem_cons_self).1
      (h.email q List.mem_cons_self) with ⟨⟨r, hr, hsub⟩, -⟩ | ⟨-, haccounts, hkeywords, hsuccess⟩
  · exact absurd hsub (hfresh r hr)
  · refine ⟨(hsuccess (h.account q List.mem_cons_self)).2, hnodup, ?_, ?_, ?_, ?_⟩
    · intro q' hq' r hr hsub
      rw [hkeywords] at hr
      rcases sub_of_mem_create hr with hr | hr
      · exact h.fresh q' (List.mem_cons_of_mem _ hq') r hr hsub
      · -- the new record has the subscription of this request
        exact hdistinct (List.mem_map.mpr ⟨q', hq', hsub.symm.trans hr⟩)
    · intro q' hq'
      rw [haccounts]
      exact h.account q' (List.mem_cons_of_mem _ hq')
    · exact fun q' hq' => h.email q' (List.mem_cons_of_mem _ hq')
    · exact fun q' hq' => h.keyword q' (List.mem_cons_of_mem _ hq')

theorem NewRequests.perm {qs qs' : List SubscribeRequest} (h : NewRequests decode w qs)
    (hp : qs'.Perm qs) : NewRequests decode w qs' where
  distinct := (hp.map _).nodup_iff.mpr h.distinct
  fresh q hq := h.fresh q (hp.subset hq)
  account q hq := h.account q (hp.subset hq)
  email q hq := h.email q (hp.subset hq)
  keyword q hq := h.keyword q (hp.subset hq)

/-- **Names that differ** are all accepted, whatever is removed in between. -/
theorem allRegistered_of_nodup {events : List PushEvent}
    (hnew : NewRequests decode w (requests events))
    (hstored : ∀ q ∈ requests events, ∀ j ∈ w.quartz, j.key ≠ q.jobKey decode)
    (hnodup : ((requests events).map (SubscribeRequest.jobKey decode)).Nodup) :
    AllRegistered decode w events := by
  induction events generalizing w with
  | nil => trivial
  | cons event events ih =>
    cases event with
    | ran key =>
      refine ih ⟨hnew.distinct, hnew.fresh, hnew.account, hnew.email, hnew.keyword⟩ ?_ hnodup
      exact fun q hq j hj => hstored q hq j (mem_of_mem_finished hj)
    | subscribe q =>
      obtain ⟨hname, hrest⟩ := List.nodup_cons.mp (List.map_cons ▸ hnodup)
      obtain ⟨hquartz, hnew'⟩ := NewRequests.step hnew
      have hemail := hnew.email q List.mem_cons_self
      have hkeyword := (hnew.keyword q List.mem_cons_self).2
      have hfresh : firstPushKey q.user (decode q.keyword) ∉ w.quartz.docs.map Job.key := by
        intro hmem
        obtain ⟨j, hj, hkey⟩ := List.mem_map.mp hmem
        exact hstored q List.mem_cons_self j hj hkey
      obtain ⟨haccepted, hmem⟩ := createFirstPushTask_eq q.user hemail hkeyword w.quartz
      have htrue := haccepted.mpr hfresh
      refine ⟨htrue, ?_, ih hnew' ?_ hrest⟩
      · rw [hquartz]
        exact (createFirstPushTask_true htrue _).mpr (.inl rfl)
      · intro q' hq' j hj hkey
        rw [hquartz] at hj
        rcases hmem j hj with rfl | hj
        · exact hname (List.mem_map.mpr ⟨q', hq', hkey.symm⟩)
        · exact hstored q' (List.mem_cons_of_mem _ hq') j hj hkey

/-- **Accepted requests have names that differ**, when nothing is removed. -/
theorem nodup_of_allRegistered {qs : List SubscribeRequest} (hnew : NewRequests decode w qs)
    (h : AllRegistered decode w (qs.map .subscribe)) :
    (∀ q ∈ qs, ∀ j ∈ w.quartz, j.key ≠ q.jobKey decode) ∧
      (qs.map (SubscribeRequest.jobKey decode)).Nodup := by
  induction qs generalizing w with
  | nil => exact ⟨by simp, by simp⟩
  | cons q qs ih =>
    obtain ⟨htrue, -, hrest⟩ := h
    obtain ⟨hquartz, hnew'⟩ := NewRequests.step hnew
    have hfresh := (createFirstPushTask_eq _ (hnew.email q List.mem_cons_self)
      (hnew.keyword q List.mem_cons_self).2 w.quartz).1.mp htrue
    obtain ⟨hstored, hnodup⟩ := ih hnew' hrest
    -- what is stored stays, and the job of this request is stored
    have hmem : ∀ j, j ∈ (createsubscribe decode w q).2.quartz ↔
        j = firstPushJob q.user q.email (decode q.keyword) ∨ j ∈ w.quartz := fun j => by
      rw [hquartz, createFirstPushTask_true htrue]
    refine ⟨List.forall_mem_cons.mpr ⟨?_, ?_⟩, List.nodup_cons.mpr ⟨?_, hnodup⟩⟩
    · exact fun j hj hkey => hfresh (List.mem_map.mpr ⟨j, hj, hkey⟩)
    · exact fun q' hq' j hj => hstored q' hq' j ((hmem j).mpr (.inr hj))
    · intro hname
      obtain ⟨q', hq', hkey⟩ := List.mem_map.mp hname
      exact hstored q' hq' _ ((hmem _).mpr (.inl rfl)) hkey.symm

theorem requests_map_subscribe (qs : List SubscribeRequest) :
    requests (qs.map .subscribe) = qs := by
  induction qs with
  | nil => rfl
  | cons q qs ih => exact congrArg (q :: ·) ih

/-- The scheduler after `init`. -/
theorem mem_startCyclePushTask {j : Job} :
    j ∈ startCyclePushTask .empty ↔ j = ⟨dailyKey, .daily⟩ := by
  have hdocs : (startCyclePushTask .empty).docs = [⟨dailyKey, .daily⟩] := by decide +kernel
  rw [Coll.mem_def, hdocs, List.mem_singleton]

/-- **When every new subscription gets its first push.** For every finite set of
distinct new subscriptions, with the daily push registered: in every order of the
requests, and whatever first pushes have run and been removed in between, each
request registers its own job, if and only if no name of a user followed by the
keyword is `DIALYPUSH`, and no two of them are equal. -/
theorem first_push_registered_iff {qs : List SubscribeRequest} (hnew : NewRequests decode w qs)
    (hquartz : w.quartz = startCyclePushTask .empty) :
    (∀ events, (requests events).Perm qs → AllRegistered decode w events) ↔
      (∀ q ∈ qs, q.user ++ decode q.keyword ≠ lit "DIALYPUSH") ∧
        (qs.map fun q => q.user ++ decode q.keyword).Nodup := by
  have hdaily : (∀ q ∈ qs, ∀ j ∈ w.quartz, j.key ≠ q.jobKey decode) ↔
      ∀ q ∈ qs, q.user ++ decode q.keyword ≠ lit "DIALYPUSH" := by
    refine forall₂_congr fun q _ => ?_
    simp only [hquartz, mem_startCyclePushTask, forall_eq]
    simp [dailyKey, SubscribeRequest.jobKey, firstPushKey, eq_comm]
  have hnames : (qs.map (SubscribeRequest.jobKey decode)).Nodup ↔
      (qs.map fun q => q.user ++ decode q.keyword).Nodup := by
    have hcomp : qs.map (SubscribeRequest.jobKey decode) =
        (qs.map fun q => q.user ++ decode q.keyword).map fun name => ⟨name, sendEmailGroup⟩ := by
      rw [List.map_map]
      rfl
    rw [hcomp]
    exact List.nodup_map_iff fun a b hab => (JobKey.mk.inj hab).1
  rw [← hdaily, ← hnames]
  constructor
  · intro hall
    refine nodup_of_allRegistered hnew (hall _ ?_)
    rw [requests_map_subscribe]
  · rintro ⟨hstored, hnodup⟩ events hp
    refine allRegistered_of_nodup (hnew.perm hp) ?_ ((hp.map _).nodup_iff.mpr hnodup)
    exact fun q hq => hstored q (hp.subset hq)

/-- Two requests of one user. -/
def twoRequests (keyword email keyword' email' : String) : List SubscribeRequest :=
  [⟨lit "u", lit keyword, lit email, 0, lit "1"⟩, ⟨lit "u", lit keyword', lit email', 0, lit "2"⟩]

/-- An application that has just started. -/
def startedWorld : World := ⟨[lit "u"], .empty, startCyclePushTask .empty⟩

theorem newRequests_two {keyword email keyword' email' : String}
    (h : ((twoRequests keyword email keyword' email').map (SubscribeRequest.sub id)).Nodup)
    (hne : ∀ q ∈ twoRequests keyword email keyword' email', q.email ≠ [] ∧ q.keyword ≠ []) :
    NewRequests id startedWorld (twoRequests keyword email keyword' email') where
  distinct := h
  fresh q _ r hr := absurd hr List.not_mem_nil
  account q hq := by
    simp only [twoRequests, List.mem_cons, List.not_mem_nil, or_false] at hq
    rcases hq with rfl | rfl <;> exact List.mem_cons_self
  email q hq := (hne q hq).1
  keyword q hq := ⟨(hne q hq).2, (hne q hq).2⟩

/-- Two keywords. -/
theorem first_push_registered_two_keywords :
    NewRequests id startedWorld (twoRequests "k" "e" "l" "e") ∧
      ∀ events, (requests events).Perm (twoRequests "k" "e" "l" "e") →
        AllRegistered id startedWorld events := by
  have hnew : NewRequests id startedWorld (twoRequests "k" "e" "l" "e") :=
    newRequests_two (by decide) (by decide)
  exact ⟨hnew, (first_push_registered_iff hnew rfl).mpr ⟨by decide, by decide⟩⟩

/-- **A first push that is rejected.** One user subscribes to one keyword with two
emails. The second request finds the name of the first one's job; its own job is
not registered, and the user is told of success. -/
theorem first_push_rejected :
    let qs := twoRequests "k" "e" "k" "f"
    let w := (createsubscribe id startedWorld ⟨lit "u", lit "k", lit "e", 0, lit "1"⟩).2
    let q : SubscribeRequest := ⟨lit "u", lit "k", lit "f", 0, lit "2"⟩
    NewRequests id startedWorld qs ∧ (createFirstPushTask q.user q.email q.keyword w.quartz).1 = false ∧
      (createsubscribe id w q).1 = .subscribed ∧
      ¬ ∀ events, (requests events).Perm qs → AllRegistered id startedWorld events := by
  intro qs w q
  have hrejected : (createFirstPushTask q.user q.email q.keyword w.quartz).1 = false := by
    decide +kernel
  refine ⟨newRequests_two (by decide) (by decide), hrejected, by decide +kernel, fun hall => ?_⟩
  obtain ⟨-, -, htrue, -⟩ := hall (qs.map .subscribe) (by rw [requests_map_subscribe])
  exact absurd (htrue.symm.trans hrejected) (by simp)

end

end SpringReader
