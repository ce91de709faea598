import Amoeba.SpringReader.Machine
import Amoeba.SpringReader.DailyPush
import Mathlib.Logic.Relation
import Mathlib.Data.List.Dedup

/-!
# Threads that are not interrupted

The handlers and jobs stand in this development twice: as functions on the records,
and cut into steps. A thread that takes its steps one after the other, with no other
thread in between and the clock at rest, leaves the records that the functions
compute.

* `alone_create`, `alone_deleteIds` — the two requests.
* `alone_firstFind`, `alone_dailyFind` — the two updates of the date.
* `alone_daily` — a whole run of the daily push, with all its failures.
-/

namespace SpringReader

open Java DocStore

/-- One thread takes some steps on its own. -/
def Alone : Thread × Shared → Thread × Shared → Prop :=
  Relation.ReflTransGen fun p q => ∃ x, next p.1 p.2 (.go x) = some q

/-- A thread comes on its own from `t` to `t'`, leaves these records, and the clock has
not moved. -/
def Reaches (t : Thread) (s : Shared) (t' : Thread) (keywords : Store) : Prop :=
  ∃ s', Alone (t, s) (t', s') ∧ s'.clock = s.clock ∧ s'.keywords = keywords

theorem Reaches.refl (t : Thread) (s : Shared) : Reaches t s t s.keywords := ⟨s, .refl, rfl, rfl⟩

theorem Reaches.trans {t t' t'' : Thread} {s : Shared} {k k' : Store} (h : Reaches t s t' k)
    (h' : ∀ s', s'.clock = s.clock → s'.keywords = k → Reaches t' s' t'' k') :
    Reaches t s t'' k' := by
  obtain ⟨s', halone, hclock, hkeywords⟩ := h
  obtain ⟨s'', halone', hclock', hkeywords'⟩ := h' s' hclock hkeywords
  exact ⟨s'', halone.trans halone', hclock'.trans hclock, hkeywords'⟩

/-- A step at the time of the clock, and what comes behind it. -/
theorem Reaches.step {t t' t'' : Thread} {s s' : Shared} {x : Input} {k : Store}
    (hgo : go t s x = some (t', s')) (hnow : x.now = s.clock) (hclock : s'.clock = s.clock)
    (h : Reaches t' s' t'' k) : Reaches t s t'' k := by
  obtain ⟨s'', halone, hclock', hkeywords⟩ := h
  have hnext : next t s (.go x) = some (t', s') := by
    rw [next_go, hnow]
    exact ⟨Int.le_refl _, hgo⟩
  exact ⟨s'', .head ⟨x, hnext⟩ halone, hclock'.trans hclock, hkeywords⟩

/-- What a step reads while the clock is at rest. -/
def Shared.input (s : Shared) (ok : Bool) (newId : JString) (order : List JString) : Input :=
  ⟨s.clock, ok, newId, order⟩

/-- `UserKeywordsService.create`, for an id that no record has. -/
theorem alone_create (sub : Subscription) (s : Shared) {newId : JString}
    (hid : objectId newId ∉ s.keywords.docs.map UserKeyword.key) :
    Reaches (.createLookup sub) s .done
      (create sub.name sub.username sub.email s.clock newId s.keywords) := by
  unfold create
  by_cases hnone : (findByUsernameAndNameAndEmail s.keywords sub.name sub.username sub.email).isNone
  · rw [if_pos hnone]
    refine .step (x := s.input true newId []) (if_pos hnone) rfl rfl ?_
    refine .step (x := s.input true newId []) (if_neg hid) rfl rfl ?_
    exact .refl _ _
  · rw [if_neg hnone]
    exact .step (x := s.input true newId []) (if_neg hnone) rfl rfl (.refl _ _)

/-- `deletesubscribe` -/
theorem alone_deleteIds (ids : List JString) (s : Shared) :
    Reaches (.deleteIds ids) s .done (ids.foldl (fun s id => deleteById id s) s.keywords) := by
  induction ids generalizing s with
  | nil => exact .step (x := s.input true [] []) rfl rfl rfl (.refl _ _)
  | cons id ids ih => exact .step (x := s.input true [] []) rfl rfl rfl (ih _)

/-- The records that an update has found. -/
theorem alone_rewriting (d : Date) (todo : List UserKeyword) (rest : Option Mailing) (s : Shared) :
    Reaches (.rewriting d todo rest) s (resume rest) (todo.foldl (rewrite d) s.keywords) := by
  induction todo generalizing s with
  | nil => exact .step (x := s.input true [] []) rfl rfl rfl (.refl _ _)
  | cons r todo ih =>
    refine .step (x := s.input true [] []) rfl rfl rfl ?_
    exact .step (x := s.input true [] []) rfl rfl rfl (ih _)

/-- `updateLastpushdate` -/
theorem alone_firstFind (sub : Subscription) (n : Nat) (d : Date) (s : Shared) :
    Reaches (.firstFind sub n d) s .done
      (updateLastpushdate sub.name sub.username sub.email d s.keywords) := by
  unfold updateLastpushdate
  cases hfind : findByUsernameAndNameAndEmail s.keywords sub.username sub.name sub.email with
  | none => exact .step (x := s.input true [] []) (by simp [go, hfind]) rfl rfl (.refl _ _)
  -- the record that was found is saved with its date
  | some r =>
    exact .step (x := s.input true [] []) (by simp [go, hfind]) rfl rfl (alone_rewriting d [r] none s)

/-- `updateLastpushdateAllKeyword` -/
theorem alone_dailyFind (email : JString) (m : Mailing) (d : Date) (s : Shared) :
    Reaches (.dailyFind email m d) s (.dailySend m)
      (updateLastpushdateAllKeyword m.user email d s.keywords) :=
  .step (x := s.input true [] []) rfl rfl rfl (alone_rewriting d _ (some m) s)

section

variable {w : Outside} {user : JString} {users : List JString}

/-- The queries of a user, when all go through. -/
theorem alone_dailyQuery (user : JString) (users : List JString) {todo : List UserKeyword}
    (h : ∀ r ∈ todo, (queryRecord w r).isSome = true) (own : List (JString × Nat)) (s : Shared) :
    ∃ own', own'.map Prod.fst = todo.map UserKeyword.email ∧
      Reaches (.dailyQuery user users todo own) s (.dailyQuery user users [] (own ++ own'))
        s.keywords := by
  induction todo generalizing own s with
  | nil => exact ⟨[], rfl, by simpa using Reaches.refl _ s⟩
  | cons r todo ih =>
    obtain ⟨-, h⟩ := List.forall_mem_cons.mp h
    obtain ⟨own', hown', hreaches⟩ := ih h (own ++ [(r.email, s.queries.length)])
      { s with queries := s.queries ++ [⟨r.sub, r.lastpushdate, s.clock, false⟩] }
    -- the result of the query is kept under its number
    refine ⟨(r.email, s.queries.length) :: own', by simp [hown'], ?_⟩
    rw [List.append_cons]
    exact .step (x := s.input true [] []) rfl rfl rfl hreaches

/-- The queries of a user, when one throws. -/
theorem alone_dailyQuery_throws {todo : List UserKeyword}
    (h : ∃ r ∈ todo, queryRecord w r = none) (own : List (JString × Nat)) (s : Shared) :
    Reaches (.dailyQuery user users todo own) s .done s.keywords := by
  induction todo generalizing own s with
  | nil => simp at h
  | cons r todo ih =>
    cases hquery : queryRecord w r with
    | none => exact .step (x := s.input false [] []) rfl rfl rfl (.refl _ _)
    | some html =>
      -- the query that throws is a later one
      have hrest : ∃ r ∈ todo, queryRecord w r = none := by simpa [hquery] using h
      exact .step (x := s.input true [] []) rfl rfl rfl (ih hrest _ _)

/-- The loop over the addresses. -/
theorem alone_sendAll (users : List JString) {s : Shared}
    (hnow : ∀ email, w.now user email = s.clock) (map : HtmlResultMap) (emails : List JString)
    (own : List (JString × Nat)) (sent : List Mail) :
    Reaches (.dailySend ⟨user, users, emails, own⟩) s (.daily users)
      (sendAll w user map emails ⟨s.keywords, sent⟩).keywords := by
  induction emails generalizing s sent with
  | nil => exact .step (x := s.input true [] []) rfl rfl rfl (.refl _ _)
  | cons email emails ih =>
    rw [sendAll]
    by_cases hsend : w.send user email = true
    · rw [if_pos hsend, hnow email]
      refine .step (x := s.input true [] []) rfl rfl rfl ?_
      refine .step (x := s.input true [] []) rfl rfl rfl ?_
      refine (alone_dailyFind email _ s.clock _).trans fun s' hclock hkeywords => ?_
      -- what the email changed, the next one finds
      have hrest := ih (s := s') (fun e => (hnow e).trans hclock.symm)
        (sent ++ [dailyMail w user email (getHtml map email)])
      rw [hkeywords] at hrest
      exact hrest
    · rw [if_neg hsend]
      exact .step (x := s.input false [] []) rfl rfl rfl (.refl _ _)

end

/-- The keys of the map are the addresses of the queries. -/
theorem emailsOf_perm (rs : List UserKeyword) :
    (emailsOf rs []).Perm (rs.map UserKeyword.email).dedup := by
  refine (List.perm_ext_iff_of_nodup (nodup_emailsOf List.nodup_nil) (List.nodup_dedup _)).mpr ?_
  intro email
  simp [mem_emailsOf]

/-- **The daily push on its own** leaves the records that `SendEmailJob.execute`
computes, for all searches and emails that fail. -/
theorem alone_daily {w : Outside} {s : Shared} (hnow : ∀ user email, w.now user email = s.clock)
    (users : List JString) (sent : List Mail) :
    Reaches (.daily users) s .done (SendEmailJob.execute w users ⟨s.keywords, sent⟩).keywords := by
  induction users generalizing s sent with
  | nil => exact .step (x := s.input true [] []) rfl rfl rfl (.refl _ _)
  | cons user users ih =>
    refine .step (x := s.input true [] []) rfl rfl rfl ?_
    rw [SendEmailJob.execute]
    dsimp only
    -- either a query throws and the job is over, or all results are there
    rcases collectHtml_cases w s.keywords user with ⟨-, hcollect⟩ |
      ⟨hanswered, map, hcollect, horder, -⟩
    · rw [hcollect]
      exact alone_dailyQuery_throws ((collectHtml_eq_none w).mp hcollect) [] _
    · rw [hcollect]
      dsimp only
      rw [horder]
      obtain ⟨own, hown, hqueries⟩ :=
        alone_dailyQuery user users (List.all_eq_true.mp hanswered) [] s
      refine hqueries.trans fun s' hclock hkeywords => ?_
      -- the order of the map
      have hperm : (addresses w s.keywords user).Perm (own.map Prod.fst).dedup := by
        rw [hown]
        exact (w.order_perm _ _).trans (emailsOf_perm _)
      refine .step (x := s'.input true [] (addresses w s.keywords user)) (if_pos hperm) rfl rfl ?_
      have hsend := alone_sendAll users (fun e => (hnow user e).trans hclock.symm) map
        (addresses w s.keywords user) own sent
      rw [hkeywords] at hsend
      refine hsend.trans fun s'' hclock' hkeywords' => ?_
      have hrest := ih (s := s'') (fun u e => (hnow u e).trans (hclock.symm.trans hclock'.symm))
        (sendAll w user map (addresses w s.keywords user) ⟨s.keywords, sent⟩).sent
      rw [hkeywords'] at hrest
      exact hrest

end SpringReader
