import Amoeba.SpringReader.Machine
import Mathlib.Data.List.Chain
import Mathlib.Data.Int.Order.Basic

/-!
# The time ranges of the pushes

A push asks for articles from the stored date of the last push up to the present
time, and stores another reading of the clock once the email is out. The stored
date is the lower bound of the next push. Nothing ties it to the upper bound of the
query, and an update of all records of a pair also reaches records that the job has
not queried.

* `windows_run` — in every run in which a date is stored for the subscription only
  while the clock still shows the upper bound of one of its successful pushes, each
  successful push starts where an earlier one has reached.
-/

namespace SpringReader

open Java DocStore Interleaving

/-! ### Ranges without gaps -/

/-- The successful pushes of a subscription, in the order of their queries. -/
def pushes (sub : Subscription) (queries : List Query) : List Query :=
  queries.filter fun q => q.sub = sub ∧ q.sent

theorem mem_pushes {sub : Subscription} {queries : List Query} {q : Query} :
    q ∈ pushes sub queries ↔ q ∈ queries ∧ q.sub = sub ∧ q.sent = true := by
  simp [pushes]

/-- The later push starts where the earlier one has reached. -/
def Adjoins (p q : Query) : Prop := ∀ l ∈ q.lower, l ≤ p.upper

/-- The timestamp lies in the range of the query. -/
def Query.spans (q : Query) (τ : Date) : Prop := (∀ l ∈ q.lower, l ≤ τ) ∧ τ ≤ q.upper

/-- **Ranges that adjoin leave nothing out** between the first and the last upper
bound. -/
theorem exists_spans {qs : List Query} (hchain : qs.IsChain Adjoins) {p q : Query}
    (hp : qs.head? = some p) (hq : qs.getLast? = some q) {τ : Date} (hlow : p.upper < τ)
    (hhigh : τ ≤ q.upper) : ∃ w ∈ qs, w.spans τ := by
  induction qs generalizing p with
  | nil => simp at hp
  | cons p' rest ih =>
    obtain rfl : p' = p := by simpa using hp
    cases rest with
    | nil =>
      obtain rfl : p' = q := by simpa using hq
      exact absurd hhigh (not_le.mpr hlow)
    | cons w rest =>
      obtain ⟨hadjoins, hchain⟩ := List.isChain_cons_cons.mp hchain
      by_cases hτ : τ ≤ w.upper
      · exact ⟨w, by simp, fun l hl => (hadjoins l hl).trans hlow.le, hτ⟩
      · rw [List.getLast?_cons_cons] at hq
        obtain ⟨v, hv, hspans⟩ := ih hchain rfl hq (not_le.mp hτ)
        exact ⟨v, List.mem_cons_of_mem _ hv, hspans⟩

/-- A successful push among the first `n` queries reaches up to the date. -/
def Reached (sub : Subscription) (queries : List Query) (n : Nat) (d : Date) : Prop :=
  ∃ m p, m < n ∧ queries[m]? = some p ∧ p.sub = sub ∧ p.sent = true ∧ d ≤ p.upper

/-- The last of the queries reaches as far as all of them. -/
theorem upper_le_of_getLast? {qs : List Query} (hsorted : (qs.map Query.upper).Pairwise (· ≤ ·))
    {p q : Query} (hp : qs.getLast? = some p) (hq : q ∈ qs) : q.upper ≤ p.upper := by
  obtain ⟨init, rfl⟩ := List.getLast?_eq_some_iff.mp hp
  rw [List.map_append, List.pairwise_append] at hsorted
  obtain ⟨-, -, hlast⟩ := hsorted
  rcases List.mem_append.mp hq with hq | hq
  · exact hlast _ (List.mem_map_of_mem hq) _ List.mem_cons_self
  · rw [List.mem_singleton.mp hq]

/-- **Reached lower bounds make a chain**, because the last push before a query
reaches at least as far as all before it. -/
theorem isChain_pushes {sub : Subscription} {qs : List Query}
    (hsorted : (qs.map Query.upper).Pairwise (· ≤ ·))
    (hlower : ∀ n q, qs[n]? = some q → q.sub = sub → ∀ l ∈ q.lower, Reached sub qs n l) :
    (pushes sub qs).IsChain Adjoins := by
  induction qs using List.reverseRecOn with
  | nil => exact List.isChain_nil
  | append_singleton qs q ih =>
    rw [List.map_append, List.pairwise_append] at hsorted
    obtain ⟨hsorted, -, -⟩ := hsorted
    -- the queries in front of the last one are the same
    have hreached : ∀ n l, n ≤ qs.length → Reached sub (qs ++ [q]) n l → Reached sub qs n l := by
      rintro n l hn ⟨m, p, hm, hget, hp⟩
      rw [List.getElem?_append_left (by omega)] at hget
      exact ⟨m, p, hm, hget, hp⟩
    have hchain : (pushes sub qs).IsChain Adjoins := by
      refine ih hsorted fun n p hget hsub l hl => ?_
      have hn := (List.getElem?_eq_some_iff.mp hget).1
      refine hreached n l hn.le (hlower n p ?_ hsub l hl)
      rw [List.getElem?_append_left hn, hget]
    rw [pushes, List.filter_append]
    refine List.isChain_append.mpr ⟨hchain, ?_, fun p hp q' hq' l hl => ?_⟩
    · rw [List.filter_singleton]
      cases decide (q.sub = sub ∧ q.sent = true) <;> simp
    · have hq := List.mem_filter.mp (List.mem_of_mem_head? hq')
      simp only [List.mem_singleton, decide_eq_true_eq] at hq
      obtain ⟨rfl, hsub, -⟩ := hq
      have hcover := hlower qs.length q' List.getElem?_concat_length hsub l hl
      obtain ⟨m, p', hm, hget, hsub', hsent', hle⟩ := hreached _ _ le_rfl hcover
      -- the push that reaches the bound is one of those of which `p` is the last
      have hmem : p' ∈ pushes sub qs :=
        mem_pushes.mpr ⟨List.mem_of_getElem? hget, hsub', hsent'⟩
      have hsorted' : ((pushes sub qs).map Query.upper).Pairwise (· ≤ ·) :=
        hsorted.sublist (List.filter_sublist.map _)
      exact hle.trans (upper_le_of_getLast? hsorted' hp hmem)

/-! ### Steps -/

/-- The records that a thread carries with the dates it is going to ask from or to
store. -/
def Thread.carried : Thread → List UserKeyword
  | .dailyQuery _ _ todo _ => todo
  | .rewriting d todo _ => todo.map (·.setLastpushdate d)
  | .saving d r todo _ => (r :: todo).map (·.setLastpushdate d)
  | _ => []

theorem resume_carried (rest : Option Mailing) : (resume rest).carried = [] := by
  cases rest <;> rfl

/-- The date that a thread is about to store, and the records it is going to find for
it. -/
def Thread.update (s : Store) : Thread → Option (Date × List UserKeyword)
  | .firstFind sub _ d =>
    some (d, (findByUsernameAndNameAndEmail s sub.username sub.name sub.email).toList)
  | .dailyFind email m d => some (d, findByUsernameAndEmail s m.user email)
  | _ => none

/-- **The condition on a step**: when a job is about to store a date for the
subscription, the clock has shown the date already in the query of a successful push
of the subscription. -/
def Prompt (sub : Subscription) (c : Config Thread Shared) (i : Nat) (a : Label) : Prop :=
  a ≠ .crash → ∀ t d rs, c.threads[i]? = some t → t.update c.shared.keywords = some (d, rs) →
    (∃ r ∈ rs, r.sub = sub) → ∃ q ∈ c.shared.queries, q.sub = sub ∧ q.sent = true ∧ d ≤ q.upper

section

variable {t t' : Thread} {s s' : Shared} {x : Input}

/-- **What a step does to the queries**: nothing, it marks some as mailed, or it adds
one up to the present time, from no date or from that of a record it carries. -/
theorem go_queries (h : go t s x = some (t', s')) :
    s'.queries = s.queries ∨ (∃ ns, s'.queries = markSent ns s.queries) ∨
      ∃ q : Query, s'.queries = s.queries ++ [q] ∧ q.upper = x.now ∧
        (q.lower = none ∨ ∃ r ∈ t.carried, q.sub = r.sub ∧ q.lower = r.lastpushdate) := by
  cases goes_of_go h with
  | firstQueried => exact .inr (.inr ⟨_, rfl, rfl, .inl rfl⟩)
  | dailyQueried =>
    exact .inr (.inr ⟨_, rfl, rfl, .inr ⟨_, List.mem_cons_self, rfl, rfl⟩⟩)
  | firstSent => exact .inr (.inl ⟨_, rfl⟩)
  | dailySent => exact .inr (.inl ⟨_, rfl⟩)
  | _ => exact .inl rfl

/-- **What a step does to the records**: a record afterwards was there, or the thread
carried it, or it is new and has no date. -/
theorem go_keywords (h : go t s x = some (t', s')) :
    ∀ r ∈ s'.keywords, r ∈ s.keywords ∨ r ∈ t.carried ∨ r.lastpushdate = none := by
  intro r hr
  cases goes_of_go h with
  | createSaved =>
    obtain rfl | ⟨hr, -⟩ := Coll.mem_save.mp hr
    · exact .inr (.inr rfl)
    · exact .inl hr
  | deleteNext => exact .inl (Coll.mem_delete.mp hr).1
  | rewriteDelete => exact .inl (Coll.mem_delete.mp hr).1
  | rewriteSave =>
    obtain rfl | ⟨hr, -⟩ := Coll.mem_save.mp hr
    · exact .inr (.inl List.mem_cons_self)
    · exact .inl hr
  | _ => exact .inl hr

/-- **What a thread carries after a step**: what it carried, what was stored, or the
date that it is about to store. -/
theorem go_carried (h : go t s x = some (t', s')) :
    s'.clock = s.clock ∧ ∀ r ∈ t'.carried, r ∈ t.carried ∨ r ∈ s.keywords ∨
      ∃ d rs, t.update s.keywords = some (d, rs) ∧ ∃ r₀ ∈ rs, r = r₀.setLastpushdate d := by
  cases goes_of_go h with
  -- the record that is found gets the date that the job is about to store
  | firstFound hfind =>
    refine ⟨rfl, fun r hr => .inr (.inr ⟨_, _, rfl, _, ?_, List.mem_singleton.mp hr⟩)⟩
    rw [hfind]
    exact List.mem_singleton_self _
  -- the records are read from the store, with the dates they have there
  | dailyUser => exact ⟨rfl, fun r hr => .inr (.inl (mem_findByUsername.mp hr).1)⟩
  | dailyQueried => exact ⟨rfl, fun r hr => .inl (List.mem_cons_of_mem _ hr)⟩
  | dailyFound =>
    refine ⟨rfl, fun r hr => ?_⟩
    obtain ⟨r₀, hr₀, rfl⟩ := List.mem_map.mp hr
    exact .inr (.inr ⟨_, _, rfl, r₀, hr₀, rfl⟩)
  | rewritten =>
    refine ⟨rfl, fun r hr => ?_⟩
    rw [resume_carried] at hr
    exact absurd hr List.not_mem_nil
  | rewriteDelete => exact ⟨rfl, fun r hr => .inl hr⟩
  | rewriteSave => exact ⟨rfl, fun r hr => .inl (List.mem_cons_of_mem _ hr)⟩
  | _ => exact ⟨rfl, fun r hr => absurd hr List.not_mem_nil⟩

end

/-! ### The invariant -/

/-- Queries that are made and mailed later take nothing away. -/
def Grows (qs qs' : List Query) : Prop :=
  ∀ (n : Nat) (q : Query), qs[n]? = some q →
    ∃ q' : Query, qs'[n]? = some q' ∧ q'.sub = q.sub ∧ q'.upper = q.upper ∧
      (q.sent = true → q'.sent = true)

theorem Reached.mono {sub : Subscription} {qs qs' : List Query} {n n' : Nat} {d : Date}
    (h : Reached sub qs n d) (hgrows : Grows qs qs') (hn : n ≤ n') : Reached sub qs' n' d := by
  obtain ⟨m, p, hm, hget, hsub, hsent, hle⟩ := h
  obtain ⟨p', hget', hsub', hupper', hsent'⟩ := hgrows m p hget
  refine ⟨m, p', hm.trans_le hn, hget', hsub'.trans hsub, hsent' hsent, ?_⟩
  rw [hupper']
  exact hle

/-- A query and its copy in the list with some marked as mailed. -/
theorem getElem?_markSent {ns : List Nat} {qs : List Query} {n : Nat} {q' : Query}
    (h : (markSent ns qs)[n]? = some q') :
    ∃ q, qs[n]? = some q ∧ q'.sub = q.sub ∧ q'.lower = q.lower ∧ q'.upper = q.upper := by
  rw [markSent, List.getElem?_mapIdx] at h
  obtain ⟨q, hget, rfl⟩ := Option.map_eq_some_iff.mp h
  refine ⟨q, hget, ?_⟩
  split <;> exact ⟨rfl, rfl, rfl⟩

theorem grows_markSent (ns : List Nat) (qs : List Query) : Grows qs (markSent ns qs) := by
  intro n q hget
  refine ⟨_, by rw [markSent, List.getElem?_mapIdx, hget, Option.map_some], ?_⟩
  -- a mark changes neither the subscription nor the range
  split
  · exact ⟨rfl, rfl, fun _ => rfl⟩
  · exact ⟨rfl, rfl, id⟩

theorem grows_append (qs : List Query) (q : Query) : Grows qs (qs ++ [q]) := by
  intro n p hget
  have hn := (List.getElem?_eq_some_iff.mp hget).1
  exact ⟨p, by rw [List.getElem?_append_left hn, hget], rfl, rfl, id⟩

theorem map_upper_markSent (ns : List Nat) (qs : List Query) :
    (markSent ns qs).map Query.upper = qs.map Query.upper := by
  refine List.ext_getElem? fun n => ?_
  rw [markSent, List.getElem?_map, List.getElem?_map, List.getElem?_mapIdx, Option.map_map]
  congr 1
  funext q
  simp only [Function.comp_apply]
  split <;> rfl

/-- If the record is one of the subscription, its date is reached. -/
def Dated (sub : Subscription) (qs : List Query) (r : UserKeyword) : Prop :=
  r.sub = sub → ∀ d ∈ r.lastpushdate, Reached sub qs qs.length d

theorem Dated.mono {sub : Subscription} {qs qs' : List Query} {r : UserKeyword}
    (h : Dated sub qs r) (hgrows : Grows qs qs') (hlen : qs.length ≤ qs'.length) :
    Dated sub qs' r :=
  fun hsub d hd => (h hsub d hd).mono hgrows hlen

/-- **The queries made so far**: their upper bounds follow the clock, and a successful
push in front of each of the subscription's queries reaches its lower bound. -/
structure Ranges (sub : Subscription) (clock : Date) (qs : List Query) : Prop where
  sorted : (qs.map Query.upper).Pairwise (· ≤ ·)
  past : ∀ q ∈ qs, q.upper ≤ clock
  lower : ∀ n q, qs[n]? = some q → q.sub = sub → ∀ l ∈ q.lower, Reached sub qs n l

/-- **The invariant**: every date of the subscription that is stored or carried is
reached as well. -/
structure Windows (sub : Subscription) (c : Config Thread Shared) : Prop where
  ranges : Ranges sub c.shared.clock c.shared.queries
  stored : ∀ r ∈ c.shared.keywords, Dated sub c.shared.queries r
  carried : ∀ t ∈ c.threads, ∀ r ∈ t.carried, Dated sub c.shared.queries r

section

variable {sub : Subscription} {clock : Date} {qs : List Query}

theorem Ranges.later (h : Ranges sub clock qs) {now : Date} (hnow : clock ≤ now) :
    Ranges sub now qs :=
  ⟨h.sorted, fun q hq => (h.past q hq).trans hnow, h.lower⟩

theorem Ranges.markSent (h : Ranges sub clock qs) (ns : List Nat) :
    Ranges sub clock (markSent ns qs) := by
  refine ⟨by rw [map_upper_markSent]; exact h.sorted, fun q' hq' => ?_,
    fun n q' hget' hsub' l hl => ?_⟩
  · obtain ⟨n, hget'⟩ := List.getElem?_of_mem hq'
    obtain ⟨q, hget, -, -, hupper⟩ := getElem?_markSent hget'
    rw [hupper]
    exact h.past q (List.mem_of_getElem? hget)
  · obtain ⟨q, hget, hsub, hlower, -⟩ := getElem?_markSent hget'
    rw [hsub] at hsub'
    rw [hlower] at hl
    exact (h.lower n q hget hsub' l hl).mono (grows_markSent ns qs) le_rfl

theorem Ranges.append (h : Ranges sub clock qs) {q : Query} (hupper : q.upper = clock)
    (hlower : q.sub = sub → ∀ l ∈ q.lower, Reached sub qs qs.length l) :
    Ranges sub clock (qs ++ [q]) := by
  refine ⟨?_, fun p hp => ?_, fun n p hget hsub l hl => ?_⟩
  · rw [List.map_append, List.pairwise_append]
    refine ⟨h.sorted, List.pairwise_singleton _ _, fun d hd d' hd' => ?_⟩
    obtain ⟨p, hp, rfl⟩ := List.mem_map.mp hd
    obtain rfl : d' = q.upper := by simpa using hd'
    rw [hupper]
    exact h.past p hp
  · rcases List.mem_append.mp hp with hp | hp
    · exact h.past p hp
    · rw [List.mem_singleton.mp hp, hupper]
  -- the queries before the new one keep their places
  · rcases Nat.lt_or_ge n qs.length with hn | hn
    · rw [List.getElem?_append_left hn] at hget
      exact (h.lower n p hget hsub l hl).mono (grows_append qs q) le_rfl
    · -- the new query
      obtain ⟨hn', heq⟩ := List.getElem?_eq_some_iff.mp hget
      obtain rfl : n = qs.length := by simp at hn'; omega
      obtain rfl : q = p := by simpa using heq
      exact (hlower hsub l hl).mono (grows_append qs q) le_rfl

/-- **What a step leaves of the queries.** -/
theorem Ranges.go {t t' : Thread} {s s' : Shared} {x : Input} (hgo : go t s x = some (t', s'))
    (h : Ranges sub x.now s.queries) (hcarried : ∀ r ∈ t.carried, Dated sub s.queries r) :
    Ranges sub x.now s'.queries ∧ Grows s.queries s'.queries ∧
      s.queries.length ≤ s'.queries.length := by
  rcases go_queries hgo with heq | ⟨ns, heq⟩ | ⟨q, heq, hupper, hlower⟩
  · rw [heq]
    exact ⟨h, fun n q hget => ⟨q, hget, rfl, rfl, id⟩, le_rfl⟩
  · rw [heq]
    exact ⟨h.markSent ns, grows_markSent ns _, by simp [SpringReader.markSent]⟩
  · rw [heq]
    refine ⟨h.append hupper fun hsub l hl => ?_, grows_append _ q, by simp⟩
    -- the lower bound is the date of a record that the thread carries
    rcases hlower with hnone | ⟨r, hr, hrsub, hrlower⟩
    · rw [hnone] at hl
      simp at hl
    · rw [hrlower] at hl
      exact hcarried r hr (hrsub.symm.trans hsub) l hl

end

/-- **The step lemma**: a step that meets the condition keeps the invariant. -/
theorem Windows.step {sub : Subscription} {c : Config Thread Shared} (h : Windows sub c) {i : Nat}
    {a : Label} {t t' : Thread} {s' : Shared} (hok : Prompt sub c i a)
    (ht : c.threads[i]? = some t) (hnext : next t c.shared a = some (t', s')) :
    Windows sub ⟨c.threads.set i t', s'⟩ := by
  cases a with
  -- a thread that ends carries nothing
  | crash =>
    obtain ⟨-, rfl, rfl⟩ := next_crash.mp hnext
    exact ⟨h.ranges, h.stored, forall_mem_set (by simp [Thread.carried]) h.carried⟩
  | go x =>
    obtain ⟨hclock, hgo⟩ := next_go.mp hnext
    have hthread := h.carried t (List.mem_of_getElem? ht)
    obtain ⟨hranges, hgrows, hlen⟩ := Ranges.go hgo (h.ranges.later hclock) hthread
    obtain ⟨hnow, hcarried⟩ := go_carried hgo
    have hmono : ∀ r, Dated sub c.shared.queries r → Dated sub s'.queries r :=
      fun r hr => hr.mono hgrows hlen
    refine ⟨hnow ▸ hranges, fun r hr => ?_,
      forall_mem_set (fun r hr => ?_) fun u hu r hr => hmono r (h.carried u hu r hr)⟩
    -- a stored record was stored or carried before, or it has no date yet
    · rcases go_keywords hgo r hr with hr | hr | hnone
      · exact hmono r (h.stored r hr)
      · exact hmono r (hthread r hr)
      · intro _ d hd
        rw [hnone] at hd
        simp at hd
    · rcases hcarried r hr with hr | hr | ⟨d, rs, hupdate, r₀, hr₀, rfl⟩
      · exact hmono r (hthread r hr)
      · exact hmono r (h.stored r hr)
      · -- the date that the job is about to store
        refine hmono _ fun hsub d' hd' => ?_
        obtain rfl : d = d' := Option.some.inj hd'
        obtain ⟨q, hq, hreached⟩ :=
          hok (by simp) t d rs ht hupdate ⟨r₀, hr₀, hsub⟩
        obtain ⟨m, hm⟩ := List.getElem?_of_mem hq
        exact ⟨m, q, (List.getElem?_eq_some_iff.mp hm).1, hm, hreached⟩

/-- A request or a job that has not started. -/
def Thread.begins : Thread → Bool
  | .createFind _ | .deleteIds _ | .firstQuery _ | .daily _ => true
  | _ => false

theorem windows_init {sub : Subscription} {c : Config Thread Shared}
    (hstart : ∀ t ∈ c.threads, t.begins = true) (hqueries : c.shared.queries = [])
    (hnew : ∀ r ∈ c.shared.keywords, r.sub = sub → r.lastpushdate = none) : Windows sub c := by
  refine ⟨?_, fun r hr hsub d hd => ?_, fun t ht r hr => ?_⟩
  · rw [hqueries]
    exact ⟨List.Pairwise.nil, by simp, by simp⟩
  · rw [hnew r hr hsub] at hd
    simp at hd
  · have hbegins := hstart t ht
    cases t with
    | createFind | deleteIds | firstQuery | daily => simp [Thread.carried] at hr
    | _ => simp [Thread.begins] at hbegins

/-- **When the pushes of a subscription leave no gap.** From every store in which the
subscription has no date yet, with any requests and jobs: in every run in which a
job stores a date for the subscription only if a query of a successful push of it
reached up to this date, each successful push starts where the one before it has
reached, and every timestamp behind the upper bound of the first push and up to that
of the last one was asked for. -/
theorem windows_run {sub : Subscription} {c₀ c : Config Thread Shared}
    (hstart : ∀ t ∈ c₀.threads, t.begins = true) (hqueries : c₀.shared.queries = [])
    (hnew : ∀ r ∈ c₀.shared.keywords, r.sub = sub → r.lastpushdate = none)
    (h : Run next (Prompt sub) c₀ c) :
    (pushes sub c.shared.queries).IsChain Adjoins ∧
      ∀ p q, (pushes sub c.shared.queries).head? = some p →
        (pushes sub c.shared.queries).getLast? = some q →
        ∀ τ, p.upper < τ → τ ≤ q.upper → ∃ w ∈ pushes sub c.shared.queries, w.spans τ := by
  have hinv : Windows sub c :=
    h.invariant (windows_init hstart hqueries hnew) fun c i a t t' s' hc hok ht hnext =>
      hc.step hok ht hnext
  have hchain := isChain_pushes hinv.ranges.sorted hinv.ranges.lower
  exact ⟨hchain, fun p q hp hq τ hlow hhigh => exists_spans hchain hp hq hlow hhigh⟩

/-- A test for the condition. -/
def prompt (sub : Subscription) (c : Config Thread Shared) (i : Nat) (_ : Label) : Bool :=
  match c.threads[i]?.bind (Thread.update c.shared.keywords) with
  | none => true
  | some (d, rs) =>
    rs.all (·.sub ≠ sub) || c.shared.queries.any fun q => q.sub = sub ∧ q.sent ∧ d ≤ q.upper

theorem prompt_sound (sub : Subscription) (c : Config Thread Shared) (i : Nat) (a : Label)
    (h : prompt sub c i a = true) : Prompt sub c i a := by
  rintro - t d rs ht hupdate ⟨r, hr, hsub⟩
  rw [prompt, ht, Option.bind_some, hupdate, Bool.or_eq_true] at h
  rcases h with hall | hany
  · exact absurd hsub (of_decide_eq_true (List.all_eq_true.mp hall r hr))
  · obtain ⟨q, hq, hreached⟩ := List.any_eq_true.mp hany
    exact ⟨q, hq, of_decide_eq_true hreached⟩

/-- The subscription of the examples. -/
def pushedSub : Subscription := ⟨lit "u", lit "k", lit "e"⟩

/-- A first push and two daily ones, next to a request of another user. -/
def firstAndDaily : Config Thread Shared :=
  ⟨[.firstQuery pushedSub, .daily [lit "u"], .daily [lit "u"],
      .createFind ⟨lit "v", lit "k", lit "f"⟩],
    ⟨⟨[⟨lit "1", lit "k", [], 0, lit "u", none, lit "e"⟩], by decide⟩, 0, [], []⟩⟩

/-- A number of steps of a thread at one time, at which everything goes through. -/
def stepsAt (i n : Nat) (now : Date) : List (Nat × Label) :=
  List.replicate n (i, .go ⟨now, true, lit "2", [lit "e"]⟩)

/-- Each job has one reading of the clock. -/
theorem windows_in_time :
    ∃ c, Run next (Prompt pushedSub) firstAndDaily c ∧
      pushes pushedSub c.shared.queries =
        [⟨pushedSub, none, 1, true⟩, ⟨pushedSub, some 1, 5, true⟩, ⟨pushedSub, some 5, 9, true⟩] ∧
      (pushes pushedSub c.shared.queries).IsChain Adjoins ∧
      ∀ p q, (pushes pushedSub c.shared.queries).head? = some p →
        (pushes pushedSub c.shared.queries).getLast? = some q →
        ∀ τ, p.upper < τ → τ ≤ q.upper → ∃ w ∈ pushes pushedSub c.shared.queries, w.spans τ := by
  have heval : (exec next (prompt pushedSub) firstAndDaily (stepsAt 0 7 1 ++ stepsAt 3 3 2 ++
      stepsAt 1 11 5 ++ stepsAt 2 11 9)).map (fun c => pushes pushedSub c.shared.queries) =
      some [⟨pushedSub, none, 1, true⟩, ⟨pushedSub, some 1, 5, true⟩,
        ⟨pushedSub, some 5, 9, true⟩] := by decide +kernel
  obtain ⟨c, hrun, hpushes⟩ := exists_run (prompt_sound pushedSub) heval
  exact ⟨c, hrun, hpushes, windows_run (by decide) rfl (by decide) hrun⟩

/-- **A gap.** The clock moves between the query of the first push and the date that it
stores, and the daily push starts at the latter. -/
theorem windows_gap :
    (∀ t ∈ firstAndDaily.threads, t.begins = true) ∧ firstAndDaily.shared.queries = [] ∧
      (∀ r ∈ firstAndDaily.shared.keywords, r.sub = pushedSub → r.lastpushdate = none) ∧
      ∃ c, Run next (fun _ _ _ => True) firstAndDaily c ∧
        pushes pushedSub c.shared.queries =
          [⟨pushedSub, none, 1, true⟩, ⟨pushedSub, some 3, 5, true⟩] ∧
        ¬ (pushes pushedSub c.shared.queries).IsChain Adjoins ∧
        ¬ ∃ w ∈ pushes pushedSub c.shared.queries, w.spans 2 := by
  have heval : (exec next (fun _ _ _ => true) firstAndDaily (stepsAt 0 2 1 ++ stepsAt 0 5 3 ++
      stepsAt 1 11 5)).map (fun c => pushes pushedSub c.shared.queries) =
      some [⟨pushedSub, none, 1, true⟩, ⟨pushedSub, some 3, 5, true⟩] := by decide +kernel
  obtain ⟨c, hrun, hpushes⟩ := exists_run (fun _ _ _ _ => trivial) heval
  refine ⟨by decide, rfl, by decide, c, hrun, hpushes, ?_, ?_⟩
  · rw [hpushes]
    intro hchain
    have hadjoins := (List.isChain_cons_cons.mp hchain).1 3 rfl
    exact absurd hadjoins (by decide)
  · rw [hpushes]
    simp [Query.spans]

end SpringReader
