import Amoeba.SpringReader.Machine

/-!
# Concurrent subscriptions

`createsubscribe` checks that a subscription is new and saves it in different
steps, and the collection has no unique index. A request that has found no record
goes on to save one, whatever other requests do in between.

* `no_duplicates_run` — in every run of any number of requests in which no request
  makes its first check while another one for the same subscription is between its
  check and its save, no subscription ever has two records.
-/

namespace SpringReader

open Java DocStore Interleaving

/-- The subscription that a thread has found to be new and has not saved yet. -/
def Thread.claims : Thread → Option Subscription
  | .createLookup sub => some sub
  | .createSave sub => some sub
  | _ => none

/-- **The condition on a step**: a request that makes its first check is the only one
with its subscription. -/
def Unclaimed (c : Config Thread Shared) (i : Nat) (_ : Label) : Prop :=
  ∀ sub, c.threads[i]? = some (.createFind sub) →
    ∀ j t, j ≠ i → c.threads[j]? = some t → t.claims ≠ some sub

/-- What holds between the requests and the store. -/
structure NoDuplicates (c : Config Thread Shared) : Prop where
  /-- Only requests run. -/
  requests : ∀ t ∈ c.threads, t.isCreate = true ∨ t = .done
  unique : Unique c.shared.keywords
  /-- What is claimed is not in the store. -/
  absent : ∀ t ∈ c.threads, ∀ sub, t.claims = some sub → ∀ r ∈ c.shared.keywords, r.sub ≠ sub
  /-- No two requests claim one subscription. -/
  single : Exclusive Thread.claims c.threads

/-- **What a step of a request does**: it gives up, it goes on, or it saves. -/
theorem create_step {t t' : Thread} {s s' : Shared} {a : Label} (ht : t.isCreate = true ∨ t = .done)
    (h : next t s a = some (t', s')) :
    (t' = .done ∧ s'.keywords = s.keywords) ∨
      (∃ sub, t = .createFind sub ∧ t' = .createLookup sub ∧ s'.keywords = s.keywords ∧
        ∀ r ∈ s.keywords, r.sub ≠ sub) ∨
      (∃ sub, t = .createLookup sub ∧ t' = .createSave sub ∧ s'.keywords = s.keywords) ∨
      ∃ sub r, t = .createSave sub ∧ t' = .done ∧ s'.keywords = s.keywords.save r ∧ r.sub = sub ∧
        ∀ y ∈ s.keywords, y.key ≠ r.key := by
  cases a with
  | crash =>
    obtain ⟨hjob, rfl, rfl⟩ := next_crash.mp h
    exact .inl ⟨rfl, rfl⟩
  | go x =>
    obtain ⟨-, hgo⟩ := next_go.mp h
    cases goes_of_go hgo with
    | createKnown => exact .inl ⟨rfl, rfl⟩
    | @createNew sub hnone =>
      refine .inr (.inl ⟨sub, rfl, rfl, rfl, fun r hr hsub => hnone ?_⟩)
      subst hsub
      exact List.any_eq_true.mpr ⟨r, mem_findByUsername.mpr ⟨hr, rfl⟩, by simp [UserKeyword.sub]⟩
    | @lookupMissed sub => exact .inr (.inr (.inl ⟨sub, rfl, rfl, rfl⟩))
    | lookupHit => exact .inl ⟨rfl, rfl⟩
    | @createSaved sub hfresh =>
      refine .inr (.inr (.inr ⟨sub, _, rfl, rfl, rfl, rfl, fun y hy hkey => hfresh ?_⟩))
      exact List.mem_map.mpr ⟨y, hy, hkey⟩
    | _ => simp [Thread.isCreate] at ht

/-- A new record of a subscription that had none. -/
theorem Unique.save {s : Store} (h : Unique s) {r : UserKeyword} (hfresh : ∀ y ∈ s, y.key ≠ r.key)
    (hnew : ∀ y ∈ s, y.sub ≠ r.sub) : Unique (s.save r) := by
  intro x hx y hy hxy
  rw [Coll.mem_save_of_fresh hfresh] at hx hy
  rcases hx with rfl | hx <;> rcases hy with rfl | hy
  · rfl
  · exact absurd hxy.symm (hnew y hy)
  · exact absurd hxy (hnew x hx)
  · exact h x hx y hy hxy

/-- **The step lemma**: a step that meets the condition keeps the invariant. -/
theorem NoDuplicates.step {c : Config Thread Shared} (h : NoDuplicates c) {i : Nat} {a : Label}
    (hok : Unclaimed c i a) {t t' : Thread} {s' : Shared} (ht : c.threads[i]? = some t)
    (hnext : next t c.shared a = some (t', s')) : NoDuplicates ⟨c.threads.set i t', s'⟩ := by
  have hmem := List.mem_of_getElem? ht
  rcases create_step (h.requests t hmem) hnext with
    ⟨rfl, hkeywords⟩ | ⟨sub, rfl, rfl, hkeywords, hnew⟩ | ⟨sub, rfl, rfl, hkeywords⟩ |
    ⟨sub, r, rfl, rfl, hkeywords, hsub, hfresh⟩
  · -- the request has given up
    refine ⟨forall_mem_set (.inr rfl) h.requests, by rw [hkeywords]; exact h.unique, ?_,
      h.single.keep ht (by simp [Thread.claims])⟩
    rw [hkeywords]
    exact forall_mem_set (by simp [Thread.claims]) h.absent
  · -- the first check: the condition is needed here
    refine ⟨forall_mem_set (.inl rfl) h.requests, by rw [hkeywords]; exact h.unique, ?_,
      h.single.set fun sub' hclaims => ?_⟩
    · rw [hkeywords]
      refine forall_mem_set (fun sub' hclaims => ?_) h.absent
      obtain rfl := Option.some.inj hclaims
      exact hnew
    · obtain rfl := Option.some.inj hclaims
      exact hok sub ht
  · refine ⟨forall_mem_set (.inl rfl) h.requests, by rw [hkeywords]; exact h.unique, ?_,
      h.single.keep ht fun _ => id⟩
    rw [hkeywords]
    exact forall_mem_set (fun sub' hclaims => h.absent _ hmem sub' hclaims) h.absent
  · -- the save: nobody else claims this subscription
    have habsent : ∀ y ∈ c.shared.keywords, y.sub ≠ r.sub := by
      rw [hsub]
      exact h.absent _ hmem sub rfl
    refine ⟨forall_mem_set (.inr rfl) h.requests, ?_, fun u hu sub' hclaims => ?_,
      h.single.keep ht (by simp [Thread.claims])⟩
    · rw [hkeywords]
      exact h.unique.save hfresh habsent
    · obtain ⟨j, hj⟩ := List.mem_iff_getElem?.mp hu
      rcases getElem?_set_cases hj with ⟨-, rfl⟩ | ⟨hij, hj⟩
      · simp [Thread.claims] at hclaims
      · intro x hx hxs
        rw [hkeywords, Coll.mem_save_of_fresh hfresh] at hx
        rcases hx with rfl | hx
        · -- two threads would claim it
          have hclaims' : u.claims = some sub := by rw [hclaims, ← hxs, hsub]
          exact hij (h.single i j _ u sub ht hj rfl hclaims')
        · exact h.absent u (List.mem_of_getElem? hj) sub' hclaims x hx hxs

/-- Requests that have not started claim nothing. -/
theorem noDuplicates_init {c : Config Thread Shared} (hunique : Unique c.shared.keywords)
    (hstart : ∀ t ∈ c.threads, ∃ sub, t = .createFind sub) : NoDuplicates c := by
  have hclaims : ∀ t ∈ c.threads, t.claims = none := by
    intro t ht
    obtain ⟨sub, rfl⟩ := hstart t ht
    rfl
  refine ⟨fun t ht => ?_, hunique, fun t ht sub h => ?_, fun i j t t' sub hi _ h => ?_⟩
  · obtain ⟨sub, rfl⟩ := hstart t ht
    exact .inl rfl
  · simp [hclaims t ht] at h
  · simp [hclaims t (List.mem_of_getElem? hi)] at h

/-- **When subscriptions stay unique.** From every store in which no subscription has
two records, with any number of requests of any users: in every run in which no
request makes its first check while another one with the same subscription has
made its own and not yet saved, every store that is reached is without such
records, and the lookup for one record never has two to choose from. -/
theorem no_duplicates_run {c₀ c : Config Thread Shared} (hunique : Unique c₀.shared.keywords)
    (hstart : ∀ t ∈ c₀.threads, ∃ sub, t = .createFind sub) (h : Run next Unclaimed c₀ c) :
    Unique c.shared.keywords ∧
      ∀ sub, (c.shared.keywords.find (·.sub = sub)).length ≤ 1 := by
  have hinv : NoDuplicates c :=
    h.invariant (noDuplicates_init hunique hstart) fun c i a t t' s' hc hok ht hnext =>
      hc.step hok ht hnext
  refine ⟨hinv.unique, fun sub => ?_⟩
  have hnodup : (c.shared.keywords.find (·.sub = sub)).Nodup :=
    (List.Nodup.of_map _ c.shared.keywords.nodup).filter _
  have hmem : ∀ r ∈ c.shared.keywords.find (·.sub = sub), r ∈ c.shared.keywords ∧ r.sub = sub := by
    simp [Coll.mem_find]
  match hfind : c.shared.keywords.find (·.sub = sub) with
  | [] => simp
  | [_] => simp
  | x :: y :: rest =>
    rw [hfind] at hnodup hmem
    obtain ⟨hx, hxs⟩ := hmem x List.mem_cons_self
    obtain ⟨hy, hys⟩ := hmem y (List.mem_cons_of_mem _ List.mem_cons_self)
    obtain rfl := hinv.unique x hx y hy (hxs.trans hys.symm)
    simp at hnodup

/-- A test for the condition. -/
def unclaimed (c : Config Thread Shared) (i : Nat) (_ : Label) : Bool :=
  match c.threads[i]? with
  | some (.createFind sub) => c.threads.zipIdx.all fun (t, j) => j = i || t.claims ≠ some sub
  | _ => true

theorem unclaimed_sound (c : Config Thread Shared) (i : Nat) (a : Label)
    (h : unclaimed c i a = true) : Unclaimed c i a := by
  intro sub hi j t hj ht hclaims
  rw [unclaimed, hi] at h
  have hall := List.all_eq_true.mp h (t, j) (List.mem_zipIdx_iff_getElem?.mpr ht)
  simp [hj, hclaims] at hall

/-- A step at time zero, with this id for a new record. -/
def withId (newId : String) : Label := .go ⟨0, true, lit newId, []⟩

/-- Two requests for one subscription. -/
def twoCreates : Config Thread Shared :=
  ⟨[.createFind ⟨lit "u", lit "k", lit "e"⟩, .createFind ⟨lit "u", lit "k", lit "e"⟩],
    ⟨.empty, 0, [], []⟩⟩

/-- The record that the examples create. -/
def createdRecord (newId : String) : UserKeyword :=
  newKeyword (lit "k") (lit "u") (lit "e") 0 (lit newId)

/-- One request after the other. -/
theorem no_duplicates_in_turn :
    ∃ c, Run next Unclaimed twoCreates c ∧ c.threads = [.done, .done] ∧
      c.shared.keywords.docs = [createdRecord "1"] ∧ Unique c.shared.keywords ∧
      ∀ sub, (c.shared.keywords.find (·.sub = sub)).length ≤ 1 := by
  have heval : (exec next unclaimed twoCreates [(0, withId "1"), (0, withId "1"), (0, withId "1"),
      (1, withId "2")]).map (fun c => (c.threads, c.shared.keywords.docs)) =
      some ([.done, .done], [createdRecord "1"]) := by decide +kernel
  obtain ⟨c, hrun, heq⟩ := exists_run unclaimed_sound heval
  obtain ⟨hthreads, hdocs⟩ := Prod.mk.inj heq
  refine ⟨c, hrun, hthreads, hdocs, no_duplicates_run ?_ ?_ hrun⟩
  · exact fun r hr => absurd hr List.not_mem_nil
  · simp [twoCreates]

/-- **Two records of one subscription.** Both requests make both checks before either
saves. -/
theorem duplicates_run :
    Unique twoCreates.shared.keywords ∧ ∃ c, Run next (fun _ _ _ => True) twoCreates c ∧
      c.shared.keywords.docs = [createdRecord "1", createdRecord "2"] ∧
      ¬ Unique c.shared.keywords ∧
      (c.shared.keywords.find (·.sub = ⟨lit "u", lit "k", lit "e"⟩)).length = 2 := by
  have heval : (exec next (fun _ _ _ => true) twoCreates [(0, withId "1"), (1, withId "1"),
      (0, withId "1"), (1, withId "1"), (0, withId "1"), (1, withId "2")]).map
      (fun c => c.shared.keywords.docs) = some [createdRecord "1", createdRecord "2"] := by
    decide +kernel
  obtain ⟨c, hrun, hdocs⟩ := exists_run (fun _ _ _ _ => trivial) heval
  refine ⟨fun r hr => absurd hr List.not_mem_nil, c, hrun, hdocs, fun hunique => ?_, ?_⟩
  · have heq := hunique (createdRecord "1") (by rw [Coll.mem_def, hdocs]; simp)
      (createdRecord "2") (by rw [Coll.mem_def, hdocs]; simp) rfl
    exact absurd heq (by decide)
  · rw [Coll.find, hdocs]
    decide

end SpringReader
