import Amoeba.SpringReader.Machine

/-!
# Deleting next to updating

An update of the date of the last push reads records, and then for each of them
deletes the record and saves the copy. In between the record exists nowhere but in
the job. A request that deletes it meanwhile is undone by the save, and a job that
ends there has lost it.

* `custody_run` — in every run in which no request deletes an id of which a job
  holds a copy, and no job ends between deleting and saving, deleted records stay
  deleted, and all others are there once the jobs have come to their ends.
-/

namespace SpringReader

open Java DocStore Interleaving

/-! ### Copies -/

/-- The copies that a thread is going to save. -/
def Thread.held : Thread → List UserKeyword
  | .rewriting _ todo _ => todo
  | .saving _ r todo _ => r :: todo
  | _ => []

/-- The record that a thread has deleted and not yet saved again. -/
def Thread.owed : Thread → Option UserKeyword
  | .saving _ r _ _ => some r
  | _ => none

/-- The same record, up to the date of the last push. -/
def SameButDate (r r' : UserKeyword) : Prop := { r' with lastpushdate := r.lastpushdate } = r

theorem SameButDate.refl (r : UserKeyword) : SameButDate r r := rfl

theorem SameButDate.setLastpushdate {r r' : UserKeyword} (h : SameButDate r r') (d : Date) :
    SameButDate r (r'.setLastpushdate d) := h

theorem SameButDate.key_eq {r r' : UserKeyword} (h : SameButDate r r') : r'.key = r.key := by
  rw [← h]
  rfl

/-! ### Steps -/

/-- **The condition on a step**: a request does not delete what a job holds a copy of,
and a job does not end with a record that it owes. -/
def Orderly (c : Config Thread Shared) (i : Nat) (a : Label) : Prop :=
  ∀ t, c.threads[i]? = some t →
    (a = .crash → t.owed = none) ∧
      ∀ id ids, t = .deleteIds (id :: ids) → ∀ u ∈ c.threads, ∀ r ∈ u.held, r.key ≠ objectId id

/-- Jobs between two calls of the service that writes. -/
def Thread.quiet : Thread → Bool
  | .firstQuery _ | .firstSend _ _ | .firstStamp _ _ | .daily _ | .dailyQuery _ _ _ _ |
    .dailySend _ | .dailyStamp _ _ => true
  | _ => false

/-- Such a step leaves the records and holds no copies. -/
theorem quiet_step {t t' : Thread} {s s' : Shared} {x : Input} (ht : t.quiet = true)
    (h : go t s x = some (t', s')) :
    s'.keywords = s.keywords ∧ s'.removed = s.removed ∧ t'.held = [] ∧ t'.isCreate = false := by
  cases goes_of_go h with
  | firstQueried | firstQueryFailed | firstSent | firstSendFailed | firstStamped | dailyEnd |
    dailyUser | dailyQueried | dailyQueryFailed | dailyCollected | dailyMailed | dailySent |
    dailySendFailed | dailyStamped => exact ⟨rfl, rfl, rfl, rfl⟩
  | _ => exact absurd ht Bool.false_ne_true

/-- **What a step of a job or of an unsubscribe request does**: it reads, it ends, it
deletes for a request, it deletes a record to save it again, or it saves one. -/
theorem job_step {t t' : Thread} {s s' : Shared} {a : Label} (ht : t.isCreate = false)
    (h : next t s a = some (t', s')) :
    t'.isCreate = false ∧
      ((s'.keywords = s.keywords ∧ s'.removed = s.removed ∧ t.owed = none ∧
          ∀ r ∈ t'.held, r ∈ t.held ∨ r ∈ s.keywords) ∨
        (a = .crash ∧ t' = .done ∧ s' = s) ∨
        (∃ id ids, t = .deleteIds (id :: ids) ∧ t' = .deleteIds ids ∧
          s'.keywords = deleteById id s.keywords ∧ s'.removed = objectId id :: s.removed) ∨
        (∃ d r todo rest, t = .rewriting d (r :: todo) rest ∧ t' = .saving d r todo rest ∧
          s'.keywords = s.keywords.delete r.key ∧ s'.removed = s.removed) ∨
        ∃ d r todo rest, t = .saving d r todo rest ∧ t' = .rewriting d todo rest ∧
          s'.keywords = s.keywords.save (r.setLastpushdate d) ∧ s'.removed = s.removed) := by
  cases a with
  | crash =>
    obtain ⟨-, rfl, rfl⟩ := next_crash.mp h
    exact ⟨rfl, .inr (.inl ⟨rfl, rfl, rfl⟩)⟩
  | go x =>
    obtain ⟨-, hgo⟩ := next_go.mp h
    cases goes_of_go hgo with
    | createKnown | createNew | lookupMissed | lookupHit | createSaved =>
      simp [Thread.isCreate] at ht
    | deleteEnd => exact ⟨rfl, .inl ⟨rfl, rfl, rfl, by simp [Thread.held]⟩⟩
    | @deleteNext id ids => exact ⟨rfl, .inr (.inr (.inl ⟨id, ids, rfl, rfl, rfl, rfl⟩))⟩
    | firstMissing => exact ⟨rfl, .inl ⟨rfl, rfl, rfl, by simp [Thread.held]⟩⟩
    | firstFound hfind =>
      -- a copy is made of what is in the store
      refine ⟨rfl, .inl ⟨rfl, rfl, rfl, fun y hy => .inr ?_⟩⟩
      rw [List.mem_singleton.mp hy]
      exact (find_eq_some hfind).1
    | dailyFound =>
      refine ⟨rfl, .inl ⟨rfl, rfl, rfl, fun y hy => .inr ?_⟩⟩
      exact (mem_findByUsernameAndEmail.mp hy).1
    | @rewritten d rest =>
      cases rest <;> exact ⟨rfl, .inl ⟨rfl, rfl, rfl, by simp [resume, Thread.held]⟩⟩
    | @rewriteDelete d r todo rest =>
      exact ⟨rfl, .inr (.inr (.inr (.inl ⟨d, r, todo, rest, rfl, rfl, rfl, rfl⟩)))⟩
    | @rewriteSave d r todo rest =>
      exact ⟨rfl, .inr (.inr (.inr (.inr ⟨d, r, todo, rest, rfl, rfl, rfl, rfl⟩)))⟩
    | _ =>
      -- the job does not write
      obtain ⟨hkeywords, hremoved, hheld, hcreate⟩ := quiet_step rfl hgo
      exact ⟨hcreate, .inl ⟨hkeywords, hremoved, rfl, by simp [hheld]⟩⟩

/-! ### Runs -/

/-- What holds between the threads and the store, for the records `R` of the start. -/
structure Custody (R : Store) (c : Config Thread Shared) : Prop where
  /-- Only jobs and unsubscribe requests run. -/
  jobs : ∀ t ∈ c.threads, t.isCreate = false
  /-- What was deleted is neither in the store nor held by a job. -/
  gone : ∀ id ∈ c.shared.removed, (∀ r ∈ c.shared.keywords, r.key ≠ id) ∧
    ∀ t ∈ c.threads, ∀ r ∈ t.held, r.key ≠ id
  /-- All copies are those of records of the start. -/
  copies : (∀ r' ∈ c.shared.keywords, ∃ r ∈ R, SameButDate r r') ∧
    ∀ t ∈ c.threads, ∀ r' ∈ t.held, ∃ r ∈ R, SameButDate r r'
  /-- What was not deleted is in the store, or a job owes it. -/
  kept : ∀ r ∈ R, r.key ∉ c.shared.removed →
    (∃ r' ∈ c.shared.keywords, SameButDate r r') ∨
      ∃ t ∈ c.threads, ∃ r' ∈ t.owed, SameButDate r r'

section

variable {R : Store} {c : Config Thread Shared} {i : Nat} {t t' : Thread} {s' : Shared}

/-- A thread that owes nothing can move, and what the others owe stays owed. -/
theorem owed_set {threads : List Thread} {r : UserKeyword} (ht : threads[i]? = some t)
    (hnone : ∀ r' ∈ t.owed, ¬ SameButDate r r')
    (h : ∃ u ∈ threads, ∃ r' ∈ u.owed, SameButDate r r') :
    ∃ u ∈ threads.set i t', ∃ r' ∈ u.owed, SameButDate r r' := by
  obtain ⟨u, hu, r', hr', hsame⟩ := h
  obtain ⟨j, hj⟩ := List.mem_iff_getElem?.mp hu
  -- the thread that owes the record is another one
  have hij : i ≠ j := by
    rintro rfl
    rw [ht] at hj
    obtain rfl := Option.some.inj hj
    exact hnone r' hr' hsame
  refine ⟨u, List.mem_iff_getElem?.mpr ⟨j, ?_⟩, r', hr', hsame⟩
  rw [List.getElem?_set_ne hij]
  exact hj

/-- **Reading**: new copies are copies of what is in the store. -/
theorem Custody.read (h : Custody R c) (ht : c.threads[i]? = some t) (hcreate : t'.isCreate = false)
    (hkeywords : s'.keywords = c.shared.keywords) (hremoved : s'.removed = c.shared.removed)
    (howed : t.owed = none) (hheld : ∀ r ∈ t'.held, r ∈ t.held ∨ r ∈ c.shared.keywords) :
    Custody R ⟨c.threads.set i t', s'⟩ := by
  have hmem := List.mem_of_getElem? ht
  refine ⟨forall_mem_set hcreate h.jobs, fun id hid => ?_, ?_, fun r hr hkey => ?_⟩
  · rw [hremoved] at hid
    obtain ⟨hstore, hthreads⟩ := h.gone id hid
    rw [hkeywords]
    refine ⟨hstore, forall_mem_set (fun r hr => ?_) hthreads⟩
    rcases hheld r hr with hr | hr
    · exact hthreads t hmem r hr
    · exact hstore r hr
  · rw [hkeywords]
    refine ⟨h.copies.1, forall_mem_set (fun r hr => ?_) h.copies.2⟩
    rcases hheld r hr with hr | hr
    · exact h.copies.2 t hmem r hr
    · exact h.copies.1 r hr
  · rw [hkeywords]
    rw [hremoved] at hkey
    exact (h.kept r hr hkey).imp_right (owed_set ht (by simp [howed]))

/-- **A request deletes**, and no job holds a copy. -/
theorem Custody.request (h : Custody R c) {id : JString} {ids : List JString}
    (ht : c.threads[i]? = some (.deleteIds (id :: ids)))
    (hfree : ∀ u ∈ c.threads, ∀ r ∈ u.held, r.key ≠ objectId id)
    (hkeywords : s'.keywords = deleteById id c.shared.keywords)
    (hremoved : s'.removed = objectId id :: c.shared.removed) :
    Custody R ⟨c.threads.set i (.deleteIds ids), s'⟩ := by
  have hdelete : ∀ x, x ∈ s'.keywords ↔ x ∈ c.shared.keywords ∧ x.key ≠ objectId id := fun x => by
    rw [hkeywords, deleteById, Coll.mem_delete]
  refine ⟨forall_mem_set rfl h.jobs, fun id' hid => ?_, ?_, fun r hr hkey => ?_⟩
  · rw [hremoved, List.mem_cons] at hid
    rcases hid with rfl | hid
    · exact ⟨fun x hx => ((hdelete x).mp hx).2, forall_mem_set (by simp [Thread.held]) hfree⟩
    · obtain ⟨hstore, hthreads⟩ := h.gone id' hid
      exact ⟨fun x hx => hstore x ((hdelete x).mp hx).1,
        forall_mem_set (by simp [Thread.held]) hthreads⟩
  -- a deletion makes no copies
  · exact ⟨fun x hx => h.copies.1 x ((hdelete x).mp hx).1,
      forall_mem_set (by simp [Thread.held]) h.copies.2⟩
  · rw [hremoved, List.mem_cons, not_or] at hkey
    -- the records that are left have other keys than the deleted one
    rcases h.kept r hr hkey.2 with ⟨r', hr', hsame⟩ | howe
    · exact .inl ⟨r', (hdelete r').mpr ⟨hr', by rw [hsame.key_eq]; exact hkey.1⟩, hsame⟩
    · exact .inr (owed_set ht (by simp [Thread.owed]) howe)

/-- **A job deletes** a record, and owes it from now on. -/
theorem Custody.take (h : Custody R c) {d : Date} {r : UserKeyword} {todo : List UserKeyword}
    {rest : Option Mailing} (ht : c.threads[i]? = some (.rewriting d (r :: todo) rest))
    (hkeywords : s'.keywords = c.shared.keywords.delete r.key)
    (hremoved : s'.removed = c.shared.removed) :
    Custody R ⟨c.threads.set i (.saving d r todo rest), s'⟩ := by
  have hmem := List.mem_of_getElem? ht
  have hdelete : ∀ x, x ∈ s'.keywords ↔ x ∈ c.shared.keywords ∧ x.key ≠ r.key := fun x => by
    rw [hkeywords, Coll.mem_delete]
  have hsaving : .saving d r todo rest ∈ c.threads.set i (.saving d r todo rest) :=
    List.mem_set (List.getElem?_eq_some_iff.mp ht).1 _
  refine ⟨forall_mem_set rfl h.jobs, fun id hid => ?_, ?_, fun r₀ hr hkey => ?_⟩
  · rw [hremoved] at hid
    obtain ⟨hstore, hthreads⟩ := h.gone id hid
    have hthread : ∀ y ∈ (Thread.saving d r todo rest).held, y.key ≠ id :=
      hthreads (.rewriting d (r :: todo) rest) hmem
    exact ⟨fun x hx => hstore x ((hdelete x).mp hx).1, forall_mem_set hthread hthreads⟩
  · have hthread : ∀ y ∈ (Thread.saving d r todo rest).held, ∃ r ∈ R, SameButDate r y :=
      h.copies.2 (.rewriting d (r :: todo) rest) hmem
    exact ⟨fun x hx => h.copies.1 x ((hdelete x).mp hx).1, forall_mem_set hthread h.copies.2⟩
  · rw [hremoved] at hkey
    rcases h.kept r₀ hr hkey with ⟨r', hr', hsame⟩ | howe
    · by_cases heq : r'.key = r.key
      · -- the copy is one of the same record
        obtain ⟨r₁, hr₁, hsame₁⟩ := h.copies.2 _ hmem r List.mem_cons_self
        have hkeys : r₁.key = r₀.key := by rw [← hsame₁.key_eq, ← heq, hsame.key_eq]
        obtain rfl := Coll.eq_of_key_eq hr₁ hr hkeys
        exact .inr ⟨_, hsaving, r, rfl, hsame₁⟩
      · exact .inl ⟨r', (hdelete r').mpr ⟨hr', heq⟩, hsame⟩
    · exact .inr (owed_set ht (by simp [Thread.owed]) howe)

/-- **A job saves** what it owed. -/
theorem Custody.put (h : Custody R c) {d : Date} {r : UserKeyword} {todo : List UserKeyword}
    {rest : Option Mailing} (ht : c.threads[i]? = some (.saving d r todo rest))
    (hkeywords : s'.keywords = c.shared.keywords.save (r.setLastpushdate d))
    (hremoved : s'.removed = c.shared.removed) :
    Custody R ⟨c.threads.set i (.rewriting d todo rest), s'⟩ := by
  have hmem := List.mem_of_getElem? ht
  have hsave : ∀ x, x ∈ s'.keywords ↔
      x = r.setLastpushdate d ∨ x ∈ c.shared.keywords ∧ x.key ≠ r.key := fun x => by
    rw [hkeywords, Coll.mem_save, setLastpushdate_key]
  obtain ⟨r₁, hr₁, hsame₁⟩ := h.copies.2 _ hmem r List.mem_cons_self
  refine ⟨forall_mem_set rfl h.jobs, fun id hid => ?_, ?_, fun r₀ hr hkey => ?_⟩
  · rw [hremoved] at hid
    obtain ⟨hstore, hthreads⟩ := h.gone id hid
    refine ⟨fun x hx => ?_, forall_mem_set (fun y hy => ?_) hthreads⟩
    · -- the saved record was held, and what is held has not been deleted
      rcases (hsave x).mp hx with rfl | ⟨hx, -⟩
      · exact hthreads _ hmem r List.mem_cons_self
      · exact hstore x hx
    · exact hthreads _ hmem y (List.mem_cons_of_mem _ hy)
  · refine ⟨fun x hx => ?_, forall_mem_set (fun y hy => ?_) h.copies.2⟩
    · rcases (hsave x).mp hx with rfl | ⟨hx, -⟩
      · exact ⟨r₁, hr₁, hsame₁.setLastpushdate d⟩
      · exact h.copies.1 x hx
    · exact h.copies.2 _ hmem y (List.mem_cons_of_mem _ hy)
  · rw [hremoved] at hkey
    -- the record that is saved is the one that was owed, or it is untouched
    by_cases heq : r₁.key = r₀.key
    · obtain rfl := Coll.eq_of_key_eq hr₁ hr heq
      exact .inl ⟨_, (hsave _).mpr (.inl rfl), hsame₁.setLastpushdate d⟩
    · have hother : ∀ r', SameButDate r₀ r' → r'.key ≠ r.key := by
        intro r' hsame hkeys
        exact heq (by rw [← hsame₁.key_eq, ← hkeys, hsame.key_eq])
      rcases h.kept r₀ hr hkey with ⟨r', hr', hsame⟩ | howe
      · exact .inl ⟨r', (hsave r').mpr (.inr ⟨hr', hother r' hsame⟩), hsame⟩
      · -- another thread owes it
        refine .inr (owed_set ht (fun r' hr' hsame => ?_) howe)
        obtain rfl := Option.some.inj hr'
        exact hother r hsame rfl

/-- **The step lemma**: a step that meets the condition keeps the invariant. -/
theorem Custody.step (h : Custody R c) {a : Label} (hok : Orderly c i a)
    (ht : c.threads[i]? = some t) (hnext : next t c.shared a = some (t', s')) :
    Custody R ⟨c.threads.set i t', s'⟩ := by
  obtain ⟨hcreate, hcases⟩ := job_step (h.jobs t (List.mem_of_getElem? ht)) hnext
  rcases hcases with ⟨hkeywords, hremoved, howed, hheld⟩ | ⟨rfl, rfl, rfl⟩ |
    ⟨id, ids, rfl, rfl, hkeywords, hremoved⟩ | ⟨d, r, todo, rest, rfl, rfl, hkeywords, hremoved⟩ |
    ⟨d, r, todo, rest, rfl, rfl, hkeywords, hremoved⟩
  · exact h.read ht hcreate hkeywords hremoved howed hheld
  · exact h.read ht hcreate rfl rfl ((hok t ht).1 rfl) (by simp [Thread.held])
  · exact h.request ht ((hok _ ht).2 id ids rfl) hkeywords hremoved
  · exact h.take ht hkeywords hremoved
  · exact h.put ht hkeywords hremoved

end

/-- The threads at the start of a run: unsubscribe requests and push jobs. -/
def Thread.starts : Thread → Bool
  | .deleteIds _ | .firstQuery _ | .daily _ => true
  | _ => false

theorem custody_init {c : Config Thread Shared} (hstart : ∀ t ∈ c.threads, t.starts = true)
    (hremoved : c.shared.removed = []) : Custody c.shared.keywords c := by
  -- such threads hold no copies yet
  have hheld : ∀ t ∈ c.threads, t.isCreate = false ∧ t.held = [] := by
    intro t ht
    have hstarts := hstart t ht
    cases t with
    | deleteIds | firstQuery | daily => exact ⟨rfl, rfl⟩
    | _ => simp [Thread.starts] at hstarts
  refine ⟨fun t ht => (hheld t ht).1, by simp [hremoved], ⟨fun r hr => ⟨r, hr, .refl r⟩, ?_⟩,
    fun r hr _ => .inl ⟨r, hr, .refl r⟩⟩
  intro t ht r hr
  simp [(hheld t ht).2] at hr

/-- **When deleted subscriptions stay deleted and no other one is lost.** From every
store, with any number of unsubscribe requests and push jobs: in every run in which
no request deletes an id while a job holds a copy of its record, and no job ends
between deleting a record and saving it, what requests have deleted is in no store
that is reached afterwards, and whenever all jobs have finished or ended, each
record of the start that no request has deleted is there, up to the date of its
last push. -/
theorem custody_run {c₀ c : Config Thread Shared} (hstart : ∀ t ∈ c₀.threads, t.starts = true)
    (hremoved : c₀.shared.removed = []) (h : Run next Orderly c₀ c) :
    (∀ id ∈ c.shared.removed, ∀ r ∈ c.shared.keywords, r.key ≠ id) ∧
      ((∀ t ∈ c.threads, t.isJob = false) → ∀ r ∈ c₀.shared.keywords, r.key ∉ c.shared.removed →
        ∃ r' ∈ c.shared.keywords, SameButDate r r') := by
  have hinv : Custody c₀.shared.keywords c :=
    h.invariant (custody_init hstart hremoved) fun c i a t t' s' hc hok ht hnext =>
      hc.step hok ht hnext
  refine ⟨fun id hid => (hinv.gone id hid).1, fun hjobs r hr hkey => ?_⟩
  rcases hinv.kept r hr hkey with hstored | ⟨t, ht, r', hr', -⟩
  · exact hstored
  · -- only a job owes a record
    have hjob := hjobs t ht
    cases t with
    | saving => simp [Thread.isJob] at hjob
    | _ => simp [Thread.owed] at hr'

/-- A test for the condition. -/
def orderly (c : Config Thread Shared) (i : Nat) (a : Label) : Bool :=
  match c.threads[i]? with
  | none => true
  | some t =>
    (a ≠ .crash || t.owed = none) &&
      match t with
      | .deleteIds (id :: _) => c.threads.all fun u => u.held.all fun r => r.key ≠ objectId id
      | _ => true

theorem orderly_sound (c : Config Thread Shared) (i : Nat) (a : Label) (h : orderly c i a = true) :
    Orderly c i a := by
  intro t ht
  rw [orderly, ht, Bool.and_eq_true] at h
  obtain ⟨hcrash, hdelete⟩ := h
  refine ⟨fun ha => by simpa [ha] using hcrash, ?_⟩
  rintro id ids rfl u hu r hr
  have hall := List.all_eq_true.mp (List.all_eq_true.mp hdelete u hu) r hr
  simpa using hall

/-- The record of the examples. -/
def pushedRecord : UserKeyword := ⟨lit "1", lit "k", [], 0, lit "u", none, lit "e"⟩

/-- A daily push next to a request that unsubscribes from the record. -/
def pushAndDelete : Config Thread Shared :=
  ⟨[.daily [lit "u"], .deleteIds [lit "1"]], ⟨⟨[pushedRecord], by decide⟩, 0, [], []⟩⟩

/-- A step at time one at which everything goes through. -/
def goOn : Label := .go ⟨1, true, [], [lit "e"]⟩

/-- The daily push as far as the copy of the record, in front of deleting it. -/
def untilCopied : List (Nat × Label) := List.replicate 6 (0, goOn)

/-- First the push, then the request. -/
theorem custody_in_turn :
    ∃ c, Run next Orderly pushAndDelete c ∧ c.threads = [.done, .done] ∧
      (∀ id ∈ c.shared.removed, ∀ r ∈ c.shared.keywords, r.key ≠ id) ∧
      ((∀ t ∈ c.threads, t.isJob = false) → ∀ r ∈ pushAndDelete.shared.keywords,
        r.key ∉ c.shared.removed → ∃ r' ∈ c.shared.keywords, SameButDate r r') := by
  have heval : (exec next orderly pushAndDelete (untilCopied ++ List.replicate 5 (0, goOn) ++
      [(1, goOn), (1, goOn)])).map Config.threads = some [.done, .done] := by decide +kernel
  obtain ⟨c, hrun, hthreads⟩ := exists_run orderly_sound heval
  exact ⟨c, hrun, hthreads, custody_run (by decide) rfl hrun⟩

/-- **A deleted subscription comes back, and another one is lost.** A request deletes
the record while the job holds its copy, and the job saves the copy. Or the job
ends between deleting the record and saving it, and no request has deleted it. -/
theorem custody_broken :
    (∃ c, Run next (fun _ _ _ => True) pushAndDelete c ∧
      ¬ ∀ id ∈ c.shared.removed, ∀ r ∈ c.shared.keywords, r.key ≠ id) ∧
    ∃ c, Run next (fun _ _ _ => True) pushAndDelete c ∧ (∀ t ∈ c.threads, t.isJob = false) ∧
      ¬ ∀ r ∈ pushAndDelete.shared.keywords, r.key ∉ c.shared.removed →
        ∃ r' ∈ c.shared.keywords, SameButDate r r' := by
  have hback : (exec next (fun _ _ _ => true) pushAndDelete (untilCopied ++ [(1, goOn), (0, goOn),
      (0, goOn)])).map (fun c => (c.shared.removed, c.shared.keywords.docs)) =
      some ([lit "1"], [pushedRecord.setLastpushdate 1]) := by decide +kernel
  have hlost : (exec next (fun _ _ _ => true) pushAndDelete
      (untilCopied ++ [(0, goOn), (0, .crash)])).map
        (fun c => (c.threads, c.shared.removed, c.shared.keywords.docs)) =
      some ([.done, .deleteIds [lit "1"]], [], []) := by decide +kernel
  obtain ⟨c, hrun, heq⟩ := exists_run (fun _ _ _ _ => trivial) hback
  obtain ⟨c', hrun', heq'⟩ := exists_run (fun _ _ _ _ => trivial) hlost
  obtain ⟨hremoved, hdocs⟩ := Prod.mk.inj heq
  obtain ⟨hthreads, heq'⟩ := Prod.mk.inj heq'
  obtain ⟨hremoved', hdocs'⟩ := Prod.mk.inj heq'
  refine ⟨⟨c, hrun, fun hgone => ?_⟩, c', hrun', ?_, fun hkept => ?_⟩
  · have hid : lit "1" ∈ c.shared.removed := by
      rw [hremoved]
      exact List.mem_singleton_self _
    have hr : pushedRecord.setLastpushdate 1 ∈ c.shared.keywords := by
      rw [Coll.mem_def, hdocs]
      exact List.mem_singleton_self _
    exact hgone _ hid _ hr rfl
  · rw [hthreads]
    decide
  · have hkey : pushedRecord.key ∉ c'.shared.removed := by simp [hremoved']
    obtain ⟨r', hr', -⟩ := hkept pushedRecord List.mem_cons_self hkey
    rw [Coll.mem_def, hdocs'] at hr'
    simp at hr'

end SpringReader
