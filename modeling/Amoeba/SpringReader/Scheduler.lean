import Amoeba.SpringReader.Keywords

/-!
# The scheduler

`SendEmailScheduler` gives each job and its trigger one name in one group: the
daily push is `DIALYPUSH`, and the first push of a subscription has the name of
the user followed by the keyword.

The scheduler itself is code of a library. It stores jobs, and `scheduleJob` throws
exactly when a job or trigger of this name and group is stored. A job whose
trigger fires no more is removed.
-/

namespace SpringReader

open Java DocStore

/-- What a job does. -/
inductive Task where
  /-- `SendEmailJob` -/
  | daily
  /-- `FirstPushSendEmailJob`, with its data. -/
  | firstPush (username pushemail keyword : JString)
  deriving DecidableEq, Repr

/-- The identity of a job and of its trigger. -/
structure JobKey where
  name : JString
  group : JString
  deriving DecidableEq, Repr

/-- A stored job. -/
structure Job where
  key : JobKey
  task : Task
  deriving DecidableEq, Repr

/-- The stored jobs. -/
abbrev Quartz := Coll Job.key

/-- `SENDEMAILGROUP` -/
def sendEmailGroup : JString := lit "SENDEMAILGROUP"

/-- `scheduleJob`; `none` stands for the `SchedulerException`. -/
def scheduleJob (q : Quartz) (job : Job) : Option Quartz :=
  if job.key ∈ q.docs.map Job.key then none else some (q.save job)

theorem scheduleJob_eq_some {q q' : Quartz} {job : Job} (h : scheduleJob q job = some q') :
    job.key ∉ q.docs.map Job.key ∧ ∀ j, j ∈ q' ↔ j = job ∨ j ∈ q := by
  unfold scheduleJob at h
  split at h
  · simp at h
  next hfresh =>
    obtain rfl := Option.some.inj h
    refine ⟨hfresh, fun j => Coll.mem_save_of_fresh fun y hy heq => hfresh ?_⟩
    exact heq ▸ List.mem_map_of_mem hy

/-- The identity of the first push of a subscription. -/
def firstPushKey (username keyword : JString) : JobKey := ⟨username ++ keyword, sendEmailGroup⟩

/-- The job of the first push of a subscription. -/
def firstPushJob (username pushemail keyword : JString) : Job :=
  ⟨firstPushKey username keyword, .firstPush username pushemail keyword⟩

/-- `createFirstPushTask`: the answer, and the jobs afterwards. A rejected job is
only logged. -/
def createFirstPushTask (username pushemail keyword : JString) (q : Quartz) : Bool × Quartz :=
  if pushemail.isEmpty || keyword.isEmpty then (false, q)
  else
    match scheduleJob q (firstPushJob username pushemail keyword) with
    | none => (false, q)
    | some q => (true, q)

/-- The identity of the daily push. -/
def dailyKey : JobKey := ⟨lit "DIALYPUSH", sendEmailGroup⟩

/-- `startCyclePushTask` -/
def startCyclePushTask (q : Quartz) : Quartz := (scheduleJob q ⟨dailyKey, .daily⟩).getD q

/-- A first push has run and its job is removed. The daily push repeats forever. -/
def finished (key : JobKey) (q : Quartz) : Quartz :=
  if q.docs.any fun j => j.key = key ∧ j.task ≠ .daily then q.delete key else q

/-- **A first push is accepted** if and only if its name is not stored. -/
theorem createFirstPushTask_eq (username : JString) {pushemail keyword : JString}
    (hemail : pushemail ≠ []) (hkeyword : keyword ≠ []) (q : Quartz) :
    ((createFirstPushTask username pushemail keyword q).1 = true ↔
        firstPushKey username keyword ∉ q.docs.map Job.key) ∧
      ∀ j, j ∈ (createFirstPushTask username pushemail keyword q).2 →
        j = firstPushJob username pushemail keyword ∨ j ∈ q := by
  have hempty : ¬ (pushemail.isEmpty || keyword.isEmpty) := by simp [hemail, hkeyword]
  rw [createFirstPushTask, if_neg hempty]
  cases hs : scheduleJob q (firstPushJob username pushemail keyword) with
  | none =>
    refine ⟨?_, fun j => .inr⟩
    unfold scheduleJob at hs
    split at hs
    next hmem => exact iff_of_false (by simp) (not_not.mpr hmem)
    · simp at hs
  | some q' =>
    obtain ⟨hfresh, hmem⟩ := scheduleJob_eq_some hs
    exact ⟨iff_of_true rfl hfresh, fun j => (hmem j).mp⟩

/-- An accepted first push is stored, next to the jobs that were there. -/
theorem createFirstPushTask_true {username pushemail keyword : JString} {q : Quartz}
    (h : (createFirstPushTask username pushemail keyword q).1 = true) (j : Job) :
    j ∈ (createFirstPushTask username pushemail keyword q).2 ↔
      j = firstPushJob username pushemail keyword ∨ j ∈ q := by
  unfold createFirstPushTask at h ⊢
  split at h
  · simp at h
  · split at h
    · simp at h
    next hempty _ q' hs =>
      rw [if_neg hempty]
      exact (scheduleJob_eq_some hs).2 j

/-- Removing a job leaves no new one. -/
theorem mem_of_mem_finished {key : JobKey} {q : Quartz} {j : Job} (h : j ∈ finished key q) :
    j ∈ q := by
  unfold finished at h
  split at h
  · exact (Coll.mem_delete.mp h).1
  · exact h

end SpringReader
