import Mathlib.Data.List.Basic

/-!
# Threads that share a state

A configuration is a list of threads, each with a local state, and one shared
state. A step takes one thread one atomic step further; what the step reads from
outside (a clock, an answer, an identifier) is its label. A run is any sequence
of such steps, so it is any interleaving, and threads that have not started or
that have stopped are threads that are not chosen.

A run can be restricted to steps that meet a condition on the configuration in
front of them. `Run.invariant` is the induction over a run. `Exclusive` is the part of
such an invariant that says that no two threads claim one thing.
-/

namespace Interleaving

variable {τ σ α : Type*}

/-- Threads and the state they share. -/
structure Config (τ σ : Type*) where
  threads : List τ
  shared : σ
  deriving DecidableEq, Repr

/-- One thread takes one step. -/
def stepAt (next : τ → σ → α → Option (τ × σ)) (c : Config τ σ) (i : Nat) (a : α) :
    Option (Config τ σ) :=
  c.threads[i]?.bind fun t => (next t c.shared a).map fun x => ⟨c.threads.set i x.1, x.2⟩

theorem stepAt_eq_some {next : τ → σ → α → Option (τ × σ)} {c c' : Config τ σ} {i : Nat} {a : α} :
    stepAt next c i a = some c' ↔
      ∃ t t' s', c.threads[i]? = some t ∧ next t c.shared a = some (t', s') ∧
        c' = ⟨c.threads.set i t', s'⟩ := by
  unfold stepAt
  rw [Option.bind_eq_some_iff]
  constructor
  · rintro ⟨t, ht, hmap⟩
    obtain ⟨⟨t', s'⟩, hnext, rfl⟩ := Option.map_eq_some_iff.mp hmap
    exact ⟨t, t', s', ht, hnext, rfl⟩
  · rintro ⟨t, t', s', ht, hnext, rfl⟩
    exact ⟨t, ht, Option.map_eq_some_iff.mpr ⟨(t', s'), hnext, rfl⟩⟩

/-- The configurations that runs from `c₀` reach whose steps all meet `ok`. -/
inductive Run (next : τ → σ → α → Option (τ × σ)) (ok : Config τ σ → Nat → α → Prop)
    (c₀ : Config τ σ) : Config τ σ → Prop
  | init : Run next ok c₀ c₀
  | step {c c' : Config τ σ} {i : Nat} {a : α} :
      Run next ok c₀ c → ok c i a → stepAt next c i a = some c' → Run next ok c₀ c'

/-- The steps of a run one by one, for a fixed list of choices, as long as they pass a
test. -/
def exec (next : τ → σ → α → Option (τ × σ)) (test : Config τ σ → Nat → α → Bool) (c : Config τ σ) :
    List (Nat × α) → Option (Config τ σ)
  | [] => some c
  | (i, a) :: rest =>
    if test c i a then (stepAt next c i a).bind fun c' => exec next test c' rest else none

variable {next : τ → σ → α → Option (τ × σ)} {ok : Config τ σ → Nat → α → Prop}
  {c₀ : Config τ σ}

/-- Choices that pass a test for the condition are a run. -/
theorem run_exec {test : Config τ σ → Nat → α → Bool} (htest : ∀ c i a, test c i a = true → ok c i a)
    {choices : List (Nat × α)} {c c' : Config τ σ} (hc : Run next ok c₀ c)
    (h : exec next test c choices = some c') : Run next ok c₀ c' := by
  induction choices generalizing c with
  | nil =>
    obtain rfl := Option.some.inj h
    exact hc
  | cons choice rest ih =>
    obtain ⟨i, a⟩ := choice
    rw [exec] at h
    split at h
    -- a choice that passes is one more step of the run
    next hpass =>
      obtain ⟨c₁, hstep, hrest⟩ := Option.bind_eq_some_iff.mp h
      exact ih (hc.step (htest c i a hpass) hstep) hrest
    · simp at h

/-- What a list of choices computes is what a run reaches. -/
theorem exists_run {β : Type*} {test : Config τ σ → Nat → α → Bool}
    (htest : ∀ c i a, test c i a = true → ok c i a) {choices : List (Nat × α)}
    {f : Config τ σ → β} {y : β} (h : (exec next test c₀ choices).map f = some y) :
    ∃ c, Run next ok c₀ c ∧ f c = y := by
  obtain ⟨c, hexec, hf⟩ := Option.map_eq_some_iff.mp h
  exact ⟨c, run_exec htest .init hexec, hf⟩

/-- **The invariant rule.** What holds at the start and is kept by every step that
meets the condition holds in every configuration of every run. -/
theorem Run.invariant {I : Config τ σ → Prop} (hinit : I c₀)
    (hstep : ∀ c i a t t' s', I c → ok c i a → c.threads[i]? = some t →
      next t c.shared a = some (t', s') → I ⟨c.threads.set i t', s'⟩)
    {c : Config τ σ} (h : Run next ok c₀ c) : I c := by
  induction h with
  | init => exact hinit
  | step _ hok hs ih =>
    -- the configuration behind the step is the one with the new thread in it
    obtain ⟨t, t', s', ht, hnext, rfl⟩ := stepAt_eq_some.mp hs
    exact hstep _ _ _ t t' s' ih hok ht hnext

/-- The threads after a step: the one that moved, and the others. -/
theorem getElem?_set_cases {threads : List τ} {i j : Nat} {t' x : τ}
    (h : (threads.set i t')[j]? = some x) : i = j ∧ x = t' ∨ i ≠ j ∧ threads[j]? = some x := by
  rw [List.getElem?_set] at h
  split at h
  next hij =>
    split at h
    · exact .inl ⟨hij, (Option.some.inj h).symm⟩
    · simp at h
  next hij => exact .inr ⟨hij, h⟩

/-- What holds of the thread that moved and of all before holds of all. -/
theorem forall_mem_set {P : τ → Prop} {threads : List τ} {i : Nat} {t' : τ} (ht' : P t')
    (h : ∀ x ∈ threads, P x) : ∀ x ∈ threads.set i t', P x := by
  intro x hx
  rcases List.mem_or_eq_of_mem_set hx with hx | rfl
  · exact h x hx
  · exact ht'

/-! ### Claims -/

section

variable {κ : Type*} {claim : τ → Option κ} {threads : List τ} {i : Nat} {t t' : τ}

/-- No two threads claim one thing. -/
def Exclusive (claim : τ → Option κ) (threads : List τ) : Prop :=
  ∀ (i j : Nat) (t t' : τ) (x : κ), threads[i]? = some t → threads[j]? = some t' →
    claim t = some x → claim t' = some x → i = j

/-- A thread claims what no other one does. -/
theorem Exclusive.set (h : Exclusive claim threads)
    (hfree : ∀ x, claim t' = some x → ∀ j u, j ≠ i → threads[j]? = some u → claim u ≠ some x) :
    Exclusive claim (threads.set i t') := by
  intro k j u v x hu hv hux hvx
  -- each of the two is the thread that moved, or one as before
  rcases getElem?_set_cases hu with ⟨rfl, rfl⟩ | ⟨hik, hk⟩ <;>
    rcases getElem?_set_cases hv with ⟨rfl, rfl⟩ | ⟨hij, hj⟩
  · rfl
  · exact absurd hvx (hfree x hux j v (Ne.symm hij) hj)
  · exact absurd hux (hfree x hvx k u (Ne.symm hik) hk)
  · exact h k j u v x hk hj hux hvx

/-- A thread claims no more than before. -/
theorem Exclusive.keep (h : Exclusive claim threads) (ht : threads[i]? = some t)
    (hclaim : ∀ x, claim t' = some x → claim t = some x) : Exclusive claim (threads.set i t') :=
  h.set fun x hx j u hj hu hux => hj (h j i u t x hu ht hux (hclaim x hx))

end

end Interleaving
