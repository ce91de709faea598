import Mathlib

/-!
# Quoted literals in a statement

A lexer for the literals of a statement that are enclosed in a quote character,
where two quotes in a row stand for a quote inside the literal, and templates:
fixed text with holes that are filled with arbitrary values.

* `kept_iff_paired` — a value leaves the literal it is put into as it is exactly
  when its quotes come in pairs.
* `sameStructure_iff` — a template whose holes stand inside literals keeps its
  literal structure exactly when the quotes of every value come in pairs.
-/

namespace SqlLiteral

variable {α : Type} [DecidableEq α]

/-! ### The lexer -/

/-- Where a lexer stands in a statement. -/
inductive State where
  | outside
  | inside
  /-- A quote has been read inside a literal: it ends the literal, unless
  another quote follows. -/
  | quote
  deriving DecidableEq, Repr

/-- The lexer at one character. -/
def step (q : α) : State → α → State
  | .outside, c => if c = q then .inside else .outside
  | .inside, c => if c = q then .quote else .inside
  | .quote, c => if c = q then .inside else .outside

/-- The state behind a text. -/
def run (q : α) (s : State) (l : List α) : State := l.foldl (step q) s

/-- The states behind each character of a text. -/
def states (q : α) : State → List α → List State
  | _, [] => []
  | s, c :: l => step q s c :: states q (step q s c) l

@[simp]
theorem run_nil (q : α) (s : State) : run q s [] = s := rfl

@[simp]
theorem run_cons (q : α) (s : State) (c : α) (l : List α) :
    run q s (c :: l) = run q (step q s c) l := rfl

/-- Only the state inside a literal leads where it leads. -/
theorem eq_inside_of_step_eq {q c : α} {s : State} (h : step q s c = step q .inside c) :
    s = .inside := by
  -- outside a quote opens a literal and behind a quote it goes on; inside it is the only one that waits
  cases s with
  | inside => rfl
  | outside => by_cases hc : c = q <;> simp [step, hc] at h
  | quote => by_cases hc : c = q <;> simp [step, hc] at h

/-- The state behind at least one character that is not a quote. -/
def State.plain : State → State
  | .inside => .inside
  | _ => .outside

theorem step_of_ne {q c : α} (hc : c ≠ q) (s : State) : step q s c = s.plain := by
  cases s <;> simp [step, State.plain, hc]

/-- A text without quotes leads to one state at once and stays there. -/
theorem states_plain {q : α} {l : List α} (hq : q ∉ l) (s : State) :
    states q s l = List.replicate l.length s.plain := by
  induction l generalizing s with
  | nil => rfl
  | cons c l ih =>
    have hc : c ≠ q := fun hc => hq (hc ▸ List.mem_cons_self)
    -- from the second character on nothing changes
    have hplain : s.plain.plain = s.plain := by
      cases s <;> rfl
    rw [states, step_of_ne hc, ih (fun h => hq (List.mem_cons_of_mem _ h)), hplain]
    rfl

theorem run_eq_getLast (q : α) (s : State) (l : List α) :
    run q s l = (states q s l).getLastD s := by
  induction l generalizing s with
  | nil => rfl
  | cons c l ih => rw [run_cons, ih, states, List.getLastD_cons]

theorem run_plain {q : α} {l : List α} (hl : l ≠ []) (hq : q ∉ l) (s : State) :
    run q s l = s.plain := by
  obtain ⟨c, l, rfl⟩ := List.exists_cons_of_ne_nil hl
  rw [run_eq_getLast, states_plain hq, List.length_cons, List.replicate_succ']
  simp

theorem run_append (q : α) (s : State) (a b : List α) :
    run q s (a ++ b) = run q (run q s a) b := List.foldl_append

theorem states_append (q : α) (s : State) (a b : List α) :
    states q s (a ++ b) = states q s a ++ states q (run q s a) b := by
  induction a generalizing s with
  | nil => rfl
  | cons c a ih => rw [List.cons_append, states, states, ih, List.cons_append, run_cons]

/-! ### Values inside a literal -/

/-- The quotes of a value come in pairs. -/
def paired (q : α) : List α → Bool
  | [] => true
  | [c] => c ≠ q
  | c :: d :: l => if c = q then d = q ∧ paired q l else paired q (d :: l)

/-- The value does not leave the literal, and ends inside it. -/
def Kept (q : α) (v : List α) : Prop := .outside ∉ states q .inside v ∧ run q .inside v = .inside

/-- **A value stays inside its literal exactly when its quotes come in pairs.** -/
theorem kept_iff_paired {q : α} {v : List α} : Kept q v ↔ paired q v := by
  -- along the definition of `paired`, which reads two characters at a quote
  induction v using paired.induct q with
  | case1 => simp [Kept, states, paired]
  | case2 c => by_cases hc : c = q <;> simp [Kept, states, paired, step, hc]
  | case3 d l ih =>
    rw [Kept] at ih ⊢
    by_cases hd : d = q
    · simpa [states, paired, step, hd] using ih
    · simp [states, paired, step, hd]
  | case4 c d l hc ih =>
    rw [Kept] at ih ⊢
    simpa [states, paired, step, hc] using ih

/-- Replacing characters other than quotes by texts without quotes does not
change what the lexer meets. -/
theorem states_flatMap {q : α} {f : α → List α} (hq : f q = [q])
    (hf : ∀ c, c ≠ q → f c ≠ [] ∧ q ∉ f c) (v : List α) (s : State) :
    (∀ t, t ∈ states q s (v.flatMap f) ↔ t ∈ states q s v) ∧
      run q s (v.flatMap f) = run q s v := by
  induction v generalizing s with
  | nil => simp
  | cons c v ih =>
    -- one character: the quote stands for itself, any other becomes plain text
    have hc : (∀ t, t ∈ states q s (f c) ↔ t = step q s c) ∧ run q s (f c) = step q s c := by
      by_cases hcq : c = q
      · subst hcq
        rw [hq]
        simp [states]
      · obtain ⟨hne, hmem⟩ := hf c hcq
        rw [states_plain hmem, run_plain hne hmem, step_of_ne hcq]
        simp [List.mem_replicate, hne]
    obtain ⟨ihstates, ihrun⟩ := ih (step q s c)
    rw [List.flatMap_cons, states_append, run_append, hc.2, run_cons, states]
    exact ⟨fun t => by rw [List.mem_append, hc.1, ihstates, List.mem_cons], ihrun⟩

theorem paired_flatMap {q : α} {f : α → List α} (hq : f q = [q])
    (hf : ∀ c, c ≠ q → f c ≠ [] ∧ q ∉ f c) (v : List α) :
    paired q (v.flatMap f) ↔ paired q v := by
  obtain ⟨hstates, hrun⟩ := states_flatMap hq hf v .inside
  rw [← kept_iff_paired, ← kept_iff_paired, Kept, Kept, hstates, hrun]

/-! ### Templates -/

/-- A piece of a template: fixed text, or a hole with the value it is filled with. -/
inductive Piece (α : Type) where
  | text (l : List α)
  | hole (v : List α)

/-- What a piece contributes to the statement. -/
def Piece.bytes : Piece α → List α
  | .text l => l
  | .hole v => v

/-- The holes stand inside literals of the fixed text, and are followed by fixed
text. -/
def Enclosed (q : α) : State → List (Piece α) → Prop
  | _, [] => True
  | s, .text l :: ps => Enclosed q (run q s l) ps
  | s, .hole _ :: ps => s = .inside ∧ (∃ c l ps', ps = .text (c :: l) :: ps') ∧ Enclosed q s ps

/-- **The statement has the literal structure of its template**: with the lexer
in the state `f` in the template and `s` in the statement, it is in the same
state behind each character of the fixed text, and no character of a value is
read outside a literal. -/
def SameStructure (q : α) : State → State → List (Piece α) → Prop
  | _, _, [] => True
  | f, s, .text l :: ps =>
    states q s l = states q f l ∧ SameStructure q (run q f l) (run q s l) ps
  | f, s, .hole v :: ps => .outside ∉ states q s v ∧ SameStructure q f (run q s v) ps

/-- **Filling the holes keeps the literal structure exactly when the quotes of
every value come in pairs.** -/
theorem sameStructure_iff {q : α} {s : State} {ps : List (Piece α)} (h : Enclosed q s ps) :
    SameStructure q s s ps ↔ ∀ v, .hole v ∈ ps → paired q v := by
  -- on the pieces; template and statement agree on the state in front of each
  induction ps generalizing s with
  | nil => simp [SameStructure]
  | cons p ps ih =>
    cases p with
    | text l =>
      rw [SameStructure, ih h]
      simp
    | hole v =>
      obtain ⟨rfl, ⟨c, l, ps', hps⟩, h⟩ := h
      -- the text behind the hole tells whether the literal is still open
      have hrun : SameStructure q .inside (run q .inside v) ps → run q .inside v = .inside := by
        intro hsame
        rw [hps, SameStructure, states, states, List.cons.injEq] at hsame
        exact eq_inside_of_step_eq hsame.1.1
      have hmem : (∀ w, .hole w ∈ .hole v :: ps → paired q w) ↔
          paired q v ∧ ∀ w, .hole w ∈ ps → paired q w := by
        simp [List.mem_cons, or_imp, forall_and]
      rw [SameStructure, hmem, ← ih h, ← kept_iff_paired, Kept]
      constructor
      · rintro ⟨hout, hsame⟩
        have hin := hrun hsame
        rw [hin] at hsame
        exact ⟨⟨hout, hin⟩, hsame⟩
      · rintro ⟨⟨hout, hin⟩, hsame⟩
        rw [hin]
        exact ⟨hout, hsame⟩

end SqlLiteral
