import Mathlib.Data.List.Basic

/-!
# Configuration blocks

How the configuration parser of nginx drives a module: it reads the text once,
calls the handler of each directive as it meets it, and gives each block a
configuration of its own. When the outermost block has been read, each block's
configuration is merged with that of the block around it, from the outside
inwards.

A handler gets a state that all blocks share and the configuration of its
block. What it does to either part can often be said without the other one;
`parse_shared` and `parse_own` then say what the whole text does.
-/

namespace Nginx

universe u v w

variable {δ : Type u} {σ : Type v} {κ τ : Type w} {ε : Type}

/-- The text of a block: directives and blocks, in order. -/
inductive Body (δ : Type u) where
  | nil
  | directive (d : δ) (rest : Body δ)
  | block (inner rest : Body δ)
  deriving DecidableEq, Repr

/-- The configurations of the blocks of a text, with those of the blocks in them. -/
inductive Confs (κ : Type w) where
  | nil
  | node (conf : κ) (inner rest : Confs κ)

namespace Body

/-- The directives of the text, in the order in which they are read. -/
def directives : Body δ → List δ
  | .nil => []
  | .directive d rest => d :: rest.directives
  | .block inner rest => inner.directives ++ rest.directives

/-- The directives outside of its blocks. -/
def own : Body δ → List δ
  | .nil => []
  | .directive d rest => d :: rest.own
  | .block _ rest => rest.own

/-- The text with only some of its directives. -/
def filter (keep : δ → Bool) : Body δ → Body δ
  | .nil => .nil
  | .directive d rest => if keep d then .directive d (rest.filter keep) else rest.filter keep
  | .block inner rest => .block (inner.filter keep) (rest.filter keep)

/-- Read a text: the shared state, the configuration of the text's own block and
those of the blocks in it. A new block starts with the configuration `init`. -/
def parse (set : σ → κ → δ → Except ε (σ × κ)) (init : κ) :
    Body δ → σ → κ → Except ε (σ × κ × Confs κ)
  | .nil, s, k => .ok (s, k, .nil)
  | .directive d rest, s, k =>
    match set s k d with
    | .error e => .error e
    | .ok (s, k) => rest.parse set init s k
  | .block inner rest, s, k =>
    match inner.parse set init s init with
    | .error e => .error e
    | .ok (s, c, cs) =>
      match rest.parse set init s k with
      | .error e => .error e
      | .ok (s, k, cs') => .ok (s, k, .node c cs cs')

/-- The configurations of the blocks, when a directive changes a configuration by
`h`, whatever the shared state. -/
def confs (h : τ → δ → τ) (init : τ) : Body δ → Confs τ
  | .nil => .nil
  | .directive _ rest => rest.confs h init
  | .block inner rest => .node (inner.own.foldl h init) (inner.confs h init) (rest.confs h init)

/-- The directives of each block, with those of the blocks around it behind them, from the
inside outwards; outer blocks first. `outer` are those around the text. -/
def levels (outer : List (List δ)) : Body δ → List (List (List δ))
  | .nil => []
  | .directive _ rest => rest.levels outer
  | .block inner rest =>
    (inner.own :: outer) :: (inner.levels (inner.own :: outer) ++ rest.levels outer)

end Body

namespace Confs

/-- The configurations, outer blocks first. -/
def toList : Confs κ → List κ
  | .nil => []
  | .node c inner rest => c :: (inner.toList ++ rest.toList)

/-- A part of each configuration. -/
def map (p : κ → τ) : Confs κ → Confs τ
  | .nil => .nil
  | .node c inner rest => .node (p c) (inner.map p) (rest.map p)

/-- Merge each configuration with the one around it, which has been merged
before. -/
def merge (f : κ → κ → κ) (parent : κ) : Confs κ → Confs κ
  | .nil => .nil
  | .node c inner rest => .node (f parent c) (inner.merge f (f parent c)) (rest.merge f parent)

theorem toList_map (p : κ → τ) (cs : Confs κ) : (cs.map p).toList = cs.toList.map p := by
  induction cs with
  | nil => rfl
  | node c inner rest ihi ihr => simp [map, toList, ihi, ihr]

/-- A part that is merged by itself. -/
theorem map_merge {p : κ → τ} {f : κ → κ → κ} {f' : τ → τ → τ}
    (hf : ∀ parent c, p (f parent c) = f' (p parent) (p c)) (parent : κ) (cs : Confs κ) :
    (cs.merge f parent).map p = (cs.map p).merge f' (p parent) := by
  induction cs generalizing parent with
  | nil => rfl
  | node c inner rest ihi ihr => simp [map, merge, hf, ihi, ihr]

/-- What merging makes of two configurations holds of all merged ones. -/
theorem forall_merge {f : κ → κ → κ} {P Q : κ → Prop} (hQ : ∀ c, Q c → P c)
    (hf : ∀ parent c, P parent → P c → Q (f parent c)) {cs : Confs κ} {parent : κ}
    (hparent : P parent) (hcs : ∀ c ∈ cs.toList, P c) : ∀ c ∈ (cs.merge f parent).toList, Q c := by
  -- on the blocks, with the merged configuration around them
  induction cs generalizing parent with
  | nil => simp [merge, toList]
  | node c inner rest ihi ihr =>
    simp only [toList, List.forall_mem_cons, List.forall_mem_append] at hcs
    obtain ⟨hc, hinner, hrest⟩ := hcs
    have hmerged := hf parent c hparent hc
    simp only [merge, toList, List.forall_mem_cons, List.forall_mem_append]
    exact ⟨hmerged, ihi (hQ _ hmerged) hinner, ihr hparent hrest⟩

end Confs

/-! ### Settings that are inherited as a whole -/

section Inherit

variable {given : κ → Bool} {default init : κ} {f : κ → δ → κ} {here : δ → Bool}

/-- A way to merge: a block without a setting has that of the block around it, and the
default if that has none. -/
def inherit (given : κ → Bool) (default prev conf : κ) : κ :=
  if given conf then conf else if given prev then prev else default

theorem given_inherit (hdefault : given default = true) (prev conf : κ) :
    given (inherit given default prev conf) = true := by
  unfold inherit
  split_ifs with hconf hprev
  · exact hconf
  · exact hprev
  · exact hdefault

/-- The directives of the nearest level that has one of the kind. -/
def nearest (here : δ → Bool) (levels : List (List δ)) : Option (List δ) :=
  levels.find? (·.any here)

/-- What the directives of the nearest level set, or the default. -/
def setting (here : δ → Bool) (f : κ → δ → κ) (init default : κ) (levels : List (List δ)) : κ :=
  (nearest here levels).elim default fun ds => ds.foldl f init

theorem given_foldl (hstep : ∀ k d, given (f k d) = (given k || here d)) (ds : List δ) (k : κ) :
    given (ds.foldl f k) = (given k || ds.any here) := by
  induction ds generalizing k with
  | nil => simp
  | cons d ds ih => rw [List.foldl_cons, ih, hstep, List.any_cons, Bool.or_assoc]

/-- **One level more**: its own setting, if it has one. -/
theorem inherit_foldl (hgiven : ∀ ds : List δ, given (ds.foldl f init) = ds.any here) {outer : κ}
    {levels : List (List δ)}
    (houter : (if given outer then outer else default) = setting here f init default levels)
    (ds : List δ) :
    inherit given default outer (ds.foldl f init) = setting here f init default (ds :: levels) := by
  unfold inherit setting nearest
  rw [hgiven, List.find?_cons]
  cases hany : ds.any here with
  | true => rfl
  | false => exact houter

/-- **Inheritance from the nearest level**, for every text: merging from the outside inwards
leaves each block with the setting of the nearest level that has a directive of the kind,
itself included. -/
theorem merge_inherit (hdefault : given default = true)
    (hgiven : ∀ ds : List δ, given (ds.foldl f init) = ds.any here) (body : Body δ) {outer : κ}
    {levels : List (List δ)}
    (houter : (if given outer then outer else default) = setting here f init default levels) :
    ((body.confs f init).merge (inherit given default) outer).toList =
      (body.levels levels).map (setting here f init default) := by
  -- on the text, with the merged configuration around it
  induction body generalizing outer levels with
  | nil => rfl
  | directive d rest ih => exact ih houter
  | block inner rest ihi ihr =>
    have hblock := inherit_foldl hgiven houter inner.own
    have hinner : (if given (inherit given default outer (inner.own.foldl f init)) then
        inherit given default outer (inner.own.foldl f init) else default) =
          setting here f init default (inner.own :: levels) := by
      rw [given_inherit hdefault, if_pos rfl, hblock]
    rw [Body.confs, Confs.merge, Confs.toList, Body.levels, List.map_cons, List.map_append,
      ihi hinner, ihr houter, hblock]

/-- The outermost text has no level around it. -/
theorem merge_inherit_outermost (hdefault : given default = true)
    (hgiven : ∀ ds : List δ, given (ds.foldl f init) = ds.any here) (body : Body δ) :
    ((body.confs f init).merge (inherit given default) (body.own.foldl f init)).toList =
      (body.levels [body.own]).map (setting here f init default) := by
  refine merge_inherit hdefault hgiven body ?_
  unfold setting nearest
  rw [hgiven, List.find?_cons]
  cases body.own.any here <;> rfl

end Inherit

section Parse

variable {set : σ → κ → δ → Except ε (σ × κ)} {init : κ}

/-! What reading a text that is accepted does, for each kind of text. -/

theorem parse_nil {s s' : σ} {k k' : κ} {cs : Confs κ} :
    (Body.nil : Body δ).parse set init s k = .ok (s', k', cs) ↔ s = s' ∧ k = k' ∧ .nil = cs := by
  simp [Body.parse]

theorem parse_directive {d : δ} {rest : Body δ} {s s' : σ} {k k' : κ} {cs : Confs κ} :
    (Body.directive d rest).parse set init s k = .ok (s', k', cs) ↔
      ∃ s₁ k₁, set s k d = .ok (s₁, k₁) ∧ rest.parse set init s₁ k₁ = .ok (s', k', cs) := by
  rw [Body.parse]
  cases hset : set s k d with
  | error e => simp
  | ok p =>
    obtain ⟨s₁, k₁⟩ := p
    simp

theorem parse_block {inner rest : Body δ} {s s' : σ} {k k' : κ} {cs : Confs κ} :
    (Body.block inner rest).parse set init s k = .ok (s', k', cs) ↔
      ∃ s₁ c cs₁ cs₂, inner.parse set init s init = .ok (s₁, c, cs₁) ∧
        rest.parse set init s₁ k = .ok (s', k', cs₂) ∧ .node c cs₁ cs₂ = cs := by
  rw [Body.parse]
  cases hinner : inner.parse set init s init with
  | error e => simp
  | ok p =>
    obtain ⟨s₁, c, cs₁⟩ := p
    dsimp only
    cases hrest : rest.parse set init s₁ k with
    | error e => simp [hrest]
    | ok p =>
      obtain ⟨s₂, k₂, cs₂⟩ := p
      simp [hrest, and_assoc]

/-- **The shared state after a text**, in a part that the handlers change whatever
their block. -/
theorem parse_shared {q : σ → τ} {g : τ → δ → τ}
    (hg : ∀ s k d s' k', set s k d = .ok (s', k') → q s' = g (q s) d) {body : Body δ} {s s' : σ}
    {k k' : κ} {cs : Confs κ} (h : body.parse set init s k = .ok (s', k', cs)) :
    q s' = body.directives.foldl g (q s) := by
  -- on the text; a block is read before what follows it
  induction body generalizing s k s' k' cs with
  | nil =>
    obtain ⟨rfl, -, -⟩ := parse_nil.mp h
    rfl
  | directive d rest ih =>
    obtain ⟨s₁, k₁, hset, hrest⟩ := parse_directive.mp h
    rw [Body.directives, List.foldl_cons, ← hg s k d s₁ k₁ hset]
    exact ih hrest
  | block inner rest ihi ihr =>
    obtain ⟨s₁, c, cs₁, cs₂, hinner, hrest, -⟩ := parse_block.mp h
    rw [Body.directives, List.foldl_append, ← ihi hinner]
    exact ihr hrest

/-- **The configurations after a text**, in a part that the handlers change
whatever the shared state, as long as it is one of those that lead to the last one. -/
theorem parse_own_of {R : σ → Prop} {p : κ → τ} {f : τ → δ → τ}
    (hf : ∀ s k d s' k', set s k d = .ok (s', k') → R s' → R s ∧ p k' = f (p k) d)
    {body : Body δ} {s s' : σ} {k k' : κ} {cs : Confs κ}
    (h : body.parse set init s k = .ok (s', k', cs)) (hs' : R s') :
    R s ∧ p k' = body.own.foldl f (p k) ∧ cs.map p = body.confs f (p init) := by
  induction body generalizing s k s' k' cs with
  | nil =>
    obtain ⟨rfl, rfl, rfl⟩ := parse_nil.mp h
    exact ⟨hs', rfl, rfl⟩
  | directive d rest ih =>
    obtain ⟨s₁, k₁, hset, hrest⟩ := parse_directive.mp h
    obtain ⟨hs₁, hown, hconfs⟩ := ih hrest hs'
    obtain ⟨hs, hp⟩ := hf s k d s₁ k₁ hset hs₁
    rw [Body.own, List.foldl_cons, ← hp]
    exact ⟨hs, hown, hconfs⟩
  | block inner rest ihi ihr =>
    obtain ⟨s₁, c, cs₁, cs₂, hinner, hrest, rfl⟩ := parse_block.mp h
    obtain ⟨hs₁, hown, hconfs⟩ := ihr hrest hs'
    obtain ⟨hs, hinner₁, hinner₂⟩ := ihi hinner hs₁
    -- the text behind a block goes on with the configuration in front of it
    refine ⟨hs, hown, ?_⟩
    rw [Confs.map, Body.confs, hinner₁, hinner₂, hconfs]

/-- The same, whatever the shared state. -/
theorem parse_own {p : κ → τ} {f : τ → δ → τ}
    (hf : ∀ s k d s' k', set s k d = .ok (s', k') → p k' = f (p k) d) {body : Body δ} {s s' : σ}
    {k k' : κ} {cs : Confs κ} (h : body.parse set init s k = .ok (s', k', cs)) :
    p k' = body.own.foldl f (p k) ∧ cs.map p = body.confs f (p init) :=
  (parse_own_of (R := fun _ => True)
    (fun s k d s' k' hset _ => ⟨trivial, hf s k d s' k' hset⟩) h trivial).2

/-- **A part of a text's effect**, computed from that part alone. -/
theorem parse_map {σ' κ' : Type w} {q : σ → σ'} {p : κ → κ'}
    {set' : σ' → κ' → δ → Except ε (σ' × κ')}
    (hset : ∀ s k d s' k', set s k d = .ok (s', k') → set' (q s) (p k) d = .ok (q s', p k'))
    {body : Body δ} {s s' : σ} {k k' : κ} {cs : Confs κ}
    (h : body.parse set init s k = .ok (s', k', cs)) :
    body.parse set' (p init) (q s) (p k) = .ok (q s', p k', cs.map p) := by
  induction body generalizing s k s' k' cs with
  | nil =>
    obtain ⟨rfl, rfl, rfl⟩ := parse_nil.mp h
    rfl
  | directive d rest ih =>
    obtain ⟨s₁, k₁, h₁, hrest⟩ := parse_directive.mp h
    exact parse_directive.mpr ⟨q s₁, p k₁, hset s k d s₁ k₁ h₁, ih hrest⟩
  | block inner rest ihi ihr =>
    obtain ⟨s₁, c, cs₁, cs₂, hinner, hrest, rfl⟩ := parse_block.mp h
    exact parse_block.mpr ⟨q s₁, p c, cs₁.map p, cs₂.map p, ihi hinner, ihr hrest, rfl⟩

/-- **An invariant of the shared state and the configurations.** A directive may
rely on both, and must keep what holds of the configurations of other blocks. -/
theorem parse_invariant {Inv : σ → Prop} {Own : σ → κ → Prop} (hinit : ∀ s, Inv s → Own s init)
    (hset : ∀ s k d s' k', set s k d = .ok (s', k') → Inv s → Own s k →
      Inv s' ∧ Own s' k' ∧ ∀ c, Own s c → Own s' c)
    {body : Body δ} {s s' : σ} {k k' : κ} {cs : Confs κ}
    (h : body.parse set init s k = .ok (s', k', cs)) (hs : Inv s) (hk : Own s k) :
    Inv s' ∧ Own s' k' ∧ (∀ c ∈ cs.toList, Own s' c) ∧ ∀ c, Own s c → Own s' c := by
  induction body generalizing s k s' k' cs with
  | nil =>
    obtain ⟨rfl, rfl, rfl⟩ := parse_nil.mp h
    exact ⟨hs, hk, by simp [Confs.toList], fun _ => id⟩
  | directive d rest ih =>
    obtain ⟨s₁, k₁, h₁, hrest⟩ := parse_directive.mp h
    obtain ⟨hs₁, hk₁, hkeep⟩ := hset s k d s₁ k₁ h₁ hs hk
    obtain ⟨hs', hk', hcs, hkeep'⟩ := ih hrest hs₁ hk₁
    exact ⟨hs', hk', hcs, fun c hc => hkeep' c (hkeep c hc)⟩
  | block inner rest ihi ihr =>
    obtain ⟨s₁, c, cs₁, cs₂, hinner, hrest, rfl⟩ := parse_block.mp h
    obtain ⟨hs₁, hc, hcs₁, hkeep⟩ := ihi hinner hs (hinit s hs)
    obtain ⟨hs', hk', hcs₂, hkeep'⟩ := ihr hrest hs₁ (hkeep k hk)
    refine ⟨hs', hk', fun x hx => ?_, fun x hx => hkeep' x (hkeep x hx)⟩
    -- the inner block is done when the rest of the text is read
    rw [Confs.toList, List.mem_cons, List.mem_append] at hx
    rcases hx with rfl | hx | hx
    · exact hkeep' _ hc
    · exact hkeep' _ (hcs₁ x hx)
    · exact hcs₂ x hx

/-- **Directives without effect** can be left out. -/
theorem parse_filter {keep : δ → Bool} (hkeep : ∀ s k d, keep d = false → set s k d = .ok (s, k))
    (body : Body δ) (s : σ) (k : κ) :
    (body.filter keep).parse set init s k = body.parse set init s k := by
  induction body generalizing s k with
  | nil => rfl
  | directive d rest ih =>
    rw [Body.filter, Body.parse]
    split
    · rw [Body.parse]
      simp only [ih]
    next hd =>
      rw [hkeep s k d (by simpa using hd)]
      exact ih s k
  | block inner rest ihi ihr =>
    simp only [Body.filter, Body.parse, ihi, ihr]

end Parse

end Nginx
