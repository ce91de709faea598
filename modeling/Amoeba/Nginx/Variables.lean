import Mathlib.Logic.Function.Basic

/-!
# The variables of a request

`r->variables` caches the values of the indexed variables.
`ngx_http_get_indexed_variable` calls the handler of a variable that is not
evaluated yet, and the handler has the whole request: that of a `map` drops and
evaluates the variables of its source, that of `$document_root` drops all
variables that are not to be cached. A dropped slot keeps its other fields, and
most handlers leave the `escape` flag as they find it.

* `VarTable` — the handlers, any functions on the variables of a request.
* `VarTable.Keeps` — handlers that leave evaluated variables alone.
* `variableRequest_keeps` — those of the request's own fields do.
* `mapVariable_refreshes` — that of a `map` does not: afterwards a variable of
  its source that is not to be cached has its current value.
-/

namespace Nginx

/-! ### The code -/

/-- `ngx_http_variable_value_t`, an element of `r->variables`. -/
structure VarSlot where
  data : List UInt8
  valid : Bool
  noCacheable : Bool
  notFound : Bool
  escape : Bool
  deriving DecidableEq, Repr

namespace VarSlot

/-- The variable is evaluated. -/
def filled (s : VarSlot) : Bool := s.valid || s.notFound

/-- One round of the loops that drop values: what is not to be cached has to be
evaluated again. -/
def flush (s : VarSlot) : VarSlot :=
  if s.noCacheable then { s with valid := false, notFound := false } else s

/-- `ngx_http_variable_null_value` -/
def null : VarSlot := ⟨[], true, false, false, false⟩

/-- A slot of a request that has just been created. -/
def unset : VarSlot := ⟨[], false, false, false, false⟩

end VarSlot

/-- `r->variables`, and what else of the request the handlers of variables may read and
change. -/
structure Vars (ρ : Type) where
  slot : Nat → VarSlot
  rest : ρ

namespace Vars

variable {ρ : Type}

def set (c : Vars ρ) (i : Nat) (s : VarSlot) : Vars ρ :=
  { c with slot := Function.update c.slot i s }

/-- Drop the values of some variables. For a list this is
`ngx_http_script_flush_no_cacheable_variables`. -/
def flush (c : Vars ρ) (which : Nat → Bool) : Vars ρ :=
  { c with slot := fun i => if which i then (c.slot i).flush else c.slot i }

end Vars

/-- `cmcf->variables` -/
structure VarTable (ρ : Type) where
  /-- `get_handler`; the flag says that it has returned `NGX_OK`. -/
  getHandler : Nat → Vars ρ → Bool × Vars ρ
  /-- `NGX_HTTP_VAR_NOCACHEABLE` -/
  noCacheable : Nat → Bool

section

variable {ρ : Type}

/-- `ngx_http_get_indexed_variable`. It returns a null pointer where it leaves the slot
as not found. -/
def getIndexed (v : VarTable ρ) (c : Vars ρ) (i : Nat) : Vars ρ :=
  if (c.slot i).notFound || (c.slot i).valid then c
  else
    let r := v.getHandler i c
    if r.1 then
      if v.noCacheable i then r.2.set i { r.2.slot i with noCacheable := true } else r.2
    else r.2.set i { r.2.slot i with valid := false, notFound := true }

/-- `ngx_http_get_flushed_variable` -/
def getFlushed (v : VarTable ρ) (c : Vars ρ) (i : Nat) : Vars ρ :=
  if (c.slot i).valid || (c.slot i).notFound then
    if !(c.slot i).noCacheable then c
    else getIndexed v (c.set i { c.slot i with valid := false, notFound := false }) i
  else getIndexed v c i

/-- Look variables up one after the other: the slots that are found. -/
def readVars (v : VarTable ρ) : Vars ρ → List Nat → List VarSlot × Vars ρ
  | c, [] => ([], c)
  | c, i :: vars =>
    let c := getIndexed v c i
    let r := readVars v c vars
    (c.slot i :: r.1, r.2)

/-- `ngx_http_script_run`: drop the values of all variables, and go through the code of
the script for the length and for the text. The result is what the text is made of. -/
def scriptRun (v : VarTable ρ) (vars : List Nat) (c : Vars ρ) : List VarSlot × Vars ρ :=
  readVars v (readVars v (c.flush fun _ => true) vars).2 vars

/-- `ngx_http_complex_value`, which drops the variables of the value only. -/
def complexValue (v : VarTable ρ) (vars : List Nat) (c : Vars ρ) : List VarSlot × Vars ρ :=
  if vars = [] then ([], c)
  else readVars v (readVars v (c.flush (· ∈ vars)) vars).2 vars

/-- What `ngx_http_variable_request` makes of its slot. -/
def VarSlot.request (s : VarSlot) (field : Option (List UInt8)) : VarSlot :=
  match field with
  | some data => { s with data := data, valid := true, noCacheable := false, notFound := false }
  | none => { s with notFound := true }

/-- `ngx_http_variable_request`, for a field of the request. -/
def variableRequest (field : Option (List UInt8)) (i : Nat) (c : Vars ρ) : Bool × Vars ρ :=
  (true, c.set i ((c.slot i).request field))

/-- `ngx_http_map_ctx_t` -/
structure MapCtx where
  /-- The variables of the source. -/
  source : List Nat
  /-- `ngx_http_map_find` for the text that the source makes of these slots, or else the
  default: a value, or the variable that has it. -/
  find : List VarSlot → VarSlot ⊕ Nat

/-- `ngx_http_map_variable`; `v` has the variables of the source and of the values. -/
def mapVariable (v : VarTable ρ) (map : MapCtx) (i : Nat) (c : Vars ρ) : Bool × Vars ρ :=
  let (slots, c) := complexValue v map.source c
  match map.find slots with
  | .inl value => (true, c.set i value)
  | .inr j =>
    let c := getFlushed v c j
    -- the whole slot is copied, with its flags
    (true, c.set i (if (c.slot j).notFound then .null else c.slot j))

/-- All variables are fields of the request. -/
def VarTable.request (get : Nat → Option (List UInt8)) (noCacheable : Nat → Bool) : VarTable ρ where
  getHandler i := variableRequest (get i) i
  noCacheable := noCacheable

end

/-! ### Slots -/

section

variable {ρ : Type} {c : Vars ρ} {v : VarTable ρ} {i j : Nat}

@[simp] theorem Vars.set_slot_self (c : Vars ρ) (i : Nat) (s : VarSlot) : (c.set i s).slot i = s :=
  Function.update_self ..

theorem Vars.set_slot_of_ne (c : Vars ρ) (s : VarSlot) (h : j ≠ i) :
    (c.set i s).slot j = c.slot j := Function.update_of_ne h ..

/-- An evaluated variable is not evaluated again. -/
theorem getIndexed_of_filled (h : (c.slot i).filled = true) : getIndexed v c i = c := by
  rw [VarSlot.filled, Bool.or_comm] at h
  rw [getIndexed, if_pos h]

/-! ### Handlers that leave evaluated variables alone -/

/-- Handlers evaluate their own variable, and do not touch others that are evaluated. -/
structure VarTable.Keeps (v : VarTable ρ) : Prop where
  fills : ∀ i c, (v.getHandler i c).1 = true → ((v.getHandler i c).2.slot i).filled = true
  keeps : ∀ i c j, j ≠ i → (c.slot j).filled = true → (v.getHandler i c).2.slot j = c.slot j

theorem VarTable.Keeps.filled_getIndexed (h : v.Keeps) (c : Vars ρ) (i : Nat) :
    ((getIndexed v c i).slot i).filled = true := by
  by_cases hfilled : (c.slot i).filled = true
  · rwa [getIndexed_of_filled hfilled]
  · have hunset : ¬ ((c.slot i).notFound || (c.slot i).valid) = true := by
      rwa [Bool.or_comm]
    rw [getIndexed, if_neg hunset]
    dsimp only
    by_cases hok : (v.getHandler i c).1 = true
    · rw [if_pos hok]
      have hfills := h.fills i c hok
      split
      · rw [Vars.set_slot_self]
        exact hfills
      · exact hfills
    · rw [if_neg hok, Vars.set_slot_self]
      exact Bool.or_true _

/-- **An evaluation leaves the evaluated variables.** -/
theorem VarTable.Keeps.slot_getIndexed (h : v.Keeps) (i : Nat) (hj : (c.slot j).filled = true) :
    (getIndexed v c i).slot j = c.slot j := by
  by_cases hfilled : (c.slot i).filled = true
  · rw [getIndexed_of_filled hfilled]
  · -- the handler is called, for a slot that is not this one
    have hne : j ≠ i := by
      rintro rfl
      exact hfilled hj
    have hunset : ¬ ((c.slot i).notFound || (c.slot i).valid) = true := by
      rwa [Bool.or_comm]
    have hkeeps := h.keeps i c j hne hj
    rw [getIndexed, if_neg hunset]
    dsimp only
    split
    · split
      · rw [Vars.set_slot_of_ne _ _ hne, hkeeps]
      · exact hkeeps
    · rw [Vars.set_slot_of_ne _ _ hne, hkeeps]

/-- Variables that are evaluated are read as they are. -/
theorem readVars_of_filled {vars : List Nat} (h : ∀ i ∈ vars, (c.slot i).filled = true) :
    readVars v c vars = (vars.map c.slot, c) := by
  induction vars with
  | nil => rfl
  | cons i vars ih =>
    obtain ⟨hi, hvars⟩ := List.forall_mem_cons.mp h
    rw [readVars, getIndexed_of_filled hi]
    rw [ih hvars, List.map_cons]

/-! ### The request's own fields -/

variable {get : Nat → Option (List UInt8)} {nc : Nat → Bool}

/-- An evaluation by such a handler. -/
theorem slot_getIndexed_request (h : (c.slot i).filled = false) (j : Nat) :
    (getIndexed (.request get nc) c i).slot j =
      if j = i then
        { (c.slot i).request (get i) with
          noCacheable := nc i || ((c.slot i).request (get i)).noCacheable }
      else c.slot j := by
  have hunset : ¬ ((c.slot i).notFound || (c.slot i).valid) = true := by
    rw [Bool.or_comm]
    simpa [VarSlot.filled] using h
  have hset : getIndexed (.request get nc) c i =
      if nc i then (c.set i ((c.slot i).request (get i))).set i
        { (c.set i ((c.slot i).request (get i))).slot i with noCacheable := true }
      else c.set i ((c.slot i).request (get i)) := by
    rw [getIndexed, if_neg hunset]
    rfl
  rw [hset]
  by_cases hne : j = i
  · subst hne
    cases hnc : nc j <;> simp
  · rw [if_neg hne]
    split
    · rw [Vars.set_slot_of_ne _ _ hne, Vars.set_slot_of_ne _ _ hne]
    · rw [Vars.set_slot_of_ne _ _ hne]

/-- The value of a variable, cached or not. -/
def Vars.value (get : Nat → Option (List UInt8)) (c : Vars ρ) (i : Nat) : Option (List UInt8) :=
  if (c.slot i).notFound then none
  else if (c.slot i).valid then some (c.slot i).data else get i

/-- The slots carry the flags of their variables. -/
def Vars.Flagged (nc : Nat → Bool) (c : Vars ρ) : Prop :=
  ∀ i, ((c.slot i).noCacheable = true → nc i = true) ∧
    ((c.slot i).filled = true → nc i = true → (c.slot i).noCacheable = true)

/-- A slot that has not been evaluated has the current value. -/
theorem Vars.value_of_not_filled (h : (c.slot i).filled = false) : c.value get i = get i := by
  have hflags : (c.slot i).valid = false ∧ (c.slot i).notFound = false := by
    simpa [VarSlot.filled] using h
  simp [Vars.value, hflags]

variable (get nc) in
/-- **An evaluation changes no value** and keeps the flags. -/
theorem value_getIndexed (c : Vars ρ) (i : Nat) :
    (getIndexed (.request get nc) c i).value get = c.value get ∧
      (c.Flagged nc → (getIndexed (.request get nc) c i).Flagged nc) := by
  by_cases hfilled : (c.slot i).filled = true
  · rw [getIndexed_of_filled hfilled]
    exact ⟨rfl, id⟩
  · have hunset : (c.slot i).filled = false := by simpa using hfilled
    refine ⟨?_, fun hflagged j => ?_⟩
    · funext j
      by_cases hne : j = i
      · subst hne
        -- the handler fills the slot with the value the variable had all along
        rw [Vars.value_of_not_filled hunset, Vars.value, slot_getIndexed_request hunset, if_pos rfl]
        cases get j <;> simp_all [VarSlot.request, VarSlot.filled]
      · rw [Vars.value, Vars.value, slot_getIndexed_request hunset, if_neg hne]
    · rw [slot_getIndexed_request hunset]
      by_cases hne : j = i
      · subst hne
        have hold := (hflagged j).1
        rw [if_pos rfl]
        cases get j <;> cases hnc : nc j <;> simp_all [VarSlot.request]
      · rw [if_neg hne]
        exact hflagged j

variable (get nc) in
theorem value_readVars (vars : List Nat) (c : Vars ρ) :
    (readVars (.request get nc) c vars).2.value get = c.value get ∧
      (c.Flagged nc → (readVars (.request get nc) c vars).2.Flagged nc) := by
  induction vars generalizing c with
  | nil => exact ⟨rfl, id⟩
  | cons i vars ih =>
    obtain ⟨hvalue, hflagged⟩ := value_getIndexed get nc c i
    obtain ⟨hvalue', hflagged'⟩ := ih (getIndexed (.request get nc) c i)
    exact ⟨hvalue'.trans hvalue, fun h => hflagged' (hflagged h)⟩

/-- **Dropping values**: those that are not to be cached have the current value again. -/
theorem Vars.value_flush (h : c.Flagged nc) (which : Nat → Bool) (i : Nat) :
    (c.flush which).value get i = if which i && nc i then get i else c.value get i := by
  by_cases hfilled : (c.slot i).filled = true
  · obtain ⟨honly, hall⟩ := h i
    have hflag : (c.slot i).noCacheable = nc i := by
      cases hnc : nc i with
      | true => exact hall hfilled hnc
      | false =>
        by_contra hne
        simp [honly (by simpa using hne)] at hnc
    cases hw : which i <;> cases hnc : nc i <;>
      simp [Vars.value, Vars.flush, VarSlot.flush, hw, hflag, hnc]
  · -- what has not been evaluated has the current value anyway
    have hunset : (c.slot i).filled = false := by simpa using hfilled
    have hunset' : ((c.flush which).slot i).filled = false := by
      simp only [Vars.flush, VarSlot.flush]
      split
      · split
        · rfl
        · exact hunset
      · exact hunset
    rw [Vars.value_of_not_filled hunset, Vars.value_of_not_filled hunset', ite_self]

theorem Vars.flagged_flush (h : c.Flagged nc) (which : Nat → Bool) : (c.flush which).Flagged nc := by
  intro i
  obtain ⟨honly, hall⟩ := h i
  simp only [Vars.flush, VarSlot.flush]
  split
  · split
    next hflag => exact ⟨honly, fun _ _ => hflag⟩
    · exact ⟨honly, hall⟩
  · exact ⟨honly, hall⟩

variable (get) in
theorem value_complexValue (h : c.Flagged nc) (vars : List Nat) :
    (∀ i, (complexValue (.request get nc) vars c).2.value get i =
        if decide (i ∈ vars) && nc i then get i else c.value get i) ∧
      (complexValue (.request get nc) vars c).2.Flagged nc := by
  by_cases hnil : vars = []
  · subst hnil
    exact ⟨fun i => by simp [complexValue], h⟩
  · obtain ⟨hvalue, hflagged⟩ := value_readVars get nc vars (c.flush (· ∈ vars))
    obtain ⟨hvalue', hflagged'⟩ := value_readVars get nc vars
      (readVars (.request get nc) (c.flush (· ∈ vars)) vars).2
    rw [complexValue, if_neg hnil]
    refine ⟨fun i => ?_, hflagged' (hflagged (Vars.flagged_flush h _))⟩
    rw [hvalue', hvalue, Vars.value_flush h]

/-! ### Maps -/

/-- **The handler of a `map` renews the variables of its source**: one that is not to be
cached has its current value afterwards, whatever was cached before. -/
theorem mapVariable_refreshes (map : MapCtx) (h : c.Flagged nc) (hsource : j ∈ map.source)
    (hne : j ≠ i) (hnc : nc j = true) :
    (mapVariable (.request get nc) map i c).2.value get j = get j := by
  obtain ⟨hvalue, -⟩ := value_complexValue get h map.source
  have hj := hvalue j
  rw [if_pos (by simp [hsource, hnc])] at hj
  -- the own slot is another one
  have hset : ∀ (c' : Vars ρ) (s : VarSlot), (c'.set i s).value get j = c'.value get j := by
    intro c' s
    rw [Vars.value, Vars.value, Vars.set_slot_of_ne _ _ hne]
  rw [mapVariable]
  dsimp only
  split
  · rw [hset, hj]
  next k _ =>
    rw [hset]
    -- the variable that has the value is evaluated, and may be dropped before
    rw [getFlushed]
    generalize (complexValue (.request get nc) map.source c).2 = c' at hj ⊢
    split
    · split
      · exact hj
      · rw [(value_getIndexed get nc _ k).1]
        by_cases hjk : j = k
        · subst hjk
          exact Vars.value_of_not_filled (by simp [VarSlot.filled])
        · rw [Vars.value, Vars.set_slot_of_ne _ _ hjk]
          exact hj
    · rw [(value_getIndexed get nc _ k).1]
      exact hj

end

end Nginx
