import Mathlib.Data.List.Nodup
import Mathlib.Data.List.Basic

/-!
# Appending what is new

Documents are appended to a list one by one, each under a key of its own, and a
document whose key is there already is left out. Nothing is ever replaced or removed.

What the list holds afterwards is said by `find?_appendAll`: under each key there is
the document that comes first in the old list followed by the new documents.
-/

namespace DocStore

variable {κ δ : Type*} [DecidableEq κ] {key : δ → κ} {docs ds : List δ} {d x : δ}

/-- The list with this document at its end, unless it has one under the same key. -/
def appendNew (key : δ → κ) (docs : List δ) (d : δ) : List δ :=
  if docs.any (key · = key d) then docs else docs ++ [d]

/-- The documents are appended one after the other. -/
def appendAll (key : δ → κ) (docs ds : List δ) : List δ := ds.foldl (appendNew key) docs

theorem appendNew_of_mem (h : x ∈ docs) (hkey : key x = key d) : appendNew key docs d = docs :=
  if_pos (List.any_eq_true.mpr ⟨x, h, by simpa using hkey⟩)

@[simp] theorem appendAll_nil : appendAll key docs [] = docs := rfl

@[simp] theorem appendAll_cons :
    appendAll key docs (d :: ds) = appendAll key (appendNew key docs d) ds := rfl

/-- Nothing happens to what is there. -/
theorem prefix_appendNew : docs <+: appendNew key docs d := by
  unfold appendNew
  split
  · exact List.prefix_rfl
  · exact List.prefix_append docs [d]

theorem prefix_appendAll : docs <+: appendAll key docs ds := by
  induction ds generalizing docs with
  | nil => exact List.prefix_rfl
  | cons d ds ih => exact prefix_appendNew.trans ih

theorem nodup_appendNew (h : (docs.map key).Nodup) : ((appendNew key docs d).map key).Nodup := by
  unfold appendNew
  split
  · exact h
  next hnew =>
    rw [List.map_append, List.nodup_append]
    refine ⟨h, List.nodup_singleton _, ?_⟩
    intro k hk k' hk' heq
    obtain rfl : k' = key d := by simpa using hk'
    obtain ⟨x, hx, rfl⟩ := List.mem_map.mp hk
    exact hnew (List.any_eq_true.mpr ⟨x, hx, by simpa using heq⟩)

/-- **No key comes twice.** -/
theorem nodup_appendAll (h : (docs.map key).Nodup) : ((appendAll key docs ds).map key).Nodup := by
  induction ds generalizing docs with
  | nil => exact h
  | cons d ds ih => exact ih (nodup_appendNew h)

theorem find?_appendNew (k : κ) :
    (appendNew key docs d).find? (key · = k) = (docs ++ [d]).find? (key · = k) := by
  unfold appendNew
  split
  next hold =>
    obtain ⟨x, hx, hkey⟩ := List.any_eq_true.mp hold
    rw [List.find?_append]
    by_cases hk : key d = k
    · -- the document under `k` is one of the old ones
      have hsome : (docs.find? (key · = k)).isSome = true :=
        List.find?_isSome.mpr ⟨x, hx, by simpa [hk] using hkey⟩
      rw [Option.or_of_isSome hsome]
    · simp [hk]
  · rfl

/-- **The first document under each key** stays, or comes in. -/
theorem find?_appendAll (k : κ) :
    (appendAll key docs ds).find? (key · = k) = (docs ++ ds).find? (key · = k) := by
  induction ds generalizing docs with
  | nil => rw [appendAll_nil, List.append_nil]
  | cons d ds ih =>
    calc (appendAll key (appendNew key docs d) ds).find? (key · = k)
        = ((appendNew key docs d).find? (key · = k)).or (ds.find? (key · = k)) := by
          rw [ih, List.find?_append]
      _ = ((docs ++ [d]).find? (key · = k)).or (ds.find? (key · = k)) := by rw [find?_appendNew]
      _ = (docs ++ d :: ds).find? (key · = k) := by
          rw [← List.find?_append, List.append_assoc, List.singleton_append]

/-- **Appending again** changes nothing: each key is there. -/
theorem appendAll_of_known (h : ∀ d ∈ ds, ∃ x ∈ docs, key x = key d) :
    appendAll key docs ds = docs := by
  induction ds with
  | nil => rfl
  | cons d ds ih =>
    obtain ⟨x, hx, hkey⟩ := h d List.mem_cons_self
    rw [appendAll_cons, appendNew_of_mem hx hkey]
    exact ih fun d' hd' => h d' (List.mem_cons_of_mem d hd')

/-- A key that is among the old or the new ones is there afterwards. -/
theorem exists_mem_appendAll (key : δ → κ) (h : d ∈ docs ++ ds) :
    ∃ x ∈ appendAll key docs ds, key x = key d := by
  obtain ⟨x, hx⟩ : ∃ x, (docs ++ ds).find? (key · = key d) = some x :=
    Option.isSome_iff_exists.mp (List.find?_isSome.mpr ⟨d, h, by simp⟩)
  rw [← find?_appendAll] at hx
  exact ⟨x, List.mem_of_find?_eq_some hx, by simpa using List.find?_some hx⟩

/-- **The documents of a kind**, where all new ones of the kind have one key: at most one
of them comes in, the first under that key. -/
theorem filter_appendAll {p : δ → Bool} {k : κ} (hp : ∀ d ∈ ds, p d = true → key d = k) :
    (appendAll key docs ds).filter p =
      docs.filter p ++
        if docs.any (key · = k) then [] else (ds.find? (key · = k)).toList.filter p := by
  induction ds generalizing docs with
  | nil => simp
  | cons d ds ih =>
    have hds : ∀ d' ∈ ds, p d' = true → key d' = k := fun d' hd' =>
      hp d' (List.mem_cons_of_mem d hd')
    rw [appendAll_cons, ih hds]
    by_cases hk : key d = k
    · subst hk
      unfold appendNew
      split
      · rfl
      next hnew => simp [hnew]
    · -- a document of another key is of another kind
      have hpd : p d = false := by
        simpa using mt (hp d List.mem_cons_self) hk
      unfold appendNew
      split
      · simp [hk]
      · simp [hk, hpd]

end DocStore
