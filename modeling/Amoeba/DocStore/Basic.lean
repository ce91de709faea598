import Mathlib.Data.List.Nodup
import Mathlib.Data.List.Basic

/-!
# Document collections

A collection holds documents of any type, each under a key of its own. Finding
goes through all documents in the collection's order, saving replaces the
document under the key or adds one, and deleting takes the key.

The key of a document is computed by a function, and no two documents of a
collection have one key: this is a field of the structure. Proofs go through
membership: `mem_save` and `mem_delete` say which documents are there afterwards.
-/

namespace DocStore

variable {κ δ : Type*}

/-- Documents of which no two have one key. -/
structure Coll (key : δ → κ) where
  docs : List δ
  nodup : (docs.map key).Nodup

namespace Coll

variable {key : δ → κ}

/-- The collection without documents. -/
def empty : Coll key := ⟨[], List.nodup_nil⟩

instance : Membership δ (Coll key) := ⟨fun c d => d ∈ c.docs⟩

theorem mem_def {c : Coll key} {d : δ} : d ∈ c ↔ d ∈ c.docs := Iff.rfl

/-- **A key has one document.** -/
theorem eq_of_key_eq {c : Coll key} {d d' : δ} (hd : d ∈ c) (hd' : d' ∈ c) (h : key d = key d') :
    d = d' :=
  List.inj_on_of_nodup_map c.nodup hd hd' h

/-- All documents that fit, in the order of the collection. -/
def find (c : Coll key) (p : δ → Bool) : List δ := c.docs.filter p

theorem mem_find {c : Coll key} {p : δ → Bool} {d : δ} : d ∈ c.find p ↔ d ∈ c ∧ p d = true :=
  List.mem_filter

/-- The first document that fits. -/
def findOne (c : Coll key) (p : δ → Bool) : Option δ := c.docs.find? p

theorem findOne_eq_some {c : Coll key} {p : δ → Bool} {d : δ} (h : c.findOne p = some d) :
    d ∈ c ∧ p d = true :=
  ⟨List.mem_of_find?_eq_some h, List.find?_some h⟩

theorem findOne_eq_none {c : Coll key} {p : δ → Bool} :
    c.findOne p = none ↔ ∀ d ∈ c, p d = false := by
  simp [findOne, List.find?_eq_none, mem_def]

variable [DecidableEq κ]

/-- The collection without the document under this key. -/
def delete (c : Coll key) (k : κ) : Coll key where
  docs := c.docs.filter fun d => key d ≠ k
  nodup := c.nodup.sublist (List.filter_sublist.map key)

/-- Deleting what does not fit leaves what is found. -/
theorem find_delete {c : Coll key} {k : κ} {p : δ → Bool} (h : ∀ d ∈ c, p d = true → key d ≠ k) :
    (c.delete k).find p = c.find p := by
  unfold find delete
  rw [List.filter_filter]
  refine List.filter_congr fun d hd => ?_
  by_cases hp : p d = true
  · simp [hp, h d hd hp]
  · simp [hp]

theorem mem_delete {c : Coll key} {k : κ} {d : δ} : d ∈ c.delete k ↔ d ∈ c ∧ key d ≠ k := by
  simp [delete, mem_def]

/-- The collection with this document, in the place of the one under its key. -/
def save (c : Coll key) (d : δ) : Coll key where
  docs :=
    if key d ∈ c.docs.map key then c.docs.map fun x => if key x = key d then d else x
    else c.docs ++ [d]
  nodup := by
    split
    · -- the keys stay in their places
      have hkeys : (c.docs.map fun x => if key x = key d then d else x).map key = c.docs.map key := by
        rw [List.map_map]
        refine List.map_congr_left fun x _ => ?_
        simp only [Function.comp_apply]
        split
        next h => exact h.symm
        · rfl
      rw [hkeys]
      exact c.nodup
    next h =>
      rw [List.map_append, List.nodup_append]
      refine ⟨c.nodup, by simp, ?_⟩
      intro k hk k' hk' heq
      obtain rfl : k' = key d := by simpa using hk'
      exact h (heq ▸ hk)

/-- **Saving** leaves the documents under other keys. -/
theorem mem_save {c : Coll key} {d x : δ} : x ∈ c.save d ↔ x = d ∨ x ∈ c ∧ key x ≠ key d := by
  unfold save
  rw [mem_def]
  dsimp only
  split
  next h =>
    obtain ⟨y, hy, hyd⟩ := List.mem_map.mp h
    rw [List.mem_map]
    constructor
    · rintro ⟨z, hz, rfl⟩
      split
      · exact .inl rfl
      next hne => exact .inr ⟨hz, hne⟩
    · rintro (rfl | ⟨hx, hne⟩)
      · exact ⟨y, hy, if_pos hyd⟩
      · exact ⟨x, hx, if_neg hne⟩
  next h =>
    rw [List.mem_append, List.mem_singleton]
    constructor
    · rintro (hx | rfl)
      · exact .inr ⟨hx, fun heq => h (List.mem_map.mpr ⟨x, hx, heq⟩)⟩
      · exact .inl rfl
    · rintro (rfl | ⟨hx, -⟩)
      · exact .inr rfl
      · exact .inl hx

/-- Saving what does not fit, under a new key, leaves what is found. -/
theorem find_save_of_fresh {c : Coll key} {d : δ} {p : δ → Bool} (hfresh : ∀ y ∈ c, key y ≠ key d)
    (hp : p d = false) : (c.save d).find p = c.find p := by
  have hkey : key d ∉ c.docs.map key := by
    intro hmem
    obtain ⟨y, hy, heq⟩ := List.mem_map.mp hmem
    exact hfresh y hy heq
  simp [find, save, hkey, List.filter_append, hp]

/-- A document under a new key is added. -/
theorem mem_save_of_fresh {c : Coll key} {d x : δ} (h : ∀ y ∈ c, key y ≠ key d) :
    x ∈ c.save d ↔ x = d ∨ x ∈ c := by
  rw [mem_save]
  exact or_congr_right ⟨And.left, fun hx => ⟨hx, h x hx⟩⟩

end Coll

end DocStore
