import Mathlib.Data.List.DropRight
import Mathlib.Data.List.Nodup
import Mathlib.Data.List.Pairwise

/-!
# `ngx_queue_t`

Doubly linked rings of nodes, one of which is the head that every operation is
given. The two pointers of all nodes are functions of the address; an operation
writes single pointers, in the order of the macros.

* `Ring` — the memory links a head and a list of nodes into a ring.
* `Ring.insertHead`, `Ring.insertTail`, `Ring.remove`, `Ring.split`, `Ring.add` — each
  macro does to the ring what it does to the list.
* `ngxQueueMiddle_eq`, `ngxQueueSort_sorts` — the two loops of `ngx_queue.c`.
-/

namespace Nginx

/-- The pointers of all `ngx_queue_t`. -/
@[ext] structure QueueMem where
  prev : Nat → Nat
  next : Nat → Nat

namespace QueueMem

def setPrev (m : QueueMem) (q p : Nat) : QueueMem := { m with prev := Function.update m.prev q p }

def setNext (m : QueueMem) (q p : Nat) : QueueMem := { m with next := Function.update m.next q p }

end QueueMem

/-! ### The macros -/

def ngxQueueInit (m : QueueMem) (q : Nat) : QueueMem := (m.setPrev q q).setNext q q

def ngxQueueEmpty (m : QueueMem) (h : Nat) : Bool := h = m.prev h

/-- `ngx_queue_insert_head`, which is `ngx_queue_insert_after` as well. -/
def ngxQueueInsertHead (m : QueueMem) (h x : Nat) : QueueMem :=
  let m := m.setNext x (m.next h)
  let m := m.setPrev (m.next x) x
  let m := m.setPrev x h
  m.setNext h x

def ngxQueueInsertTail (m : QueueMem) (h x : Nat) : QueueMem :=
  let m := m.setPrev x (m.prev h)
  let m := m.setNext (m.prev x) x
  let m := m.setNext x h
  m.setPrev h x

def ngxQueueHead (m : QueueMem) (h : Nat) : Nat := m.next h

def ngxQueueLast (m : QueueMem) (h : Nat) : Nat := m.prev h

/-- `ngx_queue_remove`, without the assignments of the debug build. -/
def ngxQueueRemove (m : QueueMem) (x : Nat) : QueueMem :=
  let m := m.setPrev (m.next x) (m.prev x)
  m.setNext (m.prev x) (m.next x)

def ngxQueueSplit (m : QueueMem) (h q n : Nat) : QueueMem :=
  let m := m.setPrev n (m.prev h)
  let m := m.setNext (m.prev n) n
  let m := m.setNext n q
  let m := m.setPrev h (m.prev q)
  let m := m.setNext (m.prev h) h
  m.setPrev q n

def ngxQueueAdd (m : QueueMem) (h n : Nat) : QueueMem :=
  let m := m.setNext (m.prev h) (m.next n)
  let m := m.setPrev (m.next n) (m.prev h)
  let m := m.setPrev h (m.prev n)
  m.setNext (m.prev h) h

/-! ### Rings -/

/-- The nodes between `a` and `b` are those of the list, and the pointers go both ways. -/
def Chain (m : QueueMem) : Nat → List Nat → Nat → Prop
  | a, [], b => m.next a = b ∧ m.prev b = a
  | a, x :: l, b => (m.next a = x ∧ m.prev x = a) ∧ Chain m x l b

/-- **A ring** of the head `h` and the nodes of the list. -/
structure Ring (m : QueueMem) (h : Nat) (l : List Nat) : Prop where
  chain : Chain m h l h
  nodup : (h :: l).Nodup

section

variable {m m' : QueueMem} {a b h x q n : Nat} {l l₁ l₂ : List Nat}

theorem chain_append : Chain m a (l₁ ++ x :: l₂) b ↔ Chain m a l₁ x ∧ Chain m x l₂ b := by
  induction l₁ generalizing a with
  | nil => rfl
  | cons y l₁ ih =>
    rw [List.cons_append, Chain, Chain, ih, ← and_assoc]

/-- A chain depends on the pointers inside it. -/
theorem Chain.congr (hc : Chain m a l b) (hnext : ∀ y ∈ a :: l, m'.next y = m.next y)
    (hprev : ∀ y ∈ l ++ [b], m'.prev y = m.prev y) : Chain m' a l b := by
  induction l generalizing a with
  | nil =>
    obtain ⟨hn, hp⟩ := hc
    exact ⟨(hnext a (by simp)).trans hn, (hprev b (by simp)).trans hp⟩
  | cons x l ih =>
    obtain ⟨⟨hn, hp⟩, hc⟩ := hc
    refine ⟨⟨(hnext a (by simp)).trans hn, (hprev x (by simp)).trans hp⟩,
      ih hc (fun y hy => hnext y (List.mem_cons_of_mem _ hy)) fun y hy => hprev y ?_⟩
    exact List.mem_cons_of_mem _ hy

/-- The first pointer of a chain. -/
theorem Chain.next_eq (hc : Chain m a l b) : m.next a = l.headD b := by
  cases l with
  | nil => exact hc.1
  | cons x l => exact hc.1.1

/-- The last pointer of a chain. -/
theorem Chain.prev_eq (hc : Chain m a l b) : m.prev b = l.getLastD a := by
  induction l generalizing a with
  | nil => exact hc.2
  | cons x l ih => rw [ih hc.2, List.getLastD_cons]

theorem getLastD_mem (a : Nat) (l : List Nat) : l.getLastD a ∈ a :: l := by
  induction l generalizing a with
  | nil => exact List.mem_cons_self
  | cons x l ih =>
    rw [List.getLastD_cons]
    exact List.mem_cons_of_mem _ (ih x)

theorem headD_mem (l : List Nat) (b : Nat) : l.headD b ∈ l ++ [b] := by
  cases l with
  | nil => exact List.mem_cons_self
  | cons x l => exact List.mem_cons_self

/-- The end of a chain is made to point to another node. -/
theorem Chain.retarget (hc : Chain m a l b) (hnodup : (a :: l).Nodup) {b' : Nat}
    (hlast : m'.next (l.getLastD a) = b' ∧ m'.prev b' = l.getLastD a)
    (hnext : ∀ y ∈ a :: l, y ≠ l.getLastD a → m'.next y = m.next y)
    (hprev : ∀ y ∈ l, m'.prev y = m.prev y) : Chain m' a l b' := by
  induction l generalizing a with
  | nil => exact hlast
  | cons x l ih =>
    obtain ⟨⟨hn, hp⟩, hc⟩ := hc
    rw [List.getLastD_cons] at hlast hnext
    obtain ⟨hax, hnodup⟩ := List.nodup_cons.mp hnodup
    -- only the pointer of the last node is written, and the first node is not the last
    refine ⟨⟨?_, ?_⟩, ih hc hnodup hlast (fun y hy => hnext y (List.mem_cons_of_mem _ hy))
      fun y hy => hprev y (List.mem_cons_of_mem _ hy)⟩
    · rw [hnext a List.mem_cons_self fun heq => hax (heq ▸ getLastD_mem x l), hn]
    · rw [hprev x List.mem_cons_self, hp]

/-- Another node is made to point to the start of a chain. -/
theorem Chain.resource (hc : Chain m a l b) (hnodup : (l ++ [b]).Nodup) {a' : Nat}
    (hfirst : m'.next a' = l.headD b ∧ m'.prev (l.headD b) = a')
    (hnext : ∀ y ∈ l, m'.next y = m.next y)
    (hprev : ∀ y ∈ l ++ [b], y ≠ l.headD b → m'.prev y = m.prev y) : Chain m' a' l b := by
  cases l with
  | nil => exact hfirst
  | cons x l =>
    obtain ⟨hxl, -⟩ := List.nodup_cons.mp hnodup
    -- behind the first node the chain is as it was
    refine ⟨hfirst, hc.2.congr hnext fun y hy => hprev y (List.mem_cons_of_mem _ hy) ?_⟩
    rintro rfl
    exact hxl hy

/-! ### What the macros do to a ring -/

/-- A ring can be entered anywhere. -/
theorem ring_rotate : Ring m h (l₁ ++ x :: l₂) ↔ Ring m x (l₂ ++ h :: l₁) := by
  -- the nodes are the same, and the two chains change places
  have hperm : (h :: (l₁ ++ x :: l₂)).Perm (x :: (l₂ ++ h :: l₁)) := by
    refine List.perm_iff_count.mpr fun y => ?_
    simp only [List.count_cons, List.count_append]
    omega
  constructor
  · rintro ⟨hc, hn⟩
    obtain ⟨h₁, h₂⟩ := chain_append.mp hc
    exact ⟨chain_append.mpr ⟨h₂, h₁⟩, hperm.nodup_iff.mp hn⟩
  · rintro ⟨hc, hn⟩
    obtain ⟨h₂, h₁⟩ := chain_append.mp hc
    exact ⟨chain_append.mpr ⟨h₁, h₂⟩, hperm.nodup_iff.mpr hn⟩

theorem ring_init (m : QueueMem) (q : Nat) : Ring (ngxQueueInit m q) q [] where
  chain := ⟨Function.update_self .., Function.update_self ..⟩
  nodup := List.nodup_singleton q

namespace Ring

/-- **A ring knows its first and its last node.** -/
theorem head_eq (hr : Ring m h l) : ngxQueueHead m h = l.headD h := hr.chain.next_eq

theorem last_eq (hr : Ring m h l) : ngxQueueLast m h = l.getLastD h := hr.chain.prev_eq

theorem empty_iff (hr : Ring m h l) : ngxQueueEmpty m h = true ↔ l = [] := by
  rw [ngxQueueEmpty, decide_eq_true_eq, hr.chain.prev_eq]
  cases l with
  | nil => exact iff_of_true rfl rfl
  | cons x l =>
    refine iff_of_false (fun heq => ?_) (List.cons_ne_nil x l)
    rw [List.getLastD_cons] at heq
    exact (List.nodup_cons.mp hr.nodup).1 (heq ▸ getLastD_mem x l)

theorem nodup_concat (hr : Ring m h l) : (l ++ [h]).Nodup :=
  (List.perm_append_singleton h l).nodup_iff.mpr hr.nodup

/-- **`ngx_queue_insert_head` puts the node in front.** -/
theorem insertHead (hr : Ring m h l) (hx : x ∉ h :: l) :
    Ring (ngxQueueInsertHead m h x) h (x :: l) := by
  have hfirst : m.next h = l.headD h := hr.chain.next_eq
  have hmem : ∀ y ∈ l ++ [h], y ≠ x := by
    rintro y hy rfl
    exact hx ((List.perm_append_singleton h l).mem_iff.mp hy)
  have hhx : h ≠ x := hmem h (by simp)
  have hnx : l.headD h ≠ x := hmem _ (headD_mem l h)
  -- the four writes, as what they leave of the two pointers
  have hnext : (ngxQueueInsertHead m h x).next =
      Function.update (Function.update m.next x (l.headD h)) h x := by rw [← hfirst]; rfl
  have hprev : (ngxQueueInsertHead m h x).prev =
      Function.update (Function.update m.prev (l.headD h) x) x h := by
    simp [ngxQueueInsertHead, QueueMem.setPrev, QueueMem.setNext, hfirst]
  refine ⟨⟨⟨?_, ?_⟩, hr.chain.resource hr.nodup_concat ⟨?_, ?_⟩ (fun y hy => ?_)
    fun y hy hne => ?_⟩, ?_⟩
  · rw [hnext, Function.update_self]
  · rw [hprev, Function.update_self]
  · rw [hnext, Function.update_of_ne hhx.symm, Function.update_self]
  · rw [hprev, Function.update_of_ne hnx, Function.update_self]
  · have hyh : y ≠ h := by
      rintro rfl
      exact (List.nodup_cons.mp hr.nodup).1 hy
    rw [hnext, Function.update_of_ne hyh, Function.update_of_ne (hmem y (by simp [hy]))]
  · rw [hprev, Function.update_of_ne (hmem y hy), Function.update_of_ne hne]
  · obtain ⟨hhl, hl⟩ := List.nodup_cons.mp hr.nodup
    simp only [List.mem_cons, not_or] at hx
    simp [hhl, hl, hx.2, hhx]

/-- **`ngx_queue_insert_after` puts the node behind another.** -/
theorem insertAfter {p : Nat} (hr : Ring m h (l₁ ++ p :: l₂)) (hx : x ∉ h :: (l₁ ++ p :: l₂)) :
    Ring (ngxQueueInsertHead m p x) h (l₁ ++ p :: x :: l₂) := by
  refine ring_rotate.mpr ((ring_rotate.mp hr).insertHead fun hmem => hx ?_)
  simp only [List.mem_cons, List.mem_append] at hmem ⊢
  tauto

/-- **`ngx_queue_insert_tail` puts the node at the end.** -/
theorem insertTail (hr : Ring m h l) (hx : x ∉ h :: l) :
    Ring (ngxQueueInsertTail m h x) h (l ++ [x]) := by
  have hlast : m.prev h = l.getLastD h := hr.chain.prev_eq
  have hmem : ∀ y ∈ h :: l, y ≠ x := by
    rintro y hy rfl
    exact hx hy
  have hhx : h ≠ x := hmem h List.mem_cons_self
  have hlx : l.getLastD h ≠ x := hmem _ (getLastD_mem h l)
  have hnext : (ngxQueueInsertTail m h x).next =
      Function.update (Function.update m.next (l.getLastD h) x) x h := by
    simp [ngxQueueInsertTail, QueueMem.setPrev, QueueMem.setNext, hlast]
  have hprev : (ngxQueueInsertTail m h x).prev =
      Function.update (Function.update m.prev x (l.getLastD h)) h x := by rw [← hlast]; rfl
  refine ⟨chain_append.mpr ⟨hr.chain.retarget hr.nodup ⟨?_, ?_⟩ (fun y hy hne => ?_) fun y hy => ?_,
    ?_, ?_⟩, ?_⟩
  · rw [hnext, Function.update_of_ne hlx, Function.update_self]
  · rw [hprev, Function.update_of_ne hhx.symm, Function.update_self]
  · rw [hnext, Function.update_of_ne (hmem y hy), Function.update_of_ne hne]
  · have hyh : y ≠ h := by
      rintro rfl
      exact (List.nodup_cons.mp hr.nodup).1 hy
    have hyx : y ≠ x := hmem y (List.mem_cons_of_mem _ hy)
    rw [hprev, Function.update_of_ne hyh, Function.update_of_ne hyx]
  · rw [hnext, Function.update_self]
  · rw [hprev, Function.update_self]
  · have hnodup : (x :: h :: l).Nodup := List.nodup_cons.mpr ⟨hx, hr.nodup⟩
    exact (List.perm_append_singleton x (h :: l)).nodup_iff.mpr hnodup

/-- Without a node, the ring is entered at the next one. -/
theorem unlink {y : Nat} (hr : Ring m x (y :: l)) : Ring (ngxQueueRemove m x) y l := by
  have hfirst : m.next x = y := hr.chain.next_eq
  have hlast : m.prev x = l.getLastD y := by
    rw [hr.chain.prev_eq, List.getLastD_cons]
  obtain ⟨hx, hy⟩ := List.nodup_cons.mp hr.nodup
  have hyx : x ≠ y := fun heq => hx (heq ▸ List.mem_cons_self)
  -- two writes: the neighbours point to each other
  have hnext : (ngxQueueRemove m x).next = Function.update m.next (l.getLastD y) y := by
    simp [ngxQueueRemove, QueueMem.setPrev, QueueMem.setNext, hfirst, hlast, hyx]
  have hprev : (ngxQueueRemove m x).prev = Function.update m.prev y (l.getLastD y) := by
    simp [ngxQueueRemove, QueueMem.setPrev, QueueMem.setNext, hfirst, hlast]
  refine ⟨hr.chain.2.retarget hy ⟨?_, ?_⟩ (fun z hz hne => ?_) fun z hz => ?_, hy⟩
  · rw [hnext, Function.update_self]
  · rw [hprev, Function.update_self]
  · rw [hnext, Function.update_of_ne hne]
  · have hzy : z ≠ y := by
      rintro rfl
      exact (List.nodup_cons.mp hy).1 hz
    rw [hprev, Function.update_of_ne hzy]

/-- **`ngx_queue_remove` takes the node out.** -/
theorem remove (hr : Ring m h (l₁ ++ x :: l₂)) : Ring (ngxQueueRemove m x) h (l₁ ++ l₂) := by
  have hx := ring_rotate.mp hr
  cases l₂ with
  | nil =>
    rw [List.append_nil]
    exact hx.unlink
  | cons y l₂ =>
    exact ring_rotate.mpr hx.unlink

theorem remove_erase (hr : Ring m h l) (hx : x ∈ l) : Ring (ngxQueueRemove m x) h (l.erase x) := by
  obtain ⟨l₁, l₂, -, rfl, herase⟩ := List.exists_erase_eq hx
  rw [herase]
  exact hr.remove

/-- **`ngx_queue_split` makes two rings**, the second one with a head of its own. -/
theorem split (hr : Ring m h (l₁ ++ q :: l₂)) (hn : n ∉ h :: (l₁ ++ q :: l₂)) :
    Ring (ngxQueueSplit m h q n) h l₁ ∧ Ring (ngxQueueSplit m h q n) n (q :: l₂) := by
  obtain ⟨h₁, h₂⟩ := chain_append.mp hr.chain
  have hlast : m.prev h = l₂.getLastD q := h₂.prev_eq
  have hcut : m.prev q = l₁.getLastD h := h₁.prev_eq
  have hnodup : ((h :: l₁) ++ (q :: l₂)).Nodup := hr.nodup
  obtain ⟨hn₁, hn₂, hdisj⟩ := List.nodup_append.mp hnodup
  have hne₁ : ∀ y ∈ h :: l₁, y ≠ n := by
    rintro y hy rfl
    exact hn (List.mem_append_left _ hy)
  have hne₂ : ∀ y ∈ q :: l₂, y ≠ n := by
    rintro y hy rfl
    exact hn (List.mem_append_right (h :: l₁) hy)
  have hhq : h ≠ q := hdisj h List.mem_cons_self q List.mem_cons_self
  have hqn : q ≠ n := hne₂ q List.mem_cons_self
  have hnext : (ngxQueueSplit m h q n).next =
      Function.update (Function.update (Function.update m.next (l₂.getLastD q) n) n q)
        (l₁.getLastD h) h := by
    simp [ngxQueueSplit, QueueMem.setPrev, QueueMem.setNext, hlast, hcut, hqn]
  have hprev : (ngxQueueSplit m h q n).prev =
      Function.update (Function.update (Function.update m.prev n (l₂.getLastD q)) h
        (l₁.getLastD h)) q n := by
    simp [ngxQueueSplit, QueueMem.setPrev, QueueMem.setNext, hlast, hcut, hqn]
  -- the nodes that are written in one ring are not in the other
  have hw : ∀ y ∈ q :: l₂, y ≠ l₁.getLastD h := fun y hy =>
    (hdisj _ (getLastD_mem h l₁) y hy).symm
  have hz : ∀ y ∈ h :: l₁, y ≠ l₂.getLastD q := fun y hy => hdisj y hy _ (getLastD_mem q l₂)
  refine ⟨⟨h₁.retarget hn₁ ⟨?_, ?_⟩ (fun y hy hne => ?_) fun y hy => ?_, hn₁⟩,
    ⟨⟨?_, ?_⟩, h₂.retarget hn₂ ⟨?_, ?_⟩ (fun y hy hne => ?_) fun y hy => ?_⟩, ?_⟩
  · rw [hnext, Function.update_self]
  · rw [hprev, Function.update_of_ne hhq, Function.update_self]
  · rw [hnext, Function.update_of_ne hne, Function.update_of_ne (hne₁ y hy),
      Function.update_of_ne (hz y hy)]
  · have hyh : y ≠ h := by
      rintro rfl
      exact (List.nodup_cons.mp hn₁).1 hy
    have hyq : y ≠ q := hdisj y (List.mem_cons_of_mem _ hy) q List.mem_cons_self
    rw [hprev, Function.update_of_ne hyq, Function.update_of_ne hyh,
      Function.update_of_ne (hne₁ y (List.mem_cons_of_mem _ hy))]
  · have hnw : n ≠ l₁.getLastD h := (hne₁ _ (getLastD_mem h l₁)).symm
    rw [hnext, Function.update_of_ne hnw, Function.update_self]
  · rw [hprev, Function.update_self]
  · have hzm := getLastD_mem q l₂
    rw [hnext, Function.update_of_ne (hw _ hzm), Function.update_of_ne (hne₂ _ hzm),
      Function.update_self]
  · rw [hprev, Function.update_of_ne hqn.symm,
      Function.update_of_ne (hne₁ h List.mem_cons_self).symm, Function.update_self]
  · rw [hnext, Function.update_of_ne (hw y hy), Function.update_of_ne (hne₂ y hy),
      Function.update_of_ne hne]
  · have hyq : y ≠ q := by
      rintro rfl
      exact (List.nodup_cons.mp hn₂).1 hy
    have hyh : y ≠ h := (hdisj h List.mem_cons_self y (List.mem_cons_of_mem _ hy)).symm
    rw [hprev, Function.update_of_ne hyq, Function.update_of_ne hyh,
      Function.update_of_ne (hne₂ y (List.mem_cons_of_mem _ hy))]
  · exact List.nodup_cons.mpr ⟨fun hmem => hne₂ n hmem rfl, hn₂⟩

/-- **`ngx_queue_add` appends the nodes of another ring**, also when there are none. -/
theorem add {l' : List Nat} (hr : Ring m h l) (hr' : Ring m n l')
    (hdisj : ∀ y ∈ h :: l, y ∉ n :: l') : Ring (ngxQueueAdd m h n) h (l ++ l') := by
  have hlast : m.prev h = l.getLastD h := hr.chain.prev_eq
  have hhl : ∀ y ∈ l, y ≠ h := by
    rintro y hy rfl
    exact (List.nodup_cons.mp hr.nodup).1 hy
  have hnl : ∀ y ∈ h :: l, y ≠ n := by
    rintro y hy rfl
    exact hdisj y hy List.mem_cons_self
  have hhn : h ≠ n := hnl h List.mem_cons_self
  have hzn : l.getLastD h ≠ n := hnl _ (getLastD_mem h l)
  cases l' with
  | nil =>
    -- the other head alone is appended and taken out again
    have hself : m.next n = n ∧ m.prev n = n := hr'.chain
    have hnext : (ngxQueueAdd m h n).next = Function.update m.next (l.getLastD h) h := by
      simp [-List.getLastD_eq_getLast?, ngxQueueAdd, QueueMem.setPrev, QueueMem.setNext, hlast,
        hself.1, hzn.symm]
    have hprev : (ngxQueueAdd m h n).prev =
        Function.update (Function.update m.prev n (l.getLastD h)) h (l.getLastD h) := by
      simp [-List.getLastD_eq_getLast?, ngxQueueAdd, QueueMem.setPrev, QueueMem.setNext, hlast,
        hself.1, hzn.symm]
    rw [List.append_nil]
    refine ⟨hr.chain.retarget hr.nodup ⟨?_, ?_⟩ (fun y hy hne => ?_) fun y hy => ?_, hr.nodup⟩
    · rw [hnext, Function.update_self]
    · rw [hprev, Function.update_self]
    · rw [hnext, Function.update_of_ne hne]
    · rw [hprev, Function.update_of_ne (hhl y hy),
        Function.update_of_ne (hnl y (List.mem_cons_of_mem _ hy))]
  | cons x l' =>
    have hfirst : m.next n = x := hr'.chain.next_eq
    have hlast' : m.prev n = l'.getLastD x := by rw [hr'.chain.prev_eq, List.getLastD_cons]
    obtain ⟨hnx, hx⟩ := List.nodup_cons.mp hr'.nodup
    have hxn : n ≠ x := fun heq => hnx (heq ▸ List.mem_cons_self)
    -- the two rings have no node in common
    have hcross : ∀ y ∈ h :: l, ∀ z ∈ x :: l', y ≠ z := by
      rintro y hy z hz rfl
      exact hdisj y hy (List.mem_cons_of_mem _ hz)
    have hzm := getLastD_mem h l
    have hzm' := getLastD_mem x l'
    have hnext : (ngxQueueAdd m h n).next =
        Function.update (Function.update m.next (l.getLastD h) x) (l'.getLastD x) h := by
      simp [-List.getLastD_eq_getLast?, ngxQueueAdd, QueueMem.setPrev, QueueMem.setNext, hlast,
        hlast', hfirst, hzn.symm, hxn]
    have hprev : (ngxQueueAdd m h n).prev =
        Function.update (Function.update m.prev x (l.getLastD h)) h (l'.getLastD x) := by
      simp [-List.getLastD_eq_getLast?, ngxQueueAdd, QueueMem.setPrev, QueueMem.setNext, hlast,
        hlast', hfirst, hzn.symm, hxn]
    have hhx : h ≠ x := hcross h List.mem_cons_self x List.mem_cons_self
    refine ⟨chain_append.mpr
      ⟨hr.chain.retarget hr.nodup ⟨?_, ?_⟩ (fun y hy hne => ?_) fun y hy => ?_,
      hr'.chain.2.retarget hx ⟨?_, ?_⟩ (fun y hy hne => ?_) fun y hy => ?_⟩, ?_⟩
    · rw [hnext, Function.update_of_ne (hcross _ hzm _ hzm'), Function.update_self]
    · rw [hprev, Function.update_of_ne hhx.symm, Function.update_self]
    · rw [hnext, Function.update_of_ne (hcross y hy _ hzm'), Function.update_of_ne hne]
    · rw [hprev, Function.update_of_ne (hhl y hy),
        Function.update_of_ne (hcross y (List.mem_cons_of_mem _ hy) x List.mem_cons_self)]
    · rw [hnext, Function.update_self]
    · rw [hprev, Function.update_self]
    · rw [hnext, Function.update_of_ne hne, Function.update_of_ne (hcross _ hzm y hy).symm]
    · have hyx : y ≠ x := by
        rintro rfl
        exact (List.nodup_cons.mp hx).1 hy
      have hyh : y ≠ h := (hcross h List.mem_cons_self y (List.mem_cons_of_mem _ hy)).symm
      rw [hprev, Function.update_of_ne hyh, Function.update_of_ne hyx]
    · exact List.nodup_append.mpr ⟨hr.nodup, hx, hcross⟩

end Ring

/-! ### The loops of `ngx_queue.c` -/

/-- The loop of `ngx_queue_middle`. -/
def middleLoop (m : QueueMem) (queue : Nat) : Nat → Nat → Nat → Option Nat
  | 0, _, _ => none
  | fuel + 1, middle, next =>
    let middle := m.next middle
    let next := m.next next
    if next = ngxQueueLast m queue then some middle
    else
      let next := m.next next
      if next = ngxQueueLast m queue then some middle else middleLoop m queue fuel middle next

/-- `ngx_queue_middle` -/
def ngxQueueMiddle (m : QueueMem) (fuel queue : Nat) : Option Nat :=
  let middle := ngxQueueHead m queue
  if middle = ngxQueueLast m queue then some middle
  else middleLoop m queue fuel middle (ngxQueueHead m queue)

/-- The `do` loop of `ngx_queue_sort`: behind which node `q` goes. -/
def sortBack (cmp : Nat → Nat → Int) (m : QueueMem) (queue q : Nat) : Nat → Nat → Option Nat
  | 0, _ => none
  | fuel + 1, prev =>
    if cmp prev q ≤ 0 then some prev
    else if m.prev prev ≠ queue then sortBack cmp m queue q fuel (m.prev prev)
    else some (m.prev prev)

/-- The `for` loop of `ngx_queue_sort`, with fuel for it and for the one inside. -/
def sortLoop (cmp : Nat → Nat → Int) (queue : Nat) : Nat → QueueMem → Nat → Option QueueMem
  | 0, _, _ => none
  | fuel + 1, m, q =>
    if q ≠ queue then
      let prev := m.prev q
      let next := m.next q
      let m := ngxQueueRemove m q
      (sortBack cmp m queue q fuel prev).bind fun prev =>
        sortLoop cmp queue fuel (ngxQueueInsertHead m prev q) next
    else some m

/-- `ngx_queue_sort` -/
def ngxQueueSort (cmp : Nat → Nat → Int) (fuel : Nat) (m : QueueMem) (queue : Nat) :
    Option QueueMem :=
  let q := ngxQueueHead m queue
  if q = ngxQueueLast m queue then some m else sortLoop cmp queue fuel m (m.next q)

/-! ### The middle -/

/-- The pointers inside a chain, and the one that leaves it. -/
theorem Chain.next_getD (hc : Chain m a l b) {i : Nat} (hi : i < l.length) :
    m.next (l.getD i b) = l.getD (i + 1) b := by
  induction l generalizing a i with
  | nil => exact absurd hi (Nat.not_lt_zero _)
  | cons y l ih =>
    cases i with
    | zero =>
      rw [List.getD_cons_zero, List.getD_cons_succ, hc.2.next_eq]
      cases l <;> rfl
    | succ i => exact ih hc.2 (Nat.lt_of_succ_lt_succ hi)

theorem Ring.last_getD (hr : Ring m h l) : ngxQueueLast m h = l.getD (l.length - 1) h := by
  rw [hr.last_eq, List.getLastD_eq_getLast?, List.getLast?_eq_getElem?, List.getD_eq_getElem?_getD]

/-- Only the last node is the last one. -/
theorem Ring.getD_eq_last_iff (hr : Ring m h l) {i : Nat} (hi : i < l.length) :
    l.getD i h = ngxQueueLast m h ↔ i = l.length - 1 := by
  have hl : l.length - 1 < l.length := by omega
  rw [hr.last_getD, List.getD_eq_getElem?_getD, List.getD_eq_getElem?_getD,
    List.getElem?_eq_getElem hi, List.getElem?_eq_getElem hl]
  exact (List.nodup_cons.mp hr.nodup).2.getElem_inj_iff

/-- `next` takes two steps for one of `middle`. -/
theorem middleLoop_eq (hr : Ring m h l) {fuel k : Nat} (hk : 2 * k + 1 < l.length)
    (hfuel : l.length / 2 ≤ fuel + k) :
    middleLoop m h fuel (l.getD k h) (l.getD (2 * k) h) = some (l.getD (l.length / 2) h) := by
  induction fuel generalizing k with
  | zero => omega
  | succ fuel ih =>
    rw [middleLoop, hr.chain.next_getD (by omega), hr.chain.next_getD (by omega)]
    dsimp only
    rw [hr.chain.next_getD (by omega)]
    split
    · next hlast =>
      -- an even number of nodes
      have hend : 2 * k + 1 = l.length - 1 := (hr.getD_eq_last_iff (by omega)).mp hlast
      rw [show l.length / 2 = k + 1 by omega]
    · next hnot =>
      have hgo : 2 * k + 1 ≠ l.length - 1 :=
        fun heq => hnot ((hr.getD_eq_last_iff (by omega)).mpr heq)
      split
      · next hlast =>
        -- an odd number
        have hend : 2 * k + 1 + 1 = l.length - 1 := (hr.getD_eq_last_iff (by omega)).mp hlast
        rw [show l.length / 2 = k + 1 by omega]
      · next hnot =>
        have hgo' : 2 * k + 1 + 1 ≠ l.length - 1 := fun heq =>
          hnot ((hr.getD_eq_last_iff (by omega)).mpr heq)
        rw [show 2 * k + 1 + 1 = 2 * (k + 1) by omega]
        exact ih (by omega) (by omega)

/-- **`ngx_queue_middle` finds the middle node**, the first one of the second half when
the number is even. -/
theorem ngxQueueMiddle_eq (hr : Ring m h l) {fuel : Nat} (hfuel : l.length / 2 ≤ fuel) :
    ngxQueueMiddle m fuel h = some (l.getD (l.length / 2) h) := by
  rw [ngxQueueMiddle]
  split
  · next hone =>
    -- at most one node
    rw [hr.head_eq, hr.last_eq] at hone
    have hshort : l.length ≤ 1 := by
      cases l with
      | nil => exact Nat.zero_le _
      | cons x l =>
        cases l with
        | nil => exact Nat.le_refl _
        | cons y l =>
          rw [List.getLastD_cons, List.getLastD_cons] at hone
          change x = l.getLastD y at hone
          have hx : x ∉ y :: l := (List.nodup_cons.mp (List.nodup_cons.mp hr.nodup).2).1
          exact absurd (hone ▸ getLastD_mem y l) hx
    rw [hr.head_eq, show l.length / 2 = 0 by omega]
    cases l <;> rfl
  · next hmore =>
    have hlong : 2 * 0 + 1 < l.length := by
      by_contra hshort
      have hlen : l.length ≤ 1 := by omega
      apply hmore
      rw [hr.head_eq, hr.last_eq]
      rcases l with _ | ⟨x, _ | ⟨y, l⟩⟩
      · rfl
      · rfl
      · rw [List.length_cons, List.length_cons] at hlen
        omega
    have hhead : ngxQueueHead m h = l.getD 0 h := by
      rw [hr.head_eq]
      cases l <;> rfl
    rw [hhead]
    exact middleLoop_eq hr hlong hfuel

/-! ### The sort -/

/-- `q` is put into the list behind the last node that is not greater. -/
def insertBack (cmp : Nat → Nat → Int) (done : List Nat) (q : Nat) : List Nat :=
  done.rdropWhile (fun p => 0 < cmp p q) ++ q :: done.rtakeWhile fun p => 0 < cmp p q

variable {cmp : Nat → Nat → Int}

theorem getLastD_concat (l : List Nat) (y a : Nat) : (l ++ [y]).getLastD a = y := by
  rw [List.getLastD_eq_getLast?, List.getLast?_concat]
  rfl

/-- The `do` loop goes back over the greater nodes. -/
theorem sortBack_eq {done rest : List Nat} {fuel : Nat} (hr : Ring m h (done ++ rest))
    (hdone : done ≠ []) (hfuel : done.length ≤ fuel) :
    sortBack cmp m h q fuel (done.getLastD h) =
      some ((done.rdropWhile fun p => 0 < cmp p q).getLastD h) := by
  -- from the end of the list
  induction done using List.reverseRecOn generalizing rest fuel with
  | nil => exact absurd rfl hdone
  | append_singleton done y ih =>
    rw [List.append_assoc] at hr
    cases fuel with
    | zero => simp at hfuel
    | succ fuel =>
      rw [getLastD_concat, sortBack]
      by_cases hle : cmp y q ≤ 0
      · have hnot : ¬ decide (0 < cmp y q) = true := by simpa using hle
        rw [if_pos hle, List.rdropWhile_concat, if_neg hnot, getLastD_concat]
      · have hgt : decide (0 < cmp y q) = true := by simpa using hle
        have hprev : m.prev y = done.getLastD h := (chain_append.mp hr.chain).1.prev_eq
        -- the loop steps back over `y`, to the node before or to the head
        rw [if_neg hle, List.rdropWhile_concat, if_pos hgt, hprev]
        by_cases hnil : done = []
        · subst hnil
          exact if_neg fun hne => hne rfl
        · have hne : done.getLastD h ≠ h := by
            intro heq
            obtain ⟨done, z, rfl⟩ := (List.eq_nil_or_concat done).resolve_left hnil
            rw [List.concat_eq_append, getLastD_concat] at heq
            exact (List.nodup_cons.mp hr.nodup).1 (by simp [heq])
          rw [if_pos hne]
          refine ih hr hnil ?_
          rw [List.length_append, List.length_singleton] at hfuel
          omega

/-- The `for` loop. -/
theorem sortLoop_ring {todo done : List Nat} {fuel : Nat} (hr : Ring m h (done ++ todo))
    (hdone : done ≠ []) (hfuel : done.length + 2 * todo.length < fuel) :
    ∃ m', sortLoop cmp h fuel m (todo.headD h) = some m' ∧
      Ring m' h (todo.foldl (insertBack cmp) done) := by
  induction todo generalizing m done fuel with
  | nil =>
    cases fuel with
    | zero => omega
    | succ fuel =>
      rw [List.append_nil] at hr
      exact ⟨m, if_neg fun hne => hne rfl, hr⟩
  | cons q todo ih =>
    cases fuel with
    | zero => omega
    | succ fuel =>
      rw [List.length_cons] at hfuel
      obtain ⟨hbefore, hbehind⟩ := chain_append.mp hr.chain
      have hqh : q ≠ h := by
        rintro rfl
        exact (List.nodup_cons.mp hr.nodup).1 (by simp)
      have hprev : m.prev q = done.getLastD h := hbefore.prev_eq
      have hnext : m.next q = todo.headD h := hbehind.next_eq
      have hremoved := hr.remove
      have hback : sortBack cmp (ngxQueueRemove m q) h q fuel (done.getLastD h) = _ :=
        sortBack_eq hremoved hdone (by omega)
      have hparts : (done.rdropWhile fun p => 0 < cmp p q) ++
          (done.rtakeWhile fun p => 0 < cmp p q) = done := List.rdropWhile_append_rtakeWhile
      -- the node goes between the two parts of the sorted list
      have hfresh : q ∉ h :: (done ++ todo) := by
        have hperm : (h :: (done ++ q :: todo)).Perm (q :: h :: (done ++ todo)) := by
          refine List.perm_iff_count.mpr fun y => ?_
          simp only [List.count_cons, List.count_append]
          omega
        exact (List.nodup_cons.mp (hperm.nodup_iff.mp hr.nodup)).1
      have hinsert : Ring (ngxQueueInsertHead (ngxQueueRemove m q)
          ((done.rdropWhile fun p => 0 < cmp p q).getLastD h) q) h
          (insertBack cmp done q ++ todo) := by
        rw [insertBack, List.append_assoc, List.cons_append]
        rw [← hparts, List.append_assoc] at hremoved hfresh
        rcases List.eq_nil_or_concat (done.rdropWhile fun p => 0 < cmp p q) with hnil | ⟨d, y, heq⟩
        · rw [hnil] at hremoved hfresh ⊢
          exact hremoved.insertHead hfresh
        · rw [List.concat_eq_append] at heq
          rw [heq, List.append_assoc] at hremoved hfresh
          rw [heq, getLastD_concat, List.append_assoc]
          exact hremoved.insertAfter hfresh
      -- the sorted part has grown by one, and the fuel is still enough
      have hlen : (insertBack cmp done q).length = done.length + 1 := by
        have hlen := congrArg List.length hparts
        rw [List.length_append] at hlen
        rw [insertBack, List.length_append, List.length_cons]
        omega
      have hfuel' : (insertBack cmp done q).length + 2 * todo.length < fuel := by omega
      obtain ⟨m', hloop, hring⟩ := ih hinsert (by simp [insertBack]) hfuel'
      refine ⟨m', ?_, hring⟩
      change sortLoop cmp h (fuel + 1) m q = some m'
      rw [sortLoop, if_pos hqh, hprev, hnext]
      dsimp only
      rw [hback, Option.bind_some]
      exact hloop

/-- What the sort makes of the list: the nodes are put in one after the other. -/
def insertionSort (cmp : Nat → Nat → Int) : List Nat → List Nat
  | [] => []
  | x :: l => l.foldl (insertBack cmp) [x]

/-- **`ngx_queue_sort` sorts the ring by insertion.** -/
theorem Ring.sort (hr : Ring m h l) (cmp : Nat → Nat → Int) {fuel : Nat}
    (hfuel : 2 * l.length < fuel) :
    ∃ m', ngxQueueSort cmp fuel m h = some m' ∧ Ring m' h (insertionSort cmp l) := by
  have hhead := hr.head_eq
  have hlast := hr.last_eq
  rcases l with _ | ⟨x, _ | ⟨y, l⟩⟩
  · exact ⟨m, if_pos (hhead.trans hlast.symm), hr⟩
  · exact ⟨m, if_pos (hhead.trans hlast.symm), hr⟩
  · rw [List.getLastD_cons, List.getLastD_cons] at hlast
    have hne : ngxQueueHead m h ≠ ngxQueueLast m h := by
      rw [hhead, hlast]
      intro heq
      change x = l.getLastD y at heq
      have hx : x ∉ y :: l := (List.nodup_cons.mp (List.nodup_cons.mp hr.nodup).2).1
      exact hx (heq ▸ getLastD_mem y l)
    have hnext : m.next x = y := hr.chain.2.1.1
    rw [List.length_cons, List.length_cons] at hfuel
    have hring : Ring m h ([x] ++ (y :: l)) := hr
    have hfuel' : [x].length + 2 * (y :: l).length < fuel := by
      rw [List.length_singleton, List.length_cons]
      omega
    obtain ⟨m', hloop, hsorted⟩ := sortLoop_ring hring (List.cons_ne_nil x []) hfuel'
    refine ⟨m', ?_, hsorted⟩
    rw [ngxQueueSort, if_neg hne, hhead]
    change sortLoop cmp h fuel m (m.next x) = some m'
    rw [hnext]
    exact hloop

theorem insertBack_perm (done : List Nat) : (insertBack cmp done q).Perm (q :: done) := by
  have hparts : (done.rdropWhile fun p => 0 < cmp p q) ++
      (done.rtakeWhile fun p => 0 < cmp p q) = done := List.rdropWhile_append_rtakeWhile
  refine List.perm_middle.trans (.cons q ?_)
  rw [hparts]

theorem insertionSort_perm (cmp : Nat → Nat → Int) (l : List Nat) :
    (insertionSort cmp l).Perm l := by
  have hfold : ∀ todo done : List Nat, (todo.foldl (insertBack cmp) done).Perm (done ++ todo) := by
    intro todo
    induction todo with
    | nil => exact fun done => by simp
    | cons q todo ih =>
      intro done
      have hstep : (insertBack cmp done q ++ todo).Perm (q :: done ++ todo) :=
        (insertBack_perm done).append_right todo
      exact (ih (insertBack cmp done q)).trans (hstep.trans List.perm_middle.symm)
  cases l with
  | nil => exact .refl _
  | cons x l => exact hfold l [x]

/-- **The sort sorts**, when the comparison is a total preorder. -/
theorem insertionSort_pairwise (htrans : ∀ a b c, cmp a b ≤ 0 → cmp b c ≤ 0 → cmp a c ≤ 0)
    (htotal : ∀ a b, 0 < cmp a b → cmp b a ≤ 0) (l : List Nat) :
    (insertionSort cmp l).Pairwise fun a b => cmp a b ≤ 0 := by
  have hinsert : ∀ (done : List Nat) (q : Nat), (done.Pairwise fun a b => cmp a b ≤ 0) →
      (insertBack cmp done q).Pairwise fun a b => cmp a b ≤ 0 := by
    intro done q hdone
    have hback : ∀ b ∈ done.rtakeWhile (fun p => 0 < cmp p q), cmp q b ≤ 0 := fun b hb =>
      htotal b q (by simpa using List.mem_rtakeWhile_imp hb)
    have hparts : (done.rdropWhile fun p => 0 < cmp p q) ++
        (done.rtakeWhile fun p => 0 < cmp p q) = done := List.rdropWhile_append_rtakeWhile
    rw [← hparts, List.pairwise_append] at hdone
    obtain ⟨h₁, h₂, h₁₂⟩ := hdone
    -- the last node in front is not greater, and so are those before it
    have hfront : ∀ a ∈ done.rdropWhile (fun p => 0 < cmp p q), cmp a q ≤ 0 := by
      intro a ha
      have hne : done.rdropWhile (fun p => 0 < cmp p q) ≠ [] := List.ne_nil_of_mem ha
      have hlast := List.rdropWhile_last_not _ done hne
      rw [decide_eq_true_eq, Int.not_lt] at hlast
      rw [← List.dropLast_append_getLast hne] at h₁ ha
      rcases List.mem_append.mp ha with ha | ha
      · exact htrans _ _ _ ((List.pairwise_append.mp h₁).2.2 a ha _ List.mem_cons_self) hlast
      · rwa [List.mem_singleton.mp ha]
    refine List.pairwise_append.mpr ⟨h₁, List.pairwise_cons.mpr ⟨hback, h₂⟩, fun a ha b hb => ?_⟩
    rcases List.mem_cons.mp hb with rfl | hb
    · exact hfront a ha
    · exact h₁₂ a ha b hb
  have hfold : ∀ todo done : List Nat, (done.Pairwise fun a b => cmp a b ≤ 0) →
      (todo.foldl (insertBack cmp) done).Pairwise fun a b => cmp a b ≤ 0 := by
    intro todo
    induction todo with
    | nil => exact fun done hdone => hdone
    | cons q todo ih => exact fun done hdone => ih _ (hinsert done q hdone)
  cases l with
  | nil => exact .nil
  | cons x l => exact hfold l [x] (List.pairwise_singleton _ x)

/-- **The sort is stable.** -/
theorem insertionSort_stable (cmp : Nat → Nat → Int) {l : List Nat} (hsub : [a, b].Sublist l)
    (hle : cmp a b ≤ 0) : [a, b].Sublist (insertionSort cmp l) := by
  have hfold : ∀ todo done : List Nat, [a, b].Sublist (done ++ todo) →
      [a, b].Sublist (todo.foldl (insertBack cmp) done) := by
    intro todo
    induction todo with
    | nil =>
      intro done hsub
      rwa [List.append_nil] at hsub
    | cons q todo ih =>
      intro done hsub
      refine ih (insertBack cmp done q) ?_
      have hparts : (done.rdropWhile fun p => 0 < cmp p q) ++
          (done.rtakeWhile fun p => 0 < cmp p q) = done := List.rdropWhile_append_rtakeWhile
      have hin : ∀ y, y = q ∨ y ∈ done → y ∈ insertBack cmp done q := fun y hy =>
        (insertBack_perm done).mem_iff.mpr (List.mem_cons.mpr hy)
      obtain ⟨l₁, l₂, heq, h₁, h₂⟩ := List.sublist_append_iff.mp hsub
      -- where the two nodes come from
      rcases l₁ with _ | ⟨a', _ | ⟨b', l₁⟩⟩
      · obtain rfl : l₂ = [a, b] := heq.symm
        rcases List.cons_sublist_cons'.mp h₂ with hrest | ⟨rfl, hrest⟩
        · exact hrest.trans (List.sublist_append_right _ _)
        · exact (List.singleton_sublist.mpr (hin a (Or.inl rfl))).append hrest
      · obtain ⟨rfl, rfl⟩ : a = a' ∧ l₂ = [b] := by simpa [eq_comm] using heq
        have ha : a ∈ done := List.singleton_sublist.mp h₁
        rcases List.mem_cons.mp (List.singleton_sublist.mp h₂) with rfl | hb
        · -- the first one stays in front of the second
          have hfront : a ∈ done.rdropWhile fun p => 0 < cmp p b := by
            rw [← hparts, List.mem_append] at ha
            refine ha.resolve_right fun hback => ?_
            have hgt : 0 < cmp a b := by simpa using List.mem_rtakeWhile_imp hback
            omega
          rw [insertBack, List.append_assoc]
          exact (List.singleton_sublist.mpr hfront).append
            (List.singleton_sublist.mpr List.mem_cons_self)
        · exact (List.singleton_sublist.mpr (hin a (Or.inr ha))).append
            (List.singleton_sublist.mpr hb)
      · obtain ⟨rfl, rfl, rfl, rfl⟩ : a = a' ∧ b = b' ∧ l₁ = [] ∧ l₂ = [] := by
          simpa [eq_comm] using heq
        refine h₁.trans (List.Sublist.trans ?_ (List.sublist_append_left _ _))
        rw [insertBack]
        nth_rewrite 1 [← hparts]
        exact (List.Sublist.refl _).append (List.sublist_cons_self q _)
  cases l with
  | nil => exact hsub
  | cons x l => exact hfold l [x] hsub

end

/-- **`ngx_queue_sort` sorts in place and is stable.** On a ring of any length the code
runs to the end and leaves a ring of the same nodes, in order and with equal ones as they
were. -/
theorem ngxQueueSort_sorts {m : QueueMem} {h : Nat} {l : List Nat} (hr : Ring m h l)
    {cmp : Nat → Nat → Int} (htrans : ∀ a b c, cmp a b ≤ 0 → cmp b c ≤ 0 → cmp a c ≤ 0)
    (htotal : ∀ a b, 0 < cmp a b → cmp b a ≤ 0) {fuel : Nat} (hfuel : 2 * l.length < fuel) :
    ∃ m' l', ngxQueueSort cmp fuel m h = some m' ∧ Ring m' h l' ∧ l'.Perm l ∧
      (l'.Pairwise fun a b => cmp a b ≤ 0) ∧
      ∀ a b, [a, b].Sublist l → cmp a b ≤ 0 → [a, b].Sublist l' := by
  obtain ⟨m', hcode, hring⟩ := hr.sort cmp hfuel
  exact ⟨m', insertionSort cmp l, hcode, hring, insertionSort_perm cmp l,
    insertionSort_pairwise htrans htotal l, fun _ _ hsub hle => insertionSort_stable cmp hsub hle⟩

/-- Three nodes, two of which are equal. -/
theorem ngxQueueSort_sorts_three :
    let m := ngxQueueInsertTail (ngxQueueInsertTail (ngxQueueInsertTail
      (ngxQueueInit ⟨fun _ => 0, fun _ => 0⟩ 0) 0 5) 0 2) 0 4
    let cmp : Nat → Nat → Int := fun a b => ((a / 2 : Nat) : Int) - (b / 2 : Nat)
    ∃ m' l', ngxQueueSort cmp 7 m 0 = some m' ∧ Ring m' 0 l' ∧ l'.Perm [5, 2, 4] ∧
      (l'.Pairwise fun a b => cmp a b ≤ 0) ∧
      ∀ a b, [a, b].Sublist [5, 2, 4] → cmp a b ≤ 0 → [a, b].Sublist l' := by
  intro m cmp
  have hring : Ring m 0 [5, 2, 4] :=
    (((ring_init _ 0).insertTail (by decide)).insertTail (by decide)).insertTail (by decide)
  have hcmp : ∀ a b, cmp a b = ((a / 2 : Nat) : Int) - (b / 2 : Nat) := fun _ _ => rfl
  refine ngxQueueSort_sorts hring (fun a b c hab hbc => ?_) (fun a b hab => ?_) (by decide)
  · rw [hcmp] at hab hbc ⊢
    omega
  · rw [hcmp] at hab ⊢
    omega

end Nginx
