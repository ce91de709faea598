import Amoeba.DocStore.Basic
import Amoeba.Java.String

/-!
# Subscriptions

`UserKeyword`, `UserKeywordsRepository` and `UserKeywordsService`: the records of
the subscriptions, the lookups on them, and what the service does with them.

The repository is code of a library. Its finders go through the collection, its
finder of a single record takes the first that fits, `save` replaces the record
under its id or adds one, and `delete` takes an id. An id of 24 hexadecimal digits
stands for an `ObjectId`, in which the letter case is lost.
-/

namespace SpringReader

open Java DocStore

/-- A `java.util.Date`, in milliseconds. -/
abbrev Date := Int

/-! ### Records -/

/-- `UserKeyword` -/
structure UserKeyword where
  id : JString
  name : JString
  type : JString
  createddate : Date
  username : JString
  lastpushdate : Option Date
  email : JString
  deriving DecidableEq, Repr

/-- A hexadecimal digit. -/
def isHexDigit (c : UInt16) : Bool :=
  (0x30 ≤ c && c ≤ 0x39) || (0x61 ≤ c && c ≤ 0x66) || (0x41 ≤ c && c ≤ 0x46)

/-- The id as it is stored: an `ObjectId` when it can be read as one. -/
def objectId (id : JString) : JString :=
  if id.length = 24 ∧ id.all isHexDigit then
    id.map fun c => if 0x41 ≤ c ∧ c ≤ 0x46 then c + 0x20 else c
  else id

/-- What the collection tells records apart by. -/
def UserKeyword.key (r : UserKeyword) : JString := objectId r.id

/-- The collection of the subscriptions. -/
abbrev Store := Coll UserKeyword.key

/-- What a record subscribes to. -/
structure Subscription where
  username : JString
  name : JString
  email : JString
  deriving DecidableEq, Repr

/-- The subscription that a record stands for. -/
def UserKeyword.sub (r : UserKeyword) : Subscription := ⟨r.username, r.name, r.email⟩

/-- No subscription has two records. -/
def Unique (s : Store) : Prop := ∀ r ∈ s, ∀ r' ∈ s, r.sub = r'.sub → r = r'

/-! ### The repository -/

/-- `findByUsername` -/
def findByUsername (s : Store) (username : JString) : List UserKeyword :=
  s.find (·.username = username)

/-- `findByUsernameAndEmail` -/
def findByUsernameAndEmail (s : Store) (username email : JString) : List UserKeyword :=
  s.find fun r => r.username = username ∧ r.email = email

/-- `findByUsernameAndNameAndEmail` -/
def findByUsernameAndNameAndEmail (s : Store) (username name email : JString) :
    Option UserKeyword :=
  s.findOne (·.sub = ⟨username, name, email⟩)

@[simp] theorem mem_findByUsername {s : Store} {username : JString} {r : UserKeyword} :
    r ∈ findByUsername s username ↔ r ∈ s ∧ r.username = username := by
  simp [findByUsername, Coll.mem_find]

@[simp] theorem mem_findByUsernameAndEmail {s : Store} {username email : JString}
    {r : UserKeyword} :
    r ∈ findByUsernameAndEmail s username email ↔
      r ∈ s ∧ r.username = username ∧ r.email = email := by
  simp [findByUsernameAndEmail, Coll.mem_find]

theorem find_eq_some {s : Store} {username name email : JString} {r : UserKeyword}
    (h : findByUsernameAndNameAndEmail s username name email = some r) :
    r ∈ s ∧ r.sub = ⟨username, name, email⟩ := by
  obtain ⟨hr, hsub⟩ := Coll.findOne_eq_some h
  exact ⟨hr, of_decide_eq_true hsub⟩

theorem find_eq_none {s : Store} {username name email : JString} :
    findByUsernameAndNameAndEmail s username name email = none ↔
      ∀ r ∈ s, r.sub ≠ ⟨username, name, email⟩ := by
  simp [findByUsernameAndNameAndEmail, Coll.findOne_eq_none]

/-! ### The service -/

/-- A new record, as `create` makes it. The driver fills in the id. -/
def newKeyword (keyword username email : JString) (now : Date) (newId : JString) : UserKeyword where
  id := newId
  name := keyword
  type := []
  createddate := now
  username := username
  lastpushdate := none
  email := email

/-- `UserKeywordsService.create` -/
def create (keyword username email : JString) (now : Date) (newId : JString) (s : Store) : Store :=
  -- the lookup gets the keyword for the name of the user and the other way round
  if (findByUsernameAndNameAndEmail s keyword username email).isNone then
    s.save (newKeyword keyword username email now newId)
  else s

/-- `UserKeywordsService.delete` of an id. -/
def deleteById (id : JString) (s : Store) : Store := s.delete (objectId id)

/-- The record with another date. -/
def UserKeyword.setLastpushdate (r : UserKeyword) (lastpushdate : Date) : UserKeyword :=
  { r with lastpushdate := some lastpushdate }

@[simp] theorem setLastpushdate_key (r : UserKeyword) (d : Date) :
    (r.setLastpushdate d).key = r.key := rfl

/-- Delete a record and save a copy with another date. -/
def rewrite (lastpushdate : Date) (s : Store) (r : UserKeyword) : Store :=
  (s.delete r.key).save (r.setLastpushdate lastpushdate)

/-- `UserKeywordsService.updateLastpushdate` -/
def updateLastpushdate (keyword username email : JString) (lastpushdate : Date) (s : Store) : Store :=
  match findByUsernameAndNameAndEmail s username keyword email with
  | none => s
  | some r => rewrite lastpushdate s r

/-- `UserKeywordsService.updateLastpushdateAllKeyword` -/
def updateLastpushdateAllKeyword (username email : JString) (lastpushdate : Date) (s : Store) :
    Store :=
  (findByUsernameAndEmail s username email).foldl (rewrite lastpushdate) s

theorem mem_rewrite {d : Date} {s : Store} {r x : UserKeyword} :
    x ∈ rewrite d s r ↔ x = r.setLastpushdate d ∨ x ∈ s ∧ x.key ≠ r.key := by
  rw [rewrite, Coll.mem_save, Coll.mem_delete, setLastpushdate_key, and_assoc, and_self]

/-- **Rewriting some records** leaves the others. -/
theorem mem_foldl_rewrite {d : Date} {rs : List UserKeyword} {s : Store} {x : UserKeyword}
    (hrs : ∀ r ∈ rs, r ∈ s) (hnodup : (rs.map UserKeyword.key).Nodup) :
    x ∈ rs.foldl (rewrite d) s ↔
      (∃ r ∈ rs, x = r.setLastpushdate d) ∨ x ∈ s ∧ ∀ r ∈ rs, x.key ≠ r.key := by
  induction rs generalizing s with
  | nil => simp
  | cons r rs ih =>
    obtain ⟨hr, hrs⟩ := List.forall_mem_cons.mp hrs
    obtain ⟨hkey, hnodup⟩ := List.nodup_cons.mp (List.map_cons ▸ hnodup)
    have hne : ∀ r' ∈ rs, r'.key ≠ r.key := fun r' hr' heq =>
      hkey (heq ▸ List.mem_map_of_mem hr')
    -- the others are still there
    have hrest : ∀ r' ∈ rs, r' ∈ rewrite d s r := fun r' hr' =>
      mem_rewrite.mpr (.inr ⟨hrs r' hr', hne r' hr'⟩)
    rw [List.foldl_cons, ih hrest hnodup, mem_rewrite]
    simp only [List.exists_mem_cons_iff, List.forall_mem_cons]
    constructor
    · rintro (⟨r', hr', rfl⟩ | ⟨rfl | ⟨hx, hxr⟩, hall⟩)
      · exact .inl (.inr ⟨r', hr', rfl⟩)
      · exact .inl (.inl rfl)
      · exact .inr ⟨hx, hxr, hall⟩
    · rintro ((rfl | ⟨r', hr', rfl⟩) | ⟨hx, hxr, hall⟩)
      · exact .inr ⟨.inl rfl, fun r' hr' => (hne r' hr').symm⟩
      · exact .inl ⟨r', hr', rfl⟩
      · exact .inr ⟨.inr ⟨hx, hxr⟩, hall⟩

/-- **All records of a pair get the date**, and the others stay. -/
theorem mem_updateLastpushdateAllKeyword {username email : JString} {d : Date} {s : Store}
    {x : UserKeyword} :
    x ∈ updateLastpushdateAllKeyword username email d s ↔
      (∃ r ∈ s, r.username = username ∧ r.email = email ∧ x = r.setLastpushdate d) ∨
        x ∈ s ∧ ¬ (x.username = username ∧ x.email = email) := by
  have hnodup : ((findByUsernameAndEmail s username email).map UserKeyword.key).Nodup :=
    s.nodup.sublist (List.filter_sublist.map _)
  have hmem : ∀ r ∈ findByUsernameAndEmail s username email, r ∈ s :=
    fun r hr => (mem_findByUsernameAndEmail.mp hr).1
  rw [updateLastpushdateAllKeyword, mem_foldl_rewrite hmem hnodup]
  simp only [mem_findByUsernameAndEmail]
  refine or_congr (by simp only [and_assoc]) (and_congr_right fun hx => ?_)
  constructor
  · exact fun hall hpair => hall x ⟨hx, hpair⟩ rfl
  · rintro hpair r ⟨hr, hr'⟩ hkey
    -- a key has one record
    obtain rfl := Coll.eq_of_key_eq hx hr hkey
    exact hpair hr'

/-- Rewriting a record of one user leaves what is found for the others. -/
theorem findByUsername_rewrite {d : Date} {s : Store} {r : UserKeyword} {username : JString}
    (hr : r ∈ s) (hne : r.username ≠ username) :
    findByUsername (rewrite d s r) username = findByUsername s username := by
  unfold findByUsername rewrite
  rw [Coll.find_save_of_fresh, Coll.find_delete]
  · intro x hx hname hkey
    obtain rfl := Coll.eq_of_key_eq hx hr hkey
    exact hne (of_decide_eq_true hname)
  · exact fun y hy => (Coll.mem_delete.mp hy).2
  · exact decide_eq_false hne

theorem findByUsername_foldl_rewrite {d : Date} {rs : List UserKeyword} {s : Store}
    {username : JString} (hrs : ∀ r ∈ rs, r ∈ s) (hnodup : (rs.map UserKeyword.key).Nodup)
    (hne : ∀ r ∈ rs, r.username ≠ username) :
    findByUsername (rs.foldl (rewrite d) s) username = findByUsername s username := by
  induction rs generalizing s with
  | nil => rfl
  | cons r rs ih =>
    obtain ⟨hr, hrs⟩ := List.forall_mem_cons.mp hrs
    obtain ⟨hname, hne⟩ := List.forall_mem_cons.mp hne
    obtain ⟨hkey, hnodup⟩ := List.nodup_cons.mp (List.map_cons ▸ hnodup)
    have hrest : ∀ r' ∈ rs, r' ∈ rewrite d s r := fun r' hr' =>
      mem_rewrite.mpr (.inr ⟨hrs r' hr', fun heq => hkey (heq ▸ List.mem_map_of_mem hr')⟩)
    rw [List.foldl_cons, ih hrest hnodup hne, findByUsername_rewrite hr hname]

/-- **An update for one user** leaves what is found for the others. -/
theorem findByUsername_updateLastpushdateAllKeyword {username email other : JString} {d : Date}
    {s : Store} (hne : other ≠ username) :
    findByUsername (updateLastpushdateAllKeyword username email d s) other =
      findByUsername s other := by
  refine findByUsername_foldl_rewrite (fun r hr => (mem_findByUsernameAndEmail.mp hr).1)
    (s.nodup.sublist (List.filter_sublist.map _)) fun r hr heq => hne ?_
  rw [← heq, (mem_findByUsernameAndEmail.mp hr).2.1]

end SpringReader
