import Amoeba.Java.String
import Mathlib.Data.Nat.Digits.Lemmas

/-!
# Numbers as text

How `+` prints a number, and `Integer.parseInt`. What counts as a digit is decided by
`Character.digit`: each script has its own ten, in a row.

* `parseInt_decimal` — a number that is printed is read back.
-/

namespace Java

/-- The zeros of the scripts. -/
def digitZeros : List UInt16 :=
  [0x30, 0x660, 0x6F0, 0x7C0, 0x966, 0x9E6, 0xA66, 0xAE6, 0xB66, 0xBE6, 0xC66, 0xCE6, 0xD66, 0xE50,
    0xED0, 0xF20, 0x1040, 0x1090, 0x17E0, 0x1810, 0x1946, 0x19D0, 0x1A80, 0x1A90, 0x1B50, 0x1BB0,
    0x1C40, 0x1C50, 0xA620, 0xA8D0, 0xA900, 0xA9D0, 0xAA50, 0xABF0, 0xFF10]

/-- `Character.digit(c, 10)` -/
def digit (c : UInt16) : Option Nat :=
  (digitZeros.find? fun z => z ≤ c ∧ c < z + 10).map fun z => (c - z).toNat

/-- The value of some digits behind others that are worth `n`. -/
def digitsValue : Nat → JString → Option Nat
  | n, [] => some n
  | n, c :: s => (digit c).bind fun d => digitsValue (n * 10 + d) s

/-- The value of a number without a sign. -/
def parseDigits (s : JString) : Option Nat := if s.isEmpty then none else digitsValue 0 s

/-- `Integer.parseInt`; `none` stands for an exception. -/
def parseInt (s : JString) : Option Int32 :=
  match s with
  | 0x2D :: s => (parseDigits s).bind fun n => if n ≤ 2 ^ 31 then some (Int32.ofInt (-n)) else none
  | 0x2B :: s => (parseDigits s).bind fun n => if n < 2 ^ 31 then some (Int32.ofInt n) else none
  | s => (parseDigits s).bind fun n => if n < 2 ^ 31 then some (Int32.ofInt n) else none

/-- The digit of a number below ten. -/
def digitChar (d : Nat) : UInt16 := 0x30 + d.toUInt16

/-- A natural number in decimal. -/
def decimalNat (n : Nat) : JString :=
  if n = 0 then [digitChar 0] else (Nat.digits 10 n).reverse.map digitChar

/-- A number in decimal, as `+` prints an `int` or a `long`. -/
def decimal (n : Int) : JString := if n < 0 then 0x2D :: decimalNat n.natAbs else decimalNat n.natAbs

theorem digit_digitChar {d : Nat} (h : d < 10) : digit (digitChar d) = some d := by
  have hall : ∀ d : Fin 10, digit (digitChar d) = some d.val := by decide
  exact hall ⟨d, h⟩

theorem digitsValue_append (n : Nat) (s t : JString) :
    digitsValue n (s ++ t) = (digitsValue n s).bind fun m => digitsValue m t := by
  induction s generalizing n with
  | nil => rfl
  | cons c s ih =>
    rw [List.cons_append, digitsValue, digitsValue]
    cases digit c with
    | none => rfl
    | some d => exact ih (n * 10 + d)

theorem digitsValue_reverse {ds : List Nat} (h : ∀ d ∈ ds, d < 10) :
    digitsValue 0 (ds.reverse.map digitChar) = some (Nat.ofDigits 10 ds) := by
  induction ds with
  | nil => rfl
  | cons d ds ih =>
    rw [List.reverse_cons, List.map_append, digitsValue_append,
      ih fun d' hd' => h d' (List.mem_cons_of_mem d hd')]
    simp only [List.map_cons, List.map_nil, Option.bind_some, digitsValue,
      digit_digitChar (h d List.mem_cons_self), Nat.ofDigits_cons]
    rw [Nat.mul_comm, Nat.add_comm]

theorem parseDigits_decimalNat (n : Nat) : parseDigits (decimalNat n) = some n := by
  unfold decimalNat
  split
  next h =>
    subst h
    rfl
  next h =>
    have hne : ((Nat.digits 10 n).reverse.map digitChar).isEmpty = false := by
      simpa using Nat.digits_ne_nil_iff_ne_zero.mpr h
    rw [parseDigits, hne, if_neg (by simp),
      digitsValue_reverse fun d hd => Nat.digits_lt_base (by decide) hd, Nat.ofDigits_digits]

theorem mem_decimalNat {n : Nat} {c : UInt16} (h : c ∈ decimalNat n) :
    ∃ d < 10, c = digitChar d := by
  unfold decimalNat at h
  split at h
  · exact ⟨0, by decide, by simpa using h⟩
  · obtain ⟨d, hd, rfl⟩ := List.mem_map.mp h
    exact ⟨d, Nat.digits_lt_base (by decide) (List.mem_reverse.mp hd), rfl⟩

/-- What is not a digit is not in a number. -/
theorem notMem_decimalNat {n : Nat} {c : UInt16} (h : ∀ d : Fin 10, c ≠ digitChar d) :
    c ∉ decimalNat n := by
  intro hmem
  obtain ⟨d, hd, rfl⟩ := mem_decimalNat hmem
  exact h ⟨d, hd⟩ rfl

/-- **The round trip.** -/
theorem parseInt_decimal {n : Nat} (h : n < 2 ^ 31) :
    parseInt (decimal n) = some (Int32.ofInt n) := by
  have hdecimal : decimal n = decimalNat n := by simp [decimal]
  have hminus : (0x2D : UInt16) ∉ decimalNat n := notMem_decimalNat (by decide)
  have hplus : (0x2B : UInt16) ∉ decimalNat n := notMem_decimalNat (by decide)
  rw [hdecimal]
  unfold parseInt
  split
  next heq => exact absurd (by rw [heq]; exact List.mem_cons_self) hminus
  next heq => exact absurd (by rw [heq]; exact List.mem_cons_self) hplus
  next =>
    rw [parseDigits_decimalNat, Option.bind_some, if_pos h]

/-- What is not a digit and not a minus is not in a number with a sign. -/
theorem notMem_decimal {n : Int} {c : UInt16} (hminus : c ≠ 0x2D)
    (h : ∀ d : Fin 10, c ≠ digitChar d) : c ∉ decimal n := by
  unfold decimal
  split
  · rw [List.mem_cons, not_or]
    exact ⟨hminus, notMem_decimalNat h⟩
  · exact notMem_decimalNat h

end Java
