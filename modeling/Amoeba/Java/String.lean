import Mathlib.Data.List.Basic

/-!
# Java strings

A `String` of Java is a sequence of 16-bit code units, and not each such sequence
is well-formed UTF-16. `split` is `String.split` for a regular expression that
consists of one character without a meaning of its own.
-/

namespace Java

/-- A `java.lang.String`, as its code units. -/
abbrev JString := List UInt16

instance : LawfulBEq JString := inferInstance

/-- A literal without characters outside the basic plane. -/
def lit (s : String) : JString := s.toList.map fun c => c.toNat.toUInt16

/-- What `+` makes of a reference to a string. -/
def concat : Option JString → JString
  | none => lit "null"
  | some s => s

/-- The list without the empty strings at its end. -/
def dropTrailingEmpty (parts : List JString) : List JString :=
  (parts.reverse.dropWhile (·.isEmpty)).reverse

/-- `s.split(sep)`: the empty strings at the end are left out. A string without the
separator is returned as it is, also when it is empty. -/
def split (sep : UInt16) (s : JString) : List JString :=
  if sep ∈ s then dropTrailingEmpty (s.splitOn sep) else [s]

end Java
