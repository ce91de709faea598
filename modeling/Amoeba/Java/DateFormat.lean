import Amoeba.Java.String
import Mathlib.Data.Int.Order.Basic

/-!
# Dates as text

`new SimpleDateFormat()` prints a date in the short form of the locale, which has
minutes and no seconds, and parses it again. The text itself depends on the locale,
so a format is a pair of functions here, and that the two keep the minute is a
hypothesis on the dates in question.
-/

namespace Java

/-- A `java.util.Date`, in milliseconds. -/
abbrev Date := Int

/-- The start of the minute. -/
def truncMinute (d : Date) : Date := d - d % 60000

theorem truncMinute_le (d : Date) : truncMinute d ≤ d :=
  Int.sub_le_self d (Int.emod_nonneg d (by decide))

theorem truncMinute_eq_mul (d : Date) : truncMinute d = 60000 * (d / 60000) := by
  have hdiv : ∀ x : Int, x - x % 60000 = 60000 * (x / 60000) := fun x => by omega
  exact hdiv d

theorem truncMinute_mono {d d' : Date} (h : d ≤ d') : truncMinute d ≤ truncMinute d' := by
  have hle : d / 60000 ≤ d' / 60000 := Int.ediv_le_ediv (by decide) h
  rw [truncMinute_eq_mul, truncMinute_eq_mul]
  exact Int.mul_le_mul_of_nonneg_left hle (by decide)

theorem truncMinute_truncMinute (d : Date) : truncMinute (truncMinute d) = truncMinute d := by
  rw [truncMinute, truncMinute_eq_mul d, Int.mul_emod_right, Int.sub_zero]

/-- A format for dates. An exception of `parse` is `none`, and an empty text is not a
date. -/
structure DateFormat where
  format : Date → JString
  parse : JString → Option Date
  parse_nil : parse [] = none

/-- The format keeps the minute of the date. -/
def DateFormat.KeepsMinute (fmt : DateFormat) (d : Date) : Prop :=
  fmt.parse (fmt.format d) = some (truncMinute d)

/-- How the jobs store a date in their data. -/
def DateFormat.write (fmt : DateFormat) : Option Date → JString
  | none => []
  | some d => fmt.format d

/-- How the jobs read a date from their data. -/
def DateFormat.read (fmt : DateFormat) (text : Option JString) : Option Date :=
  match text with
  | none => none
  | some text => if text.isEmpty then none else fmt.parse text

theorem DateFormat.read_write_none (fmt : DateFormat) :
    fmt.read (some (fmt.write none)) = none := rfl

/-- **The round trip** loses the seconds. -/
theorem DateFormat.read_write_some {fmt : DateFormat} {d : Date} (h : fmt.KeepsMinute d) :
    fmt.read (some (fmt.write (some d))) = some (truncMinute d) := by
  have hne : fmt.format d ≠ [] := by
    intro hnil
    rw [KeepsMinute, hnil, fmt.parse_nil] at h
    simp at h
  rw [read, write, if_neg (by simpa using hne)]
  exact h

end Java
