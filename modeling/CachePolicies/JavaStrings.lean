import CachePolicies.JavaIntegers
import Mathlib.Data.List.DropRight

/-!
# Strings, `split` and `Long.decode`

The parts of `String` and `Long` that a trace is read with. The digits which the platform
knows are a parameter, as `Character.digit` also accepts the digits of other scripts.
-/

namespace CachePolicies

abbrev JavaString := List Char

/-- The range of the type `long`. -/
def IsLong (n : ℤ) : Prop := -9223372036854775808 ≤ n ∧ n ≤ 9223372036854775807

instance : DecidablePred IsLong := fun _ => inferInstanceAs (Decidable (_ ∧ _))

namespace JavaString

/-- The characters of the class `\s` of a regular expression. -/
def isSpace (c : Char) : Bool := c ∈ [' ', '\t', '\n', '\x0b', '\x0c', '\r']

/-- Trailing empty strings are not part of the result of `split`. -/
def dropTrailing (pieces : List JavaString) : List JavaString := pieces.rdropWhile List.isEmpty

/-- `split(regex)`, where the expression matches one separator. -/
def splitAtEach (separator : Char → Bool) (s : JavaString) : List JavaString :=
  if s.any separator then dropTrailing (s.splitOnP separator) else [s]

/-- `split(regex)`, where the expression matches the longest runs of separators. Only a run at
the start of the string leaves an empty string. -/
def splitAtRuns (separator : Char → Bool) (s : JavaString) : List JavaString :=
  if s.any separator then
    match s.splitOnP separator with
    | [] => []
    | first :: rest => dropTrailing (first :: rest.filter fun piece => !piece.isEmpty)
  else [s]

variable {separator : Char → Bool} {first s : JavaString} {c : Char}

/-- A string that ends in its only separator is split into what stands before it. -/
theorem splitAtEach_end (hfirst : first ≠ []) (hno : ∀ x ∈ first, separator x = false)
    (hc : separator c = true) : splitAtEach separator (first ++ [c]) = [first] := by
  have hany : (first ++ [c]).any separator = true := by simp [hc]
  have hempty : first.isEmpty = false := by simpa using hfirst
  rw [splitAtEach, if_pos hany, List.splitOnP_append_cons_of_forall_mem hno c hc, List.splitOnP_nil,
    dropTrailing]
  simp [List.rdropWhile, hempty]

/-- A string that starts with a piece is split into the piece and the pieces of the rest. -/
theorem splitAtRuns_cons (hfirst : first ≠ []) (hno : ∀ x ∈ first, separator x = false)
    (hc : separator c = true) : splitAtRuns separator (first ++ c :: s) =
      first :: (s.splitOnP separator).filter fun piece => !piece.isEmpty := by
  have hany : (first ++ c :: s).any separator = true := by simp [hc]
  rw [splitAtRuns, if_pos hany, List.splitOnP_append_cons_of_forall_mem hno c hc]
  refine List.rdropWhile_eq_self_iff.mpr fun hne => ?_
  have hmem := List.getLast_mem hne
  rcases List.mem_cons.mp hmem with he | hrest
  · rw [he]
    simpa using hfirst
  · simpa using (List.mem_filter.mp hrest).2

end JavaString

/-! ## Numbers -/

namespace Long

variable (digit : Char → ℕ → Option ℕ)

/-- The sign in front of a number, and what follows it. -/
def sign : JavaString → Bool × JavaString
  | '-' :: s => (true, s)
  | '+' :: s => (false, s)
  | s => (false, s)

/-- The radix which the start of a number announces, and its digits. -/
def radix : JavaString → ℕ × JavaString
  | '0' :: 'x' :: s => (16, s)
  | '0' :: 'X' :: s => (16, s)
  | '#' :: s => (16, s)
  | '0' :: c :: s => (8, c :: s)
  | s => (10, s)

/-- The value of a string of digits. -/
def digits (base : ℕ) (s : JavaString) : Option ℕ :=
  s.foldlM (fun n c => (digit c base).map fun d => n * base + d) 0

/-- `Long.decode`, which throws a `NumberFormatException` where there is no value. -/
def decode (s : JavaString) : Option ℤ :=
  let (negative, s) := sign s
  let (base, s) := radix s
  if s = [] ∨ s.head? = some '-' ∨ s.head? = some '+' then none
  else do
    let n ← digits digit base s
    let value : ℤ := if negative then -n else n
    if IsLong value then some value else none

end Long

namespace Integer

variable (digit : Char → ℕ → Option ℕ)

/-- `Integer.decode`, which reads a number as `Long.decode` does. -/
def decode (s : JavaString) : Option ℤ :=
  let (negative, s) := Long.sign s
  let (base, s) := Long.radix s
  if s = [] ∨ s.head? = some '-' ∨ s.head? = some '+' then none
  else do
    let n ← Long.digits digit base s
    let value : ℤ := if negative then -n else n
    if IsInt value then some value else none

/-- The numbers of type `int` are decoded alike, and the others are rejected. -/
theorem decode_eq_filter (s : JavaString) :
    decode digit s = (Long.decode digit s).filter fun n => IsInt n := by
  rw [decode, Long.decode]
  simp only [Option.bind_eq_bind]
  split
  · rfl
  · cases Long.digits digit (Long.radix (Long.sign s).2).1 (Long.radix (Long.sign s).2).2 with
    | none => rfl
    | some n =>
      simp only [Option.bind_some]
      generalize (if (Long.sign s).1 = true then -(n : ℤ) else n) = value
      by_cases hlong : IsLong value
      · by_cases hint : IsInt value <;> simp [hlong, hint, Option.filter_some]
      · have hint : ¬IsInt value := by
          unfold IsLong at hlong
          unfold IsInt
          omega
        simp [hlong, hint]

end Integer

end CachePolicies
