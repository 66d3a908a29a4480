import Mathlib.Data.Int.Basic
import Mathlib.Data.Nat.Log

/-!
# Java's `int` arithmetic and exceptions

Values of type `int` are integers in the 32-bit range. Every sum, difference and
product of the source is reduced by `int32`, so that an overflow is visible.
-/

namespace CachePolicies

/-- The range of the type `int`. -/
def IsInt (n : ℤ) : Prop := -2147483648 ≤ n ∧ n ≤ 2147483647

instance : DecidablePred IsInt := fun _ => inferInstanceAs (Decidable (_ ∧ _))

/-- A value of type `int`, as a configuration object stores it. -/
abbrev JavaInt := {n : ℤ // IsInt n}

/-- The `int` that two's complement arithmetic leaves for the exact result `n`. -/
def int32 (n : ℤ) : ℤ := (n + 2147483648) % 4294967296 - 2147483648

theorem int32_of_isInt {n : ℤ} (h : IsInt n) : int32 n = n := by
  unfold IsInt at h
  unfold int32
  omega

theorem isInt_int32 (n : ℤ) : IsInt (int32 n) := by
  unfold IsInt int32
  omega

/-- A literal of type `int`. -/
instance (n : ℕ) : OfNat JavaInt n := ⟨int32 n, isInt_int32 n⟩

/-- Reducing a summand first does not change the reduced sum. -/
@[simp] theorem int32_int32_add (a b : ℤ) : int32 (int32 a + b) = int32 (a + b) := by
  unfold int32
  omega

inductive JavaException
  | noSuchElement | arithmetic | nullPointer | indexOutOfBounds | illegalArgument
  deriving DecidableEq, Repr

/-- The outcome of a call: its result, or the exception it throws. -/
abbrev Java (β : Type) := Except JavaException β

@[simp] theorem Java.ok_bind {β γ : Type} (a : β) (f : β → Java γ) :
    ((Except.ok a : Java β) >>= f) = f a := rfl

@[simp] theorem Java.pure_eq {β : Type} (a : β) : (pure a : Java β) = .ok a := rfl

@[simp] theorem Java.error_bind {β γ : Type} (e : JavaException) (f : β → Java γ) :
    ((Except.error e : Java β) >>= f) = .error e := rfl

/-- A call that returns has returned from its first part. -/
theorem Java.bind_eq_ok {β γ : Type} {x : Java β} {f : β → Java γ} {r : γ} :
    x >>= f = .ok r ↔ ∃ a, x = .ok a ∧ f a = .ok r := by
  cases x with
  | error e => simp
  | ok a => simp

/-- The operator `/` on operands that are not negative; only `MIN_VALUE / -1` would overflow. -/
def divide (a b : ℤ) : Java ℤ := if b = 0 then .error .arithmetic else .ok (a.tdiv b)

theorem divide_of_pos {a b : ℤ} (hb : 0 < b) : divide a b = .ok (a.tdiv b) := by
  rw [divide, if_neg (by omega)]

/-- The operator `%`, which takes the sign of the dividend. -/
def remainder (a b : ℤ) : Java ℤ := if b = 0 then .error .arithmetic else .ok (a.tmod b)

end CachePolicies
