import Mathlib.Algebra.Order.Ring.Nat
import Mathlib.Data.List.Induction
import Mathlib.Tactic.Ring

/-!
# Decimal digits as bytes

The value of a text of decimal digits, with the rules by which it is computed when
texts are put together.
-/

namespace Library

/-- A byte that is a decimal digit. -/
def IsDigit (b : UInt8) : Prop := 0x30 ≤ b.toNat ∧ b.toNat ≤ 0x39

instance IsDigit.decidable : DecidablePred IsDigit := fun _ => instDecidableAnd

/-- The value of a text of digits. -/
def decimal (bs : List UInt8) : ℕ := bs.foldl (fun n b => 10 * n + (b.toNat - 0x30)) 0

@[simp] theorem decimal_nil : decimal [] = 0 := rfl

/-- A digit at the end. -/
theorem decimal_concat (bs : List UInt8) (b : UInt8) :
    decimal (bs ++ [b]) = 10 * decimal bs + (b.toNat - 0x30) := by
  rw [decimal, List.foldl_append]
  rfl

/-- Digits behind digits. -/
theorem decimal_append (as bs : List UInt8) :
    decimal (as ++ bs) = decimal as * 10 ^ bs.length + decimal bs := by
  induction bs using List.reverseRecOn with
  | nil => simp
  | append_singleton bs b ih =>
    rw [← List.append_assoc, decimal_concat, ih, decimal_concat, List.length_append,
      List.length_singleton, pow_succ]
    ring

/-- A digit in front. -/
theorem decimal_cons (b : UInt8) (bs : List UInt8) :
    decimal (b :: bs) = (b.toNat - 0x30) * 10 ^ bs.length + decimal bs := by
  rw [← List.singleton_append, decimal_append]
  simp [decimal]

/-- Zeros are worth nothing. -/
@[simp] theorem decimal_replicate_zero (k : ℕ) : decimal (List.replicate k 0x30) = 0 := by
  induction k with
  | zero => rfl
  | succ k ih =>
    rw [List.replicate_succ, decimal_cons, ih]
    simp

end Library
