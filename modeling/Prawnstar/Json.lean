import Mathlib.Data.Rat.Floor

/-!
# JSON values and their conversions

Messages, payloads and replies are values of the JSON library. The library's
non-const `operator[]` makes an object of null, a conversion to a value of the
wrong type throws, and a loop over null does nothing. Object members are
listed in the library's order, by key.
-/

namespace Prawnstar

/-- What ends a call before it returns. The first three are C++ exceptions, the
others stop the process. -/
inductive Fault
  /-- `nlohmann::json::type_error` -/
  | typeError
  /-- `std::length_error` -/
  | lengthError
  /-- `std::out_of_range` or `std::invalid_argument` -/
  | logicError
  /-- An assertion of the JSON library. -/
  | assertion
  /-- An integer division by zero. -/
  | divisionByZero
  /-- A read outside of an object. -/
  | invalidRead
  /-- A read through a null pointer. -/
  | nullPointer
  deriving DecidableEq, Repr

/-- A JSON value. An integer has 64 bits: a signed one, or an unsigned one that no
signed one holds. -/
inductive Json
  | null
  | bool (b : Bool)
  | int (z : ℤ)
  | uint (n : ℕ)
  | float (q : ℚ)
  | string (s : String)
  | array (items : List Json)
  | object (members : List (String × Json))
  deriving Inhabited

/-- `static_cast` of a double to a signed integer of some width: truncation
toward zero, undefined outside the range of the integer type. -/
def castDouble (undefinedCast : ℕ → ℚ → ℤ) (bits : ℕ) (q : ℚ) : ℤ :=
  let z := q.num.tdiv q.den
  if -2 ^ (bits - 1) ≤ z ∧ z < 2 ^ (bits - 1) then z else undefinedCast bits q

/-- `static_cast` of an integer to a double: to 53 significant bits, to the nearest one
and of two nearest ones to the even one. -/
def castInteger (z : ℤ) : ℚ :=
  let shift := z.natAbs.log2 + 1 - 53
  let significand := z.natAbs / 2 ^ shift
  let rest := z.natAbs % 2 ^ shift
  let up := 2 ^ shift < 2 * rest ∨ 2 ^ shift = 2 * rest ∧ significand % 2 = 1
  z.sign * ((if up then significand + 1 else significand) * 2 ^ shift : ℕ)

example : castInteger (2 ^ 53 - 1) = 2 ^ 53 - 1 ∧ castInteger (2 ^ 53 + 1) = 2 ^ 53 ∧
    castInteger (-(2 ^ 64 - 1)) = -2 ^ 64 := by decide +kernel

namespace Json

/-- `operator[]` with a key on a non-const value. On null it makes an object
in which the new member is null. -/
def member (key : String) : Json → Except Fault Json
  | null => .ok null
  | object members => .ok ((members.lookup key).getD null)
  | _ => .error .typeError

/-- `operator[]` with a key on a const value, where the key has to exist. -/
def constMember (key : String) : Json → Except Fault Json
  | object members =>
    match members.lookup key with
    | some value => .ok value
    | none => .error .assertion
  | _ => .error .typeError

/-- Conversion to `std::string`. -/
def toStr : Json → Except Fault String
  | string s => .ok s
  | _ => .error .typeError

/-- Conversion to `double`. -/
def toDouble : Json → Except Fault ℚ
  | int z => .ok (castInteger z)
  | uint n => .ok (castInteger n)
  | float q => .ok q
  | _ => .error .typeError

/-- Conversion to `long`, and to `time_t`, which is the same type. -/
def toLong (undefinedCast : ℕ → ℚ → ℤ) : Json → Except Fault ℤ
  | int z => .ok z
  | uint n => .ok (n - 2 ^ 64)
  | float q => .ok (castDouble undefinedCast 64 q)
  | _ => .error .typeError

/-- The values a range-based loop visits. -/
def elements : Json → List Json
  | null => []
  | array items => items
  | object members => members.map Prod.snd
  | j => [j]

/-- `size()` -/
def size : Json → ℕ
  | null => 0
  | array items => items.length
  | object members => members.length
  | _ => 1

end Json

end Prawnstar
