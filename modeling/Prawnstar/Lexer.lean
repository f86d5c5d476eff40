import Prawnstar.Serializer
import Prawnstar.Library.Decimals

/-!
# Tokens

The lexer of the JSON library, on the bytes of a text. A scan that fails leaves
nothing to read, since the parser stops at it. Positions and the texts of errors,
which nobody reads, are left out, and so are comments, which every caller forbids.
-/

namespace Prawnstar

open Library

namespace Lexer

/-- `token_type`, with the values of the tokens that have one. The value of a
floating-point number is none when it is not finite. -/
inductive Token
  | beginArray
  | endArray
  | beginObject
  | endObject
  | nameSeparator
  | valueSeparator
  | literalTrue
  | literalFalse
  | literalNull
  | valueString (tokenBuffer : List UInt8)
  | valueUnsigned (value : ℕ)
  | valueInteger (value : ℤ)
  | valueFloat (value : Option ℚ)
  | endOfInput
  | parseError
  deriving DecidableEq

/-- The value of a hex digit. -/
def hexValue (current : UInt8) : Option ℕ :=
  if 0x30 ≤ current.toNat ∧ current.toNat ≤ 0x39 then some (current.toNat - 0x30)
  else if 0x41 ≤ current.toNat ∧ current.toNat ≤ 0x46 then some (current.toNat - 0x37)
  else if 0x61 ≤ current.toNat ∧ current.toNat ≤ 0x66 then some (current.toNat - 0x57)
  else none

/-- `get_codepoint`, none for -1. -/
def getCodepoint : List UInt8 → Option (ℕ × List UInt8)
  | a :: b :: c :: d :: input => do
    let codepoint := (← hexValue a) * 4096 + (← hexValue b) * 256 + (← hexValue c) * 16 +
      (← hexValue d)
    return (codepoint, input)
  | _ => none

/-- `next_byte_in_range`, with the ranges in pairs. -/
def nextByteInRange : List (ℕ × ℕ) → List UInt8 → List UInt8 → Option (List UInt8 × List UInt8)
  | [], tokenBuffer, input => some (tokenBuffer, input)
  | (low, high) :: ranges, tokenBuffer, current :: input =>
    if low ≤ current.toNat ∧ current.toNat ≤ high then
      nextByteInRange ranges (tokenBuffer ++ [current]) input
    else none
  | _ :: _, _, [] => none

/-- The code point after `\u`, with the low surrogate that a high one asks for. -/
def scanUnicode (input : List UInt8) : Option (ℕ × List UInt8) := do
  let (codepoint1, input) ← getCodepoint input
  if 0xD800 ≤ codepoint1 ∧ codepoint1 ≤ 0xDBFF then
    match input with
    | 0x5C :: 0x75 :: input => do
      let (codepoint2, input) ← getCodepoint input
      if 0xDC00 ≤ codepoint2 ∧ codepoint2 ≤ 0xDFFF then
        return (codepoint1 * 1024 + codepoint2 - 0x35FDC00, input)
      else none
    | _ => none
  else if 0xDC00 ≤ codepoint1 ∧ codepoint1 ≤ 0xDFFF then none
  else return (codepoint1, input)

/-- The bytes that are added for a code point. -/
def codepointBytes (codepoint : ℕ) : List UInt8 :=
  if codepoint < 0x80 then [UInt8.ofNat codepoint]
  else if codepoint ≤ 0x7FF then
    [UInt8.ofNat (0xC0 ||| codepoint >>> 6), UInt8.ofNat (0x80 ||| codepoint &&& 0x3F)]
  else if codepoint ≤ 0xFFFF then
    [UInt8.ofNat (0xE0 ||| codepoint >>> 12), UInt8.ofNat (0x80 ||| codepoint >>> 6 &&& 0x3F),
      UInt8.ofNat (0x80 ||| codepoint &&& 0x3F)]
  else
    [UInt8.ofNat (0xF0 ||| codepoint >>> 18), UInt8.ofNat (0x80 ||| codepoint >>> 12 &&& 0x3F),
      UInt8.ofNat (0x80 ||| codepoint >>> 6 &&& 0x3F), UInt8.ofNat (0x80 ||| codepoint &&& 0x3F)]

/-- The bytes for the character after a backslash. -/
def scanEscape : List UInt8 → Option (List UInt8 × List UInt8)
  | [] => none
  | current :: input =>
    if current = 0x22 ∨ current = 0x5C ∨ current = 0x2F then some ([current], input)
    else if current = 0x62 then some ([0x08], input)
    else if current = 0x66 then some ([0x0C], input)
    else if current = 0x6E then some ([0x0A], input)
    else if current = 0x72 then some ([0x0D], input)
    else if current = 0x74 then some ([0x09], input)
    else if current = 0x75 then
      (scanUnicode input).map fun found => (codepointBytes found.1, found.2)
    else none

/-- The ranges of the bytes after the first byte of a longer sequence. -/
def rangesAfter (current : UInt8) : Option (List (ℕ × ℕ)) :=
  if 0xC2 ≤ current.toNat ∧ current.toNat ≤ 0xDF then some [(0x80, 0xBF)]
  else if current.toNat = 0xE0 then some [(0xA0, 0xBF), (0x80, 0xBF)]
  else if 0xE1 ≤ current.toNat ∧ current.toNat ≤ 0xEC ∨
      0xEE ≤ current.toNat ∧ current.toNat ≤ 0xEF then some [(0x80, 0xBF), (0x80, 0xBF)]
  else if current.toNat = 0xED then some [(0x80, 0x9F), (0x80, 0xBF)]
  else if current.toNat = 0xF0 then some [(0x90, 0xBF), (0x80, 0xBF), (0x80, 0xBF)]
  else if 0xF1 ≤ current.toNat ∧ current.toNat ≤ 0xF3 then
    some [(0x80, 0xBF), (0x80, 0xBF), (0x80, 0xBF)]
  else if current.toNat = 0xF4 then some [(0x80, 0x8F), (0x80, 0xBF), (0x80, 0xBF)]
  else none

/-- One turn of the loop of `scan_string`, on the token buffer and the input: the
buffer and the input after the closing quote, none for an error. -/
def scanStringTurn :
    List UInt8 × List UInt8 → (List UInt8 × List UInt8) ⊕ Option (List UInt8 × List UInt8)
  | (_, []) => .inr none
  | (tokenBuffer, current :: input) =>
    if current = 0x22 then .inr (some (tokenBuffer, input))
    else if current = 0x5C then
      match scanEscape input with
      | some (bytes, input) => .inl (tokenBuffer ++ bytes, input)
      | none => .inr none
    else if current.toNat ≤ 0x1F then .inr none
    else if current.toNat ≤ 0x7F then .inl (tokenBuffer ++ [current], input)
    else
      match (rangesAfter current).bind fun ranges =>
        nextByteInRange ranges (tokenBuffer ++ [current]) input with
      | some s => .inl s
      | none => .inr none

section Lengths

variable {input rest : List UInt8}

/-- Reading a code point consumes input. -/
theorem length_getCodepoint {v : ℕ} (h : getCodepoint input = some (v, rest)) :
    rest.length < input.length := by
  unfold getCodepoint at h
  split at h
  · simp only [Option.bind_eq_bind, Option.bind_eq_some_iff, Option.pure_def,
      Option.some.injEq, Prod.mk.injEq] at h
    obtain ⟨_, -, _, -, _, -, _, -, -, rfl⟩ := h
    simp only [List.length_cons]
    omega
  · cases h

/-- Reading bytes in ranges takes none back. -/
theorem length_nextByteInRange {ranges : List (ℕ × ℕ)} {tokenBuffer out : List UInt8}
    (h : nextByteInRange ranges tokenBuffer input = some (out, rest)) :
    rest.length ≤ input.length := by
  induction ranges generalizing tokenBuffer input with
  | nil =>
    simp only [nextByteInRange, Option.some.injEq, Prod.mk.injEq] at h
    rw [h.2]
  | cons range ranges ih =>
    cases input with
    | nil => cases h
    | cons current input =>
      simp only [nextByteInRange] at h
      split at h
      · have hle := ih h
        rw [List.length_cons]
        omega
      · cases h

/-- Reading an escaped code point consumes input. -/
theorem length_scanUnicode {v : ℕ} (h : scanUnicode input = some (v, rest)) :
    rest.length < input.length := by
  unfold scanUnicode at h
  cases hfirst : getCodepoint input with
  | none => simp [hfirst] at h
  | some first =>
    obtain ⟨codepoint1, input1⟩ := first
    have hless := length_getCodepoint hfirst
    simp only [hfirst, Option.bind_eq_bind, Option.bind_some] at h
    split at h
    · split at h
      · next input2 =>
        cases hsecond : getCodepoint input2 with
        | none => simp [hsecond] at h
        | some second =>
          have hless' := length_getCodepoint hsecond
          simp only [hsecond, Option.bind_some] at h
          split at h
          · simp only [Option.pure_def, Option.some.injEq, Prod.mk.injEq] at h
            simp only [List.length_cons] at hless
            rw [← h.2]
            omega
          · cases h
      · cases h
    · split at h
      · cases h
      · simp only [Option.pure_def, Option.some.injEq, Prod.mk.injEq] at h
        rw [← h.2]
        exact hless

/-- Reading an escape consumes input. -/
theorem length_scanEscape {bytes : List UInt8} (h : scanEscape input = some (bytes, rest)) :
    rest.length < input.length := by
  cases input with
  | nil => cases h
  | cons current input =>
    simp only [scanEscape] at h
    rw [List.length_cons]
    have hplain : ∀ b : UInt8, some ([b], input) = some (bytes, rest) →
        rest.length < input.length + 1 := by
      intro b hb
      obtain ⟨-, rfl⟩ := Prod.mk.inj (Option.some.inj hb)
      exact Nat.lt_succ_self _
    split_ifs at h
    rotate_right
    · obtain ⟨found, hcode, hfound⟩ := Option.map_eq_some_iff.mp h
      have hless := length_scanUnicode (hcode : _ = some (found.1, found.2))
      rw [← (Prod.mk.inj hfound).2]
      omega
    all_goals exact hplain _ h

/-- A turn that goes on consumes input. -/
theorem length_scanStringTurn {s t : List UInt8 × List UInt8} (h : scanStringTurn s = .inl t) :
    t.2.length < s.2.length := by
  obtain ⟨tokenBuffer, input⟩ := s
  cases input with
  | nil => cases h
  | cons current input =>
    simp only [scanStringTurn] at h
    rw [List.length_cons]
    split_ifs at h
    · split at h
      · next bytes rest hescape =>
        have hless := length_scanEscape hescape
        rw [← Sum.inl.inj h]
        exact hless.trans (Nat.lt_succ_self _)
      · cases h
    · rw [← Sum.inl.inj h]
      exact Nat.lt_succ_self _
    · split at h
      · next s hbind =>
        obtain ⟨ranges, -, hrange⟩ := Option.bind_eq_some_iff.mp hbind
        have hle := length_nextByteInRange (hrange : _ = some (s.1, s.2))
        rw [← Sum.inl.inj h]
        omega
      · cases h

end Lengths

/-- The loop of `scan_string`. -/
def scanStringLoop :
    Loop (List UInt8 × List UInt8) (Option (List UInt8 × List UInt8)) where
  body := scanStringTurn
  measure s := s.2.length
  decreases _ _ h := length_scanStringTurn h

/-- `scan_string`, behind the opening quote. -/
def scanString (input : List UInt8) : Token × List UInt8 :=
  match scanStringLoop.run ([], input) with
  | some (tokenBuffer, input) => (.valueString tokenBuffer, input)
  | none => (.parseError, [])

/-- The labels of `scan_number`. -/
inductive NumberState
  | minus
  | zero
  | any1
  | decimal1
  | decimal2
  | exponent
  | sign
  | any2
  deriving DecidableEq

/-- The type of a number that is scanned. -/
inductive NumberType
  | unsigned
  | integer
  | float
  deriving DecidableEq

namespace NumberState

/-- The label that a character leads to, none for those that end the number. -/
def next (state : NumberState) (current : UInt8) : Option NumberState :=
  match state with
  | minus =>
    if current = 0x30 then some zero else if IsDigit current then some any1 else none
  | zero =>
    if current = 0x2E then some decimal1
    else if current = 0x65 ∨ current = 0x45 then some exponent
    else none
  | any1 =>
    if IsDigit current then some any1
    else if current = 0x2E then some decimal1
    else if current = 0x65 ∨ current = 0x45 then some exponent
    else none
  | decimal1 => if IsDigit current then some decimal2 else none
  | decimal2 =>
    if IsDigit current then some decimal2
    else if current = 0x65 ∨ current = 0x45 then some exponent
    else none
  | exponent =>
    if current = 0x2B ∨ current = 0x2D then some sign
    else if IsDigit current then some any2
    else none
  | sign => if IsDigit current then some any2 else none
  | any2 => if IsDigit current then some any2 else none

/-- Whether the number is done when it ends at a label. -/
def done : NumberState → Bool
  | zero | any1 | decimal2 | any2 => true
  | minus | decimal1 | exponent | sign => false

/-- What a label makes of the type. -/
def retype (state : NumberState) (numberType : NumberType) : NumberType :=
  match state with
  | minus => .integer
  | decimal1 | exponent => .float
  | zero | any1 | decimal2 | sign | any2 => numberType

end NumberState

/-- The labels of `scan_number` after the first character: the type, the token
buffer, and the input from the character that ended the number. -/
def scanNumberFrom :
    NumberState → NumberType → List UInt8 → List UInt8 →
      Option (NumberType × List UInt8 × List UInt8)
  | state, numberType, tokenBuffer, [] =>
    if state.done then some (numberType, tokenBuffer, []) else none
  | state, numberType, tokenBuffer, current :: input =>
    match state.next current with
    | some next => scanNumberFrom next (next.retype numberType) (tokenBuffer ++ [current]) input
    | none => if state.done then some (numberType, tokenBuffer, current :: input) else none

/-- The digits at the start of a text, and the rest. -/
def spanDigits (text : List UInt8) : List UInt8 × List UInt8 :=
  (text.takeWhile fun b => IsDigit b, text.dropWhile fun b => IsDigit b)

/-- The exponent that a text ends with, behind the `e`. -/
def exponentOf : List UInt8 → ℤ
  | 0x2D :: digits => -decimal digits
  | 0x2B :: digits => decimal digits
  | digits => decimal digits

/-- The digits behind a point, and the rest. -/
def fractionOf : List UInt8 → List UInt8 × List UInt8
  | 0x2E :: rest => spanDigits rest
  | rest => ([], rest)

/-- The exponent behind the digits. -/
def exponentAfter : List UInt8 → ℤ
  | _ :: rest => exponentOf rest
  | [] => 0

/-- The magnitude that a number without a sign denotes. -/
def magnitude (text : List UInt8) : ℚ :=
  let (integral, rest) := spanDigits text
  let (fraction, rest) := fractionOf rest
  decimal (integral ++ fraction) * 10 ^ (exponentAfter rest - fraction.length)

section Scan

variable (d : Doubles)

/-- `std::strtod` on a number that was scanned, none when it overflows. -/
def strtod (tokenBuffer : List UInt8) : Option ℚ :=
  match tokenBuffer with
  | 0x2D :: text => (d.nearest (magnitude text)).map fun q => -q
  | text => d.nearest (magnitude text)

/-- The token of a number that was scanned: an integer where it fits into 64 bits,
else a double. -/
def numberToken (numberType : NumberType) (tokenBuffer : List UInt8) : Token :=
  match numberType with
  | .unsigned =>
    let x := decimal tokenBuffer
    if x < 2 ^ 64 then .valueUnsigned x else .valueFloat (strtod d tokenBuffer)
  | .integer =>
    let x : ℤ := -decimal tokenBuffer.tail
    if -2 ^ 63 ≤ x then .valueInteger x else .valueFloat (strtod d tokenBuffer)
  | .float => .valueFloat (strtod d tokenBuffer)

/-- `scan_number`, with the first character. -/
def scanNumber (current : UInt8) (input : List UInt8) : Token × List UInt8 :=
  let state : NumberState :=
    if current = 0x2D then .minus else if current = 0x30 then .zero else .any1
  match scanNumberFrom state (state.retype .unsigned) [current] input with
  | some (numberType, tokenBuffer, input) => (numberToken d numberType tokenBuffer, input)
  | none => (.parseError, [])

/-- `scan_literal`, behind the first character. -/
def scanLiteral (literalText : List UInt8) (returnType : Token) (input : List UInt8) :
    Token × List UInt8 :=
  if literalText.isPrefixOf input then (returnType, input.drop literalText.length)
  else (.parseError, [])

/-- A character that `skip_whitespace` skips. -/
def isWhitespace (current : UInt8) : Bool :=
  current = 0x20 || current = 0x09 || current = 0x0A || current = 0x0D

/-- What `scan` does with the first character that is no whitespace. -/
def scanFrom (current : UInt8) (input : List UInt8) : Token × List UInt8 :=
  if current = 0x5B then (.beginArray, input)
  else if current = 0x5D then (.endArray, input)
  else if current = 0x7B then (.beginObject, input)
  else if current = 0x7D then (.endObject, input)
  else if current = 0x3A then (.nameSeparator, input)
  else if current = 0x2C then (.valueSeparator, input)
  else if current = 0x74 then scanLiteral (Serializer.ascii "rue") .literalTrue input
  else if current = 0x66 then scanLiteral (Serializer.ascii "alse") .literalFalse input
  else if current = 0x6E then scanLiteral (Serializer.ascii "ull") .literalNull input
  else if current = 0x22 then scanString input
  else if current = 0x2D ∨ IsDigit current then scanNumber d current input
  else if current = 0x00 then (.endOfInput, input)
  else (.parseError, [])

/-- `scan`, after the first call. -/
def scan (input : List UInt8) : Token × List UInt8 :=
  match input.dropWhile isWhitespace with
  | [] => (.endOfInput, [])
  | current :: input => scanFrom d current input

/-- `skip_bom`, none when a byte order mark is begun and not completed. -/
def skipBom : List UInt8 → Option (List UInt8)
  | 0xEF :: 0xBB :: 0xBF :: input => some input
  | 0xEF :: _ => none
  | input => some input

/-- The first call of `scan`. -/
def scanFirst (input : List UInt8) : Token × List UInt8 :=
  match skipBom input with
  | some input => scan d input
  | none => (.parseError, [])

end Scan

section ScanLength

variable {d : Doubles} {input rest : List UInt8} {token : Token}

/-- A string is read from the front. -/
theorem length_scanStringLoop {s t : List UInt8 × List UInt8}
    (h : scanStringLoop.run s = some t) : t.2.length < s.2.length := by
  have hall := scanStringLoop.run_induction
    (P := fun s r => ∀ t, r = some t → t.2.length < s.2.length) ?_ ?_ s
  · exact hall t h
  · rintro ⟨buffer, input⟩ r hbody t rfl
    cases input with
    | nil => cases hbody
    | cons current input =>
      change scanStringTurn (buffer, current :: input) = .inr (some t) at hbody
      simp only [scanStringTurn] at hbody
      rw [List.length_cons]
      split at hbody
      · obtain rfl := Option.some.inj (Sum.inr.inj hbody)
        exact Nat.lt_succ_self _
      split at hbody
      · split at hbody <;> cases hbody
      split at hbody
      · cases hbody
      split at hbody
      · cases hbody
      · split at hbody <;> cases hbody
  · intro s s' r hbody hrest t ht
    exact (hrest t ht).trans (length_scanStringTurn hbody)

/-- A number is read from the front. -/
theorem length_scanNumberFrom {state : NumberState} {numberType t : NumberType}
    {tokenBuffer out : List UInt8}
    (h : scanNumberFrom state numberType tokenBuffer input = some (t, out, rest)) :
    rest.length ≤ input.length := by
  induction input generalizing state numberType tokenBuffer with
  | nil =>
    simp only [scanNumberFrom] at h
    split at h
    · cases h
      exact le_rfl
    · cases h
  | cons current input ih =>
    simp only [scanNumberFrom] at h
    split at h
    · have hle := ih h
      rw [List.length_cons]
      omega
    · split at h
      · cases h
        exact le_rfl
      · cases h

/-- What follows from both branches, with what is known in them, follows from the
choice. -/
theorem of_ite_of {α : Type} {P c : Prop} [Decidable c] {a b t : α}
    (h : (if c then a else b) = t) (ha : c → a = t → P) (hb : b = t → P) : P := by
  by_cases hc : c
  · exact ha hc (by rwa [if_pos hc] at h)
  · exact hb (by rwa [if_neg hc] at h)

/-- What follows from both branches follows from the choice. -/
theorem of_ite {α : Type} {P c : Prop} [Decidable c] {a b t : α} (h : (if c then a else b) = t)
    (ha : a = t → P) (hb : b = t → P) : P := of_ite_of h (fun _ => ha) hb

/-- **A token consumes input**, but for the end and for an error, which leave none. -/
theorem length_scan (h : scan d input = (token, rest)) : rest.length < input.length ∨
    rest = [] ∧ (token = .endOfInput ∨ token = .parseError) := by
  have hskip := (List.dropWhile_suffix isWhitespace (l := input)).length_le
  unfold scan at h
  split at h
  · obtain ⟨rfl, rfl⟩ := Prod.mk.inj h
    exact .inr ⟨rfl, .inl rfl⟩
  · next current input' hinput =>
    rw [hinput, List.length_cons] at hskip
    have herror : ((.parseError : Token), ([] : List UInt8)) = (token, rest) →
        rest.length < input.length ∨ rest = [] ∧ (token = .endOfInput ∨ token = .parseError) := by
      intro ht
      obtain ⟨rfl, rfl⟩ := Prod.mk.inj ht
      exact .inr ⟨rfl, .inr rfl⟩
    have hplain : ∀ t : Token, (t, input') = (token, rest) → rest.length < input.length := by
      intro t ht
      rw [← (Prod.mk.inj ht).2]
      omega
    have hliteral : ∀ (text : List UInt8) (t : Token), scanLiteral text t input' = (token, rest) →
        rest.length < input.length ∨
          rest = [] ∧ (token = .endOfInput ∨ token = .parseError) := by
      intro text t ht
      refine of_ite ht (fun ht => .inl ?_) herror
      rw [← (Prod.mk.inj ht).2, List.length_drop]
      omega
    have hnumber : scanNumber d current input' = (token, rest) → rest.length < input.length ∨
        rest = [] ∧ (token = .endOfInput ∨ token = .parseError) := by
      intro ht
      unfold scanNumber at ht
      dsimp only at ht
      split at ht
      · next t out rest' hscan =>
        have hle := length_scanNumberFrom hscan
        rw [← (Prod.mk.inj ht).2]
        omega
      · exact herror ht
    have hstring : scanString input' = (token, rest) → rest.length < input.length ∨
        rest = [] ∧ (token = .endOfInput ∨ token = .parseError) := by
      intro ht
      unfold scanString at ht
      split at ht
      · next buffer rest' hrun =>
        have hless : rest'.length < input'.length := length_scanStringLoop hrun
        rw [← (Prod.mk.inj ht).2]
        omega
      · exact herror ht
    have hleft : ∀ t : Token, (t, input') = (token, rest) → rest.length < input.length ∨
        rest = [] ∧ (token = .endOfInput ∨ token = .parseError) := fun t ht => .inl (hplain t ht)
    rw [scanFrom] at h
    refine of_ite h (hleft _) fun h => of_ite h (hleft _) fun h => of_ite h (hleft _) fun h => ?_
    refine of_ite h (hleft _) fun h => of_ite h (hleft _) fun h => of_ite h (hleft _) fun h => ?_
    refine of_ite h (hliteral _ _) fun h => of_ite h (hliteral _ _) fun h => ?_
    refine of_ite h (hliteral _ _) fun h => of_ite h hstring fun h => of_ite h hnumber fun h => ?_
    exact of_ite h (hleft _) herror

end ScanLength

end Lexer

end Prawnstar
