import Prawnstar.Json
import Prawnstar.Library.Loops
import Prawnstar.Library.Utf8
import Mathlib.Tactic.Basic

/-!
# JSON texts

`nlohmann::json::dump`, with the error handler `strict` that every caller has. A
string is checked for UTF-8 while it is escaped, by an automaton in a table; what
is not UTF-8 ends the call. The digits of a double come from Grisu2, and are put
into the format of `printf`'s `%g` here.
-/

namespace Prawnstar

open Library

/-- The conversions of doubles: the shortest digits that the library finds for a
positive one, with their decimal exponent, and the double that `strtod` rounds a
decimal magnitude to, none when it overflows. -/
structure Doubles where
  /-- `detail::dtoa_impl::grisu2` -/
  grisu2 : ℚ → List ℕ × ℤ
  /-- The double next to a magnitude. -/
  nearest : ℚ → Option ℚ

namespace Serializer

/-- The characters of an ASCII literal as bytes. -/
def ascii (literal : String) : List UInt8 := literal.toList.map Char.toUInt8

/-- `UTF8_ACCEPT` -/
def utf8Accept : ℕ := 0

/-- `UTF8_REJECT` -/
def utf8Reject : ℕ := 1

/-- The table of `decode`: the types of the bytes, and the rows of the states. -/
def utf8d : List ℕ :=
  [0, 0, 0, 0, 0, 0, 0, 0, 0, 0, 0, 0, 0, 0, 0, 0, 0, 0, 0, 0, 0, 0, 0, 0, 0, 0, 0, 0, 0, 0, 0, 0,
   0, 0, 0, 0, 0, 0, 0, 0, 0, 0, 0, 0, 0, 0, 0, 0, 0, 0, 0, 0, 0, 0, 0, 0, 0, 0, 0, 0, 0, 0, 0, 0,
   0, 0, 0, 0, 0, 0, 0, 0, 0, 0, 0, 0, 0, 0, 0, 0, 0, 0, 0, 0, 0, 0, 0, 0, 0, 0, 0, 0, 0, 0, 0, 0,
   0, 0, 0, 0, 0, 0, 0, 0, 0, 0, 0, 0, 0, 0, 0, 0, 0, 0, 0, 0, 0, 0, 0, 0, 0, 0, 0, 0, 0, 0, 0, 0,
   1, 1, 1, 1, 1, 1, 1, 1, 1, 1, 1, 1, 1, 1, 1, 1, 9, 9, 9, 9, 9, 9, 9, 9, 9, 9, 9, 9, 9, 9, 9, 9,
   7, 7, 7, 7, 7, 7, 7, 7, 7, 7, 7, 7, 7, 7, 7, 7, 7, 7, 7, 7, 7, 7, 7, 7, 7, 7, 7, 7, 7, 7, 7, 7,
   8, 8, 2, 2, 2, 2, 2, 2, 2, 2, 2, 2, 2, 2, 2, 2, 2, 2, 2, 2, 2, 2, 2, 2, 2, 2, 2, 2, 2, 2, 2, 2,
   0xA, 0x3, 0x3, 0x3, 0x3, 0x3, 0x3, 0x3, 0x3, 0x3, 0x3, 0x3, 0x3, 0x4, 0x3, 0x3,
   0xB, 0x6, 0x6, 0x6, 0x5, 0x8, 0x8, 0x8, 0x8, 0x8, 0x8, 0x8, 0x8, 0x8, 0x8, 0x8,
   0x0, 0x1, 0x2, 0x3, 0x5, 0x8, 0x7, 0x1, 0x1, 0x1, 0x4, 0x6, 0x1, 0x1, 0x1, 0x1,
   1, 1, 1, 1, 1, 1, 1, 1, 1, 1, 1, 1, 1, 1, 1, 1, 1, 0, 1, 1, 1, 1, 1, 0, 1, 0, 1, 1, 1, 1, 1, 1,
   1, 2, 1, 1, 1, 1, 1, 2, 1, 2, 1, 1, 1, 1, 1, 1, 1, 1, 1, 1, 1, 1, 1, 2, 1, 1, 1, 1, 1, 1, 1, 1,
   1, 2, 1, 1, 1, 1, 1, 1, 1, 2, 1, 1, 1, 1, 1, 1, 1, 1, 1, 1, 1, 1, 1, 3, 1, 3, 1, 1, 1, 1, 1, 1,
   1, 3, 1, 1, 1, 1, 1, 3, 1, 3, 1, 1, 1, 1, 1, 1, 1, 3, 1, 1, 1, 1, 1, 1, 1, 1, 1, 1, 1, 1, 1, 1]

/-- `decode`: the new state and the new code point. -/
def decode (state codep : ℕ) (byte : UInt8) : ℕ × ℕ :=
  let type := utf8d.getD byte.toNat 0
  let codep := if state ≠ utf8Accept then (byte.toNat &&& 0x3F) ||| (codep <<< 6) % 2 ^ 32
    else (0xFF >>> type) &&& byte.toNat
  (utf8d.getD (256 + state * 16 + type) 0, codep)

/-- A digit of `printf`'s `%x`. -/
def hexDigit (d : ℕ) : UInt8 := UInt8.ofNat (if d < 10 then 0x30 + d else 0x57 + d)

/-- `snprintf` with `\\u%04x` and a `uint16_t`. -/
def unicodeEscape (v : ℕ) : List UInt8 :=
  [0x5C, 0x75, hexDigit (v / 4096 % 16), hexDigit (v / 256 % 16), hexDigit (v / 16 % 16),
    hexDigit (v % 16)]

/-- What `dump_escaped` writes at the last byte of a code point. -/
def escapeAt (ensureAscii : Bool) (codepoint : ℕ) (byte : UInt8) : List UInt8 :=
  if codepoint = 0x08 then [0x5C, 0x62]
  else if codepoint = 0x09 then [0x5C, 0x74]
  else if codepoint = 0x0A then [0x5C, 0x6E]
  else if codepoint = 0x0C then [0x5C, 0x66]
  else if codepoint = 0x0D then [0x5C, 0x72]
  else if codepoint = 0x22 then [0x5C, 0x22]
  else if codepoint = 0x5C then [0x5C, 0x5C]
  else if codepoint ≤ 0x1F ∨ (ensureAscii ∧ 0x7F ≤ codepoint) then
    if codepoint ≤ 0xFFFF then unicodeEscape codepoint
    else unicodeEscape ((0xD7C0 + codepoint >>> 10) % 2 ^ 16) ++
      unicodeEscape ((0xDC00 + (codepoint &&& 0x3FF)) % 2 ^ 16)
  else [byte]

/-- The loop of `dump_escaped`. -/
def dumpEscapedFrom (ensureAscii : Bool) : ℕ → ℕ → List UInt8 → Except Fault (List UInt8)
  | state, _, [] => if state = utf8Accept then .ok [] else .error .typeError
  | state, codep, byte :: s =>
    let next := decode state codep byte
    if next.1 = utf8Accept then do
      let rest ← dumpEscapedFrom ensureAscii next.1 next.2 s
      return escapeAt ensureAscii next.2 byte ++ rest
    else if next.1 = utf8Reject then .error .typeError
    else do
      let rest ← dumpEscapedFrom ensureAscii next.1 next.2 s
      return (if ensureAscii then [] else [byte]) ++ rest

/-- `dump_escaped` -/
def dumpEscaped (ensureAscii : Bool) (s : List UInt8) : Except Fault (List UInt8) :=
  dumpEscapedFrom ensureAscii utf8Accept 0 s

/-- The character of a decimal digit. -/
def digit (d : ℕ) : UInt8 := UInt8.ofNat (0x30 + d)

/-- The loop of `dump_integer`, which writes two digits a turn, from the back. -/
def digitPairs : Loop (ℕ × List UInt8) (List UInt8) where
  body s :=
    if 100 ≤ s.1 then .inl (s.1 / 100, digit (s.1 % 100 / 10) :: digit (s.1 % 100 % 10) :: s.2)
    else if 10 ≤ s.1 then .inr (digit (s.1 / 10) :: digit (s.1 % 10) :: s.2)
    else .inr (digit s.1 :: s.2)
  measure s := s.1
  decreases s t h := by
    split at h
    · rw [← Sum.inl.inj h]
      exact Nat.div_lt_self (by omega) (by decide)
    · split at h <;> cases h

/-- `dump_integer` -/
def dumpInteger (x : ℤ) : List UInt8 :=
  if x = 0 then [0x30]
  else (if x < 0 then [0x2D] else []) ++ digitPairs.run (x.natAbs, [])

/-- `append_exponent` -/
def appendExponent (e : ℤ) : List UInt8 :=
  let k := e.natAbs
  (if e < 0 then [0x2D] else [0x2B]) ++
    if k < 10 then [0x30, digit k]
    else if k < 100 then [digit (k / 10), digit (k % 10)]
    else [digit (k / 100), digit (k % 100 / 10), digit (k % 100 % 10)]

/-- `format_buffer` -/
def formatBuffer (buf : List UInt8) (decimalExponent minExp maxExp : ℤ) : List UInt8 :=
  let k : ℤ := buf.length
  let n : ℤ := buf.length + decimalExponent
  if k ≤ n ∧ n ≤ maxExp then buf ++ List.replicate (n - k).toNat 0x30 ++ [0x2E, 0x30]
  else if 0 < n ∧ n ≤ maxExp then buf.take n.toNat ++ [0x2E] ++ buf.drop n.toNat
  else if minExp < n ∧ n ≤ 0 then [0x30, 0x2E] ++ List.replicate (-n).toNat 0x30 ++ buf
  else if k = 1 then buf ++ [0x65] ++ appendExponent (n - 1)
  else buf.take 1 ++ [0x2E] ++ buf.drop 1 ++ [0x65] ++ appendExponent (n - 1)

section Dump

variable (d : Doubles)

/-- `detail::to_chars`, of a finite double that is not a negative zero. -/
def toChars (value : ℚ) : List UInt8 :=
  (if value < 0 then [0x2D] else []) ++
    if value = 0 then [0x30, 0x2E, 0x30]
    else
      let found := d.grisu2 |value|
      formatBuffer (found.1.map digit) found.2 (-4) 15

/-- The start of a line when the output is printed pretty. -/
def newline (prettyPrint : Bool) (indent : ℕ) : List UInt8 :=
  if prettyPrint then 0x0A :: List.replicate indent 0x20 else []

/-- The length of `indent_string` once it was found too short for an indentation, or not. -/
def growIndentString (prettyPrint : Bool) (newIndent indentString : ℕ) : ℕ :=
  if prettyPrint ∧ indentString < newIndent then indentString * 2 else indentString

/-- A new line with the first characters of `indent_string`, which are read past its end
where it has fewer. -/
def writeNewline (prettyPrint : Bool) (indent indentString : ℕ) : Except Fault (List UInt8) :=
  if prettyPrint ∧ indentString < indent then .error .invalidRead
  else .ok (newline prettyPrint indent)

/-- What stands between a key and its value. -/
def separator (prettyPrint : Bool) : List UInt8 := if prettyPrint then [0x3A, 0x20] else [0x3A]

mutual

/-- `serializer::dump`, with the length of `indent_string` before and after. -/
def dump (prettyPrint ensureAscii : Bool) (indentStep : ℕ) :
    ℕ → Json → ℕ → Except Fault (List UInt8 × ℕ)
  | currentIndent, .object members, indentString => do
    if members.isEmpty then return (ascii "\x7b\x7d", indentString)
    let newIndent := if prettyPrint then currentIndent + indentStep else currentIndent
    let (inner, indentString) ← dumpMembers prettyPrint ensureAscii indentStep newIndent members
      (growIndentString prettyPrint newIndent indentString)
    return ([0x7B] ++ inner ++ (← writeNewline prettyPrint currentIndent indentString) ++ [0x7D],
      indentString)
  | currentIndent, .array items, indentString => do
    if items.isEmpty then return (ascii "[]", indentString)
    let newIndent := if prettyPrint then currentIndent + indentStep else currentIndent
    let (inner, indentString) ← dumpItems prettyPrint ensureAscii indentStep newIndent items
      (growIndentString prettyPrint newIndent indentString)
    return ([0x5B] ++ inner ++ (← writeNewline prettyPrint currentIndent indentString) ++ [0x5D],
      indentString)
  | _, .string s, indentString => do
    return ([0x22] ++ (← dumpEscaped ensureAscii (Utf8.encode s.toList)) ++ [0x22], indentString)
  | _, .bool b, indentString => return (ascii (if b then "true" else "false"), indentString)
  | _, .int z, indentString => return (dumpInteger z, indentString)
  | _, .uint n, indentString => return (dumpInteger n, indentString)
  | _, .float q, indentString => return (toChars d q, indentString)
  | _, .null, indentString => return (ascii "null", indentString)

/-- The members of an object, each on a line of its own. -/
def dumpMembers (prettyPrint ensureAscii : Bool) (indentStep : ℕ) :
    ℕ → List (String × Json) → ℕ → Except Fault (List UInt8 × ℕ)
  | _, [], indentString => return ([], indentString)
  | newIndent, (key, value) :: members, indentString => do
    let line ← writeNewline prettyPrint newIndent indentString
    let name ← dumpEscaped ensureAscii (Utf8.encode key.toList)
    let (first, indentString) ← dump prettyPrint ensureAscii indentStep newIndent value indentString
    let (rest, indentString) ←
      dumpMembers prettyPrint ensureAscii indentStep newIndent members indentString
    return (line ++ [0x22] ++ name ++ [0x22] ++ separator prettyPrint ++ first ++
      (if members.isEmpty then [] else [0x2C]) ++ rest, indentString)

/-- The items of an array, each on a line of its own. -/
def dumpItems (prettyPrint ensureAscii : Bool) (indentStep : ℕ) :
    ℕ → List Json → ℕ → Except Fault (List UInt8 × ℕ)
  | _, [], indentString => return ([], indentString)
  | newIndent, item :: items, indentString => do
    let line ← writeNewline prettyPrint newIndent indentString
    let (first, indentString) ← dump prettyPrint ensureAscii indentStep newIndent item indentString
    let (rest, indentString) ←
      dumpItems prettyPrint ensureAscii indentStep newIndent items indentString
    return (line ++ first ++ (if items.isEmpty then [] else [0x2C]) ++ rest, indentString)

end

/-- `nlohmann::json::dump`, whose serializer starts with 512 characters of indentation. -/
def dumpJson (indent : ℤ) (ensureAscii : Bool) (j : Json) : Except Fault (List UInt8) :=
  if 0 ≤ indent then (dump d true ensureAscii indent.toNat 0 j 512).map Prod.fst
  else (dump d false ensureAscii 0 0 j 512).map Prod.fst

end Dump

section Automaton

/-- The state after the first byte of a sequence, by ranges. -/
def afterFirst (n : ℕ) : ℕ :=
  if n ≤ 0x7F then 0
  else if 0xC2 ≤ n ∧ n ≤ 0xDF then 2
  else if n = 0xE0 then 4
  else if n = 0xED then 5
  else if 0xE1 ≤ n ∧ n ≤ 0xEF then 3
  else if n = 0xF0 then 6
  else if 0xF1 ≤ n ∧ n ≤ 0xF3 then 7
  else if n = 0xF4 then 8
  else 1

/-- The bytes that a state waits for, and the state after one of them. -/
def awaited (state : ℕ) : ℕ × ℕ × ℕ :=
  if state = 2 then (0x80, 0xBF, 0)
  else if state = 3 then (0x80, 0xBF, 2)
  else if state = 4 then (0xA0, 0xBF, 2)
  else if state = 5 then (0x80, 0x9F, 2)
  else if state = 6 then (0x90, 0xBF, 3)
  else if state = 7 then (0x80, 0xBF, 3)
  else (0x80, 0x8F, 3)

/-- The state after a later byte, by ranges. -/
def afterNext (state n : ℕ) : ℕ :=
  if (awaited state).1 ≤ n ∧ n ≤ (awaited state).2.1 then (awaited state).2.2 else 1

/-- The first bytes in the table, with what is kept of their bits. -/
theorem table_first : ∀ n < 256, utf8d.getD (256 + utf8d.getD n 0) 0 = afterFirst n ∧
    (afterFirst n = 0 → (0xFF >>> utf8d.getD n 0) &&& n = n) ∧
    (afterFirst n = 2 → (0xFF >>> utf8d.getD n 0) &&& n = n - 0xC0) ∧
    (3 ≤ afterFirst n ∧ afterFirst n ≤ 5 → (0xFF >>> utf8d.getD n 0) &&& n = n - 0xE0) ∧
    (6 ≤ afterFirst n → (0xFF >>> utf8d.getD n 0) &&& n = n - 0xF0) := by
  decide +kernel

/-- The later bytes in the table. -/
theorem table_next : ∀ state < 9, 2 ≤ state → ∀ n < 256,
    utf8d.getD (256 + state * 16 + utf8d.getD n 0) 0 = afterNext state n := by
  decide +kernel

/-- The first byte of a sequence is decoded without a look at the code point. -/
theorem decode_first (codep : ℕ) (b : UInt8) : decode utf8Accept codep b =
    (afterFirst b.toNat, (0xFF >>> utf8d.getD b.toNat 0) &&& b.toNat) := by
  have hrow := (table_first b.toNat b.toNat_lt).1
  have haccept : utf8Accept = 0 := rfl
  unfold decode
  simp only [haccept, ne_eq, not_true_eq_false, if_false, Nat.zero_mul, Nat.add_zero, hrow]

/-- A later byte that is awaited adds six bits to the code point. -/
theorem decode_next {state codep : ℕ} {b : UInt8} (hstate : 2 ≤ state ∧ state < 9)
    (hcodep : codep < 2 ^ 20) (hb : 0x80 ≤ b.toNat ∧ b.toNat ≤ 0xBF) :
    decode state codep b = (afterNext state b.toNat, codep * 64 + (b.toNat - 0x80)) := by
  have hrow := table_next state hstate.2 hstate.1 b.toNat b.toNat_lt
  have hbits : b.toNat &&& 0x3F = b.toNat - 0x80 := by
    have hmask := Nat.and_two_pow_sub_one_eq_mod b.toNat 6
    have hmod : b.toNat % 2 ^ 6 = b.toNat - 0x80 := by omega
    exact hmask.trans hmod
  have hshift : (codep <<< 6) % 2 ^ 32 = 2 ^ 6 * codep := by
    rw [Nat.shiftLeft_eq, Nat.mul_comm]
    exact Nat.mod_eq_of_lt (by omega)
  have hor : (b.toNat - 0x80) ||| 2 ^ 6 * codep = codep * 64 + (b.toNat - 0x80) := by
    rw [Nat.or_comm, ← Nat.two_pow_add_eq_or_of_lt (by omega : b.toNat - 0x80 < 2 ^ 6)]
    omega
  have haccept : state ≠ utf8Accept := by
    rintro rfl
    exact absurd hstate.1 (by decide)
  unfold decode
  simp only [if_pos haccept, hrow, hbits, hshift, hor]

variable {ensureAscii : Bool} {state codep : ℕ} {b : UInt8} {s : List UInt8}

/-- A byte that ends a code point. -/
theorem dumpEscapedFrom_of_accept {v : ℕ} (h : decode state codep b = (utf8Accept, v)) :
    dumpEscapedFrom ensureAscii state codep (b :: s) =
      (dumpEscapedFrom ensureAscii utf8Accept v s).map (escapeAt ensureAscii v b ++ ·) := by
  simp only [dumpEscapedFrom, h, if_true]
  cases dumpEscapedFrom ensureAscii utf8Accept v s <;> rfl

/-- A byte that ends the call. -/
theorem dumpEscapedFrom_of_reject (h : (decode state codep b).1 = utf8Reject) :
    dumpEscapedFrom ensureAscii state codep (b :: s) = .error .typeError := by
  have hne : utf8Reject ≠ utf8Accept := by decide
  simp only [dumpEscapedFrom, h, if_neg hne, if_true]

/-- A byte in the middle of a code point. -/
theorem dumpEscapedFrom_of_pending {t v : ℕ} (h : decode state codep b = (t, v)) (ht : 2 ≤ t) :
    dumpEscapedFrom ensureAscii state codep (b :: s) =
      (dumpEscapedFrom ensureAscii t v s).map ((if ensureAscii then [] else [b]) ++ ·) := by
  have haccept : t ≠ utf8Accept := by unfold utf8Accept; omega
  have hreject : t ≠ utf8Reject := by unfold utf8Reject; omega
  simp only [dumpEscapedFrom, h, if_neg haccept, if_neg hreject]
  cases dumpEscapedFrom ensureAscii t v s <;> rfl

/-- What is written for a code point, from its bytes. -/
def escapeSequence (ensureAscii : Bool) (v : ℕ) (bs : List UInt8) : List UInt8 :=
  (if ensureAscii then [] else bs.dropLast) ++ escapeAt ensureAscii v (bs.getLastD 0)

/-- The automaton on the first two bytes of a sequence of three. -/
theorem after_three {a b : ℕ} (ha : 0xE0 ≤ a ∧ a ≤ 0xEF) (hb : 0x80 ≤ b ∧ b ≤ 0xBF)
    (hlow : a = 0xE0 → 0xA0 ≤ b) (hsurrogate : a = 0xED → b ≤ 0x9F) :
    (3 ≤ afterFirst a ∧ afterFirst a ≤ 5) ∧ afterNext (afterFirst a) b = 2 := by
  by_cases he0 : a = 0xE0
  · subst he0
    have hawaited : 0xA0 ≤ b ∧ b ≤ 0xBF := ⟨hlow rfl, hb.2⟩
    simp [afterFirst, afterNext, awaited, hawaited]
  by_cases hed : a = 0xED
  · subst hed
    have hawaited : 0x80 ≤ b ∧ b ≤ 0x9F := ⟨hb.1, hsurrogate rfl⟩
    simp [afterFirst, afterNext, awaited, hawaited]
  · have hstate : afterFirst a = 3 := by
      unfold afterFirst
      rw [if_neg (by omega), if_neg (by omega), if_neg he0, if_neg hed, if_pos (by omega)]
    simp [hstate, afterNext, awaited, hb]

/-- The automaton on the first two bytes of a sequence of four. -/
theorem after_four {a b : ℕ} (ha : 0xF0 ≤ a ∧ a ≤ 0xF4) (hb : 0x80 ≤ b ∧ b ≤ 0xBF)
    (hlow : a = 0xF0 → 0x90 ≤ b) (hhigh : a = 0xF4 → b ≤ 0x8F) :
    (6 ≤ afterFirst a ∧ afterFirst a < 9) ∧ afterNext (afterFirst a) b = 3 := by
  by_cases hf0 : a = 0xF0
  · subst hf0
    have hawaited : 0x90 ≤ b ∧ b ≤ 0xBF := ⟨hlow rfl, hb.2⟩
    simp [afterFirst, afterNext, awaited, hawaited]
  by_cases hf4 : a = 0xF4
  · subst hf4
    have hawaited : 0x80 ≤ b ∧ b ≤ 0x8F := ⟨hb.1, hhigh rfl⟩
    simp [afterFirst, afterNext, awaited, hawaited]
  · have hstate : afterFirst a = 7 := by
      unfold afterFirst
      rw [if_neg (by omega), if_neg (by omega), if_neg (by omega), if_neg (by omega),
        if_neg (by omega), if_neg hf0, if_pos (by omega)]
    simp [hstate, afterNext, awaited, hb]

/-- A state with one byte to come, on that byte. -/
theorem afterNext_two {b : ℕ} (hb : 0x80 ≤ b ∧ b ≤ 0xBF) : afterNext 2 b = 0 := by
  simp [afterNext, awaited, hb]

/-- A state with two bytes to come, on the first of them. -/
theorem afterNext_three {b : ℕ} (hb : 0x80 ≤ b ∧ b ≤ 0xBF) : afterNext 3 b = 2 := by
  simp [afterNext, awaited, hb]

/-- **A sequence** is written as one code point. -/
theorem dumpEscapedFrom_sequence {bs : List UInt8} {v : ℕ} (h : Utf8.Sequence bs v) :
    dumpEscapedFrom ensureAscii utf8Accept codep (bs ++ s) =
      (dumpEscapedFrom ensureAscii utf8Accept v s).map (escapeSequence ensureAscii v bs ++ ·) := by
  have hmap : ∀ (r : Except Fault (List UInt8)) (xs ys : List UInt8),
      (r.map (ys ++ ·)).map (xs ++ ·) = r.map (xs ++ ys ++ ·) := by
    intro r xs ys
    cases r with
    | error f => rfl
    | ok zs => exact congrArg Except.ok (List.append_assoc xs ys zs).symm
  cases h with
  | @one a ha =>
    have hstate : afterFirst a.toNat = 0 := by rw [afterFirst, if_pos ha]
    have hbits := (table_first a.toNat a.toNat_lt).2.1 hstate
    have hdecode := decode_first codep a
    rw [hstate, hbits] at hdecode
    rw [List.singleton_append, dumpEscapedFrom_of_accept hdecode]
    cases ensureAscii <;> rfl
  | @two a b ha hb =>
    unfold Utf8.Tail at hb
    have hstate : afterFirst a.toNat = 2 := by
      unfold afterFirst; rw [if_neg (by omega), if_pos ha]
    have hbits := (table_first a.toNat a.toNat_lt).2.2.1 hstate
    have hdecode := decode_first codep a
    rw [hstate, hbits] at hdecode
    have hnext : decode 2 (a.toNat - 0xC0) b = _ := decode_next (by decide) (by omega) hb
    rw [afterNext_two hb] at hnext
    simp only [List.cons_append, List.nil_append]
    rw [dumpEscapedFrom_of_pending hdecode (by decide), dumpEscapedFrom_of_accept hnext, hmap]
    cases ensureAscii <;> rfl
  | @three a b c ha hb hc hlow hsurrogate =>
    unfold Utf8.Tail at hb hc
    obtain ⟨hstate, hmiddle⟩ := after_three ha hb hlow hsurrogate
    have hbits := (table_first a.toNat a.toNat_lt).2.2.2.1 hstate
    have hdecode := decode_first codep a
    have hnext : decode (afterFirst a.toNat) (a.toNat - 0xE0) b = _ :=
      decode_next (by omega) (by omega) hb
    have hlast : decode 2 ((a.toNat - 0xE0) * 64 + (b.toNat - 0x80)) c = _ :=
      decode_next (by decide) (by omega) hc
    have hvalue : ((a.toNat - 0xE0) * 64 + (b.toNat - 0x80)) * 64 + (c.toNat - 0x80) =
        (a.toNat - 0xE0) * 4096 + (b.toNat - 0x80) * 64 + (c.toNat - 0x80) := by omega
    rw [hbits] at hdecode
    rw [hmiddle] at hnext
    rw [afterNext_two hc, hvalue] at hlast
    simp only [List.cons_append, List.nil_append]
    rw [dumpEscapedFrom_of_pending hdecode (by omega), dumpEscapedFrom_of_pending hnext le_rfl,
      dumpEscapedFrom_of_accept hlast, hmap, hmap]
    cases ensureAscii <;> rfl
  | @four a b c d ha hb hc hd hlow hhigh =>
    unfold Utf8.Tail at hb hc hd
    obtain ⟨hstate, hmiddle⟩ := after_four ha hb hlow hhigh
    have hbits := (table_first a.toNat a.toNat_lt).2.2.2.2 hstate.1
    have hdecode := decode_first codep a
    have hnext : decode (afterFirst a.toNat) (a.toNat - 0xF0) b = _ :=
      decode_next (by omega) (by omega) hb
    have hthird : decode 3 ((a.toNat - 0xF0) * 64 + (b.toNat - 0x80)) c = _ :=
      decode_next (by decide) (by omega) hc
    have hlast : decode 2 (((a.toNat - 0xF0) * 64 + (b.toNat - 0x80)) * 64 + (c.toNat - 0x80)) d =
        _ := decode_next (by decide) (by omega) hd
    have hvalue : (((a.toNat - 0xF0) * 64 + (b.toNat - 0x80)) * 64 + (c.toNat - 0x80)) * 64 +
        (d.toNat - 0x80) = (a.toNat - 0xF0) * 262144 + (b.toNat - 0x80) * 4096 +
          (c.toNat - 0x80) * 64 + (d.toNat - 0x80) := by omega
    rw [hbits] at hdecode
    rw [hmiddle] at hnext
    rw [afterNext_three hc] at hthird
    rw [afterNext_two hd, hvalue] at hlast
    simp only [List.cons_append, List.nil_append]
    rw [dumpEscapedFrom_of_pending hdecode (by omega), dumpEscapedFrom_of_pending hnext (by decide),
      dumpEscapedFrom_of_pending hthird le_rfl, dumpEscapedFrom_of_accept hlast, hmap, hmap, hmap]
    cases ensureAscii <;> rfl

/-- What is written for a character. -/
def escape (ensureAscii : Bool) (c : Char) : List UInt8 :=
  escapeSequence ensureAscii c.toNat (String.utf8EncodeChar c)

/-- A character that is not escaped is written as it is. -/
theorem escape_of_plain {c : Char} (hcontrol : 0x1F < c.toNat) (hquote : c.toNat ≠ 0x22)
    (hbackslash : c.toNat ≠ 0x5C) (hascii : ensureAscii = true → c.toNat < 0x7F) :
    escape ensureAscii c = String.utf8EncodeChar c := by
  have hlast : ∀ b, escapeAt ensureAscii c.toNat b = [b] := by
    intro b
    unfold escapeAt
    rw [if_neg (by omega), if_neg (by omega), if_neg (by omega), if_neg (by omega),
      if_neg (by omega), if_neg hquote, if_neg hbackslash, if_neg]
    rintro (h | ⟨h, h'⟩)
    · omega
    · exact absurd (hascii h) (by omega)
  rw [escape, escapeSequence, hlast]
  cases hmode : ensureAscii with
  | true =>
    have hsmall : c.toNat ≤ 0x7F := (hascii hmode).le
    rw [Utf8.utf8EncodeChar_eq, if_pos hsmall]
    rfl
  | false =>
    have hne : String.utf8EncodeChar c ≠ [] := by
      rw [Utf8.utf8EncodeChar_eq]
      split_ifs <;> exact List.cons_ne_nil _ _
    rw [List.getLastD_eq_getLast?, List.getLast?_eq_some_getLast hne, Option.getD_some]
    exact List.dropLast_concat_getLast hne

/-- A character that is escaped is written in ASCII. -/
theorem escape_of_escaped {c : Char} (h : (c.toNat ≤ 0x1F ∨ c.toNat = 0x22 ∨ c.toNat = 0x5C) ∨
    (ensureAscii = true ∧ 0x7F ≤ c.toNat)) :
    escape ensureAscii c = escapeAt ensureAscii c.toNat 0 := by
  have hlast : ∀ b, escapeAt ensureAscii c.toNat b = escapeAt ensureAscii c.toNat 0 := by
    intro b
    unfold escapeAt
    split_ifs with h1 h2 h3 h4 h5 h6 h7 h8 h9
    any_goals rfl
    exact absurd h (by simp only [not_or] at h8 ⊢; exact ⟨⟨h8.1, h6, h7⟩, h8.2⟩)
  rw [escape, escapeSequence, hlast]
  rcases h with hsmall | ⟨rfl, -⟩
  · have hone : c.toNat ≤ 0x7F := by omega
    rw [Utf8.utf8EncodeChar_eq, if_pos hone]
    cases ensureAscii <;> rfl
  · rfl

/-- **A text** is written character by character. -/
theorem dumpEscaped_encode (cs : List Char) :
    dumpEscaped ensureAscii (Utf8.encode cs) = .ok (cs.flatMap (escape ensureAscii)) := by
  have hfrom : ∀ codep, dumpEscapedFrom ensureAscii utf8Accept codep (Utf8.encode cs) =
      .ok (cs.flatMap (escape ensureAscii)) := by
    induction cs with
    | nil => exact fun codep => rfl
    | cons c cs ih =>
      intro codep
      rw [Utf8.encode_cons, dumpEscapedFrom_sequence (Utf8.sequence_utf8EncodeChar c), ih]
      rfl
  exact hfrom 0

/-- A call that returns did not end at its first byte, and returns on the rest. -/
theorem rest_of_ok {out : List UInt8}
    (h : dumpEscapedFrom ensureAscii state codep (b :: s) = .ok out) :
    (decode state codep b).1 ≠ utf8Reject ∧ ∃ v out',
      dumpEscapedFrom ensureAscii (decode state codep b).1 v s = .ok out' := by
  have hreject : (decode state codep b).1 ≠ utf8Reject := by
    intro hreject
    rw [dumpEscapedFrom_of_reject hreject] at h
    cases h
  refine ⟨hreject, (decode state codep b).2, ?_⟩
  simp only [dumpEscapedFrom, if_neg hreject] at h
  cases hrest : dumpEscapedFrom ensureAscii (decode state codep b).1 (decode state codep b).2 s with
  | error f => rw [hrest] at h; split at h <;> cases h
  | ok out' => exact ⟨out', rfl⟩

/-- Where more bytes are awaited, a call that returns finds one of them. -/
theorem exists_of_pending {out : List UInt8} (hstate : 2 ≤ state ∧ state < 9)
    (h : dumpEscapedFrom ensureAscii state codep s = .ok out) :
    ∃ b t v out', s = b :: t ∧
      ((awaited state).1 ≤ b.toNat ∧ b.toNat ≤ (awaited state).2.1) ∧
      dumpEscapedFrom ensureAscii (awaited state).2.2 v t = .ok out' := by
  cases s with
  | nil =>
    have haccept : state ≠ utf8Accept := by unfold utf8Accept; omega
    simp [dumpEscapedFrom, haccept] at h
  | cons b t =>
    have hrow : (decode state codep b).1 = afterNext state b.toNat :=
      table_next state hstate.2 hstate.1 b.toNat b.toNat_lt
    obtain ⟨hreject, v, out', hrest⟩ := rest_of_ok h
    rw [hrow] at hreject hrest
    by_cases hin : (awaited state).1 ≤ b.toNat ∧ b.toNat ≤ (awaited state).2.1
    · rw [afterNext, if_pos hin] at hrest
      exact ⟨b, t, v, out', rfl, hin, hrest⟩
    · rw [afterNext, if_neg hin] at hreject
      exact absurd rfl hreject

/-- A call that returns found a first byte, and the rest of its sequence. -/
theorem exists_sequence {out : List UInt8} {a : UInt8}
    (h : dumpEscapedFrom ensureAscii utf8Accept codep (a :: s) = .ok out) :
    ∃ bs rest v w out', a :: s = (a :: bs) ++ rest ∧ Utf8.Sequence (a :: bs) v ∧
      dumpEscapedFrom ensureAscii utf8Accept w rest = .ok out' := by
  obtain ⟨hreject, w, out', hrest⟩ := rest_of_ok h
  rw [decode_first] at hreject hrest
  dsimp only at hreject hrest
  by_cases hone : a.toNat ≤ 0x7F
  · rw [afterFirst, if_pos hone] at hrest
    exact ⟨[], s, _, w, out', rfl, .one hone, hrest⟩
  by_cases htwo : 0xC2 ≤ a.toNat ∧ a.toNat ≤ 0xDF
  · rw [afterFirst, if_neg hone, if_pos htwo] at hrest
    obtain ⟨b, t, w, out', rfl, hb, hrest⟩ := exists_of_pending (by decide) hrest
    exact ⟨[b], t, _, w, out', rfl, .two htwo hb, hrest⟩
  by_cases hthree : 0xE0 ≤ a.toNat ∧ a.toNat ≤ 0xEF
  · have hafter : ((a.toNat = 0xE0 ∧ afterFirst a.toNat = 4) ∨
        (a.toNat = 0xED ∧ afterFirst a.toNat = 5)) ∨
          (a.toNat ≠ 0xE0 ∧ a.toNat ≠ 0xED) ∧ afterFirst a.toNat = 3 := by
      unfold afterFirst
      grind
    have hstate : 2 ≤ afterFirst a.toNat ∧ afterFirst a.toNat < 9 := by omega
    obtain ⟨b, t, w, out', rfl, hb, hrest⟩ := exists_of_pending hstate hrest
    have hbytes : (awaited (afterFirst a.toNat)).2.2 = 2 ∧ Utf8.Tail b ∧
        (a.toNat = 0xE0 → 0xA0 ≤ b.toNat) ∧ (a.toNat = 0xED → b.toNat ≤ 0x9F) := by
      unfold Utf8.Tail
      rcases hafter with (⟨ha, hrow⟩ | ⟨ha, hrow⟩) | ⟨ha, hrow⟩ <;>
        (rw [hrow] at hb ⊢; simp only [awaited] at hb ⊢; norm_num at hb ⊢; omega)
    obtain ⟨hlater, htail, hlow, hsurrogate⟩ := hbytes
    rw [hlater] at hrest
    obtain ⟨c, t, w, out', rfl, hc, hrest⟩ := exists_of_pending (by decide) hrest
    exact ⟨[b, c], t, _, w, out', rfl, .three hthree htail hc hlow hsurrogate, hrest⟩
  by_cases hfour : 0xF0 ≤ a.toNat ∧ a.toNat ≤ 0xF4
  · have hafter : ((a.toNat = 0xF0 ∧ afterFirst a.toNat = 6) ∨
        (a.toNat = 0xF4 ∧ afterFirst a.toNat = 8)) ∨
          (a.toNat ≠ 0xF0 ∧ a.toNat ≠ 0xF4) ∧ afterFirst a.toNat = 7 := by
      unfold afterFirst
      grind
    have hstate : 2 ≤ afterFirst a.toNat ∧ afterFirst a.toNat < 9 := by omega
    obtain ⟨b, t, w, out', rfl, hb, hrest⟩ := exists_of_pending hstate hrest
    have hbytes : (awaited (afterFirst a.toNat)).2.2 = 3 ∧ Utf8.Tail b ∧
        (a.toNat = 0xF0 → 0x90 ≤ b.toNat) ∧ (a.toNat = 0xF4 → b.toNat ≤ 0x8F) := by
      unfold Utf8.Tail
      rcases hafter with (⟨ha, hrow⟩ | ⟨ha, hrow⟩) | ⟨ha, hrow⟩ <;>
        (rw [hrow] at hb ⊢; simp only [awaited] at hb ⊢; norm_num at hb ⊢; omega)
    obtain ⟨hlater, htail, hlow, hhigh⟩ := hbytes
    rw [hlater] at hrest
    obtain ⟨c, t, w, out', rfl, hc, hrest⟩ := exists_of_pending (by decide) hrest
    obtain ⟨d, t, w, out', rfl, hd, hrest⟩ := exists_of_pending (by decide) hrest
    exact ⟨[b, c, d], t, _, w, out', rfl, .four hfour htail hc hd hlow hhigh, hrest⟩
  · have hnone : afterFirst a.toNat = utf8Reject := by
      unfold afterFirst utf8Reject
      grind
    exact absurd hnone hreject

/-- **A call that returns** got the bytes of a text. -/
theorem exists_of_dumpEscapedFrom {out : List UInt8}
    (h : dumpEscapedFrom ensureAscii utf8Accept codep s = .ok out) :
    ∃ cs, s = Utf8.encode cs := by
  induction hlength : s.length using Nat.strong_induction_on generalizing s codep out with
  | _ n ih =>
    cases s with
    | nil => exact ⟨[], rfl⟩
    | cons a t =>
      obtain ⟨bs, rest, v, w, out', hsplit, hseq, hrest⟩ := exists_sequence h
      obtain ⟨c, hc, -⟩ := Utf8.sequence_iff.mp hseq
      have hshorter : rest.length < n := by
        rw [← hlength, hsplit, List.length_append, List.length_cons]
        omega
      obtain ⟨cs, rfl⟩ := ih rest.length hshorter hrest rfl
      exact ⟨c :: cs, by rw [hsplit, Utf8.encode_cons, hc]⟩

/-- **`dump_escaped` returns** exactly on the bytes of texts. -/
theorem dumpEscaped_ok_iff :
    (∃ out, dumpEscaped ensureAscii s = .ok out) ↔ ∃ cs, s = Utf8.encode cs := by
  constructor
  · rintro ⟨out, h⟩
    exact exists_of_dumpEscapedFrom h
  · rintro ⟨cs, rfl⟩
    exact ⟨_, dumpEscaped_encode cs⟩

end Automaton

section Texts

/-- The text of a string between its quotes. -/
def escaped (ensureAscii : Bool) (s : String) : List UInt8 := s.toList.flatMap (escape ensureAscii)

variable (d : Doubles) (prettyPrint ensureAscii : Bool) (indentStep : ℕ)

mutual

/-- The text of a value, on lines that start with as many spaces as they should. -/
def text : ℕ → Json → List UInt8
  | currentIndent, .object members =>
    if members.isEmpty then ascii "\x7b\x7d"
    else [0x7B] ++ textMembers (if prettyPrint then currentIndent + indentStep else currentIndent)
      members ++ newline prettyPrint currentIndent ++ [0x7D]
  | currentIndent, .array items =>
    if items.isEmpty then ascii "[]"
    else [0x5B] ++ textItems (if prettyPrint then currentIndent + indentStep else currentIndent)
      items ++ newline prettyPrint currentIndent ++ [0x5D]
  | _, .string s => [0x22] ++ escaped ensureAscii s ++ [0x22]
  | _, .bool b => ascii (if b then "true" else "false")
  | _, .int z => dumpInteger z
  | _, .uint n => dumpInteger n
  | _, .float q => toChars d q
  | _, .null => ascii "null"

/-- The text of members, without the braces. -/
def textMembers : ℕ → List (String × Json) → List UInt8
  | _, [] => []
  | newIndent, (key, value) :: members =>
    newline prettyPrint newIndent ++ [0x22] ++ escaped ensureAscii key ++ [0x22] ++
      separator prettyPrint ++ text newIndent value ++ (if members.isEmpty then [] else [0x2C]) ++
        textMembers newIndent members

/-- The text of items, without the brackets. -/
def textItems : ℕ → List Json → List UInt8
  | _, [] => []
  | newIndent, item :: items =>
    newline prettyPrint newIndent ++ text newIndent item ++
      (if items.isEmpty then [] else [0x2C]) ++ textItems newIndent items

end

variable {d prettyPrint ensureAscii indentStep}

/-- The text of an object with members. -/
theorem text_object (currentIndent : ℕ) (m : String × Json) (members : List (String × Json)) :
    text d prettyPrint ensureAscii indentStep currentIndent (.object (m :: members)) =
      [0x7B] ++ textMembers d prettyPrint ensureAscii indentStep
        (if prettyPrint then currentIndent + indentStep else currentIndent) (m :: members) ++
          newline prettyPrint currentIndent ++ [0x7D] := rfl

/-- The text of an array with items. -/
theorem text_array (currentIndent : ℕ) (item : Json) (items : List Json) :
    text d prettyPrint ensureAscii indentStep currentIndent (.array (item :: items)) =
      [0x5B] ++ textItems d prettyPrint ensureAscii indentStep
        (if prettyPrint then currentIndent + indentStep else currentIndent) (item :: items) ++
          newline prettyPrint currentIndent ++ [0x5D] := rfl

/-- The text of a string. -/
theorem text_string (currentIndent : ℕ) (s : String) :
    text d prettyPrint ensureAscii indentStep currentIndent (.string s) =
      [0x22] ++ escaped ensureAscii s ++ [0x22] := rfl

/-- The text of a member, and of those after it. -/
theorem textMembers_cons (newIndent : ℕ) (key : String) (value : Json)
    (members : List (String × Json)) :
    textMembers d prettyPrint ensureAscii indentStep newIndent ((key, value) :: members) =
      newline prettyPrint newIndent ++ [0x22] ++ escaped ensureAscii key ++ [0x22] ++
        separator prettyPrint ++ text d prettyPrint ensureAscii indentStep newIndent value ++
          (if members.isEmpty then [] else [0x2C]) ++
            textMembers d prettyPrint ensureAscii indentStep newIndent members := rfl

/-- The text of an item, and of those after it. -/
theorem textItems_cons (newIndent : ℕ) (item : Json) (items : List Json) :
    textItems d prettyPrint ensureAscii indentStep newIndent (item :: items) =
      newline prettyPrint newIndent ++ text d prettyPrint ensureAscii indentStep newIndent item ++
        (if items.isEmpty then [] else [0x2C]) ++
          textItems d prettyPrint ensureAscii indentStep newIndent items := rfl

/-- `indent_string` is long enough for an indentation, and once doubled for the next one:
an indentation is at least one step, and the first one fits when it is doubled. -/
def Ample (prettyPrint : Bool) (indentStep indent indentString : ℕ) : Prop :=
  prettyPrint = true → indentStep ≤ 1024 ∧ 512 ≤ indentString ∧ indent ≤ indentString ∧
    (indent = 0 ∨ indentStep ≤ indent)

/-- A longer one is long enough. -/
theorem Ample.mono {indent size size' : ℕ} (h : Ample prettyPrint indentStep indent size)
    (hle : size ≤ size') : Ample prettyPrint indentStep indent size' := by
  intro hpretty
  obtain ⟨hstep, hfirst, hfits, hdepth⟩ := h hpretty
  exact ⟨hstep, by omega, by omega, hdepth⟩

/-- What it is written with is the text. -/
theorem Ample.writeNewline {indent size : ℕ} (h : Ample prettyPrint indentStep indent size) :
    writeNewline prettyPrint indent size = .ok (newline prettyPrint indent) := by
  refine if_neg fun ⟨hpretty, hshort⟩ => ?_
  have hfits := (h hpretty).2.2.1
  omega

/-- `indent_string` only grows. -/
theorem le_growIndentString (newIndent size : ℕ) :
    size ≤ growIndentString prettyPrint newIndent size := by
  unfold growIndentString
  split <;> omega

/-- **It grows enough** for the next indentation. -/
theorem Ample.grow {indent size : ℕ} (h : Ample prettyPrint indentStep indent size) :
    Ample prettyPrint indentStep (if prettyPrint then indent + indentStep else indent)
      (growIndentString prettyPrint (if prettyPrint then indent + indentStep else indent)
        size) := by
  intro hpretty
  obtain ⟨hstep, hfirst, hfits, hdepth⟩ := h hpretty
  subst hpretty
  simp only [growIndentString, if_true, true_and]
  split <;> omega

mutual

/-- **What `dump` writes** is the text, as long as `indent_string` is long enough. -/
theorem dump_of_ample : ∀ (currentIndent : ℕ) (j : Json) (size : ℕ),
    Ample prettyPrint indentStep currentIndent size → ∃ size', size ≤ size' ∧
      dump d prettyPrint ensureAscii indentStep currentIndent j size =
        .ok (text d prettyPrint ensureAscii indentStep currentIndent j, size')
  | currentIndent, .object [], size, _ => ⟨size, le_rfl, rfl⟩
  | currentIndent, .object (m :: members), size, h => by
    obtain ⟨size', hle, hmembers⟩ := dumpMembers_of_ample _ (m :: members) _ h.grow
    have hgrown := (le_growIndentString _ size).trans hle
    refine ⟨size', hgrown, ?_⟩
    simp only [dump, hmembers, List.isEmpty_cons, Bool.false_eq_true, if_false, bind, Except.bind,
      (h.mono hgrown).writeNewline]
    rfl
  | currentIndent, .array [], size, _ => ⟨size, le_rfl, rfl⟩
  | currentIndent, .array (item :: items), size, h => by
    obtain ⟨size', hle, hitems⟩ := dumpItems_of_ample _ (item :: items) _ h.grow
    have hgrown := (le_growIndentString _ size).trans hle
    refine ⟨size', hgrown, ?_⟩
    simp only [dump, hitems, List.isEmpty_cons, Bool.false_eq_true, if_false, bind, Except.bind,
      (h.mono hgrown).writeNewline]
    rfl
  | _, .string s, size, _ => by
    refine ⟨size, le_rfl, ?_⟩
    simp only [dump, dumpEscaped_encode]
    rfl
  | _, .bool b, size, _ => ⟨size, le_rfl, rfl⟩
  | _, .int z, size, _ => ⟨size, le_rfl, rfl⟩
  | _, .uint n, size, _ => ⟨size, le_rfl, rfl⟩
  | _, .float q, size, _ => ⟨size, le_rfl, rfl⟩
  | _, .null, size, _ => ⟨size, le_rfl, rfl⟩

/-- Members are written as their text. -/
theorem dumpMembers_of_ample : ∀ (newIndent : ℕ) (members : List (String × Json)) (size : ℕ),
    Ample prettyPrint indentStep newIndent size → ∃ size', size ≤ size' ∧
      dumpMembers d prettyPrint ensureAscii indentStep newIndent members size =
        .ok (textMembers d prettyPrint ensureAscii indentStep newIndent members, size')
  | _, [], size, _ => ⟨size, le_rfl, rfl⟩
  | newIndent, (key, value) :: members, size, h => by
    obtain ⟨size', hle, hvalue⟩ := dump_of_ample newIndent value size h
    obtain ⟨size'', hle', hrest⟩ := dumpMembers_of_ample newIndent members size' (h.mono hle)
    refine ⟨size'', hle.trans hle', ?_⟩
    simp only [dumpMembers, h.writeNewline, dumpEscaped_encode, hvalue, hrest, bind, Except.bind]
    rfl

/-- Items are written as their text. -/
theorem dumpItems_of_ample : ∀ (newIndent : ℕ) (items : List Json) (size : ℕ),
    Ample prettyPrint indentStep newIndent size → ∃ size', size ≤ size' ∧
      dumpItems d prettyPrint ensureAscii indentStep newIndent items size =
        .ok (textItems d prettyPrint ensureAscii indentStep newIndent items, size')
  | _, [], size, _ => ⟨size, le_rfl, rfl⟩
  | newIndent, item :: items, size, h => by
    obtain ⟨size', hle, hitem⟩ := dump_of_ample newIndent item size h
    obtain ⟨size'', hle', hrest⟩ := dumpItems_of_ample newIndent items size' (h.mono hle)
    refine ⟨size'', hle.trans hle', ?_⟩
    simp only [dumpItems, h.writeNewline, hitem, hrest, bind, Except.bind]
    rfl

end

/-- **Every value is written** as its text, with an indentation up to 1024. -/
theorem dumpJson_ok {indent : ℤ} (hindent : indent ≤ 1024) (j : Json) :
    dumpJson d indent ensureAscii j = .ok (text d (0 ≤ indent) ensureAscii indent.toNat 0 j) := by
  unfold dumpJson
  by_cases hpretty : 0 ≤ indent
  · have hample : Ample true indent.toNat 0 512 :=
      fun _ => ⟨by omega, le_rfl, by omega, Or.inl rfl⟩
    have hwritten : ∃ size, 512 ≤ size ∧ dump d true ensureAscii indent.toNat 0 j 512 =
        .ok (text d true ensureAscii indent.toNat 0 j, size) := dump_of_ample 0 j 512 hample
    obtain ⟨size, -, hdump⟩ := hwritten
    rw [if_pos hpretty, hdump, decide_eq_true hpretty]
    rfl
  · have hample : Ample false 0 0 512 := fun h => by cases h
    have hwritten : ∃ size, 512 ≤ size ∧ dump d false ensureAscii 0 0 j 512 =
        .ok (text d false ensureAscii 0 0 j, size) := dump_of_ample 0 j 512 hample
    obtain ⟨size, -, hdump⟩ := hwritten
    rw [if_neg hpretty, hdump, decide_eq_false hpretty, Int.toNat_eq_zero.mpr (by omega)]
    rfl

end Texts

end Serializer

end Prawnstar
