import Prawnstar.Lexer

/-!
# What is written is scanned

The pieces of a text that the serializer writes, as the lexer scans them: a string
with its escapes gives the bytes of the string, a number its value, and both end
where they were written to.
-/

namespace Prawnstar

open Library Serializer

namespace Lexer

section Strings

variable {ensureAscii : Bool} {c : Char} {input buffer : List UInt8}

/-- A mark before the bits that fit behind it. -/
theorem or_mark (i mark : ℕ) {v : ℕ} (hv : v < 2 ^ i) : 2 ^ i * mark ||| v = v + 2 ^ i * mark := by
  rw [← Nat.two_pow_add_eq_or_of_lt hv, Nat.add_comm]

/-- Six bits behind the mark of a continuation byte. -/
theorem or_tail (v : ℕ) : 0x80 ||| v &&& 0x3F = v % 64 + 0x80 := by
  have hmask : v &&& 0x3F = v % 64 := Nat.and_two_pow_sub_one_eq_mod v 6
  have hor : 0x80 ||| v % 64 = v % 64 + 0x80 :=
    or_mark 6 2 (Nat.mod_lt v (by decide))
  rw [hmask, hor]

/-- **The bytes that are added** for a character are its encoding. -/
theorem codepointBytes_toNat (c : Char) : codepointBytes c.toNat = String.utf8EncodeChar c := by
  have hrange := Utf8.toNat_range c
  rw [Utf8.utf8EncodeChar_eq, codepointBytes]
  generalize c.toNat = v at hrange ⊢
  simp only [or_tail, Nat.shiftRight_eq_div_pow]
  by_cases hone : v ≤ 0x7F
  · rw [if_pos (by omega), if_pos hone]
  by_cases htwo : v ≤ 0x7FF
  · have hlead : 0xC0 ||| v / 2 ^ 6 = v / 64 % 32 + 0xC0 := by
      have hor : 0xC0 ||| v / 2 ^ 6 = v / 2 ^ 6 + 0xC0 :=
        or_mark 6 3 (by omega)
      omega
    rw [if_neg (by omega), if_pos htwo, if_neg hone, if_pos htwo, hlead]
  by_cases hthree : v ≤ 0xFFFF
  · have hlead : 0xE0 ||| v / 2 ^ 12 = v / 4096 % 16 + 0xE0 := by
      have hor : 0xE0 ||| v / 2 ^ 12 = v / 2 ^ 12 + 0xE0 :=
        or_mark 5 7 (by omega)
      omega
    rw [if_neg (by omega), if_neg htwo, if_pos hthree, if_neg hone, if_neg htwo, if_pos hthree,
      hlead]
  · have hlead : 0xF0 ||| v / 2 ^ 18 = v / 262144 % 8 + 0xF0 := by
      have hor : 0xF0 ||| v / 2 ^ 18 = v / 2 ^ 18 + 0xF0 :=
        or_mark 4 15 (by omega)
      omega
    rw [if_neg (by omega), if_neg htwo, if_neg hthree, if_neg hone, if_neg htwo, if_neg hthree,
      hlead]

/-- A digit of `%x` is a hex digit of its value. -/
theorem hexValue_hexDigit {v : ℕ} (hv : v < 16) : hexValue (hexDigit v) = some v := by
  have hall : ∀ v < 16, hexValue (hexDigit v) = some v := by decide
  exact hall v hv

/-- Four digits of `%x` are read as their value. -/
theorem getCodepoint_hex {v : ℕ} (hv : v ≤ 0xFFFF) : getCodepoint
    (hexDigit (v / 4096 % 16) :: hexDigit (v / 256 % 16) :: hexDigit (v / 16 % 16) ::
      hexDigit (v % 16) :: input) = some (v, input) := by
  have hvalue : v / 4096 % 16 * 4096 + v / 256 % 16 * 256 + v / 16 % 16 * 16 + v % 16 = v := by
    omega
  have hdigit : ∀ n, hexValue (hexDigit (n % 16)) = some (n % 16) :=
    fun n => hexValue_hexDigit (Nat.mod_lt n (by decide))
  simp [getCodepoint, hdigit, hvalue]

/-- An escape that names a code point. -/
theorem scanEscape_u (input : List UInt8) : scanEscape (0x75 :: input) =
    (scanUnicode input).map fun found => (codepointBytes found.1, found.2) := rfl

/-- The escape of a character below the surrogates or above them, in one unit. -/
theorem scanEscape_unicode (hc : c.toNat ≤ 0xFFFF) :
    scanEscape (unicodeEscape c.toNat ++ input).tail =
      some (String.utf8EncodeChar c, input) := by
  have hrange := Utf8.toNat_range c
  have hscan : scanUnicode (hexDigit (c.toNat / 4096 % 16) :: hexDigit (c.toNat / 256 % 16) ::
      hexDigit (c.toNat / 16 % 16) :: hexDigit (c.toNat % 16) :: input) =
        some (c.toNat, input) := by
    unfold scanUnicode
    rw [getCodepoint_hex hc]
    simp only [Option.bind_eq_bind, Option.bind_some]
    rw [if_neg (by omega), if_neg (by omega)]
    rfl
  have hescape : scanEscape (0x75 :: hexDigit (c.toNat / 4096 % 16) ::
      hexDigit (c.toNat / 256 % 16) :: hexDigit (c.toNat / 16 % 16) :: hexDigit (c.toNat % 16) ::
        input) = some (codepointBytes c.toNat, input) := by
    rw [scanEscape_u, hscan]
    rfl
  rw [codepointBytes_toNat] at hescape
  exact hescape

/-- The escape of a character above them, in two units. -/
theorem scanEscape_surrogates (hc : 0xFFFF < c.toNat) :
    scanEscape (unicodeEscape ((0xD7C0 + c.toNat >>> 10) % 2 ^ 16) ++
      unicodeEscape ((0xDC00 + (c.toNat &&& 0x3FF)) % 2 ^ 16) ++ input).tail =
        some (String.utf8EncodeChar c, input) := by
  have hrange := Utf8.toNat_range c
  have hshift : c.toNat >>> 10 = c.toNat / 2 ^ 10 := Nat.shiftRight_eq_div_pow _ _
  have hmask : c.toNat &&& 0x3FF = c.toNat % 2 ^ 10 := Nat.and_two_pow_sub_one_eq_mod _ 10
  have hhigh : (0xD7C0 + c.toNat >>> 10) % 2 ^ 16 = 0xD7C0 + c.toNat / 2 ^ 10 := by omega
  have hlow : (0xDC00 + (c.toNat &&& 0x3FF)) % 2 ^ 16 = 0xDC00 + c.toNat % 2 ^ 10 := by omega
  rw [hhigh, hlow]
  generalize hh : 0xD7C0 + c.toNat / 2 ^ 10 = high
  generalize hl : 0xDC00 + c.toNat % 2 ^ 10 = low
  have hvalue : high * 1024 + low - 0x35FDC00 = c.toNat := by omega
  have hscan : scanUnicode (hexDigit (high / 4096 % 16) :: hexDigit (high / 256 % 16) ::
      hexDigit (high / 16 % 16) :: hexDigit (high % 16) :: 0x5C :: 0x75 ::
        hexDigit (low / 4096 % 16) :: hexDigit (low / 256 % 16) :: hexDigit (low / 16 % 16) ::
          hexDigit (low % 16) :: input) = some (c.toNat, input) := by
    unfold scanUnicode
    rw [getCodepoint_hex (by omega)]
    simp only [Option.bind_eq_bind, Option.bind_some]
    rw [if_pos (by omega), getCodepoint_hex (by omega)]
    simp only [Option.bind_some]
    rw [if_pos (by omega), hvalue]
    rfl
  have hescape : scanEscape (0x75 :: hexDigit (high / 4096 % 16) :: hexDigit (high / 256 % 16) ::
      hexDigit (high / 16 % 16) :: hexDigit (high % 16) :: 0x5C :: 0x75 ::
        hexDigit (low / 4096 % 16) :: hexDigit (low / 256 % 16) :: hexDigit (low / 16 % 16) ::
          hexDigit (low % 16) :: input) = some (codepointBytes c.toNat, input) := by
    rw [scanEscape_u, hscan]
    rfl
  rw [codepointBytes_toNat] at hescape
  exact hescape

/-- A turn on an escape. -/
theorem run_escape {bytes rest : List UInt8} (h : scanEscape input = some (bytes, rest)) :
    scanStringLoop.run (buffer, 0x5C :: input) = scanStringLoop.run (buffer ++ bytes, rest) := by
  apply Loop.run_of_inl
  change scanStringTurn (buffer, 0x5C :: input) = _
  simp only [scanStringTurn, h]
  rfl

/-- **An escaped character** is scanned as its bytes. -/
theorem run_escapeAt (h : (c.toNat ≤ 0x1F ∨ c.toNat = 0x22 ∨ c.toNat = 0x5C) ∨
    (ensureAscii = true ∧ 0x7F ≤ c.toNat)) :
    scanStringLoop.run (buffer, escapeAt ensureAscii c.toNat 0 ++ input) =
      scanStringLoop.run (buffer ++ String.utf8EncodeChar c, input) := by
  -- The characters with an escape of two bytes.
  have hshort : ∀ (v : ℕ) (x : UInt8), c.toNat = v → v ≤ 0x7F →
      scanEscape (x :: input) = some ([UInt8.ofNat v], input) →
        scanStringLoop.run (buffer, [0x5C, x] ++ input) =
          scanStringLoop.run (buffer ++ String.utf8EncodeChar c, input) := by
    intro v x hv hsmall hscan
    rw [Utf8.utf8EncodeChar_eq, hv, if_pos hsmall]
    exact run_escape hscan
  unfold escapeAt
  by_cases h08 : c.toNat = 0x08
  · rw [if_pos h08]
    exact hshort 0x08 0x62 h08 (by decide) rfl
  by_cases h09 : c.toNat = 0x09
  · rw [if_neg h08, if_pos h09]
    exact hshort 0x09 0x74 h09 (by decide) rfl
  by_cases h0a : c.toNat = 0x0A
  · rw [if_neg h08, if_neg h09, if_pos h0a]
    exact hshort 0x0A 0x6E h0a (by decide) rfl
  by_cases h0c : c.toNat = 0x0C
  · rw [if_neg h08, if_neg h09, if_neg h0a, if_pos h0c]
    exact hshort 0x0C 0x66 h0c (by decide) rfl
  by_cases h0d : c.toNat = 0x0D
  · rw [if_neg h08, if_neg h09, if_neg h0a, if_neg h0c, if_pos h0d]
    exact hshort 0x0D 0x72 h0d (by decide) rfl
  by_cases h22 : c.toNat = 0x22
  · rw [if_neg h08, if_neg h09, if_neg h0a, if_neg h0c, if_neg h0d, if_pos h22]
    exact hshort 0x22 0x22 h22 (by decide) rfl
  by_cases h5c : c.toNat = 0x5C
  · rw [if_neg h08, if_neg h09, if_neg h0a, if_neg h0c, if_neg h0d, if_neg h22, if_pos h5c]
    exact hshort 0x5C 0x5C h5c (by decide) rfl
  have hunicode : c.toNat ≤ 0x1F ∨ (ensureAscii ∧ 0x7F ≤ c.toNat) := by
    rcases h with hsmall | hascii
    · omega
    · exact .inr hascii
  rw [if_neg h08, if_neg h09, if_neg h0a, if_neg h0c, if_neg h0d, if_neg h22, if_neg h5c,
    if_pos hunicode]
  by_cases hunit : c.toNat ≤ 0xFFFF
  · rw [if_pos hunit]
    exact run_escape (scanEscape_unicode hunit)
  · rw [if_neg hunit]
    exact run_escape (scanEscape_surrogates (by omega))

/-- The ranges after the first byte of a sequence of three. -/
theorem rangesAfter_three {a b : UInt8} (ha : 0xE0 ≤ a.toNat ∧ a.toNat ≤ 0xEF)
    (hb : 0x80 ≤ b.toNat ∧ b.toNat ≤ 0xBF) (hlow : a.toNat = 0xE0 → 0xA0 ≤ b.toNat)
    (hsurrogate : a.toNat = 0xED → b.toNat ≤ 0x9F) : ∃ low high,
      rangesAfter a = some [(low, high), (0x80, 0xBF)] ∧ low ≤ b.toNat ∧ b.toNat ≤ high := by
  unfold rangesAfter
  by_cases he0 : a.toNat = 0xE0
  · rw [if_neg (by omega), if_pos he0]
    exact ⟨0xA0, 0xBF, rfl, hlow he0, hb.2⟩
  by_cases hed : a.toNat = 0xED
  · rw [if_neg (by omega), if_neg he0, if_neg (by omega), if_pos hed]
    exact ⟨0x80, 0x9F, rfl, hb.1, hsurrogate hed⟩
  · rw [if_neg (by omega), if_neg he0, if_pos (by omega)]
    exact ⟨0x80, 0xBF, rfl, hb⟩

/-- The ranges after the first byte of a sequence of four. -/
theorem rangesAfter_four {a b : UInt8} (ha : 0xF0 ≤ a.toNat ∧ a.toNat ≤ 0xF4)
    (hb : 0x80 ≤ b.toNat ∧ b.toNat ≤ 0xBF) (hlow : a.toNat = 0xF0 → 0x90 ≤ b.toNat)
    (hhigh : a.toNat = 0xF4 → b.toNat ≤ 0x8F) : ∃ low high,
      rangesAfter a = some [(low, high), (0x80, 0xBF), (0x80, 0xBF)] ∧
        low ≤ b.toNat ∧ b.toNat ≤ high := by
  unfold rangesAfter
  rw [if_neg (by omega), if_neg (by omega), if_neg (by omega), if_neg (by omega)]
  by_cases hf0 : a.toNat = 0xF0
  · rw [if_pos hf0]
    exact ⟨0x90, 0xBF, rfl, hlow hf0, hb.2⟩
  by_cases hf4 : a.toNat = 0xF4
  · rw [if_neg hf0, if_neg (by omega), if_pos hf4]
    exact ⟨0x80, 0x8F, rfl, hb.1, hhigh hf4⟩
  · rw [if_neg hf0, if_pos (by omega)]
    exact ⟨0x80, 0xBF, rfl, hb⟩

/-- **A plain character** is scanned as its bytes. -/
theorem run_plain (hcontrol : 0x1F < c.toNat) (hquote : c.toNat ≠ 0x22)
    (hbackslash : c.toNat ≠ 0x5C) :
    scanStringLoop.run (buffer, String.utf8EncodeChar c ++ input) =
      scanStringLoop.run (buffer ++ String.utf8EncodeChar c, input) := by
  have hseq := Utf8.sequence_utf8EncodeChar c
  generalize String.utf8EncodeChar c = bs at hseq ⊢
  generalize c.toNat = v at hseq hcontrol hquote hbackslash
  -- A first byte that is not ASCII is neither a quote nor a backslash.
  have hlead : ∀ (a : UInt8) (bs : List UInt8) (ranges : List (ℕ × ℕ)), 0x80 ≤ a.toNat →
      rangesAfter a = some ranges →
        nextByteInRange ranges (buffer ++ [a]) (bs ++ input) = some (buffer ++ a :: bs, input) →
          scanStringLoop.run (buffer, a :: bs ++ input) =
            scanStringLoop.run (buffer ++ a :: bs, input) := by
    intro a bs ranges ha hranges hnext
    apply Loop.run_of_inl
    change scanStringTurn (buffer, a :: (bs ++ input)) = _
    have hnot22 : a ≠ 0x22 := by rintro rfl; exact absurd ha (by decide)
    have hnot5c : a ≠ 0x5C := by rintro rfl; exact absurd ha (by decide)
    simp only [scanStringTurn, if_neg hnot22, if_neg hnot5c, hranges, Option.bind_some, hnext]
    rw [if_neg (by omega), if_neg (by omega)]
  cases hseq with
  | @one a ha =>
    have hnot22 : a ≠ 0x22 := by rintro rfl; exact hquote rfl
    have hnot5c : a ≠ 0x5C := by rintro rfl; exact hbackslash rfl
    apply Loop.run_of_inl
    change scanStringTurn (buffer, a :: input) = _
    simp only [scanStringTurn, if_neg hnot22, if_neg hnot5c]
    rw [if_neg (by omega), if_pos ha]
  | @two a b ha hb =>
    refine hlead a [b] [(0x80, 0xBF)] (by omega) (if_pos ha) ?_
    simp [nextByteInRange, hb.1, hb.2]
  | @three a b c ha hb hc hlow hsurrogate =>
    obtain ⟨low, high, hranges, hin⟩ := rangesAfter_three ha hb hlow hsurrogate
    refine hlead a [b, c] _ (by omega) hranges ?_
    simp [nextByteInRange, hin.1, hin.2, hc.1, hc.2]
  | @four a b c d ha hb hc hd hlow hhigh =>
    obtain ⟨low, high, hranges, hin⟩ := rangesAfter_four ha hb hlow hhigh
    refine hlead a [b, c, d] _ (by omega) hranges ?_
    simp [nextByteInRange, hin.1, hin.2, hc.1, hc.2, hd.1, hd.2]

/-- A written character is scanned as its bytes. -/
theorem run_written (c : Char) : scanStringLoop.run (buffer, escape ensureAscii c ++ input) =
    scanStringLoop.run (buffer ++ String.utf8EncodeChar c, input) := by
  by_cases hescaped : (c.toNat ≤ 0x1F ∨ c.toNat = 0x22 ∨ c.toNat = 0x5C) ∨
      (ensureAscii = true ∧ 0x7F ≤ c.toNat)
  · rw [escape_of_escaped hescaped]
    exact run_escapeAt hescaped
  · simp only [not_or, not_and, not_le] at hescaped
    obtain ⟨⟨hcontrol, hquote, hbackslash⟩, hascii⟩ := hescaped
    rw [escape_of_plain hcontrol hquote hbackslash hascii]
    exact run_plain hcontrol hquote hbackslash

/-- **A written string** is scanned as the bytes of the string. -/
theorem scanString_escaped (ensureAscii : Bool) (s : String) (rest : List UInt8) :
    scanString (escaped ensureAscii s ++ 0x22 :: rest) =
      (.valueString (Utf8.encode s.toList), rest) := by
  have hloop : ∀ (cs : List Char) (buffer : List UInt8),
      scanStringLoop.run (buffer, cs.flatMap (escape ensureAscii) ++ 0x22 :: rest) =
        some (buffer ++ Utf8.encode cs, rest) := by
    intro cs
    induction cs with
    | nil =>
      intro buffer
      rw [Utf8.encode_nil, List.append_nil]
      exact Loop.run_of_inr rfl
    | cons c cs ih =>
      intro buffer
      rw [List.flatMap_cons, List.append_assoc, run_written, ih, Utf8.encode_cons,
        List.append_assoc]
  unfold scanString escaped
  rw [hloop]
  rfl

end Strings

end Lexer

end Prawnstar
