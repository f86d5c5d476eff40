import Mathlib.Data.List.Basic
import Mathlib.Tactic.Basic

/-!
# UTF-8 sequences

The byte sequences of the Unicode scalar values, by the ranges in which their
bytes lie: which sequences are encodings, and of which character. A decoder that
works range by range is compared with the encoder through `sequence_iff`.
-/

namespace Library.Utf8

/-- A byte that continues a sequence. -/
def Tail (b : UInt8) : Prop := 0x80 ≤ b.toNat ∧ b.toNat ≤ 0xBF

/-- The well-formed sequences with the code points that they encode. -/
inductive Sequence : List UInt8 → ℕ → Prop
  | one {a : UInt8} (ha : a.toNat ≤ 0x7F) : Sequence [a] a.toNat
  | two {a b : UInt8} (ha : 0xC2 ≤ a.toNat ∧ a.toNat ≤ 0xDF) (hb : Tail b) :
      Sequence [a, b] ((a.toNat - 0xC0) * 64 + (b.toNat - 0x80))
  | three {a b c : UInt8} (ha : 0xE0 ≤ a.toNat ∧ a.toNat ≤ 0xEF) (hb : Tail b) (hc : Tail c)
      (hlow : a.toNat = 0xE0 → 0xA0 ≤ b.toNat) (hsurrogate : a.toNat = 0xED → b.toNat ≤ 0x9F) :
      Sequence [a, b, c]
        ((a.toNat - 0xE0) * 4096 + (b.toNat - 0x80) * 64 + (c.toNat - 0x80))
  | four {a b c d : UInt8} (ha : 0xF0 ≤ a.toNat ∧ a.toNat ≤ 0xF4) (hb : Tail b) (hc : Tail c)
      (hd : Tail d) (hlow : a.toNat = 0xF0 → 0x90 ≤ b.toNat)
      (hhigh : a.toNat = 0xF4 → b.toNat ≤ 0x8F) :
      Sequence [a, b, c, d] ((a.toNat - 0xF0) * 262144 + (b.toNat - 0x80) * 4096 +
        (c.toNat - 0x80) * 64 + (d.toNat - 0x80))

/-- The bytes of a text. -/
def encode (cs : List Char) : List UInt8 := cs.flatMap String.utf8EncodeChar

@[simp] theorem encode_nil : encode [] = [] := rfl

@[simp] theorem encode_cons (c : Char) (cs : List Char) :
    encode (c :: cs) = String.utf8EncodeChar c ++ encode cs := List.flatMap_cons

/-- The bytes of a text are those of its parts. -/
@[simp] theorem encode_append (cs ds : List Char) : encode (cs ++ ds) = encode cs ++ encode ds :=
  List.flatMap_append

/-- A code point below the surrogates or above them is a character. -/
theorem toNat_ofNat {v : ℕ} (h : v < 0xD800 ∨ 0xDFFF < v ∧ v < 0x110000) :
    (Char.ofNat v).toNat = v := by
  have hvalid : v.isValidChar := h
  rw [Char.ofNat, dif_pos hvalid]
  rfl

/-- The code point of a character is below the surrogates or above them. -/
theorem toNat_range (c : Char) : c.toNat < 0xD800 ∨ 0xDFFF < c.toNat ∧ c.toNat < 0x110000 :=
  c.valid

section Bytes

variable {n : ℕ}

/-- A byte made from a number that fits. -/
theorem toNat_ofNat_byte (h : n < 256) : (UInt8.ofNat n).toNat = n := by
  rw [UInt8.toNat_ofNat', Nat.mod_eq_of_lt h]

/-- The byte made from the value of a byte. -/
theorem ofNat_eq {b : UInt8} (h : n = b.toNat) : UInt8.ofNat n = b := by
  rw [h, UInt8.ofNat_toNat]

end Bytes

/-- The encoder, by the size of the code point. -/
theorem utf8EncodeChar_eq (c : Char) : String.utf8EncodeChar c =
    if c.toNat ≤ 0x7F then [UInt8.ofNat c.toNat]
    else if c.toNat ≤ 0x7FF then
      [UInt8.ofNat (c.toNat / 64 % 32 + 0xC0), UInt8.ofNat (c.toNat % 64 + 0x80)]
    else if c.toNat ≤ 0xFFFF then
      [UInt8.ofNat (c.toNat / 4096 % 16 + 0xE0), UInt8.ofNat (c.toNat / 64 % 64 + 0x80),
        UInt8.ofNat (c.toNat % 64 + 0x80)]
    else
      [UInt8.ofNat (c.toNat / 262144 % 8 + 0xF0), UInt8.ofNat (c.toNat / 4096 % 64 + 0x80),
        UInt8.ofNat (c.toNat / 64 % 64 + 0x80), UInt8.ofNat (c.toNat % 64 + 0x80)] := rfl

/-- **Every character** is encoded by a well-formed sequence. -/
theorem sequence_utf8EncodeChar (c : Char) : Sequence (String.utf8EncodeChar c) c.toNat := by
  have hrange := toNat_range c
  rw [utf8EncodeChar_eq]
  generalize c.toNat = v at hrange ⊢
  by_cases hone : v ≤ 0x7F
  · have hv := toNat_ofNat_byte (n := v) (by omega)
    have hseq := Sequence.one (a := UInt8.ofNat v) (by omega)
    rw [if_pos hone]
    rwa [hv] at hseq
  by_cases htwo : v ≤ 0x7FF
  · have ha := toNat_ofNat_byte (n := v / 64 % 32 + 0xC0) (by omega)
    have hb := toNat_ofNat_byte (n := v % 64 + 0x80) (by omega)
    have hseq := Sequence.two (a := UInt8.ofNat (v / 64 % 32 + 0xC0))
      (b := UInt8.ofNat (v % 64 + 0x80)) (by omega) (by unfold Tail; omega)
    rw [if_neg hone, if_pos htwo]
    rw [ha, hb] at hseq
    convert hseq using 1
    omega
  by_cases hthree : v ≤ 0xFFFF
  · have ha := toNat_ofNat_byte (n := v / 4096 % 16 + 0xE0) (by omega)
    have hb := toNat_ofNat_byte (n := v / 64 % 64 + 0x80) (by omega)
    have hc := toNat_ofNat_byte (n := v % 64 + 0x80) (by omega)
    have hseq := Sequence.three (a := UInt8.ofNat (v / 4096 % 16 + 0xE0))
      (b := UInt8.ofNat (v / 64 % 64 + 0x80)) (c := UInt8.ofNat (v % 64 + 0x80))
      (by omega) (by unfold Tail; omega) (by unfold Tail; omega) (by omega) (by omega)
    rw [if_neg hone, if_neg htwo, if_pos hthree]
    rw [ha, hb, hc] at hseq
    convert hseq using 1
    omega
  · have ha := toNat_ofNat_byte (n := v / 262144 % 8 + 0xF0) (by omega)
    have hb := toNat_ofNat_byte (n := v / 4096 % 64 + 0x80) (by omega)
    have hc := toNat_ofNat_byte (n := v / 64 % 64 + 0x80) (by omega)
    have hd := toNat_ofNat_byte (n := v % 64 + 0x80) (by omega)
    have hseq := Sequence.four (a := UInt8.ofNat (v / 262144 % 8 + 0xF0))
      (b := UInt8.ofNat (v / 4096 % 64 + 0x80)) (c := UInt8.ofNat (v / 64 % 64 + 0x80))
      (d := UInt8.ofNat (v % 64 + 0x80)) (by omega) (by unfold Tail; omega)
      (by unfold Tail; omega) (by unfold Tail; omega) (by omega) (by omega)
    rw [if_neg hone, if_neg htwo, if_neg hthree]
    rw [ha, hb, hc, hd] at hseq
    convert hseq using 1
    omega

/-- **The encodings** are exactly the well-formed sequences. -/
theorem sequence_iff {bs : List UInt8} {v : ℕ} :
    Sequence bs v ↔ ∃ c : Char, String.utf8EncodeChar c = bs ∧ c.toNat = v := by
  constructor
  · intro h
    refine ⟨Char.ofNat v, ?_⟩
    rw [utf8EncodeChar_eq]
    cases h with
    | @one a ha =>
      rw [toNat_ofNat (by omega), if_pos ha, ofNat_eq rfl]
      exact ⟨rfl, rfl⟩
    | @two a b ha hb =>
      unfold Tail at hb
      generalize hv : (a.toNat - 0xC0) * 64 + (b.toNat - 0x80) = v
      have ha' : v / 64 % 32 + 0xC0 = a.toNat := by omega
      have hb' : v % 64 + 0x80 = b.toNat := by omega
      rw [toNat_ofNat (by omega), if_neg (by omega), if_pos (by omega), ofNat_eq ha', ofNat_eq hb']
      exact ⟨rfl, rfl⟩
    | @three a b c ha hb hc hlow hsurrogate =>
      unfold Tail at hb hc
      generalize hv : (a.toNat - 0xE0) * 4096 + (b.toNat - 0x80) * 64 + (c.toNat - 0x80) = v
      have ha' : v / 4096 % 16 + 0xE0 = a.toNat := by omega
      have hb' : v / 64 % 64 + 0x80 = b.toNat := by omega
      have hc' : v % 64 + 0x80 = c.toNat := by omega
      rw [toNat_ofNat (by omega), if_neg (by omega), if_neg (by omega), if_pos (by omega),
        ofNat_eq ha', ofNat_eq hb', ofNat_eq hc']
      exact ⟨rfl, rfl⟩
    | @four a b c d ha hb hc hd hlow hhigh =>
      unfold Tail at hb hc hd
      generalize hv : (a.toNat - 0xF0) * 262144 + (b.toNat - 0x80) * 4096 +
        (c.toNat - 0x80) * 64 + (d.toNat - 0x80) = v
      have ha' : v / 262144 % 8 + 0xF0 = a.toNat := by omega
      have hb' : v / 4096 % 64 + 0x80 = b.toNat := by omega
      have hc' : v / 64 % 64 + 0x80 = c.toNat := by omega
      have hd' : v % 64 + 0x80 = d.toNat := by omega
      rw [toNat_ofNat (by omega), if_neg (by omega), if_neg (by omega), if_neg (by omega),
        ofNat_eq ha', ofNat_eq hb', ofNat_eq hc', ofNat_eq hd']
      exact ⟨rfl, rfl⟩
  · rintro ⟨c, rfl, rfl⟩
    exact sequence_utf8EncodeChar c

end Library.Utf8
