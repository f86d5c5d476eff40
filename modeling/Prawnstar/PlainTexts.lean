import Prawnstar.Accepted
import Mathlib.Data.Bool.AllAny

/-!
# Texts are plain

The text of a value is UTF-8 without control characters, but for the line breaks of
pretty printing. So the string that `dump` returns is the text, and a reader that
stops at a zero byte reads all of it.
-/

namespace Prawnstar

open Library Serializer

namespace Serializer

/-- UTF-8 without control characters, but for line breaks. -/
structure Plain (bytes : List UInt8) : Prop where
  /-- It is the encoding of characters. -/
  text : Lexer.HoldsText bytes
  /-- None of its bytes is a control character but a line break. -/
  bytes : ∀ b ∈ bytes, b = 0x0A ∨ 0x20 ≤ b.toNat

section Plain

variable {as bs : List UInt8} {b : UInt8}

/-- Nothing is plain. -/
theorem Plain.nil : Plain [] := ⟨⟨[], rfl⟩, List.forall_mem_nil _⟩

/-- Plain texts are put together. -/
theorem Plain.append (ha : Plain as) (hb : Plain bs) : Plain (as ++ bs) := by
  obtain ⟨⟨cs, rfl⟩, has⟩ := ha
  obtain ⟨⟨es, rfl⟩, hbs⟩ := hb
  refine ⟨⟨cs ++ es, (Utf8.encode_append cs es).symm⟩, fun b hb => ?_⟩
  exact (List.mem_append.mp hb).elim (has b) (hbs b)

/-- A line break, or a character of ASCII that is no control character. -/
def Printable (b : UInt8) : Prop := b = 0x0A ∨ 0x20 ≤ b.toNat ∧ b.toNat ≤ 0x7F

instance Printable.decidable : DecidablePred Printable := fun _ => instDecidableOr

/-- Characters of ASCII are plain. -/
theorem Plain.ascii (h : ∀ b ∈ bs, Printable b) : Plain bs := by
  induction bs with
  | nil => exact Plain.nil
  | cons b bs ih =>
    have hb := h b List.mem_cons_self
    have hsmall : b.toNat ≤ 0x7F := by
      rcases hb with rfl | ⟨-, hsmall⟩
      · decide
      · exact hsmall
    obtain ⟨c, hc, -⟩ := Utf8.sequence_iff.mp (.one hsmall)
    have hone : Plain [b] :=
      ⟨⟨[c], by rw [Utf8.encode_cons, hc]; rfl⟩,
        List.forall_mem_singleton.mpr (hb.imp_right And.left)⟩
    exact hone.append (ih fun x hx => h x (List.mem_cons_of_mem b hx))

/-- So are literals. -/
theorem Plain.literal (h : bs.all fun b => Printable b) : Plain bs :=
  Plain.ascii (List.all_iff_forall_prop.mp h)

/-- A byte of ASCII before a plain text. -/
theorem Plain.cons (hb : Printable b) (hbs : Plain bs) : Plain (b :: bs) :=
  (Plain.ascii (List.forall_mem_singleton.mpr hb)).append hbs

/-- Digits can be printed. -/
theorem printable_of_isDigit (h : IsDigit b) : Printable b :=
  .inr ⟨le_trans (by decide) h.1, le_trans h.2 (by decide)⟩

/-- Hex digits can be printed. -/
theorem printable_hexDigit (v : ℕ) : Printable (hexDigit (v % 16)) := by
  have hall : ∀ v < 16, Printable (hexDigit v) := by decide
  exact hall _ (Nat.mod_lt v (by decide))

/-- An escape with a code point is plain. -/
theorem plain_unicodeEscape (v : ℕ) : Plain (unicodeEscape v) :=
  Plain.ascii (by
    simp only [unicodeEscape, List.forall_mem_cons]
    exact ⟨by decide, by decide, printable_hexDigit _, printable_hexDigit _, printable_hexDigit _,
      printable_hexDigit _, List.forall_mem_nil _⟩)

/-- **A written character** is plain. -/
theorem plain_escape (ensureAscii : Bool) (c : Char) : Plain (escape ensureAscii c) := by
  by_cases hescaped : (c.toNat ≤ 0x1F ∨ c.toNat = 0x22 ∨ c.toNat = 0x5C) ∨
      (ensureAscii = true ∧ 0x7F ≤ c.toNat)
  · have hshort : ∀ x, Printable x → Plain [0x5C, x] := fun x hx =>
      Plain.cons (by decide) (Plain.cons hx Plain.nil)
    rw [escape_of_escaped hescaped]
    unfold escapeAt
    split_ifs with h1 h2 h3 h4 h5 h6 h7 h8 h9
    · exact hshort 0x62 (by decide)
    · exact hshort 0x74 (by decide)
    · exact hshort 0x6E (by decide)
    · exact hshort 0x66 (by decide)
    · exact hshort 0x72 (by decide)
    · exact hshort 0x22 (by decide)
    · exact hshort 0x5C (by decide)
    · exact plain_unicodeEscape _
    · exact (plain_unicodeEscape _).append (plain_unicodeEscape _)
    · exfalso
      simp only [not_or] at h8
      exact hescaped.elim (fun h => h.elim h8.1 fun h => h.elim h6 h7) h8.2
  · simp only [not_or, not_and, not_le] at hescaped
    obtain ⟨⟨hcontrol, hquote, hbackslash⟩, hascii⟩ := hescaped
    rw [escape_of_plain hcontrol hquote hbackslash hascii]
    refine ⟨⟨[c], by rw [Utf8.encode_cons, Utf8.encode_nil, List.append_nil]⟩, fun b hb => .inr ?_⟩
    have hseq := Utf8.sequence_utf8EncodeChar c
    generalize String.utf8EncodeChar c = bs at hseq hb
    generalize c.toNat = v at hseq hcontrol
    cases hseq with
    | one ha =>
      obtain rfl := List.mem_singleton.mp hb
      exact hcontrol
    | two ha hb' =>
      unfold Utf8.Tail at hb'
      simp only [List.mem_cons, List.not_mem_nil, or_false] at hb
      rcases hb with rfl | rfl <;> omega
    | three ha hb' hc hlow hsurrogate =>
      unfold Utf8.Tail at hb' hc
      simp only [List.mem_cons, List.not_mem_nil, or_false] at hb
      rcases hb with rfl | rfl | rfl <;> omega
    | four ha hb' hc hd hlow hhigh =>
      unfold Utf8.Tail at hb' hc hd
      simp only [List.mem_cons, List.not_mem_nil, or_false] at hb
      rcases hb with rfl | rfl | rfl | rfl <;> omega

/-- A written string is plain. -/
theorem plain_escaped (ensureAscii : Bool) (s : String) : Plain (escaped ensureAscii s) := by
  unfold escaped
  induction s.toList with
  | nil => exact Plain.nil
  | cons c cs ih =>
    rw [List.flatMap_cons]
    exact (plain_escape ensureAscii c).append ih

/-- A written integer is plain. -/
theorem plain_dumpInteger (z : ℤ) : Plain (dumpInteger z) := by
  unfold dumpInteger
  split
  · exact Plain.literal (by decide)
  · obtain ⟨b, ds, hrun, -, hdigits, -⟩ := Lexer.exists_digitPairs z.natAbs []
    rw [hrun, List.append_nil]
    refine Plain.append ?_ (Plain.ascii fun x hx => printable_of_isDigit (hdigits x hx))
    split
    · exact Plain.literal (by decide)
    · exact Plain.nil

/-- The rest of a double is plain. -/
theorem plain_floatTail {tail fraction : List UInt8} {e : ℤ}
    (h : Lexer.FloatTail tail fraction e) : Plain tail := by
  have hexponent : ∀ {e : ℤ}, -1000 < e ∧ e < 1000 → Plain (0x65 :: appendExponent e) := by
    intro e he
    obtain ⟨sign, b, cs, hform, hsign, hdigits, -⟩ := Lexer.exists_appendExponent he
    rw [hform]
    refine Plain.cons (by decide) (Plain.cons ?_
      (Plain.ascii fun x hx => printable_of_isDigit (hdigits x hx)))
    rcases hsign with ⟨rfl, -⟩ | ⟨rfl, -⟩ <;> decide
  cases h with
  | fraction hne hds =>
    exact Plain.cons (by decide) (Plain.ascii fun x hx => printable_of_isDigit (hds x hx))
  | exponent he => exact hexponent he
  | both hne hds he =>
    exact (Plain.cons (by decide)
      (Plain.ascii fun x hx => printable_of_isDigit (hds x hx))).append (hexponent he)

/-- A written double is plain. -/
theorem plain_toChars {d : Doubles} {q : ℚ} (hq : d.Recovers q) : Plain (toChars d q) := by
  obtain ⟨integral, tail, fraction, x, hform, hintegral, htail, -⟩ := Lexer.exists_toChars hq
  have hsign : Plain (if q < 0 then [0x2D] else []) := by
    split
    · exact Plain.literal (by decide)
    · exact Plain.nil
  rw [hform]
  exact hsign.append ((Plain.ascii fun x hx => printable_of_isDigit (hintegral.digits x hx)).append
    (plain_floatTail htail))

/-- Line breaks are plain. -/
theorem plain_newline (prettyPrint : Bool) (indent : ℕ) : Plain (newline prettyPrint indent) := by
  unfold newline
  split
  · refine Plain.cons (by decide) (Plain.ascii fun b hb => ?_)
    rw [(List.mem_replicate.mp hb).2]
    decide
  · exact Plain.nil

end Plain

section Texts

variable {d : Doubles} {prettyPrint ensureAscii : Bool} {indentStep : ℕ}

/-- Items that are plain have a plain text. -/
theorem plain_textItems {items : List Json} (indent : ℕ)
    (h : ∀ j ∈ items, ∀ indent, Plain (text d prettyPrint ensureAscii indentStep indent j)) :
    Plain (textItems d prettyPrint ensureAscii indentStep indent items) := by
  induction items with
  | nil => exact Plain.nil
  | cons j items ih =>
    have hcomma : Plain (if items.isEmpty then [] else [0x2C]) := by
      split
      · exact Plain.nil
      · exact Plain.literal (by decide)
    rw [textItems_cons]
    exact (((plain_newline prettyPrint indent).append (h j List.mem_cons_self indent)).append
      hcomma).append (ih fun k hk => h k (List.mem_cons_of_mem j hk))

/-- Members whose values are plain have a plain text. -/
theorem plain_textMembers {members : List (String × Json)} (indent : ℕ)
    (h : ∀ m ∈ members, ∀ indent, Plain (text d prettyPrint ensureAscii indentStep indent m.2)) :
    Plain (textMembers d prettyPrint ensureAscii indentStep indent members) := by
  induction members with
  | nil => exact Plain.nil
  | cons m members ih =>
    obtain ⟨key, value⟩ := m
    have hcomma : Plain (if members.isEmpty then [] else [0x2C]) := by
      split
      · exact Plain.nil
      · exact Plain.literal (by decide)
    have hquote : Plain [0x22] := Plain.literal (by decide)
    have hseparator : Plain (separator prettyPrint) := by
      unfold separator
      split <;> exact Plain.literal (by decide)
    have hvalue := h (key, value) List.mem_cons_self indent
    have hrest := ih fun m hm => h m (List.mem_cons_of_mem _ hm)
    rw [textMembers_cons]
    exact ((((((plain_newline prettyPrint indent).append hquote).append
      (plain_escaped ensureAscii key)).append hquote).append hseparator).append hvalue).append
        hcomma |>.append hrest

/-- **Every text is plain.** -/
theorem plain_text {j : Json} (hj : j.WellFormed d) :
    ∀ indent, Plain (text d prettyPrint ensureAscii indentStep indent j) := by
  induction hj with
  | null => exact fun _ => Plain.literal (by decide : (ascii "null").all fun b => Printable b)
  | bool b =>
    intro indent
    cases b with
    | false => exact Plain.literal (by decide : (ascii "false").all fun b => Printable b)
    | true => exact Plain.literal (by decide : (ascii "true").all fun b => Printable b)
  | @int z hlow hhigh => exact fun _ => plain_dumpInteger z
  | @uint n hlow hhigh => exact fun _ => plain_dumpInteger n
  | @float q h => exact fun _ => plain_toChars h
  | string s =>
    intro indent
    have hquote : Plain [0x22] := Plain.literal (by decide)
    rw [text_string]
    exact (hquote.append (plain_escaped ensureAscii s)).append hquote
  | @array items h ih =>
    intro indent
    cases items with
    | nil => exact Plain.literal (by decide : (ascii "[]").all fun b => Printable b)
    | cons item items =>
      rw [text_array]
      have hopen : Plain [0x5B] := Plain.literal (by decide)
      exact ((hopen.append (plain_textItems _ ih)).append
        (plain_newline prettyPrint indent)).append (Plain.literal (by decide))
  | @object members hkeys h ih =>
    intro indent
    cases members with
    | nil => exact Plain.literal (by decide : (ascii "\x7b\x7d").all fun b => Printable b)
    | cons m members =>
      rw [text_object]
      have hopen : Plain [0x7B] := Plain.literal (by decide)
      exact ((hopen.append (plain_textMembers _ ih)).append
        (plain_newline prettyPrint indent)).append (Plain.literal (by decide))

end Texts

end Serializer

end Prawnstar
