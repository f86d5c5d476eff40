import Prawnstar.JsonTexts

/-!
# What the parser accepts

Whatever bytes arrive, a string token is UTF-8, so it can be dumped again, and a value
that was parsed is one that a text can carry. So writing a value that was received and
parsing it again gives the value.
-/

namespace Prawnstar

open Library Serializer

namespace Lexer

section Strings

variable {input rest buffer : List UInt8}

/-- A hex digit is less than sixteen. -/
theorem hexValue_lt {b : UInt8} {v : ℕ} (h : hexValue b = some v) : v < 16 := by
  unfold hexValue at h
  split_ifs at h <;> (obtain rfl := Option.some.inj h; omega)

/-- Four hex digits have sixteen bits. -/
theorem getCodepoint_le {v : ℕ} (h : getCodepoint input = some (v, rest)) : v ≤ 0xFFFF := by
  unfold getCodepoint at h
  split at h
  · simp only [Option.bind_eq_bind, Option.bind_eq_some_iff, Option.pure_def,
      Option.some.injEq, Prod.mk.injEq] at h
    obtain ⟨a, ha, b, hb, c, hc, e, he, rfl, -⟩ := h
    have hlt := hexValue_lt ha
    have hlt' := hexValue_lt hb
    have hlt'' := hexValue_lt hc
    have hlt''' := hexValue_lt he
    omega
  · cases h

/-- **An escaped code point** is never a surrogate by itself. -/
theorem scanUnicode_range {v : ℕ} (h : scanUnicode input = some (v, rest)) :
    v < 0xD800 ∨ 0xDFFF < v ∧ v < 0x110000 := by
  unfold scanUnicode at h
  cases hfirst : getCodepoint input with
  | none => simp [hfirst] at h
  | some first =>
    obtain ⟨codepoint1, input1⟩ := first
    have hle := getCodepoint_le hfirst
    simp only [hfirst, Option.bind_eq_bind, Option.bind_some] at h
    split at h
    · next hhigh =>
      split at h
      · next input2 =>
        cases hsecond : getCodepoint input2 with
        | none => simp [hsecond] at h
        | some second =>
          simp only [hsecond, Option.bind_some] at h
          split at h
          · next hlow =>
            simp only [Option.pure_def, Option.some.injEq, Prod.mk.injEq] at h
            omega
          · cases h
      · cases h
    · split at h
      · cases h
      · simp only [Option.pure_def, Option.some.injEq, Prod.mk.injEq] at h
        omega

/-- The bytes of an escape are those of a character. -/
theorem exists_scanEscape {bytes : List UInt8} (h : scanEscape input = some (bytes, rest)) :
    ∃ c, bytes = String.utf8EncodeChar c := by
  cases input with
  | nil => cases h
  | cons current input =>
    have hplain : ∀ v : ℕ, v ≤ 0x7F → some ([UInt8.ofNat v], input) = some (bytes, rest) →
        ∃ c, bytes = String.utf8EncodeChar c := by
      intro v hv hbytes
      obtain ⟨rfl, -⟩ := Prod.mk.inj (Option.some.inj hbytes)
      refine ⟨Char.ofNat v, ?_⟩
      rw [Utf8.utf8EncodeChar_eq, Utf8.toNat_ofNat (by omega), if_pos hv]
    simp only [scanEscape] at h
    refine of_ite_of h (fun hc h => ?_) fun h => ?_
    · refine hplain current.toNat ?_ (by rwa [UInt8.ofNat_toNat])
      rcases hc with rfl | rfl | rfl <;> decide
    refine of_ite h (hplain 0x08 (by decide)) fun h => ?_
    refine of_ite h (hplain 0x0C (by decide)) fun h => ?_
    refine of_ite h (hplain 0x0A (by decide)) fun h => ?_
    refine of_ite h (hplain 0x0D (by decide)) fun h => ?_
    refine of_ite h (hplain 0x09 (by decide)) fun h => ?_
    refine of_ite h (fun h => ?_) fun h => by cases h
    obtain ⟨found, hcode, hfound⟩ := Option.map_eq_some_iff.mp h
    have hrange := scanUnicode_range (hcode : _ = some (found.1, found.2))
    refine ⟨Char.ofNat found.1, ?_⟩
    rw [← codepointBytes_toNat, Utf8.toNat_ofNat hrange]
    exact (Prod.mk.inj hfound).1.symm

/-- One byte in its range, and the bytes behind it. -/
theorem exists_nextByteInRange {low high : ℕ} {ranges : List (ℕ × ℕ)} {out : List UInt8}
    (h : nextByteInRange ((low, high) :: ranges) buffer input = some (out, rest)) :
    ∃ b t, input = b :: t ∧ (low ≤ b.toNat ∧ b.toNat ≤ high) ∧
      nextByteInRange ranges (buffer ++ [b]) t = some (out, rest) := by
  cases input with
  | nil => cases h
  | cons b t =>
    simp only [nextByteInRange] at h
    exact of_ite_of h (fun hin h => ⟨b, t, rfl, hin, h⟩) fun h => by cases h

/-- **The bytes of a longer sequence** are those of a character. -/
theorem exists_sequence {a : UInt8} {ranges : List (ℕ × ℕ)} {out : List UInt8}
    (hranges : rangesAfter a = some ranges)
    (h : nextByteInRange ranges (buffer ++ [a]) input = some (out, rest)) :
    ∃ c, out = buffer ++ String.utf8EncodeChar c := by
  have hchar : ∀ {bs : List UInt8} {v : ℕ}, Utf8.Sequence bs v → out = buffer ++ bs →
      ∃ c, out = buffer ++ String.utf8EncodeChar c := by
    rintro bs v hseq rfl
    obtain ⟨c, rfl, -⟩ := Utf8.sequence_iff.mp hseq
    exact ⟨c, rfl⟩
  have hdone : ∀ {t bs : List UInt8}, nextByteInRange [] bs t = some (out, rest) → out = bs := by
    intro t bs hnil
    exact (Prod.mk.inj (Option.some.inj hnil)).1.symm
  -- Three bytes after the first, for the sequences of four.
  have hfour : ∀ {low high : ℕ}, 0xF0 ≤ a.toNat ∧ a.toNat ≤ 0xF4 → 0x80 ≤ low ∧ high ≤ 0xBF →
      (a.toNat = 0xF0 → 0x90 ≤ low) → (a.toNat = 0xF4 → high ≤ 0x8F) →
        ranges = [(low, high), (0x80, 0xBF), (0x80, 0xBF)] →
          ∃ c, out = buffer ++ String.utf8EncodeChar c := by
    rintro low high ha hbound hlow hhigh rfl
    obtain ⟨b, t, rfl, hb, h⟩ := exists_nextByteInRange h
    obtain ⟨c, t, rfl, hc, h⟩ := exists_nextByteInRange h
    obtain ⟨e, t, rfl, he, h⟩ := exists_nextByteInRange h
    refine hchar (.four (a := a) (b := b) (c := c) (d := e) ha ?_ hc he ?_ ?_) ?_
    · exact ⟨by omega, by omega⟩
    · exact fun h => (hlow h).trans hb.1
    · exact fun h => hb.2.trans (hhigh h)
    · rw [hdone h]
      simp
  have hthree : ∀ {low high : ℕ}, 0xE0 ≤ a.toNat ∧ a.toNat ≤ 0xEF → 0x80 ≤ low ∧ high ≤ 0xBF →
      (a.toNat = 0xE0 → 0xA0 ≤ low) → (a.toNat = 0xED → high ≤ 0x9F) →
        ranges = [(low, high), (0x80, 0xBF)] →
          ∃ c, out = buffer ++ String.utf8EncodeChar c := by
    rintro low high ha hbound hlow hhigh rfl
    obtain ⟨b, t, rfl, hb, h⟩ := exists_nextByteInRange h
    obtain ⟨c, t, rfl, hc, h⟩ := exists_nextByteInRange h
    refine hchar (.three (a := a) (b := b) (c := c) ha ?_ hc ?_ ?_) ?_
    · exact ⟨by omega, by omega⟩
    · exact fun h => (hlow h).trans hb.1
    · exact fun h => hb.2.trans (hhigh h)
    · rw [hdone h]
      simp
  unfold rangesAfter at hranges
  refine of_ite_of hranges (fun ha hr => ?_) fun hr => ?_
  · obtain rfl := Option.some.inj hr
    obtain ⟨b, t, rfl, hb, h⟩ := exists_nextByteInRange h
    refine hchar (.two (a := a) (b := b) ha hb) ?_
    rw [hdone h]
    simp
  refine of_ite_of hr (fun ha hr => ?_) fun hr => ?_
  · exact hthree (by omega) (by decide) (fun _ => le_rfl) (by omega) (Option.some.inj hr).symm
  refine of_ite_of hr (fun ha hr => ?_) fun hr => ?_
  · exact hthree (by omega) (by decide) (by omega) (by omega) (Option.some.inj hr).symm
  refine of_ite_of hr (fun ha hr => ?_) fun hr => ?_
  · exact hthree (by omega) (by decide) (by omega) (fun _ => le_rfl) (Option.some.inj hr).symm
  refine of_ite_of hr (fun ha hr => ?_) fun hr => ?_
  · exact hfour (by omega) (by decide) (fun _ => le_rfl) (by omega) (Option.some.inj hr).symm
  refine of_ite_of hr (fun ha hr => ?_) fun hr => ?_
  · exact hfour (by omega) (by decide) (by omega) (by omega) (Option.some.inj hr).symm
  refine of_ite_of hr (fun ha hr => ?_) fun hr => by cases hr
  exact hfour (by omega) (by decide) (by omega) (fun _ => le_rfl) (Option.some.inj hr).symm

/-- What a token buffer holds while a string is scanned. -/
def HoldsText (buffer : List UInt8) : Prop := ∃ cs, buffer = Utf8.encode cs

/-- A character more is still a text. -/
theorem HoldsText.concat (h : HoldsText buffer) (c : Char) :
    HoldsText (buffer ++ String.utf8EncodeChar c) := by
  obtain ⟨cs, rfl⟩ := h
  refine ⟨cs ++ [c], ?_⟩
  rw [Utf8.encode_append, Utf8.encode_cons, Utf8.encode_nil, List.append_nil]

/-- A turn adds whole characters. -/
theorem holdsText_turn {s t : List UInt8 × List UInt8} (h : scanStringTurn s = .inl t)
    (hs : HoldsText s.1) : HoldsText t.1 := by
  obtain ⟨buffer, input⟩ := s
  cases input with
  | nil => cases h
  | cons current input =>
    simp only [scanStringTurn] at h
    refine of_ite h (fun h => by cases h) fun h => of_ite h (fun h => ?_) fun h =>
      of_ite h (fun h => by cases h) fun h => ?_
    · split at h
      · next bytes rest hescape =>
        obtain ⟨c, rfl⟩ := exists_scanEscape hescape
        obtain rfl := Sum.inl.inj h
        exact hs.concat c
      · cases h
    refine of_ite_of h (fun hsmall h => ?_) fun h => ?_
    · obtain rfl := Sum.inl.inj h
      have hseq := Utf8.sequence_iff.mp (.one hsmall)
      obtain ⟨c, hc, -⟩ := hseq
      have hmore := hs.concat c
      rwa [hc] at hmore
    · split at h
      · next u hbind =>
        obtain ⟨ranges, hranges, hnext⟩ := Option.bind_eq_some_iff.mp hbind
        obtain ⟨c, hc⟩ := exists_sequence hranges (hnext : _ = some (u.1, u.2))
        obtain rfl := Sum.inl.inj h
        rw [hc]
        exact hs.concat c
      · cases h

/-- **A string token** is a text. -/
theorem holdsText_scanString (h : scanString input = (.valueString buffer, rest)) :
    HoldsText buffer := by
  have hloop : ∀ t, scanStringLoop.run ([], input) = some t → HoldsText t.1 := by
    have hinvariant := scanStringLoop.run_invariant (I := fun s => HoldsText s.1)
      (Q := fun r => ∀ t, r = some t → HoldsText t.1) (fun s t => holdsText_turn) ?_
      (s := ([], input)) ⟨[], rfl⟩
    · exact hinvariant
    · rintro ⟨buffer, input⟩ r hbody hs t rfl
      change scanStringTurn (buffer, input) = .inr (some t) at hbody
      cases input with
      | nil => cases hbody
      | cons current input =>
        simp only [scanStringTurn] at hbody
        refine of_ite hbody (fun h => ?_) fun h => of_ite h (fun h => ?_) fun h => ?_
        · obtain rfl := Option.some.inj (Sum.inr.inj h)
          exact hs
        · split at h <;> cases h
        refine of_ite h (fun h => by cases h) fun h => of_ite h (fun h => by cases h) fun h => ?_
        split at h <;> cases h
  unfold scanString at h
  split at h
  · next buffer' rest' hrun =>
    obtain ⟨rfl, -⟩ : buffer' = buffer ∧ rest' = rest := by simpa using h
    exact hloop _ hrun
  · cases h

/-- **A string that was accepted can be written.** Whatever its literal looked like, what
`dump_escaped` makes of the token buffer is scanned as the same buffer. -/
theorem rescan_string (ensureAscii : Bool) (input rest buffer tail : List UInt8)
    (h : scanString input = (.valueString buffer, rest)) :
    ∃ out, dumpEscaped ensureAscii buffer = .ok out ∧
      scanString (out ++ 0x22 :: tail) = (.valueString buffer, tail) := by
  obtain ⟨cs, rfl⟩ := holdsText_scanString h
  have hread := scanString_escaped ensureAscii (String.ofList cs) tail
  refine ⟨_, dumpEscaped_encode cs, ?_⟩
  rwa [escaped, String.toList_ofList] at hread

/-- An escaped line feed is written with an escape. -/
theorem rescan_string_reference :
    let buffer : List UInt8 := [0x41, 0x0A]
    ∃ out, dumpEscaped true buffer = .ok out ∧
      scanString (out ++ 0x22 :: [0x2C]) = (.valueString buffer, [0x2C]) :=
  rescan_string true [0x41, 0x5C, 0x75, 0x30, 0x30, 0x30, 0x41, 0x22] [] [0x41, 0x0A] [0x2C]
    (by decide +kernel)

end Strings

end Lexer

/-- Grisu2 and `strtod` agree on every double that `strtod` returns, and on its
negative. -/
def Doubles.Exact (d : Doubles) : Prop :=
  ∀ m q, d.nearest m = some q → d.Recovers q ∧ d.Recovers (-q)

namespace Reference

/-- Every double that is read is recovered. -/
theorem exact_doubles : doubles.Exact := by
  intro m q hnearest
  have hhalf : q ≠ 0 → |q| = 1 / 2 := by
    intro hq
    unfold doubles at hnearest
    dsimp only at hnearest
    split_ifs at hnearest with hzero hm
    · exact absurd (Option.some.inj hnearest).symm hq
    · rw [← Option.some.inj hnearest]
      norm_num
  exact ⟨recovers_doubles hhalf, recovers_doubles fun hq => by
    rw [abs_neg]
    exact hhalf (neg_ne_zero.mp hq)⟩

end Reference

namespace Parser

section Values

variable {d : Doubles} {input rest : List UInt8} {token : Lexer.Token} {j : Json}

/-- A token whose value, if it is one by itself, can be written. -/
def Sound (d : Doubles) (token : Lexer.Token) : Prop :=
  ∀ j, scalar token = some j → j.WellFormed d

/-- The double of a number can be written. -/
theorem recovers_strtod (hd : d.Exact) {tokenBuffer : List UInt8} {q : ℚ}
    (h : Lexer.strtod d tokenBuffer = some q) : d.Recovers q := by
  unfold Lexer.strtod at h
  split at h
  · obtain ⟨x, hx, rfl⟩ := Option.map_eq_some_iff.mp h
    exact (hd _ x hx).2
  · exact (hd _ q h).1

/-- The token of a number can be written. -/
theorem sound_numberToken (hd : d.Exact) (numberType : Lexer.NumberType)
    (tokenBuffer : List UInt8) : Sound d (Lexer.numberToken d numberType tokenBuffer) := by
  have hfloat : Sound d (.valueFloat (Lexer.strtod d tokenBuffer)) := by
    intro j hj
    cases hvalue : Lexer.strtod d tokenBuffer with
    | none => rw [hvalue] at hj; cases hj
    | some q =>
      rw [hvalue] at hj
      obtain rfl := Option.some.inj hj
      exact .float (recovers_strtod hd hvalue)
  cases numberType with
  | unsigned =>
    simp only [Lexer.numberToken]
    split
    · next hfits =>
      intro j hj
      obtain rfl := Option.some.inj hj
      generalize decimal tokenBuffer = x at hfits
      split
      · exact .int (by omega) (by omega)
      · exact .uint (by omega) hfits
    · exact hfloat
  | integer =>
    simp only [Lexer.numberToken]
    split
    · next hfits =>
      intro j hj
      obtain rfl := Option.some.inj hj
      exact .int hfits (by omega)
    · exact hfloat
  | float => exact hfloat

/-- **Every token** can be written. -/
theorem sound_scan (hd : d.Exact) (input : List UInt8) : Sound d (Lexer.scan d input).1 := by
  have hnone : ∀ {token : Lexer.Token}, scalar token = none → Sound d token := by
    intro token hnone j hj
    rw [hnone] at hj
    cases hj
  have hliteral : ∀ (text : List UInt8) (token : Lexer.Token) (input : List UInt8),
      Sound d token → Sound d (Lexer.scanLiteral text token input).1 := by
    intro text token input htoken
    unfold Lexer.scanLiteral
    split
    · exact htoken
    · exact hnone rfl
  have hstring : ∀ input, Sound d (Lexer.scanString input).1 := by
    intro input
    unfold Lexer.scanString
    split
    · intro j hj
      obtain rfl := Option.some.inj hj
      exact .string _
    · exact hnone rfl
  have hnumber : ∀ current input, Sound d (Lexer.scanNumber d current input).1 := by
    intro current input
    unfold Lexer.scanNumber
    dsimp only
    split
    · exact sound_numberToken hd _ _
    · exact hnone rfl
  unfold Lexer.scan
  split
  · exact hnone rfl
  · next current input' _ =>
    generalize hresult : Lexer.scanFrom d current input' = result
    have hplain : ∀ {token : Lexer.Token}, scalar token = none → (token, input') = result →
        Sound d result.1 := by
      rintro token htoken rfl
      exact hnone htoken
    rw [Lexer.scanFrom] at hresult
    refine Lexer.of_ite hresult (hplain rfl) fun h => Lexer.of_ite h (hplain rfl) fun h => ?_
    refine Lexer.of_ite h (hplain rfl) fun h => Lexer.of_ite h (hplain rfl) fun h => ?_
    refine Lexer.of_ite h (hplain rfl) fun h => Lexer.of_ite h (hplain rfl) fun h => ?_
    refine Lexer.of_ite h (fun h => ?_) fun h => Lexer.of_ite h (fun h => ?_) fun h => ?_
    · rw [← h]
      exact hliteral _ _ _ fun j hj => Option.some.inj hj ▸ .bool true
    · rw [← h]
      exact hliteral _ _ _ fun j hj => Option.some.inj hj ▸ .bool false
    refine Lexer.of_ite h (fun h => ?_) fun h => Lexer.of_ite h (fun h => ?_) fun h => ?_
    · rw [← h]
      exact hliteral _ _ _ fun j hj => Option.some.inj hj ▸ .null
    · rw [← h]
      exact hstring _
    refine Lexer.of_ite h (fun h => ?_) fun h => Lexer.of_ite h (hplain rfl) fun h => ?_
    · rw [← h]
      exact hnumber _ _
    · rw [← h]
      exact hnone rfl

/-- A member that is inserted is there, with the others. -/
theorem mem_insertMember {key : String} {value : Json} {members : List (String × Json)}
    {m : String × Json} (hm : m ∈ insertMember key value members) :
    m = (key, value) ∨ m ∈ members := by
  induction members with
  | nil => exact .inl (List.mem_singleton.mp hm)
  | cons first members ih =>
    obtain ⟨k, v⟩ := first
    simp only [insertMember] at hm
    split at hm
    · exact (List.mem_cons.mp hm).imp_right id
    split at hm
    · exact (List.mem_cons.mp hm).imp_right (List.mem_cons_of_mem _)
    · rcases List.mem_cons.mp hm with rfl | hm
      · exact .inr List.mem_cons_self
      · exact (ih hm).imp_right (List.mem_cons_of_mem _)

/-- **Inserting** keeps the members in the order of their keys. -/
theorem pairwise_insertMember {key : String} {value : Json} {members : List (String × Json)}
    (h : (members.map Prod.fst).Pairwise (· < ·)) :
    ((insertMember key value members).map Prod.fst).Pairwise (· < ·) := by
  induction members with
  | nil => exact List.pairwise_singleton _ _
  | cons first members ih =>
    obtain ⟨k, v⟩ := first
    rw [List.map_cons, List.pairwise_cons] at h
    simp only [insertMember]
    split
    · next hless =>
      rw [List.map_cons, List.map_cons, List.pairwise_cons, List.pairwise_cons]
      refine ⟨fun x hx => ?_, h⟩
      rcases List.mem_cons.mp hx with rfl | hx
      · exact hless
      · exact String.lt_trans hless (h.1 x hx)
    split
    · next hsame =>
      rw [List.map_cons, List.pairwise_cons, hsame]
      exact h
    · next hnot hne =>
      rw [List.map_cons, List.pairwise_cons]
      refine ⟨fun x hx => ?_, ih h.2⟩
      obtain ⟨m, hm, rfl⟩ := List.mem_map.mp hx
      rcases mem_insertMember hm with rfl | hm
      · by_contra hnot'
        exact hne (String.le_antisymm (String.not_lt.mp hnot') (String.not_lt.mp hnot))
      · exact h.1 m.1 (List.mem_map_of_mem hm)

/-- What is on the stack can be written. -/
def Frame.Sound (d : Doubles) : Frame → Prop
  | .array items => ∀ j ∈ items, j.WellFormed d
  | .object members _ =>
    (members.map Prod.fst).Pairwise (· < ·) ∧ ∀ m ∈ members, m.2.WellFormed d

/-- The invariant of the loop: what it holds can be written. -/
structure State.Sound (d : Doubles) (s : State) : Prop where
  /-- The value at the top. -/
  root : s.root.WellFormed d
  /-- The values in the containers that are open. -/
  frames : ∀ f ∈ s.frames, f.Sound d
  /-- The value of the last token. -/
  lastToken : Parser.Sound d s.lastToken

/-- Handling a value that can be written. -/
theorem State.Sound.handleValue {s : State} (hs : s.Sound d) (hj : j.WellFormed d) :
    (s.handleValue j).Sound d := by
  obtain ⟨hroot, hframes, htoken⟩ := hs
  unfold State.handleValue
  split
  · exact ⟨hj, hframes, htoken⟩
  · next items frames hform =>
    rw [hform] at hframes
    refine ⟨hroot, fun f hf => ?_, htoken⟩
    rcases List.mem_cons.mp hf with rfl | hf
    · intro k hk
      rcases List.mem_append.mp hk with hk | hk
      · exact hframes _ List.mem_cons_self k hk
      · exact List.mem_singleton.mp hk ▸ hj
    · exact hframes f (List.mem_cons_of_mem _ hf)
  · next members key frames hform =>
    rw [hform] at hframes
    have hmembers := hframes _ List.mem_cons_self
    refine ⟨hroot, fun f hf => ?_, htoken⟩
    rcases List.mem_cons.mp hf with rfl | hf
    · refine ⟨pairwise_insertMember hmembers.1, fun m hm => ?_⟩
      rcases mem_insertMember hm with rfl | hm
      · exact hj
      · exact hmembers.2 m hm
    · exact hframes f (List.mem_cons_of_mem _ hf)

/-- What follows a value keeps the invariant. -/
theorem State.Sound.evaluate (hd : d.Exact) {s t : State} (hs : s.Sound d)
    (h : s.evaluate d = .inl t) : t.Sound d := by
  obtain ⟨hroot, hframes, htoken⟩ := hs
  have hnone : ∀ {token : Lexer.Token}, scalar token = none → Parser.Sound d token := by
    intro token hnone j hj
    rw [hnone] at hj
    cases hj
  unfold State.evaluate at h
  split at h
  · cases h
  · next items frames hform =>
    rw [hform] at hframes
    have hitems := hframes _ List.mem_cons_self
    have houter : ∀ f ∈ frames, f.Sound d := fun f hf => hframes f (List.mem_cons_of_mem _ hf)
    split at h
    · obtain rfl := Sum.inl.inj h
      exact ⟨hroot, hform ▸ hframes, sound_scan hd _⟩
    · obtain rfl := Sum.inl.inj h
      exact State.Sound.handleValue ⟨hroot, houter, hnone rfl⟩ (.array hitems)
    · cases h
  · next members key frames hform =>
    rw [hform] at hframes
    have hmembers := hframes _ List.mem_cons_self
    have houter : ∀ f ∈ frames, f.Sound d := fun f hf => hframes f (List.mem_cons_of_mem _ hf)
    split at h
    · split at h
      · split at h
        · obtain rfl := Sum.inl.inj h
          exact ⟨hroot, List.forall_mem_cons.mpr ⟨hmembers, houter⟩, sound_scan hd _⟩
        · cases h
      · cases h
    · obtain rfl := Sum.inl.inj h
      exact State.Sound.handleValue ⟨hroot, houter, hnone rfl⟩ (.object hmembers.1 hmembers.2)
    · cases h

/-- **A turn** keeps the invariant. -/
theorem State.Sound.turn (hd : d.Exact) {s t : State} (hs : s.Sound d)
    (h : s.turn d = .inl t) : t.Sound d := by
  unfold State.turn at h
  split at h
  · exact hs.evaluate hd h
  split at h
  · split at h
    · next input _ =>
      refine State.Sound.evaluate hd (State.Sound.handleValue (s := { s with input }) ?_
        (.object .nil (List.forall_mem_nil _))) h
      exact ⟨hs.root, hs.frames, hs.lastToken⟩
    · split at h
      · obtain rfl := Sum.inl.inj h
        refine ⟨hs.root, List.forall_mem_cons.mpr ⟨?_, hs.frames⟩, sound_scan hd _⟩
        exact ⟨.nil, List.forall_mem_nil _⟩
      · cases h
    · cases h
  · split at h
    · next input _ =>
      refine State.Sound.evaluate hd (State.Sound.handleValue (s := { s with input }) ?_
        (.array (List.forall_mem_nil _))) h
      exact ⟨hs.root, hs.frames, hs.lastToken⟩
    · next lastToken input _ hscan =>
      obtain rfl := Sum.inl.inj h
      have htoken := sound_scan hd s.input
      rw [hscan] at htoken
      exact ⟨hs.root, List.forall_mem_cons.mpr ⟨List.forall_mem_nil _, hs.frames⟩, htoken⟩
  · split at h
    · next value hvalue =>
      exact (hs.handleValue (hs.lastToken _ hvalue)).evaluate hd h
    · cases h

/-- A turn that leaves with a value leaves with what it handled. -/
theorem State.Sound.leave {s : State} (hs : s.Sound d)
    (h : s.turn d = .inr (some (j, rest))) : j.WellFormed d := by
  have hevaluate : ∀ {s : State}, s.Sound d → s.evaluate d = .inr (some (j, rest)) →
      j.WellFormed d := by
    intro s hs h
    unfold State.evaluate at h
    split at h
    · obtain ⟨rfl, -⟩ := Prod.mk.inj (Option.some.inj (Sum.inr.inj h))
      exact hs.root
    · split at h <;> cases h
    · split at h
      · split at h
        · split at h <;> cases h
        · cases h
      · cases h
      · cases h
  unfold State.turn at h
  split at h
  · exact hevaluate hs h
  split at h
  · split at h
    · next input _ =>
      refine hevaluate (State.Sound.handleValue (s := { s with input }) ?_
        (.object .nil (List.forall_mem_nil _))) h
      exact ⟨hs.root, hs.frames, hs.lastToken⟩
    · split at h <;> cases h
    · cases h
  · split at h
    · next input _ =>
      refine hevaluate (State.Sound.handleValue (s := { s with input }) ?_ ?_) h
      swap
      · exact .array (List.forall_mem_nil _)
      exact ⟨hs.root, hs.frames, hs.lastToken⟩
    · cases h
  · split at h
    · next value hvalue => exact hevaluate (hs.handleValue (hs.lastToken _ hvalue)) h
    · cases h

/-- **What is parsed** can be written: the members of its objects are in the order of
their keys, and its numbers are numbers of 64 bits. -/
theorem wellFormed_of_parse (hd : d.Exact) {bytes : List UInt8} (h : parse d bytes = some j) :
    j.WellFormed d := by
  have hloop : ∀ (s : State), s.Sound d → ∀ result,
      (saxParseInternal d).run s = some result → result.1.WellFormed d := by
    intro s hs
    refine (saxParseInternal d).run_invariant (I := fun s => s.Sound d)
      (Q := fun r => ∀ result, r = some result → result.1.WellFormed d)
      (fun s t hturn hs => hs.turn hd hturn) ?_ hs
    rintro s r hturn hs ⟨j, rest⟩ rfl
    exact hs.leave hturn
  have hfirst : Sound d (Lexer.scanFirst d bytes).1 := by
    unfold Lexer.scanFirst
    split
    · exact sound_scan hd _
    · nofun
  unfold parse at h
  dsimp only at h
  split at h
  · next result input hrun =>
    have hj := hloop _ ⟨.null, List.forall_mem_nil _, hfirst⟩ _ hrun
    refine Lexer.of_ite h (fun h => ?_) nofun
    exact Option.some.inj h ▸ hj
  · cases h

/-- **Texts that arrive are written again.** A value that was parsed is written, with
any indentation up to 1024 and any escapes, as a text that is parsed as the value. -/
theorem parse_dump_parse (d : Doubles) (hd : d.Exact) (bytes : List UInt8) (j : Json)
    (h : parse d bytes = some j) (indent : ℤ) (hindent : indent ≤ 1024) (ensureAscii : Bool) :
    ∃ out, dumpJson d indent ensureAscii j = .ok out ∧ parse d out = some j :=
  ⟨_, dumpJson_ok hindent j, parse_text (wellFormed_of_parse hd h) _ ensureAscii _ 0⟩

/-- A text with spaces is written with other spaces. -/
theorem parse_dump_parse_reference :
    let j := Json.array [.int (-5), .uint (2 ^ 64 - 1), .string "a"]
    ∃ out, dumpJson Reference.doubles 4 false j = .ok out ∧ parse Reference.doubles out = some j :=
  parse_dump_parse Reference.doubles Reference.exact_doubles
    (ascii "[ -5 , 18446744073709551615 ,\"a\"]") _ (by rfl) 4 (by decide) false

end Values

end Parser

end Prawnstar
