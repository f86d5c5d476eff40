import Prawnstar.Lexer

/-!
# Numbers in texts

A number that the serializer writes is scanned to its end and has its value. For an
integer this is its decimal expansion. For a double it is the number that the digits
and the exponent of Grisu2 denote, in whichever of the formats they are printed; that
the double next to it is the one that was written is what Grisu2 is for.
-/

namespace Prawnstar

open Library Serializer

/-- What Grisu2 and `strtod` do for a double: the digits that are found start with
one that is not zero, the exponent fits, and the double next to the number that they
denote is the one that they were found for. -/
structure Doubles.Recovers (d : Doubles) (q : ℚ) : Prop where
  /-- There is a first digit, and it is not zero. -/
  lead : q ≠ 0 → ∃ x xs, (d.grisu2 |q|).1 = x :: xs ∧ 0 < x
  /-- The digits are decimal. -/
  digits : q ≠ 0 → ∀ x ∈ (d.grisu2 |q|).1, x < 10
  /-- The exponent has at most three digits. -/
  exponent : q ≠ 0 → -1000 < (d.grisu2 |q|).1.length + (d.grisu2 |q|).2 - 1 ∧
    (d.grisu2 |q|).1.length + (d.grisu2 |q|).2 - 1 < 1000
  /-- The digits are read as the double. -/
  nearest : q ≠ 0 →
    d.nearest (decimal ((d.grisu2 |q|).1.map digit) * 10 ^ (d.grisu2 |q|).2) = some |q|
  /-- Zero is read as zero. -/
  zero : d.nearest 0 = some 0

namespace Lexer

/-- What may follow a number without becoming a part of it. -/
def EndsNumber (rest : List UInt8) : Prop :=
  ∀ b ∈ rest.head?, ¬IsDigit b ∧ b ≠ 0x2E ∧ b ≠ 0x65 ∧ b ≠ 0x45

section Digits

variable {n : ℕ} {ds rest : List UInt8}

/-- The character of a digit. -/
theorem toNat_digit (h : n < 10) : (digit n).toNat = 0x30 + n :=
  Utf8.toNat_ofNat_byte (by omega)

/-- The character of a digit is one. -/
theorem isDigit_digit (h : n < 10) : IsDigit (digit n) := by
  unfold IsDigit
  rw [toNat_digit h]
  omega

/-- **The loop of `dump_integer`** writes the decimal expansion, without zeros in
front. -/
theorem exists_digitPairs (n : ℕ) (acc : List UInt8) : ∃ b ds,
    digitPairs.run (n, acc) = b :: ds ++ acc ∧ decimal (b :: ds) = n ∧
      (∀ x ∈ b :: ds, IsDigit x) ∧ (0 < n → b ≠ 0x30) := by
  induction n using Nat.strong_induction_on generalizing acc with
  | _ n ih =>
    have hzero : ∀ v, v < 10 → 0 < v → digit v ≠ 0x30 := by
      intro v hv hpos h
      have hvalue := congrArg UInt8.toNat h
      rw [toNat_digit hv] at hvalue
      exact absurd hvalue (by show 0x30 + v ≠ 0x30; omega)
    by_cases hpair : 100 ≤ n
    · have hturn : digitPairs.body (n, acc) =
          .inl (n / 100, digit (n % 100 / 10) :: digit (n % 100 % 10) :: acc) := if_pos hpair
      obtain ⟨b, ds, hrun, hvalue, hdigits, hlead⟩ := ih (n / 100) (by omega)
        (digit (n % 100 / 10) :: digit (n % 100 % 10) :: acc)
      refine ⟨b, ds ++ [digit (n % 100 / 10), digit (n % 100 % 10)], ?_, ?_, ?_, ?_⟩
      · rw [Loop.run_of_inl hturn, hrun]
        simp
      · have hsplit : b :: (ds ++ [digit (n % 100 / 10), digit (n % 100 % 10)]) =
            b :: ds ++ [digit (n % 100 / 10)] ++ [digit (n % 100 % 10)] := by simp
        rw [hsplit, decimal_concat, decimal_concat, hvalue, toNat_digit (by omega),
          toNat_digit (by omega)]
        omega
      · intro x hx
        rcases List.mem_append.mp (List.cons_append ▸ hx : x ∈ b :: ds ++ _) with hx | hx
        · exact hdigits x hx
        · rcases List.mem_pair.mp hx with rfl | rfl
          · exact isDigit_digit (by omega)
          · exact isDigit_digit (by omega)
      · exact fun _ => hlead (by omega)
    by_cases hten : 10 ≤ n
    · have hturn : digitPairs.body (n, acc) = .inr (digit (n / 10) :: digit (n % 10) :: acc) :=
        (if_neg hpair).trans (if_pos hten)
      refine ⟨digit (n / 10), [digit (n % 10)], Loop.run_of_inr hturn, ?_, ?_, ?_⟩
      · rw [decimal_cons, decimal_cons, toNat_digit (by omega), toNat_digit (by omega)]
        simp only [List.length_singleton, List.length_nil, decimal_nil]
        omega
      · intro x hx
        rcases List.mem_pair.mp hx with rfl | rfl
        · exact isDigit_digit (by omega)
        · exact isDigit_digit (by omega)
      · exact fun _ => hzero _ (by omega) (by omega)
    · have hturn : digitPairs.body (n, acc) = .inr (digit n :: acc) :=
        (if_neg hpair).trans (if_neg hten)
      refine ⟨digit n, [], Loop.run_of_inr hturn, ?_, ?_, ?_⟩
      · rw [decimal_cons, toNat_digit (by omega)]
        simp
      · intro x hx
        obtain rfl := List.mem_singleton.mp hx
        exact isDigit_digit (by omega)
      · exact fun hpos => hzero n (by omega) hpos

end Digits

section Scan

variable {d : Doubles} {b : UInt8} {ds buffer rest input : List UInt8}
  {state : NumberState} {numberType : NumberType}

/-- The labels that more digits lead back to. -/
def NumberState.Repeats (state : NumberState) : Prop :=
  state = .any1 ∨ state = .decimal2 ∨ state = .any2

/-- A digit is neither a point nor the mark of an exponent. -/
theorem ne_of_isDigit {x : UInt8} (hb : IsDigit b) (hx : ¬IsDigit x) : b ≠ x := by
  rintro rfl
  exact hx hb

/-- A digit stays at the label. -/
theorem NumberState.next_of_repeats (numberType : NumberType) (hstate : state.Repeats)
    (hb : IsDigit b) :
    state.next b = some state ∧ state.retype numberType = numberType := by
  rcases hstate with rfl | rfl | rfl <;> exact ⟨if_pos hb, rfl⟩

/-- Digits are read at one label. -/
theorem scanNumberFrom_digits (hstate : state.Repeats) (hds : ∀ x ∈ ds, IsDigit x) :
    scanNumberFrom state numberType buffer (ds ++ rest) =
      scanNumberFrom state numberType (buffer ++ ds) rest := by
  induction ds generalizing buffer with
  | nil => rw [List.nil_append, List.append_nil]
  | cons b ds ih =>
    obtain ⟨hnext, htype⟩ := NumberState.next_of_repeats numberType hstate
      (hds b List.mem_cons_self)
    rw [List.cons_append, scanNumberFrom, hnext]
    dsimp only
    rw [htype, ih fun x hx => hds x (List.mem_cons_of_mem b hx), List.append_assoc,
      List.singleton_append]

/-- A number ends before what does not continue it. -/
theorem scanNumberFrom_ends (hdone : state.done = true) (hrest : EndsNumber rest) :
    scanNumberFrom state numberType buffer rest = some (numberType, buffer, rest) := by
  cases rest with
  | nil => rw [scanNumberFrom, if_pos hdone]
  | cons b rest =>
    obtain ⟨hdigit, hpoint, he, he'⟩ := hrest b rfl
    have hnone : state.next b = none := by
      have hexponent : ¬(b = 0x65 ∨ b = 0x45) := not_or.mpr ⟨he, he'⟩
      cases state with
      | minus | decimal1 | exponent | sign => cases hdone
      | zero => simp only [NumberState.next, if_neg hpoint, if_neg hexponent]
      | any1 => simp only [NumberState.next, if_neg hdigit, if_neg hpoint, if_neg hexponent]
      | decimal2 => simp only [NumberState.next, if_neg hdigit, if_neg hexponent]
      | any2 => simp only [NumberState.next, if_neg hdigit]
    rw [scanNumberFrom, hnone]
    dsimp only
    rw [if_pos hdone]

/-- A number starts with a digit or a minus sign. -/
theorem scan_of_number (hb : b = 0x2D ∨ IsDigit b) :
    scan d (b :: input) = scanNumber d b input := by
  have hne : ∀ x : UInt8, x ≠ 0x2D → ¬IsDigit x → b ≠ x := by
    rintro x hminus hdigit rfl
    exact hb.elim hminus hdigit
  have hspace : isWhitespace b = false := by
    have h20 := hne 0x20 (by decide) (by decide)
    have h09 := hne 0x09 (by decide) (by decide)
    have h0a := hne 0x0A (by decide) (by decide)
    have h0d := hne 0x0D (by decide) (by decide)
    simp [isWhitespace, h20, h09, h0a, h0d]
  unfold scan
  rw [List.dropWhile_cons_of_neg (by rw [hspace]; decide)]
  dsimp only
  rw [scanFrom, if_neg (hne _ (by decide) (by decide)), if_neg (hne _ (by decide) (by decide)),
    if_neg (hne _ (by decide) (by decide)), if_neg (hne _ (by decide) (by decide)),
    if_neg (hne _ (by decide) (by decide)), if_neg (hne _ (by decide) (by decide)),
    if_neg (hne _ (by decide) (by decide)), if_neg (hne _ (by decide) (by decide)),
    if_neg (hne _ (by decide) (by decide)), if_neg (hne _ (by decide) (by decide)), if_pos hb]

/-- The digits before the point: a zero, or digits that do not start with one. -/
def Integral (ds : List UInt8) : Prop :=
  ds = [0x30] ∨ ∃ b cs, ds = b :: cs ∧ b ≠ 0x30 ∧ ∀ x ∈ ds, IsDigit x

/-- The digits before the point are digits. -/
theorem Integral.digits (h : Integral ds) : ∀ x ∈ ds, IsDigit x := by
  rcases h with rfl | ⟨b, cs, -, -, hdigits⟩
  · exact List.forall_mem_singleton.mpr (by decide)
  · exact hdigits

/-- The label behind the digits before the point. -/
def labelOf (ds : List UInt8) : NumberState := if ds = [0x30] then .zero else .any1

/-- Digits before the point, behind a minus sign. -/
theorem scanNumberFrom_minus (h : Integral ds) :
    scanNumberFrom .minus numberType buffer (ds ++ rest) =
      scanNumberFrom (labelOf ds) numberType (buffer ++ ds) rest := by
  rcases h with rfl | ⟨b, cs, rfl, hlead, hdigits⟩
  · rfl
  · have hb := hdigits b List.mem_cons_self
    have hnext : NumberState.minus.next b = some .any1 := (if_neg hlead).trans (if_pos hb)
    have hlabel : labelOf (b :: cs) = .any1 := if_neg fun h => hlead (List.cons.inj h).1
    rw [List.cons_append, scanNumberFrom, hnext, hlabel]
    dsimp only [NumberState.retype]
    rw [scanNumberFrom_digits (.inl rfl) fun x hx => hdigits x (List.mem_cons_of_mem b hx),
      List.append_assoc, List.singleton_append]

/-- What stands behind the digits before the point of a double, with the digits
behind the point and the exponent. -/
inductive FloatTail : List UInt8 → List UInt8 → ℤ → Prop
  | fraction {ds : List UInt8} (hne : ds ≠ []) (hds : ∀ x ∈ ds, IsDigit x) :
      FloatTail (0x2E :: ds) ds 0
  | exponent {e : ℤ} (he : -1000 < e ∧ e < 1000) : FloatTail (0x65 :: appendExponent e) [] e
  | both {ds : List UInt8} {e : ℤ} (hne : ds ≠ []) (hds : ∀ x ∈ ds, IsDigit x)
      (he : -1000 < e ∧ e < 1000) : FloatTail (0x2E :: ds ++ 0x65 :: appendExponent e) ds e

/-- An exponent is written as a sign and digits. -/
theorem exists_appendExponent {e : ℤ} (he : -1000 < e ∧ e < 1000) : ∃ sign b cs,
    appendExponent e = sign :: b :: cs ∧
      (sign = 0x2B ∧ 0 ≤ e ∨ sign = 0x2D ∧ e < 0) ∧
      (∀ x ∈ b :: cs, IsDigit x) ∧ decimal (b :: cs) = e.natAbs := by
  have hbound : e.natAbs < 1000 := by omega
  have hdigits : ∃ b cs, (if e.natAbs < 10 then [0x30, digit e.natAbs]
      else if e.natAbs < 100 then [digit (e.natAbs / 10), digit (e.natAbs % 10)]
      else [digit (e.natAbs / 100), digit (e.natAbs % 100 / 10),
        digit (e.natAbs % 100 % 10)]) = b :: cs ∧
        (∀ x ∈ b :: cs, IsDigit x) ∧ decimal (b :: cs) = e.natAbs := by
    generalize e.natAbs = k at hbound ⊢
    split_ifs with hone htwo
    · refine ⟨0x30, [digit k], rfl, ?_, ?_⟩
      · exact List.forall_mem_cons.mpr ⟨by decide,
          List.forall_mem_singleton.mpr (isDigit_digit hone)⟩
      · rw [decimal_cons, decimal_cons, toNat_digit hone]
        simp
    · refine ⟨digit (k / 10), [digit (k % 10)], rfl, ?_, ?_⟩
      · exact List.forall_mem_cons.mpr ⟨isDigit_digit (by omega),
          List.forall_mem_singleton.mpr (isDigit_digit (by omega))⟩
      · rw [decimal_cons, decimal_cons, toNat_digit (by omega), toNat_digit (by omega)]
        simp only [List.length_singleton, List.length_nil, decimal_nil]
        omega
    · refine ⟨digit (k / 100), [digit (k % 100 / 10), digit (k % 100 % 10)], rfl, ?_, ?_⟩
      · exact List.forall_mem_cons.mpr ⟨isDigit_digit (by omega),
          List.forall_mem_cons.mpr ⟨isDigit_digit (by omega),
            List.forall_mem_singleton.mpr (isDigit_digit (by omega))⟩⟩
      · rw [decimal_cons, decimal_cons, decimal_cons, toNat_digit (by omega),
          toNat_digit (by omega), toNat_digit (by omega)]
        simp only [List.length_cons, List.length_nil, decimal_nil]
        omega
  obtain ⟨b, cs, hform, hall, hvalue⟩ := hdigits
  by_cases hneg : e < 0
  · refine ⟨0x2D, b, cs, ?_, .inr ⟨rfl, hneg⟩, hall, hvalue⟩
    rw [appendExponent, if_pos hneg, hform]
    rfl
  · refine ⟨0x2B, b, cs, ?_, .inl ⟨rfl, not_lt.mp hneg⟩, hall, hvalue⟩
    rw [appendExponent, if_neg hneg, hform]
    rfl

/-- The value of an exponent is read back. -/
theorem exponentOf_appendExponent {e : ℤ} (he : -1000 < e ∧ e < 1000) :
    exponentOf (appendExponent e) = e := by
  obtain ⟨sign, b, cs, hform, hsign, -, hvalue⟩ := exists_appendExponent he
  rw [hform]
  rcases hsign with ⟨rfl, hpos⟩ | ⟨rfl, hneg⟩
  · change (decimal (b :: cs) : ℤ) = e
    omega
  · change -(decimal (b :: cs) : ℤ) = e
    omega

/-- An exponent is read to its end. -/
theorem scanNumberFrom_exponent {e : ℤ} (he : -1000 < e ∧ e < 1000) (hrest : EndsNumber rest)
    (hstate : state.next 0x65 = some .exponent) :
    scanNumberFrom state numberType buffer (0x65 :: appendExponent e ++ rest) =
      some (.float, buffer ++ 0x65 :: appendExponent e, rest) := by
  obtain ⟨sign, b, cs, hform, hsign, hdigits, -⟩ := exists_appendExponent he
  have hsign' : NumberState.exponent.next sign = some .sign := by
    rcases hsign with ⟨rfl, -⟩ | ⟨rfl, -⟩ <;> rfl
  have hfirst : NumberState.sign.next b = some .any2 := if_pos (hdigits b List.mem_cons_self)
  rw [hform, List.cons_append, List.cons_append, List.cons_append, scanNumberFrom, hstate]
  dsimp only [NumberState.retype]
  rw [scanNumberFrom, hsign']
  dsimp only [NumberState.retype]
  rw [scanNumberFrom, hfirst]
  dsimp only [NumberState.retype]
  rw [scanNumberFrom_digits (.inr (.inr rfl)) fun x hx => hdigits x (List.mem_cons_of_mem b hx),
    scanNumberFrom_ends rfl hrest]
  simp

/-- The digits behind a point are read. -/
theorem scanNumberFrom_fraction (hne : ds ≠ []) (hds : ∀ x ∈ ds, IsDigit x)
    (hstate : state.next 0x2E = some .decimal1) :
    scanNumberFrom state numberType buffer (0x2E :: ds ++ rest) =
      scanNumberFrom .decimal2 .float (buffer ++ 0x2E :: ds) rest := by
  cases ds with
  | nil => exact absurd rfl hne
  | cons b ds =>
    have hfirst : NumberState.decimal1.next b = some .decimal2 :=
      if_pos (hds b List.mem_cons_self)
    rw [List.cons_append, List.cons_append, scanNumberFrom, hstate]
    dsimp only [NumberState.retype]
    rw [scanNumberFrom, hfirst]
    dsimp only [NumberState.retype]
    rw [scanNumberFrom_digits (.inr (.inl rfl)) fun x hx => hds x (List.mem_cons_of_mem b hx)]
    simp

/-- **The rest of a double** is read to its end. -/
theorem scanNumberFrom_floatTail {tail fraction : List UInt8} {e : ℤ}
    (h : FloatTail tail fraction e) (hrest : EndsNumber rest) :
    scanNumberFrom (labelOf ds) numberType buffer (tail ++ rest) =
      some (.float, buffer ++ tail, rest) := by
  have hpoint : (labelOf ds).next 0x2E = some .decimal1 := by unfold labelOf; split <;> rfl
  have hmark : (labelOf ds).next 0x65 = some .exponent := by unfold labelOf; split <;> rfl
  cases h with
  | fraction hne hds =>
    rw [scanNumberFrom_fraction hne hds hpoint, scanNumberFrom_ends rfl hrest]
  | exponent he => exact scanNumberFrom_exponent he hrest hmark
  | both hne hds he =>
    rw [List.append_assoc, scanNumberFrom_fraction hne hds hpoint,
      scanNumberFrom_exponent he hrest rfl, List.append_assoc]

/-- Digits are taken off the front of a text. -/
theorem spanDigits_append (hds : ∀ x ∈ ds, IsDigit x) (hrest : ∀ x ∈ rest.head?, ¬IsDigit x) :
    spanDigits (ds ++ rest) = (ds, rest) := by
  have htake : rest.takeWhile (fun b => decide (IsDigit b)) = [] := by
    cases rest with
    | nil => rfl
    | cons b rest => exact List.takeWhile_cons_of_neg (by simpa using hrest b rfl)
  have hdrop : rest.dropWhile (fun b => decide (IsDigit b)) = rest := by
    cases rest with
    | nil => rfl
    | cons b rest => exact List.dropWhile_cons_of_neg (by simpa using hrest b rfl)
  have hall : ∀ x ∈ ds, decide (IsDigit x) = true := fun x hx => decide_eq_true (hds x hx)
  unfold spanDigits
  rw [List.takeWhile_append_of_pos hall, List.dropWhile_append_of_pos hall, htake, hdrop,
    List.append_nil]

/-- **The magnitude of a double** that is written is the number of its digits. -/
theorem magnitude_floatTail {tail fraction : List UInt8} {e : ℤ} (hds : ∀ x ∈ ds, IsDigit x)
    (h : FloatTail tail fraction e) : magnitude (ds ++ tail) =
      decimal (ds ++ fraction) * 10 ^ (e - fraction.length) := by
  have hpoint : ∀ t : List UInt8, ∀ x ∈ (0x2E :: t).head?, ¬IsDigit x := by
    rintro t x hx
    obtain rfl := Option.some.inj hx
    decide
  have hmark : ∀ t : List UInt8, ∀ x ∈ (0x65 :: t).head?, ¬IsDigit x := by
    rintro t x hx
    obtain rfl := Option.some.inj hx
    decide
  cases h with
  | fraction hne hfraction =>
    have hend : spanDigits (fraction ++ []) = _ := spanDigits_append hfraction (by simp)
    rw [List.append_nil] at hend
    have hsplit : fractionOf (0x2E :: fraction) = (fraction, []) := hend
    unfold magnitude
    rw [spanDigits_append hds (hpoint _)]
    dsimp only
    rw [hsplit]
    rfl
  | exponent he =>
    have hsplit : fractionOf (0x65 :: appendExponent e) = ([], 0x65 :: appendExponent e) := rfl
    unfold magnitude
    rw [spanDigits_append hds (hmark _)]
    dsimp only
    rw [hsplit, exponentAfter, exponentOf_appendExponent he]
  | both hne hfraction he =>
    have hsplit : fractionOf (0x2E :: fraction ++ 0x65 :: appendExponent e) =
        (fraction, 0x65 :: appendExponent e) := spanDigits_append hfraction (hmark _)
    unfold magnitude
    rw [List.cons_append] at hsplit ⊢
    rw [spanDigits_append hds (hpoint _)]
    dsimp only
    rw [hsplit, exponentAfter, exponentOf_appendExponent he]

/-- Digits that start with one that is not zero, and more digits. -/
theorem integral_append {cs : List UInt8} (hlead : ∀ x ∈ ds.head?, x ≠ 0x30) (hne : ds ≠ [])
    (hdigits : ∀ x ∈ ds ++ cs, IsDigit x) : Integral (ds ++ cs) := by
  cases ds with
  | nil => exact absurd rfl hne
  | cons b ds => exact .inr ⟨b, ds ++ cs, rfl, hlead b rfl, hdigits⟩

/-- **The formats of a double.** Whichever is chosen, there are digits before the point
and a rest, and the digits and the exponent denote the number that was given. -/
theorem exists_formatBuffer (e : ℤ) (hne : ds ≠ []) (hlead : ∀ x ∈ ds.head?, x ≠ 0x30)
    (hds : ∀ x ∈ ds, IsDigit x) (he : -1000 < ds.length + e - 1 ∧ ds.length + e - 1 < 1000) :
    ∃ integral tail fraction x, formatBuffer ds e (-4) 15 = integral ++ tail ∧
      Integral integral ∧ FloatTail tail fraction x ∧
      (decimal (integral ++ fraction) : ℚ) * 10 ^ (x - fraction.length) = decimal ds * 10 ^ e := by
  have hpos : 0 < ds.length := List.length_pos_of_ne_nil hne
  have hten : (10 : ℚ) ≠ 0 := by norm_num
  have hzero : ∀ k, ∀ x ∈ List.replicate k (0x30 : UInt8), IsDigit x := by
    intro k x hx
    rw [(List.mem_replicate.mp hx).2]
    decide
  generalize hn : (ds.length + e : ℤ) = n at he
  unfold formatBuffer
  rw [hn]
  by_cases hwhole : (ds.length : ℤ) ≤ n ∧ n ≤ 15
  · rw [if_pos hwhole]
    obtain ⟨k, hk⟩ := Int.eq_ofNat_of_zero_le (by omega : 0 ≤ n - ds.length)
    obtain rfl : e = k := by omega
    refine ⟨ds ++ List.replicate k 0x30, [0x2E, 0x30], [0x30], 0, ?_, ?_,
      .fraction (List.cons_ne_nil _ _) (hzero 1), ?_⟩
    · rw [hk, Int.toNat_natCast]
    · refine integral_append hlead hne fun x hx => ?_
      exact (List.mem_append.mp hx).elim (hds x) (hzero k x)
    · rw [decimal_concat, decimal_append, decimal_replicate_zero, List.length_replicate]
      simp only [List.length_singleton, Nat.cast_one, zero_sub, zpow_neg, zpow_one, zpow_natCast]
      push_cast
      field_simp
      ring
  rw [if_neg hwhole]
  by_cases hsplit : 0 < n ∧ n ≤ 15
  · rw [if_pos hsplit]
    obtain ⟨k, rfl⟩ := Int.eq_ofNat_of_zero_le hsplit.1.le
    have hk : 0 < k ∧ k < ds.length := by omega
    refine ⟨ds.take k, 0x2E :: ds.drop k, ds.drop k, 0, ?_, ?_, .fraction ?_ ?_, ?_⟩
    · simp
    · rw [← List.append_nil (ds.take k)]
      refine integral_append ?_ ?_ fun x hx => ?_
      · rwa [List.head?_take, if_neg (by omega)]
      · simpa using ⟨by omega, hne⟩
      · exact hds x (List.mem_of_mem_take (by simpa using hx))
    · simpa using hk.2
    · exact fun x hx => hds x (List.mem_of_mem_drop hx)
    · rw [List.take_append_drop, List.length_drop, Nat.cast_sub hk.2.le]
      congr 2
      omega
  rw [if_neg hsplit]
  by_cases hsmall : -4 < n ∧ n ≤ 0
  · rw [if_pos hsmall]
    obtain ⟨k, hk⟩ := Int.eq_ofNat_of_zero_le (by omega : 0 ≤ -n)
    refine ⟨[0x30], 0x2E :: (List.replicate k 0x30 ++ ds), List.replicate k 0x30 ++ ds, 0, ?_,
      .inl rfl, .fraction (by simp [hne]) fun x hx => ?_, ?_⟩
    · simp [hk]
    · exact (List.mem_append.mp hx).elim (hzero k x) (hds x)
    · have hvalue : decimal ([0x30] ++ (List.replicate k 0x30 ++ ds)) = decimal ds := by
        rw [decimal_append, decimal_append, decimal_replicate_zero]
        simp [decimal]
      rw [hvalue, List.length_append, List.length_replicate]
      congr 2
      push_cast
      omega
  rw [if_neg hsmall]
  by_cases hsingle : (ds.length : ℤ) = 1
  · rw [if_pos hsingle]
    refine ⟨ds, 0x65 :: appendExponent (n - 1), [], n - 1, ?_, ?_, .exponent he, ?_⟩
    · simp
    · rw [← List.append_nil ds]
      exact integral_append hlead hne (by simpa using hds)
    · rw [List.append_nil]
      congr 2
      simp only [List.length_nil, Nat.cast_zero]
      omega
  · rw [if_neg hsingle]
    refine ⟨ds.take 1, 0x2E :: ds.drop 1 ++ 0x65 :: appendExponent (n - 1), ds.drop 1, n - 1, ?_,
      ?_, .both ?_ ?_ he, ?_⟩
    · simp
    · rw [← List.append_nil (ds.take 1)]
      refine integral_append ?_ ?_ fun x hx => ?_
      · rwa [List.head?_take, if_neg (by decide)]
      · simpa using hne
      · exact hds x (List.mem_of_mem_take (by simpa using hx))
    · have hlong : 1 < ds.length := by omega
      exact List.ne_nil_of_length_pos (by rw [List.length_drop]; omega)
    · exact fun x hx => hds x (List.mem_of_mem_drop hx)
    · rw [List.take_append_drop, List.length_drop, Nat.cast_sub (by omega)]
      congr 2
      omega

/-- What `scan_number` returns for what its labels read. -/
def numberResult (d : Doubles) :
    Option (NumberType × List UInt8 × List UInt8) → Token × List UInt8
  | some (numberType, tokenBuffer, input) => (numberToken d numberType tokenBuffer, input)
  | none => (.parseError, [])

/-- A number without a sign, from its digits before the point on. -/
theorem scan_integral (h : Integral ds) : scan d (ds ++ input) =
    numberResult d (scanNumberFrom (labelOf ds) .unsigned ds input) := by
  rcases h with rfl | ⟨b, cs, rfl, hlead, hdigits⟩
  · exact scan_of_number (.inr (by decide))
  · have hb := hdigits b List.mem_cons_self
    have hlabel : labelOf (b :: cs) = .any1 := if_neg fun h => hlead (List.cons.inj h).1
    have hminus : b ≠ 0x2D := ne_of_isDigit hb (by decide)
    rw [List.cons_append, scan_of_number (.inr hb), scanNumber, if_neg hminus, if_neg hlead,
      hlabel]
    dsimp only [NumberState.retype]
    rw [scanNumberFrom_digits (.inl rfl) fun x hx => hdigits x (List.mem_cons_of_mem b hx)]
    rfl

/-- A number with a sign, from its digits before the point on. -/
theorem scan_minus_integral (h : Integral ds) : scan d (0x2D :: ds ++ input) =
    numberResult d (scanNumberFrom (labelOf ds) .integer (0x2D :: ds) input) := by
  rw [List.cons_append, scan_of_number (.inl rfl), scanNumber, if_pos rfl]
  dsimp only [NumberState.retype]
  rw [scanNumberFrom_minus h]
  rfl

/-- The token of an integer that is written. -/
def integerToken (z : ℤ) : Token := if z < 0 then .valueInteger z else .valueUnsigned z.toNat

/-- **An integer** is scanned as it was written. -/
theorem scan_dumpInteger {z : ℤ} (hlow : -2 ^ 63 ≤ z) (hhigh : z < 2 ^ 64)
    (hrest : EndsNumber rest) : scan d (dumpInteger z ++ rest) = (integerToken z, rest) := by
  have hzero : Integral [0x30] := .inl rfl
  unfold dumpInteger integerToken
  by_cases hz : z = 0
  · rw [if_pos hz, scan_integral hzero, scanNumberFrom_ends rfl hrest, if_neg (by omega), hz]
    rfl
  obtain ⟨b, ds, hrun, hvalue, hdigits, hlead⟩ := exists_digitPairs z.natAbs []
  have hintegral : Integral (b :: ds) := .inr ⟨b, ds, rfl, hlead (by omega), hdigits⟩
  have hdone : (labelOf (b :: ds)).done = true := by unfold labelOf; split <;> rfl
  rw [if_neg hz, hrun, List.append_nil]
  by_cases hneg : z < 0
  · rw [if_pos hneg, if_pos hneg, List.singleton_append, scan_minus_integral hintegral,
      scanNumberFrom_ends hdone hrest]
    simp only [numberResult, numberToken, List.tail_cons, hvalue]
    rw [if_pos (by omega)]
    congr 2
    omega
  · rw [if_neg hneg, if_neg hneg, List.nil_append, scan_integral hintegral,
      scanNumberFrom_ends hdone hrest]
    simp only [numberResult, numberToken, hvalue]
    rw [if_pos (by omega)]
    congr 2
    omega

/-- A text of digits does not start with a sign. -/
theorem head_ne_minus (h : Integral ds) (tail : List UInt8) :
    ∀ text, ds ++ tail ≠ 0x2D :: text := by
  intro text heq
  rcases h with rfl | ⟨b, cs, rfl, -, hdigits⟩
  · cases heq
  · exact absurd (List.cons.inj heq).1 (ne_of_isDigit (hdigits b List.mem_cons_self) (by decide))

/-- `strtod` on a text without a sign. -/
theorem strtod_of_ne_minus {text : List UInt8} (h : ∀ t, text ≠ 0x2D :: t) :
    strtod d text = d.nearest (magnitude text) := by
  unfold strtod
  split
  · exact absurd rfl (h _)
  · rfl

/-- A double is written as its sign, digits and a rest, and they are read as it. -/
theorem exists_toChars {q : ℚ} (hq : d.Recovers q) : ∃ integral tail fraction x,
    toChars d q = (if q < 0 then [0x2D] else []) ++ (integral ++ tail) ∧ Integral integral ∧
      FloatTail tail fraction x ∧
      d.nearest (decimal (integral ++ fraction) * 10 ^ (x - fraction.length)) = some |q| := by
  unfold toChars
  by_cases hzero : q = 0
  · subst hzero
    refine ⟨[0x30], [0x2E, 0x30], [0x30], 0, ?_, .inl rfl,
      .fraction (List.cons_ne_nil _ _) (List.forall_mem_singleton.mpr (by decide)), ?_⟩
    · simp
    · have hmagnitude : decimal ([0x30] ++ [0x30]) = 0 := rfl
      rw [hmagnitude, Nat.cast_zero, zero_mul, abs_zero]
      exact hq.zero
  · obtain ⟨y, ys, hdigits, hlead⟩ := hq.lead hzero
    have hall := hq.digits hzero
    have hexponent := hq.exponent hzero
    have hnearest := hq.nearest hzero
    obtain ⟨integral, tail, fraction, x, hbuffer, hintegral, htail, hvalue⟩ :=
      exists_formatBuffer (d.grisu2 |q|).2
        (show (d.grisu2 |q|).1.map digit ≠ [] by simp [hdigits])
        (by
          rw [hdigits, List.map_cons]
          rintro b hb h
          obtain rfl := Option.some.inj hb
          have hy := toNat_digit (hall y (by simp [hdigits]))
          rw [h] at hy
          exact absurd hy (by change 0x30 ≠ 0x30 + y; omega))
        (by
          intro b hb
          obtain ⟨y, hy, rfl⟩ := List.mem_map.mp hb
          exact isDigit_digit (hall y hy))
        (by rwa [List.length_map])
    refine ⟨integral, tail, fraction, x, ?_, hintegral, htail, ?_⟩
    · rw [if_neg hzero, hbuffer]
    · rw [hvalue, hnearest]

/-- **A double** is scanned as it was written. -/
theorem scan_toChars {q : ℚ} (hq : d.Recovers q) (hrest : EndsNumber rest) :
    scan d (toChars d q ++ rest) = (.valueFloat (some q), rest) := by
  -- Without its sign, the text is digits and the rest of a double, which are read as |q|.
  obtain ⟨integral, tail, fraction, x, hform, hintegral, htail, hvalue⟩ := exists_toChars hq
  have hread := magnitude_floatTail hintegral.digits htail
  rw [hform]
  by_cases hneg : q < 0
  · rw [if_pos hneg, List.append_assoc, List.append_assoc, List.singleton_append,
      ← List.cons_append, scan_minus_integral hintegral, scanNumberFrom_floatTail htail hrest]
    simp only [numberResult, numberToken, List.cons_append, strtod, hread, hvalue, Option.map_some,
      abs_of_neg hneg, neg_neg]
  · rw [if_neg hneg, List.nil_append, List.append_assoc, scan_integral hintegral,
      scanNumberFrom_floatTail htail hrest]
    simp only [numberResult, numberToken]
    rw [strtod_of_ne_minus (head_ne_minus hintegral tail), hread, hvalue,
      abs_of_nonneg (not_lt.mp hneg)]

end Scan

end Lexer

end Prawnstar
