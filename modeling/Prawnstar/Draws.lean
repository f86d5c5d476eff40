import Prawnstar.Elections
import Prawnstar.Library.Residues
import Mathlib.Data.Set.Card

/-!
# How the lots follow the stakes, and the draws the lots

A staker has one lot for each whole unit of its stake, and 500 at most. The stake
is converted to an `int` before it is compared with the limit, so a stake from
`2 ^ 31` on is converted out of range first. One lot is then drawn by a hash of
the seed, and over all hashes each key is drawn in proportion to its lots. The hash
is FNV-1a of 32 bits, which the code computes with 64 bits and cuts off at the end.
-/

namespace Prawnstar

open Library

/-- The platform with the given conversion of doubles that are out of the range of
`int`. -/
def Platform.withCast (p : Platform) (c : ℚ → ℤ) : Platform :=
  { p with undefinedCast := fun bits q => if bits = 32 then c q else p.undefinedCast bits q }

namespace ProofOfStake

variable (p : Platform) (s : Stakers)

/-- The lots are the stakes rounded down, 500 at most, and who wins has a stake of
at least 1. -/
def LotsFollowStakes : Prop :=
  (∃ lots, validatorLots p s = .ok lots ∧
    ∀ key, lots.count key = min 500 ⌊s.value key⌋₊) ∧
  ∀ seed key, forger p s seed = .ok key → 1 ≤ s.value key

variable {p s}

/-- A stake that is too large for an `int` is converted out of range. -/
theorem toInt_of_large {x : ℚ} (hlarge : 2 ^ 31 ≤ x) : p.toInt x = p.undefinedCast 32 x := by
  have hlow : 0 ≤ x := le_trans (by norm_num) hlarge
  have htrunc : x.num.tdiv x.den = ⌊x⌋ := by
    rw [Int.tdiv_eq_ediv_of_nonneg (Rat.num_nonneg.mpr hlow), Rat.floor_def']
  have hbound : 2 ^ 31 ≤ ⌊x⌋ := Int.le_floor.mpr (by exact_mod_cast hlarge)
  rw [Platform.toInt, castDouble, htrunc]
  exact if_neg fun h => absurd h.2 (by omega)

/-- A stake that fits an `int` has its whole units as lots, and 500 at most. -/
theorem lotCount_eq_of_small {x : ℚ} (hlow : 0 ≤ x) (hhigh : x < 2 ^ 31) :
    lotCount p x = (min 500 ⌊x⌋₊ : ℕ) := by
  have hfloor := Int.natCast_floor_eq_floor hlow
  unfold lotCount
  dsimp only
  rw [toInt_eq_floor hlow hhigh, ← hfloor]
  split <;> omega

/-- A stake that does not fit has 500 lots exactly when its conversion comes out as
500 or more. -/
theorem lotCount_eq_of_large {x : ℚ} (hlarge : 2 ^ 31 ≤ x) :
    lotCount p x = (min 500 ⌊x⌋₊ : ℕ) ↔ 500 ≤ p.undefinedCast 32 x := by
  have hfloor : 2 ^ 31 ≤ ⌊x⌋₊ := Nat.le_floor (by exact_mod_cast hlarge)
  unfold lotCount
  dsimp only
  rw [toInt_of_large hlarge]
  split <;> omega

/-- Without a negative number of lots, the lots are counted key by key. -/
theorem validatorLots_count_iff {count : String → ℕ}
    (hcount : ∀ key, key ∉ s.keys → count key = 0) :
    (∃ lots, validatorLots p s = .ok lots ∧ ∀ key, lots.count key = count key) ↔
      ∀ key ∈ s.keys, lotCount p (s.value key) = count key := by
  rw [validatorLots_eq]
  constructor
  · rintro ⟨drawn, hok, hdrawn⟩ key hkey
    split at hok
    · cases hok
    · next hdebtor =>
      have hlots := Except.ok.inj hok
      have hkeys := hdrawn key
      rw [← hlots, count_lots s.nodup, if_pos hkey, lotsFor] at hkeys
      have hsign : ¬lotCount p (s.value key) < 0 := fun h => hdebtor ⟨key, hkey, h⟩
      omega
  · intro hall
    have hdebtor : ¬HasDebtor p s := by
      rintro ⟨key, hkey, hneg⟩
      rw [hall key hkey] at hneg
      omega
    refine ⟨_, if_neg hdebtor, fun key => ?_⟩
    rw [count_lots s.nodup]
    split
    · next hkey => rw [lotsFor, hall key hkey, Int.toNat_natCast]
    · next hkey => exact (hcount key hkey).symm

/-- **Only keys with a stake of at least 1 win**, however a stake is converted that
does not fit an `int`. -/
theorem one_le_of_forger (hstakes : ∀ key, 0 ≤ s.value key) {seed key : String}
    (hok : forger p s seed = .ok key) : 1 ≤ s.value key := by
  have hpos := lotCount_pos_iff.mp (forger_mem hok).2
  by_cases hsmall : s.value key < 2 ^ 31
  · rw [toInt_eq_floor (hstakes key) hsmall] at hpos
    exact Int.floor_pos.mp hpos
  · exact le_trans (by norm_num) (not_lt.mp hsmall)

/-- The lots follow the stakes exactly when each stake that does not fit an `int` is
converted to 500 or more. -/
theorem lotsFollowStakes_iff (hstakes : ∀ key, 0 ≤ s.value key) : LotsFollowStakes p s ↔
    ∀ key, 2 ^ 31 ≤ s.value key → 500 ≤ p.undefinedCast 32 (s.value key) := by
  have hnone : ∀ key, key ∉ s.keys → min 500 ⌊s.value key⌋₊ = 0 := by
    intro key hkey
    rw [s.value_eq_zero key hkey, Nat.floor_zero, Nat.min_zero]
  rw [LotsFollowStakes, and_iff_left fun _ _ => one_le_of_forger hstakes,
    validatorLots_count_iff hnone]
  constructor
  · intro hall key hlarge
    have hkey : key ∈ s.keys := by
      by_contra hkey
      rw [s.value_eq_zero key hkey] at hlarge
      norm_num at hlarge
    exact (lotCount_eq_of_large hlarge).mp (hall key hkey)
  · intro hall key _
    by_cases hsmall : s.value key < 2 ^ 31
    · exact lotCount_eq_of_small (hstakes key) hsmall
    · exact (lotCount_eq_of_large (not_lt.mp hsmall)).mpr (hall key (not_lt.mp hsmall))

/-- **Lots follow stakes** that fit an `int`. Whatever the conversion of a double out
of range comes out as, each key has its stake's whole units as lots, 500 at most, and
who wins has a stake of at least 1, exactly when every stake is below `2 ^ 31`; on one
platform, when its conversion makes 500 or more of every other stake. Who wins has a
stake of at least 1 in any case. -/
theorem lots_follow_stakes_iff (p : Platform) (s : Stakers) (hstakes : ∀ key, 0 ≤ s.value key) :
    ((∀ c : ℚ → ℤ, (∀ q, -2 ^ 31 ≤ c q ∧ c q < 2 ^ 31) → LotsFollowStakes (p.withCast c) s) ↔
      ∀ key, s.value key < 2 ^ 31) ∧
    (LotsFollowStakes p s ↔
      ∀ key, 2 ^ 31 ≤ s.value key → 500 ≤ p.undefinedCast 32 (s.value key)) ∧
    ∀ seed key, forger p s seed = .ok key → 1 ≤ s.value key := by
  refine ⟨⟨fun hall key => ?_, fun hsmall c _ => ?_⟩, lotsFollowStakes_iff hstakes,
    fun _ _ => one_le_of_forger hstakes⟩
  · by_contra hlarge
    -- a conversion may come out as the least `int`
    have hleast := hall (fun _ => -2 ^ 31) fun _ => ⟨by norm_num, by norm_num⟩
    have hcast := (lotsFollowStakes_iff hstakes).mp hleast key (not_lt.mp hlarge)
    have hvalue : (p.withCast fun _ => -2 ^ 31).undefinedCast 32 (s.value key) = -2 ^ 31 := by
      simp [Platform.withCast]
    omega
  · refine (lotsFollowStakes_iff hstakes).mpr fun key hlarge => ?_
    exact absurd (hsmall key) (not_lt.mpr hlarge)

/-- The lots of two stakers with a stake of 1. -/
theorem lots_follow_stakes_reference :
    LotsFollowStakes Reference.platform Reference.twoStakers := by
  have hvalue : ∀ key, Reference.twoStakers.value key = 0 ∨
      Reference.twoStakers.value key = 1 := by
    intro key
    rw [Reference.twoStakers, Table.value_insert, Table.value_single]
    split
    · exact Or.inr rfl
    · split
      · exact Or.inr rfl
      · exact Or.inl rfl
  have hstakes : ∀ key, 0 ≤ Reference.twoStakers.value key := by
    intro key
    rcases hvalue key with hkey | hkey <;> rw [hkey]
    norm_num
  refine (lots_follow_stakes_iff Reference.platform _ hstakes).2.1.mpr fun key hlarge => ?_
  rcases hvalue key with hkey | hkey <;> rw [hkey] at hlarge <;> norm_num at hlarge

/-- A stake of `2 ^ 31` is converted to a negative `int`, and a vector of a negative
size ends the election. -/
theorem lots_miss_stake :
    let s : Stakers := Table.single "PUBg" (2 ^ 31)
    (∀ key, 0 ≤ s.value key) ∧ validatorLots Reference.platform s = .error .lengthError ∧
      ¬LotsFollowStakes Reference.platform s := by
  intro s
  have hlots : validatorLots Reference.platform s = .error .lengthError := by decide +kernel
  refine ⟨fun key => ?_, hlots, ?_⟩
  · rw [Table.value_single]
    split <;> norm_num
  · rintro ⟨⟨lots, hok, -⟩, -⟩
    rw [hlots] at hok
    cases hok

section Draws

/-- The lot that a hash of the seed draws. -/
def drawn (lots : List String) (hash : UInt32) : Option String :=
  lots[(lcgRand hash).toNat % lots.length]?

/-- The winner is the lot drawn by the hash of the seed. -/
theorem winnerLot_eq_ok_iff {lots : List String} {seed key : String} :
    winnerLot p lots seed = .ok key ↔ drawn lots (fnv1aHash p seed) = some key := by
  unfold winnerLot drawn
  by_cases hempty : lots = []
  · simp [hempty]
  · rw [dif_neg hempty, List.get_eq_getElem, List.getElem?_eq_getElem, Except.ok.injEq,
      Option.some.injEq]

/-- The generator multiplies without an overflow, and its modulus fits the state. -/
theorem toNat_lcgRand (hash : UInt32) :
    (lcgRand hash).toNat = 279470273 * hash.toNat % 0xfffffffb := by
  have hhash : hash.toNat < 2 ^ 32 := hash.toNat_lt
  have hproduct : (hash.toUInt64 * 279470273).toNat = 279470273 * hash.toNat := by
    rw [UInt64.toNat_mul, UInt32.toNat_toUInt64, Nat.mod_eq_of_lt]
    · exact Nat.mul_comm _ _
    · exact lt_of_lt_of_le (Nat.mul_lt_mul_of_pos_right hhash (by decide)) (by decide)
  have hfits : 279470273 * hash.toNat % 0xfffffffb < 2 ^ 32 :=
    lt_trans (Nat.mod_lt _ (by decide)) (by decide)
  rw [lcgRand, UInt64.toNat_toUInt32, UInt64.toNat_mod, hproduct]
  exact Nat.mod_eq_of_lt hfits

/-- The hashes that draw a key, counted as numbers. -/
theorem ncard_drawn (lots : List String) (key : String) :
    {hash : UInt32 | drawn lots hash = some key}.ncard =
      ((Finset.range (0xfffffffb + 5)).filter fun h =>
        lots[279470273 * h % 0xfffffffb % lots.length]? = some key).card := by
  have himage : UInt32.toNat '' {hash : UInt32 | drawn lots hash = some key} =
      ((Finset.range (0xfffffffb + 5)).filter fun h =>
        lots[279470273 * h % 0xfffffffb % lots.length]? = some key : Finset ℕ) := by
    ext h
    simp only [Set.mem_image, Set.mem_ofPred_eq, Finset.coe_filter, Finset.mem_range, drawn,
      toNat_lcgRand]
    constructor
    · rintro ⟨hash, hdrawn, rfl⟩
      exact ⟨hash.toNat_lt, hdrawn⟩
    · rintro ⟨hlt, hdrawn⟩
      have hnat : (UInt32.ofNat h).toNat = h := UInt32.toNat_ofNat_of_lt' hlt
      exact ⟨UInt32.ofNat h, by rwa [hnat], hnat⟩
  rw [← Set.ncard_coe_finset, ← himage, Set.ncard_image_of_injective]
  exact fun _ _ => UInt32.toNat_inj.mp

/-- **Proportional draws.** The winner is the lot that the hash of the seed draws, and
of the `2 ^ 32` hashes, a key that occupies `c` of `n` lots, in whatever places, is
drawn by at least `c` times the modulus of the generator over `n`, rounded down, and at
most by `c` times that rounded up, and 5 more. -/
theorem draws_proportional (lots : List String) (key : String) :
    (∀ p seed, winnerLot p lots seed = .ok key ↔
      lots[(lcgRand (fnv1aHash p seed)).toNat % lots.length]? = some key) ∧
    lots.count key * (0xfffffffb / lots.length) ≤
      {h : UInt32 | lots[(lcgRand h).toNat % lots.length]? = some key}.ncard ∧
    {h : UInt32 | lots[(lcgRand h).toNat % lots.length]? = some key}.ncard ≤
      lots.count key * (0xfffffffb ⌈/⌉ lots.length) + 5 := by
  have hcoprime : Nat.Coprime 0xfffffffb 279470273 := by decide +kernel
  refine ⟨fun p seed => winnerLot_eq_ok_iff, ?_⟩
  have hcount := ncard_drawn lots key
  unfold drawn at hcount
  rw [hcount]
  exact card_draws_bounds hcoprime 5 lots key

end Draws

section Hash

variable (p)

/-- The loop of `ProofOfStake::fnv1a_hash` over any bytes. -/
def fnv1aBytes (bytes : List UInt8) : UInt32 :=
  (bytes.foldl (fun hash c => (hash ^^^ promoteChar p c) * 16777619)
    (2166136261 : UInt64)).toUInt32

/-- A `char` converted to `uint32_t`. -/
def convertChar (c : UInt8) : UInt32 :=
  if p.charSigned then c.toInt8.toInt32.toUInt32 else c.toUInt32

/-- FNV-1a of 32 bits, with a state of 32 bits. -/
def fnv1a32 (bytes : List UInt8) : UInt32 :=
  bytes.foldl (fun hash c => (hash ^^^ convertChar p c) * 16777619) 2166136261

/-- The hash of a text is that of its bytes. -/
theorem fnv1aHash_eq (text : String) :
    fnv1aHash p text = fnv1aBytes p text.toUTF8.data.toList := rfl

/-- A sign extension that is cut off is one to the width that is left. -/
theorem setWidth_signExtend {w u v : ℕ} (x : BitVec w) (h : v ≤ u) :
    (x.signExtend u).setWidth v = x.signExtend v := by
  ext i hi
  have hwide : i < u := by omega
  rw [BitVec.getElem_setWidth, BitVec.getLsbD_signExtend, BitVec.getElem_signExtend]
  simp only [hwide, decide_true, Bool.true_and]
  split
  · rw [BitVec.getLsbD_eq_getElem]
  · rfl

/-- The low half of a promoted `char` is the converted one, whatever its sign. -/
theorem toUInt32_promoteChar (c : UInt8) : (promoteChar p c).toUInt32 = convertChar p c := by
  unfold promoteChar convertChar
  split
  · have hwidth : 32 ≤ 64 := by omega
    apply UInt32.toBitVec_inj.mp
    exact setWidth_signExtend c.toBitVec hwidth
  · rw [UInt8.toUInt32_toUInt64]

/-- **One byte**: the low half of the state after it depends on the low half before it
alone, since xor and multiplication carry nothing downwards. -/
theorem toUInt32_step (hash : UInt64) (c : UInt8) :
    ((hash ^^^ promoteChar p c) * 16777619).toUInt32 =
      (hash.toUInt32 ^^^ convertChar p c) * 16777619 := by
  rw [UInt64.toUInt32_mul, UInt64.toUInt32_xor, toUInt32_promoteChar]
  rfl

/-- After any bytes, from any state, the low half is what 32 bits compute. -/
theorem toUInt32_foldl (bytes : List UInt8) (hash : UInt64) :
    (bytes.foldl (fun hash c => (hash ^^^ promoteChar p c) * 16777619) hash).toUInt32 =
      bytes.foldl (fun hash c => (hash ^^^ convertChar p c) * 16777619) hash.toUInt32 := by
  induction bytes generalizing hash with
  | nil => rfl
  | cons c bytes ih => rw [List.foldl_cons, List.foldl_cons, ih, toUInt32_step]

/-- **The accumulator of 64 bits** computes FNV-1a of 32 bits: for every byte string, and
whatever the sign of `char`, the hash that is cut off at the end is the one that is kept
to 32 bits at every step. -/
theorem fnv1a_accumulator (p : Platform) :
    (∀ bytes, fnv1aBytes p bytes = fnv1a32 p bytes) ∧
      ∀ text, fnv1aHash p text = fnv1a32 p text.toUTF8.data.toList := by
  have hbytes : ∀ bytes, fnv1aBytes p bytes = fnv1a32 p bytes :=
    fun bytes => toUInt32_foldl p bytes 2166136261
  exact ⟨hbytes, fun text => (fnv1aHash_eq p text).trans (hbytes _)⟩

end Hash

end ProofOfStake

end Prawnstar
