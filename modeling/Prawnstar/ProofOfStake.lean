import Prawnstar.Platform
import Prawnstar.Library.Bookkeeping

/-!
# Proof of stake

The stakers and the forger lottery of `ProofOfStake.cpp`. The lots are listed
in the iteration order of the stakers' hash table, and the winner is picked by
a pseudo-random index into that list, which is seeded with a string. A negative
number of lots and an empty list both stop the election.
-/

namespace Prawnstar

/-- `ProofOfStake::stakers` -/
abbrev Stakers := Library.Table String ℚ

namespace ProofOfStake

variable (p : Platform)

/-- `ProofOfStake::update` -/
def update (stakers : Stakers) (publicKeyString : String) (stake : ℚ) : Stakers :=
  if publicKeyString ∈ stakers.keys then
    stakers.insert p.placement publicKeyString (stakers.value publicKeyString + stake)
  else stakers.insert p.placement publicKeyString stake

/-- `ProofOfStake::getStake` -/
def getStake (stakers : Stakers) (publicKeyString : String) : ℚ :=
  if publicKeyString ∈ stakers.keys then stakers.value publicKeyString else 0

/-- The number of lots of one staker, before it becomes a vector's size. -/
def lotCount (stake : ℚ) : ℤ :=
  let upperLimit := 500
  let stake := p.toInt stake
  if stake > upperLimit then upperLimit else stake

/-- The lots of the stakers `keys`, in this order. -/
def lotsOf (stakers : Stakers) : List String → Except Fault (List String)
  | [] => .ok []
  | key :: keys =>
    let stake := lotCount p (stakers.value key)
    if stake < 0 then .error .lengthError
    else match lotsOf stakers keys with
      | .ok lots => .ok (List.replicate stake.toNat key ++ lots)
      | .error f => .error f

/-- `ProofOfStake::validatorLots` -/
def validatorLots (stakers : Stakers) : Except Fault (List String) :=
  lotsOf p stakers stakers.keys

/-- A `char` promoted to `uint64_t`. -/
def promoteChar (c : UInt8) : UInt64 :=
  if p.charSigned then c.toInt8.toInt64.toUInt64 else c.toUInt64

/-- `ProofOfStake::fnv1a_hash` -/
def fnv1aHash (text : String) : UInt32 :=
  (text.toUTF8.data.toList.foldl
    (fun hash c => (hash ^^^ promoteChar p c) * 16777619) (2166136261 : UInt64)).toUInt32

/-- `ProofOfStake::lcg_rand` -/
def lcgRand (state : UInt32) : UInt32 := (state.toUInt64 * 279470273 % 0xfffffffb).toUInt32

/-- `ProofOfStake::winnerLot` -/
def winnerLot (lots : List String) (seed : String) : Except Fault String :=
  if h : lots = [] then .error .divisionByZero
  else .ok (lots.get ⟨(lcgRand (fnv1aHash p seed)).toNat % lots.length,
    Nat.mod_lt _ (List.length_pos_iff.mpr h)⟩)

/-- `ProofOfStake::forger` -/
def forger (stakers : Stakers) (lastBlockHash : String) : Except Fault String :=
  match validatorLots p stakers with
  | .ok lots => winnerLot p lots lastBlockHash
  | .error f => .error f

variable {p}

/-- An update adds to the stake of its key, whether or not the key was there. -/
theorem update_eq (stakers : Stakers) (key : String) (stake : ℚ) :
    update p stakers key stake = stakers.insert p.placement key (stakers.value key + stake) := by
  unfold update
  split
  · rfl
  · next h => rw [stakers.value_eq_zero key h, zero_add]

/-- An update is an entry booked to the stakes, where every key counts as registered. -/
theorem value_update (stakers : Stakers) (key : String) (stake : ℚ) :
    (update p stakers key stake).value =
      Library.book (fun _ => true) stakers.value (key, stake) := by
  funext k
  rw [update_eq, Library.Table.value_insert, Library.book_apply, if_pos rfl]
  by_cases hk : k = key
  · simp [hk]
  · simp [hk, Ne.symm hk]

/-- The stake of a key that has none is zero. -/
theorem getStake_eq_value (stakers : Stakers) (key : String) :
    getStake stakers key = stakers.value key := by
  unfold getStake
  split
  · rfl
  · next h => exact (stakers.value_eq_zero key h).symm

/-- Every lot names a key with at least one lot. -/
theorem lotCount_pos_of_mem {stakers : Stakers} {keys lots : List String} {key : String}
    (hok : lotsOf p stakers keys = .ok lots) (hkey : key ∈ lots) :
    key ∈ keys ∧ 0 < lotCount p (stakers.value key) := by
  induction keys generalizing lots with
  | nil =>
    have hlots : [] = lots := by simpa only [lotsOf, Except.ok.injEq] using hok
    simp [← hlots] at hkey
  | cons k keys ih =>
    by_cases hneg : lotCount p (stakers.value k) < 0
    · simp [lotsOf, if_pos hneg] at hok
    · cases hrest : lotsOf p stakers keys with
      | error f => simp [lotsOf, hneg, hrest] at hok
      | ok rest =>
        have hlots : List.replicate (lotCount p (stakers.value k)).toNat k ++ rest = lots := by
          simpa [lotsOf, hneg, hrest] using hok
        rw [← hlots, List.mem_append] at hkey
        rcases hkey with hfirst | hlater
        · obtain ⟨hcount, rfl⟩ := List.mem_replicate.mp hfirst
          exact ⟨List.mem_cons_self, by omega⟩
        · obtain ⟨hmem, hpos⟩ := ih hrest hlater
          exact ⟨List.mem_cons_of_mem _ hmem, hpos⟩

/-- The elected forger is a staker with at least one lot. -/
theorem forger_mem {stakers : Stakers} {seed key : String}
    (hok : forger p stakers seed = .ok key) :
    key ∈ stakers.keys ∧ 0 < lotCount p (stakers.value key) := by
  unfold forger at hok
  cases hlots : validatorLots p stakers with
  | error f => simp [hlots] at hok
  | ok lots =>
    simp only [hlots, winnerLot] at hok
    split at hok
    · cases hok
    · next hne =>
      have hkey := Except.ok.inj hok
      exact lotCount_pos_of_mem hlots (hkey ▸ List.get_mem _ _)

end ProofOfStake

end Prawnstar
