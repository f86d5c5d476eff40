import Prawnstar.Provenance
import Mathlib.Algebra.Order.BigOperators.Group.List
import Mathlib.Tactic.Linarith
import Mathlib.Algebra.Order.Field.Basic

/-!
# Spending

What can take money from an account. In a run of transactions and forging the
balance of an address falls only by a transaction that names the address as its
sender, and that was verified under the key it carries, or by a negative amount
sent to it; neither the key nor the sign of the amount is checked against the
address. The balance at admission is compared with one transaction alone, so an
account that has several waiting can fall below zero; it cannot when each
admitted transaction is covered by what the waiting ones leave.
-/

namespace Prawnstar

open Library

namespace Transaction

/-- A fee takes a part of the amount, never its sign. -/
theorem amount_deductFee_nonneg {t : Transaction} (h : 0 ≤ t.amount) : 0 ≤ t.deductFee.amount := by
  unfold deductFee fee
  split
  · change 0 ≤ t.amount - t.amount * (5 / 1000)
    linarith
  · exact h

/-- A transaction takes from its sender alone, unless its amount is negative. -/
theorem booked_balanceEntries_nonneg {t : Transaction} {a : String} (hs : t.senderAddress ≠ a)
    (hr : t.receiverAddress = a → 0 ≤ t.amount) : 0 ≤ booked t.balanceEntries a := by
  unfold balanceEntries
  split
  · split
    · simp [hs]
    · simp
  · by_cases hra : t.receiverAddress = a
    · simpa [hs, hra] using hr hra
    · simp [hs, hra]

/-- A transaction of a positive amount takes from no stake. -/
theorem booked_stakeEntries_nonneg {t : Transaction} (h : 0 ≤ t.amount) (k : String) :
    0 ≤ booked t.stakeEntries k := by
  unfold stakeEntries
  split
  · by_cases hk : t.senderPublicKey = k
    · simpa [hk] using h
    · simp [hk]
  · simp

end Transaction

section Change

variable {ts : List Transaction} {a : String}

/-- Transactions add to a balance what each of them adds. -/
theorem balanceChange_eq_sum (ts : List Transaction) (a : String) :
    balanceChange ts a = (ts.map fun t => booked t.balanceEntries a).sum := booked_flatMap _ _ _

/-- Transactions that each take nothing take nothing together. -/
theorem balanceChange_nonneg (h : ∀ t ∈ ts, 0 ≤ booked t.balanceEntries a) :
    0 ≤ balanceChange ts a := by
  rw [balanceChange_eq_sum]
  refine List.sum_nonneg fun x hx => ?_
  obtain ⟨t, ht, rfl⟩ := List.mem_map.mp hx
  exact h t ht

/-- Where transactions take something, one of them does. -/
theorem exists_of_balanceChange_neg (h : balanceChange ts a < 0) :
    ∃ t ∈ ts, booked t.balanceEntries a < 0 := by
  by_contra hnone
  push Not at hnone
  exact absurd (balanceChange_nonneg hnone) (not_le.mpr h)

/-- Transactions of positive amounts take from no stake. -/
theorem stakeChange_nonneg (h : ∀ t ∈ ts, 0 ≤ t.amount) (k : String) : 0 ≤ stakeChange ts k := by
  unfold stakeChange
  rw [booked_flatMap]
  refine List.sum_nonneg fun x hx => ?_
  obtain ⟨t, ht, rfl⟩ := List.mem_map.mp hx
  exact Transaction.booked_stakeEntries_nonneg (h t ht) k

/-- The reward is what the fees take from the amounts. -/
theorem forgerReward_eq_sum (ts : List Transaction) :
    forgerReward ts = (ts.map fun t => t.amount - t.deductFee.amount).sum := by
  have haux : ∀ (us : List Transaction) (r : ℚ),
      us.foldl (fun reward itx => if itx.type ≠ "STAKE" then reward + itx.fee else reward) r =
        r + (us.map fun t => t.amount - t.deductFee.amount).sum := by
    intro us
    induction us with
    | nil => simp
    | cons u us ih =>
      intro r
      rw [List.foldl_cons, ih, List.map_cons, List.sum_cons]
      unfold Transaction.deductFee
      by_cases hstake : u.type = "STAKE"
      · simp [hstake]
      · simp [hstake, add_assoc]
  rw [forgerReward, haux, zero_add]

/-- The reward for positive amounts is positive. -/
theorem forgerReward_nonneg (h : ∀ t ∈ ts, 0 ≤ t.amount) : 0 ≤ forgerReward ts := by
  rw [forgerReward_eq_sum]
  refine List.sum_nonneg fun x hx => ?_
  obtain ⟨t, ht, rfl⟩ := List.mem_map.mp hx
  have hamount := h t ht
  unfold Transaction.deductFee Transaction.fee
  split
  · change 0 ≤ t.amount - (t.amount - t.amount * (5 / 1000))
    linarith
  · exact (sub_self t.amount).ge

end Change

/-- Truncation of a negative number goes up. -/
theorem num_le_tdiv_mul_den {q : ℚ} (hneg : q < 0) :
    q.num.tdiv q.den ≤ 0 ∧ q.num ≤ q.num.tdiv q.den * q.den := by
  have hnum : 0 ≤ -q.num := by
    have := Rat.num_neg.mpr hneg
    omega
  have hdiv := Int.tdiv_nonneg hnum (Int.natCast_nonneg q.den)
  have hmod := Int.tmod_nonneg (q.den : ℤ) hnum
  have hsplit := Int.mul_tdiv_add_tmod q.num q.den
  rw [Int.neg_tdiv] at hdiv
  rw [Int.neg_tmod] at hmod
  rw [mul_comm] at hsplit
  constructor <;> omega

/-- A negative amount that becomes a positive integer is out of the range of
`int`: its conversion is undefined. -/
theorem lt_of_lotCount_pos {p : Platform} {q : ℚ} (hpos : 0 < ProofOfStake.lotCount p q)
    (hneg : q < 0) : q < -2 ^ 31 := by
  have hint : 0 < p.toInt q := by
    unfold ProofOfStake.lotCount at hpos
    dsimp only at hpos
    split at hpos <;> omega
  obtain ⟨htrunc, hle⟩ := num_le_tdiv_mul_den hneg
  have hout : q.num.tdiv q.den < -2 ^ 31 := by
    by_contra hin
    have hvalue : p.toInt q = q.num.tdiv q.den := if_pos ⟨by omega, by omega⟩
    omega
  have hden : (0 : ℚ) < q.den := by exact_mod_cast q.den_pos
  have hz : ((q.num.tdiv q.den : ℤ) : ℚ) < -2 ^ 31 := by exact_mod_cast hout
  calc q = q.num / q.den := (Rat.num_div_den q).symm
    _ ≤ (q.num.tdiv q.den : ℤ) := by
      rw [div_le_iff₀ hden]
      exact_mod_cast hle
    _ < -2 ^ 31 := hz

namespace Node

variable {p : Platform} {n : Node}

section Decrease

variable {a : String}

/-- A balance falls in an eviction only by a negative stake. -/
theorem evictee_of_decrease (h : (n.settled p).getBalance a < n.getBalance a) :
    ∃ f, n.evictee p = some f ∧ n.stakers.value f < -2 ^ 31 := by
  unfold settled at h
  split at h
  · next f hf =>
    refine ⟨f, hf, ?_⟩
    have helected := (ProofOfStake.forger_mem (evictee_eq_some.mp hf).1).2
    apply lt_of_lotCount_pos helected
    rw [getBalance_evict, book_apply] at h
    split at h
    · split at h
      · linarith
      · linarith
    · exact absurd h (lt_irrefl _)
  · exact absurd h (lt_irrefl _)

/-- A balance falls in forging only by a transaction of the block. -/
theorem forged_of_decrease {tick : Tick} (h : (n.forgeBlock p tick).getBalance a < n.getBalance a) :
    ∃ t ∈ n.forgedTransactions p tick,
      t.senderAddress = a ∨ t.receiverAddress = a ∧ t.amount < 0 := by
  have hneg : balanceChange (n.forgedTransactions p tick) a < 0 := by
    rw [getBalance_forgeBlock] at h
    by_cases ha : a ∈ n.accountModel.accounts
    · rw [getBalance_executeTransactions_apply _ ha] at h
      linarith
    · rw [getBalance, AccountModel.getBalance_of_notMem (by simpa using ha), getBalance,
        AccountModel.getBalance_of_notMem ha] at h
      exact absurd h (lt_irrefl _)
  obtain ⟨t, ht, hbooked⟩ := exists_of_balanceChange_neg hneg
  refine ⟨t, ht, ?_⟩
  by_contra hother
  push Not at hother
  exact absurd (Transaction.booked_balanceEntries_nonneg hother.1 hother.2) (not_le.mpr hbooked)

/-- The balances at the start of `forge` are those before its call. -/
theorem getBalance_of_forging {c : Call} {m : Node} (h : n.forging p c = some m) :
    m.getBalance = n.getBalance := by
  rcases forging_eq_some h with rfl | ⟨_, broadcast, t, -, -, rfl⟩
  · rfl
  · simp only [getBalance, accountModel_enqueue]

/-- **What can take from a balance.** In a run of transactions and forging, a
call lowers a balance only by a transaction of the block it forges, which names
the address as its sender and was verified under the key it carries, or sends
it a negative amount; or by the eviction of a stake below the range of `int`. -/
theorem decrease_cause (p : Platform) (n : Node) (hstart : n.Fresh) (cs : List Call) (c : Call)
    (hown : ∀ d ∈ cs ++ [c], d.draws ≠ none) (a : String)
    (ha : a ≠ n.exchangeWallet.address)
    (hdecrease : ((n.calls p cs).call p c).getBalance a < (n.calls p cs).getBalance a) :
    (∃ b, ((n.calls p cs).call p c).blocks = (n.calls p cs).blocks ++ [b] ∧
      ∃ t ∈ b.transactions,
        (t.senderAddress = a ∧ ∃ u : Transaction, t = u.deductFee ∧ u.verify p ≠ 0) ∨
        (t.receiverAddress = a ∧ t.amount < 0)) ∨
    ∃ m f, (n.calls p cs).forging p c = some m ∧ m.evictee p = some f ∧
      m.stakers.value f < -2 ^ 31 := by
  have hc : c.draws ≠ none := hown c (by simp)
  cases hm : (n.calls p cs).forging p c with
  | none =>
    have hsame : ((n.calls p cs).call p c).getBalance = (n.calls p cs).getBalance := by
      rcases call_of_not_forging hc hm with he | ⟨_, broadcast, t, -, -, he⟩
      · rw [he]
      · simp only [he, getBalance, accountModel_enqueue]
    rw [hsame] at hdecrease
    exact absurd hdecrease (lt_irrefl _)
  | some m =>
    obtain ⟨tick, hdraws, hcall⟩ := call_of_forging hm
    rw [hcall, ← getBalance_of_forging hm] at hdecrease
    by_cases hevict : (m.settled p).getBalance a < m.getBalance a
    · obtain ⟨f, hf, hstake⟩ := evictee_of_decrease hevict
      exact Or.inr ⟨m, f, rfl, hf, hstake⟩
    · left
      have hkept := not_lt.mp hevict
      rcases forge_cases (p := p) (n := m) tick with he | he | ⟨f, he⟩
      · rw [he] at hdecrease
        exact absurd hdecrease hevict
      · rw [he] at hdecrease
        obtain ⟨t, ht, hcause⟩ := forged_of_decrease (lt_of_lt_of_le hdecrease hkept)
        refine ⟨(m.settled p).forgedBlock p tick, ?_, t, ht, ?_⟩
        · rw [hcall, he, blocks_forgeBlock, blocks_settled, blocks_of_forging hm]
        · rcases hcause with hsender | hnegative
          · left
            refine ⟨hsender, ?_⟩
            rcases List.mem_append.mp ht with hcharged | hreward
            · obtain ⟨u, hu, rfl⟩ := List.mem_map.mp hcharged
              obtain ⟨pre, _, _, _, _, hadmits⟩ :=
                submitted_of_forging hstart.transactionPool hm (mem_pool_settled hu)
              exact ⟨u, rfl, hadmits.1⟩
            · have hidentity : (m.settled p).identity = n.identity := by
                rw [identity_settled, identity_forging hm, identity_calls]
              have hexchange : (m.settled p).exchangeWallet = n.exchangeWallet :=
                congrArg (fun i => i.2.2) hidentity
              rw [List.mem_singleton.mp hreward] at hsender
              exact absurd (hexchange ▸ hsender.symm) ha
          · exact Or.inr hnegative
      · rw [he, getBalance_registerForger] at hdecrease
        exact absurd hdecrease hevict

/-- Alice loses what she spends. -/
theorem decrease_cause_reference :
    let n := Reference.node 10001
    let p := Reference.platform
    let cs := [Reference.submit 1 "e" "a" 5 "EXCHANGE" "x",
      Reference.submit 2 "a" "b" 1 "TRANSFER" "y"]
    let c : Call := .forge (Reference.tick 3)
    (∃ b, ((n.calls p cs).call p c).blocks = (n.calls p cs).blocks ++ [b] ∧
      ∃ t ∈ b.transactions,
        (t.senderAddress = (Reference.wallet "a").address ∧
          ∃ u : Transaction, t = u.deductFee ∧ u.verify p ≠ 0) ∨
        (t.receiverAddress = (Reference.wallet "a").address ∧ t.amount < 0)) ∨
    ∃ m f, (n.calls p cs).forging p c = some m ∧ m.evictee p = some f ∧
      m.stakers.value f < -2 ^ 31 :=
  decrease_cause Reference.platform (Reference.node 10001) (start_fresh _ _ _ _) _ _
    (by decide +kernel) _ (by decide +kernel) (by decide +kernel)

/-- The balance of a registered address falls only by a transaction that its
owner signed, with the key of the address. -/
def OnlyOwnerSpends (p : Platform) (n : Node) : Prop :=
  ∀ (cs : List Call) (c : Call), (∀ d ∈ cs ++ [c], d.draws ≠ none) →
    ∀ a ∈ (n.calls p cs).accountModel.accounts, a ≠ n.exchangeWallet.address →
      ((n.calls p cs).call p c).getBalance a < (n.calls p cs).getBalance a →
      ∃ b, ((n.calls p cs).call p c).blocks = (n.calls p cs).blocks ++ [b] ∧
        ∃ t ∈ b.transactions, t.senderAddress = a ∧
          a = "pv1" ++ p.generateAddress t.senderPublicKey ∧
          ∃ u : Transaction, t = u.deductFee ∧ u.verify p ≠ 0

/-- A transaction that Bob signs in the name of Alice. -/
def stolen : Transaction :=
  { Reference.wallet "b" with address := (Reference.wallet "a").address }.createTransaction
    Reference.platform (Reference.wallet "b").address 1 "EXCHANGE" "s" 0 0

/-- A negative amount that Bob sends to Alice. -/
def gift : Transaction := Reference.transaction "b" "a" (-1) "TRANSFER" "g"

/-- Both are genuine signatures under the key they carry. The first lowers the
balance of Alice under the key of Bob; the second lowers it without a
transaction of hers. -/
theorem not_onlyOwnerSpends :
    (stolen.verify Reference.platform = 1 ∧ gift.verify Reference.platform = 1) ∧
    ¬OnlyOwnerSpends Reference.platform (Reference.node 10001) ∧
    let m := (Reference.node 10001).calls Reference.platform
      [.handleTransaction (Reference.tick 1) true gift, .forge (Reference.tick 2)]
    m.getBalance (Reference.wallet "a").address < 0 ∧
      ∀ t ∈ m.blocks.flatMap Block.transactions,
        t.senderAddress ≠ (Reference.wallet "a").address := by
  refine ⟨by decide +kernel, fun h => ?_, by decide +kernel⟩
  obtain ⟨b, hb, t, ht, hsender, hkey, -⟩ := h []
    (.handleTransaction (Reference.tick 1) true stolen) (by decide) (Reference.wallet "a").address
    (by decide +kernel) (by decide +kernel) (by decide +kernel)
  have hforeign : ∀ t ∈ ((Reference.node 10001).call Reference.platform
      (.handleTransaction (Reference.tick 1) true stolen)).blocks.flatMap Block.transactions,
      t.senderAddress = (Reference.wallet "a").address → (Reference.wallet "a").address ≠
        "pv1" ++ Reference.platform.generateAddress t.senderPublicKey := by
    decide +kernel
  have hmem : b ∈ ((Reference.node 10001).call Reference.platform
      (.handleTransaction (Reference.tick 1) true stolen)).blocks := by
    change b ∈ (((Reference.node 10001).calls Reference.platform []).call Reference.platform
      (.handleTransaction (Reference.tick 1) true stolen)).blocks
    rw [hb]
    simp
  exact hforeign t (List.mem_flatMap.mpr ⟨b, hmem, ht⟩) hsender hkey

end Decrease

section Solvency

/-- The balance an address will have once the waiting transactions are executed. -/
def projected (n : Node) (a : String) : ℚ :=
  n.getBalance a + balanceChange (n.transactionPool.map Transaction.deductFee) a

/-- A submission that spends a positive amount, by TRANSFER or STAKE unless the
exchange sends it, or the forging timer. -/
def SpendsPlainly (n : Node) : Call → Prop
  | .handleTransaction _ _ t => 0 < t.amount ∧
      (t.type = "TRANSFER" ∨ t.type = "STAKE" ∨ t.senderAddress = n.exchangeWallet.address)
  | .forge _ => True
  | .handleBlock _ _ => False

/-- An admitted transaction is covered by what the waiting ones leave to its
sender, unless the exchange sends it. -/
def CoversWaiting (p : Platform) (n : Node) : Call → Prop
  | .handleTransaction _ _ t => n.Admits p t → t.senderAddress ≠ n.exchangeWallet.address →
      0 ≤ n.projected t.senderAddress + booked t.deductFee.balanceEntries t.senderAddress
  | _ => True

instance (n : Node) : DecidablePred n.SpendsPlainly
  | .handleTransaction _ _ _ => inferInstanceAs (Decidable (_ ∧ _))
  | .forge _ => isTrue trivial
  | .handleBlock _ _ => isFalse id

instance (p : Platform) (n : Node) : DecidablePred (n.CoversWaiting p)
  | .handleTransaction _ _ _ => inferInstanceAs (Decidable (_ → _))
  | .forge _ => isTrue trivial
  | .handleBlock _ _ => isTrue trivial

/-- No account but the exchange owes anything, now or once the waiting
transactions are executed. -/
structure Solvent (n : Node) : Prop where
  /-- Balances are not negative. -/
  getBalance : ∀ a, a ≠ n.exchangeWallet.address → 0 ≤ n.getBalance a
  /-- Balances stay so when the pool is executed. -/
  projected : ∀ a, a ≠ n.exchangeWallet.address → 0 ≤ n.projected a
  /-- Waiting amounts are not negative. -/
  amount : ∀ t ∈ n.transactionPool, 0 ≤ t.amount
  /-- Stakes are not negative. -/
  stake : ∀ k, 0 ≤ n.stakers.value k

/-- A fresh node owes nothing. -/
theorem Fresh.solvent (h : n.Fresh) : n.Solvent where
  getBalance a _ := by simp [h.getBalance]
  projected a _ := by simp [Node.projected, h.getBalance, h.transactionPool]
  amount t ht := by simp [h.transactionPool] at ht
  stake k := by
    rw [h.stakers, Table.value_single]
    split <;> norm_num

/-- Solvency depends on balances, pool, stakes and the exchange wallet alone. -/
theorem Solvent.of_eq {m : Node} (h : n.Solvent) (hbalance : m.getBalance = n.getBalance)
    (hpool : m.transactionPool = n.transactionPool) (hstakers : m.stakers = n.stakers)
    (hexchange : m.exchangeWallet = n.exchangeWallet) : m.Solvent where
  getBalance a ha := by
    rw [hbalance]
    exact h.getBalance a (hexchange ▸ ha)
  projected a ha := by
    have := h.projected a (hexchange ▸ ha)
    unfold Node.projected at this ⊢
    rwa [hbalance, hpool]
  amount := hpool ▸ h.amount
  stake := hstakers ▸ h.stake

/-- A covered transaction leaves every account solvent. -/
theorem Solvent.enqueue (h : n.Solvent) {broadcast : Bool} {t : Transaction} (ht : 0 < t.amount)
    (hcovered : t.senderAddress ≠ n.exchangeWallet.address →
      0 ≤ n.projected t.senderAddress + booked t.deductFee.balanceEntries t.senderAddress) :
    (n.enqueue broadcast t).Solvent := by
  have hexchange : (n.enqueue broadcast t).exchangeWallet = n.exchangeWallet := by
    cases broadcast <;> rfl
  have hprojected : ∀ a, (n.enqueue broadcast t).projected a =
      n.projected a + booked t.deductFee.balanceEntries a := by
    intro a
    simp only [Node.projected, Node.getBalance, accountModel_enqueue, transactionPool_enqueue,
      List.map_append, List.map_cons, List.map_nil, balanceChange_append, balanceChange_cons,
      balanceChange_nil, add_zero, add_assoc]
  constructor
  · intro a ha
    simpa only [Node.getBalance, accountModel_enqueue] using h.getBalance a (hexchange ▸ ha)
  · intro a ha
    rw [hexchange] at ha
    rw [hprojected]
    by_cases hsender : t.senderAddress = a
    · subst hsender
      exact hcovered ha
    · apply add_nonneg (h.projected a ha)
      refine Transaction.booked_balanceEntries_nonneg (by simpa using hsender) fun _ => ?_
      exact Transaction.amount_deductFee_nonneg ht.le
  · intro u hu
    rw [transactionPool_enqueue, List.mem_append, List.mem_singleton] at hu
    rcases hu with hold | rfl
    · exact h.amount u hold
    · exact ht.le
  · simpa only [stakers_enqueue] using h.stake

/-- A refund and an empty pool leave every account solvent. -/
theorem Solvent.evict (h : n.Solvent) (f : String) : (n.evict p f).Solvent := by
  have hexchange : (n.evict p f).exchangeWallet = n.exchangeWallet :=
    congrArg (fun i => i.2.2) (identity_evict f)
  have hgrows : ∀ a, n.getBalance a ≤ (n.evict p f).getBalance a := by
    intro a
    rw [getBalance_evict, book_apply]
    split
    · have := h.stake f
      split <;> simp [this]
    · exact le_rfl
  constructor
  · intro a ha
    exact (h.getBalance a (hexchange ▸ ha)).trans (hgrows a)
  · intro a ha
    rw [hexchange] at ha
    unfold Node.projected
    rw [transactionPool_evict]
    split
    · simpa using (h.getBalance a ha).trans (hgrows a)
    · exact (h.projected a ha).trans (add_le_add_left (hgrows a) _)
  · intro t ht
    rw [transactionPool_evict] at ht
    split at ht
    · cases ht
    · exact h.amount t ht
  · intro k
    rw [stakers_evict, Table.value_erase]
    split
    · exact le_rfl
    · exact h.stake k

/-- The forged transactions have no negative amount. -/
theorem Solvent.forgedAmounts (h : n.Solvent) {tick : Tick} :
    ∀ t ∈ n.forgedTransactions p tick, 0 ≤ t.amount := by
  intro t ht
  rcases List.mem_append.mp ht with hcharged | hreward
  · obtain ⟨u, hu, rfl⟩ := List.mem_map.mp hcharged
    exact Transaction.amount_deductFee_nonneg (h.amount u hu)
  · rw [List.mem_singleton.mp hreward]
    exact forgerReward_nonneg h.amount

/-- Forging executes what is projected, and the reward takes from the exchange alone. -/
theorem Solvent.forgeBlock (h : n.Solvent) (tick : Tick) : (n.forgeBlock p tick).Solvent := by
  have hexchange : (n.forgeBlock p tick).exchangeWallet = n.exchangeWallet :=
    congrArg (fun i => i.2.2) identity_forgeBlock
  have hbalance : ∀ a, a ≠ n.exchangeWallet.address → 0 ≤ (n.forgeBlock p tick).getBalance a := by
    intro a ha
    rw [getBalance_forgeBlock]
    by_cases hmem : a ∈ n.accountModel.accounts
    · have hreward : 0 ≤ booked (n.rewardTransaction p tick).balanceEntries a :=
        Transaction.booked_balanceEntries_nonneg (Ne.symm ha) fun _ => forgerReward_nonneg h.amount
      have hprojected := h.projected a ha
      unfold Node.projected at hprojected
      rw [getBalance_executeTransactions_apply _ hmem, forgedTransactions, balanceChange_append,
        balanceChange_cons, balanceChange_nil]
      linarith
    · rw [Node.getBalance, AccountModel.getBalance_of_notMem (by simpa using hmem)]
  constructor
  · exact fun a ha => hbalance a (hexchange ▸ ha)
  · intro a ha
    unfold Node.projected
    rw [transactionPool_forgeBlock]
    simpa using hbalance a (hexchange ▸ ha)
  · simp
  · intro k
    rw [stake_forgeBlock, stake_executeTransactions_apply]
    exact add_nonneg (h.stake k) (stakeChange_nonneg h.forgedAmounts k)

/-- **One call** with a covered transaction leaves every account solvent. -/
theorem Solvent.call (h : n.Solvent) {c : Call} (hplain : n.SpendsPlainly c)
    (hcovers : n.CoversWaiting p c) : (n.call p c).Solvent := by
  refine call_induction ?_ ?_ ?_ ?_ ?_ h
  · rintro tick broadcast t rfl hadmits
    exact h.enqueue hplain.1 (hcovers hadmits)
  · intro m tick _ _ hm
    refine forge_induction tick ?_ ?_ ?_ hm
    · exact fun f _ hm => hm.evict f
    · exact fun hm _ => hm.forgeBlock tick
    · exact fun f hm _ => hm.of_eq (getBalance_registerForger p _ f) rfl rfl rfl
  · rintro broadcast b rfl -
    exact hplain.elim
  · intro a
    unfold openWallet
    exact h.of_eq (funext fun _ => AccountModel.getBalance_openWallet) rfl rfl rfl
  · intro m _ hm
    unfold broadcast
    exact hm.of_eq rfl rfl rfl rfl

/-- **No overspending.** In a run from zero balances in which positive amounts
are spent and every admitted transaction is covered by what the waiting ones
leave, no account but the exchange falls below zero. -/
theorem getBalance_nonneg (p : Platform) (n : Node) (hstart : n.Fresh) (cs : List Call)
    (hplain : Along (Node.call p) SpendsPlainly n cs)
    (hcovers : Along (Node.call p) (CoversWaiting p) n cs) (a : String)
    (ha : a ≠ n.exchangeWallet.address) : 0 ≤ (n.calls p cs).getBalance a := by
  have hsolvent : (n.calls p cs).Solvent := by
    refine run_invariant (C := fun m c => m.SpendsPlainly c ∧ m.CoversWaiting p c)
      (fun _ _ hm hc => hm.call hc.1 hc.2) hstart.solvent ?_
    exact hplain.and hcovers
  exact hsolvent.getBalance a (exchangeWallet_calls (p := p) (n := n) cs ▸ ha)

/-- Alice has two transactions waiting and pays both. -/
theorem getBalance_nonneg_reference :
    0 ≤ ((Reference.node 10001).calls Reference.platform
      [Reference.submit 1 "e" "a" 10 "EXCHANGE" "x", Reference.submit 2 "a" "b" 4 "TRANSFER" "y",
        Reference.submit 3 "a" "b" 4 "TRANSFER" "z", .forge (Reference.tick 4)]).getBalance
          (Reference.wallet "a").address :=
  getBalance_nonneg Reference.platform (Reference.node 10001) (start_fresh _ _ _ _) _
    (by decide +kernel) (by decide +kernel) _ (by decide +kernel)

/-- Alice has two transactions waiting, each covered by the whole of what she has. -/
theorem overspent :
    ¬∀ (p : Platform) (n : Node), n.Fresh → ∀ cs : List Call,
      Along (Node.call p) SpendsPlainly n cs → ∀ a, a ≠ n.exchangeWallet.address →
        0 ≤ (n.calls p cs).getBalance a := by
  intro h
  have hnonneg := h Reference.platform (Reference.node 10001) (start_fresh _ _ _ _)
    [Reference.submit 1 "e" "a" 10 "EXCHANGE" "x", Reference.submit 2 "a" "b" 9 "TRANSFER" "y",
      Reference.submit 3 "a" "b" 9 "TRANSFER" "z", .forge (Reference.tick 4)]
    (by decide +kernel) (Reference.wallet "a").address (by decide +kernel)
  exact absurd hnonneg (by decide +kernel)

end Solvency

end Node

end Prawnstar
