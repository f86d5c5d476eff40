import Prawnstar.Booking
import Prawnstar.DeliveryOrder

/-!
# The node that is elected

What `forge` makes of the pool on the node that the election names. It forges the
whole pool, unless more than a hundred transactions wait: then the node takes
itself for unreachable and evicts itself, the genesis node apart. A node that is
elected every time never gets there, because it forges as soon as twenty
transactions wait.
-/

namespace Prawnstar

open Library

namespace TransactionPool

/-- A pool requires no forger when it is short and holds nothing that is urgent. -/
theorem forgerRequired_eq_false_iff {transactions : List Transaction} :
    forgerRequired transactions = false ↔ transactions.length ≤ 19 ∧
      ∀ t ∈ transactions, t.type ≠ "EXCHANGE" ∧ t.type ≠ "STAKE" := by
  simp only [forgerRequired, Bool.or_eq_false_iff, List.any_eq_false, Bool.or_eq_true, beq_iff_eq,
    not_or, decide_eq_false_iff_not, ge_iff_le, not_le]
  rw [and_comm, Nat.lt_succ_iff]

/-- A pool that holds an EXCHANGE or a STAKE requires a forger. -/
theorem forgerRequired_of_mem {transactions : List Transaction} {t : Transaction}
    (ht : t ∈ transactions) (htype : t.type = "EXCHANGE" ∨ t.type = "STAKE") :
    forgerRequired transactions = true := by
  by_contra hfalse
  obtain ⟨hexchange, hstake⟩ :=
    (forgerRequired_eq_false_iff.mp (Bool.eq_false_of_not_eq_true hfalse)).2 t ht
  rcases htype with h | h
  · exact hexchange h
  · exact hstake h

end TransactionPool

namespace Node

variable {p : Platform} {n m : Node}

/-- A block that is accepted and not sent on is appended. -/
theorem call_of_accepts {b : Block} (h : n.Accepts p b) :
    n.call p (.handleBlock false b) = n.append p b := by
  simp only [call, handleBlock_of_accepts h, Bool.false_eq_true, if_false]

section WholePool

/-- **Forging the whole pool**: one block is appended, which holds the pool's
transactions in order, after their fees, and a REWARD; the pool is empty, and the
node is a staker still. -/
structure ForgesWholePool (p : Platform) (n : Node) (tick : Tick) : Prop where
  /-- The call returns. -/
  returns : (n.forge p tick).1 = .ok ()
  /-- The pool is the new block. -/
  blocks : ∃ b reward, (n.forge p tick).2.blocks = n.blocks ++ [b] ∧
    b.transactions = n.transactionPool.map Transaction.deductFee ++ [reward] ∧
    reward.type = "REWARD"
  /-- Nothing waits. -/
  transactionPool : (n.forge p tick).2.transactionPool = []
  /-- The node is a staker. -/
  staker : n.nodeWallet.walletPublicKey ∈ (n.forge p tick).2.stakers.keys

/-- Forging keeps the stakers. -/
theorem mem_keys_forgeBlock {k : String} (tick : Tick) (hk : k ∈ n.stakers.keys) :
    k ∈ (n.forgeBlock p tick).stakers.keys := by
  rw [ProofOfStake.stakers_forgeBlock, ProofOfStake.mem_keys_executes]
  exact Or.inl hk

/-- A node that is elected and kept forges the whole pool. -/
theorem forgesWholePool_of_kept (helected : n.nextForger p = .ok n.nodeWallet.walletPublicKey)
    (hkeep : n.evictee p = none) (tick : Tick) : n.ForgesWholePool p tick := by
  have hforge : n.forge p tick = (.ok (), n.forgeBlock p tick) := by
    rw [forge_eq, settled_of_none hkeep, helected]
    exact congrArg (Prod.mk (Except.ok ())) (if_pos rfl)
  constructor
  · rw [hforge]
  · refine ⟨n.forgedBlock p tick, n.rewardTransaction p tick, ?_, rfl, rfl⟩
    rw [hforge]
    exact blocks_forgeBlock p n tick
  · rw [hforge]
    exact transactionPool_forgeBlock p n tick
  · rw [hforge]
    exact mem_keys_forgeBlock tick (ProofOfStake.forger_mem helected).1

/-- **A node that evicts itself** is no staker any more, so it cannot be elected
again, and appends no block. -/
theorem forge_of_self_evicted (hself : n.evictee p = some n.nodeWallet.walletPublicKey)
    (tick : Tick) : (n.forge p tick).2.blocks = n.blocks ∧
      n.nodeWallet.walletPublicKey ∉ (n.forge p tick).2.stakers.keys := by
  have hstakers : (n.settled p).stakers = n.stakers.erase n.nodeWallet.walletPublicKey := by
    rw [settled_of_some hself, stakers_evict]
  have hgone : n.nodeWallet.walletPublicKey ∉ (n.settled p).stakers.keys := by
    rw [hstakers]
    exact fun h => (Table.mem_keys_erase.mp h).2 rfl
  have hwallet : (n.settled p).nodeWallet = n.nodeWallet := nodeWallet_of_identity identity_settled
  have hforge : (n.forge p tick).2 = n.settled p ∨
      ∃ f, (n.forge p tick).2 = (n.settled p).registerForger p f := by
    rw [forge_eq]
    cases hnext : (n.settled p).nextForger p with
    | error f => exact Or.inl rfl
    | ok f =>
      have hother : f ≠ (n.settled p).nodeWallet.walletPublicKey := by
        rintro rfl
        rw [hwallet] at hnext
        exact hgone (ProofOfStake.forger_mem hnext).1
      exact Or.inr ⟨f, if_neg hother⟩
  rcases hforge with he | ⟨f, he⟩
  · rw [he]
    exact ⟨blocks_settled, hgone⟩
  · rw [he]
    exact ⟨blocks_settled (p := p) (n := n), hgone⟩

/-- The elected node forges the whole pool unless it evicts itself. -/
theorem forgesWholePool_iff_evictee
    (helected : n.nextForger p = .ok n.nodeWallet.walletPublicKey) (tick : Tick) :
    n.ForgesWholePool p tick ↔ n.evictee p = none := by
  constructor
  · intro hforges
    cases hevictee : n.evictee p with
    | none => rfl
    | some f =>
      obtain rfl : f = n.nodeWallet.walletPublicKey :=
        Except.ok.inj ((evictee_eq_some.mp hevictee).1.symm.trans helected)
      exact absurd hforges.staker (forge_of_self_evicted hevictee tick).2
  · exact fun hkeep => forgesWholePool_of_kept helected hkeep tick

/-- **The elected node forges the whole pool** exactly when at most a hundred
transactions wait or it is the genesis node. Otherwise it appends nothing and is no
staker afterwards. -/
theorem forges_whole_pool_iff (p : Platform) (n : Node)
    (helected : n.nextForger p = .ok n.nodeWallet.walletPublicKey) (tick : Tick) :
    (n.ForgesWholePool p tick ↔ n.transactionPool.length ≤ 100 ∨
      n.nodeWallet.walletPublicKey = n.genesisNodeStake) ∧
    (¬n.ForgesWholePool p tick → (n.forge p tick).2.blocks = n.blocks ∧
      n.nodeWallet.walletPublicKey ∉ (n.forge p tick).2.stakers.keys) := by
  have hiff := forgesWholePool_iff_evictee helected tick
  constructor
  · rw [hiff]
    constructor
    · intro hkeep
      by_contra hlong
      rw [not_or, not_le] at hlong
      rw [evictee_eq_some.mpr ⟨helected, hlong⟩] at hkeep
      cases hkeep
    · exact evictee_eq_none helected
  · intro hfails
    obtain ⟨f, hf⟩ := Option.ne_none_iff_exists'.mp (mt hiff.mpr hfails)
    obtain rfl : f = n.nodeWallet.walletPublicKey :=
      Except.ok.inj ((evictee_eq_some.mp hf).1.symm.trans helected)
    exact forge_of_self_evicted hf tick

end WholePool

end Node

namespace Reference

/-- A block of the genesis node as the node of the wallet `n` decodes it. -/
def decoded (i : ℕ) : Block :=
  ((staked.blocks.drop i).headD Block.genesis).keyed (node 10002).keyOf

/-- The node of the wallet `n` before it has the block with its stake. -/
def unstaked : Node := (node 10002).calls platform [.handleBlock false (decoded 1)]

/-- The node of the wallet `n` with 101 transfers that wait, and the block with its
stake after them. -/
def waiting : Node := unstaked.calls platform
  (((List.range 101).map transfer).map (.handleTransaction (tick 3) true ·))

/-- The genesis node is elected before the stake and the node itself after it. -/
theorem unstaked_spec : (unstaked.nextForger platform = .ok unstaked.genesisNodeStake ∧
      unstaked.genesisNodeStake ≠ unstaked.nodeWallet.walletPublicKey) ∧
    unstaked.transactionPool = [] ∧ (∀ id ∈ unstaked.chainIds, id ∈ staked.chainIds) ∧
    unstaked.getBalance (wallet "n").address ≥ 1 ∧ unstaked.Accepts platform (decoded 2) ∧
    unstaked.accountModel.addressToPublicKey (cStr (decoded 2).forgerAddress) = some "PUBg" ∧
    (∀ id ∈ (decoded 2).ids, id ∈ staked.chainIds) ∧
    (unstaked.append platform (decoded 2)).nextForger platform =
      .ok unstaked.nodeWallet.walletPublicKey := by
  decide +kernel

/-- The transfers wait, since the genesis node is not evicted. -/
theorem queued_waiting : unstaked.Queued ((List.range 101).map transfer) waiting := by
  obtain ⟨⟨hforger, hother⟩, hpool, hids, hbalance, -⟩ := unstaked_spec
  exact Node.Queued.calls hforger hother (waiting_transfers_of hpool hids hbalance 101)
    (Or.inr rfl) (tick 3) true

/-- The key of the genesis node is registered while the transfers wait. -/
theorem key_waiting :
    waiting.accountModel.addressToPublicKey (cStr (decoded 2).forgerAddress) = some "PUBg" := by
  obtain ⟨-, -, -, -, -, hkey, -⟩ := unstaked_spec
  obtain ⟨cs, hrun⟩ : ∃ cs, waiting = unstaked.calls platform cs := ⟨_, rfl⟩
  rw [hrun]
  exact Node.calls_of_eq_some hkey cs

section Elected

variable {m : Node} (h : unstaked.Queued ((List.range 101).map transfer) m)

include h

/-- The block with the stake is appended. -/
theorem accepts_of_queued
    (hkey : m.accountModel.addressToPublicKey (cStr (decoded 2).forgerAddress) = some "PUBg") :
    m.Accepts platform (decoded 2) := by
  obtain ⟨-, -, -, -, haccepts, hkey', -⟩ := unstaked_spec
  have hforgerKey : m.forgerKey (decoded 2) = unstaked.forgerKey (decoded 2) := by
    unfold Node.forgerKey AccountModel.publicKey
    rw [hkey, hkey']
  unfold Node.Accepts
  rw [h.chain, h.nextForger, hforgerKey]
  exact haccepts

/-- **Elected while transfers wait.** The block with the stake makes the node the next
forger and leaves the transfers in the pool. -/
theorem elected_of_queued :
    (m.append platform (decoded 2)).nextForger platform =
      .ok (m.append platform (decoded 2)).nodeWallet.walletPublicKey ∧
    (m.append platform (decoded 2)).transactionPool = (List.range 101).map transfer ∧
    (m.append platform (decoded 2)).nodeWallet.walletPublicKey ≠
      (m.append platform (decoded 2)).genesisNodeStake := by
  obtain ⟨⟨-, hother⟩, hpool, -, -, -, -, hids, hnext⟩ := unstaked_spec
  have hidentity : (m.append platform (decoded 2)).identity = unstaked.identity := by
    rw [Node.identity_append, h.identity]
  have hforger : (m.append platform (decoded 2)).nextForger platform =
      (unstaked.append platform (decoded 2)).nextForger platform := by
    unfold Node.nextForger
    rw [Node.chain_append, Node.chain_append, ProofOfStake.stakers_append,
      ProofOfStake.stakers_append, h.chain, h.stakers]
  refine ⟨?_, ?_, ?_⟩
  · rw [hforger, hnext, Node.nodeWallet_of_identity hidentity]
  · rw [Node.transactionPool_append, h.transactionPool, hpool, List.nil_append]
    refine List.filter_eq_self.mpr fun t ht => ?_
    obtain ⟨i, -, rfl⟩ := List.mem_map.mp ht
    rw [List.all_eq_true]
    intro u hu
    rw [bne_iff_ne]
    intro hsame
    refine transfer_id_notMem i (hids _ ?_)
    rw [hsame]
    exact List.mem_map_of_mem hu
  · rw [Node.nodeWallet_of_identity hidentity, Node.genesisNodeStake_of_identity hidentity]
    exact hother.symm

end Elected

end Reference

namespace Node

/-- The genesis node forges an exchange that waits. -/
theorem forges_whole_pool_reference :
    ((Reference.node 10001).enqueue true (Reference.transaction "e" "a" 9 "EXCHANGE" "x")
      ).ForgesWholePool Reference.platform (Reference.tick 1) :=
  (forges_whole_pool_iff Reference.platform _ (by decide +kernel) _).1.mpr
    (Or.inr (by decide +kernel))

/-- A node on which 101 transfers wait when the block arrives that makes it the next
forger evicts itself. -/
theorem not_forges_whole_pool :
    ∃ cs : List Call, let n := (Reference.node 10002).calls Reference.platform cs
      n.nextForger Reference.platform = .ok n.nodeWallet.walletPublicKey ∧
      n.transactionPool ≠ [] ∧
      ∀ tick, ¬n.ForgesWholePool Reference.platform tick := by
  obtain ⟨helected, hpool, hother⟩ := Reference.elected_of_queued Reference.queued_waiting
  have hcall : Reference.waiting.call Reference.platform (.handleBlock false (Reference.decoded 2))
      = Reference.waiting.append Reference.platform (Reference.decoded 2) := by
    exact call_of_accepts
      (Reference.accepts_of_queued Reference.queued_waiting Reference.key_waiting)
  have hrun : ∃ cs : List Call, (Reference.node 10002).calls Reference.platform cs =
      Reference.waiting.append Reference.platform (Reference.decoded 2) := by
    refine ⟨[.handleBlock false (Reference.decoded 1)] ++ (((List.range 101).map
      Reference.transfer).map (.handleTransaction (Reference.tick 3) true ·)) ++
        [.handleBlock false (Reference.decoded 2)], ?_⟩
    rw [calls, run_append, run_append, run_cons, run_nil]
    exact hcall
  obtain ⟨cs, hcs⟩ := hrun
  refine ⟨cs, ?_⟩
  rw [hcs]
  refine ⟨helected, ?_, fun tick hforges => ?_⟩
  · rw [hpool]
    simp
  · have hkeep := (forgesWholePool_iff_evictee helected tick).mp hforges
    rw [evictee_eq_some.mpr ⟨helected, by simp [hpool], hother⟩] at hkeep
    cases hkeep

section Bounded

variable {p : Platform} {n m : Node} {c : Call}

/-- Where a call runs `forge`, the node itself is elected. -/
def ElectsItself (p : Platform) (n : Node) (c : Call) : Prop :=
  ∀ m ∈ n.forging p c, m.nextForger p = .ok m.nodeWallet.walletPublicKey

instance (n : Node) (c : Call) : Decidable (n.ElectsItself p c) :=
  inferInstanceAs (Decidable (∀ m ∈ n.forging p c, _))

/-- `forge` runs on at most one transaction more than waited. -/
theorem length_forging_le (hm : n.forging p c = some m) :
    m.transactionPool.length ≤ n.transactionPool.length + 1 := by
  rcases forging_eq_some hm with rfl | ⟨_, broadcast, t, -, -, rfl⟩
  · omega
  · rw [transactionPool_enqueue, List.length_append, List.length_singleton]

/-- A call that runs `forge` on a short pool of a node that is elected forges it. -/
theorem call_of_elected (hcalm : TransactionPool.forgerRequired n.transactionPool = false)
    (hm : n.forging p c = some m) (helected : n.ElectsItself p c) :
    m.settled p = m ∧ ∃ tick, n.call p c = m.forgeBlock p tick := by
  have hshort := (TransactionPool.forgerRequired_eq_false_iff.mp hcalm).1
  have hlength := length_forging_le hm
  have hkeep : m.evictee p = none :=
    evictee_eq_none (helected m hm) (Or.inl (by omega))
  obtain ⟨tick, -, hcall⟩ := call_of_forging hm
  exact ⟨settled_of_none hkeep, tick, hcall.trans (forge_of_elected hkeep (helected m hm))⟩

/-- **One call** of a node that is elected leaves a pool that requires no forger. -/
theorem forgerRequired_call (hcalm : TransactionPool.forgerRequired n.transactionPool = false)
    (helected : n.ElectsItself p c) :
    TransactionPool.forgerRequired (n.call p c).transactionPool = false := by
  cases hm : n.forging p c with
  | some m =>
    obtain ⟨-, tick, hcall⟩ := call_of_elected hcalm hm helected
    rw [hcall, transactionPool_forgeBlock]
    rfl
  | none =>
    cases c with
    | handleTransaction tick broadcast t =>
      by_cases hadmits : n.Admits p t
      · by_cases hf : TransactionPool.forgerRequired (n.enqueue broadcast t).transactionPool = true
        · have hsome : n.forging p (.handleTransaction tick broadcast t) =
              some (n.enqueue broadcast t) := if_pos ⟨hadmits, hf⟩
          rw [hsome] at hm
          cases hm
        · rw [call, handleTransaction_of_waits hadmits hf]
          exact Bool.eq_false_of_not_eq_true hf
      · rw [call, handleTransaction_of_not_admits hadmits]
        exact hcalm
    | forge tick => cases hm
    | handleBlock broadcast b =>
      obtain ⟨hshort, hplain⟩ := TransactionPool.forgerRequired_eq_false_iff.mp hcalm
      refine call_induction
        (I := fun m => TransactionPool.forgerRequired m.transactionPool = false)
        ?_ ?_ ?_ (fun _ => hcalm) (fun _ _ h => h) hcalm
      · exact fun _ _ _ hc => by cases hc
      · exact fun _ _ _ hsome => by rw [hm] at hsome; cases hsome
      · intro _ b' _ _
        rw [transactionPool_append, TransactionPool.forgerRequired_eq_false_iff]
        refine ⟨(List.length_filter_le _ _).trans hshort, fun t ht => ?_⟩
        exact hplain t (TransactionPool.mem_removeFromPool.mp ht).1

/-- A run of calls on a node that is elected every time leaves a pool that requires no
forger. -/
theorem forgerRequired_calls {cs : List Call}
    (hcalm : TransactionPool.forgerRequired n.transactionPool = false)
    (helected : Along (Node.call p) (ElectsItself p) n cs) :
    TransactionPool.forgerRequired (n.calls p cs).transactionPool = false :=
  run_invariant (I := fun m => TransactionPool.forgerRequired m.transactionPool = false)
    (fun _ _ hm hc => forgerRequired_call hm hc) hcalm helected

/-- An EXCHANGE or a STAKE that is accepted is in the block that its call forges. -/
theorem mem_last_of_accepted {tick : Tick} {broadcast : Bool} {t : Transaction}
    (hcalm : TransactionPool.forgerRequired n.transactionPool = false)
    (helected : n.ElectsItself p (.handleTransaction tick broadcast t))
    (htype : t.type = "EXCHANGE" ∨ t.type = "STAKE")
    (haccepted : (n.handleTransaction p tick broadcast t).1 = .ok true) :
    t.deductFee ∈ (n.call p (.handleTransaction tick broadcast t)).chain.last.transactions := by
  have hadmits : n.Admits p t := handleTransaction_ne_false_iff.mp (by rw [haccepted]; simp)
  have hmem : t ∈ (n.enqueue broadcast t).transactionPool := by simp
  have hm : n.forging p (.handleTransaction tick broadcast t) = some (n.enqueue broadcast t) :=
    if_pos ⟨hadmits, TransactionPool.forgerRequired_of_mem hmem htype⟩
  obtain ⟨-, k, hcall⟩ := call_of_elected hcalm hm helected
  rw [hcall, chain_forgeBlock, Chain.last_push]
  exact List.mem_append_left _ (List.mem_map_of_mem hmem)

/-- A block that a call forges holds what waited, the transaction of the call and the
reward. -/
theorem length_created {b : Block}
    (hcalm : TransactionPool.forgerRequired n.transactionPool = false)
    (helected : n.ElectsItself p c) (hown : c.draws ≠ none)
    (hb : (n.call p c).blocks = n.blocks ++ [b]) : b.transactions.length ≤ 21 := by
  obtain ⟨m, tick, -, hm, -, rfl⟩ := created hown hb
  obtain ⟨hsettled, -⟩ := call_of_elected hcalm hm helected
  have hshort := (TransactionPool.forgerRequired_eq_false_iff.mp hcalm).1
  have hlength := length_forging_le hm
  have hforged : ((m.settled p).forgedBlock p tick).transactions.length =
      m.transactionPool.length + 1 := by
    rw [hsettled]
    change (m.forgedTransactions p tick).length = _
    rw [forgedTransactions, List.length_append, List.length_map, List.length_singleton]
  omega

/-- **Bounded pool on a forging node.** In every run of calls that starts from an empty
pool, on a node that is elected whenever it runs `forge`: after every call at most 19
transactions wait, and none of them is an EXCHANGE or a STAKE; an EXCHANGE or a STAKE
that is accepted is, after its fee, in the newest block when the call returns; and
every block that the node forges has at most 21 transactions. -/
theorem bounded_pool (p : Platform) (n : Node) (hempty : n.transactionPool = [])
    (cs : List Call) (helected : Along (Node.call p) (ElectsItself p) n cs) :
    (∀ pre, pre <+: cs → (n.calls p pre).transactionPool.length ≤ 19 ∧
      ∀ t ∈ (n.calls p pre).transactionPool, t.type ≠ "EXCHANGE" ∧ t.type ≠ "STAKE") ∧
    (∀ pre tick broadcast t post, cs = pre ++ .handleTransaction tick broadcast t :: post →
      (t.type = "EXCHANGE" ∨ t.type = "STAKE") →
      ((n.calls p pre).handleTransaction p tick broadcast t).1 = .ok true →
      t.deductFee ∈ (n.calls p (pre ++ [.handleTransaction tick broadcast t])
        ).chain.last.transactions) ∧
    (∀ pre c post b, cs = pre ++ c :: post → c.draws ≠ none →
      ((n.calls p pre).call p c).blocks = (n.calls p pre).blocks ++ [b] →
      b.transactions.length ≤ 21) := by
  have hcalm : ∀ pre post, cs = pre ++ post →
      TransactionPool.forgerRequired (n.calls p pre).transactionPool = false := by
    rintro pre post rfl
    refine forgerRequired_calls ?_ (along_append.mp helected).1
    rw [hempty]
    rfl
  refine ⟨?_, ?_, ?_⟩
  · rintro pre ⟨post, hpre⟩
    exact TransactionPool.forgerRequired_eq_false_iff.mp (hcalm pre post hpre.symm)
  · intro pre tick broadcast t post hcs htype haccepted
    rw [calls, run_concat]
    refine mem_last_of_accepted (hcalm pre _ hcs) ?_ htype haccepted
    rw [hcs] at helected
    exact helected.at
  · intro pre c post b hcs hown hb
    refine length_created (hcalm pre _ hcs) ?_ hown hb
    rw [hcs] at helected
    exact helected.at

/-- A transfer waits at the genesis node until an exchange makes it forge both. -/
theorem bounded_pool_reference :
    let cs := [Reference.submit 1 "e" "a" 9 "EXCHANGE" "x",
      Reference.submit 2 "a" "b" 1 "TRANSFER" "y", Reference.submit 3 "e" "b" 5 "EXCHANGE" "z",
      .forge (Reference.tick 4)]
    ∀ pre, pre <+: cs →
      ((Reference.node 10001).calls Reference.platform pre).transactionPool.length ≤ 19 :=
  fun pre hpre => ((bounded_pool Reference.platform (Reference.node 10001)
    (start_fresh _ _ _ _).transactionPool _ (by decide +kernel)).1 pre hpre).1

end Bounded

end Node

end Prawnstar
