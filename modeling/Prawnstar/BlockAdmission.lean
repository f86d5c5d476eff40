import Prawnstar.Authentication
import Prawnstar.Conservation

/-!
# Block admission

Two paths lead into the ledger. A transaction is checked by its signature, its
id and its coverage before it waits in the pool; a block is checked by its
header alone. What a node forges itself is as strict as its pool, and what it
receives is as strict as the node that forged it.
-/

namespace Prawnstar

open Library

namespace Node

/-- Every transaction but the reward verifies under the key that is registered
for its sender. -/
def SignedBySenders (p : Platform) (n : Node) (b : Block) : Prop :=
  ∀ t ∈ b.transactions, t.type ≠ "REWARD" →
    p.verifySignature (p.hash (t.payload p)) t.signature t.signatureLength
      (n.accountModel.publicKey t.senderAddress) ≠ 0

/-- Every transaction but the reward has an id that is neither on the chain nor
earlier in the block. -/
def FreshIds (n : Node) (b : Block) : Prop :=
  ∀ pre t post, b.transactions = pre ++ t :: post → t.type ≠ "REWARD" →
    t.id ∉ n.chainIds ∧ t.id ∉ pre.map Transaction.id

/-- Every transaction but the reward is covered when those before it are executed. -/
def CoveredInOrder (p : Platform) (n : Node) (b : Block) : Prop :=
  ∀ pre t post, b.transactions = pre ++ t :: post → t.type ≠ "REWARD" → t.type ≠ "EXCHANGE" →
    t.amount ≤ (n.executeTransactions p pre).getBalance t.senderAddress

/-- **Block admission.** A received block is appended for its header: height,
link, elected forger, signature of the block, and that it has transactions.
In a block that a node forges itself, everything but the reward was admitted to
its pool and has an id that is new and occurs once. -/
theorem block_admission (p : Platform) :
    (∀ (n : Node) (broadcast : Bool) (b : Block),
      (n.handleBlock p broadcast b).2.blocks = n.blocks ++ [b] ↔
        n.chain.last.blockCount = b.blockCount - 1 ∧ n.chain.last.hash = b.lastHash ∧
          n.nextForger p = .ok (n.forgerKey b) ∧ b.verify p (n.forgerKey b) ≠ 0 ∧
          b.transactions ≠ []) ∧
    ∀ (n : Node) (cs : List Call) (c : Call) (b : Block), n.Fresh → c.draws ≠ none →
      ((n.calls p cs).call p c).blocks = (n.calls p cs).blocks ++ [b] →
      ∃ (us : List Transaction) (r : Transaction),
        b.transactions = us.map Transaction.deductFee ++ [r] ∧
        r.type = "REWARD" ∧ r.senderAddress = n.exchangeWallet.address ∧
        (us.map Transaction.id).Nodup ∧
        ∀ u ∈ us, u.id ∉ (n.calls p cs).chainIds ∧ Submitted p n (cs ++ [c]) u :=
  ⟨fun _ _ _ => handleBlock_appends_iff, fun _ _ _ _ hstart hown hb =>
    submitted_of_created hstart hown hb⟩

/-- The block that the genesis node forges from a waiting transfer. -/
theorem block_admission_reference :
    let n := Reference.node 10001
    let p := Reference.platform
    let cs := [Reference.submit 1 "e" "a" 5 "EXCHANGE" "x",
      Reference.submit 2 "a" "b" 1 "TRANSFER" "y"]
    let b := ((n.calls p cs).call p (.forge (Reference.tick 3))).chain.last
    ∃ (us : List Transaction) (r : Transaction),
      b.transactions = us.map Transaction.deductFee ++ [r] ∧
      r.type = "REWARD" ∧ r.senderAddress = n.exchangeWallet.address ∧
      (us.map Transaction.id).Nodup ∧
      ∀ u ∈ us, u.id ∉ (n.calls p cs).chainIds ∧
        Submitted p n (cs ++ [.forge (Reference.tick 3)]) u :=
  (block_admission Reference.platform).2 (Reference.node 10001) _ (.forge (Reference.tick 3)) _
    (start_fresh _ _ _ _) (by decide) (by decide +kernel)

/-- A block that the genesis node puts together from the given transactions. -/
def concocted (ts : List Transaction) : Block :=
  (Reference.wallet "g").createBlock Reference.platform (Reference.tick 1) ts Block.genesis.hash 1

/-- Transactions that a pool would refuse: one whose signature is not even a hex
string, one that occurs twice, and one of an account that has nothing. -/
theorem concocted_appended :
    let p := Reference.platform
    let n := Reference.node 10002
    let exchange := Reference.transaction "e" "a" 5 "EXCHANGE" "x"
    let transfer := Reference.transaction "a" "b" 5 "TRANSFER" "y"
    let unsigned := concocted [{ exchange with signature := "zz" }]
    let repeated := concocted [exchange, exchange]
    let uncovered := concocted [transfer]
    ((n.handleBlock p false unsigned).2.blocks = n.blocks ++ [unsigned] ∧
      ¬SignedBySenders p n unsigned) ∧
    ((n.handleBlock p false repeated).2.blocks = n.blocks ++ [repeated] ∧ ¬FreshIds n repeated) ∧
    ((n.handleBlock p false uncovered).2.blocks = n.blocks ++ [uncovered] ∧
      ¬CoveredInOrder p n uncovered) := by
  refine ⟨⟨by decide +kernel, fun h => ?_⟩, ⟨by decide +kernel, fun h => ?_⟩,
    ⟨by decide +kernel, fun h => ?_⟩⟩
  · exact h _ List.mem_cons_self (by decide) (by decide +kernel)
  · exact (h [_] _ [] rfl (by decide)).2 List.mem_cons_self
  · exact absurd (h [] _ [] rfl (by decide) (by decide)) (by decide +kernel)

end Node

end Prawnstar
