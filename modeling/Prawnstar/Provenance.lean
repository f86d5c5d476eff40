import Prawnstar.ExactlyOnce

/-!
# Where the transactions of a block come from

Nothing reaches the pool but by admission, so in a run from a fresh node every
transaction that waits was handed to `handleTransaction` and admitted in the
state of that call. A forged block holds what waited, after the fee, and the
reward. A received block is appended for its header alone, and carries no such
guarantee.
-/

namespace Prawnstar

open Library

namespace Node

variable {p : Platform} {n : Node}

/-- A transaction that was submitted and admitted in a run. -/
def Submitted (p : Platform) (n : Node) (cs : List Call) (u : Transaction) : Prop :=
  ∃ pre tick broadcast post, cs = pre ++ .handleTransaction tick broadcast u :: post ∧
    (n.calls p pre).Admits p u

/-- What was submitted in a run was submitted in every longer one. -/
theorem Submitted.concat {cs : List Call} {u : Transaction} (h : Submitted p n cs u) (c : Call) :
    Submitted p n (cs ++ [c]) u := by
  obtain ⟨pre, tick, broadcast, post, rfl, hadmits⟩ := h
  exact ⟨pre, tick, broadcast, post ++ [c], by simp, hadmits⟩

/-- What waits after an eviction waited before. -/
theorem mem_pool_settled {u : Transaction} (h : u ∈ (n.settled p).transactionPool) :
    u ∈ n.transactionPool := by
  unfold settled at h
  split at h
  · rw [transactionPool_evict] at h
    split at h
    · cases h
    · exact h
  · exact h

/-- What waits after `forge` waited before. -/
theorem mem_pool_forge {u : Transaction} {tick : Tick}
    (h : u ∈ (n.forge p tick).2.transactionPool) : u ∈ n.transactionPool := by
  rcases forge_cases (p := p) (n := n) tick with he | he | ⟨f, he⟩
  · rw [he] at h
    exact mem_pool_settled h
  · rw [he, transactionPool_forgeBlock] at h
    cases h
  · rw [he] at h
    exact mem_pool_settled h

/-- **One call** brings at most the transaction it admits to the pool. -/
theorem mem_pool_call {c : Call} {u : Transaction} (h : u ∈ (n.call p c).transactionPool) :
    u ∈ n.transactionPool ∨
      ∃ tick broadcast, c = .handleTransaction tick broadcast u ∧ n.Admits p u := by
  refine call_induction (c := c) (n := n) (p := p) (I := fun m => u ∈ m.transactionPool →
    u ∈ n.transactionPool ∨
      ∃ tick broadcast, c = .handleTransaction tick broadcast u ∧ n.Admits p u) ?_ ?_ ?_ ?_ ?_ ?_ h
  · intro tick broadcast t hc hadmits hu
    rw [transactionPool_enqueue, List.mem_append, List.mem_singleton] at hu
    rcases hu with hold | rfl
    · exact Or.inl hold
    · exact Or.inr ⟨tick, broadcast, hc, hadmits⟩
  · exact fun m tick _ _ hm hu => hm (mem_pool_forge hu)
  · intro broadcast b _ _ hu
    rw [transactionPool_append] at hu
    exact Or.inl (TransactionPool.mem_removeFromPool.mp hu).1
  · exact fun _ => Or.inl
  · exact fun _ _ hm => hm
  · exact Or.inl

/-- **Everything that waits was admitted.** -/
theorem submitted_of_mem_pool (hpool : n.transactionPool = []) (cs : List Call) :
    ∀ u ∈ (n.calls p cs).transactionPool, Submitted p n cs u := by
  induction cs using List.reverseRecOn with
  | nil =>
    intro u hu
    change u ∈ n.transactionPool at hu
    rw [hpool] at hu
    cases hu
  | append_singleton cs c ih =>
    intro u hu
    rw [calls, run_concat] at hu
    rcases mem_pool_call hu with hold | ⟨tick, broadcast, rfl, hadmits⟩
    · exact (ih u hold).concat c
    · exact ⟨cs, tick, broadcast, [], rfl, hadmits⟩

/-- Everything that waits where a call runs `forge` was admitted. -/
theorem submitted_of_forging (hpool : n.transactionPool = []) {cs : List Call} {c : Call}
    {m : Node} (hm : (n.calls p cs).forging p c = some m) {u : Transaction}
    (hu : u ∈ m.transactionPool) : Submitted p n (cs ++ [c]) u := by
  rcases forging_eq_some hm with rfl | ⟨tick, broadcast, t, rfl, hadmits, rfl⟩
  · exact (submitted_of_mem_pool hpool cs u hu).concat c
  · rw [transactionPool_enqueue, List.mem_append, List.mem_singleton] at hu
    rcases hu with hold | rfl
    · exact (submitted_of_mem_pool hpool cs u hold).concat _
    · exact ⟨cs, tick, broadcast, [], rfl, hadmits⟩

/-- **Everything in a forged block but the reward was admitted.** -/
theorem submitted_of_created (hstart : n.Fresh) {cs : List Call} {c : Call} {b : Block}
    (hown : c.draws ≠ none)
    (hb : ((n.calls p cs).call p c).blocks = (n.calls p cs).blocks ++ [b]) :
    ∃ (us : List Transaction) (r : Transaction),
      b.transactions = us.map Transaction.deductFee ++ [r] ∧
      r.type = "REWARD" ∧ r.senderAddress = n.exchangeWallet.address ∧
      (us.map Transaction.id).Nodup ∧
      ∀ u ∈ us, u.id ∉ (n.calls p cs).chainIds ∧ Submitted p n (cs ++ [c]) u := by
  obtain ⟨m, tick, -, hm, -, rfl⟩ := created hown hb
  have hidentity : (m.settled p).identity = n.identity := by
    rw [identity_settled, identity_forging hm, identity_calls]
  have hexchange : (m.settled p).exchangeWallet = n.exchangeWallet :=
    congrArg (fun i => i.2.2) hidentity
  have hchain : (m.settled p).chainIds = (n.calls p cs).chainIds := by
    rw [chainIds_settled, chainIds, blocks_of_forging hm, ← chainIds]
  have hseparate : (m.settled p).Separate := ((hstart.separate.calls cs).forging hm).settled
  refine ⟨(m.settled p).transactionPool, (m.settled p).rewardTransaction p tick, rfl, rfl,
    congrArg Wallet.address hexchange, hseparate.nodup, fun u hu => ⟨?_, ?_⟩⟩
  · rw [← hchain]
    exact hseparate.notMem_chainIds u.id (List.mem_map_of_mem hu)
  · exact submitted_of_forging hstart.transactionPool hm (mem_pool_settled hu)

end Node

end Prawnstar
