import Prawnstar.ForgingNode
import Prawnstar.Elections

/-!
# Draining the pool

The forging timer wakes up again and again, and runs `forge` while transactions wait.
On the genesis node that gets a pool of more than a hundred transactions forged in the
end: each time another staker is elected, that staker is evicted, and nobody but the
genesis node is left after a while. Up to a hundred transactions the same timer waits
for the elected staker forever, and above five hundred they are thrown away.
-/

namespace Prawnstar

open Library

namespace Node

section Polls

variable (p : Platform) (n : Node)

/-- What `SocketCommunication::blockForger` does when it wakes up. -/
def poll (tick : Tick) : Node :=
  if n.transactionPool ≠ [] then (n.forge p tick).2 else n

/-- The node after the forging timer woke up a number of times. -/
abbrev polls (ticks : List Tick) : Node := run (poll p) n ticks

/-- The genesis node while it can be elected and no election fails: it holds a lot,
and no number of lots is negative. -/
structure Anchored : Prop where
  /-- The node is the genesis node. -/
  genesis : n.nodeWallet.walletPublicKey = n.genesisNodeStake
  /-- No stake is negative as an `int`. -/
  nonneg : ∀ k, 0 ≤ p.toInt (n.stakers.value k)
  /-- The genesis node holds a lot. -/
  lot : 0 < p.toInt (n.stakers.value n.genesisNodeStake)

/-- The other stakers that can be elected. -/
def contenders : List String :=
  n.stakers.keys.filter fun k => k ≠ n.genesisNodeStake ∧ 0 < p.toInt (n.stakers.value k)

/-- What an eviction pays back. -/
def refund (f : String) : String × ℚ := ("pv1" ++ p.generateAddress f, n.stakers.value f)

/-- The node `m` is the node `n` after the stakers `fs` were evicted, while others were
elected and registered and nothing was forged. -/
structure Relieved (fs : List String) (m : Node) : Prop where
  /-- The chain is the same. -/
  chain : m.chain = n.chain
  /-- The pool is the same. -/
  transactionPool : m.transactionPool = n.transactionPool
  /-- It is the same node. -/
  identity : m.identity = n.identity
  /-- Nobody was evicted twice. -/
  nodup : fs.Nodup
  /-- Who was evicted could have been elected. -/
  contenders : ∀ f ∈ fs, f ∈ n.contenders p
  /-- Who was evicted has no stake, everybody else has the stake of before. -/
  stakers : ∀ k, m.stakers.value k = if k ∈ fs then 0 else n.stakers.value k
  /-- The accounts are still registered. -/
  accounts : ∀ a ∈ n.accountModel.accounts, a ∈ m.accountModel.accounts
  /-- The address of a wallet is registered when it was. -/
  registered : ∀ key, m.accountModel.accountExists ("pv1" ++ p.generateAddress key) =
    n.accountModel.accountExists ("pv1" ++ p.generateAddress key)
  /-- The stakes were paid back. -/
  getBalance : m.getBalance =
    bookAll n.accountModel.accountExists n.getBalance (fs.map (n.refund p))

end Polls

section Relief

variable {p : Platform} {n m : Node} {fs : List String} {f : String} {tick : Tick}

/-- Who can be elected besides the genesis node. -/
theorem mem_contenders : f ∈ n.contenders p ↔
    f ∈ n.stakers.keys ∧ f ≠ n.genesisNodeStake ∧ 0 < p.toInt (n.stakers.value f) := by
  unfold contenders
  rw [List.mem_filter, decide_eq_true_iff]

/-- Nobody has been evicted yet. -/
theorem Relieved.refl (p : Platform) (n : Node) : n.Relieved p [] n where
  chain := rfl
  transactionPool := rfl
  identity := rfl
  nodup := List.nodup_nil
  contenders := List.forall_mem_nil _
  stakers _ := (if_neg List.not_mem_nil).symm
  accounts _ ha := ha
  registered _ := rfl
  getBalance := rfl

/-- Who can be elected now could be elected before, and was not evicted. -/
theorem Relieved.mem_contenders (h : n.Relieved p fs m) (hf : f ∈ m.contenders p) :
    f ∉ fs ∧ f ∈ n.contenders p := by
  obtain ⟨hkey, hother, hlot⟩ := Node.mem_contenders.mp hf
  have hkept : f ∉ fs := by
    intro hmem
    rw [h.stakers, if_pos hmem, ProofOfStake.toInt_zero] at hlot
    exact absurd hlot (by decide)
  rw [h.stakers, if_neg hkept] at hlot
  refine ⟨hkept, Node.mem_contenders.mpr ⟨?_, ?_, hlot⟩⟩
  · by_contra hnone
    rw [n.stakers.value_eq_zero f hnone, ProofOfStake.toInt_zero] at hlot
    exact absurd hlot (by decide)
  · rwa [← genesisNodeStake_of_identity h.identity]

/-- Evicting somebody who can be elected. -/
theorem Relieved.evict (h : n.Relieved p fs m) (hf : f ∈ m.contenders p)
    (hkeep : m.transactionPool.length ≤ 500) : n.Relieved p (fs ++ [f]) (m.evict p f) where
  chain := (chain_evict p m f).trans h.chain
  transactionPool := by
    rw [transactionPool_evict, if_neg (by omega), h.transactionPool]
  identity := (identity_evict f).trans h.identity
  nodup := by
    refine List.nodup_append.mpr ⟨h.nodup, List.nodup_singleton f, fun g hg g' hg' => ?_⟩
    rintro rfl
    obtain rfl := List.mem_singleton.mp hg'
    exact (h.mem_contenders hf).1 hg
  contenders g hg := by
    rcases List.mem_append.mp hg with hold | hnew
    · exact h.contenders g hold
    · rw [List.mem_singleton.mp hnew]
      exact (h.mem_contenders hf).2
  stakers k := by
    rw [stakers_evict, Table.value_erase, h.stakers]
    by_cases hk : k = f
    · rw [if_pos hk, if_pos (List.mem_append_right _ (List.mem_singleton.mpr hk))]
    · rw [if_neg hk]
      refine if_congr ?_ rfl rfl
      rw [List.mem_append, List.mem_singleton, or_iff_left hk]
  accounts a ha := by
    rw [accounts_evict]
    exact h.accounts a ha
  registered key := by
    rw [AccountModel.accountExists, accounts_evict]
    exact h.registered key
  getBalance := by
    have hstake : m.stakers.value f = n.stakers.value f := by
      rw [h.stakers, if_neg (h.mem_contenders hf).1]
    rw [getBalance_evict, h.getBalance, List.map_append, bookAll_append, hstake]
    -- Whether the address is registered has not changed.
    unfold book
    rw [h.registered f]
    rfl

/-- Registering a forger. -/
theorem Relieved.registerForger (h : n.Relieved p fs m) (f : String) :
    n.Relieved p fs (m.registerForger p f) where
  chain := h.chain
  transactionPool := h.transactionPool
  identity := h.identity
  nodup := h.nodup
  contenders := h.contenders
  stakers := h.stakers
  accounts a ha := AccountModel.mem_accounts_addAccount.mpr (Or.inl (h.accounts a ha))
  registered key := by
    rw [← h.registered key, Bool.eq_iff_iff, AccountModel.accountExists_iff,
      AccountModel.accountExists_iff]
    change _ ∈ (AccountModel.addAccount _ _ _ _).accounts ↔ _
    rw [AccountModel.mem_accounts_addAccount]
    exact or_iff_left (p.pv1_ne_generateAddress key f)
  getBalance := (getBalance_registerForger p m f).trans h.getBalance

/-- Elections go on to return, and the genesis node goes on to hold a lot. -/
theorem Relieved.anchored (h : n.Relieved p fs m) (hn : n.Anchored p) : m.Anchored p where
  genesis := by
    rw [nodeWallet_of_identity h.identity, genesisNodeStake_of_identity h.identity]
    exact hn.genesis
  nonneg k := by
    rw [h.stakers]
    split
    · rw [ProofOfStake.toInt_zero]
    · exact hn.nonneg k
  lot := by
    rw [genesisNodeStake_of_identity h.identity, h.stakers, if_neg]
    · exact hn.lot
    · exact fun hmem => (Node.mem_contenders.mp (h.contenders _ hmem)).2.1 rfl

/-- On the genesis node an election names the node itself or somebody else who holds
a lot. -/
theorem Anchored.nextForger (hn : n.Anchored p) :
    n.nextForger p = .ok n.nodeWallet.walletPublicKey ∨
      ∃ f ∈ n.contenders p, n.nextForger p = .ok f := by
  obtain ⟨f, hf⟩ : ∃ f, n.nextForger p = .ok f :=
    (ProofOfStake.forger_ok_iff _).mpr ⟨hn.nonneg, _, hn.lot⟩
  by_cases hgenesis : f = n.genesisNodeStake
  · left
    rw [hf, hgenesis, hn.genesis]
  · obtain ⟨hkey, hlots⟩ := ProofOfStake.forger_mem hf
    exact Or.inr ⟨f, mem_contenders.mpr
      ⟨hkey, hgenesis, ProofOfStake.lotCount_pos_iff.mp hlots⟩, hf⟩

/-- The genesis node that is elected forges. -/
theorem Anchored.forge_of_elected (hn : n.Anchored p)
    (helected : n.nextForger p = .ok n.nodeWallet.walletPublicKey) (tick : Tick) :
    (n.forge p tick).2 = n.forgeBlock p tick :=
  Node.forge_of_elected (evictee_eq_none helected (Or.inr hn.genesis)) helected

/-- Who is evicted cannot be elected any more. -/
theorem length_contenders_evict (hf : f ∈ n.contenders p) :
    ((n.evict p f).contenders p).length + 1 = (n.contenders p).length := by
  have hsame : (n.evict p f).contenders p = (n.contenders p).erase f := by
    have hgenesis := genesisNodeStake_of_identity (identity_evict (p := p) (n := n) f)
    have hnodup : (n.contenders p).Nodup := n.stakers.nodup.filter _
    rw [hnodup.erase_eq_filter]
    unfold contenders
    rw [stakers_evict, hgenesis, Table.erase, List.filter_filter, List.filter_filter]
    refine List.filter_congr fun k _ => ?_
    by_cases hk : k = f <;> simp [hk]
  rw [hsame]
  exact List.length_erase_add_one hf

end Relief

section Runs

variable {p : Platform} {n m : Node} {fs : List String} {f : String} {tick : Tick}

/-- The node `m` is the node `n` after some stakers were evicted and everything that
waited was forged. -/
def Drained (p : Platform) (n m : Node) : Prop :=
  ∃ fs k tick, n.Relieved p fs k ∧ m = k.forgeBlock p tick

/-- Where nothing waits nothing is done. -/
theorem poll_of_nil (h : n.transactionPool = []) (tick : Tick) : n.poll p tick = n :=
  if_neg fun hne => hne h

/-- Where transactions wait `forge` runs. -/
theorem poll_of_ne_nil (h : n.transactionPool ≠ []) (tick : Tick) :
    n.poll p tick = (n.forge p tick).2 := if_pos h

/-- What was forged stays forged. -/
theorem Drained.poll (h : n.Drained p m) (tick : Tick) : n.Drained p (m.poll p tick) := by
  obtain ⟨fs, k, tick', hk, rfl⟩ := h
  rw [poll_of_nil (transactionPool_forgeBlock p k tick')]
  exact ⟨fs, k, tick', hk, rfl⟩

/-- **A poll** of the genesis node with more than a hundred transactions forges them,
or leaves somebody less who could be elected instead. -/
theorem Relieved.poll (hn : n.Anchored p) (hmore : 100 < n.transactionPool.length)
    (hkeep : n.transactionPool.length ≤ 500) (h : n.Relieved p fs m) (tick : Tick) :
    n.Drained p (m.poll p tick) ∨ ∃ gs, n.Relieved p gs (m.poll p tick) ∧
      ((m.poll p tick).contenders p).length + 1 = (m.contenders p).length ∧
      (m.poll p tick).contenders p ≠ [] := by
  have hm := h.anchored hn
  have hlength : m.transactionPool.length = n.transactionPool.length := by
    rw [h.transactionPool]
  have hwaiting : m.transactionPool ≠ [] := List.ne_nil_of_length_pos (by omega)
  rw [poll_of_ne_nil hwaiting]
  rcases hm.nextForger with hself | ⟨f, hf, hnext⟩
  · rw [hm.forge_of_elected hself]
    exact Or.inl ⟨fs, m, tick, h, rfl⟩
  · have hevictee : m.evictee p = some f :=
      evictee_eq_some.mpr ⟨hnext, by omega, (Node.mem_contenders.mp hf).2.1⟩
    have hless := h.evict hf (by omega)
    rw [forge_eq, settled_of_some hevictee]
    rcases (hless.anchored hn).nextForger with hself | ⟨g, hg, hnext⟩
    · left
      refine ⟨fs ++ [f], m.evict p f, tick, hless, ?_⟩
      rw [hself]
      exact if_pos rfl
    · right
      have hother : g ≠ (m.evict p f).nodeWallet.walletPublicKey := by
        rw [(hless.anchored hn).genesis]
        exact (Node.mem_contenders.mp hg).2.1
      have hregister : (m.evict p f).forgeAs p tick g = (m.evict p f).registerForger p g :=
        if_neg hother
      rw [hnext]
      dsimp only
      rw [hregister]
      exact ⟨fs ++ [f], hless.registerForger g, length_contenders_evict hf,
        List.ne_nil_of_mem hg⟩

/-- **The genesis node drains its pool** in as many polls as there are others who can
be elected, and in one if there is nobody. -/
theorem Anchored.drained (hn : n.Anchored p) (hmore : 100 < n.transactionPool.length)
    (hkeep : n.transactionPool.length ≤ 500) {ticks : List Tick} (hone : ticks ≠ [])
    (hticks : (n.contenders p).length ≤ ticks.length) : n.Drained p (n.polls p ticks) := by
  refine run_progress (I := fun m => ∃ fs, n.Relieved p fs m)
    (fun m => (m.contenders p).length - 1) ?_ (fun m tick h => h.poll tick)
    ⟨[], Relieved.refl p n⟩ ?_
  · rintro m tick ⟨fs, h⟩
    refine (h.poll hn hmore hkeep tick).imp_right fun ⟨gs, hgs, hless, hsome⟩ => ⟨⟨gs, hgs⟩, ?_⟩
    have hpos := List.length_pos_iff.mpr hsome
    omega
  · have hpos := List.length_pos_iff.mpr hone
    omega

/-- What is left after the pool was drained. -/
theorem Drained.transactionPool (h : n.Drained p m) : m.transactionPool = [] := by
  obtain ⟨fs, k, tick, -, rfl⟩ := h
  exact transactionPool_forgeBlock p k tick

/-- **A clogged pool is drained.** Let between 100 and 500 transactions wait at the
genesis node, which holds a lot. After as many polls as there are others who can be
elected, and at least one, the chain is one block longer. The block holds everything
that waited and a REWARD, and nothing waits any more. The stakers who were evicted for
it, each one once, have their stakes back on their accounts; beyond that stakes and
balances have changed by the block alone. -/
theorem polls_drain (p : Platform) (n : Node) (hn : n.Anchored p)
    (hmore : 100 < n.transactionPool.length) (hkeep : n.transactionPool.length ≤ 500)
    (ticks : List Tick) (hone : ticks ≠ []) (hticks : (n.contenders p).length ≤ ticks.length) :
    ∃ (b : Block) (reward : Transaction) (fs : List String),
      (n.polls p ticks).blocks = n.blocks ++ [b] ∧
      b.transactions = n.transactionPool.map Transaction.deductFee ++ [reward] ∧
      reward.type = "REWARD" ∧ (n.polls p ticks).transactionPool = [] ∧
      (fs.Nodup ∧ ∀ f ∈ fs, f ∈ n.contenders p) ∧
      (∀ k, (n.polls p ticks).stakers.value k =
        (if k ∈ fs then 0 else n.stakers.value k) + stakeChange b.transactions k) ∧
      ∀ a ∈ n.accountModel.accounts, (n.polls p ticks).getBalance a =
        n.getBalance a + booked (fs.map (n.refund p)) a + balanceChange b.transactions a := by
  obtain ⟨fs, m, tick, h, hpolls⟩ := hn.drained hmore hkeep hone hticks
  rw [hpolls]
  refine ⟨m.forgedBlock p tick, m.rewardTransaction p tick, fs, ?_, ?_, rfl,
    transactionPool_forgeBlock p m tick, ⟨h.nodup, h.contenders⟩, fun k => ?_, fun a ha => ?_⟩
  · rw [blocks_forgeBlock, blocks, h.chain]
  · rw [← h.transactionPool]
    rfl
  · rw [stake_forgeBlock, stake_executeTransactions_apply, h.stakers]
    rfl
  · rw [getBalance_forgeBlock, getBalance_executeTransactions_apply _ (h.accounts a ha),
      h.getBalance, bookAll_apply, if_pos (AccountModel.accountExists_iff.mpr ha)]
    rfl

/-- While somebody else is elected and at most a hundred transactions wait, a poll
changes neither the chain nor the pool. -/
theorem Queued.poll (hforger : n.nextForger p = .ok f)
    (hother : f ≠ n.nodeWallet.walletPublicKey) (hfew : n.transactionPool.length ≤ 100)
    (h : n.Queued [] m) (tick : Tick) : n.Queued [] (m.poll p tick) := by
  have hpool : m.transactionPool = n.transactionPool :=
    h.transactionPool.trans (List.append_nil _)
  have hsame : m.nextForger p = .ok f := h.nextForger.trans hforger
  by_cases hnil : m.transactionPool = []
  · rwa [poll_of_nil hnil]
  · have hnone : m.evictee p = none := evictee_eq_none hsame (Or.inl (by rw [hpool]; exact hfew))
    have hregister : m.forgeAs p tick f = m.registerForger p f := by
      refine if_neg ?_
      rwa [nodeWallet_of_identity h.identity]
    rw [poll_of_ne_nil hnil, forge_eq, settled_of_none hnone, hsame]
    dsimp only
    rw [hregister]
    exact h.trans (Queued.registerForger f)

/-- More than five hundred transactions are gone after one poll, forged or not. -/
theorem transactionPool_poll_of_flood (hn : n.Anchored p)
    (hflood : 500 < n.transactionPool.length) (tick : Tick) :
    (n.poll p tick).transactionPool = [] := by
  rw [poll_of_ne_nil (List.ne_nil_of_length_pos (by omega))]
  rcases hn.nextForger with hself | ⟨f, hf, hnext⟩
  · rw [hn.forge_of_elected hself, transactionPool_forgeBlock]
  · have hevictee : n.evictee p = some f :=
      evictee_eq_some.mpr ⟨hnext, by omega, (mem_contenders.mp hf).2.1⟩
    have hcleared : (n.settled p).transactionPool = [] := by
      rw [settled_of_some hevictee, transactionPool_evict, if_pos hflood]
    rcases forge_cases (p := p) (n := n) tick with he | he | ⟨g, he⟩
    · rw [he, hcleared]
    · rw [he, transactionPool_forgeBlock]
    · rw [he]
      exact hcleared

/-- **When the timer is enough.** Polls alone ever empty the pool of the genesis node,
while it holds a lot, exactly when nothing waits, or more than a hundred transactions
do, or the node is elected. -/
theorem polls_empty_iff (p : Platform) (n : Node) (hn : n.Anchored p) :
    (∃ ticks, (n.polls p ticks).transactionPool = []) ↔
      n.transactionPool = [] ∨ 100 < n.transactionPool.length ∨
        n.nextForger p = .ok n.nodeWallet.walletPublicKey := by
  constructor
  · rintro ⟨ticks, hempty⟩
    by_contra hstuck
    rw [not_or, not_or, not_lt] at hstuck
    obtain ⟨hne, hfew, hnot⟩ := hstuck
    rcases hn.nextForger with hself | ⟨f, hf, hnext⟩
    · exact hnot hself
    · have hother : f ≠ n.nodeWallet.walletPublicKey := by
        rintro rfl
        exact hnot hnext
      have hqueued : n.Queued [] (n.polls p ticks) :=
        run_invariant (C := fun _ _ => True) (fun m tick h _ => h.poll hnext hother hfew tick)
          (Queued.refl n) (along_of_forall (fun _ _ => trivial) n ticks)
      rw [hqueued.transactionPool, List.append_nil] at hempty
      exact hne hempty
  · have tick : Tick := ⟨"", 0, 0, 0, 0⟩
    -- What the forging draws makes no difference.
    rintro (hnil | hmore | hself)
    · exact ⟨[], hnil⟩
    · by_cases hkeep : n.transactionPool.length ≤ 500
      · refine ⟨List.replicate ((n.contenders p).length + 1) tick,
          (hn.drained hmore hkeep (List.cons_ne_nil _ _) ?_).transactionPool⟩
        rw [List.length_cons, List.length_replicate]
        exact Nat.le_succ _
      · exact ⟨[tick], transactionPool_poll_of_flood hn (by omega) tick⟩
    · by_cases hnil : n.transactionPool = []
      · exact ⟨[], hnil⟩
      · refine ⟨[tick], ?_⟩
        change (n.poll p tick).transactionPool = []
        rw [poll_of_ne_nil hnil, hn.forge_of_elected hself, transactionPool_forgeBlock]

end Runs

end Node

namespace Reference

/-- The wallet `n` is the only one that can be elected where it has staked, besides the
genesis node. -/
theorem anchored_staked : staked.Anchored platform ∧ staked.contenders platform = ["PUBn"] := by
  obtain ⟨-, -, hgenesis, hown, -⟩ := staked_spec
  have hlots : (∀ k ∈ staked.stakers.keys, 0 ≤ platform.toInt (staked.stakers.value k)) ∧
      0 < platform.toInt (staked.stakers.value "PUBg") ∧
      staked.contenders platform = ["PUBn"] := by
    decide +kernel
  obtain ⟨hnonneg, hlot, hcontenders⟩ := hlots
  generalize staked = n at *
  refine ⟨⟨hown.trans hgenesis.symm, fun k => ?_, ?_⟩, hcontenders⟩
  · by_cases hk : k ∈ n.stakers.keys
    · exact hnonneg k hk
    · rw [n.stakers.value_eq_zero k hk, ProofOfStake.toInt_zero]
  · rwa [hgenesis]

/-- The genesis node with 101 transfers that wait, where the wallet `n` is elected. -/
def jammed : Node := staked.setPool ((List.range 101).map transfer)

/-- The transfers change nothing about who can be elected. -/
theorem jammed_spec : jammed.Anchored platform ∧ jammed.contenders platform = ["PUBn"] ∧
    jammed.transactionPool.length = 101 := by
  obtain ⟨hanchored, hcontenders⟩ := anchored_staked
  have hjammed : ∃ n : Node, n.Anchored platform ∧ n.contenders platform = ["PUBn"] ∧
      jammed = n.setPool ((List.range 101).map transfer) :=
    ⟨staked, hanchored, hcontenders, rfl⟩
  obtain ⟨n, ⟨hgenesis, hnonneg, hlot⟩, hothers, he⟩ := hjammed
  rw [he]
  refine ⟨⟨hgenesis, hnonneg, hlot⟩, hothers, ?_⟩
  exact (List.length_map _).trans List.length_range

end Reference

namespace Node

/-- One poll forges the 101 transfers and evicts the wallet `n`. -/
theorem polls_drain_reference :
    (Reference.jammed.polls Reference.platform [Reference.tick 3]).transactionPool = [] ∧
      (Reference.jammed.polls Reference.platform [Reference.tick 3]).blocks.length =
        Reference.jammed.blocks.length + 1 := by
  obtain ⟨hn, hcontenders, hlength⟩ := Reference.jammed_spec
  obtain ⟨b, -, -, hblocks, -, -, hpool, -⟩ := polls_drain Reference.platform Reference.jammed hn
    (by omega) (by omega) [Reference.tick 3] (List.cons_ne_nil _ _) (by rw [hcontenders]; rfl)
  exact ⟨hpool, by rw [hblocks, List.length_append, List.length_singleton]⟩

/-- The 101 transfers do not wait forever. -/
theorem polls_empty_reference :
    ∃ ticks, (Reference.jammed.polls Reference.platform ticks).transactionPool = [] := by
  obtain ⟨hn, -, hlength⟩ := Reference.jammed_spec
  exact (polls_empty_iff Reference.platform Reference.jammed hn).mpr
    (Or.inr (Or.inl (by omega)))

end Node

end Prawnstar
