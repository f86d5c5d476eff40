import Prawnstar.CallSpecs

/-!
# Calls as sequences of atomic steps

A worker thread, the peer to peer thread and the forging thread run their calls
at the same time. A thread is between two accesses to the shared state of the
node; each access, a method that takes its mutex or a plain read or write, is
one step. A thread that runs alone does what the call does.
-/

namespace Prawnstar

/-- Where a thread is in its call: what it does next, with the values that it
has read so far. -/
inductive Thread
  /-- No call. -/
  | idle
  /-- `handleTransaction` before `transactionPool.transactionExists`. -/
  | lookPool (tick : Tick) (broadcast : Bool) (t : Transaction)
  /-- `handleTransaction` before `blockchain->transactionExists`. -/
  | lookChain (tick : Tick) (broadcast : Bool) (t : Transaction)
  /-- `handleTransaction` before `transactionCovered`. -/
  | lookBalance (tick : Tick) (broadcast : Bool) (t : Transaction)
  /-- `handleTransaction` before `transactionPool.addTransaction`. -/
  | enqueue (tick : Tick) (broadcast : Bool) (t : Transaction)
  /-- `handleTransaction` before `forgerRequired`. -/
  | lookRequired (tick : Tick)
  /-- `forge` before `nextForger`. -/
  | elect (tick : Tick)
  /-- `forge` before `transactions.size() > 100`. -/
  | measure (tick : Tick) (forger : String)
  /-- `forge` before the refund of the stake. -/
  | refund (tick : Tick) (forger : String)
  /-- `forge` before `stakers.erase`. -/
  | strike (tick : Tick) (forger : String)
  /-- `forge` before `transactions.size() > 500`. -/
  | purge (tick : Tick) (forger : String)
  /-- `forge` before the second `nextForger`. -/
  | reelect (tick : Tick)
  /-- `forge` before `calculateForgerReward`. -/
  | reward (tick : Tick)
  /-- `forge` before `createBlock`. -/
  | create (tick : Tick) (rewardedTransactions : List Transaction)
  /-- `forge` before `removeFromPool`. -/
  | clean (block : Block)
  /-- `forge` before `addAccount`. -/
  | register (forger : String)
  /-- `handleBlock` before the lookup of the forger's wallet. -/
  | lookWallet (broadcast : Bool) (b : Block)
  /-- `handleBlock` before `blockCountValid`. -/
  | lookCount (broadcast : Bool) (b : Block) (forgerKey : String)
  /-- `handleBlock` before `requestChain`. -/
  | request
  /-- `handleBlock` before `lastBlockHashValid`. -/
  | lookLink (broadcast : Bool) (b : Block) (forgerKey : String)
  /-- `handleBlock` before `forgerValid`. -/
  | lookForger (broadcast : Bool) (b : Block) (forgerKey : String) (lastBlockHashValid : Bool)
  /-- `handleBlock` before `blockHasTransactions`. -/
  | lookTransactions (broadcast : Bool) (b : Block) (valid : Bool)
  /-- `handleBlock` before `addBlock`. -/
  | append (broadcast : Bool) (b : Block)
  /-- `handleBlock` before `removeFromPool`. -/
  | cleanReceived (broadcast : Bool) (b : Block)
  /-- Before a message is sent, and before `forgerRequired` where a transaction
  was added. -/
  | send (m : Message) (added : Option Tick)

namespace Thread

/-- A thread at the beginning of a call. -/
def start : Call → Thread
  | .handleTransaction tick broadcast t => .lookPool tick broadcast t
  | .forge tick => .elect tick
  | .handleBlock broadcast b => .lookWallet broadcast b

/-- A thread that has sent its message. -/
def sent : Option Tick → Thread
  | some tick => .lookRequired tick
  | none => .idle

end Thread

namespace Node

variable (p : Platform) (n : Node)

/-- `forge` once the forger is settled. -/
def chosen (tick : Tick) (forger : String) : Thread :=
  if forger = n.nodeWallet.walletPublicKey then .reward tick else .register forger

/-- One step of a thread: the node afterwards and where the thread is. -/
def act : Thread → Node × Thread
  | .idle => (n, .idle)
  | .lookPool tick broadcast t =>
    if t.verify p = 0 then (n, .idle)
    else if TransactionPool.transactionExists n.transactionPool t then (n, .idle)
    else (n, .lookChain tick broadcast t)
  | .lookChain tick broadcast t =>
    if n.transactionExists t then (n, .idle)
    else if t.type ≠ "EXCHANGE" then (n, .lookBalance tick broadcast t)
    else (n, .enqueue tick broadcast t)
  | .lookBalance tick broadcast t =>
    if n.transactionCovered t then (n, .enqueue tick broadcast t) else (n, .idle)
  | .enqueue tick broadcast t =>
    (n.addTransaction t,
      if broadcast then .send ⟨"TRANSACTION", t.toJson⟩ (some tick)
      else .lookRequired tick)
  | .lookRequired tick =>
    if TransactionPool.forgerRequired n.transactionPool then (n, .elect tick) else (n, .idle)
  | .elect tick =>
    match n.nextForger p with
    | .ok forger => (n, .measure tick forger)
    | .error _ => (n, .idle)
  | .measure tick forger =>
    if n.transactionPool.length > 100 ∧ forger ≠ n.genesisNodeStake then (n, .refund tick forger)
    else (n, n.chosen tick forger)
  | .refund tick forger =>
    ({ n with
        accountModel := n.accountModel.updateBalance ("pv1" ++ p.generateAddress forger)
          (n.stakers.value forger) }, .strike tick forger)
  | .strike tick forger => ({ n with stakers := n.stakers.erase forger }, .purge tick forger)
  | .purge tick forger =>
    if n.transactionPool.length > 500 ∧ forger ∉ n.stakers.keys then (n.setPool [], .reelect tick)
    else (n, .reelect tick)
  | .reelect tick =>
    match n.nextForger p with
    | .ok forger => (n, n.chosen tick forger)
    | .error _ => (n, .idle)
  | .reward tick =>
    ((n.calculateForgerReward p tick).2, .create tick (n.calculateForgerReward p tick).1)
  | .create tick rewardedTransactions =>
    let created := n.createBlock p tick rewardedTransactions n.nodeWallet.address
    (created.2, .clean created.1)
  | .clean block => (n.removeFromPool block.transactions, .send ⟨"BLOCK", block.toPureJson⟩ none)
  | .register forger => (n.registerForger p forger, .idle)
  | .lookWallet broadcast b =>
    (n.openWallet b.forgerAddress,
      .lookCount broadcast b (n.accountModel.wallet b.forgerAddress).walletPublicKey)
  | .lookCount broadcast b forgerKey =>
    if n.blockCountValid b then (n, .lookLink broadcast b forgerKey) else (n, .request)
  | .request => (n.requestChain, .idle)
  | .lookLink broadcast b forgerKey =>
    (n, .lookForger broadcast b forgerKey (n.lastBlockHashValid b))
  | .lookForger broadcast b forgerKey lastBlockHashValid =>
    match n.forgerValid p b with
    | (.ok forgerValid, n) =>
      (n, .lookTransactions broadcast b
        (lastBlockHashValid && forgerValid && b.verify p forgerKey ≠ 0))
    | (.error _, n) => (n, .idle)
  | .lookTransactions broadcast b valid =>
    if valid && blockHasTransactions b then (n, .append broadcast b) else (n, .idle)
  | .append broadcast b => (n.addBlock p b, .cleanReceived broadcast b)
  | .cleanReceived broadcast b =>
    (n.removeFromPool b.transactions,
      if broadcast then .send ⟨"block", b.toPureJson⟩ none else .idle)
  | .send m added => (n.broadcast m, .sent added)

/-- A thread that runs alone from here ends its call with the node `m`. -/
def Alone (t : Thread) (m : Node) : Prop :=
  ∃ k, (fun s : Node × Thread => s.1.act p s.2)^[k] (n, t) = (m, .idle)

variable {p n}

/-- A call that has ended. -/
theorem Alone.idle : n.Alone p .idle n := ⟨0, rfl⟩

/-- The first step and then the others. -/
theorem Alone.step {t : Thread} {m : Node} (h : (n.act p t).1.Alone p (n.act p t).2 m) :
    n.Alone p t m := by
  obtain ⟨k, hk⟩ := h
  exact ⟨k + 1, hk⟩

/-- A step that is known. -/
theorem Alone.of_act {t t' : Thread} {n' m : Node} (hact : n.act p t = (n', t'))
    (h : n'.Alone p t' m) : n.Alone p t m := Alone.step (by rw [hact]; exact h)

/-- A message is sent and the call goes on. -/
theorem Alone.send {msg : Message} {added : Option Tick} {m : Node}
    (h : (n.broadcast msg).Alone p (Thread.sent added) m) : n.Alone p (.send msg added) m :=
  Alone.of_act rfl h

/-- The second half of `forge` alone. -/
theorem alone_chosen (tick : Tick) (forger : String) :
    n.Alone p (n.chosen tick forger) (n.forgeAs p tick forger) := by
  unfold chosen forgeAs
  split
  · exact Alone.step (Alone.step (Alone.step (Alone.send Alone.idle)))
  · exact Alone.step Alone.idle

/-- An eviction alone. -/
theorem alone_refund {tick : Tick} {forger : String} {m : Node}
    (h : (n.evict p forger).Alone p (.reelect tick) m) : n.Alone p (.refund tick forger) m := by
  refine Alone.step (Alone.step (Alone.step ?_))
  unfold evict at h
  dsimp only [act] at h ⊢
  split <;> simp_all

/-- **`forge` alone** does what the call does. -/
theorem alone_forge (tick : Tick) : n.Alone p (.elect tick) (n.forge p tick).2 := by
  cases hnext : n.nextForger p with
  | error f =>
    have hact : n.act p (.elect tick) = (n, .idle) := by simp only [act, hnext]
    apply Alone.of_act hact
    simpa only [forge, hnext] using Alone.idle
  | ok forger =>
    have hact : n.act p (.elect tick) = (n, .measure tick forger) := by simp only [act, hnext]
    apply Alone.of_act hact
    by_cases hlong : n.transactionPool.length > 100 ∧ forger ≠ n.genesisNodeStake
    · have hmeasure : n.act p (.measure tick forger) = (n, .refund tick forger) := if_pos hlong
      refine Alone.of_act hmeasure (alone_refund ?_)
      cases hagain : (n.evict p forger).nextForger p with
      | error f =>
        have hreelect : (n.evict p forger).act p (.reelect tick) = (n.evict p forger, .idle) := by
          simp only [act, hagain]
        apply Alone.of_act hreelect
        simpa only [forge, hnext, if_pos hlong, hagain] using Alone.idle
      | ok forger' =>
        have hreelect : (n.evict p forger).act p (.reelect tick) =
            (n.evict p forger, (n.evict p forger).chosen tick forger') := by
          simp only [act, hagain]
        apply Alone.of_act hreelect
        simpa only [forge, hnext, if_pos hlong, hagain] using alone_chosen tick forger'
    · have hmeasure : n.act p (.measure tick forger) = (n, n.chosen tick forger) := if_neg hlong
      apply Alone.of_act hmeasure
      simpa only [forge, hnext, if_neg hlong] using alone_chosen tick forger

/-- The end of `handleTransaction` alone, once the transaction is in the pool. -/
theorem alone_lookRequired (tick : Tick) : n.Alone p (.lookRequired tick)
    (if TransactionPool.forgerRequired n.transactionPool then (n.forge p tick).2 else n) := by
  by_cases hf : TransactionPool.forgerRequired n.transactionPool = true
  · have hact : n.act p (.lookRequired tick) = (n, .elect tick) := if_pos hf
    rw [if_pos hf]
    exact Alone.of_act hact (alone_forge tick)
  · have hact : n.act p (.lookRequired tick) = (n, .idle) := if_neg hf
    rw [if_neg hf]
    exact Alone.of_act hact Alone.idle

/-- The addition to the pool alone. -/
theorem alone_enqueue (tick : Tick) (broadcast : Bool) (t : Transaction) :
    n.Alone p (.enqueue tick broadcast t)
      (let m := n.enqueue broadcast t
        if TransactionPool.forgerRequired m.transactionPool then (m.forge p tick).2 else m) := by
  apply Alone.step
  cases broadcast with
  | false => exact alone_lookRequired tick
  | true => exact Alone.send (alone_lookRequired tick)

/-- **`handleTransaction` alone** does what the call does. -/
theorem alone_handleTransaction (tick : Tick) (broadcast : Bool) (t : Transaction) :
    n.Alone p (.lookPool tick broadcast t) (n.handleTransaction p tick broadcast t).2 := by
  by_cases hverify : t.verify p = 0
  · have hact : n.act p (.lookPool tick broadcast t) = (n, .idle) := if_pos hverify
    rw [handleTransaction_of_not_admits fun h => h.1 hverify]
    exact Alone.of_act hact Alone.idle
  by_cases hpool : TransactionPool.transactionExists n.transactionPool t = true
  · have hact : n.act p (.lookPool tick broadcast t) = (n, .idle) := by
      simp only [act, if_neg hverify, if_pos hpool]
    have hpending : t.id ∈ n.poolIds := TransactionPool.transactionExists_iff.mp hpool
    rw [handleTransaction_of_not_admits fun h => h.2.1 hpending]
    exact Alone.of_act hact Alone.idle
  have hact : n.act p (.lookPool tick broadcast t) = (n, .lookChain tick broadcast t) := by
    simp only [act, if_neg hverify, if_neg hpool]
  apply Alone.of_act hact
  by_cases hchain : n.transactionExists t = true
  · have hlook : n.act p (.lookChain tick broadcast t) = (n, .idle) := if_pos hchain
    rw [handleTransaction_of_not_admits fun h => h.2.2.1 (transactionExists_iff.mp hchain)]
    exact Alone.of_act hlook Alone.idle
  by_cases hcovered : t.type = "EXCHANGE" ∨ n.transactionCovered t = true
  · have hadmits : n.Admits p t := ⟨hverify, mt TransactionPool.transactionExists_iff.mpr hpool,
      mt transactionExists_iff.mpr hchain, hcovered⟩
    have hresult : (n.handleTransaction p tick broadcast t).2 =
        if TransactionPool.forgerRequired (n.enqueue broadcast t).transactionPool then
          ((n.enqueue broadcast t).forge p tick).2 else n.enqueue broadcast t := by
      rw [handleTransaction_eq, if_pos hadmits]
      dsimp only
      split <;> rfl
    rw [hresult]
    by_cases htype : t.type = "EXCHANGE"
    · have hlook : n.act p (.lookChain tick broadcast t) = (n, .enqueue tick broadcast t) := by
        simp only [act, if_neg hchain, htype, ne_eq, not_true_eq_false, if_false]
      exact Alone.of_act hlook (alone_enqueue tick broadcast t)
    · have hlook : n.act p (.lookChain tick broadcast t) = (n, .lookBalance tick broadcast t) := by
        simp only [act, if_neg hchain, htype, ne_eq, not_false_eq_true, if_true]
      have hbalance : n.act p (.lookBalance tick broadcast t) = (n, .enqueue tick broadcast t) :=
        if_pos (hcovered.resolve_left htype)
      exact Alone.of_act hlook (Alone.of_act hbalance (alone_enqueue tick broadcast t))
  · have htype : t.type ≠ "EXCHANGE" := fun h => hcovered (Or.inl h)
    have hlook : n.act p (.lookChain tick broadcast t) = (n, .lookBalance tick broadcast t) := by
      simp only [act, if_neg hchain, htype, ne_eq, not_false_eq_true, if_true]
    have hbalance : n.act p (.lookBalance tick broadcast t) = (n, .idle) :=
      if_neg fun h => hcovered (Or.inr h)
    rw [handleTransaction_of_not_admits fun h => hcovered h.2.2.2]
    exact Alone.of_act hlook (Alone.of_act hbalance Alone.idle)

/-- **`handleBlock` alone** does what the call does. -/
theorem alone_handleBlock (broadcast : Bool) (b : Block) :
    n.Alone p (.lookWallet broadcast b) (n.handleBlock p broadcast b).2 := by
  apply Alone.step
  unfold handleBlock
  simp only [act]
  generalize n.openWallet b.forgerAddress = m
  generalize (n.accountModel.wallet b.forgerAddress).walletPublicKey = forgerKey
  by_cases hcount : m.blockCountValid b = true
  · have hlook : m.act p (.lookCount broadcast b forgerKey) =
        (m, .lookLink broadcast b forgerKey) := if_pos hcount
    refine Alone.of_act hlook (Alone.step ?_)
    simp only [act, hcount, not_true_eq_false, if_false]
    cases hvalid : m.forgerValid p b with
    | mk result m' =>
      cases result with
      | error f =>
        have hforger : m.act p (.lookForger broadcast b forgerKey (m.lastBlockHashValid b)) =
            (m', .idle) := by simp only [act, hvalid]
        exact Alone.of_act hforger Alone.idle
      | ok forgerValid =>
        have hforger : m.act p (.lookForger broadcast b forgerKey (m.lastBlockHashValid b)) =
            (m', .lookTransactions broadcast b
              (m.lastBlockHashValid b && forgerValid && b.verify p forgerKey ≠ 0)) := by
          simp only [act, hvalid]
        apply Alone.of_act hforger
        by_cases hall : (m.lastBlockHashValid b && forgerValid && b.verify p forgerKey ≠ 0 &&
            blockHasTransactions b) = true
        · have hlast : m'.act p (.lookTransactions broadcast b
              (m.lastBlockHashValid b && forgerValid && b.verify p forgerKey ≠ 0)) =
                (m', .append broadcast b) := if_pos hall
          simp only [Bool.and_eq_true, decide_eq_true_eq] at hall
          have hconditions : m.lastBlockHashValid b = true ∧ forgerValid = true ∧
              b.verify p forgerKey ≠ 0 ∧ blockHasTransactions b = true :=
            ⟨hall.1.1.1, hall.1.1.2, hall.1.2, hall.2⟩
          simp only [if_pos hconditions]
          refine Alone.of_act hlast (Alone.step (Alone.step ?_))
          cases broadcast with
          | false => exact Alone.idle
          | true => exact Alone.send Alone.idle
        · have hlast : m'.act p (.lookTransactions broadcast b
              (m.lastBlockHashValid b && forgerValid && b.verify p forgerKey ≠ 0)) =
                (m', .idle) := if_neg hall
          have hconditions : ¬(m.lastBlockHashValid b = true ∧ forgerValid = true ∧
              b.verify p forgerKey ≠ 0 ∧ blockHasTransactions b = true) := by
            rintro ⟨hlink, hforgerValid, hverify, htransactions⟩
            exact hall (by simp [hlink, hforgerValid, hverify, htransactions])
          simp only [if_neg hconditions]
          exact Alone.of_act hlast Alone.idle
  · have hlook : m.act p (.lookCount broadcast b forgerKey) = (m, .request) := if_neg hcount
    simp only [hcount, Bool.false_eq_true, not_false_eq_true, if_true]
    exact Alone.of_act hlook (Alone.step Alone.idle)

/-- **A thread that runs alone does what its call does.** -/
theorem alone_call (c : Call) : n.Alone p (Thread.start c) (n.call p c) := by
  cases c with
  | handleTransaction tick broadcast t => exact alone_handleTransaction tick broadcast t
  | forge tick => exact alone_forge tick
  | handleBlock broadcast b => exact alone_handleBlock broadcast b

end Node

end Prawnstar
