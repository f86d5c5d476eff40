import Prawnstar.Threads
import Prawnstar.Forging
import Prawnstar.Library.Custody
import Prawnstar.Reference
import Mathlib.Data.Fintype.Basic

/-!
# Interleaved calls

Any number of threads share one node, and every interleaving of their steps is
a run. Each step is a move at a desk where transaction ids wait in the pool and
are settled on the chain: a thread brings an id from its look at the pool until
it adds the transaction, and a thread has the whole pool in hand from
`calculateForgerReward` until `removeFromPool`. No lock spans these moves; where
no id is in two hands at once, an id is on the chain at most once and its fee
is taken at most once.
-/

namespace Prawnstar

open Library

namespace Thread

/-- The ids that a thread has in hand. -/
def hand : Thread → Hand String
  | .lookChain _ _ t => .offered t.id
  | .lookBalance _ _ t => .cleared t.id
  | .enqueue _ _ t => .cleared t.id
  | .create tick ts => .taken (ts.dropLast.map Transaction.id) tick.uuid
  | .clean b => .settled b.ids
  | .cleanReceived _ b => .settled b.ids
  | _ => .empty

/-- The transaction that a thread was called with. -/
def brings : Thread → Option Transaction
  | .lookPool _ _ t => some t
  | .lookChain _ _ t => some t
  | .lookBalance _ _ t => some t
  | .enqueue _ _ t => some t
  | _ => none

/-- The block that a thread was called with. -/
def receives : Thread → Option Block
  | .lookWallet _ b => some b
  | .lookCount _ b _ => some b
  | .lookLink _ b _ => some b
  | .lookForger _ b _ _ => some b
  | .lookTransactions _ b _ => some b
  | .append _ b => some b
  | _ => none

/-- A thread that is next to neither the pool nor the chain. -/
def Aside : Thread → Prop
  | .lookPool _ _ _ | .lookChain _ _ _ | .lookBalance _ _ _ | .enqueue _ _ _ | .purge _ _
  | .reward _ | .create _ _ | .clean _ | .append _ _ | .cleanReceived _ _ => False
  | _ => True

end Thread

/-- A node, the threads that share it, and the calls that were made so far. -/
structure World (ι : Type*) where
  /-- The node. -/
  node : Node
  /-- Where each thread is. -/
  thread : ι → Thread
  /-- The calls that were made. -/
  calls : List Call

/-- What happens next: a thread that has no call gets one, or a thread takes its
next step. -/
inductive Turn (ι : Type*)
  | spawn (i : ι) (c : Call)
  | step (i : ι)

namespace World

variable {ι : Type*}

/-- A node whose threads have no calls. -/
def start (n : Node) : World ι where
  node := n
  thread _ := .idle
  calls := []

/-- The desk of a world: ids in the pool, ids on the chain, ids in hand. -/
def desk (w : World ι) : Desk ι String where
  waiting := w.node.poolIds
  done := w.node.chainIds
  hand i := (w.thread i).hand

/-- The next step of a thread takes no id that is in another hand. The id of a
transaction whose signature is not refused, and which is new to the pool and to the
chain, is looked for while no thread is about to add it or to put it on the chain; the
pool is taken while nothing in it belongs to a block that is being created or cleaned
up, under a fresh id for the reward; and a received block is appended when its ids are
distinct, new to the chain and in no hand. -/
def Free (p : Platform) (w : World ι) : Thread → Prop
  | .lookPool _ _ t => t.verify p ≠ 0 → t.id ∉ w.node.poolIds → t.id ∉ w.node.chainIds →
      ∀ j, t.id ∉ (w.thread j).hand.busy
  | .reward tick =>
    (∀ j, ∀ x ∈ w.node.poolIds,
      x ∉ (w.thread j).hand.taking ∧ x ∉ (w.thread j).hand.removing) ∧
    tick.uuid ∉ w.node.poolIds ∧ tick.uuid ∉ w.node.chainIds ∧
    ∀ j, tick.uuid ∉ (w.thread j).hand.busy
  | .append _ b => b.ids.Nodup ∧
      ∀ y ∈ b.ids, y ∉ w.node.chainIds ∧ ∀ j, y ∉ (w.thread j).hand.busy
  | _ => True

/-- A turn that takes no id that is in another hand. -/
def Guarded (p : Platform) (w : World ι) : Turn ι → Prop
  | .spawn _ _ => True
  | .step i => w.Free p (w.thread i)

instance [Fintype ι] (p : Platform) (w : World ι) : DecidablePred (w.Free p) := fun t => by
  cases t <;> (dsimp only [Free]; infer_instance)

instance [Fintype ι] (p : Platform) (w : World ι) : DecidablePred (w.Guarded p)
  | .spawn _ _ => isTrue trivial
  | .step i => inferInstanceAs (Decidable (w.Free p (w.thread i)))

/-- A transaction that was submitted. -/
def Submitted (w : World ι) (u : Transaction) : Prop :=
  ∃ tick broadcast, .handleTransaction tick broadcast u ∈ w.calls

/-- A block that was received. -/
def Received (w : World ι) (b : Block) : Prop := ∃ broadcast, .handleBlock broadcast b ∈ w.calls

/-- Transactions for a block of the node's own: submitted ones, each after its
fee was taken once, and the reward. -/
def Charged (w : World ι) (ts : List Transaction) (r : Transaction) : Prop :=
  ∃ us : List Transaction, ts = us.map Transaction.deductFee ++ [r] ∧ ∀ u ∈ us, w.Submitted u

/-- A transaction after its fee was taken once, which a thread is about to put
on the chain or has put there. -/
def Owed (w : World ι) (t : Transaction) : Prop :=
  (∃ u, w.Submitted u ∧ t = u.deductFee) ∧
    ∃ i, t.id ∈ (w.thread i).hand.taking ∨ t.id ∈ (w.thread i).hand.removing

/-- Where everything comes from that a node and its threads hold. -/
structure Traced (w : World ι) : Prop where
  /-- A thread brings a transaction that was submitted. -/
  brings : ∀ i t, (w.thread i).brings = some t → w.Submitted t
  /-- A thread has a block that was received. -/
  receives : ∀ i b, (w.thread i).receives = some b → w.Received b
  /-- A waiting transaction was submitted as it is, or is in the hand of a thread. -/
  waiting : ∀ t ∈ w.node.transactionPool, w.Submitted t ∨ w.Owed t
  /-- A thread creates a block from charged transactions. -/
  creates : ∀ i tick ts, w.thread i = .create tick ts → ∃ r, w.Charged ts r ∧ r.id = tick.uuid
  /-- The blocks are the genesis block, received ones and those of the node's own. -/
  blocks : ∀ b ∈ w.node.blocks, b = Block.genesis ∨ w.Received b ∨ ∃ r, w.Charged b.transactions r

/-- Where everything comes from does not change when more calls are made. -/
theorem Submitted.mono {w v : World ι} {u : Transaction} (h : w.Submitted u)
    (hcalls : w.calls ⊆ v.calls) : v.Submitted u := by
  obtain ⟨tick, broadcast, hmem⟩ := h
  exact ⟨tick, broadcast, hcalls hmem⟩

/-- A received block stays one. -/
theorem Received.mono {w v : World ι} {b : Block} (h : w.Received b)
    (hcalls : w.calls ⊆ v.calls) : v.Received b := by
  obtain ⟨broadcast, hmem⟩ := h
  exact ⟨broadcast, hcalls hmem⟩

/-- Charged transactions stay charged ones. -/
theorem Charged.mono {w v : World ι} {ts : List Transaction} {r : Transaction}
    (h : w.Charged ts r) (hcalls : w.calls ⊆ v.calls) : v.Charged ts r := by
  obtain ⟨us, hts, hus⟩ := h
  exact ⟨us, hts, fun u hu => (hus u hu).mono hcalls⟩

/-- The ids of charged transactions and of their reward. -/
theorem Charged.ids {w : World ι} {ts : List Transaction} {r : Transaction}
    (h : w.Charged ts r) :
    ts.map Transaction.id = ts.dropLast.map Transaction.id ++ [r.id] := by
  obtain ⟨us, rfl, -⟩ := h
  simp

/-- What waits when a guarded reward is calculated was submitted as it is. -/
theorem Traced.submitted_of_reward {p : Platform} {w : World ι} (h : w.Traced) {i : ι}
    {tick : Tick} (ht : w.thread i = .reward tick) (hguard : w.Guarded p (.step i)) :
    ∀ u ∈ w.node.transactionPool, w.Submitted u := by
  intro u hu
  simp only [Guarded, Free, ht] at hguard
  rcases h.waiting u hu with hsubmitted | ⟨-, j, hj⟩
  · exact hsubmitted
  · have hfree := hguard.1 j u.id (List.mem_map_of_mem hu)
    exact absurd hj (not_or.mpr hfree)

/-- A fresh node whose threads have no calls. -/
theorem sound_start {n : Node} (hn : n.Fresh) :
    (start n : World ι).desk.Sound ∧ (start n : World ι).Traced := by
  have hblocks : n.blocks = [Block.genesis] := by
    rw [Node.blocks, hn.chain]
    rfl
  constructor
  · refine Desk.Sound.start ?_ ?_ fun _ => rfl
    · exact congrArg (List.map Transaction.id) hn.transactionPool
    · change (n.blocks.flatMap Block.ids).Nodup
      rw [hblocks]
      exact List.nodup_nil
  · constructor
    · exact fun i t ht => by cases ht
    · exact fun i b hb => by cases hb
    · intro t ht
      change t ∈ n.transactionPool at ht
      rw [hn.transactionPool] at ht
      cases ht
    · exact fun i tick ts hts => by cases hts
    · intro b hb
      change b ∈ n.blocks at hb
      rw [hblocks] at hb
      exact Or.inl (List.mem_singleton.mp hb)

variable [DecidableEq ι] (p : Platform)

/-- A thread is somewhere else, with the node as given. -/
def moved (w : World ι) (i : ι) (s : Node × Thread) : World ι :=
  { w with node := s.1, thread := Function.update w.thread i s.2 }

/-- The world after a turn. -/
def next (w : World ι) : Turn ι → World ι
  | .spawn i c =>
    match w.thread i with
    | .idle => { w.moved i (w.node, Thread.start c) with calls := w.calls ++ [c] }
    | _ => w
  | .step i => w.moved i (w.node.act p (w.thread i))

section Moved

variable {p} {w : World ι} {i : ι} {n : Node} {t : Thread}

/-- The thread that moved. -/
@[simp] theorem thread_moved_self : (w.moved i (n, t)).thread i = t := Function.update_self ..

/-- A thread that did not move. -/
theorem thread_moved_of_ne {j : ι} (hji : j ≠ i) : (w.moved i (n, t)).thread j = w.thread j :=
  Function.update_of_ne hji ..

/-- The desk after a thread moved. -/
theorem desk_moved : (w.moved i (n, t)).desk =
    Desk.replace ⟨n.poolIds, n.chainIds, w.desk.hand⟩ i t.hand := by
  simp only [desk, Desk.replace, moved, Desk.mk.injEq, true_and]
  funext j
  by_cases hji : j = i
  · subst hji
    simp
  · simp [hji]

/-- The desk after a thread moved whose node holds the same ids. -/
theorem desk_moved_of_eq (hpool : n.poolIds = w.node.poolIds)
    (hchain : n.chainIds = w.node.chainIds) :
    (w.moved i (n, t)).desk = w.desk.replace i t.hand := by
  rw [desk_moved, hpool, hchain]
  rfl

end Moved

section Effects

variable {p} {n : Node}

/-- The ids that stay in the pool. -/
theorem poolIds_removeFromPool (n : Node) (b : Block) :
    (n.removeFromPool b.transactions).poolIds = n.poolIds.filter (· ∉ b.ids) := by
  have hsame : ∀ t : Transaction, (b.transactions.all fun u => t.id != u.id) =
      decide (t.id ∉ b.ids) := by
    intro t
    rw [Bool.eq_iff_iff, List.all_eq_true, decide_eq_true_iff, Block.ids, List.mem_map]
    simp only [bne_iff_ne, not_exists, not_and]
    exact forall₂_congr fun u _ => not_congr eq_comm
  unfold Node.poolIds
  rw [List.filter_map]
  exact congrArg (List.map Transaction.id) (List.filter_congr fun t _ => hsame t)

/-- The pool after a block was added. -/
theorem transactionPool_addBlock (n : Node) (b : Block) :
    (n.addBlock p b).transactionPool = n.transactionPool := by
  simp only [Node.addBlock, Node.pushBlock, Node.transactionPool_executeTransactions]

/-- The chain after a block was added. -/
theorem blocks_addBlock (n : Node) (b : Block) : (n.addBlock p b).blocks = n.blocks ++ [b] := by
  simp only [Node.addBlock, Node.pushBlock, Node.blocks, Chain.blocks_push,
    Node.chain_executeTransactions]

/-- The pool after a block was created. -/
theorem transactionPool_createBlock (n : Node) (tick : Tick) (ts : List Transaction) (a : String) :
    (n.createBlock p tick ts a).2.transactionPool = n.transactionPool := by
  rw [Node.createBlock_eq]
  simp only [Node.pushBlock, Node.transactionPool_executeTransactions, Node.openWallet]

/-- The chain after a block was created. -/
theorem blocks_createBlock (n : Node) (tick : Tick) (ts : List Transaction) (a : String) :
    (n.createBlock p tick ts a).2.blocks = n.blocks ++ [n.newBlock p tick ts a] := by
  rw [Node.createBlock_eq]
  simp only [Node.pushBlock, Node.blocks, Chain.blocks_push, Node.chain_executeTransactions,
    Node.openWallet]

/-- A step aside of the pool and the chain leaves both alone. -/
theorem act_of_aside {t : Thread} (h : t.Aside) :
    (n.act p t).1.transactionPool = n.transactionPool ∧ (n.act p t).1.blocks = n.blocks ∧
      t.hand = .empty ∧ (n.act p t).2.hand = .empty := by
  have hchosen : ∀ tick f, (n.chosen tick f).hand = .empty := by
    intro tick f
    unfold Node.chosen
    split <;> rfl
  cases t with
  | lookRequired tick =>
    simp only [Node.act]
    split <;> exact ⟨rfl, rfl, rfl, rfl⟩
  | elect tick =>
    simp only [Node.act]
    split <;> exact ⟨rfl, rfl, rfl, rfl⟩
  | measure tick f =>
    simp only [Node.act]
    split
    · exact ⟨rfl, rfl, rfl, rfl⟩
    · exact ⟨rfl, rfl, rfl, hchosen tick f⟩
  | reelect tick =>
    simp only [Node.act]
    split
    · exact ⟨rfl, rfl, rfl, hchosen tick _⟩
    · exact ⟨rfl, rfl, rfl, rfl⟩
  | lookCount broadcast b forgerKey =>
    simp only [Node.act]
    split <;> exact ⟨rfl, rfl, rfl, rfl⟩
  | lookForger broadcast b forgerKey valid =>
    simp only [Node.act, Node.forgerValid]
    cases (n.openWallet b.forgerAddress).nextForger p <;> exact ⟨rfl, rfl, rfl, rfl⟩
  | lookTransactions broadcast b valid =>
    simp only [Node.act]
    split <;> exact ⟨rfl, rfl, rfl, rfl⟩
  | send m added => cases added <;> exact ⟨rfl, rfl, rfl, rfl⟩
  | idle | refund | strike | register | lookWallet | request | lookLink =>
    exact ⟨rfl, rfl, rfl, rfl⟩
  | lookPool | lookChain | lookBalance | enqueue | purge | reward | create | clean | append
  | cleanReceived => exact h.elim

/-- What a thread has after a step it had before, or took at the reward. -/
def Passes (p : Platform) (n : Node) (t t' : Thread) : Prop :=
  (t'.brings = none ∨ t'.brings = t.brings) ∧ (t'.receives = none ∨ t'.receives = t.receives) ∧
    ∀ tick ts, t' = .create tick ts → t = .reward tick ∧ ts = (n.calculateForgerReward p tick).1

/-- A thread goes on with what it has. -/
theorem passes_act (t : Thread) : Passes p n t (n.act p t).2 := by
  have hchosen : ∀ t tick f, Passes p n t (n.chosen tick f) := by
    intro t tick f
    unfold Node.chosen
    split <;> simp [Passes, Thread.brings, Thread.receives]
  cases t with
  | measure tick f =>
    simp only [Node.act]
    split
    · simp [Passes, Thread.brings, Thread.receives]
    · exact hchosen _ tick f
  | reelect tick =>
    simp only [Node.act]
    split
    · exact hchosen _ tick _
    · simp [Passes, Thread.brings, Thread.receives]
  | lookPool | lookChain =>
    simp only [Node.act]
    split
    · simp [Passes, Thread.brings, Thread.receives]
    · split <;> simp [Passes, Thread.brings, Thread.receives]
  | lookForger broadcast b forgerKey valid =>
    simp only [Node.act, Node.forgerValid]
    cases (n.openWallet b.forgerAddress).nextForger p <;>
      simp [Passes, Thread.brings, Thread.receives]
  | send m added => cases added <;> simp [Passes, Node.act, Thread.sent, Thread.brings,
      Thread.receives]
  | enqueue tick broadcast t | cleanReceived broadcast b =>
    cases broadcast <;> simp [Passes, Node.act, Thread.brings, Thread.receives]
  | lookBalance | lookRequired | elect | purge | lookCount | lookTransactions =>
    simp only [Node.act]
    split <;> simp [Passes, Thread.brings, Thread.receives]
  | idle | refund | strike | reward | create | clean | register | lookWallet | request | lookLink
  | append => simp [Passes, Node.act, Thread.brings, Thread.receives]

/-- **What waits after a step** waited before, and a thread that was about to
take it away still is; or the thread brought it; or its fee was taken. -/
theorem mem_pool_act {t : Thread} {u : Transaction}
    (hids : ∀ tick ts, t = .create tick ts →
      ts.map Transaction.id = ts.dropLast.map Transaction.id ++ [tick.uuid])
    (hu : u ∈ (n.act p t).1.transactionPool) :
    (u ∈ n.transactionPool ∧ (u.id ∈ t.hand.taking ∨ u.id ∈ t.hand.removing →
      u.id ∈ (n.act p t).2.hand.taking ∨ u.id ∈ (n.act p t).2.hand.removing)) ∨
    t.brings = some u ∨
    ∃ tick, t = .reward tick ∧ ∃ v ∈ n.transactionPool, u = v.deductFee := by
  by_cases haside : t.Aside
  · obtain ⟨hpool, -, hbefore, -⟩ := act_of_aside (p := p) (n := n) haside
    refine Or.inl ⟨hpool ▸ hu, fun h => ?_⟩
    simp [hbefore, Hand.taking, Hand.removing] at h
  cases t with
  | lookPool | lookChain =>
    refine Or.inl ⟨?_, fun h => by simp [Thread.hand, Hand.taking, Hand.removing] at h⟩
    simp only [Node.act] at hu
    split at hu
    · exact hu
    · split at hu <;> exact hu
  | lookBalance tick broadcast t =>
    refine Or.inl ⟨?_, fun h => by simp [Thread.hand, Hand.taking, Hand.removing] at h⟩
    simp only [Node.act] at hu
    split at hu <;> exact hu
  | enqueue tick broadcast t =>
    have hu' : u ∈ n.transactionPool ++ [t] := hu
    rcases List.mem_append.mp hu' with hold | hnew
    · exact Or.inl ⟨hold, fun h => by simp [Thread.hand, Hand.taking, Hand.removing] at h⟩
    · exact Or.inr (Or.inl (congrArg some (List.mem_singleton.mp hnew).symm))
  | purge tick forger =>
    refine Or.inl ⟨?_, fun h => by simp [Thread.hand, Hand.taking, Hand.removing] at h⟩
    simp only [Node.act] at hu
    split at hu
    · cases hu
    · exact hu
  | reward tick =>
    obtain ⟨v, hv, hvu⟩ := List.mem_map.mp hu
    exact Or.inr (Or.inr ⟨tick, rfl, v, hv, hvu.symm⟩)
  | create tick ts =>
    refine Or.inl ⟨transactionPool_createBlock (p := p) n tick ts _ ▸ hu, fun h => Or.inr ?_⟩
    have hblock : (n.act p (.create tick ts)).2.hand.removing =
        ts.dropLast.map Transaction.id ++ [tick.uuid] := hids tick ts rfl
    rw [hblock]
    simpa [Thread.hand, Hand.taking, Hand.removing] using h
  | append broadcast b =>
    refine Or.inl ⟨transactionPool_addBlock (p := p) n b ▸ hu, fun h => ?_⟩
    simp [Thread.hand, Hand.taking, Hand.removing] at h
  | clean b =>
    obtain ⟨hold, hnot⟩ := TransactionPool.mem_removeFromPool.mp hu
    refine Or.inl ⟨hold, fun h => absurd ?_ hnot⟩
    simpa [Thread.hand, Hand.taking, Hand.removing, Block.ids] using h
  | cleanReceived broadcast b =>
    obtain ⟨hold, hnot⟩ := TransactionPool.mem_removeFromPool.mp hu
    refine Or.inl ⟨hold, fun h => absurd ?_ hnot⟩
    simpa [Thread.hand, Hand.taking, Hand.removing, Block.ids] using h
  | _ => exact absurd trivial haside

/-- **What is on the chain after a step** was there before, or the thread
received it, or created it. -/
theorem mem_blocks_act {t : Thread} {b : Block} (hb : b ∈ (n.act p t).1.blocks) :
    b ∈ n.blocks ∨ t.receives = some b ∨ ∃ tick, t = .create tick b.transactions := by
  by_cases haside : t.Aside
  · exact Or.inl ((act_of_aside (p := p) (n := n) haside).2.1 ▸ hb)
  cases t with
  | lookPool | lookChain =>
    simp only [Node.act] at hb
    split at hb
    · exact Or.inl hb
    · split at hb <;> exact Or.inl hb
  | lookBalance | purge =>
    simp only [Node.act] at hb
    split at hb <;> exact Or.inl hb
  | enqueue | reward | clean | cleanReceived => exact Or.inl hb
  | create tick ts =>
    have hb' := (blocks_createBlock (p := p) n tick ts n.nodeWallet.address) ▸ hb
    rcases List.mem_append.mp hb' with hold | hnew
    · exact Or.inl hold
    · rw [List.mem_singleton.mp hnew]
      exact Or.inr (Or.inr ⟨tick, rfl⟩)
  | append broadcast c =>
    have hb' := (blocks_addBlock (p := p) n c) ▸ hb
    rcases List.mem_append.mp hb' with hold | hnew
    · exact Or.inl hold
    · exact Or.inr (Or.inl (congrArg some (List.mem_singleton.mp hnew).symm))
  | _ => exact absurd trivial haside

end Effects

section Refinement

variable {p} {w : World ι} {i : ι}

/-- A step after which nothing else waits or is settled, and after which the
thread has nothing in hand. -/
theorem withdraws {n : Node} {t : Thread} (hact : w.node.act p (w.thread i) = (n, t))
    (hhand : (w.thread i).hand.taking = [] ∧ (w.thread i).hand.removing = [])
    (hpool : n.poolIds = w.node.poolIds) (hchain : n.chainIds = w.node.chainIds)
    (ht : t.hand = .empty) :
    ∃ m, w.desk.Enabled m ∧ (w.next p (.step i)).desk = w.desk.next m := by
  refine ⟨.withdraw i, hhand, ?_⟩
  simp only [next, hact]
  rw [desk_moved_of_eq hpool hchain, ht]
  rfl

/-- A step aside of the pool and the chain. -/
theorem withdraws_of_aside (h : (w.thread i).Aside) :
    ∃ m, w.desk.Enabled m ∧ (w.next p (.step i)).desk = w.desk.next m := by
  obtain ⟨hpool, hblocks, hbefore, hafter⟩ := act_of_aside (p := p) (n := w.node) h
  refine withdraws rfl (by simp [hbefore, Hand.taking, Hand.removing]) ?_ ?_ hafter
  · exact congrArg (List.map Transaction.id) hpool
  · exact congrArg (List.flatMap Block.ids) hblocks

/-- **One step of a thread is one move at the desk**, or leaves the desk alone. -/
theorem desk_step (htraced : w.Traced) (hguard : w.Guarded p (.step i)) :
    (w.next p (.step i)).desk = w.desk ∨
      ∃ m, w.desk.Enabled m ∧ (w.next p (.step i)).desk = w.desk.next m := by
  by_cases haside : (w.thread i).Aside
  · exact Or.inr (withdraws_of_aside haside)
  cases ht : w.thread i with
  | lookPool tick broadcast t =>
    simp only [Guarded, Free, ht] at hguard
    right
    by_cases hverify : t.verify p = 0
    · have hact : w.node.act p (w.thread i) = (w.node, .idle) := by rw [ht]; exact if_pos hverify
      exact withdraws hact (by rw [ht]; exact ⟨rfl, rfl⟩) rfl rfl rfl
    by_cases hpool : TransactionPool.transactionExists w.node.transactionPool t = true
    · have hact : w.node.act p (w.thread i) = (w.node, .idle) := by
        simp only [ht, Node.act, if_neg hverify, if_pos hpool]
      exact withdraws hact (by rw [ht]; exact ⟨rfl, rfl⟩) rfl rfl rfl
    have hact : w.node.act p (w.thread i) = (w.node, .lookChain tick broadcast t) := by
      simp only [ht, Node.act, if_neg hverify, hpool, Bool.false_eq_true, if_false]
    have hnew : t.id ∉ w.node.poolIds := mt TransactionPool.transactionExists_iff.mpr hpool
    refine ⟨.offer i t.id, ⟨by simp [desk, ht, Thread.hand], hnew, hguard hverify hnew⟩, ?_⟩
    simp only [next, hact]
    exact desk_moved_of_eq rfl rfl
  | lookChain tick broadcast t =>
    have hhand : w.desk.hand i = .offered t.id := by simp [desk, ht, Thread.hand]
    right
    by_cases hchain : w.node.transactionExists t = true
    · have hact : w.node.act p (w.thread i) = (w.node, .idle) := by rw [ht]; exact if_pos hchain
      exact withdraws hact (by rw [ht]; exact ⟨rfl, rfl⟩) rfl rfl rfl
    have hnew : t.id ∉ w.node.chainIds := mt Node.transactionExists_iff.mpr hchain
    refine ⟨.clear i t.id, ⟨hhand, hnew⟩, ?_⟩
    by_cases htype : t.type = "EXCHANGE"
    · have hact : w.node.act p (w.thread i) = (w.node, .enqueue tick broadcast t) := by
        simp only [ht, Node.act, if_neg hchain, htype, ne_eq, not_true_eq_false, if_false]
      simp only [next, hact]
      exact desk_moved_of_eq rfl rfl
    · have hact : w.node.act p (w.thread i) = (w.node, .lookBalance tick broadcast t) := by
        simp only [ht, Node.act, if_neg hchain, htype, ne_eq, not_false_eq_true, if_true]
      simp only [next, hact]
      exact desk_moved_of_eq rfl rfl
  | lookBalance tick broadcast t =>
    by_cases hcovered : w.node.transactionCovered t = true
    · have hact : w.node.act p (w.thread i) = (w.node, .enqueue tick broadcast t) := by
        rw [ht]
        exact if_pos hcovered
      left
      simp only [next, hact]
      rw [desk_moved_of_eq rfl rfl]
      exact Desk.replace_of_hand_eq (by simp [desk, ht, Thread.hand])
    · have hact : w.node.act p (w.thread i) = (w.node, .idle) := by
        rw [ht]
        exact if_neg hcovered
      exact Or.inr (withdraws hact (by rw [ht]; exact ⟨rfl, rfl⟩) rfl rfl rfl)
  | enqueue tick broadcast t =>
    refine Or.inr ⟨.put i t.id, by simp [Desk.Enabled, desk, ht, Thread.hand], ?_⟩
    simp only [next, ht, Node.act]
    rw [desk_moved]
    cases broadcast <;> simp [Desk.next, Node.poolIds, Node.chainIds, Node.addTransaction,
      Node.setPool, TransactionPool.addTransaction, Thread.hand, desk]
  | purge tick forger =>
    by_cases hlong : w.node.transactionPool.length > 500 ∧ forger ∉ w.node.stakers.keys
    · have hact : w.node.act p (w.thread i) = (w.node.setPool [], .reelect tick) := by
        rw [ht]
        exact if_pos hlong
      refine Or.inr ⟨.discard, trivial, ?_⟩
      simp only [next, hact]
      rw [desk_moved]
      exact Desk.replace_of_hand_eq (by simp [desk, ht, Thread.hand])
    · have hact : w.node.act p (w.thread i) = (w.node, .reelect tick) := by
        rw [ht]
        exact if_neg hlong
      exact Or.inr (withdraws hact (by rw [ht]; exact ⟨rfl, rfl⟩) rfl rfl rfl)
  | reward tick =>
    simp only [Guarded, Free, ht] at hguard
    refine Or.inr ⟨.take i tick.uuid, ⟨by simp [desk, ht, Thread.hand], hguard⟩, ?_⟩
    simp only [next, ht, Node.act]
    have hids : (w.node.calculateForgerReward p tick).2.poolIds = w.node.poolIds := by
      simp [Node.poolIds, Node.calculateForgerReward, Node.setPool, Function.comp_def]
    have htaken : ((w.node.calculateForgerReward p tick).1.dropLast).map Transaction.id =
        w.node.poolIds := by
      simp [Node.poolIds, Node.calculateForgerReward, Function.comp_def]
    rw [desk_moved_of_eq hids rfl]
    simp only [Thread.hand, htaken]
    rfl
  | create tick ts =>
    obtain ⟨r, hcharged, hr⟩ := htraced.creates i tick ts ht
    have hids := hcharged.ids
    rw [hr] at hids
    refine Or.inr ⟨.settle i (ts.dropLast.map Transaction.id) tick.uuid,
      by simp [Desk.Enabled, desk, ht, Thread.hand], ?_⟩
    simp only [next, ht, Node.act]
    have hblock : (w.node.createBlock p tick ts w.node.nodeWallet.address).1.ids =
        ts.dropLast.map Transaction.id ++ [tick.uuid] := hids
    have hpool := transactionPool_createBlock (p := p) w.node tick ts w.node.nodeWallet.address
    have hchain := blocks_createBlock (p := p) w.node tick ts w.node.nodeWallet.address
    rw [desk_moved]
    simp only [Node.poolIds, Node.chainIds, hpool, hchain, Thread.hand, hblock, List.flatMap_append,
      List.flatMap_singleton]
    rw [show (w.node.newBlock p tick ts w.node.nodeWallet.address).ids =
      ts.dropLast.map Transaction.id ++ [tick.uuid] from hids]
    rfl
  | clean b =>
    refine Or.inr ⟨.remove i b.ids, by simp [Desk.Enabled, desk, ht, Thread.hand], ?_⟩
    simp only [next, ht, Node.act]
    rw [desk_moved, poolIds_removeFromPool]
    rfl
  | append broadcast b =>
    simp only [Guarded, Free, ht] at hguard
    refine Or.inr ⟨.receive i b.ids, ⟨by simp [desk, ht, Thread.hand], hguard⟩, ?_⟩
    simp only [next, ht, Node.act]
    rw [desk_moved]
    simp only [Node.poolIds, Node.chainIds, transactionPool_addBlock, blocks_addBlock,
      List.flatMap_append, List.flatMap_singleton]
    rfl
  | cleanReceived broadcast b =>
    refine Or.inr ⟨.remove i b.ids, by simp [Desk.Enabled, desk, ht, Thread.hand], ?_⟩
    simp only [next, ht, Node.act]
    rw [desk_moved, poolIds_removeFromPool]
    cases broadcast <;> rfl
  | _ => exact absurd (by rw [ht]; trivial) haside

/-- **One step of a thread** keeps track of where everything comes from. -/
theorem Traced.step (h : w.Traced) (hguard : w.Guarded p (.step i)) :
    (w.next p (.step i)).Traced := by
  have hpasses := passes_act (p := p) (n := w.node) (w.thread i)
  have hself : (w.next p (.step i)).thread i = (w.node.act p (w.thread i)).2 := thread_moved_self
  have hother : ∀ {j}, j ≠ i → (w.next p (.step i)).thread j = w.thread j := thread_moved_of_ne
  have hids : ∀ tick ts, w.thread i = .create tick ts →
      ts.map Transaction.id = ts.dropLast.map Transaction.id ++ [tick.uuid] := by
    intro tick ts hts
    obtain ⟨r, hcharged, hr⟩ := h.creates i tick ts hts
    rw [hcharged.ids, hr]
  constructor
  · intro j t hbrings
    by_cases hji : j = i
    · subst hji
      rw [hself] at hbrings
      rcases hpasses.1 with hnone | hsame
      · rw [hnone] at hbrings
        cases hbrings
      · exact h.brings j t (hsame ▸ hbrings)
    · exact h.brings j t (hother hji ▸ hbrings)
  · intro j b hreceives
    by_cases hji : j = i
    · subst hji
      rw [hself] at hreceives
      rcases hpasses.2.1 with hnone | hsame
      · rw [hnone] at hreceives
        cases hreceives
      · exact h.receives j b (hsame ▸ hreceives)
    · exact h.receives j b (hother hji ▸ hreceives)
  · intro u hu
    rcases mem_pool_act hids hu with ⟨hold, hkeeps⟩ | hbrought | ⟨tick, ht, v, hv, rfl⟩
    · rcases h.waiting u hold with hsubmitted | ⟨hcharged, j, hj⟩
      · exact Or.inl hsubmitted
      · refine Or.inr ⟨hcharged, j, ?_⟩
        by_cases hji : j = i
        · subst hji
          rw [hself]
          exact hkeeps hj
        · rwa [hother hji]
    · exact Or.inl (h.brings i u hbrought)
    · have hsubmitted := h.submitted_of_reward ht hguard
      refine Or.inr ⟨⟨v, hsubmitted v hv, rfl⟩, i, Or.inl ?_⟩
      have hv' : v.id ∈ w.node.transactionPool.map Transaction.id := List.mem_map_of_mem hv
      rw [hself, ht]
      simpa [Node.act, Node.calculateForgerReward, Thread.hand, Hand.taking, Function.comp_def]
        using Or.inl hv'
  · intro j tick ts hts
    by_cases hji : j = i
    · subst hji
      rw [hself] at hts
      obtain ⟨ht, rfl⟩ := hpasses.2.2 tick ts hts
      exact ⟨_, ⟨w.node.transactionPool, rfl, h.submitted_of_reward ht hguard⟩, rfl⟩
    · exact h.creates j tick ts (hother hji ▸ hts)
  · intro b hb
    rcases mem_blocks_act hb with hold | hreceived | ⟨tick, ht⟩
    · exact h.blocks b hold
    · exact Or.inr (Or.inl (h.receives i b hreceived))
    · obtain ⟨r, hcharged, -⟩ := h.creates i tick b.transactions ht
      exact Or.inr (Or.inr ⟨r, hcharged⟩)

/-- A thread that gets a call has nothing in hand. -/
theorem hand_start (c : Call) : (Thread.start c).hand = .empty := by
  cases c <;> rfl

/-- **A new call** leaves the desk alone and brings what it was made with. -/
theorem spawned {c : Call} (hsound : w.desk.Sound) (h : w.Traced) :
    (w.next p (.spawn i c)).desk.Sound ∧ (w.next p (.spawn i c)).Traced := by
  by_cases hidle : w.thread i = .idle
  swap
  · have hsame : w.next p (.spawn i c) = w := by
      unfold next
      dsimp only
      split
      · exact absurd ‹_› hidle
      · rfl
    rw [hsame]
    exact ⟨hsound, h⟩
  have hnext : w.next p (.spawn i c) =
      { w.moved i (w.node, Thread.start c) with calls := w.calls ++ [c] } := by
    simp only [next, hidle]
  have hcalls : w.calls ⊆ (w.next p (.spawn i c)).calls := by
    rw [hnext]
    exact List.subset_append_left _ _
  have hmem : c ∈ (w.next p (.spawn i c)).calls := by
    rw [hnext]
    exact List.mem_append_right _ (List.mem_singleton_self c)
  have hself : (w.next p (.spawn i c)).thread i = Thread.start c := by
    rw [hnext]
    exact thread_moved_self
  have hother : ∀ {j}, j ≠ i → (w.next p (.spawn i c)).thread j = w.thread j := by
    intro j hji
    rw [hnext]
    exact thread_moved_of_ne hji
  have hnode : (w.next p (.spawn i c)).node = w.node := by rw [hnext]; rfl
  have hhand : ∀ j, ((w.next p (.spawn i c)).thread j).hand = (w.thread j).hand := by
    intro j
    by_cases hji : j = i
    · subst hji
      rw [hself, hidle]
      exact hand_start c
    · rw [hother hji]
  constructor
  · have hdesk : (w.next p (.spawn i c)).desk = w.desk := by
      unfold desk
      rw [hnode, funext hhand]
    rwa [hdesk]
  · constructor
    · intro j t ht
      by_cases hji : j = i
      · subst hji
        rw [hself] at ht
        cases c with
        | handleTransaction tick broadcast t' =>
          obtain rfl := Option.some.inj ht
          exact ⟨tick, broadcast, hmem⟩
        | forge tick => cases ht
        | handleBlock broadcast b => cases ht
      · exact (h.brings j t (hother hji ▸ ht)).mono hcalls
    · intro j b hb
      by_cases hji : j = i
      · subst hji
        rw [hself] at hb
        cases c with
        | handleTransaction tick broadcast t' => cases hb
        | forge tick => cases hb
        | handleBlock broadcast b' =>
          obtain rfl := Option.some.inj hb
          exact ⟨broadcast, hmem⟩
      · exact (h.receives j b (hother hji ▸ hb)).mono hcalls
    · intro u hu
      rw [hnode] at hu
      rcases h.waiting u hu with hsubmitted | ⟨⟨v, hv, hvu⟩, j, hj⟩
      · exact Or.inl (hsubmitted.mono hcalls)
      · refine Or.inr ⟨⟨v, hv.mono hcalls, hvu⟩, j, ?_⟩
        rwa [hhand j]
    · intro j tick ts hts
      by_cases hji : j = i
      · subst hji
        rw [hself] at hts
        cases c <;> cases hts
      · obtain ⟨r, hcharged, hr⟩ := h.creates j tick ts (hother hji ▸ hts)
        exact ⟨r, hcharged.mono hcalls, hr⟩
    · intro b hb
      rw [hnode] at hb
      rcases h.blocks b hb with hgenesis | hreceived | ⟨r, hcharged⟩
      · exact Or.inl hgenesis
      · exact Or.inr (Or.inl (hreceived.mono hcalls))
      · exact Or.inr (Or.inr ⟨r, hcharged.mono hcalls⟩)

/-- **One turn** keeps the desk sound and everything traced. -/
theorem sound_next {l : Turn ι} (hsound : w.desk.Sound) (h : w.Traced) (hguard : w.Guarded p l) :
    (w.next p l).desk.Sound ∧ (w.next p l).Traced := by
  cases l with
  | spawn i c => exact spawned hsound h
  | step i =>
    refine ⟨?_, h.step hguard⟩
    rcases desk_step (p := p) h hguard with hsame | ⟨m, hm, hnext⟩
    · rwa [hsame]
    · rw [hnext]
      exact hsound.next hm

end Refinement

/-- **Exactly-once processing under interleaving.** Any number of threads take
their steps on one fresh node in any order. Where no turn takes an id that is
in another hand, no id is on the chain twice, every block but the genesis block
and the received ones holds submitted transactions after one fee each and the
reward, and no waiting transaction was charged more than once. -/
theorem exactly_once_interleaved (n : Node) (hstart : n.Fresh) (ls : List (Turn ι))
    (hguard : Along (next p) (Guarded p) (start n) ls) :
    (run (next p) (start n) ls).node.chainIds.Nodup ∧
    (∀ b ∈ (run (next p) (start n) ls).node.blocks, b = Block.genesis ∨
      (run (next p) (start n) ls).Received b ∨
      ∃ r, (run (next p) (start n) ls).Charged b.transactions r) ∧
    ∀ t ∈ (run (next p) (start n) ls).node.transactionPool,
      (run (next p) (start n) ls).Submitted t ∨
      ∃ u, (run (next p) (start n) ls).Submitted u ∧ t = u.deductFee := by
  obtain ⟨hsound, htraced⟩ := run_invariant
    (I := fun w : World ι => w.desk.Sound ∧ w.Traced)
    (fun w l hw hl => sound_next hw.1 hw.2 hl) (sound_start hstart) hguard
  refine ⟨hsound.nodup_done, htraced.blocks, fun t ht => ?_⟩
  rcases htraced.waiting t ht with hsubmitted | ⟨hcharged, -⟩
  · exact Or.inl hsubmitted
  · exact Or.inr hcharged

/-- Two threads hand over different transactions step by step in turn, while a third one
has the id of the first under a signature that does not fit; then the first one forges. -/
def alternating : List (Turn (Fin 3)) :=
  .spawn 0 (Reference.submit 1 "e" "a" 10 "EXCHANGE" "x") ::
  .spawn 1 (Reference.submit 2 "e" "b" 10 "EXCHANGE" "y") ::
  .spawn 2 (.handleTransaction (Reference.tick 3) true
    { Reference.transaction "e" "a" 10 "EXCHANGE" "x" with amount := 11 }) ::
  [.step 0, .step 2] ++ (List.replicate 4 [.step 1, .step 0]).flatten ++
    List.replicate 7 (.step 0) ++ List.replicate 2 (.step 1)

/-- Both transactions are forged at once. -/
theorem exactly_once_interleaved_reference :
    let n := (run (next Reference.platform) (start (Reference.node 10001)) alternating).node
    n.chainIds = ["x", "y", "r1"] ∧ n.transactionPool = [] ∧ n.chainIds.Nodup := by
  have hrun := exactly_once_interleaved Reference.platform (Reference.node 10001)
    (Node.start_fresh _ _ _ _) alternating (by decide +kernel)
  exact ⟨by decide +kernel, by decide +kernel, hrun.1⟩

/-- The same transaction through two threads that both look before either adds. -/
def overlappingSubmissions : List (Turn (Fin 2)) :=
  .spawn 0 (Reference.submit 1 "e" "a" 10 "EXCHANGE" "x") ::
  .spawn 1 (Reference.submit 2 "e" "a" 10 "EXCHANGE" "x") ::
  (List.replicate 3 [.step 0, .step 1]).flatten ++ List.replicate 6 (.step 0)

/-- A transaction whose thread has calculated the reward when the forging timer
calculates it again and creates a block first. -/
def overlappingForges : List (Turn (Fin 2)) :=
  .spawn 0 (Reference.submit 1 "e" "a" 10 "EXCHANGE" "x") :: List.replicate 8 (.step 0) ++
  .spawn 1 (.forge (Reference.tick 2)) :: List.replicate 4 (.step 1) ++ [.step 0]

/-- An id that is submitted twice at once is on the chain twice; and a
transaction that two threads forge at once is on the chain twice as well, in one
block with the fee taken twice. -/
theorem not_exactly_once_interleaved :
    (run (next Reference.platform) (start (Reference.node 10001))
      overlappingSubmissions).node.chainIds = ["x", "x", "r1"] ∧
    (run (next Reference.platform) (start (Reference.node 10001))
      overlappingForges).node.chainIds = ["x", "r2", "x", "r1"] ∧
    ((run (next Reference.platform) (start (Reference.node 10001))
      overlappingForges).node.blocks.flatMap Block.transactions).map Transaction.amount =
      [10 * (995 / 1000) * (995 / 1000), 10 * (995 / 1000) * (5 / 1000),
        10 * (995 / 1000), 10 * (5 / 1000)] := by
  decide +kernel

end World

end Prawnstar
