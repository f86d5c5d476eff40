import Prawnstar.Wire
import Prawnstar.Forging

/-!
# A network of nodes

Any number of nodes handle transactions and forge, and the transactions and
blocks that they broadcast reach the others in any order, after any delay and
any number of times. What a block does to the stakers depends on keys that are
not on the wire, so blocks are compared as a registry reads them, and a chain
elects its next forger when the registry has the keys that were staked under.
-/

namespace Prawnstar

open Library

namespace Node

/-- `SocketCommunication::handleNodeMessage` with a transaction or a block. -/
def handleNodeMessage (p : Platform) (n : Node) (tick : Tick) (m : Message) : Node :=
  if m.messageType = "TRANSACTION" then (n.transactionHandler p tick m.data).2
  else if m.messageType = "BLOCK" then (n.blockHandler p m.data).2
  else n

end Node

/-- The nodes of a network. -/
abbrev Network (ι : Type*) := ι → Node

/-- What happens next in a network: a client submits a transaction, a forging
timer fires, or a message that a node has sent is delivered to a node. -/
inductive Delivery (ι : Type*)
  | submit (i : ι) (tick : Tick) (t : Transaction)
  | forge (i : ι) (tick : Tick)
  | deliver (i j : ι) (k : ℕ) (tick : Tick)

/-- The node at which an event happens. -/
def Delivery.site {ι : Type*} : Delivery ι → ι
  | .submit i _ _ => i
  | .forge i _ => i
  | .deliver i _ _ _ => i

/-- The transaction that a client submits. -/
def Delivery.submitted {ι : Type*} : Delivery ι → Option Transaction
  | .submit _ _ t => some t
  | _ => none

namespace Network

variable {ι : Type*} [DecidableEq ι] (p : Platform)

/-- The network after one event. -/
def next (w : Network ι) : Delivery ι → Network ι
  | .submit i tick t => Function.update w i ((w i).call p (.handleTransaction tick true t))
  | .forge i tick => Function.update w i ((w i).call p (.forge tick))
  | .deliver i j k tick =>
    match (w j).sent[k]? with
    | some m => Function.update w i ((w i).handleNodeMessage p tick m)
    | none => w

/-- The call of `handleTransaction` or `forge` that an event makes, and where. -/
def calls (w : Network ι) : Delivery ι → Option (ι × Call)
  | .submit i tick t => some (i, .handleTransaction tick true t)
  | .forge i tick => some (i, .forge tick)
  | .deliver i j k tick =>
    match (w j).sent[k]? with
    | some m =>
      if m.messageType = "TRANSACTION" then
        match readTransaction p m.data with
        | .ok t => some (i, .handleTransaction tick false t)
        | .error _ => none
      else none
    | none => none

/-- The forger that an event makes a node evict, if it makes one. -/
def evicted (w : Network ι) (l : Delivery ι) : Option String :=
  (w.calls p l).bind fun c => (w c.1).evicted p c.2

end Network

/-- A registry of keys by address. -/
abbrev Registry := String → Option String

namespace Registry

/-- The key that a registry has for an address. -/
def keyOf (R : Registry) (address : String) : String := (R (cStr address)).getD ""

/-- A transaction that stakes under the key that the registry has for its sender,
if it stakes. -/
def Keyed (R : Registry) (t : Transaction) : Prop :=
  t.type = "STAKE" → t.senderAddress = t.receiverAddress →
    R (cStr t.senderAddress) = some t.senderPublicKey

instance (R : Registry) : DecidablePred R.Keyed := fun t =>
  inferInstanceAs (Decidable (t.type = "STAKE" → _ → _))

/-- A block as everybody has it: without what is not on the wire. -/
def bare (R : Registry) (b : Block) : Block := b.keyed R.keyOf

variable {R : Registry}

/-- A transaction that is keyed stays so as long as it is sent from and to the
same addresses under the same key. -/
theorem Keyed.congr {t u : Transaction} (h : R.Keyed t) (htype : u.type = t.type)
    (hsender : u.senderAddress = t.senderAddress)
    (hreceiver : u.receiverAddress = t.receiverAddress)
    (hkey : u.senderPublicKey = t.senderPublicKey) : R.Keyed u := by
  intro hstake hself
  rw [hsender, hkey]
  exact h (htype ▸ hstake) (by rw [← hsender, ← hreceiver, hself])

/-- The fee does not matter. -/
theorem Keyed.deductFee {t : Transaction} (h : R.Keyed t) : R.Keyed t.deductFee :=
  h.congr t.deductFee_type t.deductFee_senderAddress t.deductFee_receiverAddress
    t.deductFee_senderPublicKey

/-- A block is the same on the wire whatever keys its readers have. -/
theorem toPureJson_keyed (key : String → String) (b : Block) :
    (b.keyed key).toPureJson = b.toPureJson := by
  unfold Block.toPureJson
  exact Block.members_keyed key b b.signature

/-- A block that was received is the same to everybody. -/
theorem bare_keyed (key : String → String) (b : Block) : R.bare (b.keyed key) = R.bare b := by
  simp only [bare, Block.keyed, List.map_map]
  rfl

end Registry

namespace ProofOfStake

/-- What executing a transaction does to the stakers. -/
def execute (p : Platform) (stakers : Stakers) (t : Transaction) : Stakers :=
  if t.type = "STAKE" ∧ t.senderAddress = t.receiverAddress then
    update p stakers t.senderPublicKey t.amount
  else stakers

/-- The stakers after the blocks of a chain. -/
def after (p : Platform) (stakers : Stakers) (bs : List Block) : Stakers :=
  (bs.flatMap Block.transactions).foldl (execute p) stakers

/-- The forger that a chain elects. -/
def elected (p : Platform) (stakers : Stakers) (bs : List Block) : Except Fault String :=
  forger p (after p stakers bs) ((bs.getLast?.map Block.lastHash).getD "")

variable {p : Platform} {R : Registry}

/-- Executing transactions executes them on the stakers. -/
theorem stakers_executeTransactions (n : Node) (ts : List Transaction) :
    (n.executeTransactions p ts).stakers = ts.foldl (execute p) n.stakers := by
  induction ts generalizing n with
  | nil => rfl
  | cons t ts ih =>
    have hfirst : (n.executeTransaction p t).stakers = execute p n.stakers t := by
      unfold Node.executeTransaction execute
      by_cases htype : t.type = "STAKE"
      · by_cases hself : t.senderAddress = t.receiverAddress <;> simp [htype, hself]
      · simp [htype]
    rw [Node.executeTransactions_cons, ih, hfirst, List.foldl_cons]

/-- Forging executes the transactions of the forged block on the stakers. -/
theorem stakers_forgeBlock (n : Node) (tick : Tick) : (n.forgeBlock p tick).stakers =
    (n.forgedTransactions p tick).foldl (execute p) n.stakers := by
  rw [Node.forgeBlock_eq]
  exact stakers_executeTransactions (n.openWallet n.nodeWallet.address) _

/-- The transactions of a received block are executed on the stakers. -/
theorem stakers_append (n : Node) (b : Block) :
    (n.append p b).stakers = b.transactions.foldl (execute p) n.stakers :=
  stakers_executeTransactions (n.openWallet b.forgerAddress) b.transactions

/-- A keyed transaction is executed alike by everybody. -/
theorem execute_keyed {t : Transaction} (h : R.Keyed t) (stakers : Stakers) :
    execute p stakers (t.keyed R.keyOf) = execute p stakers t := by
  unfold execute
  by_cases hstake : t.type = "STAKE" ∧ t.senderAddress = t.receiverAddress
  · have hkey : R.keyOf t.senderAddress = t.senderPublicKey := by
      rw [Registry.keyOf, h hstake.1 hstake.2, Option.getD_some]
    rw [if_pos hstake, ← hkey]
    exact if_pos hstake
  · rw [if_neg hstake]
    exact if_neg hstake

/-- One more block of keyed transactions. -/
theorem after_concat {stakers : Stakers} {bs : List Block} {b : Block}
    (h : ∀ t ∈ b.transactions, R.Keyed t) :
    after p stakers (bs ++ [R.bare b]) = b.transactions.foldl (execute p) (after p stakers bs) := by
  have hbare : (R.bare b).transactions = b.transactions.map (Transaction.keyed R.keyOf) := rfl
  unfold after
  rw [List.flatMap_append, List.foldl_append, List.flatMap_singleton, hbare, List.foldl_map]
  generalize (bs.flatMap Block.transactions).foldl (execute p) stakers = s
  generalize b.transactions = ts at h
  induction ts generalizing s with
  | nil => rfl
  | cons t ts ih =>
    rw [List.foldl_cons, List.foldl_cons, execute_keyed (h t List.mem_cons_self)]
    exact ih _ fun u hu => h u (List.mem_cons_of_mem _ hu)

end ProofOfStake

end Prawnstar
