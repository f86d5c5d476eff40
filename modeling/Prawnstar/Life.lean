import Prawnstar.Processes
import Prawnstar.Draining
import Prawnstar.Replay

/-!
# The life of a process

Between its start and its end bytes arrive at the port of a process, its threads forge and
look for peers, and clients of its API have it make transactions. Each of these does to
the node a few of the things that a node does: whatever holds across these holds across
the life of a process, whatever is sent to it.
-/

namespace Prawnstar

open Library

/-- What a client sends to `/transact`, and what the process draws for the transaction. -/
structure TransactRequest where
  /-- `sender` -/
  sender : String
  /-- `receiver` -/
  receiver : String
  /-- `type` -/
  type : String
  /-- `amount` -/
  amount : ℚ
  /-- `utils::get_uuid` -/
  uuid : String
  /-- `utils::timeSinceEpoch` -/
  timestamp : ℤ
  /-- Randomness of the signature. -/
  nonce : ℕ

/-- What `erase` and `remove` leave of a text: all but its quotation marks. -/
def eraseQuotes (str : String) : String :=
  String.ofList (str.toList.filter fun c => c.toNat ≠ 0x22)

/-- `crow::response` -/
structure Response where
  /-- The status. -/
  code : ℕ
  /-- The body. -/
  body : String
  deriving DecidableEq

namespace Response

/-- There is no such wallet. -/
def walletNotFound : Response := ⟨201, "\x7b\"message\":\"Wallet not found\"\x7d"⟩

/-- The transaction was refused. -/
def failed : Response := ⟨500, "\x7b\"message\":\"Failed to handle transaction\"\x7d"⟩

/-- The transaction was taken. -/
def received : Response := ⟨201, "\x7b\"message\":\"Received transaction\"\x7d"⟩

/-- These are different answers. -/
theorem received_ne_failed : received ≠ failed := by decide

end Response

namespace Node

/-- The transaction that `/transact` has the sender's wallet create. -/
def requested (p : Platform) (n : Node) (req : TransactRequest) : Transaction :=
  (n.accountModel.wallet (eraseQuotes req.sender)).createTransaction p (eraseQuotes req.receiver)
    req.amount (eraseQuotes req.type) req.uuid req.timestamp req.nonce

/-- What a node does in the life of its process. -/
inductive Move
  /-- It makes a call, or imports a chain. -/
  | handle (e : Event)
  /-- It looks up a wallet. -/
  | lookup (address : String)
  /-- It requests the chain. -/
  | request
  /-- It takes a transaction that it cannot broadcast. -/
  | take (t : Transaction)

/-- The node after it moved. -/
def move (p : Platform) (n : Node) : Move → Node
  | .handle e => n.handle p e
  | .lookup address => n.openWallet address
  | .request => n.requestChain
  | .take t => if n.Admits p t then n.enqueue true t else n

end Node

namespace SocketCommunication

variable (p : Platform) (parse : List UInt8 → Option Json) (s : SocketCommunication)

/-- The route `/transact`, once the members of the request were read. A broadcast that
throws ends it before the node forges. -/
def transact (tick : Tick) (req : TransactRequest) : Except Fault Response × SocketCommunication :=
  if s.node.accountModel.accountExists (eraseQuotes req.sender) then
    let tx := s.node.requested p req
    let n := s.node.openWallet (eraseQuotes req.sender)
    if ¬s.dialable ∧ n.Admits p tx then (.error .logicError, { s with node := n.enqueue true tx })
    else
      let handled := n.handleTransaction p tick true tx
      (handled.1.map fun success => if success then .received else .failed,
        { s with node := handled.2 })
  else (.ok .walletNotFound, s)

/-- What happens to a process. -/
inductive Happening
  /-- Bytes arrive at its port. -/
  | receive (tick : Tick) (stream : List UInt8)
  /-- `blockForger` wakes up. -/
  | blockForger (tick : Tick)
  /-- `peerDiscovery` wakes up, and some connections fail. -/
  | peerDiscovery (connects : SocketConnector → Bool)
  /-- A client posts to `/transact`. -/
  | transact (tick : Tick) (req : TransactRequest)

/-- The process after something happened to it. -/
def live (masterNode : String) (s : SocketCommunication) : Happening → SocketCommunication
  | .receive tick stream => (s.receiveNodeMessage p parse tick stream).2
  | .blockForger tick =>
    if s.node.transactionPool ≠ [] then (s.calling (s.node.forge p tick)).2 else s
  | .peerDiscovery connects =>
    (s.broadcastPeerDiscovery masterNode connects s.handshakeMessage).2
  | .transact tick req => (s.transact p tick req).2

/-- The process after a part of its life. -/
abbrev life (masterNode : String) (hs : List Happening) : SocketCommunication :=
  run (live p parse masterNode) s hs

end SocketCommunication

namespace Node

section Moves

variable {p : Platform} {n m k : Node}

/-- A node that is another one after some moves. -/
def Leads (p : Platform) (n m : Node) : Prop := ∃ ms, m = run (move p) n ms

/-- No move. -/
theorem Leads.refl (n : Node) : n.Leads p n := ⟨[], rfl⟩

/-- One move. -/
theorem Leads.of_move (n : Node) (a : Move) : n.Leads p (n.move p a) := ⟨[a], rfl⟩

/-- Moves after moves. -/
theorem Leads.trans (h : n.Leads p m) (h' : m.Leads p k) : n.Leads p k := by
  obtain ⟨ms, rfl⟩ := h
  obtain ⟨more, rfl⟩ := h'
  exact ⟨ms ++ more, (run_append n ms more).symm⟩

/-- A transaction or a block is handled with moves. -/
theorem leads_handleNodeMessage (n : Node) (tick : Tick) (m : Message) :
    n.Leads p (n.handleNodeMessage p tick m) :=
  handleNodeMessage_rel (R := Leads p) Leads.refl Leads.trans
    (fun n c => Leads.of_move n (.handle (.call c))) (fun n a => Leads.of_move n (.lookup a)) n
    tick m

/-- A node that wakes up to forge makes a call, or nothing. -/
theorem leads_poll (n : Node) (tick : Tick) : n.Leads p (n.poll p tick) := by
  unfold poll
  split
  · exact Leads.of_move n (.handle (.call (.forge tick)))
  · exact Leads.refl n

end Moves

end Node

namespace SocketCommunication

section Moves

variable {p : Platform} {parse : List UInt8 → Option Json} {s : SocketCommunication}

/-- Meeting the sender of a handshake requests the chain, or nothing. -/
theorem leads_meet (s : SocketCommunication) (newPeer : String) :
    s.node.Leads p (s.meet newPeer).2.node := by
  unfold meet
  split
  · exact Node.Leads.refl s.node
  · exact Node.Leads.of_move s.node .request

/-- Learning peers does nothing to the node. -/
theorem node_forEach_learn (s : SocketCommunication) (heard : List String) :
    (forEach learn s heard).2.node = s.node := by
  refine forEach_invariant (I := fun t : SocketCommunication => t.node = s.node)
    (fun t peer ht => ?_) rfl heard
  rw [← ht]
  unfold learn
  split
  · rfl
  · split
    · rfl
    · split <;> rfl

/-- Nor does looking for peers. -/
theorem node_broadcastPeerDiscovery (s : SocketCommunication) (masterNode : String)
    (connects : SocketConnector → Bool) (j : Json) :
    (s.broadcastPeerDiscovery masterNode connects j).2.node = s.node := by
  unfold broadcastPeerDiscovery
  split
  · rfl
  · refine forEach_invariant (I := fun t : SocketCommunication => t.node = s.node)
      (fun t peer ht => ?_) rfl _
    rw [← ht]
    unfold probe
    split
    · rfl
    · split <;> rfl

/-- A handshake is handled with moves. -/
theorem leads_peerDiscoveryHandleMessage (s : SocketCommunication) (j : Json) :
    s.node.Leads p (s.peerDiscoveryHandleMessage p j).2.node := by
  unfold peerDiscoveryHandleMessage
  cases senderConnector p j with
  | error f => exact Node.Leads.refl s.node
  | ok sender =>
    have hmeet := leads_meet (p := p) s sender.ipPort
    dsimp only
    cases hmet : s.meet sender.ipPort with
    | mk result t =>
      rw [hmet] at hmeet
      cases result with
      | error f => exact hmeet
      | ok u =>
        cases messagePeers j with
        | error f => exact hmeet
        | ok heard =>
          dsimp only
          rwa [node_forEach_learn]

/-- The data of a message are handled with moves when every text is. -/
theorem leads_withData {handler : String → Except Fault Unit × SocketCommunication}
    (h : ∀ data, s.node.Leads p (handler data).2.node) (j : Json) :
    s.node.Leads p (s.withData j handler).2.node := by
  unfold withData
  split
  · exact Node.Leads.refl s.node
  · exact h _

/-- **A message of any kind** is handled with moves. -/
theorem leads_dispatch (s : SocketCommunication) (tick : Tick) (j : Json) :
    s.node.Leads p (s.dispatch p parse tick j).2.node := by
  unfold dispatch
  split
  · exact Node.Leads.refl s.node
  · next messageType _ =>
    split_ifs
    · exact leads_peerDiscoveryHandleMessage s j
    · exact leads_withData (fun data =>
        Node.leads_handleNodeMessage s.node tick ⟨"TRANSACTION", readText parse data⟩) j
    · exact leads_withData (fun data =>
        Node.leads_handleNodeMessage s.node tick ⟨"BLOCK", readText parse data⟩) j
    · exact leads_withData (fun data => Node.Leads.refl s.node) j
    · exact leads_withData (fun data => Node.Leads.of_move s.node (.handle (.blockchain _))) j
    · exact Node.Leads.refl s.node

/-- A request to `/transact` is handled with moves. -/
theorem leads_transact (s : SocketCommunication) (tick : Tick) (req : TransactRequest) :
    s.node.Leads p (s.transact p tick req).2.node := by
  unfold transact
  split
  · refine (Node.Leads.of_move s.node (.lookup (eraseQuotes req.sender))).trans ?_
    dsimp only
    split
    · next hthrown =>
      have htaken := Node.Leads.of_move (p := p) (s.node.openWallet (eraseQuotes req.sender))
        (.take (s.node.requested p req))
      rwa [Node.move, if_pos hthrown.2] at htaken
    · exact Node.Leads.of_move _ (.handle (.call (.handleTransaction tick true _)))
  · exact Node.Leads.refl s.node

/-- Whatever happens to a process is done with moves of its node. -/
theorem leads_live (masterNode : String) (s : SocketCommunication) (e : Happening) :
    s.node.Leads p (s.live p parse masterNode e).node := by
  cases e with
  | receive tick stream =>
    dsimp only [live]
    unfold receiveNodeMessage
    split
    · exact Node.Leads.refl s.node
    · exact leads_dispatch s tick _
  | blockForger tick =>
    have hpoll := Node.leads_poll (p := p) s.node tick
    unfold Node.poll at hpoll
    dsimp only [live]
    split
    · next hwaiting => rwa [if_pos hwaiting] at hpoll
    · exact Node.Leads.refl s.node
  | peerDiscovery connects =>
    dsimp only [live]
    rw [node_broadcastPeerDiscovery]
    exact Node.Leads.refl s.node
  | transact tick req => exact leads_transact s tick req

/-- **A process does what its node does.** Whatever bytes a process receives, and whatever
its threads and its clients do, its node moves as nodes move: it makes calls, imports
chains, looks up wallets, requests the chain and takes transactions. -/
theorem life_leads (masterNode : String) (s : SocketCommunication) (hs : List Happening) :
    s.node.Leads p (s.life p parse masterNode hs).node :=
  run_simulates (fun s e => leads_live masterNode s e) s hs

end Moves

end SocketCommunication

end Prawnstar
