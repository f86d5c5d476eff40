import Prawnstar.Transport

/-!
# Processes that exchange bytes

A node of the network gets the values that its peers have sent. A process gets bytes:
the frame of a message, with anything behind it. It receives the frame, parses the body
and, inside it, the data. While the numbers of the messages survive being written and a
body fits an `int`, the nodes of the processes are the nodes of the network, in any
order of deliveries, after any delay and any number of them.
-/

namespace Prawnstar

open Library

namespace SocketCommunication

variable (p : Platform) (parse : List UInt8 → Option Json) (tick : Tick) (s : SocketCommunication)

/-- `SocketCommunication::receive_node_message`: what ended `P2P::Recv`, or what the
handler returned. -/
def receiveNodeMessage (stream : List UInt8) :
    Except P2P.RecvFault (Except Fault Unit) × SocketCommunication :=
  match P2P.recv stream with
  | .error f => (.error f, s)
  | .ok buffer =>
    let handled := s.handleNodeMessage p parse tick buffer
    (.ok handled.1, handled.2)

end SocketCommunication

namespace Message

/-- The messages that a node hands to `broadcast`. -/
inductive FromNode : Message → Prop
  | transaction (t : Transaction) : FromNode ⟨"TRANSACTION", t.toJson⟩
  | forged (b : Block) : FromNode ⟨"BLOCK", b.toPureJson⟩
  | appended (b : Block) : FromNode ⟨"block", b.toPureJson⟩
  | request (requestingNode : String) : FromNode ⟨"BLOCKCHAINREQUEST", .string requestingNode⟩

variable (p : Platform) (m : Message)

/-- The text that a node makes a message of: that of a request is not a value's. -/
def text : String :=
  match m.data with
  | .string requestingNode => requestingNode
  | j => p.dump j

/-- What `Message::Message` makes of a type and a text: the connector is that of the
constructor without arguments. -/
def envelope : P2P.Message := ⟨⟨"", 0⟩, m.messageType, [], m.text p⟩

/-- A message whose numbers survive being written, and whose body fits an `int`. -/
structure Fits (d : Doubles) : Prop where
  /-- The data can be written and read. -/
  data : m.data.WellFormed d
  /-- The length is an `int`. -/
  length : (bytesOf ((m.envelope p).strMsgBody p)).length < 2 ^ 31

end Message

section Receiving

variable {p : Platform} {d : Doubles} {tick : Tick} {s : SocketCommunication} {m : Message}

/-- **A frame is received**, parsed and dispatched. -/
theorem receiveNodeMessage_toJson {m : P2P.Message} {rest : List UInt8}
    (hport : -2 ^ 63 ≤ m.sc.port ∧ m.sc.port < 2 ^ 63)
    (hint : (bytesOf (m.strMsgBody (p.printing d))).length < 2 ^ 31) :
    s.receiveNodeMessage (p.printing d) (Parser.parse d) tick
        (bytesOf (m.toJson (p.printing d)) ++ rest) =
      (.ok (s.dispatch (p.printing d) (Parser.parse d) tick m.json).1,
        (s.dispatch (p.printing d) (Parser.parse d) tick m.json).2) := by
  obtain ⟨buffer, hrecv, hhandled⟩ :=
    P2P.handleNodeMessage_printing rest tick s hport hint
  unfold SocketCommunication.receiveNodeMessage
  rw [hrecv]
  dsimp only
  rw [hhandled]

/-- **A message that a node has sent** does to the node of a process what it does to a
node of the network. -/
theorem node_receiveNodeMessage (hkind : m.FromNode) (hfits : m.Fits (p.printing d) d)
    (rest : List UInt8) :
    (s.receiveNodeMessage (p.printing d) (Parser.parse d) tick
      (bytesOf ((m.envelope (p.printing d)).toJson (p.printing d)) ++ rest)).2.node =
        s.node.handleNodeMessage (p.printing d) tick m := by
  have hport : -2 ^ 63 ≤ (0 : ℤ) ∧ (0 : ℤ) < 2 ^ 63 := by decide
  rw [receiveNodeMessage_toJson (m := m.envelope (p.printing d)) hport hfits.length]
  dsimp only
  cases hkind with
  | transaction t =>
    exact SocketCommunication.node_dispatch (.inl rfl) rfl rfl
      (readText_dump (p := p) hfits.data)
  | forged b =>
    exact SocketCommunication.node_dispatch (.inr rfl) rfl rfl
      (readText_dump (p := p) hfits.data)
  | appended b => rfl
  | request requestingNode => rfl

end Receiving

namespace Node

/-- **Handling a message** makes a call at most, after wallet lookups: a relation that
holds across these holds across it. -/
theorem handleNodeMessage_rel {p : Platform} {R : Node → Node → Prop} (hrefl : ∀ n, R n n)
    (htrans : ∀ {n m k}, R n m → R m k → R n k) (hcall : ∀ n c, R n (n.call p c))
    (hlookup : ∀ n a, R n (openWallet n a)) (n : Node) (tick : Tick) (m : Message) :
    R n (n.handleNodeMessage p tick m) := by
  unfold Node.handleNodeMessage
  by_cases htransaction : m.messageType = "TRANSACTION"
  · rw [if_pos htransaction]
    unfold transactionHandler
    cases readTransaction p m.data with
    | error f => exact hrefl n
    | ok t =>
      have hhandled := hcall n (.handleTransaction tick false t)
      dsimp only [call] at hhandled ⊢
      cases hresult : n.handleTransaction p tick false t with
      | mk result n' =>
        rw [hresult] at hhandled
        cases result <;> exact hhandled
  by_cases hblock : m.messageType = "BLOCK"
  · rw [if_neg htransaction, if_pos hblock, blockHandler_eq]
    have hdecode := decodeBlock_rel (p := p) hrefl htrans hlookup n m.data
    cases hresult : n.decodeBlock p m.data with
    | mk result n' =>
      rw [hresult] at hdecode
      cases result with
      | error f => exact hdecode
      | ok b => exact htrans hdecode (hcall n' (.handleBlock false b))
  · rw [if_neg htransaction, if_neg hblock]
    exact hrefl n

section Sent

variable {p : Platform} {n : Node}

/-- A node that has sent its own messages only. -/
def SentOwn (n : Node) : Prop := ∀ m ∈ n.sent, m.FromNode

/-- One message more. -/
theorem SentOwn.broadcast (h : n.SentOwn) {m : Message} (hm : m.FromNode) :
    (n.broadcast m).SentOwn := by
  intro m' hm'
  rcases List.mem_append.mp hm' with hold | hnew
  · exact h m' hold
  · rw [List.mem_singleton.mp hnew]
    exact hm

/-- What nobody is sent for. -/
theorem SentOwn.congr {n' : Node} (h : n.SentOwn) (hsent : n'.sent = n.sent) : n'.SentOwn := by
  unfold SentOwn
  rw [hsent]
  exact h

/-- A transaction that is admitted is sent on at most. -/
theorem SentOwn.enqueue (h : n.SentOwn) (broadcast : Bool) (t : Transaction) :
    (n.enqueue broadcast t).SentOwn := by
  have hadd : (n.addTransaction t).SentOwn := h.congr rfl
  cases broadcast with
  | false => exact hadd
  | true => exact hadd.broadcast (.transaction t)

/-- Forging sends a block at most. -/
theorem SentOwn.forge (h : n.SentOwn) (tick : Tick) : (n.forge p tick).2.SentOwn := by
  have hevict : ∀ f, (n.evict p f).sent = n.sent := by
    intro f
    unfold evict
    dsimp only
    split <;> rfl
  refine forge_induction tick (fun f _ hn => hn.congr (hevict f)) (fun hn _ => ?_)
    (fun f hn _ => hn.congr rfl) h
  unfold SentOwn
  rw [sent_forgeBlock]
  exact hn.broadcast (.forged _)

/-- A transaction that is handled. -/
theorem SentOwn.handleTransaction (h : n.SentOwn) (tick : Tick) (broadcast : Bool)
    (t : Transaction) : (n.handleTransaction p tick broadcast t).2.SentOwn := by
  by_cases hadmits : n.Admits p t
  · have hadmitted := h.enqueue broadcast t
    by_cases hf : TransactionPool.forgerRequired (n.enqueue broadcast t).transactionPool = true
    · rw [handleTransaction_of_forges hadmits hf]
      exact hadmitted.forge tick
    · rwa [handleTransaction_of_waits hadmits hf]
  · rwa [handleTransaction_of_not_admits hadmits]

/-- A block that is handled. -/
theorem SentOwn.handleBlock (h : n.SentOwn) (broadcast : Bool) (b : Block) :
    (n.handleBlock p broadcast b).2.SentOwn := by
  by_cases haccepts : n.Accepts p b
  · have happend : (n.append p b).SentOwn := h.congr (sent_append p n b)
    rw [handleBlock_of_accepts haccepts]
    cases broadcast with
    | false => exact happend
    | true => exact happend.broadcast (.appended b)
  · rcases handleBlock_of_not_accepts broadcast haccepts with he | he
    · rw [he]
      exact h.congr rfl
    · rw [he]
      exact SentOwn.broadcast (n := n.openWallet b.forgerAddress) (h.congr rfl) (.request _)

/-- **Calls** of a node send its own messages. -/
theorem SentOwn.call (h : n.SentOwn) (c : Call) : (n.call p c).SentOwn := by
  cases c with
  | handleTransaction tick broadcast t => exact h.handleTransaction tick broadcast t
  | forge tick => exact h.forge tick
  | handleBlock broadcast b => exact h.handleBlock broadcast b

/-- So does handling a message. -/
theorem SentOwn.handleNodeMessage (h : n.SentOwn) (tick : Tick) (m : Message) :
    (n.handleNodeMessage p tick m).SentOwn :=
  handleNodeMessage_rel (R := fun n n' => n.SentOwn → n'.SentOwn) (fun _ h => h)
    (fun f g h => g (f h)) (fun _ c h => h.call c) (fun _ _ h => h.congr rfl) n tick m h

end Sent

end Node

/-- The processes of a network. -/
abbrev Processes (ι : Type*) := ι → SocketCommunication

namespace Processes

variable {ι : Type*} [DecidableEq ι] (p : Platform) (parse : List UInt8 → Option Json)

/-- The nodes of the processes. -/
def nodes (w : Processes ι) : Network ι := fun i => (w i).node

/-- The processes after an event of the network; where a message is delivered, bytes
arrive behind its frame. -/
def next (w : Processes ι) : Delivery ι × List UInt8 → Processes ι
  | (.submit i tick t, _) =>
    Function.update w i { w i with node := (w i).node.call p (.handleTransaction tick true t) }
  | (.forge i tick, _) =>
    Function.update w i { w i with node := (w i).node.call p (.forge tick) }
  | (.deliver i j k tick, rest) =>
    match (w j).node.sent[k]? with
    | some m => Function.update w i
        ((w i).receiveNodeMessage p parse tick (bytesOf ((m.envelope p).toJson p) ++ rest)).2
    | none => w

/-- The messages that an event delivers fit. -/
def Fits (d : Doubles) (w : Processes ι) : Delivery ι × List UInt8 → Prop
  | (.deliver _ j k _, _) => ∀ m, (w j).node.sent[k]? = some m → m.Fits p d
  | _ => True

variable {p} {d : Doubles} {w : Processes ι}

/-- The nodes after one process has changed. -/
theorem nodes_update (i : ι) (s : SocketCommunication) :
    nodes (Function.update w i s) = Function.update (nodes w) i s.node := by
  funext k
  by_cases hk : k = i
  · subst hk
    simp [nodes]
  · simp [nodes, hk]

/-- **One event** does to the nodes of the processes what it does to the network. -/
theorem nodes_next (hown : ∀ i, (w i).node.SentOwn) {l : Delivery ι × List UInt8}
    (hfits : Fits (p.printing d) d w l) :
    nodes (next (p.printing d) (Parser.parse d) w l) =
      Network.next (p.printing d) (nodes w) l.1 := by
  obtain ⟨event, rest⟩ := l
  cases event with
  | submit i tick t => exact nodes_update i _
  | forge i tick => exact nodes_update i _
  | deliver i j k tick =>
    have hnodes : (nodes w j).sent[k]? = (w j).node.sent[k]? := rfl
    unfold next Network.next
    dsimp only
    rw [hnodes]
    cases hsent : (w j).node.sent[k]? with
    | none => rfl
    | some m =>
      dsimp only
      rw [nodes_update,
        node_receiveNodeMessage (hown j m (List.mem_of_getElem? hsent)) (hfits m hsent)]
      rfl

/-- The nodes of the network go on sending their own messages. -/
theorem sentOwn_next {w : Network ι} (hown : ∀ i, (w i).SentOwn) (l : Delivery ι) (i : ι) :
    (Network.next p w l i).SentOwn := by
  have hupdate : ∀ (j : ι) (n : Node), n.SentOwn → (Function.update w j n i).SentOwn := by
    intro j n hn
    by_cases hij : i = j
    · subst hij
      rwa [Function.update_self]
    · rw [Function.update_of_ne hij]
      exact hown i
  cases l with
  | submit j tick t => exact hupdate j _ ((hown j).call _)
  | forge j tick => exact hupdate j _ ((hown j).call _)
  | deliver j j' k tick =>
    unfold Network.next
    dsimp only
    cases (w j').sent[k]? with
    | none => exact hown i
    | some m => exact hupdate j _ ((hown j).handleNodeMessage tick m)

/-- **Processes that exchange bytes.** From processes whose nodes have sent their own
messages only, along every run whose deliveries fit, the nodes of the processes are those
of the network after the same events, whatever bytes follow the frames. -/
theorem nodes_run (p : Platform) (d : Doubles) (w : Processes ι)
    (ls : List (Delivery ι × List UInt8)) (hown : ∀ i, (w i).node.SentOwn)
    (hfits : Along (next (p.printing d) (Parser.parse d)) (Fits (p.printing d) d) w ls) :
    nodes (run (next (p.printing d) (Parser.parse d)) w ls) =
      run (Network.next (p.printing d)) (nodes w) (ls.map Prod.fst) := by
  induction ls generalizing w with
  | nil => rfl
  | cons l ls ih =>
    rw [along_cons] at hfits
    have hstep := nodes_next hown hfits.1
    have hafter : ∀ i, (next (p.printing d) (Parser.parse d) w l i).node.SentOwn := by
      intro i
      have hi := sentOwn_next (w := nodes w) hown l.1 i (p := p.printing d)
      rwa [← hstep] at hi
    rw [run_cons, List.map_cons, run_cons, ih _ hafter hfits.2, hstep]

/-- Alice's transfer is read by the second node from a frame with bytes behind it. -/
theorem nodes_run_reference :
    let d := Reference.doubles
    let p := Reference.platform.printing d
    let alice := (Reference.wallet "a").address
    let t : Transaction := { Transaction.blank with
      senderAddress := alice, receiverAddress := "b", amount := 1 / 2, type := "TRANSFER",
      id := "t" }
    let w : Processes (Fin 2) := fun i => ⟨{ Reference.node (10001 + i) with
      accountModel := (Reference.node 10001).accountModel.updateBalance alice 1 }, [], []⟩
    (nodes (run (next p (Parser.parse d)) w
      [(.submit 0 (Reference.tick 1) t, []), (.deliver 1 0 0 (Reference.tick 2), [123, 0])])
        1).transactionPool = [t] := by
  intro d p alice t w
  have hadmits : (w 0).node.Admits p t := by decide +kernel
  have hwaits : ¬TransactionPool.forgerRequired ((w 0).node.enqueue true t).transactionPool =
      true := by
    decide +kernel
  have hcall : (w 0).node.call p (.handleTransaction (Reference.tick 1) true t) =
      (w 0).node.enqueue true t :=
    congrArg Prod.snd (Node.handleTransaction_of_waits hadmits hwaits)
  rw [nodes_run Reference.platform d w _ (fun i m hm => nomatch hm)]
  · decide +kernel
  · refine ⟨trivial, fun m hm => ?_, trivial⟩
    have hsent : (next p (Parser.parse d) w (.submit 0 (Reference.tick 1) t, []) 0).node.sent =
        [⟨"TRANSACTION", t.toJson⟩] := by
      change (Function.update w 0 _ 0).node.sent = _
      rw [Function.update_self]
      change ((w 0).node.call p (.handleTransaction (Reference.tick 1) true t)).sent = _
      rw [hcall]
      rfl
    rw [hsent] at hm
    obtain rfl : _ = m := Option.some.inj hm
    have ht : t.Writable d := ⟨Reference.recovers_doubles fun _ => by norm_num [t], by decide⟩
    refine ⟨ht.toJson, ?_⟩
    rw [P2P.Message.strMsgBody, bytesOf_dump (P2P.wellFormed_json (by decide))]
    decide +kernel

end Processes

end Prawnstar
