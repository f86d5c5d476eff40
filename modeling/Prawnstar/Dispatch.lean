import Prawnstar.Fields
import Prawnstar.Elections
import Prawnstar.Network

/-!
# Messages that end the process

A message is bytes from anybody. Its parse error is caught, and the call goes on
with null; nothing else is caught. So a message is survived exactly when every
field that its handler reads is there and of its type, when the elections that it
causes succeed, when the keys can be read that signatures are checked under or made
with, and when every peer can be dialled that a broadcast comes to.
-/

namespace Prawnstar

open Library

/-- What a handler parses: null when the parse error was caught. -/
def readText (parse : List UInt8 → Option Json) (text : String) : Json :=
  (parse text.toUTF8.toList).getD .null

namespace Node

variable (p : Platform) (n : Node)

/-- The keys that a forging node signs with can be read: the one of the exchange wallet
for the reward, and the one that is registered for its own address for the block. -/
def CanSign : Prop :=
  ¬p.signReadsNull n.exchangeWallet.walletPrivateKey ∧
    ¬p.signReadsNull (n.accountModel.wallet n.nodeWallet.address).walletPrivateKey

instance : Decidable (n.CanSign p) := inferInstanceAs (Decidable (_ ∧ _))

/-- Whether `Node::forge` reads through a null pointer: the node is elected and cannot
sign. -/
def forgeReadsNull : Bool :=
  let n := n.settled p
  n.nextForger p = .ok n.nodeWallet.walletPublicKey ∧ ¬n.CanSign p

/-- Whether handling a transaction does, in the check of its signature or in the forging
that it causes. -/
def transactionReadsNull (tick : Tick) (t : Transaction) : Bool :=
  p.verifyReadsNull t.signature t.senderPublicKey ||
    (n.forging p (.handleTransaction tick false t)).any (forgeReadsNull p)

/-- Whether handling a block does: the signature of the next block is checked under the
key that is registered for its forger, which is empty where there is none. -/
def blockReadsNull (b : Block) : Bool :=
  n.blockCountValid b && (n.nextForger p).isOk && p.verifyReadsNull b.signature (n.forgerKey b)

/-- A call that may end in a read through a null pointer. What it leaves behind is of no
account if it does. -/
def orNull (readsNull : Bool) (r : Except Fault Unit × Node) : Except Fault Unit × Node :=
  (if readsNull then .error .nullPointer else r.1, r.2)

/-- `transactionHandler`, with the reads through a null pointer. -/
def serveTransaction (tick : Tick) (jx : Json) : Except Fault Unit × Node :=
  orNull (match readTransaction p jx with
    | .ok t => n.transactionReadsNull p tick t
    | .error _ => false) (n.transactionHandler p tick jx)

/-- `blockHandler`, with the reads through a null pointer. -/
def serveBlock (jx : Json) : Except Fault Unit × Node :=
  orNull (match n.decodeBlock p jx with
    | (.ok b, n) => n.blockReadsNull p b
    | (.error _, _) => false) (n.blockHandler p jx)

end Node

namespace SocketCommunication

variable (p : Platform) (parse : List UInt8 → Option Json) (tick : Tick) (s : SocketCommunication)

/-- A handler of the data of a message, which are converted to a string first. -/
def withData (j : Json) (handler : String → Except Fault Unit × SocketCommunication) :
    Except Fault Unit × SocketCommunication :=
  match (do (← j.member "Message").stringAt "data") with
  | .error f => (.error f, s)
  | .ok data => handler data

/-- What `handleNodeMessage` does with a message that was parsed. -/
def dispatch (j : Json) : Except Fault Unit × SocketCommunication :=
  match (do (← j.member "Message").stringAt "Type") with
  | .error f => (.error f, s)
  | .ok messageType =>
    if messageType = "DISCOVERY" then s.peerDiscoveryHandleMessage p j
    else if messageType = "TRANSACTION" then
      s.withData j fun data => s.calling (s.node.serveTransaction p tick (readText parse data))
    else if messageType = "BLOCK" then
      s.withData j fun data => s.calling (s.node.serveBlock p (readText parse data))
    else if messageType = "BLOCKCHAINREQUEST" then
      s.withData j fun data => ((s.node.serveRequest data).map fun _ => (), s)
    else if messageType = "BLOCKCHAIN" then
      s.withData j fun data => s.calling
        (s.node.handleBlockchain p (if data = "" then none else some (readText parse data)))
    else (.ok (), s)

/-- `SocketCommunication::handleNodeMessage`: the buffer is read up to its first
zero byte. -/
def handleNodeMessage (buffer : List UInt8) : Except Fault Unit × SocketCommunication :=
  s.dispatch p parse tick ((parse (buffer.takeWhile (· ≠ 0))).getD .null)

/-- A transaction that is survived: it has all its fields, and its key can be read if its
signature is a hex string; when it makes the node forge, the election succeeds, and if
the node forges itself, it can sign and the peers can be dialled. -/
def WithstandsTransaction (jx : Json) : Prop :=
  jx.fits transactionFields ∧ ∀ t, readTransaction p jx = .ok t →
    ¬p.verifyReadsNull t.signature t.senderPublicKey ∧
    ∀ m, s.node.forging p (.handleTransaction tick false t) = some m →
      ProofOfStake.Electable p
          (fun k => if m.evictee p = some k then 0 else m.stakers.value k) ∧
        ((m.settled p).nextForger p = .ok (m.settled p).nodeWallet.walletPublicKey →
          s.node.CanSign p ∧ s.dialable)

/-- A block that is survived: it has all its fields and those of its transactions. If it
is the next one, its forger can be elected, and the key that is registered for the one it
names can be read if its signature is a hex string; if not, the chain can be requested. -/
def WithstandsBlock (jx : Json) : Prop :=
  jx.fitsBlock ∧ ∀ height signature forgerAddress,
    (jx.field "blockCount").toLong p.undefinedCast = .ok height →
    jx.field "signature" = .string signature →
    jx.field "forgerAddress" = .string forgerAddress →
    if s.node.chain.last.blockCount = height - 1 then
      ProofOfStake.Electable p s.node.stakers.value ∧
        ¬p.verifyReadsNull signature (s.node.accountModel.publicKey (cStr forgerAddress))
    else s.dialable

/-- A request that is survived: the node has nothing to send, or the request has
three parts with a number that is too large, or with one that is not negative and
a port. -/
def WithstandsRequest (requestingNode : String) : Prop :=
  s.node.blocks.length = 1 ∨ ∃ ip port number rest, split requestingNode =
    ip :: port :: number :: rest ∧ ∃ blockNumber, stol number = some blockNumber ∧
      (blockNumber > castInt s.node.blocks.length ∨ 0 ≤ blockNumber ∧ (stol port).isSome)

/-- A chain that is survived: it is null or an object, and as many blocks as the
newest local one counts, or blocks that have all their fields. -/
def WithstandsChain (jx : Json) : Prop :=
  jx.indexable ∧ (castInt (jx.field "blocks").size = castInt s.node.chain.last.blockCount ∨
    (jx.field "blocks").elements.all Json.fitsBlock)

/-- A DISCOVERY message that is survived: it names a sender, which is known or can
be dialled with all the others, and lists texts that are known, this node, or can
be dialled. -/
def WithstandsDiscovery (message : Json) : Prop :=
  ∃ sender : SocketConnector,
    ((message.field "SocketConnector").field "ip" = .string sender.ip ∧
      ((message.field "SocketConnector").field "port").toInt p.undefinedCast = .ok sender.port) ∧
    (sender.ipPort ∈ s.peers ∨ ∀ peer ∈ s.peers ++ [sender.ipPort], (dials peer).isSome) ∧
    ∃ peersPeerList : List String,
      (message.field "Peers").elements = peersPeerList.map Json.string ∧
        ∀ peer ∈ peersPeerList, peer ∈ s.peers ∨ peer = s.thisNode ∨ (dials peer).isSome

/-- A message that is survived: it has a type, and if this is one of the five, what
the handler of the type reads. -/
def Withstands (j : Json) : Prop :=
  ∃ messageType, (j.field "Message").field "Type" = .string messageType ∧
    (messageType = "DISCOVERY" → s.WithstandsDiscovery p (j.field "Message")) ∧
    (messageType ∈ ["TRANSACTION", "BLOCK", "BLOCKCHAINREQUEST", "BLOCKCHAIN"] →
      ∃ data, (j.field "Message").field "data" = .string data ∧
        (messageType = "TRANSACTION" → s.WithstandsTransaction p tick (readText parse data)) ∧
        (messageType = "BLOCK" → s.WithstandsBlock p (readText parse data)) ∧
        (messageType = "BLOCKCHAINREQUEST" → s.WithstandsRequest data) ∧
        (messageType = "BLOCKCHAIN" → data = "" ∨ s.WithstandsChain (readText parse data)))

end SocketCommunication

section Calls

variable {p : Platform} {n : Node} {s : SocketCommunication} {tick : Tick}

namespace Node

/-- An election returns exactly when the stakes allow it. -/
theorem exists_nextForger : (∃ key, n.nextForger p = .ok key) ↔
    ProofOfStake.Electable p n.stakers.value := ProofOfStake.forger_ok_iff _

/-- Settling the forger sends nothing. -/
theorem sent_settled (n : Node) : (n.settled p).sent = n.sent := by
  refine settled_keeps fun forger => ?_
  unfold evict
  dsimp only
  split <;> rfl

/-- `forge` returns exactly when the election after a possible eviction does. -/
theorem forge_ok_iff (tick : Tick) : (n.forge p tick).1 = .ok () ↔ ProofOfStake.Electable p
    (fun k => if n.evictee p = some k then 0 else n.stakers.value k) := by
  have hstakes : (n.settled p).stakers.value =
      fun k => if n.evictee p = some k then 0 else n.stakers.value k := funext stake_settled
  rw [← hstakes, ← exists_nextForger, forge_eq]
  cases (n.settled p).nextForger p <;> simp

/-- `forge` broadcasts exactly when the node is elected. -/
theorem sent_forge_lt_iff (tick : Tick) : n.sent.length < (n.forge p tick).2.sent.length ↔
    (n.settled p).nextForger p = .ok (n.settled p).nodeWallet.walletPublicKey := by
  rw [forge_eq, ← sent_settled (p := p) n]
  cases (n.settled p).nextForger p with
  | error f => simp
  | ok forger =>
    by_cases hself : forger = (n.settled p).nodeWallet.walletPublicKey
    · refine iff_of_true ?_ (congrArg Except.ok hself)
      simp [forgeAs, if_pos hself, sent_forgeBlock]
    · simp [forgeAs, registerForger, hself]

/-- A block is handled to the end unless it is the next one and the election of its
forger fails. -/
theorem handleBlock_ok_iff {b : Block} : (n.handleBlock p false b).1 = .ok () ↔
    (n.chain.last.blockCount = b.blockCount - 1 →
      ProofOfStake.Electable p n.stakers.value) := by
  rw [← exists_nextForger]
  by_cases hnext : n.chain.last.blockCount = b.blockCount - 1
  · simp only [hnext, true_implies]
    by_cases haccepts : n.Accepts p b
    · rw [handleBlock_of_accepts haccepts]
      exact iff_of_true rfl ⟨_, haccepts.2.2.1⟩
    · rw [handleBlock_of_refused hnext haccepts]
      cases n.nextForger p <;> simp [Except.map]
  · rw [handleBlock_of_not_next hnext]
    exact iff_of_true rfl fun h => absurd h hnext

/-- A block is handled with a broadcast exactly when it is not the next one. -/
theorem sent_handleBlock_lt_iff {b : Block} :
    n.sent.length < (n.handleBlock p false b).2.sent.length ↔
      ¬n.chain.last.blockCount = b.blockCount - 1 := by
  by_cases hnext : n.chain.last.blockCount = b.blockCount - 1
  · refine iff_of_false ?_ (not_not.mpr hnext)
    by_cases haccepts : n.Accepts p b
    · rw [handleBlock_of_accepts haccepts]
      simp [sent_append]
    · rw [handleBlock_of_refused hnext haccepts]
      exact lt_irrefl _
  · rw [handleBlock_of_not_next hnext, requestChain_eq]
    refine iff_of_true ?_ hnext
    simp [broadcast, openWallet]

/-- Decoding a block leaves alone what wallet lookups leave alone. -/
theorem decodeBlock_frame {β : Type} {f : Node → β} (hf : ∀ n a, f (openWallet n a) = f n)
    (jx : Json) : f (n.decodeBlock p jx).2 = f n :=
  decodeBlock_rel (R := fun n m => f m = f n) (fun _ => rfl) (fun h h' => h'.trans h) hf n jx

/-- Settling the forger leaves the keys alone that the node signs with. -/
theorem canSign_settled : (n.settled p).CanSign p ↔ n.CanSign p := by
  have hidentity : (n.settled p).exchangeWallet = n.exchangeWallet ∧
      (n.settled p).nodeWallet = n.nodeWallet ∧
      (n.settled p).accountModel.addressToPrivateKey = n.accountModel.addressToPrivateKey := by
    refine ⟨settled_keeps fun forger => ?_, settled_keeps fun forger => ?_,
      settled_keeps (f := fun m => m.accountModel.addressToPrivateKey) fun forger => ?_⟩
    all_goals
      unfold evict
      dsimp only
      split
    all_goals first | rfl | exact AccountModel.addressToPrivateKey_updateBalance
  unfold CanSign AccountModel.wallet
  rw [hidentity.1, hidentity.2.1, hidentity.2.2]

/-- The signing in `forge` is survived when the node is not elected or can sign. -/
theorem forgeReadsNull_eq_false_iff : n.forgeReadsNull p = false ↔
    ((n.settled p).nextForger p = .ok (n.settled p).nodeWallet.walletPublicKey →
      n.CanSign p) := by
  rw [forgeReadsNull, decide_eq_false_iff_not, not_and_not_right, canSign_settled]

/-- The check of a block's signature is survived when it is not made or can be. -/
theorem blockReadsNull_eq_false_iff {b : Block} : n.blockReadsNull p b = false ↔
    (n.chain.last.blockCount = b.blockCount - 1 → ProofOfStake.Electable p n.stakers.value →
      ¬p.verifyReadsNull b.signature (n.forgerKey b)) := by
  have helected : (n.nextForger p).isOk = true ↔ ProofOfStake.Electable p n.stakers.value := by
    rw [← exists_nextForger]
    cases n.nextForger p <;> simp [Except.isOk, Except.toBool]
  rw [← Bool.not_eq_true, blockReadsNull, Bool.and_eq_true, Bool.and_eq_true, helected,
    blockCountValid, beq_iff_eq]
  tauto

/-- What a transaction leaves behind. -/
@[simp] theorem snd_serveTransaction (tick : Tick) (jx : Json) :
    (n.serveTransaction p tick jx).2 = (n.transactionHandler p tick jx).2 := rfl

/-- What a block leaves behind. -/
@[simp] theorem snd_serveBlock (jx : Json) : (n.serveBlock p jx).2 = (n.blockHandler p jx).2 := rfl

/-- A call that may end in a read through a null pointer returns when it does not. -/
theorem orNull_ok_iff {readsNull : Bool} {r : Except Fault Unit × Node} :
    (orNull readsNull r).1 = .ok () ↔ readsNull = false ∧ r.1 = .ok () := by
  unfold orNull
  cases readsNull <;> simp

/-- Handling a chain broadcasts nothing. -/
theorem sent_handleBlockchain (blockchainString : Option Json) :
    (n.handleBlockchain p blockchainString).2.sent = n.sent := by
  have hbook : ∀ n t, (importExecute p n t).sent = n.sent := by
    intro n t
    unfold importExecute
    split <;> rfl
  exact handleBlockchain_rel (R := fun n m => m.sent = n.sent) (fun _ => rfl)
    (fun h h' => h'.trans h) (fun _ _ => rfl) hbook (fun _ _ => rfl) n blockchainString

end Node

namespace SocketCommunication

/-- A call of the node returns when it does in itself and can broadcast what it
broadcasts. -/
theorem calling_ok_iff {r : Except Fault Unit × Node} : (s.calling r).1 = .ok () ↔
    r.1 = .ok () ∧ (s.node.sent.length < r.2.sent.length → s.dialable) := by
  unfold calling
  by_cases hsent : s.node.sent.length < r.2.sent.length
  · cases hdial : s.dialable <;> simp [hsent]
  · simp [hsent]

/-- **The handler of transactions.** -/
theorem serveTransaction_ok_iff {jx : Json} :
    (s.calling (s.node.serveTransaction p tick jx)).1 = .ok () ↔
      s.WithstandsTransaction p tick jx := by
  have hfits := exists_readTransaction (p := p) (j := jx)
  rw [calling_ok_iff]
  unfold Node.serveTransaction WithstandsTransaction
  rw [Node.orNull_ok_iff, ← hfits]
  unfold Node.transactionHandler
  cases hread : readTransaction p jx with
  | error f => simp
  | ok t =>
    have hforging : s.node.forging p (.handleTransaction tick false t) =
        if s.node.Admits p t ∧
          TransactionPool.forgerRequired (s.node.enqueue false t).transactionPool then
            some (s.node.enqueue false t) else none := rfl
    have hsent : (s.node.enqueue false t).sent = s.node.sent := rfl
    simp only [Except.ok.injEq, exists_eq', true_and, forall_eq', Node.transactionReadsNull,
      Bool.or_eq_false_iff, Bool.not_eq_true, Node.orNull]
    by_cases hadmits : s.node.Admits p t
    · by_cases hforges : TransactionPool.forgerRequired
          (s.node.enqueue false t).transactionPool = true
      · rw [Node.handleTransaction_of_forges hadmits hforges, hforging,
          if_pos ⟨hadmits, hforges⟩]
        simp only [Option.some.injEq, forall_eq', Option.any_some]
        rw [← Node.forge_ok_iff tick, Node.forgeReadsNull_eq_false_iff,
          ← Node.sent_forge_lt_iff tick, hsent]
        have hkeys : (s.node.enqueue false t).CanSign p ↔ s.node.CanSign p := Iff.rfl
        rw [hkeys]
        cases hforge : (s.node.enqueue false t).forge p tick with
        | mk result m =>
          cases result with
          | error f => simp [Except.map]
          | ok u =>
            simp only [true_and]
            tauto
      · rw [Node.handleTransaction_of_waits hadmits hforges, hforging,
          if_neg fun h => hforges h.2]
        simp [hsent]
    · rw [Node.handleTransaction_of_not_admits hadmits, hforging, if_neg fun h => hadmits h.1]
      simp

/-- **The handler of blocks.** -/
theorem serveBlock_ok_iff {jx : Json} :
    (s.calling (s.node.serveBlock p jx)).1 = .ok () ↔ s.WithstandsBlock p jx := by
  have hfits := Node.exists_decodeBlock (p := p) s.node jx
  have hchain := Node.decodeBlock_frame (p := p) (n := s.node) (f := Node.chain)
    (fun _ _ => rfl) jx
  have hstakers := Node.decodeBlock_frame (p := p) (n := s.node) (f := Node.stakers)
    (fun _ _ => rfl) jx
  have hsent := Node.decodeBlock_frame (p := p) (n := s.node) (f := Node.sent)
    (fun _ _ => rfl) jx
  have hkeys := Node.decodeBlock_frame (p := p) (n := s.node)
    (f := fun m => m.accountModel.publicKey)
    (fun _ _ => funext fun _ => AccountModel.publicKey_openWallet) jx
  rw [calling_ok_iff]
  unfold Node.serveBlock WithstandsBlock
  rw [Node.orNull_ok_iff, Node.blockHandler_eq, ← hfits]
  unfold Node.orNull
  cases hread : s.node.decodeBlock p jx with
  | mk result m =>
    rw [hread] at hchain hstakers hsent hkeys
    cases result with
    | error f => simp
    | ok b =>
      obtain ⟨hheight, hsignature, hforger⟩ := Node.fields_of_decodeBlock hread
      have hm : m.sent = s.node.sent := hsent
      have hkey : m.forgerKey b = s.node.accountModel.publicKey (cStr b.forgerAddress) :=
        congrFun hkeys _
      simp only [Except.ok.injEq, exists_eq', true_and, hheight, hsignature, hforger,
        Json.string.injEq]
      rw [← hm, Node.sent_handleBlock_lt_iff, Node.handleBlock_ok_iff,
        Node.blockReadsNull_eq_false_iff, hkey,
        show m.chain = s.node.chain from hchain, show m.stakers = s.node.stakers from hstakers]
      by_cases hnext : s.node.chain.last.blockCount = b.blockCount - 1
      · simp [hnext]
        tauto
      · simp [hnext]

/-- A request with a number of blocks that can be served. -/
theorem exists_serveRequest {requestingNode ip port number : String} {rest : List String}
    (hone : s.node.blocks.length ≠ 1)
    (hsplit : split requestingNode = ip :: port :: number :: rest) :
    (∃ reply, s.node.serveRequest requestingNode = .ok reply) ↔
      ∃ blockNumber, stol number = some blockNumber ∧
        (blockNumber > castInt s.node.blocks.length ∨ 0 ≤ blockNumber ∧ (stol port).isSome) := by
  have hport : (split requestingNode)[1]?.bind stol = stol port := by rw [hsplit]; rfl
  unfold Node.serveRequest
  rw [hport]
  cases hnumber : stol number with
  | none =>
    have hthrown : s.node.requestedBlocks requestingNode = .error .logicError := by
      unfold Node.requestedBlocks
      rw [if_neg hone, hsplit]
      simp only [hnumber]
    simp [hthrown]
  | some blockNumber =>
    rw [Node.requestedBlocks_of_number hone hsplit hnumber]
    simp only [Option.some.injEq, exists_eq_left']
    by_cases hhigh : blockNumber > castInt s.node.blocks.length
    · simp [hhigh]
    · by_cases hneg : blockNumber < 0
      · rw [if_neg hhigh, if_pos hneg]
        apply iff_of_false (by simp)
        rintro (hlow | ⟨hpos, -⟩)
        · exact hhigh hlow
        · omega
      · rw [if_neg hhigh, if_neg hneg]
        simp only [hhigh, false_or]
        cases stol port with
        | none => simp
        | some num =>
          simp
          omega

/-- **The handler of requests.** -/
theorem serveRequest_ok_iff {requestingNode : String} :
    (s.node.serveRequest requestingNode).map (fun _ => ()) = .ok () ↔
      s.WithstandsRequest requestingNode := by
  have hmap : (s.node.serveRequest requestingNode).map (fun _ => ()) = .ok () ↔
      ∃ reply, s.node.serveRequest requestingNode = .ok reply := by
    cases s.node.serveRequest requestingNode <;> simp [Except.map]
  rw [hmap]
  unfold WithstandsRequest
  by_cases hone : s.node.blocks.length = 1
  · refine iff_of_true ⟨none, ?_⟩ (Or.inl hone)
    unfold Node.serveRequest Node.requestedBlocks
    rw [if_pos hone]
  · simp only [hone, false_or]
    by_cases hparts : ∃ ip port number rest,
        split requestingNode = ip :: port :: number :: rest
    · obtain ⟨ip, port, number, rest, hsplit⟩ := hparts
      rw [exists_serveRequest hone hsplit]
      constructor
      · exact fun hserved => ⟨ip, port, number, rest, hsplit, hserved⟩
      · rintro ⟨ip', port', number', rest', hsplit', hserved⟩
        rw [hsplit] at hsplit'
        obtain ⟨-, rfl, rfl, -⟩ : ip = ip' ∧ port = port' ∧ number = number' ∧ rest = rest' := by
          simpa only [List.cons.injEq] using hsplit'
        exact hserved
    · refine iff_of_false ?_ ?_
      · have hthrown : s.node.requestedBlocks requestingNode = .error .logicError := by
          unfold Node.requestedBlocks
          rw [if_neg hone]
          split
          · next ip port number rest hsplit =>
            exact absurd ⟨ip, port, number, rest, hsplit⟩ hparts
          · rfl
        unfold Node.serveRequest
        simp [hthrown]
      · rintro ⟨ip, port, number, rest, hsplit, -⟩
        exact hparts ⟨ip, port, number, rest, hsplit⟩

/-- The handler of chains. -/
theorem handleBlockchain_ok_iff {jx : Json} :
    (s.calling (s.node.handleBlockchain p (some jx))).1 = .ok () ↔ s.WithstandsChain jx := by
  rw [calling_ok_iff, Node.sent_handleBlockchain]
  simp only [lt_irrefl, false_implies, and_true]
  unfold WithstandsChain Node.handleBlockchain
  simp only [Json.member_eq]
  by_cases hindex : jx.indexable
  · rw [if_pos hindex]
    simp only [hindex, true_and]
    rw [← exists_readEach (n := s.node) (Node.exists_importBlock (p := p))
      (jx.field "blocks").elements]
    by_cases hcount : castInt (jx.field "blocks").size ≠ castInt s.node.chain.last.blockCount
    · rw [if_pos hcount]
      cases readEach (Node.importBlock p) s.node (jx.field "blocks").elements with
      | mk result m => cases result <;> simp [hcount]
    · rw [if_neg hcount]
      exact iff_of_true rfl (Or.inl (not_not.mp hcount))
  · rw [if_neg hindex]
    exact iff_of_false (by simp) fun h => hindex h.1

/-- A sender is survived when it is known, or can be dialled with all the others. -/
theorem meet_ok_iff (s : SocketCommunication) (newPeer : String) : (s.meet newPeer).1 = .ok () ↔
    newPeer ∈ s.peers ∨ ∀ peer ∈ s.peers ++ [newPeer], (dials peer).isSome := by
  unfold meet
  by_cases hknown : newPeer ∈ s.peers
  · rw [if_pos hknown]
    exact iff_of_true rfl (Or.inl hknown)
  · rw [if_neg hknown, calling_ok_iff, Node.requestChain_eq]
    simp [dialable, hknown, Node.broadcast, or_imp, forall_and]

/-- A listed peer is survived when it is known, this node, or can be dialled. -/
theorem learn_ok_iff {peersPeer : String} : (s.learn peersPeer).1 = .ok () ↔
    peersPeer ∈ s.peers ∨ peersPeer = s.thisNode ∨ (dials peersPeer).isSome := by
  unfold learn
  by_cases hknown : peersPeer ∈ s.peers ∨ peersPeer = s.thisNode
  · rw [if_pos hknown]
    exact iff_of_true rfl (hknown.imp_right Or.inl)
  · rw [if_neg hknown]
    rw [not_or] at hknown
    simp only [hknown, false_or]
    cases dials peersPeer with
    | none => simp
    | some peerToCheck =>
      dsimp only
      split <;> simp

/-- A peer that was learned is known before, or can be dialled. -/
theorem mem_peers_learn {peersPeer peer : String} (h : peer ∈ (s.learn peersPeer).2.peers) :
    peer ∈ s.peers ∨ (dials peer).isSome := by
  unfold learn at h
  split at h
  · exact Or.inl h
  · split at h
    · exact Or.inl h
    · next peerToCheck hdials =>
      split at h
      · exact Or.inl h
      · rcases List.mem_append.mp h with hold | hnew
        · exact Or.inl hold
        · rw [List.mem_singleton.mp hnew, dials_ipPort hdials]
          exact Or.inr rfl

/-- **A list of peers** is survived when each of them is known beforehand, this node,
or can be dialled: what is added on the way can be dialled anyway. -/
theorem forEach_learn_ok_iff (peersPeerList : List String) :
    (forEach learn s peersPeerList).1 = .ok () ↔
      ∀ peer ∈ peersPeerList, peer ∈ s.peers ∨ peer = s.thisNode ∨ (dials peer).isSome := by
  rw [forEach_ok_iff]
  induction peersPeerList generalizing s with
  | nil => simp [EachTime]
  | cons peersPeer peers ih =>
    unfold EachTime
    rw [List.forall_mem_cons, ← learn_ok_iff]
    refine and_congr_right fun hok => ?_
    rw [forall_prop_of_true hok, ih, thisNode_learn]
    refine forall₂_congr fun peer _ => ?_
    constructor
    · rintro (hmem | hthis)
      · rcases mem_peers_learn hmem with hold | hdials
        · exact Or.inl hold
        · exact Or.inr (Or.inr hdials)
      · exact Or.inr hthis
    · rintro (hold | hrest)
      · left
        unfold learn
        split
        · exact hold
        · split
          · exact hold
          · split
            · exact hold
            · exact List.mem_append_left _ hold
      · exact Or.inr hrest

/-- **The handler of DISCOVERY messages**, of which the type was read. -/
theorem peerDiscoveryHandleMessage_ok_iff {j : Json} (hindex : j.indexable)
    (hmessage : (j.field "Message").indexable) :
    (s.peerDiscoveryHandleMessage p j).1 = .ok () ↔
      s.WithstandsDiscovery p (j.field "Message") := by
  unfold peerDiscoveryHandleMessage WithstandsDiscovery
  simp only [← senderConnector_eq_ok]
  rw [messagePeers_eq hindex hmessage]
  cases senderConnector p j with
  | error f => simp
  | ok sender =>
    have hmeet := meet_ok_iff s sender.ipPort
    simp only [Except.ok.injEq, exists_eq_left', ← hmeet]
    cases hx : s.meet sender.ipPort with
    | mk result t =>
      cases result with
      | error f => simp
      | ok u =>
        have hpeers : t.peers = if sender.ipPort ∈ s.peers then s.peers
            else s.peers ++ [sender.ipPort] := by
          rw [← peers_meet, hx]
        have hthis : t.thisNode = s.thisNode := by
          rw [← thisNode_meet (s := s) sender.ipPort, hx]
        rw [hx] at hmeet
        simp only [true_and, ← mapM_toStr_eq_ok]
        cases hlist : (((j.field "Message").field "Peers").elements.mapM Json.toStr) with
        | error f => simp
        | ok peersPeerList =>
          simp only [Except.ok.injEq, exists_eq_left', forEach_learn_ok_iff, hpeers, hthis]
          refine forall₂_congr fun peer _ => ?_
          -- The sender itself can be dialled if it is new.
          by_cases hknown : sender.ipPort ∈ s.peers
          · rw [if_pos hknown]
          · rw [if_neg hknown]
            have hdials := (hmeet.mp rfl).resolve_left hknown sender.ipPort (by simp)
            rw [List.mem_append, List.mem_singleton]
            constructor
            · rintro ((hold | rfl) | hrest)
              · exact Or.inl hold
              · exact Or.inr (Or.inr hdials)
              · exact Or.inr hrest
            · exact fun h => h.imp_left Or.inl

/-- A handler of the data of a message is survived when there are data and the
handler survives them. -/
theorem withData_ok_iff {j : Json} {handler : String → Except Fault Unit × SocketCommunication} :
    (s.withData j handler).1 = .ok () ↔ ∃ data, (j.field "Message").field "data" = .string data ∧
      (handler data).1 = .ok () := by
  unfold withData
  cases hdata : (do (← j.member "Message").stringAt "data") with
  | error f =>
    apply iff_of_false (by simp)
    rintro ⟨data, hfield, -⟩
    rw [← messageText_eq_ok, hdata] at hfield
    cases hfield
  | ok data =>
    rw [messageText_eq_ok.mp hdata]
    simp

/-- The handler of chains with the text that it gets: the empty one is no chain. -/
theorem handleBlockchain_text_ok_iff {text : String} {jx : Json} :
    (s.calling (s.node.handleBlockchain p (if text = "" then none else some jx))).1 = .ok () ↔
      text = "" ∨ s.WithstandsChain jx := by
  by_cases hempty : text = ""
  · rw [if_pos hempty, calling_ok_iff]
    exact iff_of_true ⟨rfl, fun h => absurd h (lt_irrefl _)⟩ (Or.inl hempty)
  · rw [if_neg hempty, handleBlockchain_ok_iff]
    simp [hempty]

/-- **Messages that are survived.** -/
theorem dispatch_ok_iff {parse : List UInt8 → Option Json} {j : Json} :
    (s.dispatch p parse tick j).1 = .ok () ↔ s.Withstands p parse tick j := by
  unfold dispatch Withstands
  cases htype : (do (← j.member "Message").stringAt "Type") with
  | error f =>
    apply iff_of_false (by simp)
    rintro ⟨messageType, hfield, -⟩
    rw [← messageText_eq_ok, htype] at hfield
    cases hfield
  | ok messageType =>
    have hfield := messageText_eq_ok.mp htype
    have hmessage : (j.field "Message").indexable :=
      Json.indexable_of_field "Type" .text (by rw [hfield]; rfl)
    have hindex : j.indexable := by
      cases j <;> first | rfl | cases hfield
    rw [hfield]
    simp only [Json.string.injEq, exists_eq_left']
    by_cases hdiscovery : messageType = "DISCOVERY"
    · subst hdiscovery
      simp [peerDiscoveryHandleMessage_ok_iff hindex hmessage]
    by_cases htransaction : messageType = "TRANSACTION"
    · subst htransaction
      simp [withData_ok_iff, serveTransaction_ok_iff]
    by_cases hblock : messageType = "BLOCK"
    · subst hblock
      simp [withData_ok_iff, serveBlock_ok_iff]
    by_cases hrequest : messageType = "BLOCKCHAINREQUEST"
    · subst hrequest
      simp [withData_ok_iff, serveRequest_ok_iff]
    by_cases hchain : messageType = "BLOCKCHAIN"
    · subst hchain
      simp [withData_ok_iff, handleBlockchain_text_ok_iff]
    · simp [hdiscovery, htransaction, hblock, hrequest, hchain]

/-- The node after a transaction or a block was dispatched is the one of the network
after the message was delivered. -/
theorem node_dispatch {parse : List UInt8 → Option Json} {j : Json} {m : Message} {data : String}
    (hkind : m.messageType = "TRANSACTION" ∨ m.messageType = "BLOCK")
    (htype : (j.field "Message").field "Type" = .string m.messageType)
    (hdata : (j.field "Message").field "data" = .string data)
    (hread : readText parse data = m.data) :
    (s.dispatch p parse tick j).2.node = s.node.handleNodeMessage p tick m := by
  have hcalling : ∀ r : Except Fault Unit × Node, (s.calling r).2.node = r.2 := fun _ => rfl
  unfold dispatch withData Node.handleNodeMessage
  rw [messageText_eq_ok.mpr htype, messageText_eq_ok.mpr hdata, ← hread]
  rcases hkind with hkind | hkind <;> simp [hkind, hcalling]

end SocketCommunication

end Calls

namespace SocketCommunication

/-- **Messages that end the process.** Whatever the JSON library makes of the bytes
that arrive, handling them returns exactly when what was parsed, or null, is
survived; nothing that does not parse is. -/
theorem handleNodeMessage_returns_iff (p : Platform) (parse : List UInt8 → Option Json)
    (tick : Tick) (s : SocketCommunication) (buffer : List UInt8) :
    ((s.handleNodeMessage p parse tick buffer).1 = .ok () ↔
      s.Withstands p parse tick ((parse (buffer.takeWhile (· ≠ 0))).getD .null)) ∧
    (parse (buffer.takeWhile (· ≠ 0)) = none →
      (s.handleNodeMessage p parse tick buffer).1 = .error .typeError) := by
  refine ⟨dispatch_ok_iff, fun hparse => ?_⟩
  unfold handleNodeMessage
  rw [hparse]
  rfl

/-- The empty message, a handshake that names a sender without an ip address, and a
transaction with a signature but without a key. -/
theorem not_handleNodeMessage_returns :
    let p := Reference.platform
    let s : SocketCommunication := ⟨Reference.node 10001, [], []⟩
    let handshake : Json := .object [("Message", .object [("Peers", .null),
      ("SocketConnector", .object [("ip", .string ""), ("port", .int 10002)]),
      ("Type", .string "DISCOVERY"), ("data", .string "")])]
    let t : Transaction := { Reference.transaction "e" "a" 5 "EXCHANGE" "x" with
      senderPublicKey := "", signature := "30" }
    let submission : Json := .object [("Message", .object [("Type", .string "TRANSACTION"),
      ("data", .string (p.dump t.toJson))])]
    let text := fun j => (p.dump j).toUTF8.toList
    let parse := fun bytes => [handshake, submission, t.toJson].find? fun j => text j = bytes
    (s.handleNodeMessage p parse (Reference.tick 1) []).1 = .error .typeError ∧
      (s.handleNodeMessage p parse (Reference.tick 1) (text handshake)).1 = .error .logicError ∧
      (s.handleNodeMessage p parse (Reference.tick 1) (text submission)).1 =
        .error .nullPointer := by
  decide +kernel

end SocketCommunication

end Prawnstar
