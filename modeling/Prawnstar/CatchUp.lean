import Prawnstar.Requests
import Prawnstar.Network
import Prawnstar.Linkage

/-!
# Catching up

A node that asks a peer for the blocks it lacks, and what it makes of the reply.
The request carries the number of blocks the node has, the reply the blocks
after these, and the import compares the number of received blocks with the
height of the newest local block. The last two have nothing to do with each
other, so the reply is thrown away where they happen to be equal.
-/

namespace Prawnstar

open Library

/-- The blocks of a chain as they are sent. -/
def onWire (bs : List Block) : List Json := bs.map Block.toPureJson

namespace Node

variable {p : Platform} {n peer : Node}

/-- **A chain that was served** is thrown away when it has as many blocks as the
newest local block counts; else its transactions are booked and its blocks added. -/
theorem handleBlockchain_blockchainJson (bs : List Block) :
    n.handleBlockchain p (some (blockchainJson bs)) =
      if castInt bs.length ≠ castInt n.chain.last.blockCount then
        (.ok (), (bs.foldl (importAll p n.accountModel.publicKey) n).pushBlocks
          (bs.map (Block.keyed n.accountModel.publicKey)))
      else (.ok (), n) := by
  have hloop := readEach_eq (I := fun m => m.accountModel.publicKey = n.accountModel.publicKey)
    (fun m b hm => importBlock_toPureJson (p := p) hm b)
    (fun m b hm => (publicKey_importAll _ b).trans hm) rfl bs
  have hmember : Json.member "blocks" (blockchainJson bs) =
      .ok (.array (bs.map Block.toPureJson)) := rfl
  unfold handleBlockchain
  simp only [hmember, Json.size, List.length_map, Json.elements, hloop]

/-- The blocks after a served chain was handled. -/
theorem blocks_handleBlockchain (bs : List Block) :
    (n.handleBlockchain p (some (blockchainJson bs))).2.blocks =
      if castInt bs.length ≠ castInt n.chain.last.blockCount then
        n.blocks ++ bs.map (Block.keyed n.accountModel.publicKey)
      else n.blocks := by
  rw [handleBlockchain_blockchainJson]
  split
  · rw [blocks_pushBlocks, blocks_importAll]
  · rfl

/-- Blocks are sent on as they were received. -/
theorem onWire_keyed (key : String → String) (bs : List Block) :
    onWire (bs.map (Block.keyed key)) = onWire bs := by
  unfold onWire
  rw [List.map_map]
  exact List.map_congr_left fun b _ => Registry.toPureJson_keyed key b

/-- A node that has more than the genesis block replies with the blocks after
those that were counted. -/
theorem handleBlockchainRequest_eq (h : peer.blocks.length ≠ 1) (k : ℕ) :
    peer.handleBlockchainRequest k =
      if k > castInt peer.blocks.length then none
      else some (blockchainJson (peer.blocks.drop k)) := by
  unfold handleBlockchainRequest
  rw [if_neg h]

/-- The node after its request was answered by a peer and the reply, if there is
one, was handled. -/
def catchUp (p : Platform) (n peer : Node) : Node :=
  match peer.replyTo n.requestingNode with
  | none => n.requestChain
  | some reply => (n.requestChain.handleBlockchain p (some reply)).2

/-- Without a reply nothing but the request happens. -/
theorem catchUp_of_none (h : peer.replyTo n.requestingNode = none) :
    n.catchUp p peer = n.requestChain := by
  unfold catchUp
  rw [h]

/-- A reply is handled. -/
theorem catchUp_of_reply {reply : Json} (h : peer.replyTo n.requestingNode = some reply) :
    n.catchUp p peer = (n.requestChain.handleBlockchain p (some reply)).2 := by
  unfold catchUp
  rw [h]

/-- The blocks of a node after it caught up with a peer that has more. -/
theorem blocks_catchUp (hvalid : n.sc.Valid) (hproper : n.blocks.length < peer.blocks.length) :
    (n.catchUp p peer).blocks =
      if (n.blocks.length : ℤ) ≤ castInt peer.blocks.length ∧
          castInt (peer.blocks.length - n.blocks.length) ≠ castInt n.chain.last.blockCount then
        n.blocks ++ (peer.blocks.drop n.blocks.length).map (Block.keyed n.accountModel.publicKey)
      else n.blocks := by
  have hpos : 0 < n.blocks.length := List.length_pos_iff.mpr n.chain.nonempty
  have hmissing : ((peer.blocks.drop n.blocks.length).length : ℤ) =
      peer.blocks.length - n.blocks.length := by
    rw [List.length_drop]
    omega
  have hreply : peer.replyTo n.requestingNode =
      if n.blocks.length > castInt peer.blocks.length then none
      else some (blockchainJson (peer.blocks.drop n.blocks.length)) := by
    rw [replyTo_requestingNode hvalid, handleBlockchainRequest_eq (by omega)]
  have hblocks : n.requestChain.blocks = n.blocks := by rw [requestChain_eq]; rfl
  have hchain : n.requestChain.chain = n.chain := by rw [requestChain_eq]; rfl
  have haccounts : n.requestChain.accountModel = n.accountModel := by rw [requestChain_eq]; rfl
  by_cases hserved : (n.blocks.length : ℤ) ≤ castInt peer.blocks.length
  · rw [if_neg (by omega)] at hreply
    rw [catchUp_of_reply hreply, blocks_handleBlockchain, hmissing, hblocks, hchain, haccounts]
    by_cases hcount : castInt (peer.blocks.length - n.blocks.length) ≠
        castInt n.chain.last.blockCount
    · rw [if_pos hcount, if_pos ⟨hserved, hcount⟩]
    · rw [if_neg hcount, if_neg fun h => hcount h.2]
  · rw [if_pos (by omega)] at hreply
    rw [catchUp_of_none hreply, if_neg fun h => hserved h.1, hblocks]

/-- **Catching up.** A node whose chain is a proper prefix of a peer's has the
peer's chain afterwards exactly when the peer counts at least its blocks in an
`int` and the number of missing blocks, as an `int`, is not the height of its
newest block. On a linked chain the latter are equal when the peer has one block
less than twice as many. -/
theorem catchUp_eq_iff (p : Platform) (n peer : Node) (hvalid : n.sc.Valid)
    (hsame : onWire n.blocks <+: onWire peer.blocks)
    (hproper : n.blocks.length < peer.blocks.length) :
    (onWire (n.catchUp p peer).blocks = onWire peer.blocks ↔
      (n.blocks.length : ℤ) ≤ castInt peer.blocks.length ∧
        castInt (peer.blocks.length - n.blocks.length) ≠ castInt n.chain.last.blockCount) ∧
    (Linked n.blocks → peer.blocks.length < 2 ^ 31 →
      (onWire (n.catchUp p peer).blocks = onWire peer.blocks ↔
        peer.blocks.length + 1 ≠ 2 * n.blocks.length)) := by
  have hfirst : onWire n.blocks = onWire (peer.blocks.take n.blocks.length) := by
    have htake := List.prefix_iff_eq_take.mp hsame
    rw [onWire, List.length_map] at htake
    rw [onWire, htake, onWire, onWire, List.map_take]
  have hgeneral : onWire (n.catchUp p peer).blocks = onWire peer.blocks ↔
      (n.blocks.length : ℤ) ≤ castInt peer.blocks.length ∧
        castInt (peer.blocks.length - n.blocks.length) ≠ castInt n.chain.last.blockCount := by
    rw [blocks_catchUp hvalid hproper]
    split
    · next h =>
      refine iff_of_true ?_ h
      rw [onWire, List.map_append, ← onWire, ← onWire, onWire_keyed, hfirst, onWire, onWire,
        ← List.map_append, List.take_append_drop, onWire]
    · next h =>
      refine iff_of_false (fun hequal => ?_) h
      have hlength := congrArg List.length hequal
      rw [onWire, onWire, List.length_map, List.length_map] at hlength
      omega
  refine ⟨hgeneral, fun hlinked hshort => ?_⟩
  have hlast := n.chain.blockCount_last hlinked
  have hlength : (n.chain.blocks.length : ℤ) = n.blocks.length := rfl
  rw [hlength] at hlast
  rw [hgeneral, hlast, castInt_eq_self (z := peer.blocks.length) (by omega),
    castInt_eq_self (z := peer.blocks.length - n.blocks.length) (by omega),
    castInt_eq_self (z := n.blocks.length - 1) (by omega)]
  omega

end Node

namespace Reference

/-- The genesis node after it forged k blocks. -/
def forgedTimes (k : ℕ) : Node :=
  (node 10001).calls platform ((List.range k).map fun i => .forge (tick (i + 1)))

/-- The address of the reference nodes is valid. -/
theorem valid_localhost {sc : SocketConnector} (hip : sc.ip = "127.0.0.1")
    (hport : sc.port = 10001) : sc.Valid where
  nonempty := by
    rw [hip]
    decide
  plain := by
    have hplain : "127.0.0.1".toList.all (fun c => c ≠ ':' ∧ c.toNat ≠ 0) = true := by decide
    rw [hip]
    exact fun c hc => of_decide_eq_true (List.all_eq_true.mp hplain c hc)
  port := by omega

end Reference

namespace Node

/-- A node with two blocks gets the two that it lacks. -/
theorem catchUp_eq_iff_reference :
    onWire ((Reference.forgedTimes 1).catchUp Reference.platform (Reference.forgedTimes 3)).blocks =
      onWire (Reference.forgedTimes 3).blocks := by
  have hrun : ((Reference.forgedTimes 1).sc.ip = "127.0.0.1" ∧
      (Reference.forgedTimes 1).sc.port = 10001) ∧
      (Reference.forgedTimes 1).blocks <+: (Reference.forgedTimes 3).blocks ∧
      (Reference.forgedTimes 1).blocks.length = 2 ∧
      (Reference.forgedTimes 3).blocks.length = 4 ∧
      (Reference.forgedTimes 1).chain.last.blockCount = 1 := by
    decide +kernel
  obtain ⟨⟨hip, hport⟩, hsame, hlocal, hpeer, hlast⟩ := hrun
  refine (catchUp_eq_iff Reference.platform _ _ (Reference.valid_localhost hip hport)
    (hsame.map Block.toPureJson) (by omega)).1.mpr ?_
  rw [hlocal, hpeer, hlast]
  decide

/-- A node with two blocks does not get the third one. -/
theorem not_catchUp_eq :
    let n := Reference.forgedTimes 1
    let peer := Reference.forgedTimes 2
    n.sc.Valid ∧ n.blocks <+: peer.blocks ∧ n.blocks.length < peer.blocks.length ∧
      onWire (n.catchUp Reference.platform peer).blocks ≠ onWire peer.blocks := by
  intro n peer
  have hrun : (n.sc.ip = "127.0.0.1" ∧ n.sc.port = 10001) ∧ n.blocks <+: peer.blocks ∧
      n.blocks.length < peer.blocks.length ∧
      (n.catchUp Reference.platform peer).blocks.length ≠ peer.blocks.length := by
    decide +kernel
  obtain ⟨⟨hip, hport⟩, hsame, hproper, hlength⟩ := hrun
  refine ⟨Reference.valid_localhost hip hport, hsame, hproper, fun hequal => hlength ?_⟩
  simpa [onWire] using congrArg List.length hequal

end Node

end Prawnstar
