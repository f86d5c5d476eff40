import Prawnstar.Processes
import Prawnstar.CatchUp

/-!
# Downloading a chain

A process that lacks blocks asks for them with a frame, and gets a frame with the blocks
in it: a value that is printed with an indentation of four, put into a message as a
string, printed again, framed, received, parsed, and parsed once more. What comes out is
what the nodes do when they exchange values, so a download brings the peer's chain
exactly when the count of the blocks does not stand in its way.
-/

namespace Prawnstar

open Library Serializer

/-- The text of a value with an indentation, which is what `dump` writes with it up to 1024
(`dumpJson_ok`). -/
def Serializer.dumpIndented (d : Doubles) (indent : ℕ) (j : Json) : String :=
  Parser.stringOf (text d true false indent 0 j)

/-- `Blockchain::toJson` of a list of blocks. -/
def blockchainText (d : Doubles) (blocks : List Block) : String :=
  dumpIndented d 4 (blockchainJson blocks)

namespace Node

/-- The message that `Node::requestChain` broadcasts. -/
def request (n : Node) : P2P.Message := ⟨⟨"", 0⟩, "BLOCKCHAINREQUEST", [], n.requestingNode⟩

/-- The message that `Node::handleBlockchainRequest` sends back, if it sends one. -/
def reply (d : Doubles) (n : Node) (requestingNode : String) : Option P2P.Message :=
  (n.replyTo requestingNode).map fun blocks =>
    ⟨⟨"", 0⟩, "BLOCKCHAIN", [], dumpIndented d 4 blocks⟩

end Node

namespace Reference

/-- Small numbers, and amounts of nothing, survive being written. -/
theorem writable_of_small {blocks : List Block} (h : ∀ b ∈ blocks,
    (b.blockCount ≤ 1 ∧ 0 ≤ b.blockCount) ∧ (b.timestamp ≤ 9 ∧ 0 ≤ b.timestamp) ∧
      ∀ t ∈ b.transactions, t.amount = 0 ∧ t.timestamp ≤ 9 ∧ 0 ≤ t.timestamp) :
    ∀ b ∈ blocks, b.Writable doubles := by
  intro b hb
  obtain ⟨hcount, htime, htransactions⟩ := h b hb
  refine ⟨by omega, by omega, fun t ht => ?_⟩
  obtain ⟨hzero, htime⟩ := htransactions t ht
  exact ⟨recovers_doubles fun hne => absurd hzero hne, by omega⟩

/-- The numbers of a forged block survive being written. -/
theorem writable_forged : ∀ b ∈ (forgedTimes 1).blocks, b.Writable doubles :=
  writable_of_small (by decide +kernel)

end Reference

namespace SocketCommunication

variable (p : Platform) (d : Doubles) (tick : Tick) (s peer : SocketCommunication)

/-- What a process sends back for the bytes of a request. -/
def answer (stream : List UInt8) : Option P2P.Message :=
  match P2P.recv stream with
  | .error _ => none
  | .ok buffer =>
    let j := (Parser.parse d (buffer.takeWhile (· ≠ 0))).getD .null
    match (do (← j.member "Message").stringAt "Type"),
      (do (← j.member "Message").stringAt "data") with
    | .ok messageType, .ok data =>
      if messageType = "BLOCKCHAINREQUEST" then s.node.reply d data else none
    | _, _ => none

/-- A process asks a peer for the blocks it lacks, and handles what comes back; bytes may
follow either frame. -/
def download (rest rest' : List UInt8) : SocketCommunication :=
  let asking := { s with node := s.node.requestChain }
  match peer.answer d (bytesOf (s.node.request.toJson p) ++ rest) with
  | none => asking
  | some reply =>
    (asking.receiveNodeMessage p (Parser.parse d) tick (bytesOf (reply.toJson p) ++ rest')).2

/-- The port of a message without an address fits its field. -/
theorem port_zero : -2 ^ 63 ≤ (0 : ℤ) ∧ (0 : ℤ) < 2 ^ 63 := by decide

section Lengths

variable {p : Platform} {d : Doubles} {j : Json}

/-- A character is written with fifteen bytes at most. -/
theorem length_escape_le (c : Char) : (escape false c).length ≤ 15 := by
  have hlast : ∀ (v : ℕ) (b : UInt8), (escapeAt false v b).length ≤ 12 := by
    intro v b
    unfold escapeAt
    split_ifs <;> simp [unicodeEscape]
  have hsize := c.utf8Size_le_four
  have hfirst := hlast c.toNat ((String.utf8EncodeChar c).getLastD 0)
  rw [escape, escapeSequence, List.length_append, if_neg (by decide), List.length_dropLast,
    String.length_utf8EncodeChar]
  omega

/-- So is each character of a string. -/
theorem length_escaped_le (s : String) : (escaped false s).length ≤ 15 * s.toList.length := by
  unfold escaped
  induction s.toList with
  | nil => exact Nat.zero_le _
  | cons c cs ih =>
    have hc := length_escape_le c
    rw [List.flatMap_cons, List.length_append, List.length_cons]
    omega

/-- **How long a message is** without its type and its data. -/
theorem length_text_message (messageType data : String) :
    (text d false false 0 0 (P2P.Message.json ⟨⟨"", 0⟩, messageType, [], data⟩)).length =
      (escaped false messageType).length + (escaped false data).length + 83 := by
  have hwords : (escaped false "Message").length = 7 ∧ (escaped false "Peers").length = 5 ∧
      (escaped false "SocketConnector").length = 15 ∧ (escaped false "ip").length = 2 ∧
      (escaped false "").length = 0 ∧ (escaped false "port").length = 4 ∧
      (escaped false "Type").length = 4 ∧ (escaped false "data").length = 4 := by
    decide
  have hvalues : (text d false false 0 0 .null).length = 4 ∧
      (text d false false 0 0 (.int 0)).length = 1 ∧
      (textMembers d false false 0 0 []).length = 0 := ⟨rfl, rfl, rfl⟩
  simp [P2P.Message.json, text_object, textMembers_cons, text_string, newline, separator, hwords,
    hvalues]
  omega

/-- A string has no more characters than bytes. -/
theorem length_toList_le (s : String) : s.toList.length ≤ (bytesOf s).length := by
  have hencode : ∀ cs : List Char, cs.length ≤ (Utf8.encode cs).length := by
    intro cs
    induction cs with
    | nil => exact Nat.le_refl 0
    | cons c cs ih =>
      have hc := c.utf8Size_pos
      rw [Utf8.encode_cons, List.length_append, String.length_utf8EncodeChar, List.length_cons]
      omega
  rw [bytesOf, String.toUTF8_eq_toByteArray, Parser.toList_toByteArray]
  exact hencode s.toList

/-- **How long a reply can be.** -/
theorem length_reply_le {blocks : Json} (hblocks : blocks.WellFormed d) :
    (bytesOf ((⟨⟨"", 0⟩, "BLOCKCHAIN", [], dumpIndented d 4 blocks⟩ :
      P2P.Message).strMsgBody (p.printing d))).length ≤
      15 * (text d true false 4 0 blocks).length + 93 := by
  have hdata := length_escaped_le (dumpIndented d 4 blocks)
  have hchars := length_toList_le (dumpIndented d 4 blocks)
  have htype : (escaped false "BLOCKCHAIN").length = 10 := by decide
  rw [dumpIndented, bytesOf_stringOf_text hblocks, ← dumpIndented] at hchars
  rw [P2P.Message.strMsgBody, bytesOf_dump (P2P.wellFormed_json port_zero), length_text_message]
  omega

end Lengths

section Downloads

variable {p : Platform} {d : Doubles} {tick : Tick} {s peer : SocketCommunication}

/-- A list of blocks can be written. -/
theorem wellFormed_blockchainJson {blocks : List Block} (h : ∀ b ∈ blocks, b.Writable d) :
    (blockchainJson blocks).WellFormed d := by
  refine .listed ["blocks"] rfl (by decide) (List.forall_mem_singleton.mpr (.array fun j hj => ?_))
  obtain ⟨b, hb, rfl⟩ := List.mem_map.mp hj
  exact (h b hb).members b.signature

/-- **A frame arrives** as the value of its message, whatever bytes follow it. -/
theorem exists_recv {m : P2P.Message} (hport : -2 ^ 63 ≤ m.sc.port ∧ m.sc.port < 2 ^ 63)
    (hint : (bytesOf (m.strMsgBody (p.printing d))).length < 2 ^ 31) (rest : List UInt8) :
    ∃ buffer, P2P.recv (bytesOf (m.toJson (p.printing d)) ++ rest) = .ok buffer ∧
      Parser.parse d (buffer.takeWhile (· ≠ 0)) = some m.json := by
  have hjson : m.json.WellFormed d := P2P.wellFormed_json hport
  refine ⟨bytesOf (m.strMsgBody (p.printing d)) ++ [0], ?_, ?_⟩
  · rw [P2P.bytesOf_toJson (lt_trans hint (by decide))]
    exact P2P.recv_frame (length_dump_pos hjson) hint
  · have hplain : 0 ∉ bytesOf (m.strMsgBody (p.printing d)) := zero_notMem_dump hjson
    rw [P2P.takeWhile_received hplain]
    exact parse_dump hjson

/-- **A request arrives** as it was sent, and leaves its reader as it was. -/
theorem answer_request (n : Node) (rest : List UInt8)
    (hint : (bytesOf (n.request.strMsgBody (p.printing d))).length < 2 ^ 31) :
    peer.answer d (bytesOf (n.request.toJson (p.printing d)) ++ rest) =
        peer.node.reply d n.requestingNode ∧
      (peer.receiveNodeMessage (p.printing d) (Parser.parse d) tick
        (bytesOf (n.request.toJson (p.printing d)) ++ rest)).2 = peer := by
  constructor
  · obtain ⟨buffer, hrecv, hparse⟩ := exists_recv (m := n.request) port_zero hint rest
    unfold answer
    rw [hrecv]
    dsimp only
    rw [hparse]
    rfl
  · rw [receiveNodeMessage_toJson (m := n.request) port_zero hint]
    rfl

/-- **A reply arrives** as the blocks that it was made of. -/
theorem receiveNodeMessage_reply {blocks : Json} (hblocks : blocks.WellFormed d)
    (hint : (bytesOf ((⟨⟨"", 0⟩, "BLOCKCHAIN", [], dumpIndented d 4 blocks⟩ :
      P2P.Message).strMsgBody (p.printing d))).length < 2 ^ 31) (rest : List UInt8) :
    (s.receiveNodeMessage (p.printing d) (Parser.parse d) tick
      (bytesOf ((⟨⟨"", 0⟩, "BLOCKCHAIN", [], dumpIndented d 4 blocks⟩ :
        P2P.Message).toJson (p.printing d)) ++ rest)).2 =
      { s with node := (s.node.handleBlockchain (p.printing d) (some blocks)).2 } := by
  have hread : readText (Parser.parse d) (dumpIndented d 4 blocks) = blocks := by
    rw [readText, toList_toUTF8, dumpIndented, bytesOf_stringOf_text hblocks,
      Parser.parse_text hblocks]
    rfl
  have hempty : dumpIndented d 4 blocks ≠ "" := by
    intro hempty
    have htext : [] = text d true false 4 0 blocks :=
      (congrArg bytesOf hempty).symm.trans (bytesOf_stringOf_text hblocks true false 4 0)
    have hparse := Parser.parse_text hblocks true false 4 0
    rw [← htext, Parser.parse_nil] at hparse
    cases hparse
  rw [receiveNodeMessage_toJson port_zero hint]
  change (s.calling (s.node.handleBlockchain (p.printing d)
    (if dumpIndented d 4 blocks = "" then none
      else some (readText (Parser.parse d) (dumpIndented d 4 blocks))))).2 = _
  rw [if_neg hempty, hread]
  rfl

/-- **A download over bytes** is a download. While the frames of the request and of the
reply fit an `int` and the peer's blocks survive being written, the node that asked is
what it is when nodes exchange values, whatever bytes follow the frames; its peers are
the same, and nothing happens to the peer. -/
theorem download_eq_catchUp (p : Platform) (d : Doubles) (tick : Tick)
    (s peer : SocketCommunication) (rest rest' : List UInt8)
    (hrequest : (bytesOf (s.node.request.strMsgBody (p.printing d))).length < 2 ^ 31)
    (hreply : ∀ m, peer.node.reply d s.node.requestingNode = some m →
      (bytesOf (m.strMsgBody (p.printing d))).length < 2 ^ 31)
    (hblocks : ∀ b ∈ peer.node.blocks, b.Writable d) :
    s.download (p.printing d) d tick peer rest rest' =
        { s with node := s.node.catchUp (p.printing d) peer.node } ∧
      (peer.receiveNodeMessage (p.printing d) (Parser.parse d) tick
        (bytesOf (s.node.request.toJson (p.printing d)) ++ rest)).2 = peer := by
  obtain ⟨hanswer, hpeer⟩ := @answer_request p d tick peer s.node rest hrequest
  refine ⟨?_, hpeer⟩
  unfold download
  dsimp only
  rw [hanswer]
  unfold Node.reply at hreply ⊢
  cases hsent : peer.node.replyTo s.node.requestingNode with
  | none =>
    rw [Node.catchUp_of_none hsent]
    rfl
  | some blocks =>
    obtain ⟨k, rfl⟩ := Node.exists_replyTo hsent
    have hwritable : (blockchainJson (peer.node.blocks.drop k)).WellFormed d :=
      wellFormed_blockchainJson fun b hb => hblocks b (List.mem_of_mem_drop hb)
    rw [Node.catchUp_of_reply hsent]
    exact receiveNodeMessage_reply hwritable (hreply _ (by rw [hsent]; rfl)) rest'

/-- A process with the genesis block downloads the block that its peer has forged. -/
theorem download_eq_catchUp_reference :
    let s : SocketCommunication := ⟨Reference.forgedTimes 0, [], []⟩
    let peer : SocketCommunication := ⟨Reference.forgedTimes 1, [], []⟩
    s.download (Reference.platform.printing Reference.doubles) Reference.doubles
        (Reference.tick 2) peer [123] [] =
      { s with
        node := s.node.catchUp (Reference.platform.printing Reference.doubles) peer.node } := by
  intro s peer
  have hnodes : (s.node.sc.ip = "127.0.0.1" ∧ s.node.sc.port = 10001) ∧
      s.node.blocks.length = 1 ∧ peer.node.blocks.length = 2 := by
    decide +kernel
  obtain ⟨⟨hip, hport⟩, hshort, hlong⟩ := hnodes
  refine (download_eq_catchUp Reference.platform Reference.doubles (Reference.tick 2) s peer [123]
    [] ?_ (fun m hm => ?_) Reference.writable_forged).1
  · rw [P2P.Message.strMsgBody, bytesOf_dump (P2P.wellFormed_json port_zero)]
    decide +kernel
  · have hreply : peer.node.reply Reference.doubles s.node.requestingNode =
        some ⟨⟨"", 0⟩, "BLOCKCHAIN", [],
          blockchainText Reference.doubles (peer.node.blocks.drop 1)⟩ := by
      rw [Node.reply,
        Node.replyTo_requestingNode (Reference.valid_localhost hip hport),
        Node.handleBlockchainRequest_eq (by omega), hshort, hlong]
      rfl
    rw [hreply] at hm
    obtain rfl := Option.some.inj hm
    refine lt_of_le_of_lt (length_reply_le (wellFormed_blockchainJson fun b hb =>
      Reference.writable_forged b (List.mem_of_mem_drop hb))) ?_
    decide +kernel

end Downloads

end SocketCommunication

end Prawnstar
