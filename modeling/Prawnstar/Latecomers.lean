import Prawnstar.Origins
import Prawnstar.Downloads
import Prawnstar.Lasting
import Prawnstar.ImportEffects

/-!
# Nodes that download while others forge

A node asks for the blocks that it lacks, somebody answers with those of its own chain,
and the answer arrives later. Whatever happens in between, and however often an answer
arrives, the blocks of a download have the origins of other blocks.
-/

namespace Prawnstar

open Library

/-- What `SocketCommunication::handleNodeMessage` has the node send when the message is a
request. -/
def Node.answer (n : Node) (m : Message) : Option Json :=
  if m.messageType = "BLOCKCHAINREQUEST" then m.data.toStr.toOption.bind n.replyTo else none

/-- Nodes, and the answers that were sent to them. -/
structure Swarm (ι : Type*) where
  /-- The nodes. -/
  node : Network ι
  /-- The answers, each with the node that asked. -/
  answers : List (ι × Json)

/-- What happens next in a swarm: something that is no download, or a node asks for the
blocks that it lacks, or a node gets a message that another one has sent, which may be a
request, or an answer arrives. -/
inductive Exchange (ι : Type*)
  | other (l : Delivery ι)
  | ask (i : ι)
  | serve (i j : ι) (k : ℕ)
  | arrive (k : ℕ)

/-- The transaction that a client submits. -/
def Exchange.submitted {ι : Type*} : Exchange ι → Option Transaction
  | .other l => l.submitted
  | _ => none

/-- The id that is drawn. -/
def Exchange.uuid {ι : Type*} : Exchange ι → Option String
  | .other l => some l.tick.uuid
  | _ => none

namespace Swarm

variable {ι : Type*} [DecidableEq ι] (p : Platform)

/-- The swarm after one event. -/
def next (w : Swarm ι) : Exchange ι → Swarm ι
  | .other l => { w with node := w.node.next p l }
  | .ask i => { w with node := Function.update w.node i (w.node i).requestChain }
  | .serve i j k =>
    match (w.node j).sent[k]?.bind (w.node i).answer with
    | some answer => { w with answers := w.answers ++ [(j, answer)] }
    | none => w
  | .arrive k =>
    match w.answers[k]? with
    | some (i, answer) =>
      { w with node := Function.update w.node i ((w.node i).handleBlockchain p (some answer)).2 }
    | none => w

end Swarm

namespace Node

section Answers

variable {p : Platform} {n m : Node}

/-- An answer has the blocks from some number on. -/
theorem exists_answer {msg : Message} {answer : Json} (h : n.answer msg = some answer) :
    ∃ k, answer = blockchainJson (n.blocks.drop k) := by
  unfold Node.answer at h
  split at h
  · obtain ⟨text, -, htext⟩ := Option.bind_eq_some_iff.mp h
    exact exists_replyTo htext
  · cases h

/-- The first block is the same whatever keys its reader has. -/
theorem genesis_keyed (key : String → String) : Block.genesis.keyed key = Block.genesis := rfl

end Answers

section Sourced

variable {p : Platform} {O : Sources} {A : Set Json} {n m : Node}

/-- The blocks of an answer have the origins of other blocks. -/
def Served (O : Sources) (A : Set Json) (answer : Json) : Prop :=
  ∃ bs : List Block, answer = blockchainJson bs ∧
    ∀ b ∈ bs, (b = Block.genesis ∨ b.toPureJson ∈ A) ∧ ∀ t ∈ b.transactions, O.Explains t

/-- Others may announce more. -/
theorem Served.mono {A' : Set Json} {answer : Json} (h : Served O A answer) (hsub : A ⊆ A') :
    Served O A' answer := by
  obtain ⟨bs, hanswer, hbs⟩ := h
  exact ⟨bs, hanswer, fun b hb => ⟨(hbs b hb).1.imp_right fun hA => hsub hA, (hbs b hb).2⟩⟩

/-- What a node has can be served. -/
theorem Sourced.answer (h : n.Sourced O A) {msg : Message} {answer : Json}
    (hanswer : n.answer msg = some answer) : Served O A answer := by
  obtain ⟨k, rfl⟩ := exists_answer hanswer
  refine ⟨_, rfl, fun b hb => ?_⟩
  have hmem := List.mem_of_mem_drop hb
  exact ⟨h.blocks b hmem, h.explained b hmem⟩

/-- **An import** of blocks that have an origin. -/
theorem Sourced.handleBlockchain (h : n.Sourced O A) {answer : Json} (hserved : Served O A answer) :
    (n.handleBlockchain p (some answer)).2.Sourced O A := by
  obtain ⟨bs, rfl, hbs⟩ := hserved
  have hkept := keeping_handleBlockchain (p := p) n (some (blockchainJson bs))
  have hadded : ∀ b ∈ (n.handleBlockchain p (some (blockchainJson bs))).2.blocks,
      b ∈ n.blocks ∨ ∃ c ∈ bs, b = c.keyed n.accountModel.publicKey := by
    intro b hb
    rw [blocks_handleBlockchain] at hb
    split at hb
    · refine (List.mem_append.mp hb).imp_right fun hnew => ?_
      obtain ⟨c, hc, rfl⟩ := List.mem_map.mp hnew
      exact ⟨c, hc, rfl⟩
    · exact Or.inl hb
  refine ⟨?_, ?_, ?_, fun b hb => ?_, fun b hb => ?_, ?_⟩
  · rw [transactionPool_handleBlockchain]
    exact h.pool
  · rw [sent_handleBlockchain]
    exact h.transactions
  · rw [sent_handleBlockchain]
    intro m hm htype
    obtain ⟨b, hb, hdata⟩ := h.holds m hm htype
    exact ⟨b, hkept.blocks.subset hb, hdata⟩
  · rcases hadded b hb with hold | ⟨c, hc, rfl⟩
    · exact h.blocks b hold
    · refine (hbs c hc).1.imp (fun hgenesis => ?_) fun hA => ?_
      · rw [hgenesis, genesis_keyed]
      · rwa [Registry.toPureJson_keyed]
  · rcases hadded b hb with hold | ⟨c, hc, rfl⟩
    · exact h.explained b hold
    · intro t ht
      obtain ⟨u, hu, rfl⟩ := List.mem_map.mp ht
      -- The key is not on the wire.
      cases (hbs c hc).2 u hu with
      | charged v hv hsame => exact .charged v hv hsame
      | reward htype hid hex => exact .reward htype hid hex
  · rw [exchangeWallet_of_identity hkept.identity]
    exact h.exchange

end Sourced

end Node

namespace Reference

/-- The genesis node forges, and the node of the wallet `n` asks for the block, gets an
answer and handles it. -/
def latecomer : List (Exchange (Fin 2)) :=
  [.other (.submit 0 (tick 1) (transaction "e" "n" 20 "EXCHANGE" "x")), .ask 1, .serve 0 1 0,
    .arrive 0]

/-- The pair of nodes, before anybody has asked. -/
def newcomers : Swarm (Fin 2) := ⟨pair, []⟩

/-- The pair of nodes after the download. -/
def joined : Swarm (Fin 2) := run (Swarm.next platform) newcomers latecomer

end Reference

namespace Swarm

section Origins

variable {ι : Type*} {p : Platform} {O : Sources} {w : Swarm ι}

/-- A swarm all of whose transactions and blocks have an origin. -/
structure Sourced (O : Sources) (w : Swarm ι) : Prop where
  /-- What the nodes have. -/
  nodes : ∀ i, (w.node i).Sourced O w.node.announced
  /-- What was answered. -/
  answers : ∀ x ∈ w.answers, Node.Served O w.node.announced x.2

/-- Fresh nodes have nothing without an origin. -/
theorem sourced_start
    (hstart : ∀ i, (w.node i).blocks = [Block.genesis] ∧ (w.node i).transactionPool = [] ∧
      (w.node i).sent = [])
    (hanswers : w.answers = []) (hexchange : ∀ i, (w.node i).exchangeWallet.address ∈ O.exchanges) :
    w.Sourced O := by
  refine ⟨fun i => ?_, by rw [hanswers]; exact List.forall_mem_nil _⟩
  obtain ⟨hblocks, hpool, hsent⟩ := hstart i
  have hgenesis : ∀ b ∈ (w.node i).blocks, b = Block.genesis := by
    rw [hblocks]
    exact List.forall_mem_singleton.mpr rfl
  refine ⟨?_, ?_, ?_, fun b hb => Or.inl (hgenesis b hb), fun b hb => ?_, hexchange i⟩
  · rw [hpool]
    exact List.forall_mem_nil _
  · rw [hsent]
    exact List.forall_mem_nil _
  · rw [hsent]
    exact List.forall_mem_nil _
  · rw [hgenesis b hb]
    exact List.forall_mem_nil _

variable [DecidableEq ι]

/-- A node that goes on announcing. -/
theorem Sourced.update (h : w.Sourced O) (i : ι) {n : Node}
    (hn : n.Sourced O (w.node.announced ∪ n.announced)) (hsent : (w.node i).sent <+: n.sent) :
    Sourced O { w with node := Function.update w.node i n } := by
  refine ⟨Network.sourced_update h.nodes i hn hsent, fun x hx => (h.answers x hx).mono ?_⟩
  exact Network.announced_mono (Network.sent_prefix_update hsent)

/-- **One event** keeps the origins. -/
theorem Sourced.next (h : w.Sourced O) {e : Exchange ι} (hid : ∀ id ∈ e.uuid, id ∈ O.uuids)
    (hsubmitted : ∀ t ∈ e.submitted, t.verify p ≠ 0 → t ∈ O.submitted) :
    (w.next p e).Sourced O := by
  cases e with
  | other l =>
    refine ⟨Network.sourced_next h.nodes (hid _ rfl) fun t ht => hsubmitted t ht, fun x hx => ?_⟩
    exact (h.answers x hx).mono (Network.announced_mono (Network.sent_prefix_next w.node l))
  | ask i =>
    refine h.update i (Node.Sourced.mono ?_ Set.subset_union_left) (List.prefix_append _ _)
    exact (h.nodes i).broadcast
      (fun htype => absurd htype (by decide : "BLOCKCHAINREQUEST" ≠ "TRANSACTION"))
      fun htype => absurd htype (by decide : "BLOCKCHAINREQUEST" ≠ "BLOCK")
  | serve i j k =>
    unfold Swarm.next
    dsimp only
    cases hanswer : (w.node j).sent[k]?.bind (w.node i).answer with
    | none => exact h
    | some answer =>
      obtain ⟨msg, -, hmsg⟩ := Option.bind_eq_some_iff.mp hanswer
      exact ⟨h.nodes, List.forall_mem_append.mpr
        ⟨h.answers, List.forall_mem_singleton.mpr ((h.nodes i).answer hmsg)⟩⟩
  | arrive k =>
    unfold Swarm.next
    dsimp only
    cases hx : w.answers[k]? with
    | none => exact h
    | some x =>
      have himported := (h.nodes x.1).handleBlockchain (p := p)
        (h.answers x (List.mem_of_getElem? hx))
      refine h.update x.1 (himported.mono Set.subset_union_left) ?_
      rw [Node.sent_handleBlockchain]

/-- What the transactions of a run can come from: what was submitted in it with a
signature that is not refused, what was drawn in it, and the wallets of the nodes. -/
def sources (p : Platform) (w : Swarm ι) (es : List (Exchange ι)) : Sources where
  submitted := {t | ∃ e ∈ es, e.submitted = some t ∧ t.verify p ≠ 0}
  uuids := {id | ∃ e ∈ es, e.uuid = some id}
  exchanges := {a | ∃ i, (w.node i).exchangeWallet.address = a}

/-- **Everything has an origin.** Let nodes start on the genesis block, with nothing
waiting and nothing sent. In every run, whatever is delivered or downloaded, however late
and often, and whoever is evicted: a block on any chain but the first was announced by a
node that has it on its chain; every transaction on any chain is one that a client
submitted, its signature not refused and its fee taken once, or a REWARD from an exchange
wallet with an id that was drawn; and what waits anywhere is what a client submitted. -/
theorem origins (p : Platform) (w : Swarm ι)
    (hstart : ∀ i, (w.node i).blocks = [Block.genesis] ∧ (w.node i).transactionPool = [] ∧
      (w.node i).sent = [])
    (hanswers : w.answers = []) (es : List (Exchange ι)) (i : ι) :
    let after := (run (next p) w es).node
    (∀ b ∈ (after i).blocks, b = Block.genesis ∨ ∃ j,
      ⟨"BLOCK", b.toPureJson⟩ ∈ (after j).sent ∧
        ∃ c ∈ (after j).blocks, c.toPureJson = b.toPureJson) ∧
    (∀ b ∈ (after i).blocks, ∀ t ∈ b.transactions,
      (∃ u, (∃ e ∈ es, e.submitted = some u ∧ u.verify p ≠ 0) ∧ t.wire = u.deductFee.wire) ∨
        t.type = "REWARD" ∧ (∃ e ∈ es, e.uuid = some t.id) ∧
          ∃ j, (w.node j).exchangeWallet.address = t.senderAddress) ∧
    ∀ t ∈ (after i).transactionPool,
      ∃ u, (∃ e ∈ es, e.submitted = some u ∧ u.verify p ≠ 0) ∧ t.received = u.received := by
  intro after
  have hafter : (run (next p) w es).Sourced (sources p w es) := by
    refine run_invariant (C := fun _ e => e ∈ es) (I := Sourced (sources p w es))
      (fun w' e h he => h.next (fun id hid => ⟨e, he, hid⟩)
        fun t ht hverify => ⟨e, he, ht, hverify⟩)
      (sourced_start hstart hanswers fun i => ⟨i, rfl⟩)
      (along_of_forall_split fun pre e post hes => ?_)
    rw [hes]
    exact List.mem_append_right _ List.mem_cons_self
  refine ⟨fun b hb => ?_, fun b hb t ht => ?_, (hafter.nodes i).pool⟩
  · refine ((hafter.nodes i).blocks b hb).imp_right fun ⟨j, m, hm, htype, hdata⟩ => ⟨j, ?_, ?_⟩
    · rw [← hdata, ← htype]
      exact hm
    · obtain ⟨c, hc, hsame⟩ := (hafter.nodes j).holds m hm htype
      exact ⟨c, hc, hsame.symm.trans hdata⟩
  · cases (hafter.nodes i).explained b hb t ht with
    | charged u hu hsame => exact Or.inl ⟨u, hu, hsame⟩
    | reward htype hid hex => exact Or.inr ⟨htype, hid, hex⟩

/-- The latecomer has what the genesis node has announced. -/
theorem origins_reference :
    (Reference.joined.node 1).blocks.length = 2 ∧ ∀ b ∈ (Reference.joined.node 1).blocks,
      b = Block.genesis ∨ ∃ j, ⟨"BLOCK", b.toPureJson⟩ ∈ (Reference.joined.node j).sent := by
  have hstart : ∀ i, (Reference.pair i).blocks = [Block.genesis] ∧
      (Reference.pair i).transactionPool = [] ∧ (Reference.pair i).sent = [] :=
    Fin.forall_fin_two.mpr ⟨⟨rfl, rfl, rfl⟩, ⟨rfl, rfl, rfl⟩⟩
  refine ⟨by decide +kernel, fun b hb => ?_⟩
  exact ((origins Reference.platform Reference.newcomers hstart rfl Reference.latecomer 1).1 b
    hb).imp_right fun ⟨j, hsent, _⟩ => ⟨j, hsent⟩

end Origins

end Swarm

end Prawnstar
