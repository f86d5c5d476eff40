import Prawnstar.Handlers
import Prawnstar.AccountModel

/-!
# Messages from peers

How a node reads the transactions and blocks that arrive as JSON. Fields are
read in the order of the source; a field that is missing or of the wrong type
ends the call where it stands and leaves the lookups made before it. The key of
a sender inside a block is not on the wire: the reader takes the one that is
registered for the sender's address.
-/

namespace Prawnstar

namespace Json

/-- A member as `std::string`. -/
def stringAt (key : String) (j : Json) : Except Fault String := do (← j.member key).toStr

/-- A member as `double`. -/
def doubleAt (key : String) (j : Json) : Except Fault ℚ := do (← j.member key).toDouble

/-- A member as `long` or `time_t`. -/
def longAt (undefinedCast : ℕ → ℚ → ℤ) (key : String) (j : Json) : Except Fault ℤ := do
  (← j.member key).toLong undefinedCast

/-- A member of a const value as `std::string`. -/
def constStringAt (key : String) (j : Json) : Except Fault String := do
  (← j.constMember key).toStr

/-- A member of a const value as `double`. -/
def constDoubleAt (key : String) (j : Json) : Except Fault ℚ := do (← j.constMember key).toDouble

/-- A member of a const value as `time_t`. -/
def constLongAt (undefinedCast : ℕ → ℚ → ℤ) (key : String) (j : Json) : Except Fault ℤ := do
  (← j.constMember key).toLong undefinedCast

end Json

/-- The transaction that the constructor without arguments makes. -/
def Transaction.blank : Transaction where
  senderAddress := ""
  senderPublicKey := ""
  receiverAddress := ""
  amount := 0
  type := ""
  id := ""
  timestamp := 0
  signature := ""
  signatureLength := 0

/-- The block that the constructor without arguments makes, but for the time. -/
def Block.blank : Block where
  transactions := []
  lastHash := ""
  hash := ""
  forgerAddress := ""
  timestamp := 0
  blockCount := 0
  signature := ""
  signatureLength := 0

/-- The fields of a transaction that `transactionHandler` reads. -/
def readTransaction (p : Platform) (jx : Json) : Except Fault Transaction := do
  let id ← jx.stringAt "id"
  let amount ← jx.doubleAt "amount"
  let senderAddress ← jx.stringAt "senderAddress"
  let senderPublicKey ← jx.stringAt "senderPublicKey"
  let receiverAddress ← jx.stringAt "receiverAddress"
  let signature ← jx.stringAt "signature"
  let timestamp ← jx.longAt p.undefinedCast "timestamp"
  let type ← jx.stringAt "type"
  return { Transaction.blank with
    id, amount, senderAddress, senderPublicKey, receiverAddress, signature, timestamp, type }

/-- The fields of a block's transaction that `blockHandler` reads before it
looks up the sender's wallet. -/
def readSender (itx : Json) : Except Fault Transaction := do
  let id ← itx.constStringAt "id"
  let amount ← itx.constDoubleAt "amount"
  let senderAddress ← itx.constStringAt "senderAddress"
  return { Transaction.blank with id, amount, senderAddress }

/-- The fields of a block's transaction that `blockHandler` reads afterwards. -/
def readRest (p : Platform) (tr : Transaction) (itx : Json) : Except Fault Transaction := do
  let receiverAddress ← itx.constStringAt "receiverAddress"
  let signature ← itx.constStringAt "signature"
  let timestamp ← itx.constLongAt p.undefinedCast "timestamp"
  let type ← itx.constStringAt "type"
  return { tr with receiverAddress, signature, timestamp, type }

/-- The fields of a block that `blockHandler` reads after its transactions. -/
def readBlock (p : Platform) (transactions : List Transaction) (jx : Json) :
    Except Fault Block := do
  let lastHash ← jx.stringAt "lastHash"
  let hash ← jx.stringAt "hash"
  let forgerAddress ← jx.stringAt "forgerAddress"
  let timestamp ← jx.longAt p.undefinedCast "timestamp"
  let blockCount ← jx.longAt p.undefinedCast "blockCount"
  let signature ← jx.stringAt "signature"
  return { Block.blank with
    transactions, lastHash, hash, forgerAddress, timestamp, blockCount, signature }

/-- A loop that reads items one by one and stops at the first fault. -/
def readEach {α : Type} (read : Node → Json → Except Fault α × Node) :
    Node → List Json → Except Fault (List α) × Node
  | n, [] => (.ok [], n)
  | n, itx :: items =>
    match read n itx with
    | (.error f, n) => (.error f, n)
    | (.ok t, n) =>
      match readEach read n items with
      | (.error f, n) => (.error f, n)
      | (.ok ts, n) => (.ok (t :: ts), n)

namespace Node

variable (p : Platform) (n : Node)

/-- `SocketCommunication::transactionHandler` -/
def transactionHandler (tick : Tick) (jx : Json) : Except Fault Unit × Node :=
  match readTransaction p jx with
  | .error f => (.error f, n)
  | .ok itx =>
    match n.handleTransaction p tick false itx with
    | (.error f, n) => (.error f, n)
    | (.ok _, n) => (.ok (), n)

/-- One transaction of a block as `blockHandler` reads it. -/
def receiveTransaction (itx : Json) : Except Fault Transaction × Node :=
  match readSender itx with
  | .error f => (.error f, n)
  | .ok tr =>
    let tr := { tr with
      senderPublicKey := (n.accountModel.wallet tr.senderAddress).walletPublicKey }
    (readRest p tr itx, n.openWallet tr.senderAddress)

/-- `SocketCommunication::blockHandler` -/
def blockHandler (jx : Json) : Except Fault Unit × Node :=
  match jx.member "transactions" with
  | .error f => (.error f, n)
  | .ok items =>
    match readEach (receiveTransaction p) n items.elements with
    | (.error f, n) => (.error f, n)
    | (.ok transactions, n) =>
      match readBlock p transactions jx with
      | .error f => (.error f, n)
      | .ok block => n.handleBlock p false block

/-- What `blockHandler` reads before it calls `handleBlock`. -/
def decodeBlock (jx : Json) : Except Fault Block × Node :=
  match jx.member "transactions" with
  | .error f => (.error f, n)
  | .ok items =>
    match readEach (receiveTransaction p) n items.elements with
    | (.error f, n) => (.error f, n)
    | (.ok transactions, n) => (readBlock p transactions jx, n)

variable {p n}

/-- `blockHandler` decodes a block and handles it. -/
theorem blockHandler_eq (jx : Json) : n.blockHandler p jx =
    match n.decodeBlock p jx with
    | (.error f, n) => (.error f, n)
    | (.ok b, n) => n.handleBlock p false b := by
  unfold blockHandler decodeBlock
  cases jx.member "transactions" with
  | error f => rfl
  | ok items =>
    dsimp only
    rcases readEach (receiveTransaction p) n items.elements with ⟨_ | ts, m⟩
    · rfl
    · dsimp only
      cases readBlock p ts jx <;> rfl

end Node

/-- A transaction as it arrives: the signature length is not on the wire. -/
def Transaction.received (t : Transaction) : Transaction := { t with signatureLength := 0 }

/-- A transaction as it arrives inside a block, with the key that the reader has
for its sender. -/
def Transaction.keyed (keyOf : String → String) (t : Transaction) : Transaction :=
  { t with senderPublicKey := keyOf t.senderAddress, signatureLength := 0 }

/-- A block as it arrives. -/
def Block.keyed (keyOf : String → String) (b : Block) : Block :=
  { b with transactions := b.transactions.map (Transaction.keyed keyOf), signatureLength := 0 }

/-- Decoding keeps the ids. -/
theorem Block.ids_keyed (key : String → String) (b : Block) : (b.keyed key).ids = b.ids := by
  unfold ids Block.keyed
  rw [List.map_map]
  rfl

/-- What a block writes does not depend on the keys of its readers. -/
theorem Block.members_keyed (key : String → String) (b : Block) (signature : String) :
    (b.keyed key).members signature = b.members signature := by
  have htransactions : transactionList (b.keyed key).transactions =
      transactionList b.transactions := by
    simp only [transactionList, keyed, List.map_map]
    rfl
  unfold members
  rw [htransactions]
  rfl

section RoundTrip

variable {p : Platform} {n : Node}

/-- **A transaction that was broadcast** arrives without its signature length. -/
@[simp] theorem readTransaction_toJson (t : Transaction) :
    readTransaction p t.toJson = .ok t.received := rfl

/-- The fields of a block that was broadcast arrive. -/
theorem readBlock_toPureJson (b : Block) (ts : List Transaction) :
    readBlock p ts b.toPureJson = .ok { b with transactions := ts, signatureLength := 0 } := rfl

/-- A loop reads what every single reading reads, when the readings do not
depend on what the others leave behind. -/
theorem readEach_eq {α : Type} {read : Node → Json → Except Fault α × Node}
    {next : Node → α → Node} {encode : α → Json} {decode : α → α} {I : Node → Prop}
    (hread : ∀ n t, I n → read n (encode t) = (.ok (decode t), next n t))
    (hnext : ∀ n t, I n → I (next n t)) (hn : I n) (ts : List α) :
    readEach read n (ts.map encode) = (.ok (ts.map decode), ts.foldl next n) := by
  induction ts generalizing n with
  | nil => rfl
  | cons t ts ih =>
    simp only [List.map_cons, readEach, hread n t hn, ih (hnext n t hn), List.foldl_cons]

namespace Node

/-- The key that a wallet lookup finds for an address. -/
def keyOf (n : Node) (address : String) : String := n.accountModel.publicKey (cStr address)

/-- The node after the wallets of the senders of a block were looked up. -/
def openSenders (n : Node) (b : Block) : Node :=
  b.transactions.foldl (fun n t => n.openWallet t.senderAddress) n

section Relation

variable {R : Node → Node → Prop} (hrefl : ∀ n, R n n) (htrans : ∀ {n m k}, R n m → R m k → R n k)

include hrefl htrans

/-- A relation that holds across every reading holds across a loop, whether it
finishes or not. -/
theorem readEach_rel {α : Type} {read : Node → Json → Except Fault α × Node}
    (hread : ∀ n itx, R n (read n itx).2) (n : Node) (items : List Json) :
    R n (readEach read n items).2 := by
  induction items generalizing n with
  | nil => exact hrefl n
  | cons itx items ih =>
    have hfirst := hread n itx
    unfold readEach
    cases hx : read n itx with
    | mk result m =>
      rw [hx] at hfirst
      cases result with
      | error f => exact hfirst
      | ok t =>
        have hrest := htrans hfirst (ih m)
        dsimp only
        cases hxs : readEach read m items with
        | mk result k =>
          rw [hxs] at hrest
          cases result <;> exact hrest

/-- A relation that holds across a wallet lookup holds across those of the senders. -/
theorem openSenders_rel (hlookup : ∀ n a, R n (openWallet n a)) (n : Node) (b : Block) :
    R n (n.openSenders b) := by
  unfold openSenders
  induction b.transactions generalizing n with
  | nil => exact hrefl n
  | cons t ts ih => exact htrans (hlookup n t.senderAddress) (ih _)

/-- **Decoding a block** looks up wallets, and nothing else. -/
theorem decodeBlock_rel (hlookup : ∀ n a, R n (openWallet n a)) (n : Node) (jx : Json) :
    R n (n.decodeBlock p jx).2 := by
  have hread : ∀ n itx, R n (receiveTransaction p n itx).2 := by
    intro n itx
    unfold receiveTransaction
    cases readSender itx with
    | error f => exact hrefl n
    | ok tr => exact hlookup n tr.senderAddress
  unfold decodeBlock
  cases jx.member "transactions" with
  | error f => exact hrefl n
  | ok items =>
    have hloop := readEach_rel hrefl htrans hread n items.elements
    dsimp only
    cases hx : readEach (receiveTransaction p) n items.elements with
    | mk result m =>
      rw [hx] at hloop
      cases result <;> exact hloop

end Relation

/-- A wallet lookup finds the same keys afterwards. -/
@[simp] theorem keyOf_openWallet (a : String) : (n.openWallet a).keyOf = n.keyOf :=
  funext fun _ => AccountModel.publicKey_openWallet

/-- A wallet lookup leaves all but the keys alone. -/
theorem openWallet_frame (n : Node) (a : String) : (n.openWallet a).chain = n.chain ∧
    (n.openWallet a).getBalance = n.getBalance ∧
    (n.openWallet a).accountModel.accountExists = n.accountModel.accountExists ∧
    (n.openWallet a).stakers = n.stakers := by
  unfold openWallet
  exact ⟨rfl, funext fun _ => AccountModel.getBalance_openWallet, rfl, rfl⟩

/-- What a wallet lookup leaves alone, looking up senders leaves alone. -/
theorem openSenders_keeps {α : Type*} {f : Node → α}
    (hlookup : ∀ n a, f (openWallet n a) = f n) (n : Node) (b : Block) :
    f (n.openSenders b) = f n :=
  openSenders_rel (R := fun n m => f m = f n) (fun _ => rfl) (fun h h' => h'.trans h) hlookup n b

/-- Looking up senders leaves all but the keys alone. -/
theorem openSenders_frame (n : Node) (b : Block) : (n.openSenders b).chain = n.chain ∧
    (n.openSenders b).getBalance = n.getBalance ∧
    (n.openSenders b).accountModel.accountExists = n.accountModel.accountExists ∧
    (n.openSenders b).stakers = n.stakers :=
  ⟨openSenders_keeps (fun n a => (openWallet_frame n a).1) n b,
    openSenders_keeps (fun n a => (openWallet_frame n a).2.1) n b,
    openSenders_keeps (f := fun m => m.accountModel.accountExists)
      (fun n a => (openWallet_frame n a).2.2.1) n b,
    openSenders_keeps (fun n a => (openWallet_frame n a).2.2.2) n b⟩

/-- Looking up senders leaves the pool alone. -/
theorem transactionPool_openSenders (b : Block) :
    (n.openSenders b).transactionPool = n.transactionPool :=
  openSenders_keeps (fun _ _ => rfl) n b

/-- Looking up senders finds the same keys afterwards. -/
theorem keyOf_openSenders (b : Block) : (n.openSenders b).keyOf = n.keyOf :=
  openSenders_keeps (fun _ a => keyOf_openWallet a) n b

/-- A transaction that was broadcast is handled without its signature length. -/
theorem transactionHandler_toJson (tick : Tick) (t : Transaction) :
    (n.transactionHandler p tick t.toJson).2 =
      (n.handleTransaction p tick false t.received).2 := by
  unfold transactionHandler
  simp only [readTransaction_toJson]
  rcases n.handleTransaction p tick false t.received with ⟨_ | _, m⟩ <;> rfl

/-- **A block that was broadcast** is decoded with the keys that the reader has. -/
theorem decodeBlock_toPureJson (b : Block) :
    n.decodeBlock p b.toPureJson = (.ok (b.keyed n.keyOf), n.openSenders b) := by
  have hread : ∀ (m : Node) (t : Transaction), m.keyOf = n.keyOf →
      m.receiveTransaction p (t.members t.signature) =
        (.ok (t.keyed n.keyOf), m.openWallet t.senderAddress) := by
    intro m t hkey
    rw [← hkey]
    rfl
  have hloop := readEach_eq (I := fun m => m.keyOf = n.keyOf) hread
    (fun m t hkey => (keyOf_openWallet t.senderAddress).trans hkey) rfl b.transactions
  have hitems : b.toPureJson.member "transactions" =
      .ok (.array (Block.transactionList b.transactions)) := rfl
  unfold decodeBlock
  simp only [hitems, Json.elements, Block.transactionList, hloop, readBlock_toPureJson]
  rfl

/-- A block that was broadcast is handled with the keys that the reader has. -/
theorem blockHandler_toPureJson (b : Block) : n.blockHandler p b.toPureJson =
    (n.openSenders b).handleBlock p false (b.keyed n.keyOf) := by
  rw [blockHandler_eq, decodeBlock_toPureJson]

end Node

end RoundTrip

end Prawnstar
