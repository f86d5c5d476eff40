import Prawnstar.PlainTexts
import Prawnstar.Digests

/-!
# What is sent over a socket

A node hands a message to `broadcast` as a text in a frame, and its peer reads bytes.
With the serializer and the parser of the library in the place of the platform's `dump`,
a frame is received, parsed and dispatched as the message that was sent, whatever bytes
follow. So processes that exchange bytes do what nodes do that exchange values.
-/

namespace Prawnstar

open Library Serializer

/-- The text of a value, which is what `dump` without arguments writes (`dumpJson_ok`). -/
def Serializer.dumpString (d : Doubles) (j : Json) : String :=
  Parser.stringOf (text d false false 0 0 j)

/-- A platform whose `dump` is the one of the library. -/
def Platform.printing (p : Platform) (d : Doubles) : Platform := { p with dump := dumpString d }

section Texts

variable {p : Platform} {d : Doubles} {j : Json}

/-- An object whose keys are listed in their order. -/
theorem Json.WellFormed.listed {members : List (String × Json)} (keys : List String)
    (hkeys : members.map Prod.fst = keys) (hsorted : keys.Pairwise (· < ·))
    (h : ∀ m ∈ members, m.2.WellFormed d) : (Json.object members).WellFormed d :=
  .object (hkeys ▸ hsorted) h

/-- The bytes that a text is read from are its bytes. -/
theorem toList_toUTF8 (s : String) : s.toUTF8.toList = bytesOf s := by
  rw [ByteArray.toList, toList_loop]
  rfl

/-- The bytes of the string that a text is are the text, printed pretty or not. -/
theorem bytesOf_stringOf_text (hj : j.WellFormed d) (prettyPrint ensureAscii : Bool)
    (indentStep indent : ℕ) :
    bytesOf (Parser.stringOf (text d prettyPrint ensureAscii indentStep indent j)) =
      text d prettyPrint ensureAscii indentStep indent j := by
  have hplain : Plain (text d prettyPrint ensureAscii indentStep indent j) := plain_text hj indent
  obtain ⟨cs, hcs⟩ := hplain.text
  have hstring := Parser.stringOf_encode (String.ofList cs)
  rw [String.toList_ofList] at hstring
  rw [hcs, hstring, bytesOf, String.toUTF8_eq_toByteArray, Parser.toList_toByteArray,
    String.toList_ofList]

/-- The bytes of what `dump` returns are the text of the value. -/
theorem bytesOf_dump (hj : j.WellFormed d) :
    bytesOf ((p.printing d).dump j) = text d false false 0 0 j :=
  bytesOf_stringOf_text hj false false 0 0

/-- **`dump` is undone by `parse`.** -/
theorem parse_dump (hj : j.WellFormed d) :
    Parser.parse d (bytesOf ((p.printing d).dump j)) = some j := by
  rw [bytesOf_dump hj]
  exact Parser.parse_text hj false false 0 0

/-- A text is handled as the value that it was written for. -/
theorem readText_dump (hj : j.WellFormed d) :
    readText (Parser.parse d) ((p.printing d).dump j) = j := by
  rw [readText, toList_toUTF8, parse_dump hj]
  rfl

/-- Different values have different texts. -/
theorem dump_injective {k : Json} (hj : j.WellFormed d) (hk : k.WellFormed d)
    (h : (p.printing d).dump j = (p.printing d).dump k) : j = k := by
  have hread := parse_dump (p := p) hj
  rw [h, parse_dump hk] at hread
  exact (Option.some.inj hread).symm

/-- No text has a zero byte. -/
theorem zero_notMem_dump (hj : j.WellFormed d) : 0 ∉ bytesOf ((p.printing d).dump j) := by
  rw [bytesOf_dump hj]
  intro hzero
  rcases (plain_text hj 0).bytes 0 hzero with h | h <;> exact absurd h (by decide)

/-- Nothing is no text: the parser fails at the end of the input. -/
theorem Parser.parse_nil : Parser.parse d [] = none := by
  have hfail : (Parser.saxParseInternal d).run ⟨.null, [], .endOfInput, [], false⟩ = none :=
    Loop.run_of_inr rfl
  have hscan : Lexer.scanFirst d [] = (.endOfInput, []) := rfl
  unfold Parser.parse
  rw [hscan]
  dsimp only
  rw [hfail]

/-- No text is empty. -/
theorem length_dump_pos (hj : j.WellFormed d) :
    1 ≤ (bytesOf ((p.printing d).dump j)).length := by
  have hparse := parse_dump (p := p) hj
  refine List.length_pos_iff.mpr fun hnil => ?_
  rw [hnil, Parser.parse_nil] at hparse
  cases hparse

end Texts

section Records

variable {d : Doubles}

/-- The numbers of a transaction survive being written: a double, and a time of 64 bits. -/
structure Transaction.Writable (d : Doubles) (t : Transaction) : Prop where
  /-- The amount is recovered. -/
  amount : d.Recovers t.amount
  /-- The time is a `time_t`. -/
  timestamp : -2 ^ 63 ≤ t.timestamp ∧ t.timestamp < 2 ^ 63

/-- The numbers of a block survive being written. -/
structure Block.Writable (d : Doubles) (b : Block) : Prop where
  /-- The count is a `long`. -/
  blockCount : -2 ^ 63 ≤ b.blockCount ∧ b.blockCount < 2 ^ 63
  /-- The time is a `time_t`. -/
  timestamp : -2 ^ 63 ≤ b.timestamp ∧ b.timestamp < 2 ^ 63
  /-- So do those of its transactions. -/
  transactions : ∀ t ∈ b.transactions, t.Writable d

/-- A transaction can be written. -/
theorem Transaction.Writable.toJson {t : Transaction} (h : t.Writable d) :
    t.toJson.WellFormed d := by
  refine .listed ["amount", "id", "receiverAddress", "senderAddress", "senderPublicKey",
    "signature", "timestamp", "type"] rfl (by decide) ?_
  simp only [List.forall_mem_cons]
  exact ⟨.float h.amount, .string _, .string _, .string _, .string _, .string _,
    .int h.timestamp.1 h.timestamp.2, .string _, List.forall_mem_nil _⟩

/-- So can a transaction inside a block. -/
theorem Transaction.Writable.members {t : Transaction} (h : t.Writable d) (signature : String) :
    (t.members signature).WellFormed d := by
  refine .listed ["amount", "id", "receiverAddress", "senderAddress", "signature", "timestamp",
    "type"] rfl (by decide) ?_
  simp only [List.forall_mem_cons]
  exact ⟨.float h.amount, .string _, .string _, .string _, .string _,
    .int h.timestamp.1 h.timestamp.2, .string _, List.forall_mem_nil _⟩

/-- A block can be written. -/
theorem Block.Writable.members {b : Block} (h : b.Writable d) (signature : String) :
    (b.members signature).WellFormed d := by
  refine .listed ["blockCount", "forgerAddress", "hash", "lastHash", "signature", "timestamp",
    "transactions"] rfl (by decide) ?_
  simp only [List.forall_mem_cons]
  refine ⟨.int h.blockCount.1 h.blockCount.2, .string _, .string _, .string _, .string _,
    .int h.timestamp.1 h.timestamp.2, .array fun j hj => ?_, List.forall_mem_nil _⟩
  obtain ⟨t, ht, rfl⟩ := List.mem_map.mp hj
  exact (h.transactions t ht).members t.signature

section Payloads

variable {p : Platform}

/-- A transaction without what its payload leaves out: the key, and the signature with
its length. -/
def Transaction.unsigned (t : Transaction) : Transaction :=
  { t.keyed fun _ => "" with signature := "" }

/-- A block without what its payload leaves out: the keys of its transactions and their
signature lengths, and the signature with its length. -/
def Block.unsigned (b : Block) : Block := { b.keyed fun _ => "" with signature := "" }

/-- The payload of a block is that of what is signed. -/
theorem Block.members_unsigned (b : Block) : b.unsigned.members "" = b.members "" :=
  Block.members_keyed (fun _ => "") b ""

/-- The members of a transaction show the signature and what is signed. -/
theorem Transaction.members_eq_iff {t u : Transaction} {signature signature' : String} :
    t.members signature = u.members signature' ↔
      signature = signature' ∧ t.unsigned = u.unsigned := by
  obtain ⟨sender, key, receiver, amount, type, id, timestamp, sig, length⟩ := t
  obtain ⟨sender', key', receiver', amount', type', id', timestamp', sig', length'⟩ := u
  simp only [members, Json.object.injEq, List.cons.injEq, Prod.mk.injEq, Json.float.injEq,
    Json.string.injEq, Json.int.injEq, true_and, and_true, unsigned, keyed, Transaction.mk.injEq]
  tauto

/-- Transactions inside a block with the same members are the same but for their keys. -/
theorem Transaction.keyed_of_members {t u : Transaction}
    (h : t.members t.signature = u.members u.signature) :
    t.keyed (fun _ => "") = u.keyed fun _ => "" := by
  obtain ⟨hsignature, hunsigned⟩ := members_eq_iff.mp h
  have hsigned : ∀ t : Transaction,
      t.keyed (fun _ => "") = { t.unsigned with signature := t.signature } := fun _ => rfl
  rw [hsigned, hsigned, hunsigned, hsignature]

/-- **What a transaction's signature covers.** Two transactions have one payload exactly
when they are the same but for the key and the signature. -/
theorem Transaction.payload_eq_iff (p : Platform) (d : Doubles) (t u : Transaction)
    (ht : t.Writable d) (hu : u.Writable d) :
    t.payload (p.printing d) = u.payload (p.printing d) ↔ t.unsigned = u.unsigned := by
  constructor
  · intro h
    exact (members_eq_iff.mp (dump_injective (ht.members "") (hu.members "") h)).2
  · intro h
    rw [payload, payload, members_eq_iff.mpr ⟨rfl, h⟩]

/-- A key can be replaced under a signature. -/
theorem Transaction.payload_eq_iff_reference :
    let t : Transaction :=
      ⟨"alice", "key", "bob", 0, "TRANSFER", "1", 1, "signature", 9⟩
    t.payload (Reference.platform.printing Reference.doubles) =
        ({ t with senderPublicKey := "" } : Transaction).payload
          (Reference.platform.printing Reference.doubles) ↔
      t.unsigned = ({ t with senderPublicKey := "" } : Transaction).unsigned :=
  payload_eq_iff Reference.platform Reference.doubles _ _
    ⟨Reference.recovers_doubles fun hne => absurd rfl hne, by decide⟩
    ⟨Reference.recovers_doubles fun hne => absurd rfl hne, by decide⟩

/-- **What a block's signature covers.** Two blocks have one payload exactly when they are
the same but for the keys of their senders, the signature lengths, and the signature of
the block. -/
theorem Block.blockPayload_eq_iff (p : Platform) (d : Doubles) (b c : Block) (hb : b.Writable d)
    (hc : c.Writable d) :
    b.payload (p.printing d) = c.payload (p.printing d) ↔ b.unsigned = c.unsigned := by
  constructor
  · intro h
    have hmembers := dump_injective (hb.members "") (hc.members "") h
    simp only [members, Json.object.injEq, List.cons.injEq, Prod.mk.injEq, Json.string.injEq,
      Json.int.injEq, Json.array.injEq, true_and, and_true] at hmembers
    obtain ⟨hcount, hforger, hhash, hlast, htime, htransactions⟩ := hmembers
    have hkeyed : b.transactions.map (Transaction.keyed fun _ => "") =
        c.transactions.map (Transaction.keyed fun _ => "") := by
      generalize b.transactions = ts at htransactions
      generalize c.transactions = us at htransactions
      unfold transactionList at htransactions
      induction ts generalizing us with
      | nil =>
        rw [List.map_nil] at htransactions
        rw [List.map_eq_nil_iff.mp htransactions.symm]
      | cons t ts ih =>
        cases us with
        | nil => cases htransactions
        | cons u us =>
          rw [List.map_cons, List.map_cons, List.cons.injEq] at htransactions
          rw [List.map_cons, List.map_cons, Transaction.keyed_of_members htransactions.1,
            ih us htransactions.2]
    simp only [unsigned, keyed, Block.mk.injEq]
    exact ⟨hkeyed, hlast, hhash, hforger, htime, hcount, trivial, trivial⟩
  · intro h
    rw [payload, payload, ← b.members_unsigned, h, c.members_unsigned]

/-- A block's hash cannot be replaced under its signature. -/
theorem Block.blockPayload_eq_iff_reference :
    let t : Transaction := ⟨"alice", "key", "bob", 0, "TRANSFER", "1", 1, "signature", 9⟩
    let b : Block := ⟨[t], "last", "hash", "alice", 1, 1, "signature", 9⟩
    b.payload (Reference.platform.printing Reference.doubles) =
        ({ b with hash := "" } : Block).payload
          (Reference.platform.printing Reference.doubles) ↔
      b.unsigned = ({ b with hash := "" } : Block).unsigned := by
  intro t b
  have ht : t.Writable Reference.doubles :=
    ⟨Reference.recovers_doubles fun hne => absurd rfl hne, by decide⟩
  exact blockPayload_eq_iff Reference.platform Reference.doubles b _
    ⟨by decide, by decide, List.forall_mem_singleton.mpr ht⟩
    ⟨by decide, by decide, List.forall_mem_singleton.mpr ht⟩

end Payloads

end Records

namespace P2P

section Frames

variable {p : Platform} {d : Doubles} {m : Message}

/-- Every message whose port is a number of 64 bits can be written. -/
theorem wellFormed_json (hport : -2 ^ 63 ≤ m.sc.port ∧ m.sc.port < 2 ^ 63) :
    m.json.WellFormed d := by
  have hconnector :
      (Json.object [("ip", .string m.sc.ip), ("port", .int m.sc.port)]).WellFormed d := by
    refine .listed ["ip", "port"] rfl (by decide) ?_
    simp only [List.forall_mem_cons]
    exact ⟨.string _, .int hport.1 hport.2, List.forall_mem_nil _⟩
  unfold Message.json
  refine .listed ["Message"] rfl (by decide) (List.forall_mem_singleton.mpr ?_)
  dsimp only
  split
  · refine .listed ["Peers", "SocketConnector", "Type", "data"] rfl (by decide) ?_
    simp only [List.forall_mem_cons]
    exact ⟨.null, hconnector, .string _, .string _, List.forall_mem_nil _⟩
  · refine .listed ["Peers", "SocketConnector", "Type"] rfl (by decide) ?_
    simp only [List.forall_mem_cons]
    refine ⟨.array fun j hj => ?_, hconnector, .string _, List.forall_mem_nil _⟩
    obtain ⟨peer, -, rfl⟩ := List.mem_map.mp hj
    exact .string peer

/-- **What a process sends, its peer dispatches.** Whatever bytes follow a frame whose
body is no longer than an `int` says, the body is received, parsed and dispatched as the
message that was sent. -/
theorem handleNodeMessage_printing (rest : List UInt8) (tick : Tick) (s : SocketCommunication)
    (hport : -2 ^ 63 ≤ m.sc.port ∧ m.sc.port < 2 ^ 63)
    (hint : (bytesOf (m.strMsgBody (p.printing d))).length < 2 ^ 31) :
    ∃ buffer, recv (bytesOf (m.toJson (p.printing d)) ++ rest) = .ok buffer ∧
      s.handleNodeMessage (p.printing d) (Parser.parse d) tick buffer =
        s.dispatch (p.printing d) (Parser.parse d) tick m.json :=
  have hjson : m.json.WellFormed d := wellFormed_json hport
  handleNodeMessage_of_toJson (parse_dump hjson) (zero_notMem_dump hjson) (length_dump_pos hjson)
    hint

end Frames

end P2P

end Prawnstar
