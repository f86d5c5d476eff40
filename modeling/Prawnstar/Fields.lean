import Prawnstar.Peers
import Prawnstar.Import

/-!
# Fields of messages

A handler reads the fields of a message one by one and converts each to its type;
the first field that is missing or of another type ends it. So a reading returns
exactly when all its fields are there and of their types.
-/

namespace Prawnstar

/-- The types that fields of messages have. -/
inductive Kind
  | text
  | number
  deriving DecidableEq

namespace Json

/-- A value of some type. -/
def hasKind : Kind → Json → Bool
  | .text, string _ => true
  | .number, int _ => true
  | .number, uint _ => true
  | .number, float _ => true
  | _, _ => false

/-- A member, null where there is none. -/
def field (key : String) : Json → Json
  | object members => (members.lookup key).getD null
  | _ => null

/-- A value with fields of given types. -/
def fits (fields : List (String × Kind)) (j : Json) : Bool :=
  fields.all fun field => (j.field field.1).hasKind field.2

/-- A value that `operator[]` with a key does not throw on. -/
def indexable : Json → Bool
  | null => true
  | object _ => true
  | _ => false

end Json

/-- The fields of a transaction in a block. -/
def itemFields : List (String × Kind) :=
  [("id", .text), ("amount", .number), ("senderAddress", .text), ("receiverAddress", .text),
    ("signature", .text), ("timestamp", .number), ("type", .text)]

/-- The fields of a transaction. -/
def transactionFields : List (String × Kind) := ("senderPublicKey", .text) :: itemFields

/-- The fields of a block, but for its transactions. -/
def blockFields : List (String × Kind) :=
  [("lastHash", .text), ("hash", .text), ("forgerAddress", .text), ("timestamp", .number),
    ("blockCount", .number), ("signature", .text)]

/-- A block with all its fields and those of its transactions. -/
def Json.fitsBlock (j : Json) : Bool :=
  j.fits blockFields && (j.field "transactions").elements.all (fits itemFields)

section Reading

variable {p : Platform} {j : Json} {key : String}

/-- A reading in two parts returns when the first part does and the second does
whatever the first one read. -/
theorem exists_bind {α β : Type} {x : Except Fault α} {f : α → Except Fault β} {P : Prop}
    (h : ∀ a, (∃ b, f a = .ok b) ↔ P) : (∃ b, (x >>= f) = .ok b) ↔ (∃ a, x = .ok a) ∧ P := by
  cases x with
  | error e =>
    refine iff_of_false ?_ ?_
    · rintro ⟨b, hb⟩
      cases hb
    · rintro ⟨⟨a, ha⟩, -⟩
      cases ha
  | ok a => exact (h a).trans (by simp)

/-- A reading that is done returns. -/
theorem exists_pure {α : Type} (a : α) : (∃ b, (pure a : Except Fault α) = .ok b) ↔ True :=
  iff_of_true ⟨a, rfl⟩ trivial

/-- What `operator[]` reads is the field, or null. -/
theorem Json.member_eq : j.member key =
    if j.indexable then .ok (j.field key) else .error .typeError := by
  cases j <;> rfl

/-- A member of another type throws. -/
theorem exists_toStr : (∃ s, j.toStr = .ok s) ↔ j.hasKind .text := by
  cases j <;> simp [Json.toStr, Json.hasKind]

/-- A member of another type throws. -/
theorem exists_toDouble : (∃ q, j.toDouble = .ok q) ↔ j.hasKind .number := by
  cases j <;> simp [Json.toDouble, Json.hasKind]

/-- A member of another type throws. -/
theorem exists_toLong {undefinedCast : ℕ → ℚ → ℤ} :
    (∃ z, j.toLong undefinedCast = .ok z) ↔ j.hasKind .number := by
  cases j <;> simp [Json.toLong, Json.hasKind]

/-- Null has no type that a field may have. -/
theorem Json.indexable_of_field (key : String) (kind : Kind)
    (h : (j.field key).hasKind kind) : j.indexable := by
  cases j <;> first | rfl | (cases kind <;> cases h)

/-- A conversion of a member returns when the field has its type. -/
theorem exists_at {α : Type} {kind : Kind} {read : Json → Except Fault α}
    (hread : ∀ j, (∃ a, read j = .ok a) ↔ j.hasKind kind) :
    (∃ a, (do read (← j.member key)) = .ok a) ↔ (j.field key).hasKind kind := by
  rw [Json.member_eq]
  by_cases hindex : j.indexable
  · rw [if_pos hindex]
    exact hread _
  · rw [if_neg hindex]
    refine iff_of_false ?_ fun h => hindex (Json.indexable_of_field key kind h)
    rintro ⟨a, ha⟩
    cases ha

/-- What a const `operator[]` reads is the field; without one it fails. -/
theorem Json.constMember_cases (key : String) (j : Json) :
    j.constMember key = .ok (j.field key) ∨
      ∃ f, j.constMember key = .error f ∧ j.field key = .null := by
  cases j with
  | object members =>
    cases hvalue : members.lookup key with
    | none =>
      apply Or.inr
      exact ⟨.assertion, by simp only [constMember, hvalue], by simp [field, hvalue]⟩
    | some value =>
      apply Or.inl
      simp only [constMember, field, hvalue, Option.getD_some]
  | _ => exact Or.inr ⟨_, rfl, rfl⟩

/-- A conversion of a member of a const value returns when the field has its type. -/
theorem exists_constAt {α : Type} {kind : Kind} {read : Json → Except Fault α}
    (hread : ∀ j, (∃ a, read j = .ok a) ↔ j.hasKind kind) :
    (∃ a, (do read (← j.constMember key)) = .ok a) ↔ (j.field key).hasKind kind := by
  rcases Json.constMember_cases key j with hfield | ⟨f, hfail, hnull⟩
  · rw [hfield]
    exact hread _
  · rw [hfail, hnull]
    refine iff_of_false ?_ (by cases kind <;> simp [Json.hasKind])
    rintro ⟨a, ha⟩
    cases ha

/-- A text that is read is the field. -/
theorem stringAt_eq_ok {text : String} :
    j.stringAt key = .ok text ↔ j.field key = .string text := by
  have hstr : ∀ value : Json, value.toStr = .ok text ↔ value = .string text := by
    intro value
    cases value <;> simp [Json.toStr]
  rw [← hstr]
  unfold Json.stringAt
  rw [Json.member_eq]
  by_cases hindex : j.indexable
  · rw [if_pos hindex]
    exact Iff.rfl
  · rw [if_neg hindex]
    refine iff_of_false (fun h => by cases h) fun h => ?_
    rw [hstr] at h
    exact hindex (Json.indexable_of_field key .text (by rw [h]; rfl))

/-- A member of which null is refused is read as the field. -/
theorem member_bind_eq_ok {α : Type} {read : Json → Except Fault α} {a : α}
    (hnull : read .null ≠ .ok a) : (j.member key >>= read) = .ok a ↔
      read (j.field key) = .ok a := by
  rw [Json.member_eq]
  by_cases hindex : j.indexable
  · rw [if_pos hindex]
    exact Iff.rfl
  · have hfield : j.field key = .null := by
      cases j <;> first | rfl | exact absurd rfl hindex
    rw [if_neg hindex, hfield]
    exact iff_of_false (fun h => by cases h) hnull

/-- A text of the message that is read is its field. -/
theorem messageText_eq_ok {text : String} :
    (do (← j.member "Message").stringAt key) = .ok text ↔
      (j.field "Message").field key = .string text := by
  rw [← stringAt_eq_ok]
  exact member_bind_eq_ok fun h => by cases h

/-- The sender that a message names. -/
theorem senderConnector_eq_ok {sender : SocketConnector} : senderConnector p j = .ok sender ↔
    ((j.field "Message").field "SocketConnector").field "ip" = .string sender.ip ∧
      (((j.field "Message").field "SocketConnector").field "port").toInt p.undefinedCast =
        .ok sender.port := by
  have hread : ∀ connector : Json, (do
      let ip ← connector.stringAt "ip"
      let port ← (← connector.member "port").toInt p.undefinedCast
      return (⟨ip, port⟩ : SocketConnector)) = .ok sender ↔
        connector.field "ip" = .string sender.ip ∧
          (connector.field "port").toInt p.undefinedCast = .ok sender.port := by
    intro connector
    constructor
    · intro h
      obtain ⟨ip, hip, h⟩ := Node.bind_eq_ok h
      obtain ⟨value, hvalue, h⟩ := Node.bind_eq_ok h
      obtain ⟨port, hport, h⟩ := Node.bind_eq_ok h
      obtain rfl := Except.ok.inj h
      rw [Json.member_eq] at hvalue
      split at hvalue
      · obtain rfl := Except.ok.inj hvalue
        exact ⟨stringAt_eq_ok.mp hip, hport⟩
      · cases hvalue
    · rintro ⟨hip, hport⟩
      have hindex : connector.indexable :=
        Json.indexable_of_field "ip" .text (by rw [hip]; rfl)
      rw [stringAt_eq_ok.mpr hip, Json.member_eq, if_pos hindex]
      change ((connector.field "port").toInt p.undefinedCast >>= _) = _
      rw [hport]
      rfl
  rw [← hread]
  exact (member_bind_eq_ok fun h => by cases h).trans (member_bind_eq_ok fun h => by cases h)

/-- The peers that a message lists, when it is one. -/
theorem messagePeers_eq (hindex : j.indexable) (hmessage : (j.field "Message").indexable) :
    messagePeers j = ((j.field "Message").field "Peers").elements.mapM Json.toStr := by
  unfold messagePeers
  rw [Json.member_eq, if_pos hindex]
  change ((j.field "Message").member "Peers" >>= _) = _
  rw [Json.member_eq, if_pos hmessage]
  rfl

/-- Items that are converted to texts are texts. -/
theorem mapM_toStr_eq_ok {items : List Json} {texts : List String} :
    items.mapM Json.toStr = .ok texts ↔ items = texts.map Json.string := by
  induction items generalizing texts with
  | nil => cases texts <;> simp [pure, Except.pure]
  | cons item items ih =>
    rw [List.mapM_cons]
    constructor
    · intro h
      obtain ⟨text, htext, h⟩ := Node.bind_eq_ok h
      obtain ⟨rest, hrest, h⟩ := Node.bind_eq_ok h
      obtain rfl := Except.ok.inj h
      rw [List.map_cons, ← ih.mp hrest]
      cases item <;> simp [Json.toStr] at htext
      rw [htext]
    · cases texts with
      | nil => simp
      | cons text rest =>
        rw [List.map_cons, List.cons.injEq]
        rintro ⟨rfl, hrest⟩
        rw [ih.mpr hrest]
        rfl

/-- **The fields of a transaction.** -/
theorem exists_readTransaction :
    (∃ t, readTransaction p j = .ok t) ↔ j.fits transactionFields := by
  unfold readTransaction
  refine (exists_bind fun _ => exists_bind fun _ => exists_bind fun _ => exists_bind fun _ =>
    exists_bind fun _ => exists_bind fun _ => exists_bind fun _ => exists_bind fun _ =>
      exists_pure _).trans ?_
  simp only [Json.stringAt, Json.doubleAt, Json.longAt, exists_at fun _ => exists_toStr,
    exists_at fun _ => exists_toDouble, exists_at fun _ => exists_toLong, Json.fits,
    transactionFields, itemFields, List.all_cons, List.all_nil, Bool.and_eq_true]
  tauto

/-- The fields that `blockHandler` reads before it looks up the sender. -/
theorem exists_readSender : (∃ t, readSender j = .ok t) ↔ (j.field "id").hasKind .text ∧
    (j.field "amount").hasKind .number ∧ (j.field "senderAddress").hasKind .text := by
  unfold readSender
  refine (exists_bind fun _ => exists_bind fun _ => exists_bind fun _ => exists_pure _).trans ?_
  simp only [Json.constStringAt, Json.constDoubleAt, exists_constAt fun _ => exists_toStr,
    exists_constAt fun _ => exists_toDouble, and_true]

/-- The fields that `blockHandler` reads afterwards. -/
theorem exists_readRest (tr : Transaction) : (∃ t, readRest p tr j = .ok t) ↔
    (j.field "receiverAddress").hasKind .text ∧ (j.field "signature").hasKind .text ∧
      (j.field "timestamp").hasKind .number ∧ (j.field "type").hasKind .text := by
  unfold readRest
  refine (exists_bind fun _ => exists_bind fun _ => exists_bind fun _ => exists_bind fun _ =>
    exists_pure _).trans ?_
  simp only [Json.constStringAt, Json.constLongAt, exists_constAt fun _ => exists_toStr,
    exists_constAt fun _ => exists_toLong, and_true]

/-- The fields that `handleBlockchain` reads before it looks up the sender. -/
theorem exists_importSender : (∃ t, importSender j = .ok t) ↔ (j.field "id").hasKind .text ∧
    (j.field "amount").hasKind .number ∧ (j.field "receiverAddress").hasKind .text ∧
      (j.field "senderAddress").hasKind .text := by
  unfold importSender
  refine (exists_bind fun _ => exists_bind fun _ => exists_bind fun _ => exists_bind fun _ =>
    exists_pure _).trans ?_
  simp only [Json.stringAt, Json.doubleAt, exists_at fun _ => exists_toStr,
    exists_at fun _ => exists_toDouble, and_true]

/-- The fields that `handleBlockchain` reads afterwards. -/
theorem exists_importRest (tr : Transaction) : (∃ t, importRest p tr j = .ok t) ↔
    (j.field "signature").hasKind .text ∧ (j.field "timestamp").hasKind .number ∧
      (j.field "type").hasKind .text := by
  unfold importRest
  refine (exists_bind fun _ => exists_bind fun _ => exists_bind fun _ => exists_pure _).trans ?_
  simp only [Json.stringAt, Json.longAt, exists_at fun _ => exists_toStr,
    exists_at fun _ => exists_toLong, and_true]

/-- The fields of a transaction in a block, one by one. -/
theorem Json.fits_itemFields : j.fits itemFields ↔ (j.field "id").hasKind .text ∧
    (j.field "amount").hasKind .number ∧ (j.field "senderAddress").hasKind .text ∧
      (j.field "receiverAddress").hasKind .text ∧ (j.field "signature").hasKind .text ∧
        (j.field "timestamp").hasKind .number ∧ (j.field "type").hasKind .text := by
  simp only [fits, itemFields, List.all_cons, List.all_nil, Bool.and_eq_true, and_true]

/-- **The fields of a block.** -/
theorem exists_readBlock (ts : List Transaction) :
    (∃ b, readBlock p ts j = .ok b) ↔ j.fits blockFields := by
  unfold readBlock
  refine (exists_bind fun _ => exists_bind fun _ => exists_bind fun _ => exists_bind fun _ =>
    exists_bind fun _ => exists_bind fun _ => exists_pure _).trans ?_
  simp only [Json.stringAt, Json.longAt, exists_at fun _ => exists_toStr,
    exists_at fun _ => exists_toLong, Json.fits, blockFields, List.all_cons, List.all_nil,
    Bool.and_eq_true]

/-- The fields of a block that is imported. -/
theorem exists_importHeader : (∃ b, importHeader p j = .ok b) ↔ j.fits blockFields := by
  unfold importHeader
  refine (exists_bind fun _ => exists_bind fun _ => exists_bind fun _ => exists_bind fun _ =>
    exists_bind fun _ => exists_bind fun _ => exists_pure _).trans ?_
  simp only [Json.stringAt, Json.longAt, exists_at fun _ => exists_toStr,
    exists_at fun _ => exists_toLong, Json.fits, blockFields, List.all_cons, List.all_nil,
    Bool.and_eq_true]
  tauto

/-- The height, the signature and the forger of a block that was read. -/
theorem fields_of_readBlock {ts : List Transaction} {b : Block} (h : readBlock p ts j = .ok b) :
    (j.field "blockCount").toLong p.undefinedCast = .ok b.blockCount ∧
      j.field "signature" = .string b.signature ∧
      j.field "forgerAddress" = .string b.forgerAddress := by
  unfold readBlock at h
  obtain ⟨lastHash, -, h⟩ := Node.bind_eq_ok h
  obtain ⟨hash, -, h⟩ := Node.bind_eq_ok h
  obtain ⟨forgerAddress, hforger, h⟩ := Node.bind_eq_ok h
  obtain ⟨timestamp, -, h⟩ := Node.bind_eq_ok h
  obtain ⟨blockCount, hcount, h⟩ := Node.bind_eq_ok h
  obtain ⟨signature, hsignature, h⟩ := Node.bind_eq_ok h
  obtain rfl := Except.ok.inj h
  refine ⟨?_, stringAt_eq_ok.mp hsignature, stringAt_eq_ok.mp hforger⟩
  unfold Json.longAt at hcount
  obtain ⟨value, hmember, hlong⟩ := Node.bind_eq_ok hcount
  rw [Json.member_eq] at hmember
  split at hmember
  · rw [Except.ok.inj hmember]
    exact hlong
  · cases hmember

end Reading

section Loops

variable {p : Platform} {n : Node} {α : Type} {read : Node → Json → Except Fault α × Node}

/-- **A loop returns** when every single reading does. -/
theorem exists_readEach {ok : Json → Bool} (hread : ∀ n itx, (∃ a, (read n itx).1 = .ok a) ↔ ok itx)
    (items : List Json) : (∃ as, (readEach read n items).1 = .ok as) ↔ items.all ok := by
  induction items generalizing n with
  | nil => exact iff_of_true ⟨[], rfl⟩ rfl
  | cons itx items ih =>
    have hfirst := hread n itx
    rw [List.all_cons, Bool.and_eq_true, ← hfirst]
    unfold readEach
    cases hx : read n itx with
    | mk result m =>
      cases result with
      | error f => simp
      | ok a =>
        rw [← ih (n := m)]
        dsimp only
        cases hrest : readEach read m items with
        | mk result k => cases result <;> simp

namespace Node

/-- One transaction of a block. -/
theorem exists_receiveTransaction (n : Node) (itx : Json) :
    (∃ t, (n.receiveTransaction p itx).1 = .ok t) ↔ itx.fits itemFields := by
  have hsender := exists_readSender (j := itx)
  unfold receiveTransaction
  rw [Json.fits_itemFields]
  cases hread : readSender itx with
  | error f =>
    refine iff_of_false (by simp) fun hfields => ?_
    obtain ⟨t, ht⟩ := hsender.mpr ⟨hfields.1, hfields.2.1, hfields.2.2.1⟩
    rw [hread] at ht
    cases ht
  | ok tr =>
    obtain ⟨hid, hamount, haddress⟩ := hsender.mp ⟨tr, hread⟩
    dsimp only
    rw [exists_readRest]
    simp only [hid, hamount, haddress, true_and]

/-- One transaction of a block that is imported. -/
theorem exists_importTransaction (n : Node) (itx : Json) :
    (∃ t, (n.importTransaction p itx).1 = .ok t) ↔ itx.fits itemFields := by
  have hsender := exists_importSender (j := itx)
  unfold importTransaction
  rw [Json.fits_itemFields]
  cases hread : importSender itx with
  | error f =>
    refine iff_of_false (by simp) fun hfields => ?_
    obtain ⟨t, ht⟩ := hsender.mpr ⟨hfields.1, hfields.2.1, hfields.2.2.2.1, hfields.2.2.1⟩
    rw [hread] at ht
    cases ht
  | ok tr =>
    obtain ⟨hid, hamount, hreceiver, haddress⟩ := hsender.mp ⟨tr, hread⟩
    have hrest := exists_importRest (p := p) (j := itx)
      { tr with senderPublicKey := n.accountModel.publicKey tr.senderAddress }
    simp only [hid, hamount, haddress, hreceiver, true_and]
    rw [← hrest]
    cases importRest p { tr with
      senderPublicKey := n.accountModel.publicKey tr.senderAddress } itx <;> simp

/-- The height, the signature and the forger of a block that was decoded. -/
theorem fields_of_decodeBlock {n m : Node} {jx : Json} {b : Block}
    (h : n.decodeBlock p jx = (.ok b, m)) :
    (jx.field "blockCount").toLong p.undefinedCast = .ok b.blockCount ∧
      jx.field "signature" = .string b.signature ∧
      jx.field "forgerAddress" = .string b.forgerAddress := by
  unfold decodeBlock at h
  split at h
  · cases h
  · split at h
    · cases h
    · exact fields_of_readBlock (congrArg Prod.fst h)

/-- **A block that is decoded.** -/
theorem exists_decodeBlock (n : Node) (jx : Json) :
    (∃ b, (n.decodeBlock p jx).1 = .ok b) ↔ jx.fitsBlock := by
  have hitems := exists_readEach (n := n) (exists_receiveTransaction (p := p))
    (jx.field "transactions").elements
  unfold decodeBlock Json.fitsBlock
  rw [Bool.and_eq_true, ← hitems, Json.member_eq]
  by_cases hindex : jx.indexable
  · rw [if_pos hindex]
    dsimp only
    cases hread : readEach (receiveTransaction p) n (jx.field "transactions").elements with
    | mk result m =>
      cases result with
      | error f => simp
      | ok ts => simp [exists_readBlock]
  · rw [if_neg hindex]
    refine iff_of_false (by simp) fun hfits => hindex ?_
    exact Json.indexable_of_field "lastHash" .text
      (List.all_eq_true.mp hfits.1 ("lastHash", .text) (by decide))

/-- One block that is imported. -/
theorem exists_importBlock (n : Node) (element : Json) :
    (∃ b, (n.importBlock p element).1 = .ok b) ↔ element.fitsBlock := by
  have hitems := exists_readEach (n := n) (exists_importTransaction (p := p))
    (element.field "transactions").elements
  have hheader := exists_importHeader (p := p) (j := element)
  unfold importBlock Json.fitsBlock
  rw [Bool.and_eq_true, ← hitems, ← hheader, Json.member_eq]
  cases hread : importHeader p element with
  | error f => simp
  | ok b =>
    have hindex : element.indexable := Json.indexable_of_field "lastHash" .text
      (List.all_eq_true.mp (hheader.mp ⟨b, hread⟩) ("lastHash", .text) (by decide))
    rw [if_pos hindex]
    dsimp only
    cases readEach (importTransaction p) n (element.field "transactions").elements with
    | mk result m => cases result <;> simp

end Node

end Loops

end Prawnstar
