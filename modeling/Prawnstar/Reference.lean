import Prawnstar.Start
import Prawnstar.Handlers
import Mathlib.Data.List.TakeWhile

/-!
# A platform to run the model on

A small platform on which calls can be evaluated. A key is the name after
`PUB` or `PRV` in its text; a signature is a header byte, the randomness, the
name and a checksum of the digest; every hash mixes the whole text into its
first bytes. Its
signatures meet the contract of OpenSSL: a malformed one, a key that does not
parse and a wrong length are errors, and a well-formed one is right or wrong.
-/

namespace Prawnstar

namespace Reference

/-- The networks of two nodes that the examples run have a first node. -/
instance neZeroTwo : NeZero 2 := Nat.instNeZeroSucc

/-- A number that depends on every byte of the text. -/
def mix (text : String) : ℕ :=
  text.toUTF8.data.toList.foldl (fun h c => (h * 257 + c.toNat + 1) % (2 ^ 61 - 1)) 7

/-- The first bytes of a number. -/
def littleEndian : ℕ → ℕ → List UInt8
  | 0, _ => []
  | k + 1, h => UInt8.ofNat (h % 256) :: littleEndian k (h / 256)

theorem length_littleEndian (k h : ℕ) : (littleEndian k h).length = k := by
  induction k generalizing h with
  | zero => rfl
  | succ k ih => simp [littleEndian, ih]

/-- A digest of `k` bytes. -/
def digest (k : ℕ) (text : String) : Vector UInt8 k :=
  ⟨(littleEndian k (mix text)).toArray, by simp [length_littleEndian]⟩

/-- The value of a hex digit. -/
def hexDigit (c : Char) : Option ℕ :=
  if '0' ≤ c ∧ c ≤ '9' then some (c.toNat - 48)
  else if 'A' ≤ c ∧ c ≤ 'F' then some (c.toNat - 55)
  else if 'a' ≤ c ∧ c ≤ 'f' then some (c.toNat - 87)
  else none

/-- The bytes that pairs of hex digits write. -/
def hexBytes : List Char → Option (List UInt8)
  | [] => some []
  | [_] => none
  | c :: d :: cs => do
    let high ← hexDigit c
    let low ← hexDigit d
    let bytes ← hexBytes cs
    return UInt8.ofNat (high * 16 + low) :: bytes

/-- The two hex digits of a byte. -/
def hexPair (b : UInt8) : List Char := [(b.toNat / 16).digitChar, (b.toNat % 16).digitChar]

/-- The name in the text of a key with the given header. -/
def keyName (header text : String) : Option (List UInt8) :=
  let chars := text.toList
  if header.toList.isPrefixOf chars then
    some ((chars.drop header.length).map fun c => UInt8.ofNat c.toNat)
  else none

/-- What a key makes of a digest. -/
def sealed (key digest : List UInt8) : List UInt8 :=
  key ++ littleEndian 4 (digest.foldl (fun h c => h * 257 + c.toNat) 0 % (2 ^ 32 - 5))

/-- A genuine signature of a digest. -/
def signature (key digest : List UInt8) (nonce : ℕ) : List UInt8 :=
  48 :: UInt8.ofNat nonce :: sealed key digest

/-- Verification by the contract of OpenSSL. -/
def evpVerify (key : Option (List UInt8)) (buf : List UInt8) (siglen : ℕ) (md : List UInt8) : ℤ :=
  match key, buf.take siglen with
  | some key, 48 :: _ :: rest => if rest = sealed key md then 1 else 0
  | _, _ => -1

mutual

/-- The text of a JSON value. -/
def dump : Json → String
  | .null => "null"
  | .bool b => toString b
  | .int z => toString z
  | .uint n => toString n
  | .float q => toString q.num ++ "/" ++ toString q.den
  | .string s => "\"" ++ s ++ "\""
  | .array items => "[" ++ dumpItems items ++ "]"
  | .object members => "\x7b" ++ dumpMembers members ++ "\x7d"

/-- The text of the items of an array. -/
def dumpItems : List Json → String
  | [] => ""
  | [item] => dump item
  | item :: items => dump item ++ "," ++ dumpItems items

/-- The text of the members of an object. -/
def dumpMembers : List (String × Json) → String
  | [] => ""
  | [(key, value)] => "\"" ++ key ++ "\":" ++ dump value
  | (key, value) :: members => "\"" ++ key ++ "\":" ++ dump value ++ "," ++ dumpMembers members

end

/-- The reference platform. -/
def platform : Platform where
  sha256 := digest 32
  sha1 := digest 20
  hexstr2buf text := hexBytes text.toList
  buf2hexstr buf := String.ofList (buf.flatMap hexPair)
  readPublicKey := keyName "PUB"
  readPrivateKey := keyName "PRV"
  evpVerify := evpVerify
  evpSign key md nonce := match key with
    | some key => signature key md nonce
    | none => []
  dump := dump
  charSigned := true
  undefinedCast _ _ := -2 ^ 31
  placement := Library.Placement.last

/-- A key pair by name. -/
def keyPair (name : String) : KeyPair := ⟨"PUB" ++ name, "PRV" ++ name⟩

/-- A wallet by name. -/
def wallet (name : String) : Wallet := Wallet.ofKeyPair platform (keyPair name)

/-- The key files of the reference nodes. -/
def files : String → KeyPair
  | "genesisNode.pem" => keyPair "g"
  | "node2Wallet.pem" => keyPair "n"
  | "exchange.pem" => keyPair "e"
  | "alice.pem" => keyPair "a"
  | _ => keyPair "b"

/-- A reference node that listens on the given port. -/
def node (port : ℤ) : Node :=
  Node.start platform files (keyPair "o") (keyPair "u") ⟨"127.0.0.1", port⟩

/-- A clock and random generators that count. -/
def tick (k : ℕ) : Tick where
  uuid := "r" ++ toString k
  rewardTime := k
  blockTime := k
  rewardNonce := k
  blockNonce := k

/-- A transaction between two wallets that are given by name. -/
def transaction (sender receiver : String) (amount : ℚ) (type id : String) : Transaction :=
  (wallet sender).createTransaction platform (wallet receiver).address amount type id 0 0

/-- A call that submits a transaction between two wallets at the k-th tick. -/
def submit (k : ℕ) (sender receiver : String) (amount : ℚ) (type id : String) : Call :=
  .handleTransaction (tick k) true (transaction sender receiver amount type id)

section Signatures

/-- The digits of a byte are read back. -/
theorem hexDigit_hexPair (b : UInt8) : ∃ c d, hexPair b = [c, d] ∧
    hexDigit c = some (b.toNat / 16) ∧ hexDigit d = some (b.toNat % 16) ∧
    c.toNat ≠ 0 ∧ d.toNat ≠ 0 := by
  have hdigit : ∀ k < 16, hexDigit k.digitChar = some k ∧ k.digitChar.toNat ≠ 0 := by decide
  have hb : b.toNat < 256 := b.toNat_lt
  obtain ⟨hhigh, hhigh'⟩ := hdigit (b.toNat / 16) (by omega)
  obtain ⟨hlow, hlow'⟩ := hdigit (b.toNat % 16) (by omega)
  exact ⟨_, _, rfl, hhigh, hlow, hhigh', hlow'⟩

/-- Bytes that were written in hex are read back. -/
theorem hexBytes_flatMap (bs : List UInt8) : hexBytes (bs.flatMap hexPair) = some bs := by
  induction bs with
  | nil => rfl
  | cons b bs ih =>
    obtain ⟨c, d, hpair, hc, hd, -, -⟩ := hexDigit_hexPair b
    have hbyte : UInt8.ofNat (b.toNat / 16 * 16 + b.toNat % 16) = b := by
      rw [Nat.div_add_mod']
      exact UInt8.ofNat_toNat
    rw [List.flatMap_cons, hpair]
    simp only [List.cons_append, List.nil_append, hexBytes, hc, hd, ih, Option.bind_eq_bind,
      Option.bind_some, hbyte]
    rfl

/-- A text in hex has no NUL. -/
theorem cStr_hex (bs : List UInt8) :
    cStr (String.ofList (bs.flatMap hexPair)) = String.ofList (bs.flatMap hexPair) := by
  refine cStr_eq_self fun x hx => ?_
  rw [String.toList_ofList] at hx
  obtain ⟨b, -, hb⟩ := List.mem_flatMap.mp hx
  obtain ⟨c, d, hpair, -, -, hc, hd⟩ := hexDigit_hexPair b
  rw [hpair, List.mem_cons, List.mem_singleton] at hb
  rcases hb with rfl | rfl
  · exact hc
  · exact hd

/-- **What is signed verifies**: where both texts of a key pair read as one key,
a signature under the private key is right under the public key. -/
theorem verifySignature_sign {publicKey privateKey : String} {key : List UInt8}
    (hpublic : keyName "PUB" (cStr publicKey) = some key)
    (hprivate : keyName "PRV" (cStr privateKey) = some key) (message : String) (nonce : ℕ) :
    platform.verifySignature message (platform.sign privateKey message nonce).hex
      (platform.sign privateKey message nonce).len publicKey = 1 := by
  let md := Platform.digestBytes message
  let sig := signature key md nonce
  have hsig : platform.evpSign (platform.readPrivateKey (cStr privateKey)) md nonce = sig := by
    have hread : platform.readPrivateKey = keyName "PRV" := rfl
    rw [hread, hprivate]
    rfl
  have hsign : platform.sign privateKey message nonce =
      { len := sig.length, hex := String.ofList (sig.flatMap hexPair) } := by
    rw [← cStr_hex, ← hsig]
    rfl
  have hcall : platform.verifyCall message (String.ofList (sig.flatMap hexPair)) sig.length
      publicKey = some 1 := by
    have hbuf : platform.hexstr2buf (cStr (String.ofList (sig.flatMap hexPair))) = some sig := by
      have hread : ∀ text, platform.hexstr2buf text = hexBytes text.toList := fun _ => rfl
      rw [cStr_hex, hread, String.toList_ofList, hexBytes_flatMap]
    have hverify : evpVerify (some key) sig sig.length md = 1 := by
      unfold evpVerify
      rw [List.take_length]
      exact if_pos rfl
    have hread : platform.readPublicKey = keyName "PUB" := rfl
    rw [Platform.verifyCall, hbuf, hread, hpublic]
    exact congrArg some hverify
  rw [hsign, Platform.verifySignature, hcall, Option.getD_some]

/-- The transactions of a wallet verify. -/
theorem verify_createTransaction {w : Wallet} {key : List UInt8}
    (hpublic : keyName "PUB" (cStr w.walletPublicKey) = some key)
    (hprivate : keyName "PRV" (cStr w.walletPrivateKey) = some key) (receiverAddress : String)
    (amount : ℚ) (type id : String) (timestamp : ℤ) (nonce : ℕ) :
    (w.createTransaction platform receiverAddress amount type id timestamp nonce).verify platform =
      1 := by
  rw [Wallet.verify_createTransaction]
  exact verifySignature_sign hpublic hprivate _ nonce

end Signatures

end Reference

end Prawnstar
