import Prawnstar.Json
import Prawnstar.Library.Table
import Mathlib.Data.List.TakeWhile

/-!
# The platform

What a node calls and does not define: OpenSSL, the JSON library's `dump`, and
the choices the C++ standard leaves to compiler and standard library. The
functions of `utils.cpp` that wrap them are defined here over an arbitrary
platform.
-/

namespace Prawnstar

/-- A digest that `utils::Signature` carries: the signature as a hex string and
its length in bytes. -/
structure Signature where
  /-- Signature length. -/
  len : ℕ
  /-- Signature in hex. -/
  hex : String
  deriving DecidableEq, Repr

/-- Code and choices from outside the repository. A key is the byte string
read from its PEM text; where the text does not parse, the contexts that
OpenSSL is given are null. -/
structure Platform where
  /-- `SHA256` -/
  sha256 : String → Vector UInt8 32
  /-- `SHA1` -/
  sha1 : String → Vector UInt8 20
  /-- `OPENSSL_hexstr2buf_ex` into a buffer of 256 bytes, none when it returns 0. -/
  hexstr2buf : String → Option (List UInt8)
  /-- `OPENSSL_buf2hexstr_ex` -/
  buf2hexstr : List UInt8 → String
  /-- `PEM_read_bio_PUBKEY` -/
  readPublicKey : String → Option (List UInt8)
  /-- `PEM_read_bio_PrivateKey` -/
  readPrivateKey : String → Option (List UInt8)
  /-- `EVP_PKEY_verify`: key, signature buffer, signature length, digest. -/
  evpVerify : Option (List UInt8) → List UInt8 → ℕ → List UInt8 → ℤ
  /-- `EVP_PKEY_sign`: key, digest, and the randomness it draws. -/
  evpSign : Option (List UInt8) → List UInt8 → ℕ → List UInt8
  /-- `nlohmann::json::dump` -/
  dump : Json → String
  /-- Whether `char` is signed. -/
  charSigned : Bool
  /-- A conversion of a double out of the range of a signed integer type. -/
  undefinedCast : ℕ → ℚ → ℤ
  /-- Where `std::unordered_map` puts a new key in its iteration order. -/
  placement : Library.Placement String

/-- `c_str()` read back as a string: the characters before the first NUL. -/
def cStr (s : String) : String := String.ofList (s.toList.takeWhile fun c => c.toNat ≠ 0)

/-- A text without NUL is read to its end. -/
theorem cStr_eq_self {s : String} (h : ∀ c ∈ s.toList, c.toNat ≠ 0) : cStr s = s := by
  unfold cStr
  rw [List.takeWhile_eq_self_iff.mpr, String.ofList_toList]
  exact fun c hc => decide_eq_true (h c hc)

/-- A text that is read up to its first NUL has none. -/
@[simp] theorem cStr_cStr (s : String) : cStr (cStr s) = cStr s := by
  unfold cStr
  rw [String.toList_ofList, List.takeWhile_takeWhile]
  simp only [and_self, Bool.decide_eq_true]

/-- The rendering loop of the hash functions: every byte written to a string
stream as an integer in hex, without padding. -/
def renderHex (digest : List UInt8) : String :=
  String.ofList (digest.flatMap fun i => Nat.toDigits 16 i.toNat)

namespace Platform

variable (p : Platform)

/-- `utils::hash` -/
def hash (str : String) : String := renderHex (p.sha256 str).toList

/-- `utils::generateAddress` and `Wallet::generateAddress` -/
def generateAddress (str : String) : String := renderHex (p.sha1 str).toList

/-- The characters of a generated address are hex digits. -/
theorem mem_generateAddress {str : String} {c : Char}
    (hc : c ∈ (p.generateAddress str).toList) : c ≠ 'p' ∧ c.toNat ≠ 0 := by
  have hdigit : ∀ k < 256, (Nat.toDigits 16 k).all (fun c => c ≠ 'p' ∧ c.toNat ≠ 0) = true := by
    decide +kernel
  rw [generateAddress, renderHex, String.toList_ofList, List.mem_flatMap] at hc
  obtain ⟨b, -, hb⟩ := hc
  exact of_decide_eq_true (List.all_eq_true.mp (hdigit b.toNat b.toNat_lt) c hb)

/-- A generated address has no NUL. -/
theorem cStr_generateAddress (str : String) :
    cStr (p.generateAddress str) = p.generateAddress str :=
  cStr_eq_self fun _ hc => (p.mem_generateAddress hc).2

/-- A generated address with a prefix has no NUL. -/
theorem cStr_pv1_generateAddress (str : String) :
    cStr ("pv1" ++ p.generateAddress str) = "pv1" ++ p.generateAddress str := by
  refine cStr_eq_self fun c hc => ?_
  rw [String.toList_append, List.mem_append] at hc
  rcases hc with hpv1 | hdigit
  · have hplain : "pv1".toList.all (fun c => c.toNat ≠ 0) = true := by decide
    exact of_decide_eq_true (List.all_eq_true.mp hplain c hpv1)
  · exact (p.mem_generateAddress hdigit).2

/-- No generated address is one with a prefix. -/
theorem pv1_ne_generateAddress (s t : String) :
    "pv1" ++ p.generateAddress s ≠ p.generateAddress t := by
  intro h
  have hp : 'p' ∈ ("pv1" ++ p.generateAddress s).toList := by simp
  rw [h] at hp
  exact (p.mem_generateAddress hp).1 rfl

/-- The 32 bytes of a message that are handed to OpenSSL as its digest. -/
def digestBytes (message : String) : List UInt8 := message.toUTF8.toList.take 32

/-- The value of the `EVP_PKEY_verify` call that `utils::verifySignature` makes,
none when the signature is not a hex string and the call is not made. -/
def verifyCall (message signature : String) (signatureSize : ℕ) (publicKeyString : String) :
    Option ℤ :=
  (p.hexstr2buf (cStr signature)).map fun buf =>
    p.evpVerify (p.readPublicKey (cStr publicKeyString)) buf signatureSize (digestBytes message)

/-- Whether `utils::verifySignature` reads through a null pointer before that call:
where the key does not parse, `EVP_PKEY_CTX_set_signature_md` is given a null context
and reads it. `verifyCall` itself goes on, as the call does with such a context. -/
def verifyReadsNull (signature publicKeyString : String) : Bool :=
  (p.hexstr2buf (cStr signature)).isSome && (p.readPublicKey (cStr publicKeyString)).isNone

/-- Whether `Wallet::sign` reads through a null pointer in the same way. -/
def signReadsNull (walletPrivateKey : String) : Bool :=
  (p.readPrivateKey (cStr walletPrivateKey)).isNone

/-- `utils::verifySignature` -/
def verifySignature (message signature : String) (signatureSize : ℕ) (publicKeyString : String) :
    ℤ := (p.verifyCall message signature signatureSize publicKeyString).getD 0

/-- `Wallet::sign` with the wallet's private key. -/
def sign (walletPrivateKey str : String) (nonce : ℕ) : Signature :=
  let sig := p.evpSign (p.readPrivateKey (cStr walletPrivateKey)) (digestBytes str) nonce
  { len := sig.length, hex := cStr (p.buf2hexstr sig) }

/-- What is signed is a function of the bytes that OpenSSL is given. -/
theorem sign_congr {s t : String} (h : digestBytes t = digestBytes s) (key : String)
    (nonce : ℕ) : p.sign key t nonce = p.sign key s nonce := by
  rw [sign, sign, h]

/-- So is the outcome of a check. -/
theorem verifySignature_congr {s t : String} (h : digestBytes t = digestBytes s)
    (signature : String) (size : ℕ) (key : String) :
    p.verifySignature t signature size key = p.verifySignature s signature size key := by
  rw [verifySignature, verifySignature, verifyCall, verifyCall, h]

/-- `static_cast<int>` of a double. -/
def toInt (q : ℚ) : ℤ := castDouble p.undefinedCast 32 q

/-- A signature check that comes out non-zero was made by OpenSSL. -/
theorem verifySignature_ne_zero {p : Platform} {message signature : String} {size : ℕ}
    {key : String} : p.verifySignature message signature size key ≠ 0 ↔
      ∃ z, p.verifyCall message signature size key = some z ∧ z ≠ 0 := by
  unfold verifySignature
  cases p.verifyCall message signature size key <;> simp

end Platform

end Prawnstar
