import Prawnstar.Records
import Prawnstar.Library.Bookkeeping

/-!
# The account model

The registered accounts with their balances and keys, as in `AccountModel.cpp`.
The list of accounts has no repetition and balances exist for exactly the
accounts; both are kept as fields, since every writer preserves them. The key
maps are written by registration, which inserts only where the map has nothing,
and by the lookups of `Wallet`, which insert an empty key.
-/

namespace Prawnstar

/-- `AccountModel` -/
structure AccountModel where
  /-- List of accounts. -/
  accounts : List String
  /-- Address to balances map. -/
  balances : String → Option ℚ
  /-- Address to public key map. -/
  addressToPublicKey : String → Option String
  /-- Address to private key map. -/
  addressToPrivateKey : String → Option String
  /-- No account is listed twice. -/
  nodup : accounts.Nodup
  /-- Exactly the accounts have a balance. -/
  isSome_balances : ∀ a, (balances a).isSome ↔ a ∈ accounts

/-- `std::unordered_map::insert`, which keeps a value that is there. -/
def insertKey (keys : String → Option String) (k v : String) : String → Option String :=
  Function.update keys k (some ((keys k).getD v))

namespace AccountModel

/-- The account model without accounts. -/
def empty : AccountModel where
  accounts := []
  balances := fun _ => none
  addressToPublicKey := fun _ => none
  addressToPrivateKey := fun _ => none
  nodup := List.nodup_nil
  isSome_balances := by simp

/-- `AccountModel::accountExists` -/
def accountExists (m : AccountModel) (walletAddress : String) : Bool :=
  m.accounts.contains walletAddress

/-- `AccountModel::addAccount`, with a private key or without. -/
def addAccount (m : AccountModel) (walletAddress pubKey : String) (privkey : Option String) :
    AccountModel :=
  if h : walletAddress ∈ m.accounts then m
  else
    { accounts := m.accounts ++ [walletAddress]
      balances := Function.update m.balances walletAddress (some 0)
      addressToPublicKey := insertKey m.addressToPublicKey walletAddress pubKey
      addressToPrivateKey := match privkey with
        | some key => insertKey m.addressToPrivateKey walletAddress key
        | none => m.addressToPrivateKey
      nodup := by
        rw [List.nodup_append]
        exact ⟨m.nodup, List.nodup_singleton _, by
          intro a ha b hb hab
          rw [List.mem_singleton] at hb
          exact h (hb ▸ hab ▸ ha)⟩
      isSome_balances := by
        intro a
        by_cases ha : a = walletAddress
        · simp [ha]
        · simpa [ha] using m.isSome_balances a }

/-- `AccountModel::getBalance` -/
def getBalance (m : AccountModel) (walletAddress : String) : ℚ :=
  if walletAddress ∈ m.accounts then (m.balances walletAddress).getD 0 else 0

/-- `AccountModel::updateBalance` -/
def updateBalance (m : AccountModel) (walletAddress : String) (amount : ℚ) : AccountModel :=
  if h : walletAddress ∈ m.accounts then
    { m with
      balances := Function.update m.balances walletAddress
        (some ((m.balances walletAddress).getD 0 + amount))
      isSome_balances := by
        intro a
        by_cases ha : a = walletAddress
        · simp [ha, h]
        · simpa [ha] using m.isSome_balances a }
  else m

/-- The key `operator[]` of the public key map reads for an address. -/
def publicKey (m : AccountModel) (address : String) : String :=
  (m.addressToPublicKey address).getD ""

/-- The public key map after `operator[]` has read it at an address. -/
def readPublicKey (m : AccountModel) (address : String) : AccountModel :=
  { m with addressToPublicKey := insertKey m.addressToPublicKey address "" }

/-- The private key map after `operator[]` has read it at an address. -/
def readPrivateKey (m : AccountModel) (address : String) : AccountModel :=
  { m with addressToPrivateKey := insertKey m.addressToPrivateKey address "" }

/-- The wallet that the constructor `Wallet(address, node)` finds. -/
def wallet (m : AccountModel) (address : String) : Wallet where
  address := cStr address
  walletPublicKey := m.publicKey (cStr address)
  walletPrivateKey := (m.addressToPrivateKey (cStr address)).getD ""

/-- The account model after the constructor `Wallet(address, node)`, whose two
lookups insert an empty key where there is none. -/
def openWallet (m : AccountModel) (address : String) : AccountModel :=
  (m.readPublicKey (cStr address)).readPrivateKey (cStr address)

section Balance

variable {m : AccountModel} {a b : String} {x : ℚ}

/-- `accountExists` is membership in the list of accounts. -/
@[simp] theorem accountExists_iff : m.accountExists a = true ↔ a ∈ m.accounts := by
  simp [accountExists]

/-- An address that is not registered has no balance. -/
theorem getBalance_of_notMem (h : a ∉ m.accounts) : m.getBalance a = 0 := if_neg h

/-- The balances are the same when the accounts and what is read of them are. -/
theorem balances_eq_iff {m' : AccountModel} : m.balances = m'.balances ↔
    (∀ a, a ∈ m.accounts ↔ a ∈ m'.accounts) ∧ m.getBalance = m'.getBalance := by
  constructor
  · intro h
    have haccounts : ∀ a, a ∈ m.accounts ↔ a ∈ m'.accounts := fun a => by
      rw [← m.isSome_balances, h, m'.isSome_balances]
    refine ⟨haccounts, funext fun a => ?_⟩
    unfold getBalance
    simp only [h, haccounts a]
  · rintro ⟨haccounts, hbalance⟩
    funext a
    have hread := congrFun hbalance a
    unfold getBalance at hread
    by_cases ha : a ∈ m.accounts
    · obtain ⟨x, hx⟩ := Option.isSome_iff_exists.mp ((m.isSome_balances a).mpr ha)
      obtain ⟨y, hy⟩ := Option.isSome_iff_exists.mp
        ((m'.isSome_balances a).mpr ((haccounts a).mp ha))
      rw [if_pos ha, if_pos ((haccounts a).mp ha), hx, hy] at hread
      rw [hx, hy]
      exact congrArg some hread
    · have hnone := mt (m.isSome_balances a).mp ha
      have hnone' := mt (m'.isSome_balances a).mp (mt (haccounts a).mpr ha)
      rw [Option.not_isSome_iff_eq_none.mp hnone, Option.not_isSome_iff_eq_none.mp hnone']

/-- A balance update is an entry booked to the registered accounts. -/
theorem getBalance_updateBalance (m : AccountModel) (a : String) (x : ℚ) :
    (m.updateBalance a x).getBalance =
      Library.book m.accountExists m.getBalance (a, x) := by
  funext b
  simp only [Library.book_apply, accountExists_iff]
  by_cases ha : a ∈ m.accounts
  · by_cases hab : a = b
    · subst hab
      simp [updateBalance, getBalance, ha]
    · by_cases hb : b ∈ m.accounts <;>
        simp [updateBalance, getBalance, ha, hb, hab, Function.update_of_ne (Ne.symm hab)]
  · have hne : b ∈ m.accounts → a ≠ b := by
      rintro hb rfl
      exact ha hb
    by_cases hb : b ∈ m.accounts
    · simp [updateBalance, ha, hb, hne hb]
    · simp [updateBalance, ha, hb]

/-- A balance update registers nobody. -/
@[simp] theorem accounts_updateBalance : (m.updateBalance a x).accounts = m.accounts := by
  unfold updateBalance
  split <;> rfl

/-- A balance update registers nobody. -/
@[simp] theorem accountExists_updateBalance :
    (m.updateBalance a x).accountExists = m.accountExists := by
  unfold accountExists
  rw [accounts_updateBalance]

/-- A balance update writes no key. -/
@[simp] theorem addressToPublicKey_updateBalance :
    (m.updateBalance a x).addressToPublicKey = m.addressToPublicKey := by
  unfold updateBalance
  split <;> rfl

/-- A balance update writes no private key. -/
@[simp] theorem addressToPrivateKey_updateBalance :
    (m.updateBalance a x).addressToPrivateKey = m.addressToPrivateKey := by
  unfold updateBalance
  split <;> rfl

/-- A new account has balance zero, every other balance is kept. -/
@[simp] theorem getBalance_addAccount {pub : String} {priv : Option String} :
    (m.addAccount a pub priv).getBalance b = m.getBalance b := by
  unfold addAccount
  split
  · rfl
  · next ha =>
    by_cases hb : b = a
    · subst hb
      simp [getBalance, ha]
    · simp [getBalance, hb]

/-- Registration adds the address to the accounts. -/
theorem mem_accounts_addAccount {pub : String} {priv : Option String} :
    b ∈ (m.addAccount a pub priv).accounts ↔ b ∈ m.accounts ∨ b = a := by
  unfold addAccount
  split
  · next ha =>
    constructor
    · exact Or.inl
    · rintro (h | rfl)
      · exact h
      · exact ha
  · simp

/-- A wallet lookup changes no balance. -/
@[simp] theorem getBalance_openWallet : (m.openWallet a).getBalance b = m.getBalance b := rfl

/-- A wallet lookup registers nobody. -/
@[simp] theorem accounts_openWallet : (m.openWallet a).accounts = m.accounts := rfl

/-- A key lookup changes no balance. -/
@[simp] theorem getBalance_readPublicKey : (m.readPublicKey a).getBalance b = m.getBalance b := rfl

/-- A key lookup registers nobody. -/
@[simp] theorem accounts_readPublicKey : (m.readPublicKey a).accounts = m.accounts := rfl

end Balance

section Keys

variable {m : AccountModel} {a b k : String}

/-- An insertion keeps every key that is there. -/
theorem insertKey_of_eq_some {keys : String → Option String} {v : String} (h : keys b = some k) :
    insertKey keys a v b = some k := by
  by_cases hba : b = a
  · subst hba
    simp [insertKey, h]
  · simpa [insertKey, hba] using h

/-- A wallet lookup keeps every key that is there. -/
theorem openWallet_of_eq_some (h : m.addressToPublicKey b = some k) :
    (m.openWallet a).addressToPublicKey b = some k := insertKey_of_eq_some h

/-- A wallet lookup reads the same key a second time. -/
@[simp] theorem publicKey_openWallet : (m.openWallet a).publicKey b = m.publicKey b := by
  change ((insertKey m.addressToPublicKey (cStr a) "") b).getD "" = _
  by_cases hba : b = cStr a
  · subst hba
    simp [insertKey, publicKey]
  · simp [insertKey, hba, publicKey]

/-- Inserting the same key a second time changes nothing. -/
theorem insertKey_insertKey (keys : String → Option String) (v : String) :
    insertKey (insertKey keys a v) a v = insertKey keys a v := by
  simp [insertKey]

/-- A second lookup of the same wallet changes nothing. -/
@[simp] theorem openWallet_openWallet : (m.openWallet a).openWallet a = m.openWallet a := by
  simp [openWallet, readPublicKey, readPrivateKey, insertKey_insertKey]

/-- Registration keeps every key that is there. -/
theorem addAccount_of_eq_some {pub : String} {priv : Option String}
    (h : m.addressToPublicKey b = some k) :
    (m.addAccount a pub priv).addressToPublicKey b = some k := by
  unfold addAccount
  split
  · exact h
  · exact insertKey_of_eq_some h

end Keys

end AccountModel

end Prawnstar
