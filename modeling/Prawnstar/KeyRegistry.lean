import Prawnstar.Import
import Prawnstar.Start
import Prawnstar.CallSpecs
import Prawnstar.Reference
import Prawnstar.Library.Enrolment

/-!
# The key registry

Accounts are registered by the wallet constructors, by `addAccount` and by a
forger that registers another one, and their keys are looked up by everything
else. A lookup writes an empty key where there is none and registration keeps
what is there, so a key is the registered one exactly when its address was
registered before it was looked up. The forger registers the elected key under
an address that no wallet has.
-/

namespace Prawnstar

open Library

/-- The wallet that `Wallet(node, filename)` and `Wallet(node)` make: with the key
pair that is read or generated, or, where there is none, with the text of the
file alone. -/
def Wallet.construct (p : Platform) : Except String KeyPair → Wallet
  | .ok keys => Wallet.ofKeyPair p keys
  | .error text => ⟨"", "", text⟩

/-- The accounts and the public keys of an account model. -/
def AccountModel.keyBook (m : AccountModel) : Book String String :=
  ⟨m.accounts, m.addressToPublicKey⟩

/-- Registration enrols an address. -/
theorem AccountModel.keyBook_addAccount (m : AccountModel) (a k : String) (priv : Option String) :
    (m.addAccount a k priv).keyBook = m.keyBook.enrol a k := by
  unfold keyBook addAccount Book.enrol
  dsimp only
  split <;> rfl

/-- What happens to the accounts and keys of a node. -/
inductive KeyUse
  /-- `AccountModel::addAccount` -/
  | addAccount (walletAddress pubKey : String) (privkey : Option String)
  /-- `Wallet(node, filename)` and `Wallet(node)` -/
  | construct (keys : Except String KeyPair)
  /-- `Wallet(address, node)` -/
  | lookup (address : String)
  /-- `handleTransaction`, `forge` and `handleBlock` -/
  | call (c : Call)
  /-- `blockHandler` -/
  | blockHandler (jx : Json)
  /-- `handleBlockchain` -/
  | handleBlockchain (blockchainString : Option Json)

/-- A node and the calls of `addAccount` so far. -/
abbrev Logged := Node × List (String × String)

namespace Node

variable (p : Platform) (n : Node)

/-- The node after something happened to it. -/
def useKeys : KeyUse → Node
  | .addAccount walletAddress pubKey privkey =>
    { n with accountModel := n.accountModel.addAccount walletAddress pubKey privkey }
  | .construct keys => { n with accountModel := n.accountModel.addWallet (.construct p keys) }
  | .lookup address => n.openWallet address
  | .call c => n.call p c
  | .blockHandler jx => (n.blockHandler p jx).2
  | .handleBlockchain blockchainString => (n.handleBlockchain p blockchainString).2

/-- The elected forger that `Node::forge` registers: it registers every forger
but itself. -/
def registered : Option (String × String) :=
  match (n.settled p).nextForger p with
  | .ok forger =>
    if forger = (n.settled p).nodeWallet.walletPublicKey then none
    else some (p.generateAddress forger, forger)
  | .error _ => none

/-- The address and the key with which something that happens calls `addAccount`,
if it calls it. -/
def registration : KeyUse → Option (String × String)
  | .addAccount walletAddress pubKey _ => some (walletAddress, pubKey)
  | .construct keys =>
    some ((Wallet.construct p keys).address, (Wallet.construct p keys).walletPublicKey)
  | .call c => (n.forging p c).bind (registered p)
  | _ => none

/-- The calls of `addAccount` along a run, in order. -/
def registrations : List KeyUse → List (String × String) :=
  notes (useKeys p) (fun n a => (n.registration p a).toList) n

/-- What happens to a node that keeps the calls of `addAccount` beside it. -/
def logging : Logged → KeyUse → Logged :=
  noting (useKeys p) fun n a => (n.registration p a).toList

/-- The accounts and the public keys of a node. -/
def keyBook : Book String String := n.accountModel.keyBook

/-- Something that registers no account under a key whose address was looked up. -/
def RegistersUnread (a : KeyUse) : Prop :=
  ∀ address key, n.registration p a = some (address, key) → address ∉ n.accountModel.accounts →
    n.accountModel.addressToPublicKey address = none ∨ key = ""

/-- Something that registers no account but a wallet that has a key pair, and this
one before its address is looked up; a look at the address is harmless where the
empty key has the same one. -/
def RegistersWallet : KeyUse → Prop
  | .construct (.ok keys) =>
    (Wallet.ofKeyPair p keys).address ∉ n.accountModel.accounts →
      n.accountModel.addressToPublicKey (Wallet.ofKeyPair p keys).address = none ∨
        p.generateAddress keys.publicKey = p.generateAddress ""
  | .construct (.error _) => False
  | a => n.registration p a = none

instance : DecidablePred (n.RegistersWallet p)
  | .construct (.ok _) => inferInstanceAs (Decidable (_ ∉ _ → _ ∨ _))
  | .construct (.error _) => inferInstanceAs (Decidable False)
  | .addAccount _ _ _ => inferInstanceAs (Decidable (some _ = none))
  | .lookup _ => inferInstanceAs (Decidable ((none : Option (String × String)) = none))
  | .call _ => inferInstanceAs (Decidable (Option.bind _ _ = none))
  | .blockHandler _ => inferInstanceAs (Decidable ((none : Option (String × String)) = none))
  | .handleBlockchain _ => inferInstanceAs (Decidable ((none : Option (String × String)) = none))

/-- Every account is registered under the address of its key. -/
def AddressesDerived : Prop :=
  ∀ a ∈ n.accountModel.accounts, ∃ k, n.accountModel.addressToPublicKey a = some k ∧
    a = "pv1" ++ p.generateAddress k

variable {p n}

section Consulted

/-- Nodes with the same accounts and keys have the same book. -/
theorem keyBook_congr {m : Node} (haccounts : m.accountModel.accounts = n.accountModel.accounts)
    (hkeys : m.accountModel.addressToPublicKey = n.accountModel.addressToPublicKey) :
    m.keyBook = n.keyBook := by
  rw [keyBook, keyBook, AccountModel.keyBook, AccountModel.keyBook, haccounts, hkeys]

/-- A lookup of a key consults the book. -/
theorem consulted_readPublicKey (n : Node) (address : String) :
    n.keyBook.Consulted "" (n.readPublicKey address).keyBook :=
  Book.Consulted.update n.keyBook address

/-- A lookup of a wallet consults the book. -/
theorem consulted_openWallet (n : Node) (address : String) :
    n.keyBook.Consulted "" (n.openWallet address).keyBook :=
  Book.Consulted.update n.keyBook (cStr address)

/-- Booking an imported transaction leaves the book alone. -/
theorem keyBook_importExecute (t : Transaction) : (n.importExecute p t).keyBook = n.keyBook := by
  refine keyBook_congr ?_ ?_
  · unfold importExecute
    split <;> simp
  · unfold importExecute
    split <;> simp

/-- Forging looks up the node's wallet. -/
theorem consulted_forgeBlock (n : Node) (tick : Tick) :
    n.keyBook.Consulted "" (n.forgeBlock p tick).keyBook := by
  have hbook : (n.forgeBlock p tick).keyBook = (n.openWallet n.nodeWallet.address).keyBook :=
    keyBook_congr (by rw [accounts_forgeBlock]; rfl) (addressToPublicKey_forgeBlock p n tick)
  rw [hbook]
  exact consulted_openWallet n _

/-- A received block looks up its forger's wallet. -/
theorem consulted_append (n : Node) (b : Block) :
    n.keyBook.Consulted "" (n.append p b).keyBook := by
  have hbook : (n.append p b).keyBook = (n.openWallet b.forgerAddress).keyBook :=
    keyBook_congr (by rw [accounts_append]; rfl) (addressToPublicKey_append p n b)
  rw [hbook]
  exact consulted_openWallet n _

/-- Settling the forger leaves the book alone. -/
theorem keyBook_settled (n : Node) : (n.settled p).keyBook = n.keyBook := by
  refine settled_keeps fun forger => keyBook_congr (accounts_evict p n forger) ?_
  unfold evict
  dsimp only
  split <;> exact AccountModel.addressToPublicKey_updateBalance

/-- What `blockHandler` reads before it handles the block. -/
theorem consulted_decodeBlock (n : Node) (jx : Json) :
    n.keyBook.Consulted "" (n.decodeBlock p jx).2.keyBook :=
  decodeBlock_rel (R := fun n m => n.keyBook.Consulted "" m.keyBook)
    (fun _ => Book.Consulted.refl _) Book.Consulted.trans consulted_openWallet n jx

/-- Handling a block consults the book. -/
theorem consulted_handleBlock (n : Node) (broadcast : Bool) (b : Block) :
    n.keyBook.Consulted "" (n.handleBlock p broadcast b).2.keyBook := by
  by_cases haccepts : n.Accepts p b
  · rw [handleBlock_of_accepts haccepts]
    cases broadcast <;> exact consulted_append n b
  · rcases handleBlock_of_not_accepts broadcast haccepts with he | he
    · rw [he]
      exact consulted_openWallet n _
    · rw [he]
      exact consulted_openWallet n _

/-- An import consults the book, whatever it reads. -/
theorem consulted_handleBlockchain (n : Node) (s : Option Json) :
    n.keyBook.Consulted "" (n.handleBlockchain p s).2.keyBook := by
  have hbook : ∀ (n : Node) t, n.keyBook.Consulted "" (n.importExecute p t).keyBook := by
    intro n t
    rw [keyBook_importExecute]
    exact Book.Consulted.refl _
  exact handleBlockchain_rel (R := fun n m => n.keyBook.Consulted "" m.keyBook)
    (fun _ => Book.Consulted.refl _) Book.Consulted.trans consulted_readPublicKey hbook
    (fun _ _ => Book.Consulted.refl _) n s

end Consulted

section Next

/-- **What `forge` does to the book.** It registers the forger that it registers;
else it looks up its own wallet or nothing. -/
theorem next_forge (n : Node) (tick : Tick) :
    Book.Next "" n.keyBook (n.registered p) (n.forge p tick).2.keyBook := by
  rw [forge_eq, ← keyBook_settled (p := p) n]
  unfold registered
  cases (n.settled p).nextForger p with
  | error f => exact Book.Consulted.refl _
  | ok forger =>
    by_cases hself : forger = (n.settled p).nodeWallet.walletPublicKey
    · simp only [if_pos hself, forgeAs]
      exact consulted_forgeBlock _ tick
    · simp only [if_neg hself, forgeAs]
      exact AccountModel.keyBook_addAccount _ _ _ none

/-- **What a call does to the book.** -/
theorem next_call (n : Node) (c : Call) :
    Book.Next "" n.keyBook ((n.forging p c).bind (registered p)) (n.call p c).keyBook := by
  have hkeep : ∀ broadcast t, (n.enqueue broadcast t).keyBook = n.keyBook := by
    intro broadcast t
    rw [keyBook, keyBook, accountModel_enqueue]
  cases hm : n.forging p c with
  | some m =>
    obtain ⟨tick, -, he⟩ := call_of_forging hm
    have hbook : m.keyBook = n.keyBook := by
      cases c with
      | handleTransaction tick broadcast t =>
        obtain ⟨-, hsome⟩ := Option.ite_none_right_eq_some.mp hm
        rw [← Option.some.inj hsome]
        exact hkeep broadcast t
      | forge tick =>
        obtain rfl := Option.some.inj hm
        rfl
      | handleBlock broadcast b => cases hm
    rw [he, ← hbook]
    exact next_forge m tick
  | none =>
    cases c with
    | handleBlock broadcast b => exact consulted_handleBlock n broadcast b
    | handleTransaction tick broadcast t =>
      rcases call_of_not_forging (by simp [Call.draws]) hm with he | ⟨_, broadcast', u, -, -, he⟩
      · rw [he]
        exact Book.Consulted.refl _
      · rw [he, hkeep]
        exact Book.Consulted.refl _
    | forge tick => cases hm

/-- **Everything that happens to the book** is the registration or a lookup. -/
theorem next_useKeys (n : Node) (a : KeyUse) :
    Book.Next "" n.keyBook (n.registration p a) (n.useKeys p a).keyBook := by
  cases a with
  | addAccount walletAddress pubKey privkey =>
    exact AccountModel.keyBook_addAccount n.accountModel _ _ _
  | construct keys => exact AccountModel.keyBook_addAccount n.accountModel _ _ _
  | lookup address => exact consulted_openWallet n address
  | call c => exact next_call n c
  | blockHandler jx =>
    have hdecode := consulted_decodeBlock (p := p) n jx
    change n.keyBook.Consulted "" (n.blockHandler p jx).2.keyBook
    rw [blockHandler_eq]
    cases hread : n.decodeBlock p jx with
    | mk result m =>
      rw [hread] at hdecode
      cases result with
      | error f => exact hdecode
      | ok b => exact hdecode.trans (consulted_handleBlock m false b)
  | handleBlockchain s => exact consulted_handleBlockchain n s

end Next

section Faithful

/-- The account list has no repetition, balances exist for exactly the accounts,
and these are the addresses that `addAccount` was called with. -/
theorem mem_accounts_registrations {as : List KeyUse} (hempty : n.accountModel = AccountModel.empty)
    (a : String) : a ∈ (run (useKeys p) n as).accountModel.accounts ↔
      ((n.registrations p as).lookup a).isSome := by
  have hempty' : ∀ a, a ∈ n.keyBook.members ↔ (([] : List (String × String)).lookup a).isSome := by
    simp [keyBook, AccountModel.keyBook, hempty, AccountModel.empty]
  have hlogged : ∀ a, a ∈ (run (logging p) (n, []) as).1.keyBook.members ↔
      ((run (logging p) (n, []) as).2.lookup a).isSome :=
    run_invariant (I := fun s : Logged => ∀ a, a ∈ s.1.keyBook.members ↔ (s.2.lookup a).isSome)
      (C := fun _ _ => True) (fun (s : Logged) l h _ => Book.mem_iff_next h (next_useKeys s.1 l))
      hempty'
      (along_of_forall (fun _ _ => trivial) _ as)
  rw [logging, run_noting] at hlogged
  exact hlogged a

/-- **The key registry.** All along a run from the empty account model, the key of
each account is the one that it was registered with, exactly when the run registers
no account, under a key, whose address was looked up before. -/
theorem registry_faithful_iff (p : Platform) (n : Node)
    (hempty : n.accountModel = AccountModel.empty) (as : List KeyUse) :
    ((∀ pre, pre <+: as → ∀ a ∈ (run (useKeys p) n pre).accountModel.accounts,
        (run (useKeys p) n pre).accountModel.addressToPublicKey a =
          (n.registrations p pre).lookup a) ↔
      Along (useKeys p) (RegistersUnread p) n as) ∧
    ∀ pre, pre <+: as → (run (useKeys p) n pre).accountModel.accounts.Nodup ∧
      ∀ a, (((run (useKeys p) n pre).accountModel.balances a).isSome ↔
          a ∈ (run (useKeys p) n pre).accountModel.accounts) ∧
        (a ∈ (run (useKeys p) n pre).accountModel.accounts ↔
          ((n.registrations p pre).lookup a).isSome) := by
  constructor
  · have hstart : n.keyBook.Kept "" [] := by
      rw [keyBook, hempty]
      exact Book.kept_nil
    have hlogged : (∀ pre, pre <+: as → ∀ a ∈ (run (logging p) (n, []) pre).1.keyBook.members,
        (run (logging p) (n, []) pre).1.keyBook.entry a =
          (run (logging p) (n, []) pre).2.lookup a) ↔
        Along (logging p) (fun s l => s.1.RegistersUnread p l) (n, []) as :=
      run_prefix_iff (J := fun s : Logged => s.1.keyBook.Kept "" s.2)
        (I := fun s : Logged => ∀ a ∈ s.1.keyBook.members, s.1.keyBook.entry a = s.2.lookup a)
        (W := fun _ _ => True) (fun _ h => h.entry) (fun s l h _ => h.next_iff (next_useKeys s.1 l))
        (fun s l h _ hC => h.next (next_useKeys s.1 l) hC) hstart
        (along_of_forall (fun _ _ => trivial) _ as)
    rw [logging, along_noting] at hlogged
    rw [← hlogged]
    refine forall₂_congr fun pre _ => ?_
    rw [run_noting]
    exact Iff.rfl
  · exact fun pre _ => ⟨AccountModel.nodup _,
      fun a => ⟨AccountModel.isSome_balances _ a, mem_accounts_registrations hempty a⟩⟩

/-- An account that is registered and then looked up. -/
theorem registry_faithful_reference :
    let p := Reference.platform
    let n := { Reference.node 10001 with accountModel := AccountModel.empty }
    let as := [KeyUse.addAccount "x" "PUBx" none, .lookup "x"]
    ∀ pre, pre <+: as → ∀ a ∈ (run (useKeys p) n pre).accountModel.accounts,
      (run (useKeys p) n pre).accountModel.addressToPublicKey a =
        (n.registrations p pre).lookup a := by
  intro p n as
  refine (registry_faithful_iff p n rfl as).1.mpr ⟨?_, ?_, trivial⟩
  · exact fun _ _ _ _ => Or.inl rfl
  · rintro _ _ ⟨⟩

/-- An account that is looked up and then registered has no key. -/
theorem not_registry_faithful :
    let p := Reference.platform
    let n := { Reference.node 10001 with accountModel := AccountModel.empty }
    let as := [KeyUse.lookup "x", .addAccount "x" "PUBx" none]
    "x" ∈ (run (useKeys p) n as).accountModel.accounts ∧
      (run (useKeys p) n as).accountModel.addressToPublicKey "x" = some "" ∧
      (n.registrations p as).lookup "x" = some "PUBx" := by
  decide +kernel

end Faithful

section Derived

variable {m : AccountModel}

/-- An address that is the one of a key. -/
def AddressFor (p : Platform) (a k : String) : Prop := a = "pv1" ++ p.generateAddress k

/-- **Registering a wallet** whose address nobody has looked up. -/
theorem fitting_addAccount (priv : Option String) {k : String}
    (hunread : ∀ a ∉ m.accounts, m.addressToPublicKey a = none)
    (hfits : m.keyBook.Fitting "" (AddressFor p)) :
    (∀ a ∉ (m.addAccount ("pv1" ++ p.generateAddress k) k priv).accounts,
      (m.addAccount ("pv1" ++ p.generateAddress k) k priv).addressToPublicKey a = none) ∧
    (m.addAccount ("pv1" ++ p.generateAddress k) k priv).keyBook.Fitting "" (AddressFor p) := by
  constructor
  · intro a ha
    rw [AccountModel.mem_accounts_addAccount, not_or] at ha
    have hkeep := Book.entry_enrol_of_ne (B := m.keyBook) (b := k) ha.2
    rw [← AccountModel.keyBook_addAccount m _ k priv] at hkeep
    exact hkeep.trans (hunread a ha.1)
  · have hnext : Book.Next "" m.keyBook (some ("pv1" ++ p.generateAddress k, k))
        (m.addAccount ("pv1" ++ p.generateAddress k) k priv).keyBook :=
      AccountModel.keyBook_addAccount m _ k priv
    rw [hfits.next_iff hnext]
    rintro _ _ ⟨⟩ hnew
    have hnone : m.keyBook.entry ("pv1" ++ p.generateAddress k) = none := hunread _ hnew
    rw [hnone]
    rfl

/-- A started node has every account under the address of its key. -/
theorem fitting_start (files : String → KeyPair) (generated unused : KeyPair)
    (sc : SocketConnector) :
    (start p files generated unused sc).keyBook.Fitting "" (AddressFor p) := by
  have hwallets : ∀ (ws : List Wallet) (m : AccountModel),
      (∀ w ∈ ws, ∃ keys, w = Wallet.ofKeyPair p keys) →
      (∀ a ∉ m.accounts, m.addressToPublicKey a = none) → m.keyBook.Fitting "" (AddressFor p) →
      (∀ a ∉ (ws.foldl AccountModel.addWallet m).accounts,
        (ws.foldl AccountModel.addWallet m).addressToPublicKey a = none) ∧
      (ws.foldl AccountModel.addWallet m).keyBook.Fitting "" (AddressFor p) := by
    intro ws
    induction ws with
    | nil => exact fun m _ hunread hfits => ⟨hunread, hfits⟩
    | cons w ws ih =>
      intro m hws hunread hfits
      obtain ⟨keys, rfl⟩ := hws w List.mem_cons_self
      obtain ⟨hunread', hfits'⟩ := fitting_addAccount (some keys.privateKey) hunread hfits
      exact ih _ (fun w hw => hws w (List.mem_cons_of_mem _ hw)) hunread' hfits'
  obtain ⟨own, hown⟩ := ownWallet_eq p files generated sc.port
  have hall : ∀ w ∈ startWallets p (ownWallet p files generated sc.port) files unused,
      ∃ keys, w = Wallet.ofKeyPair p keys := by
    rw [hown]
    intro w hw
    simp only [startWallets, List.mem_cons, List.not_mem_nil, or_false] at hw
    rcases hw with rfl | rfl | rfl | rfl | rfl | rfl <;> exact ⟨_, rfl⟩
  obtain ⟨hunread, hfits⟩ := hwallets _ AccountModel.empty hall (fun _ _ => rfl)
    ⟨fun _ _ => Or.inl rfl, fun _ h => by cases h⟩
  rw [keyBook, accountModel_start, startAccountModel]
  exact (fitting_addAccount none hunread hfits).2

/-- No wallet without an address has the one of a key. -/
theorem not_addressFor_empty (k : String) : ¬AddressFor p "" k := by
  intro h
  have hlength := congrArg String.length h
  rw [String.length_append] at hlength
  have hpv1 : "pv1".length = 3 := rfl
  have hempty : "".length = 0 := rfl
  omega

/-- A wallet that finds at most an empty key under its address gets its own, or
the address is that of the empty key as well. -/
theorem addressFor_getD_iff {found : Option String} {k : String}
    (h : found = none ∨ found = some "") :
    AddressFor p ("pv1" ++ p.generateAddress k) (found.getD k) ↔
      found = none ∨ p.generateAddress k = p.generateAddress "" := by
  rcases h with rfl | rfl
  · exact iff_of_true rfl (Or.inl rfl)
  · constructor
    · exact fun hfits => Or.inr ((String.append_right_inj "pv1").mp hfits)
    · rintro (hnone | hsame)
      · cases hnone
      · exact congrArg ("pv1" ++ ·) hsame

/-- `Node::forge` registers a forger under an address without prefix. -/
theorem eq_of_registered {a k : String} (h : n.registered p = some (a, k)) :
    a = p.generateAddress k := by
  unfold registered at h
  cases hnext : (n.settled p).nextForger p with
  | error f => simp [hnext] at h
  | ok forger =>
    simp only [hnext] at h
    obtain ⟨-, hpair⟩ := Option.ite_none_left_eq_some.mp h
    obtain ⟨rfl, rfl⟩ := Prod.mk.inj (Option.some.inj hpair)
    rfl

/-- **One step.** From a node whose accounts are under the addresses of their keys,
they are so afterwards exactly when only wallets are registered, unread. -/
theorem addressesDerived_useKeys_iff {a : KeyUse} (h : n.keyBook.Fitting "" (AddressFor p))
    (hbare : ∀ address key priv, a ≠ .addAccount address key priv) :
    (n.useKeys p a).AddressesDerived p ↔ n.RegistersWallet p a := by
  have hbook : (n.useKeys p a).AddressesDerived p ↔
      (n.useKeys p a).keyBook.Fitting "" (AddressFor p) :=
    ⟨fun hall => ⟨Book.blank_next h.blank (next_useKeys n a), hall⟩, fun hfits => hfits.entry⟩
  rw [hbook, h.next_iff (next_useKeys n a)]
  have hsome : ∀ b : KeyUse, ∀ address key, n.registration p b = some (address, key) →
      ((∀ a k, n.registration p b = some (a, k) → a ∉ n.keyBook.members →
        AddressFor p a ((n.keyBook.entry a).getD k)) ↔
      (address ∉ n.keyBook.members →
        AddressFor p address ((n.keyBook.entry address).getD key))) := by
    intro b address key hreg
    simp only [hreg, Option.some.injEq, Prod.mk.injEq, and_imp, forall_apply_eq_imp_iff,
      forall_eq']
  have hnone : ∀ b : KeyUse, n.registration p b = none → ∀ a k,
      n.registration p b = some (a, k) → a ∉ n.keyBook.members →
        AddressFor p a ((n.keyBook.entry a).getD k) := by
    intro b hreg a k hb
    rw [hreg] at hb
    cases hb
  cases a with
  | addAccount address key priv => exact absurd rfl (hbare address key priv)
  | lookup address => exact iff_of_true (hnone _ rfl) rfl
  | blockHandler jx => exact iff_of_true (hnone _ rfl) rfl
  | handleBlockchain s => exact iff_of_true (hnone _ rfl) rfl
  | construct keys =>
    cases keys with
    | error text =>
      rw [hsome _ "" "" rfl]
      refine iff_of_false (fun hall => ?_) id
      by_cases hmem : "" ∈ n.keyBook.members
      · obtain ⟨k, -, hk⟩ := h.entry "" hmem
        exact not_addressFor_empty k hk
      · exact not_addressFor_empty _ (hall hmem)
    | ok keys =>
      rw [hsome _ _ _ rfl]
      exact forall_congr' fun hnew => addressFor_getD_iff (h.blank _ hnew)
  | call c =>
    change _ ↔ n.registration p (.call c) = none
    constructor
    · intro hall
      by_contra hne
      obtain ⟨⟨address, key⟩, hreg⟩ := Option.ne_none_iff_exists'.mp hne
      obtain ⟨m, -, hm⟩ := Option.bind_eq_some_iff.mp hreg
      -- Whether the address is new or not, it would be that of some key with the prefix.
      obtain rfl := eq_of_registered hm
      by_cases hmem : p.generateAddress key ∈ n.keyBook.members
      · obtain ⟨k, -, hk⟩ := h.entry _ hmem
        exact p.pv1_ne_generateAddress k key hk.symm
      · exact p.pv1_ne_generateAddress _ key (hall _ _ hreg hmem).symm
    · exact hnone _

/-- The key that is found for the address of a forger with prefix is the same
before and after `Node::forge` registers the forger. -/
theorem walletPublicKey_forge {tick : Tick} {key : String}
    (hnext : (n.settled p).nextForger p = .ok key)
    (hother : key ≠ (n.settled p).nodeWallet.walletPublicKey) :
    ((n.forge p tick).2.accountModel.wallet ("pv1" ++ p.generateAddress key)).walletPublicKey =
      (n.accountModel.wallet ("pv1" ++ p.generateAddress key)).walletPublicKey := by
  have hregisters : n.registered p = some (p.generateAddress key, key) := by
    simp only [registered, hnext, if_neg hother]
  have hbook := next_forge (p := p) n tick
  rw [hregisters] at hbook
  have hkeep : (n.forge p tick).2.keyBook.entry ("pv1" ++ p.generateAddress key) =
      n.keyBook.entry ("pv1" ++ p.generateAddress key) := by
    rw [show (n.forge p tick).2.keyBook = n.keyBook.enrol _ _ from hbook]
    exact Book.entry_enrol_of_ne (p.pv1_ne_generateAddress key key)
  change AccountModel.publicKey _ (cStr _) = AccountModel.publicKey _ (cStr _)
  rw [p.cStr_pv1_generateAddress]
  exact congrArg (Option.getD · "") hkeep

/-- **The addresses of the accounts.** Along a run from the start of a node, every
account is under the address of its key exactly when the run registers only wallets
that have a key pair, unread; `Node::forge` with another node's key elected is none
of these. The key that is found for the address of such a forger is the elected one
afterwards exactly when it was before. -/
theorem addresses_derived_iff (p : Platform) (files : String → KeyPair)
    (generated unused : KeyPair) (sc : SocketConnector) (as : List KeyUse)
    (hbare : ∀ address key priv, KeyUse.addAccount address key priv ∉ as) :
    ((∀ pre, pre <+: as →
        (run (useKeys p) (start p files generated unused sc) pre).AddressesDerived p) ↔
      Along (useKeys p) (RegistersWallet p) (start p files generated unused sc) as) ∧
    ∀ (n : Node) (tick : Tick) (key : String), (n.settled p).nextForger p = .ok key →
      key ≠ (n.settled p).nodeWallet.walletPublicKey →
      (((n.forge p tick).2.accountModel.wallet ("pv1" ++ p.generateAddress key)).walletPublicKey =
          key ↔
        (n.accountModel.wallet ("pv1" ++ p.generateAddress key)).walletPublicKey = key) := by
  constructor
  · have hbare' : Along (useKeys p)
        (fun _ a => ∀ address key priv, a ≠ .addAccount address key priv)
        (start p files generated unused sc) as :=
      along_of_forall_split fun pre a post has address key priv ha =>
        hbare address key priv (by rw [has, ← ha]; simp)
    exact run_prefix_iff (J := fun m => m.keyBook.Fitting "" (AddressFor p)) (fun _ h => h.entry)
      (fun m a h ha => addressesDerived_useKeys_iff h ha)
      (fun m a h ha hC => ⟨Book.blank_next h.blank (next_useKeys m a),
        (addressesDerived_useKeys_iff h ha).mpr hC⟩)
      (fitting_start files generated unused sc) hbare'
  · intro n tick key hnext hother
    rw [walletPublicKey_forge hnext hother]

/-- The genesis node, which forges itself, with a new wallet. -/
theorem addresses_derived_reference :
    let p := Reference.platform
    let start := start p Reference.files (Reference.keyPair "o") (Reference.keyPair "u")
      ⟨"127.0.0.1", 10001⟩
    let as := [KeyUse.construct (.ok (Reference.keyPair "x")),
      .call (Reference.submit 1 "e" "a" 100 "EXCHANGE" "x")]
    ∀ pre, pre <+: as → (run (useKeys p) start pre).AddressesDerived p := by
  intro p start as
  have hwallets : Along (useKeys p) (RegistersWallet p) start as := by decide +kernel
  exact (addresses_derived_iff p _ _ _ _ as (by simp [as])).1.mpr hwallets

/-- A node that is not the next forger registers the genesis key a second time. And
after a stake under a key that no wallet has, the staker is elected and its address
is found to have no key. -/
theorem not_addresses_derived :
    let p := Reference.platform
    let other := start p Reference.files (Reference.keyPair "o") (Reference.keyPair "u")
      ⟨"127.0.0.1", 10003⟩
    let genesis := start p Reference.files (Reference.keyPair "o") (Reference.keyPair "u")
      ⟨"127.0.0.1", 10001⟩
    let stake := { Reference.wallet "x" with
      address := (Reference.wallet "a").address }.createTransaction p
        (Reference.wallet "a").address 50 "STAKE" "s" 0 0
    let n := run (useKeys p) genesis [.call (Reference.submit 1 "e" "a" 100 "EXCHANGE" "x"),
      .call (.handleTransaction (Reference.tick 2) true stake)]
    ¬(run (useKeys p) other [.call (.forge (Reference.tick 1))]).AddressesDerived p ∧
      (n.settled p).nextForger p = .ok "PUBx" ∧
      "PUBx" ≠ (n.settled p).nodeWallet.walletPublicKey ∧
      ((n.forge p (Reference.tick 3)).2.accountModel.wallet
        ("pv1" ++ p.generateAddress "PUBx")).walletPublicKey = "" := by
  intro p other genesis stake n
  refine ⟨fun hall => ?_, by decide +kernel⟩
  have hregistered : p.generateAddress "PUBg" ∈
      (run (useKeys p) other [.call (.forge (Reference.tick 1))]).accountModel.accounts := by
    decide +kernel
  obtain ⟨k, -, hk⟩ := hall _ hregistered
  exact p.pv1_ne_generateAddress k "PUBg" hk.symm

end Derived

end Node

end Prawnstar
