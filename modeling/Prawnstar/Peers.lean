import Prawnstar.Requests
import Prawnstar.Wire
import Prawnstar.Reference

/-!
# The peer list

How `SocketCommunication.cpp` learns of peers. A DISCOVERY message names its
sender and the peers that the sender knows. The sender is compared with the list
in the form in which it is added, but not with this node; a listed peer is
compared in the form in which it arrives, and added in the form that splitting
and `std::stol` give it. Peers that cannot be reached are removed and remembered.
-/

namespace Prawnstar

open Library

/-- Conversion to `int`, which takes booleans too. -/
def Json.toInt (undefinedCast : ℕ → ℚ → ℤ) : Json → Except Fault ℤ
  | bool b => .ok (if b then 1 else 0)
  | int z => .ok (castInt z)
  | uint n => .ok (castInt n)
  | float q => .ok (castDouble undefinedCast 32 q)
  | _ => .error .typeError

/-- `ip + ":" + std::to_string(port)` -/
def SocketConnector.ipPort (sc : SocketConnector) : String := sc.ip ++ ":" ++ toString sc.port

/-- The address that a peer's text is split and converted to, none where `at` or
`std::stol` throws. -/
def dials (peer : String) : Option SocketConnector :=
  match split peer with
  | ip :: port :: _ => (stol port).map fun num => ⟨ip, castInt num⟩
  | _ => none

/-- `std::for_each` with a function that may throw. -/
def forEach {σ α : Type*} (f : σ → α → Except Fault Unit × σ) : σ → List α → Except Fault Unit × σ
  | s, [] => (.ok (), s)
  | s, a :: as =>
    match f s a with
    | (.error e, s) => (.error e, s)
    | (.ok (), s) => forEach f s as

/-- Every item that a loop comes to meets a condition in the state in which the
loop comes to it. -/
def EachTime {σ α : Type*} (f : σ → α → Except Fault Unit × σ) (C : σ → α → Prop) :
    σ → List α → Prop
  | _, [] => True
  | s, a :: as => C s a ∧ ((f s a).1 = .ok () → EachTime f C (f s a).2 as)

section ForEach

variable {σ α : Type*} {f : σ → α → Except Fault Unit × σ} {C D : σ → α → Prop} {I : σ → Prop}

/-- What every item keeps, a loop keeps, whether it finishes or not. -/
theorem forEach_invariant (hkeep : ∀ s a, I s → I (f s a).2) {s : σ} (hs : I s) (as : List α) :
    I (forEach f s as).2 := by
  induction as generalizing s with
  | nil => exact hs
  | cons a as ih =>
    have hfirst := hkeep s a hs
    unfold forEach
    cases hx : f s a with
    | mk result m =>
      rw [hx] at hfirst
      cases result with
      | error e => exact hfirst
      | ok u => exact ih hfirst

/-- **Loops.** An invariant that an item keeps exactly when it meets a condition,
and that nothing restores, is kept by a loop exactly when every item that it comes
to meets the condition. -/
theorem forEach_iff (hiff : ∀ s a, I s → (I (f s a).2 ↔ C s a))
    (hlost : ∀ s a, ¬I s → ¬I (f s a).2) {s : σ} (hs : I s) (as : List α) :
    I (forEach f s as).2 ↔ EachTime f C s as := by
  induction as generalizing s with
  | nil => exact iff_of_true hs trivial
  | cons a as ih =>
    have hfirst := hiff s a hs
    unfold forEach EachTime
    cases hx : f s a with
    | mk result m =>
      rw [hx] at hfirst
      cases result with
      | error e => exact hfirst.trans (by simp)
      | ok u =>
        by_cases hm : I m
        · exact (ih hm).trans (by simp [hfirst.mp hm])
        · exact iff_of_false (forEach_invariant (I := fun s => ¬I s) hlost hm as)
            fun h => hm (hfirst.mpr h.1)

/-- A loop finishes when every item that it comes to returns. -/
theorem forEach_ok_iff {s : σ} {as : List α} : (forEach f s as).1 = .ok () ↔
    EachTime f (fun s a => (f s a).1 = .ok ()) s as := by
  induction as generalizing s with
  | nil => exact iff_of_true rfl trivial
  | cons a as ih =>
    unfold forEach EachTime
    rcases f s a with ⟨_ | _, m⟩
    · simp
    · simpa using ih

/-- A weaker condition is met as well. -/
theorem EachTime.mono {s : σ} {as : List α} (h : EachTime f C s as)
    (hCD : ∀ s, ∀ a ∈ as, C s a → D s a) : EachTime f D s as := by
  induction as generalizing s with
  | nil => trivial
  | cons a as ih =>
    exact ⟨hCD s a List.mem_cons_self h.1, fun hok => ih (h.2 hok) fun s b hb =>
      hCD s b (List.mem_cons_of_mem a hb)⟩

/-- A condition that every item meets in every state is met. -/
theorem eachTime_of_forall {as : List α} (h : ∀ s, ∀ a ∈ as, C s a) (s : σ) :
    EachTime f C s as := by
  induction as generalizing s with
  | nil => trivial
  | cons a as ih =>
    exact ⟨h s a List.mem_cons_self,
      fun _ => ih (fun s b hb => h s b (List.mem_cons_of_mem a hb)) _⟩

end ForEach

section Dials

/-- The items between separators have none, and are made of what is separated. -/
theorem mem_splitOn {α : Type*} [DecidableEq α] {a c : α} {xs l : List α}
    (hl : l ∈ xs.splitOn a) (hc : c ∈ l) : c ∈ xs ∧ c ≠ a := by
  induction xs generalizing l with
  | nil =>
    rw [List.splitOn_nil, List.mem_singleton] at hl
    subst hl
    cases hc
  | cons x xs ih =>
    rw [List.splitOn_cons_eq_if_modifyHead] at hl
    by_cases hx : x = a
    · rw [if_pos (beq_iff_eq.mpr hx), List.mem_cons] at hl
      rcases hl with rfl | hrest
      · cases hc
      · exact (ih hrest hc).imp_left (List.mem_cons_of_mem x)
    · rw [if_neg (by simpa using hx)] at hl
      obtain ⟨first, rest, hsplit⟩ := List.exists_cons_of_ne_nil (List.splitOn_ne_nil a xs)
      rw [hsplit, List.modifyHead_cons, List.mem_cons] at hl
      rcases hl with rfl | hrest
      · rcases List.mem_cons.mp hc with rfl | hfirst
        · exact ⟨List.mem_cons_self, hx⟩
        · exact (ih (hsplit ▸ List.mem_cons_self) hfirst).imp_left (List.mem_cons_of_mem x)
      · exact (ih (hsplit ▸ List.mem_cons_of_mem first hrest) hc).imp_left (List.mem_cons_of_mem x)

/-- A part of a text is not empty and has neither separator nor NUL. -/
theorem plain_of_mem_split {str part : String} (h : part ∈ split str) :
    part.toList ≠ [] ∧ ∀ c ∈ part.toList, c ≠ ':' ∧ c.toNat ≠ 0 := by
  unfold split at h
  obtain ⟨token, htoken, rfl⟩ := List.mem_map.mp h
  obtain ⟨hmem, hne⟩ := List.mem_filter.mp htoken
  rw [String.toList_ofList]
  refine ⟨of_decide_eq_true hne, fun c hc => ?_⟩
  obtain ⟨hread, hcolon⟩ := mem_splitOn hmem hc
  refine ⟨hcolon, ?_⟩
  unfold cStr at hread
  rw [String.toList_ofList] at hread
  have hnul := List.mem_takeWhile_imp (p := fun c : Char => decide (c.toNat ≠ 0)) hread
  exact of_decide_eq_true hnul

/-- An address is split into its parts. -/
theorem split_ipPort (sc : SocketConnector) (hne : sc.ip.toList ≠ [])
    (hplain : ∀ c ∈ sc.ip.toList, c ≠ ':' ∧ c.toNat ≠ 0) :
    split sc.ipPort = [sc.ip, toString sc.port] := by
  refine split_intercalate (List.cons_ne_nil _ _) ?_ fun part hpart => ?_
  · have hcolon : ":".toList = [':'] := rfl
    simp only [SocketConnector.ipPort, String.toList_append, hcolon, List.map_cons, List.map_nil,
      List.intercalate_cons_cons, List.intercalate_singleton, List.append_assoc]
  · simp only [List.mem_cons, List.not_mem_nil, or_false] at hpart
    rcases hpart with rfl | rfl
    · exact ⟨hne, hplain⟩
    · exact plain_toString_int _

/-- **The form in which a peer is added** is converted to itself. -/
theorem dials_ipPort {peer : String} {sc : SocketConnector} (h : dials peer = some sc) :
    dials sc.ipPort = some sc := by
  unfold dials at h
  split at h
  · next ip port rest hsplit =>
    obtain ⟨num, hnum, rfl⟩ := Option.map_eq_some_iff.mp h
    obtain ⟨hne, hplain⟩ := plain_of_mem_split (show ip ∈ split peer by simp [hsplit])
    have hrange := castInt_range num
    have hstol : stol (toString (castInt num)) = some (castInt num) := by
      rw [stol_toString, if_pos (by omega)]
    have hagain : castInt (castInt num) = castInt num := Int.bmod_bmod
    have hsplits := split_ipPort ⟨ip, castInt num⟩ hne hplain
    unfold dials
    simp only [hsplits, hstol, Option.map_some, hagain]
  · cases h

end Dials

/-- `SocketCommunication`, with the node that it belongs to. -/
structure SocketCommunication where
  /-- The node. -/
  node : Node
  /-- List of peers connected to this node. -/
  peers : List String
  /-- List of inactive peers. -/
  inactivePeers : List String

/-- The sender that a DISCOVERY message names. -/
def senderConnector (p : Platform) (j : Json) : Except Fault SocketConnector := do
  let connector ← (← j.member "Message").member "SocketConnector"
  let ip ← connector.stringAt "ip"
  let port ← (← connector.member "port").toInt p.undefinedCast
  return ⟨ip, port⟩

/-- The peers that a message lists; null lists none. -/
def messagePeers (j : Json) : Except Fault (List String) := do
  let peers ← (← j.member "Message").member "Peers"
  peers.elements.mapM Json.toStr

namespace SocketCommunication

variable (p : Platform) (s : SocketCommunication)

/-- This node's own address. -/
def thisNode : String := s.node.sc.ipPort

/-- The value that `handshakeMessage` writes: without peers `Message::toJson`
writes null and the empty data. -/
def handshakeMessage : Json :=
  let connector := .object [("ip", .string s.node.sc.ip), ("port", .int s.node.sc.port)]
  .object [("Message", .object (match s.peers with
    | [] => [("Peers", .null), ("SocketConnector", connector), ("Type", .string "DISCOVERY"),
        ("data", .string "")]
    | peers => [("Peers", .array (peers.map Json.string)), ("SocketConnector", connector),
        ("Type", .string "DISCOVERY")]))]

/-- The peers that `broadcast` sends to can be split and converted; the first one
that cannot ends it. -/
def dialable : Bool := s.peers.all fun peer => (dials peer).isSome

/-- A call of the node that hands at most one message to `broadcast`, as the last
thing it does. -/
def calling (r : Except Fault Unit × Node) : Except Fault Unit × SocketCommunication :=
  (if s.node.sent.length < r.2.sent.length ∧ ¬s.dialable then .error .logicError else r.1,
    { s with node := r.2 })

/-- What `peerDiscoveryHandleMessage` does with the sender. -/
def meet (newPeer : String) : Except Fault Unit × SocketCommunication :=
  if newPeer ∈ s.peers then (.ok (), s)
  else
    let s := { s with peers := s.peers ++ [newPeer] }
    s.calling (.ok (), s.node.requestChain)

/-- What `peerDiscoveryHandleMessage` does with a listed peer. -/
def learn (peersPeer : String) : Except Fault Unit × SocketCommunication :=
  if peersPeer ∈ s.peers ∨ peersPeer = s.thisNode then (.ok (), s)
  else
    match dials peersPeer with
    | none => (.error .logicError, s)
    | some peerToCheck =>
      if peerToCheck.ipPort ∈ s.inactivePeers then (.ok (), s)
      else (.ok (), { s with peers := s.peers ++ [peerToCheck.ipPort], inactivePeers := [] })

/-- `SocketCommunication::peerDiscoveryHandleMessage` -/
def peerDiscoveryHandleMessage (j : Json) : Except Fault Unit × SocketCommunication :=
  match senderConnector p j with
  | .error f => (.error f, s)
  | .ok peersSenderConnector =>
    match s.meet peersSenderConnector.ipPort with
    | (.error f, s) => (.error f, s)
    | (.ok (), s) =>
      match messagePeers j with
      | .error f => (.error f, s)
      | .ok peersPeerList => forEach learn s peersPeerList

/-- What `broadcastPeerDiscovery` does with a peer, given which connections succeed. -/
def probe (masterNode : String) (connects : SocketConnector → Bool) (peer : String) :
    Except Fault Unit × SocketCommunication :=
  match dials peer with
  | none => (.error .logicError, s)
  | some elementToRemove =>
    if connects elementToRemove ∨ elementToRemove.ipPort = masterNode then (.ok (), s)
    else (.ok (), { s with
      peers := s.peers.filter (· ≠ elementToRemove.ipPort)
      inactivePeers := s.inactivePeers ++ [elementToRemove.ipPort] })

/-- `SocketCommunication::broadcastPeerDiscovery`, with the value of its message. -/
def broadcastPeerDiscovery (masterNode : String) (connects : SocketConnector → Bool) (j : Json) :
    Except Fault Unit × SocketCommunication :=
  match messagePeers j with
  | .error f => (.error f, s)
  | .ok peersPeerList => forEach (fun s => s.probe masterNode connects) s peersPeerList

end SocketCommunication

/-- What happens to a peer list. -/
inductive Discovery
  /-- A DISCOVERY message arrives. -/
  | message (j : Json)
  /-- A DISCOVERY message is sent, and some connections fail. -/
  | broadcast (masterNode : String) (connects : SocketConnector → Bool) (j : Json)

namespace SocketCommunication

variable (p : Platform) (s : SocketCommunication)

/-- The state after something happened, whether it finished or a fault ended it. -/
def discover : Discovery → SocketCommunication
  | .message j => (s.peerDiscoveryHandleMessage p j).2
  | .broadcast masterNode connects j => (s.broadcastPeerDiscovery masterNode connects j).2

/-- A sender that may be added: one that is known, or another node. -/
def MeetsProperly (newPeer : String) : Prop := newPeer ∈ s.peers ∨ newPeer ≠ s.thisNode

/-- A listed peer that may be added: one that is not added at all, or that is
neither known nor this node in the form in which it is added. -/
def LearnsProperly (peersPeer : String) : Prop :=
  peersPeer ∈ s.peers ∨ peersPeer = s.thisNode ∨ ∀ peerToCheck, dials peersPeer = some peerToCheck →
    peerToCheck.ipPort ∈ s.inactivePeers ∨
      peerToCheck.ipPort ∉ s.peers ∧ peerToCheck.ipPort ≠ s.thisNode

/-- A message whose sender and listed peers may be added, each in the state in
which the handler comes to it. -/
def Proper : Discovery → Prop
  | .message j => ∀ sender, senderConnector p j = .ok sender → s.MeetsProperly sender.ipPort ∧
      ((s.meet sender.ipPort).1 = .ok () → ∀ peersPeerList, messagePeers j = .ok peersPeerList →
        EachTime learn LearnsProperly (s.meet sender.ipPort).2 peersPeerList)
  | .broadcast _ _ _ => True

/-- A message that comes from another address and lists peers in the form in which
they are added. -/
def Plain : Discovery → Prop
  | .message j => ∀ sender, senderConnector p j = .ok sender → sender.ipPort ≠ s.thisNode ∧
      ∀ peersPeerList, messagePeers j = .ok peersPeerList → ∀ peersPeer ∈ peersPeerList,
        ∀ peerToCheck, dials peersPeer = some peerToCheck → peerToCheck.ipPort = peersPeer
  | .broadcast _ _ _ => True

/-- No peer is listed twice, and this node is none. -/
def Sound : Prop := s.peers.Nodup ∧ s.thisNode ∉ s.peers

variable {p s}

section Steps

/-- Calls of the node keep its address, if they keep its connector. -/
@[simp] theorem thisNode_meet (newPeer : String) : (s.meet newPeer).2.thisNode = s.thisNode := by
  unfold meet
  split <;> rfl

/-- The peers after the sender was met. -/
theorem peers_meet (newPeer : String) : (s.meet newPeer).2.peers =
    if newPeer ∈ s.peers then s.peers else s.peers ++ [newPeer] := by
  unfold meet
  split <;> rfl

/-- A listed peer is not this node. -/
@[simp] theorem thisNode_learn (peersPeer : String) :
    (s.learn peersPeer).2.thisNode = s.thisNode := by
  unfold learn
  split
  · rfl
  · split
    · rfl
    · split <;> rfl

/-- Adding a peer at the end of a sound list. -/
theorem sound_append_iff {t : SocketCommunication} {peer : String} (h : s.Sound)
    (hpeers : t.peers = s.peers ++ [peer]) (hthis : t.thisNode = s.thisNode) :
    t.Sound ↔ peer ∉ s.peers ∧ peer ≠ s.thisNode := by
  unfold Sound
  rw [hpeers, hthis, List.nodup_append, List.mem_append, List.mem_singleton]
  constructor
  · rintro ⟨⟨-, -, hne⟩, hthis⟩
    exact ⟨fun hmem => hne peer hmem peer (List.mem_singleton_self peer) rfl,
      fun heq => hthis (Or.inr heq.symm)⟩
  · rintro ⟨hnew, hother⟩
    refine ⟨⟨h.1, List.nodup_singleton peer, ?_⟩, ?_⟩
    · rintro a ha b hb rfl
      rw [List.mem_singleton] at hb
      exact hnew (hb ▸ ha)
    · rintro (hmem | heq)
      · exact h.2 hmem
      · exact hother heq.symm

/-- A longer list is not sound when the shorter one is not. -/
theorem not_sound_append {t : SocketCommunication} {peers : List String} (h : ¬s.Sound)
    (hpeers : t.peers = s.peers ++ peers) (hthis : t.thisNode = s.thisNode) : ¬t.Sound := by
  intro ht
  unfold Sound at ht
  rw [hpeers, hthis] at ht
  exact h ⟨(List.nodup_append.mp ht.1).1, fun hmem => ht.2 (List.mem_append_left _ hmem)⟩

/-- **The sender.** -/
theorem sound_meet_iff (h : s.Sound) (newPeer : String) :
    (s.meet newPeer).2.Sound ↔ s.MeetsProperly newPeer := by
  have hpeers := peers_meet (s := s) newPeer
  unfold MeetsProperly
  by_cases hknown : newPeer ∈ s.peers
  · rw [if_pos hknown] at hpeers
    refine iff_of_true ?_ (Or.inl hknown)
    unfold Sound
    rw [hpeers, thisNode_meet]
    exact h
  · rw [if_neg hknown] at hpeers
    rw [sound_append_iff h hpeers (thisNode_meet newPeer)]
    simp [hknown]

/-- A listed peer is added at most, and a list that is not sound stays so. -/
theorem not_sound_learn (peersPeer : String) (h : ¬s.Sound) : ¬(s.learn peersPeer).2.Sound := by
  have hpeers : ∃ peers, (s.learn peersPeer).2.peers = s.peers ++ peers := by
    unfold learn
    split
    · exact ⟨[], (List.append_nil _).symm⟩
    · split
      · exact ⟨[], (List.append_nil _).symm⟩
      · split
        · exact ⟨[], (List.append_nil _).symm⟩
        · exact ⟨[_], rfl⟩
  obtain ⟨peers, hpeers⟩ := hpeers
  exact not_sound_append h hpeers (thisNode_learn peersPeer)

/-- **A listed peer.** -/
theorem sound_learn_iff (h : s.Sound) (peersPeer : String) :
    (s.learn peersPeer).2.Sound ↔ s.LearnsProperly peersPeer := by
  by_cases hknown : peersPeer ∈ s.peers ∨ peersPeer = s.thisNode
  · have hsame : (s.learn peersPeer).2 = s := by
      unfold learn
      rw [if_pos hknown]
    rw [hsame]
    apply iff_of_true h
    exact hknown.imp_right Or.inl
  · have hproper : s.LearnsProperly peersPeer ↔ ∀ peerToCheck, dials peersPeer = some peerToCheck →
        peerToCheck.ipPort ∈ s.inactivePeers ∨
          peerToCheck.ipPort ∉ s.peers ∧ peerToCheck.ipPort ≠ s.thisNode := by
      unfold LearnsProperly
      rw [not_or] at hknown
      simp only [hknown, false_or]
    rw [hproper]
    unfold learn
    rw [if_neg hknown]
    cases hdials : dials peersPeer with
    | none => exact iff_of_true h (by simp)
    | some peerToCheck =>
      simp only [Option.some.injEq, forall_eq']
      by_cases hinactive : peerToCheck.ipPort ∈ s.inactivePeers
      · rw [if_pos hinactive]
        exact iff_of_true h (Or.inl hinactive)
      · rw [if_neg hinactive]
        have hadded : ∀ t : SocketCommunication, t.peers = s.peers ++ [peerToCheck.ipPort] →
            t.thisNode = s.thisNode →
            (t.Sound ↔ peerToCheck.ipPort ∈ s.inactivePeers ∨
              peerToCheck.ipPort ∉ s.peers ∧ peerToCheck.ipPort ≠ s.thisNode) := by
          intro t hpeers hthis
          rw [sound_append_iff h hpeers hthis]
          simp [hinactive]
        exact hadded _ rfl rfl

/-- **Removals** keep a sound list. -/
theorem sound_probe (masterNode : String) (connects : SocketConnector → Bool) (peer : String)
    (h : s.Sound) : (s.probe masterNode connects peer).2.Sound := by
  unfold probe
  split
  · exact h
  · split
    · exact h
    · exact ⟨h.1.filter _, fun hmem => h.2 (List.mem_filter.mp hmem).1⟩

/-- **One step** keeps a sound list exactly when it is proper. -/
theorem sound_discover_iff (h : s.Sound) (d : Discovery) :
    (s.discover p d).Sound ↔ s.Proper p d := by
  cases d with
  | broadcast masterNode connects j =>
    refine iff_of_true ?_ trivial
    change (s.broadcastPeerDiscovery masterNode connects j).2.Sound
    unfold broadcastPeerDiscovery
    split
    · exact h
    · exact forEach_invariant (I := Sound)
        (fun _ peer hs => sound_probe masterNode connects peer hs) h _
  | message j =>
    change (s.peerDiscoveryHandleMessage p j).2.Sound ↔ ∀ sender, _
    unfold peerDiscoveryHandleMessage
    cases hsender : senderConnector p j with
    | error f => exact iff_of_true h (by simp)
    | ok sender =>
      have hmeet := sound_meet_iff h sender.ipPort
      simp only [Except.ok.injEq, forall_eq']
      cases hx : s.meet sender.ipPort with
      | mk result t =>
        rw [hx] at hmeet
        cases result with
        | error f => exact hmeet.trans (by simp)
        | ok u =>
          dsimp only
          cases hlist : messagePeers j with
          | error f => exact hmeet.trans (by simp)
          | ok peersPeerList =>
            simp only [Except.ok.injEq, forall_eq', true_implies]
            have hlost : ∀ (s : SocketCommunication) a, ¬s.Sound → ¬(s.learn a).2.Sound :=
              fun _ a hs => not_sound_learn a hs
            by_cases ht : t.Sound
            · have hloop := forEach_iff (I := Sound) (fun _ a hs => sound_learn_iff hs a) hlost ht
                peersPeerList
              exact hloop.trans ⟨fun heach => ⟨hmeet.mp ht, heach⟩, fun hboth => hboth.2⟩
            · exact iff_of_false (forEach_invariant (I := fun s => ¬Sound s) hlost ht _)
                fun hboth => ht (hmeet.mpr hboth.1)

/-- A plain message is proper in every state. -/
theorem proper_of_plain {d : Discovery} (h : s.Plain p d) : s.Proper p d := by
  cases d with
  | broadcast masterNode connects j => trivial
  | message j =>
    intro sender hsender
    obtain ⟨hother, hplain⟩ := h sender hsender
    refine ⟨Or.inr hother, fun _ peersPeerList hlist => eachTime_of_forall ?_ _⟩
    intro t peersPeer hpeer
    by_cases hknown : peersPeer ∈ t.peers
    · exact Or.inl hknown
    by_cases hthis : peersPeer = t.thisNode
    · exact Or.inr (Or.inl hthis)
    refine Or.inr (Or.inr fun peerToCheck hdials => Or.inr ?_)
    rw [hplain peersPeerList hlist peersPeer hpeer peerToCheck hdials]
    exact ⟨hknown, hthis⟩

end Steps

section Handshake

/-- A handshake names its sender. -/
theorem senderConnector_handshakeMessage
    (h : -2 ^ 31 ≤ s.node.sc.port ∧ s.node.sc.port < 2 ^ 31) :
    senderConnector p s.handshakeMessage = .ok s.node.sc := by
  have hport : castInt s.node.sc.port = s.node.sc.port := castInt_eq_self h
  have hread : senderConnector p s.handshakeMessage =
      .ok ⟨s.node.sc.ip, castInt s.node.sc.port⟩ := by
    unfold handshakeMessage
    cases s.peers <;> rfl
  rw [hread, hport]

/-- A handshake lists the peers. -/
theorem messagePeers_handshakeMessage : messagePeers s.handshakeMessage = .ok s.peers := by
  have hstrings : ∀ peers : List String, (peers.map Json.string).mapM Json.toStr = .ok peers := by
    intro peers
    induction peers with
    | nil => rfl
    | cons peer peers ih =>
      rw [List.map_cons, List.mapM_cons, ih]
      rfl
  have hread : messagePeers s.handshakeMessage = (s.peers.map Json.string).mapM Json.toStr := by
    unfold handshakeMessage
    cases s.peers <;> rfl
  rw [hread, hstrings]

/-- **The handshake of another node** is plain when the node lists its peers in the
form in which they are added. -/
theorem plain_handshakeMessage {t : SocketCommunication}
    (hport : -2 ^ 31 ≤ t.node.sc.port ∧ t.node.sc.port < 2 ^ 31)
    (hother : t.thisNode ≠ s.thisNode)
    (hform : ∀ peer ∈ t.peers, ∀ sc, dials peer = some sc → sc.ipPort = peer) :
    s.Plain p (.message t.handshakeMessage) := by
  intro sender hsender
  rw [senderConnector_handshakeMessage hport] at hsender
  obtain rfl := Except.ok.inj hsender
  refine ⟨hother, fun peersPeerList hlist => ?_⟩
  rw [messagePeers_handshakeMessage] at hlist
  obtain rfl := Except.ok.inj hlist
  exact hform

end Handshake

/-- **The peer list.** All along a run from an empty list, no peer is listed twice
and this node is none of them exactly when each message is proper: its sender is
known or another node, and each listed peer is known, this node, inactive, or
neither known nor this node in the form in which it is added. It is so when no
message comes from this node's address and every peer is listed in that form. -/
theorem peers_sound_iff (p : Platform) (n : Node) (ds : List Discovery) :
    ((∀ pre, pre <+: ds → (run (discover p) ⟨n, [], []⟩ pre).peers.Nodup ∧
        (run (discover p) ⟨n, [], []⟩ pre).thisNode ∉ (run (discover p) ⟨n, [], []⟩ pre).peers) ↔
      Along (discover p) (Proper p) ⟨n, [], []⟩ ds) ∧
    (Along (discover p) (Plain p) ⟨n, [], []⟩ ds →
      Along (discover p) (Proper p) ⟨n, [], []⟩ ds) := by
  have hempty : Sound ⟨n, [], []⟩ := ⟨List.nodup_nil, List.not_mem_nil⟩
  constructor
  · exact run_prefix_iff (J := Sound) (W := fun _ _ => True) (fun _ h => h)
      (fun s d h _ => sound_discover_iff h d) (fun s d h _ hC => (sound_discover_iff h d).mpr hC)
      hempty (along_of_forall (fun _ _ => trivial) _ ds)
  · exact fun hplain => hplain.mono fun _ _ => proper_of_plain

/-- A node that hears itself lists itself, and a peer that is listed in two forms is
listed twice. -/
theorem not_peers_sound :
    let p := Reference.platform
    let s : SocketCommunication := ⟨Reference.node 10001, [], []⟩
    let peer : SocketCommunication := ⟨Reference.node 10002, ["10.0.0.9:80", "10.0.0.9:080"], []⟩
    s.thisNode ∈ (run (discover p) s [.message s.handshakeMessage]).peers ∧
      ¬(run (discover p) s [.message peer.handshakeMessage]).peers.Nodup := by
  decide +kernel

end SocketCommunication

end Prawnstar
