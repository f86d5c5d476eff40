import Prawnstar.Processes
import Prawnstar.Library.Gossip

/-!
# Peer discovery

Processes send handshakes to the peers that they list and to the master node, and put
on their lists who sends them one and whom it lists. A handshake arrives as bytes, after
any delay and any number of times; a peer that cannot be connected to leaves the list.
No handshake of these processes ends one of them, and no list ever holds a peer twice,
its own process, or what is no address of a process. While no connection fails, the
lists are what is known in a gossip of the processes.
-/

namespace Prawnstar

open Library

/-- Addresses of processes: each is valid, and no two are written alike. -/
structure SocketConnector.Distinct {ι : Type*} (address : ι → SocketConnector) : Prop where
  /-- They can be dialled. -/
  valid : ∀ i, (address i).Valid
  /-- They are different. -/
  injective : Function.Injective fun i => (address i).ipPort

/-- A valid address is dialled as it is. -/
theorem dials_of_valid {sc : SocketConnector} (h : sc.Valid) : dials sc.ipPort = some sc := by
  have hport := h.port
  have hstol : stol (toString sc.port) = some sc.port := by
    rw [stol_toString, if_pos (by omega)]
  unfold dials
  rw [split_ipPort sc h.nonempty h.plain]
  dsimp only
  rw [hstol, Option.map_some, castInt_eq_self hport]

/-- A handshake that was sent. -/
structure Handshake (ι : Type*) where
  /-- Who sent it. -/
  sender : ι
  /-- Who gets it. -/
  receiver : ι
  /-- The message. -/
  message : P2P.Message

/-- Processes, and the handshakes that they have sent. -/
structure Meeting (ι : Type*) where
  /-- The processes. -/
  process : Processes ι
  /-- The handshakes, in the order in which they were sent. -/
  sent : List (Handshake ι)

/-- What happens next: a process sends its handshake to another one, if it lists it or if
it is the master node; a handshake arrives with bytes behind it; or a process fails to
connect to another one. -/
inductive Contact (ι : Type*)
  | greet (i j : ι)
  | hear (k : ℕ) (tick : Tick) (rest : List UInt8)
  | lose (i j : ι)

namespace SocketCommunication

/-- The message that `handshakeMessage` writes. -/
def handshake (s : SocketCommunication) : P2P.Message := ⟨s.node.sc, "DISCOVERY", s.peers, ""⟩

end SocketCommunication

namespace Meeting

variable {ι : Type*} [DecidableEq ι] (p : Platform) (parse : List UInt8 → Option Json) (master : ι)

/-- The processes before they know each other. -/
def start (n : ι → Node) : Meeting ι := ⟨fun i => ⟨n i, [], []⟩, []⟩

/-- What a process does with the frame of a handshake and the bytes behind it. -/
def hears (w : Meeting ι) (tick : Tick) (rest : List UInt8) (h : Handshake ι) :
    Except P2P.RecvFault (Except Fault Unit) × SocketCommunication :=
  (w.process h.receiver).receiveNodeMessage p parse tick (bytesOf (h.message.toJson p) ++ rest)

/-- The processes after an event. -/
def next (w : Meeting ι) : Contact ι → Meeting ι
  | .greet i j =>
    if (w.process j).thisNode ∈ (w.process i).peers ∨ (j = master ∧ i ≠ master) then
      { w with sent := w.sent ++ [⟨i, j, (w.process i).handshake⟩] }
    else w
  | .hear k tick rest =>
    match w.sent[k]? with
    | some h =>
      { w with process := Function.update w.process h.receiver (w.hears p parse tick rest h).2 }
    | none => w
  | .lose i j =>
    { w with process := Function.update w.process i ((w.process i).probe
        (w.process master).thisNode (fun _ => false) (w.process j).thisNode).2 }

/-- The body of a handshake that arrives fits an `int`. -/
def Fits (w : Meeting ι) : Contact ι → Prop
  | .hear k _ _ => ∀ h, w.sent[k]? = some h → (bytesOf (h.message.strMsgBody p)).length < 2 ^ 31
  | _ => True

instance Fits.decidable (w : Meeting ι) : ∀ e, Decidable (Fits p w e)
  | .hear k _ _ => inferInstanceAs (Decidable (∀ h ∈ w.sent[k]?, _))
  | .greet _ _ => isTrue trivial
  | .lose _ _ => isTrue trivial

/-- A handshake that arrives does not end its process. -/
def Survives (w : Meeting ι) : Contact ι → Prop
  | .hear k tick rest => ∀ h, w.sent[k]? = some h →
      (w.hears p parse tick rest h).1 = .ok (.ok ())
  | _ => True

/-- A handshake that one process sends another in a run arrives in it. -/
def Delivers (w : Meeting ι) (es : List (Contact ι)) (i j : ι) : Prop :=
  ∃ pre post k tick rest h, es = pre ++ .hear k tick rest :: post ∧ w.sent.length ≤ k ∧
    (run (next p parse master) w pre).sent[k]? = some h ∧ h.sender = i ∧ h.receiver = j

end Meeting

section Hearing

variable {ι : Type*} {address : ι → SocketConnector} {s : SocketCommunication}

/-- A list of addresses of processes. -/
def Addresses (address : ι → SocketConnector) (peers : List String) : Prop :=
  ∀ peer ∈ peers, ∃ i, peer = (address i).ipPort

/-- A process whose peers are other processes, each listed once. -/
structure SocketCommunication.Meets (address : ι → SocketConnector) (i : ι)
    (s : SocketCommunication) : Prop where
  /-- It has its address. -/
  sc : s.node.sc = address i
  /-- No peer is listed twice, and it is none. -/
  sound : s.Sound
  /-- The peers are processes. -/
  peers : Addresses address s.peers

namespace SocketCommunication

/-- What a handler did with a list of addresses that it heard: nothing was forgotten,
nothing else was added, and nothing was left out unless it was inactive. -/
structure Learned (s t : SocketCommunication) (heard : List String) : Prop where
  /-- The node has the same address. -/
  sc : t.node.sc = s.node.sc
  /-- Nothing is forgotten. -/
  old : ∀ peer ∈ s.peers, peer ∈ t.peers
  /-- Nothing else is added. -/
  new : ∀ peer ∈ t.peers, peer ∈ s.peers ∨ peer ∈ heard
  /-- Without inactive peers nothing is left out. -/
  all : s.inactivePeers = [] → t.inactivePeers = [] ∧
    ∀ peer ∈ heard, peer ≠ s.thisNode → peer ∈ t.peers

variable {t u : SocketCommunication} {heard more : List String}

/-- Nothing is learned from nothing. -/
theorem Learned.refl (s : SocketCommunication) : Learned s s [] :=
  ⟨rfl, fun _ h => h, fun _ h => .inl h, fun h => ⟨h, List.forall_mem_nil _⟩⟩

/-- One list after another. -/
theorem Learned.trans (h : Learned s t heard) (h' : Learned t u more) :
    Learned s u (heard ++ more) := by
  have hthis : t.thisNode = s.thisNode := congrArg SocketConnector.ipPort h.sc
  refine ⟨h'.sc.trans h.sc, fun peer hpeer => h'.old peer (h.old peer hpeer), fun peer hpeer => ?_,
    fun hactive => ?_⟩
  · rcases h'.new peer hpeer with hpeer | hpeer
    · exact (h.new peer hpeer).imp_right (List.mem_append_left _)
    · exact .inr (List.mem_append_right _ hpeer)
  · obtain ⟨hactive, hall⟩ := h.all hactive
    obtain ⟨hactive, hall'⟩ := h'.all hactive
    refine ⟨hactive, fun peer hpeer hne => ?_⟩
    rcases List.mem_append.mp hpeer with hpeer | hpeer
    · exact h'.old peer (hall peer hpeer hne)
    · exact hall' peer hpeer (hthis ▸ hne)

/-- **An address that is listed** in a handshake. -/
theorem learned_learn (hd : SocketConnector.Distinct address) (hs : s.Sound) (i : ι) :
    (s.learn (address i).ipPort).1 = .ok () ∧ (s.learn (address i).ipPort).2.Sound ∧
      Learned s (s.learn (address i).ipPort).2 [(address i).ipPort] := by
  have hdials := dials_of_valid (hd.valid i)
  have hsound : (s.learn (address i).ipPort).2.Sound := by
    rw [sound_learn_iff hs]
    by_cases hknown : (address i).ipPort ∈ s.peers
    · exact .inl hknown
    by_cases hthis : (address i).ipPort = s.thisNode
    · exact .inr (.inl hthis)
    refine .inr (.inr fun peerToCheck hpeer => ?_)
    obtain rfl := Option.some.inj (hdials.symm.trans hpeer)
    exact .inr ⟨hknown, hthis⟩
  refine ⟨?_, hsound, ?_⟩
  · unfold learn
    rw [hdials]
    split_ifs
    · rfl
    · dsimp only
      split_ifs <;> rfl
  · unfold learn
    rw [hdials]
    split_ifs with hknown
    · refine ⟨rfl, fun _ h => h, fun _ h => .inl h, fun h => ⟨h, fun peer hpeer hne => ?_⟩⟩
      obtain rfl := List.mem_singleton.mp hpeer
      exact hknown.resolve_right hne
    · dsimp only
      split_ifs with hinactive
      · refine ⟨rfl, fun _ h => h, fun _ h => .inl h, fun h => ?_⟩
        rw [h] at hinactive
        exact absurd hinactive List.not_mem_nil
      · exact ⟨rfl, fun _ h => List.mem_append_left _ h, fun _ h => List.mem_append.mp h,
          fun _ => ⟨rfl, fun peer hpeer _ => List.mem_append_right _ hpeer⟩⟩

/-- **The addresses that are listed** in a handshake. -/
theorem learned_forEach (hd : SocketConnector.Distinct address) (hs : s.Sound)
    (hheard : Addresses address heard) :
    (forEach learn s heard).1 = .ok () ∧ (forEach learn s heard).2.Sound ∧
      Learned s (forEach learn s heard).2 heard := by
  induction heard generalizing s with
  | nil => exact ⟨rfl, hs, Learned.refl s⟩
  | cons peer heard ih =>
    obtain ⟨i, rfl⟩ := hheard peer List.mem_cons_self
    obtain ⟨hok, hsound, hlearned⟩ := learned_learn hd hs i
    obtain ⟨hoks, hsounds, hlearneds⟩ := ih hsound fun x hx =>
      hheard x (List.mem_cons_of_mem _ hx)
    have hloop : forEach learn s ((address i).ipPort :: heard) =
        forEach learn (s.learn (address i).ipPort).2 heard := by
      conv_lhs => unfold forEach
      rw [← Prod.mk.eta (p := s.learn (address i).ipPort), hok]
    rw [hloop]
    exact ⟨hoks, hsounds, hlearned.trans hlearneds⟩

/-- Addresses can be dialled. -/
theorem dialable_of_addresses (hd : SocketConnector.Distinct address)
    (h : Addresses address s.peers) : s.dialable = true := by
  refine List.all_eq_true.mpr fun peer hpeer => ?_
  obtain ⟨i, rfl⟩ := h peer hpeer
  rw [dials_of_valid (hd.valid i)]
  rfl

/-- **The sender** of a handshake: the chain is requested from the peers and from it. -/
theorem learned_meet (hd : SocketConnector.Distinct address) {i j : ι} (hs : s.Meets address j)
    (hij : i ≠ j) : (s.meet (address i).ipPort).1 = .ok () ∧
      (s.meet (address i).ipPort).2.Sound ∧
        Learned s (s.meet (address i).ipPort).2 [(address i).ipPort] := by
  have hother : (address i).ipPort ≠ s.thisNode := by
    unfold thisNode
    rw [hs.sc]
    exact hd.injective.ne hij
  refine ⟨?_, (sound_meet_iff hs.sound _).mpr (.inr hother), ?_⟩
  · unfold meet
    split_ifs with hknown
    · rfl
    · refine if_neg fun h => h.2 (dialable_of_addresses hd fun peer hpeer => ?_)
      rcases List.mem_append.mp hpeer with hpeer | hpeer
      · exact hs.peers peer hpeer
      · exact ⟨i, List.mem_singleton.mp hpeer⟩
  · unfold meet
    split_ifs with hknown
    · refine ⟨rfl, fun _ h => h, fun _ h => .inl h, fun h => ⟨h, fun peer hpeer _ => ?_⟩⟩
      rwa [List.mem_singleton.mp hpeer]
    · exact ⟨rfl, fun _ h => List.mem_append_left _ h, fun _ h => List.mem_append.mp h,
        fun h => ⟨h, fun peer hpeer _ => List.mem_append_right _ hpeer⟩⟩

/-- What was learned from addresses are addresses. -/
theorem Learned.meets {j : ι} (h : Learned s t heard) (hs : s.Meets address j)
    (hheard : Addresses address heard) (hsound : t.Sound) : t.Meets address j :=
  ⟨h.sc.trans hs.sc, hsound, fun peer hpeer => (h.new peer hpeer).elim (hs.peers peer)
    (hheard peer)⟩

/-- **A handshake that is heard** does not end the process, which learns the sender and
the peers that it lists. -/
theorem learned_handshake (p : Platform) (hd : SocketConnector.Distinct address) {i j : ι}
    (hs : s.Meets address j) (hij : i ≠ j) (hheard : Addresses address heard) :
    let handled := s.peerDiscoveryHandleMessage p
      (P2P.Message.json ⟨address i, "DISCOVERY", heard, ""⟩)
    handled.1 = .ok () ∧ handled.2.Meets address j ∧
      Learned s handled.2 ((address i).ipPort :: heard) := by
  let sender : SocketCommunication := ⟨{ s.node with sc := address i }, heard, []⟩
  have hjson : P2P.Message.json ⟨address i, "DISCOVERY", heard, ""⟩ = sender.handshakeMessage :=
    P2P.json_handshake sender
  have hsender : senderConnector p sender.handshakeMessage = .ok (address i) :=
    senderConnector_handshakeMessage (hd.valid i).port
  have hpeers : messagePeers sender.handshakeMessage = .ok heard := messagePeers_handshakeMessage
  obtain ⟨hmeetok, hmeetsound, hmeet⟩ := learned_meet hd hs hij
  obtain ⟨hok, hsound, hlearned⟩ := learned_forEach hd hmeetsound hheard
  have hhandled : s.peerDiscoveryHandleMessage p sender.handshakeMessage =
      forEach learn (s.meet (address i).ipPort).2 heard := by
    unfold peerDiscoveryHandleMessage
    rw [hsender]
    dsimp only
    rw [← Prod.mk.eta (p := s.meet (address i).ipPort), hmeetok]
    dsimp only
    rw [hpeers]
  have hall := hmeet.trans hlearned
  dsimp only
  rw [hjson, hhandled]
  refine ⟨hok, hall.meets hs (fun peer hpeer => ?_) hsound, hall⟩
  rcases List.mem_cons.mp hpeer with hpeer | hpeer
  · exact ⟨i, hpeer⟩
  · exact hheard peer hpeer

/-- A failed connection takes a peer off the list at most. -/
theorem Meets.probe {j : ι} (hs : s.Meets address j) (masterNode peer : String)
    (connects : SocketConnector → Bool) : (s.probe masterNode connects peer).2.Meets address j := by
  refine ⟨?_, sound_probe masterNode connects peer hs.sound, fun x hx => hs.peers x ?_⟩
  · rw [← hs.sc]
    unfold SocketCommunication.probe
    split
    · rfl
    · split_ifs <;> rfl
  · unfold SocketCommunication.probe at hx
    split at hx
    · exact hx
    · split_ifs at hx
      · exact hx
      · exact (List.mem_filter.mp hx).1

end SocketCommunication

end Hearing

/-- Three reference nodes. -/
def Reference.nodes (i : Fin 3) : Node := Reference.node (10001 + i)

/-- They have different addresses. -/
theorem Reference.distinct_nodes : SocketConnector.Distinct fun i => (nodes i).sc := by
  have hinjective : ∀ i j, (nodes i).sc.ipPort = (nodes j).sc.ipPort → i = j := by decide +kernel
  have hip : ∀ i, (nodes i).sc.ip = "127.0.0.1" := by decide +kernel
  have hport : ∀ i, -2 ^ 31 ≤ (nodes i).sc.port ∧ (nodes i).sc.port < 2 ^ 31 := by decide +kernel
  have hlocal : "127.0.0.1".toList.all (fun c => c ≠ ':' ∧ c.toNat ≠ 0) = true := by decide
  have hnonempty : ∀ i, (nodes i).sc.ip.toList ≠ [] := by
    intro i
    rw [hip i]
    decide
  have hplain : ∀ i, ∀ c ∈ (nodes i).sc.ip.toList, c ≠ ':' ∧ c.toNat ≠ 0 := by
    intro i
    rw [hip i]
    exact fun c hc => of_decide_eq_true (List.all_eq_true.mp hlocal c hc)
  exact ⟨fun i => ⟨hnonempty i, hplain i, hport i⟩, fun i j h => hinjective i j h⟩

namespace Meeting

section Safety

variable {ι : Type*} {p : Platform} {d : Doubles} {address : ι → SocketConnector} {w : Meeting ι}

/-- Everybody lists other processes, and every handshake came from another one. -/
structure Sound (address : ι → SocketConnector) (w : Meeting ι) : Prop where
  /-- The lists are sound. -/
  process : ∀ i, (w.process i).Meets address i
  /-- No process greets itself. -/
  other : ∀ h ∈ w.sent, h.sender ≠ h.receiver
  /-- The handshakes name their senders. -/
  message : ∀ h ∈ w.sent, h.message = ⟨address h.sender, "DISCOVERY", h.message.peers, ""⟩
  /-- They list processes. -/
  peers : ∀ h ∈ w.sent, Addresses address h.message.peers

/-- Processes that know nobody. -/
theorem sound_start {n : ι → Node} (hn : ∀ i, (n i).sc = address i) :
    (start n).Sound address where
  process i := ⟨hn i, ⟨List.nodup_nil, List.not_mem_nil⟩, List.forall_mem_nil _⟩
  other := List.forall_mem_nil _
  message := List.forall_mem_nil _
  peers := List.forall_mem_nil _

/-- **A handshake that arrives** is survived, and its receiver learns the sender and the
peers. -/
theorem hears_spec (hd : SocketConnector.Distinct address) (hw : w.Sound address)
    {h : Handshake ι} (hmem : h ∈ w.sent)
    (hint : (bytesOf (h.message.strMsgBody (p.printing d))).length < 2 ^ 31) (tick : Tick)
    (rest : List UInt8) :
    let heard := w.hears (p.printing d) (Parser.parse d) tick rest h
    heard.1 = .ok (.ok ()) ∧ heard.2.Meets address h.receiver ∧
      (w.process h.receiver).Learned heard.2 ((address h.sender).ipPort :: h.message.peers) := by
  have hmessage := hw.message h hmem
  have hport : -2 ^ 63 ≤ h.message.sc.port ∧ h.message.sc.port < 2 ^ 63 := by
    have hvalid := (hd.valid h.sender).port
    rw [hmessage]
    exact ⟨by dsimp only; omega, by dsimp only; omega⟩
  have htype : (h.message.json.field "Message").field "Type" = .string "DISCOVERY" := by
    rw [hmessage]
    cases h.message.peers <;> rfl
  have hdispatch : (w.process h.receiver).dispatch (p.printing d) (Parser.parse d) tick
      h.message.json =
        (w.process h.receiver).peerDiscoveryHandleMessage (p.printing d) h.message.json := by
    unfold SocketCommunication.dispatch
    rw [messageText_eq_ok.mpr htype]
    exact if_pos rfl
  have hlearned := SocketCommunication.learned_handshake (p.printing d) hd
    (hw.process h.receiver) (hw.other h hmem) (hw.peers h hmem)
  rw [← hmessage, ← hdispatch] at hlearned
  unfold hears
  rw [receiveNodeMessage_toJson hport hint]
  exact ⟨congrArg Except.ok hlearned.1, hlearned.2⟩

/-- A sound meeting survives the next event. -/
theorem Sound.survives (hd : SocketConnector.Distinct address) (hw : w.Sound address)
    {e : Contact ι} (hfits : Fits (p.printing d) w e) :
    Survives (p.printing d) (Parser.parse d) w e := by
  cases e with
  | hear k tick rest =>
    intro h hsent
    exact (hears_spec hd hw (List.mem_of_getElem? hsent) (hfits h hsent) tick rest).1
  | _ => trivial

variable [DecidableEq ι] {master : ι}

/-- **One event** keeps the lists sound. -/
theorem Sound.next (hd : SocketConnector.Distinct address) (hw : w.Sound address)
    {e : Contact ι} (hfits : Fits (p.printing d) w e) :
    (w.next (p.printing d) (Parser.parse d) master e).Sound address := by
  have hupdate : ∀ (j : ι) (s : SocketCommunication), s.Meets address j →
      Sound address { w with process := Function.update w.process j s } := by
    intro j s hs
    refine ⟨fun i => ?_, hw.other, hw.message, hw.peers⟩
    dsimp only
    by_cases hi : i = j
    · subst hi
      rwa [Function.update_self]
    · rw [Function.update_of_ne hi]
      exact hw.process i
  cases e with
  | greet i j =>
    unfold Meeting.next
    dsimp only
    split_ifs with hguard
    · have hij : i ≠ j := by
        rintro rfl
        rcases hguard with hlisted | ⟨hmaster, hother⟩
        · exact (hw.process i).sound.2 hlisted
        · exact hother hmaster
      refine ⟨hw.process, ?_, ?_, ?_⟩
      · exact List.forall_mem_append.mpr ⟨hw.other, List.forall_mem_singleton.mpr hij⟩
      · refine List.forall_mem_append.mpr ⟨hw.message, List.forall_mem_singleton.mpr ?_⟩
        unfold SocketCommunication.handshake
        rw [(hw.process i).sc]
      · exact List.forall_mem_append.mpr ⟨hw.peers, List.forall_mem_singleton.mpr
          (hw.process i).peers⟩
    · exact hw
  | hear k tick rest =>
    unfold Meeting.next
    dsimp only
    cases hsent : w.sent[k]? with
    | none => exact hw
    | some h =>
      have hheard := hears_spec hd hw (List.mem_of_getElem? hsent) (hfits h hsent) tick rest
      exact hupdate _ _ hheard.2.1
  | lose i j => exact hupdate _ _ ((hw.process i).probe _ _ _)

/-- **Peer discovery is safe.** Processes with different valid addresses that know nobody
greet each other, lose connections and hear handshakes in any order; every handshake that
arrives is survived, no list ever holds a peer twice or its own process, and every peer is
the address of a process. -/
theorem discovery_safe (p : Platform) (d : Doubles) (master : ι)
    (address : ι → SocketConnector) (n : ι → Node) (es : List (Contact ι))
    (hd : SocketConnector.Distinct address) (hn : ∀ i, (n i).sc = address i)
    (hfits : Along (next (p.printing d) (Parser.parse d) master) (Fits (p.printing d)) (start n)
      es) :
    Along (next (p.printing d) (Parser.parse d) master)
        (Survives (p.printing d) (Parser.parse d)) (start n) es ∧
      ∀ i, let s := (run (next (p.printing d) (Parser.parse d) master) (start n) es).process i
        s.peers.Nodup ∧ s.thisNode ∉ s.peers ∧
          ∀ peer ∈ s.peers, ∃ k, peer = (address k).ipPort := by
  have hstart := sound_start hn
  generalize start n = w at hfits hstart ⊢
  have hstep : ∀ (w : Meeting ι) (e : Contact ι), w.Sound address → Fits (p.printing d) w e →
      (w.next (p.printing d) (Parser.parse d) master e).Sound address :=
    fun w e hw hfits => hw.next hd hfits
  have hall := run_invariant (I := Sound address) hstep hstart hfits
  refine ⟨?_, fun i => ⟨(hall.process i).sound.1, (hall.process i).sound.2, (hall.process i).peers⟩⟩
  clear hall
  induction es generalizing w with
  | nil => trivial
  | cons e es ih =>
    exact ⟨hstart.survives hd hfits.1, ih _ hfits.2 (hstart.next hd hfits.1)⟩

/-- The second node greets the genesis node, which loses it then. -/
theorem discovery_safe_reference :
    let s := (run (next (Reference.platform.printing Reference.doubles)
      (Parser.parse Reference.doubles) 0) (start Reference.nodes)
        [.greet 1 0, .hear 0 (Reference.tick 1) [7], .lose 0 1]).process 0
    s.peers.Nodup ∧ s.thisNode ∉ s.peers := by
  intro s
  have hsafe := (discovery_safe Reference.platform Reference.doubles 0 _ Reference.nodes
    [.greet 1 0, .hear 0 (Reference.tick 1) [7], .lose 0 1] Reference.distinct_nodes (fun _ => rfl)
    (by decide +kernel)).2 0
  exact ⟨hsafe.1, hsafe.2.1⟩

end Safety

section Spread

variable {ι : Type*} {p : Platform} {d : Doubles} {master : ι} {address : ι → SocketConnector}
  {w : Meeting ι}

/-- What the processes know, as a gossip. -/
def gossip (address : ι → SocketConnector) (w : Meeting ι) : Gossip ι where
  known i := {k | (address k).ipPort ∈ (w.process i).peers}
  told := w.sent.map fun h =>
    ⟨h.receiver, h.sender, {k | (address k).ipPort ∈ h.message.peers}⟩

/-- No process has given up another one. -/
def Trusting (w : Meeting ι) : Prop := ∀ i, (w.process i).inactivePeers = []

/-- An event in which no connection fails. -/
def Connects : Contact ι → Prop
  | .lose _ _ => False
  | _ => True

variable [DecidableEq ι]

/-- What an event is in the gossip: a process that may not send its handshake says nothing. -/
def talk (master : ι) (w : Meeting ι) : Contact ι → Option (Talk ι)
  | .greet i j =>
    if (w.process j).thisNode ∈ (w.process i).peers ∨ (j = master ∧ i ≠ master) then
      some (.tell i j)
    else none
  | .hear k _ _ => some (.hear k)
  | .lose _ _ => none

/-- What a run is in the gossip. -/
def talks (p : Platform) (parse : List UInt8 → Option Json) (master : ι) :
    Meeting ι → List (Contact ι) → List (Talk ι)
  | _, [] => []
  | w, e :: es => (talk master w e).toList ++ talks p parse master (w.next p parse master e) es

/-- The gossip after a handshake was heard. -/
theorem gossip_heard (hd : SocketConnector.Distinct address) (hw : w.Sound address)
    (htrusting : w.Trusting) {h : Handshake ι} {s : SocketCommunication}
    (hs : (w.process h.receiver).Learned s ((address h.sender).ipPort :: h.message.peers))
    (hsound : s.Meets address h.receiver) :
    gossip address { w with process := Function.update w.process h.receiver s } =
      (gossip address w).heard
        ⟨h.receiver, h.sender, {k | (address k).ipPort ∈ h.message.peers}⟩ := by
  have hthis : (w.process h.receiver).thisNode = (address h.receiver).ipPort :=
    congrArg SocketConnector.ipPort (hw.process h.receiver).sc
  have hown : s.thisNode = (address h.receiver).ipPort :=
    congrArg SocketConnector.ipPort hsound.sc
  have hpeers : ∀ k, (address k).ipPort ∈ s.peers ↔
      (address k).ipPort ∈ (w.process h.receiver).peers ∨
        (k = h.sender ∨ (address k).ipPort ∈ h.message.peers) ∧ k ≠ h.receiver := by
    intro k
    constructor
    · intro hk
      have hother : k ≠ h.receiver := by
        rintro rfl
        exact hsound.sound.2 (hown ▸ hk)
      refine (hs.new _ hk).imp_right fun hnew => ⟨?_, hother⟩
      exact (List.mem_cons.mp hnew).imp_left fun heq => hd.injective heq
    · rintro (hold | ⟨hnew, hother⟩)
      · exact hs.old _ hold
      · refine (hs.all (htrusting h.receiver)).2 _ (List.mem_cons.mpr ?_)
          (hthis ▸ hd.injective.ne hother)
        exact hnew.imp_left fun heq => congrArg (fun i => (address i).ipPort) heq
  have hknown : ∀ i, {k | (address k).ipPort ∈ (Function.update w.process h.receiver s i).peers} =
      Function.update (fun i => {k | (address k).ipPort ∈ (w.process i).peers}) h.receiver
        ({k | (address k).ipPort ∈ (w.process h.receiver).peers} ∪
          {k | (k = h.sender ∨ (address k).ipPort ∈ h.message.peers) ∧ k ≠ h.receiver}) i := by
    intro i
    by_cases hi : i = h.receiver
    · subst hi
      rw [Function.update_self, Function.update_self]
      exact Set.ext hpeers
    · rw [Function.update_of_ne hi, Function.update_of_ne hi]
  unfold gossip Gossip.heard
  exact congrArg (fun known => (⟨known, _⟩ : Gossip ι)) (funext hknown)

/-- **One event** without a failing connection is one of the gossip, or none. -/
theorem gossip_next (hd : SocketConnector.Distinct address) (hw : w.Sound address)
    (htrusting : w.Trusting) {e : Contact ι} (hfits : Fits (p.printing d) w e)
    (hconnects : Connects e) :
    gossip address (w.next (p.printing d) (Parser.parse d) master e) =
        run Gossip.next (gossip address w) (talk master w e).toList ∧
      (w.next (p.printing d) (Parser.parse d) master e).Trusting := by
  cases e with
  | greet i j =>
    unfold Meeting.next talk
    dsimp only
    split_ifs with hguard
    · refine ⟨?_, htrusting⟩
      rw [Option.toList_some, run_cons, run_nil]
      unfold gossip Gossip.next
      rw [List.map_append]
      rfl
    · exact ⟨rfl, htrusting⟩
  | hear k tick rest =>
    have htold : (gossip address w).told[k]? = (w.sent[k]?).map fun h =>
        ⟨h.receiver, h.sender, {k | (address k).ipPort ∈ h.message.peers}⟩ := List.getElem?_map
    have htalk : run Gossip.next (gossip address w) (talk master w (.hear k tick rest)).toList =
        ((gossip address w).told[k]?).elim (gossip address w) (gossip address w).heard := by
      change Gossip.next (gossip address w) (.hear k) = _
      unfold Gossip.next
      dsimp only
      cases (gossip address w).told[k]? <;> rfl
    rw [htalk, htold]
    unfold Meeting.next
    dsimp only
    cases hsent : w.sent[k]? with
    | none => exact ⟨rfl, htrusting⟩
    | some h =>
      obtain ⟨-, hmeets, hlearned⟩ :=
        hears_spec hd hw (List.mem_of_getElem? hsent) (hfits h hsent) tick rest
      refine ⟨gossip_heard hd hw htrusting hlearned hmeets, fun i => ?_⟩
      dsimp only
      by_cases hi : i = h.receiver
      · subst hi
        rw [Function.update_self]
        exact (hlearned.all (htrusting _)).1
      · rw [Function.update_of_ne hi]
        exact htrusting i
  | lose i j => exact absurd hconnects not_false

/-- **A run** without failing connections is a run of the gossip. -/
theorem gossip_run (hd : SocketConnector.Distinct address) (hw : w.Sound address)
    (htrusting : w.Trusting) {es : List (Contact ι)}
    (hfits : Along (next (p.printing d) (Parser.parse d) master) (Fits (p.printing d)) w es)
    (hconnects : ∀ e ∈ es, Connects e) :
    gossip address (run (next (p.printing d) (Parser.parse d) master) w es) =
        run Gossip.next (gossip address w) (talks (p.printing d) (Parser.parse d) master w es) ∧
      (run (next (p.printing d) (Parser.parse d) master) w es).Sound address ∧
        (run (next (p.printing d) (Parser.parse d) master) w es).Trusting := by
  induction es generalizing w with
  | nil => exact ⟨rfl, hw, htrusting⟩
  | cons e es ih =>
    obtain ⟨hgossip, hstill⟩ := @gossip_next ι p d master address w _ hd hw htrusting e hfits.1
      (hconnects e List.mem_cons_self)
    obtain ⟨hrun, hsound, htrusts⟩ := ih (hw.next hd hfits.1) hstill hfits.2
      fun e' he' => hconnects e' (List.mem_cons_of_mem e he')
    refine ⟨?_, hsound, htrusts⟩
    rw [run_cons, hrun, hgossip, talks, run_append]

/-- The gossip of a run in two parts. -/
theorem talks_append (p : Platform) (parse : List UInt8 → Option Json) (w : Meeting ι)
    (es fs : List (Contact ι)) : talks p parse master w (es ++ fs) =
      talks p parse master w es ++ talks p parse master (run (next p parse master) w es) fs := by
  induction es generalizing w with
  | nil => rfl
  | cons e es ih => rw [List.cons_append, talks, talks, ih, run_cons, List.append_assoc]

/-- A handshake that arrives, from its sender and its receiver. -/
theorem delivers_of_sent {p : Platform} {parse : List UInt8 → Option Json} {w : Meeting ι}
    {es : List (Contact ι)} {i j : ι} (pre post : List (Contact ι)) (k : ℕ) (tick : Tick)
    (rest : List UInt8) (hes : es = pre ++ .hear k tick rest :: post) (hk : w.sent.length ≤ k)
    (hsent : ((run (next p parse master) w pre).sent[k]?).map (fun h => (h.sender, h.receiver)) =
      some (i, j)) : w.Delivers p parse master es i j := by
  obtain ⟨h, hget, hboth⟩ := Option.map_eq_some_iff.mp hsent
  obtain ⟨hsender, hreceiver⟩ := Prod.mk.inj hboth
  exact ⟨pre, post, k, tick, rest, h, hes, hk, hget, hsender, hreceiver⟩

/-- **A handshake that arrives** is a rumour that is heard. -/
theorem delivers_gossip (hd : SocketConnector.Distinct address) (hw : w.Sound address)
    (htrusting : w.Trusting) {es : List (Contact ι)} {i j : ι}
    (hfits : Along (next (p.printing d) (Parser.parse d) master) (Fits (p.printing d)) w es)
    (hconnects : ∀ e ∈ es, Connects e)
    (h : w.Delivers (p.printing d) (Parser.parse d) master es i j) :
    (gossip address w).Delivers (talks (p.printing d) (Parser.parse d) master w es) i j := by
  obtain ⟨pre, post, k, tick, rest, handshake, rfl, hk, hsent, rfl, rfl⟩ := h
  have hfirst := gossip_run hd hw htrusting (along_append.mp hfits).1
    fun e he => hconnects e (List.mem_append_left _ he)
  let after := run (next (p.printing d) (Parser.parse d) master) w pre
  refine ⟨talks (p.printing d) (Parser.parse d) master w pre,
    talks (p.printing d) (Parser.parse d) master
      (after.next (p.printing d) (Parser.parse d) master (.hear k tick rest)) post, k,
    ⟨handshake.receiver, handshake.sender, {k | (address k).ipPort ∈ handshake.message.peers}⟩,
    ?_, ?_, ?_, rfl, rfl⟩
  · rw [talks_append]
    rfl
  · change (w.sent.map _).length ≤ k
    rwa [List.length_map]
  · rw [← hfirst.1]
    change ((run _ w pre).sent.map _)[k]? = _
    rw [List.getElem?_map, hsent]
    rfl

/-- **Everybody lists everybody.** Processes with different valid addresses start without
peers, and no connection fails. Once the master node has heard a handshake from each of
the others, and each of them one that the master node has sent since, the peers of every
process are exactly the addresses of the others, each listed once. -/
theorem everybody_listed (p : Platform) (d : Doubles) (master : ι)
    (address : ι → SocketConnector) (n : ι → Node) (es fs : List (Contact ι))
    (hd : SocketConnector.Distinct address) (hn : ∀ i, (n i).sc = address i)
    (hfits : Along (next (p.printing d) (Parser.parse d) master) (Fits (p.printing d)) (start n)
      (es ++ fs))
    (hconnects : ∀ e ∈ es ++ fs, Connects e)
    (hto : ∀ i, i ≠ master → (start n).Delivers (p.printing d) (Parser.parse d) master es i master)
    (hfrom : ∀ j, j ≠ master → (run (next (p.printing d) (Parser.parse d) master) (start n)
      es).Delivers (p.printing d) (Parser.parse d) master fs master j) (j : ι) :
    let s := (run (next (p.printing d) (Parser.parse d) master) (start n) (es ++ fs)).process j
    s.peers.Nodup ∧ ∀ peer, peer ∈ s.peers ↔ ∃ i, i ≠ j ∧ peer = (address i).ipPort := by
  have hstart := sound_start hn
  have htrusting : (start n).Trusting := fun _ => rfl
  obtain ⟨hes, hfs⟩ := along_append.mp hfits
  have hconnectsfirst := fun e he => hconnects e (List.mem_append_left fs he)
  have hconnectslast := fun e he => hconnects e (List.mem_append_right es he)
  obtain ⟨hgossip, hsound, htrusts⟩ := gossip_run hd hstart htrusting hes hconnectsfirst
  obtain ⟨hall, hlast, -⟩ := gossip_run hd hstart htrusting hfits hconnects
  have hknown : ∀ i, i ≠ j → (address i).ipPort ∈
      ((run (next (p.printing d) (Parser.parse d) master) (start n)
        (es ++ fs)).process j).peers := by
    intro i hij
    have hstar : i ∈ (run Gossip.next (gossip address (start n))
        (talks (p.printing d) (Parser.parse d) master (start n) es ++
          talks (p.printing d) (Parser.parse d) master
            (run (next (p.printing d) (Parser.parse d) master) (start n) es) fs)).known j := by
      refine Gossip.known_of_star master (fun i hi => ?_) (fun j hj => ?_) hij
      · exact delivers_gossip hd hstart htrusting hes hconnectsfirst (hto i hi)
      · rw [← hgossip]
        exact delivers_gossip hd hsound htrusts hfs hconnectslast (hfrom j hj)
    rw [← talks_append, ← hall] at hstar
    exact hstar
  refine ⟨(hlast.process j).sound.1, fun peer => ⟨fun hpeer => ?_, ?_⟩⟩
  · obtain ⟨i, rfl⟩ := (hlast.process j).peers peer hpeer
    refine ⟨i, ?_, rfl⟩
    rintro rfl
    refine (hlast.process i).sound.2 ?_
    unfold SocketCommunication.thisNode
    rwa [(hlast.process i).sc]
  · rintro ⟨i, hij, rfl⟩
    exact hknown i hij

/-- Two nodes greet the genesis node, and the second one learns of the third. -/
theorem everybody_listed_reference :
    let es : List (Contact (Fin 3)) :=
      [.greet 1 0, .greet 2 0, .hear 0 (Reference.tick 1) [7], .hear 1 (Reference.tick 2) []]
    let fs : List (Contact (Fin 3)) :=
      [.greet 0 1, .greet 0 2, .hear 2 (Reference.tick 3) [], .hear 3 (Reference.tick 4) [1, 2]]
    "127.0.0.1:10003" ∈ ((run (next (Reference.platform.printing Reference.doubles)
      (Parser.parse Reference.doubles) 0) (start Reference.nodes) (es ++ fs)).process 1).peers := by
  intro es fs
  have hconnects : ∀ e ∈ es ++ fs, Connects e :=
    List.forall_mem_append.mpr ⟨by simp [es, Connects], by simp [fs, Connects]⟩
  have hthird : "127.0.0.1:10003" = (Reference.nodes 2).sc.ipPort := by decide +kernel
  have hlisted := everybody_listed Reference.platform Reference.doubles 0 _ Reference.nodes es fs
    Reference.distinct_nodes (fun _ => rfl) (by decide +kernel) hconnects ?_ ?_ 1
  · exact (hlisted.2 "127.0.0.1:10003").mpr ⟨2, by decide, hthird⟩
  · have hcases : ∀ i : Fin 3, i ≠ 0 → i = 1 ∨ i = 2 := by decide
    intro i hi
    rcases hcases i hi with rfl | rfl
    · exact delivers_of_sent (es.take 2) (es.drop 3) 0 (Reference.tick 1) [7] rfl le_rfl
        (by decide +kernel)
    · exact delivers_of_sent (es.take 3) [] 1 (Reference.tick 2) [] rfl (Nat.zero_le 1)
        (by decide +kernel)
  · have hcases : ∀ i : Fin 3, i ≠ 0 → i = 1 ∨ i = 2 := by decide
    intro j hj
    rcases hcases j hj with rfl | rfl
    · exact delivers_of_sent (fs.take 2) (fs.drop 3) 2 (Reference.tick 3) [] rfl (by decide +kernel)
        (by decide +kernel)
    · exact delivers_of_sent (fs.take 3) [] 3 (Reference.tick 4) [1, 2] rfl (by decide +kernel)
        (by decide +kernel)

end Spread

end Meeting

end Prawnstar
