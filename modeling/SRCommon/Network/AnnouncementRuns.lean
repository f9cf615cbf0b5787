import SRCommon.Network.Announcements

/-!
# Runs without failures

What each step of the network does to announcements.
-/

namespace SRCommon

variable {π γ : Type} [DecidableEq π] {H : Hosts π γ}

namespace Network

variable {n n' : Network π γ} {p q : π} {s t : Socket π} {host : Connection}
  {header : P2PConnectionHeader} {headers rest : List P2PConnectionHeader}

/-- Headers are on their way to a socket. -/
def append (n : Network π γ) (s : Socket π) (headers : List P2PConnectionHeader) : Network π γ :=
  { n with inFlight := Function.update n.inFlight s (n.inFlight s ++ headers) }

@[simp] theorem append_nil (n : Network π γ) (s : Socket π) : n.append s [] = n := by
  rw [append, List.append_nil, Function.update_eq_self]

theorem append_append : (n.append s headers).append s rest = n.append s (headers ++ rest) := by
  dsimp only [append]
  rw [Function.update_self, Function.update_idem, List.append_assoc]

theorem inFlight_append_self : (n.append s headers).inFlight s = n.inFlight s ++ headers :=
  Function.update_self _ _ _

theorem inFlight_append_of_ne (h : t ≠ s) : (n.append s headers).inFlight t = n.inFlight t :=
  Function.update_of_ne h _ _

theorem send_of_open (hclosed : n.isClosed s = false) (hup : n.isDown s.link = false) :
    n.send s header = (n.append s.other [header], true) := by
  rw [send, hclosed, hup]
  rfl

theorem onAccept_of_open (hclosed : n.isClosed s = false) (hup : n.isDown s.link = false) :
    n.onAccept H s = (n.append s.other [p2pAnnounceHeader (H.acceptor s.owner)]).modifyPeer s.owner
      fun this => this.insertNewPeer s := by
  rw [onAccept, send_of_open hclosed hup]
  rfl

theorem mem_newPeers_insertNewPeer (ht : t ∈ ((n.modifyPeer p fun this =>
    this.insertNewPeer s).peer q).newPeers) : t ∈ (n.peer q).newPeers ∨ t = s ∧ q = p := by
  by_cases hq : q = p
  · subst hq
    rw [peer_modifyPeer_self] at ht
    exact (PeerToPeer.mem_newPeers_insertNewPeer.mp ht).symm.imp_right fun ht => ⟨ht, rfl⟩
  · rw [peer_modifyPeer_of_ne hq] at ht
    exact Or.inl ht

theorem connections_insertNewPeer : ((n.modifyPeer p fun this =>
    this.insertNewPeer s).peer q).connections = (n.peer q).connections := by
  by_cases hq : q = p
  · subst hq
    rw [peer_modifyPeer_self]
    rfl
  · rw [peer_modifyPeer_of_ne hq]

theorem newPeers_insertNewPeer_owner : t ∈ ((n.modifyPeer s.owner fun this =>
    this.insertNewPeer s).peer t.owner).newPeers ↔ t = s ∨ t ∈ (n.peer t.owner).newPeers := by
  by_cases ht : t.owner = s.owner
  · rw [ht, peer_modifyPeer_self]
    exact PeerToPeer.mem_newPeers_insertNewPeer
  · rw [peer_modifyPeer_of_ne ht]
    refine ⟨Or.inr, fun h => h.resolve_left ?_⟩
    rintro rfl
    exact ht rfl

/-- With other ends and other waiting ends, the new one announces its peer. -/
theorem announces_append {sockets waiting : List (Socket π)}
    (hsockets : ∀ t ∈ n.sockets, t ∈ sockets) (hother : ∀ t ∈ sockets, t.other ∈ sockets)
    (haccepted : ∀ t ∈ waiting, t.isAccepted = true)
    (hunsent : ¬ n.Sent s.other) (hunheard : ¬ n.Heard s)
    (hsent : ∀ t, t ∈ sockets ∧ t.other ∉ waiting ↔ n.Sent t ∨ t = s.other)
    (hheard : ∀ t, t ≠ s → (t ∈ sockets ∧ t ∉ waiting ↔ t ∈ n.sockets ∧ t ∉ n.waiting)) :
    Announces H n ((append { n with sockets, waiting } s.other
      [p2pAnnounceHeader (H.acceptor s.owner)]).modifyPeer s.owner fun this =>
        this.insertNewPeer s) s where
  sockets := hsockets
  other := hother
  accepted := haccepted
  isDown := rfl
  isClosed := rfl
  queues := rfl
  newPeers p t ht := mem_newPeers_insertNewPeer ht
  connections p := connections_insertNewPeer
  unsent := hunsent
  sent := hsent
  heard t := by
    rw [Heard, newPeers_insertNewPeer_owner]
    by_cases ht : t = s
    · subst ht
      exact iff_of_false (fun h => h.2.2 (Or.inl rfl)) hunheard
    · rw [or_iff_right ht, ← and_assoc]
      change (t ∈ sockets ∧ t ∉ waiting) ∧ t ∉ (n.peer t.owner).newPeers ↔ _
      rw [hheard t ht, and_assoc, Heard]
  inFlight := Function.update_self _ _ _
  inFlight_of_ne t ht := Function.update_of_ne ht _ _

theorem connect_of_none (hhost : H.listening host = none) : (n.connect H p host).1 = n := by
  rw [connect, connectInternal, hhost]

theorem connect_of_some (h : n.Joining H) (hsound : n.Sound H) (hhost : H.listening host = some q) :
    (n.connect H p host).1 = ((n.link (n.newSocket p q)).append (n.newSocket p q).other
      [p2pAnnounceHeader (H.acceptor p)]).modifyPeer p fun this =>
        this.insertNewPeer (n.newSocket p q) := by
  have hclosed : (n.link (n.newSocket p q)).isClosed (n.newSocket p q) = false := by
    rw [Bool.eq_false_iff]
    exact fun hclosed => newSocket_notMem hsound.fresh (h.closed _ hclosed).1.1
  rw [connect, connectInternal, hhost]
  simp only [if_true]
  rw [send_of_open hclosed (h.isUp _)]
  rfl

theorem connect_announces (h : n.Joining H) (hsound : n.Sound H)
    (hhost : H.listening host = some q) :
    Announces H n (n.connect H p host).1 (n.newSocket p q) := by
  have hnew : ∀ s ∈ n.sockets, s ≠ n.newSocket p q ∧ s ≠ (n.newSocket p q).other := by
    refine fun s hs => ⟨?_, ?_⟩
    · rintro rfl
      exact newSocket_notMem hsound.fresh hs
    · rintro rfl
      exact newSocket_notMem hsound.fresh (by simpa using h.other _ hs)
  rw [connect_of_some h hsound hhost]
  refine announces_append ?_ ?_ ?_ ?_ ?_ ?_ ?_
  · exact fun t ht => List.mem_cons_of_mem _ (List.mem_cons_of_mem _ ht)
  · intro t ht
    simp only [List.mem_cons] at ht ⊢
    rcases ht with rfl | rfl | ht
    · exact Or.inr (Or.inl rfl)
    · exact Or.inl (Socket.other_other _)
    · exact Or.inr (Or.inr (h.other t ht))
  · intro t ht
    rcases List.mem_cons.mp ht with rfl | ht
    · rfl
    · exact h.accepted t ht
  · exact fun hsent => (hnew _ hsent.1).2 rfl
  · exact fun hheard => (hnew _ hheard.1).1 rfl
  · intro t
    simp only [List.mem_cons, Sent, not_or, Socket.other_eq_iff, Socket.other_other]
    constructor
    · rintro ⟨rfl | rfl | ht, hne, hwaiting⟩
      · exact absurd rfl hne
      · exact Or.inr rfl
      · exact Or.inl ⟨ht, hwaiting⟩
    · rintro (⟨ht, hwaiting⟩ | rfl)
      · exact ⟨Or.inr (Or.inr ht), (hnew t ht).1, hwaiting⟩
      · refine ⟨Or.inr (Or.inl rfl), Socket.other_ne _, fun hwaiting => ?_⟩
        rw [Socket.other_other] at hwaiting
        exact newSocket_notMem hsound.fresh (hsound.waiting _ hwaiting)
  · intro t ht
    simp only [List.mem_cons, not_or]
    constructor
    · rintro ⟨hmem, hne, hwaiting⟩
      exact ⟨(hmem.resolve_left ht).resolve_left hne, hwaiting⟩
    · rintro ⟨hmem, hwaiting⟩
      exact ⟨Or.inr (Or.inr hmem), (hnew t hmem).2, hwaiting⟩

theorem accept_announces (h : n.Joining H) (hsound : n.Sound H) (hs : s ∈ n.waiting) :
    Announces H n (n.accept H s) s := by
  have hunheard : ¬ n.Heard s := fun hheard => hheard.2.1 hs
  have hother : s.other ∉ n.waiting := by
    intro hwaiting
    have haccepted := h.accepted _ hwaiting
    rw [Socket.other, h.accepted s hs] at haccepted
    cases haccepted
  have heq : n.accept H s = (append { n with
      sockets := n.sockets, waiting := n.waiting.filter fun t => t ≠ s } s.other
        [p2pAnnounceHeader (H.acceptor s.owner)]).modifyPeer s.owner fun this =>
          this.insertNewPeer s := by
    have hclosed : n.isClosed s = false := by
      rw [Bool.eq_false_iff]
      exact fun hclosed => hunheard (h.closed s hclosed).1
    exact onAccept_of_open hclosed (h.isUp _)
  rw [heq]
  have hwaiting : ∀ t, t ∉ n.waiting.filter (fun t => t ≠ s) ↔ t ∉ n.waiting ∨ t = s := by
    intro t
    rw [List.mem_filter, decide_eq_true_iff, not_and_or, not_not]
  refine announces_append (fun t ht => ht) h.other ?_ ?_ hunheard ?_ ?_
  · exact fun t ht => h.accepted t (List.mem_filter.mp ht).1
  · rintro ⟨-, hnot⟩
    rw [Socket.other_other] at hnot
    exact hnot hs
  · intro t
    rw [hwaiting, Socket.other_eq_iff, Sent]
    constructor
    · rintro ⟨ht, hnot | rfl⟩
      · exact Or.inl ⟨ht, hnot⟩
      · exact Or.inr rfl
    · rintro (⟨ht, hnot⟩ | rfl)
      · exact ⟨ht, Or.inl hnot⟩
      · exact ⟨h.other s (hsound.waiting s hs), Or.inr rfl⟩
  · intro t ht
    rw [hwaiting, or_iff_left ht]

/-- Which header comes first to an end that is new. -/
theorem Joining.new (h : n.Joining H) (hwaiting : s ∉ n.waiting)
    (hinFlight : n.inFlight s = header :: rest) (hs : ¬ n.Heard s) :
    header = p2pAnnounceHeader (H.acceptor s.remote) ∧ n.New H s rest := by
  have hsent : n.Sent s := by
    by_contra hunsent
    rw [(h.arrives s).unsent hunsent] at hinFlight
    cases hinFlight
  obtain ⟨rest', hfirst, htypes⟩ := (h.arrives s).first hsent hs
  rw [hinFlight] at hfirst
  obtain ⟨rfl, rfl⟩ := List.cons.inj hfirst
  refine ⟨rfl, hsent.1, hwaiting, ?_, hsent, hinFlight, htypes⟩
  by_contra hnew
  exact hs ⟨hsent.1, hwaiting, hnew⟩

/-- The next header is taken, with the sockets that are closed then. -/
def arrived (n : Network π γ) (s : Socket π) (rest : List P2PConnectionHeader)
    (isClosed : Socket π → Bool) : Network π γ :=
  { n with isClosed, inFlight := Function.update n.inFlight s rest }

section

variable {f : PeerToPeer π → PeerToPeer π}

theorem mem_newPeers_modifyPeer
    (hf : (f (n.peer s.owner)).newPeers = ((n.peer s.owner).eraseNewPeer s).newPeers)
    (howner : ∀ p, s ∈ (n.peer p).newPeers → s.owner = p) :
    t ∈ ((n.modifyPeer s.owner f).peer p).newPeers ↔ t ∈ (n.peer p).newPeers ∧ t ≠ s := by
  by_cases hp : p = s.owner
  · subst hp
    rw [peer_modifyPeer_self, hf]
    exact PeerToPeer.mem_newPeers_eraseNewPeer
  · rw [peer_modifyPeer_of_ne hp, iff_self_and]
    rintro ht rfl
    exact hp (howner p ht).symm

theorem connections_modifyPeer (hf : (f (n.peer q)).connections = (n.peer q).connections) :
    ((n.modifyPeer q f).peer p).connections = (n.peer p).connections := by
  by_cases hp : p = q
  · subst hp
    rw [peer_modifyPeer_self, hf]
  · rw [peer_modifyPeer_of_ne hp]

theorem mem_connections_register (hs : s ∉ SortedMap.keys (n.peer q).connections)
    {host' : Connection} :
    (t, host') ∈ ((n.modifyPeer q fun this => this.register s H host).peer p).connections ↔
      (t, host') ∈ (n.peer p).connections ∨ p = q ∧ t = s ∧ host' = host := by
  by_cases hp : p = q
  · subst hp
    rw [peer_modifyPeer_self, (PeerToPeer.register_perm hs).mem_iff, List.mem_cons,
      Prod.mk.injEq, or_comm, and_iff_right rfl]
  · rw [peer_modifyPeer_of_ne hp, iff_self_or]
    exact fun h => absurd h.1 hp

end

theorem registerSocket_of_new (hnew : s ∈ (n.peer s.owner).newPeers)
    (hhost : (n.peer s.owner).hasConnection host = false) :
    n.registerSocket H s host = if H.acceptor s.owner = host then (n.close s, false)
      else (n.modifyPeer s.owner fun this => this.register s H host, true) := by
  have hown : (decide ((H.acceptor s.owner).address = host.address) &&
      decide ((H.acceptor s.owner).port = host.port)) = decide (H.acceptor s.owner = host) := by
    rw [← Bool.decide_and, decide_eq_decide]
    cases H.acceptor s.owner
    cases host
    rw [Connection.mk.injEq]
  simp only [registerSocket, hown, hhost, decide_eq_true_eq, hnew, not_true_eq_false,
    Bool.false_eq_true, if_false]

theorem Joining.arrived (h : n.Joining H) (hs : n.Heard s)
    (hinFlight : n.inFlight s = header :: rest) :
    (n.arrived s rest n.isClosed).Joining H := by
  refine h.of_sameBooks ⟨rfl, rfl, rfl⟩ rfl rfl (fun _ _ ht => ht) fun t => ?_
  by_cases ht : t = s
  · subst ht
    have hrest : (n.arrived t rest n.isClosed).inFlight t = rest := Function.update_self _ _ _
    exact (h.arrives t).tail ⟨rfl, rfl, rfl⟩ hs (by rw [hinFlight, hrest])
  · exact (h.arrives t).congr Iff.rfl Iff.rfl (Function.update_of_ne ht _ _)

theorem Joining.connect (h : n.Joining H) (hsound : n.Sound H) :
    (n.connect H p host).1.Joining H := by
  cases hhost : H.listening host with
  | none =>
      rw [connect_of_none hhost]
      exact h
  | some q => exact h.announces (connect_announces h hsound hhost)

/-- The connections of the peer, apart from the one over the socket itself. -/
def knownHosts (n : Network π γ) (s : Socket π) : List P2PConnectionHeader :=
  ((n.peer s.owner).connections.filter fun entry => entry.1 ≠ s).map fun entry =>
    p2pKnownHostHeader entry.2

theorem type_of_mem_knownHosts (h : header ∈ n.knownHosts s) : header.type = .knownHost := by
  obtain ⟨entry, -, rfl⟩ := List.mem_map.mp h
  rfl

theorem Joining.append (h : n.Joining H) (hs : n.Heard s)
    (hheaders : ∀ header ∈ headers, header.type = .knownHost) :
    (n.append s.other headers).Joining H := by
  refine h.of_sameBooks ⟨rfl, rfl, rfl⟩ rfl rfl (fun _ _ ht => ht) fun t => ?_
  by_cases ht : t = s.other
  · subst ht
    have hsent : n.Sent s.other := ⟨h.other s hs.1, by simpa using hs.2.1⟩
    exact (h.arrives _).append ⟨rfl, rfl, rfl⟩ hsent inFlight_append_self hheaders
  · exact (h.arrives t).congr Iff.rfl Iff.rfl (inFlight_append_of_ne ht)

theorem sendKnownHostsOf_of_open (hclosed : n.isClosed s = false) (hup : n.isDown s.link = false)
    (entries : List (Socket π × Connection)) :
    (sendKnownHostsOf s entries n).1 = n.append s.other
      ((entries.filter fun entry => entry.1 ≠ s).map fun entry => p2pKnownHostHeader entry.2) := by
  induction entries generalizing n with
  | nil => exact (append_nil n s.other).symm
  | cons entry entries ih =>
      rw [sendKnownHostsOf]
      by_cases hentry : entry.1 = s
      · rw [if_pos hentry, ih hclosed hup, List.filter_cons_of_neg (by simpa using hentry)]
      · rw [if_neg hentry, send_of_open hclosed hup,
          List.filter_cons_of_pos (by simpa using hentry), List.map_cons]
        exact (ih (n := n.append s.other [p2pKnownHostHeader entry.2]) hclosed hup).trans
          append_append

variable [DecidableEq γ]

/-- The peer is known by now, or it is the same peer: the end is only forgotten. -/
theorem hears_forget {f : Socket π → Bool} (h : n.Joining H)
    (hknows : s.owner ≠ s.remote → n.Knows H s.owner s.remote)
    (hclosed : ∀ t, f t = true → n.isClosed t = true ∨ t = s ∧ s.owner = s.remote) :
    Hears H n (((n.arrived s rest f).modifyPeer s.owner fun this =>
      this.eraseNewPeer s).addAsyncSendKnownHostsSocket H s) s rest where
  sockets := rfl
  waiting := rfl
  isDown := rfl
  closed := hclosed
  newPeers p t :=
    mem_newPeers_modifyPeer (n := n.arrived s rest f) (f := fun this => this.eraseNewPeer s) rfl
      fun p hp => h.owner p s hp
  connections p t host := by
    have hsame : (((n.arrived s rest f).modifyPeer s.owner fun this =>
        this.eraseNewPeer s).peer p).connections = (n.peer p).connections :=
      connections_modifyPeer (n := n.arrived s rest f) rfl
    refine (Iff.of_eq (congrArg (fun cs => (t, host) ∈ cs) hsame)).trans ?_
    rw [iff_self_or]
    rintro ⟨-, -, -, hne, hnot⟩
    exact absurd (hknows hne) hnot
  queues context t := mem_addAsyncSendKnownHostsSocket
  inFlight := Function.update_self _ _ _
  inFlight_of_ne t ht := Function.update_of_ne ht _ _

theorem hears_register (h : n.Joining H) (hsound : n.Sound H) (hs : n.New H s rest)
    (hne : s.owner ≠ s.remote) (hknows : ¬ n.Knows H s.owner s.remote) :
    Hears H n (((n.arrived s rest n.isClosed).modifyPeer s.owner fun this =>
      this.register s H (H.acceptor s.remote)).addAsyncSendKnownHostsSocket H s) s rest where
  sockets := rfl
  waiting := rfl
  isDown := rfl
  closed t ht := Or.inl ht
  newPeers p t :=
    mem_newPeers_modifyPeer (n := n.arrived s rest n.isClosed)
      (f := fun this => this.register s H (H.acceptor s.remote)) rfl fun p hp => h.owner p s hp
  connections p t host := by
    refine (mem_connections_register (n := n.arrived s rest n.isClosed)
      (hs.notMem_keys hsound)).trans (or_congr Iff.rfl ?_)
    simp only [hne, hknows, not_false_eq_true, and_true, ne_eq]
  queues context t := mem_addAsyncSendKnownHostsSocket
  inFlight := Function.update_self _ _ _
  inFlight_of_ne t ht := Function.update_of_ne ht _ _

theorem processMessage_announce (hkeys : s ∉ SortedMap.keys (n.peer s.owner).connections)
    (hnew : s ∈ (n.peer s.owner).newPeers) (htype : header.type = .announce)
    (haddress : header.iPv4 ≠ 0) (hport : header.port ≠ 0) :
    n.processMessage H s header =
      if (n.peer s.owner).hasConnection ⟨header.iPv4, header.port⟩ then
        (n.modifyPeer s.owner fun this => this.eraseNewPeer s).addAsyncSendKnownHostsSocket H s
      else if H.acceptor s.owner = ⟨header.iPv4, header.port⟩ then
        ((n.close s).modifyPeer s.owner fun this =>
          this.eraseNewPeer s).addAsyncSendKnownHostsSocket H s
      else
        (n.modifyPeer s.owner fun this =>
          this.register s H ⟨header.iPv4, header.port⟩).addAsyncSendKnownHostsSocket H s := by
  have hzero : ¬ (decide (header.iPv4 = 0) || decide (header.port = 0)) = true := by
    simp [haddress, hport]
  rw [processMessage]
  dsimp only
  rw [if_pos hkeys, if_pos htype, if_neg hzero]
  split
  · rfl
  · rename_i hknown
    rw [registerSocket_of_new hnew (Bool.eq_false_iff.mpr hknown)]
    split
    · rfl
    · rfl

theorem deliver_hears (hreach : H.Reachable) (h : n.Joining H) (hsound : n.Sound H)
    (hs : n.New H s rest) :
    Hears H n (n.deliver H s (p2pAnnounceHeader (H.acceptor s.remote)) rest) s rest := by
  have hclosed : n.isClosed s = false := by
    rw [Bool.eq_false_iff]
    exact fun hclosed => (h.closed s hclosed).1.2.2 hs.new
  have hkeys := hs.notMem_keys hsound
  have hdeliver : n.deliver H s (p2pAnnounceHeader (H.acceptor s.remote)) rest =
      (n.arrived s rest n.isClosed).processMessage H s
        (p2pAnnounceHeader (H.acceptor s.remote)) := by
    rw [deliver]
    exact if_neg (Bool.eq_false_iff.mp hclosed)
  rw [hdeliver]
  refine (congrArg (Hears H n · s rest) (processMessage_announce (n := n.arrived s rest n.isClosed)
    hkeys hs.new rfl (hreach.address _) (hreach.port _))).mpr ?_
  split
  · rename_i hknown
    exact hears_forget h (fun _ => hasConnection_iff_knows.mp hknown) fun t ht => Or.inl ht
  · rename_i hknown
    split
    · rename_i hown
      have hself : s.owner = s.remote := hreach.injective hown
      refine hears_forget h (fun hne => absurd hself hne) fun t ht => ?_
      by_cases hts : t = s
      · exact Or.inr ⟨hts, hself⟩
      · rw [Function.update_of_ne hts] at ht
        exact Or.inl ht
    · rename_i hown
      refine hears_register h hsound hs (fun hself => hown (congrArg _ hself)) fun hknows => ?_
      exact hknown (hasConnection_iff_knows.mpr hknows)

/-- A known host matters to a registered end only. -/
theorem deliver_knownHost (htype : header.type = .knownHost) :
    n.deliver H s header rest =
      if n.isClosed s = true ∨ s ∉ SortedMap.keys (n.peer s.owner).connections ∨
        header.iPv4 = 0 ∨ header.port = 0 then n.arrived s rest n.isClosed
      else ((n.arrived s rest n.isClosed).connect H s.owner ⟨header.iPv4, header.port⟩).1 := by
  have hannounce : header.type ≠ .announce := by
    rw [htype]
    exact P2PMessageType.noConfusion
  by_cases hclosed : n.isClosed s = true
  · exact (if_pos hclosed).trans (if_pos (Or.inl hclosed)).symm
  · refine (if_neg hclosed).trans ?_
    rw [processMessage]
    by_cases hkeys : s ∉ SortedMap.keys (n.peer s.owner).connections
    · rw [if_pos (Or.inr (Or.inl hkeys))]
      exact (if_pos hkeys).trans (if_neg hannounce)
    · refine (if_neg hkeys).trans ((if_pos htype).trans (if_congr ?_ rfl rfl))
      simp only [Bool.or_eq_true, decide_eq_true_eq, or_iff_right hclosed, or_iff_right hkeys]

theorem Joining.deliver (hreach : H.Reachable) (h : n.Joining H) (hsound : n.Sound H)
    (hwaiting : s ∉ n.waiting) (hinFlight : n.inFlight s = header :: rest) :
    (n.deliver H s header rest).Joining H := by
  by_cases hs : n.Heard s
  · have htypes := ((h.arrives s).rest hs).2
    rw [hinFlight] at htypes
    have hjoining := h.arrived hs hinFlight
    rw [deliver_knownHost (List.forall_mem_cons.mp htypes).1]
    split
    · exact hjoining
    · exact hjoining.connect (hsound.of_sameBooks ⟨rfl, rfl, rfl⟩)
  · obtain ⟨rfl, hnew⟩ := h.new hwaiting hinFlight hs
    exact h.hears hnew (deliver_hears hreach h hsound hnew)

/-- What one round of `Poll` does. -/
theorem pollSocket_cons (h : n.Joining H) {context : γ} {queue : List (Socket π)}
    (hqueue : n.asyncSendKnownHostsSockets context = s :: queue) :
    n.pollSocket context =
      if n.isClosed s then n.setQueue context queue
      else if (n.peer s.owner).newPeers.length > 0 then n.setQueue context (queue ++ [s])
      else (n.setQueue context queue).append s.other (n.knownHosts s) := by
  rw [pollSocket, hqueue]
  dsimp only
  by_cases hclosed : n.isClosed s = true
  · rw [if_pos hclosed]
    exact if_pos hclosed
  · rw [if_neg hclosed]
    refine (if_neg hclosed).trans (if_congr Iff.rfl ?_ ?_)
    · dsimp only [setQueue]
      rw [Function.update_idem]
    · exact sendKnownHostsOf_of_open (n := n.setQueue context queue)
        (Bool.eq_false_iff.mpr hclosed) (h.isUp _) _

theorem Joining.pollSocket (h : n.Joining H) (context : γ) : (n.pollSocket context).Joining H := by
  cases hqueue : n.asyncSendKnownHostsSockets context with
  | nil =>
      rw [Network.pollSocket, hqueue]
      exact h
  | cons s queue =>
      have hmem : ∀ t ∈ s :: queue, t ∈ n.asyncSendKnownHostsSockets context := by
        rw [hqueue]
        exact fun t ht => ht
      have hset : (n.setQueue context queue).Joining H := h.setQueue fun t ht =>
        hmem t (List.mem_cons_of_mem _ ht)
      rw [pollSocket_cons h hqueue]
      split
      · exact hset
      · split
        · exact h.setQueue fun t ht => hmem t (by simpa [or_comm] using ht)
        · have hs : n.Heard s := (h.queued context s (hmem s (List.mem_cons_self ..))).1
          exact hset.append hs fun header hheader => type_of_mem_knownHosts hheader

theorem pollSockets_invariant {I : Network π γ → Prop} {context : γ}
    (hstep : ∀ n, I n → I (n.pollSocket context)) (hn : I n) (count : ℕ) :
    I (pollSockets context count n) := by
  induction count generalizing n with
  | zero => exact hn
  | succ count ih => exact ih (hstep n hn)

theorem Joining.step (hreach : H.Reachable) (h : n.Joining H) (hsound : n.Sound H)
    {i : NetworkStep π γ} (hi : i.isFault = false) {r : Network π γ × Unit}
    (hr : n.step H i = some r) : r.1.Joining H := by
  cases i with
  | connect p host =>
      cases hr
      exact h.connect hsound
  | accept s =>
      obtain ⟨hs, rfl⟩ := step_accept hr
      exact h.announces (accept_announces h hsound hs)
  | deliver s =>
      obtain ⟨header, rest, hwaiting, hinFlight, rfl⟩ := step_deliver hr
      exact h.deliver hreach hsound hwaiting hinFlight
  | poll context =>
      cases hr
      exact pollSockets_invariant (fun n hn => hn.pollSocket context) h _
  | fail link => cases hi

/-- What the steps of a run without failures keep, beside what is known of the network. -/
theorem invariant_of_run {I : Network π γ → Prop} (hreach : H.Reachable) (hstart : I {})
    (hstep : ∀ n i r, n.Sound H → n.Joining H → I n → i.isFault = false →
      n.step H i = some r → I r.1)
    {steps : List (NetworkStep π γ)} (hsteps : ∀ i ∈ steps, i.isFault = false)
    (h : run H steps = some n) : n.Sound H ∧ n.Joining H ∧ I n := by
  obtain ⟨r, hrun, rfl⟩ := Option.map_eq_some_iff.mp h
  have halong : Steps.Along (fun (n : Network π γ) i => n.step H i)
      (fun _ i => i.isFault = false) {} steps :=
    Steps.along_of_forall_mem (fun i hi _ => hsteps i hi) _
  refine halong.invariant (I := fun n => n.Sound H ∧ n.Joining H ∧ I n) ?_
    ⟨sound_start H, joining_start H, hstart⟩ hrun
  rintro n i r ⟨hsound, hjoining, hI⟩ hi hr
  exact ⟨hsound.step hr, hjoining.step hreach hsound hi hr, hstep n i r hsound hjoining hI hi hr⟩

end Network

end SRCommon
