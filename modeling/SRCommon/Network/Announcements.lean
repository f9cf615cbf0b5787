import SRCommon.Network.Registrations

/-!
# Announcements

Each end of a link announces its peer when it is made or accepted. Without
failures this is the first header that comes to the other end, and it decides
whether that end is registered.
-/

namespace SRCommon

variable {π γ : Type} {H : Hosts π γ}

@[simp] theorem Socket.other_other (s : Socket π) : s.other.other = s := by
  obtain ⟨link, isAccepted, owner, remote⟩ := s
  simp [Socket.other]

theorem Socket.other_eq_iff {s t : Socket π} : t.other = s ↔ t = s.other := by
  constructor
  · rintro rfl
    exact t.other_other.symm
  · rintro rfl
    exact s.other_other

theorem Socket.other_ne (s : Socket π) : s.other ≠ s := by
  obtain ⟨link, isAccepted, owner, remote⟩ := s
  simp [Socket.other]

/-- Every peer is found at its address, which can be announced. -/
structure Hosts.Reachable (H : Hosts π γ) : Prop where
  listening : ∀ p, H.listening (H.acceptor p) = some p
  address : ∀ p, (H.acceptor p).address ≠ 0
  port : ∀ p, (H.acceptor p).port ≠ 0

theorem Hosts.Reachable.injective (h : H.Reachable) : Function.Injective H.acceptor := by
  intro p q hpq
  have hlistening := h.listening p
  rw [hpq, h.listening q] at hlistening
  exact (Option.some.inj hlistening).symm

namespace Network

/-- The announcement of the other peer has come to this end. -/
def Heard (n : Network π γ) (s : Socket π) : Prop :=
  s ∈ n.sockets ∧ s ∉ n.waiting ∧ s ∉ (n.peer s.owner).newPeers

/-- The other peer has announced itself to this end. -/
def Sent (n : Network π γ) (s : Socket π) : Prop := s ∈ n.sockets ∧ s.other ∉ n.waiting

/-- The first peer has registered the address of the second one. -/
def Knows (H : Hosts π γ) (n : Network π γ) (p q : π) : Prop :=
  ∃ s, (s, H.acceptor q) ∈ (n.peer p).connections

/-- What is on its way to a socket: an announcement if none has come, then known hosts. -/
structure Arrives (H : Hosts π γ) (n : Network π γ) (s : Socket π) : Prop where
  unsent : ¬ n.Sent s → n.inFlight s = []
  first : n.Sent s → ¬ n.Heard s → ∃ rest,
    n.inFlight s = p2pAnnounceHeader (H.acceptor s.remote) :: rest ∧
      ∀ header ∈ rest, header.type = .knownHost
  rest : n.Heard s → n.Sent s ∧ ∀ header ∈ n.inFlight s, header.type = .knownHost

/-- Peers know each other by announcements only. -/
structure Joining (H : Hosts π γ) (n : Network π γ) : Prop where
  other : ∀ s ∈ n.sockets, s.other ∈ n.sockets
  accepted : ∀ s ∈ n.waiting, s.isAccepted = true
  owner : ∀ p, ∀ s ∈ (n.peer p).newPeers, s.owner = p
  isUp : ∀ link, n.isDown link = false
  closed : ∀ s, n.isClosed s = true → n.Heard s ∧ s.owner = s.remote
  queued : ∀ context, ∀ s ∈ n.asyncSendKnownHostsSockets context,
    n.Heard s ∧ H.context s.owner = context
  registered : ∀ p s host, (s, host) ∈ (n.peer p).connections →
    s.owner = p ∧ n.Heard s ∧ host = H.acceptor s.remote ∧ s.remote ≠ p
  known : ∀ s, n.Heard s → s.owner ≠ s.remote → n.Knows H s.owner s.remote
  arrives : ∀ s, n.Arrives H s

variable {n n' : Network π γ} {p q : π} {s t : Socket π} {host : Connection}
  {header : P2PConnectionHeader} {headers : List P2PConnectionHeader}

theorem SameBooks.heard (h : SameBooks n n') : n'.Heard t ↔ n.Heard t := by
  rw [Heard, Heard, h.peer, h.sockets, h.waiting]

theorem SameBooks.sent (h : SameBooks n n') : n'.Sent t ↔ n.Sent t := by
  rw [Sent, Sent, h.sockets, h.waiting]

theorem Arrives.congr (h : n.Arrives H t) (hsent : n'.Sent t ↔ n.Sent t)
    (hheard : n'.Heard t ↔ n.Heard t) (hinFlight : n'.inFlight t = n.inFlight t) :
    n'.Arrives H t := by
  refine ⟨?_, ?_, ?_⟩
  · rw [hsent, hinFlight]
    exact h.unsent
  · rw [hsent, hheard, hinFlight]
    exact h.first
  · rw [hsent, hheard, hinFlight]
    exact h.rest

theorem hasConnection_iff_knows :
    (n.peer p).hasConnection (H.acceptor q) = true ↔ n.Knows H p q := by
  rw [PeerToPeer.hasConnection_iff, List.mem_map, Knows]
  constructor
  · rintro ⟨⟨s, host⟩, hmem, rfl⟩
    exact ⟨s, hmem⟩
  · rintro ⟨s, hmem⟩
    exact ⟨_, hmem, rfl⟩

/-- A new end is made by a connection or kept by an acceptor, and its peer announces itself. -/
structure Announces (H : Hosts π γ) (n n' : Network π γ) (s : Socket π) : Prop where
  sockets : ∀ t ∈ n.sockets, t ∈ n'.sockets
  other : ∀ t ∈ n'.sockets, t.other ∈ n'.sockets
  accepted : ∀ t ∈ n'.waiting, t.isAccepted = true
  isDown : n'.isDown = n.isDown
  isClosed : n'.isClosed = n.isClosed
  queues : n'.asyncSendKnownHostsSockets = n.asyncSendKnownHostsSockets
  newPeers : ∀ p, ∀ t ∈ (n'.peer p).newPeers, t ∈ (n.peer p).newPeers ∨ t = s ∧ p = s.owner
  connections : ∀ p, (n'.peer p).connections = (n.peer p).connections
  unsent : ¬ n.Sent s.other
  sent : ∀ t, n'.Sent t ↔ n.Sent t ∨ t = s.other
  heard : ∀ t, n'.Heard t ↔ n.Heard t
  inFlight : n'.inFlight s.other =
    n.inFlight s.other ++ [p2pAnnounceHeader (H.acceptor s.owner)]
  inFlight_of_ne : ∀ t, t ≠ s.other → n'.inFlight t = n.inFlight t

theorem Joining.announces (h : n.Joining H) (hn : Announces H n n' s) : n'.Joining H where
  other := hn.other
  accepted := hn.accepted
  owner p t ht := by
    rcases hn.newPeers p t ht with ht | ⟨rfl, rfl⟩
    · exact h.owner p t ht
    · rfl
  isUp link := by
    rw [hn.isDown]
    exact h.isUp link
  closed t ht := by
    rw [hn.isClosed] at ht
    rw [hn.heard]
    exact h.closed t ht
  queued context t ht := by
    rw [hn.queues] at ht
    rw [hn.heard]
    exact h.queued context t ht
  registered p t host ht := by
    rw [hn.connections] at ht
    rw [hn.heard]
    exact h.registered p t host ht
  known t ht hne := by
    rw [Knows, hn.connections]
    exact h.known t ((hn.heard t).mp ht) hne
  arrives t := by
    by_cases ht : t = s.other
    · subst ht
      have hnot : ¬ n.Heard s.other := fun hheard => hn.unsent ((h.arrives _).rest hheard).1
      have hnone := (h.arrives s.other).unsent hn.unsent
      refine ⟨fun hunsent => ?_, fun _ _ => ⟨[], ?_, ?_⟩, fun hheard => ?_⟩
      · exact absurd ((hn.sent _).mpr (Or.inr rfl)) hunsent
      · rw [hn.inFlight, hnone]
        rfl
      · exact fun header hmem => absurd hmem List.not_mem_nil
      · exact absurd ((hn.heard _).mp hheard) hnot
    · refine (h.arrives t).congr ?_ (hn.heard t) (hn.inFlight_of_ne t ht)
      rw [hn.sent, or_iff_left ht]

/-- An announcement has come to an end that was new. -/
structure Hears (H : Hosts π γ) (n n' : Network π γ) (s : Socket π)
    (rest : List P2PConnectionHeader) : Prop where
  sockets : n'.sockets = n.sockets
  waiting : n'.waiting = n.waiting
  isDown : n'.isDown = n.isDown
  closed : ∀ t, n'.isClosed t = true → n.isClosed t = true ∨ t = s ∧ s.owner = s.remote
  newPeers : ∀ p t, t ∈ (n'.peer p).newPeers ↔ t ∈ (n.peer p).newPeers ∧ t ≠ s
  connections : ∀ p t host, (t, host) ∈ (n'.peer p).connections ↔
    (t, host) ∈ (n.peer p).connections ∨ p = s.owner ∧ t = s ∧ host = H.acceptor s.remote ∧
      s.owner ≠ s.remote ∧ ¬ n.Knows H s.owner s.remote
  queues : ∀ context t, t ∈ n'.asyncSendKnownHostsSockets context ↔
    t ∈ n.asyncSendKnownHostsSockets context ∨ t = s ∧ context = H.context s.owner
  inFlight : n'.inFlight s = rest
  inFlight_of_ne : ∀ t, t ≠ s → n'.inFlight t = n.inFlight t

/-- The end is in the network and new, and the rest of what comes to it are known hosts. -/
structure New (H : Hosts π γ) (n : Network π γ) (s : Socket π)
    (rest : List P2PConnectionHeader) : Prop where
  socket : s ∈ n.sockets
  accepted : s ∉ n.waiting
  new : s ∈ (n.peer s.owner).newPeers
  sent : n.Sent s
  inFlight : n.inFlight s = p2pAnnounceHeader (H.acceptor s.remote) :: rest
  rest : ∀ header ∈ rest, header.type = .knownHost

theorem New.notMem_keys {rest : List P2PConnectionHeader} (hs : n.New H s rest)
    (hsound : n.Sound H) : s ∉ SortedMap.keys (n.peer s.owner).connections :=
  (hsound.consistent _).apart s hs.new

theorem Hears.heard {rest : List P2PConnectionHeader} (hn : Hears H n n' s rest)
    (hs : n.New H s rest) (t : Socket π) : n'.Heard t ↔ n.Heard t ∨ t = s := by
  rw [Heard, Heard, hn.sockets, hn.waiting, hn.newPeers]
  by_cases ht : t = s
  · subst ht
    exact ⟨fun _ => Or.inr rfl, fun _ => ⟨hs.socket, hs.accepted, fun h => h.2 rfl⟩⟩
  · rw [and_iff_left ht, or_iff_left ht]

theorem Hears.sent {rest : List P2PConnectionHeader} (hn : Hears H n n' s rest) (t : Socket π) :
    n'.Sent t ↔ n.Sent t := by
  rw [Sent, Sent, hn.sockets, hn.waiting]

theorem Hears.knows {rest : List P2PConnectionHeader} (hn : Hears H n n' s rest)
    (h : n.Knows H p q) : n'.Knows H p q := by
  obtain ⟨t, ht⟩ := h
  exact ⟨t, (hn.connections p t _).mpr (Or.inl ht)⟩

theorem Hears.knows_self {rest : List P2PConnectionHeader} (hn : Hears H n n' s rest)
    (hne : s.owner ≠ s.remote) : n'.Knows H s.owner s.remote := by
  by_cases h : n.Knows H s.owner s.remote
  · exact hn.knows h
  · exact ⟨s, (hn.connections _ s _).mpr (Or.inr ⟨rfl, rfl, rfl, hne, h⟩)⟩

theorem Joining.hears {rest : List P2PConnectionHeader} (h : n.Joining H) (hs : n.New H s rest)
    (hn : Hears H n n' s rest) : n'.Joining H where
  other := by
    rw [hn.sockets]
    exact h.other
  accepted := by
    rw [hn.waiting]
    exact h.accepted
  owner p t ht := h.owner p t ((hn.newPeers p t).mp ht).1
  isUp link := by
    rw [hn.isDown]
    exact h.isUp link
  closed t ht := by
    rw [hn.heard hs]
    rcases hn.closed t ht with ht | ⟨rfl, hself⟩
    · exact (h.closed t ht).imp_left Or.inl
    · exact ⟨Or.inr rfl, hself⟩
  queued context t ht := by
    rw [hn.heard hs]
    rcases (hn.queues context t).mp ht with ht | ⟨rfl, rfl⟩
    · exact (h.queued context t ht).imp_left Or.inl
    · exact ⟨Or.inr rfl, rfl⟩
  registered p t host ht := by
    rw [hn.heard hs]
    rcases (hn.connections p t host).mp ht with ht | ⟨rfl, rfl, rfl, hne, -⟩
    · obtain ⟨howner, hheard, hrest⟩ := h.registered p t host ht
      exact ⟨howner, Or.inl hheard, hrest⟩
    · exact ⟨rfl, Or.inr rfl, rfl, hne.symm⟩
  known t ht hne := by
    rcases (hn.heard hs t).mp ht with ht | rfl
    · exact hn.knows (h.known t ht hne)
    · exact hn.knows_self hne
  arrives t := by
    by_cases ht : t = s
    · subst ht
      refine ⟨fun hunsent => ?_, fun _ hnot => ?_, fun _ => ⟨?_, ?_⟩⟩
      · exact absurd ((hn.sent t).mpr hs.sent) hunsent
      · exact absurd ((hn.heard hs t).mpr (Or.inr rfl)) hnot
      · exact (hn.sent t).mpr hs.sent
      · rw [hn.inFlight]
        exact hs.rest
    · refine (h.arrives t).congr (hn.sent t) ?_ (hn.inFlight_of_ne t ht)
      rw [hn.heard hs, or_iff_left ht]

/-- What is on its way and what is queued may change. -/
theorem Joining.of_sameBooks (h : n.Joining H) (hsame : SameBooks n n')
    (hdown : n'.isDown = n.isDown) (hclosed : n'.isClosed = n.isClosed)
    (hqueued : ∀ context, ∀ t ∈ n'.asyncSendKnownHostsSockets context,
      t ∈ n.asyncSendKnownHostsSockets context)
    (harrives : ∀ t, n'.Arrives H t) : n'.Joining H where
  other := by
    rw [hsame.sockets]
    exact h.other
  accepted := by
    rw [hsame.waiting]
    exact h.accepted
  owner := by
    rw [hsame.peer]
    exact h.owner
  isUp link := by
    rw [hdown]
    exact h.isUp link
  closed t ht := by
    rw [hclosed] at ht
    rw [hsame.heard]
    exact h.closed t ht
  queued context t ht := by
    rw [hsame.heard]
    exact h.queued context t (hqueued context t ht)
  registered p t host ht := by
    rw [hsame.peer] at ht
    rw [hsame.heard]
    exact h.registered p t host ht
  known t ht hne := by
    rw [Knows, hsame.peer]
    exact h.known t (hsame.heard.mp ht) hne
  arrives := harrives

/-- Known hosts that are sent come after the announcement. -/
theorem Arrives.append (h : n.Arrives H t) (hsame : SameBooks n n') (hsent : n.Sent t)
    (hinFlight : n'.inFlight t = n.inFlight t ++ headers)
    (hheaders : ∀ header ∈ headers, header.type = .knownHost) : n'.Arrives H t := by
  refine ⟨fun hunsent => ?_, fun _ hnot => ?_, fun hheard => ⟨hsame.sent.mpr hsent, ?_⟩⟩
  · exact absurd (hsame.sent.mpr hsent) hunsent
  · obtain ⟨rest, hrest, htypes⟩ := h.first hsent fun hheard => hnot (hsame.heard.mpr hheard)
    refine ⟨rest ++ headers, ?_, ?_⟩
    · rw [hinFlight, hrest, List.cons_append]
    · exact List.forall_mem_append.mpr ⟨htypes, hheaders⟩
  · rw [hinFlight]
    exact List.forall_mem_append.mpr ⟨(h.rest (hsame.heard.mp hheard)).2, hheaders⟩

/-- A known host has come. -/
theorem Arrives.tail (h : n.Arrives H t) (hsame : SameBooks n n') (hheard : n.Heard t)
    (hinFlight : n.inFlight t = header :: n'.inFlight t) : n'.Arrives H t := by
  obtain ⟨hsent, htypes⟩ := h.rest hheard
  refine ⟨fun hunsent => ?_, fun _ hnot => ?_, fun _ => ⟨hsame.sent.mpr hsent, ?_⟩⟩
  · exact absurd (hsame.sent.mpr hsent) hunsent
  · exact absurd (hsame.heard.mpr hheard) hnot
  · rw [hinFlight] at htypes
    exact (List.forall_mem_cons.mp htypes).2

theorem joining_start (H : Hosts π γ) : Joining H ({} : Network π γ) where
  other _ hs := absurd hs List.not_mem_nil
  accepted _ hs := absurd hs List.not_mem_nil
  owner _ _ hs := absurd hs List.not_mem_nil
  isUp _ := rfl
  closed _ hs := by cases hs
  queued _ _ hs := absurd hs List.not_mem_nil
  registered _ _ _ hs := absurd hs List.not_mem_nil
  known _ hs := absurd hs.1 List.not_mem_nil
  arrives s := by
    refine ⟨fun _ => rfl, fun hs => absurd hs.1 List.not_mem_nil, fun hs => ?_⟩
    exact absurd hs.1 List.not_mem_nil

variable [DecidableEq γ]

theorem mem_addAsyncSendKnownHostsSocket {context : γ} :
    t ∈ (n.addAsyncSendKnownHostsSocket H s).asyncSendKnownHostsSockets context ↔
      t ∈ n.asyncSendKnownHostsSockets context ∨ t = s ∧ context = H.context s.owner := by
  dsimp only [addAsyncSendKnownHostsSocket, setQueue]
  by_cases hcontext : context = H.context s.owner
  · subst hcontext
    rw [Function.update_self, List.mem_append, List.mem_singleton, and_iff_left rfl]
  · rw [Function.update_of_ne hcontext, iff_self_or]
    exact fun h => absurd h.2 hcontext

theorem mem_of_mem_setQueue {context context' : γ} {queue : List (Socket π)}
    (h : t ∈ (n.setQueue context queue).asyncSendKnownHostsSockets context') :
    t ∈ n.asyncSendKnownHostsSockets context' ∨ context' = context ∧ t ∈ queue := by
  by_cases hcontext : context' = context
  · subst hcontext
    exact Or.inr ⟨rfl, by simpa [setQueue] using h⟩
  · exact Or.inl (by simpa [setQueue, hcontext] using h)

theorem Joining.setQueue (h : n.Joining H) {context : γ} {queue : List (Socket π)}
    (hqueue : ∀ t ∈ queue, t ∈ n.asyncSendKnownHostsSockets context) :
    (n.setQueue context queue).Joining H := by
  refine h.of_sameBooks ⟨rfl, rfl, rfl⟩ rfl rfl (fun context' t ht => ?_) fun t =>
    (h.arrives t).congr Iff.rfl Iff.rfl rfl
  rcases mem_of_mem_setQueue ht with hold | ⟨rfl, hnew⟩
  · exact hold
  · exact hqueue t hnew

end Network

end SRCommon
