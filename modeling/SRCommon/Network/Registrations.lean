import SRCommon.Network.PeerToPeer

/-!
# What a peer has registered

Sockets come to a peer when they are new to the network or wait for its
acceptor, and leave `m_newPeers` when they are registered.
-/

namespace SRCommon

variable {π γ : Type} {H : Hosts π γ}

namespace PeerToPeer

structure Consistent (acceptor : Connection) (this : PeerToPeer π) : Prop where
  different : (this.connections.map Prod.snd).Nodup
  notOwn : acceptor ∉ this.connections.map Prod.snd
  apart : ∀ s ∈ this.newPeers, s ∉ SortedMap.keys this.connections

/-- The sockets of the peer. -/
def Has (this : PeerToPeer π) (s : Socket π) : Prop :=
  s ∈ this.newPeers ∨ s ∈ SortedMap.keys this.connections

variable {this : PeerToPeer π} {acceptor host : Connection} {s t : Socket π}

theorem hasConnection_iff :
    this.hasConnection host = true ↔ host ∈ this.connections.map Prod.snd := by
  simp only [hasConnection, List.any_eq_true, Bool.and_eq_true, decide_eq_true_eq, List.mem_map]
  constructor
  · rintro ⟨entry, hentry, haddress, hport⟩
    refine ⟨entry, hentry, ?_⟩
    cases host
    cases haddress
    cases hport
    rfl
  · rintro ⟨entry, hentry, rfl⟩
    exact ⟨entry, hentry, rfl, rfl⟩

variable [DecidableEq π]

theorem mem_newPeers_insertNewPeer :
    t ∈ (this.insertNewPeer s).newPeers ↔ t = s ∨ t ∈ this.newPeers :=
  List.mem_insert_iff

theorem mem_newPeers_eraseNewPeer :
    t ∈ (this.eraseNewPeer s).newPeers ↔ t ∈ this.newPeers ∧ t ≠ s := by
  rw [eraseNewPeer, List.mem_filter, decide_eq_true_iff]

theorem Consistent.insertNewPeer (h : this.Consistent acceptor)
    (hs : s ∉ SortedMap.keys this.connections) : (this.insertNewPeer s).Consistent acceptor where
  different := h.different
  notOwn := h.notOwn
  apart t ht := by
    rcases mem_newPeers_insertNewPeer.mp ht with rfl | ht
    · exact hs
    · exact h.apart t ht

theorem Consistent.eraseNewPeer (h : this.Consistent acceptor) :
    (this.eraseNewPeer s).Consistent acceptor where
  different := h.different
  notOwn := h.notOwn
  apart t ht := h.apart t (mem_newPeers_eraseNewPeer.mp ht).1

theorem register_perm (hs : s ∉ SortedMap.keys this.connections) :
    ((this.register s H host).connections).Perm ((s, host) :: this.connections) :=
  SortedMap.insert_perm hs

theorem Consistent.register (h : this.Consistent acceptor)
    (hs : s ∉ SortedMap.keys this.connections) (hown : acceptor ≠ host)
    (hnew : this.hasConnection host = false) : (this.register s H host).Consistent acceptor := by
  have hperm : ((this.register s H host).connections.map Prod.snd).Perm
      (host :: this.connections.map Prod.snd) := (register_perm hs).map Prod.snd
  have hhost : host ∉ this.connections.map Prod.snd := by
    intro hmem
    rw [hasConnection_iff.mpr hmem] at hnew
    cases hnew
  refine ⟨?_, ?_, ?_⟩
  · rw [hperm.nodup_iff]
    exact List.nodup_cons.mpr ⟨hhost, h.different⟩
  · rw [hperm.mem_iff, List.mem_cons, not_or]
    exact ⟨hown, h.notOwn⟩
  · intro t ht hmem
    obtain ⟨ht, hne⟩ := mem_newPeers_eraseNewPeer.mp ht
    exact (SortedMap.mem_keys_insert.mp hmem).elim hne (h.apart t ht)

end PeerToPeer

namespace Network

variable {n n' : Network π γ} {p q : π} {s t : Socket π} {host : Connection}
  {header : P2PConnectionHeader}

/-- Peers and links are as they were. -/
structure SameBooks (n n' : Network π γ) : Prop where
  peer : n'.peer = n.peer
  sockets : n'.sockets = n.sockets
  waiting : n'.waiting = n.waiting

theorem SameBooks.refl (n : Network π γ) : SameBooks n n := ⟨rfl, rfl, rfl⟩

theorem SameBooks.trans {n₁ n₂ n₃ : Network π γ} (h : SameBooks n₁ n₂) (h' : SameBooks n₂ n₃) :
    SameBooks n₁ n₃ :=
  ⟨h'.peer.trans h.peer, h'.sockets.trans h.sockets, h'.waiting.trans h.waiting⟩

/-- Every peer is consistent, and its sockets are not waiting. -/
structure Sound (H : Hosts π γ) (n : Network π γ) : Prop where
  consistent : ∀ p, (n.peer p).Consistent (H.acceptor p)
  held : ∀ p s, (n.peer p).Has s → s ∈ n.sockets ∧ s ∉ n.waiting
  waiting : ∀ s ∈ n.waiting, s ∈ n.sockets
  fresh : ∀ s ∈ n.sockets, s.link < n.sockets.length

theorem Sound.of_sameBooks (h : n.Sound H) (hsame : SameBooks n n') : n'.Sound H := by
  obtain ⟨hpeer, hsockets, hwaiting⟩ := hsame
  refine ⟨?_, ?_, ?_, ?_⟩
  · rw [hpeer]
    exact h.consistent
  · rw [hpeer, hsockets, hwaiting]
    exact h.held
  · rw [hsockets, hwaiting]
    exact h.waiting
  · rw [hsockets]
    exact h.fresh

theorem newSocket_notMem (hfresh : ∀ s ∈ n.sockets, s.link < n.sockets.length) :
    n.newSocket p q ∉ n.sockets := fun hmem => lt_irrefl _ (hfresh _ hmem)

theorem newSocket_not_has (h : n.Sound H) : ¬ (n.peer p).Has (n.newSocket p q) := fun hs =>
  newSocket_notMem h.fresh (h.held p _ hs).1

theorem Sound.link (h : n.Sound H) : (n.link (n.newSocket p q)).Sound H where
  consistent := h.consistent
  held r s hs := by
    obtain ⟨hmem, hwaiting⟩ := h.held r s hs
    refine ⟨List.mem_cons_of_mem _ (List.mem_cons_of_mem _ hmem), ?_⟩
    rintro (- | ⟨-, hs⟩)
    · exact lt_irrefl _ (h.fresh _ hmem)
    · exact hwaiting hs
  waiting s hs := by
    rcases List.mem_cons.mp hs with rfl | hs
    · exact List.mem_cons_of_mem _ (List.mem_cons_self ..)
    · exact List.mem_cons_of_mem _ (List.mem_cons_of_mem _ (h.waiting s hs))
  fresh s hs := by
    rw [Network.link, List.length_cons, List.length_cons]
    rcases List.mem_cons.mp hs with rfl | hs
    · exact Nat.lt_add_of_pos_right Nat.two_pos
    · rcases List.mem_cons.mp hs with rfl | hs
      · exact Nat.lt_add_of_pos_right Nat.two_pos
      · exact Nat.lt_add_right 2 (h.fresh s hs)

theorem newSocket_notMem_waiting (h : n.Sound H) :
    n.newSocket p q ∉ (n.link (n.newSocket p q)).waiting := by
  rintro (- | ⟨-, hs⟩)
  exact newSocket_notMem h.fresh (h.waiting _ hs)

theorem sound_start (H : Hosts π γ) : Sound H ({} : Network π γ) where
  consistent _ := ⟨List.nodup_nil, List.not_mem_nil, fun _ hs => absurd hs List.not_mem_nil⟩
  held _ _ hs := absurd hs (not_or.mpr ⟨List.not_mem_nil, List.not_mem_nil⟩)
  waiting _ hs := absurd hs List.not_mem_nil
  fresh _ hs := absurd hs List.not_mem_nil

section

variable [DecidableEq γ]

theorem sameBooks_setQueue (context : γ) (queue : List (Socket π)) :
    SameBooks n (n.setQueue context queue) := ⟨rfl, rfl, rfl⟩

theorem sameBooks_addAsyncSendKnownHostsSocket :
    SameBooks n (n.addAsyncSendKnownHostsSocket H s) := ⟨rfl, rfl, rfl⟩

end

section

variable [DecidableEq π]

theorem sameBooks_close : SameBooks n (n.close s) := ⟨rfl, rfl, rfl⟩

theorem sameBooks_send : SameBooks n (n.send s header).1 := by
  rw [send]
  split
  · exact SameBooks.refl n
  · exact ⟨rfl, rfl, rfl⟩

theorem sameBooks_sendKnownHostsOf (entries : List (Socket π × Connection)) :
    SameBooks n (sendKnownHostsOf s entries n).1 := by
  induction entries generalizing n with
  | nil => exact SameBooks.refl n
  | cons entry entries ih =>
      rw [sendKnownHostsOf]
      split
      · exact ih
      · dsimp only
        split
        · exact sameBooks_send.trans ih
        · exact sameBooks_send

theorem Sound.modifyPeer {f : PeerToPeer π → PeerToPeer π} (h : n.Sound H)
    (hcons : (f (n.peer p)).Consistent (H.acceptor p))
    (hheld : ∀ s, (f (n.peer p)).Has s → s ∈ n.sockets ∧ s ∉ n.waiting) :
    (n.modifyPeer p f).Sound H where
  consistent q := by
    by_cases hq : q = p
    · subst hq
      rw [peer_modifyPeer_self]
      exact hcons
    · rw [peer_modifyPeer_of_ne hq]
      exact h.consistent q
  held q s hs := by
    by_cases hq : q = p
    · subst hq
      rw [peer_modifyPeer_self] at hs
      exact hheld s hs
    · rw [peer_modifyPeer_of_ne hq] at hs
      exact h.held q s hs
  waiting := h.waiting
  fresh := h.fresh

theorem Sound.eraseNewPeer (h : n.Sound H) :
    (n.modifyPeer p fun this => this.eraseNewPeer s).Sound H :=
  h.modifyPeer (h.consistent p).eraseNewPeer fun t ht =>
    h.held p t (ht.imp_left fun ht => (PeerToPeer.mem_newPeers_eraseNewPeer.mp ht).1)

theorem Sound.insertNewPeer (h : n.Sound H) (hs : s ∈ n.sockets) (hwaiting : s ∉ n.waiting)
    (hkeys : s ∉ SortedMap.keys (n.peer p).connections) :
    (n.modifyPeer p fun this => this.insertNewPeer s).Sound H := by
  refine h.modifyPeer ((h.consistent p).insertNewPeer hkeys) fun t ht => ?_
  rcases ht with ht | ht
  · rcases PeerToPeer.mem_newPeers_insertNewPeer.mp ht with rfl | ht
    · exact ⟨hs, hwaiting⟩
    · exact h.held p t (Or.inl ht)
  · exact h.held p t (Or.inr ht)

theorem Sound.register (h : n.Sound H) (hs : s ∈ (n.peer p).newPeers)
    (hown : H.acceptor p ≠ host) (hnew : (n.peer p).hasConnection host = false) :
    (n.modifyPeer p fun this => this.register s H host).Sound H := by
  have hkeys := (h.consistent p).apart s hs
  refine h.modifyPeer ((h.consistent p).register hkeys hown hnew) fun t ht => ?_
  rcases ht with ht | ht
  · exact h.held p t (Or.inl (PeerToPeer.mem_newPeers_eraseNewPeer.mp ht).1)
  · rcases SortedMap.mem_keys_insert.mp ht with rfl | ht
    · exact h.held p t (Or.inl hs)
    · exact h.held p t (Or.inr ht)

theorem Sound.connectInternal (h : n.Sound H) (share : Bool) :
    (n.connectInternal H p host share).1.Sound H := by
  rw [Network.connectInternal]
  split
  · exact h
  · rename_i q _
    dsimp only
    generalize hr : (if share = true then
      (n.link (n.newSocket p q)).send (n.newSocket p q) (p2pAnnounceHeader (H.acceptor p))
      else (n.link (n.newSocket p q), true)) = r
    have hsame : SameBooks (n.link (n.newSocket p q)) r.1 := by
      rw [← hr]
      split
      · exact sameBooks_send
      · exact SameBooks.refl _
    have hsound := h.link.of_sameBooks hsame
    split
    · refine hsound.insertNewPeer ?_ ?_ ?_
      · rw [hsame.sockets]
        exact List.mem_cons_self ..
      · rw [hsame.waiting]
        exact newSocket_notMem_waiting h
      · rw [hsame.peer]
        exact fun hkeys => newSocket_not_has h (Or.inr hkeys)
    · exact hsound.of_sameBooks sameBooks_close

theorem Sound.endWait (h : n.Sound H) :
    Sound H { n with waiting := n.waiting.filter fun t => t ≠ s } where
  consistent := h.consistent
  held p t ht := (h.held p t ht).imp_right fun hnot hmem => hnot (List.mem_filter.mp hmem).1
  waiting t ht := h.waiting t (List.mem_filter.mp ht).1
  fresh := h.fresh

theorem Sound.accept (h : n.Sound H) (hs : s ∈ n.waiting) : (n.accept H s).Sound H := by
  have hsound := h.endWait (s := s)
  rw [Network.accept, onAccept]
  generalize hr : send _ s _ = r
  have hsame : SameBooks { n with waiting := n.waiting.filter fun t => t ≠ s } r.1 := by
    rw [← hr]
    exact sameBooks_send
  split
  · refine (hsound.of_sameBooks hsame).insertNewPeer ?_ ?_ ?_
    · rw [hsame.sockets]
      exact h.waiting s hs
    · rw [hsame.waiting]
      simp
    · rw [hsame.peer]
      exact fun hkeys => (h.held _ s (Or.inr hkeys)).2 hs
  · exact hsound.of_sameBooks hsame

theorem Sound.registerSocket (h : n.Sound H) : (n.registerSocket H s host).1.Sound H := by
  rw [Network.registerSocket]
  split
  · exact h.of_sameBooks sameBooks_close
  · rename_i hown
    split
    · exact h.of_sameBooks sameBooks_close
    · rename_i hnew
      split
      · exact h.of_sameBooks sameBooks_close
      · rename_i hs
        refine h.register (not_not.mp hs) ?_ (by simpa using hnew)
        rintro hacceptor
        rw [hacceptor] at hown
        simp at hown

variable [DecidableEq γ]

theorem sameBooks_pollSocket (context : γ) : SameBooks n (n.pollSocket context) := by
  rw [pollSocket]
  split
  · exact SameBooks.refl n
  · dsimp only
    split
    · exact sameBooks_setQueue _ _
    · split
      · exact (sameBooks_setQueue _ _).trans (sameBooks_setQueue _ _)
      · exact (sameBooks_setQueue _ _).trans (sameBooks_sendKnownHostsOf _)

theorem sameBooks_pollSockets (context : γ) (count : ℕ) :
    SameBooks n (pollSockets context count n) := by
  induction count generalizing n with
  | zero => exact SameBooks.refl n
  | succ count ih => exact (sameBooks_pollSocket context).trans ih

theorem Sound.processMessage (h : n.Sound H) : (n.processMessage H s header).Sound H := by
  rw [Network.processMessage]
  dsimp only
  split
  · split
    · split
      · exact h
      · split
        · exact (h.of_sameBooks sameBooks_addAsyncSendKnownHostsSocket).eraseNewPeer
        · refine Sound.of_sameBooks ?_ sameBooks_addAsyncSendKnownHostsSocket
          split
          · exact h.registerSocket.eraseNewPeer
          · exact h.registerSocket
    · exact h
  · split
    · split
      · exact h
      · exact h.connectInternal true
    · exact h

theorem Sound.step (h : n.Sound H) {i : NetworkStep π γ} {r : Network π γ × Unit}
    (hr : n.step H i = some r) : r.1.Sound H := by
  cases i with
  | connect p host =>
      cases hr
      exact h.connectInternal true
  | accept s =>
      obtain ⟨hs, rfl⟩ := step_accept hr
      exact h.accept hs
  | deliver s =>
      obtain ⟨header, headers, -, -, rfl⟩ := step_deliver hr
      have hsound : Sound H { n with inFlight := Function.update n.inFlight s headers } :=
        h.of_sameBooks ⟨rfl, rfl, rfl⟩
      dsimp only [Network.deliver]
      split
      · exact hsound
      · exact hsound.processMessage
  | poll context =>
      cases hr
      exact h.of_sameBooks (sameBooks_pollSockets context _)
  | fail link =>
      cases hr
      exact h.of_sameBooks ⟨rfl, rfl, rfl⟩

/-- In every run, every peer has each address once, not its own one, and no registered socket is
new. -/
theorem consistent_of_run (H : Hosts π γ) (steps : List (NetworkStep π γ)) (n : Network π γ)
    (h : run H steps = some n) (p : π) : (n.peer p).Consistent (H.acceptor p) := by
  obtain ⟨r, hrun, rfl⟩ := Option.map_eq_some_iff.mp h
  have hsound : Sound H r.1 :=
    Steps.run_invariant (fun n i r hs hr => hs.step hr) (sound_start H) hrun
  exact hsound.consistent p

end

end Network

/-- Two peers on one machine. -/
def pairHosts : Hosts Bool Unit where
  acceptor p := ⟨0x7F000001, if p then 8002 else 8001⟩
  context _ := ()
  listening host :=
    if host = ⟨0x7F000001, 8001⟩ then some false
    else if host = ⟨0x7F000001, 8002⟩ then some true
    else none
  place s := 2 * s.link + s.isAccepted.toNat

/-- One connects to the other, and both announce themselves. -/
def pairSteps : List (NetworkStep Bool Unit) :=
  let s : Socket Bool := ⟨0, false, false, true⟩
  [.connect false ⟨0x7F000001, 8002⟩, .accept s.other, .deliver s, .deliver s.other]

theorem consistent_of_run_pair : ∃ n, Network.run pairHosts pairSteps = some n ∧
    (n.peer true).connections = [(⟨0, true, true, false⟩, ⟨0x7F000001, 8001⟩)] ∧
    (n.peer true).Consistent ⟨0x7F000001, 8002⟩ := by
  have hrun : (Network.run pairHosts pairSteps).any (fun n => (n.peer true).connections =
      [(⟨0, true, true, false⟩, ⟨0x7F000001, 8001⟩)]) = true := by decide +kernel
  obtain ⟨n, hn, hconnections⟩ := (Option.any_eq_true _ _).mp hrun
  exact ⟨n, hn, of_decide_eq_true hconnections,
    Network.consistent_of_run pairHosts pairSteps n hn true⟩

end SRCommon
