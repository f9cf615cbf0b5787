import SRCommon.Network.AnnouncementRuns

/-!
# Discovery

Of two peers that a third one knows, one is passed on to the other over every
link to it: the socket is in the queue, or the address is on its way or was
ignored, or it has led to a link.
-/

namespace SRCommon

variable {π γ : Type} {H : Hosts π γ}

namespace Network

/-- What has become of the address of `p` at the peer at the other end of the socket. -/
def Passed (H : Hosts π γ) (n : Network π γ) (p : π) (s : Socket π) : Prop :=
  s ∈ n.asyncSendKnownHostsSockets (H.context s.owner) ∨
    p2pKnownHostHeader (H.acceptor p) ∈ n.inFlight s.other ∨
    n.Heard s.other ∧ s.other ∉ SortedMap.keys (n.peer s.remote).connections ∨
    ∃ t ∈ n.sockets, t.owner = s.remote ∧ t.remote = p

def Told (H : Hosts π γ) (n : Network π γ) (q p r : π) : Prop :=
  ∀ s, n.Heard s → s.owner = q → s.remote = r → n.Passed H p s

def Discovering (H : Hosts π γ) (n : Network π γ) : Prop :=
  ∀ q p r, p ≠ r → n.Knows H q p → n.Knows H q r → n.Told H q p r ∨ n.Told H q r p

/-- Nothing is under way. -/
structure Quiescent (n : Network π γ) : Prop where
  inFlight : ∀ s, n.inFlight s = []
  waiting : n.waiting = []
  queue : ∀ context, n.asyncSendKnownHostsSockets context = []

variable {n n' : Network π γ} {p q r : π} {s t : Socket π} {host : Connection}
  {header : P2PConnectionHeader} {headers rest : List P2PConnectionHeader}

theorem Joining.ne_of_knows (hreach : H.Reachable) (h : n.Joining H) (hknows : n.Knows H p q) :
    p ≠ q := by
  obtain ⟨s, hs⟩ := hknows
  obtain ⟨-, -, hhost, hne⟩ := h.registered p s _ hs
  rw [hreach.injective hhost]
  exact hne.symm

/-- The socket over which a peer is known. -/
theorem Joining.socket_of_knows (hreach : H.Reachable) (h : n.Joining H) (hknows : n.Knows H p q) :
    ∃ s, s.owner = p ∧ s.remote = q ∧ n.Heard s ∧ s ∈ SortedMap.keys (n.peer p).connections := by
  obtain ⟨s, hs⟩ := hknows
  obtain ⟨howner, hheard, hhost, -⟩ := h.registered p s _ hs
  exact ⟨s, howner, (hreach.injective hhost).symm, hheard, SortedMap.mem_keys_of_mem hs⟩

theorem Joining.quiescent (h : n.Joining H) (hinFlight : ∀ s ∈ n.sockets, n.inFlight s = [])
    (hwaiting : n.waiting = []) (hqueue : ∀ context, n.asyncSendKnownHostsSockets context = []) :
    n.Quiescent := by
  refine ⟨fun s => ?_, hwaiting, hqueue⟩
  by_cases hs : s ∈ n.sockets
  · exact hinFlight s hs
  · exact (h.arrives s).unsent fun hsent => hs hsent.1

theorem Quiescent.heard (hq : n.Quiescent) (h : n.Joining H) (hs : s ∈ n.sockets) : n.Heard s := by
  have hwaiting : ∀ t, t ∉ n.waiting := by
    rw [hq.waiting]
    exact fun t => List.not_mem_nil
  by_contra hnot
  obtain ⟨rest, hrest, -⟩ := (h.arrives s).first ⟨hs, hwaiting _⟩ hnot
  rw [hq.inFlight] at hrest
  cases hrest

/-- Two peers with a link between them know each other. -/
theorem Quiescent.knows (hq : n.Quiescent) (h : n.Joining H) (hs : s ∈ n.sockets)
    (hne : s.owner ≠ s.remote) : n.Knows H s.owner s.remote :=
  h.known s (hq.heard h hs) hne

theorem Quiescent.symm (hreach : H.Reachable) (hq : n.Quiescent) (h : n.Joining H)
    (hknows : n.Knows H p q) : n.Knows H q p := by
  obtain ⟨s, rfl, rfl, hheard, -⟩ := h.socket_of_knows hreach hknows
  exact hq.knows h (h.other s hheard.1) (h.ne_of_knows hreach hknows).symm

/-- A peer that is told of another one knows it in the end. -/
theorem Told.knows (hreach : H.Reachable) (hq : n.Quiescent) (h : n.Joining H)
    (htold : n.Told H q p r) (hne : p ≠ r) (hr : n.Knows H q r) : n.Knows H r p := by
  obtain ⟨s, rfl, rfl, hheard, hkeys⟩ := h.socket_of_knows hreach (hq.symm hreach h hr)
  have hother := hq.heard h (h.other s hheard.1)
  rcases htold s.other hother rfl rfl with hqueue | hinFlight | ⟨-, hnot⟩ | ⟨t, ht, howner, rfl⟩
  · rw [hq.queue] at hqueue
    exact absurd hqueue List.not_mem_nil
  · rw [hq.inFlight] at hinFlight
    exact absurd hinFlight List.not_mem_nil
  · rw [Socket.other_other] at hnot
    exact absurd hkeys hnot
  · have howner : t.owner = s.owner := howner
    rw [← howner]
    exact hq.knows h ht fun heq => hne (heq.symm.trans howner)

theorem Quiescent.trans (hreach : H.Reachable) (hq : n.Quiescent) (h : n.Joining H)
    (hdisc : n.Discovering H) (hne : p ≠ r) (hp : n.Knows H q p) (hr : n.Knows H q r) :
    n.Knows H p r := by
  rcases hdisc q p r hne hp hr with htold | htold
  · exact hq.symm hreach h (htold.knows hreach hq h hne hr)
  · exact htold.knows hreach hq h hne.symm hp

theorem discovering_start (H : Hosts π γ) : Discovering H ({} : Network π γ) := by
  rintro q p r - ⟨s, hs⟩
  exact absurd hs List.not_mem_nil

theorem Passed.announces (hn : Announces H n n' t) (h : n.Passed H p s) : n'.Passed H p s := by
  rcases h with hqueue | hinFlight | ⟨hheard, hkeys⟩ | ⟨u, hu, hrest⟩
  · left
    rwa [hn.queues]
  · right; left
    by_cases hs : s.other = t.other
    · rw [hs] at hinFlight ⊢
      rw [hn.inFlight]
      exact List.mem_append_left _ hinFlight
    · rwa [hn.inFlight_of_ne _ hs]
  · right; right; left
    rw [hn.heard, hn.connections]
    exact ⟨hheard, hkeys⟩
  · right; right; right
    exact ⟨u, hn.sockets u hu, hrest⟩

theorem Discovering.announces (h : n.Discovering H) (hn : Announces H n n' t) :
    n'.Discovering H := by
  have htold : ∀ {q p r}, n.Told H q p r → n'.Told H q p r := fun htold s hs howner hremote =>
    (htold s ((hn.heard s).mp hs) howner hremote).announces hn
  intro q p r hne hp hr
  rw [Knows, hn.connections] at hp hr
  exact (h q p r hne hp hr).imp htold htold

theorem Passed.hears (hs : n.New H t rest) (hn : Hears H n n' t rest) (h : n.Passed H p s) :
    n'.Passed H p s := by
  rcases h with hqueue | hinFlight | ⟨hheard, hkeys⟩ | ⟨u, hu, hrest⟩
  · left
    exact (hn.queues _ _).mpr (Or.inl hqueue)
  · right; left
    by_cases hst : s.other = t
    · rw [hst] at hinFlight ⊢
      rw [hs.inFlight] at hinFlight
      rw [hn.inFlight]
      refine (List.mem_cons.mp hinFlight).resolve_left fun heq => ?_
      cases congrArg P2PConnectionHeader.type heq
    · rwa [hn.inFlight_of_ne _ hst]
  · right; right; left
    refine ⟨(hn.heard hs _).mpr (Or.inl hheard), fun hmem => hkeys ?_⟩
    obtain ⟨⟨u, host⟩, hu, rfl⟩ := List.mem_map.mp hmem
    rcases (hn.connections _ _ _).mp hu with hu | ⟨-, hut, -⟩
    · exact SortedMap.mem_keys_of_mem hu
    · have hut : s.other = t := hut
      rw [hut] at hheard
      exact absurd hs.new hheard.2.2
  · right; right; right
    rw [hn.sockets]
    exact ⟨u, hu, hrest⟩

theorem Discovering.hears (hreach : H.Reachable) (h : n.Discovering H) (hjoining : n.Joining H)
    (hs : n.New H t rest) (hn : Hears H n n' t rest) : n'.Discovering H := by
  have hjoining' := hjoining.hears hs hn
  have hself : ∀ p, n'.Passed H p t := fun p => Or.inl ((hn.queues _ _).mpr (Or.inr ⟨rfl, rfl⟩))
  have htold : ∀ {q p r}, n.Told H q p r → n'.Told H q p r := by
    intro q p r htold s hheard howner hremote
    rcases (hn.heard hs s).mp hheard with hheard | rfl
    · exact (htold s hheard howner hremote).hears hs hn
    · exact hself p
  -- A peer that is known only now has no other link on which anything has been heard.
  have hnew : ∀ {q p r}, n'.Knows H q r → ¬ n.Knows H q r → n'.Told H q p r := by
    rintro q p r hknows hnot s hheard rfl rfl
    rcases (hn.heard hs s).mp hheard with hheard | rfl
    · exact absurd (hjoining.known s hheard (hjoining'.ne_of_knows hreach hknows)) hnot
    · exact hself p
  intro q p r hne hp hr
  by_cases hp' : n.Knows H q p
  · by_cases hr' : n.Knows H q r
    · exact (h q p r hne hp' hr').imp htold htold
    · exact Or.inl (hnew hr hr')
  · exact Or.inr (hnew hp hp')

section

variable [DecidableEq γ] {context : γ} {queue : List (Socket π)}

theorem mem_setQueue {context' : γ} (h : s ∈ n.asyncSendKnownHostsSockets context')
    (hqueue : context' = context → s ∈ queue) :
    s ∈ (n.setQueue context queue).asyncSendKnownHostsSockets context' := by
  by_cases hcontext : context' = context
  · subst hcontext
    simpa [setQueue] using hqueue rfl
  · simpa [setQueue, hcontext] using h

theorem Passed.setQueue (h : n.Passed H p s)
    (hqueue : s ∈ n.asyncSendKnownHostsSockets context → s ∈ queue) :
    (n.setQueue context queue).Passed H p s := by
  refine h.imp_left fun h => mem_setQueue h ?_
  rintro rfl
  exact hqueue h

end

section

variable [DecidableEq π]

theorem Passed.arrived (hs : s.other ≠ t) (h : n.Passed H p s) :
    (n.arrived t rest n.isClosed).Passed H p s := by
  have hinFlight : (n.arrived t rest n.isClosed).inFlight s.other = n.inFlight s.other :=
    Function.update_of_ne hs _ _
  rw [Passed, hinFlight]
  exact h

theorem Passed.connect (h : n.Joining H) (hsound : n.Sound H) (hpassed : n.Passed H p s) :
    (n.connect H q host).1.Passed H p s := by
  cases hhost : H.listening host with
  | none =>
      rw [connect_of_none hhost]
      exact hpassed
  | some r => exact hpassed.announces (connect_announces h hsound hhost)

theorem mem_knownHosts (hreach : H.Reachable) (h : n.Joining H) (hknows : n.Knows H s.owner p)
    (hne : p ≠ s.remote) : p2pKnownHostHeader (H.acceptor p) ∈ n.knownHosts s := by
  obtain ⟨t, ht⟩ := hknows
  obtain ⟨-, -, hhost, -⟩ := h.registered _ t _ ht
  refine List.mem_map.mpr ⟨(t, H.acceptor p), List.mem_filter.mpr ⟨ht, ?_⟩, rfl⟩
  rw [decide_eq_true_iff]
  rintro rfl
  exact hne (hreach.injective hhost)

theorem Passed.append (h : n.Passed H p s) : (n.append t headers).Passed H p s := by
  refine h.imp_right fun h => h.imp_left fun h => ?_
  by_cases hst : s.other = t
  · rw [← hst, inFlight_append_self]
    exact List.mem_append_left _ h
  · rwa [inFlight_append_of_ne hst]

/-- A new link leaves what has been heard and registered. -/
theorem connect_keeps (h : n.Joining H) (hsound : n.Sound H) :
    (∀ u, (n.connect H q host).1.Heard u ↔ n.Heard u) ∧
      ∀ r, ((n.connect H q host).1.peer r).connections = (n.peer r).connections := by
  cases hhost : H.listening host with
  | none =>
      rw [connect_of_none hhost]
      exact ⟨fun _ => Iff.rfl, fun _ => rfl⟩
  | some r =>
      have hn := connect_announces (p := q) h hsound hhost
      exact ⟨hn.heard, hn.connections⟩

end

variable [DecidableEq π] [DecidableEq γ]

theorem passed_knownHost (hreach : H.Reachable) (h : n.Joining H) (hsound : n.Sound H)
    (ht : n.Heard t) (hst : s.other = t) (hne : s.owner ≠ s.remote)
    (hheader : header = p2pKnownHostHeader (H.acceptor p))
    (hinFlight : n.inFlight t = header :: rest) :
    (n.deliver H t header rest).Passed H p s := by
  subst hst hheader
  have hopen : ¬ n.isClosed s.other = true := fun hclosed => hne (h.closed _ hclosed).2.symm
  rw [deliver_knownHost rfl]
  split
  · rename_i hignored
    refine Or.inr (Or.inr (Or.inl ⟨ht, ?_⟩))
    rcases hignored with hclosed | hkeys | haddress | hport
    · exact absurd hclosed hopen
    · exact hkeys
    · exact absurd haddress (hreach.address p)
    · exact absurd hport (hreach.port p)
  · refine Or.inr (Or.inr (Or.inr ⟨(n.arrived s.other rest n.isClosed).newSocket s.remote p, ?_,
      rfl, rfl⟩))
    have hconnect := connect_of_some (p := s.remote) (h.arrived ht hinFlight)
      (hsound.of_sameBooks ⟨rfl, rfl, rfl⟩) (hreach.listening p)
    exact (congrArg (fun n : Network π γ => _ ∈ n.sockets) hconnect).mpr (List.mem_cons_self ..)

/-- A known host that comes over a link is connected to, or ignored for good. -/
theorem Passed.deliver (hreach : H.Reachable) (h : n.Joining H) (hsound : n.Sound H)
    (ht : n.Heard t) (hinFlight : n.inFlight t = header :: rest) (hne : s.owner ≠ s.remote)
    (hpassed : n.Passed H p s) : (n.deliver H t header rest).Passed H p s := by
  have hsound' : (n.arrived t rest n.isClosed).Sound H := hsound.of_sameBooks ⟨rfl, rfl, rfl⟩
  have hjoining := h.arrived ht hinFlight
  have htypes := ((h.arrives t).rest ht).2
  rw [hinFlight, List.forall_mem_cons] at htypes
  have hrest : (n.arrived t rest n.isClosed).inFlight t = rest := Function.update_self _ _ _
  have hlift : (n.arrived t rest n.isClosed).Passed H p s →
      (n.deliver H t header rest).Passed H p s := by
    intro hpassed
    rw [deliver_knownHost htypes.1]
    split
    · exact hpassed
    · exact hpassed.connect hjoining hsound'
  by_cases hst : s.other = t
  · rcases hpassed with hqueue | hinFlight' | hignored | hlink
    · exact hlift (Or.inl hqueue)
    · rw [hst, hinFlight] at hinFlight'
      rcases List.mem_cons.mp hinFlight' with hheader | hmem
      · exact passed_knownHost hreach h hsound ht hst hne hheader.symm hinFlight
      · refine hlift (Or.inr (Or.inl ?_))
        rw [hst, hrest]
        exact hmem
    · exact hlift (Or.inr (Or.inr (Or.inl hignored)))
    · exact hlift (Or.inr (Or.inr (Or.inr hlink)))
  · exact hlift (hpassed.arrived hst)

theorem deliver_keeps (h : n.Joining H) (hsound : n.Sound H) (ht : n.Heard t)
    (hinFlight : n.inFlight t = header :: rest) :
    (∀ u, (n.deliver H t header rest).Heard u ↔ n.Heard u) ∧
      ∀ r, ((n.deliver H t header rest).peer r).connections = (n.peer r).connections := by
  have htypes := ((h.arrives t).rest ht).2
  rw [hinFlight, List.forall_mem_cons] at htypes
  rw [deliver_knownHost htypes.1]
  split
  · exact ⟨fun _ => Iff.rfl, fun _ => rfl⟩
  · exact connect_keeps (h.arrived ht hinFlight) (hsound.of_sameBooks ⟨rfl, rfl, rfl⟩)

theorem Discovering.deliver (hreach : H.Reachable) (hdisc : n.Discovering H) (h : n.Joining H)
    (hsound : n.Sound H) (hwaiting : t ∉ n.waiting) (hinFlight : n.inFlight t = header :: rest) :
    (n.deliver H t header rest).Discovering H := by
  by_cases ht : n.Heard t
  · obtain ⟨hheard, hconnections⟩ := deliver_keeps h hsound ht hinFlight
    have htold : ∀ {q p r}, q ≠ r → n.Told H q p r → (n.deliver H t header rest).Told H q p r := by
      rintro q p r hne htold s hs rfl rfl
      exact (htold s ((hheard s).mp hs) rfl rfl).deliver hreach h hsound ht hinFlight hne
    intro q p r hne hp hr
    rw [Knows, hconnections] at hp hr
    exact (hdisc q p r hne hp hr).imp (htold (h.ne_of_knows hreach hr))
      (htold (h.ne_of_knows hreach hp))
  · obtain ⟨rfl, hnew⟩ := h.new hwaiting hinFlight ht
    exact hdisc.hears hreach h hnew (deliver_hears hreach h hsound hnew)

/-- A socket leaves the queue when the known hosts have been sent. -/
theorem Passed.pollSocket (hreach : H.Reachable) (h : n.Joining H) (context : γ)
    (hne : s.owner ≠ s.remote) (hp : p ≠ s.remote) (hknows : n.Knows H s.owner p)
    (hpassed : n.Passed H p s) : (n.pollSocket context).Passed H p s := by
  cases hqueue : n.asyncSendKnownHostsSockets context with
  | nil =>
      rw [Network.pollSocket, hqueue]
      exact hpassed
  | cons t queue =>
      rw [pollSocket_cons h hqueue]
      by_cases hs : s = t
      · subst hs
        have hopen : ¬ n.isClosed s = true := fun hclosed => hne (h.closed s hclosed).2
        rw [if_neg hopen]
        split
        · exact hpassed.setQueue fun _ => List.mem_append_right _ (List.mem_singleton_self s)
        · refine Or.inr (Or.inl ?_)
          rw [inFlight_append_self]
          exact List.mem_append_right _ (mem_knownHosts hreach h hknows hp)
      · have hmem : s ∈ n.asyncSendKnownHostsSockets context → s ∈ queue := by
          rw [hqueue]
          exact fun hmem => (List.mem_cons.mp hmem).resolve_left hs
        split
        · exact hpassed.setQueue hmem
        · split
          · exact hpassed.setQueue fun hs => List.mem_append_left _ (hmem hs)
          · exact (hpassed.setQueue hmem).append

theorem Discovering.pollSocket (hreach : H.Reachable) (hdisc : n.Discovering H)
    (h : n.Joining H) (context : γ) : (n.pollSocket context).Discovering H := by
  have hsame : SameBooks n (n.pollSocket context) := sameBooks_pollSocket context
  have htold : ∀ {q p r}, p ≠ r → n.Knows H q p → n.Knows H q r → n.Told H q p r →
      (n.pollSocket context).Told H q p r := by
    rintro q p r hne hp hr htold s hs rfl rfl
    exact (htold s (hsame.heard.mp hs) rfl rfl).pollSocket hreach h context
      (h.ne_of_knows hreach hr) hne hp
  intro q p r hne hp hr
  rw [Knows, hsame.peer] at hp hr
  exact (hdisc q p r hne hp hr).imp (htold hne hp hr) (htold hne.symm hr hp)

theorem Discovering.step (hreach : H.Reachable) (hdisc : n.Discovering H) (h : n.Joining H)
    (hsound : n.Sound H) {i : NetworkStep π γ} (hi : i.isFault = false)
    {r : Network π γ × Unit} (hr : n.step H i = some r) : r.1.Discovering H := by
  cases i with
  | connect p host =>
      cases hr
      cases hhost : H.listening host with
      | none =>
          rw [connect_of_none hhost]
          exact hdisc
      | some q => exact hdisc.announces (connect_announces h hsound hhost)
  | accept s =>
      obtain ⟨hs, rfl⟩ := step_accept hr
      exact hdisc.announces (accept_announces h hsound hs)
  | deliver s =>
      obtain ⟨header, rest, hwaiting, hinFlight, rfl⟩ := step_deliver hr
      exact hdisc.deliver hreach h hsound hwaiting hinFlight
  | poll context =>
      cases hr
      have hround : ∀ n : Network π γ, n.Joining H ∧ n.Discovering H →
          (n.pollSocket context).Joining H ∧ (n.pollSocket context).Discovering H :=
        fun n hn => ⟨hn.1.pollSocket context, hn.2.pollSocket hreach hn.1 context⟩
      exact (pollSockets_invariant hround ⟨h, hdisc⟩ _).2
  | fail link => cases hi

/-- When nothing is under way, registration is symmetric and transitive. -/
theorem meshes_of_run (H : Hosts π γ) (hreach : H.Reachable) (steps : List (NetworkStep π γ))
    (hsteps : ∀ i ∈ steps, i.isFault = false) (n : Network π γ) (h : run H steps = some n)
    (hq : n.Quiescent) :
    (∀ p q, n.Knows H p q ↔ n.Knows H q p) ∧
      ∀ q p r, p ≠ r → n.Knows H q p → n.Knows H q r → n.Knows H p r := by
  obtain ⟨-, hjoining, hdisc⟩ := invariant_of_run hreach (discovering_start H)
    (fun n i r hsound hjoining hdisc hi hr => hdisc.step hreach hjoining hsound hi hr) hsteps h
  refine ⟨fun p q => ⟨?_, ?_⟩, fun q p r hne hp hr => ?_⟩
  · exact fun hknows => hq.symm hreach hjoining hknows
  · exact fun hknows => hq.symm hreach hjoining hknows
  · exact hq.trans hreach hjoining hdisc hne hp hr

end Network

theorem pairHosts_reachable : pairHosts.Reachable where
  listening p := by cases p <;> decide
  address p := by cases p <;> decide
  port p := by cases p <;> decide

/-- Nothing is under way over the sockets that there are. -/
def Network.isQuiet {π : Type} (n : Network π Unit) : Bool :=
  n.sockets.all (fun s => (n.inFlight s).isEmpty) && n.waiting.isEmpty &&
    (n.asyncSendKnownHostsSockets ()).isEmpty

theorem Network.quiescent_of_isQuiet {steps : List (NetworkStep Bool Unit)}
    (hsteps : ∀ i ∈ steps, i.isFault = false) {n : Network Bool Unit}
    (h : Network.run pairHosts steps = some n) (hn : n.isQuiet = true) : n.Quiescent := by
  obtain ⟨-, hjoining, -⟩ := Network.invariant_of_run (I := fun _ => True) pairHosts_reachable
    trivial (fun _ _ _ _ _ _ _ _ => trivial) hsteps h
  simp only [isQuiet, Bool.and_eq_true, List.all_eq_true, List.isEmpty_iff] at hn
  exact hjoining.quiescent hn.1.1 hn.1.2 fun _ => hn.2

theorem meshes_of_run_pair : ∃ n, Network.run pairHosts (pairSteps ++ [.poll ()]) = some n ∧
    (n.Knows pairHosts false true ↔ n.Knows pairHosts true false) := by
  have hsteps : ∀ i ∈ pairSteps ++ [.poll ()], i.isFault = false := by decide
  have hrun : (Network.run pairHosts (pairSteps ++ [.poll ()])).any (fun n => n.isQuiet) =
      true := by decide +kernel
  obtain ⟨n, hn, hquiet⟩ := (Option.any_eq_true _ _).mp hrun
  have hmesh := Network.meshes_of_run pairHosts pairHosts_reachable _ hsteps n hn
    (Network.quiescent_of_isQuiet hsteps hn hquiet)
  exact ⟨n, hn, hmesh.1 false true⟩

end SRCommon
