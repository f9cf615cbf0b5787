import Mathlib.Data.List.Induction
import SRCommon.Network.Discovery

/-!
# Which link a peer keeps

Of several links to another peer the one is registered over which a header came
first. The two peers may see different ones first.
-/

namespace SRCommon

variable {π γ : Type} [DecidableEq π] {H : Hosts π γ}

/-- The step delivers a header from the second peer to the first one. -/
def NetworkStep.deliveredAt (p q : π) : NetworkStep π γ → Option (Socket π)
  | deliver s => if s.owner = p ∧ s.remote = q then some s else none
  | _ => none

namespace Network

/-- The end at which the first peer had its first header from the second one. -/
def firstDelivery (steps : List (NetworkStep π γ)) (p q : π) : Option (Socket π) :=
  steps.findSome? fun i => i.deliveredAt p q

/-- Peers keep the links that came first. -/
def KeepsFirst (H : Hosts π γ) (steps : List (NetworkStep π γ)) (n : Network π γ) : Prop :=
  ∀ p q, p ≠ q → ∀ s,
    (s, H.acceptor q) ∈ (n.peer p).connections ↔ firstDelivery steps p q = some s

variable {n n' : Network π γ} {p q : π} {s t : Socket π} {steps : List (NetworkStep π γ)}
  {i : NetworkStep π γ} {rest : List P2PConnectionHeader}

theorem firstDelivery_append_singleton :
    firstDelivery (steps ++ [i]) p q = (firstDelivery steps p q).or (i.deliveredAt p q) := by
  rw [firstDelivery, List.findSome?_append, List.findSome?_singleton]
  rfl

theorem KeepsFirst.of_connections (h : n.KeepsFirst H steps)
    (hconnections : ∀ p, (n'.peer p).connections = (n.peer p).connections)
    (hi : ∀ p q, p ≠ q → firstDelivery steps p q = none → i.deliveredAt p q = none) :
    n'.KeepsFirst H (steps ++ [i]) := by
  intro p q hne s
  rw [hconnections, h p q hne, firstDelivery_append_singleton]
  cases hfirst : firstDelivery steps p q with
  | none => rw [hi p q hne hfirst, Option.or_none]
  | some t => rw [Option.some_or]

theorem KeepsFirst.knows_iff (h : n.KeepsFirst H steps) (hne : p ≠ q) :
    n.Knows H p q ↔ firstDelivery steps p q ≠ none := by
  rw [Option.ne_none_iff_exists']
  exact exists_congr fun s => h p q hne s

/-- An announcement registers the end over which it comes if the peer is not known yet. -/
theorem KeepsFirst.hears (hreach : H.Reachable) (h : n.KeepsFirst H steps)
    (hn : Hears H n n' t rest) : n'.KeepsFirst H (steps ++ [.deliver t]) := by
  intro p q hne s
  rw [hn.connections, h p q hne, firstDelivery_append_singleton]
  cases hfirst : firstDelivery steps p q with
  | some u =>
      have hknows : n.Knows H p q := by
        rw [h.knows_iff hne, hfirst]
        exact Option.some_ne_none u
      rw [Option.some_or, or_iff_left]
      rintro ⟨rfl, rfl, hhost, -, hnot⟩
      rw [← hreach.injective hhost] at hnot
      exact hnot hknows
  | none =>
      have hnot : ¬ n.Knows H p q := fun hknows => (h.knows_iff hne).mp hknows hfirst
      rw [Option.none_or, NetworkStep.deliveredAt, or_iff_right (Option.some_ne_none s).symm]
      constructor
      · rintro ⟨rfl, rfl, hhost, -, -⟩
        rw [if_pos ⟨rfl, (hreach.injective hhost).symm⟩]
      · intro hs
        split at hs
        · rename_i ht
          obtain ⟨rfl, rfl⟩ := ht
          exact ⟨rfl, (Option.some.inj hs).symm, rfl, hne, hnot⟩
        · cases hs

variable [DecidableEq γ]

theorem KeepsFirst.step (hreach : H.Reachable) (hfirst : n.KeepsFirst H steps) (h : n.Joining H)
    (hsound : n.Sound H) (hi : i.isFault = false) {r : Network π γ × Unit}
    (hr : n.step H i = some r) : r.1.KeepsFirst H (steps ++ [i]) := by
  cases i with
  | connect p host =>
      cases hr
      exact hfirst.of_connections (connect_keeps h hsound).2 fun _ _ _ _ => rfl
  | accept s =>
      obtain ⟨hs, rfl⟩ := step_accept hr
      exact hfirst.of_connections (accept_announces h hsound hs).connections fun _ _ _ _ => rfl
  | deliver t =>
      obtain ⟨header, rest, hwaiting, hinFlight, rfl⟩ := step_deliver hr
      by_cases ht : n.Heard t
      · refine hfirst.of_connections (deliver_keeps h hsound ht hinFlight).2 fun p q hne hnone => ?_
        rw [NetworkStep.deliveredAt, if_neg]
        rintro ⟨rfl, rfl⟩
        exact (hfirst.knows_iff hne).mp (h.known t ht hne) hnone
      · obtain ⟨rfl, hnew⟩ := h.new hwaiting hinFlight ht
        exact hfirst.hears hreach (deliver_hears hreach h hsound hnew)
  | poll context =>
      cases hr
      have hsame : SameBooks n (n.poll context) := sameBooks_pollSockets context _
      refine hfirst.of_connections (fun p => ?_) fun _ _ _ _ => rfl
      rw [hsame.peer]
  | fail link => cases hi

theorem run_append_singleton (h : run H (steps ++ [i]) = some n) :
    ∃ n₀ r, run H steps = some n₀ ∧ n₀.step H i = some r ∧ r.1 = n := by
  obtain ⟨r, hrun, rfl⟩ := Option.map_eq_some_iff.mp h
  obtain ⟨q, q', hq, hq', rfl⟩ := Steps.run_append hrun
  obtain ⟨r, hr, hlast⟩ := Option.bind_eq_some_iff.mp hq'
  cases hlast
  exact ⟨q.1, r, congrArg (Option.map Prod.fst) hq, hr, rfl⟩

theorem keepsFirst_of_run (hreach : H.Reachable) (hsteps : ∀ i ∈ steps, i.isFault = false)
    (h : run H steps = some n) : n.KeepsFirst H steps := by
  induction steps using List.reverseRecOn generalizing n with
  | nil =>
      cases h
      exact fun p q _ s => iff_of_false List.not_mem_nil (Option.some_ne_none s).symm
  | append_singleton steps i ih =>
      obtain ⟨hsteps, hi⟩ := List.forall_mem_append.mp hsteps
      obtain ⟨n₀, r, hrun, hr, rfl⟩ := run_append_singleton h
      obtain ⟨hsound, hjoining, -⟩ := invariant_of_run (I := fun _ => True) hreach trivial
        (fun _ _ _ _ _ _ _ _ => trivial) hsteps hrun
      exact (ih hsteps hrun).step hreach hjoining hsound (hi i (List.mem_singleton_self i)) hr

/-- A registered end and the ends of the other peer: it has registered the one over which a header
came first, which is the other end of the link when that is the only one. -/
theorem agrees_of_run (H : Hosts π γ) (hreach : H.Reachable) (steps : List (NetworkStep π γ))
    (hsteps : ∀ i ∈ steps, i.isFault = false) (n : Network π γ) (h : run H steps = some n)
    (hq : n.Quiescent) (p q : π) (s : Socket π)
    (hs : (s, H.acceptor q) ∈ (n.peer p).connections) :
    s.owner = p ∧ s.remote = q ∧
      (∀ t, (t, H.acceptor p) ∈ (n.peer q).connections ↔ firstDelivery steps q p = some t) ∧
      (∃ t ∈ n.sockets, (t, H.acceptor p) ∈ (n.peer q).connections) ∧
      ((∀ t ∈ n.sockets, t.owner = q → t.remote = p → t = s.other) →
        (s.other, H.acceptor p) ∈ (n.peer q).connections) := by
  obtain ⟨-, hjoining, -⟩ := invariant_of_run (I := fun _ => True) hreach trivial
    (fun _ _ _ _ _ _ _ _ => trivial) hsteps h
  have hfirst := keepsFirst_of_run hreach hsteps h
  obtain ⟨howner, -, hhost, -⟩ := hjoining.registered p s _ hs
  have hne : q ≠ p := (hjoining.ne_of_knows hreach ⟨s, hs⟩).symm
  obtain ⟨t, ht⟩ := hq.symm hreach hjoining ⟨s, hs⟩
  obtain ⟨htowner, htheard, hthost, -⟩ := hjoining.registered q t _ ht
  refine ⟨howner, (hreach.injective hhost).symm, hfirst q p hne, ⟨t, htheard.1, ht⟩, ?_⟩
  intro honly
  rw [← honly t htheard.1 htowner (hreach.injective hthost).symm]
  exact ht

end Network

/-- Two peers connect to each other at the same time. -/
def crossingSteps : List (NetworkStep Bool Unit) :=
  let s : Socket Bool := ⟨0, false, false, true⟩
  let t : Socket Bool := ⟨2, false, true, false⟩
  let s' : Socket Bool := ⟨4, false, false, false⟩
  let t' : Socket Bool := ⟨6, false, true, true⟩
  [.connect false ⟨0x7F000001, 8002⟩, .connect true ⟨0x7F000001, 8001⟩, .accept s.other,
    .accept t.other, .deliver s, .deliver t, .deliver s.other, .deliver t.other, .poll (),
    .deliver s, .deliver t, .accept s'.other, .accept t'.other, .deliver s', .deliver s'.other,
    .deliver t', .deliver t'.other, .poll ()]

theorem agrees_of_run_pair : ∃ n, Network.run pairHosts (pairSteps ++ [.poll ()]) = some n ∧
    ∃ t, (t, pairHosts.acceptor false) ∈ (n.peer true).connections ∧
      Network.firstDelivery (pairSteps ++ [.poll ()]) true false = some t := by
  have hsteps : ∀ i ∈ pairSteps ++ [.poll ()], i.isFault = false := by decide
  have hrun : (Network.run pairHosts (pairSteps ++ [.poll ()])).any (fun n => n.isQuiet &&
      decide ((⟨0, false, false, true⟩, pairHosts.acceptor true) ∈ (n.peer false).connections)) =
        true := by
    decide +kernel
  obtain ⟨n, hn, hcheck⟩ := (Option.any_eq_true _ _).mp hrun
  obtain ⟨hquiet, hs⟩ := (Bool.and_eq_true _ _).mp hcheck
  obtain ⟨-, -, hfirst, ⟨t, -, ht⟩, -⟩ := Network.agrees_of_run pairHosts pairHosts_reachable _
    hsteps n hn (Network.quiescent_of_isQuiet hsteps hn hquiet) false true _ (of_decide_eq_true hs)
  exact ⟨n, hn, t, ht, (hfirst t).mp ht⟩

theorem not_agrees_crossing : (∀ i ∈ crossingSteps, i.isFault = false) ∧
    ∃ n, Network.run pairHosts crossingSteps = some n ∧ n.Quiescent ∧
      ∃ s, (s, pairHosts.acceptor true) ∈ (n.peer false).connections ∧
        (s.other, pairHosts.acceptor false) ∉ (n.peer true).connections := by
  have hsteps : ∀ i ∈ crossingSteps, i.isFault = false := by decide
  have hrun : (Network.run pairHosts crossingSteps).any (fun n => n.isQuiet &&
      decide ((n.peer false).connections = [(⟨0, false, false, true⟩, pairHosts.acceptor true)] ∧
        (n.peer true).connections = [(⟨2, false, true, false⟩, pairHosts.acceptor false)])) =
          true := by
    decide +kernel
  obtain ⟨n, hn, hcheck⟩ := (Option.any_eq_true _ _).mp hrun
  obtain ⟨hquiet, hconnections⟩ := (Bool.and_eq_true _ _).mp hcheck
  obtain ⟨hfalse, htrue⟩ := of_decide_eq_true hconnections
  refine ⟨hsteps, n, hn, Network.quiescent_of_isQuiet hsteps hn hquiet, ⟨0, false, false, true⟩,
    ?_, ?_⟩
  · rw [hfalse]
    exact List.mem_singleton_self _
  · rw [htrue, List.mem_singleton]
    decide

end SRCommon
