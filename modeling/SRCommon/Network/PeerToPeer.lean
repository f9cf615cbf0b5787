import Mathlib.Data.List.Basic
import Mathlib.Logic.Function.Basic
import SRCommon.Lib.PartialRun
import SRCommon.Lib.SortedMap

/-!
# Peers of a network

Acceptors are running and stay so. A connection to an address is made at once or
refused; its other end waits for the acceptor. Headers come whole, and in the
order in which they were sent over a socket.
-/

namespace SRCommon

inductive P2PMessageType where
  | unknown
  | peerConnection
  | peerDisconnection
  | knownHostsListInfo
  | knownHost
  | announce
deriving DecidableEq

structure Connection where
  address : UInt32
  port : UInt16
deriving DecidableEq

/-- The headers with an address have the same fields. -/
structure P2PConnectionHeader where
  type : P2PMessageType := .peerConnection
  version : UInt8 := 0
  iPv4 : UInt32 := 0
  port : UInt16 := 0
deriving DecidableEq

def p2pAnnounceHeader (host : Connection) : P2PConnectionHeader :=
  { type := .announce, iPv4 := host.address, port := host.port }

def p2pKnownHostHeader (host : Connection) : P2PConnectionHeader :=
  { type := .knownHost, iPv4 := host.address, port := host.port }

/-- One end of a link, which the peer `owner` has. -/
structure Socket (π : Type) where
  link : ℕ
  isAccepted : Bool
  owner : π
  remote : π
deriving DecidableEq

def Socket.other {π : Type} (s : Socket π) : Socket π := ⟨s.link, !s.isAccepted, s.remote, s.owner⟩

structure PeerToPeer (π : Type) where
  connections : List (Socket π × Connection) := []
  newPeers : List (Socket π) := []

/-- The addresses at which the peers listen, and who takes a connection to an address. Sockets are
ordered by their places in memory. -/
structure Hosts (π γ : Type) where
  acceptor : π → Connection
  context : π → γ
  listening : Connection → Option π
  place : Socket π → ℕ

/-- The peers, the queues of their contexts, and the links: all their ends, those that wait for an
acceptor, what is on its way to a socket, what is closed, and which links are down. -/
structure Network (π γ : Type) where
  peer : π → PeerToPeer π := fun _ => {}
  asyncSendKnownHostsSockets : γ → List (Socket π) := fun _ => []
  sockets : List (Socket π) := []
  waiting : List (Socket π) := []
  inFlight : Socket π → List P2PConnectionHeader := fun _ => []
  isClosed : Socket π → Bool := fun _ => false
  isDown : ℕ → Bool := fun _ => false

inductive NetworkStep (π γ : Type) where
  | connect (peer : π) (host : Connection)
  | accept (pSocket : Socket π)
  | deliver (pSocket : Socket π)
  | poll (context : γ)
  | fail (link : ℕ)
deriving DecidableEq

def NetworkStep.isFault {π γ : Type} : NetworkStep π γ → Bool
  | fail _ => true
  | _ => false

section

variable {π γ : Type} [DecidableEq π]

namespace PeerToPeer

variable (this : PeerToPeer π) (pSocket : Socket π)

def hasConnection (host : Connection) : Bool :=
  this.connections.any fun entry => entry.2.address = host.address && entry.2.port = host.port

def insertNewPeer : PeerToPeer π := { this with newPeers := this.newPeers.insert pSocket }

def eraseNewPeer : PeerToPeer π :=
  { this with newPeers := this.newPeers.filter fun pPeer => pPeer ≠ pSocket }

def register (H : Hosts π γ) (host : Connection) : PeerToPeer π :=
  { this.eraseNewPeer pSocket with
    connections := SortedMap.insert H.place pSocket host this.connections }

end PeerToPeer

namespace Network

def modifyPeer (n : Network π γ) (p : π) (f : PeerToPeer π → PeerToPeer π) :
    Network π γ :=
  { n with peer := Function.update n.peer p (f (n.peer p)) }

section

variable {n : Network π γ} {p q : π} {f : PeerToPeer π → PeerToPeer π}

@[simp] theorem peer_modifyPeer_self : (n.modifyPeer p f).peer p = f (n.peer p) :=
  Function.update_self _ _ _

theorem peer_modifyPeer_of_ne (h : q ≠ p) : (n.modifyPeer p f).peer q = n.peer q :=
  Function.update_of_ne h _ _

end

variable [DecidableEq γ]

variable (n : Network π γ) (H : Hosts π γ) (pSocket : Socket π)

def close : Network π γ := { n with isClosed := Function.update n.isClosed pSocket true }

def send (header : P2PConnectionHeader) : Network π γ × Bool :=
  if n.isClosed pSocket || n.isDown pSocket.link then (n, false)
  else
    ({ n with
        inFlight := Function.update n.inFlight pSocket.other
          (n.inFlight pSocket.other ++ [header]) }, true)

def setQueue (context : γ) (queue : List (Socket π)) : Network π γ :=
  { n with
    asyncSendKnownHostsSockets := Function.update n.asyncSendKnownHostsSockets context queue }

def addAsyncSendKnownHostsSocket : Network π γ :=
  let context := H.context pSocket.owner
  n.setQueue context (n.asyncSendKnownHostsSockets context ++ [pSocket])

def onAccept : Network π γ :=
  let r := n.send pSocket (p2pAnnounceHeader (H.acceptor pSocket.owner))
  if r.2 then r.1.modifyPeer pSocket.owner fun this => this.insertNewPeer pSocket else r.1

/-- The end of a link that is made next. -/
def newSocket (p q : π) : Socket π := ⟨n.sockets.length, false, p, q⟩

def link : Network π γ :=
  { n with
    sockets := pSocket :: pSocket.other :: n.sockets
    waiting := pSocket.other :: n.waiting }

/-- A socket that has nowhere been kept is closed. -/
def connectInternal (p : π) (host : Connection) (share : Bool) : Network π γ × Bool :=
  match H.listening host with
  | none => (n, false)
  | some q =>
      let pSocket := n.newSocket p q
      let n := n.link pSocket
      let r := if share then n.send pSocket (p2pAnnounceHeader (H.acceptor p)) else (n, true)
      if r.2 then (r.1.modifyPeer p fun this => this.insertNewPeer pSocket, true)
      else (r.1.close pSocket, false)

def connect (p : π) (host : Connection) : Network π γ × Bool := n.connectInternal H p host true

def registerSocket (host : Connection) : Network π γ × Bool :=
  let this := n.peer pSocket.owner
  let acceptor := H.acceptor pSocket.owner
  if acceptor.address = host.address && acceptor.port = host.port then (n.close pSocket, false)
  else if this.hasConnection host then (n.close pSocket, false)
  else if pSocket ∉ this.newPeers then (n.close pSocket, false)
  else
    (n.modifyPeer pSocket.owner fun this => this.register pSocket H host, true)

def processMessage (header : P2PConnectionHeader) : Network π γ :=
  let this := n.peer pSocket.owner
  let host : Connection := ⟨header.iPv4, header.port⟩
  if pSocket ∉ SortedMap.keys this.connections then
    if header.type = .announce then
      if header.iPv4 = 0 || header.port = 0 then n
      else if this.hasConnection host then
        (n.addAsyncSendKnownHostsSocket H pSocket).modifyPeer pSocket.owner fun this =>
          this.eraseNewPeer pSocket
      else
        let r := n.registerSocket H pSocket host
        let n :=
          if !r.2 then r.1.modifyPeer pSocket.owner fun this => this.eraseNewPeer pSocket else r.1
        n.addAsyncSendKnownHostsSocket H pSocket
    else n
  else if header.type = .knownHost then
    if header.iPv4 = 0 || header.port = 0 then n else (n.connect H pSocket.owner host).1
  else n

/-- The loop over the connections. -/
def sendKnownHostsOf : List (Socket π × Connection) → Network π γ → Network π γ × Bool
  | [], n => (n, true)
  | entry :: entries, n =>
      if entry.1 = pSocket then sendKnownHostsOf entries n
      else
        let r := n.send pSocket (p2pKnownHostHeader entry.2)
        if r.2 then sendKnownHostsOf entries r.1 else (r.1, false)

def sendKnownHosts : Network π γ × Bool :=
  sendKnownHostsOf pSocket (n.peer pSocket.owner).connections n

/-- One round of the loop over the queue. -/
def pollSocket (context : γ) : Network π γ :=
  match n.asyncSendKnownHostsSockets context with
  | [] => n
  | pSocket :: queue =>
      let n := n.setQueue context queue
      if n.isClosed pSocket then n
      else if (n.peer pSocket.owner).newPeers.length > 0 then
        n.setQueue context (queue ++ [pSocket])
      else (n.sendKnownHosts pSocket).1

def pollSockets (context : γ) : ℕ → Network π γ → Network π γ
  | 0, n => n
  | count + 1, n => pollSockets context count (n.pollSocket context)

def poll (context : γ) : Network π γ :=
  pollSockets context (n.asyncSendKnownHostsSockets context).length n

/-- What comes over a closed socket is lost. -/
def deliver (header : P2PConnectionHeader) (headers : List P2PConnectionHeader) : Network π γ :=
  let n := { n with inFlight := Function.update n.inFlight pSocket headers }
  if n.isClosed pSocket then n else n.processMessage H pSocket header

def cut (link : ℕ) : Network π γ :=
  { n with
    isDown := Function.update n.isDown link true
    inFlight := fun pSocket => if pSocket.link = link then [] else n.inFlight pSocket }

def accept : Network π γ :=
  { n with waiting := n.waiting.filter fun s => s ≠ pSocket }.onAccept H pSocket

def step : NetworkStep π γ → Option (Network π γ × Unit)
  | .connect p host => some ((n.connect H p host).1, ())
  | .accept pSocket => if pSocket ∈ n.waiting then some (n.accept H pSocket, ()) else none
  | .deliver pSocket =>
      if pSocket ∈ n.waiting then none
      else
        match n.inFlight pSocket with
        | [] => none
        | header :: headers => some (n.deliver H pSocket header headers, ())
  | .poll context => some (n.poll context, ())
  | .fail link => some (n.cut link, ())

/-- The state after all steps, from the one without links. -/
def run (H : Hosts π γ) (steps : List (NetworkStep π γ)) : Option (Network π γ) :=
  (Steps.run (fun n i => n.step H i) {} steps).map Prod.fst

variable {n H pSocket} {r : Network π γ × Unit}

theorem step_accept (h : n.step H (.accept pSocket) = some r) :
    pSocket ∈ n.waiting ∧ (n.accept H pSocket, ()) = r := by
  rw [step] at h
  split at h
  · rename_i hwaiting
    exact ⟨hwaiting, Option.some.inj h⟩
  · cases h

theorem step_deliver (h : n.step H (.deliver pSocket) = some r) :
    ∃ header headers, pSocket ∉ n.waiting ∧ n.inFlight pSocket = header :: headers ∧
      (n.deliver H pSocket header headers, ()) = r := by
  rw [step] at h
  split at h
  · cases h
  · rename_i hwaiting
    split at h
    · cases h
    · rename_i header headers hinFlight
      exact ⟨header, headers, hwaiting, hinFlight, Option.some.inj h⟩

end Network

end

end SRCommon
