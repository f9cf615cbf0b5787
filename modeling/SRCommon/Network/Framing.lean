import Mathlib.Data.List.SplitLengths
import SRCommon.Lib.LittleEndian
import SRCommon.Lib.MarkedBlocks
import SRCommon.Network.PeerToPeer

/-!
# Messages out of a stream

Bytes are received into one buffer, which keeps what is not written over. Every
chunk is handed on as a message.
-/

namespace SRCommon

/-!
## Headers as bytes

The structs of the headers are sent as they lie in memory, with bytes between
and behind their members that may be any. `ProcessMessage` looks at its data as
at a `P2PConnectionHeader`.
-/

namespace P2PMessageType

def code : P2PMessageType → UInt8
  | unknown => 0
  | peerConnection => 1
  | peerDisconnection => 2
  | knownHostsListInfo => 3
  | knownHost => 4
  | announce => 5

/-- The size of the header that has this type by default. -/
def sizeOfHeader : P2PMessageType → ℕ
  | unknown => 1
  | knownHostsListInfo => 16
  | _ => 12

theorem sizeOfHeader_pos (type : P2PMessageType) : 0 < type.sizeOfHeader := by
  cases type <;> decide

end P2PMessageType

open P2PMessageType in
def getMaxP2PHeaderSize : ℕ :=
  max knownHost.sizeOfHeader (max peerConnection.sizeOfHeader (max peerDisconnection.sizeOfHeader
    (max knownHostsListInfo.sizeOfHeader (max announce.sizeOfHeader unknown.sizeOfHeader))))

inductive P2PHeader where
  | base
  | connection (version : UInt8) (iPv4 : UInt32) (port : UInt16)
  | disconnection (version : UInt8) (iPv4 : UInt32) (port : UInt16)
  | knownHostsListInfo (version : UInt8) (count : UInt64)
  | knownHost (version : UInt8) (iPv4 : UInt32) (port : UInt16)
  | announce (version : UInt8) (iPv4 : UInt32) (port : UInt16)

namespace P2PHeader

def type : P2PHeader → P2PMessageType
  | base => .unknown
  | connection .. => .peerConnection
  | disconnection .. => .peerDisconnection
  | knownHostsListInfo .. => .knownHostsListInfo
  | knownHost .. => .knownHost
  | announce .. => .announce

/-- The members of a header with an address, and the padding by its place. -/
def hostBytes (type : P2PMessageType) (padding : ℕ → UInt8) (version : UInt8) (iPv4 : UInt32)
    (port : UInt16) : List UInt8 :=
  [type.code, version, padding 2, padding 3] ++ LittleEndian.toBytes 4 iPv4.toNat ++
    LittleEndian.toBytes 2 port.toNat ++ [padding 10, padding 11]

def bytes (padding : ℕ → UInt8) : P2PHeader → List UInt8
  | base => [P2PMessageType.unknown.code]
  | connection version iPv4 port => hostBytes .peerConnection padding version iPv4 port
  | disconnection version iPv4 port => hostBytes .peerDisconnection padding version iPv4 port
  | knownHostsListInfo version count =>
      [P2PMessageType.knownHostsListInfo.code, version, padding 2, padding 3, padding 4, padding 5,
        padding 6, padding 7] ++ LittleEndian.toBytes 8 count.toNat
  | knownHost version iPv4 port => hostBytes .knownHost padding version iPv4 port
  | announce version iPv4 port => hostBytes .announce padding version iPv4 port

variable (header : P2PHeader) (padding : ℕ → UInt8)

@[simp] theorem length_bytes : (header.bytes padding).length = header.type.sizeOfHeader := by
  cases header <;> rfl

/-- A header begins with its type. -/
theorem bytes_eq_cons : ∃ rest, header.bytes padding = header.type.code :: rest := by
  cases header <;> exact ⟨_, rfl⟩

end P2PHeader

/-- The members that `ProcessMessage` reads, where they lie in its data. -/
def P2PConnectionHeader.typeIn (data : List UInt8) : UInt8 := data.headD 0

def P2PConnectionHeader.iPv4In (data : List UInt8) : UInt32 :=
  UInt32.ofNat (LittleEndian.ofBytes ((data.drop 4).take 4))

def P2PConnectionHeader.portIn (data : List UInt8) : UInt16 :=
  UInt16.ofNat (LittleEndian.ofBytes ((data.drop 8).take 2))

/-- A chunk comes into the buffer. -/
def receive (buffer chunk : List UInt8) : List UInt8 := chunk ++ buffer.drop chunk.length

/-- The data that is passed to `ProcessMessage`, and how many bytes of it have been received. -/
def listerPeer : List UInt8 → List (List UInt8) → List (List UInt8 × ℕ)
  | _, [] => []
  | buffer, chunk :: chunks =>
      let data := receive buffer chunk
      if chunk.length < P2PMessageType.unknown.sizeOfHeader then listerPeer data chunks
      else (data, chunk.length) :: listerPeer data chunks

/-- The type of the messages that are looked into. -/
def readType (isRegistered : Bool) : P2PMessageType :=
  if isRegistered then .knownHost else .announce

/-- How far `ProcessMessage` reads. -/
def processMessageReads (isRegistered : Bool) (data : List UInt8) : ℕ :=
  if P2PConnectionHeader.typeIn data = (readType isRegistered).code then
    if P2PConnectionHeader.iPv4In data = 0 then 8 else 10
  else 1

/-- The header is what lies at the begin of the data. -/
def Shows (header : P2PHeader) (call : List UInt8 × ℕ) : Prop :=
  ∃ padding, call.1.take header.type.sizeOfHeader = header.bytes padding

/-- The headers are passed, each once and in order, and no more is read than was received. -/
structure Framed (headers : List P2PHeader) (calls : List (List UInt8 × ℕ)) : Prop where
  shows : List.Forall₂ Shows headers calls
  inside : ∀ call ∈ calls, ∀ isRegistered, processMessageReads isRegistered call.1 ≤ call.2

variable {buffer chunk : List UInt8} {chunks : List (List UInt8)} {header : P2PHeader}
  {call : List UInt8 × ℕ}

theorem listerPeer_cons (h : chunk ≠ []) : listerPeer buffer (chunk :: chunks) =
    (receive buffer chunk, chunk.length) :: listerPeer (receive buffer chunk) chunks :=
  if_neg (Nat.not_lt.mpr (List.length_pos_of_ne_nil h))

theorem typeIn_receive (h : chunk ≠ []) :
    P2PConnectionHeader.typeIn (receive buffer chunk) = P2PConnectionHeader.typeIn chunk := by
  cases chunk with
  | nil => exact absurd rfl h
  | cons b chunk => rfl

theorem Shows.typeIn (h : Shows header call) :
    P2PConnectionHeader.typeIn call.1 = header.type.code := by
  obtain ⟨padding, hdata⟩ := h
  obtain ⟨rest, hbytes⟩ := header.bytes_eq_cons padding
  rw [hbytes] at hdata
  cases hcall : call.1 with
  | nil =>
      rw [hcall, List.take_nil] at hdata
      cases hdata
  | cons b data =>
      rw [hcall, List.take_cons header.type.sizeOfHeader_pos] at hdata
      exact (List.cons.inj hdata).1

theorem map_typeIn_of_shows {headers : List P2PHeader} {calls : List (List UInt8 × ℕ)}
    (h : List.Forall₂ Shows headers calls) :
    calls.map (fun call => P2PConnectionHeader.typeIn call.1) =
      headers.map fun header => header.type.code := by
  induction h with
  | nil => rfl
  | cons hhead _ ih => rw [List.map_cons, List.map_cons, hhead.typeIn, ih]

/-- Of a header with an address that is shown, the address is read. -/
theorem read_of_take_eq_hostBytes {data : List UInt8} {type : P2PMessageType}
    {padding : ℕ → UInt8} {version : UInt8} {iPv4 : UInt32} {port : UInt16}
    (h : data.take 12 = P2PHeader.hostBytes type padding version iPv4 port) :
    P2PConnectionHeader.iPv4In data = iPv4 ∧ P2PConnectionHeader.portIn data = port := by
  have haddress : (data.drop 4).take 4 = ((data.take 12).drop 4).take 4 := by
    rw [List.drop_take, List.take_take]
    rfl
  have hport : (data.drop 8).take 2 = ((data.take 12).drop 8).take 2 := by
    rw [List.drop_take, List.take_take]
    rfl
  rw [P2PConnectionHeader.iPv4In, P2PConnectionHeader.portIn, haddress, hport, h]
  constructor
  · change UInt32.ofNat (LittleEndian.ofBytes (LittleEndian.toBytes 4 iPv4.toNat)) = iPv4
    rw [LittleEndian.ofBytes_toBytes iPv4.toNat_lt, UInt32.ofNat_toNat]
  · change UInt16.ofNat (LittleEndian.ofBytes (LittleEndian.toBytes 2 port.toNat)) = port
    rw [LittleEndian.ofBytes_toBytes port.toNat_lt, UInt16.ofNat_toNat]

/-- A chunk that is a header is passed as it is, and is long enough. -/
theorem shows_receive (header : P2PHeader) (padding : ℕ → UInt8) (buffer : List UInt8) :
    Shows header (receive buffer (header.bytes padding), (header.bytes padding).length) :=
  ⟨padding, List.take_left' (header.length_bytes padding)⟩

theorem processMessageReads_le (h : Shows header call) (isRegistered : Bool) :
    processMessageReads isRegistered call.1 ≤ header.type.sizeOfHeader := by
  have hlarge : processMessageReads isRegistered call.1 ≤ 10 := by
    rw [processMessageReads]
    split
    · split
      · exact Nat.le_add_right 8 2
      · exact Nat.le_refl 10
    · exact Nat.le_add_right 1 9
  cases header with
  | base =>
      have htype : P2PConnectionHeader.typeIn call.1 = 0 := h.typeIn
      rw [processMessageReads, htype]
      cases isRegistered <;> exact Nat.le_refl 1
  | knownHostsListInfo => exact Nat.le_trans hlarge (show 10 ≤ 16 by decide)
  | connection | disconnection | knownHost | announce =>
      exact Nat.le_trans hlarge (show 10 ≤ 12 by decide)

theorem framed_listerPeer (sent : List (P2PHeader × (ℕ → UInt8))) (buffer : List UInt8) :
    Framed (sent.map Prod.fst)
      (listerPeer buffer (sent.map fun message => message.1.bytes message.2)) := by
  induction sent generalizing buffer with
  | nil => exact ⟨List.Forall₂.nil, fun call hcall => absurd hcall List.not_mem_nil⟩
  | cons message sent ih =>
      have hshows := shows_receive message.1 message.2 buffer
      have hne : message.1.bytes message.2 ≠ [] := by
        obtain ⟨rest, hbytes⟩ := message.1.bytes_eq_cons message.2
        rw [hbytes]
        exact List.cons_ne_nil _ _
      have hrest := ih (receive buffer (message.1.bytes message.2))
      rw [List.map_cons, List.map_cons, listerPeer_cons hne]
      refine ⟨List.Forall₂.cons hshows hrest.shows, List.forall_mem_cons.mpr ⟨?_, hrest.inside⟩⟩
      intro isRegistered
      dsimp only
      rw [message.1.length_bytes]
      exact processMessageReads_le hshows isRegistered

/-- A header of the type, with all other bytes equal. -/
def filledHeader : P2PMessageType → P2PHeader
  | .unknown => .base
  | .peerConnection => .connection 0xFF 0xFFFFFFFF 0xFFFF
  | .peerDisconnection => .disconnection 0xFF 0xFFFFFFFF 0xFFFF
  | .knownHostsListInfo => .knownHostsListInfo 0xFF 0xFFFFFFFFFFFFFFFF
  | .knownHost => .knownHost 0xFF 0xFFFFFFFF 0xFFFF
  | .announce => .announce 0xFF 0xFFFFFFFF 0xFFFF

def isTypeByte (b : UInt8) : Bool := b ≠ 0xFF

def filledBytes (type : P2PMessageType) : List UInt8 := (filledHeader type).bytes fun _ => 0xFF

theorem type_filledHeader (type : P2PMessageType) : (filledHeader type).type = type := by
  cases type <;> rfl

theorem length_filledBytes (type : P2PMessageType) :
    (filledBytes type).length = type.sizeOfHeader := by
  rw [filledBytes, P2PHeader.length_bytes, type_filledHeader]

theorem isTypeByte_code (type : P2PMessageType) : isTypeByte type.code = true := by
  cases type <;> decide

theorem isBlock_filledBytes (type : P2PMessageType) :
    MarkedBlocks.IsBlock isTypeByte (filledBytes type) := by
  have hrest : ∃ rest, filledBytes type = type.code :: rest ∧
      rest.all (fun b => !isTypeByte b) = true := by
    cases type <;> exact ⟨_, rfl, by decide +kernel⟩
  obtain ⟨rest, hbytes, hall⟩ := hrest
  exact ⟨type.code, rest, hbytes, isTypeByte_code type, by simpa using hall⟩

/-- What is shown begins with the byte of a type. -/
theorem begins_of_shows (hchunks : ∀ c ∈ chunks, c ≠ []) {headers : List P2PHeader}
    (h : List.Forall₂ Shows headers (listerPeer buffer chunks)) :
    headers.length = chunks.length ∧ ∀ c ∈ chunks, MarkedBlocks.Begins isTypeByte c := by
  induction chunks generalizing buffer headers with
  | nil =>
      cases h
      exact ⟨rfl, fun c hc => absurd hc List.not_mem_nil⟩
  | cons chunk chunks ih =>
      rw [List.forall_mem_cons] at hchunks
      rw [listerPeer_cons hchunks.1] at h
      cases h with
      | cons hshows hrest =>
          rename_i header headers
          obtain ⟨hlength, hbegins⟩ := ih hchunks.2 hrest
          refine ⟨congrArg (· + 1) hlength, List.forall_mem_cons.mpr ⟨?_, hbegins⟩⟩
          have htype := (typeIn_receive hchunks.1).symm.trans hshows.typeIn
          cases chunk with
          | nil => exact absurd rfl hchunks.1
          | cons b chunk =>
              have hb : b = header.type.code := htype
              exact ⟨b, chunk, rfl, by rw [hb]; exact isTypeByte_code _⟩

theorem splitLengths_bytes (sent : List (P2PHeader × (ℕ → UInt8))) :
    (sent.map fun message => message.1.type.sizeOfHeader).splitLengths
      (sent.flatMap fun message => message.1.bytes message.2) =
        sent.map fun message => message.1.bytes message.2 := by
  induction sent with
  | nil => rfl
  | cons message sent ih =>
      have hlength := message.1.length_bytes message.2
      rw [List.map_cons, List.flatMap_cons, List.splitLengths_cons, List.take_left' hlength,
        List.drop_left' hlength, ih, List.map_cons]

/-- A chunk that begins inside a header is taken for something else. -/
theorem sizes_eq_of_shows {types : List P2PMessageType} {sizes : List ℕ}
    (hpos : ∀ size ∈ sizes, 1 ≤ size)
    (hsum : sizes.sum = (types.map P2PMessageType.sizeOfHeader).sum)
    (h : List.Forall₂ Shows (types.map filledHeader)
      (listerPeer buffer (sizes.splitLengths (types.map filledBytes).flatten))) :
    sizes = types.map P2PMessageType.sizeOfHeader := by
  have hlengths : (types.map filledBytes).map List.length =
      types.map P2PMessageType.sizeOfHeader := by
    rw [List.map_map]
    exact List.map_congr_left fun type _ => length_filledBytes type
  have hlength : (types.map filledBytes).flatten.length = sizes.sum := by
    rw [List.length_flatten, hlengths, hsum]
  have hmap := List.map_splitLengths_length _ sizes (Nat.le_of_eq hlength.symm)
  have hchunks : ∀ c ∈ sizes.splitLengths (types.map filledBytes).flatten, c ≠ [] := by
    rintro c hc rfl
    have hzero : 0 ∈ sizes := by
      rw [← hmap]
      exact List.mem_map_of_mem (f := List.length) hc
    exact absurd (hpos 0 hzero) (by decide)
  obtain ⟨hcount, hbegins⟩ := begins_of_shows hchunks h
  have hblocks : sizes.splitLengths (types.map filledBytes).flatten = types.map filledBytes := by
    refine MarkedBlocks.eq_of_begins ?_ hbegins ?_ ?_
    · intro b hb
      obtain ⟨type, -, rfl⟩ := List.mem_map.mp hb
      exact isBlock_filledBytes type
    · rw [← hcount, List.length_map, List.length_map]
    · exact List.flatten_splitLengths _ _ (Nat.le_of_eq hlength)
  rw [← hmap, hblocks, hlengths]

/-- For all headers of the given types, whatever is in the bytes between their members and in the
buffer: they are passed one by one exactly if every chunk is one of them. -/
theorem framed_iff (types : List P2PMessageType) (sizes : List ℕ)
    (hsizes : ∀ size ∈ sizes, 1 ≤ size ∧ size ≤ getMaxP2PHeaderSize)
    (hsum : sizes.sum = (types.map P2PMessageType.sizeOfHeader).sum) :
    (∀ sent : List (P2PHeader × (ℕ → UInt8)), (sent.map fun message => message.1.type) = types →
      ∀ buffer : List UInt8, buffer.length = getMaxP2PHeaderSize →
        Framed (sent.map Prod.fst) (listerPeer buffer (sizes.splitLengths
          (sent.flatMap fun message => message.1.bytes message.2)))) ↔
      sizes = types.map P2PMessageType.sizeOfHeader := by
  constructor
  · intro h
    have htypes : (types.map fun type => (filledHeader type, fun _ : ℕ => (0xFF : UInt8))).map
        (fun message => message.1.type) = types := by
      rw [List.map_map]
      exact (List.map_congr_left fun type _ => type_filledHeader type).trans (List.map_id _)
    have hframed := (h _ htypes (List.replicate getMaxP2PHeaderSize 0) List.length_replicate).shows
    rw [List.map_map, List.flatMap_def, List.map_map] at hframed
    exact sizes_eq_of_shows (fun size hsize => (hsizes size hsize).1) hsum hframed
  · rintro rfl sent rfl buffer -
    rw [List.map_map]
    have hsplit := splitLengths_bytes sent
    exact (congrArg (Framed _ <| listerPeer buffer ·) hsplit).mpr (framed_listerPeer sent buffer)

theorem framed_iff_pair :
    (∀ sent : List (P2PHeader × (ℕ → UInt8)),
      (sent.map fun message => message.1.type) = [.announce, .knownHost] →
      ∀ buffer : List UInt8, buffer.length = getMaxP2PHeaderSize →
        Framed (sent.map Prod.fst) (listerPeer buffer ([12, 12].splitLengths
          (sent.flatMap fun message => message.1.bytes message.2)))) ↔
      [12, 12] = [P2PMessageType.announce, .knownHost].map P2PMessageType.sizeOfHeader :=
  framed_iff [.announce, .knownHost] [12, 12] (by decide) (by decide)

/-- An announcement and a known host that come in chunks of sixteen and eight bytes. -/
def coalesced : List (List UInt8) :=
  [16, 8].splitLengths ((P2PHeader.announce 0 0x7F000001 8001).bytes (fun _ => 0) ++
    (P2PHeader.knownHost 0 0x7F000001 8002).bytes fun _ => 0)

theorem not_framed_coalesced :
    ¬ Framed [.announce 0 0x7F000001 8001, .knownHost 0 0x7F000001 8002]
      (listerPeer (List.replicate getMaxP2PHeaderSize 0) coalesced) := by
  intro h
  have hcalls : (listerPeer (List.replicate getMaxP2PHeaderSize 0) coalesced).map
      (fun call => P2PConnectionHeader.typeIn call.1) = [5, 1] := by decide +kernel
  rw [map_typeIn_of_shows h.shows] at hcalls
  exact absurd hcalls (by decide)

end SRCommon
