import PS3Native.P2psSocket

/-!
# A stream between two sockets

The two ends of a stream, from the moment the accepting end exists. Every packet that was sent can
be delivered any number of times, in any order, or never. A state also records what has been sent,
what has arrived and what the callers have received.
-/
namespace PS3Native.P2ps
open Function List

open Reassembly

/-- `sock` and the packets under way to each end; the rest is a record of the run. -/
structure State where
  sock : Bool → Socket
  net : Bool → List Packet
  /-- The segments an end has sent, and whether they have arrived at the other one. -/
  pieces : Bool → List (Piece UInt8)
  /-- The bytes of the calls of `sendto` that have returned. -/
  sent : Bool → Bytes
  /-- The bytes returned by `recvfrom`. -/
  taken : Bool → Bytes

variable (sum : TcpHeader → Bytes → ℕ) (base vport : Bool → ℕ)

def controlPacket (header : TcpHeader) : Packet where
  dstVport := header.dstPort
  srcVport := header.srcPort
  header := {header with checksum := sum header []}
  data := []

/-- The packet sent by `connect`. -/
def synPacket : Packet :=
  controlPacket sum
    {srcPort := vport true, dstPort := vport false, flags := synFlag, seq := base true-1}

/-- The packet sent by `handle_listening`. -/
def synAckPacket : Packet :=
  controlPacket sum { srcPort := vport false, dstPort := vport true, flags := synFlag+ackFlag
                      seq := base false-1, ack := base true }

/-- The end `true` has called `connect`, and the end `false` was made by `handle_listening`. The
first numbers are one more than those of the first packets. -/
def initial : State where
  sock
    | true => { status := .handshaking, vport := vport true, opVport := vport false,
                dataBegSeq := 0, dataAvailable := 0, receivedData := [], curSeq := base true,
                msgs := [⟨base true-1,synPacket sum base vport⟩] }
    | false => { status := .connected, vport := vport false, opVport := vport true,
                 dataBegSeq := base true, dataAvailable := 0, receivedData := [],
                 curSeq := base false, msgs := [⟨base false-1,synAckPacket sum base vport⟩] }
  net
    | true => [synAckPacket sum base vport]
    | false => [synPacket sum base vport]
  pieces _ := []
  sent _ := []
  taken _ := []

def State.send (s : State) (side : Bool) (buf : Bytes) : State :=
  let (sock,packets,outcome) := sendto sum buf (s.sock side)
  { s with
    sock := update s.sock side sock
    net := update s.net (!side) (s.net (!side)++packets)
    pieces := update s.pieces side
      (s.pieces side++packets.map fun packet => ⟨packet.data,false⟩)
    sent := update s.sent side
      (s.sent side++if outcome = .sent buf.length then buf else []) }

/-- The pieces after a packet was handed to a socket: its data has arrived if the stream is
connected there. -/
def piecesAfter (start : ℕ) (pieces : List (Piece UInt8)) (packet : Packet) (sock : Socket) :
    List (Piece UInt8) :=
  if sock.status=.connected ∧ packet.data≠[] then arrive start packet.header.seq pieces
  else pieces

def State.deliver (s : State) (side : Bool) (packet : Packet) : State :=
  let (sock,replies) := recvData sum packet (s.sock side)
  { s with
    sock := update s.sock side sock
    net := update s.net (!side) (s.net (!side)++replies)
    pieces := update s.pieces (!side)
      (piecesAfter (base (!side)) (s.pieces (!side)) packet (s.sock side)) }

def Received.bytes : Received → Bytes
  | .data bytes => bytes
  | .disconnected => []
  | .noData => []

inductive Step : State → State → Prop where
  | send (s : State) (side : Bool) (buf : Bytes) : Step s (s.send sum side buf)
  | deliver {s : State} {side : Bool} {packet : Packet} (h : packet∈s.net side) :
    Step s (s.deliver sum base side packet)
  | resend {s : State} {side : Bool} {msg : Message} (h : msg∈(s.sock side).msgs) :
    Step s {s with net := update s.net (!side) (s.net (!side)++[msg.packet])}
  | receive {s : State} {side : Bool} {len : ℕ} {sock : Socket} {r : Received}
    (h : recvfrom len (s.sock side) = some (sock,r)) :
    Step s { s with
      sock := update s.sock side sock
      taken := update s.taken side (s.taken side++r.bytes) }

inductive Reachable : State → Prop where
  | initial : Reachable (initial sum base vport)
  | step {s t : State} : Reachable s → Step sum base s t → Reachable t

/-- A packet under way is as it was made: a segment, or a packet without data that acknowledges
no more than has arrived without a gap. -/
structure Packet.Sound (start opStart : ℕ) (pieces opPieces : List (Piece UInt8)) (packet : Packet) :
    Prop where
  signature : packet.header.signature=u2sSig
  length : packet.header.length=packet.data.length
  port : packet.header.dstPort=packet.dstVport
  checksum : packet.header.checksum = sum {packet.header with checksum := 0} packet.data
  kind : packet.header.flags=0 ∧
      (∃ p, HasPiece start packet.header.seq p pieces ∧ p.data=packet.data) ∧ packet.data≠[] ∨
    packet.data=[] ∧ packet.header.seq < start ∧
      (packet.header.flags=synFlag ∨
        packet.header.flags=ackFlag ∧ packet.header.ack ≤ contiguousEnd opStart opPieces ∨
        packet.header.flags = synFlag+ackFlag ∧ packet.header.seq+1=start ∧
          packet.header.ack ≤ contiguousEnd opStart opPieces)

/-- The end that sends: what has not arrived is sent again. -/
structure Sending (start : ℕ) (pieces : List (Piece UInt8)) (sent : Bytes) (sock : Socket) : Prop where
  sent_eq : sent = stream pieces
  curSeq : sock.curSeq = start+(stream pieces).length
  nonempty : ∀ p∈pieces, p.data≠[]
  kept : ∀ seq p, HasPiece start seq p pieces → p.arrived=false →
    ∃ msg∈sock.msgs, msg.seq=seq ∧ msg.packet.data=p.data

/-- The end that receives: it has what has arrived and not been taken. -/
structure Receiving (start : ℕ) (pieces : List (Piece UInt8)) (taken : Bytes) (sock : Socket) :
    Prop where
  status : sock.status≠.disconnected
  connected : sock.status=.connected →
    start ≤ sock.dataBegSeq ∧ sock.receivedData = pending start sock.dataBegSeq pieces ∧
      sock.dataBegSeq+sock.dataAvailable = contiguousEnd start pieces ∧
      taken = (stream pieces).take (sock.dataBegSeq-start)
  handshaking : sock.status=.handshaking →
    sock.receivedData=[] ∧ sock.dataAvailable=0 ∧ taken=[] ∧
      ∀ p∈pieces, p.arrived=false

structure Inv (s : State) : Prop where
  sound : ∀ side, ∀ packet∈s.net side,
    packet.Sound sum (base (!side)) (base side) (s.pieces (!side)) (s.pieces side)
  msgs : ∀ side, ∀ msg∈(s.sock side).msgs, msg.packet∈s.net (!side)
  sending : ∀ side, Sending (base side) (s.pieces side) (s.sent side) (s.sock side)
  receiving : ∀ side, Receiving (base (!side)) (s.pieces (!side)) (s.taken side) (s.sock side)

variable {sum base vport} {start opStart : ℕ} {pieces opPieces : List (Piece UInt8)}
  {packet : Packet} {header : TcpHeader}

theorem Packet.Sound.mono {pieces' opPieces' : List (Piece UInt8)}
    (h : packet.Sound sum start opStart pieces opPieces)
    (hpieces : ∀ seq p, HasPiece start seq p pieces →
      ∃ q, HasPiece start seq q pieces' ∧ q.data=p.data)
    (hend : contiguousEnd opStart opPieces ≤ contiguousEnd opStart opPieces') :
    packet.Sound sum start opStart pieces' opPieces' := by
  refine ⟨h.signature,h.length,h.port,h.checksum,?_⟩
  rcases h.kind with ⟨hflags,⟨p,hp,hdata⟩,hne⟩ | ⟨hdata,hseq,hkind⟩
  · obtain ⟨q,hq,hqdata⟩ := hpieces _ p hp
    exact .inl ⟨hflags,⟨q,hq,hqdata.trans hdata⟩,hne⟩
  · refine .inr ⟨hdata,hseq,?_⟩
    rcases hkind with hflags | ⟨hflags,hack⟩ | ⟨hflags,hfirst,hack⟩
    · exact .inl hflags
    · exact .inr (.inl ⟨hflags,Nat.le_trans hack hend⟩)
    · exact .inr (.inr ⟨hflags,hfirst,Nat.le_trans hack hend⟩)

theorem recvData_of_sound (h : packet.Sound sum start opStart pieces opPieces) (sock : Socket) :
    recvData sum packet sock =
      handleConnected sum {packet.header with checksum := 0} packet.data sock := by
  simp only [recvData]
  rw [if_neg (not_not_intro h.signature),if_neg (not_not_intro h.length),
    if_neg (not_not_intro h.port),if_neg (not_not_intro h.checksum)]

variable (sum) in
def ackPacket (header : TcpHeader) (ack : ℕ) : Packet :=
  controlPacket sum {srcPort := header.dstPort, dstPort := header.srcPort, flags := ackFlag, ack}

section
variable {sock : Socket} (hne : ∀ p∈pieces, p.data≠[]) (hbeg : start ≤ sock.dataBegSeq)
  (hdata : sock.receivedData = pending start sock.dataBegSeq pieces)
  (hend : sock.dataBegSeq ≤ contiguousEnd start pieces)
include hne hbeg hdata hend

/-- The end of what has arrived without a gap is what is acknowledged. -/
theorem finalAck_eq : finalAck sock = contiguousEnd start pieces := by
  have hfollow := follow_append_pending hne [] (by simp) hend
    (Nat.lt_succ_self (pending start sock.dataBegSeq pieces).length)
  rw [Nat.max_eq_right hbeg,nil_append] at hfollow
  rw [finalAck,hdata]
  exact hfollow

theorem sendAck_eq (header : TcpHeader) : sendAck sum header sock =
    ({sock with dataAvailable := contiguousEnd start pieces-sock.dataBegSeq},
      [ackPacket sum header (contiguousEnd start pieces)]) := by
  simp only [sendAck,finalAck_eq hne hbeg hdata hend]
  rfl

end

variable (sum) in
/-- What handing a packet to a socket does: it has the packet's data now, drops only what has
arrived at the other end, and acknowledges all that has arrived here without a gap. -/
structure Handled (start opStart : ℕ) (pieces opPieces : List (Piece UInt8)) (taken : Bytes)
    (sock : Socket) (result : Socket × List Packet) : Prop where
  receiving : Receiving start pieces taken result.1
  curSeq : result.1.curSeq=sock.curSeq
  msgs : ∃ ack ≤ contiguousEnd opStart opPieces,
    result.1.msgs = confirmDataReceived ack sock.msgs
  replies : ∀ reply∈result.2, ∃ header,
    reply = ackPacket sum header (contiguousEnd start pieces)

variable {taken : Bytes} {sock sock' : Socket}

/-- `msgs` is what an acknowledgement of arrived data leaves. -/
def Confirmed (opStart : ℕ) (opPieces : List (Piece UInt8)) (sock : Socket) (msgs : List Message) :
    Prop :=
  ∃ ack ≤ contiguousEnd opStart opPieces, msgs = confirmDataReceived ack sock.msgs

/-- The acknowledgement in a packet. -/
theorem Packet.Sound.confirmed (h : packet.Sound sum start opStart pieces opPieces)
    (sock : Socket) : ∃ msgs, (if packet.header.flags &&& ackFlag≠0 then
      {sock with msgs := confirmDataReceived packet.header.ack sock.msgs} else sock) =
        {sock with msgs} ∧ Confirmed opStart opPieces sock msgs := by
  split_ifs with hack
  · refine ⟨_,rfl,_,?_,rfl⟩
    rcases h.kind with ⟨hflags,-⟩ | ⟨-,-,hflags | ⟨-,hle⟩ | ⟨-,-,hle⟩⟩
    · exact absurd (by rw [hflags]; decide) hack
    · exact absurd (by rw [hflags]; decide) hack
    · exact hle
    · exact hle
  · exact ⟨_,rfl,0,Nat.zero_le _,by simp [confirmDataReceived]⟩

section
variable (hne : ∀ p∈pieces, p.data≠[])
include hne

/-- A connected socket has what has arrived after it has sent an acknowledgement. -/
theorem handled_sendAck (header : TcpHeader) (hstatus : sock'.status=.connected)
    (hbeg : start ≤ sock'.dataBegSeq)
    (hdata : sock'.receivedData = pending start sock'.dataBegSeq pieces)
    (hend : sock'.dataBegSeq ≤ contiguousEnd start pieces)
    (htaken : taken = (stream pieces).take (sock'.dataBegSeq-start))
    (hcurSeq : sock'.curSeq=sock.curSeq) (hmsgs : Confirmed opStart opPieces sock sock'.msgs) :
    Handled sum start opStart pieces opPieces taken sock (sendAck sum header sock') := by
  rw [sendAck_eq hne hbeg hdata hend]
  refine ⟨⟨?_,fun _ => ⟨hbeg,hdata,Nat.add_sub_cancel' hend,htaken⟩,?_⟩,hcurSeq,hmsgs,?_⟩
  · rw [hstatus]
    decide
  · intro h
    rw [hstatus] at h
    cases h
  · intro reply hreply
    exact ⟨header,mem_singleton.1 hreply⟩

variable (hr : Receiving start pieces taken sock) {msgs : List Message}
  (hmsgs : Confirmed opStart opPieces sock msgs)
include hr hmsgs

omit hne in
theorem handled_self :
    Handled sum start opStart pieces opPieces taken sock ({sock with msgs},[]) :=
  ⟨⟨hr.status,hr.connected,hr.handshaking⟩,rfl,hmsgs,by simp⟩

theorem handled_segment {p : Piece UInt8} (hstatus : sock.status=.connected)
    (hflags : header.flags=0) (hlength : header.length=p.data.length)
    (hp : HasPiece start header.seq p pieces) :
    Handled sum start opStart (arrive start header.seq pieces) opPieces taken sock
      (handlePacket sum header p.data {sock with msgs}) := by
  obtain ⟨hbeg,hdata,havail,htaken⟩ := hr.connected hstatus
  have hend : sock.dataBegSeq ≤ contiguousEnd start pieces := by omega
  rw [handlePacket,if_pos (.inl hflags)]
  by_cases hold : header.seq < sock.dataBegSeq
  · rw [if_pos hold,if_pos (by rw [hflags]; decide),
      arrive_of_arrived hne hp (hp.arrived (Nat.lt_of_lt_of_le hold hend))]
    exact handled_sendAck hne header hstatus hbeg hdata hend htaken rfl hmsgs
  · rw [if_neg hold]
    have hlookup := lookup_pending hne hp (Nat.le_of_not_lt hold)
    rw [← hdata] at hlookup
    by_cases harrived : p.arrived
    · rw [if_pos harrived] at hlookup
      rw [if_neg (by rw [hlookup]; simp),arrive_of_arrived hne hp harrived]
      exact handled_sendAck hne header hstatus hbeg hdata hend htaken rfl hmsgs
    · have hnew : (sock.receivedData.lookup header.seq).isNone ∧ header.length≠0 := by
        rw [hlookup,if_neg harrived,hlength]
        exact ⟨rfl,fun h0 => hne p hp.mem (length_eq_zero_iff.1 h0)⟩
      have hne' : ∀ q∈arrive start header.seq pieces, q.data≠[] := by
        intro q hq
        obtain ⟨r,hr,hrq⟩ := exists_of_mem_arrive hq
        rw [← hrq]
        exact hne r hr
      rw [if_pos hnew,hlength,take_length]
      refine handled_sendAck hne' header hstatus hbeg ?_ ?_ ?_ rfl hmsgs
      · rw [hdata]
        exact emplace_pending hne hp (Nat.le_of_not_lt hold)
      · exact Nat.le_trans hend (contiguousEnd_le_arrive ..)
      · rw [stream_arrive]
        exact htaken

theorem handled_control {data : Bytes} (hstatus : sock.status=.connected)
    (hflags : header.flags=synFlag ∨ header.flags=ackFlag ∨ header.flags = synFlag+ackFlag)
    (hseq : header.seq < start) : Handled sum start opStart pieces opPieces taken sock
      (handlePacket sum header data {sock with msgs}) := by
  obtain ⟨hbeg,hdata,havail,htaken⟩ := hr.connected hstatus
  have hend : sock.dataBegSeq ≤ contiguousEnd start pieces := by omega
  rw [handlePacket,if_pos (by tauto),if_pos (Nat.lt_of_lt_of_le hseq hbeg)]
  split
  · exact handled_sendAck hne header hstatus hbeg hdata hend htaken rfl hmsgs
  · exact handled_self hr hmsgs

/-- The first answer makes the stream connected. -/
theorem handled_first (hstatus : sock.status=.handshaking) (hseq : header.seq+1=start) :
    Handled sum start opStart pieces opPieces taken sock (sendAck sum header
      {sock with msgs, dataBegSeq := header.seq+1, status := .connected}) := by
  obtain ⟨hdata,havail,htaken,hnone⟩ := hr.handshaking hstatus
  refine handled_sendAck hne header rfl (Nat.le_of_eq hseq.symm) ?_ ?_ ?_ rfl hmsgs
  · rw [pending_of_not_arrived hnone]
    exact hdata
  · rw [contiguousEnd_of_not_arrived hnone]
    exact Nat.le_of_eq hseq
  · rw [htaken,hseq,Nat.sub_self,take_zero]

omit hmsgs

theorem recvData_handled (h : packet.Sound sum start opStart pieces opPieces) :
    Handled sum start opStart (piecesAfter start pieces packet sock) opPieces taken sock
      (recvData sum packet sock) := by
  obtain ⟨msgs,hsock,hmsgs⟩ := h.confirmed sock
  rw [recvData_of_sound h,handleConnected,if_neg hr.status]
  simp only [hsock]
  cases hstatus : sock.status with
  | disconnected => exact absurd hstatus hr.status
  | handshaking =>
    rw [if_pos rfl,piecesAfter,if_neg (by simp [hstatus])]
    split_ifs with hflags
    · rcases h.kind with ⟨hzero,-⟩ | ⟨-,-,hsyn | ⟨hack,-⟩ | ⟨-,hfirst,-⟩⟩
      · exact absurd (hzero.symm.trans hflags) (by decide)
      · exact absurd (hsyn.symm.trans hflags) (by decide)
      · exact absurd (hack.symm.trans hflags) (by decide)
      · exact handled_first hne hr hmsgs hstatus hfirst
    · exact hstatus ▸ handled_self hr hmsgs
  | connected =>
    rw [if_neg (by decide),← hstatus]
    rcases h.kind with ⟨hflags,⟨p,hp,hdata⟩,hdataNe⟩ | ⟨hdata,hseq,hkind⟩
    · rw [piecesAfter,if_pos ⟨hstatus,hdataNe⟩,← hdata]
      exact handled_segment hne hr hmsgs hstatus hflags (h.length.trans (by rw [hdata])) hp
    · rw [piecesAfter,if_neg fun hc => hc.2 hdata]
      exact handled_control hne hr hmsgs hstatus (hkind.imp id (Or.imp And.left And.left)) hseq

end

end PS3Native.P2ps
