import PS3Native.Reassembly
import PS3Native.Slices

/-!
# Stream sockets over P2P datagrams

Packets with data are sent again until they are acknowledged; the receiver keeps them by their
sequence number, acknowledges what it has without a gap, and gives it to the caller in order. The
checksum is a parameter.
-/
namespace PS3Native.P2ps

open Reassembly

abbrev Bytes := List UInt8

def finFlag : ℕ := 1

def synFlag : ℕ := 2

def rstFlag : ℕ := 4

def pshFlag : ℕ := 8

def ackFlag : ℕ := 16

/-- `P2PS_U2S_SIG`, the characters U2S0. -/
def u2sSig : ℕ := 0x55325330

/-- `p2ps_encapsulated_tcp` -/
structure TcpHeader where
  signature : ℕ := u2sSig
  length : ℕ := 0
  seq : ℕ := 0
  ack : ℕ := 0
  srcPort : ℕ := 0
  dstPort : ℕ := 0
  checksum : ℕ := 0
  flags : ℕ := 0
deriving DecidableEq, Repr

/-- `sizeof(p2ps_encapsulated_tcp)` -/
def tcpHeaderSize : ℕ := 32

def vportP2pHeaderSize : ℕ := 6

/-- The ports that stand in front, the TCP header and the data. -/
structure Packet where
  dstVport : ℕ
  srcVport : ℕ
  header : TcpHeader
  data : Bytes
deriving DecidableEq, Repr

/-- The states of `p2ps_stream_status` that a stream can have once it has a peer. -/
inductive StreamStatus where
  | handshaking
  | connected
  | disconnected
deriving DecidableEq, Repr

/-- A packet that `tcp_timeout_monitor` sends again. -/
structure Message where
  seq : ℕ
  packet : Packet
deriving DecidableEq, Repr

/-- `lv2_socket_p2ps`, with its messages in `tcp_timeout_monitor`. -/
structure Socket where
  status : StreamStatus
  vport : ℕ
  opVport : ℕ
  dataBegSeq : ℕ
  dataAvailable : ℕ
  receivedData : List (ℕ × Bytes)
  curSeq : ℕ
  msgs : List Message
deriving DecidableEq, Repr

variable (sum : TcpHeader → Bytes → ℕ)

/-- `generate_u2s_packet`; nothing if the packet is too big, where the source stops. -/
def generateU2sPacket (header : TcpHeader) (data : Bytes) : Option Packet :=
  let packetSize := vportP2pHeaderSize+tcpHeaderSize+data.length
  if ¬packetSize < 65535 then none
  else some {
    dstVport := header.dstPort
    srcVport := header.srcPort
    header := {header with checksum := sum {header with checksum := 0} data}
    data }

inductive SendOutcome where
  | sent (length : ℕ)
  | connectionReset
  | stopped
deriving DecidableEq, Repr

/-- `max_data_len`, which is 65497. -/
def maxDataLen : ℕ := 65535-(vportP2pHeaderSize+tcpHeaderSize)

/-- The loop in `sendto`: the socket, the packets sent, and if it went to its end. -/
def sendtoLoop (buf : Bytes) : ℕ → ℕ → Socket → Socket × List Packet × Bool
  | 0, curTotalLen, sock => (sock,[],curTotalLen=0)
  | fuel+1, curTotalLen, sock =>
    if curTotalLen=0 then (sock,[],true)
    else
      let curDataLen := min curTotalLen maxDataLen
      let header : TcpHeader :=
        {srcPort := sock.vport, dstPort := sock.opVport, length := curDataLen, seq := sock.curSeq}
      match generateU2sPacket sum header (slice buf (buf.length-curTotalLen) curDataLen) with
      | none => (sock,[],false)
      | some packet =>
        let next := sendtoLoop buf fuel (curTotalLen-curDataLen)
          {sock with curSeq := sock.curSeq+curDataLen, msgs := ⟨sock.curSeq,packet⟩::sock.msgs}
        (next.1,packet::next.2.1,next.2.2)

/-- `lv2_socket_p2ps::sendto`. Each round sends at least one byte. -/
def sendto (buf : Bytes) (sock : Socket) : Socket × List Packet × SendOutcome :=
  if sock.status=.disconnected then (sock,[],.connectionReset)
  else if ¬buf.length < 4294967296 then (sock,[],.stopped)
  else
    let (sock,packets,completed) := sendtoLoop sum buf buf.length buf.length sock
    (sock,packets,if completed then .sent buf.length else .stopped)

/-- The segments are the parts of the buffer in their order, with consecutive numbers. -/
def SegmentsCover (seq : ℕ) (buf : Bytes) : List Packet → Prop
  | [] => buf=[]
  | packet::packets =>
    packet.header.seq=seq ∧ packet.header.length=packet.data.length ∧ packet.data≠[] ∧
      ∃ rest, buf = packet.data++rest ∧ SegmentsCover (seq+packet.data.length) rest packets

def dataPacket (sock : Socket) (data : Bytes) : Packet :=
  let header : TcpHeader :=
    {srcPort := sock.vport, dstPort := sock.opVport, length := data.length, seq := sock.curSeq}
  { dstVport := sock.opVport
    srcVport := sock.vport
    header := {header with checksum := sum header data}
    data }

def afterSend (sock : Socket) (data : Bytes) : Socket :=
  { sock with
    curSeq := sock.curSeq+data.length
    msgs := ⟨sock.curSeq,dataPacket sum sock data⟩::sock.msgs }

def chunkHeader (sock : Socket) (length : ℕ) : TcpHeader :=
  {srcPort := sock.vport, dstPort := sock.opVport, length, seq := sock.curSeq}

theorem generateU2sPacket_data (sock : Socket) {data : Bytes} (h : data.length < maxDataLen) :
    generateU2sPacket sum (chunkHeader sock data.length) data = some (dataPacket sum sock data) := by
  have hsize : vportP2pHeaderSize+tcpHeaderSize+data.length < 65535 := by
    unfold maxDataLen vportP2pHeaderSize tcpHeaderSize at *
    omega
  rw [generateU2sPacket,if_neg (not_not_intro hsize)]
  rfl

theorem generateU2sPacket_full (header : TcpHeader) {data : Bytes} (h : data.length=maxDataLen) :
    generateU2sPacket sum header data=none := by
  rw [generateU2sPacket,if_pos (by rw [h]; decide)]

variable {sock : Socket}

theorem sendto_empty (h : sock.status≠.disconnected) : sendto sum [] sock = (sock,[],.sent 0) := by
  rw [sendto,if_neg h,if_neg (by decide)]
  rfl

theorem sendto_of_lt {buf : Bytes} (h : sock.status≠.disconnected) (hne : buf≠[])
    (hlt : buf.length < maxDataLen) :
    sendto sum buf sock = (afterSend sum sock buf,[dataPacket sum sock buf],.sent buf.length) := by
  have hpos : 0 < buf.length := List.length_pos_iff.2 hne
  obtain ⟨fuel,hfuel⟩ : ∃ fuel, buf.length = fuel+1 := ⟨buf.length-1,by omega⟩
  have hmin : min buf.length maxDataLen=buf.length := Nat.min_eq_left (Nat.le_of_lt hlt)
  have hsmall : buf.length < 4294967296 := Nat.lt_trans hlt (by decide)
  have hgen := generateU2sPacket_data sum sock hlt
  rw [chunkHeader] at hgen
  have hend : ∀ fuel sock, sendtoLoop sum buf fuel 0 sock = (sock,[],true) := by
    intro fuel sock
    cases fuel <;> rfl
  have hloop : sendtoLoop sum buf (fuel+1) buf.length sock =
      (afterSend sum sock buf,[dataPacket sum sock buf],true) := by
    simp only [sendtoLoop,hmin,Nat.sub_self,slice_full (Nat.le_refl _),hgen,hend,
      if_neg (Nat.ne_of_gt hpos)]
    rfl
  rw [sendto,if_neg h,if_neg (not_not_intro hsmall)]
  nth_rewrite 1 [hfuel]
  rw [hloop]
  rfl

/-- The first chunk of anything longer is too big for a packet. -/
theorem sendto_of_ge {buf : Bytes} (h : sock.status≠.disconnected) (hge : maxDataLen ≤ buf.length) :
    sendto sum buf sock = (sock,[],.stopped) := by
  rw [sendto,if_neg h]
  split
  · rfl
  · have hpos : 0 < buf.length := Nat.lt_of_lt_of_le (by decide) hge
    obtain ⟨fuel,hfuel⟩ : ∃ fuel, buf.length = fuel+1 := ⟨buf.length-1,by omega⟩
    have hmin : min buf.length maxDataLen=maxDataLen := Nat.min_eq_right hge
    have hchunk : (slice buf 0 maxDataLen).length=maxDataLen := length_slice (by omega)
    have hloop : sendtoLoop sum buf (fuel+1) buf.length sock = (sock,[],false) := by
      simp only [sendtoLoop,hmin,Nat.sub_self,generateU2sPacket_full sum _ hchunk,
        if_neg (Nat.ne_of_gt hpos)]
    nth_rewrite 1 [hfuel]
    rw [hloop]
    rfl

/-- A buffer is sent as segments that cover it, with none too big for a packet, if and only if it
is smaller than a full chunk. -/
theorem sendto_splits_iff (sock : Socket) (h : sock.status≠.disconnected) (buf : Bytes) :
    ((sendto sum buf sock).2.2 = .sent buf.length ∧
      SegmentsCover sock.curSeq buf (sendto sum buf sock).2.1) ↔ buf.length < maxDataLen := by
  by_cases hlt : buf.length < maxDataLen
  · rw [iff_true_right hlt]
    by_cases hne : buf=[]
    · subst hne
      rw [sendto_empty sum h]
      exact ⟨rfl,rfl⟩
    · rw [sendto_of_lt sum h hne hlt]
      exact ⟨rfl,rfl,rfl,hne,[],(List.append_nil buf).symm,rfl⟩
  · rw [iff_false_right hlt,sendto_of_ge sum h (Nat.le_of_not_lt hlt)]
    rintro ⟨hsent,-⟩
    cases hsent

def freshSocket (seq opSeq : ℕ) : Socket where
  status := .connected
  vport := 1
  opVport := 2
  dataBegSeq := opSeq
  dataAvailable := 0
  receivedData := []
  curSeq := seq
  msgs := []

theorem sendto_splits_iff_greeting :
    (sendto (fun _ _ => 0) [104,105] (freshSocket 7 9)).2.2 = .sent 2 ∧
      SegmentsCover 7 [104,105] (sendto (fun _ _ => 0) [104,105] (freshSocket 7 9)).2.1 :=
  (sendto_splits_iff (fun _ _ => 0) (freshSocket 7 9) (by decide) [104,105]).2 (by decide)

/-- A buffer of one full chunk stops at the size check before anything is sent. -/
theorem sendto_full_chunk_stops : sendto (fun _ _ => 0) (List.replicate 65497 0) (freshSocket 7 9) =
      (freshSocket 7 9,[],.stopped) :=
  sendto_of_ge (fun _ _ => 0) (by decide) (by rw [List.length_replicate]; decide)

def confirmDataReceived (ack : ℕ) (msgs : List Message) : List Message :=
  msgs.filter fun msg => ¬msg.seq < ack

/-- The acknowledged number: the loop of `send_ack`. Each round finds another entry. -/
def finalAck (sock : Socket) : ℕ :=
  follow sock.receivedData (sock.receivedData.length+1) sock.dataBegSeq

def sendAck (header : TcpHeader) (sock : Socket) : Socket × List Packet :=
  let sendHdr : TcpHeader :=
    {srcPort := header.dstPort, dstPort := header.srcPort, flags := ackFlag, ack := finalAck sock}
  ({sock with dataAvailable := finalAck sock-sock.dataBegSeq},
    (generateU2sPacket sum sendHdr []).toList)

/-- `handle_connected` for a stream that is connected. -/
def handlePacket (header : TcpHeader) (data : Bytes) (sock : Socket) : Socket × List Packet :=
  if header.flags=0 ∨ header.flags=pshFlag ∨ header.flags=ackFlag ∨ header.flags=synFlag ∨
      header.flags = synFlag+ackFlag then
    if header.seq < sock.dataBegSeq then
      if header.flags≠ackFlag then sendAck sum header sock else (sock,[])
    else
      sendAck sum header
        (if (sock.receivedData.lookup header.seq).isNone ∧ header.length≠0 then
          { sock with
            receivedData := emplace sock.receivedData header.seq (data.take header.length) }
        else sock)
  else if header.flags=rstFlag ∨ header.flags=finFlag then
    ({sock with status := .disconnected, msgs := []},[])
  else (sock,[])

def handleConnected (header : TcpHeader) (data : Bytes) (sock : Socket) : Socket × List Packet :=
  if sock.status=.disconnected then (sock,[])
  else
    let sock := if header.flags &&& ackFlag≠0 then
      {sock with msgs := confirmDataReceived header.ack sock.msgs} else sock
    if sock.status=.handshaking then
      if header.flags = synFlag+ackFlag then
        sendAck sum header {sock with dataBegSeq := header.seq+1, status := .connected}
      else (sock,[])
    else handlePacket sum header data sock

/-- `nt_p2p_port::recv_data` for a packet of a stream that is bound. -/
def recvData (packet : Packet) (sock : Socket) : Socket × List Packet :=
  let header := packet.header
  if header.signature≠u2sSig then (sock,[])
  else if header.length≠packet.data.length then (sock,[])
  else if header.dstPort≠packet.dstVport then (sock,[])
  else if header.checksum≠sum {header with checksum := 0} packet.data then (sock,[])
  else handleConnected sum {header with checksum := 0} packet.data sock

/-- The loop in `recvfrom`; nothing if it reads the first entry of an empty map. -/
def giveLoop : ℕ → ℕ → List (ℕ × Bytes) → Option (Bytes × List (ℕ × Bytes))
  | 0, _, receivedData => some ([],receivedData)
  | _+1, 0, receivedData => some ([],receivedData)
  | _+1, _+1, [] => none
  | fuel+1, left+1, (key,curData)::rest =>
    let toGive := min curData.length (left+1)
    let receivedData := if curData.length≠toGive
      then emplace ((key,curData)::rest) (key+toGive) (curData.drop toGive)
      else (key,curData)::rest
    (giveLoop fuel (left+1-toGive) receivedData.tail).map fun (dest,receivedData) =>
      (curData.take toGive++dest,receivedData)

inductive Received where
  | data (bytes : Bytes)
  | disconnected
  | noData
deriving DecidableEq, Repr

/-- `lv2_socket_p2ps::recvfrom`; without data a blocking socket waits and another one returns. -/
def recvfrom (len : ℕ) (sock : Socket) : Option (Socket × Received) :=
  if sock.dataAvailable=0 then
    some (sock,if sock.status=.disconnected then .disconnected else .noData)
  else
    let toGive := min sock.dataAvailable len
    (giveLoop toGive toGive sock.receivedData).map fun (dest,receivedData) =>
      ({ sock with
        receivedData
        dataAvailable := sock.dataAvailable-toGive
        dataBegSeq := sock.dataBegSeq+toGive },.data dest)

end PS3Native.P2ps
