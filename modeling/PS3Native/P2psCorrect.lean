import PS3Native.P2psSteps

/-! # A stream delivers what was sent -/
namespace PS3Native.P2ps

open Reassembly

variable {start : ℕ} {pieces : List (Piece UInt8)} {taken : Bytes} {sock : Socket}

/-- What has been taken is a beginning of the stream, and it ends where the rest begins. -/
theorem Receiving.taken_prefix (h : Receiving start pieces taken sock) : taken <+: stream pieces := by
  cases hstatus : sock.status with
  | disconnected => exact absurd hstatus h.status
  | handshaking =>
    rw [(h.handshaking hstatus).2.2.1]
    exact List.nil_prefix
  | connected =>
    rw [(h.connected hstatus).2.2.2]
    exact List.take_prefix _ _

/-- What has arrived has been taken or can be taken. -/
theorem Receiving.length_taken (h : Receiving start pieces taken sock) :
    taken.length+sock.dataAvailable = contiguousEnd start pieces-start := by
  cases hstatus : sock.status with
  | disconnected => exact absurd hstatus h.status
  | handshaking =>
    obtain ⟨-,havail,htaken,hnone⟩ := h.handshaking hstatus
    rw [havail,htaken,contiguousEnd_of_not_arrived hnone,Nat.sub_self]
    rfl
  | connected =>
    obtain ⟨hbeg,-,havail,htaken⟩ := h.connected hstatus
    have htotal := contiguousEnd_le start pieces
    rw [htaken,List.length_take]
    omega

/-- A segment that has arrived is at the receiving end as a whole. -/
theorem Receiving.has_arrived (h : Receiving start pieces taken sock) {seq : ℕ} {p : Piece UInt8}
    (hp : HasPiece start seq p pieces) (harrived : p.arrived) :
    seq+p.data.length ≤ sock.dataBegSeq ∨
      (max seq sock.dataBegSeq,p.data.drop (sock.dataBegSeq-seq))∈sock.receivedData := by
  cases hstatus : sock.status with
  | disconnected => exact absurd hstatus h.status
  | handshaking =>
    rw [(h.handshaking hstatus).2.2.2 p hp.mem] at harrived
    cases harrived
  | connected =>
    obtain ⟨hbeg,hdata,-,-⟩ := h.connected hstatus
    rcases Nat.lt_or_ge sock.dataBegSeq (seq+p.data.length) with hlt | hge
    · rw [hdata]
      exact .inr (hp.mem_pending harrived hlt)
    · exact .inl hge

/-- In every run of two ends of a stream, with any loss, repetition and reordering of packets: the
next sequence number counts the bytes sent, so that it fits into 64 bits while they do; one end has
received a beginning of what the other one has sent; what it acknowledges is the end of what has
arrived without a gap; a segment that the sending end does not keep to send it again has been taken
or is in the received data; calls of `recvfrom` return; and if all segments have arrived, all the
bytes can be received. -/
theorem p2ps_stream_delivers_prefix (sum : TcpHeader → Bytes → ℕ) (base vport : Bool → ℕ)
    (hbase : ∀ side, 0 < base side) {s : State} (h : Reachable sum base vport s) (side : Bool) :
    s.sent (!side) = stream (s.pieces (!side)) ∧
      (s.sock (!side)).curSeq = base (!side)+(s.sent (!side)).length ∧
      s.taken side <+: s.sent (!side) ∧
      (∀ packet∈s.net side, ∀ reply∈(recvData sum packet (s.sock side)).2,
        reply.header.flags=ackFlag ∧ reply.header.ack = contiguousEnd (base (!side))
          ((s.deliver sum base side packet).pieces (!side))) ∧
      (∀ seq p, HasPiece (base (!side)) seq p (s.pieces (!side)) →
        (∃ msg∈(s.sock (!side)).msgs, msg.seq=seq ∧ msg.packet.data=p.data) ∨
          seq+p.data.length ≤ (s.sock side).dataBegSeq ∨
          (max seq (s.sock side).dataBegSeq,p.data.drop ((s.sock side).dataBegSeq-seq)) ∈
            (s.sock side).receivedData) ∧
      (∀ len, ∃ sock r, recvfrom len (s.sock side) = some (sock,r) ∧
        ((∀ p∈s.pieces (!side), p.arrived) → (s.sent (!side)).length ≤ len →
          s.taken side++r.bytes = s.sent (!side))) := by
  have hinv := h.inv hbase
  have hsending := hinv.sending (!side)
  have hreceiving := hinv.receiving side
  refine ⟨hsending.sent_eq,?_,?_,?_,?_,?_⟩
  · rw [hsending.sent_eq,hsending.curSeq]
  · rw [hsending.sent_eq]
    exact hreceiving.taken_prefix
  · intro packet hpacket reply hreply
    have hhandled := recvData_handled hsending.nonempty hreceiving (hinv.sound side packet hpacket)
    obtain ⟨header,rfl⟩ := hhandled.replies reply hreply
    refine ⟨rfl,?_⟩
    simp only [State.deliver,Function.update_self]
    rfl
  · intro seq p hp
    cases harrived : p.arrived with
    | false => exact .inl (hsending.kept seq p hp harrived)
    | true => exact .inr (hreceiving.has_arrived hp harrived)
  · intro len
    obtain ⟨sock,r,hrecv,hreceiving',-,-,hlength⟩ := recvfrom_spec hsending.nonempty hreceiving len
    refine ⟨sock,r,hrecv,fun harrived hlen => ?_⟩
    rw [hsending.sent_eq] at hlen ⊢
    have htaken := hreceiving.length_taken
    rw [contiguousEnd_of_arrived harrived,Nat.add_sub_cancel_left] at htaken
    refine hreceiving'.taken_prefix.eq_of_length ?_
    rw [List.length_append]
    omega

def answered : State :=
  (initial (fun _ _ => 0) (fun _ => 1) fun _ => 0).deliver (fun _ _ => 0) (fun _ => 1) true
    (synAckPacket (fun _ _ => 0) (fun _ => 1) fun _ => 0)

def greeted : State :=
  (answered.send (fun _ _ => 0) true [104,105]).deliver (fun _ _ => 0) (fun _ => 1) false
    (dataPacket (fun _ _ => 0) (answered.sock true) [104,105])

theorem p2ps_stream_delivers_prefix_greeting :
    ∃ sock r, recvfrom 2 (greeted.sock false) = some (sock,r) ∧
      greeted.taken false++r.bytes = [104,105] := by
  have hanswered : Reachable (fun _ _ => 0) (fun _ => 1) (fun _ => 0) answered :=
    .step .initial (.deliver List.mem_cons_self)
  have hreach : Reachable (fun _ _ => 0) (fun _ => 1) (fun _ => 0) greeted :=
    .step (.step hanswered (.send answered true [104,105])) (.deliver (by decide))
  have hdelivers := p2ps_stream_delivers_prefix (fun _ _ => 0) (fun _ => 1) (fun _ => 0)
    (fun _ => Nat.one_pos) hreach false
  obtain ⟨sock,r,hrecv,hall⟩ := hdelivers.2.2.2.2.2 2
  exact ⟨sock,r,hrecv,hall (by decide) (by decide)⟩

end PS3Native.P2ps
