import Mathlib.Data.Bool.Basic
import PS3Native.P2psStream

/-!
# Steps of a stream between two sockets

Every step of either end, and every delivery of a packet, keeps the invariant: packets under way
are as they were made, what has not arrived is sent again, and each end has what has arrived and
not been taken.
-/
namespace PS3Native.P2ps
open Function List

open Reassembly

variable {sum : TcpHeader → Bytes → ℕ} {base vport : Bool → ℕ} {start opStart : ℕ}
  {pieces opPieces : List (Piece UInt8)} {taken : Bytes} {sock sock' : Socket}

theorem forall_side {P : Bool → Prop} (side : Bool) (h : P side) (h' : P (!side)) : ∀ k, P k :=
  (Bool.forall_bool' side).2 ⟨h,h'⟩

/-- Nothing that was sent is lost from the record, and what has arrived stays so. -/
def Grows (base : Bool → ℕ) (pieces pieces' : Bool → List (Piece UInt8)) : Prop :=
  ∀ side, (∀ seq p, HasPiece (base side) seq p (pieces side) →
      ∃ q, HasPiece (base side) seq q (pieces' side) ∧ q.data=p.data) ∧
    contiguousEnd (base side) (pieces side) ≤ contiguousEnd (base side) (pieces' side)

variable {side : Bool} {packet : Packet} {sent buf : Bytes} {s : State}

theorem Grows.update {pieces : Bool → List (Piece UInt8)} {new : List (Piece UInt8)}
    (hhas : ∀ seq p, HasPiece (base side) seq p (pieces side) →
      ∃ q, HasPiece (base side) seq q new ∧ q.data=p.data)
    (hend : contiguousEnd (base side) (pieces side) ≤ contiguousEnd (base side) new) :
    Grows base pieces (update pieces side new) := by
  refine forall_side side ?_ ?_
  · rw [update_self]
    exact ⟨hhas,hend⟩
  · rw [update_of_ne side.not_ne_self]
    exact ⟨fun _ p hp => ⟨p,hp,rfl⟩,Nat.le_refl _⟩

theorem Packet.Sound.grows {pieces pieces' : Bool → List (Piece UInt8)}
    (h : packet.Sound sum (base (!side)) (base side) (pieces (!side)) (pieces side))
    (hgrows : Grows base pieces pieces') :
    packet.Sound sum (base (!side)) (base side) (pieces' (!side)) (pieces' side) :=
  h.mono (hgrows (!side)).1 (hgrows side).2

theorem piecesAfter_has (seq : ℕ) (p : Piece UInt8) (h : HasPiece start seq p pieces) :
    ∃ q, HasPiece start seq q (piecesAfter start pieces packet sock) ∧ q.data=p.data := by
  rw [piecesAfter]
  split
  · exact h.arrive _
  · exact ⟨p,h,rfl⟩

theorem contiguousEnd_le_piecesAfter (start : ℕ) (pieces : List (Piece UInt8)) (packet : Packet)
    (sock : Socket) :
    contiguousEnd start pieces ≤ contiguousEnd start (piecesAfter start pieces packet sock) := by
  rw [piecesAfter]
  split
  · exact contiguousEnd_le_arrive ..
  · exact Nat.le_refl _

/-- The sending end only learns that more has arrived. -/
theorem Sending.piecesAfter {sock₁ : Socket} (h : Sending start pieces sent sock) :
    Sending start (piecesAfter start pieces packet sock₁) sent sock := by
  rw [P2ps.piecesAfter]
  split
  · refine ⟨by rw [stream_arrive]; exact h.sent_eq,by rw [stream_arrive]; exact h.curSeq,?_,?_⟩
    · intro p hp
      obtain ⟨q,hq,hdata⟩ := exists_of_mem_arrive hp
      rw [← hdata]
      exact h.nonempty q hq
    · intro seq p hp harrived
      obtain ⟨q,hq,hdata,hmono⟩ := hp.of_arrive
      have hqnot : q.arrived=false := by
        cases hq' : q.arrived with
        | false => rfl
        | true => rw [← harrived,hmono hq']
      rw [← hdata]
      exact h.kept seq q hq hqnot
  · exact h

/-- What is dropped has arrived. -/
theorem Sending.confirm (h : Sending start pieces sent sock) (hcurSeq : sock'.curSeq=sock.curSeq)
    {ack : ℕ} (hack : ack ≤ contiguousEnd start pieces)
    (hmsgs : sock'.msgs = confirmDataReceived ack sock.msgs) : Sending start pieces sent sock' := by
  refine ⟨h.sent_eq,hcurSeq.trans h.curSeq,h.nonempty,?_⟩
  intro seq p hp harrived
  obtain ⟨msg,hmem,hseq,hdata⟩ := h.kept seq p hp harrived
  refine ⟨msg,?_,hseq,hdata⟩
  rw [hmsgs,confirmDataReceived,mem_filter]
  refine ⟨hmem,?_⟩
  have hnot : ¬seq < ack := by
    intro hlt
    rw [hp.arrived (Nat.lt_of_lt_of_le hlt hack)] at harrived
    cases harrived
  simpa [hseq] using hnot

theorem Inv.deliver (hbase : ∀ side, 0 < base side) (h : Inv sum base s)
    (hmem : packet∈s.net side) : Inv sum base (s.deliver sum base side packet) := by
  have hhandled := recvData_handled (h.sending (!side)).nonempty (h.receiving side) (h.sound side packet hmem)
  have hgrows : Grows base s.pieces (s.deliver sum base side packet).pieces :=
    Grows.update piecesAfter_has (contiguousEnd_le_piecesAfter ..)
  obtain ⟨ack,hack,hmsgs⟩ := hhandled.msgs
  have hpieces : (s.deliver sum base side packet).pieces (!side) =
      piecesAfter (base (!side)) (s.pieces (!side)) packet (s.sock side) := update_self ..
  have hopPieces : (s.deliver sum base side packet).pieces side = s.pieces side :=
    update_of_ne side.self_ne_not ..
  have hsock : (s.deliver sum base side packet).sock side = (recvData sum packet (s.sock side)).1 :=
    update_self ..
  have hopSock : (s.deliver sum base side packet).sock (!side) = s.sock (!side) :=
    update_of_ne side.not_ne_self ..
  have hnet : (s.deliver sum base side packet).net side = s.net side :=
    update_of_ne side.self_ne_not ..
  have hopNet : (s.deliver sum base side packet).net (!side) =
      s.net (!side)++(recvData sum packet (s.sock side)).2 := update_self ..
  refine ⟨forall_side side ?_ ?_,forall_side side ?_ ?_,forall_side side ?_ ?_,
    forall_side side ?_ ?_⟩
  · rw [hnet]
    exact fun q hq => (h.sound side q hq).grows hgrows
  · rw [hopNet]
    intro q hq
    rcases mem_append.1 hq with hq | hq
    · exact (h.sound (!side) q hq).grows hgrows
    · obtain ⟨header,rfl⟩ := hhandled.replies q hq
      rw [Bool.not_not,hpieces]
      exact ⟨rfl,rfl,rfl,rfl,.inr ⟨rfl,hbase side,.inr (.inl ⟨rfl,Nat.le_refl _⟩)⟩⟩
  · rw [hsock,hmsgs,hopNet]
    intro msg hmsg
    exact mem_append_left _ (h.msgs side msg (mem_filter.1 hmsg).1)
  · rw [hopSock,Bool.not_not,hnet]
    have hold := h.msgs (!side)
    rwa [Bool.not_not] at hold
  · rw [hsock,hopPieces]
    exact (h.sending side).confirm hhandled.curSeq hack hmsgs
  · rw [hopSock,hpieces]
    exact (h.sending (!side)).piecesAfter
  · rw [hsock,hpieces]
    exact hhandled.receiving
  · rw [hopSock,Bool.not_not,hopPieces]
    have hold := h.receiving (!side)
    rwa [Bool.not_not] at hold

theorem Inv.resend (h : Inv sum base s) {msg : Message} (hmsg : msg∈(s.sock side).msgs) :
    Inv sum base {s with net := update s.net (!side) (s.net (!side)++[msg.packet])} := by
  have hmem : ∀ k, ∀ packet, packet∈update s.net (!side) (s.net (!side)++[msg.packet]) k ↔
        packet∈s.net k := by
    refine forall_side side ?_ ?_ <;> intro packet
    · rw [update_of_ne side.self_ne_not]
    · rw [update_self,mem_append,mem_singleton]
      refine ⟨?_,.inl⟩
      rintro (hold | rfl)
      · exact hold
      · exact h.msgs side msg hmsg
  refine ⟨?_,?_,h.sending,h.receiving⟩
  · intro k packet hpacket
    exact h.sound k packet ((hmem k packet).1 hpacket)
  · intro k m hm
    exact (hmem (!k) m.packet).2 (h.msgs k m hm)

theorem pending_giveLoop (hne : ∀ p∈pieces, p.data≠[]) (fuel left beg : ℕ)
    (hstart : start ≤ beg) (hend : beg+left ≤ contiguousEnd start pieces) (hfuel : left ≤ fuel) :
    giveLoop fuel left (pending start beg pieces) =
      some (slice (stream pieces) (beg-start) left,pending start (beg+left) pieces) := by
  induction fuel generalizing left beg with
  | zero =>
    obtain rfl : left=0 := by omega
    rw [giveLoop,slice_zero,Nat.add_zero]
  | succ fuel ih =>
    cases left with
    | zero => rw [giveLoop,slice_zero,Nat.add_zero]
    | succ left =>
      obtain ⟨data,rest,hdata,hle,htake,hpart,hall⟩ :=
        pending_eq_cons hne hstart (show beg < contiguousEnd start pieces by omega)
      have hpos : 0 < data.length := length_pos_iff.2 hdata
      have hfirst : pending start beg pieces = (beg,data)::rest := hpart 0 hpos
      have hslice : data = slice (stream pieces) (beg-start) data.length := htake
      rw [hfirst,giveLoop]
      by_cases hmore : data.length ≤ left+1
      · have hgive : min data.length (left+1)=data.length := Nat.min_eq_left hmore
        simp only [hgive,ne_eq,not_true_eq_false,if_false,tail_cons,take_length]
        rw [← hall,ih (left+1-data.length) (beg+data.length) (by omega) (by omega) (by omega),
          Option.map_some]
        have hglue := slice_append_slice (stream pieces) (beg-start) data.length
          (left+1-data.length)
        rw [← hslice,Nat.add_sub_cancel' hmore] at hglue
        rw [show beg+data.length-start = beg-start+data.length by omega,hglue,
          show beg+data.length+(left+1-data.length) = beg+(left+1) by omega]
      · have hgive : min data.length (left+1) = left+1 := Nat.min_eq_right (by omega)
        have hkeys : ∀ entry∈rest, beg+(left+1) < entry.1 := by
          intro entry hentry
          rw [← hall] at hentry
          have hle := le_key_of_mem_pending hentry
          omega
        have hemplace : emplace ((beg,data)::rest) (beg+(left+1)) (data.drop (left+1)) =
            (beg,data)::(beg+(left+1),data.drop (left+1))::rest := by
          have hnotlt : ¬beg+(left+1) < (beg,data).1 := by
            show ¬beg+(left+1) < beg
            omega
          have hnoteq : ¬beg+(left+1) = (beg,data).1 := by
            show ¬beg+(left+1)=beg
            omega
          rw [emplace,if_neg hnotlt,if_neg hnoteq,emplace_of_lt _ hkeys]
        have hpiece : data.take (left+1) = slice (stream pieces) (beg-start) (left+1) := by
          rw [hslice,slice,slice,take_take,Nat.min_eq_left (by omega)]
        have hend : ∀ map, giveLoop fuel 0 map = some ([],map) := by
          intro map
          cases fuel <;> rfl
        simp only [hgive,ne_eq,show ¬data.length = left+1 by omega,not_false_eq_true,if_true,
          hemplace,tail_cons,Nat.sub_self,hend,Option.map_some,append_nil]
        rw [hpiece,hpart (left+1) (by omega)]

/-- A call of `recvfrom` always returns, with the next bytes of the stream. -/
theorem recvfrom_spec (hne : ∀ p∈pieces, p.data≠[]) (hr : Receiving start pieces taken sock)
    (len : ℕ) : ∃ sock' r, recvfrom len sock = some (sock',r) ∧
      Receiving start pieces (taken++r.bytes) sock' ∧ sock'.curSeq=sock.curSeq ∧
      sock'.msgs=sock.msgs ∧ r.bytes.length = min sock.dataAvailable len := by
  by_cases hnone : sock.dataAvailable=0
  · refine ⟨sock,.noData,?_,?_,rfl,rfl,?_⟩
    · rw [recvfrom,if_pos hnone,if_neg hr.status]
    · rw [Received.bytes,append_nil]
      exact hr
    · rw [hnone,Nat.zero_min]
      rfl
  have hstatus : sock.status=.connected := by
    cases hstatus : sock.status with
    | disconnected => exact absurd hstatus hr.status
    | handshaking => exact absurd (hr.handshaking hstatus).2.1 hnone
    | connected => rfl
  obtain ⟨hbeg,hdata,havail,htaken⟩ := hr.connected hstatus
  have htotal := contiguousEnd_le start pieces
  have hgive := pending_giveLoop hne (min sock.dataAvailable len) (min sock.dataAvailable len)
    sock.dataBegSeq hbeg (by omega) (Nat.le_refl _)
  refine ⟨{ sock with
      receivedData := pending start (sock.dataBegSeq+min sock.dataAvailable len) pieces
      dataAvailable := sock.dataAvailable-min sock.dataAvailable len
      dataBegSeq := sock.dataBegSeq+min sock.dataAvailable len },
    .data (slice (stream pieces) (sock.dataBegSeq-start) (min sock.dataAvailable len)),
    ?_,⟨hr.status,fun _ => ⟨?_,rfl,?_,?_⟩,fun h => ?_⟩,rfl,rfl,?_⟩
  · rw [recvfrom,if_neg hnone,hdata]
    simp only [hgive,Option.map_some]
  · exact Nat.le_trans hbeg (Nat.le_add_right ..)
  · show sock.dataBegSeq+min sock.dataAvailable len +
      (sock.dataAvailable-min sock.dataAvailable len) = _
    omega
  · rw [htaken,Nat.sub_add_comm hbeg,take_add]
    rfl
  · rw [hstatus] at h
    cases h
  · exact length_slice (by omega)

theorem Inv.receive (h : Inv sum base s) {len : ℕ} {sock : Socket} {r : Received}
    (hrecv : recvfrom len (s.sock side) = some (sock,r)) :
    Inv sum base { s with
      sock := update s.sock side sock
      taken := update s.taken side (s.taken side++r.bytes) } := by
  obtain ⟨sock',r',heq,hr,hcurSeq,hmsgs,-⟩ :=
    recvfrom_spec (h.sending (!side)).nonempty (h.receiving side) len
  rw [hrecv] at heq
  cases heq
  refine ⟨h.sound,forall_side side ?_ ?_,forall_side side ?_ ?_,forall_side side ?_ ?_⟩
  · simp only [update_self,hmsgs]
    exact h.msgs side
  · simp only [update_of_ne side.not_ne_self]
    exact h.msgs (!side)
  · simp only [update_self]
    have hs := h.sending side
    exact ⟨hs.sent_eq,hcurSeq.trans hs.curSeq,hs.nonempty,hmsgs ▸ hs.kept⟩
  · simp only [update_of_ne side.not_ne_self]
    exact h.sending (!side)
  · simp only [update_self]
    exact hr
  · simp only [update_of_ne side.not_ne_self]
    exact h.receiving (!side)

theorem State.send_eq_self {outcome : SendOutcome}
    (hsend : sendto sum buf (s.sock side) = (s.sock side,[],outcome))
    (hnone : outcome = .sent buf.length → buf=[]) : s.send sum side buf=s := by
  have hbuf : (if outcome = .sent buf.length then buf else [])=[] := by
    split
    · exact hnone (by assumption)
    · rfl
  simp only [State.send,hsend,hbuf,append_nil,map_nil,update_eq_self]

theorem Sending.afterSend (h : Sending start pieces sent sock) (hne : buf≠[]) :
    Sending start (pieces++[⟨buf,false⟩]) (sent++buf) (afterSend sum sock buf) := by
  refine ⟨?_,?_,?_,?_⟩
  · rw [stream_append,h.sent_eq]
    simp [stream]
  · show sock.curSeq+buf.length = _
    rw [h.curSeq,stream_append,length_append]
    simp [stream,Nat.add_assoc]
  · intro p hp
    rcases mem_append.1 hp with hp | hp
    · exact h.nonempty p hp
    · rw [mem_singleton.1 hp]
      exact hne
  · intro seq p hp harrived
    rcases HasPiece.concat_iff.1 hp with hp | ⟨rfl,rfl⟩
    · obtain ⟨msg,hmem,hmsg⟩ := h.kept seq p hp harrived
      exact ⟨msg,mem_cons_of_mem _ hmem,hmsg⟩
    · exact ⟨_,mem_cons_self,h.curSeq,rfl⟩

/-- The receiving end does not know of a segment before it arrives. -/
theorem Receiving.concat (h : Receiving start pieces taken sock) (buf : Bytes) :
    Receiving start (pieces++[⟨buf,false⟩]) taken sock := by
  refine ⟨h.status,fun hstatus => ?_,fun hstatus => ?_⟩
  · obtain ⟨hbeg,hdata,havail,htaken⟩ := h.connected hstatus
    have htotal := contiguousEnd_le start pieces
    refine ⟨hbeg,?_,?_,?_⟩
    · rw [pending_concat]
      exact hdata
    · rw [contiguousEnd_concat]
      exact havail
    · rw [stream_append,take_append_of_le_length (by omega)]
      exact htaken
  · obtain ⟨hdata,havail,htaken,hnone⟩ := h.handshaking hstatus
    refine ⟨hdata,havail,htaken,fun p hp => ?_⟩
    rcases mem_append.1 hp with hp | hp
    · exact hnone p hp
    · rw [mem_singleton.1 hp]

theorem dataPacket_sound (h : Sending start pieces sent sock) (hne : buf≠[]) :
    (dataPacket sum sock buf).Sound sum start opStart (pieces++[⟨buf,false⟩]) opPieces :=
  ⟨rfl,rfl,rfl,rfl,.inl ⟨rfl,⟨_,HasPiece.concat_iff.2 (.inr ⟨rfl,h.curSeq⟩),rfl⟩,hne⟩⟩

theorem Inv.send (h : Inv sum base s) (side : Bool) (buf : Bytes) :
    Inv sum base (s.send sum side buf) := by
  have hstatus := (h.receiving side).status
  by_cases hne : buf=[]
  · subst hne
    rw [State.send_eq_self (sendto_empty sum hstatus) fun _ => rfl]
    exact h
  by_cases hlt : buf.length < maxDataLen
  swap
  · rw [State.send_eq_self (sendto_of_ge sum hstatus (Nat.le_of_not_lt hlt)) (by simp)]
    exact h
  have hsend := sendto_of_lt sum hstatus hne hlt
  have hs : s.send sum side buf = { s with
      sock := update s.sock side (P2ps.afterSend sum (s.sock side) buf)
      net := update s.net (!side) (s.net (!side)++[dataPacket sum (s.sock side) buf])
      pieces := update s.pieces side (s.pieces side++[⟨buf,false⟩])
      sent := update s.sent side (s.sent side++buf) } := by
    simp only [State.send,hsend,if_true,map_cons,map_nil]
    rfl
  rw [hs]
  have hgrows : Grows base s.pieces (update s.pieces side (s.pieces side++[⟨buf,false⟩])) :=
    Grows.update (fun _ p hp => ⟨p,hp.append _,rfl⟩) (Nat.le_of_eq (contiguousEnd_concat ..).symm)
  refine ⟨forall_side side ?_ ?_,forall_side side ?_ ?_,forall_side side ?_ ?_,
    forall_side side ?_ ?_⟩
  · simp only [update_of_ne side.self_ne_not]
    exact fun packet hpacket => (h.sound side packet hpacket).grows hgrows
  · simp only [update_self]
    intro packet hpacket
    rcases mem_append.1 hpacket with hpacket | hpacket
    · exact (h.sound (!side) packet hpacket).grows hgrows
    · rw [mem_singleton.1 hpacket,Bool.not_not,update_self]
      exact dataPacket_sound (h.sending side) hne
  · simp only [update_self]
    intro msg hmsg
    rcases mem_cons.1 hmsg with rfl | hmsg
    · exact mem_append_right _ mem_cons_self
    · exact mem_append_left _ (h.msgs side msg hmsg)
  · simp only [Bool.not_not,update_of_ne side.not_ne_self,update_of_ne side.self_ne_not]
    have hold := h.msgs (!side)
    rwa [Bool.not_not] at hold
  · simp only [update_self]
    exact (h.sending side).afterSend hne
  · simp only [update_of_ne side.not_ne_self]
    exact h.sending (!side)
  · simp only [update_self,update_of_ne side.not_ne_self]
    have hold := h.receiving side
    exact ⟨hold.status,hold.connected,hold.handshaking⟩
  · simp only [Bool.not_not,update_self,update_of_ne side.not_ne_self]
    have hold := h.receiving (!side)
    rw [Bool.not_not] at hold
    exact hold.concat buf

theorem Inv.initial (hbase : ∀ side, 0 < base side) : Inv sum base (initial sum base vport) := by
  have hsending : ∀ (start : ℕ) (sock : Socket), sock.curSeq=start →
      Sending start [] [] sock := by
    intro start sock hcurSeq
    refine ⟨rfl,hcurSeq,by simp,?_⟩
    rintro seq p ⟨before,after,heq,-⟩
    simp at heq
  refine ⟨forall_side true ?_ ?_,forall_side true ?_ ?_,forall_side true ?_ ?_,
    forall_side true ?_ ?_⟩
  · intro packet hpacket
    have hpos := hbase false
    rw [mem_singleton.1 hpacket]
    exact ⟨rfl,rfl,rfl,rfl,.inr ⟨rfl,Nat.sub_lt hpos Nat.one_pos,
      .inr (.inr ⟨rfl,Nat.sub_add_cancel hpos,Nat.le_refl _⟩)⟩⟩
  · intro packet hpacket
    rw [mem_singleton.1 hpacket]
    exact ⟨rfl,rfl,rfl,rfl,.inr ⟨rfl,Nat.sub_lt (hbase true) Nat.one_pos,.inl rfl⟩⟩
  · intro msg hmsg
    rw [mem_singleton.1 hmsg]
    exact mem_cons_self
  · intro msg hmsg
    rw [mem_singleton.1 hmsg]
    exact mem_cons_self
  · exact hsending _ _ rfl
  · exact hsending _ _ rfl
  · refine ⟨?_,?_,fun _ => ⟨rfl,rfl,rfl,by simp [P2ps.initial]⟩⟩ <;>
    · intro h
      cases h
  · refine ⟨?_,fun _ => ⟨Nat.le_refl _,rfl,rfl,take_nil.symm⟩,?_⟩ <;>
    · intro h
      cases h

theorem Reachable.inv (hbase : ∀ side, 0 < base side) (h : Reachable sum base vport s) :
    Inv sum base s := by
  induction h with
  | initial => exact .initial hbase
  | step _ hstep ih =>
    cases hstep with
    | send side buf => exact ih.send side buf
    | deliver hmem => exact ih.deliver hbase hmem
    | resend hmsg => exact ih.resend hmsg
    | receive hrecv => exact ih.receive hrecv

end PS3Native.P2ps
