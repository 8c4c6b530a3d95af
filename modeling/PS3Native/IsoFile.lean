import PS3Native.Alignment
import PS3Native.IsoExtents

/-!
# Reads by sectors

The part of a read that lies in one extent is transferred as a first sector, the sectors between,
and a last sector. The first and the last one go through the aligned buffer and are trimmed there;
a raw device also needs it for the sectors between.
-/
namespace PS3Native.Iso

/-- Decrypts bytes read from an address; nothing if it stops at a failed check or an invalid
write. -/
abbrev Decrypt := ℕ → Bytes → Option Bytes

structure Sector where
  lbaAddress : ℕ
  offset : ℕ
  size : ℕ
  addressAligned : ℕ
  offsetAligned : ℕ
  sizeAligned : ℕ
deriving DecidableEq, Repr

def firstSec (rawDevice : Bool) (archiveFirstOffset maxSize : ℕ) : Sector :=
  let lbaAddress := archiveFirstOffset/sectorSize*sectorSize
  let offset := archiveFirstOffset%sectorSize
  let size := if offset+maxSize ≤ sectorSize then maxSize else sectorSize-offset
  if ¬rawDevice then
    let firstIn := alignDown offset 16
    let firstOut := alignDown (offset+size) 16
    -- The block before is read too, as the initialization vector.
    let offsetAligned := if firstIn≠0 then firstIn-16 else 0
    let sizeAligned := if firstOut≠offset+size then firstOut+16-offsetAligned
      else firstOut-offsetAligned
    ⟨lbaAddress,offset,size,lbaAddress+offsetAligned,offsetAligned,sizeAligned⟩
  else ⟨lbaAddress,offset,size,lbaAddress,0,sectorSize⟩

def lastSec (rawDevice : Bool) (archiveLastOffset : ℕ) : Sector :=
  let lbaAddress := archiveLastOffset/sectorSize*sectorSize
  let size := archiveLastOffset%sectorSize+1
  let firstOut := alignDown size 16
  let sizeAligned := if ¬rawDevice then (if firstOut≠size then firstOut+16 else firstOut)
    else sectorSize
  ⟨lbaAddress,0,size,lbaAddress,0,sizeAligned⟩

def readDecrypt (dec : Decrypt) (disc : Bytes) (address : ℕ) (buffer : Bytes) (pos n : ℕ) :
    Option (Bytes × ℕ) :=
  let read := slice disc address n
  let buffer := store buffer pos read
  (dec address (slice buffer pos n)).map fun out => (store buffer pos out,read.length)

def innerLoop (dec : Decrypt) (disc : Bytes) (address pos innerSectorSize : ℕ) :
    ℕ → ℕ → ℕ → Buffers → Option (Buffers × ℕ)
  | 0, _, _, _ => none
  | fuel+1, sectorOffset, totalRead, b =>
    if sectorOffset < innerSectorSize then do
      let blockSize := min (innerSectorSize-sectorOffset) rawReadSize
      let (aligned,read) ← readDecrypt dec disc (address+sectorOffset) b.aligned 0 blockSize
      innerLoop dec disc address pos innerSectorSize fuel (sectorOffset+blockSize)
        (totalRead+read) ⟨store b.user (pos+sectorOffset) (slice aligned 0 blockSize),aligned⟩
    else some (b,totalRead)

/-- The inner sectors: read to their place in the user's buffer, or by way of the aligned one. -/
def innerSectors (rawDevice : Bool) (dec : Decrypt) (disc : Bytes)
    (address pos innerSectorSize : ℕ) (b : Buffers) : Option (Buffers × ℕ) :=
  if innerSectorSize=0 then some (b,0)
  else if ¬rawDevice then
    (readDecrypt dec disc address b.user pos innerSectorSize).map fun (user,read) =>
      ({b with user},read)
  else innerLoop dec disc address pos innerSectorSize (innerSectorSize+1) 0 0 b

/-- The body of `iso_file_encrypted::read_at`, and of `iso_file::read_at` for a raw device. -/
def sectorTransfer (rawDevice : Bool) (dec : Decrypt) (disc : Bytes) : Transfer :=
  fun archiveFirstOffset maxSize b => do
    let first := firstSec rawDevice archiveFirstOffset maxSize
    let last := lastSec rawDevice (archiveFirstOffset+maxSize-1)
    let (aligned,firstRead) ←
      readDecrypt dec disc first.addressAligned b.aligned first.offsetAligned first.sizeAligned
    let user := store b.user 0 (slice aligned first.offset first.size)
    let sectorCount := (last.lbaAddress-first.lbaAddress)/sectorSize+1
    if sectorCount < 2 then some (⟨user,aligned⟩,firstRead=first.sizeAligned)
    else
      let (b,innerRead) ← innerSectors rawDevice dec disc (first.lbaAddress+sectorSize)
        first.size ((sectorCount-2)*sectorSize) ⟨user,aligned⟩
      let (aligned,lastRead) ← readDecrypt dec disc last.addressAligned b.aligned 0 last.sizeAligned
      some (⟨store b.user (maxSize-last.size) (slice aligned 0 last.size),aligned⟩,
        firstRead+innerRead+lastRead =
          first.sizeAligned+last.sizeAligned+(sectorCount-2)*sectorSize)

/-- `iso_file::read_at` for a source that is no raw device. -/
def plainTransfer (disc : Bytes) : Transfer := fun archiveFirstOffset maxSize b =>
  let read := slice disc archiveFirstOffset maxSize
  some ({b with user := store b.user 0 read},read.length=maxSize)

def isoFileReadAt (rawDevice : Bool) (disc : Bytes) (extents : List Extent) (offset size : ℕ)
    (b : Buffers) : Option (ℕ × Buffers) :=
  readAt (if ¬rawDevice then plainTransfer disc else sectorTransfer true (fun _ => some) disc)
    extents offset size b

def Extent.HasSector (extent : Extent) (sector : ℕ) : Prop :=
  extent.start ≤ sector ∧ sector*sectorSize < extent.start*sectorSize+extent.size

/-- What a decryption has to do for reads from the extents to see `plain`: it decrypts whole
sectors, and parts of a sector that are made of blocks. In a part that does not start its sector
the first block is only there to decrypt the second one. -/
structure Decrypts (dec : Decrypt) (disc plain : Bytes) (extents : List Extent) : Prop where
  whole : ∀ extent∈extents, ∀ sector count, 0 < count → extent.HasSector sector →
    extent.HasSector (sector+count-1) →
    dec (sector*sectorSize) (slice disc (sector*sectorSize) (count*sectorSize)) =
      some (slice plain (sector*sectorSize) (count*sectorSize))
  part : ∀ extent∈extents, ∀ sector pos n, extent.HasSector sector → 16 ∣ pos → 16 ∣ n →
    16 < n ∨ pos=0 ∧ 0 < n → pos+n ≤ sectorSize →
    ∃ out : Bytes, dec (sector*sectorSize+pos) (slice disc (sector*sectorSize+pos) n) = some out ∧
      out.length=n ∧ ∀ k ≤ n, (pos=0 ∨ 16 ≤ k) →
        out.drop k = slice plain (sector*sectorSize+pos+k) (n-k)

variable {n : ℕ}

theorem Extent.HasSector.of_covers {extent : Extent} {address k : ℕ} (h : extent.Covers address n)
    (hk : k < n) : extent.HasSector ((address+k)/sectorSize) := by
  simp only [Extent.Covers,Extent.HasSector,sectorSize] at *
  omega

theorem Extent.HasSector.le_length {disc : Bytes} {extent : Extent} {sector : ℕ}
    (h : extent.HasSector sector) (hinside : extent.Inside disc) (hdisc : sectorSize ∣ disc.length) :
    sector*sectorSize+sectorSize ≤ disc.length := by
  have hsize : extent.size≠0 := by
    simp only [Extent.HasSector,sectorSize] at h
    omega
  have hend := hinside hsize
  obtain ⟨count,hcount⟩ := hdisc
  have hlt : sector*sectorSize < count*sectorSize := by
    rw [Nat.mul_comm count,← hcount]
    exact Nat.lt_of_lt_of_le h.2 hend
  rw [hcount,Nat.mul_comm sectorSize count,← Nat.succ_mul]
  exact Nat.mul_le_mul_right _ (Nat.lt_of_mul_lt_mul_right hlt)

theorem readDecrypt_eq {dec : Decrypt} {disc out : Bytes} {address : ℕ} (buffer : Bytes) (pos : ℕ)
    (hdisc : address+n ≤ disc.length) (hbuffer : pos+n ≤ buffer.length)
    (hdec : dec address (slice disc address n) = some out) (hout : out.length=n) :
    readDecrypt dec disc address buffer pos n = some (store buffer pos out,n) := by
  have hread : (slice disc address n).length=n := length_slice hdisc
  have hslice : slice (store buffer pos (slice disc address n)) pos n = slice disc address n := by
    have h := slice_store buffer (slice disc address n) (show pos ≤ buffer.length by omega)
    rwa [hread] at h
  simp only [readDecrypt]
  rw [hslice,hdec,Option.map_some,store_store_of_length_eq (by omega) (by omega),hread]

theorem firstSec_spec (rawDevice : Bool) (address : ℕ) (hn : 0 < n) :
    ∃ pos size, firstSec rawDevice address n = ⟨address/sectorSize*sectorSize,
        address%sectorSize,min n (sectorSize-address%sectorSize),
        address/sectorSize*sectorSize+pos,pos,size⟩ ∧
      16 ∣ pos ∧ 16 ∣ size ∧ (16 < size ∨ pos=0 ∧ 0 < size) ∧ pos+size ≤ sectorSize ∧
      (pos=0 ∨ pos+16 ≤ address%sectorSize) ∧ pos ≤ address%sectorSize ∧
      address%sectorSize+min n (sectorSize-address%sectorSize) ≤ pos+size := by
  have hsize : (if address%sectorSize+n ≤ sectorSize then n else
      sectorSize-address%sectorSize) = min n (sectorSize-address%sectorSize) := by
    split <;> simp only [sectorSize] at * <;> omega
  cases rawDevice with
  | true =>
    refine ⟨0,sectorSize,?_,?_⟩
    · simp only [firstSec,hsize,not_true_eq_false,if_false,Nat.add_zero]
    · unfold sectorSize
      omega
  | false =>
    simp only [firstSec,hsize,Bool.false_eq_true,not_false_eq_true,if_true]
    refine ⟨_,_,rfl,?_⟩
    have hpiece : 0 < min n (sectorSize-address%sectorSize) := by
      unfold sectorSize at *
      omega
    have hend : address%sectorSize+min n (sectorSize-address%sectorSize) ≤ 2048 := by
      unfold sectorSize at *
      omega
    generalize min n (sectorSize-address%sectorSize) = piece at *
    generalize address%sectorSize = offset at *
    unfold alignDown sectorSize
    by_cases hin : offset/16*16=0 <;>
      by_cases hout : (offset+piece)/16*16 = offset+piece <;>
      simp only [hin,hout,ne_eq,not_true_eq_false,not_false_eq_true,if_true,if_false,
        true_and,true_or] <;>
      omega

theorem lastSec_spec (rawDevice : Bool) (address : ℕ) :
    ∃ size, lastSec rawDevice address = ⟨address/sectorSize*sectorSize,0,
        address%sectorSize+1,address/sectorSize*sectorSize,0,size⟩ ∧
      16 ∣ size ∧ 0 < size ∧ size ≤ sectorSize ∧ address%sectorSize+1 ≤ size := by
  have hoffset : address%sectorSize < 2048 := Nat.mod_lt _ (by decide)
  cases rawDevice with
  | true =>
    refine ⟨sectorSize,by simp only [lastSec,not_true_eq_false,if_false],?_⟩
    unfold sectorSize
    omega
  | false =>
    simp only [lastSec,Bool.false_eq_true,not_false_eq_true,if_true]
    refine ⟨_,rfl,?_⟩
    generalize address%sectorSize = offset at *
    unfold alignDown sectorSize
    by_cases hout : (offset+1)/16*16 = offset+1 <;>
      simp only [hout,ne_eq,not_true_eq_false,not_false_eq_true,if_true,if_false] <;>
      omega

section

variable {dec : Decrypt} {disc plain : Bytes} {extents : List Extent} {extent : Extent}
  {sector count : ℕ}

theorem readDecrypt_part (hdec : Decrypts dec disc plain extents) (hmem : extent∈extents)
    {pos n offset : ℕ} (size : ℕ) (hsector : extent.HasSector sector)
    (hlength : sector*sectorSize+sectorSize ≤ disc.length) (hpos : 16 ∣ pos) (hn : 16 ∣ n)
    (hsize : 16 < n ∨ pos=0 ∧ 0 < n) (hle : pos+n ≤ sectorSize)
    (hfirst : pos=0 ∨ pos+16 ≤ offset) (hoffset : pos ≤ offset) (hend : offset+size ≤ pos+n)
    {buffer : Bytes} (hbuffer : buffer.length=rawReadSize) :
    ∃ buffer' : Bytes, buffer'.length=rawReadSize ∧
      readDecrypt dec disc (sector*sectorSize+pos) buffer pos n = some (buffer',n) ∧
      slice buffer' offset size = slice plain (sector*sectorSize+offset) size := by
  obtain ⟨out,hout,hlen,hdrop⟩ := hdec.part extent hmem sector pos n hsector hpos hn hsize hle
  have hfits : pos+out.length ≤ buffer.length := by
    rw [hlen,hbuffer]
    exact Nat.le_trans hle (by decide)
  refine ⟨store buffer pos out,by rw [length_store hfits,hbuffer],
    readDecrypt_eq buffer pos (by omega) (by omega) hout hlen,?_⟩
  rw [slice_store_of_le (by omega) hoffset (by omega)]
  have hplain := hdrop (offset-pos) (by omega) (by omega)
  simp only [slice] at hplain ⊢
  rw [hplain,List.take_take,Nat.min_eq_left (by omega),show sector*sectorSize+pos +
    (offset-pos) = sector*sectorSize+offset by omega]

/-- Where the first sector ends and the last one begins, if they are not the same one. -/
theorem sector_split {address n : ℕ} (hn : 0 < n) (hfirst : address/sectorSize=sector)
    (hlast : (address+n-1)/sectorSize = sector+1+count) :
    min n (sectorSize-address%sectorSize) = sectorSize-address%sectorSize ∧
      address+(sectorSize-address%sectorSize) = (sector+1)*sectorSize ∧
      sectorSize-address%sectorSize+count*sectorSize +
        ((address+n-1)%sectorSize+1)=n := by
  unfold sectorSize at *
  omega

section

variable (hdec : Decrypts dec disc plain extents) (hplain : plain.length=disc.length)

include hdec hplain

theorem innerLoop_eq (hmem : extent∈extents) {pos : ℕ} (hfirst : extent.HasSector sector)
    (hlast : extent.HasSector (sector+count-1)) (hlength : (sector+count)*sectorSize ≤ disc.length)
    (fuel done totalRead : ℕ) (b : Buffers) (hdone : done ≤ count) (hfuel : count-done < fuel)
    (huser : pos+count*sectorSize ≤ b.user.length) (haligned : b.aligned.length=rawReadSize) :
    ∃ aligned : Bytes, aligned.length=rawReadSize ∧
      innerLoop dec disc (sector*sectorSize) pos (count*sectorSize) fuel (done*sectorSize)
        totalRead b = some (⟨store b.user (pos+done*sectorSize)
          (slice plain ((sector+done)*sectorSize) ((count-done)*sectorSize)),aligned⟩,
          totalRead+(count-done)*sectorSize) := by
  induction fuel generalizing done totalRead b with
  | zero => omega
  | succ fuel ih =>
    rw [innerLoop]
    by_cases hmore : done < count
    · rw [if_pos (by unfold sectorSize; omega)]
      obtain ⟨k,hk,hle,hblock⟩ : ∃ k, 0 < k ∧ done+k ≤ count ∧
          min (count*sectorSize-done*sectorSize) rawReadSize = k*sectorSize :=
        ⟨min (count-done) 512,by omega,by omega,by unfold sectorSize rawReadSize; omega⟩
      have hend : (sector+done)*sectorSize+k*sectorSize ≤ disc.length := by
        rw [← Nat.add_mul]
        exact Nat.le_trans (Nat.mul_le_mul_right _ (by omega)) hlength
      have haddress : sector*sectorSize+done*sectorSize = (sector+done)*sectorSize :=
        (Nat.add_mul ..).symm
      obtain ⟨piece,hp⟩ : ∃ piece, slice plain ((sector+done)*sectorSize) (k*sectorSize)=piece :=
        ⟨_,rfl⟩
      have hpiece : piece.length = k*sectorSize := hp ▸ length_slice (by omega)
      have hwhole := hdec.whole extent hmem (sector+done) k hk
        (by simp only [Extent.HasSector,sectorSize] at *; omega)
        (by simp only [Extent.HasSector,sectorSize] at *; omega)
      rw [hp] at hwhole
      have hread := readDecrypt_eq b.aligned 0 hend (by omega) hwhole hpiece
      simp only [hblock,haddress,hread,Option.bind_eq_bind,Option.bind_some]
      have haligned' : (store b.aligned 0 piece).length=rawReadSize := by
        rw [length_store (by omega),haligned]
      have hback : slice (store b.aligned 0 piece) 0 (k*sectorSize)=piece :=
        hpiece ▸ slice_store b.aligned piece (Nat.zero_le _)
      rw [hback,← Nat.add_mul]
      have hfits : pos+done*sectorSize+k*sectorSize ≤ b.user.length := by
        rw [Nat.add_assoc,← Nat.add_mul]
        exact Nat.le_trans (Nat.add_le_add_left (Nat.mul_le_mul_right _ hle) _) huser
      obtain ⟨aligned,hlen,heq⟩ := ih (done+k) (totalRead+k*sectorSize)
        ⟨store b.user (pos+done*sectorSize) piece,store b.aligned 0 piece⟩ hle (by omega)
        (by rw [length_store (by omega)]; exact huser) haligned'
      refine ⟨aligned,hlen,?_⟩
      have hnext : pos+(done+k)*sectorSize = pos+done*sectorSize+piece.length := by
        rw [hpiece,Nat.add_mul,Nat.add_assoc]
      have hplace : (sector+(done+k))*sectorSize = (sector+done)*sectorSize+k*sectorSize := by
        rw [← Nat.add_assoc,Nat.add_mul]
      have hrest : k*sectorSize+(count-(done+k))*sectorSize = (count-done)*sectorSize := by
        rw [← Nat.add_mul]
        congr 1
        omega
      rw [heq,hnext,store_store (by omega),hplace,← hp,slice_append_slice,hrest,Nat.add_assoc,hrest]
    · obtain rfl : done=count := by omega
      rw [if_neg (Nat.lt_irrefl _),Nat.sub_self,Nat.zero_mul,slice_zero,store_nil,Nat.add_zero]
      exact ⟨b.aligned,haligned,rfl⟩

theorem innerSectors_eq (rawDevice : Bool) (hmem : extent∈extents) (pos : ℕ)
    (hsectors : 0 < count → extent.HasSector sector ∧ extent.HasSector (sector+count-1))
    (hlength : (sector+count)*sectorSize ≤ disc.length) (b : Buffers)
    (huser : pos+count*sectorSize ≤ b.user.length) (haligned : b.aligned.length=rawReadSize) :
    ∃ aligned : Bytes, aligned.length=rawReadSize ∧
      innerSectors rawDevice dec disc (sector*sectorSize) pos (count*sectorSize) b =
        some (⟨store b.user pos (slice plain (sector*sectorSize) (count*sectorSize)),aligned⟩,
          count*sectorSize) := by
  rcases Nat.eq_zero_or_pos count with rfl | hcount
  · refine ⟨b.aligned,haligned,?_⟩
    rw [innerSectors,Nat.zero_mul,if_pos rfl,slice_zero,store_nil]
  · obtain ⟨hfirst,hlast⟩ := hsectors hcount
    rw [innerSectors,if_neg (Nat.mul_ne_zero (by omega) (by decide))]
    cases rawDevice with
    | false =>
      refine ⟨b.aligned,haligned,?_⟩
      rw [Nat.add_mul] at hlength
      rw [if_pos (by decide),readDecrypt_eq b.user pos hlength huser
        (hdec.whole extent hmem sector count hcount hfirst hlast) (length_slice (by omega))]
      rfl
    | true =>
      have hfuel : count-0 < count*sectorSize+1 := by
        unfold sectorSize
        omega
      obtain ⟨aligned,hlen,heq⟩ := innerLoop_eq hdec hplain hmem hfirst hlast hlength
        (count*sectorSize+1) 0 0 b (Nat.zero_le _) hfuel huser haligned
      refine ⟨aligned,hlen,?_⟩
      rw [Nat.zero_mul] at heq
      rw [if_neg (by decide),heq,Nat.sub_zero,Nat.add_zero,Nat.add_zero,Nat.zero_add]

/-- The first, the inner and the last sectors together are the part that was asked for. -/
theorem sectorTransfer_transfers (rawDevice : Bool) (hdisc : sectorSize ∣ disc.length)
    (hinside : ∀ extent∈extents, extent.Inside disc) :
    Transfers (sectorTransfer rawDevice dec disc) plain extents := by
  intro address n b hn hcovered huser haligned
  obtain ⟨extent,hmem,hcovers⟩ := hcovered
  have hfirst : extent.HasSector (address/sectorSize) :=
    Extent.HasSector.of_covers (k := 0) hcovers hn
  have hlast : extent.HasSector ((address+n-1)/sectorSize) := by
    have h := Extent.HasSector.of_covers (k := n-1) hcovers (by omega)
    rwa [← Nat.add_sub_assoc hn] at h
  have hfirst_le := hfirst.le_length (hinside extent hmem) hdisc
  have hlast_le := hlast.le_length (hinside extent hmem) hdisc
  obtain ⟨pos,size,hfirstSec,hpos,hsize,hkind,hle,hblock,hstart,hend⟩ :=
    firstSec_spec rawDevice address hn
  obtain ⟨lastSize,hlastSec,hlast16,hlastPos,hlastLe,hlastEnd⟩ :=
    lastSec_spec rawDevice (address+n-1)
  obtain ⟨aligned,hlen,hread,hslice⟩ := readDecrypt_part hdec hmem _ hfirst hfirst_le hpos hsize
    hkind hle hblock hstart hend haligned
  have hcount : ((address+n-1)/sectorSize*sectorSize-address/sectorSize*sectorSize) /
      sectorSize = (address+n-1)/sectorSize-address/sectorSize := by
    rw [← Nat.sub_mul,Nat.mul_div_cancel _ (by decide)]
  have haddress : address/sectorSize*sectorSize+address%sectorSize=address :=
    Nat.div_add_mod' ..
  rw [haddress] at hslice
  simp only [sectorTransfer,hfirstSec,hlastSec,hread,hcount,hslice,Option.bind_eq_bind,
    Option.bind_some]
  have hpiece : (slice plain address (min n (sectorSize-address%sectorSize))).length =
      min n (sectorSize-address%sectorSize) := length_slice (by omega)
  split
  · refine ⟨aligned,hlen,?_⟩
    have hall : min n (sectorSize-address%sectorSize)=n := by
      unfold sectorSize at *
      omega
    rw [hall,decide_true]
  · have hcounts : (address+n-1)/sectorSize-address/sectorSize+1-2 =
        (address+n-1)/sectorSize-address/sectorSize-1 := by omega
    obtain ⟨sector,hsector⟩ : ∃ sector, address/sectorSize=sector := ⟨_,rfl⟩
    obtain ⟨count,hlastSector⟩ : ∃ count, (address+n-1)/sectorSize = sector+1+count :=
      ⟨(address+n-1)/sectorSize-sector-1,by omega⟩
    obtain ⟨hfull,hfirstEnd,hinnerEnd⟩ := sector_split hn hsector hlastSector
    rw [hcounts,hsector,hlastSector,show sector+1+count-sector-1 = count by omega,
      ← Nat.succ_mul]
    rw [hsector] at hfirst
    rw [hlastSector] at hlast hlast_le
    rw [hfull] at hpiece ⊢
    have hinnerSectors : 0 < count →
        extent.HasSector (sector+1) ∧ extent.HasSector (sector+1+count-1) := by
      simp only [Extent.HasSector,sectorSize] at hfirst hlast ⊢
      omega
    have hinner_le : (sector+1+count)*sectorSize ≤ disc.length :=
      Nat.le_trans (Nat.le_add_right _ _) hlast_le
    obtain ⟨aligned',hlen',hinner⟩ := innerSectors_eq hdec hplain rawDevice hmem
      (sectorSize-address%sectorSize) hinnerSectors hinner_le
      ⟨store b.user 0 (slice plain address (sectorSize-address%sectorSize)),aligned⟩
      (by rw [length_store (by omega)]; omega) hlen
    obtain ⟨aligned'',hlen'',hreadLast,hsliceLast⟩ := readDecrypt_part hdec hmem
      ((address+n-1)%sectorSize+1) hlast hlast_le (Nat.dvd_zero 16) hlast16
      (.inr ⟨rfl,hlastPos⟩) (by omega) (.inl rfl) (Nat.zero_le 0) (by omega) hlen'
    rw [Nat.add_zero] at hreadLast hsliceLast
    simp only [hinner,Option.bind_some,hreadLast,hsliceLast,Nat.add_zero]
    refine ⟨aligned'',hlen'',?_⟩
    have hlastStart : n-((address+n-1)%sectorSize+1) =
        sectorSize-address%sectorSize+count*sectorSize := by omega
    have hend_le : address+(sectorSize-address%sectorSize+count*sectorSize) ≤ plain.length := by
      rw [← Nat.add_assoc,hfirstEnd,← Nat.add_mul,hplain]
      exact hinner_le
    rw [hlastStart,Nat.add_mul (sector+1),← hfirstEnd,store_slice_slice _ _ (by omega),
      Nat.add_assoc address,store_slice_slice _ _ hend_le,hinnerEnd,Nat.add_right_comm,
      decide_eq_true rfl]

end

end

theorem plainTransfer_transfers {disc : Bytes} {extents : List Extent}
    (hinside : ∀ extent∈extents, extent.Inside disc) :
    Transfers (plainTransfer disc) disc extents := by
  intro address n b hn hcovered _ haligned
  obtain ⟨extent,hmem,hstart,hend⟩ := hcovered
  refine ⟨b.aligned,haligned,?_⟩
  have hdisc := hinside extent hmem (by omega)
  simp only [plainTransfer]
  rw [length_slice (by omega),decide_eq_true rfl]

theorem decrypts_plain {disc : Bytes} {extents : List Extent} (hdisc : sectorSize ∣ disc.length)
    (hinside : ∀ extent∈extents, extent.Inside disc) :
    Decrypts (fun _ => some) disc disc extents where
  whole _ _ _ _ _ _ _ := rfl
  part extent hmem sector pos n hsector _ _ _ hle := by
    have hlength := hsector.le_length (hinside extent hmem) hdisc
    exact ⟨_,rfl,length_slice (by omega),fun k _ _ => drop_slice ..⟩

/-- A plain file that has an extent is read as its extents one after the other, from an image
file and, if the image is made of whole sectors, from a raw device just as well. -/
theorem iso_file_reads_concatenated_extents (disc : Bytes) (extents : List Extent)
    (hne : extents≠[]) (hinside : ∀ extent∈extents, extent.Inside disc)
    (hlen : disc.length < u64Range) (htotal : total extents < u64Range) (offset size : ℕ)
    (b : Buffers) (huser : size ≤ b.user.length) (haligned : b.aligned.length=rawReadSize) :
    (slice (contents disc extents) offset size).length = min size (total extents-offset) ∧
      (∃ aligned : Bytes, isoFileReadAt false disc extents offset size b =
        some (min size (total extents-offset),
          ⟨store b.user 0 (slice (contents disc extents) offset size),aligned⟩)) ∧
      (sectorSize ∣ disc.length → ∃ aligned : Bytes, isoFileReadAt true disc extents offset size b =
          some (min size (total extents-offset),
            ⟨store b.user 0 (slice (contents disc extents) offset size),aligned⟩)) := by
  refine ⟨?_,?_,fun hdisc => ?_⟩
  · rw [length_slice_eq,length_contents hinside]
  · exact readAt_eq hne hinside hlen (plainTransfer_transfers hinside) htotal offset size b huser haligned
  · have htransfers := sectorTransfer_transfers (decrypts_plain hdisc hinside) rfl true hdisc hinside
    exact readAt_eq hne hinside hlen htransfers htotal offset size b huser haligned

/-- Three extents, one of them empty and the last one before the first one on the disc. -/
theorem iso_file_reads_concatenated_extents_scattered :
    ∃ aligned : Bytes, isoFileReadAt true ((List.range 4096).map UInt8.ofNat)
      [⟨1,3⟩,⟨7,0⟩,⟨0,2⟩] 1 9 ⟨List.replicate 9 0,List.replicate rawReadSize 0⟩ =
        some (4,⟨store (List.replicate 9 0) 0 (slice (contents ((List.range 4096).map UInt8.ofNat)
          [⟨1,3⟩,⟨7,0⟩,⟨0,2⟩]) 1 9),aligned⟩) :=
  (iso_file_reads_concatenated_extents ((List.range 4096).map UInt8.ofNat) [⟨1,3⟩,⟨7,0⟩,⟨0,2⟩]
    (by decide) (by simp [Extent.Inside,sectorSize]) (by simp [u64Range]) (by decide) 1 9
    ⟨List.replicate 9 0,List.replicate rawReadSize 0⟩ (by simp) (by simp)).2.2
    (by simp [sectorSize])

/-- A file without extents cannot be read at all. -/
theorem iso_file_without_extents_stops :
    isoFileReadAt false [1,2] [] 0 1 ⟨[0],List.replicate rawReadSize 0⟩ = none := rfl

end PS3Native.Iso
