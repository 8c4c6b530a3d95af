import PS3Native.IsoDecrypt
import PS3Native.IsoFile

/-!
# Encrypted files on an ISO image

A read of an encrypted file decrypts the sectors it touches, and of the first and the last one
only the blocks it needs.
-/
namespace PS3Native.Iso
open List

variable (ecb : Bytes → Bytes)

def isoFileEncryptedReadAt (rawDevice : Bool) (encType : EncryptionType) (table : List RegionInfo)
    (disc : Bytes) (extents : List Extent) (offset size : ℕ) (b : Buffers) :
    Option (ℕ × Buffers) :=
  readAt (sectorTransfer rawDevice (decrypt ecb encType table) disc) extents offset size b

/-- A sector decrypted on its own, with the initialization vector for its LBA. -/
def decryptSector (lba : ℕ) (sector : Bytes) : Bytes :=
  cbcDecrypt ecb (· ^^^ ·) 16 128 (resetIv lba) sector

def decryptSectors (lba : ℕ) (buffer : Bytes) (count : ℕ) : Bytes :=
  (List.range count).flatMap fun i =>
    decryptSector ecb (lba+i) (slice buffer (i*sectorSize) sectorSize)

/-- A sector of the decrypted disc: it is decrypted if its region is an encrypted one. -/
def plainSector (table : List RegionInfo) (disc : Bytes) (lba : ℕ) : Bytes :=
  let sector := slice disc (lba*sectorSize) sectorSize
  match table.find? (·.has (lba*sectorSize)) with
  | none => sector
  | some info => if info.encrypted then decryptSector ecb lba sector else sector

def plainDisc (table : List RegionInfo) (disc : Bytes) : Bytes :=
  (List.range (disc.length/sectorSize)).flatMap (plainSector ecb table disc)

def Extent.InOneRegion (table : List RegionInfo) (extent : Extent) : Prop :=
  extent.size≠0 → ∃ info, ∀ address, extent.Covers address 1 →
    table.find? (·.has address) = some info

theorem length_resetIv (lba : ℕ) : (resetIv lba).length=16 := rfl

theorem resetIv_mod (lba i : ℕ) : resetIv (lba%4294967296+i) = resetIv (lba+i) := by
  have hbyte : ∀ a b : ℕ, a%256 = b%256 → UInt8.ofNat a = UInt8.ofNat b := by
    intro a b hab
    apply UInt8.toNat_inj.1
    simpa using hab
  simp only [resetIv]
  rw [hbyte ((lba%4294967296+i)/16777216) ((lba+i)/16777216) (by omega),
    hbyte ((lba%4294967296+i)/65536) ((lba+i)/65536) (by omega),
    hbyte ((lba%4294967296+i)/256) ((lba+i)/256) (by omega),
    hbyte (lba%4294967296+i) (lba+i) (by omega)]

theorem RegionInfo.has_sector (info : RegionInfo) (sector : ℕ) {pos : ℕ} (h : pos < sectorSize) :
    info.has (sector*sectorSize+pos) = info.has (sector*sectorSize) := by
  obtain ⟨first,hfirst⟩ := info.first_aligned
  obtain ⟨last,hlast⟩ := info.last_aligned
  simp only [RegionInfo.has,hfirst,decide_eq_decide]
  unfold sectorSize at *
  omega

theorem sector_le_length {disc : Bytes} {lba : ℕ} (h : lba < disc.length/sectorSize) :
    lba*sectorSize+sectorSize ≤ disc.length := by
  rw [← Nat.succ_mul]
  exact Nat.le_trans (Nat.mul_le_mul_right _ h) (Nat.div_mul_le_self ..)

section

variable {ecb} (hecb : ∀ block, block.length=16 → (ecb block).length=16)

include hecb

variable {sector buffer : Bytes} {n : ℕ}

theorem length_decryptSector (lba : ℕ) (h : sector.length=sectorSize) :
    (decryptSector ecb lba sector).length=sectorSize :=
  length_cbcDecrypt hecb (length_resetIv lba) (Nat.le_of_eq h.symm)

theorem decryptData_start (lba : ℕ) (h16 : 16 ∣ buffer.length) (hpos : 0 < buffer.length)
    (hle : buffer.length ≤ sectorSize) :
    decryptData ecb (lba*sectorSize) buffer =
      cbcDecrypt ecb (· ^^^ ·) 16 (buffer.length/16) (resetIv lba) buffer := by
  have hlba : lba*sectorSize/sectorSize=lba := Nat.mul_div_cancel _ (by decide)
  have hlast : (lba*sectorSize+buffer.length-1)/sectorSize=lba := by
    unfold sectorSize at *
    omega
  have hoffset : lba*sectorSize%sectorSize=0 := Nat.mul_mod_left ..
  have hcount : (lba%4294967296+4294967296-lba%4294967296+1)%4294967296 < 2 := by omega
  have hiv : resetIv (lba%4294967296) = resetIv lba := resetIv_mod lba 0
  have hlen : (cbcDecrypt ecb (· ^^^ ·) 16 (buffer.length/16) (resetIv lba) buffer).length =
      buffer.length := by
    rw [length_cbcDecrypt hecb (length_resetIv lba) (Nat.div_mul_le_self ..),Nat.div_mul_cancel h16]
  have h16' : buffer.length%16=0 := Nat.mod_eq_zero_of_dvd h16
  simp only [decryptData,hlba,hlast,hoffset,hcount,hiv,ne_eq,not_true_eq_false,if_false,
    Nat.zero_add,hle,if_true,Nat.sub_zero,aesCryptCbc,h16',slice_full (Nat.le_refl _)]
  exact store_zero_of_length_eq hlen.symm

/-- A buffer inside of one sector that does not start it: the first block stays. -/
theorem decryptData_inside (lba pos : ℕ) (h16 : 16 ∣ buffer.length) (h0 : 0 < pos)
    (hpos : 16 ≤ buffer.length) (hle : pos+buffer.length ≤ sectorSize) :
    decryptData ecb (lba*sectorSize+pos) buffer =
      buffer.take 16++cbcDecrypt ecb (· ^^^ ·) 16 (buffer.length/16-1) (buffer.take 16)
        (buffer.drop 16) := by
  have hlba : (lba*sectorSize+pos)/sectorSize=lba := by
    unfold sectorSize at *
    omega
  have hlast : (lba*sectorSize+pos+buffer.length-1)/sectorSize=lba := by
    unfold sectorSize at *
    omega
  have hoffset : (lba*sectorSize+pos)%sectorSize=pos := by
    unfold sectorSize at *
    omega
  have hcount : (lba%4294967296+4294967296-lba%4294967296+1)%4294967296 < 2 := by omega
  have hcur : (buffer.length-16)%16=0 := by omega
  have hblocks : (buffer.length-16)/16 = buffer.length/16-1 := by omega
  have hrest : slice buffer 16 (buffer.length-16) = buffer.drop 16 :=
    take_of_length_le (by rw [length_drop])
  have hlen : (cbcDecrypt ecb (· ^^^ ·) 16 (buffer.length/16-1) (buffer.take 16)
      (buffer.drop 16)).length = buffer.length-16 := by
    rw [length_cbcDecrypt hecb (by rw [length_take]; omega) (by rw [length_drop]; omega)]
    omega
  have hend : buffer.drop (16+(buffer.length-16))=[] := drop_eq_nil_of_le (by omega)
  have hne : ¬pos=0 := by omega
  simp only [decryptData,hlba,hlast,hoffset,hcount,ne_eq,hne,not_false_eq_true,if_true,hle,
    aesCryptCbc,hcur,not_true_eq_false,if_false,hblocks,hrest,store,hlen,hend,append_nil]

theorem decryptData_slice_start (lba : ℕ) (hsector : sector.length=sectorSize) (hn : 16 ∣ n)
    (h0 : 0 < n) (hle : n ≤ sectorSize) :
    decryptData ecb (lba*sectorSize) (slice sector 0 n) =
      slice (decryptSector ecb lba sector) 0 n := by
  have hlen : (slice sector 0 n).length=n := length_slice (by omega)
  obtain ⟨m,rfl⟩ := hn
  have hm : m ≤ 128 := by
    unfold sectorSize at hle
    omega
  rw [decryptData_start hecb lba (by rw [hlen]; exact Nat.dvd_mul_right ..) (by omega) (by omega),
    hlen,Nat.mul_comm,Nat.mul_div_cancel _ (by decide),decryptSector,
    slice_zero_cbcDecrypt hecb (length_resetIv lba) hm (Nat.le_of_eq hsector.symm)]

/-- Any other part of a sector is decrypted right behind its first block. -/
theorem decryptData_slice_inside (lba : ℕ) (hsector : sector.length=sectorSize) {pos : ℕ}
    (hpos : 16 ∣ pos) (h0 : 0 < pos) (hn : 16 ∣ n) (h16 : 16 < n) (hle : pos+n ≤ sectorSize) :
    decryptData ecb (lba*sectorSize+pos) (slice sector pos n) =
      slice sector pos 16++slice (decryptSector ecb lba sector) (pos+16) (n-16) := by
  have hlen : (slice sector pos n).length=n := length_slice (by omega)
  obtain ⟨first,rfl⟩ := hpos
  obtain ⟨m,rfl⟩ : ∃ m, n = (m+1)*16 := ⟨n/16-1,by omega⟩
  have hm : first+1+m ≤ 128 := by
    unfold sectorSize at hle
    omega
  have hfirst : (slice sector (16*first) ((m+1)*16)).take 16 = slice sector (first*16) 16 := by
    simp only [slice]
    rw [take_take,Nat.min_eq_left (by omega),Nat.mul_comm]
  have hrest : (slice sector (16*first) ((m+1)*16)).drop 16 =
      slice sector ((first+1)*16) (m*16) := by
    rw [drop_slice]
    congr 1 <;> omega
  rw [decryptData_inside hecb lba _ (by rw [hlen]; exact Nat.dvd_mul_left ..) h0 (by omega)
      (by omega),hlen,Nat.mul_div_cancel _ (by decide),Nat.add_sub_cancel,hfirst,hrest,
    show 16*first+16 = (first+1)*16 by omega,show (m+1)*16-16 = m*16 by omega,
    decryptSector,slice_cbcDecrypt hecb (length_resetIv lba) hm (Nat.le_of_eq hsector.symm),
    Nat.mul_comm 16 first]

theorem length_decryptSectors (lba : ℕ) {count : ℕ} (h : count*sectorSize ≤ buffer.length) :
    (decryptSectors ecb lba buffer count).length = count*sectorSize := by
  refine length_flatMap_range fun i hi => length_decryptSector hecb _ (length_slice ?_)
  rw [← Nat.succ_mul]
  exact Nat.le_trans (Nat.mul_le_mul_right _ hi) h

theorem aesCryptCbc_sector (lba : ℕ) {done : ℕ} (h : (done+1)*sectorSize ≤ buffer.length) :
    aesCryptCbc ecb (store buffer 0 (decryptSectors ecb lba buffer done)) (resetIv (lba+done))
      (done*sectorSize) sectorSize = some (store buffer 0 (decryptSectors ecb lba buffer (done+1))) := by
  have hdone : done*sectorSize ≤ buffer.length :=
    Nat.le_trans (Nat.mul_le_mul_right _ (Nat.le_succ _)) h
  have hlen := length_decryptSectors hecb lba hdone
  have hstore := store_store (Nat.zero_le buffer.length) (decryptSectors ecb lba buffer done)
    (decryptSector ecb (lba+done) (slice buffer (done*sectorSize) sectorSize))
  rw [Nat.zero_add,hlen] at hstore
  rw [aesCryptCbc,if_neg (by decide),
    slice_store_of_ge _ _ (Nat.zero_le _) (by rw [hlen,Nat.zero_add])]
  refine congrArg some (hstore.trans ?_)
  rw [decryptSectors,decryptSectors,range_succ,flatMap_append,flatMap_singleton]

theorem decryptInner_eq (lba : ℕ) (count done : ℕ) (h : (done+1+count)*sectorSize ≤ buffer.length) :
    decryptInner ecb count (lba%4294967296+done) ((done+1)*sectorSize)
      (store buffer 0 (decryptSectors ecb lba buffer (done+1))) =
      store buffer 0 (decryptSectors ecb lba buffer (done+1+count)) := by
  induction count generalizing done with
  | zero => rfl
  | succ count ih =>
    have hle : (done+1+1)*sectorSize ≤ buffer.length :=
      Nat.le_trans (Nat.mul_le_mul_right _ (by omega)) h
    have hsum : done+1+(count+1) = done+1+1+count := by omega
    rw [hsum] at h ⊢
    have hrest := ih (done+1) h
    have hiv : resetIv (lba%4294967296+done+1) = resetIv (lba+(done+1)) :=
      resetIv_mod lba (done+1)
    rw [decryptInner,hiv,aesCryptCbc_sector hecb lba hle]
    rw [Nat.succ_mul (done+1)] at hrest
    exact hrest

theorem decryptData_sectors (lba count : ℕ) (h0 : 0 < count) (hcount : count < 4294967296)
    (h : buffer.length = count*sectorSize) :
    decryptData ecb (lba*sectorSize) buffer = decryptSectors ecb lba buffer count := by
  have hlba : lba*sectorSize/sectorSize=lba := Nat.mul_div_cancel _ (by decide)
  have hlast : (lba*sectorSize+buffer.length-1)/sectorSize = lba+(count-1) := by
    rw [h]
    unfold sectorSize
    omega
  have hoffset : lba*sectorSize%sectorSize=0 := Nat.mul_mod_left ..
  have hsectors : ((lba+(count-1))%4294967296+4294967296-lba%4294967296+1) %
      4294967296=count := by omega
  have hfirst : (if buffer.length ≤ sectorSize then buffer.length else sectorSize)=sectorSize := by
    rw [h]
    unfold sectorSize
    split <;> omega
  have hall : store buffer 0 (decryptSectors ecb lba buffer count) =
      decryptSectors ecb lba buffer count :=
    store_zero_of_length_eq (by rw [h,length_decryptSectors hecb lba (Nat.le_of_eq h.symm)])
  have hzero : store buffer 0 (decryptSectors ecb lba buffer 0)=buffer := store_nil buffer 0
  have hiv : resetIv (lba%4294967296) = resetIv (lba+0) := resetIv_mod lba 0
  have hone : (0+1)*sectorSize ≤ buffer.length := by
    rw [h]
    exact Nat.mul_le_mul_right _ h0
  have hstart := aesCryptCbc_sector hecb lba hone
  rw [hzero,← hiv,Nat.zero_mul] at hstart
  simp only [decryptData,hlba,hlast,hoffset,hsectors,ne_eq,not_true_eq_false,if_false,
    Nat.zero_add,hfirst,Nat.sub_zero,hstart]
  split
  · obtain rfl : count=1 := by omega
    exact hall
  · obtain ⟨rest,rfl⟩ : ∃ rest, count = rest+2 := ⟨count-2,by omega⟩
    have hinner : (if rest+2 > 2 then rest+2-2 else 0)=rest := by
      split <;> omega
    have hloop := decryptInner_eq hecb lba rest 0
      (Nat.le_trans (Nat.mul_le_mul_right _ (by omega)) (Nat.le_of_eq h.symm))
    have hend := aesCryptCbc_sector hecb lba (Nat.le_of_eq h.symm)
    have hpos : sectorSize+rest*sectorSize = (rest+1)*sectorSize := by
      rw [Nat.succ_mul,Nat.add_comm]
    have hsize : buffer.length-(rest+1)*sectorSize=sectorSize := by
      rw [h,Nat.succ_mul (rest+1),Nat.add_sub_cancel_left]
    have hivEnd : resetIv (lba%4294967296+rest+1) = resetIv (lba+(rest+1)) :=
      resetIv_mod lba (rest+1)
    simp only [Nat.zero_add,Nat.one_mul,Nat.add_zero,Nat.add_comm 1 rest] at hloop
    simp only [hinner,hloop,hpos,hsize,hivEnd,hend,Option.getD_some,hall]

variable (table : List RegionInfo) {disc : Bytes}

theorem length_plainSector {lba : ℕ} (h : lba*sectorSize+sectorSize ≤ disc.length) :
    (plainSector ecb table disc lba).length=sectorSize := by
  have hlen : (slice disc (lba*sectorSize) sectorSize).length=sectorSize := length_slice h
  simp only [plainSector]
  split
  · exact hlen
  · split
    · exact length_decryptSector hecb _ hlen
    · exact hlen

theorem length_plainDisc (hdisc : sectorSize ∣ disc.length) :
    (plainDisc ecb table disc).length=disc.length := by
  rw [plainDisc,length_flatMap_range fun lba h =>
    length_plainSector hecb table (sector_le_length h),Nat.div_mul_cancel hdisc]

theorem slice_plainDisc {lba count : ℕ} (h : (lba+count)*sectorSize ≤ disc.length) :
    slice (plainDisc ecb table disc) (lba*sectorSize) (count*sectorSize) =
      (range count).flatMap fun i => plainSector ecb table disc (lba+i) :=
  slice_flatMap_range (fun lba h => length_plainSector hecb table (sector_le_length h))
    ((Nat.le_div_iff_mul_le (by decide)).2 h)

theorem slice_plainDisc_sector {lba pos : ℕ} (h : lba*sectorSize+sectorSize ≤ disc.length)
    (hn : pos+n ≤ sectorSize) :
    slice (plainDisc ecb table disc) (lba*sectorSize+pos) n =
      slice (plainSector ecb table disc lba) pos n := by
  have hone : (lba+1)*sectorSize ≤ disc.length := by
    rw [Nat.succ_mul]
    exact h
  have hsector := slice_plainDisc hecb table hone
  rw [Nat.one_mul] at hsector
  rw [← slice_slice _ _ hn,hsector,range_one,flatMap_singleton,Nat.add_zero]

section

variable {table} {lba : ℕ} {info : RegionInfo}

theorem decryptRegion_part (hlba : lba*sectorSize+sectorSize ≤ disc.length)
    (hinfo : table.find? (·.has (lba*sectorSize)) = some info) {pos n : ℕ} (hpos : 16 ∣ pos)
    (hn : 16 ∣ n) (hkind : 16 < n ∨ pos=0 ∧ 0 < n) (hle : pos+n ≤ sectorSize) :
    let out := decryptRegion ecb table (lba*sectorSize+pos) (slice disc (lba*sectorSize+pos) n)
    out.length=n ∧ ∀ k ≤ n, (pos=0 ∨ 16 ≤ k) →
      out.drop k = slice (plainDisc ecb table disc) (lba*sectorSize+pos+k) (n-k) := by
  have hsector : (slice disc (lba*sectorSize) sectorSize).length=sectorSize := length_slice hlba
  have hpart : (slice disc (lba*sectorSize+pos) n).length=n := length_slice (by omega)
  have hfind : table.find? (·.has (lba*sectorSize+pos)) = some info := by
    simp only [RegionInfo.has_sector _ lba (show pos < sectorSize by omega)]
    exact hinfo
  have hplain : ∀ k ≤ n, slice (plainDisc ecb table disc) (lba*sectorSize+pos+k) (n-k) =
      slice (plainSector ecb table disc lba) (pos+k) (n-k) := by
    intro k hk
    rw [Nat.add_assoc,slice_plainDisc_sector hecb table hlba (by omega)]
  simp only [decryptRegion,hfind]
  simp only [plainSector,hinfo] at hplain
  cases henc : info.encrypted with
  | false =>
    simp only [henc,Bool.false_eq_true,not_false_eq_true,if_true,if_false] at hplain ⊢
    refine ⟨hpart,fun k hk _ => ?_⟩
    rw [hplain k hk,drop_slice,slice_slice _ _ (by omega),Nat.add_assoc]
  | true =>
    simp only [henc,not_true_eq_false,if_true,if_false] at hplain ⊢
    have hwhole := length_decryptSector hecb lba hsector
    have hslice : slice disc (lba*sectorSize+pos) n =
        slice (slice disc (lba*sectorSize) sectorSize) pos n := (slice_slice _ _ hle).symm
    rw [hslice]
    rcases Nat.eq_zero_or_pos pos with rfl | h0
    · have hdata := decryptData_slice_start hecb lba hsector hn (by omega) (by omega)
      rw [Nat.add_zero (lba*sectorSize)] at hplain ⊢
      rw [hdata]
      refine ⟨length_slice (by omega),fun k hk _ => ?_⟩
      rw [hplain k hk,drop_slice]
    · have hdata := decryptData_slice_inside hecb lba hsector hpos h0 hn (by omega) hle
      rw [hdata]
      have hfirst : (slice (slice disc (lba*sectorSize) sectorSize) pos 16).length=16 :=
        length_slice (by omega)
      refine ⟨?_,fun k hk h16 => ?_⟩
      · rw [length_append,hfirst,length_slice (by omega)]
        omega
      · rw [hplain k hk,drop_append,drop_eq_nil_of_le (by omega),nil_append, hfirst,drop_slice]
        congr 1 <;> omega

theorem decryptRegion_whole {count : ℕ} (h0 : 0 < count) (hcount : count < 4294967296)
    (hlength : (lba+count)*sectorSize ≤ disc.length)
    (hinfo : ∀ i < count, table.find? (·.has ((lba+i)*sectorSize)) = some info) :
    decryptRegion ecb table (lba*sectorSize) (slice disc (lba*sectorSize) (count*sectorSize)) =
      slice (plainDisc ecb table disc) (lba*sectorSize) (count*sectorSize) := by
  have hfind : table.find? (·.has (lba*sectorSize)) = some info := hinfo 0 h0
  have hlen : (slice disc (lba*sectorSize) (count*sectorSize)).length = count*sectorSize := by
    rw [Nat.add_mul] at hlength
    exact length_slice hlength
  rw [slice_plainDisc hecb table hlength]
  simp only [decryptRegion,hfind]
  cases henc : info.encrypted with
  | false =>
    rw [slice_eq_flatMap_range]
    refine flatMap_congr fun i hi => ?_
    simp only [plainSector,hinfo i (mem_range.1 hi),henc,Bool.false_eq_true,if_false]
  | true =>
    rw [decryptData_sectors hecb lba count h0 hcount hlen]
    refine flatMap_congr fun i hi => ?_
    have hi := mem_range.1 hi
    have hinner : i*sectorSize+sectorSize ≤ count*sectorSize := by
      rw [← Nat.succ_mul]
      exact Nat.mul_le_mul_right _ hi
    simp only [plainSector,hinfo i hi,henc,if_true]
    rw [slice_slice _ _ hinner,← Nat.add_mul]

end

def WatermarkAside (encType : EncryptionType) (extents : List Extent) : Prop :=
  encType=.redump ∨ encType=.enc3k3y ∧ ∀ extent∈extents, 3 ≤ extent.start

variable {table} {encType : EncryptionType} {extents : List Extent}

omit hecb in
theorem decrypt_eq_decryptRegion (h : WatermarkAside encType extents) {extent : Extent}
    (hmem : extent∈extents) {sector : ℕ} (hsector : extent.HasSector sector) (pos : ℕ)
    (buffer : Bytes) (hfits : sector*sectorSize+pos+buffer.length < u64Range) :
    decrypt ecb encType table (sector*sectorSize+pos) buffer =
      some (decryptRegion ecb table (sector*sectorSize+pos) buffer) := by
  rcases h with rfl | ⟨rfl,hstart⟩
  · rfl
  · have haddress : 0x1070 ≤ sector*sectorSize+pos := by
      have hsector := Nat.le_trans (hstart extent hmem) hsector.1
      unfold sectorSize
      omega
    rw [decrypt,nullWatermark_eq ⟨hfits,.inr (.inl haddress)⟩,
      withoutWatermark_eq_self (.inr haddress),Option.map_some]

theorem decrypt_decrypts (hdisc : sectorSize ∣ disc.length) (hlen : disc.length < 8796093022208)
    (hinside : ∀ extent∈extents, extent.Inside disc)
    (hregion : ∀ extent∈extents, extent.InOneRegion table) (h : WatermarkAside encType extents) :
    Decrypts (decrypt ecb encType table) disc (plainDisc ecb table disc) extents := by
  have hsize : ∀ extent : Extent, ∀ sector, extent.HasSector sector →
      extent.size≠0 ∧ extent.Covers (sector*sectorSize) 1 := by
    intro extent sector hsector
    simp only [Extent.HasSector,Extent.Covers,sectorSize] at *
    omega
  refine ⟨?_,?_⟩
  · intro extent hmem sector count h0 hfirst hlast
    have hend := hlast.le_length (hinside extent hmem) hdisc
    obtain ⟨info,hinfo⟩ := hregion extent hmem (hsize extent sector hfirst).1
    have hlength : (sector+count)*sectorSize ≤ disc.length := by
      rwa [← Nat.succ_mul,Nat.succ_eq_add_one,show sector+count-1+1 = sector+count by omega]
        at hend
    have hcount : count < 4294967296 := by
      unfold sectorSize at hlength
      omega
    have hbuffer : (slice disc (sector*sectorSize) (count*sectorSize)).length =
        count*sectorSize := length_slice (by rwa [Nat.add_mul] at hlength)
    have hsectors : ∀ i < count, table.find? (·.has ((sector+i)*sectorSize)) = some info := by
      intro i hi
      refine hinfo _ (hsize extent (sector+i) ?_).2
      simp only [Extent.HasSector,sectorSize] at hfirst hlast ⊢
      omega
    have hfits : sector*sectorSize+0 +
        (slice disc (sector*sectorSize) (count*sectorSize)).length < u64Range := by
      rw [hbuffer,Nat.add_zero (sector*sectorSize),← Nat.add_mul]
      exact Nat.lt_of_le_of_lt hlength (Nat.lt_trans hlen (by decide))
    have hdecrypt : decrypt ecb encType table (sector*sectorSize+0)
        (slice disc (sector*sectorSize) (count*sectorSize)) = _ :=
      decrypt_eq_decryptRegion h hmem hfirst 0 _ hfits
    rw [Nat.add_zero (sector*sectorSize)] at hdecrypt
    rw [hdecrypt,decryptRegion_whole hecb h0 hcount hlength hsectors]
  · intro extent hmem sector pos n hsector hpos hn hkind hle
    have hlba := hsector.le_length (hinside extent hmem) hdisc
    obtain ⟨hne,hcovers⟩ := hsize extent sector hsector
    obtain ⟨info,hinfo⟩ := hregion extent hmem hne
    have hlength : (slice disc (sector*sectorSize+pos) n).length=n := length_slice (by omega)
    refine ⟨_,decrypt_eq_decryptRegion h hmem hsector pos _ ?_,?_⟩
    · unfold u64Range
      omega
    · exact decryptRegion_part hecb hlba (hinfo _ hcovers) hpos hn hkind hle

end

/-- Reads of an encrypted file, from an image file or a raw device, give the bytes that its
extents have on the decrypted disc, where each sector of an encrypted region is decrypted on its
own and the others are copied. A file without extents is not read at all. -/
theorem iso_file_encrypted_reads_plain_disc
    (hecb : ∀ block, block.length=16 → (ecb block).length=16) (rawDevice : Bool)
    (encType : EncryptionType) (table : List RegionInfo) (disc : Bytes) (extents : List Extent)
    (hdisc : sectorSize ∣ disc.length) (hlen : disc.length < 8796093022208)
    (hinside : ∀ extent∈extents, extent.Inside disc)
    (hregion : ∀ extent∈extents, extent.InOneRegion table)
    (haside : WatermarkAside encType extents) (htotal : total extents < u64Range)
    (offset size : ℕ) (b : Buffers) (huser : size ≤ b.user.length)
    (haligned : b.aligned.length=rawReadSize) :
    extents=[] ∧
        isoFileEncryptedReadAt ecb rawDevice encType table disc extents offset size b=none ∨
      ∃ aligned : Bytes,
        isoFileEncryptedReadAt ecb rawDevice encType table disc extents offset size b =
          some (min size (total extents-offset),
            ⟨store b.user 0 (slice (contents (plainDisc ecb table disc) extents) offset size),
              aligned⟩) := by
  by_cases hne : extents=[]
  · subst hne
    exact .inl ⟨rfl,rfl⟩
  have hplain : (plainDisc ecb table disc).length=disc.length := length_plainDisc hecb table hdisc
  have hdec := decrypt_decrypts hecb hdisc hlen hinside hregion haside
  refine .inr (readAt_eq hne ?_ ?_ (sectorTransfer_transfers hdec hplain rawDevice hdisc hinside)
    htotal offset size b huser haligned)
  · intro extent hmem hsize
    rw [hplain]
    exact hinside extent hmem hsize
  · unfold u64Range
    omega

/-- A read across a sector of a file in an encrypted region. -/
theorem iso_file_encrypted_reads_plain_disc_unaligned : ∃ aligned : Bytes,
      isoFileEncryptedReadAt id false .redump (regionInfoLoop 0 2047 (by decide) [0,3])
        ((List.range 8192).map UInt8.ofNat) [⟨1,3000⟩] 2040 20
        ⟨List.replicate 20 0,List.replicate rawReadSize 0⟩ =
        some (20,⟨store (List.replicate 20 0) 0
          (slice (contents (plainDisc id (regionInfoLoop 0 2047 (by decide) [0,3])
            ((List.range 8192).map UInt8.ofNat)) [⟨1,3000⟩]) 2040 20),aligned⟩) := by
  refine (iso_file_encrypted_reads_plain_disc id (fun _ h => h) false .redump
    (regionInfoLoop 0 2047 (by decide) [0,3]) ((List.range 8192).map UInt8.ofNat) [⟨1,3000⟩]
    (by simp [sectorSize]) (by simp) (by simp [Extent.Inside,sectorSize]) ?_ (.inl rfl) (by decide)
    2040 20 ⟨replicate 20 0,replicate rawReadSize 0⟩ (by simp) (by simp)).resolve_left
    fun h => cons_ne_nil _ _ h.1
  simp only [mem_singleton,forall_eq]
  intro _
  refine ⟨regionInfo 1 2047 3 (by decide),fun address haddress => ?_⟩
  have hfirst : 2048 ≤ address ∧ address ≤ 6143 := by
    simp only [Extent.Covers,sectorSize] at haddress
    omega
  have hbefore : ((regionInfo 0 2047 0 (by decide)).has address)=false := by
    simp [RegionInfo.has,regionInfo,sectorSize,u64Range]
    omega
  have hin : ((regionInfo 1 2047 3 (by decide)).has address) := by
    simp [RegionInfo.has,regionInfo,sectorSize,u64Range]
    omega
  have htable : regionInfoLoop 0 2047 (by decide) [0,3] =
      [regionInfo 0 2047 0 (by decide),regionInfo 1 2047 3 (by decide)] := rfl
  rw [htable,List.find?_cons,hbefore,List.find?_cons,hin]

end PS3Native.Iso
