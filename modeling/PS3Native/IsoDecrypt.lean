import PS3Native.CipherModes
import PS3Native.IsoExtents

/-!
# Decryption of what is read from an ISO image

The regions of a disc, which are encrypted in turn, the decryption of the sectors in them, and
the watermark of 3k3y images, which is to be nulled out. The block cipher is a parameter.
-/
namespace PS3Native.Iso
open List

inductive EncryptionType where
  | none
  | dec3k3y
  | enc3k3y
  | redump
deriving DecidableEq, Repr

/-- `iso_region_info`: the addresses of the first and the last byte. A region is made of whole
sectors. -/
structure RegionInfo where
  encrypted : Bool
  regionFirstAddr : ℕ
  regionLastAddr : ℕ
  first_aligned : sectorSize ∣ regionFirstAddr
  last_aligned : sectorSize ∣ regionLastAddr+1

/-- One round of the loop in `iso_file_decryption::init`: the region at index `i`, from the end of
the region before it and the word of the table. -/
def regionInfo (i lastAddr word : ℕ) (h : sectorSize ∣ lastAddr+1) : RegionInfo where
  encrypted := i%2=1
  regionFirstAddr := if i=0 then 0 else (lastAddr+1)%u64Range
  regionLastAddr := ((word+u64Range-i%2)*sectorSize+sectorSize-1)%u64Range
  first_aligned := by
    split
    · exact Nat.dvd_zero _
    · exact (Nat.dvd_mod_iff (by decide)).2 h
  last_aligned := by
    unfold sectorSize u64Range
    omega

def regionInfoLoop (i lastAddr : ℕ) (h : sectorSize ∣ lastAddr+1) : List ℕ → List RegionInfo
  | [] => []
  | word::words =>
    let info := regionInfo i lastAddr word h
    info::regionInfoLoop (i+1) info.regionLastAddr info.last_aligned words

def resetIv (lba : ℕ) : Bytes :=
  List.replicate 12 0++[UInt8.ofNat (lba/16777216),UInt8.ofNat (lba/65536),
    UInt8.ofNat (lba/256),UInt8.ofNat lba]

variable (ecb : Bytes → Bytes)

/-- `aes_crypt_cbc` on `n` bytes at `pos`, in place; nothing if they are not whole blocks. -/
def aesCryptCbc (buffer iv : Bytes) (pos n : ℕ) : Option Bytes :=
  if n%16≠0 then .none
  else some (store buffer pos (cbcDecrypt ecb (· ^^^ ·) 16 (n/16) iv (slice buffer pos n)))

/-- The loop over the inner sectors in `decrypt_data`. -/
def decryptInner : ℕ → ℕ → ℕ → Bytes → Bytes
  | 0, _, _, buffer => buffer
  | count+1, lba, curOffset, buffer =>
    match aesCryptCbc ecb buffer (resetIv (lba+1)) curOffset sectorSize with
    | .none => buffer
    | some buffer => decryptInner count (lba+1) (curOffset+sectorSize) buffer

/-- `decrypt_data`, in place; a failure leaves what was not yet decrypted. -/
def decryptData (offset : ℕ) (buffer : Bytes) : Bytes :=
  let size := buffer.length
  let lba := offset/sectorSize%4294967296
  let sectorCount :=
    ((offset+size-1)/sectorSize%4294967296+4294967296-lba+1)%4294967296
  let sectorOffset := offset%sectorSize
  let iv := if sectorOffset≠0 then buffer.take 16 else resetIv lba
  let curOffset := if sectorOffset≠0 then 16 else 0
  let curSize :=
    (if sectorOffset+size ≤ sectorSize then size else sectorSize-sectorOffset)-curOffset
  match aesCryptCbc ecb buffer iv curOffset curSize with
  | .none => buffer
  | some buffer =>
    if sectorCount < 2 then buffer
    else
      let innerSectorCount := if sectorCount > 2 then sectorCount-2 else 0
      let buffer := decryptInner ecb innerSectorCount lba (curOffset+curSize) buffer
      let curOffset := curOffset+curSize+innerSectorCount*sectorSize
      (aesCryptCbc ecb buffer (resetIv (lba+innerSectorCount+1)) curOffset
        (size-curOffset)).getD buffer

def RegionInfo.has (info : RegionInfo) (offset : ℕ) : Bool :=
  offset ≥ info.regionFirstAddr ∧ offset ≤ info.regionLastAddr

/-- The end of `decrypt`: the region of the first address decides. -/
def decryptRegion (table : List RegionInfo) (offset : ℕ) (buffer : Bytes) : Bytes :=
  match table.find? (·.has offset) with
  | .none => buffer
  | some info => if ¬info.encrypted then buffer else decryptData ecb offset buffer

/-- `std::memset` with zero; nothing if it writes outside of the buffer. -/
def memsetZero (buffer : Bytes) (pos n : ℕ) : Option Bytes :=
  if pos+n ≤ buffer.length then some (store buffer pos (List.replicate n 0)) else .none

/-- The part of `decrypt` for 3k3y images. -/
def nullWatermark (offset : ℕ) (buffer : Bytes) : Option Bytes :=
  let rangeStart := 0xF70
  let rangeEnd := 0x1070
  let range := rangeEnd-rangeStart
  let bufferSize := buffer.length
  if ¬offset ≤ u64Range-1-bufferSize then .none
  else
    let bufferEnd := offset+bufferSize
    if bufferEnd > rangeStart ∧ offset < rangeEnd then
      let bufOverlapStart := if offset < rangeStart then rangeStart-offset else 0
      let bufOverlapEnd := if bufferEnd < rangeEnd then bufferSize else range
      memsetZero buffer bufOverlapStart ((bufOverlapEnd+u64Range-bufOverlapStart)%u64Range)
    else some buffer

/-- `iso_file_decryption::decrypt` -/
def decrypt (encType : EncryptionType) (table : List RegionInfo) (offset : ℕ) (buffer : Bytes) :
    Option Bytes :=
  match encType with
  | .none => some buffer
  | .dec3k3y => nullWatermark offset buffer
  | .enc3k3y => (nullWatermark offset buffer).map (decryptRegion ecb table offset)
  | .redump => some (decryptRegion ecb table offset buffer)

def withoutWatermark (offset : ℕ) (buffer : Bytes) : Bytes :=
  buffer.mapIdx fun i byte => if 0xF70 ≤ offset+i ∧ offset+i < 0x1070 then 0 else byte

/-- The reads after which the code nulls the watermark and nothing else. -/
def WatermarkHandled (offset n : ℕ) : Prop :=
  offset+n < u64Range ∧ (offset+n < 0x1070 ∨ 0x1070 ≤ offset ∨ offset=0xF70)

theorem getElem?_withoutWatermark (offset : ℕ) (buffer : Bytes) (i : ℕ) :
    (withoutWatermark offset buffer)[i]? =
      if 0xF70 ≤ offset+i ∧ offset+i < 0x1070 then buffer[i]?.map fun _ => 0 else buffer[i]? := by
  rw [withoutWatermark,getElem?_mapIdx]
  split <;> simp_all

variable {buffer : Bytes} {offset : ℕ}

/-- Nulling a window is right if it has the bytes of the watermark and no others. -/
theorem memsetZero_eq {pos n : ℕ} (h : pos+n ≤ buffer.length) (hwindow : ∀ i, i < buffer.length →
      (pos ≤ i ∧ i < pos+n ↔ 0xF70 ≤ offset+i ∧ offset+i < 0x1070)) :
    memsetZero buffer pos n = some (withoutWatermark offset buffer) := by
  rw [memsetZero,if_pos h]
  congr 1
  apply ext_getElem?
  intro i
  rw [getElem?_store _ _ (by omega),getElem?_withoutWatermark,length_replicate]
  by_cases hi : i < buffer.length
  · rw [if_congr (hwindow i hi) rfl rfl]
    split
    · rename_i hin
      have hpos := (hwindow i hi).2 hin
      rw [getElem?_replicate_of_lt (by omega),getElem?_eq_getElem hi,Option.map_some]
    · rfl
  · rw [if_neg (by omega),getElem?_eq_none (by omega)]
    split <;> rfl

theorem withoutWatermark_eq_self (h : offset+buffer.length ≤ 0xF70 ∨ 0x1070 ≤ offset) :
    withoutWatermark offset buffer=buffer := by
  apply ext_getElem?
  intro i
  rw [getElem?_withoutWatermark]
  by_cases hi : i < buffer.length
  · rw [if_neg (by omega)]
  · rw [getElem?_eq_none (by omega)]
    split <;> rfl

theorem nullWatermark_eq (h : WatermarkHandled offset buffer.length) :
    nullWatermark offset buffer = some (withoutWatermark offset buffer) := by
  obtain ⟨hfits,hkind⟩ := h
  have hcheck : offset ≤ u64Range-1-buffer.length := by
    omega
  simp only [nullWatermark,hcheck,not_true_eq_false,if_false]
  by_cases hoverlap : offset+buffer.length > 0xF70 ∧ offset < 0x1070
  · rw [if_pos hoverlap]
    apply memsetZero_eq
    · unfold u64Range at *
      split <;> split <;> omega
    · intro i hi
      unfold u64Range at *
      split <;> split <;> omega
  · rw [if_neg hoverlap,withoutWatermark_eq_self (by omega)]

/-- A read that goes past the watermark nulls up to index 0x100. -/
theorem nullWatermark_of_end (hfits : offset+buffer.length < u64Range)
    (hend : 0x1070 ≤ offset+buffer.length) (hbefore : offset < 0x1070) :
    nullWatermark offset buffer =
      memsetZero buffer (0xF70-offset) ((0x100+u64Range-(0xF70-offset))%u64Range) := by
  have hcheck : offset ≤ u64Range-1-buffer.length := by
    omega
  have hstart : (if offset < 0xF70 then 0xF70-offset else 0) = 0xF70-offset := by
    split <;> omega
  have hover : offset+buffer.length > 0xF70 ∧ offset < 0x1070 := by omega
  simp only [nullWatermark,hcheck,not_true_eq_false,if_false,hover,hstart]
  rw [if_pos ⟨trivial,trivial⟩,if_neg (by omega)]

/-- After any other read the code does not null the watermark of a buffer of ones. -/
theorem nullWatermark_ne {n : ℕ} (h : ¬WatermarkHandled offset n) (hlen : n < u64Range) :
    nullWatermark offset (replicate n 1) ≠ some (withoutWatermark offset (replicate n 1)) := by
  have hlength : (replicate n (1 : UInt8)).length=n := length_replicate
  intro heq
  by_cases hfits : offset+n < u64Range
  swap
  · simp only [nullWatermark,hlength] at heq
    rw [if_pos (by unfold u64Range at *; omega)] at heq
    cases heq
  have hother : 0x1070 ≤ offset+n ∧ offset < 0x1070 ∧ offset≠0xF70 := by
    simp only [WatermarkHandled] at h
    omega
  obtain ⟨hend,hbefore,hne⟩ := hother
  rw [nullWatermark_of_end (by rwa [hlength]) (by rwa [hlength]) hbefore,memsetZero,hlength] at heq
  split at heq
  swap
  · cases heq
  have hwindow : 0xF70-offset ≤ 0x100 ∧
      (0x100+u64Range-(0xF70-offset))%u64Range = 0x100-(0xF70-offset) := by
    unfold u64Range at *
    omega
  have hat := fun i : ℕ => congrArg (fun l : Bytes => l[i]?) (Option.some.inj heq)
  rcases Nat.lt_or_gt_of_ne hne with hlt | hgt
  · have hi := hat (0x106F-offset)
    simp only [getElem?_withoutWatermark] at hi
    rw [getElem?_store _ _ (by omega),length_replicate,if_neg (by omega),if_pos (by omega),
      getElem?_replicate_of_lt (by omega)] at hi
    exact absurd hi (by decide)
  · have hi := hat (0x1070-offset)
    simp only [getElem?_withoutWatermark] at hi
    rw [getElem?_store _ _ (by omega),length_replicate,if_pos (by omega),if_neg (by omega),
      getElem?_replicate_of_lt (by omega),getElem?_replicate_of_lt (by omega)] at hi
    exact absurd hi (by decide)

/-- On a 3k3y image exactly the watermark is nulled after a read of `n` bytes if and only if the
read ends before the end of the watermark, starts behind it, or starts with it. -/
theorem watermark_nulled_iff (offset n : ℕ) (hn : n < u64Range) :
    (∀ (table : List RegionInfo) (buffer : Bytes), buffer.length=n →
      decrypt ecb .dec3k3y table offset buffer = some (withoutWatermark offset buffer) ∧
        decrypt ecb .enc3k3y table offset buffer =
          some (decryptRegion ecb table offset (withoutWatermark offset buffer))) ↔
      WatermarkHandled offset n := by
  constructor
  · intro h
    by_contra hnot
    exact nullWatermark_ne hnot hn (h [] (replicate n 1) length_replicate).1
  · intro h table buffer hlength
    have hnull : nullWatermark offset buffer = some (withoutWatermark offset buffer) :=
      nullWatermark_eq (by rwa [hlength])
    refine ⟨hnull,?_⟩
    rw [decrypt,hnull,Option.map_some]

theorem watermark_nulled_iff_start : decrypt id .dec3k3y [] 0xF70 (List.replicate 0x100 1) =
      some (withoutWatermark 0xF70 (List.replicate 0x100 1)) :=
  (((watermark_nulled_iff id 0xF70 0x100 (by decide)).2 ⟨by decide,by decide⟩) []
    (replicate 0x100 1) length_replicate).1

/-- A read at the start of the third sector has 0x70 bytes of the watermark, but the next byte is
nulled too. In a read of the first three sectors the length of the window is negative. -/
theorem watermark_nulled_too_far :
    ((decrypt id .dec3k3y [] 0x1000 (List.replicate 0x100 1)).map (·[0x70]?) = some (some 0) ∧
      (withoutWatermark 0x1000 (List.replicate 0x100 1))[0x70]? = some 1) ∧
      decrypt id .dec3k3y [] 0 (List.replicate 0x1800 1)=none := by
  refine ⟨by decide +kernel,?_⟩
  rw [decrypt,nullWatermark_of_end,memsetZero,if_neg]
  · rw [length_replicate]
    decide
  · rw [length_replicate]
    decide
  · rw [length_replicate]
    decide
  · decide

end PS3Native.Iso
