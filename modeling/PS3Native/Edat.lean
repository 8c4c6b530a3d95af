import Mathlib.Data.Nat.ModEq
import PS3Native.Alignment
import PS3Native.Slices

/-!
# Reading from an EDAT file

An EDAT file is kept in blocks that are decrypted one at a time. `EDATADecrypter::ReadData` decrypts
the blocks that a request touches and copies the part of each that the request asks for.
-/
namespace PS3Native.Edat
open List

abbrev Bytes := List UInt8

/-- `EDAT_HEADER`. -/
structure Header where
  flags : UInt32
  blockSize : UInt32
  fileSize : UInt64
deriving DecidableEq

abbrev Header.bs (h : Header) : ℕ := h.blockSize.toNat
abbrev Header.fs (h : Header) : ℕ := h.fileSize.toNat

/-- The size of the buffer for a block, computed in 32 bits. -/
abbrev Header.bufSize (h : Header) : ℕ := (h.blockSize+16).toNat

/-- What the code does not return from. -/
inductive Fault
  | divisionByZero | ensureFailed | allocationRefused | outOfBounds
deriving DecidableEq

def ensure (p : Bool) : Except Fault Unit := if p then pure () else throw .ensureFailed

/-- `::narrow<u32>`. -/
def narrow (n : ℕ) : Except Fault ℕ := if n < 2^32 then pure n else throw .ensureFailed

abbrev Header.blocks (h : Header) : ℕ := alignedDiv h.fs h.bs

/-- `total_blocks`, as `ReadHeader` sets it. -/
def countBlocks (h : Header) : Except Fault ℕ :=
  if h.blockSize=0 then pure 0 else narrow h.blocks

/-- The value that `decrypt_block` returns for an error, as `u64`. -/
def umax : ℕ := 2^64-1

/-- A vector of bytes that keeps its size. -/
abbrev Buffer (n : ℕ) := {bytes : Bytes // bytes.length=n}

/-- The buffer after bytes are written over its front. -/
def fill {n : ℕ} (buf : Buffer n) (data : Bytes) : Buffer n :=
  ⟨(data++buf.1.drop data.length).take n,by
    rw [length_take,length_append,length_drop,buf.2]
    omega⟩

theorem fill_eq {n : ℕ} (buf : Buffer n) {data : Bytes} (h : data.length ≤ n) :
    ∃ rest hrest, fill buf data = ⟨data++rest,hrest⟩ := by
  have hfill : (data++buf.1.drop data.length).take n =
      data++(buf.1.drop data.length).take (n-data.length) := by
    rw [take_append,take_of_length_le h]
  exact ⟨_,hfill ▸ (fill buf data).2,Subtype.ext hfill⟩

/-- `decrypt_block` for the block of an index and the buffer given to it: the value that it returns
and the buffer that it leaves. -/
abbrev DecryptBlock (n : ℕ) := ℕ → Buffer n → Except Fault (ℕ × Buffer n)

/-- `end_pos`: where a block ends that the loop of `ReadData` decrypts. -/
def endPos (h : Header) (totalBlocks i : ℕ) : ℕ :=
  if i+1=totalBlocks then (h.fs-1)%h.bs+1 else h.bs

/-- `read_end`: where the loop of `ReadData` stops to copy from a block. -/
def readEnd (h : Header) (totalBlocks startOffset size endingBlock res i : ℕ) : ℕ :=
  min res (if i+1=endingBlock then
    min (endPos h totalBlocks i) ((startOffset+size-1)%h.bs+1)
    else endPos h totalBlocks i)

/-- The loop of `ReadData` over the `n` blocks from `i` on, with the buffer and the bytes copied. -/
def readBlocks (h : Header) (decryptBlock : DecryptBlock h.bufSize)
    (totalBlocks startOffset size startingBlock endingBlock : ℕ) :
    ℕ → ℕ → Buffer h.bufSize → Bytes → Except Fault Bytes
  | 0, _, _, data => pure data
  | n+1, i, dataBuf, data => do
    let (res,dataBuf) ← decryptBlock i dataBuf
    if res=umax then pure [] else
    let skipStart := if i=startingBlock then startOffset else 0
    if res ≤ skipStart then pure data else
    let readEnd := readEnd h totalBlocks startOffset size endingBlock res i
    if h.bufSize < readEnd then throw .outOfBounds else
    readBlocks h decryptBlock totalBlocks startOffset size startingBlock endingBlock n (i+1)
      (fill dataBuf (replicate (readEnd-skipStart) 0))
      (data++slice dataBuf.1 skipStart (readEnd-skipStart))

/-- `EDATADecrypter::ReadData`: the bytes copied to the caller. `permits` says which sizes a buffer
may have whose size is a number from the file. -/
def readData (permits : ℕ → Bool) (h : Header) (decryptBlock : DecryptBlock h.bufSize)
    (totalBlocks pos size : ℕ) : Except Fault Bytes := do
  let size := min size (h.fs-pos)
  if size=0 then pure [] else
  if h.blockSize=0 then throw .divisionByZero else
  let startOffset := pos%h.bs
  let startingBlock ← narrow (pos/h.bs)
  let endingBlock ← narrow (min (startingBlock+alignedDiv (startOffset+size) h.bs) totalBlocks)
  if permits h.bufSize then
    readBlocks h decryptBlock totalBlocks startOffset size startingBlock endingBlock
      (endingBlock-startingBlock) startingBlock ⟨replicate h.bufSize 0,length_replicate⟩ []
  else throw .allocationRefused

theorem Header.fs_le_blocks_mul (h : Header) (hbs : 0 < h.bs) : h.fs ≤ h.blocks*h.bs :=
  alignedDiv_mul_ge hbs

/-- The last position of a block that a length reaches into, as the code computes it. -/
theorem pred_mod_succ {n k i : ℕ} (hi : i*k < n) (hn : n ≤ (i+1)*k) : (n-1)%k+1 = n-i*k := by
  rw [Nat.add_one_mul] at hn
  have hsub : n-1 = n-1-i*k+i*k := by omega
  rw [hsub,Nat.add_mul_mod_self_right,Nat.mod_eq_of_lt (by omega)]
  omega

def blockLength (h : Header) (i : ℕ) : ℕ :=
  if i+1=h.blocks ∧ h.fs%h.bs≠0 then h.fs%h.bs else h.bs

/-- `decrypt_block` is a function of the index of the block: it leaves the bytes of the block in
front of the buffer and returns how many they are. It ensures that the buffer has room for them in
multiples of 16. -/
def Decrypts (h : Header) (decryptBlock : DecryptBlock h.bufSize) (block : ℕ → Bytes) : Prop :=
  ∀ i < h.blocks, (block i).length = blockLength h i ∧ ∀ buf,
    if alignUp (blockLength h i) 16 ≤ h.bufSize then
      ∃ rest hrest, decryptBlock i buf = .ok ((block i).length,⟨block i++rest,hrest⟩)
    else decryptBlock i buf = .error .ensureFailed

variable {h : Header} {decryptBlock : DecryptBlock h.bufSize} {block : ℕ → Bytes} {i : ℕ}

theorem blockLength_eq (hbs : 0 < h.bs) (hi : i < h.blocks) :
    blockLength h i = min h.bs (h.fs-i*h.bs) := by
  have hn := Nat.div_add_mod' h.fs h.bs
  have hmod := Nat.mod_lt h.fs hbs
  unfold blockLength
  by_cases hzero : h.fs%h.bs=0
  · have hle := Nat.mul_le_mul_right h.bs
      (show i+1 ≤ h.fs/h.bs by simp only [alignedDiv,if_pos hzero] at hi; omega)
    rw [Nat.add_one_mul] at hle
    rw [if_neg (by tauto)]
    omega
  · by_cases hlast : i+1=h.blocks
    · have hdiv : i = h.fs/h.bs := by
        simp only [alignedDiv,if_neg hzero] at hlast
        omega
      rw [if_pos ⟨hlast,hzero⟩,hdiv]
      omega
    · have hle := Nat.mul_le_mul_right h.bs (show i+1 ≤ h.fs/h.bs by
          simp only [alignedDiv,if_neg hzero] at hi hlast; omega)
      rw [Nat.add_one_mul] at hle
      rw [if_neg (by tauto)]
      omega

def plain (h : Header) (block : ℕ → Bytes) : Bytes :=
  (List.range h.blocks).flatMap block

section

variable (hbs : 0 < h.bs) (hblock : Decrypts h decryptBlock block)

include hbs hblock

theorem length_before (hi : i < h.blocks) : ((range i).flatMap block).length = i*h.bs := by
  refine length_flatMap_range fun j hj => ?_
  rw [(hblock j (by omega)).1,blockLength_eq hbs (by omega)]
  have hle := Nat.mul_le_mul_right h.bs (show j+1 ≤ i from hj)
  have hlt := lt_of_lt_alignedDiv hbs hi
  rw [Nat.add_one_mul] at hle
  omega

theorem length_plain : (plain h block).length=h.fs := by
  have hfile := h.fs_le_blocks_mul hbs
  unfold plain
  cases htotal : h.blocks with
  | zero =>
    rw [htotal] at hfile
    simp only [range_zero,flatMap_nil,length_nil]
    omega
  | succ last =>
    have hlast : last < h.blocks := by omega
    have hlt := lt_of_lt_alignedDiv hbs hlast
    rw [htotal,Nat.add_one_mul] at hfile
    rw [range_succ,flatMap_append,length_append,length_before hbs hblock hlast,
      flatMap_singleton,(hblock last hlast).1,blockLength_eq hbs hlast]
    omega

theorem slice_plain (hi : i < h.blocks) {a n : ℕ} (ha : a+n ≤ (block i).length) :
    slice (plain h block) (i*h.bs+a) n = slice (block i) a n := by
  obtain ⟨k,hk⟩ : ∃ k, h.blocks = i+(1+k) :=
    ⟨_,by rw [← Nat.add_assoc]; exact (Nat.add_sub_cancel' hi).symm⟩
  have hplain : plain h block = (range i).flatMap block++(block i ++
      (range k).flatMap fun j => block (i+(1+j))) := by
    simp only [plain,hk,range_add,flatMap_append,map_append,flatMap_map]
    simp
  rw [hplain,← length_before hbs hblock hi,slice_append_right,slice_append_left _ _ ha]

end

theorem of_countBlocks (hbs : h.blockSize≠0) {totalBlocks : ℕ}
    (hcount : countBlocks h = .ok totalBlocks) : h.blocks < 2^32 ∧ h.blocks=totalBlocks := by
  rw [countBlocks,if_neg hbs,narrow] at hcount
  split at hcount
  · cases hcount
    exact ⟨‹_›,rfl⟩
  · cases hcount

theorem readEnd_eq (hbs : 0 < h.bs) {pos stop endingBlock : ℕ} (hlt : pos < stop)
    (hstop : stop ≤ h.fs) (hend : stop ≤ endingBlock*h.bs)
    (hbelow : ∀ i < endingBlock, i*h.bs < stop) (hi : i < endingBlock) :
    readEnd h h.blocks (pos%h.bs) (stop-pos) endingBlock (blockLength h i) i =
      min ((i+1)*h.bs) stop-i*h.bs := by
  have hfile := h.fs_le_blocks_mul hbs
  have hin := hbelow i hi
  have htotal : i < h.blocks := by
    refine Nat.lt_of_mul_lt_mul_right (a := h.bs) ?_
    omega
  -- the end of the block is never before the end of its bytes
  have hblockEnd : blockLength h i ≤ endPos h h.blocks i := by
    rw [blockLength_eq hbs htotal,endPos]
    split
    · rename_i hlast
      rw [pred_mod_succ (lt_of_lt_alignedDiv hbs htotal) (by rw [hlast]; exact hfile)]
      omega
    · omega
  have hlength := blockLength_eq hbs htotal
  have hsucc := Nat.add_one_mul i h.bs
  unfold readEnd
  split
  · rename_i hlast
    have hpos := Nat.div_add_mod' pos h.bs
    have hmod : (pos%h.bs+(stop-pos)-1)%h.bs = (stop-1)%h.bs := by
      conv_rhs => rw [show stop-1 = pos%h.bs+(stop-pos)-1+pos/h.bs*h.bs by omega]
      rw [Nat.add_mul_mod_self_right]
    rw [hmod,pred_mod_succ hin (by rw [hlast]; exact hend)]
    omega
  · have hnext := hbelow (i+1) (by omega)
    omega

/-- The loop copies the positions of a request block by block: those before block `i` are copied, and
the others follow. -/
theorem readBlocks_eq (hbs : 0 < h.bs) (hblock : Decrypts h decryptBlock block)
    {pos stop endingBlock : ℕ} (hlt : pos < stop) (hstop : stop ≤ h.fs)
    (hend : stop ≤ endingBlock*h.bs) (hbelow : ∀ i < endingBlock, i*h.bs < stop) (n : ℕ)
    (hn : i+n=endingBlock) (hstart : pos/h.bs ≤ i) (hbuf : h.bufSize = h.bs+16) (buf : Buffer h.bufSize) :
    readBlocks h decryptBlock h.blocks (pos%h.bs) (stop-pos) (pos/h.bs) endingBlock n i buf
        (slice (plain h block) pos (min (i*h.bs) stop-pos)) =
      .ok (slice (plain h block) pos (stop-pos)) := by
  induction n generalizing i buf with
  | zero =>
    rw [show i = endingBlock from hn,Nat.min_eq_right hend]
    rfl
  | succ n ih =>
    have hi : i < endingBlock := by omega
    have hin := hbelow i hi
    have hfile := h.fs_le_blocks_mul hbs
    have htotal : i < h.blocks := by
      refine Nat.lt_of_mul_lt_mul_right (a := h.bs) ?_
      omega
    obtain ⟨hlen,hdecrypt⟩ := hblock i htotal
    have hlength := blockLength_eq hbs htotal
    have halign : alignUp (blockLength h i) 16 < blockLength h i+16 := alignUp_lt (by decide)
    have hdecrypt := hdecrypt buf
    rw [if_pos (by omega)] at hdecrypt
    obtain ⟨rest,hrest,hdecrypt⟩ := hdecrypt
    have hsucc := Nat.add_one_mul i h.bs
    have hpos := Nat.div_add_mod' pos h.bs
    have hmod := Nat.mod_lt pos hbs
    -- where the copy starts: at the request in its first block, at the block in the others
    have hskip : i*h.bs+(if i = pos/h.bs then pos%h.bs else 0) = max pos (i*h.bs) := by
      split
      · rename_i hfirst
        rw [hfirst]
        omega
      · have hle := Nat.mul_le_mul_right h.bs (show pos/h.bs+1 ≤ i by omega)
        rw [Nat.add_one_mul] at hle
        omega
    have hnext : pos < (i+1)*h.bs := Nat.lt_mul_of_div_lt (Nat.lt_succ_of_le hstart) hbs
    have hblockSize : h.bs < 2^32 := h.blockSize.toNat_lt
    have hread := readEnd_eq hbs hlt hstop hend hbelow hi
    simp only [readBlocks,hdecrypt,bind,Except.bind]
    generalize (if i = pos/h.bs then pos%h.bs else 0) = skip at hskip ⊢
    rw [hlen,hread,if_neg (by unfold umax; omega),if_neg (by omega),if_neg (by omega),
      slice_append_left _ _ (by omega),← slice_plain hbs hblock htotal (by omega),hskip,
      show max pos (i*h.bs) = pos+(min (i*h.bs) stop-pos) by omega,
      slice_append_slice,
      show min (i*h.bs) stop-pos+(min ((i+1)*h.bs) stop-i*h.bs-skip) =
          min ((i+1)*h.bs) stop-pos by omega]
    exact ih (by omega) (by omega) _

theorem bs_pos (hbs : h.blockSize≠0) : 0 < h.bs :=
  Nat.pos_of_ne_zero fun hzero => hbs (UInt32.toNat_inj.1 hzero)

/-- A request for bytes that the file has reads the blocks from the one it starts in to the one it
ends in. -/
theorem readData_eq (hbs : h.blockSize≠0) (hblocks : h.blocks < 2^32) (permits : ℕ → Bool)
    (decryptBlock : DecryptBlock h.bufSize) {pos size n : ℕ} (hn : min size (h.fs-pos)=n)
    (hzero : n≠0) : readData permits h decryptBlock h.blocks pos size =
        (if permits h.bufSize then
          readBlocks h decryptBlock h.blocks (pos%h.bs) n (pos/h.bs) (alignedDiv (pos+n) h.bs)
            (alignedDiv (pos+n) h.bs-pos/h.bs) (pos/h.bs) ⟨replicate h.bufSize 0,length_replicate⟩ []
        else .error .allocationRefused) ∧
      pos/h.bs < alignedDiv (pos+n) h.bs ∧ alignedDiv (pos+n) h.bs ≤ h.blocks := by
  have hpos := bs_pos hbs
  have hdiv := Nat.div_add_mod' pos h.bs
  have hend : pos/h.bs+alignedDiv (pos%h.bs+n) h.bs = alignedDiv (pos+n) h.bs := by
    rw [← alignedDiv_add_mul _ _ hpos,show pos%h.bs+n+pos/h.bs*h.bs = pos+n by omega]
  have hle : alignedDiv (pos+n) h.bs ≤ h.blocks :=
    alignedDiv_le hpos (Nat.le_trans (by omega) (alignedDiv_mul_ge hpos))
  have hstart : pos/h.bs < alignedDiv (pos+n) h.bs := by
    rw [Nat.div_lt_iff_lt_mul hpos]
    exact Nat.lt_of_lt_of_le (by omega) (alignedDiv_mul_ge hpos)
  refine ⟨?_,hstart,hle⟩
  simp only [readData,hn,if_neg hzero,if_neg hbs,narrow,bind,Except.bind,pure,Except.pure,
    if_pos (show pos/h.bs < 2^32 by omega),hend,Nat.min_eq_left hle,
    if_pos (show alignedDiv (pos+n) h.bs < 2^32 by omega)]
  rfl

/-- With a block size, and the number of blocks that `ReadHeader` has counted, a request gives the part
of the decrypted file that it asks for, cut off at the end of it, exactly if it is for no byte or the
size of the buffer does not wrap. -/
theorem read_data_eq_iff (h : Header) (hbs : h.blockSize≠0) (totalBlocks : ℕ)
    (hcount : countBlocks h = .ok totalBlocks) (decryptBlock : DecryptBlock h.bufSize)
    (block : ℕ → Bytes) (hblock : Decrypts h decryptBlock block) (pos size : ℕ) :
    (readData (fun _ => true) h decryptBlock totalBlocks pos size =
          .ok (slice (plain h block) pos (min size (h.fs-pos))) ∧
        (slice (plain h block) pos (min size (h.fs-pos))).length = min size (h.fs-pos)) ↔
      min size (h.fs-pos)=0 ∨ h.bs+16 < 2^32 := by
  obtain ⟨htotal,rfl⟩ := of_countBlocks hbs hcount
  have hpos := bs_pos hbs
  rw [and_iff_left (by rw [length_slice_eq,length_plain hpos hblock]; omega)]
  generalize hn : min size (h.fs-pos)=n
  by_cases hzero : n=0
  · simp [readData,hn,hzero]
    rfl
  obtain ⟨hread,hstart,hle⟩ := readData_eq hbs htotal (fun _ => true) decryptBlock hn hzero
  rw [hread,or_iff_right hzero,if_pos rfl]
  have hbuf : h.bufSize = (h.bs+16)%2^32 := UInt32.toNat_add ..
  have hblockSize : h.bs < 2^32 := h.blockSize.toNat_lt
  constructor
  · intro hok
    by_contra hwrap
    -- the buffer has less than 16 bytes, and no block fits into it
    obtain ⟨k,hk⟩ : ∃ k, alignedDiv (pos+n) h.bs-pos/h.bs = k+1 :=
      ⟨_,(Nat.sub_add_cancel (by omega)).symm⟩
    have hin := lt_of_lt_alignedDiv hpos (hstart.trans_le hle)
    have hlength := blockLength_eq hpos (hstart.trans_le hle)
    have halign := @le_alignUp (blockLength h (pos/h.bs)) 16 (by decide)
    have hdvd := dvd_alignUp (blockLength h (pos/h.bs)) 16
    have hfail := (hblock (pos/h.bs) (hstart.trans_le hle)).2 ⟨replicate h.bufSize 0,length_replicate⟩
    rw [if_neg (by omega)] at hfail
    rw [hk,readBlocks,hfail] at hok
    cases hok
  · intro hsmall
    have hblocks := readBlocks_eq hpos hblock (show pos < pos+n by omega) (by omega)
      (alignedDiv_mul_ge hpos) (fun i => lt_of_lt_alignedDiv hpos) _
      (Nat.add_sub_cancel' (by omega)) (Nat.le_refl _) (by omega)
      ⟨replicate h.bufSize 0,length_replicate⟩
    have hdiv := Nat.div_add_mod' pos h.bs
    rwa [show min (pos/h.bs*h.bs) (pos+n)-pos = 0 by omega,
      slice_zero,Nat.add_sub_cancel_left] at hblocks

/-- Blocks that need no more than 16 bytes. -/
def copyBlock {n : ℕ} (block : ℕ → Bytes) : DecryptBlock n := fun i buf =>
  if 16 ≤ n then .ok ((block i).length,fill buf (block i)) else .error .ensureFailed

theorem decrypts_copyBlock (hblock : ∀ i < h.blocks,
      (block i).length = blockLength h i ∧ alignUp (blockLength h i) 16=16) :
    Decrypts h (copyBlock block) block := by
  intro i hi
  obtain ⟨hlength,halign⟩ := hblock i hi
  have hle := @le_alignUp (blockLength h i) 16 (by decide)
  refine ⟨hlength,fun buf => ?_⟩
  rw [halign,copyBlock]
  split_ifs
  · obtain ⟨rest,hrest,hfill⟩ := fill_eq buf (show (block i).length ≤ h.bufSize by omega)
    exact ⟨rest,hrest,by rw [hfill]⟩
  · rfl

/-- Three bytes in blocks of two, read from the second byte on. -/
theorem read_data_eq_iff_three_bytes :
    readData (fun _ => true) ⟨0,2,3⟩ (copyBlock fun i => if i=0 then [1,2] else [3]) 2 1 5 =
      .ok [2,3] := by
  have hblocks : ∀ i < Header.blocks ⟨0,2,3⟩, (if i=0 then [1,2] else [3] : Bytes).length =
      blockLength ⟨0,2,3⟩ i ∧ alignUp (blockLength ⟨0,2,3⟩ i) 16=16 := by decide
  exact ((read_data_eq_iff ⟨0,2,3⟩ (by decide) 2 rfl _ _ (decrypts_copyBlock hblocks) 1 5).2
    (.inr (by decide))).1

/-- A block size just below 4 GiB leaves a buffer of 15 bytes, too small for a file of one. -/
theorem read_data_wide_blocks :
    Decrypts ⟨0,0xFFFFFFFF,1⟩ (copyBlock fun _ => [7]) (fun _ => [7]) ∧
      countBlocks ⟨0,0xFFFFFFFF,1⟩ = .ok 1 ∧
      readData (fun _ => true) ⟨0,0xFFFFFFFF,1⟩ (copyBlock fun _ => [7]) 1 0 1 =
        .error .ensureFailed := by
  have hblocks : ∀ i < Header.blocks ⟨0,0xFFFFFFFF,1⟩, ([7] : Bytes).length =
      blockLength ⟨0,0xFFFFFFFF,1⟩ i ∧ alignUp (blockLength ⟨0,0xFFFFFFFF,1⟩ i) 16=16 := by decide
  exact ⟨decrypts_copyBlock hblocks,rfl,rfl⟩

end PS3Native.Edat
