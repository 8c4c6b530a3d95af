import PS3Native.Edat
import PS3Native.Lz

/-!
# Opening an EDAT file

`EDATADecrypter::ReadHeader` reads the headers of a file, chooses a key, counts the blocks and tries
to decrypt the first one. The block size, the file size and the lengths of compressed blocks are what
the file says. The ciphers and the hashes are parameters.
-/
namespace PS3Native.Edat

/-- `NPD_HEADER`: its bytes, and the fields of it that are numbers. -/
structure Npd where
  bytes : Bytes
  version : ℤ
  license : UInt32
deriving DecidableEq

/-- What the decrypter asks of the rest of the emulator. -/
structure Env where
  /-- `cmac_hash_compare` of the first 0x60 bytes of the header for a klicensee, in
  `validate_dev_klic`. -/
  cmacHashCompare : ℕ → Bytes → Bool
  /-- The key of the RAP file for the content id of a header, where there is such a file. -/
  rifKey : Bytes → Option ℕ
  /-- The key of an SDAT file. -/
  sdatKey : Bytes → ℕ
  /-- `decrypt` with the keys and modes of a block, for the hash and the data of it. -/
  decrypt : Header → Npd → ℕ → ℕ → Bytes → Bytes → Option Bytes
  decrypt_length : ∀ {h npd key i hash data out}, decrypt h npd key i hash data = some out →
    out.length=data.length

structure Decrypter where
  edat : Header
  npd : Npd
  decKey : ℕ
deriving DecidableEq

def sdatFlag : UInt32 := 0x01000000
def compressedFlag : UInt32 := 0x00000001
def flag0x20 : UInt32 := 0x00000020
def debugDataFlag : UInt32 := 0x80000000

def Header.has (h : Header) (flag : UInt32) : Bool := h.flags &&& flag != 0

/-- `fs::file::read_at` into a zeroed array of that size. -/
def readAt (file : Bytes) (offset n : ℕ) : Bytes := store (List.replicate n 0) 0 (slice file offset n)

def beInt (bytes : Bytes) : ℤ := (BitVec.ofNat 32 (beNat bytes)).toInt

def readNpdEdatHeader (file : Bytes) : Npd × Header :=
  let npd := readAt file 0 0x80
  let edat := readAt file (slice file 0 0x80).length 0x10
  (⟨npd,beInt (slice npd 4 4),(beNat (slice npd 8 4)).toUInt32⟩,
    ⟨(beNat (slice edat 0 4)).toUInt32,(beNat (slice edat 4 4)).toUInt32,
      (beNat (slice edat 8 8)).toUInt64⟩)

def validateDevKlic (env : Env) (klicensee : ℕ) (npd : Npd) : Bool :=
  npd.license &&& 3 != 3 || env.cmacHashCompare klicensee npd.bytes

/-- `ReadHeader` up to the choice of the key. It fails for another kind of file, for a klicensee that
does not match, and where the key of a RAP file is needed and there is none. -/
def selectKey (env : Env) (file : Bytes) (decKey : ℕ) (isKeyFinal : Bool) : Option Decrypter :=
  let (npd,edat) := readNpdEdatHeader file
  if slice npd.bytes 0 4≠[0x4e,0x50,0x44,0] then none
  else if edat.has sdatFlag then some ⟨edat,npd,env.sdatKey npd.bytes⟩
  else if !edat.has debugDataFlag && !validateDevKlic env decKey npd then none
  else if isKeyFinal || npd.license &&& 3 == 3 then some ⟨edat,npd,decKey⟩
  else
    let rif := (env.rifKey npd.bytes).getD decKey
    if rif=0 then none else some ⟨edat,npd,rif⟩

/-- `dec_section`: the last half of the metadata, with the first half mixed into it. -/
def decSection (metadata : Bytes) : Bytes :=
  [0xC,0xD,0xE,0xF,4,5,6,7,0xC,0xD,0xE,0xF,4,5,6,7].zipIdx.map fun (a,i) =>
    metadata.getD a 0 ^^^ metadata.getD (if i < 8 then 8+i%4 else i%4) 0 ^^^
      metadata.getD (0x10+i) 0

/-- Where the data of a block is: the hash, the offset, the length and `compression_end`. -/
def blockInfo (d : Decrypter) (file : Bytes) (totalBlocks i : ℕ) : Bytes × ℕ × ℕ × ℤ :=
  let bs := d.edat.bs
  let rest := d.edat.fs%bs
  -- the rest is cast to `s32`, and both numbers to `u64`
  let length := if i+1=totalBlocks ∧ rest≠0 then
    (((BitVec.ofNat 32 rest).toInt)%2^64).toNat else bs
  if d.edat.has compressedFlag then
    let metadata := readAt file (0x100+i*0x20) 0x20
    let fields := if d.npd.version ≤ 1 then slice metadata 0x10 0x10 else decSection metadata
    (slice metadata 0 0x10,beNat (slice fields 0 8),
      (beInt (slice fields 8 4)%2^64).toNat,beInt (slice fields 12 4))
  else if d.edat.has flag0x20 then
    let offset := (0x100+i*(0x20+bs))%2^64
    let metadata := readAt file offset 0x20
    (List.zipWith (· ^^^ ·) (slice metadata 0 0x10) (slice metadata 0x10 0x10) ++
      slice metadata 0x10 4,(offset+0x20)%2^64,length,0)
  else (readAt file (0x100+i*0x10) 0x10,(0x100+i*bs+totalBlocks*0x10)%2^64,length,0)

/-- The end of `decrypt_block`, which writes the decrypted data. -/
def writeBlock (d : Decrypter) (padLength : ℕ) (compressionEnd : ℤ) (decData : Bytes)
    (out : Buffer d.edat.bufSize) : Except Fault (ℕ × Buffer d.edat.bufSize) :=
  if d.edat.has compressedFlag ∧ compressionEnd≠0 then
    match Lz.decompress (fun k => decData.getD k 0) d.edat.bs with
    | none => throw .outOfBounds
    | some (res,bytes) =>
      if d.edat.bufSize < bytes.length then throw .outOfBounds else
      let ended := (d.edat.fs-res)%2^64=0
      pure (if ended ∧ res < 0 then umax else (res%2^64).toNat,fill out bytes)
  else if d.edat.has debugDataFlag then pure (padLength,out)
  else do
    ensure (decide (padLength ≤ d.edat.bufSize))
    ensure (decide (padLength ≤ decData.length))
    pure (padLength,fill out (decData.take padLength))

def decryptBlock (permits : ℕ → Bool) (env : Env) (d : Decrypter) (file : Bytes) (totalBlocks : ℕ) :
    DecryptBlock d.edat.bufSize := fun i out =>
  let (hash,offset,padLength,compressionEnd) := blockInfo d file totalBlocks i
  let length := (padLength+15)%2^64/16*16
  if !permits length then throw .allocationRefused
  else if d.edat.bufSize < length then throw .ensureFailed
  else
    let out := fill out (slice file offset length)
    let decData := if d.edat.has debugDataFlag then some (out.1.take length)
      else env.decrypt d.edat d.npd d.decKey i hash (out.1.take length)
    match decData with
    | none => pure (umax,out)
    | some decData => writeBlock d padLength compressionEnd decData out

/-- `ReadData` of a decrypter, with the number of blocks that `ReadHeader` has counted. -/
def Decrypter.readData (permits : ℕ → Bool) (env : Env) (d : Decrypter) (file : Bytes)
    (totalBlocks pos size : ℕ) : Except Fault Bytes :=
  Edat.readData permits d.edat (decryptBlock permits env d file totalBlocks) totalBlocks pos size

/-- `EDATADecrypter::ReadHeader`: the decrypter and the number of blocks, or a failure. -/
def readHeader (permits : ℕ → Bool) (env : Env) (file : Bytes) (decKey : ℕ) (isKeyFinal : Bool) :
    Except Fault (Option (Decrypter × ℕ)) :=
  match selectKey env file decKey isKeyFinal with
  | none => pure none
  | some d => do
    let totalBlocks ← countBlocks d.edat
    if d.edat.fileSize=0 then pure (some (d,totalBlocks)) else
    let sample ← d.readData permits env file totalBlocks 0 1
    pure (if sample.length=0 then none else some (d,totalBlocks))

/-- No division by zero, failed `ensure` or allocation that is refused. -/
def Faultless {α : Type} (x : Except Fault α) : Prop := ∀ fault, x = .error fault → fault=.outOfBounds

/-- The length of the block in multiples of 16 is allocated and fits into the buffer, and it does not
wrap where the data is copied. -/
def Sized (permits : ℕ → Bool) (d : Decrypter) (file : Bytes) (i : ℕ) : Prop :=
  let (_,_,padLength,compressionEnd) := blockInfo d file d.edat.blocks i
  let length := (padLength+15)%2^64/16*16
  permits length ∧ length ≤ d.edat.bufSize ∧
    (padLength ≤ length ∨ d.edat.has compressedFlag ∧ compressionEnd≠0 ∨ d.edat.has debugDataFlag)

section

variable {α β : Type}

@[simp] theorem faultless_pure (a : α) : Faultless (pure a) := nofun

theorem faultless_outOfBounds : Faultless (.error .outOfBounds : Except Fault α) := by
  rintro _ ⟨⟩
  rfl

theorem Faultless.bind {x : Except Fault α} (hx : Faultless x) {f : α → Except Fault β}
    (hf : ∀ a, x = .ok a → Faultless (f a)) : Faultless (x >>= f) := by
  cases x with
  | error fault =>
    rw [hx fault rfl]
    exact faultless_outOfBounds
  | ok a => exact hf a rfl

end

variable {permits : ℕ → Bool} {d : Decrypter} {file : Bytes} {i : ℕ} (env : Env)

theorem Sized.decryptBlock (h : Sized permits d file i) (out : Buffer d.edat.bufSize) :
    Faultless (decryptBlock permits env d file d.edat.blocks i out) := by
  rw [Sized] at h
  rw [Edat.decryptBlock]
  generalize blockInfo d file d.edat.blocks i=info at h ⊢
  obtain ⟨hash,offset,padLength,compressionEnd⟩ := info
  simp only at h ⊢
  generalize (padLength+15)%2^64/16*16=length at h ⊢
  obtain ⟨hpermits,hfit,hdata⟩ := h
  simp only [hpermits,Bool.not_true,Bool.false_eq_true,if_false,if_neg (Nat.not_lt.2 hfit)]
  generalize fill out (slice file offset length)=out
  split
  · exact faultless_pure _
  next decData hdec =>
    unfold writeBlock
    split_ifs with hcompressed hdebug
    · split
      · exact faultless_outOfBounds
      · split_ifs
        · exact faultless_outOfBounds
        · exact faultless_pure _
    · exact faultless_pure _
    · have hpad : padLength ≤ length := hdata.resolve_right (by tauto)
      rw [if_neg hdebug] at hdec
      have hlength := env.decrypt_length hdec
      rw [List.length_take_of_le (by rw [out.2]; exact hfit)] at hlength
      simp only [ensure,hlength,hpad,hpad.trans hfit,decide_true,if_true]
      exact faultless_pure _

theorem readBlocks_faultless {h : Header} {decryptBlock : DecryptBlock h.bufSize}
    {startOffset size startingBlock endingBlock n : ℕ} {buf : Buffer h.bufSize} {data : Bytes}
    (hblock : ∀ j, j < i+n → ∀ buf, Faultless (decryptBlock j buf)) : Faultless
      (readBlocks h decryptBlock h.blocks startOffset size startingBlock endingBlock n i buf data) := by
  induction n generalizing i buf data with
  | zero => exact faultless_pure _
  | succ n ih =>
    refine (hblock i (by omega) buf).bind fun ⟨res,buf⟩ _ => ?_
    dsimp only
    generalize (if i=startingBlock then startOffset else 0)=skipStart
    split_ifs
    · exact faultless_pure _
    · exact faultless_pure _
    · exact faultless_outOfBounds
    · exact ih fun j hj => hblock j (by omega)

theorem blockInfo_length (hcompressed : d.edat.has compressedFlag=false)
    (hrest : d.edat.fs%d.edat.bs < 2^31) (file : Bytes) (i : ℕ) :
    (blockInfo d file d.edat.blocks i).2.2.1 = blockLength d.edat i := by
  have hcast : ((BitVec.ofNat 32 (d.edat.fs%d.edat.bs)).toInt%2^64).toNat = d.edat.fs%d.edat.bs := by
    rw [BitVec.toInt_eq_toNat_of_lt (by rw [BitVec.toNat_ofNat]; omega),BitVec.toNat_ofNat]
    omega
  simp only [blockInfo,hcompressed,Bool.false_eq_true,if_false,hcast]
  split <;> rfl

/-- `decrypt_block` decrypts, where the data is neither compressed nor for debugging, the last block
has less than 2 GiB if it is shorter than the others, and the blocks are in the file and pass `decrypt`. -/
theorem decrypts_decryptBlock {block : ℕ → Bytes} (hcompressed : d.edat.has compressedFlag=false)
    (hdebug : d.edat.has debugDataFlag=false) (hrest : d.edat.fs%d.edat.bs < 2^31)
    (hblock : ∀ i < d.edat.blocks, let (hash,offset,_) := blockInfo d file d.edat.blocks i
      offset+alignUp (blockLength d.edat i) 16 ≤ file.length ∧
        env.decrypt d.edat d.npd d.decKey i hash
          (slice file offset (alignUp (blockLength d.edat i) 16)) = some (block i)) :
    Decrypts d.edat (decryptBlock (fun _ => true) env d file d.edat.blocks)
      fun i => (block i).take (blockLength d.edat i) := by
  intro i hi
  have hpad := blockInfo_length hcompressed hrest file i
  have hblock := hblock i hi
  unfold decryptBlock
  generalize blockInfo d file d.edat.blocks i=info at hblock hpad ⊢
  obtain ⟨hash,offset,padLength,compressionEnd⟩ := info
  obtain ⟨hfile,hdec⟩ := hblock
  obtain rfl : padLength = blockLength d.edat i := hpad
  have hshort : blockLength d.edat i < 2^32 := by
    unfold blockLength
    split
    · omega
    · exact d.edat.blockSize.toNat_lt
  have halign : (blockLength d.edat i+15)%2^64/16*16 = alignUp (blockLength d.edat i) 16 := by
    rw [Nat.mod_eq_of_lt (by omega)]
    rfl
  have hle := @le_alignUp (blockLength d.edat i) 16 (by decide)
  have hlength := (env.decrypt_length hdec).trans (length_slice hfile)
  simp only [halign,hdebug,Bool.not_true,Bool.false_eq_true,if_false]
  generalize alignUp (blockLength d.edat i) 16=length at hfile hdec hle hlength ⊢
  have htake : ((block i).take (blockLength d.edat i)).length = blockLength d.edat i :=
    List.length_take_of_le (by omega)
  refine ⟨htake,fun buf => ?_⟩
  by_cases hfit : length ≤ d.edat.bufSize
  · rw [if_pos hfit]
    obtain ⟨rest,hrest,hread⟩ := fill_eq buf (show (slice file offset length).length ≤ _ by
      rwa [length_slice hfile])
    obtain ⟨rest',hrest',hwrite⟩ := fill_eq ⟨_,hrest⟩ (show ((block i).take _).length ≤ _ from
      htake.trans_le (hle.trans hfit))
    refine ⟨rest',hrest',?_⟩
    simp only [if_neg (Nat.not_lt.2 hfit),hread,List.take_left' (length_slice hfile),hdec,writeBlock,
      hcompressed,hdebug,Bool.false_eq_true,false_and,if_false,ensure,hlength,hle,hle.trans hfit,
      decide_true,if_true,htake]
    rw [← hwrite]
    rfl
  · rw [if_neg hfit]
    exact if_pos (Nat.lt_of_not_le hfit)

/-- A file without bytes, or with a block size and less than 4 Gi blocks which can all be read. -/
def Readable (permits : ℕ → Bool) (d : Decrypter) (file : Bytes) : Prop :=
  d.edat.fileSize=0 ∨ d.edat.blockSize≠0 ∧ d.edat.blocks < 2^32 ∧ permits d.edat.bufSize ∧
    ∀ i < d.edat.blocks, Sized permits d file i

theorem Readable.readData (h : Readable permits d file) : ∃ totalBlocks,
    countBlocks d.edat = .ok totalBlocks ∧
      ∀ pos size, Faultless (d.readData permits env file totalBlocks pos size) := by
  rcases h with hsize | ⟨hbs,hblocks,hpermits,hsized⟩
  · have hfs : d.edat.fs=0 := UInt64.toNat_inj.2 hsize
    have hblocks : d.edat.blocks=0 := by simp [hfs,alignedDiv]
    refine ⟨0,?_,fun pos size => by simp [Decrypter.readData,Edat.readData,hfs]⟩
    rw [countBlocks,narrow,hblocks,if_pos (Nat.two_pow_pos 32),ite_self]
    rfl
  · refine ⟨d.edat.blocks,by rw [countBlocks,if_neg hbs,narrow,if_pos hblocks]; rfl,fun pos size => ?_⟩
    by_cases hzero : min size (d.edat.fs-pos)=0
    · simp [Decrypter.readData,Edat.readData,hzero]
    obtain ⟨hread,hstart,hle⟩ := readData_eq hbs hblocks permits
      (decryptBlock permits env d file d.edat.blocks) rfl hzero
    rw [Decrypter.readData,hread,if_pos hpermits]
    exact readBlocks_faultless fun j hj => (hsized j (by omega)).decryptBlock env

/-- An environment that decrypts nothing. -/
def plainEnv : Env where
  cmacHashCompare _ _ := true
  rifKey _ := none
  sdatKey _ := 0
  decrypt _ _ _ _ _ data := some data
  decrypt_length h := by rw [Option.some.inj h]

/-- A file that says that it has a byte, in blocks of this size. -/
def sdat (blockSize : UInt8) : Bytes :=
  [0x4e,0x50,0x44,0]++List.replicate 0x7c 0++[1,0,0,0,0,0,0,blockSize,0,0,0,0,0,0,0,1]

theorem selectKey_sdat (blockSize : UInt8) (h : blockSize=0 ∨ blockSize=16) :
    selectKey plainEnv (sdat blockSize) 0 false =
      some ⟨⟨sdatFlag,blockSize.toUInt32,1⟩,⟨(sdat blockSize).take 0x80,0,0⟩,0⟩ := by
  rcases h with rfl | rfl <;> decide +kernel

end PS3Native.Edat
