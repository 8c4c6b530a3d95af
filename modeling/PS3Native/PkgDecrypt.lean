import PS3Native.Alignment
import PS3Native.CipherModes

/-!
# Reading and decrypting the files of a package

The contents of a package are encrypted with a stream cipher in counter mode, which is entered at
the block of an offset and works on whole blocks of the buffer it is given. The block cipher and the
hash are parameters. A file is read through a function that keeps one decrypted part of it: a read is
served from the front or the back of that part where it reaches into it, and what is missing is
decrypted into the memory of the caller.
-/
namespace PS3Native.Pkg
open List

abbrev Bytes := List UInt8

def u64Range : ℕ := 18446744073709551616

def u128Range : ℕ := 340282366920938463463374607431768211456

/-- `sha1` and the encryption of a block by `aes_crypt_ecb`. -/
structure Primitives where
  sha1 : Bytes → Bytes
  aesEncrypt : Bytes → Bytes → Bytes
  length_sha1 : ∀ message, (sha1 message).length=20
  length_aesEncrypt : ∀ key block, (aesEncrypt key block).length=16

/-- `PKG_RELEASE_TYPE_DEBUG`, `PKG_RELEASE_TYPE_RELEASE`, or another one. -/
inductive ReleaseType where
  | debug
  | release
  | unknown
deriving DecidableEq, Repr

/-- The package file, with what its header says about the decryption, and the key in use. -/
structure Package where
  archive : Bytes
  pkgType : ReleaseType
  qaDigest0 : ℕ
  qaDigest1 : ℕ
  klicensee : ℕ
  dataOffset : ℕ
  key : Bytes

def bigEndian : ℕ → ℕ → Bytes
  | 0, _ => []
  | width+1, value => bigEndian width (value/256)++[UInt8.ofNat value]

variable (prim : Primitives) (pkg : Package)

/-- The keys for one block: the hash of the block's number, or its encryption. -/
def streamBlock (index : ℕ) : Bytes :=
  match pkg.pkgType with
  | .debug => (prim.sha1 (bigEndian 8 pkg.qaDigest0++bigEndian 8 pkg.qaDigest0 ++
      bigEndian 8 pkg.qaDigest1++bigEndian 8 pkg.qaDigest1++bigEndian 8 0++bigEndian 8 0 ++
      bigEndian 8 0++bigEndian 8 (index%u64Range))).take 16
  | .release => prim.aesEncrypt pkg.key (bigEndian 16 ((pkg.klicensee+index)%u128Range))
  | .unknown => List.replicate 16 0

/-- The loops over the blocks in `decrypt`; nothing if a block is not in the buffer. -/
def decryptBlocks (index : ℕ) : ℕ → ℕ → Bytes → Option Bytes
  | 0, _, localBuf => some localBuf
  | blocks+1, i, localBuf =>
    if ¬i*16+16 ≤ localBuf.length then none
    else decryptBlocks index blocks (i+1) (store localBuf (i*16)
      (List.zipWith (· ^^^ ·) (slice localBuf (i*16) 16) (streamBlock prim pkg (index+i))))

/-- `package_reader::decrypt` of a valid package: the number of bytes and the buffer. Nothing if a
check fails. -/
def decrypt (offset size : ℕ) (localBuf : Bytes) : Option (ℕ × Bytes) :=
  if ¬pkg.dataOffset+offset < u64Range then some (0,localBuf)
  else if ¬size ≤ localBuf.length then none
  else
    let data := slice pkg.archive (pkg.dataOffset+offset) size
    let localBuf := data++List.replicate (localBuf.length-data.length) 0
    let blocks := (data.length+15)/16
    let readSize := blocks*16
    let decrypted := if pkg.pkgType=.unknown then some localBuf
      else decryptBlocks prim pkg (offset/16) blocks 0 localBuf
    decrypted.bind fun localBuf =>
      if readSize > size then
        let padSize := readSize-size
        if ¬size+padSize ≤ localBuf.length then none
        else some (min size data.length,store localBuf size (List.replicate padSize 0))
      else some (min size data.length,localBuf)

def keyStream (n : ℕ) : UInt8 := (streamBlock prim pkg (n/16)).getD (n%16) 0

def plainData (offset size : ℕ) : Bytes :=
  xorStream (· ^^^ ·) (keyStream prim pkg) offset (slice pkg.archive (pkg.dataOffset+offset) size)

theorem length_streamBlock (index : ℕ) : (streamBlock prim pkg index).length=16 := by
  unfold streamBlock
  split
  · rw [length_take,prim.length_sha1]
    rfl
  · exact prim.length_aesEncrypt ..
  · rfl

variable {prim pkg}

theorem keyStream_add {index i : ℕ} (hi : i < (streamBlock prim pkg index).length) :
    keyStream prim pkg (index*16+i) = (streamBlock prim pkg index)[i] := by
  have hlt : i < 16 := length_streamBlock prim pkg index ▸ hi
  have hdiv : (index*16+i)/16=index := by omega
  have hmod : (index*16+i)%16=i := by omega
  rw [keyStream,hdiv,hmod,getD_eq_getElem?_getD,getElem?_eq_getElem hi,Option.getD_some]

theorem decryptBlocks_eq {index : ℕ} :
    ∀ {blocks i : ℕ} {localBuf : Bytes}, (i+blocks)*16 ≤ localBuf.length →
      decryptBlocks prim pkg index blocks i localBuf = some (store localBuf (i*16)
        (xorStream (· ^^^ ·) (keyStream prim pkg) ((index+i)*16)
          (slice localBuf (i*16) (blocks*16))))
  | 0, i, localBuf, _ => by simp [decryptBlocks,xorStream]
  | blocks+1, i, localBuf, hlen => by
    let block := xorStream (· ^^^ ·) (keyStream prim pkg) ((index+i)*16) (slice localBuf (i*16) 16)
    have hslice : (slice localBuf (i*16) 16).length=16 := length_slice (by omega)
    have hlength : block.length=16 := (length_xorStream ..).trans hslice
    have hfirst : zipWith (· ^^^ ·) (slice localBuf (i*16) 16)
        (streamBlock prim pkg (index+i))=block :=
      zipWith_eq_xorStream ((length_streamBlock prim pkg _).trans hslice.symm) fun _ hj =>
        keyStream_add hj
    have hrest : decryptBlocks prim pkg index blocks (i+1) (store localBuf (i*16) block) =
        some (store (store localBuf (i*16) block) (i*16+16)
          (xorStream (· ^^^ ·) (keyStream prim pkg) ((index+i)*16+16)
            (slice localBuf (i*16+16) (blocks*16)))) := by
      rw [decryptBlocks_eq (by rw [length_store (by omega)]; omega),
        slice_store_of_ge _ _ (by omega) (by omega),show (i+1)*16 = i*16+16 by omega,
        show (index+(i+1))*16 = (index+i)*16+16 by omega]
    have hjoin : block++xorStream (· ^^^ ·) (keyStream prim pkg) ((index+i)*16+16)
        (slice localBuf (i*16+16) (blocks*16)) =
        xorStream (· ^^^ ·) (keyStream prim pkg) ((index+i)*16)
          (slice localBuf (i*16) ((blocks+1)*16)) := by
      rw [show (blocks+1)*16 = 16+blocks*16 by omega,← slice_append_slice,
        xorStream_append,length_slice (by omega)]
    rw [decryptBlocks,if_neg (by omega),hfirst,hrest,← hjoin,← store_store (by omega) block,hlength]

theorem plainData_unknown (htype : pkg.pkgType=.unknown) (offset size : ℕ) :
    plainData prim pkg offset size = slice pkg.archive (pkg.dataOffset+offset) size := by
  have hkey (n : ℕ) : keyStream prim pkg n=0 := by
    rw [keyStream,streamBlock,htype,getD_eq_getElem?_getD,getElem?_replicate]
    split <;> rfl
  apply ext_getElem?
  intro i
  simp [plainData,xorStream,hkey]

variable {offset size : ℕ} {localBuf : Bytes}

theorem length_plainData (hin : pkg.dataOffset+offset+size ≤ pkg.archive.length) :
    (plainData prim pkg offset size).length=size := (length_xorStream ..).trans (length_slice hin)

theorem slice_plainData {pos n : ℕ} (h : pos+n ≤ size) :
    slice (plainData prim pkg offset size) pos n = plainData prim pkg (offset+pos) n := by
  rw [plainData,slice_xorStream,slice_slice _ _ h,Nat.add_assoc]
  rfl

theorem zeros_split {length total : ℕ} (hsize : size ≤ total) (htotal : total ≤ length) :
    replicate (length-size) (0 : UInt8) =
      replicate (total-size) 0++replicate (length-total) 0 := by
  rw [replicate_append_replicate]
  congr 1
  omega

variable (prim) in
/-- Whole blocks of the buffer are combined with their keys. What is behind the data is filled up
to the end of the last block. -/
theorem decrypted_blocks {length : ℕ} (hoff : 16 ∣ offset)
    (hin : pkg.dataOffset+offset+size ≤ pkg.archive.length) (hfits : alignUp size 16 ≤ length) :
    ∃ tail, tail.length = alignUp size 16-size ∧ (if pkg.pkgType=.unknown then
          some (slice pkg.archive (pkg.dataOffset+offset) size++replicate (length-size) 0)
        else decryptBlocks prim pkg (offset/16) (alignUp size 16/16) 0
          (slice pkg.archive (pkg.dataOffset+offset) size++replicate (length-size) 0)) =
        some (plainData prim pkg offset size++tail ++ replicate (length-alignUp size 16) 0) := by
  have hsize : size ≤ alignUp size 16 := le_alignUp (by omega)
  have hdata : (slice pkg.archive (pkg.dataOffset+offset) size).length=size := length_slice hin
  have hpadding := zeros_split hsize hfits
  split
  next htype =>
    refine ⟨replicate (alignUp size 16-size) 0,length_replicate,?_⟩
    rw [plainData_unknown htype,hpadding,append_assoc]
  next =>
    have hwhole : alignUp size 16/16*16 = alignUp size 16 :=
      Nat.div_mul_cancel (dvd_alignUp size 16)
    have hfirst : slice (slice pkg.archive (pkg.dataOffset+offset) size ++
        replicate (length-size) 0) 0 (alignUp size 16) =
        slice pkg.archive (pkg.dataOffset+offset) size ++ replicate (alignUp size 16-size) 0 := by
      rw [hpadding,← append_assoc,slice_append_left _ _ (by simp [hdata]; omega),
        slice_full (by simp [hdata]; omega)]
    refine ⟨xorStream (· ^^^ ·) (keyStream prim pkg) (offset+size)
      (replicate (alignUp size 16-size) 0),?_,?_⟩
    · rw [length_xorStream,length_replicate]
    · rw [decryptBlocks_eq (by simp [hdata]; omega),Nat.zero_mul,hwhole,hfirst,Nat.add_zero,
        Nat.div_mul_cancel hoff,xorStream_append,hdata]
      simp only [store,take_zero,nil_append,length_append,length_xorStream,
        hdata,length_replicate,Nat.zero_add,Nat.add_sub_cancel' hsize]
      rw [hpadding,← append_assoc,drop_left' (by simp [hdata]; omega)]
      rfl

/-- From the start of a block on, and with room for whole blocks, each byte is decrypted with its
own key and the rest of the buffer is cleared. -/
theorem decrypt_eq (hoff : 16 ∣ offset) (hin : pkg.dataOffset+offset+size ≤ pkg.archive.length)
    (hrange : pkg.archive.length < u64Range) (hfits : alignUp size 16 ≤ localBuf.length) :
    decrypt prim pkg offset size localBuf = some (size,
      plainData prim pkg offset size++replicate (localBuf.length-size) 0) := by
  have hsize : size ≤ alignUp size 16 := le_alignUp (by omega)
  have hdata : (slice pkg.archive (pkg.dataOffset+offset) size).length=size := length_slice hin
  have hplain : (plainData prim pkg offset size).length=size := length_plainData hin
  have hblocks : (size+15)/16 = alignUp size 16/16 := by
    rw [alignUp,Nat.mul_div_cancel _ (by omega)]
  have hwhole : alignUp size 16/16*16 = alignUp size 16 :=
    Nat.div_mul_cancel (dvd_alignUp size 16)
  obtain ⟨tail,htail,hdecrypted⟩ := decrypted_blocks prim hoff hin hfits
  rw [decrypt,if_neg (by omega),if_neg (by omega)]
  simp only [hdata,hblocks,hwhole,hdecrypted,Option.bind_some,Nat.min_self]
  split
  next hpad =>
    rw [if_neg (by simp [hplain,htail]),append_assoc]
    simp only [store,length_replicate]
    rw [take_left' hplain,Nat.add_sub_cancel' hsize,← append_assoc,
      drop_left' (by simp [hplain,htail]; omega),append_assoc,zeros_split hsize hfits]
  next hpad =>
    have hnil : tail=[] := length_eq_zero_iff.mp (by omega)
    have heq : alignUp size 16=size := by omega
    rw [hnil,append_nil,heq]

/-- The fields of `PKGEntry` that a read needs. -/
structure Entry where
  fileOffset : ℕ
  fileSize : ℕ
deriving DecidableEq, Repr

def bufSize : ℕ := 8388608

def bufPadding : ℕ := 32

def Entry.bufferSize (entry : Entry) : ℕ := min entry.fileSize 16777216+bufPadding

structure Cache where
  off : ℕ
  data : Bytes
deriving DecidableEq, Repr

def Cache.initial : Cache := ⟨u64Range-1,[]⟩

/-- A call of the read function. The pointer may be the start of the buffer of `extract_worker`. -/
structure Call where
  pos : ℕ
  size : ℕ
  intoBuffer : Bool
deriving DecidableEq, Repr

variable (prim : Primitives) (pkg : Package) (entry : Entry)

/-- How many bytes there are at the pointer, as the function takes it. -/
def Call.room (call : Call) : ℕ := if call.intoBuffer then entry.bufferSize else call.size

/-- The loop at the end of the read function. -/
def readBlocks (call : Call) (size : ℕ) : ℕ → ℕ → ℕ → Bytes → Option (ℕ × Bytes)
  | 0, readSize, _, user => some (readSize,user)
  | fuel+1, readSize, pos, user =>
    if readSize < size then
      let blockSize := min bufSize (size-readSize)
      let available := call.room entry-readSize
      if call.intoBuffer ∧ entry.bufferSize≠call.size+bufPadding then none
      else if ¬blockSize ≤ available then none
      else
        (decrypt prim pkg (entry.fileOffset+pos) blockSize (slice user readSize available)).bind
          fun (advanceSize,localBuf) =>
            let user := store user readSize localBuf
            if advanceSize=0 then some (readSize,user)
            else readBlocks call size fuel (readSize+advanceSize) (pos+advanceSize) user
    else some (readSize,user)

/-- `std::vector::resize` -/
def resize (data : Bytes) (size : ℕ) : Bytes :=
  data.take size++List.replicate (size-data.length) 0

/-- The cache is filled from a position on and serves the call. -/
def readCached (pos size : ℕ) (user readCache : Bytes) : Option (ℕ × Bytes × Cache) :=
  let blockSize := min (min bufSize (max (size*5/3) 65536)) (entry.fileSize-pos)
  (decrypt prim pkg (entry.fileOffset+pos) blockSize
    (resize readCache (blockSize+bufPadding))).map fun (advanceSize,readCache) =>
      if advanceSize=0 then (0,user,⟨u64Range-1,readCache⟩)
      else
        let readCache := resize readCache advanceSize
        let size := min advanceSize size
        (size,store user 0 (slice readCache 0 size),⟨pos,readCache⟩)

/-- The read function given to `pkg_file_reader`: the bytes read, the memory at the pointer, and
the cache. -/
def readAt (call : Call) (user : Bytes) (cache : Cache) : Option (ℕ × Bytes × Cache) :=
  let pos := call.pos
  if pos ≥ entry.fileSize ∨ call.size=0 then some (0,user,cache)
  else
    let size := min (entry.fileSize-pos) call.size
    let cacheEnd := cache.off+cache.data.length
    if cache.data≠[] ∧ cache.off ≤ pos ∧ pos < cacheEnd then
      let readSize := min (pos+size) cacheEnd-pos
      let user := store user 0 (slice cache.data (pos-cache.off) readSize)
      if pos+readSize ≥ entry.fileSize then some (readSize,user,cache)
      else (readBlocks prim pkg entry call size size readSize (pos+readSize) user).map
        fun (readSize,user) => (readSize,user,cache)
    else if cache.data≠[] ∧ cache.off < pos+size ∧ cacheEnd ≥ pos+size then
      let sizeCacheEnd := size-(max cache.off pos-pos)
      let user := store user (cache.off-pos) (slice cache.data 0 sizeCacheEnd)
      let size := size-sizeCacheEnd
      if size=0 then some (sizeCacheEnd,user,cache)
      else (readBlocks prim pkg entry call size size 0 pos user).map
        fun (readSize,user) => (readSize+sizeCacheEnd,user,cache)
    else if size ≤ bufSize then readCached prim pkg entry pos size user cache.data
    else (readBlocks prim pkg entry call size size 0 pos user).map
      fun (readSize,user) => (readSize,user,cache)

end PS3Native.Pkg
