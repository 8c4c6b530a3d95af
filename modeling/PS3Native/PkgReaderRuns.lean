import PS3Native.PkgDecrypt

/-!
# Which reads of a package's file are right

A read is right if it is served by the cache, or if what is decrypted for it starts at a block, has
room for whole blocks and is the last part of the read: the cipher is entered at the start of a
block only, and clears the memory behind what it decrypts.
-/
namespace PS3Native.Pkg
open List

variable (prim : Primitives) (pkg : Package) (entry : Entry)

def sequential : Option Bytes :=
  (decrypt prim pkg entry.fileOffset entry.fileSize
    (List.replicate (entry.fileSize+bufPadding) 0)).map fun (size,localBuf) => localBuf.take size

/-- The file starts at a block, and all of it can be read from the archive. -/
structure Entry.Readable : Prop where
  aligned : 16 ∣ entry.fileOffset
  inside : pkg.dataOffset+entry.fileOffset+entry.fileSize ≤ pkg.archive.length
  range : pkg.archive.length < u64Range

def Call.count (call : Call) : ℕ := min call.size (entry.fileSize-call.pos)

/-- There is room for the whole blocks that follow the first `done` bytes of a call. -/
def Call.Fits (call : Call) (done : ℕ) : Prop :=
  if call.intoBuffer then entry.bufferSize = call.size+bufPadding
  else done+alignUp (call.count entry-done) 16 ≤ call.size

instance (call : Call) (done : ℕ) : Decidable (call.Fits entry done) := by
  unfold Call.Fits
  infer_instance

/-- The call is served by the cache, or what it decrypts is its last part, starts at a block and
has room for whole blocks. -/
def Call.OnBlocks (cache : Cache) (call : Call) : Prop :=
  call.count entry=0 ∨
    if cache.off ≤ call.pos ∧ call.pos < cache.off+cache.data.length then
      call.pos+call.count entry ≤ cache.off+cache.data.length ∨
        16 ∣ cache.off+cache.data.length ∧
          call.Fits entry (cache.off+cache.data.length-call.pos)
    else
      ¬(cache.off < call.pos+call.count entry ∧
          call.pos+call.count entry ≤ cache.off+cache.data.length) ∧
        16 ∣ call.pos ∧ (call.count entry ≤ bufSize ∨ call.Fits entry 0)

instance (cache : Cache) (call : Call) : Decidable (call.OnBlocks entry cache) := by
  unfold Call.OnBlocks
  infer_instance

inductive Reachable : Cache → Prop
  | initial : Reachable .initial
  | read {cache cache' : Cache} {call : Call} {user user' : Bytes} {n : ℕ} :
      Reachable cache → call.OnBlocks entry cache → call.size ≤ call.room entry →
      user.length = call.room entry →
      readAt prim pkg entry call user cache = some (n,user',cache') → Reachable cache'

def Cache.Holds (cache : Cache) : Prop :=
  cache.data=[] ∨ cache.off+cache.data.length ≤ entry.fileSize ∧
    cache.data = plainData prim pkg (entry.fileOffset+cache.off) cache.data.length

/-- What a call is to do: its bytes are those of the file, and the cache is still a part of it. -/
def Answers (call : Call) (user : Bytes) (result : Option (ℕ × Bytes × Cache)) : Prop :=
  ∃ user' cache', result = some (call.count entry,user',cache') ∧ user'.length=user.length ∧
    user'.take (call.count entry) =
      plainData prim pkg (entry.fileOffset+call.pos) (call.count entry) ∧
    cache'.Holds prim pkg entry

variable {prim pkg entry} {n pos done : ℕ}

theorem Entry.Readable.part (hreadable : entry.Readable pkg) (h : pos+n ≤ entry.fileSize) :
    pkg.dataOffset+(entry.fileOffset+pos)+n ≤ pkg.archive.length := by
  have hinside := hreadable.inside
  omega

theorem Entry.Readable.length_part (hreadable : entry.Readable pkg) (h : pos+n ≤ entry.fileSize) :
    (plainData prim pkg (entry.fileOffset+pos) n).length=n :=
  length_plainData (hreadable.part h)

variable (prim) in
theorem Entry.Readable.decrypt_part (hreadable : entry.Readable pkg) (localBuf : Bytes)
    (hpos : 16 ∣ pos) (h : pos+n ≤ entry.fileSize) (hfits : alignUp n 16 ≤ localBuf.length) :
    decrypt prim pkg (entry.fileOffset+pos) n localBuf = some (n,
      plainData prim pkg (entry.fileOffset+pos) n++replicate (localBuf.length-n) 0) :=
  decrypt_eq ((Nat.dvd_add_right hreadable.aligned).mpr hpos) (hreadable.part h) hreadable.range hfits

theorem Entry.Readable.sequential_eq (hreadable : entry.Readable pkg) :
    sequential prim pkg entry = some (plainData prim pkg entry.fileOffset entry.fileSize) := by
  have hup : alignUp entry.fileSize 16 < entry.fileSize+16 := alignUp_lt (by omega)
  have hlength : (plainData prim pkg entry.fileOffset entry.fileSize).length=entry.fileSize :=
    length_plainData hreadable.inside
  rw [sequential,decrypt_eq hreadable.aligned hreadable.inside hreadable.range
    (by rw [length_replicate,bufPadding]; omega)]
  exact congrArg some (take_left' hlength)

theorem add_alignUp_le {size unit k : ℕ} (hpos : 0 < unit) (hk : unit ∣ k) (h : k ≤ size) :
    k+alignUp (size-k) unit ≤ alignUp size unit := by
  have hup : size ≤ alignUp size unit := le_alignUp hpos
  have hdvd : unit ∣ alignUp size unit-k := Nat.dvd_sub (dvd_alignUp size unit) hk
  have hle : alignUp (size-k) unit ≤ alignUp size unit-k :=
    (alignUp_le_iff hpos hdvd).mpr (by omega)
  omega

theorem room_after_block {size readSize room : ℕ} (h : readSize < size)
    (hroom : readSize+alignUp (size-readSize) 16 ≤ room) :
    readSize+min bufSize (size-readSize) +
      alignUp (size-(readSize+min bufSize (size-readSize))) 16 ≤ room := by
  rcases Nat.le_total bufSize (size-readSize) with hle | hle
  · have hnext := add_alignUp_le (by omega) (show 16 ∣ bufSize by decide) hle
    rw [Nat.min_eq_left hle,← Nat.sub_sub]
    omega
  · exact Nat.le_trans (by simp [alignUp]; omega) hroom

variable {call : Call} {size start : ℕ}

theorem plainData_append (hreadable : entry.Readable pkg) {k : ℕ} (h : pos+n ≤ entry.fileSize) :
    plainData prim pkg (entry.fileOffset+pos) n ++ plainData prim pkg (entry.fileOffset+(pos+n)) k =
      plainData prim pkg (entry.fileOffset+pos) (n+k) := by
  simp only [plainData]
  rw [← slice_append_slice,xorStream_append,length_slice (hreadable.part h)]
  simp only [Nat.add_assoc]

/-- A part that is decrypted up to the end of the memory of the caller. -/
theorem take_store_part (hreadable : entry.Readable pkg) (user : Bytes) {readSize : ℕ}
    (n available : ℕ) (h : start+(readSize+n) ≤ entry.fileSize)
    (hlength : user.length = readSize+available) (hn : n ≤ available)
    (hdone : user.take readSize = plainData prim pkg (entry.fileOffset+start) readSize) :
    (store user readSize (plainData prim pkg (entry.fileOffset+(start+readSize)) n ++
        replicate (available-n) 0)).length=user.length ∧
      (store user readSize (plainData prim pkg (entry.fileOffset+(start+readSize)) n ++
        replicate (available-n) 0)).take (readSize+n) =
        plainData prim pkg (entry.fileOffset+start) (readSize+n) := by
  have hpart : (plainData prim pkg (entry.fileOffset+(start+readSize)) n).length=n :=
    hreadable.length_part (by omega)
  have hwhole : (plainData prim pkg (entry.fileOffset+start) (readSize+n)).length =
      readSize+n := hreadable.length_part h
  refine ⟨length_store (by simp [hpart]; omega),?_⟩
  rw [store,hdone,append_assoc,append_assoc,← append_assoc,
    plainData_append hreadable (by omega),take_left' hwhole]

/-- The loop completes a read whose missing part starts at a block and has room for whole
blocks. -/
theorem readBlocks_eq (hreadable : entry.Readable pkg) (hsize : start+size ≤ entry.fileSize)
    (hbuffer : call.intoBuffer → entry.bufferSize = call.size+bufPadding) :
    ∀ {fuel readSize : ℕ} {user : Bytes}, size-readSize ≤ fuel → readSize ≤ size →
      (readSize=size ∨ 16 ∣ start+readSize) →
      readSize+alignUp (size-readSize) 16 ≤ call.room entry → user.length = call.room entry →
      user.take readSize = plainData prim pkg (entry.fileOffset+start) readSize →
      ∃ user', readBlocks prim pkg entry call size fuel readSize (start+readSize) user =
          some (size,user') ∧ user'.length=user.length ∧
        user'.take size = plainData prim pkg (entry.fileOffset+start) size
  | 0, readSize, user, hfuel, hle, _, _, _, hdone => by
    obtain rfl : readSize=size := by omega
    exact ⟨user,rfl,rfl,hdone⟩
  | fuel+1, readSize, user, hfuel, hle, hblock, hroom, hlength, hdone => by
    by_cases hlt : readSize < size
    · have hnext := room_after_block hlt hroom
      have hbuf : 0 < bufSize := by decide
      have hdvd : 16 ∣ bufSize := by decide
      have hup : size-readSize ≤ alignUp (size-readSize) 16 := le_alignUp (by omega)
      have hwhole : alignUp (min bufSize (size-readSize)) 16 ≤ alignUp (size-readSize) 16 :=
        (alignUp_le_iff (by omega) (dvd_alignUp _ _)).mpr (by omega)
      have havailable : (slice user readSize (call.room entry-readSize)).length =
          call.room entry-readSize := length_slice (by omega)
      have hstep := hreadable.decrypt_part prim (slice user readSize (call.room entry-readSize))
        (hblock.resolve_left (by omega))
        (show start+readSize+min bufSize (size-readSize) ≤ entry.fileSize by omega) (by omega)
      obtain ⟨hlength',hdone'⟩ := take_store_part hreadable user (min bufSize (size-readSize))
        (call.room entry-readSize) (by omega) (by omega) (by omega) hdone
      have hblock' : readSize+min bufSize (size-readSize)=size ∨
          16 ∣ start+(readSize+min bufSize (size-readSize)) := by
        rcases Nat.le_total bufSize (size-readSize) with hcase | hcase
        · right
          rw [Nat.min_eq_left hcase,← Nat.add_assoc]
          exact (Nat.dvd_add_right (hblock.resolve_left (by omega))).mpr hdvd
        · left
          omega
      obtain ⟨user',hrest,hlen,htake⟩ := readBlocks_eq hreadable hsize hbuffer
        (show size-(readSize+min bufSize (size-readSize)) ≤ fuel by omega) (by omega) hblock'
        hnext (hlength'.trans hlength) hdone'
      refine ⟨user',?_,hlen.trans hlength',htake⟩
      rw [readBlocks,if_pos hlt]
      simp only
      rw [if_neg (fun h => h.2 (hbuffer h.1)),if_neg (by omega),hstep,Option.bind_some]
      simp only
      rw [if_neg (by omega),havailable,Nat.add_assoc,hrest]
    · obtain rfl : readSize=size := by omega
      exact ⟨user,by rw [readBlocks,if_neg hlt],rfl,hdone⟩

variable {cache : Cache} {user : Bytes}

theorem Call.Fits.room (hfits : call.Fits entry done) (hdone : done ≤ call.count entry) :
    done+alignUp (call.count entry-done) 16 ≤ call.room entry := by
  have hup : alignUp (call.count entry-done) 16 < call.count entry-done+16 :=
    alignUp_lt (by omega)
  have hcount : call.count entry ≤ call.size := Nat.min_le_left ..
  unfold Call.Fits at hfits
  unfold Call.room
  split at hfits
  next hinto =>
    rw [if_pos hinto,hfits,bufPadding]
    omega
  next hinto =>
    rw [if_neg hinto]
    exact hfits

theorem Call.Fits.buffer (hfits : call.Fits entry done) (hinto : call.intoBuffer) :
    entry.bufferSize = call.size+bufPadding := by
  rwa [Call.Fits,if_pos hinto] at hfits

theorem Cache.Holds.slice_eq (hcache : cache.Holds prim pkg entry) (hoff : cache.off ≤ pos)
    (hn : 0 < n) (hend : pos+n ≤ cache.off+cache.data.length) :
    slice cache.data (pos-cache.off) n = plainData prim pkg (entry.fileOffset+pos) n := by
  rcases hcache with hnil | ⟨-,hdata⟩
  · rw [hnil,length_nil] at hend
    omega
  · have hwhere : entry.fileOffset+cache.off+(pos-cache.off) = entry.fileOffset+pos := by omega
    rw [hdata,slice_plainData (by omega),hwhere]

theorem Call.pos_add_count_le (hpos : 0 < call.count entry) :
    call.pos+call.count entry ≤ entry.fileSize := by
  unfold Call.count at *
  omega

theorem readBlocks_done (pos n fuel : ℕ) :
    readBlocks prim pkg entry call n fuel n pos user = some (n,user) := by
  cases fuel with
  | zero => rfl
  | succ fuel => rw [readBlocks,if_neg (Nat.lt_irrefl n)]

theorem rest_answers (hreadable : entry.Readable pkg) (hcache : cache.Holds prim pkg entry)
    {first : Bytes} (hdone : done ≤ call.count entry) (hpos : 0 < call.count entry)
    (hblock : 16 ∣ call.pos+done) (hfits : call.Fits entry done)
    (huser : user.length = call.room entry) (hlength : first.length=user.length)
    (hfirst : first.take done = plainData prim pkg (entry.fileOffset+call.pos) done) :
    Answers prim pkg entry call user
      ((readBlocks prim pkg entry call (call.count entry) (call.count entry) done
        (call.pos+done) first).map fun (readSize,user) => (readSize,user,cache)) := by
  obtain ⟨user',hrun,hlen,htake⟩ := readBlocks_eq hreadable (Call.pos_add_count_le hpos)
    hfits.buffer (Nat.sub_le _ done) hdone (.inr hblock) (hfits.room hdone)
    (hlength.trans huser) hfirst
  exact ⟨user',cache,by rw [hrun]; rfl,hlen.trans hlength,htake,hcache⟩

section

variable (hreadable : entry.Readable pkg) (hsize : call.size ≤ call.room entry)
  (huser : user.length = call.room entry)

include hreadable hsize huser

theorem take_copy (hn : n ≤ call.count entry) (hpos : 0 < call.count entry) :
    (store user 0 (plainData prim pkg (entry.fileOffset+call.pos) n)).length=user.length ∧
      (store user 0 (plainData prim pkg (entry.fileOffset+call.pos) n)).take n =
        plainData prim pkg (entry.fileOffset+call.pos) n := by
  have hend := Call.pos_add_count_le hpos
  have hcount : call.count entry ≤ call.size := Nat.min_le_left ..
  have hlength : (plainData prim pkg (entry.fileOffset+call.pos) n).length=n :=
    hreadable.length_part (by omega)
  refine ⟨length_store (by omega),?_⟩
  rw [store,take_zero,nil_append,take_left' hlength]

/-- The start of a call is in the cache: the rest of it is decrypted behind. -/
theorem front_answers (hcache : cache.Holds prim pkg entry) (hpos : 0 < call.count entry)
    (hfront : cache.off ≤ call.pos ∧ call.pos < cache.off+cache.data.length)
    (hcall : call.pos+call.count entry ≤ cache.off+cache.data.length ∨
      16 ∣ cache.off+cache.data.length ∧ call.Fits entry (cache.off+cache.data.length-call.pos)) :
    Answers prim pkg entry call user (readAt prim pkg entry call user cache) := by
  have hcount : min (entry.fileSize-call.pos) call.size = call.count entry := Nat.min_comm ..
  have hne : ¬(call.pos ≥ entry.fileSize ∨ call.size=0) := by
    omega
  have hdata : cache.data≠[] := by
    intro hnil
    rw [hnil,length_nil] at hfront
    omega
  rw [readAt]
  simp only [hcount]
  rw [if_neg hne,if_pos ⟨hdata,hfront⟩]
  by_cases hle : call.pos+call.count entry ≤ cache.off+cache.data.length
  · obtain ⟨hlength,htake⟩ :=
      take_copy (n := call.count entry) hreadable hsize huser (Nat.le_refl _) hpos
    rw [Nat.min_eq_left hle,Nat.add_sub_cancel_left,hcache.slice_eq hfront.1 hpos hle]
    split
    · exact ⟨_,cache,rfl,hlength,htake,hcache⟩
    · rw [readBlocks_done]
      exact ⟨_,cache,rfl,hlength,htake,hcache⟩
  · obtain ⟨hblock,hfits⟩ := hcall.resolve_left hle
    have hreach : call.pos+(cache.off+cache.data.length-call.pos) =
        cache.off+cache.data.length := by omega
    obtain ⟨hlength,htake⟩ := take_copy (n := cache.off+cache.data.length-call.pos) hreadable
      hsize huser (by omega) hpos
    rw [Nat.min_eq_right (by omega),hcache.slice_eq hfront.1 (by omega) (by omega),if_neg (by omega)]
    exact rest_answers hreadable hcache (by omega) hpos (hreach.symm ▸ hblock) hfits huser hlength htake

/-- The cache is filled for a call that starts at a block. -/
theorem cached_answers (hpos : 0 < call.count entry) (hblock : 16 ∣ call.pos)
    (hcount : call.count entry ≤ bufSize) (data : Bytes) :
    Answers prim pkg entry call user
      (readCached prim pkg entry call.pos (call.count entry) user data) := by
  have hend := Call.pos_add_count_le hpos
  obtain ⟨blockSize,hblockSize⟩ : ∃ blockSize, min (min bufSize
      (max (call.count entry*5/3) 65536)) (entry.fileSize-call.pos)=blockSize := ⟨_,rfl⟩
  have hle : call.count entry ≤ blockSize := by omega
  have hin : call.pos+blockSize ≤ entry.fileSize := by omega
  have hup : alignUp blockSize 16 < blockSize+16 := alignUp_lt (by omega)
  have hresize : (resize data (blockSize+bufPadding)).length = blockSize+bufPadding := by
    simp only [resize,length_append,length_take,length_replicate]
    omega
  have hpart : (plainData prim pkg (entry.fileOffset+call.pos) blockSize).length=blockSize :=
    hreadable.length_part hin
  have hdecrypt := hreadable.decrypt_part prim (resize data (blockSize+bufPadding)) hblock hin
    (by rw [hresize,bufPadding]; omega)
  have hcut : resize (plainData prim pkg (entry.fileOffset+call.pos) blockSize ++
      replicate ((resize data (blockSize+bufPadding)).length-blockSize) 0) blockSize =
      plainData prim pkg (entry.fileOffset+call.pos) blockSize := by
    rw [resize,take_left' hpart,length_append,hpart,Nat.sub_add_eq,Nat.sub_self,
      Nat.zero_sub,replicate_zero,append_nil]
  obtain ⟨hlength,htake⟩ :=
    take_copy (n := call.count entry) hreadable hsize huser (Nat.le_refl _) hpos
  rw [readCached]
  simp only [hblockSize]
  rw [hdecrypt,Option.map_some]
  rw [if_neg (by omega),hcut,Nat.min_eq_right hle,slice_plainData (by omega),Nat.add_zero]
  refine ⟨_,_,rfl,hlength,htake,.inr ⟨?_,?_⟩⟩
  · rw [hpart]
    exact hin
  · rw [hpart]

theorem readAt_answers (hcache : cache.Holds prim pkg entry) (hcall : call.OnBlocks entry cache) :
    Answers prim pkg entry call user (readAt prim pkg entry call user cache) := by
  rcases Nat.eq_zero_or_pos (call.count entry) with hzero | hpos
  · have hnone : call.pos ≥ entry.fileSize ∨ call.size=0 := by
      unfold Call.count at hzero
      omega
    refine ⟨user,cache,?_,rfl,?_,hcache⟩
    · rw [readAt,if_pos hnone,hzero]
    · rw [hzero]
      rfl
  · have hcall' := hcall.resolve_left (by omega)
    split at hcall'
    next hfront => exact front_answers hreadable hsize huser hcache hpos hfront hcall'
    next hfront =>
      obtain ⟨hback,hblock,hlarge⟩ := hcall'
      have hcount : min (entry.fileSize-call.pos) call.size = call.count entry := Nat.min_comm ..
      have hne : ¬(call.pos ≥ entry.fileSize ∨ call.size=0) := by
        omega
      rw [readAt]
      simp only [hcount]
      rw [if_neg hne,if_neg (fun h => hfront h.2),if_neg (fun h => hback h.2)]
      split
      next hsmall => exact cached_answers hreadable hsize huser hpos hblock hsmall _
      next hsmall =>
        exact rest_answers hreadable hcache (Nat.zero_le _) hpos hblock
          (hlarge.resolve_left hsmall) huser rfl rfl

end

theorem Reachable.holds (hreadable : entry.Readable pkg) (h : Reachable prim pkg entry cache) :
    cache.Holds prim pkg entry := by
  induction h with
  | initial => exact .inl rfl
  | read _ hcall hsize huser hread ih =>
    obtain ⟨_,_,hanswer,-,-,hholds⟩ := readAt_answers hreadable hsize huser ih hcall
    cases hread.symm.trans hanswer
    exact hholds

/-- In every sequence of calls that are served by the cache or by whole blocks, each call returns
its part of the file as it is decrypted in one go, whatever calls there were before. It writes
nothing outside the memory of the caller, and no check fails. -/
theorem read_at_independent_of_order (hreadable : entry.Readable pkg) :
    ∃ plain, sequential prim pkg entry = some plain ∧ plain.length=entry.fileSize ∧
      ∀ (cache : Cache) (call : Call) (user : Bytes), Reachable prim pkg entry cache →
        call.OnBlocks entry cache → call.size ≤ call.room entry → user.length = call.room entry →
        ∃ user' cache', readAt prim pkg entry call user cache =
            some (min call.size (entry.fileSize-call.pos),user',cache') ∧
          user'.length=user.length ∧
          user'.take (min call.size (entry.fileSize-call.pos)) =
            slice plain call.pos (min call.size (entry.fileSize-call.pos)) ∧
          Reachable prim pkg entry cache' := by
  refine ⟨_,hreadable.sequential_eq,length_plainData hreadable.inside,?_⟩
  intro cache call user hreach hcall hsize huser
  obtain ⟨user',cache',hread,hlength,htake,-⟩ :=
    readAt_answers hreadable hsize huser (hreach.holds hreadable) hcall
  refine ⟨user',cache',hread,hlength,htake.trans ?_,hreach.read hcall hsize huser hread⟩
  rcases Nat.eq_zero_or_pos (call.count entry) with hzero | hpos
  · change _ = slice _ call.pos (call.count entry)
    rw [hzero]
    rfl
  · exact (slice_plainData (Call.pos_add_count_le hpos)).symm

def echoPrimitives : Primitives where
  sha1 _ := List.replicate 20 0
  aesEncrypt _ block := (block++List.replicate 16 0).take 16
  length_sha1 _ := List.length_replicate
  length_aesEncrypt _ block := by simp

def echoPackage : Package where
  archive := List.replicate 64 0
  pkgType := .release
  qaDigest0 := 0
  qaDigest1 := 0
  klicensee := 1
  dataOffset := 0
  key := []

def echoEntry : Entry := ⟨0,64⟩

def echoCache : Cache := ⟨16,plainData echoPrimitives echoPackage 16 48⟩

theorem read_at_independent_of_order_block :
    ∃ user' cache', readAt echoPrimitives echoPackage echoEntry ⟨16,16,false⟩
        (List.replicate 16 0) .initial = some (16,user',cache') ∧
      user' = List.replicate 15 0++[2] := by
  have hreadable : echoEntry.Readable echoPackage := ⟨by decide,by decide,by decide⟩
  obtain ⟨plain,hplain,-,hreads⟩ :=
    @read_at_independent_of_order echoPrimitives echoPackage echoEntry hreadable
  obtain ⟨user',cache',hread,hlength,htake,-⟩ := hreads .initial ⟨16,16,false⟩
    (replicate 16 0) .initial (by decide +kernel) (by decide) (by decide)
  have hsequential : sequential echoPrimitives echoPackage echoEntry =
      some (plainData echoPrimitives echoPackage 0 64) := hreadable.sequential_eq
  obtain rfl : plainData echoPrimitives echoPackage 0 64=plain :=
    Option.some.inj (hsequential.symm.trans hplain)
  refine ⟨user',cache',hread,?_⟩
  have hall : user'.take 16=user' := take_of_length_le (Nat.le_of_eq hlength)
  rw [← hall]
  exact htake.trans (by decide +kernel)

/-- A first read inside a block returns a wrong byte. After the second block was read, a read that
ends in the cache has it cleared, and one that starts inside the first block stops. -/
theorem read_at_depends_on_order : sequential echoPrimitives echoPackage echoEntry =
        some (plainData echoPrimitives echoPackage 0 64) ∧
      slice (plainData echoPrimitives echoPackage 0 64) 15 17 = [1]++List.replicate 15 0++[2] ∧
      (readAt echoPrimitives echoPackage echoEntry ⟨15,1,false⟩ [0] .initial).map
        (fun (n,user,_) => (n,user)) = some (1,[0]) ∧
      readAt echoPrimitives echoPackage echoEntry ⟨16,16,false⟩ (List.replicate 16 0) .initial =
        some (16,List.replicate 15 0++[2],echoCache) ∧
      readAt echoPrimitives echoPackage echoEntry ⟨0,32,false⟩ (List.replicate 32 0) echoCache =
        some (32,List.replicate 15 0++[1]++List.replicate 16 0,echoCache) ∧
      readAt echoPrimitives echoPackage echoEntry ⟨12,8,false⟩ (List.replicate 8 0) echoCache =
        none := by
  decide +kernel

end PS3Native.Pkg
