import Mathlib.Algebra.BigOperators.Group.List.Basic
import Mathlib.Algebra.Ring.Nat
import PS3Native.Slices

/-!
# Extents of a file on an ISO image

A file of an image is a list of extents. A read is cut where an extent ends, the part in the
extent is transferred, and the read goes on behind it. How the part is transferred depends on
the kind of source and is a parameter here.
-/
namespace PS3Native.Iso
open List

abbrev Bytes := List UInt8

def sectorSize : ℕ := 2048

/-- `ISO_RAW_READ_SIZE`, also the size of the aligned buffer. -/
def rawReadSize : ℕ := 1048576

def u64Range : ℕ := 18446744073709551616

/-- `iso_extent_info`: the first sector and the number of bytes. -/
structure Extent where
  start : ℕ
  size : ℕ
deriving DecidableEq, Repr

def getExtentPosLoop (pos : ℕ) (it : Extent) : List Extent → ℕ × Extent
  | [] => (pos,it)
  | next::rest =>
    if pos ≥ it.size then getExtentPosLoop (pos-it.size) next rest else (pos,it)

/-- `iso_file::get_extent_pos`; nothing if there is no extent, where the source stops. -/
def getExtentPos : List Extent → ℕ → Option (ℕ × Extent)
  | [], _ => none
  | it::rest, pos => some (getExtentPosLoop pos it rest)

def localExtentRemaining (extents : List Extent) (pos : ℕ) : Option ℕ :=
  (getExtentPos extents pos).map fun (localPos,extent) =>
    if localPos < extent.size then extent.size-localPos else 0

def fileOffset (extents : List Extent) (pos : ℕ) : Option ℕ :=
  (getExtentPos extents pos).map fun (localPos,extent) =>
    (extent.start*sectorSize+localPos)%u64Range

def fileSize (extents : List Extent) : ℕ :=
  extents.foldl (fun extentSizes extent => (extentSizes+extent.size)%u64Range) 0

/-- The memory a read works on: the buffer of the caller, from where the read is to store, and
the aligned buffer of the thread. -/
structure Buffers where
  user : Bytes
  aligned : Bytes

/-- Reads so many bytes from an address of the archive to the start of the user's buffer. Tells
if all reads were complete; nothing if it stops at a failed check or an invalid write. -/
abbrev Transfer := ℕ → ℕ → Buffers → Option (Buffers × Bool)

/-- `read_at` of the file classes: the number of bytes read and the buffers. The calls it makes
to itself are bounded by `fuel`. -/
def readAtLoop (transfer : Transfer) (extents : List Extent) :
    ℕ → ℕ → ℕ → Buffers → Option (ℕ × Buffers)
  | 0, _, _, _ => none
  | fuel+1, offset, size, b => do
    let maxSize := min size (← localExtentRemaining extents offset)
    if maxSize=0 then some (0,b) else
      let archiveFirstOffset ← fileOffset extents offset
      let (b,complete) ← transfer archiveFirstOffset maxSize b
      if ¬complete then some (0,b) else
        if size > maxSize ∧ (offset+maxSize)%u64Range < fileSize extents then
          let (read,rest) ← readAtLoop transfer extents fuel (offset+maxSize) (size-maxSize)
            {b with user := b.user.drop maxSize}
          some (maxSize+read,{rest with user := b.user.take maxSize++rest.user})
        else some (maxSize,b)

/-- Each call of `read_at` to itself is for fewer bytes. -/
def readAt (transfer : Transfer) (extents : List Extent) (offset size : ℕ) (b : Buffers) :
    Option (ℕ × Buffers) :=
  readAtLoop transfer extents (size+1) offset size b

def contents (disc : Bytes) (extents : List Extent) : Bytes :=
  extents.flatMap fun extent => slice disc (extent.start*sectorSize) extent.size

def total (extents : List Extent) : ℕ := (extents.map Extent.size).sum

def Extent.Inside (disc : Bytes) (extent : Extent) : Prop :=
  extent.size≠0 → extent.start*sectorSize+extent.size ≤ disc.length

def Extent.Covers (extent : Extent) (address n : ℕ) : Prop :=
  extent.start*sectorSize ≤ address ∧ address+n ≤ extent.start*sectorSize+extent.size

@[simp] theorem total_cons (extent : Extent) (extents : List Extent) :
    total (extent::extents) = extent.size+total extents := by
  simp [total]

@[simp] theorem total_append (before after : List Extent) :
    total (before++after) = total before+total after := by
  simp [total]

@[simp] theorem contents_cons (disc : Bytes) (extent : Extent) (extents : List Extent) :
    contents disc (extent::extents) =
      slice disc (extent.start*sectorSize) extent.size++contents disc extents := rfl

@[simp] theorem contents_append (disc : Bytes) (before after : List Extent) :
    contents disc (before++after) = contents disc before++contents disc after :=
  flatMap_append

variable {disc plain : Bytes} {extents : List Extent}

theorem length_slice_extent {extent : Extent} (h : extent.Inside disc) :
    (slice disc (extent.start*sectorSize) extent.size).length=extent.size := by
  by_cases hsize : extent.size=0
  · rw [hsize,slice_zero,length_nil]
  · exact length_slice (h hsize)

theorem length_contents (h : ∀ extent∈extents, extent.Inside disc) :
    (contents disc extents).length = total extents := by
  induction extents with
  | nil => rfl
  | cons extent extents ih =>
    rw [contents_cons,length_append,length_slice_extent (h extent mem_cons_self),
      ih fun e he => h e (mem_cons_of_mem _ he),total_cons]

theorem foldl_size (extents : List Extent) (n : ℕ) :
    extents.foldl (fun extentSizes extent => (extentSizes+extent.size)%u64Range) n%u64Range =
      (n+total extents)%u64Range := by
  induction extents generalizing n with
  | nil => rfl
  | cons extent extents ih =>
    rw [foldl_cons,ih,total_cons,Nat.mod_add_mod,Nat.add_assoc]

theorem foldl_size_lt (extents : List Extent) {n : ℕ} (h : n < u64Range) :
    extents.foldl (fun extentSizes extent => (extentSizes+extent.size)%u64Range) n <
      u64Range := by
  induction extents generalizing n with
  | nil => exact h
  | cons extent extents ih => exact ih (Nat.mod_lt _ (by decide))

theorem fileSize_eq (h : total extents < u64Range) : fileSize extents = total extents := by
  have hmod := foldl_size extents 0
  rw [Nat.mod_eq_of_lt (foldl_size_lt extents (by decide)),Nat.zero_add,Nat.mod_eq_of_lt h] at hmod
  exact hmod

/-- The extent that is found has the position, or the position is behind all of them. -/
theorem getExtentPosLoop_spec (pos : ℕ) (it : Extent) (rest : List Extent) :
    ∃ before extent after localPos, it::rest = before++extent::after ∧
      getExtentPosLoop pos it rest = (localPos,extent) ∧ pos = total before+localPos ∧
      (extent.size ≤ localPos → after=[]) := by
  induction rest generalizing pos it with
  | nil => exact ⟨[],it,[],pos,rfl,rfl,by simp [total],fun _ => rfl⟩
  | cons next rest ih =>
    rw [getExtentPosLoop]
    split
    · obtain ⟨before,extent,after,localPos,heq,hloop,hsum,hlast⟩ := ih (pos-it.size) next
      refine ⟨it::before,extent,after,localPos,by rw [heq]; rfl,hloop,?_,hlast⟩
      rw [total_cons]
      omega
    · exact ⟨[],it,next::rest,pos,rfl,rfl,by simp [total],fun _ => by omega⟩

theorem slice_contents {before after : List Extent} {extent : Extent}
    (h : ∀ e∈before++extent::after, e.Inside disc) {localPos n : ℕ}
    (hn : localPos+n ≤ extent.size) :
    slice (contents disc (before++extent::after)) (total before+localPos) n =
      slice disc (extent.start*sectorSize+localPos) n := by
  have hbefore : (contents disc before).length = total before :=
    length_contents fun e he => h e (mem_append_left _ he)
  have hextent : extent.Inside disc := h extent (by simp)
  rw [contents_append,contents_cons,← hbefore,slice_append_right,
    slice_append_left _ _ (by rw [length_slice_extent hextent]; exact hn),slice_slice _ _ hn]

/-- For parts of the extents, the transfer stores what `plain` has at the address. -/
def Transfers (transfer : Transfer) (plain : Bytes) (extents : List Extent) : Prop :=
  ∀ address n b, 0 < n → (∃ extent∈extents, extent.Covers address n) → n ≤ b.user.length →
    b.aligned.length=rawReadSize → ∃ aligned : Bytes, aligned.length=rawReadSize ∧
      transfer address n b = some (⟨store b.user 0 (slice plain address n),aligned⟩,true)

variable (hne : extents≠[]) (hinside : ∀ extent∈extents, extent.Inside plain)
  (hlen : plain.length < u64Range)

include hne hinside hlen

theorem getExtentPos_spec (offset : ℕ) :
    ∃ remaining address, localExtentRemaining extents offset = some remaining ∧
      fileOffset extents offset = some address ∧ offset+remaining ≤ max offset (total extents) ∧
      (remaining=0 → total extents ≤ offset) ∧
      ∀ n, 0 < n → n ≤ remaining → (∃ extent∈extents, extent.Covers address n) ∧
        slice (contents plain extents) offset n = slice plain address n := by
  obtain ⟨it,rest,rfl⟩ := exists_cons_of_ne_nil hne
  obtain ⟨before,extent,after,localPos,heq,hloop,hoffset,hlast⟩ :=
    getExtentPosLoop_spec offset it rest
  have htotal : total (it::rest) = total before+(extent.size+total after) := by
    rw [heq,total_append,total_cons]
  have hremaining : localExtentRemaining (it::rest) offset =
      some (if localPos < extent.size then extent.size-localPos else 0) := by
    rw [localExtentRemaining,getExtentPos,hloop,Option.map_some]
  have haddress : fileOffset (it::rest) offset =
      some ((extent.start*sectorSize+localPos)%u64Range) := by
    rw [fileOffset,getExtentPos,hloop,Option.map_some]
  refine ⟨_,_,hremaining,haddress,?_,?_,?_⟩
  · split <;> omega
  · intro hzero
    have hle : extent.size ≤ localPos := by
      by_contra hlt
      rw [if_pos (by omega)] at hzero
      omega
    have hafter : total after=0 := by
      rw [hlast hle]
      rfl
    omega
  · intro n hpos hn
    have hn' : localPos+n ≤ extent.size := by
      split at hn <;> omega
    have hmem : extent∈it::rest := by
      rw [heq]
      simp
    have hend := hinside extent hmem (by omega)
    have hmod : (extent.start*sectorSize+localPos)%u64Range =
        extent.start*sectorSize+localPos := Nat.mod_eq_of_lt (by omega)
    rw [hmod]
    refine ⟨⟨extent,hmem,by omega,by omega⟩,?_⟩
    rw [heq] at hinside ⊢
    rw [hoffset,slice_contents hinside hn']

theorem readAtLoop_eq {transfer : Transfer} (htransfer : Transfers transfer plain extents)
    (htotal : total extents < u64Range) (fuel offset size : ℕ) (b : Buffers) (hfuel : size < fuel)
    (huser : size ≤ b.user.length) (haligned : b.aligned.length=rawReadSize) :
    ∃ aligned : Bytes, aligned.length=rawReadSize ∧
      readAtLoop transfer extents fuel offset size b = some (min size (total extents-offset),
        ⟨store b.user 0 (slice (contents plain extents) offset size),aligned⟩) := by
  -- Each call reads at least one byte, so the bytes still asked for decrease with the fuel.
  have hcontents : (contents plain extents).length = total extents := length_contents hinside
  have hspec := getExtentPos_spec hne hinside hlen
  generalize contents plain extents = file at hcontents hspec ⊢
  induction fuel generalizing offset size b with
  | zero => omega
  | succ fuel ih =>
    obtain ⟨remaining,address,hremaining,haddress,hle,hend,hpart⟩ := hspec offset
    obtain ⟨part,hmin⟩ : ∃ part, min size remaining=part := ⟨_,rfl⟩
    rw [readAtLoop,hremaining]
    simp only [Option.bind_eq_bind,Option.bind_some,haddress,hmin]
    by_cases hzero : part=0
    · rw [if_pos hzero]
      refine ⟨b.aligned,haligned,?_⟩
      have hslice : slice file offset size=[] := by
        rcases Nat.eq_zero_or_pos size with rfl | hsize
        · exact slice_zero _ _
        · exact slice_of_length_le (by rw [hcontents]; exact hend (by omega))
      rw [hslice,store_nil,show min size (total extents-offset) = 0 by omega]
    · rw [if_neg hzero]
      obtain ⟨hcovers,hslice⟩ := hpart part (by omega) (by omega)
      obtain ⟨aligned,hlength,heq⟩ := htransfer address part b (by omega) hcovers (by omega) haligned
      rw [heq,← hslice]
      simp only [Option.bind_some,not_true_eq_false,if_false]
      have hmod : (offset+part)%u64Range = offset+part := Nat.mod_eq_of_lt (by omega)
      have hpiece : (slice file offset part).length=part := length_slice (by omega)
      rw [hmod,fileSize_eq htotal]
      split
      · have hrest : size = part+(size-part) := by omega
        obtain ⟨aligned',hlength',heq'⟩ := ih (offset+part) (size-part)
          ⟨(store b.user 0 (slice file offset part)).drop part,aligned⟩ (by omega)
          (by rw [length_drop,length_store (by omega)]; omega) hlength
        rw [heq',Option.bind_some]
        refine ⟨aligned',hlength',?_⟩
        rw [store_zero_append hpiece.symm (by omega),slice_append_slice,← hrest]
        congr 2
        omega
      · refine ⟨aligned,hlength,?_⟩
        have hnil : slice file (offset+part) (size-part)=[] := by
          rcases Nat.eq_zero_or_pos (size-part) with h | h
          · rw [h,slice_zero]
          · exact slice_of_length_le (by omega)
        have hall : slice file offset size = slice file offset part := by
          conv_lhs => rw [show size = part+(size-part) by omega]
          rw [← slice_append_slice,hnil,append_nil]
        rw [hall]
        congr 2
        omega

/-- If the parts are transferred right, a read returns its slice of the concatenated extents. -/
theorem readAt_eq {transfer : Transfer} (htransfer : Transfers transfer plain extents)
    (htotal : total extents < u64Range) (offset size : ℕ) (b : Buffers)
    (huser : size ≤ b.user.length) (haligned : b.aligned.length=rawReadSize) :
    ∃ aligned : Bytes, readAt transfer extents offset size b =
      some (min size (total extents-offset),
        ⟨store b.user 0 (slice (contents plain extents) offset size),aligned⟩) := by
  obtain ⟨aligned,-,heq⟩ := readAtLoop_eq hne hinside hlen htransfer htotal (size+1) offset size b
    (Nat.lt_succ_self size) huser haligned
  exact ⟨aligned,heq⟩

end PS3Native.Iso
