import Mathlib.Data.Finset.Image
import PS3Native.AcyclicRelation
import PS3Native.DepthFirst
import PS3Native.Endian
import PS3Native.HostPath
import PS3Native.IsoExtents

/-!
# The directories of an ISO image

When an archive is opened, `iso_form_hierarchy` reads the records of the root directory and calls
itself for each of them. The extents come from the image. A record may name the directory that it
is in, and then the calls do not end. They do if no directory is recorded below itself.
-/
namespace PS3Native.Iso
open List

open AcyclicRelation (Acyclic rank rank_lt_rank)
open DepthFirst (walk)
open PathComponents (ascii)
open Relation (ReflTransGen TransGen)
open SysFsPath (slash dot dotdot)
open Vfs (isPathInsideDir)

/-- What is used of an `iso_fs_metadata`. The first extent is there in all of them. -/
structure IsoFsMetadata where
  name : Bytes
  isDirectory : Bool
  hasMultipleExtents : Bool
  extent : Extent
  moreExtents : List Extent := []
deriving DecidableEq, Repr

/-- What the code around the parser provides: `resolve_path_may_not_exist` and `utf16_to_utf8`. -/
structure Callbacks where
  resolve : Bytes → Bytes
  utf16ToUtf8 : List UInt16 → Bytes

def utf16 : Bytes → List UInt16
  | high::low::rest => (high.toNat*256+low.toNat).toUInt16::utf16 rest
  | _ => []

def entryName (callbacks : Callbacks) (namesInUcs2 : Bool) (bytes : Bytes) : Bytes :=
  let fileName :=
    if bytes = [0] then dot
    else if bytes = [1] then dotdot
    else if namesInUcs2 then callbacks.utf16ToUtf8 (utf16 bytes)
    else bytes
  let fileName := if (ascii ";1").isSuffixOf fileName then fileName.rdrop 2 else fileName
  if fileName.length > 1 ∧ fileName.getLast? = some 0x2E then fileName.dropLast else fileName

/-- What `iso_read_directory_entry` returns: the three cases of its result and of `read_error`. The
position behind a record is returned with it. -/
inductive DirectoryEntry
  | error
  | padding
  | record (entry : IsoFsMetadata) (next : ℕ)
deriving DecidableEq, Repr

/-- `iso_read_directory_entry` at a position of the image. -/
def isoReadDirectoryEntry (callbacks : Callbacks) (image : Bytes) (namesInUcs2 : Bool) (pos : ℕ) :
    DirectoryEntry :=
  match (image.drop pos).head? with
  | none => .error
  | some entryLength =>
    if entryLength=0 then .padding
    else
      let header := slice image (pos+1) 32
      let fileNameLength := leNat (slice header 31 1)
      let fileName := slice image (pos+33) fileNameLength
      let flags := leNat (slice header 24 1)
      if entryLength.toNat < 33 ∨ header.length≠32 ∨ fileNameLength > entryLength.toNat-33 then .error
      else if fileName.length≠fileNameLength then .error
      else
        .record
          { name := entryName callbacks namesInUcs2 fileName
            isDirectory := flags.testBit 1
            hasMultipleExtents := flags.testBit 7
            extent := ⟨leNat (slice header 1 4),leNat (slice header 9 4)⟩ }
          (pos+entryLength.toNat)

theorem lt_of_isoReadDirectoryEntry {callbacks : Callbacks} {image : Bytes} {namesInUcs2 : Bool}
    {pos next : ℕ} {entry : IsoFsMetadata}
    (h : isoReadDirectoryEntry callbacks image namesInUcs2 pos = .record entry next) : pos < next := by
  unfold isoReadDirectoryEntry at h
  split at h
  next => cases h
  next entryLength _ =>
    split at h
    next => cases h
    next hne =>
      simp only at h
      split at h
      next => cases h
      next =>
        split at h
        next => cases h
        next =>
          cases h
          omega

/-- The children read so far and the indices of those that have more extents. -/
structure Listing where
  children : List IsoFsMetadata := []
  multiExtentNodeIndices : List ℕ := []

/-- Merges a record into an earlier one of its name that has more extents, or adds it. -/
def Listing.add (l : Listing) (entry : IsoFsMetadata) : Listing :=
  match l.multiExtentNodeIndices.find? fun index => l.children[index]?.any (·.name=entry.name) with
  | some index =>
    { l with
      children := l.children.modify index fun selected =>
        {selected with moreExtents := selected.moreExtents++[entry.extent]} }
  | none =>
    { children := l.children++[entry]
      multiExtentNodeIndices :=
        if entry.hasMultipleExtents then l.multiExtentNodeIndices++[l.children.length]
        else l.multiExtentNodeIndices }

/-- The loop over the records of a directory; nothing if a record cannot be read. The position
grows with every record, so that the loop ends. -/
def readRecords (callbacks : Callbacks) (image : Bytes) (namesInUcs2 : Bool) (endPos pos : ℕ)
    (l : Listing) : Option (List IsoFsMetadata) :=
  if pos < endPos then
    match hread : isoReadDirectoryEntry callbacks image namesInUcs2 pos with
    | .error => none
    | .padding =>
      readRecords callbacks image namesInUcs2 endPos (((pos+1)/sectorSize+1)*sectorSize) l
    | .record entry next =>
      if next > endPos then none
      else readRecords callbacks image namesInUcs2 endPos next (l.add entry)
  else some l.children
termination_by endPos-pos
decreasing_by
  · have hsector : pos+1 < ((pos+1)/sectorSize+1)*sectorSize := by
      unfold sectorSize
      omega
    omega
  · have hnext := lt_of_isoReadDirectoryEntry hread
    omega

abbrev Place := IsoFsMetadata × Bytes

/-- `iso_form_hierarchy` up to the calls for the children: nothing if it returns false, else the
children. The children `.` and `..` get no call of their own. -/
def formNode (callbacks : Callbacks) (image : Bytes) (useUcs2Decoding : Bool) :
    Place → Option (List Place)
  | (node,parentPath) =>
    let nodePath := parentPath++slash::node.name
    let startPos := node.extent.start*sectorSize%u64Range
    if parentPath≠[] ∧ (node.name=dot ∨ node.name=dotdot) then some []
    else if node.isDirectory=false then if parentPath=[] then none else some []
    else if parentPath≠[] ∧ isPathInsideDir callbacks.resolve nodePath parentPath=false then none
    else if startPos > image.length ∨ node.extent.size > image.length-startPos then none
    else
      (readRecords callbacks image useUcs2Decoding (startPos+node.extent.size) startPos {}).map
        fun children => children.map (·,nodePath)

/-- `iso_form_hierarchy`: the tree, no tree if it returns false, and nothing if its calls to itself
go deeper than `depth`. -/
def isoFormHierarchy (callbacks : Callbacks) (image : Bytes) (useUcs2Decoding : Bool) (depth : ℕ)
    (root : IsoFsMetadata) : Option (Option (DepthFirst.Tree Place)) :=
  walk (formNode callbacks image useUcs2Decoding) depth (root,[])

/-- The directory at an extent has a record of a directory at another one. -/
def Lists (callbacks : Callbacks) (image : Bytes) (useUcs2Decoding : Bool) (e f : Extent) : Prop :=
  ∃ children, readRecords callbacks image useUcs2Decoding (e.start*sectorSize%u64Range+e.size)
      (e.start*sectorSize%u64Range) {} = some children ∧
    ∃ child∈children, child.isDirectory ∧ child.name≠dot ∧ child.name≠dotdot ∧ child.extent=f

variable {callbacks : Callbacks} {image : Bytes} {useUcs2Decoding : Bool}

/-- The extents of all records that can be read from the image. -/
def recorded (callbacks : Callbacks) (image : Bytes) (useUcs2Decoding : Bool) : Finset Extent :=
  (Finset.range image.length).image fun pos =>
    match isoReadDirectoryEntry callbacks image useUcs2Decoding pos with
    | .record entry _ => entry.extent
    | _ => ⟨0,0⟩

theorem mem_recorded {pos next : ℕ} {entry : IsoFsMetadata}
    (h : isoReadDirectoryEntry callbacks image useUcs2Decoding pos = .record entry next) :
    entry.extent∈recorded callbacks image useUcs2Decoding := by
  refine Finset.mem_image.2 ⟨pos,Finset.mem_range.2 ?_,by rw [h]⟩
  by_contra hpos
  rw [isoReadDirectoryEntry,drop_eq_nil_of_le (by omega)] at h
  cases h

theorem Listing.extent_of_add {l : Listing} {entry c : IsoFsMetadata} (hc : c∈(l.add entry).children) :
    c.extent=entry.extent ∨ ∃ d∈l.children, d.extent=c.extent := by
  unfold Listing.add at hc
  split at hc
  · obtain ⟨i,hi⟩ := mem_iff_getElem?.1 hc
    rw [getElem?_modify] at hi
    obtain ⟨d,hd,rfl⟩ := Option.map_eq_some_iff.1 hi
    refine .inr ⟨d,mem_of_getElem? hd,?_⟩
    split <;> rfl
  · rcases mem_append.1 hc with hc | hc
    · exact .inr ⟨c,hc,rfl⟩
    · exact .inl (by rw [mem_singleton.1 hc])

theorem extent_mem_recorded {endPos pos : ℕ} {l : Listing} {children : List IsoFsMetadata}
    (hl : ∀ c∈l.children, c.extent∈recorded callbacks image useUcs2Decoding)
    (h : readRecords callbacks image useUcs2Decoding endPos pos l = some children) :
    ∀ c∈children, c.extent∈recorded callbacks image useUcs2Decoding := by
  fun_induction readRecords callbacks image useUcs2Decoding endPos pos l with
  | case1 => cases h
  | case2 _ _ _ _ ih => exact ih hl h
  | case3 => cases h
  | case4 pos l _ entry next hread _ ih =>
    refine ih (fun c hc => ?_) h
    rcases l.extent_of_add hc with heq | ⟨d,hd,heq⟩
    · exact heq ▸ mem_recorded hread
    · exact heq ▸ hl d hd
  | case5 =>
    cases h
    exact hl

/-- The directory of a place is read, and called for. -/
def Expands (place : Place) : Prop :=
  place.1.isDirectory ∧ (place.2=[] ∨ place.1.name≠dot ∧ place.1.name≠dotdot)

instance (place : Place) : Decidable (Expands place) := inferInstanceAs (Decidable (_ ∧ _))

theorem formNode_child {place child : Place} {children : List Place}
    (h : formNode callbacks image useUcs2Decoding place = some children) (hchild : child∈children) :
    Expands place ∧ child.2≠[] ∧ child.1.extent∈recorded callbacks image useUcs2Decoding ∧
      (Expands child → Lists callbacks image useUcs2Decoding place.1.extent child.1.extent) := by
  obtain ⟨node,parentPath⟩ := place
  dsimp only [formNode] at h
  split at h
  · cases h
    cases hchild
  next hname =>
    split at h
    next => split at h <;> cases h; cases hchild
    next hdirectory =>
      split at h
      · cases h
      split at h
      · cases h
      obtain ⟨records,hrecords,rfl⟩ := Option.map_eq_some_iff.1 h
      obtain ⟨c,hc,rfl⟩ := mem_map.1 hchild
      refine ⟨⟨by simpa using hdirectory,?_⟩,by simp,extent_mem_recorded (by simp) hrecords c hc,?_⟩
      · rwa [not_and_or,not_not,not_or] at hname
      · rintro ⟨hdir,hpath | ⟨hdot,hdotdot⟩⟩
        · simp at hpath
        · exact ⟨records,hrecords,c,hc,hdir,hdot,hdotdot,rfl⟩

/-- One record of 34 bytes: a directory or a file `A` in the first 34 bytes of the image. -/
def loopImage (flags : UInt8) : Bytes :=
  [34,0,0,0,0,0,0,0,0,0,34,0,0,0,0,0,0,34,0,0,0,0,0,0,0,flags,0,0,0,0,0,0,1,0x41]

def loopDirectory (name : Bytes) : IsoFsMetadata :=
  {name := name, isDirectory := true, hasMultipleExtents := false, extent := ⟨0,34⟩}

/-- The default of `resolve_path_may_not_exist` returns its argument. -/
def plainCallbacks : Callbacks := ⟨id,fun _ => []⟩

theorem readRecords_loopImage (flags : UInt8) (entry : IsoFsMetadata)
    (hread : isoReadDirectoryEntry plainCallbacks (loopImage flags) false 0 = .record entry 34) :
    readRecords plainCallbacks (loopImage flags) false 34 0 {} = some [entry] := by
  rw [readRecords,if_pos (by decide)]
  split
  next herror => rw [hread] at herror; cases herror
  next hpadding => rw [hread] at hpadding; cases hpadding
  next e next hrecord =>
    rw [hread] at hrecord
    cases hrecord
    rw [if_neg (by decide),readRecords,if_neg (by decide)]
    rfl

theorem formNode_loopDirectory {parentPath name : Bytes} (h : parentPath=[] ∨ name = ascii "A") :
    formNode plainCallbacks (loopImage 2) false (loopDirectory name,parentPath) =
      some [(loopDirectory (ascii "A"),parentPath++slash::name)] := by
  have hskip : ¬(parentPath≠[] ∧ ((loopDirectory name).name=dot ∨ (loopDirectory name).name=dotdot)) := by
    rintro ⟨hne,hname⟩
    rw [h.resolve_left hne] at hname
    revert hname
    decide
  have hout : ¬(parentPath≠[] ∧ isPathInsideDir plainCallbacks.resolve
      (parentPath++slash::(loopDirectory name).name) parentPath=false) := by
    rintro ⟨hne,hout⟩
    have hinside : isPathInsideDir id (parentPath++slash::name) parentPath := by
      rw [isPathInsideDir,decide_eq_true_eq]
      refine ⟨hne,by simp,?_⟩
      rw [ isPrefixOf_iff_prefix]
      split
      · exact ⟨slash::name++[slash],by simp⟩
      · exact ⟨name++[slash],by simp⟩
    exact Bool.false_ne_true (hout.symm.trans hinside)
  have hstart : (loopDirectory name).extent.start*sectorSize%u64Range=0 := by
    simp [loopDirectory]
  have hroom : ¬(0 > (loopImage 2).length ∨ (loopDirectory name).extent.size > (loopImage 2).length-0) := by
    simp [loopDirectory,loopImage]
  dsimp only [formNode]
  rw [if_neg hskip,if_neg Bool.noConfusion,if_neg hout,hstart,if_neg hroom]
  exact congrArg (Option.map _) (readRecords_loopImage _ _ (by decide))

end PS3Native.Iso
