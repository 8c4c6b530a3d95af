import PS3Native.Alignment
import PS3Native.HostPath
import PS3Native.Slices

/-!
# Extraction of an archive

`tar_object` reads headers of 512 bytes, each followed by the data of its entry. From a file it
reads all of them first and keeps them by name, from a stream it reads one at a time. `extract`
puts a prefix in front of each name and hands the path to the file system.
-/
namespace PS3Native.Tar

open PathComponents (ascii)
open SysFsPath (slash)
open Vfs (VfsDirectory get isPathInsideDir)
open ParentDir (getParentDirView)

abbrev Bytes := List UInt8

def umax : ℕ := 18446744073709551615

/-- What is used of a `TARHeader` once it has been accepted, under the name of its entry. -/
structure TarEntry where
  name : Bytes
  filetype : UInt8
  mtime : ℕ
deriving DecidableEq, Repr

def isOctalDigit (c : UInt8) : Bool := 0x30 ≤ c && c ≤ 0x37

/-- `octal_text_to_u64`: digits that a zero or a space ends. -/
def octalTextToU64 (sv : Bytes) : ℕ :=
  let digits := sv.takeWhile isOctalDigit
  let value := digits.foldl (fun n c => n*8+(c.toNat-0x30)) 0
  let i := if digits=[] ∨ umax < value then umax else value
  match sv.drop digits.length with
  | [] => umax
  | c::_ => if c≠0 ∧ c≠0x20 then umax else i

def cut (field : Bytes) : Bytes := field.takeWhile (· != 0)

def readHeader (archive : Bytes) (offset : ℕ) : Bytes :=
  if (slice archive offset 512).length≠512 then List.replicate 512 0
  else slice archive offset 512

/-- `emplace_single_entry`: the size that it returns, and the entry, if the header is accepted. The
offset is that of the header. -/
def emplaceSingleEntry (archive : Bytes) (offset : ℕ) : ℕ × Option TarEntry :=
  if archive.length ≤ offset then (0,none)
  else
    let header := readHeader archive offset
    let offset := offset+512
    if slice header 257 5 = ascii "ustar" then
      let size := octalTextToU64 (slice header 124 12)
      if (slice header 0 1≠[0] ∨ slice header 345 1≠[0]) ∧ umax-size ≥ 512 ∧
          archive.length ≥ size ∧ archive.length-size ≥ offset then
        (size,some {
          name := cut (slice header 345 155)++cut (slice header 0 100)
          filetype := header.getD 156 0
          mtime := octalTextToU64 (slice header 136 12) })
      else (size,none)
    else (umax,none)

/-- `insert_or_assign` into a map that is sorted by name. -/
def insertOrAssign (entry : TarEntry) : List TarEntry → List TarEntry
  | [] => [entry]
  | e::entries =>
    if entry.name < e.name then entry::e::entries
    else if entry.name=e.name then entry::entries
    else e::insertOrAssign entry entries

def scanFile (archive : Bytes) : ℕ → ℕ → List TarEntry → List TarEntry
  | 0, _, map => map
  | rounds+1, largestOffset, map =>
    if largestOffset < archive.length then
      let (size,entry) := emplaceSingleEntry archive largestOffset
      let map := entry.elim map fun entry => insertOrAssign entry map
      let largestOffset := largestOffset+512
      if size=umax then scanFile archive rounds largestOffset map
      else scanFile archive rounds (largestOffset+alignUp size 512) map
    else map

/-- The entries of a stream, up to the first header that is not accepted. -/
def scanStream (archive : Bytes) : ℕ → ℕ → List TarEntry
  | 0, _ => []
  | rounds+1, largestOffset =>
    match emplaceSingleEntry archive largestOffset with
    | (size,some entry) => entry::scanStream archive rounds (largestOffset+512+alignUp size 512)
    | (_,none) => []

def entries (isStream : Bool) (archive : Bytes) : List TarEntry :=
  if isStream then scanStream archive (archive.length+1) 0
  else scanFile archive (archive.length+1) 0 []

theorem scanFile_add (archive : Bytes) {rounds largestOffset : ℕ} (more : ℕ)
    (h : archive.length-largestOffset < rounds) (map : List TarEntry) :
    scanFile archive (rounds+more) largestOffset map = scanFile archive rounds largestOffset map := by
  induction rounds generalizing largestOffset map with
  | zero => omega
  | succ rounds ih =>
    rw [Nat.add_right_comm,scanFile,scanFile]
    split
    · split
      split
      · exact ih (by omega) _
      · exact ih (by omega) _
    · rfl

theorem scanStream_add (archive : Bytes) {rounds largestOffset : ℕ} (more : ℕ)
    (h : archive.length-largestOffset < rounds) :
    scanStream archive (rounds+more) largestOffset = scanStream archive rounds largestOffset := by
  induction rounds generalizing largestOffset with
  | zero => omega
  | succ rounds ih =>
    rw [Nat.add_right_comm,scanStream,scanStream]
    split
    next size entry hentry =>
      rcases Nat.lt_or_ge largestOffset archive.length with hlt | hge
      · rw [ih (by omega)]
      · rw [emplaceSingleEntry,if_pos hge] at hentry
        cases hentry
    next => rfl

/-- The rounds are enough: a scan ends at the end of the archive. -/
theorem entries_eq (isStream : Bool) (archive : Bytes) (rounds : ℕ) : entries isStream archive =
      if isStream then scanStream archive (archive.length+1+rounds) 0
      else scanFile archive (archive.length+1+rounds) 0 [] := by
  rw [entries]
  split
  · exact (scanStream_add archive rounds (by omega)).symm
  · exact (scanFile_add archive rounds (by omega) []).symm

inductive Op where
  | createPath (path : Bytes)
  | write (path : Bytes)
  | utime (path : Bytes)
deriving DecidableEq, Repr

/-- The name has a wide dollar sign in it. -/
def shouldIgnore (name : Bytes) : Bool := name.tails.any ([0xEF,0xBC,0x84].isPrefixOf ·)

def TarEntry.isFile (entry : TarEntry) : Bool := entry.filetype=0 ∨ entry.filetype=0x30

def TarEntry.isDir (entry : TarEntry) : Bool := entry.filetype=0x35

def TarEntry.times (entry : TarEntry) (result : Bytes) : List Op :=
  if entry.mtime≠umax then [.utime result] else []

variable (resolve : Bytes → Bytes) (configDir : Bytes) (root : VfsDirectory) (prefixPath : Bytes)

/-- The host path of an entry; nothing if extraction stops there. -/
def hostPath (isVfs : Bool) (name : Bytes) : Option Bytes :=
  let result := prefixPath++slash::name
  if isVfs then (get configDir root result).filter (·≠[])
  else if isPathInsideDir resolve result prefixPath then some result
  else none

/-- The calls for one entry, each of which is taken to succeed; nothing for another type. -/
def entryOps (entry : TarEntry) (result : Bytes) : Option (List Op) :=
  if entry.isFile then
    let parents := if prefixPath≠[] then (getParentDirView result 1).toList.map .createPath else []
    some (parents++if shouldIgnore entry.name then [] else Op.write result::entry.times result)
  else if entry.isDir then
    some (if shouldIgnore entry.name then [] else Op.createPath result::entry.times result)
  else none

def extractLoop (isVfs : Bool) : List TarEntry → List Op
  | [] => []
  | entry::entries =>
    match hostPath resolve configDir root prefixPath isVfs entry.name with
    | none => []
    | some result =>
      match entryOps prefixPath entry result with
      | none => []
      | some ops => ops++extractLoop isVfs entries

def extract (isStream : Bool) (archive : Bytes) (isVfs : Bool) : List Op :=
  extractLoop resolve configDir root prefixPath (isVfs || prefixPath=[]) (entries isStream archive)

variable {resolve configDir root prefixPath} {isVfs : Bool} {op : Op} {list : List TarEntry}

theorem of_mem_extractLoop (h : op∈extractLoop resolve configDir root prefixPath isVfs list) :
    ∃ entry∈list, ∃ result ops, hostPath resolve configDir root prefixPath isVfs entry.name = some result ∧
      entryOps prefixPath entry result = some ops ∧ op∈ops := by
  induction list with
  | nil => cases h
  | cons entry list ih =>
    rw [extractLoop] at h
    split at h
    next => cases h
    next result hpath =>
      split at h
      next => cases h
      next ops hops =>
        rcases List.mem_append.1 h with h | h
        · exact ⟨entry,List.mem_cons_self,result,ops,hpath,hops,h⟩
        · obtain ⟨e,he,hrest⟩ := ih h
          exact ⟨e,List.mem_cons_of_mem _ he,hrest⟩

end PS3Native.Tar
