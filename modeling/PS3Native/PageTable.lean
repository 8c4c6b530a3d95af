import PS3Native.Alignment
import Mathlib.Data.BitVec

/-!
# The page table and memory blocks

`g_pages` has a byte of flags for every 4 KiB page. `check_addr` looks at one page per 64 KiB or
1 MiB when that page carries the flag of that size. `page_protect` collects neighbouring pages with
the same new value into a run. `vm::block_t` hands out page ranges; in a guarded block the first and
the last page of a range are guard pages. Host mappings are not modelled; `src` says whether the
caller brings a shared memory object. All addresses are `u32`.
-/
namespace PS3Native.Vm

abbrev pageReadable : BitVec 8 := 0x01#8
abbrev pageWritable : BitVec 8 := 0x02#8
abbrev pageExecutable : BitVec 8 := 0x04#8
abbrev page64kSize : BitVec 8 := 0x20#8
abbrev page1mSize : BitVec 8 := 0x40#8
abbrev pageAllocated : BitVec 8 := 0x80#8

/-- `g_pages`, by page number. -/
abbrev Pages := ℕ → BitVec 8

inductive VmError
  | invalidArguments
  | invalidAlignment
  | alreadyMapped
  | concurrentAccess
  | inconsistency
  | noMapping
  | ensureFailed
  | searchUnfinished
  deriving DecidableEq, Repr

/-- `utils::align` on `u32`, for a power of two. -/
def alignU32 (value unit : ℕ) : ℕ := alignUp value unit%2^32

/-- The page `check_addr` looks at after page `i` with the flags `state`. -/
def nextSample (state : BitVec 8) (i : ℕ) : ℕ :=
  if state &&& page1mSize≠0 then alignUp (i+1) (0x100000/4096)
  else if state &&& page64kSize≠0 then alignUp (i+1) (0x10000/4096)
  else i+1

/-- The loop of `check_addr`; every pass moves on by a page at least. -/
def checkLoop (pages : Pages) (flags : BitVec 8) (max : ℕ) : ℕ → ℕ → Bool
  | 0, _ => true
  | fuel+1, i =>
    if max < i then true
    else if ~~~pages i &&& flags≠0 then false
    else checkLoop pages flags max fuel (nextSample (pages i) i)

def checkAddr (pages : Pages) (addr : ℕ) (flags : BitVec 8) (size : ℕ) : Bool :=
  if size=0 then true
  else if 2^32-1 < addr ∨ 2^32-addr < size then false
  else
    let max := (addr+size-1)/4096
    checkLoop pages (flags ||| pageAllocated) max (max+1-addr/4096) (addr/4096)

def fillPages (pages : Pages) (first last : ℕ) (value : BitVec 8) : Pages :=
  fun k => if first ≤ k ∧ k < last then value else pages k

/-- The size rounded up to the granularity of the first page. -/
def protectSize (firstFlag : BitVec 8) (size : ℕ) : ℕ :=
  if firstFlag &&& page1mSize≠0 then alignU32 size 0x100000
  else if firstFlag &&& page64kSize≠0 then alignU32 size 0x10000
  else size

def protectedValue (flagsSet flagsClear old : BitVec 8) : BitVec 8 :=
  (old ||| flagsSet) &&& ~~~flagsClear

/-- The loop of `page_protect` at page `i`, with the run `start`, `startValue` that is
open; behind the last page the impossible value `page_executable` closes it. -/
def protectLoop (flagsSet flagsClear : BitVec 8) (last : ℕ) :
    ℕ → Pages → ℕ → BitVec 8 → ℕ → Pages
  | 0, pages, _, _, _ => pages
  | count+1, pages, start, startValue, i =>
    let newVal := if i < last then protectedValue flagsSet flagsClear (pages i) else pageExecutable
    if newVal≠startValue then
      let oldVal := pages start
      let pages' := if i-start≠0 ∧ oldVal≠startValue then fillPages pages start i startValue
        else pages
      protectLoop flagsSet flagsClear last count pages' i newVal (i+1)
    else protectLoop flagsSet flagsClear last count pages start startValue (i+1)

def withoutCommon (flags other : BitVec 8) : BitVec 8 := flags &&& ~~~(flags &&& other)

def pageProtect (pages : Pages) (addr size : BitVec 32) (flagsTest flagsSet flagsClear : BitVec 8) :
    Except VmError (Bool × Pages) :=
  if size=0 ∨ (size ||| addr).toNat%4096≠0 then .error .invalidArguments
  else
    let flagsTest := flagsTest ||| pageAllocated
    let set := withoutCommon flagsSet flagsClear
    let clear := withoutCommon flagsClear flagsSet
    if !checkAddr pages addr.toNat flagsTest size.toNat then .ok (false,pages)
    else if set=0 ∧ clear=0 then .ok (true,pages)
    else
      let firstFlag := pages (addr.toNat/4096)
      let size := protectSize firstFlag size.toNat
      let flagsTest := flagsTest ||| (firstFlag &&& (page1mSize ||| page64kSize))
      if size=0 ∨ !checkAddr pages addr.toNat flagsTest size then .ok (false,pages)
      else
        let start := addr.toNat/4096
        .ok (true,protectLoop set clear (start+size/4096) (size/4096+1) pages start
          pageExecutable start)

theorem fillPages_of_notMem {pages : Pages} {first last k : ℕ} {value : BitVec 8}
    (h : ¬(first ≤ k ∧ k < last)) : fillPages pages first last value k = pages k := if_neg h

abbrev stackGuarded : BitVec 64 := 0x10#64
abbrev preallocated : BitVec 64 := 0x20#64
abbrev blockSize4k : BitVec 64 := 0x100#64
abbrev blockSize64k : BitVec 64 := 0x200#64
abbrev blockSize1m : BitVec 64 := 0x400#64
abbrev blockSizeMask : BitVec 64 := 0xf00#64
abbrev allocHidden : BitVec 64 := 0x1000#64
abbrev allocUnwritable : BitVec 64 := 0x2000#64
abbrev allocExecutable : BitVec 64 := 0x4000#64
abbrev allocProtMask : BitVec 64 := allocHidden ||| allocUnwritable ||| allocExecutable

def hasFlag (flags mask : BitVec 64) : Bool := flags &&& mask != 0

def processBlockFlags (flags : BitVec 64) : BitVec 64 :=
  let flags := if flags &&& blockSizeMask=0 then flags ||| blockSize1m else flags
  if hasFlag flags blockSize4k then flags ||| preallocated else flags &&& ~~~stackGuarded

/-- A block as `_map` and `_find_map` make it: whole pages inside the address space. -/
structure Block where
  addr : ℕ
  size : ℕ
  requestedFlags : BitVec 64
  addr_mod : addr%4096=0
  size_mod : size%4096=0
  size_pos : 0 < size
  size_lt : size < 2^32
  fits : addr+size ≤ 2^32

structure BlockState where
  pages : Pages
  map : List (ℕ × ℕ) := []

namespace Block

def flags (b : Block) : BitVec 64 := processBlockFlags b.requestedFlags

def guarded (b : Block) : Bool := hasFlag b.flags stackGuarded

/-- The flags of an allocation: those of the block, except for the protection, unless
a shared memory object is given. -/
def allocFlags (b : Block) (src : Bool) (flags : BitVec 64) : BitVec 64 :=
  if src then flags else (b.flags &&& ~~~allocProtMask) ||| (flags &&& allocProtMask)

end Block

def minPageSize (flags : BitVec 64) : ℕ := if hasFlag flags blockSize4k then 0x1000 else 0x10000

def guardSize (guarded : Bool) : ℕ := if guarded then 0x2000 else 0

def guardOffset (guarded : Bool) : ℕ := if guarded then 0x1000 else 0

/-- The flags `try_alloc` gives to the pages, before `page_allocated`. -/
def pageFlags (bflags : BitVec 64) : BitVec 8 :=
  (if hasFlag bflags allocHidden then 0
    else pageReadable ||| (if hasFlag bflags allocUnwritable then 0 else pageWritable)) |||
  (if hasFlag bflags allocExecutable then pageExecutable else 0) |||
  (if bflags &&& blockSizeMask=blockSize64k then page64kSize
    else if !hasFlag bflags (blockSizeMask &&& ~~~blockSize1m) then page1mSize else 0)

def pagesFree (pages : Pages) (first last : ℕ) : Bool :=
  (List.range' first (last+1-first)).all (fun i => pages i == 0)

def pageMap (pages : Pages) (addr : ℕ) (flags : BitVec 8) (size : ℕ) : Except VmError Pages :=
  if size=0 ∨ size%4096≠0 ∨ addr%4096≠0 ∨ flags &&& pageAllocated≠0 then
    .error .invalidArguments
  else if !(List.range' (addr/4096) (size/4096)).all (fun i => pages i == 0) then
    .error .alreadyMapped
  else .ok (fillPages pages (addr/4096) (addr/4096+size/4096) (flags ||| pageAllocated))

/-- Both guard pages are exchanged to `page_allocated`; neither may be in use. -/
def mapGuards (pages : Pages) (addr size : ℕ) : Except VmError Pages :=
  let first := addr/4096
  let last := addr/4096+size/4096-1
  if pages first≠0 then .error .ensureFailed
  else
    let pages := Function.update pages first pageAllocated
    if pages last≠0 then .error .ensureFailed
    else .ok (Function.update pages last pageAllocated)

def recordRange (map : List (ℕ × ℕ)) (addr size : ℕ) : List (ℕ × ℕ) :=
  (addr,size)::map.filter (fun e => e.1≠addr)

def tryAlloc (b : Block) (s : BlockState) (addr : ℕ) (bflags : BitVec 64) (size : ℕ) :
    Except VmError (Option BlockState) :=
  if !pagesFree s.pages (addr/4096) ((addr+size-1)%2^32/4096) then .ok none
  else
    let pageAddr := addr+guardOffset b.guarded
    let pageSize := size-guardSize b.guarded
    match (if b.guarded then mapGuards s.pages addr size else .ok s.pages) with
    | .error e => .error e
    | .ok pages =>
      match pageMap pages pageAddr (pageFlags bflags) pageSize with
      | .error e => .error e
      | .ok pages => .ok (some {pages, map := recordRange s.map addr size})

/-- The search for a place, one `align` at a time up to `max`. -/
def searchLoop (b : Block) (s : BlockState) (flags : BitVec 64) (size align max : ℕ) :
    ℕ → ℕ → Except VmError (Option (ℕ × BlockState))
  | 0, _ => .error .searchUnfinished
  | fuel+1, addr =>
    match tryAlloc b s addr flags size with
    | .error e => .error e
    | .ok (some s') => .ok (some (addr,s'))
    | .ok none =>
      if addr=max then .ok none
      else searchLoop b s flags size align max fuel ((addr+align)%2^32)

/-- The address given out, or `0`. No search takes more steps than there are pages. -/
def alloc (b : Block) (s : BlockState) (origSize align : BitVec 32) (src : Bool)
    (flags : BitVec 64) : Except VmError (ℕ × BlockState) :=
  let flags := b.allocFlags src flags
  let size := (alignU32 origSize.toNat (minPageSize flags) +
    guardSize (hasFlag flags stackGuarded))%2^32
  if align.toNat < minPageSize flags ∨ align.toNat≠2^align.toNat.log2 then
    .error .invalidAlignment
  else if origSize=0 ∨ size=0 ∨ size < origSize.toNat ∨ b.size < size then .ok (0,s)
  else if hasFlag b.flags preallocated && src then .error .ensureFailed
  else
    let max := (b.addr+b.size-size)%2^32/align.toNat*align.toNat
    let addr := alignU32 b.addr align.toNat
    if max < b.addr ∨ max < addr then .ok (0,s)
    else
      match searchLoop b s flags size align.toNat max (2^20) addr with
      | .error e => .error e
      | .ok none => .ok (0,s)
      | .ok (some (addr,s')) =>
        .ok ((addr+guardOffset (hasFlag flags stackGuarded))%2^32,s')

def falloc (b : Block) (s : BlockState) (addr origSize : BitVec 32) (src : Bool)
    (flags : BitVec 64) : Except VmError (Bool × BlockState) :=
  let flags := b.allocFlags src flags
  let misalignment := addr.toNat%minPageSize flags
  let size0 := (origSize.toNat+misalignment)%2^32
  let size := alignU32 size0 (minPageSize flags)
  if size=0 ∨ addr.toNat < b.addr ∨ size0 < origSize.toNat ∨ size < origSize.toNat ∨
      b.addr+b.size < addr.toNat-misalignment+size ∨
      (src=true ∧ (origSize ||| addr).toNat%minPageSize flags≠0) ∨
      hasFlag flags stackGuarded=true then
    .ok (false,s)
  else if hasFlag b.flags preallocated && src then .error .ensureFailed
  else
    match tryAlloc b s (addr.toNat-misalignment) flags size with
    | .error e => .error e
    | .ok none => .ok (false,s)
    | .ok (some s') => .ok (true,s')

/-- The size of the mapping found from page `i` on, among `count` pages. -/
def unmapScan (pages : Pages) : ℕ → ℕ → ℕ → BitVec 8 → Except VmError ℕ
  | 0, _, size, _ => .ok size
  | count+1, i, size, mapFlags =>
    if pages i &&& pageAllocated=0 then .ok size
    else
      let flags := pages i &&& ~~~(pageWritable ||| pageReadable)
      if size≠0 ∧ mapFlags≠flags then .error .inconsistency
      else unmapScan pages count (i+1) (size+4096) flags

def pageUnmap (pages : Pages) (addr maxSize : ℕ) : Except VmError (ℕ × Pages) :=
  if maxSize=0 ∨ maxSize%4096≠0 ∨ addr%4096≠0 then .error .invalidArguments
  else
    match unmapScan pages (maxSize/4096) (addr/4096) 0 0 with
    | .error e => .error e
    | .ok size =>
      if size=0 then .error .noMapping
      else .ok (size,fillPages pages (addr/4096) (addr/4096+size/4096) 0)

/-- Both guard pages are exchanged to `0`; both must be `page_allocated` alone. -/
def unmapGuards (pages : Pages) (addr size : ℕ) : Except VmError Pages :=
  let first := addr/4096-1
  let last := addr/4096+size/4096
  if pages first≠pageAllocated then .error .ensureFailed
  else
    let pages := Function.update pages first 0
    if pages last≠pageAllocated then .error .ensureFailed
    else .ok (Function.update pages last 0)

/-- The size given back, or `0`. -/
def dealloc (b : Block) (s : BlockState) (addr : BitVec 32) : Except VmError (ℕ × BlockState) :=
  let key := (addr.toNat+2^32-guardOffset b.guarded)%2^32
  match s.map.find? (fun e => e.1 == key) with
  | none => .ok (0,s)
  | some found =>
    let size := found.2-guardSize b.guarded
    match (if b.guarded then unmapGuards s.pages addr.toNat size else .ok s.pages) with
    | .error e => .error e
    | .ok pages =>
      match pageUnmap pages addr.toNat size with
      | .error e => .error e
      | .ok (unmapped,pages) =>
        if size≠unmapped then .error .ensureFailed
        else .ok (size,{pages, map := s.map.filter (fun e => e.1≠key)})

end PS3Native.Vm
