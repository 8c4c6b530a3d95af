import Mathlib.Algebra.BigOperators.Group.List.Basic
import PS3Native.Psf

/-!
# PSF files read back

`save_object` lays out the tables with running offsets, and `load` finds each entry through its
own offsets.
-/
namespace PS3Native.Psf
open List

open PathComponents (ascii)

def Index.bytes (i : Index) : Bytes :=
  leBytes 2 i.keyOff.toNat++leBytes 2 i.paramFmt.toNat++leBytes 4 i.paramLen.toNat ++
    leBytes 4 i.paramMax.toNat++leBytes 4 i.dataOff.toNat

/-- The first loop of `save_object`: the indices and the size of the key table. -/
def makeIndices : Registry → ℕ → ℕ → Option (List Index × ℕ)
  | [], keyOffset, _ => some ([],keyOffset)
  | (key,entry)::rest, keyOffset, dataOffset => do
    let keyOff ← narrow keyOffset
    let paramLen ← entry.size
    let dataOff ← narrow dataOffset
    let keySize ← narrow (key.length+1)
    let (indices,keyOffset) ←
      makeIndices rest (keyOffset+keySize.toNat) (dataOffset+entry.max.toNat)
    some (⟨keyOff.toUInt16,entry.type,paramLen,entry.max,dataOff⟩::indices,keyOffset)

def keyTable (r : Registry) : Bytes := r.flatMap fun e => e.1++[0]

/-- What is written for an entry: its value, shortened if it is not valid, and zeros up to the
maximum. -/
def Entry.data : Entry → Bytes
  | text e =>
    let value := e.value.take (e.maxSize.toNat-e.format.nts)
    value++List.replicate (e.maxSize.toNat-value.length) 0
  | integer value => leBytes 4 value.toNat

def dataTable (r : Registry) : Bytes := r.flatMap fun e => e.2.data

def header (offKeyTable offDataTable entriesNum : ℕ) : Bytes :=
  leBytes 4 0x46535000++leBytes 4 0x101++leBytes 4 offKeyTable++leBytes 4 offDataTable ++
    leBytes 4 entriesNum

/-- `psf::save_object` into an empty container; nothing if it throws. -/
def saveObject (r : Registry) : Option Bytes := do
  let (indices,keyOffset) ← makeIndices r 0 0
  let keyOffset := alignUp keyOffset 4
  let offKeyTable ← narrow (20+16*r.length)
  let offDataTable ← narrow (offKeyTable.toNat+keyOffset)
  let entriesNum ← narrow r.length
  let written := header offKeyTable.toNat offDataTable.toNat entriesNum.toNat ++
    indices.flatMap Index.bytes++keyTable r
  some (written++List.replicate (offDataTable.toNat-written.length) 0++dataTable r)

theorem Index.length_bytes (i : Index) : i.bytes.length=16 := by simp [bytes]

theorem leNat_leBytes_uint32 (x : UInt32) : (leNat (leBytes 4 x.toNat)).toUInt32=x := by
  rw [leNat_leBytes x.toNat_lt]
  exact UInt32.ofNat_toNat

theorem leNat_leBytes_uint16 (x : UInt16) : (leNat (leBytes 2 x.toNat)).toUInt16=x := by
  rw [leNat_leBytes x.toNat_lt]
  exact UInt16.ofNat_toNat

theorem Index.ofBytes_bytes (i : Index) : ofBytes i.bytes=i := by
  have hkey : (ofBytes i.bytes).keyOff=i.keyOff := leNat_leBytes_uint16 i.keyOff
  have hfmt : (ofBytes i.bytes).paramFmt=i.paramFmt := leNat_leBytes_uint16 i.paramFmt
  have hlen : (ofBytes i.bytes).paramLen=i.paramLen := leNat_leBytes_uint32 i.paramLen
  have hmax : (ofBytes i.bytes).paramMax=i.paramMax := leNat_leBytes_uint32 i.paramMax
  have hdata : (ofBytes i.bytes).dataOff=i.dataOff := leNat_leBytes_uint32 i.dataOff
  exact congr (congr (congr (congr (congrArg Index.mk hkey) hfmt) hlen) hmax) hdata

theorem Index.ofTable_bytes (indices : List Index) :
    ofTable indices.length (indices.flatMap bytes)=indices := by
  induction indices with
  | nil => rfl
  | cons i rest ih =>
    rw [length_cons,ofTable,flatMap_cons,take_left' i.length_bytes,
      drop_left' i.length_bytes,ofBytes_bytes,ih]

theorem Entry.length_data (entry : Entry) : entry.data.length=entry.max.toNat := by
  cases entry with
  | text e =>
    simp only [data,max,length_append,length_take,length_replicate]
    omega
  | integer value => exact length_leBytes 4 _

variable {n : ℕ} {entry : Entry} {key : Bytes}

theorem narrow_eq (h : n < 4294967296) : narrow n = some n.toUInt32 := if_pos h

theorem toNat_toUInt32 (h : n < 4294967296) : n.toUInt32.toNat=n := UInt32.toNat_ofNat_of_lt' h

/-- What a registry must be like to be read back: the keys and the strings have no zeros in them,
the values are valid. -/
def Readable (e : Bytes × Entry) : Prop :=
  0∉e.1 ∧ e.2.isValid ∧ ∀ t, e.2 = .text t → t.format=.string → 0∉t.value

theorem Entry.size_eq (h : entry.isValid) : ∃ len, entry.size = some len ∧ len ≤ entry.max ∧
      ∀ t, entry = .text t → len.toNat = t.value.length+t.format.nts := by
  cases entry with
  | integer value => exact ⟨4,rfl,UInt32.le_refl 4,by simp⟩
  | text e =>
    have hroom := e.room
    have hmax := e.maxSize.toNat_lt
    have hlen : e.value.length+e.format.nts ≤ e.maxSize.toNat := by
      have := of_decide_eq_true h
      omega
    have hto := toNat_toUInt32 (lt_of_le_of_lt hlen hmax)
    have hle : (e.value.length+e.format.nts).toUInt32 ≤ e.maxSize := by
      rwa [UInt32.le_iff_toNat_le,hto]
    refine ⟨(e.value.length+e.format.nts).toUInt32,?_,hle,?_⟩
    · rw [size,narrow_eq (lt_of_le_of_lt hlen hmax),Option.map_some]
      split
      · rfl
      · rw [UInt32.le_antisymm hle (UInt32.not_lt.1 ‹_›)]
    · rintro t ht
      cases ht
      exact hto

theorem takeWhile_ne_zero (h : 0∉key) (rest : Bytes) : (key++0::rest).takeWhile (·≠0)=key := by
  have hne : ∀ b∈key, decide (b≠0) := by
    intro b hb
    rw [decide_eq_true_eq]
    rintro rfl
    exact h hb
  rw [takeWhile_append_of_pos hne]
  simp

theorem emplace_of_lt {sfo : Registry} (h : ∀ e∈sfo, e.1 < key) :
    emplace key entry sfo = sfo++[(key,entry)] := by
  induction sfo with
  | nil => rfl
  | cons e rest ih =>
    rw [emplace,if_pos (h e mem_cons_self),ih fun e he => h e (mem_cons_of_mem _ he)]
    rfl

theorem Entry.max_pos (entry : Entry) : 0 < entry.max.toNat := by
  cases entry with
  | text e => exact lt_of_le_of_lt (Nat.zero_le _) e.room
  | integer value => exact Nat.zero_lt_succ 3

theorem TextFormat.ofCode_code (format : TextFormat) : ofCode format.code = some format := by
  cases format <;> rfl

/-- The value of a text entry is what is left of its data up to the length that is saved. -/
theorem TextEntry.value_of_data {e : TextEntry} (hvalid : (Entry.text e).isValid)
    (hstring : e.format=.string → 0∉e.value) :
    (let value := (Entry.text e).data.take (e.value.length+e.format.nts)
      if e.format=.string then value.takeWhile (·≠0) else value)=e.value := by
  have hroom := e.room
  have hle : e.value.length ≤ e.maxSize.toNat-e.format.nts := of_decide_eq_true hvalid
  have hdata : (Entry.text e).data = e.value++replicate (e.maxSize.toNat-e.value.length) 0 := by
    rw [Entry.data,take_of_length_le hle]
  cases hformat : e.format with
  | array => simp [hdata,TextFormat.nts]
  | string =>
    rw [hformat,TextFormat.nts] at hle hroom
    obtain ⟨n,hn⟩ : ∃ n, e.maxSize.toNat-e.value.length = n+1 :=
      ⟨e.maxSize.toNat-e.value.length-1,by omega⟩
    rw [hdata,hn,replicate_succ,TextFormat.nts,append_cons,take_left' (by simp)]
    exact takeWhile_ne_zero (hstring hformat) []

/-- An entry is found where the running offsets say that it is. -/
theorem loadEntry_saved {t : Tables} {sfo : Registry} (hreadable : Readable (key,entry))
    (hsfo : ∀ e∈sfo, e.1 < key) {keysBefore keysAfter : Bytes}
    (hkeys : t.keys = keysBefore++(key++0::keysAfter)) (i : Index)
    (hkeyOff : i.keyOff.toNat=keysBefore.length) {before after : Bytes}
    (hfile : t.file = before++(entry.data++after))
    (hbefore : before.length = t.offDataTable+i.dataOff.toNat)
    (hsmall : before.length < 4294967296) (hoff : 0 < t.offDataTable)
    (hfmt : i.paramFmt=entry.type) (hlen : entry.size = some i.paramLen)
    (hmax : i.paramMax=entry.max) : t.loadEntry sfo i = some (some (sfo++[(key,entry)])) := by
  obtain ⟨hkey,hvalid,hstring⟩ := hreadable
  obtain ⟨len,hsize,hle,hvalue⟩ := Entry.size_eq hvalid
  obtain rfl : i.paramLen=len := Option.some.inj (hlen.symm.trans hsize)
  have hpos := entry.max_pos
  have hkeyEq : t.key i=key := by
    rw [Tables.key,hkeyOff,hkeys,drop_left,takeWhile_ne_zero hkey]
  have hlenLe : i.paramLen.toNat ≤ entry.data.length := by
    rw [entry.length_data]
    exact UInt32.le_iff_toNat_le.1 hle
  have hlength : t.file.length = before.length+(entry.max.toNat+after.length) := by
    rw [hfile,length_append,length_append,entry.length_data]
  have hdata : t.data i = some (entry.data.take i.paramLen.toNat) := by
    have hslice : slice t.file ((t.offDataTable+i.dataOff.toNat)%4294967296) i.paramLen.toNat =
        entry.data.take i.paramLen.toNat := by
      rw [slice,hfile,← hbefore,Nat.mod_eq_of_lt hsmall,drop_left,take_append_of_le_length hlenLe]
    rw [Tables.data,readAt,hslice,if_pos (by rw [length_take,Nat.min_eq_left hlenLe])]
  have hchecked : t.Checked (sfo.map Prod.fst) i := by
    refine ⟨?_,?_,by rwa [hmax],by omega,by rw [hmax]; omega⟩
    · rw [hkeyOff,hkeys,length_append,length_append,length_cons]
      omega
    · rw [hkeyEq,mem_map]
      rintro ⟨e,he,rfl⟩
      exact List.lt_irrefl _ (hsfo e he)
  rw [Tables.loadEntry,if_pos hchecked,hkeyEq,← emplace_of_lt hsfo]
  cases entry with
  | integer value =>
    have hfour : i.paramLen=4 := Option.some.inj hsize.symm
    rw [if_pos ⟨hfmt,hmax,hfour⟩,hdata,hfour]
    simp only [Entry.data]
    rw [take_of_length_le (by simp),leNat_leBytes_uint32]
  | text e =>
    have hcode : ¬(i.paramFmt=integerCode ∧ i.paramMax=4 ∧ i.paramLen=4) := by
      rw [hfmt]
      rintro ⟨hint,-⟩
      cases hformat : e.format <;> simp [Entry.type,hformat,TextFormat.code,integerCode] at hint
    have hroom : e.format.nts < i.paramMax.toNat := hmax ▸ e.room
    rw [if_neg hcode,hfmt,Entry.type,TextFormat.ofCode_code,hdata,hvalue e rfl]
    simp only
    rw [dif_pos hroom]
    have hentry (maxSize : UInt32) (value : Bytes) (room : e.format.nts < maxSize.toNat)
        (hmaxSize : maxSize=e.maxSize) (hvalue : value=e.value) :
        (⟨e.format,maxSize,value,room⟩ : TextEntry)=e := by
      subst hmaxSize hvalue
      rfl
    rw [hentry _ _ hroom hmax (e.value_of_data hvalid (hstring e rfl))]

@[simp] theorem keyTable_cons (e : Bytes × Entry) (r : Registry) :
    keyTable (e::r) = e.1++[0]++keyTable r := rfl

@[simp] theorem dataTable_cons (e : Bytes × Entry) (r : Registry) :
    dataTable (e::r) = e.2.data++dataTable r := rfl

def OffsetsFit (dataOffset : ℕ) (r : Registry) : Prop :=
  ∀ before e after, r = before++e::after → dataOffset+(dataTable before).length < 4294967296

/-- The entries that have been saved are loaded, and their keys take up the key table. -/
theorem loadEntries_saved {t : Tables} (hoff : 0 < t.offDataTable) (r : Registry)
    (hreadable : ∀ e∈r, Readable e) (sfo : Registry) (hsorted : (sfo++r).Pairwise (·.1 < ·.1))
    (keysBefore : Bytes) {keysAfter : Bytes} (hkeys : t.keys = keysBefore++(keyTable r++keysAfter))
    (hshort : keysBefore.length+(keyTable r).length < 65536) (before : Bytes) (dataOffset : ℕ)
    (hfile : t.file = before++dataTable r) (hbefore : before.length = t.offDataTable+dataOffset)
    (hfit : OffsetsFit (t.offDataTable+dataOffset) r) :
    ∃ indices, makeIndices r keysBefore.length dataOffset =
        some (indices,keysBefore.length+(keyTable r).length) ∧
      indices.length=r.length ∧ t.loadEntries sfo indices = some (some (sfo++r)) := by
  induction r generalizing sfo keysBefore before dataOffset with
  | nil => exact ⟨[],rfl,rfl,by rw [append_nil]; rfl⟩
  | cons e rest ih =>
    obtain ⟨key,entry⟩ := e
    have he := hreadable _ mem_cons_self
    obtain ⟨len,hlen,-⟩ := Entry.size_eq he.2.1
    have hsmall : t.offDataTable+dataOffset < 4294967296 := by
      have hfirst := hfit [] (key,entry) rest rfl
      simpa [dataTable] using hfirst
    have hdata : dataOffset < 4294967296 := by omega
    have hsfo : ∀ e∈sfo, e.1 < key := fun e he =>
      (pairwise_append.1 hsorted).2.2 e he (key,entry) mem_cons_self
    have hrest : OffsetsFit (t.offDataTable+(dataOffset+entry.max.toNat)) rest := by
      rintro before e after rfl
      have hnext := hfit ((key,entry)::before) e after rfl
      rw [dataTable_cons,length_append,entry.length_data] at hnext
      omega
    simp only [keyTable_cons,length_append,length_singleton] at hshort
    have hkeyOff : keysBefore.length.toUInt32.toUInt16.toNat=keysBefore.length := by
      rw [UInt32.toNat_toUInt16,toNat_toUInt32 (by omega),Nat.mod_eq_of_lt (by omega)]
    let i : Index :=
      ⟨keysBefore.length.toUInt32.toUInt16,entry.type,len,entry.max,dataOffset.toUInt32⟩
    have hstep := loadEntry_saved he hsfo (by simpa using hkeys) i hkeyOff
      (by simpa using hfile) (by simpa [i,toNat_toUInt32 hdata] using hbefore) (by omega) hoff rfl
      hlen rfl
    obtain ⟨indices,hindices,hcount,hload⟩ := ih
      (fun e he => hreadable e (mem_cons_of_mem _ he)) (sfo++[(key,entry)])
      (by simpa using hsorted) (keysBefore++(key++[0])) (by simpa using hkeys) (by simp; omega)
      (before++entry.data) (dataOffset+entry.max.toNat) (by simpa using hfile)
      (by simp [hbefore,entry.length_data]; omega) hrest
    refine ⟨i::indices,?_,congrArg (·+1) hcount,?_⟩
    swap
    · rw [Tables.loadEntries,hstep]
      simpa using hload
    · have hkeySize : key.length+1 < 4294967296 := by omega
      rw [length_append,length_append,length_singleton] at hindices
      simp only [makeIndices,narrow_eq hdata,hlen,narrow_eq hkeySize,toNat_toUInt32 hkeySize,
        narrow_eq (show keysBefore.length < 4294967296 by omega),hindices,Option.bind_eq_bind,
        Option.bind_some]
      simp [i]
      omega

theorem length_le_keyTable (r : Registry) : r.length ≤ (keyTable r).length := by
  induction r with
  | nil => exact Nat.zero_le _
  | cons e rest ih =>
    simp only [keyTable_cons,length_append,length_cons,length_nil]
    omega

theorem Index.length_flatMap_bytes (indices : List Index) :
    (indices.flatMap bytes).length = 16*indices.length := by
  induction indices with
  | nil => rfl
  | cons i rest ih =>
    rw [flatMap_cons,length_append,ih,length_bytes,length_cons]
    omega

theorem length_header (offKeyTable offDataTable entriesNum : ℕ) :
    (header offKeyTable offDataTable entriesNum).length=20 := rfl

theorem readAt_append {file before piece after : Bytes} {pos : ℕ}
    (hfile : file = before++(piece++after)) (hpos : before.length=pos) (hn : piece.length=n) :
    readAt file pos n = some piece := by
  have hslice : slice file pos n=piece := by
    rw [slice,hfile,drop_left' hpos,take_left' hn]
  rw [readAt,hslice,if_pos hn]

/-- The tables of a file that consists of a header, indices, keys and data. -/
theorem loadTables_append {offKeyTable offDataTable : ℕ} {indices : List Index} {keys data : Bytes}
    (hkey : offKeyTable = 20+16*indices.length)
    (hdata : offDataTable = offKeyTable+keys.length) (hsmall : offDataTable < 4294967296)
    {file : Bytes} (hfile : file = header offKeyTable offDataTable indices.length ++
      (indices.flatMap Index.bytes++(keys++data))) :
    loadTables file = .ok (⟨file,offDataTable,keys⟩,indices) := by
  have hcount := Index.length_flatMap_bytes indices
  have hlength : file.length = offDataTable+data.length := by
    rw [hfile]
    simp only [header,length_append,length_leBytes,hcount]
    omega
  have hheader : readAt file 0 20 = some (header offKeyTable offDataTable indices.length) := by
    rw [← nil_append (header _ _ _++_)] at hfile
    exact readAt_append hfile rfl rfl
  have hindices : readAt file 20 (16*indices.length) = some (indices.flatMap Index.bytes) :=
    readAt_append hfile rfl hcount
  have hkeys : readAt file offKeyTable (offDataTable-offKeyTable) = some keys := by
    rw [← append_assoc] at hfile
    exact readAt_append hfile (by rw [length_append,hcount,hkey]; rfl) (by omega)
  have hfield (n : ℕ) (h : n < 4294967296) : leNat (leBytes 4 n)=n := leNat_leBytes h
  have hkeyField : leNat (slice (header offKeyTable offDataTable indices.length) (4*2) 4) =
      offKeyTable := hfield _ (by omega)
  have hdataField : leNat (slice (header offKeyTable offDataTable indices.length) (4*3) 4) =
      offDataTable := hfield _ (by omega)
  have hnumField : leNat (slice (header offKeyTable offDataTable indices.length) (4*4) 4) =
      indices.length := hfield _ (by omega)
  rw [loadTables,hheader]
  simp only [hkeyField,hdataField,hnumField]
  rw [if_neg ?_,if_neg (by omega),hindices,hkeys]
  · simp only [Index.ofTable_bytes]
  · exact fun h => h.elim (fun h => h (hfield _ (by decide))) fun h => h (hfield _ (by decide))

/-- For every registry with keys and strings without zeros, valid values and a category that is
accepted, such that the key table is below 64 KiB and each entry's data starts below 4 GiB in the
file, saving succeeds and loading the file gives the registry. -/
theorem psf_load_inverts_save (r : Registry) (hsorted : r.Pairwise (·.1 < ·.1))
    (hreadable : ∀ e∈r, Readable e) (hcategory : getString r (ascii "CATEGORY") []∈validCats)
    (hshort : (keyTable r).length < 65536)
    (hfit : OffsetsFit (20+16*r.length+alignUp (keyTable r).length 4) r) :
    ∃ file, saveObject r = some file ∧ load file = some ⟨r,.ok⟩ := by
  have hcount := length_le_keyTable r
  obtain ⟨keyOffset,hkeyOffset⟩ : ∃ n, alignUp (keyTable r).length 4=n := ⟨_,rfl⟩
  have halign : (keyTable r).length ≤ keyOffset := hkeyOffset ▸ le_alignUp (by decide)
  have halign' : keyOffset < (keyTable r).length+4 := hkeyOffset ▸ alignUp_lt (by decide)
  obtain ⟨offDataTable,hdata⟩ : ∃ n, n = 20+16*r.length+keyOffset := ⟨_,rfl⟩
  let pad : Bytes := replicate (keyOffset-(keyTable r).length) 0
  have hpad : (keyTable r++pad).length=keyOffset := by simp [pad]; omega
  have hoff : 0 < offDataTable := by omega
  have hsaved (start : Bytes) (hstart : start.length=offDataTable) :=
    loadEntries_saved (t := ⟨start++dataTable r,offDataTable,keyTable r++pad⟩) hoff r hreadable []
      hsorted [] rfl (by simpa using hshort) start 0 rfl hstart (by rwa [Nat.add_zero,hdata,← hkeyOffset])
  -- the indices do not depend on the file
  obtain ⟨indices,hindices,hlength,-⟩ := hsaved (replicate offDataTable 0) (by simp)
  obtain ⟨start,hstart⟩ : ∃ l, l = header (20+16*r.length) offDataTable indices.length ++
    (indices.flatMap Index.bytes++(keyTable r++pad)) := ⟨_,rfl⟩
  have hstartLength : start.length=offDataTable := by
    rw [hstart,length_append,length_append,hpad,Index.length_flatMap_bytes,hlength, length_header]
    omega
  obtain ⟨indices',hindices',-,hload⟩ := hsaved start hstartLength
  obtain rfl : indices'=indices := by
    rw [hindices,Option.some_inj,Prod.mk.injEq] at hindices'
    exact hindices'.1.symm
  refine ⟨start++dataTable r,?_,?_⟩
  · have hwritten : (header (20+16*r.length) offDataTable r.length ++
        indices'.flatMap Index.bytes++keyTable r).length = 20+16*r.length+(keyTable r).length := by
      rw [length_append,length_append,Index.length_flatMap_bytes,hlength,length_header]
    have hpadding : offDataTable-(20+16*r.length+(keyTable r).length) =
        keyOffset-(keyTable r).length := by omega
    have hkeyTable : 20+16*r.length < 4294967296 := by omega
    have hdataTable : offDataTable < 4294967296 := by omega
    have hnum : r.length < 4294967296 := by omega
    simp only [length_nil,Nat.zero_add] at hindices
    simp only [saveObject,hindices,Option.bind_eq_bind,Option.bind_some,hkeyOffset,
      narrow_eq hkeyTable,toNat_toUInt32 hkeyTable,← hdata,narrow_eq hdataTable,
      toNat_toUInt32 hdataTable,narrow_eq hnum,toNat_toUInt32 hnum]
    rw [hwritten,hpadding,hstart,hlength]
    simp only [append_assoc]
    rfl
  · have hfile : start++dataTable r = header (20+16*r.length) offDataTable indices'.length ++
        (indices'.flatMap Index.bytes++(keyTable r++pad++dataTable r)) := by
      rw [hstart,append_assoc,append_assoc]
    rw [load,loadTables_append (by rw [hlength]) (by rw [hpad,hdata]) (by omega) hfile]
    simp only [hload,Option.map_some,nil_append,checkCategory]
    rw [if_pos hcategory]

def category : Bytes × Entry := (ascii "CATEGORY",.text ⟨.string,4,ascii "DG",by decide⟩)

theorem psf_load_inverts_save_two_entries :
    ∃ file, saveObject [category,(ascii "PS3_SYSTEM_VER",.integer 7)] = some file ∧
      load file = some ⟨[category,(ascii "PS3_SYSTEM_VER",.integer 7)],.ok⟩ := by
  refine psf_load_inverts_save _ (by decide) ?_ (by decide) (by decide) ?_
  · simp [Readable,category,Entry.isValid,ascii,TextFormat.nts]
  · rintro before e after h
    have hlength := congrArg (fun r => (dataTable r).length) h
    simp only [dataTable,flatMap_append,length_append] at hlength ⊢
    have hall : (dataTable [category,(ascii "PS3_SYSTEM_VER",.integer 7)]).length=8 := by decide
    have hkeys : (keyTable [category,(ascii "PS3_SYSTEM_VER",.integer 7)]).length=24 := by decide
    rw [dataTable] at hall
    rw [hkeys,show alignUp 24 4=24 by decide,length_cons,length_singleton]
    omega

def wideRegistry : Registry :=
  [(ascii "A",.text ⟨.array,4294967295,[],by decide⟩),(ascii "B",.text ⟨.array,1,[],by decide⟩),
    category]

/-- Such a registry is not saved: its third data offset does not fit. -/
theorem psf_save_refuses_wide_registry :
    wideRegistry.Pairwise (·.1 < ·.1) ∧ (∀ e∈wideRegistry, Readable e) ∧
      getString wideRegistry (ascii "CATEGORY") []∈validCats ∧
      (keyTable wideRegistry).length < 65536 ∧ saveObject wideRegistry=none := by
  refine ⟨by decide,?_,by decide,by decide,by decide⟩
  simp [wideRegistry,Readable,category,Entry.isValid,ascii,TextFormat.nts]

end PS3Native.Psf
