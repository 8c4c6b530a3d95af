import PS3Native.Alignment
import PS3Native.Endian
import PS3Native.PathComponents
import PS3Native.Slices

/-!
# PSF files

A PSF file has a header, an index of its entries, a table of keys that zeros end and a table of
data. `load` reads a registry from it and `save_object` writes one.
-/
namespace PS3Native.Psf
open List

open PathComponents (ascii)

abbrev Bytes := List UInt8

/-- The values of `psf::format` for text. -/
inductive TextFormat
  | array
  | string
deriving DecidableEq, Repr

def TextFormat.code : TextFormat → UInt16
  | array => 0x0004
  | string => 0x0204

def integerCode : UInt16 := 0x0404

def TextFormat.ofCode (code : UInt16) : Option TextFormat :=
  if code=string.code then some string else if code=array.code then some array else none

/-- The size of the terminator that a string has and an array does not. -/
def TextFormat.nts : TextFormat → ℕ
  | array => 0
  | string => 1

/-- An entry that holds text. The constructor ensures that there is room for more than the
terminator. -/
structure TextEntry where
  format : TextFormat
  maxSize : UInt32
  value : Bytes
  room : format.nts < maxSize.toNat
deriving DecidableEq, Repr

/-- `psf::entry` -/
inductive Entry
  | text (entry : TextEntry)
  | integer (value : UInt32)
deriving DecidableEq, Repr

def Entry.isValid : Entry → Bool
  | text e => e.value.length ≤ e.maxSize.toNat-e.format.nts
  | integer _ => true

def Entry.type : Entry → UInt16
  | text e => e.format.code
  | integer _ => integerCode

def Entry.max : Entry → UInt32
  | text e => e.maxSize
  | integer _ => 4

/-- `narrow<u32>`; nothing if it throws. -/
def narrow (n : ℕ) : Option UInt32 := if n < 4294967296 then some n.toUInt32 else none

def Entry.size : Entry → Option UInt32
  | text e =>
    (narrow (e.value.length+e.format.nts)).map fun n => if n < e.maxSize then n else e.maxSize
  | integer _ => some 4

abbrev Registry := List (Bytes × Entry)

def emplace (key : Bytes) (entry : Entry) : Registry → Registry
  | [] => [(key,entry)]
  | e::rest => if e.1 < key then e::emplace key entry rest else (key,entry)::e::rest

def getString (sfo : Registry) (key default : Bytes) : Bytes :=
  match sfo.lookup key with
  | some (.text e) => e.value
  | _ => default

def validCats : List Bytes :=
  ["GD","DG","HG","AM","AP","AS","AT","AV","BV","WT","HM","CB","SF","2P","2G","1P","PP",
    "MN","PE","2D","SD","MS"].map ascii

/-- `def_table_t` -/
structure Index where
  keyOff : UInt16
  paramFmt : UInt16
  paramLen : UInt32
  paramMax : UInt32
  dataOff : UInt32
deriving DecidableEq, Repr

def Index.ofBytes (b : Bytes) : Index where
  keyOff := (leNat (slice b 0 2)).toUInt16
  paramFmt := (leNat (slice b 2 2)).toUInt16
  paramLen := (leNat (slice b 4 4)).toUInt32
  paramMax := (leNat (slice b 8 4)).toUInt32
  dataOff := (leNat (slice b 12 4)).toUInt32

inductive Error
  | ok
  | stream
  | notPsf
  | corrupt
deriving DecidableEq, Repr

structure LoadResult where
  sfo : Registry
  errc : Error
deriving DecidableEq, Repr

/-- Reads from a position of the file; nothing if there are not so many bytes. -/
def readAt (file : Bytes) (pos n : ℕ) : Option Bytes :=
  if (slice file pos n).length=n then some (slice file pos n) else none

/-- The file with the offset of its data table and its key table. -/
structure Tables where
  file : Bytes
  offDataTable : ℕ
  keys : Bytes

namespace Tables

variable (t : Tables)

def key (i : Index) : Bytes := (t.keys.drop i.keyOff.toNat).takeWhile (·≠0)

/-- The checks of an entry, where `taken` are the keys that are there. -/
def Checked (taken : List Bytes) (i : Index) : Prop :=
  i.keyOff.toNat < t.keys.length ∧ t.key i∉taken ∧ i.paramLen ≤ i.paramMax ∧
    i.dataOff.toNat < t.file.length-t.offDataTable ∧
    i.paramMax.toNat < t.file.length-i.dataOff.toNat

instance (taken : List Bytes) (i : Index) : Decidable (t.Checked taken i) :=
  inferInstanceAs (Decidable (_ ∧ _))

def data (i : Index) : Option Bytes :=
  readAt t.file ((t.offDataTable+i.dataOff.toNat)%4294967296) i.paramLen.toNat

/-- One round of the loop of `load`: the registry, no registry if the file is corrupt, and nothing
if the constructor of the entry stops the program. -/
def loadEntry (sfo : Registry) (i : Index) : Option (Option Registry) :=
  if t.Checked (sfo.map Prod.fst) i then
    if i.paramFmt=integerCode ∧ i.paramMax=4 ∧ i.paramLen=4 then
      match t.data i with
      | none => some none
      | some value => some (some (emplace (t.key i) (.integer (leNat value).toUInt32) sfo))
    else
      match TextFormat.ofCode i.paramFmt with
      | none => some (some sfo)
      | some format =>
        match t.data i with
        | none => some none
        | some value =>
          let value := if format=.string then value.takeWhile (·≠0) else value
          if room : format.nts < i.paramMax.toNat then
            some (some (emplace (t.key i) (.text ⟨format,i.paramMax,value,room⟩) sfo))
          else none
  else some none

def loadEntries (sfo : Registry) : List Index → Option (Option Registry)
  | [] => some (some sfo)
  | i::rest =>
    match t.loadEntry sfo i with
    | some (some sfo) => loadEntries sfo rest
    | other => other

end Tables

def Index.ofTable : ℕ → Bytes → List Index
  | 0, _ => []
  | n+1, b => ofBytes (b.take 16)::ofTable n (b.drop 16)

/-- `psf::load` up to the loop: the tables and the indices, or the error. -/
def loadTables (file : Bytes) : Except Error (Tables × List Index) :=
  match readAt file 0 20 with
  | none => .error .notPsf
  | some header =>
    let field (i : ℕ) : ℕ := leNat (slice header (4*i) 4)
    let offKeyTable := field 2
    let offDataTable := field 3
    let entriesNum := field 4
    if field 0≠0x46535000 ∨ field 1≠0x101 then .error .notPsf
    else if offKeyTable < 20 ∨ offDataTable < offKeyTable ∨ file.length < offDataTable then
      .error .corrupt
    else
      match readAt file 20 (16*entriesNum), readAt file offKeyTable (offDataTable-offKeyTable) with
      | some indices, some keys => .ok (⟨file,offDataTable,keys⟩,Index.ofTable entriesNum indices)
      | _, _ => .error .corrupt

def checkCategory : Option Registry → LoadResult
  | none => ⟨[],.corrupt⟩
  | some sfo =>
    if getString sfo (ascii "CATEGORY") []∈validCats then ⟨sfo,.ok⟩ else ⟨[],.corrupt⟩

/-- `psf::load`; nothing if the program is stopped. -/
def load (file : Bytes) : Option LoadResult :=
  match loadTables file with
  | .error err => some ⟨[],err⟩
  | .ok (t,indices) => (t.loadEntries [] indices).map checkCategory

/-- Text without room for more than the terminator. -/
def Index.Undersized (i : Index) : Prop :=
  ∃ format, TextFormat.ofCode i.paramFmt = some format ∧ i.paramMax.toNat ≤ format.nts

def Index.Known (i : Index) : Prop :=
  (i.paramFmt=integerCode ∧ i.paramMax=4 ∧ i.paramLen=4) ∨ (TextFormat.ofCode i.paramFmt).isSome

instance (i : Index) : Decidable i.Known := inferInstanceAs (Decidable (_ ∨ _))

/-- Each entry that passes the checks and has its data in the file, if those before it do, has
enough room. The keys of the known entries before are in `taken`. -/
def Tables.Sized (t : Tables) (taken : List Bytes) : List Index → Prop
  | [] => True
  | i::rest =>
    t.Checked taken i → (i.Known → t.data i≠none) →
      ¬i.Undersized ∧ t.Sized (if i.Known then t.key i::taken else taken) rest

/-- What the entries of a file have to be for it to be loaded or refused. -/
def Sized (file : Bytes) : Prop :=
  ∀ t indices, loadTables file = .ok (t,indices) → t.Sized [] indices

theorem mem_emplace {key : Bytes} {entry : Entry} {sfo : Registry} {e : Bytes × Entry} :
    e∈emplace key entry sfo ↔ e = (key,entry) ∨ e∈sfo := by
  induction sfo with
  | nil => simp [emplace]
  | cons e' rest ih =>
    rw [emplace]
    split
    · rw [mem_cons,ih,mem_cons]
      tauto
    · rw [mem_cons,mem_cons]

variable {t : Tables} {sfo : Registry} {taken : List Bytes} {i : Index}

theorem Tables.loadEntry_cases (t : Tables) (sfo : Registry) (i : Index) :
    ¬(t.Checked (sfo.map Prod.fst) i ∧ (i.Known → t.data i≠none)) ∧ t.loadEntry sfo i = some none ∨
      t.Checked (sfo.map Prod.fst) i ∧ (i.Known → t.data i≠none) ∧
        (i.Undersized ∧ t.loadEntry sfo i=none ∨
          ¬i.Undersized ∧ ∃ sfo', t.loadEntry sfo i = some (some sfo') ∧
            ∀ k, k∈sfo'.map Prod.fst ↔ i.Known ∧ k = t.key i ∨ k∈sfo.map Prod.fst) := by
  unfold loadEntry
  have hkeys (entry : Entry) (k : Bytes) : k∈(emplace (t.key i) entry sfo).map Prod.fst ↔
      k = t.key i ∨ k∈sfo.map Prod.fst := by
    simp only [mem_map,mem_emplace]
    constructor
    · rintro ⟨e,rfl | he,rfl⟩
      · exact .inl rfl
      · exact .inr ⟨e,he,rfl⟩
    · rintro (rfl | ⟨e,he,rfl⟩)
      · exact ⟨_,.inl rfl,rfl⟩
      · exact ⟨e,.inr he,rfl⟩
  by_cases hchecked : t.Checked (sfo.map Prod.fst) i
  swap
  · exact .inl ⟨fun h => hchecked h.1,if_neg hchecked⟩
  rw [if_pos hchecked]
  by_cases hint : i.paramFmt=integerCode ∧ i.paramMax=4 ∧ i.paramLen=4
  · have hknown : i.Known := .inl hint
    rw [if_pos hint]
    cases hdata : t.data i with
    | none => exact .inl ⟨fun h => h.2 hknown rfl,rfl⟩
    | some value =>
      refine .inr ⟨hchecked,by simp,.inr ⟨?_,_,rfl,fun k => by simp [hkeys,hknown]⟩⟩
      rintro ⟨format,hformat,-⟩
      rw [hint.1] at hformat
      cases hformat
  · rw [if_neg hint]
    cases hformat : TextFormat.ofCode i.paramFmt with
    | none =>
      have hunknown : ¬i.Known := by simp [Index.Known,hint,hformat]
      refine .inr ⟨hchecked,fun h => absurd h hunknown,.inr ⟨?_,sfo,rfl,by simp [hunknown]⟩⟩
      rintro ⟨format,hsome,-⟩
      rw [hformat] at hsome
      cases hsome
    | some format =>
      have hknown : i.Known := .inr (by rw [hformat]; rfl)
      have hundersized : i.Undersized ↔ i.paramMax.toNat ≤ format.nts := by
        simp [Index.Undersized,hformat]
      cases hdata : t.data i with
      | none => exact .inl ⟨fun h => h.2 hknown rfl,rfl⟩
      | some value =>
        refine .inr ⟨hchecked,by simp,?_⟩
        by_cases hroom : format.nts < i.paramMax.toNat
        · refine .inr ⟨?_,_,dif_pos hroom,fun k => by simp [hkeys,hknown]⟩
          rwa [hundersized,not_le]
        · exact .inl ⟨hundersized.2 (not_lt.1 hroom),dif_neg hroom⟩

/-- The loop stops the program exactly if an entry is too small. -/
theorem Tables.loadEntries_ne_none (t : Tables) (sfo : Registry) (taken : List Bytes)
    (indices : List Index) (h : ∀ k, k∈taken ↔ k∈sfo.map Prod.fst) :
    t.loadEntries sfo indices≠none ↔ t.Sized taken indices := by
  induction indices generalizing sfo taken with
  | nil => simp [loadEntries,Sized]
  | cons i rest ih =>
    rw [loadEntries,Sized,Checked,h,← Checked]
    rcases t.loadEntry_cases sfo i with ⟨hfails,hstep⟩ | ⟨hchecked,hdata,hstep⟩
    · rw [hstep]
      simp only [ne_eq,reduceCtorEq,not_false_eq_true,true_iff]
      exact fun hchecked hdata => absurd ⟨hchecked,hdata⟩ hfails
    · rcases hstep with ⟨hsmall,hstep⟩ | ⟨hroom,sfo',hstep,hkeys⟩
      · rw [hstep]
        simp only [ne_eq,not_true_eq_false,false_iff]
        exact fun hsized => (hsized hchecked hdata).1 hsmall
      · have htaken (k : Bytes) :
            k∈(if i.Known then t.key i::taken else taken) ↔ k∈sfo'.map Prod.fst := by
          split <;> simp [*]
        rw [hstep]
        simp only [ih sfo' _ htaken]
        exact ⟨fun hsized _ _ => ⟨hroom,hsized⟩,fun hsized => (hsized hchecked hdata).2⟩

theorem checkCategory_errc (entries : Option Registry) :
    (checkCategory entries).errc≠.ok → (checkCategory entries).sfo=[] := by
  cases entries with
  | none => exact fun _ => rfl
  | some sfo =>
    rw [checkCategory]
    split
    · exact fun h => absurd rfl h
    · exact fun _ => rfl

/-- For every file, `load` returns a registry or an error with an empty registry exactly if no
entry that it comes to is text with too small a maximum. The entries of a registry have the
properties that the constructor ensures. -/
theorem psf_load_total_iff (file : Bytes) :
    (∃ result, load file = some result ∧ (result.errc≠.ok → result.sfo=[])) ↔ Sized file := by
  unfold load Sized
  cases htables : loadTables file with
  | error err => simp
  | ok found =>
    obtain ⟨t,indices⟩ := found
    have hsized : (∀ t' indices', Except.ok (t,indices) = (Except.ok (t',indices') : Except Error _) →
        t'.Sized [] indices') ↔ t.Sized [] indices :=
      ⟨fun h => h t indices rfl,fun h t' indices' heq => by cases heq; exact h⟩
    rw [hsized,← t.loadEntries_ne_none [] [] indices (by simp),Option.ne_none_iff_exists']
    constructor
    · rintro ⟨result,hresult,-⟩
      obtain ⟨entries,hentries,-⟩ := Option.map_eq_some_iff.1 hresult
      exact ⟨entries,hentries⟩
    · rintro ⟨entries,hentries⟩
      exact ⟨_,Option.map_eq_some_iff.2 ⟨entries,hentries,rfl⟩,checkCategory_errc entries⟩

def undersizedFile : Bytes :=
  leBytes 4 0x46535000++leBytes 4 0x101++leBytes 4 36++leBytes 4 40++leBytes 4 1 ++
    (leBytes 2 0++leBytes 2 0x0204++leBytes 4 1++leBytes 4 1++leBytes 4 0) ++
    [0x41,0,0,0]++[0]

theorem psf_load_stops_at_small_string : load undersizedFile=none := by decide +kernel

end PS3Native.Psf
