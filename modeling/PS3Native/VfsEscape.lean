import PS3Native.PathComponents

/-!
# Escaped file names

`vfs::escape` writes reserved characters of a guest name as their full-width look-alikes, puts `！`
in front of a full-width character of the name itself, and writes a byte that is not part of UTF-8
as `％` and two digits. `vfs::unescape` reads it back.
-/
namespace PS3Native.VfsEscape

open PathComponents

abbrev Bytes := List UInt8

def getChar (name : Bytes) (pos : ℕ) : UInt8 := name.getD pos 0

/-- The full-width character U+FF00 to U+FF3F with this last byte. -/
def wide (third : UInt8) : Bytes := [0xEF,0xBC,third]

/-- The full-width character U+FF40 to U+FF7F with this last byte. -/
def wideHigh (third : UInt8) : Bytes := [0xEF,0xBD,third]

def IsContinuation (b : UInt8) : Prop := 0x80 ≤ b ∧ b ≤ 0xBF

instance (b : UInt8) : Decidable (IsContinuation b) :=
  inferInstanceAs (Decidable (0x80 ≤ b ∧ b ≤ 0xBF))

/-- The size that the first two bytes announce. -/
def announcedSize (b0 b1 : UInt8) : ℕ :=
  if 0xC2 ≤ b0 ∧ b0 ≤ 0xDF ∧ 0x80 ≤ b1 ∧ b1 ≤ 0xBF then 2
  else if b0=0xE0 ∧ 0xA0 ≤ b1 ∧ b1 ≤ 0xBF then 3
  else if b0=0xED ∧ 0x80 ≤ b1 ∧ b1 ≤ 0x9F then 3
  else if 0xE1 ≤ b0 ∧ b0 ≤ 0xEF ∧ 0x80 ≤ b1 ∧ b1 ≤ 0xBF then 3
  else if b0=0xF0 ∧ 0x90 ≤ b1 ∧ b1 ≤ 0xBF then 4
  else if b0=0xF4 ∧ 0x80 ≤ b1 ∧ b1 ≤ 0x8F then 4
  else if 0xF1 ≤ b0 ∧ b0 ≤ 0xF3 ∧ 0x80 ≤ b1 ∧ b1 ≤ 0xBF then 4
  else 0

def utf8SequenceSize (name : Bytes) : ℕ :=
  if getChar name 0 < 0x80 then 1
  else
    let size := announcedSize (getChar name 0) (getChar name 1)
    if (List.range' 2 (size-2)).all fun i => IsContinuation (getChar name i) then size else 0

/-- The last two bytes of U+FF01 to U+FF5E. -/
def IsFullWidth (c2 c3 : UInt8) : Prop :=
  (c2=0xBC ∧ 0x81 ≤ c3 ∧ c3 ≤ 0xBF) ∨ (c2=0xBD ∧ 0x80 ≤ c3 ∧ c3 ≤ 0x9E)

instance (c2 c3 : UInt8) : Decidable (IsFullWidth c2 c3) :=
  inferInstanceAs (Decidable ((c2=0xBC ∧ 0x81 ≤ c3 ∧ c3 ≤ 0xBF) ∨
    (c2=0xBD ∧ 0x80 ≤ c3 ∧ c3 ≤ 0x9E)))

/-- The characters that a host refuses in a name, `< > : " \ | ? *`, as they are written. -/
def reserved : List (UInt8 × Bytes) :=
  [(0x3C,wide 0x9C),(0x3E,wide 0x9E),(0x3A,wide 0x9A),(0x22,wide 0x82),(0x5C,wide 0xBC),
    (0x7C,wideHigh 0x9C),(0x3F,wide 0x9F),(0x2A,wide 0x8A)]

/-- What `escape` writes for the character `c` in front of `rest`. -/
def escapeChar (escapeSlash : Bool) (c : UInt8) (rest : Bytes) : Bytes :=
  if c ≤ 9 then wide (0x90+c)
  else if c ≤ 31 then wide (0xA1+c-10)
  else
    match reserved.lookup c with
    | some written => written
    | none =>
      if c=0x2F then
        if escapeSlash then wide 0x8F else [c]
      else if c=0x2E ∨ c=0x20 then
        if getChar rest 0=0 then
          if c=0x2E then wide 0x8E else wide 0xBF
        else [c]
      else if c=0xEF then
        if IsFullWidth (getChar rest 0) (getChar rest 1) then wide 0x81++[c] else [c]
      else [c]

def hexDigits : Bytes :=
  [0x30,0x31,0x32,0x33,0x34,0x35,0x36,0x37,0x38,0x39,0x41,0x42,0x43,0x44,0x45,0x46]

def hex (digit : UInt8) : UInt8 := getChar hexDigits digit.toNat

def escapeLoop (escapeSlash : Bool) : ℕ → Bytes → Bytes
  | _, [] => []
  | utf8Left, b::rest =>
    if b < 0x80 then escapeChar escapeSlash b rest++escapeLoop escapeSlash utf8Left rest
    else if utf8Left≠0 then
      escapeChar escapeSlash b rest++escapeLoop escapeSlash (utf8Left-1) rest
    else if utf8SequenceSize (b::rest)≠0 then
      escapeChar escapeSlash b rest ++
        escapeLoop escapeSlash (utf8SequenceSize (b::rest)-1) rest
    else wide 0x85++hex (b >>> 4)::hex (b &&& 0xF)::escapeLoop escapeSlash utf8Left rest

def toupper (c : UInt8) : UInt8 := if 0x61 ≤ c ∧ c ≤ 0x7A then c-0x20 else c

def isDeviceName (name : Bytes) : Bool :=
  let triple := (name.take 3).map toupper
  if triple = ascii "COM" ∨ triple = ascii "LPT" then
    4 ≤ name.length ∧ 0x31 ≤ getChar name 3 ∧ getChar name 3 ≤ 0x39 ∧
      (name.length=4 ∨ getChar name 4=0x2E)
  else if triple = ascii "NUL" ∨ triple = ascii "CON" ∨ triple = ascii "AUX" ∨
      triple = ascii "PRN" then
    name.length=3 ∨ getChar name 3=0x2E
  else false

def escape (name : Bytes) (escapeSlash : Bool) : Bytes :=
  if name.length ≤ 2 ∧ findFirstNotOf name 0x2E 0=none then name
  else (if isDeviceName name then wide 0x81 else [])++escapeLoop escapeSlash 0 name

/-- What `unescape` makes of the last byte of a full-width character. -/
inductive Wide
  | byte (b : UInt8)
  | escaped
  | hex
  | unlinked
  | unknown
  deriving DecidableEq, Repr

def decodeWide (c3 : UInt8) : Wide :=
  if 0x90 ≤ c3 ∧ c3 ≤ 0x99 then .byte (c3-0x90)
  else if 0xA1 ≤ c3 ∧ c3 ≤ 0xB6 then .byte (c3-0xA1+10)
  else if c3=0x81 then .escaped
  else if c3=0x85 then .hex
  else if c3=0xBF then .byte 0x20
  else if c3=0x8E then .byte 0x2E
  else if c3=0x9C then .byte 0x3C
  else if c3=0x9E then .byte 0x3E
  else if c3=0x9A then .byte 0x3A
  else if c3=0x82 then .byte 0x22
  else if c3=0xBC then .byte 0x5C
  else if c3=0x9F then .byte 0x3F
  else if c3=0x8A then .byte 0x2A
  else if c3=0x84 then .unlinked
  else .unknown

def digit (h : UInt8) : Option UInt8 :=
  if 0x30 ≤ h ∧ h ≤ 0x39 then some (h-0x30)
  else if 0x41 ≤ h ∧ h ≤ 0x46 then some (h-0x41+10)
  else none

theorem length_drop_lt (c : UInt8) (rest : Bytes) (n : ℕ) :
    (rest.drop n).length < (c::rest).length :=
  Nat.lt_succ_of_le (List.length_drop ▸ Nat.sub_le ..)

/-- The loop of `unescape`; `start` says that it stands on the first byte of the name. -/
def unescapeLoop (start : Bool) (name : Bytes) : Bytes :=
  match name with
  | [] => []
  | c::rest =>
    if c=0xEF then
      let c3 := getChar rest 1
      if getChar rest 0=0xBC then
        if 0x81 ≤ c3 ∧ c3 ≤ 0xBF then
          match decodeWide c3 with
          | .byte b => b::unescapeLoop false (rest.drop 2)
          | .escaped =>
            if getChar rest 2=0 then []
            else getChar rest 2::unescapeLoop false (rest.drop 3)
          | .hex =>
            match digit (getChar rest 2), digit (getChar rest 3) with
            | some hi, some lo => (hi*16+lo)::unescapeLoop false (rest.drop 4)
            | _, _ => unescapeLoop false (rest.drop 2)
          | .unlinked => if start then [0x2E] else unescapeLoop false (rest.drop 2)
          | .unknown => unescapeLoop false (rest.drop 2)
        else c::unescapeLoop false rest
      else if getChar rest 0=0xBD then
        if 0x80 ≤ c3 ∧ c3 ≤ 0x9E then
          (if c3=0x9C then [0x7C] else [])++unescapeLoop false (rest.drop 2)
        else c::unescapeLoop false rest
      else c::unescapeLoop false rest
    else if c=0 then []
    else c::unescapeLoop false rest
termination_by name.length
decreasing_by
  all_goals first
    | exact length_drop_lt ..
    | exact Nat.lt_succ_self _

def unescape (name : Bytes) : Bytes := unescapeLoop true name

def IsControl (c : UInt8) : Prop := c < 0x20 ∨ c=0x7F

instance (c : UInt8) : Decidable (IsControl c) :=
  inferInstanceAs (Decidable (c < 0x20 ∨ c=0x7F))

theorem forall_byte {p : UInt8 → Prop} (h : ∀ n : Fin 256, p (UInt8.ofNat n)) (b : UInt8) : p b := by
  have := h ⟨b.toNat,b.toNat_lt⟩
  rwa [UInt8.ofNat_toNat] at this

end PS3Native.VfsEscape
