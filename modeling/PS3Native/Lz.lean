import Mathlib.Data.Nat.Bitwise
import PS3Native.Endian

/-!
# The decompressor of EDAT blocks

`decompress` decodes bits with adaptive probabilities from a table, and from the bits bytes and back
references to bytes that it has written. An access outside of the table, a write outside of the output
and a reference to a byte that has not been written are failures here.
-/
namespace PS3Native.Lz

abbrev Bytes := List UInt8

/-- The memory from the input on: the input and whatever is behind it. -/
abbrev Source := ℕ → UInt8

def tableSize : ℕ := 0xCC8

/-- The state of the range decoder: `range`, `code`, how far `in` has been moved and the table. -/
structure Decoder where
  range : UInt32
  code : UInt32
  pos : ℕ
  tmp : ℕ → UInt8

def decodeRange (src : Source) (d : Decoder) : Decoder :=
  if d.range >>> 24=0 then
    { d with
      range := d.range <<< 8
      code := (d.code <<< 8)+(src (d.pos+5)).toUInt32
      pos := d.pos+1 }
  else d

/-- `decode_bit` with the probability at an index of the table. -/
@[irreducible] def decodeBit (src : Source) (d : Decoder) (c : ℕ) : Option (Bool × Decoder) :=
  if c < tableSize then
    let d := decodeRange src d
    let p := d.tmp c
    let val := (d.range >>> 8)*p.toUInt32
    let p := p-p >>> 3
    if d.code < val then
      some (true,{d with range := val, tmp := fun i => if i=c then p+31 else d.tmp i})
    else
      some (false,
        { d with range := d.range-val, code := d.code-val,
                 tmp := fun i => if i=c then p else d.tmp i })
  else none

def decodeInto (src : Source) (d : Decoder) (c index : ℕ) : Option (ℕ × Decoder) :=
  (decodeBit src d c).map fun (bit,d) => (2*index+bit.toNat,d)

def decodeWhen (p : Bool) (src : Source) (c : ℕ) : ℕ × Decoder → Option (ℕ × Decoder)
  | (index,d) => if p then decodeInto src d c index else some (index,d)

/-- The loop of `decode_number` and `decode_word` over bits without probabilities. -/
def directBits : ℕ → ℕ → Decoder → ℕ × Decoder
  | 0, i, d => (i,d)
  | n+1, i, d =>
    let d := {d with range := d.range >>> 1}
    if d.code < d.range then directBits n (2*i+1) d
    else directBits n (2*i) {d with code := d.code-d.range}

/-- `decode_number` and `decode_word`, which differ in the places of the probabilities. The number is
not cut to the width of `int`. -/
def decodeValue (high mid low : ℕ) (src : Source) (ptr index : ℕ) (d : Decoder) :
    Option (ℕ × Decoder) := do
  let r ← decodeWhen (index ≥ 3) src (ptr+high) (1,d)
  let (i,d) ← decodeWhen (index ≥ 4) src (ptr+high) r
  let r := if index ≥ 5 then directBits (index-4) i (decodeRange src d) else (i,d)
  let r ← decodeWhen true src ptr r
  let r ← decodeWhen (index ≥ 1) src (ptr+mid) r
  decodeWhen (index ≥ 2) src (ptr+low) r

def decodeNumber (src : Source) (ptr index : ℕ) (d : Decoder) : Option (ℕ × Decoder) :=
  decodeValue 0x18 0x8 0x10 src ptr index d

def decodeWord (src : Source) (ptr index : ℕ) (d : Decoder) : Option (ℕ × Decoder) :=
  decodeValue 4 1 2 src ptr (index/8) d

def toInt (n : ℕ) : ℤ := (BitVec.ofNat 32 n).toInt

def decodeByte (src : Source) (sect : ℕ) : ℕ → ℕ → Decoder → Option (ℕ × Decoder)
  | 0, _, _ => none
  | fuel+1, index, d => do
    let (index,d) ← decodeInto src d (sect+index-1) index
    if index >>> 8=0 then decodeByte src sect fuel index d else some (index,d)

/-- The loop that identifies the length field: `index + 1`, after at most so many bits. -/
def lengthField (src : Source) : ℕ → ℕ → Decoder → Option (ℕ × Decoder)
  | 0, _, d => some (0,d)
  | n+1, sect, d => do
    let (bit,d) ← decodeBit src d (sect+8)
    if bit then (lengthField src n (sect+8) d).map fun (k,d) => (k+1,d) else some (0,d)

/-- The loop that identifies the offset field: `diff` and the last bit. -/
def offsetField (src : Source) (bSize sect : ℕ) : ℕ → ℕ → Decoder → Option (ℕ × Bool × Decoder)
  | 0, _, _ => none
  | fuel+1, shift, d => do
    let (bit,d) ← decodeBit src d (sect+8*shift)
    if 16*shift < bSize then offsetField src bSize sect fuel (2*shift+bit.toNat) d
    else some (16*shift-bSize,bit,d)

/-- What is decoded in one round: the end of the stream, a byte or a back reference with
`data_length` and the number that `data_offset` is decoded from. -/
inductive Token
  | done
  | byte (value : UInt8)
  | copy (length offset : ℕ)
deriving DecidableEq, Repr

structure State where
  decoder : Decoder
  out : Bytes := []
  offset : ℕ := 0

def State.prev (s : State) : UInt8 := s.out.getLastD 0

/-- `data_length`, if the length field has been found, else one. -/
def decodeLength (src : Source) (k sect : ℕ) (d : Decoder) : Option (ℕ × Decoder) :=
  if k ≥ 1 then decodeNumber src (0xBA8+sect) (k-1) d else some (1,d)

def decodeCopy (src : Source) (s : State) (d : Decoder) : Option (Token × Decoder) := do
  let (k,d) ← lengthField src 7 (s.offset+0xB68) d
  let sect := ((k-1) <<< 5) ||| (((s.out.length <<< (k-1))%4) <<< 3) ||| (s.offset%8)
  let (length,d) ← decodeLength src k sect d
  if k ≥ 1 ∧ length=0xFF then some (.done,d) else
    let sect := if length ≤ 2 then k+0x7F0+0xF8 else k+0x7F0
    let bSize := if length ≤ 2 then 0x40 else 0x160
    let (diff,bit,d) ← offsetField src bSize sect 6 1 d
    if diff > 0 ∨ bit then
      let diff := if bit then diff else diff-8
      (decodeWord src (0x928+diff) diff d).map fun (i,d) => (.copy length i,d)
    else some (.copy length 1,d)

/-- The part of a round that decodes. The shift is that of the processor, which looks at the lowest
five bits of the count only. -/
def decodeToken (src : Source) (size : ℕ) (s : State) : Option (Token × Decoder) := do
  let (bit,d) ← decodeBit src s.decoder (s.offset+0xB68)
  if bit then decodeCopy src s d
  else if s.out.length=size then some (.done,d)
  else
    let sect := ((s.out.length%8*256+s.prev.toNat) >>> ((src 0).toNat%32))%8*0xFF
    (decodeByte src sect 8 1 d).map fun (index,d) => (.byte index.toUInt8,d)

def write (size : ℕ) (out : Bytes) (b : UInt8) : Option Bytes :=
  if out.length < size then some (out++[b]) else none

def copyLoop (size : ℕ) : ℕ → ℕ → Bytes → Option Bytes
  | 0, _, out => some out
  | n+1, bufStart, out => do
    let b ← out[bufStart]?
    let out ← write size out b
    copyLoop size n (bufStart+1) out

/-- One round of `decompress`: the value that it returns, or the next state. -/
def step (src : Source) (size : ℕ) (s : State) : Option (ℤ ⊕ State) := do
  let (token,d) ← decodeToken src size s
  match token with
  | .done => some (.inl (toInt s.out.length))
  | .byte b => (write size s.out b).map fun out => .inr ⟨d,out,s.offset-1⟩
  | .copy length offset =>
    let bufStart := (s.out.length : ℤ)-toInt offset
    if bufStart < 0 then some (.inl (-1))
    else if s.out.length+length+1 > size then some (.inl (-1))
    else
      (copyLoop size (length+1) bufStart.toNat s.out).map fun out =>
        .inr ⟨d,out,(s.out.length+length+1+1)%2+6⟩

def loop (src : Source) (size : ℕ) : ℕ → State → Option (ℤ × Bytes)
  | 0, _ => none
  | fuel+1, s =>
    match step src size s with
    | none => none
    | some (.inl value) => some (value,s.out)
    | some (.inr s) => loop src size fuel s

def initialCode (src : Source) : ℕ := beNat [src 1,src 2,src 3,src 4]

def initialState (src : Source) : State :=
  {decoder := ⟨0xFFFFFFFF,(initialCode src).toUInt32,0,fun i => if i < 0xCA8 then 0x80 else 0⟩}

/-- `decompress`: the value that it returns and the bytes written. Each round writes a byte or ends,
so that `size + 1` rounds are enough. -/
def decompress (src : Source) (size : ℕ) : Option (ℤ × Bytes) :=
  if src 0 > 0x80 then
    if initialCode src ≤ size then some (0,(List.range (initialCode src)).map fun i => src (5+i))
    else some (-1,[])
  else loop src size (size+1) (initialState src)

end PS3Native.Lz
